import ThirdParty.Httpd.Correctness.Cursors

/-!
# `Httpd.Correctness.Answer` — the file that answers a request

`Opens` says that a request takes at most one slot. Here it is said which file is in that slot: the first that the ROM
has among the names which the request makes `http_recv` try. Parsing leaves the memory and the rest of the
`http_state` alone (`Edits`), so the state in which `send_data` is called for the first time is known as a whole.
-/

namespace ThirdParty.Httpd

open Lib Lwip

/-! ## Parsing leaves the memory alone -/

/-- **`c'` differs from `c` in the request only**: the payload and what was read out of it. -/
structure Edits (c c' : Ctx) : Prop where
  mem : c'.mem = c.mem
  hs  : ∃ params vals, c'.hs = { c.hs with params := params, paramVals := vals }

section
variable {c c' c'' : Ctx}

theorem Edits.of_eq (hmem : c'.mem = c.mem) (hhs : c'.hs = c.hs) : Edits c c' :=
  ⟨hmem, c.hs.params, c.hs.paramVals, hhs⟩

theorem Edits.refl (c : Ctx) : Edits c c := .of_eq rfl rfl

theorem Edits.emit (c : Ctx) (e : Ev) : Edits c (c.emit e) := .of_eq rfl rfl

theorem Edits.setParams (c : Ctx) (params vals : Nat → Option Nat) :
    Edits c (c.setHs { c.hs with params := params, paramVals := vals }) := ⟨rfl, params, vals, rfl⟩

theorem Edits.trans (h : Edits c c') (h' : Edits c' c'') : Edits c c'' := by
  obtain ⟨_, _, hhs⟩ := h.hs
  obtain ⟨params, vals, hhs'⟩ := h'.hs
  exact ⟨h'.mem.trans h.mem, params, vals, by rw [hhs', hhs]⟩

theorem Edits.tagCheck (h : Edits c c') : c'.hs.tagCheck = c.hs.tagCheck := by
  obtain ⟨params, vals, hhs⟩ := h.hs
  rw [hhs]

end

section
variable (c : Ctx) (u : Uri)

theorem readUri_edits (i n : Nat) : Edits c (c.readUri u i n) := by cases u <;> exact .of_eq rfl rfl

theorem cutUri_edits (i : Nat) : Edits c (c.cutUri u i).2 := by cases u <;> exact .of_eq rfl rfl

theorem restoreUri_edits (i : Nat) (ch : Byte) : Edits c (c.restoreUri u i ch) := by cases u <;> exact .of_eq rfl rfl

theorem writePayload_edits (i : Nat) (b : Byte) : Edits c (c.writePayload i b) := .of_eq rfl rfl

theorem uriStrchr_edits (i : Nat) (ch : Byte) : Edits c (c.uriStrchr u i ch).2 := readUri_edits c u _ _

theorem uriStrcmp_edits (i : Nat) (t : List Byte) : Edits c (c.uriStrcmp u i t).2 := readUri_edits c u _ _

theorem uriStrstr_edits (t : List Byte) : Edits c (c.uriStrstr u t).2 := by
  unfold Ctx.uriStrstr
  simp only
  split <;> exact readUri_edits c u _ _

end

theorem readNames_edits (u : Uri) : ∀ (fs : List FsDataFile) (c : Ctx), Edits c (Ctx.readNames u fs c) := by
  intro fs
  induction fs with
  | nil => intro c; exact .refl c
  | cons f fs ih =>
      intro c
      unfold Ctx.readNames
      simp only
      split
      · exact uriStrcmp_edits c u 0 f.name
      · exact (uriStrcmp_edits c u 0 f.name).trans (ih _)

theorem findHttp_edits (len : Nat) : ∀ (fuel i : Nat) (c : Ctx), Edits c (findHttp len fuel i c).2 := by
  intro fuel
  induction fuel with
  | zero => intro i c; exact .refl c
  | succ fuel ih =>
      intro i c
      have hread : Edits c (c.emit (.payloadRead i (prefixReads (lit " HTTP") (c.payload.drop i)))) := .emit c _
      unfold findHttp
      split
      · simp only
        split
        · exact hread.trans (writePayload_edits _ _ _)
        · exact hread.trans (ih _ _)
      · exact .refl c

/-! ### The headers -/

theorem findExtension_edits (u : Uri) : ∀ (fuel start : Nat) (ext : Option Nat) (c : Ctx),
    Edits c (findExtension u fuel start ext c).2 := by
  intro fuel
  induction fuel with
  | zero => intro start ext c; exact .refl c
  | succ fuel ih =>
      intro start ext c
      have hread := uriStrchr_edits c u start 46
      unfold findExtension
      generalize c.uriStrchr u start 46 = r at hread
      obtain ⟨found, c'⟩ := r
      cases found with
      | some i => exact hread.trans (ih _ _ _)
      | none => exact hread

theorem findHeader_edits (u : Uri) (ext : Nat) : ∀ (hs : List HttpHeader) (c : Ctx),
    Edits c (findHeader u ext hs c).2 := by
  intro hs
  induction hs with
  | nil => intro c; exact .refl c
  | cons h hs ih =>
      intro c
      unfold findHeader
      split
      · exact (Edits.emit c _).trans (ih _)
      · next e _ =>
          simp only
          split
          · exact uriStrcmp_edits c u ext e
          · exact (uriStrcmp_edits c u ext e).trans (ih _)

theorem contentType_edits (u : Uri) (c : Ctx) : Edits c (contentType u c).2.2 := by
  have hext := findExtension_edits u ((c.uriText u).length + 1) 0 none c
  unfold contentType
  generalize findExtension u ((c.uriText u).length + 1) 0 none c = r at hext
  obtain ⟨ext, c'⟩ := r
  cases ext with
  | none => exact hext
  | some ext => exact hext.trans (findHeader_edits u ext httpHeaders c')

theorem uriContentType_edits (u : Uri) (c : Ctx) : Edits c (uriContentType u c).2.2 := by
  have hread := uriStrchr_edits c u 0 63
  unfold uriContentType
  generalize c.uriStrchr u 0 63 = r at hread
  obtain ⟨vars, c'⟩ := r
  cases vars with
  | none => exact hread.trans (contentType_edits u c')
  | some i =>
      have hcut := cutUri_edits c' u i
      simp only
      generalize c'.cutUri u i = r at hcut
      obtain ⟨cut, c''⟩ := r
      exact hread.trans (hcut.trans ((contentType_edits cut c'').trans (restoreUri_edits _ u i 63)))

theorem getHttpHeaders_mem (c : Ctx) (uri : Uri) : (getHttpHeaders c uri).mem = c.mem := by
  unfold getHttpHeaders
  simp only
  split
  · rfl
  · have hstatus : (setStatusHeader uri ((c.useState).setHs (c.useState.hs.setHdr 1 .server))).mem = c.mem :=
      (uriStrstr_edits _ uri (lit "404")).mem
    have htype := (uriContentType_edits uri
      (setStatusHeader uri ((c.useState).setHs (c.useState.hs.setHdr 1 .server)))).mem
    generalize uriContentType uri (setStatusHeader uri ((c.useState).setHs (c.useState.hs.setHdr 1 .server))) = r
      at htype
    obtain ⟨ext, hdr, c'⟩ := r
    cases ext <;> exact htype.trans hstatus

/-! ### The parameters and the dispatch -/

theorem splitPair_edits (pair : Nat) (c : Ctx) : Edits c (splitPair pair c).2 := by
  have hamp := uriStrchr_edits c (.payload pair) 0 38
  unfold splitPair
  generalize c.uriStrchr (.payload pair) 0 38 = r at hamp
  obtain ⟨found, c₁⟩ := r
  cases found with
  | some i => exact hamp.trans (writePayload_edits _ _ _)
  | none =>
      have hspace := uriStrchr_edits c₁ (.payload pair) 0 32
      simp only
      generalize c₁.uriStrchr (.payload pair) 0 32 = r at hspace
      obtain ⟨found, c₂⟩ := r
      cases found with
      | some i => exact hamp.trans (hspace.trans (writePayload_edits _ _ _))
      | none => exact hamp.trans hspace

theorem splitValue_edits (pair : Nat) (c : Ctx) : Edits c (splitValue pair c).2 := by
  have hequals := uriStrchr_edits c (.payload pair) 0 61
  unfold splitValue
  generalize c.uriStrchr (.payload pair) 0 61 = r at hequals
  obtain ⟨found, c₁⟩ := r
  cases found with
  | some i => exact hequals.trans (writePayload_edits _ _ _)
  | none => exact hequals

theorem extractPairs_edits : ∀ (fuel loop : Nat) (pair : Option Nat) (c : Ctx),
    Edits c (extractPairs fuel loop pair c).2 := by
  intro fuel
  induction fuel with
  | zero => intro loop pair c; exact .refl c
  | succ fuel ih =>
      intro loop pair c
      cases pair with
      | none => exact .refl c
      | some pair =>
          unfold extractPairs
          simp only
          refine Edits.trans ?_ (ih _ _ _)
          refine Edits.trans ?_ (.setParams _ _ _)
          refine Edits.trans ?_ (splitValue_edits pair _)
          refine Edits.trans ?_ (splitPair_edits pair _)
          exact (Edits.emit c _).trans (.setParams c.useState _ _)

theorem extractUriParameters_edits (cfg : Config) (params : Option Nat) (c : Ctx) :
    Edits c (extractUriParameters cfg params c).2 := by
  unfold extractUriParameters
  cases params with
  | none => exact .refl c
  | some p =>
      simp only
      split
      · exact .of_eq rfl rfl
      · exact (Edits.emit c _).trans (extractPairs_edits _ _ _ _)

theorem findCgi_edits (u : Uri) :
    ∀ (names : List (List Byte)) (i : Nat) (c : Ctx), Edits c (findCgi u names i c).2 := by
  intro names
  induction names with
  | nil => intro i c; exact .refl c
  | cons name names ih =>
      intro i c
      unfold findCgi
      simp only
      split
      · exact uriStrcmp_edits c u 0 name
      · exact (uriStrcmp_edits c u 0 name).trans (ih _ _)

theorem isolateBase_edits (off : Nat) (c : Ctx) : Edits c (isolateBase off c).2 := by
  have hquery := uriStrchr_edits c (.payload off) 0 63
  unfold isolateBase
  generalize c.uriStrchr (.payload off) 0 63 = r at hquery
  obtain ⟨query, c₁⟩ := r
  cases query with
  | none => exact hquery
  | some i => exact hquery.trans (writePayload_edits _ _ _)

theorem reinstateQuery_edits (off : Nat) (query : Option Nat) (c : Ctx) : Edits c (reinstateQuery off query c) := by
  unfold reinstateQuery
  cases query with
  | none => exact .refl c
  | some i => exact writePayload_edits _ _ _

theorem dispatchCgi_edits (cfg : Config) (env : Env) (off : Nat) (c : Ctx) : Edits c (dispatchCgi cfg env off c).2 := by
  have hbase := isolateBase_edits off c
  unfold dispatchCgi
  generalize isolateBase off c = r at hbase
  obtain ⟨query, c₁⟩ := r
  match cfg.cgis with
  | none | some [] => exact hbase
  | some (name :: handlers) =>
      have hfind := findCgi_edits (.payload off) (name :: handlers) 0 c₁
      simp only
      generalize findCgi (.payload off) (name :: handlers) 0 c₁ = r at hfind
      obtain ⟨found, c₂⟩ := r
      cases found with
      | some i => exact hbase.trans (hfind.trans (extractUriParameters_edits cfg _ c₂))
      | none => exact hbase.trans (hfind.trans (reinstateQuery_edits off query c₂))

/-- The loop over the extensions finds out whether the name has one of them. -/
theorem hasSsiExtension_spec (u : Uri) : ∀ (exts : List (List Byte)) (c : Ctx),
    Edits c (hasSsiExtension u exts c).2 ∧
    (hasSsiExtension u exts c).1 = exts.any fun ext => (strstr (c.uriText u) ext).isSome := by
  intro exts
  induction exts with
  | nil => intro c; exact ⟨.refl c, rfl⟩
  | cons ext exts ih =>
      intro c
      have hread := uriStrstr_edits c u ext
      have hpay : (c.uriStrstr u ext).2.payload = c.payload := by
        unfold Ctx.uriStrstr
        simp only
        split <;> exact readUri_payload c u _ _
      have hfound : (c.uriStrstr u ext).1 = (strstr (c.uriText u) ext).isSome := by
        unfold Ctx.uriStrstr
        simp only
        cases strstr (c.uriText u) ext <;> rfl
      obtain ⟨hrest, heq⟩ := ih (c.uriStrstr u ext).2
      rw [uriText_congr hpay] at heq
      unfold hasSsiExtension
      rw [List.any_cons, ← hfound, ← heq]
      generalize c.uriStrstr u ext = r at hread hrest
      obtain ⟨found, c'⟩ := r
      cases found with
      | true => exact ⟨hread, rfl⟩
      | false => exact ⟨hread.trans hrest, rfl⟩

/-! ## One name after the other -/

/-- The pages that `get_404_file` tries; they are not parsed for tags. -/
def notFoundPages : List (List Byte × Bool) := [(lit "/404.html", false), (lit "/404.htm", false)]

/-- The name has an extension of the files that are parsed for tags. -/
def isSsiName (name : List Byte) : Bool := ssiExtensions.any fun ext => (strstr name ext).isSome

/-- The names that a request makes `http_recv` try, each with whether its file is parsed for tags. -/
def triedNames (cfg : Config) (env : Env) (payload : List Byte) : List (List Byte × Bool) :=
  (if IsRoot payload then defaultFilenames
   else [((requestedName cfg env payload).2, isSsiName (requestedName cfg env payload).2)]) ++ notFoundPages

/-- The first of the names that is in the ROM. -/
def firstFile (cfg : Config) (names : List (List Byte × Bool)) : Option (FsDataFile × Bool) :=
  names.findSome? fun n => (cfg.fsRoot.find? fun f => f.name = n.1).map fun f => (f, n.2)

/-- **The file that answers a request.** -/
def answer (cfg : Config) (env : Env) (payload : List Byte) : Option (FsDataFile × Bool) :=
  firstFile cfg (triedNames cfg env payload)

/-- **`r` comes of trying `names`**: a slot holds the first of them that is in the ROM, or there is no slot or no such
    file. -/
structure Tries (cfg : Config) (names : List (List Byte × Bool)) (c : Ctx) (r : Option Nat × Uri × Ctx) : Prop where
  mem    : r.2.2.mem = c.mem
  missed : r.1 = none → ¬(FsHasFree c.fs ∧ firstFile cfg names ≠ none)
  opened : ∀ i, r.1 = some i → ∃ f ssi, firstFile cfg names = some (f, ssi) ∧ FsHasFree c.fs ∧
    fsFile r.2.2.fs i = ⟨f.data, f.len, f.len⟩ ∧ (cfg.includeHttpdSsi = true → r.2.2.hs.tagCheck = ssi)

theorem readNames_payload (u : Uri) : ∀ (fs : List FsDataFile) (c : Ctx),
    (Ctx.readNames u fs c).payload = c.payload := by
  intro fs
  induction fs with
  | nil => intro c; rfl
  | cons f fs ih =>
      intro c
      unfold Ctx.readNames
      simp only
      split
      · exact readUri_payload c u _ _
      · exact (ih _).trans (readUri_payload c u _ _)

/-- **`fs_open`** misses, or opens the record with the name. -/
theorem fsOpenUri_cases (cfg : Config) (u : Uri) (c : Ctx) :
    (∃ c₁, c.fsOpenUri cfg.fsRoot u = (none, c₁) ∧ Edits c c₁ ∧ c₁.fs = c.fs ∧
      (FsHasFree c.fs → cfg.fsRoot.find? (fun f => f.name = c.uriText u) = none)) ∨
    (∃ i c₁ f, c.fsOpenUri cfg.fsRoot u = (some i, c₁) ∧ Edits c c₁ ∧ c₁.payload = c.payload ∧ FsHasFree c.fs ∧
      cfg.fsRoot.find? (fun f => f.name = c.uriText u) = some f ∧ fsFile c₁.fs i = ⟨f.data, f.len, f.len⟩) := by
  have hread : Edits c (if (fsMalloc c.fs).isSome then Ctx.readNames u cfg.fsRoot c else c) := by
    split
    · exact readNames_edits u cfg.fsRoot c
    · exact .refl c
  have hfs : (if (fsMalloc c.fs).isSome then Ctx.readNames u cfg.fsRoot c else c).fs = c.fs := by
    split
    · exact (readNames_parses u cfg.fsRoot c).fs
    · rfl
  have hpay : (if (fsMalloc c.fs).isSome then Ctx.readNames u cfg.fsRoot c else c).payload = c.payload := by
    split
    · exact readNames_payload u cfg.fsRoot c
    · rfl
  unfold Ctx.fsOpenUri
  simp only
  generalize (if (fsMalloc c.fs).isSome = true then Ctx.readNames u cfg.fsRoot c else c) = c₁ at hread hfs hpay
  rw [hfs]
  rcases fsOpen_cases cfg.fsRoot c.fs (c.uriText u) with ⟨heq, hno⟩ | ⟨i, f, t, heq, ht, hfree, hfind⟩
  · rw [heq]
    refine .inl ⟨_, rfl, ⟨hread.mem, hread.hs⟩, rfl, fun hslot => List.find?_eq_none.mpr fun f hf hname =>
      hno ⟨hslot, f, hf, ?_⟩⟩
    simpa using hname
  · rw [heq]
    refine .inr ⟨i, _, f, rfl, ⟨hread.mem, hread.hs⟩, hpay, ⟨t, List.mem_of_getElem? ht, hfree⟩, hfind, ?_⟩
    simp [fsFile, ht]

section
variable {cfg : Config} {names names' : List (List Byte × Bool)} {name : List Byte} {ssi : Bool} {c c₁ c₂ : Ctx}
  {uri : Uri} {file : Option Nat} {r : Option Nat × Uri × Ctx}

/-- The first name is found. -/
theorem Tries.hit {i : Nat} {f : FsDataFile} (hedits : Edits c c₁) (hfree : FsHasFree c.fs)
    (hfind : cfg.fsRoot.find? (fun f => f.name = name) = some f) (hfile : fsFile c₁.fs i = ⟨f.data, f.len, f.len⟩)
    (hmem : c₂.mem = c₁.mem) (hfs : c₂.fs = c₁.fs) (htag : cfg.includeHttpdSsi = true → c₂.hs.tagCheck = ssi) :
    Tries cfg ((name, ssi) :: names) c (some i, uri, c₂) := by
  refine ⟨hmem.trans hedits.mem, fun h => absurd h (Option.some_ne_none i), fun j hj => ?_⟩
  obtain rfl := Option.some.inj hj
  refine ⟨f, ssi, ?_, hfree, by rw [← hfile, ← hfs], htag⟩
  simp [firstFile, hfind]

/-- The first name is not found, and the others are tried. -/
theorem Tries.miss (hedits : Edits c c₁) (hfs : c₁.fs = c.fs)
    (hnone : FsHasFree c.fs → cfg.fsRoot.find? (fun f => f.name = name) = none) (h : Tries cfg names c₁ r) :
    Tries cfg ((name, ssi) :: names) c r := by
  have hsame : FsHasFree c.fs → firstFile cfg ((name, ssi) :: names) = firstFile cfg names := by
    intro hfree
    simp [firstFile, hnone hfree]
  refine ⟨h.mem.trans hedits.mem, fun hmissed => ?_, fun i hi => ?_⟩
  · rintro ⟨hfree, hfound⟩
    apply h.missed hmissed
    rw [hfs]
    exact ⟨hfree, by rw [← hsame hfree]; exact hfound⟩
  · obtain ⟨f, ssi, hfirst, hfree, hfile⟩ := h.opened i hi
    rw [hfs] at hfree
    exact ⟨f, ssi, by rw [hsame hfree]; exact hfirst, hfree, hfile⟩

theorem Tries.before (h : Tries cfg names c₁ r) (hmem : c₁.mem = c.mem) (hfs : c₁.fs = c.fs) : Tries cfg names c r :=
  ⟨h.mem.trans hmem, by rw [← hfs]; exact h.missed, by rw [← hfs]; exact h.opened⟩

end

/-- `hs->tag_check = b;` touches nothing else. -/
theorem setTagCheck_sets (cfg : Config) (c : Ctx) (b : Bool) : (setTagCheck cfg c b).mem = c.mem ∧
    (setTagCheck cfg c b).fs = c.fs ∧ (cfg.includeHttpdSsi = true → (setTagCheck cfg c b).hs.tagCheck = b) := by
  unfold setTagCheck
  split
  · exact ⟨rfl, rfl, fun _ => rfl⟩
  · next hssi => exact ⟨rfl, rfl, fun h => absurd h hssi⟩

theorem setTagCheck_payload (cfg : Config) (c : Ctx) (b : Bool) : (setTagCheck cfg c b).payload = c.payload := by
  unfold setTagCheck
  split <;> rfl

/-- `get_404_file`, which leaves `tag_check` as it finds it. -/
theorem get404File_tries {cfg : Config} {c : Ctx} (htag : cfg.includeHttpdSsi = true → c.hs.tagCheck = false) :
    Tries cfg notFoundPages c (get404File cfg c) ∧ (get404File cfg c).2.2.hs.tagCheck = c.hs.tagCheck := by
  unfold get404File notFoundPages
  rcases fsOpenUri_cases cfg (.const (lit "/404.html")) c with
    ⟨c₁, heq, hedits, hfs, hnone⟩ | ⟨i, c₁, f, heq, hedits, -, hfree, hfind, hfile⟩
  swap
  · rw [heq]
    exact ⟨.hit hedits hfree hfind hfile rfl rfl fun hssi => hedits.tagCheck.trans (htag hssi), hedits.tagCheck⟩
  rw [heq]
  rcases fsOpenUri_cases cfg (.const (lit "/404.htm")) c₁ with
    ⟨c₂, heq', hedits', hfs', hnone'⟩ | ⟨i, c₂, f, heq', hedits', -, hfree', hfind', hfile'⟩
  · simp only [heq']
    refine ⟨.miss hedits hfs hnone (.miss hedits' hfs' hnone' ⟨rfl, fun _ h => h.2 rfl, ?_⟩),
      hedits'.tagCheck.trans hedits.tagCheck⟩
    exact fun i hi => absurd hi.symm (Option.some_ne_none i)
  · simp only [heq']
    refine ⟨.miss hedits hfs hnone (.hit hedits' hfree' hfind' hfile' rfl rfl fun hssi => ?_),
      hedits'.tagCheck.trans hedits.tagCheck⟩
    exact hedits'.tagCheck.trans (hedits.tagCheck.trans (htag hssi))

/-- The loop over the default files. -/
theorem openDefault_tries (cfg : Config) : ∀ (names : List (List Byte × Bool)) (c : Ctx),
    (cfg.includeHttpdSsi = true → c.hs.tagCheck = false) →
    Tries cfg (names ++ notFoundPages) c (openDefault cfg names c) := by
  intro names
  induction names with
  | nil =>
      intro c htag
      obtain ⟨h, -⟩ := get404File_tries htag
      unfold openDefault
      generalize get404File cfg c = r at h
      obtain ⟨file, uri, c₁⟩ := r
      obtain ⟨hmem, hfs, hset⟩ := setTagCheck_sets cfg c₁ false
      -- the pages are not parsed for tags, so the assignment repeats what is known
      refine ⟨hmem.trans h.mem, h.missed, fun i hi => ?_⟩
      obtain ⟨f, ssi, hfirst, hfree, hfile, hcheck⟩ := h.opened i hi
      refine ⟨f, ssi, hfirst, hfree, by rw [← hfile]; exact congrArg (fsFile · i) hfs, fun hssi => (hset hssi).trans ?_⟩
      obtain ⟨n, hn, hsome⟩ := List.exists_of_findSome?_eq_some hfirst
      obtain ⟨g, -, heq⟩ := Option.map_eq_some_iff.mp hsome
      have hfalse : n.2 = false := by
        rcases List.mem_cons.mp hn with rfl | hn
        · rfl
        · rw [List.mem_singleton.mp hn]
      rw [← hfalse]
      exact (Prod.mk.inj heq).2
  | cons n names ih =>
      intro c htag
      obtain ⟨name, shtml⟩ := n
      unfold openDefault
      rcases fsOpenUri_cases cfg (.const name) c with
        ⟨c₁, heq, hedits, hfs, hnone⟩ | ⟨i, c₁, f, heq, hedits, -, hfree, hfind, hfile⟩
      · rw [heq]
        exact .miss hedits hfs hnone (ih c₁ fun hssi => hedits.tagCheck.trans (htag hssi))
      · rw [heq]
        obtain ⟨hmem, hfs, hset⟩ := setTagCheck_sets cfg c₁ shtml
        exact .hit hedits hfree hfind hfile hmem hfs hset

/-- A request for a file by its name. -/
theorem openNamed_tries {cfg : Config} {c : Ctx} (env : Env)
    (htag : cfg.includeHttpdSsi = true → c.hs.tagCheck = false) :
    Tries cfg (((requestedName cfg env c.payload).2, isSsiName (requestedName cfg env c.payload).2) :: notFoundPages) c
      (openNamed cfg env 4 c) := by
  obtain ⟨uri, c₁, heq, hname, hparses⟩ := requestedName_spec cfg env c
  have hedits : Edits c c₁ := by
    have hdispatch : Edits c (if cfg.includeHttpdCgi then dispatchCgi cfg env 4 c else (Uri.payload 4, c)).2 := by
      split
      · exact dispatchCgi_edits cfg env 4 c
      · exact .refl c
    rw [heq] at hdispatch
    exact hdispatch
  rw [hname]
  unfold openNamed
  rw [heq]
  simp only
  refine Tries.before ?_ hedits.mem hparses.fs
  have htag₁ : cfg.includeHttpdSsi = true → c₁.hs.tagCheck = false := fun hssi => hedits.tagCheck.trans (htag hssi)
  rcases fsOpenUri_cases cfg uri c₁ with
    ⟨c₂, hopen, hedits₂, hfs, hnone⟩ | ⟨i, c₂, f, hopen, hedits₂, hpay, hfree, hfind, hfile⟩
  · rw [hopen]
    exact .miss hedits₂ hfs hnone (get404File_tries fun hssi => hedits₂.tagCheck.trans (htag₁ hssi)).1
  · rw [hopen]
    simp only
    split
    swap
    · next hssi => exact .hit hedits₂ hfree hfind hfile rfl rfl fun h => absurd h hssi
    -- the flag is cleared, and set again for one of the extensions
    obtain ⟨hmem, hfs, hset⟩ := setTagCheck_sets cfg c₂ false
    obtain ⟨hlook, hfound⟩ := hasSsiExtension_spec uri ssiExtensions (setTagCheck cfg c₂ false)
    have hlookfs := (hasSsiExtension_parses uri ssiExtensions (setTagCheck cfg c₂ false)).fs
    have hname₂ : (setTagCheck cfg c₂ false).uriText uri = c₁.uriText uri :=
      uriText_congr ((setTagCheck_payload cfg c₂ false).trans hpay) uri
    rw [hname₂] at hfound
    generalize hasSsiExtension uri ssiExtensions (setTagCheck cfg c₂ false) = r at hlook hfound hlookfs
    obtain ⟨ssi, c₃⟩ := r
    simp only at hfound
    unfold isSsiName
    rw [← hfound]
    cases ssi with
    | false =>
        exact .hit hedits₂ hfree hfind hfile (hlook.mem.trans hmem) (hlookfs.trans hfs) fun hssi =>
          hlook.tagCheck.trans (hset hssi)
    | true =>
        obtain ⟨hmem', hfs', hset'⟩ := setTagCheck_sets cfg c₃ true
        exact .hit hedits₂ hfree hfind hfile (hmem'.trans (hlook.mem.trans hmem)) (hfs'.trans (hlookfs.trans hfs)) hset'

/-- **The requested file** is the first of the names tried that is in the ROM. -/
theorem openRequested_tries (cfg : Config) (env : Env) (c : Ctx) :
    Tries cfg (triedNames cfg env c.payload) c (openRequested cfg env c) := by
  obtain ⟨hmem, hfs, hset⟩ := setTagCheck_sets cfg c false
  have hpay := setTagCheck_payload cfg c false
  unfold openRequested triedNames IsRoot
  generalize setTagCheck cfg c false = c₁ at hmem hfs hset hpay
  simp only [Ctx.emit_payload, hpay]
  -- looking at two bytes of the name changes nothing
  have htries : ∀ c₂ : Ctx, c₂.mem = c₁.mem → c₂.fs = c₁.fs → c₂.hs = c₁.hs → c₂.payload = c₁.payload →
      Tries cfg ((if c.payload.getD 4 0 = 47 ∧ c.payload.getD 5 0 = 0 then defaultFilenames
        else [((requestedName cfg env c.payload).2, isSsiName (requestedName cfg env c.payload).2)]) ++ notFoundPages) c
        (if c.payload.getD 4 0 = 47 ∧ c.payload.getD 5 0 = 0 then openDefault cfg defaultFilenames c₂
          else openNamed cfg env 4 c₂) := by
    intro c₂ hmem₂ hfs₂ hhs₂ hpay₂
    have htag : cfg.includeHttpdSsi = true → c₂.hs.tagCheck = false := fun hssi => by rw [hhs₂]; exact hset hssi
    split
    · exact (openDefault_tries cfg defaultFilenames c₂ htag).before (hmem₂.trans hmem) (hfs₂.trans hfs)
    · have hnamed := openNamed_tries env htag
      rw [hpay₂, hpay] at hnamed
      exact hnamed.before (hmem₂.trans hmem) (hfs₂.trans hfs)
  by_cases hslash : c.payload.getD 4 0 = 47
  · simp only [if_pos hslash, Ctx.emit_payload, hpay]
    exact htries _ rfl rfl rfl rfl
  · simp only [if_neg hslash, Ctx.emit_payload, hpay]
    exact htries _ rfl rfl rfl rfl

/-! ## The first call of `send_data` -/

/-- The file `f` is open for `hs`, from its start on. -/
structure Starts (cfg : Config) (f : FsDataFile) (ssi : Bool) (hs : HttpState) : Prop where
  handle   : hs.handle ≠ none
  file     : hs.file = f.data
  left     : hs.left = f.len
  tagCheck : cfg.includeHttpdSsi = true → hs.tagCheck = ssi

/-- **The state in which `http_recv` calls `send_data`**: at the start of the file that answers the request, or with
    nothing to send where no slot is free or no file answers. -/
theorem served_cases (cfg : Config) (env : Env) (c : Ctx) :
    (c.served cfg env).mem = c.mem ∧
    ((∃ f ssi, FsHasFree c.fs ∧ answer cfg env c.payload = some (f, ssi) ∧ Starts cfg f ssi (c.served cfg env).hs) ∨
    (¬(FsHasFree c.fs ∧ answer cfg env c.payload ≠ none) ∧ (c.served cfg env).hs.handle = none ∧
      (c.served cfg env).hs.left = 0)) := by
  have htries := openRequested_tries cfg env c
  unfold Ctx.served
  generalize openRequested cfg env c = r at htries
  obtain ⟨file, uri, c₁⟩ := r
  -- the headers change the header strings and their cursor only
  have hheaders : ∀ c₂ : Ctx, ∃ hdrs pos idx, (if cfg.dynamicHttpHeaders then getHttpHeaders c₂ uri else c₂).hs =
      { c₂.hs with hdrs := hdrs, hdrPos := pos, hdrIndex := idx } := by
    intro c₂
    split
    · obtain ⟨hdrs, pos, idx, hhs, -⟩ := getHttpHeaders_spec c₂ uri
      exact ⟨hdrs, pos, idx, hhs⟩
    · exact ⟨c₂.hs.hdrs, c₂.hs.hdrPos, c₂.hs.hdrIndex, rfl⟩
  have hmem : ∀ c₂ : Ctx, (if cfg.dynamicHttpHeaders then getHttpHeaders c₂ uri else c₂).mem = c₂.mem := by
    intro c₂
    split
    · exact getHttpHeaders_mem c₂ uri
    · rfl
  unfold setUpResponse
  cases file with
  | none =>
      obtain ⟨hdrs, pos, idx, hhs⟩ := hheaders (c₁.useState.setHs c₁.useState.hs.serveNothing)
      refine ⟨(hmem _).trans htries.mem, .inr ⟨htries.missed rfl, ?_, ?_⟩⟩
      · rw [Ctx.emit_hs, hhs]; rfl
      · rw [Ctx.emit_hs, hhs]; rfl
  | some i =>
      obtain ⟨f, ssi, hfirst, hfree, hfile, htag⟩ := htries.opened i rfl
      obtain ⟨hdrs, pos, idx, hhs⟩ := hheaders
        ((c₁.useState.setHs (c₁.useState.hs.serve i (fsFile c₁.useState.fs i))).emit .pbufFree)
      refine ⟨(hmem _).trans htries.mem, .inl ⟨f, ssi, hfree, hfirst, ?_, ?_, ?_, ?_⟩⟩
      · rw [Ctx.emit_hs, hhs]
        exact Option.some_ne_none i
      · rw [Ctx.emit_hs, hhs]
        exact congrArg FsFile.data hfile
      · rw [Ctx.emit_hs, hhs]
        have hlt := f.len_lt
        show toU32 (fsFile c₁.fs i).len = f.len
        rw [hfile]
        exact toU32_of_lt (Nat.lt_trans hlt (by decide))
      · intro hssi
        rw [Ctx.emit_hs, hhs]
        exact htag hssi

end ThirdParty.Httpd
