import ThirdParty.Httpd.Correctness.Requests

/-!
# `Httpd.Correctness.Opening` — which file a request opens

Whether a request finds a file is decided by three things: a free slot of the file table, the ROM, and the
payload, from which the CGI dispatch may derive another name. `FindsFile` and `OpensPayloadName` say so in terms
of these, and `openRequested_spec` connects them to the code.
-/

namespace ThirdParty.Httpd

open Lib Lwip

/-! ## What the dispatch depends on -/

/-- The value of `f` and the payload it leaves depend on the payload only. -/
def OnPayload {α : Type} (f : Ctx → α × Ctx) : Prop :=
  ∀ {c c' : Ctx}, c.payload = c'.payload →
    ∃ a d d', f c = (a, d) ∧ f c' = (a, d') ∧ d.payload = d'.payload

theorem uriText_congr {c c' : Ctx} (h : c.payload = c'.payload) (u : Uri) : c.uriText u = c'.uriText u := by
  unfold Ctx.uriText
  rw [h]

@[simp] theorem readUri_payload (c : Ctx) (u : Uri) (i n : Nat) : (c.readUri u i n).payload = c.payload := by
  cases u <;> rfl

theorem writePayload_congr {c c' : Ctx} (h : c.payload = c'.payload) (i : Nat) (b : Byte) :
    (c.writePayload i b).payload = (c'.writePayload i b).payload := by
  simp only [Ctx.writePayload, h]

theorem onPayload_uriStrchr (u : Uri) (i : Nat) (ch : Byte) : OnPayload fun c => c.uriStrchr u i ch := by
  intro c c' h
  refine ⟨(c.uriStrchr u i ch).1, (c.uriStrchr u i ch).2, (c'.uriStrchr u i ch).2, rfl, ?_, ?_⟩
  · simp only [Ctx.uriStrchr, uriText_congr h]
  · simpa [Ctx.uriStrchr] using h

theorem onPayload_splitPair (pair : Nat) : OnPayload (splitPair pair) := by
  intro c c' h
  obtain ⟨found, d, d', hd, hd', hpay⟩ := onPayload_uriStrchr (.payload pair) 0 38 h
  simp only [splitPair, hd, hd']
  cases found with
  | some i => exact ⟨_, _, _, rfl, rfl, writePayload_congr hpay _ _⟩
  | none =>
      obtain ⟨found, d, d', hd, hd', hpay⟩ := onPayload_uriStrchr (.payload pair) 0 32 hpay
      simp only [hd, hd']
      cases found with
      | some i => exact ⟨_, _, _, rfl, rfl, writePayload_congr hpay _ _⟩
      | none => exact ⟨_, _, _, rfl, rfl, hpay⟩

theorem onPayload_splitValue (pair : Nat) : OnPayload (splitValue pair) := by
  intro c c' h
  obtain ⟨found, d, d', hd, hd', hpay⟩ := onPayload_uriStrchr (.payload pair) 0 61 h
  simp only [splitValue, hd, hd']
  cases found with
  | some i => exact ⟨_, _, _, rfl, rfl, writePayload_congr hpay _ _⟩
  | none => exact ⟨_, _, _, rfl, rfl, hpay⟩

theorem onPayload_extractPairs : ∀ (fuel loop : Nat) (pair : Option Nat), OnPayload (extractPairs fuel loop pair) := by
  intro fuel
  induction fuel with
  | zero => intro loop pair c c' h; exact ⟨_, _, _, rfl, rfl, h⟩
  | succ fuel ih =>
      intro loop pair c c' h
      cases pair with
      | none => exact ⟨_, _, _, rfl, rfl, h⟩
      | some pair =>
          have hstored : ((c.useState).setHs { c.useState.hs with
              params := fun i => if i = loop then some pair else c.useState.hs.params i }).payload =
                ((c'.useState).setHs { c'.useState.hs with
                  params := fun i => if i = loop then some pair else c'.useState.hs.params i }).payload := h
          obtain ⟨next, d, d', hd, hd', hpay⟩ := onPayload_splitPair pair hstored
          obtain ⟨value, e, e', he, he', hpay'⟩ := onPayload_splitValue pair hpay
          simp only [extractPairs, hd, hd', he, he']
          exact ih _ _ hpay'

theorem onPayload_extractUriParameters (cfg : Config) (params : Option Nat) :
    OnPayload (extractUriParameters cfg params) := by
  intro c c' h
  cases params with
  | none => exact ⟨_, _, _, rfl, rfl, h⟩
  | some p =>
      have hread : (c.emit (.payloadRead p 1)).payload = (c'.emit (.payloadRead p 1)).payload := h
      by_cases hz : (c'.emit (.payloadRead p 1)).payload.getD p 0 = 0
      · have hz' : (c.emit (.payloadRead p 1)).payload.getD p 0 = 0 := by rw [hread]; exact hz
        simp only [extractUriParameters, if_pos hz, if_pos hz']
        exact ⟨_, _, _, rfl, rfl, hread⟩
      · have hz' : (c.emit (.payloadRead p 1)).payload.getD p 0 ≠ 0 := by rw [hread]; exact hz
        simp only [extractUriParameters, if_neg hz, if_neg hz']
        exact onPayload_extractPairs _ _ _ hread

/-! ## Which file is opened -/

/-- The request is for `"/"`. -/
def IsRoot (payload : List Byte) : Prop := payload.getD 4 0 = 47 ∧ payload.getD 5 0 = 0

instance (payload : List Byte) : Decidable (IsRoot payload) := by unfold IsRoot; infer_instance

/-- A context with nothing but a payload. -/
def Ctx.ofPayload (payload : List Byte) : Ctx :=
  ⟨0, .zero, [], fun _ => 0, payload, 0, 0, 0, 0, []⟩

/-- The payload with the query, which starts at index `i` of the URI, cut off. -/
def cutQuery (payload : List Byte) : Option Nat → List Byte
  | some i => payload.set (4 + i) 0
  | none   => payload

/-- The URI of a request other than for `"/"` once a handler has been looked for, and the string it points to.
    Where a handler has the name, it is what the handler answers, with the parameters already taken apart; where
    no handler is registered, the query stays cut off. -/
def requestedName (cfg : Config) (env : Env) (payload : List Byte) : Uri × List Byte :=
  let text := cstr (payload.drop 4)
  let query := strchr text 63
  let base := text.take (query.getD text.length)
  if cfg.includeHttpdCgi then
    match cfg.cgis with
    | none | some [] => (.payload 4, base)
    | some names =>
        match names.findIdx? (base = ·) with
        | some j =>
            let (count, c) := extractUriParameters cfg (query.map (4 + · + 1)) (.ofPayload (cutQuery payload query))
            (env.cgi j count, c.uriText (env.cgi j count))
        | none => (.payload 4, text)
  else (.payload 4, text)

/-- What is asked for is in the ROM: one of the default files for `"/"`, else the file of that name. -/
def AsksForKnown (cfg : Config) (env : Env) (payload : List Byte) : Prop :=
  if IsRoot payload then ∃ n ∈ defaultFilenames, InRom cfg n.1 else InRom cfg (requestedName cfg env payload).2

/-- A 404 page is in the ROM. -/
def HasNotFoundPage (cfg : Config) : Prop := InRom cfg (lit "/404.html") ∨ InRom cfg (lit "/404.htm")

/-- **A request finds a file**: a slot of the file table is free, and what it asks for, or else a 404 page, is
    in the ROM. -/
def FindsFile (cfg : Config) (env : Env) (m : FsMemory) (payload : List Byte) : Prop :=
  FsHasFree m ∧ (AsksForKnown cfg env payload ∨ HasNotFoundPage cfg)

/-- **The file is found under a name that lies in the payload.** -/
def OpensPayloadName (cfg : Config) (env : Env) (m : FsMemory) (payload : List Byte) : Prop :=
  ¬IsRoot payload ∧ (requestedName cfg env payload).1.isPayload = true ∧ FsHasFree m ∧
    InRom cfg (requestedName cfg env payload).2

/-! ## One attempt after the other -/

/-- `r` is the result of trying files one after the other; `known` says whether one of them is in the ROM. -/
structure Attempts (c : Ctx) (known : Prop) (r : Option Nat × Uri × Ctx) : Prop where
  opens : Opens c r.1 r.2.2
  found : r.1 ≠ none ↔ FsHasFree c.fs ∧ known

section
variable {c c₁ c₂ : Ctx} {name known : Prop} {file : Option Nat} {uri : Uri} {r : Option Nat × Uri × Ctx}

theorem Attempts.first {i : Nat} (h : Opens c (some i) c₁) (hfound : FsHasFree c.fs ∧ name) :
    Attempts c (name ∨ known) (some i, uri, c₁) :=
  ⟨h, by simp [hfound]⟩

theorem Attempts.next (h : Opens c none c₁) (hnot : ¬(FsHasFree c.fs ∧ name)) (h' : Attempts c₁ known r) :
    Attempts c (name ∨ known) r := by
  refine ⟨h.then h'.opens, h'.found.trans ?_⟩
  rw [h.none rfl]
  constructor
  · rintro ⟨hfree, hknown⟩
    exact ⟨hfree, .inr hknown⟩
  · rintro ⟨hfree, hname | hknown⟩
    · exact absurd ⟨hfree, hname⟩ hnot
    · exact ⟨hfree, hknown⟩

theorem Attempts.before (h : Parses true c c₁) (h' : Attempts c₁ known r) : Attempts c known r :=
  ⟨h.opens h'.opens, by rw [← h.fs]; exact h'.found⟩

theorem Attempts.after (h : Attempts c known (file, uri, c₁)) (h' : Parses true c₁ c₂) :
    Attempts c known (file, uri, c₂) :=
  ⟨h.opens.parses_after h', h.found⟩

end

/-- `get_404_file`. -/
theorem get404File_spec (cfg : Config) (c : Ctx) :
    Attempts c (HasNotFoundPage cfg) (get404File cfg c) ∧ (get404File cfg c).2.1.isPayload = false := by
  obtain ⟨hopens, hfound⟩ := fsOpenUri_spec cfg (.const (lit "/404.html")) c
  unfold get404File
  generalize c.fsOpenUri cfg.fsRoot (.const (lit "/404.html")) = r at hopens hfound
  obtain ⟨file, c₁⟩ := r
  cases file with
  | some i => exact ⟨.first hopens (hfound.mp (by simp)), rfl⟩
  | none =>
      have hnot := fun h => hfound.mpr h rfl
      obtain ⟨hopens', hfound'⟩ := fsOpenUri_spec cfg (.const (lit "/404.htm")) c₁
      simp only
      generalize c₁.fsOpenUri cfg.fsRoot (.const (lit "/404.htm")) = r at hopens' hfound'
      obtain ⟨file, c₂⟩ := r
      cases file with
      | some i => exact ⟨.next hopens hnot ⟨hopens', hfound'⟩, rfl⟩
      | none => exact ⟨.next hopens hnot ⟨hopens', hfound'⟩, rfl⟩

/-- The loop over the default files. -/
theorem openDefault_spec (cfg : Config) : ∀ (names : List (List Byte × Bool)) (c : Ctx),
    Attempts c ((∃ n ∈ names, InRom cfg n.1) ∨ HasNotFoundPage cfg) (openDefault cfg names c) ∧
    (openDefault cfg names c).2.1.isPayload = false := by
  intro names
  induction names with
  | nil =>
      intro c
      obtain ⟨hattempts, huri⟩ := get404File_spec cfg c
      unfold openDefault
      generalize get404File cfg c = r at hattempts huri
      obtain ⟨file, uri, c₁⟩ := r
      refine ⟨?_, huri⟩
      simpa using hattempts.after (setTagCheck_parses c₁ cfg false)
  | cons n names ih =>
      intro c
      obtain ⟨name, shtml⟩ := n
      obtain ⟨hopens, hfound⟩ := fsOpenUri_spec cfg (.const name) c
      simp only [List.exists_mem_cons_iff, or_assoc]
      unfold openDefault
      generalize c.fsOpenUri cfg.fsRoot (.const name) = r at hopens hfound
      obtain ⟨file, c₁⟩ := r
      cases file with
      | some i =>
          exact ⟨(Attempts.first hopens (hfound.mp (by simp))).after (setTagCheck_parses c₁ cfg shtml), rfl⟩
      | none => exact ⟨.next hopens (fun h => hfound.mpr h rfl) (ih c₁).1, (ih c₁).2⟩

/-- Isolating the base of the URI. -/
theorem isolateBase_spec (c : Ctx) : ∃ c₁, isolateBase 4 c = (strchr (cstr (c.payload.drop 4)) 63, c₁) ∧
    c₁.payload = cutQuery c.payload (strchr (cstr (c.payload.drop 4)) 63) ∧
    c₁.uriText (.payload 4) = (cstr (c.payload.drop 4)).take
      ((strchr (cstr (c.payload.drop 4)) 63).getD (cstr (c.payload.drop 4)).length) := by
  unfold isolateBase
  simp only [Ctx.uriStrchr, Ctx.uriText, List.drop_zero]
  cases hq : strchr (cstr (c.payload.drop 4)) 63 with
  | none => exact ⟨_, rfl, rfl, by simp⟩
  | some i =>
      have hget := strchr_some hq
      obtain ⟨hlt, -⟩ := List.getElem?_eq_some_iff.mp hget
      have hlen := (cstr_isPrefix (c.payload.drop 4)).length_le
      simp only [Option.map_some, Nat.zero_add]
      refine ⟨_, rfl, ?_, ?_⟩
      · simp [Ctx.writePayload, cutQuery]
      · simp only [Ctx.writePayload, readUri_payload, Option.getD_some, List.drop_set]
        rw [if_neg (by omega), Nat.add_sub_cancel_left, cstr_set_zero (by omega) (by omega)]

/-- Putting the `?` back. -/
theorem reinstateQuery_payload {c₁ : Ctx} {payload : List Byte}
    (h : c₁.payload = cutQuery payload (strchr (cstr (payload.drop 4)) 63)) :
    (reinstateQuery 4 (strchr (cstr (payload.drop 4)) 63) c₁).payload = payload := by
  unfold reinstateQuery
  cases hq : strchr (cstr (payload.drop 4)) 63 with
  | none => rw [hq] at h; exact h
  | some i =>
      rw [hq] at h
      have hget := strchr_some hq
      obtain ⟨hlt, -⟩ := List.getElem?_eq_some_iff.mp hget
      obtain ⟨rest, hsplit⟩ := cstr_isPrefix (payload.drop 4)
      have hwhole : (cstr (payload.drop 4) ++ rest)[i]? = (cstr (payload.drop 4))[i]? := List.getElem?_append_left hlt
      rw [← hwhole, hsplit, List.getElem?_drop] at hget
      simp only [Ctx.writePayload, h, cutQuery, List.set_set]
      obtain ⟨hlt, heq⟩ := List.getElem?_eq_some_iff.mp hget
      rw [← heq, List.set_getElem_self]

/-- Looking for the handler. -/
theorem findCgi_spec (u : Uri) : ∀ (names : List (List Byte)) (i : Nat) (c : Ctx),
    (findCgi u names i c).1 = (names.findIdx? (c.uriText u = ·)).map (i + ·) ∧
    (findCgi u names i c).2.payload = c.payload := by
  intro names
  induction names with
  | nil => intro i c; exact ⟨rfl, rfl⟩
  | cons name names ih =>
      intro i c
      have hpay : (c.uriStrcmp u 0 name).2.payload = c.payload := readUri_payload c u _ _
      obtain ⟨hfind, hpay'⟩ := ih (i + 1) (c.uriStrcmp u 0 name).2
      rw [uriText_congr hpay] at hfind
      have hsame : (c.uriStrcmp u 0 name).1 = decide (c.uriText u = name) := rfl
      unfold findCgi
      simp only [hsame, List.findIdx?_cons]
      by_cases heq : c.uriText u = name
      · simp [heq, hpay]
      · simp only [heq, decide_false, Bool.false_eq_true, if_false, hfind, hpay', hpay, and_true]
        cases names.findIdx? (c.uriText u = ·) with
        | none => rfl
        | some j => simp [Nat.add_assoc, Nat.add_comm 1]

/-- **The CGI dispatch** leaves the requested name to be opened. -/
theorem requestedName_spec (cfg : Config) (env : Env) (c : Ctx) :
    ∃ uri c₁, (if cfg.includeHttpdCgi then dispatchCgi cfg env 4 c else (Uri.payload 4, c)) = (uri, c₁) ∧
      requestedName cfg env c.payload = (uri, c₁.uriText uri) ∧ Parses true c c₁ := by
  unfold requestedName
  by_cases hcgi : cfg.includeHttpdCgi = true
  swap
  · rw [if_neg hcgi, if_neg hcgi]
    exact ⟨.payload 4, c, rfl, rfl, .refl c⟩
  have hparses := dispatchCgi_parses cfg env 4 c
  -- the URI is cut at the `?`, and its base looked up in the table of handlers
  obtain ⟨c₁, hbase, hpay, htext⟩ := isolateBase_spec c
  rw [if_pos hcgi, if_pos hcgi]
  unfold dispatchCgi at hparses ⊢
  simp only [hbase] at hparses ⊢
  rcases hnames : cfg.cgis with _ | _ | ⟨name, handlers⟩
  · simp only [hnames] at hparses ⊢
    exact ⟨_, _, rfl, by rw [htext], hparses⟩
  · simp only [hnames] at hparses ⊢
    exact ⟨_, _, rfl, by rw [htext], hparses⟩
  · -- there are handlers
    simp only [hnames] at hparses ⊢
    generalize name :: handlers = names at hparses ⊢
    obtain ⟨hfind, hpay'⟩ := findCgi_spec (.payload 4) names 0 c₁
    rw [htext] at hfind
    generalize findCgi (.payload 4) names 0 c₁ = r at hfind hpay' hparses ⊢
    obtain ⟨found, c₂⟩ := r
    simp only at hfind hpay'
    cases hidx : names.findIdx? (fun x => decide ((cstr (c.payload.drop 4)).take
      ((strchr (cstr (c.payload.drop 4)) 63).getD (cstr (c.payload.drop 4)).length) = x)) with
    | none =>
        -- no handler: the `?` is put back
        obtain rfl : found = none := by rw [hfind, hidx]; rfl
        refine ⟨_, _, rfl, ?_, hparses⟩
        rw [uriText_congr (reinstateQuery_payload (hpay'.trans hpay))]
        rfl
    | some j =>
        -- handler `j` gets the parameters, and names the file
        obtain rfl : found = some j := by rw [hfind, hidx]; simp
        have hcut : c₂.payload =
            (Ctx.ofPayload (cutQuery c.payload (strchr (cstr (c.payload.drop 4)) 63))).payload := hpay'.trans hpay
        obtain ⟨count, d, d', hd, hd', hpay''⟩ := onPayload_extractUriParameters cfg
          ((strchr (cstr (c.payload.drop 4)) 63).map (4 + · + 1)) hcut
        simp only [hd, hd'] at hparses ⊢
        exact ⟨_, _, rfl, by rw [uriText_congr hpay''], hparses⟩

/-- A request for a file by its name. -/
theorem openNamed_spec (cfg : Config) (env : Env) (c : Ctx) :
    Attempts c (InRom cfg (requestedName cfg env c.payload).2 ∨ HasNotFoundPage cfg) (openNamed cfg env 4 c) ∧
    ((openNamed cfg env 4 c).2.1.isPayload = true ↔ (requestedName cfg env c.payload).1.isPayload = true ∧
      FsHasFree c.fs ∧ InRom cfg (requestedName cfg env c.payload).2) := by
  obtain ⟨uri, c₁, heq, hname, hparses⟩ := requestedName_spec cfg env c
  obtain ⟨hopens, hfound⟩ := fsOpenUri_spec cfg uri c₁
  rw [hname]
  unfold openNamed
  rw [heq]
  simp only
  rw [← hparses.fs]
  generalize c₁.fsOpenUri cfg.fsRoot uri = r at hopens hfound
  obtain ⟨file, c₂⟩ := r
  cases file with
  | none =>
      -- the file is missing, or there is no slot for it: the error page
      have hnot := fun h => hfound.mpr h rfl
      obtain ⟨hattempts, hconst⟩ := get404File_spec cfg c₂
      refine ⟨(Attempts.next hopens hnot hattempts).before hparses, ?_⟩
      rw [hconst]
      exact ⟨fun h => (nomatch h), fun h => absurd h.2 hnot⟩
  | some i =>
      have hyes := hfound.mp (by simp)
      have hfirst : Attempts c (InRom cfg (c₁.uriText uri) ∨ HasNotFoundPage cfg) (some i, uri, c₂) :=
        (Attempts.first hopens hyes).before hparses
      have hkind : uri.isPayload = true ↔ uri.isPayload = true ∧ FsHasFree c₁.fs ∧ InRom cfg (c₁.uriText uri) :=
        ⟨fun h => ⟨h, hyes⟩, And.left⟩
      simp only
      split
      · -- the search for an SSI extension only looks at the name
        have hext := hasSsiExtension_parses uri ssiExtensions (setTagCheck cfg c₂ false)
        generalize hasSsiExtension uri ssiExtensions (setTagCheck cfg c₂ false) = r at hext
        obtain ⟨ssi, c₃⟩ := r
        refine ⟨hfirst.after ((setTagCheck_parses c₂ cfg false).trans (hext.weaken.trans ?_)), hkind⟩
        split
        · exact setTagCheck_parses c₃ cfg true
        · exact .refl c₃
      · exact ⟨hfirst, hkind⟩

/-- The looks at `uri[0]` and `uri[1]`. -/
theorem openRequested_cases (cfg : Config) (env : Env) (c : Ctx) :
    ∃ c₁, Parses true c c₁ ∧ c₁.payload = c.payload ∧ openRequested cfg env c =
      if IsRoot c.payload then openDefault cfg defaultFilenames c₁ else openNamed cfg env 4 c₁ := by
  have htag : Parses true c (setTagCheck cfg c false) := setTagCheck_parses c cfg false
  have hpay : (setTagCheck cfg c false).payload = c.payload := by unfold setTagCheck; split <;> rfl
  unfold openRequested IsRoot
  generalize setTagCheck cfg c false = c₁ at htag hpay
  simp only [Ctx.emit_payload, hpay]
  have hread : Parses true c (c₁.emit (.payloadRead 4 1)) := htag.trans (.emit c₁ rfl)
  by_cases hslash : c.payload.getD 4 0 = 47
  · simp only [if_pos hslash, Ctx.emit_payload, hpay]
    exact ⟨_, hread.trans (.emit _ rfl), hpay, rfl⟩
  · simp only [if_neg hslash, Ctx.emit_payload, hpay]
    exact ⟨_, hread, hpay, rfl⟩

/-- **Opening the requested file.** -/
theorem openRequested_spec (cfg : Config) (env : Env) (c : Ctx) :
    Opens c (openRequested cfg env c).1 (openRequested cfg env c).2.2 ∧
    ((openRequested cfg env c).1 ≠ none ↔ FindsFile cfg env c.fs c.payload) ∧
    ((openRequested cfg env c).2.1.isPayload = true ↔ OpensPayloadName cfg env c.fs c.payload) := by
  obtain ⟨c₁, hparses, hpay, heq⟩ := openRequested_cases cfg env c
  rw [heq]
  unfold FindsFile AsksForKnown OpensPayloadName
  by_cases hroot : IsRoot c.payload
  · obtain ⟨hattempts, hconst⟩ := openDefault_spec cfg defaultFilenames c₁
    have hall := hattempts.before hparses
    simp only [if_pos hroot]
    refine ⟨hall.opens, hall.found, ?_⟩
    rw [hconst]
    exact ⟨fun h => (nomatch h), fun h => absurd hroot h.1⟩
  · obtain ⟨hattempts, hkind⟩ := openNamed_spec cfg env c₁
    have hall := hattempts.before hparses
    simp only [if_neg hroot]
    rw [← hparses.fs, ← hpay]
    refine ⟨hall.opens, ?_, hkind.trans ?_⟩
    · rw [hparses.fs]; exact hall.found
    · exact ⟨fun h => ⟨hpay ▸ hroot, h⟩, And.right⟩

end ThirdParty.Httpd
