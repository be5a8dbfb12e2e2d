import ThirdParty.Httpd.Callbacks

/-!
# `Httpd.Correctness.Requests` — what handling a request can do before it sends

Looking at the request, dispatching it and selecting headers only read and write the payload and the connection's
own `http_state`: `Parses`. Opening a file may in addition take one free slot of the file table: `Opens`. Each
function of `http_recv` up to the call of `send_data` gets its one statement here.
-/

namespace ThirdParty.Httpd

open Lib Lwip

/-! ## Parsing -/

/-- The events of request parsing; `pay` says whether the payload may be touched. -/
def parsesOnly (pay : Bool) (self : Nat) : Ev → Bool
  | .payloadRead .. | .payloadWrite _ => pay
  | .nullDeref => true
  | .useState s => s = self
  | _ => false

/-- **`c'` is reached from `c` by parsing**: the handle, the buffer and the file table are as before. -/
structure Parses (pay : Bool) (c c' : Ctx) : Prop where
  self       : c'.self = c.self
  nextSerial : c'.nextSerial = c.nextSerial
  fs         : c'.fs = c.fs
  handle     : c'.hs.handle = c.hs.handle
  buf        : c'.hs.buf = c.hs.buf
  log        : ∃ es, c'.log = c.log ++ es ∧ ∀ e ∈ es, parsesOnly pay c.self e = true

section
variable {pay : Bool}

theorem Parses.refl (c : Ctx) : Parses pay c c := ⟨rfl, rfl, rfl, rfl, rfl, [], by simp, by simp⟩

theorem Parses.trans {c₁ c₂ c₃ : Ctx} (h : Parses pay c₁ c₂) (h' : Parses pay c₂ c₃) : Parses pay c₁ c₃ := by
  obtain ⟨es, hes, hall⟩ := h.log
  obtain ⟨es', hes', hall'⟩ := h'.log
  refine ⟨h'.self.trans h.self, h'.nextSerial.trans h.nextSerial, h'.fs.trans h.fs, h'.handle.trans h.handle,
    h'.buf.trans h.buf, es ++ es', by rw [hes', hes, List.append_assoc], ?_⟩
  intro e he
  rcases List.mem_append.mp he with he | he
  · exact hall e he
  · rw [← h.self]; exact hall' e he

theorem Parses.emit (c : Ctx) {e : Ev} (he : parsesOnly pay c.self e = true) : Parses pay c (c.emit e) :=
  ⟨rfl, rfl, rfl, rfl, rfl, [e], rfl, by simpa using he⟩

theorem Parses.useState (c : Ctx) : Parses pay c c.useState := .emit c (by simp [parsesOnly])

theorem Parses.setHs (c : Ctx) {hs : HttpState} (hhandle : hs.handle = c.hs.handle) (hbuf : hs.buf = c.hs.buf) :
    Parses pay c (c.setHs hs) :=
  ⟨rfl, rfl, rfl, hhandle, hbuf, [], by simp, by simp⟩

/-- Parsing that leaves the payload alone is parsing. -/
theorem Parses.weaken {c c' : Ctx} (h : Parses pay c c') : Parses true c c' := by
  obtain ⟨es, hes, hall⟩ := h.log
  refine { h with log := ⟨es, hes, fun e he => ?_⟩ }
  have hparse := hall e he
  cases e <;> first | rfl | exact hparse

end

section
variable (c : Ctx) (u : Uri)

theorem readUri_parses (i n : Nat) : Parses u.isPayload c (c.readUri u i n) := by
  unfold Ctx.readUri
  cases u with
  | payload off => exact .emit c rfl
  | const s => exact .refl c
  | null => exact .emit c rfl

theorem writePayload_parses (i : Nat) (b : Byte) : Parses true c (c.writePayload i b) :=
  ⟨rfl, rfl, rfl, rfl, rfl, [_], rfl, by simp [parsesOnly]⟩

theorem uriStrchr_parses (i : Nat) (ch : Byte) : Parses u.isPayload c (c.uriStrchr u i ch).2 := readUri_parses c u _ _

theorem uriStrcmp_parses (i : Nat) (t : List Byte) : Parses u.isPayload c (c.uriStrcmp u i t).2 :=
  readUri_parses c u _ _

theorem uriStrstr_parses (t : List Byte) : Parses u.isPayload c (c.uriStrstr u t).2 := by
  unfold Ctx.uriStrstr
  simp only
  split <;> exact readUri_parses c u _ _

theorem cutUri_parses (i : Nat) : Parses u.isPayload c (c.cutUri u i).2 := by
  unfold Ctx.cutUri
  cases u with
  | payload off => exact writePayload_parses c _ _
  | const s => exact .refl c
  | null => exact .emit c rfl

theorem cutUri_isPayload (i : Nat) : (c.cutUri u i).1.isPayload = u.isPayload := by cases u <;> rfl

theorem restoreUri_parses (i : Nat) (ch : Byte) : Parses u.isPayload c (c.restoreUri u i ch) := by
  unfold Ctx.restoreUri
  cases u with
  | payload off => exact writePayload_parses c _ _
  | const s => exact .refl c
  | null => exact .emit c rfl

theorem setTagCheck_parses {pay : Bool} (cfg : Config) (b : Bool) : Parses pay c (setTagCheck cfg c b) := by
  unfold setTagCheck
  split
  · exact (Parses.useState c).trans (.setHs _ rfl rfl)
  · exact .refl c

end

theorem readNames_parses (u : Uri) :
    ∀ (fs : List FsDataFile) (c : Ctx), Parses u.isPayload c (Ctx.readNames u fs c) := by
  intro fs
  induction fs with
  | nil => intro c; exact .refl c
  | cons f fs ih =>
      intro c
      unfold Ctx.readNames
      simp only
      split
      · exact uriStrcmp_parses c u 0 f.name
      · exact (uriStrcmp_parses c u 0 f.name).trans (ih _)

theorem findHttp_parses (len : Nat) : ∀ (fuel i : Nat) (c : Ctx), Parses true c (findHttp len fuel i c).2 := by
  intro fuel
  induction fuel with
  | zero => intro i c; exact .refl c
  | succ fuel ih =>
      intro i c
      unfold findHttp
      split
      · simp only
        split
        · exact (Parses.emit c rfl).trans (writePayload_parses _ _ _)
        · exact (Parses.emit c rfl).trans (ih _ _)
      · exact .refl c

/-! ## Headers -/

theorem findExtension_parses (u : Uri) : ∀ (fuel start : Nat) (ext : Option Nat) (c : Ctx),
    Parses u.isPayload c (findExtension u fuel start ext c).2 := by
  intro fuel
  induction fuel with
  | zero => intro start ext c; exact .refl c
  | succ fuel ih =>
      intro start ext c
      have hread := uriStrchr_parses c u start 46
      unfold findExtension
      generalize c.uriStrchr u start 46 = r at hread
      obtain ⟨found, c'⟩ := r
      cases found with
      | some i => exact hread.trans (ih _ _ _)
      | none => exact hread

theorem findHeader_parses (u : Uri) (ext : Nat) : ∀ (hs : List HttpHeader) (c : Ctx),
    Parses u.isPayload c (findHeader u ext hs c).2 := by
  intro hs
  induction hs with
  | nil => intro c; exact .refl c
  | cons h hs ih =>
      intro c
      unfold findHeader
      split
      · exact (Parses.emit c rfl).trans (ih _)
      · next e _ =>
          simp only
          split
          · exact uriStrcmp_parses c u ext e
          · exact (uriStrcmp_parses c u ext e).trans (ih _)

theorem contentType_parses (u : Uri) (c : Ctx) : Parses u.isPayload c (contentType u c).2.2 := by
  have hext := findExtension_parses u ((c.uriText u).length + 1) 0 none c
  unfold contentType
  generalize findExtension u ((c.uriText u).length + 1) 0 none c = r at hext
  obtain ⟨ext, c'⟩ := r
  cases ext with
  | none => exact hext
  | some ext => exact hext.trans (findHeader_parses u ext httpHeaders c')

theorem uriContentType_parses (u : Uri) (c : Ctx) : Parses u.isPayload c (uriContentType u c).2.2 := by
  have hread := uriStrchr_parses c u 0 63
  unfold uriContentType
  generalize c.uriStrchr u 0 63 = r at hread
  obtain ⟨vars, c'⟩ := r
  cases vars with
  | none => exact hread.trans (contentType_parses u c')
  | some i =>
      have hcut := cutUri_parses c' u i
      have hkind := cutUri_isPayload c' u i
      simp only
      generalize c'.cutUri u i = r at hcut hkind
      obtain ⟨cut, c''⟩ := r
      have htype := contentType_parses cut c''
      rw [hkind] at htype
      exact hread.trans (hcut.trans (htype.trans (restoreUri_parses _ u i 63)))

theorem setStatusHeader_parses (u : Uri) (c : Ctx) : Parses u.isPayload c (setStatusHeader u c) :=
  (uriStrstr_parses c u (lit "404")).trans (.setHs _ rfl rfl)

theorem getHttpHeaders_parses (c : Ctx) (uri : Uri) : Parses uri.isPayload c (getHttpHeaders c uri) := by
  have hstart : Parses uri.isPayload c ((c.useState).setHs (c.useState.hs.setHdr 1 .server)) :=
    (Parses.useState c).trans (.setHs _ rfl rfl)
  unfold getHttpHeaders
  simp only
  generalize (c.useState).setHs (c.useState.hs.setHdr 1 .server) = c₁ at hstart
  split
  · exact hstart.trans (.setHs _ rfl rfl)
  · have htype := uriContentType_parses uri (setStatusHeader uri c₁)
    generalize uriContentType uri (setStatusHeader uri c₁) = r at htype
    obtain ⟨ext, hdr, c₂⟩ := r
    have hall : Parses uri.isPayload c c₂ := hstart.trans ((setStatusHeader_parses uri c₁).trans htype)
    cases ext with
    | none => exact hall.trans (.setHs _ rfl rfl)
    | some _ => exact hall.trans (.setHs _ rfl rfl)

/-! ## Parameters -/

theorem splitPair_parses (pair : Nat) (c : Ctx) : Parses true c (splitPair pair c).2 := by
  have hamp := uriStrchr_parses c (.payload pair) 0 38
  unfold splitPair
  generalize c.uriStrchr (.payload pair) 0 38 = r at hamp
  obtain ⟨found, c₁⟩ := r
  cases found with
  | some i => exact hamp.trans (writePayload_parses _ _ _)
  | none =>
      have hspace := uriStrchr_parses c₁ (.payload pair) 0 32
      simp only
      generalize c₁.uriStrchr (.payload pair) 0 32 = r at hspace
      obtain ⟨found, c₂⟩ := r
      cases found with
      | some i => exact hamp.trans (hspace.trans (writePayload_parses _ _ _))
      | none => exact hamp.trans hspace

theorem splitValue_parses (pair : Nat) (c : Ctx) : Parses true c (splitValue pair c).2 := by
  have hequals := uriStrchr_parses c (.payload pair) 0 61
  unfold splitValue
  generalize c.uriStrchr (.payload pair) 0 61 = r at hequals
  obtain ⟨found, c₁⟩ := r
  cases found with
  | some i => exact hequals.trans (writePayload_parses _ _ _)
  | none => exact hequals

theorem extractPairs_parses : ∀ (fuel loop : Nat) (pair : Option Nat) (c : Ctx),
    Parses true c (extractPairs fuel loop pair c).2 := by
  intro fuel
  induction fuel with
  | zero => intro loop pair c; exact .refl c
  | succ fuel ih =>
      intro loop pair c
      cases pair with
      | none => exact .refl c
      | some pair =>
          unfold extractPairs
          simp only
          refine Parses.trans ?_ (ih _ _ _)
          refine Parses.trans ?_ (.setHs _ rfl rfl)
          refine Parses.trans ?_ (splitValue_parses pair _)
          refine Parses.trans ?_ (splitPair_parses pair _)
          exact (Parses.useState c).trans (.setHs _ rfl rfl)

theorem extractUriParameters_parses (cfg : Config) (params : Option Nat) (c : Ctx) :
    Parses true c (extractUriParameters cfg params c).2 := by
  unfold extractUriParameters
  cases params with
  | none => exact .refl c
  | some p =>
      simp only
      split
      · exact .emit c rfl
      · exact (Parses.emit c rfl).trans (extractPairs_parses _ _ _ _)

/-! ## Dispatching -/

theorem findCgi_parses (u : Uri) : ∀ (names : List (List Byte)) (i : Nat) (c : Ctx),
    Parses u.isPayload c (findCgi u names i c).2 := by
  intro names
  induction names with
  | nil => intro i c; exact .refl c
  | cons name names ih =>
      intro i c
      unfold findCgi
      simp only
      split
      · exact uriStrcmp_parses c u 0 name
      · exact (uriStrcmp_parses c u 0 name).trans (ih _ _)

theorem isolateBase_parses (off : Nat) (c : Ctx) : Parses true c (isolateBase off c).2 := by
  have hquery := uriStrchr_parses c (.payload off) 0 63
  unfold isolateBase
  generalize c.uriStrchr (.payload off) 0 63 = r at hquery
  obtain ⟨query, c₁⟩ := r
  cases query with
  | none => exact hquery
  | some i => exact hquery.trans (writePayload_parses _ _ _)

theorem reinstateQuery_parses (off : Nat) (query : Option Nat) (c : Ctx) :
    Parses true c (reinstateQuery off query c) := by
  unfold reinstateQuery
  cases query with
  | none => exact .refl c
  | some i => exact writePayload_parses _ _ _

theorem dispatchCgi_parses (cfg : Config) (env : Env) (off : Nat) (c : Ctx) :
    Parses true c (dispatchCgi cfg env off c).2 := by
  have hbase := isolateBase_parses off c
  unfold dispatchCgi
  generalize isolateBase off c = r at hbase
  obtain ⟨query, c₁⟩ := r
  match cfg.cgis with
  | none | some [] => exact hbase
  | some (name :: handlers) =>
      have hfind := findCgi_parses (.payload off) (name :: handlers) 0 c₁
      simp only
      generalize findCgi (.payload off) (name :: handlers) 0 c₁ = r at hfind
      obtain ⟨found, c₂⟩ := r
      cases found with
      | some i => exact hbase.trans (hfind.trans (extractUriParameters_parses cfg _ c₂))
      | none => exact hbase.trans (hfind.trans (reinstateQuery_parses off query c₂))

theorem hasSsiExtension_parses (u : Uri) : ∀ (exts : List (List Byte)) (c : Ctx),
    Parses u.isPayload c (hasSsiExtension u exts c).2 := by
  intro exts
  induction exts with
  | nil => intro c; exact .refl c
  | cons ext exts ih =>
      intro c
      unfold hasSsiExtension
      simp only
      split
      · exact uriStrstr_parses c u ext
      · exact (uriStrstr_parses c u ext).trans (ih _)

/-! ## Opening -/

/-- Some record of the ROM has the name. -/
def InRom (cfg : Config) (name : List Byte) : Prop := ∃ f ∈ cfg.fsRoot, f.name = name

instance (cfg : Config) (name : List Byte) : Decidable (InRom cfg name) := by
  unfold InRom
  infer_instance

/-- **`c'` is reached from `c` by parsing and at most one `fs_open` that succeeds**: the one that returned
    `file`. -/
structure Opens (c : Ctx) (file : Option Nat) (c' : Ctx) : Prop where
  parses : Parses true c { c' with fs := c.fs }
  none   : file = none → c'.fs = c.fs
  some   : ∀ i, file = some i → ∃ t f, c.fs[i]? = .some t ∧ t.inuse = false ∧
    c'.fs = c.fs.modify i fun _ => ⟨⟨FsDataFile.data f, f.len, f.len⟩, true⟩

theorem Parses.opens {c₁ c₂ c₃ : Ctx} {file : Option Nat} (h : Parses true c₁ c₂) (h' : Opens c₂ file c₃) :
    Opens c₁ file c₃ := by
  have hfs := h.fs
  refine ⟨?_, fun hn => (h'.none hn).trans hfs, fun i hi => ?_⟩
  · have hp := h.trans h'.parses
    exact ⟨hp.self, hp.nextSerial, rfl, hp.handle, hp.buf, hp.log⟩
  · rw [← hfs]; exact h'.some i hi

theorem Opens.parses_after {c₁ c₂ c₃ : Ctx} {file : Option Nat} (h : Opens c₁ file c₂) (h' : Parses true c₂ c₃) :
    Opens c₁ file c₃ := by
  refine ⟨?_, fun hn => h'.fs.trans (h.none hn), fun i hi => by rw [h'.fs]; exact h.some i hi⟩
  have hq : Parses true { c₂ with fs := c₁.fs } { c₃ with fs := c₁.fs } :=
    ⟨h'.self, h'.nextSerial, rfl, h'.handle, h'.buf, h'.log⟩
  exact h.parses.trans hq

/-- A failed attempt leaves no trace in the file table. -/
theorem Opens.then {c₁ c₂ c₃ : Ctx} {file : Option Nat} (h : Opens c₁ Option.none c₂) (h' : Opens c₂ file c₃) :
    Opens c₁ file c₃ := by
  have hfs := h.none rfl
  have hp : Parses true c₁ c₂ := by
    have := h.parses
    rwa [← hfs] at this
  exact hp.opens h'

/-- **`fs_open`** succeeds exactly if a slot is free and the ROM has the name. -/
theorem fsOpenUri_spec (cfg : Config) (u : Uri) (c : Ctx) :
    Opens c (c.fsOpenUri cfg.fsRoot u).1 (c.fsOpenUri cfg.fsRoot u).2 ∧
    ((c.fsOpenUri cfg.fsRoot u).1 ≠ none ↔ FsHasFree c.fs ∧ InRom cfg (c.uriText u)) := by
  have hread : Parses true c (if (fsMalloc c.fs).isSome then Ctx.readNames u cfg.fsRoot c else c) := by
    split
    · exact (readNames_parses u cfg.fsRoot c).weaken
    · exact .refl c
  unfold Ctx.fsOpenUri
  simp only
  generalize (if (fsMalloc c.fs).isSome = true then Ctx.readNames u cfg.fsRoot c else c) = c₁ at hread
  rw [hread.fs]
  have hp : Parses true c { c₁ with fs := c.fs } :=
    ⟨hread.self, hread.nextSerial, rfl, hread.handle, hread.buf, hread.log⟩
  rcases fsOpen_cases cfg.fsRoot c.fs (c.uriText u) with ⟨heq, hno⟩ | ⟨i, f, t, heq, ht, hfree, hfind⟩
  · rw [heq]
    refine ⟨⟨hp, fun _ => rfl, (fun i hi => by cases hi)⟩, ?_⟩
    simp only [ne_eq, not_true_eq_false, false_iff]
    exact hno
  · rw [heq]
    refine ⟨⟨hp, (fun hn => by cases hn), fun j hj => ?_⟩, ?_⟩
    · obtain rfl := Option.some.inj hj
      exact ⟨t, f, ht, hfree, rfl⟩
    · simp only [ne_eq, reduceCtorEq, not_false_eq_true, true_iff]
      refine ⟨⟨t, List.mem_of_getElem? ht, hfree⟩, f, List.mem_of_find?_eq_some hfind, ?_⟩
      simpa using List.find?_some hfind

end ThirdParty.Httpd
