import ThirdParty.Httpd.Correctness.Segments

/-!
# `Httpd.Correctness.Bounds` — how far a request is read

The string functions that `http_recv` uses on a URI know no length. What keeps them inside the segment is the
terminator that the scan for `" HTTP"` writes: as long as it stands at some index `k`, every string that starts at or
before `k` ends there (`Within`). Where the scan is skipped because the segment is too short, nothing keeps them.
-/

namespace ThirdParty.Httpd

open Lib Lwip

/-! ## Staying inside -/

/-- The event leaves the payload from index `len` on alone. -/
def inPayload (len : Nat) : Ev → Bool
  | .payloadRead i n => i + n ≤ len
  | .payloadWrite i  => i < len
  | _                => true

/-- From `c` to `c'` only the first `len` bytes of the payload are touched, and the terminator at `k` is there. -/
structure Within (len k : Nat) (c c' : Ctx) : Prop where
  nul  : c'.payload[k]? = some 0
  adds : Adds (inPayload len) c c'

/-- The string lies outside the payload or starts at index `k` at the latest. -/
def StartsBy (k : Nat) : Uri → Prop
  | .payload off => off ≤ k
  | _            => True

section
variable {len k : Nat} {c c' c₁ c₂ c₃ : Ctx}

theorem Within.refl (h : c.payload[k]? = some 0) : Within len k c c := ⟨h, .refl c⟩

theorem Within.trans (h : Within len k c₁ c₂) (h' : Within len k c₂ c₃) : Within len k c₁ c₃ :=
  ⟨h'.nul, h.adds.trans h'.adds⟩

theorem Within.emit (h : c.payload[k]? = some 0) {e : Ev} (he : inPayload len e = true) : Within len k c (c.emit e) :=
  ⟨h, .emit c he⟩

/-- A step that leaves payload and log alone. -/
theorem Within.silent (h : c.payload[k]? = some 0) (hpay : c'.payload = c.payload) (hlog : c'.log = c.log) :
    Within len k c c' :=
  ⟨by rw [hpay]; exact h, .of_log hlog⟩

theorem Within.useState (h : c.payload[k]? = some 0) : Within len k c c.useState := .emit h rfl

theorem Within.setHs (h : c.payload[k]? = some 0) (hs : HttpState) : Within len k c (c.setHs hs) := .silent h rfl rfl

end

/-! ## The string functions -/

section
variable {len k : Nat} {c : Ctx} {u : Uri}

/-- A string that starts by `k` ends by `k`. -/
theorem uriText_le (h : c.payload[k]? = some 0) {off : Nat} (hu : StartsBy k (.payload off)) :
    off + (c.uriText (.payload off)).length ≤ k := by
  have hoff : off ≤ k := hu
  have hend : (cstr (c.payload.drop off)).length ≤ k - off := by
    apply cstr_length_le
    rw [List.getElem?_drop, Nat.add_sub_cancel' hoff]
    exact h
  show off + (cstr (c.payload.drop off)).length ≤ k
  omega

variable (hk : k < len) (h : c.payload[k]? = some 0) (hu : StartsBy k u)
include hk h hu

/-- Reading up to the terminator. -/
theorem readUri_within {i n : Nat} (hn : i + n ≤ (c.uriText u).length + 1) : Within len k c (c.readUri u i n) := by
  cases u with
  | payload off =>
      have hend := uriText_le h hu
      exact .emit h (decide_eq_true (by omega))
  | const s => exact .refl h
  | null => exact .emit h rfl

theorem uriStrchr_within {i : Nat} (hi : i ≤ (c.uriText u).length) (ch : Byte) :
    Within len k c (c.uriStrchr u i ch).2 := by
  apply readUri_within hk h hu
  have hdrop : ((c.uriText u).drop i).length = (c.uriText u).length - i := List.length_drop
  cases hfound : strchr ((c.uriText u).drop i) ch with
  | none =>
      rw [Option.getD_none]
      omega
  | some j =>
      have hlt := strchr_lt hfound
      rw [Option.getD_some]
      omega

theorem uriStrcmp_within {i : Nat} (hi : i ≤ (c.uriText u).length) (t : List Byte) :
    Within len k c (c.uriStrcmp u i t).2 := by
  apply readUri_within hk h hu
  have hdrop : ((c.uriText u).drop i).length = (c.uriText u).length - i := List.length_drop
  have hreads := strcmpReads_le ((c.uriText u).drop i) t
  omega

theorem uriStrstr_within (t : List Byte) : Within len k c (c.uriStrstr u t).2 := by
  unfold Ctx.uriStrstr
  simp only
  cases hfound : strstr (c.uriText u) t with
  | some i =>
      have hle := strstr_le hfound
      exact @readUri_within len k c u hk h hu 0 (i + t.length) (by omega)
  | none => exact @readUri_within len k c u hk h hu 0 ((c.uriText u).length + 1) (by omega)

omit hu in
/-- Writing before the terminator. -/
theorem writePayload_within {i : Nat} (hi : i < k) (b : Byte) : Within len k c (c.writePayload i b) := by
  refine ⟨?_, ⟨[.payloadWrite i], rfl, ?_⟩⟩
  · show (c.payload.set i b)[k]? = some 0
    rw [List.getElem?_set_ne (by omega)]
    exact h
  · intro e he
    rw [List.mem_singleton.mp he]
    exact decide_eq_true (by omega)

theorem cutUri_within {i : Nat} (hi : i < (c.uriText u).length) :
    Within len k c (c.cutUri u i).2 ∧ StartsBy k (c.cutUri u i).1 := by
  cases u with
  | payload off =>
      have hend := uriText_le h hu
      exact ⟨writePayload_within hk h (by omega) 0, hu⟩
  | const s => exact ⟨.refl h, trivial⟩
  | null => exact ⟨.emit h rfl, trivial⟩

end

/-- What `strchr` finds lies in the string. -/
theorem uriStrchr_lt {c : Ctx} {u : Uri} {i j : Nat} {ch : Byte} (h : (c.uriStrchr u i ch).1 = some j) :
    j < (c.uriText u).length := by
  obtain ⟨d, hd, rfl⟩ := Option.map_eq_some_iff.mp h
  have hlt := strchr_lt hd
  rw [List.length_drop] at hlt
  omega

theorem uriStrchr_text (c : Ctx) (u : Uri) (i : Nat) (ch : Byte) : (c.uriStrchr u i ch).2.uriText u = c.uriText u :=
  uriText_congr (readUri_payload c u _ _) u

theorem uriStrcmp_text (c : Ctx) (u : Uri) (i : Nat) (t : List Byte) : (c.uriStrcmp u i t).2.uriText u = c.uriText u :=
  uriText_congr (readUri_payload c u _ _) u

/-- What `strchr` finds in the payload lies before the terminator. -/
theorem uriStrchr_before {c : Ctx} {k off j : Nat} {ch : Byte} (h : c.payload[k]? = some 0) (hu : off ≤ k)
    (hfound : (c.uriStrchr (.payload off) 0 ch).1 = some j) : off + j < k := by
  have hend := @uriText_le k c h off hu
  have hlt := uriStrchr_lt hfound
  omega

/-! ## Opening and headers -/

section
variable {len k : Nat} (hk : k < len) {u : Uri} (hu : StartsBy k u)
include hk hu

theorem readNames_within : ∀ (fs : List FsDataFile) {c : Ctx}, c.payload[k]? = some 0 →
    Within len k c (Ctx.readNames u fs c) := by
  intro fs
  induction fs with
  | nil => intro c h; exact .refl h
  | cons f fs ih =>
      intro c h
      have hcmp := uriStrcmp_within hk h hu (Nat.zero_le _) f.name
      unfold Ctx.readNames
      simp only
      split
      · exact hcmp
      · exact hcmp.trans (ih hcmp.nul)

theorem fsOpenUri_within (root : List FsDataFile) {c : Ctx} (h : c.payload[k]? = some 0) :
    Within len k c (c.fsOpenUri root u).2 := by
  unfold Ctx.fsOpenUri
  have hread : Within len k c (if (fsMalloc c.fs).isSome then Ctx.readNames u root c else c) := by
    split
    · exact readNames_within hk hu root h
    · exact .refl h
  exact hread.trans (.silent hread.nul rfl rfl)

/-- The extension starts inside the string. -/
theorem findExtension_within : ∀ (fuel start : Nat) (ext : Option Nat) {c : Ctx}, c.payload[k]? = some 0 →
    start ≤ (c.uriText u).length → (∀ e, ext = some e → e ≤ (c.uriText u).length) →
    Within len k c (findExtension u fuel start ext c).2 ∧
      (findExtension u fuel start ext c).2.uriText u = c.uriText u ∧
      ∀ e, (findExtension u fuel start ext c).1 = some e → e ≤ (c.uriText u).length := by
  intro fuel
  induction fuel with
  | zero =>
      intro start ext c h _ hext
      exact ⟨.refl h, rfl, hext⟩
  | succ fuel ih =>
      intro start ext c h hstart hext
      have hread := uriStrchr_within hk h hu hstart 46
      have htext := uriStrchr_text c u start 46
      have hlt := @uriStrchr_lt c u start
      unfold findExtension
      generalize hr : c.uriStrchr u start 46 = r at hread htext
      obtain ⟨found, c'⟩ := r
      cases found with
      | none => exact ⟨hread, htext, hext⟩
      | some i =>
          -- the next search starts behind the dot
          have hi : i < (c.uriText u).length := hlt (by rw [hr])
          simp only at htext
          obtain ⟨hrest, htext', hext'⟩ := ih (i + 1) (some (i + 1)) hread.nul (by rw [htext]; exact hi) (by
            intro e he
            rw [htext, ← Option.some.inj he]
            exact hi)
          rw [htext] at htext' hext'
          exact ⟨hread.trans hrest, htext', hext'⟩

theorem findHeader_within {ext : Nat} : ∀ (hs : List HttpHeader) {c : Ctx}, c.payload[k]? = some 0 →
    ext ≤ (c.uriText u).length → Within len k c (findHeader u ext hs c).2 := by
  intro hs
  induction hs with
  | nil => intro c h _; exact .refl h
  | cons hdr hs ih =>
      intro c h hext
      unfold findHeader
      split
      · exact Within.trans (.emit h rfl) (ih h hext)
      · next e _ =>
          have hcmp := uriStrcmp_within hk h hu hext e
          simp only
          split
          · exact hcmp
          · exact hcmp.trans (ih hcmp.nul (by rw [uriStrcmp_text]; exact hext))

theorem contentType_within {c : Ctx} (h : c.payload[k]? = some 0) : Within len k c (contentType u c).2.2 := by
  obtain ⟨hfind, htext, hext⟩ := findExtension_within hk hu ((c.uriText u).length + 1) 0 none h (Nat.zero_le _)
    (fun _ he => nomatch he)
  unfold contentType
  generalize findExtension u ((c.uriText u).length + 1) 0 none c = r at hfind htext hext
  obtain ⟨ext, c'⟩ := r
  cases ext with
  | none => exact hfind
  | some ext =>
      simp only at htext
      exact hfind.trans (findHeader_within hk hu httpHeaders hfind.nul (by rw [htext]; exact hext ext rfl))

theorem uriContentType_within {c : Ctx} (h : c.payload[k]? = some 0) : Within len k c (uriContentType u c).2.2 := by
  have hread := uriStrchr_within hk h hu (Nat.zero_le _) 63
  have htext := uriStrchr_text c u 0 63
  unfold uriContentType
  generalize hr : c.uriStrchr u 0 63 = r at hread htext
  obtain ⟨vars, c'⟩ := r
  cases vars with
  | none => exact hread.trans (contentType_within hk hu hread.nul)
  | some i =>
      have hi : i < (c.uriText u).length := uriStrchr_lt (by rw [hr])
      simp only at htext
      rw [← htext] at hi
      obtain ⟨hcut, hstart⟩ := cutUri_within hk hread.nul hu hi
      -- the place is remembered: the character goes back before the terminator
      have hplace : ∀ off, u = .payload off → off + i < k := by
        rintro off rfl
        have hend := @uriText_le k c' hread.nul off hu
        omega
      simp only
      generalize c'.cutUri u i = r at hcut hstart
      obtain ⟨cut, c''⟩ := r
      have htype := contentType_within hk hstart hcut.nul
      refine hread.trans (hcut.trans (htype.trans ?_))
      unfold Ctx.restoreUri
      cases u with
      | payload off => exact writePayload_within hk htype.nul (hplace off rfl) 63
      | const s => exact .refl htype.nul
      | null => exact .emit htype.nul rfl

theorem getHttpHeaders_within {c : Ctx} (h : c.payload[k]? = some 0) : Within len k c (getHttpHeaders c u) := by
  have hstart : Within len k c ((c.useState).setHs (c.useState.hs.setHdr 1 .server)) :=
    (Within.useState h).trans (.setHs (Within.useState h : Within len k c c.useState).nul _)
  unfold getHttpHeaders
  simp only
  generalize (c.useState).setHs (c.useState.hs.setHdr 1 .server) = c₁ at hstart
  split
  · exact hstart.trans (.setHs hstart.nul _)
  · have hstatus : Within len k c₁ (setStatusHeader u c₁) :=
      (uriStrstr_within hk hstart.nul hu (lit "404")).trans
        (.setHs (uriStrstr_within hk hstart.nul hu (lit "404")).nul _)
    have htype := uriContentType_within hk hu hstatus.nul
    generalize uriContentType u (setStatusHeader u c₁) = r at htype
    obtain ⟨ext, hdr, c₂⟩ := r
    have hall : Within len k c c₂ := hstart.trans (hstatus.trans htype)
    cases ext with
    | none => exact hall.trans (.setHs hall.nul _)
    | some _ => exact hall.trans (.setHs hall.nul _)

end

/-! ## Parameters and dispatching -/

section
variable {len k : Nat} (hk : k < len)
include hk

/-- The next pair starts before the terminator or at it. -/
theorem splitPair_within {pair : Nat} (hpair : pair ≤ k) {c : Ctx} (h : c.payload[k]? = some 0) :
    Within len k c (splitPair pair c).2 ∧ ∀ next, (splitPair pair c).1 = some next → next ≤ k := by
  have hamp := uriStrchr_within hk h (u := .payload pair) hpair (Nat.zero_le _) 38
  have hbefore := @uriStrchr_before c k pair
  unfold splitPair
  generalize hr : c.uriStrchr (.payload pair) 0 38 = r at hamp
  obtain ⟨found, c₁⟩ := r
  cases found with
  | some i =>
      have hi : pair + i < k := hbefore h hpair (by rw [hr])
      refine ⟨hamp.trans (writePayload_within hk hamp.nul hi 0), ?_⟩
      intro next hnext
      rw [← Option.some.inj hnext]
      exact hi
  | none =>
      -- the last pair may end at a space
      have hspace := uriStrchr_within hk hamp.nul (u := .payload pair) hpair (Nat.zero_le _) 32
      have hbefore' := @uriStrchr_before c₁ k pair
      simp only
      generalize hr' : c₁.uriStrchr (.payload pair) 0 32 = r at hspace
      obtain ⟨found, c₂⟩ := r
      cases found with
      | some i =>
          have hi : pair + i < k := hbefore' hamp.nul hpair (by rw [hr'])
          exact ⟨hamp.trans (hspace.trans (writePayload_within hk hspace.nul hi 0)), fun _ hnext => nomatch hnext⟩
      | none => exact ⟨hamp.trans hspace, fun _ hnext => nomatch hnext⟩

theorem splitValue_within {pair : Nat} (hpair : pair ≤ k) {c : Ctx} (h : c.payload[k]? = some 0) :
    Within len k c (splitValue pair c).2 := by
  have hequals := uriStrchr_within hk h (u := .payload pair) hpair (Nat.zero_le _) 61
  have hbefore := @uriStrchr_before c k pair
  unfold splitValue
  generalize hr : c.uriStrchr (.payload pair) 0 61 = r at hequals
  obtain ⟨found, c₁⟩ := r
  cases found with
  | some i =>
      have hi : pair + i < k := hbefore h hpair (by rw [hr])
      exact hequals.trans (writePayload_within hk hequals.nul hi 0)
  | none => exact hequals

theorem extractPairs_within : ∀ (fuel loop : Nat) (pair : Option Nat) {c : Ctx}, (∀ p, pair = some p → p ≤ k) →
    c.payload[k]? = some 0 → Within len k c (extractPairs fuel loop pair c).2 := by
  intro fuel
  induction fuel with
  | zero => intro loop pair c _ h; exact .refl h
  | succ fuel ih =>
      intro loop pair c hpair h
      cases pair with
      | none => exact .refl h
      | some pair =>
          have hstored : Within len k c ((c.useState).setHs { c.useState.hs with
              params := fun i => if i = loop then some pair else c.useState.hs.params i }) :=
            (Within.useState h).trans (.setHs (Within.useState h : Within len k c c.useState).nul _)
          obtain ⟨hsplit, hnext⟩ := splitPair_within hk (hpair pair rfl) hstored.nul
          have hvalue := splitValue_within hk (hpair pair rfl) hsplit.nul
          unfold extractPairs
          simp only
          refine Within.trans ?_ (ih _ _ hnext hvalue.nul)
          exact (hstored.trans (hsplit.trans hvalue)).trans (.setHs hvalue.nul _)

theorem extractUriParameters_within (cfg : Config) {params : Option Nat} (hparams : ∀ p, params = some p → p ≤ k)
    {c : Ctx} (h : c.payload[k]? = some 0) : Within len k c (extractUriParameters cfg params c).2 := by
  unfold extractUriParameters
  cases params with
  | none => exact .refl h
  | some p =>
      have hp := hparams p rfl
      have hread : Within len k c (c.emit (.payloadRead p 1)) := .emit h (decide_eq_true (by omega))
      simp only
      split
      · exact hread
      · exact hread.trans (extractPairs_within hk _ _ _ hparams hread.nul)

theorem findCgi_within {u : Uri} (hu : StartsBy k u) : ∀ (names : List (List Byte)) (i : Nat) {c : Ctx},
    c.payload[k]? = some 0 → Within len k c (findCgi u names i c).2 := by
  intro names
  induction names with
  | nil => intro i c h; exact .refl h
  | cons name names ih =>
      intro i c h
      have hcmp := uriStrcmp_within hk h hu (Nat.zero_le _) name
      unfold findCgi
      simp only
      split
      · exact hcmp
      · exact hcmp.trans (ih _ hcmp.nul)

/-- The query starts before the terminator. -/
theorem isolateBase_within {off : Nat} (hoff : off ≤ k) {c : Ctx} (h : c.payload[k]? = some 0) :
    Within len k c (isolateBase off c).2 ∧ ∀ i, (isolateBase off c).1 = some i → off + i < k := by
  have hquery := uriStrchr_within hk h (u := .payload off) hoff (Nat.zero_le _) 63
  have hbefore := @uriStrchr_before c k off
  unfold isolateBase
  generalize hr : c.uriStrchr (.payload off) 0 63 = r at hquery
  obtain ⟨found, c₁⟩ := r
  cases found with
  | some i =>
      have hi : off + i < k := hbefore h hoff (by rw [hr])
      refine ⟨hquery.trans (writePayload_within hk hquery.nul hi 0), ?_⟩
      intro j hj
      rw [← Option.some.inj hj]
      exact hi
  | none => exact ⟨hquery, fun _ hj => nomatch hj⟩

/-- The name to open starts by the terminator where the handlers' answers do. -/
theorem dispatchCgi_within (cfg : Config) {env : Env} (henv : ∀ i n, StartsBy k (env.cgi i n)) {off : Nat}
    (hoff : off ≤ k) {c : Ctx} (h : c.payload[k]? = some 0) :
    Within len k c (dispatchCgi cfg env off c).2 ∧ StartsBy k (dispatchCgi cfg env off c).1 := by
  obtain ⟨hbase, hquery⟩ := isolateBase_within hk hoff h
  unfold dispatchCgi
  generalize isolateBase off c = r at hbase hquery
  obtain ⟨query, c₁⟩ := r
  simp only at hquery ⊢
  match cfg.cgis with
  | none | some [] => exact ⟨hbase, hoff⟩
  | some (name :: handlers) =>
      have hfind := findCgi_within hk (u := .payload off) hoff (name :: handlers) 0 hbase.nul
      simp only
      generalize findCgi (.payload off) (name :: handlers) 0 c₁ = r at hfind
      obtain ⟨found, c₂⟩ := r
      cases found with
      | some i =>
          -- the parameters start behind the `?`, so by the terminator at the latest
          have hparams : ∀ p, query.map (off + · + 1) = some p → p ≤ k := by
            intro p hp
            obtain ⟨j, hj, rfl⟩ := Option.map_eq_some_iff.mp hp
            exact hquery j hj
          have hextract := extractUriParameters_within hk cfg hparams hfind.nul
          exact ⟨hbase.trans (hfind.trans hextract), henv i _⟩
      | none =>
          -- the `?` is put back where it was
          refine ⟨hbase.trans (hfind.trans ?_), hoff⟩
          unfold reinstateQuery
          cases query with
          | none => exact .refl hfind.nul
          | some i => exact writePayload_within hk hfind.nul (hquery i rfl) 63

theorem hasSsiExtension_within {u : Uri} (hu : StartsBy k u) : ∀ (exts : List (List Byte)) {c : Ctx},
    c.payload[k]? = some 0 → Within len k c (hasSsiExtension u exts c).2 := by
  intro exts
  induction exts with
  | nil => intro c h; exact .refl h
  | cons ext exts ih =>
      intro c h
      have hstr := uriStrstr_within hk h hu ext
      unfold hasSsiExtension
      simp only
      split
      · exact hstr
      · exact hstr.trans (ih hstr.nul)

end

/-! ## Opening the file -/

section
variable {len k : Nat} (hk : k < len) (cfg : Config)

theorem setTagCheck_within {c : Ctx} (h : c.payload[k]? = some 0) (b : Bool) :
    Within len k c (setTagCheck cfg c b) := by
  unfold setTagCheck
  split
  · exact Within.trans (.useState h) (.silent h rfl rfl)
  · exact .refl h

include hk

theorem get404File_within {c : Ctx} (h : c.payload[k]? = some 0) :
    Within len k c (get404File cfg c).2.2 ∧ StartsBy k (get404File cfg c).2.1 := by
  have hopen := fsOpenUri_within hk (u := .const (lit "/404.html")) trivial cfg.fsRoot h
  unfold get404File
  generalize c.fsOpenUri cfg.fsRoot (.const (lit "/404.html")) = r at hopen
  obtain ⟨file, c₁⟩ := r
  cases file with
  | some i => exact ⟨hopen, trivial⟩
  | none =>
      have hopen' := fsOpenUri_within hk (u := .const (lit "/404.htm")) trivial cfg.fsRoot hopen.nul
      simp only
      generalize c₁.fsOpenUri cfg.fsRoot (.const (lit "/404.htm")) = r at hopen'
      obtain ⟨file, c₂⟩ := r
      cases file with
      | some i => exact ⟨hopen.trans hopen', trivial⟩
      | none => exact ⟨hopen.trans hopen', trivial⟩

theorem openDefault_within : ∀ (names : List (List Byte × Bool)) {c : Ctx}, c.payload[k]? = some 0 →
    Within len k c (openDefault cfg names c).2.2 ∧ StartsBy k (openDefault cfg names c).2.1 := by
  intro names
  induction names with
  | nil =>
      intro c h
      obtain ⟨hopen, huri⟩ := get404File_within hk cfg h
      unfold openDefault
      generalize get404File cfg c = r at hopen huri
      obtain ⟨file, uri, c₁⟩ := r
      exact ⟨hopen.trans (setTagCheck_within cfg hopen.nul false), huri⟩
  | cons n names ih =>
      intro c h
      obtain ⟨name, shtml⟩ := n
      have hopen := fsOpenUri_within hk (u := .const name) trivial cfg.fsRoot h
      unfold openDefault
      generalize c.fsOpenUri cfg.fsRoot (.const name) = r at hopen
      obtain ⟨file, c₁⟩ := r
      cases file with
      | some i => exact ⟨hopen.trans (setTagCheck_within cfg hopen.nul shtml), trivial⟩
      | none =>
          obtain ⟨hrest, huri⟩ := ih hopen.nul
          exact ⟨hopen.trans hrest, huri⟩

variable {env : Env} (henv : ∀ i n, StartsBy k (env.cgi i n))
include henv

theorem openNamed_within (hk4 : 4 ≤ k) {c : Ctx} (h : c.payload[k]? = some 0) :
    Within len k c (openNamed cfg env 4 c).2.2 ∧ StartsBy k (openNamed cfg env 4 c).2.1 := by
  have hdispatch : Within len k c (if cfg.includeHttpdCgi then dispatchCgi cfg env 4 c else (Uri.payload 4, c)).2 ∧
      StartsBy k (if cfg.includeHttpdCgi then dispatchCgi cfg env 4 c else (Uri.payload 4, c)).1 := by
    split
    · exact dispatchCgi_within hk cfg henv hk4 h
    · exact ⟨.refl h, hk4⟩
  unfold openNamed
  generalize (if cfg.includeHttpdCgi = true then dispatchCgi cfg env 4 c else (Uri.payload 4, c)) = r at hdispatch
  obtain ⟨uri, c₁⟩ := r
  obtain ⟨hname, huri⟩ := hdispatch
  have hopen := fsOpenUri_within hk huri cfg.fsRoot hname.nul
  simp only
  generalize c₁.fsOpenUri cfg.fsRoot uri = r at hopen
  obtain ⟨file, c₂⟩ := r
  have hboth : Within len k c c₂ := hname.trans hopen
  cases file with
  | none =>
      -- the error page goes by a constant name
      obtain ⟨hpage, hpageUri⟩ := get404File_within hk cfg hboth.nul
      exact ⟨hboth.trans hpage, hpageUri⟩
  | some i =>
      simp only
      split
      · -- the extension is looked for in the same string
        have htag : Within len k c (setTagCheck cfg c₂ false) := hboth.trans (setTagCheck_within cfg hboth.nul false)
        have hext := hasSsiExtension_within hk huri ssiExtensions htag.nul
        generalize hasSsiExtension uri ssiExtensions (setTagCheck cfg c₂ false) = r at hext
        obtain ⟨ssi, c₃⟩ := r
        refine ⟨htag.trans (hext.trans ?_), huri⟩
        simp only
        split
        · exact setTagCheck_within cfg hext.nul true
        · exact .refl hext.nul
      · exact ⟨hboth, huri⟩

theorem openRequested_within (hk4 : 4 ≤ k) {c : Ctx} (h : c.payload[k]? = some 0) :
    Within len k c (openRequested cfg env c).2.2 ∧ StartsBy k (openRequested cfg env c).2.1 := by
  have htag : Within len k c (setTagCheck cfg c false) := setTagCheck_within cfg h false
  have hfirst : Within len k c ((setTagCheck cfg c false).emit (.payloadRead 4 1)) :=
    htag.trans (.emit htag.nul (decide_eq_true (by omega)))
  unfold openRequested
  simp only
  generalize (setTagCheck cfg c false).emit (.payloadRead 4 1) = c₁ at hfirst
  by_cases hslash : c₁.payload.getD 4 0 = 47
  · -- the terminator is not the slash, so there is a byte behind it
    have hk5 : 5 ≤ k := by
      apply Nat.lt_of_le_of_ne hk4
      rintro rfl
      rw [List.getD_eq_getElem?_getD, hfirst.nul] at hslash
      exact absurd hslash (by decide)
    simp only [hslash, true_and, if_true]
    have hsecond : Within len k c (c₁.emit (.payloadRead 5 1)) :=
      hfirst.trans (.emit hfirst.nul (decide_eq_true (by omega)))
    generalize c₁.emit (.payloadRead 5 1) = c₂ at hsecond
    by_cases hroot : c₂.payload.getD 5 0 = 0
    · rw [if_pos hroot]
      obtain ⟨hopen, huri⟩ := openDefault_within hk cfg defaultFilenames hsecond.nul
      exact ⟨hsecond.trans hopen, huri⟩
    · rw [if_neg hroot]
      obtain ⟨hopen, huri⟩ := openNamed_within hk cfg henv hk4 hsecond.nul
      exact ⟨hsecond.trans hopen, huri⟩
  · simp only [hslash, false_and, if_false]
    obtain ⟨hopen, huri⟩ := openNamed_within hk cfg henv hk4 hfirst.nul
    exact ⟨hfirst.trans hopen, huri⟩

omit henv in
theorem setUpResponse_within (file : Option Nat) {uri : Uri} (huri : StartsBy k uri) {c : Ctx}
    (h : c.payload[k]? = some 0) : Within len k c (setUpResponse cfg file uri c) := by
  unfold setUpResponse
  cases file with
  | some i =>
      have hfile : Within len k c
          ((c.useState.setHs (c.useState.hs.serve i (fsFile c.useState.fs i))).emit .pbufFree) :=
        ⟨h, [.useState c.self, .pbufFree], by simp, by simp [inPayload]⟩
      simp only
      split
      · exact hfile.trans (getHttpHeaders_within hk huri hfile.nul)
      · exact hfile
  | none =>
      have hnothing : Within len k c (c.useState.setHs c.useState.hs.serveNothing) :=
        ⟨h, [.useState c.self], by simp, by simp [inPayload]⟩
      simp only
      split
      · exact hnothing.trans (getHttpHeaders_within hk huri hnothing.nul)
      · exact hnothing

end

/-! ## The scan -/

/-- The scan looks at five bytes from an index on that leaves room for six. -/
theorem findHttp_inPayload (len : Nat) :
    ∀ (fuel i : Nat) (c : Ctx), Adds (inPayload len) c (findHttp len fuel i c).2 := by
  intro fuel
  induction fuel with
  | zero => intro i c; exact .refl c
  | succ fuel ih =>
      intro i c
      unfold findHttp
      split
      · next hbound =>
          have hreads : prefixReads (lit " HTTP") (c.payload.drop i) ≤ 5 := prefixReads_le _ _
          have hread : Adds (inPayload len) c
              (c.emit (.payloadRead i (prefixReads (lit " HTTP") (c.payload.drop i)))) :=
            .emit c (decide_eq_true (by omega))
          simp only
          split
          · exact hread.trans ⟨[.payloadWrite i], rfl, by
              intro e he
              rw [List.mem_singleton.mp he]
              exact decide_eq_true (by omega)⟩
          · exact hread.trans (ih _ _)
      · exact .refl c

/-! ## `http_recv` -/

/-- The first four bytes of the segment are `"GET "`. -/
def Segment.IsGet (p : Segment) : Prop := (p.mem.take p.len).take 4 = lit "GET "

/-- `" HTTP"` lies in the segment, behind its first four bytes. -/
def Segment.HasHttp (p : Segment) : Prop := ∃ i, 4 ≤ i ∧ i + 5 ≤ p.len ∧ lit " HTTP" <+: p.mem.drop i

/-- A look at the payload. -/
def looks : Ev → Bool
  | .payloadRead .. => true
  | _ => false

/-- The segment is freed and the connection closed after nothing but looks at the payload. -/
def Refuses (env : Env) (p : Segment) (c : Ctx) (o : Outcome) : Prop :=
  ∃ c₁, c₁.hs = c.hs ∧ c₁.fs = c.fs ∧ Adds looks (c.receive p) c₁ ∧ o = ⟨closeConn env (c₁.emit .pbufFree), true⟩

/-- **Parsing bounded by the segment**: only a request goes further than a look, and nothing outside the segment is
    read or written. -/
structure BoundedParse (cfg : Config) (env : Env) (fuel : Nat) (p : Segment) (c : Ctx) : Prop where
  refuses : ¬(p.IsGet ∧ p.HasHttp) → Refuses env p c (httpRecv cfg env fuel (some p) .ok c)
  inside  : Adds (inPayload p.len) c (httpRecv cfg env fuel (some p) .ok c).ctx

/-- Less than nine bytes that do not differ from the start of a request. -/
def Segment.CutShort (p : Segment) : Prop := p.len < 9 ∧ (p.mem.take p.len).take 4 = (lit "GET ").take p.len

theorem Segment.isGet_iff {p : Segment} (h : 4 ≤ p.len) : p.IsGet ↔ p.mem.take 4 = lit "GET " := by
  unfold Segment.IsGet
  rw [List.take_take, Nat.min_eq_left h]

/-- The look at the method stays inside the segment unless that is cut short. -/
theorem Segment.methodReads_le {p : Segment} (h : ¬p.CutShort) : prefixReads (lit "GET ") p.mem ≤ p.len := by
  have hreads : prefixReads (lit "GET ") p.mem ≤ 4 := prefixReads_le _ _
  by_cases h4 : 4 ≤ p.len
  · omega
  · apply Nat.le_of_not_lt
    intro hlt
    refine h ⟨by omega, ?_⟩
    rw [List.take_take, Nat.min_eq_right (by omega)]
    exact (lt_prefixReads_iff (Nat.lt_of_not_le h4) p.len_le).mp hlt

theorem Segment.nine_le {p : Segment} (h : ¬p.CutShort) (hget : p.mem.take 4 = lit "GET ") : 9 ≤ p.len := by
  apply Nat.le_of_not_lt
  intro hlt
  refine h ⟨hlt, ?_⟩
  rw [List.take_take, ← hget, List.take_take, Nat.min_comm]

theorem offSegment_inPayload {len : Nat} {e : Ev} (h : offSegment e = true) : inPayload len e = true := by
  cases e <;> first | rfl | exact absurd h Bool.false_ne_true

/-- A scan without a hit only looks. -/
theorem findHttp_miss (len : Nat) : ∀ (fuel i : Nat) (c : Ctx),
    (∀ j, i ≤ j → j + 5 < len → ¬ lit " HTTP" <+: c.payload.drop j) →
    (findHttp len fuel i c).2.hs = c.hs ∧ (findHttp len fuel i c).2.fs = c.fs ∧
      Adds looks c (findHttp len fuel i c).2 := by
  intro fuel
  induction fuel with
  | zero => intro i c _; exact ⟨rfl, rfl, .refl c⟩
  | succ fuel ih =>
      intro i c hmiss
      by_cases hbound : (i : Int) < (len : Int) - 5
      · have hstep : findHttp len (fuel + 1) i c =
            findHttp len fuel (i + 1) (c.emit (.payloadRead i (prefixReads (lit " HTTP") (c.payload.drop i)))) := by
          rw [findHttp, if_pos hbound]
          exact if_neg (hmiss i (Nat.le_refl i) (by omega))
        obtain ⟨hhs, hfs, hadds⟩ := ih (i + 1)
          (c.emit (.payloadRead i (prefixReads (lit " HTTP") (c.payload.drop i))))
          (fun j hj hlt => hmiss j (by omega) hlt)
        rw [hstep]
        exact ⟨hhs, hfs, (Adds.emit c rfl).trans hadds⟩
      · rw [findHttp, if_neg hbound]
        exact ⟨rfl, rfl, .refl c⟩

section
variable (cfg : Config) (env : Env) (fuel : Nat) {p : Segment} {c : Ctx}

/-- A segment that is not cut short is not left, where the handlers answer with strings that the terminator ends. -/
theorem handleRequest_inPayload (hpay : c.payload = p.mem) (hlen : ¬p.CutShort)
    (hcgi : ∀ k, p.marker = some k → ∀ i n, StartsBy k (env.cgi i n)) :
    Adds (inPayload p.len) c (handleRequest cfg env fuel p c).ctx := by
  have hread : Adds (inPayload p.len) c (c.emit (.payloadRead 0 (prefixReads (lit "GET ") p.mem))) :=
    .emit c (decide_eq_true (by rw [Nat.zero_add]; exact Segment.methodReads_le hlen))
  have hclose : ∀ c', Adds (inPayload p.len) c c' → Adds (inPayload p.len) c (closeConn env (c'.emit .pbufFree)) := by
    intro c' h
    exact h.trans ((Adds.emit c' rfl).trans ((closeConn_offSegment env _).mono fun _ => offSegment_inPayload))
  rw [handleRequest_eq cfg env fuel hpay]
  have hpay₁ : (c.emit (.payloadRead 0 (prefixReads (lit "GET ") p.mem))).payload = p.mem := hpay
  generalize c.emit (.payloadRead 0 (prefixReads (lit "GET ") p.mem)) = c₁ at hread hpay₁
  by_cases hmethod : p.mem.take 4 = lit "GET "
  swap
  · rw [if_neg hmethod]
    exact hclose _ hread
  have hscan := hread.trans (findHttp_inPayload p.len p.len 4 c₁)
  obtain ⟨-, hrequest⟩ := findHttp_marker hpay₁
  rw [if_pos hmethod]
  by_cases hnone : 9 ≤ p.len ∧ p.marker = none
  · rw [if_pos hnone]
    exact hclose _ hscan
  · rw [if_neg hnone]
    generalize (findHttp p.len p.len 4 c₁).2 = c₂ at hscan hrequest
    -- the terminator that the scan has written
    obtain ⟨k, hk⟩ := Option.ne_none_iff_exists'.mp fun h => hnone ⟨Segment.nine_le hlen hmethod, h⟩
    have hmem := List.mem_range'_1.mp (List.mem_of_find?_eq_some hk)
    have hmemLen := p.len_le
    have hnul : c₂.payload[k]? = some 0 := by
      rw [hrequest, Segment.request, hk]
      exact List.getElem?_set_self (by omega)
    obtain ⟨hopen, huri⟩ := openRequested_within (by omega : k < p.len) cfg (hcgi k hk) hmem.1 hnul
    have hsetUp := setUpResponse_within (by omega : k < p.len) cfg (openRequested cfg env c₂).1 huri hopen.nul
    refine hscan.trans (hopen.adds.trans (hsetUp.adds.trans ((Adds.emit (e := .tcpSent true) _ rfl).trans ?_)))
    exact (sendData_offSegment cfg env fuel _).mono fun _ => offSegment_inPayload

/-- A segment that is not a request, of any length that shows it, is refused. -/
theorem handleRequest_refuses (hpay : c.payload = p.mem) (hlen : ¬p.CutShort) (hnot : ¬(p.IsGet ∧ p.HasHttp)) :
    ∃ c₁, c₁.hs = c.hs ∧ c₁.fs = c.fs ∧ Adds looks c c₁ ∧
      handleRequest cfg env fuel p c = ⟨closeConn env (c₁.emit .pbufFree), true⟩ := by
  rw [handleRequest_eq cfg env fuel hpay]
  have hread : Adds looks c (c.emit (.payloadRead 0 (prefixReads (lit "GET ") p.mem))) := .emit c rfl
  by_cases hmethod : p.mem.take 4 = lit "GET "
  swap
  · rw [if_neg hmethod]
    exact ⟨c.emit (.payloadRead 0 (prefixReads (lit "GET ") p.mem)), rfl, rfl, hread, rfl⟩
  -- a segment with the method is long enough, so the scan has missed
  have h9 : 9 ≤ p.len := Segment.nine_le hlen hmethod
  have hget : p.IsGet := (Segment.isGet_iff (by omega)).mpr hmethod
  have hmarker : p.marker = none := by
    apply List.find?_eq_none.mpr
    intro i hi hhit
    have hmem := List.mem_range'_1.mp hi
    exact hnot ⟨hget, i, hmem.1, by omega, of_decide_eq_true hhit⟩
  rw [if_pos hmethod, if_pos ⟨h9, hmarker⟩]
  have hmiss : ∀ j, 4 ≤ j → j + 5 < p.len → ¬ lit " HTTP" <+: p.mem.drop j := by
    intro j hj hlt hhit
    exact List.find?_eq_none.mp hmarker j (List.mem_range'_1.mpr ⟨hj, by omega⟩) (decide_eq_true hhit)
  obtain ⟨hhs, hfs, hadds⟩ := findHttp_miss p.len p.len 4
    (c.emit (.payloadRead 0 (prefixReads (lit "GET ") p.mem))) (by rw [Ctx.emit_payload, hpay]; exact hmiss)
  exact ⟨_, hhs, hfs, hread.trans hadds, rfl⟩

/-- The look at the method comes first. -/
theorem handleRequest_reads (hpay : c.payload = p.mem) :
    ∃ es, (handleRequest cfg env fuel p c).ctx.log = c.log ++ es ∧
      .payloadRead 0 (prefixReads (lit "GET ") p.mem) ∈ es := by
  have hclose : ∀ c', Adds (fun _ => true) c' (closeConn env (c'.emit .pbufFree)) := fun c' =>
    (Adds.emit c' rfl).trans ((closeConn_adds env _).mono fun _ _ => rfl)
  have hlater : Adds (fun _ => true) (c.emit (.payloadRead 0 (prefixReads (lit "GET ") p.mem)))
      (handleRequest cfg env fuel p c).ctx := by
    rw [handleRequest_eq cfg env fuel hpay]
    generalize c.emit (.payloadRead 0 (prefixReads (lit "GET ") p.mem)) = c₁
    have hscan : Adds (fun _ => true) c₁ (findHttp p.len p.len 4 c₁).2 :=
      (findHttp_inPayload p.len p.len 4 c₁).mono fun _ _ => rfl
    split
    · split
      · exact hscan.trans (hclose _)
      · refine hscan.trans ((openRequested_setUp_adds cfg env _).trans
          ((Adds.emit (e := .tcpSent true) _ rfl).trans ?_))
        exact (sendData_adds cfg env fuel _).mono fun _ _ => rfl
    · exact hclose c₁
  obtain ⟨es, hes, -⟩ := hlater
  exact ⟨_ :: es, by rw [hes, Ctx.emit_log, List.append_assoc, List.singleton_append], List.mem_cons_self⟩

/-- A request cut short behind its method is served. -/
theorem handleRequest_goes_on (hpay : c.payload = p.mem) (hlt : p.len < 9) (hget : p.mem.take 4 = lit "GET ") :
    ∃ es, (handleRequest cfg env fuel p c).ctx.log = c.log ++ es ∧ .tcpSent true ∈ es := by
  rw [handleRequest_eq cfg env fuel hpay, if_pos hget, if_neg (by omega)]
  have hread : Adds (fun _ => true) c (c.emit (.payloadRead 0 (prefixReads (lit "GET ") p.mem))) := .emit c rfl
  generalize c.emit (.payloadRead 0 (prefixReads (lit "GET ") p.mem)) = c₁ at hread
  have hscan : Adds (fun _ => true) c₁ (findHttp p.len p.len 4 c₁).2 :=
    (findHttp_inPayload p.len p.len 4 c₁).mono fun _ _ => rfl
  obtain ⟨es, hes, -⟩ := hread.trans (hscan.trans (openRequested_setUp_adds cfg env _))
  simp only
  generalize setUpResponse cfg _ _ _ = c₂ at hes
  obtain ⟨es', hes', -⟩ := sendData_adds cfg env fuel (c₂.emit (.tcpSent true))
  refine ⟨es ++ .tcpSent true :: es', ?_, List.mem_append_right _ List.mem_cons_self⟩
  rw [hes', Ctx.emit_log, hes, List.append_assoc, List.append_assoc, List.singleton_append]

/-- **When parsing is bounded by the segment**: exactly if the segment is not cut short, that is, if it has nine bytes
    or differs from the start of a request within those that it has. -/
theorem parse_bounded_iff (hhandle : c.hs.handle = none)
    (hcgi : ∀ k, p.marker = some k → ∀ i n, StartsBy k (env.cgi i n)) :
    BoundedParse cfg env fuel p c ↔ ¬p.CutShort := by
  have hrecv : httpRecv cfg env fuel (some p) .ok c = handleRequest cfg env fuel p (c.receive p) := by
    rw [httpRecv_some, if_pos hhandle]
  have hpay : (c.receive p).payload = p.mem := rfl
  constructor
  swap
  · -- the segment is not cut short: every reader stays inside
    intro hlen
    refine ⟨?_, ?_⟩
    · intro hnot
      rw [hrecv]
      exact handleRequest_refuses cfg env fuel hpay hlen hnot
    · rw [hrecv]
      exact (receive_adds (fun _ => rfl) (fun _ => rfl) c p).trans (handleRequest_inPayload cfg env fuel hpay hlen hcgi)
  · rintro ⟨hrefuses, hinside⟩ ⟨hlt, hstart⟩
    rw [hrecv] at hrefuses hinside
    have hbefore := receive_adds (q := fun _ => true) (fun _ => rfl) (fun _ => rfl) c p
    by_cases h4 : p.len < 4
    · -- the method is not complete, and `strncmp` looks for the rest of it
      rw [List.take_take, Nat.min_eq_right (by omega)] at hstart
      have hreads : p.len < prefixReads (lit "GET ") p.mem := (lt_prefixReads_iff h4 p.len_le).mpr hstart
      obtain ⟨es, hes, hmem⟩ := handleRequest_reads cfg env fuel hpay
      have hle := of_decide_eq_true (hinside.event hbefore hes hmem)
      omega
    · -- the method is there, and the bound of the scan is passed before it starts
      have hget : p.mem.take 4 = lit "GET " := by
        rw [List.take_take, Nat.min_eq_left (by omega)] at hstart
        rw [hstart, List.take_of_length_le (Nat.le_of_not_lt h4)]
      obtain ⟨c₁, -, -, hlooks, heq⟩ := hrefuses (by
        rintro ⟨-, i, hi, hlen, -⟩
        omega)
      obtain ⟨es, hes, hmem⟩ := handleRequest_goes_on cfg env fuel hpay hlt hget
      have hquiet : Adds (fun e => e ≠ .tcpSent true) c (handleRequest cfg env fuel p (c.receive p)).ctx := by
        rw [heq]
        refine (receive_adds (fun _ => by simp) (fun _ => by simp) c p).trans ((hlooks.mono ?_).trans
          ((Adds.emit c₁ (by simp)).trans ⟨closeEvents env _, closeConn_log env _, ?_⟩))
        · intro e he
          cases e <;> first | rfl | exact absurd he Bool.false_ne_true
        · unfold closeEvents freeEvents
          cases (c₁.emit .pbufFree).hs.buf <;> simp
      exact absurd (hquiet.event hbefore hes hmem) (by simp)

end

/-! A request that a handler answers, and one whose segment ends with the method while the buffer still holds an older
request. -/

/-- One handler is registered, for `/go`. -/
def cgiConfig : Config := { soleConfig pageFile false with includeHttpdCgi := true, cgis := some [lit "/go"] }

def cgiEnv : Env := { soleEnv with cgi := fun _ _ => .const (lit "/a.htm") }

def cgiRequest : Segment :=
  { pageRequest with
    mem := lit "GET /go?x=1 HTTP/1.0\r\n\r\n", len := 24, totLen := 24, len_le := by decide, len_lt := by decide }

theorem parse_bounded_cgi : BoundedParse cgiConfig cgiEnv 0 cgiRequest (acceptedCtx false) :=
  (parse_bounded_iff cgiConfig cgiEnv 0 rfl (fun _ _ _ _ => trivial)).mpr (by unfold Segment.CutShort; decide)

def cutRequest : Segment := { pageRequest with len := 4, totLen := 4, len_le := by decide, len_lt := by decide }

theorem cut_request_parsed :
    ¬cutRequest.HasHttp ∧
      (httpRecv (soleConfig pageFile false) soleEnv 0 (some cutRequest) .ok (acceptedCtx false)).ctx.log.contains
        (.payloadRead 4 1) = true ∧
      ¬BoundedParse (soleConfig pageFile false) soleEnv 0 cutRequest (acceptedCtx false) := by
  have hread : (httpRecv (soleConfig pageFile false) soleEnv 0 (some cutRequest) .ok
    (acceptedCtx false)).ctx.log.contains
      (.payloadRead 4 1) = true := by decide +kernel
  refine ⟨?_, hread, ?_⟩
  · rintro ⟨i, hi, hlen, -⟩
    have : cutRequest.len = 4 := rfl
    omega
  · rintro ⟨-, es, hes, hall⟩
    rw [hes] at hread
    have hmem : .payloadRead 4 1 ∈ es := by simpa [acceptedCtx] using hread
    exact absurd (hall _ hmem) (by decide)

end ThirdParty.Httpd
