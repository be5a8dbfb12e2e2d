import Mathlib.Data.List.DropRight
import Mathlib.Data.List.Infix
import ThirdParty.Httpd.Headers
import ThirdParty.Lib.CString
import ThirdParty.Httpd.Correctness.Bounds
import ThirdParty.Httpd.Correctness.Plain

/-!
# `Httpd.Correctness.ContentType` — the headers selected for a URI

What `get_http_headers` should select for a URI is `HeadersRight`; when it does is a condition on the last extension
of the file name. Two defects are in the way. The search runs over all sixteen entries of a table with fifteen
initialisers, so an extension that is not listed is compared with `NULL`; and the strings of the entries for PNG and
JPEG are the wrong way round.
-/

namespace ThirdParty.Httpd

open Lib Lwip

/-! ## What the headers should be -/

/-- The part of a URI before its variables. -/
def uriFile (s : List Byte) : List Byte := s.takeWhile (· ≠ 63)

/-- What follows the last dot of a file name. -/
def lastExtension (s : List Byte) : Option (List Byte) := if 46 ∈ s then some (s.rtakeWhile (· ≠ 46)) else none

/-- The extensions of the table, each with the header for the type of such files. -/
def contentTypes : List (List Byte × List Byte) :=
  [ (lit "html", lit "Content-type: text/html\r\n\r\n"),
    (lit "htm", lit "Content-type: text/html\r\n\r\n"),
    (lit "shtml", httpHeaderString .ssi), (lit "shtm", httpHeaderString .ssi), (lit "ssi", httpHeaderString .ssi),
    (lit "gif", lit "Content-type: image/gif\r\n\r\n"),
    (lit "png", lit "Content-type: image/png\r\n\r\n"),
    (lit "jpg", lit "Content-type: image/jpeg\r\n\r\n"),
    (lit "bmp", lit "Content-type: image/bmp\r\n\r\n"),
    (lit "class", lit "Content-type: application/octet-stream\r\n\r\n"),
    (lit "cls", lit "Content-type: application/octet-stream\r\n\r\n"),
    (lit "js", lit "Content-type: application/x-javascript\r\n\r\n"),
    (lit "ram", lit "Content-type: audio/x-pn-realaudio\r\n\r\n"),
    (lit "css", lit "Content-type: text/css\r\n\r\n"),
    (lit "swf", lit "Content-type: application/x-shockwave-flash\r\n\r\n") ]

/-- The header for the type of a file, which is plain text if nothing is known about its extension. -/
def contentTypeFor (ext : List Byte) : List Byte :=
  (contentTypes.lookup ext).getD (lit "Content-type: text/plain\r\n\r\n")

def Listed (ext : List Byte) : Prop := ext ∈ contentTypes.map Prod.fst

instance (ext : List Byte) : Decidable (Listed ext) := inferInstanceAs (Decidable (_ ∈ _))

/-- The null pointers followed so far. -/
def Ctx.nullDerefs (c : Ctx) : Nat := c.log.countP (· = .nullDeref)

/-- **The headers of `c'` are right** for a URI as it stands in `c`. -/
structure HeadersRight (u : Uri) (c c' : Ctx) : Prop where
  nulls   : c'.nullDerefs = c.nullDerefs
  payload : c'.payload = c.payload
  server  : c'.hs.hdrs 1 = lit "Server: lwIP/1.3.0 (http://www.sics.se/~adam/lwip/)\r\n"
  none    : c'.hs.hdrIndex = numFileHdrStrings ↔ 46 ∉ uriFile (c.uriText u)
  three   : ∀ ext, lastExtension (uriFile (c.uriText u)) = some ext →
              c'.hs.hdrIndex = 0 ∧ c'.hs.hdrPos = 0 ∧
              c'.hs.hdrs 0 = (if lit "404" <:+: c.uriText u then lit "HTTP/1.0 404 File not found\r\n"
                              else lit "HTTP/1.0 200 OK\r\n") ∧
              c'.hs.hdrs 2 = contentTypeFor ext

/-! ## Reading a URI -/

/-- **`c'` comes from `c` by reading**, with `k` null pointers followed on the way. -/
structure Looks (k : Nat) (c c' : Ctx) : Prop where
  hs      : c'.hs = c.hs
  payload : c'.payload = c.payload
  nulls   : c'.nullDerefs = c.nullDerefs + k

section
variable {k k' : Nat} {c c₁ c₂ c₃ : Ctx} {u : Uri}

theorem Looks.refl (c : Ctx) : Looks 0 c c := ⟨rfl, rfl, rfl⟩

theorem Looks.trans (h : Looks k c₁ c₂) (h' : Looks k' c₂ c₃) : Looks (k + k') c₁ c₃ :=
  ⟨h'.hs.trans h.hs, h'.payload.trans h.payload, by rw [h'.nulls, h.nulls, Nat.add_assoc]⟩

theorem Looks.then (h : Looks 0 c₁ c₂) (h' : Looks k c₂ c₃) : Looks k c₁ c₃ := by
  have hboth := h.trans h'
  rwa [Nat.zero_add] at hboth

theorem Looks.uriText (h : Looks k c₁ c₂) (u : Uri) : c₂.uriText u = c₁.uriText u := by
  cases u with
  | payload off => exact congrArg (fun b => cstr (b.drop off)) h.payload
  | const s => rfl
  | null => rfl

theorem nullDerefs_emit (c : Ctx) (e : Ev) :
    (c.emit e).nullDerefs = c.nullDerefs + if e = .nullDeref then 1 else 0 := by
  unfold Ctx.nullDerefs
  rw [Ctx.emit_log, List.countP_append, List.countP_singleton]
  simp only [decide_eq_true_eq]

theorem readUri_looks (hu : u ≠ .null) (c : Ctx) (i n : Nat) : Looks 0 c (c.readUri u i n) := by
  cases u with
  | payload off => exact ⟨rfl, rfl, nullDerefs_emit c _⟩
  | const s => exact .refl c
  | null => exact absurd rfl hu

theorem writePayload_nulls (c : Ctx) (i : Nat) (b : Byte) : (c.writePayload i b).nullDerefs = c.nullDerefs :=
  nullDerefs_emit c (.payloadWrite i)

end

/-! ## The extension -/

/-- The search from the right ends at `x` at the latest. -/
theorem rtakeWhile_append_cons {α : Type*} (p : α → Bool) {x : α} (hx : p x = false) (l r : List α) :
    (l ++ x :: r).rtakeWhile p = r.rtakeWhile p := by
  induction r using List.reverseRecOn with
  | nil =>
      rw [List.rtakeWhile_nil]
      exact List.rtakeWhile_concat_neg p l x (by rw [hx]; exact Bool.false_ne_true)
  | append_singleton r y ih =>
      rw [← List.cons_append, ← List.append_assoc, List.rtakeWhile_concat, List.rtakeWhile_concat, ih]

/-- **The loop over the dots** stops at the last extension, or finds none and keeps what it had. -/
theorem findExtension_spec {u : Uri} (hu : u ≠ .null) {s : List Byte} :
    ∀ (fuel start : Nat) (ext : Option Nat) (c : Ctx),
    c.uriText u = s → s.length < start + fuel →
    Looks 0 c (findExtension u fuel start ext c).2 ∧
      (46 ∉ s.drop start → (findExtension u fuel start ext c).1 = ext) ∧
      (46 ∈ s.drop start → ∃ e, (findExtension u fuel start ext c).1 = some e ∧
        s.drop e = (s.drop start).rtakeWhile (· ≠ 46)) := by
  intro fuel
  induction fuel with
  | zero =>
      intro start ext c _ hfuel
      rw [List.drop_eq_nil_of_le (by omega : s.length ≤ start)]
      exact ⟨.refl c, fun _ => rfl, fun hmem => absurd hmem List.not_mem_nil⟩
  | succ fuel ih =>
      intro start ext c htext hfuel
      have hread : Looks 0 c (c.uriStrchr u start 46).2 := readUri_looks hu c _ _
      have hfound : (c.uriStrchr u start 46).1 = (strchr (s.drop start) 46).map (start + ·) := by
        rw [← htext]
        rfl
      unfold findExtension
      generalize c.uriStrchr u start 46 = r at hread hfound
      obtain ⟨found, c'⟩ := r
      simp only at hread hfound
      subst hfound
      cases hdot : strchr (s.drop start) 46 with
      | none =>
          exact ⟨hread, fun _ => rfl, fun hmem => absurd hmem (strchr_eq_none_iff.mp hdot)⟩
      | some i =>
          -- the search goes on after the dot, where the last extension is the same
          obtain ⟨-, hsplit⟩ := strchr_split hdot
          have hrest : (s.drop start).drop (i + 1) = s.drop (start + i + 1) := by
            rw [List.drop_drop, Nat.add_assoc]
          rw [hrest] at hsplit
          have hlast : (s.drop start).rtakeWhile (· ≠ 46) = (s.drop (start + i + 1)).rtakeWhile (· ≠ 46) := by
            conv => lhs; rw [hsplit]
            exact rtakeWhile_append_cons _ rfl _ _
          have hmem : 46 ∈ s.drop start := by
            rw [hsplit]
            exact List.mem_append_right _ List.mem_cons_self
          obtain ⟨hlooks, hnone, hsome⟩ := ih (start + i + 1) (some (start + i + 1)) c'
            ((hread.uriText u).trans htext) (by omega)
          refine ⟨hread.then hlooks, fun hnot => absurd hmem hnot, fun _ => ?_⟩
          rw [hlast]
          by_cases hagain : 46 ∈ s.drop (start + i + 1)
          · exact hsome hagain
          · refine ⟨start + i + 1, hnone hagain, (List.rtakeWhile_eq_self_iff.mpr fun b hb => ?_).symm⟩
            exact decide_eq_true fun hb46 => hagain (hb46 ▸ hb)

/-! ## The table -/

/-- The type that the table has for an extension. -/
def headerFor (l : List HttpHeader) (ext : List Byte) : Option HttpHeaderType :=
  (l.find? (·.extension = some ext)).map (·.headerIndex)

/-- How often the search for an extension meets `NULL`. -/
def nullEntries (l : List HttpHeader) (ext : List Byte) : Nat :=
  (l.takeWhile (·.extension ≠ some ext)).countP (·.extension = none)

/-- **The search in a table** ends at the first entry with the extension, and follows the null pointers before it. -/
theorem findHeader_spec {u : Uri} (hu : u ≠ .null) {s ext : List Byte} {e : Nat} (hext : s.drop e = ext) :
    ∀ (l : List HttpHeader) (c : Ctx), c.uriText u = s →
      (findHeader u e l c).1 = headerFor l ext ∧ Looks (nullEntries l ext) c (findHeader u e l c).2 := by
  intro l
  induction l with
  | nil => intro c _; exact ⟨rfl, .refl c⟩
  | cons h l ih =>
      intro c htext
      unfold findHeader headerFor nullEntries
      cases hname : h.extension with
      | none =>
          -- the entry is passed, with one null pointer followed
          have hnull : Looks 1 c (c.emit .nullDeref) := ⟨rfl, rfl, nullDerefs_emit c _⟩
          obtain ⟨htype, hlooks⟩ := ih (c.emit .nullDeref) ((hnull.uriText u).trans htext)
          have hall := hnull.trans hlooks
          rw [Nat.add_comm] at hall
          rw [List.find?_cons_of_neg (by simp [hname]), List.takeWhile_cons_of_pos (by simp [hname]),
            List.countP_cons_of_pos (by simp [hname])]
          exact ⟨htype, hall⟩
      | some name =>
          have hsame : (c.uriStrcmp u e name).1 = decide (ext = name) := by
            rw [← hext, ← htext]
            rfl
          have hread : Looks 0 c (c.uriStrcmp u e name).2 := readUri_looks hu c _ _
          simp only
          generalize c.uriStrcmp u e name = r at hsame hread
          obtain ⟨same, c'⟩ := r
          simp only at hsame hread
          subst hsame
          by_cases heq : ext = name
          · subst heq
            rw [if_pos (decide_eq_true rfl), List.find?_cons_of_pos (by simp [hname]),
              List.takeWhile_cons_of_neg (by simp [hname])]
            exact ⟨rfl, hread⟩
          · have hother : some name ≠ some ext := fun h => heq (Option.some.inj h).symm
            obtain ⟨htype, hlooks⟩ := ih c' ((hread.uriText u).trans htext)
            rw [if_neg (by simpa using heq), List.find?_cons_of_neg (by simpa [hname] using hother),
              List.takeWhile_cons_of_pos (by simpa [hname] using hother), List.countP_cons_of_neg (by simp [hname])]
            exact ⟨htype, hread.then hlooks⟩

/-- An extension that is not listed is compared with the entry that was never initialised. -/
theorem nullEntries_unlisted {ext : List Byte} (h : ¬Listed ext) : nullEntries httpHeaders ext = 1 := by
  have hne : ∀ k ∈ httpHeaders, k.extension ≠ some ext := by
    intro k hk heq
    have hall : ∀ k ∈ httpHeaders, k.extension = none ∨ ∃ x, k.extension = some x ∧ Listed x := by decide +kernel
    rcases hall k hk with hnone | ⟨x, hx, hlisted⟩
    · rw [hnone] at heq
      exact absurd heq (Option.some_ne_none ext).symm
    · rw [heq] at hx
      exact h (Option.some.inj hx ▸ hlisted)
  unfold nullEntries
  rw [List.takeWhile_eq_self_iff.mpr fun k hk => decide_eq_true (hne k hk)]
  decide +kernel

/-- A listed extension is found before that entry, but the types of PNG and JPEG files are exchanged. -/
theorem header_listed {ext : List Byte} (h : Listed ext) :
    nullEntries httpHeaders ext = 0 ∧
    (httpHeaderString ((headerFor httpHeaders ext).getD .defaultType) = contentTypeFor ext ↔
      ext ≠ lit "png" ∧ ext ≠ lit "jpg") := by
  have hall : ∀ x ∈ contentTypes.map Prod.fst, nullEntries httpHeaders x = 0 ∧
      (httpHeaderString ((headerFor httpHeaders x).getD .defaultType) = contentTypeFor x ↔
        x ≠ lit "png" ∧ x ≠ lit "jpg") := by decide +kernel
  exact hall ext h

/-! ## The selection -/

/-- **The content type** of a name without variables. -/
theorem contentType_spec {u : Uri} (hu : u ≠ .null) (c : Ctx) :
    (lastExtension (c.uriText u) = none → (contentType u c).1 = none ∧ Looks 0 c (contentType u c).2.2) ∧
    (∀ ext, lastExtension (c.uriText u) = some ext →
      ((contentType u c).1.isSome = true ∧ (contentType u c).2.1 = headerFor httpHeaders ext ∧
        Looks (nullEntries httpHeaders ext) c (contentType u c).2.2)) := by
  obtain ⟨hread, hnone, hsome⟩ := findExtension_spec hu ((c.uriText u).length + 1) 0 none c rfl (by omega)
  rw [List.drop_zero] at hnone hsome
  unfold contentType lastExtension
  generalize findExtension u ((c.uriText u).length + 1) 0 none c = r at hread hnone hsome
  obtain ⟨found, c'⟩ := r
  simp only at hread hnone hsome
  by_cases hdot : 46 ∈ c.uriText u
  · obtain ⟨e, rfl, hext⟩ := hsome hdot
    rw [if_pos hdot]
    refine ⟨fun h => absurd h (Option.some_ne_none _), fun ext heq => ?_⟩
    obtain rfl := Option.some.inj heq
    obtain ⟨htype, hlooks⟩ := findHeader_spec hu hext httpHeaders c' (hread.uriText u)
    exact ⟨rfl, htype, hread.then hlooks⟩
  · obtain rfl := hnone hdot
    rw [if_neg hdot]
    exact ⟨fun _ => ⟨rfl, hread⟩, fun ext heq => absurd heq.symm (Option.some_ne_none ext)⟩

/-- Cutting at the first `?` leaves the file name; putting the `?` back restores the payload. -/
theorem cutUri_spec {u : Uri} (hu : u ≠ .null) {c : Ctx} {i : Nat} (hi : strchr (c.uriText u) 63 = some i) :
    (c.cutUri u i).1 ≠ .null ∧ (c.cutUri u i).2.uriText (c.cutUri u i).1 = uriFile (c.uriText u) ∧
    (c.cutUri u i).2.nullDerefs = c.nullDerefs ∧
    ∀ c' : Ctx, c'.payload = (c.cutUri u i).2.payload →
      (c'.restoreUri u i 63).payload = c.payload ∧ (c'.restoreUri u i 63).nullDerefs = c'.nullDerefs := by
  cases u with
  | payload off =>
      have htext : strchr (textAt c.payload off) 63 = some i := hi
      have hcut : (c.cutUri (.payload off) i).2.payload = cutAt c.payload off 63 := (cutAt_found htext).symm
      refine ⟨hu, ?_, writePayload_nulls c _ _, fun c' hc' => ⟨?_, writePayload_nulls c' _ _⟩⟩
      · show textAt (c.cutUri (.payload off) i).2.payload off = uriFile (textAt c.payload off)
        rw [hcut]
        exact textAt_cutAt c.payload off 63
      · -- the byte that goes back is the one that was found
        have hbyte : c.payload[off + i]? = some 63 :=
          (getElem?_of_textAt (strchr_lt htext)).trans (strchr_some htext)
        obtain ⟨hplace, hvalue⟩ := List.getElem?_eq_some_iff.mp hbyte
        show c'.payload.set (off + i) 63 = c.payload
        rw [hc', hcut, cutAt_found htext, List.set_set, ← hvalue]
        exact List.set_getElem_self hplace
  | const s => exact ⟨by simp [Ctx.cutUri], (strchr_split hi).1, rfl, fun c' hc' => ⟨hc', rfl⟩⟩
  | null => exact absurd rfl hu

/-- **The content type for a URI** is that for its file name; the URI is as before. -/
theorem uriContentType_spec {u : Uri} (hu : u ≠ .null) (c : Ctx) :
    (lastExtension (uriFile (c.uriText u)) = none → (uriContentType u c).1 = none ∧
      Looks 0 c (uriContentType u c).2.2) ∧
    (∀ ext, lastExtension (uriFile (c.uriText u)) = some ext →
      ((uriContentType u c).1.isSome = true ∧ (uriContentType u c).2.1 = headerFor httpHeaders ext ∧
        Looks (nullEntries httpHeaders ext) c (uriContentType u c).2.2)) := by
  have hread : Looks 0 c (c.uriStrchr u 0 63).2 := readUri_looks hu c _ _
  have hvars : (c.uriStrchr u 0 63).1 = (strchr (c.uriText u) 63).map (0 + ·) := rfl
  have hhs := uriContentType_hs u c
  unfold uriContentType at hhs ⊢
  generalize c.uriStrchr u 0 63 = r at hread hvars hhs
  obtain ⟨vars, c₁⟩ := r
  simp only at hread hvars
  have htext := hread.uriText u
  subst hvars
  cases hfound : strchr (c.uriText u) 63 with
  | none =>
      have hall : uriFile (c.uriText u) = c.uriText u := takeWhile_of_strchr_none hfound
      obtain ⟨hnone, hsome⟩ := contentType_spec hu c₁
      rw [htext] at hnone hsome
      rw [hall]
      refine ⟨fun h => ?_, fun ext h => ?_⟩
      · exact ⟨(hnone h).1, hread.then (hnone h).2⟩
      · obtain ⟨hext, htype, hlooks⟩ := hsome ext h
        exact ⟨hext, htype, hread.then hlooks⟩
  | some i =>
      rw [hfound] at hhs
      simp only [Option.map_some, Nat.zero_add] at hhs ⊢
      obtain ⟨hcutnull, hcuttext, hcutnulls, hrestore⟩ :=
        cutUri_spec hu (htext ▸ hfound : strchr (c₁.uriText u) 63 = some i)
      generalize c₁.cutUri u i = r at hcutnull hcuttext hcutnulls hrestore hhs
      obtain ⟨cut, c₂⟩ := r
      simp only at hcutnull hcuttext hcutnulls hrestore hhs ⊢
      obtain ⟨hnone, hsome⟩ := contentType_spec hcutnull c₂
      rw [hcuttext, htext] at hnone hsome
      -- what the search in the cut URI has followed is what the whole has followed
      have hwhole : ∀ k, Looks k c₂ (contentType cut c₂).2.2 →
          Looks k c ((contentType cut c₂).2.2.restoreUri u i 63) := by
        intro k hk
        obtain ⟨hpay, hnulls⟩ := hrestore _ hk.payload
        exact ⟨hhs, hpay.trans hread.payload, by rw [hnulls, hk.nulls, hcutnulls, hread.nulls, Nat.add_zero]⟩
      refine ⟨fun h => ?_, fun ext h => ?_⟩
      · exact ⟨(hnone h).1, hwhole 0 (hnone h).2⟩
      · obtain ⟨hext, htype, hlooks⟩ := hsome ext h
        exact ⟨hext, htype, hwhole _ hlooks⟩

/-- **The status line** tells whether the URI has `404` in it. -/
theorem setStatusHeader_spec {u : Uri} (hu : u ≠ .null) (c : Ctx) :
    (setStatusHeader u c).hs =
      c.hs.setHdr 0 (if lit "404" <:+: c.uriText u then .notFound else .ok) ∧
    (setStatusHeader u c).payload = c.payload ∧ (setStatusHeader u c).nullDerefs = c.nullDerefs := by
  have hread : Looks 0 c (c.uriStrstr u (lit "404")).2 := by
    unfold Ctx.uriStrstr
    simp only
    split <;> exact readUri_looks hu c _ _
  have hfound : (c.uriStrstr u (lit "404")).1 = decide (lit "404" <:+: c.uriText u) := by
    rw [Bool.eq_iff_iff, decide_eq_true_eq, ← strstr_isSome_iff]
    unfold Ctx.uriStrstr
    simp only
    cases strstr (c.uriText u) (lit "404") <;> simp
  unfold setStatusHeader
  generalize c.uriStrstr u (lit "404") = r at hread hfound
  obtain ⟨is404, c'⟩ := r
  simp only at hread hfound
  subst hfound
  refine ⟨?_, hread.payload, hread.nulls⟩
  simp only [Ctx.setHs_hs, hread.hs, decide_eq_true_eq]

/-- **What `get_http_headers` selects** for a URI: nothing if the file name has no dot, or three headers, the third
    from the table. -/
theorem getHttpHeaders_selects {u : Uri} (hu : u ≠ .null) (c : Ctx) :
    (getHttpHeaders c u).payload = c.payload ∧ (getHttpHeaders c u).hs.hdrs 1 = httpHeaderString .server ∧
    (lastExtension (uriFile (c.uriText u)) = none →
      (getHttpHeaders c u).hs.hdrIndex = numFileHdrStrings ∧ (getHttpHeaders c u).nullDerefs = c.nullDerefs) ∧
    (∀ ext, lastExtension (uriFile (c.uriText u)) = some ext →
      (getHttpHeaders c u).hs.hdrIndex = 0 ∧ (getHttpHeaders c u).hs.hdrPos = 0 ∧
      (getHttpHeaders c u).hs.hdrs 0 = httpHeaderString (if lit "404" <:+: c.uriText u then .notFound else .ok) ∧
      (getHttpHeaders c u).hs.hdrs 2 = httpHeaderString ((headerFor httpHeaders ext).getD .defaultType) ∧
      (getHttpHeaders c u).nullDerefs = c.nullDerefs + nullEntries httpHeaders ext) := by
  unfold getHttpHeaders
  simp only
  rw [if_neg hu]
  have hstart : Looks 0 c c.useState := ⟨rfl, rfl, nullDerefs_emit c (.useState c.self)⟩
  obtain ⟨hstatus, hpay, hnulls⟩ := setStatusHeader_spec hu (c.useState.setHs (c.useState.hs.setHdr 1 .server))
  have htext : (setStatusHeader u (c.useState.setHs (c.useState.hs.setHdr 1 .server))).uriText u = c.uriText u := by
    cases u with
    | payload off => exact congrArg (fun b => cstr (b.drop off)) hpay
    | const s => rfl
    | null => exact absurd rfl hu
  -- the status line is chosen first, and leaves the URI alone
  have hbefore : (c.useState.setHs (c.useState.hs.setHdr 1 .server)).uriText u = c.uriText u := by cases u <;> rfl
  rw [hbefore] at hstatus
  have hcount : (setStatusHeader u (c.useState.setHs (c.useState.hs.setHdr 1 .server))).nullDerefs = c.nullDerefs :=
    hnulls.trans hstart.nulls
  generalize setStatusHeader u (c.useState.setHs (c.useState.hs.setHdr 1 .server)) = c₁ at hstatus hpay htext hcount
  -- then the type, from the last extension
  obtain ⟨hnone, hsome⟩ := uriContentType_spec hu c₁
  rw [htext] at hnone hsome
  generalize uriContentType u c₁ = r at hnone hsome
  obtain ⟨found, hdr, c₂⟩ := r
  simp only at hnone hsome
  cases hext : lastExtension (uriFile (c.uriText u)) with
  | none =>
      obtain ⟨rfl, hlooks⟩ := hnone hext
      refine ⟨hlooks.payload.trans hpay, ?_, fun _ => ⟨rfl, hlooks.nulls.trans hcount⟩,
        fun ext h => absurd h.symm (Option.some_ne_none ext)⟩
      simp only [Ctx.setHs_hs, hlooks.hs, hstatus]
      simp [HttpState.setHdr]
  | some x =>
      obtain ⟨hfound, rfl, hlooks⟩ := hsome x hext
      obtain ⟨e, rfl⟩ := Option.isSome_iff_exists.mp hfound
      refine ⟨hlooks.payload.trans hpay, ?_, fun h => absurd h (Option.some_ne_none x), fun ext h => ?_⟩
      · simp only [Ctx.setHs_hs, hlooks.hs, hstatus]
        simp [HttpState.setHdr, HttpState.startHdrs]
      · obtain rfl := Option.some.inj h
        refine ⟨rfl, rfl, ?_, ?_, ?_⟩
        · simp only [Ctx.setHs_hs, hlooks.hs, hstatus]
          simp [HttpState.setHdr, HttpState.startHdrs]
        · simp [HttpState.setHdr, HttpState.startHdrs]
        · exact hlooks.nulls.trans (by rw [hcount])

theorem lastExtension_eq_none_iff {s : List Byte} : lastExtension s = none ↔ 46 ∉ s := by
  unfold lastExtension
  split
  · next hdot => exact iff_of_false (Option.some_ne_none _) (not_not.mpr hdot)
  · next hdot => exact iff_of_true rfl hdot

/-- **When the selected headers are right**: the file name has no dot, or what follows its last dot is listed in the
    table and is neither `png` nor `jpg`. -/
theorem headers_right_iff {u : Uri} (hu : u ≠ .null) (c : Ctx) :
    HeadersRight u c (getHttpHeaders c u) ↔
      ∀ ext, lastExtension (uriFile (c.uriText u)) = some ext → Listed ext ∧ ext ≠ lit "png" ∧ ext ≠ lit "jpg" := by
  obtain ⟨hpayload, hserver, hnone, hsome⟩ := getHttpHeaders_selects hu c
  constructor
  · intro hright ext hext
    obtain ⟨-, -, -, htype, hnulls⟩ := hsome ext hext
    have hlisted : Listed ext := by
      -- an extension that is not listed runs into the null entry
      by_contra hunlisted
      rw [nullEntries_unlisted hunlisted, hright.nulls] at hnulls
      omega
    refine ⟨hlisted, (header_listed hlisted).2.mp ?_⟩
    rw [← htype]
    exact (hright.three ext hext).2.2.2
  · intro hcond
    cases hlast : lastExtension (uriFile (c.uriText u)) with
    | none =>
        obtain ⟨hindex, hnulls⟩ := hnone hlast
        refine ⟨hnulls, hpayload, hserver, iff_of_true hindex (lastExtension_eq_none_iff.mp hlast), fun ext hext => ?_⟩
        exact absurd (hlast.symm.trans hext).symm (Option.some_ne_none ext)
    | some ext =>
        obtain ⟨hlisted, hother⟩ := hcond ext hlast
        obtain ⟨hbefore, htypes⟩ := header_listed hlisted
        obtain ⟨hindex, hpos, hstatus, htype, hnulls⟩ := hsome ext hlast
        -- three headers, so there is a dot
        have hdot : ¬46 ∉ uriFile (c.uriText u) := by
          rw [← lastExtension_eq_none_iff, hlast]
          exact Option.some_ne_none ext
        refine ⟨?_, hpayload, hserver, iff_of_false ?_ hdot, fun x hx => ?_⟩
        · rw [hnulls, hbefore, Nat.add_zero]
        · rw [hindex]
          decide
        · obtain rfl := Option.some.inj (hlast.symm.trans hx)
          refine ⟨hindex, hpos, ?_, ?_⟩
          · rw [hstatus]
            split <;> rfl
          · rw [htype]
            exact htypes.mpr hother

/-! A request for a page, for a picture and for an archive: the first gets its headers, the second the type of
another kind of picture, and the third reads through the null pointer at the end of the table. -/

def uriStart (uri : String) : Ctx := { plainStart with payload := lit uri ++ [0] }

theorem headers_right_page :
    Uri.payload 0 ≠ .null ∧
    HeadersRight (.payload 0) (uriStart "/a.b/c.html?x=1.z")
        (getHttpHeaders (uriStart "/a.b/c.html?x=1.z") (.payload 0)) := by
  have hu : Uri.payload 0 ≠ .null := by simp
  refine ⟨hu, (headers_right_iff hu _).mpr fun ext hext => ?_⟩
  have hlast : lastExtension (uriFile ((uriStart "/a.b/c.html?x=1.z").uriText (.payload 0))) = some (lit "html") := by
    decide +kernel
  obtain rfl := Option.some.inj (hlast.symm.trans hext)
  decide +kernel

theorem headers_wrong :
    ¬HeadersRight (.payload 0) (uriStart "/a.png") (getHttpHeaders (uriStart "/a.png") (.payload 0)) ∧
    ¬HeadersRight (.payload 0) (uriStart "/a.zip") (getHttpHeaders (uriStart "/a.zip") (.payload 0)) := by
  constructor
  · intro hright
    have htype := (hright.three (lit "png") (by decide +kernel)).2.2.2
    exact absurd htype (by decide +kernel)
  · intro hright
    exact absurd hright.nulls (by decide +kernel)

end ThirdParty.Httpd
