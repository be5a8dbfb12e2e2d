import ThirdParty.Lib.Scan
import ThirdParty.Httpd.Tags

/-!
# `Httpd.Markers` — the documented notation for SSI tags

A marker is `<!--#`, white space, a name, white space, `-->`. No two markers overlap (`isMarker_marking`), so a text has
one sequence of leftmost markers. The second half of the file says which texts are starts of markers, and which letters
break a start off.
-/

namespace ThirdParty.Httpd

open Lib Lwip

/-! ## Markers -/

/-- A character of a tag name: neither `-` nor white space. -/
def isNameChar (ch : Byte) : Bool := ch ≠ 45 && !isTagSpace ch

/-- `<!--#` *white space* `name` *white space* `-->`, with at most `MAX_TAG_NAME_LEN` characters in the name. -/
def IsMarker (cfg : Config) (w name : List Byte) : Prop :=
  ∃ ws ws', w = tagLeadIn ++ (ws ++ (name ++ (ws' ++ tagLeadOut))) ∧ (∀ ch ∈ ws, isTagSpace ch = true) ∧
    (∀ ch ∈ ws', isTagSpace ch = true) ∧ (∀ ch ∈ name, isNameChar ch = true) ∧ name ≠ [] ∧
    name.length ≤ cfg.maxTagNameLen

/-- The name that a text starts with, after white space. -/
def nameOf (l : List Byte) : List Byte := (l.dropWhile isTagSpace).takeWhile isNameChar

/-- What follows the name and the white space after it. -/
def afterName (l : List Byte) : List Byte := ((l.dropWhile isTagSpace).dropWhile isNameChar).dropWhile isTagSpace

section
variable {cfg : Config} {w u ws ws' name name' rest : List Byte} {ch : Byte}

theorem isNameChar_of_space (h : isTagSpace ch = true) : isNameChar ch = false := by simp [isNameChar, h]

theorem not_space_of_isNameChar (h : isNameChar ch = true) : isTagSpace ch = false := by
  cases hsp : isTagSpace ch with
  | false => rfl
  | true => rw [isNameChar_of_space hsp] at h; cases h

theorem all_snoc {p : Byte → Bool} {l : List Byte} (h : ∀ a ∈ l, p a = true) (hch : p ch = true) :
    ∀ a ∈ l ++ [ch], p a = true := by
  intro a ha
  rcases List.mem_append.mp ha with ha | ha
  · exact h a ha
  · rw [List.mem_singleton.mp ha]
    exact hch

/-- White space is skipped up to the name. -/
theorem dropWhile_space (hws : ∀ ch ∈ ws, isTagSpace ch = true) (hname : ∀ ch ∈ name, isNameChar ch = true)
    (hne : name ≠ []) (rest : List Byte) : (ws ++ (name ++ rest)).dropWhile isTagSpace = name ++ rest := by
  rw [List.dropWhile_append_of_pos hws]
  cases name with
  | nil => exact absurd rfl hne
  | cons ch name =>
      have hch := not_space_of_isNameChar (hname ch List.mem_cons_self)
      rw [List.cons_append, List.dropWhile_cons_of_neg (by rw [hch]; exact Bool.false_ne_true)]

theorem nameOf_append (hws : ∀ ch ∈ ws, isTagSpace ch = true) (hname : ∀ ch ∈ name, isNameChar ch = true)
    (hne : name ≠ []) (rest : List Byte) : nameOf (ws ++ (name ++ rest)) = name ++ rest.takeWhile isNameChar := by
  unfold nameOf
  rw [dropWhile_space hws hname hne, List.takeWhile_append_of_pos hname]

theorem afterName_append (hws : ∀ ch ∈ ws, isTagSpace ch = true) (hname : ∀ ch ∈ name, isNameChar ch = true)
    (hne : name ≠ []) (rest : List Byte) :
    afterName (ws ++ (name ++ rest)) = (rest.dropWhile isNameChar).dropWhile isTagSpace := by
  unfold afterName
  rw [dropWhile_space hws hname hne, List.dropWhile_append_of_pos hname]

/-- White space and a `-` end a name. -/
def EndsName (l : List Byte) : Prop := ∃ ch l', l = ch :: l' ∧ isNameChar ch = false

theorem EndsName.takeWhile (h : EndsName rest) : rest.takeWhile isNameChar = [] := by
  obtain ⟨ch, l, rfl, hch⟩ := h
  exact List.takeWhile_cons_of_neg (by rw [hch]; exact Bool.false_ne_true)

theorem EndsName.dropWhile (h : EndsName rest) : rest.dropWhile isNameChar = rest := by
  obtain ⟨ch, l, rfl, hch⟩ := h
  exact List.dropWhile_cons_of_neg (by rw [hch]; exact Bool.false_ne_true)

theorem endsName_dash (l : List Byte) : EndsName (45 :: l) := ⟨45, l, rfl, rfl⟩

/-- White space in front changes nothing. -/
theorem EndsName.space (hws : ∀ ch ∈ ws, isTagSpace ch = true) (h : ws = [] → EndsName rest) :
    EndsName (ws ++ rest) := by
  cases ws with
  | nil => exact h rfl
  | cons ch ws => exact ⟨ch, ws ++ rest, rfl, isNameChar_of_space (hws ch List.mem_cons_self)⟩

/-- A text of which nothing is skipped. -/
theorem dropWhile_leadOut (l : List Byte) : (tagLeadOut ++ l).dropWhile isTagSpace = tagLeadOut ++ l := rfl

/-- **A marker is read back**: from what follows its lead-in, whatever follows the marker. -/
theorem IsMarker.read (h : IsMarker cfg w name) : ∃ body, w = tagLeadIn ++ body ∧ name ≠ [] ∧
    name.length ≤ cfg.maxTagNameLen ∧
    ∀ z, nameOf (body ++ z) = name ∧ afterName (body ++ z) = tagLeadOut ++ z := by
  obtain ⟨ws, ws', rfl, hws, hws', hname, hne, hlen⟩ := h
  refine ⟨_, rfl, hne, hlen, fun z => ?_⟩
  have hends : EndsName (ws' ++ (tagLeadOut ++ z)) := .space hws' fun _ => endsName_dash _
  simp only [List.append_assoc]
  rw [nameOf_append hws hname hne, hends.takeWhile, afterName_append hws hname hne, hends.dropWhile,
    List.dropWhile_append_of_pos hws', dropWhile_leadOut, List.append_nil]
  exact ⟨rfl, rfl⟩

/-- A marker begins with `<`. -/
theorem IsMarker.head (h : IsMarker cfg w name) : ∃ w', w = 60 :: 33 :: 45 :: 45 :: 35 :: w' := by
  obtain ⟨body, rfl, -⟩ := h.read
  exact ⟨body, rfl⟩

/-! ## Markers do not overlap -/

/-- Where a marker begins, nothing else than `<!--#` stands. -/
theorem leadIn_of_begins {l : List Byte} (h : Begins (IsMarker cfg) l) :
    ∃ l', l = 60 :: 33 :: 45 :: 45 :: 35 :: l' := by
  obtain ⟨w, b, hw, z, rfl⟩ := h
  obtain ⟨w', rfl⟩ := hw.head
  exact ⟨w' ++ z, rfl⟩

theorem take_of_begins {l : List Byte} (h : Begins (IsMarker cfg) l) : l.take 5 = tagLeadIn := by
  obtain ⟨l', rfl⟩ := leadIn_of_begins h
  rfl

/-- No marker begins in a stretch without a `<`. -/
theorem quiet_of_ne (h : ∀ ch ∈ u, ch ≠ 60) (l : List Byte) : Quiet (IsMarker cfg) u l := by
  rintro x y rfl hy hbegins
  obtain ⟨l', hl'⟩ := leadIn_of_begins hbegins
  cases y with
  | nil => exact hy rfl
  | cons ch y => exact h ch (by simp) (List.cons.inj hl').1

theorem quiet_space (hws : ∀ ch ∈ ws, isTagSpace ch = true) (l : List Byte) : Quiet (IsMarker cfg) ws l := by
  refine quiet_of_ne ?_ l
  rintro ch hch rfl
  exact absurd (hws _ hch) (by decide)

/-- No marker begins in a name: what follows its `<!` is white space, or the lead-out. -/
theorem quiet_name (hname : ∀ ch ∈ name, isNameChar ch = true) (hws' : ∀ ch ∈ ws', isTagSpace ch = true)
    (z : List Byte) : Quiet (IsMarker cfg) name (ws' ++ (tagLeadOut ++ z)) := by
  rintro x y rfl - hbegins
  obtain ⟨l', hl'⟩ := leadIn_of_begins hbegins
  have hy : ∀ ch ∈ y, isNameChar ch = true := fun ch hch => hname ch (List.mem_append_right x hch)
  have hends : EndsName (ws' ++ (tagLeadOut ++ z)) := .space hws' fun _ => endsName_dash _
  have hrest : ws' ++ (tagLeadOut ++ z) = 45 :: 45 :: 35 :: l' := by
    calc ws' ++ (tagLeadOut ++ z) = (y ++ (ws' ++ (tagLeadOut ++ z))).dropWhile isNameChar := by
          rw [List.dropWhile_append_of_pos hy, hends.dropWhile]
      _ = (60 :: 33 :: 45 :: 45 :: 35 :: l').dropWhile isNameChar := by rw [hl']
      _ = 45 :: 45 :: 35 :: l' := rfl
  cases ws' with
  | nil =>
      have hthird := congrArg (fun l => l[2]?) hrest
      exact absurd hthird (by simp [tagLeadOut, lit])
  | cons ch ws' =>
      have hch := hws' ch List.mem_cons_self
      rw [(List.cons.inj hrest).1] at hch
      exact absurd hch (by decide)

/-- **No two markers overlap.** -/
theorem isMarker_marking (cfg : Config) : Marking (IsMarker cfg) where
  nonempty h := by
    obtain ⟨w', rfl⟩ := h.head
    exact List.cons_ne_nil _ _
  alone := by
    intro w w' z z' b b' h h' heq
    obtain ⟨body, rfl, -, -, hread⟩ := h.read
    obtain ⟨body', rfl, -, -, hread'⟩ := h'.read
    rw [List.append_assoc, List.append_assoc] at heq
    have hbody := List.append_cancel_left heq
    have hrest : tagLeadOut ++ z = tagLeadOut ++ z' := by rw [← (hread z).2, ← (hread' z').2, hbody]
    have hz := List.append_cancel_left hrest
    rw [← hz] at hbody
    exact ⟨by rw [List.append_cancel_right hbody], by rw [← (hread z).1, ← (hread' z').1, ← hz, hbody]⟩
  apart := by
    intro a w b h z
    obtain ⟨ws, ws', hcut, hws, hws', hname, -, -⟩ := h
    obtain ⟨-, rfl⟩ := List.cons.inj hcut
    -- piece by piece: only a name can have a `<`
    refine quiet_append.mpr ⟨quiet_of_ne (u := [33, 45, 45, 35]) (by decide +kernel) _, ?_⟩
    refine quiet_append.mpr ⟨quiet_space hws _, quiet_append.mpr ⟨?_, ?_⟩⟩
    · rw [List.append_assoc]
      exact quiet_name hname hws' z
    · exact quiet_append.mpr ⟨quiet_space hws' _, quiet_of_ne (by decide +kernel) _⟩

/-! ## Starts of markers, and what breaks them off -/

theorem start_of_append {v : List Byte} (h : Start (IsMarker cfg) (u ++ v)) : Start (IsMarker cfg) u := by
  obtain ⟨z, b, hz, hw⟩ := h
  exact ⟨v ++ z, b, fun hc => hz (List.append_eq_nil_iff.mp hc).2, by rwa [← List.append_assoc]⟩

theorem start_leadOut (hws : ∀ ch ∈ ws, isTagSpace ch = true) (hname : ∀ ch ∈ name, isNameChar ch = true)
    (hne : name ≠ []) (hle : name.length ≤ cfg.maxTagNameLen) (hws' : ∀ ch ∈ ws', isTagSpace ch = true) {k : Nat}
    (hk : k < lenTagLeadOut) :
    Start (IsMarker cfg) (tagLeadIn ++ (ws ++ (name ++ (ws' ++ tagLeadOut.take k)))) := by
  refine ⟨tagLeadOut.drop k, name, fun hc => ?_, ws, ws', ?_, hws, hws', hname, hne, hle⟩
  · have hlen := List.drop_eq_nil_iff.mp hc
    exact absurd (Nat.lt_of_lt_of_le hk hlen) (Nat.lt_irrefl _)
  · simp only [List.append_assoc, List.take_append_drop]

theorem start_found (hpos : 0 < cfg.maxTagNameLen) (hws : ∀ ch ∈ ws, isTagSpace ch = true)
    (hname : ∀ ch ∈ name, isNameChar ch = true) (hle : name.length ≤ cfg.maxTagNameLen) :
    Start (IsMarker cfg) (tagLeadIn ++ (ws ++ name)) := by
  by_cases hne : name = []
  · -- a name of one letter completes it
    subst hne
    have hstart := @start_leadOut cfg ws [] [97] hws (by decide +kernel) (by decide) hpos (by simp) 0 (by decide)
    refine start_of_append (v := [97]) ?_
    simpa using hstart
  · have hstart := @start_leadOut cfg ws [] name hws hname hne hle (by simp) 0 (by decide)
    simpa using hstart

theorem start_leadIn (hpos : 0 < cfg.maxTagNameLen) (k : Nat) : Start (IsMarker cfg) (tagLeadIn.take k) := by
  have hstart := @start_found cfg [] [] hpos (by simp) (by simp) (Nat.zero_le _)
  refine start_of_append (v := tagLeadIn.drop k) ?_
  simpa [List.take_append_drop] using hstart

theorem no_leadIn {k : Nat} (hk : k < lenTagLeadIn) (hch : ch ≠ tagLeadIn.getD k 0) (v b : List Byte) :
    ¬IsMarker cfg (tagLeadIn.take k ++ ch :: v) b := by
  intro h
  obtain ⟨body, hbody, -⟩ := h.read
  have hlen : (tagLeadIn.take k).length = k := by
    rw [List.length_take]
    exact Nat.min_eq_left (Nat.le_of_lt hk)
  have hat := congrArg (fun l => l[k]?) hbody
  simp only [List.getElem?_append_right (Nat.le_of_eq hlen), hlen, Nat.sub_self, List.getElem?_cons_zero,
    List.getElem?_append_left (show k < tagLeadIn.length from hk)] at hat
  exact hch (by rw [List.getD_eq_getElem?_getD, ← hat, Option.getD_some])

theorem no_empty_name (hws : ∀ ch ∈ ws, isTagSpace ch = true) (v b : List Byte) :
    ¬IsMarker cfg (tagLeadIn ++ (ws ++ []) ++ 45 :: v) b := by
  intro h
  obtain ⟨body, hbody, hne, -, hread⟩ := h.read
  rw [List.append_nil, List.append_assoc] at hbody
  obtain ⟨hname, -⟩ := hread []
  rw [List.append_nil, ← List.append_cancel_left hbody] at hname
  refine hne (hname.symm.trans ?_)
  unfold nameOf
  rw [List.dropWhile_append_of_pos hws]
  rfl

theorem no_long_name (hws : ∀ ch ∈ ws, isTagSpace ch = true) (hname : ∀ ch ∈ name, isNameChar ch = true)
    (hlen : cfg.maxTagNameLen ≤ name.length) (hch : isNameChar ch = true) (v b : List Byte) :
    ¬IsMarker cfg (tagLeadIn ++ (ws ++ name) ++ ch :: v) b := by
  intro h
  obtain ⟨body, hbody, -, hle, hread⟩ := h.read
  have hall := all_snoc hname hch
  have hbody' : body = ws ++ (name ++ [ch] ++ v) := by
    refine (List.append_cancel_left (hbody.symm.trans ?_))
    simp only [List.append_assoc, List.cons_append, List.nil_append]
  obtain ⟨hread, -⟩ := hread []
  rw [List.append_nil, hbody', nameOf_append hws hall (by simp)] at hread
  rw [← hread] at hle
  simp only [List.length_append, List.length_singleton] at hle
  omega

theorem no_leadOut (hws : ∀ ch ∈ ws, isTagSpace ch = true) (hname : ∀ ch ∈ name, isNameChar ch = true)
    (hne : name ≠ []) (hws' : ∀ ch ∈ ws', isTagSpace ch = true) {k : Nat} (hk : k < lenTagLeadOut)
    (hend : ws' = [] → 1 ≤ k) (hsp : k = 0 → isTagSpace ch = false) (hch : ch ≠ tagLeadOut.getD k 0)
    (v b : List Byte) :
    ¬IsMarker cfg (tagLeadIn ++ (ws ++ (name ++ (ws' ++ tagLeadOut.take k))) ++ ch :: v) b := by
  intro h
  obtain ⟨body, hbody, -, -, hread⟩ := h.read
  have hbody' : body = ws ++ (name ++ (ws' ++ (tagLeadOut.take k ++ ch :: v))) := by
    refine (List.append_cancel_left (hbody.symm.trans ?_))
    simp only [List.append_assoc]
  have hlen : (tagLeadOut.take k).length = k := by
    rw [List.length_take]
    exact Nat.min_eq_left (Nat.le_of_lt hk)
  have hends : EndsName (ws' ++ (tagLeadOut.take k ++ ch :: v)) := by
    refine .space hws' fun hnil => ?_
    obtain ⟨j, rfl⟩ := Nat.exists_eq_succ_of_ne_zero (Nat.one_le_iff_ne_zero.mp (hend hnil))
    exact endsName_dash _
  have hskip : (tagLeadOut.take k ++ ch :: v).dropWhile isTagSpace = tagLeadOut.take k ++ ch :: v := by
    cases k with
    | zero => exact List.dropWhile_cons_of_neg (by rw [hsp rfl]; exact Bool.false_ne_true)
    | succ k => rfl
  obtain ⟨-, hafter⟩ := hread []
  rw [List.append_nil, hbody', afterName_append hws hname hne, hends.dropWhile, List.dropWhile_append_of_pos hws',
    hskip] at hafter
  -- so the letter would be the next one of the lead-out
  have hat := congrArg (fun l => l[k]?) hafter
  simp only [List.getElem?_append_right (Nat.le_of_eq hlen), hlen, Nat.sub_self, List.getElem?_cons_zero,
    List.getElem?_append_left (show k < tagLeadOut.length from hk)] at hat
  exact hch (by rw [List.getD_eq_getElem?_getD, ← hat, Option.getD_some])

end

end ThirdParty.Httpd
