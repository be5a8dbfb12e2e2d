import ThirdParty.Lib.Bytes

/-!
# `Lib.CString` — C strings inside a buffer, and cutting them in place

`textAt b off` is the C string at an offset of a buffer. A parser that works in place writes terminators into such
strings: `cutAt` ends a string at its first occurrence of a character. The text before the cut and the text after it
are then two strings (`textAt_cutAt`, `textAt_after_cut`), and a string whose terminator has been written stays as it
is while the buffer is changed elsewhere (`textAt_congr`).
-/

namespace ThirdParty.Lib

/-- The C string at offset `off` of the buffer `b`. -/
def textAt (b : List Byte) (off : Nat) : List Byte := cstr (b.drop off)

/-! ## Reading -/

/-- The text is not cut where `ch` does not occur. -/
theorem takeWhile_of_strchr_none {s : List Byte} {ch : Byte} (h : strchr s ch = none) : s.takeWhile (· ≠ ch) = s := by
  have habsent := strchr_eq_none_iff.mp h
  rw [List.takeWhile_eq_self_iff]
  intro x hx
  have hne : x ≠ ch := fun hxch => habsent (hxch ▸ hx)
  simpa using hne

theorem textAt_length_le (b : List Byte) (off : Nat) : (textAt b off).length ≤ b.length - off := by
  rw [← List.length_drop]
  exact (cstr_isPrefix _).length_le

/-- A string is empty if it starts with its terminator, or lies behind the buffer. -/
theorem textAt_eq_nil_iff {b : List Byte} {off : Nat} : textAt b off = [] ↔ b.getD off 0 = 0 := by
  rw [List.getD_eq_getElem?_getD]
  unfold textAt cstr
  cases hget : b[off]? with
  | none =>
      rw [List.drop_eq_nil_of_le (List.getElem?_eq_none_iff.mp hget)]
      exact iff_of_true rfl rfl
  | some x =>
      obtain ⟨hlt, rfl⟩ := List.getElem?_eq_some_iff.mp hget
      rw [List.drop_eq_getElem_cons hlt, Option.getD_some, List.takeWhile_cons]
      by_cases hx : b[off] = 0 <;> simp [hx]

theorem getElem?_of_textAt {b : List Byte} {off i : Nat} (h : i < (textAt b off).length) :
    b[off + i]? = (textAt b off)[i]? := by
  obtain ⟨t, ht⟩ := cstr_isPrefix (b.drop off)
  rw [← List.getElem?_drop, ← ht]
  exact List.getElem?_append_left h

/-- The rest of a C string is a C string. -/
theorem cstr_drop : ∀ {b : List Byte} {i : Nat}, i ≤ (cstr b).length → cstr (b.drop i) = (cstr b).drop i
  | _,      0,     _ => rfl
  | [],     i + 1, h => absurd h (Nat.not_succ_le_zero i)
  | a :: b, i + 1, h => by
      by_cases ha : a = 0
      · simp [cstr, ha] at h
      · have hcons : cstr (a :: b) = a :: cstr b := by simp [cstr, ha]
        rw [hcons, List.length_cons] at h
        rw [hcons, List.drop_succ_cons, List.drop_succ_cons]
        exact cstr_drop (Nat.le_of_succ_le_succ h)

theorem textAt_add {b : List Byte} {off i : Nat} (h : i ≤ (textAt b off).length) :
    textAt b (off + i) = (textAt b off).drop i := by
  unfold textAt
  rw [← List.drop_drop]
  exact cstr_drop h

/-- A C string is told by the bytes up to a terminator. -/
theorem cstr_take : ∀ {b : List Byte} {n : Nat}, b[n]? = some 0 → cstr (b.take (n + 1)) = cstr b
  | [],     _,     h => by simp at h
  | a :: b, 0,     h => by
      obtain rfl : a = 0 := by simpa using h
      simp [cstr]
  | a :: b, n + 1, h => by
      have ih := cstr_take (b := b) (n := n) (by simpa using h)
      by_cases ha : a = 0
      · simp [cstr, ha]
      · have hcons : ∀ l, cstr (a :: l) = a :: cstr l := fun l => by simp [cstr, ha]
        rw [List.take_succ_cons, hcons, hcons, ih]

/-- **A string whose terminator is in place** is the same in every buffer with the same bytes up to there. -/
theorem textAt_congr {b b' : List Byte} {off n : Nat} (hend : b[off + n]? = some 0)
    (hsame : ∀ i, off ≤ i → i ≤ off + n → b'[i]? = b[i]?) : textAt b' off = textAt b off := by
  have hend' : b'[off + n]? = some 0 := (hsame (off + n) (by omega) le_rfl).trans hend
  rw [← List.getElem?_drop] at hend hend'
  unfold textAt
  rw [← cstr_take hend, ← cstr_take hend']
  congr 1
  apply List.ext_getElem?
  intro i
  rw [List.getElem?_take, List.getElem?_take]
  split
  · rw [List.getElem?_drop, List.getElem?_drop]
    exact hsame (off + i) (by omega) (by omega)
  · rfl

/-! ## Where a buffer was changed -/

/-- The buffer `b'` differs from `b` at most from `start` up to before `stop`. -/
structure SameOutside (start stop : Nat) (b b' : List Byte) : Prop where
  length : b'.length = b.length
  same   : ∀ i, i < start ∨ stop ≤ i → b'[i]? = b[i]?

namespace SameOutside
variable {start stop start' stop' : Nat} {b b' b₁ b₂ b₃ : List Byte}

theorem refl (b : List Byte) : SameOutside start stop b b := ⟨rfl, fun _ _ => rfl⟩

theorem trans (h : SameOutside start stop b₁ b₂) (h' : SameOutside start stop b₂ b₃) : SameOutside start stop b₁ b₃ :=
  ⟨h'.length.trans h.length, fun i hi => (h'.same i hi).trans (h.same i hi)⟩

theorem mono (h : SameOutside start stop b₁ b₂) (hstart : start' ≤ start) (hstop : stop ≤ stop') :
    SameOutside start' stop' b₁ b₂ :=
  ⟨h.length, fun i hi => h.same i (by omega)⟩

theorem set {i : Nat} (x : Byte) (hstart : start ≤ i) (hstop : i < stop) : SameOutside start stop b (b.set i x) :=
  ⟨List.length_set, fun j hj => List.getElem?_set_ne (by omega)⟩

/-- A string behind the change is as before. -/
theorem textAt_after (h : SameOutside start stop b b') {off : Nat} (hoff : stop ≤ off) :
    textAt b' off = textAt b off := by
  have hdrop : b'.drop off = b.drop off := by
    apply List.ext_getElem?
    intro i
    rw [List.getElem?_drop, List.getElem?_drop]
    exact h.same (off + i) (.inr (by omega))
  unfold textAt
  rw [hdrop]

/-- A string that ends before the change is as before. -/
theorem textAt_before (h : SameOutside start stop b b') {off z : Nat} (hend : b[z]? = some 0) (hoff : off ≤ z)
    (hz : z < start) : textAt b' off = textAt b off := by
  obtain ⟨n, rfl⟩ := Nat.exists_eq_add_of_le hoff
  exact textAt_congr hend fun i _ hi => h.same i (.inl (by omega))

end SameOutside

/-! ## Cutting -/

/-- The string at `off` is ended at its first `ch`, if there is one. -/
def cutAt (b : List Byte) (off : Nat) (ch : Byte) : List Byte :=
  match strchr (textAt b off) ch with
  | some i => b.set (off + i) 0
  | none   => b

section
variable {b : List Byte} {off i : Nat} {ch : Byte}

theorem cutAt_found (h : strchr (textAt b off) ch = some i) : cutAt b off ch = b.set (off + i) 0 := by
  unfold cutAt
  rw [h]

theorem cutAt_none (h : strchr (textAt b off) ch = none) : cutAt b off ch = b := by
  unfold cutAt
  rw [h]

theorem cutAt_same (b : List Byte) (off : Nat) (ch : Byte) :
    SameOutside off (off + (textAt b off).length) b (cutAt b off ch) := by
  cases h : strchr (textAt b off) ch with
  | none =>
      rw [cutAt_none h]
      exact .refl b
  | some i =>
      rw [cutAt_found h]
      have hlt := strchr_lt h
      exact .set 0 (by omega) (by omega)

/-- The terminator is where `ch` was. -/
theorem getElem?_cutAt (h : strchr (textAt b off) ch = some i) : (cutAt b off ch)[off + i]? = some 0 := by
  have hlt := strchr_lt h
  have hle := textAt_length_le b off
  rw [cutAt_found h, List.getElem?_set_self (by omega)]

/-- **The string itself** is left with the text before its first `ch`. -/
theorem textAt_cutAt (b : List Byte) (off : Nat) (ch : Byte) :
    textAt (cutAt b off ch) off = (textAt b off).takeWhile (· ≠ ch) := by
  cases h : strchr (textAt b off) ch with
  | none =>
      rw [cutAt_none h]
      exact (takeWhile_of_strchr_none h).symm
  | some i =>
      have hlt := strchr_lt h
      have hle := textAt_length_le b off
      rw [cutAt_found h, ← (strchr_split h).1]
      unfold textAt
      rw [List.drop_set, if_neg (by omega), Nat.add_sub_cancel_left]
      exact cstr_set_zero hlt.le (by rw [List.length_drop]; omega)

/-- **The text after it** is a string of its own. -/
theorem textAt_after_cut (h : strchr (textAt b off) ch = some i) :
    textAt (cutAt b off ch) (off + i + 1) = (textAt b off).drop (i + 1) := by
  have hlt := strchr_lt h
  have hbefore : textAt (b.set (off + i) 0) (off + i + 1) = textAt b (off + i + 1) := by
    unfold textAt
    rw [List.drop_set_of_lt (by omega)]
  rw [cutAt_found h, hbefore, Nat.add_assoc]
  exact textAt_add hlt

end

end ThirdParty.Lib
