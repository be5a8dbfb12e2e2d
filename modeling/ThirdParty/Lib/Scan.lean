import ThirdParty.Lib.Transducer

/-!
# `Lib.Scan` — finding the occurrences of a grammar without going back

A grammar `M` says which words are occurrences and what each of them stands for. `Leftmost` cuts an input from the left
and takes an occurrence wherever one begins. `Scan` reads the input letter by letter and only ever holds the word read
since it last began afresh: it begins afresh after an occurrence, and after a letter with which that word is no start of
an occurrence any more. The letter is not looked at again, neither is the word before it.

In a `Marking` no two occurrences overlap. For these `Scan.leftmost_iff` says exactly when `Scan` finds what `Leftmost`
finds: when no occurrence begins in a word that is given up (`NoneMissed`). The proof counts: `Leftmost` finds as many
occurrences as there are places where one begins, and `Scan` at most as many.
-/

namespace ThirdParty.Lib

variable {σ α β γ : Type*}

/-! ## Occurrences -/

/-- An occurrence begins here. -/
def Begins (M : List α → β → Prop) (l : List α) : Prop := ∃ w b, M w b ∧ w <+: l

/-- An occurrence of `b` stands somewhere in the input. -/
def Occurs (M : List α → β → Prop) (l : List α) (b : β) : Prop := ∃ x w z, l = x ++ (w ++ z) ∧ M w b

/-- Some letters are missing to an occurrence. -/
def Start (M : List α → β → Prop) (u : List α) : Prop := ∃ v b, v ≠ [] ∧ M (u ++ v) b

/-- No occurrence begins in `u`, read before `l`. -/
def Quiet (M : List α → β → Prop) (u l : List α) : Prop := ∀ x y, u = x ++ y → y ≠ [] → ¬Begins M (y ++ l)

/-- **The leftmost occurrences that do not overlap**, by what they stand for. -/
inductive Leftmost (M : List α → β → Prop) : List α → List β → Prop where
  | nil : Leftmost M [] []
  | skip {a : α} {l : List α} {bs : List β} (hno : ¬Begins M (a :: l)) (h : Leftmost M l bs) : Leftmost M (a :: l) bs
  | take {l w rest : List α} {b : β} {bs : List β} (hcut : l = w ++ rest) (hw : M w b) (h : Leftmost M rest bs) :
      Leftmost M l (b :: bs)

/-- **Reading on after the word `u`**, without going back. -/
inductive Scan (M : List α → β → Prop) : List α → List α → List β → Prop where
  | nil {u : List α} : Scan M u [] []
  | hit {u l : List α} {a : α} {b : β} {bs : List β} (hw : M (u ++ [a]) b) (h : Scan M [] l bs) :
      Scan M u (a :: l) (b :: bs)
  | keep {u l : List α} {a : α} {bs : List β} (hstart : Start M (u ++ [a])) (h : Scan M (u ++ [a]) l bs) :
      Scan M u (a :: l) bs
  | drop {u l : List α} {a : α} {bs : List β} (hno : ∀ b, ¬M (u ++ [a]) b) (hend : ¬Start M (u ++ [a]))
      (h : Scan M [] l bs) : Scan M u (a :: l) bs

/-- **No occurrence begins in a word that is given up.** -/
def NoneMissed (M : List α → β → Prop) : List α → List α → Prop
  | _, []     => True
  | u, a :: l =>
      ((∃ b, M (u ++ [a]) b) → NoneMissed M [] l) ∧
      (Start M (u ++ [a]) → NoneMissed M (u ++ [a]) l) ∧
      ((∀ b, ¬M (u ++ [a]) b) → ¬Start M (u ++ [a]) → Quiet M (u ++ [a]) l ∧ NoneMissed M [] l)

/-- A grammar of words that do not overlap: an occurrence is not empty, at most one begins at a place, and none begins
    inside another. -/
structure Marking (M : List α → β → Prop) : Prop where
  nonempty : ∀ {w b}, M w b → w ≠ []
  alone    : ∀ {w w' z z' b b'}, M w b → M w' b' → w ++ z = w' ++ z' → w = w' ∧ b = b'
  apart    : ∀ {a w b}, M (a :: w) b → ∀ z, Quiet M w z

section
variable {M : List α → β → Prop} {u l w : List α} {a : α} {b : β} {bs : List β}

theorem Begins.append (h : Begins M l) (z : List α) : Begins M (l ++ z) := by
  obtain ⟨w, b, hw, hpre⟩ := h
  exact ⟨w, b, hw, hpre.trans (List.prefix_append l z)⟩

theorem begins_append (hw : M w b) (l : List α) : Begins M (w ++ l) := ⟨w, b, hw, List.prefix_append w l⟩

/-- An occurrence is no start of another. -/
theorem Marking.not_start (hM : Marking M) (hw : M w b) : ¬Start M w := by
  rintro ⟨v, b', hv, hlong⟩
  have hsame : w ++ v = w := (hM.alone hlong hw (by rw [List.append_nil] : w ++ v ++ [] = w ++ v)).1
  exact hv (List.append_right_eq_self.mp hsame)

/-- Nothing begins in a start at the end of the input. -/
theorem Marking.quiet_start (hM : Marking M) (hstart : Start M u) : Quiet M u [] := by
  obtain ⟨v, b, hv, hlong⟩ := hstart
  rintro x y rfl hy hbegins
  rw [List.append_nil] at hbegins
  cases x with
  | nil =>
      -- at its first letter there is only the word it is a start of
      obtain ⟨w, b', hw, z, rfl⟩ := hbegins
      refine hM.not_start hw ⟨z ++ v, b, fun hc => hv (List.append_eq_nil_iff.mp hc).2, ?_⟩
      rw [← List.append_assoc]
      exact hlong
  | cons a x =>
      have hinside := hM.apart hlong [] x (y ++ v)
      refine hinside (List.append_assoc ..) (fun hc => hy (List.append_eq_nil_iff.mp hc).1) ?_
      rw [List.append_nil]
      exact hbegins.append v

theorem quiet_cons : Quiet M (a :: u) l ↔ ¬Begins M (a :: (u ++ l)) ∧ Quiet M u l := by
  constructor
  · intro h
    exact ⟨h [] (a :: u) rfl (List.cons_ne_nil a u), fun x y hxy hy => h (a :: x) y (by rw [hxy]; rfl) hy⟩
  · rintro ⟨hno, h⟩ x y hxy hy
    cases x with
    | nil =>
        obtain rfl : a :: u = y := hxy
        exact hno
    | cons a' x =>
        obtain ⟨-, rfl⟩ := List.cons.inj hxy
        exact h x y rfl hy

theorem quiet_append {v : List α} : Quiet M (u ++ v) l ↔ Quiet M u (v ++ l) ∧ Quiet M v l := by
  induction u with
  | nil => exact ⟨fun h => ⟨fun x y hxy hy => absurd (List.append_eq_nil_iff.mp hxy.symm).2 hy, h⟩, fun h => h.2⟩
  | cons a u ih => rw [List.cons_append, quiet_cons, quiet_cons, ih, List.append_assoc, and_assoc]

/-! ## The leftmost occurrences -/

/-- A stretch in which nothing begins is skipped. -/
theorem Leftmost.skips (h : Leftmost M l bs) (hquiet : Quiet M u l) : Leftmost M (u ++ l) bs := by
  induction u with
  | nil => exact h
  | cons a u ih =>
      obtain ⟨hno, hrest⟩ := quiet_cons.mp hquiet
      exact .skip hno (ih hrest)

/-- There is only one way to cut an input. -/
theorem Leftmost.unique (hM : Marking M) (h : Leftmost M l bs) : ∀ {cs}, Leftmost M l cs → bs = cs := by
  induction h with
  | nil =>
      intro cs h'
      cases h' with
      | nil => rfl
      | take hcut hw _ => exact absurd (List.append_eq_nil_iff.mp hcut.symm).1 (hM.nonempty hw)
  | skip hno _ ih =>
      intro cs h'
      cases h' with
      | skip _ h' => exact ih h'
      | take hcut hw _ => exact absurd (hcut ▸ begins_append hw _) hno
  | take hcut hw _ ih =>
      intro cs h'
      cases h' with
      | nil => exact absurd (List.append_eq_nil_iff.mp hcut.symm).1 (hM.nonempty hw)
      | skip hno _ => exact absurd (hcut ▸ begins_append hw _) hno
      | take hcut' hw' h' =>
          obtain ⟨rfl, rfl⟩ := hM.alone hw hw' (hcut.symm.trans hcut')
          obtain rfl := List.append_cancel_left (hcut.symm.trans hcut')
          rw [ih h']

/-- It takes every occurrence there is. -/
theorem Leftmost.mem_iff (hM : Marking M) (h : Leftmost M l bs) (b : β) : b ∈ bs ↔ Occurs M l b := by
  induction h with
  | nil =>
      refine ⟨fun hb => absurd hb List.not_mem_nil, ?_⟩
      rintro ⟨x, w, z, hcut, hw⟩
      have hnil := (List.append_eq_nil_iff.mp hcut.symm).2
      exact absurd (List.append_eq_nil_iff.mp hnil).1 (hM.nonempty hw)
  | @skip a l bs hno _ ih =>
      rw [ih]
      constructor
      · rintro ⟨x, w, z, rfl, hw⟩
        exact ⟨a :: x, w, z, rfl, hw⟩
      · rintro ⟨x, w, z, hcut, hw⟩
        cases x with
        | nil => exact absurd (hcut ▸ begins_append hw z) hno
        | cons a' x => exact ⟨x, w, z, (List.cons.inj hcut).2, hw⟩
  | @take l w rest b₀ bs hcut hw _ ih =>
      subst hcut
      rw [List.mem_cons, ih]
      constructor
      · rintro (rfl | ⟨x, w', z, rfl, hw'⟩)
        · exact ⟨[], w, rest, rfl, hw⟩
        · exact ⟨w ++ x, w', z, (List.append_assoc ..).symm, hw'⟩
      · rintro ⟨x, w', z, hcut, hw'⟩
        rcases List.append_eq_append_iff.mp hcut with ⟨y, -, hrest⟩ | ⟨y, rfl, hrest⟩
        · exact .inr ⟨y, w', z, hrest, hw'⟩
        by_cases hy : y = []
        · exact .inr ⟨[], w', z, by simpa [hy] using hrest.symm, hw'⟩
        -- the two overlap, so they are the same
        cases x with
        | nil => exact .inl (hM.alone hw' hw hrest).2
        | cons a x => exact absurd (hrest ▸ begins_append hw' z) (hM.apart hw rest x y rfl hy)

/-! ## Counting -/

open Classical in
/-- The number of places where an occurrence begins. -/
noncomputable def beginnings (M : List α → β → Prop) : List α → Nat
  | []     => 0
  | a :: l => (if Begins M (a :: l) then 1 else 0) + beginnings M l

open Classical in
theorem beginnings_cons (M : List α → β → Prop) (a : α) (l : List α) :
    beginnings M (a :: l) = (if Begins M (a :: l) then 1 else 0) + beginnings M l := rfl

theorem beginnings_le (M : List α → β → Prop) (u l : List α) : beginnings M l ≤ beginnings M (u ++ l) := by
  induction u with
  | nil => exact Nat.le_refl _
  | cons a u ih => exact Nat.le_trans ih (Nat.le_add_left _ _)

theorem beginnings_eq_iff : beginnings M (u ++ l) = beginnings M l ↔ Quiet M u l := by
  induction u with
  | nil => exact ⟨fun _ x y hxy hy => absurd (List.append_eq_nil_iff.mp hxy.symm).2 hy, fun _ => rfl⟩
  | cons a u ih =>
      have hle := beginnings_le M u l
      rw [quiet_cons, ← ih, List.cons_append, beginnings_cons]
      split
      · next hbegins => exact ⟨fun h => by omega, fun h => absurd hbegins h.1⟩
      · next hno => exact ⟨fun h => ⟨hno, by omega⟩, fun h => by omega⟩

/-- At an occurrence just one begins. -/
theorem beginnings_append (hM : Marking M) (hw : M w b) (l : List α) :
    beginnings M (w ++ l) = beginnings M l + 1 := by
  cases w with
  | nil => exact absurd rfl (hM.nonempty hw)
  | cons a w =>
      have htail : beginnings M (w ++ l) = beginnings M l := beginnings_eq_iff.mpr (hM.apart hw l)
      have hbegins : Begins M (a :: (w ++ l)) := begins_append hw l
      rw [List.cons_append, beginnings_cons, if_pos hbegins, htail, Nat.add_comm]

theorem Leftmost.length (hM : Marking M) (h : Leftmost M l bs) : bs.length = beginnings M l := by
  induction h with
  | nil => rfl
  | skip hno _ ih => rw [beginnings_cons, if_neg hno, Nat.zero_add, ih]
  | take hcut hw _ ih => rw [hcut, beginnings_append hM hw, ← ih, List.length_cons]

/-! ## Reading without going back -/

theorem noneMissed_hit (hM : Marking M) (hw : M (u ++ [a]) b) : NoneMissed M u (a :: l) ↔ NoneMissed M [] l :=
  ⟨fun h => h.1 ⟨b, hw⟩, fun h => ⟨fun _ => h, fun hs => absurd hs (hM.not_start hw), fun hno => absurd hw (hno b)⟩⟩

theorem noneMissed_keep (hM : Marking M) (hstart : Start M (u ++ [a])) :
    NoneMissed M u (a :: l) ↔ NoneMissed M (u ++ [a]) l :=
  ⟨fun h => h.2.1 hstart,
    fun h => ⟨fun ⟨_, hw⟩ => absurd hstart (hM.not_start hw), fun _ => h, fun _ hend => absurd hstart hend⟩⟩

theorem noneMissed_drop (hno : ∀ b, ¬M (u ++ [a]) b) (hend : ¬Start M (u ++ [a])) :
    NoneMissed M u (a :: l) ↔ Quiet M (u ++ [a]) l ∧ NoneMissed M [] l :=
  ⟨fun h => h.2.2 hno hend, fun h => ⟨fun ⟨b, hw⟩ => absurd hw (hno b), fun hs => absurd hs hend, fun _ _ => h⟩⟩

/-- If nothing is missed, what is found is leftmost. -/
theorem Scan.leftmost (hM : Marking M) (h : Scan M u l bs) (hu : u = [] ∨ Start M u) (hnone : NoneMissed M u l) :
    Leftmost M (u ++ l) bs := by
  induction h with
  | @nil u =>
      refine Leftmost.skips .nil ?_
      rcases hu with rfl | hstart
      · exact fun x y hxy hy => absurd (List.append_eq_nil_iff.mp hxy.symm).2 hy
      · exact hM.quiet_start hstart
  | hit hw _ ih =>
      rw [noneMissed_hit hM hw] at hnone
      exact .take (List.append_cons ..) hw (ih (.inl rfl) hnone)
  | keep hstart _ ih =>
      rw [noneMissed_keep hM hstart] at hnone
      rw [List.append_cons]
      exact ih (.inr hstart) hnone
  | drop hno hend _ ih =>
      obtain ⟨hquiet, hrest⟩ := (noneMissed_drop hno hend).mp hnone
      rw [List.append_cons]
      exact (ih (.inl rfl) hrest).skips hquiet

/-- It never finds more than there is, and as much only if nothing is missed. -/
theorem Scan.length (hM : Marking M) (h : Scan M u l bs) :
    bs.length ≤ beginnings M (u ++ l) ∧ (bs.length = beginnings M (u ++ l) → NoneMissed M u l) := by
  induction h with
  | nil => exact ⟨Nat.zero_le _, fun _ => trivial⟩
  | hit hw _ ih =>
      rw [List.append_cons, beginnings_append hM hw, noneMissed_hit hM hw, List.length_cons]
      exact ⟨Nat.succ_le_succ ih.1, fun heq => ih.2 (Nat.succ.inj heq)⟩
  | keep hstart _ ih =>
      rw [List.append_cons, noneMissed_keep hM hstart]
      exact ih
  | @drop u l a bs hno hend _ ih =>
      have hle := beginnings_le M (u ++ [a]) l
      rw [List.append_cons, noneMissed_drop hno hend, ← beginnings_eq_iff]
      obtain ⟨hbound, hexact⟩ := ih
      rw [List.nil_append] at hbound hexact
      -- what begins in the word given up is not found again
      exact ⟨Nat.le_trans hbound hle, fun heq => ⟨by omega, hexact (by omega)⟩⟩

/-- **Reading without going back finds the leftmost occurrences exactly if none is missed.** -/
theorem Scan.leftmost_iff (hM : Marking M) (h : Scan M [] l bs) : Leftmost M l bs ↔ NoneMissed M [] l :=
  ⟨fun hleft => (h.length hM).2 (hleft.length hM), h.leftmost hM (.inl rfl)⟩

/-- A reader that passes on `f b` for `b` must also not garble anything. -/
theorem Scan.leftmost_map_iff (hM : Marking M) (h : Scan M [] l bs) (f : β → β) :
    Leftmost M l (bs.map f) ↔ NoneMissed M [] l ∧ ∀ b, Occurs M l b → f b = b := by
  constructor
  · intro hleft
    have hlen := hleft.length hM
    rw [List.length_map] at hlen
    have hnone := (h.length hM).2 hlen
    have hleft' := (h.leftmost_iff hM).mpr hnone
    have hsame : bs.map f = bs.map id := by rw [List.map_id, hleft.unique hM hleft']
    exact ⟨hnone, fun b hb => List.map_inj_left.mp hsame b ((hleft'.mem_iff hM b).mpr hb)⟩
  · rintro ⟨hnone, hkeep⟩
    have hleft' := (h.leftmost_iff hM).mpr hnone
    have hsame : bs.map f = bs.map id :=
      List.map_inj_left.mpr fun b hb => hkeep b ((hleft'.mem_iff hM b).mp hb)
    rw [hsame, List.map_id]
    exact hleft'

end

/-! ## Machines that read so -/

/-- What reading the letter `a` after the word `u` comes to, for a machine that gets to the state `s'`: `R` relates its
    states to the words read, and it emits `f b` at an occurrence of `b`. -/
inductive ScanStep (M : List α → β → Prop) (f : β → γ) (R : σ → List α → Prop) (u : List α) (a : α) (s' : σ) :
    List γ → Prop where
  | hit {b : β} (hw : M (u ++ [a]) b) (hR : R s' []) : ScanStep M f R u a s' [f b]
  | keep (hstart : Start M (u ++ [a])) (hR : R s' (u ++ [a])) : ScanStep M f R u a s' []
  | drop (hend : ∀ v b, ¬M (u ++ a :: v) b) (hR : R s' []) : ScanStep M f R u a s' []

/-- **The simulation rule.** -/
theorem Scan.of_steps {M : List α → β → Prop} {f : β → γ} {R : σ → List α → Prop} {step : σ → α → σ × List γ}
    (hstep : ∀ {s u} a, R s u → ScanStep M f R u a (step s a).1 (step s a).2) (l : List α) :
    ∀ {s u}, R s u → ∃ bs, Scan M u l bs ∧ (transduce step s l).2 = bs.map f := by
  induction l with
  | nil => exact fun _ => ⟨[], .nil, rfl⟩
  | cons a l ih =>
      intro s u hR
      have hnext := hstep a hR
      simp only [transduce]
      generalize step s a = r at hnext
      obtain ⟨s', out⟩ := r
      cases hnext with
      | hit hw hR' =>
          obtain ⟨bs, hscan, hout⟩ := ih hR'
          exact ⟨_ :: bs, .hit hw hscan, by simp [hout]⟩
      | keep hstart hR' =>
          obtain ⟨bs, hscan, hout⟩ := ih hR'
          exact ⟨bs, .keep hstart hscan, by simp [hout]⟩
      | drop hend hR' =>
          obtain ⟨bs, hscan, hout⟩ := ih hR'
          refine ⟨bs, .drop (fun b hw => hend [] b hw) ?_ hscan, by simp [hout]⟩
          rintro ⟨v, b, -, hw⟩
          exact hend v b (by rwa [List.append_cons])

end ThirdParty.Lib
