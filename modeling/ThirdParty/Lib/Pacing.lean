import ThirdParty.Lib.Run

/-!
# `Lib.Pacing` — at most one outstanding

Some steps of a system post, some take what was posted, and a count goes up and down with them. `Alternates` is
the order of these steps alone: between any two that post there is one that takes. By `Run.count_le_one_iff` it is
what keeps the count at one or below in every state of a run.
-/

namespace ThirdParty.Lib

variable {S A : Type*}

/-- There was a step `P`, and no step `T` since. -/
def Outstanding (P T : S × A → Prop) (tr : List (S × A)) : Prop :=
  ∃ before x since, tr = before ++ x :: since ∧ P x ∧ ∀ z ∈ since, ¬T z

/-- Between any two steps `P` there is a step `T`. -/
def Alternates (P T : S × A → Prop) (tr : List (S × A)) : Prop :=
  ∀ before x between y after, tr = before ++ x :: (between ++ y :: after) → P x → P y → ∃ z ∈ between, T z

/-- Between two steps `P` that have a step `L` between them there is also a step `T`. -/
def Spaced (P L T : S × A → Prop) (tr : List (S × A)) : Prop :=
  ∀ before x between y after, tr = before ++ x :: (between ++ y :: after) → P x → (∃ l ∈ between, L l) → P y →
    ∃ z ∈ between, T z

variable {P L T : S × A → Prop} {tr : List (S × A)} {y : S × A}

theorem Alternates.spaced (h : Alternates P T tr) : Spaced P L T tr :=
  fun before x between y after hall hx _ hy => h before x between y after hall hx hy

theorem outstanding_concat_iff : Outstanding P T (tr ++ [y]) ↔ P y ∨ (Outstanding P T tr ∧ ¬T y) := by
  constructor
  · rintro ⟨before, x, since, hall, hx, hsince⟩
    rcases List.eq_nil_or_concat since with rfl | ⟨since', z, rfl⟩
    · obtain ⟨-, hlast⟩ := List.append_inj' hall rfl
      exact .inl (List.singleton_inj.mp hlast ▸ hx)
    · rw [List.concat_eq_append] at hall hsince
      rw [← List.cons_append, ← List.append_assoc] at hall
      obtain ⟨hbefore, hlast⟩ := List.append_inj' hall rfl
      obtain rfl := List.singleton_inj.mp hlast
      exact .inr ⟨⟨before, x, since', hbefore, hx, fun z hz => hsince z (List.mem_append_left _ hz)⟩,
        hsince y (by simp)⟩
  · rintro (hy | ⟨⟨before, x, since, rfl, hx, hsince⟩, hy⟩)
    · exact ⟨tr, y, [], rfl, hy, fun _ hz => absurd hz List.not_mem_nil⟩
    · refine ⟨before, x, since ++ [y], by simp, hx, fun z hz => ?_⟩
      rcases List.mem_append.mp hz with hz | hz
      · exact hsince z hz
      · rw [List.mem_singleton.mp hz]
        exact hy

/-- A step `P` more is one that finds nothing outstanding. -/
theorem alternates_concat_iff :
    Alternates P T (tr ++ [y]) ↔ Alternates P T tr ∧ (P y → ¬Outstanding P T tr) := by
  constructor
  · intro h
    refine ⟨fun before x between z after hall => ?_, fun hy ⟨before, x, since, hall, hx, hsince⟩ => ?_⟩
    · exact h before x between z (after ++ [y]) (by simp [hall])
    · obtain ⟨z, hz, htake⟩ := h before x since y [] (by simp [hall]) hx hy
      exact hsince z hz htake
  · rintro ⟨htr, hlast⟩ before x between z after hall hx hz
    rcases List.eq_nil_or_concat after with rfl | ⟨after', z', rfl⟩
    · -- the second step is the last one
      rw [← List.cons_append, ← List.append_assoc] at hall
      obtain ⟨rfl, hone⟩ := List.append_inj' hall rfl
      obtain rfl := List.singleton_inj.mp hone
      by_contra hnone
      exact hlast hz ⟨before, x, between, rfl, hx, fun t ht htake => hnone ⟨t, ht, htake⟩⟩
    · rw [List.concat_eq_append, ← List.cons_append, ← List.append_assoc, ← List.cons_append,
        ← List.append_assoc] at hall
      obtain ⟨rfl, -⟩ := List.append_inj' hall rfl
      exact htr before x between z after' (by simp) hx hz

/-! ## Checking a history -/

/-- No step `P` comes before the first step `T`. -/
def Covered (P T : S × A → Prop) (tr : List (S × A)) : Prop :=
  ∀ between y after, tr = between ++ y :: after → P y → ∃ z ∈ between, T z

theorem covered_cons : Covered P T (y :: tr) ↔ ¬P y ∧ (T y ∨ Covered P T tr) := by
  constructor
  · intro h
    have hy : ¬P y := by
      intro hP
      obtain ⟨z, hz, -⟩ := h [] y tr rfl hP
      exact absurd hz List.not_mem_nil
    refine ⟨hy, or_iff_not_imp_left.mpr fun hT between z after hall hz => ?_⟩
    obtain ⟨t, ht, htake⟩ := h (y :: between) z after (by simp [hall]) hz
    rcases List.mem_cons.mp ht with rfl | ht
    · exact absurd htake hT
    · exact ⟨t, ht, htake⟩
  · rintro ⟨hP, hrest⟩ between z after hall hz
    cases between with
    | nil =>
        obtain ⟨rfl, -⟩ := List.cons.inj hall
        exact absurd hz hP
    | cons y' between =>
        obtain ⟨rfl, rfl⟩ := List.cons.inj hall
        rcases hrest with hT | hcov
        · exact ⟨y, List.mem_cons_self, hT⟩
        · obtain ⟨t, ht, htake⟩ := hcov between z after rfl hz
          exact ⟨t, List.mem_cons_of_mem _ ht, htake⟩

theorem alternates_cons : Alternates P T (y :: tr) ↔ (P y → Covered P T tr) ∧ Alternates P T tr := by
  constructor
  · refine fun h => ⟨fun hy between z after hall hz => ?_, fun before x between z after hall => ?_⟩
    · exact h [] y between z after (by simp [hall]) hy hz
    · exact h (y :: before) x between z after (by simp [hall])
  · rintro ⟨hfirst, hrest⟩ before x between z after hall hx hz
    cases before with
    | nil =>
        obtain ⟨rfl, rfl⟩ := List.cons.inj hall
        exact hfirst hx between z after rfl hz
    | cons y' before =>
        obtain ⟨-, rfl⟩ := List.cons.inj hall
        exact hrest before x between z after rfl hx hz

instance Covered.decidable [DecidablePred P] [DecidablePred T] : ∀ tr, Decidable (Covered P T tr)
  | []      => .isTrue fun _ _ _ hall => by simp at hall
  | _ :: tr => have := Covered.decidable tr; decidable_of_iff _ covered_cons.symm

instance Alternates.decidable [DecidablePred P] [DecidablePred T] : ∀ tr, Decidable (Alternates P T tr)
  | []      => .isTrue fun _ _ _ _ _ hall => by simp at hall
  | _ :: tr => have := Alternates.decidable tr; decidable_of_iff _ alternates_cons.symm

/-! ## The count -/

/-- **The pacing rule.** A count that starts at zero, goes up with each step `P`, down with each step `T` and
    changes with no other is at most one in every state of a run exactly when the steps alternate. -/
theorem Run.count_le_one_iff {step : S → A → Option S} {s₀ s : S} {c : S → Nat} (h : Run step s₀ tr s)
    (h0 : c s₀ = 0) (hpost : ∀ {s a s'}, P (s, a) → step s a = some s' → c s' = c s + 1)
    (htake : ∀ {s a s'}, T (s, a) → step s a = some s' → c s' + 1 = c s)
    (hkeep : ∀ {s a s'}, ¬P (s, a) → ¬T (s, a) → step s a = some s' → c s' = c s) :
    ((∀ t ∈ visited tr, c t ≤ 1) ∧ c s ≤ 1) ↔ Alternates P T tr := by
  -- as long as the count is at most one it says whether a step is outstanding
  have main : (((∀ t ∈ visited tr, c t ≤ 1) ∧ c s ≤ 1) ↔ Alternates P T tr) ∧
      (((∀ t ∈ visited tr, c t ≤ 1) ∧ c s ≤ 1) → (Outstanding P T tr ↔ c s = 1)) := by
    induction h with
    | nil =>
        refine ⟨iff_of_true ⟨by simp [visited], by omega⟩ fun _ _ _ _ _ hall => by simp at hall, fun _ => ?_⟩
        refine iff_of_false ?_ (by omega)
        rintro ⟨_, _, _, hall, -⟩
        simp at hall
    | @snoc tr s s' a hr hs ih =>
        obtain ⟨hiff, hout⟩ := ih
        have hsplit : (∀ t ∈ visited (tr ++ [(s, a)]), c t ≤ 1) ↔ (∀ t ∈ visited tr, c t ≤ 1) ∧ c s ≤ 1 := by
          simp [visited, or_imp, forall_and]
        rw [hsplit, alternates_concat_iff, outstanding_concat_iff, ← hiff]
        refine ⟨and_congr_right fun hle => ?_, fun hboth => ?_⟩
        · rw [hout hle]
          by_cases hP : P (s, a)
          · have := hpost hP hs
            simp only [hP, true_implies]
            omega
          · refine iff_of_true ?_ fun hP' => absurd hP' hP
            by_cases hT : T (s, a)
            · have := htake hT hs
              omega
            · rw [hkeep hP hT hs]
              exact hle.2
        · obtain ⟨hle, hle'⟩ := hboth
          rw [hout hle]
          by_cases hP : P (s, a)
          · have := hpost hP hs
            exact iff_of_true (.inl hP) (by omega)
          · by_cases hT : T (s, a)
            · have := htake hT hs
              have := hle.2
              exact iff_of_false (by simp [hP, hT]) (by omega)
            · rw [hkeep hP hT hs]
              simp [hP, hT]
  exact main.1

end ThirdParty.Lib
