import Mathlib.Data.List.Basic

/-!
# `Lib.Transducer` — letter-by-letter transducers

A transducer reads its input one letter at a time, in a state, and emits a list of letters for each. `transduce`
is its whole run. What a transducer has emitted on a start of the input is a start of what it emits on all of it.
-/

namespace ThirdParty.Lib

variable {σ α β γ : Type*}

/-- The state reached and the output emitted on an input. -/
def transduce (step : σ → α → σ × List β) : σ → List α → σ × List β
  | s, []      => (s, [])
  | s, a :: as =>
      let (s', out) := step s a
      let (s'', out') := transduce step s' as
      (s'', out ++ out')

variable (step : σ → α → σ × List β) (s : σ)

@[simp] theorem transduce_nil : transduce step s [] = (s, []) := rfl

theorem transduce_append (as bs : List α) :
    transduce step s (as ++ bs) =
      ((transduce step (transduce step s as).1 bs).1,
        (transduce step s as).2 ++ (transduce step (transduce step s as).1 bs).2) := by
  induction as generalizing s with
  | nil => rfl
  | cons a as ih =>
      simp only [List.cons_append, transduce, ih, List.append_assoc]

/-- One more letter. -/
theorem transduce_snoc (as : List α) (a : α) :
    transduce step s (as ++ [a]) =
      ((step (transduce step s as).1 a).1, (transduce step s as).2 ++ (step (transduce step s as).1 a).2) := by
  rw [transduce_append]
  simp [transduce]

theorem transduce_prefix (as bs : List α) : (transduce step s as).2 <+: (transduce step s (as ++ bs)).2 := by
  rw [transduce_append]
  exact List.prefix_append _ _

/-- The states do not depend on what is emitted. -/
theorem transduce_state_congr {step' : σ → α → σ × List γ} (h : ∀ s a, (step s a).1 = (step' s a).1)
    (as : List α) : (transduce step s as).1 = (transduce step' s as).1 := by
  induction as generalizing s with
  | nil => rfl
  | cons a as ih =>
      simp only [transduce]
      rw [h s a]
      exact ih _

/-- **The simulation rule.** Two transducers that emit the same for every letter, from related states, emit the same on
    every input. -/
theorem transduce_simulates {τ : Type*} {step' : τ → α → τ × List β} {R : σ → τ → Prop}
    (h : ∀ s t a, R s t → R (step s a).1 (step' t a).1 ∧ (step s a).2 = (step' t a).2) (as : List α) :
    ∀ {s : σ} {t : τ}, R s t →
      R (transduce step s as).1 (transduce step' t as).1 ∧ (transduce step s as).2 = (transduce step' t as).2 := by
  induction as with
  | nil => exact fun hR => ⟨hR, rfl⟩
  | cons a as ih =>
      intro s t hR
      obtain ⟨hnext, hout⟩ := h s t a hR
      obtain ⟨hend, hrest⟩ := ih hnext
      refine ⟨hend, ?_⟩
      show (step s a).2 ++ _ = (step' t a).2 ++ _
      rw [hout, hrest]

end ThirdParty.Lib
