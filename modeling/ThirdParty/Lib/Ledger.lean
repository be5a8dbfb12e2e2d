import Mathlib.Data.List.Induction
import Mathlib.Logic.Function.Basic
import ThirdParty.Lib.Run
import ThirdParty.Lib.Trace

/-!
# `Lib.Ledger` — blocks of a heap, and who owns them

A trace of allocations, uses and frees is in order when every block is allocated before it is used, and neither
used nor freed once it was freed. `Ledger.step` is undefined where a trace goes wrong, so a trace that
`runActions` can follow is in order, and the ledger it ends with says what is still live.

Owners are indices. `others own j` is what all but `j` own; a change that concerns `j` alone leaves it as it is,
which is how exclusive ownership is carried through a run.
-/

namespace ThirdParty.Lib

variable {κ : Type*} [DecidableEq κ]

/-! ## The ledger -/

inductive HeapOp (κ : Type*) where
  | alloc (k : κ)
  | use (k : κ)
  | free (k : κ)
  deriving DecidableEq

/-- The life of a block. -/
inductive Life where
  | unborn | live | freed
  deriving DecidableEq

abbrev Ledger (κ : Type*) := κ → Life

/-- The ledger before anything was allocated. -/
def Ledger.empty : Ledger κ := fun _ => .unborn

def Ledger.step (L : Ledger κ) : HeapOp κ → Option (Ledger κ)
  | .alloc k => if L k = .unborn then some (Function.update L k .live) else none
  | .use k   => if L k = .live then some L else none
  | .free k  => if L k = .live then some (Function.update L k .freed) else none

section
variable {L L' : Ledger κ} {k : κ} {ops : List (HeapOp κ)}

theorem Ledger.step_alloc (h : L k = .unborn) : L.step (.alloc k) = some (Function.update L k .live) := if_pos h

theorem Ledger.step_use (h : L k = .live) : L.step (.use k) = some L := if_pos h

theorem Ledger.step_free (h : L k = .live) : L.step (.free k) = some (Function.update L k .freed) := if_pos h

/-- Using a live block any number of times changes nothing. -/
theorem Ledger.run_uses (h : L k = .live) (hops : ∀ op ∈ ops, op = .use k) : runActions Ledger.step L ops = some L := by
  induction ops with
  | nil => rfl
  | cons op ops ih =>
      rw [hops op (List.mem_cons_self ..), runActions, Ledger.step_use h, Option.bind_some]
      exact ih fun op' hop' => hops op' (List.mem_cons_of_mem _ hop')

/-- **What a trace in order has done to a block**: it was allocated once unless it is unborn, and freed once if
    it is freed, else never. -/
theorem Ledger.run_counts (k : κ) : ∀ {ops : List (HeapOp κ)} {L : Ledger κ},
    runActions Ledger.step Ledger.empty ops = some L →
      ops.count (.alloc k) = (if L k = .unborn then 0 else 1) ∧
      ops.count (.free k) = (if L k = .freed then 1 else 0) := by
  intro ops
  induction ops using List.reverseRecOn with
  | nil =>
      intro L h
      obtain rfl := Option.some.inj h
      exact ⟨rfl, rfl⟩
  | append_singleton ops op ih =>
      intro L h
      rw [runActions_append] at h
      -- the last operation changes the life of one block only
      obtain ⟨L₁, h₁, h₂⟩ := Option.bind_eq_some_iff.mp h
      obtain ⟨halloc, hfree⟩ := ih h₁
      simp only [runActions] at h₂
      rw [List.count_append, List.count_append, halloc, hfree]
      cases op with
      | alloc k' =>
          by_cases hlife : L₁ k' = .unborn
          swap
          · simp [Ledger.step, hlife] at h₂
          rw [Ledger.step_alloc hlife] at h₂
          obtain rfl := Option.some.inj h₂
          by_cases hk : k = k'
          · subst hk; simp [hlife]
          · simp [Function.update_of_ne hk, Ne.symm hk]
      | use k' =>
          by_cases hlife : L₁ k' = .live
          swap
          · simp [Ledger.step, hlife] at h₂
          rw [Ledger.step_use hlife] at h₂
          obtain rfl := Option.some.inj h₂
          simp
      | free k' =>
          by_cases hlife : L₁ k' = .live
          swap
          · simp [Ledger.step, hlife] at h₂
          rw [Ledger.step_free hlife] at h₂
          obtain rfl := Option.some.inj h₂
          by_cases hk : k = k'
          · subst hk; simp [hlife]
          · simp [Function.update_of_ne hk, Ne.symm hk]

/-- **No use after free.** -/
theorem Ledger.run_noneAfter (k : κ) : ∀ {ops : List (HeapOp κ)} {L : Ledger κ},
    runActions Ledger.step Ledger.empty ops = some L →
      NoneAfter (fun op => op = .free k) (fun op => op = .use k) ops := by
  intro ops
  induction ops using List.reverseRecOn with
  | nil => intro L _; exact List.Pairwise.nil
  | append_singleton ops op ih =>
      intro L h
      rw [runActions_append] at h
      obtain ⟨L₁, h₁, h₂⟩ := Option.bind_eq_some_iff.mp h
      refine noneAfter_append.mpr ⟨ih h₁, by simp [NoneAfter], ?_⟩
      rintro ⟨op', hop', hfree⟩ e he
      rw [List.mem_singleton] at he
      subst he
      refine decide_eq_false fun huse => ?_
      subst huse
      have hfreed : L₁ k = .freed := by
        by_contra hne
        have hcount := (Ledger.run_counts k h₁).2
        rw [if_neg hne] at hcount
        exact List.count_eq_zero.mp hcount (of_decide_eq_true hfree ▸ hop')
      simp [runActions, Ledger.step, hfreed] at h₂

end

/-! ## Owners -/

section
variable {ι κ : Type*} {own own' : ι → κ → Prop} {j : ι} {k : κ}

/-- What all but `j` own. -/
def others (own : ι → κ → Prop) (j : ι) (k : κ) : Prop := ∃ j', j' ≠ j ∧ own j' k

/-- Nothing has two owners. -/
def Exclusive (own : ι → κ → Prop) : Prop := ∀ ⦃j j' : ι⦄ ⦃k : κ⦄, own j k → own j' k → j = j'

theorem exists_own_iff : (∃ j', own j' k) ↔ others own j k ∨ own j k := by
  constructor
  · rintro ⟨j', h⟩
    by_cases hj : j' = j
    · exact .inr (hj ▸ h)
    · exact .inl ⟨j', hj, h⟩
  · rintro (⟨j', -, h⟩ | h)
    · exact ⟨j', h⟩
    · exact ⟨j, h⟩

theorem Exclusive.not_others (h : Exclusive own) (hj : own j k) : ¬others own j k := by
  rintro ⟨j', hne, hj'⟩
  exact hne (h hj' hj)

theorem others_congr (h : ∀ j' ≠ j, ∀ k, own' j' k ↔ own j' k) : others own' j k ↔ others own j k := by
  constructor
  · rintro ⟨j', hne, hk⟩
    exact ⟨j', hne, (h j' hne k).mp hk⟩
  · rintro ⟨j', hne, hk⟩
    exact ⟨j', hne, (h j' hne k).mpr hk⟩

/-- **A change that concerns `j` alone**: ownership stays exclusive if `j` takes nothing from the others. -/
theorem Exclusive.change (hown : Exclusive own) (h : ∀ j' ≠ j, ∀ k, own' j' k ↔ own j' k)
    (hj : ∀ k, own' j k → ¬others own j k) : Exclusive own' := by
  intro j₁ j₂ k h₁ h₂
  by_cases hj₁ : j₁ = j
  · by_cases hj₂ : j₂ = j
    · rw [hj₁, hj₂]
    · subst hj₁
      exact absurd ⟨j₂, hj₂, (h j₂ hj₂ k).mp h₂⟩ (hj k h₁)
  · by_cases hj₂ : j₂ = j
    · subst hj₂
      exact absurd ⟨j₁, hj₁, (h j₁ hj₁ k).mp h₁⟩ (hj k h₂)
    · exact hown ((h j₁ hj₁ k).mp h₁) ((h j₂ hj₂ k).mp h₂)

end

end ThirdParty.Lib
