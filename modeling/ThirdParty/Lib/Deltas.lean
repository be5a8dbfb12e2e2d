import Mathlib.Data.List.Sort
import Mathlib.Data.List.Pairwise

/-!
# `Lib.Deltas` — a list in the order of due times, kept as differences

Each entry holds how much later it is due than the entry before it, so that time passes for all of them by lowering
the first one. `dues n l` says when the entries are due if the list counts from `n` on. Of the due times, inserting
an entry is the ordered insertion behind all that are not later, and removing one leaves those of the others alone.
-/

namespace ThirdParty.Lib

variable {α : Type*} {d n : Nat} {x : α} {l : List (Nat × α)}

/-- When the entries are due. -/
def dues : Nat → List (Nat × α) → List (Nat × α)
  | _, []          => []
  | n, (d, x) :: l => (n + d, x) :: dues (n + d) l

/-- Due before. -/
def Before (a b : Nat × α) : Prop := a.1 < b.1

instance : DecidableRel (Before (α := α)) := fun a b => inferInstanceAs (Decidable (a.1 < b.1))

/-- A new entry, which is due at `d`. -/
def insertDelta (d : Nat) (x : α) : List (Nat × α) → List (Nat × α)
  | []          => [(d, x)]
  | (k, y) :: l => if d < k then (d, x) :: (k - d, y) :: l else (k, y) :: insertDelta (d - k) x l

/-- The difference of a removed entry goes to the one behind it. -/
def giveBack (k : Nat) : List (Nat × α) → List (Nat × α)
  | []          => []
  | (d, x) :: l => (d + k, x) :: l

/-- The first entry with `p` is removed. -/
def removeDelta (p : α → Bool) : List (Nat × α) → List (Nat × α)
  | []          => []
  | (k, y) :: l => if p y then giveBack k l else (k, y) :: removeDelta p l

theorem dues_cons : dues n ((d, x) :: l) = (n + d, x) :: dues (n + d) l := rfl

theorem dues_length : ∀ (n : Nat) (l : List (Nat × α)), (dues n l).length = l.length
  | _, []          => rfl
  | n, (d, _) :: l => congrArg (· + 1) (dues_length (n + d) l)

theorem dues_eq_nil : dues n l = [] ↔ l = [] := by
  rw [← List.length_eq_zero_iff, dues_length, List.length_eq_zero_iff]

/-- **Insertion** keeps the order, and those that are due at the same time in the order in which they came. -/
theorem dues_insertDelta (n d : Nat) (x : α) (l : List (Nat × α)) :
    dues n (insertDelta d x l) = (dues n l).orderedInsert Before (n + d, x) := by
  induction l generalizing n d with
  | nil => rfl
  | cons e l ih =>
      obtain ⟨k, y⟩ := e
      by_cases hfront : d < k
      · have hbefore : Before (n + d, x) (n + k, y) := Nat.add_lt_add_left hfront n
        rw [insertDelta, if_pos hfront, dues_cons, dues_cons, dues_cons, List.orderedInsert_cons_of_le _ _ hbefore,
          Nat.add_assoc, Nat.add_sub_cancel' (Nat.le_of_lt hfront)]
      · have hbehind : ¬ Before (n + d, x) (n + k, y) := fun h => hfront (Nat.lt_of_add_lt_add_left h)
        rw [insertDelta, if_neg hfront, dues_cons, ih, dues_cons, List.orderedInsert_of_not_le _ _ hbehind,
          Nat.add_assoc, Nat.add_sub_cancel' (Nat.le_of_not_lt hfront)]

theorem dues_giveBack (n k : Nat) (l : List (Nat × α)) : dues n (giveBack k l) = dues (n + k) l := by
  cases l with
  | nil => rfl
  | cons e l => rw [giveBack, dues_cons, dues_cons, Nat.add_comm e.1 k, ← Nat.add_assoc]

/-- **Removal** leaves the others alone. -/
theorem dues_removeDelta (n : Nat) (p : α → Bool) (l : List (Nat × α)) :
    dues n (removeDelta p l) = (dues n l).eraseP fun e => p e.2 := by
  induction l generalizing n with
  | nil => rfl
  | cons e l ih =>
      obtain ⟨k, y⟩ := e
      rw [removeDelta, dues_cons, List.eraseP_cons]
      cases hp : p y with
      | true => exact dues_giveBack n k l
      | false => exact congrArg ((n + k, y) :: ·) (ih (n + k))

/-- Counting from later on. -/
theorem dues_add (n m : Nat) (l : List (Nat × α)) : dues (n + m) l = (dues n l).map fun e => (e.1 + m, e.2) := by
  induction l generalizing n with
  | nil => rfl
  | cons e l ih =>
      obtain ⟨k, y⟩ := e
      rw [dues_cons, dues_cons, List.map_cons, Nat.add_right_comm, ih]

theorem le_of_mem_dues {e : Nat × α} (he : e ∈ dues n l) : n ≤ e.1 := by
  induction l generalizing n with
  | nil => exact absurd he List.not_mem_nil
  | cons e' l ih =>
      rcases List.mem_cons.mp he with rfl | he
      · exact Nat.le_add_right _ _
      · exact Nat.le_trans (Nat.le_add_right _ _) (ih he)

/-- The entries are in the order in which they are due. -/
theorem dues_pairwise (n : Nat) (l : List (Nat × α)) : (dues n l).Pairwise fun a b => a.1 ≤ b.1 := by
  induction l generalizing n with
  | nil => exact List.Pairwise.nil
  | cons e l ih => exact List.Pairwise.cons (fun _ he => le_of_mem_dues he) (ih (n + e.1))

end ThirdParty.Lib
