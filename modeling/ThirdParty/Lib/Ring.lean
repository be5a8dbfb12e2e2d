import Mathlib.Data.List.Range
import Mathlib.Logic.Function.Basic

/-!
# `Lib.Ring` — a queue in a circular array

`n` cells, a read index `r` and a write index `w`; the cells from `r` up to but not including `w`, going round at
`n`, are the queue, oldest first. One cell always stays free, so that `r = w` means empty. The lemmas say what
writing at `w` and reading at `r` do to the queue.
-/

namespace ThirdParty.Lib.Ring

variable {α : Type*} {n r w i : Nat}

/-- The index after `i`. -/
def next (n i : Nat) : Nat := if i + 1 = n then 0 else i + 1

/-- The index of cell `i`, counted beyond the end. -/
def wrap (n i : Nat) : Nat := if i < n then i else i - n

/-- The length of the queue. -/
def count (n r w : Nat) : Nat := if r ≤ w then w - r else w + n - r

/-- The queue. -/
def items (a : Nat → α) (n r w : Nat) : List α := (List.range (count n r w)).map fun i => a (wrap n (r + i))

theorem next_lt (hi : i < n) : next n i < n := by unfold next; split <;> omega

theorem items_length (a : Nat → α) : (items a n r w).length = count n r w := by simp [items]

theorem items_self (a : Nat → α) (n r : Nat) : items a n r r = [] := by simp [items, count]

theorem count_lt (hr : r < n) (hw : w < n) : count n r w < n := by unfold count; split <;> omega

theorem count_eq_zero_iff (hr : r < n) : count n r w = 0 ↔ r = w := by unfold count; split <;> omega

/-- The ring is full when one cell is left. -/
theorem next_eq_iff_full (hr : r < n) (hw : w < n) : next n w = r ↔ count n r w = n - 1 := by
  unfold next count
  split <;> split <;> omega

/-- **Writing** at `w` appends to the queue. -/
theorem items_push (a : Nat → α) (x : α) (hr : r < n) (hw : w < n) (hroom : next n w ≠ r) :
    items (Function.update a w x) n r (next n w) = items a n r w ++ [x] := by
  have hcount : count n r (next n w) = count n r w + 1 := by
    unfold next count at *
    split at hroom <;> split <;> split <;> split <;> omega
  have hlast : wrap n (r + count n r w) = w := by
    unfold wrap count
    split <;> split <;> omega
  have hother : ∀ i ∈ List.range (count n r w), Function.update a w x (wrap n (r + i)) = a (wrap n (r + i)) := by
    intro i hi
    rw [List.mem_range] at hi
    refine Function.update_of_ne ?_ _ _
    unfold count at hi
    unfold wrap
    split at hi <;> split <;> omega
  unfold items
  rw [hcount, List.range_succ, List.map_append, List.map_congr_left hother, List.map_singleton, hlast,
    Function.update_self]

/-- **Reading** at `r` takes the oldest element. -/
theorem items_pop (a : Nat → α) (hr : r < n) (hw : w < n) (hne : r ≠ w) :
    items a n r w = a r :: items a n (next n r) w := by
  have hcount : count n r w = count n (next n r) w + 1 := by
    unfold next count
    split <;> split <;> split <;> omega
  have hhead : wrap n (r + 0) = r := by unfold wrap; split <;> omega
  unfold items
  rw [hcount, List.range_succ_eq_map, List.map_cons, List.map_map, hhead]
  congr 1
  apply List.map_congr_left
  intro i hi
  simp only [Function.comp_apply]
  congr 1
  rw [List.mem_range] at hi
  unfold next count at hi
  unfold wrap next
  by_cases hlast : r + 1 = n
  · simp only [hlast, if_true] at hi ⊢
    split at hi <;> split <;> split <;> omega
  · simp only [hlast, if_false] at hi ⊢
    split at hi <;> split <;> split <;> omega

end ThirdParty.Lib.Ring
