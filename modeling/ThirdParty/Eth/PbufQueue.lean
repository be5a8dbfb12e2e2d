import Mathlib.Data.List.ReduceOption
import Mathlib.Data.Option.Basic
import ThirdParty.Lib.Bytes
import ThirdParty.Lib.Ring

/-!
# `Eth.PbufQueue` — the transmit ring of the Ethernet driver

`PbufQueue` (`eth_driver.c`, lines 82–97 and 590–641): a ring of `TX_PBUF_QUEUE_LEN` pbuf pointers with 8-bit
indices. The record keeps both indices inside the ring and a pbuf in every cell between them, so `contents` is
a list of pbufs; `get_spec` and `put_spec` describe the two operations on that list.
-/

namespace ThirdParty.Eth

open Lib

/-- `TX_PBUF_QUEUE_LEN`. An index has to fit `uint8_t`, and one cell stays free. -/
structure RingSize where
  len    : Nat
  two_le : 2 ≤ len
  le_256 : len ≤ 256
  deriving DecidableEq

/-- The length that `eth_driver.c` defines. -/
def RingSize.standard : RingSize := ⟨8, by decide, by decide⟩

variable {β : Type*} {n : RingSize}

/-- `++i` on a `uint8_t`, then `if (i == Q_DIM(ring)) i = 0`. -/
def bump (n : RingSize) (i : Nat) : Nat := if toU8 (i + 1) = n.len then 0 else toU8 (i + 1)

/-- The 8-bit index goes round the ring, also where the width makes it wrap before the comparison does. -/
theorem bump_eq_next {i : Nat} (hi : i < n.len) : bump n i = Ring.next n.len i := by
  have h2 := n.two_le
  have h256 := n.le_256
  unfold bump Ring.next
  by_cases hwide : i + 1 = 256
  · have hzero : toU8 ((i : Int) + 1) = 0 := by unfold toU8; omega
    rw [hzero]
    split <;> split <;> omega
  · have hsame : toU8 ((i : Int) + 1) = i + 1 := by unfold toU8; omega
    rw [hsame]

theorem bump_lt {i : Nat} (hi : i < n.len) : bump n i < n.len := by
  rw [bump_eq_next hi]
  exact Ring.next_lt hi

/-- `struct PbufQueueTag`. A cell holds a pbuf or `NULL`; those from `qread` up to `qwrite` hold pbufs. -/
structure PbufQueue (n : RingSize) (β : Type*) where
  ring      : Nat → Option β
  qwrite    : Nat
  qread     : Nat
  overflow  : Nat
  qwrite_lt : qwrite < n.len
  qread_lt  : qread < n.len
  filled    : ∀ c ∈ Ring.items ring n.len qread qwrite, c ≠ none

namespace PbufQueue

/-- `PbufQueue_ctor`: the ring itself is left as it is. -/
def ctor (ring : Nat → Option β) : PbufQueue n β where
  ring      := ring
  qwrite    := 0
  qread     := 0
  overflow  := 0
  qwrite_lt := by have := n.two_le; omega
  qread_lt  := by have := n.two_le; omega
  filled    := by simp [Ring.items_self]

/-- `PbufQueue_isEmpty`. -/
def isEmpty (me : PbufQueue n β) : Bool := me.qwrite == me.qread

/-- The queued pbufs, oldest first. -/
def contents (me : PbufQueue n β) : List β :=
  (Ring.items me.ring n.len me.qread me.qwrite).reduceOption

/-- `PbufQueue_get`. -/
def get (me : PbufQueue n β) : Option β × PbufQueue n β :=
  if hempty : me.qwrite = me.qread then (none, me)
  else
    (me.ring me.qread,
      { me with
        qread    := bump n me.qread
        qread_lt := bump_lt me.qread_lt
        filled   := by
          intro c hc
          rw [bump_eq_next me.qread_lt] at hc
          refine me.filled c ?_
          rw [Ring.items_pop me.ring me.qread_lt me.qwrite_lt (Ne.symm hempty)]
          exact List.mem_cons_of_mem _ hc })

/-- `PbufQueue_put`: 1 and the pbuf is queued, or 0 and only the overflow count moves. -/
def put (me : PbufQueue n β) (p : β) : Nat × PbufQueue n β :=
  if hroom : bump n me.qwrite ≠ me.qread then
    (1,
      { me with
        ring      := Function.update me.ring me.qwrite (some p)
        qwrite    := bump n me.qwrite
        qwrite_lt := bump_lt me.qwrite_lt
        filled    := by
          rw [bump_eq_next me.qwrite_lt] at hroom ⊢
          rw [Ring.items_push me.ring (some p) me.qread_lt me.qwrite_lt hroom]
          intro c hc
          rcases List.mem_append.mp hc with hc | hc
          · exact me.filled c hc
          · simp [List.mem_singleton.mp hc] })
  else (0, { me with overflow := toU8 (me.overflow + 1) })

/-! ## What the operations do to the contents -/

theorem map_some_contents (me : PbufQueue n β) :
    me.contents.map some = Ring.items me.ring n.len me.qread me.qwrite := by
  have main : ∀ l : List (Option β), (∀ c ∈ l, c ≠ none) → l.reduceOption.map some = l := by
    intro l hl
    induction l with
    | nil => rfl
    | cons c l ih =>
        obtain ⟨b, rfl⟩ := Option.ne_none_iff_exists'.mp (hl c List.mem_cons_self)
        rw [List.reduceOption_cons_of_some, List.map_cons, ih fun c hc => hl c (List.mem_cons_of_mem _ hc)]
  exact main _ me.filled

theorem contents_length (me : PbufQueue n β) : me.contents.length = Ring.count n.len me.qread me.qwrite := by
  rw [← Ring.items_length me.ring, ← map_some_contents, List.length_map]

@[simp] theorem contents_ctor (ring : Nat → Option β) : (ctor ring : PbufQueue n β).contents = [] := by
  simp [contents, ctor, Ring.items_self]

theorem isEmpty_iff (me : PbufQueue n β) : me.isEmpty = true ↔ me.contents = [] := by
  rw [← List.length_eq_zero_iff, contents_length, Ring.count_eq_zero_iff me.qread_lt, isEmpty, beq_iff_eq,
    eq_comm]

/-- **Get**: the oldest pbuf, or `NULL` from an empty queue, which stays as it is. -/
theorem get_spec (me : PbufQueue n β) :
    (me.contents = [] ∧ me.get = (none, me)) ∨
      ∃ p rest, me.contents = p :: rest ∧ me.get.1 = some p ∧ me.get.2.contents = rest := by
  by_cases hempty : me.qwrite = me.qread
  · refine .inl ⟨(isEmpty_iff me).mp (by simp [isEmpty, hempty]), ?_⟩
    simp [get, hempty]
  · have hitems := Ring.items_pop me.ring me.qread_lt me.qwrite_lt (Ne.symm hempty)
    have hcontents := me.map_some_contents
    have hnonempty : me.contents ≠ [] := fun h => hempty (by simpa [isEmpty] using (isEmpty_iff me).mpr h)
    obtain ⟨p, rest, hcons⟩ := List.exists_cons_of_ne_nil hnonempty
    rw [hitems, hcons, List.map_cons] at hcontents
    obtain ⟨hhead, htail⟩ := List.cons.inj hcontents
    have hget : me.get.2.contents.map some = rest.map some := by
      rw [map_some_contents, htail]
      simp [get, hempty, bump_eq_next me.qread_lt]
    refine .inr ⟨p, rest, hcons, ?_, List.map_injective_iff.mpr (Option.some_injective β) hget⟩
    simp [get, hempty, ← hhead]

/-- **Put**: the pbuf goes to the end, or the queue holds `TX_PBUF_QUEUE_LEN - 1` pbufs and only `overflow`
    changes. -/
theorem put_spec (me : PbufQueue n β) (p : β) :
    (me.contents.length < n.len - 1 ∧ (me.put p).1 = 1 ∧ (me.put p).2.contents = me.contents ++ [p]) ∨
      (me.contents.length = n.len - 1 ∧ me.put p = (0, { me with overflow := toU8 (me.overflow + 1) })) := by
  have hcount := Ring.count_lt me.qread_lt me.qwrite_lt
  have hfull := Ring.next_eq_iff_full me.qread_lt me.qwrite_lt
  rw [contents_length]
  by_cases hroom : bump n me.qwrite ≠ me.qread
  · have hnext : Ring.next n.len me.qwrite ≠ me.qread := by rwa [← bump_eq_next me.qwrite_lt]
    refine .inl ⟨?_, by simp [put, hroom], ?_⟩
    · have hne : Ring.count n.len me.qread me.qwrite ≠ n.len - 1 := mt hfull.mpr hnext
      omega
    · have hput : (me.put p).2.contents.map some = (me.contents ++ [p]).map some := by
        rw [map_some_contents, List.map_append, map_some_contents, List.map_singleton,
          ← Ring.items_push me.ring (some p) me.qread_lt me.qwrite_lt hnext]
        unfold put
        rw [dif_pos hroom]
        simp only [bump_eq_next me.qwrite_lt]
      exact List.map_injective_iff.mpr (Option.some_injective β) hput
  · refine .inr ⟨hfull.mp ?_, by simp [put, hroom]⟩
    rw [← bump_eq_next me.qwrite_lt]
    exact not_not.mp hroom

end PbufQueue

end ThirdParty.Eth
