import ThirdParty.Eth.PbufQueue
import ThirdParty.Lib.Transducer

/-!
# `Eth.Correctness.TxRing` — the transmit ring is a bounded FIFO

A list with a capacity is what the ring is for: `fifoCall`. Any sequence of `PbufQueue_put` and `PbufQueue_get` returns
what the list returns, and leaves in the ring what is in the list; `contents` is the abstraction function. The C++ port
of the driver has the same ring.
-/

namespace ThirdParty.Eth

open Lib

/-- A call on the queue. -/
inductive QueueCall (β : Type*) where
  | put (p : β)
  | get

/-- What a call returns: the `uint8_t` of `PbufQueue_put`, or the pointer of `PbufQueue_get`, `none` for `NULL`. -/
inductive QueueResult (β : Type*) where
  | posted (r : Nat)
  | taken (p : Option β)

variable {β : Type*} {n : RingSize}

/-- The ring after a call, and what the call returns. -/
def PbufQueue.call (me : PbufQueue n β) : QueueCall β → PbufQueue n β × List (QueueResult β)
  | .put p => ((me.put p).2, [.posted (me.put p).1])
  | .get   => (me.get.2, [.taken me.get.1])

/-- The same for a FIFO list of capacity `cap`. -/
def fifoCall (cap : Nat) (q : List β) : QueueCall β → List β × List (QueueResult β)
  | .put p => if q.length < cap then (q ++ [p], [.posted 1]) else (q, [.posted 0])
  | .get   => (q.tail, [.taken q.head?])

/-- Where a sequence of calls leads from `PbufQueue_ctor`, and what it returns. -/
def PbufQueue.calls (n : RingSize) (ring : Nat → Option β) (as : List (QueueCall β)) :
    PbufQueue n β × List (QueueResult β) :=
  transduce PbufQueue.call (PbufQueue.ctor ring) as

def fifoCalls (cap : Nat) (as : List (QueueCall β)) : List β × List (QueueResult β) := transduce (fifoCall cap) [] as

namespace PbufQueue

/-- **One call** does to the contents what it does to the list. -/
theorem call_contents (me : PbufQueue n β) (a : QueueCall β) :
    (me.call a).1.contents = (fifoCall (n.len - 1) me.contents a).1 ∧
    (me.call a).2 = (fifoCall (n.len - 1) me.contents a).2 := by
  cases a with
  | put p =>
      simp only [call, fifoCall]
      rcases me.put_spec p with ⟨hroom, hres, hput⟩ | ⟨hfull, hput⟩
      · rw [if_pos hroom, hres]
        exact ⟨hput, rfl⟩
      · rw [if_neg (by omega), hput]
        exact ⟨rfl, rfl⟩
  | get =>
      simp only [call, fifoCall]
      rcases me.get_spec with ⟨hempty, hget⟩ | ⟨p, rest, hcons, hres, hrest⟩
      · rw [hget, hempty]
        exact ⟨rfl, rfl⟩
      · rw [hcons, hres]
        exact ⟨hrest, rfl⟩

end PbufQueue

/-- **The transmit ring refines a bounded FIFO.** For every ring size and every sequence of calls from
    `PbufQueue_ctor`: the results are those of a FIFO list that holds one pbuf less than the ring has cells, the ring
    holds what the list holds, and both indices stay inside the ring. A call that is refused changes nothing but the
    overflow count, and a call that finds the ring empty changes nothing. -/
theorem tx_ring_refines_fifo (n : RingSize) (ring : Nat → Option β) (as : List (QueueCall β)) :
    (PbufQueue.calls n ring as).2 = (fifoCalls (n.len - 1) as).2 ∧
    (PbufQueue.calls n ring as).1.contents = (fifoCalls (n.len - 1) as).1 ∧
    (fifoCalls (n.len - 1) as).1.length ≤ n.len - 1 ∧
    (PbufQueue.calls n ring as).1.qwrite < n.len ∧ (PbufQueue.calls n ring as).1.qread < n.len ∧
    (∀ p, ¬(fifoCalls (n.len - 1) as).1.length < n.len - 1 → (PbufQueue.calls n ring as).1.put p =
      (0, { (PbufQueue.calls n ring as).1 with overflow := toU8 ((PbufQueue.calls n ring as).1.overflow + 1) })) ∧
    ((fifoCalls (n.len - 1) as).1 = [] →
      (PbufQueue.calls n ring as).1.get = (none, (PbufQueue.calls n ring as).1)) := by
  have hstart : (PbufQueue.ctor ring : PbufQueue n β).contents = [] := PbufQueue.contents_ctor ring
  obtain ⟨hcontents, hresults⟩ : (PbufQueue.calls n ring as).1.contents = (fifoCalls (n.len - 1) as).1 ∧
      (PbufQueue.calls n ring as).2 = (fifoCalls (n.len - 1) as).2 := by
    -- `contents` is the simulation relation, kept by each call
    refine transduce_simulates PbufQueue.call (R := fun me q => me.contents = q) ?_ as hstart
    intro me q a hR
    subst hR
    exact me.call_contents a
  generalize PbufQueue.calls n ring as = r at hcontents hresults
  obtain ⟨me, results⟩ := r
  simp only at hcontents hresults ⊢
  rw [← hcontents]
  refine ⟨hresults, rfl, ?_, me.qwrite_lt, me.qread_lt, fun p hfull => ?_, fun hempty => ?_⟩
  · have hcount := Ring.count_lt me.qread_lt me.qwrite_lt
    rw [me.contents_length]
    omega
  · rcases me.put_spec p with ⟨hroom, -⟩ | ⟨-, hput⟩
    · exact absurd hroom hfull
    · exact hput
  · rcases me.get_spec with ⟨-, hget⟩ | ⟨p, rest, hcons, -⟩
    · exact hget
    · exact absurd (hempty.symm.trans hcons) (List.cons_ne_nil p rest).symm

end ThirdParty.Eth
