import ThirdParty.Lib.Run
import ThirdParty.Eth.Driver

/-!
# `Eth.Correctness.Transmit` — transmission is exactly-once and in order

`FifoInv` ties the direct path of `ethernetif_output` to the queued one: what was written to the FIFO and what is
still queued is what `ethernetif_output` accepted, in that order, and the queue accounts for one pointer to each
pbuf in it. The direct path is open only while nothing is queued, so it cannot overtake.
-/

namespace ThirdParty.Eth

open Lib Lwip

variable {β : Type*} {n : RingSize}

namespace Driver

/-- The pbuf on its way from the queue to the FIFO. -/
def inTransmit : Option (Pending β) → List β
  | some (.transmit p true) => [p]
  | _ => []

/-- The pbufs to which the driver has a pointer. -/
def queued (s : Driver n β) : List β := inTransmit s.pending ++ s.txq.contents

/-- The pbufs for which `ethernetif_output` returned `ERR_OK`, in the order of the calls. -/
def outputs (returns : List (β × Err)) : List β := (returns.filter fun r => r.2 = .ok).map Prod.fst

@[simp] theorem outputs_append_ok (returns : List (β × Err)) (p : β) :
    outputs (returns ++ [(p, .ok)]) = outputs returns ++ [p] := by
  simp [outputs]

@[simp] theorem outputs_append_mem (returns : List (β × Err)) (p : β) :
    outputs (returns ++ [(p, .mem)]) = outputs returns := by
  simp [outputs]

/-- The active object's part of the state is the same. -/
structure SameObject (s s' : Driver n β) : Prop where
  txq     : s'.txq = s.txq
  pbufs   : s'.pbufs = s.pbufs
  phase   : s'.phase = s.phase
  pending : s'.pending = s.pending
  sent    : s'.sent = s.sent
  returns : s'.returns = s.returns

theorem SameObject.refl (s : Driver n β) : SameObject s s := ⟨rfl, rfl, rfl, rfl, rfl, rfl⟩

theorem SameObject.trans {s s' s'' : Driver n β} (h : SameObject s s') (h' : SameObject s' s'') : SameObject s s'' :=
  ⟨h'.txq.trans h.txq, h'.pbufs.trans h.pbufs, h'.phase.trans h.phase, h'.pending.trans h.pending,
    h'.sent.trans h.sent, h'.returns.trans h.returns⟩

variable [DecidableEq β] {linkStats : Bool} {s s' : Driver n β} {a : Action β}

/-- The pointers to a pbuf outside of the driver: those of the stack and the `next` pointers. -/
def outside (s : Driver n β) (q : β) : Nat := s.held q + pointersTo s.pbufs.links q

/-- The accounts of transmission. -/
structure FifoInv (s : Driver n β) : Prop where
  refs    : s.pbufs.Balanced fun q => s.held q + s.queued.count q
  order   : s.sent.map Prod.fst ++ s.queued = outputs s.returns
  entered : ∀ e ∈ s.sent, e.2 = false
  clear   : ∀ p b, s.pending = some (.transmit p b) → s.newtx = false
  direct  : ∀ p, s.pending = some (.transmit p false) → s.txq.contents = []
  room    : ∀ p, s.pending = some (.put p) → s.pbufs.ref p < 65535

theorem fifoInv_init (ring : Nat → Option β) : FifoInv (init ring : Driver n β) where
  refs    := ⟨fun q => by simp [init, queued, inTransmit, pointersTo], fun _ => Nat.succ_pos _⟩
  order   := by simp [init, queued, inTransmit, outputs]
  entered := by simp [init]
  clear   := by simp [init]
  direct  := by simp [init]
  room    := by simp [init]

/-- The stack changes its own pointers only, and not while a pbuf is put into the queue. -/
theorem FifoInv.of_refs (h : FifoInv s) (hpending : s.pending = none) {pbufs : Pbufs β} {held : β → Nat}
    (hrefs : pbufs.Balanced fun q => held q + s.queued.count q) : FifoInv { s with pbufs, held } :=
  ⟨hrefs, h.order, h.entered, h.clear, h.direct, fun p hp => by simp [hpending] at hp⟩

theorem FifoInv.incr_held (h : FifoInv s) (hpending : s.pending = none) {pbufs : Pbufs β} {p : β}
    (hrefs : pbufs.Balanced (incr (fun q => s.held q + s.queued.count q) p)) :
    FifoInv { s with pbufs, held := incr s.held p } := by
  refine h.of_refs hpending (hrefs.congr fun q => ?_)
  simp only [incr_apply]
  omega

theorem FifoInv.decr_held (h : FifoInv s) (hpending : s.pending = none) {pbufs : Pbufs β} {p : β} (hp : 0 < s.held p)
    (hrefs : pbufs.Balanced (decr (fun q => s.held q + s.queued.count q) p)) :
    FifoInv { s with pbufs, held := decr s.held p } := by
  refine h.of_refs hpending (hrefs.congr fun q => ?_)
  simp only [decr_apply]
  split
  · next hq => subst hq; omega
  · omega

/-! ## The paths through the driver -/

theorem fifoInv_ethernetifOutput (h : FifoInv s) (hpending : s.pending = none) {p : β}
    (hroom : s.pbufs.ref p < 65535) : FifoInv (s.ethernetifOutput p) := by
  have hqueued : s.queued = s.txq.contents := by simp [queued, inTransmit, hpending]
  have hrefs := h.refs
  have horder := h.order
  rw [hqueued] at hrefs horder
  unfold ethernetifOutput
  split
  · next hfree =>
      rw [Bool.and_eq_true, Bool.not_eq_true', PbufQueue.isEmpty_iff] at hfree
      exact ⟨hrefs, horder, h.entered, fun _ _ _ => hfree.2, fun _ _ => hfree.1, fun _ hp => by simp at hp⟩
  · refine ⟨hrefs, horder, h.entered, fun _ _ hp => by simp at hp, fun _ hp => by simp at hp, fun q hq => ?_⟩
    obtain rfl : p = q := by simpa using hq
    exact hroom

theorem fifoInv_outputQueued (h : FifoInv s) (hpending : s.pending = none) : FifoInv s.outputQueued := by
  have hqueued : s.queued = s.txq.contents := by simp [queued, inTransmit, hpending]
  have hrefs := h.refs
  have horder := h.order
  unfold outputQueued
  split
  · exact ⟨h.refs, h.order, h.entered, h.clear, h.direct, h.room⟩
  · next hfree =>
      rcases s.txq.get_spec with ⟨_, hget⟩ | ⟨p, rest, hcons, hget, hrest⟩
      · simp only [hget]
        exact ⟨h.refs, h.order, h.entered, h.clear, h.direct, h.room⟩
      · simp only [hget]
        rw [hqueued, hcons] at hrefs horder
        refine ⟨?_, ?_, h.entered, fun _ _ _ => by simpa using hfree, fun _ hp => by simp at hp,
          fun _ hp => by simp at hp⟩
        · simpa [queued, inTransmit, hrest] using hrefs
        · simpa [queued, inTransmit, hrest] using horder

theorem fifoInv_loadIM (h : FifoInv s) (hpending : s.pending = none) (bits : Irq) (next : Phase β) :
    FifoInv (s.loadIM bits next) := by
  have hqueued : (s.loadIM bits next).queued = s.queued := by simp [loadIM, queued, inTransmit, hpending]
  refine ⟨?_, ?_, h.entered, by simp [loadIM], by simp [loadIM], by simp [loadIM]⟩
  · rw [hqueued]; exact h.refs
  · rw [hqueued]; exact h.order

theorem finish_put_stored {p : β} (h : (s.txq.put p).1 = 1) :
    s.finish (.put p) =
      { s with txq := (s.txq.put p).2, pbufs := s.pbufs.pbufRef p, pending := none
               returns := s.returns ++ [(p, .ok)] } := by
  simp [finish, h]

theorem finish_put_full {p : β} {txq : PbufQueue n β} (h : s.txq.put p = (0, txq)) :
    s.finish (.put p) = { s with txq, pending := none, returns := s.returns ++ [(p, .mem)] } := by
  simp [finish, h]

/-- The end of what was begun: the FIFO or the queue gets the pbuf, or `ERR_MEM` leaves both as they are, or `IM`
    is stored. -/
theorem fifoInv_finish (h : FifoInv s) {x : Pending β} (hpending : s.pending = some x) : FifoInv (s.finish x) := by
  have hrefs := h.refs
  have horder := h.order
  have hentered : ∀ p b, x = .transmit p b → ∀ e ∈ s.sent ++ [(p, s.newtx)], e.2 = false := by
    rintro p b rfl e he
    rcases List.mem_append.mp he with he | he
    · exact h.entered e he
    · rw [List.mem_singleton.mp he]
      exact h.clear p b hpending
  match x with
  -- the reference of the queue is dropped, and the pbuf is at the MAC
  | .transmit p true =>
      have hqueued : s.queued = p :: s.txq.contents := by simp [queued, inTransmit, hpending]
      rw [hqueued] at hrefs horder
      refine ⟨?_, ?_, hentered p true rfl, by simp [finish], by simp [finish], by simp [finish]⟩
      · refine (hrefs.pbufFree (Nat.add_pos_right _ (List.count_pos_iff.mpr List.mem_cons_self))).congr fun q => ?_
        simp only [decr_apply, List.count_cons, beq_iff_eq, eq_comm (a := p), finish, lowLevelTransmit, queued,
          inTransmit, List.nil_append]
        omega
      · simpa [finish, lowLevelTransmit, queued, inTransmit] using horder
  -- a direct transmission: the queue is empty, and the pbuf stays the stack's
  | .transmit p false =>
      have hempty := h.direct p hpending
      have hqueued : s.queued = [] := by simp [queued, inTransmit, hpending, hempty]
      rw [hqueued] at hrefs horder
      refine ⟨?_, ?_, hentered p false rfl, by simp [finish], by simp [finish], by simp [finish]⟩
      · simpa [finish, lowLevelTransmit, queued, inTransmit, hempty] using hrefs
      · simpa [finish, lowLevelTransmit, queued, inTransmit, hempty] using horder
  -- the pbuf is referenced if there was room for it
  | .put p =>
      have hqueued : s.queued = s.txq.contents := by simp [queued, inTransmit, hpending]
      rw [hqueued] at hrefs horder
      rcases s.txq.put_spec p with ⟨_, hstored, hcontents⟩ | ⟨_, hput⟩
      · rw [finish_put_stored hstored]
        refine ⟨?_, ?_, h.entered, by simp, by simp, by simp⟩
        · refine (hrefs.pbufRef (h.room p hpending)).congr fun q => ?_
          simp only [incr_apply, queued, inTransmit, List.nil_append, hcontents, List.count_append,
            List.count_singleton, beq_iff_eq, eq_comm (a := p)]
          omega
        · simp [queued, inTransmit, hcontents, ← horder]
      · rw [finish_put_full hput]
        refine ⟨hrefs, ?_, h.entered, by simp, by simp, by simp⟩
        simpa [queued, inTransmit, PbufQueue.contents] using horder
  | .store im next =>
      have hqueued : s.queued = s.txq.contents := by simp [queued, inTransmit, hpending]
      rw [hqueued] at hrefs horder
      exact ⟨hrefs, horder, h.entered, by simp [finish], by simp [finish], by simp [finish]⟩

theorem fifoInv_lowLevelReceive (h : FifoInv s) (hpending : s.pending = none) {chain : List β}
    (hfree : s.freeChain chain) :
    FifoInv (s.lowLevelReceive chain) := by
  unfold lowLevelReceive
  split
  · exact ⟨h.refs, h.order, h.entered, h.clear, h.direct, h.room⟩
  · cases chain with
    | nil => exact ⟨h.refs, h.order, h.entered, h.clear, h.direct, h.room⟩
    | cons p ps =>
        have h' := h.incr_held hpending (h.refs.pbufAlloc hfree.1 hfree.2)
        exact ⟨h'.refs, h'.order, h'.entered, h'.clear, h'.direct, h'.room⟩

/-- **Every step keeps the accounts.** -/
theorem fifoInv_step (h : FifoInv s) (hstep : step linkStats s a = some s') : FifoInv s' := by
  cases step_cases hstep with
  | arrive | latch | isrEnter | isrExit | resetFifo | dispatch =>
      exact ⟨h.refs, h.order, h.entered, h.clear, h.direct, h.room⟩
  | unmaskRxTx hat | unmaskRxof hat | unmaskRx hat => exact fifoInv_loadIM h hat.2.1 _ _
  | complete hbusy => exact ⟨h.refs, h.order, h.entered, fun _ _ _ => rfl, h.direct, h.room⟩
  | alloc hstack hfree => exact h.incr_held hstack.2.1 (h.refs.pbufAlloc hfree.1 hfree.2)
  | ref hstack hheld hroom => exact h.incr_held hstack.2.1 (h.refs.pbufRef hroom)
  | free hstack hheld => exact h.decr_held hstack.2.1 hheld (h.refs.pbufFree (Nat.add_pos_left hheld _))
  | cat hstack hp hlast hheld =>
      exact h.decr_held hstack.2.1 hheld (h.refs.pbufCat _ (Nat.add_pos_left hheld _))
  | output hstack hheld hroom => exact fifoInv_ethernetifOutput h hstack.2.1 hroom
  | finish hout hpending => exact fifoInv_finish h hpending
  | receive hat hfree => exact fifoInv_lowLevelReceive h hat.2.1 hfree
  | @inputDone p handled hpending hphase hheld =>
      cases handled with
      | true => exact ⟨h.refs, h.order, h.entered, h.clear, h.direct, h.room⟩
      | false =>
          -- the stack did not take the packet
          have h' := h.decr_held hpending (hheld rfl) (h.refs.pbufFree (Nat.add_pos_left (hheld rfl) _))
          exact ⟨h'.refs, h'.order, h'.entered, h'.clear, h'.direct, h'.room⟩
  | outputQueued hat => exact fifoInv_outputQueued h (hat.elim (fun h => h.2.1) fun h => h.2.1)

/-! ## A rejected output

Between the choice of a branch and its end only the MAC and the handler take steps, and these have no access to
what the active object owns. -/

theorem sameObject_step {x : Pending β} (hpending : s.pending = some x) (ha : a ≠ .finish)
    (hstep : step linkStats s a = some s') : SameObject s s' := by
  -- the active object and the stack wait for the branch to end
  have hbusy : s.pending ≠ none := by simp [hpending]
  cases step_cases hstep with
  | arrive | complete | latch | isrEnter | isrExit => exact ⟨rfl, rfl, rfl, rfl, rfl, rfl⟩
  | finish => exact absurd rfl ha
  | alloc hstack | ref hstack | free hstack | cat hstack | output hstack => exact absurd hstack.2.1 hbusy
  | resetFifo hat | unmaskRxTx hat | unmaskRxof hat | dispatch hat | receive hat | unmaskRx hat =>
      exact absurd hat.2.1 hbusy
  | inputDone hnone => exact absurd hnone hbusy
  | outputQueued hat => exact absurd (hat.elim (fun h => h.2.1) fun h => h.2.1) hbusy

theorem sameObject_run {mid : List (Driver n β × Action β)} (hrun : Run (step linkStats) s mid s') {x : Pending β}
    (hpending : s.pending = some x) (hmid : ∀ sa ∈ mid, sa.2 ≠ .finish) : SameObject s s' := by
  induction hrun with
  | nil => exact .refl s
  | @snoc tr t t' a _ hstep ih =>
      have hbefore := ih fun sa hsa => hmid sa (List.mem_append_left _ hsa)
      have ha : a ≠ .finish := hmid (t, a) (List.mem_append_right _ (List.mem_singleton_self _))
      exact hbefore.trans (sameObject_step (hbefore.pending.trans hpending) ha hstep)

/-- **`ERR_MEM` changes nothing** but the overflow count: a call of `ethernetif_output`, from its choice in `s` to
    its return in `s'`, whatever the MAC and the handler do in between. -/
theorem output_err_mem {mid : List (Driver n β × Action β)} {s₁ s₂ : Driver n β} {p : β}
    (hcall : step linkStats s (.output p) = some s₁) (hmid : Run (step linkStats) s₁ mid s₂)
    (hopen : ∀ sa ∈ mid, sa.2 ≠ .finish) (hreturn : step linkStats s₂ .finish = some s')
    (hmem : s'.returns = s₂.returns ++ [(p, .mem)]) :
    (∃ k, s'.txq = { s.txq with overflow := k }) ∧ s'.pbufs = s.pbufs ∧ s'.sent = s.sent := by
  simp only [step, Option.ite_none_right_eq_some, Option.some.injEq, Option.map_eq_some_iff] at hcall hreturn
  obtain ⟨-, rfl⟩ := hcall
  obtain ⟨-, x, hx, rfl⟩ := hreturn
  unfold ethernetifOutput at hmid
  split at hmid
  · -- the direct path ends with `ERR_OK`
    have hsame := sameObject_run hmid rfl hopen
    obtain rfl := Option.some.inj (hsame.pending.symm.trans hx)
    simp [finish] at hmem
  · have hsame := sameObject_run hmid rfl hopen
    obtain rfl := Option.some.inj (hsame.pending.symm.trans hx)
    rcases s₂.txq.put_spec p with ⟨_, hstored, -⟩ | ⟨_, hput⟩
    · rw [finish_put_stored hstored] at hmem
      simp at hmem
    · rw [finish_put_full hput]
      refine ⟨⟨toU8 (s₂.txq.overflow + 1), ?_⟩, hsame.pbufs, hsame.sent⟩
      simp only [hsame.txq]

/-! ## Every run -/

/-- What an observer of the driver sees at every moment: no transmission starts while another one is going on; the
    pbufs written to the FIFO, then the one that is being moved there, then the queue are those accepted, in
    order; the reference counts are exact, so that no queued pbuf is free; a rejected output changes nothing. -/
structure ExactlyOnce (linkStats : Bool) (s : Driver n β) : Prop where
  entered   : ∀ e ∈ s.sent, e.2 = false
  inOrder   : s.sent.map Prod.fst ++ inTransmit s.pending ++ s.txq.contents = outputs s.returns
  refs      : ∀ q, s.pbufs.ref q = s.outside q + (inTransmit s.pending).count q + s.txq.contents.count q
  allocated : ∀ q ∈ s.txq.contents, 0 < s.pbufs.ref q
  rejected  : ∀ p s₁ mid s₂ s', step linkStats s (.output p) = some s₁ → Run (step linkStats) s₁ mid s₂ →
    (∀ sa ∈ mid, sa.2 ≠ .finish) → step linkStats s₂ .finish = some s' →
    s'.returns = s₂.returns ++ [(p, .mem)] →
    (∃ k, s'.txq = { s.txq with overflow := k }) ∧ s'.pbufs = s.pbufs ∧ s'.sent = s.sent

theorem FifoInv.exactlyOnce (h : FifoInv s) : ExactlyOnce linkStats s where
  entered   := h.entered
  inOrder   := by rw [List.append_assoc]; exact h.order
  refs      := by
    intro q
    have hq := h.refs.exact q
    simp only [queued, List.count_append] at hq
    rw [hq, outside]
    omega
  allocated := by
    intro q hq
    have hcount : 0 < s.queued.count q := List.count_pos_iff.mpr (List.mem_append_right _ hq)
    have hrefs := h.refs.exact q
    omega
  rejected  := fun _ _ _ _ _ hcall hmid hopen hreturn hmem => output_err_mem hcall hmid hopen hreturn hmem

/-- **Transmission is exactly-once and FIFO**, for every ring size and in every interleaving of the stack, the
    driver functions, the interrupt handler and the MAC. -/
theorem transmit_exactly_once {ring : Nat → Option β} {tr : List (Driver n β × Action β)}
    (hrun : Run (step linkStats) (init ring) tr s) : ExactlyOnce linkStats s :=
  FifoInv.exactlyOnce (hrun.invariant (fifoInv_init ring) fifoInv_step)

end Driver

/-! A ring of two cells while the interface goes up: the pbuf is sent, queued by a retransmission and rejected. -/

def smallRing : RingSize := ⟨2, by decide, by decide⟩

def thrice : List (Driver.Action Nat) :=
  [.resetFifo, .alloc 7 [], .output 7, .finish, .output 7, .finish, .output 7, .finish]

theorem transmit_exactly_once_thrice :
    ∃ tr s, Run (Driver.step false) (Driver.init (fun _ => none) : Driver smallRing Nat) tr s ∧
      s.returns = [(7, .ok), (7, .ok), (7, .mem)] ∧ Driver.ExactlyOnce false s := by
  have hex : (runActions (Driver.step false) (Driver.init (fun _ => none) : Driver smallRing Nat) thrice).map
      (fun s => s.returns) = some [(7, .ok), (7, .ok), (7, .mem)] := by decide +kernel
  obtain ⟨s, hs, hreturns⟩ := Option.map_eq_some_iff.mp hex
  obtain ⟨tr, hrun, -⟩ := Run.of_runActions hs
  exact ⟨tr, s, hrun, hreturns, Driver.transmit_exactly_once hrun⟩

end ThirdParty.Eth
