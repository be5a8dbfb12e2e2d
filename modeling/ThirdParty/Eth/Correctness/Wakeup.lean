import ThirdParty.Lib.Run
import ThirdParty.Eth.Driver

/-!
# `Eth.Correctness.Wakeup` — a queued pbuf does not wait for other traffic

While a pbuf is in the transmit queue, or on its way there, the transmitter is busy, or its end is still latched in
`RIS`, or the event for it is on its way to `eth_driver_write`. `eth_driver_read` may take the transmitter that the
event was posted for; what it starts then is the next wake-up.
-/

namespace ThirdParty.Eth

open Lib Lwip

/-- The MAC's interrupts are masked. -/
def Phase.masked {β : Type*} : Phase β → Bool
  | .reset | .start => true
  | _ => false

/-- An update of `IM` is due or going on. -/
def Phase.updates {β : Type*} : Phase β → Bool
  | .start | .unmaskRxof | .unmask => true
  | _ => false

variable {β : Type*} {n : RingSize}

namespace Driver

/-- A `TX_READY` event is posted, or the `eth_driver_write` for it has not returned. -/
def TxReadyOutstanding (s : Driver n β) : Prop := .txReady ∈ s.evq ∨ s.phase = .write

/-- A wake-up of the transmit queue is certain. -/
def Awaited (s : Driver n β) : Prop := s.newtx = true ∨ s.ris.tx = true ∨ s.TxReadyOutstanding

/-- A pbuf is in the queue, or `ethernetif_output` has decided to put one there. -/
def Waiting (s : Driver n β) : Prop := s.txq.contents ≠ [] ∨ ∃ p, s.pending = some (.put p)

/-- TX is unmasked for good by the end of `eth_driver_init`, whatever value of `IM` the active object holds between
    a load and its store; the handler runs and the queue is emptied after that only, and what is queued is
    awaited. -/
structure WakeupInv (s : Driver n β) : Prop where
  masked   : s.phase.masked = true → s.im = .zero ∧ s.isr = none
  unmasked : s.phase.masked = false → s.im.tx = true
  loaded   : ∀ im next, s.pending = some (.store im next) → im.tx = true ∧ next.masked = false ∧ s.phase ≠ .write
  queue    : ∀ p, s.pending = some (.transmit p true) → s.phase.masked = false
  awaited  : s.Waiting → s.Awaited

theorem wakeupInv_init (ring : Nat → Option β) : WakeupInv (init ring : Driver n β) where
  masked   := fun _ => ⟨rfl, rfl⟩
  unmasked := fun h => by cases h
  loaded   := fun _ _ h => by cases h
  queue    := fun _ h => by cases h
  awaited  := by rintro (h | ⟨p, hp⟩) <;> simp [init] at *

variable {linkStats : Bool} {s s' : Driver n β}

/-- The handler runs with TX unmasked only. -/
theorem WakeupInv.tx_of_isr (h : WakeupInv s) {stat : Irq} (hisr : s.isr = some stat) : s.im.tx = true := by
  refine h.unmasked (Bool.eq_false_iff.mpr fun hmasked => ?_)
  simp [(h.masked hmasked).2] at hisr

/-- **The acknowledgement does not lose the end of a transmission**: it is TX unmasked, hence posted. -/
theorem wakeupInv_ethernetIRQHandler (h : WakeupInv s) {stat : Irq} (hisr : s.isr = some stat) :
    WakeupInv (ethernetIRQHandler linkStats s stat) := by
  have htx := h.tx_of_isr hisr
  refine ⟨fun hmasked => ?_, fun _ => htx, h.loaded, h.queue, fun hwaiting => ?_⟩
  · simp [(h.masked hmasked).2] at hisr
  · rcases h.awaited hwaiting with hnewtx | hris | hevq | hphase
    · exact .inl hnewtx
    · cases hstat : stat.tx with
      | true => exact .inr (.inr (.inl (by simp [ethernetIRQHandler, Irq.and, Irq.zipWith, hstat, htx])))
      | false => exact .inr (.inl (by simp [ethernetIRQHandler, Irq.clear, Irq.zipWith, hstat, hris]))
    · exact .inr (.inr (.inl (by simp [ethernetIRQHandler, hevq])))
    · exact .inr (.inr (.inr hphase))

theorem wakeupInv_ethernetifOutput (h : WakeupInv s) (p : β) : WakeupInv (s.ethernetifOutput p) := by
  unfold ethernetifOutput
  split
  · next hfree =>
      rw [Bool.and_eq_true, PbufQueue.isEmpty_iff] at hfree
      refine ⟨h.masked, h.unmasked, fun _ _ hq => (by simp at hq), fun _ hq => (by simp at hq), ?_⟩
      rintro (hcontents | ⟨q, hq⟩)
      · exact absurd hfree.1 hcontents
      · cases hq
  · next hbusy =>
      refine ⟨h.masked, h.unmasked, fun _ _ hq => (by simp at hq), fun _ hq => (by simp at hq), fun _ => ?_⟩
      by_cases hcontents : s.txq.contents = []
      · -- the transmitter is busy
        rw [(PbufQueue.isEmpty_iff _).mpr hcontents] at hbusy
        exact .inl (by simpa using hbusy)
      · exact h.awaited (.inl hcontents)

/-- `eth_driver_read` and `eth_driver_write` leave pbufs in the queue only behind a transmission. -/
theorem wakeupInv_outputQueued (h : WakeupInv s) (hpending : s.pending = none) (hphase : s.phase.masked = false) :
    WakeupInv s.outputQueued := by
  have hafter : (afterOutput s.phase).masked = false := by
    revert hphase
    cases s.phase <;> simp [afterOutput, Phase.masked]
  unfold outputQueued
  split
  · next hnewtx =>
      exact ⟨fun hm => by simp [hafter] at hm, fun _ => h.unmasked hphase, fun _ _ hq => by simp [hpending] at hq,
        fun _ _ => hafter, fun _ => .inl hnewtx⟩
  · rcases s.txq.get_spec with ⟨hempty, hget⟩ | ⟨p, rest, hcons, hget, hrest⟩
    · simp only [hget]
      refine ⟨fun hm => by simp [hafter] at hm, fun _ => h.unmasked hphase, fun _ _ hq => by simp [hpending] at hq,
        fun _ _ => hafter, ?_⟩
      rintro (hcontents | ⟨q, hq⟩)
      · exact absurd hempty hcontents
      · simp [hpending] at hq
    · simp only [hget]
      exact ⟨h.masked, h.unmasked, fun _ _ hq => by simp at hq, fun _ _ => hphase,
        fun _ => h.awaited (.inl (by simp [hcons]))⟩

/-- Outside of `eth_driver_write` the wake-up does not depend on what the active object does. -/
theorem Awaited.of_ne_write (h : s.Awaited) (hphase : s.phase ≠ .write) (hnewtx : s'.newtx = s.newtx)
    (hris : s'.ris = s.ris) (hevq : s'.evq = s.evq) : s'.Awaited := by
  rcases h with h | h | h | h
  · exact .inl (hnewtx ▸ h)
  · exact .inr (.inl (hris ▸ h))
  · exact .inr (.inr (.inl (hevq ▸ h)))
  · exact absurd h hphase

/-- The active object moves on, but not in `eth_driver_write` and not in the queue. -/
theorem WakeupInv.move (h : WakeupInv s) (hphase : s.phase ≠ .write) (hmasked : s'.phase.masked = false)
    (htx : s'.im.tx = true) (hpending : s'.pending = none) (hcontents : s'.txq = s.txq)
    (hnewtx : s'.newtx = s.newtx) (hris : s'.ris = s.ris) (hevq : s'.evq = s.evq) : WakeupInv s' where
  masked   := fun hm => by simp [hmasked] at hm
  unmasked := fun _ => htx
  loaded   := fun _ _ hq => by simp [hpending] at hq
  queue    := fun _ _ => hmasked
  awaited  := by
    rintro (hw | ⟨p, hp⟩)
    · exact (h.awaited (.inl (hcontents ▸ hw))).of_ne_write hphase hnewtx hris hevq
    · simp [hpending] at hp

/-- `IM` is loaded, with TX set already or by this update. -/
theorem wakeupInv_loadIM (h : WakeupInv s) {bits : Irq} {next : Phase β} (htx : (s.im.or bits).tx = true)
    (hmasked : next.masked = false) (hphase : s.phase ≠ .write) : WakeupInv (s.loadIM bits next) := by
  refine ⟨h.masked, h.unmasked, fun im nxt hq => ?_, fun _ hq => by simp [loadIM] at hq, ?_⟩
  · simp only [loadIM, Option.some.injEq, Pending.store.injEq] at hq
    obtain ⟨rfl, rfl⟩ := hq
    exact ⟨htx, hmasked, hphase⟩
  · rintro (hw | ⟨p, hp⟩)
    · exact h.awaited (.inl hw)
    · simp [loadIM] at hp

variable [DecidableEq β] {a : Action β}

theorem wakeupInv_finish (h : WakeupInv s) {x : Pending β} (hpending : s.pending = some x) :
    WakeupInv (s.finish x) := by
  match x with
  | .transmit p false =>
      exact ⟨h.masked, h.unmasked, fun _ _ hq => by simp [finish] at hq, fun _ hq => by simp [finish] at hq,
        fun _ => .inl rfl⟩
  | .transmit p true =>
      have hphase := h.queue p hpending
      refine ⟨fun hmasked => ?_, fun _ => h.unmasked hphase, fun _ _ hq => by simp [finish] at hq,
        fun _ hq => by simp [finish] at hq, fun _ => .inl rfl⟩
      revert hmasked hphase
      simp only [finish, lowLevelTransmit]
      cases s.phase <;> simp [afterOutput, Phase.masked]
  | .put p =>
      have hawaited := h.awaited (.inr ⟨p, hpending⟩)
      simp only [finish]
      split <;>
        exact ⟨h.masked, h.unmasked, fun _ _ hq => by simp at hq, fun _ hq => by simp at hq, fun _ => hawaited⟩
  | .store im next =>
      obtain ⟨htx, hmasked, hphase⟩ := h.loaded im next hpending
      exact h.move hphase hmasked htx rfl rfl rfl rfl rfl

/-- **Every step keeps the wake-up.** -/
theorem wakeupInv_step (h : WakeupInv s) (hstep : step linkStats s a = some s') : WakeupInv s' := by
  cases step_cases hstep with
  | arrive | alloc | ref | free | cat => exact ⟨h.masked, h.unmasked, h.loaded, h.queue, h.awaited⟩
  | isrEnter hout henabled =>
      -- no source is enabled while all are masked
      refine ⟨fun hmasked => absurd ?_ henabled, h.unmasked, h.loaded, h.queue, h.awaited⟩
      rw [(h.masked hmasked).1]
      simp [Irq.and, Irq.zipWith, Irq.zero]
  | complete hbusy => exact ⟨h.masked, h.unmasked, h.loaded, h.queue, fun _ => .inr (.inl rfl)⟩
  | latch i =>
      refine ⟨h.masked, h.unmasked, h.loaded, h.queue, fun hwaiting => ?_⟩
      simpa [Awaited, TxReadyOutstanding, Irq.or, Irq.zipWith] using h.awaited hwaiting
  | isrExit hisr => exact wakeupInv_ethernetIRQHandler h hisr
  | output hstack hheld => exact wakeupInv_ethernetifOutput h _
  | finish hout hpending => exact wakeupInv_finish h hpending
  | resetFifo hat =>
      obtain ⟨-, hpending, hphase⟩ := hat
      refine ⟨fun _ => h.masked (by rw [hphase]; rfl), fun hm => (by cases hm), fun _ _ hq => ?_, fun _ hq => ?_,
        fun hwaiting => ?_⟩
      · simp [hpending] at hq
      · simp [hpending] at hq
      · exact (h.awaited hwaiting).of_ne_write (by simp [hphase]) rfl rfl rfl
  | unmaskRxTx hat =>
      obtain ⟨-, -, hphase⟩ := hat
      have hmasked : (if linkStats then Phase.unmaskRxof else .idle : Phase β).masked = false := by
        cases linkStats <;> rfl
      exact wakeupInv_loadIM h (by simp [Irq.or, Irq.zipWith, Irq.rxTx]) hmasked (by simp [hphase])
  | unmaskRxof hat | unmaskRx hat =>
      obtain ⟨-, -, hphase⟩ := hat
      have htx := h.unmasked (by rw [hphase]; rfl)
      exact wakeupInv_loadIM h (by simp [Irq.or, Irq.zipWith, htx]) rfl (by simp [hphase])
  | @dispatch e evq hat hevq =>
      obtain ⟨-, hpending, hphase⟩ := hat
      have hmasked : (entry e : Phase β).masked = false := by cases e <;> rfl
      refine ⟨fun hm => by simp [hmasked] at hm, fun _ => h.unmasked (by rw [hphase]; rfl),
        fun _ _ hq => by simp [hpending] at hq, fun _ _ => hmasked, fun hwaiting => ?_⟩
      rcases h.awaited hwaiting with hnewtx | hris | htx | hwrite
      · exact .inl hnewtx
      · exact .inr (.inl hris)
      · -- the event is dispatched now or stays in the queue
        rw [hevq] at htx
        rcases List.mem_cons.mp htx with rfl | htx
        · exact .inr (.inr (.inr rfl))
        · exact .inr (.inr (.inl htx))
      · simp [hphase] at hwrite
  | receive hat hfree =>
      obtain ⟨-, hpending, hphase⟩ := hat
      have htx := h.unmasked (by rw [hphase]; rfl)
      have hne : s.phase ≠ .write := by simp [hphase]
      unfold lowLevelReceive
      split
      · exact h.move hne rfl htx hpending rfl rfl rfl rfl
      · split <;> exact h.move hne rfl htx hpending rfl rfl rfl rfl
  | @inputDone p handled hpending hphase hheld =>
      have htx := h.unmasked (by rw [hphase]; rfl)
      cases handled <;> exact h.move (by simp [hphase]) rfl htx hpending rfl rfl rfl rfl
  | outputQueued hat =>
      rcases hat with ⟨-, hpending, hphase⟩ | ⟨-, hpending, hphase⟩ <;>
        exact wakeupInv_outputQueued h hpending (by rw [hphase]; rfl)

/-- **No lost transmit wake-up**: as long as a pbuf is queued the transmitter is busy, or `RIS.TX` is latched, or a
    `TX_READY` event is outstanding; and the TX interrupt stays unmasked once `eth_driver_init` has set `IM`. -/
theorem tx_wakeup_not_lost {ring : Nat → Option β} {tr : List (Driver n β × Action β)}
    (hrun : Run (step linkStats) (init ring) tr s) :
    (s.txq.contents ≠ [] → s.newtx = true ∨ s.ris.tx = true ∨ s.TxReadyOutstanding) ∧
      (s.phase.masked = false → s.im.tx = true) := by
  have hinv : WakeupInv s := hrun.invariant (wakeupInv_init ring) wakeupInv_step
  exact ⟨fun hcontents => hinv.awaited (.inl hcontents), hinv.unmasked⟩

end Driver

/-! One pbuf is sent while the interface goes up, another one queued; the first transmission ends with the
interrupts still masked. -/

def queuedInInit : List (Driver.Action Nat) :=
  [.resetFifo, .alloc 7 [], .output 7, .finish, .output 7, .finish, .complete]

theorem tx_wakeup_not_lost_in_init :
    ∃ tr, ∃ s : Driver .standard Nat, Run (Driver.step false) (Driver.init fun _ => none) tr s ∧
      s.txq.contents = [7] ∧ (s.newtx = true ∨ s.ris.tx = true ∨ s.TxReadyOutstanding) := by
  have hex : (runActions (Driver.step false) (Driver.init (fun _ => none) : Driver .standard Nat) queuedInInit).map
      (fun s => s.txq.contents) = some [7] := by decide +kernel
  obtain ⟨s, hs, hcontents⟩ := Option.map_eq_some_iff.mp hex
  obtain ⟨tr, hrun, -⟩ := Run.of_runActions hs
  exact ⟨tr, s, hrun, hcontents, (Driver.tx_wakeup_not_lost hrun).1 (by simp [hcontents])⟩

end ThirdParty.Eth
