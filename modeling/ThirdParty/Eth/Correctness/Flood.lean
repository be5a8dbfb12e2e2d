import ThirdParty.Lib.Pacing
import ThirdParty.Eth.Correctness.Handshake

/-!
# `Eth.Correctness.Flood` — how many driver events can wait

Received frames are throttled by the handshake, as long as no update of `IM` is lost: there is never more than one
`RX_READY` event. The other two sources are not. The stack may start a transmission while the event for the last
one still waits, and RX overruns are acknowledged and posted without being masked. So the event queue grows without
bound, with either source. At most one event for each signal waits exactly in the runs where what the MAC latches
after an acknowledgement is acknowledged only when the event of the first has been dispatched.
-/

namespace ThirdParty.Eth

open Lib Lwip

variable {β : Type*} {n : RingSize}

/-- The source of an event. -/
def Signal.source : Signal → Irq → Bool
  | .rxReady,   i => i.rx
  | .txReady,   i => i.tx
  | .rxOverrun, i => i.rxof

namespace Driver

/-- At most one event for each signal is posted and not dispatched. -/
def AtMostOneEach (s : Driver n β) : Prop := ∀ e, s.evq.count e ≤ 1

/-- The MAC latches the source of `e`: a frame is received, a transmission ends, the receiver overruns. -/
def Latches (e : Signal) (sa : Driver n β × Action β) : Prop :=
  match e, sa.2 with
  | .rxReady,   .arrive   => True
  | .txReady,   .complete => True
  | .rxOverrun, .latch i  => i.rxof = true
  | _,          _         => False

/-- The handler acknowledges the source of `e`, which is enabled. -/
def Acknowledges (linkStats : Bool) (e : Signal) (sa : Driver n β × Action β) : Prop :=
  sa.2 = .isrExit ∧ sa.1.isr.any (fun stat => finds linkStats sa.1 stat e) = true

/-- The active object dispatches an event `e`. -/
def Dispatches (e : Signal) (sa : Driver n β × Action β) : Prop := sa.2 = .dispatch ∧ sa.1.evq.head? = some e

instance [DecidableEq β] (linkStats : Bool) (e : Signal) :
    DecidablePred (Acknowledges linkStats e : Driver n β × Action β → Prop) := fun sa =>
  inferInstanceAs (Decidable (sa.2 = .isrExit ∧ sa.1.isr.any (fun stat => finds linkStats sa.1 stat e) = true))

instance [DecidableEq β] (e : Signal) : DecidablePred (Dispatches e : Driver n β × Action β → Prop) := fun sa =>
  inferInstanceAs (Decidable (sa.2 = .dispatch ∧ sa.1.evq.head? = some e))

/-- **The MAC and the stack leave the active object time**: a transmission that ends after the end of another one
    was acknowledged is not acknowledged before `eth_driver_write` was called for the first, nor an overrun before
    the event of the overrun acknowledged before it was dispatched. For frames the mask sees to that, unless the
    handler runs in the middle of `ETH->IM |= ETH_INT_RXOF`. -/
structure Paced (linkStats : Bool) (tr : List (Driver n β × Action β)) : Prop where
  transmissions : Spaced (Acknowledges linkStats .txReady) (Latches .txReady) (Dispatches .txReady) tr
  overruns      : Spaced (Acknowledges linkStats .rxOverrun) (Latches .rxOverrun) (Dispatches .rxOverrun) tr
  frames        : (∃ sa ∈ tr, sa.1.LostUpdate sa.2) →
    Spaced (Acknowledges linkStats .rxReady) (Latches .rxReady) (Dispatches .rxReady) tr

variable [DecidableEq β] {linkStats : Bool} {s s' : Driver n β} {a : Action β}

/-! ## The count of one event -/

/-- The steps of the active object and of the stack leave `RIS` and the handler alone, and the events but for the
    one that is dispatched. -/
theorem quiet_step (hstep : step linkStats s a = some s') :
    (a = .arrive ∨ a = .complete ∨ (∃ i, a = .latch i) ∨ a = .isrEnter ∨ a = .isrExit) ∨
      (s'.ris = s.ris ∧ s'.isr = s.isr ∧ (a ≠ .dispatch → s'.evq = s.evq)) := by
  cases step_cases hstep with
  | arrive | complete | latch | isrEnter | isrExit => simp
  | alloc | ref | free | cat | resetFifo | unmaskRxTx | unmaskRxof | unmaskRx => exact .inr ⟨rfl, rfl, fun _ => rfl⟩
  | dispatch => exact .inr ⟨rfl, rfl, fun h => absurd rfl h⟩
  | output hstack hheld =>
      unfold ethernetifOutput
      split <;> exact .inr ⟨rfl, rfl, fun _ => rfl⟩
  | @finish x hout hpending =>
      refine .inr ?_
      cases x with
      | transmit p fromQueue => cases fromQueue <;> exact ⟨rfl, rfl, fun _ => rfl⟩
      | put p =>
          simp only [finish]
          split <;> exact ⟨rfl, rfl, fun _ => rfl⟩
      | store im next => exact ⟨rfl, rfl, fun _ => rfl⟩
  | receive hat hfree =>
      unfold lowLevelReceive
      split
      · exact .inr ⟨rfl, rfl, fun _ => rfl⟩
      · split <;> exact .inr ⟨rfl, rfl, fun _ => rfl⟩
  | @inputDone p handled hpending hphase hheld => cases handled <;> exact .inr ⟨rfl, rfl, fun _ => rfl⟩
  | outputQueued hat =>
      unfold outputQueued
      split
      · exact .inr ⟨rfl, rfl, fun _ => rfl⟩
      · split <;> exact .inr ⟨rfl, rfl, fun _ => rfl⟩

/-- Only the handler posts, and only the active object takes. -/
theorem evq_step (hexit : a ≠ .isrExit) (hdispatch : a ≠ .dispatch) (hstep : step linkStats s a = some s') :
    s'.evq = s.evq := by
  rcases quiet_step hstep with (rfl | rfl | ⟨i, rfl⟩ | rfl | rfl) | ⟨-, -, hevq⟩
  · cases step_cases hstep; rfl
  · cases step_cases hstep; rfl
  · cases step_cases hstep; rfl
  · cases step_cases hstep; rfl
  · exact absurd rfl hexit
  · exact hevq hdispatch

theorem count_acknowledged {e : Signal} (hack : Acknowledges linkStats e (s, a))
    (hstep : step linkStats s a = some s') : s'.evq.count e = s.evq.count e + 1 := by
  obtain ⟨rfl, hany⟩ := hack
  obtain ⟨stat, hisr, rfl⟩ := Option.map_eq_some_iff.mp hstep
  have hfinds : finds linkStats s stat e = true := by simpa [hisr] using hany
  rw [count_ethernetIRQHandler, hfinds, Bool.toNat_true]

theorem count_dispatched {e : Signal} (hdispatch : Dispatches e (s, a)) (hstep : step linkStats s a = some s') :
    s'.evq.count e + 1 = s.evq.count e := by
  obtain ⟨rfl, hhead⟩ := hdispatch
  cases step_cases hstep with
  | @dispatch e' evq hat hevq =>
      obtain rfl : e' = e := by simpa [hevq] using hhead
      rw [hevq, List.count_cons_self]

theorem count_kept {e : Signal} (hack : ¬Acknowledges linkStats e (s, a)) (hdispatch : ¬Dispatches e (s, a))
    (hstep : step linkStats s a = some s') : s'.evq.count e = s.evq.count e := by
  by_cases hexit : a = .isrExit
  · subst hexit
    obtain ⟨stat, hisr, rfl⟩ := Option.map_eq_some_iff.mp hstep
    have hfinds : finds linkStats s stat e = false := by
      simpa [Acknowledges, hisr] using hack
    rw [count_ethernetIRQHandler, hfinds, Bool.toNat_false, Nat.add_zero]
  · by_cases hdisp : a = .dispatch
    · subst hdisp
      cases step_cases hstep with
      | @dispatch e' evq hat hevq =>
          have hne : e' ≠ e := fun h => hdispatch ⟨rfl, by simp [hevq, h]⟩
          rw [hevq, List.count_cons_of_ne hne]
    · rw [evq_step hexit hdisp hstep]

/-- At most one event `e` waits in the states of a run exactly if acknowledgements and dispatches alternate. -/
theorem count_le_one_iff {ring : Nat → Option β} {tr : List (Driver n β × Action β)}
    (hrun : Run (step linkStats) (init ring) tr s) (e : Signal) :
    ((∀ t ∈ visited tr, t.evq.count e ≤ 1) ∧ s.evq.count e ≤ 1) ↔
      Alternates (Acknowledges linkStats e) (Dispatches e) tr :=
  hrun.count_le_one_iff (c := fun t => t.evq.count e) List.count_nil count_acknowledged count_dispatched count_kept

/-! ## What is acknowledged was latched -/

/-- The source of `e` is not latched, and no handler has seen it so. -/
def Unlatched (e : Signal) (s : Driver n β) : Prop :=
  e.source s.ris = false ∧ ∀ stat, s.isr = some stat → e.source stat = false

omit [DecidableEq β] in
theorem source_of_finds {stat : Irq} {e : Signal} (h : finds linkStats s stat e = true) : e.source stat = true := by
  cases e <;> simp_all [finds, Signal.source, Irq.and, Irq.zipWith]

theorem unlatched_of_acknowledged {e : Signal} (hack : Acknowledges linkStats e (s, a))
    (hstep : step linkStats s a = some s') : Unlatched e s' := by
  obtain ⟨rfl, hany⟩ := hack
  obtain ⟨stat, hisr, rfl⟩ := Option.map_eq_some_iff.mp hstep
  have hsource : e.source stat = true := source_of_finds (by simpa [hisr] using hany)
  refine ⟨?_, fun stat' hstat' => by simp [ethernetIRQHandler] at hstat'⟩
  revert hsource
  cases e <;> simp +contextual [Signal.source, ethernetIRQHandler, Irq.clear, Irq.zipWith]

theorem unlatched_step {e : Signal} (h : Unlatched e s) (hlatch : ¬Latches e (s, a))
    (hstep : step linkStats s a = some s') : Unlatched e s' := by
  obtain ⟨hris, hisr⟩ := h
  rcases quiet_step hstep with (rfl | rfl | ⟨i, rfl⟩ | rfl | rfl) | ⟨hris', hisr', -⟩
  · cases step_cases hstep with
    | arrive hroom =>
        refine ⟨?_, hisr⟩
        cases e <;> simp_all [Signal.source, Latches]
  · cases step_cases hstep with
    | complete hbusy =>
        refine ⟨?_, hisr⟩
        cases e <;> simp_all [Signal.source, Latches]
  · cases step_cases hstep with
    | latch =>
        refine ⟨?_, hisr⟩
        cases e <;> simp_all [Signal.source, Latches, Irq.or, Irq.zipWith]
  · cases step_cases hstep with
    | isrEnter hout henabled => exact ⟨hris, fun stat hstat => Option.some.inj hstat ▸ hris⟩
  · cases step_cases hstep with
    | isrExit hstat =>
        refine ⟨?_, fun stat' hstat' => by simp [ethernetIRQHandler] at hstat'⟩
        cases e <;> simp_all [Signal.source, ethernetIRQHandler, Irq.clear, Irq.zipWith]
  · exact ⟨hris' ▸ hris, hisr' ▸ hisr⟩

/-- Between two acknowledgements of a source it is latched again. -/
theorem alternates_iff_spaced {ring : Nat → Option β} {tr : List (Driver n β × Action β)}
    (hrun : Run (step linkStats) (init ring) tr s) (e : Signal) :
    Alternates (Acknowledges linkStats e) (Dispatches e) tr ↔
      Spaced (Acknowledges linkStats e) (Latches e) (Dispatches e) tr := by
  refine ⟨Alternates.spaced, fun h before x between y after hall hx hy => ?_⟩
  refine h before x between y after hall hx ?_ hy
  by_contra hnone
  subst hall
  obtain ⟨_, -, hfrom⟩ := hrun.split rfl
  obtain ⟨rfl, s₁, hack, hrest⟩ := hfrom.head
  obtain ⟨s₂, hmid, hlast⟩ := hrest.split rfl
  obtain ⟨hstate, -⟩ := hlast.head
  have hmiss : ∀ sa ∈ between, ¬Latches e (sa.1, sa.2) := fun sa hsa hl => hnone ⟨sa, hsa, hl⟩
  obtain ⟨-, -, hisr⟩ := hmid.invariant_of (unlatched_of_acknowledged hx hack) hmiss unlatched_step
  -- so the second handler has not seen it latched
  obtain ⟨-, hany⟩ := hy
  obtain ⟨stat, hstat, hfinds⟩ := (Option.any_eq_true _ _).mp hany
  have hsource := hisr stat (hstate ▸ hstat)
  rw [source_of_finds hfinds] at hsource
  cases hsource

/-! ## Every run -/

omit [DecidableEq β] in
/-- The handshake keeps `RX_READY` single as long as no update of `IM` is lost. -/
theorem HandshakeInv.rxReady_le_one (h : HandshakeInv True s) : s.evq.count .rxReady ≤ 1 := by
  cases hmasked : s.phase.masked with
  | true => simp [(h.masked hmasked).2.2]
  | false =>
      have hone := (h.token hmasked).2 trivial
      unfold rxTokens at hone
      omega

end Driver

/-! ## Two floods

Overruns that are acknowledged one by one, and a stack that starts a transmission whenever the transmitter is free,
both while the active object dispatches no event. -/

/-- The driver is up and idle, with the transmitter free and pbuf 7 at hand. -/
structure Receptive (s : Driver .standard Nat) : Prop where
  isr     : s.isr = none
  pending : s.pending = none
  phase   : s.phase = .idle
  newtx   : s.newtx = false
  empty   : s.txq.isEmpty = true
  held    : 0 < s.held 7
  room    : s.pbufs.ref 7 < 65535
  ris     : s.ris = .zero
  im      : s.im.tx = true ∧ s.im.rxof = true

def txOnly : Irq := { Irq.zero with tx := true }

/-- The handler, when a source is latched that is unmasked. -/
theorem Receptive.handler {s : Driver .standard Nat} (hisr : s.isr = none) (henabled : s.ris.and s.im ≠ .zero) :
    runActions (Driver.step true) s [.isrEnter, .isrExit] =
      some (Driver.ethernetIRQHandler true { s with isr := some s.ris } s.ris) := by
  simp [runActions, Driver.step, hisr, henabled]

/-- One overrun is one event. -/
theorem Receptive.overrun {s : Driver .standard Nat} (h : Receptive s) :
    ∃ s', runActions (Driver.step true) s [.latch .rxofOnly, .isrEnter, .isrExit] = some s' ∧ Receptive s' ∧
      s'.evq = s.evq ++ [.rxOverrun] := by
  obtain ⟨hisr, hpending, hphase, hnewtx, hempty, hheld, hroom, hris, htx, hrxof⟩ := h
  have hlatch : Driver.step true s (.latch .rxofOnly) = some { s with ris := .rxofOnly } := by
    simp only [Driver.step, hris]
    rfl
  have henabled : Irq.rxofOnly.and s.im ≠ .zero := by
    intro hzero
    have hon : (Irq.rxofOnly.and s.im).rxof = true := by simp [Irq.and, Irq.zipWith, Irq.rxofOnly, hrxof]
    rw [hzero] at hon
    cases hon
  refine ⟨Driver.ethernetIRQHandler true { s with ris := .rxofOnly, isr := some .rxofOnly } .rxofOnly, ?_, ?_, ?_⟩
  · rw [runActions, hlatch]
    exact Receptive.handler (s := { s with ris := .rxofOnly }) hisr henabled
  · exact ⟨rfl, hpending, hphase, hnewtx, hempty, hheld, hroom, rfl, htx, hrxof⟩
  · simp [Driver.ethernetIRQHandler, Irq.and, Irq.zipWith, Irq.rxofOnly, Irq.zero, hrxof]

/-- One transmission is one event. -/
theorem Receptive.transmission {s : Driver .standard Nat} (h : Receptive s) :
    ∃ s', runActions (Driver.step true) s [.output 7, .finish, .complete, .isrEnter, .isrExit] = some s' ∧
      Receptive s' ∧ s'.evq = s.evq ++ [.txReady] := by
  obtain ⟨hisr, hpending, hphase, hnewtx, hempty, hheld, hroom, hris, htx, hrxof⟩ := h
  -- the direct path, then the end of the transmission
  let started : Driver .standard Nat := { s with pending := some (.transmit 7 false) }
  let sending : Driver .standard Nat :=
    { s with newtx := true, pending := none, sent := s.sent ++ [(7, s.newtx)], returns := s.returns ++ [(7, .ok)] }
  let ended : Driver .standard Nat := { sending with newtx := false, ris := txOnly }
  have houtput : Driver.step true s (.output 7) = some started := by
    simp [Driver.step, Driver.inStack, Driver.ethernetifOutput, Phase.stack, hisr, hpending, hphase, hheld, hroom,
      hempty, hnewtx, started]
  have hfinish : Driver.step true started .finish = some sending := by
    simp [Driver.step, Driver.finish, Driver.lowLevelTransmit, hisr, started, sending]
  have hcomplete : Driver.step true sending .complete = some ended := by
    simp only [Driver.step, sending, ended, hris]
    rfl
  have henabled : txOnly.and s.im ≠ .zero := by
    intro hzero
    have hon : (txOnly.and s.im).tx = true := by simp [Irq.and, Irq.zipWith, txOnly, htx]
    rw [hzero] at hon
    cases hon
  refine ⟨Driver.ethernetIRQHandler true { ended with isr := some txOnly } txOnly, ?_, ?_, ?_⟩
  · rw [runActions, houtput, Option.bind_some, runActions, hfinish, Option.bind_some, runActions, hcomplete]
    exact Receptive.handler (s := ended) hisr henabled
  · exact ⟨rfl, rfl, hphase, rfl, hempty, hheld, hroom, rfl, htx, hrxof⟩
  · simp [Driver.ethernetIRQHandler, Irq.and, Irq.zipWith, ended, sending, txOnly, Irq.zero, htx]

/-- A cycle that posts one more event can be run any number of times. -/
theorem flood {acts : List (Driver.Action Nat)} {e : Signal}
    (hcycle : ∀ s : Driver .standard Nat, Receptive s → ∃ s', runActions (Driver.step true) s acts = some s' ∧
      Receptive s' ∧ s'.evq = s.evq ++ [e]) {s : Driver .standard Nat} (h : Receptive s) (hevq : s.evq = []) :
    ∀ k : Nat, ∃ s', runActions (Driver.step true) s (List.replicate k acts).flatten = some s' ∧ Receptive s' ∧
      s'.evq = List.replicate k e := by
  intro k
  induction k with
  | zero => exact ⟨s, rfl, h, hevq⟩
  | succ k ih =>
      obtain ⟨s₁, hrun₁, h₁, hevq₁⟩ := ih
      obtain ⟨s₂, hrun₂, h₂, hevq₂⟩ := hcycle s₁ h₁
      refine ⟨s₂, ?_, h₂, ?_⟩
      · rw [List.replicate_succ', List.flatten_concat, runActions_append, hrun₁]
        exact hrun₂
      · rw [hevq₂, hevq₁, List.replicate_succ']

/-- The driver is started and pbuf 7 allocated. -/
def started : List (Driver.Action Nat) :=
  [.resetFifo, .alloc 7 [], .unmaskRxTx, .finish, .unmaskRxof, .finish]

theorem receptive_started : ∃ s, runActions (Driver.step true) (Driver.init fun _ => none) started = some s ∧
    Receptive s ∧ s.evq = [] := by
  refine ⟨_, rfl, ⟨rfl, rfl, rfl, rfl, rfl, ?_, ?_, rfl, rfl, rfl⟩, rfl⟩
  · decide
  · decide

/-- **The events are not bounded**, neither those for overruns nor those for transmissions. -/
theorem events_unbounded (k : Nat) :
    (∃ tr, ∃ s : Driver .standard Nat, Run (Driver.step true) (Driver.init fun _ => none) tr s ∧
      s.evq = List.replicate k .rxOverrun) ∧
    ∃ tr, ∃ s : Driver .standard Nat, Run (Driver.step true) (Driver.init fun _ => none) tr s ∧
      s.evq = List.replicate k .txReady := by
  obtain ⟨s₀, hstart, h₀, hevq₀⟩ := receptive_started
  have hrun : ∀ {acts : List (Driver.Action Nat)} {e : Signal},
      (∀ s : Driver .standard Nat, Receptive s → ∃ s', runActions (Driver.step true) s acts = some s' ∧
        Receptive s' ∧ s'.evq = s.evq ++ [e]) →
      ∃ tr, ∃ s : Driver .standard Nat, Run (Driver.step true) (Driver.init fun _ => none) tr s ∧
        s.evq = List.replicate k e := by
    intro acts e hcycle
    obtain ⟨s, hflood, -, hevq⟩ := flood hcycle h₀ hevq₀ k
    have hacts : runActions (Driver.step true) (Driver.init fun _ => none)
        (started ++ (List.replicate k acts).flatten) = some s := by
      rw [runActions_append, hstart]
      exact hflood
    exact ⟨_, s, Run.executed hacts, hevq⟩
  exact ⟨hrun fun s h => h.overrun, hrun fun s h => h.transmission⟩

def paced : List (Driver.Action Nat) :=
  started ++ [.output 7, .finish, .complete, .isrEnter, .isrExit, .dispatch, .outputQueued, .output 7, .finish,
    .complete, .latch .rxofOnly, .isrEnter, .isrExit]

end ThirdParty.Eth
