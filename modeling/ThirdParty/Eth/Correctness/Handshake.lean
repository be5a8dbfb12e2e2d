import ThirdParty.Eth.Correctness.Wakeup

/-!
# `Eth.Correctness.Handshake` — the handshake for received frames

The handler and `eth_driver_read` pass one token back and forth: RX is unmasked, or one `RX_READY` event is posted,
or its `eth_driver_read` runs. The token never gets lost. It is doubled in one place: where the handler masks RX
between the load and the store of `ETH->IM |= ETH_INT_RXOF`, the store unmasks it again while the event waits.
-/

namespace ThirdParty.Eth

open Lib Lwip

variable {β : Type*} {n : RingSize}

/-- `eth_driver_read` runs, after it has taken its frame. -/
def Phase.taken : Phase β → Bool
  | .input _ | .readOutput | .unmask => true
  | _ => false

/-- `eth_driver_read` runs. -/
def Phase.reading : Phase β → Bool
  | .read => true
  | ph    => ph.taken

namespace Driver

/-! ## What the handler does -/

/-- With `stat` the handler finds the source of `e` latched and enabled. -/
def finds (linkStats : Bool) (s : Driver n β) (stat : Irq) : Signal → Bool
  | .rxReady   => (stat.and s.im).rx
  | .txReady   => (stat.and s.im).tx
  | .rxOverrun => linkStats && (stat.and s.im).rxof

/-- The handler masks RX between the load and the store of `ETH->IM |= ETH_INT_RXOF`. -/
def LostUpdate (s : Driver n β) (a : Action β) : Prop :=
  a = .isrExit ∧ s.isr.any (fun stat => (stat.and s.im).rx) = true ∧ s.phase = .unmaskRxof ∧ s.pending ≠ none

instance [DecidableEq β] (s : Driver n β) (a : Action β) : Decidable (s.LostUpdate a) :=
  inferInstanceAs (Decidable (a = .isrExit ∧ s.isr.any (fun stat => (stat.and s.im).rx) = true ∧
    s.phase = .unmaskRxof ∧ s.pending ≠ none))

variable {linkStats : Bool} {s s' : Driver n β}

theorem count_posted_self (b : Bool) (e : Signal) : (if b then [e] else []).count e = b.toNat := by
  cases b with
  | false => rfl
  | true => exact List.count_singleton_self

theorem count_posted_of_ne (b : Bool) {e e' : Signal} (h : e ≠ e') : (if b then [e] else []).count e' = 0 := by
  cases b with
  | false => rfl
  | true => exact List.count_eq_zero.mpr (fun hmem => h (List.mem_singleton.mp hmem).symm)

/-- What the handler posts, for each signal. -/
theorem count_ethernetIRQHandler (s : Driver n β) (stat : Irq) (e : Signal) :
    (ethernetIRQHandler linkStats s stat).evq.count e = s.evq.count e + (finds linkStats s stat e).toNat := by
  simp only [ethernetIRQHandler, List.count_append]
  cases e with
  | rxReady =>
      rw [count_posted_self, count_posted_of_ne _ (by decide), count_posted_of_ne _ (by decide)]
      rfl
  | txReady =>
      rw [count_posted_self, count_posted_of_ne _ (by decide), count_posted_of_ne _ (by decide)]
      rfl
  | rxOverrun =>
      rw [count_posted_self, count_posted_of_ne _ (by decide), count_posted_of_ne _ (by decide)]
      rfl

theorem finds_rxReady (s : Driver n β) (stat : Irq) : finds linkStats s stat .rxReady = (stat.rx && s.im.rx) := rfl

/-! ## The token -/

/-- The places of the token: posted events, a running `eth_driver_read`, the unmasked interrupt. -/
def rxTokens (s : Driver n β) : Nat := s.evq.count .rxReady + s.phase.reading.toNat + s.im.rx.toNat

/-- At least one, and no more unless an update of `IM` was lost. -/
def OneToken (intact : Prop) (k : Nat) : Prop := 1 ≤ k ∧ (intact → k ≤ 1)

/-- There is no token while interrupts are masked, and one from then on; where the active object has loaded `IM`,
    there will be one when it stores what it has. -/
structure HandshakeInv (intact : Prop) (s : Driver n β) : Prop where
  masked : s.phase.masked = true → s.im = .zero ∧ s.isr = none ∧ s.evq = []
  token  : s.phase.masked = false → OneToken intact s.rxTokens
  loaded : ∀ im next, s.pending = some (.store im next) → s.phase.updates = true ∧ next.masked = false ∧
    next.reading = false ∧ OneToken intact (s.evq.count .rxReady + im.rx.toNat)

variable {intact : Prop}

theorem handshakeInv_init (ring : Nat → Option β) : HandshakeInv intact (init ring : Driver n β) :=
  ⟨fun _ => ⟨rfl, rfl, rfl⟩, fun h => (by cases h), fun _ _ h => (by cases h)⟩

theorem HandshakeInv.unmasked_of_isr (h : HandshakeInv intact s) {stat : Irq} (hisr : s.isr = some stat) :
    s.phase.masked = false := by
  refine Bool.eq_false_iff.mpr fun hmasked => ?_
  simp [(h.masked hmasked).2.1] at hisr

/-- The active object moves on without the token, and not to an update of `IM`. -/
theorem HandshakeInv.move (h : HandshakeInv intact s) (hfrom : s.phase.masked = false)
    (hto : s'.phase.masked = false) (hreading : s'.phase.reading = s.phase.reading) (him : s'.im.rx = s.im.rx)
    (hevq : s'.evq = s.evq) (hpending : ∀ im next, s'.pending ≠ some (.store im next)) : HandshakeInv intact s' where
  masked := fun hm => by simp [hto] at hm
  token  := fun _ => by rw [rxTokens, hreading, him, hevq]; exact h.token hfrom
  loaded := fun im next hp => absurd hp (hpending im next)

/-- The handler takes the token from `IM` to the event queue. -/
theorem rxTokens_ethernetIRQHandler (s : Driver n β) (stat : Irq) :
    (ethernetIRQHandler linkStats s stat).rxTokens = s.rxTokens := by
  simp only [rxTokens, count_ethernetIRQHandler, finds_rxReady]
  show s.evq.count .rxReady + (stat.rx && s.im.rx).toNat + s.phase.reading.toNat +
    (s.im.rx && !(stat.rx && s.im.rx)).toNat = _
  cases stat.rx with
  | false => simp
  | true => cases s.im.rx <;> simp +arith

/-- It doubles the token only where its masking of RX is undone. -/
theorem handshakeInv_ethernetIRQHandler (h : HandshakeInv intact s) {stat : Irq} (hisr : s.isr = some stat)
    (hkept : intact → ¬s.LostUpdate .isrExit) : HandshakeInv intact (ethernetIRQHandler linkStats s stat) := by
  have hmasked := h.unmasked_of_isr hisr
  have htoken := h.token hmasked
  refine ⟨fun hm => by simp [ethernetIRQHandler, hmasked] at hm, fun _ => ?_, fun im next hp => ?_⟩
  · rw [rxTokens_ethernetIRQHandler]
    exact htoken
  · obtain ⟨hupdates, hnext, hreading, hleast, hmost⟩ := h.loaded im next hp
    refine ⟨hupdates, hnext, hreading, ?_, fun hintact => ?_⟩
    · rw [count_ethernetIRQHandler]
      omega
    · rw [count_ethernetIRQHandler, finds_rxReady]
      cases hon : (stat.rx && s.im.rx) with
      | false => simpa using hmost hintact
      | true =>
          -- RX is unmasked, so no `eth_driver_read` runs, and the update is that of RXOF
          have hpending : s.pending ≠ none := fun hnone => by cases hnone.symm.trans hp
          refine absurd ⟨rfl, by simpa [hisr, Irq.and, Irq.zipWith] using hon, ?_, hpending⟩ (hkept hintact)
          have hrx := (Bool.and_eq_true_iff.mp hon).2
          have hone := htoken.2 hintact
          rw [rxTokens, hrx, Bool.toNat_true] at hone
          revert hupdates hmasked hone
          cases s.phase <;> simp [Phase.updates, Phase.masked, Phase.reading, Phase.taken]

theorem reading_afterOutput (ph : Phase β) : (afterOutput ph).reading = ph.reading := by
  cases ph <;> rfl

theorem masked_afterOutput (ph : Phase β) : (afterOutput ph).masked = ph.masked := by
  cases ph <;> rfl

/-- The end of an attempt to output keeps everything that the handshake is about. -/
theorem HandshakeInv.afterOutput (h : HandshakeInv intact s) (hphase : s'.phase = afterOutput s.phase)
    (him : s'.im = s.im) (hisr : s'.isr = s.isr) (hevq : s'.evq = s.evq)
    (hpending : ∀ im next, s'.pending ≠ some (.store im next)) : HandshakeInv intact s' where
  masked := by rw [hphase, masked_afterOutput, him, hisr, hevq]; exact h.masked
  token  := by rw [hphase, masked_afterOutput, rxTokens, hphase, reading_afterOutput, him, hevq]; exact h.token
  loaded := fun im next hp => absurd hp (hpending im next)

/-- `IM` is loaded, and the token will be where it is, or goes back to the mask. -/
theorem handshakeInv_loadIM (h : HandshakeInv intact s) {bits : Irq} {next : Phase β}
    (hupdates : s.phase.updates = true) (hmasked : next.masked = false) (hreading : next.reading = false)
    (hone : OneToken intact (s.evq.count .rxReady + (s.im.or bits).rx.toNat)) :
    HandshakeInv intact (s.loadIM bits next) := by
  refine ⟨h.masked, h.token, fun im nxt hp => ?_⟩
  simp only [loadIM, Option.some.injEq, Pending.store.injEq] at hp
  obtain ⟨rfl, rfl⟩ := hp
  exact ⟨hupdates, hmasked, hreading, hone⟩

theorem read_or_taken {ph : Phase β} (h : ph.reading = true) : ph = .read ∨ ph.taken = true := by
  cases ph <;> simp_all [Phase.taken, Phase.reading]

variable [DecidableEq β] {a : Action β}

theorem handshakeInv_finish (h : HandshakeInv intact s) {x : Pending β} (hpending : s.pending = some x) :
    HandshakeInv intact (s.finish x) := by
  match x with
  | .transmit p true  => exact h.afterOutput rfl rfl rfl rfl (by simp [finish])
  | .transmit p false => exact ⟨h.masked, h.token, by simp [finish]⟩
  | .put p =>
      simp only [finish]
      split <;> exact ⟨h.masked, h.token, by simp⟩
  | .store im next =>
      obtain ⟨-, hmasked, hreading, hone⟩ := h.loaded im next hpending
      refine ⟨fun hm => by simp [finish, hmasked] at hm, fun _ => ?_, by simp [finish]⟩
      simpa [rxTokens, finish, hreading] using hone

/-- **Every step keeps the token**, and keeps it single unless it loses an update. -/
theorem handshakeInv_step (h : HandshakeInv intact s) (hkept : intact → ¬s.LostUpdate a)
    (hstep : step linkStats s a = some s') : HandshakeInv intact s' := by
  cases step_cases hstep with
  | arrive | complete | latch | alloc | ref | free | cat => exact ⟨h.masked, h.token, h.loaded⟩
  | isrEnter hout henabled =>
      -- no source is enabled while all are masked
      refine ⟨fun hmasked => absurd ?_ henabled, h.token, h.loaded⟩
      rw [(h.masked hmasked).1]
      simp [Irq.and, Irq.zipWith, Irq.zero]
  | isrExit hisr => exact handshakeInv_ethernetIRQHandler h hisr hkept
  | output hstack hheld =>
      unfold ethernetifOutput
      split <;> exact ⟨h.masked, h.token, by simp⟩
  | finish hout hpending => exact handshakeInv_finish h hpending
  | resetFifo hat =>
      obtain ⟨-, hpending, hphase⟩ := hat
      exact ⟨fun _ => h.masked (by rw [hphase]; rfl), fun hm => (by cases hm), by simp [hpending]⟩
  | unmaskRxTx hat =>
      obtain ⟨-, -, hphase⟩ := hat
      obtain ⟨him, -, hevq⟩ := h.masked (by rw [hphase]; rfl)
      refine handshakeInv_loadIM h (by rw [hphase]; rfl) (by cases linkStats <;> rfl) (by cases linkStats <;> rfl) ?_
      simp [OneToken, hevq, Irq.or, Irq.zipWith, Irq.rxTx]
  | unmaskRxof hat =>
      obtain ⟨-, -, hphase⟩ := hat
      have htoken := h.token (by rw [hphase]; rfl)
      refine handshakeInv_loadIM h (by rw [hphase]; rfl) rfl rfl ?_
      simpa [rxTokens, hphase, Phase.reading, Phase.taken, Irq.or, Irq.zipWith, Irq.rxofOnly, Irq.zero] using htoken
  | unmaskRx hat =>
      obtain ⟨-, -, hphase⟩ := hat
      obtain ⟨-, hmost⟩ := h.token (by rw [hphase]; rfl)
      refine handshakeInv_loadIM h (by rw [hphase]; rfl) rfl rfl ?_
      -- the token goes back to the mask
      have hrx : (s.im.or .rxOnly).rx = true := by simp [Irq.or, Irq.zipWith, Irq.rxOnly]
      rw [rxTokens, hphase] at hmost
      simp only [Phase.reading, Phase.taken, Bool.toNat_true] at hmost
      rw [hrx, Bool.toNat_true]
      exact ⟨by omega, fun hintact => by have := hmost hintact; omega⟩
  | @dispatch e evq hat hevq =>
      obtain ⟨-, hpending, hphase⟩ := hat
      -- for `RX_READY` the token moves from the queue to the function that is called
      have htoken := h.token (by rw [hphase]; rfl)
      rw [rxTokens, hevq, hphase] at htoken
      have hto : (entry e : Phase β).masked = false := by cases e <;> rfl
      refine ⟨fun hm => by simp [hto] at hm, fun _ => ?_, by simp [hpending]⟩
      have hsame : rxTokens ({ s with evq := evq, phase := entry e } : Driver n β) =
          (e :: evq).count .rxReady + (Phase.idle : Phase β).reading.toNat + s.im.rx.toNat := by
        cases e <;> simp [rxTokens, entry, Phase.reading, Phase.taken]
      rw [hsame]
      exact htoken
  | receive hat hfree =>
      obtain ⟨-, hpending, hphase⟩ := hat
      have hfrom : s.phase.masked = false := by rw [hphase]; rfl
      have hreading : s.phase.reading = true := by rw [hphase]; rfl
      unfold lowLevelReceive
      split
      · exact h.move hfrom rfl hreading.symm rfl rfl (by simp [hpending])
      · split <;> exact h.move hfrom rfl hreading.symm rfl rfl (by simp [hpending])
  | @inputDone p handled hpending hphase hheld =>
      have hfrom : s.phase.masked = false := by rw [hphase]; rfl
      have hreading : s.phase.reading = true := by rw [hphase]; rfl
      cases handled <;> exact h.move hfrom rfl hreading.symm rfl rfl (by simp [hpending])
  | outputQueued hat =>
      have hpending : s.pending = none := hat.elim (fun h => h.2.1) fun h => h.2.1
      unfold outputQueued
      split
      · exact h.afterOutput rfl rfl rfl rfl (by simp [hpending])
      · split
        · exact ⟨h.masked, h.token, by simp⟩
        · exact h.afterOutput rfl rfl rfl rfl (by simp [hpending])

/-! ## The mask and the events -/

/-- A `RX_READY` event is posted, or the `eth_driver_read` for it has not come to its last statement. -/
def RxUnmaskPending (s : Driver n β) : Prop := .rxReady ∈ s.evq ∨ s.phase.reading = true

/-- The token as it is in every state of a run without a lost update. -/
theorem handshakeInv_run {ring : Nat → Option β} {tr : List (Driver n β × Action β)}
    (hrun : Run (step linkStats) (init ring) tr s) (hkept : ∀ sa ∈ tr, ¬sa.1.LostUpdate sa.2) :
    (∀ t ∈ visited tr, HandshakeInv True t) ∧ HandshakeInv True s :=
  hrun.invariant_of (handshakeInv_init ring) hkept fun hinv hk hstep => handshakeInv_step hinv (fun _ => hk) hstep

/-- **The handshake**: once `eth_driver_init` has unmasked the interrupts, RX is unmasked exactly while no `RX_READY`
    event is outstanding, and there is never more than one. The updates of `IM` are to be atomic as far as it
    takes that the handler does not mask RX in the middle of `ETH->IM |= ETH_INT_RXOF`. -/
theorem rx_handshake {ring : Nat → Option β} {tr : List (Driver n β × Action β)}
    (hrun : Run (step linkStats) (init ring) tr s) (hkept : ∀ sa ∈ tr, ¬sa.1.LostUpdate sa.2)
    (hinit : s.phase.masked = false) :
    (s.im.rx = true ↔ ¬s.RxUnmaskPending) ∧ s.evq.count .rxReady + s.phase.reading.toNat ≤ 1 := by
  obtain ⟨hleast, hmost⟩ := (handshakeInv_run hrun hkept).2.token hinit
  have htoken : s.rxTokens = 1 := Nat.le_antisymm (hmost trivial) hleast
  unfold rxTokens at htoken
  refine ⟨?_, by omega⟩
  constructor
  · rintro hrx (hposted | hreading)
    · -- a posted event would be a second token
      have hcount := List.count_pos_iff.mpr hposted
      rw [hrx, Bool.toNat_true] at htoken
      omega
    · rw [hrx, hreading, Bool.toNat_true] at htoken
      omega
  · intro hnone
    have hcount : s.evq.count .rxReady = 0 := List.count_eq_zero.mpr fun hmem => hnone (.inl hmem)
    have hidle : s.phase.reading = false := Bool.eq_false_iff.mpr fun hreading => hnone (.inr hreading)
    rw [hcount, hidle, Bool.toNat_false] at htoken
    cases him : s.im.rx with
    | true => rfl
    | false => rw [him, Bool.toNat_false] at htoken; omega

end Driver

/-! A frame and an overrun together; the frame is read without a pbuf for it. -/

def frameAndOverrun : List (Driver.Action Nat) :=
  [.resetFifo, .unmaskRxTx, .finish, .unmaskRxof, .finish, .arrive,
    .latch ⟨true, true, true, true, true, true, true⟩, .isrEnter, .isrExit, .dispatch, .receive []]

theorem rx_handshake_frame :
    ∃ tr, ∃ s : Driver .standard Nat, Run (Driver.step true) (Driver.init fun _ => none) tr s ∧
      s.evq = [.rxOverrun] ∧ s.RxUnmaskPending ∧ s.im.rx = false := by
  have hex : ((runActions (Driver.step true) (Driver.init (fun _ => none) : Driver .standard Nat)
      frameAndOverrun).map fun s => (s.evq, s.phase)) = some ([.rxOverrun], .unmask) := by decide +kernel
  have hkept : ∀ sa ∈ executed (Driver.step true) (Driver.init (fun _ => none) : Driver .standard Nat)
      frameAndOverrun, ¬sa.1.LostUpdate sa.2 := by decide +kernel
  obtain ⟨s, hs, hstate⟩ := Option.map_eq_some_iff.mp hex
  obtain ⟨hevq, hphase⟩ := Prod.mk.inj hstate
  have hrun := Run.executed hs
  have hpending : s.RxUnmaskPending := .inr (by rw [hphase]; rfl)
  have hiff := (Driver.rx_handshake hrun hkept (by rw [hphase]; rfl)).1
  exact ⟨_, s, hrun, hevq, hpending, Bool.eq_false_iff.mpr fun hrx => hiff.mp hrx hpending⟩

/-! The handler runs for a first frame in the middle of `ETH->IM |= ETH_INT_RXOF`, and for a second one after it:
RX was unmasked while the event waited. -/

def lostUpdate : List (Driver.Action Nat) :=
  [.resetFifo, .unmaskRxTx, .finish, .unmaskRxof, .arrive, .isrEnter, .isrExit, .finish, .arrive, .isrEnter, .isrExit]

theorem rx_ready_twice :
    ∃ tr, ∃ s : Driver .standard Nat, Run (Driver.step true) (Driver.init fun _ => none) tr s ∧
      s.evq = [.rxReady, .rxReady] := by
  have hex : (runActions (Driver.step true) (Driver.init (fun _ => none) : Driver .standard Nat) lostUpdate).map
      (fun s => s.evq) = some [.rxReady, .rxReady] := by decide +kernel
  obtain ⟨s, hs, hevq⟩ := Option.map_eq_some_iff.mp hex
  exact ⟨_, s, Run.executed hs, hevq⟩

end ThirdParty.Eth
