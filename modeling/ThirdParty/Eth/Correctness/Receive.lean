import ThirdParty.Eth.Correctness.Handshake

/-!
# `Eth.Correctness.Receive` — when a received frame is stranded

A `RX_READY` event stands for one frame. A second frame in the FIFO is announced by `RIS.RX`, or by a second event
where the handshake was broken, and two steps can leave it without: the read itself, when both frames were
acknowledged together, and an acknowledgement between that read and its unmasking. In all other steps a frame in
the FIFO stays announced.
-/

namespace ThirdParty.Eth

open Lib Lwip

variable {β : Type*} {n : RingSize}

namespace Driver

/-- A `RX_READY` event is posted, or the `eth_driver_read` for it has not taken its frame. -/
def RxReadyOutstanding (s : Driver n β) : Prop := .rxReady ∈ s.evq ∨ s.phase = .read

/-- **No frame is stranded**: what is in the RX FIFO will be read without another frame to arrive. -/
def NotStranded (s : Driver n β) : Prop := 0 < s.np → s.RxReadyOutstanding ∨ s.ris.rx = true

/-- The steps that leave no frame unannounced: a read that empties the FIFO, or leaves a frame that came after the
    last acknowledgement or for which another event waits; and an acknowledgement of RX that does not hit
    `eth_driver_read` between its frame and its unmasking, with RX masked and no event waiting, while another frame
    is there. -/
def Clean (s : Driver n β) : Action β → Prop
  | .receive _ => 2 ≤ s.np → s.ris.rx = true ∨ .rxReady ∈ s.evq
  | .isrExit   => s.isr.any Irq.rx = true → s.phase.taken = true → s.im.rx = false → .rxReady ∉ s.evq → s.np = 0
  | _          => True

instance (s : Driver n β) (a : Action β) : Decidable (s.Clean a) :=
  match a with
  | .receive _ => inferInstanceAs (Decidable (2 ≤ s.np → s.ris.rx = true ∨ .rxReady ∈ s.evq))
  | .isrExit =>
      inferInstanceAs (Decidable
        (s.isr.any Irq.rx = true → s.phase.taken = true → s.im.rx = false → .rxReady ∉ s.evq → s.np = 0))
  | .arrive | .complete | .latch _ | .isrEnter | .alloc .. | .ref _ | .free _ | .cat .. | .output _ | .finish
  | .resetFifo | .unmaskRxTx | .unmaskRxof | .dispatch | .inputDone _ | .outputQueued | .unmaskRx =>
      inferInstanceAs (Decidable True)

variable {intact : Prop} {linkStats : Bool} {s s' : Driver n β}

/-- Steps that touch neither the FIFO nor the announcements. -/
theorem NotStranded.congr (h : NotStranded s) (hnp : s'.np = s.np) (hevq : s'.evq = s.evq)
    (hphase : s.phase = .read → s'.phase = .read) (hris : s.ris.rx = true → s'.ris.rx = true) :
    NotStranded s' := by
  intro hpos
  rw [hnp] at hpos
  rcases h hpos with (hmem | hread) | hrx
  · exact .inl (.inl (hevq ▸ hmem))
  · exact .inl (.inr (hphase hread))
  · exact .inr (hris hrx)

/-- The acknowledgement strands a frame exactly when it hits the read. -/
theorem notStranded_ethernetIRQHandler_iff (hinv : HandshakeInv intact s) (h : NotStranded s) {stat : Irq}
    (hisr : s.isr = some stat) :
    NotStranded (ethernetIRQHandler linkStats s stat) ↔ s.Clean .isrExit := by
  simp only [Clean, hisr, Option.any_some]
  constructor
  · intro hafter hstat htaken him hnone
    by_contra hnp
    rcases hafter (Nat.pos_of_ne_zero hnp) with (hmem | hread) | hris
    · simp [ethernetIRQHandler, Irq.and, Irq.zipWith, hnone, him] at hmem
    · have hphase : s.phase = .read := hread
      simp [hphase, Phase.taken] at htaken
    · simp [ethernetIRQHandler, Irq.clear, Irq.zipWith, hstat] at hris
  · intro hclean hnp
    rcases h hnp with (hmem | hread) | hris
    · exact .inl (.inl (by simp [ethernetIRQHandler, hmem]))
    · exact .inl (.inr hread)
    · cases hstat : stat.rx with
      | false => exact .inr (by simp [ethernetIRQHandler, Irq.clear, Irq.zipWith, hstat, hris])
      | true =>
          cases him : s.im.rx with
          | true => exact .inl (.inl (by simp [ethernetIRQHandler, Irq.and, Irq.zipWith, hstat, him]))
          | false =>
              -- masked, so the token is with an event or with the read
              obtain ⟨htoken, -⟩ := hinv.token (hinv.unmasked_of_isr hisr)
              rw [rxTokens, him, Bool.toNat_false] at htoken
              by_cases hmem : .rxReady ∈ s.evq
              · exact .inl (.inl (by simp [ethernetIRQHandler, hmem]))
              · have hreading : s.phase.reading = true := by
                  rw [List.count_eq_zero.mpr hmem] at htoken
                  cases hr : s.phase.reading with
                  | true => rfl
                  | false => simp [hr] at htoken
                rcases read_or_taken hreading with hread | htaken
                · exact .inl (.inr hread)
                · have hzero := hclean hstat htaken him hmem
                  have hpos : 0 < s.np := hnp
                  omega

theorem afterOutput_eq_read_iff (ph : Phase β) : afterOutput ph = .read ↔ ph = .read := by
  cases ph <;> simp [afterOutput]

variable [DecidableEq β] {a : Action β}

/-- The read strands a frame exactly when it leaves one that was acknowledged and for which no event waits. -/
theorem notStranded_lowLevelReceive_iff (chain : List β) :
    NotStranded (s.lowLevelReceive chain) ↔ s.Clean (.receive chain) := by
  have hafter : ∀ {t : Driver n β}, t.np = s.np - 1 → t.evq = s.evq → t.ris = s.ris → t.phase ≠ .read →
      (NotStranded t ↔ (2 ≤ s.np → s.ris.rx = true ∨ .rxReady ∈ s.evq)) := by
    intro t hnp hevq hris hread
    unfold NotStranded RxReadyOutstanding
    rw [hnp, hevq, hris]
    constructor
    · intro h htwo
      rcases h (by omega) with (hmem | hr) | hr
      · exact .inr hmem
      · exact absurd hr hread
      · exact .inl hr
    · intro h hpos
      rcases h (by omega) with hr | hmem
      · exact .inr hr
      · exact .inl (.inl hmem)
  unfold lowLevelReceive
  split
  · next hzero => exact hafter (by simp [hzero]) rfl rfl (by simp)
  · split <;> exact hafter rfl rfl rfl (by simp)

/-- **One step** strands no frame exactly when it is clean. -/
theorem notStranded_step_iff (hinv : HandshakeInv False s) (h : NotStranded s) (hstep : step linkStats s a = some s') :
    NotStranded s' ↔ s.Clean a := by
  cases step_cases hstep with
  -- the two steps that may strand a frame come first
  | isrExit hisr => exact notStranded_ethernetIRQHandler_iff hinv h hisr
  | receive hat hfree => exact notStranded_lowLevelReceive_iff _
  | arrive hroom => exact iff_of_true (fun _ => .inr rfl) trivial
  | complete | isrEnter | alloc | ref | free | cat => exact iff_of_true h trivial
  | latch i => exact iff_of_true (h.congr rfl rfl id fun hris => by simp [Irq.or, Irq.zipWith, hris]) trivial
  | output hstack hheld =>
      unfold ethernetifOutput
      split <;> exact iff_of_true h trivial
  | @finish x hout hpending =>
      refine iff_of_true ?_ trivial
      cases x with
      | transmit p fromQueue =>
          cases fromQueue with
          | true => exact h.congr rfl rfl (afterOutput_eq_read_iff s.phase).mpr id
          | false => exact h
      | put p =>
          simp only [finish]
          split <;> exact h
      | store im next =>
          -- no update of `IM` is made in front of a read
          have hupdates := (hinv.loaded im next hpending).1
          exact h.congr rfl rfl (fun hr => by simp [hr, Phase.updates] at hupdates) id
  | resetFifo hat => exact iff_of_true (fun hpos => absurd hpos (Nat.lt_irrefl 0)) trivial
  | unmaskRxTx | unmaskRxof | unmaskRx => exact iff_of_true h trivial
  | @dispatch e evq hat hevq =>
      obtain ⟨-, -, hphase⟩ := hat
      refine iff_of_true (fun hpos => ?_) trivial
      rcases h hpos with (hmem | hread) | hris
      · -- the event is dispatched now or stays in the queue
        rw [hevq] at hmem
        rcases List.mem_cons.mp hmem with rfl | hmem
        · exact .inl (.inr rfl)
        · exact .inl (.inl hmem)
      · simp [hphase] at hread
      · exact .inr hris
  | @inputDone p handled hpending hphase hheld =>
      refine iff_of_true ?_ trivial
      cases handled <;> exact h.congr rfl rfl (fun hr => by simp [hphase] at hr) id
  | outputQueued hat =>
      refine iff_of_true ?_ trivial
      unfold outputQueued
      split
      · exact h.congr rfl rfl (afterOutput_eq_read_iff s.phase).mpr id
      · split
        · exact h
        · exact h.congr rfl rfl (afterOutput_eq_read_iff s.phase).mpr id

/-- **When no frame is stranded**: in every state of a run exactly if all its steps are clean. -/
theorem no_frame_stranded_iff {ring : Nat → Option β} {tr : List (Driver n β × Action β)}
    (hrun : Run (step linkStats) (init ring) tr s) :
    ((∀ t ∈ visited tr, NotStranded t) ∧ NotStranded s) ↔ ∀ sa ∈ tr, Clean sa.1 sa.2 :=
  hrun.holds_iff (handshakeInv_init ring) (fun hpos => absurd hpos (Nat.lt_irrefl 0))
    (fun hinv => handshakeInv_step hinv False.elim) notStranded_step_iff

end Driver

/-! A second frame arrives before the read of the first one, and is announced by the latch. -/

def twoFramesApart : List (Driver.Action Nat) :=
  [.resetFifo, .unmaskRxTx, .finish, .arrive, .isrEnter, .isrExit, .dispatch, .arrive, .receive [7], .inputDone true,
    .outputQueued, .unmaskRx, .finish, .isrEnter, .isrExit, .dispatch, .receive []]

theorem no_frame_stranded_apart :
    ∃ tr, ∃ s : Driver .standard Nat, Run (Driver.step false) (Driver.init fun _ => none) tr s ∧
      tr.map Prod.snd = twoFramesApart ∧ (∀ t ∈ visited tr, t.NotStranded) ∧ s.NotStranded := by
  have hex : ((runActions (Driver.step false) (Driver.init (fun _ => none) : Driver .standard Nat)
      twoFramesApart).map fun _ => ()) = some () := by decide +kernel
  have hclean : ∀ sa ∈ executed (Driver.step false) (Driver.init (fun _ => none) : Driver .standard Nat)
      twoFramesApart, Driver.Clean sa.1 sa.2 := by decide +kernel
  obtain ⟨s, hs, -⟩ := Option.map_eq_some_iff.mp hex
  have hrun := Run.executed hs
  exact ⟨_, s, hrun, executed_map_snd hs, (Driver.no_frame_stranded_iff hrun).mpr hclean⟩

/-- **A frame is stranded**: both frames are there when the handler acknowledges RX, and one event is one read. -/
theorem frame_stranded :
    ∃ tr, ∃ s : Driver .standard Nat, Run (Driver.step false) (Driver.init fun _ => none) tr s ∧ ¬s.NotStranded := by
  have hex : ((runActions (Driver.step false) (Driver.init (fun _ => none) : Driver .standard Nat)
      [.resetFifo, .unmaskRxTx, .finish, .arrive, .arrive, .isrEnter, .isrExit, .dispatch, .receive [7],
        .inputDone true, .outputQueued, .unmaskRx, .finish]).map fun s => (s.np, s.evq, s.phase, s.ris.rx)) =
      some (1, [], .idle, false) := by decide +kernel
  obtain ⟨s, hs, hstate⟩ := Option.map_eq_some_iff.mp hex
  simp only [Prod.mk.injEq] at hstate
  obtain ⟨hnp, hevq, hphase, hris⟩ := hstate
  obtain ⟨tr, hrun, -⟩ := Run.of_runActions hs
  refine ⟨tr, s, hrun, fun h => ?_⟩
  simpa [Driver.RxReadyOutstanding, hevq, hphase, hris] using h (by omega)

end ThirdParty.Eth
