import ThirdParty.Lwip.Api
import ThirdParty.Lwip.Pbuf
import ThirdParty.Eth.PbufQueue

/-!
# `Eth.Driver` — the Ethernet driver, its MAC and its active object

`eth_driver.c` (and `eth_driver.cpp`, the same code as C++) as one system whose actors take turns: the MAC stores
frames, ends transmissions and latches interrupts; `Ethernet_IRQHandler` reads `RIS` in one step, acknowledges it
and posts its events in another; the active object runs `eth_driver_init`, then one driver function for each event,
and the stack's code, which calls `ethernetif_output`. The handler may preempt the active object before each step,
never the other way round, and a step of the active object makes one access to a register of the MAC that the
handler or the MAC may change: `ETH->IM |= …` is a load and, in a step of its own, a store.

`held`, `sent` and `returns` are history: the pointers to pbufs outside the driver, what `low_level_transmit`
wrote to the FIFO with `NEWTX` at its entry, and what `ethernetif_output` answered.
-/

namespace ThirdParty.Eth

open Lib Lwip

/-! ## Registers -/

/-- The interrupt sources, a bit each of `RIS`, `IM` and `IACK`. -/
structure Irq where
  rx   : Bool
  txer : Bool
  tx   : Bool
  rxof : Bool
  rxer : Bool
  mdio : Bool
  phy  : Bool
  deriving DecidableEq, Repr

namespace Irq

def zero : Irq := ⟨false, false, false, false, false, false, false⟩

def zipWith (f : Bool → Bool → Bool) (a b : Irq) : Irq :=
  ⟨f a.rx b.rx, f a.txer b.txer, f a.tx b.tx, f a.rxof b.rxof, f a.rxer b.rxer, f a.mdio b.mdio, f a.phy b.phy⟩

def or (a b : Irq) : Irq := zipWith (· || ·) a b
def and (a b : Irq) : Irq := zipWith (· && ·) a b

/-- `a & ~b`. -/
def clear (a b : Irq) : Irq := zipWith (fun x y => x && !y) a b

/-- `ETH_INT_RX | ETH_INT_TX`. -/
def rxTx : Irq := { zero with rx := true, tx := true }

/-- `ETH_INT_RXOF`. -/
def rxofOnly : Irq := { zero with rxof := true }

/-- `ETH_INT_RX`. -/
def rxOnly : Irq := { zero with rx := true }

end Irq

/-- The events of `l_lwipEvt`. -/
inductive Signal where
  | rxReady | txReady | rxOverrun
  deriving DecidableEq, Repr

/-! ## State -/

/-- What the active object does next. An update of `IM` is over with its store. -/
inductive Phase (β : Type*) where
  /-- `ethernetif_init`, before the RX FIFO is reset for the last time -/
  | reset
  /-- `eth_driver_init` after `ethernetif_init`: the interface goes up, with interrupts masked; at its end
      `ETH->IM |= (ETH_INT_RX | ETH_INT_TX)` -/
  | start
  /-- `ETH->IM |= ETH_INT_RXOF` -/
  | unmaskRxof
  /-- outside of the driver -/
  | idle
  /-- `eth_driver_read`, before the frame is taken -/
  | read
  /-- in `ethernet_input`, with the received pbuf -/
  | input (p : β)
  /-- `eth_driver_read`, before it tries to output a packet -/
  | readOutput
  /-- `ETH->IM |= ETH_INT_RX` at the end of `eth_driver_read` -/
  | unmask
  /-- `eth_driver_write` -/
  | write
  deriving DecidableEq

/-- Code of the stack runs, which may call `ethernetif_output`. -/
def Phase.stack : Phase β → Bool
  | .start | .idle | .input _ => true
  | _ => false

/-- What the active object has begun and not yet ended: the branch that a function has chosen, which is
    `low_level_transmit`, for a pbuf that comes from the queue or not, or `PbufQueue_put`; and an update of `IM`
    between its load and its store, with the value to store and where the active object goes on. -/
inductive Pending (β : Type*) where
  | transmit (p : β) (queued : Bool)
  | put (p : β)
  | store (im : Irq) (next : Phase β)
  deriving DecidableEq

/-- `NP` counts the complete frames of the RX FIFO. `isr` is the local `eth_stat` of a handler that has read `RIS`
    and nothing else so far. -/
structure Driver (n : RingSize) (β : Type*) where
  ris     : Irq
  im      : Irq
  np      : Nat
  newtx   : Bool
  txq     : PbufQueue n β
  pbufs   : Pbufs β
  evq     : List Signal
  isr     : Option Irq
  phase   : Phase β
  pending : Option (Pending β)
  held    : β → Nat
  sent    : List (β × Bool)
  returns : List (β × Err)

variable {β : Type*} [DecidableEq β] {n : RingSize}

namespace Driver

/-- In `ethernetif_init`, with all interrupts masked and acknowledged and the MAC out of reset; `ring` is what
    `l_txq` held. -/
def init (ring : Nat → Option β) : Driver n β where
  ris     := .zero
  im      := .zero
  np      := 0
  newtx   := false
  txq     := .ctor ring
  pbufs   := ⟨fun _ => 0, []⟩
  evq     := []
  isr     := none
  phase   := .reset
  pending := none
  held    := fun _ => 0
  sent    := []
  returns := []

/-! ## The driver -/

/-- `Ethernet_IRQHandler` after `eth_stat = ETH->RIS`. -/
def ethernetIRQHandler (linkStats : Bool) (s : Driver n β) (ethStat : Irq) : Driver n β :=
  let on := ethStat.and s.im
  { s with
    ris := s.ris.clear ethStat
    im  := { s.im with rx := s.im.rx && !on.rx }
    evq := s.evq ++ (if on.rx then [.rxReady] else []) ++ (if on.tx then [.txReady] else [])
             ++ (if linkStats && on.rxof then [.rxOverrun] else [])
    isr := none }

/-- `low_level_transmit`. -/
def lowLevelTransmit (s : Driver n β) (p : β) : Driver n β :=
  { s with sent := s.sent ++ [(p, s.newtx)], newtx := true }

/-- The choice of `ethernetif_output`. -/
def ethernetifOutput (s : Driver n β) (p : β) : Driver n β :=
  if s.txq.isEmpty && !s.newtx then { s with pending := some (.transmit p false) }
  else { s with pending := some (.put p) }

/-- What follows the attempt to output a queued packet, in `eth_driver_read` and in `eth_driver_write`. -/
def afterOutput : Phase β → Phase β
  | .readOutput => .unmask
  | .write      => .idle
  | ph          => ph

/-- "try to output a packet if TX fifo is empty and pbuf is available". -/
def outputQueued (s : Driver n β) : Driver n β :=
  if s.newtx then { s with phase := afterOutput s.phase }
  else
    match s.txq.get.1 with
    | some p => { s with txq := s.txq.get.2, pending := some (.transmit p true) }
    | none   => { s with phase := afterOutput s.phase }

/-- The load of an update of `IM`, and the bits that it sets. -/
def loadIM (s : Driver n β) (bits : Irq) (next : Phase β) : Driver n β :=
  { s with pending := some (.store (s.im.or bits) next) }

/-- The rest of what the active object has begun: the pbuf of the queue is freed after the transmission, the
    stack's own pbuf is not; a pbuf that went to the queue is referenced; `IM` is stored. -/
def finish (s : Driver n β) : Pending β → Driver n β
  | .transmit p true =>
      let s' := s.lowLevelTransmit p
      { s' with pbufs := s'.pbufs.pbufFree p, pending := none, phase := afterOutput s'.phase }
  | .transmit p false =>
      { s.lowLevelTransmit p with pending := none, returns := s.returns ++ [(p, .ok)] }
  | .put p =>
      let (stored, txq) := s.txq.put p
      if stored ≠ 0 then
        { s with txq, pbufs := s.pbufs.pbufRef p, pending := none, returns := s.returns ++ [(p, .ok)] }
      else { s with txq, pending := none, returns := s.returns ++ [(p, .mem)] }
  | .store im next => { s with im, pending := none, phase := next }

/-- `low_level_receive` and the test of its result; `chain` is the answer of `pbuf_alloc`, empty for `NULL`. The
    frame leaves the FIFO also when there is no pbuf for it. -/
def lowLevelReceive (s : Driver n β) (chain : List β) : Driver n β :=
  if s.np = 0 then { s with phase := .unmask }
  else
    match chain with
    | []      => { s with np := s.np - 1, phase := .unmask }
    | p :: ps =>
        { s with np := s.np - 1, pbufs := s.pbufs.pbufAlloc (p :: ps), held := incr s.held p, phase := .input p }

/-- The function that `LwIPMgr` calls for an event; it only counts the overruns. -/
def entry : Signal → Phase β
  | .rxReady   => .read
  | .txReady   => .write
  | .rxOverrun => .idle

/-! ## Steps -/

/-- What may happen next. -/
inductive Action (β : Type*) where
  /-- a frame is complete in the RX FIFO -/
  | arrive
  /-- the transmission ends -/
  | complete
  /-- sources other than RX and TX are latched -/
  | latch (i : Irq)
  | isrEnter
  | isrExit
  /-- the stack allocates a chain -/
  | alloc (p : β) (ps : List β)
  | ref (p : β)
  | free (p : β)
  | cat (p q : β)
  /-- the stack calls `ethernetif_output` -/
  | output (p : β)
  /-- what was begun last is ended -/
  | finish
  | resetFifo
  | unmaskRxTx
  | unmaskRxof
  | dispatch
  | receive (chain : List β)
  /-- `ethernet_input` returns -/
  | inputDone (handled : Bool)
  | outputQueued
  | unmaskRx
  deriving DecidableEq

/-- The active object is about to do `ph`. -/
def awaits (s : Driver n β) (ph : Phase β) : Prop := s.isr = none ∧ s.pending = none ∧ s.phase = ph

/-- Code of the stack is running. -/
def inStack (s : Driver n β) : Prop := s.isr = none ∧ s.pending = none ∧ s.phase.stack = true

/-- The pbufs of a chain that `pbuf_alloc` may give out. -/
def freeChain (s : Driver n β) (chain : List β) : Prop := chain.Nodup ∧ ∀ q ∈ chain, s.pbufs.ref q = 0

instance (s : Driver n β) (ph : Phase β) : Decidable (s.awaits ph) :=
  inferInstanceAs (Decidable (s.isr = none ∧ s.pending = none ∧ s.phase = ph))

instance (s : Driver n β) : Decidable s.inStack :=
  inferInstanceAs (Decidable (s.isr = none ∧ s.pending = none ∧ s.phase.stack = true))

instance (s : Driver n β) (chain : List β) : Decidable (s.freeChain chain) :=
  inferInstanceAs (Decidable (chain.Nodup ∧ ∀ q ∈ chain, s.pbufs.ref q = 0))

/-- The handler runs as long as an enabled source is latched. The stack drops, shares and outputs only pbufs to
    which it has a pointer, and shares and outputs none whose count has reached its end. `NP` has six bits. -/
def step (linkStats : Bool) (s : Driver n β) : Action β → Option (Driver n β)
  | .arrive => if s.np < 63 then some { s with np := s.np + 1, ris := { s.ris with rx := true } } else none
  | .complete => if s.newtx then some { s with newtx := false, ris := { s.ris with tx := true } } else none
  | .latch i => some { s with ris := s.ris.or { i with rx := false, tx := false } }
  | .isrEnter => if s.isr = none ∧ s.ris.and s.im ≠ .zero then some { s with isr := some s.ris } else none
  | .isrExit => s.isr.map (ethernetIRQHandler linkStats s)
  | .alloc p ps =>
      if s.inStack ∧ s.freeChain (p :: ps) then
        some { s with pbufs := s.pbufs.pbufAlloc (p :: ps), held := incr s.held p }
      else none
  | .ref p =>
      if s.inStack ∧ 0 < s.held p ∧ s.pbufs.ref p < 65535 then
        some { s with pbufs := s.pbufs.pbufRef p, held := incr s.held p }
      else none
  | .free p =>
      if s.inStack ∧ 0 < s.held p then some { s with pbufs := s.pbufs.pbufFree p, held := decr s.held p } else none
  | .cat p q =>
      if s.inStack ∧ 0 < s.pbufs.ref p ∧ s.pbufs.next p = none ∧ 0 < s.held q then
        some { s with pbufs := s.pbufs.pbufCat p q, held := decr s.held q }
      else none
  | .output p =>
      if s.inStack ∧ 0 < s.held p ∧ s.pbufs.ref p < 65535 then some (s.ethernetifOutput p) else none
  | .finish => if s.isr = none then s.pending.map s.finish else none
  | .resetFifo => if s.awaits .reset then some { s with np := 0, phase := .start } else none
  | .unmaskRxTx =>
      if s.awaits .start then some (s.loadIM .rxTx (if linkStats then .unmaskRxof else .idle)) else none
  | .unmaskRxof => if s.awaits .unmaskRxof then some (s.loadIM .rxofOnly .idle) else none
  | .dispatch =>
      match s.evq with
      | []       => none
      | e :: evq => if s.awaits .idle then some { s with evq, phase := entry e } else none
  | .receive chain =>
      if s.awaits .read ∧ s.freeChain chain then some (s.lowLevelReceive chain) else none
  | .inputDone handled =>
      match s.phase with
      | .input p =>
          if s.isr = none ∧ s.pending = none ∧ (handled = false → 0 < s.held p) then
            some (if handled then { s with phase := .readOutput }
              else { s with pbufs := s.pbufs.pbufFree p, held := decr s.held p, phase := .readOutput })
          else none
      | _ => none
  | .outputQueued => if s.awaits .readOutput ∨ s.awaits .write then some s.outputQueued else none
  | .unmaskRx => if s.awaits .unmask then some (s.loadIM .rxOnly .idle) else none

/-! ## What a step can do -/

/-- **A step**, with what holds before it. -/
inductive Stepped (linkStats : Bool) (s : Driver n β) : Action β → Driver n β → Prop where
  | arrive (hroom : s.np < 63) :
      Stepped linkStats s .arrive { s with np := s.np + 1, ris := { s.ris with rx := true } }
  | complete (hbusy : s.newtx = true) :
      Stepped linkStats s .complete { s with newtx := false, ris := { s.ris with tx := true } }
  | latch (i : Irq) : Stepped linkStats s (.latch i) { s with ris := s.ris.or { i with rx := false, tx := false } }
  | isrEnter (hout : s.isr = none) (henabled : s.ris.and s.im ≠ .zero) :
      Stepped linkStats s .isrEnter { s with isr := some s.ris }
  | isrExit {stat : Irq} (hisr : s.isr = some stat) :
      Stepped linkStats s .isrExit (ethernetIRQHandler linkStats s stat)
  | alloc {p : β} {ps : List β} (hstack : s.inStack) (hfree : s.freeChain (p :: ps)) :
      Stepped linkStats s (.alloc p ps) { s with pbufs := s.pbufs.pbufAlloc (p :: ps), held := incr s.held p }
  | ref {p : β} (hstack : s.inStack) (hheld : 0 < s.held p) (hroom : s.pbufs.ref p < 65535) :
      Stepped linkStats s (.ref p) { s with pbufs := s.pbufs.pbufRef p, held := incr s.held p }
  | free {p : β} (hstack : s.inStack) (hheld : 0 < s.held p) :
      Stepped linkStats s (.free p) { s with pbufs := s.pbufs.pbufFree p, held := decr s.held p }
  | cat {p q : β} (hstack : s.inStack) (hp : 0 < s.pbufs.ref p) (hlast : s.pbufs.next p = none)
      (hheld : 0 < s.held q) :
      Stepped linkStats s (.cat p q) { s with pbufs := s.pbufs.pbufCat p q, held := decr s.held q }
  | output {p : β} (hstack : s.inStack) (hheld : 0 < s.held p) (hroom : s.pbufs.ref p < 65535) :
      Stepped linkStats s (.output p) (s.ethernetifOutput p)
  | finish {x : Pending β} (hout : s.isr = none) (hpending : s.pending = some x) :
      Stepped linkStats s .finish (s.finish x)
  | resetFifo (hat : s.awaits .reset) : Stepped linkStats s .resetFifo { s with np := 0, phase := .start }
  | unmaskRxTx (hat : s.awaits .start) :
      Stepped linkStats s .unmaskRxTx (s.loadIM .rxTx (if linkStats then .unmaskRxof else .idle))
  | unmaskRxof (hat : s.awaits .unmaskRxof) : Stepped linkStats s .unmaskRxof (s.loadIM .rxofOnly .idle)
  | dispatch {e : Signal} {evq : List Signal} (hat : s.awaits .idle) (hevq : s.evq = e :: evq) :
      Stepped linkStats s .dispatch { s with evq, phase := entry e }
  | receive {chain : List β} (hat : s.awaits .read) (hfree : s.freeChain chain) :
      Stepped linkStats s (.receive chain) (s.lowLevelReceive chain)
  | inputDone {p : β} {handled : Bool} (hpending : s.pending = none) (hphase : s.phase = .input p)
      (hheld : handled = false → 0 < s.held p) :
      Stepped linkStats s (.inputDone handled) (if handled then { s with phase := .readOutput }
        else { s with pbufs := s.pbufs.pbufFree p, held := decr s.held p, phase := .readOutput })
  | outputQueued (hat : s.awaits .readOutput ∨ s.awaits .write) :
      Stepped linkStats s .outputQueued s.outputQueued
  | unmaskRx (hat : s.awaits .unmask) : Stepped linkStats s .unmaskRx (s.loadIM .rxOnly .idle)

/-- **Every step is one of these.** -/
theorem step_cases {linkStats : Bool} {s s' : Driver n β} {a : Action β} (h : step linkStats s a = some s') :
    Stepped linkStats s a s' := by
  cases a with
  | arrive =>
      obtain ⟨hroom, ⟨⟩⟩ := Option.ite_none_right_eq_some.mp h
      exact .arrive hroom
  | complete =>
      obtain ⟨hbusy, ⟨⟩⟩ := Option.ite_none_right_eq_some.mp h
      exact .complete hbusy
  | latch i =>
      obtain rfl := Option.some.inj h
      exact .latch i
  | isrEnter =>
      obtain ⟨⟨hout, henabled⟩, ⟨⟩⟩ := Option.ite_none_right_eq_some.mp h
      exact .isrEnter hout henabled
  | isrExit =>
      obtain ⟨stat, hisr, rfl⟩ := Option.map_eq_some_iff.mp h
      exact .isrExit hisr
  | alloc p ps =>
      obtain ⟨⟨hstack, hfree⟩, ⟨⟩⟩ := Option.ite_none_right_eq_some.mp h
      exact .alloc hstack hfree
  | ref p =>
      obtain ⟨⟨hstack, hheld, hroom⟩, ⟨⟩⟩ := Option.ite_none_right_eq_some.mp h
      exact .ref hstack hheld hroom
  | free p =>
      obtain ⟨⟨hstack, hheld⟩, ⟨⟩⟩ := Option.ite_none_right_eq_some.mp h
      exact .free hstack hheld
  | cat p q =>
      obtain ⟨⟨hstack, hp, hlast, hheld⟩, ⟨⟩⟩ := Option.ite_none_right_eq_some.mp h
      exact .cat hstack hp hlast hheld
  | output p =>
      obtain ⟨⟨hstack, hheld, hroom⟩, ⟨⟩⟩ := Option.ite_none_right_eq_some.mp h
      exact .output hstack hheld hroom
  | finish =>
      obtain ⟨hout, hmap⟩ := Option.ite_none_right_eq_some.mp h
      obtain ⟨x, hpending, rfl⟩ := Option.map_eq_some_iff.mp hmap
      exact .finish hout hpending
  | resetFifo =>
      obtain ⟨hat, ⟨⟩⟩ := Option.ite_none_right_eq_some.mp h
      exact .resetFifo hat
  | unmaskRxTx =>
      obtain ⟨hat, ⟨⟩⟩ := Option.ite_none_right_eq_some.mp h
      exact .unmaskRxTx hat
  | unmaskRxof =>
      obtain ⟨hat, ⟨⟩⟩ := Option.ite_none_right_eq_some.mp h
      exact .unmaskRxof hat
  | dispatch =>
      simp only [step] at h
      split at h
      · cases h
      · next e evq hevq =>
          obtain ⟨hat, ⟨⟩⟩ := Option.ite_none_right_eq_some.mp h
          exact .dispatch hat hevq
  | receive chain =>
      obtain ⟨⟨hat, hfree⟩, ⟨⟩⟩ := Option.ite_none_right_eq_some.mp h
      exact .receive hat hfree
  | inputDone handled =>
      simp only [step] at h
      split at h
      · next p hphase =>
          obtain ⟨⟨-, hpending, hheld⟩, ⟨⟩⟩ := Option.ite_none_right_eq_some.mp h
          exact .inputDone hpending hphase hheld
      · cases h
  | outputQueued =>
      obtain ⟨hat, ⟨⟩⟩ := Option.ite_none_right_eq_some.mp h
      exact .outputQueued hat
  | unmaskRx =>
      obtain ⟨hat, ⟨⟩⟩ := Option.ite_none_right_eq_some.mp h
      exact .unmaskRx hat

end Driver

end ThirdParty.Eth
