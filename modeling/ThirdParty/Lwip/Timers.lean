import ThirdParty.Lib.Bytes

/-!
# `Lwip.Timers` — timeouts without an operating system (`core/timers.c`)

The timeouts wait in a list in which each has the milliseconds that it is due later than the one before it; the first
counts from `timeouts_last_time` on. `sys_check_timeouts` is called from the main loop. What handlers do in it, calls of
`sys_timeout` and `sys_untimeout` in any order, are steps between its rounds, and so time may pass in it.
-/

namespace ThirdParty.Lwip

open Lib

/-- `struct sys_timeo`: the time, and the handler with its argument. `asked` is for the statements only: the time on the
    clock at which the call was asked for. -/
structure Timeo where
  time  : Nat
  h     : Option Nat
  arg   : Nat
  asked : Nat
  deriving DecidableEq, Repr

/-- The loop of `sys_timeout`. -/
def sysTimeoutLoop : List Timeo → Timeo → List Timeo
  | [],           _       => []
  | [t],          timeout => [t, { timeout with time := toU32 ((timeout.time : Int) - t.time) }]
  | t :: u :: ts, timeout =>
      let timeout := { timeout with time := toU32 ((timeout.time : Int) - t.time) }
      if u.time > timeout.time then t :: timeout :: { u with time := toU32 ((u.time : Int) - timeout.time) } :: ts
      else t :: sysTimeoutLoop (u :: ts) timeout

/-- `sys_timeout`, with the entry that it got from its pool. -/
def sysTimeout (ts : List Timeo) (timeout : Timeo) : List Timeo :=
  match ts with
  | []      => [timeout]
  | t :: us =>
      if t.time > timeout.time then timeout :: { t with time := toU32 ((t.time : Int) - timeout.time) } :: us
      else sysTimeoutLoop ts timeout

/-- `sys_untimeout`. -/
def sysUntimeout (h : Option Nat) (arg : Nat) : List Timeo → List Timeo
  | []      => []
  | t :: ts =>
      if t.h = h ∧ t.arg = arg then
        match ts with
        | []      => []
        | u :: us => { u with time := toU32 (u.time + t.time : Nat) } :: us
      else t :: sysUntimeout h arg ts

/-- `sys_check_timeouts` while it runs. -/
structure TimerCheck where
  now  : Nat
  diff : Nat
  deriving DecidableEq, Repr

/-- `next_timeout`, `timeouts_last_time`, the clock, and `sys_check_timeouts` if it is running. -/
structure Timers where
  timeouts : List Timeo
  lastTime : Nat
  clock    : Nat
  check    : Option TimerCheck
  deriving DecidableEq, Repr

/-- `sys_now`. -/
def Timers.sysNow (s : Timers) : Nat := toU32 s.clock

/-- Before `sys_timeouts_init` has set a timeout. -/
def Timers.init (clock : Nat) : Timers := { timeouts := [], lastTime := toU32 clock, clock := clock, check := none }

/-- What happens: time passes, somebody calls `sys_timeout` (which has nothing to do if its pool is empty) or
    `sys_untimeout`, `sys_check_timeouts` begins, calls a handler, or returns, the main loop calls
    `sys_restart_timeouts`. -/
inductive TimerAct where
  | tick (ms : Nat)
  | timeout (msecs : Nat) (h : Option Nat) (arg : Nat) (memp : Bool)
  | untimeout (h : Option Nat) (arg : Nat)
  | check
  | call
  | done
  | restart
  deriving DecidableEq, Repr

/-- `sys_restart_timeouts` is called from outside of `sys_check_timeouts`. -/
def timerStep (s : Timers) : TimerAct → Option Timers
  | .tick ms => some { s with clock := s.clock + ms }
  | .timeout msecs h arg memp =>
      if msecs < 4294967296 then
        if memp then
          some { s with
            timeouts := sysTimeout s.timeouts { time := msecs, h := h, arg := arg, asked := s.clock + msecs } }
        else some s
      else none
  | .untimeout h arg => some { s with timeouts := sysUntimeout h arg s.timeouts }
  | .check =>
      match s.check, s.timeouts with
      | none, []     => some s
      | none, _ :: _ => some { s with check := some ⟨s.sysNow, toU32 ((s.sysNow : Int) - s.lastTime)⟩ }
      | some _, _    => none
  | .call =>
      match s.check, s.timeouts with
      | some c, t :: ts =>
          if t.time ≤ c.diff then
            some { s with
              timeouts := ts, lastTime := c.now, check := some { c with diff := toU32 ((c.diff : Int) - t.time) } }
          else none
      | _, _ => none
  | .done =>
      match s.check, s.timeouts with
      | some _, []      => some { s with check := none }
      | some c, t :: _  => if t.time ≤ c.diff then none else some { s with check := none }
      | none, _         => none
  | .restart => if s.check = none then some { s with lastTime := s.sysNow } else none

end ThirdParty.Lwip
