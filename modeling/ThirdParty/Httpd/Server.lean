import Mathlib.Logic.Function.Basic
import ThirdParty.Lib.Run
import ThirdParty.Httpd.Callbacks

/-!
# `Httpd.Server` — the server as lwIP drives it

All connections together: what lwIP keeps of each (its callbacks, its argument, the bytes in flight), the
`http_state` structures, the file table and the events of the run. lwIP may issue any callback that is
registered, on any connection that is still there, in any order and with any answers; each runs to its end before
the next one starts.
-/

namespace ThirdParty.Httpd

open Lib Lwip

/-! ## A connection -/

/-- What lwIP keeps of a connection. `alive` ends with the error callback or with `tcp_abort`, after which the
    stack issues no callback; `written` and `acked` count the bytes that `tcp_write` has accepted and that the
    peer has acknowledged; `finished` records that `send_data` has closed the connection because it found
    nothing left of the response. -/
structure Conn where
  alive    : Bool
  arg      : Option Nat
  recv     : Bool
  sent     : Bool
  err      : Bool
  poll     : Bool
  written  : Nat
  acked    : Nat
  finished : Bool

/-- A connection that lwIP offers to `http_accept`. -/
def Conn.fresh : Conn := ⟨true, none, false, false, false, false, 0, 0, false⟩

/-- The effect of one event on the connection it is about; `self` is the argument that `tcp_arg` sets. -/
def Conn.apply (self : Nat) (k : Conn) : Ev → Conn
  | .tcpArg set         => { k with arg := if set then some self else none }
  | .tcpRecv set        => { k with recv := set }
  | .tcpSent set        => { k with sent := set }
  | .tcpErr set         => { k with err := set }
  | .tcpPoll set        => { k with poll := set }
  | .tcpWrite _ data .ok => { k with written := k.written + data.length }
  | .tcpAbort           => { k with alive := false }
  | .endOfResponse      => { k with finished := true }
  | _                   => k

def Conn.applyAll (self : Nat) (k : Conn) (log : List Ev) : Conn := log.foldl (Conn.apply self) k

/-- Bytes of the response are unacknowledged. -/
def Conn.unacked (k : Conn) : Bool := k.acked < k.written

/-! ## Callbacks -/

/-- The callbacks of an established connection; the segment of `recv` is `none` for `NULL`. -/
inductive Callback where
  | recv (p : Option Segment) (err : Err)
  | sent
  | poll
  | err

/-- The callback is registered. -/
def Conn.hears (k : Conn) : Callback → Bool
  | .recv .. => k.recv
  | .sent    => k.sent
  | .poll    => k.poll
  | .err     => k.err

/-- A callback with the `http_state` as its argument. -/
def callback (cfg : Config) (env : Env) (fuel : Nat) (cb : Callback) (c : Ctx) : Outcome :=
  match cb with
  | .recv p err => httpRecv cfg env fuel p err c
  | .sent       => httpSent cfg env fuel c
  | .poll       => httpPoll cfg env fuel c
  | .err        => ⟨connErr c, true⟩

/-- A callback with `NULL` as its argument: only `http_recv` does not ask for it. -/
def callbackNull : Callback → List Ev
  | .recv _ err => if err = .ok then [.nullDeref] else []
  | .sent       => []
  | .poll       => httpPollNull
  | .err        => []

/-! ## The server -/

/-- `objs n` is the content of the `http_state` with serial `n`, also after it was freed. `log` has the events of
    all callbacks so far; `blocked` says that the last one has not returned. -/
structure Server where
  conns      : List Conn
  objs       : Nat → HttpState
  fs         : FsMemory
  mem        : Mem
  nextSerial : Nat
  log        : List Ev
  blocked    : Bool

/-- After `httpd_init`, with `slots` entries in `fs_memory`. -/
def Server.init (slots : Nat) (mem : Mem) : Server :=
  ⟨[], fun _ => .zero, List.replicate slots ⟨⟨0, 0, 0⟩, false⟩, mem, 0, [], false⟩

/-- The context in which a callback with argument `n` starts. -/
def Server.ctx (s : Server) (n : Nat) : Ctx := ⟨n, s.objs n, s.fs, s.mem, [], 0, 0, 0, s.nextSerial, []⟩

/-- One callback of connection `k`. -/
def Server.invoke (cfg : Config) (s : Server) (k : Conn) (cb : Callback) (env : Env) (fuel : Nat) : Outcome :=
  match k.arg with
  | some n => callback cfg env fuel cb (s.ctx n)
  | none   => ⟨{ s.ctx 0 with log := callbackNull cb }, true⟩

/-- The server after a callback of connection `j`, which was `k` before. -/
def Server.absorb (s : Server) (j : Nat) (k : Conn) (o : Outcome) : Server where
  conns      := s.conns.set j (k.applyAll o.ctx.self o.ctx.log)
  objs       := Function.update s.objs o.ctx.self o.ctx.hs
  fs         := o.ctx.fs
  mem        := o.ctx.mem
  nextSerial := o.ctx.nextSerial
  log        := s.log ++ o.ctx.log
  blocked    := !o.returned

/-- What lwIP may do next: offer a connection, take an acknowledgement of `n` bytes, or issue a callback. The
    memory of a new `http_state` holds `garbage`. -/
inductive Action where
  | accept (garbage : HttpState) (env : Env)
  | ack (j n : Nat)
  | call (j : Nat) (cb : Callback) (env : Env) (fuel : Nat)

/-- The error callback is the last one of its connection. -/
def Conn.before (k : Conn) : Callback → Conn
  | .err => { k with alive := false }
  | _    => k

def Server.step (cfg : Config) (s : Server) (a : Action) : Option Server :=
  if s.blocked then none
  else match a with
  | .accept garbage env =>
      -- without memory `http_accept` fails, and lwIP drops the connection
      if (env.malloc 0).isSome then
        some (Server.absorb { s with conns := s.conns ++ [.fresh] } s.conns.length .fresh
          ⟨httpAccept cfg garbage (s.ctx 0), true⟩)
      else some s
  | .ack j n =>
      match s.conns[j]? with
      | some k =>
          if k.alive ∧ k.acked + n ≤ k.written then
            some { s with conns := s.conns.set j { k with acked := k.acked + n } }
          else none
      | none => none
  | .call j cb env fuel =>
      match s.conns[j]? with
      | some k => if k.alive ∧ k.hears cb then some (s.absorb j (k.before cb) (s.invoke cfg k cb env fuel)) else none
      | none   => none

/-- **A step of the server**, with what holds before it. -/
inductive Server.Stepped (cfg : Config) (s : Server) : Action → Server → Prop where
  | accept {garbage : HttpState} {env : Env} (hmalloc : (env.malloc 0).isSome = true) :
      Stepped cfg s (.accept garbage env) (Server.absorb { s with conns := s.conns ++ [.fresh] } s.conns.length .fresh
        ⟨httpAccept cfg garbage (s.ctx 0), true⟩)
  | refuse {garbage : HttpState} {env : Env} (hmalloc : ¬(env.malloc 0).isSome = true) :
      Stepped cfg s (.accept garbage env) s
  | ack {j n : Nat} {k : Conn} (hk : s.conns[j]? = some k) (halive : k.alive = true) (hroom : k.acked + n ≤ k.written) :
      Stepped cfg s (.ack j n) { s with conns := s.conns.set j { k with acked := k.acked + n } }
  | call {j : Nat} {cb : Callback} {env : Env} {fuel : Nat} {k : Conn} (hidle : s.blocked = false)
      (hk : s.conns[j]? = some k) (halive : k.alive = true) (hhears : k.hears cb = true) :
      Stepped cfg s (.call j cb env fuel) (s.absorb j (k.before cb) (s.invoke cfg k cb env fuel))

theorem Server.step_cases {cfg : Config} {s s' : Server} {a : Action} (h : s.step cfg a = some s') :
    Server.Stepped cfg s a s' := by
  unfold Server.step at h
  split at h
  · cases h
  next hblocked =>
  cases a with
  | accept garbage env =>
      simp only at h
      split at h
      · next hmalloc =>
          obtain rfl := Option.some.inj h
          exact .accept hmalloc
      · next hmalloc =>
          obtain rfl := Option.some.inj h
          exact .refuse hmalloc
  | ack j n =>
      simp only at h
      split at h
      · next k hk =>
          obtain ⟨⟨halive, hroom⟩, ⟨⟩⟩ := Option.ite_none_right_eq_some.mp h
          exact .ack hk halive hroom
      · cases h
  | call j cb env fuel =>
      simp only at h
      split at h
      · next k hk =>
          obtain ⟨⟨halive, hhears⟩, ⟨⟩⟩ := Option.ite_none_right_eq_some.mp h
          exact .call (Bool.eq_false_iff.mpr hblocked) hk halive hhears
      · cases h

/-- The events of one step, those of the callback it issues. -/
def Server.callbackLog (cfg : Config) (s : Server) : Action → List Ev
  | .accept garbage env => if (env.malloc 0).isSome then (httpAccept cfg garbage (s.ctx 0)).log else []
  | .ack _ _ => []
  | .call j cb env fuel =>
      match s.conns[j]? with
      | some k => (s.invoke cfg k cb env fuel).ctx.log
      | none   => []

end ThirdParty.Httpd
