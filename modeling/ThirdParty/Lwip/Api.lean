import ThirdParty.Lib.Bytes

/-!
# `Lwip.Api` — the lwIP calls the web server makes, as events

One invocation of a server callback talks to the stack, to the heap and to the received segment. Every such
operation is an `Ev`, in program order, so that "freed exactly once", "not used after" or "accepted so far"
are statements about one list. `Env` holds what comes back: the answers of `tcp_write`, `tcp_sndbuf`,
`mem_malloc`, `tcp_close` and of the handlers the application registered. Nothing is assumed about them.
-/

namespace ThirdParty.Lwip

open Lib

/-- `err_t` (`lwip/err.h`). -/
inductive Err where
  | ok | mem | buf | timeout | rte | inprogress | val | wouldblock | use | isconn
  | abrt | rst | clsd | conn | arg | iface
  deriving DecidableEq, Repr

/-- A block of the lwIP heap. `serial` numbers the allocations of a run, so that a reused address is not
    mistaken for the block that was there before. -/
structure Block where
  serial : Nat
  addr   : Nat
  deriving DecidableEq, Repr

/-- Where the bytes handed to `tcp_write` come from: position `pos` of header string `idx`, address `a` of
    the file data, or position `idx` of the `tag_insert` array. -/
inductive Src where
  | header (idx pos : Nat)
  | file (a : Nat)
  | insert (idx : Nat)
  deriving DecidableEq, Repr

/-- What a callback does, as seen by the stack, the heap and the segment. -/
inductive Ev where
  /-- a field of the pcb is read (`tcp_sndbuf(pcb)`, `pcb->mss`) -/
  | pcbRead
  | tcpWrite (src : Src) (data : List Byte) (err : Err)
  | tcpOutput
  | tcpRecved (len : Nat)
  /-- `tcp_arg(pcb, hs)` (`true`) or `tcp_arg(pcb, NULL)` -/
  | tcpArg (set : Bool)
  | tcpSent (set : Bool)
  | tcpRecv (set : Bool)
  | tcpErr (set : Bool)
  | tcpPoll (set : Bool)
  | tcpClose (err : Err)
  | tcpAbort
  | pbufFree
  /-- `n` payload bytes from index `i` on are read -/
  | payloadRead (i n : Nat)
  | payloadWrite (i : Nat)
  | mallocState (serial : Nat)
  | mallocBuf (serial : Nat)
  /-- a field of the `http_state` is read or written -/
  | useState (serial : Nat)
  | freeState (serial : Nat)
  | freeBuf (serial : Nat)
  /-- `get_tag_insert(hs)` with this C string in `tag_name` -/
  | getTagInsert (name : List Byte)
  /-- `send_data` found nothing left of the response -/
  | endOfResponse
  | nullDeref
  deriving DecidableEq, Repr

/-- The events that pass the pcb to lwIP or dereference it. -/
def Ev.usesPcb : Ev → Bool
  | .pcbRead | .tcpWrite .. | .tcpOutput | .tcpRecved _ | .tcpArg _ | .tcpSent _ | .tcpRecv _ | .tcpErr _
  | .tcpPoll _ | .tcpClose _ | .tcpAbort => true
  | _ => false

/-- The events that read or write the payload of the received segment. -/
def Ev.usesPayload : Ev → Bool
  | .payloadRead .. | .payloadWrite _ => true
  | _ => false

/-- The calls of `tcp_close`. -/
def Ev.isClose : Ev → Bool
  | .tcpClose _ => true
  | _ => false

/-! ## What TCP has accepted

The bytes of the `tcp_write` calls that returned `ERR_OK`, counting the sources that satisfy `p` only. -/

def Src.any : Src → Bool := fun _ => true

def Src.isHeader : Src → Bool
  | .header .. => true
  | _ => false

/-- File data or an insert. -/
def Src.isBody (src : Src) : Bool := !src.isHeader

def Src.isFile : Src → Bool
  | .file _ => true
  | _ => false

/-- The bytes an event hands over to TCP. -/
def Ev.accepted (p : Src → Bool) : Ev → List Byte
  | .tcpWrite src data .ok => if p src then data else []
  | _ => []

def accepted (p : Src → Bool) (log : List Ev) : List Byte := log.flatMap (Ev.accepted p)

section
variable (p : Src → Bool)

@[simp] theorem accepted_nil : accepted p [] = [] := rfl

@[simp] theorem accepted_append (l₁ l₂ : List Ev) : accepted p (l₁ ++ l₂) = accepted p l₁ ++ accepted p l₂ :=
  List.flatMap_append

@[simp] theorem accepted_cons (e : Ev) (l : List Ev) : accepted p (e :: l) = e.accepted p ++ accepted p l := rfl

/-- Events that hand nothing over accept nothing. -/
theorem accepted_eq_nil {l : List Ev} (h : ∀ e ∈ l, e.accepted p = []) : accepted p l = [] :=
  List.flatMap_eq_nil_iff.mpr h

theorem Ev.accepted_ok {src : Src} (data : List Byte) (hp : p src = true) :
    (Ev.tcpWrite src data .ok).accepted p = data := by
  simp [Ev.accepted, hp]

/-- A refused `tcp_write` hands nothing over. -/
theorem Ev.accepted_of_ne_ok (src : Src) (data : List Byte) {err : Err} (h : err ≠ .ok) :
    (Ev.tcpWrite src data err).accepted p = [] := by
  cases err <;> first | rfl | exact absurd rfl h

/-- Bytes of the wrong kind do not count. -/
theorem Ev.accepted_of_src {src : Src} (data : List Byte) (err : Err) (hp : p src = false) :
    (Ev.tcpWrite src data err).accepted p = [] := by
  cases err <;> simp [Ev.accepted, hp]

end

/-! ## The answers of the outside -/

/-- What an SSI insert handler does: the characters it writes at `pcInsert` and the `int` it returns. -/
structure InsertReply where
  text : List Byte
  ret  : Int
  deriving DecidableEq, Repr

/-- A URI pointer of `http_recv`: into the payload of the segment, to a string constant, or `NULL`. -/
inductive Uri where
  | payload (off : Nat)
  | const (s : List Byte)
  | null
  deriving DecidableEq, Repr

def Uri.isPayload : Uri → Bool
  | .payload _ => true
  | _ => false

/-- The answers given during one callback invocation. `sndbuf k` is the free send buffer once `tcp_write` has
    been called `k` times, `write k` the outcome of the `k`-th `tcp_write`, `malloc k` the result of the
    `k`-th `mem_malloc`, and `insert k i` the reply to the `k`-th call of the insert handler of the response,
    made for tag `i`. -/
structure Env where
  mss    : Nat
  sndbuf : Nat → Nat
  write  : Nat → Err
  malloc : Nat → Option Nat
  close  : Err
  insert : Nat → Nat → InsertReply
  cgi    : Nat → Nat → Uri

end ThirdParty.Lwip
