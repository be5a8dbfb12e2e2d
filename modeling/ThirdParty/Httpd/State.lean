import ThirdParty.Lwip.Api
import ThirdParty.Httpd.Fs

/-!
# `Httpd.State` — configuration and per-connection state of the web server (`httpd.c`)

`HttpState` is `struct http_state`; the `tag_*` members that the SSI parser works on are grouped in `TagScan`.
`Ctx` is what one callback invocation works on: the `http_state` its argument points to, the file system, the
flat memory, the payload of the received segment, and the list of events so far.
-/

namespace ThirdParty.Httpd

open Lib Lwip

/-! ## Configuration -/

/-- The macros of `lwipopts.h`/`httpd.h` and the tables the application registers. `ssiTags` and `cgis` are
    `none` while the handler (or its table) is `NULL`; a table may have no entries. -/
structure Config where
  dynamicHttpHeaders : Bool
  includeHttpdSsi    : Bool
  includeHttpdCgi    : Bool
  maxTagNameLen      : Nat
  maxTagInsertLen    : Nat
  maxCgiParams       : Nat
  fsRoot             : List FsDataFile
  ssiTags            : Option (List (List Byte))
  cgis               : Option (List (List Byte))

/-- `NUM_FILE_HDR_STRINGS`. -/
def numFileHdrStrings : Nat := 3

/-! ## `struct http_state` -/

/-- `enum tag_check_state`. -/
inductive TagCheckState where
  | none | leadin | found | leadout | sending
  deriving DecidableEq, Repr

/-- The `tag_*` members: `name` is the array `tag_name[MAX_TAG_NAME_LEN + 1]`, `insert i` the byte `i` bytes
    after the start of `tag_insert` (inside the array for `i ≤ MAX_TAG_INSERT_LEN`). -/
structure TagScan where
  state     : TagCheckState
  index     : Nat
  insertLen : Nat
  nameLen   : Nat
  name      : List Byte
  insert    : Nat → Byte

/-- `struct http_state`. Pointers into the file data or `buf` are addresses, `0` is `NULL`; `handle` is an
    index into `fs_memory`; `params`/`paramVals` are offsets into the payload of the request. -/
structure HttpState where
  handle    : Option Nat
  file      : Nat
  buf       : Option Block
  parsed    : Nat
  tagEnd    : Nat
  parseLeft : Nat
  left      : Nat
  bufLen    : Nat
  retries   : Nat
  tagCheck  : Bool
  tag       : TagScan
  params    : Nat → Option Nat
  paramVals : Nat → Option Nat
  hdrs      : Nat → List Byte
  hdrPos    : Nat
  hdrIndex  : Nat

/-! ## One callback invocation -/

/-- `writes`, `mallocs` and `inserts` count the calls made so far, to look up their answers in `Env`. -/
structure Ctx where
  self       : Nat
  hs         : HttpState
  fs         : FsMemory
  mem        : Mem
  payload    : List Byte
  writes     : Nat
  mallocs    : Nat
  inserts    : Nat
  nextSerial : Nat
  log        : List Ev

/-- How a call ends: it returned, or it was still in its loop when the fuel ran out. -/
structure Outcome where
  ctx      : Ctx
  returned : Bool

namespace Ctx

def emit (c : Ctx) (e : Ev) : Ctx := { c with log := c.log ++ [e] }

/-- A statement that reads or writes fields of `*hs`. -/
def useState (c : Ctx) : Ctx := c.emit (.useState c.self)

def setHs (c : Ctx) (hs : HttpState) : Ctx := { c with hs := hs }

section
variable (c : Ctx) (e : Ev) (hs : HttpState)

@[simp] theorem emit_hs : (c.emit e).hs = c.hs := rfl
@[simp] theorem emit_self : (c.emit e).self = c.self := rfl
@[simp] theorem emit_fs : (c.emit e).fs = c.fs := rfl
@[simp] theorem emit_mem : (c.emit e).mem = c.mem := rfl
@[simp] theorem emit_payload : (c.emit e).payload = c.payload := rfl
@[simp] theorem emit_writes : (c.emit e).writes = c.writes := rfl
@[simp] theorem emit_mallocs : (c.emit e).mallocs = c.mallocs := rfl
@[simp] theorem emit_inserts : (c.emit e).inserts = c.inserts := rfl
@[simp] theorem emit_nextSerial : (c.emit e).nextSerial = c.nextSerial := rfl
@[simp] theorem emit_log : (c.emit e).log = c.log ++ [e] := rfl

@[simp] theorem useState_hs : c.useState.hs = c.hs := rfl
@[simp] theorem useState_self : c.useState.self = c.self := rfl
@[simp] theorem useState_fs : c.useState.fs = c.fs := rfl
@[simp] theorem useState_mem : c.useState.mem = c.mem := rfl
@[simp] theorem useState_payload : c.useState.payload = c.payload := rfl
@[simp] theorem useState_writes : c.useState.writes = c.writes := rfl
@[simp] theorem useState_mallocs : c.useState.mallocs = c.mallocs := rfl
@[simp] theorem useState_inserts : c.useState.inserts = c.inserts := rfl
@[simp] theorem useState_nextSerial : c.useState.nextSerial = c.nextSerial := rfl
@[simp] theorem useState_log : c.useState.log = c.log ++ [.useState c.self] := rfl

@[simp] theorem setHs_hs : (c.setHs hs).hs = hs := rfl
@[simp] theorem setHs_self : (c.setHs hs).self = c.self := rfl
@[simp] theorem setHs_fs : (c.setHs hs).fs = c.fs := rfl
@[simp] theorem setHs_mem : (c.setHs hs).mem = c.mem := rfl
@[simp] theorem setHs_payload : (c.setHs hs).payload = c.payload := rfl
@[simp] theorem setHs_writes : (c.setHs hs).writes = c.writes := rfl
@[simp] theorem setHs_mallocs : (c.setHs hs).mallocs = c.mallocs := rfl
@[simp] theorem setHs_inserts : (c.setHs hs).inserts = c.inserts := rfl
@[simp] theorem setHs_nextSerial : (c.setHs hs).nextSerial = c.nextSerial := rfl
@[simp] theorem setHs_log : (c.setHs hs).log = c.log := rfl

end

/-- `tcp_write(pcb, dataptr, len, apiflags)`: the answer is the environment's. -/
def tcpWrite (c : Ctx) (env : Env) (src : Src) (data : List Byte) : Err × Ctx :=
  let err := env.write c.writes
  (err, { c.emit (.tcpWrite src data err) with writes := c.writes + 1 })

/-- `tcp_sndbuf(pcb)`, a `u16_t` field of the pcb. -/
def tcpSndbuf (c : Ctx) (env : Env) : Nat := toU16 (env.sndbuf c.writes)

end Ctx

/-! ## The retry loop around `tcp_write`

Every call of `tcp_write` in `send_data` sits in the same loop:
`do { err = tcp_write(..., len, ...); if (err == ERR_MEM) len /= 2; } while (err == ERR_MEM && len > 1);` -/

/-- The loop, offering the first `len` bytes of a source (`data len`). The length at least halves in every
    round, so `len + 1` rounds are enough. -/
def writeHalving (env : Env) (src : Src) (data : Nat → List Byte) : Nat → Nat → Ctx → Err × Nat × Ctx
  | 0,        len, c => (.mem, len, c)
  | fuel + 1, len, c =>
      let (err, c) := c.tcpWrite env src (data len)
      let len := if err = .mem then len / 2 else len
      if err = .mem ∧ len > 1 then writeHalving env src data fuel len c else (err, len, c)

/-- The loop started with length `len`. -/
def tcpWriteRetry (env : Env) (src : Src) (data : Nat → List Byte) (len : Nat) (c : Ctx) : Err × Nat × Ctx :=
  writeHalving env src data (len + 1) len c

/-! ## Closing (`conn_err`, `close_conn`) -/

/-- `if (hs->handle) { fs_close(hs->handle); hs->handle = NULL; }` -/
def closeHandle (c : Ctx) : Ctx :=
  match c.hs.handle with
  | some i => { c with fs := fsClose c.fs i, hs := { c.hs with handle := none } }
  | none   => c

/-- `if (hs->buf) { mem_free(hs->buf); } mem_free(hs);` -/
def freeAll (c : Ctx) : Ctx :=
  let c := match c.hs.buf with
    | some b => c.emit (.freeBuf b.serial)
    | none   => c
  c.emit (.freeState c.self)

section
variable (c : Ctx)

@[simp] theorem closeHandle_hs : (closeHandle c).hs = { c.hs with handle := none } := by
  unfold closeHandle
  split
  · rfl
  · next hh =>
      obtain ⟨self, hs⟩ := c
      obtain ⟨handle⟩ := hs
      simp only at hh
      subst hh
      rfl

@[simp] theorem closeHandle_log : (closeHandle c).log = c.log := by unfold closeHandle; split <;> rfl
@[simp] theorem closeHandle_self : (closeHandle c).self = c.self := by unfold closeHandle; split <;> rfl
@[simp] theorem closeHandle_mem : (closeHandle c).mem = c.mem := by unfold closeHandle; split <;> rfl
@[simp] theorem closeHandle_inserts : (closeHandle c).inserts = c.inserts := by unfold closeHandle; split <;> rfl
@[simp] theorem closeHandle_nextSerial : (closeHandle c).nextSerial = c.nextSerial := by
  unfold closeHandle; split <;> rfl

@[simp] theorem freeAll_hs : (freeAll c).hs = c.hs := by unfold freeAll; split <;> rfl
@[simp] theorem freeAll_self : (freeAll c).self = c.self := by unfold freeAll; split <;> rfl
@[simp] theorem freeAll_fs : (freeAll c).fs = c.fs := by unfold freeAll; split <;> rfl
@[simp] theorem freeAll_mem : (freeAll c).mem = c.mem := by unfold freeAll; split <;> rfl
@[simp] theorem freeAll_inserts : (freeAll c).inserts = c.inserts := by unfold freeAll; split <;> rfl
@[simp] theorem freeAll_nextSerial : (freeAll c).nextSerial = c.nextSerial := by unfold freeAll; split <;> rfl

/-- What is freed: the buffer if there is one, then the state. -/
def freeEvents (c : Ctx) : List Ev :=
  (match c.hs.buf with
    | some b => [.freeBuf b.serial]
    | none   => []) ++ [.freeState c.self]

@[simp] theorem freeAll_log : (freeAll c).log = c.log ++ freeEvents c := by
  unfold freeAll freeEvents
  cases c.hs.buf <;> simp

end

/-- `conn_err` with a non-`NULL` argument (with `NULL` it does nothing). -/
def connErr (c : Ctx) : Ctx := freeAll (closeHandle c.useState)

/-- `close_conn`. -/
def closeConn (env : Env) (c : Ctx) : Ctx :=
  let c := ((c.emit (.tcpArg false)).emit (.tcpSent false)).emit (.tcpRecv false)
  let c := freeAll (closeHandle c.useState)
  c.emit (.tcpClose env.close)

/-- The events of `close_conn`. -/
def closeEvents (env : Env) (c : Ctx) : List Ev :=
  [.tcpArg false, .tcpSent false, .tcpRecv false, .useState c.self] ++ freeEvents c ++ [.tcpClose env.close]

theorem closeConn_log (env : Env) (c : Ctx) : (closeConn env c).log = c.log ++ closeEvents env c := by
  simp [closeConn, closeEvents, freeEvents]

theorem closeConn_self (env : Env) (c : Ctx) : (closeConn env c).self = c.self := by
  simp [closeConn]

theorem closeConn_hs (env : Env) (c : Ctx) : (closeConn env c).hs = { c.hs with handle := none } := by
  simp [closeConn]

end ThirdParty.Httpd
