import ThirdParty.Httpd.Tags

/-!
# `Httpd.SendData` — `send_data` (`httpd.c`)

`send_data` first sends what is left of the headers, then refills the read buffer or closes the connection
when no file data is left, and last hands file data to `tcp_write`, either as it is or through the SSI parser.
The three phases are three definitions; `Sending` holds the locals `err`, `len` and `data_to_send`.

The loops that must terminate take their bound from their own length variable. The SSI loop need not
terminate (it spins on zero-length writes), so it runs on explicit fuel and its outcome says whether the call
returned.
-/

namespace ThirdParty.Httpd

open Lib Lwip

/-- The locals of `send_data` next to the state it works on. -/
structure Sending where
  ctx        : Ctx
  err        : Err
  len        : Nat
  dataToSend : Bool

/-- `if (data_to_send) { tcp_output(pcb); }` -/
def Sending.flush (s : Sending) : Ctx := if s.dataToSend then s.ctx.emit .tcpOutput else s.ctx

/-- `2 * pcb->mss`. -/
def twoMss (env : Env) : Nat := 2 * toU16 env.mss

/-! ## The header phase -/

/-- `while (len && (hs->hdr_index < NUM_FILE_HDR_STRINGS) && sendlen) { ... }`. A round either uses up part
    of `len` or leaves `sendlen` at zero, so `len + 1` rounds are enough. -/
def headerLoop (env : Env) : Nat → Nat → Nat → Err → Ctx → Err × Ctx
  | 0,        _,   _,       err, c => (err, c)
  | fuel + 1, len, sendlen, err, c =>
      if len ≠ 0 ∧ c.hs.hdrIndex < numFileHdrStrings ∧ sendlen ≠ 0 then
        let hdr := c.hs.hdrs c.hs.hdrIndex
        let pos := c.hs.hdrPos
        let hdrlen := toU16 hdr.length
        let sendlen := if (len : Int) < (hdrlen : Int) - pos then len else toU16 ((hdrlen : Int) - pos)
        let (err, sendlen, c) :=
          tcpWriteRetry env (.header c.hs.hdrIndex pos) (fun n => (hdr.drop pos).take n) sendlen c
        -- `hdr_pos` moves by whatever the retry loop left in `sendlen`, accepted or not
        let hs := { c.hs with hdrPos := toU16 (c.hs.hdrPos + sendlen) }
        let len := toU16 ((len : Int) - sendlen)
        let hs := if hs.hdrPos = hdrlen then { hs with hdrIndex := hs.hdrIndex + 1, hdrPos := 0 } else hs
        headerLoop env fuel len sendlen err (c.setHs hs)
      else (err, c)

/-- The header phase. The flag says that `send_data` returns here. -/
def sendHeaders (env : Env) (c : Ctx) : Sending × Bool :=
  let c := c.useState
  if c.hs.hdrIndex < numFileHdrStrings then
    let c := c.emit .pcbRead
    let len := c.tcpSndbuf env
    let (err, c) := headerLoop env (len + 1) len len .ok c
    if c.hs.hdrIndex < numFileHdrStrings ∨ c.hs.file = 0 then
      (⟨c.emit .tcpOutput, err, 0, err = .ok⟩, true)
    else (⟨c, err, 0, err = .ok⟩, false)
  else (⟨c, .ok, 0, false⟩, false)

/-! ## Refill and end of file -/

/-- `do { hs->buf = mem_malloc(count); ... count = count / 2; } while (count > 100);` -/
def allocBuf (env : Env) : Nat → Nat → Ctx → Ctx
  | 0,        _,     c => c
  | fuel + 1, count, c =>
      let answer := env.malloc c.mallocs
      let c := { c with mallocs := c.mallocs + 1 }
      match answer with
      | some a =>
          { c.emit (.mallocBuf c.nextSerial) with
            hs := { c.hs with buf := some ⟨c.nextSerial, a⟩, bufLen := count }
            nextSerial := c.nextSerial + 1 }
      | none => if count / 2 > 100 then allocBuf env fuel (count / 2) c else c

/-- `if (hs->buf) { ... } else { ... }`: the read buffer, allocated now if there is none yet. -/
def obtainBuf (env : Env) (c : Ctx) : Ctx :=
  match c.hs.buf with
  | some _ => c
  | none   => allocBuf env (twoMss env + 1) (twoMss env) (c.emit .pcbRead)

/-- `hs->left = count; hs->file = hs->buf; hs->parse_left = count; hs->parsed = hs->buf;` -/
def HttpState.startBlock (hs : HttpState) (buf count : Nat) : HttpState :=
  { hs with left := count, file := buf, parseLeft := count, parsed := buf }

/-- `if (hs->left == 0) { ... }`. The flag says that `send_data` returns here. -/
def refill (env : Env) (c : Ctx) : Ctx × Bool :=
  let c := c.useState
  if c.hs.left = 0 then
    let c := obtainBuf env c
    match c.hs.buf with
    | none => (c, true)
    | some b =>
        match c.hs.handle with
        | none => (closeConn env (c.emit .endOfResponse), true)
        | some i =>
            let (count, fs, mem) := fsRead c.fs c.mem i b.addr c.hs.bufLen
            let c := { c with fs := fs, mem := mem }
            if count < 0 then (closeConn env ((closeHandle c).emit .endOfResponse), true)
            else (c.setHs (c.hs.startBlock b.addr (toU32 count)), false)
  else (c, false)

/-! ## Handing file bytes to `tcp_write` -/

/-- The retry loop on the first `len` unsent file bytes, and
    `if (err == ERR_OK) { data_to_send = TRUE; hs->file += len; hs->left -= len; }`. -/
def Sending.sendFile (env : Env) (s : Sending) : Sending :=
  let hs := s.ctx.hs
  let (err, len, c) := tcpWriteRetry env (.file hs.file) (bytesAt s.ctx.mem hs.file) s.len s.ctx
  if err = .ok then
    ⟨c.setHs { c.hs with file := c.hs.file + len, left := toU32 ((c.hs.left : Int) - len) }, err, len, true⟩
  else ⟨c, err, len, s.dataToSend⟩

/-- `if (len > (2*pcb->mss)) { len = 2*pcb->mss; }` -/
def clampMss (env : Env) (len : Nat) : Nat := if len > twoMss env then toU16 (twoMss env) else len

/-- Files without tags are sent as they are. -/
def sendPlain (env : Env) (s : Sending) : Ctx :=
  let c := s.ctx.emit .pcbRead
  let len := if c.tcpSndbuf env < c.hs.left then c.tcpSndbuf env else toU16 c.hs.left
  (({ s with ctx := c, len := clampMss env len } : Sending).sendFile env).flush

/-! ## The SSI branch -/

/-- Sends up to `parsed - file` bytes: the bytes that are parsed but not sent yet. -/
def Sending.sendParsed (env : Env) (s : Sending) : Sending :=
  let c := s.ctx.emit .pcbRead
  let rest : Int := (c.hs.parsed : Int) - c.hs.file
  let len := if (c.tcpSndbuf env : Int) < rest then c.tcpSndbuf env else toU16 rest
  ({ s with ctx := c, len := clampMss env len } : Sending).sendFile env

/-- Sends up to `tag_end - file` bytes, but not more than the current `len`. -/
def Sending.sendBeforeTag (env : Env) (s : Sending) : Sending :=
  let rest : Int := (s.ctx.hs.tagEnd : Int) - s.ctx.hs.file
  ({ s with len := if (s.len : Int) > rest then toU16 rest else s.len } : Sending).sendFile env

def Sending.setTag (s : Sending) (t : TagScan) : Sending := { s with ctx := s.ctx.setHs { s.ctx.hs with tag := t } }

/-- `hs->parse_left--; hs->parsed++;` with the new parser state. -/
def Sending.consume (s : Sending) (t : TagScan) : Sending :=
  let hs := s.ctx.hs
  { s with ctx := s.ctx.setHs { hs with tag := t, parseLeft := toU32 ((hs.parseLeft : Int) - 1),
                                        parsed := hs.parsed + 1 } }

/-- A tag was just read: fetch its insert and try to send the file data before it. -/
def Sending.foundTag (cfg : Config) (env : Env) (s : Sending) : Sending :=
  let hs := s.ctx.hs
  let (t, k) := getTagInsert cfg env.insert hs.tag s.ctx.inserts
  let hs := { hs with tag := { t with index := 0, state := .sending }, tagEnd := hs.parsed }
  let s := { s with ctx := { (s.ctx.emit (.getTagInsert (cstr s.ctx.hs.tag.name))).setHs hs with inserts := k } }
  if s.ctx.hs.tagEnd > s.ctx.hs.file then s.sendBeforeTag env else s

/-- `case TAG_SENDING`, the insert itself. The flag says that `send_data` returns here. -/
def Sending.sendInsert (env : Env) (s : Sending) : Sending × Bool :=
  let t := s.ctx.hs.tag
  if t.index < t.insertLen then
    let len := if s.len > t.insertLen - t.index then t.insertLen - t.index else s.len
    let (err, len, c) := tcpWriteRetry env (.insert t.index) (bytesAt t.insert t.index) len s.ctx
    if err = .ok then
      (⟨c.setHs { c.hs with tag := { t with index := toU8 (t.index + len) } }, err, len, true⟩, true)
    else (⟨c, err, len, s.dataToSend⟩, false)
  else (s.setTag { t with index := 0, state := .none }, false)

/-- One round of `while ((hs->parse_left) && (err == ERR_OK)) { switch (hs->tag_state) { ... } }`. -/
def ssiRound (cfg : Config) (env : Env) (s : Sending) : Sending × Bool :=
  let t := s.ctx.hs.tag
  let ch := s.ctx.mem s.ctx.hs.parsed
  match t.state with
  | .none => (s.consume (tagNone t ch), false)
  | .leadin =>
      let (t, used) := tagLeadin t ch
      (if used then s.consume t else s.setTag t, false)
  | .found => (s.consume (tagFound cfg t ch), false)
  | .leadout =>
      let (t, hit) := tagLeadout t ch
      (if hit then (s.consume t).foundTag cfg env else s.consume t, false)
  | .sending =>
      if s.ctx.hs.tagEnd > s.ctx.hs.file then (s.sendBeforeTag env, false) else s.sendInsert env

/-- How the SSI loop ends: its condition fails, `send_data` returns from inside, or the fuel is used up. -/
inductive LoopEnd where
  | done | returned | outOfFuel
  deriving DecidableEq, Repr

def ssiLoop (cfg : Config) (env : Env) : Nat → Sending → Sending × LoopEnd
  | fuel, s =>
      if s.ctx.hs.parseLeft ≠ 0 ∧ s.err = .ok then
        match fuel with
        | 0 => (s, .outOfFuel)
        | fuel + 1 =>
            let (s, ret) := ssiRound cfg env s
            if ret then (s, .returned) else ssiLoop cfg env fuel s
      else (s, .done)

/-- After the loop: send what was parsed, unless the `TAG_SENDING` state has taken care of it. -/
def ssiFinish (env : Env) (s : Sending) : Ctx :=
  let hs := s.ctx.hs
  (if hs.tag.state ≠ .sending ∧ hs.parsed > hs.file then s.sendParsed env else s).flush

/-- Before the loop: send what is already parsed. -/
def ssiStart (env : Env) (s : Sending) : Sending :=
  let s := { s with ctx := s.ctx.emit .pcbRead, len := s.ctx.tcpSndbuf env }
  if s.ctx.hs.parsed > s.ctx.hs.file then s.sendParsed env else s

/-- The loop and what follows it. -/
def ssiScan (cfg : Config) (env : Env) (fuel : Nat) (s : Sending) : Outcome :=
  match ssiLoop cfg env fuel s with
  | (s, .done)      => ⟨ssiFinish env s, true⟩
  | (s, .returned)  => ⟨s.ctx, true⟩
  | (s, .outOfFuel) => ⟨s.ctx, false⟩

def sendSsi (cfg : Config) (env : Env) (fuel : Nat) (s : Sending) : Outcome :=
  let started := ssiStart env s
  if s.ctx.hs.parsed > s.ctx.hs.file ∧ started.ctx.tcpSndbuf env = 0 then ⟨started.flush, true⟩
  else ssiScan cfg env fuel started

/-! ## `send_data` -/

/-- The part of `send_data` after the headers. -/
def sendBody (cfg : Config) (env : Env) (fuel : Nat) (s : Sending) : Outcome :=
  match refill env s.ctx with
  | (c, true)  => ⟨c, true⟩
  | (c, false) =>
      let s := { s with ctx := c }
      if cfg.includeHttpdSsi ∧ c.hs.tagCheck then sendSsi cfg env fuel s else ⟨sendPlain env s, true⟩

def sendData (cfg : Config) (env : Env) (fuel : Nat) (c : Ctx) : Outcome :=
  if cfg.dynamicHttpHeaders then
    match sendHeaders env c with
    | (s, true)  => ⟨s.ctx, true⟩
    | (s, false) => sendBody cfg env fuel s
  else sendBody cfg env fuel ⟨c, .ok, 0, false⟩

end ThirdParty.Httpd
