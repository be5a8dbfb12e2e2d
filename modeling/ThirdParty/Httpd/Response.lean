import ThirdParty.Httpd.SendData

/-!
# `Httpd.Response` — serving one file

How `http_recv` prepares the `http_state` for a file it opened, and the runs of `send_data` that follow: one
call after the other, each with answers of its own, until a call closes the connection or does not return.
-/

namespace ThirdParty.Httpd

open Lib Lwip

/-- The assignments of `http_recv` when it has a file: slot `i`, holding `file`. -/
def HttpState.serve (hs : HttpState) (i : Nat) (file : FsFile) : HttpState :=
  { hs with
    tag := { hs.tag with index := 0, state := .none }
    parsed := file.data, parseLeft := toU32 file.len, tagEnd := file.data
    handle := some i, file := file.data, left := toU32 file.len, retries := 0 }

/-- The state in which the first `send_data` for file `f` is called: `fs_open` has put the file into slot `i`,
    and the `http_state` is prepared, with any headers. -/
structure Serving (f : FsDataFile) (i : Nat) (tagCheck : Bool) (c : Ctx) : Prop where
  opened : ∃ root m, root.find? (fun g => g.name = f.name) = some f ∧ fsOpen root m f.name = (some i, c.fs)
  setUp  : ∃ (hs : HttpState) (hdrs : Nat → List Byte) (pos idx : Nat),
    c.hs = { hs.serve i (fsFile c.fs i) with tagCheck := tagCheck, hdrs := hdrs, hdrPos := pos, hdrIndex := idx }
  log    : c.log = []

/-- `close_conn` has been called. -/
def Ctx.closed (c : Ctx) : Bool := c.log.any Ev.isClose

/-- One call of `send_data`: what it is answered, and how many rounds of the SSI loop are looked at. -/
structure SendCall where
  env  : Env
  fuel : Nat

/-- The next call of `send_data`, possible as long as the last one returned and left the connection open. The
    replies of the insert handler, `insert`, are fixed for the whole run. -/
def sendStep (cfg : Config) (insert : Nat → Nat → InsertReply) (o : Outcome) (call : SendCall) : Option Outcome :=
  if o.returned ∧ o.ctx.closed = false then
    some (sendData cfg { call.env with insert := insert } call.fuel o.ctx)
  else none

/-- What a call was made on, and what it led to. -/
theorem sendStep_spec {cfg : Config} {insert : Nat → Nat → InsertReply} {o o' : Outcome} {call : SendCall}
    (h : sendStep cfg insert o call = some o') :
    o.ctx.closed = false ∧ o' = sendData cfg { call.env with insert := insert } call.fuel o.ctx := by
  obtain ⟨⟨-, hopen⟩, ⟨⟩⟩ := Option.ite_none_right_eq_some.mp h
  exact ⟨hopen, rfl⟩

/-! ## A ROM with a single file

For concrete runs: the file stands at address 4096, TCP takes everything, and every `mem_malloc` succeeds. -/

/-- An `http_state` of zeros. -/
def HttpState.zero : HttpState where
  handle    := none
  file      := 0
  buf       := none
  parsed    := 0
  tagEnd    := 0
  parseLeft := 0
  left      := 0
  bufLen    := 0
  retries   := 0
  tagCheck  := false
  tag       := ⟨.none, 0, 0, 0, List.replicate 9 0, fun _ => 0⟩
  params    := fun _ => none
  paramVals := fun _ => none
  hdrs      := fun _ => []
  hdrPos    := 0
  hdrIndex  := numFileHdrStrings

/-- `lwipopts.h` with SSI and one registered tag, `x`. -/
def soleConfig (f : FsDataFile) (dynamic : Bool) : Config :=
  ⟨dynamic, true, false, 8, 192, 16, [f], some [lit "x"], none⟩

def soleEnv : Env :=
  ⟨1460, fun _ => 2920, fun _ => .ok, fun _ => some 9000, .ok, fun _ _ => ⟨lit "hi", 2⟩, fun _ _ => .null⟩

/-- The state in which the file is served, with content `bytes` and headers `hdrs`. -/
def soleStart (f : FsDataFile) (bytes : List Byte) (tagCheck : Bool) (hdrs : Nat → List Byte) (idx : Nat) : Ctx where
  self       := 0
  hs         := { HttpState.zero.serve 0 ⟨f.data, f.len, f.len⟩ with
    tagCheck := tagCheck, hdrs := hdrs, hdrPos := 0, hdrIndex := idx }
  fs         := [⟨⟨f.data, f.len, f.len⟩, true⟩]
  mem        := fun a => bytes.getD (a - f.data) 0
  payload    := []
  writes     := 0
  mallocs    := 0
  inserts    := 0
  nextSerial := 1
  log        := []

theorem soleStart_serving (f : FsDataFile) (bytes : List Byte) (tagCheck : Bool) (hdrs : Nat → List Byte)
    (idx : Nat) : Serving f 0 tagCheck (soleStart f bytes tagCheck hdrs idx) where
  opened := ⟨[f], [⟨⟨0, 0, 0⟩, false⟩], by simp, by simp [fsOpen, fsMalloc, soleStart]⟩
  setUp  := ⟨HttpState.zero, hdrs, 0, idx, rfl⟩
  log    := rfl

end ThirdParty.Httpd
