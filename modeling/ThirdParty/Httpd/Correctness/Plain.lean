import ThirdParty.Lib.Run
import ThirdParty.Httpd.Response
import ThirdParty.Httpd.Correctness.Closing

/-!
# `Httpd.Correctness.Plain` — a file without tags is transferred exactly

The ROM files are opened at their end, so a call of `send_data` on an open file does one of three things, after
some idling (`Idles`: headers, a read buffer): it returns, it closes because no byte is left, or it hands file
bytes to TCP. `sendData_cases` says so; the exactness of the plain transfer follows by the invariant
`PlainSent`, which ties the cursor to what TCP has accepted.
-/

namespace ThirdParty.Httpd

open Lib Lwip

/-! ## Idling -/

/-- The calls of `tcp_write` that offer file data or an insert, and those of `get_tag_insert`. -/
def offersBody : Ev → Bool
  | .tcpWrite src _ _ => src.isBody
  | .getTagInsert _ => true
  | _ => false

/-- No byte of the file was offered and no cursor of the file moved. -/
structure Idles (c c' : Ctx) : Prop where
  hs      : ∃ b n pos idx, c'.hs = { c.hs with buf := b, bufLen := n, hdrPos := pos, hdrIndex := idx }
  fs      : c'.fs = c.fs
  mem     : c'.mem = c.mem
  inserts : c'.inserts = c.inserts
  closed  : c'.closed = c.closed
  body    : accepted Src.isBody c'.log = accepted Src.isBody c.log
  log     : ∃ es, c'.log = c.log ++ es ∧ ∀ e ∈ es, offersBody e = false

theorem Idles.trans {c₁ c₂ c₃ : Ctx} (h : Idles c₁ c₂) (h' : Idles c₂ c₃) : Idles c₁ c₃ := by
  obtain ⟨_, _, _, _, hhs⟩ := h.hs
  obtain ⟨b, n, pos, idx, hhs'⟩ := h'.hs
  obtain ⟨es, hes, hall⟩ := h.log
  obtain ⟨es', hes', hall'⟩ := h'.log
  exact ⟨⟨b, n, pos, idx, by rw [hhs', hhs]⟩, h'.fs.trans h.fs, h'.mem.trans h.mem,
    h'.inserts.trans h.inserts, h'.closed.trans h.closed, h'.body.trans h.body,
    es ++ es', by rw [hes', hes, List.append_assoc], fun e he => (List.mem_append.mp he).elim (hall e) (hall' e)⟩

theorem closed_of_log {c c' : Ctx} {es : List Ev} (hlog : c'.log = c.log ++ es)
    (hes : ∀ e ∈ es, e.isClose = false) : c'.closed = c.closed := by
  have hnone : es.any Ev.isClose = false := by simpa using hes
  unfold Ctx.closed
  rw [hlog, List.any_append, hnone, Bool.or_false]

theorem isClose_of_sends {p : Src → Bool} {self : Nat} {e : Ev} (h : sendsFrom p self e = true) :
    e.isClose = false := by
  cases e <;> first | rfl | simp [sendsFrom] at h

theorem Sends.closed {p : Src → Bool} {c c' : Ctx} (h : Sends p c c') : c'.closed = c.closed := by
  obtain ⟨es, hes, hall⟩ := h.log
  exact closed_of_log hes fun e he => isClose_of_sends (hall e he)

theorem Stays.closed {p : Src → Bool} {c c' : Ctx} (h : Stays p c c') : c'.closed = c.closed := by
  obtain ⟨es, hes, hall⟩ := h.events (q := fun e => e.isClose = false) (fun e he => isClose_of_sends he) fun _ => rfl
  exact closed_of_log hes hall

/-- Header bytes are none of the body, and the rest of what sending does offers nothing. -/
theorem offersBody_of_sends {p : Src → Bool} (hp : ∀ src, p src = true → src.isBody = false) {self : Nat} {e : Ev}
    (h : sendsFrom p self e = true) : offersBody e = false := by
  cases e with
  | tcpWrite src data err => exact hp src h
  | getTagInsert name => exact absurd (hp _ h) (by decide)
  | _ => rfl

theorem SentHeaders.idles {c c' : Ctx} (h : SentHeaders c c') : Idles c c' := by
  obtain ⟨pos, idx, hhs⟩ := h.hs
  obtain ⟨es, hes, hall⟩ := h.sends.log
  refine ⟨⟨_, _, pos, idx, hhs⟩, h.sends.fs, h.sends.mem, h.inserts, h.sends.closed, h.body, es, hes, fun e he => ?_⟩
  exact offersBody_of_sends (fun src hsrc => by simp [Src.isBody, hsrc]) (hall e he)

theorem obtainBuf_idles (env : Env) (c : Ctx) : Idles c (obtainBuf env c) := by
  obtain ⟨hstays, hfs, hmem, hins, hbody, ⟨b, n, hhs⟩, -⟩ := obtainBuf_spec (fun _ => false) env c
  refine ⟨⟨b, n, _, _, hhs⟩, hfs, hmem, hins, hstays.closed, hbody, ?_⟩
  apply hstays.events
  · exact fun e he => offersBody_of_sends (fun _ hp => Bool.noConfusion hp) he
  · exact fun _ => rfl

theorem useState_idles (c : Ctx) : Idles c c.useState :=
  (SentHeaders.emit c (by simp [sendsFrom])).idles

theorem accepted_closeEvents (p : Src → Bool) (env : Env) (c : Ctx) : accepted p (closeEvents env c) = [] := by
  unfold closeEvents freeEvents
  cases c.hs.buf <;> rfl

/-- `close_conn` accepts nothing and leaves the cursors alone. -/
theorem closeConn_idle (env : Env) (c : Ctx) :
    (closeConn env (c.emit .endOfResponse)).closed = true ∧
    accepted Src.isBody (closeConn env (c.emit .endOfResponse)).log = accepted Src.isBody c.log ∧
    (closeConn env (c.emit .endOfResponse)).mem = c.mem ∧
    (closeConn env (c.emit .endOfResponse)).inserts = c.inserts ∧
    (closeConn env (c.emit .endOfResponse)).hs = { c.hs with handle := none } := by
  refine ⟨?_, ?_, by simp [closeConn], by simp [closeConn], closeConn_hs env _⟩
  · simp [Ctx.closed, closeConn, Ev.isClose]
  · simp [closeConn_log, accepted_closeEvents, Ev.accepted]

/-! ## One call on an open file -/

/-- Slot `i` is open for `hs` and read to its end, as `fs_open` leaves it. -/
def HoldsFile (i : Nat) (c : Ctx) : Prop :=
  c.hs.handle = some i ∧ (fsFile c.fs i).index = (fsFile c.fs i).len

theorem HoldsFile.of_idles {i : Nat} {c c' : Ctx} (h : HoldsFile i c) (hidle : Idles c c') : HoldsFile i c' := by
  obtain ⟨b, n, pos, idx, hhs⟩ := hidle.hs
  unfold HoldsFile
  rw [hhs, hidle.fs]
  exact h

/-- What `send_data` does with the file data it has. -/
def sendFileData (cfg : Config) (env : Env) (fuel : Nat) (s : Sending) : Outcome :=
  if cfg.includeHttpdSsi ∧ s.ctx.hs.tagCheck then sendSsi cfg env fuel s else ⟨sendPlain env s, true⟩

/-- Refilling on an open file: there is no buffer, or no file data is left, or there is nothing to refill. -/
theorem refill_cases (env : Env) {i : Nat} {c : Ctx} (h : HoldsFile i c) :
    ∃ c₁, Idles c c₁ ∧
      (refill env c = (c₁, true) ∨
      (c₁.hs.left = 0 ∧ refill env c = (closeConn env (c₁.emit .endOfResponse), true)) ∨
      (c₁.hs.left ≠ 0 ∧ refill env c = (c₁, false))) := by
  by_cases hleft : c.hs.left = 0
  swap
  · exact ⟨c.useState, useState_idles _, .inr (.inr ⟨hleft, refill_left env hleft⟩)⟩
  have hidle : Idles c (obtainBuf env c.useState) := (useState_idles _).trans (obtainBuf_idles env _)
  refine ⟨obtainBuf env c.useState, hidle, ?_⟩
  by_cases hgets : c.hs.buf ≠ none ∨ GetsBuffer env c.mallocs (twoMss env)
  · have hex : Exhausted env c := ⟨hleft, hgets, by rw [AtEnd, h.1]; exact h.2⟩
    obtain ⟨b, n, pos, idx, hhs⟩ := hidle.hs
    exact .inr (.inl ⟨by rw [hhs]; exact hleft, refill_exhausted env c hex⟩)
  · exact .inl (refill_noBuf env hleft hgets)

/-- The state in which the file data is sent, unless `send_data` returns before. -/
def bodyStart (env : Env) (s : Sending) : Option Sending :=
  match refill env s.ctx with
  | (_, true)  => none
  | (c, false) => some { s with ctx := c }

/-- The same from the start of `send_data` on. -/
def fileStart (cfg : Config) (env : Env) (c : Ctx) : Option Sending :=
  if cfg.dynamicHttpHeaders then
    match sendHeaders env c with
    | (_, true)  => none
    | (s, false) => bodyStart env s
  else bodyStart env ⟨c, .ok, 0, false⟩

/-- How a call goes whose state is `c₁` after some idling: `start` is where the file data is sent, `call` what the call
    comes to. -/
def CallCases (cfg : Config) (env : Env) (fuel : Nat) (start : Option Sending) (call : Outcome) (c₁ : Ctx) : Prop :=
  (start = none ∧ call = ⟨c₁, true⟩) ∨
  (start = none ∧ c₁.hs.left = 0 ∧ call = ⟨closeConn env (c₁.emit .endOfResponse), true⟩) ∨
  (c₁.hs.left ≠ 0 ∧ ∃ s : Sending, s.ctx = c₁ ∧ start = some s ∧ call = sendFileData cfg env fuel s)

theorem bodyStart_cases (cfg : Config) (env : Env) (fuel : Nat) {i : Nat} (s : Sending) (h : HoldsFile i s.ctx) :
    ∃ c₁, Idles s.ctx c₁ ∧ CallCases cfg env fuel (bodyStart env s) (sendBody cfg env fuel s) c₁ := by
  obtain ⟨c₁, hidle, hcases⟩ := refill_cases env h
  refine ⟨c₁, hidle, ?_⟩
  unfold bodyStart sendBody
  rcases hcases with heq | ⟨hleft, heq⟩ | ⟨hleft, heq⟩
  · rw [heq]
    exact .inl ⟨rfl, rfl⟩
  · rw [heq]
    exact .inr (.inl ⟨rfl, hleft, rfl⟩)
  · rw [heq]
    exact .inr (.inr ⟨hleft, _, rfl, rfl, rfl⟩)

theorem fileStart_cases (cfg : Config) (env : Env) (fuel : Nat) {i : Nat} {c : Ctx} (h : HoldsFile i c) :
    ∃ c₁, Idles c c₁ ∧ CallCases cfg env fuel (fileStart cfg env c) (sendData cfg env fuel c) c₁ := by
  unfold fileStart sendData
  split
  · have hidle := (sendHeaders_sentHeaders env c).idles
    generalize sendHeaders env c = r at hidle
    obtain ⟨s, ret⟩ := r
    cases ret with
    | true => exact ⟨s.ctx, hidle, .inl ⟨rfl, rfl⟩⟩
    | false =>
        obtain ⟨c₁, hc₁, hcases⟩ := bodyStart_cases cfg env fuel s (h.of_idles hidle)
        exact ⟨c₁, hidle.trans hc₁, hcases⟩
  · exact bodyStart_cases cfg env fuel ⟨c, .ok, 0, false⟩ h

/-- **One call of `send_data` on an open file.** -/
theorem sendData_cases (cfg : Config) (env : Env) (fuel : Nat) {i : Nat} {c : Ctx} (h : HoldsFile i c) :
    ∃ c₁, Idles c c₁ ∧
      (sendData cfg env fuel c = ⟨c₁, true⟩ ∨
      (c₁.hs.left = 0 ∧ sendData cfg env fuel c = ⟨closeConn env (c₁.emit .endOfResponse), true⟩) ∨
      (c₁.hs.left ≠ 0 ∧ ∃ s : Sending, s.ctx = c₁ ∧ sendData cfg env fuel c = sendFileData cfg env fuel s)) := by
  obtain ⟨c₁, hidle, hcases⟩ := fileStart_cases cfg env fuel h
  refine ⟨c₁, hidle, ?_⟩
  rcases hcases with ⟨-, heq⟩ | ⟨-, hleft, heq⟩ | ⟨hleft, s, hs, -, heq⟩
  · exact .inl heq
  · exact .inr (.inl ⟨hleft, heq⟩)
  · exact .inr (.inr ⟨hleft, s, hs, heq⟩)

theorem Serving.holdsFile {f : FsDataFile} {i : Nat} {tagCheck : Bool} {c : Ctx} (h : Serving f i tagCheck c) :
    HoldsFile i c := by
  obtain ⟨root, m, hfind, hopen⟩ := h.opened
  obtain ⟨hs, hdrs, pos, idx, hhs⟩ := h.setUp
  refine ⟨by rw [hhs]; rfl, ?_⟩
  rw [fsFile_fsOpen hopen hfind]

/-! ## The plain transfer -/

/-- **The transfer invariant.** The cursor stands `f.len - left` bytes into the file, and just these bytes have
    been accepted. -/
structure PlainSent (m : Mem) (f : FsDataFile) (c : Ctx) : Prop where
  mem     : c.mem = m
  left_le : c.hs.left ≤ f.len
  file    : c.hs.file = f.data + (f.len - c.hs.left)
  body    : accepted Src.isBody c.log = bytesAt m f.data (f.len - c.hs.left)

section
variable {m : Mem} {f : FsDataFile} {c c' : Ctx}

theorem PlainSent.left_lt (h : PlainSent m f c) : c.hs.left < 4294967296 := by
  have := f.len_lt
  have := h.left_le
  omega

theorem PlainSent.of_idles (h : PlainSent m f c) (hidle : Idles c c') : PlainSent m f c' := by
  obtain ⟨b, n, pos, idx, hhs⟩ := hidle.hs
  exact ⟨hidle.mem.trans h.mem, by rw [hhs]; exact h.left_le, by rw [hhs]; exact h.file,
    by rw [hidle.body, hhs]; exact h.body⟩

/-- Accepting `n` more bytes moves on by `n`. -/
theorem PlainSent.advance {n : Nat} (h : PlainSent m f c) (hn : n ≤ c.hs.left) (hsent : SentFile c c' n) :
    PlainSent m f c' := by
  have hle := h.left_le
  have hleft : c'.hs.left = c.hs.left - n := by
    rw [hsent.hs]
    exact toU32_sub hn h.left_lt
  have hdone : f.len - c'.hs.left = (f.len - c.hs.left) + n := by omega
  refine ⟨hsent.sends.mem.trans h.mem, by omega, ?_, ?_⟩
  · rw [hdone, hsent.hs]
    show c.hs.file + n = _
    rw [h.file]
    omega
  · rw [hdone, bytesAt_add, ← h.file, ← h.body, hsent.body, h.mem]

end

/-- The invariant of a run: while the connection is open the file is held, and it is closed at the end only. -/
def PlainInv (m : Mem) (f : FsDataFile) (i : Nat) (o : Outcome) : Prop :=
  PlainSent m f o.ctx ∧ (o.ctx.closed = false → o.ctx.hs.tagCheck = false ∧ HoldsFile i o.ctx) ∧
  (o.ctx.closed = true → o.ctx.hs.left = 0)

theorem plainInv_start {f : FsDataFile} {i : Nat} {c : Ctx} (h : Serving f i false c) :
    PlainInv c.mem f i ⟨c, true⟩ := by
  obtain ⟨root, m, hfind, hopen⟩ := h.opened
  obtain ⟨hs, hdrs, pos, idx, hhs⟩ := h.setUp
  have hfile := fsFile_fsOpen hopen hfind
  have hleft : c.hs.left = f.len := by
    rw [hhs, hfile]
    exact toU32_of_lt (Nat.lt_trans f.len_lt (by decide))
  have hcur : c.hs.file = f.data := by rw [hhs, hfile]; rfl
  refine ⟨⟨rfl, by simp [hleft], by simp [hleft, hcur], by simp [h.log, hleft]⟩, ?_, ?_⟩
  · intro _
    exact ⟨by rw [hhs], h.holdsFile⟩
  · intro hclosed
    simp [Ctx.closed, h.log] at hclosed

/-- One call of `send_data` keeps the invariant. -/
theorem plainInv_step {cfg : Config} {insert : Nat → Nat → InsertReply} {m : Mem} {f : FsDataFile} {i : Nat}
    {o o' : Outcome} {call : SendCall} (h : PlainInv m f i o) (hstep : sendStep cfg insert o call = some o') :
    PlainInv m f i o' := by
  obtain ⟨hopen, rfl⟩ := sendStep_spec hstep
  obtain ⟨hsent, hheld, -⟩ := h
  obtain ⟨htag, hholds⟩ := hheld hopen
  obtain ⟨c₁, hidle, hcases⟩ := sendData_cases cfg { call.env with insert := insert } call.fuel hholds
  have hsent₁ := hsent.of_idles hidle
  have hholds₁ := hholds.of_idles hidle
  obtain ⟨b, n, pos, idx, hhs⟩ := hidle.hs
  have htag₁ : c₁.hs.tagCheck = false := by rw [hhs]; exact htag
  have hopen₁ : c₁.closed = false := hidle.closed.trans hopen
  rcases hcases with heq | ⟨hleft, heq⟩ | ⟨hleft, s, rfl, heq⟩
  · rw [heq]
    exact ⟨hsent₁, fun _ => ⟨htag₁, hholds₁⟩, fun hc => absurd hc (by simp [hopen₁])⟩
  · rw [heq]
    -- nothing was left, and the connection is closed
    obtain ⟨hclosed, hbody, hmem, -, hhs'⟩ := closeConn_idle { call.env with insert := insert } c₁
    refine ⟨⟨hmem.trans hsent₁.mem, ?_, ?_, ?_⟩, fun hc => absurd hc (by simp [hclosed]), fun _ => ?_⟩
    · rw [hhs']; exact hsent₁.left_le
    · rw [hhs']; exact hsent₁.file
    · rw [hbody, hhs']; exact hsent₁.body
    · rw [hhs']; exact hleft
  · rw [heq]
    obtain ⟨n, hn, hadv⟩ := sendPlain_spec { call.env with insert := insert } s hsent₁.left_lt
    have hplain : sendFileData cfg { call.env with insert := insert } call.fuel s =
        ⟨sendPlain { call.env with insert := insert } s, true⟩ := by
      unfold sendFileData
      rw [if_neg (by simp [htag₁])]
    rw [hplain]
    refine ⟨hsent₁.advance hn hadv, fun _ => ⟨?_, ?_, ?_⟩, fun hc => ?_⟩
    · exact hadv.sends.tagCheck.trans htag₁
    · exact hadv.sends.handle.trans hholds₁.1
    · rw [hadv.sends.fs]; exact hholds₁.2
    · rw [hadv.sends.closed, hopen₁] at hc
      exact absurd hc (by simp)

/-- **Plain file transfer is exact.** In every run of `send_data` on a file without tags, whatever the send
    buffer, the allocator and `tcp_write` answer, TCP has accepted exactly the first `f.len - left` bytes of
    the file, `file` points at the next one, and the connection is closed only when this is the whole file. -/
theorem plain_transfer_exact {cfg : Config} {insert : Nat → Nat → InsertReply} {f : FsDataFile} {i : Nat} {c : Ctx}
    {tr : List (Outcome × SendCall)} {o : Outcome} (hserve : Serving f i false c)
    (hrun : Run (sendStep cfg insert) ⟨c, true⟩ tr o) :
    o.ctx.hs.left ≤ f.len ∧
    accepted Src.isBody o.ctx.log = (bytesAt c.mem f.data f.len).take (f.len - o.ctx.hs.left) ∧
    o.ctx.hs.file = f.data + (f.len - o.ctx.hs.left) ∧
    (o.ctx.closed = true → accepted Src.isBody o.ctx.log = bytesAt c.mem f.data f.len) := by
  obtain ⟨hsent, -, hclosed⟩ := hrun.invariant (plainInv_start hserve) plainInv_step
  refine ⟨hsent.left_le, ?_, hsent.file, fun hc => ?_⟩
  · rw [bytesAt_take (Nat.sub_le _ _), hsent.body]
  · rw [hsent.body, hclosed hc, Nat.sub_zero]

/-! A file of three bytes, sent in one call; the second call closes. -/

def plainFile : FsDataFile := ⟨lit "/a.txt", 4096, 3, by decide⟩

def plainStart : Ctx := soleStart plainFile (lit "abc") false (fun _ => []) numFileHdrStrings

theorem plain_transfer_exact_abc :
    ∃ tr o, Run (sendStep (soleConfig plainFile false) soleEnv.insert) ⟨plainStart, true⟩ tr o ∧
      o.ctx.closed = true ∧ accepted Src.isBody o.ctx.log = lit "abc" := by
  have hex : ((runActions (sendStep (soleConfig plainFile false) soleEnv.insert) ⟨plainStart, true⟩
      [⟨soleEnv, 0⟩, ⟨soleEnv, 0⟩]).map fun o => o.ctx.closed) = some true := by decide +kernel
  obtain ⟨o, ho, hclosed⟩ := Option.map_eq_some_iff.mp hex
  obtain ⟨tr, hrun, -⟩ := Run.of_runActions ho
  have hmain := plain_transfer_exact (soleStart_serving plainFile (lit "abc") false (fun _ => []) numFileHdrStrings)
    hrun
  exact ⟨tr, o, hrun, hclosed, (hmain.2.2.2 hclosed).trans (by decide +kernel)⟩

end ThirdParty.Httpd
