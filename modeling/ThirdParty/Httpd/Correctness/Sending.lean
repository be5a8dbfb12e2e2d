import ThirdParty.Httpd.SendData

/-!
# `Httpd.Correctness.Sending` — what the pieces of `send_data` can do

One statement for each piece of `send_data`, from which every later result is derived:

* `tcpWriteRetry_spec` — the retry loop offers shorter and shorter starts of one source, all but the last of
  them refused with `ERR_MEM`, and touches nothing else;
* `Sends` — a piece that only sends: it may move the cursors of the `http_state`, but it neither allocates nor
  frees, nor changes the handle, the buffer or the file system;
* `sendData_cases` — `send_data` as a whole either leaves the connection open or ends in `close_conn`.
-/

namespace ThirdParty.Httpd

open Lib Lwip

/-! ## The retry loop -/

/-- One refused attempt on the first `k` bytes of a source. -/
def refused (src : Src) (data : Nat → List Byte) (k : Nat) : Ev := .tcpWrite src (data k) .mem

/-- What the retry loop leaves behind: `failed` are the lengths given up on, `n` is the last length tried. An
    attempt is followed by another one only while half of it is still more than one byte. -/
structure Retried (src : Src) (data : Nat → List Byte) (len : Nat) (c : Ctx) (err : Err) (len' : Nat) (c' : Ctx)
    (failed : List Nat) (n writes : Nat) : Prop where
  ctx        : c' = { c with
    writes := writes, log := c.log ++ failed.map (refused src data) ++ [.tcpWrite src (data n) err] }
  failed_le  : ∀ k ∈ failed, 4 ≤ k ∧ k ≤ len
  last_le    : n ≤ len
  last_pos   : 0 < len → 0 < n
  stopped    : err ≠ .mem → len' = n
  out_of_mem : err = .mem → n ≤ 3 ∧ len' = n / 2

theorem writeHalving_spec (env : Env) (src : Src) (data : Nat → List Byte) :
    ∀ (fuel len : Nat) (c : Ctx), len < fuel →
      ∃ err len' c' failed n w, writeHalving env src data fuel len c = (err, len', c') ∧
        Retried src data len c err len' c' failed n w := by
  intro fuel
  induction fuel with
  | zero => intro len c h; exact absurd h (Nat.not_lt_zero len)
  | succ fuel ih =>
      intro len c hfuel
      obtain ⟨err, c₁, hw⟩ : ∃ err c₁, c.tcpWrite env src (data len) = (err, c₁) := ⟨_, _, rfl⟩
      have hc₁ : c₁ = { c with writes := c.writes + 1, log := c.log ++ [.tcpWrite src (data len) err] } := by
        obtain ⟨rfl, rfl⟩ := Prod.mk.inj hw; rfl
      unfold writeHalving
      simp only [hw]
      by_cases hmem : err = .mem
      · subst hmem
        by_cases hlong : len / 2 > 1
        · rw [if_pos rfl, if_pos ⟨rfl, hlong⟩]
          -- refused for lack of memory: half as much is tried
          obtain ⟨err, len', c', failed, n, w, heq, hr⟩ := ih (len / 2) c₁ (by omega)
          refine ⟨err, len', c', len :: failed, n, w, heq, ?_, ?_, ?_, ?_, hr.stopped, hr.out_of_mem⟩
          · rw [hr.ctx, hc₁]
            simp [refused]
          · intro k hk
            rcases List.mem_cons.mp hk with rfl | hk
            · omega
            · have := hr.failed_le k hk; omega
          · have := hr.last_le; omega
          · intro _; exact hr.last_pos (by omega)
        · -- halving has come to its end
          rw [if_pos rfl, if_neg (fun h => hlong h.2)]
          refine ⟨.mem, len / 2, c₁, [], len, c.writes + 1, rfl, by simp [hc₁], by simp, Nat.le_refl len, id, ?_, ?_⟩
          · intro h; exact absurd rfl h
          · intro _; exact ⟨by omega, rfl⟩
      · -- taken, or refused for another reason
        rw [if_neg hmem, if_neg (fun h => hmem h.1)]
        exact ⟨err, len, c₁, [], len, c.writes + 1, rfl, by simp [hc₁], by simp, Nat.le_refl len, id, fun _ => rfl,
          fun h => absurd h hmem⟩

/-- **The retry loop.** -/
theorem tcpWriteRetry_spec (env : Env) (src : Src) (data : Nat → List Byte) (len : Nat) (c : Ctx) :
    ∃ err len' c' failed n w, tcpWriteRetry env src data len c = (err, len', c') ∧
      Retried src data len c err len' c' failed n w :=
  writeHalving_spec env src data (len + 1) len c (Nat.lt_succ_self len)

theorem accepted_refused (p : Src → Bool) (src : Src) (data : Nat → List Byte) (failed : List Nat) :
    accepted p (failed.map (refused src data)) = [] := by
  refine accepted_eq_nil p fun e he => ?_
  obtain ⟨k, _, rfl⟩ := List.mem_map.mp he
  rfl

section
variable {src : Src} {data : Nat → List Byte} {len len' n w : Nat} {c c' : Ctx} {err : Err} {failed : List Nat}

/-- What TCP has accepted when the loop is left: the first bytes of the source on success, else nothing. -/
theorem Retried.accepted_log (h : Retried src data len c err len' c' failed n w) (p : Src → Bool) :
    accepted p c'.log = accepted p c.log ++ if err = .ok ∧ p src then data len' else [] := by
  rw [h.ctx]
  simp only [accepted_append, accepted_refused, accepted_cons, accepted_nil, List.append_nil]
  congr 1
  cases hp : p src with
  | false => rw [if_neg (by simp), Ev.accepted_of_src p _ _ hp]
  | true =>
      by_cases hok : err = .ok
      · rw [if_pos ⟨hok, rfl⟩, h.stopped (by rw [hok]; decide), hok, Ev.accepted_ok p _ hp]
      · rw [if_neg (fun h => hok h.1), Ev.accepted_of_ne_ok p _ _ hok]

theorem Retried.le (h : Retried src data len c err len' c' failed n w) : len' ≤ len := by
  have hn := h.last_le
  by_cases hmem : err = .mem
  · have := h.out_of_mem hmem; omega
  · have := h.stopped hmem; omega

theorem Retried.hs (h : Retried src data len c err len' c' failed n w) : c'.hs = c.hs := by rw [h.ctx]

theorem Retried.inserts (h : Retried src data len c err len' c' failed n w) : c'.inserts = c.inserts := by
  rw [h.ctx]

end

/-! ## Pieces that only send -/

/-- The events of a piece that only sends, from sources that satisfy `p`, for the `http_state` with serial
    `self`. -/
def sendsFrom (p : Src → Bool) (self : Nat) : Ev → Bool
  | .pcbRead | .tcpOutput => true
  | .tcpWrite src _ _ => p src
  | .useState s => s = self
  | .getTagInsert _ => p (.insert 0)
  | _ => false

/-- What sending does not change in the `http_state`. The header cursor moves only when headers are sent. -/
structure HttpState.Keeps (p : Src → Bool) (hs hs' : HttpState) : Prop where
  handle   : hs'.handle = hs.handle
  buf      : hs'.buf = hs.buf
  tagCheck : hs'.tagCheck = hs.tagCheck
  retries  : hs'.retries = hs.retries
  hdrs     : hs'.hdrs = hs.hdrs
  cursor   : p (.header 0 0) = false → hs'.hdrIndex = hs.hdrIndex ∧ hs'.hdrPos = hs.hdrPos

/-- **`c'` is reached from `c` by sending only**, from sources that satisfy `p`. -/
structure Sends (p : Src → Bool) (c c' : Ctx) : Prop extends HttpState.Keeps p c.hs c'.hs where
  self       : c'.self = c.self
  fs         : c'.fs = c.fs
  mem        : c'.mem = c.mem
  payload    : c'.payload = c.payload
  mallocs    : c'.mallocs = c.mallocs
  nextSerial : c'.nextSerial = c.nextSerial
  log        : ∃ es, c'.log = c.log ++ es ∧ ∀ e ∈ es, sendsFrom p c.self e = true

section
variable {p : Src → Bool}

theorem HttpState.Keeps.refl (hs : HttpState) : hs.Keeps p hs := ⟨rfl, rfl, rfl, rfl, rfl, fun _ => ⟨rfl, rfl⟩⟩

theorem HttpState.Keeps.trans {hs₁ hs₂ hs₃ : HttpState} (h : hs₁.Keeps p hs₂) (h' : hs₂.Keeps p hs₃) :
    hs₁.Keeps p hs₃ :=
  ⟨h'.handle.trans h.handle, h'.buf.trans h.buf, h'.tagCheck.trans h.tagCheck, h'.retries.trans h.retries,
    h'.hdrs.trans h.hdrs, fun hp => ⟨(h'.cursor hp).1.trans (h.cursor hp).1, (h'.cursor hp).2.trans (h.cursor hp).2⟩⟩

/-- A change of the `http_state` alone. -/
theorem Sends.of_keeps {c c' : Ctx} (hs : c.hs.Keeps p c'.hs) (h : c'.self = c.self ∧ c'.fs = c.fs ∧
    c'.mem = c.mem ∧ c'.payload = c.payload ∧ c'.mallocs = c.mallocs ∧ c'.nextSerial = c.nextSerial ∧
    c'.log = c.log) : Sends p c c' :=
  ⟨hs, h.1, h.2.1, h.2.2.1, h.2.2.2.1, h.2.2.2.2.1, h.2.2.2.2.2.1, [], by simp [h.2.2.2.2.2.2], by simp⟩

theorem Sends.setHs (c : Ctx) {hs : HttpState} (h : c.hs.Keeps p hs) : Sends p c (c.setHs hs) :=
  .of_keeps h ⟨rfl, rfl, rfl, rfl, rfl, rfl, rfl⟩

theorem Sends.refl (c : Ctx) : Sends p c c := .of_keeps (.refl _) ⟨rfl, rfl, rfl, rfl, rfl, rfl, rfl⟩

theorem Sends.trans {c₁ c₂ c₃ : Ctx} (h : Sends p c₁ c₂) (h' : Sends p c₂ c₃) : Sends p c₁ c₃ := by
  obtain ⟨es, hes, hall⟩ := h.log
  obtain ⟨es', hes', hall'⟩ := h'.log
  refine ⟨h.toKeeps.trans h'.toKeeps, h'.self.trans h.self, h'.fs.trans h.fs, h'.mem.trans h.mem,
    h'.payload.trans h.payload, h'.mallocs.trans h.mallocs, h'.nextSerial.trans h.nextSerial, es ++ es', ?_, ?_⟩
  · rw [hes', hes, List.append_assoc]
  · intro e he
    rcases List.mem_append.mp he with he | he
    · exact hall e he
    · rw [← h.self]; exact hall' e he

theorem Sends.emit (c : Ctx) {e : Ev} (he : sendsFrom p c.self e = true) : Sends p c (c.emit e) :=
  ⟨.refl _, rfl, rfl, rfl, rfl, rfl, rfl, [e], rfl, by simpa using he⟩

theorem Sends.useState (c : Ctx) : Sends p c c.useState := Sends.emit c (by simp [sendsFrom])

/-- The kind of the sources may be forgotten. -/
theorem sendsFrom_any {self : Nat} {e : Ev} (h : sendsFrom p self e = true) : sendsFrom Src.any self e = true := by
  cases e <;> first | exact h | rfl

theorem Sends.any {c c' : Ctx} (h : Sends p c c') : Sends Src.any c c' := by
  obtain ⟨es, hes, hall⟩ := h.log
  exact { h with log := ⟨es, hes, fun e he => sendsFrom_any (hall e he)⟩, cursor := fun hp => by cases hp }

/-- Sending from one kind of source hands over nothing of another kind. -/
theorem accepted_of_sends {q : Src → Bool} {self : Nat} {es : List Ev} (hpq : ∀ src, p src = true → q src = false)
    (h : ∀ e ∈ es, sendsFrom p self e = true) : accepted q es = [] := by
  refine accepted_eq_nil q fun e he => ?_
  have hsend := h e he
  cases e with
  | tcpWrite src data err => exact Ev.accepted_of_src q data err (hpq src hsend)
  | _ => rfl

theorem Sends.accepted_eq {q : Src → Bool} {c c' : Ctx} (h : Sends p c c')
    (hpq : ∀ src, p src = true → q src = false) : accepted q c'.log = accepted q c.log := by
  obtain ⟨es, hes, hall⟩ := h.log
  rw [hes, accepted_append, accepted_of_sends hpq hall, List.append_nil]

theorem Retried.sends {src : Src} {data : Nat → List Byte} {len len' n w : Nat} {c c' : Ctx} {err : Err}
    {failed : List Nat} (h : Retried src data len c err len' c' failed n w) (hp : p src = true) :
    Sends p c c' := by
  rw [h.ctx]
  refine ⟨.refl _, rfl, rfl, rfl, rfl, rfl, rfl, _, List.append_assoc .., ?_⟩
  intro e he
  rcases List.mem_append.mp he with he | he
  · obtain ⟨k, _, rfl⟩ := List.mem_map.mp he
    exact hp
  · rw [List.mem_singleton.mp he]
    exact hp

end

/-! ## Sending file bytes -/

theorem Sends.flush {p : Src → Bool} {c : Ctx} {s : Sending} (h : Sends p c s.ctx) : Sends p c s.flush := by
  unfold Sending.flush
  split
  · exact h.trans (Sends.emit _ rfl)
  · exact h

/-- `hs->file += n; hs->left -= n;` -/
def HttpState.advance (hs : HttpState) (n : Nat) : HttpState :=
  { hs with file := hs.file + n, left := toU32 ((hs.left : Int) - n) }

theorem HttpState.advance_zero {hs : HttpState} (h : hs.left < 4294967296) : hs.advance 0 = hs := by
  rw [HttpState.advance, toU32_sub (Nat.zero_le _) h]
  rfl

/-- `n` bytes at the file cursor were accepted, and the cursor moved over just these. -/
structure SentFile (c c' : Ctx) (n : Nat) : Prop where
  sends   : Sends Src.isBody c c'
  hs      : c'.hs = c.hs.advance n
  inserts : c'.inserts = c.inserts
  body    : accepted Src.isBody c'.log = accepted Src.isBody c.log ++ bytesAt c.mem c.hs.file n

theorem sendFile_sends (env : Env) (s : Sending) : Sends Src.isBody s.ctx (s.sendFile env).ctx := by
  obtain ⟨err, len, c, failed, n, w, heq, hr⟩ :=
    tcpWriteRetry_spec env (.file s.ctx.hs.file) (bytesAt s.ctx.mem s.ctx.hs.file) s.len s.ctx
  unfold Sending.sendFile
  simp only [heq]
  split
  · exact (hr.sends rfl).trans (Sends.setHs c ⟨rfl, rfl, rfl, rfl, rfl, fun _ => ⟨rfl, rfl⟩⟩)
  · exact hr.sends rfl

/-- On success `len` is what was sent, and that is nothing only where nothing was offered. -/
theorem sendFile_spec (env : Env) (s : Sending) (hleft : s.ctx.hs.left < 4294967296) :
    ∃ n ≤ s.len, SentFile s.ctx (s.sendFile env).ctx n ∧
      ((s.sendFile env).err = .ok → (s.sendFile env).len = n ∧ (0 < s.len → 0 < n)) := by
  obtain ⟨err, len, c, failed, n, w, heq, hr⟩ :=
    tcpWriteRetry_spec env (.file s.ctx.hs.file) (bytesAt s.ctx.mem s.ctx.hs.file) s.len s.ctx
  have hlog := hr.accepted_log Src.isBody
  have hsends := sendFile_sends env s
  unfold Sending.sendFile at hsends ⊢
  simp only [heq] at hsends ⊢
  by_cases hok : err = .ok
  · rw [if_pos hok] at hsends ⊢
    refine ⟨len, hr.le, ⟨hsends, ?_, hr.inserts, ?_⟩, fun _ => ⟨rfl, fun hpos => ?_⟩⟩
    · simp only [Ctx.setHs_hs, hr.hs]; rfl
    · simpa [hok, Src.isBody, Src.isHeader] using hlog
    · rw [hr.stopped (by rw [hok]; decide)]
      exact hr.last_pos hpos
  · rw [if_neg hok] at hsends ⊢
    refine ⟨0, Nat.zero_le _, ⟨hsends, ?_, hr.inserts, ?_⟩, fun h => absurd h hok⟩
    · rw [hr.hs, HttpState.advance_zero hleft]
    · simpa [hok] using hlog

/-- A read of the pcb before does not matter. -/
theorem SentFile.of_pcbRead {c c' : Ctx} {n : Nat} (h : SentFile (c.emit .pcbRead) c' n) : SentFile c c' n :=
  ⟨(Sends.emit c rfl).trans h.sends, h.hs, h.inserts, by simpa [Ev.accepted] using h.body⟩

/-- Nor does a `tcp_output` after. -/
theorem SentFile.flush {c : Ctx} {s : Sending} {n : Nat} (h : SentFile c s.ctx n) : SentFile c s.flush n := by
  have hsends := h.sends.flush
  unfold Sending.flush at hsends ⊢
  split
  · next hdata => exact ⟨by simpa [hdata] using hsends, h.hs, h.inserts, by simpa [Ev.accepted] using h.body⟩
  · exact h

theorem clampMss_le (env : Env) (len : Nat) : clampMss env len ≤ len := by
  unfold clampMss toU16
  split <;> omega

theorem clampMss_pos {env : Env} {len : Nat} (hmss : 0 < toU16 env.mss) (hlen : len < 65536) (hpos : 0 < len) :
    0 < clampMss env len := by
  unfold clampMss twoMss
  split
  · next h =>
      have hlt : 2 * toU16 env.mss < 65536 := by omega
      rw [toU16_of_lt hlt]
      omega
  · exact hpos

/-- The amounts offered are clamped to what there is. -/
theorem sendPlain_spec (env : Env) (s : Sending) (hleft : s.ctx.hs.left < 4294967296) :
    ∃ n ≤ s.ctx.hs.left, SentFile s.ctx (sendPlain env s) n := by
  unfold sendPlain
  simp only
  obtain ⟨n, hn, hsent, -⟩ := sendFile_spec env
    { s with ctx := s.ctx.emit .pcbRead
             len := clampMss env (if (s.ctx.emit .pcbRead).tcpSndbuf env < s.ctx.hs.left
               then (s.ctx.emit .pcbRead).tcpSndbuf env else toU16 s.ctx.hs.left) } hleft
  refine ⟨n, ?_, hsent.of_pcbRead.flush⟩
  have := Nat.le_trans hn (clampMss_le env _)
  revert this
  unfold toU16
  split <;> omega

theorem sendParsed_spec (env : Env) (s : Sending) (hleft : s.ctx.hs.left < 4294967296)
    (hle : s.ctx.hs.file ≤ s.ctx.hs.parsed) :
    ∃ n ≤ s.ctx.hs.parsed - s.ctx.hs.file, SentFile s.ctx (s.sendParsed env).ctx n ∧
      ((s.sendParsed env).err = .ok → (s.sendParsed env).len = n ∧ n < 65536 ∧
        (s.ctx.hs.file < s.ctx.hs.parsed → 0 < s.ctx.tcpSndbuf env → 0 < toU16 env.mss → 0 < n)) := by
  unfold Sending.sendParsed
  simp only
  -- what is offered before the cut to two segments
  generalize hoff : (if ((s.ctx.emit .pcbRead).tcpSndbuf env : Int) <
      ((s.ctx.emit .pcbRead).hs.parsed : Int) - (s.ctx.emit .pcbRead).hs.file
    then (s.ctx.emit .pcbRead).tcpSndbuf env
    else toU16 (((s.ctx.emit .pcbRead).hs.parsed : Int) - (s.ctx.emit .pcbRead).hs.file)) = offered
  have hbuf : s.ctx.tcpSndbuf env < 65536 := toU16_lt _
  change (if (s.ctx.tcpSndbuf env : Int) < (s.ctx.hs.parsed : Int) - s.ctx.hs.file
    then s.ctx.tcpSndbuf env else toU16 ((s.ctx.hs.parsed : Int) - s.ctx.hs.file)) = offered at hoff
  obtain ⟨n, hn, hsent, hok⟩ := sendFile_spec env
    { s with ctx := s.ctx.emit .pcbRead, len := clampMss env offered } hleft
  have hle' := Nat.le_trans hn (clampMss_le env _)
  have hlt : offered < 65536 := by
    rw [← hoff]
    split
    · exact hbuf
    · exact toU16_lt _
  have hpos' : s.ctx.hs.file < s.ctx.hs.parsed → 0 < s.ctx.tcpSndbuf env → 0 < offered := by
    intro hfile hpos
    rw [← hoff]
    split
    · exact hpos
    · unfold toU16; omega
  refine ⟨n, ?_, hsent.of_pcbRead, fun h => ⟨(hok h).1, Nat.lt_of_le_of_lt hle' hlt, fun hfile hpos hmss => ?_⟩⟩
  · revert hle'
    rw [← hoff]
    unfold toU16
    split <;> (intro h; omega)
  · exact (hok h).2 (clampMss_pos hmss hlt (hpos' hfile hpos))

theorem sendBeforeTag_spec (env : Env) (s : Sending) (hleft : s.ctx.hs.left < 4294967296)
    (hle : s.ctx.hs.file ≤ s.ctx.hs.tagEnd) :
    ∃ n ≤ s.ctx.hs.tagEnd - s.ctx.hs.file, n ≤ s.len ∧ SentFile s.ctx (s.sendBeforeTag env).ctx n ∧
      ((s.sendBeforeTag env).err = .ok → (s.sendBeforeTag env).len = n ∧
        (s.ctx.hs.file < s.ctx.hs.tagEnd → 0 < s.len → s.len < 65536 → 0 < n)) := by
  unfold Sending.sendBeforeTag
  simp only
  generalize hoff : (if (s.len : Int) > (s.ctx.hs.tagEnd : Int) - s.ctx.hs.file
    then toU16 ((s.ctx.hs.tagEnd : Int) - s.ctx.hs.file) else s.len) = offered
  obtain ⟨n, hn, hsent, hok⟩ := sendFile_spec env { s with len := offered } hleft
  have hrest : offered ≤ s.ctx.hs.tagEnd - s.ctx.hs.file ∧ offered ≤ s.len := by
    rw [← hoff]
    unfold toU16
    split <;> omega
  have hn' : n ≤ offered := hn
  refine ⟨n, Nat.le_trans hn' hrest.1, Nat.le_trans hn' hrest.2, hsent,
    fun h => ⟨(hok h).1, fun hfile hpos hlen => (hok h).2 ?_⟩⟩
  show 0 < offered
  rw [← hoff]
  unfold toU16
  split <;> omega

/-! ## The header phase -/

/-- Header bytes were sent, and only the header cursor moved. -/
structure SentHeaders (c c' : Ctx) : Prop where
  sends   : Sends Src.isHeader c c'
  hs      : ∃ pos idx, c'.hs = { c.hs with hdrPos := pos, hdrIndex := idx }
  inserts : c'.inserts = c.inserts

theorem SentHeaders.refl (c : Ctx) : SentHeaders c c := ⟨.refl c, ⟨_, _, rfl⟩, rfl⟩

theorem SentHeaders.trans {c₁ c₂ c₃ : Ctx} (h : SentHeaders c₁ c₂) (h' : SentHeaders c₂ c₃) :
    SentHeaders c₁ c₃ := by
  obtain ⟨_, _, hhs⟩ := h.hs
  obtain ⟨pos, idx, hhs'⟩ := h'.hs
  exact ⟨h.sends.trans h'.sends, ⟨pos, idx, by rw [hhs', hhs]⟩, h'.inserts.trans h.inserts⟩

theorem SentHeaders.emit (c : Ctx) {e : Ev} (he : sendsFrom Src.isHeader c.self e = true) :
    SentHeaders c (c.emit e) :=
  ⟨.emit c he, ⟨_, _, rfl⟩, rfl⟩

/-- No body byte is accepted meanwhile. -/
theorem SentHeaders.body {c c' : Ctx} (h : SentHeaders c c') :
    accepted Src.isBody c'.log = accepted Src.isBody c.log :=
  h.sends.accepted_eq fun src hsrc => by simp [Src.isBody, hsrc]

/-- What a round of the header loop offers: the rest of the string, or as much of it as there is room for. -/
def HttpState.headerOffer (hs : HttpState) (len : Nat) : Nat :=
  if (len : Int) < (toU16 (hs.hdrs hs.hdrIndex).length : Int) - hs.hdrPos then len
  else toU16 ((toU16 (hs.hdrs hs.hdrIndex).length : Int) - hs.hdrPos)

/-- The cursor after a round that was through with `sent` bytes of a string of `hdrlen`. -/
def HttpState.headerMoved (hs : HttpState) (hdrlen sent : Nat) : HttpState :=
  if toU16 (hs.hdrPos + sent) = hdrlen then { hs with hdrPos := 0, hdrIndex := hs.hdrIndex + 1 }
  else { hs with hdrPos := toU16 (hs.hdrPos + sent) }

theorem HttpState.headerOffer_le {hs : HttpState} (hstr : (hs.hdrs hs.hdrIndex).length < 65536)
    (hpos : hs.hdrPos ≤ (hs.hdrs hs.hdrIndex).length) (len : Nat) :
    hs.headerOffer len ≤ (hs.hdrs hs.hdrIndex).length - hs.hdrPos ∧ hs.headerOffer len ≤ len := by
  unfold HttpState.headerOffer
  rw [toU16_of_lt hstr, toU16_sub hpos hstr]
  split <;> omega

theorem HttpState.headerMoved_cases (hs : HttpState) (hdrlen : Nat) {sent : Nat} (h : hs.hdrPos + sent < 65536) :
    (hs.hdrPos + sent = hdrlen ∧
      hs.headerMoved hdrlen sent = { hs with hdrPos := 0, hdrIndex := hs.hdrIndex + 1 }) ∨
    hs.headerMoved hdrlen sent = { hs with hdrPos := hs.hdrPos + sent } := by
  have hfits : toU16 ((hs.hdrPos : Int) + sent) = hs.hdrPos + sent := by
    unfold toU16
    omega
  unfold HttpState.headerMoved
  rw [hfits]
  split
  · next hfull => exact .inl ⟨hfull, rfl⟩
  · exact .inr rfl

theorem HttpState.headerMoved_eq (hs : HttpState) (hdrlen sent : Nat) :
    ∃ pos idx, hs.headerMoved hdrlen sent = { hs with hdrPos := pos, hdrIndex := idx } := by
  unfold HttpState.headerMoved
  split
  · exact ⟨_, _, rfl⟩
  · exact ⟨_, _, rfl⟩

theorem headerLoop_stop {env : Env} {len sendlen : Nat} {err : Err} {c : Ctx}
    (hstop : ¬(len ≠ 0 ∧ c.hs.hdrIndex < numFileHdrStrings ∧ sendlen ≠ 0)) (fuel : Nat) :
    headerLoop env fuel len sendlen err c = (err, c) := by
  cases fuel with
  | zero => rfl
  | succ fuel => rw [headerLoop, if_neg hstop]

/-- **A round of the header loop** is a retry loop over one string; all else it does is to move the cursor. -/
theorem headerLoop_round {env : Env} {len sendlen sent : Nat} {err' : Err} {c c' : Ctx} (err : Err)
    (hgo : len ≠ 0 ∧ c.hs.hdrIndex < numFileHdrStrings ∧ sendlen ≠ 0)
    (heq : tcpWriteRetry env (.header c.hs.hdrIndex c.hs.hdrPos)
      (fun n => ((c.hs.hdrs c.hs.hdrIndex).drop c.hs.hdrPos).take n) (c.hs.headerOffer len) c = (err', sent, c'))
    (fuel : Nat) :
    headerLoop env (fuel + 1) len sendlen err c = headerLoop env fuel (toU16 ((len : Int) - sent)) sent err'
      (c'.setHs (c'.hs.headerMoved (toU16 (c.hs.hdrs c.hs.hdrIndex).length) sent)) := by
  unfold HttpState.headerOffer at heq
  rw [headerLoop, if_pos hgo]
  simp only [heq]
  rfl

theorem headerLoop_sentHeaders (env : Env) : ∀ (fuel len sendlen : Nat) (err : Err) (c : Ctx),
    SentHeaders c (headerLoop env fuel len sendlen err c).2 := by
  intro fuel
  induction fuel with
  | zero => intro len sendlen err c; exact .refl c
  | succ fuel ih =>
      intro len sendlen err c
      by_cases hgo : len ≠ 0 ∧ c.hs.hdrIndex < numFileHdrStrings ∧ sendlen ≠ 0
      · obtain ⟨err', sent, c', failed, n, w, heq, hr⟩ := tcpWriteRetry_spec env
          (.header c.hs.hdrIndex c.hs.hdrPos)
          (fun n => ((c.hs.hdrs c.hs.hdrIndex).drop c.hs.hdrPos).take n) (c.hs.headerOffer len) c
        rw [headerLoop_round err hgo heq]
        refine SentHeaders.trans ?_ (ih _ _ _ _)
        have hstep : SentHeaders c c' := ⟨hr.sends rfl, ⟨_, _, hr.hs⟩, hr.inserts⟩
        refine hstep.trans ?_
        obtain ⟨pos, idx, hmoved⟩ := c'.hs.headerMoved_eq (toU16 (c.hs.hdrs c.hs.hdrIndex).length) sent
        rw [hmoved]
        exact ⟨.setHs c' ⟨rfl, rfl, rfl, rfl, rfl, fun hp => by cases hp⟩, ⟨_, _, rfl⟩, rfl⟩
      · rw [headerLoop_stop hgo]
        exact .refl c

theorem sendHeaders_sentHeaders (env : Env) (c : Ctx) : SentHeaders c (sendHeaders env c).1.ctx := by
  have huse : SentHeaders c c.useState := .emit c (by simp [sendsFrom])
  unfold sendHeaders
  simp only
  split
  · have hloop := headerLoop_sentHeaders env (((c.useState).emit .pcbRead).tcpSndbuf env + 1)
      (((c.useState).emit .pcbRead).tcpSndbuf env) (((c.useState).emit .pcbRead).tcpSndbuf env) .ok
      ((c.useState).emit .pcbRead)
    have hread : SentHeaders c.useState ((c.useState).emit .pcbRead) := .emit _ rfl
    have hall := huse.trans (hread.trans hloop)
    split
    · exact hall.trans (.emit _ rfl)
    · exact hall
  · exact huse

/-! ## The SSI branch -/

theorem sendParsed_sends (env : Env) (s : Sending) : Sends Src.isBody s.ctx (s.sendParsed env).ctx := by
  unfold Sending.sendParsed
  refine Sends.trans ?_ (sendFile_sends env _)
  exact .emit s.ctx rfl

theorem sendBeforeTag_sends (env : Env) (s : Sending) : Sends Src.isBody s.ctx (s.sendBeforeTag env).ctx := by
  unfold Sending.sendBeforeTag
  refine Sends.trans ?_ (sendFile_sends env _)
  exact .refl s.ctx

theorem consume_sends (s : Sending) (t : TagScan) : Sends Src.isBody s.ctx (s.consume t).ctx :=
  .setHs _ ⟨rfl, rfl, rfl, rfl, rfl, fun _ => ⟨rfl, rfl⟩⟩

theorem setTag_sends (s : Sending) (t : TagScan) : Sends Src.isBody s.ctx (s.setTag t).ctx :=
  .setHs _ ⟨rfl, rfl, rfl, rfl, rfl, fun _ => ⟨rfl, rfl⟩⟩

theorem foundTag_sends (cfg : Config) (env : Env) (s : Sending) : Sends Src.isBody s.ctx (s.foundTag cfg env).ctx := by
  have hcall : Sends Src.isBody s.ctx (s.ctx.emit (.getTagInsert (cstr s.ctx.hs.tag.name))) := .emit s.ctx rfl
  unfold Sending.foundTag
  simp only
  split
  · refine (hcall.trans ?_).trans (sendBeforeTag_sends env _)
    exact .of_keeps ⟨rfl, rfl, rfl, rfl, rfl, fun _ => ⟨rfl, rfl⟩⟩ ⟨rfl, rfl, rfl, rfl, rfl, rfl, rfl⟩
  · exact hcall.trans (.of_keeps ⟨rfl, rfl, rfl, rfl, rfl, fun _ => ⟨rfl, rfl⟩⟩ ⟨rfl, rfl, rfl, rfl, rfl, rfl, rfl⟩)

theorem sendInsert_sends (env : Env) (s : Sending) : Sends Src.isBody s.ctx (s.sendInsert env).1.ctx := by
  unfold Sending.sendInsert
  simp only
  split
  · generalize (if s.len > _ then _ else s.len) = offered
    obtain ⟨err, len, c, failed, n, w, heq, hr⟩ := tcpWriteRetry_spec env (.insert s.ctx.hs.tag.index)
      (bytesAt s.ctx.hs.tag.insert s.ctx.hs.tag.index) offered s.ctx
    simp only [heq]
    split
    · exact (hr.sends rfl).trans (.setHs c ⟨rfl, rfl, rfl, rfl, rfl, fun _ => ⟨rfl, rfl⟩⟩)
    · exact hr.sends rfl
  · exact setTag_sends s _

theorem ssiRound_sends (cfg : Config) (env : Env) (s : Sending) :
    Sends Src.isBody s.ctx (ssiRound cfg env s).1.ctx := by
  unfold ssiRound
  cases hst : s.ctx.hs.tag.state with
  | none => simp only [hst]; exact consume_sends s _
  | leadin =>
      simp only [hst]
      split
      · exact consume_sends s _
      · exact setTag_sends s _
  | found => simp only [hst]; exact consume_sends s _
  | leadout =>
      simp only [hst]
      split
      · exact (consume_sends s _).trans (foundTag_sends cfg env _)
      · exact consume_sends s _
  | sending =>
      simp only [hst]
      split
      · exact sendBeforeTag_sends env s
      · exact sendInsert_sends env s

theorem ssiLoop_stop {cfg : Config} {env : Env} {s : Sending} (hstop : ¬(s.ctx.hs.parseLeft ≠ 0 ∧ s.err = .ok))
    (fuel : Nat) :
    ssiLoop cfg env fuel s = (s, .done) := by
  cases fuel with
  | zero => rw [ssiLoop, if_neg hstop]
  | succ fuel => rw [ssiLoop, if_neg hstop]

/-- **The rule for the loop**: what each round keeps, the loop keeps. -/
theorem ssiLoop_keeps {I : Sending → Prop} {cfg : Config} {env : Env}
    (hround : ∀ s : Sending, I s → s.ctx.hs.parseLeft ≠ 0 → I (ssiRound cfg env s).1) :
    ∀ (fuel : Nat) (s : Sending), I s → I (ssiLoop cfg env fuel s).1 := by
  intro fuel
  induction fuel with
  | zero =>
      intro s h
      unfold ssiLoop
      split <;> exact h
  | succ fuel ih =>
      intro s h
      unfold ssiLoop
      split
      · next hgo =>
          have hnext := hround s h hgo.1
          simp only
          split
          · exact hnext
          · exact ih _ hnext
      · exact h

/-- What follows the loop is left out if `send_data` returned inside it. -/
theorem ssiScan_ctx (cfg : Config) (env : Env) (fuel : Nat) (s : Sending) :
    (ssiScan cfg env fuel s).ctx = ssiFinish env (ssiLoop cfg env fuel s).1 ∨
    (ssiScan cfg env fuel s).ctx = (ssiLoop cfg env fuel s).1.ctx := by
  unfold ssiScan
  generalize ssiLoop cfg env fuel s = r
  obtain ⟨s', e⟩ := r
  cases e with
  | done => exact .inl rfl
  | returned => exact .inr rfl
  | outOfFuel => exact .inr rfl

theorem ssiLoop_sends (cfg : Config) (env : Env) (fuel : Nat) (s : Sending) :
    Sends Src.isBody s.ctx (ssiLoop cfg env fuel s).1.ctx := by
  apply ssiLoop_keeps (I := fun s' => Sends Src.isBody s.ctx s'.ctx)
  · intro s' hsends _
    exact hsends.trans (ssiRound_sends cfg env s')
  · exact .refl _

theorem ssiFinish_sends (env : Env) (s : Sending) : Sends Src.isBody s.ctx (ssiFinish env s) := by
  unfold ssiFinish
  simp only
  refine Sends.flush ?_
  split
  · exact sendParsed_sends env s
  · exact .refl _

theorem ssiStart_sends (env : Env) (s : Sending) : Sends Src.isBody s.ctx (ssiStart env s).ctx := by
  unfold ssiStart
  simp only
  split
  · refine Sends.trans ?_ (sendParsed_sends env _)
    exact .emit s.ctx rfl
  · exact .emit s.ctx rfl

theorem ssiScan_sends (cfg : Config) (env : Env) (fuel : Nat) (s : Sending) :
    Sends Src.isBody s.ctx (ssiScan cfg env fuel s).ctx := by
  have hloop := ssiLoop_sends cfg env fuel s
  rcases ssiScan_ctx cfg env fuel s with hscan | hscan
  · rw [hscan]
    exact hloop.trans (ssiFinish_sends env _)
  · rw [hscan]
    exact hloop

theorem sendSsi_sends (cfg : Config) (env : Env) (fuel : Nat) (s : Sending) :
    Sends Src.isBody s.ctx (sendSsi cfg env fuel s).ctx := by
  unfold sendSsi
  simp only
  split
  · exact (ssiStart_sends env s).flush
  · exact (ssiStart_sends env s).trans (ssiScan_sends cfg env fuel _)

theorem sendPlain_sends (env : Env) (s : Sending) : Sends Src.isBody s.ctx (sendPlain env s) := by
  unfold sendPlain
  refine Sends.flush (Sends.trans ?_ (sendFile_sends env _))
  exact .emit s.ctx rfl

end ThirdParty.Httpd
