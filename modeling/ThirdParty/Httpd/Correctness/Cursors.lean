import ThirdParty.Httpd.TagParser
import ThirdParty.Httpd.Correctness.HeaderBytes
import ThirdParty.Httpd.Correctness.Segments
import ThirdParty.Httpd.Correctness.States

/-!
# `Httpd.Correctness.Cursors` — the cursors of a response

`send_data` works with a cursor into the header strings and with two into the file data, `file` for what is sent and
`parsed` for what is parsed. `Cursors` says how they stand to each other; whatever TCP, the allocator and the handlers
answer, it holds of every `http_state` in every run of the server, and of every state in which `send_data` is called.
-/

namespace ThirdParty.Httpd

open Lib Lwip

/-! ## The invariant -/

/-- The header cursor is inside the current string. -/
def HeaderCursor (hs : HttpState) : Prop :=
  hs.hdrIndex < numFileHdrStrings →
    (∀ i < numFileHdrStrings, (hs.hdrs i).length < 65536) ∧ hs.hdrPos ≤ (hs.hdrs hs.hdrIndex).length

/-- The block of file data in front of `parsed` is sent up to `file`, the one behind it is not parsed yet. -/
structure Scanning (hs : HttpState) : Prop where
  file_le : hs.file ≤ hs.parsed
  left    : hs.left = hs.parsed - hs.file + hs.parseLeft
  left_lt : hs.left < 4294967296
  sending : hs.tag.state = .sending → hs.tagEnd = hs.parsed

/-- **The cursors of a response.** -/
structure Cursors (cfg : Config) (hs : HttpState) : Prop where
  headers : cfg.dynamicHttpHeaders = true → HeaderCursor hs
  body    : cfg.includeHttpdSsi = true → hs.tagCheck = true → 0 < hs.left → Scanning hs

/-- Every open file is at its end: `fs_open` leaves nothing to `fs_read`. -/
def AtFileEnd (m : FsMemory) : Prop := ∀ i, (fsFile m i).index = (fsFile m i).len

section
variable {cfg : Config} {env : Env} {fuel : Nat} {c c' : Ctx} {hs hs' : HttpState}

/-- The invariant looks at nothing but these. -/
theorem Cursors.congr (h : Cursors cfg hs)
    (hhdr : hs'.hdrs = hs.hdrs ∧ hs'.hdrIndex = hs.hdrIndex ∧ hs'.hdrPos = hs.hdrPos)
    (hbody : hs'.tagCheck = hs.tagCheck ∧ hs'.left = hs.left ∧ (Scanning hs → Scanning hs')) : Cursors cfg hs' := by
  obtain ⟨hhdrs, hidx, hpos⟩ := hhdr
  obtain ⟨hcheck, hleft, hscan⟩ := hbody
  refine ⟨fun hdyn => ?_, fun hssi htag hpos => hscan (h.body hssi (hcheck ▸ htag) (hleft ▸ hpos))⟩
  unfold HeaderCursor
  rw [hhdrs, hidx, hpos]
  exact h.headers hdyn

/-! ## The file table -/

theorem atFileEnd_modify {m : FsMemory} (h : AtFileEnd m) (i : Nat) {f : FsTable → FsTable}
    (hf : ∀ t, m[i]? = some t → (f t).file.index = (f t).file.len) : AtFileEnd (m.modify i f) := by
  intro j
  have hj := h j
  unfold fsFile at hj ⊢
  rw [List.getElem?_modify]
  cases hm : m[j]? with
  | none => rfl
  | some t =>
      by_cases heq : i = j
      · subst heq
        simpa using hf t hm
      · simpa [heq, hm] using hj

theorem atFileEnd_close {m : FsMemory} (h : AtFileEnd m) (i : Nat) : AtFileEnd (fsClose m i) := by
  refine atFileEnd_modify h i fun t ht => ?_
  have hi := h i
  simpa [fsFile, ht] using hi

theorem atFileEnd_closeHandle (h : AtFileEnd c.fs) : AtFileEnd (closeHandle c).fs := by
  unfold closeHandle
  split
  · exact atFileEnd_close h _
  · exact h

theorem atFileEnd_connErr (h : AtFileEnd c.fs) : AtFileEnd (connErr c).fs := by
  unfold connErr
  rw [freeAll_fs]
  exact atFileEnd_closeHandle h

theorem atFileEnd_closeConn (h : AtFileEnd c.fs) : AtFileEnd (closeConn env c).fs := by
  unfold closeConn
  rw [Ctx.emit_fs, freeAll_fs]
  exact atFileEnd_closeHandle h

theorem Opens.atFileEnd {file : Option Nat} (h : Opens c file c') (hend : AtFileEnd c.fs) : AtFileEnd c'.fs := by
  cases file with
  | none => rw [h.none rfl]; exact hend
  | some i =>
      obtain ⟨t, f, -, -, hfs⟩ := h.some i rfl
      rw [hfs]
      exact atFileEnd_modify hend i fun _ _ => rfl

theorem AtFileEnd.atEnd (h : AtFileEnd c.fs) : AtEnd c := by
  unfold AtEnd
  split
  · trivial
  · exact h _

/-! ## The header phase -/

/-- **One round of the header loop** hands over part of the current string: `sent` of the `len` bytes there is room
    for. What it does has nothing to do with the rounds that may follow. -/
theorem HeaderCursor.round (env : Env) (h : HeaderCursor c.hs) {len sendlen : Nat} (err : Err)
    (hgo : len ≠ 0 ∧ c.hs.hdrIndex < numFileHdrStrings ∧ sendlen ≠ 0) (hlen : len < 65536) :
    ∃ sent ≤ len, ∃ err' c', HeaderCursor c'.hs ∧
      ∀ fuel, headerLoop env (fuel + 1) len sendlen err c = headerLoop env fuel (len - sent) sent err' c' := by
  obtain ⟨hshort, hpos⟩ := h hgo.2.1
  have hstr := hshort c.hs.hdrIndex hgo.2.1
  have hoff := HttpState.headerOffer_le hstr hpos len
  obtain ⟨err', sent, c', failed, n, w, heq, hr⟩ := tcpWriteRetry_spec env (.header c.hs.hdrIndex c.hs.hdrPos)
    (fun n => ((c.hs.hdrs c.hs.hdrIndex).drop c.hs.hdrPos).take n) (c.hs.headerOffer len) c
  have hsent := hr.le
  -- the cursor stays in its string, or stands at the start of the next one
  have hcursor : HeaderCursor (c'.hs.headerMoved (toU16 (c.hs.hdrs c.hs.hdrIndex).length) sent) := by
    rw [hr.hs, toU16_of_lt hstr]
    have hfits : c.hs.hdrPos + sent < 65536 := by omega
    rcases c.hs.headerMoved_cases (c.hs.hdrs c.hs.hdrIndex).length hfits with ⟨-, hmoved⟩ | hmoved
    · rw [hmoved]
      exact fun _ => ⟨hshort, Nat.zero_le _⟩
    · rw [hmoved]
      refine fun _ => ⟨hshort, ?_⟩
      show c.hs.hdrPos + sent ≤ (c.hs.hdrs c.hs.hdrIndex).length
      omega
  refine ⟨sent, by omega, err', c'.setHs (c'.hs.headerMoved (toU16 (c.hs.hdrs c.hs.hdrIndex).length) sent), hcursor,
    fun fuel => ?_⟩
  rw [headerLoop_round err hgo heq, toU16_sub (Nat.le_trans hsent hoff.2) hlen]

theorem headerLoop_cursor (env : Env) : ∀ (fuel len sendlen : Nat) (err : Err) (c : Ctx), len < 65536 →
    HeaderCursor c.hs →
    HeaderCursor (headerLoop env fuel len sendlen err c).2.hs := by
  intro fuel
  induction fuel with
  | zero => intro len sendlen err c _ h; exact h
  | succ fuel ih =>
      intro len sendlen err c hlen h
      by_cases hgo : len ≠ 0 ∧ c.hs.hdrIndex < numFileHdrStrings ∧ sendlen ≠ 0
      · obtain ⟨sent, hle, err', c', hcursor, heq⟩ := h.round env err hgo hlen
        rw [heq]
        exact ih _ _ _ _ (by omega) hcursor
      · rw [headerLoop, if_neg hgo]
        exact h

theorem sendHeaders_cursor (env : Env) (h : HeaderCursor c.hs) : HeaderCursor (sendHeaders env c).1.ctx.hs := by
  unfold sendHeaders
  simp only
  split
  · have hloop := headerLoop_cursor env ((c.useState.emit .pcbRead).tcpSndbuf env + 1)
      ((c.useState.emit .pcbRead).tcpSndbuf env) ((c.useState.emit .pcbRead).tcpSndbuf env) .ok
      (c.useState.emit .pcbRead) (toU16_lt _) h
    split
    · exact hloop
    · exact hloop
  · exact h

/-! ## The file phase -/

/-- Sending parsed bytes. -/
theorem Scanning.advance {n : Nat} (h : Scanning hs) (hn : n ≤ hs.parsed - hs.file) : Scanning (hs.advance n) := by
  have hle := h.file_le
  have hleft := h.left
  have hlt := h.left_lt
  have hsub : (hs.advance n).left = hs.left - n := toU32_sub (by omega) hlt
  have hfile : (hs.advance n).file = hs.file + n := rfl
  have hparsed : (hs.advance n).parsed = hs.parsed := rfl
  have hpl : (hs.advance n).parseLeft = hs.parseLeft := rfl
  refine ⟨?_, ?_, ?_, h.sending⟩
  · omega
  · omega
  · omega

theorem SentFile.scanning {n : Nat} (hsent : SentFile c c' n) (h : Scanning c.hs) (hn : n ≤ c.hs.parsed - c.hs.file) :
    Scanning c'.hs := by
  rw [hsent.hs]
  exact h.advance hn

/-- Reading one byte. -/
theorem Scanning.consume {s : Sending} (h : Scanning s.ctx.hs) (hpl : s.ctx.hs.parseLeft ≠ 0) (t : TagScan)
    (ht : t.state ≠ .sending) : Scanning (s.consume t).ctx.hs ∧
      (s.consume t).ctx.hs.parseLeft = s.ctx.hs.parseLeft - 1 := by
  have hle := h.file_le
  have hleft := h.left
  have hlt := h.left_lt
  have hsub : (s.consume t).ctx.hs.parseLeft = s.ctx.hs.parseLeft - 1 :=
    toU32_sub (Nat.one_le_iff_ne_zero.mpr hpl) (by omega)
  have hfile : (s.consume t).ctx.hs.file = s.ctx.hs.file := rfl
  have hparsed : (s.consume t).ctx.hs.parsed = s.ctx.hs.parsed + 1 := rfl
  have hleft' : (s.consume t).ctx.hs.left = s.ctx.hs.left := rfl
  refine ⟨⟨?_, ?_, ?_, fun hst => absurd hst ht⟩, hsub⟩
  · omega
  · omega
  · omega

/-- The tag is closed: what follows is its insert. -/
def Sending.closed (cfg : Config) (env : Env) (s : Sending) : Sending :=
  { s with ctx := { (s.ctx.emit (.getTagInsert (cstr s.ctx.hs.tag.name))).setHs { s.ctx.hs with
      tag := { (getTagInsert cfg env.insert s.ctx.hs.tag s.ctx.inserts).1 with index := 0, state := .sending }
      tagEnd := s.ctx.hs.parsed } with
    inserts := (getTagInsert cfg env.insert s.ctx.hs.tag s.ctx.inserts).2 } }

/-- What closing a tag adds to the events. -/
theorem closed_log (s : Sending) :
    (s.closed cfg env).ctx.log = s.ctx.log ++ [.getTagInsert (cstr s.ctx.hs.tag.name)] := rfl

theorem foundTag_eq (s : Sending) : s.foundTag cfg env =
    if s.ctx.hs.parsed > s.ctx.hs.file then (s.closed cfg env).sendBeforeTag env else s.closed cfg env := rfl

/-- **One round of the SSI loop keeps the cursors.** -/
theorem Scanning.round (cfg : Config) (env : Env) {s : Sending} (h : Scanning s.ctx.hs) (hpl : s.ctx.hs.parseLeft ≠ 0) :
    Scanning (ssiRound cfg env s).1.ctx.hs := by
  have hle := h.file_le
  have hcase := ssiRound_cases cfg env s
  generalize ssiRound cfg env s = r at hcase
  cases hcase with
  | read hst hsettle hhit => exact (h.consume hpl _ (parseByte_state cfg _ _)).1
  | close hst hsettle hhit =>
      obtain ⟨hread, -⟩ := h.consume hpl _ (parseByte_state cfg s.ctx.hs.tag (s.ctx.mem s.ctx.hs.parsed))
      generalize s.consume (parseByte cfg s.ctx.hs.tag (s.ctx.mem s.ctx.hs.parsed)).1 = s₁ at hread
      -- `tag_end` is where the parser stands
      have hclosed : Scanning (s₁.closed cfg env).ctx.hs := ⟨hread.file_le, hread.left, hread.left_lt, fun _ => rfl⟩
      rw [foundTag_eq]
      split
      · obtain ⟨n, hn, -, hsent, -⟩ := sendBeforeTag_spec env (s₁.closed cfg env) hclosed.left_lt hread.file_le
        exact hsent.scanning hclosed hn
      · exact hclosed
  | notice hst hend => exact ⟨hle, h.left, h.left_lt, fun hs => absurd hs (settle_state _)⟩
  | before hst hfile =>
      have hend := h.sending hst
      obtain ⟨n, hn, -, hsent, -⟩ := sendBeforeTag_spec env s h.left_lt (by omega)
      exact hsent.scanning h (by omega)
  | insert hst hfile hmore =>
      have hend := h.sending hst
      unfold Sending.sendInsert
      simp only
      rw [if_pos hmore]
      -- an insert is no file data, so the cursors stand still
      generalize (if s.len > s.ctx.hs.tag.insertLen - s.ctx.hs.tag.index
        then s.ctx.hs.tag.insertLen - s.ctx.hs.tag.index else s.len) = offered
      obtain ⟨err, n, c, failed, last, w, heq, hr⟩ := tcpWriteRetry_spec env (.insert s.ctx.hs.tag.index)
        (bytesAt s.ctx.hs.tag.insert s.ctx.hs.tag.index) offered s.ctx
      simp only [heq]
      split
      · simp only [Ctx.setHs_hs, hr.hs]
        exact ⟨hle, h.left, h.left_lt, fun _ => hend⟩
      · rw [hr.hs]
        exact h
  | sent hst hfile hdone => exact ⟨hle, h.left, h.left_lt, fun hs => absurd hs (settle_state _)⟩

theorem Scanning.loop (cfg : Config) (env : Env) (fuel : Nat) (s : Sending) (h : Scanning s.ctx.hs) :
    Scanning (ssiLoop cfg env fuel s).1.ctx.hs :=
  ssiLoop_keeps (I := fun s => Scanning s.ctx.hs) (fun _ h hmore => h.round cfg env hmore) fuel s h

theorem Scanning.sendParsed (env : Env) {s : Sending} (h : Scanning s.ctx.hs) : Scanning (s.sendParsed env).ctx.hs := by
  obtain ⟨n, hn, hsent, -⟩ := sendParsed_spec env s h.left_lt h.file_le
  exact hsent.scanning h hn

theorem Scanning.start (env : Env) {s : Sending} (h : Scanning s.ctx.hs) : Scanning (ssiStart env s).ctx.hs := by
  unfold ssiStart
  simp only
  split
  · exact Scanning.sendParsed env (s := { s with ctx := s.ctx.emit .pcbRead, len := s.ctx.tcpSndbuf env }) h
  · exact h

theorem flush_hs (s : Sending) : s.flush.hs = s.ctx.hs := by
  unfold Sending.flush
  split <;> rfl

theorem Scanning.finish (env : Env) {s : Sending} (h : Scanning s.ctx.hs) : Scanning (ssiFinish env s).hs := by
  unfold ssiFinish
  simp only [flush_hs]
  split
  · exact h.sendParsed env
  · exact h

/-- **The SSI branch keeps the cursors.** -/
theorem Scanning.sendSsi (cfg : Config) (env : Env) {s : Sending} (h : Scanning s.ctx.hs) (fuel : Nat) :
    Scanning (Httpd.sendSsi cfg env fuel s).ctx.hs := by
  have hstart := h.start env
  unfold Httpd.sendSsi
  simp only
  split
  · rw [flush_hs]
    exact hstart
  · have hloop := Scanning.loop cfg env fuel _ hstart
    rcases ssiScan_ctx cfg env fuel (ssiStart env s) with hscan | hscan
    · rw [hscan]
      exact hloop.finish env
    · rw [hscan]
      exact hloop

/-! ## `send_data` -/

theorem Sends.cursors (h : Sends Src.isBody c c') (hcur : Cursors cfg c.hs)
    (hbody : cfg.includeHttpdSsi = true → c.hs.tagCheck = true → Scanning c'.hs) : Cursors cfg c'.hs := by
  obtain ⟨hidx, hpos⟩ := h.cursor rfl
  refine ⟨fun hdyn => ?_, fun hssi htag _ => hbody hssi (h.tagCheck ▸ htag)⟩
  unfold HeaderCursor
  rw [h.hdrs, hidx, hpos]
  exact hcur.headers hdyn

/-- The end of the file is noticed, or the bytes that are left are sent. -/
theorem sendBody_cases_atEnd (cfg : Config) (env : Env) (fuel : Nat) (s : Sending) (hend : AtFileEnd s.ctx.fs) :
    (∃ b n c₁, c₁.hs = { s.ctx.hs with buf := b, bufLen := n } ∧ c₁.fs = s.ctx.fs ∧
      (sendBody cfg env fuel s = ⟨c₁, true⟩ ∨ sendBody cfg env fuel s = ⟨closeConn env c₁, true⟩)) ∨
    (s.ctx.hs.left ≠ 0 ∧
      sendBody cfg env fuel s = sendFileData cfg env fuel { s with ctx := s.ctx.useState }) := by
  by_cases hleft : s.ctx.hs.left = 0
  swap
  · refine .inr ⟨hleft, ?_⟩
    unfold sendBody
    rw [refill_left env hleft]
    rfl
  obtain ⟨-, hfs, -, -, -, ⟨b, n, hhs⟩, -⟩ := obtainBuf_spec Src.isBody env s.ctx.useState
  by_cases hbuf : s.ctx.hs.buf ≠ none ∨ GetsBuffer env s.ctx.mallocs (twoMss env)
  · refine .inl ⟨b, n, (obtainBuf env s.ctx.useState).emit .endOfResponse, hhs, hfs, .inr ?_⟩
    unfold sendBody
    rw [refill_exhausted env s.ctx ⟨hleft, hbuf, hend.atEnd⟩]
  · refine .inl ⟨b, n, obtainBuf env s.ctx.useState, hhs, hfs, .inl ?_⟩
    unfold sendBody
    rw [refill_noBuf env hleft hbuf]

theorem sendFileData_cursors {s : Sending} (h : Cursors cfg s.ctx.hs) (hleft : s.ctx.hs.left ≠ 0) (fuel : Nat) :
    Cursors cfg (sendFileData cfg env fuel s).ctx.hs := by
  unfold sendFileData
  split
  · next hssi =>
      have hscan := h.body hssi.1 hssi.2 (Nat.pos_of_ne_zero hleft)
      exact (sendSsi_sends cfg env fuel s).cursors h fun _ _ => hscan.sendSsi cfg env fuel
  · next hplain => exact (sendPlain_sends env s).cursors h fun hssi htag => absurd ⟨hssi, htag⟩ hplain

theorem sendBody_cursors {s : Sending} (h : Cursors cfg s.ctx.hs) (hend : AtFileEnd s.ctx.fs) (fuel : Nat) :
    Cursors cfg (sendBody cfg env fuel s).ctx.hs := by
  rcases sendBody_cases_atEnd cfg env fuel s hend with ⟨b, n, c₁, hhs, -, heq | heq⟩ | ⟨hleft, heq⟩
  · rw [heq]
    refine h.congr ?_ ?_
    · rw [hhs]; exact ⟨rfl, rfl, rfl⟩
    · rw [hhs]; exact ⟨rfl, rfl, fun h => ⟨h.file_le, h.left, h.left_lt, h.sending⟩⟩
  · rw [heq]
    refine h.congr ?_ ?_
    · rw [closeConn_hs, hhs]; exact ⟨rfl, rfl, rfl⟩
    · rw [closeConn_hs, hhs]; exact ⟨rfl, rfl, fun h => ⟨h.file_le, h.left, h.left_lt, h.sending⟩⟩
  · rw [heq]
    exact sendFileData_cursors (s := { s with ctx := s.ctx.useState }) h hleft fuel

theorem sendBody_atFileEnd {s : Sending} (hend : AtFileEnd s.ctx.fs) (fuel : Nat) :
    AtFileEnd (sendBody cfg env fuel s).ctx.fs := by
  rcases sendBody_cases_atEnd cfg env fuel s hend with ⟨b, n, c₁, -, hfs, heq | heq⟩ | ⟨-, heq⟩
  · rw [heq, hfs]
    exact hend
  · rw [heq]
    exact atFileEnd_closeConn (by rw [hfs]; exact hend)
  · rw [heq]
    unfold sendFileData
    split
    · rw [(sendSsi_sends cfg env fuel { s with ctx := s.ctx.useState }).fs]
      exact hend
    · rw [(sendPlain_sends env { s with ctx := s.ctx.useState }).fs]
      exact hend

/-- The header phase moves the header cursor only. -/
theorem sendHeaders_cursors (env : Env) (h : Cursors cfg c.hs) (hdyn : cfg.dynamicHttpHeaders = true) :
    Cursors cfg (sendHeaders env c).1.ctx.hs := by
  obtain ⟨pos, idx, hhs⟩ := (sendHeaders_sentHeaders env c).hs
  refine ⟨fun _ => sendHeaders_cursor env (h.headers hdyn), fun hssi htag hpos => ?_⟩
  rw [hhs] at htag hpos ⊢
  have hscan := h.body hssi htag hpos
  exact ⟨hscan.file_le, hscan.left, hscan.left_lt, hscan.sending⟩

/-- **`send_data` keeps the cursors** … -/
theorem sendData_cursors (env : Env) (h : Cursors cfg c.hs) (hend : AtFileEnd c.fs) (fuel : Nat) :
    Cursors cfg (sendData cfg env fuel c).ctx.hs := by
  unfold sendData
  cases hdyn : cfg.dynamicHttpHeaders with
  | false => exact sendBody_cursors (s := ⟨c, .ok, 0, false⟩) h hend fuel
  | true =>
      have hcur := sendHeaders_cursors env h hdyn
      have hfs := (sendHeaders_sentHeaders env c).sends.fs
      generalize sendHeaders env c = r at hcur hfs
      obtain ⟨s, ret⟩ := r
      cases ret with
      | true => exact hcur
      | false => exact sendBody_cursors hcur (by rw [hfs]; exact hend) fuel

/-- … and leaves every file at its end. -/
theorem sendData_atFileEnd (cfg : Config) (env : Env) (hend : AtFileEnd c.fs) (fuel : Nat) :
    AtFileEnd (sendData cfg env fuel c).ctx.fs := by
  unfold sendData
  cases hdyn : cfg.dynamicHttpHeaders with
  | false => exact sendBody_atFileEnd (s := ⟨c, .ok, 0, false⟩) hend fuel
  | true =>
      have hfs := (sendHeaders_sentHeaders env c).sends.fs
      generalize sendHeaders env c = r at hfs
      obtain ⟨s, ret⟩ := r
      have hend' : AtFileEnd s.ctx.fs := by rw [hfs]; exact hend
      cases ret with
      | true => exact hend'
      | false => exact sendBody_atFileEnd hend' fuel

/-! ## The response that `http_recv` sets up -/

/-- `get_http_headers` selects no headers, or three with the cursor at the start of the first. -/
theorem getHttpHeaders_spec (c : Ctx) (uri : Uri) : ∃ hdrs pos idx,
    (getHttpHeaders c uri).hs = { c.hs with hdrs := hdrs, hdrPos := pos, hdrIndex := idx } ∧
      (idx = numFileHdrStrings ∨ (idx = 0 ∧ pos = 0)) := by
  unfold getHttpHeaders
  simp only
  have hstatus : (setStatusHeader uri (c.useState.setHs (c.useState.hs.setHdr 1 .server))).hs =
      { c.hs with hdrs := (setStatusHeader uri (c.useState.setHs (c.useState.hs.setHdr 1 .server))).hs.hdrs } := by
    simp only [setStatusHeader, Ctx.setHs_hs, uriStrstr_hs, Ctx.useState_hs, HttpState.setHdr]
  have hkeep := uriContentType_hs uri (setStatusHeader uri (c.useState.setHs (c.useState.hs.setHdr 1 .server)))
  generalize setStatusHeader uri (c.useState.setHs (c.useState.hs.setHdr 1 .server)) = c₁ at hstatus hkeep
  generalize uriContentType uri c₁ = r at hkeep
  obtain ⟨ext, hdr, c₂⟩ := r
  simp only at hkeep
  rw [hstatus] at hkeep
  split
  · refine ⟨(((c.hs.setHdr 1 .server).setHdr 0 .notFound).setHdr 2 .default404Html).hdrs, 0, 0, ?_, .inr ⟨rfl, rfl⟩⟩
    simp only [Ctx.setHs_hs, Ctx.useState_hs, HttpState.setHdr, HttpState.startHdrs]
  · cases ext with
    | none =>
        refine ⟨c₁.hs.hdrs, c.hs.hdrPos, numFileHdrStrings, ?_, .inl rfl⟩
        simp only [Ctx.setHs_hs, hkeep]
    | some e =>
        refine ⟨(c₁.hs.setHdr 2 (hdr.getD .defaultType)).hdrs, 0, 0, ?_, .inr ⟨rfl, rfl⟩⟩
        simp only [Ctx.setHs_hs, hkeep, HttpState.setHdr, HttpState.startHdrs]

theorem getHttpHeaders_cursor (c : Ctx) (uri : Uri) : HeaderCursor (getHttpHeaders c uri).hs := by
  obtain ⟨hdrs, pos, idx, hhs, hidx⟩ := getHttpHeaders_spec c uri
  intro hlt
  rcases hidx with rfl | ⟨rfl, rfl⟩
  · rw [hhs] at hlt
    exact absurd hlt (Nat.lt_irrefl _)
  · have hready := @getHttpHeaders_ready c uri (by rw [hhs])
    refine ⟨hready.short, ?_⟩
    rw [hhs]
    exact Nat.zero_le _

/-- **The state in which `http_recv` calls `send_data`**: whatever was there before, the cursors are set. -/
theorem setUpResponse_cursors (cfg : Config) (file : Option Nat) (uri : Uri) (c : Ctx) :
    Cursors cfg (setUpResponse cfg file uri c).hs := by
  have hset : ∀ c₁ : Ctx, (0 < c₁.hs.left → Scanning c₁.hs) →
      Cursors cfg (if cfg.dynamicHttpHeaders then getHttpHeaders c₁ uri else c₁).hs := by
    intro c₁ hscan
    split
    · obtain ⟨hdrs, pos, idx, hhs, -⟩ := getHttpHeaders_spec c₁ uri
      refine ⟨fun _ => getHttpHeaders_cursor c₁ uri, fun _ _ hpos => ?_⟩
      rw [hhs] at hpos ⊢
      have h := hscan hpos
      exact ⟨h.file_le, h.left, h.left_lt, h.sending⟩
    · next hdyn => exact ⟨fun h => absurd h hdyn, fun _ _ hpos => hscan hpos⟩
  unfold setUpResponse
  cases file with
  | none => exact hset _ fun hpos => absurd hpos (Nat.lt_irrefl 0)
  | some i =>
      have hserve : Scanning (c.useState.hs.serve i (fsFile c.useState.fs i)) := by
        refine ⟨Nat.le_refl _, ?_, toU32_lt (fsFile c.useState.fs i).len, fun hst => by cases hst⟩
        simp [HttpState.serve]
      exact hset _ fun _ => hserve

/-! ## The callbacks -/

theorem notify_cursors (h : Cursors cfg c.hs) : Cursors cfg c.notify.hs :=
  h.congr ⟨rfl, rfl, rfl⟩ ⟨rfl, rfl, fun h => ⟨h.file_le, h.left, h.left_lt, h.sending⟩⟩

/-- Before `http_poll` sends. -/
def Ctx.polled (c : Ctx) : Ctx :=
  c.useState.setHs { c.useState.hs with retries := toU8 ((c.useState.hs.retries : Int) + 1) }

theorem polled_cursors (h : Cursors cfg c.hs) : Cursors cfg c.polled.hs :=
  h.congr ⟨rfl, rfl, rfl⟩ ⟨rfl, rfl, fun h => ⟨h.file_le, h.left, h.left_lt, h.sending⟩⟩

/-- Where `http_recv` calls `send_data`: the file is opened, from what the scan of the request has left, and the
    response is set up. -/
def Ctx.served (cfg : Config) (env : Env) (c : Ctx) : Ctx :=
  (setUpResponse cfg (openRequested cfg env c).1 (openRequested cfg env c).2.1 (openRequested cfg env c).2.2).emit
    (.tcpSent true)

theorem setUpResponse_fs (cfg : Config) (file : Option Nat) (uri : Uri) (c : Ctx) :
    (setUpResponse cfg file uri c).fs = c.fs := by
  have hset : ∀ c₁ : Ctx, (if cfg.dynamicHttpHeaders then getHttpHeaders c₁ uri else c₁).fs = c₁.fs := by
    intro c₁
    split
    · exact (getHttpHeaders_parses c₁ uri).fs
    · rfl
  unfold setUpResponse
  cases file with
  | none => exact hset _
  | some i => exact hset _

theorem served_fs (h : AtFileEnd c.fs) : AtFileEnd (c.served cfg env).fs := by
  obtain ⟨hopens, -⟩ := openRequested_spec cfg env c
  unfold Ctx.served
  rw [Ctx.emit_fs, setUpResponse_fs]
  exact hopens.atFileEnd h

theorem served_cursors (cfg : Config) (env : Env) (c : Ctx) : Cursors cfg (c.served cfg env).hs :=
  setUpResponse_cursors cfg _ _ _

/-- `http_recv` leaves the `http_state` as it is, closes the connection, or serves the request. -/
theorem httpRecv_cases (cfg : Config) (env : Env) (fuel : Nat) (p : Option Segment) (err : Err) (c : Ctx) :
    (∃ c₁, c₁.hs = c.hs ∧ c₁.fs = c.fs ∧ httpRecv cfg env fuel p err c = ⟨c₁, true⟩) ∨
    (∃ c₁, c₁.fs = c.fs ∧ Adds (fun _ => true) c c₁ ∧ httpRecv cfg env fuel p err c = ⟨closeConn env c₁, true⟩) ∨
    (∃ c₁ : Ctx, c₁.fs = c.fs ∧ Adds (fun _ => true) c (c₁.served cfg env) ∧
      httpRecv cfg env fuel p err c = sendData cfg env fuel (c₁.served cfg env)) := by
  by_cases hok : err = .ok
  swap
  · refine .inl ⟨c, rfl, rfl, ?_⟩
    unfold httpRecv
    rw [if_neg hok]
  subst hok
  cases p with
  | none => exact .inr (.inl ⟨c, rfl, .refl c, rfl⟩)
  | some p =>
      rw [httpRecv_some]
      by_cases hhandle : c.hs.handle = none
      swap
      · rw [if_neg hhandle]
        exact .inl ⟨(c.receive p).emit .pbufFree, rfl, rfl, rfl⟩
      rw [if_pos hhandle]
      have hreceive := receive_adds (q := fun _ => true) (fun _ => rfl) (fun _ => rfl) c p
      -- the request is refused, or a response is set up
      rcases handleRequest_cases cfg env fuel (p := p) (c := c.receive p) rfl with ⟨c₁, hparse, heq⟩ | ⟨c₂, hparse, heq⟩
      · refine .inr (.inl ⟨c₁.emit .pbufFree, hparse.fs, ?_, heq⟩)
        exact hreceive.trans ((hparse.quiet.mono fun _ _ => rfl).trans (.emit c₁ rfl))
      · refine .inr (.inr ⟨c₂, hparse.fs, ?_, heq⟩)
        have hscan : Adds (fun _ => true) (c.receive p) c₂ := hparse.quiet.mono fun _ _ => rfl
        exact hreceive.trans (hscan.trans ((openRequested_setUp_adds cfg env c₂).trans (.emit _ rfl)))

/-- **Every callback keeps the cursors.** -/
theorem cursors_kept (cfg : Config) : KeptByCallbacks cfg AtFileEnd (Cursors cfg) where
  accept garbage := by
    refine ⟨fun hdyn hidx => ?_, fun _ _ hpos => absurd hpos (Nat.lt_irrefl 0)⟩
    simp [HttpState.accept, hdyn] at hidx
  state cb hne env fuel c hend h hquiet := by
    cases cb with
    | recv p err =>
        simp only [callback] at hquiet ⊢
        -- refused, closed, or a new response, which starts with fresh cursors
        rcases httpRecv_cases cfg env fuel p err c with ⟨c₁, hhs, -, heq⟩ | ⟨c₁, -, hbefore, heq⟩ | ⟨c₁, hfs, -, heq⟩
        · rw [heq, hhs]
          exact h
        · rw [heq] at hquiet
          exact absurd hquiet (not_quiet_closeConn hbefore)
        · rw [heq]
          exact sendData_cursors env (served_cursors cfg env c₁) (served_fs (by rw [hfs]; exact hend)) fuel
    | sent =>
        have hsend := sendData_cursors env (notify_cursors h) hend fuel
        simp only [callback, httpSent]
        split
        · exact hsend
        · exact hsend
    | poll =>
        have hsend := sendData_cursors env (polled_cursors h) hend fuel
        have hstay : Cursors cfg c.polled.hs := polled_cursors h
        simp only [callback, httpPoll]
        split
        · -- aborting frees the state without touching its cursors
          refine hstay.congr ?_ ?_
          · rw [tcpAbort, connErr, freeAll_hs, closeHandle_hs]; exact ⟨rfl, rfl, rfl⟩
          · rw [tcpAbort, connErr, freeAll_hs, closeHandle_hs]
            exact ⟨rfl, rfl, fun h => ⟨h.file_le, h.left, h.left_lt, h.sending⟩⟩
        · split
          · exact hsend
          · exact hstay
    | err => exact absurd rfl hne
  table cb env fuel c hend := by
    cases cb with
    | recv p err =>
        simp only [callback]
        -- the same three ways, for the table of open files
        rcases httpRecv_cases cfg env fuel p err c with ⟨c₁, -, hfs, heq⟩ | ⟨c₁, hfs, -, heq⟩ | ⟨c₁, hfs, -, heq⟩
        · rw [heq, hfs]
          exact hend
        · rw [heq]
          exact atFileEnd_closeConn (by rw [hfs]; exact hend)
        · rw [heq]
          exact sendData_atFileEnd cfg env (served_fs (by rw [hfs]; exact hend)) fuel
    | sent =>
        have hsend := sendData_atFileEnd cfg env (c := c.notify) hend fuel
        simp only [callback, httpSent]
        split
        · exact hsend
        · exact hsend
    | poll =>
        have hsend := sendData_atFileEnd cfg env (c := c.polled) hend fuel
        simp only [callback, httpPoll]
        split
        · exact atFileEnd_connErr hend
        · split
          · exact hsend
          · exact hend
    | err => exact atFileEnd_connErr hend

theorem atFileEnd_init (slots : Nat) (mem : Mem) : AtFileEnd (Server.init slots mem).fs := by
  intro i
  unfold fsFile Server.init
  simp only [List.getElem?_replicate]
  split <;> rfl

end

end ThirdParty.Httpd
