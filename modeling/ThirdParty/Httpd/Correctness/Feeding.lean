import ThirdParty.Httpd.Correctness.AfterClose
import ThirdParty.Httpd.Correctness.Answer

/-!
# `Httpd.Correctness.Feeding` — how a callback goes on with a response

The file data that a callback hands to TCP continues where the last one stopped, whether the file is parsed for tags or
not; it lies in the part of the file that is left, and no callback writes to the memory of the files. `Feeds` says so
of every piece of `send_data`, and of every callback that does not start a response.
-/

namespace ThirdParty.Httpd

open Lib Lwip

/-! ## Feeding TCP from a file -/

/-- A `tcp_write` of file data hands over bytes of the memory between `a` and `a + len`, and there is none where that
    is empty. -/
def OffersWithin (m : Mem) (a len : Nat) : Ev → Prop
  | .tcpWrite (.file b) data _ => 0 < len ∧ a ≤ b ∧ b + data.length ≤ a + len ∧ data = bytesAt m b data.length
  | _ => True

/-- **What the events `es` do to a response**: file data is taken from the cursor on, in order and within what is left;
    a response that ends has nothing left; and a handle is only given up with the connection. -/
structure Fed (m : Mem) (hs hs' : HttpState) (es : List Ev) : Prop where
  sent   : ∃ n ≤ hs.left, hs'.file = hs.file + n ∧ hs'.left = hs.left - n ∧ accepted Src.isFile es = bytesAt m hs.file n
  inside : ∀ e ∈ es, OffersWithin m hs.file hs.left e
  ends   : .endOfResponse ∈ es → hs'.left = 0
  handle : hs'.handle = hs.handle ∨ ∃ e ∈ es, leavesArg e = true

theorem OffersWithin.mono {m : Mem} {a b len len' : Nat} {e : Ev} (h : OffersWithin m b len' e) (hle : a ≤ b)
    (hend : b + len' ≤ a + len) : OffersWithin m a len e := by
  cases e with
  | tcpWrite src data err =>
      cases src with
      | file x =>
          obtain ⟨hpos, hlow, hhigh, hdata⟩ := h
          exact ⟨by omega, by omega, by omega, hdata⟩
      | _ => trivial
  | _ => trivial

/-- Where nothing is left, nothing is offered. -/
theorem OffersWithin.of_zero {m : Mem} {a b len : Nat} {e : Ev} (h : OffersWithin m b 0 e) :
    OffersWithin m a len e := by
  cases e with
  | tcpWrite src data err =>
      cases src with
      | file x => exact absurd h.1 (Nat.lt_irrefl 0)
      | _ => trivial
  | _ => trivial

theorem Fed.trans {m : Mem} {hs₁ hs₂ hs₃ : HttpState} {es es' : List Ev} (h : Fed m hs₁ hs₂ es)
    (h' : Fed m hs₂ hs₃ es') :
    Fed m hs₁ hs₃ (es ++ es') := by
  obtain ⟨n, hn, hfile, hleft, hacc⟩ := h.sent
  obtain ⟨n', hn', hfile', hleft', hacc'⟩ := h'.sent
  refine ⟨⟨n + n', by omega, by omega, by omega, ?_⟩, fun e he => ?_, fun hend => ?_, ?_⟩
  · rw [accepted_append, hacc, hacc', hfile, bytesAt_add]
  · rcases List.mem_append.mp he with he | he
    · exact h.inside e he
    · exact (h'.inside e he).mono (by omega) (by omega)
  · rcases List.mem_append.mp hend with hend | hend
    · have := h.ends hend
      omega
    · exact h'.ends hend
  · rcases h'.handle with hsame | ⟨e, he, hleave⟩
    · rcases h.handle with hsame' | ⟨e, he, hleave⟩
      · exact .inl (hsame.trans hsame')
      · exact .inr ⟨e, List.mem_append_left _ he, hleave⟩
    · exact .inr ⟨e, List.mem_append_right _ he, hleave⟩

/-- **`c'` is reached from `c` by feeding.** -/
structure Feeds (c c' : Ctx) : Prop where
  mem : c'.mem = c.mem
  log : ∃ es, c'.log = c.log ++ es ∧ Fed c.mem c.hs c'.hs es

/-- Events that neither hand over file data, nor end the response, nor the connection. -/
def idles : Ev → Bool
  | .tcpWrite src _ _ => !src.isFile
  | .endOfResponse => false
  | e => !leavesArg e

section
variable {c c₁ c₂ c₃ : Ctx} {m : Mem} {hs hs' : HttpState} {es : List Ev}

theorem Feeds.trans (h : Feeds c₁ c₂) (h' : Feeds c₂ c₃) : Feeds c₁ c₃ := by
  obtain ⟨es, hes, hfed⟩ := h.log
  obtain ⟨es', hes', hfed'⟩ := h'.log
  rw [h.mem] at hfed'
  exact ⟨h'.mem.trans h.mem, es ++ es', by rw [hes', hes, List.append_assoc], hfed.trans hfed'⟩

theorem accepted_of_idles {e : Ev} (h : idles e = true) : e.accepted Src.isFile = [] := by
  cases e with
  | tcpWrite src data err => exact Ev.accepted_of_src _ _ _ (by simpa [idles] using h)
  | _ => rfl

theorem offersWithin_of_idles {e : Ev} (h : idles e = true) (m : Mem) (a len : Nat) : OffersWithin m a len e := by
  cases e with
  | tcpWrite src data err =>
      cases src with
      | file x => exact absurd h Bool.false_ne_true
      | _ => trivial
  | _ => trivial

/-- Nothing is fed. -/
theorem Fed.of_idles (h : ∀ e ∈ es, idles e = true) (hfile : hs'.file = hs.file) (hleft : hs'.left = hs.left)
    (hhandle : hs'.handle = hs.handle) : Fed m hs hs' es := by
  refine ⟨⟨0, Nat.zero_le _, hfile, hleft, ?_⟩, fun e he => offersWithin_of_idles (h e he) _ _ _, fun hend => ?_,
    .inl hhandle⟩
  · exact accepted_eq_nil _ fun e he => accepted_of_idles (h e he)
  · exact absurd (h _ hend) Bool.false_ne_true

theorem Feeds.of_idles (hmem : c₁.mem = c.mem) (hadds : Adds idles c c₁) (hfile : c₁.hs.file = c.hs.file)
    (hleft : c₁.hs.left = c.hs.left) (hhandle : c₁.hs.handle = c.hs.handle) : Feeds c c₁ := by
  obtain ⟨es, hes, hall⟩ := hadds
  exact ⟨hmem, es, hes, .of_idles hall hfile hleft hhandle⟩

theorem Feeds.refl (c : Ctx) : Feeds c c := .of_idles rfl (.refl c) rfl rfl rfl

theorem Feeds.emit (c : Ctx) {e : Ev} (he : idles e = true) : Feeds c (c.emit e) :=
  .of_idles rfl (.emit c he) rfl rfl rfl

theorem Feeds.setHs (c : Ctx) {hs : HttpState} (hfile : hs.file = c.hs.file) (hleft : hs.left = c.hs.left)
    (hhandle : hs.handle = c.hs.handle) : Feeds c (c.setHs hs) := .of_idles rfl (.of_log rfl) hfile hleft hhandle

/-- Sending from other sources. -/
theorem Sends.feeds {p : Src → Bool} (h : Sends p c c₁) (hp : ∀ src, p src = true → src.isFile = false)
    (hfile : c₁.hs.file = c.hs.file) (hleft : c₁.hs.left = c.hs.left) : Feeds c c₁ := by
  obtain ⟨es, hes, hall⟩ := h.log
  refine .of_idles h.mem ⟨es, hes, fun e he => ?_⟩ hfile hleft h.handle
  have hsend := hall e he
  cases e with
  | tcpWrite src data err => simp [idles, hp src hsend]
  | tcpArg set => exact absurd hsend Bool.false_ne_true
  | _ => first | rfl | exact absurd hsend Bool.false_ne_true

/-- **`tcp_write` on the bytes at the cursor**, as often as it takes. -/
theorem sendFile_feeds (env : Env) (s : Sending) (hlen : s.len ≤ s.ctx.hs.left) (hpos : 0 < s.ctx.hs.left)
    (hleft : s.ctx.hs.left < 4294967296) :
    Feeds s.ctx (s.sendFile env).ctx := by
  obtain ⟨err, len, c, failed, n, w, heq, hr⟩ :=
    tcpWriteRetry_spec env (.file s.ctx.hs.file) (bytesAt s.ctx.mem s.ctx.hs.file) s.len s.ctx
  have hle := hr.le
  have hacc := hr.accepted_log Src.isFile
  -- every attempt offers a start of what is left
  have hwithin : ∀ k ≤ s.len, ∀ err, OffersWithin s.ctx.mem s.ctx.hs.file s.ctx.hs.left
      (.tcpWrite (.file s.ctx.hs.file) (bytesAt s.ctx.mem s.ctx.hs.file k) err) := by
    intro k hk err
    rw [OffersWithin, bytesAt_length]
    exact ⟨hpos, Nat.le_refl _, by omega, rfl⟩
  obtain ⟨es, hes⟩ : ∃ es, es = failed.map (refused (.file s.ctx.hs.file) (bytesAt s.ctx.mem s.ctx.hs.file)) ++
      [.tcpWrite (.file s.ctx.hs.file) (bytesAt s.ctx.mem s.ctx.hs.file n) err] := ⟨_, rfl⟩
  have hlog : c.log = s.ctx.log ++ es := by rw [hr.ctx, hes, List.append_assoc]
  have hinside : ∀ e ∈ es, OffersWithin s.ctx.mem s.ctx.hs.file s.ctx.hs.left e := by
    intro e he
    rw [hes] at he
    rcases List.mem_append.mp he with he | he
    · obtain ⟨k, hk, rfl⟩ := List.mem_map.mp he
      exact hwithin k (hr.failed_le k hk).2 .mem
    · rw [List.mem_singleton.mp he]
      exact hwithin n hr.last_le err
  have hnoend : .endOfResponse ∉ es := by
    intro hend
    rw [hes] at hend
    rcases List.mem_append.mp hend with hend | hend
    · obtain ⟨k, -, hk⟩ := List.mem_map.mp hend
      exact Ev.noConfusion hk
    · exact Ev.noConfusion (List.mem_singleton.mp hend)
  have hmem : c.mem = s.ctx.mem := by rw [hr.ctx]
  rw [hlog, accepted_append, List.append_cancel_left_eq] at hacc
  unfold Sending.sendFile
  simp only [heq]
  split
  · next hok =>
      rw [if_pos ⟨hok, rfl⟩] at hacc
      refine ⟨hmem, es, hlog, ⟨len, by omega, ?_, ?_, hacc⟩, hinside, fun h => absurd h hnoend, .inl ?_⟩
      · simp only [Ctx.setHs_hs, hr.hs]
      · simp only [Ctx.setHs_hs, hr.hs]
        exact toU32_sub (by omega) hleft
      · simp only [Ctx.setHs_hs, hr.hs]
  · next hok =>
      rw [if_neg fun h => hok h.1] at hacc
      refine ⟨hmem, es, hlog, ⟨0, Nat.zero_le _, ?_, ?_, hacc⟩, hinside, fun h => absurd h hnoend, .inl ?_⟩
      · rw [hr.hs]; rfl
      · rw [hr.hs]; rfl
      · rw [hr.hs]

theorem Feeds.flush {s : Sending} (h : Feeds c s.ctx) : Feeds c s.flush := by
  unfold Sending.flush
  split
  · exact h.trans (.emit _ rfl)
  · exact h

/-- Files without tags. -/
theorem sendPlain_feeds (env : Env) (s : Sending) (hpos : 0 < s.ctx.hs.left) (hleft : s.ctx.hs.left < 4294967296) :
    Feeds s.ctx (sendPlain env s) := by
  unfold sendPlain
  refine Feeds.flush (Feeds.trans ?_ (sendFile_feeds env _ ?_ hpos hleft))
  · exact .emit s.ctx rfl
  · refine Nat.le_trans (clampMss_le env _) ?_
    show (if (s.ctx.emit .pcbRead).tcpSndbuf env < s.ctx.hs.left then (s.ctx.emit .pcbRead).tcpSndbuf env
      else toU16 s.ctx.hs.left) ≤ s.ctx.hs.left
    unfold toU16
    split <;> omega

/-! ### Files with tags -/

theorem Scanning.rest_le {hs : HttpState} (h : Scanning hs) : hs.parsed - hs.file ≤ hs.left := by
  have := h.left
  omega

theorem sendParsed_feeds (env : Env) {s : Sending} (h : Scanning s.ctx.hs) (hmore : s.ctx.hs.parsed > s.ctx.hs.file) :
    Feeds s.ctx (s.sendParsed env).ctx := by
  have hle := h.file_le
  have hrest := h.rest_le
  have hpos : 0 < s.ctx.hs.left := by omega
  unfold Sending.sendParsed
  refine Feeds.trans ?_ (sendFile_feeds env _ ?_ hpos h.left_lt)
  · exact .emit s.ctx rfl
  · refine Nat.le_trans (clampMss_le env _) ?_
    show (if ((s.ctx.emit .pcbRead).tcpSndbuf env : Int) < (s.ctx.hs.parsed : Int) - s.ctx.hs.file
      then (s.ctx.emit .pcbRead).tcpSndbuf env else toU16 ((s.ctx.hs.parsed : Int) - s.ctx.hs.file)) ≤ s.ctx.hs.left
    unfold toU16
    split <;> omega

theorem sendBeforeTag_feeds (env : Env) {s : Sending} (h : Scanning s.ctx.hs) (hend : s.ctx.hs.tagEnd = s.ctx.hs.parsed)
    (hmore : s.ctx.hs.tagEnd > s.ctx.hs.file) : Feeds s.ctx (s.sendBeforeTag env).ctx := by
  have hle := h.file_le
  have hrest := h.rest_le
  unfold Sending.sendBeforeTag
  simp only
  generalize hoff : (if (s.len : Int) > (s.ctx.hs.tagEnd : Int) - s.ctx.hs.file
    then toU16 ((s.ctx.hs.tagEnd : Int) - s.ctx.hs.file) else s.len) = offered
  have hoffered : offered ≤ s.ctx.hs.left := by
    rw [← hoff]
    unfold toU16
    split <;> omega
  have hpos : 0 < s.ctx.hs.left := by omega
  exact sendFile_feeds env { s with len := offered } hoffered hpos h.left_lt

/-- **One round of the SSI loop.** -/
theorem ssiRound_feeds (cfg : Config) (env : Env) {s : Sending} (h : Scanning s.ctx.hs) (hpl : s.ctx.hs.parseLeft ≠ 0) :
    Feeds s.ctx (ssiRound cfg env s).1.ctx := by
  have hcase := ssiRound_cases cfg env s
  generalize ssiRound cfg env s = r at hcase
  cases hcase with
  | read hst hsettle hhit => exact .setHs _ rfl rfl rfl
  | close hst hsettle hhit =>
      obtain ⟨hread, -⟩ := h.consume hpl _ (parseByte_state cfg s.ctx.hs.tag (s.ctx.mem s.ctx.hs.parsed))
      have hconsume : Feeds s.ctx (s.consume (parseByte cfg s.ctx.hs.tag (s.ctx.mem s.ctx.hs.parsed)).1).ctx :=
        .setHs _ rfl rfl rfl
      generalize s.consume (parseByte cfg s.ctx.hs.tag (s.ctx.mem s.ctx.hs.parsed)).1 = s₁ at hread hconsume
      have hclosed : Scanning (s₁.closed cfg env).ctx.hs := ⟨hread.file_le, hread.left, hread.left_lt, fun _ => rfl⟩
      have hclose : Feeds s₁.ctx (s₁.closed cfg env).ctx :=
        .of_idles rfl ⟨_, closed_log s₁, by simp [idles, leavesArg]⟩ rfl rfl rfl
      rw [foundTag_eq]
      split
      · next hmore => exact hconsume.trans (hclose.trans (sendBeforeTag_feeds env hclosed rfl hmore))
      · exact hconsume.trans hclose
  | notice hst hend => exact .setHs _ rfl rfl rfl
  | before hst hfile => exact sendBeforeTag_feeds env h (h.sending hst) hfile
  | insert hst hfile hmore =>
      unfold Sending.sendInsert
      simp only
      rw [if_pos hmore]
      generalize (if s.len > s.ctx.hs.tag.insertLen - s.ctx.hs.tag.index
        then s.ctx.hs.tag.insertLen - s.ctx.hs.tag.index else s.len) = offered
      obtain ⟨err, n, c, failed, last, w, heq, hr⟩ := tcpWriteRetry_spec env (.insert s.ctx.hs.tag.index)
        (bytesAt s.ctx.hs.tag.insert s.ctx.hs.tag.index) offered s.ctx
      -- an insert is no file data
      have hinsert : Feeds s.ctx c := by
        refine Sends.feeds (p := fun src => !src.isFile) (hr.sends rfl) ?_ (by rw [hr.hs]) (by rw [hr.hs])
        intro src hsrc
        simpa using hsrc
      simp only [heq]
      split
      · exact hinsert.trans (.setHs c rfl rfl rfl)
      · exact hinsert
  | sent hst hfile hdone => exact .setHs _ rfl rfl rfl

theorem ssiLoop_feeds (cfg : Config) (env : Env) (fuel : Nat) {s : Sending} (h : Scanning s.ctx.hs) :
    Feeds s.ctx (ssiLoop cfg env fuel s).1.ctx := by
  have hboth := ssiLoop_keeps (I := fun s' => Scanning s'.ctx.hs ∧ Feeds s.ctx s'.ctx)
    (fun s' hs' hmore => ⟨hs'.1.round cfg env hmore, hs'.2.trans (ssiRound_feeds cfg env hs'.1 hmore)⟩) fuel s
      ⟨h, .refl _⟩
  exact hboth.2

theorem ssiStart_feeds (env : Env) {s : Sending} (h : Scanning s.ctx.hs) : Feeds s.ctx (ssiStart env s).ctx := by
  have hread : Feeds s.ctx (s.ctx.emit .pcbRead) := .emit _ rfl
  unfold ssiStart
  simp only
  split
  · next hmore =>
      exact hread.trans
        (sendParsed_feeds env (s := { s with ctx := s.ctx.emit .pcbRead, len := s.ctx.tcpSndbuf env }) h hmore)
  · exact hread

theorem ssiFinish_feeds (env : Env) {s : Sending} (h : Scanning s.ctx.hs) : Feeds s.ctx (ssiFinish env s) := by
  unfold ssiFinish
  simp only
  refine Feeds.flush ?_
  split
  · next hmore => exact sendParsed_feeds env h hmore.2
  · exact .refl _

theorem sendSsi_feeds (cfg : Config) (env : Env) (fuel : Nat) {s : Sending} (h : Scanning s.ctx.hs) :
    Feeds s.ctx (sendSsi cfg env fuel s).ctx := by
  have hstart := ssiStart_feeds env h
  have hscan := h.start env
  unfold sendSsi
  simp only
  split
  · exact hstart.flush
  · have hloop := ssiLoop_feeds cfg env fuel hscan
    rcases ssiScan_ctx cfg env fuel (ssiStart env s) with heq | heq
    · rw [heq]
      exact hstart.trans (hloop.trans (ssiFinish_feeds env (Scanning.loop cfg env fuel _ hscan)))
    · rw [heq]
      exact hstart.trans hloop

/-! ### `send_data` -/

/-- Closing gives the handle up with the connection. -/
theorem closeConn_feeds (env : Env) (c : Ctx) : Feeds c (closeConn env c) := by
  refine ⟨by simp [closeConn], closeEvents env c, closeConn_log env c, ?_⟩
  have hevents : ∀ e ∈ closeEvents env c, idles e = true ∨ e = .tcpArg false := by
    unfold closeEvents freeEvents
    cases c.hs.buf <;> simp [idles, leavesArg]
  rw [closeConn_hs]
  refine ⟨⟨0, Nat.zero_le _, rfl, rfl, accepted_closeEvents _ env c⟩, fun e he => ?_, fun hend => ?_,
    .inr ⟨.tcpArg false, by simp [closeEvents], rfl⟩⟩
  · rcases hevents e he with he | rfl
    · exact offersWithin_of_idles he _ _ _
    · trivial
  · rcases hevents _ hend with he | he
    · exact absurd he Bool.false_ne_true
    · exact Ev.noConfusion he

/-- A response is only ended when nothing of it is left. -/
theorem endOfResponse_feeds {c : Ctx} (hleft : c.hs.left = 0) : Feeds c (c.emit .endOfResponse) :=
  ⟨rfl, [.endOfResponse], rfl, ⟨0, Nat.zero_le _, rfl, rfl, rfl⟩,
    fun e he => by rw [List.mem_singleton.mp he]; trivial, fun _ => hleft, .inl rfl⟩

theorem obtainBuf_feeds (env : Env) (c : Ctx) : Feeds c (obtainBuf env c) := by
  obtain ⟨hstays, -, hmem, -, -, ⟨b, n, hhs⟩, -⟩ := obtainBuf_spec (fun _ => false) env c
  refine .of_idles hmem (hstays.events ?_ fun _ => rfl) (by rw [hhs]) (by rw [hhs]) (by rw [hhs])
  intro e he
  cases e <;> first | rfl | exact absurd he Bool.false_ne_true

end

section
variable {cfg : Config} {env : Env} {fuel : Nat}

theorem sendFileData_feeds {s : Sending} (h : Cursors cfg s.ctx.hs) (hlt : s.ctx.hs.left < 4294967296)
    (hleft : s.ctx.hs.left ≠ 0) : Feeds s.ctx (sendFileData cfg env fuel s).ctx := by
  unfold sendFileData
  split
  · next hssi => exact sendSsi_feeds cfg env fuel (h.body hssi.1 hssi.2 (Nat.pos_of_ne_zero hleft))
  · exact sendPlain_feeds env s (Nat.pos_of_ne_zero hleft) hlt

theorem sendBody_feeds {s : Sending} (h : Cursors cfg s.ctx.hs) (hlt : s.ctx.hs.left < 4294967296)
    (hend : AtFileEnd s.ctx.fs) : Feeds s.ctx (sendBody cfg env fuel s).ctx := by
  have huse : Feeds s.ctx s.ctx.useState := .emit _ rfl
  by_cases hleft : s.ctx.hs.left = 0
  swap
  · unfold sendBody
    rw [refill_left env hleft]
    exact huse.trans (sendFileData_feeds (s := { s with ctx := s.ctx.useState }) h hlt hleft)
  -- nothing is left: without a buffer `send_data` returns, and with one it closes
  have hbuffer := huse.trans (obtainBuf_feeds env s.ctx.useState)
  obtain ⟨-, hfs, -, -, -, ⟨b, n, hhs⟩, -⟩ := obtainBuf_spec Src.isBody env s.ctx.useState
  unfold sendBody
  by_cases hbuf : s.ctx.hs.buf ≠ none ∨ GetsBuffer env s.ctx.mallocs (twoMss env)
  · rw [refill_exhausted env s.ctx ⟨hleft, hbuf, hend.atEnd⟩]
    have hzero : (obtainBuf env s.ctx.useState).hs.left = 0 := by rw [hhs]; exact hleft
    exact hbuffer.trans ((endOfResponse_feeds hzero).trans (closeConn_feeds env _))
  · rw [refill_noBuf env hleft hbuf]
    exact hbuffer

/-- **`send_data`.** -/
theorem sendData_feeds {c : Ctx} (h : Cursors cfg c.hs) (hlt : c.hs.left < 4294967296) (hend : AtFileEnd c.fs) :
    Feeds c (sendData cfg env fuel c).ctx := by
  unfold sendData
  cases hdyn : cfg.dynamicHttpHeaders with
  | false => exact sendBody_feeds (s := ⟨c, .ok, 0, false⟩) h hlt hend
  | true =>
      have hcur := sendHeaders_cursors env h hdyn
      have hsent := sendHeaders_sentHeaders env c
      obtain ⟨pos, idx, hhs⟩ := hsent.hs
      have hheaders : Feeds c (sendHeaders env c).1.ctx := by
        refine hsent.sends.feeds (fun src hsrc => ?_) (by rw [hhs]) (by rw [hhs])
        cases src <;> first | rfl | exact absurd hsrc Bool.false_ne_true
      have hfs := hsent.sends.fs
      have hlt' : (sendHeaders env c).1.ctx.hs.left < 4294967296 := by rw [hhs]; exact hlt
      generalize sendHeaders env c = r at hcur hheaders hfs hlt'
      obtain ⟨s, ret⟩ := r
      cases ret with
      | true => exact hheaders
      | false => exact hheaders.trans (sendBody_feeds hcur hlt' (by rw [hfs]; exact hend))

end

/-! ## The callbacks -/

theorem Parses.idles {pay : Bool} {c c' : Ctx} (h : Parses pay c c') : Adds idles c c' := by
  obtain ⟨es, hes, hall⟩ := h.log
  refine ⟨es, hes, fun e he => ?_⟩
  have hparse := hall e he
  cases e <;> first | rfl | exact absurd hparse Bool.false_ne_true

/-- Opening a file and setting up the response hands nothing over. -/
theorem served_idles (cfg : Config) (env : Env) (c : Ctx) : Adds idles c (c.served cfg env) := by
  have hopen := (openRequested_spec cfg env c).1.parses.idles
  unfold Ctx.served
  generalize (openRequested cfg env c).1 = file
  generalize (openRequested cfg env c).2.1 = uri
  generalize (openRequested cfg env c).2.2 = c₁ at hopen
  have hopen₁ : Adds idles c c₁ := hopen
  have hheaders : ∀ c', Adds idles c c' →
      Adds idles c (if cfg.dynamicHttpHeaders then getHttpHeaders c' uri else c') := by
    intro c' h
    split
    · exact h.trans (getHttpHeaders_parses c' uri).idles
    · exact h
  refine Adds.trans ?_ (.emit _ rfl)
  unfold setUpResponse
  cases file with
  | some i =>
      refine hheaders _ (hopen₁.trans ⟨[.useState c₁.self, .pbufFree], by simp, ?_⟩)
      simp [Httpd.idles, leavesArg]
  | none =>
      refine hheaders _ (hopen₁.trans ⟨[.useState c₁.self], by simp, ?_⟩)
      simp [Httpd.idles, leavesArg]

/-- The segment is taken for a request: it has the method, and the end of the URI is found or not looked for. -/
def Segment.IsRequest (p : Segment) : Prop := p.mem.take 4 = lit "GET " ∧ ¬(9 ≤ p.len ∧ p.marker = none)

instance (p : Segment) : Decidable p.IsRequest := by unfold Segment.IsRequest; infer_instance

section
variable (cfg : Config) (env : Env) (fuel : Nat) {c : Ctx}

/-- A request on a connection that serves nothing. -/
theorem httpRecv_request {p : Segment} (hhandle : c.hs.handle = none) (hreq : p.IsRequest) :
    ∃ c₁, c₁.payload = p.request ∧ c₁.fs = c.fs ∧ c₁.mem = c.mem ∧ Adds idles c c₁ ∧
      httpRecv cfg env fuel (some p) .ok c = sendData cfg env fuel (c₁.served cfg env) := by
  have hpay : ((c.receive p).emit (.payloadRead 0 (prefixReads (lit "GET ") p.mem))).payload = p.mem := rfl
  have hread : Adds idles c ((c.receive p).emit (.payloadRead 0 (prefixReads (lit "GET ") p.mem))) :=
    (receive_adds (fun _ => rfl) (fun _ => rfl) c p).trans (.emit _ rfl)
  obtain ⟨-, hrequest⟩ := findHttp_marker hpay
  have hscan := findHttp_parses p.len p.len 4 ((c.receive p).emit (.payloadRead 0 (prefixReads (lit "GET ") p.mem)))
  have hedits := findHttp_edits p.len p.len 4 ((c.receive p).emit (.payloadRead 0 (prefixReads (lit "GET ") p.mem)))
  rw [httpRecv_some, if_pos hhandle, handleRequest_eq cfg env fuel rfl, if_pos hreq.1, if_neg hreq.2]
  exact ⟨_, hrequest, hscan.fs, hedits.mem, hread.trans hscan.idles, rfl⟩

/-- Any other segment is released, if it does not end the connection. -/
theorem httpRecv_feeds {p : Option Segment} {err : Err}
    (hnot : ¬(err = .ok ∧ c.hs.handle = none ∧ ∃ q, p = some q ∧ q.IsRequest)) :
    Feeds c (httpRecv cfg env fuel p err c).ctx := by
  by_cases hok : err = .ok
  swap
  · unfold httpRecv
    rw [if_neg hok]
    exact .refl c
  subst hok
  cases p with
  | none => exact closeConn_feeds env c
  | some p =>
      have hreceive : Feeds c (c.receive p) :=
        .of_idles rfl (receive_adds (fun _ => rfl) (fun _ => rfl) c p) rfl rfl rfl
      rw [httpRecv_some]
      by_cases hhandle : c.hs.handle = none
      swap
      · rw [if_neg hhandle]
        exact hreceive.trans (.emit _ rfl)
      rw [if_pos hhandle, handleRequest_eq cfg env fuel rfl]
      have hread : Feeds c ((c.receive p).emit (.payloadRead 0 (prefixReads (lit "GET ") p.mem))) :=
        hreceive.trans (.emit _ rfl)
      have hclose : ∀ c₁, Feeds c c₁ → Feeds c (closeConn env (c₁.emit .pbufFree)) := fun c₁ h =>
        h.trans ((Feeds.emit c₁ rfl).trans (closeConn_feeds env _))
      split
      swap
      · exact hclose _ hread
      next hget =>
      split
      swap
      · next hmarker => exact absurd ⟨rfl, hhandle, p, rfl, hget, hmarker⟩ hnot
      · -- the scan for the end of the URI
        apply hclose
        refine hread.trans ?_
        have hscan := findHttp_parses p.len p.len 4
          ((c.receive p).emit (.payloadRead 0 (prefixReads (lit "GET ") p.mem)))
        have hedits := findHttp_edits p.len p.len 4
          ((c.receive p).emit (.payloadRead 0 (prefixReads (lit "GET ") p.mem)))
        obtain ⟨params, vals, hhs⟩ := hedits.hs
        exact .of_idles hedits.mem hscan.idles (by rw [hhs]) (by rw [hhs]) (by rw [hhs])

theorem connErr_idles (c : Ctx) : Adds idles c (connErr c) := by
  refine ⟨.useState c.self :: freeEvents c, by simp [connErr, freeEvents], ?_⟩
  unfold freeEvents
  cases c.hs.buf <;> simp [idles, leavesArg]

/-- Aborting gives the handle up with the connection. -/
theorem tcpAbort_feeds (c : Ctx) : Feeds c (tcpAbort c) := by
  obtain ⟨es, hes, hall⟩ := connErr_idles (c.emit .tcpAbort)
  have hlog : (tcpAbort c).log = c.log ++ (.tcpAbort :: es) := by
    rw [tcpAbort, hes, Ctx.emit_log, List.append_assoc, List.singleton_append]
  have hhs : (tcpAbort c).hs = { c.hs with handle := none } := by simp [tcpAbort, connErr]
  refine ⟨by simp [tcpAbort, connErr], _, hlog, ⟨0, Nat.zero_le _, by rw [hhs]; rfl, by rw [hhs]; rfl, ?_⟩,
    fun e he => ?_, fun hend => ?_, .inr ⟨.tcpAbort, List.mem_cons_self, rfl⟩⟩
  · exact accepted_eq_nil _ fun e he => (List.mem_cons.mp he).elim (fun h => by rw [h]; rfl)
      fun he => accepted_of_idles (hall e he)
  · rcases List.mem_cons.mp he with rfl | he
    · trivial
    · exact offersWithin_of_idles (hall e he) _ _ _
  · rcases List.mem_cons.mp hend with hend | hend
    · exact Ev.noConfusion hend
    · exact absurd (hall _ hend) Bool.false_ne_true

/-- **Every callback goes on with the response it finds**, unless it starts one. -/
theorem callback_feeds {cb : Callback} (hne : cb ≠ .err)
    (hnot : ∀ p, cb = .recv (some p) .ok → ¬(c.hs.handle = none ∧ p.IsRequest)) (hcur : Cursors cfg c.hs)
    (hlt : c.hs.left < 4294967296) (hend : AtFileEnd c.fs) : Feeds c (callback cfg env fuel cb c).ctx := by
  cases cb with
  | recv p err =>
      refine httpRecv_feeds cfg env fuel ?_
      rintro ⟨rfl, hhandle, p, rfl, hreq⟩
      exact hnot p rfl ⟨hhandle, hreq⟩
  | sent =>
      have hnotify : Feeds c c.notify := .of_idles rfl ⟨[.useState c.self, .tcpSent false], by simp [Ctx.notify], by
        simp [idles, leavesArg]⟩ rfl rfl rfl
      have hsend : Feeds c (sendData cfg env fuel c.notify).ctx :=
        hnotify.trans (sendData_feeds (notify_cursors hcur) hlt hend)
      simp only [callback, httpSent]
      split
      · exact hsend.trans (.emit _ rfl)
      · exact hsend
  | poll =>
      have hpolled : Feeds c c.polled := .of_idles rfl ⟨[.useState c.self], by simp [Ctx.polled], by
        simp [idles, leavesArg]⟩ rfl rfl rfl
      have hsend : Feeds c (sendData cfg env fuel c.polled).ctx :=
        hpolled.trans (sendData_feeds (polled_cursors hcur) hlt hend)
      simp only [callback, httpPoll]
      split
      · exact hpolled.trans (tcpAbort_feeds c.polled)
      · split
        · exact hsend
        · exact hpolled
  | err => exact absurd rfl hne

end

end ThirdParty.Httpd
