import ThirdParty.Httpd.Correctness.FullBuffer

/-!
# `Httpd.Correctness.Returns` — where `send_data` is called, and when it returns

`SendDataCalled` are the three calls of `send_data`, from any state of any run of the server. There the cursors are
those of `Cursors`, and `send_data` returns unless it gets to the file data with a full send buffer, everything parsed
is sent, no insert is waiting, and a tag ends before the last byte of the block.
-/

namespace ThirdParty.Httpd

open Lib Lwip

/-! ## The SSI branch -/

/-- All that is parsed is sent, with its inserts, and from here on a tag is closed before the last byte of the
    block. -/
def HttpState.TagAhead (cfg : Config) (hs : HttpState) (m : Mem) : Prop :=
  hs.parsed = hs.file ∧ ¬hs.insertPending ∧ closesEarly cfg hs.tag (hs.unparsed m) = true

section
variable {cfg : Config} {env : Env} {s : Sending}

theorem ssiStart_behind (h : s.ctx.hs.parsed > s.ctx.hs.file) :
    ssiStart env s = ({ s with ctx := s.ctx.emit .pcbRead, len := s.ctx.tcpSndbuf env } : Sending).sendParsed env := by
  unfold ssiStart
  simp only
  exact if_pos h

theorem ssiStart_level (h : ¬s.ctx.hs.parsed > s.ctx.hs.file) :
    ssiStart env s = { s with ctx := s.ctx.emit .pcbRead, len := s.ctx.tcpSndbuf env } := by
  unfold ssiStart
  simp only
  exact if_neg h

/-- A full send buffer stays full. -/
theorem ssiStart_full (h : Scanning s.ctx.hs) (hbehind : s.ctx.hs.parsed > s.ctx.hs.file)
    (hlwip : LwipConsistent env s.ctx (ssiStart env s).ctx) (hroom : s.ctx.tcpSndbuf env = 0) :
    (ssiStart env s).ctx.tcpSndbuf env = 0 := by
  have hctx : (ssiStart env s).ctx = ((s.ctx.emit .pcbRead).emit .pcbRead).offerNothing env := by
    rw [ssiStart_behind hbehind]
    exact sendParsed_zero (s := { s with ctx := s.ctx.emit .pcbRead, len := s.ctx.tcpSndbuf env }) hroom h.left_lt
      hbehind
  rw [hctx] at hlwip ⊢
  have hlog : (((s.ctx.emit .pcbRead).emit .pcbRead).offerNothing env).log = s.ctx.log ++ [.pcbRead, .pcbRead] ++
      [.tcpWrite (.file s.ctx.hs.file) [] (env.write s.ctx.writes)] := by
    simp [Ctx.offerNothing, Ctx.tcpWrite]
  have hanswer := hlwip.first [.pcbRead, .pcbRead] hlog rfl
  have hsndbuf := hanswer.sndbuf
  unfold Ctx.tcpSndbuf at hroom ⊢
  rw [hroom, Nat.zero_sub] at hsndbuf
  exact hsndbuf

/-- Where the loop starts it is safe, or else it is doomed. -/
theorem ssiStart_safe (h : Scanning s.ctx.hs) (hmss : 0 < toU16 env.mss)
    (hstay : ¬(s.ctx.hs.parsed > s.ctx.hs.file ∧ s.ctx.tcpSndbuf env = 0)) (hok : (ssiStart env s).err = .ok)
    (hfree : s.err = .ok → s.ctx.tcpSndbuf env = 0 → ¬s.ctx.hs.TagAhead cfg s.ctx.mem) :
    Safe cfg (ssiStart env s) := by
  have hlt : s.ctx.tcpSndbuf env < 65536 := toU16_lt _
  by_cases hbehind : s.ctx.hs.parsed > s.ctx.hs.file
  · -- some of what is parsed has been sent, so there was room
    have hroom : 0 < s.ctx.tcpSndbuf env := Nat.pos_of_ne_zero fun hzero => hstay ⟨hbehind, hzero⟩
    rw [ssiStart_behind hbehind] at hok ⊢
    obtain ⟨n, hn, -, hsome⟩ := sendParsed_spec env
      { s with ctx := s.ctx.emit .pcbRead, len := s.ctx.tcpSndbuf env } h.left_lt h.file_le
    obtain ⟨hlen, hshort, hpos⟩ := hsome hok
    exact .room (by rw [hlen]; exact hpos hbehind hroom hmss) (by rw [hlen]; exact hshort)
  · -- nothing is waiting to be sent
    rw [ssiStart_level hbehind] at hok ⊢
    by_cases hroom : s.ctx.tcpSndbuf env = 0
    swap
    · exact .room (Nat.pos_of_ne_zero hroom) hlt
    have hlevel : s.ctx.hs.parsed = s.ctx.hs.file := by
      have hle := h.file_le
      omega
    by_cases hpending : s.ctx.hs.insertPending
    · exact .insert hpending
    · refine .noTag (fun _ => hlevel.symm) ?_
      by_contra htag
      exact hfree hok hroom ⟨hlevel, hpending, by simpa using htag⟩

/-- What comes after the loop only adds to the log. -/
theorem ssiScan_later (cfg : Config) (env : Env) (fuel : Nat) (s : Sending) :
    ∃ es, (ssiScan cfg env fuel s).ctx.log = (ssiLoop cfg env fuel s).1.ctx.log ++ es := by
  rcases ssiScan_ctx cfg env fuel s with hscan | hscan
  · obtain ⟨es, hes, -⟩ := (ssiFinish_sends env (ssiLoop cfg env fuel s).1).log
    rw [hscan]
    exact ⟨es, hes⟩
  · rw [hscan]
    exact ⟨[], (List.append_nil _).symm⟩

theorem ssiScan_returned {fuel : Nat} (h : (ssiLoop cfg env fuel s).2 ≠ .outOfFuel) :
    (ssiScan cfg env fuel s).returned = true := by
  unfold ssiScan
  generalize ssiLoop cfg env fuel s = r at h
  obtain ⟨s', e⟩ := r
  cases e with
  | done => rfl
  | returned => rfl
  | outOfFuel => exact absurd rfl h

theorem ssiScan_outOfFuel {fuel : Nat} (h : (ssiLoop cfg env fuel s).2 = .outOfFuel) :
    ssiScan cfg env fuel s = ⟨(ssiLoop cfg env fuel s).1.ctx, false⟩ := by
  unfold ssiScan
  generalize ssiLoop cfg env fuel s = r at h
  obtain ⟨s', e⟩ := r
  simp only at h
  subst h
  rfl

/-- **The SSI branch returns** unless the buffer is full and there is a tag ahead. -/
theorem sendSsi_returns (h : Scanning s.ctx.hs)
    (hlwip : ∀ fuel, LwipConsistent env s.ctx (sendSsi cfg env fuel s).ctx)
    (hfree : s.err = .ok → s.ctx.tcpSndbuf env = 0 → ¬s.ctx.hs.TagAhead cfg s.ctx.mem) :
    ∃ fuel, (sendSsi cfg env fuel s).returned = true := by
  have hstart := h.start env
  refine ⟨(ssiStart env s).todo, ?_⟩
  have hconsistent := hlwip (ssiStart env s).todo
  unfold sendSsi at hconsistent ⊢
  simp only at hconsistent ⊢
  by_cases hfull : s.ctx.hs.parsed > s.ctx.hs.file ∧ (ssiStart env s).ctx.tcpSndbuf env = 0
  · rw [if_pos hfull]
  rw [if_neg hfull] at hconsistent ⊢
  apply ssiScan_returned
  by_cases hgo : (ssiStart env s).ctx.hs.parseLeft ≠ 0 ∧ (ssiStart env s).err = .ok
  swap
  · rw [ssiLoop_stop hgo]
    exact fun hc => by cases hc
  refine ssiLoop_ends _ _ hstart (ssiStart_safe h hconsistent.mss ?_ hgo.2 hfree) (Nat.le_refl _)
  rintro ⟨hbehind, hroom⟩
  -- a full buffer would still be full after the first write
  refine hfull ⟨hbehind, ssiStart_full h hbehind (hconsistent.upTo ?_) hroom⟩
  obtain ⟨es, hes, -⟩ := (ssiScan_sends cfg env (ssiStart env s).todo (ssiStart env s)).log
  exact ⟨es, hes⟩

/-- **It does not return** if it is. -/
theorem sendSsi_spins (h : Scanning s.ctx.hs) (herr : s.err = .ok) (hroom : s.ctx.tcpSndbuf env = 0)
    (htag : s.ctx.hs.TagAhead cfg s.ctx.mem) (fuel : Nat) :
    Doomed cfg (ssiStart env s) ∧ Follows s.ctx (ssiStart env s).ctx ∧
      sendSsi cfg env fuel s = ssiScan cfg env fuel (ssiStart env s) := by
  obtain ⟨hlevel, hpending, hearly⟩ := htag
  have hstay : ¬s.ctx.hs.parsed > s.ctx.hs.file := by omega
  unfold sendSsi
  simp only
  rw [if_neg fun hc => hstay hc.1, ssiStart_level hstay]
  refine ⟨⟨h, herr, hroom, ?_, .inr ⟨fun hst => ?_, hearly⟩⟩, .emit _ rfl, rfl⟩
  · intro hnone
    unfold HttpState.unparsed at hearly
    rw [show s.ctx.hs.parseLeft = 0 from hnone] at hearly
    exact Bool.noConfusion hearly
  · have hfile : ¬s.ctx.hs.tagEnd > s.ctx.hs.file := by
      rw [h.sending hst]
      omega
    exact ⟨hfile, fun hmore => hpending ⟨hst, hfile, hmore⟩⟩

/-- **The SSI branch returns exactly** where the buffer is not full or there is no tag ahead. -/
theorem sendSsi_returns_iff (cfg : Config) (env : Env) {s : Sending} (h : Scanning s.ctx.hs)
    (hlwip : ∀ fuel, LwipConsistent env s.ctx (sendSsi cfg env fuel s).ctx) :
    (∃ fuel, (sendSsi cfg env fuel s).returned = true) ↔
      ¬(s.err = .ok ∧ s.ctx.tcpSndbuf env = 0 ∧ s.ctx.hs.TagAhead cfg s.ctx.mem) := by
  constructor
  · rintro ⟨fuel, hret⟩ ⟨herr, hroom, htag⟩
    obtain ⟨hdoomed, hbefore, heq⟩ := sendSsi_spins h herr hroom htag fuel
    have hconsistent := hlwip fuel
    rw [heq] at hconsistent hret
    have hloop := (hconsistent.upTo (ssiScan_later cfg env fuel (ssiStart env s))).after hbefore
    rw [ssiScan_outOfFuel (doomed_loop fuel _ hdoomed hloop)] at hret
    exact Bool.noConfusion hret
  · intro hfree
    exact sendSsi_returns h hlwip fun herr hroom htag => hfree ⟨herr, hroom, htag⟩

end

/-! ## The calls of `send_data` -/

/-- `http_recv` up to the search for `" HTTP"`. -/
def Ctx.scanned (c : Ctx) (p : Segment) : Nat × Ctx :=
  findHttp p.len p.len 4 ((c.receive p).emit (.payloadRead 0 (prefixReads (lit "GET ") p.mem)))

/-- The callback calls `send_data`, in the last of these contexts. -/
inductive CallsSendData (cfg : Config) (env : Env) : Callback → Ctx → Ctx → Prop where
  | recv {c : Ctx} (p : Segment) (hfree : c.hs.handle = none) (hget : p.mem.take 4 = lit "GET ")
      (hfound : ((c.scanned p).1 : Int) ≠ (p.len : Int) - 5) :
      CallsSendData cfg env (.recv (some p) .ok) c ((c.scanned p).2.served cfg env)
  | sent {c : Ctx} : CallsSendData cfg env .sent c c.notify
  | poll {c : Ctx} (hretries : c.polled.hs.retries ≠ 4) (hhandle : c.hs.handle ≠ none) :
      CallsSendData cfg env .poll c c.polled

/-- `send_data` is called in context `c`, in some run of the server. -/
def SendDataCalled (cfg : Config) (env : Env) (c : Ctx) : Prop :=
  ∃ (slots : Nat) (mem : Mem) (tr : List (Server × Action)) (s : Server) (j n : Nat) (k : Conn) (cb : Callback),
    Run (Server.step cfg) (Server.init slots mem) tr s ∧ s.blocked = false ∧ s.conns[j]? = some k ∧
      k.alive = true ∧ k.hears cb = true ∧ k.arg = some n ∧ CallsSendData cfg env cb (s.ctx n) c

section
variable {cfg : Config} {env : Env} {c c' : Ctx} {cb : Callback}

/-- The callback is back once `send_data` is. -/
theorem CallsSendData.returned (h : CallsSendData cfg env cb c c') (fuel : Nat) :
    (callback cfg env fuel cb c).returned = (sendData cfg env fuel c').returned := by
  cases h with
  | recv p hfree hget hfound =>
      have heq : httpRecv cfg env fuel (some p) .ok c = sendData cfg env fuel ((c.scanned p).2.served cfg env) := by
        have hbound := (@findHttp_marker p ((c.receive p).emit (.payloadRead 0 (prefixReads (lit "GET ") p.mem))) rfl).1
        rw [httpRecv_some, if_pos hfree, handleRequest_eq cfg env fuel rfl, if_pos hget,
          if_neg fun hnone => hfound (hbound.mpr hnone)]
        rfl
      rw [callback, heq]
  | sent =>
      simp only [callback, httpSent]
      split
      · next hret => exact hret.symm
      · rfl
  | poll hretries hhandle =>
      have heq : httpPoll cfg env fuel c = sendData cfg env fuel c.polled := by
        show (if c.polled.hs.retries = 4 then _ else if c.hs.handle ≠ none then _ else _) = _
        rw [if_neg hretries, if_pos hhandle]
        rfl
      rw [callback, heq]

/-- **Wherever `send_data` is called**, the cursors are right. -/
theorem SendDataCalled.cursors (h : SendDataCalled cfg env c) : Cursors cfg c.hs ∧ AtFileEnd c.fs := by
  obtain ⟨slots, mem, tr, s, j, n, k, cb, hrun, -, hk, halive, -, harg, hcalls⟩ := h
  obtain ⟨hfs, hall⟩ := (cursors_kept cfg).run (atFileEnd_init slots mem) hrun
  have hcur : Cursors cfg (s.objs n) := hall j n (by rw [holder_of hk, Conn.holds, halive, if_pos rfl, harg])
  cases hcalls with
  | recv p hfree hget hfound =>
      refine ⟨served_cursors cfg env _, served_fs ?_⟩
      unfold Ctx.scanned
      rw [(findHttp_parses p.len p.len 4 _).fs]
      exact hfs
  | sent => exact ⟨notify_cursors hcur, hfs⟩
  | poll hretries hhandle => exact ⟨polled_cursors hcur, hfs⟩

/-! ## `send_data` -/

/-- Where `send_data` gets to the file data, if it does not return from the header phase. -/
def afterHeaders (cfg : Config) (env : Env) (c : Ctx) : Option Sending :=
  if cfg.dynamicHttpHeaders then
    match sendHeaders env c with
    | (_, true)  => none
    | (s, false) => some s
  else some ⟨c, .ok, 0, false⟩

/-- **The condition under which `send_data` spins**: there is an SSI page with a tag ahead, and the send buffer is full
    when the headers are out. -/
def Spins (cfg : Config) (env : Env) (c : Ctx) : Prop :=
  cfg.includeHttpdSsi = true ∧ c.hs.tagCheck = true ∧ c.hs.left ≠ 0 ∧ c.hs.TagAhead cfg c.mem ∧
    ∃ s, afterHeaders cfg env c = some s ∧ s.err = .ok ∧ s.ctx.tcpSndbuf env = 0

theorem sendData_none (h : afterHeaders cfg env c = none) (fuel : Nat) : (sendData cfg env fuel c).returned = true := by
  unfold afterHeaders at h
  unfold sendData
  split at h
  · next hdyn =>
      rw [if_pos hdyn]
      generalize sendHeaders env c = r at h
      obtain ⟨s, ret⟩ := r
      cases ret with
      | true => rfl
      | false => exact absurd h (by simp)
  · exact absurd h (by simp)

/-- The header phase moves the header cursor, and counts its calls. -/
theorem sendData_some {s : Sending} (h : afterHeaders cfg env c = some s) :
    (∀ fuel, sendData cfg env fuel c = sendBody cfg env fuel s) ∧ Follows c s.ctx ∧ s.ctx.mem = c.mem ∧
      s.ctx.fs = c.fs ∧ ∃ pos idx, s.ctx.hs = { c.hs with hdrPos := pos, hdrIndex := idx } := by
  unfold afterHeaders at h
  unfold sendData
  split at h
  · next hdyn =>
      have hsent := sendHeaders_sentHeaders env c
      have hfollows := sendHeaders_follows env c
      simp only [if_pos hdyn]
      generalize sendHeaders env c = r at h hsent hfollows
      obtain ⟨s', ret⟩ := r
      cases ret with
      | true => exact absurd h (by simp)
      | false =>
          obtain rfl := Option.some.inj h
          exact ⟨fun _ => rfl, hfollows, hsent.sends.mem, hsent.sends.fs, hsent.hs⟩
  · next hdyn =>
      obtain rfl := Option.some.inj h
      exact ⟨fun _ => if_neg hdyn, .refl c, rfl, rfl, c.hs.hdrPos, c.hs.hdrIndex, rfl⟩

/-- **`send_data` returns exactly if it does not spin**: with answers of lwIP, and wherever the server calls it. The
    other loops always end. -/
theorem send_data_returns_iff (hcall : SendDataCalled cfg env c)
    (hlwip : ∀ fuel, LwipConsistent env c (sendData cfg env fuel c).ctx) :
    ((∃ fuel, (sendData cfg env fuel c).returned = true) ↔ ¬Spins cfg env c) ∧ LoopsExit cfg env c := by
  obtain ⟨hcur, hend⟩ := hcall.cursors
  refine ⟨?_, loopsExit env hcur⟩
  cases hafter : afterHeaders cfg env c with
  | none =>
      -- the headers are not all sent, and `send_data` returns before the file
      refine iff_of_true ⟨0, sendData_none hafter 0⟩ ?_
      rintro ⟨-, -, -, -, s, hsome, -⟩
      rw [hafter] at hsome
      exact absurd hsome (by simp)
  | some s =>
      obtain ⟨heq, hbefore, hmem, hfs, pos, idx, hhs⟩ := sendData_some hafter
      by_cases hleft : c.hs.left = 0
      · -- nothing is left of the file, so nothing is parsed
        refine iff_of_true ⟨0, ?_⟩ fun hspins => hspins.2.2.1 hleft
        rw [heq]
        rcases sendBody_cases_atEnd cfg env 0 s (by rw [hfs]; exact hend) with ⟨b, n, c₁, -, -, h | h⟩ | ⟨hne, -⟩
        · rw [h]
        · rw [h]
        · exact absurd hleft (by rw [hhs] at hne; exact hne)
      have hbody : ∀ fuel, sendBody cfg env fuel s = sendFileData cfg env fuel { s with ctx := s.ctx.useState } := by
        intro fuel
        unfold sendBody
        rw [refill_left env (by rw [hhs]; exact hleft)]
        rfl
      by_cases hssi : cfg.includeHttpdSsi = true ∧ c.hs.tagCheck = true
      swap
      · -- the page is sent as it is
        refine iff_of_true ⟨0, ?_⟩ fun hspins => hssi ⟨hspins.1, hspins.2.1⟩
        rw [heq, hbody, sendFileData, if_neg (by rw [Ctx.useState_hs, hhs]; exact hssi)]
      -- from here on it is the SSI branch that decides
      have hssi' : ∀ fuel, sendData cfg env fuel c = sendSsi cfg env fuel { s with ctx := s.ctx.useState } := by
        intro fuel
        rw [heq, hbody, sendFileData, if_pos (by rw [Ctx.useState_hs, hhs]; exact hssi)]
      have hscan : Scanning s.ctx.useState.hs := by
        have h := hcur.body hssi.1 hssi.2 (Nat.pos_of_ne_zero hleft)
        rw [Ctx.useState_hs, hhs]
        exact ⟨h.file_le, h.left, h.left_lt, h.sending⟩
      have hfollows : Follows c s.ctx.useState := hbefore.trans (.emit _ rfl)
      have hreturns := sendSsi_returns_iff cfg env (s := { s with ctx := s.ctx.useState }) hscan fun fuel => by
        rw [← hssi']
        exact (hlwip fuel).after hfollows
      simp only [hssi', hreturns]
      refine not_congr ⟨?_, ?_⟩
      · rintro ⟨herr, hroom, htag⟩
        refine ⟨hssi.1, hssi.2, hleft, ?_, s, hafter, herr, hroom⟩
        rw [Ctx.useState_hs, hhs, Ctx.useState_mem, hmem] at htag
        exact htag
      · rintro ⟨-, -, -, htag, s', hsome, herr, hroom⟩
        obtain rfl := Option.some.inj (hafter.symm.trans hsome)
        refine ⟨herr, hroom, ?_⟩
        rw [Ctx.useState_hs, hhs, Ctx.useState_mem, hmem]
        exact htag

end

/-! ## A page that spins

Two tags and one more byte. The first insert is out when the peer closes its window, and `http_poll` is called. -/

theorem tagsFile_len_lt : 19 < 2147483648 := by decide

def tagsFile : FsDataFile := ⟨lit "/a.shtml", 4096, 19, tagsFile_len_lt⟩

def tagsMem : Mem := fun a => (lit "<!--#x--><!--#x-->b").getD (a - 4096) 0

def tagsRequest : Segment := ⟨25, 25, lit "GET /a.shtml HTTP/1.0\r\n\r\n", by decide, by decide⟩

/-- The window is closed. -/
def closedWindow : Env := { soleEnv with sndbuf := fun _ => 0 }

/-- Answers that lwIP may give as long as nothing is offered. -/
theorem LwipConsistent.of_zero {env : Env} {c c' : Ctx} (hmss : 0 < toU16 env.mss) (hroom : ∀ k, env.sndbuf k = 0)
    (hok : ∀ k, env.write k = .ok) (h : ∃ es, c'.log = c.log ++ es ∧ ∀ len ∈ offered es, len = 0) :
    LwipConsistent env c c' := by
  obtain ⟨es, hes, hzero⟩ := h
  refine ⟨hmss, fun es' hes' k len hk => ?_⟩
  obtain rfl := List.append_cancel_left (hes.symm.trans hes')
  have hlen : len = 0 := hzero len (List.mem_of_getElem? hk)
  subst hlen
  exact ⟨.inl (hok _), fun _ => hok _, fun hfull => absurd hfull (Nat.not_lt_zero _), by simp [hroom]⟩

theorem tagsPage_called : ∃ c, SendDataCalled (soleConfig tagsFile false) closedWindow c ∧
    c.hs.tagCheck = true ∧ c.hs.left ≠ 0 ∧ c.hs.TagAhead (soleConfig tagsFile false) c.mem := by
  have hex : ((runActions (Server.step (soleConfig tagsFile false)) (Server.init 1 tagsMem)
      [.accept .zero soleEnv, .call 0 (.recv (some tagsRequest) .ok) soleEnv 20]).map fun s =>
        (decide (s.blocked = false ∧ (s.objs 0).retries = 0 ∧ (s.objs 0).handle ≠ none ∧ (s.objs 0).tagCheck = true ∧
            (s.objs 0).left ≠ 0 ∧ (s.objs 0).parsed = (s.objs 0).file ∧
            ¬(s.objs 0).tag.index < (s.objs 0).tag.insertLen ∧
            closesEarly (soleConfig tagsFile false) (s.objs 0).tag ((s.objs 0).unparsed s.mem) = true),
          s.conns[0]?.map fun k => (k.alive, k.poll, k.arg))) = some (true, some (true, true, some 0)) := by
    decide +kernel
  obtain ⟨s, hs, hstate⟩ := Option.map_eq_some_iff.mp hex
  obtain ⟨tr, hrun, -⟩ := Run.of_runActions hs
  simp only [Prod.mk.injEq, Option.map_eq_some_iff, decide_eq_true_eq] at hstate
  obtain ⟨⟨hidle, hretries, hhandle, hcheck, hleft, hlevel, hinsert, htag⟩, k, hk, halive, hpoll, harg⟩ := hstate
  refine ⟨(s.ctx 0).polled, ⟨1, tagsMem, tr, s, 0, 0, k, .poll, hrun, hidle, hk, halive, hpoll, harg, ?_⟩, hcheck,
    hleft,
    hlevel, fun hpending => hinsert hpending.2.2, htag⟩
  refine .poll ?_ hhandle
  show toU8 (((s.objs 0).retries : Int) + 1) ≠ 4
  rw [hretries]
  decide

/-- lwIP may answer like this for ever, and `send_data` goes on. -/
theorem tagsPage_spins {c : Ctx} (hcall : SendDataCalled (soleConfig tagsFile false) closedWindow c)
    (hcheck : c.hs.tagCheck = true) (hleft : c.hs.left ≠ 0) (htag : c.hs.TagAhead (soleConfig tagsFile false) c.mem)
    (fuel : Nat) : LwipConsistent closedWindow c (sendData (soleConfig tagsFile false) closedWindow fuel c).ctx ∧
      (sendData (soleConfig tagsFile false) closedWindow fuel c).returned = false := by
  have hmss : 0 < toU16 closedWindow.mss := by decide
  have hscan : Scanning c.useState.hs := hcall.cursors.1.body rfl hcheck (Nat.pos_of_ne_zero hleft)
  have hbody : sendData (soleConfig tagsFile false) closedWindow fuel c =
      sendSsi (soleConfig tagsFile false) closedWindow fuel ⟨c.useState, .ok, 0, false⟩ := by
    show sendBody _ _ _ _ = _
    unfold sendBody
    rw [refill_left closedWindow hleft]
    exact if_pos ⟨rfl, hcheck⟩
  obtain ⟨hdoomed, -, heq⟩ := @sendSsi_spins (soleConfig tagsFile false) closedWindow
    ⟨c.useState, .ok, 0, false⟩ hscan rfl rfl htag fuel
  obtain ⟨es, hes, hzero⟩ := @doomed_offers _ closedWindow (fun _ => rfl) fuel _ hdoomed
  have hloop := doomed_loop fuel _ hdoomed (.of_zero hmss (fun _ => rfl) (fun _ => rfl) ⟨es, hes, hzero⟩)
  rw [hbody, heq, ssiScan_outOfFuel hloop]
  refine ⟨.of_zero hmss (fun _ => rfl) (fun _ => rfl) ⟨[.useState c.self, .pcbRead] ++ es, ?_, ?_⟩, rfl⟩
  · rw [hes, ssiStart_level (by rw [Ctx.useState_hs, htag.1]; exact Nat.lt_irrefl _)]
    simp
  · rw [offered_append]
    exact hzero

theorem send_data_returns_tags : ∃ c, SendDataCalled (soleConfig tagsFile false) closedWindow c ∧
    ((∃ fuel, (sendData (soleConfig tagsFile false) closedWindow fuel c).returned = true) ↔
      ¬Spins (soleConfig tagsFile false) closedWindow c) ∧ LoopsExit (soleConfig tagsFile false) closedWindow c := by
  obtain ⟨c, hcall, hcheck, hleft, htag⟩ := tagsPage_called
  exact ⟨c, hcall, send_data_returns_iff hcall fun fuel => (tagsPage_spins hcall hcheck hleft htag fuel).1⟩

theorem send_data_never_returns : ∃ c, SendDataCalled (soleConfig tagsFile false) closedWindow c ∧
    (∀ fuel, LwipConsistent closedWindow c (sendData (soleConfig tagsFile false) closedWindow fuel c).ctx) ∧
    ∀ fuel, (sendData (soleConfig tagsFile false) closedWindow fuel c).returned = false := by
  obtain ⟨c, hcall, hcheck, hleft, htag⟩ := tagsPage_called
  have hspins := tagsPage_spins hcall hcheck hleft htag
  exact ⟨c, hcall, fun fuel => (hspins fuel).1, fun fuel => (hspins fuel).2⟩

end ThirdParty.Httpd
