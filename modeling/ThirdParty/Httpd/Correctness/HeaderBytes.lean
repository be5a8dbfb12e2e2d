import ThirdParty.Lib.Trace
import ThirdParty.Httpd.Headers
import ThirdParty.Httpd.Correctness.Plain

/-!
# `Httpd.Correctness.HeaderBytes` — when header bytes are lost

The header loop moves `hdr_pos` by what the retry loop leaves in `sendlen`, whether or not the last `tcp_write`
was accepted. After a refused attempt on two or three bytes `sendlen` is one, so one byte is skipped. Counting
these attempts (`losses`) makes the accounting exact: the designated prefix is longer than what TCP has accepted
by just that many bytes. Hence the header bytes are right exactly in the runs without such an attempt.
-/

namespace ThirdParty.Httpd

open Lib Lwip

/-! ## The designated prefix -/

/-- The part of `hdrs[0] ++ hdrs[1] ++ hdrs[2]` before position `pos` of string `idx`. -/
def designated (hdrs : Nat → List Byte) (idx pos : Nat) : List Byte :=
  (List.range idx).flatMap hdrs ++ (hdrs idx).take pos

/-- `hdrs[0] ++ hdrs[1] ++ hdrs[2]`. -/
def allHeaders (hdrs : Nat → List Byte) : List Byte := hdrs 0 ++ hdrs 1 ++ hdrs 2

theorem designated_end (hdrs : Nat → List Byte) : designated hdrs numFileHdrStrings 0 = allHeaders hdrs := by
  simp [designated, allHeaders, numFileHdrStrings, List.range_succ]

theorem designated_zero (hdrs : Nat → List Byte) : designated hdrs 0 0 = [] := by simp [designated]

/-- The end of one string is the start of the next. -/
theorem designated_next (hdrs : Nat → List Byte) (idx : Nat) :
    designated hdrs (idx + 1) 0 = designated hdrs idx (hdrs idx).length := by
  simp [designated, List.range_succ]

theorem designated_add (hdrs : Nat → List Byte) (idx pos n : Nat) :
    designated hdrs idx (pos + n) = designated hdrs idx pos ++ ((hdrs idx).drop pos).take n := by
  simp [designated, List.take_add]

theorem designated_prefix (hdrs : Nat → List Byte) {idx pos : Nat} (h : idx < numFileHdrStrings) :
    designated hdrs idx pos <+: allHeaders hdrs := by
  unfold numFileHdrStrings at h
  obtain rfl | rfl | rfl : idx = 0 ∨ idx = 1 ∨ idx = 2 := by omega
  · simp only [designated, allHeaders, List.range_zero, List.flatMap_nil, List.nil_append, List.append_assoc]
    exact (List.take_prefix _ _).trans (List.prefix_append _ _)
  · simp only [designated, allHeaders, List.range_succ, List.range_zero, List.nil_append, List.flatMap_cons,
      List.flatMap_nil, List.append_nil, List.append_assoc]
    exact List.prefix_append_right_inj _ |>.mpr ((List.take_prefix _ _).trans (List.prefix_append _ _))
  · simp only [designated, allHeaders, List.range_succ, List.range_zero, List.nil_append, List.flatMap_append,
      List.flatMap_cons, List.flatMap_nil, List.append_nil]
    exact List.prefix_append_right_inj _ |>.mpr (List.take_prefix _ _)

/-! ## Lossy attempts -/

/-- A refused attempt on two or three header bytes. -/
def losesHeaderByte : Ev → Bool
  | .tcpWrite (.header _ _) data .mem => data.length == 2 || data.length == 3
  | _ => false

def losses (log : List Ev) : Nat := log.countP losesHeaderByte

theorem losses_append (l₁ l₂ : List Ev) : losses (l₁ ++ l₂) = losses l₁ + losses l₂ := List.countP_append

/-- A call of `tcp_write` is in its place, given the events before it: header bytes are offered just after what was
    accepted, body bytes only after all header bytes. -/
def InPlace (hdrs : Nat → List Byte) (past : List Ev) : Ev → Prop
  | .tcpWrite (.header idx pos) _ _ => accepted Src.isHeader past = designated hdrs idx pos
  | .tcpWrite _ _ _ => accepted Src.isHeader past = allHeaders hdrs
  | _ => True

/-- **The header bytes are right**: now, and at every call of `tcp_write` so far. -/
structure HeadersExact (hdrs : Nat → List Byte) (c : Ctx) : Prop where
  now      : accepted Src.isHeader c.log = designated hdrs c.hs.hdrIndex c.hs.hdrPos
  isPrefix : accepted Src.isHeader c.log <+: allHeaders hdrs
  each     : AtEach (InPlace hdrs) c.log

/-- **The accounting invariant** of the header cursor. -/
structure HeaderInv (hdrs : Nat → List Byte) (c : Ctx) : Prop where
  same   : c.hs.hdrs = hdrs
  cursor : (c.hs.hdrIndex < numFileHdrStrings ∧ c.hs.hdrPos ≤ (hdrs c.hs.hdrIndex).length) ∨
    (c.hs.hdrIndex = numFileHdrStrings ∧ c.hs.hdrPos = 0)
  count  : (designated hdrs c.hs.hdrIndex c.hs.hdrPos).length =
    (accepted Src.isHeader c.log).length + losses c.log
  exact  : losses c.log = 0 → accepted Src.isHeader c.log = designated hdrs c.hs.hdrIndex c.hs.hdrPos ∧
    AtEach (InPlace hdrs) c.log

/-! ## The answers of `tcp_write` reach the loop unchanged -/

theorem writeHalving_answer (env : Env) (src : Src) (data : Nat → List Byte) : ∀ (fuel len : Nat) (c : Ctx),
    len < fuel → ∃ k, (writeHalving env src data fuel len c).1 = env.write k := by
  intro fuel
  induction fuel with
  | zero => intro len c h; exact absurd h (Nat.not_lt_zero len)
  | succ fuel ih =>
      intro len c hfuel
      obtain ⟨err, c₁, hw⟩ : ∃ err c₁, c.tcpWrite env src (data len) = (err, c₁) := ⟨_, _, rfl⟩
      unfold writeHalving
      simp only [hw]
      by_cases hgo : err = .mem ∧ (if err = .mem then len / 2 else len) > 1
      · rw [if_pos hgo]
        rw [if_pos hgo.1] at hgo ⊢
        exact ih _ c₁ (by omega)
      · rw [if_neg hgo]
        exact ⟨c.writes, (congrArg Prod.fst hw).symm⟩

theorem tcpWriteRetry_answer {env : Env} {src : Src} {data : Nat → List Byte} {len len' : Nat} {c c' : Ctx}
    {err : Err} (h : tcpWriteRetry env src data len c = (err, len', c')) : ∃ k, err = env.write k := by
  obtain ⟨k, hk⟩ := writeHalving_answer env src data (len + 1) len c (Nat.lt_succ_self len)
  unfold tcpWriteRetry at h
  rw [h] at hk
  exact ⟨k, hk⟩

/-! ## One round of the header loop -/

section
variable {hdrs : Nat → List Byte} {c c' : Ctx} {err : Err} {failed : List Nat} {offered sent n w idx pos : Nat}

/-- What the attempts of one round lose: nothing but the byte that is skipped when memory is short. -/
theorem Retried.losses_header
    (h : Retried (.header idx pos) (fun k => ((hdrs idx).drop pos).take k) offered c err sent c' failed n w)
    (hoff : offered ≤ (hdrs idx).length - pos) :
    losses c'.log = losses c.log + if err = .mem then sent else 0 := by
  have hlen : ∀ k ≤ offered, (((hdrs idx).drop pos).take k).length = k := by
    intro k hk
    rw [List.length_take, List.length_drop]
    omega
  -- an attempt is followed by another one only above three bytes, and loses nothing
  have hfailed : losses (failed.map (refused (.header idx pos) fun k => ((hdrs idx).drop pos).take k)) = 0 := by
    refine List.countP_eq_zero.mpr fun e he => ?_
    obtain ⟨k, hk, rfl⟩ := List.mem_map.mp he
    have hk4 := h.failed_le k hk
    simp only [refused, losesHeaderByte, hlen k hk4.2, Bool.or_eq_true, beq_iff_eq, not_or]
    omega
  rw [h.ctx]
  simp only [losses_append, hfailed, Nat.add_zero]
  congr 1
  by_cases hmem : err = .mem
  · -- the last attempt: half of one, two or three bytes is skipped
    obtain ⟨hn, hsent⟩ := h.out_of_mem hmem
    have hn' := hlen n h.last_le
    rw [if_pos hmem, hmem, hsent]
    simp only [losses, List.countP_singleton, losesHeaderByte, hn']
    obtain rfl | rfl | rfl | rfl : n = 0 ∨ n = 1 ∨ n = 2 ∨ n = 3 := by omega
    all_goals rfl
  · rw [if_neg hmem]
    refine List.countP_eq_zero.mpr fun e he => ?_
    rw [List.mem_singleton.mp he]
    cases err <;> first | exact absurd rfl hmem | simp [losesHeaderByte]

/-- All attempts of one round see the same past. -/
theorem Retried.atEach {src : Src} {data : Nat → List Byte} {P : List Ev → Ev → Prop}
    (h : Retried src data offered c err sent c' failed n w) (hc : AtEach P c.log)
    (hP : ∀ past data err, accepted Src.isHeader past = [] → P (c.log ++ past) (.tcpWrite src data err)) :
    AtEach P c'.log := by
  rw [h.ctx]
  simp only
  rw [atEach_snoc]
  refine ⟨hc.append ?_, hP _ _ _ (accepted_refused _ src data failed)⟩
  -- what was refused before
  intro past e rest heq
  have he : e ∈ failed.map (refused src data) := by rw [heq]; simp
  obtain ⟨k, -, rfl⟩ := List.mem_map.mp he
  refine hP _ _ _ (accepted_eq_nil _ fun e' he' => ?_)
  have he'' : e' ∈ failed.map (refused src data) := by rw [heq]; simp [he']
  obtain ⟨k', -, rfl⟩ := List.mem_map.mp he''
  rfl

/-- **One round keeps the accounting.** -/
theorem HeaderInv.round (h : HeaderInv hdrs c) (hidx : c.hs.hdrIndex < numFileHdrStrings)
    (hr : Retried (.header c.hs.hdrIndex c.hs.hdrPos)
      (fun k => ((hdrs c.hs.hdrIndex).drop c.hs.hdrPos).take k) offered c err sent c' failed n w)
    (hoff : offered ≤ (hdrs c.hs.hdrIndex).length - c.hs.hdrPos) (herr : err = .ok ∨ err = .mem)
    {hs : HttpState} (hstr : hs.hdrs = c.hs.hdrs)
    (hcur : (hs.hdrIndex = c.hs.hdrIndex ∧ hs.hdrPos = c.hs.hdrPos + sent) ∨
      (c.hs.hdrPos + sent = (hdrs c.hs.hdrIndex).length ∧ hs.hdrIndex = c.hs.hdrIndex + 1 ∧ hs.hdrPos = 0)) :
    HeaderInv hdrs (c'.setHs hs) := by
  have hpos : c.hs.hdrPos ≤ (hdrs c.hs.hdrIndex).length := by
    rcases h.cursor with hcur | hcur
    · exact hcur.2
    · omega
  have hsent := Nat.le_trans hr.le hoff
  -- the new cursor designates what the old one did and the `sent` bytes after it
  have hnew : designated hdrs hs.hdrIndex hs.hdrPos = designated hdrs c.hs.hdrIndex c.hs.hdrPos ++
      ((hdrs c.hs.hdrIndex).drop c.hs.hdrPos).take sent := by
    rw [← designated_add]
    rcases hcur with ⟨hi, hp⟩ | ⟨hfull, hi, hp⟩
    · rw [hi, hp]
    · rw [hi, hp, designated_next, hfull]
  have hlen : (((hdrs c.hs.hdrIndex).drop c.hs.hdrPos).take sent).length = sent := by
    rw [List.length_take, List.length_drop]
    omega
  have hacc := hr.accepted_log Src.isHeader
  have hloss := hr.losses_header hoff
  refine ⟨hstr.trans h.same, ?_, ?_, fun hzero => ?_⟩
  · show (hs.hdrIndex < _ ∧ hs.hdrPos ≤ (hdrs hs.hdrIndex).length) ∨ _
    rcases hcur with ⟨hi, hp⟩ | ⟨hfull, hi, hp⟩
    · exact .inl ⟨by rw [hi]; exact hidx, by rw [hi, hp]; omega⟩
    · by_cases hlast : c.hs.hdrIndex + 1 < numFileHdrStrings
      · exact .inl ⟨by rw [hi]; exact hlast, by rw [hp]; exact Nat.zero_le _⟩
      · exact .inr ⟨show hs.hdrIndex = _ by rw [hi]; omega, hp⟩
  · have hcount := h.count
    show (designated hdrs hs.hdrIndex hs.hdrPos).length = (accepted Src.isHeader c'.log).length + losses c'.log
    rw [hnew, List.length_append, hlen, hacc, hloss, List.length_append, hcount]
    rcases herr with rfl | rfl
    · simp only [Src.isHeader, and_self, if_true, hlen, reduceCtorEq, if_false]
      omega
    · simp only [reduceCtorEq, false_and, if_false, if_true, List.length_nil]
      omega
  · change losses c'.log = 0 at hzero
    rw [hloss] at hzero
    obtain ⟨hnow, heach⟩ := h.exact (by omega)
    refine ⟨?_, ?_⟩
    · show accepted Src.isHeader c'.log = designated hdrs hs.hdrIndex hs.hdrPos
      rw [hnew, hacc, hnow]
      rcases herr with rfl | rfl
      · simp [Src.isHeader]
      · obtain rfl : sent = 0 := by simp at hzero; omega
        simp
    · refine hr.atEach heach fun past data err hpast => ?_
      show accepted Src.isHeader (c.log ++ past) = _
      rw [accepted_append, hpast, List.append_nil, hnow]

end

/-! ## The phases of `send_data` -/

/-- `tcp_write` answers `ERR_OK` or `ERR_MEM` only. -/
def OkOrMem (env : Env) : Prop := ∀ k, env.write k = .ok ∨ env.write k = .mem

section
variable {hdrs : Nat → List Byte} {c c' : Ctx} {env : Env}

theorem headerLoop_inv (hshort : ∀ i < numFileHdrStrings, (hdrs i).length < 65536) (henv : OkOrMem env) :
    ∀ (fuel len sendlen : Nat) (err : Err) (c : Ctx), HeaderInv hdrs c →
      HeaderInv hdrs (headerLoop env fuel len sendlen err c).2 := by
  intro fuel
  induction fuel with
  | zero => intro len sendlen err c h; exact h
  | succ fuel ih =>
      intro len sendlen err c h
      by_cases hgo : len ≠ 0 ∧ c.hs.hdrIndex < numFileHdrStrings ∧ sendlen ≠ 0
      swap
      · rw [headerLoop_stop hgo]
        exact h
      have hpos : c.hs.hdrPos ≤ (c.hs.hdrs c.hs.hdrIndex).length := by
        rcases h.cursor with hcur | hcur
        · rw [h.same]
          exact hcur.2
        · exact absurd hgo.2.1 (by omega)
      have hstr : (c.hs.hdrs c.hs.hdrIndex).length < 65536 := by
        rw [h.same]
        exact hshort c.hs.hdrIndex hgo.2.1
      have hoff := HttpState.headerOffer_le hstr hpos len
      obtain ⟨err', sent, c', failed, n, w, heq, hr⟩ := tcpWriteRetry_spec env (.header c.hs.hdrIndex c.hs.hdrPos)
        (fun n => ((c.hs.hdrs c.hs.hdrIndex).drop c.hs.hdrPos).take n) (c.hs.headerOffer len) c
      obtain ⟨k, hk⟩ := tcpWriteRetry_answer heq
      have hsent := hr.le
      rw [headerLoop_round err hgo heq, hr.hs, toU16_of_lt hstr]
      rw [h.same] at hr hoff hpos hstr ⊢
      have hfits : c.hs.hdrPos + sent < 65536 := by omega
      -- the string is finished, or the position moves inside it
      rcases c.hs.headerMoved_cases (hdrs c.hs.hdrIndex).length hfits with ⟨hfull, hmoved⟩ | hmoved
      · rw [hmoved]
        exact ih _ _ _ _ (h.round hgo.2.1 hr hoff.1 (hk ▸ henv k) rfl (.inr ⟨hfull, rfl, rfl⟩))
      · rw [hmoved]
        exact ih _ _ _ _ (h.round hgo.2.1 hr hoff.1 (hk ▸ henv k) rfl (.inl ⟨rfl, rfl⟩))

/-- Events that do not offer header bytes. -/
def isHeaderWrite : Ev → Bool
  | .tcpWrite src _ _ => src.isHeader
  | _ => false

theorem losesHeaderByte_of_not_header {e : Ev} (h : isHeaderWrite e = false) : losesHeaderByte e = false := by
  cases e with
  | tcpWrite src data err =>
      cases src with
      | header idx pos => cases h
      | file a => rfl
      | insert idx => rfl
  | _ => rfl

/-- While the cursor stands still no header byte is sent; body bytes may be once all headers are out. -/
theorem HeaderInv.extend (h : HeaderInv hdrs c) {es : List Ev} (hlog : c'.log = c.log ++ es)
    (hes : ∀ e ∈ es, isHeaderWrite e = false) (hstr : c'.hs.hdrs = c.hs.hdrs)
    (hcur : c'.hs.hdrIndex = c.hs.hdrIndex ∧ c'.hs.hdrPos = c.hs.hdrPos)
    (hbody : c.hs.hdrIndex = numFileHdrStrings ∨ ∀ e ∈ es, sendsFrom Src.isHeader c.self e = true) :
    HeaderInv hdrs c' := by
  have hnone : ∀ l : List Ev, (∀ e ∈ l, isHeaderWrite e = false) → accepted Src.isHeader l = [] := by
    intro l hl
    refine accepted_eq_nil _ fun e he => ?_
    have hw := hl e he
    cases e with
    | tcpWrite src data err => exact Ev.accepted_of_src _ data err hw
    | _ => rfl
  have hloss : losses es = 0 := by
    refine List.countP_eq_zero.mpr fun e he => ?_
    simp [losesHeaderByte_of_not_header (hes e he)]
  have hacc : accepted Src.isHeader c'.log = accepted Src.isHeader c.log := by
    rw [hlog, accepted_append, hnone es hes, List.append_nil]
  have hcount : losses c'.log = losses c.log := by rw [hlog, losses_append, hloss, Nat.add_zero]
  -- neither side of the count changes
  refine ⟨hstr.trans h.same, by rw [hcur.1, hcur.2]; exact h.cursor, ?_, fun hzero => ?_⟩
  · rw [hcur.1, hcur.2, hacc, hcount]
    exact h.count
  · obtain ⟨hnow, heach⟩ := h.exact (hcount.symm.trans hzero)
    refine ⟨by rw [hacc, hcur.1, hcur.2]; exact hnow, ?_⟩
    rw [hlog]
    refine heach.append fun past e rest heq => ?_
    have he : e ∈ es := by rw [heq]; simp
    cases e with
    | tcpWrite src data err =>
        -- a body byte: all headers were accepted before it
        rcases hbody with hend | hsends
        · have hall : accepted Src.isHeader c.log = allHeaders hdrs := by
            rcases h.cursor with hc | hc
            · omega
            · rw [hnow, hc.1, hc.2, designated_end]
          have hpast : accepted Src.isHeader (c.log ++ past) = allHeaders hdrs := by
            rw [accepted_append, hnone past fun e' he' => hes e' (by rw [heq]; simp [he']), List.append_nil, hall]
          cases src with
          | header i p => exact absurd (hes _ he) (by simp [isHeaderWrite, Src.isHeader])
          | _ => exact hpast
        · have hw := hes _ he
          have hs := hsends _ he
          simp only [isHeaderWrite] at hw
          simp [sendsFrom, hw] at hs
    | _ => trivial

theorem isHeaderWrite_of_sends {self : Nat} {e : Ev} (h : sendsFrom Src.isBody self e = true) :
    isHeaderWrite e = false := by
  cases e with
  | tcpWrite src data err => simpa [sendsFrom, isHeaderWrite, Src.isBody] using h
  | _ => rfl

/-- A single event that is no `tcp_write`. -/
theorem HeaderInv.emit (h : HeaderInv hdrs c) {e : Ev} (he : sendsFrom (fun _ => false) c.self e = true) :
    HeaderInv hdrs (c.emit e) := by
  refine h.extend rfl ?_ rfl ⟨rfl, rfl⟩ (.inr ?_)
  · intro e' he'
    rw [List.mem_singleton.mp he']
    cases e <;> first | rfl | cases he
  · intro e' he'
    rw [List.mem_singleton.mp he']
    cases e <;> first | exact he | cases he

theorem sendHeaders_inv (hshort : ∀ i < numFileHdrStrings, (hdrs i).length < 65536) (henv : OkOrMem env)
    (h : HeaderInv hdrs c) :
    HeaderInv hdrs (sendHeaders env c).1.ctx ∧
    ((sendHeaders env c).2 = false → (sendHeaders env c).1.ctx.hs.hdrIndex = numFileHdrStrings) := by
  have huse : HeaderInv hdrs c.useState := h.emit (by simp [sendsFrom])
  unfold sendHeaders
  simp only
  split
  · have hloop := headerLoop_inv hshort henv (((c.useState).emit .pcbRead).tcpSndbuf env + 1)
      (((c.useState).emit .pcbRead).tcpSndbuf env) (((c.useState).emit .pcbRead).tcpSndbuf env) .ok
      ((c.useState).emit .pcbRead) (huse.emit rfl)
    split
    · exact ⟨hloop.emit rfl, fun hret => by cases hret⟩
    · next hend =>
        refine ⟨hloop, fun _ => ?_⟩
        rcases hloop.cursor with hcur | hcur
        · exact absurd (.inl hcur.1) hend
        · exact hcur.1
  · next hend =>
      refine ⟨huse, fun _ => ?_⟩
      rcases huse.cursor with hcur | hcur
      · exact absurd hcur.1 hend
      · exact hcur.1

theorem isHeaderWrite_closeEvents (env : Env) (c : Ctx) : ∀ e ∈ closeEvents env c, isHeaderWrite e = false := by
  unfold closeEvents freeEvents
  cases c.hs.buf <;> simp [isHeaderWrite]

/-- The part of `send_data` after the headers leaves the header cursor alone. -/
theorem sendBody_log (cfg : Config) (env : Env) (fuel : Nat) (s : Sending) :
    (sendBody cfg env fuel s).ctx.hs.hdrs = s.ctx.hs.hdrs ∧
    ((sendBody cfg env fuel s).ctx.hs.hdrIndex = s.ctx.hs.hdrIndex ∧
      (sendBody cfg env fuel s).ctx.hs.hdrPos = s.ctx.hs.hdrPos) ∧
    ∃ es, (sendBody cfg env fuel s).ctx.log = s.ctx.log ++ es ∧ ∀ e ∈ es, isHeaderWrite e = false := by
  have hstays : ∀ {c₁ c₂ : Ctx}, Stays Src.isBody c₁ c₂ →
      ∃ es, c₂.log = c₁.log ++ es ∧ ∀ e ∈ es, isHeaderWrite e = false :=
    fun h => h.events (fun e he => isHeaderWrite_of_sends he) fun _ => rfl
  -- closing offers nothing either
  by_cases hex : Exhausted env s.ctx
  · obtain ⟨c₁, hc₁, heq⟩ := sendBody_exhausted cfg env fuel s hex
    obtain ⟨es, hes, hall⟩ := hstays hc₁
    rw [heq]
    simp only [closeConn_hs, closeConn_log, Ctx.emit_hs, Ctx.emit_log]
    refine ⟨hc₁.hdrs, hc₁.cursor rfl, es ++ (.endOfResponse :: closeEvents env (c₁.emit .endOfResponse)), ?_, ?_⟩
    · rw [hes]; simp
    · intro e he
      rcases List.mem_append.mp he with he | he
      · exact hall e he
      · rcases List.mem_cons.mp he with rfl | he
        · rfl
        · exact isHeaderWrite_closeEvents env _ e he
  · have hc := sendBody_open cfg env fuel s hex
    exact ⟨hc.hdrs, hc.cursor rfl, hstays hc⟩

/-- **One call of `send_data` keeps the accounting.** -/
theorem sendData_headerInv {cfg : Config} (hdyn : cfg.dynamicHttpHeaders = true)
    (hshort : ∀ i < numFileHdrStrings, (hdrs i).length < 65536) (henv : OkOrMem env) (fuel : Nat)
    (h : HeaderInv hdrs c) :
    HeaderInv hdrs (sendData cfg env fuel c).ctx := by
  unfold sendData
  rw [if_pos hdyn]
  obtain ⟨hinv, hend⟩ := sendHeaders_inv hshort henv h
  generalize sendHeaders env c = r at hinv hend
  obtain ⟨s, ret⟩ := r
  cases ret with
  | true => exact hinv
  | false =>
      obtain ⟨hstr, hcur, es, hes, hall⟩ := sendBody_log cfg env fuel s
      exact hinv.extend hes hall hstr hcur (.inl (hend rfl))

end

/-! ## Runs -/

/-- What `get_http_headers` leaves for a file: three strings, none of them sent yet. -/
structure HeadersReady (c : Ctx) : Prop where
  index : c.hs.hdrIndex = 0
  pos   : c.hs.hdrPos = 0
  short : ∀ i < numFileHdrStrings, (c.hs.hdrs i).length < 65536
  log   : c.log = []

/-- `get_http_headers` leaves it, unless it selects no headers at all. -/
theorem getHttpHeaders_ready {c : Ctx} {uri : Uri} (h : (getHttpHeaders c uri).hs.hdrIndex = 0) :
    HeadersReady { getHttpHeaders c uri with log := [] } := by
  unfold getHttpHeaders at h ⊢
  simp only at h ⊢
  obtain ⟨hserver, t, hline⟩ := setStatusHeader_hdrs uri (c.useState.setHs (c.useState.hs.setHdr 1 .server))
  have hkeep := uriContentType_hs uri (setStatusHeader uri ((c.useState).setHs (c.useState.hs.setHdr 1 .server)))
  generalize setStatusHeader uri ((c.useState).setHs (c.useState.hs.setHdr 1 .server)) = c₁ at hserver hline hkeep h ⊢
  generalize uriContentType uri c₁ = r at hkeep h ⊢
  obtain ⟨ext, hdr, c₂⟩ := r
  simp only at hkeep h ⊢
  -- whichever strings are chosen, they are short
  have hthree : ∀ hdrs : Nat → List Byte, (∃ t, hdrs 0 = httpHeaderString t) → (∃ t, hdrs 1 = httpHeaderString t) →
      (∃ t, hdrs 2 = httpHeaderString t) → ∀ i < numFileHdrStrings, (hdrs i).length < 65536 := by
    rintro hdrs ⟨t₀, h₀⟩ ⟨t₁, h₁⟩ ⟨t₂, h₂⟩ i hi
    unfold numFileHdrStrings at hi
    obtain rfl | rfl | rfl : i = 0 ∨ i = 1 ∨ i = 2 := by omega
    · rw [h₀]; exact httpHeaderString_short t₀
    · rw [h₁]; exact httpHeaderString_short t₁
    · rw [h₂]; exact httpHeaderString_short t₂
  split at h
  · next hnull =>
      rw [if_pos hnull]
      exact ⟨rfl, rfl, hthree _ ⟨.notFound, rfl⟩ ⟨.server, rfl⟩ ⟨.default404Html, rfl⟩, rfl⟩
  · next hnull =>
      rw [if_neg hnull]
      cases ext with
      | none => exact absurd h (by simp [numFileHdrStrings])
      | some e =>
          refine ⟨rfl, rfl, hthree _ ⟨t, ?_⟩ ⟨.server, ?_⟩ ⟨hdr.getD .defaultType, rfl⟩, rfl⟩
          · simpa [HttpState.setHdr, HttpState.startHdrs, hkeep] using hline
          · simpa [HttpState.setHdr, HttpState.startHdrs, hkeep] using hserver

/-- **Header bytes.** With dynamic headers and `tcp_write` answering `ERR_OK` or `ERR_MEM`, after any run of
    `send_data` the header bytes are right if and only if no attempt on two or three header bytes was answered
    `ERR_MEM`. -/
theorem header_bytes_exact_iff {cfg : Config} {insert : Nat → Nat → InsertReply} {c : Ctx}
    {tr : List (Outcome × SendCall)} {o : Outcome} (hdyn : cfg.dynamicHttpHeaders = true) (hready : HeadersReady c)
    (henv : ∀ oc ∈ tr, OkOrMem oc.2.env) (hrun : Run (sendStep cfg insert) ⟨c, true⟩ tr o) :
    HeadersExact c.hs.hdrs o.ctx ↔ ∀ e ∈ o.ctx.log, losesHeaderByte e = false := by
  have hinv : HeaderInv c.hs.hdrs o.ctx := by
    induction hrun with
    | nil =>
        refine ⟨rfl, .inl ⟨by rw [hready.index]; decide, by rw [hready.pos]; exact Nat.zero_le _⟩, ?_, ?_⟩
        · rw [hready.index, hready.pos, hready.log, designated_zero]
          rfl
        · intro _
          rw [hready.index, hready.pos, hready.log, designated_zero]
          exact ⟨rfl, atEach_nil _⟩
    | @snoc tr o o' call _ hstep ih =>
        have hbefore := ih fun oc hoc => henv oc (List.mem_append_left _ hoc)
        have hcall : OkOrMem call.env := henv (o, call) (by simp)
        obtain ⟨-, rfl⟩ := sendStep_spec hstep
        have hcall' : OkOrMem { call.env with insert := insert } := hcall
        exact sendData_headerInv hdyn hready.short hcall' call.fuel hbefore
  -- from here on the events of the run are counted
  have hloss : losses o.ctx.log = 0 ↔ ∀ e ∈ o.ctx.log, losesHeaderByte e = false := by
    rw [losses, List.countP_eq_zero]
    simp
  rw [← hloss]
  constructor
  · intro hexact
    have hcount := hinv.count
    rw [← hexact.now] at hcount
    omega
  · intro hzero
    obtain ⟨hnow, heach⟩ := hinv.exact hzero
    refine ⟨hnow, ?_, heach⟩
    rw [hnow]
    rcases hinv.cursor with hcur | hcur
    · exact designated_prefix _ hcur.1
    · simp only [hcur.1, hcur.2, designated_end, List.prefix_rfl]

/-! The headers of a page, with room for three bytes at a time. A refused attempt on the first three bytes loses
the `H`. -/

def headersStart : Ctx :=
  { getHttpHeaders (soleStart plainFile (lit "abc") false (fun _ => []) numFileHdrStrings) (.const (lit "/a.htm")) with
    log := [] }

def tightEnv (refusals : Nat) : Env :=
  { soleEnv with sndbuf := fun _ => 3, write := fun k => if k < refusals then .mem else .ok }

theorem okOrMem_tightEnv (refusals : Nat) : OkOrMem (tightEnv refusals) := by
  intro k
  unfold tightEnv
  simp only
  split
  · exact .inr rfl
  · exact .inl rfl

theorem header_bytes_exact_start :
    ∃ tr o, Run (sendStep (soleConfig plainFile true) soleEnv.insert) ⟨headersStart, true⟩ tr o ∧
      accepted Src.isHeader o.ctx.log = lit "HTT" ∧ HeadersExact headersStart.hs.hdrs o.ctx := by
  have hex : ((runActions (sendStep (soleConfig plainFile true) soleEnv.insert) ⟨headersStart, true⟩
      [⟨tightEnv 0, 0⟩]).map fun o => (accepted Src.isHeader o.ctx.log, o.ctx.log.all fun e => !losesHeaderByte e)) =
        some (lit "HTT", true) := by decide +kernel
  obtain ⟨o, ho, hlog⟩ := Option.map_eq_some_iff.mp hex
  obtain ⟨hacc, hclean⟩ := Prod.mk.inj hlog
  obtain ⟨tr, hrun, hacts⟩ := Run.of_runActions ho
  have henv : ∀ oc ∈ tr, OkOrMem oc.2.env := by
    intro oc hoc
    have hmem : oc.2 ∈ tr.map Prod.snd := List.mem_map_of_mem hoc
    rw [hacts, List.mem_singleton] at hmem
    rw [hmem]
    exact okOrMem_tightEnv 0
  refine ⟨tr, o, hrun, hacc, ?_⟩
  refine (header_bytes_exact_iff rfl (getHttpHeaders_ready (by decide +kernel)) henv hrun).mpr fun e he => ?_
  simpa using List.all_eq_true.mp hclean e he

theorem header_byte_lost :
    ∃ tr o, Run (sendStep (soleConfig plainFile true) soleEnv.insert) ⟨headersStart, true⟩ tr o ∧
      (∀ oc ∈ tr, OkOrMem oc.2.env) ∧ accepted Src.isHeader o.ctx.log = lit "TT" ∧
      ¬HeadersExact headersStart.hs.hdrs o.ctx := by
  have hex : ((runActions (sendStep (soleConfig plainFile true) soleEnv.insert) ⟨headersStart, true⟩
      [⟨tightEnv 1, 0⟩]).map fun o => accepted Src.isHeader o.ctx.log) = some (lit "TT") := by decide +kernel
  obtain ⟨o, ho, hacc⟩ := Option.map_eq_some_iff.mp hex
  obtain ⟨tr, hrun, hacts⟩ := Run.of_runActions ho
  refine ⟨tr, o, hrun, ?_, hacc, fun hexact => ?_⟩
  · intro oc hoc
    have hmem : oc.2 ∈ tr.map Prod.snd := List.mem_map_of_mem hoc
    rw [hacts, List.mem_singleton] at hmem
    rw [hmem]
    exact okOrMem_tightEnv 1
  · have hpre := hexact.isPrefix
    rw [hacc] at hpre
    exact absurd hpre (by decide +kernel)

end ThirdParty.Httpd
