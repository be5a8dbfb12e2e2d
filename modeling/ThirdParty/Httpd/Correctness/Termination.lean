import ThirdParty.Httpd.Correctness.Cursors

/-!
# `Httpd.Correctness.Termination` — when `send_data` returns

The retry loop, the header loop and the search for a buffer end by themselves. The SSI loop ends as long as its `len`
is positive: then every round reads a byte, notices something, or sends at least one byte (`round_progress`). `len` is
zero when the loop starts with a full send buffer and nothing parsed to be sent before it. A tag that is closed
then sets `tag_end` beyond `file`, and from there on every round is a `tcp_write` of no bytes, which lwIP answers with
`ERR_OK`.
-/

namespace ThirdParty.Httpd

open Lib Lwip

/-! ## The loops that end by themselves -/

theorem writeHalving_fuel (env : Env) (src : Src) (data : Nat → List Byte) : ∀ (fuel fuel' len : Nat) (c : Ctx),
    len < fuel → len < fuel' → writeHalving env src data fuel len c = writeHalving env src data fuel' len c := by
  intro fuel
  induction fuel with
  | zero => intro fuel' len c h; exact absurd h (Nat.not_lt_zero len)
  | succ fuel ih =>
      intro fuel' len c h h'
      cases fuel' with
      | zero => exact absurd h' (Nat.not_lt_zero len)
      | succ fuel' =>
          unfold writeHalving
          simp only
          by_cases hgo : (c.tcpWrite env src (data len)).1 = .mem ∧
              (if (c.tcpWrite env src (data len)).1 = .mem then len / 2 else len) > 1
          · rw [if_pos hgo, if_pos hgo]
            rw [if_pos hgo.1] at hgo ⊢
            exact ih fuel' _ _ (by omega) (by omega)
          · rw [if_neg hgo, if_neg hgo]

theorem allocBuf_fuel (env : Env) : ∀ (fuel fuel' count : Nat) (c : Ctx), count < fuel → count < fuel' →
    allocBuf env fuel count c = allocBuf env fuel' count c := by
  intro fuel
  induction fuel with
  | zero => intro fuel' count c h; exact absurd h (Nat.not_lt_zero count)
  | succ fuel ih =>
      intro fuel' count c h h'
      cases fuel' with
      | zero => exact absurd h' (Nat.not_lt_zero count)
      | succ fuel' =>
          unfold allocBuf
          cases env.malloc c.mallocs with
          | some a => rfl
          | none =>
              simp only
              split
              · exact ih fuel' _ _ (by omega) (by omega)
              · rfl

theorem headerLoop_fuel (env : Env) : ∀ (fuel fuel' len sendlen : Nat) (err : Err) (c : Ctx), HeaderCursor c.hs →
    len < 65536 → len < fuel → len < fuel' →
    headerLoop env fuel len sendlen err c = headerLoop env fuel' len sendlen err c := by
  intro fuel
  induction fuel with
  | zero => intro fuel' len sendlen err c _ _ h; exact absurd h (Nat.not_lt_zero len)
  | succ fuel ih =>
      intro fuel' len sendlen err c hcur hlen h h'
      cases fuel' with
      | zero => exact absurd h' (Nat.not_lt_zero len)
      | succ fuel' =>
          by_cases hgo : len ≠ 0 ∧ c.hs.hdrIndex < numFileHdrStrings ∧ sendlen ≠ 0
          swap
          · rw [headerLoop_stop hgo, headerLoop_stop hgo]
          obtain ⟨sent, hle, err', c', hcur', heq⟩ := hcur.round env err hgo hlen
          rw [heq, heq]
          by_cases hsent : sent = 0
          · -- nothing was handed over, so this was the last round
            subst hsent
            rw [headerLoop_stop (by simp), headerLoop_stop (by simp)]
          · exact ih fuel' _ _ _ _ hcur' (by omega) (by omega) (by omega)

/-- **The bounds of the inner loops are never reached**: with any larger one the loop does the same. -/
structure LoopsExit (cfg : Config) (env : Env) (c : Ctx) : Prop where
  retry   : ∀ src data len c' fuel, len < fuel →
    writeHalving env src data fuel len c' = tcpWriteRetry env src data len c'
  headers : cfg.dynamicHttpHeaders = true → ∀ fuel, c.tcpSndbuf env < fuel →
    headerLoop env fuel (c.tcpSndbuf env) (c.tcpSndbuf env) .ok (c.useState.emit .pcbRead) =
      headerLoop env (c.tcpSndbuf env + 1) (c.tcpSndbuf env) (c.tcpSndbuf env) .ok (c.useState.emit .pcbRead)
  buffer  : ∀ count c' fuel, count < fuel → allocBuf env fuel count c' = allocBuf env (count + 1) count c'

theorem loopsExit {cfg : Config} {c : Ctx} (env : Env) (h : Cursors cfg c.hs) : LoopsExit cfg env c where
  retry src data len c' _ hfuel := writeHalving_fuel env src data _ _ len c' hfuel (Nat.lt_succ_self len)
  headers hdyn _ hfuel :=
    headerLoop_fuel env _ _ _ _ .ok _ (h.headers hdyn) (toU16_lt _) hfuel (Nat.lt_succ_self _)
  buffer count c' _ hfuel := allocBuf_fuel env _ _ count c' hfuel (Nat.lt_succ_self count)

/-! ## Progress of the SSI loop -/

/-- A round in these states may leave the block as it is. -/
def TagCheckState.weight : TagCheckState → Nat
  | .leadin | .sending => 1
  | _ => 0

theorem TagCheckState.weight_le (st : TagCheckState) : st.weight ≤ 1 := by cases st <;> decide

/-- What is left to do: bytes to send, bytes to parse. -/
def Sending.todo (s : Sending) : Nat := s.ctx.hs.left + 2 * s.ctx.hs.parseLeft + s.ctx.hs.tag.state.weight

/-- What the parser has in front of it. -/
def HttpState.unparsed (hs : HttpState) (m : Mem) : List Byte := bytesAt m hs.parsed hs.parseLeft

/-- There is an insert to be sent next. -/
def HttpState.insertPending (hs : HttpState) : Prop :=
  hs.tag.state = .sending ∧ ¬hs.tagEnd > hs.file ∧ hs.tag.index < hs.tag.insertLen

/-- **The loop cannot get stuck**: something is sent by every `tcp_write`, or the next thing is an insert, after which
    `send_data` returns, or no tag will be closed before the end of the block. -/
inductive Safe (cfg : Config) (s : Sending) : Prop where
  | room (hpos : 0 < s.len) (hlt : s.len < 65536)
  | insert (hpending : s.ctx.hs.insertPending)
  | noTag (hst : s.ctx.hs.tag.state = .sending → s.ctx.hs.file = s.ctx.hs.parsed)
      (hearly : closesEarly cfg s.ctx.hs.tag (s.ctx.hs.unparsed s.ctx.mem) = false)

section
variable {cfg : Config} {env : Env} {s : Sending}

theorem bytesAt_cons (m : Mem) (a : Nat) {n : Nat} (h : n ≠ 0) : bytesAt m a n = m a :: bytesAt m (a + 1) (n - 1) := by
  have hsplit := bytesAt_split (m := m) (a := a) (Nat.one_le_iff_ne_zero.mpr h)
  exact hsplit

/-- What the next byte means for the tags to come. -/
theorem closesEarly_next (hpl : s.ctx.hs.parseLeft ≠ 0) (t : TagScan) :
    closesEarly cfg t (s.ctx.hs.unparsed s.ctx.mem) =
      if (parseByte cfg t (s.ctx.mem s.ctx.hs.parsed)).2 then decide (s.ctx.hs.parseLeft - 1 ≠ 0)
      else closesEarly cfg (parseByte cfg t (s.ctx.mem s.ctx.hs.parsed)).1
        (bytesAt s.ctx.mem (s.ctx.hs.parsed + 1) (s.ctx.hs.parseLeft - 1)) := by
  unfold HttpState.unparsed
  rw [bytesAt_cons _ _ hpl, closesEarly]
  generalize parseByte cfg t (s.ctx.mem s.ctx.hs.parsed) = r
  obtain ⟨t', hit⟩ := r
  cases hit with
  | false => rfl
  | true =>
      simp only [if_true]
      by_cases hlast : s.ctx.hs.parseLeft - 1 = 0
      · simp [hlast]
      · rw [bytesAt_cons _ _ hlast]
        simp [hlast]

/-- Offering file bytes before the tag is progress where there is room, and leaves room. -/
theorem sendBeforeTag_progress (cfg : Config) {s : Sending} (h : Scanning s.ctx.hs)
    (hst : s.ctx.hs.tag.state = .sending)
    (hfile : s.ctx.hs.file < s.ctx.hs.tagEnd) (hpos : 0 < s.len) (hlt : s.len < 65536)
    (hok : (s.sendBeforeTag env).err = .ok) :
    Safe cfg (s.sendBeforeTag env) ∧ (s.sendBeforeTag env).todo < s.todo := by
  have hend := h.sending hst
  have hleft := h.left
  obtain ⟨n, hn, hnlen, hsent, hsome⟩ := sendBeforeTag_spec env s h.left_lt (Nat.le_of_lt hfile)
  obtain ⟨hlen, hprogress⟩ := hsome hok
  have hn0 := hprogress hfile hpos hlt
  refine ⟨.room (by rw [hlen]; exact hn0) (by rw [hlen]; omega), ?_⟩
  have hleft' : (s.ctx.hs.advance n).left = s.ctx.hs.left - n := toU32_sub (by omega) h.left_lt
  have hpl : (s.ctx.hs.advance n).parseLeft = s.ctx.hs.parseLeft := rfl
  have htag : (s.ctx.hs.advance n).tag = s.ctx.hs.tag := rfl
  unfold Sending.todo
  rw [hsent.hs, hleft', hpl, htag]
  omega

/-- Reading a byte that closes no tag. -/
theorem read_progress (h : Scanning s.ctx.hs) (hsafe : Safe cfg s) (hpl : s.ctx.hs.parseLeft ≠ 0)
    (hst : s.ctx.hs.tag.state ≠ .sending)
    (hhit : (parseByte cfg s.ctx.hs.tag (s.ctx.mem s.ctx.hs.parsed)).2 = false) :
    Safe cfg (s.consume (parseByte cfg s.ctx.hs.tag (s.ctx.mem s.ctx.hs.parsed)).1) ∧
    (s.consume (parseByte cfg s.ctx.hs.tag (s.ctx.mem s.ctx.hs.parsed)).1).todo < s.todo := by
  have hstate := parseByte_state cfg s.ctx.hs.tag (s.ctx.mem s.ctx.hs.parsed)
  obtain ⟨-, hnext⟩ := h.consume hpl _ hstate
  refine ⟨?_, ?_⟩
  · cases hsafe with
    | room hpos hlt => exact .room hpos hlt
    | insert hpending => exact absurd hpending.1 hst
    | noTag hfile hearly =>
        -- the tags to come are the same
        refine .noTag (fun hs => absurd hs hstate) ?_
        rw [closesEarly_next hpl, if_neg (by rw [hhit]; decide)] at hearly
        unfold HttpState.unparsed
        rw [hnext]
        exact hearly
  · have hw := TagCheckState.weight_le (parseByte cfg s.ctx.hs.tag (s.ctx.mem s.ctx.hs.parsed)).1.state
    show s.ctx.hs.left + 2 * (s.consume (parseByte cfg s.ctx.hs.tag (s.ctx.mem s.ctx.hs.parsed)).1).ctx.hs.parseLeft +
      (parseByte cfg s.ctx.hs.tag (s.ctx.mem s.ctx.hs.parsed)).1.state.weight < s.todo
    unfold Sending.todo
    omega

/-- Reading the byte that closes a tag: what comes before the tag is offered at once. -/
theorem close_progress (h : Scanning s.ctx.hs) (hsafe : Safe cfg s) (hpl : s.ctx.hs.parseLeft ≠ 0)
    (hst : s.ctx.hs.tag.state = .leadout)
    (hhit : (parseByte cfg s.ctx.hs.tag (s.ctx.mem s.ctx.hs.parsed)).2 = true) {s' : Sending}
    (heq : s' = (s.consume (parseByte cfg s.ctx.hs.tag (s.ctx.mem s.ctx.hs.parsed)).1).foundTag cfg env) :
    s'.err ≠ .ok ∨ s'.ctx.hs.parseLeft = 0 ∨ (Safe cfg s' ∧ s'.todo < s.todo) := by
  have hle := h.file_le
  obtain ⟨hread, hnext⟩ := h.consume hpl _ (parseByte_state cfg s.ctx.hs.tag (s.ctx.mem s.ctx.hs.parsed))
  obtain ⟨s₁, hs₁⟩ : ∃ s₁, s₁ = s.consume (parseByte cfg s.ctx.hs.tag (s.ctx.mem s.ctx.hs.parsed)).1 := ⟨_, rfl⟩
  obtain ⟨hparsed, hfile, hleft, hlen⟩ : s₁.ctx.hs.parsed = s.ctx.hs.parsed + 1 ∧ s₁.ctx.hs.file = s.ctx.hs.file ∧
      s₁.ctx.hs.left = s.ctx.hs.left ∧ s₁.len = s.len := by
    rw [hs₁]
    exact ⟨rfl, rfl, rfl, rfl⟩
  rw [← hs₁] at hread hnext heq
  have hclosed : Scanning (s₁.closed cfg env).ctx.hs := ⟨hread.file_le, hread.left, hread.left_lt, fun _ => rfl⟩
  have hbehind : s₁.ctx.hs.file < s₁.ctx.hs.parsed := by omega
  rw [heq, foundTag_eq, if_pos hbehind]
  by_cases hok : ((s₁.closed cfg env).sendBeforeTag env).err = .ok
  swap
  · exact .inl hok
  by_cases hlast : s.ctx.hs.parseLeft - 1 = 0
  · obtain ⟨n, -, -, hsent, -⟩ := sendBeforeTag_spec env (s₁.closed cfg env) hclosed.left_lt hread.file_le
    refine .inr (.inl ?_)
    rw [hsent.hs]
    exact hnext.trans hlast
  -- the tag is closed early, so there must have been room
  obtain ⟨hpos, hlt⟩ : 0 < s.len ∧ s.len < 65536 := by
    cases hsafe with
    | room hpos hlt => exact ⟨hpos, hlt⟩
    | insert hpending => exact absurd (hst.symm.trans hpending.1) (by decide)
    | noTag _ hearly =>
        rw [closesEarly_next hpl, if_pos hhit] at hearly
        exact absurd hlast (by simpa using hearly)
  rw [← hlen] at hpos hlt
  obtain ⟨hnext', htodo⟩ := sendBeforeTag_progress cfg hclosed rfl hbehind hpos hlt hok
  refine .inr (.inr ⟨hnext', Nat.lt_of_lt_of_le htodo ?_⟩)
  show s₁.ctx.hs.left + 2 * s₁.ctx.hs.parseLeft + 1 ≤ s.todo
  unfold Sending.todo
  omega

/-- A round that only sees that the parser stands in another state. -/
theorem settle_progress (hsafe : Safe cfg s) (hinsert : ¬s.ctx.hs.insertPending)
    (hw : (settle s.ctx.hs.tag).state.weight < s.ctx.hs.tag.state.weight) :
    Safe cfg (s.setTag (settle s.ctx.hs.tag)) ∧ (s.setTag (settle s.ctx.hs.tag)).todo < s.todo := by
  refine ⟨?_, ?_⟩
  · cases hsafe with
    | room hpos hlt => exact .room hpos hlt
    | insert hpending => exact absurd hpending hinsert
    | noTag _ hearly => exact .noTag (fun hs => absurd hs (settle_state _)) (closesEarly_settle.trans hearly)
  · show s.ctx.hs.left + 2 * s.ctx.hs.parseLeft + (settle s.ctx.hs.tag).state.weight < s.todo
    unfold Sending.todo
    omega

/-- **One round.** `send_data` returns or the loop ends, unless the round has made progress and the next one is safe
    again. -/
theorem round_progress (h : Scanning s.ctx.hs) (hsafe : Safe cfg s) (hpl : s.ctx.hs.parseLeft ≠ 0) :
    (ssiRound cfg env s).2 = true ∨ (ssiRound cfg env s).1.err ≠ .ok ∨
    (ssiRound cfg env s).1.ctx.hs.parseLeft = 0 ∨
    (Safe cfg (ssiRound cfg env s).1 ∧ (ssiRound cfg env s).1.todo < s.todo) := by
  have hcase := ssiRound_cases cfg env s
  generalize ssiRound cfg env s = r at hcase
  cases hcase with
  | read hst hsettle hhit => exact .inr (.inr (.inr (read_progress h hsafe hpl hst hhit)))
  | close hst hsettle hhit => exact .inr (close_progress h hsafe hpl hst hhit rfl)
  | notice hst hend =>
      refine .inr (.inr (.inr (settle_progress hsafe ?_ ?_)))
      · exact fun hpending => absurd (hst.symm.trans hpending.1) (by decide)
      · unfold settle
        rw [hst]
        simp only [hend, if_true, TagCheckState.weight]
        decide
  | before hst hfile =>
      have hend := h.sending hst
      by_cases hok : (s.sendBeforeTag env).err = .ok
      swap
      · exact .inr (.inl hok)
      obtain ⟨hpos, hlt⟩ : 0 < s.len ∧ s.len < 65536 := by
        cases hsafe with
        | room hpos hlt => exact ⟨hpos, hlt⟩
        | insert hpending => exact absurd hfile hpending.2.1
        | noTag hsame _ => have := hsame hst; omega
      exact .inr (.inr (.inr (sendBeforeTag_progress cfg h hst hfile hpos hlt hok)))
  | insert hst hfile hmore =>
      -- the insert is taken, and `send_data` returns, or it is not, and the loop ends
      unfold Sending.sendInsert
      simp only
      rw [if_pos hmore]
      generalize tcpWriteRetry env _ _ _ s.ctx = r
      obtain ⟨err, len, c⟩ := r
      simp only
      split
      · exact .inl rfl
      · next hfail => exact .inr (.inl hfail)
  | sent hst hfile hdone =>
      refine .inr (.inr (.inr (settle_progress hsafe ?_ ?_)))
      · exact fun hpending => hdone hpending.2.2
      · unfold settle
        rw [hst]
        simp only [TagCheckState.weight]
        decide

/-- **The SSI loop ends** from a safe state, after as many rounds as there is something to do. -/
theorem ssiLoop_ends : ∀ (fuel : Nat) (s : Sending), Scanning s.ctx.hs → Safe cfg s → s.todo ≤ fuel →
    (ssiLoop cfg env fuel s).2 ≠ .outOfFuel := by
  intro fuel
  have hdone : LoopEnd.done ≠ .outOfFuel := by decide
  induction fuel with
  | zero =>
      intro s _ _ htodo
      have hpl : s.ctx.hs.parseLeft = 0 := by unfold Sending.todo at htodo; omega
      rw [ssiLoop_stop fun hgo => hgo.1 hpl]
      exact hdone
  | succ fuel ih =>
      intro s h hsafe htodo
      by_cases hgo : s.ctx.hs.parseLeft ≠ 0 ∧ s.err = .ok
      swap
      · rw [ssiLoop_stop hgo]
        exact hdone
      have hround := h.round cfg env hgo.1
      have hprogress := @round_progress cfg env s h hsafe hgo.1
      rw [ssiLoop, if_pos hgo]
      generalize ssiRound cfg env s = r at hround hprogress
      obtain ⟨s', ret⟩ := r
      cases ret with
      | true =>
          simp only [if_true]
          exact fun hc => by cases hc
      | false =>
          simp only [Bool.false_eq_true, if_false]
          -- the loop is left, or there is less to do
          rcases hprogress with hret | herr | hend | ⟨hsafe', hless⟩
          · exact absurd hret (by simp)
          · rw [ssiLoop_stop fun hgo => herr hgo.2]
            exact hdone
          · rw [ssiLoop_stop fun hgo => hgo.1 hend]
            exact hdone
          · have htodo' : s'.todo < s.todo := hless
            exact ih s' hround hsafe' (by omega)

end

end ThirdParty.Httpd
