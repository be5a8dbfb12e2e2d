import ThirdParty.Httpd.Correctness.Termination

/-!
# `Httpd.Correctness.FullBuffer` — `send_data` on a full send buffer

What lwIP answers is known from `tcp_out.c`: a `tcp_write` of no bytes succeeds, one of more bytes than there is room
for fails. So where the SSI loop starts without room, it can neither send nor fail any more (`Doomed`), and it never
ends if a tag is closed before the end of the block. Everywhere else `send_data` returns.
-/

namespace ThirdParty.Httpd

open Lib Lwip

/-! ## The answers of lwIP -/

/-- The number of bytes offered by a `tcp_write`. -/
def offeredLen : Ev → Option Nat
  | .tcpWrite _ data _ => some data.length
  | _ => none

def offered (log : List Ev) : List Nat := log.filterMap offeredLen

@[simp] theorem offered_append (es es' : List Ev) : offered (es ++ es') = offered es ++ offered es' :=
  List.filterMap_append

/-- What `tcp_write` does when it is called for the `k`-th time, with `len` bytes. -/
structure LwipAnswers (env : Env) (k len : Nat) : Prop where
  err    : env.write k = .ok ∨ env.write k = .mem
  zero   : len = 0 → env.write k = .ok
  full   : toU16 (env.sndbuf k) < len → env.write k = .mem
  sndbuf : toU16 (env.sndbuf (k + 1)) = toU16 (env.sndbuf k) - if env.write k = .ok then len else 0

/-- **The answers between `c` and `c'` are those of lwIP.** `tcp_parseopt` never sets `mss` to zero. -/
structure LwipConsistent (env : Env) (c c' : Ctx) : Prop where
  mss     : 0 < toU16 env.mss
  answers : ∀ es, c'.log = c.log ++ es → ∀ k len, (offered es)[k]? = some len → LwipAnswers env (c.writes + k) len

/-- `c'` comes later than `c`, with every call of `tcp_write` counted. -/
def Follows (c c' : Ctx) : Prop := ∃ es, c'.log = c.log ++ es ∧ c'.writes = c.writes + (offered es).length

section
variable {env : Env} {c c₁ c₂ c₃ : Ctx} {e : Ev}

theorem Follows.refl (c : Ctx) : Follows c c := ⟨[], by simp [offered]⟩

theorem Follows.trans (h : Follows c₁ c₂) (h' : Follows c₂ c₃) : Follows c₁ c₃ := by
  obtain ⟨es, hes, hw⟩ := h
  obtain ⟨es', hes', hw'⟩ := h'
  refine ⟨es ++ es', by rw [hes', hes, List.append_assoc], ?_⟩
  rw [hw', hw, offered_append, List.length_append, Nat.add_assoc]

theorem Follows.of_eq (hlog : c₂.log = c₁.log) (hwrites : c₂.writes = c₁.writes) : Follows c₁ c₂ :=
  ⟨[], by simp [offered, hlog, hwrites]⟩

theorem Follows.emit (c : Ctx) (he : offeredLen e = none) : Follows c (c.emit e) :=
  ⟨[e], by simp [offered, he]⟩

theorem Follows.write (c : Ctx) (env : Env) (src : Src) (data : List Byte) : Follows c (c.tcpWrite env src data).2 :=
  ⟨[.tcpWrite src data (env.write c.writes)], rfl, by simp [Ctx.tcpWrite, offered, offeredLen]⟩

/-- The answers up to a point in between … -/
theorem LwipConsistent.upTo (h : LwipConsistent env c c₂) (hlater : ∃ es, c₂.log = c₁.log ++ es) :
    LwipConsistent env c c₁ := by
  obtain ⟨es₂, hes₂⟩ := hlater
  refine ⟨h.mss, fun es hes k len hk => h.answers (es ++ es₂) ?_ k len ?_⟩
  · rw [hes₂, hes, List.append_assoc]
  · have hlt : k < (offered es).length := (List.getElem?_eq_some_iff.mp hk).1
    rw [offered_append]
    exact (List.getElem?_append_left hlt).trans hk

/-- … and those after it. -/
theorem LwipConsistent.after (h : LwipConsistent env c c₂) (hbefore : Follows c c₁) : LwipConsistent env c₁ c₂ := by
  obtain ⟨es₁, hes₁, hw⟩ := hbefore
  refine ⟨h.mss, fun es hes k len hk => ?_⟩
  have hanswer := h.answers (es₁ ++ es) (by rw [hes, hes₁, List.append_assoc]) ((offered es₁).length + k) len ?_
  · rw [hw, Nat.add_assoc]
    exact hanswer
  · rw [offered_append, List.getElem?_append_right (Nat.le_add_right _ _), Nat.add_sub_cancel_left]
    exact hk

/-- The answer to the first `tcp_write`. -/
theorem LwipConsistent.first (h : LwipConsistent env c c₁) {src : Src} {data : List Byte} {err : Err} (es₀ : List Ev)
    (hlog : c₁.log = c.log ++ es₀ ++ [.tcpWrite src data err]) (hnone : offered es₀ = []) :
    LwipAnswers env c.writes data.length := by
  refine h.answers _ (by rw [hlog, List.append_assoc]) 0 _ ?_
  rw [offered_append, hnone]
  rfl

end

/-! ## The header phase counts its calls -/

theorem writeHalving_follows (env : Env) (src : Src) (data : Nat → List Byte) : ∀ (fuel len : Nat) (c : Ctx),
    Follows c (writeHalving env src data fuel len c).2.2 := by
  intro fuel
  induction fuel with
  | zero => intro len c; exact .refl c
  | succ fuel ih =>
      intro len c
      have hwrite := Follows.write c env src (data len)
      unfold writeHalving
      generalize c.tcpWrite env src (data len) = r at hwrite
      obtain ⟨err, c'⟩ := r
      simp only
      generalize (if err = .mem then len / 2 else len) = len'
      split
      · exact hwrite.trans (ih len' c')
      · exact hwrite

theorem headerLoop_follows (env : Env) : ∀ (fuel len sendlen : Nat) (err : Err) (c : Ctx),
    Follows c (headerLoop env fuel len sendlen err c).2 := by
  intro fuel
  induction fuel with
  | zero => intro len sendlen err c; exact .refl c
  | succ fuel ih =>
      intro len sendlen err c
      by_cases hgo : len ≠ 0 ∧ c.hs.hdrIndex < numFileHdrStrings ∧ sendlen ≠ 0
      swap
      · rw [headerLoop_stop hgo]
        exact .refl c
      have hwrite := writeHalving_follows env (.header c.hs.hdrIndex c.hs.hdrPos)
        (fun n => ((c.hs.hdrs c.hs.hdrIndex).drop c.hs.hdrPos).take n) (c.hs.headerOffer len + 1)
          (c.hs.headerOffer len) c
      obtain ⟨err', sent, c', heq⟩ : ∃ err' sent c', tcpWriteRetry env (.header c.hs.hdrIndex c.hs.hdrPos)
          (fun n => ((c.hs.hdrs c.hs.hdrIndex).drop c.hs.hdrPos).take n) (c.hs.headerOffer len) c = (err', sent, c') :=
        ⟨_, _, _, rfl⟩
      rw [headerLoop_round err hgo heq]
      unfold tcpWriteRetry at heq
      rw [heq] at hwrite
      refine Follows.trans ?_ (ih _ _ _ _)
      exact hwrite.trans (.of_eq rfl rfl)

theorem sendHeaders_follows (env : Env) (c : Ctx) : Follows c (sendHeaders env c).1.ctx := by
  have huse : Follows c c.useState := .emit c rfl
  unfold sendHeaders
  simp only
  split
  · have hread : Follows c (c.useState.emit .pcbRead) := huse.trans (.emit _ rfl)
    have hloop := headerLoop_follows env ((c.useState.emit .pcbRead).tcpSndbuf env + 1)
      ((c.useState.emit .pcbRead).tcpSndbuf env) ((c.useState.emit .pcbRead).tcpSndbuf env) .ok
      (c.useState.emit .pcbRead)
    split
    · exact (hread.trans hloop).trans (.emit _ rfl)
    · exact hread.trans hloop
  · exact huse

/-! ## Offering nothing -/

section
variable {cfg : Config} {env : Env} {s : Sending}

/-- One call of `tcp_write` for no bytes. -/
def Ctx.offerNothing (c : Ctx) (env : Env) : Ctx := (c.tcpWrite env (.file c.hs.file) []).2

theorem tcpWriteRetry_zero (env : Env) (src : Src) (data : Nat → List Byte) (c : Ctx) :
    tcpWriteRetry env src data 0 c = (env.write c.writes, 0, (c.tcpWrite env src (data 0)).2) := by
  unfold tcpWriteRetry writeHalving Ctx.tcpWrite
  simp

theorem sendFile_zero (hlen : s.len = 0) (hleft : s.ctx.hs.left < 4294967296) :
    (s.sendFile env).ctx = s.ctx.offerNothing env ∧ (s.sendFile env).len = 0 ∧
      (s.sendFile env).err = env.write s.ctx.writes := by
  have hadvance : s.ctx.hs.advance 0 = s.ctx.hs := HttpState.advance_zero hleft
  unfold Sending.sendFile
  simp only [hlen, tcpWriteRetry_zero, bytesAt_zero]
  split
  · next hok =>
      refine ⟨?_, rfl, rfl⟩
      show ((s.ctx.tcpWrite env (.file s.ctx.hs.file) []).2).setHs (s.ctx.hs.advance 0) = _
      rw [hadvance]
      rfl
  · exact ⟨rfl, rfl, rfl⟩

theorem sendBeforeTag_zero (env : Env) (hlen : s.len = 0) (hleft : s.ctx.hs.left < 4294967296)
    (hfile : s.ctx.hs.file < s.ctx.hs.tagEnd) :
    (s.sendBeforeTag env).ctx = s.ctx.offerNothing env ∧ (s.sendBeforeTag env).len = 0 ∧
      (s.sendBeforeTag env).err = env.write s.ctx.writes := by
  have hshort : ¬((s.len : Int) > (s.ctx.hs.tagEnd : Int) - s.ctx.hs.file) := by omega
  unfold Sending.sendBeforeTag
  simp only
  rw [if_neg hshort]
  exact sendFile_zero hlen hleft

theorem sendParsed_zero (hroom : s.ctx.tcpSndbuf env = 0) (hleft : s.ctx.hs.left < 4294967296)
    (hfile : s.ctx.hs.file < s.ctx.hs.parsed) :
    (s.sendParsed env).ctx = (s.ctx.emit .pcbRead).offerNothing env := by
  have hzero : (s.ctx.emit .pcbRead).tcpSndbuf env = 0 := hroom
  have hfull : ((s.ctx.emit .pcbRead).tcpSndbuf env : Int) <
      ((s.ctx.emit .pcbRead).hs.parsed : Int) - (s.ctx.emit .pcbRead).hs.file := by
    rw [hzero, Ctx.emit_hs]
    omega
  have hclamp : clampMss env 0 = 0 := Nat.le_zero.mp (clampMss_le env 0)
  unfold Sending.sendParsed
  simp only
  rw [if_pos hfull, hzero, hclamp]
  exact (sendFile_zero (s := { s with ctx := s.ctx.emit .pcbRead, len := 0 }) rfl hleft).1

/-! ## The loop that does not end -/

/-- **The loop cannot get out any more**: nothing can be offered, and file data is waiting to be sent before a tag, or
    a tag will be closed before the end of the block. -/
structure Doomed (cfg : Config) (s : Sending) : Prop where
  scanning : Scanning s.ctx.hs
  err      : s.err = .ok
  len      : s.len = 0
  more     : s.ctx.hs.parseLeft ≠ 0
  stuck    : (s.ctx.hs.tag.state = .sending ∧ s.ctx.hs.file < s.ctx.hs.tagEnd) ∨
    ((s.ctx.hs.tag.state = .sending → ¬s.ctx.hs.tagEnd > s.ctx.hs.file ∧ ¬s.ctx.hs.tag.index < s.ctx.hs.tag.insertLen) ∧
      closesEarly cfg s.ctx.hs.tag (s.ctx.hs.unparsed s.ctx.mem) = true)

/-- No `tcp_write`, or one for no bytes. -/
def OffersNothing (env : Env) (c c' : Ctx) : Prop :=
  (c'.log = c.log ∧ c'.writes = c.writes) ∨
    ∃ es src, offered es = [] ∧ c'.log = c.log ++ es ++ [.tcpWrite src [] (env.write c.writes)] ∧
      c'.writes = c.writes + 1

theorem OffersNothing.follows {c c' : Ctx} (h : OffersNothing env c c') : Follows c c' := by
  rcases h with ⟨hlog, hwrites⟩ | ⟨es, src, hnone, hlog, hwrites⟩
  · exact .of_eq hlog hwrites
  · refine ⟨_, hlog.trans (List.append_assoc ..), ?_⟩
    rw [offered_append, hnone]
    exact hwrites

theorem offersNothing_of_eq {c c₁ c' : Ctx} {es : List Ev} (hlog : c₁.log = c.log ++ es) (hnone : offered es = [])
    (hwrites : c₁.writes = c.writes) (h : c' = c₁.offerNothing env) :
    OffersNothing env c c' ∧ c'.writes ≠ c.writes := by
  have hcount : c'.writes = c.writes + 1 := by
    rw [h, ← hwrites]
    rfl
  refine ⟨.inr ⟨es, .file c₁.hs.file, hnone, ?_, hcount⟩, by omega⟩
  rw [h, ← hlog, ← hwrites]
  rfl

/-- The file data before a tag, with nothing to be offered. -/
theorem doomed_beforeTag (cfg : Config) (env : Env) (h : Scanning s.ctx.hs) (hst : s.ctx.hs.tag.state = .sending)
    (hlen : s.len = 0)
    (hmore : s.ctx.hs.parseLeft ≠ 0) (hfile : s.ctx.hs.file < s.ctx.hs.tagEnd) :
    (s.sendBeforeTag env).ctx = s.ctx.offerNothing env ∧
      (env.write s.ctx.writes = .ok → Doomed cfg (s.sendBeforeTag env)) := by
  obtain ⟨hctx, hlen', herr⟩ := sendBeforeTag_zero env hlen h.left_lt hfile
  have hhs : (s.sendBeforeTag env).ctx.hs = s.ctx.hs := by rw [hctx]; rfl
  refine ⟨hctx, fun hok => ?_⟩
  refine ⟨by rw [hhs]; exact h, herr.trans hok, hlen', by rw [hhs]; exact hmore, .inl ?_⟩
  rw [hhs]
  exact ⟨hst, hfile⟩

/-- Away from a tag that is waiting, a tag is still to be closed. -/
theorem Doomed.early (h : Doomed cfg s) (hst : ¬(s.ctx.hs.tag.state = .sending ∧ s.ctx.hs.file < s.ctx.hs.tagEnd)) :
    closesEarly cfg s.ctx.hs.tag (s.ctx.hs.unparsed s.ctx.mem) = true := by
  rcases h.stuck with hs | ⟨-, hearly⟩
  · exact absurd hs hst
  · exact hearly

theorem Doomed.read (h : Doomed cfg s) (hst : s.ctx.hs.tag.state ≠ .sending)
    (hhit : (parseByte cfg s.ctx.hs.tag (s.ctx.mem s.ctx.hs.parsed)).2 = false) :
    Doomed cfg (s.consume (parseByte cfg s.ctx.hs.tag (s.ctx.mem s.ctx.hs.parsed)).1) := by
  have hearly := h.early fun hs => hst hs.1
  have hstate := parseByte_state cfg s.ctx.hs.tag (s.ctx.mem s.ctx.hs.parsed)
  obtain ⟨hscan, hnext⟩ := h.scanning.consume h.more _ hstate
  rw [closesEarly_next h.more, if_neg (by rw [hhit]; simp)] at hearly
  refine ⟨hscan, h.err, h.len, ?_, .inr ⟨fun hs => absurd hs hstate, ?_⟩⟩
  · -- the tag that is still to be closed has bytes left
    intro hnone
    rw [hnext] at hnone
    rw [hnone] at hearly
    exact Bool.noConfusion hearly
  · unfold HttpState.unparsed
    rw [hnext]
    exact hearly

/-- The tag is closed, with file data before it. -/
theorem doomed_close (env : Env) (h : Doomed cfg s) (hst : s.ctx.hs.tag.state = .leadout)
    (hhit : (parseByte cfg s.ctx.hs.tag (s.ctx.mem s.ctx.hs.parsed)).2 = true) {s' : Sending}
    (heq : s' = (s.consume (parseByte cfg s.ctx.hs.tag (s.ctx.mem s.ctx.hs.parsed)).1).foundTag cfg env) :
    (OffersNothing env s.ctx s'.ctx ∧ s'.ctx.writes ≠ s.ctx.writes) ∧
      (env.write s.ctx.writes = .ok → Doomed cfg s') := by
  have hle := h.scanning.file_le
  have hearly := h.early fun hs => absurd (hst.symm.trans hs.1) (by decide)
  obtain ⟨hread, hnext⟩ := h.scanning.consume h.more _ (parseByte_state cfg s.ctx.hs.tag (s.ctx.mem s.ctx.hs.parsed))
  rw [closesEarly_next h.more, if_pos hhit, decide_eq_true_eq, ← hnext] at hearly
  obtain ⟨s₁, hs₁⟩ : ∃ s₁, s₁ = s.consume (parseByte cfg s.ctx.hs.tag (s.ctx.mem s.ctx.hs.parsed)).1 := ⟨_, rfl⟩
  obtain ⟨hbehind, hlog, hwrites, hlen⟩ : s₁.ctx.hs.file < s₁.ctx.hs.parsed ∧ s₁.ctx.log = s.ctx.log ∧
      s₁.ctx.writes = s.ctx.writes ∧ s₁.len = s.len := by
    rw [hs₁]
    exact ⟨Nat.lt_succ_of_le hle, rfl, rfl, rfl⟩
  rw [← hs₁] at hread hearly heq
  have hclosed : Scanning (s₁.closed cfg env).ctx.hs := ⟨hread.file_le, hread.left, hread.left_lt, fun _ => rfl⟩
  -- the tag ends where the parser stands, so the file cursor is behind it
  obtain ⟨hctx, hdoomed⟩ := doomed_beforeTag cfg env hclosed rfl (hlen.trans h.len) hearly hbehind
  have hlog' : (s₁.closed cfg env).ctx.log = s.ctx.log ++ [.getTagInsert (cstr s₁.ctx.hs.tag.name)] :=
    hlog ▸ closed_log s₁
  have hwrites' : (s₁.closed cfg env).ctx.writes = s.ctx.writes := hwrites
  rw [heq, foundTag_eq, if_pos hbehind]
  refine ⟨offersNothing_of_eq hlog' rfl hwrites' hctx, fun hok => hdoomed ?_⟩
  rw [hwrites']
  exact hok

/-- The parser only stands in another state. -/
theorem Doomed.settle (h : Doomed cfg s) (hst : ¬(s.ctx.hs.tag.state = .sending ∧ s.ctx.hs.file < s.ctx.hs.tagEnd)) :
    Doomed cfg (s.setTag (settle s.ctx.hs.tag)) := by
  have hscan := h.scanning
  have hearly := h.early hst
  refine ⟨⟨hscan.file_le, hscan.left, hscan.left_lt, fun hs => absurd hs (settle_state _)⟩, h.err, h.len, h.more,
    .inr ⟨fun hs => absurd hs (settle_state _), ?_⟩⟩
  exact closesEarly_settle.trans hearly

/-- **One round**: nothing is offered, and if that is not refused it goes on like this. -/
theorem doomed_round (env : Env) (h : Doomed cfg s) :
    OffersNothing env s.ctx (ssiRound cfg env s).1.ctx ∧
      (((ssiRound cfg env s).1.ctx.writes ≠ s.ctx.writes → env.write s.ctx.writes = .ok) →
        (ssiRound cfg env s).2 = false ∧ Doomed cfg (ssiRound cfg env s).1) := by
  have hcase := ssiRound_cases cfg env s
  generalize ssiRound cfg env s = r at hcase
  cases hcase with
  | read hst hsettle hhit => exact ⟨.inl ⟨rfl, rfl⟩, fun _ => ⟨rfl, h.read hst hhit⟩⟩
  | close hst hsettle hhit =>
      obtain ⟨⟨hoffer, hwrote⟩, hnext⟩ := doomed_close env h hst hhit rfl
      exact ⟨hoffer, fun hok => ⟨rfl, hnext (hok hwrote)⟩⟩
  | notice hst hend =>
      have hnot : s.ctx.hs.tag.state ≠ .sending := by
        rw [hst]
        decide
      exact ⟨.inl ⟨rfl, rfl⟩, fun _ => ⟨rfl, h.settle fun hs => hnot hs.1⟩⟩
  | before hst hfile =>
      obtain ⟨hctx, hnext⟩ := doomed_beforeTag cfg env h.scanning hst h.len h.more hfile
      obtain ⟨hoffer, hwrote⟩ := offersNothing_of_eq (List.append_nil _).symm rfl rfl hctx
      exact ⟨hoffer, fun hok => ⟨rfl, hnext (hok hwrote)⟩⟩
  | insert hst hfile hmore =>
      rcases h.stuck with ⟨-, hbehind⟩ | ⟨hnone, -⟩
      · exact absurd hbehind hfile
      · exact absurd hmore (hnone hst).2
  | sent hst hfile hdone => exact ⟨.inl ⟨rfl, rfl⟩, fun _ => ⟨rfl, h.settle fun hs => hfile hs.2⟩⟩

/-- **The loop never ends** where lwIP answers as it does. -/
theorem doomed_loop : ∀ (fuel : Nat) (s : Sending), Doomed cfg s →
    LwipConsistent env s.ctx (ssiLoop cfg env fuel s).1.ctx → (ssiLoop cfg env fuel s).2 = .outOfFuel := by
  intro fuel
  induction fuel with
  | zero =>
      intro s h _
      rw [ssiLoop, if_pos ⟨h.more, h.err⟩]
  | succ fuel ih =>
      intro s h hlwip
      have hrest := ssiLoop_sends cfg env fuel (ssiRound cfg env s).1
      obtain ⟨hoffer, hnext⟩ := doomed_round env h
      rw [ssiLoop, if_pos ⟨h.more, h.err⟩] at hlwip ⊢
      generalize ssiRound cfg env s = r at hrest hoffer hnext hlwip
      obtain ⟨s', ret⟩ := r
      simp only at hrest hoffer hnext hlwip ⊢
      have hround : LwipConsistent env s.ctx s'.ctx := by
        refine hlwip.upTo ?_
        split
        · exact ⟨[], by simp⟩
        · obtain ⟨es, hes, -⟩ := hrest.log
          exact ⟨es, hes⟩
      obtain ⟨rfl, hdoomed⟩ := hnext fun hwrote => by
        -- the write was for no bytes, so it was not refused
        rcases hoffer with ⟨-, hsame⟩ | ⟨es, src, hnone, hlog, -⟩
        · exact absurd hsame hwrote
        · exact (hround.first es hlog hnone).zero rfl
      simp only [Bool.false_eq_true, if_false] at hlwip ⊢
      exact ih s' hdoomed (hlwip.after hoffer.follows)

/-- What it offers meanwhile. -/
theorem doomed_offers (hok : ∀ k, env.write k = .ok) : ∀ (fuel : Nat) (s : Sending), Doomed cfg s →
    ∃ es, (ssiLoop cfg env fuel s).1.ctx.log = s.ctx.log ++ es ∧ ∀ len ∈ offered es, len = 0 := by
  intro fuel
  induction fuel with
  | zero =>
      intro s h
      rw [ssiLoop, if_pos ⟨h.more, h.err⟩]
      exact ⟨[], by simp, by simp [offered]⟩
  | succ fuel ih =>
      intro s h
      obtain ⟨hoffer, hnext⟩ := doomed_round env h
      obtain ⟨hret, hdoomed⟩ := hnext fun _ => hok _
      obtain ⟨es, hes, hzero⟩ := ih _ hdoomed
      rw [ssiLoop, if_pos ⟨h.more, h.err⟩]
      simp only [hret, Bool.false_eq_true, if_false]
      rcases hoffer with ⟨hlog, -⟩ | ⟨es₀, src, hnone, hlog, -⟩
      · exact ⟨es, by rw [hes, hlog], hzero⟩
      · refine ⟨es₀ ++ .tcpWrite src [] (env.write s.ctx.writes) :: es, by rw [hes, hlog]; simp, ?_⟩
        intro len hlen
        rw [offered_append, hnone] at hlen
        rcases List.mem_cons.mp hlen with rfl | hlen
        · rfl
        · exact hzero len hlen

end

end ThirdParty.Httpd
