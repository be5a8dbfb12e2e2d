import ThirdParty.Httpd.TagParser
import ThirdParty.Httpd.Correctness.Plain

/-!
# `Httpd.Correctness.Ssi` — a file with tags and the send schedule

`SsiSent` ties the state of a response to the reference pass over the part of the file that is parsed so far:
what the pass has emitted is what TCP has accepted, then the bytes that are parsed but not sent, then what is
pending of the current insert. Every piece of the SSI branch keeps it, so what is accepted is a prefix of the
reference output at any time. At the end of the file nothing but the insert of a tag that ends the file can be
pending, and that insert is the one that gets lost.
-/

namespace ThirdParty.Httpd

open Lib Lwip

/-- What is still to be sent of the current insert. -/
def pending (t : TagScan) : List Byte :=
  if t.state = .sending then bytesAt t.insert t.index (t.insertLen - t.index) else []

theorem pending_of_ne {t : TagScan} (h : t.state ≠ .sending) : pending t = [] := if_neg h

/-- The pass over the parsed part of the file. -/
def scanned (cfg : Config) (insert : Nat → Nat → InsertReply) (m : Mem) (f : FsDataFile) (q : TagScan × Nat)
    (c : Ctx) : (TagScan × Nat) × List Byte :=
  transduce (scanByte cfg insert toU8) q (bytesAt m f.data (c.hs.parsed - f.data))

/-- **The transfer invariant.** -/
structure SsiSent (cfg : Config) (insert : Nat → Nat → InsertReply) (m : Mem) (f : FsDataFile) (q : TagScan × Nat)
    (c : Ctx) : Prop where
  mem       : c.mem = m
  file_ge   : f.data ≤ c.hs.file
  file_le   : c.hs.file ≤ c.hs.parsed
  parsed_le : c.hs.parsed ≤ f.data + f.len
  left      : c.hs.left = f.data + f.len - c.hs.file
  parseLeft : c.hs.parseLeft = f.data + f.len - c.hs.parsed
  state     : settle c.hs.tag = settle (scanned cfg insert m f q c).1.1
  inserts   : c.inserts = (scanned cfg insert m f q c).1.2
  output    : (scanned cfg insert m f q c).2 = accepted Src.isBody c.log ++
    bytesAt m c.hs.file (c.hs.parsed - c.hs.file) ++ pending c.hs.tag
  sending   : c.hs.tag.state = .sending → c.hs.tagEnd = c.hs.parsed ∧ c.hs.tag.index ≤ c.hs.tag.insertLen ∧
    c.hs.tag.insertLen < 256 ∧ (c.hs.file < c.hs.parsed ∨ c.hs.parseLeft = 0 → c.hs.tag.index = 0)
  last      : c.hs.parseLeft = 0 → c.hs.tag = (scanned cfg insert m f q c).1.1

section
variable {cfg : Config} {insert : Nat → Nat → InsertReply} {m : Mem} {f : FsDataFile} {q : TagScan × Nat}
  {c c' : Ctx} {env : Env}

theorem SsiSent.left_lt (h : SsiSent cfg insert m f q c) : c.hs.left < 4294967296 := by
  have hlt := f.len_lt
  have hleft := h.left
  have hge := h.file_ge
  omega

/-- The invariant looks at nothing but these. -/
theorem SsiSent.congr (h : SsiSent cfg insert m f q c) (hmem : c'.mem = c.mem) (hins : c'.inserts = c.inserts)
    (hbody : accepted Src.isBody c'.log = accepted Src.isBody c.log)
    (hhs : c'.hs.file = c.hs.file ∧ c'.hs.parsed = c.hs.parsed ∧ c'.hs.left = c.hs.left ∧
      c'.hs.parseLeft = c.hs.parseLeft ∧ c'.hs.tagEnd = c.hs.tagEnd ∧ c'.hs.tag = c.hs.tag) :
    SsiSent cfg insert m f q c' := by
  obtain ⟨hfile, hparsed, hleft, hpl, hend, htag⟩ := hhs
  have hscan : scanned cfg insert m f q c' = scanned cfg insert m f q c := by unfold scanned; rw [hparsed]
  constructor
  · exact hmem.trans h.mem
  · rw [hfile]; exact h.file_ge
  · rw [hfile, hparsed]; exact h.file_le
  · rw [hparsed]; exact h.parsed_le
  · rw [hleft, hfile]; exact h.left
  · rw [hpl, hparsed]; exact h.parseLeft
  · rw [htag, hscan]; exact h.state
  · rw [hins, hscan]; exact h.inserts
  · rw [hscan, hbody, hfile, hparsed, htag]; exact h.output
  · rw [htag, hend, hparsed, hfile, hpl]; exact h.sending
  · rw [hpl, htag, hscan]; exact h.last

theorem SsiSent.of_idles (h : SsiSent cfg insert m f q c) (hidle : Idles c c') : SsiSent cfg insert m f q c' := by
  obtain ⟨b, n, pos, idx, hhs⟩ := hidle.hs
  refine h.congr hidle.mem hidle.inserts hidle.body ?_
  rw [hhs]
  exact ⟨rfl, rfl, rfl, rfl, rfl, rfl⟩

/-- Sending parsed bytes. -/
theorem SsiSent.advance {n : Nat} (h : SsiSent cfg insert m f q c) (hn : n ≤ c.hs.parsed - c.hs.file)
    (hsent : SentFile c c' n) : SsiSent cfg insert m f q c' := by
  have hle := h.file_le
  have hpar := h.parsed_le
  have hge := h.file_ge
  have hleft := h.left
  have hscan : scanned cfg insert m f q c' = scanned cfg insert m f q c := by
    unfold scanned; rw [hsent.hs]; rfl
  have hfile : c'.hs.file = c.hs.file + n := by rw [hsent.hs]; rfl
  have hparsed : c'.hs.parsed = c.hs.parsed := by rw [hsent.hs]; rfl
  have htag : c'.hs.tag = c.hs.tag := by rw [hsent.hs]; rfl
  have hpl : c'.hs.parseLeft = c.hs.parseLeft := by rw [hsent.hs]; rfl
  constructor
  · exact hsent.sends.mem.trans h.mem
  · omega
  · omega
  · omega
  · have hsub : c'.hs.left = c.hs.left - n := by
      rw [hsent.hs]
      exact toU32_sub (by omega) h.left_lt
    omega
  · rw [hpl, hparsed]; exact h.parseLeft
  · rw [htag, hscan]; exact h.state
  · rw [hsent.inserts, hscan]; exact h.inserts
  · -- what is sent now was part of what is parsed and not sent
    rw [hscan, h.output, hsent.body, h.mem, hfile, hparsed, htag, bytesAt_split hn]
    simp [Nat.sub_add_eq]
  · intro hst
    rw [htag] at hst ⊢
    obtain ⟨hend, hidx, hlen, hfresh⟩ := h.sending hst
    refine ⟨?_, hidx, hlen, fun hor => hfresh (by omega)⟩
    rw [hsent.hs]; exact hend
  · rw [hpl, htag, hscan]; exact h.last

/-- The pass over one byte more. -/
theorem SsiSent.scan_next (h : SsiSent cfg insert m f q c) (hparsed : c'.hs.parsed = c.hs.parsed + 1) :
    scanned cfg insert m f q c' =
      ((scanByte cfg insert toU8 (c.hs.tag, c.inserts) (m c.hs.parsed)).1,
        (scanned cfg insert m f q c).2 ++
          (scanByte cfg insert toU8 (c.hs.tag, c.inserts) (m c.hs.parsed)).2) := by
  have hge := h.file_ge
  have hle := h.file_le
  have hlen : c.hs.parsed + 1 - f.data = (c.hs.parsed - f.data) + 1 := by omega
  have hat : f.data + (c.hs.parsed - f.data) = c.hs.parsed := by omega
  -- the parser state of the code and that of the pass agree once both are settled
  have hscan : scanByte cfg insert toU8 (scanned cfg insert m f q c).1 (m c.hs.parsed) =
      scanByte cfg insert toU8 (c.hs.tag, c.inserts) (m c.hs.parsed) := by
    unfold scanByte
    simp only [h.state, h.inserts]
  unfold scanned at hscan ⊢
  rw [hparsed, hlen, bytesAt_succ, hat, transduce_snoc, hscan]

/-- **Reading one byte.** The new parser state is that of the pass, and no insert was pending before. -/
theorem SsiSent.consume (h : SsiSent cfg insert m f q c) (hpl : c.hs.parseLeft ≠ 0) (hst : c.hs.tag.state ≠ .sending)
    (hmem : c'.mem = c.mem) (hbody : accepted Src.isBody c'.log = accepted Src.isBody c.log)
    (hcur : c'.hs.file = c.hs.file ∧ c'.hs.left = c.hs.left ∧ c'.hs.parsed = c.hs.parsed + 1 ∧
      c'.hs.parseLeft = c.hs.parseLeft - 1)
    (hscan : scanByte cfg insert toU8 (c.hs.tag, c.inserts) (m c.hs.parsed) =
      ((c'.hs.tag, c'.inserts), m c.hs.parsed :: pending c'.hs.tag))
    (hsend : c'.hs.tag.state = .sending → c'.hs.tagEnd = c.hs.parsed + 1 ∧ c'.hs.tag.index = 0 ∧
      c'.hs.tag.insertLen < 256) :
    SsiSent cfg insert m f q c' := by
  obtain ⟨hfile, hleft, hparsed, hpl'⟩ := hcur
  have hnext := h.scan_next hparsed
  rw [hscan] at hnext
  have hle := h.file_le
  have hpar := h.parsed_le
  have hge := h.file_ge
  have hp := h.parseLeft
  constructor
  · exact hmem.trans h.mem
  · omega
  · omega
  · omega
  · rw [hleft, hfile]; exact h.left
  · omega
  · rw [hnext]
  · rw [hnext]
  · have hcount : c.hs.parsed + 1 - c.hs.file = (c.hs.parsed - c.hs.file) + 1 := by omega
    have hat : c.hs.file + (c.hs.parsed - c.hs.file) = c.hs.parsed := by omega
    -- the output grows by the byte and by the insert it completes, if any
    rw [hnext, hbody, hfile, hparsed, hcount, bytesAt_succ, hat, h.output, pending_of_ne hst]
    simp
  · intro hs
    obtain ⟨hend, hidx, hlen⟩ := hsend hs
    exact ⟨hend.trans hparsed.symm, by omega, hlen, fun _ => hidx⟩
  · intro _
    rw [hnext]

/-- Noticing what the parser already knows. -/
theorem SsiSent.resettle (h : SsiSent cfg insert m f q c) (hpl : c.hs.parseLeft ≠ 0) {t : TagScan}
    (hsettle : settle t = settle c.hs.tag) (hpend : pending c.hs.tag = []) (hst : t.state ≠ .sending) :
    SsiSent cfg insert m f q (c.setHs { c.hs with tag := t }) := by
  constructor
  · exact h.mem
  · exact h.file_ge
  · exact h.file_le
  · exact h.parsed_le
  · exact h.left
  · exact h.parseLeft
  · exact hsettle.trans h.state
  · exact h.inserts
  · show (scanned cfg insert m f q c).2 = _
    rw [h.output, hpend]
    show _ = _ ++ pending t
    rw [pending_of_ne hst]
    rfl
  · intro hs
    exact absurd hs hst
  · intro hz
    exact absurd hz hpl

/-- Sending part of the insert. -/
theorem SsiSent.sendInsert {n : Nat} (h : SsiSent cfg insert m f q c) (hpl : c.hs.parseLeft ≠ 0)
    (hst : c.hs.tag.state = .sending) (hfile : ¬c.hs.tagEnd > c.hs.file)
    (hn : n ≤ c.hs.tag.insertLen - c.hs.tag.index) (hmem : c'.mem = c.mem) (hins : c'.inserts = c.inserts)
    (hhs : c'.hs = { c.hs with tag := { c.hs.tag with index := c.hs.tag.index + n } })
    (hbody : accepted Src.isBody c'.log =
      accepted Src.isBody c.log ++ bytesAt c.hs.tag.insert c.hs.tag.index n) :
    SsiSent cfg insert m f q c' := by
  obtain ⟨hend, hidx, hlen, -⟩ := h.sending hst
  have hle := h.file_le
  have hfp : c.hs.parsed - c.hs.file = 0 := by omega
  have hscan : scanned cfg insert m f q c' = scanned cfg insert m f q c := by unfold scanned; rw [hhs]
  constructor
  · exact hmem.trans h.mem
  · rw [hhs]; exact h.file_ge
  · rw [hhs]; exact h.file_le
  · rw [hhs]; exact h.parsed_le
  · rw [hhs]; exact h.left
  · rw [hhs]; exact h.parseLeft
  · rw [hscan, ← h.state, hhs]
    simp [settle, hst]
  · rw [hins, hscan]; exact h.inserts
  · -- the part of the insert that is sent is not pending any more
    rw [hscan, h.output, hbody, hhs]
    simp only [hfp, bytesAt_zero, List.append_nil, pending, hst, if_true]
    rw [bytesAt_split hn, Nat.sub_add_eq, List.append_assoc]
  · intro _
    rw [hhs]
    exact ⟨hend, by simp only; omega, hlen, fun hor => by simp only at hor; omega⟩
  · intro hz
    rw [hhs] at hz
    exact absurd hz hpl

/-! ## One round of the SSI loop -/

theorem SsiSent.parseLeft_lt (h : SsiSent cfg insert m f q c) : c.hs.parseLeft < 4294967296 := by
  have hlt := f.len_lt
  have hpl := h.parseLeft
  have hge := h.file_ge
  have hle := h.file_le
  omega

/-- An arm that moves on by one byte without closing a tag. -/
theorem SsiSent.step {s : Sending} (h : SsiSent cfg insert m f q s.ctx) (hpl : s.ctx.hs.parseLeft ≠ 0)
    (hst : s.ctx.hs.tag.state ≠ .sending) {t : TagScan} (ht : t.state ≠ .sending)
    (hscan : scanByte cfg insert toU8 (s.ctx.hs.tag, s.ctx.inserts) (m s.ctx.hs.parsed) =
      ((t, s.ctx.inserts), [m s.ctx.hs.parsed])) :
    SsiSent cfg insert m f q (s.consume t).ctx := by
  refine h.consume hpl hst rfl rfl ⟨rfl, rfl, rfl, ?_⟩ ?_ (fun hc => absurd hc ht)
  · exact toU32_sub (Nat.one_le_iff_ne_zero.mpr hpl) h.parseLeft_lt
  · rw [hscan]
    show _ = ((t, s.ctx.inserts), _ :: pending t)
    rw [pending_of_ne ht]

/-- The byte that closes a tag. -/
theorem SsiSent.foundTag {s : Sending} (h : SsiSent cfg insert m f q s.ctx) (hpl : s.ctx.hs.parseLeft ≠ 0)
    (hne : s.ctx.hs.tag.state ≠ .sending) (hhit : (parseByte cfg s.ctx.hs.tag (m s.ctx.hs.parsed)).2 = true)
    (henv : env.insert = insert) :
    SsiSent cfg insert m f q
      ((s.consume (parseByte cfg s.ctx.hs.tag (m s.ctx.hs.parsed)).1).foundTag cfg env).ctx := by
  have hscan := @scanByte_of_hit cfg _ _ insert toU8 s.ctx.inserts hhit
  -- the state before the file data in front of the tag is offered
  unfold Sending.foundTag
  rw [henv]
  generalize (parseByte cfg s.ctx.hs.tag (m s.ctx.hs.parsed)).1 = t at hscan
  simp only
  generalize hfetch : getTagInsert cfg insert (s.consume t).ctx.hs.tag (s.consume t).ctx.inserts = r
  obtain ⟨t', k⟩ := r
  have hget : getTagInsert cfg insert t s.ctx.inserts = (t', k) := hfetch
  have hins : t'.insert = (tagInsertText cfg insert t s.ctx.inserts).1 ∧
      t'.insertLen = toU8 (tagInsertText cfg insert t s.ctx.inserts).2.1 := by
    have h1 := congrArg Prod.fst hget
    simp only [getTagInsert] at h1
    rw [← h1]
    exact ⟨rfl, rfl⟩
  have hstart : SsiSent cfg insert m f q
      { ((s.consume t).ctx.emit (.getTagInsert (cstr (s.consume t).ctx.hs.tag.name))).setHs
          { (s.consume t).ctx.hs with
            tag := { t' with index := 0, state := .sending }, tagEnd := (s.consume t).ctx.hs.parsed } with
        inserts := k } := by
    refine h.consume hpl hne rfl ?_ ⟨rfl, rfl, rfl, ?_⟩ ?_ (fun _ => ⟨rfl, rfl, ?_⟩)
    · show accepted _ (s.ctx.log ++ [_]) = _
      simp [Ev.accepted]
    · exact toU32_sub (Nat.one_le_iff_ne_zero.mpr hpl) h.parseLeft_lt
    · rw [hscan, hget]
      show _ = (_, _ :: pending { t' with index := 0, state := .sending })
      simp only [pending, if_true, insertBytes, Nat.sub_zero, hins.1, hins.2]
      rfl
    · show t'.insertLen < 256
      rw [hins.2]
      exact toU8_lt _
  split
  · obtain ⟨n, hn, -, hsent, -⟩ := sendBeforeTag_spec env { s.consume t with ctx := _ } hstart.left_lt (by
      have hle := hstart.file_le
      exact hle)
    exact hstart.advance hn hsent
  · exact hstart

/-- Sending part of the insert. -/
theorem SsiSent.insertArm {s : Sending} (h : SsiSent cfg insert m f q s.ctx) (hpl : s.ctx.hs.parseLeft ≠ 0)
    (hst : s.ctx.hs.tag.state = .sending) (hfile : ¬s.ctx.hs.tagEnd > s.ctx.hs.file)
    (hmore : s.ctx.hs.tag.index < s.ctx.hs.tag.insertLen) : SsiSent cfg insert m f q (s.sendInsert env).1.ctx := by
  obtain ⟨-, hidx, hlen, -⟩ := h.sending hst
  unfold Sending.sendInsert
  simp only
  rw [if_pos hmore]
  generalize hoff : (if s.len > s.ctx.hs.tag.insertLen - s.ctx.hs.tag.index
    then s.ctx.hs.tag.insertLen - s.ctx.hs.tag.index else s.len) = offered
  have hle : offered ≤ s.ctx.hs.tag.insertLen - s.ctx.hs.tag.index := by rw [← hoff]; split <;> omega
  obtain ⟨err, n, c, failed, last, w, heq, hr⟩ := tcpWriteRetry_spec env (.insert s.ctx.hs.tag.index)
    (bytesAt s.ctx.hs.tag.insert s.ctx.hs.tag.index) offered s.ctx
  have hn := Nat.le_trans hr.le hle
  have hlog := hr.accepted_log Src.isBody
  have hmem : c.mem = s.ctx.mem := by rw [hr.ctx]
  simp only [heq]
  split
  · next hok =>
      -- the insert is short enough for `tag_index`
      have hidx' : toU8 ((s.ctx.hs.tag.index : Int) + n) = s.ctx.hs.tag.index + n := by
        unfold toU8; omega
      refine h.sendInsert hpl hst hfile hn hmem hr.inserts ?_ ?_
      · rw [hidx', Ctx.setHs_hs, hr.hs]
      · simpa [hok, Src.isBody, Src.isHeader] using hlog
  · next hok =>
      refine h.congr hmem hr.inserts (by simpa [hok] using hlog) ?_
      rw [hr.hs]
      exact ⟨rfl, rfl, rfl, rfl, rfl, rfl⟩

/-- **One round of the loop keeps the invariant.** -/
theorem SsiSent.round {s : Sending} (h : SsiSent cfg insert m f q s.ctx) (hpl : s.ctx.hs.parseLeft ≠ 0)
    (henv : env.insert = insert) : SsiSent cfg insert m f q (ssiRound cfg env s).1.ctx := by
  have hcase := ssiRound_cases cfg env s
  generalize ssiRound cfg env s = r at hcase
  cases hcase with
  | read hst hsettle hhit =>
      rw [h.mem] at hhit ⊢
      exact h.step hpl hst (parseByte_state cfg _ _) (scanByte_of_miss toU8 s.ctx.inserts hhit)
  | close hst hsettle hhit =>
      have hne : s.ctx.hs.tag.state ≠ .sending := by rw [hst]; exact fun hc => by cases hc
      rw [h.mem] at hhit ⊢
      exact h.foundTag hpl hne hhit henv
  | notice hst hend =>
      -- the lead-in was complete before this byte, which is looked at again in the next round
      have hne : s.ctx.hs.tag.state ≠ .sending := by rw [hst]; exact fun hc => by cases hc
      exact h.resettle hpl (settle_settle _) (pending_of_ne hne) (settle_state _)
  | before hst hfile =>
      obtain ⟨hend, -⟩ := h.sending hst
      have hle := h.file_le
      obtain ⟨n, hn, -, hsent, -⟩ := sendBeforeTag_spec env s h.left_lt (by omega)
      exact h.advance (by omega) hsent
  | insert hst hfile hmore => exact h.insertArm hpl hst hfile hmore
  | sent hst hfile hdone =>
      refine h.resettle hpl (settle_settle _) ?_ (settle_state _)
      rw [pending, if_pos hst, Nat.sub_eq_zero_of_le (Nat.le_of_not_lt hdone), bytesAt_zero]

theorem SsiSent.loop (henv : env.insert = insert) (fuel : Nat) (s : Sending) (h : SsiSent cfg insert m f q s.ctx) :
    SsiSent cfg insert m f q (ssiLoop cfg env fuel s).1.ctx :=
  ssiLoop_keeps (I := fun s => SsiSent cfg insert m f q s.ctx) (fun _ h hmore => h.round hmore henv) fuel s h

theorem SsiSent.sendParsed {s : Sending} (h : SsiSent cfg insert m f q s.ctx) :
    SsiSent cfg insert m f q (s.sendParsed env).ctx := by
  obtain ⟨n, hn, hsent, -⟩ := sendParsed_spec env s h.left_lt h.file_le
  exact h.advance hn hsent

theorem SsiSent.flush {s : Sending} (h : SsiSent cfg insert m f q s.ctx) : SsiSent cfg insert m f q s.flush := by
  unfold Sending.flush
  split
  · exact h.congr rfl rfl (by simp [Ev.accepted]) ⟨rfl, rfl, rfl, rfl, rfl, rfl⟩
  · exact h

/-- What is already parsed is sent first. -/
theorem SsiSent.ssiStart {s : Sending} (h : SsiSent cfg insert m f q s.ctx) (env : Env) :
    SsiSent cfg insert m f q (ssiStart env s).ctx := by
  have hread : SsiSent cfg insert m f q (s.ctx.emit .pcbRead) :=
    h.congr rfl rfl (by simp [Ev.accepted]) ⟨rfl, rfl, rfl, rfl, rfl, rfl⟩
  unfold Httpd.ssiStart
  simp only
  split
  · exact SsiSent.sendParsed (s := { s with ctx := s.ctx.emit .pcbRead, len := s.ctx.tcpSndbuf env }) hread
  · exact hread

/-- What is parsed is sent last. -/
theorem SsiSent.ssiFinish {s : Sending} (h : SsiSent cfg insert m f q s.ctx) (env : Env) :
    SsiSent cfg insert m f q (ssiFinish env s) := by
  unfold Httpd.ssiFinish
  refine SsiSent.flush ?_
  split
  · exact h.sendParsed
  · exact h

/-- **The SSI branch of `send_data` keeps the invariant.** -/
theorem SsiSent.sendSsi {s : Sending} (h : SsiSent cfg insert m f q s.ctx) (henv : env.insert = insert)
    (fuel : Nat) : SsiSent cfg insert m f q (sendSsi cfg env fuel s).ctx := by
  have hstart := h.ssiStart env
  unfold Httpd.sendSsi
  simp only
  split
  · exact hstart.flush
  · have hloop := SsiSent.loop henv fuel _ hstart
    rcases ssiScan_ctx cfg env fuel (Httpd.ssiStart env s) with hscan | hscan
    · rw [hscan]
      exact hloop.ssiFinish env
    · rw [hscan]
      exact hloop

end

/-! ## Runs -/

/-- The invariant of a run. -/
def SsiInv (cfg : Config) (insert : Nat → Nat → InsertReply) (m : Mem) (f : FsDataFile) (i : Nat)
    (q : TagScan × Nat) (o : Outcome) : Prop :=
  SsiSent cfg insert m f q o.ctx ∧ (o.ctx.closed = false → o.ctx.hs.tagCheck = true ∧ HoldsFile i o.ctx) ∧
  (o.ctx.closed = true → o.ctx.hs.left = 0)

section
variable {cfg : Config} {insert : Nat → Nat → InsertReply} {f : FsDataFile} {i : Nat} {c : Ctx}

theorem ssiInv_start (cfg : Config) (insert : Nat → Nat → InsertReply) (h : Serving f i true c) :
    SsiInv cfg insert c.mem f i (c.hs.tag, c.inserts) ⟨c, true⟩ := by
  obtain ⟨root, m, hfind, hopen⟩ := h.opened
  obtain ⟨hs, hdrs, pos, idx, hhs⟩ := h.setUp
  have hfile := fsFile_fsOpen hopen hfind
  have hlen : toU32 f.len = f.len := toU32_of_lt (Nat.lt_trans f.len_lt (by decide))
  have hst : c.hs.tag.state = .none := by rw [hhs]; rfl
  have hscan : scanned cfg insert c.mem f (c.hs.tag, c.inserts) c = ((c.hs.tag, c.inserts), []) := by
    unfold scanned
    rw [hhs, hfile]
    simp [HttpState.serve]
  refine ⟨?_, fun _ => ⟨by rw [hhs], h.holdsFile⟩, fun hc => by simp [Ctx.closed, h.log] at hc⟩
  constructor
  · rfl
  · rw [hhs, hfile]; exact Nat.le_refl _
  · rw [hhs, hfile]; exact Nat.le_refl _
  · rw [hhs, hfile]; exact Nat.le_add_right _ _
  · rw [hhs, hfile]; simp [HttpState.serve, hlen]
  · rw [hhs, hfile]; simp [HttpState.serve, hlen]
  · rw [hscan]
  · rw [hscan]
  · -- nothing is parsed and nothing is sent
    rw [hscan, pending_of_ne (by rw [hst]; exact fun hc => by cases hc), h.log, hhs]
    simp [HttpState.serve]
  · intro hs'
    rw [hst] at hs'
    cases hs'
  · intro _
    rw [hscan]

theorem ssiInv_step (hssi : cfg.includeHttpdSsi = true) {m : Mem} {q : TagScan × Nat} {o o' : Outcome}
    {call : SendCall} (h : SsiInv cfg insert m f i q o) (hstep : sendStep cfg insert o call = some o') :
    SsiInv cfg insert m f i q o' := by
  obtain ⟨hopen, rfl⟩ := sendStep_spec hstep
  obtain ⟨hsent, hheld, -⟩ := h
  obtain ⟨htag, hholds⟩ := hheld hopen
  obtain ⟨c₁, hidle, hcases⟩ := sendData_cases cfg { call.env with insert := insert } call.fuel hholds
  have hsent₁ := hsent.of_idles hidle
  have hholds₁ := hholds.of_idles hidle
  obtain ⟨b, n, pos, idx, hhs⟩ := hidle.hs
  have htag₁ : c₁.hs.tagCheck = true := by rw [hhs]; exact htag
  have hopen₁ : c₁.closed = false := hidle.closed.trans hopen
  rcases hcases with heq | ⟨hleft, heq⟩ | ⟨hleft, s, rfl, heq⟩
  · rw [heq]
    exact ⟨hsent₁, fun _ => ⟨htag₁, hholds₁⟩, fun hc => absurd hc (by simp [hopen₁])⟩
  · rw [heq]
    -- nothing was left, and the connection is closed
    obtain ⟨hclosed, hbody, hmem, hins, hhs'⟩ := closeConn_idle { call.env with insert := insert } c₁
    refine ⟨hsent₁.congr hmem hins hbody ?_, fun hc => absurd hc (by simp [hclosed]), fun _ => ?_⟩
    · rw [hhs']
      exact ⟨rfl, rfl, rfl, rfl, rfl, rfl⟩
    · rw [hhs']; exact hleft
  · -- the SSI branch is taken
    have hssi' : sendFileData cfg { call.env with insert := insert } call.fuel s =
        sendSsi cfg { call.env with insert := insert } call.fuel s := by
      unfold sendFileData
      rw [if_pos ⟨hssi, htag₁⟩]
    have hsends := sendSsi_sends cfg { call.env with insert := insert } call.fuel s
    rw [heq, hssi']
    refine ⟨hsent₁.sendSsi rfl call.fuel, fun _ => ⟨?_, ?_, ?_⟩, fun hc => ?_⟩
    · exact hsends.tagCheck.trans htag₁
    · exact hsends.handle.trans hholds₁.1
    · rw [hsends.fs]; exact hholds₁.2
    · rw [hsends.closed, hopen₁] at hc
      exact absurd hc (by simp)

/-- What is accepted is a start of the narrowed pass over the whole file. -/
theorem SsiSent.accepted_prefix {m : Mem} {q : TagScan × Nat} (h : SsiSent cfg insert m f q c) :
    accepted Src.isBody c.log <+: narrowOutput cfg insert q (bytesAt m f.data f.len) := by
  have hge := h.file_ge
  have hle := h.file_le
  have hpar := h.parsed_le
  have hcut : c.hs.parsed - f.data ≤ f.len := by omega
  have hall : (scanned cfg insert m f q c).2 <+: narrowOutput cfg insert q (bytesAt m f.data f.len) := by
    unfold narrowOutput
    rw [bytesAt_split hcut]
    exact transduce_prefix _ _ _ _
  refine List.IsPrefix.trans ?_ hall
  rw [h.output, List.append_assoc]
  exact List.prefix_append _ _

/-- At the end of the file only the insert of a tag that ends the file is missing. -/
theorem SsiSent.accepted_end {m : Mem} {q : TagScan × Nat} (h : SsiSent cfg insert m f q c) (hleft : c.hs.left = 0) :
    narrowOutput cfg insert q (bytesAt m f.data f.len) = accepted Src.isBody c.log ++ pending c.hs.tag ∧
    (pending c.hs.tag = [] ↔ ¬EndsInInsert cfg insert q (bytesAt m f.data f.len)) := by
  have hge := h.file_ge
  have hle := h.file_le
  have hpar := h.parsed_le
  have hl := h.left
  have hp := h.parseLeft
  have hfile : c.hs.file = c.hs.parsed := by omega
  have hcount : c.hs.parsed - f.data = f.len := by omega
  have hpl : c.hs.parseLeft = 0 := by omega
  have hout := h.output
  have hlast := h.last hpl
  rw [hfile, Nat.sub_self, bytesAt_zero, List.append_nil] at hout
  unfold scanned at hout hlast
  rw [hcount] at hout hlast
  refine ⟨hout, ?_⟩
  unfold EndsInInsert scanState
  rw [← hlast]
  by_cases hst : c.hs.tag.state = .sending
  · obtain ⟨-, -, -, hidx⟩ := h.sending hst
    rw [pending, if_pos hst, hidx (.inr hpl), Nat.sub_zero, ← List.length_eq_zero_iff, bytesAt_length]
    simp [hst]
  · simp [pending_of_ne hst, hst]

/-- **SSI responses do not depend on the send schedule.** In every run of `send_data` on a file with tags,
    whatever the send buffer, the allocator and `tcp_write` answer: if every insert is shorter than 256 bytes,
    what TCP has accepted is a prefix of the reference output; and when the connection is closed at the end of
    the file it is the whole reference output if and only if every insert is shorter than 256 bytes and the
    file does not end in a tag with a non-empty insert. -/
theorem ssi_schedule_independent {tr : List (Outcome × SendCall)} {o : Outcome}
    (hssi : cfg.includeHttpdSsi = true) (hhandler : HandlerInRange cfg insert) (hserve : Serving f i true c)
    (hrun : Run (sendStep cfg insert) ⟨c, true⟩ tr o) :
    (InsertsFit cfg insert (c.hs.tag, c.inserts) (bytesAt c.mem f.data f.len) →
      accepted Src.isBody o.ctx.log <+:
        refOutput cfg insert (c.hs.tag, c.inserts) (bytesAt c.mem f.data f.len)) ∧
    (o.ctx.closed = true →
      (accepted Src.isBody o.ctx.log = refOutput cfg insert (c.hs.tag, c.inserts) (bytesAt c.mem f.data f.len) ↔
        InsertsFit cfg insert (c.hs.tag, c.inserts) (bytesAt c.mem f.data f.len) ∧
        ¬EndsInInsert cfg insert (c.hs.tag, c.inserts) (bytesAt c.mem f.data f.len))) := by
  obtain ⟨hsent, -, hclosed⟩ := hrun.invariant (ssiInv_start cfg insert hserve)
    (ssiInv_step hssi)
  obtain ⟨hle, hiff, hsame⟩ := narrowOutput_spec hhandler (c.hs.tag, c.inserts) (bytesAt c.mem f.data f.len)
  refine ⟨fun hfit => ?_, fun hc => ?_⟩
  · rw [← hsame hfit]
    exact hsent.accepted_prefix
  · obtain ⟨hout, hpend⟩ := hsent.accepted_end (hclosed hc)
    rw [← hpend, ← hiff]
    rw [← hiff] at hsame
    constructor
    · intro hacc
      rw [hout, List.length_append, hacc] at hle
      -- the narrowed output is no longer than the reference, so no insert is pending
      have hnil : (pending o.ctx.hs.tag).length = 0 := by omega
      refine ⟨?_, List.length_eq_zero_iff.mp hnil⟩
      rw [hout, List.length_append, hacc, hnil, Nat.add_zero]
    · rintro ⟨hlen, hnil⟩
      rw [← hsame hlen, hout, hnil, List.append_nil]

end

/-! A tag in the middle of the file, and one at its end. -/

def midTagFile : FsDataFile := ⟨lit "/mid.shtml", 4096, 11, by decide⟩
def lastTagFile : FsDataFile := ⟨lit "/last.shtml", 4096, 10, by decide⟩

def midTagStart : Ctx := soleStart midTagFile (lit "a<!--#x-->b") true (fun _ => []) numFileHdrStrings
def lastTagStart : Ctx := soleStart lastTagFile (lit "a<!--#x-->") true (fun _ => []) numFileHdrStrings

theorem soleEnv_handler (f : FsDataFile) : HandlerInRange (soleConfig f false) soleEnv.insert := fun _ _ =>
  ⟨show (0 : Int) ≤ 2 by decide, show (2 : Int) ≤ (192 : Nat) by decide⟩

/-- Three calls send `a<!--#x-->hib` and close. -/
theorem ssi_schedule_independent_mid :
    ∃ tr o, Run (sendStep (soleConfig midTagFile false) soleEnv.insert) ⟨midTagStart, true⟩ tr o ∧
      o.ctx.closed = true ∧ accepted Src.isBody o.ctx.log = lit "a<!--#x-->hib" := by
  have hex : ((runActions (sendStep (soleConfig midTagFile false) soleEnv.insert) ⟨midTagStart, true⟩
      [⟨soleEnv, 40⟩, ⟨soleEnv, 40⟩, ⟨soleEnv, 40⟩]).map fun o => o.ctx.closed) = some true := by decide +kernel
  obtain ⟨o, ho, hclosed⟩ := Option.map_eq_some_iff.mp hex
  obtain ⟨tr, hrun, -⟩ := Run.of_runActions ho
  have hmain := ssi_schedule_independent rfl (soleEnv_handler midTagFile)
    (soleStart_serving midTagFile (lit "a<!--#x-->b") true (fun _ => []) numFileHdrStrings) hrun
  refine ⟨tr, o, hrun, hclosed, ?_⟩
  refine ((hmain.2 hclosed).mpr ⟨?_, by decide +kernel⟩).trans (by decide +kernel)
  exact insertsFit_of_small (soleEnv_handler midTagFile) (by decide) _ _

/-- **The insert of a tag that ends the file is lost**: the connection is closed after `a<!--#x-->`, without the
    insert `hi`. -/
theorem ssi_last_insert_lost :
    Serving lastTagFile 0 true lastTagStart ∧ HandlerInRange (soleConfig lastTagFile false) soleEnv.insert ∧
    refOutput (soleConfig lastTagFile false) soleEnv.insert (lastTagStart.hs.tag, lastTagStart.inserts)
      (bytesAt lastTagStart.mem lastTagFile.data lastTagFile.len) = lit "a<!--#x-->hi" ∧
    ∃ tr o, Run (sendStep (soleConfig lastTagFile false) soleEnv.insert) ⟨lastTagStart, true⟩ tr o ∧
      o.ctx.closed = true ∧ accepted Src.isBody o.ctx.log = lit "a<!--#x-->" := by
  refine ⟨soleStart_serving .., soleEnv_handler _, by decide +kernel, ?_⟩
  have hex : ((runActions (sendStep (soleConfig lastTagFile false) soleEnv.insert) ⟨lastTagStart, true⟩
      [⟨soleEnv, 40⟩, ⟨soleEnv, 40⟩]).map fun o => (o.ctx.closed, accepted Src.isBody o.ctx.log)) =
      some (true, lit "a<!--#x-->") := by decide +kernel
  obtain ⟨o, ho, hres⟩ := Option.map_eq_some_iff.mp hex
  obtain ⟨hclosed, hacc⟩ := Prod.mk.inj hres
  obtain ⟨tr, hrun, -⟩ := Run.of_runActions ho
  exact ⟨tr, o, hrun, hclosed, hacc⟩

end ThirdParty.Httpd
