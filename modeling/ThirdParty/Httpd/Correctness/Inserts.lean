import ThirdParty.Httpd.Correctness.Cursors
import ThirdParty.Httpd.Correctness.Ssi

/-!
# `Httpd.Correctness.Inserts` — what is sent as the insert of a tag

`get_tag_insert` stores the handler's `int` in the `u8_t` field `tag_insert_len`. A length stays within what the handler
has written, also where it is cut; a negative number does not, it turns into one of up to 255 bytes. `InsertClean` says
of one call of `send_data` that nothing else is offered as an insert than what was written for its tag.
-/

namespace ThirdParty.Httpd

open Lib Lwip

/-! ## What was written for a tag -/

/-- The contract of `tSSIHandler`: it writes into the buffer it is given, and returns how many characters it has
    written, or a negative number. -/
def HandlerContract (cfg : Config) (insert : Nat → Nat → InsertReply) : Prop :=
  ∀ k i, (insert k i).text.length ≤ cfg.maxTagInsertLen ∧ (insert k i).ret ≤ (insert k i).text.length

/-- The reply for the tag whose name is in `tag_name`, the last handler call being the one for it; without a
    handler, the text echoed. -/
def Ctx.reply (cfg : Config) (insert : Nat → Nat → InsertReply) (c : Ctx) : InsertReply :=
  match findTag cfg (cstr c.hs.tag.name) with
  | some i => insert (c.inserts - 1) i
  | none   => ⟨unknownTagText cfg (cstr c.hs.tag.name), (unknownTagText cfg (cstr c.hs.tag.name)).length⟩

/-- The characters written for this tag. -/
def Ctx.written (cfg : Config) (insert : Nat → Nat → InsertReply) (c : Ctx) : List Byte := (c.reply cfg insert).text

/-- **A call of `send_data` from `c` to `c'` offers nothing but what was written for the tag**, and what was written is
    in the array. -/
structure InsertClean (cfg : Config) (insert : Nat → Nat → InsertReply) (c c' : Ctx) : Prop where
  len    : c'.hs.tag.state = .sending →
    c'.hs.tag.insertLen ≤ (c'.written cfg insert).length ∧ c'.hs.tag.insertLen ≤ cfg.maxTagInsertLen
  offers : ∀ es, c'.log = c.log ++ es → ∀ idx data err, Ev.tcpWrite (.insert idx) data err ∈ es →
    idx + data.length ≤ (c'.written cfg insert).length ∧ idx + data.length ≤ cfg.maxTagInsertLen ∧
      data = ((c'.written cfg insert).drop idx).take data.length

/-- If this byte closes a tag, its handler does not fail, or fails with a number that the `u8_t` turns into no more than
    what the handler has written. -/
def FailsHarmlessly (cfg : Config) (insert : Nat → Nat → InsertReply) (q : TagScan × Nat) (ch : Byte) : Prop :=
  (parseByte cfg q.1 ch).2 = true → ∀ i, findTag cfg (cstr (parseByte cfg q.1 ch).1.name) = some i →
    (insert q.2 i).ret < 0 → toU8 (insert q.2 i).ret ≤ (insert q.2 i).text.length

/-- No handler has failed with another number on the part of the file parsed so far. -/
def Harmless (cfg : Config) (insert : Nat → Nat → InsertReply) (m : Mem) (f : FsDataFile) (q : TagScan × Nat)
    (c : Ctx) : Prop :=
  AtEach (fun past ch => FailsHarmlessly cfg insert (scanState cfg insert q past) ch)
    (bytesAt m f.data (c.hs.parsed - f.data))

/-- What is to be sent is longer than what was written. -/
def Leaks (cfg : Config) (insert : Nat → Nat → InsertReply) (c : Ctx) : Prop :=
  c.hs.tag.state = .sending ∧ (c.written cfg insert).length < c.hs.tag.insertLen

/-- The insert of the current tag is the reply for it. -/
def Tagged (cfg : Config) (insert : Nat → Nat → InsertReply) (c : Ctx) : Prop :=
  c.hs.tag.state = .sending → c.hs.tag.insertLen = toU8 (c.reply cfg insert).ret ∧
    bytesAt c.hs.tag.insert 0 (c.written cfg insert).length = c.written cfg insert

section
variable {cfg : Config} {insert : Nat → Nat → InsertReply} {m : Mem} {f : FsDataFile} {q : TagScan × Nat}
  {c c' c₀ : Ctx} {env : Env}

theorem unknownTagText_length (cfg : Config) (name : List Byte) :
    (unknownTagText cfg name).length ≤ cfg.maxTagInsertLen := by
  unfold unknownTagText
  rw [List.length_take]
  exact Nat.min_le_left _ _

theorem written_length (h : HandlerContract cfg insert) (c : Ctx) :
    (c.written cfg insert).length ≤ cfg.maxTagInsertLen := by
  unfold Ctx.written Ctx.reply
  split
  · exact (h _ _).1
  · exact unknownTagText_length cfg _

/-- A position of the buffer that the text covers. -/
theorem bytesAt_overlay (text : List Byte) (buf : Nat → Byte) {n : Nat} (h : n ≤ text.length) :
    bytesAt (overlay text buf) 0 n = text.take n := by
  apply List.ext_getElem
  · simp [h]
  · intro i hi hi'
    have hlt : i < text.length := by simp at hi'; omega
    simp [bytesAt, overlay, hlt]

/-- Part of what was written. -/
theorem bytesAt_written {t : List Byte} {buf : Mem} (h : bytesAt buf 0 t.length = t) {idx n : Nat}
    (hle : idx + n ≤ t.length) : bytesAt buf idx n = (t.drop idx).take n := by
  calc bytesAt buf idx n = ((bytesAt buf 0 t.length).drop idx).take n := by
        rw [bytesAt_drop (by omega), bytesAt_take (by omega), Nat.zero_add]
    _ = (t.drop idx).take n := by rw [h]

/-- A reply is too long exactly if it is a failure that is not harmless. -/
theorem reply_fits_iff (h : HandlerContract cfg insert) (k i : Nat) :
    toU8 (insert k i).ret ≤ (insert k i).text.length ↔
      ((insert k i).ret < 0 → toU8 (insert k i).ret ≤ (insert k i).text.length) := by
  obtain ⟨-, hret⟩ := h k i
  refine ⟨fun hle _ => hle, fun himp => ?_⟩
  by_cases hneg : (insert k i).ret < 0
  · exact himp hneg
  · have hle := toU8_le_toNat (Int.not_lt.mp hneg)
    omega

/-- The reply is looked up again by the name and the number of calls. -/
theorem reply_of_tag (hname : c'.hs.tag.name = c.hs.tag.name) (hins : c'.inserts = c.inserts) :
    c'.reply cfg insert = c.reply cfg insert := by
  unfold Ctx.reply
  rw [hname, hins]

/-! ## Closing a tag -/

/-- A state in which a tag was just closed: `get_tag_insert` was called in parser state `t`, after `k` handler calls. -/
structure JustClosed (cfg : Config) (insert : Nat → Nat → InsertReply) (t : TagScan) (k : Nat) (c : Ctx) : Prop where
  tag     : c.hs.tag = { (getTagInsert cfg insert t k).1 with index := 0, state := .sending }
  inserts : c.inserts = (getTagInsert cfg insert t k).2

theorem JustClosed.reply {t : TagScan} {k : Nat} (h : JustClosed cfg insert t k c) :
    c.reply cfg insert = (findTag cfg (cstr t.name)).elim
      ⟨unknownTagText cfg (cstr t.name), (unknownTagText cfg (cstr t.name)).length⟩ (insert k) := by
  have hname : c.hs.tag.name = t.name := by rw [h.tag]; rfl
  have hins := h.inserts
  unfold Ctx.reply
  rw [hname]
  unfold getTagInsert tagInsertText at hins
  cases hfind : findTag cfg (cstr t.name) with
  | none => rfl
  | some i =>
      rw [hfind] at hins
      rw [show c.inserts = k + 1 from hins]
      rfl

theorem JustClosed.tagged {t : TagScan} {k : Nat} (h : JustClosed cfg insert t k c) : Tagged cfg insert c := by
  intro _
  have hreply := h.reply
  unfold Ctx.written
  rw [hreply, h.tag]
  unfold getTagInsert tagInsertText
  cases hfind : findTag cfg (cstr t.name) with
  | none =>
      refine ⟨rfl, ?_⟩
      show bytesAt (overlay (unknownTagText cfg (cstr t.name) ++ [0]) t.insert) 0 _ = unknownTagText cfg (cstr t.name)
      simp only [Option.elim]
      rw [bytesAt_overlay _ _ (by simp), List.take_left' rfl]
  | some i =>
      refine ⟨rfl, ?_⟩
      show bytesAt (overlay (insert k i).text t.insert) 0 _ = (insert k i).text
      simp only [Option.elim]
      rw [bytesAt_overlay _ _ (Nat.le_refl _), List.take_length]

/-- It leaks unless the handler has failed harmlessly. -/
theorem JustClosed.leaks_iff (hcontract : HandlerContract cfg insert) {t : TagScan} {k : Nat} {ch : Byte}
    (hhit : (parseByte cfg t ch).2 = true) (h : JustClosed cfg insert (parseByte cfg t ch).1 k c) :
    Leaks cfg insert c ↔ ¬FailsHarmlessly cfg insert (t, k) ch := by
  have hst : c.hs.tag.state = .sending := by rw [h.tag]
  obtain ⟨hlen, -⟩ := h.tagged hst
  unfold Leaks FailsHarmlessly Ctx.written
  rw [hlen, h.reply]
  simp only [hst, true_and, hhit, forall_const]
  cases hfind : findTag cfg (cstr (parseByte cfg t ch).1.name) with
  | none =>
      have hle := toU8_le_toNat (Int.natCast_nonneg (unknownTagText cfg (cstr (parseByte cfg t ch).1.name)).length)
      simp only [Option.elim, Int.toNat_natCast] at hle ⊢
      simpa using hle
  | some i =>
      simp only [Option.elim, Option.some.injEq, forall_eq']
      rw [← reply_fits_iff hcontract, Nat.not_le]

/-! ## What has been parsed so far -/

theorem harmless_congr (hparsed : c'.hs.parsed = c.hs.parsed) :
    Harmless cfg insert m f q c' ↔ Harmless cfg insert m f q c := by
  unfold Harmless
  rw [hparsed]

/-- One byte more. -/
theorem harmless_next (h : SsiSent cfg insert m f q c) (hparsed : c'.hs.parsed = c.hs.parsed + 1) :
    Harmless cfg insert m f q c' ↔
      Harmless cfg insert m f q c ∧ FailsHarmlessly cfg insert (c.hs.tag, c.inserts) (m c.hs.parsed) := by
  have hge := h.file_ge
  have hle := h.file_le
  have hlen : c.hs.parsed + 1 - f.data = (c.hs.parsed - f.data) + 1 := by omega
  have hat : f.data + (c.hs.parsed - f.data) = c.hs.parsed := by omega
  -- the pass is where the parser of the code is, once both are settled
  have hparse : parseByte cfg (scanState cfg insert q (bytesAt m f.data (c.hs.parsed - f.data))).1 (m c.hs.parsed) =
      parseByte cfg c.hs.tag (m c.hs.parsed) := by
    rw [← parseByte_settle, ← @parseByte_settle cfg c.hs.tag, h.state]
    rfl
  have hins : (scanState cfg insert q (bytesAt m f.data (c.hs.parsed - f.data))).2 = c.inserts := h.inserts.symm
  have hlast : FailsHarmlessly cfg insert (scanState cfg insert q (bytesAt m f.data (c.hs.parsed - f.data)))
      (m c.hs.parsed) ↔ FailsHarmlessly cfg insert (c.hs.tag, c.inserts) (m c.hs.parsed) := by
    unfold FailsHarmlessly
    rw [hparse, hins]
  unfold Harmless
  rw [hparsed, hlen, bytesAt_succ, hat, ← hlast]
  exact atEach_snoc

theorem harmless_of_later (h : Harmless cfg insert m f q c') (hparsed : c.hs.parsed ≤ c'.hs.parsed) :
    Harmless cfg insert m f q c := by
  have hcut : c.hs.parsed - f.data ≤ c'.hs.parsed - f.data := by omega
  unfold Harmless at h ⊢
  rw [bytesAt_split hcut] at h
  exact h.of_append

/-! ## The calls that offer an insert -/

def offersInsert : Ev → Bool
  | .tcpWrite (.insert _) _ _ => true
  | _ => false

/-- Nothing is offered from `tag_insert`. -/
def noInsert (e : Ev) : Bool := !offersInsert e

theorem Retried.adds {src : Src} {data : Nat → List Byte} {len len' n w : Nat} {err : Err} {failed : List Nat}
    (h : Retried src data len c err len' c' failed n w) {q : Ev → Bool}
    (hq : ∀ data err, q (.tcpWrite src data err) = true) :
    Adds q c c' := by
  rw [h.ctx]
  refine ⟨_, List.append_assoc .., fun e he => ?_⟩
  rcases List.mem_append.mp he with he | he
  · obtain ⟨k, -, rfl⟩ := List.mem_map.mp he
    exact hq _ _
  · rw [List.mem_singleton.mp he]
    exact hq _ _

theorem sendFile_noInsert (env : Env) (s : Sending) : Adds noInsert s.ctx (s.sendFile env).ctx := by
  obtain ⟨err, len, c, failed, n, w, heq, hr⟩ :=
    tcpWriteRetry_spec env (.file s.ctx.hs.file) (bytesAt s.ctx.mem s.ctx.hs.file) s.len s.ctx
  have hadds := hr.adds (q := noInsert) fun _ _ => rfl
  unfold Sending.sendFile
  simp only [heq]
  split
  · exact hadds.trans (.of_log rfl)
  · exact hadds

theorem sendBeforeTag_noInsert (env : Env) (s : Sending) : Adds noInsert s.ctx (s.sendBeforeTag env).ctx := by
  unfold Sending.sendBeforeTag
  exact sendFile_noInsert env _

theorem sendParsed_noInsert (env : Env) (s : Sending) : Adds noInsert s.ctx (s.sendParsed env).ctx := by
  unfold Sending.sendParsed
  exact (Adds.emit s.ctx rfl).trans (sendFile_noInsert env _)

theorem flush_noInsert (s : Sending) : Adds noInsert s.ctx s.flush := by
  unfold Sending.flush
  split
  · exact .emit _ rfl
  · exact .refl _

/-- What was offered since `c₀` is from the insert of the current tag. -/
def OffersCurrent (c₀ c : Ctx) : Prop :=
  ∃ es, c.log = c₀.log ++ es ∧ ∀ idx data err, Ev.tcpWrite (.insert idx) data err ∈ es →
    c.hs.tag.state = .sending ∧ idx + data.length ≤ c.hs.tag.insertLen ∧ data = bytesAt c.hs.tag.insert idx data.length

theorem OffersCurrent.of_adds (h : Adds noInsert c₀ c) : OffersCurrent c₀ c := by
  obtain ⟨es, hes, hall⟩ := h
  exact ⟨es, hes, fun idx data err he => absurd (hall _ he) (by simp [noInsert, offersInsert])⟩

theorem OffersCurrent.trans (h : OffersCurrent c₀ c) (hadds : Adds noInsert c c') (htag : c'.hs.tag = c.hs.tag) :
    OffersCurrent c₀ c' := by
  obtain ⟨es, hes, hcur⟩ := h
  obtain ⟨es', hes', hall⟩ := hadds
  refine ⟨es ++ es', by rw [hes', hes, List.append_assoc], fun idx data err he => ?_⟩
  rw [htag]
  rcases List.mem_append.mp he with he | he
  · exact hcur idx data err he
  · exact absurd (hall _ he) (by simp [noInsert, offersInsert])

/-! ## The invariant of a call -/

/-- How the insert stands in `c`, in a call of `send_data` that started in `c₀`: it is the reply for its tag, and it
    leaks as soon as a handler has failed in another way. -/
structure Inserting (cfg : Config) (insert : Nat → Nat → InsertReply) (m : Mem) (f : FsDataFile) (q : TagScan × Nat)
    (c₀ c : Ctx) : Prop where
  tagged  : Tagged cfg insert c
  later   : c₀.hs.parsed ≤ c.hs.parsed
  verdict : Harmless cfg insert m f q c₀ → ¬Leaks cfg insert c₀ →
    (Harmless cfg insert m f q c ∧ ¬Leaks cfg insert c) ∨ (¬Harmless cfg insert m f q c ∧ Leaks cfg insert c)

/-- The insert that leaks was obtained in this call, so nothing of it is sent yet. -/
def Fresh (cfg : Config) (insert : Nat → Nat → InsertReply) (m : Mem) (f : FsDataFile) (q : TagScan × Nat)
    (c₀ c : Ctx) : Prop :=
  Harmless cfg insert m f q c₀ → ¬Leaks cfg insert c₀ → Leaks cfg insert c → c.hs.tag.index = 0

theorem leaks_congr {i : Nat} (hins : c'.inserts = c.inserts) (htag : c'.hs.tag = { c.hs.tag with index := i }) :
    Leaks cfg insert c' ↔ Leaks cfg insert c := by
  unfold Leaks Ctx.written
  rw [reply_of_tag (by rw [htag]) hins, htag]

theorem Tagged.congr {i : Nat} (h : Tagged cfg insert c) (hins : c'.inserts = c.inserts)
    (htag : c'.hs.tag = { c.hs.tag with index := i }) : Tagged cfg insert c' := by
  unfold Tagged Ctx.written at h ⊢
  rw [reply_of_tag (by rw [htag]) hins, htag]
  exact h

/-- Only the index has moved. -/
theorem Inserting.congr {i : Nat} (h : Inserting cfg insert m f q c₀ c) (hparsed : c'.hs.parsed = c.hs.parsed)
    (hins : c'.inserts = c.inserts) (htag : c'.hs.tag = { c.hs.tag with index := i }) :
    Inserting cfg insert m f q c₀ c' := by
  refine ⟨h.tagged.congr hins htag, by rw [hparsed]; exact h.later, ?_⟩
  rw [harmless_congr hparsed, leaks_congr hins htag]
  exact h.verdict

theorem Inserting.sentFile {n : Nat} (h : Inserting cfg insert m f q c₀ c) (hsent : SentFile c c' n) :
    Inserting cfg insert m f q c₀ c' ∧ c'.hs.tag = c.hs.tag := by
  have htag : c'.hs.tag = c.hs.tag := by rw [hsent.hs]; rfl
  refine ⟨h.congr (i := c.hs.tag.index) ?_ hsent.inserts htag, htag⟩
  rw [hsent.hs]
  rfl

/-- No insert is on its way. -/
theorem not_leaks (h : c.hs.tag.state ≠ .sending) : ¬Leaks cfg insert c := fun hleaks => h hleaks.1

theorem Inserting.harmless (h : Inserting cfg insert m f q c₀ c) (hno : ¬Leaks cfg insert c)
    (h₀ : Harmless cfg insert m f q c₀) (hno₀ : ¬Leaks cfg insert c₀) : Harmless cfg insert m f q c := by
  rcases h.verdict h₀ hno₀ with ⟨hgood, -⟩ | ⟨-, hbad⟩
  · exact hgood
  · exact absurd hbad hno

/-! ## The rounds of the SSI loop -/

/-- What a round leaves behind: the insert stands as it should, and if the loop may go on, nothing of an insert was
    offered yet. -/
structure RoundDone (cfg : Config) (insert : Nat → Nat → InsertReply) (m : Mem) (f : FsDataFile) (q : TagScan × Nat)
    (c₀ : Ctx) (s : Sending) (ret : Bool) : Prop where
  state  : Inserting cfg insert m f q c₀ s.ctx
  offers : OffersCurrent c₀ s.ctx
  goesOn : ret = false → s.err = .ok → Adds noInsert c₀ s.ctx ∧ Fresh cfg insert m f q c₀ s.ctx

theorem RoundDone.of_quiet {s : Sending} (hstate : Inserting cfg insert m f q c₀ s.ctx)
    (hquiet : Adds noInsert c₀ s.ctx)
    (hfresh : Fresh cfg insert m f q c₀ s.ctx) (ret : Bool) : RoundDone cfg insert m f q c₀ s ret :=
  ⟨hstate, .of_adds hquiet, fun _ _ => ⟨hquiet, hfresh⟩⟩

/-- The parser moves on without closing a tag, or the state of the insert is left. -/
theorem Inserting.leave (h : Inserting cfg insert m f q c₀ c)
    (hno : Harmless cfg insert m f q c₀ → ¬Leaks cfg insert c₀ → ¬Leaks cfg insert c) (hst : c'.hs.tag.state ≠ .sending)
    (hlater : c.hs.parsed ≤ c'.hs.parsed) (hharmless : Harmless cfg insert m f q c → Harmless cfg insert m f q c') :
    Inserting cfg insert m f q c₀ c' := by
  refine ⟨fun hs => absurd hs hst, Nat.le_trans h.later hlater, fun h₀ hno₀ => .inl ⟨?_, not_leaks hst⟩⟩
  exact hharmless (h.harmless (hno h₀ hno₀) h₀ hno₀)

/-- A tag is closed. -/
theorem Inserting.close (hcontract : HandlerContract cfg insert) (h : Inserting cfg insert m f q c₀ c)
    (hsent : SsiSent cfg insert m f q c) (hst : c.hs.tag.state ≠ .sending)
    (hhit : (parseByte cfg c.hs.tag (m c.hs.parsed)).2 = true) (hparsed : c'.hs.parsed = c.hs.parsed + 1)
    (hclosed : JustClosed cfg insert (parseByte cfg c.hs.tag (m c.hs.parsed)).1 c.inserts c') :
    Inserting cfg insert m f q c₀ c' := by
  refine ⟨hclosed.tagged, by rw [hparsed]; exact Nat.le_succ_of_le h.later, fun h₀ hno₀ => ?_⟩
  have hgood := h.harmless (not_leaks hst) h₀ hno₀
  rw [harmless_next hsent hparsed, hclosed.leaks_iff hcontract hhit]
  by_cases hfail : FailsHarmlessly cfg insert (c.hs.tag, c.inserts) (m c.hs.parsed)
  · exact .inl ⟨⟨hgood, hfail⟩, fun hno => hno hfail⟩
  · exact .inr ⟨fun hall => hfail hall.2, hfail⟩

/-- Sending part of the insert. -/
theorem Inserting.sendInsert {s : Sending} (h : Inserting cfg insert m f q c₀ s.ctx) (hquiet : Adds noInsert c₀ s.ctx)
    (hst : s.ctx.hs.tag.state = .sending) (hmore : s.ctx.hs.tag.index < s.ctx.hs.tag.insertLen) :
    RoundDone cfg insert m f q c₀ (s.sendInsert env).1 (s.sendInsert env).2 := by
  unfold Sending.sendInsert
  simp only
  rw [if_pos hmore]
  generalize hoff : (if s.len > s.ctx.hs.tag.insertLen - s.ctx.hs.tag.index
    then s.ctx.hs.tag.insertLen - s.ctx.hs.tag.index else s.len) = offered
  have hle : offered ≤ s.ctx.hs.tag.insertLen - s.ctx.hs.tag.index := by rw [← hoff]; split <;> omega
  obtain ⟨err, n, c', failed, last, w, heq, hr⟩ := tcpWriteRetry_spec env (.insert s.ctx.hs.tag.index)
    (bytesAt s.ctx.hs.tag.insert s.ctx.hs.tag.index) offered s.ctx
  simp only [heq]
  -- every attempt is on a start of the rest of the insert
  have hoffers : ∃ es, c'.log = c₀.log ++ es ∧ ∀ idx data err, Ev.tcpWrite (.insert idx) data err ∈ es →
      idx + data.length ≤ s.ctx.hs.tag.insertLen ∧ data = bytesAt s.ctx.hs.tag.insert idx data.length := by
    obtain ⟨es, hes, hall⟩ := hquiet
    refine ⟨es ++ (failed.map (refused (.insert s.ctx.hs.tag.index) (bytesAt s.ctx.hs.tag.insert s.ctx.hs.tag.index)) ++
      [.tcpWrite (.insert s.ctx.hs.tag.index) (bytesAt s.ctx.hs.tag.insert s.ctx.hs.tag.index last) err]), ?_, ?_⟩
    · rw [hr.ctx]
      simp [hes]
    · have hpart : ∀ k ≤ offered, s.ctx.hs.tag.index + (bytesAt s.ctx.hs.tag.insert s.ctx.hs.tag.index k).length ≤
          s.ctx.hs.tag.insertLen ∧ bytesAt s.ctx.hs.tag.insert s.ctx.hs.tag.index k =
            bytesAt s.ctx.hs.tag.insert s.ctx.hs.tag.index
                (bytesAt s.ctx.hs.tag.insert s.ctx.hs.tag.index k).length := by
        intro k hk
        rw [bytesAt_length]
        exact ⟨by omega, rfl⟩
      intro idx data err' he
      rcases List.mem_append.mp he with he | he
      · exact absurd (hall _ he) (by simp [noInsert, offersInsert])
      rcases List.mem_append.mp he with he | he
      · obtain ⟨k, hk, hev⟩ := List.mem_map.mp he
        obtain ⟨hsrc, rfl, -⟩ := Ev.tcpWrite.inj hev
        obtain rfl := Src.insert.inj hsrc
        exact hpart k (hr.failed_le k hk).2
      · obtain ⟨hsrc, rfl, -⟩ := Ev.tcpWrite.inj (List.mem_singleton.mp he)
        obtain rfl := Src.insert.inj hsrc
        exact hpart last hr.last_le
  obtain ⟨es, hes, hcur⟩ := hoffers
  split
  · refine ⟨h.congr (i := toU8 ((s.ctx.hs.tag.index : Int) + n)) ?_ hr.inserts rfl, ⟨es, hes, ?_⟩, fun hc =>
      Bool.noConfusion hc⟩
    · rw [Ctx.setHs_hs, hr.hs]
    · intro idx data err' he
      exact ⟨hst, hcur idx data err' he⟩
  · next hfail =>
      have htag : c'.hs.tag = s.ctx.hs.tag := by rw [hr.hs]
      refine ⟨h.congr (i := s.ctx.hs.tag.index) (by rw [hr.hs]) hr.inserts htag, ⟨es, hes, ?_⟩, fun _ hok =>
        absurd hok hfail⟩
      intro idx data err' he
      rw [htag]
      exact ⟨hst, hcur idx data err' he⟩

/-- **One round of the loop.** -/
theorem Inserting.round {s : Sending} (hcontract : HandlerContract cfg insert) (henv : env.insert = insert)
    (hsent : SsiSent cfg insert m f q s.ctx) (h : Inserting cfg insert m f q c₀ s.ctx) (hquiet : Adds noInsert c₀ s.ctx)
    (hfresh : Fresh cfg insert m f q c₀ s.ctx) :
    RoundDone cfg insert m f q c₀ (ssiRound cfg env s).1 (ssiRound cfg env s).2 := by
  have hcase := ssiRound_cases cfg env s
  generalize ssiRound cfg env s = r at hcase
  cases hcase with
  | read hst hsettle hhit =>
      rw [hsent.mem] at hhit ⊢
      have hst' := parseByte_state cfg s.ctx.hs.tag (m s.ctx.hs.parsed)
      have hstate : Inserting cfg insert m f q c₀
          (s.consume (parseByte cfg s.ctx.hs.tag (m s.ctx.hs.parsed)).1).ctx := by
        refine h.leave (fun _ _ => not_leaks hst) hst' (Nat.le_succ _) fun hgood => ?_
        refine (harmless_next hsent rfl).mpr ⟨hgood, fun hc => ?_⟩
        rw [hhit] at hc
        exact Bool.noConfusion hc
      exact .of_quiet hstate (hquiet.trans (.of_log rfl)) (fun _ _ hleaks => absurd hleaks.1 hst') false
  | close hst hsettle hhit =>
      have hne : s.ctx.hs.tag.state ≠ .sending := by rw [hst]; exact fun hc => by cases hc
      rw [hsent.mem] at hhit ⊢
      generalize ht : (parseByte cfg s.ctx.hs.tag (m s.ctx.hs.parsed)).1 = t
      have hclosed : JustClosed cfg insert (parseByte cfg s.ctx.hs.tag (m s.ctx.hs.parsed)).1 s.ctx.inserts
          ((s.consume t).closed cfg env).ctx := by
        rw [ht, ← henv]
        exact ⟨rfl, rfl⟩
      have hnew := h.close hcontract hsent hne hhit rfl hclosed
      have hquiet' : Adds noInsert c₀ ((s.consume t).closed cfg env).ctx :=
        hquiet.trans ⟨_, closed_log (s.consume t), by simp [noInsert, offersInsert]⟩
      have hindex : ((s.consume t).closed cfg env).ctx.hs.tag.index = 0 := rfl
      rw [foundTag_eq]
      split
      · next hbehind =>
          obtain ⟨n, -, -, hfile, -⟩ := sendBeforeTag_spec env ((s.consume t).closed cfg env) hsent.left_lt
            (Nat.le_of_lt hbehind)
          obtain ⟨hdone, htag⟩ := hnew.sentFile hfile
          exact .of_quiet hdone (hquiet'.trans (sendBeforeTag_noInsert env _))
            (fun _ _ _ => by rw [htag]; exact hindex) false
      · exact .of_quiet hnew hquiet' (fun _ _ _ => hindex) false
  | notice hst hend =>
      have hne : s.ctx.hs.tag.state ≠ .sending := by rw [hst]; exact fun hc => by cases hc
      have hst' := settle_state s.ctx.hs.tag
      have hstate : Inserting cfg insert m f q c₀ (s.setTag (settle s.ctx.hs.tag)).ctx :=
        h.leave (fun _ _ => not_leaks hne) hst' (Nat.le_refl _) id
      exact .of_quiet hstate (hquiet.trans (.of_log rfl)) (fun _ _ hleaks => absurd hleaks.1 hst') false
  | before hst hfile =>
      obtain ⟨n, -, -, hsentFile, -⟩ := sendBeforeTag_spec env s hsent.left_lt (Nat.le_of_lt hfile)
      obtain ⟨hdone, htag⟩ := h.sentFile hsentFile
      refine .of_quiet hdone (hquiet.trans (sendBeforeTag_noInsert env s)) (fun h₀ hno₀ hleaks => ?_) false
      rw [htag]
      exact hfresh h₀ hno₀ ((leaks_congr hsentFile.inserts htag).mp hleaks)
  | insert hst hfile hmore => exact h.sendInsert hquiet hst hmore
  | sent hst hfile hdone =>
      -- an insert that leaks would have to be sent first
      have hst' := settle_state s.ctx.hs.tag
      have hstate : Inserting cfg insert m f q c₀ (s.setTag (settle s.ctx.hs.tag)).ctx := by
        refine h.leave (fun h₀ hno₀ hleaks => ?_) hst' (Nat.le_refl _) id
        have hzero := hfresh h₀ hno₀ hleaks
        have hlong := hleaks.2
        omega
      exact .of_quiet hstate (hquiet.trans (.of_log rfl)) (fun _ _ hleaks => absurd hleaks.1 hst') false

theorem Inserting.loop (hcontract : HandlerContract cfg insert) (henv : env.insert = insert) :
    ∀ (fuel : Nat) (s : Sending),
    SsiSent cfg insert m f q s.ctx → Inserting cfg insert m f q c₀ s.ctx → Adds noInsert c₀ s.ctx →
    Fresh cfg insert m f q c₀ s.ctx → Inserting cfg insert m f q c₀ (ssiLoop cfg env fuel s).1.ctx ∧
      OffersCurrent c₀ (ssiLoop cfg env fuel s).1.ctx := by
  intro fuel
  induction fuel with
  | zero =>
      intro s _ h hquiet _
      unfold ssiLoop
      split <;> exact ⟨h, .of_adds hquiet⟩
  | succ fuel ih =>
      intro s hsent h hquiet hfresh
      by_cases hgo : s.ctx.hs.parseLeft ≠ 0 ∧ s.err = .ok
      swap
      · rw [ssiLoop, if_neg hgo]
        exact ⟨h, .of_adds hquiet⟩
      have hsent' := hsent.round hgo.1 henv
      have hround := h.round hcontract henv hsent hquiet hfresh
      rw [ssiLoop, if_pos hgo]
      generalize ssiRound cfg env s = r at hsent' hround
      obtain ⟨s', ret⟩ := r
      cases ret with
      | true =>
          simp only [if_true]
          -- `send_data` returns from inside the loop
          exact ⟨hround.state, hround.offers⟩
      | false =>
          simp only [Bool.false_eq_true, if_false]
          by_cases hok : s'.err = .ok
          · obtain ⟨hquiet', hfresh'⟩ := hround.goesOn rfl hok
            exact ih s' hsent' hround.state hquiet' hfresh'
          · -- the loop is left
            have hstop : ssiLoop cfg env fuel s' = (s', .done) := by
              cases fuel <;> rw [ssiLoop, if_neg fun hgo => hok hgo.2]
            rw [hstop]
            exact ⟨hround.state, hround.offers⟩

/-- Sending what is parsed, at the start or at the end of the SSI branch. -/
theorem Inserting.sendParsed {s : Sending} (env : Env) (h : Inserting cfg insert m f q c₀ s.ctx)
    (hsent : SsiSent cfg insert m f q s.ctx) :
    Inserting cfg insert m f q c₀ (s.sendParsed env).ctx ∧ (s.sendParsed env).ctx.hs.tag = s.ctx.hs.tag := by
  obtain ⟨n, -, hfile, -⟩ := sendParsed_spec env s hsent.left_lt hsent.file_le
  exact h.sentFile hfile

theorem Inserting.flush {s : Sending} (h : Inserting cfg insert m f q c₀ s.ctx) :
    Inserting cfg insert m f q c₀ s.flush := by
  unfold Sending.flush
  split
  · exact h.congr rfl rfl rfl
  · exact h

theorem flush_tag (s : Sending) : s.flush.hs.tag = s.ctx.hs.tag := by rw [flush_hs]

/-- What is sent last is no insert. -/
theorem Inserting.finish {s : Sending} (h : Inserting cfg insert m f q c₀ s.ctx)
    (hsent : SsiSent cfg insert m f q s.ctx)
    (env : Env) : Inserting cfg insert m f q c₀ (ssiFinish env s) ∧ Adds noInsert s.ctx (ssiFinish env s) ∧
      (ssiFinish env s).hs.tag = s.ctx.hs.tag := by
  unfold ssiFinish
  simp only
  split
  · obtain ⟨hnew, htag⟩ := Inserting.sendParsed (s := s) env h hsent
    exact ⟨hnew.flush, (sendParsed_noInsert env s).trans (flush_noInsert _), by rw [flush_tag, htag]⟩
  · exact ⟨h.flush, flush_noInsert s, flush_tag s⟩

/-- **The SSI branch.** -/
theorem Inserting.sendSsi {s : Sending} (hcontract : HandlerContract cfg insert) (henv : env.insert = insert)
    (hsent : SsiSent cfg insert m f q s.ctx) (h : Inserting cfg insert m f q c₀ s.ctx) (hquiet : Adds noInsert c₀ s.ctx)
    (hfresh : Fresh cfg insert m f q c₀ s.ctx) (fuel : Nat) :
    Inserting cfg insert m f q c₀ (sendSsi cfg env fuel s).ctx ∧ OffersCurrent c₀ (sendSsi cfg env fuel s).ctx := by
  have hread : SsiSent cfg insert m f q (s.ctx.emit .pcbRead) :=
    hsent.congr rfl rfl (by simp [Ev.accepted]) ⟨rfl, rfl, rfl, rfl, rfl, rfl⟩
  have hsent' := hsent.ssiStart env
  have hstart : Inserting cfg insert m f q c₀ (ssiStart env s).ctx ∧ Adds noInsert c₀ (ssiStart env s).ctx ∧
      Fresh cfg insert m f q c₀ (ssiStart env s).ctx := by
    -- what is parsed already is sent first, and that is no insert
    have hbegin : Inserting cfg insert m f q c₀ (s.ctx.emit .pcbRead) := h.congr rfl rfl rfl
    unfold ssiStart
    simp only
    split
    · obtain ⟨hnew, htag⟩ := Inserting.sendParsed
        (s := { s with ctx := s.ctx.emit .pcbRead, len := s.ctx.tcpSndbuf env })
        env hbegin hread
      obtain ⟨n, -, hfile, -⟩ := sendParsed_spec env
        { s with ctx := s.ctx.emit .pcbRead, len := s.ctx.tcpSndbuf env } hread.left_lt hread.file_le
      refine ⟨hnew, (hquiet.trans (.emit _ rfl)).trans (sendParsed_noInsert env _), fun h₀ hno₀ hleaks => ?_⟩
      rw [htag]
      exact hfresh h₀ hno₀ ((leaks_congr hfile.inserts htag).mp hleaks)
    · exact ⟨hbegin, hquiet.trans (.emit _ rfl), hfresh⟩
  obtain ⟨hins, hquiet', hfresh'⟩ := hstart
  unfold Httpd.sendSsi
  simp only
  split
  · exact ⟨hins.flush, .of_adds (hquiet'.trans (flush_noInsert _))⟩
  · have hloop := SsiSent.loop henv fuel _ hsent'
    obtain ⟨hstate, hoffers⟩ := hins.loop hcontract henv fuel _ hsent' hquiet' hfresh'
    rcases ssiScan_ctx cfg env fuel (ssiStart env s) with hscan | hscan
    · obtain ⟨hnew, hlast⟩ := hstate.finish hloop env
      rw [hscan]
      exact ⟨hnew, hoffers.trans hlast.1 hlast.2⟩
    · rw [hscan]
      exact ⟨hstate, hoffers⟩

/-- **A call is clean exactly if it does not end with an insert that leaks.** -/
theorem insertClean_iff (hcontract : HandlerContract cfg insert) (htagged : Tagged cfg insert c')
    (hoffers : OffersCurrent c c') : InsertClean cfg insert c c' ↔ ¬Leaks cfg insert c' := by
  obtain ⟨es, hes, hcur⟩ := hoffers
  have hmax := written_length hcontract c'
  constructor
  · intro hclean hleaks
    have hlen := (hclean.len hleaks.1).1
    have hlong := hleaks.2
    omega
  · intro hno
    have hfits : c'.hs.tag.state = .sending → c'.hs.tag.insertLen ≤ (c'.written cfg insert).length := fun hst =>
      Nat.le_of_not_lt fun hlt => hno ⟨hst, hlt⟩
    refine ⟨fun hst => ⟨hfits hst, Nat.le_trans (hfits hst) hmax⟩, fun es' hes' idx data err he => ?_⟩
    obtain rfl := List.append_cancel_left (hes.symm.trans hes')
    obtain ⟨hst, hle, hdata⟩ := hcur idx data err he
    have hfit := hfits hst
    refine ⟨by omega, by omega, ?_⟩
    rw [← bytesAt_written (htagged hst).2 (by omega)]
    exact hdata

/-! ## Runs -/

/-- One call of `send_data` in a run. -/
def CallClean (cfg : Config) (insert : Nat → Nat → InsertReply) (o : Outcome) (call : SendCall) : Prop :=
  InsertClean cfg insert o.ctx (sendData cfg { call.env with insert := insert } call.fuel o.ctx).ctx

theorem callClean_of_step {o o' : Outcome} {call : SendCall} (h : sendStep cfg insert o call = some o') :
    CallClean cfg insert o call ↔ InsertClean cfg insert o.ctx o'.ctx := by
  unfold sendStep at h
  split at h
  · obtain rfl := Option.some.inj h
    exact Iff.rfl
  · exact absurd h (by simp)

theorem Inserting.refl (h : Tagged cfg insert c) : Inserting cfg insert m f q c c :=
  ⟨h, Nat.le_refl _, fun h₀ hno₀ => .inl ⟨h₀, hno₀⟩⟩

/-- **One call of `send_data`.** -/
theorem inserting_call (hssi : cfg.includeHttpdSsi = true) (hcontract : HandlerContract cfg insert) {i : Nat}
    {o : Outcome} (h : SsiInv cfg insert m f i q o) (hopen : o.ctx.closed = false) (htagged : Tagged cfg insert o.ctx)
    (call : SendCall) :
    Inserting cfg insert m f q o.ctx (sendData cfg { call.env with insert := insert } call.fuel o.ctx).ctx ∧
      OffersCurrent o.ctx (sendData cfg { call.env with insert := insert } call.fuel o.ctx).ctx := by
  obtain ⟨hsent, hheld, -⟩ := h
  obtain ⟨htag, hholds⟩ := hheld hopen
  obtain ⟨c₁, hidle, hcases⟩ := sendData_cases cfg { call.env with insert := insert } call.fuel hholds
  obtain ⟨b, n, pos, idx, hhs⟩ := hidle.hs
  have htag₁ : c₁.hs.tag = o.ctx.hs.tag := by rw [hhs]
  have hstate : Inserting cfg insert m f q o.ctx c₁ :=
    (Inserting.refl htagged).congr (i := o.ctx.hs.tag.index) (by rw [hhs]) hidle.inserts htag₁
  -- no insert is offered before the file data
  have hquiet : Adds noInsert o.ctx c₁ := by
    obtain ⟨es, hes, hall⟩ := hidle.log
    refine ⟨es, hes, fun e he => ?_⟩
    have hbody := hall e he
    cases e with
    | tcpWrite src data err => cases src <;> first | rfl | exact Bool.noConfusion hbody
    | _ => rfl
  rcases hcases with heq | ⟨-, heq⟩ | ⟨-, s, rfl, heq⟩
  · rw [heq]
    exact ⟨hstate, .of_adds hquiet⟩
  · rw [heq]
    obtain ⟨-, -, -, hins, hclosed⟩ := closeConn_idle { call.env with insert := insert } c₁
    refine ⟨hstate.congr (i := c₁.hs.tag.index) (by rw [hclosed]) hins (by rw [hclosed]), .of_adds ?_⟩
    refine hquiet.trans ((Adds.emit c₁ rfl).trans ((closeConn_adds _ _).mono fun e he => ?_))
    cases e <;> first | rfl | exact Bool.noConfusion he
  · -- the SSI branch starts where the last call ended
    have hssi' : sendFileData cfg { call.env with insert := insert } call.fuel s =
        Httpd.sendSsi cfg { call.env with insert := insert } call.fuel s := by
      unfold sendFileData
      rw [if_pos ⟨hssi, by rw [hhs]; exact htag⟩]
    rw [heq, hssi']
    refine hstate.sendSsi hcontract rfl (hsent.of_idles hidle) hquiet (fun _ hno₀ hleaks => ?_) call.fuel
    exact absurd ((leaks_congr (i := o.ctx.hs.tag.index) hidle.inserts htag₁).mp hleaks) hno₀

/-- What holds at the end of every run. -/
theorem inserting_run {tr : List (Outcome × SendCall)} {o : Outcome} {i : Nat} {c : Ctx}
    (hssi : cfg.includeHttpdSsi = true) (hcontract : HandlerContract cfg insert) (hserve : Serving f i true c)
    (hrun : Run (sendStep cfg insert) ⟨c, true⟩ tr o) :
    SsiInv cfg insert c.mem f i (c.hs.tag, c.inserts) o ∧ Tagged cfg insert o.ctx ∧
      ((∀ oc ∈ tr, CallClean cfg insert oc.1 oc.2) ↔ Harmless cfg insert c.mem f (c.hs.tag, c.inserts) o.ctx) ∧
      (Harmless cfg insert c.mem f (c.hs.tag, c.inserts) o.ctx → ¬Leaks cfg insert o.ctx) := by
  induction hrun with
  | nil =>
      obtain ⟨hs, hdrs, pos, idx, hhs⟩ := hserve.setUp
      have hst : c.hs.tag.state ≠ .sending := by rw [hhs]; exact fun hc => by cases hc
      have hinv := ssiInv_start cfg insert hserve
      refine ⟨hinv, fun hs => absurd hs hst, ⟨fun _ => ?_, fun _ => by simp⟩, fun _ => not_leaks hst⟩
      -- nothing is parsed yet
      have hparsed : c.hs.parsed = c.hs.file := by rw [hhs]; rfl
      have hfile : c.hs.file = f.data := by
        obtain ⟨root, m, hfind, hopen⟩ := hserve.opened
        rw [hhs, fsFile_fsOpen hopen hfind]
        rfl
      unfold Harmless
      rw [hparsed, hfile, Nat.sub_self, bytesAt_zero]
      exact atEach_nil _
  | @snoc tr s s' call hr hs ih =>
      obtain ⟨hinv, htagged, hiff, hno⟩ := ih
      have hinv' := ssiInv_step hssi hinv hs
      unfold sendStep at hs
      split at hs
      swap
      · exact absurd hs (by simp)
      next hopen =>
      obtain rfl := Option.some.inj hs
      obtain ⟨hstate, hoffers⟩ := inserting_call hssi hcontract hinv hopen.2 htagged call
      have hcall : CallClean cfg insert s call ↔ _ := insertClean_iff hcontract hstate.tagged hoffers
      refine ⟨hinv', hstate.tagged, ?_, fun hgood hleaks => ?_⟩
      · simp only [List.mem_append, List.mem_singleton, or_imp, forall_and, forall_eq]
        rw [hiff, hcall]
        constructor
        · rintro ⟨hgood, hclean⟩
          exact hstate.harmless hclean hgood (hno hgood)
        · intro hgood'
          have hgood := harmless_of_later hgood' hstate.later
          rcases hstate.verdict hgood (hno hgood) with ⟨-, hclean⟩ | ⟨hbad, -⟩
          · exact ⟨hgood, hclean⟩
          · exact absurd hgood' hbad
      · have hgood₀ := harmless_of_later hgood hstate.later
        rcases hstate.verdict hgood₀ (hno hgood₀) with ⟨-, hclean⟩ | ⟨hbad, -⟩
        · exact hclean hleaks
        · exact hbad hgood

/-- **Inserts never leak exactly as long as handlers fail harmlessly.** In every run of `send_data` on a file with tags:
    no call has ever offered, or is about to offer, as an insert anything but characters written for the tag, inside
    the array, if and only if every handler that has failed so far did so with a number that the `u8_t` field turns into
    no more than what it has written. -/
theorem inserts_clean_iff {tr : List (Outcome × SendCall)} {o : Outcome} {i : Nat} {c : Ctx}
    (hssi : cfg.includeHttpdSsi = true) (hcontract : HandlerContract cfg insert) (hserve : Serving f i true c)
    (hrun : Run (sendStep cfg insert) ⟨c, true⟩ tr o) :
    (∀ oc ∈ tr, CallClean cfg insert oc.1 oc.2) ↔ Harmless cfg insert c.mem f (c.hs.tag, c.inserts) o.ctx :=
  (inserting_run hssi hcontract hserve hrun).2.2.1

end

/-! The handler that writes `hi`, and one that fails. -/

theorem soleEnv_contract (f : FsDataFile) : HandlerContract (soleConfig f false) soleEnv.insert := fun _ _ =>
  ⟨show 2 ≤ 192 by decide, show (2 : Int) ≤ (2 : Nat) by decide⟩

theorem inserts_clean_mid :
    ∃ tr o, Run (sendStep (soleConfig midTagFile false) soleEnv.insert) ⟨midTagStart, true⟩ tr o ∧
    o.ctx.closed = true ∧ ∀ oc ∈ tr, CallClean (soleConfig midTagFile false) soleEnv.insert oc.1 oc.2 := by
  have hex : ((runActions (sendStep (soleConfig midTagFile false) soleEnv.insert) ⟨midTagStart, true⟩
      [⟨soleEnv, 40⟩, ⟨soleEnv, 40⟩, ⟨soleEnv, 40⟩]).map fun o => o.ctx.closed) = some true := by decide +kernel
  obtain ⟨o, ho, hclosed⟩ := Option.map_eq_some_iff.mp hex
  obtain ⟨tr, hrun, -⟩ := Run.of_runActions ho
  refine ⟨tr, o, hrun, hclosed,
    (inserts_clean_iff rfl (soleEnv_contract midTagFile) (soleStart_serving ..) hrun).mpr ?_⟩
  exact atEach_of_forall fun past ch _ _ i _ hneg => absurd hneg (show ¬(2 : Int) < 0 by decide)

/-- It writes nothing and returns `-1`. -/
def failingInsert (_ _ : Nat) : InsertReply := ⟨[], -1⟩

/-- Where in `tag_insert` an offer ends. -/
def insertEnd : Ev → Option Nat
  | .tcpWrite (.insert idx) data _ => some (idx + data.length)
  | _ => none

/-- The array has 193 bytes, and the second call offers it up to byte 255. -/
theorem failed_insert_leaks :
    HandlerContract (soleConfig midTagFile false) failingInsert ∧ Serving midTagFile 0 true midTagStart ∧
    ∃ tr o, Run (sendStep (soleConfig midTagFile false) failingInsert) ⟨midTagStart, true⟩ tr o ∧
      o.ctx.log.filterMap insertEnd = [10, 255] ∧ 255 > (soleConfig midTagFile false).maxTagInsertLen + 1 ∧
      ¬∀ oc ∈ tr, CallClean (soleConfig midTagFile false) failingInsert oc.1 oc.2 := by
  refine ⟨fun _ _ => ⟨Nat.zero_le _, show (-1 : Int) ≤ (0 : Nat) by decide⟩, soleStart_serving .., ?_⟩
  have hfirst : ((sendStep (soleConfig midTagFile false) failingInsert ⟨midTagStart, true⟩ ⟨soleEnv, 40⟩).map fun o =>
      (o.ctx.hs.tag.state, o.ctx.hs.tag.insertLen)) = some (.sending, 255) := by decide +kernel
  have hboth : ((runActions (sendStep (soleConfig midTagFile false) failingInsert) ⟨midTagStart, true⟩
      [⟨soleEnv, 40⟩, ⟨soleEnv, 40⟩]).map fun o => o.ctx.log.filterMap insertEnd) = some [10, 255] := by decide +kernel
  obtain ⟨o₁, ho₁, hfetched⟩ := Option.map_eq_some_iff.mp hfirst
  obtain ⟨o, ho, hends⟩ := Option.map_eq_some_iff.mp hboth
  refine ⟨_, o, Run.executed ho, hends, by decide, fun hclean => ?_⟩
  -- the first call has fetched an insert of 255 bytes
  have hcall := (callClean_of_step ho₁).mp (hclean _ List.mem_cons_self)
  obtain ⟨hst, hlen⟩ := Prod.mk.inj hfetched
  have hmax := (hcall.len hst).2
  rw [hlen] at hmax
  exact absurd hmax (by decide)

end ThirdParty.Httpd
