import ThirdParty.Httpd.Correctness.Cursors
import ThirdParty.Httpd.Correctness.Log
import ThirdParty.Httpd.Correctness.Scanner
import ThirdParty.Httpd.Correctness.Ssi

/-!
# `Httpd.Correctness.TagNames` — the tags for which `get_tag_insert` is called

The calls of `get_tag_insert` in the events of a run are for the names that the pass of the tag parser finds in the
parsed part of the file, however the file was cut into calls of `send_data`; so `Scanner` says when they are the
names of its markers.
-/

namespace ThirdParty.Httpd

open Lib Lwip

/-! ## The calls of `get_tag_insert` -/

/-- The name for which `get_tag_insert` is called. -/
def insertedName : Ev → Option (List Byte)
  | .getTagInsert name => some name
  | _ => none

def insertedNames (log : List Ev) : List (List Byte) := log.filterMap insertedName

@[simp] theorem insertedNames_append (es es' : List Ev) :
    insertedNames (es ++ es') = insertedNames es ++ insertedNames es' := List.filterMap_append

/-! ## Sending moves no parser cursor and calls for no tag -/

/-- The parser stands where it stood, and `get_tag_insert` was not called. -/
structure KeepsPlace (c c' : Ctx) : Prop where
  parsed : c'.hs.parsed = c.hs.parsed
  names  : insertedNames c'.log = insertedNames c.log

theorem KeepsPlace.refl (c : Ctx) : KeepsPlace c c := ⟨rfl, rfl⟩

theorem KeepsPlace.trans {c₁ c₂ c₃ : Ctx} (h : KeepsPlace c₁ c₂) (h' : KeepsPlace c₂ c₃) : KeepsPlace c₁ c₃ :=
  ⟨h'.parsed.trans h.parsed, h'.names.trans h.names⟩

theorem KeepsPlace.of_log {c c' : Ctx} {es : List Ev} (hparsed : c'.hs.parsed = c.hs.parsed)
    (hlog : c'.log = c.log ++ es) (hnone : ∀ e ∈ es, insertedName e = none) : KeepsPlace c c' := by
  refine ⟨hparsed, ?_⟩
  rw [hlog, insertedNames_append, show insertedNames es = [] from List.filterMap_eq_nil_iff.mpr hnone, List.append_nil]

theorem KeepsPlace.emit (c : Ctx) {e : Ev} (he : insertedName e = none) : KeepsPlace c (c.emit e) :=
  .of_log rfl rfl fun _ h => List.mem_singleton.mp h ▸ he

theorem KeepsPlace.setHs (c : Ctx) {hs : HttpState} (hparsed : hs.parsed = c.hs.parsed) : KeepsPlace c (c.setHs hs) :=
  ⟨hparsed, rfl⟩

theorem Retried.keepsPlace {src : Src} {data : Nat → List Byte} {len len' n w : Nat} {c c' : Ctx} {err : Err}
    {failed : List Nat} (h : Retried src data len c err len' c' failed n w) : KeepsPlace c c' := by
  have hlog : c'.log = c.log ++ (failed.map (refused src data) ++ [.tcpWrite src (data n) err]) := by
    rw [h.ctx, List.append_assoc]
  refine .of_log (by rw [h.hs]) hlog fun e he => ?_
  rcases List.mem_append.mp he with he | he
  · obtain ⟨k, -, rfl⟩ := List.mem_map.mp he
    rfl
  · obtain rfl := List.mem_singleton.mp he
    rfl

theorem Idles.keepsPlace {c c' : Ctx} (h : Idles c c') : KeepsPlace c c' := by
  obtain ⟨b, n, pos, idx, hhs⟩ := h.hs
  obtain ⟨es, hes, hall⟩ := h.log
  refine .of_log (by rw [hhs]) hes fun e he => ?_
  have hquiet := hall e he
  cases e with
  | getTagInsert name => exact Bool.noConfusion hquiet
  | _ => rfl

theorem closeConn_keepsPlace (env : Env) (c : Ctx) : KeepsPlace c (closeConn env (c.emit .endOfResponse)) := by
  obtain ⟨-, -, -, -, hhs⟩ := closeConn_idle env c
  obtain ⟨es, hes, hall⟩ := closeConn_adds env (c.emit .endOfResponse)
  refine (KeepsPlace.emit c rfl).trans (.of_log (by rw [hhs, Ctx.emit_hs]) hes fun e he => ?_)
  have hclose := hall e he
  cases e with
  | getTagInsert name => exact Bool.noConfusion hclose
  | _ => rfl

theorem sendFile_keepsPlace (env : Env) (s : Sending) : KeepsPlace s.ctx (s.sendFile env).ctx := by
  obtain ⟨err, n, c, failed, last, w, heq, hr⟩ :=
    tcpWriteRetry_spec env (.file s.ctx.hs.file) (bytesAt s.ctx.mem s.ctx.hs.file) s.len s.ctx
  unfold Sending.sendFile
  simp only [heq]
  split
  · exact hr.keepsPlace.trans (.setHs c rfl)
  · exact hr.keepsPlace

theorem sendInsert_keepsPlace (env : Env) (s : Sending) : KeepsPlace s.ctx (s.sendInsert env).1.ctx := by
  unfold Sending.sendInsert
  simp only
  split
  · generalize (if s.len > s.ctx.hs.tag.insertLen - s.ctx.hs.tag.index
      then s.ctx.hs.tag.insertLen - s.ctx.hs.tag.index else s.len) = offered
    obtain ⟨err, n, c, failed, last, w, heq, hr⟩ := tcpWriteRetry_spec env (.insert s.ctx.hs.tag.index)
      (bytesAt s.ctx.hs.tag.insert s.ctx.hs.tag.index) offered s.ctx
    simp only [heq]
    split
    · exact hr.keepsPlace.trans (.setHs c rfl)
    · exact hr.keepsPlace
  · exact .setHs s.ctx rfl

theorem sendParsed_keepsPlace (env : Env) (s : Sending) : KeepsPlace s.ctx (s.sendParsed env).ctx := by
  unfold Sending.sendParsed
  refine KeepsPlace.trans ?_ (sendFile_keepsPlace env _)
  exact .emit s.ctx rfl

theorem sendBeforeTag_keepsPlace (env : Env) (s : Sending) : KeepsPlace s.ctx (s.sendBeforeTag env).ctx := by
  unfold Sending.sendBeforeTag
  refine KeepsPlace.trans ?_ (sendFile_keepsPlace env _)
  exact .refl s.ctx

theorem ssiStart_keepsPlace (env : Env) (s : Sending) : KeepsPlace s.ctx (ssiStart env s).ctx := by
  unfold ssiStart
  simp only
  split
  · refine KeepsPlace.trans ?_ (sendParsed_keepsPlace env _)
    exact .emit s.ctx rfl
  · exact .emit s.ctx rfl

theorem flush_keepsPlace (s : Sending) : KeepsPlace s.ctx s.flush := by
  unfold Sending.flush
  split
  · exact .emit s.ctx rfl
  · exact .refl s.ctx

theorem ssiFinish_keepsPlace (env : Env) (s : Sending) : KeepsPlace s.ctx (ssiFinish env s) := by
  unfold ssiFinish
  simp only
  refine KeepsPlace.trans ?_ (flush_keepsPlace _)
  split
  · exact sendParsed_keepsPlace env s
  · exact .refl s.ctx

/-! ## The calls are for the names in the part that is parsed -/

/-- What the pass of the tag parser finds in the parsed part of the file. -/
def parsedNames (cfg : Config) (insert : Nat → Nat → InsertReply) (m : Mem) (f : FsDataFile) (q : TagScan × Nat)
    (c : Ctx) : List (List Byte) :=
  tagNames cfg insert q (bytesAt m f.data (c.hs.parsed - f.data))

/-- **The names are those of the parsed part.** -/
def NamesParsed (cfg : Config) (insert : Nat → Nat → InsertReply) (m : Mem) (f : FsDataFile) (q : TagScan × Nat)
    (c : Ctx) : Prop := insertedNames c.log = parsedNames cfg insert m f q c

section
variable {cfg : Config} {insert : Nat → Nat → InsertReply} {m : Mem} {f : FsDataFile} {q : TagScan × Nat}
  {c c' : Ctx} {env : Env} {s : Sending}

theorem KeepsPlace.namesParsed (hkeep : KeepsPlace c c') (h : NamesParsed cfg insert m f q c) :
    NamesParsed cfg insert m f q c' := by
  unfold NamesParsed parsedNames
  rw [hkeep.names, hkeep.parsed]
  exact h

/-- One byte more. -/
theorem parsedNames_next (h : SsiSent cfg insert m f q c) (hparsed : c'.hs.parsed = c.hs.parsed + 1) :
    parsedNames cfg insert m f q c' = parsedNames cfg insert m f q c ++
      if (parseByte cfg c.hs.tag (m c.hs.parsed)).2 then
        [cstr (parseByte cfg c.hs.tag (m c.hs.parsed)).1.name] else [] := by
  have hge := h.file_ge
  have hle := h.file_le
  have hlen : c.hs.parsed + 1 - f.data = (c.hs.parsed - f.data) + 1 := by omega
  have hat : f.data + (c.hs.parsed - f.data) = c.hs.parsed := by omega
  have hstep : ∀ q ch, (tagByte cfg insert q ch).1 = (scanByte cfg insert toU8 q ch).1 := fun _ _ => rfl
  have hstate : (transduce (tagByte cfg insert) q (bytesAt m f.data (c.hs.parsed - f.data))).1 =
      (transduce (scanByte cfg insert toU8) q (bytesAt m f.data (c.hs.parsed - f.data))).1 :=
    transduce_state_congr (tagByte cfg insert) q hstep _
  -- the pass is where the parser of the code is, once both are settled
  have hparse : parseByte cfg (scanned cfg insert m f q c).1.1 (m c.hs.parsed) =
      parseByte cfg c.hs.tag (m c.hs.parsed) := by
    rw [← parseByte_settle, ← @parseByte_settle cfg c.hs.tag, h.state]
  unfold scanned at hparse
  unfold parsedNames tagNames
  rw [hparsed, hlen, bytesAt_succ, hat, transduce_snoc, hstate]
  unfold tagByte
  rw [hparse]

/-- **One round**: `get_tag_insert` is called exactly if the byte that is read closes a tag. -/
theorem NamesParsed.round (env : Env) (h : NamesParsed cfg insert m f q s.ctx)
    (hsent : SsiSent cfg insert m f q s.ctx) :
    NamesParsed cfg insert m f q (ssiRound cfg env s).1.ctx := by
  have hcase := ssiRound_cases cfg env s
  generalize ssiRound cfg env s = r at hcase
  cases hcase with
  | read hst hsettle hhit =>
      rw [hsent.mem] at hhit ⊢
      have hnext := @parsedNames_next cfg insert m f q s.ctx
        (s.consume (parseByte cfg s.ctx.hs.tag (m s.ctx.hs.parsed)).1).ctx hsent rfl
      rw [hhit, if_neg Bool.false_ne_true, List.append_nil] at hnext
      exact Eq.trans h hnext.symm
  | close hst hsettle hhit =>
      rw [hsent.mem] at hhit ⊢
      generalize ht : (parseByte cfg s.ctx.hs.tag (m s.ctx.hs.parsed)).1 = t
      have hclosed : NamesParsed cfg insert m f q ((s.consume t).closed cfg env).ctx := by
        have hnext := @parsedNames_next cfg insert m f q s.ctx ((s.consume t).closed cfg env).ctx hsent rfl
        rw [hhit, if_pos rfl, ht] at hnext
        unfold NamesParsed at h ⊢
        rw [hnext, closed_log, insertedNames_append, ← h]
        rfl
      rw [foundTag_eq]
      split
      · exact (sendBeforeTag_keepsPlace env _).namesParsed hclosed
      · exact hclosed
  | notice hst hend => exact (KeepsPlace.setHs s.ctx rfl).namesParsed h
  | before hst hfile => exact (sendBeforeTag_keepsPlace env s).namesParsed h
  | insert hst hfile hmore => exact (sendInsert_keepsPlace env s).namesParsed h
  | sent hst hfile hdone => exact (KeepsPlace.setHs s.ctx rfl).namesParsed h

theorem NamesParsed.loop (henv : env.insert = insert) (fuel : Nat) (s : Sending)
    (h : SsiSent cfg insert m f q s.ctx ∧ NamesParsed cfg insert m f q s.ctx) :
    NamesParsed cfg insert m f q (ssiLoop cfg env fuel s).1.ctx := by
  refine (ssiLoop_keeps
    (I := fun s => SsiSent cfg insert m f q s.ctx ∧ NamesParsed cfg insert m f q s.ctx) ?_ fuel s h).2
  exact fun s h hmore => ⟨h.1.round hmore henv, h.2.round env h.1⟩

/-- **The SSI branch of a call.** -/
theorem NamesParsed.sendSsi (h : NamesParsed cfg insert m f q s.ctx) (henv : env.insert = insert)
    (hsent : SsiSent cfg insert m f q s.ctx) (fuel : Nat) :
    NamesParsed cfg insert m f q (sendSsi cfg env fuel s).ctx := by
  have hstart := (ssiStart_keepsPlace env s).namesParsed h
  unfold Httpd.sendSsi
  simp only
  split
  · exact (flush_keepsPlace _).namesParsed hstart
  · have hloop := NamesParsed.loop henv fuel (Httpd.ssiStart env s) ⟨hsent.ssiStart env, hstart⟩
    rcases ssiScan_ctx cfg env fuel (Httpd.ssiStart env s) with hscan | hscan
    · rw [hscan]
      exact (ssiFinish_keepsPlace env _).namesParsed hloop
    · rw [hscan]
      exact hloop

/-- **One call of `send_data`.** -/
theorem NamesParsed.step (hssi : cfg.includeHttpdSsi = true) {i : Nat} {o o' : Outcome} {call : SendCall}
    (h : NamesParsed cfg insert m f q o.ctx) (hinv : SsiInv cfg insert m f i q o)
    (hstep : sendStep cfg insert o call = some o') : NamesParsed cfg insert m f q o'.ctx := by
  obtain ⟨hopen, rfl⟩ := sendStep_spec hstep
  obtain ⟨hsent, hheld, -⟩ := hinv
  obtain ⟨htag, hholds⟩ := hheld hopen
  obtain ⟨c₁, hidle, hcases⟩ := sendData_cases cfg { call.env with insert := insert } call.fuel hholds
  obtain ⟨b, n, pos, idx, hhs⟩ := hidle.hs
  have h₁ := hidle.keepsPlace.namesParsed h
  rcases hcases with heq | ⟨-, heq⟩ | ⟨-, s, rfl, heq⟩
  · rw [heq]
    exact h₁
  · rw [heq]
    exact (closeConn_keepsPlace _ c₁).namesParsed h₁
  · have hon : cfg.includeHttpdSsi = true ∧ s.ctx.hs.tagCheck = true := ⟨hssi, by rw [hhs]; exact htag⟩
    rw [heq]
    unfold sendFileData
    rw [if_pos hon]
    exact h₁.sendSsi rfl (hsent.of_idles hidle) call.fuel

/-! ## Runs -/

/-- **The names of a run.** -/
theorem names_run {i : Nat} {tr : List (Outcome × SendCall)} {o : Outcome} (hssi : cfg.includeHttpdSsi = true)
    (hserve : Serving f i true c) (hrun : Run (sendStep cfg insert) ⟨c, true⟩ tr o) :
    insertedNames o.ctx.log = parsedNames cfg insert c.mem f (c.hs.tag, c.inserts) o.ctx := by
  induction hrun with
  | nil =>
      -- nothing is parsed yet
      obtain ⟨root, m, hfind, hopen⟩ := hserve.opened
      obtain ⟨hs, hdrs, pos, idx, hhs⟩ := hserve.setUp
      have hparsed : c.hs.parsed = f.data := by
        rw [hhs, fsFile_fsOpen hopen hfind]
        rfl
      unfold parsedNames
      rw [hparsed, Nat.sub_self, bytesAt_zero, hserve.log]
      rfl
  | @snoc tr s s' call hr hstep ih =>
      have hinv := hr.invariant (ssiInv_start cfg insert hserve) (ssiInv_step hssi)
      exact NamesParsed.step hssi ih hinv hstep

/-- **The tags found are the leftmost markers exactly if none is missed.** In every run of `send_data` on a file
    with tags: `get_tag_insert` has been called for the names of the leftmost markers of the part of the file parsed
    so far, in their order, if and only if no marker begins in a start of a marker that breaks off, the letter that
    breaks it off included, and no name has a NUL in it. When the connection is closed at the end of the file, that
    part is the file. -/
theorem tag_names_iff {i : Nat} {tr : List (Outcome × SendCall)} {o : Outcome} (hssi : cfg.includeHttpdSsi = true)
    (hmax : cfg.maxTagNameLen ≤ 255) (hserve : Serving f i true c)
    (harray : c.hs.tag.name.length = cfg.maxTagNameLen + 1) (hrun : Run (sendStep cfg insert) ⟨c, true⟩ tr o) :
    (Leftmost (IsMarker cfg) (bytesAt c.mem f.data (o.ctx.hs.parsed - f.data)) (insertedNames o.ctx.log) ↔
      NoneMissed (IsMarker cfg) [] (bytesAt c.mem f.data (o.ctx.hs.parsed - f.data)) ∧
      ∀ name, Occurs (IsMarker cfg) (bytesAt c.mem f.data (o.ctx.hs.parsed - f.data)) name → (0 : Byte) ∉ name) ∧
    (o.ctx.closed = true → o.ctx.hs.parsed - f.data = f.len) := by
  obtain ⟨hs, hdrs, pos, idx, hhs⟩ := hserve.setUp
  have hst : c.hs.tag.state = .none := by rw [hhs]; rfl
  obtain ⟨hsent, -, hclosed⟩ := hrun.invariant (ssiInv_start cfg insert hserve) (ssiInv_step hssi)
  refine ⟨?_, fun hc => ?_⟩
  · rw [names_run hssi hserve hrun]
    exact tagNames_leftmost_iff hmax harray hst _
  · have hleft := hclosed hc
    have hl := hsent.left
    have hle := hsent.file_le
    have hpar := hsent.parsed_le
    omega

end

/-! A tag that is found, and one that is not. -/

theorem mid_leftmost : Leftmost (IsMarker (soleConfig midTagFile false)) (lit "a<!--#x-->b") [lit "x"] := by
  refine .skip (fun h => absurd (take_of_begins h) (by decide)) ?_
  refine @Leftmost.take _ _ _ _ (lit "<!--#x-->") (lit "b") _ _ (by decide) ⟨[], [], by decide +kernel⟩ ?_
  exact .skip (fun h => absurd (take_of_begins h) (by decide +kernel)) .nil

theorem tag_names_mid :
    ∃ tr o, Run (sendStep (soleConfig midTagFile false) soleEnv.insert) ⟨midTagStart, true⟩ tr o ∧
      o.ctx.closed = true ∧ insertedNames o.ctx.log = [lit "x"] ∧
      NoneMissed (IsMarker (soleConfig midTagFile false)) [] (lit "a<!--#x-->b") := by
  have hex : ((runActions (sendStep (soleConfig midTagFile false) soleEnv.insert) ⟨midTagStart, true⟩
      [⟨soleEnv, 40⟩, ⟨soleEnv, 40⟩, ⟨soleEnv, 40⟩]).map fun o => (o.ctx.closed, insertedNames o.ctx.log)) =
        some (true, [lit "x"]) := by decide +kernel
  obtain ⟨o, ho, heq⟩ := Option.map_eq_some_iff.mp hex
  obtain ⟨hclosed, hnames⟩ := Prod.mk.inj heq
  have hrun := Run.executed ho
  have hserve : Serving midTagFile 0 true midTagStart := soleStart_serving ..
  obtain ⟨hiff, hend⟩ := tag_names_iff rfl (by decide) hserve (by decide) hrun
  have hfile : bytesAt midTagStart.mem midTagFile.data (o.ctx.hs.parsed - midTagFile.data) = lit "a<!--#x-->b" := by
    rw [hend hclosed]
    decide +kernel
  rw [hfile, hnames] at hiff
  exact ⟨_, o, hrun, hclosed, hnames, (hiff.mp mid_leftmost).1⟩

theorem missedTagFile_len_lt : 11 < 2147483648 := by decide

def missedTagFile : FsDataFile := ⟨lit "/missed.shtml", 4096, 11, missedTagFile_len_lt⟩

def missedTagStart : Ctx := soleStart missedTagFile (lit "<<!--#x-->b") true (fun _ => []) numFileHdrStrings

/-- **The letter that breaks off a start is not looked at again**: the second `<` breaks off the first, and the
    marker that begins with it is not found. -/
theorem broken_start_missed :
    Serving missedTagFile 0 true missedTagStart ∧
    ∃ tr o, Run (sendStep (soleConfig missedTagFile false) soleEnv.insert) ⟨missedTagStart, true⟩ tr o ∧
      o.ctx.closed = true ∧ insertedNames o.ctx.log = [] ∧
      bytesAt missedTagStart.mem missedTagFile.data missedTagFile.len = lit "<<!--#x-->b" ∧
      Leftmost (IsMarker (soleConfig missedTagFile false)) (lit "<<!--#x-->b") [lit "x"] ∧
      ¬Leftmost (IsMarker (soleConfig missedTagFile false)) (lit "<<!--#x-->b") (insertedNames o.ctx.log) := by
  refine ⟨soleStart_serving .., ?_⟩
  have hex : ((runActions (sendStep (soleConfig missedTagFile false) soleEnv.insert) ⟨missedTagStart, true⟩
      [⟨soleEnv, 40⟩, ⟨soleEnv, 40⟩]).map fun o => (o.ctx.closed, insertedNames o.ctx.log)) =
        some (true, []) := by decide +kernel
  have hleft : Leftmost (IsMarker (soleConfig missedTagFile false)) (lit "<<!--#x-->b") [lit "x"] := by
    refine .skip (fun h => absurd (take_of_begins h) (by decide)) ?_
    refine @Leftmost.take _ _ _ _ (lit "<!--#x-->") (lit "b") _ _ (by decide) ⟨[], [], by decide +kernel⟩ ?_
    exact .skip (fun h => absurd (take_of_begins h) (by decide +kernel)) .nil
  obtain ⟨o, ho, heq⟩ := Option.map_eq_some_iff.mp hex
  obtain ⟨hclosed, hnames⟩ := Prod.mk.inj heq
  refine ⟨_, o, Run.executed ho, hclosed, hnames, by decide, hleft, fun hnone => ?_⟩
  rw [hnames] at hnone
  exact absurd (hnone.unique (isMarker_marking _) hleft) (by simp)

end ThirdParty.Httpd
