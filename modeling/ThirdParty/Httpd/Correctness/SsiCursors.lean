import ThirdParty.Httpd.Correctness.Cursors
import ThirdParty.Httpd.Correctness.Log
import ThirdParty.Httpd.Correctness.Scanner
import ThirdParty.Httpd.Correctness.Ssi

/-!
# `Httpd.Correctness.SsiCursors` — the cursors of an SSI response, at every round of the loop

`SsiSent` has the two cursors into the file between `send_data` calls and rounds. Here the bounds on `tag_index` are
added, which has another meaning in each state of the parser (`TagBounds`), and the invariant is followed through all
the states in which the loop looks at its condition (`sendDataHeads`). Whatever the parser reads is then in range, and
so is what is passed to `tcp_write`.
-/

namespace ThirdParty.Httpd

open Lib Lwip

/-! ## The invariant -/

/-- `tag_index` in the states of the parser that look at it, and the terminator of a complete name. -/
structure TagBounds (cfg : Config) (t : TagScan) : Prop where
  leadin  : t.state = .leadin → t.index ≤ lenTagLeadIn
  found   : t.state = .found → t.index ≤ cfg.maxTagNameLen
  leadout : t.state = .leadout → t.index ≤ lenTagLeadOut - 1 ∧ t.nameLen ≤ cfg.maxTagNameLen ∧
              t.name[t.nameLen]? = some 0
  array   : t.name.length = cfg.maxTagNameLen + 1

/-- **The cursors of an SSI response** with file `f`. -/
structure SsiCursors (cfg : Config) (f : FsDataFile) (hs : HttpState) : Prop where
  file_ge   : f.data ≤ hs.file
  file_le   : hs.file ≤ hs.parsed
  parsed_le : hs.parsed ≤ f.data + f.len
  left      : hs.left = f.data + f.len - hs.file
  parseLeft : hs.parseLeft = f.data + f.len - hs.parsed
  sending   : hs.tag.state = .sending → hs.tagEnd = hs.parsed
  tag       : TagBounds cfg hs.tag

/-- What the parser looks at in a round: a byte of the file, a byte of the lead-in or the lead-out, a place in
    `tag_name`, and a name that ends inside the array. -/
structure ReadsInside (cfg : Config) (f : FsDataFile) (hs : HttpState) : Prop where
  byte    : f.data ≤ hs.parsed ∧ hs.parsed < f.data + f.len
  leadIn  : hs.tag.state = .leadin → hs.tag.index ≠ lenTagLeadIn → hs.tag.index < tagLeadIn.length
  slot    : hs.tag.state = .found → hs.tag.index < hs.tag.name.length
  leadOut : hs.tag.state = .leadout → hs.tag.index < tagLeadOut.length
  name    : hs.tag.state = .leadout → (cstr hs.tag.name).length < hs.tag.name.length

/-! ## The states of the loop -/

/-- In `ssiLoop`: every state in which its condition is looked at. -/
def loopHeads (cfg : Config) (env : Env) : Nat → Sending → List Sending
  | fuel, s => s ::
      if s.ctx.hs.parseLeft ≠ 0 ∧ s.err = .ok then
        match fuel with
        | 0 => []
        | fuel + 1 =>
            let (s', ret) := ssiRound cfg env s
            if ret then [] else loopHeads cfg env fuel s'
      else []

/-- In `sendSsi`. -/
def ssiHeads (cfg : Config) (env : Env) (fuel : Nat) (s : Sending) : List Sending :=
  let started := ssiStart env s
  if s.ctx.hs.parsed > s.ctx.hs.file ∧ started.ctx.tcpSndbuf env = 0 then [] else loopHeads cfg env fuel started

/-- In `sendData`. -/
def sendDataHeads (cfg : Config) (env : Env) (fuel : Nat) (c : Ctx) : List Sending :=
  (fileStart cfg env c).elim [] fun s =>
    if cfg.includeHttpdSsi ∧ s.ctx.hs.tagCheck then ssiHeads cfg env fuel s else []

/-! ## The tag parser keeps its bounds -/

section
variable {cfg : Config} {t : TagScan} {ch : Byte}

/-- In a state that does not look at `tag_index`. -/
theorem TagBounds.of_array (harray : t.name.length = cfg.maxTagNameLen + 1) (hne : t.state ≠ .leadin)
    (hne' : t.state ≠ .found) (hne'' : t.state ≠ .leadout) : TagBounds cfg t :=
  ⟨fun h => absurd h hne, fun h => absurd h hne', fun h => absurd h hne'', harray⟩

theorem TagBounds.settle (h : TagBounds cfg t) : TagBounds cfg (settle t) := by
  have harray := h.array
  unfold Httpd.settle
  split
  · split
    · exact ⟨fun hst => absurd hst (by simp), fun _ => Nat.zero_le _, fun hst => absurd hst (by simp), harray⟩
    · exact h
  · exact .of_array harray (by simp) (by simp) (by simp)
  · exact h

theorem TagBounds.tagNone (h : TagBounds cfg t) (ch : Byte) : TagBounds cfg (tagNone t ch) := by
  unfold Httpd.tagNone
  split
  · exact ⟨fun _ => show 1 ≤ lenTagLeadIn by decide, fun hst => absurd hst (by simp), fun hst => absurd hst (by simp),
      h.array⟩
  · exact h

theorem TagBounds.tagLeadin (h : TagBounds cfg t) (hst : t.state = .leadin) (ch : Byte) :
    TagBounds cfg (tagLeadin t ch).1 := by
  have hle := h.leadin hst
  unfold Httpd.tagLeadin
  split
  · exact ⟨fun hst => absurd hst (by simp), fun _ => Nat.zero_le _, fun hst => absurd hst (by simp), h.array⟩
  · next hne =>
      split
      · refine ⟨fun _ => ?_, fun hst' => ?_, fun hst' => ?_, h.array⟩
        · show toU8 ((t.index : Int) + 1) ≤ lenTagLeadIn
          unfold lenTagLeadIn toU8 at *
          omega
        · exact absurd (hst.symm.trans hst') (by decide)
        · exact absurd (hst.symm.trans hst') (by decide)
      · exact .of_array h.array (by simp) (by simp) (by simp)

theorem TagBounds.tagFound (h : TagBounds cfg t) (hst : t.state = .found) (ch : Byte) :
    TagBounds cfg (tagFound cfg t ch) := by
  have hle := h.found hst
  have harray := h.array
  unfold Httpd.tagFound
  split
  · exact h
  · split
    · split
      · exact .of_array harray (by simp) (by simp) (by simp)
      · -- the terminator goes behind the name, which leaves room for it
        refine ⟨fun hst => absurd hst (by simp), fun hst => absurd hst (by simp), fun _ => ⟨?_, hle, ?_⟩, ?_⟩
        · show (if _ then 1 else 0) ≤ lenTagLeadOut - 1
          split <;> decide
        · exact List.getElem?_set_self (by omega)
        · exact List.length_set.trans harray
    · split
      · next hlt =>
          refine ⟨fun hst' => ?_, fun _ => ?_, fun hst' => ?_, List.length_set.trans harray⟩
          · exact absurd (hst.symm.trans hst') (by decide)
          · show toU8 ((t.index : Int) + 1) ≤ cfg.maxTagNameLen
            unfold toU8
            omega
          · exact absurd (hst.symm.trans hst') (by decide)
      · exact .of_array harray (by simp) (by simp) (by simp)

theorem TagBounds.tagLeadout (h : TagBounds cfg t) (hst : t.state = .leadout) (ch : Byte) :
    TagBounds cfg (tagLeadout t ch).1 := by
  obtain ⟨hle, hname⟩ := h.leadout hst
  unfold Httpd.tagLeadout
  split
  · exact h
  · split
    · split
      · exact h
      · next hne =>
          refine ⟨fun hst' => ?_, fun hst' => ?_, fun _ => ⟨?_, hname⟩, h.array⟩
          · exact absurd (hst.symm.trans hst') (by decide)
          · exact absurd (hst.symm.trans hst') (by decide)
          · show toU8 ((t.index : Int) + 1) ≤ lenTagLeadOut - 1
            unfold lenTagLeadOut toU8 at *
            omega
    · exact .of_array h.array (by simp) (by simp) (by simp)

/-- **One byte.** -/
theorem TagBounds.parseByte (h : TagBounds cfg t) (ch : Byte) : TagBounds cfg (parseByte cfg t ch).1 := by
  have hsettle := h.settle
  unfold Httpd.parseByte
  cases hst : (Httpd.settle t).state with
  | none => simp only [hst]; exact hsettle.tagNone ch
  | leadin => simp only [hst]; exact hsettle.tagLeadin hst ch
  | found => simp only [hst]; exact hsettle.tagFound hst ch
  | leadout => simp only [hst]; exact hsettle.tagLeadout hst ch
  | sending => exact absurd hst (settle_state t)

end

/-- **The reads of a round** are in range. -/
theorem SsiCursors.readsInside {cfg : Config} {f : FsDataFile} {hs : HttpState} (h : SsiCursors cfg f hs)
    (hpl : hs.parseLeft ≠ 0) : ReadsInside cfg f hs := by
  have hge := h.file_ge
  have hle := h.file_le
  have hleft := h.parseLeft
  have harray := h.tag.array
  refine ⟨⟨by omega, by omega⟩, fun hst hne => ?_, fun hst => ?_, fun hst => ?_, fun hst => ?_⟩
  · have hidx := h.tag.leadin hst
    show hs.tag.index < 5
    unfold lenTagLeadIn at *
    omega
  · have hidx := h.tag.found hst
    omega
  · have hidx := (h.tag.leadout hst).1
    show hs.tag.index < 3
    unfold lenTagLeadOut at *
    omega
  · obtain ⟨-, hlen, hnul⟩ := h.tag.leadout hst
    have hcstr := cstr_length_le hnul
    omega

/-! ## What is offered -/

/-- File data is offered from the cursor `file` on, and no more than what is `left`. -/
def offersLeft (file left : Nat) : Ev → Bool
  | .tcpWrite (.file a) data _ => a = file ∧ data.length ≤ left
  | _ => true

section
variable {cfg : Config} {env : Env} {f : FsDataFile} {s : Sending}

/-- Closing a tag offers nothing. -/
theorem closed_adds (cfg : Config) (env : Env) (file left : Nat) (s : Sending) :
    Adds (offersLeft file left) s.ctx (s.closed cfg env).ctx := ⟨_, closed_log s, by simp [offersLeft]⟩

/-- The retry loop on file data. -/
theorem sendFile_offers (env : Env) (hlen : s.len ≤ s.ctx.hs.left) :
    Adds (offersLeft s.ctx.hs.file s.ctx.hs.left) s.ctx (s.sendFile env).ctx := by
  obtain ⟨err, n, c, failed, last, w, heq, hr⟩ :=
    tcpWriteRetry_spec env (.file s.ctx.hs.file) (bytesAt s.ctx.mem s.ctx.hs.file) s.len s.ctx
  have hadds : Adds (offersLeft s.ctx.hs.file s.ctx.hs.left) s.ctx c := by
    refine ⟨failed.map (refused _ _) ++ [.tcpWrite _ _ err], by rw [hr.ctx, List.append_assoc], fun e he => ?_⟩
    have hoffer : ∀ k ≤ s.len, ∀ err, offersLeft s.ctx.hs.file s.ctx.hs.left
        (.tcpWrite (.file s.ctx.hs.file) (bytesAt s.ctx.mem s.ctx.hs.file k) err) = true := by
      intro k hk err
      refine decide_eq_true ⟨rfl, ?_⟩
      rw [bytesAt_length]
      omega
    rcases List.mem_append.mp he with he | he
    · obtain ⟨k, hk, rfl⟩ := List.mem_map.mp he
      exact hoffer k (hr.failed_le k hk).2 .mem
    · rw [List.mem_singleton.mp he]
      exact hoffer last hr.last_le err
  unfold Sending.sendFile
  simp only [heq]
  split
  · exact hadds.trans (.of_log rfl)
  · exact hadds

/-- The parsed bytes. -/
theorem SsiCursors.sendParsed_offers (h : SsiCursors cfg f s.ctx.hs) (env : Env) :
    Adds (offersLeft s.ctx.hs.file s.ctx.hs.left) s.ctx (s.sendParsed env).ctx := by
  have hle := h.file_le
  have hparsed := h.parsed_le
  have hleft := h.left
  have hread : Adds (offersLeft s.ctx.hs.file s.ctx.hs.left) s.ctx (s.ctx.emit .pcbRead) := .emit _ rfl
  unfold Sending.sendParsed
  simp only
  generalize hoff : (if ((s.ctx.emit .pcbRead).tcpSndbuf env : Int) <
      ((s.ctx.emit .pcbRead).hs.parsed : Int) - (s.ctx.emit .pcbRead).hs.file
    then (s.ctx.emit .pcbRead).tcpSndbuf env
    else toU16 (((s.ctx.emit .pcbRead).hs.parsed : Int) - (s.ctx.emit .pcbRead).hs.file)) = offered
  rw [Ctx.emit_hs] at hoff
  have hlen : clampMss env offered ≤ s.ctx.hs.left := by
    have hclamp : clampMss env offered ≤ offered := by
      unfold clampMss toU16
      split <;> omega
    have hrest : offered ≤ s.ctx.hs.parsed - s.ctx.hs.file := by
      rw [← hoff]
      unfold toU16
      split <;> omega
    omega
  exact hread.trans (sendFile_offers (s := { s with ctx := _, len := _ }) env hlen)

/-- The bytes before a tag. -/
theorem SsiCursors.sendBeforeTag_offers (h : SsiCursors cfg f s.ctx.hs) (hst : s.ctx.hs.tag.state = .sending)
    (env : Env) :
    Adds (offersLeft s.ctx.hs.file s.ctx.hs.left) s.ctx (s.sendBeforeTag env).ctx := by
  have hle := h.file_le
  have hparsed := h.parsed_le
  have hleft := h.left
  have hend := h.sending hst
  unfold Sending.sendBeforeTag
  simp only
  generalize hoff : (if (s.len : Int) > (s.ctx.hs.tagEnd : Int) - s.ctx.hs.file
    then toU16 ((s.ctx.hs.tagEnd : Int) - s.ctx.hs.file) else s.len) = offered
  have hlen : offered ≤ s.ctx.hs.left := by
    rw [← hoff]
    unfold toU16
    split <;> omega
  exact sendFile_offers (s := { s with len := _ }) env hlen

/-- The insert is none of the file data. -/
theorem sendInsert_offers (file left : Nat) (env : Env) (s : Sending) :
    Adds (offersLeft file left) s.ctx (s.sendInsert env).1.ctx := by
  unfold Sending.sendInsert
  simp only
  split
  · generalize (if s.len > s.ctx.hs.tag.insertLen - s.ctx.hs.tag.index
      then s.ctx.hs.tag.insertLen - s.ctx.hs.tag.index else s.len) = offered
    obtain ⟨err, n, c, failed, last, w, heq, hr⟩ := tcpWriteRetry_spec env (.insert s.ctx.hs.tag.index)
      (bytesAt s.ctx.hs.tag.insert s.ctx.hs.tag.index) offered s.ctx
    have hadds : Adds (offersLeft file left) s.ctx c := by
      refine ⟨failed.map (refused _ _) ++ [.tcpWrite _ _ err], by rw [hr.ctx, List.append_assoc], fun e he => ?_⟩
      rcases List.mem_append.mp he with he | he
      · obtain ⟨k, -, rfl⟩ := List.mem_map.mp he
        rfl
      · rw [List.mem_singleton.mp he]
        rfl
    simp only [heq]
    split
    · exact hadds.trans (.of_log rfl)
    · exact hadds
  · exact .of_log rfl

end

/-! ## The pieces keep the invariant -/

section
variable {cfg : Config} {env : Env} {f : FsDataFile} {hs hs' : HttpState} {s : Sending}

theorem SsiCursors.left_lt (h : SsiCursors cfg f hs) : hs.left < 4294967296 := by
  have hlt := f.len_lt
  have hleft := h.left
  have hge := h.file_ge
  omega

/-- The invariant looks at nothing but these. -/
theorem SsiCursors.congr (h : SsiCursors cfg f hs)
    (hhs : hs'.file = hs.file ∧ hs'.parsed = hs.parsed ∧ hs'.left = hs.left ∧ hs'.parseLeft = hs.parseLeft ∧
      hs'.tagEnd = hs.tagEnd ∧ hs'.tag = hs.tag) : SsiCursors cfg f hs' := by
  obtain ⟨hfile, hparsed, hleft, hpl, hend, htag⟩ := hhs
  constructor
  · rw [hfile]; exact h.file_ge
  · rw [hfile, hparsed]; exact h.file_le
  · rw [hparsed]; exact h.parsed_le
  · rw [hleft, hfile]; exact h.left
  · rw [hpl, hparsed]; exact h.parseLeft
  · rw [htag, hend, hparsed]; exact h.sending
  · rw [htag]; exact h.tag

/-- Sending parsed bytes. -/
theorem SsiCursors.advance {n : Nat} (h : SsiCursors cfg f hs) (hn : n ≤ hs.parsed - hs.file) :
    SsiCursors cfg f (hs.advance n) := by
  have hge := h.file_ge
  have hle := h.file_le
  have hpar := h.parsed_le
  have hleft := h.left
  have hfile : (hs.advance n).file = hs.file + n := rfl
  have hparsed : (hs.advance n).parsed = hs.parsed := rfl
  have hsub : (hs.advance n).left = hs.left - n := toU32_sub (by omega) h.left_lt
  refine ⟨?_, ?_, hpar, ?_, h.parseLeft, h.sending, h.tag⟩
  · omega
  · omega
  · omega

/-- Another state of the parser. -/
theorem SsiCursors.setTag (h : SsiCursors cfg f hs) {t : TagScan} (ht : TagBounds cfg t)
    (hst : t.state = .sending → hs.tagEnd = hs.parsed) : SsiCursors cfg f { hs with tag := t } :=
  ⟨h.file_ge, h.file_le, h.parsed_le, h.left, h.parseLeft, hst, ht⟩

/-- Reading one byte. -/
theorem SsiCursors.consume (h : SsiCursors cfg f s.ctx.hs) (hpl : s.ctx.hs.parseLeft ≠ 0) {t : TagScan}
    (ht : TagBounds cfg t) (hst : t.state ≠ .sending) : SsiCursors cfg f (s.consume t).ctx.hs := by
  have hlt := f.len_lt
  have hge := h.file_ge
  have hle := h.file_le
  have hpar := h.parsed_le
  have hleft := h.parseLeft
  have hfile : (s.consume t).ctx.hs.file = s.ctx.hs.file := rfl
  have hparsed : (s.consume t).ctx.hs.parsed = s.ctx.hs.parsed + 1 := rfl
  have hsub : (s.consume t).ctx.hs.parseLeft = s.ctx.hs.parseLeft - 1 :=
    toU32_sub (Nat.one_le_iff_ne_zero.mpr hpl) (by omega)
  refine ⟨hge, ?_, ?_, h.left, ?_, fun hc => absurd hc hst, ht⟩
  · omega
  · omega
  · omega

/-- A tag is closed: the insert is fetched, and `tag_name` stays as it is. -/
theorem SsiCursors.closed (h : SsiCursors cfg f s.ctx.hs) (env : Env) : SsiCursors cfg f (s.closed cfg env).ctx.hs :=
  ⟨h.file_ge, h.file_le, h.parsed_le, h.left, h.parseLeft, fun _ => rfl,
    .of_array h.tag.array (fun hc => by cases hc) (fun hc => by cases hc) (fun hc => by cases hc)⟩

theorem SsiCursors.sendParsed (h : SsiCursors cfg f s.ctx.hs) (env : Env) :
    SsiCursors cfg f (s.sendParsed env).ctx.hs := by
  obtain ⟨n, hn, hsent, -⟩ := sendParsed_spec env s h.left_lt h.file_le
  rw [hsent.hs]
  exact h.advance hn

theorem SsiCursors.sendBeforeTag (h : SsiCursors cfg f s.ctx.hs) (hst : s.ctx.hs.tag.state = .sending) (env : Env) :
    SsiCursors cfg f (s.sendBeforeTag env).ctx.hs := by
  have hend := h.sending hst
  have hle := h.file_le
  obtain ⟨n, hn, -, hsent, -⟩ := sendBeforeTag_spec env s h.left_lt (by omega)
  rw [hsent.hs]
  exact h.advance (by omega)

theorem SsiCursors.sendInsert (h : SsiCursors cfg f s.ctx.hs) (hst : s.ctx.hs.tag.state = .sending) (env : Env) :
    SsiCursors cfg f (s.sendInsert env).1.ctx.hs := by
  have hbounds : ∀ {t : TagScan}, t.name = s.ctx.hs.tag.name → t.state = .sending ∨ t.state = .none →
      TagBounds cfg t := by
    intro t hname hstate
    refine .of_array (hname ▸ h.tag.array) ?_ ?_ ?_ <;> rcases hstate with hstate | hstate <;> simp [hstate]
  unfold Sending.sendInsert
  simp only
  split
  · generalize (if s.len > s.ctx.hs.tag.insertLen - s.ctx.hs.tag.index
      then s.ctx.hs.tag.insertLen - s.ctx.hs.tag.index else s.len) = offered
    obtain ⟨err, n, c, failed, last, w, heq, hr⟩ := tcpWriteRetry_spec env (.insert s.ctx.hs.tag.index)
      (bytesAt s.ctx.hs.tag.insert s.ctx.hs.tag.index) offered s.ctx
    simp only [heq]
    split
    · simp only [Ctx.setHs_hs, hr.hs]
      exact h.setTag (hbounds rfl (.inl hst)) fun _ => h.sending hst
    · rw [hr.hs]
      exact h
  · exact h.setTag (hbounds rfl (.inr rfl)) fun hc => absurd hc (by simp)

/-- **One round** keeps the cursors, and offers no more than is left. -/
theorem SsiCursors.round (h : SsiCursors cfg f s.ctx.hs) (hpl : s.ctx.hs.parseLeft ≠ 0) (env : Env) :
    SsiCursors cfg f (ssiRound cfg env s).1.ctx.hs ∧
    Adds (offersLeft s.ctx.hs.file s.ctx.hs.left) s.ctx (ssiRound cfg env s).1.ctx := by
  have hcase := ssiRound_cases cfg env s
  generalize ssiRound cfg env s = r at hcase
  cases hcase with
  | read hst hsettle hhit =>
      exact ⟨h.consume hpl (h.tag.parseByte _) (parseByte_state cfg _ _), .of_log rfl⟩
  | close hst hsettle hhit =>
      have hread := h.consume hpl (h.tag.parseByte _) (parseByte_state cfg s.ctx.hs.tag (s.ctx.mem s.ctx.hs.parsed))
      have hclosed := hread.closed env
      have hcall := closed_adds cfg env s.ctx.hs.file s.ctx.hs.left
        (s.consume (parseByte cfg s.ctx.hs.tag (s.ctx.mem s.ctx.hs.parsed)).1)
      rw [foundTag_eq]
      split
      · -- what is offered in front of the tag starts where `file` stood before the round
        exact ⟨hclosed.sendBeforeTag rfl env, Adds.trans hcall (hclosed.sendBeforeTag_offers rfl env)⟩
      · exact ⟨hclosed, hcall⟩
  | notice hst hend => exact ⟨h.setTag h.tag.settle fun hc => absurd hc (settle_state _), .of_log rfl⟩
  | before hst hfile => exact ⟨h.sendBeforeTag hst env, h.sendBeforeTag_offers hst env⟩
  | insert hst hfile hmore => exact ⟨h.sendInsert hst env, sendInsert_offers _ _ env s⟩
  | sent hst hfile hdone => exact ⟨h.setTag h.tag.settle fun hc => absurd hc (settle_state _), .of_log rfl⟩

end

/-! ## The loop and the call -/

/-- File data is offered from inside the file. -/
def offersInside (f : FsDataFile) : Ev → Bool
  | .tcpWrite (.file a) data _ => f.data ≤ a ∧ a + data.length ≤ f.data + f.len
  | _ => true

section
variable {cfg : Config} {f : FsDataFile} {s : Sending}

theorem SsiCursors.inside (h : SsiCursors cfg f s.ctx.hs) {c : Ctx}
    (hoffers : Adds (offersLeft s.ctx.hs.file s.ctx.hs.left) s.ctx c) : Adds (offersInside f) s.ctx c := by
  have hge := h.file_ge
  have hle := h.file_le
  have hpar := h.parsed_le
  have hleft := h.left
  refine hoffers.mono fun e he => ?_
  cases e with
  | tcpWrite src data err =>
      cases src with
      | file a =>
          obtain ⟨rfl, hlen⟩ := of_decide_eq_true he
          exact decide_eq_true ⟨hge, by omega⟩
      | _ => rfl
  | _ => rfl

theorem mem_loopHeads {env : Env} {s' : Sending} {fuel : Nat} (h : s' ∈ loopHeads cfg env fuel s) :
    s' = s ∨ ∃ n, fuel = n + 1 ∧ s.ctx.hs.parseLeft ≠ 0 ∧ s' ∈ loopHeads cfg env n (ssiRound cfg env s).1 := by
  unfold loopHeads at h
  rcases List.mem_cons.mp h with h | h
  · exact .inl h
  · split at h
    swap
    · exact absurd h List.not_mem_nil
    next hgo =>
    cases fuel with
    | zero => exact absurd h List.not_mem_nil
    | succ n =>
        simp only at h
        split at h
        · exact absurd h List.not_mem_nil
        · exact .inr ⟨n, rfl, hgo.1, h⟩

/-- **Every round** starts with the invariant. -/
theorem SsiCursors.heads (env : Env) : ∀ (fuel : Nat) (s : Sending), SsiCursors cfg f s.ctx.hs →
    ∀ s' ∈ loopHeads cfg env fuel s, SsiCursors cfg f s'.ctx.hs := by
  intro fuel
  induction fuel with
  | zero =>
      intro s h s' hs'
      rcases mem_loopHeads hs' with rfl | ⟨n, hn, -⟩
      · exact h
      · exact absurd hn (by omega)
  | succ fuel ih =>
      intro s h s' hs'
      rcases mem_loopHeads hs' with rfl | ⟨n, hn, hpl, hrest⟩
      · exact h
      · obtain rfl : fuel = n := by omega
        exact ih _ (h.round hpl env).1 s' hrest

/-- **The loop.** -/
theorem SsiCursors.loop (h : SsiCursors cfg f s.ctx.hs) (env : Env) (fuel : Nat) :
    SsiCursors cfg f (ssiLoop cfg env fuel s).1.ctx.hs ∧
        Adds (offersInside f) s.ctx (ssiLoop cfg env fuel s).1.ctx := by
  apply ssiLoop_keeps (I := fun s' => SsiCursors cfg f s'.ctx.hs ∧ Adds (offersInside f) s.ctx s'.ctx)
  · rintro s' ⟨hcur, hoffers⟩ hmore
    obtain ⟨hround, hleft⟩ := hcur.round hmore env
    exact ⟨hround, hoffers.trans (hcur.inside hleft)⟩
  · exact ⟨h, .refl _⟩

theorem flush_offers (file left : Nat) (s : Sending) : Adds (offersLeft file left) s.ctx s.flush := by
  unfold Sending.flush
  split
  · exact .emit _ rfl
  · exact .refl _

/-- What is parsed already is sent first. -/
theorem SsiCursors.start (h : SsiCursors cfg f s.ctx.hs) (env : Env) :
    SsiCursors cfg f (ssiStart env s).ctx.hs ∧
    Adds (offersLeft s.ctx.hs.file s.ctx.hs.left) s.ctx (ssiStart env s).ctx := by
  have hread : Adds (offersLeft s.ctx.hs.file s.ctx.hs.left) s.ctx (s.ctx.emit .pcbRead) := .emit _ rfl
  have hreads : SsiCursors cfg f
    ({ s with ctx := s.ctx.emit .pcbRead, len := s.ctx.tcpSndbuf env } : Sending).ctx.hs := h
  unfold ssiStart
  simp only
  split
  · exact ⟨hreads.sendParsed env, hread.trans (hreads.sendParsed_offers env)⟩
  · exact ⟨h, hread⟩

/-- What is parsed is sent last. -/
theorem SsiCursors.finish (h : SsiCursors cfg f s.ctx.hs) (env : Env) :
    SsiCursors cfg f (ssiFinish env s).hs ∧
    Adds (offersLeft s.ctx.hs.file s.ctx.hs.left) s.ctx (ssiFinish env s) := by
  unfold ssiFinish
  simp only
  rw [flush_hs]
  split
  · exact ⟨h.sendParsed env, (h.sendParsed_offers env).trans (flush_offers _ _ _)⟩
  · exact ⟨h, flush_offers _ _ _⟩

/-- **The SSI branch of `send_data`.** -/
theorem SsiCursors.sendSsi (h : SsiCursors cfg f s.ctx.hs) (env : Env) (fuel : Nat) :
    SsiCursors cfg f (sendSsi cfg env fuel s).ctx.hs ∧ Adds (offersInside f) s.ctx (sendSsi cfg env fuel s).ctx ∧
    ∀ s' ∈ ssiHeads cfg env fuel s, SsiCursors cfg f s'.ctx.hs := by
  obtain ⟨hstart, hleft⟩ := h.start env
  have hoffers := h.inside hleft
  unfold Httpd.sendSsi ssiHeads
  simp only
  split
  · refine ⟨?_, hoffers.trans (hstart.inside (flush_offers _ _ _)), fun s' hs' => absurd hs' List.not_mem_nil⟩
    rw [flush_hs]
    exact hstart
  · obtain ⟨hloop, hadds⟩ := hstart.loop env fuel
    have hheads := SsiCursors.heads env fuel _ hstart
    rcases ssiScan_ctx cfg env fuel (ssiStart env s) with hscan | hscan
    · obtain ⟨hfinish, hleft'⟩ := hloop.finish env
      rw [hscan]
      exact ⟨hfinish, (hoffers.trans hadds).trans (hloop.inside hleft'), hheads⟩
    · rw [hscan]
      exact ⟨hloop, hoffers.trans hadds, hheads⟩

end

/-! ## Runs -/

section
variable {cfg : Config} {insert : Nat → Nat → InsertReply} {f : FsDataFile} {i : Nat} {c c' : Ctx}

theorem Idles.offersInside (h : Idles c c') (f : FsDataFile) : Adds (offersInside f) c c' := by
  obtain ⟨es, hes, hall⟩ := h.log
  refine ⟨es, hes, fun e he => ?_⟩
  have hquiet := hall e he
  cases e with
  | tcpWrite src data err =>
      cases src with
      | file a => exact absurd hquiet (by simp [offersBody, Src.isBody, Src.isHeader])
      | _ => rfl
  | _ => rfl

theorem closeConn_offersInside (f : FsDataFile) (env : Env) (c : Ctx) : Adds (offersInside f) c (closeConn env c) := by
  refine (closeConn_adds env c).mono fun e he => ?_
  cases e <;> first | rfl | exact absurd he Bool.false_ne_true

/-- **One call of `send_data`** on an open file with tags. -/
theorem SsiCursors.sendData (h : SsiCursors cfg f c.hs) (hssi : cfg.includeHttpdSsi = true)
    (htag : c.hs.tagCheck = true) (hholds : HoldsFile i c) (env : Env) (fuel : Nat) :
    SsiCursors cfg f (sendData cfg env fuel c).ctx.hs ∧ Adds (offersInside f) c (sendData cfg env fuel c).ctx ∧
    ((sendData cfg env fuel c).ctx.closed = false →
      (sendData cfg env fuel c).ctx.hs.tagCheck = true ∧ HoldsFile i (sendData cfg env fuel c).ctx) ∧
    (∀ s, fileStart cfg env c = some s → SsiCursors cfg f s.ctx.hs) ∧
    ∀ s ∈ sendDataHeads cfg env fuel c, SsiCursors cfg f s.ctx.hs := by
  obtain ⟨c₁, hidle, hcases⟩ := fileStart_cases cfg env fuel hholds
  have hoffers := hidle.offersInside f
  have hholds₁ := hholds.of_idles hidle
  obtain ⟨b, n, pos, idx, hhs⟩ := hidle.hs
  have hcur : SsiCursors cfg f c₁.hs := h.congr (by rw [hhs]; exact ⟨rfl, rfl, rfl, rfl, rfl, rfl⟩)
  have htag₁ : c₁.hs.tagCheck = true := by rw [hhs]; exact htag
  unfold sendDataHeads
  rcases hcases with ⟨hnone, heq⟩ | ⟨hnone, -, heq⟩ | ⟨-, s, rfl, hsome, heq⟩
  · -- `send_data` returns before the file data
    rw [heq, hnone]
    exact ⟨hcur, hoffers, fun _ => ⟨htag₁, hholds₁⟩, fun s hs => absurd hs.symm (Option.some_ne_none s),
      fun s hs => absurd hs List.not_mem_nil⟩
  · -- the response was complete, and the connection is closed
    obtain ⟨hclosed, -, -, -, hhs'⟩ := closeConn_idle env c₁
    rw [heq, hnone]
    refine ⟨?_, ?_, fun hopen => absurd (hopen.symm.trans hclosed) Bool.false_ne_true,
      fun s hs => absurd hs.symm (Option.some_ne_none s), fun s hs => absurd hs List.not_mem_nil⟩
    · show SsiCursors cfg f (closeConn env (c₁.emit .endOfResponse)).hs
      rw [hhs']
      exact hcur.congr ⟨rfl, rfl, rfl, rfl, rfl, rfl⟩
    · exact hoffers.trans ((Adds.emit c₁ rfl).trans (closeConn_offersInside f env _))
  · -- the SSI branch is taken
    have hon : cfg.includeHttpdSsi = true ∧ s.ctx.hs.tagCheck = true := ⟨hssi, htag₁⟩
    have hsends := sendSsi_sends cfg env fuel s
    obtain ⟨hcur', hadds, hheads⟩ := hcur.sendSsi env fuel
    rw [heq, hsome, Option.elim_some, sendFileData, if_pos hon, if_pos hon]
    refine ⟨hcur', hoffers.trans hadds, fun _ => ⟨hsends.tagCheck.trans htag₁, hsends.handle.trans hholds₁.1, ?_⟩,
      fun s' hs' => ?_, hheads⟩
    · rw [hsends.fs]
      exact hholds₁.2
    · rw [← Option.some.inj hs']
      exact hcur

/-- The invariant of a run from `c₀`. -/
def CursorsInv (cfg : Config) (f : FsDataFile) (i : Nat) (c₀ : Ctx) (o : Outcome) : Prop :=
  SsiCursors cfg f o.ctx.hs ∧ Adds (offersInside f) c₀ o.ctx ∧
  (o.ctx.closed = false → o.ctx.hs.tagCheck = true ∧ HoldsFile i o.ctx)

/-- `http_recv` sets the cursors up. -/
theorem cursorsInv_start (hserve : Serving f i true c) (harray : c.hs.tag.name.length = cfg.maxTagNameLen + 1) :
    CursorsInv cfg f i c ⟨c, true⟩ := by
  obtain ⟨root, m, hfind, hopen⟩ := hserve.opened
  obtain ⟨hs, hdrs, pos, idx, hhs⟩ := hserve.setUp
  have hfile := fsFile_fsOpen hopen hfind
  have hlen : toU32 f.len = f.len := toU32_of_lt (Nat.lt_trans f.len_lt (by decide))
  have hst : c.hs.tag.state = .none := by rw [hhs]; rfl
  refine ⟨?_, .refl c, fun _ => ⟨by rw [hhs], hserve.holdsFile⟩⟩
  constructor
  · rw [hhs, hfile]; exact Nat.le_refl _
  · rw [hhs, hfile]; exact Nat.le_refl _
  · rw [hhs, hfile]; exact Nat.le_add_right _ _
  · rw [hhs, hfile]; simp [HttpState.serve, hlen]
  · rw [hhs, hfile]; simp [HttpState.serve, hlen]
  · intro hsending
    exact absurd (hst.symm.trans hsending) (by decide)
  · exact .of_array harray (by rw [hst]; decide) (by rw [hst]; decide) (by rw [hst]; decide)

theorem cursorsInv_step (hssi : cfg.includeHttpdSsi = true) {o o' : Outcome} {call : SendCall}
    (h : CursorsInv cfg f i c o) (hstep : sendStep cfg insert o call = some o') : CursorsInv cfg f i c o' := by
  obtain ⟨hopen, rfl⟩ := sendStep_spec hstep
  obtain ⟨hcur, hoffers, hheld⟩ := h
  obtain ⟨htag, hholds⟩ := hheld hopen
  obtain ⟨hcur', hadds, hheld', -, -⟩ := hcur.sendData hssi htag hholds { call.env with insert := insert } call.fuel
  exact ⟨hcur', hoffers.trans hadds, hheld'⟩

/-- **The cursors of an SSI response**, in every run of `send_data` on a file with tags (`harray` is the type of
    `tag_name`). The invariant holds at every call and return, and during a call, whatever lwIP answers to it, before
    the file data is sent and whenever the loop looks at its condition. What the parser reads in a round is in range;
    no piece of the call offers more of the file than is `left` then; and all that is ever offered of the file lies
    inside its data. -/
theorem ssi_cursors {tr : List (Outcome × SendCall)} {o : Outcome} (hssi : cfg.includeHttpdSsi = true)
    (hserve : Serving f i true c) (harray : c.hs.tag.name.length = cfg.maxTagNameLen + 1)
    (hrun : Run (sendStep cfg insert) ⟨c, true⟩ tr o) :
    (∀ o' ∈ visited tr, SsiCursors cfg f o'.ctx.hs) ∧ SsiCursors cfg f o.ctx.hs ∧
    (∀ oc ∈ tr, ∀ env fuel,
      (∀ s, fileStart cfg env oc.1.ctx = some s → SsiCursors cfg f s.ctx.hs ∧
        Adds (offersLeft s.ctx.hs.file s.ctx.hs.left) s.ctx (ssiStart env s).ctx) ∧
      ∀ s ∈ sendDataHeads cfg env fuel oc.1.ctx, SsiCursors cfg f s.ctx.hs ∧
        (s.ctx.hs.parseLeft ≠ 0 → ReadsInside cfg f s.ctx.hs ∧
          Adds (offersLeft s.ctx.hs.file s.ctx.hs.left) s.ctx (ssiRound cfg env s).1.ctx) ∧
        Adds (offersLeft s.ctx.hs.file s.ctx.hs.left) s.ctx (ssiFinish env s)) ∧
    ∀ a data err, .tcpWrite (.file a) data err ∈ o.ctx.log → f.data ≤ a ∧ a + data.length ≤ f.data + f.len := by
  have hstart := @cursorsInv_start cfg f i c hserve harray
  have htaken := hrun.invariant_taken hstart (cursorsInv_step hssi)
  obtain ⟨hcur, hoffers, -⟩ := hrun.invariant hstart (cursorsInv_step hssi)
  refine ⟨fun o' ho' => ?_, hcur, fun oc hoc env fuel => ?_, fun a data err hev => ?_⟩
  · obtain ⟨oc, hoc, rfl⟩ := List.mem_map.mp ho'
    exact (htaken oc hoc).1.1
  · obtain ⟨⟨hcur', -, hheld⟩, o', hstep⟩ := htaken oc hoc
    -- the call was made, so the connection was open
    obtain ⟨hopen, -⟩ := sendStep_spec hstep
    obtain ⟨htag, hholds⟩ := hheld hopen
    obtain ⟨-, -, -, hbegin, hheads⟩ := hcur'.sendData hssi htag hholds env fuel
    refine ⟨fun s hs => ⟨hbegin s hs, ((hbegin s hs).start env).2⟩, fun s hs => ?_⟩
    have hhead := hheads s hs
    exact ⟨hhead, fun hpl => ⟨hhead.readsInside hpl, (hhead.round hpl env).2⟩, (hhead.finish env).2⟩
  · obtain ⟨es, hes, hall⟩ := hoffers
    rw [hserve.log, List.nil_append] at hes
    have hinside := hall (.tcpWrite (.file a) data err) (by rw [← hes]; exact hev)
    exact of_decide_eq_true hinside

end

/-- Three calls send `a<!--#x-->hib` and close. -/
theorem ssi_cursors_mid :
    ∃ tr o, Run (sendStep (soleConfig midTagFile false) soleEnv.insert) ⟨midTagStart, true⟩ tr o ∧
      o.ctx.closed = true ∧ (∀ o' ∈ visited tr, SsiCursors (soleConfig midTagFile false) midTagFile o'.ctx.hs) ∧
      SsiCursors (soleConfig midTagFile false) midTagFile o.ctx.hs := by
  have hex : ((runActions (sendStep (soleConfig midTagFile false) soleEnv.insert) ⟨midTagStart, true⟩
      [⟨soleEnv, 40⟩, ⟨soleEnv, 40⟩, ⟨soleEnv, 40⟩]).map fun o => o.ctx.closed) = some true := by decide +kernel
  obtain ⟨o, ho, hclosed⟩ := Option.map_eq_some_iff.mp hex
  obtain ⟨tr, hrun, -⟩ := Run.of_runActions ho
  have hmain := ssi_cursors rfl
    (soleStart_serving midTagFile (lit "a<!--#x-->b") true (fun _ => []) numFileHdrStrings) rfl hrun
  exact ⟨tr, o, hrun, hclosed, hmain.1, hmain.2.1⟩

end ThirdParty.Httpd
