import ThirdParty.Httpd.Reference
import ThirdParty.Httpd.SendData

/-!
# `Httpd.TagParser` — the tag parser by itself

What the parser does with one byte of a file depends on its own state only, neither on what TCP takes nor on the
inserts: `parseByte`. A round of the SSI loop in `send_data` either is one such step, or notices what the parser
already knows, or sends: `Round` names the six ways.
-/

namespace ThirdParty.Httpd

open Lib Lwip

/-- One byte of a file, and whether it closes a tag, whose name is then in `tag_name`. -/
def parseByte (cfg : Config) (t : TagScan) (ch : Byte) : TagScan × Bool :=
  let t := settle t
  match t.state with
  | .none    => (tagNone t ch, false)
  | .leadin  => ((tagLeadin t ch).1, false)
  | .found   => (tagFound cfg t ch, false)
  | .leadout => tagLeadout t ch
  | .sending => (t, false)

/-- From the parser state `t` on, a tag is closed before the last byte of the block. -/
def closesEarly (cfg : Config) : TagScan → List Byte → Bool
  | _, []         => false
  | t, ch :: rest =>
      let (t, hit) := parseByte cfg t ch
      if hit then !rest.isEmpty else closesEarly cfg t rest

theorem settle_of_ne {t : TagScan} (h : t.state ≠ .sending) (h' : ¬(t.state = .leadin ∧ t.index = lenTagLeadIn)) :
    settle t = t := by
  unfold settle
  split
  · next hst => rw [if_neg fun hi => h' ⟨hst, hi⟩]
  · next hst => exact absurd hst h
  · rfl

theorem settle_state (t : TagScan) : (settle t).state ≠ .sending := by
  unfold settle
  split
  · split
    · exact fun hc => by cases hc
    · next hst _ => rw [hst]; exact fun hc => by cases hc
  · exact fun hc => by cases hc
  · next h => exact h

/-- Nothing is left to be noticed. -/
theorem settle_settle (t : TagScan) : settle (settle t) = settle t := by
  refine settle_of_ne (settle_state t) fun hlead => ?_
  unfold settle at hlead
  split at hlead
  · split at hlead
    · exact absurd hlead.1 (by simp)
    · next hne => exact hne hlead.2
  · exact absurd hlead.1 (by simp)
  · next h _ => exact h hlead.1

section
variable {cfg : Config} {env : Env} {t : TagScan} {ch : Byte} {block : List Byte}

theorem parseByte_settle : parseByte cfg (settle t) ch = parseByte cfg t ch := by
  unfold parseByte
  rw [settle_settle]

theorem closesEarly_settle : closesEarly cfg (settle t) block = closesEarly cfg t block := by
  cases block with
  | nil => rfl
  | cons ch block =>
      unfold closesEarly
      rw [parseByte_settle]

/-! ## The arms of the parser -/

theorem tagNone_state (h : t.state = .none) (ch : Byte) : (tagNone t ch).state ≠ .sending := by
  unfold tagNone
  split
  · exact fun hc => by cases hc
  · rw [h]; exact fun hc => by cases hc

theorem tagLeadin_state (h : t.state = .leadin) (ch : Byte) : (tagLeadin t ch).1.state ≠ .sending := by
  unfold tagLeadin
  split
  · exact fun hc => by cases hc
  · split
    · show t.state ≠ .sending
      rw [h]; exact fun hc => by cases hc
    · exact fun hc => by cases hc

theorem tagFound_state (h : t.state = .found) (ch : Byte) : (tagFound cfg t ch).state ≠ .sending := by
  have hne : t.state ≠ .sending := by rw [h]; exact fun hc => by cases hc
  unfold tagFound
  split
  · exact hne
  · split
    · split <;> exact fun hc => by cases hc
    · split
      · exact hne
      · exact fun hc => by cases hc

theorem tagLeadout_state (h : t.state = .leadout) (ch : Byte) : (tagLeadout t ch).1.state ≠ .sending := by
  have hne : t.state ≠ .sending := by rw [h]; exact fun hc => by cases hc
  unfold tagLeadout
  split
  · exact hne
  · split
    · split <;> exact hne
    · exact fun hc => by cases hc

/-- The parser never gets to the sending state on its own. -/
theorem parseByte_state (cfg : Config) (t : TagScan) (ch : Byte) : (parseByte cfg t ch).1.state ≠ .sending := by
  unfold parseByte
  cases hst : (settle t).state with
  | none => simp only [hst]; exact tagNone_state hst ch
  | leadin => simp only [hst]; exact tagLeadin_state hst ch
  | found => simp only [hst]; exact tagFound_state hst ch
  | leadout => simp only [hst]; exact tagLeadout_state hst ch
  | sending => exact absurd hst (settle_state t)

/-- A byte closes a tag only where the parser is looking for the lead-out. -/
theorem state_of_hit (h : (parseByte cfg t ch).2 = true) : (settle t).state = .leadout := by
  unfold parseByte at h
  cases hst : (settle t).state with
  | leadout => rfl
  | _ => simp [hst] at h

/-- The pass over a byte that does not close a tag … -/
theorem scanByte_of_miss {insert : Nat → Nat → InsertReply} (cut : Int → Nat) (k : Nat)
    (h : (parseByte cfg t ch).2 = false) :
    scanByte cfg insert cut (t, k) ch = (((parseByte cfg t ch).1, k), [ch]) := by
  unfold parseByte at h
  unfold scanByte parseByte
  cases hst : (settle t).state with
  | leadout => simp only [hst] at h ⊢; simp [h]
  | _ => simp only [hst]

/-- … and over one that does. -/
theorem scanByte_of_hit {insert : Nat → Nat → InsertReply} (cut : Int → Nat) (k : Nat)
    (h : (parseByte cfg t ch).2 = true) :
    scanByte cfg insert cut (t, k) ch =
      (({ (getTagInsert cfg insert (parseByte cfg t ch).1 k).1 with index := 0, state := .sending },
          (getTagInsert cfg insert (parseByte cfg t ch).1 k).2),
        ch :: insertBytes cfg insert cut (parseByte cfg t ch).1 k) := by
  have hst := state_of_hit h
  unfold parseByte at h ⊢
  unfold scanByte
  simp only [hst] at h ⊢
  simp [h]

/-! ## The rounds of the SSI loop -/

/-- **What one round does**: it reads a byte, which may close a tag, it notices the end of the lead-in or of the insert,
    or it sends file data before the tag or the insert. -/
inductive Round (cfg : Config) (env : Env) (s : Sending) : Sending × Bool → Prop where
  | read (hst : s.ctx.hs.tag.state ≠ .sending) (hsettle : settle s.ctx.hs.tag = s.ctx.hs.tag)
      (hhit : (parseByte cfg s.ctx.hs.tag (s.ctx.mem s.ctx.hs.parsed)).2 = false) :
      Round cfg env s (s.consume (parseByte cfg s.ctx.hs.tag (s.ctx.mem s.ctx.hs.parsed)).1, false)
  | close (hst : s.ctx.hs.tag.state = .leadout) (hsettle : settle s.ctx.hs.tag = s.ctx.hs.tag)
      (hhit : (parseByte cfg s.ctx.hs.tag (s.ctx.mem s.ctx.hs.parsed)).2 = true) :
      Round cfg env s
        ((s.consume (parseByte cfg s.ctx.hs.tag (s.ctx.mem s.ctx.hs.parsed)).1).foundTag cfg env, false)
  | notice (hst : s.ctx.hs.tag.state = .leadin) (hend : s.ctx.hs.tag.index = lenTagLeadIn) :
      Round cfg env s (s.setTag (settle s.ctx.hs.tag), false)
  | before (hst : s.ctx.hs.tag.state = .sending) (hfile : s.ctx.hs.tagEnd > s.ctx.hs.file) :
      Round cfg env s (s.sendBeforeTag env, false)
  | insert (hst : s.ctx.hs.tag.state = .sending) (hfile : ¬s.ctx.hs.tagEnd > s.ctx.hs.file)
      (hmore : s.ctx.hs.tag.index < s.ctx.hs.tag.insertLen) : Round cfg env s (s.sendInsert env)
  | sent (hst : s.ctx.hs.tag.state = .sending) (hfile : ¬s.ctx.hs.tagEnd > s.ctx.hs.file)
      (hdone : ¬s.ctx.hs.tag.index < s.ctx.hs.tag.insertLen) :
      Round cfg env s (s.setTag (settle s.ctx.hs.tag), false)

/-- **Every round is one of the six.** -/
theorem ssiRound_cases (cfg : Config) (env : Env) (s : Sending) : Round cfg env s (ssiRound cfg env s) := by
  have hne : ∀ {st : TagCheckState}, st ≠ .sending → s.ctx.hs.tag.state = st → s.ctx.hs.tag.state ≠ .sending :=
    fun h heq => heq ▸ h
  cases hst : s.ctx.hs.tag.state with
  | none =>
      have hns := hne (by decide) hst
      have hsettle : settle s.ctx.hs.tag = s.ctx.hs.tag := settle_of_ne hns fun hc => by rw [hst] at hc; cases hc.1
      have hparse : parseByte cfg s.ctx.hs.tag (s.ctx.mem s.ctx.hs.parsed) =
          (tagNone s.ctx.hs.tag (s.ctx.mem s.ctx.hs.parsed), false) := by simp only [parseByte, hsettle, hst]
      have hround := @Round.read cfg env s hns hsettle (by rw [hparse])
      rw [hparse] at hround
      simpa only [ssiRound, hst] using hround
  | leadin =>
      have hns := hne (by decide) hst
      by_cases hend : s.ctx.hs.tag.index = lenTagLeadIn
      · have hround := @Round.notice cfg env s hst hend
        simpa only [ssiRound, hst, tagLeadin, settle, if_pos hend, Bool.false_eq_true, if_false] using hround
      · have hsettle : settle s.ctx.hs.tag = s.ctx.hs.tag := settle_of_ne hns fun hc => hend hc.2
        have hparse : parseByte cfg s.ctx.hs.tag (s.ctx.mem s.ctx.hs.parsed) =
            ((tagLeadin s.ctx.hs.tag (s.ctx.mem s.ctx.hs.parsed)).1, false) := by simp only [parseByte, hsettle, hst]
        have hused : (tagLeadin s.ctx.hs.tag (s.ctx.mem s.ctx.hs.parsed)).2 = true := by
          unfold tagLeadin
          rw [if_neg hend]
          split <;> rfl
        have hround := @Round.read cfg env s hns hsettle (by rw [hparse])
        rw [hparse] at hround
        simpa only [ssiRound, hst, if_pos hused] using hround
  | found =>
      have hns := hne (by decide) hst
      have hsettle : settle s.ctx.hs.tag = s.ctx.hs.tag := settle_of_ne hns fun hc => by rw [hst] at hc; cases hc.1
      have hparse : parseByte cfg s.ctx.hs.tag (s.ctx.mem s.ctx.hs.parsed) =
          (tagFound cfg s.ctx.hs.tag (s.ctx.mem s.ctx.hs.parsed), false) := by simp only [parseByte, hsettle, hst]
      have hround := @Round.read cfg env s hns hsettle (by rw [hparse])
      rw [hparse] at hround
      simpa only [ssiRound, hst] using hround
  | leadout =>
      have hns := hne (by decide) hst
      have hsettle : settle s.ctx.hs.tag = s.ctx.hs.tag := settle_of_ne hns fun hc => by rw [hst] at hc; cases hc.1
      have hparse : parseByte cfg s.ctx.hs.tag (s.ctx.mem s.ctx.hs.parsed) =
          tagLeadout s.ctx.hs.tag (s.ctx.mem s.ctx.hs.parsed) := by simp only [parseByte, hsettle, hst]
      cases hhit : (tagLeadout s.ctx.hs.tag (s.ctx.mem s.ctx.hs.parsed)).2 with
      | true =>
          have hround := @Round.close cfg env s hst hsettle (by rw [hparse]; exact hhit)
          rw [hparse] at hround
          simpa only [ssiRound, hst, hhit, if_true] using hround
      | false =>
          have hround := @Round.read cfg env s hns hsettle (by rw [hparse]; exact hhit)
          rw [hparse] at hround
          simpa only [ssiRound, hst, hhit, Bool.false_eq_true, if_false] using hround
  | sending =>
      by_cases hfile : s.ctx.hs.tagEnd > s.ctx.hs.file
      · have hround := @Round.before cfg env s hst hfile
        simpa only [ssiRound, hst, if_pos hfile] using hround
      · by_cases hmore : s.ctx.hs.tag.index < s.ctx.hs.tag.insertLen
        · have hround := @Round.insert cfg env s hst hfile hmore
          simpa only [ssiRound, hst, if_neg hfile] using hround
        · have hround := @Round.sent cfg env s hst hfile hmore
          simpa only [ssiRound, hst, if_neg hfile, Sending.sendInsert, if_neg hmore, settle] using hround

end

end ThirdParty.Httpd
