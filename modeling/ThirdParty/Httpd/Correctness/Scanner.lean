import ThirdParty.Httpd.Markers
import ThirdParty.Httpd.TagParser

/-!
# `Httpd.Correctness.Scanner` — the tag parser reads a text as `Scan` does

`Tracks` relates a parser state to the start of a marker that the parser holds. A byte that does not fit is consumed
together with the start it breaks off, neither is looked at again: this is `Scan`, and `tagNames_leftmost_iff` says
when it finds the leftmost markers.
-/

namespace ThirdParty.Httpd

open Lib Lwip

/-! ## The parser reads like `Scan` -/

/-- **The start of a marker that the parser holds** in state `t`. -/
inductive Tracks (cfg : Config) (t : TagScan) : List Byte → Prop where
  | none (hst : t.state = .none ∨ t.state = .sending) : Tracks cfg t []
  | leadin (hst : t.state = .leadin) (hle : t.index ≤ lenTagLeadIn) : Tracks cfg t (tagLeadIn.take t.index)
  | found {ws name : List Byte} (hst : t.state = .found) (hws : ∀ ch ∈ ws, isTagSpace ch = true)
      (hname : ∀ ch ∈ name, isNameChar ch = true) (hle : name.length ≤ cfg.maxTagNameLen)
      (hidx : t.index = name.length) (hbuf : t.name.take name.length = name) : Tracks cfg t (tagLeadIn ++ (ws ++ name))
  | leadout {ws name ws' : List Byte} (hst : t.state = .leadout) (hws : ∀ ch ∈ ws, isTagSpace ch = true)
      (hname : ∀ ch ∈ name, isNameChar ch = true) (hne : name ≠ []) (hle : name.length ≤ cfg.maxTagNameLen)
      (hws' : ∀ ch ∈ ws', isTagSpace ch = true) (hidx : t.index < lenTagLeadOut) (hend : ws' = [] → 1 ≤ t.index)
      (hbuf : cstr t.name = cstr name) :
      Tracks cfg t (tagLeadIn ++ (ws ++ (name ++ (ws' ++ tagLeadOut.take t.index))))

/-- Reading on: the parser holds one letter more, or no marker begins with what it has read. -/
inductive ReadsOn (cfg : Config) (t : TagScan) (u : List Byte) (ch : Byte) : Prop where
  | on {u' : List Byte} (heq : u ++ [ch] = u') (hstart : Start (IsMarker cfg) u') (htracks : Tracks cfg t u')
  | breaks (hno : ∀ v b, ¬IsMarker cfg (u ++ ch :: v) b) (htracks : Tracks cfg t [])

section
variable {cfg : Config} {t : TagScan} {u ws ws' name : List Byte} {ch : Byte}

theorem Tracks.settle (h : Tracks cfg t u) : Tracks cfg (settle t) u := by
  unfold Httpd.settle
  cases h with
  | none hst =>
      rcases hst with hst | hst
      · rw [hst]; exact .none (.inl hst)
      · rw [hst]; exact .none (.inl rfl)
  | leadin hst hle =>
      simp only [hst]
      split
      · next hend =>
          rw [hend]
          exact @Tracks.found cfg _ [] [] rfl (by simp) (by simp) (Nat.zero_le _) rfl rfl
      · exact .leadin hst hle
  | found hst hws hname hle hidx hbuf => rw [hst]; exact .found hst hws hname hle hidx hbuf
  | leadout hst hws hname hne hle hws' hidx hend hbuf =>
      rw [hst]; exact .leadout hst hws hname hne hle hws' hidx hend hbuf

theorem take_append_getD {l : List Byte} {k : Nat} (h : k < l.length) : l.take k ++ [l.getD k 0] = l.take (k + 1) := by
  rw [List.take_add_one, List.getD_eq_getElem?_getD, List.getElem?_eq_getElem h]
  rfl

theorem tagNone_readsOn (hpos : 0 < cfg.maxTagNameLen) (hst : t.state = .none) (ch : Byte) :
    ReadsOn cfg (tagNone t ch) [] ch := by
  unfold tagNone
  split
  · next hch =>
      subst hch
      exact .on rfl (start_leadIn hpos 1)
        (Tracks.leadin (t := { t with state := .leadin, index := 1 }) rfl (show 1 ≤ 5 by decide))
  · next hch => exact .breaks (no_leadIn (k := 0) (by decide) hch) (.none (.inl hst))

theorem tagLeadin_readsOn (hpos : 0 < cfg.maxTagNameLen) (hst : t.state = .leadin) (hlt : t.index < lenTagLeadIn)
    (ch : Byte) : ReadsOn cfg (tagLeadin t ch).1 (tagLeadIn.take t.index) ch := by
  unfold tagLeadin
  rw [if_neg (Nat.ne_of_lt hlt)]
  split
  · next hch =>
      have htake : tagLeadIn.take t.index ++ [ch] = tagLeadIn.take (t.index + 1) := by
        rw [hch]
        exact take_append_getD (l := tagLeadIn) hlt
      have hidx : toU8 ((t.index : Int) + 1) = t.index + 1 := by
        unfold lenTagLeadIn at hlt
        unfold toU8
        omega
      refine .on htake (start_leadIn hpos _) ?_
      have htracks := @Tracks.leadin cfg { t with index := t.index + 1 } hst hlt
      simpa only [hidx] using htracks
  · next hch => exact .breaks (no_leadIn hlt hch) (.none (.inl rfl))

/-- The array after one character more of the name. -/
theorem take_set_succ {l : List Byte} {n : Nat} (h : n < l.length) (ch : Byte) :
    (l.set n ch).take (n + 1) = l.take n ++ [ch] := by
  rw [List.take_add_one, List.take_set_of_le (Nat.le_refl n), List.getElem?_set_self h]
  rfl

/-- The array once the name is terminated. -/
theorem cstr_terminated {l : List Byte} (hbuf : l.take name.length = name) (hlt : name.length < l.length) :
    cstr (l.set name.length 0) = cstr name := by
  have hsplit : l.set name.length 0 = name ++ 0 :: l.drop (name.length + 1) := by
    rw [List.set_eq_take_append_cons_drop, if_pos hlt, hbuf]
  rw [hsplit]
  unfold cstr
  rw [List.takeWhile_append]
  split
  · next hall =>
      have hself := (List.takeWhile_prefix (l := name) (· ≠ 0)).eq_of_length hall
      rw [List.takeWhile_cons_of_neg (by simp), List.append_nil, hself]
  · rfl

/-- The first `-` of the lead-out or a space ends the name. -/
theorem nameEnds_readsOn (hws : ∀ ch ∈ ws, isTagSpace ch = true) (hname : ∀ ch ∈ name, isNameChar ch = true)
    (hne : name ≠ []) (hle : name.length ≤ cfg.maxTagNameLen) (hlen : name.length < t.name.length)
    (hbuf : t.name.take name.length = name) (hends : ch = 45 ∨ isTagSpace ch = true) (n : Nat) :
    ReadsOn cfg { t with state := .leadout, nameLen := n, name := t.name.set name.length 0,
                         index := if ch = 45 then 1 else 0 } (tagLeadIn ++ (ws ++ name)) ch := by
  have hsnoc : tagLeadIn ++ (ws ++ name) ++ [ch] = tagLeadIn ++ (ws ++ (name ++ [ch])) := by
    simp only [List.append_assoc]
  have hterm := cstr_terminated hbuf hlen
  by_cases hch : ch = 45
  · -- the lead-out follows at once
    subst hch
    have hstart := @start_leadOut cfg ws [] name hws hname hne hle (by simp) 1 (by decide)
    rw [if_pos rfl]
    refine .on hsnoc hstart ?_
    exact @Tracks.leadout cfg _ ws name [] rfl hws hname hne hle (by simp) (show 1 < 3 by decide)
      (fun _ => Nat.le_refl 1) hterm
  · -- a space before the lead-out
    have hsp : isTagSpace ch = true := hends.resolve_left hch
    have hws₁ : ∀ a ∈ [ch], isTagSpace a = true := by simpa using hsp
    have hstart := start_leadOut hws hname hne hle hws₁ (k := 0) (by decide)
    rw [if_neg hch]
    refine .on hsnoc hstart ?_
    exact @Tracks.leadout cfg _ ws name [ch] rfl hws hname hne hle hws₁ (show 0 < 3 by decide)
      (fun hc => absurd hc (by simp)) hterm

/-- One character more of the name, if there is still room for it. -/
theorem nameGoesOn_readsOn (hpos : 0 < cfg.maxTagNameLen) (hmax : cfg.maxTagNameLen ≤ 255)
    (hlen : t.name.length = cfg.maxTagNameLen + 1) (hst : t.state = .found) (hws : ∀ ch ∈ ws, isTagSpace ch = true)
    (hname : ∀ ch ∈ name, isNameChar ch = true) (hle : name.length ≤ cfg.maxTagNameLen)
    (hidx : t.index = name.length) (hbuf : t.name.take name.length = name) (hch : isNameChar ch = true) :
    ReadsOn cfg
      (if t.index < cfg.maxTagNameLen then { t with name := t.name.set t.index ch, index := toU8 (t.index + 1) }
        else { t with state := .none }) (tagLeadIn ++ (ws ++ name)) ch := by
  split
  · next hlt =>
      have hsnoc : tagLeadIn ++ (ws ++ name) ++ [ch] = tagLeadIn ++ (ws ++ (name ++ [ch])) := by
        simp only [List.append_assoc]
      have hidx' : toU8 ((t.index : Int) + 1) = (name ++ [ch]).length := by
        rw [List.length_append, List.length_singleton]
        unfold toU8
        omega
      have hname₁ := all_snoc hname hch
      have hle₁ : (name ++ [ch]).length ≤ cfg.maxTagNameLen := by
        rw [List.length_append, List.length_singleton]
        omega
      refine .on hsnoc (start_found hpos hws hname₁ hle₁) (.found hst hws hname₁ hle₁ hidx' ?_)
      rw [List.length_append, List.length_singleton, hidx, take_set_succ (by omega), hbuf]
  · next hlong => exact .breaks (no_long_name hws hname (by omega) hch) (.none (.inl rfl))

theorem tagFound_readsOn (hpos : 0 < cfg.maxTagNameLen) (hmax : cfg.maxTagNameLen ≤ 255)
    (hlen : t.name.length = cfg.maxTagNameLen + 1) (hst : t.state = .found) (hws : ∀ ch ∈ ws, isTagSpace ch = true)
    (hname : ∀ ch ∈ name, isNameChar ch = true) (hle : name.length ≤ cfg.maxTagNameLen)
    (hidx : t.index = name.length) (hbuf : t.name.take name.length = name) (ch : Byte) :
    ReadsOn cfg (tagFound cfg t ch) (tagLeadIn ++ (ws ++ name)) ch := by
  have hdash : tagLeadOut.getD 0 0 = 45 := rfl
  unfold tagFound
  rw [hdash]
  split
  · -- white space before the name
    next h =>
      obtain ⟨hzero, hsp⟩ := h
      obtain rfl : name = [] := List.length_eq_zero_iff.mp (hidx.symm.trans hzero)
      have hws₁ := all_snoc hws hsp
      have hshift : tagLeadIn ++ (ws ++ []) ++ [ch] = tagLeadIn ++ ((ws ++ [ch]) ++ []) := by simp
      exact .on hshift (start_found hpos hws₁ hname hle) (.found hst hws₁ hname hle hidx hbuf)
  next h =>
  split
  · next hends =>
      by_cases hzero : t.index = 0
      · -- the name is empty
        rw [if_pos hzero]
        obtain rfl : name = [] := List.length_eq_zero_iff.mp (hidx.symm.trans hzero)
        have hch : ch = 45 := hends.resolve_right fun hsp => h ⟨hzero, hsp⟩
        subst hch
        exact .breaks (no_empty_name hws) (.none (.inl rfl))
      · have hne : name ≠ [] := fun hc => hzero (by rw [hidx, hc]; rfl)
        rw [if_neg hzero, hidx]
        -- the name ends here
        exact nameEnds_readsOn hws hname hne hle (by omega) hbuf hends name.length
  · next hgoes =>
      have hne : ch ≠ 45 := fun hc => hgoes (.inl hc)
      have hsp : isTagSpace ch = false := by simpa using fun hc => hgoes (.inr hc)
      have hch : isNameChar ch = true := by simp [isNameChar, hne, hsp]
      -- a character of the name
      exact nameGoesOn_readsOn hpos hmax hlen hst hws hname hle hidx hbuf hch

theorem tagLeadout_readsOn (hst : t.state = .leadout) (hws : ∀ ch ∈ ws, isTagSpace ch = true)
    (hname : ∀ ch ∈ name, isNameChar ch = true) (hne : name ≠ []) (hle : name.length ≤ cfg.maxTagNameLen)
    (hws' : ∀ ch ∈ ws', isTagSpace ch = true) (hidx : t.index < lenTagLeadOut) (hend : ws' = [] → 1 ≤ t.index)
    (hbuf : cstr t.name = cstr name) (hmiss : (tagLeadout t ch).2 = false) :
    ReadsOn cfg (tagLeadout t ch).1 (tagLeadIn ++ (ws ++ (name ++ (ws' ++ tagLeadOut.take t.index)))) ch := by
  have hsnoc : tagLeadIn ++ (ws ++ (name ++ (ws' ++ tagLeadOut.take t.index))) ++ [ch] =
      tagLeadIn ++ (ws ++ (name ++ (ws' ++ (tagLeadOut.take t.index ++ [ch])))) := by
    simp only [List.append_assoc]
  unfold tagLeadout at hmiss ⊢
  split
  · -- white space before the lead-out
    next h =>
      obtain ⟨hzero, hsp⟩ := h
      have hws₁ := all_snoc hws' hsp
      have hshift : tagLeadIn ++ (ws ++ (name ++ (ws' ++ tagLeadOut.take t.index))) ++ [ch] =
          tagLeadIn ++ (ws ++ (name ++ ((ws' ++ [ch]) ++ tagLeadOut.take t.index))) := by simp [hzero]
      exact .on hshift (start_leadOut hws hname hne hle hws₁ hidx)
        (.leadout hst hws hname hne hle hws₁ hidx (fun hc => absurd hc (by simp)) hbuf)
  · next h =>
      rw [if_neg h] at hmiss
      split
      · next hch =>
          rw [if_pos hch] at hmiss
          -- the last byte of the lead-out would have closed the tag
          have hlast : ¬t.index = lenTagLeadOut - 1 := fun hc => by rw [if_pos hc] at hmiss; cases hmiss
          rw [if_neg hlast]
          have hlt : t.index + 1 < lenTagLeadOut := by
            unfold lenTagLeadOut at hidx hlast ⊢
            omega
          have htake : tagLeadOut.take t.index ++ [ch] = tagLeadOut.take (t.index + 1) := by
            rw [hch]
            exact take_append_getD (l := tagLeadOut) hidx
          have hidx' : toU8 ((t.index : Int) + 1) = t.index + 1 := by
            unfold lenTagLeadOut at hlt
            unfold toU8
            omega
          rw [htake] at hsnoc
          refine .on hsnoc (start_leadOut hws hname hne hle hws' hlt) ?_
          have htracks := @Tracks.leadout cfg { t with index := t.index + 1 } ws name ws' hst hws hname hne hle hws'
            hlt (fun _ => Nat.le_add_left 1 _) hbuf
          simpa only [hidx'] using htracks
      · next hch =>
          have hsp : t.index = 0 → isTagSpace ch = false := fun hzero => by simpa using fun hc => h ⟨hzero, hc⟩
          exact .breaks (no_leadOut hws hname hne hws' hidx hend hsp hch) (.none (.inl rfl))

/-- The end of a lead-in is noticed. -/
theorem leadin_lt_of_settled (hsettle : Httpd.settle t = t) (hst : t.state = .leadin) (hle : t.index ≤ lenTagLeadIn) :
    t.index < lenTagLeadIn := by
  refine Nat.lt_of_le_of_ne hle fun hend => ?_
  have hfound : (Httpd.settle t).state = .found := by
    unfold Httpd.settle
    simp only [hst, if_pos hend]
  rw [hsettle, hst] at hfound
  cases hfound

/-- **A byte that does not close a tag.** -/
theorem Tracks.readsOn (hpos : 0 < cfg.maxTagNameLen) (hmax : cfg.maxTagNameLen ≤ 255)
    (hlen : t.name.length = cfg.maxTagNameLen + 1) (h : Tracks cfg t u) (hmiss : (parseByte cfg t ch).2 = false) :
    ReadsOn cfg (parseByte cfg t ch).1 u ch := by
  have hname : (Httpd.settle t).name = t.name := by unfold Httpd.settle; split <;> first | rfl | (split <;> rfl)
  rw [← hname] at hlen
  replace h := h.settle
  rw [← parseByte_settle] at hmiss ⊢
  have hsettle := settle_settle t
  have hns := settle_state t
  generalize Httpd.settle t = t at *
  unfold parseByte at hmiss ⊢
  rw [hsettle] at hmiss ⊢
  cases h with
  | none hst =>
      have hst' : t.state = .none := hst.resolve_right hns
      simp only [hst']
      exact tagNone_readsOn hpos hst' ch
  | leadin hst hle =>
      simp only [hst]
      exact tagLeadin_readsOn hpos hst (leadin_lt_of_settled hsettle hst hle) ch
  | found hst hws hname hle hidx hbuf =>
      simp only [hst]
      exact tagFound_readsOn hpos hmax hlen hst hws hname hle hidx hbuf ch
  | leadout hst hws hname hne hle hws' hidx hend hbuf =>
      simp only [hst] at hmiss ⊢
      exact tagLeadout_readsOn hst hws hname hne hle hws' hidx hend hbuf hmiss

/-- The byte that closes a tag leaves the parser state as it is. -/
theorem tagLeadout_hit (hhit : (tagLeadout t ch).2 = true) :
    (tagLeadout t ch).1 = t ∧ t.index = lenTagLeadOut - 1 ∧ ch = tagLeadOut.getD t.index 0 := by
  unfold tagLeadout at hhit ⊢
  split at hhit
  · cases hhit
  · next h =>
      split at hhit
      · next hch =>
          split at hhit
          · next hlast => exact ⟨by rw [if_neg h, if_pos hch, if_pos hlast], hlast, hch⟩
          · cases hhit
      · cases hhit

/-- **A byte that closes a tag** ends a marker with the name in `tag_name`. -/
theorem Tracks.hit (h : Tracks cfg t u) (hhit : (parseByte cfg t ch).2 = true) :
    ∃ name, IsMarker cfg (u ++ [ch]) name ∧ cstr (parseByte cfg t ch).1.name = cstr name := by
  have hst := state_of_hit hhit
  replace h := h.settle
  unfold parseByte at hhit ⊢
  simp only [hst] at hhit ⊢
  obtain ⟨hsame, hlast, hch⟩ := tagLeadout_hit hhit
  rw [hsame]
  cases h with
  | @leadout ws name ws' _ hws hname hne hle hws' hidx hend hbuf =>
      refine ⟨name, ⟨ws, ws', ?_, hws, hws', hname, hne, hle⟩, hbuf⟩
      rw [hch, hlast]
      simp only [List.append_assoc]
      rfl
  | none hst' => rw [hst] at hst'; rcases hst' with hc | hc <;> cases hc
  | leadin hst' _ => rw [hst] at hst'; cases hst'
  | found hst' _ _ _ _ _ => rw [hst] at hst'; cases hst'

/-! ## The pass over a text -/

/-- One byte, and the name for which `get_tag_insert` is called if it closes a tag: the C string in `tag_name`. -/
def tagByte (cfg : Config) (insert : Nat → Nat → InsertReply) (q : TagScan × Nat) (ch : Byte) :
    (TagScan × Nat) × List (List Byte) :=
  ((scanByte cfg insert toU8 q ch).1,
    if (parseByte cfg q.1 ch).2 then [cstr (parseByte cfg q.1 ch).1.name] else [])

/-- The names for which it is called in a pass over a text. -/
def tagNames (cfg : Config) (insert : Nat → Nat → InsertReply) (q : TagScan × Nat) (text : List Byte) :
    List (List Byte) :=
  (transduce (tagByte cfg insert) q text).2

variable {insert : Nat → Nat → InsertReply} {q : TagScan × Nat}

theorem tagFound_name_length (cfg : Config) (t : TagScan) (ch : Byte) :
    (tagFound cfg t ch).name.length = t.name.length := by
  unfold tagFound
  split
  · rfl
  · split
    · split
      · rfl
      · exact List.length_set
    · split
      · exact List.length_set
      · rfl

/-- `tag_name` stays the array it is. -/
theorem parseByte_name_length (cfg : Config) (t : TagScan) (ch : Byte) :
    (parseByte cfg t ch).1.name.length = t.name.length := by
  have hsettle : (settle t).name = t.name := by unfold settle; split <;> first | rfl | (split <;> rfl)
  rw [← hsettle]
  unfold parseByte
  cases hst : (settle t).state with
  | none =>
      simp only [hst]
      unfold tagNone
      split <;> rfl
  | leadin =>
      simp only [hst]
      unfold tagLeadin
      split
      · rfl
      · split <;> rfl
  | found => simp only [hst]; exact tagFound_name_length cfg _ ch
  | leadout =>
      simp only [hst]
      unfold tagLeadout
      split
      · rfl
      · split
        · split <;> rfl
        · rfl
  | sending => simp only [hst]

/-- The state after a byte, by whether it closes a tag. -/
theorem tagByte_cases (cfg : Config) (insert : Nat → Nat → InsertReply) (q : TagScan × Nat) (ch : Byte) :
    ((parseByte cfg q.1 ch).2 = false ∧ (tagByte cfg insert q ch).1.1 = (parseByte cfg q.1 ch).1 ∧
      (tagByte cfg insert q ch).2 = []) ∨
    ((parseByte cfg q.1 ch).2 = true ∧ (tagByte cfg insert q ch).1.1.state = .sending ∧
      (tagByte cfg insert q ch).1.1.name = (parseByte cfg q.1 ch).1.name ∧
      (tagByte cfg insert q ch).2 = [cstr (parseByte cfg q.1 ch).1.name]) := by
  obtain ⟨t, k⟩ := q
  unfold tagByte
  cases hhit : (parseByte cfg t ch).2 with
  | false =>
      rw [scanByte_of_miss toU8 k hhit]
      exact .inl ⟨rfl, rfl, rfl⟩
  | true =>
      rw [scanByte_of_hit toU8 k hhit]
      exact .inr ⟨rfl, rfl, rfl, rfl⟩

/-- **The parser reads a text as `Scan` does.** -/
theorem tagByte_scanStep (hpos : 0 < cfg.maxTagNameLen) (hmax : cfg.maxTagNameLen ≤ 255) (ch : Byte)
    (h : Tracks cfg q.1 u) (hlen : q.1.name.length = cfg.maxTagNameLen + 1) :
    ScanStep (IsMarker cfg) cstr (fun q u => Tracks cfg q.1 u ∧ q.1.name.length = cfg.maxTagNameLen + 1) u ch
      (tagByte cfg insert q ch).1 (tagByte cfg insert q ch).2 := by
  have hlen' := (parseByte_name_length cfg q.1 ch).trans hlen
  rcases tagByte_cases cfg insert q ch with ⟨hmiss, hstate, hout⟩ | ⟨hhit, hst, hname, hout⟩
  · rw [hout]
    rw [← hstate] at hlen'
    have hreads := h.readsOn hpos hmax hlen hmiss
    rw [← hstate] at hreads
    cases hreads with
    | on heq hstart htracks =>
        subst heq
        exact .keep hstart ⟨htracks, hlen'⟩
    | breaks hno htracks => exact .drop hno ⟨htracks, hlen'⟩
  · obtain ⟨name, hmarker, hbuf⟩ := h.hit hhit
    rw [hout, hbuf]
    rw [← hname] at hlen'
    exact .hit hmarker ⟨.none (.inr hst), hlen'⟩

/-! Without room for a name the parser never gets to the lead-out. -/

/-- No name was begun. -/
def Nameless (t : TagScan) : Prop := t.state ≠ .leadout ∧ (t.state = .found → t.index = 0)

theorem nameless_of_state (h : t.state = .none ∨ t.state = .leadin) : Nameless t := by
  constructor
  · intro hc
    rw [hc] at h
    rcases h with h | h <;> cases h
  · intro hc
    rw [hc] at h
    rcases h with h | h <;> cases h

theorem nameless_found (h : t.state = .found) (hidx : t.index = 0) : Nameless t :=
  ⟨by rw [h]; decide, fun _ => hidx⟩

theorem Nameless.settle (h : Nameless t) : Nameless (settle t) := by
  unfold Httpd.settle
  split
  · split
    · exact nameless_found rfl rfl
    · exact h
  · exact nameless_of_state (.inl rfl)
  · exact h

theorem Nameless.tagFound (hzero : cfg.maxTagNameLen = 0) (h : Nameless t) (hst : t.state = .found) (ch : Byte) :
    Nameless (tagFound cfg t ch) := by
  have hidx := h.2 hst
  unfold Httpd.tagFound
  split
  · exact h
  · simp only [hidx, hzero, Nat.lt_irrefl, if_false, ite_self]
    exact nameless_of_state (.inl rfl)

theorem Nameless.parseByte (hzero : cfg.maxTagNameLen = 0) (h : Nameless t) (ch : Byte) :
    Nameless (parseByte cfg t ch).1 := by
  replace h := h.settle
  unfold Httpd.parseByte
  cases hst : (Httpd.settle t).state with
  | none =>
      simp only [hst]
      unfold tagNone
      split
      · exact nameless_of_state (.inr rfl)
      · exact h
  | leadin =>
      simp only [hst]
      unfold tagLeadin
      split
      · exact nameless_found rfl rfl
      · split
        · exact nameless_of_state (.inr hst)
        · exact nameless_of_state (.inl rfl)
  | found => simp only [hst]; exact h.tagFound hzero hst ch
  | leadout => exact absurd hst h.1
  | sending => exact absurd hst (settle_state t)

theorem tagByte_nameless (hzero : cfg.maxTagNameLen = 0) (ch : Byte) (h : Nameless q.1) :
    ScanStep (IsMarker cfg) cstr (fun q u => Nameless q.1 ∧ u = []) u ch
      (tagByte cfg insert q ch).1 (tagByte cfg insert q ch).2 := by
  rcases tagByte_cases cfg insert q ch with ⟨-, hstate, hout⟩ | ⟨hhit, -⟩
  · rw [hout]
    refine .drop (fun v b hw => ?_) ⟨by rw [hstate]; exact h.parseByte hzero ch, rfl⟩
    obtain ⟨-, -, -, -, -, -, hne, hle⟩ := hw
    rw [hzero] at hle
    exact hne (List.length_eq_zero_iff.mp (Nat.le_zero.mp hle))
  · exact absurd (state_of_hit hhit) h.settle.1

/-- What the pass over a text finds. -/
theorem tagNames_scan (hmax : cfg.maxTagNameLen ≤ 255) (hlen : q.1.name.length = cfg.maxTagNameLen + 1)
    (hst : q.1.state = .none) (text : List Byte) :
    ∃ bs, Scan (IsMarker cfg) [] text bs ∧ tagNames cfg insert q text = bs.map cstr := by
  by_cases hpos : 0 < cfg.maxTagNameLen
  · exact Scan.of_steps (fun ch h => tagByte_scanStep hpos hmax ch h.1 h.2) text ⟨.none (.inl hst), hlen⟩
  · have hzero : cfg.maxTagNameLen = 0 := Nat.eq_zero_of_not_pos hpos
    exact Scan.of_steps (fun ch h => tagByte_nameless hzero ch h.1) text ⟨nameless_of_state (.inl hst), rfl⟩

/-- **The pass over a text finds the leftmost markers exactly if no marker begins in a start that breaks off, and no
    name has a NUL**, where the C string would end. -/
theorem tagNames_leftmost_iff (hmax : cfg.maxTagNameLen ≤ 255) (hlen : q.1.name.length = cfg.maxTagNameLen + 1)
    (hst : q.1.state = .none) (text : List Byte) :
    Leftmost (IsMarker cfg) text (tagNames cfg insert q text) ↔
      NoneMissed (IsMarker cfg) [] text ∧ ∀ name, Occurs (IsMarker cfg) text name → (0 : Byte) ∉ name := by
  obtain ⟨bs, hscan, hnames⟩ := @tagNames_scan cfg insert q hmax hlen hst text
  rw [hnames, hscan.leftmost_map_iff (isMarker_marking cfg)]
  refine and_congr_right fun _ => forall_congr' fun name => imp_congr_right fun _ => ?_
  unfold cstr
  rw [List.takeWhile_eq_self_iff]
  constructor
  · intro hall hmem
    exact absurd (hall 0 hmem) (by decide)
  · intro hno ch hch
    simpa using fun hc : ch = 0 => hno (hc ▸ hch)

end

end ThirdParty.Httpd
