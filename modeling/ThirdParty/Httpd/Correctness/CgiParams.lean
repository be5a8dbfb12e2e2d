import Mathlib.Data.List.ModifyLast
import ThirdParty.Lib.CString
import ThirdParty.Httpd.Cgi

/-!
# `Httpd.Correctness.CgiParams` — what `extract_uri_parameters` extracts

The parameters are described on the string as it was before the call (`cgiFields`, `fieldName`, `fieldValue`), while
the function leaves pointers into the string as it cuts it up. Both agree because a pair is finished before the next
one begins: all later cuts come after the terminator of the pair.
-/

namespace ThirdParty.Httpd

open Lib Lwip

/-! ## Names and values -/

/-- The fields between the `&`s; the last one ends at its first space. -/
def cgiFields (s : List Byte) : List (List Byte) := (s.splitOn 38).modifyLast (·.takeWhile (· ≠ 32))

/-- The name is the text before the first `=`. -/
def fieldName (f : List Byte) : List Byte := f.takeWhile (· ≠ 61)

/-- The value is the text after it, if there is one. -/
def fieldValue (f : List Byte) : Option (List Byte) :=
  if 61 ∈ f then some ((f.dropWhile (· ≠ 61)).drop 1) else none

/-- **Slot `k` of the tables** has the name and the value of a field. -/
structure Parameter (f : List Byte) (k : Nat) (c : Ctx) : Prop where
  name  : ∃ off, c.hs.params k = some off ∧ c.uriText (.payload off) = fieldName f
  value : (c.hs.paramVals k).map (fun off => c.uriText (.payload off)) = fieldValue f

/-- **Only the parameters are touched**: the bytes of the string from `start` to `stop`, and the slots of the two
    tables from `first` to `last`. -/
structure OnlyParams (start stop first last : Nat) (c c' : Ctx) : Prop where
  payload : SameOutside start stop c.payload c'.payload
  mem     : c'.mem = c.mem
  fs      : c'.fs = c.fs
  hs      : c'.hs = { c.hs with params := c'.hs.params, paramVals := c'.hs.paramVals }
  slots   : ∀ k, k < first ∨ last ≤ k → c'.hs.params k = c.hs.params k ∧ c'.hs.paramVals k = c.hs.paramVals k

section
variable {start stop first last start' stop' first' last' : Nat} {c c₁ c₂ c₃ : Ctx}

theorem OnlyParams.refl (c : Ctx) : OnlyParams start stop first last c c :=
  ⟨.refl _, rfl, rfl, rfl, fun _ _ => ⟨rfl, rfl⟩⟩

theorem OnlyParams.trans (h : OnlyParams start stop first last c₁ c₂) (h' : OnlyParams start stop first last c₂ c₃) :
    OnlyParams start stop first last c₁ c₃ := by
  refine ⟨h.payload.trans h'.payload, h'.mem.trans h.mem, h'.fs.trans h.fs, ?_, fun k hk => ?_⟩
  · rw [h'.hs, h.hs]
  · exact ⟨(h'.slots k hk).1.trans (h.slots k hk).1, (h'.slots k hk).2.trans (h.slots k hk).2⟩

theorem OnlyParams.mono (h : OnlyParams start stop first last c₁ c₂) (hstart : start' ≤ start) (hstop : stop ≤ stop')
    (hfirst : first' ≤ first) (hlast : last ≤ last') : OnlyParams start' stop' first' last' c₁ c₂ :=
  { h with payload := h.payload.mono hstart hstop, slots := fun k hk => h.slots k (by omega) }

end

/-! ## The fields of a string -/

theorem cgiFields_last {s : List Byte} (h : 38 ∉ s) : cgiFields s = [s.takeWhile (· ≠ 32)] := by
  have hone : s.splitOn 38 = [s] := by
    apply List.splitOnP_eq_singleton
    intro b hb
    have hne : b ≠ 38 := fun heq => h (heq ▸ hb)
    simpa using hne
  unfold cgiFields
  rw [hone]
  exact List.modifyLast_concat _ s []

theorem splitOn_found {s : List Byte} {i : Nat} (h : strchr s 38 = some i) :
    s.splitOn 38 = s.take i :: (s.drop (i + 1)).splitOn 38 := by
  obtain ⟨hcut, hsplit⟩ := strchr_split h
  conv => lhs; rw [hsplit]
  apply List.splitOnP_append_cons_of_forall_mem
  · intro b hb
    rw [hcut] at hb
    have hne := List.mem_takeWhile_imp hb
    simpa using hne
  · rfl

theorem cgiFields_found {s : List Byte} {i : Nat} (h : strchr s 38 = some i) :
    cgiFields s = s.take i :: cgiFields (s.drop (i + 1)) := by
  unfold cgiFields
  rw [splitOn_found h]
  exact List.modifyLast_append_of_right_ne_nil _ [s.take i] _ (List.splitOnP_ne_nil _ _)

theorem cgiFields_length (s : List Byte) : (cgiFields s).length = (s.splitOn 38).length := by
  have hsplit := List.dropLast_append_getLast (List.splitOnP_ne_nil (· == 38) s)
  unfold cgiFields List.splitOn
  rw [← hsplit, List.modifyLast_concat, List.length_append, List.length_append]
  rfl

theorem fieldValue_found {f : List Byte} {j : Nat} (h : strchr f 61 = some j) :
    fieldValue f = some (f.drop (j + 1)) := by
  obtain ⟨hcut, hsplit⟩ := strchr_split h
  have hmem : 61 ∈ f := by
    rw [hsplit]
    exact List.mem_append_right _ List.mem_cons_self
  have hrest : f.dropWhile (· ≠ 61) = 61 :: f.drop (j + 1) := by
    apply @List.append_cancel_left _ (f.take j)
    rw [← hsplit, hcut]
    exact List.takeWhile_append_dropWhile
  unfold fieldValue
  rw [if_pos hmem, hrest]
  rfl

theorem fieldValue_none {f : List Byte} (h : strchr f 61 = none) : fieldValue f = none :=
  if_neg (strchr_eq_none_iff.mp h)

/-! ## One pair -/

/-- The payload is now `b`, and nothing else has changed but the log. -/
structure Rewrites (b : List Byte) (c c' : Ctx) : Prop where
  payload : c'.payload = b
  hs      : c'.hs = c.hs
  mem     : c'.mem = c.mem
  fs      : c'.fs = c.fs

section
variable {q i : Nat} {c : Ctx}

theorem splitPair_found (h : strchr (textAt c.payload q) 38 = some i) :
    (splitPair q c).1 = some (q + i + 1) ∧ Rewrites (cutAt c.payload q 38) c (splitPair q c).2 := by
  have hfound : (c.uriStrchr (.payload q) 0 38).1 = some (0 + i) := by
    show (strchr (textAt c.payload q) 38).map (0 + ·) = some (0 + i)
    rw [h]
    rfl
  unfold splitPair
  rw [← Prod.mk.eta (p := c.uriStrchr (.payload q) 0 38), hfound, Nat.zero_add]
  exact ⟨rfl, (cutAt_found h).symm, rfl, rfl, rfl⟩

theorem splitPair_last (h : strchr (textAt c.payload q) 38 = none) :
    (splitPair q c).1 = none ∧ Rewrites (cutAt c.payload q 32) c (splitPair q c).2 := by
  have hfound : (c.uriStrchr (.payload q) 0 38).1 = none := by
    show (strchr (textAt c.payload q) 38).map (0 + ·) = none
    rw [h]
    rfl
  have hspace : ((c.uriStrchr (.payload q) 0 38).2.uriStrchr (.payload q) 0 32).1 =
      (strchr (textAt c.payload q) 32).map (0 + ·) := rfl
  unfold splitPair
  rw [← Prod.mk.eta (p := c.uriStrchr (.payload q) 0 38), hfound]
  simp only
  rw [← Prod.mk.eta (p := (c.uriStrchr (.payload q) 0 38).2.uriStrchr (.payload q) 0 32), hspace]
  cases hfound' : strchr (textAt c.payload q) 32 with
  | none => exact ⟨rfl, (cutAt_none hfound').symm, rfl, rfl, rfl⟩
  | some i =>
      rw [Option.map_some, Nat.zero_add]
      exact ⟨rfl, (cutAt_found hfound').symm, rfl, rfl, rfl⟩

theorem splitValue_spec (q : Nat) (c : Ctx) :
    (splitValue q c).1 = (strchr (textAt c.payload q) 61).map (fun j => q + j + 1) ∧
    Rewrites (cutAt c.payload q 61) c (splitValue q c).2 := by
  have hequals : (c.uriStrchr (.payload q) 0 61).1 = (strchr (textAt c.payload q) 61).map (0 + ·) := rfl
  unfold splitValue
  rw [← Prod.mk.eta (p := c.uriStrchr (.payload q) 0 61), hequals]
  cases hfound : strchr (textAt c.payload q) 61 with
  | none => exact ⟨rfl, (cutAt_none hfound).symm, rfl, rfl, rfl⟩
  | some j =>
      rw [Option.map_some, Nat.zero_add]
      exact ⟨rfl, (cutAt_found hfound).symm, rfl, rfl, rfl⟩

end

/-- **Cutting a field at its `=`** leaves its name, and its value behind the terminator. -/
theorem cut_field (b : List Byte) (q : Nat) :
    textAt (cutAt b q 61) q = fieldName (textAt b q) ∧
    (strchr (textAt b q) 61).map (fun j => textAt (cutAt b q 61) (q + j + 1)) = fieldValue (textAt b q) := by
  refine ⟨textAt_cutAt b q 61, ?_⟩
  cases h : strchr (textAt b q) 61 with
  | none => exact (fieldValue_none h).symm
  | some j => rw [Option.map_some, fieldValue_found h, textAt_after_cut h]

/-- A slot that points at a field cut at its `=` has its name and value. -/
theorem parameter_of {b : List Byte} {q k : Nat} {c : Ctx} (hname : c.hs.params k = some q)
    (hvalue : c.hs.paramVals k = (strchr (textAt b q) 61).map (fun j => q + j + 1))
    (htext : ∀ off, q ≤ off → off ≤ q + (textAt b q).length → textAt c.payload off = textAt (cutAt b q 61) off) :
    Parameter (textAt b q) k c := by
  obtain ⟨hcutname, hcutvalue⟩ := cut_field b q
  refine ⟨⟨q, hname, ?_⟩, ?_⟩
  · exact (htext q le_rfl (by omega)).trans hcutname
  · rw [hvalue, ← hcutvalue, Option.map_map]
    cases hfound : strchr (textAt b q) 61 with
    | none => rfl
    | some j =>
        have hlt := strchr_lt hfound
        exact congrArg some (htext (q + j + 1) (by omega) (by omega))

/-- The body of the loop, for the pair at `q`. -/
def extractPair (q loop : Nat) (c : Ctx) : Option Nat × Ctx :=
  let c := c.useState
  let c := c.setHs { c.hs with params := fun i => if i = loop then some q else c.hs.params i }
  let (next, c) := splitPair q c
  let (value, c) := splitValue q c
  (next, c.setHs { c.hs with paramVals := fun i => if i = loop then value else c.hs.paramVals i })

theorem extractPairs_succ (fuel loop q : Nat) (c : Ctx) : extractPairs (fuel + 1) loop (some q) c =
    extractPairs fuel (loop + 1) (extractPair q loop c).1 (extractPair q loop c).2 := rfl

/-- The string is cut to the field `b` has at `q`, then at the `=` of that field. -/
theorem extractPair_cuts {q loop : Nat} {c : Ctx} {next : Option Nat} {b : List Byte}
    (hsplit : ∀ c' : Ctx, c'.payload = c.payload → (splitPair q c').1 = next ∧ Rewrites b c' (splitPair q c').2) :
    (extractPair q loop c).1 = next ∧ (extractPair q loop c).2.payload = cutAt b q 61 ∧
    (extractPair q loop c).2.hs.params loop = some q ∧
    (extractPair q loop c).2.hs.paramVals loop = (strchr (textAt b q) 61).map (fun j => q + j + 1) ∧
    ∀ stop, SameOutside q stop c.payload (cutAt b q 61) →
      OnlyParams q stop loop (loop + 1) c (extractPair q loop c).2 := by
  unfold extractPair
  simp only
  -- the name goes into its slot, then the field is cut off
  obtain ⟨hnext, hcut⟩ := hsplit (c.useState.setHs
    { c.useState.hs with params := fun i => if i = loop then some q else c.useState.hs.params i }) rfl
  generalize splitPair q (c.useState.setHs
    { c.useState.hs with params := fun i => if i = loop then some q else c.useState.hs.params i }) = r at hnext hcut
  obtain ⟨next', c₁⟩ := r
  simp only at hnext hcut ⊢
  -- then the value is split off the name
  obtain ⟨hvalue, hequals⟩ := splitValue_spec q c₁
  rw [hcut.payload] at hvalue hequals
  generalize splitValue q c₁ = r at hvalue hequals
  obtain ⟨value, c₂⟩ := r
  simp only at hvalue hequals ⊢
  have hhs : c₂.hs = { c.hs with params := fun i => if i = loop then some q else c.hs.params i } :=
    hequals.hs.trans hcut.hs
  refine ⟨hnext, hequals.payload, ?_, ?_, fun stop hsame => ?_⟩
  · show c₂.hs.params loop = some q
    rw [hhs]
    exact if_pos rfl
  · show (if loop = loop then value else c₂.hs.paramVals loop) = _
    rw [if_pos rfl, hvalue]
  · refine ⟨?_, hequals.mem.trans hcut.mem, hequals.fs.trans hcut.fs, ?_, fun k hk => ?_⟩
    · show SameOutside q stop c.payload c₂.payload
      rw [hequals.payload]
      exact hsame
    · simp only [Ctx.setHs_hs, hhs]
    · -- slot `loop` is the only one that is written
      have hne : k ≠ loop := by omega
      simp only [Ctx.setHs_hs, hhs, if_neg hne]
      exact ⟨trivial, trivial⟩

/-- **A pair that ends at a `&`**: its slot has the field, and keeps it whatever is done behind the terminator. -/
theorem extractPair_found {q i : Nat} {c : Ctx} (loop : Nat) (h : strchr (textAt c.payload q) 38 = some i) :
    (extractPair q loop c).1 = some (q + i + 1) ∧
    OnlyParams q (q + i + 1) loop (loop + 1) c (extractPair q loop c).2 ∧
    textAt (extractPair q loop c).2.payload (q + i + 1) = (textAt c.payload q).drop (i + 1) ∧
    ∀ c' stop last, OnlyParams (q + i + 1) stop (loop + 1) last (extractPair q loop c).2 c' →
      Parameter ((textAt c.payload q).take i) loop c' := by
  have hlt := strchr_lt h
  have hfield : textAt (cutAt c.payload q 38) q = (textAt c.payload q).take i := by
    rw [textAt_cutAt, (strchr_split h).1]
  have hlen : (textAt (cutAt c.payload q 38) q).length = i := by
    rw [hfield, List.length_take]
    omega
  obtain ⟨hnext, hpay, hname, hvalue, honly⟩ := @extractPair_cuts q loop c _ (cutAt c.payload q 38) fun c' hc' => by
    have hfound := @splitPair_found q i c' (by rw [hc']; exact h)
    rw [hc'] at hfound
    exact hfound
  -- the cut at the `=` comes before the terminator
  have hequals : SameOutside q (q + i) (cutAt c.payload q 38) (cutAt (cutAt c.payload q 38) q 61) := by
    have hsame := cutAt_same (cutAt c.payload q 38) q 61
    rwa [hlen] at hsame
  have hamp : SameOutside q (q + i + 1) c.payload (cutAt c.payload q 38) := by
    rw [cutAt_found h]
    exact .set 0 (by omega) (by omega)
  have hend : (cutAt (cutAt c.payload q 38) q 61)[q + i]? = some 0 :=
    (hequals.same (q + i) (.inr le_rfl)).trans (getElem?_cutAt h)
  refine ⟨hnext, honly _ (hamp.trans (hequals.mono le_rfl (by omega))), ?_, fun c' stop last hlater => ?_⟩
  · rw [hpay, hequals.textAt_after (by omega)]
    exact textAt_after_cut h
  · rw [← hfield]
    obtain ⟨hkeepname, hkeepvalue⟩ := hlater.slots loop (.inl (by omega))
    refine parameter_of (hkeepname.trans hname) (hkeepvalue.trans hvalue) fun off _ hoff => ?_
    rw [hlen] at hoff
    have hkeep := hlater.payload
    rw [hpay] at hkeep
    exact hkeep.textAt_before hend hoff (by omega)

/-- **The last pair** ends at its first space. -/
theorem extractPair_last {q : Nat} {c : Ctx} (loop : Nat) (h : strchr (textAt c.payload q) 38 = none) :
    (extractPair q loop c).1 = none ∧
    OnlyParams q (q + (textAt c.payload q).length) loop (loop + 1) c (extractPair q loop c).2 ∧
    Parameter ((textAt c.payload q).takeWhile (· ≠ 32)) loop (extractPair q loop c).2 := by
  have hfield : textAt (cutAt c.payload q 32) q = (textAt c.payload q).takeWhile (· ≠ 32) := textAt_cutAt _ _ _
  have hlen : (textAt (cutAt c.payload q 32) q).length ≤ (textAt c.payload q).length := by
    rw [hfield]
    exact (List.takeWhile_prefix _).length_le
  obtain ⟨hnext, hpay, hname, hvalue, honly⟩ := @extractPair_cuts q loop c _ (cutAt c.payload q 32) fun c' hc' => by
    have hlast := @splitPair_last q c' (by rw [hc']; exact h)
    rw [hc'] at hlast
    exact hlast
  have hequals := (cutAt_same (cutAt c.payload q 32) q 61).mono le_rfl (Nat.add_le_add_left hlen q)
  refine ⟨hnext, honly _ ((cutAt_same c.payload q 32).trans hequals), ?_⟩
  rw [← hfield]
  exact parameter_of hname hvalue fun off _ _ => by rw [hpay]

/-! ## The loop over the pairs -/

/-- What the loop makes of the string at `q`: the slots from `loop` on have its fields, as far as there is room. -/
structure Extracts (fuel loop q : Nat) (c : Ctx) (r : Nat × Ctx) : Prop where
  count : r.1 = loop + min fuel (cgiFields (textAt c.payload q)).length
  only  : OnlyParams q (q + (textAt c.payload q).length) loop r.1 c r.2
  slots : ∀ k f, k < fuel → (cgiFields (textAt c.payload q))[k]? = some f → Parameter f (loop + k) r.2

/-- **The loop** extracts the fields, one pair after the other. -/
theorem extractPairs_spec : ∀ (fuel loop q : Nat) (c : Ctx),
    Extracts fuel loop q c (extractPairs fuel loop (some q) c) := by
  intro fuel
  induction fuel with
  | zero =>
      intro loop q c
      refine ⟨?_, .refl c, fun k f hk _ => absurd hk (Nat.not_lt_zero k)⟩
      rw [Nat.zero_min, Nat.add_zero]
      rfl
  | succ fuel ih =>
      intro loop q c
      rw [extractPairs_succ]
      cases hamp : strchr (textAt c.payload q) 38 with
      | none =>
          obtain ⟨hnext, honly, hslot⟩ := extractPair_last loop hamp
          -- no `&` follows: this is the last field, and the loop ends
          have hstop : extractPairs fuel (loop + 1) none (extractPair q loop c).2 =
              (loop + 1, (extractPair q loop c).2) := by cases fuel <;> rfl
          have hfields := cgiFields_last (strchr_eq_none_iff.mp hamp)
          rw [hnext, hstop]
          refine ⟨?_, honly, fun k f hk hf => ?_⟩
          · rw [hfields, List.length_singleton, Nat.min_eq_right (by omega)]
          · rw [hfields] at hf
            obtain ⟨rfl, rfl⟩ : k = 0 ∧ f = (textAt c.payload q).takeWhile (· ≠ 32) := by
              cases k with
              | zero => exact ⟨rfl, (Option.some.inj hf).symm⟩
              | succ k => simp at hf
            exact hslot
      | some i =>
          obtain ⟨hnext, honly, hrest, hslot⟩ := extractPair_found loop hamp
          have hlt := strchr_lt hamp
          have hfields := cgiFields_found hamp
          rw [hnext]
          obtain ⟨hcount, hafter, hslots⟩ := ih (loop + 1) (q + i + 1) (extractPair q loop c).2
          rw [hrest] at hcount hafter hslots
          generalize extractPairs fuel (loop + 1) (some (q + i + 1)) (extractPair q loop c).2 = r
            at hcount hafter hslots
          refine ⟨?_, ?_, fun k f hk hf => ?_⟩
          · rw [hcount, hfields, List.length_cons]
            omega
          · -- the rest of the string lies behind the pair
            have hdrop : ((textAt c.payload q).drop (i + 1)).length = (textAt c.payload q).length - (i + 1) :=
              List.length_drop
            exact (honly.mono le_rfl (by omega) le_rfl (by omega)).trans
              (hafter.mono (by omega) (by omega) (by omega) le_rfl)
          · rw [hfields] at hf
            cases k with
            | zero =>
                -- the later pairs do not touch this one
                obtain rfl : (textAt c.payload q).take i = f := Option.some.inj hf
                exact hslot r.2 _ _ hafter
            | succ k =>
                have hlater := hslots k f (by omega) hf
                rwa [Nat.add_assoc, Nat.add_comm 1 k] at hlater

theorem extractUriParameters_empty (cfg : Config) {p : Nat} {c : Ctx} (h : textAt c.payload p = []) :
    extractUriParameters cfg (some p) c = (0, c.emit (.payloadRead p 1)) :=
  if_pos (textAt_eq_nil_iff.mp h)

theorem extractUriParameters_text (cfg : Config) {p : Nat} {c : Ctx} (h : textAt c.payload p ≠ []) :
    extractUriParameters cfg (some p) c = extractPairs cfg.maxCgiParams 0 (some p) (c.emit (.payloadRead p 1)) :=
  if_neg (mt textAt_eq_nil_iff.mpr h)

/-- **`extract_uri_parameters`** returns 0 for a string that is missing or empty, and otherwise the number of its
    fields, at most `MAX_CGI_PARAMS`. Each slot below that number has the name and the value of its field as they
    stood in the string; beyond the string and these slots nothing is written. -/
theorem extract_uri_parameters_spec (cfg : Config) (c : Ctx) :
    (∃ c', extractUriParameters cfg none c = (0, c') ∧ OnlyParams 0 0 0 0 c c') ∧
    ∀ p, (c.uriText (.payload p) = [] → (extractUriParameters cfg (some p) c).1 = 0) ∧
      (c.uriText (.payload p) ≠ [] → (extractUriParameters cfg (some p) c).1 =
        min cfg.maxCgiParams ((c.uriText (.payload p)).splitOn 38).length) ∧
      OnlyParams p (p + (c.uriText (.payload p)).length) 0 (extractUriParameters cfg (some p) c).1 c
        (extractUriParameters cfg (some p) c).2 ∧
      ∀ k < (extractUriParameters cfg (some p) c).1, ∃ f, (cgiFields (c.uriText (.payload p)))[k]? = some f ∧
        Parameter f k (extractUriParameters cfg (some p) c).2 := by
  refine ⟨⟨c, rfl, .refl c⟩, fun p => ?_⟩
  -- the test for an empty string reads one byte
  have hread : OnlyParams p (p + (textAt c.payload p).length) 0 0 c (c.emit (.payloadRead p 1)) :=
    ⟨.refl _, rfl, rfl, rfl, fun _ _ => ⟨rfl, rfl⟩⟩
  by_cases hempty : textAt c.payload p = []
  · rw [extractUriParameters_empty cfg hempty]
    exact ⟨fun _ => rfl, fun h => absurd hempty h, hread, fun k hk => absurd hk (Nat.not_lt_zero k)⟩
  · rw [extractUriParameters_text cfg hempty]
    obtain ⟨hcount, honly, hslots⟩ := extractPairs_spec cfg.maxCgiParams 0 p (c.emit (.payloadRead p 1))
    rw [Ctx.emit_payload] at hcount honly hslots
    generalize extractPairs cfg.maxCgiParams 0 (some p) (c.emit (.payloadRead p 1)) = r at hcount honly hslots
    refine ⟨fun h => absurd h hempty, fun _ => ?_, (hread.mono le_rfl le_rfl le_rfl (Nat.zero_le _)).trans honly,
      fun k hk => ?_⟩
    · rw [hcount, Nat.zero_add, cgiFields_length]
      rfl
    · obtain ⟨hkmax, hkfields⟩ : k < cfg.maxCgiParams ∧ k < (cgiFields (textAt c.payload p)).length := by omega
      refine ⟨_, List.getElem?_eq_getElem hkfields, ?_⟩
      have hslot := hslots k _ hkmax (List.getElem?_eq_getElem hkfields)
      rwa [Nat.zero_add] at hslot

end ThirdParty.Httpd
