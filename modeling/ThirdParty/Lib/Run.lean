import Mathlib.Data.List.Basic

/-!
# `Lib.Run` — runs of a partial step function

A system is a partial step function `step : S → A → Option S`: `none` says that the action is not enabled.
A `Run` is a finite history from a start state; it keeps, newest last, every step taken as the pair of the
state before the step and the action. These rules turn one-step facts into facts about histories:

* `Run.invariant` — what the start has and every step preserves holds at the end of every run, and
  `Run.invariant_of` that what the steps of one run preserve holds in all its states;
* `Run.holds_iff` — when a step from a good state ends in a good state **exactly** if the step is clean,
  every state of a run is good exactly if every step of it is clean;
* `Run.erase` — steps that a relation to another run does not notice can be left out of that run.
-/

namespace ThirdParty.Lib

variable {S A : Type*}

/-- Histories of `step` from `s₀`: the steps taken, oldest first, and the state reached. -/
inductive Run (step : S → A → Option S) (s₀ : S) : List (S × A) → S → Prop where
  | nil : Run step s₀ [] s₀
  | snoc {tr : List (S × A)} {s s' : S} {a : A} :
      Run step s₀ tr s → step s a = some s' → Run step s₀ (tr ++ [(s, a)]) s'

/-- The states a history goes through before its last one. -/
def visited (tr : List (S × A)) : List S := tr.map Prod.fst

/-- Runs a list of actions from `s`; `none` when one of them is not enabled. -/
def runActions (step : S → A → Option S) : S → List A → Option S
  | s, []      => some s
  | s, a :: as => (step s a).bind fun s' => runActions step s' as

/-- The steps that the actions are, as far as they are enabled. -/
def executed (step : S → A → Option S) : S → List A → List (S × A)
  | _, []      => []
  | s, a :: as => (s, a) :: (step s a).elim [] fun s' => executed step s' as

variable {step : S → A → Option S} {s₀ s : S} {tr : List (S × A)}

theorem runActions_append : ∀ (as bs : List A) (s : S),
    runActions step s (as ++ bs) = (runActions step s as).bind fun s' => runActions step s' bs
  | [],      _,  _ => rfl
  | a :: as, bs, s => by
      simp only [List.cons_append, runActions, runActions_append as bs, Option.bind_assoc]

/-- **The invariant rule.** -/
theorem Run.invariant {I : S → Prop} (h : Run step s₀ tr s) (h0 : I s₀)
    (hstep : ∀ {s a s'}, I s → step s a = some s' → I s') : I s := by
  induction h with
  | nil => exact h0
  | snoc _ hs ih => exact hstep ih hs

/-- An invariant of the system holds before every step of a run. -/
theorem Run.invariant_taken {I : S → Prop} (h : Run step s₀ tr s) (h0 : I s₀)
    (hstep : ∀ {s a s'}, I s → step s a = some s' → I s') : ∀ sa ∈ tr, I sa.1 ∧ ∃ s', step sa.1 sa.2 = some s' := by
  induction h with
  | nil => intro sa hsa; exact absurd hsa List.not_mem_nil
  | @snoc tr s s' a hr hs ih =>
      intro sa hsa
      rcases List.mem_append.mp hsa with hsa | hsa
      · exact ih sa hsa
      · rw [List.mem_singleton.mp hsa]
        exact ⟨hr.invariant h0 hstep, s', hs⟩

/-- **The invariant rule** for a run whose steps meet a condition: the invariant holds in all its states. -/
theorem Run.invariant_of {I : S → Prop} {C : S → A → Prop} (h : Run step s₀ tr s) (h0 : I s₀)
    (hC : ∀ sa ∈ tr, C sa.1 sa.2) (hstep : ∀ {s a s'}, I s → C s a → step s a = some s' → I s') :
    (∀ t ∈ visited tr, I t) ∧ I s := by
  induction h with
  | nil => exact ⟨fun _ ht => absurd ht List.not_mem_nil, h0⟩
  | @snoc tr s s' a _ hs ih =>
      have hbefore := ih fun sa hsa => hC sa (List.mem_append_left _ hsa)
      refine ⟨fun t ht => ?_, hstep hbefore.2 (hC (s, a) (by simp)) hs⟩
      rw [visited, List.map_append, List.mem_append] at ht
      rcases ht with ht | ht
      · exact hbefore.1 t ht
      · rw [List.mem_singleton.mp ht]
        exact hbefore.2

/-- A run is a run to any of its states and one from there. -/
theorem Run.split (h : Run step s₀ tr s) : ∀ {tr₁ tr₂ : List (S × A)}, tr = tr₁ ++ tr₂ →
    ∃ t, Run step s₀ tr₁ t ∧ Run step t tr₂ s := by
  induction h with
  | nil =>
      intro tr₁ tr₂ hall
      obtain ⟨rfl, rfl⟩ := List.append_eq_nil_iff.mp hall.symm
      exact ⟨_, .nil, .nil⟩
  | @snoc tr s s' a hr hs ih =>
      intro tr₁ tr₂ hall
      rcases List.eq_nil_or_concat tr₂ with rfl | ⟨tr₃, sa, rfl⟩
      · rw [List.append_nil] at hall
        exact ⟨s', hall ▸ hr.snoc hs, .nil⟩
      · rw [List.concat_eq_append, ← List.append_assoc] at hall
        obtain ⟨hbefore, hlast⟩ := List.append_inj' hall rfl
        obtain rfl := List.singleton_inj.mp hlast
        obtain ⟨t, hto, hfrom⟩ := ih hbefore
        exact ⟨t, hto, List.concat_eq_append ▸ hfrom.snoc hs⟩

/-- The first step of a run. -/
theorem Run.head {sa : S × A} (h : Run step s₀ (sa :: tr) s) :
    sa.1 = s₀ ∧ ∃ s', step s₀ sa.2 = some s' ∧ Run step s' tr s := by
  obtain ⟨t, hfirst, hrest⟩ := h.split (show sa :: tr = [sa] ++ tr from rfl)
  generalize hone : [sa] = one at hfirst
  cases hfirst with
  | nil => cases hone
  | snoc hr hs =>
      obtain ⟨hnil, hsa⟩ := List.append_inj' ((List.nil_append _).trans hone) rfl
      obtain rfl := List.singleton_inj.mp hsa
      subst hnil
      generalize hnone : ([] : List (S × A)) = none at hr
      cases hr with
      | nil => exact ⟨rfl, t, hs, hrest⟩
      | snoc => simp at hnone

/-- **The exact-condition rule.** `I` is an invariant, `P` the property and `C` a condition on one step. If
    every step between states of the invariant ends in `P` exactly when it meets `C`, then `P` holds in every
    state of the run exactly when all its steps meet `C`. -/
theorem Run.holds_iff {I P : S → Prop} {C : S → A → Prop} (h : Run step s₀ tr s) (hI : I s₀) (hP : P s₀)
    (hinv : ∀ {s a s'}, I s → step s a = some s' → I s')
    (hexact : ∀ {s a s'}, I s → P s → step s a = some s' → (P s' ↔ C s a)) :
    ((∀ t ∈ visited tr, P t) ∧ P s) ↔ ∀ sa ∈ tr, C sa.1 sa.2 := by
  induction h with
  | nil => simp [visited, hP]
  | @snoc tr s s' a hr hs ih =>
      have hIs : I s := hr.invariant hI hinv
      have hsplit : (∀ t ∈ visited (tr ++ [(s, a)]), P t) ↔ ((∀ t ∈ visited tr, P t) ∧ P s) := by
        simp [visited, or_imp, forall_and]
      rw [hsplit]
      constructor
      · rintro ⟨hbefore, hs'⟩ sa hsa
        rcases List.mem_append.mp hsa with hsa | hsa
        · exact ih.mp hbefore sa hsa
        · rw [List.mem_singleton.mp hsa]
          exact (hexact hIs hbefore.2 hs).mp hs'
      · intro hC
        have hbefore := ih.mpr (fun sa hsa => hC sa (List.mem_append_left _ hsa))
        exact ⟨hbefore, (hexact hIs hbefore.2 hs).mpr (hC (s, a) (by simp))⟩

/-- **The erasure rule.** `R` relates a run to one that makes only the actions with `keep`: those are followed step by
    step, and the others lead to states still related to where the second run stands. -/
theorem Run.erase {R : S → S → Prop} {keep : A → Bool} {t₀ : S} (h : Run step s₀ tr s) (h0 : R s₀ t₀)
    (hkeep : ∀ {s a s' t}, (s, a) ∈ tr → keep a = true → R s t → step s a = some s' → ∃ t', step t a = some t' ∧
      R s' t')
    (hdrop : ∀ {s a s' t}, (s, a) ∈ tr → keep a = false → R s t → step s a = some s' → R s' t) :
    ∃ tr' t, Run step t₀ tr' t ∧ tr'.map Prod.snd = (tr.map Prod.snd).filter keep ∧ R s t := by
  induction h with
  | nil => exact ⟨[], t₀, .nil, rfl, h0⟩
  | @snoc tr s s' a hr hs ih =>
      have hlast : (s, a) ∈ tr ++ [(s, a)] := List.mem_append_right _ (List.mem_singleton_self _)
      obtain ⟨tr', t, hrun, hacts, hrel⟩ := ih
        (fun hmem hk hR hst => hkeep (List.mem_append_left _ hmem) hk hR hst)
        (fun hmem hk hR hst => hdrop (List.mem_append_left _ hmem) hk hR hst)
      cases hk : keep a with
      | true =>
          obtain ⟨t', ht', hrel'⟩ := hkeep hlast hk hrel hs
          exact ⟨tr' ++ [(t, a)], t', hrun.snoc ht', by simp [hacts, hk], hrel'⟩
      | false => exact ⟨tr', t, hrun, by simp [hacts, hk], hdrop hlast hk hrel hs⟩

/-- Executing a list of actions is a run. -/
theorem Run.executed {as : List A} (h : runActions step s₀ as = some s) : Run step s₀ (executed step s₀ as) s := by
  have main : ∀ (as : List A) (tr₀ : List (S × A)) (t : S), Run step s₀ tr₀ t →
      runActions step t as = some s → Run step s₀ (tr₀ ++ ThirdParty.Lib.executed step t as) s := by
    intro as
    induction as with
    | nil =>
        intro tr₀ t hr ht
        obtain rfl := Option.some.inj ht
        simpa [ThirdParty.Lib.executed] using hr
    | cons a as ih =>
        intro tr₀ t hr ht
        obtain ⟨t', hstep, hrest⟩ := Option.bind_eq_some_iff.mp ht
        simpa [ThirdParty.Lib.executed, hstep] using ih _ t' (hr.snoc hstep) hrest
  simpa using main as [] s₀ .nil h

theorem executed_map_snd {as : List A} (h : runActions step s as = some s₀) :
    (executed step s as).map Prod.snd = as := by
  induction as generalizing s with
  | nil => rfl
  | cons a as ih =>
      obtain ⟨t', hstep, hrest⟩ := Option.bind_eq_some_iff.mp h
      simp [executed, hstep, ih hrest]

/-- The end of an executed list of actions is the end of a run. -/
theorem Run.of_runActions {as : List A} (h : runActions step s₀ as = some s) :
    ∃ tr, Run step s₀ tr s ∧ tr.map Prod.snd = as :=
  ⟨_, Run.executed h, executed_map_snd h⟩

end ThirdParty.Lib
