import Mathlib.Data.List.Basic

/-!
# `Lib.Trace` — properties of the events of a trace

A trace is a list of events, oldest first. Two kinds of properties speak about the order in it:

* `AtEach P l` — whenever an event happens, `P` holds of the events before it and of the event;
* `NoneAfter p q l` — once an event with `p` has happened, no event with `q` follows.

Both are decided piece by piece: the lemmas say what they mean for a trace that is extended at its end.
-/

namespace ThirdParty.Lib

variable {α : Type*}

/-! ## Every event with its past -/

/-- `P past e` at every event `e` of the trace. -/
def AtEach (P : List α → α → Prop) (l : List α) : Prop := ∀ past e rest, l = past ++ e :: rest → P past e

theorem atEach_nil (P : List α → α → Prop) : AtEach P [] := by
  intro past e rest h
  simp at h

/-- A trace that is extended: the new events see the old ones in their past. -/
theorem AtEach.append {P : List α → α → Prop} {l l' : List α} (h : AtEach P l)
    (h' : AtEach (fun past e => P (l ++ past) e) l') : AtEach P (l ++ l') := by
  intro past e rest heq
  rcases List.append_eq_append_iff.mp heq with ⟨mid, hpast, hrest⟩ | ⟨mid, hl, hmid⟩
  · rw [hpast]
    exact h' mid e rest hrest
  · cases mid with
    | nil =>
        obtain rfl : l = past := by simpa using hl
        simpa using h' [] e rest (by simpa using hmid.symm)
    | cons a mid =>
        obtain ⟨rfl, -⟩ := List.cons.inj hmid
        exact h past e mid hl

theorem AtEach.of_append {P : List α → α → Prop} {l l' : List α} (h : AtEach P (l ++ l')) : AtEach P l := by
  intro past e rest heq
  exact h past e (rest ++ l') (by rw [heq]; simp)

/-- One event more. -/
theorem atEach_snoc {P : List α → α → Prop} {l : List α} {e : α} : AtEach P (l ++ [e]) ↔ AtEach P l ∧ P l e := by
  constructor
  · intro h
    exact ⟨h.of_append, h l e [] rfl⟩
  · rintro ⟨hl, hlast⟩
    refine hl.append fun past e' rest heq => ?_
    cases past with
    | nil =>
        obtain ⟨rfl, -⟩ := List.cons.inj heq
        simpa using hlast
    | cons a past => simp at heq

/-- When neither the past nor the order matters. -/
theorem atEach_of_forall {P : List α → α → Prop} {l : List α} (h : ∀ past, ∀ e ∈ l, P past e) : AtEach P l := by
  intro past e rest heq
  exact h past e (by rw [heq]; simp)

/-! ## Nothing after -/

/-- No event with `q` comes after an event with `p`. -/
def NoneAfter (p q : α → Bool) (l : List α) : Prop := l.Pairwise fun e e' => p e = true → q e' = false

instance (p q : α → Bool) (l : List α) : Decidable (NoneAfter p q l) := by
  unfold NoneAfter
  infer_instance

variable {p q : α → Bool} {l l' : List α}

theorem noneAfter_append : NoneAfter p q (l ++ l') ↔
    NoneAfter p q l ∧ NoneAfter p q l' ∧ ((∃ e ∈ l, p e = true) → ∀ e' ∈ l', q e' = false) := by
  unfold NoneAfter
  rw [List.pairwise_append]
  constructor
  · rintro ⟨hl, hl', hcross⟩
    exact ⟨hl, hl', fun ⟨e, he, hp⟩ e' he' => hcross e he e' he' hp⟩
  · rintro ⟨hl, hl', hcross⟩
    exact ⟨hl, hl', fun e he e' he' hp => hcross ⟨e, he, hp⟩ e' he'⟩

/-- A trace without `p` events. -/
theorem noneAfter_of_no_start (h : ∀ e ∈ l, p e = false) : NoneAfter p q l := by
  refine List.Pairwise.imp_of_mem (R := fun _ _ => True) ?_ (List.pairwise_of_forall fun _ _ => trivial)
  intro e e' he _ _ hp
  exact absurd (h e he) (by simp [hp])

/-- A trace without `q` events. -/
theorem noneAfter_of_no_end (h : ∀ e ∈ l, q e = false) : NoneAfter p q l := by
  refine List.Pairwise.imp_of_mem (R := fun _ _ => True) ?_ (List.pairwise_of_forall fun _ _ => trivial)
  intro e e' _ he' _ _
  exact h e' he'

end ThirdParty.Lib
