import Mathlib.Data.List.Basic
import Mathlib.Data.List.Nodup
import Mathlib.Data.List.Count
import Mathlib.Logic.Function.Basic

/-!
# `Lib.Chain` — chains of cells, shared and counted

Cells with a `next` pointer form chains. `Chained next p ps` says that the chain from `p` runs through `ps` to its end;
it is then the only one, and has no cell twice. Chains may share their tails, so the cells are counted: `Counted` has
the cells in use, their pointers and their reference counts, and `Counted.Exact` says that the counts are the numbers of
pointers to each cell, from outside (`held`) and from other cells. Releasing a pointer frees cells down the chain for as
long as the counts reach zero, and with exact counts that frees the cells nothing leads to, and no others.
-/

namespace ThirdParty.Lib

section
variable {α : Type*}

/-! ## Chains -/

/-- The chain from `p` on is `ps`. -/
inductive Chained (next : α → Option α) : Option α → List α → Prop
  | nil : Chained next none []
  | cons {p : α} {ps : List α} (h : Chained next (next p) ps) : Chained next (some p) (p :: ps)

/-- The first `fuel` cells from `p` on. -/
def follow (next : α → Option α) : Nat → Option α → List α
  | 0,        _      => []
  | _ + 1,    none   => []
  | fuel + 1, some p => p :: follow next fuel (next p)

variable {next next' : α → Option α} {o : Option α} {p q : α} {ps qs : List α}

theorem Chained.some_inv (h : Chained next (some p) ps) : ∃ qs, ps = p :: qs ∧ Chained next (next p) qs := by
  cases h with
  | cons h => exact ⟨_, rfl, h⟩

theorem Chained.unique (h : Chained next o ps) : Chained next o qs → qs = ps := by
  induction h generalizing qs with
  | nil =>
      intro h'
      cases h'
      rfl
  | cons h ih =>
      intro h'
      obtain ⟨qs, rfl, hqs⟩ := h'.some_inv
      rw [ih hqs]

theorem Chained.follow_eq (h : Chained next o ps) : ∀ {fuel : Nat}, ps.length ≤ fuel → follow next fuel o = ps := by
  induction h with
  | nil => intro fuel _; cases fuel <;> rfl
  | cons h ih =>
      intro fuel hfuel
      cases fuel with
      | zero => exact absurd hfuel (Nat.not_succ_le_zero _)
      | succ fuel => rw [follow, ih (Nat.le_of_succ_le_succ hfuel)]

/-- What follows a cell of a chain is a chain. -/
theorem Chained.drop : ∀ {ps : List α} {o : Option α}, Chained next o (ps ++ q :: qs) → Chained next (some q) (q :: qs)
  | [],      _, h => by
      cases h with
      | cons h => exact .cons h
  | _ :: ps, _, h => by
      cases h with
      | cons h => exact Chained.drop h

theorem Chained.after (h : Chained next o ps) (hq : q ∈ ps) : ∃ pre qs, ps = pre ++ q :: qs ∧
    Chained next (some q) (q :: qs) := by
  obtain ⟨pre, qs, rfl⟩ := List.append_of_mem hq
  exact ⟨pre, qs, rfl, h.drop⟩

/-- The cell after one that is not the last is the next one of the chain. -/
theorem Chained.next_before {x : α} (h : Chained next o (ps ++ q :: qs)) (hx : x ∈ ps) :
    ∃ y ∈ ps ++ [q], next x = some y := by
  obtain ⟨ps₁, ps₂, rfl⟩ := List.append_of_mem hx
  rw [List.append_assoc, List.cons_append] at h
  obtain ⟨rs, hrs, hrest⟩ := h.drop.some_inv
  rw [← (List.cons.inj hrs).2] at hrest
  cases ps₂ with
  | nil =>
      generalize hnext : next x = o' at hrest
      cases hrest
      exact ⟨q, by simp, rfl⟩
  | cons y ps₂ =>
      generalize hnext : next x = o' at hrest
      cases hrest
      exact ⟨y, by simp, rfl⟩

theorem Chained.nodup (h : Chained next o ps) : ps.Nodup := by
  induction h with
  | nil => exact List.nodup_nil
  | @cons p ps h ih =>
      refine List.nodup_cons.mpr ⟨fun hp => ?_, ih⟩
      -- a cell met again would lead to a chain that is longer than itself
      obtain ⟨pre, qs, heq, hqs⟩ := h.after hp
      have hsame := (Chained.cons h).unique hqs
      rw [heq] at hsame
      have hlen := congrArg List.length (List.cons.inj hsame).2
      simp only [List.length_append, List.length_cons] at hlen
      omega

theorem Chained.congr (h : Chained next o ps) : (∀ q ∈ ps, next' q = next q) → Chained next' o ps := by
  induction h with
  | nil => intro _; exact .nil
  | @cons p ps h ih =>
      intro hsame
      refine .cons ?_
      rw [hsame p List.mem_cons_self]
      exact ih fun q hq => hsame q (List.mem_cons_of_mem p hq)

/-- A chain is closed under `next`. -/
theorem Chained.next_mem (h : Chained next o ps) (hq : q ∈ ps) (hnext : next q = some p) : p ∈ ps := by
  obtain ⟨pre, qs, rfl, hqs⟩ := h.after hq
  obtain ⟨rs, hrs, hchain⟩ := hqs.some_inv
  rw [hnext] at hchain
  obtain ⟨ts, hts, -⟩ := hchain.some_inv
  rw [hrs, hts]
  simp

/-- The cell before the end. -/
theorem Chained.last (h : Chained next o (ps ++ [q])) : next q = none := by
  obtain ⟨rs, hrs, hrest⟩ := h.drop.some_inv
  rw [← (List.cons.inj hrs).2] at hrest
  generalize next q = o' at hrest
  cases hrest
  rfl

/-- A cell that a chain reaches is its first one, or another one points to it. -/
theorem Chained.pointed (h : Chained next o ps) (hq : q ∈ ps) :
    o = some q ∨ ∃ r ∈ ps, next r = some q := by
  induction h with
  | nil => exact absurd hq List.not_mem_nil
  | @cons p ps h ih =>
      rcases List.mem_cons.mp hq with rfl | hq
      · exact .inl rfl
      · rcases ih hq with hnext | ⟨r, hr, hnext⟩
        · exact .inr ⟨p, List.mem_cons_self, hnext⟩
        · exact .inr ⟨r, List.mem_cons_of_mem p hr, hnext⟩

section
variable [DecidableEq α]

/-- Hanging a chain to the end of another one. -/
theorem Chained.link {t : α} {ts : List α} (h : Chained next o (ps ++ [q])) (ht : Chained next (some t) ts)
    (hq : q ∉ ts) :
    Chained (Function.update next q (some t)) o (ps ++ q :: ts) := by
  generalize hall : ps ++ [q] = all at h
  induction h generalizing ps with
  | nil => simp at hall
  | @cons p rest h ih =>
      cases ps with
      | nil =>
          obtain ⟨rfl, rfl⟩ := List.cons.inj hall
          refine .cons ?_
          rw [Function.update_self]
          exact ht.congr fun r hr => Function.update_of_ne (ne_of_mem_of_not_mem hr hq) _ _
      | cons p' ps =>
          obtain ⟨rfl, rfl⟩ := List.cons.inj hall
          have hne : p' ≠ q := by
            intro heq
            exact (List.nodup_cons.mp (Chained.cons h).nodup).1 (by rw [heq]; simp)
          refine .cons ?_
          rw [Function.update_of_ne hne]
          exact ih rfl

/-- Cutting a chain behind a cell. -/
theorem Chained.cut (h : Chained next o (ps ++ q :: qs)) : Chained (Function.update next q none) o (ps ++ [q]) := by
  generalize hall : ps ++ q :: qs = all at h
  induction h generalizing ps with
  | nil => simp at hall
  | @cons p rest h ih =>
      cases ps with
      | nil =>
          obtain ⟨rfl, rfl⟩ := List.cons.inj hall
          refine .cons ?_
          rw [Function.update_self]
          exact .nil
      | cons p' ps =>
          obtain ⟨rfl, rfl⟩ := List.cons.inj hall
          have hne : p' ≠ q := by
            intro heq
            exact (List.nodup_cons.mp (Chained.cons h).nodup).1 (by rw [heq]; simp)
          refine .cons ?_
          rw [Function.update_of_ne hne]
          exact ih rfl

end

end

/-! ## Counted cells -/

/-- The cells in use, their pointers and their reference counts. -/
structure Counted (α : Type*) where
  live : List α
  next : α → Option α
  ref  : α → Nat

namespace Counted

variable {α : Type*} [DecidableEq α]

/-- How many cells point to `p`. -/
def linksTo (c : Counted α) (p : α) : Nat := c.live.countP fun q => c.next q = some p

/-- **The counts are exact**: they are the numbers of pointers to the cells in use, of those in `held` and of those from
    cells in use. Every pointer leads to a chain of cells in use. -/
structure Exact (c : Counted α) (held : List α) : Prop where
  nodup  : c.live.Nodup
  chains : ∀ p ∈ c.live, ∃ ps, Chained c.next (some p) ps ∧ ∀ q ∈ ps, q ∈ c.live
  points : ∀ p ∈ held, p ∈ c.live
  counts : ∀ p ∈ c.live, c.ref p = held.count p + c.linksTo p
  used   : ∀ p ∈ c.live, 0 < c.ref p

/-- A new cell, with one pointer to it. -/
def alloc (c : Counted α) (p : α) : Counted α :=
  { live := p :: c.live, next := Function.update c.next p none, ref := Function.update c.ref p 1 }

/-- One more pointer to `p`. -/
def retain (c : Counted α) (p : α) : Counted α := { c with ref := Function.update c.ref p (c.ref p + 1) }

/-- The pointer to `t` is stored in `q`. -/
def link (c : Counted α) (q t : α) : Counted α := { c with next := Function.update c.next q (some t) }

/-- The pointer in `q` is taken out. -/
def unlink (c : Counted α) (q : α) : Counted α := { c with next := Function.update c.next q none }

/-- The cell `p` is freed. -/
def dealloc (c : Counted α) (p : α) : Counted α :=
  { c with live := c.live.erase p, ref := Function.update c.ref p 0 }

/-- One pointer to the first cell of a chain is released. -/
def release : List α → Counted α → Counted α
  | [],      c => c
  | p :: ps, c =>
      if c.ref p = 1 then release ps (c.dealloc p) else { c with ref := Function.update c.ref p (c.ref p - 1) }

variable {c : Counted α} {held : List α} {p q r t : α} {ps : List α}

theorem alloc_next : (c.alloc p).next = Function.update c.next p none := rfl

theorem alloc_ref : (c.alloc p).ref = Function.update c.ref p 1 := rfl

theorem release_next : ∀ (ps : List α) (c : Counted α), (release ps c).next = c.next
  | [],      _ => rfl
  | p :: ps, c => by
      unfold release
      split
      · exact release_next ps _
      · rfl

/-- Releasing does not look at the pointers. -/
theorem release_setNext (next : α → Option α) : ∀ (ps : List α) (c : Counted α),
    release ps { c with next := next } = { release ps c with next := next }
  | [],      _ => rfl
  | p :: ps, c => by
      unfold release
      dsimp only
      split
      · exact release_setNext next ps (c.dealloc p)
      · rfl

theorem release_ref_of_notMem : ∀ {ps : List α} {c : Counted α}, q ∉ ps → (release ps c).ref q = c.ref q
  | [],      _, _ => rfl
  | p :: ps, c, h => by
      obtain ⟨hne, hps⟩ := not_or.mp fun hor => h (List.mem_cons.mpr hor)
      unfold release
      split
      · exact (release_ref_of_notMem hps).trans (Function.update_of_ne hne _ _)
      · exact Function.update_of_ne hne _ _

theorem mem_release_live : ∀ {ps : List α} {c : Counted α}, q ∈ (release ps c).live → q ∈ c.live
  | [],      _, h => h
  | p :: ps, c, h => by
      unfold release at h
      split at h
      · exact List.mem_of_mem_erase (mem_release_live h)
      · exact h

theorem mem_release_of_notMem : ∀ {ps : List α} {c : Counted α}, q ∉ ps → q ∈ c.live → q ∈ (release ps c).live
  | [],      _, _, hq => hq
  | p :: ps, c, h, hq => by
      obtain ⟨hne, hps⟩ := not_or.mp fun hor => h (List.mem_cons.mpr hor)
      unfold release
      split
      · exact mem_release_of_notMem hps ((List.mem_erase_of_ne hne).mpr hq)
      · exact hq

/-! ### Exact counts -/

theorem linksTo_eq_zero : c.linksTo p = 0 ↔ ∀ q ∈ c.live, c.next q ≠ some p := by
  simp [linksTo, List.countP_eq_zero]

/-- One pointer is changed. -/
theorem linksTo_update (hnodup : c.live.Nodup) (hq : q ∈ c.live) (o : Option α) (p : α) :
    linksTo { c with next := Function.update c.next q o } p + (if c.next q = some p then 1 else 0) =
      c.linksTo p + if o = some p then 1 else 0 := by
  obtain ⟨l₁, l₂, hlive⟩ := List.append_of_mem hq
  rw [hlive] at hnodup
  have hnot : ∀ r ∈ l₁ ++ l₂, r ≠ q := by
    intro r hr heq
    rw [List.nodup_middle, List.nodup_cons] at hnodup
    exact hnodup.1 (heq ▸ hr)
  have hsame : ∀ l : List α, (∀ r ∈ l, r ≠ q) →
      l.countP (fun r => Function.update c.next q o r = some p) = l.countP fun r => c.next r = some p := by
    intro l hl
    refine List.countP_congr fun r hr => ?_
    rw [Function.update_of_ne (hl r hr)]
  unfold linksTo
  rw [hlive, List.countP_append, List.countP_append, List.countP_cons, List.countP_cons,
    hsame l₁ fun r hr => hnot r (List.mem_append_left _ hr), hsame l₂ fun r hr => hnot r (List.mem_append_right _ hr)]
  simp only [decide_eq_true_eq, Function.update_self]
  omega

theorem Exact.chain_live (h : c.Exact held) (hp : p ∈ c.live) (hps : Chained c.next (some p) ps) :
    ∀ q ∈ ps, q ∈ c.live := by
  obtain ⟨qs, hqs, hall⟩ := h.chains p hp
  rw [hqs.unique hps]
  exact hall

theorem Exact.next_live (h : c.Exact held) (hp : p ∈ c.live) (hnext : c.next p = some q) : q ∈ c.live := by
  obtain ⟨ps, hps, hall⟩ := h.chains p hp
  exact hall q (hps.next_mem (by obtain ⟨qs, rfl, -⟩ := hps.some_inv; exact List.mem_cons_self) hnext)

theorem Exact.perm {held' : List α} (h : c.Exact held) (hperm : held.Perm held') : c.Exact held' :=
  ⟨h.nodup, h.chains, fun p hp => h.points p (hperm.mem_iff.mpr hp),
    fun p hp => by rw [← hperm.count_eq]; exact h.counts p hp,
    h.used⟩

/-- No cell points to one that is not in use. -/
theorem Exact.linksTo_of_notMem (h : c.Exact held) (hp : p ∉ c.live) : c.linksTo p = 0 :=
  linksTo_eq_zero.mpr fun _ hq hnext => hp (h.next_live hq hnext)

theorem Exact.count_of_notMem (h : c.Exact held) (hp : p ∉ c.live) : held.count p = 0 :=
  List.count_eq_zero.mpr fun hmem => hp (h.points p hmem)

theorem Exact.alloc (h : c.Exact held) (hp : p ∉ c.live) : (c.alloc p).Exact (p :: held) := by
  have hne : ∀ q ∈ c.live, q ≠ p := fun q hq heq => hp (heq ▸ hq)
  have hlinks : ∀ q, (c.alloc p).linksTo q = c.linksTo q := by
    intro q
    unfold linksTo Counted.alloc
    rw [List.countP_cons]
    simp only [Function.update_self, reduceCtorEq, decide_false, Bool.false_eq_true, if_false, Nat.add_zero]
    refine List.countP_congr fun r hr => ?_
    simp only [Function.update_of_ne (hne r hr)]
  refine ⟨List.nodup_cons.mpr ⟨hp, h.nodup⟩, fun q hq => ?_, fun q hq => ?_, fun q hq => ?_, fun q hq => ?_⟩
  · rcases List.mem_cons.mp hq with rfl | hq
    · refine ⟨[q], .cons ?_, fun r hr => by rw [List.mem_singleton.mp hr]; exact List.mem_cons_self⟩
      rw [alloc_next, Function.update_self]
      exact .nil
    · obtain ⟨ps, hps, hall⟩ := h.chains q hq
      exact ⟨ps, hps.congr fun r hr => Function.update_of_ne (hne r (hall r hr)) _ _,
        fun r hr => List.mem_cons_of_mem _ (hall r hr)⟩
  · rcases List.mem_cons.mp hq with rfl | hq
    · exact List.mem_cons_self
    · exact List.mem_cons_of_mem _ (h.points q hq)
  · rw [hlinks]
    rcases List.mem_cons.mp hq with rfl | hq
    · rw [List.count_cons_self, h.count_of_notMem hp, h.linksTo_of_notMem hp]
      exact Function.update_self ..
    · rw [List.count_cons_of_ne (hne q hq).symm, ← h.counts q hq]
      exact Function.update_of_ne (hne q hq) _ _
  · rcases List.mem_cons.mp hq with rfl | hq
    · rw [alloc_ref, Function.update_self]
      exact Nat.one_pos
    · rw [alloc_ref, Function.update_of_ne (hne q hq)]
      exact h.used q hq

theorem Exact.retain (h : c.Exact held) (hp : p ∈ c.live) : (c.retain p).Exact (p :: held) := by
  refine ⟨h.nodup, h.chains, fun q hq => ?_, fun q hq => ?_, fun q hq => ?_⟩
  · rcases List.mem_cons.mp hq with rfl | hq
    · exact hp
    · exact h.points q hq
  · have hcount := h.counts q hq
    show Function.update c.ref p (c.ref p + 1) q = (p :: held).count q + c.linksTo q
    by_cases hqp : q = p
    · subst hqp
      rw [Function.update_self, List.count_cons_self]
      omega
    · rw [Function.update_of_ne hqp, List.count_cons_of_ne (Ne.symm hqp)]
      exact hcount
  · have hused := h.used q hq
    show 0 < Function.update c.ref p (c.ref p + 1) q
    by_cases hqp : q = p
    · rw [hqp, Function.update_self]
      exact Nat.succ_pos _
    · rw [Function.update_of_ne hqp]
      exact hused

/-- A held pointer is stored in the last cell of another chain. -/
theorem Exact.link (h : c.Exact (t :: held)) (hq : q ∈ c.live) (hnext : c.next q = none) {ts : List α}
    (ht : Chained c.next (some t) ts) (hqt : q ∉ ts) : (c.link q t).Exact held := by
  have htlive := h.points t List.mem_cons_self
  refine ⟨h.nodup, fun r hr => ?_, fun r hr => h.points r (List.mem_cons_of_mem t hr), fun r hr => ?_, h.used⟩
  · obtain ⟨ps, hps, hall⟩ := h.chains r hr
    by_cases hmem : q ∈ ps
    · obtain ⟨pre, qs, rfl, hqs⟩ := hps.after hmem
      obtain ⟨rs, hrs, hrest⟩ := hqs.some_inv
      rw [hnext] at hrest
      cases hrest
      obtain rfl : qs = [] := (List.cons.inj hrs).2
      refine ⟨_, hps.link ht hqt, fun x hx => ?_⟩
      rcases List.mem_append.mp hx with hx | hx
      · exact hall x (List.mem_append_left _ hx)
      · rcases List.mem_cons.mp hx with rfl | hx
        · exact hq
        · exact h.chain_live htlive ht x hx
    · exact ⟨ps, hps.congr fun x hx => Function.update_of_ne (ne_of_mem_of_not_mem hx hmem) _ _, hall⟩
  · have hcount := h.counts r hr
    have hlinks := linksTo_update h.nodup hq (some t) r
    rw [hnext] at hlinks
    simp only [reduceCtorEq, if_false, Nat.add_zero, Option.some.injEq] at hlinks
    show c.ref r = held.count r + linksTo { c with next := Function.update c.next q (some t) } r
    rw [hlinks, hcount, List.count_cons]
    simp only [beq_iff_eq]
    omega

/-- A pointer that is taken out of a cell is held. -/
theorem Exact.unlink (h : c.Exact held) (hq : q ∈ c.live) (hnext : c.next q = some t) :
    (c.unlink q).Exact (t :: held) := by
  refine ⟨h.nodup, fun r hr => ?_, fun r hr => ?_, fun r hr => ?_, h.used⟩
  · obtain ⟨ps, hps, hall⟩ := h.chains r hr
    by_cases hmem : q ∈ ps
    · obtain ⟨pre, qs, rfl, -⟩ := hps.after hmem
      refine ⟨_, hps.cut, fun x hx => hall x ?_⟩
      rcases List.mem_append.mp hx with hx | hx
      · exact List.mem_append_left _ hx
      · rw [List.mem_singleton.mp hx]
        exact hmem
    · exact ⟨ps, hps.congr fun x hx => Function.update_of_ne (ne_of_mem_of_not_mem hx hmem) _ _, hall⟩
  · rcases List.mem_cons.mp hr with rfl | hr
    · exact h.next_live hq hnext
    · exact h.points r hr
  · have hcount := h.counts r hr
    have hlinks := linksTo_update h.nodup hq none r
    rw [hnext] at hlinks
    simp only [reduceCtorEq, if_false, Nat.add_zero, Option.some.injEq] at hlinks
    show c.ref r = (t :: held).count r + linksTo { c with next := Function.update c.next q none } r
    rw [hcount, List.count_cons]
    simp only [beq_iff_eq]
    omega

/-- The only pointer to a cell is released: what the cell points to is held in its place. -/
theorem Exact.dealloc (h : c.Exact (p :: held)) (hone : c.ref p = 1) :
    (c.dealloc p).Exact ((c.next p).toList ++ held) := by
  have hp := h.points p List.mem_cons_self
  have hcount := h.counts p hp
  rw [hone, List.count_cons_self] at hcount
  have hheld : p ∉ held := List.count_eq_zero.mp (by omega)
  have hnolink := linksTo_eq_zero.mp (show c.linksTo p = 0 by omega)
  have hlive : ∀ r, r ∈ c.live.erase p ↔ r ≠ p ∧ r ∈ c.live := fun r => h.nodup.mem_erase_iff
  have hlinks : ∀ r, (c.dealloc p).linksTo r + (if c.next p = some r then 1 else 0) = c.linksTo r := by
    intro r
    have hperm := (List.perm_cons_erase hp).countP_eq fun q => decide (c.next q = some r)
    rw [List.countP_cons] at hperm
    simp only [decide_eq_true_eq] at hperm
    exact hperm.symm
  refine ⟨h.nodup.erase p, fun r hr => ?_, fun r hr => ?_, fun r hr => ?_, fun r hr => ?_⟩
  · obtain ⟨hne, hr⟩ := (hlive r).mp hr
    obtain ⟨ps, hps, hall⟩ := h.chains r hr
    refine ⟨ps, hps, fun x hx => (hlive x).mpr ⟨?_, hall x hx⟩⟩
    rintro rfl
    rcases Chained.pointed hps hx with heq | ⟨y, hy, hnext⟩
    · exact hne (Option.some.inj heq)
    · exact hnolink y (hall y hy) hnext
  · rcases List.mem_append.mp hr with hr | hr
    · have hnext : c.next p = some r := Option.mem_toList.mp hr
      exact (hlive r).mpr ⟨fun heq => hnolink p hp (heq ▸ hnext), h.next_live hp hnext⟩
    · exact (hlive r).mpr ⟨fun heq => hheld (heq ▸ hr), h.points r (List.mem_cons_of_mem p hr)⟩
  · obtain ⟨hne, hr⟩ := (hlive r).mp hr
    have hcount := h.counts r hr
    rw [List.count_cons_of_ne hne.symm] at hcount
    have hlink := hlinks r
    have hhead : (c.next p).toList.count r = if c.next p = some r then 1 else 0 := by
      cases c.next p with
      | none => rfl
      | some q => simp [List.count_singleton, beq_iff_eq]
    show Function.update c.ref p 0 r = _
    rw [Function.update_of_ne hne, List.count_append, hhead]
    omega
  · obtain ⟨hne, hr⟩ := (hlive r).mp hr
    show 0 < Function.update c.ref p 0 r
    rw [Function.update_of_ne hne]
    exact h.used r hr

/-- **Releasing keeps the counts exact.** -/
theorem Exact.release : ∀ {ps : List α} {c : Counted α} {p : α} {held : List α}, c.Exact (p :: held) →
    Chained c.next (some p) ps → (Counted.release ps c).Exact held := by
  intro ps
  induction ps with
  | nil => intro c p held h hps; cases hps
  | cons p' ps ih =>
      intro c p held h hps
      obtain ⟨qs, heq, hrest⟩ := hps.some_inv
      obtain ⟨rfl, rfl⟩ := List.cons.inj heq
      unfold Counted.release
      split
      · next hone =>
          have hdealloc := h.dealloc hone
          have hrest' : Chained (c.dealloc p').next (c.next p') ps := hrest
          cases hnext : c.next p' with
          | none =>
              rw [hnext] at hdealloc hrest'
              cases hrest'
              exact hdealloc
          | some q =>
              rw [hnext] at hdealloc hrest'
              exact ih hdealloc hrest'
      · next hmore =>
          refine ⟨h.nodup, h.chains, fun r hr => h.points r (List.mem_cons_of_mem p' hr), fun r hr => ?_,
            fun r hr => ?_⟩
          · have hcount := h.counts r hr
            show Function.update c.ref p' (c.ref p' - 1) r = held.count r + c.linksTo r
            by_cases hrp : r = p'
            · subst hrp
              rw [List.count_cons_self] at hcount
              rw [Function.update_self]
              omega
            · rw [List.count_cons_of_ne (Ne.symm hrp)] at hcount
              rw [Function.update_of_ne hrp]
              exact hcount
          · have hused := h.used r hr
            show 0 < Function.update c.ref p' (c.ref p' - 1) r
            by_cases hrp : r = p'
            · subst hrp
              rw [Function.update_self]
              omega
            · rw [Function.update_of_ne hrp]
              exact hused

/-- A chain is no longer than there are cells. -/
theorem Exact.chain_length_le (h : c.Exact held) (hp : p ∈ c.live) (hps : Chained c.next (some p) ps) :
    ps.length ≤ c.live.length :=
  (List.subperm_of_subset hps.nodup (h.chain_live hp hps)).length_le

/-- A cell that is not held is pointed to by another one. -/
theorem Exact.pointed (h : c.Exact held) (hp : p ∈ c.live) (hheld : p ∉ held) : ∃ q ∈ c.live, c.next q = some p := by
  have hcount := h.counts p hp
  have hused := h.used p hp
  rw [List.count_eq_zero.mpr hheld] at hcount
  by_contra hno
  have hzero : c.linksTo p = 0 := linksTo_eq_zero.mpr fun q hq hnext => hno ⟨q, hq, hnext⟩
  omega

/-- **The cells in use are those that a held pointer leads to**: none is freed too early, and none is lost. -/
theorem Exact.live_iff (h : c.Exact held) :
    p ∈ c.live ↔ ∃ x ∈ held, ∃ ps, Chained c.next (some x) ps ∧ p ∈ ps := by
  constructor
  swap
  · rintro ⟨x, hx, ps, hps, hp⟩
    exact h.chain_live (h.points x hx) hps p hp
  -- follow the pointers backwards: the chain from the cell before is longer by one, and chains are bounded
  have hback : ∀ (n : Nat) (p : α) (ps : List α), p ∈ c.live → Chained c.next (some p) ps →
      c.live.length < ps.length + n → ∃ x ∈ held, ∃ ps, Chained c.next (some x) ps ∧ p ∈ ps := by
    intro n
    induction n with
    | zero =>
        intro p ps hp hps hlen
        have hle := h.chain_length_le hp hps
        omega
    | succ n ih =>
        intro p ps hp hps hlen
        by_cases hheld : p ∈ held
        · exact ⟨p, hheld, ps, hps, by obtain ⟨qs, rfl, -⟩ := hps.some_inv; exact List.mem_cons_self⟩
        · obtain ⟨q, hq, hnext⟩ := h.pointed hp hheld
          have hchain : Chained c.next (some q) (q :: ps) := .cons (by rw [hnext]; exact hps)
          obtain ⟨x, hx, qs, hqs, hmem⟩ := ih q (q :: ps) hq hchain (by rw [List.length_cons]; omega)
          exact ⟨x, hx, qs, hqs, hqs.next_mem hmem hnext⟩
  intro hp
  obtain ⟨ps, hps, -⟩ := h.chains p hp
  exact hback (c.live.length + 1) p ps hp hps (by omega)

end Counted

end ThirdParty.Lib
