import Mathlib.Data.List.Basic
import Mathlib.Logic.Function.Basic
import ThirdParty.Lib.Bytes

/-!
# `Lwip.Pbuf` — reference counts of pbuf chains

`pbuf_alloc` from the pool, `pbuf_ref`, `pbuf_free` and `pbuf_cat` (`core/pbuf.c`) as they move reference counts
and `next` pointers; what a pbuf carries is left out, and a pbuf is anything that has a name. This is what the
driver needs of `pbuf.c`; `Lwip.Correctness.Views` shows that it is what the whole of it does to the counts.
`pbuf.h` says that the count of a pbuf always equals the number of pointers to it, from an application, from the
stack or from another pbuf's `next`. `Balanced` is that sentence, for a given number of pointers from elsewhere
than `next`; each operation keeps it.
-/

namespace ThirdParty.Lwip

open Lib

variable {β : Type*} [DecidableEq β]

/-- One more at `p`. -/
def incr (f : β → Nat) (p : β) : β → Nat := Function.update f p (f p + 1)

/-- One less at `p`. -/
def decr (f : β → Nat) (p : β) : β → Nat := Function.update f p (f p - 1)

theorem incr_apply (f : β → Nat) (p q : β) : incr f p q = f q + if q = p then 1 else 0 := by
  by_cases h : q = p
  · subst h; simp [incr]
  · simp [incr, h]

theorem decr_apply (f : β → Nat) (p q : β) : decr f p q = f q - if q = p then 1 else 0 := by
  by_cases h : q = p
  · subst h; simp [decr]
  · simp [decr, h]

/-- How many of the `next` pointers in `links` lead to `q`. -/
def pointersTo (links : List (β × β)) (q : β) : Nat := (links.map Prod.snd).count q

theorem pointersTo_cons (p q r : β) (links : List (β × β)) :
    pointersTo ((p, q) :: links) r = pointersTo links r + if r = q then 1 else 0 := by
  unfold pointersTo
  rw [List.map_cons, List.count_cons]
  by_cases h : r = q
  · subst h; simp
  · simp [h, Ne.symm h]

theorem pointersTo_erase {p q : β} {links : List (β × β)} (h : (p, q) ∈ links) (r : β) :
    pointersTo links r = pointersTo (links.erase (p, q)) r + if r = q then 1 else 0 := by
  rw [← pointersTo_cons p]
  exact ((List.perm_cons_erase h).map Prod.snd).count_eq r

/-- The `ref` fields, and each `next` pointer that is not `NULL` as a pair. -/
structure Pbufs (β : Type*) where
  ref   : β → Nat
  links : List (β × β)

namespace Pbufs

variable {m : Pbufs β} {ext : β → Nat}

/-- `p->next`. -/
def next (m : Pbufs β) (p : β) : Option β := (m.links.find? fun l => l.1 = p).map Prod.snd

/-- `p->ref = n`. -/
def setRef (m : Pbufs β) (p : β) (n : Nat) : Pbufs β := { m with ref := Function.update m.ref p n }

/-- `pbuf_ref`; the count is a `u16_t`. -/
def pbufRef (m : Pbufs β) (p : β) : Pbufs β := m.setRef p (toU16 ((m.ref p : Int) + 1))

/-- The loop of `pbuf_free`: it goes on along the chain as long as the counts drop to zero. -/
def pbufFreeLoop : Nat → Pbufs β → β → Pbufs β
  | 0,        m, _ => m
  | fuel + 1, m, p =>
      let m' := m.setRef p (toU16 ((m.ref p : Int) - 1))
      if m'.ref p = 0 then
        match m'.next p with
        | some q => pbufFreeLoop fuel { m' with links := m'.links.erase (p, q) } q
        | none   => m'
      else m'

/-- `pbuf_free`. Each round but the last one follows a `next` pointer. -/
def pbufFree (m : Pbufs β) (p : β) : Pbufs β := pbufFreeLoop (m.links.length + 1) m p

/-- `pbuf_alloc(PBUF_RAW, len, PBUF_POOL)`: the chain that the pool gave for `len` bytes. -/
def pbufAlloc : List β → Pbufs β → Pbufs β
  | [],            m => m
  | [p],           m => { m with ref := Function.update m.ref p 1 }
  | p :: q :: qs,  m =>
      let m' := pbufAlloc (q :: qs) m
      { ref := Function.update m'.ref p 1, links := (p, q) :: m'.links }

/-- `pbuf_cat`: the last pbuf of the first chain now points to the second, whose count stays. -/
def pbufCat (m : Pbufs β) (p q : β) : Pbufs β := { m with links := (p, q) :: m.links }

/-- **Reference counts are exact**: `ref` counts the `next` pointers and the `ext q` others, and has room to. -/
structure Balanced (m : Pbufs β) (ext : β → Nat) : Prop where
  exact : ∀ q, m.ref q = ext q + pointersTo m.links q
  lt    : ∀ q, m.ref q < 65536

theorem Balanced.congr {ext' : β → Nat} (h : m.Balanced ext) (he : ∀ q, ext q = ext' q) : m.Balanced ext' :=
  ⟨fun q => he q ▸ h.exact q, h.lt⟩

theorem mem_links_of_next {p q : β} (h : m.next p = some q) : (p, q) ∈ m.links := by
  obtain ⟨⟨a, b⟩, hfind, rfl⟩ := Option.map_eq_some_iff.mp h
  have hp : a = p := by simpa using List.find?_some hfind
  exact hp ▸ List.mem_of_find?_eq_some hfind

/-- One count changes, and with it the number of pointers from elsewhere. -/
theorem Balanced.setRef {ext' : β → Nat} {p : β} {k : Nat} (h : m.Balanced ext) (hlt : k < 65536)
    (hself : k = ext' p + pointersTo m.links p) (hother : ∀ q, q ≠ p → ext' q = ext q) :
    (m.setRef p k).Balanced ext' := by
  refine ⟨fun q => ?_, fun q => ?_⟩
  · by_cases hq : q = p
    · subst hq
      simpa [Pbufs.setRef] using hself
    · simpa [Pbufs.setRef, hq, hother q hq] using h.exact q
  · by_cases hq : q = p
    · subst hq
      simpa [Pbufs.setRef] using hlt
    · simpa [Pbufs.setRef, hq] using h.lt q

theorem Balanced.pbufRef {p : β} (h : m.Balanced ext) (hp : m.ref p < 65535) : (m.pbufRef p).Balanced (incr ext p) := by
  have hsucc : toU16 ((m.ref p : Int) + 1) = m.ref p + 1 := toU16_of_lt (n := m.ref p + 1) (by omega)
  have hexact := h.exact p
  refine h.setRef (toU16_lt _) ?_ fun q hq => by rw [incr_apply, if_neg hq, Nat.add_zero]
  rw [hsucc, incr_apply, if_pos rfl]
  omega

/-- One pointer less from elsewhere. -/
theorem Balanced.drop {p : β} (h : m.Balanced (incr ext p)) :
    (m.setRef p (toU16 ((m.ref p : Int) - 1))).Balanced ext := by
  have hexact := h.exact p
  rw [incr_apply, if_pos rfl] at hexact
  have hpred : toU16 ((m.ref p : Int) - 1) = m.ref p - 1 := toU16_sub (b := 1) (by omega) (h.lt p)
  refine h.setRef (toU16_lt _) ?_ fun q hq => by rw [incr_apply, if_neg hq, Nat.add_zero]
  rw [hpred]
  omega

theorem Balanced.pbufFreeLoop : ∀ (fuel : Nat) (m : Pbufs β) (p : β), m.Balanced (incr ext p) →
    m.links.length < fuel → (Pbufs.pbufFreeLoop fuel m p).Balanced ext := by
  intro fuel
  induction fuel with
  | zero => intro m p _ hfuel; exact absurd hfuel (Nat.not_lt_zero _)
  | succ fuel ih =>
      intro m p h hfuel
      have hdrop := h.drop
      unfold Pbufs.pbufFreeLoop
      simp only
      split
      · cases hnext : (m.setRef p (toU16 ((m.ref p : Int) - 1))).next p with
        | none => exact hdrop
        | some q =>
            have hlink := mem_links_of_next hnext
            refine ih _ q ⟨fun r => ?_, hdrop.lt⟩ ?_
            · -- the pointer of the freed pbuf is dropped, so its reference counts as one from elsewhere
              have hr := hdrop.exact r
              rw [pointersTo_erase hlink r] at hr
              rw [incr_apply, Nat.add_assoc, Nat.add_comm (if r = q then 1 else 0)]
              exact hr
            · -- one link less, so the fuel is enough
              have hlen := List.length_erase_of_mem hlink
              have hpos := List.length_pos_of_mem hlink
              simp only [Pbufs.setRef] at hlen hpos ⊢
              omega
      · exact hdrop

/-- **Freeing** gives back one pointer to `p`. -/
theorem Balanced.pbufFree {p : β} (h : m.Balanced ext) (hp : 0 < ext p) :
    (m.pbufFree p).Balanced (decr ext p) := by
  refine Balanced.pbufFreeLoop _ m p (h.congr fun q => ?_) (Nat.lt_succ_self _)
  rw [incr_apply, decr_apply]
  split
  · next hq => subst hq; omega
  · omega

theorem pbufAlloc_ref_of_notMem : ∀ {ps : List β} {q : β}, q ∉ ps → (pbufAlloc ps m).ref q = m.ref q
  | [],            _, _  => rfl
  | [_],           _, hq => Function.update_of_ne (List.ne_of_not_mem_cons hq) _ _
  | _ :: q' :: qs, _, hq => by
      rw [pbufAlloc]
      simp only
      rw [Function.update_of_ne (List.ne_of_not_mem_cons hq)]
      exact pbufAlloc_ref_of_notMem (List.not_mem_of_not_mem_cons hq)

/-- **Allocation** of a chain of free pbufs gives out one pointer, to its first pbuf. -/
theorem Balanced.pbufAlloc (h : m.Balanced ext) : ∀ {ps : List β} {p : β}, (p :: ps).Nodup →
    (∀ q ∈ p :: ps, m.ref q = 0) → (Pbufs.pbufAlloc (p :: ps) m).Balanced (incr ext p)
  | [], p, _, hfree => by
      have hp := hfree p List.mem_cons_self
      refine ⟨fun r => ?_, fun r => ?_⟩
      · have hr := h.exact r
        simp only [Pbufs.pbufAlloc, incr_apply, Function.update_apply] at hr ⊢
        split
        · next hrp => subst hrp; omega
        · omega
      · have hr := h.lt r
        simp only [Pbufs.pbufAlloc, Function.update_apply]
        split <;> omega
  | q :: qs, p, hnodup, hfree => by
      have ih := Balanced.pbufAlloc h hnodup.of_cons fun r hr => hfree r (List.mem_cons_of_mem p hr)
      have hp : (Pbufs.pbufAlloc (q :: qs) m).ref p = 0 := by
        rw [pbufAlloc_ref_of_notMem (List.nodup_cons.mp hnodup).1]
        exact hfree p List.mem_cons_self
      refine ⟨fun r => ?_, fun r => ?_⟩
      · have hr := ih.exact r
        simp only [Pbufs.pbufAlloc, incr_apply, Function.update_apply, pointersTo_cons] at hr ⊢
        split
        · next hrp => subst hrp; omega
        · omega
      · have hr := ih.lt r
        simp only [Pbufs.pbufAlloc, Function.update_apply] at hr ⊢
        split <;> omega

/-- **Concatenation** turns the caller's pointer to `q` into a `next` pointer. -/
theorem Balanced.pbufCat {q : β} (h : m.Balanced ext) (p : β) (hq : 0 < ext q) :
    (m.pbufCat p q).Balanced (decr ext q) := by
  refine ⟨fun r => ?_, h.lt⟩
  have hr := h.exact r
  simp only [Pbufs.pbufCat, decr_apply, pointersTo_cons] at hr ⊢
  split
  · next hrq => subst hrq; omega
  · omega

end Pbufs

end ThirdParty.Lwip
