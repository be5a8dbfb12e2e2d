import ThirdParty.Lib.Run
import ThirdParty.Lwip.Correctness.Heap
import ThirdParty.Lwip.Packets

/-!
# `Lwip.Correctness.Packets` — reference counts, lengths and blocks of packet buffers

`pbuf.h` promises two things of every `struct pbuf`: its count is the number of pointers to it, and its `tot_len` is its
`len` and the `tot_len` of the next pbuf. `Formed` is these two sentences, together with where a payload lies in its
block. Every call of `pbuf.c` keeps it, so at any time the pbufs that are allocated are those some client can reach.
-/

namespace ThirdParty.Lwip

open Lib

namespace Packets

/-- The pbufs as counted cells. -/
def counted (s : Packets) : Counted Nat := { live := s.live, next := s.next, ref := fun p => (s.pbuf p).ref }

/-- The same pbufs with other counts. -/
def withCounts (s : Packets) (c : Counted Nat) : Packets :=
  { s with live := c.live, pbuf := fun p => { s.pbuf p with ref := c.ref p } }

/-- The `tot_len` of the pbuf after `p`. -/
def rest (s : Packets) (p : Nat) : Nat := (s.next p).elim 0 fun q => (s.pbuf q).totLen

end Packets

/-- The payload lies in the pbuf's own block. -/
def Pbuf.owns (b : Pbuf) : Prop := b.type = .ram ∨ b.type = .pool

instance (b : Pbuf) : Decidable b.owns := by unfold Pbuf.owns; infer_instance

/-- The payload of `p` is inside its block, behind `struct pbuf`, or in the memory that belongs to no pbuf. -/
structure Placed (cfg : PbufConfig) (s : Packets) (p : Nat) : Prop where
  inside  : (s.pbuf p).owns → (s.pbuf p).payload.block = some p ∧ cfg.sizeofStructPbuf ≤ (s.pbuf p).payload.off ∧
    (s.pbuf p).payload.off + (s.pbuf p).len ≤ s.size p ∧ s.size p < 65536
  outside : ¬(s.pbuf p).owns → (s.pbuf p).payload.block = none

/-- **What `pbuf.h` says of the pbufs**, where `missing p` bytes are still to be allocated behind `p`. -/
structure Formed (cfg : PbufConfig) (missing : Nat → Nat) (s : Packets) (held : List Nat) : Prop where
  exact    : s.counted.Exact held
  ref_lt   : ∀ p ∈ s.live, (s.pbuf p).ref < 65536
  total    : ∀ p ∈ s.live, (s.pbuf p).totLen = (s.pbuf p).len + missing p + s.rest p
  total_lt : ∀ p ∈ s.live, (s.pbuf p).totLen < 65536
  placed   : ∀ p ∈ s.live, Placed cfg s p

/-- Nothing is missing between the calls. -/
abbrev PacketInv (cfg : PbufConfig) (s : Packets) (held : List Nat) : Prop := Formed cfg (fun _ => 0) s held

namespace Packets

variable {s : Packets} {c : Counted Nat} {p q : Nat} {b : Pbuf}

theorem put_self (s : Packets) (p : Nat) (b : Pbuf) : (s.put p b).pbuf p = b := Function.update_self ..

theorem give_self (s : Packets) (p size : Nat) (b : Pbuf) : (s.give p size b).pbuf p = b := Function.update_self ..

theorem give_size (s : Packets) (p size : Nat) (b : Pbuf) : (s.give p size b).size p = size := Function.update_self ..

theorem put_of_ne (h : q ≠ p) : (s.put p b).pbuf q = s.pbuf q := Function.update_of_ne h ..

theorem next_put (s : Packets) (p : Nat) (b : Pbuf) : (s.put p b).next = Function.update s.next p b.next := by
  funext q
  by_cases hq : q = p
  · rw [hq, Function.update_self, next, put_self]
  · rw [Function.update_of_ne hq, next, put_of_ne hq]
    rfl

/-- A pbuf that keeps its pointer and its count. -/
theorem counted_put (hnext : b.next = s.next p) (href : b.ref = (s.pbuf p).ref) : (s.put p b).counted = s.counted := by
  unfold counted
  rw [next_put, hnext, Function.update_eq_self]
  congr 1
  funext q
  by_cases hq : q = p
  · rw [hq, put_self, href]
  · rw [put_of_ne hq]

theorem counted_setNext (s : Packets) (p : Nat) (o : Option Nat) :
    (s.setNext p o).counted = { s.counted with next := Function.update s.next p o } := by
  unfold counted setNext
  rw [next_put]
  congr 1
  funext q
  by_cases hq : q = p
  · rw [hq, put_self]
  · rw [put_of_ne hq]

theorem counted_withCounts (hnext : c.next = s.next) : (s.withCounts c).counted = c := by
  show ({ live := c.live, next := s.next, ref := c.ref } : Counted Nat) = c
  rw [← hnext]

theorem next_withCounts : (s.withCounts c).next = s.next := rfl

/-- Setting a count. -/
theorem setRef_eq (s : Packets) (p n : Nat) :
    s.setRef p n = s.withCounts { s.counted with ref := Function.update s.counted.ref p n } := by
  unfold setRef put withCounts
  congr 1
  funext q
  by_cases hq : q = p
  · rw [hq, Function.update_self]
    show ({ s.pbuf p with ref := n } : Pbuf) = { s.pbuf p with ref := Function.update s.counted.ref p n p }
    rw [Function.update_self]
  · rw [Function.update_of_ne hq]
    show s.pbuf q = { s.pbuf q with ref := Function.update s.counted.ref p n q }
    rw [Function.update_of_ne hq]
    rfl

end Packets

section
variable {cfg : PbufConfig} {missing : Nat → Nat} {s s' : Packets} {held held' : List Nat} {p q t : Nat}
  {c : Counted Nat}

theorem Placed.congr (h : Placed cfg s p) (htype : (s'.pbuf p).type = (s.pbuf p).type)
    (hpayload : (s'.pbuf p).payload = (s.pbuf p).payload) (hlen : (s'.pbuf p).len = (s.pbuf p).len)
    (hsize : s'.size p = s.size p) : Placed cfg s' p := by
  have howns : (s'.pbuf p).owns ↔ (s.pbuf p).owns := by rw [Pbuf.owns, Pbuf.owns, htype]
  refine ⟨fun ho => ?_, fun ho => ?_⟩
  · rw [hpayload, hlen, hsize]
    exact h.inside (howns.mp ho)
  · rw [hpayload]
    exact h.outside fun h' => ho (howns.mpr h')

/-! ## Chains -/

theorem Formed.chained (h : Formed cfg missing s held) (hp : p ∈ s.live) : Chained s.next (some p) (s.chain p) := by
  obtain ⟨ps, hps, -⟩ := h.exact.chains p hp
  have hfollow : s.chain p = ps := hps.follow_eq (h.exact.chain_length_le hp hps)
  rw [hfollow]
  exact hps

theorem Formed.chain_live (h : Formed cfg missing s held) (hp : p ∈ s.live) : ∀ q ∈ s.chain p, q ∈ s.live :=
  h.exact.chain_live hp (h.chained hp)

theorem Formed.chain_eq (h : Formed cfg missing s held) (hp : p ∈ s.live) {ps : List Nat}
    (hps : Chained s.next (some p) ps) : s.chain p = ps :=
  hps.unique (h.chained hp)

theorem Formed.mem_chain (h : Formed cfg missing s held) (hp : p ∈ s.live) : p ∈ s.chain p := by
  obtain ⟨qs, hqs, -⟩ := (h.chained hp).some_inv
  rw [hqs]
  exact List.mem_cons_self

/-- The last pbuf of a chain. -/
theorem Formed.chain_last (h : Formed cfg missing s held) (hp : p ∈ s.live) :
    ∃ ps l, s.chain p = ps ++ [l] ∧ s.next l = none := by
  obtain ⟨qs, hqs, -⟩ := (h.chained hp).some_inv
  obtain hnil | ⟨ps, l, heq⟩ := List.eq_nil_or_concat (s.chain p)
  · rw [hqs] at hnil
    cases hnil
  · rw [List.concat_eq_append] at heq
    refine ⟨ps, l, heq, ?_⟩
    have hchain := h.chained hp
    rw [heq] at hchain
    exact hchain.last

/-- What comes behind a pbuf is no longer in all. -/
theorem Formed.total_le (h : Formed cfg missing s held) (hp : p ∈ s.live) (hq : q ∈ s.chain p) :
    (s.pbuf q).totLen ≤ (s.pbuf p).totLen := by
  have hall : ∀ {o : Option Nat} {ps : List Nat}, Chained s.next o ps → (∀ x ∈ ps, x ∈ s.live) →
      ∀ x ∈ ps, (s.pbuf x).totLen ≤ o.elim 0 fun y => (s.pbuf y).totLen := by
    intro o ps hps
    induction hps with
    | nil => intro _ x hx; exact absurd hx List.not_mem_nil
    | @cons y ps hps ih =>
        intro hlive x hx
        rcases List.mem_cons.mp hx with rfl | hx
        · exact Nat.le_refl _
        · have hle := ih (fun z hz => hlive z (List.mem_cons_of_mem y hz)) x hx
          have htotal := h.total y (hlive y List.mem_cons_self)
          unfold Packets.rest at htotal
          rw [Option.elim_some]
          omega
  exact hall (h.chained hp) (h.chain_live hp) q hq

/-! ## Counts -/

/-- Other counts, of fewer pbufs. -/
theorem Formed.withCounts (h : Formed cfg missing s held) (hc : c.Exact held') (hnext : c.next = s.next)
    (hlive : ∀ p ∈ c.live, p ∈ s.live) (href : ∀ p ∈ c.live, c.ref p < 65536) :
    Formed cfg missing (s.withCounts c) held' where
  exact := by rw [Packets.counted_withCounts hnext]; exact hc
  ref_lt := href
  total p hp := h.total p (hlive p hp)
  total_lt p hp := h.total_lt p (hlive p hp)
  placed p hp := (h.placed p (hlive p hp)).congr rfl rfl rfl rfl

/-- The loop of `pbuf_free` releases the chain. -/
theorem pbufFreeLoop_eq : ∀ {ps : List Nat} {s : Packets}, ps.Nodup →
    (∀ p ∈ ps, 0 < (s.pbuf p).ref ∧ (s.pbuf p).ref < 65536) →
    (pbufFreeLoop ps s).1 = s.withCounts (Counted.release ps s.counted)
  | [],      _, _,      _     => rfl
  | p :: ps, s, hnodup, hrefs => by
      obtain ⟨hp, hps⟩ := List.nodup_cons.mp hnodup
      obtain ⟨hpos, hlt⟩ := hrefs p List.mem_cons_self
      unfold pbufFreeLoop Counted.release
      simp only
      have hpred : toU16 (((s.pbuf p).ref : Int) - 1) = (s.pbuf p).ref - 1 := toU16_sub hpos hlt
      rw [hpred, s.setRef_eq]
      by_cases hone : (s.pbuf p).ref = 1
      · rw [if_pos (show s.counted.ref p = 1 from hone), hone, if_pos rfl]
        -- the rest of the chain is as it was
        have ih := pbufFreeLoop_eq (s := s.withCounts (s.counted.dealloc p)) hps fun q hq => by
          have hsame : ((s.withCounts (s.counted.dealloc p)).pbuf q).ref = (s.pbuf q).ref :=
            Function.update_of_ne (ne_of_mem_of_not_mem hq hp) _ _
          rw [hsame]
          exact hrefs q (List.mem_cons_of_mem p hq)
        rw [Packets.counted_withCounts (c := s.counted.dealloc p) rfl] at ih
        exact ih
      · rw [if_neg (show ¬s.counted.ref p = 1 from hone), if_neg (by omega)]
        rfl

theorem release_ref_le : ∀ (ps : List Nat) (c : Counted Nat) (q : Nat), (Counted.release ps c).ref q ≤ c.ref q
  | [],      c, q => Nat.le_refl _
  | p :: ps, c, q => by
      unfold Counted.release
      split
      · refine Nat.le_trans (release_ref_le ps _ q) ?_
        show Function.update c.ref p 0 q ≤ c.ref q
        by_cases hq : q = p
        · rw [hq, Function.update_self]
          exact Nat.zero_le _
        · rw [Function.update_of_ne hq]
      · show Function.update c.ref p (c.ref p - 1) q ≤ c.ref q
        by_cases hq : q = p
        · rw [hq, Function.update_self]
          exact Nat.sub_le _ _
        · rw [Function.update_of_ne hq]

theorem Formed.refs (h : Formed cfg missing s held) (hp : p ∈ s.live) :
    ∀ q ∈ s.chain p, 0 < (s.pbuf q).ref ∧ (s.pbuf q).ref < 65536 :=
  fun q hq => ⟨h.exact.used q (h.chain_live hp q hq), h.ref_lt q (h.chain_live hp q hq)⟩

/-- **`pbuf_free`** releases the chain. -/
theorem Formed.pbufFree_eq (h : Formed cfg missing s held) (hp : p ∈ s.live) :
    (pbufFree s p).1 = s.withCounts (Counted.release (s.chain p) s.counted) :=
  pbufFreeLoop_eq (h.chained hp).nodup (h.refs hp)

theorem Formed.free (h : Formed cfg missing s (p :: held)) : Formed cfg missing (pbufFree s p).1 held := by
  have hp : p ∈ s.live := h.exact.points p List.mem_cons_self
  rw [h.pbufFree_eq hp]
  refine h.withCounts (h.exact.release (h.chained hp)) (Counted.release_next _ _)
    (fun q hq => Counted.mem_release_live hq) fun q hq => ?_
  have hlt := h.ref_lt q (Counted.mem_release_live hq)
  exact Nat.lt_of_le_of_lt (release_ref_le _ _ _) hlt

/-- `pbuf_ref`. -/
theorem Formed.ref (h : Formed cfg missing s held) (hp : p ∈ s.live) (hlt : (s.pbuf p).ref < 65535) :
    Formed cfg missing (pbufRef s p) (p :: held) := by
  have heq : pbufRef s p = s.withCounts (s.counted.retain p) := by
    have hsucc : toU16 (((s.pbuf p).ref : Int) + 1) = (s.pbuf p).ref + 1 :=
      toU16_of_lt (n := (s.pbuf p).ref + 1) (by omega)
    rw [pbufRef, hsucc, s.setRef_eq]
    rfl
  rw [heq]
  refine h.withCounts (h.exact.retain hp) rfl (fun q hq => hq) fun q hq => ?_
  have hlt' := h.ref_lt q hq
  show Function.update s.counted.ref p (s.counted.ref p + 1) q < 65536
  by_cases hqp : q = p
  · rw [hqp, Function.update_self]
    show (s.pbuf p).ref + 1 < 65536
    omega
  · rw [Function.update_of_ne hqp]
    exact hlt'

/-! ## Concatenation -/

/-- The chain `ps`, with the last pbuf `l`, after the one of `t` was hung behind it. -/
def Packets.catted (s : Packets) (t l : Nat) (ps : List Nat) : Packets :=
  { s with pbuf := fun q => if q ∈ ps
      then { s.pbuf q with
        totLen := toU16 ((s.pbuf q).totLen + (s.pbuf t).totLen), next := if q = l then some t else (s.pbuf q).next }
      else s.pbuf q }

theorem pbufCatLoop_eq {l : Nat} : ∀ {ps : List Nat} {s : Packets}, (ps ++ [l]).Nodup → t ∉ ps ++ [l] →
    pbufCatLoop t (ps ++ [l]) s = s.catted t l (ps ++ [l])
  | [], s, _, ht => by
      have htl : t ≠ l := fun heq => ht (by simp [heq])
      show (s.setTotLen l (toU16 ((s.pbuf l).totLen + (s.pbuf t).totLen))).setNext l (some t) = _
      unfold Packets.catted Packets.setNext Packets.setTotLen
      rw [Packets.put_self]
      unfold Packets.put
      dsimp only
      congr 1
      funext q
      by_cases hq : q = l
      · rw [hq]
        simp
      · simp [hq]
  | p :: ps, s, hnodup, ht => by
      rw [List.cons_append] at hnodup ht
      obtain ⟨hp, hps⟩ := List.nodup_cons.mp hnodup
      have htp : t ≠ p := fun heq => ht (by simp [heq])
      have hpl : p ≠ l := fun heq => hp (by simp [heq])
      have ih := pbufCatLoop_eq (s := s.setTotLen p (toU16 ((s.pbuf p).totLen + (s.pbuf t).totLen))) hps
        fun hmem => ht (List.mem_cons_of_mem p hmem)
      have hstep : pbufCatLoop t (p :: (ps ++ [l])) s =
          pbufCatLoop t (ps ++ [l]) (s.setTotLen p (toU16 ((s.pbuf p).totLen + (s.pbuf t).totLen))) := by
        cases ps <;> rfl
      rw [List.cons_append, hstep, ih]
      unfold Packets.catted Packets.setTotLen
      rw [Packets.put_of_ne htp]
      unfold Packets.put
      dsimp only
      congr 1
      funext q
      by_cases hq : q = p
      · rw [hq, if_neg hp, if_pos List.mem_cons_self, Function.update_self, if_neg hpl]
      · rw [Function.update_of_ne hq]
        simp only [List.mem_cons, hq, false_or]

theorem Packets.counted_catted {l : Nat} {ps : List Nat} (hl : l ∈ ps) :
    (s.catted t l ps).counted = s.counted.link l t := by
  unfold Packets.counted Counted.link
  congr 1
  · funext q
    by_cases hq : q = l
    · rw [hq, Function.update_self]
      show (if l ∈ ps then _ else s.pbuf l : Pbuf).next = some t
      rw [if_pos hl]
      exact if_pos rfl
    · rw [Function.update_of_ne hq]
      show (if q ∈ ps then { s.pbuf q with totLen := _, next := if q = l then some t else (s.pbuf q).next }
        else s.pbuf q : Pbuf).next =
        s.next q
      rw [if_neg hq]
      split <;> rfl
  · funext q
    show (if q ∈ ps then _ else s.pbuf q : Pbuf).ref = (s.pbuf q).ref
    split <;> rfl

theorem PacketInv.pbufCat_eq {h t : Nat} (hinv : PacketInv cfg s held) (hh : h ∈ s.live) (ht : t ∈ s.live)
    (hjoin : Joinable s h t) : ∃ ps l, s.chain h = ps ++ [l] ∧ s.next l = none ∧ t ∉ ps ++ [l] ∧
      pbufCat s h t = s.catted t l (ps ++ [l]) := by
  obtain ⟨ps, l, hchain, hlast⟩ := hinv.chain_last hh
  have hpath := hinv.chained hh
  have htnot : t ∉ s.chain h := fun hmem => hjoin.1 t hmem (hinv.mem_chain ht)
  rw [hchain] at hpath htnot
  refine ⟨ps, l, hchain, hlast, htnot, ?_⟩
  rw [pbufCat, hchain]
  exact pbufCatLoop_eq hpath.nodup htnot

/-- **`pbuf_cat`**: the caller's pointer to `t` is now the one at the end of the chain of `h`. -/
theorem PacketInv.cat {h t : Nat} (hinv : PacketInv cfg s (t :: held)) (hh : h ∈ s.live) (hjoin : Joinable s h t) :
    PacketInv cfg (pbufCat s h t) held := by
  have ht : t ∈ s.live := hinv.exact.points t List.mem_cons_self
  obtain ⟨ps, l, hchain, hlast, htnot, hcat⟩ := hinv.pbufCat_eq hh ht hjoin
  obtain ⟨hdisjoint, hunshared, hsum⟩ := hjoin
  have hpath := hinv.chained hh
  have hlive := hinv.chain_live hh
  have hle : ∀ q ∈ s.chain h, (s.pbuf q).totLen ≤ (s.pbuf h).totLen := fun q hq => hinv.total_le hh hq
  rw [hchain] at hdisjoint hpath hlive hle
  have hl : l ∈ ps ++ [l] := by simp
  rw [hcat]
  have hin : ∀ q ∈ ps ++ [l], ((s.catted t l (ps ++ [l])).pbuf q).totLen = (s.pbuf q).totLen + (s.pbuf t).totLen := by
    intro q hq
    show (if q ∈ ps ++ [l] then _ else s.pbuf q : Pbuf).totLen = _
    rw [if_pos hq]
    have := hle q hq
    exact toU16_of_lt (n := (s.pbuf q).totLen + (s.pbuf t).totLen) (by omega)
  have hout : ∀ q, q ∉ ps ++ [l] → (s.catted t l (ps ++ [l])).pbuf q = s.pbuf q := fun q hq => if_neg hq
  have hfields : ∀ q, ((s.catted t l (ps ++ [l])).pbuf q).len = (s.pbuf q).len ∧
      ((s.catted t l (ps ++ [l])).pbuf q).payload = (s.pbuf q).payload ∧
      ((s.catted t l (ps ++ [l])).pbuf q).type = (s.pbuf q).type ∧
      ((s.catted t l (ps ++ [l])).pbuf q).ref = (s.pbuf q).ref := by
    intro q
    by_cases hq : q ∈ ps ++ [l]
    · rw [show (s.catted t l (ps ++ [l])).pbuf q = _ from if_pos hq]
      exact ⟨rfl, rfl, rfl, rfl⟩
    · rw [hout q hq]
      exact ⟨rfl, rfl, rfl, rfl⟩
  have hnext : (s.catted t l (ps ++ [l])).next = Function.update s.next l (some t) :=
    congrArg Counted.next (Packets.counted_catted (s := s) (t := t) hl)
  refine ⟨?_, fun q hq => ?_, fun q hq => ?_, fun q hq => ?_, fun q hq => ?_⟩
  · rw [Packets.counted_catted hl]
    exact hinv.exact.link (hlive l hl) hlast (hinv.chained ht) (hdisjoint l hl)
  · rw [(hfields q).2.2.2]
    exact hinv.ref_lt q hq
  · have htotal := hinv.total q hq
    unfold Packets.rest at htotal ⊢
    rw [(hfields q).1, hnext]
    by_cases hmem : q ∈ ps ++ [l]
    · rw [hin q hmem]
      by_cases hql : q = l
      · -- the last one is now followed by `t`
        rw [hql, Function.update_self, Option.elim_some, hout t htnot]
        rw [hql, hlast, Option.elim_none] at htotal
        omega
      · rw [Function.update_of_ne hql]
        cases hn : s.next q with
        | none =>
            obtain ⟨pre, qs, heq, hqs⟩ := hpath.after hmem
            obtain ⟨rs, hrs, hrest⟩ := hqs.some_inv
            rw [hn] at hrest
            cases hrest
            rw [(List.cons.inj hrs).2] at heq
            have hlq : l = q := by simpa using congrArg List.getLast? heq
            exact absurd hlq.symm hql
        | some r =>
            rw [hn, Option.elim_some] at htotal
            rw [Option.elim_some, hin r (hpath.next_mem hmem hn)]
            omega
    · have hql : q ≠ l := fun heq => hmem (heq ▸ hl)
      rw [hout q hmem, Function.update_of_ne hql]
      cases hn : s.next q with
      | none => rw [hn] at htotal; exact htotal
      | some r =>
          rw [hn, Option.elim_some] at htotal
          have hr : r ∉ ps ++ [l] :=
            fun hr => hunshared q hq (by rw [hchain]; exact hmem) r (by rw [hchain]; exact hr) hn
          rw [Option.elim_some, hout r hr]
          exact htotal
  · by_cases hmem : q ∈ ps ++ [l]
    · rw [hin q hmem]
      have := hle q hmem
      omega
    · rw [hout q hmem]
      exact hinv.total_lt q hq
  · exact (hinv.placed q hq).congr (hfields q).2.2.1 (hfields q).2.1 (hfields q).1 rfl

/-! ## Cutting a chain -/

theorem Formed.next_ne (h : Formed cfg missing s held) (hp : p ∈ s.live) : s.next p ≠ some p := by
  intro hnext
  obtain ⟨qs, hqs, hrest⟩ := (h.chained hp).some_inv
  rw [hnext] at hrest
  obtain ⟨rs, hrs, -⟩ := hrest.some_inv
  have hnodup := (h.chained hp).nodup
  rw [hqs, hrs] at hnodup
  exact (List.nodup_cons.mp hnodup).1 List.mem_cons_self

/-- The chain that runs through `pre` to `q`, after it was cut to end there: `q` has `n` bytes, in a block of `size`. -/
def Packets.shortened (s : Packets) (pre : List Nat) (q n size : Nat) : Packets :=
  { s with
    size := Function.update s.size q size
    pbuf := fun x =>
      if x = q then { s.pbuf q with next := none, len := n, totLen := n }
      else if x ∈ pre then { s.pbuf x with totLen := (s.pbuf x).totLen - ((s.pbuf q).totLen - n) }
      else s.pbuf x }

theorem Packets.counted_shortened (s : Packets) (pre : List Nat) (q n size : Nat) :
    (s.shortened pre q n size).counted = s.counted.unlink q := by
  unfold Packets.counted Counted.unlink
  congr 1
  · funext x
    by_cases hx : x = q
    · rw [hx, Function.update_self, Packets.next, show (s.shortened pre q n size).pbuf q = _ from if_pos rfl]
    · rw [Function.update_of_ne hx, Packets.next, show (s.shortened pre q n size).pbuf x = _ from if_neg hx]
      split <;> rfl
  · funext x
    by_cases hx : x = q
    · rw [hx, show (s.shortened pre q n size).pbuf q = _ from if_pos rfl]
    · rw [show (s.shortened pre q n size).pbuf x = _ from if_neg hx]
      split <;> rfl

/-- **Cutting a chain** leaves the pbufs behind the cut to their holder. -/
theorem PacketInv.shorten {pre suf : List Nat} {n size : Nat} (h : PacketInv cfg s held) (hp : p ∈ s.live)
    (hchain : s.chain p = pre ++ q :: suf) (hn : n ≤ (s.pbuf q).len)
    (hout : ∀ x ∈ s.live, x ∉ pre → x ≠ q → ∀ y ∈ pre ++ [q], s.next x ≠ some y)
    (hsize : (s.pbuf q).owns → (s.pbuf q).payload.off + n ≤ size ∧ size < 65536) :
    PacketInv cfg (s.shortened pre q n size) ((s.next q).toList ++ held) := by
  have hpath := h.chained hp
  have hlive := h.chain_live hp
  rw [hchain] at hpath hlive
  have hq : q ∈ s.live := hlive q (by simp)
  have hqpre : q ∉ pre := fun hmem => (List.nodup_append.mp hpath.nodup).2.2 q hmem q List.mem_cons_self rfl
  have hnle : n ≤ (s.pbuf q).totLen := by
    have := h.total q hq
    omega
  have hself : (s.shortened pre q n size).pbuf q = { s.pbuf q with next := none, len := n, totLen := n } := if_pos rfl
  have hother : ∀ x, x ≠ q → ((s.shortened pre q n size).pbuf x).len = (s.pbuf x).len ∧
      ((s.shortened pre q n size).pbuf x).payload = (s.pbuf x).payload ∧
      ((s.shortened pre q n size).pbuf x).type = (s.pbuf x).type ∧
      ((s.shortened pre q n size).pbuf x).next = (s.pbuf x).next ∧
          ((s.shortened pre q n size).pbuf x).ref = (s.pbuf x).ref := by
    intro x hx
    rw [show (s.shortened pre q n size).pbuf x = _ from if_neg hx]
    split <;> exact ⟨rfl, rfl, rfl, rfl, rfl⟩
  have hbefore : ∀ x ∈ pre,
      ((s.shortened pre q n size).pbuf x).totLen = (s.pbuf x).totLen - ((s.pbuf q).totLen - n) := by
    intro x hx
    rw [show (s.shortened pre q n size).pbuf x = _ from if_neg (ne_of_mem_of_not_mem hx hqpre), if_pos hx]
  have hafter : ∀ x, x ∉ pre ++ [q] → (s.shortened pre q n size).pbuf x = s.pbuf x := by
    intro x hx
    have hor := not_or.mp fun hor => hx (List.mem_append.mpr (hor.imp_right fun he => List.mem_singleton.mpr he))
    rw [show (s.shortened pre q n size).pbuf x = _ from if_neg hor.2, if_neg hor.1]
  -- a pbuf before `q` has all of `q` behind it
  have hwhole : ∀ x ∈ pre, (s.pbuf q).totLen ≤ (s.pbuf x).totLen := by
    intro x hx
    have hxlive := hlive x (List.mem_append_left _ hx)
    obtain ⟨pre₁, pre₂, hpre⟩ := List.append_of_mem hx
    have hpath' := hpath
    rw [hpre, List.append_assoc, List.cons_append] at hpath'
    refine h.total_le hxlive ?_
    rw [h.chain_eq hxlive hpath'.drop]
    simp
  refine ⟨?_, fun x hx => ?_, fun x hx => ?_, fun x hx => ?_, fun x hx => ?_⟩
  · rw [Packets.counted_shortened]
    cases hnext : s.next q with
    | some r => exact h.exact.unlink hq hnext
    | none =>
        have hsame : s.counted.unlink q = s.counted := by
          unfold Counted.unlink
          rw [show Function.update s.counted.next q none = s.counted.next by
            rw [← show s.counted.next q = none from hnext, Function.update_eq_self]]
        rw [hsame]
        exact h.exact
  · by_cases hxq : x = q
    · rw [hxq, hself]
      exact h.ref_lt q hq
    · rw [(hother x hxq).2.2.2.2]
      exact h.ref_lt x hx
  · by_cases hxq : x = q
    · rw [hxq, Packets.rest, Packets.next, hself]
      rfl
    have htotal := h.total x hx
    unfold Packets.rest Packets.next at htotal ⊢
    rw [(hother x hxq).1, (hother x hxq).2.2.2.1]
    by_cases hxpre : x ∈ pre
    · rw [hbefore x hxpre]
      have hle := hwhole x hxpre
      obtain ⟨y, hy, hnext⟩ := hpath.next_before hxpre
      have hnext : (s.pbuf x).next = some y := hnext
      rw [hnext, Option.elim_some] at htotal
      rw [hnext, Option.elim_some]
      rcases List.mem_append.mp hy with hy | hy
      · rw [hbefore y hy]
        have hley := hwhole y hy
        omega
      · rw [List.mem_singleton.mp hy, hself]
        rw [List.mem_singleton.mp hy] at htotal
        show (s.pbuf x).totLen - ((s.pbuf q).totLen - n) = (s.pbuf x).len + 0 + n
        omega
    · rw [hafter x (by simp [hxpre, hxq])]
      cases hnext : (s.pbuf x).next with
      | none =>
          rw [hnext] at htotal
          exact htotal
      | some y =>
          rw [hnext, Option.elim_some] at htotal
          have hy : y ∉ pre ++ [q] := fun hy => hout x hx hxpre hxq y hy hnext
          rw [Option.elim_some, hafter y hy]
          exact htotal
  · by_cases hxq : x = q
    · rw [hxq, hself]
      have hlt := h.total_lt q hq
      show n < 65536
      omega
    · have hlt := h.total_lt x hx
      by_cases hxpre : x ∈ pre
      · rw [hbefore x hxpre]
        omega
      · rw [hafter x (by simp [hxpre, hxq])]
        exact hlt
  · by_cases hxq : x = q
    · subst hxq
      have hplaced := h.placed x hq
      refine ⟨fun ho => ?_, fun ho => ?_⟩
      · rw [hself] at ho ⊢
        obtain ⟨hblock, hoff, -, -⟩ := hplaced.inside ho
        show _ ∧ _ ∧ (s.pbuf x).payload.off + n ≤ Function.update s.size x size x ∧
          Function.update s.size x size x < 65536
        rw [Function.update_self]
        exact ⟨hblock, hoff, hsize ho⟩
      · rw [hself] at ho ⊢
        exact hplaced.outside ho
    · obtain ⟨hlen, hpayload, htype, -⟩ := hother x hxq
      exact (h.placed x hx).congr htype hpayload hlen (Function.update_of_ne hxq _ _)

theorem Packets.setTotLen_self (s : Packets) (p : Nat) : s.setTotLen p (s.pbuf p).totLen = s := by
  unfold Packets.setTotLen Packets.put
  rw [Function.update_eq_self]

/-- **`pbuf_dechain`** cuts the chain behind `p`, and gives the pointer to the rest back. -/
theorem PacketInv.dechain_cut (h : PacketInv cfg s held) (hp : p ∈ s.live) (hheads : s.Heads p)
    (hnext : s.next p = some q) :
    PacketInv cfg (s.shortened [] p (s.pbuf p).len (s.size p)) ((s.next p).toList ++ held) ∧
      pbufDechain s p = ((pbufFree (s.shortened [] p (s.pbuf p).len (s.size p)) q).1,
        if (pbufFree (s.shortened [] p (s.pbuf p).len (s.size p)) q).2 > 0 then none else some q) := by
  have htotal := h.total p hp
  have hlt := h.total_lt p hp
  rw [Packets.rest, hnext, Option.elim_some] at htotal
  have hrest : toU16 (((s.pbuf p).totLen : Int) - (s.pbuf p).len) = (s.pbuf q).totLen := by
    rw [toU16_sub (by omega) hlt]
    omega
  have hcut : (s.setNext p none).setTotLen p (s.pbuf p).len = s.shortened [] p (s.pbuf p).len (s.size p) := by
    unfold Packets.shortened Packets.setNext Packets.setTotLen
    rw [Packets.put_self]
    unfold Packets.put
    dsimp only
    rw [Function.update_eq_self]
    congr 1
    funext x
    by_cases hx : x = p
    · rw [hx, Function.update_self, if_pos rfl]
    · rw [Function.update_of_ne hx, Function.update_of_ne hx, if_neg hx, if_neg List.not_mem_nil]
  have hlen : ((s.setNext p none).pbuf p).len = (s.pbuf p).len := by rw [Packets.setNext, Packets.put_self]
  obtain ⟨suf, hsuf, -⟩ := (h.chained hp).some_inv
  refine ⟨?_, ?_⟩
  · refine h.shorten hp (show s.chain p = [] ++ p :: suf from hsuf) (Nat.le_refl _) (fun x hx _ _ y hy hxy => ?_)
      fun ho => ((h.placed p hp).inside ho).2.2
    rw [List.nil_append, List.mem_singleton] at hy
    exact hheads x hx (hy ▸ hxy)
  · unfold pbufDechain
    rw [hnext]
    dsimp only
    rw [hrest, s.setTotLen_self, hlen, hcut]

theorem PacketInv.dechain (h : PacketInv cfg s held) (hp : p ∈ s.live) (hheads : s.Heads p) :
    PacketInv cfg (pbufDechain s p).1 held := by
  cases hnext : s.next p with
  | none =>
      unfold pbufDechain
      rw [hnext]
      exact h
  | some q =>
      obtain ⟨hshort, heq⟩ := h.dechain_cut hp hheads hnext
      rw [hnext] at hshort
      rw [heq]
      exact hshort.free

/-- The lengths of a chain add up to its `tot_len`. -/
theorem PacketInv.total_sum (h : PacketInv cfg s held) (hp : p ∈ s.live) :
    ((s.chain p).map fun q => (s.pbuf q).len).sum = (s.pbuf p).totLen := by
  have hall : ∀ {o : Option Nat} {ps : List Nat}, Chained s.next o ps → (∀ x ∈ ps, x ∈ s.live) →
      (ps.map fun q => (s.pbuf q).len).sum = o.elim 0 fun y => (s.pbuf y).totLen := by
    intro o ps hps
    induction hps with
    | nil => intro _; rfl
    | @cons y ps hps ih =>
        intro hlive
        have htotal := h.total y (hlive y List.mem_cons_self)
        unfold Packets.rest at htotal
        rw [List.map_cons, List.sum_cons, ih fun z hz => hlive z (List.mem_cons_of_mem y hz), Option.elim_some]
        omega
  exact hall (h.chained hp) (h.chain_live hp)

/-! ## `pbuf_realloc` -/

/-- The pbufs that `pbuf_realloc` steps over. -/
def Packets.grown (s : Packets) (grow : Int) (pre : List Nat) : Packets :=
  { s with pbuf := fun x => if x ∈ pre
      then { s.pbuf x with totLen := toU16 ((s.pbuf x).totLen + toU16 grow) } else s.pbuf x }

/-- It stops at the pbuf in which the new end lies. -/
theorem reallocLoop_eq (grow : Int) : ∀ {ps : List Nat} {s : Packets} (remLen : Nat), ps.Nodup → ps ≠ [] →
    remLen ≤ (ps.map fun q => (s.pbuf q).len).sum →
    ∃ pre q suf n, ps = pre ++ q :: suf ∧ n ≤ (s.pbuf q).len ∧ (pre.map fun q => (s.pbuf q).len).sum + n = remLen ∧
      reallocLoop grow ps remLen s = reallocLast (s.grown grow pre) q n
  | [],      _, _,      _,      hne, _    => absurd rfl hne
  | q :: qs, s, remLen, hnodup, _,   hlen => by
      obtain ⟨hq, hqs⟩ := List.nodup_cons.mp hnodup
      rw [List.map_cons, List.sum_cons] at hlen
      unfold reallocLoop
      split
      swap
      · next hle => exact ⟨[], q, qs, remLen, rfl, Nat.not_lt.mp hle, by simp, by simp [Packets.grown]⟩
      next hmore =>
      have hother : ∀ n, ∀ x ∈ qs, (s.setTotLen q n).pbuf x = s.pbuf x := fun n x hx =>
        Packets.put_of_ne (ne_of_mem_of_not_mem hx hq)
      have hlens : ∀ n, ∀ l : List Nat, (∀ x ∈ l, x ∈ qs) →
          l.map (fun x => ((s.setTotLen q n).pbuf x).len) = l.map fun x => (s.pbuf x).len := fun n l hl =>
        List.map_congr_left fun x hx => by rw [hother n x (hl x hx)]
      obtain ⟨pre, r, suf, n, heq, hn, hsum, hloop⟩ :=
        reallocLoop_eq grow (s := s.setTotLen q (toU16 ((s.pbuf q).totLen + toU16 grow))) (remLen - (s.pbuf q).len) hqs
          (by rintro rfl; simp at hlen; omega) (by rw [hlens _ qs fun x hx => hx]; omega)
      have hpre : ∀ x ∈ pre, x ∈ qs := fun x hx => by rw [heq]; exact List.mem_append_left _ hx
      have hr : r ∈ qs := by rw [heq]; simp
      rw [hother _ r hr] at hn
      rw [hlens _ pre hpre] at hsum
      refine ⟨q :: pre, r, suf, n, by rw [heq, List.cons_append], hn, by rw [List.map_cons, List.sum_cons]; omega, ?_⟩
      rw [hloop]
      congr 1
      unfold Packets.grown Packets.setTotLen Packets.put
      dsimp only
      congr 1
      funext x
      by_cases hx : x = q
      · have hqpre : q ∉ pre := fun hmem => hq (hpre q hmem)
        rw [hx, if_neg hqpre, Function.update_self, if_pos List.mem_cons_self]
      · simp only [Function.update_of_ne hx, List.mem_cons, hx, false_or]

/-- Cutting behind `q` before or after the rest is freed is the same. -/
theorem pbufFree_setNext {r : Nat} {ps : List Nat} (hps : Chained s.next (some r) ps) (hlen : ps.length ≤ s.live.length)
    (hq : q ∉ ps) (hrefs : ∀ x ∈ ps, 0 < (s.pbuf x).ref ∧ (s.pbuf x).ref < 65536) :
    (pbufFree s r).1.setNext q none = (pbufFree (s.setNext q none) r).1 := by
  have hother : ∀ x ∈ ps, (s.setNext q none).pbuf x = s.pbuf x :=
    fun x hx => Packets.put_of_ne (ne_of_mem_of_not_mem hx hq)
  have hchain : s.chain r = ps := hps.follow_eq hlen
  have hchain' : (s.setNext q none).chain r = ps := by
    refine (hps.congr fun x hx => ?_).follow_eq hlen
    rw [Packets.next, hother x hx]
    rfl
  have hleft : (pbufFree s r).1 = s.withCounts (Counted.release ps s.counted) := by
    rw [pbufFree, hchain]
    exact pbufFreeLoop_eq hps.nodup hrefs
  have hright : (pbufFree (s.setNext q none) r).1 =
      (s.setNext q none).withCounts (Counted.release ps (s.setNext q none).counted) := by
    rw [pbufFree, hchain']
    exact pbufFreeLoop_eq hps.nodup fun x hx => by rw [hother x hx]; exact hrefs x hx
  have hsame : Counted.release ps (s.setNext q none).counted =
      { Counted.release ps s.counted with next := Function.update s.next q none } := by
    rw [Packets.counted_setNext]
    exact Counted.release_setNext _ ps s.counted
  rw [hleft, hright, hsame]
  unfold Packets.setNext Packets.put Packets.withCounts
  dsimp only
  congr 1
  funext x
  by_cases hx : x = q
  · rw [hx, Function.update_self, Function.update_self]
  · rw [Function.update_of_ne hx, Function.update_of_ne hx]

/-- **`pbuf_realloc`** cuts the chain where the new end lies, and frees what is behind. -/
theorem PacketInv.realloc_eq (h : PacketInv cfg s held) (hp : p ∈ s.live) {newLen : Nat}
    (hnew : newLen < (s.pbuf p).totLen) :
    ∃ pre q suf n size, s.chain p = pre ++ q :: suf ∧ n ≤ (s.pbuf q).len ∧
      (pre.map fun q => (s.pbuf q).len).sum + n = newLen ∧
      ((s.pbuf q).owns → (s.pbuf q).payload.off + n ≤ size ∧ size < 65536) ∧
      pbufRealloc s p newLen = match s.next q with
        | some r => (pbufFree (s.shortened pre q n size) r).1
        | none   => s.shortened pre q n size := by
  have hpath := h.chained hp
  have hlive := h.chain_live hp
  obtain ⟨qs, hqs, -⟩ := hpath.some_inv
  have hsum := h.total_sum hp
  obtain ⟨pre, q, suf, n, hchain, hn, hlen, hloop⟩ := reallocLoop_eq ((newLen : Int) - (s.pbuf p).totLen) (s := s)
    newLen hpath.nodup (by rw [hqs]; exact List.cons_ne_nil _ _) (by omega)
  rw [hchain] at hpath hlive
  have hq : q ∈ s.live := hlive q (by simp)
  have hqpre : q ∉ pre := fun hmem => (List.nodup_append.mp hpath.nodup).2.2 q hmem q List.mem_cons_self rfl
  have hplaced := h.placed q hq
  -- the bytes of `q` that go are those that the chain loses
  have hlost : (s.pbuf q).totLen + (pre.map fun q => (s.pbuf q).len).sum = (s.pbuf p).totLen := by
    have hrest := h.total_sum hq
    rw [h.chain_eq hq hpath.drop] at hrest
    rw [hchain, List.map_append, List.sum_append, hrest] at hsum
    omega
  have hgrown : ∀ x ∈ pre, toU16 (((s.pbuf x).totLen : Int) + toU16 ((newLen : Int) - (s.pbuf p).totLen)) =
      (s.pbuf x).totLen - ((s.pbuf q).totLen - n) := by
    intro x hx
    obtain ⟨pre₁, pre₂, hpre⟩ := List.append_of_mem hx
    have hpath' := hpath
    rw [hpre, List.append_assoc, List.cons_append] at hpath'
    have hxlive := hlive x (List.mem_append_left _ hx)
    have hle : (s.pbuf q).totLen ≤ (s.pbuf x).totLen := h.total_le hxlive (by rw [h.chain_eq hxlive hpath'.drop]; simp)
    have hlt := h.total_lt x hxlive
    have hltp := h.total_lt p hp
    unfold toU16
    omega
  refine ⟨pre, q, suf, n, if (s.pbuf q).type = .ram ∧ n ≠ (s.pbuf q).len then (s.pbuf q).payload.off + n else s.size q,
    hchain, hn, hlen, fun ho => ?_, ?_⟩
  · obtain ⟨-, -, hend, hlt⟩ := hplaced.inside ho
    split <;> omega
  rw [pbufRealloc, if_neg (Nat.not_le.mpr hnew), hloop]
  unfold reallocLast
  have hgq : (s.grown ((newLen : Int) - (s.pbuf p).totLen) pre).pbuf q = s.pbuf q := if_neg hqpre
  rw [hgq]
  -- the pool before the rest is freed
  obtain ⟨v, hv⟩ : ∃ v, v = if (s.pbuf q).type = .ram ∧ n ≠ (s.pbuf q).len
      then memTrimBlock (s.grown ((newLen : Int) - (s.pbuf p).totLen) pre) q (toU16 (s.pbuf q).payload.off + n)
      else s.grown ((newLen : Int) - (s.pbuf p).totLen) pre := ⟨_, rfl⟩
  rw [← hv]
  have hvpbuf : v.pbuf = (s.grown ((newLen : Int) - (s.pbuf p).totLen) pre).pbuf := by rw [hv]; split <;> rfl
  have hvlive : v.live = s.live := by rw [hv]; split <;> rfl
  have hvdata : v.data = s.data := by rw [hv]; split <;> rfl
  have hvsize : v.size = Function.update s.size q
      (if (s.pbuf q).type = .ram ∧ n ≠ (s.pbuf q).len then (s.pbuf q).payload.off + n else s.size q) := by
    rw [hv]
    split
    · next htrim =>
        obtain ⟨-, hoff, hend, hlt⟩ := hplaced.inside (.inl htrim.1)
        show Function.update s.size q (toU16 (s.pbuf q).payload.off + n) = _
        rw [toU16_of_lt (by omega)]
    · rw [Function.update_eq_self]
      rfl
  have hcut : ((v.setLen q n).setTotLen q n).setNext q none = s.shortened pre q n
      (if (s.pbuf q).type = .ram ∧ n ≠ (s.pbuf q).len then (s.pbuf q).payload.off + n else s.size q) := by
    unfold Packets.setLen Packets.setTotLen Packets.setNext Packets.shortened
    rw [Packets.put_self, Packets.put_self]
    unfold Packets.put
    dsimp only
    rw [hvpbuf, hvlive, hvdata, hvsize, hgq]
    congr 1
    funext x
    by_cases hx : x = q
    · rw [hx, Function.update_self, if_pos rfl]
    · rw [Function.update_of_ne hx, Function.update_of_ne hx, Function.update_of_ne hx, if_neg hx]
      by_cases hxpre : x ∈ pre
      · rw [show (s.grown ((newLen : Int) - (s.pbuf p).totLen) pre).pbuf x = _ from if_pos hxpre, if_pos hxpre,
          hgrown x hxpre]
      · rw [show (s.grown ((newLen : Int) - (s.pbuf p).totLen) pre).pbuf x = _ from if_neg hxpre, if_neg hxpre]
  have hupbuf : ∀ x, (((v.setLen q n).setTotLen q n).pbuf x).next = (s.pbuf x).next ∧
      (((v.setLen q n).setTotLen q n).pbuf x).ref = (s.pbuf x).ref := by
    intro x
    by_cases hx : x = q
    · rw [hx, Packets.setTotLen, Packets.put_self, Packets.setLen, Packets.put_self, hvpbuf, hgq]
      exact ⟨rfl, rfl⟩
    · rw [Packets.setTotLen, Packets.put_of_ne hx, Packets.setLen, Packets.put_of_ne hx, hvpbuf]
      unfold Packets.grown
      dsimp only
      split <;> exact ⟨rfl, rfl⟩
  have hunext : ((v.setLen q n).setTotLen q n).next = s.next := funext fun x => (hupbuf x).1
  rw [← hcut]
  dsimp only
  rw [hunext]
  cases hnext : s.next q with
  | none => rfl
  | some r =>
      have hr := h.exact.next_live hq hnext
      have hqr : q ∉ s.chain r := by
        obtain ⟨rs, hrs, hrest⟩ := hpath.drop.some_inv
        rw [hnext] at hrest
        have hnodup := hpath.drop.nodup
        rw [h.chain_eq hr hrest]
        rw [hrs] at hnodup
        exact (List.nodup_cons.mp hnodup).1
      refine pbufFree_setNext (show Chained ((v.setLen q n).setTotLen q n).next (some r) (s.chain r) from ?_) ?_
          hqr fun x hx => ?_
      · rw [hunext]
        exact h.chained hr
      · show _ ≤ v.live.length
        rw [hvlive]
        exact h.exact.chain_length_le hr (h.chained hr)
      · rw [(hupbuf x).2]
        exact h.refs hr x hx

/-- The same, with the invariant in between. -/
theorem PacketInv.realloc_cut (h : PacketInv cfg s held) (hp : p ∈ s.live) (hshared : s.Unshared p) {newLen : Nat}
    (hnew : newLen < (s.pbuf p).totLen) :
    ∃ pre q suf n size, s.chain p = pre ++ q :: suf ∧ n ≤ (s.pbuf q).len ∧
      (pre.map fun q => (s.pbuf q).len).sum + n = newLen ∧
      PacketInv cfg (s.shortened pre q n size) ((s.next q).toList ++ held) ∧
      pbufRealloc s p newLen = match s.next q with
        | some r => (pbufFree (s.shortened pre q n size) r).1
        | none   => s.shortened pre q n size := by
  obtain ⟨pre, q, suf, n, size, hchain, hn, hlen, hsize, heq⟩ := h.realloc_eq hp hnew
  have hpath := h.chained hp
  rw [hchain] at hpath
  refine ⟨pre, q, suf, n, size, hchain, hn, hlen, h.shorten hp hchain hn (fun x hx hxpre hxq y hy hxy => ?_) hsize, heq⟩
  -- what points into the chain is in the chain, and what is behind `q` points further back
  have hmem : y ∈ s.chain p := by
    rw [hchain]
    rcases List.mem_append.mp hy with hy | hy
    · exact List.mem_append_left _ hy
    · rw [List.mem_singleton.mp hy]
      simp
  by_cases hxchain : x ∈ s.chain p
  · rw [hchain] at hxchain
    have hxsuf : x ∈ suf := by
      rcases List.mem_append.mp hxchain with hmem | hmem
      · exact absurd hmem hxpre
      · exact (List.mem_cons.mp hmem).resolve_left hxq
    obtain ⟨rs, hrs, hrest⟩ := hpath.drop.some_inv
    rw [← (List.cons.inj hrs).2] at hrest
    have hysuf := hrest.next_mem hxsuf hxy
    have hdisjoint := (List.nodup_append.mp hpath.nodup).2.2
    rcases List.mem_append.mp hy with hy | hy
    · exact hdisjoint y hy y (List.mem_cons_of_mem q hysuf) rfl
    · rw [List.mem_singleton.mp hy] at hysuf
      exact (List.nodup_cons.mp hpath.drop.nodup).1 hysuf
  · exact hshared x hx hxchain y hmem hxy

theorem PacketInv.realloc (h : PacketInv cfg s held) (hp : p ∈ s.live) (hshared : s.Unshared p) (newLen : Nat) :
    PacketInv cfg (pbufRealloc s p newLen) held := by
  by_cases hnew : newLen < (s.pbuf p).totLen
  swap
  · rw [pbufRealloc, if_pos (Nat.not_lt.mp hnew)]
    exact h
  obtain ⟨pre, q, suf, n, size, -, -, -, hshort, heq⟩ := h.realloc_cut hp hshared hnew
  rw [heq]
  cases hnext : s.next q with
  | none =>
      rw [hnext] at hshort
      exact hshort
  | some r =>
      rw [hnext] at hshort
      exact hshort.free

/-! ## Changing one pbuf -/

theorem Packets.rest_put_of_ne {b : Pbuf} (hq : q ≠ p) (h : s.next q ≠ some p ∨ b.totLen = (s.pbuf p).totLen) :
    (s.put p b).rest q = s.rest q := by
  unfold Packets.rest
  rw [Packets.next_put, Function.update_of_ne hq]
  cases hnext : s.next q with
  | none => rfl
  | some r =>
      rw [Option.elim_some, Option.elim_some]
      by_cases hr : r = p
      · rcases h with h | h
        · exact absurd (hnext.trans (congrArg some hr)) h
        · rw [hr, Packets.put_self, h]
      · rw [Packets.put_of_ne hr]

theorem PacketInv.put {b : Pbuf} (h : PacketInv cfg s held) (hp : p ∈ s.live)
    (hheads : s.Heads p ∨ b.totLen = (s.pbuf p).totLen) (hnext : b.next = s.next p) (href : b.ref = (s.pbuf p).ref)
    (htotal : b.totLen = b.len + s.rest p) (hlt : b.totLen < 65536) (hplaced : Placed cfg (s.put p b) p) :
    PacketInv cfg (s.put p b) held := by
  refine ⟨?_, fun q hq => ?_, fun q hq => ?_, fun q hq => ?_, fun q hq => ?_⟩
  · rw [Packets.counted_put hnext href]
    exact h.exact
  · by_cases hqp : q = p
    · rw [hqp, Packets.put_self, href]
      exact h.ref_lt p hp
    · rw [Packets.put_of_ne hqp]
      exact h.ref_lt q hq
  · by_cases hqp : q = p
    · have hrest : (s.put p b).rest p = s.rest p := by
        unfold Packets.rest
        rw [Packets.next_put, Function.update_self, hnext]
        cases hn : s.next p with
        | none => rfl
        | some r =>
            have hr : r ≠ p := fun heq => h.next_ne hp (hn.trans (congrArg some heq))
            rw [Option.elim_some, Option.elim_some, Packets.put_of_ne hr]
      rw [hqp, hrest, Packets.put_self]
      exact htotal
    · rw [Packets.rest_put_of_ne hqp (hheads.imp_left fun hh => hh q hq), Packets.put_of_ne hqp]
      exact h.total q hq
  · by_cases hqp : q = p
    · rw [hqp, Packets.put_self]
      exact hlt
    · rw [Packets.put_of_ne hqp]
      exact h.total_lt q hq
  · by_cases hqp : q = p
    · rw [hqp]
      exact hplaced
    · have hsame : (s.put p b).pbuf q = s.pbuf q := Packets.put_of_ne hqp
      exact (h.placed q hq).congr (by rw [hsame]) (by rw [hsame]) (by rw [hsame]) rfl

/-- Moving the payload pointer keeps the end of the payload where it is. -/
theorem PacketInv.moveHeader (h : PacketInv cfg s held) (hp : p ∈ s.live) (hheads : s.Heads p) {inc : Int}
    (hlen : 0 ≤ (s.pbuf p).len + inc) (hlt : (s.pbuf p).totLen + inc < 65536)
    (hroom : (s.pbuf p).owns → (cfg.sizeofStructPbuf : Int) ≤ (s.pbuf p).payload.off - inc) :
    PacketInv cfg (s.moveHeader p inc) held := by
  have htotal := h.total p hp
  have hlen' : toU16 ((s.pbuf p).len + inc) = ((s.pbuf p).len + inc).toNat := by unfold toU16; omega
  have htotal' : toU16 ((s.pbuf p).totLen + inc) = ((s.pbuf p).totLen + inc).toNat := by unfold toU16; omega
  unfold Packets.moveHeader
  dsimp only
  rw [hlen', htotal']
  refine h.put hp (.inl hheads) rfl rfl (by dsimp only; omega) (by dsimp only; omega) ⟨fun ho => ?_, fun ho => ?_⟩
  · rw [Packets.put_self] at ho ⊢
    obtain ⟨hblock, hoff, hend, hsize⟩ := (h.placed p hp).inside ho
    have hfront := hroom ho
    refine ⟨hblock, ?_, ?_, hsize⟩
    · dsimp only
      omega
    · show ((s.pbuf p).payload.off - inc).toNat + ((s.pbuf p).len + inc).toNat ≤ s.size p
      omega
  · rw [Packets.put_self] at ho ⊢
    exact (h.placed p hp).outside ho

/-- **`pbuf_header`.** -/
theorem PacketInv.header (h : PacketInv cfg s held) (hp : p ∈ s.live) (hheads : s.Heads p) {inc : Int}
    (hlt : (s.pbuf p).totLen + inc < 65536) : PacketInv cfg (pbufHeader cfg s p inc).1 held := by
  unfold pbufHeader
  dsimp only
  split
  · exact h
  split
  · exact h
  next hfits =>
  have hlen : 0 ≤ (s.pbuf p).len + inc := by
    rcases Int.lt_or_le inc 0 with hneg | hpos
    · have := not_and.mp hfits hneg
      omega
    · omega
  split
  · split
    · exact h
    · next hroom => exact h.moveHeader hp hheads hlen hlt fun _ => by omega
  · next hother =>
      split
      · exact h.moveHeader hp hheads hlen hlt fun ho => absurd ho hother
      · exact h

/-- Setting the payload of a `PBUF_REF` or `PBUF_ROM` pbuf. -/
theorem PacketInv.refer (h : PacketInv cfg s held) (hp : p ∈ s.live)
    (htype : (s.pbuf p).type = .ref ∨ (s.pbuf p).type = .rom)
    (a : Nat) : PacketInv cfg (s.put p { s.pbuf p with payload := ⟨none, a⟩ }) held := by
  have howns : ¬(s.pbuf p).owns := by
    unfold Pbuf.owns
    rcases htype with ht | ht <;> simp [ht]
  have htotal := h.total p hp
  refine h.put hp (.inr rfl) rfl rfl (by dsimp only; omega) (h.total_lt p hp) ⟨fun ho => ?_, fun _ => ?_⟩
  · rw [Packets.put_self] at ho
    exact absurd ho howns
  · rw [Packets.put_self]

/-- The bytes do not matter. -/
theorem Formed.setData (h : Formed cfg missing s held) (data : Option Nat → Lib.Mem) :
    Formed cfg missing { s with data := data } held :=
  ⟨h.exact, h.ref_lt, h.total, h.total_lt, fun p hp => (h.placed p hp).congr rfl rfl rfl rfl⟩

/-! ## Allocation -/

theorem Packets.counted_give {b : Pbuf} (s : Packets) (p size : Nat) (hnext : b.next = none) (href : b.ref = 1) :
    (s.give p size b).counted = s.counted.alloc p := by
  unfold Packets.counted Counted.alloc
  congr 1
  · rw [← hnext]
    exact s.next_put p b
  · funext q
    show (Function.update s.pbuf p b q).ref = Function.update (fun q => (s.pbuf q).ref) p 1 q
    by_cases hq : q = p
    · rw [hq, Function.update_self, Function.update_self, href]
    · rw [Function.update_of_ne hq, Function.update_of_ne hq]

theorem Formed.give {b : Pbuf} (h : Formed cfg missing s held) (size : Nat) (hp : p ∉ s.live) (hnext : b.next = none)
    (href : b.ref = 1) (htotal : b.totLen = b.len + missing p) (hlt : b.totLen < 65536)
    (hplaced : Placed cfg (s.give p size b) p) : Formed cfg missing (s.give p size b) (p :: held) := by
  have hself := s.give_self p size b
  have hother : ∀ q, q ≠ p → (s.give p size b).pbuf q = s.pbuf q := fun q hq => Function.update_of_ne hq _ _
  have hlive : ∀ q ∈ (s.give p size b).live, q = p ∨ (q ≠ p ∧ q ∈ s.live) := by
    intro q hq
    rcases List.mem_cons.mp hq with hq | hq
    · exact .inl hq
    · exact .inr ⟨ne_of_mem_of_not_mem hq hp, hq⟩
  refine ⟨?_, fun q hq => ?_, fun q hq => ?_, fun q hq => ?_, fun q hq => ?_⟩
  · rw [Packets.counted_give s p size hnext href]
    exact h.exact.alloc hp
  · rcases hlive q hq with rfl | ⟨hne, hq⟩
    · rw [hself, href]
      decide
    · rw [hother q hne]
      exact h.ref_lt q hq
  · rcases hlive q hq with rfl | ⟨hne, hq⟩
    · rw [Packets.rest, Packets.next, hself, hnext, Option.elim_none, htotal]
      rfl
    · have hsame : (s.give p size b).rest q = s.rest q :=
        Packets.rest_put_of_ne hne (.inl fun hn => hp (h.exact.next_live hq hn))
      rw [hsame, hother q hne]
      exact h.total q hq
  · rcases hlive q hq with rfl | ⟨hne, hq⟩
    · rw [hself]
      exact hlt
    · rw [hother q hne]
      exact h.total_lt q hq
  · rcases hlive q hq with rfl | ⟨hne, hq⟩
    · exact hplaced
    · have hsame := hother q hne
      exact (h.placed q hq).congr (by rw [hsame]) (by rw [hsame]) (by rw [hsame]) (Function.update_of_ne hne _ _)

/-- The pbufs of `s` are those of `s'`, in the same blocks. -/
structure KeepsPbufs (s s' : Packets) : Prop where
  live : ∀ q ∈ s.live, q ∈ s'.live
  pbuf : ∀ q ∈ s.live, s'.pbuf q = s.pbuf q
  size : ∀ q ∈ s.live, s'.size q = s.size q
  data : s'.data = s.data

theorem KeepsPbufs.trans {s₁ s₂ s₃ : Packets} (h : KeepsPbufs s₁ s₂) (h' : KeepsPbufs s₂ s₃) : KeepsPbufs s₁ s₃ where
  live q hq := h'.live q (h.live q hq)
  pbuf q hq := (h'.pbuf q (h.live q hq)).trans (h.pbuf q hq)
  size q hq := (h'.size q (h.live q hq)).trans (h.size q hq)
  data := h'.data.trans h.data

theorem keepsPbufs_give (size : Nat) (b : Pbuf) (hp : p ∉ s.live) : KeepsPbufs s (s.give p size b) where
  live _ hq := List.mem_cons_of_mem p hq
  pbuf _ hq := Function.update_of_ne (ne_of_mem_of_not_mem hq hp) _ _
  size _ hq := Function.update_of_ne (ne_of_mem_of_not_mem hq hp) _ _
  data := rfl

/-- A chain of the old pbufs is one of the new state too. -/
theorem KeepsPbufs.chained (h : KeepsPbufs s s') {o : Option Nat} {ps : List Nat} (hps : Chained s.next o ps)
    (hlive : ∀ q ∈ ps, q ∈ s.live) : Chained s'.next o ps :=
  hps.congr fun q hq => by rw [Packets.next, h.pbuf q (hlive q hq)]; rfl

/-- **The chain from `p` is growing**: it ends with `r` so far, and `remLen` bytes are missing. -/
structure Growing (cfg : PbufConfig) (s₀ s : Packets) (held : List Nat) (p r remLen : Nat) : Prop where
  formed : Formed cfg (fun q => if q = r then remLen else 0) s (p :: held)
  keeps  : KeepsPbufs s₀ s
  path   : ∃ ps, Chained s.next (some p) (ps ++ [r]) ∧ ∀ q ∈ ps ++ [r], q ∉ s₀.live ∧ (s.pbuf q).ref = 1

theorem Formed.missing_congr (h : Formed cfg missing s held) (missing' : Nat → Nat)
    (hsame : ∀ q ∈ s.live, missing' q = missing q) :
    Formed cfg missing' s held :=
  ⟨h.exact, h.ref_lt, fun q hq => by rw [hsame q hq]; exact h.total q hq, h.total_lt, h.placed⟩

/-- A pbuf is hung behind one that misses as many bytes. -/
theorem Formed.setNext {r : Nat} {missing' : Nat → Nat} (h : Formed cfg missing s (t :: held)) (hr : r ∈ s.live)
    (hnext : s.next r = none) (hrt : r ∉ s.chain t) (hmissing : missing r = (s.pbuf t).totLen) (hr' : missing' r = 0)
    (hsame : ∀ q, q ≠ r → missing' q = missing q) : Formed cfg missing' (s.setNext r (some t)) held := by
  have ht : t ∈ s.live := h.exact.points t List.mem_cons_self
  have htr : t ≠ r := fun heq => hrt (heq ▸ h.mem_chain ht)
  have hself : (s.setNext r (some t)).pbuf r = { s.pbuf r with next := some t } := Function.update_self ..
  have hother : ∀ q, q ≠ r → (s.setNext r (some t)).pbuf q = s.pbuf q := fun q hq => Packets.put_of_ne hq
  refine ⟨?_, fun q hq => ?_, fun q hq => ?_, fun q hq => ?_, fun q hq => ?_⟩
  · rw [Packets.counted_setNext]
    exact h.exact.link hr hnext (h.chained ht) hrt
  · by_cases hqr : q = r
    · rw [hqr, hself]
      exact h.ref_lt r hr
    · rw [hother q hqr]
      exact h.ref_lt q hq
  · have htotal := h.total q hq
    by_cases hqr : q = r
    · rw [hqr, Packets.rest, hnext, Option.elim_none] at htotal
      rw [hqr, Packets.rest, Packets.next, hself, Option.elim_some, hother t htr, hr']
      show (s.pbuf r).totLen = (s.pbuf r).len + 0 + _
      omega
    · have hrest : (s.setNext r (some t)).rest q = s.rest q := Packets.rest_put_of_ne hqr (.inr rfl)
      rw [hrest, hother q hqr, hsame q hqr]
      exact htotal
  · by_cases hqr : q = r
    · rw [hqr, hself]
      exact h.total_lt r hr
    · rw [hother q hqr]
      exact h.total_lt q hq
  · by_cases hqr : q = r
    · rw [hqr]
      exact (h.placed r hr).congr (by rw [hself]) (by rw [hself]) (by rw [hself]) rfl
    · have hsame := hother q hqr
      exact (h.placed q hq).congr (by rw [hsame]) (by rw [hsame]) (by rw [hsame]) rfl

/-- One more pbuf at the end of the chain. -/
theorem Growing.extend {s₀ : Packets} {r remLen : Nat} {b : Pbuf} (h : Growing cfg s₀ s held p r remLen) (size : Nat)
    (hq : q ∉ s.live) (hnext : b.next = none) (href : b.ref = 1) (htotal : b.totLen = remLen) (hlen : b.len ≤ remLen)
    (hplaced : Placed cfg (s.give q size b) q) :
    Growing cfg s₀ ((s.give q size b).setNext r (some q)) held p q (remLen - b.len) := by
  obtain ⟨ps, hpath, hnew⟩ := h.path
  have hp := h.formed.exact.points p List.mem_cons_self
  have hlive := h.formed.exact.chain_live hp hpath
  have hr : r ∈ s.live := hlive r (by simp)
  have hrq : r ≠ q := ne_of_mem_of_not_mem hr hq
  have hkeeps := keepsPbufs_give size b hq
  have hremLt : remLen < 65536 := by
    have hlt := h.formed.total_lt r hr
    have htot := h.formed.total r hr
    rw [if_pos rfl] at htot
    omega
  have hgiven := (h.formed.missing_congr (fun x => if x = r then remLen else if x = q then remLen - b.len else 0)
    fun x hx => by rw [if_neg (ne_of_mem_of_not_mem hx hq)]).give size hq hnext href
      (by rw [if_neg hrq.symm, if_pos rfl]; omega) (by omega) hplaced
  have hqself := s.give_self q size b
  have hqpath : Chained (s.give q size b).next (some q) [q] := by
    refine .cons ?_
    rw [Packets.next, hqself, hnext]
    exact .nil
  have hqchain : (s.give q size b).chain q = [q] := hgiven.chain_eq List.mem_cons_self hqpath
  have hrnext : (s.give q size b).next r = none := by
    rw [Packets.next, hkeeps.pbuf r hr]
    exact hpath.last
  have hkeeps' : KeepsPbufs s₀ ((s.give q size b).setNext r (some q)) := by
    have hboth := h.keeps.trans hkeeps
    refine ⟨hboth.live, fun x hx => ?_, hboth.size, hboth.data⟩
    rw [Packets.setNext, Packets.put_of_ne (ne_of_mem_of_not_mem hx (hnew r (by simp)).1)]
    exact hboth.pbuf x hx
  refine ⟨hgiven.setNext (List.mem_cons_of_mem q hr) hrnext (by rw [hqchain]; simp [hrq])
    (by rw [if_pos rfl, hqself, htotal])
    (by rw [if_neg hrq]) fun x hx => by rw [if_neg hx], hkeeps', ps ++ [r], ?_, fun x hx => ?_⟩
  · rw [Packets.setNext, Packets.next_put, List.append_assoc]
    exact (hkeeps.chained hpath hlive).link hqpath (by simp [hrq])
  · have hsame : ∀ y, (((s.give q size b).setNext r (some q)).pbuf y).ref = ((s.give q size b).pbuf y).ref := by
      intro y
      by_cases hy : y = r
      · rw [hy, Packets.setNext, Packets.put_self]
      · rw [Packets.setNext, Packets.put_of_ne hy]
    rw [hsame]
    rcases List.mem_append.mp hx with hx | hx
    · rw [hkeeps.pbuf x (hlive x hx)]
      exact hnew x hx
    · rw [List.mem_singleton.mp hx, hqself]
      exact ⟨fun hmem => hq (h.keeps.live q hmem), href⟩

/-- **What `pbuf_alloc` did**: the pbufs of the new chain are new, with one reference each, or there is no new one. -/
inductive Allocated (cfg : PbufConfig) (s : Packets) (held : List Nat) (length : Nat) : Packets × Option Nat → Prop
  | given {s' : Packets} {p : Nat} (keeps : KeepsPbufs s s') (inv : PacketInv cfg s' (p :: held))
      (new : ∀ q ∈ s'.chain p, q ∉ s.live ∧ (s'.pbuf q).ref = 1) (total : (s'.pbuf p).totLen = length) :
      Allocated cfg s held length (s', some p)
  | refused {s' : Packets} (keeps : KeepsPbufs s s') (inv : PacketInv cfg s' held) : Allocated cfg s held length
    (s', none)

theorem Growing.finish {s₀ : Packets} {r : Nat} (h : Growing cfg s₀ s held p r 0) :
    Allocated cfg s₀ held (s.pbuf p).totLen (s, some p) := by
  obtain ⟨ps, hpath, hnew⟩ := h.path
  have hp := h.formed.exact.points p List.mem_cons_self
  refine .given h.keeps (h.formed.missing_congr _ fun q _ => ?_) ?_ rfl
  · split <;> rfl
  · rw [h.formed.chain_eq hp hpath]
    exact hnew

/-- What was allocated is freed again, and that is all of it. -/
theorem Growing.giveUp {s₀ : Packets} {r remLen length : Nat} (h₀ : PacketInv cfg s₀ held)
    (h : Growing cfg s₀ s held p r remLen) :
    Allocated cfg s₀ held length ((pbufFree s p).1, none) := by
  obtain ⟨ps, hpath, hnew⟩ := h.path
  have hp := h.formed.exact.points p List.mem_cons_self
  have hfree := h.formed.free
  rw [h.formed.pbufFree_eq hp, h.formed.chain_eq hp hpath] at hfree ⊢
  have hnotin : ∀ q ∈ s₀.live, q ∉ ps ++ [r] := fun q hq hmem => (hnew q hmem).1 hq
  -- the references that are left lead to old pbufs only
  have hold : ∀ q ∈ (Counted.release (ps ++ [r]) s.counted).live, q ∈ s₀.live := by
    intro q hq
    obtain ⟨x, hx, xs, hxs, hmem⟩ := hfree.exact.live_iff.mp hq
    have hxs : Chained (s.withCounts (Counted.release (ps ++ [r]) s.counted)).next (some x) xs := hxs
    have hxlive := h₀.exact.points x hx
    have hchain := h.keeps.chained (h₀.chained hxlive) (h₀.chain_live hxlive)
    rw [Packets.next_withCounts] at hxs
    rw [hchain.unique hxs] at hmem
    exact h₀.chain_live hxlive q hmem
  have hkeeps : KeepsPbufs s₀ (s.withCounts (Counted.release (ps ++ [r]) s.counted)) := by
    refine ⟨fun q hq => Counted.mem_release_of_notMem (hnotin q hq) (h.keeps.live q hq), fun q hq => ?_,
      h.keeps.size, h.keeps.data⟩
    have hsame := h.keeps.pbuf q hq
    show ({ s.pbuf q with ref := (Counted.release (ps ++ [r]) s.counted).ref q } : Pbuf) = s₀.pbuf q
    rw [Counted.release_ref_of_notMem (hnotin q hq)]
    exact hsame
  refine .refused hkeeps (hfree.missing_congr _ fun q hq => ?_)
  have hne : q ≠ r := fun heq => (hnew r (by simp)).1 (heq ▸ hold q hq)
  rw [if_neg hne]

/-- The loop of `pbuf_alloc`. -/
theorem poolTail_allocated {s₀ : Packets} (h₀ : PacketInv cfg s₀ held) :
    ∀ {mallocs : List Nat} {r remLen : Nat} {s : Packets},
    mallocs.Nodup → (∀ q ∈ mallocs, q ∉ s.live) → Growing cfg s₀ s held p r remLen →
    Allocated cfg s₀ held (s.pbuf p).totLen (poolTail cfg p mallocs r remLen s)
  | [],           r, remLen, s, _, _, h => by
      unfold poolTail
      split
      · next hzero =>
          rw [hzero] at h
          exact h.finish
      · exact h.giveUp h₀
  | q :: mallocs, r, remLen, s, hnodup, hfresh, h => by
      unfold poolTail
      split
      · next hzero =>
          rw [hzero] at h
          exact h.finish
      next hmore =>
      obtain ⟨hq, hnodup⟩ := List.nodup_cons.mp hnodup
      have hqs := hfresh q List.mem_cons_self
      have hp := h.formed.exact.points p List.mem_cons_self
      have hpq : p ≠ q := ne_of_mem_of_not_mem hp hqs
      obtain ⟨ps, hpath, hnew⟩ := h.path
      have hr := h.formed.exact.chain_live hp hpath r (by simp)
      have hremLt : remLen < 65536 := by
        have hlt := h.formed.total_lt r hr
        have htot := h.formed.total r hr
        rw [if_pos rfl] at htot
        omega
      rw [toU16_of_lt hremLt]
      have hnext := h.extend (cfg.sizeofStructPbuf + cfg.poolBufsizeAligned)
        (b := { next := none, payload := ⟨some q, cfg.sizeofStructPbuf⟩, totLen := remLen,
                len := min remLen cfg.poolBufsizeAligned, type := .pool, ref := 1 })
        hqs rfl rfl rfl (Nat.min_le_left _ _) ⟨fun _ => ?_, fun ho => ?_⟩
      · have hloop := poolTail_allocated h₀ hnodup (fun x hx hmem => ?_) hnext
        · have htotal : (((s.give q (cfg.sizeofStructPbuf + cfg.poolBufsizeAligned)
              { next := none, payload := ⟨some q, cfg.sizeofStructPbuf⟩, totLen := remLen,
                len := min remLen cfg.poolBufsizeAligned, type := .pool, ref := 1 }).setNext
              r (some q)).pbuf p).totLen = (s.pbuf p).totLen := by
            by_cases hpr : p = r
            · rw [hpr, Packets.setNext, Packets.put_self, (keepsPbufs_give _ _ hqs).pbuf r hr]
            · rw [Packets.setNext, Packets.put_of_ne hpr, (keepsPbufs_give _ _ hqs).pbuf p hp]
          rw [htotal] at hloop
          exact hloop
        · rcases List.mem_cons.mp hmem with rfl | hmem
          · exact hq hx
          · exact hfresh x (List.mem_cons_of_mem q hx) hmem
      · have hfits := cfg.fits
        rw [s.give_self, s.give_size]
        exact ⟨rfl, Nat.le_refl _, by dsimp only; omega, hfits⟩
      · rw [s.give_self] at ho
        exact absurd (.inr rfl) ho

/-- `struct pbuf` is aligned, so the headers behind it are rounded up on their own. -/
theorem PbufConfig.align_offset (cfg : PbufConfig) (l : PbufLayer) :
    cfg.align (cfg.sizeofStructPbuf + cfg.offset l) = cfg.sizeofStructPbuf + cfg.align (cfg.offset l) := by
  have hwhole := lwipMemAlignSize_spec cfg.aligned (cfg.sizeofStructPbuf + cfg.offset l)
  have hoff := lwipMemAlignSize_spec cfg.aligned (cfg.offset l)
  have hstruct := (lwipMemAlignSize_spec cfg.aligned cfg.sizeofPbuf).2.2
  obtain ⟨hlow, hhigh, ⟨k, hk⟩⟩ := hwhole
  obtain ⟨hlow', hhigh', ⟨k', hk'⟩⟩ := hoff
  obtain ⟨n, hn⟩ := hstruct
  have hn : cfg.sizeofStructPbuf = cfg.memAlignment * n := hn
  unfold PbufOpts.align
  -- both are multiples of the alignment less than one alignment above the same size
  have hsame : k = n + k' := by
    rw [hk, hn] at hlow hhigh
    rw [hk'] at hlow' hhigh'
    have hpos : 0 < cfg.memAlignment := by
      obtain ⟨e, he⟩ := cfg.aligned
      rw [he]
      exact Nat.two_pow_pos e
    have h₁ : cfg.memAlignment * k < cfg.memAlignment * (n + k' + 1) := by
      rw [Nat.mul_add, Nat.mul_add, Nat.mul_one]
      omega
    have h₂ : cfg.memAlignment * (n + k') < cfg.memAlignment * (k + 1) := by
      rw [Nat.mul_add, Nat.mul_add, Nat.mul_one]
      omega
    have := Nat.lt_of_mul_lt_mul_left h₁
    have := Nat.lt_of_mul_lt_mul_left h₂
    omega
  rw [hk, hk', hn, hsame, Nat.mul_add]

theorem PbufConfig.le_align (cfg : PbufConfig) (n : Nat) : n ≤ cfg.align n := (lwipMemAlignSize_spec cfg.aligned n).1

/-- A pbuf that is allocated alone. -/
theorem PacketInv.allocated {b : Pbuf} {size length : Nat} (h : PacketInv cfg s held) (hp : p ∉ s.live)
    (hnext : b.next = none) (href : b.ref = 1) (hlen : b.len = length) (htotal : b.totLen = length)
    (hlt : length < 65536)
    (hplaced : Placed cfg (s.give p size b) p) : Allocated cfg s held length (s.give p size b, some p) := by
  have hgiven := h.give size hp hnext href (htotal.trans hlen.symm) (htotal ▸ hlt) hplaced
  have hself := s.give_self p size b
  have hpath : Chained (s.give p size b).next (some p) [p] := by
    refine .cons ?_
    rw [Packets.next, hself, hnext]
    exact .nil
  refine .given (keepsPbufs_give size b hp) hgiven ?_ (by rw [hself, htotal])
  rw [hgiven.chain_eq List.mem_cons_self hpath]
  intro q hq
  rw [List.mem_singleton.mp hq, hself]
  exact ⟨hp, href⟩

/-- **When a `PBUF_RAM` block holds its payload**: exactly if the size asked of `mem_malloc` does not wrap. -/
theorem ramBlock_holds_iff (cfg : PbufConfig) (s : Packets) (l : PbufLayer) (length p : Nat) (mallocs : List Nat) :
    let r := (pbufAlloc cfg s l length .ram (p :: mallocs)).1
    (r.pbuf p).payload.off + (r.pbuf p).len ≤ r.size p ↔ cfg.ramSize l length < 2 ^ cfg.memSizeBits := by
  obtain ⟨hle, hlt, -⟩ := lwipMemAlignSize_spec cfg.aligned length
  have hsize : cfg.ramSize l length =
      cfg.align (cfg.sizeofStructPbuf + cfg.offset l) + lwipMemAlignSize cfg.memAlignment length := rfl
  have hbits : 65536 ≤ 2 ^ cfg.memSizeBits := Nat.pow_le_pow_right (n := 2) (by decide) cfg.bits
  -- an alignment is no longer than a buffer of the pool
  have halign : cfg.memAlignment ≤ 65536 := by
    have hpos := Nat.zero_lt_of_lt (cfg.holds .raw)
    have hdvd : cfg.memAlignment ∣ cfg.poolBufsizeAligned := (lwipMemAlignSize_spec cfg.aligned _).2.2
    have := Nat.le_of_dvd hpos hdvd
    have := cfg.fits
    omega
  unfold pbufAlloc
  dsimp only
  rw [s.give_self, s.give_size]
  dsimp only
  constructor
  · intro hheld
    by_contra hwrap
    have hmod := Nat.mod_le (cfg.ramSize l length - 2 ^ cfg.memSizeBits) (2 ^ cfg.memSizeBits)
    rw [← Nat.mod_eq_sub_mod (Nat.le_of_not_lt hwrap)] at hmod
    omega
  · intro hfits
    rw [Nat.mod_eq_of_lt hfits, hsize]
    omega

/-- **`pbuf_alloc`.** -/
theorem PacketInv.alloc (h : PacketInv cfg s held) {l : PbufLayer} {length : Nat} {mallocs : List Nat} (type : PbufType)
    (hfresh : s.Fresh mallocs) (hlt : length < 65536) (hram : type = .ram → cfg.ramSize l length < 65536) :
    Allocated cfg s held length (pbufAlloc cfg s l length type mallocs) := by
  obtain ⟨hnodup, hnew⟩ := hfresh
  cases mallocs with
  | nil => exact .refused ⟨fun _ hq => hq, fun _ _ => rfl, fun _ _ => rfl, rfl⟩ h
  | cons p mallocs =>
      obtain ⟨hp, hnodup⟩ := List.nodup_cons.mp hnodup
      have hps := hnew p List.mem_cons_self
      have hholds := cfg.holds l
      have hfits := cfg.fits
      have hbits : 65536 ≤ 2 ^ cfg.memSizeBits := Nat.pow_le_pow_right (n := 2) (by decide) cfg.bits
      have houtside : ∀ {size : Nat} {b : Pbuf}, ¬b.owns → b.payload.block = none → Placed cfg (s.give p size b) p := by
        intro size b howns hblock
        refine ⟨fun ho => ?_, fun _ => ?_⟩
        · rw [s.give_self] at ho
          exact absurd ho howns
        · rw [s.give_self]
          exact hblock
      unfold pbufAlloc
      dsimp only
      cases type with
      | pool =>
          dsimp only
          rw [cfg.align_offset]
          obtain ⟨len, hlen⟩ : ∃ n, n = min length (cfg.poolBufsizeAligned - cfg.align (cfg.offset l)) := ⟨_, rfl⟩
          rw [← hlen]
          have hgiven := (h.missing_congr (fun q => if q = p then length - len else 0) fun q hq => by
            rw [if_neg (ne_of_mem_of_not_mem hq hps)]).give (cfg.sizeofStructPbuf + cfg.poolBufsizeAligned)
              (b := { next := none, payload := ⟨some p, cfg.sizeofStructPbuf + cfg.align (cfg.offset l)⟩,
                      totLen := length, len := len, type := .pool, ref := 1 })
              hps rfl rfl (by rw [if_pos rfl]; dsimp only; omega) hlt ⟨fun _ => ?_, fun ho => ?_⟩
          · have hpath : Chained (s.give p (cfg.sizeofStructPbuf + cfg.poolBufsizeAligned)
                { next := none, payload := ⟨some p, cfg.sizeofStructPbuf + cfg.align (cfg.offset l)⟩, totLen := length,
                  len := len, type := .pool, ref := 1 }).next (some p) ([] ++ [p]) := by
              refine .cons ?_
              rw [Packets.next, s.give_self]
              exact .nil
            have hloop := poolTail_allocated h hnodup (fun q hq hmem => ?_)
              ⟨hgiven, keepsPbufs_give _ _ hps, [], hpath, fun q hq => by
                rw [List.mem_singleton.mp hq, s.give_self]
                exact ⟨hps, rfl⟩⟩
            · rw [s.give_self] at hloop
              exact hloop
            · rcases List.mem_cons.mp hmem with rfl | hmem
              · exact hp hq
              · exact hnew q (List.mem_cons_of_mem p hq) hmem
          · rw [s.give_self, s.give_size]
            exact ⟨rfl, Nat.le_add_right _ _, by dsimp only; omega, hfits⟩
          · rw [s.give_self] at ho
            exact absurd (.inr rfl) ho
      | ram =>
          have hsmall := hram rfl
          dsimp only
          rw [Nat.mod_eq_of_lt (by omega)]
          refine h.allocated hps rfl rfl rfl rfl hlt ⟨fun _ => ?_, fun ho => ?_⟩
          · rw [s.give_self, s.give_size]
            refine ⟨rfl, ?_, ?_, hsmall⟩
            · dsimp only
              rw [cfg.align_offset]
              exact Nat.le_add_right _ _
            · exact Nat.add_le_add_left (cfg.le_align length) _
          · rw [s.give_self] at ho
            exact absurd (.inl rfl) ho
      | rom =>
          dsimp only
          refine h.allocated hps rfl rfl rfl rfl hlt (houtside ?_ rfl)
          simp [Pbuf.owns]
      | ref =>
          dsimp only
          refine h.allocated hps rfl rfl rfl rfl hlt (houtside ?_ rfl)
          simp [Pbuf.owns]

/-! ## Copying -/

theorem pbufCopyLoop_setData :
    ∀ (fuel : Nat) (tos : List Nat) (offsetTo : Nat) (froms : List Nat) (offsetFrom : Nat) (s : Packets),
    ∃ data, (pbufCopyLoop fuel tos offsetTo froms offsetFrom s).1 = { s with data := data }
  | 0,        _,       _,  _,       _,  s => ⟨s.data, rfl⟩
  | _ + 1,    [],      _,  _,       _,  s => ⟨s.data, rfl⟩
  | _ + 1,    _ :: _,  _,  [],      _,  s => ⟨s.data, rfl⟩
  | fuel + 1, pTo :: tos, offsetTo, pFrom :: froms, offsetFrom, s => by
      unfold pbufCopyLoop
      generalize (if (s.pbuf pTo).len - offsetTo ≥ (s.pbuf pFrom).len - offsetFrom
        then (s.pbuf pFrom).len - offsetFrom else (s.pbuf pTo).len - offsetTo) = len
      dsimp only
      generalize (if offsetFrom + len ≥ _ then _ else _ : List Nat × Nat) = next
      generalize (if offsetTo + len = _ then _ else _ : List Nat × Nat) = next'
      generalize copyEnds _ next'.1 next.1 = o
      cases o with
      | some err => exact ⟨_, rfl⟩
      | none =>
          obtain ⟨data, hdata⟩ := pbufCopyLoop_setData fuel next'.1 next'.2 next.1 next.2 (s.store _ _)
          exact ⟨data, hdata⟩

theorem pbufCopy_setData (s : Packets) (pTo pFrom : Nat) :
    ∃ data, (pbufCopy s pTo pFrom).1 = { s with data := data } := by
  unfold pbufCopy
  split
  · exact pbufCopyLoop_setData _ _ _ _ _ s
  · exact ⟨s.data, rfl⟩

theorem pbufTakeLoop_setData : ∀ (ps : List Nat) (bs : List Byte) (s : Packets),
    ∃ data, pbufTakeLoop ps bs s = { s with data := data }
  | [],      _,  s => ⟨s.data, rfl⟩
  | _ :: ps, bs, s => by
      unfold pbufTakeLoop
      split
      · exact ⟨s.data, rfl⟩
      · obtain ⟨data, hdata⟩ := pbufTakeLoop_setData ps _ (s.store _ _)
        exact ⟨data, hdata⟩

theorem pbufTake_setData (s : Packets) (p : Nat) (bs : List Byte) :
    ∃ data, (pbufTake s p bs).1 = { s with data := data } := by
  unfold pbufTake
  split
  · exact ⟨s.data, rfl⟩
  · exact pbufTakeLoop_setData _ bs s

/-- **`pbuf_coalesce`**: the caller's reference is one to the pbuf that is returned. -/
theorem PacketInv.coalesce (h : PacketInv cfg s (p :: held)) {l : PbufLayer} {mallocs : List Nat}
    (hfresh : s.Fresh mallocs)
    (hram : cfg.ramSize l (s.pbuf p).totLen < 65536) :
    PacketInv cfg (pbufCoalesce cfg s p l mallocs).1 ((pbufCoalesce cfg s p l mallocs).2 :: held) := by
  have hp := h.exact.points p List.mem_cons_self
  unfold pbufCoalesce
  cases hnext : s.next p with
  | none => exact h
  | some r =>
      have halloc := h.alloc (l := l) .ram hfresh (h.total_lt p hp) fun _ => hram
      dsimp only
      generalize pbufAlloc cfg s l (s.pbuf p).totLen .ram mallocs = o at halloc
      cases halloc with
      | refused keeps inv => exact inv
      | @given s' q keeps inv new total =>
          obtain ⟨data, hdata⟩ := pbufCopy_setData s' q p
          dsimp only
          rw [hdata]
          refine Formed.free (Formed.setData ?_ data)
          exact ⟨inv.exact.perm (.swap p q held), inv.ref_lt, inv.total, inv.total_lt, inv.placed⟩

end

end ThirdParty.Lwip
