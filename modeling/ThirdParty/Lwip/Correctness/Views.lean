import ThirdParty.Lwip.Pbuf
import ThirdParty.Lwip.Correctness.References

/-!
# `Lwip.Correctness.Views` — the counts that the driver sees

`Pbufs` keeps of each pbuf its count and its `next` pointer. `Views` relates it to the pool with everything in it, and
each of the four functions that the driver and its stack call does to the counts of the one what it does to the other.
-/

namespace ThirdParty.Lwip

open Lib

/-- `b` has the counts and the `next` pointers of the pbufs that are allocated in `m`, and a count of zero for the
    rest. -/
structure Views (m : Packets) (b : Pbufs Nat) : Prop where
  ref   : ∀ p, b.ref p = if p ∈ m.live then (m.pbuf p).ref else 0
  keys  : (b.links.map Prod.fst).Nodup
  links : ∀ p q, (p, q) ∈ b.links ↔ p ∈ m.live ∧ m.next p = some q

variable {cfg : PbufConfig} {m : Packets} {b : Pbufs Nat} {held : List Nat} {p q : Nat}

theorem views_init (pbuf : Nat → Pbuf) (size : Nat → Nat) (data : Option Nat → Lib.Mem) :
    Views (PbufSys.init pbuf size data).packets ⟨fun _ => 0, []⟩ :=
  ⟨fun _ => rfl, List.nodup_nil, by simp [PbufSys.init]⟩

theorem Views.ref_live (h : Views m b) (hp : p ∈ m.live) : b.ref p = (m.pbuf p).ref := by rw [h.ref, if_pos hp]

/-- Each pbuf has one `next` pointer. -/
theorem eq_of_nodup_keys {links : List (Nat × Nat)} (hkeys : (links.map Prod.fst).Nodup) {x y : Nat × Nat}
    (hx : x ∈ links) (hy : y ∈ links) (hfst : x.1 = y.1) : x = y :=
  List.inj_on_of_nodup_map hkeys hx hy hfst

theorem Views.next (h : Views m b) (hp : p ∈ m.live) : b.next p = m.next p := by
  cases hnext : m.next p with
  | none =>
      rw [Option.eq_none_iff_forall_ne_some]
      intro q hq
      have hlink := (h.links p q).mp (Pbufs.mem_links_of_next hq)
      rw [hnext] at hlink
      cases hlink.2
  | some q =>
      have hmem := (h.links p q).mpr ⟨hp, hnext⟩
      obtain ⟨⟨a, r⟩, hfind⟩ := Option.isSome_iff_exists.mp
        (List.find?_isSome.mpr ⟨(p, q), hmem, decide_eq_true (rfl : (p, q).1 = p)⟩ :
          (b.links.find? fun l => decide (l.1 = p)).isSome = true)
      have hfst : a = p := by simpa using List.find?_some hfind
      have heq := eq_of_nodup_keys h.keys (List.mem_of_find?_eq_some hfind) hmem hfst
      rw [Pbufs.next, hfind, heq]
      rfl

theorem Views.setRef (h : Views m b) (hp : p ∈ m.live) (n : Nat) : Views (m.setRef p n) (b.setRef p n) := by
  refine ⟨fun q => ?_, h.keys, fun q r => ?_⟩
  · show Function.update b.ref p n q = if q ∈ m.live then ((m.setRef p n).pbuf q).ref else 0
    by_cases hq : q = p
    · subst hq
      rw [if_pos hp, Packets.setRef, Packets.put_self, Function.update_self]
    · rw [Packets.setRef, Packets.put_of_ne hq, Function.update_of_ne hq]
      exact h.ref q
  · have hnext : (m.setRef p n).next = m.next := by
      rw [Packets.setRef, Packets.next_put]
      exact Function.update_eq_self p m.next
    rw [hnext]
    exact h.links q r

/-- **`pbuf_ref`.** -/
theorem Views.pbufRef (h : Views m b) (hp : p ∈ m.live) : Views (pbufRef m p) (b.pbufRef p) := by
  rw [Lwip.pbufRef, Pbufs.pbufRef, h.ref_live hp]
  exact h.setRef hp _

/-! ## Freeing -/

/-- A pbuf whose count has dropped to zero is taken back, and its pointer with it. -/
theorem Views.take (h : Views m b) (hnodup : m.live.Nodup) (hzero : b.ref p = 0) :
    Views (m.take p) { b with links := b.links.filter fun l => l.1 ≠ p } := by
  refine ⟨fun q => ?_, (h.keys.sublist (List.filter_sublist.map _)), fun q r => ?_⟩
  · show b.ref q = if q ∈ m.live.erase p then (m.pbuf q).ref else 0
    by_cases hq : q = p
    · rw [hq, if_neg hnodup.not_mem_erase, hzero]
    · rw [h.ref q]
      simp only [List.mem_erase_of_ne hq]
  · show (q, r) ∈ b.links.filter (fun l => l.1 ≠ p) ↔ q ∈ m.live.erase p ∧ m.next q = some r
    rw [List.mem_filter, h.links, hnodup.mem_erase_iff]
    simp only [ne_eq, decide_not, Bool.not_eq_true', decide_eq_false_iff_not]
    tauto

/-- The only pointer of `p` is the one to `q`. -/
theorem Views.erase_link (h : Views m b) (hlink : (p, q) ∈ b.links) :
    b.links.erase (p, q) = b.links.filter fun l => l.1 ≠ p := by
  rw [List.Nodup.erase_eq_filter (List.Nodup.of_map _ h.keys)]
  refine List.filter_congr fun l hl => ?_
  by_cases hfst : l.1 = p
  · rw [eq_of_nodup_keys h.keys hl hlink hfst]
    simp
  · have hne : l ≠ (p, q) := fun heq => hfst (by rw [heq])
    simp [hne, hfst]

theorem Views.no_link (h : Views m b) (hnext : m.next p = none) : b.links.filter (fun l => l.1 ≠ p) = b.links := by
  refine List.filter_eq_self.mpr fun l hl => ?_
  have hlink := (h.links l.1 l.2).mp hl
  refine decide_eq_true fun hfst => ?_
  rw [hfst, hnext] at hlink
  cases hlink.2

/-- The loops go along the chain in step. -/
theorem Views.pbufFreeLoop : ∀ {ps : List Nat} {p : Nat} {m : Packets} {b : Pbufs Nat} {fuel : Nat}, Views m b →
    m.live.Nodup → Chained m.next (some p) ps → (∀ q ∈ ps, q ∈ m.live) → b.links.length < fuel →
    Views (pbufFreeLoop ps m).1 (Pbufs.pbufFreeLoop fuel b p) := by
  intro ps
  induction ps with
  | nil => intro p m b fuel _ _ hps; cases hps
  | cons p' qs ih =>
      intro p m b fuel h hnodup hps hlive hfuel
      obtain ⟨rest, hcons, hqs⟩ := hps.some_inv
      obtain ⟨rfl, rfl⟩ := List.cons.inj hcons
      have hp := hlive p' List.mem_cons_self
      obtain ⟨fuel, rfl⟩ : ∃ k, fuel = k + 1 := ⟨fuel - 1, by omega⟩
      unfold Lwip.pbufFreeLoop Pbufs.pbufFreeLoop
      rw [h.ref_live hp]
      dsimp only
      generalize toU16 (((m.pbuf p').ref : Int) - 1) = ref
      have hset := h.setRef hp ref
      have href : (b.setRef p' ref).ref p' = ref := by simp [Pbufs.setRef]
      have hnext : (m.setRef p' ref).next = m.next := by
        rw [Packets.setRef, Packets.next_put]
        exact Function.update_eq_self p' m.next
      rw [href]
      split
      swap
      · exact hset
      next hzero =>
      have htake := hset.take (p := p') hnodup (href.trans hzero)
      rw [hset.next (show p' ∈ (m.setRef p' ref).live from hp), hnext]
      cases hafter : m.next p' with
      | none =>
          rw [hafter] at hqs
          cases hqs
          rw [hset.no_link (hnext ▸ hafter)] at htake
          exact htake
      | some q =>
          -- the pointer to the rest of the chain goes with the pbuf
          rw [hafter] at hqs
          have hlink : (p', q) ∈ (b.setRef p' ref).links := (hset.links p' q).mpr ⟨hp, by rw [hnext]; exact hafter⟩
          rw [← hset.erase_link hlink] at htake
          have hchain : (p' :: qs).Nodup := hps.nodup
          refine ih htake (hnodup.erase p') ?_ (fun x hx => ?_) ?_
          · exact hqs.congr fun x _ => by
              show (m.setRef p' ref).next x = m.next x
              rw [hnext]
          · have hne : x ≠ p' := ne_of_mem_of_not_mem hx (List.nodup_cons.mp hchain).1
            exact (List.mem_erase_of_ne hne).mpr (hlive x (List.mem_cons_of_mem p' hx))
          · have hlen := List.length_erase_of_mem hlink
            have hpos := List.length_pos_of_mem hlink
            simp only [Pbufs.setRef] at hlen hpos ⊢
            omega

/-- **`pbuf_free`.** -/
theorem Views.pbufFree (h : Views m b) (hinv : PacketInv cfg m held) (hp : p ∈ m.live) :
    Views (pbufFree m p).1 (b.pbufFree p) :=
  h.pbufFreeLoop hinv.exact.nodup (hinv.chained hp) (hinv.chain_live hp) (Nat.lt_succ_self _)

/-! ## Concatenation -/

/-- **`pbuf_cat`** hangs the second chain behind the last pbuf of the first one. -/
theorem Views.pbufCat {x t : Nat} (h : Views m b) (hinv : PacketInv cfg m held) (hx : x ∈ m.live) (ht : t ∈ m.live)
    (hjoin : Joinable m x t) :
    ∃ l ∈ m.chain x, b.next l = none ∧ Views (pbufCat m x t) (b.pbufCat l t) := by
  obtain ⟨ps, l, hchain, hlast, -, hcat⟩ := hinv.pbufCat_eq hx ht hjoin
  have hl : l ∈ m.chain x := by rw [hchain]; simp
  have hlive := hinv.chain_live hx l hl
  have hnext : (m.catted t l (ps ++ [l])).next = Function.update m.next l (some t) :=
    congrArg Counted.next (Packets.counted_catted (by simp))
  refine ⟨l, hl, by rw [h.next hlive, hlast], ?_⟩
  rw [hcat]
  refine ⟨fun q => ?_, ?_, fun q r => ?_⟩
  · have href : ((m.catted t l (ps ++ [l])).pbuf q).ref = (m.pbuf q).ref :=
      congrFun (congrArg Counted.ref (Packets.counted_catted (by simp : l ∈ ps ++ [l]))) q
    rw [href]
    exact h.ref q
  · refine List.nodup_cons.mpr ⟨fun hmem => ?_, h.keys⟩
    obtain ⟨⟨l', r⟩, hlink, rfl⟩ := List.mem_map.mp hmem
    have := ((h.links l' r).mp hlink).2
    rw [hlast] at this
    cases this
  · rw [hnext]
    show (q, r) ∈ (l, t) :: b.links ↔ q ∈ m.live ∧ _
    rw [List.mem_cons, h.links]
    by_cases hq : q = l
    · subst hq
      simp [hlast, hlive, eq_comm]
    · simp [hq]

/-! ## Allocation -/

theorem pbufAlloc_ref : ∀ (ps : List Nat) (b : Pbufs Nat) (q : Nat),
    (Pbufs.pbufAlloc ps b).ref q = if q ∈ ps then 1 else b.ref q
  | [],           _, _ => rfl
  | [p],          b, q => by simp [Pbufs.pbufAlloc, Function.update_apply]
  | p :: r :: rs, b, q => by
      simp only [Pbufs.pbufAlloc, Function.update_apply, pbufAlloc_ref (r :: rs) b q, List.mem_cons (b := p)]
      split
      · next hq => simp [hq]
      · next hq => simp [hq]

theorem pbufAlloc_keys : ∀ {ps : List Nat} {b : Pbufs Nat}, ps.Nodup → (b.links.map Prod.fst).Nodup →
    (∀ q ∈ ps, q ∉ b.links.map Prod.fst) → ((Pbufs.pbufAlloc ps b).links.map Prod.fst).Nodup ∧
      ∀ q ∈ (Pbufs.pbufAlloc ps b).links.map Prod.fst, q ∈ ps ∨ q ∈ b.links.map Prod.fst
  | [],           _, _,      hkeys, _    => ⟨hkeys, fun _ hq => .inr hq⟩
  | [_],          _, _,      hkeys, _    => ⟨hkeys, fun _ hq => .inr hq⟩
  | p :: r :: rs, b, hnodup, hkeys, hnew => by
      obtain ⟨hp, hrest⟩ := List.nodup_cons.mp hnodup
      obtain ⟨ih, hmem⟩ := pbufAlloc_keys (b := b) hrest hkeys fun q hq => hnew q (List.mem_cons_of_mem p hq)
      refine ⟨List.nodup_cons.mpr ⟨fun hin => ?_, ih⟩, fun q hq => ?_⟩
      · exact (hmem p hin).elim hp (hnew p List.mem_cons_self)
      · rcases List.mem_cons.mp hq with rfl | hq
        · exact .inl List.mem_cons_self
        · exact (hmem q hq).imp (List.mem_cons_of_mem p) id

theorem pbufAlloc_links {next : Nat → Option Nat} :
    ∀ {ps : List Nat} {o : Option Nat} {b : Pbufs Nat}, Chained next o ps →
    ∀ q r, (q, r) ∈ (Pbufs.pbufAlloc ps b).links ↔ (q ∈ ps ∧ next q = some r) ∨ (q, r) ∈ b.links
  | [],           _, _, _, _, _ => by simp [Pbufs.pbufAlloc]
  | [p],          _, b, h, q, r => by
      cases h with
      | cons h =>
          have hlast : next p = none := by
            generalize next p = o at h
            cases h
            rfl
          refine ⟨.inr, fun hor => hor.resolve_left fun hlink => ?_⟩
          obtain ⟨hq, hnext⟩ := hlink
          rw [List.mem_singleton.mp hq, hlast] at hnext
          cases hnext
  | p :: p' :: ps, _, b, h, q, r => by
      cases h with
      | cons h =>
          have hnext : next p = some p' := by
            generalize next p = o at h
            cases h
            rfl
          show (q, r) ∈ (p, p') :: (Pbufs.pbufAlloc (p' :: ps) b).links ↔ _
          rw [List.mem_cons, pbufAlloc_links h q r, List.mem_cons (a := q) (b := p)]
          by_cases hq : q = p
          · subst hq
            simp only [hnext, Prod.mk.injEq, true_and, true_or, Option.some.injEq, eq_comm (a := r)]
            tauto
          · simp [hq]

/-- What is reached from an old reference is old. -/
theorem KeepsPbufs.reached {m' : Packets} (h : KeepsPbufs m m') (hinv : PacketInv cfg m held) {x : Nat} (hx : x ∈ held)
    {ps : List Nat} (hps : Chained m'.next (some x) ps) : ∀ q ∈ ps, q ∈ m.live := by
  have hlive := hinv.exact.points x hx
  rw [(h.chained (hinv.chained hlive) (hinv.chain_live hlive)).unique hps]
  exact hinv.chain_live hlive

/-- **`pbuf_alloc`** gives out a chain of new pbufs with one reference each, or none. -/
theorem Views.pbufAlloc (h : Views m b) (hinv : PacketInv cfg m held) {l : PbufLayer} {length : Nat}
    {mallocs : List Nat}
    (hfresh : m.Fresh mallocs) (hlt : length < 65536) {m' : Packets} {o : Option Nat}
    (halloc : Lwip.pbufAlloc cfg m l length .pool mallocs = (m', o)) :
    ∃ chain : List Nat, chain.head? = o ∧ chain.Nodup ∧ (∀ q ∈ chain, b.ref q = 0) ∧ Views m' (b.pbufAlloc chain) := by
  have hall := hinv.alloc (l := l) .pool hfresh hlt (by simp)
  rw [halloc] at hall
  cases hall with
  | refused keeps inv =>
      have hlive : ∀ q, q ∈ m'.live ↔ q ∈ m.live := by
        refine fun q => ⟨fun hq => ?_, keeps.live q⟩
        obtain ⟨x, hx, ps, hps, hmem⟩ := inv.exact.live_iff.mp hq
        exact keeps.reached hinv hx hps q hmem
      refine ⟨[], rfl, List.nodup_nil, by simp, fun q => ?_, h.keys, fun q r => ?_⟩
      · show b.ref q = _
        rw [h.ref q]
        by_cases hq : q ∈ m.live
        · rw [if_pos hq, if_pos ((hlive q).mpr hq), keeps.pbuf q hq]
        · rw [if_neg hq, if_neg (mt (hlive q).mp hq)]
      · show (q, r) ∈ b.links ↔ _
        rw [h.links q r, hlive]
        exact and_congr_right fun hq => by rw [Packets.next, Packets.next, keeps.pbuf q hq]
  | @given _ p keeps inv new total =>
      have hp : p ∈ m'.live := inv.exact.points p List.mem_cons_self
      have hpath := inv.chained hp
      have hold : ∀ q ∈ m'.live, q ∉ m'.chain p → q ∈ m.live := by
        intro q hq hnot
        obtain ⟨x, hx, ps, hps, hmem⟩ := inv.exact.live_iff.mp hq
        rcases List.mem_cons.mp hx with rfl | hx
        · exact absurd (hpath.unique hps ▸ hmem) hnot
        · exact keeps.reached hinv hx hps q hmem
      have hkeys : ∀ q ∈ m'.chain p, q ∉ b.links.map Prod.fst := by
        intro q hq hkey
        obtain ⟨⟨q', r⟩, hlink, rfl⟩ := List.mem_map.mp hkey
        exact (new q' hq).1 ((h.links q' r).mp hlink).1
      refine ⟨m'.chain p, ?_, hpath.nodup, fun q hq => by rw [h.ref q, if_neg (new q hq).1], fun q => ?_,
        (pbufAlloc_keys hpath.nodup h.keys hkeys).1, fun q r => ?_⟩
      · obtain ⟨qs, hqs, -⟩ := hpath.some_inv
        rw [hqs, List.head?_cons]
      · rw [pbufAlloc_ref]
        by_cases hq : q ∈ m'.chain p
        · rw [if_pos hq, if_pos (inv.chain_live hp q hq), (new q hq).2]
        · rw [if_neg hq, h.ref q]
          by_cases hlive : q ∈ m.live
          · rw [if_pos hlive, if_pos (keeps.live q hlive), keeps.pbuf q hlive]
          · rw [if_neg hlive, if_neg fun hnew => hlive (hold q hnew hq)]
      · rw [pbufAlloc_links hpath, h.links]
        by_cases hq : q ∈ m'.chain p
        · simp [hq, inv.chain_live hp q hq, (new q hq).1]
        · by_cases hlive : q ∈ m.live
          · simp [hq, hlive, keeps.live q hlive, Packets.next, keeps.pbuf q hlive]
          · have hnew : q ∉ m'.live := fun hnew => hlive (hold q hnew hq)
            simp [hq, hlive, hnew]

/-! ## Every run -/

/-- What a call of the driver or of its stack does to the counts. -/
inductive PbufsStep : PbufAct → Pbufs Nat → Pbufs Nat → Prop
  | alloc {l : PbufLayer} {length : Nat} {mallocs chain : List Nat} {b : Pbufs Nat} (hnodup : chain.Nodup)
      (hfree : ∀ q ∈ chain, b.ref q = 0) : PbufsStep (.alloc l length .pool mallocs) b (b.pbufAlloc chain)
  | ref {p : Nat} {b : Pbufs Nat} (hroom : b.ref p < 65535) : PbufsStep (.ref p) b (b.pbufRef p)
  | free {p : Nat} {b : Pbufs Nat} : PbufsStep (.free p) b (b.pbufFree p)
  | cat {x l t : Nat} {b : Pbufs Nat} (hlast : b.next l = none) : PbufsStep (.cat x t) b (b.pbufCat l t)

/-- The calls that the driver and its stack make. -/
def PbufAct.driver : PbufAct → Bool
  | .alloc _ _ .pool _ | .ref _ | .free _ | .cat _ _ => true
  | _ => false

/-- **One call**: what `pbuf.c` does to the counts and the `next` pointers is what `Pbufs` does. -/
theorem views_step {s s' : PbufSys} {act : PbufAct} (hinv : PacketInv cfg s.packets s.held) (h : Views s.packets b)
    (hdriver : act.driver = true) (hs : pbufStep cfg s act = some s') :
    ∃ b', PbufsStep act b b' ∧ Views s'.packets b' := by
  have hlive : ∀ p ∈ s.held, p ∈ s.packets.live := hinv.exact.points
  cases act with
  | alloc l length type mallocs =>
      cases type with
      | pool =>
          simp only [pbufStep, Option.ite_none_right_eq_some] at hs
          obtain ⟨⟨hfresh, hlt, -⟩, hs⟩ := hs
          generalize halloc : pbufAlloc cfg s.packets l length .pool mallocs = r at hs
          obtain ⟨m', o⟩ := r
          obtain rfl := Option.some.inj hs
          obtain ⟨chain, -, hnodup, hfree, hviews⟩ := h.pbufAlloc hinv hfresh hlt halloc
          exact ⟨_, .alloc hnodup hfree, hviews⟩
      | ram | rom | ref => cases hdriver
  | ref p =>
      simp only [pbufStep, Option.ite_none_right_eq_some] at hs
      obtain ⟨⟨hp, hroom⟩, hs⟩ := hs
      obtain rfl := Option.some.inj hs
      rw [← h.ref_live (hlive p hp)] at hroom
      exact ⟨_, .ref hroom, h.pbufRef (hlive p hp)⟩
  | free p =>
      simp only [pbufStep, Option.ite_none_right_eq_some] at hs
      obtain ⟨hp, hs⟩ := hs
      obtain rfl := Option.some.inj hs
      exact ⟨_, .free, h.pbufFree hinv (hlive p hp)⟩
  | cat x t =>
      simp only [pbufStep, Option.ite_none_right_eq_some] at hs
      obtain ⟨⟨hx, ht, hjoin⟩, hs⟩ := hs
      obtain rfl := Option.some.inj hs
      obtain ⟨l, -, hlast, hviews⟩ := h.pbufCat hinv (hlive x hx) (hlive t ht) hjoin
      exact ⟨_, .cat hlast, hviews⟩
  | chain | dechain | realloc | header | refer | copy | take | coalesce => cases hdriver

/-- The counts after a list of calls. -/
inductive PbufsRun : List PbufAct → Pbufs Nat → Prop
  | nil : PbufsRun [] ⟨fun _ => 0, []⟩
  | snoc {acts : List PbufAct} {act : PbufAct} {b b' : Pbufs Nat} (h : PbufsRun acts b) (hstep : PbufsStep act b b') :
      PbufsRun (acts ++ [act]) b'

/-- **The counts of the driver's model are those of `pbuf.c`**, in every run of the calls that it makes. -/
theorem views_run {pbuf : Nat → Pbuf} {size : Nat → Nat} {data : Option Nat → Lib.Mem} {s : PbufSys}
    {tr : List (PbufSys × PbufAct)} (hrun : Run (pbufStep cfg) (PbufSys.init pbuf size data) tr s)
    (hdriver : ∀ sa ∈ tr, sa.2.driver = true) : ∃ b, PbufsRun (tr.map Prod.snd) b ∧ Views s.packets b := by
  induction hrun with
  | nil => exact ⟨_, .nil, views_init pbuf size data⟩
  | @snoc tr s s' act hr hs ih =>
      obtain ⟨b, hb, hviews⟩ := ih fun sa hsa => hdriver sa (List.mem_append_left _ hsa)
      obtain ⟨b', hstep, hviews'⟩ := views_step (packetInv_run hr) hviews (hdriver (s, act) (by simp)) hs
      refine ⟨b', ?_, hviews'⟩
      rw [List.map_append]
      exact hb.snoc hstep

end ThirdParty.Lwip
