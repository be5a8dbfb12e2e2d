import ThirdParty.Lwip.Correctness.Allocator
import ThirdParty.Lwip.MemShared

/-!
# `Lwip.Correctness.Shared` — `mem_malloc` disturbed by `mem_free` is still one step

Whatever `mem_free` and `mem_trim` do in the openings of `mem_malloc`, the heap is as if each `mem_malloc` had run
undisturbed at one moment between its call and its return: when it takes its block, or when it gives up. `linearized`
says which steps of a run are such moments, and `shared_linearizes` is that the arena can follow them.

While `mem_malloc` scans, `ScanAt` holds as long as nothing was freed: what lies before its position does not fit.
After it took the lowest block `lfree` points to a used one, and `GapAt` says that there is no gap before the position
of its search. A lower block may be freed meanwhile; then `lfree` points there, and the search is over.
-/

namespace ThirdParty.Lwip

open Lib

variable {cfg : MemConfig} {s s' : MemShared} {a a' : Arena} {act : MemAct} {ram : Nat → Mem} {es : List Extent}
  {m need hi lo p size ptr cur : Nat}

/-! ## The scan -/

/-- `ptr` is the start of a gap or an extent, or the end, and no gap before it has `need` bytes. -/
def ScanAt (need hi : Nat) : Nat → List Extent → Nat → Prop
  | lo, [],      ptr => ptr = lo ∨ (¬lo + need ≤ hi ∧ ptr = hi)
  | lo, e :: es, ptr => ptr = lo ∨ (¬lo + need ≤ e.start ∧ (ptr = e.start ∨ ScanAt need hi e.stop es ptr))

theorem scanAt_firstGap (hneed : 0 < need) : ∀ {lo : Nat} {es : List Extent}, Packed m hi lo es →
    ScanAt need hi lo es (firstGap lo es)
  | lo, [],      _ => .inl rfl
  | lo, e :: es, hp => by
      unfold firstGap
      split
      · exact .inl rfl
      · exact .inr ⟨by omega, .inr (scanAt_firstGap hneed hp.2.2)⟩

theorem ScanAt.start : ScanAt need hi lo es lo := by
  cases es with
  | nil => exact .inl rfl
  | cons e es => exact .inl rfl

/-- The header of a gap: it has what the request needs exactly if the request fits. -/
theorem userSize_gap {b : Nat} (hgap : ram lo = ⟨b, p, false⟩) (hm : lo + cfg.minBlock ≤ b)
    (hb : b ≤ cfg.memSizeAligned) :
    ((ram lo).used = false ∧ size ≤ userSize cfg ram lo) ↔ lo + (cfg.sizeofStructMem + size) ≤ b := by
  have hlt := cfg.memSizeAligned_lt
  unfold MemConfig.minBlock at hm
  have huser : userSize cfg ram lo = b - (lo + cfg.sizeofStructMem) := by
    rw [userSize, hgap]
    exact sizeSub_of_le (show _ ≤ b by omega) (show b < _ by omega)
  rw [huser, hgap]
  constructor
  · rintro ⟨-, h⟩
    omega
  · intro h
    exact ⟨rfl, by omega⟩

/-- **One round of the scan**: the block at the position is the one first fit takes, or the position moves on. -/
theorem ScanAt.round : ∀ {es : List Extent} {p lo : Nat}, Packed cfg.minBlock cfg.memSizeAligned lo es →
    Linked cfg.memSizeAligned ram p lo es → ScanAt (cfg.sizeofStructMem + size) cfg.memSizeAligned lo es ptr →
    ptr < cfg.memSizeAligned - size →
    (((ram ptr).used = false ∧ size ≤ userSize cfg ram ptr) ∧
      (place cfg.minBlock (cfg.sizeofStructMem + size) cfg.memSizeAligned lo es).map Prod.fst = some ptr) ∨
    (¬((ram ptr).used = false ∧ size ≤ userSize cfg ram ptr) ∧
      ScanAt (cfg.sizeofStructMem + size) cfg.memSizeAligned lo es (ram ptr).next)
  | [], p, lo, hp, hl, hscan, hptr => by
      rcases hscan with rfl | ⟨-, rfl⟩
      swap
      · omega
      rcases hp with rfl | hwide
      · omega
      have hm := cfg.minBlock_pos
      have hgap := hl (by omega)
      rw [userSize_gap hgap hwide (Nat.le_refl _), place]
      by_cases hfit : ptr + (cfg.sizeofStructMem + size) ≤ cfg.memSizeAligned
      · rw [if_pos hfit]
        exact .inl ⟨hfit, rfl⟩
      · rw [hgap]
        exact .inr ⟨hfit, .inr ⟨hfit, rfl⟩⟩
  | e :: es, p, lo, hp, hl, hscan, hptr => by
      have hm := cfg.minBlock_pos
      have hpos := cfg.sizeofStructMem_pos
      obtain ⟨hgap, hwide, hrest⟩ := hp
      have hhi := hrest.le
      -- at the header of the extent
      have hused : ¬lo + (cfg.sizeofStructMem + size) ≤ e.start → ptr = e.start →
          ¬((ram ptr).used = false ∧ size ≤ userSize cfg ram ptr) ∧
            ScanAt (cfg.sizeofStructMem + size) cfg.memSizeAligned lo (e :: es) (ram ptr).next := by
        rintro hfit rfl
        rw [hl.2.1]
        exact ⟨by simp, .inr ⟨hfit, .inr .start⟩⟩
      rcases hscan with rfl | ⟨hfit, hat | hlater⟩
      · rcases hgap with hstart | hgap
        · exact .inr (hused (by omega) hstart)
        · have hram := hl.1 (by omega)
          rw [userSize_gap hram hgap (by omega), place]
          by_cases hfit : ptr + (cfg.sizeofStructMem + size) ≤ e.start
          · rw [if_pos hfit]
            exact .inl ⟨hfit, rfl⟩
          · rw [hram]
            exact .inr ⟨hfit, .inr ⟨hfit, .inl rfl⟩⟩
      · exact .inr (hused hfit hat)
      · rcases ScanAt.round hrest hl.2.2 hlater hptr with ⟨hfits, hplace⟩ | ⟨hno, hnext⟩
        · refine .inl ⟨hfits, ?_⟩
          rw [place, if_neg hfit, Option.map_map]
          exact hplace
        · exact .inr ⟨hno, .inr ⟨hfit, .inr hnext⟩⟩

/-- **The end of the scan**: nothing fits. -/
theorem ScanAt.give_up (hsize : size ≤ cfg.memSizeAligned) : ∀ {es : List Extent} {lo : Nat},
    Packed cfg.minBlock cfg.memSizeAligned lo es →
    ScanAt (cfg.sizeofStructMem + size) cfg.memSizeAligned lo es ptr → ¬ptr < cfg.memSizeAligned - size →
    place cfg.minBlock (cfg.sizeofStructMem + size) cfg.memSizeAligned lo es = none
  | [], lo, hp, hscan, hptr => by
      have hpos := cfg.sizeofStructMem_pos
      rcases hscan with rfl | ⟨hfit, -⟩
      · exact if_neg (by omega)
      · exact if_neg hfit
  | e :: es, lo, hp, hscan, hptr => by
      have hpos := cfg.sizeofStructMem_pos
      rcases hscan with rfl | ⟨hfit, rfl | hlater⟩
      · exact place_eq_none_of_lt (by omega) hp (by omega)
      · rw [place, if_neg hfit, place_eq_none_of_lt (by omega) hp.2.2 (by have := hp.2.1; omega)]
        rfl
      · rw [place, if_neg hfit, ScanAt.give_up hsize hp.2.2 hlater hptr]
        rfl

/-! ## The search -/

/-- `cur` is the start of a gap or an extent, or the end, and there is no gap before it. -/
def GapAt : Nat → List Extent → Nat → Prop
  | lo, [],      cur => cur = lo
  | lo, e :: es, cur => cur = lo ∨ (lo = e.start ∧ GapAt e.stop es cur)

theorem GapAt.start : GapAt lo es lo := by
  cases es with
  | nil => exact rfl
  | cons e es => exact .inl rfl

/-- A used block that is not above the lowest gap. -/
theorem gapAt_of_le {e : Extent} : ∀ {es : List Extent} {lo : Nat}, Packed m hi lo es → 0 < m → e ∈ es →
    e.start ≤ firstGap lo es → GapAt lo es e.start
  | x :: es, lo, hp, hm, he, hle => by
      have hlo := hp.1.le
      have hwide := hp.2.1
      unfold firstGap at hle
      rcases List.mem_cons.mp he with rfl | he
      · split at hle
        · omega
        · exact .inl (by omega)
      · have := (hp.2.2.bounds e he).1
        split at hle
        · omega
        · exact .inr ⟨by omega, gapAt_of_le hp.2.2 hm he hle⟩

/-- **One round of the search**: it is at the lowest gap, or moves on. -/
theorem GapAt.round : ∀ {es : List Extent} {p lo cur : Nat}, Packed m hi lo es → 0 < m → Linked hi ram p lo es →
    (ram hi).used = true → GapAt lo es cur →
    (((ram cur).used = true ∧ cur ≠ hi) ∧ cur ≠ firstGap lo es ∧ GapAt lo es (ram cur).next) ∨
      (¬((ram cur).used = true ∧ cur ≠ hi) ∧ cur = firstGap lo es)
  | [], p, lo, _, hp, hm, hl, hend, rfl => by
      refine .inr ⟨?_, rfl⟩
      rintro ⟨hused, hne⟩
      have hle := hp.le
      rw [hl (by omega)] at hused
      cases hused
  | e :: es, p, lo, cur, hp, hm, hl, hend, hat => by
      obtain ⟨hgap, hwide, hrest⟩ := hp
      have hle := hgap.le
      have hhi := hrest.le
      have hlow := (firstGap_bounds hrest).1
      unfold firstGap
      rcases hat with rfl | ⟨rfl, hlater⟩
      · by_cases hlt : cur < e.start
        · rw [if_pos hlt, hl.1 hlt]
          exact .inr ⟨by simp, rfl⟩
        · obtain rfl := Nat.le_antisymm hle (Nat.le_of_not_lt hlt)
          rw [hl.2.1]
          exact .inl ⟨⟨rfl, by omega⟩, by rw [if_neg hlt]; omega, .inr ⟨rfl, .start⟩⟩
      · rw [if_neg (Nat.lt_irrefl _)]
        rcases GapAt.round hrest hm hl.2.2 hend hlater with ⟨hused, hne, hnext⟩ | hdone
        · exact .inl ⟨hused, hne, .inr ⟨rfl, hnext⟩⟩
        · exact .inr hdone

/-! ## The invariant -/

/-- The block that `mem_malloc` has taken and not returned yet. -/
def MallocThread.pending (cfg : MemConfig) : MallocThread → Live
  | .adjusting size mem _ => [(mem + cfg.sizeofStructMem, roundSize cfg size)]
  | _                     => []

/-- What holds at the position of `mem_malloc` if nothing was freed since it opened its protection. -/
def MallocThread.At (cfg : MemConfig) (used : List Extent) (lfree : Nat) : MallocThread → Prop
  | .returned _             => True
  | .scanning size ptr      => ScanAt (cfg.sizeofStructMem + roundSize cfg size) cfg.memSizeAligned 0 used ptr
  | .adjusting _ mem cur    => lfree = mem ∧ GapAt 0 used cur ∧ cur ≠ firstGap 0 used

/-- A request that the scan can serve, and a position that it looks at. -/
def MallocThread.Serves (cfg : MemConfig) : MallocThread → Prop
  | .scanning size ptr => cfg.toMemSize size ≠ 0 ∧ roundSize cfg size ≤ cfg.memSizeAligned ∧
                            ptr < cfg.memSizeAligned - roundSize cfg size
  | _                  => True

/-- The heap is the arena's; the arena knows the block that `mem_malloc` has taken, and its clients do not yet. -/
structure SharedInv (cfg : MemConfig) (s : MemShared) (a : Arena) : Prop where
  inv     : ArenaInv cfg a
  headers : Headers cfg s.heap a.used
  live    : a.live = s.thread.pending cfg ++ s.live
  fresh   : ∀ b ∈ s.thread.pending cfg, ¬s.live.Holds b.1
  lfree   : s.heap.lfree = firstGap 0 a.used ∨ ∃ b ∈ s.thread.pending cfg,
              s.heap.lfree + cfg.sizeofStructMem = b.1 ∧ s.heap.lfree ≤ firstGap 0 a.used
  at_pos  : s.memFreeCount = false → s.thread.At cfg a.used s.heap.lfree
  serves  : s.thread.Serves cfg

theorem SharedInv.init (ram : Nat → Mem) : SharedInv cfg (MemShared.init cfg ram) Arena.init where
  inv := ArenaInv.init
  headers := (Represents.init ram).headers
  live := rfl
  fresh := fun _ hb => absurd hb List.not_mem_nil
  lfree := .inl rfl
  at_pos := fun _ => trivial
  serves := trivial

theorem SharedInv.lfree_le (h : SharedInv cfg s a) : s.heap.lfree ≤ firstGap 0 a.used := by
  rcases h.lfree with h | ⟨-, -, -, h⟩
  · exact Nat.le_of_eq h
  · exact h

/-- A heap in which no block is taken is the arena's, with `lfree`. -/
theorem SharedInv.represents (h : SharedInv cfg s a) (hnone : s.thread.pending cfg = []) :
    Represents cfg s.heap a.used := by
  refine h.headers.represents ?_
  rcases h.lfree with h | ⟨b, hb, -⟩
  · exact h
  · rw [hnone] at hb
    exact absurd hb List.not_mem_nil

/-! ## What the clients do -/

theorem Live.holds_append {pending live : Live} {rmem : Nat} :
    Live.Holds (pending ++ live) rmem ↔ pending.Holds rmem ∨ live.Holds rmem := by
  simp [Live.Holds]

/-- What is freed is not the block that is taken. -/
theorem Live.free_append {pending live : Live} {rmem : Nat} (h : ∀ b ∈ pending, b.1 ≠ rmem) :
    Live.free (pending ++ live) rmem = pending ++ live.free rmem := by
  unfold Live.free
  rw [List.filter_append, List.filter_eq_self.mpr fun b hb => by simpa using h b hb]

theorem Live.trim_append {pending live : Live} {rmem size : Nat} {r : Option Nat} (h : ∀ b ∈ pending, b.1 ≠ rmem) :
    Live.trim (pending ++ live) rmem r size = pending ++ live.trim rmem r size := by
  unfold Live.trim
  split
  · have hkept : pending.map (fun b => if b.1 = rmem then (rmem, size) else b) = pending.map id :=
      List.map_congr_left fun b hb => if_neg (h b hb)
    rw [List.map_append, hkept, List.map_id]
  · rfl

theorem Live.holds_trim {live : Live} {rmem size p : Nat} {r : Option Nat} :
    (live.trim rmem r size).Holds p ↔ live.Holds p := by
  unfold Live.trim Live.Holds
  split
  · have hsame : (live.map fun b => if b.1 = rmem then (rmem, size) else b).map Prod.fst = live.map Prod.fst := by
      rw [List.map_map]
      refine List.map_congr_left fun b _ => ?_
      simp only [Function.comp_apply]
      split
      · exact Eq.symm ‹_›
      · rfl
    rw [hsame]
  · rfl

theorem Live.holds_free {live : Live} {rmem p : Nat} (h : (live.free rmem).Holds p) : live.Holds p := by
  obtain ⟨b, hb, rfl⟩ := List.mem_map.mp h
  exact List.mem_map_of_mem (List.mem_of_mem_filter hb)

/-- Cutting nothing off changes nothing. -/
theorem shrink_of_le {keep : Nat} (h : ∀ e ∈ es, e.start = ptr → e.stop ≤ e.start + keep) :
    shrink m keep hi ptr es = es := by
  induction es with
  | nil => rfl
  | cons e es ih =>
      obtain ⟨he, hes⟩ := List.forall_mem_cons.mp h
      unfold shrink
      split
      · next hstart =>
          have := he hstart
          rw [trimAt, if_neg (by omega)]
      · rw [ih hes]

/-- A `mem_trim` that does not get as far as its protection changes nothing. -/
theorem memTrim_quiet {h : Heap} {e : Extent} (hh : Headers cfg h es) (he : e ∈ es) {newsize : Nat}
    (hquiet : memTrimProtects cfg h (e.start + cfg.sizeofStructMem) newsize = false) :
    (memTrim cfg h (e.start + cfg.sizeofStructMem) newsize).1 = h ∧ (trimExtents cfg es e newsize).1 = es := by
  obtain ⟨q, hmem⟩ := hh.linked.header he
  obtain ⟨-, hwide, hhi⟩ := hh.packed.bounds e he
  have hmin := cfg.minSizeAligned_pos
  unfold MemConfig.minBlock at hwide
  have hsize := trimSize_eq hmem (by omega) hhi
  unfold memTrimProtects at hquiet
  dsimp only at hquiet
  rw [Nat.add_sub_cancel, hsize] at hquiet
  have hle : e.stop ≤ e.start + (cfg.sizeofStructMem + roundSize cfg newsize) := by
    by_contra hlt
    simp only [Bool.and_eq_false_iff, decide_eq_false_iff_not] at hquiet
    omega
  constructor
  · by_cases hgrow : e.stop < e.start + cfg.sizeofStructMem + roundSize cfg newsize
    · rw [memTrim_grow hmem (by omega) hhi hgrow]
    · unfold memTrim
      dsimp only
      rw [Nat.add_sub_cancel, hsize, if_neg (by omega), if_neg (by omega), if_neg (by omega), if_pos (by omega)]
  · unfold trimExtents
    split
    · rfl
    · refine shrink_of_le fun e' he' hstart => ?_
      obtain rfl := hh.packed.eq_of_start cfg.minBlock_pos he' he hstart
      exact hle

/-- **What a client does in an opening** the arena does too, and inside the blocks that stay only a client writes. -/
theorem SharedInv.other {act : MemAct} (h : SharedInv cfg s a) (hs : s.other cfg act = some s') :
    s'.thread = s.thread ∧ ∃ a', arenaStep cfg a act = some a' ∧ SharedInv cfg s' a' ∧
      ∀ x, (∀ rmem m, act ≠ .store rmem x m) → Inside a.used x → Inside a'.used x →
        s'.heap.ram x = s.heap.ram x := by
  -- a block the clients hold is the arena's, and not the one that is taken
  have hholds : ∀ {p}, s.live.Holds p → a.live.Holds p := fun hp => by
    rw [h.live]
    exact Live.holds_append.mpr (.inr hp)
  have hne : ∀ {p}, s.live.Holds p → ∀ b ∈ s.thread.pending cfg, b.1 ≠ p := fun hp b hb heq => h.fresh b hb (heq ▸ hp)
  cases act with
  | malloc size => cases hs
  | free rmem =>
      simp only [MemShared.other, memStep] at hs
      split at hs
      swap
      · cases hs
      next hheld =>
      obtain rfl := Option.some.inj hs
      have hinv := h.inv.free (hholds hheld)
      obtain ⟨e, he, rfl⟩ := (h.inv.starts rmem).mp (hholds hheld)
      rw [Nat.add_sub_cancel] at hinv
      obtain ⟨hheaders, hlfree, hdata⟩ := h.headers.memFree h.lfree_le ⟨e, he, rfl⟩
      have hgap := firstGap_release cfg.minBlock_pos h.headers.packed ⟨e, he, rfl⟩
      refine ⟨rfl, _, ?_, ⟨hinv, hheaders, ?_, fun b hb hp => h.fresh b hb (Live.holds_free hp), ?_, ?_, h.serves⟩,
        fun x _ _ hx => hdata.inside hx⟩
      · rw [arenaStep, if_pos (hholds hheld), Nat.add_sub_cancel]
      · dsimp only
        rw [h.live, Live.free_append (hne hheld)]
      · dsimp only
        rw [hlfree, hgap]
        rcases h.lfree with hl | ⟨b, hb, hp, hl⟩
        · exact .inl (by rw [hl])
        · have := hne hheld b hb
          by_cases hlow : e.start < s.heap.lfree
          · exact .inl (by omega)
          · exact .inr ⟨b, hb, by omega, by omega⟩
      · exact fun hcount => absurd hcount (by simp)
  | trim rmem newsize =>
      simp only [MemShared.other, memStep] at hs
      split at hs
      swap
      · cases hs
      next hheld =>
      obtain rfl := Option.some.inj hs
      obtain ⟨e, he, rfl⟩ := (h.inv.starts rmem).mp (hholds hheld)
      have hinv := h.inv.trim he newsize
      -- `lfree` is not inside the block: it is a gap, or the block that is taken
      have hlf : s.heap.lfree ≤ e.start ∨ e.stop ≤ s.heap.lfree := by
        rcases h.lfree with hl | ⟨b, hb, hp, -⟩
        · exact hl ▸ firstGap_outside h.headers.packed he
        · have hheldb : a.live.Holds b.1 := by
            rw [h.live]
            exact Live.holds_append.mpr (.inl (List.mem_map_of_mem hb))
          obtain ⟨e', he', hp'⟩ := (h.inv.starts b.1).mp hheldb
          have hne' : e ≠ e' := by
            rintro rfl
            exact hne hheld b hb hp'.symm
          have hwide := (h.headers.packed.bounds e' he').2.1
          rcases h.headers.packed.disjoint he he' hne' with hd | hd <;> omega
      obtain ⟨hheaders, hlower, hptr, hdata⟩ := h.headers.memTrim h.lfree_le hlf he newsize
      refine ⟨rfl, _, ?_, ⟨hinv, hheaders, ?_, fun b hb hp => h.fresh b hb (Live.holds_trim.mp hp), ?_, ?_, h.serves⟩,
        fun x _ _ hx => hdata.inside hx⟩
      · rw [arenaStep, (Arena.extent_eq_some h.inv).mpr he]
        dsimp only
        rw [if_pos (hholds hheld)]
      · dsimp only
        rw [h.live, hptr, Live.trim_append (hne hheld)]
      · dsimp only
        rcases hlower with ⟨hl, hg⟩ | ⟨c, hc, hl, hg⟩
        · dsimp only at hl hg
          rw [hl, hg]
          exact h.lfree
        · dsimp only at hl hg
          rw [hl, hg]
          rcases h.lfree with hl | ⟨b, hb, hp, hl⟩
          · exact .inl (by rw [hl])
          · by_cases hlow : c < s.heap.lfree
            · exact .inl (by omega)
            · exact .inr ⟨b, hb, by omega, by omega⟩
      · dsimp only
        intro hcount
        obtain ⟨hcount, hquiet⟩ := Bool.or_eq_false_iff.mp hcount
        obtain ⟨hheap, hused⟩ := memTrim_quiet h.headers he hquiet
        rw [hheap, hused]
        exact h.at_pos hcount
  | store rmem x m =>
      simp only [MemShared.other, memStep] at hs
      split at hs
      swap
      · cases hs
      next hguard =>
      obtain rfl := Option.some.inj hs
      obtain ⟨b, hb, rfl, hx⟩ := hguard
      have hb' : b ∈ a.live := h.live ▸ List.mem_append_right _ hb
      obtain ⟨e, he, hlo, hhi⟩ := h.inv.store hb' hx
      have hother : ∀ y, y ≠ x → Function.update s.heap.ram x m y = s.heap.ram y :=
        fun y hy => Function.update_of_ne hy _ _
      have hend : cfg.memSizeAligned ≠ x := by
        have := (h.headers.packed.bounds e he).2.2
        omega
      refine ⟨rfl, a, if_pos ⟨b, hb', rfl, hx⟩,
        ⟨h.inv, ⟨h.headers.packed, ?_, ?_⟩, h.live, h.fresh, h.lfree, ?_, h.serves⟩,
        fun y hact _ _ => hother y fun hyx => hact b.1 m (hyx ▸ rfl)⟩
      · refine h.headers.linked.store h.headers.packed fun y hy _ => hother y ?_
        rintro rfl
        have := hy e he
        omega
      · dsimp only
        rw [hother _ hend]
        exact h.headers.ramEnd
      · dsimp only
        rw [Bool.or_false]
        exact h.at_pos

/-! ## What `mem_malloc` does between two openings -/

/-- What `mem_malloc` is asked for, as long as it has not decided. -/
def MallocThread.undecided : MallocThread → Option Nat
  | .scanning size _ => some size
  | _                => none

/-- **The head of the scan**: it opens the protection again, or gives up at a moment when nothing fits. -/
theorem SharedInv.scan (hinv : ArenaInv cfg a) (hrep : Represents cfg s.heap a.used) (hlive : a.live = s.live)
    (hzero : cfg.toMemSize size ≠ 0) (hsize : roundSize cfg size ≤ cfg.memSizeAligned)
    (hscan : ScanAt (cfg.sizeofStructMem + roundSize cfg size) cfg.memSizeAligned 0 a.used ptr) :
    SharedInv cfg (s.scan cfg size ptr) a ∧
    ((s.scan cfg size ptr).thread.undecided = some size ∨
      (s.scan cfg size ptr).thread = .returned none ∧ arenaStep cfg a (.malloc size) = some a) := by
  unfold MemShared.scan
  split
  · next hptr =>
      exact ⟨⟨hinv, hrep.headers, hlive, fun _ hb => absurd hb List.not_mem_nil, .inl hrep.lfree, fun _ => hscan,
        hzero, hsize, hptr⟩, .inl rfl⟩
  · next hptr =>
      refine ⟨⟨hinv, hrep.headers, hlive, fun _ hb => absurd hb List.not_mem_nil, .inl hrep.lfree, fun _ => trivial,
        trivial⟩, .inr ⟨rfl, ?_⟩⟩
      rw [arenaStep, mallocExtents, if_neg hzero, hscan.give_up hsize hrep.packed hptr]
      rfl

/-- The state with the block at `mem` taken, wherever the search stands. -/
def MemShared.taken (s : MemShared) (size mem : Nat) : MemShared :=
  { s with memFreeCount := true, thread := .adjusting size mem 0 }

/-- **The head of the search**: it opens the protection again, or `lfree` is at the lowest gap. -/
theorem SharedInv.search {mem : Nat} (h : SharedInv cfg (s.taken size mem) a) (hmem : s.heap.lfree = mem)
    (hat : GapAt 0 a.used cur) :
    SharedInv cfg (s.search cfg size mem cur) a ∧ (s.search cfg size mem cur).thread.undecided = none ∧
      (s.search cfg size mem cur).heap.ram = s.heap.ram := by
  have hround := hat.round h.headers.packed cfg.minBlock_pos h.headers.linked h.headers.ramEnd.2
  unfold MemShared.search
  split
  · next hused =>
      rcases hround with ⟨-, hne, -⟩ | ⟨hno, -⟩
      · exact ⟨⟨h.inv, h.headers, h.live, h.fresh, h.lfree, fun _ => ⟨hmem, hat, hne⟩, trivial⟩, rfl, rfl⟩
      · exact absurd hused hno
  · next hused =>
      rcases hround with ⟨hyes, -⟩ | ⟨-, hgap⟩
      · exact absurd hyes hused
      · refine ⟨⟨h.inv, ⟨h.headers.packed, h.headers.linked, h.headers.ramEnd⟩, h.live,
          fun _ hb => absurd hb List.not_mem_nil, .inl hgap, fun _ => trivial, trivial⟩, rfl, rfl⟩

/-- **`mem_malloc_adjust_lfree`.** -/
theorem SharedInv.adjust {mem : Nat} (h : SharedInv cfg (s.taken size mem) a) :
    SharedInv cfg (s.adjust cfg size mem) a ∧ (s.adjust cfg size mem).thread.undecided = none ∧
      (s.adjust cfg size mem).heap.ram = s.heap.ram := by
  have hheld : a.live.Holds (mem + cfg.sizeofStructMem) := by
    rw [h.live]
    exact Live.holds_append.mpr (.inl (List.mem_singleton_self _))
  obtain ⟨e, he, hstart⟩ := (h.inv.starts _).mp hheld
  obtain rfl : e.start = mem := by omega
  unfold MemShared.adjust
  split
  · next hmem =>
      have hle : e.start ≤ firstGap 0 a.used := hmem ▸ h.lfree_le
      have hat := gapAt_of_le h.headers.packed cfg.minBlock_pos he hle
      rw [← hmem]
      exact h.search hmem.symm hat
  · next hmem =>
      -- a lower block was freed, or the block was not the lowest: `lfree` is right
      refine ⟨⟨h.inv, h.headers, h.live, fun _ hb => absurd hb List.not_mem_nil, .inl ?_, fun _ => trivial, trivial⟩,
        rfl, rfl⟩
      rcases h.lfree with hl | ⟨b, hb, hp, -⟩
      · exact hl
      · rw [List.mem_singleton.mp hb] at hp
        dsimp only [MemShared.taken] at hp
        omega

/-- **Taking the block** is the moment of a `mem_malloc` that is served. -/
theorem SharedInv.take (hinv : ArenaInv cfg a) (hrep : Represents cfg s.heap a.used) (hlive : a.live = s.live)
    (hzero : cfg.toMemSize size ≠ 0)
    (hplace : (place cfg.minBlock (cfg.sizeofStructMem + roundSize cfg size) cfg.memSizeAligned 0 a.used).map Prod.fst =
      some ptr) :
    ∃ a', arenaStep cfg a (.malloc size) = some a' ∧
      SharedInv cfg ({ s with heap := takeBlock cfg s.heap (roundSize cfg size) ptr }.taken size ptr) a' ∧
      ∀ x, Inside a.used x → (takeBlock cfg s.heap (roundSize cfg size) ptr).ram x = s.heap.ram x := by
  obtain ⟨⟨x, used⟩, hfound, rfl⟩ := Option.map_eq_some_iff.mp hplace
  clear hplace
  have hmin : cfg.minSizeAligned ≤ roundSize cfg size := roundSize_min size
  have hpos := cfg.sizeofStructMem_pos
  have hpacked := place_packed (by unfold MemConfig.minBlock; omega) hrep.packed hfound
  obtain ⟨-, -, hlinked, -, hdata, hend⟩ := hrep.linked.takeBlock hmin hrep.packed hfound
  have hinv' := hinv.malloc size
  have hmalloc : mallocExtents cfg a.used size = (used, some (x + cfg.sizeofStructMem)) := by
    rw [mallocExtents, if_neg hzero, hfound]
  rw [hmalloc] at hinv'
  refine ⟨_, rfl, ?_, fun y hy => hdata.inside hy⟩
  rw [hmalloc]
  refine ⟨hinv', ⟨hpacked, hlinked, hend ▸ hrep.ramEnd⟩, ?_, fun b hb hp => ?_, ?_, fun hcount =>
    Bool.noConfusion hcount, trivial⟩
  · exact congrArg (_ :: ·) hlive
  · rw [List.mem_singleton.mp hb] at hp
    have hp : s.live.Holds (x + cfg.sizeofStructMem) := hp
    rw [← hlive] at hp
    obtain ⟨e, he, hstart⟩ := (hinv.starts _).mp hp
    exact place_start_new cfg.minBlock_pos (by omega) hrep.packed hfound he (by omega)
  · dsimp only [MemShared.taken]
    rw [takeBlock_lfree, hrep.lfree]
    by_cases hlow : x = firstGap 0 a.used
    · refine .inr ⟨_, List.mem_singleton_self _, by rw [hlow], ?_⟩
      exact le_firstGap_place (by omega) hpacked hfound
    · exact .inl (firstGap_place (by omega) hrep.packed hfound hlow).symm

/-! ## Runs -/

/-- The moments of the calls: a `mem_malloc` happens when it decides, everything else when it is done. -/
def linearized (cfg : MemConfig) (sa : MemShared × SharedAct) : List MemAct :=
  match sa.2 with
  | .other act => [act]
  | .call size => if (sa.1.call cfg size).thread.undecided = none then [.malloc size] else []
  | .resume    =>
      match sa.1.thread.undecided, sa.1.resume cfg with
      | some size, some s' => if s'.thread.undecided = none then [.malloc size] else []
      | _,         _       => []

/-- What was asked of `mem_malloc`. -/
def SharedAct.called : SharedAct → Option Nat
  | .call size => some size
  | _          => none

/-- What the clients did besides. -/
def SharedAct.besides : SharedAct → Option MemAct
  | .other act => some act
  | _          => none

/-- The size in a call of `mem_malloc`. -/
def MemAct.asked : MemAct → Option Nat
  | .malloc size => some size
  | _            => none

/-- What a step says of the arena: it follows the moments of the step, which are those of the calls and of what the
    clients did, and inside the blocks that stay only a client writes. -/
def Follows (cfg : MemConfig) (s : MemShared) (act : SharedAct) (s' : MemShared) (a : Arena)
    (acts : List MemAct) : Prop :=
  ∃ a', runActions (arenaStep cfg) a acts = some a' ∧ SharedInv cfg s' a' ∧
    s.thread.undecided.toList ++ act.called.toList = acts.filterMap MemAct.asked ++ s'.thread.undecided.toList ∧
    act.besides.toList = acts.filter (fun act => act.asked.isNone) ∧
    ∀ x, (∀ rmem m, act ≠ .other (.store rmem x m)) → Inside a.used x → Inside a'.used x →
      s'.heap.ram x = s.heap.ram x

/-- `mem_malloc` gives up, or goes on scanning. -/
theorem SharedInv.follows_scan {act : SharedAct} (h : SharedInv cfg s' a)
    (hthread : s'.thread.undecided = some size ∨
      s'.thread = .returned none ∧ arenaStep cfg a (.malloc size) = some a)
    (hram : s'.heap.ram = s.heap.ram) (hcalled : s.thread.undecided.toList ++ act.called.toList = [size])
    (hbesides : act.besides = none) :
    Follows cfg s act s' a (if s'.thread.undecided = none then [.malloc size] else []) := by
  rcases hthread with hthread | ⟨hthread, hstep⟩
  · rw [hthread, if_neg (Option.some_ne_none _)]
    exact ⟨a, rfl, h, by rw [hcalled, hthread]; rfl, by rw [hbesides]; rfl, fun x _ _ _ => by rw [hram]⟩
  · have hdone : s'.thread.undecided = none := by rw [hthread]; rfl
    rw [if_pos hdone]
    refine ⟨a, ?_, h, by rw [hcalled, hdone]; rfl, by rw [hbesides]; rfl, fun x _ _ _ => by rw [hram]⟩
    rw [runActions, hstep]
    rfl

theorem MemShared.scan_ram : (s.scan cfg size ptr).heap.ram = s.heap.ram := by
  unfold MemShared.scan
  split <;> rfl

/-- **A call** of `mem_malloc`, up to the first opening. -/
theorem SharedInv.call (h : SharedInv cfg s a) {rmem : Option Nat} (hthread : s.thread = .returned rmem) :
    Follows cfg s (.call size) (s.call cfg size) a
      (if (s.call cfg size).thread.undecided = none then [.malloc size] else []) := by
  have hnone : s.thread.pending cfg = [] := by rw [hthread]; rfl
  have hlive : a.live = s.live := by simpa [hnone] using h.live
  have hrep := h.represents hnone
  have hcalled : s.thread.undecided.toList ++ (SharedAct.call size).called.toList = [size] := by rw [hthread]; rfl
  -- a call that gives up at once
  have hret : arenaStep cfg a (.malloc size) = some a →
      SharedInv cfg (s.ret cfg none size) a ∧ ((s.ret cfg none size).thread.undecided = some size ∨
        (s.ret cfg none size).thread = .returned none ∧ arenaStep cfg a (.malloc size) = some a) := fun hstep =>
    ⟨⟨h.inv, h.headers, hlive, fun _ hb => absurd hb List.not_mem_nil, .inl hrep.lfree, fun _ => trivial, trivial⟩,
      .inr ⟨rfl, hstep⟩⟩
  have hpos := cfg.sizeofStructMem_pos
  by_cases hzero : cfg.toMemSize size = 0
  · obtain ⟨hinv, hdone⟩ := hret (by rw [arenaStep, mallocExtents, if_pos hzero]; rfl)
    have hcall : s.call cfg size = s.ret cfg none size := if_pos hzero
    rw [hcall]
    exact hinv.follows_scan hdone rfl hcalled rfl
  · by_cases hbig : cfg.memSizeAligned < roundSize cfg size
    · have hstep : arenaStep cfg a (.malloc size) = some a := by
        rw [arenaStep, mallocExtents, if_neg hzero, place_eq_none_of_lt (by omega) hrep.packed (by omega)]
        rfl
      obtain ⟨hinv, hdone⟩ := hret hstep
      have hcall : s.call cfg size = s.ret cfg none size := by rw [MemShared.call, if_neg hzero, if_pos hbig]
      rw [hcall]
      exact hinv.follows_scan hdone rfl hcalled rfl
    · have hcall : s.call cfg size = s.scan cfg size s.heap.lfree := by
        rw [MemShared.call, if_neg hzero, if_neg hbig]
      obtain ⟨hinv, hdone⟩ := SharedInv.scan h.inv hrep hlive hzero (Nat.le_of_not_lt hbig)
        (hrep.lfree ▸ scanAt_firstGap (by omega) hrep.packed)
      rw [hcall]
      exact hinv.follows_scan hdone MemShared.scan_ram hcalled rfl

/-- **Going on with the scan.** -/
theorem SharedInv.resume_scanning (h : SharedInv cfg s a) (hthread : s.thread = .scanning size ptr)
    (hs : s.resume cfg = some s') :
    Follows cfg s .resume s' a (if s'.thread.undecided = none then [.malloc size] else []) := by
  have hnone : s.thread.pending cfg = [] := by rw [hthread]; rfl
  have hlive : a.live = s.live := by simpa [hnone] using h.live
  have hrep := h.represents hnone
  have hcalled : s.thread.undecided.toList ++ SharedAct.resume.called.toList = [size] := by rw [hthread]; rfl
  have hpos := cfg.sizeofStructMem_pos
  obtain ⟨hzero, hsize, hptr⟩ : MallocThread.Serves cfg (.scanning size ptr) := hthread ▸ h.serves
  unfold MemShared.resume at hs
  rw [hthread] at hs
  dsimp only at hs
  split at hs
  · -- something was freed: from the start again
    obtain rfl := Option.some.inj hs
    obtain ⟨hinv, hdone⟩ := SharedInv.scan h.inv hrep hlive hzero hsize
      (hrep.lfree ▸ scanAt_firstGap (by omega) hrep.packed)
    exact hinv.follows_scan hdone MemShared.scan_ram hcalled rfl
  · next hcount =>
      have hat : ScanAt (cfg.sizeofStructMem + roundSize cfg size) cfg.memSizeAligned 0 a.used ptr := by
        have := h.at_pos (by simpa using hcount)
        rwa [hthread] at this
      rcases hat.round hrep.packed hrep.linked hptr with ⟨hfits, hplace⟩ | ⟨hno, hnext⟩
      · rw [if_pos hfits] at hs
        obtain rfl := Option.some.inj hs
        obtain ⟨a', hstep, htaken, hdata⟩ := SharedInv.take h.inv hrep hlive hzero hplace
        obtain ⟨hinv, hdone, hram⟩ := htaken.adjust
        rw [← hthread, if_pos hdone]
        refine ⟨a', by rw [runActions, hstep]; rfl, hinv, by rw [hcalled, hdone]; rfl, rfl, fun x _ hx _ => ?_⟩
        rw [hram]
        exact hdata x hx
      · rw [if_neg hno] at hs
        obtain rfl := Option.some.inj hs
        obtain ⟨hinv, hdone⟩ := SharedInv.scan h.inv hrep hlive hzero hsize hnext
        exact hinv.follows_scan hdone MemShared.scan_ram hcalled rfl

/-- **Going on with the search.** -/
theorem SharedInv.resume_adjusting {mem : Nat} (h : SharedInv cfg s a) (hthread : s.thread = .adjusting size mem cur)
    (hs : s.resume cfg = some s') : Follows cfg s .resume s' a [] := by
  have htaken : SharedInv cfg (s.taken size mem) a := by
    obtain ⟨hinv, hheaders, hlive, hfresh, hlfree, -, -⟩ := h
    rw [hthread] at hlive hfresh hlfree
    exact ⟨hinv, hheaders, hlive, hfresh, hlfree, fun hcount => Bool.noConfusion hcount, trivial⟩
  have hdone : ∀ {t : MemShared}, SharedInv cfg t a → t.thread.undecided = none → t.heap.ram = s.heap.ram →
      Follows cfg s .resume t a [] := fun hinv hdone hram =>
    ⟨a, rfl, hinv, by rw [hthread, hdone]; rfl, rfl, fun x _ _ _ => by rw [hram]⟩
  unfold MemShared.resume at hs
  rw [hthread] at hs
  dsimp only at hs
  split at hs
  · obtain rfl := Option.some.inj hs
    obtain ⟨hinv, hnone, hram⟩ := htaken.adjust
    exact hdone hinv hnone hram
  · next hcount =>
      obtain rfl := Option.some.inj hs
      obtain ⟨hmem, hat, hne⟩ : MallocThread.At cfg a.used s.heap.lfree (.adjusting size mem cur) :=
        hthread ▸ h.at_pos (by simpa using hcount)
      rcases hat.round h.headers.packed cfg.minBlock_pos h.headers.linked h.headers.ramEnd.2 with
        ⟨-, -, hnext⟩ | ⟨-, hgap⟩
      · obtain ⟨hinv, hnone, hram⟩ := htaken.search hmem hnext
        exact hdone hinv hnone hram
      · exact absurd hgap hne

/-- **One step** of the shared heap is what `linearized` says of it, for the arena. -/
theorem SharedInv.step (h : SharedInv cfg s a) {act : SharedAct} (hs : sharedStep cfg s act = some s') :
    Follows cfg s act s' a (linearized cfg (s, act)) := by
  cases act with
  | call size =>
      simp only [sharedStep] at hs
      split at hs
      · obtain rfl := Option.some.inj hs
        exact h.call ‹_›
      · cases hs
  | resume =>
      have hs : s.resume cfg = some s' := hs
      simp only [linearized, hs]
      cases hthread : s.thread with
      | returned rmem =>
          rw [MemShared.resume, hthread] at hs
          cases hs
      | scanning size ptr => exact h.resume_scanning hthread hs
      | adjusting size mem cur => exact h.resume_adjusting hthread hs
  | other act =>
      obtain ⟨hthread, a', ha', hrel, hkept⟩ := h.other hs
      have hasked : act.asked = none := by
        cases act with
        | malloc size => cases hs
        | free rmem => rfl
        | trim rmem newsize => rfl
        | store rmem x m => rfl
      refine ⟨a', by simp [linearized, runActions, ha'], hrel, ?_, ?_, fun x hact => hkept x fun rmem m hx =>
        hact rmem m (hx ▸ rfl)⟩
      · simp [linearized, hasked, hthread, SharedAct.called]
      · simp [linearized, hasked, SharedAct.besides]

/-- **`mem_malloc` is atomic**: in every run, in whatever openings blocks are freed and trimmed, first fit over the
    gaps follows the moments of the calls. They are the calls of `mem_malloc` in order, but for one that has not
    decided, and what the clients did, in order. When `mem_malloc` has returned, the clients hold what the arena handed
    out, and the headers and `lfree` are those of its extents. -/
theorem shared_linearizes {ram : Nat → Mem} {tr : List (MemShared × SharedAct)}
    (h : Run (sharedStep cfg) (MemShared.init cfg ram) tr s) :
    ∃ a, runActions (arenaStep cfg) Arena.init (tr.flatMap (linearized cfg)) = some a ∧
      tr.filterMap (fun sa => sa.2.called) =
        (tr.flatMap (linearized cfg)).filterMap MemAct.asked ++ s.thread.undecided.toList ∧
      tr.filterMap (fun sa => sa.2.besides) = (tr.flatMap (linearized cfg)).filter (fun act => act.asked.isNone) ∧
      ∀ rmem, s.thread = .returned rmem → s.live = a.live ∧ Represents cfg s.heap a.used := by
  have main : ∃ a, runActions (arenaStep cfg) Arena.init (tr.flatMap (linearized cfg)) = some a ∧
      SharedInv cfg s a ∧
      tr.filterMap (fun sa => sa.2.called) =
        (tr.flatMap (linearized cfg)).filterMap MemAct.asked ++ s.thread.undecided.toList ∧
      tr.filterMap (fun sa => sa.2.besides) = (tr.flatMap (linearized cfg)).filter (fun act => act.asked.isNone) := by
    induction h with
    | nil => exact ⟨Arena.init, rfl, SharedInv.init ram, rfl, rfl⟩
    | @snoc tr s s' act hr hs ih =>
        obtain ⟨a, hrun, hinv, hcalled, hbesides⟩ := ih
        obtain ⟨a', hrun', hinv', hcalled', hbesides', -⟩ := hinv.step hs
        refine ⟨a', ?_, hinv', ?_, ?_⟩
        · rw [List.flatMap_append, runActions_append, hrun, Option.bind_some]
          simpa using hrun'
        · rw [List.filterMap_append, List.flatMap_append, List.filterMap_append, hcalled, List.append_assoc]
          simp only [List.flatMap_cons, List.flatMap_nil, List.append_nil]
          rw [List.append_assoc, ← hcalled']
          cases act <;> rfl
        · rw [List.filterMap_append, List.flatMap_append, List.filter_append, hbesides]
          simp only [List.flatMap_cons, List.flatMap_nil, List.append_nil]
          rw [← hbesides']
          cases act <;> rfl
  obtain ⟨a, hrun, hinv, hcalled, hbesides⟩ := main
  refine ⟨a, hrun, hcalled, hbesides, fun rmem hthread => ?_⟩
  have hnone : s.thread.pending cfg = [] := by rw [hthread]; rfl
  exact ⟨by simpa [hnone] using hinv.live.symm, hinv.represents hnone⟩

/-- The first block is freed while `mem_malloc` looks for the next free block behind the second. -/
theorem shared_linearizes_disturbed : ∃ s tr,
    Run (sharedStep wordHeap) (MemShared.init wordHeap fun _ => ⟨7, 7, true⟩) tr s ∧ s.live = [(28, 20)] ∧
    ∃ a, runActions (arenaStep wordHeap) Arena.init (tr.flatMap (linearized wordHeap)) = some a ∧ s.live = a.live := by
  have hsome : (runActions (sharedStep wordHeap) (MemShared.init wordHeap fun _ => ⟨7, 7, true⟩)
      [.call 10, .resume, .resume, .call 20, .resume, .other (.free 8), .resume]).map (fun s => (s.live, s.thread)) =
        some ([(28, 20)], .returned (some 28)) := by decide +kernel
  obtain ⟨s, hs, heq⟩ := Option.map_eq_some_iff.mp hsome
  obtain ⟨hlive, hthread⟩ := Prod.mk.inj heq
  obtain ⟨tr, hrun, -⟩ := Run.of_runActions hs
  obtain ⟨a, hacts, -, -, hreturned⟩ := shared_linearizes hrun
  exact ⟨s, tr, hrun, hlive, a, hacts, (hreturned _ hthread).1⟩

end ThirdParty.Lwip
