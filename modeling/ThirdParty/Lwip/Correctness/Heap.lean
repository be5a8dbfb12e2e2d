import Mathlib.Data.Nat.Bitwise
import ThirdParty.Lib.FirstFit
import ThirdParty.Lwip.Mem

/-!
# `Lwip.Correctness.Heap` — the headers of the heap are the gaps between what is in use

`Represents cfg h es` says that the headers of `h` are those of a heap whose used blocks are the extents `es`: one
header for each extent and one for each gap, linked both ways, with `lfree` at the lowest gap. No two free blocks are
neighbours, since the bytes between two extents are one gap. Each function of `mem.c` keeps it and does to the
extents what `Lib.FirstFit` says: `mem_malloc` places, `mem_free` releases and `mem_trim` shrinks.
-/

namespace ThirdParty.Lwip

open Lib

/-! ## Alignment -/

theorem andNot_pred_two_pow (x k : Nat) : andNot x (2 ^ k - 1) = x - x % 2 ^ k := by
  rw [andNot, Nat.and_two_pow_sub_one_eq_mod]

theorem lwipMemAlignSize_spec {align : Nat} (h : ∃ k, align = 2 ^ k) (size : Nat) :
    size ≤ lwipMemAlignSize align size ∧ lwipMemAlignSize align size < size + align ∧
      align ∣ lwipMemAlignSize align size := by
  obtain ⟨k, rfl⟩ := h
  have hpos : 0 < 2 ^ k := Nat.two_pow_pos k
  have hmod := Nat.mod_lt (size + 2 ^ k - 1) hpos
  have hle := Nat.mod_le (size + 2 ^ k - 1) (2 ^ k)
  rw [lwipMemAlignSize, andNot_pred_two_pow]
  exact ⟨by omega, by omega, Nat.dvd_sub_mod _⟩

namespace MemConfig

variable (cfg : MemConfig)

/-- The least a block takes: its header and the bytes of the smallest request. -/
def minBlock : Nat := cfg.sizeofStructMem + cfg.minSizeAligned

theorem sizeofStructMem_pos : 0 < cfg.sizeofStructMem :=
  Nat.lt_of_lt_of_le cfg.struct (lwipMemAlignSize_spec cfg.aligned _).1

theorem minSizeAligned_pos : 0 < cfg.minSizeAligned :=
  Nat.lt_of_lt_of_le cfg.min_pos (lwipMemAlignSize_spec cfg.aligned _).1

theorem minBlock_pos : 0 < cfg.minBlock := Nat.lt_of_lt_of_le cfg.sizeofStructMem_pos (Nat.le_add_right _ _)

theorem memSizeBits_le : cfg.memSizeBits ≤ 32 := by
  unfold MemOpts.memSizeBits
  split <;> omega

theorem memSizeAligned_lt : cfg.memSizeAligned < 2 ^ 32 :=
  Nat.lt_of_lt_of_le cfg.fits (Nat.pow_le_pow_right (by decide) cfg.memSizeBits_le)

/-- An offset in the heap is a `mem_size_t`. -/
theorem toMemSize_of_le {n : Nat} (h : n ≤ cfg.memSizeAligned) : cfg.toMemSize n = n :=
  Nat.mod_eq_of_lt (Nat.lt_of_le_of_lt h cfg.fits)

end MemConfig

theorem sizeSub_of_le {a b : Nat} (hab : b ≤ a) (ha : a < 2 ^ 32) : sizeSub a b = a - b := by
  rw [sizeSub, Nat.sub_add_comm hab, Nat.add_mod_right, Nat.mod_eq_of_lt (by omega)]

/-! ## Headers -/

namespace Heap

variable (h : Heap) (mem x next prev : Nat) (used : Bool)

@[simp] theorem setNext_lfree : (h.setNext mem next).lfree = h.lfree := rfl
@[simp] theorem setPrev_lfree : (h.setPrev mem prev).lfree = h.lfree := rfl
@[simp] theorem setUsed_lfree : (h.setUsed mem used).lfree = h.lfree := rfl

theorem setNext_ram : (h.setNext mem next).ram x = if x = mem then { h.ram mem with next := next } else h.ram x :=
  Function.update_apply _ _ _ _

theorem setPrev_ram : (h.setPrev mem prev).ram x = if x = mem then { h.ram mem with prev := prev } else h.ram x :=
  Function.update_apply _ _ _ _

theorem setUsed_ram : (h.setUsed mem used).ram x = if x = mem then { h.ram mem with used := used } else h.ram x :=
  Function.update_apply _ _ _ _

end Heap

/-- The headers from `lo` on, with `p` the block before: those of the used extents `es` and of the gaps between
    them, up to `hi`. -/
def Linked (hi : Nat) (ram : Nat → Mem) : Nat → Nat → List Extent → Prop
  | p, lo, []      => lo < hi → ram lo = ⟨hi, p, false⟩
  | p, lo, e :: es =>
      (lo < e.start → ram lo = ⟨e.start, p, false⟩) ∧
      ram e.start = ⟨e.stop, if lo < e.start then lo else p, true⟩ ∧ Linked hi ram e.start e.stop es

/-- The heap whose used blocks are the extents `es`. -/
structure Represents (cfg : MemConfig) (h : Heap) (es : List Extent) : Prop where
  packed : Packed cfg.minBlock cfg.memSizeAligned 0 es
  linked : Linked cfg.memSizeAligned h.ram 0 0 es
  ramEnd : (h.ram cfg.memSizeAligned).next = cfg.memSizeAligned ∧ (h.ram cfg.memSizeAligned).used = true
  lfree  : h.lfree = firstGap 0 es

/-- The same, but for `lfree`. -/
structure Headers (cfg : MemConfig) (h : Heap) (es : List Extent) : Prop where
  packed : Packed cfg.minBlock cfg.memSizeAligned 0 es
  linked : Linked cfg.memSizeAligned h.ram 0 0 es
  ramEnd : (h.ram cfg.memSizeAligned).next = cfg.memSizeAligned ∧ (h.ram cfg.memSizeAligned).used = true

/-- What lies inside the extents is as it was. -/
def DataKept (es : List Extent) (ram ram' : Nat → Mem) : Prop :=
  ∀ e ∈ es, ∀ x, e.start < x → x < e.stop → ram' x = ram x

variable {cfg : MemConfig} {h h' : Heap} {ram ram' : Nat → Mem} {m need hi lo p a size : Nat} {es es' : List Extent}

theorem Represents.headers (hr : Represents cfg h es) : Headers cfg h es := ⟨hr.packed, hr.linked, hr.ramEnd⟩

theorem Headers.represents (hh : Headers cfg h es) (hlfree : h.lfree = firstGap 0 es) : Represents cfg h es :=
  ⟨hh.packed, hh.linked, hh.ramEnd, hlfree⟩

/-- The list depends on the headers from `lo` to before `hi`. -/
theorem Linked.congr (hm : 0 < m) : ∀ {p lo : Nat} {es : List Extent}, Packed m hi lo es → Linked hi ram p lo es →
    (∀ x, lo ≤ x → x < hi → ram' x = ram x) → Linked hi ram' p lo es
  | p, lo, [],      _, h, hsame => fun hlt => (hsame lo (Nat.le_refl _) hlt).trans (h hlt)
  | p, lo, e :: es, hp, h, hsame => by
      obtain ⟨hgap, hwide, hrest⟩ := hp
      have hlo := hgap.le
      have hhi := hrest.le
      refine ⟨fun hlt => ?_, ?_, ?_⟩
      · rw [hsame lo (Nat.le_refl _) (by omega), h.1 hlt]
      · rw [hsame e.start hlo (by omega), h.2.1]
      · exact h.2.2.congr hm hrest fun x hx hlt => hsame x (by omega) hlt

/-- The block before the first one matters only where a gap or an extent starts at `lo`. -/
theorem Linked.prev (hm : 0 < m) (hp : Packed m hi lo es) (h : Linked hi ram p lo es) (hlo : lo < hi)
    (hprev : ram' lo = { ram lo with prev := a }) (hsame : ∀ x, lo < x → x < hi → ram' x = ram x) :
    Linked hi ram' a lo es := by
  cases es with
  | nil => exact fun hlt => by rw [hprev, h hlt]
  | cons e es =>
      obtain ⟨hgap, hwide, hrest⟩ := hp
      have hle := hgap.le
      have hhi := hrest.le
      have hafter : Linked hi ram' e.start e.stop es :=
        h.2.2.congr hm hrest fun x hx hlt => hsame x (by omega) hlt
      by_cases hlt : lo < e.start
      · refine ⟨fun _ => by rw [hprev, h.1 hlt], ?_, hafter⟩
        rw [hsame e.start hlt (by omega), h.2.1, if_pos hlt, if_pos hlt]
      · obtain rfl : lo = e.start := by omega
        refine ⟨fun hlt => absurd hlt (Nat.lt_irrefl _), ?_, hafter⟩
        rw [hprev, h.2.1, if_neg hlt, if_neg hlt]

/-- The header of an extent. -/
theorem Linked.header {e : Extent} : ∀ {es : List Extent} {p lo : Nat}, Linked hi ram p lo es → e ∈ es →
    ∃ q, ram e.start = ⟨e.stop, q, true⟩
  | _ :: _, _, _, ⟨_, hused, hrest⟩, he => by
      rcases List.mem_cons.mp he with rfl | he
      · exact ⟨_, hused⟩
      · exact hrest.header he

theorem Represents.init (ram : Nat → Mem) : Represents cfg (memInit cfg ram) [] where
  packed := .inr (by have := cfg.holds; unfold MemConfig.minBlock; omega)
  linked := fun hlt => by
    change Function.update _ _ _ 0 = _
    rw [Function.update_of_ne (Nat.ne_of_lt hlt), Function.update_self]
  ramEnd := by
    have hend : (memInit cfg ram).ram cfg.memSizeAligned = ⟨cfg.memSizeAligned, cfg.memSizeAligned, true⟩ :=
      Function.update_self _ _ _
    rw [hend]
    exact ⟨rfl, rfl⟩
  lfree := rfl

/-! ## `mem_malloc` -/

/-- There is no room above the end. -/
theorem place_eq_none_of_lt (hneed : 0 < need) (hp : Packed m hi lo es) (h : hi < lo + need) :
    place m need hi lo es = none := by
  rw [place_eq_none_iff hneed hp]
  rintro a ⟨hlo, hhi, -⟩
  omega

theorem scanFree_of_le (fuel : Nat) {ptr : Nat} (h : cfg.memSizeAligned - size ≤ ptr) :
    scanFree cfg ram size fuel ptr = none := by
  cases fuel with
  | zero => rfl
  | succ fuel => exact if_neg (by omega)

/-- The scan goes over a used block. -/
theorem scanFree_used {fuel ptr : Nat} (hused : (ram ptr).used = true) (hlt : ptr < cfg.memSizeAligned - size) :
    scanFree cfg ram size (fuel + 1) ptr = scanFree cfg ram size fuel (ram ptr).next := by
  rw [scanFree, if_pos hlt, if_neg (by simp [hused])]

/-- The scan at a gap: it is taken if the request fits. -/
theorem scanFree_gap {fuel b : Nat} (hgap : ram lo = ⟨b, p, false⟩) (hm : lo + cfg.minBlock ≤ b)
    (hb : b ≤ cfg.memSizeAligned) (hsize : size ≤ cfg.memSizeAligned) :
    scanFree cfg ram size (fuel + 1) lo =
      if lo + (cfg.sizeofStructMem + size) ≤ b then some lo else scanFree cfg ram size fuel b := by
  have hpos := cfg.sizeofStructMem_pos
  have hlt := cfg.memSizeAligned_lt
  have huser : userSize cfg ram lo = b - (lo + cfg.sizeofStructMem) := by
    unfold MemConfig.minBlock at hm
    rw [userSize, hgap]
    exact sizeSub_of_le (show _ ≤ b by omega) (show b < _ by omega)
  unfold MemConfig.minBlock at hm
  by_cases hfit : lo + (cfg.sizeofStructMem + size) ≤ b
  · rw [if_pos hfit, scanFree, if_pos (by omega), if_pos ⟨by rw [hgap], by omega⟩]
  · rw [if_neg hfit]
    by_cases hscan : lo < cfg.memSizeAligned - size
    · rw [scanFree, if_pos hscan, if_neg (by omega), hgap]
    · rw [scanFree_of_le _ (by omega), scanFree_of_le _ (by omega)]

/-- **The scan finds the lowest gap that is large enough.** -/
theorem scanFree_eq (hsize : size ≤ cfg.memSizeAligned) : ∀ {es : List Extent} {p lo fuel : Nat},
    Packed cfg.minBlock cfg.memSizeAligned lo es → Linked cfg.memSizeAligned ram p lo es →
    (ram cfg.memSizeAligned).used = true → cfg.memSizeAligned < lo + fuel →
    scanFree cfg ram size fuel lo =
      (place cfg.minBlock (cfg.sizeofStructMem + size) cfg.memSizeAligned lo es).map Prod.fst
  | [], p, lo, fuel, hp, hl, hend, hfuel => by
      have hpos := cfg.sizeofStructMem_pos
      rcases hp with rfl | hwide
      · rw [scanFree_of_le _ (by omega), place, if_neg (by omega)]
        rfl
      · obtain ⟨fuel, rfl⟩ : ∃ n, fuel = n + 1 := ⟨fuel - 1, by omega⟩
        have hm := cfg.minBlock_pos
        rw [scanFree_gap (hl (by omega)) hwide (Nat.le_refl _) hsize, place]
        split
        · rfl
        · rw [scanFree_of_le _ (by omega)]
          rfl
  | e :: es, p, lo, fuel, hp, hl, hend, hfuel => by
      have hpos := cfg.sizeofStructMem_pos
      have hm := cfg.minBlock_pos
      have hle := hp.le
      obtain ⟨hgap, hwide, hrest⟩ := hp
      obtain ⟨hlgap, hlused, hlrest⟩ := hl
      have hhi := hrest.le
      -- what the scan does from the header of the extent on
      have hused : ∀ fuel, cfg.memSizeAligned < e.start + fuel → scanFree cfg ram size fuel e.start =
          (place cfg.minBlock (cfg.sizeofStructMem + size) cfg.memSizeAligned e.stop es).map Prod.fst := by
        intro fuel hfuel
        by_cases hscan : e.start < cfg.memSizeAligned - size
        · obtain ⟨fuel, rfl⟩ : ∃ n, fuel = n + 1 := ⟨fuel - 1, by omega⟩
          rw [scanFree_used (by rw [hlused]) hscan, hlused]
          exact scanFree_eq hsize hrest hlrest hend (show _ < e.stop + fuel by omega)
        · rw [scanFree_of_le _ (by omega), place_eq_none_of_lt (by omega) hrest (by omega)]
          rfl
      rcases hgap with rfl | hgap
      · rw [hused fuel hfuel, place, if_neg (by omega), Option.map_map]
        rfl
      · obtain ⟨fuel, rfl⟩ : ∃ n, fuel = n + 1 := ⟨fuel - 1, by omega⟩
        rw [scanFree_gap (hlgap (by omega)) hgap (by omega) hsize, place]
        split
        · rfl
        · rw [hused fuel (by omega), Option.map_map]
          rfl

/-- `lfree` is where a scan may start: below it nothing fits. -/
theorem scanFree_firstGap (hsize : size ≤ cfg.memSizeAligned) : ∀ {es : List Extent} {p lo : Nat},
    Packed cfg.minBlock cfg.memSizeAligned lo es → Linked cfg.memSizeAligned ram p lo es →
    (ram cfg.memSizeAligned).used = true →
    scanFree cfg ram size (cfg.memSizeAligned + 1) (firstGap lo es) =
      (place cfg.minBlock (cfg.sizeofStructMem + size) cfg.memSizeAligned lo es).map Prod.fst
  | [],      p, lo, hp, hl, hend => scanFree_eq hsize hp hl hend (by omega)
  | e :: es, p, lo, hp, hl, hend => by
      unfold firstGap
      split
      · exact scanFree_eq hsize hp hl hend (by omega)
      · next hlt =>
          have := hp.1.le
          have := cfg.sizeofStructMem_pos
          rw [scanFree_firstGap hsize hp.2.2 hl.2.2 hend, place, if_neg (by omega), Option.map_map]
          rfl

/-- The search for the next free block finds the lowest gap. -/
theorem nextFree_eq : ∀ {es : List Extent} {p lo fuel : Nat}, Packed cfg.minBlock cfg.memSizeAligned lo es →
    Linked cfg.memSizeAligned ram p lo es → cfg.memSizeAligned < lo + fuel →
    nextFree cfg ram fuel lo = firstGap lo es
  | [], p, lo, fuel, hp, hl, hfuel => by
      have hle := hp.le
      obtain ⟨fuel, rfl⟩ : ∃ n, fuel = n + 1 := ⟨fuel - 1, by omega⟩
      rw [nextFree, firstGap, if_neg]
      rintro ⟨hused, hne⟩
      rw [hl (by omega)] at hused
      cases hused
  | e :: es, p, lo, fuel, hp, hl, hfuel => by
      have hm := cfg.minBlock_pos
      obtain ⟨hgap, hwide, hrest⟩ := hp
      have hlo := hgap.le
      have hhi := hrest.le
      obtain ⟨fuel, rfl⟩ : ∃ n, fuel = n + 1 := ⟨fuel - 1, by omega⟩
      rw [nextFree, firstGap]
      by_cases hlt : lo < e.start
      · rw [if_pos hlt, if_neg (by simp [hl.1 hlt])]
      · obtain rfl : lo = e.start := by omega
        rw [if_neg hlt, if_pos ⟨by rw [hl.2.1], by omega⟩, hl.2.1]
        exact nextFree_eq hrest hl.2.2 (show _ < e.stop + fuel by omega)

/-- `lfree` after the lowest gap was taken. -/
theorem nextFree_place : ∀ {es es' : List Extent} {p lo : Nat}, Packed cfg.minBlock cfg.memSizeAligned lo es' →
    Linked cfg.memSizeAligned ram p lo es' → 0 < need →
    place m need cfg.memSizeAligned lo es = some (firstGap lo es, es') →
    nextFree cfg ram (cfg.memSizeAligned + 1) (firstGap lo es) = firstGap lo es'
  | [],      es', p, lo, hp, hl, _, _ => nextFree_eq hp hl (by omega)
  | e :: es, es', p, lo, hp, hl, hneed, hplace => by
      by_cases hlt : lo < e.start
      · rw [firstGap, if_pos hlt]
        exact nextFree_eq hp hl (by omega)
      · rw [firstGap, if_neg hlt] at hplace ⊢
        rw [place, if_neg (by omega)] at hplace
        obtain ⟨⟨a, es''⟩, hrest, hr⟩ := Option.map_eq_some_iff.mp hplace
        obtain ⟨ha, rfl⟩ := Prod.mk.inj hr
        dsimp only at ha
        rw [firstGap, if_neg hlt]
        exact nextFree_place hp.2.2 hl.2.2 hneed (ha ▸ hrest)

/-- The lowest gap stays the lowest if another one is taken. -/
theorem firstGap_place (hneed : 0 < need) : ∀ {es es' : List Extent} {lo a : Nat}, Packed m hi lo es →
    place m need hi lo es = some (a, es') → a ≠ firstGap lo es → firstGap lo es' = firstGap lo es
  | [], es', lo, a, _, hp, ha => by
      unfold place at hp
      split at hp
      · obtain ⟨rfl, -⟩ := Prod.mk.inj (Option.some.inj hp)
        exact absurd rfl ha
      · cases hp
  | e :: es, es', lo, a, hpacked, hp, ha => by
      have hle := hpacked.1.le
      unfold place at hp
      split at hp
      · next hfit =>
          obtain ⟨rfl, -⟩ := Prod.mk.inj (Option.some.inj hp)
          rw [firstGap, if_pos (by omega)] at ha
          exact absurd rfl ha
      · obtain ⟨⟨a', es''⟩, hrest, hr⟩ := Option.map_eq_some_iff.mp hp
        obtain ⟨rfl, rfl⟩ := Prod.mk.inj hr
        unfold firstGap at ha ⊢
        split
        · rfl
        · next hlt =>
            rw [if_neg hlt] at ha
            exact firstGap_place hneed hpacked.2.2 hrest ha

/-- What taking a gap writes: where the rest is worth it, a header for the rest is put between. -/
theorem takeBlock_ram {b : Nat} (hgap : h.ram lo = ⟨b, p, false⟩) (hfit : lo + (cfg.sizeofStructMem + size) ≤ b)
    (hb : b ≤ cfg.memSizeAligned) (x : Nat) :
    (takeBlock cfg h size lo).ram x =
      if x = lo then ⟨carveAt cfg.minBlock (cfg.sizeofStructMem + size) lo b, p, true⟩
      else if lo + (cfg.sizeofStructMem + size) + cfg.minBlock ≤ b ∧ x = lo + (cfg.sizeofStructMem + size) then
        ⟨b, lo, false⟩
      else if lo + (cfg.sizeofStructMem + size) + cfg.minBlock ≤ b ∧ x = b ∧ b ≠ cfg.memSizeAligned then
        { h.ram b with prev := lo + (cfg.sizeofStructMem + size) }
      else h.ram x := by
  have hpos := cfg.sizeofStructMem_pos
  have hm := cfg.minBlock_pos
  have hlt := cfg.memSizeAligned_lt
  have huser : userSize cfg h.ram lo = b - (lo + cfg.sizeofStructMem) := by
    rw [userSize, hgap]
    exact sizeSub_of_le (show _ ≤ b by omega) (show b < _ by omega)
  have hptr : cfg.toMemSize (lo + cfg.sizeofStructMem + size) = lo + (cfg.sizeofStructMem + size) := by
    rw [Nat.add_assoc]
    exact cfg.toMemSize_of_le (by omega)
  unfold takeBlock
  rw [huser, hptr]
  unfold carveAt MemConfig.minBlock at *
  by_cases hcut : lo + (cfg.sizeofStructMem + size) + (cfg.sizeofStructMem + cfg.minSizeAligned) ≤ b
  · simp only [hcut, true_and, if_true]
    rw [if_pos (show size + cfg.sizeofStructMem + cfg.minSizeAligned ≤ _ by omega)]
    generalize hneed : lo + (cfg.sizeofStructMem + size) = c at hcut ⊢
    have hclo : c ≠ lo := by omega
    have hcb : c ≠ b := by omega
    have hblo : b ≠ lo := by omega
    simp only [Heap.setNext_ram, Heap.setPrev_ram, Heap.setUsed_ram, hgap, hclo, hclo.symm, if_true, if_false]
    split
    · simp only [Heap.setNext_ram, Heap.setPrev_ram, Heap.setUsed_ram, hgap]
      grind
    · simp only [Heap.setNext_ram, Heap.setPrev_ram, Heap.setUsed_ram, hgap]
      grind
  · simp only [hcut, false_and, if_false]
    rw [if_neg (show ¬size + cfg.sizeofStructMem + cfg.minSizeAligned ≤ _ by omega), Heap.setUsed_ram, hgap]

theorem takeBlock_lfree : (takeBlock cfg h size a).lfree = h.lfree := by
  unfold takeBlock
  split
  · dsimp only
    split <;> rfl
  · rfl

/-- **Taking a gap** makes an extent of it. -/
theorem Linked.takeBlock (hmin : cfg.minSizeAligned ≤ size) : ∀ {es es' : List Extent} {p lo a : Nat},
    Packed cfg.minBlock cfg.memSizeAligned lo es → Linked cfg.memSizeAligned h.ram p lo es →
    place cfg.minBlock (cfg.sizeofStructMem + size) cfg.memSizeAligned lo es = some (a, es') →
    lo ≤ a ∧ a < cfg.memSizeAligned ∧ Linked cfg.memSizeAligned (ThirdParty.Lwip.takeBlock cfg h size a).ram p lo es' ∧
    (∀ x, x < a → (ThirdParty.Lwip.takeBlock cfg h size a).ram x = h.ram x) ∧
    DataKept es h.ram (ThirdParty.Lwip.takeBlock cfg h size a).ram ∧
    (ThirdParty.Lwip.takeBlock cfg h size a).ram cfg.memSizeAligned = h.ram cfg.memSizeAligned
  | [], es', p, lo, a, hp, hl, hplace => by
      have hpos := cfg.sizeofStructMem_pos
      have hm := cfg.minBlock_pos
      unfold place at hplace
      split at hplace
      · next hfit =>
          obtain ⟨rfl, rfl⟩ := Prod.mk.inj (Option.some.inj hplace)
          have hram := takeBlock_ram (hl (by omega)) hfit (Nat.le_refl _)
          refine ⟨Nat.le_refl _, by omega, ⟨fun hlt => absurd hlt (Nat.lt_irrefl _), ?_, ?_⟩, ?_,
            by simp [DataKept], ?_⟩
          · rw [hram, if_pos rfl, if_neg (Nat.lt_irrefl _)]
          · intro hlt
            unfold carveAt at hlt ⊢
            dsimp only at hlt ⊢
            split at hlt
            · next hcut => rw [if_pos hcut, hram, if_neg (by omega), if_pos ⟨hcut, rfl⟩]
            · omega
          · intro x hx
            rw [hram, if_neg (by omega), if_neg (by omega), if_neg (by omega)]
          · rw [hram, if_neg (by omega), if_neg (by omega), if_neg (by simp)]
      · cases hplace
  | e :: es, es', p, lo, a, hp, hl, hplace => by
      have hpos := cfg.sizeofStructMem_pos
      have hm := cfg.minBlock_pos
      obtain ⟨hgap, hwide, hrest⟩ := hp
      have hhi := hrest.le
      have hle := hgap.le
      obtain ⟨hlgap, hlused, hlrest⟩ := hl
      unfold place at hplace
      split at hplace
      · next hfit =>
          obtain ⟨rfl, rfl⟩ := Prod.mk.inj (Option.some.inj hplace)
          have hlt : lo < e.start := by omega
          rw [if_pos hlt] at hlused
          have hram := takeBlock_ram (hlgap hlt) hfit (by omega)
          refine ⟨Nat.le_refl _, by omega, ⟨fun hlt => absurd hlt (Nat.lt_irrefl _), ?_, ?_⟩, ?_, ?_, ?_⟩
          · rw [hram, if_pos rfl, if_neg (Nat.lt_irrefl _)]
          · -- the header of the rest, if there is one, and the header of the next extent
            have hafter : Linked cfg.memSizeAligned (ThirdParty.Lwip.takeBlock cfg h size lo).ram e.start e.stop es :=
              hlrest.congr hm hrest fun x hx _ => by
                rw [hram, if_neg (by omega), if_neg (by omega), if_neg (by omega)]
            unfold carveAt
            dsimp only
            split
            · next hcut =>
                refine ⟨fun _ => ?_, ?_, hafter⟩
                · rw [hram, if_neg (by omega), if_pos ⟨hcut, rfl⟩]
                · rw [hram, if_neg (by omega), if_neg (by omega), if_pos ⟨hcut, rfl, by omega⟩, hlused,
                    if_pos (by omega)]
            · next hcut =>
                refine ⟨fun hlt => absurd hlt (Nat.lt_irrefl _), ?_, hafter⟩
                rw [hram, if_neg (by omega), if_neg (by omega), if_neg (by omega), hlused,
                  if_neg (Nat.lt_irrefl _)]
          · intro x hx
            rw [hram, if_neg (by omega), if_neg (by omega), if_neg (by omega)]
          · intro e' he' x hx _
            have hstart : e.start ≤ e'.start := by
              rcases List.mem_cons.mp he' with rfl | he'
              · exact Nat.le_refl _
              · have := (hrest.bounds e' he').1
                omega
            rw [hram, if_neg (by omega), if_neg (by omega), if_neg (by omega)]
          · rw [hram, if_neg (by omega), if_neg (by omega), if_neg (by omega)]
      · obtain ⟨⟨a', es''⟩, hplace', hr⟩ := Option.map_eq_some_iff.mp hplace
        obtain ⟨rfl, rfl⟩ := Prod.mk.inj hr
        obtain ⟨hlo, hhi', hlinked, hbelow, hdata, hend⟩ := Linked.takeBlock hmin hrest hlrest hplace'
        refine ⟨by omega, hhi', ⟨fun hlt => ?_, ?_, hlinked⟩, hbelow, ?_, hend⟩
        · rw [hbelow lo (by omega), hlgap hlt]
        · rw [hbelow e.start (by omega), hlused]
        · exact List.forall_mem_cons.mpr ⟨fun x _ hx => hbelow x (by omega), hdata⟩

/-- What `mem_malloc` does to the extents. -/
def mallocExtents (cfg : MemConfig) (es : List Extent) (size : Nat) : List Extent × Option Nat :=
  if cfg.toMemSize size = 0 then (es, none)
  else
    match place cfg.minBlock (cfg.sizeofStructMem + roundSize cfg size) cfg.memSizeAligned 0 es with
    | some (a, es') => (es', some (a + cfg.sizeofStructMem))
    | none          => (es, none)

theorem roundSize_min (size : Nat) : cfg.minSizeAligned ≤ roundSize cfg size := by
  unfold roundSize
  dsimp only
  split <;> omega

/-- **`mem_malloc` places.** -/
theorem Represents.memMalloc (hr : Represents cfg h es) (size : Nat) :
    Represents cfg (memMalloc cfg h size).1 (mallocExtents cfg es size).1 ∧
    (memMalloc cfg h size).2 = (mallocExtents cfg es size).2 ∧ DataKept es h.ram (memMalloc cfg h size).1.ram := by
  have hsame : DataKept es h.ram h.ram := fun _ _ _ _ _ => rfl
  obtain ⟨hpacked, hlinked, hend, hlfree⟩ := hr
  have hpos := cfg.sizeofStructMem_pos
  unfold ThirdParty.Lwip.memMalloc mallocExtents
  by_cases hzero : cfg.toMemSize size = 0
  · rw [if_pos hzero, if_pos hzero]
    exact ⟨⟨hpacked, hlinked, hend, hlfree⟩, rfl, hsame⟩
  rw [if_neg hzero, if_neg hzero]
  generalize hsize : roundSize cfg size = n
  have hmin : cfg.minSizeAligned ≤ n := hsize ▸ roundSize_min size
  by_cases hbig : cfg.memSizeAligned < n
  · rw [if_pos hbig, place_eq_none_of_lt (by omega) hpacked (by omega)]
    exact ⟨⟨hpacked, hlinked, hend, hlfree⟩, rfl, hsame⟩
  rw [if_neg hbig, hlfree]
  have hscan := scanFree_firstGap (Nat.le_of_not_lt hbig) hpacked hlinked hend.2
  cases hplace : place cfg.minBlock (cfg.sizeofStructMem + n) cfg.memSizeAligned 0 es with
  | none =>
      rw [hplace] at hscan
      rw [hscan]
      exact ⟨⟨hpacked, hlinked, hend, hlfree⟩, rfl, hsame⟩
  | some r =>
      obtain ⟨a, es'⟩ := r
      rw [hplace] at hscan
      rw [hscan]
      have hpacked' := place_packed (by unfold MemConfig.minBlock; omega) hpacked hplace
      obtain ⟨-, -, hlinked', -, hdata, hend'⟩ := hlinked.takeBlock hmin hpacked hplace
      refine ⟨⟨hpacked', ?_, ?_, ?_⟩, rfl, ?_⟩
      · dsimp only [Option.map_some, adjustLfree]
        split <;> exact hlinked'
      · dsimp only [Option.map_some, adjustLfree]
        split <;> exact hend' ▸ hend
      · dsimp only [Option.map_some, adjustLfree]
        rw [takeBlock_lfree, hlfree]
        split
        · next ha =>
            rw [ha] at hplace hlinked' ⊢
            exact nextFree_place hpacked' hlinked' (by omega) hplace
        · next ha => rw [takeBlock_lfree, hlfree, firstGap_place (by omega) hpacked hplace ha]
      · dsimp only [Option.map_some, adjustLfree]
        split <;> exact hdata

/-! ## `mem_free` -/

/-- What `plug_holes` finds behind the block that ends at `s`: a gap up to `b`, or nothing to join. -/
def Behind (cfg : MemConfig) (ram : Nat → Mem) (a s b : Nat) : Prop :=
  (s = b ∧ (b < cfg.memSizeAligned → (ram b).used = true ∧ (ram b).prev = a)) ∨
  (s < b ∧ s < cfg.memSizeAligned ∧ ram s = ⟨b, a, false⟩)

/-- **Plugging forward**: the block reaches to the next extent, or to the end. -/
theorem plugForward_spec {s b q : Nat} (hmem : h.ram a = ⟨s, q, false⟩) (has : a < s) (hsb : s ≤ b)
    (hb : b ≤ cfg.memSizeAligned) (hbehind : Behind cfg h.ram a s b) (hlfree : h.lfree ≠ s) :
    (plugForward cfg h a).lfree = h.lfree ∧ (plugForward cfg h a).ram a = ⟨b, q, false⟩ ∧
    (b < cfg.memSizeAligned → (plugForward cfg h a).ram b = { h.ram b with prev := a }) ∧
    (∀ x, x ≠ a → x ≠ b → (plugForward cfg h a).ram x = h.ram x) ∧
    ((plugForward cfg h a).ram b).next = (h.ram b).next ∧ ((plugForward cfg h a).ram b).used = (h.ram b).used := by
  unfold plugForward
  rw [hmem]
  dsimp only
  rcases hbehind with ⟨rfl, hused⟩ | ⟨hlt, hsM, hgap⟩
  · have hstay : ¬(a ≠ s ∧ (h.ram s).used = false ∧ s ≠ cfg.memSizeAligned) := by
      rintro ⟨-, hfree, hne⟩
      rw [(hused (by omega)).1] at hfree
      cases hfree
    rw [if_neg hstay]
    refine ⟨rfl, hmem, fun hlt => ?_, fun x _ _ => rfl, rfl, rfl⟩
    rw [← (hused hlt).2]
  · rw [if_pos ⟨by omega, by rw [hgap], by omega⟩, if_neg hlfree]
    have hnext : (h.setNext a (h.ram s).next).ram s = ⟨b, a, false⟩ := by
      rw [Heap.setNext_ram, if_neg (by omega), hgap]
    rw [hnext, hgap]
    dsimp only
    refine ⟨rfl, ?_, fun _ => ?_, fun x hxa hxb => ?_, ?_, ?_⟩
    · rw [Heap.setPrev_ram, if_neg (by omega), Heap.setNext_ram, if_pos rfl, hmem]
    · rw [Heap.setPrev_ram, if_pos rfl, Heap.setNext_ram, if_neg (by omega)]
    · rw [Heap.setPrev_ram, if_neg hxb, Heap.setNext_ram, if_neg hxa]
    · rw [Heap.setPrev_ram, if_pos rfl, Heap.setNext_ram, if_neg (by omega)]
    · rw [Heap.setPrev_ram, if_pos rfl, Heap.setNext_ram, if_neg (by omega)]

/-- **Plugging backward**: a gap in front of the block reaches to its end. -/
theorem plugBackward_gap {b : Nat} (hlo : lo < a) (hab : a < b) (hmem : h.ram a = ⟨b, lo, false⟩)
    (hgap : h.ram lo = ⟨a, p, false⟩) (hlfree : h.lfree ≠ a) :
    (plugBackward h a).lfree = h.lfree ∧ (plugBackward h a).ram lo = ⟨b, p, false⟩ ∧
    (plugBackward h a).ram b = { h.ram b with prev := lo } ∧
    ∀ x, x ≠ lo → x ≠ b → (plugBackward h a).ram x = h.ram x := by
  unfold plugBackward
  rw [hmem]
  dsimp only
  rw [if_pos ⟨by omega, by rw [hgap]⟩, if_neg hlfree]
  have hnext : (h.setNext lo (h.ram a).next).ram a = ⟨b, lo, false⟩ := by
    rw [Heap.setNext_ram, if_neg (by omega), hmem]
  rw [hnext]
  dsimp only
  refine ⟨rfl, ?_, ?_, fun x hx hxb => ?_⟩
  · rw [Heap.setPrev_ram, if_neg (by omega), Heap.setNext_ram, if_pos rfl, hgap, hmem]
  · rw [Heap.setPrev_ram, if_pos rfl, Heap.setNext_ram, if_neg (by omega)]
  · rw [Heap.setPrev_ram, if_neg hxb, Heap.setNext_ram, if_neg hx]

/-- There is nothing to join in front of the first block, or behind a used one. -/
theorem plugBackward_stays {b : Nat} (hmem : h.ram a = ⟨b, p, false⟩) (hp : p = a ∨ (h.ram p).used = true) :
    plugBackward h a = h := by
  unfold plugBackward
  rw [hmem]
  dsimp only
  rw [if_neg]
  rintro ⟨hne, hfree⟩
  rcases hp with rfl | hused
  · exact hne rfl
  · rw [hused] at hfree
    cases hfree

/-- **Freeing the block at `a`**: one gap from the end of the block before to the next one. -/
theorem memFree_ram {s b : Nat} (hlo : lo ≤ a) (hgap : lo < a → h.ram lo = ⟨a, p, false⟩)
    (hmem : h.ram a = ⟨s, if lo < a then lo else p, true⟩) (hprev : lo = a → p = a ∨ p < a ∧ (h.ram p).used = true)
    (has : a + cfg.minBlock ≤ s) (hsb : s ≤ b) (hb : b ≤ cfg.memSizeAligned) (hbehind : Behind cfg h.ram a s b)
    (hlfree : lo < a → h.lfree ≤ lo) :
    let h' := memFree cfg h (some (a + cfg.sizeofStructMem))
    h'.lfree = min h.lfree a ∧ h'.ram lo = ⟨b, p, false⟩ ∧
    (b < cfg.memSizeAligned → h'.ram b = { h.ram b with prev := lo }) ∧
    (∀ x, x ≠ lo → x ≠ a → x ≠ b → h'.ram x = h.ram x) ∧
    (h'.ram b).next = (h.ram b).next ∧ (h'.ram b).used = (h.ram b).used := by
  have hpos := cfg.minSizeAligned_pos
  unfold MemConfig.minBlock at has
  -- the heap that `plug_holes` is called with
  obtain ⟨h₁, hh₁⟩ : ∃ h₁ : Heap, h₁ = if a < (h.setUsed a false).lfree then { h.setUsed a false with lfree := a }
      else h.setUsed a false := ⟨_, rfl⟩
  have heq : memFree cfg h (some (a + cfg.sizeofStructMem)) = plugHoles cfg h₁ a := by
    simp only [memFree]
    rw [if_neg (by omega), Nat.add_sub_cancel, hh₁]
  rw [heq]
  dsimp only
  have hram₁ : ∀ x, h₁.ram x = if x = a then { h.ram a with used := false } else h.ram x := by
    intro x
    rw [hh₁, ← Heap.setUsed_ram]
    split <;> rfl
  have hlfree₁ : h₁.lfree = min h.lfree a := by
    rw [hh₁]
    split
    · next hlt =>
        rw [Heap.setUsed_lfree] at hlt
        exact (Nat.min_eq_right (Nat.le_of_lt hlt)).symm
    · next hlt =>
        rw [Heap.setUsed_lfree] at hlt
        exact (Nat.min_eq_left (Nat.le_of_not_lt hlt)).symm
  have hmem₁ : h₁.ram a = ⟨s, if lo < a then lo else p, false⟩ := by rw [hram₁, if_pos rfl, hmem]
  have hbehind₁ : Behind cfg h₁.ram a s b := by
    unfold Behind
    rw [hram₁, if_neg (by omega), hram₁, if_neg (by omega)]
    exact hbehind
  obtain ⟨hf₁, hf₂, hf₃, hf₄, hf₅, hf₆⟩ := plugForward_spec hmem₁ (by omega) hsb hb hbehind₁
    (by rw [hlfree₁]; omega)
  have hsame : ∀ x, x ≠ a → x ≠ b → (plugForward cfg h₁ a).ram x = h.ram x := fun x hxa hxb => by
    rw [hf₄ x hxa hxb, hram₁, if_neg hxa]
  have hb₁ : h₁.ram b = h.ram b := by rw [hram₁, if_neg (by omega)]
  rw [hb₁] at hf₃ hf₅ hf₆
  unfold plugHoles
  rcases Nat.lt_or_ge lo a with hlt | hge
  · rw [if_pos hlt] at hf₂
    obtain ⟨hl, hg, hb', hother⟩ := plugBackward_gap hlt (by omega) hf₂
      (by rw [hsame lo (by omega) (by omega)]; exact hgap hlt) (by rw [hf₁, hlfree₁]; have := hlfree hlt; omega)
    refine ⟨by rw [hl, hf₁, hlfree₁], hg, fun hbM => by rw [hb', hf₃ hbM], fun x hx hxa hxb => ?_, ?_, ?_⟩
    · rw [hother x hx hxb, hsame x hxa hxb]
    · rw [hb']
      exact hf₅
    · rw [hb']
      exact hf₆
  · obtain rfl : lo = a := by omega
    rw [if_neg (Nat.lt_irrefl _)] at hf₂
    have hp : p = lo ∨ ((plugForward cfg h₁ lo).ram p).used = true := by
      rcases hprev rfl with hp | ⟨hp, hused⟩
      · exact .inl hp
      · exact .inr (by rw [hsame p (by omega) (by omega)]; exact hused)
    rw [plugBackward_stays hf₂ hp]
    exact ⟨by rw [hf₁, hlfree₁], hf₂, hf₃, fun x _ hxa hxb => hsame x hxa hxb, hf₅, hf₆⟩

/-- What lies behind a block, from the list. -/
theorem Linked.behind {s : Nat} (hp : Packed m cfg.memSizeAligned s es) (hl : Linked cfg.memSizeAligned h.ram a s es)
    (hm : 0 < m) : Behind cfg h.ram a s (nextStart cfg.memSizeAligned es) := by
  cases es with
  | nil =>
      rcases Nat.lt_or_ge s cfg.memSizeAligned with hlt | hge
      · exact .inr ⟨hlt, hlt, hl hlt⟩
      · exact .inl ⟨Nat.le_antisymm hp.le hge, fun hlt => absurd hlt (Nat.lt_irrefl _)⟩
  | cons e es =>
      have hle := hp.1.le
      have hhi := hp.2.2.le
      have hwide := hp.2.1
      rcases Nat.lt_or_ge s e.start with hlt | hge
      · exact .inr ⟨hlt, by omega, hl.1 hlt⟩
      · refine .inl ⟨Nat.le_antisymm hle hge, fun _ => ?_⟩
        rw [show nextStart _ (e :: es) = e.start from rfl, hl.2.1, if_neg (by omega)]
        exact ⟨rfl, rfl⟩

/-- **Freeing an extent** drops it from the list. -/
theorem Linked.memFree : ∀ {es : List Extent} {p lo : Nat}, Packed cfg.minBlock cfg.memSizeAligned lo es →
    Linked cfg.memSizeAligned h.ram p lo es → (p = lo ∨ p < lo ∧ (h.ram p).used = true) →
    h.lfree ≤ firstGap lo es → (∃ e ∈ es, e.start = a) →
    let h' := ThirdParty.Lwip.memFree cfg h (some (a + cfg.sizeofStructMem))
    h'.lfree = min h.lfree a ∧ Linked cfg.memSizeAligned h'.ram p lo (release a es) ∧
    (∀ x, x < lo → h'.ram x = h.ram x) ∧ DataKept (release a es) h.ram h'.ram ∧
    (h'.ram cfg.memSizeAligned).next = (h.ram cfg.memSizeAligned).next ∧
    (h'.ram cfg.memSizeAligned).used = (h.ram cfg.memSizeAligned).used
  | [], _, _, _, _, _, _, ⟨e, he, _⟩ => absurd he List.not_mem_nil
  | e :: es, p, lo, hp, hl, hprev, hlfree, ⟨e', he', hstart⟩ => by
      have hm := cfg.minBlock_pos
      obtain ⟨hlgap, hlused, hlrest⟩ := id hl
      obtain ⟨hgap, hwide, hrest⟩ := id hp
      have hle := hgap.le
      have hhi := hrest.le
      by_cases he : e.start = a
      · obtain ⟨hnext, hnextM⟩ := nextStart_mem hrest
        rw [release_cons_self he hm hp]
        subst he
        have hlfree' : lo < e.start → h.lfree ≤ lo := fun hlt => by rwa [firstGap, if_pos hlt] at hlfree
        obtain ⟨h₁, h₂, h₃, h₄, h₅, h₆⟩ := memFree_ram hle hlgap hlused (by rintro rfl; exact hprev) hwide hnext hnextM
          (hlrest.behind hrest hm) hlfree'
        refine ⟨h₁, ?_, fun x hx => h₄ x (by omega) (by omega) (by omega), ?_, ?_, ?_⟩
        · cases es with
          | nil => exact fun _ => h₂
          | cons e₂ es =>
              have hhi₂ := hrest.2.2.le
              have hwide₂ := hrest.2.1
              have hnext₂ : nextStart cfg.memSizeAligned (e₂ :: es) = e₂.start := rfl
              rw [hnext₂] at h₂ h₃ h₄ hnext
              refine ⟨fun _ => h₂, ?_, ?_⟩
              · rw [h₃ (by omega), hlrest.2.1, if_pos (show lo < e₂.start by omega)]
              · exact hlrest.2.2.congr hm hrest.2.2 fun x hx _ => h₄ x (by omega) (by omega) (by omega)
        · intro e' he' x hx _
          have hstop := (hrest.bounds e' he').1
          have hb : nextStart cfg.memSizeAligned es ≤ e'.start := by
            cases es with
            | nil => exact absurd he' List.not_mem_nil
            | cons e₂ es =>
                rcases List.mem_cons.mp he' with rfl | he₂
                · exact Nat.le_refl _
                · have := (hrest.2.2.bounds e' he₂).1
                  have := hrest.2.1
                  change e₂.start ≤ _
                  omega
          exact h₄ x (by omega) (by omega) (by omega)
        · rcases Nat.lt_or_ge (nextStart cfg.memSizeAligned es) cfg.memSizeAligned with hlt | hge
          · rw [h₄ _ (by omega) (by omega) (by omega)]
          · rwa [Nat.le_antisymm hnextM hge] at h₅
        · rcases Nat.lt_or_ge (nextStart cfg.memSizeAligned es) cfg.memSizeAligned with hlt | hge
          · rw [h₄ _ (by omega) (by omega) (by omega)]
          · rwa [Nat.le_antisymm hnextM hge] at h₆
      · have he'' : e' ∈ es := by
          rcases List.mem_cons.mp he' with rfl | he'
          · exact absurd hstart he
          · exact he'
        have hused : (h.ram e.start).used = true := by rw [hlused]
        have hlfree' : h.lfree ≤ firstGap e.stop es := by
          have := (firstGap_bounds hrest).1
          unfold firstGap at hlfree
          split at hlfree <;> omega
        obtain ⟨h₁, h₂, h₃, h₄, h₅, h₆⟩ :=
          Linked.memFree hrest hlrest (.inr ⟨by omega, hused⟩) hlfree' ⟨e', he'', hstart⟩
        rw [release_cons_of_ne he]
        refine ⟨h₁, ⟨fun hlt => ?_, ?_, h₂⟩, fun x hx => h₃ x (by omega), ?_, h₅, h₆⟩
        · rw [h₃ lo (by omega), hlgap hlt]
        · rw [h₃ e.start (by omega), hlused]
        · exact List.forall_mem_cons.mpr ⟨fun x _ hx => h₃ x hx, h₄⟩

/-- The lowest gap after an extent is dropped. -/
theorem firstGap_release (hm : 0 < m) : ∀ {es : List Extent} {lo : Nat}, Packed m hi lo es →
    (∃ e ∈ es, e.start = a) → firstGap lo (release a es) = min (firstGap lo es) a
  | [],      _,  _,  ⟨_, he, _⟩ => absurd he List.not_mem_nil
  | e :: es, lo, hp, ⟨e', he', hstart⟩ => by
      have hle := hp.1.le
      have hwide := hp.2.1
      have hge := (firstGap_bounds hp.2.2).1
      by_cases he : e.start = a
      · rw [release_cons_self he hm hp]
        have hlow : firstGap lo es = lo := by
          cases es with
          | nil => rfl
          | cons e₂ es =>
              have := hp.2.2.1.le
              rw [firstGap, if_pos (by omega)]
        rw [hlow, firstGap]
        split <;> omega
      · have he'' : e' ∈ es := by
          rcases List.mem_cons.mp he' with rfl | he'
          · exact absurd hstart he
          · exact he'
        have hstop := (hp.2.2.bounds e' he'').1
        rw [release_cons_of_ne he, firstGap, firstGap, firstGap_release hm hp.2.2 ⟨e', he'', hstart⟩]
        split <;> omega

/-- Freeing keeps the headers, also while `lfree` is below the lowest gap. -/
theorem Headers.memFree (hh : Headers cfg h es) (hlfree : h.lfree ≤ firstGap 0 es) (he : ∃ e ∈ es, e.start = a) :
    Headers cfg (memFree cfg h (some (a + cfg.sizeofStructMem))) (release a es) ∧
    (memFree cfg h (some (a + cfg.sizeofStructMem))).lfree = min h.lfree a ∧
    DataKept (release a es) h.ram (memFree cfg h (some (a + cfg.sizeofStructMem))).ram := by
  obtain ⟨hpacked, hlinked, hend⟩ := hh
  obtain ⟨h₁, h₂, -, h₄, h₅, h₆⟩ := hlinked.memFree hpacked (.inl rfl) hlfree he
  refine ⟨⟨release_packed cfg.minBlock_pos hpacked, h₂, ?_⟩, h₁, h₄⟩
  rw [h₅, h₆]
  exact hend

/-- **`mem_free` releases.** -/
theorem Represents.memFree (hr : Represents cfg h es) (he : ∃ e ∈ es, e.start = a) :
    Represents cfg (memFree cfg h (some (a + cfg.sizeofStructMem))) (release a es) ∧
    DataKept (release a es) h.ram (memFree cfg h (some (a + cfg.sizeofStructMem))).ram := by
  obtain ⟨hheaders, hlfree, hdata⟩ := hr.headers.memFree (Nat.le_of_eq hr.lfree) he
  refine ⟨hheaders.represents ?_, hdata⟩
  rw [hlfree, hr.lfree, firstGap_release cfg.minBlock_pos hr.packed he]

/-! ## `mem_trim` -/

/-- What `mem_trim` computes as the size of a block. -/
theorem trimSize_eq {s q : Nat} {u : Bool} (hmem : h.ram a = ⟨s, q, u⟩) (has : a + cfg.sizeofStructMem ≤ s)
    (hs : s ≤ cfg.memSizeAligned) :
    cfg.toMemSize (sizeSub (sizeSub (h.ram a).next a) cfg.sizeofStructMem) = s - a - cfg.sizeofStructMem := by
  have hlt := cfg.memSizeAligned_lt
  rw [hmem, sizeSub_of_le (show a ≤ s by omega) (show s < _ by omega), sizeSub_of_le (by omega) (by omega)]
  exact cfg.toMemSize_of_le (by omega)

/-- A block cannot grow. -/
theorem memTrim_grow {s q newsize : Nat} {u : Bool} (hmem : h.ram a = ⟨s, q, u⟩)
    (has : a + cfg.sizeofStructMem < s) (hs : s ≤ cfg.memSizeAligned)
    (hgrow : s < a + cfg.sizeofStructMem + roundSize cfg newsize) :
    memTrim cfg h (a + cfg.sizeofStructMem) newsize = (h, none) := by
  unfold memTrim
  dsimp only
  rw [Nat.add_sub_cancel, trimSize_eq hmem (by omega) hs]
  split
  · rfl
  · rw [if_neg (show ¬cfg.memSizeAligned ≤ a + cfg.sizeofStructMem by omega), if_pos (by omega)]

/-- Nothing is cut off if there is nothing to cut, or if the rest is too small for a block of its own. -/
theorem memTrim_stays {s b q newsize : Nat} {u : Bool} (hmem : h.ram a = ⟨s, q, u⟩)
    (has : a + cfg.sizeofStructMem < s) (hs : s ≤ b) (hb : b ≤ cfg.memSizeAligned)
    (hbehind : Behind cfg h.ram a s b) (hend : (h.ram cfg.memSizeAligned).used = true)
    (hfit : a + (cfg.sizeofStructMem + roundSize cfg newsize) ≤ s)
    (hcut : ¬(a + (cfg.sizeofStructMem + roundSize cfg newsize) < s ∧
      (s < b ∨ a + (cfg.sizeofStructMem + roundSize cfg newsize) + cfg.minBlock ≤ s))) :
    memTrim cfg h (a + cfg.sizeofStructMem) newsize = (h, some (a + cfg.sizeofStructMem)) := by
  unfold MemConfig.minBlock at hcut
  unfold memTrim
  dsimp only
  rw [Nat.add_sub_cancel, trimSize_eq hmem (by omega) (by omega), if_neg (by omega), if_neg (by omega),
    if_neg (by omega)]
  split
  · rfl
  · next hne =>
      have hused : (h.ram s).used = true := by
        rcases hbehind with ⟨rfl, hused⟩ | ⟨hlt, -, -⟩
        · rcases Nat.lt_or_ge s cfg.memSizeAligned with hlt | hge
          · exact (hused hlt).1
          · rwa [Nat.le_antisymm hb hge]
        · exact absurd ⟨by omega, .inl hlt⟩ hcut
      rw [hmem, if_neg (by simp [hused]), if_neg (by omega)]

/-- **Cutting a block**: a header behind what is kept, which reaches to the next extent, or to the end. -/
theorem memTrim_cut {s b q newsize : Nat} (hmem : h.ram a = ⟨s, q, true⟩) (hs : s ≤ b)
    (hb : b ≤ cfg.memSizeAligned) (hbehind : Behind cfg h.ram a s b) (hend : (h.ram cfg.memSizeAligned).used = true)
    (hcut : a + (cfg.sizeofStructMem + roundSize cfg newsize) < s ∧
      (s < b ∨ a + (cfg.sizeofStructMem + roundSize cfg newsize) + cfg.minBlock ≤ s))
    (hlfree : h.lfree ≤ a ∨ s ≤ h.lfree) (hgap : s < b → h.lfree ≤ s) :
    let r := memTrim cfg h (a + cfg.sizeofStructMem) newsize
    let c := a + (cfg.sizeofStructMem + roundSize cfg newsize)
    r.2 = some (a + cfg.sizeofStructMem) ∧ r.1.lfree = min h.lfree c ∧ r.1.ram a = ⟨c, q, true⟩ ∧
    r.1.ram c = ⟨b, a, false⟩ ∧ (b < cfg.memSizeAligned → r.1.ram b = { h.ram b with prev := c }) ∧
    ∀ x, x ≠ a → x ≠ c → (x = b → b = cfg.memSizeAligned) → r.1.ram x = h.ram x := by
  have hpos := cfg.sizeofStructMem_pos
  unfold MemConfig.minBlock at hcut
  unfold memTrim
  dsimp only
  have hptr : cfg.toMemSize (a + cfg.sizeofStructMem + roundSize cfg newsize) =
      a + (cfg.sizeofStructMem + roundSize cfg newsize) := by
    rw [Nat.add_assoc]
    exact cfg.toMemSize_of_le (by omega)
  rw [Nat.add_sub_cancel, trimSize_eq hmem (by omega) (by omega), hptr, if_neg (by omega), if_neg (by omega),
    if_neg (by omega), if_neg (by omega)]
  generalize hc : a + (cfg.sizeofStructMem + roundSize cfg newsize) = c at hcut ⊢
  have hca : c ≠ a := by omega
  have hcb : c ≠ b := by omega
  have hba : b ≠ a := by omega
  rcases hbehind with ⟨rfl, hused⟩ | ⟨hsb, hsM, hram⟩
  · have husedS : (h.ram s).used = true := by
      rcases Nat.lt_or_ge s cfg.memSizeAligned with hlt | hge
      · exact (hused hlt).1
      · rwa [Nat.le_antisymm hb hge]
    rw [hmem, if_neg (by simp [husedS]), if_pos (by omega)]
    have hl : (if c < h.lfree then { h with lfree := c } else h).lfree = min h.lfree c := by
      split
      · exact (Nat.min_eq_right (show c ≤ h.lfree by omega)).symm
      · exact (Nat.min_eq_left (show h.lfree ≤ c by omega)).symm
    have hr : (if c < h.lfree then { h with lfree := c } else h).ram = h.ram := by
      split <;> rfl
    generalize (if c < h.lfree then { h with lfree := c } else h) = h₁ at hl hr
    rw [← hr] at hmem ⊢
    simp only [Heap.setNext_ram, Heap.setPrev_ram, Heap.setUsed_ram, hmem, hca, hca.symm, if_true, if_false]
    split
    all_goals
      simp only [Heap.setNext_ram, Heap.setPrev_ram, Heap.setUsed_ram, hmem, hl, Heap.setNext_lfree,
        Heap.setPrev_lfree, Heap.setUsed_lfree]
      grind
  · have hfree : (h.ram s).used = false := by rw [hram]
    rw [hmem, if_pos hfree, hram]
    have hl : (if h.lfree = s then { h with lfree := c } else h).lfree = min h.lfree c := by
      have := hgap hsb
      split
      · exact (Nat.min_eq_right (show c ≤ h.lfree by omega)).symm
      · exact (Nat.min_eq_left (show h.lfree ≤ c by omega)).symm
    have hr : (if h.lfree = s then { h with lfree := c } else h).ram = h.ram := by
      split <;> rfl
    generalize (if h.lfree = s then { h with lfree := c } else h) = h₁ at hl hr
    rw [← hr] at hmem ⊢
    simp only [Heap.setNext_ram, Heap.setPrev_ram, Heap.setUsed_ram, hmem, hca, hca.symm, if_true, if_false]
    split
    all_goals
      simp only [Heap.setNext_ram, Heap.setPrev_ram, Heap.setUsed_ram, hmem, hl, Heap.setNext_lfree,
        Heap.setPrev_lfree, Heap.setUsed_lfree]
      grind

/-- The lowest gap behind a block is where the block ends, if there is a gap there. -/
theorem firstGap_of_lt {s : Nat} (h : s < nextStart hi es) : firstGap s es = s := by
  cases es with
  | nil => rfl
  | cons e es => exact if_pos h

/-- `lfree` and the lowest gap stay where they are, or a cut above `a` is lower than what it is lower than. -/
def LowerTogether (a : Nat) (old new : Nat × Nat) : Prop :=
  new.1 = old.1 ∧ new.2 = old.2 ∨ ∃ c, a < c ∧ new.1 = min old.1 c ∧ new.2 = min old.2 c

/-- The lowest gap is not inside an extent. -/
theorem firstGap_outside {e : Extent} : ∀ {lo : Nat} {es : List Extent}, Packed m hi lo es → e ∈ es →
    firstGap lo es ≤ e.start ∨ e.stop ≤ firstGap lo es
  | lo, x :: es, hp, he => by
      have hle := hp.1.le
      have hwide := hp.2.1
      have hlow := (firstGap_bounds hp.2.2).1
      unfold firstGap
      rcases List.mem_cons.mp he with rfl | he
      · split <;> omega
      · have := (hp.2.2.bounds e he).1
        have := firstGap_outside hp.2.2 he
        split <;> omega

/-- **Trimming the first extent.** -/
theorem Linked.memTrim_head {newsize : Nat} {e : Extent} (hp : Packed cfg.minBlock cfg.memSizeAligned lo (e :: es))
    (hl : Linked cfg.memSizeAligned h.ram p lo (e :: es)) (hend : (h.ram cfg.memSizeAligned).used = true)
    (hlfree : h.lfree ≤ firstGap lo (e :: es)) (hlf : h.lfree ≤ e.start ∨ e.stop ≤ h.lfree)
    (hfit : e.start + (cfg.sizeofStructMem + roundSize cfg newsize) ≤ e.stop) :
    let r := ThirdParty.Lwip.memTrim cfg h (e.start + cfg.sizeofStructMem) newsize
    let c := trimAt cfg.minBlock (cfg.sizeofStructMem + roundSize cfg newsize) e (nextStart cfg.memSizeAligned es)
    r.2 = some (e.start + cfg.sizeofStructMem) ∧ Linked cfg.memSizeAligned r.1.ram p lo (⟨e.start, c⟩ :: es) ∧
    LowerTogether e.start (h.lfree, firstGap lo (e :: es)) (r.1.lfree, firstGap lo (⟨e.start, c⟩ :: es)) ∧
    (∀ x, x < lo → r.1.ram x = h.ram x) ∧ DataKept (⟨e.start, c⟩ :: es) h.ram r.1.ram ∧
    r.1.ram cfg.memSizeAligned = h.ram cfg.memSizeAligned := by
  have hm := cfg.minBlock_pos
  have hmin := cfg.minSizeAligned_pos
  obtain ⟨hlgap, hlused, hlrest⟩ := id hl
  obtain ⟨hgap, hwide, hrest⟩ := id hp
  have hle := hgap.le
  have hhi := hrest.le
  have hlow := (firstGap_bounds hrest).1
  obtain ⟨hnext, hnextM⟩ := nextStart_mem hrest
  have hbehind := hlrest.behind hrest hm
  by_cases hcut : e.start + (cfg.sizeofStructMem + roundSize cfg newsize) < e.stop ∧
      (e.stop < nextStart cfg.memSizeAligned es ∨
        e.start + (cfg.sizeofStructMem + roundSize cfg newsize) + cfg.minBlock ≤ e.stop)
  · have hlf' : e.stop < nextStart cfg.memSizeAligned es → h.lfree ≤ e.stop := by
      intro hlt
      have hfirst := firstGap_of_lt hlt
      unfold firstGap at hlfree
      split at hlfree <;> omega
    obtain ⟨h₁, h₂, h₃, h₄, h₅, h₆⟩ := memTrim_cut hlused hnext hnextM hbehind hend hcut hlf hlf'
    have hkeep := cfg.sizeofStructMem_pos
    have hc : e.start < e.start + (cfg.sizeofStructMem + roundSize cfg newsize) := by omega
    dsimp only
    rw [trimAt, if_pos hcut]
    generalize e.start + (cfg.sizeofStructMem + roundSize cfg newsize) = c at *
    have hcb : c < nextStart cfg.memSizeAligned es := by omega
    refine ⟨h₁, ⟨fun hlt => ?_, h₃, ?_⟩, ?_, fun x hx => h₆ x (by omega) (by omega) (by omega), ?_,
      h₆ _ (by omega) (by omega) Eq.symm⟩
    · have hlt' : lo < e.start := hlt
      rw [h₆ lo (by omega) (by omega) (by omega), hlgap hlt]
    · cases es with
      | nil => exact fun _ => h₄
      | cons e₂ es =>
          have hhi₂ := hrest.2.2.le
          have hwide₂ := hrest.2.1
          have hnext₂ : nextStart cfg.memSizeAligned (e₂ :: es) = e₂.start := rfl
          rw [hnext₂] at h₄ h₅ h₆ hnext hcb
          refine ⟨fun _ => h₄, ?_, ?_⟩
          · rw [h₅ (by omega), hlrest.2.1, if_pos (show c < e₂.start from hcb)]
          · exact hlrest.2.2.congr hm hrest.2.2 fun x hx _ => h₆ x (by omega) (by omega) (by omega)
    · -- the cut is a gap, and lower than those behind
      have hfirst : firstGap c es = c := firstGap_of_lt hcb
      refine .inr ⟨c, hc, h₂, ?_⟩
      unfold firstGap
      dsimp only
      rw [hfirst]
      split <;> omega
    · intro e' he' x hx hx'
      have hstart : c ≤ x ∧ x ≠ c ∧ x ≠ nextStart cfg.memSizeAligned es ∨ x < c := by
        rcases List.mem_cons.mp he' with rfl | he'
        · exact .inr hx'
        · cases es with
          | nil => exact absurd he' List.not_mem_nil
          | cons e₂ es =>
              have hnext₂ : nextStart cfg.memSizeAligned (e₂ :: es) = e₂.start := rfl
              have hwide₂ := hrest.2.1
              rw [hnext₂] at hcb ⊢
              rcases List.mem_cons.mp he' with rfl | he₂
              · omega
              · have := (hrest.2.2.bounds e' he₂).1
                omega
      have hea : e.start < x := by
        rcases List.mem_cons.mp he' with rfl | he'
        · exact hx
        · have := (hrest.bounds e' he').1
          omega
      exact h₆ x (by omega) (by omega) (by omega)
  · have hstays := memTrim_stays hlused (by unfold MemConfig.minBlock at hwide; omega) hnext hnextM hbehind hend
      hfit hcut
    have hself : (⟨e.start, e.stop⟩ : Extent) = e := rfl
    dsimp only
    rw [trimAt, if_neg hcut, hstays, hself]
    exact ⟨rfl, hl, .inl ⟨rfl, rfl⟩, fun _ _ => rfl, fun _ _ _ _ _ => rfl, rfl⟩

/-- **Trimming an extent** cuts it in the list. -/
theorem Linked.memTrim {newsize : Nat} : ∀ {es : List Extent} {p lo : Nat} {e' : Extent},
    Packed cfg.minBlock cfg.memSizeAligned lo es → Linked cfg.memSizeAligned h.ram p lo es →
    (h.ram cfg.memSizeAligned).used = true → h.lfree ≤ firstGap lo es → (h.lfree ≤ a ∨ e'.stop ≤ h.lfree) →
    e' ∈ es → e'.start = a →
    a + (cfg.sizeofStructMem + roundSize cfg newsize) ≤ e'.stop →
    let r := ThirdParty.Lwip.memTrim cfg h (a + cfg.sizeofStructMem) newsize
    let es' := shrink cfg.minBlock (cfg.sizeofStructMem + roundSize cfg newsize) cfg.memSizeAligned a es
    r.2 = some (a + cfg.sizeofStructMem) ∧ Linked cfg.memSizeAligned r.1.ram p lo es' ∧
    LowerTogether a (h.lfree, firstGap lo es) (r.1.lfree, firstGap lo es') ∧
    (∀ x, x < lo → r.1.ram x = h.ram x) ∧ DataKept es' h.ram r.1.ram ∧
    r.1.ram cfg.memSizeAligned = h.ram cfg.memSizeAligned
  | [], _, _, _, _, _, _, _, _, he, _, _ => absurd he List.not_mem_nil
  | e :: es, p, lo, e', hp, hl, hend, hlfree, hlf, he', hstart, hfit => by
      have hm := cfg.minBlock_pos
      obtain ⟨hlgap, hlused, hlrest⟩ := id hl
      obtain ⟨hgap, hwide, hrest⟩ := id hp
      have hle := hgap.le
      have hlow := (firstGap_bounds hrest).1
      by_cases he : e.start = a
      · have hsame := hp.eq_of_start hm he' List.mem_cons_self (hstart.trans he.symm)
        subst hsame
        subst he
        rw [shrink, if_pos rfl]
        exact Linked.memTrim_head hp hl hend hlfree hlf hfit
      · have he'' : e' ∈ es := by
          rcases List.mem_cons.mp he' with rfl | he'
          · exact absurd hstart he
          · exact he'
        have hlfree' : h.lfree ≤ firstGap e.stop es := by
          unfold firstGap at hlfree
          split at hlfree <;> omega
        obtain ⟨h₁, h₂, h₃, h₄, h₅, h₆⟩ := Linked.memTrim hrest hlrest hend hlfree' hlf he'' hstart hfit
        have hstop := (hrest.bounds e' he'').1
        rw [shrink, if_neg he]
        refine ⟨h₁, ⟨fun hlt => ?_, ?_, h₂⟩, ?_, fun x hx => h₄ x (by omega), ?_, h₆⟩
        · rw [h₄ lo (by omega), hlgap hlt]
        · rw [h₄ e.start (by omega), hlused]
        · unfold firstGap at hlfree ⊢
          split at hlfree
          · -- the gap in front is the lowest, and stays it
            rw [if_pos ‹_›, if_pos ‹_›]
            rcases h₃ with ⟨h₃, -⟩ | ⟨c, hc, h₃, -⟩
            · exact .inl ⟨h₃, rfl⟩
            · exact .inr ⟨c, hc, h₃, (Nat.min_eq_left (by omega)).symm⟩
          · rwa [if_neg ‹_›, if_neg ‹_›]
        · exact List.forall_mem_cons.mpr ⟨fun x _ hx => h₄ x hx, h₅⟩

/-- What `mem_trim` does to the extents. -/
def trimExtents (cfg : MemConfig) (es : List Extent) (e : Extent) (newsize : Nat) : List Extent × Option Nat :=
  if e.stop < e.start + (cfg.sizeofStructMem + roundSize cfg newsize) then (es, none)
  else (shrink cfg.minBlock (cfg.sizeofStructMem + roundSize cfg newsize) cfg.memSizeAligned e.start es,
    some (e.start + cfg.sizeofStructMem))

/-- Trimming keeps the headers, also while `lfree` is below the lowest gap. -/
theorem Headers.memTrim {e : Extent} (hh : Headers cfg h es) (hlfree : h.lfree ≤ firstGap 0 es)
    (hlf : h.lfree ≤ e.start ∨ e.stop ≤ h.lfree) (he : e ∈ es) (newsize : Nat) :
    Headers cfg (memTrim cfg h (e.start + cfg.sizeofStructMem) newsize).1 (trimExtents cfg es e newsize).1 ∧
    LowerTogether e.start (h.lfree, firstGap 0 es) ((memTrim cfg h (e.start + cfg.sizeofStructMem) newsize).1.lfree,
      firstGap 0 (trimExtents cfg es e newsize).1) ∧
    (memTrim cfg h (e.start + cfg.sizeofStructMem) newsize).2 = (trimExtents cfg es e newsize).2 ∧
    DataKept (trimExtents cfg es e newsize).1 h.ram
      (memTrim cfg h (e.start + cfg.sizeofStructMem) newsize).1.ram := by
  obtain ⟨hpacked, hlinked, hend⟩ := id hh
  have hmin := cfg.minSizeAligned_pos
  obtain ⟨hlo, hwide, hhi⟩ := hpacked.bounds e he
  unfold MemConfig.minBlock at hwide
  unfold trimExtents
  split
  · next hgrow =>
      obtain ⟨q, hmem⟩ : ∃ q, h.ram e.start = ⟨e.stop, q, true⟩ := hlinked.header he
      rw [memTrim_grow hmem (by omega) hhi (by omega)]
      exact ⟨hh, .inl ⟨rfl, rfl⟩, rfl, fun _ _ _ _ _ => rfl⟩
  · next hfit =>
      obtain ⟨h₁, h₂, h₃, -, h₅, h₆⟩ := hlinked.memTrim hpacked hend.2 hlfree hlf he rfl (Nat.le_of_not_lt hfit)
      have hround : cfg.minSizeAligned ≤ roundSize cfg newsize := roundSize_min newsize
      exact ⟨⟨shrink_packed (by unfold MemConfig.minBlock; omega) hpacked, h₂, h₆ ▸ hend⟩, h₃, h₁, h₅⟩

/-- **`mem_trim` shrinks.** -/
theorem Represents.memTrim {e : Extent} (hr : Represents cfg h es) (he : e ∈ es) (newsize : Nat) :
    Represents cfg (memTrim cfg h (e.start + cfg.sizeofStructMem) newsize).1 (trimExtents cfg es e newsize).1 ∧
    (memTrim cfg h (e.start + cfg.sizeofStructMem) newsize).2 = (trimExtents cfg es e newsize).2 ∧
    DataKept (trimExtents cfg es e newsize).1 h.ram
      (memTrim cfg h (e.start + cfg.sizeofStructMem) newsize).1.ram := by
  obtain ⟨hheaders, hlower, hptr, hdata⟩ := hr.headers.memTrim (Nat.le_of_eq hr.lfree)
    (hr.lfree ▸ firstGap_outside hr.packed he) he newsize
  refine ⟨hheaders.represents ?_, hptr, hdata⟩
  have hlfree := hr.lfree
  rcases hlower with ⟨hl, hg⟩ | ⟨c, -, hl, hg⟩
  · exact hl.trans (hlfree.trans hg.symm)
  · exact hl.trans (hlfree ▸ hg.symm)

end ThirdParty.Lwip
