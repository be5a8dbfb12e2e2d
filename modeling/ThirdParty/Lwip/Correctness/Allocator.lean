import ThirdParty.Lib.Run
import ThirdParty.Lwip.Correctness.Heap

/-!
# `Lwip.Correctness.Allocator` — the heap and its clients, over whole runs

`Arena` says what the heap is for: a set of used extents and the pointers handed out, with no headers.
`heap_refines_arena` is that the heap refines it: after any calls, the heap has handed out the very pointers that first
fit over the gaps gives. What the clients see then follows from the arena.
-/

namespace ThirdParty.Lwip

open Lib

/-- Used extents, and what the clients hold. -/
structure Arena where
  used : List Extent
  live : Live

section
variable (cfg : MemConfig)

/-- The extent of a block in use. -/
def Arena.extent (a : Arena) (rmem : Nat) : Option Extent := a.used.find? fun e => e.start + cfg.sizeofStructMem = rmem

/-- The same, by first fit over the gaps. -/
def arenaStep (a : Arena) : MemAct → Option Arena
  | .malloc size =>
      let r := mallocExtents cfg a.used size
      some { used := r.1, live := a.live.malloc r.2 (roundSize cfg size) }
  | .free rmem =>
      if a.live.Holds rmem then
        some { used := release (rmem - cfg.sizeofStructMem) a.used, live := a.live.free rmem }
      else none
  | .trim rmem newsize =>
      match a.extent cfg rmem with
      | some e =>
          let r := trimExtents cfg a.used e newsize
          if a.live.Holds rmem then some { used := r.1, live := a.live.trim rmem r.2 (roundSize cfg newsize) } else none
      | none => none
  | .store rmem x _ => if ∃ b ∈ a.live, b.1 = rmem ∧ Overlaps cfg rmem b.2 x then some a else none

end

/-- The arena with nothing in use. -/
def Arena.init : Arena := { used := [], live := [] }

variable {cfg : MemConfig} {s s' : MemSys} {a a' : Arena} {act : MemAct}

/-! ## What is handed out lies in the used extents -/

/-- The blocks the clients hold are the used extents: one each, with the bytes they may use inside. -/
structure ArenaInv (cfg : MemConfig) (a : Arena) : Prop where
  packed  : Packed cfg.minBlock cfg.memSizeAligned 0 a.used
  aligned : AlignedTo cfg.memAlignment a.used
  starts  : ∀ p, a.live.Holds p ↔ ∃ e ∈ a.used, e.start + cfg.sizeofStructMem = p
  inside  : ∀ b ∈ a.live, ∀ e ∈ a.used, e.start + cfg.sizeofStructMem = b.1 → b.1 + b.2 ≤ e.stop
  nodup   : (a.live.map Prod.fst).Nodup

theorem ArenaInv.init : ArenaInv cfg Arena.init where
  packed  := .inr (by have := cfg.holds; unfold MemConfig.minBlock; omega)
  aligned := fun _ he => absurd he List.not_mem_nil
  starts  := fun p => by simp [Arena.init, Live.Holds]
  inside  := fun _ hb => absurd hb List.not_mem_nil
  nodup   := List.nodup_nil

theorem roundSize_dvd (size : Nat) : cfg.memAlignment ∣ roundSize cfg size := by
  obtain ⟨k, hk⟩ := cfg.aligned
  have hbits : cfg.memAlignment ∣ 2 ^ cfg.memSizeBits := by
    rw [hk]
    exact Nat.pow_dvd_pow 2 ((Nat.pow_le_pow_iff_right (by decide)).mp (hk ▸ cfg.align_le))
  unfold roundSize
  dsimp only
  split
  · exact (lwipMemAlignSize_spec cfg.aligned _).2.2
  · exact (Nat.dvd_mod_iff hbits).mpr (lwipMemAlignSize_spec cfg.aligned _).2.2

theorem sizeofStructMem_dvd : cfg.memAlignment ∣ cfg.sizeofStructMem := (lwipMemAlignSize_spec cfg.aligned _).2.2

theorem memSizeAligned_dvd : cfg.memAlignment ∣ cfg.memSizeAligned := (lwipMemAlignSize_spec cfg.aligned _).2.2

theorem Arena.extent_eq_some (h : ArenaInv cfg a) {e : Extent} :
    a.extent cfg (e.start + cfg.sizeofStructMem) = some e ↔ e ∈ a.used := by
  unfold Arena.extent
  constructor
  · exact List.mem_of_find?_eq_some
  · intro he
    cases hfind : a.used.find? fun e' => e'.start + cfg.sizeofStructMem = e.start + cfg.sizeofStructMem with
    | none => simpa using List.find?_eq_none.mp hfind e he
    | some e' =>
        have hstart : e'.start + cfg.sizeofStructMem = e.start + cfg.sizeofStructMem := by
          simpa using List.find?_some hfind
        exact congrArg some (h.packed.eq_of_start cfg.minBlock_pos (List.mem_of_find?_eq_some hfind) he (by omega))

theorem ArenaInv.malloc (h : ArenaInv cfg a) (size : Nat) :
    ArenaInv cfg ⟨(mallocExtents cfg a.used size).1,
      a.live.malloc (mallocExtents cfg a.used size).2 (roundSize cfg size)⟩ := by
  unfold mallocExtents
  split
  · exact h
  cases hplace : place cfg.minBlock (cfg.sizeofStructMem + roundSize cfg size) cfg.memSizeAligned 0 a.used with
  | none => exact h
  | some r =>
      obtain ⟨x, used⟩ := r
      have hround : cfg.minSizeAligned ≤ roundSize cfg size := roundSize_min size
      have hpos := cfg.sizeofStructMem_pos
      obtain ⟨stop, hstop, hmem⟩ := place_mem hplace
      have hpacked := place_packed (by unfold MemConfig.minBlock; omega) h.packed hplace
      -- the room that is taken meets no extent, so its start is new
      have hroom := (place_least h.packed hplace).1.2.2
      have hnew : ∀ e ∈ a.used, e.start ≠ x := by
        intro e he heq
        have := hroom e he
        have := (h.packed.bounds e he).2.1
        have := cfg.minBlock_pos
        omega
      refine ⟨hpacked, h.aligned.place (Nat.dvd_add sizeofStructMem_dvd (roundSize_dvd size)) memSizeAligned_dvd
        (Nat.dvd_zero _) hplace, fun p => ?_, fun b hb e he hstart => ?_, ?_⟩
      · change p ∈ List.map Prod.fst ((_, _) :: a.live) ↔ _
        rw [List.map_cons, List.mem_cons]
        have hstarts := h.starts p
        unfold Live.Holds at hstarts
        rw [hstarts]
        constructor
        · rintro (rfl | ⟨e, he, hp⟩)
          · exact ⟨_, (hmem _).mpr (.inl rfl), rfl⟩
          · exact ⟨e, (hmem e).mpr (.inr he), hp⟩
        · rintro ⟨e, he, hp⟩
          rcases (hmem e).mp he with rfl | he
          · exact .inl hp.symm
          · exact .inr ⟨e, he, hp⟩
      · rcases List.mem_cons.mp hb with rfl | hb
        · rcases (hmem e).mp he with rfl | he
          · dsimp only
            omega
          · exact absurd (by dsimp only at hstart; omega) (hnew e he)
        · rcases (hmem e).mp he with rfl | he
          · obtain ⟨e', he', hp⟩ := (h.starts b.1).mp (List.mem_map_of_mem hb)
            exact absurd (by dsimp only at hstart; omega) (hnew e' he')
          · exact h.inside b hb e he hstart
      · refine List.nodup_cons.mpr ⟨fun hheld => ?_, h.nodup⟩
        obtain ⟨e, he, hp⟩ := (h.starts _).mp hheld
        exact hnew e he (Nat.add_right_cancel hp)

theorem ArenaInv.free (h : ArenaInv cfg a) {rmem : Nat} (hrmem : a.live.Holds rmem) :
    ArenaInv cfg ⟨release (rmem - cfg.sizeofStructMem) a.used, a.live.free rmem⟩ := by
  obtain ⟨e₀, -, rfl⟩ := (h.starts rmem).mp hrmem
  rw [Nat.add_sub_cancel]
  refine ⟨release_packed cfg.minBlock_pos h.packed, h.aligned.release, fun p => ?_, fun b hb e he hstart => ?_,
    h.nodup.sublist (List.filter_sublist.map Prod.fst)⟩
  · have hholds : (a.live.free (e₀.start + cfg.sizeofStructMem)).Holds p ↔
        a.live.Holds p ∧ p ≠ e₀.start + cfg.sizeofStructMem := by
      simp only [Live.Holds, Live.free, List.mem_map, List.mem_filter, decide_eq_true_eq]
      constructor
      · rintro ⟨b, ⟨hb, hne⟩, rfl⟩
        exact ⟨⟨b, hb, rfl⟩, hne⟩
      · rintro ⟨⟨b, hb, rfl⟩, hne⟩
        exact ⟨b, ⟨hb, hne⟩, rfl⟩
    rw [hholds, h.starts p]
    constructor
    · rintro ⟨⟨e, he, rfl⟩, hne⟩
      exact ⟨e, mem_release.mpr ⟨he, by omega⟩, rfl⟩
    · rintro ⟨e, he, rfl⟩
      obtain ⟨he, hne⟩ := mem_release.mp he
      exact ⟨⟨e, he, rfl⟩, by omega⟩
  · exact h.inside b (List.mem_of_mem_filter hb) e (mem_release.mp he).1 hstart

/-- `mem_trim` moves no block. -/
theorem Live.map_fst_trim (live : Live) (rmem : Nat) (r : Option Nat) (size : Nat) :
    (live.trim rmem r size).map Prod.fst = live.map Prod.fst := by
  unfold Live.trim
  split
  swap
  · rfl
  rw [List.map_map]
  refine List.map_congr_left fun b _ => ?_
  simp only [Function.comp_apply]
  split
  · exact Eq.symm ‹_›
  · rfl

theorem ArenaInv.trim (h : ArenaInv cfg a) {e₀ : Extent} (he₀ : e₀ ∈ a.used) (newsize : Nat) :
    ArenaInv cfg ⟨(trimExtents cfg a.used e₀ newsize).1, a.live.trim (e₀.start + cfg.sizeofStructMem)
      (trimExtents cfg a.used e₀ newsize).2 (roundSize cfg newsize)⟩ := by
  unfold trimExtents
  split
  · exact h
  next hfit =>
  have hround : cfg.minSizeAligned ≤ roundSize cfg newsize := roundSize_min newsize
  have hm := cfg.minBlock_pos
  refine ⟨shrink_packed (by unfold MemConfig.minBlock; omega) h.packed,
    h.aligned.shrink (Nat.dvd_add sizeofStructMem_dvd (roundSize_dvd newsize)), fun p => ?_, fun b hb e he hstart => ?_,
    by rw [Live.map_fst_trim]; exact h.nodup⟩
  · -- the blocks held and the starts are what they were
    unfold Live.Holds
    dsimp only
    rw [Live.map_fst_trim]
    have hstarts := h.starts p
    unfold Live.Holds at hstarts
    rw [hstarts]
    have hext : ∀ es : List Extent, (∃ e ∈ es, e.start + cfg.sizeofStructMem = p) ↔
        ∃ x ∈ es.map Extent.start, x + cfg.sizeofStructMem = p := by simp
    rw [hext, hext, shrink_starts]
  · simp only [Live.trim, Option.isSome_some, if_true, List.mem_map] at hb
    obtain ⟨b', hb', rfl⟩ := hb
    rcases mem_shrink hm h.packed he with ⟨he, hne⟩ | ⟨hstart', e', he', hstart'', -, hkeep⟩
    · split at hstart
      · dsimp only at hstart
        omega
      · rw [if_neg ‹_›]
        exact h.inside b' hb' e he hstart
    · obtain rfl := h.packed.eq_of_start hm he' he₀ hstart''
      split at hstart
      · rw [if_pos ‹_›]
        have := hkeep (by omega)
        dsimp only
        omega
      · omega

theorem ArenaInv.step (h : ArenaInv cfg a) (hs : arenaStep cfg a act = some a') : ArenaInv cfg a' := by
  cases act with
  | malloc size =>
      obtain rfl := Option.some.inj hs
      exact h.malloc size
  | free rmem =>
      simp only [arenaStep] at hs
      split at hs
      · obtain rfl := Option.some.inj hs
        exact h.free ‹_›
      · cases hs
  | trim rmem newsize =>
      simp only [arenaStep] at hs
      split at hs
      · next e hext =>
          split at hs
          · obtain rfl := Option.some.inj hs
            have hp : e.start + cfg.sizeofStructMem = rmem := by simpa using List.find?_some hext
            subst hp
            exact h.trim (List.mem_of_find?_eq_some hext) newsize
          · cases hs
      · cases hs
  | store rmem x m =>
      simp only [arenaStep] at hs
      split at hs
      · obtain rfl := Option.some.inj hs
        exact h
      · cases hs

/-! ## The heap refines the arena -/

/-- The heap is the arena's, and the clients hold the same blocks. -/
structure Refines (cfg : MemConfig) (s : MemSys) (a : Arena) : Prop where
  inv  : ArenaInv cfg a
  heap : Represents cfg s.heap a.used
  live : s.live = a.live

theorem Refines.init (ram : Nat → Mem) : Refines cfg (MemSys.init cfg ram) Arena.init :=
  ⟨ArenaInv.init, Represents.init ram, rfl⟩

/-- What the clients may write is no header. -/
theorem ArenaInv.store (h : ArenaInv cfg a) {b : Nat × Nat} (hb : b ∈ a.live) {x : Nat}
    (hx : Overlaps cfg b.1 b.2 x) : ∃ e ∈ a.used, e.start < x ∧ x < e.stop := by
  obtain ⟨e, he, hp⟩ := (h.starts b.1).mp (List.mem_map_of_mem hb)
  have hin := h.inside b hb e he hp
  obtain ⟨hlo, hhi⟩ := hx
  exact ⟨e, he, by omega, by omega⟩

/-- Headers are not inside extents. -/
theorem Linked.store {hi m : Nat} {ram ram' : Nat → Mem} : ∀ {es : List Extent} {p lo : Nat}, Packed m hi lo es →
    Linked hi ram p lo es → (∀ x, (∀ e ∈ es, x ≤ e.start ∨ e.stop ≤ x) → lo ≤ x → ram' x = ram x) →
    Linked hi ram' p lo es
  | [],      p, lo, _, h, hsame => fun hlt =>
      (hsame lo (fun e he => absurd he List.not_mem_nil) (Nat.le_refl _)).trans (h hlt)
  | e :: es, p, lo, hp, h, hsame => by
      obtain ⟨hgap, hwide, hrest⟩ := hp
      have hle := hgap.le
      refine ⟨fun hlt => ?_, ?_, ?_⟩
      · rw [hsame lo ?_ (Nat.le_refl _), h.1 hlt]
        intro e' he'
        rcases List.mem_cons.mp he' with rfl | he'
        · exact .inl hle
        · have := (hrest.bounds e' he').1
          exact .inl (by omega)
      · rw [hsame e.start ?_ hle, h.2.1]
        intro e' he'
        rcases List.mem_cons.mp he' with rfl | he'
        · exact .inl (Nat.le_refl _)
        · have := (hrest.bounds e' he').1
          exact .inl (by omega)
      · refine Linked.store hrest h.2.2 fun x hx hlo => hsame x ?_ (by omega)
        exact List.forall_mem_cons.mpr ⟨.inr hlo, hx⟩

/-- `x` is inside a used extent. -/
def Inside (used : List Extent) (x : Nat) : Prop := ∃ e ∈ used, e.start < x ∧ x < e.stop

theorem DataKept.inside {es : List Extent} {ram ram' : Nat → Mem} (h : DataKept es ram ram') {x : Nat}
    (hx : Inside es x) : ram' x = ram x := by
  obtain ⟨e, he, hlo, hhi⟩ := hx
  exact h e he x hlo hhi

/-- **One step of the heap is one step of the arena**, and inside the blocks that stay only a client writes. -/
theorem Refines.step (h : Refines cfg s a) (act : MemAct) :
    (memStep cfg s act = none ∧ arenaStep cfg a act = none) ∨
    ∃ s' a', memStep cfg s act = some s' ∧ arenaStep cfg a act = some a' ∧ Refines cfg s' a' ∧
      ∀ x, (∀ rmem m, act ≠ .store rmem x m) → Inside a.used x → Inside a'.used x →
        s'.heap.ram x = s.heap.ram x := by
  obtain ⟨hinv, hheap, hlive⟩ := h
  cases act with
  | malloc size =>
      obtain ⟨hrep, hptr, hdata⟩ := hheap.memMalloc size
      refine .inr ⟨_, _, rfl, rfl, ⟨hinv.malloc size, hrep, ?_⟩, fun x _ hx _ => hdata.inside hx⟩
      rw [hptr, hlive]
  | free rmem =>
      simp only [memStep, arenaStep, hlive]
      by_cases hholds : a.live.Holds rmem
      swap
      · rw [if_neg hholds, if_neg hholds]
        exact .inl ⟨rfl, rfl⟩
      rw [if_pos hholds, if_pos hholds]
      have hfree := hinv.free hholds
      obtain ⟨e, he, rfl⟩ := (hinv.starts rmem).mp hholds
      rw [Nat.add_sub_cancel] at hfree ⊢
      obtain ⟨hrep, hdata⟩ := hheap.memFree ⟨e, he, rfl⟩
      exact .inr ⟨_, _, rfl, rfl, ⟨hfree, hrep, rfl⟩, fun x _ _ hx => hdata.inside hx⟩
  | trim rmem newsize =>
      simp only [memStep, arenaStep, hlive]
      by_cases hholds : a.live.Holds rmem
      swap
      · rw [if_neg hholds]
        split
        · rw [if_neg hholds]
          exact .inl ⟨rfl, rfl⟩
        · exact .inl ⟨rfl, rfl⟩
      rw [if_pos hholds]
      obtain ⟨e, he, rfl⟩ := (hinv.starts rmem).mp hholds
      rw [(Arena.extent_eq_some hinv).mpr he]
      dsimp only
      rw [if_pos hholds]
      obtain ⟨hrep, hptr, hdata⟩ := hheap.memTrim he newsize
      refine .inr ⟨_, _, rfl, rfl, ⟨hinv.trim he newsize, hrep, ?_⟩, fun x _ _ hx => hdata.inside hx⟩
      rw [hptr]
  | store rmem x m =>
      simp only [memStep, arenaStep, hlive]
      by_cases hguard : ∃ b ∈ a.live, b.1 = rmem ∧ Overlaps cfg rmem b.2 x
      swap
      · rw [if_neg hguard, if_neg hguard]
        exact .inl ⟨rfl, rfl⟩
      rw [if_pos hguard, if_pos hguard]
      obtain ⟨b, hb, rfl, hx⟩ := hguard
      obtain ⟨e, he, hlo, hhi⟩ := hinv.store hb hx
      have hother : ∀ y, y ≠ x → Function.update s.heap.ram x m y = s.heap.ram y :=
        fun y hy => Function.update_of_ne hy _ _
      have hend : cfg.memSizeAligned ≠ x := by
        have := (hinv.packed.bounds e he).2.2
        omega
      refine .inr ⟨_, _, rfl, rfl, ⟨hinv, ⟨hheap.packed, ?_, ?_, hheap.lfree⟩, rfl⟩, fun y hact _ _ => ?_⟩
      · refine hheap.linked.store hheap.packed fun y hy _ => hother y ?_
        rintro rfl
        have := hy e he
        omega
      · dsimp only
        rw [hother _ hend]
        exact hheap.ramEnd
      · exact hother y fun hyx => hact b.1 m (hyx ▸ rfl)

/-- The blocks held are aligned and lie in the heap, and neither they nor their headers overlap. -/
theorem Refines.blocks (h : Refines cfg s a) :
    (∀ b ∈ s.live, cfg.memAlignment ∣ b.1 ∧ cfg.sizeofStructMem ≤ b.1 ∧ b.1 + b.2 ≤ cfg.memSizeAligned) ∧
    ∀ b ∈ s.live, ∀ b' ∈ s.live, b.1 ≠ b'.1 →
      b.1 + b.2 ≤ b'.1 - cfg.sizeofStructMem ∨ b'.1 + b'.2 ≤ b.1 - cfg.sizeofStructMem := by
  obtain ⟨hinv, -, hlive⟩ := h
  rw [hlive]
  have hextent : ∀ b ∈ a.live, ∃ e ∈ a.used, e.start + cfg.sizeofStructMem = b.1 ∧ b.1 + b.2 ≤ e.stop := by
    intro b hb
    obtain ⟨e, he, hp⟩ := (hinv.starts b.1).mp (List.mem_map_of_mem hb)
    exact ⟨e, he, hp, hinv.inside b hb e he hp⟩
  constructor
  · intro b hb
    obtain ⟨e, he, hp, hin⟩ := hextent b hb
    have := (hinv.packed.bounds e he).2.2
    refine ⟨?_, by omega, by omega⟩
    rw [← hp]
    exact Nat.dvd_add (hinv.aligned e he).1 sizeofStructMem_dvd
  · intro b hb b' hb' hne
    obtain ⟨e, he, hp, hin⟩ := hextent b hb
    obtain ⟨e', he', hp', hin'⟩ := hextent b' hb'
    have hee : e ≠ e' := by
      rintro rfl
      omega
    rcases hinv.packed.disjoint he he' hee with h | h <;> omega

/-- No two of the blocks held overlap, nor one of them the other's header. -/
theorem Refines.pairwise (h : Refines cfg s a) : s.live.Pairwise fun b b' =>
    b.1 + b.2 ≤ b'.1 - cfg.sizeofStructMem ∨ b'.1 + b'.2 ≤ b.1 - cfg.sizeofStructMem := by
  have hnodup : s.live.Pairwise fun b b' => b.1 ≠ b'.1 := List.pairwise_map.mp (h.live ▸ h.inv.nodup)
  exact hnodup.imp_of_mem fun hb hb' hne => h.blocks.2 _ hb _ hb' hne

/-- A block that is not given back stays, with the size it had or the size it was trimmed to. -/
theorem memStep_stays {p n : Nat} (hs : memStep cfg s act = some s') (hb : (p, n) ∈ s.live) (hfree : act ≠ .free p) :
    ∃ n', (p, n') ∈ s'.live ∧ (n' = n ∨ ∃ k, act = .trim p k ∧ n' = roundSize cfg k) := by
  cases act with
  | malloc size =>
      obtain rfl := Option.some.inj hs
      refine ⟨n, ?_, .inl rfl⟩
      dsimp only [Live.malloc]
      split
      · exact List.mem_cons_of_mem _ hb
      · exact hb
  | free rmem =>
      simp only [memStep] at hs
      split at hs
      · obtain rfl := Option.some.inj hs
        exact ⟨n, List.mem_filter.mpr ⟨hb, by simpa using fun h : p = rmem => hfree (by rw [h])⟩, .inl rfl⟩
      · cases hs
  | trim rmem newsize =>
      simp only [memStep] at hs
      split at hs
      swap
      · cases hs
      obtain rfl := Option.some.inj hs
      dsimp only [Live.trim]
      split
      swap
      · exact ⟨n, hb, .inl rfl⟩
      by_cases hp : p = rmem
      · subst hp
        exact ⟨_, List.mem_map.mpr ⟨(p, n), hb, if_pos rfl⟩, .inr ⟨newsize, rfl, rfl⟩⟩
      · exact ⟨n, List.mem_map.mpr ⟨(p, n), hb, if_neg hp⟩, .inl rfl⟩
  | store rmem y m =>
      simp only [memStep] at hs
      split at hs
      · obtain rfl := Option.some.inj hs
        exact ⟨n, hb, .inl rfl⟩
      · cases hs

/-- A step changes no byte of a block that it leaves, unless the owner writes it. -/
theorem Refines.undisturbed (h : Refines cfg s a) {p n n' x : Nat} (hs : memStep cfg s act = some s')
    (hb : (p, n) ∈ s.live) (hx : Overlaps cfg p n x) (hb' : (p, n') ∈ s'.live) (hx' : Overlaps cfg p n' x)
    (hstore : ∀ m, act ≠ .store p x m) : s'.heap.ram x = s.heap.ram x := by
  rcases h.step act with ⟨hnone, -⟩ | ⟨s'', a', hs', -, hrel, hkept⟩
  · exact absurd hs (by simp [hnone])
  obtain rfl := Option.some.inj (hs.symm.trans hs')
  by_cases hact : ∃ rmem m, act = .store rmem x m
  · -- another client cannot write there, since its block is elsewhere
    obtain ⟨rmem, m, rfl⟩ := hact
    simp only [memStep] at hs
    split at hs
    · next hguard =>
        obtain ⟨c, hc, rfl, hxc⟩ := hguard
        have hne : p ≠ c.1 := fun h => hstore m (h ▸ rfl)
        have hheader := (h.blocks.1 _ hb).2.1
        have hheader' := (h.blocks.1 c hc).2.1
        have := h.blocks.2 _ hb c hc hne
        unfold Overlaps at hx hxc
        dsimp only at this hheader
        omega
    · cases hs
  · refine hkept x (fun rmem m h => hact ⟨rmem, m, h⟩) (h.inv.store (h.live ▸ hb) hx) ?_
    exact hrel.inv.store (hrel.live ▸ hb') hx'

/-- The arena follows every run of the heap. -/
theorem Refines.run {tr : List (MemSys × MemAct)} (h : Run (memStep cfg) s tr s') (h0 : Refines cfg s a) :
    ∃ a', runActions (arenaStep cfg) a (tr.map Prod.snd) = some a' ∧ Refines cfg s' a' := by
  induction h with
  | nil => exact ⟨a, rfl, h0⟩
  | @snoc tr t t' act hr hs ih =>
      obtain ⟨a', hrun, hrel⟩ := ih
      rcases hrel.step act with ⟨hnone, -⟩ | ⟨t'', a'', hs', ha', hrel', -⟩
      · exact absurd hs (by simp [hnone])
      · obtain rfl := Option.some.inj (hs.symm.trans hs')
        refine ⟨a'', ?_, hrel'⟩
        rw [List.map_append, runActions_append, hrun, Option.bind_some]
        simp [runActions, ha']

/-- Heaps that refine one arena are told apart by no calls. -/
theorem Refines.observed {acts : List MemAct} (h : Refines cfg s a) :
    (runActions (memStep cfg) s acts).map MemSys.live = (runActions (arenaStep cfg) a acts).map Arena.live := by
  induction acts generalizing s a with
  | nil => exact congrArg some h.live
  | cons act acts ih =>
      simp only [runActions]
      rcases h.step act with ⟨hnone, hnone'⟩ | ⟨s', a', hs, ha, hrel, -⟩
      · rw [hnone, hnone']
        rfl
      · rw [hs, ha]
        exact ih hrel

/-- **The heap refines first fit over gaps**: whatever calls are made, in memory that held anything, the heap has
    handed out the pointers that the arena hands out, and the clients hold the same blocks. -/
theorem heap_refines_arena (ram : Nat → Mem) (acts : List MemAct) :
    (runActions (memStep cfg) (MemSys.init cfg ram) acts).map MemSys.live =
      (runActions (arenaStep cfg) Arena.init acts).map Arena.live :=
  (Refines.init ram).observed

/-- The blocks that are used, read off the headers. -/
def usedBlocks (cfg : MemConfig) (ram : Nat → Mem) : Nat → Nat → List Extent
  | 0,        _   => []
  | fuel + 1, ptr =>
      if ptr < cfg.memSizeAligned then
        let rest := usedBlocks cfg ram fuel (ram ptr).next
        if (ram ptr).used then ⟨ptr, (ram ptr).next⟩ :: rest else rest
      else []

theorem usedBlocks_of_le {ram : Nat → Mem} {ptr : Nat} (fuel : Nat) (h : cfg.memSizeAligned ≤ ptr) :
    usedBlocks cfg ram fuel ptr = [] := by
  cases fuel with
  | zero => rfl
  | succ fuel => exact if_neg (by omega)

theorem usedBlocks_eq {ram : Nat → Mem} : ∀ {es : List Extent} {p lo fuel : Nat},
    Packed cfg.minBlock cfg.memSizeAligned lo es → Linked cfg.memSizeAligned ram p lo es →
    cfg.memSizeAligned < lo + fuel → usedBlocks cfg ram fuel lo = es
  | [], p, lo, fuel, hp, hl, hfuel => by
      rcases Nat.lt_or_ge lo cfg.memSizeAligned with hlt | hge
      · obtain ⟨fuel, rfl⟩ : ∃ n, fuel = n + 1 := ⟨fuel - 1, by omega⟩
        rw [usedBlocks, if_pos hlt, hl hlt]
        exact usedBlocks_of_le fuel (Nat.le_refl _)
      · exact usedBlocks_of_le fuel hge
  | e :: es, p, lo, fuel, hp, hl, hfuel => by
      have hm := cfg.minBlock_pos
      obtain ⟨hgap, hwide, hrest⟩ := hp
      have hhi := hrest.le
      have hle := hgap.le
      have hused : ∀ fuel, cfg.memSizeAligned < e.start + fuel → usedBlocks cfg ram fuel e.start = e :: es := by
        intro fuel hfuel
        obtain ⟨fuel, rfl⟩ : ∃ n, fuel = n + 1 := ⟨fuel - 1, by omega⟩
        rw [usedBlocks, if_pos (by omega), hl.2.1]
        exact congrArg (e :: ·) (usedBlocks_eq hrest hl.2.2 (show _ < e.stop + fuel by omega))
      rcases Nat.lt_or_ge lo e.start with hlt | hge
      · obtain ⟨fuel, rfl⟩ : ∃ n, fuel = n + 1 := ⟨fuel - 1, by omega⟩
        rw [usedBlocks, if_pos (by omega), hl.1 hlt]
        exact hused fuel (by have := hm; rcases hgap with h | h <;> omega)
      · obtain rfl := Nat.le_antisymm hle hge
        exact hused fuel hfuel

/-- The blocks in use in a heap. -/
def Heap.used (cfg : MemConfig) (h : Heap) : List Extent := usedBlocks cfg h.ram (cfg.memSizeAligned + 1) 0

theorem Represents.used {h : Heap} {es : List Extent} (hr : Represents cfg h es) : h.used cfg = es :=
  usedBlocks_eq hr.packed hr.linked (by omega)

/-! ## What the clients see -/

/-- A heap of the default size, for 16-bit offsets and an alignment of four bytes. -/
def wordHeap : MemConfig where
  memSize := 1600
  memAlignment := 4
  minSize := 12
  sizeofMem := 6
  aligned := ⟨2, rfl⟩
  align_le := Nat.le_of_ble_eq_true rfl
  struct := Nat.succ_pos _
  min_pos := Nat.succ_pos _
  holds := Nat.le_of_ble_eq_true rfl
  fits := Nat.le_of_ble_eq_true rfl

/-- A heap just initialized, in memory that is not zero. -/
def wordHeapInit : MemSys := MemSys.init wordHeap fun _ => ⟨7, 7, true⟩

/-- What some calls lead to is reached by a run. -/
theorem wordHeap_run {β : Type} {f : MemSys → β} {v : β} (acts : List MemAct)
    (h : (runActions (memStep wordHeap) wordHeapInit acts).map f = some v) :
    ∃ s tr, Run (memStep wordHeap) wordHeapInit tr s ∧ f s = v := by
  obtain ⟨s, hs, hv⟩ := Option.map_eq_some_iff.mp h
  obtain ⟨tr, hrun, -⟩ := Run.of_runActions hs
  exact ⟨s, tr, hrun, hv⟩

section
variable {ram : Nat → Mem} {tr : List (MemSys × MemAct)}

/-- **`mem_malloc` is first fit, and never fails for want of joining**: in every state of a run it returns `NULL`
    exactly if nothing is asked for or there is no room for the block and its header between the used blocks, and
    else the block is the lowest room there is. -/
theorem memMalloc_first_fit (h : Run (memStep cfg) (MemSys.init cfg ram) tr s) (size : Nat) :
    let need := cfg.sizeofStructMem + roundSize cfg size
    let rooms := {x | Room 0 cfg.memSizeAligned (s.heap.used cfg) x (x + need)}
    ((memMalloc cfg s.heap size).2 = none ↔ cfg.toMemSize size = 0 ∨ rooms = ∅) ∧
    ∀ p, (memMalloc cfg s.heap size).2 = some p → ∃ x, p = x + cfg.sizeofStructMem ∧ IsLeast rooms x := by
  obtain ⟨a, -, hinv, hheap, -⟩ := (Refines.init ram).run h
  have hpos := cfg.sizeofStructMem_pos
  dsimp only
  rw [(hheap.memMalloc size).2.1, hheap.used, Set.eq_empty_iff_forall_notMem]
  unfold mallocExtents
  have hneed : 0 < cfg.sizeofStructMem + roundSize cfg size := by omega
  have hnone := place_eq_none_iff hneed hheap.packed
  by_cases hzero : cfg.toMemSize size = 0
  · rw [if_pos hzero]
    exact ⟨⟨fun _ => .inl hzero, fun _ => rfl⟩, fun p hp => absurd hp.symm (Option.some_ne_none p)⟩
  rw [if_neg hzero]
  cases hplace : place cfg.minBlock (cfg.sizeofStructMem + roundSize cfg size) cfg.memSizeAligned 0 a.used with
  | none => exact ⟨⟨fun _ => .inr (hnone.mp hplace), fun _ => rfl⟩, fun p hp => absurd hp.symm (Option.some_ne_none p)⟩
  | some r =>
      refine ⟨⟨fun hr => absurd hr (Option.some_ne_none _), fun hr => ?_⟩, fun p hp => ?_⟩
      · rcases hr with hr | hr
        · exact absurd hr hzero
        · rw [hnone.mpr hr] at hplace
          cases hplace
      · exact ⟨r.1, (Option.some.inj hp).symm, place_least hheap.packed hplace⟩

/-- **What the clients hold**: in every state of a run, the blocks are aligned and lie in the heap, no block is handed
    out twice, and neither the blocks nor their headers overlap. -/
theorem live_blocks_disjoint (h : Run (memStep cfg) (MemSys.init cfg ram) tr s) :
    (∀ b ∈ s.live, cfg.memAlignment ∣ b.1 ∧ cfg.sizeofStructMem ≤ b.1 ∧ b.1 + b.2 ≤ cfg.memSizeAligned) ∧
    (s.live.map Prod.fst).Nodup ∧
    s.live.Pairwise fun b b' =>
      b.1 + b.2 ≤ b'.1 - cfg.sizeofStructMem ∨ b'.1 + b'.2 ≤ b.1 - cfg.sizeofStructMem := by
  obtain ⟨a, -, hrel⟩ := (Refines.init ram).run h
  exact ⟨hrel.blocks.1, hrel.live ▸ hrel.inv.nodup, hrel.pairwise⟩

/-- Two blocks next to each other. -/
theorem live_blocks_disjoint_two : ∃ s tr, Run (memStep wordHeap) wordHeapInit tr s ∧ s.live = [(28, 16), (8, 12)] ∧
    (28 + 16 ≤ 8 - wordHeap.sizeofStructMem ∨ 8 + 12 ≤ 28 - wordHeap.sizeofStructMem) := by
  obtain ⟨s, tr, hrun, hlive⟩ := wordHeap_run (f := MemSys.live) (v := [(28, 16), (8, 12)])
    [.malloc 10, .malloc 16] (by decide +kernel)
  have hpairwise := (live_blocks_disjoint hrun).2.2
  rw [hlive] at hpairwise
  exact ⟨s, tr, hrun, hlive, List.rel_of_pairwise_cons hpairwise (List.mem_singleton_self _)⟩

/-- A block that was given back in front of another is taken again. -/
theorem memMalloc_first_fit_reused : ∃ s tr, Run (memStep wordHeap) wordHeapInit tr s ∧
    (memMalloc wordHeap s.heap 12).2 = some 8 ∧ ∃ x, 8 = x + wordHeap.sizeofStructMem ∧
      IsLeast {x | Room 0 wordHeap.memSizeAligned (s.heap.used wordHeap) x
        (x + (wordHeap.sizeofStructMem + roundSize wordHeap 12))} x := by
  obtain ⟨s, tr, hrun, hp⟩ := wordHeap_run (f := fun s => (memMalloc wordHeap s.heap 12).2) (v := some 8)
    [.malloc 10, .malloc 16, .free 8] (by decide +kernel)
  exact ⟨s, tr, hrun, hp, (memMalloc_first_fit hrun 12).2 8 hp⟩

/-- **What a client stores it finds again**: in any run that goes on from a state with the block, as long as the block
    is not given back, no trim cuts the byte off, and its own client does not write there. The block is still there,
    with its size or one it was trimmed to. -/
theorem stored_stays (h : Run (memStep cfg) (MemSys.init cfg ram) tr s) {b : Nat × Nat} (hb : b ∈ s.live) {x : Nat}
    (hx : Overlaps cfg b.1 b.2 x) {tr' : List (MemSys × MemAct)} (hrun : Run (memStep cfg) s tr' s')
    (hother : ∀ sa ∈ tr', sa.2 ≠ .free b.1 ∧ (∀ n, sa.2 = .trim b.1 n → Overlaps cfg b.1 (roundSize cfg n) x) ∧
      ∀ m, sa.2 ≠ .store b.1 x m) :
    (∃ n, (b.1, n) ∈ s'.live ∧ (n = b.2 ∨ ∃ sa ∈ tr', ∃ k, sa.2 = .trim b.1 k ∧ n = roundSize cfg k)) ∧
      s'.heap.ram x = s.heap.ram x := by
  obtain ⟨a, -, hrel⟩ := (Refines.init ram).run h
  induction hrun with
  | nil => exact ⟨⟨b.2, hb, .inl rfl⟩, rfl⟩
  | @snoc tr' t t' act hr hs ih =>
      obtain ⟨⟨n, hn, hsize⟩, hsame⟩ := ih fun sa hsa => hother sa (List.mem_append_left _ hsa)
      obtain ⟨hfree, htrim, hstore⟩ := hother (t, act) (List.mem_append_right _ (List.mem_singleton_self _))
      obtain ⟨a', -, hrel'⟩ := hrel.run hr
      obtain ⟨n', hn', hsize'⟩ := memStep_stays hs hn hfree
      -- the byte is in the block before the step and after it
      have hx₁ : Overlaps cfg b.1 n x := by
        rcases hsize with rfl | ⟨sa, hsa, k, hk, rfl⟩
        · exact hx
        · exact (hother sa (List.mem_append_left _ hsa)).2.1 k hk
      have hx₂ : Overlaps cfg b.1 n' x := by
        rcases hsize' with rfl | ⟨k, hk, rfl⟩
        · exact hx₁
        · exact htrim k hk
      refine ⟨⟨n', hn', ?_⟩, (hrel'.undisturbed hs hn hx₁ hn' hx₂ hstore).trans hsame⟩
      rcases hsize' with rfl | ⟨k, hk, rfl⟩
      · exact hsize.imp_right fun ⟨sa, hsa, htrimmed⟩ => ⟨sa, List.mem_append_left _ hsa, htrimmed⟩
      · exact .inr ⟨_, List.mem_append_right _ (List.mem_singleton_self _), k, hk, rfl⟩

/-- The second block is trimmed to 12 bytes, the first is given back and another is taken: what was stored is kept. -/
theorem stored_stays_second :
    ∃ (s s' : MemSys) (tr : List (MemSys × MemAct)), Run (memStep wordHeap) wordHeapInit tr s ∧
    (28, 36) ∈ s.live ∧ s.heap.ram 30 = ⟨1, 2, false⟩ ∧ s'.live = [(8, 12), (28, 12)] ∧
    s'.heap.ram 30 = s.heap.ram 30 := by
  have hsome : ((runActions (memStep wordHeap) wordHeapInit [.malloc 10, .malloc 36, .store 28 30 ⟨1, 2, false⟩]).bind
      fun s => (runActions (memStep wordHeap) s [.trim 28 12, .free 8, .malloc 5]).map fun s' =>
        (s.live, s.heap.ram 30, s'.live)) = some ([(28, 36), (8, 12)], ⟨1, 2, false⟩, [(8, 12), (28, 12)]) := by
    decide +kernel
  obtain ⟨s, hs, hrest⟩ := Option.bind_eq_some_iff.mp hsome
  obtain ⟨s', hs', heq⟩ := Option.map_eq_some_iff.mp hrest
  obtain ⟨hlive, hval, hlive'⟩ : s.live = _ ∧ s.heap.ram 30 = _ ∧ s'.live = _ := by simpa using heq
  obtain ⟨tr, hrun, -⟩ := Run.of_runActions hs
  obtain ⟨tr', hrun', hacts⟩ := Run.of_runActions hs'
  have hb : (28, 36) ∈ s.live := hlive ▸ List.mem_cons_self
  refine ⟨s, s', tr, hrun, hb, hval, hlive', (stored_stays hrun hb (by decide) hrun' fun sa hsa => ?_).2⟩
  have hact : sa.2 ∈ [MemAct.trim 28 12, .free 8, .malloc 5] := hacts ▸ List.mem_map_of_mem hsa
  simp only [List.mem_cons, List.not_mem_nil, or_false] at hact
  rcases hact with h | h | h <;> rw [h]
  · exact ⟨nofun, fun n hn => by cases hn; decide, nofun⟩
  · exact ⟨by simp, nofun, nofun⟩
  · exact ⟨nofun, nofun, nofun⟩

/-- **A heap that was given everything back is a new heap**: no later calls tell it from one that was just
    initialized, whatever was asked for and however it was freed before. -/
theorem freed_heap_is_new (h : Run (memStep cfg) (MemSys.init cfg ram) tr s) (hlive : s.live = [])
    (ram' : Nat → Mem) (acts : List MemAct) :
    (runActions (memStep cfg) s acts).map MemSys.live =
      (runActions (memStep cfg) (MemSys.init cfg ram') acts).map MemSys.live := by
  obtain ⟨a, -, hrel⟩ := (Refines.init ram).run h
  have hlive' : a.live = [] := hrel.live ▸ hlive
  have hused : a.used = [] := by
    refine List.eq_nil_iff_forall_not_mem.mpr fun e he => ?_
    have hholds := (hrel.inv.starts _).mpr ⟨e, he, rfl⟩
    rw [hlive'] at hholds
    exact absurd hholds List.not_mem_nil
  have ha : a = Arena.init := by
    cases a
    simp_all [Arena.init]
  rw [hrel.observed, ha, (Refines.init ram').observed]

/-- Two blocks given back in the order they were taken. -/
theorem freed_heap_is_new_two : ∃ s tr, Run (memStep wordHeap) wordHeapInit tr s ∧ s.live = [] ∧
    (runActions (memStep wordHeap) s [.malloc 1500]).map MemSys.live =
      (runActions (memStep wordHeap) wordHeapInit [.malloc 1500]).map MemSys.live := by
  obtain ⟨s, tr, hrun, hlive⟩ := wordHeap_run (f := MemSys.live) (v := [])
    [.malloc 10, .malloc 16, .free 8, .free 28] (by decide +kernel)
  exact ⟨s, tr, hrun, hlive, freed_heap_is_new hrun hlive _ _⟩

/-- The rounding of a request near the end of `mem_size_t` wraps to the smallest block. -/
theorem roundSize_wraps {size : Nat} (hsize : size < 2 ^ cfg.memSizeBits)
    (hwrap : 2 ^ cfg.memSizeBits < size + cfg.memAlignment) :
    roundSize cfg size = cfg.minSizeAligned ∧ cfg.memSizeAligned < size := by
  obtain ⟨k, hk⟩ := cfg.aligned
  have hbits : cfg.memAlignment ∣ 2 ^ cfg.memSizeBits := by
    rw [hk]
    exact Nat.pow_dvd_pow 2 ((Nat.pow_le_pow_iff_right (by decide)).mp (hk ▸ cfg.align_le))
  have hmin := cfg.minSizeAligned_pos
  -- two multiples of the alignment less than one alignment apart are the same
  obtain ⟨hle, hlt, hdvd⟩ := lwipMemAlignSize_spec cfg.aligned size
  have hfull : lwipMemAlignSize cfg.memAlignment size = 2 ^ cfg.memSizeBits :=
    Nat.le_antisymm (Nat.le_of_lt_add_of_dvd (by omega) hdvd hbits) (Nat.le_of_lt_add_of_dvd (by omega) hbits hdvd)
  have hend : cfg.memSizeAligned + cfg.memAlignment ≤ 2 ^ cfg.memSizeBits := by
    by_contra hnear
    exact Nat.not_le_of_lt cfg.fits (Nat.le_of_lt_add_of_dvd (by omega) hbits memSizeAligned_dvd)
  refine ⟨?_, by omega⟩
  unfold roundSize MemOpts.toMemSize
  rw [Nat.mod_eq_of_lt hsize, hfull, Nat.mod_self]
  exact if_pos hmin

theorem le_roundSize {size : Nat} (hfit : size + cfg.memAlignment ≤ 2 ^ cfg.memSizeBits) :
    size ≤ roundSize cfg size := by
  obtain ⟨hle, hlt, -⟩ := lwipMemAlignSize_spec cfg.aligned size
  have hpos : 0 < cfg.memAlignment := by
    obtain ⟨k, hk⟩ := cfg.aligned
    exact hk ▸ Nat.two_pow_pos k
  unfold roundSize MemOpts.toMemSize
  rw [Nat.mod_eq_of_lt (show size < _ by omega), Nat.mod_eq_of_lt (by omega)]
  dsimp only
  split <;> omega

/-- **When a block is as large as was asked for**: in every state of a run, and for every request that `mem_malloc`
    serves, exactly if rounding the request up does not wrap. -/
theorem memMalloc_enough_iff (h : Run (memStep cfg) (MemSys.init cfg ram) tr s) {size p : Nat}
    (hsize : size < 2 ^ cfg.memSizeBits) (hp : (memMalloc cfg s.heap size).2 = some p) :
    size ≤ userSize cfg (memMalloc cfg s.heap size).1.ram (p - cfg.sizeofStructMem) ↔
      size + cfg.memAlignment ≤ 2 ^ cfg.memSizeBits := by
  obtain ⟨a, -, hinv, hheap, -⟩ := (Refines.init ram).run h
  obtain ⟨hrep, hptr, -⟩ := hheap.memMalloc size
  have hlt := cfg.memSizeAligned_lt
  rw [hptr] at hp
  unfold mallocExtents at hp hrep
  split at hp
  · cases hp
  next hzero =>
  rw [if_neg hzero] at hrep
  cases hplace : place cfg.minBlock (cfg.sizeofStructMem + roundSize cfg size) cfg.memSizeAligned 0 a.used with
  | none =>
      rw [hplace] at hp
      cases hp
  | some r =>
      obtain ⟨x, used⟩ := r
      rw [hplace] at hp hrep
      obtain rfl := Option.some.inj hp
      obtain ⟨stop, hstop, hmem⟩ := place_mem hplace
      have hnew : (⟨x, stop⟩ : Extent) ∈ used := (hmem _).mpr (.inl rfl)
      obtain ⟨q, hheader⟩ := hrep.linked.header hnew
      have hstopM := (hrep.packed.bounds _ hnew).2.2
      dsimp only at hheader hstopM
      have huser : userSize cfg (memMalloc cfg s.heap size).1.ram (x + cfg.sizeofStructMem - cfg.sizeofStructMem) =
          stop - (x + cfg.sizeofStructMem) := by
        rw [userSize, Nat.add_sub_cancel, hheader]
        exact sizeSub_of_le (show _ ≤ stop by omega) (show stop < _ by omega)
      rw [huser]
      constructor
      · intro hle
        by_contra hwrap
        have := (roundSize_wraps hsize (by omega)).2
        omega
      · intro hfit
        have : size ≤ roundSize cfg size := le_roundSize hfit
        omega

/-- A request for 65535 bytes is served with a block that is not as large. -/
theorem memMalloc_enough_iff_wraps : (memMalloc wordHeap wordHeapInit.heap 65535).2 = some 8 ∧
    ¬65535 ≤ userSize wordHeap (memMalloc wordHeap wordHeapInit.heap 65535).1.ram (8 - wordHeap.sizeofStructMem) := by
  have hp : (memMalloc wordHeap wordHeapInit.heap 65535).2 = some 8 := by decide +kernel
  exact ⟨hp, fun h => absurd ((memMalloc_enough_iff .nil (by decide) hp).mp h) (by decide)⟩

end

end ThirdParty.Lwip
