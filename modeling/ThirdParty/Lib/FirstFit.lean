import Mathlib.Order.Bounds.Basic
import Mathlib.Data.List.Pairwise

/-!
# `Lib.FirstFit` — first fit in the gaps between used extents

An allocator of a linear arena, seen from what is in use: the state is the list of used extents in order of address,
and everything between two of them is one gap. `place` takes the lowest gap that is large enough, `release` drops an
extent, and `shrink` cuts one off at its end. Every extent and every gap is empty or at least `m` long, which is
what lets an implementation keep a header in each.

`Room lo hi es a b` says that `[a, b)` lies in the arena and meets no extent. The results are about rooms alone:
`place` fails exactly if there is no room of the length asked for, and takes the lowest one there is.
-/

namespace ThirdParty.Lib

/-- The addresses from `start` to before `stop`. -/
structure Extent where
  start : Nat
  stop  : Nat
  deriving DecidableEq, Repr

/-- A gap or an extent of no bytes or of at least `m`. -/
def Wide (m a b : Nat) : Prop := a = b ∨ a + m ≤ b

instance (m a b : Nat) : Decidable (Wide m a b) := inferInstanceAs (Decidable (_ ∨ _))

/-- The extents lie in `[lo, hi)` in order, and neither they nor the gaps between them are too short. -/
def Packed (m hi : Nat) : Nat → List Extent → Prop
  | lo, []      => Wide m lo hi
  | lo, e :: es => Wide m lo e.start ∧ e.start + m ≤ e.stop ∧ Packed m hi e.stop es

/-- `[a, b)` lies in `[lo, hi)` and meets no extent. -/
def Room (lo hi : Nat) (es : List Extent) (a b : Nat) : Prop :=
  lo ≤ a ∧ b ≤ hi ∧ ∀ e ∈ es, b ≤ e.start ∨ e.stop ≤ a

/-- Where the lowest gap starts; `hi` if there is none. -/
def firstGap : Nat → List Extent → Nat
  | lo, []      => lo
  | lo, e :: es => if lo < e.start then lo else firstGap e.stop es

/-- Where the extent ends that is put at the start of the gap `[a, b)`: the whole gap, unless its rest is worth
    keeping. -/
def carveAt (m need a b : Nat) : Nat := if a + need + m ≤ b then a + need else b

/-- The lowest gap with `need` bytes, and the extents with the new one. -/
def place (m need hi : Nat) : Nat → List Extent → Option (Nat × List Extent)
  | lo, []      => if lo + need ≤ hi then some (lo, [⟨lo, carveAt m need lo hi⟩]) else none
  | lo, e :: es =>
      if lo + need ≤ e.start then some (lo, ⟨lo, carveAt m need lo e.start⟩ :: e :: es)
      else (place m need hi e.stop es).map fun r => (r.1, e :: r.2)

/-- The extents without the one at `a`. -/
def release (a : Nat) (es : List Extent) : List Extent := es.filter fun e => e.start ≠ a

/-- Where the extent `e` ends when only `keep` bytes of it are wanted and the next extent, or the end of the arena, is
    at `b`: a gap behind it can grow, else the rest has to be worth a gap of its own. -/
def trimAt (m keep : Nat) (e : Extent) (b : Nat) : Nat :=
  if e.start + keep < e.stop ∧ (e.stop < b ∨ e.start + keep + m ≤ e.stop) then e.start + keep else e.stop

/-- Where the next extent starts, or the arena ends. -/
def nextStart (hi : Nat) : List Extent → Nat
  | []     => hi
  | e :: _ => e.start

/-- The extents with the one at `a` cut to `keep` bytes. -/
def shrink (m keep hi a : Nat) : List Extent → List Extent
  | []      => []
  | e :: es => if e.start = a then ⟨e.start, trimAt m keep e (nextStart hi es)⟩ :: es else e :: shrink m keep hi a es

variable {m need keep hi lo a b : Nat} {e : Extent} {es es' : List Extent}

/-! ## Order -/

theorem Wide.le (h : Wide m a b) : a ≤ b := by
  rcases h with h | h <;> omega

theorem Packed.le (h : Packed m hi lo es) : lo ≤ hi := by
  induction es generalizing lo with
  | nil => exact Wide.le h
  | cons e es ih =>
      obtain ⟨hgap, hwide, hrest⟩ := h
      have := hgap.le
      have := ih hrest
      omega

/-- The extents lie where the arena is. -/
theorem Packed.bounds : ∀ {lo : Nat} {es : List Extent}, Packed m hi lo es →
    ∀ e ∈ es, lo ≤ e.start ∧ e.start + m ≤ e.stop ∧ e.stop ≤ hi
  | lo, e :: es, ⟨hgap, hwide, h⟩, e', he' => by
      have hlo := hgap.le
      rcases List.mem_cons.mp he' with rfl | he'
      · exact ⟨hlo, hwide, h.le⟩
      · obtain ⟨h₁, h₂, h₃⟩ := h.bounds e' he'
        exact ⟨by omega, h₂, h₃⟩

/-- Of two extents one ends before the other starts. -/
theorem Packed.pairwise : ∀ {lo : Nat} {es : List Extent}, Packed m hi lo es →
    es.Pairwise fun e e' => e.stop ≤ e'.start
  | _, [],     _ => List.Pairwise.nil
  | _, _ :: _, ⟨_, _, h⟩ => List.Pairwise.cons (fun e' he' => (h.bounds e' he').1) h.pairwise

/-- Two extents do not overlap. -/
theorem Packed.disjoint (h : Packed m hi lo es) {e e' : Extent} (he : e ∈ es) (he' : e' ∈ es) (hne : e ≠ e') :
    e.stop ≤ e'.start ∨ e'.stop ≤ e.start := by
  have hpair : es.Pairwise fun e e' => e.stop ≤ e'.start ∨ e'.stop ≤ e.start := h.pairwise.imp Or.inl
  have : Std.Symm fun e e' : Extent => e.stop ≤ e'.start ∨ e'.stop ≤ e.start := ⟨fun _ _ => Or.symm⟩
  exact hpair.forall he he' hne

/-- An extent is known by its start. -/
theorem Packed.eq_of_start (hm : 0 < m) (h : Packed m hi lo es) {e e' : Extent} (he : e ∈ es) (he' : e' ∈ es)
    (hstart : e.start = e'.start) : e = e' := by
  induction es generalizing lo with
  | nil => exact absurd he List.not_mem_nil
  | cons x es ih =>
      obtain ⟨-, hwide, hrest⟩ := h
      rcases List.mem_cons.mp he with rfl | he₁ <;> rcases List.mem_cons.mp he' with rfl | he₂
      · rfl
      · have := (hrest.bounds e' he₂).1
        omega
      · have := (hrest.bounds e he₁).1
        omega
      · exact ih hrest he₁ he₂

theorem nextStart_mem (h : Packed m hi lo es) : lo ≤ nextStart hi es ∧ nextStart hi es ≤ hi := by
  cases es with
  | nil => exact ⟨h.le, Nat.le_refl _⟩
  | cons e es =>
      have := (h.bounds e List.mem_cons_self)
      exact ⟨this.1, by simp only [nextStart]; omega⟩

theorem firstGap_bounds : ∀ {lo : Nat} {es : List Extent}, Packed m hi lo es →
    lo ≤ firstGap lo es ∧ firstGap lo es ≤ hi
  | _, [],     h => ⟨Nat.le_refl _, h.le⟩
  | lo, e :: es, h => by
      have hle := h.le
      obtain ⟨hgap, hwide, h⟩ := h
      have hlo := hgap.le
      have := firstGap_bounds h
      unfold firstGap
      split <;> omega

/-! ## Rooms -/

theorem room_cons : Room lo hi (e :: es) a b ↔ Room lo hi es a b ∧ (b ≤ e.start ∨ e.stop ≤ a) := by
  simp only [Room, List.forall_mem_cons]
  tauto

/-- A room in front of the first extent, or one behind it. -/
theorem room_cons_iff (h : Packed m hi lo (e :: es)) :
    Room lo hi (e :: es) a b ↔ (lo ≤ a ∧ b ≤ e.start) ∨ Room e.stop hi es a b := by
  obtain ⟨hgap, hwide, hrest⟩ := h
  have hlo := hgap.le
  have hhi := hrest.le
  rw [room_cons]
  constructor
  · rintro ⟨⟨hlo', hhi', hes⟩, hbefore | hafter⟩
    · exact .inl ⟨hlo', hbefore⟩
    · exact .inr ⟨hafter, hhi', hes⟩
  · rintro (⟨hlo', hbefore⟩ | ⟨hafter, hhi', hes⟩)
    · refine ⟨⟨hlo', by omega, fun e' he' => .inl ?_⟩, .inl hbefore⟩
      have := (hrest.bounds e' he').1
      omega
    · exact ⟨⟨by omega, hhi', hes⟩, .inr hafter⟩

/-- **`place` fails exactly if there is no room.** -/
theorem place_eq_none_iff (hneed : 0 < need) : ∀ {lo : Nat} {es : List Extent}, Packed m hi lo es →
    (place m need hi lo es = none ↔ ∀ a, ¬Room lo hi es a (a + need))
  | lo, [], _ => by
      simp only [place, Room, List.not_mem_nil, false_implies, implies_true, and_true]
      split
      · next hfit => simpa using ⟨lo, Nat.le_refl _, hfit⟩
      · next hfit =>
          simp only [true_iff]
          intro a
          omega
  | lo, e :: es, h => by
      unfold place
      have ih := place_eq_none_iff hneed h.2.2
      split
      · next hfit =>
          simp only [reduceCtorEq, false_iff, not_forall, not_not]
          exact ⟨lo, (room_cons_iff h).mpr (.inl ⟨Nat.le_refl _, hfit⟩)⟩
      · next hfit =>
          rw [Option.map_eq_none_iff, ih]
          refine forall_congr' fun a => not_congr ?_
          rw [room_cons_iff h]
          constructor
          · exact .inr
          · rintro (hbefore | hroom)
            · omega
            · exact hroom

/-- **`place` takes the lowest room.** -/
theorem place_least : ∀ {lo a : Nat} {es es' : List Extent}, Packed m hi lo es →
    place m need hi lo es = some (a, es') → IsLeast {a | Room lo hi es a (a + need)} a
  | lo, _, [], _, _, hp => by
      unfold place at hp
      split at hp
      · next hfit =>
          obtain ⟨rfl, -⟩ := Prod.mk.inj (Option.some.inj hp)
          exact ⟨⟨Nat.le_refl _, hfit, by simp⟩, fun a' ha' => ha'.1⟩
      · cases hp
  | lo, _, e :: es, _, h, hp => by
      unfold place at hp
      split at hp
      · next hfit =>
          obtain ⟨rfl, -⟩ := Prod.mk.inj (Option.some.inj hp)
          exact ⟨(room_cons_iff h).mpr (.inl ⟨Nat.le_refl _, hfit⟩), fun a' ha' => ha'.1⟩
      · next hfit =>
          obtain ⟨⟨a', es''⟩, hrest, hr⟩ := Option.map_eq_some_iff.mp hp
          obtain ⟨rfl, -⟩ := Prod.mk.inj hr
          obtain ⟨hroom, hleast⟩ := place_least h.2.2 hrest
          refine ⟨(room_cons_iff h).mpr (.inr hroom), fun x hx => ?_⟩
          rcases (room_cons_iff h).mp hx with hbefore | hafter
          · omega
          · exact hleast hafter

/-! ## What the operations do to the extents -/

theorem carveAt_wide : Wide m (carveAt m need a b) b := by
  unfold carveAt Wide
  split <;> omega

theorem place_packed (hneed : m ≤ need) : ∀ {lo a : Nat} {es es' : List Extent}, Packed m hi lo es →
    place m need hi lo es = some (a, es') → Packed m hi lo es'
  | lo, _, [], es', _, hp => by
      unfold place at hp
      split at hp
      · next hfit =>
          obtain ⟨rfl, rfl⟩ := Prod.mk.inj (Option.some.inj hp)
          refine ⟨.inl rfl, ?_, carveAt_wide⟩
          unfold carveAt
          dsimp only
          split <;> omega
      · cases hp
  | lo, _, e :: es, es', h, hp => by
      unfold place at hp
      split at hp
      · next hfit =>
          obtain ⟨rfl, rfl⟩ := Prod.mk.inj (Option.some.inj hp)
          refine ⟨.inl rfl, ?_, carveAt_wide, h.2⟩
          unfold carveAt
          dsimp only
          split <;> omega
      · next hfit =>
          obtain ⟨⟨a', es''⟩, hrest, hr⟩ := Option.map_eq_some_iff.mp hp
          obtain ⟨rfl, rfl⟩ := Prod.mk.inj hr
          exact ⟨h.1, h.2.1, place_packed hneed h.2.2 hrest⟩

/-- The extents after `place` are those before and a new one with at least the bytes asked for. -/
theorem place_mem : ∀ {lo a : Nat} {es es' : List Extent}, place m need hi lo es = some (a, es') →
    ∃ stop, a + need ≤ stop ∧ ∀ e, e ∈ es' ↔ e = ⟨a, stop⟩ ∨ e ∈ es
  | lo, _, [], es', hp => by
      unfold place at hp
      split at hp
      · next hfit =>
          obtain ⟨rfl, rfl⟩ := Prod.mk.inj (Option.some.inj hp)
          refine ⟨carveAt m need lo hi, ?_, fun e => by simp⟩
          unfold carveAt
          split <;> omega
      · cases hp
  | lo, _, e :: es, es', hp => by
      unfold place at hp
      split at hp
      · next hfit =>
          obtain ⟨rfl, rfl⟩ := Prod.mk.inj (Option.some.inj hp)
          refine ⟨_, ?_, fun e' => List.mem_cons⟩
          unfold carveAt
          split <;> omega
      · obtain ⟨⟨a', es''⟩, hrest, hr⟩ := Option.map_eq_some_iff.mp hp
        obtain ⟨rfl, rfl⟩ := Prod.mk.inj hr
        obtain ⟨stop, hstop, hmem⟩ := place_mem hrest
        refine ⟨stop, hstop, fun e' => ?_⟩
        rw [List.mem_cons, hmem, List.mem_cons]
        tauto

/-- The new extent starts where none did. -/
theorem place_start_new (hm : 0 < m) (hneed : 0 < need) (hp : Packed m hi lo es)
    (hplace : place m need hi lo es = some (a, es')) (he : e ∈ es) : e.start ≠ a := by
  intro heq
  have := (place_least hp hplace).1.2.2 e he
  have := (hp.bounds e he).2.1
  omega

/-- The lowest gap does not get lower. -/
theorem le_firstGap_place (hneed : 0 < need) : ∀ {lo a : Nat} {es es' : List Extent}, Packed m hi lo es' →
    place m need hi lo es = some (a, es') → firstGap lo es ≤ firstGap lo es'
  | lo, _, [],      es', hp, _ => (firstGap_bounds hp).1
  | lo, _, e :: es, es', hp, hplace => by
      have hlow := (firstGap_bounds hp).1
      by_cases hlt : lo < e.start
      · rw [firstGap, if_pos hlt]
        exact hlow
      · rw [place, if_neg (by omega)] at hplace
        obtain ⟨⟨a', es''⟩, hrest, hr⟩ := Option.map_eq_some_iff.mp hplace
        obtain ⟨rfl, rfl⟩ := Prod.mk.inj hr
        rw [firstGap, if_neg hlt, firstGap, if_neg hlt]
        exact le_firstGap_place hneed hp.2.2 hrest

theorem mem_release : e ∈ release a es ↔ e ∈ es ∧ e.start ≠ a := by simp [release]

theorem release_cons_self (h : e.start = a) (hm : 0 < m) (hp : Packed m hi lo (e :: es)) :
    release a (e :: es) = es := by
  unfold release
  rw [List.filter_cons_of_neg (by simpa using h)]
  refine List.filter_eq_self.mpr fun e' he' => ?_
  have := (hp.2.2.bounds e' he').1
  have := hp.2.1
  simp only [ne_eq, decide_not, Bool.not_eq_eq_eq_not, Bool.not_true, decide_eq_false_iff_not]
  omega

theorem release_cons_of_ne (h : e.start ≠ a) : release a (e :: es) = e :: release a es := by
  unfold release
  rw [List.filter_cons_of_pos (by simpa using h)]

/-- A gap may start lower. -/
theorem Packed.mono {lo' : Nat} (h : Packed m hi lo es) (hlo : lo' + m ≤ lo) : Packed m hi lo' es := by
  cases es with
  | nil => exact .inr (by have := Wide.le h; omega)
  | cons e es => exact ⟨.inr (by have := h.1.le; omega), h.2⟩

theorem release_packed (hm : 0 < m) : ∀ {lo : Nat} {es : List Extent}, Packed m hi lo es →
    Packed m hi lo (release a es)
  | _, [],      h => h
  | lo, e :: es, h => by
      by_cases he : e.start = a
      · rw [release_cons_self he hm h]
        exact h.2.2.mono (by have := h.1.le; have := h.2.1; omega)
      · rw [release_cons_of_ne he]
        exact ⟨h.1, h.2.1, release_packed hm h.2.2⟩

theorem trimAt_bounds : e.start ≤ e.stop → (e.start + keep ≤ e.stop → e.start + keep ≤ trimAt m keep e b) ∧
    trimAt m keep e b ≤ e.stop := by
  intro h
  unfold trimAt
  split <;> omega

theorem shrink_packed (hkeep : m ≤ keep) : ∀ {lo : Nat} {es : List Extent}, Packed m hi lo es →
    Packed m hi lo (shrink m keep hi a es)
  | _, [],      h => h
  | lo, e :: es, ⟨hgap, hwide, h⟩ => by
      unfold shrink
      split
      · refine ⟨hgap, ?_, ?_⟩
        · unfold trimAt
          dsimp only
          split <;> omega
        · -- what is cut off joins the gap behind, or is one of its own
          obtain ⟨hnext, -⟩ := nextStart_mem h
          have hcut : Wide m e.stop (nextStart hi es) →
              Wide m (trimAt m keep e (nextStart hi es)) (nextStart hi es) := by
            unfold trimAt Wide
            split <;> omega
          cases es with
          | nil => exact hcut h
          | cons e' es => exact ⟨hcut h.1, h.2⟩
      · exact ⟨hgap, hwide, shrink_packed hkeep h⟩

/-! ## Alignment -/

/-- Extents start and stop at multiples of `d`. -/
def AlignedTo (d : Nat) (es : List Extent) : Prop := ∀ e ∈ es, d ∣ e.start ∧ d ∣ e.stop

theorem carveAt_dvd {d : Nat} (ha : d ∣ a) (hneed : d ∣ need) (hb : d ∣ b) : d ∣ carveAt m need a b := by
  unfold carveAt
  split
  · exact Nat.dvd_add ha hneed
  · exact hb

theorem AlignedTo.place {d : Nat} (hneed : d ∣ need) (hhi : d ∣ hi) : ∀ {lo a : Nat} {es es' : List Extent}, d ∣ lo →
    AlignedTo d es → ThirdParty.Lib.place m need hi lo es = some (a, es') → AlignedTo d es'
  | lo, _, [], es', hlo, _, hp => by
      unfold ThirdParty.Lib.place at hp
      split at hp
      · obtain ⟨rfl, rfl⟩ := Prod.mk.inj (Option.some.inj hp)
        exact List.forall_mem_singleton.mpr ⟨hlo, carveAt_dvd hlo hneed hhi⟩
      · cases hp
  | lo, _, e :: es, es', hlo, h, hp => by
      obtain ⟨he, hes⟩ := List.forall_mem_cons.mp h
      unfold ThirdParty.Lib.place at hp
      split at hp
      · obtain ⟨rfl, rfl⟩ := Prod.mk.inj (Option.some.inj hp)
        exact List.forall_mem_cons.mpr ⟨⟨hlo, carveAt_dvd hlo hneed he.1⟩, h⟩
      · obtain ⟨⟨a', es''⟩, hrest, hr⟩ := Option.map_eq_some_iff.mp hp
        obtain ⟨rfl, rfl⟩ := Prod.mk.inj hr
        exact List.forall_mem_cons.mpr ⟨he, AlignedTo.place hneed hhi he.2 hes hrest⟩

theorem AlignedTo.release {d : Nat} (h : AlignedTo d es) : AlignedTo d (release a es) :=
  fun e he => h e (mem_release.mp he).1

theorem AlignedTo.shrink {d : Nat} (hkeep : d ∣ keep) : ∀ {es : List Extent}, AlignedTo d es →
    AlignedTo d (ThirdParty.Lib.shrink m keep hi a es)
  | [],      h => h
  | e :: es, h => by
      obtain ⟨he, hes⟩ := List.forall_mem_cons.mp h
      unfold ThirdParty.Lib.shrink
      split
      · refine List.forall_mem_cons.mpr ⟨⟨he.1, ?_⟩, hes⟩
        unfold trimAt
        dsimp only
        split
        · exact Nat.dvd_add he.1 hkeep
        · exact he.2
      · exact List.forall_mem_cons.mpr ⟨he, AlignedTo.shrink hkeep hes⟩

/-- The extents after one was cut: the others are as they were, and it keeps what fits of the bytes wanted. -/
theorem mem_shrink (hm : 0 < m) : ∀ {lo : Nat} {es : List Extent}, Packed m hi lo es →
    e ∈ shrink m keep hi a es → e ∈ es ∧ e.start ≠ a ∨
      e.start = a ∧ ∃ e' ∈ es, e'.start = a ∧ e.stop ≤ e'.stop ∧ (a + keep ≤ e'.stop → a + keep ≤ e.stop)
  | _, [],      _, he => absurd he List.not_mem_nil
  | lo, x :: es, hp, he => by
      unfold shrink at he
      split at he
      · next hx =>
          rcases List.mem_cons.mp he with rfl | he
          · have hwide := hp.2.1
            obtain ⟨hfit, hle⟩ : (x.start + keep ≤ x.stop → x.start + keep ≤ trimAt m keep x (nextStart hi es)) ∧
                trimAt m keep x (nextStart hi es) ≤ x.stop := trimAt_bounds (show x.start ≤ x.stop by omega)
            exact .inr ⟨hx, x, List.mem_cons_self, hx, hle, by rw [← hx]; exact hfit⟩
          · have := (hp.2.2.bounds e he).1
            have := hp.2.1
            exact .inl ⟨List.mem_cons_of_mem _ he, by omega⟩
      · next hx =>
          rcases List.mem_cons.mp he with rfl | he
          · exact .inl ⟨List.mem_cons_self, hx⟩
          · rcases mem_shrink hm hp.2.2 he with ⟨he, hne⟩ | ⟨hstart, e', he', h⟩
            · exact .inl ⟨List.mem_cons_of_mem _ he, hne⟩
            · exact .inr ⟨hstart, e', List.mem_cons_of_mem _ he', h⟩

/-- The starts are what they were. -/
theorem shrink_starts : (shrink m keep hi a es).map Extent.start = es.map Extent.start := by
  induction es with
  | nil => rfl
  | cons e es ih =>
      unfold shrink
      split
      · rfl
      · rw [List.map_cons, List.map_cons, ih]

end ThirdParty.Lib
