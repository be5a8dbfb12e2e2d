import Mathlib.Data.List.Forall2
import ThirdParty.Eth.Correctness.Reassembly

/-!
# `Eth.Correctness.Overrun` — what a corrupt length word can do

The length in the first word is not checked. Below four the first pbuf's length wraps when the word stored apart is
taken off it, and the copy runs on over a whole 64 KB.
-/

namespace ThirdParty.Eth

open Lib

variable {data : Nat → Nat} {size : Nat} {garbage : Nat → Nat → Byte}

/-- Reception that a bad length cannot harm: few reads, stores inside the buffers only, and a chain no longer than
    allocated. -/
def RxSafe (size : Nat) (data : Nat → Nat) (alloc : Option (Nat → Nat → Byte)) (pos : Nat) : Prop :=
  (receiveFrame size data alloc pos).1 ≤ pos + (1 + (65535 + 3) / 4) ∧
  ∀ chain, (receiveFrame size data alloc pos).2 = some chain →
    (∀ q ∈ chain, ∀ off ∈ q.stores, off + 4 ≤ size) ∧
    ∀ garbage, alloc = some garbage →
      List.Forall₂ (fun q p => q.len ≤ p.len) chain (pbufAllocPool size garbage (data pos % 65536))

theorem lens_of_fields {chain pool : List RxPbuf} (h : chain.map RxPbuf.fields = pool.map RxPbuf.fields) :
    List.Forall₂ (fun q p => q.len ≤ p.len) chain pool := by
  have heq : List.Forall₂ Eq (chain.map RxPbuf.fields) (pool.map RxPbuf.fields) := by
    rw [h]
    exact List.forall₂_refl _
  rw [List.forall₂_map_left_iff, List.forall₂_map_right_iff] at heq
  apply heq.imp
  intro q p hqp
  exact Nat.le_of_eq (congrArg (fun f => f.2.1) hqp)

/-- The last word of a row of stores ends where the row does. -/
theorem last_mem_storesFrom (off n : Nat) : off + 4 * n ∈ storesFrom off (n + 1) :=
  List.mem_map.mpr ⟨n, List.mem_range.mpr (Nat.lt_succ_self n), rfl⟩

/-- A frame whose length is below a word, in the one buffer that it gets: the wrapped length is copied, then the length
    is as before. -/
theorem receiveFrame_short (hsize : 4 ≤ size) (garbage : Nat → Nat → Byte) {pos : Nat} (hlen : data pos % 65536 < 4) :
    ∃ q, receiveFrame size data (some garbage) pos = (pos + 1 + (65532 + data pos % 65536 + 3) / 4, some [q]) ∧
      q.len = data pos % 65536 ∧ q.stores = 0 :: storesFrom 4 ((65532 + data pos % 65536 + 3) / 4) ∧
      pbufAllocPool size garbage (data pos % 65536) = [⟨garbage 0, 0, data pos % 65536, data pos % 65536, []⟩] := by
  have htemp := toU16_natCast (data pos)
  generalize data pos % 65536 = len at hlen htemp ⊢
  have hpool : pbufAllocPool size garbage len = [⟨garbage 0, 0, len, len, []⟩] := by
    rw [pbufAllocPool, show min len size = len by omega, Nat.sub_self]
    cases len with
    | zero => rfl
    | succ n => rw [poolTail, if_neg (Nat.lt_irrefl 0)]
  have hwrap : toU16 ((len : Int) - 4) = 65532 + len := by
    unfold toU16
    omega
  have hback : toU16 (((65532 + len : Nat) : Int) + 4) = len := by
    unfold toU16
    omega
  obtain ⟨q', hcopy, hcopied⟩ := @copyPbuf_spec data (65532 + len) 0 (pos + 1)
    { RxPbuf.store ⟨garbage 0, 0, len, len, []⟩ 0 (data pos) with payload := 4, len := 65532 + len }
    (show 65532 + len ≤ 0 + (65532 + len) by omega)
  have hqlen : q'.len = 65532 + len := congrArg (fun f => f.2.1) hcopied.fields
  refine ⟨{ q' with payload := q'.payload - 4, len := len }, ?_, rfl, hcopied.stores, hpool⟩
  rw [receiveFrame, htemp]
  simp only [Option.map_some, hpool]
  rw [show (RxPbuf.store ⟨garbage 0, 0, len, len, []⟩ 0 (data pos)).len = len from rfl,
    show (RxPbuf.store ⟨garbage 0, 0, len, len, []⟩ 0 (data pos)).payload + 4 = 4 from rfl, hwrap]
  simp only [copyChain, hcopy]
  rw [hqlen, hback, Nat.sub_zero]

/-- A frame that finds no buffer is drained, at most to the end of what its length can say. -/
theorem rxSafe_drained (size : Nat) (data : Nat → Nat) (pos : Nat) : RxSafe size data none pos := by
  refine ⟨?_, ?_⟩
  · rw [receiveFrame, toU16_natCast]
    show drainFrame (data pos % 65536) (data pos % 65536) 4 (pos + 1) ≤ _
    rw [drainFrame_eq _ (by omega)]
    omega
  · intro chain hchain
    rw [receiveFrame] at hchain
    exact absurd hchain (by simp)

/-- A frame of a word at least stays inside the buffers it gets. -/
theorem rxSafe_received (hsize : 0 < size) (h4 : 4 ∣ size) (garbage : Nat → Nat → Byte) {pos : Nat}
    (hlen : 4 ≤ data pos % 65536) : RxSafe size data (some garbage) pos := by
  obtain ⟨chain, hframe, hfields, -, hinside⟩ := receiveFrame_some hsize h4 garbage hlen
  refine ⟨?_, ?_⟩
  · rw [hframe]
    show pos + (data pos % 65536 + 3) / 4 ≤ _
    omega
  · intro chain' hchain
    rw [hframe] at hchain
    obtain rfl : chain = chain' := Option.some.inj hchain
    refine ⟨hinside, ?_⟩
    rintro _ ⟨⟩
    exact lens_of_fields hfields

/-- **A frame of less than a word** stays inside its buffer only if the buffer has room for the wrapped length. -/
theorem rxSafe_short_iff (hsize : 4 ≤ size) (garbage : Nat → Nat → Byte) {pos : Nat} (hlen : data pos % 65536 < 4) :
    RxSafe size data (some garbage) pos ↔ 65536 + (if data pos % 65536 = 0 then 0 else 4) ≤ size := by
  obtain ⟨q, hframe, hqlen, hstores, hpool⟩ := receiveFrame_short hsize garbage hlen
  -- the copy of the wrapped length ends here
  have hend : 4 + 4 * ((65532 + data pos % 65536 + 3) / 4) = 65536 + (if data pos % 65536 = 0 then 0 else 4) := by
    by_cases hzero : data pos % 65536 = 0
    · rw [if_pos hzero, hzero]
    · rw [if_neg hzero]
      omega
  constructor
  · intro hsafe
    obtain ⟨hinside, -⟩ := hsafe.2 [q] (by rw [hframe])
    have hlast := last_mem_storesFrom 4 ((65532 + data pos % 65536 + 3) / 4 - 1)
    rw [Nat.sub_add_cancel (by omega)] at hlast
    have hmem : 4 + 4 * ((65532 + data pos % 65536 + 3) / 4 - 1) ∈ q.stores := by
      rw [hstores]
      exact List.mem_cons_of_mem _ hlast
    have := hinside q (List.mem_singleton_self q) _ hmem
    omega
  · intro hfits
    refine ⟨?_, ?_⟩
    · rw [hframe]
      show pos + 1 + (65532 + data pos % 65536 + 3) / 4 ≤ _
      omega
    · intro chain hchain
      rw [hframe] at hchain
      obtain rfl : [q] = chain := Option.some.inj hchain
      refine ⟨?_, ?_⟩
      · intro p hp off hoff
        rw [List.mem_singleton.mp hp, hstores] at hoff
        rcases List.mem_cons.mp hoff with rfl | hoff
        · omega
        · have := mem_storesFrom hoff
          omega
      · rintro _ ⟨⟩
        rw [hpool]
        exact .cons (Nat.le_of_eq hqlen) .nil

/-- **When a length word does no harm**: exactly if no buffer was found, or the length is at least a word, or the
    buffers are so large that the wrapped length fits. -/
theorem receive_safe_iff (hsize : 0 < size) (h4 : 4 ∣ size) (data : Nat → Nat) (alloc : Option (Nat → Nat → Byte))
    (pos : Nat) :
    RxSafe size data alloc pos ↔
      alloc = none ∨ 4 ≤ data pos % 65536 ∨ 65536 + (if data pos % 65536 = 0 then 0 else 4) ≤ size := by
  cases alloc with
  | none => exact iff_of_true (rxSafe_drained size data pos) (.inl rfl)
  | some garbage =>
      have hsize4 : 4 ≤ size := Nat.le_of_dvd hsize h4
      by_cases hlen : 4 ≤ data pos % 65536
      · exact iff_of_true (rxSafe_received hsize h4 garbage hlen) (.inr (.inl hlen))
      · rw [rxSafe_short_iff hsize4 garbage (Nat.lt_of_not_le hlen)]
        constructor
        · intro hfits
          exact .inr (.inr hfits)
        · rintro (hnone | hword | hfits)
          · exact absurd hnone (by simp)
          · exact absurd hword hlen
          · exact hfits

/-- A frame of length 10 in the default pool. -/
theorem receive_safe_ten : RxSafe 592 (fun pos => if pos = 0 then 10 else pos) (some fun _ _ => 0) 0 :=
  (receive_safe_iff (by decide) (by decide) _ _ 0).mpr (.inr (.inl (by decide)))

/-- A length word of zero makes the copy go on behind a buffer of 592 bytes. -/
theorem zero_length_overruns :
    ∃ q, (receiveFrame 592 (fun _ => 0) (some fun _ _ => 0) 0).2 = some [q] ∧ 592 ∈ q.stores ∧
      ¬ RxSafe 592 (fun _ => 0) (some fun _ _ => 0) 0 := by
  obtain ⟨q, hframe, -, hstores, -⟩ := @receiveFrame_short (fun _ => 0) 592 (by decide) (fun _ _ => 0) 0 (by decide)
  have hmem : 592 ∈ q.stores := by
    rw [hstores]
    refine List.mem_cons_of_mem _ (List.mem_map.mpr ⟨147, List.mem_range.mpr (by omega), rfl⟩)
  refine ⟨q, by rw [hframe], hmem, ?_⟩
  intro hsafe
  have := (hsafe.2 [q] (by rw [hframe])).1 q (List.mem_singleton_self q) 592 hmem
  omega

end ThirdParty.Eth
