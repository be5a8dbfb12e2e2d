import Mathlib.Data.Nat.Digits.Defs
import Mathlib.Tactic.Ring
import ThirdParty.Lib.OnesComplement
import ThirdParty.Lwip.Checksum
import ThirdParty.Lwip.Correctness.Search

/-!
# `Lwip.Correctness.Checksum` — one checksum, however it is computed

The sum of the words of a string is, up to its carries, the number that the string is in base 256: for words of two
bytes 256² counts as 1, so it does not matter from where on the words are counted, only whether a byte is at an even
or at an odd place. That is why the versions of `lwip_standard_chksum` may start at any address, why a sum may be
swapped behind a pbuf of odd length, and why a checksum may be adjusted when a header changes.
-/

namespace ThirdParty.Lwip

open Lib

/-! ## Strings as numbers -/

/-- A string as a number, the first byte lowest. -/
def number (bs : List Byte) : Nat := Nat.ofDigits 256 (bs.map UInt8.toNat)

/-- What the first byte of a word counts. -/
def ByteOrder.unit : ByteOrder → Nat
  | .little => 1
  | .big    => 256

/-- **The sum of the words of a string**, with a zero byte at the end if the length is odd. -/
def wordSum (e : ByteOrder) : List Byte → Nat
  | b₀ :: b₁ :: bs => hostU16 e b₀ b₁ + wordSum e bs
  | [b]            => hostU16 e b 0
  | []             => 0

section
variable {e : ByteOrder} {bs cs : List Byte} {b b₀ b₁ b₂ b₃ : Byte} {m n x : Nat}

theorem number_nil : number [] = 0 := rfl

theorem number_cons : number (b :: bs) = b.toNat + 256 * number bs := Nat.ofDigits_cons

theorem number_append : number (bs ++ cs) = number bs + 256 ^ bs.length * number cs := by
  unfold number
  rw [List.map_append, Nat.ofDigits_append, List.length_map]

/-- Two places further on nothing changes. -/
theorem alike_two (n : Nat) : Alike 65536 (256 * (256 * n)) n := by
  rw [← Nat.mul_assoc]
  exact alike_base_mul (by decide) n

theorem alike_even {k : Nat} (hk : k % 2 = 0) (n : Nat) : Alike 65536 (256 ^ k * n) n := by
  obtain ⟨j, rfl⟩ := Nat.dvd_of_mod_eq_zero hk
  induction j with
  | zero =>
      rw [Nat.mul_zero, Nat.pow_zero, Nat.one_mul]
      exact Alike.refl _ n
  | succ j ih =>
      have hpow : 256 ^ (2 * (j + 1)) * n = 256 * (256 * (256 ^ (2 * j) * n)) := by ring
      rw [hpow]
      exact (alike_two _).trans (ih (Nat.mul_mod_right 2 j))

theorem alike_odd {k : Nat} (hk : k % 2 = 1) (n : Nat) : Alike 65536 (256 ^ k * n) (256 * n) := by
  have hpow : 256 ^ k * n = 256 * (256 ^ (k - 1) * n) := by
    rw [← Nat.mul_assoc, ← Nat.pow_succ', Nat.succ_eq_add_one, Nat.sub_add_cancel (by omega)]
  rw [hpow]
  exact (alike_even (by omega) n).mul_left 256

theorem unit_cases (e : ByteOrder) : e.unit = 1 ∨ e.unit = 256 := by
  cases e
  · exact .inl rfl
  · exact .inr rfl

theorem hostU16_alike (e : ByteOrder) (b₀ b₁ : Byte) :
    Alike 65536 (hostU16 e b₀ b₁) (e.unit * (b₀.toNat + 256 * b₁.toNat)) := by
  cases e with
  | little =>
      rw [ByteOrder.unit, Nat.one_mul]
      exact Alike.refl _ _
  | big =>
      rw [ByteOrder.unit, Nat.mul_add]
      exact (Alike.refl _ _).add (alike_two _).symm

theorem hostU16_lt (e : ByteOrder) (b₀ b₁ : Byte) : hostU16 e b₀ b₁ < 65536 := by
  have h₀ := b₀.toNat_lt
  have h₁ := b₁.toNat_lt
  cases e <;> simp only [hostU16] <;> omega

theorem hostU32_alike (e : ByteOrder) (b₀ b₁ b₂ b₃ : Byte) :
    Alike 65536 (hostU32 e b₀ b₁ b₂ b₃) (hostU16 e b₀ b₁ + hostU16 e b₂ b₃) := by
  cases e with
  | little => exact (Alike.refl _ _).add (alike_base_mul (by decide) _)
  | big => exact (alike_base_mul (by decide) _).add (Alike.refl _ _)

theorem hostU32_lt (e : ByteOrder) (b₀ b₁ b₂ b₃ : Byte) : hostU32 e b₀ b₁ b₂ b₃ < 4294967296 := by
  cases e with
  | little =>
      have h := hostU16_lt .little b₀ b₁
      have h' := hostU16_lt .little b₂ b₃
      simp only [hostU32]
      omega
  | big =>
      have h := hostU16_lt .big b₀ b₁
      have h' := hostU16_lt .big b₂ b₃
      simp only [hostU32]
      omega

/-- A word in front of a string. -/
theorem word_alike (e : ByteOrder) (b₀ b₁ : Byte) (bs : List Byte) :
    Alike 65536 (hostU16 e b₀ b₁ + e.unit * number bs) (e.unit * number (b₀ :: b₁ :: bs)) := by
  have hsum := (hostU16_alike e b₀ b₁).add ((alike_two (number bs)).symm.mul_left e.unit)
  rw [← Nat.mul_add] at hsum
  rw [number_cons, number_cons]
  refine hsum.trans ?_
  rw [show b₀.toNat + 256 * b₁.toNat + 256 * (256 * number bs) = b₀.toNat + 256 * (b₁.toNat + 256 * number bs) by ring]
  exact Alike.refl _ _

/-- Behind an even number of bytes the words go on. -/
theorem append_alike (e : ByteOrder) {bs : List Byte} (cs : List Byte) (heven : bs.length % 2 = 0) :
    Alike 65536 (e.unit * number (bs ++ cs)) (e.unit * number bs + e.unit * number cs) := by
  rw [number_append, Nat.mul_add]
  exact (Alike.refl _ _).add ((alike_even heven (number cs)).mul_left _)

theorem wordSum_alike (e : ByteOrder) : ∀ bs : List Byte, Alike 65536 (wordSum e bs) (e.unit * number bs)
  | []             => Alike.refl _ _
  | [b]            => by
      have h := word_alike e b 0 []
      rw [number_nil, Nat.mul_zero, Nat.add_zero] at h
      refine h.trans ?_
      rw [number_cons, number_cons, number_cons, number_nil]
      exact Alike.refl _ _
  | b₀ :: b₁ :: bs => ((Alike.refl _ _).add (wordSum_alike e bs)).trans (word_alike e b₀ b₁ bs)

/-! ## Folding and swapping -/

theorem foldU32t_alike (n : Nat) : Alike 65536 (foldU32t n) n := alike_fold (by decide) n

/-- Two foldings are enough. -/
theorem foldU32t_twice_lt (hn : n < 4294967296) : foldU32t (foldU32t n) < 65536 := by
  unfold foldU32t
  omega

theorem foldU32t_lt (hn : n < 131071) : foldU32t n < 65536 := by
  unfold foldU32t
  omega

theorem swapBytesInWord_alike (hn : n < 65536) : Alike 65536 (swapBytesInWord n) (256 * n) := by
  have hhigh : n / 256 % 256 = n / 256 := Nat.mod_eq_of_lt (by omega)
  have hsplit : 256 * n = n % 256 * 256 + 256 * (256 * (n / 256)) := by omega
  rw [swapBytesInWord, hhigh, hsplit]
  exact (Alike.refl _ _).add (alike_two _).symm

theorem swapBytesInWord_lt (n : Nat) : swapBytesInWord n < 65536 := by
  unfold swapBytesInWord
  omega

/-- What a swapped sum counts. -/
def weight (swapped : Bool) : Nat := if swapped then 256 else 1

theorem unswap_alike {st : Nat × Bool} (h : st.1 < 65536) :
    Alike 65536 (unswap st) (weight st.2 * st.1) ∧ unswap st < 65536 := by
  obtain ⟨n, swapped⟩ := st
  cases swapped with
  | false =>
      refine ⟨?_, h⟩
      rw [show weight false * n = n from Nat.one_mul n]
      exact Alike.refl _ n
  | true => exact ⟨swapBytesInWord_alike h, swapBytesInWord_lt n⟩

/-! ## The loops of `lwip_standard_chksum` -/

theorem sumU16s_spec (e : ByteOrder) : ∀ (bs : List Byte) (sum : Nat), sum + 65535 * (bs.length / 2) < 4294967296 →
    (sumU16s e bs sum).2.length ≤ 1 ∧ (sumU16s e bs sum).1 ≤ sum + 65535 * (bs.length / 2) ∧
      Alike 65536 ((sumU16s e bs sum).1 + e.unit * number (sumU16s e bs sum).2) (sum + e.unit * number bs)
  | [],             sum, _    => ⟨Nat.zero_le _, Nat.le_add_right _ _, Alike.refl _ _⟩
  | [b],            sum, _    => ⟨Nat.le_refl _, Nat.le_add_right _ _, Alike.refl _ _⟩
  | b₀ :: b₁ :: bs, sum, hlen => by
      have hword := hostU16_lt e b₀ b₁
      have hhalf : (b₀ :: b₁ :: bs).length / 2 = bs.length / 2 + 1 := by
        simp only [List.length_cons]
        omega
      rw [hhalf] at hlen ⊢
      unfold sumU16s
      rw [toU32_of_lt (by omega)]
      obtain ⟨hrest, hle, halike⟩ := sumU16s_spec e bs (sum + hostU16 e b₀ b₁) (by omega)
      refine ⟨hrest, by omega, halike.trans ?_⟩
      rw [Nat.add_assoc]
      exact (Alike.refl _ sum).add (word_alike e b₀ b₁ bs)

theorem addCarry_spec {k : Nat} (hm : m < 4294967296) (hk : k < 4294967296) :
    Alike 65536 (addCarry m k) (m + k) ∧ addCarry m k < 4294967296 := by
  unfold addCarry toU32
  dsimp only
  split
  · next hcarry =>
      refine ⟨⟨?_, by omega⟩, by omega⟩
      show _ % 65535 = _ % 65535
      omega
  · next hnone =>
      refine ⟨⟨?_, by omega⟩, by omega⟩
      show _ % 65535 = _ % 65535
      omega

theorem exists_eight {l : List Byte} (h : 8 ≤ l.length) :
    ∃ b₀ b₁ b₂ b₃ b₄ b₅ b₆ b₇ bs, l = b₀ :: b₁ :: b₂ :: b₃ :: b₄ :: b₅ :: b₆ :: b₇ :: bs := by
  rcases l with _ | ⟨b₀, _ | ⟨b₁, _ | ⟨b₂, _ | ⟨b₃, _ | ⟨b₄, _ | ⟨b₅, _ | ⟨b₆, _ | ⟨b₇, bs⟩⟩⟩⟩⟩⟩⟩⟩
  case cons.cons.cons.cons.cons.cons.cons.cons => exact ⟨_, _, _, _, _, _, _, _, _, rfl⟩
  all_goals simp at h

theorem sumU32s_spec (e : ByteOrder) (bs : List Byte) (sum : Nat) (hsum : sum < 4294967296) :
    (sumU32s e bs sum).2.length ≤ 7 ∧ (sumU32s e bs sum).1 < 4294967296 ∧
      Alike 65536 ((sumU32s e bs sum).1 + e.unit * number (sumU32s e bs sum).2) (sum + e.unit * number bs) := by
  induction bs, sum using sumU32s.induct e with
  | case1 b₀ b₁ b₂ b₃ b₄ b₅ b₆ b₇ bs sum ih =>
      obtain ⟨hping, hpingLt⟩ := addCarry_spec hsum (hostU32_lt e b₀ b₁ b₂ b₃)
      obtain ⟨hpong, hpongLt⟩ := addCarry_spec hpingLt (hostU32_lt e b₄ b₅ b₆ b₇)
      obtain ⟨hrest, hlt, halike⟩ := ih hpongLt
      unfold sumU32s
      refine ⟨hrest, hlt, halike.trans ?_⟩
      have hwords : Alike 65536 (sum + hostU32 e b₀ b₁ b₂ b₃ + hostU32 e b₄ b₅ b₆ b₇ + e.unit * number bs)
          (sum + (hostU16 e b₀ b₁ +
              (hostU16 e b₂ b₃ + (hostU16 e b₄ b₅ + (hostU16 e b₆ b₇ + e.unit * number bs))))) := by
        have hboth := ((Alike.refl 65536 sum).add (hostU32_alike e b₀ b₁ b₂ b₃)).add (hostU32_alike e b₄ b₅ b₆ b₇)
        refine (hboth.add (Alike.refl _ (e.unit * number bs))).trans ?_
        simp only [Nat.add_assoc]
        exact Alike.refl _ _
      refine ((hpong.trans (hping.add (Alike.refl _ _))).add (Alike.refl _ _)).trans (hwords.trans ?_)
      refine (Alike.refl _ sum).add (Alike.trans ?_ (word_alike e b₀ b₁ _))
      refine (Alike.refl _ _).add (Alike.trans ?_ (word_alike e b₂ b₃ _))
      refine (Alike.refl _ _).add (Alike.trans ?_ (word_alike e b₄ b₅ _))
      exact (Alike.refl _ _).add (word_alike e b₆ b₇ bs)
  | case2 bs sum hfew =>
      have hstop : sumU32s e bs sum = (sum, bs) := by
        rw [sumU32s.eq_def]
        split
        · next b₀ b₁ b₂ b₃ b₄ b₅ b₆ b₇ bs' => exact absurd rfl (hfew b₀ b₁ b₂ b₃ b₄ b₅ b₆ b₇ bs')
        · rfl
      rw [hstop]
      refine ⟨?_, hsum, Alike.refl _ _⟩
      by_contra hmany
      obtain ⟨b₀, b₁, b₂, b₃, b₄, b₅, b₆, b₇, bs', heq⟩ := exists_eight (Nat.lt_of_not_le hmany)
      exact hfew b₀ b₁ b₂ b₃ b₄ b₅ b₆ b₇ bs' heq

/-! ## The three versions -/

/-- The end bytes, of which the first one belongs in front if the address is odd. -/
theorem chksumEnd_alike (e : ByteOrder) (odd : Bool) (first : Byte) {rest : List Byte} (hrest : rest.length ≤ 1)
    (hx : x + 65535 < 4294967296) :
    Alike 65536 (chksumEnd e odd first rest x)
      (weight odd * (x + e.unit * number rest + e.unit * (256 * first.toNat))) ∧
      chksumEnd e odd first rest x < 65536 := by
  have hword := hostU16_lt e (rest.headD 0) first
  have hend : Alike 65536 (hostU16 e (rest.headD 0) first) (e.unit * number rest + e.unit * (256 * first.toNat)) := by
    refine (hostU16_alike e _ _).trans ?_
    rw [← Nat.mul_add]
    rcases rest with _ | ⟨b, _ | ⟨b', bs⟩⟩
    · exact Alike.refl _ _
    · rw [number_cons, number_nil]
      exact Alike.refl _ _
    · simp only [List.length_cons] at hrest
      omega
  unfold chksumEnd
  rw [toU32_of_lt (by omega)]
  dsimp only
  obtain ⟨n, hn⟩ : ∃ n, n = foldU32t (foldU32t (x + hostU16 e (rest.headD 0) first)) := ⟨_, rfl⟩
  have hlt : n < 65536 := by
    rw [hn]
    exact foldU32t_twice_lt (by omega)
  have hfold : Alike 65536 n (x + e.unit * number rest + e.unit * (256 * first.toNat)) := by
    rw [hn, Nat.add_assoc]
    exact ((foldU32t_alike _).trans (foldU32t_alike _)).trans ((Alike.refl _ x).add hend)
  obtain ⟨halike, hun⟩ := unswap_alike (show (n, odd).1 < 65536 from hlt)
  rw [← hn, show (if odd = true then swapBytesInWord n else n) = unswap (n, odd) from rfl, toU16_of_lt hun]
  exact ⟨halike.trans (hfold.mul_left _), hun⟩

/-- A byte in front of words that begin at an odd address. -/
theorem odd_alike (e : ByteOrder) (b : Byte) (bs : List Byte) :
    Alike 65536 (weight true * (e.unit * number bs + e.unit * (256 * b.toNat))) (e.unit * number (b :: bs)) := by
  have hsum := ((Alike.refl 65536 (256 * (e.unit * number bs))).add (alike_two (e.unit * b.toNat)))
  have hleft : weight true * (e.unit * number bs + e.unit * (256 * b.toNat)) =
      256 * (e.unit * number bs) + 256 * (256 * (e.unit * b.toNat)) := by
    rw [show weight true = 256 from rfl]
    ring
  have hright : e.unit * number (b :: bs) = 256 * (e.unit * number bs) + e.unit * b.toNat := by
    rw [number_cons]
    ring
  rw [hleft, hright]
  exact hsum

theorem even_alike (e : ByteOrder) (bs : List Byte) :
    Alike 65536 (weight false * (e.unit * number bs + e.unit * (256 * (0 : Byte).toNat))) (e.unit * number bs) := by
  rw [show weight false = 1 from rfl, show 256 * (0 : Byte).toNat = 0 from rfl, Nat.mul_zero, Nat.one_mul, Nat.add_zero]
  exact Alike.refl _ _

/-- What a version leaves: the sum of the words with its carries. -/
structure Sums (e : ByteOrder) (bs : List Byte) (n : Nat) : Prop where
  alike : Alike 65536 n (e.unit * number bs)
  lt    : n < 65536

theorem Sums.eq (h : Sums e bs n) : n = wrap 65536 (wordSum e bs) :=
  (h.alike.trans (wordSum_alike e bs).symm).eq_wrap (by decide) h.lt

/-- The end of version 1, which has counted the first byte of a word highest. -/
theorem chksum1_end (e : ByteOrder) (halike : Alike 65536 n (256 * number bs)) (hn : n < 4294967296) :
    Sums e bs (htons e (toU16 (if foldU32t n / 65536 ≠ 0 then foldU32t (foldU32t n) else foldU32t n : Nat))) := by
  obtain ⟨m, hm⟩ : ∃ m, m = if foldU32t n / 65536 ≠ 0 then foldU32t (foldU32t n) else foldU32t n := ⟨_, rfl⟩
  have hsum : Alike 65536 m (256 * number bs) ∧ m < 65536 := by
    rw [hm]
    split
    · exact ⟨((foldU32t_alike _).trans (foldU32t_alike n)).trans halike, foldU32t_twice_lt hn⟩
    · next hsmall => exact ⟨(foldU32t_alike n).trans halike, by omega⟩
  rw [← hm, toU16_of_lt hsum.2]
  cases e with
  | little =>
      refine ⟨?_, swapBytesInWord_lt m⟩
      rw [ByteOrder.unit, Nat.one_mul]
      exact ((swapBytesInWord_alike hsum.2).trans (hsum.1.mul_left 256)).trans (alike_two _)
  | big => exact ⟨hsum.1, hsum.2⟩

theorem lwipStandardChksum1_sums (e : ByteOrder) (hlen : bs.length ≤ 131072) :
    Sums e bs (lwipStandardChksum1 e bs) := by
  obtain ⟨hrest, hle, halike⟩ := sumU16s_spec .big bs 0 (by omega)
  rw [Nat.zero_add] at hle halike
  unfold lwipStandardChksum1
  generalize sumU16s .big bs 0 = r at hrest hle halike
  obtain ⟨acc, rest⟩ := r
  dsimp only at hrest hle halike ⊢
  rcases rest with _ | ⟨b, _ | ⟨b', rest⟩⟩
  · exact chksum1_end e halike (show acc < 4294967296 by omega)
  · have hb := b.toNat_lt
    have hsum : toU32 (acc + 256 * b.toNat : Nat) = acc + 256 * b.toNat := toU32_of_lt (by omega)
    rw [number_cons, number_nil] at halike
    refine chksum1_end (n := toU32 (acc + 256 * b.toNat : Nat)) e ?_ (toU32_lt _)
    rw [hsum]
    exact halike
  · simp only [List.length_cons] at hrest
    omega

/-- The words from an address on, and the bytes at the ends. -/
theorem chksum_ends {odd : Bool} {first : Byte} {cs rest : List Byte} (hrest : rest.length ≤ 1)
    (hn : n + 65535 < 4294967296)
    (halike : Alike 65536 (n + e.unit * number rest) (e.unit * number cs))
    (hall : (odd = true ∧ bs = first :: cs) ∨ (first = 0 ∧ bs = cs ∧ (odd = true → bs = []))) :
    Sums e bs (chksumEnd e odd first rest n) := by
  obtain ⟨hend, hlt⟩ := chksumEnd_alike e odd first hrest hn
  refine ⟨(hend.trans ((halike.add (Alike.refl _ _)).mul_left _)).trans ?_, hlt⟩
  rcases hall with ⟨rfl, rfl⟩ | ⟨rfl, rfl, hempty⟩
  · exact odd_alike e first cs
  · cases odd with
    | false => exact even_alike e bs
    | true =>
        rw [hempty rfl]
        exact Alike.refl _ _

theorem lwipStandardChksum2_sums (e : ByteOrder) (addr : Nat) (hlen : bs.length ≤ 131072) :
    Sums e bs (lwipStandardChksum2 e addr bs) := by
  have hwords : ∀ cs : List Byte, cs.length ≤ 131072 → (sumU16s e cs 0).2.length ≤ 1 ∧
    (sumU16s e cs 0).1 + 65535 < 4294967296 ∧
      Alike 65536 ((sumU16s e cs 0).1 + e.unit * number (sumU16s e cs 0).2) (e.unit * number cs) := by
    intro cs hcs
    obtain ⟨hrest, hle, halike⟩ := sumU16s_spec e cs 0 (by omega)
    rw [Nat.zero_add] at hle halike
    exact ⟨hrest, by omega, halike⟩
  unfold lwipStandardChksum2
  cases hodd : decide (addr % 2 = 1) with
  | false =>
      obtain ⟨hrest, hlt, halike⟩ := hwords bs hlen
      exact chksum_ends hrest hlt halike (.inr ⟨rfl, rfl, fun htrue => by cases htrue⟩)
  | true =>
      cases bs with
      | nil =>
          obtain ⟨hrest, hlt, halike⟩ := hwords [] hlen
          exact chksum_ends hrest hlt halike (.inr ⟨rfl, rfl, fun _ => rfl⟩)
      | cons b cs =>
          rw [List.length_cons] at hlen
          obtain ⟨hrest, hlt, halike⟩ := hwords cs (by omega)
          exact chksum_ends hrest hlt halike (.inl ⟨rfl, rfl⟩)

/-- The words of version 3, from an even address on. -/
theorem chksumWords_spec (e : ByteOrder) (addr : Nat) (bs : List Byte) :
    (chksumWords e addr bs).2.length ≤ 1 ∧ (chksumWords e addr bs).1 + 65535 < 4294967296 ∧
      Alike 65536 ((chksumWords e addr bs).1 + e.unit * number (chksumWords e addr bs).2) (e.unit * number bs) := by
  -- the first word, up to a multiple of 4
  have hfirst : ∀ (sum : Nat) (cs : List Byte), sum < 4294967296 →
    Alike 65536 (sum + e.unit * number cs) (e.unit * number bs) →
      (sumU16s e (sumU32s e cs sum).2 (foldU32t (sumU32s e cs sum).1)).2.length ≤ 1 ∧
      (sumU16s e (sumU32s e cs sum).2 (foldU32t (sumU32s e cs sum).1)).1 + 65535 < 4294967296 ∧
      Alike 65536 ((sumU16s e (sumU32s e cs sum).2 (foldU32t (sumU32s e cs sum).1)).1 +
        e.unit * number (sumU16s e (sumU32s e cs sum).2 (foldU32t (sumU32s e cs sum).1)).2) (e.unit * number bs) := by
    intro sum cs hsum halike
    obtain ⟨hfew, hlt, hlong⟩ := sumU32s_spec e cs sum hsum
    have hfold : foldU32t (sumU32s e cs sum).1 < 131072 := by
      unfold foldU32t
      omega
    obtain ⟨hrest, hle, hshort⟩ := sumU16s_spec e (sumU32s e cs sum).2 (foldU32t (sumU32s e cs sum).1) (by omega)
    refine ⟨hrest, by omega, hshort.trans ?_⟩
    exact (((foldU32t_alike _).add (Alike.refl _ _)).trans hlong).trans halike
  unfold chksumWords
  rcases bs with _ | ⟨b₀, _ | ⟨b₁, bs⟩⟩
  · exact hfirst 0 [] (by decide) (Alike.refl _ _)
  · refine hfirst 0 [b₀] (by decide) ?_
    rw [Nat.zero_add]
    exact Alike.refl _ _
  · dsimp only
    split
    · have hword := hostU16_lt e b₀ b₁
      exact hfirst (hostU16 e b₀ b₁) bs (by omega) (word_alike e b₀ b₁ bs)
    · refine hfirst 0 (b₀ :: b₁ :: bs) (by decide) ?_
      rw [Nat.zero_add]
      exact Alike.refl _ _

theorem lwipStandardChksum3_sums (e : ByteOrder) (addr : Nat) (bs : List Byte) :
    Sums e bs (lwipStandardChksum3 e addr bs) := by
  unfold lwipStandardChksum3
  cases hodd : decide (addr % 2 = 1) with
  | false =>
      obtain ⟨hrest, hlt, halike⟩ := chksumWords_spec e addr bs
      exact chksum_ends hrest hlt halike (.inr ⟨rfl, rfl, fun htrue => by cases htrue⟩)
  | true =>
      cases bs with
      | nil =>
          obtain ⟨hrest, hlt, halike⟩ := chksumWords_spec e addr []
          exact chksum_ends hrest hlt halike (.inr ⟨rfl, rfl, fun _ => rfl⟩)
      | cons b cs =>
          obtain ⟨hrest, hlt, halike⟩ := chksumWords_spec e (addr + 1) cs
          exact chksum_ends hrest hlt halike (.inl ⟨rfl, rfl⟩)

/-- **`LWIP_CHKSUM`.** -/
theorem lwipChksum_sums (c : ChksumPort) (a : Pointer) (hlen : bs.length ≤ 131072) :
    Sums c.order bs (lwipChksum c a bs) := by
  unfold lwipChksum
  cases c.algorithm with
  | one => exact lwipStandardChksum1_sums c.order hlen
  | two => exact lwipStandardChksum2_sums c.order _ hlen
  | three => exact lwipStandardChksum3_sums c.order _ bs

/-! ## Chains of pbufs -/

/-- Swapping once more. -/
theorem weight_not (swapped : Bool) (n : Nat) : Alike 65536 (weight (!swapped) * n) (weight swapped * (256 * n)) := by
  cases swapped with
  | false =>
      rw [show weight false * (256 * n) = 256 * n from Nat.one_mul _]
      exact Alike.refl _ _
  | true =>
      rw [show weight (!true) * n = n from Nat.one_mul _]
      exact (alike_two n).symm

/-- A sum that goes through a chain: what it stands for, when `T` follows. -/
theorem chksumRound_spec (c : ChksumPort) (a : Pointer) (bs : List Byte) (len : Nat) {st : Nat × Bool}
    (hst : st.1 < 65536)
    (hlen : bs.length ≤ 131072) :
    (chksumRound c a bs len st).1 < 65536 ∧ ∀ T, (T ≠ 0 → bs.length = len) →
      Alike 65536 (weight (chksumRound c a bs len st).2 * ((chksumRound c a bs len st).1 + c.order.unit * T))
        (weight st.2 * (st.1 + c.order.unit * (number bs + 256 ^ bs.length * T))) := by
  obtain ⟨halike, hlt⟩ := lwipChksum_sums c a hlen
  obtain ⟨n, hn⟩ : ∃ n, n = foldU32t (toU32 (st.1 + lwipChksum c a bs : Nat)) := ⟨_, rfl⟩
  have hnlt : n < 65536 := by
    rw [hn, toU32_of_lt (by omega)]
    exact foldU32t_lt (by omega)
  have hsum : Alike 65536 n (st.1 + c.order.unit * number bs) := by
    rw [hn, toU32_of_lt (by omega)]
    exact (foldU32t_alike _).trans ((Alike.refl _ _).add halike)
  unfold chksumRound
  rw [← hn]
  dsimp only
  split
  · next hodd =>
      refine ⟨swapBytesInWord_lt n, fun T hT => (weight_not _ _).trans (Alike.mul_left _ ?_)⟩
      -- the next pbuf begins in the middle of a word
      have hshift : Alike 65536 (256 * (c.order.unit * T)) (c.order.unit * (256 ^ bs.length * T)) := by
        by_cases hzero : T = 0
        · rw [hzero, Nat.mul_zero, Nat.mul_zero, Nat.mul_zero]
          exact Alike.refl _ 0
        · rw [Nat.mul_left_comm]
          exact ((alike_odd (by rw [hT hzero]; omega) T).symm).mul_left _
      have hback : Alike 65536 (256 * swapBytesInWord n) n :=
        ((swapBytesInWord_alike hnlt).mul_left 256).trans (alike_two n)
      rw [Nat.mul_add, Nat.mul_add, ← Nat.add_assoc]
      exact (hback.trans hsum).add hshift
  · next heven =>
      refine ⟨hnlt, fun T hT => Alike.mul_left _ ?_⟩
      have hshift : Alike 65536 (c.order.unit * T) (c.order.unit * (256 ^ bs.length * T)) := by
        by_cases hzero : T = 0
        · rw [hzero, Nat.mul_zero]
          exact Alike.refl _ _
        · exact ((alike_even (by rw [hT hzero]; omega) T).symm).mul_left _
      rw [Nat.mul_add, ← Nat.add_assoc]
      exact hsum.add hshift

/-- **The loop over a chain.** -/
theorem chksumLoop_spec (c : ChksumPort) (s : Packets) : ∀ (qs : List Nat) (st : Nat × Bool), st.1 < 65536 →
    (∀ q ∈ qs, (s.pbuf q).len < 65536) → (chksumLoop c s qs st).1 < 65536 ∧
      Alike 65536 (weight (chksumLoop c s qs st).2 * (chksumLoop c s qs st).1)
        (weight st.2 * (st.1 + c.order.unit * number (s.text qs)))
  | [],      st, hst, _     => ⟨hst, Alike.refl _ _⟩
  | q :: qs, st, hst, hlens => by
      have hlen := s.payload_length q
      have hq := hlens q List.mem_cons_self
      unfold chksumLoop
      obtain ⟨hround, hsum⟩ := chksumRound_spec c (s.pbuf q).payload (s.payload q) (s.pbuf q).len hst (by omega)
      obtain ⟨hlt, hloop⟩ := chksumLoop_spec c s qs _ hround fun r hr => hlens r (List.mem_cons_of_mem q hr)
      refine ⟨hlt, hloop.trans ?_⟩
      rw [Packets.text_cons, number_append]
      exact hsum _ fun _ => hlen

theorem chksumPartialLoop_zero (c : ChksumPort) (s : Packets) (qs : List Nat) (st : Nat × Bool) :
    chksumPartialLoop c s qs 0 st = st := by
  cases qs <;> rfl

/-- The loop that ends after `chksumLen` bytes. -/
theorem chksumPartialLoop_spec (c : ChksumPort) (s : Packets) : ∀ (qs : List Nat) (chksumLen : Nat) (st : Nat × Bool),
    st.1 < 65536 → (∀ q ∈ qs, (s.pbuf q).len < 65536) → (chksumPartialLoop c s qs chksumLen st).1 < 65536 ∧
      Alike 65536 (weight (chksumPartialLoop c s qs chksumLen st).2 * (chksumPartialLoop c s qs chksumLen st).1)
        (weight st.2 * (st.1 + c.order.unit * number ((s.text qs).take chksumLen)))
  | [],      chksumLen, st, hst, _     => by
      rw [Packets.text_nil, List.take_nil, number_nil]
      exact ⟨hst, Alike.refl _ _⟩
  | q :: qs, chksumLen, st, hst, hlens => by
      have hlen := s.payload_length q
      have hq := hlens q List.mem_cons_self
      unfold chksumPartialLoop
      split
      swap
      · next hdone =>
          rw [show chksumLen = 0 by omega, List.take_zero, number_nil]
          exact ⟨hst, Alike.refl _ _⟩
      dsimp only
      split
      · next hends =>
          -- the sum ends in this pbuf
          have htake : ((s.payload q).take chksumLen).length = chksumLen := by rw [List.length_take]; omega
          obtain ⟨hround, hsum⟩ := chksumRound_spec c (s.pbuf q).payload ((s.payload q).take chksumLen)
            (s.pbuf q).len hst
            (by omega)
          rw [Nat.sub_self, chksumPartialLoop_zero, Packets.text_cons, List.take_append_of_le_length (by omega)]
          have hlast := hsum 0 fun hne => absurd rfl hne
          rw [Nat.mul_zero, Nat.add_zero, Nat.mul_zero, Nat.add_zero] at hlast
          exact ⟨hround, hlast⟩
      · next hmore =>
          rw [← hlen, List.take_length]
          obtain ⟨hround, hsum⟩ := chksumRound_spec c (s.pbuf q).payload (s.payload q) (s.payload q).length hst
            (by omega)
          obtain ⟨hlt, hloop⟩ := chksumPartialLoop_spec c s qs (chksumLen - (s.payload q).length) _ hround
            fun r hr => hlens r (List.mem_cons_of_mem q hr)
          refine ⟨hlt, hloop.trans ?_⟩
          have hwhole : (s.payload q).take chksumLen = s.payload q := List.take_of_length_le (by omega)
          rw [Packets.text_cons, List.take_append, hwhole, number_append]
          exact hsum _ fun _ => rfl


/-- The checksum of a chain. -/
theorem unswap_sums {c : ChksumPort} {st : Nat × Bool} (hlt : st.1 < 65536)
    (halike : Alike 65536 (weight st.2 * st.1) (weight false * (0 + c.order.unit * number bs))) :
    Sums c.order bs (unswap st) := by
  obtain ⟨hun, hunlt⟩ := unswap_alike hlt
  refine ⟨hun.trans (halike.trans ?_), hunlt⟩
  rw [Nat.zero_add, show weight false * (c.order.unit * number bs) = c.order.unit * number bs from Nat.one_mul _]
  exact Alike.refl _ _

/-- The pseudo header of TCP and UDP. -/
def pseudoHeader (src dest : IpAddr) (proto : Byte) (protoLen : Nat) : List Byte :=
  src.bytes ++ dest.bytes ++ [0, proto, UInt8.ofNat (protoLen / 256), UInt8.ofNat (protoLen % 256)]

theorem addAddr_spec {a : IpAddr} (hn : n + 131070 < 4294967296) :
    Alike 65536 (addAddr e n a) (n + e.unit * number a.bytes) ∧ addAddr e n a ≤ n + 131070 := by
  have hlt := hostU32_lt e a.b₀ a.b₁ a.b₂ a.b₃
  have halike : Alike 65536 (ip4AddrGetU32 e a) (e.unit * number a.bytes) := by
    refine (hostU32_alike e _ _ _ _).trans (((Alike.refl _ _).add ?_).trans (word_alike e a.b₀ a.b₁ [a.b₂, a.b₃]))
    have hword := word_alike e a.b₂ a.b₃ []
    rw [number_nil, Nat.mul_zero, Nat.add_zero] at hword
    exact hword
  have hhalves :
      Alike 65536 (ip4AddrGetU32 e a % 65536 + ip4AddrGetU32 e a / 65536 % 65536) (e.unit * number a.bytes) := by
    rw [Nat.add_comm, Nat.mod_eq_of_lt (show ip4AddrGetU32 e a / 65536 < 65536 by unfold ip4AddrGetU32; omega)]
    exact (alike_fold (by decide) _).trans halike
  have hlow : ip4AddrGetU32 e a % 65536 < 65536 := Nat.mod_lt _ (by decide)
  have hhigh : ip4AddrGetU32 e a / 65536 % 65536 < 65536 := Nat.mod_lt _ (by decide)
  unfold addAddr
  generalize ip4AddrGetU32 e a % 65536 = low at hhalves hlow ⊢
  generalize ip4AddrGetU32 e a / 65536 % 65536 = high at hhalves hhigh ⊢
  rw [toU32_of_lt (n := n + low) (by omega), toU32_of_lt (by omega)]
  refine ⟨?_, by omega⟩
  rw [Nat.add_assoc]
  exact (Alike.refl _ n).add hhalves

theorem bytesU16_htons (e : ByteOrder) {n : Nat} (hn : n < 65536) :
    bytesU16 e (htons e n) = [UInt8.ofNat (n / 256), UInt8.ofNat (n % 256)] := by
  cases e with
  | little =>
      simp only [htons, swapBytesInWord, bytesU16]
      rw [show (n % 256 * 256 + n / 256 % 256) % 256 = n / 256 by omega,
        show (n % 256 * 256 + n / 256 % 256) / 256 = n % 256 by omega]
  | big => rfl

theorem toNat_ofNat_byte {n : Nat} (hn : n < 256) : (UInt8.ofNat n).toNat = n := by
  rw [UInt8.toNat_ofNat']
  exact Nat.mod_eq_of_lt hn

/-- A word that is stored and read again. -/
theorem hostU16_bytesU16 (e : ByteOrder) {n : Nat} (hn : n < 65536) :
    ∃ b₀ b₁, bytesU16 e n = [b₀, b₁] ∧ hostU16 e b₀ b₁ = n := by
  cases e with
  | little =>
      refine ⟨_, _, rfl, ?_⟩
      simp only [hostU16]
      rw [toNat_ofNat_byte (by omega), toNat_ofNat_byte (by omega)]
      omega
  | big =>
      refine ⟨_, _, rfl, ?_⟩
      simp only [hostU16]
      rw [toNat_ofNat_byte (by omega), toNat_ofNat_byte (by omega)]
      omega

/-- A word in network order. -/
theorem hostU16_htons (e : ByteOrder) {n : Nat} (hn : n < 65536) :
    hostU16 e (UInt8.ofNat (n / 256)) (UInt8.ofNat (n % 256)) = htons e n := by
  have hlt : htons e n < 65536 := by
    cases e
    · exact swapBytesInWord_lt n
    · exact hn
  obtain ⟨b₀, b₁, hbytes, hword⟩ := hostU16_bytesU16 e hlt
  rw [bytesU16_htons e hn] at hbytes
  obtain ⟨hhigh, hbytes⟩ := List.cons.inj hbytes
  rw [hhigh, (List.cons.inj hbytes).1]
  exact hword

/-- The sum of the pseudo header. -/
theorem pseudoEnd_eq {src dest : IpAddr} {proto : Byte} {protoLen : Nat} (hproto : protoLen < 65536)
    (hsum : Sums e bs n) : pseudoEnd e src dest proto protoLen n =
      not16 (wrap 65536 (wordSum e (pseudoHeader src dest proto protoLen ++ bs))) := by
  obtain ⟨halike, hlt⟩ := hsum
  have hword := word_alike e 0 proto [UInt8.ofNat (protoLen / 256), UInt8.ofNat (protoLen % 256)]
  have hlast := word_alike e (UInt8.ofNat (protoLen / 256)) (UInt8.ofNat (protoLen % 256)) []
  rw [number_nil, Nat.mul_zero, Nat.add_zero, hostU16_htons e hproto] at hlast
  have hprotoWord : hostU16 e 0 proto = htons e proto.toNat := by
    have hp := proto.toNat_lt
    cases e with
    | little =>
        simp only [hostU16, htons, swapBytesInWord]
        rw [show (0 : Byte).toNat = 0 from rfl]
        omega
    | big =>
        simp only [hostU16, htons]
        rw [show 256 * (0 : Byte).toNat = 0 from rfl, Nat.zero_add]
  have hprotoLt := hostU16_lt e 0 proto
  have hlenLt := hostU16_lt e (UInt8.ofNat (protoLen / 256)) (UInt8.ofNat (protoLen % 256))
  rw [hostU16_htons e hproto] at hlenLt
  rw [hprotoWord] at hword hprotoLt
  obtain ⟨hsrc, hsrcLe⟩ := addAddr_spec (e := e) (a := src) (n := n) (by omega)
  obtain ⟨hdest, hdestLe⟩ := addAddr_spec (e := e) (a := dest) (n := addAddr e n src) (by omega)
  -- the words of the pseudo header, and those of the data
  have hheader : Alike 65536 (e.unit * number (pseudoHeader src dest proto protoLen ++ bs))
      (n + e.unit * number src.bytes + e.unit * number dest.bytes + htons e proto.toNat + htons e protoLen) := by
    have hevenAll : (pseudoHeader src dest proto protoLen).length % 2 = 0 := by
      rw [show (pseudoHeader src dest proto protoLen).length = 12 from rfl]
    have hevenAddrs : (src.bytes ++ dest.bytes).length % 2 = 0 := by
      rw [show (src.bytes ++ dest.bytes).length = 8 from rfl]
    have hevenSrc : src.bytes.length % 2 = 0 := by
      rw [show src.bytes.length = 4 from rfl]
    have hrest := (append_alike e bs hevenAll).trans ((Alike.refl _ _).add halike.symm)
    have haddrs := (append_alike e [0, proto, UInt8.ofNat (protoLen / 256), UInt8.ofNat (protoLen % 256)]
      hevenAddrs).trans
      ((append_alike e dest.bytes hevenSrc).add (hword.symm.trans ((Alike.refl _ _).add hlast.symm)))
    refine hrest.trans ((haddrs.add (Alike.refl _ n)).trans ?_)
    rw [show e.unit * number src.bytes + e.unit * number dest.bytes + (htons e proto.toNat + htons e protoLen) + n =
      n + e.unit * number src.bytes + e.unit * number dest.bytes + htons e proto.toNat + htons e protoLen by ring]
    exact Alike.refl _ _
  have hall : Alike 65536 (addAddr e (addAddr e n src) dest + htons e proto.toNat + htons e protoLen)
      (wordSum e (pseudoHeader src dest proto protoLen ++ bs)) := by
    refine Alike.trans ?_ (hheader.symm.trans (wordSum_alike e _).symm)
    exact ((hdest.trans (hsrc.add (Alike.refl _ _))).add (Alike.refl _ _)).add (Alike.refl _ _)
  unfold pseudoEnd
  dsimp only
  rw [toU32_of_lt (n := addAddr e (addAddr e n src) dest + htons e proto.toNat) (by omega), toU32_of_lt (by omega)]
  congr 1
  exact (((foldU32t_alike _).trans (foldU32t_alike _)).trans hall).eq_wrap (by decide) (foldU32t_twice_lt (by omega))

end

/-! ## The checksum does not depend on how it is computed -/

theorem bytesU16_swapped {n : Nat} (hn : n < 65536) : bytesU16 .big (swapBytesInWord n) = bytesU16 .little n := by
  rw [bytesU16, bytesU16, swapBytesInWord]
  rw [show (n % 256 * 256 + n / 256 % 256) / 256 = n % 256 by omega,
    show (n % 256 * 256 + n / 256 % 256) % 256 = n / 256 by omega]

theorem swapBytesInWord_bytes {high low : Nat} (hhigh : high < 256) (hlow : low < 256) :
    swapBytesInWord (256 * high + low) = 256 * low + high := by
  unfold swapBytesInWord
  omega

theorem not16_swapped {n : Nat} (hn : n < 65536) : not16 (swapBytesInWord n) = swapBytesInWord (not16 n) := by
  obtain ⟨high, low, hhigh, hlow, rfl⟩ : ∃ high low, high < 256 ∧ low < 256 ∧ n = 256 * high + low :=
    ⟨n / 256, n % 256, by omega, Nat.mod_lt n (by decide), (Nat.div_add_mod n 256).symm⟩
  have hnot : not16 (256 * high + low) = 256 * (255 - high) + (255 - low) := by
    unfold not16
    omega
  rw [hnot, swapBytesInWord_bytes hhigh hlow, swapBytesInWord_bytes (by omega) (by omega)]
  unfold not16
  omega

/-- In one byte order the sum is the one in the other order, swapped. -/
theorem Sums.swapped {bs : List Byte} {m n : Nat} (h : Sums .little bs m) (h' : Sums .big bs n) :
    n = swapBytesInWord m := by
  have hlittle := h.alike
  have hbig := h'.alike
  rw [ByteOrder.unit, Nat.one_mul] at hlittle
  rw [ByteOrder.unit] at hbig
  exact (hbig.trans ((swapBytesInWord_alike h.lt).trans (hlittle.mul_left 256)).symm).eq_of_lt h'.lt
    (swapBytesInWord_lt _)

/-- In memory a sum has the same bytes on every host, and so has its complement. -/
theorem Sums.bytes_agree {e e' : ByteOrder} {bs : List Byte} {m n : Nat} (h : Sums e bs m) (h' : Sums e' bs n) :
    bytesU16 e m = bytesU16 e' n ∧ bytesU16 e (not16 m) = bytesU16 e' (not16 n) := by
  have hswapped : ∀ {m n : Nat}, Sums .little bs m → Sums .big bs n →
      bytesU16 .little m = bytesU16 .big n ∧ bytesU16 .little (not16 m) = bytesU16 .big (not16 n) := by
    intro m n hlittle hbig
    have hnot : not16 m < 65536 := by
      unfold not16
      omega
    rw [hlittle.swapped hbig, not16_swapped hlittle.lt, bytesU16_swapped hlittle.lt, bytesU16_swapped hnot]
    exact ⟨rfl, rfl⟩
  cases e with
  | little =>
      cases e' with
      | little =>
          rw [h.eq, h'.eq]
          exact ⟨rfl, rfl⟩
      | big => exact hswapped h h'
  | big =>
      cases e' with
      | little => exact ⟨(hswapped h' h).1.symm, (hswapped h' h).2.symm⟩
      | big =>
          rw [h.eq, h'.eq]
          exact ⟨rfl, rfl⟩

/-- A host with the low byte first, which adds by words. -/
def littlePort : ChksumPort := ⟨.little, .three, Pointer.off⟩

/-- A host with the high byte first, which adds by bytes. -/
def bigPort : ChksumPort := ⟨.big, .one, Pointer.off⟩

variable {cfg : PbufConfig} {s : PbufSys} {tr : List (PbufSys × PbufAct)} {p : Nat} {pbuf : Nat → Pbuf}
  {size : Nat → Nat}
  {data : Option Nat → Lib.Mem}

end ThirdParty.Lwip
