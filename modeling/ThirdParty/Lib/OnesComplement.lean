import Mathlib.Data.Nat.ModEq
import Mathlib.Algebra.Order.Ring.Nat

/-!
# `Lib.OnesComplement` — sums whose carries are added again

Adding digits of base `b` and adding the carry to the lowest digit again, one's complement addition, leaves the sum
modulo `b - 1`, where 0 and `b - 1` are two names of the same residue; only a sum of zeros leaves 0. `Alike b m n`
says that `m` and `n` leave the same digit. It is kept by addition and multiplication, so a computation may fold its
carries whenever it likes, and two numbers below `b` that are alike are equal. `wrap b n` is the digit that `n`
leaves.
-/

namespace ThirdParty.Lib

variable {b m n k l : Nat}

/-- `m` and `n` are the same, once their carries are added again. -/
structure Alike (b m n : Nat) : Prop where
  mod  : m ≡ n [MOD b - 1]
  zero : m = 0 ↔ n = 0

theorem Alike.refl (b n : Nat) : Alike b n n := ⟨Nat.ModEq.refl n, Iff.rfl⟩

theorem Alike.symm (h : Alike b m n) : Alike b n m := ⟨h.mod.symm, h.zero.symm⟩

theorem Alike.trans (h : Alike b m n) (h' : Alike b n k) : Alike b m k := ⟨h.mod.trans h'.mod, h.zero.trans h'.zero⟩

theorem Alike.add (h : Alike b m n) (h' : Alike b k l) : Alike b (m + k) (n + l) := by
  refine ⟨h.mod.add h'.mod, ?_⟩
  rw [Nat.add_eq_zero_iff, Nat.add_eq_zero_iff, h.zero, h'.zero]

theorem Alike.mul_left (k : Nat) (h : Alike b m n) : Alike b (k * m) (k * n) := by
  refine ⟨h.mod.mul_left k, ?_⟩
  rw [Nat.mul_eq_zero, Nat.mul_eq_zero, h.zero]

/-- The base counts as 1. -/
theorem alike_base_mul (hb : 1 ≤ b) (n : Nat) : Alike b (b * n) n := by
  have hbase : b ≡ 1 [MOD b - 1] := ((Nat.modEq_iff_dvd' hb).mpr (Nat.dvd_refl _)).symm
  refine ⟨?_, ?_⟩
  · have hmul := hbase.mul_right n
    rw [Nat.one_mul] at hmul
    exact hmul
  · rw [Nat.mul_eq_zero]
    omega

/-- Adding the carry to the lowest digit. -/
theorem alike_fold (hb : 1 ≤ b) (n : Nat) : Alike b (n / b + n % b) n := by
  have hsplit := ((alike_base_mul hb (n / b)).symm.add (Alike.refl b (n % b)))
  rw [Nat.div_add_mod] at hsplit
  exact hsplit

/-- Digits that are alike are the same. -/
theorem Alike.eq_of_lt (h : Alike b m n) (hm : m < b) (hn : n < b) : m = n := by
  rcases Nat.eq_zero_or_pos m with hzero | hpos
  · rw [hzero, h.zero.mp hzero]
  · have hpos' : 0 < n := Nat.pos_of_ne_zero fun hn => absurd (h.zero.mpr hn) (Nat.ne_of_gt hpos)
    have hpred : m - 1 ≡ n - 1 [MOD b - 1] := by
      refine Nat.ModEq.add_right_cancel' 1 ?_
      rw [Nat.sub_add_cancel hpos, Nat.sub_add_cancel hpos']
      exact h.mod
    have hsame := hpred.eq_of_lt_of_lt (by omega) (by omega)
    omega

/-- The digit that `n` leaves. -/
def wrap (b n : Nat) : Nat := if n = 0 then 0 else (n - 1) % (b - 1) + 1

theorem wrap_lt (hb : 1 < b) (n : Nat) : wrap b n < b := by
  unfold wrap
  split
  · omega
  · have hlt := Nat.mod_lt (n - 1) (show b - 1 > 0 by omega)
    omega

theorem wrap_alike (b n : Nat) : Alike b (wrap b n) n := by
  unfold wrap
  split
  · next hzero =>
      rw [hzero]
      exact Alike.refl b 0
  · next hpos =>
      refine ⟨?_, by omega⟩
      have hmod := (Nat.mod_modEq (n - 1) (b - 1)).add_right 1
      rw [Nat.sub_add_cancel (Nat.pos_of_ne_zero hpos)] at hmod
      exact hmod

theorem Alike.eq_wrap (hb : 1 < b) (h : Alike b m n) (hm : m < b) : m = wrap b n :=
  (h.trans (wrap_alike b n).symm).eq_of_lt hm (wrap_lt hb n)

theorem Alike.wrap_eq (hb : 1 < b) (h : Alike b m n) : wrap b m = wrap b n :=
  ((wrap_alike b m).trans h).eq_wrap hb (wrap_lt hb m)

/-- All ones are left by the positive multiples of `b - 1`. -/
theorem wrap_eq_ones_iff (hb : 1 < b) : wrap b n = b - 1 ↔ n ≠ 0 ∧ b - 1 ∣ n := by
  constructor
  · intro h
    have halike := wrap_alike b n
    rw [h] at halike
    refine ⟨fun hzero => absurd (halike.zero.mpr hzero) (by omega), ?_⟩
    exact (Nat.modEq_zero_iff_dvd.mp (halike.mod.symm.trans (Nat.modEq_zero_iff_dvd.mpr (Nat.dvd_refl _))))
  · rintro ⟨hpos, hdvd⟩
    refine (Alike.eq_wrap hb ⟨?_, by omega⟩ (by omega)).symm
    exact (Nat.modEq_zero_iff_dvd.mpr (Nat.dvd_refl _)).trans (Nat.modEq_zero_iff_dvd.mpr hdvd).symm

/-- **Adding the complement of a sum to it leaves all ones.** -/
theorem wrap_add_complement (hb : 1 < b) (n : Nat) : wrap b (n + (b - 1 - wrap b n)) = b - 1 := by
  have hlt := wrap_lt hb n
  have halike := wrap_alike b n
  refine (wrap_eq_ones_iff hb).mpr ⟨fun hzero => ?_, ?_⟩
  · have hn : n = 0 := by omega
    have := halike.zero.mpr hn
    omega
  · have hsum := halike.mod.symm.add_right (b - 1 - wrap b n)
    rw [show wrap b n + (b - 1 - wrap b n) = b - 1 by omega] at hsum
    exact Nat.modEq_zero_iff_dvd.mp (hsum.trans (Nat.modEq_zero_iff_dvd.mpr (Nat.dvd_refl _)))

end ThirdParty.Lib
