import Mathlib.Algebra.Order.Ring.Nat
import Mathlib.Data.List.Basic
import Mathlib.Data.List.Range
import Mathlib.Data.List.TakeWhile

/-!
# `Lib.Bytes` — flat memory, byte ranges, C integers and C strings

A memory is a total function from addresses to bytes. `bytesAt m a n` is the content of the `n` bytes at `a`;
the lemmas cut such a range in two, which is all that a cursor walking through it needs.

Fixed-width unsigned C values are `Nat`s below their bound. A store to such a variable goes through `toU8`,
`toU16` or `toU32`, which take the mathematical (possibly negative) value and reduce it modulo the width.
-/

namespace ThirdParty.Lib

abbrev Byte := UInt8
abbrev Mem := Nat → Byte

/-! ## Stores to fixed-width variables -/

def toU8 (z : Int) : Nat := (z % 256).toNat
def toU16 (z : Int) : Nat := (z % 65536).toNat
def toU32 (z : Int) : Nat := (z % 4294967296).toNat

theorem toU8_lt (z : Int) : toU8 z < 256 := by unfold toU8; omega
theorem toU16_lt (z : Int) : toU16 z < 65536 := by unfold toU16; omega
theorem toU32_lt (z : Int) : toU32 z < 4294967296 := by unfold toU32; omega

/-- A value already in range is stored as it is. -/
theorem toU16_of_lt {n : Nat} (h : n < 65536) : toU16 n = n := by unfold toU16; omega
theorem toU32_of_lt {n : Nat} (h : n < 4294967296) : toU32 n = n := by unfold toU32; omega

/-- A value that is never negative loses its upper bits. -/
theorem toU16_natCast (n : Nat) : toU16 n = n % 65536 := by unfold toU16; omega

/-- A difference that does not go below zero is stored as it is. -/
theorem toU16_sub {a b : Nat} (hb : b ≤ a) (ha : a < 65536) : toU16 ((a : Int) - b) = a - b := by
  unfold toU16; omega

theorem toU32_sub {a b : Nat} (hb : b ≤ a) (ha : a < 4294967296) : toU32 ((a : Int) - b) = a - b := by
  unfold toU32; omega

/-! ## Byte ranges -/

/-- The `n` bytes of `m` from address `a` on. -/
def bytesAt (m : Mem) (a n : Nat) : List Byte := (List.range n).map fun i => m (a + i)

@[simp] theorem bytesAt_length (m : Mem) (a n : Nat) : (bytesAt m a n).length = n := by
  simp [bytesAt]

@[simp] theorem bytesAt_zero (m : Mem) (a : Nat) : bytesAt m a 0 = [] := rfl

/-- A range is its first `k` bytes followed by the rest. -/
theorem bytesAt_add (m : Mem) (a k n : Nat) :
    bytesAt m a (k + n) = bytesAt m a k ++ bytesAt m (a + k) n := by
  simp only [bytesAt, List.range_add, List.map_append, List.map_map]
  congr 1
  apply List.map_congr_left
  intro i _
  simp [Nat.add_assoc]

theorem bytesAt_split {m : Mem} {a k n : Nat} (h : k ≤ n) :
    bytesAt m a n = bytesAt m a k ++ bytesAt m (a + k) (n - k) := by
  have hadd := bytesAt_add m a k (n - k)
  rwa [Nat.add_sub_cancel' h] at hadd

theorem bytesAt_take {m : Mem} {a k n : Nat} (h : k ≤ n) : (bytesAt m a n).take k = bytesAt m a k := by
  rw [bytesAt_split h, List.take_left' (bytesAt_length m a k)]

theorem bytesAt_drop {m : Mem} {a k n : Nat} (h : k ≤ n) :
    (bytesAt m a n).drop k = bytesAt m (a + k) (n - k) := by
  rw [bytesAt_split h, List.drop_left' (bytesAt_length m a k)]

theorem bytesAt_succ (m : Mem) (a n : Nat) : bytesAt m a (n + 1) = bytesAt m a n ++ [m (a + n)] := by
  rw [bytesAt_add]
  rfl

/-! ## Writing bytes -/

/-- `bs` is written over what `l` has from `i` on. -/
def overwrite (l : List Byte) (i : Nat) (bs : List Byte) : List Byte := l.take i ++ (bs ++ l.drop (i + bs.length))

theorem overwrite_nil (l : List Byte) (i : Nat) : overwrite l i [] = l := by
  rw [overwrite, List.nil_append, List.length_nil, Nat.add_zero, List.take_append_drop]

theorem overwrite_zero (l bs : List Byte) : overwrite l 0 bs = bs ++ l.drop bs.length := by
  rw [overwrite, List.take_zero, List.nil_append, Nat.zero_add]

theorem overwrite_length {l bs : List Byte} {i : Nat} (h : i + bs.length ≤ l.length) :
    (overwrite l i bs).length = l.length := by
  simp only [overwrite, List.length_append, List.length_take, List.length_drop]
  omega

/-- What is written behind the end of `a` goes to `b`. -/
theorem overwrite_append_right (a b bs : List Byte) (i : Nat) :
    overwrite (a ++ b) (a.length + i) bs = a ++ overwrite b i bs := by
  rw [overwrite, overwrite, List.take_length_add_append, Nat.add_assoc, List.drop_length_add_append, List.append_assoc]

theorem overwrite_append_left {a bs : List Byte} (b : List Byte) {i : Nat} (h : i + bs.length ≤ a.length) :
    overwrite (a ++ b) i bs = overwrite a i bs ++ b := by
  rw [overwrite, overwrite, List.take_append_of_le_length (by omega), List.drop_append_of_le_length h,
    List.append_assoc,
    List.append_assoc]

/-- Writing one thing behind the other is writing both at once. -/
theorem overwrite_overwrite {l xs ys : List Byte} {i : Nat} (h : i ≤ l.length) :
    overwrite (overwrite l i xs) (i + xs.length) ys = overwrite l i (xs ++ ys) := by
  have hfront : (l.take i ++ xs).length = i + xs.length := by
    rw [List.length_append, List.length_take, Nat.min_eq_left h]
  have hsplit : overwrite l i xs = (l.take i ++ xs) ++ l.drop (i + xs.length) := by rw [overwrite, List.append_assoc]
  have hwrite := overwrite_append_right (l.take i ++ xs) (l.drop (i + xs.length)) ys 0
  rw [hfront, Nat.add_zero] at hwrite
  rw [hsplit, hwrite, overwrite_zero, List.drop_drop, overwrite, List.length_append, List.append_assoc,
    List.append_assoc,
    Nat.add_assoc]

/-- A range of memory after a write inside of it. -/
theorem bytesAt_write {m : Mem} {a i n : Nat} {bs : List Byte} (h : i + bs.length ≤ n) :
    bytesAt (fun x => if a + i ≤ x ∧ x < a + i + bs.length then bs.getD (x - (a + i)) 0 else m x) a n =
      overwrite (bytesAt m a n) i bs := by
  apply List.ext_getElem
  · rw [overwrite_length (by rw [bytesAt_length]; exact h), bytesAt_length, bytesAt_length]
  intro k hk _
  rw [bytesAt_length] at hk
  simp only [bytesAt, overwrite, List.getElem_map, List.getElem_range, List.getElem_append, List.length_take,
    List.length_map,
    List.length_range, List.getElem_take, List.getElem_drop]
  by_cases hbefore : k < i
  · rw [if_neg (by omega), dif_pos (by omega)]
  by_cases hin : k < i + bs.length
  · rw [if_pos (by omega), dif_neg (by omega), dif_pos (by omega), List.getD_eq_getElem?_getD,
      List.getElem?_eq_getElem (by omega), Option.getD_some]
    congr 1
    omega
  · rw [if_neg (by omega), dif_neg (by omega), dif_neg (by omega)]
    congr 1
    omega

/-! ## C strings -/

/-- The C string that starts a buffer: its bytes before the first NUL. -/
def cstr (b : List Byte) : List Byte := b.takeWhile (· ≠ 0)

/-- A terminator written into a C string, or at its end, cuts it there. -/
theorem cstr_set_zero : ∀ {b : List Byte} {i : Nat}, i ≤ (cstr b).length → i < b.length →
    cstr (b.set i 0) = (cstr b).take i
  | [],     _,     _, hlt => absurd hlt (Nat.not_lt_zero _)
  | a :: b, 0,     _, _   => by simp [cstr]
  | a :: b, i + 1, h, hlt => by
      by_cases ha : a = 0
      · simp [cstr, ha] at h
      · have hcons : ∀ l, cstr (a :: l) = a :: cstr l := fun l => by simp [cstr, ha]
        rw [hcons, List.length_cons] at h
        rw [List.set_cons_succ, hcons, hcons, List.take_succ_cons,
          cstr_set_zero (Nat.le_of_succ_le_succ h) (Nat.lt_of_succ_lt_succ hlt)]

/-- A C string ends at a terminator at the latest. -/
theorem cstr_length_le : ∀ {b : List Byte} {i : Nat}, b[i]? = some 0 → (cstr b).length ≤ i
  | [],     _,     h => by simp at h
  | a :: b, 0,     h => by
      obtain rfl : a = 0 := by simpa using h
      simp [cstr]
  | a :: b, i + 1, h => by
      have hrest := cstr_length_le (b := b) (by simpa using h)
      by_cases ha : a = 0
      · simp [cstr, ha]
      · have hcons : cstr (a :: b) = a :: cstr b := by simp [cstr, ha]
        rw [hcons, List.length_cons]
        omega

theorem cstr_isPrefix (b : List Byte) : cstr b <+: b := List.takeWhile_prefix _

/-- `strchr`: the index of the first `ch` of a C string. -/
def strchr (s : List Byte) (ch : Byte) : Option Nat := s.findIdx? (· = ch)

theorem strchr_some {s : List Byte} {ch : Byte} {i : Nat} (h : strchr s ch = some i) : s[i]? = some ch := by
  obtain ⟨hi, hch, -⟩ := List.findIdx?_eq_some_iff_getElem.mp h
  rw [List.getElem?_eq_getElem hi]
  simpa using hch

theorem strchr_lt {s : List Byte} {ch : Byte} {i : Nat} (h : strchr s ch = some i) : i < s.length :=
  (List.getElem?_eq_some_iff.mp (strchr_some h)).1

theorem strchr_eq_none_iff {s : List Byte} {ch : Byte} : strchr s ch = none ↔ ch ∉ s := by
  unfold strchr
  rw [List.findIdx?_eq_none_iff]
  simp only [decide_eq_false_iff_not]
  exact ⟨fun h hmem => h ch hmem rfl, fun h b hb hbch => h (hbch ▸ hb)⟩

/-- The text is cut at the first `ch`. -/
theorem strchr_split {s : List Byte} {ch : Byte} {i : Nat} (h : strchr s ch = some i) :
    s.take i = s.takeWhile (· ≠ ch) ∧ s = s.take i ++ ch :: s.drop (i + 1) := by
  obtain ⟨hlt, hch, hbefore⟩ := List.findIdx?_eq_some_iff_getElem.mp h
  have hsplit : s = s.take i ++ ch :: s.drop (i + 1) := by
    rw [← of_decide_eq_true hch, ← List.drop_eq_getElem_cons hlt, List.take_append_drop]
  have hpass : ∀ b ∈ s.take i, decide (b ≠ ch) = true := by
    intro b hb
    obtain ⟨j, hj, rfl⟩ := List.getElem_of_mem hb
    rw [List.length_take] at hj
    rw [List.getElem_take]
    simpa using hbefore j (by omega)
  refine ⟨?_, hsplit⟩
  conv => rhs; rw [hsplit, List.takeWhile_append_of_pos hpass]
  simp

/-- `strstr(s, t)`: the index of the first occurrence of `t` in `s`. -/
def strstr (s t : List Byte) : Option Nat :=
  (List.range (s.length + 1)).find? fun i => decide (t <+: s.drop i)

theorem strstr_le {s t : List Byte} {i : Nat} (h : strstr s t = some i) : i + t.length ≤ s.length := by
  have hmem := List.mem_of_find?_eq_some h
  have hpre := List.find?_some h
  have hle := (of_decide_eq_true hpre : t <+: s.drop i).length_le
  rw [List.mem_range] at hmem
  rw [List.length_drop] at hle
  omega

theorem strstr_isSome_iff {s t : List Byte} : (strstr s t).isSome = true ↔ t <:+: s := by
  unfold strstr
  rw [List.find?_isSome]
  constructor
  · rintro ⟨i, -, hpre⟩
    exact (of_decide_eq_true hpre).isInfix.trans (List.drop_suffix i s).isInfix
  · rintro ⟨u, v, rfl⟩
    refine ⟨u.length, List.mem_range.mpr ?_, decide_eq_true ?_⟩
    · rw [List.length_append, List.length_append]
      omega
    · rw [List.append_assoc, List.drop_left]
      exact List.prefix_append t v

/-- The number of bytes of `a` that `strcmp(a, b)` looks at: up to the first difference or the end. -/
def strcmpReads : List Byte → List Byte → Nat
  | a :: as, b :: bs => if a = b then strcmpReads as bs + 1 else 1
  | _, _             => 1

/-- `strcmp` looks at the terminator at most. -/
theorem strcmpReads_le : ∀ a b : List Byte, strcmpReads a b ≤ a.length + 1
  | [],      _       => by simp [strcmpReads]
  | _ :: _,  []      => by simp [strcmpReads]
  | x :: as, y :: bs => by
      have ih := strcmpReads_le as bs
      unfold strcmpReads
      split
      · rw [List.length_cons]
        omega
      · rw [List.length_cons]
        omega

/-- The number of bytes of `b` looked at to see whether `b` starts with a pattern. -/
def prefixReads : List Byte → List Byte → Nat
  | p :: ps, b :: bs => if p = b then prefixReads ps bs + 1 else 1
  | _ :: _, []       => 1
  | [], _            => 0

theorem prefixReads_le : ∀ p b : List Byte, prefixReads p b ≤ p.length
  | [],      _       => by simp [prefixReads]
  | _ :: _,  []      => by simp [prefixReads]
  | x :: ps, y :: bs => by
      have ih := prefixReads_le ps bs
      unfold prefixReads
      split
      · rw [List.length_cons]
        omega
      · rw [List.length_cons]
        omega

/-- More than `n` bytes are looked at exactly if the first `n` are those of the pattern. -/
theorem lt_prefixReads_iff : ∀ {p b : List Byte} {n : Nat}, n < p.length → n ≤ b.length →
    (n < prefixReads p b ↔ b.take n = p.take n)
  | [],      _,       _,     hn, _ => absurd hn (Nat.not_lt_zero _)
  | x :: ps, [],      0,     _,  _ => by simp [prefixReads]
  | x :: ps, [],      n + 1, _,  hb => absurd hb (Nat.not_succ_le_zero n)
  | x :: ps, y :: bs, 0,     _,  _ => by
      unfold prefixReads
      split <;> simp
  | x :: ps, y :: bs, n + 1, hn, hb => by
      have ih := lt_prefixReads_iff (p := ps) (b := bs) (Nat.lt_of_succ_lt_succ hn) (Nat.le_of_succ_le_succ hb)
      have hstep : prefixReads (x :: ps) (y :: bs) = if x = y then prefixReads ps bs + 1 else 1 := rfl
      rw [List.take_succ_cons, List.take_succ_cons, List.cons.injEq, ← ih, hstep]
      by_cases hxy : x = y
      · rw [if_pos hxy, Nat.add_lt_add_iff_right]
        exact ⟨fun h => ⟨hxy.symm, h⟩, And.right⟩
      · rw [if_neg hxy]
        exact ⟨fun h => absurd h (by omega), fun h => absurd h.1.symm hxy⟩

/-- The bytes of an ASCII string literal. -/
def lit (s : String) : List Byte := s.toList.map fun c => c.toNat.toUInt8

end ThirdParty.Lib
