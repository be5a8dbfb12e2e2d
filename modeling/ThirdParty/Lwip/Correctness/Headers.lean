import ThirdParty.Lwip.Correctness.Checksum

/-!
# `Lwip.Correctness.Headers` — headers that verify

A receiver takes a header or a message whose `inet_chksum` is 0: the string is, as a number, a positive multiple of
65535. A word at an even place may be replaced alone: what is around it counts the same before and after. So for
each place that writes or adjusts a checksum it is known for which headers the receiver takes what comes out.
-/

namespace ThirdParty.Lwip

open Lib

section
variable {e : ByteOrder} {bs : List Byte} {b : Byte} {i m n d : Nat}

/-! ## What a receiver takes -/

theorem number_eq_zero_iff : ∀ {bs : List Byte}, number bs = 0 ↔ ∀ i, bs.getD i 0 = 0
  | []      => by simp [number_nil]
  | b :: bs => by
      rw [number_cons, Nat.add_eq_zero_iff, Nat.mul_eq_zero, number_eq_zero_iff]
      constructor
      · rintro ⟨hb, hrest⟩ i
        cases i with
        | zero => exact UInt8.toNat_inj.mp hb
        | succ i => exact (hrest.resolve_left (by decide)) i
      · intro hall
        exact ⟨UInt8.toNat_inj.mpr (hall 0), .inr fun i => hall (i + 1)⟩

/-- The unit does not matter for what is a multiple of 65535. -/
theorem unit_dvd_iff (e : ByteOrder) (n : Nat) : 65535 ∣ e.unit * n ↔ 65535 ∣ n := by
  rcases unit_cases e with hunit | hunit
  · rw [hunit, Nat.one_mul]
  · rw [hunit]
    exact Nat.Coprime.dvd_mul_left (by decide)

theorem unit_mul_eq_zero_iff (e : ByteOrder) (n : Nat) : e.unit * n = 0 ↔ n = 0 := by
  rcases unit_cases e with hunit | hunit <;> rw [hunit] <;> omega

/-- **When a string verifies**, on any host. -/
theorem inetChksum_eq_zero_iff (c : ChksumPort) (a : Pointer) (hlen : bs.length ≤ 0x20000) :
    inetChksum c a bs = 0 ↔ number bs ≠ 0 ∧ 65535 ∣ number bs := by
  have hsums := lwipChksum_sums c a hlen
  have hwrap : lwipChksum c a bs = wrap 65536 (c.order.unit * number bs) := hsums.alike.eq_wrap (by decide) hsums.lt
  have hones := wrap_eq_ones_iff (b := 65536) (n := c.order.unit * number bs) (by decide)
  rw [← hwrap, Ne, unit_mul_eq_zero_iff, show 65536 - 1 = 65535 from rfl, unit_dvd_iff] at hones
  rw [← hones]
  have hlt := hsums.lt
  unfold inetChksum not16
  omega

/-! ## Bytes and words at even places -/

/-- What is around the byte at `i` counts, in words of which `i` begins one. -/
def around (e : ByteOrder) (bs : List Byte) (i : Nat) : Nat :=
  e.unit * number (bs.take i) + e.unit * (256 * number (bs.drop (i + 1)))

theorem take_length_of_le (hin : i ≤ bs.length) : (bs.take i).length = i := by
  rw [List.length_take, Nat.min_eq_left hin]

theorem split_alike (e : ByteOrder) (hi : i % 2 = 0) {front : List Byte} (hfront : front.length = i) (b : Byte)
    (back : List Byte) : Alike 65536 (e.unit * number (front ++ b :: back))
      (e.unit * b.toNat + (e.unit * number front + e.unit * (256 * number back))) := by
  refine (append_alike e (b :: back) (by rw [hfront]; exact hi)).trans ?_
  rw [number_cons, Nat.mul_add, Nat.add_left_comm]
  exact Alike.refl _ _

theorem getD_alike (e : ByteOrder) (hi : i % 2 = 0) (hin : i < bs.length) :
    Alike 65536 (e.unit * number bs) (e.unit * (bs.getD i 0).toNat + around e bs i) := by
  have hsplit : bs = bs.take i ++ bs.getD i 0 :: bs.drop (i + 1) := by
    rw [List.getD_eq_getElem?_getD, List.getElem?_eq_getElem hin, Option.getD_some, List.getElem_cons_drop,
      List.take_append_drop]
  have halike := split_alike e hi (take_length_of_le (Nat.le_of_lt hin)) (bs.getD i 0) (bs.drop (i + 1))
  rw [← hsplit] at halike
  exact halike

theorem set_alike (e : ByteOrder) (hi : i % 2 = 0) (hin : i < bs.length) (b : Byte) :
    Alike 65536 (e.unit * number (bs.set i b)) (e.unit * b.toNat + around e bs i) := by
  rw [List.set_eq_take_append_cons_drop, if_pos hin]
  exact split_alike e hi (take_length_of_le (Nat.le_of_lt hin)) b _

/-- What is around the word at `i` counts. -/
def aroundWord (e : ByteOrder) (bs : List Byte) (i : Nat) : Nat :=
  e.unit * number (bs.take i) + e.unit * number (bs.drop (i + 2))

theorem split_word_alike (e : ByteOrder) (hi : i % 2 = 0) {front : List Byte} (hfront : front.length = i) (b₀ b₁ : Byte)
    (back : List Byte) :
    Alike 65536 (e.unit * number (front ++ b₀ :: b₁ :: back))
      (hostU16 e b₀ b₁ + (e.unit * number front + e.unit * number back)) := by
  refine (append_alike e (b₀ :: b₁ :: back) (by rw [hfront]; exact hi)).trans ?_
  rw [Nat.add_left_comm]
  exact (Alike.refl _ _).add (word_alike e b₀ b₁ back).symm

theorem getU16_alike (e : ByteOrder) (hi : i % 2 = 0) (hin : i + 2 ≤ bs.length) :
    Alike 65536 (e.unit * number bs) (getU16 e bs i + aroundWord e bs i) := by
  have hsplit : bs = bs.take i ++ bs.getD i 0 :: bs.getD (i + 1) 0 :: bs.drop (i + 2) := by
    rw [List.getD_eq_getElem?_getD, List.getD_eq_getElem?_getD, List.getElem?_eq_getElem (by omega),
      List.getElem?_eq_getElem (by omega), Option.getD_some, Option.getD_some, List.getElem_cons_drop,
      List.getElem_cons_drop, List.take_append_drop]
  have halike := split_word_alike e hi (take_length_of_le (Nat.le_of_add_right_le hin)) (bs.getD i 0)
    (bs.getD (i + 1) 0)
    (bs.drop (i + 2))
  rw [← hsplit] at halike
  exact halike

theorem setU16_alike (e : ByteOrder) (hi : i % 2 = 0) (hin : i + 2 ≤ bs.length) (hn : n < 65536) :
    Alike 65536 (e.unit * number (setU16 e bs i n)) (n + aroundWord e bs i) := by
  obtain ⟨b₀, b₁, hbytes, hword⟩ := hostU16_bytesU16 e hn
  rw [setU16, hbytes, ← hword]
  exact split_word_alike e hi (take_length_of_le (Nat.le_of_add_right_le hin)) b₀ b₁ _

theorem bytesU16_length (e : ByteOrder) (n : Nat) : (bytesU16 e n).length = 2 := by
  cases e <;> rfl

theorem setU16_length (hin : i + 2 ≤ bs.length) : (setU16 e bs i n).length = bs.length :=
  overwrite_length (by rw [bytesU16_length]; exact hin)

/-- The other bytes stay. -/
theorem setU16_getD {j : Nat} (hin : i + 2 ≤ bs.length) (hj : j ≠ i) (hj' : j ≠ i + 1) :
    (setU16 e bs i n).getD j 0 = bs.getD j 0 := by
  have hfront := take_length_of_le (Nat.le_of_add_right_le hin)
  rw [setU16, overwrite, bytesU16_length, List.getD_eq_getElem?_getD, List.getD_eq_getElem?_getD]
  congr 1
  rcases Nat.lt_or_gt_of_ne hj with hbefore | hbehind
  · rw [List.getElem?_append_left (by omega), List.getElem?_take_of_lt hbefore]
  · rw [List.getElem?_append_right (by omega), List.getElem?_append_right (by rw [bytesU16_length]; omega),
      bytesU16_length,
      List.getElem?_drop, hfront]
    congr 1
    omega

theorem setU16_getD_zero {j : Nat} (hin : i + 2 ≤ bs.length) (hj : j = i ∨ j = i + 1) :
    (setU16 e bs i 0).getD j 0 = 0 := by
  have hfront := take_length_of_le (Nat.le_of_add_right_le hin)
  have hzeros : bytesU16 e 0 = [0, 0] := by
    cases e <;> rfl
  rw [setU16, overwrite, hzeros, List.getD_eq_getElem?_getD, List.getElem?_append_right (by omega), hfront]
  rcases hj with rfl | rfl
  · rw [Nat.sub_self]
    rfl
  · rw [Nat.add_sub_cancel_left]
    rfl

theorem set_getD_self (hin : i < bs.length) : (bs.set i b).getD i 0 = b := by
  rw [List.getD_eq_getElem?_getD, List.getElem?_set_self hin, Option.getD_some]

theorem set_getD_ne {j : Nat} (hj : j ≠ i) : (bs.set i b).getD j 0 = bs.getD j 0 := by
  rw [List.getD_eq_getElem?_getD, List.getD_eq_getElem?_getD, List.getElem?_set_ne (Ne.symm hj)]

theorem aroundWord_eq_zero_iff (e : ByteOrder) (hi : i % 2 = 0) (hin : i + 2 ≤ bs.length) :
    aroundWord e bs i = 0 ↔ ∀ j, j ≠ i → j ≠ i + 1 → bs.getD j 0 = 0 := by
  have hzero := (setU16_alike e hi hin (show 0 < 65536 by decide)).zero
  rw [unit_mul_eq_zero_iff, Nat.zero_add, number_eq_zero_iff] at hzero
  rw [← hzero]
  constructor
  · intro hall j hj hj'
    rw [← setU16_getD hin hj hj']
    exact hall j
  · intro hothers j
    by_cases hword : j = i ∨ j = i + 1
    · exact setU16_getD_zero hin hword
    · rw [setU16_getD hin (fun hj => hword (.inl hj)) (fun hj => hword (.inr hj))]
      exact hothers j (fun hj => hword (.inl hj)) (fun hj => hword (.inr hj))

/-- **When a receiver sees that a word has changed**: always, unless zeros became ones, or ones became zeros and not
    everything is 0 now. -/
theorem changed_word_verifies_iff (c c' : ChksumPort) (a a' : Pointer) (hi : i % 2 = 0) (hin : i + 2 ≤ bs.length)
    (hlen : bs.length ≤ 0x20000) (hn : n < 65536) (hok : inetChksum c a bs = 0) :
    inetChksum c' a' (setU16 c.order bs i n) = 0 ↔ n = getU16 c.order bs i ∨ (getU16 c.order bs i = 0 ∧ n = 0xffff) ∨
      (getU16 c.order bs i = 0xffff ∧ n = 0 ∧ ∃ j, j ≠ i ∧ j ≠ i + 1 ∧ bs.getD j 0 ≠ 0) := by
  have hothers : (∃ j, j ≠ i ∧ j ≠ i + 1 ∧ bs.getD j 0 ≠ 0) ↔ aroundWord c.order bs i ≠ 0 := by
    rw [Ne, aroundWord_eq_zero_iff c.order hi hin]
    push Not
    exact Iff.rfl
  obtain ⟨hne, hdvd⟩ := (inetChksum_eq_zero_iff c a hlen).mp hok
  have hsent := getU16_alike c.order hi hin
  have hgot := setU16_alike c.order hi hin hn
  have hold : getU16 c.order bs i < 65536 := hostU16_lt c.order _ _
  have hgotZero := hgot.zero
  have hsentZero := hsent.zero
  rw [unit_mul_eq_zero_iff] at hgotZero hsentZero
  rw [inetChksum_eq_zero_iff c' a' (by rw [setU16_length hin]; exact hlen), hothers, Ne, hgotZero,
    ← unit_dvd_iff c.order]
  rw [← unit_dvd_iff c.order] at hdvd
  have hsentMod := hsent.mod
  have hgotMod := hgot.mod
  unfold Nat.ModEq at hsentMod hgotMod
  generalize aroundWord c.order bs i = rest at *
  generalize getU16 c.order bs i = old at *
  generalize c.order.unit * number (setU16 c.order bs i n) = got at *
  generalize c.order.unit * number bs = sent at *
  omega

/-- A header whose TTL is 0. -/
def lastHop : List Byte := [69, 0, 0, 20, 0, 1, 0, 0, 0, 17, 166, 214, 10, 0, 0, 1, 10, 0, 0, 2]

theorem changed_word_verifies_iff_flags : inetChksum littlePort ⟨none, 0⟩ (setU16 .big lastHop 6 0xffff) = 0 :=
  (changed_word_verifies_iff bigPort littlePort ⟨none, 0⟩ ⟨none, 0⟩ rfl (show 6 + 2 ≤ lastHop.length by decide)
    (by decide)
    (by decide) (by decide)).mpr (.inr (.inl ⟨rfl, rfl⟩))

/-! ## Adjusting a checksum -/

theorem htons_high (e : ByteOrder) {x : Nat} (hx : x < 256) : htons e (256 * x) = e.unit * x := by
  cases e with
  | little =>
      rw [htons, swapBytesInWord, ByteOrder.unit]
      omega
  | big => rfl

theorem htons_complement (e : ByteOrder) (hd : d < 65536) :
    htons e (0xffff - d) = 0xffff - htons e d ∧ htons e d < 65536 := by
  cases e with
  | little =>
      simp only [htons, swapBytesInWord]
      omega
  | big => exact ⟨rfl, hd⟩

/-- An adjustment adds the difference, with its carry; but it leaves zeros instead of ones. -/
theorem adjustChksum_spec (e : ByteOrder) (hd : d < 65536) (hn : n < 65536) :
    adjustChksum e d n < 65536 ∧ adjustChksum e d n ≡ n + htons e d [MOD 65535] ∧
      (n + htons e d = 65535 → adjustChksum e d n = 0) := by
  obtain ⟨hcomplement, hlt⟩ := htons_complement e hd
  unfold adjustChksum
  rw [hcomplement]
  generalize htons e d = h at hlt
  unfold Nat.ModEq
  split
  · rw [toU16_natCast]
    omega
  · rw [toU16_natCast]
    omega

/-- **A byte is changed and the checksum adjusted.** -/
theorem adjusted_modEq (e : ByteOrder) (hdr : List Byte) {k x : Nat} (v : Byte) (hi : i % 2 = 0) (hin : i < hdr.length)
    (hk : k % 2 = 0) (hkin : k + 2 ≤ hdr.length) (hx : x < 256) :
    e.unit * number (setU16 e (hdr.set i v) k (adjustChksum e (256 * x) (getU16 e (hdr.set i v) k))) +
      e.unit * (hdr.getD i 0).toNat ≡ e.unit * number hdr + (e.unit * v.toNat + e.unit * x) [MOD 65535] := by
  have hkin' : k + 2 ≤ (hdr.set i v).length := by
    rw [List.length_set]
    exact hkin
  have hold := (getD_alike e hi hin).mod
  have hset := (set_alike e hi hin v).mod
  have hread := (getU16_alike e hk hkin').mod
  have hsmall : getU16 e (hdr.set i v) k < 65536 := hostU16_lt e _ _
  obtain ⟨hlt, hadd, -⟩ := adjustChksum_spec e (d := 256 * x) (by omega) hsmall
  have hwrite := (setU16_alike e hk hkin' hlt).mod
  rw [htons_high e hx] at hadd
  generalize number (setU16 e (hdr.set i v) k (adjustChksum e (256 * x) (getU16 e (hdr.set i v) k))) = after at hwrite ⊢
  unfold Nat.ModEq at hold hset hread hadd hwrite ⊢
  omega

/-! ## A checksum that is filled in -/

/-- A field for a checksum was zero while the sum was computed. -/
theorem filled_verifies (c : ChksumPort) (a : Pointer) (hdr : List Byte) (hi : i % 2 = 0) (hin : i + 2 ≤ hdr.length)
    (hlen : hdr.length ≤ 0x20000) :
    number (setU16 c.order hdr i (inetChksum c a (setU16 c.order hdr i 0))) ≠ 0 ∧
      65535 ∣ number (setU16 c.order hdr i (inetChksum c a (setU16 c.order hdr i 0))) := by
  have hlenZero : (setU16 c.order hdr i 0).length ≤ 0x20000 := by
    rw [setU16_length hin]
    exact hlen
  have hsums := lwipChksum_sums c a hlenZero
  have hzero := setU16_alike c.order hi hin (show 0 < 65536 by decide)
  rw [Nat.zero_add] at hzero
  have hwrap := (hsums.alike.trans hzero).eq_wrap (by decide) hsums.lt
  have hchksum : inetChksum c a (setU16 c.order hdr i 0) = 65535 - wrap 65536 (aroundWord c.order hdr i) := by
    rw [inetChksum, not16, Nat.mod_eq_of_lt hsums.lt, hwrap]
  have hall : wrap 65536 (65535 - wrap 65536 (aroundWord c.order hdr i) + aroundWord c.order hdr i) = 65536 - 1 := by
    rw [Nat.add_comm]
    exact wrap_add_complement (by decide) _
  have hword : 65535 - wrap 65536 (aroundWord c.order hdr i) < 65536 := by omega
  have hfilled := (setU16_alike c.order hi hin hword).wrap_eq (by decide)
  rw [hall] at hfilled
  rw [hchksum]
  obtain ⟨hne, hdvd⟩ := (wrap_eq_ones_iff (by decide)).mp hfilled
  exact ⟨fun hzero => hne (by rw [hzero, Nat.mul_zero]), (unit_dvd_iff c.order _).mp hdvd⟩

/-! ## `ip_forward` -/

theorem icmpEchoReply_eq (e : ByteOrder) (msg : List Byte) :
    icmpEchoReply e msg = setU16 e (msg.set 0 0) 2 (adjustChksum e (256 * 8) (getU16 e (msg.set 0 0) 2)) := rfl

/-- What does not verify: besides its checksum such a message counts 8, so the checksum is all ones less 8, and is
    adjusted to 0. -/
theorem blank_reply (e : ByteOrder) {msg : List Byte} (hmin : 8 ≤ msg.length) (htype : msg.getD 0 0 = 8)
    (hdvd : 65535 ∣ e.unit * number msg) (hzeros : ∀ j, j ≠ 0 → j ≠ 2 → j ≠ 3 → msg.getD j 0 = 0) :
    number (icmpEchoReply e msg) = 0 := by
  have hroom : 2 + 2 ≤ (msg.set 0 0).length := by
    rw [List.length_set]
    omega
  have haround : aroundWord e (msg.set 0 0) 2 = 0 := by
    refine (aroundWord_eq_zero_iff e rfl hroom).mpr fun j h2 h3 => ?_
    by_cases h0 : j = 0
    · rw [h0, set_getD_self (by omega)]
    · rw [set_getD_ne h0]
      exact hzeros j h0 h2 h3
  have hfirst : 0 < msg.length := by omega
  have hold := (getD_alike e rfl hfirst).mod
  have hset := (set_alike e rfl hfirst 0).mod
  have hread := (getU16_alike e rfl hroom).mod
  have hsmall : getU16 e (msg.set 0 0) 2 < 65536 := hostU16_lt e _ _
  have hadjusted := (adjustChksum_spec e (d := 256 * 8) (by decide) hsmall).2.2
  rw [htons_high e (by decide)] at hadjusted
  rw [htype, show (8 : Byte).toNat = 8 from rfl] at hold
  rw [show (0 : Byte).toNat = 0 from rfl] at hset
  rw [haround] at hread
  have hsum : getU16 e (msg.set 0 0) 2 + e.unit * 8 = 65535 := by
    unfold Nat.ModEq at hold hset hread
    rcases unit_cases e with hunit | hunit
    · rw [hunit] at hold hset hread hdvd ⊢
      omega
    · rw [hunit] at hold hset hread hdvd ⊢
      omega
  have hempty := (setU16_alike e (n := 0) rfl hroom (by decide)).zero.mpr (by rw [haround])
  rw [unit_mul_eq_zero_iff] at hempty
  rw [icmpEchoReply_eq, hadjusted hsum]
  exact hempty

/-- **An echo reply verifies exactly if some byte besides its type and its checksum is not 0.** For the one other
    message of each length the adjusted checksum is 0 and not `0xFFFF`, and the receiver drops the reply. -/
theorem echo_verifies_iff (c c' : ChksumPort) (a a' : Pointer) {msg : List Byte} (hmin : 8 ≤ msg.length)
    (hmax : msg.length ≤ 0x20000) (htype : msg.getD 0 0 = 8) (hok : inetChksum c a msg = 0) :
    inetChksum c' a' (icmpEchoReply c.order msg) = 0 ↔ ∃ j, j ≠ 0 ∧ j ≠ 2 ∧ j ≠ 3 ∧ msg.getD j 0 ≠ 0 := by
  obtain ⟨hnonzero, hdvd⟩ := (inetChksum_eq_zero_iff c a hmax).mp hok
  rw [← unit_dvd_iff c.order] at hdvd
  have hlen : (msg.set 0 0).length = msg.length := List.length_set
  have hroom : 2 + 2 ≤ (msg.set 0 0).length := by
    rw [hlen]
    omega
  have hmod := adjusted_modEq c.order msg (i := 0) (k := 2) (x := 8) 0 rfl (by omega) rfl (by omega) (by decide)
  rw [← icmpEchoReply_eq, htype, show (0 : Byte).toNat = 0 from rfl, show (8 : Byte).toNat = 8 from rfl, Nat.mul_zero,
    Nat.zero_add] at hmod
  have hdvd' : 65535 ∣ number (icmpEchoReply c.order msg) := by
    rw [← unit_dvd_iff c.order]
    unfold Nat.ModEq at hmod
    omega
  rw [inetChksum_eq_zero_iff c' a' (by rw [icmpEchoReply_eq, setU16_length hroom, hlen]; exact hmax),
    and_iff_left hdvd']
  constructor
  · intro hne
    by_contra hnone
    have hzeros : ∀ j, j ≠ 0 → j ≠ 2 → j ≠ 3 → msg.getD j 0 = 0 :=
      fun j h0 h2 h3 => by_contra fun hj => hnone ⟨j, h0, h2, h3, hj⟩
    exact hne (blank_reply c.order hmin htype hdvd hzeros)
  · rintro ⟨j, h0, h2, h3, hj⟩ hzero
    have hbyte := number_eq_zero_iff.mp hzero j
    rw [icmpEchoReply_eq, setU16_getD hroom h2 h3, set_getD_ne h0] at hbyte
    exact hj hbyte

/-- An echo request of zeros. -/
def blankPing : List Byte := [8, 0, 247, 255, 0, 0, 0, 0]

theorem echo_verifies_iff_blank : inetChksum littlePort ⟨none, 0⟩ (icmpEchoReply .big blankPing) ≠ 0 := by
  have hecho := echo_verifies_iff bigPort littlePort ⟨none, 0⟩ ⟨none, 0⟩ (show 8 ≤ blankPing.length by decide)
    (by decide)
    rfl (by decide)
  intro hzero
  obtain ⟨j, h0, h2, h3, hj⟩ := hecho.mp hzero
  rcases j with _ | _ | _ | _ | j
  · exact h0 rfl
  · exact hj rfl
  · exact h2 rfl
  · exact h3 rfl
  · exact hj (number_eq_zero_iff.mp (show number [0, 0, 0, 0] = 0 from rfl) j)

/-! ## The header of the reply -/

theorem setU16_append (hin : i + 2 ≤ bs.length) (cs : List Byte) : setU16 e (bs ++ cs) i n = setU16 e bs i n ++ cs :=
  overwrite_append_left cs (by rw [bytesU16_length]; exact hin)

theorem setU16_setU16 (hin : i + 2 ≤ bs.length) : setU16 e (setU16 e bs i m) i n = setU16 e bs i n := by
  have hfront := take_length_of_le (Nat.le_of_add_right_le hin)
  unfold setU16 overwrite
  rw [bytesU16_length, bytesU16_length, List.take_left' hfront]
  congr 2
  rw [← List.append_assoc, List.drop_left' (by rw [List.length_append, hfront, bytesU16_length])]

/-- **The header of an echo reply verifies exactly if its options are zeros or verify alone.** Its checksum is
    computed over `IP_HLEN` bytes, although the header keeps the options of the request. -/
theorem echo_header_verifies_iff (c c' : ChksumPort) (a a' : Pointer) {hdr : List Byte} (hmin : 20 ≤ hdr.length)
    (hmax : hdr.length ≤ 60) : inetChksum c' a' (icmpEchoHeader c a hdr) = 0 ↔
      (∀ j, (hdr.drop 20).getD j 0 = 0) ∨ inetChksum c' a' (hdr.drop 20) = 0 := by
  obtain ⟨fixed, options, hhdr, hfixed⟩ : ∃ fixed options, hdr = fixed ++ options ∧ fixed.length = 20 :=
    ⟨hdr.take 20, hdr.drop 20, (List.take_append_drop 20 hdr).symm, by rw [List.length_take]; omega⟩
  have hoptions : options.length ≤ 40 := by
    rw [hhdr, List.length_append] at hmax
    omega
  have hdest : ((hdr.drop 16).take 4).length = 4 := by
    rw [List.length_take, List.length_drop]
    omega
  have hsrc : ((hdr.drop 12).take 4).length = 4 := by
    rw [List.length_take, List.length_drop]
    omega
  rw [show hdr.drop 20 = options by rw [hhdr, List.drop_left' hfixed]]
  -- the fixed part alone is changed
  have hreply : ∃ t, t.length = 20 ∧ icmpEchoHeader c a hdr =
      setU16 c.order t 10 (inetChksum c a (setU16 c.order t 10 0)) ++ options := by
    unfold icmpEchoHeader
    dsimp only
    generalize (hdr.drop 16).take 4 = dest at hdest
    generalize (hdr.drop 12).take 4 = src at hsrc
    have hlen₁ : (overwrite fixed 12 dest).length = 20 := by rw [overwrite_length (by omega), hfixed]
    have hlen₂ : ((overwrite (overwrite fixed 12 dest) 16 src).set 8 255).length = 20 := by
      rw [List.length_set, overwrite_length (by omega), hlen₁]
    refine ⟨_, hlen₂, ?_⟩
    rw [hhdr, overwrite_append_left options (by omega), overwrite_append_left options (by omega),
      List.set_append_left _ _ (by rw [overwrite_length (by omega)]; omega), setU16_append (by omega),
      List.take_left' (by rw [setU16_length (by omega), hlen₂]),
        setU16_append (by rw [setU16_length (by omega)]; omega),
      setU16_setU16 (by omega)]
  obtain ⟨t, ht, hreply⟩ := hreply
  obtain ⟨hne, hdvd⟩ := filled_verifies c a t (i := 10) rfl (by omega) (by omega)
  have hlen : (setU16 c.order t 10 (inetChksum c a (setU16 c.order t 10 0))).length = 20 := by
    rw [setU16_length (by omega), ht]
  rw [hreply, inetChksum_eq_zero_iff c' a' (by rw [List.length_append, hlen]; omega),
    inetChksum_eq_zero_iff c' a' (by omega), ← number_eq_zero_iff, number_append, hlen]
  generalize number (setU16 c.order t 10 (inetChksum c a (setU16 c.order t 10 0))) = front at hne hdvd ⊢
  have hback := (alike_even (k := 20) rfl (number options)).mod
  generalize 256 ^ 20 * number options = back at hback ⊢
  unfold Nat.ModEq at hback
  omega

/-- A request with the router alert option. -/
def alertPing : List Byte := [70, 0, 0, 32, 0, 1, 0, 0, 64, 1, 209, 213, 10, 0, 0, 1, 10, 0, 0, 2, 148, 4, 0, 0]

theorem echo_header_verifies_iff_alert :
    inetChksum bigPort ⟨none, 0⟩ (icmpEchoHeader bigPort ⟨none, 0⟩ alertPing) ≠ 0 := by
  have hecho := echo_header_verifies_iff bigPort bigPort ⟨none, 0⟩ ⟨none, 0⟩ (show 20 ≤ alertPing.length by decide)
    (by decide)
  intro hzero
  rcases hecho.mp hzero with hzeros | hverifies
  · exact absurd (hzeros 0) (by decide)
  · exact absurd hverifies (by decide)

/-! ## `ip_output_if_opt` -/

theorem bytesU16_alike (e : ByteOrder) (hn : n < 65536) (bs : List Byte) :
    Alike 65536 (e.unit * number (bytesU16 e n ++ bs)) (n + e.unit * number bs) := by
  obtain ⟨b₀, b₁, hbytes, hword⟩ := hostU16_bytesU16 e hn
  rw [hbytes, ← hword]
  exact (word_alike e b₀ b₁ bs).symm

theorem sumU16s_even (e : ByteOrder) : ∀ (bs : List Byte) (sum : Nat), bs.length % 2 = 0 → (sumU16s e bs sum).2 = []
  | [],             _,   _     => rfl
  | [_],            _,   heven => absurd heven (by simp)
  | b₀ :: b₁ :: bs, sum, heven => by
      rw [sumU16s]
      refine sumU16s_even e bs _ ?_
      simp only [List.length_cons] at heven
      omega

theorem lwipMakeU16_eq (e : ByteOrder) (b b' : Byte) : lwipMakeU16 e b b' = hostU16 e b' b := by
  cases e with
  | little => exact Nat.add_comm _ _
  | big => rfl

/-- The last folding adds a carry to a word that keeps it. -/
theorem inlineEnd_eq (n : Nat) :
    not16 ((n / 65536 + n % 65536) / 65536 + (n / 65536 + n % 65536)) = not16 (foldU32t (foldU32t n)) := by
  unfold not16 foldU32t
  omega

namespace IpHeader

variable {x : IpHeader}

theorem aligned_length (x : IpHeader) : x.aligned.length = (x.options.length + 3) / 4 * 4 := by
  rw [aligned, List.length_append, List.length_replicate]
  omega

theorem bytes_length (x : IpHeader) (e : ByteOrder) (n : Nat) : (x.bytes e n).length = x.hlen := by
  rw [bytes, List.length_append, x.aligned_length, hlen]
  cases e <;> rfl

theorem setU16_bytes (x : IpHeader) (e : ByteOrder) (m n : Nat) : setU16 e (x.bytes e m) 10 n = x.bytes e n := by
  cases e <;> rfl

theorem htons_lt (e : ByteOrder) (hn : n < 65536) : htons e n < 65536 := by
  cases e with
  | little => exact swapBytesInWord_lt n
  | big => exact hn

/-- Besides the checksum no field depends on the host. -/
theorem bytes_agree {e e' : ByteOrder} (htot : x.totLen < 65536) (hid : x.ipId < 65536)
    (hchksum : bytesU16 e m = bytesU16 e' n) : x.bytes e m = x.bytes e' n := by
  have hzero : bytesU16 e 0 = bytesU16 e' 0 := by
    cases e <;> cases e' <;> rfl
  unfold bytes
  rw [bytesU16_htons e htot, bytesU16_htons e' htot, bytesU16_htons e hid, bytesU16_htons e' hid, hzero, hchksum]

/-- The words of a header. -/
theorem bytes_alike (e : ByteOrder) (htot : x.totLen < 65536) (hid : x.ipId < 65536) :
    Alike 65536 (e.unit * number (x.bytes e 0))
      (hostU16 e x.vhl x.tos + (htons e x.totLen + (htons e x.ipId + (0 + (hostU16 e x.ttl x.proto + (0 +
        (e.unit * number x.src.bytes + (e.unit * number x.dest.bytes + e.unit * number x.aligned)))))))) := by
  have hevenSrc : x.src.bytes.length % 2 = 0 := by
    rw [show x.src.bytes.length = 4 from rfl]
  have hevenDest : x.dest.bytes.length % 2 = 0 := by
    rw [show x.dest.bytes.length = 4 from rfl]
  have haddrs := (append_alike e (x.dest.bytes ++ x.aligned) hevenSrc).trans
    ((Alike.refl _ _).add (append_alike e x.aligned hevenDest))
  have hsplit : x.bytes e 0 = x.vhl :: x.tos :: (bytesU16 e (htons e x.totLen) ++ (bytesU16 e (htons e x.ipId) ++
      (bytesU16 e 0 ++ (x.ttl :: x.proto :: (bytesU16 e 0 ++ (x.src.bytes ++ (x.dest.bytes ++ x.aligned))))))) := by
    simp only [bytes, List.append_assoc, List.cons_append, List.nil_append]
  rw [hsplit]
  refine (word_alike e _ _ _).symm.trans ((Alike.refl _ _).add ?_)
  refine (bytesU16_alike e (htons_lt e htot) _).trans ((Alike.refl _ _).add ?_)
  refine (bytesU16_alike e (htons_lt e hid) _).trans ((Alike.refl _ _).add ?_)
  refine (bytesU16_alike e (by decide) _).trans ((Alike.refl _ _).add ?_)
  refine (word_alike e _ _ _).symm.trans ((Alike.refl _ _).add ?_)
  exact (bytesU16_alike e (by decide) _).trans ((Alike.refl _ _).add haddrs)

/-- The checksum that is computed while the fields are set is the one of the header. -/
theorem inlineChksum_eq (c : ChksumPort) (a : Pointer) (hopt : x.options.length ≤ 0x7ffc) (htot : x.totLen < 65536)
    (hid : x.ipId < 65536) : x.inlineChksum c.order = inetChksum c a (x.bytes c.order 0) := by
  have hlenBytes : (x.bytes c.order 0).length ≤ 0x20000 := by
    rw [x.bytes_length, hlen]
    omega
  have hsums := lwipChksum_sums c a hlenBytes
  have halike := bytes_alike c.order htot hid
  have hlenAligned := x.aligned_length
  obtain ⟨-, hle, hsum⟩ := sumU16s_spec c.order x.aligned 0 (by omega)
  rw [sumU16s_even c.order x.aligned 0 (by omega), number_nil, Nat.mul_zero, Nat.add_zero, Nat.zero_add] at hsum
  rw [Nat.zero_add, hlenAligned] at hle
  unfold inlineChksum
  rw [lwipMakeU16_eq, lwipMakeU16_eq]
  have hfirst := hostU16_lt c.order x.vhl x.tos
  have hfifth := hostU16_lt c.order x.ttl x.proto
  have htotLt := htons_lt c.order htot
  have hidLt := htons_lt c.order hid
  generalize (sumU16s c.order x.aligned 0).1 = sum at hle hsum ⊢
  have hroom : sum ≤ 65535 * 16382 := by omega
  obtain ⟨hdest, hdestLe⟩ :=
    addAddr_spec (e := c.order) (a := x.dest) (n := sum + hostU16 c.order x.ttl x.proto) (by omega)
  dsimp only
  rw [toU32_of_lt (n := sum + hostU16 c.order x.ttl x.proto) (by omega)]
  generalize addAddr c.order (sum + hostU16 c.order x.ttl x.proto) x.dest = sum₂ at hdest hdestLe ⊢
  rw [toU32_of_lt (n := sum₂ + hostU16 c.order x.vhl x.tos) (by omega),
    toU32_of_lt (n := sum₂ + hostU16 c.order x.vhl x.tos + htons c.order x.totLen) (by omega),
    toU32_of_lt (n := sum₂ + hostU16 c.order x.vhl x.tos + htons c.order x.totLen + htons c.order x.ipId) (by omega)]
  obtain ⟨hsrc, hsrcLe⟩ := addAddr_spec (e := c.order) (a := x.src)
    (n := sum₂ + hostU16 c.order x.vhl x.tos + htons c.order x.totLen + htons c.order x.ipId) (by omega)
  rw [inlineEnd_eq, inetChksum]
  congr 1
  -- both are the words of the header, added in two orders
  refine Alike.eq_of_lt (Alike.trans ?_ hsums.alike.symm) (foldU32t_twice_lt (by omega)) hsums.lt
  refine ((foldU32t_alike _).trans (foldU32t_alike _)).trans (hsrc.trans (Alike.trans ?_ halike.symm))
  have hboth := hdest.trans ((hsum.add (Alike.refl _ (hostU16 c.order x.ttl x.proto))).add (Alike.refl _ _))
  have hwords := hboth.add (Alike.refl _ (hostU16 c.order x.vhl x.tos + htons c.order x.totLen + htons c.order x.ipId +
    c.order.unit * number x.src.bytes))
  simp only [Nat.add_assoc] at hwords ⊢
  refine hwords.trans ?_
  rw [show ∀ al ttl dest vhl tot id src : Nat, al + (ttl + (dest + (vhl + (tot + (id + src))))) =
    vhl + (tot + (id + (0 + (ttl + (0 + (src + (dest + al))))))) by intros; omega]
  exact Alike.refl _ _

end IpHeader

/-- **One header on every host.** Whatever the byte order, the version of `lwip_standard_chksum`, and whether the
    checksum is computed while the fields are set (`LWIP_INLINE_IP_CHKSUM`) or behind: `ip_output_if_opt` writes the
    same bytes, and every receiver verifies them. -/
theorem output_verifies (c c' : ChksumPort) (a a' : Pointer) (inline inline' : Bool) {x : IpHeader}
    (hopt : x.options.length ≤ 0x7ffc) (htot : x.totLen < 65536) (hid : x.ipId < 65536) :
    x.output c a inline = x.output c' a' inline' ∧ inetChksum c' a' (x.output c a inline) = 0 := by
  have hplain : ∀ (c : ChksumPort) (a : Pointer) (inline : Bool),
      x.output c a inline = x.bytes c.order (inetChksum c a (x.bytes c.order 0)) := by
    intro c a inline
    cases inline with
    | true => rw [IpHeader.output, if_pos rfl, IpHeader.inlineChksum_eq c a hopt htot hid]
    | false => rfl
  have hlen : ∀ e n, (x.bytes e n).length ≤ 0x20000 := by
    intro e n
    rw [x.bytes_length, IpHeader.hlen]
    omega
  rw [hplain c a inline, hplain c' a' inline']
  constructor
  · have hzero : x.bytes c.order 0 = x.bytes c'.order 0 := by
      refine IpHeader.bytes_agree htot hid ?_
      cases c.order <;> cases c'.order <;> rfl
    have hsums := lwipChksum_sums c a (hlen c.order 0)
    rw [hzero] at hsums ⊢
    exact IpHeader.bytes_agree htot hid (hsums.bytes_agree (lwipChksum_sums c' a' (hlen c'.order 0))).2
  · have hfilled := filled_verifies c a (x.bytes c.order 0) (i := 10) rfl
      (by rw [x.bytes_length, IpHeader.hlen]; omega) (hlen _ _)
    rw [x.setU16_bytes, x.setU16_bytes] at hfilled
    exact (inetChksum_eq_zero_iff c' a' (hlen _ _)).mpr hfilled

/-- A report of `igmp.c`, with the router alert option. -/
def report : IpHeader := ⟨0, 32, 7, 1, 2, ⟨10, 0, 0, 1⟩, ⟨224, 0, 0, 5⟩, [148, 4, 0, 0]⟩

theorem output_verifies_report : inetChksum littlePort ⟨none, 1⟩ (report.output bigPort ⟨none, 0⟩ true) = 0 :=
  (output_verifies bigPort littlePort ⟨none, 0⟩ ⟨none, 1⟩ true false (by decide) (by decide) (by decide)).2

end

end ThirdParty.Lwip
