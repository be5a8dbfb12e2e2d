import ThirdParty.Lwip.Correctness.Strings

/-!
# `Lwip.Correctness.Search` — reading and searching a packet

What `pbuf_get_at`, `pbuf_copy_partial` and `pbuf_memcmp` return depends on the string of the packet only, wherever
one pbuf ends and the next begins. `pbuf_memfind` goes on behind the byte at which the comparison failed, so it can
step over an occurrence that began before that byte; what it returns is an occurrence, but it is sure to find one
only if all bytes of the pattern are the same.
-/

namespace ThirdParty.Lwip

open Lib

/-! ## Occurrences -/

/-- `mem` is in `t` at `i`. -/
def OccursAt (t mem : List Byte) (i : Nat) : Prop := mem <+: t.drop i

/-- `mem` is not in `t` from `start` on (`0xFFFF`), or `r` is the first place where it is. -/
def FirstFrom (t mem : List Byte) (start r : Nat) : Prop :=
  (r = 0xffff ∧ ∀ i, start ≤ i → ¬OccursAt t mem i) ∨
    (start ≤ r ∧ OccursAt t mem r ∧ ∀ i, start ≤ i → i < r → ¬OccursAt t mem i)

/-- `r` is what comparing `mem` with `t` at `i` returns: 0, or one more than the place of the first difference. -/
def Compared (t mem : List Byte) (i r : Nat) : Prop :=
  (r = 0 ∧ OccursAt t mem i) ∨
    ∃ k < mem.length, r = k + 1 ∧ t[i + k]? ≠ mem[k]? ∧ ∀ j < k, t[i + j]? = mem[j]?

section
variable {t mem : List Byte} {i k : Nat}

theorem occursAt_iff : OccursAt t mem i ↔ ∀ j < mem.length, t[i + j]? = mem[j]? := by
  unfold OccursAt
  rw [List.prefix_iff_getElem?]
  refine forall_congr' fun j => forall_congr' fun hj => ?_
  rw [List.getElem?_drop, List.getElem?_eq_getElem hj]

theorem OccursAt.le (h : OccursAt t mem i) (hne : mem ≠ []) : i + mem.length ≤ t.length := by
  have hle := h.length_le
  have hpos := List.length_pos_iff.mpr hne
  rw [List.length_drop] at hle
  omega

/-- Comparing with another string that has the same bytes there. -/
theorem Compared.congr {t' : List Byte} {r : Nat} (h : Compared t mem i r)
    (hsame : ∀ j < mem.length, t'[i + j]? = t[i + j]?) :
    Compared t' mem i r := by
  rcases h with ⟨hr, hoccurs⟩ | ⟨k, hk, hr, hdiff, hbefore⟩
  · refine .inl ⟨hr, occursAt_iff.mpr fun j hj => ?_⟩
    rw [hsame j hj]
    exact occursAt_iff.mp hoccurs j hj
  · refine .inr ⟨k, hk, hr, ?_, fun j hj => ?_⟩
    · rw [hsame k hk]
      exact hdiff
    · rw [hsame j (Nat.lt_trans hj hk)]
      exact hbefore j hj

/-- With a pattern of one byte, a difference rules out every occurrence that would lie over it. -/
theorem not_occursAt_of_replicate {b : Byte} {j : Nat} (hmem : mem = List.replicate mem.length b) (hk : k < mem.length)
    (hdiff : t[i + k]? ≠ mem[k]?) (hij : i ≤ j) (hjk : j ≤ i + k) : ¬OccursAt t mem j := by
  intro hoccurs
  have hget : ∀ n < mem.length, mem[n]? = some b := by
    intro n hn
    rw [hmem, List.getElem?_replicate, if_pos hn]
  have hat := occursAt_iff.mp hoccurs (i + k - j) (by omega)
  rw [Nat.add_sub_cancel' hjk, hget _ (by omega), ← hget k hk] at hat
  exact hdiff hat

end

section
variable {s : Packets} {mem : List Byte} {p : Nat}

/-! ## Reading -/

/-- What is behind the first pbuf. -/
theorem Packets.text_drop_skip (ps : List Nat) {offset : Nat} (h : (s.pbuf p).len ≤ offset) :
    (s.text (p :: ps)).drop offset = (s.text ps).drop (offset - (s.pbuf p).len) := by
  have hgone : (s.payload p).drop offset = [] := List.drop_eq_nil_of_le (by rw [payload_length]; exact h)
  rw [text_cons, List.drop_append, payload_length, hgone, List.nil_append]

/-- The pbuf with the byte at `offset`. -/
theorem findOffset_spec : ∀ (ps : List Nat) (offset : Nat),
    (s.text (findOffset s ps offset).1).drop (findOffset s ps offset).2 = (s.text ps).drop offset ∧
      (∀ q qs, (findOffset s ps offset).1 = q :: qs → (findOffset s ps offset).2 < (s.pbuf q).len) ∧
      (s.text (findOffset s ps offset).1).length ≤ (s.text ps).length
  | [],      offset => ⟨rfl, fun q qs heq => absurd heq (List.cons_ne_nil q qs).symm, Nat.le_refl _⟩
  | p :: ps, offset => by
      unfold findOffset
      split
      · next hskip =>
          obtain ⟨hdrop, hlt, hlen⟩ := findOffset_spec ps (offset - (s.pbuf p).len)
          rw [Packets.text_drop_skip ps hskip, Packets.text_cons, List.length_append]
          exact ⟨hdrop, hlt, Nat.le_trans hlen (Nat.le_add_left _ _)⟩
      · next hhere =>
          refine ⟨rfl, fun q qs heq => ?_, Nat.le_refl _⟩
          rw [← (List.cons.inj heq).1]
          exact Nat.not_le.mp hhere

/-- **`pbuf_get_at`** on a chain. -/
theorem getAt_eq (ps : List Nat) (offset : Nat) : getAt s ps offset = (s.text ps).getD offset 0 := by
  obtain ⟨hdrop, hlt, -⟩ := findOffset_spec (s := s) ps offset
  have hget : (s.text ps).getD offset 0 =
      ((s.text (findOffset s ps offset).1).drop (findOffset s ps offset).2).getD 0 0 := by
    rw [hdrop, List.getD_eq_getElem?_getD, List.getD_eq_getElem?_getD, List.getElem?_drop, Nat.add_zero]
  rw [hget]
  unfold getAt
  cases hfind : findOffset s ps offset with
  | mk qs n =>
      rw [hfind] at hlt
      cases qs with
      | nil => rw [Packets.text_nil, List.drop_nil]; rfl
      | cons q qs =>
          have hn := hlt q qs rfl
          have hn' : n < (s.payload q).length := by rw [Packets.payload_length]; exact hn
          dsimp only
          rw [List.getD_eq_getElem?_getD, List.getElem?_drop, Nat.add_zero, Packets.text_cons,
            List.getElem?_append_left hn',
            List.getElem?_eq_getElem hn', Option.getD_some]
          simp [Packets.payload, Packets.load, bytesAt]

/-- **The loop of `pbuf_copy_partial`.** -/
theorem copyPartialLoop_eq : ∀ (ps : List Nat) (len offset : Nat),
    copyPartialLoop s ps len offset = ((s.text ps).drop offset).take len
  | [],      len, offset => by rw [Packets.text_nil, List.drop_nil, List.take_nil]; rfl
  | p :: ps, len, offset => by
      unfold copyPartialLoop
      split
      · next hzero => rw [hzero, List.take_zero]
      split
      · next hskip =>
          rw [copyPartialLoop_eq ps len, Packets.text_drop_skip ps hskip.2]
      · next hhere =>
          have hle : offset ≤ (s.pbuf p).len := by omega
          have hfront : ((s.payload p).drop offset).length = (s.pbuf p).len - offset := by
            rw [List.length_drop, Packets.payload_length]
          obtain ⟨n, hn⟩ : ∃ n, n = if (s.pbuf p).len - offset > len then len else (s.pbuf p).len - offset := ⟨_, rfl⟩
          dsimp only
          rw [← hn, copyPartialLoop_eq ps (len - n), List.drop_zero, Packets.text_cons,
            List.drop_append_of_le_length (by rw [Packets.payload_length]; exact hle), List.take_append, hfront,
            Packets.load_plus (by rw [hn]; split <;> omega)]
          split at hn
          · next hmany =>
              -- the length ends in this pbuf
              rw [hn, Nat.sub_self, List.take_zero, show len - ((s.pbuf p).len - offset) = 0 by omega, List.take_zero]
          · next hall =>
              have hwhole : ((s.payload p).drop offset).take n = ((s.payload p).drop offset).take len := by
                rw [List.take_of_length_le (by omega), List.take_of_length_le (by omega)]
              rw [hwhole, hn]

/-! ## Comparing -/

/-- The loop compares with the bytes that `pbuf_get_at` returns. -/
theorem memcmpLoop_compared {t : List Byte} {ps : List Nat} {offset start : Nat} (hlt : mem.length < 65536)
    (hread : ∀ i < mem.length, t[offset + i]? = some (getAt s ps (toU16 (start + i : Nat)))) :
    ∀ (bs : List Byte) (i : Nat),
    bs = mem.drop i → i ≤ mem.length → (∀ j < i, t[offset + j]? = mem[j]?) →
      Compared t mem offset (memcmpLoop s ps start bs i)
  | [],      i, hbs, _,  hsame => by
      have hend : mem.length ≤ i := List.drop_eq_nil_iff.mp hbs.symm
      exact .inl ⟨rfl, occursAt_iff.mpr fun j hj => hsame j (Nat.lt_of_lt_of_le hj hend)⟩
  | b :: bs, i, hbs, hi, hsame => by
      have hilt : i < mem.length := by
        have hlong := congrArg List.length hbs
        rw [List.length_cons, List.length_drop] at hlong
        omega
      have hget : mem[i]? = some b := by
        have hhead := congrArg List.head? hbs
        rw [List.head?_cons, List.head?_drop] at hhead
        exact hhead.symm
      have hrest : bs = mem.drop (i + 1) := by rw [← List.tail_drop, ← hbs, List.tail_cons]
      have hat := hread i hilt
      unfold memcmpLoop
      split
      · next hdiff =>
          refine .inr ⟨i, hilt, toU16_of_lt (by omega), ?_, hsame⟩
          rw [hget, hat]
          exact fun heq => hdiff (Option.some.inj heq)
      · next heq =>
          refine memcmpLoop_compared hlt hread bs (i + 1) hrest hilt fun j hj => ?_
          rcases Nat.lt_succ_iff_lt_or_eq.mp hj with hj | rfl
          · exact hsame j hj
          · rw [hget, hat]
            exact congrArg some (not_not.mp heq)

/-- **`pbuf_memcmp`** at an offset behind the end of the packet. -/
theorem pbufMemcmp_behind (s : Packets) (p : Nat) {offset : Nat} (h : (s.bytes p).length ≤ offset) :
    pbufMemcmp s p offset mem = 0xffff := by
  obtain ⟨hdrop, hin, -⟩ := findOffset_spec (s := s) (s.chain p) offset
  rw [← Packets.bytes_eq_text, List.drop_eq_nil_of_le h, List.drop_eq_nil_iff] at hdrop
  unfold pbufMemcmp
  cases hfind : findOffset s (s.chain p) offset with
  | mk qs start =>
      rw [hfind] at hdrop hin
      cases qs with
      | nil => rfl
      | cons q qs =>
          have hlt := hin q qs rfl
          rw [Packets.text_cons, List.length_append, Packets.payload_length] at hdrop
          dsimp only at hlt hdrop
          omega

/-- **`pbuf_memcmp`** compares with the packet and zeros behind it. -/
theorem pbufMemcmp_padded (s : Packets) (p : Nat) {offset : Nat} (h : offset < (s.bytes p).length)
    (hlt : offset + mem.length < 65536) :
    Compared (s.bytes p ++ List.replicate mem.length 0) mem offset (pbufMemcmp s p offset mem) := by
  obtain ⟨hdrop, -, hshort⟩ := findOffset_spec (s := s) (s.chain p) offset
  rw [← Packets.bytes_eq_text] at hdrop hshort
  unfold pbufMemcmp
  cases hfind : findOffset s (s.chain p) offset with
  | mk qs start =>
      rw [hfind] at hdrop hshort
      have hlong := congrArg List.length hdrop
      rw [List.length_drop, List.length_drop] at hlong
      cases qs with
      | nil =>
          rw [Packets.text_nil, List.length_nil] at hlong
          omega
      | cons q qs =>
          dsimp only at hdrop hshort hlong ⊢
          refine memcmpLoop_compared (by omega) (fun i hi => ?_) mem 0 rfl (Nat.zero_le _)
            fun j hj => absurd hj (Nat.not_lt_zero j)
          have hbyte : (s.text (q :: qs))[start + i]? = (s.bytes p)[offset + i]? := by
            rw [← List.getElem?_drop, ← List.getElem?_drop, hdrop]
          rw [toU16_of_lt (by omega), getAt_eq, List.getD_eq_getElem?_getD, hbyte]
          rcases Nat.lt_or_ge (offset + i) (s.bytes p).length with hin | hout
          · rw [List.getElem?_append_left hin, List.getElem?_eq_getElem hin, Option.getD_some]
          · rw [List.getElem?_append_right hout, List.getElem?_replicate, if_pos (by omega), List.getElem?_eq_none hout,
              Option.getD_none]

/-- Inside of the packet there are no zeros to compare with. -/
theorem pbufMemcmp_compared (s : Packets) (p : Nat) {offset : Nat} (hne : mem ≠ [])
    (hlen : offset + mem.length ≤ (s.bytes p).length)
    (hlt : (s.bytes p).length < 65536) : Compared (s.bytes p) mem offset (pbufMemcmp s p offset mem) := by
  have hpos := List.length_pos_iff.mpr hne
  refine (pbufMemcmp_padded s p (by omega) (by omega)).congr fun j hj => ?_
  rw [List.getElem?_append_left (by omega)]

/-! ## Searching -/

/-- **The loop of `pbuf_memfind`** returns an occurrence or `0xFFFF`, and the first one for a pattern of one byte. -/
theorem memfindLoop_found {max : Nat} (hne : mem ≠ []) (hmax : max + mem.length = (s.bytes p).length)
    (hlt : (s.bytes p).length < 65536) : ∀ (fuel i : Nat), max + 1 < i + fuel →
    (memfindLoop s p mem max fuel i = 0xffff ∨
      i ≤ memfindLoop s p mem max fuel i ∧ OccursAt (s.bytes p) mem (memfindLoop s p mem max fuel i)) ∧
    ((∃ b, mem = List.replicate mem.length b) → FirstFrom (s.bytes p) mem i (memfindLoop s p mem max fuel i))
  | 0,        i, hfuel => by
      refine ⟨.inl rfl, fun _ => .inl ⟨rfl, fun j hj hoccurs => ?_⟩⟩
      have := hoccurs.le hne
      omega
  | fuel + 1, i, hfuel => by
      unfold memfindLoop
      split
      swap
      · next hend =>
          refine ⟨.inl rfl, fun _ => .inl ⟨rfl, fun j hj hoccurs => ?_⟩⟩
          have := hoccurs.le hne
          omega
      next hin =>
      dsimp only
      rcases pbufMemcmp_compared s p hne (show i + mem.length ≤ _ by omega) hlt with ⟨hr, hoccurs⟩ |
        ⟨k, hk, hr, hdiff, -⟩
      · rw [hr, if_pos rfl]
        exact ⟨.inr ⟨Nat.le_refl i, hoccurs⟩, fun _ =>
          .inr ⟨Nat.le_refl i, hoccurs, fun j hij hji => absurd hij (Nat.not_le.mpr hji)⟩⟩
      · rw [hr, if_neg (Nat.succ_ne_zero k), toU16_of_lt (by omega)]
        obtain ⟨hfound, hfirst⟩ := memfindLoop_found hne hmax hlt fuel (i + (k + 1)) (by omega)
        refine ⟨hfound.imp_right fun h => ⟨by omega, h.2⟩, fun hsame => ?_⟩
        -- nothing was stepped over
        have hskipped : ∀ j, i ≤ j → j < i + (k + 1) → ¬OccursAt (s.bytes p) mem j := by
          obtain ⟨b, hb⟩ := hsame
          intro j hij hj
          exact not_occursAt_of_replicate hb hk hdiff hij (by omega)
        have hall : ∀ {P : Nat → Prop}, (∀ j, i + (k + 1) ≤ j → P j → ¬OccursAt (s.bytes p) mem j) →
            ∀ j, i ≤ j → P j → ¬OccursAt (s.bytes p) mem j := by
          intro P hrest j hij hP
          rcases Nat.lt_or_ge j (i + (k + 1)) with hj | hj
          · exact hskipped j hij hj
          · exact hrest j hj hP
        rcases hfirst hsame with ⟨hr, hnone⟩ | ⟨hle, hoccurs, hbefore⟩
        · exact .inl ⟨hr, fun j hij => hall (P := fun _ => True) (fun j hj _ => hnone j hj) j hij trivial⟩
        · exact .inr ⟨by omega, hoccurs, hall hbefore⟩

end

section
variable {cfg : PbufConfig} {m : Packets} {held : List Nat} {mem : List Byte} {p : Nat}

/-- **`pbuf_memfind`.** -/
theorem PacketInv.memfind_found (h : PacketInv cfg m held) (hp : p ∈ m.live) (hne : mem ≠ []) (start : Nat) :
    (pbufMemfind m p mem start = 0xffff ∨
      start ≤ pbufMemfind m p mem start ∧ OccursAt (m.bytes p) mem (pbufMemfind m p mem start)) ∧
    ((∃ b, mem = List.replicate mem.length b) → FirstFrom (m.bytes p) mem start (pbufMemfind m p mem start)) := by
  have hlen := h.bytes_length hp
  have hlt := h.total_lt p hp
  unfold pbufMemfind
  split
  · next hroom =>
      rw [toU16_sub (by omega) hlt]
      exact memfindLoop_found hne (by omega) (by omega) 65537 start (by omega)
  · next hshort =>
      refine ⟨.inl rfl, fun _ => .inl ⟨rfl, fun j hj hoccurs => ?_⟩⟩
      have := hoccurs.le hne
      omega

/-- A string is all `b`, or there is a first byte that is not. -/
theorem replicate_or_first (b : Byte) : ∀ l : List Byte, l = List.replicate l.length b ∨
    ∃ n d rest, d ≠ b ∧ l = List.replicate n b ++ d :: rest
  | []     => .inl rfl
  | c :: l => by
      by_cases hc : c = b
      · subst hc
        rcases replicate_or_first c l with hall | ⟨n, d, rest, hd, hl⟩
        · refine .inl ?_
          rw [List.length_cons, List.replicate_succ, ← hall]
        · refine .inr ⟨n + 1, d, rest, hd, ?_⟩
          rw [hl, List.replicate_succ, List.cons_append]
      · exact .inr ⟨0, c, l, hc, rfl⟩

/-- A pattern with two bytes that differ is stepped over in a packet that begins with one byte of it too many. -/
theorem PacketInv.memfind_missed (h : PacketInv cfg m held) (hp : p ∈ m.live) {b d : Byte} {n : Nat}
    {rest : List Byte} (hd : d ≠ b)
    (hmem : mem = List.replicate (n + 1) b ++ d :: rest) (hbytes : m.bytes p = List.replicate (n + 1) b ++ mem) :
    pbufMemfind m p mem 0 = 0xffff := by
  have hlen := h.bytes_length hp
  have hlt := h.total_lt p hp
  have hlenBytes : (m.bytes p).length = n + 1 + mem.length := by rw [hbytes, List.length_append, List.length_replicate]
  have hlenMem : mem.length = n + 1 + (rest.length + 1) := by
    rw [hmem, List.length_append, List.length_replicate, List.length_cons]
  have hne : mem ≠ [] := List.length_pos_iff.mp (by omega)
  -- up to `n` both are `b`, and at `n + 1` only the packet is
  have hpattern : ∀ j ≤ n, mem[j]? = some b := by
    intro j hj
    rw [hmem, List.getElem?_append_left (by rw [List.length_replicate]; omega), List.getElem?_replicate,
      if_pos (by omega)]
  have hpacket : ∀ j ≤ n, (m.bytes p)[j]? = some b := by
    intro j hj
    rw [hbytes, List.getElem?_append_left (by rw [List.length_replicate]; omega), List.getElem?_replicate,
      if_pos (by omega)]
  have hpattern' : mem[n + 1]? = some d := by
    rw [hmem, List.getElem?_append_right (by rw [List.length_replicate]), List.length_replicate, Nat.sub_self]
    rfl
  have hpacket' : (m.bytes p)[n + 1]? = some b := by
    rw [hbytes, List.getElem?_append_right (by rw [List.length_replicate]), List.length_replicate, Nat.sub_self]
    exact hpattern 0 (Nat.zero_le n)
  have hdiffers : (m.bytes p)[n + 1]? ≠ mem[n + 1]? := by
    rw [hpacket', hpattern']
    exact fun heq => hd (Option.some.inj heq).symm
  unfold pbufMemfind
  rw [if_pos (by omega), toU16_sub (by omega) hlt]
  unfold memfindLoop
  rw [if_pos (Nat.zero_le _)]
  dsimp only
  rcases pbufMemcmp_compared m p hne (show 0 + mem.length ≤ _ by omega) (by omega) with ⟨-, hoccurs⟩ |
    ⟨k, hk, hr, hdiff, hbefore⟩
  · have hsame := occursAt_iff.mp hoccurs (n + 1) (by omega)
    rw [Nat.zero_add] at hsame
    exact absurd hsame hdiffers
  · rw [Nat.zero_add] at hdiff
    have hkn : k = n + 1 := by
      rcases Nat.lt_trichotomy k (n + 1) with hlt | heq | hgt
      · rw [hpacket k (by omega), hpattern k (by omega)] at hdiff
        exact absurd rfl hdiff
      · exact heq
      · have hsame := hbefore (n + 1) hgt
        rw [Nat.zero_add] at hsame
        exact absurd hsame hdiffers
    rw [hr, if_neg (Nat.succ_ne_zero k), toU16_of_lt (by omega)]
    unfold memfindLoop
    rw [if_neg (by omega)]

end

variable {cfg : PbufConfig} {s : PbufSys} {tr : List (PbufSys × PbufAct)} {p : Nat} {pbuf : Nat → Pbuf}
  {size : Nat → Nat}
  {data : Option Nat → Lib.Mem} {mem : List Byte}

/-- **Reading a packet does not depend on how it is split into pbufs.** In every run, `pbuf_copy_partial` returns
    the bytes of the string from `offset` on, and `pbuf_get_at` the byte at `offset` or 0 behind the end.
    `pbuf_memcmp` returns `0xFFFF` for an offset behind the end; else it tells whether `mem` is there, and otherwise
    the first place where it differs, with zeros behind the end of the packet, so inside of it with the packet
    alone. -/
theorem reads_see_string (hrun : Run (pbufStep cfg) (PbufSys.init pbuf size data) tr s) (hp : p ∈ s.held)
    (len offset : Nat) :
    pbufCopyPartial s.packets p len offset = ((s.packets.bytes p).drop offset).take len ∧
    pbufGetAt s.packets p offset = (s.packets.bytes p).getD offset 0 ∧
    ∀ mem : List Byte,
      ((s.packets.bytes p).length ≤ offset → pbufMemcmp s.packets p offset mem = 0xffff) ∧
      (offset < (s.packets.bytes p).length → offset + mem.length < 65536 →
        Compared (s.packets.bytes p ++ List.replicate mem.length 0) mem offset (pbufMemcmp s.packets p offset mem)) ∧
      (mem ≠ [] → offset + mem.length ≤ (s.packets.bytes p).length →
        Compared (s.packets.bytes p) mem offset (pbufMemcmp s.packets p offset mem)) := by
  have h := packetInv_run hrun
  have hlive := h.exact.points p hp
  refine ⟨copyPartialLoop_eq _ len offset, getAt_eq _ offset, fun mem =>
    ⟨pbufMemcmp_behind _ p, pbufMemcmp_padded _ p, ?_⟩⟩
  intro hne hlen
  refine pbufMemcmp_compared _ p hne hlen ?_
  rw [h.bytes_length hlive]
  exact h.total_lt p hlive

/-- A packet that says "Xaaa". -/
def pageOfA : List PbufAct := [.alloc .raw 4 .ram [1], .take 1 [88, 97, 97, 97]]

theorem reads_see_string_at : pbufGetAt (afterCalls pageOfA).packets 1 2 = 97 := by
  rw [(reads_see_string (afterCalls_run pageOfA (by decide +kernel)) (by decide +kernel) 0 2).2.1]
  decide +kernel

/-- **What `pbuf_memfind` returns is an occurrence**, in every run, and no other value but `0xFFFF`. -/
theorem memfind_occurs (hrun : Run (pbufStep cfg) (PbufSys.init pbuf size data) tr s) (hp : p ∈ s.held) (hne : mem ≠ [])
    (start : Nat) : pbufMemfind s.packets p mem start = 0xffff ∨
      start ≤ pbufMemfind s.packets p mem start ∧
          OccursAt (s.packets.bytes p) mem (pbufMemfind s.packets p mem start) := by
  have h := packetInv_run hrun
  exact (h.memfind_found (h.exact.points p hp) hne start).1

theorem memfind_occurs_aa : OccursAt ((afterCalls pageOfA).packets.bytes 1) [97, 97] 1 := by
  have hfound := memfind_occurs (afterCalls_run pageOfA (by decide +kernel)) (p := 1) (by decide +kernel)
    (List.cons_ne_nil 97 [97]) 0
  have hone : pbufMemfind (afterCalls pageOfA).packets 1 [97, 97] 0 = 1 := by decide +kernel
  rw [hone] at hfound
  exact (hfound.resolve_left (by decide)).2

/-- A packet that is in memory somewhere else. -/
theorem rom_run (cfg : PbufConfig) (bs : List Byte) (hlen : bs.length < 65536) :
    ∃ tr s, Run (pbufStep cfg) (PbufSys.init noPbufs.packets.pbuf noPbufs.packets.size fun _ x => bs.getD x 0) tr s ∧
      1 ∈ s.held ∧ s.packets.bytes 1 = bs := by
  have hfresh : (PbufSys.init noPbufs.packets.pbuf noPbufs.packets.size fun _ x => bs.getD x 0).packets.Fresh [1] :=
    ⟨List.nodup_singleton 1, fun _ _ => List.not_mem_nil⟩
  have hstep : pbufStep cfg (PbufSys.init noPbufs.packets.pbuf noPbufs.packets.size fun _ x => bs.getD x 0)
      (.alloc .raw bs.length .rom [1]) = some _ := if_pos ⟨hfresh, hlen, fun h => by cases h⟩
  refine ⟨_, _, Run.nil.snoc hstep, List.mem_singleton_self 1, ?_⟩
  have h := packetInv_run (Run.nil.snoc hstep)
  rw [h.bytes_alone (h.exact.points 1 (List.mem_singleton_self 1)) ?_]
  · apply List.ext_getElem
    · exact bytesAt_length _ _ _
    · intro i hi hi'
      simp only [Packets.payload, Packets.load, bytesAt, Packets.give, Packets.put, Function.update_self,
        List.getElem_map, List.getElem_range, Nat.zero_add]
      show bs.getD i 0 = bs[i]
      rw [List.getD_eq_getElem?_getD, List.getElem?_eq_getElem hi', Option.getD_some]
  · exact congrArg Pbuf.next (Packets.give_self _ 1 _ _)

/-- **`pbuf_memfind` finds the first occurrence in every packet exactly for patterns of one repeated byte.** For any
    other pattern there is a packet, even one of a single pbuf, that has the pattern although `pbuf_memfind` says it
    has not. -/
theorem memfind_first_iff (cfg : PbufConfig) (mem : List Byte) (hne : mem ≠ []) (hlen : mem.length < 32768) :
    (∀ (pbuf : Nat → Pbuf) (size : Nat → Nat) (data : Option Nat → Lib.Mem) (tr : List (PbufSys × PbufAct))
      (s : PbufSys) (p start : Nat), Run (pbufStep cfg) (PbufSys.init pbuf size data) tr s → p ∈ s.held →
      FirstFrom (s.packets.bytes p) mem start (pbufMemfind s.packets p mem start)) ↔
    ∃ b, mem = List.replicate mem.length b := by
  constructor
  · intro hfinds
    by_contra hmixed
    obtain ⟨b, bs, rfl⟩ := List.exists_cons_of_ne_nil hne
    rcases replicate_or_first b (b :: bs) with hall | ⟨n, d, rest, hd, heq⟩
    · exact hmixed ⟨b, hall⟩
    cases n with
    | zero => exact hd (List.cons.inj heq).1.symm
    | succ n =>
        have hlong := congrArg List.length heq
        rw [List.length_append, List.length_replicate, List.length_cons, List.length_cons] at hlong
        obtain ⟨tr, s, hrun, hheld, hbytes⟩ := rom_run cfg (List.replicate (n + 1) b ++ b :: bs) (by
          rw [List.length_append, List.length_replicate]
          rw [List.length_cons] at hlen ⊢
          omega)
        have h := packetInv_run hrun
        have hfound := hfinds _ _ _ tr s 1 0 hrun hheld
        rw [h.memfind_missed (h.exact.points 1 hheld) hd heq hbytes] at hfound
        rcases hfound with ⟨-, hnone⟩ | ⟨-, hoccurs, -⟩
        · -- it is there, behind the byte too many
          have hrest : (s.packets.bytes 1).drop (n + 1) = b :: bs := by
            rw [hbytes, List.drop_left' List.length_replicate]
          exact hnone (n + 1) (Nat.zero_le _) ⟨[], by rw [List.append_nil, hrest]⟩
        · have hle := hoccurs.le hne
          rw [hbytes, List.length_append, List.length_replicate, List.length_cons] at hle
          rw [List.length_cons] at hlen
          omega
  · intro hsame pbuf size data tr s p start hrun hp
    have h := packetInv_run hrun
    exact (h.memfind_found (h.exact.points p hp) hne start).2 hsame

theorem memfind_first_iff_aa :
    FirstFrom ((afterCalls pageOfA).packets.bytes 1) [97, 97] 0
        (pbufMemfind (afterCalls pageOfA).packets 1 [97, 97] 0) :=
  (memfind_first_iff smallPbufs [97, 97] (by decide) (by decide)).mpr ⟨97, rfl⟩ _ _ _ _ _ 1 0
    (afterCalls_run pageOfA (by decide +kernel))
    (by decide +kernel)

end ThirdParty.Lwip
