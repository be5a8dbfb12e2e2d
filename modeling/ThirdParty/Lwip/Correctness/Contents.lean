import ThirdParty.Lwip.Correctness.References

/-!
# `Lwip.Correctness.Contents` — what the packets say

`Packets.bytes` reads a chain as one string, so that it does not matter how a packet is split into pbufs. Every call
that changes a packet is then an operation on strings, and every other packet says what it said before, in any run
of clients that leave it alone.
-/

namespace ThirdParty.Lwip

open Lib

namespace Packets

/-- What the pbufs `ps` say together. -/
def text (s : Packets) (ps : List Nat) : List Byte := (ps.map s.payload).flatten

variable {s s' : Packets} {ps qs : List Nat} {p q : Nat}

theorem bytes_eq_text (s : Packets) (p : Nat) : s.bytes p = s.text (s.chain p) := rfl

theorem text_nil : s.text [] = [] := rfl

theorem text_cons : s.text (p :: ps) = s.payload p ++ s.text ps := rfl

theorem text_append : s.text (ps ++ qs) = s.text ps ++ s.text qs := by
  rw [text, text, text, List.map_append, List.flatten_append]

theorem text_congr (h : ∀ q ∈ ps, s'.payload q = s.payload q) : s'.text ps = s.text ps := by
  unfold text
  rw [List.map_congr_left h]

theorem payload_length (s : Packets) (p : Nat) : (s.payload p).length = (s.pbuf p).len := bytesAt_length ..

theorem text_length (s : Packets) (ps : List Nat) : (s.text ps).length = (ps.map fun q => (s.pbuf q).len).sum := by
  induction ps with
  | nil => rfl
  | cons p ps ih => rw [text_cons, List.length_append, payload_length, ih, List.map_cons, List.sum_cons]

/-- A payload is as before if its bytes are, and the pbuf still points to them. -/
theorem payload_congr (hpayload : (s'.pbuf p).payload = (s.pbuf p).payload) (hlen : (s'.pbuf p).len = (s.pbuf p).len)
    (hdata : s'.data (s.pbuf p).payload.block = s.data (s.pbuf p).payload.block) : s'.payload p = s.payload p := by
  unfold payload load
  rw [hpayload, hlen, hdata]

/-- A write to another block. -/
theorem payload_store_of_ne {a : Pointer} {bs : List Byte} (h : (s.pbuf p).payload.block ≠ a.block) :
    (s.store a bs).payload p = s.payload p := by
  refine payload_congr rfl rfl ?_
  unfold store
  exact Function.update_of_ne h _ _

/-- A write into the payload. -/
theorem payload_store {i : Nat} {bs : List Byte} (h : i + bs.length ≤ (s.pbuf p).len) :
    (s.store ((s.pbuf p).payload.plus i) bs).payload p = overwrite (s.payload p) i bs := by
  unfold payload load store Pointer.plus
  dsimp only
  rw [Function.update_self]
  exact bytesAt_write h

/-- The bytes of a payload from an offset on. -/
theorem load_plus {i n : Nat} (h : i + n ≤ (s.pbuf p).len) :
    s.load ((s.pbuf p).payload.plus i) n = ((s.payload p).drop i).take n := by
  unfold payload load Pointer.plus
  rw [bytesAt_drop (by omega), bytesAt_take (by omega)]

end Packets

section
variable {cfg : PbufConfig} {missing missing' : Nat → Nat} {s s' : Packets} {held held' qs : List Nat} {p q : Nat}

/-! ## Chains that are left alone -/

theorem Formed.chain_congr (h : Formed cfg missing s held) (h' : Formed cfg missing' s' held') (hp : p ∈ s.live)
    (hp' : p ∈ s'.live) (hnext : ∀ q ∈ s.chain p, s'.next q = s.next q) : s'.chain p = s.chain p :=
  h'.chain_eq hp' ((h.chained hp).congr hnext)

/-- **A packet says the same** when its pbufs do, and point to each other as before. -/
theorem Formed.bytes_congr (h : Formed cfg missing s held) (h' : Formed cfg missing' s' held') (hp : p ∈ s.live)
    (hp' : p ∈ s'.live) (hnext : ∀ q ∈ s.chain p, s'.next q = s.next q)
    (hpayload : ∀ q ∈ s.chain p, s'.payload q = s.payload q) : s'.bytes p = s.bytes p := by
  rw [Packets.bytes_eq_text, Packets.bytes_eq_text, h.chain_congr h' hp hp' hnext]
  exact Packets.text_congr hpayload

/-- Freeing changes no pointer and no byte. -/
theorem Formed.free_next (h : Formed cfg missing s held) (hp : p ∈ s.live) : (pbufFree s p).1.next = s.next := by
  rw [h.pbufFree_eq hp]
  exact Packets.next_withCounts

theorem Formed.free_payload (h : Formed cfg missing s held) (hp : p ∈ s.live) (q : Nat) :
    (pbufFree s p).1.payload q = s.payload q := by
  rw [h.pbufFree_eq hp]
  exact Packets.payload_congr rfl rfl rfl

/-- Where the payload of `p` lies. -/
theorem Placed.block (h : Placed cfg s p) : (s.pbuf p).payload.block = some p ∨ (s.pbuf p).payload.block = none := by
  by_cases ho : (s.pbuf p).owns
  · exact .inl (h.inside ho).1
  · exact .inr (h.outside ho)

/-- A payload does not lie in the block of another pbuf. -/
theorem Placed.block_ne (h : Placed cfg s p) (hpq : p ≠ q) : (s.pbuf p).payload.block ≠ some q := by
  rcases h.block with hblock | hblock <;> rw [hblock]
  · exact fun heq => hpq (Option.some.inj heq)
  · exact (Option.some_ne_none q).symm

/-! ## Writing into a packet -/

/-- The pbufs `ps` may be written: their payloads are their own, and none comes twice. -/
structure Writes (s : Packets) (ps : List Nat) : Prop where
  nodup : ps.Nodup
  block : ∀ q ∈ ps, (s.pbuf q).payload.block = some q

theorem Writes.tail (h : Writes s (p :: qs)) : Writes s qs where
  nodup := (List.nodup_cons.mp h.nodup).2
  block q hq := h.block q (List.mem_cons_of_mem p hq)

theorem Writes.other (h : Writes s (p :: qs)) (hq : q ∈ qs) : (s.pbuf q).payload.block ≠ (s.pbuf p).payload.block := by
  rw [h.block p List.mem_cons_self, h.block q (List.mem_cons_of_mem p hq)]
  exact fun heq => (List.nodup_cons.mp h.nodup).1 (Option.some.inj heq ▸ hq)

/-- **`bs` was written into the packet `ps` at `offset`**, and into no other. -/
structure Copied (s s' : Packets) (ps : List Nat) (offset : Nat) (bs : List Byte) : Prop where
  pbuf   : s'.pbuf = s.pbuf
  room   : offset + bs.length ≤ (s.text ps).length
  text   : s'.text ps = overwrite (s.text ps) offset bs
  others : ∀ q, (∀ t ∈ ps, (s.pbuf q).payload.block ≠ some t) → s'.payload q = s.payload q

/-- One `MEMCPY`. -/
theorem Writes.store {i : Nat} (h : Writes s (p :: qs)) (bs : List Byte) (hlen : i + bs.length ≤ (s.pbuf p).len) :
    Copied s (s.store ((s.pbuf p).payload.plus i) bs) (p :: qs) i bs where
  pbuf := rfl
  room := by
    rw [Packets.text_cons, List.length_append, Packets.payload_length]
    omega
  text := by
    have hothers : (s.store ((s.pbuf p).payload.plus i) bs).text qs = s.text qs :=
      Packets.text_congr fun q hq => Packets.payload_store_of_ne (h.other hq)
    rw [Packets.text_cons, Packets.text_cons, hothers, Packets.payload_store hlen]
    exact (overwrite_append_left _ (by rw [Packets.payload_length]; exact hlen)).symm
  others q hq := by
    refine Packets.payload_store_of_ne ?_
    have hblock : ((s.pbuf p).payload.plus i).block = some p := h.block p List.mem_cons_self
    rw [hblock]
    exact hq p List.mem_cons_self

theorem Copied.trans {s₁ s₂ : Packets} {i : Nat} {xs ys : List Byte} (h : Copied s s₁ qs i xs)
    (h' : Copied s₁ s₂ qs (i + xs.length) ys) : Copied s s₂ qs i (xs ++ ys) where
  pbuf := h'.pbuf.trans h.pbuf
  room := by
    have hroom := h'.room
    rw [h.text, overwrite_length h.room] at hroom
    rw [List.length_append]
    omega
  text := by
    have hroom := h.room
    rw [h'.text, h.text, overwrite_overwrite (by omega)]
  others q hq := by
    rw [h'.others q fun t ht => by rw [h.pbuf]; exact hq t ht]
    exact h.others q hq

/-- What is written behind the first pbuf. -/
theorem Copied.cons {bs : List Byte} (hw : Writes s (p :: qs)) (h : Copied s s' qs 0 bs) :
    Copied s s' (p :: qs) (s.pbuf p).len bs where
  pbuf := h.pbuf
  room := by
    have hroom := h.room
    rw [Packets.text_cons, List.length_append, Packets.payload_length]
    omega
  text := by
    have hhead : s'.payload p = s.payload p := by
      refine h.others p fun t ht => ?_
      rw [hw.block p List.mem_cons_self]
      exact fun heq => (List.nodup_cons.mp hw.nodup).1 (Option.some.inj heq ▸ ht)
    have hwrite := overwrite_append_right (s.payload p) (s.text qs) bs 0
    rw [Packets.payload_length, Nat.add_zero] at hwrite
    rw [Packets.text_cons, Packets.text_cons, hhead, h.text, hwrite]
  others q hq := h.others q fun t ht => hq t (List.mem_cons_of_mem p ht)

/-- **The loop of `pbuf_take`.** -/
theorem pbufTakeLoop_copied : ∀ {ps : List Nat} (bs : List Byte) {s : Packets}, Writes s ps →
    bs.length ≤ (s.text ps).length → Copied s (pbufTakeLoop ps bs s) ps 0 bs
  | [],      bs, s, _,  hlen => by
      obtain rfl : bs = [] := List.eq_nil_of_length_eq_zero (Nat.le_zero.mp hlen)
      exact ⟨rfl, by simp, rfl, fun _ _ => rfl⟩
  | p :: ps, bs, s, hw, hlen => by
      unfold pbufTakeLoop
      split
      · next hnil =>
          rw [hnil]
          exact ⟨rfl, by simp, (overwrite_nil _ _).symm, fun _ _ => rfl⟩
      rw [Packets.text_cons, List.length_append, Packets.payload_length] at hlen
      by_cases hmore : bs.length > (s.pbuf p).len
      · -- this pbuf is filled, and the rest goes behind it
        dsimp only
        rw [if_pos hmore]
        have htake : (bs.take (s.pbuf p).len).length = (s.pbuf p).len := by rw [List.length_take]; omega
        have hfirst := hw.store (bs.take (s.pbuf p).len) (i := 0) (by omega)
        have hw' : Writes (s.store (s.pbuf p).payload (bs.take (s.pbuf p).len)) (p :: ps) := ⟨hw.nodup, hw.block⟩
        have hrest := Copied.cons hw' (pbufTakeLoop_copied (bs.drop (s.pbuf p).len) hw'.tail (by
          rw [List.length_drop, Packets.text_length]
          rw [Packets.text_length] at hlen
          show bs.length - _ ≤ (ps.map fun q => (s.pbuf q).len).sum
          omega))
        have hboth := hfirst.trans (by rw [htake, Nat.zero_add]; exact hrest)
        rw [List.take_append_drop] at hboth
        exact hboth
      · dsimp only
        rw [if_neg hmore, List.take_length, List.drop_length]
        have hstop : ∀ t : Packets, pbufTakeLoop ps [] t = t := fun t => by cases ps <;> rfl
        rw [hstop]
        exact hw.store bs (i := 0) (by omega)

theorem copyEnds_ok {tos froms : List Nat} (h : copyEnds s tos froms = some .ok) : froms = [] := by
  unfold copyEnds at h
  split at h
  · cases h
  split at h
  · cases h
  split at h
  · cases h
  split at h
  · next hnil => exact hnil
  · cases h

theorem copyEnds_none {tos froms : List Nat} (h : copyEnds s tos froms = none) : tos ≠ [] ∧ froms ≠ [] := by
  unfold copyEnds at h
  split at h
  · cases h
  next hroom =>
  split at h
  · cases h
  split at h
  · cases h
  split at h
  · cases h
  next hmore => exact ⟨fun htos => hroom ⟨htos, hmore⟩, hmore⟩

/-- Where `pbuf_copy` goes on to read. -/
theorem copyFrom_next {n : Nat} {r : List Nat × Nat} (hn : n ≤ (s.pbuf p).len)
    (hr : r = if n ≥ (s.pbuf p).len then (qs, 0) else (p :: qs, n)) :
    (s.text r.1).drop r.2 = (s.text (p :: qs)).drop n ∧ (∀ q ∈ r.1, q ∈ p :: qs) ∧
      ∀ q ts, r.1 = q :: ts → r.2 ≤ (s.pbuf q).len := by
  split at hr
  · next hdone =>
      rw [hr]
      refine ⟨?_, fun q hq => List.mem_cons_of_mem p hq, fun q _ _ => Nat.zero_le _⟩
      have hend : n = (s.payload p).length := by
        rw [Packets.payload_length]
        exact Nat.le_antisymm hn hdone
      rw [Packets.text_cons, hend, List.drop_left]
      rfl
  · rw [hr]
    refine ⟨rfl, fun q hq => hq, fun q ts heq => ?_⟩
    rw [← (List.cons.inj heq).1]
    exact hn

/-- Where it goes on to write. -/
theorem copyTo_next {n : Nat} {r : List Nat × Nat} (hw : Writes s (p :: qs)) (hn : n ≤ (s.pbuf p).len)
    (hr : r = if n = (s.pbuf p).len then (qs, 0) else (p :: qs, n)) :
    Writes s r.1 ∧ (∀ {s' : Packets} {bs : List Byte}, Copied s s' r.1 r.2 bs → Copied s s' (p :: qs) n bs) ∧
      (∀ q ∈ r.1, q ∈ p :: qs) ∧ ∀ q ts, r.1 = q :: ts → r.2 ≤ (s.pbuf q).len := by
  split at hr
  · next hdone =>
      rw [hr, hdone]
      exact ⟨hw.tail, fun h => h.cons hw, fun q hq => List.mem_cons_of_mem p hq, fun q _ _ => Nat.zero_le _⟩
  · rw [hr]
    refine ⟨hw, fun h => h, fun q hq => hq, fun q ts heq => ?_⟩
    rw [← (List.cons.inj heq).1]
    exact hn

/-- **The loop of `pbuf_copy`** writes the beginning of the source, and all of it when it returns `ERR_OK`. -/
theorem pbufCopyLoop_copied : ∀ (fuel : Nat) {pTo pFrom offsetTo offsetFrom : Nat} {tos froms : List Nat} {s : Packets},
    Writes s (pTo :: tos) → (∀ q ∈ pFrom :: froms, ∀ t ∈ pTo :: tos, (s.pbuf q).payload.block ≠ some t) →
    offsetTo ≤ (s.pbuf pTo).len → offsetFrom ≤ (s.pbuf pFrom).len → tos.length + froms.length + 2 ≤ fuel →
    ∃ n, Copied s (pbufCopyLoop fuel (pTo :: tos) offsetTo (pFrom :: froms) offsetFrom s).1 (pTo :: tos) offsetTo
        (((s.text (pFrom :: froms)).drop offsetFrom).take n) ∧
      ((pbufCopyLoop fuel (pTo :: tos) offsetTo (pFrom :: froms) offsetFrom s).2 = .ok →
        ((s.text (pFrom :: froms)).drop offsetFrom).length ≤ n)
  | 0,        _,   _,     _,        _,          _,   _,     _, _,  _,       _,    _,      hfuel =>
      absurd hfuel (by omega)
  | fuel + 1, pTo, pFrom, offsetTo, offsetFrom, tos, froms, s, hw, hapart, hto, hfrom, hfuel => by
      unfold pbufCopyLoop
      obtain ⟨len, hlen⟩ : ∃ n, n = if (s.pbuf pTo).len - offsetTo ≥ (s.pbuf pFrom).len - offsetFrom
        then (s.pbuf pFrom).len - offsetFrom else (s.pbuf pTo).len - offsetTo := ⟨_, rfl⟩
      rw [← hlen]
      dsimp only
      have hlenTo : offsetTo + len ≤ (s.pbuf pTo).len := by rw [hlen]; split <;> omega
      have hlenFrom : offsetFrom + len ≤ (s.pbuf pFrom).len := by rw [hlen]; split <;> omega
      have hdone : offsetFrom + len = (s.pbuf pFrom).len ∨ offsetTo + len = (s.pbuf pTo).len := by
        rw [hlen]; split <;> omega
      obtain ⟨bs, hbs⟩ : ∃ bs, bs = s.load ((s.pbuf pFrom).payload.plus offsetFrom) len := ⟨_, rfl⟩
      rw [← hbs]
      -- what this round copies is the beginning of what is left
      have hload : bs = ((s.payload pFrom).drop offsetFrom).take len := by rw [hbs, Packets.load_plus hlenFrom]
      have hbsLen : bs.length = len := by rw [hbs, Packets.load, bytesAt_length]
      have hleft : (s.text (pFrom :: froms)).drop offsetFrom =
          bs ++ (s.text (pFrom :: froms)).drop (offsetFrom + len) := by
        have hcut : offsetFrom ≤ (s.payload pFrom).length := by rw [Packets.payload_length]; exact hfrom
        have hcut' : offsetFrom + len ≤ (s.payload pFrom).length := by rw [Packets.payload_length]; exact hlenFrom
        rw [Packets.text_cons, List.drop_append_of_le_length hcut, List.drop_append_of_le_length hcut',
          ← List.append_assoc, hload,
          ← List.drop_drop, List.take_append_drop]
      have hround := hw.store bs (i := offsetTo) (by omega)
      obtain ⟨s₁, hs₁⟩ : ∃ s₁, s₁ = s.store ((s.pbuf pTo).payload.plus offsetTo) bs := ⟨_, rfl⟩
      rw [← hs₁] at hround ⊢
      have hpbuf := hround.pbuf
      have hw₁ : Writes s₁ (pTo :: tos) := ⟨hw.nodup, fun q hq => by rw [hpbuf]; exact hw.block q hq⟩
      have hfroms : s₁.text (pFrom :: froms) = s.text (pFrom :: froms) :=
        Packets.text_congr fun q hq => hround.others q (hapart q hq)
      have hrest : ∀ {n : Nat} {s₂ : Packets},
          Copied s₁ s₂ (pTo :: tos) (offsetTo + len) (((s.text (pFrom :: froms)).drop (offsetFrom + len)).take n) →
          Copied s s₂ (pTo :: tos) offsetTo (((s.text (pFrom :: froms)).drop offsetFrom).take (len + n)) := by
        intro n s₂ h₂
        rw [hleft, ← hbsLen, List.take_length_add_append]
        rw [← hbsLen] at h₂
        exact hround.trans h₂
      have hlong : ((s.text (pFrom :: froms)).drop offsetFrom).length ≤
          len + ((s.text (pFrom :: froms)).drop (offsetFrom + len)).length := by
        rw [hleft, List.length_append, hbsLen]
      obtain ⟨nextFrom, hnextFrom⟩ : ∃ r, r = if offsetFrom + len ≥ (s₁.pbuf pFrom).len then (froms, 0)
        else (pFrom :: froms, offsetFrom + len) := ⟨_, rfl⟩
      obtain ⟨nextTo, hnextTo⟩ : ∃ r, r = if offsetTo + len = (s₁.pbuf pTo).len then (tos, 0)
        else (pTo :: tos, offsetTo + len) := ⟨_, rfl⟩
      obtain ⟨hfromText, hfromSub, hfromLe⟩ := copyFrom_next (by rw [hpbuf]; exact hlenFrom) hnextFrom
      obtain ⟨hwTo, hcopied, htoSub, htoLe⟩ := copyTo_next hw₁ (by rw [hpbuf]; exact hlenTo) hnextTo
      -- one of the two pbufs is done
      have hshorter : nextTo.1.length + nextFrom.1.length < tos.length + froms.length + 2 := by
        rw [hnextFrom, hnextTo, hpbuf]
        rcases hdone with hdone | hdone
        · rw [if_pos (Nat.le_of_eq hdone.symm)]
          split <;> simp only [List.length_cons] <;> omega
        · rw [if_pos hdone]
          split <;> simp only [List.length_cons] <;> omega
      rw [hfroms] at hfromText
      rw [← hnextFrom, ← hnextTo]
      cases hends : copyEnds s₁ nextTo.1 nextFrom.1 with
      | some err =>
          refine ⟨len, ?_, fun hok => ?_⟩
          · rw [hleft, List.take_left' hbsLen]
            exact hround
          · have hok : err = .ok := hok
            rw [hok] at hends
            rw [← hfromText, copyEnds_ok hends, Packets.text_nil, List.drop_nil] at hlong
            exact hlong
      | none =>
          obtain ⟨htoNe, hfromNe⟩ := copyEnds_none hends
          obtain ⟨tos', offsetTo'⟩ := nextTo
          obtain ⟨froms', offsetFrom'⟩ := nextFrom
          obtain ⟨pTo', tos', rfl⟩ := List.exists_cons_of_ne_nil htoNe
          obtain ⟨pFrom', froms', rfl⟩ := List.exists_cons_of_ne_nil hfromNe
          obtain ⟨n, hn, hall⟩ := pbufCopyLoop_copied fuel hwTo
            (fun q hq t ht => by rw [hpbuf]; exact hapart q (hfromSub q hq) t (htoSub t ht)) (htoLe _ _ rfl)
                (hfromLe _ _ rfl) (by
              simp only [List.length_cons] at hshorter
              omega)
          have hfromText₁ : (s₁.text (pFrom' :: froms')).drop offsetFrom' =
              (s.text (pFrom :: froms)).drop (offsetFrom + len) := by
            rw [← hfromText]
          rw [hfromText₁] at hn hall
          refine ⟨len + n, hrest (hcopied hn), fun hok => ?_⟩
          have := hall hok
          omega

/-- The pbufs of a chain that a client may write. -/
theorem Formed.writes (h : Formed cfg missing s held) (hp : p ∈ s.live) (hw : s.Writable p) : Writes s (s.chain p) where
  nodup := (h.chained hp).nodup
  block q hq := ((h.placed q (h.chain_live hp q hq)).inside (hw q hq)).1

/-- **`pbuf_copy`** writes the beginning of the source packet, and all of it when it returns `ERR_OK`. -/
theorem Formed.copied {pTo pFrom : Nat} (h : Formed cfg missing s held) (hto : pTo ∈ s.live) (hfrom : pFrom ∈ s.live)
    (hw : s.Writable pTo) (hapart : ∀ q ∈ s.chain pTo, q ∉ s.chain pFrom) :
    ∃ n, Copied s (pbufCopy s pTo pFrom).1 (s.chain pTo) 0 ((s.bytes pFrom).take n) ∧
      ((pbufCopy s pTo pFrom).2 = .ok → (s.bytes pFrom).length ≤ n) := by
  unfold pbufCopy
  split
  · obtain ⟨tos, htos, -⟩ := (h.chained hto).some_inv
    obtain ⟨froms, hfroms, -⟩ := (h.chained hfrom).some_inv
    have hwrites := h.writes hto hw
    have hlive := h.chain_live hfrom
    rw [Packets.bytes_eq_text]
    rw [htos] at hwrites hapart ⊢
    rw [hfroms] at hapart hlive ⊢
    refine pbufCopyLoop_copied _ hwrites (fun q hq t ht => ?_) (Nat.zero_le _) (Nat.zero_le _)
      (by simp only [List.length_cons]; omega)
    exact (h.placed q (hlive q hq)).block_ne fun heq => hapart t ht (heq ▸ hq)
  · refine ⟨0, ⟨rfl, by simp, ?_, fun _ _ => rfl⟩, fun hok => by cases hok⟩
    rw [List.take_zero, overwrite_nil]

/-- **`pbuf_take`.** -/
theorem PacketInv.taken (h : PacketInv cfg s held) (bs : List Byte) (hp : p ∈ s.live) (hw : s.Writable p) :
    Copied s (pbufTake s p bs).1 (s.chain p) 0 (if bs.length ≤ (s.bytes p).length then bs else []) := by
  unfold pbufTake
  rw [h.bytes_length hp]
  split
  · next hshort =>
      rw [if_neg (Nat.not_le.mpr hshort)]
      exact ⟨rfl, by simp, (overwrite_nil _ _).symm, fun _ _ => rfl⟩
  · next hfits =>
      have hfits := Nat.not_lt.mp hfits
      rw [if_pos hfits]
      rw [← h.bytes_length hp] at hfits
      exact pbufTakeLoop_copied bs (h.writes hp hw) hfits

/-! ## What a call does to its packet -/

/-- `pbuf_cat` puts the strings together. -/
theorem PacketInv.cat_bytes {x t : Nat} (h : PacketInv cfg s held) (hx : x ∈ s.live) (ht : t ∈ s.live)
    (hjoin : Joinable s x t)
    (h' : PacketInv cfg (pbufCat s x t) held') : (pbufCat s x t).bytes x = s.bytes x ++ s.bytes t := by
  obtain ⟨ps, l, hchain, hlast, htnot, hcat⟩ := h.pbufCat_eq hx ht hjoin
  have hpath := h.chained hx
  rw [hchain] at hpath
  have hl : l ∈ ps ++ [l] := by simp
  have hapart := hjoin.1 l (by rw [hchain]; exact hl)
  have hnext : (pbufCat s x t).next = Function.update s.next l (some t) := by
    rw [hcat]
    exact congrArg Counted.next (Packets.counted_catted (s := s) (t := t) hl)
  have hlinked : Chained (pbufCat s x t).next (some x) (s.chain x ++ s.chain t) := by
    rw [hnext, hchain, List.append_assoc]
    exact hpath.link (h.chained ht) hapart
  have hxlive : x ∈ (pbufCat s x t).live := by
    rw [hcat]
    exact hx
  have hpayload : ∀ q, (pbufCat s x t).payload q = s.payload q := by
    intro q
    rw [hcat]
    by_cases hq : q ∈ ps ++ [l]
    · have hself : (s.catted t l (ps ++ [l])).pbuf q = { s.pbuf q with
          totLen := toU16 ((s.pbuf q).totLen + (s.pbuf t).totLen),
          next := if q = l then some t else (s.pbuf q).next } := if_pos hq
      exact Packets.payload_congr (by rw [hself]) (by rw [hself]) rfl
    · have hself : (s.catted t l (ps ++ [l])).pbuf q = s.pbuf q := if_neg hq
      exact Packets.payload_congr (by rw [hself]) (by rw [hself]) rfl
  rw [Packets.bytes_eq_text, h'.chain_eq hxlive hlinked, Packets.text_congr fun q _ => hpayload q, Packets.text_append]
  rfl

/-- A packet of one pbuf. -/
theorem Formed.bytes_alone (h : Formed cfg missing s held) (hp : p ∈ s.live) (hnext : s.next p = none) :
    s.bytes p = s.payload p := by
  have halone : Chained s.next (some p) [p] := by
    refine .cons ?_
    rw [hnext]
    exact .nil
  rw [Packets.bytes_eq_text, h.chain_eq hp halone, Packets.text_cons]
  exact List.append_nil _

/-- After a chain was cut behind `q` and the rest freed. -/
theorem PacketInv.cut_freed {pre : List Nat} {n size : Nat}
    (h : PacketInv cfg (s.shortened pre q n size) ((s.next q).toList ++ held))
    (s' : Packets) (heq : s' = match s.next q with
      | some r => (pbufFree (s.shortened pre q n size) r).1
      | none   => s.shortened pre q n size) :
    s'.next = Function.update s.next q none ∧ (∀ x, x ≠ q → s'.payload x = s.payload x) ∧
      (n ≤ (s.pbuf q).len → s'.payload q = (s.payload q).take n) := by
  have hnext : (s.shortened pre q n size).next = Function.update s.next q none :=
    congrArg Counted.next (s.counted_shortened pre q n size)
  have hother : ∀ x, x ≠ q → (s.shortened pre q n size).payload x = s.payload x := by
    intro x hx
    have hpbuf : (s.shortened pre q n size).pbuf x = if x ∈ pre
      then { s.pbuf x with totLen := (s.pbuf x).totLen - ((s.pbuf q).totLen - n) } else s.pbuf x := if_neg hx
    refine Packets.payload_congr ?_ ?_ rfl
    · rw [hpbuf]
      split <;> rfl
    · rw [hpbuf]
      split <;> rfl
  have hself : n ≤ (s.pbuf q).len → (s.shortened pre q n size).payload q = (s.payload q).take n := by
    intro hn
    have hpbuf : (s.shortened pre q n size).pbuf q = { s.pbuf q with next := none, len := n, totLen := n } := if_pos rfl
    unfold Packets.payload Packets.load
    rw [hpbuf, bytesAt_take hn]
    rfl
  cases hq : s.next q with
  | none =>
      rw [heq, hq]
      exact ⟨hnext, hother, hself⟩
  | some r =>
      rw [hq] at h heq
      have hr : r ∈ (s.shortened pre q n size).live := h.exact.points r (List.mem_cons_self)
      rw [heq]
      dsimp only
      rw [h.free_next hr]
      refine ⟨hnext, fun x hx => ?_, fun hn => ?_⟩
      · rw [h.free_payload hr, hother x hx]
      · rw [h.free_payload hr, hself hn]

/-- `pbuf_dechain` leaves the first pbuf. -/
theorem PacketInv.dechain_effect (h : PacketInv cfg s held) (hp : p ∈ s.live) (hheads : s.Heads p) :
    (pbufDechain s p).1.next = Function.update s.next p none ∧ ∀ x, (pbufDechain s p).1.payload x = s.payload x := by
  cases hnext : s.next p with
  | none =>
      have hsame : (pbufDechain s p).1 = s := by
        unfold pbufDechain
        rw [hnext]
      rw [hsame, ← hnext, Function.update_eq_self]
      exact ⟨rfl, fun _ => rfl⟩
  | some q =>
      obtain ⟨hshort, heq⟩ := h.dechain_cut hp hheads hnext
      obtain ⟨hnext', hother, hself⟩ := hshort.cut_freed (pbufDechain s p).1 (by rw [heq, hnext])
      refine ⟨hnext', fun x => ?_⟩
      by_cases hx : x = p
      · rw [hx, hself (Nat.le_refl _), ← s.payload_length p, List.take_length]
      · exact hother x hx

theorem PacketInv.dechain_bytes (h : PacketInv cfg s held) (hp : p ∈ held) (hheads : s.Heads p) :
    (pbufDechain s p).1.bytes p = s.payload p := by
  have hlive := h.exact.points p hp
  obtain ⟨hnext, hpayload⟩ := h.dechain_effect hlive hheads
  have h' := h.dechain hlive hheads
  rw [h'.bytes_alone (h'.exact.points p hp) (by rw [hnext, Function.update_self]), hpayload]

/-- `pbuf_realloc` keeps the beginning of the string. -/
theorem PacketInv.realloc_effect (h : PacketInv cfg s held) (hp : p ∈ held) (hshared : s.Unshared p) (newLen : Nat) :
    (∀ x, x ∉ s.chain p → (pbufRealloc s p newLen).next x = s.next x ∧
      (pbufRealloc s p newLen).payload x = s.payload x) ∧
      (pbufRealloc s p newLen).bytes p = (s.bytes p).take newLen := by
  have hlive := h.exact.points p hp
  have h' := h.realloc hlive hshared newLen
  by_cases hnew : newLen < (s.pbuf p).totLen
  swap
  · have hsame : pbufRealloc s p newLen = s := by rw [pbufRealloc, if_pos (Nat.not_lt.mp hnew)]
    rw [hsame, List.take_of_length_le (by rw [h.bytes_length hlive]; exact Nat.not_lt.mp hnew)]
    exact ⟨fun _ _ => ⟨rfl, rfl⟩, rfl⟩
  obtain ⟨pre, q, suf, n, size, hchain, hn, hlen, hshort, heq⟩ := h.realloc_cut hlive hshared hnew
  obtain ⟨hnext, hother, hself⟩ := hshort.cut_freed _ heq
  have hpath := h.chained hlive
  rw [hchain] at hpath ⊢
  have hqpre : q ∉ pre := fun hmem => (List.nodup_append.mp hpath.nodup).2.2 q hmem q List.mem_cons_self rfl
  refine ⟨fun x hx => ?_, ?_⟩
  · have hxq : x ≠ q := fun heq => hx (by simp [heq])
    rw [hnext, Function.update_of_ne hxq, hother x hxq]
    exact ⟨rfl, rfl⟩
  · have hcut : (pbufRealloc s p newLen).chain p = pre ++ [q] := by
      refine h'.chain_eq (h'.exact.points p hp) ?_
      rw [hnext]
      exact hpath.cut
    rw [Packets.bytes_eq_text, Packets.bytes_eq_text, hcut, hchain, Packets.text_append, Packets.text_append,
      Packets.text_cons,
      Packets.text_cons, Packets.text_nil, List.append_nil, hself hn,
      Packets.text_congr fun x hx => hother x (ne_of_mem_of_not_mem hx hqpre)]
    have hpre : (s.text pre).length + n = newLen := by
      rw [Packets.text_length]
      exact hlen
    rw [← hpre, List.take_length_add_append, List.take_append_of_le_length (by rw [Packets.payload_length]; exact hn)]

/-- The bytes in front of a payload. -/
def Packets.front (s : Packets) (p n : Nat) : List Byte :=
  s.load { (s.pbuf p).payload with off := (s.pbuf p).payload.off - n } n

/-- What a packet says after `pbuf_header`: a header is hidden, or bytes in front of the payload appear. -/
def Packets.headed (s : Packets) (p : Nat) (inc : Int) : List Byte :=
  if inc ≤ 0 then (s.bytes p).drop (-inc).toNat else s.front p inc.toNat ++ s.bytes p

/-- The payload after its pointer was moved. -/
theorem PacketInv.moveHeader_payload (h : PacketInv cfg s held) (hp : p ∈ s.live) {inc : Int}
    (hlen : 0 ≤ (s.pbuf p).len + inc)
    (hlt : (s.pbuf p).totLen + inc < 65536) (hoff : inc ≤ (s.pbuf p).payload.off) :
    (s.moveHeader p inc).payload p =
      if inc ≤ 0 then (s.payload p).drop (-inc).toNat else s.front p inc.toNat ++ s.payload p := by
  have htotal := h.total p hp
  have hlen' : toU16 ((s.pbuf p).len + inc) = ((s.pbuf p).len + inc).toNat := by unfold toU16; omega
  unfold Packets.payload Packets.load Packets.moveHeader
  dsimp only
  rw [Packets.put_self, hlen']
  dsimp only
  split
  · next hneg =>
      rw [bytesAt_drop (by omega)]
      show bytesAt (s.data (s.pbuf p).payload.block) _ _ = _
      congr 1 <;> omega
  · next hpos =>
      have hsum : ((s.pbuf p).len + inc).toNat = inc.toNat + (s.pbuf p).len := by omega
      have hstart : ((s.pbuf p).payload.off - inc).toNat = (s.pbuf p).payload.off - inc.toNat := by omega
      have hend : (s.pbuf p).payload.off - inc.toNat + inc.toNat = (s.pbuf p).payload.off := by omega
      rw [hsum, hstart, bytesAt_add, hend]
      rfl

/-- `pbuf_header` moves the pointer, or does nothing. -/
theorem PacketInv.header_cases (h : PacketInv cfg s held) (hp : p ∈ s.live) {inc : Int}
    (hlt : (s.pbuf p).totLen + inc < 65536) :
    (pbufHeader cfg s p inc = (s, false)) ∨ (inc = 0 ∧ pbufHeader cfg s p inc = (s, true)) ∨
      (pbufHeader cfg s p inc = (s.moveHeader p inc, true) ∧ 0 ≤ (s.pbuf p).len + inc ∧
        (s.moveHeader p inc).payload p =
          if inc ≤ 0 then (s.payload p).drop (-inc).toNat else s.front p inc.toNat ++ s.payload p) := by
  unfold pbufHeader
  dsimp only
  split
  · next hzero => exact .inr (.inl ⟨hzero, rfl⟩)
  split
  · exact .inl rfl
  next hfits =>
  have hlen : 0 ≤ (s.pbuf p).len + inc := by
    rcases Int.lt_or_le inc 0 with hneg | hpos
    · have := not_and.mp hfits hneg
      omega
    · omega
  split
  · split
    · exact .inl rfl
    · next hroom => exact .inr (.inr ⟨rfl, hlen, h.moveHeader_payload hp hlen hlt (by omega)⟩)
  · split
    · next hneg => exact .inr (.inr ⟨rfl, hlen, h.moveHeader_payload hp hlen hlt (by omega)⟩)
    · exact .inl rfl

theorem Packets.moveHeader_next (s : Packets) (p : Nat) (inc : Int) : (s.moveHeader p inc).next = s.next := by
  unfold Packets.moveHeader
  rw [Packets.next_put]
  exact Function.update_eq_self p s.next

/-- A pbuf that is overwritten has no part in another payload. -/
theorem Packets.payload_put_of_ne {b : Pbuf} (hq : q ≠ p) : (s.put p b).payload q = s.payload q := by
  have hpbuf : (s.put p b).pbuf q = s.pbuf q := Packets.put_of_ne hq
  exact Packets.payload_congr (by rw [hpbuf]) (by rw [hpbuf]) rfl

theorem PacketInv.header_bytes (h : PacketInv cfg s held) (hp : p ∈ held) (hheads : s.Heads p) {inc : Int}
    (hlt : (s.pbuf p).totLen + inc < 65536) :
    (pbufHeader cfg s p inc).1.bytes p = if (pbufHeader cfg s p inc).2 then s.headed p inc else s.bytes p := by
  have hlive := h.exact.points p hp
  have h' := h.header hlive hheads hlt
  rcases h.header_cases hlive hlt with heq | ⟨hzero, heq⟩ | ⟨heq, hlen, hpayload⟩
  · rw [heq]
    rfl
  · rw [heq, hzero]
    exact (List.drop_zero).symm
  · rw [heq] at h' ⊢
    obtain ⟨rest, hrest, -⟩ := (h.chained hlive).some_inv
    have hprest : p ∉ rest := by
      have hnodup := (h.chained hlive).nodup
      rw [hrest] at hnodup
      exact (List.nodup_cons.mp hnodup).1
    have hchain : (s.moveHeader p inc).chain p = s.chain p :=
      h.chain_congr h' hlive (h'.exact.points p hp) fun q _ => by rw [s.moveHeader_next]
    have hothers : (s.moveHeader p inc).text rest = s.text rest :=
      Packets.text_congr fun q hq => Packets.payload_put_of_ne (ne_of_mem_of_not_mem hq hprest)
    have hbytes : s.bytes p = s.payload p ++ s.text rest := by rw [Packets.bytes_eq_text, hrest, Packets.text_cons]
    rw [if_pos rfl, Packets.bytes_eq_text, hchain, hrest, Packets.text_cons, hothers, hpayload, Packets.headed, hbytes]
    split
    · next hneg =>
        -- no more is hidden than the first pbuf has
        rw [List.drop_append_of_le_length (by rw [Packets.payload_length]; omega)]
    · rw [List.append_assoc]

/-! ## One pbuf for a packet -/

theorem KeepsPbufs.next (h : KeepsPbufs s s') (hq : q ∈ s.live) : s'.next q = s.next q := by
  rw [Packets.next, h.pbuf q hq]
  rfl

theorem KeepsPbufs.payload (h : KeepsPbufs s s') (hq : q ∈ s.live) : s'.payload q = s.payload q :=
  Packets.payload_congr (by rw [h.pbuf q hq]) (by rw [h.pbuf q hq]) (by rw [h.data])

/-- **The pool before `pbuf_coalesce` copies**: `q` is a new pbuf, as long as the packet of `p`. -/
structure Coalescing (cfg : PbufConfig) (s m : Packets) (held : List Nat) (p q : Nat) : Prop where
  keeps : KeepsPbufs s m
  inv   : PacketInv cfg m (q :: held)
  new   : q ∉ s.live
  next  : m.next q = none
  len   : (m.pbuf q).len = (s.pbuf p).totLen
  total : (m.pbuf q).totLen = (s.pbuf p).totLen
  type  : (m.pbuf q).type = .ram

theorem PacketInv.coalescing {m : Packets} {l : PbufLayer} {mallocs : List Nat} (h : PacketInv cfg s held)
    (hp : p ∈ s.live)
    (hfresh : s.Fresh mallocs) (hram : cfg.ramSize l (s.pbuf p).totLen < 65536)
    (halloc : pbufAlloc cfg s l (s.pbuf p).totLen .ram mallocs = (m, some q)) : Coalescing cfg s m held p q := by
  have hall := h.alloc .ram hfresh (h.total_lt p hp) fun _ => hram
  cases mallocs with
  | nil => cases halloc
  | cons r mallocs =>
      obtain ⟨rfl, hq⟩ := Prod.mk.inj halloc
      obtain rfl := Option.some.inj hq
      have hnew := hfresh.2 r List.mem_cons_self
      unfold pbufAlloc at hall
      dsimp only at hall
      obtain ⟨b, hb⟩ : ∃ b : Pbuf, b =
          { next := none, payload := ⟨some r, cfg.align (cfg.sizeofStructPbuf + cfg.offset l)⟩,
            totLen := (s.pbuf p).totLen, len := (s.pbuf p).totLen, type := .ram, ref := 1 } := ⟨_, rfl⟩
      rw [← hb] at hall ⊢
      cases hall with
      | given keeps inv new total =>
          refine ⟨keeps, inv, hnew, ?_, ?_, ?_, ?_⟩
          · rw [Packets.next, s.give_self, hb]
          all_goals rw [s.give_self, hb]

theorem Coalescing.chain {m : Packets} (h : Coalescing cfg s m held p q) : m.chain q = [q] := by
  refine h.inv.chain_eq (h.inv.exact.points q List.mem_cons_self) (.cons ?_)
  rw [h.next]
  exact .nil

/-- The packet is in the new pool what it was. -/
theorem Coalescing.source {m : Packets} (hc : Coalescing cfg s m held p q) (h : PacketInv cfg s held)
    (hp : p ∈ s.live) :
    m.chain p = s.chain p ∧ m.bytes p = s.bytes p := by
  have hp' := hc.keeps.live p hp
  have hlive := h.chain_live hp
  have hnext : ∀ x ∈ s.chain p, m.next x = s.next x := fun x hx => hc.keeps.next (hlive x hx)
  exact ⟨h.chain_congr hc.inv hp hp' hnext, h.bytes_congr hc.inv hp hp' hnext fun x hx => hc.keeps.payload (hlive x hx)⟩

/-- The copy goes to the new pbuf. -/
theorem Coalescing.copied {m : Packets} (hc : Coalescing cfg s m held p q) (h : PacketInv cfg s held)
    (hp : p ∈ s.live) :
    ∃ n, Copied m (pbufCopy m q p).1 [q] 0 ((s.bytes p).take n) ∧
        ((pbufCopy m q p).2 = .ok → (s.bytes p).length ≤ n) := by
  obtain ⟨hchain, hbytes⟩ := hc.source h hp
  have hcopied := hc.inv.copied (hc.inv.exact.points q List.mem_cons_self) (hc.keeps.live p hp)
      (fun x hx => ?_) fun x hx hmem => ?_
  · rw [hc.chain, hbytes] at hcopied
    exact hcopied
  · rw [hc.chain] at hx
    rw [List.mem_singleton.mp hx]
    exact .inl hc.type
  · rw [hc.chain] at hx
    rw [hchain, List.mem_singleton.mp hx] at hmem
    exact hc.new (h.chain_live hp q hmem)

/-- `pbuf_coalesce` leaves every pbuf as it is that is not freed. -/
theorem PacketInv.coalesce_effect {l : PbufLayer} {mallocs : List Nat} (h : PacketInv cfg s held) (hp : p ∈ s.live)
    (hfresh : s.Fresh mallocs) (hram : cfg.ramSize l (s.pbuf p).totLen < 65536) (hq : q ∈ s.live) :
    (pbufCoalesce cfg s p l mallocs).1.next q = s.next q ∧
    (pbufCoalesce cfg s p l mallocs).1.payload q = s.payload q := by
  unfold pbufCoalesce
  cases hnext : s.next p with
  | none => exact ⟨rfl, rfl⟩
  | some r =>
      dsimp only
      have hall := h.alloc .ram hfresh (h.total_lt p hp) fun _ => hram
      cases halloc : pbufAlloc cfg s l (s.pbuf p).totLen .ram mallocs with
      | mk m o =>
          rw [halloc] at hall
          cases o with
          | none =>
              cases hall with
              | refused keeps inv => exact ⟨keeps.next hq, keeps.payload hq⟩
          | some t =>
              have hc := h.coalescing hp hfresh hram halloc
              obtain ⟨n, hcopied, -⟩ := hc.copied h hp
              obtain ⟨data, hdata⟩ := pbufCopy_setData m t p
              have hinv := hc.inv.setData data
              rw [← hdata] at hinv
              have hp' : p ∈ (pbufCopy m t p).1.live := by
                rw [hdata]
                exact hc.keeps.live p hp
              dsimp only
              rw [hinv.free_next hp', hinv.free_payload hp', hcopied.others q fun x hx => ?_]
              · refine ⟨?_, hc.keeps.payload hq⟩
                rw [Packets.next, hcopied.pbuf]
                exact hc.keeps.next hq
              · rw [List.mem_singleton.mp hx]
                exact (hc.inv.placed q (hc.keeps.live q hq)).block_ne fun heq => hc.new (heq ▸ hq)

/-- The string of the new pbuf, when the copy was complete. -/
theorem PacketInv.coalesce_bytes {m : Packets} {l : PbufLayer} {mallocs : List Nat} (h : PacketInv cfg s (p :: held))
    (hfresh : s.Fresh mallocs) (hram : cfg.ramSize l (s.pbuf p).totLen < 65536) (hnext : s.next p ≠ none)
    (halloc : pbufAlloc cfg s l (s.pbuf p).totLen .ram mallocs = (m, some q)) (hok : (pbufCopy m q p).2 = .ok) :
    (pbufCoalesce cfg s p l mallocs).2 = q ∧ (pbufCoalesce cfg s p l mallocs).1.bytes q = s.bytes p := by
  have hp := h.exact.points p List.mem_cons_self
  have hc := h.coalescing hp hfresh hram halloc
  obtain ⟨n, hcopied, hall⟩ := hc.copied h hp
  have hafter := h.coalesce hfresh hram
  obtain ⟨r, hr⟩ := Option.ne_none_iff_exists'.mp hnext
  have heq : pbufCoalesce cfg s p l mallocs = ((pbufFree (pbufCopy m q p).1 p).1, q) := by
    unfold pbufCoalesce
    rw [hr]
    dsimp only
    rw [halloc]
  rw [heq] at hafter ⊢
  obtain ⟨data, hdata⟩ := pbufCopy_setData m q p
  have hinv := hc.inv.setData data
  rw [← hdata] at hinv
  have hp' : p ∈ (pbufCopy m q p).1.live := by
    rw [hdata]
    exact hc.keeps.live p hp
  have hnext' : (pbufFree (pbufCopy m q p).1 p).1.next q = none := by
    rw [hinv.free_next hp', Packets.next, hcopied.pbuf]
    exact hc.next
  have htext := hcopied.text
  rw [Packets.text_cons, Packets.text_nil, List.append_nil, List.take_of_length_le (hall hok), overwrite_zero] at htext
  refine ⟨rfl, ?_⟩
  rw [hafter.bytes_alone (hafter.exact.points q List.mem_cons_self) hnext', hinv.free_payload hp', htext]
  have hend : (m.text [q]).length ≤ (s.bytes p).length := by
    rw [Packets.text_cons, Packets.text_nil, List.append_nil, Packets.payload_length, hc.len, h.bytes_length hp]
  rw [List.drop_eq_nil_of_le hend, List.append_nil]

/-- The last of the pbufs is not empty. -/
def Packets.EndsFull (s : Packets) (ps : List Nat) : Prop := ∀ p ∈ ps.getLast?, 0 < (s.pbuf p).len

/-- An empty packet ends with an empty pbuf. -/
theorem Packets.not_endsFull {ps : List Nat} (hne : ps ≠ []) (hsum : (ps.map fun q => (s.pbuf q).len).sum = 0) :
    ¬s.EndsFull ps := by
  intro hfull
  have hlast := hfull (ps.getLast hne) (List.getLast?_eq_getLast_of_ne_nil hne)
  have hzero := List.sum_eq_zero_iff_forall_eq_nat.mp hsum _ (List.mem_map_of_mem (List.getLast_mem hne))
  omega

/-- Into one pbuf of the right length, the copy succeeds unless it meets what looks like the end of a packet before the
    end of the chain. -/
theorem pbufCopyLoop_ok : ∀ (fuel : Nat) {pFrom offsetTo : Nat} {froms : List Nat} {s : Packets},
    (∀ r ts, r :: ts <:+ froms → (s.pbuf r).totLen = ((r :: ts).map fun q => (s.pbuf q).len).sum) →
    offsetTo + ((pFrom :: froms).map fun q => (s.pbuf q).len).sum = (s.pbuf q).len → froms.length + 2 ≤ fuel →
    ((pbufCopyLoop fuel [q] offsetTo (pFrom :: froms) 0 s).2 = .ok ↔ s.EndsFull froms)
  | 0,        _,     _,        _,     _, _,      _,    hfuel => absurd hfuel (by omega)
  | fuel + 1, pFrom, offsetTo, froms, s, htotal, hsum, hfuel => by
      rw [List.map_cons, List.sum_cons] at hsum
      unfold pbufCopyLoop
      have hfits : (s.pbuf q).len - offsetTo ≥ (s.pbuf pFrom).len - 0 := by omega
      rw [if_pos hfits]
      dsimp only
      obtain ⟨s₁, hs₁⟩ : ∃ s₁, s₁ = s.store ((s.pbuf q).payload.plus offsetTo)
        (s.load ((s.pbuf pFrom).payload.plus 0) ((s.pbuf pFrom).len - 0)) := ⟨_, rfl⟩
      have hpbuf : s₁.pbuf = s.pbuf := by
        rw [hs₁]
        rfl
      have hdone : 0 + ((s.pbuf pFrom).len - 0) ≥ (s.pbuf pFrom).len := by omega
      rw [← hs₁, hpbuf, if_pos hdone]
      by_cases hend : offsetTo + ((s.pbuf pFrom).len - 0) = (s.pbuf q).len
      · -- nothing is left to copy
        have hzero : (froms.map fun q => (s.pbuf q).len).sum = 0 := by omega
        rw [if_pos hend]
        cases froms with
        | nil => exact ⟨fun _ p hp => absurd hp (Option.not_mem_none p), fun _ => rfl⟩
        | cons r ts =>
            refine ⟨fun hok => ?_, fun hfull => absurd hfull (Packets.not_endsFull (List.cons_ne_nil r ts) hzero)⟩
            simp [copyEnds] at hok
      · rw [if_neg hend]
        cases froms with
        | nil =>
            rw [List.map_nil, List.sum_nil] at hsum
            omega
        | cons r ts =>
            rw [List.map_cons, List.sum_cons] at hsum
            have hr := htotal r ts (List.suffix_refl _)
            rw [List.map_cons, List.sum_cons] at hr
            have hlast : ts ≠ [] → (s.EndsFull (r :: ts) ↔ s.EndsFull ts) := by
              intro hne
              unfold Packets.EndsFull
              rw [List.getLast?_cons_of_ne_nil hne]
            by_cases hqueue : (s.pbuf r).len = (s.pbuf r).totLen ∧ ts ≠ []
            · have hends : copyEnds s₁ [q] (r :: ts) = some .val := by simp [copyEnds, endsInQueue, hpbuf, hqueue]
              rw [hends]
              refine ⟨fun hok => absurd hok (by simp), fun hfull => ?_⟩
              exact absurd ((hlast hqueue.2).mp hfull) (Packets.not_endsFull hqueue.2 (by omega))
            · have hends : copyEnds s₁ [q] (r :: ts) = none := by simp [copyEnds, endsInQueue, hpbuf, hqueue]
              rw [hends]
              dsimp only
              have ih : (pbufCopyLoop fuel [q] (offsetTo + ((s.pbuf pFrom).len - 0)) (r :: ts) 0 s₁).2 = .ok ↔
                  s₁.EndsFull ts :=
                pbufCopyLoop_ok fuel
                  (fun x xs hx => by rw [hpbuf]; exact htotal x xs (hx.trans (List.suffix_cons r ts)))
                  (by rw [hpbuf, List.map_cons, List.sum_cons]; omega) (by simp only [List.length_cons] at hfuel; omega)
              rw [ih]
              unfold Packets.EndsFull at hlast ⊢
              rw [hpbuf]
              by_cases hnil : ts = []
              · rw [hnil] at hsum ⊢
                rw [List.map_nil, List.sum_nil] at hsum
                simp
                omega
              · exact (hlast hnil).symm

/-- The copy of `pbuf_coalesce` is complete exactly if the last pbuf of the packet is not empty. -/
theorem Coalescing.copy_ok {m : Packets} (hc : Coalescing cfg s m held p q) (h : PacketInv cfg s held) (hp : p ∈ s.live)
    (hnext : s.next p ≠ none) : (pbufCopy m q p).2 = .ok ↔ s.EndsFull (s.chain p) := by
  obtain ⟨hchain, -⟩ := hc.source h hp
  have hp' := hc.keeps.live p hp
  have hpbuf := hc.keeps.pbuf p hp
  obtain ⟨rest, hrest, hpath⟩ := (h.chained hp).some_inv
  have hrestNe : rest ≠ [] := by
    rintro rfl
    generalize s.next p = o at hpath hnext
    cases hpath
    exact hnext rfl
  have hsum := hc.inv.total_sum hp'
  have hmpath := hc.inv.chained hp'
  rw [hchain, hrest] at hsum hmpath
  -- the new pool has the same pbufs at the end of the packet
  have hfull : s.EndsFull (s.chain p) ↔ m.EndsFull rest := by
    unfold Packets.EndsFull
    rw [hrest, List.getLast?_cons_of_ne_nil hrestNe]
    refine forall₂_congr fun x hx => ?_
    have hxlive := h.chain_live hp x (by rw [hrest]; exact List.mem_cons_of_mem p (List.mem_of_getLast? hx))
    rw [hc.keeps.pbuf x hxlive]
  have hroom : (m.pbuf q).totLen ≥ (m.pbuf p).totLen := by
    rw [hc.total, hpbuf]
  rw [hfull, pbufCopy, if_pos hroom, hc.chain, hchain, hrest]
  refine pbufCopyLoop_ok _ (fun r ts hsuffix => ?_) (by rw [Nat.zero_add, hsum, hc.len, hpbuf])
    (by simp only [List.length_cons]; omega)
  obtain ⟨pre, hpre⟩ := hsuffix
  rw [← hpre, ← List.cons_append] at hmpath
  have hr := hc.inv.chain_live hp' r (by rw [hchain, hrest, ← hpre]; simp)
  rw [← hc.inv.total_sum hr, hc.inv.chain_eq hr hmpath.drop]

end

end ThirdParty.Lwip
