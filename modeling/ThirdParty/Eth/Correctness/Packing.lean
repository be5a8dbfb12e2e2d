import ThirdParty.Eth.Fifo

/-!
# `Eth.Correctness.Packing` — the words of a frame are its bytes

The gather register holds the one to three bytes that do not fill a word yet. `Gather.Packed g bs` says that the words
written so far and these bytes are `bs`; each of the three loops of `low_level_transmit` moves bytes of one pbuf from
the buffer to `bs`, so a whole chain ends up there in order, whatever the lengths are.
-/

namespace ThirdParty.Eth

open Lib

/-! ## The gather register -/

/-- The words in `ETH->DATA` and the gathered bytes are the bytes `bs`; the rest of the register is zero. -/
structure Gather.Packed (g : Gather) (bs : List Byte) : Prop where
  size  : g.bytes.length = 4
  index : g.i < 4
  bytes : wordsBytes g.data ++ g.bytes.take g.i = bs
  zero  : g.bytes.drop g.i = List.replicate (4 - g.i) 0
  words : ∀ w ∈ g.data, w < 4294967296

namespace Gather.Packed

variable {g : Gather} {bs : List Byte}

theorem start : Gather.Packed ⟨gatherZero, 0, []⟩ [] := ⟨rfl, by decide, rfl, rfl, by simp⟩

/-- A word that goes to the FIFO while the register is empty. -/
theorem word (h : g.Packed bs) (hi : g.i = 0) {ws : List Byte} (hws : ws.length = 4) :
    Gather.Packed { g with data := g.data ++ [leWord ws] } (bs ++ ws) := by
  obtain ⟨hsize, hindex, hbytes, hzero, hwords⟩ := h
  refine ⟨hsize, hindex, ?_, hzero, ?_⟩
  · show wordsBytes (g.data ++ [leWord ws]) ++ g.bytes.take g.i = bs ++ ws
    rw [hi, List.take_zero, List.append_nil] at hbytes ⊢
    rw [wordsBytes_append, wordsBytes_cons, wordsBytes_nil, List.append_nil, wordBytes_leWord hws, hbytes]
  · intro w hw
    rcases List.mem_append.mp hw with hw | hw
    · exact hwords w hw
    · rw [List.mem_singleton.mp hw]
      exact leWord_lt hws

/-- The bytes up to the index after a byte is put there. -/
theorem take_put (h : g.Packed bs) (b : Byte) :
    (g.bytes.set g.i b).take (g.i + 1) = g.bytes.take g.i ++ [b] := by
  have hlt : g.i < g.bytes.length := by rw [h.size]; exact h.index
  rw [List.take_add_one, List.take_set_of_le (Nat.le_refl _), List.getElem?_set_self hlt]
  rfl

/-- A byte for the register that does not fill it. -/
theorem put (h : g.Packed bs) (hi : g.i < 3) (b : Byte) : (g.put b).Packed (bs ++ [b]) ∧ (g.put b).i = g.i + 1 := by
  have hnext : (g.i + 1) % 4 = g.i + 1 := by omega
  refine ⟨⟨?_, ?_, ?_, ?_, h.words⟩, hnext⟩
  · show (g.bytes.set g.i b).length = 4
    rw [List.length_set, h.size]
  · show (g.i + 1) % 4 < 4
    omega
  · show wordsBytes g.data ++ (g.bytes.set g.i b).take ((g.i + 1) % 4) = bs ++ [b]
    rw [hnext, h.take_put, ← List.append_assoc, h.bytes]
  · show (g.bytes.set g.i b).drop ((g.i + 1) % 4) = List.replicate (4 - (g.i + 1) % 4) 0
    rw [hnext, List.drop_set_of_lt (Nat.lt_succ_self _), ← List.tail_drop, h.zero, List.tail_replicate]
    congr 1

/-- The byte that fills the register, with the word then written. -/
theorem put_last (h : g.Packed bs) (hi : g.i = 3) (b : Byte) :
    (g.put b).write.Packed (bs ++ [b]) ∧ (g.put b).i = 0 := by
  have hnext : (g.i + 1) % 4 = 0 := by omega
  have hlen : (g.bytes.set g.i b).length = 4 := by rw [List.length_set, h.size]
  have hfull : g.bytes.set g.i b = g.bytes.take g.i ++ [b] := by
    rw [← h.take_put b, List.take_of_length_le (by omega)]
  refine ⟨⟨rfl, ?_, ?_, ?_, ?_⟩, hnext⟩
  · show (g.i + 1) % 4 < 4
    omega
  · show wordsBytes (g.data ++ [leWord (g.bytes.set g.i b)]) ++ gatherZero.take ((g.i + 1) % 4) = bs ++ [b]
    rw [hnext, List.take_zero, List.append_nil, wordsBytes_append, wordsBytes_cons, wordsBytes_nil, List.append_nil,
      wordBytes_leWord hlen, hfull, ← List.append_assoc, h.bytes]
  · show gatherZero.drop ((g.i + 1) % 4) = List.replicate (4 - (g.i + 1) % 4) 0
    rw [hnext]
    rfl
  · intro w hw
    rcases List.mem_append.mp hw with hw | hw
    · exact h.words w hw
    · rw [List.mem_singleton.mp hw]
      exact leWord_lt hlen

end Gather.Packed

/-! ## The three loops over one pbuf -/

variable {buf bs : List Byte}

theorem take_succ_getD {k : Nat} (h : k < buf.length) : buf.take (k + 1) = buf.take k ++ [buf.getD k 0] := by
  rw [List.take_add_one, List.getD_eq_getElem?_getD, List.getElem?_eq_getElem h]
  rfl

/-- The bytes that the first loop takes either leave the register partly filled, and then the buffer is used up, or
    fill it. -/
theorem fillGather_spec (fuel : Nat) {k : Nat} {g : Gather} (hg : g.Packed (bs ++ buf.take k)) (hi : g.i ≠ 0)
    (hk : k ≤ buf.length) (hfuel : buf.length ≤ k + fuel) :
    ∃ k₁ g₁, fillGather buf fuel k g = (k₁, g₁) ∧ k ≤ k₁ ∧ k₁ ≤ buf.length ∧
      ((g₁.i ≠ 0 ∧ k₁ = buf.length ∧ g₁.Packed (bs ++ buf.take k₁)) ∨
        (g₁.i = 0 ∧ 0 < k₁ ∧ g₁.write.Packed (bs ++ buf.take k₁))) := by
  induction fuel generalizing k g with
  | zero =>
      refine ⟨k, g, rfl, Nat.le_refl k, hk, .inl ⟨hi, by omega, hg⟩⟩
  | succ fuel ih =>
      rw [fillGather]
      by_cases hlt : k < buf.length
      · rw [if_pos ⟨hlt, hi⟩]
        have htake : bs ++ buf.take (k + 1) = (bs ++ buf.take k) ++ [buf.getD k 0] := by
          rw [take_succ_getD hlt, List.append_assoc]
        by_cases h3 : g.i = 3
        · -- the register is full: the loop ends here
          obtain ⟨hput, hzero⟩ := hg.put_last h3 (buf.getD k 0)
          refine ⟨k + 1, g.put (buf.getD k 0), ?_, by omega, by omega, .inr ⟨hzero, Nat.succ_pos k, ?_⟩⟩
          · cases fuel with
            | zero => rw [fillGather]
            | succ fuel => rw [fillGather, if_neg (fun h => h.2 hzero)]
          · rw [htake]
            exact hput
        · obtain ⟨hput, hnext⟩ := hg.put (by have := hg.index; omega) (buf.getD k 0)
          rw [← htake] at hput
          obtain ⟨k₁, g₁, heq, hle, hend⟩ := ih hput (by omega) (by omega) (by omega)
          exact ⟨k₁, g₁, heq, by omega, hend⟩
      · rw [if_neg (fun h => hlt h.1)]
        exact ⟨k, g, rfl, Nat.le_refl k, hk, .inl ⟨hi, by omega, hg⟩⟩

/-- The second loop moves whole words past the empty register. -/
theorem copyWords_spec (fuel : Nat) {k : Nat} {g : Gather} (hg : g.Packed (bs ++ buf.take k)) (hi : g.i = 0)
    (hk : k ≤ buf.length) (hfuel : buf.length ≤ k + fuel) :
    ∃ k₁ g₁, copyWords buf fuel k g = (k₁, g₁) ∧ k₁ ≤ buf.length ∧ buf.length < k₁ + 4 ∧ g₁.i = 0 ∧
      g₁.Packed (bs ++ buf.take k₁) := by
  induction fuel generalizing k g with
  | zero =>
      exact ⟨k, g, rfl, hk, by omega, hi, hg⟩
  | succ fuel ih =>
      rw [copyWords]
      by_cases hle : k + 4 ≤ buf.length
      · rw [if_pos hle]
        have hlen : ((buf.drop k).take 4).length = 4 := by
          rw [List.length_take, List.length_drop]
          omega
        have hword := hg.word hi hlen
        rw [List.append_assoc, ← List.take_add] at hword
        exact ih hword hi hle (by omega)
      · rw [if_neg hle]
        exact ⟨k, g, rfl, hk, by omega, hi, hg⟩

/-- The third loop saves what is left, less than the register holds. -/
theorem saveRest_spec (fuel : Nat) {k : Nat} {g : Gather} (hg : g.Packed (bs ++ buf.take k))
    (hroom : g.i + (buf.length - k) < 4) (hfuel : buf.length ≤ k + fuel) :
    (saveRest buf fuel k g).Packed (bs ++ buf) := by
  induction fuel generalizing k g with
  | zero =>
      rw [List.take_of_length_le (by omega)] at hg
      exact hg
  | succ fuel ih =>
      rw [saveRest]
      by_cases hlt : k < buf.length
      · rw [if_pos hlt]
        obtain ⟨hput, hnext⟩ := hg.put (by omega) (buf.getD k 0)
        rw [List.append_assoc, ← take_succ_getD hlt] at hput
        exact ih hput (by omega) (by omega)
      · rw [if_neg hlt]
        rw [List.take_of_length_le (by omega)] at hg
        exact hg

/-- A buffer that is used up has nothing for the second loop. -/
theorem copyWords_done (fuel : Nat) {k : Nat} {g : Gather} (hk : buf.length < k + 4) :
    copyWords buf fuel k g = (k, g) := by
  cases fuel with
  | zero => rfl
  | succ fuel => rw [copyWords, if_neg (by omega)]

/-! ## A pbuf, a chain, a frame -/

/-- One pbuf adds its payload. -/
theorem packPbuf_spec {g : Gather} (hg : g.Packed bs) : (packPbuf g buf).Packed (bs ++ buf) := by
  have hstart : g.Packed (bs ++ buf.take 0) := by rw [List.take_zero, List.append_nil]; exact hg
  by_cases hi : g.i = 0
  · -- nothing is left over: the first loop and the write do nothing
    have hfill : fillGather buf buf.length 0 g = (0, g) := by
      cases buf.length with
      | zero => rfl
      | succ n => rw [fillGather, if_neg (fun h => h.2 hi)]
    obtain ⟨k, g₁, hcopy, hk, hrest, hi₁, hg₁⟩ := copyWords_spec buf.length hstart hi (Nat.zero_le _) (by omega)
    have hpack : packPbuf g buf = saveRest buf buf.length k g₁ := by
      simp only [packPbuf, hfill, ne_eq, not_true_eq_false, and_false, if_false, hcopy]
    rw [hpack]
    exact saveRest_spec buf.length hg₁ (by omega) (by omega)
  · obtain ⟨k, g₁, hfill, -, hk, hend⟩ := fillGather_spec buf.length hstart hi (Nat.zero_le _) (by omega)
    rcases hend with ⟨hi₁, hk', hg₁⟩ | ⟨hi₁, hpos, hg₁⟩
    · -- the buffer ends before the register is full
      have hpack : packPbuf g buf = saveRest buf buf.length k g₁ := by
        have hdone : copyWords buf buf.length k g₁ = (k, g₁) := copyWords_done buf.length (by omega)
        simp only [packPbuf, hfill, hi₁, false_and, if_false, hdone]
      rw [hpack]
      refine saveRest_spec buf.length hg₁ ?_ (by omega)
      have := hg₁.index
      omega
    · obtain ⟨k₂, g₂, hcopy, hk₂, hrest, hi₂, hg₂⟩ := copyWords_spec buf.length hg₁ hi₁ hk (by omega)
      have hpack : packPbuf g buf = saveRest buf buf.length k₂ g₂ := by
        simp only [packPbuf, hfill, hi₁, true_and, ne_eq, Nat.pos_iff_ne_zero.mp hpos, not_false_eq_true, if_true,
          hcopy]
      rw [hpack]
      exact saveRest_spec buf.length hg₂ (by omega) (by omega)

/-- A chain adds its payloads, in order. -/
theorem packChain_spec (chain : List (List Byte)) {g : Gather} (hg : g.Packed bs) :
    (chain.foldl packPbuf g).Packed (bs ++ chain.flatten) := by
  induction chain generalizing g bs with
  | nil =>
      rw [List.flatten_nil, List.append_nil]
      exact hg
  | cons buf chain ih =>
      rw [List.foldl_cons, List.flatten_cons, ← List.append_assoc]
      exact ih (packPbuf_spec hg)

/-- The last word completes the bytes with zeros, one word at least. -/
theorem Gather.Packed.flush {g : Gather} (hg : g.Packed bs) :
    wordsBytes (g.data ++ [leWord g.bytes]) = bs ++ List.replicate (4 * (bs.length / 4 + 1) - bs.length) 0 ∧
      (g.data ++ [leWord g.bytes]).length = bs.length / 4 + 1 := by
  obtain ⟨hsize, hindex, hbytes, hzero, -⟩ := hg
  have hlen : 4 * g.data.length + g.i = bs.length := by
    rw [← hbytes, List.length_append, wordsBytes_length, List.length_take, hsize]
    omega
  have hpad : 4 - g.i = 4 * (bs.length / 4 + 1) - bs.length := by omega
  refine ⟨?_, ?_⟩
  · rw [wordsBytes_append, wordsBytes_cons, wordsBytes_nil, List.append_nil, wordBytes_leWord hsize, ← hpad, ← hzero,
      ← hbytes, List.append_assoc, List.take_append_drop]
  · rw [List.length_append, List.length_singleton]
    omega

/-- The length in the first payload, for a pbuf that has room for it. -/
theorem putLength_eq {totLen : Nat} (hbuf : 2 ≤ buf.length) (h16 : 16 ≤ totLen) (hlt : totLen < 65536) :
    putLength totLen buf = [UInt8.ofNat (totLen - 16), UInt8.ofNat ((totLen - 16) / 256)] ++ buf.drop 2 := by
  have hsub : toU16 ((totLen : Int) - 16) = totLen - 16 := toU16_sub h16 hlt
  cases buf with
  | nil => exact absurd hbuf (by simp)
  | cons a buf =>
      cases buf with
      | nil => exact absurd hbuf (by simp)
      | cons b buf =>
          simp only [putLength, hsub]
          rfl

/-- **The FIFO gets the frame**: for a chain of any shape, `low_level_transmit` writes `tot_len / 4 + 1` words before it
    sets NEWTX; their bytes are the length that the MAC expects, the payloads without their first two bytes, and
    zeros. Only those two bytes of the chain change. -/
theorem transmitFrame_packs {totLen : Nat} {buf : List Byte} {chain : List (List Byte)} (hbuf : 2 ≤ buf.length)
    (htot : totLen = ((buf :: chain).map List.length).sum) (h16 : 16 ≤ totLen) (hlt : totLen < 65536) :
    ∃ ws, (transmitFrame totLen (buf :: chain)).1 = ws.map .data ++ [.newtx] ∧
      ws.length = totLen / 4 + 1 ∧ (∀ w ∈ ws, w < 4294967296) ∧
      wordsBytes ws = [UInt8.ofNat (totLen - 16), UInt8.ofNat ((totLen - 16) / 256)] ++
        (buf :: chain).flatten.drop 2 ++ List.replicate (4 * (totLen / 4 + 1) - totLen) 0 ∧
      (transmitFrame totLen (buf :: chain)).2 =
        ([UInt8.ofNat (totLen - 16), UInt8.ofNat ((totLen - 16) / 256)] ++ buf.drop 2) :: chain := by
  have hput := putLength_eq hbuf h16 hlt
  have hchain : withLength totLen (buf :: chain) =
      ([UInt8.ofNat (totLen - 16), UInt8.ofNat ((totLen - 16) / 256)] ++ buf.drop 2) :: chain := by
    rw [withLength, hput]
  -- the bytes to send, and how many they are
  have hflat : (withLength totLen (buf :: chain)).flatten =
      [UInt8.ofNat (totLen - 16), UInt8.ofNat ((totLen - 16) / 256)] ++ (buf :: chain).flatten.drop 2 := by
    rw [hchain, List.flatten_cons, List.flatten_cons, List.drop_append_of_le_length hbuf, List.append_assoc]
  have hlen : (withLength totLen (buf :: chain)).flatten.length = totLen := by
    have hsum : (buf :: chain).flatten.length = totLen := by rw [List.length_flatten, htot]
    have hfirst : buf.length ≤ (buf :: chain).flatten.length := by
      rw [List.flatten_cons, List.length_append]
      omega
    rw [hflat, List.length_append, List.length_drop, hsum]
    show 2 + (totLen - 2) = totLen
    omega
  have hpacked := packChain_spec (withLength totLen (buf :: chain)) Gather.Packed.start
  rw [List.nil_append] at hpacked
  obtain ⟨hbytes, hwords⟩ := hpacked.flush
  rw [hlen] at hbytes hwords
  refine ⟨_, rfl, hwords, ?_, ?_, hchain⟩
  · intro w hw
    rcases List.mem_append.mp hw with hw | hw
    · exact hpacked.words w hw
    · rw [List.mem_singleton.mp hw]
      exact leWord_lt hpacked.size
  · rw [hbytes, hflat]

/-- A frame of 18 bytes in four pbufs, one of them empty, whose boundaries lie inside words. -/
theorem transmitFrame_packs_split :
    ∃ ws, (transmitFrame 18 [[0, 0, 1, 2, 3], [], [4], [5, 6, 7, 8, 9, 10, 11, 12, 13, 14, 15, 16]]).1 =
        ws.map .data ++ [.newtx] ∧
      ws.length = 5 ∧ wordsBytes ws = [2, 0, 1, 2, 3, 4, 5, 6, 7, 8, 9, 10, 11, 12, 13, 14, 15, 16, 0, 0] := by
  obtain ⟨ws, hdata, hlen, -, hbytes, -⟩ :=
    @transmitFrame_packs 18 [0, 0, 1, 2, 3] [[], [4], [5, 6, 7, 8, 9, 10, 11, 12, 13, 14, 15, 16]] (by decide)
      (by decide) (by decide) (by decide)
  exact ⟨ws, hdata, hlen, by rw [hbytes]; decide⟩

end ThirdParty.Eth
