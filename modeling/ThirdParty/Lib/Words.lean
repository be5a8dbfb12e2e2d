import ThirdParty.Lib.Bytes

/-!
# `Lib.Words` — 32-bit words as little-endian bytes

A word is a `Nat`. `wordBytes` is how it lies in memory and `leWord` how four bytes are read as one; the bytes of a
list of words are its words' bytes one after the other.
-/

namespace ThirdParty.Lib

/-- The word read from bytes in memory. -/
def leWord (bs : List Byte) : Nat := bs.foldr (fun b w => b.toNat + 256 * w) 0

/-- A word in memory. -/
def wordBytes (w : Nat) : List Byte :=
  [UInt8.ofNat w, UInt8.ofNat (w / 256), UInt8.ofNat (w / 65536), UInt8.ofNat (w / 16777216)]

/-- The bytes of a list of words. -/
def wordsBytes (ws : List Nat) : List Byte := ws.flatMap wordBytes

@[simp] theorem wordBytes_length (w : Nat) : (wordBytes w).length = 4 := rfl

/-- Four bytes that are read as a word and written back are the same. -/
theorem wordBytes_leWord {bs : List Byte} (h : bs.length = 4) : wordBytes (leWord bs) = bs := by
  obtain ⟨a, b, c, d, rfl⟩ := List.length_eq_four.mp h
  have ha := a.toNat_lt
  have hb := b.toNat_lt
  have hc := c.toNat_lt
  have hd := d.toNat_lt
  have hbyte : ∀ (x : Byte) (w : Nat), w % 256 = x.toNat → UInt8.ofNat w = x := by
    intro x w hw
    apply UInt8.toNat_inj.mp
    rw [UInt8.toNat_ofNat']
    exact hw
  simp only [wordBytes, leWord, List.foldr_cons, List.foldr_nil]
  rw [hbyte a _ (by omega), hbyte b _ (by omega), hbyte c _ (by omega), hbyte d _ (by omega)]

/-- Four bytes make a word of 32 bits. -/
theorem leWord_lt {bs : List Byte} (h : bs.length = 4) : leWord bs < 4294967296 := by
  obtain ⟨a, b, c, d, rfl⟩ := List.length_eq_four.mp h
  have ha := a.toNat_lt
  have hb := b.toNat_lt
  have hc := c.toNat_lt
  have hd := d.toNat_lt
  simp only [leWord, List.foldr_cons, List.foldr_nil]
  omega

@[simp] theorem wordsBytes_nil : wordsBytes [] = [] := rfl

@[simp] theorem wordsBytes_cons (w : Nat) (ws : List Nat) : wordsBytes (w :: ws) = wordBytes w ++ wordsBytes ws := rfl

@[simp] theorem wordsBytes_append (ws vs : List Nat) : wordsBytes (ws ++ vs) = wordsBytes ws ++ wordsBytes vs :=
  List.flatMap_append

theorem wordsBytes_length (ws : List Nat) : (wordsBytes ws).length = 4 * ws.length := by
  induction ws with
  | nil => rfl
  | cons w ws ih => rw [wordsBytes_cons, List.length_append, ih, wordBytes_length, List.length_cons]; omega

/-- The `n` words of a stream from position `pos` on. -/
def wordsAt (data : Nat → Nat) (pos n : Nat) : List Nat := (List.range n).map fun k => data (pos + k)

@[simp] theorem wordsAt_length (data : Nat → Nat) (pos n : Nat) : (wordsAt data pos n).length = n := by
  rw [wordsAt, List.length_map, List.length_range]

@[simp] theorem wordsAt_zero (data : Nat → Nat) (pos : Nat) : wordsAt data pos 0 = [] := rfl

theorem wordsAt_add (data : Nat → Nat) (pos k n : Nat) :
    wordsAt data pos (k + n) = wordsAt data pos k ++ wordsAt data (pos + k) n := by
  simp only [wordsAt, List.range_add, List.map_append, List.map_map]
  congr 1
  apply List.map_congr_left
  intro i _
  simp [Nat.add_assoc]

theorem wordsAt_succ (data : Nat → Nat) (pos n : Nat) :
    wordsAt data pos (n + 1) = data pos :: wordsAt data (pos + 1) n := by
  rw [Nat.add_comm n 1, wordsAt_add]
  rfl

/-- A stream that holds a list of words at `pos`. -/
theorem wordsAt_eq {data : Nat → Nat} {pos : Nat} {ws : List Nat}
    (h : ∀ k (hk : k < ws.length), data (pos + k) = ws[k]) :
    wordsAt data pos ws.length = ws := by
  apply List.ext_getElem (wordsAt_length ..)
  intro k hk hk'
  rw [← h k hk']
  simp [wordsAt]

end ThirdParty.Lib
