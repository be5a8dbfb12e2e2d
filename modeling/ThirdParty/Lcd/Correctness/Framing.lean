import ThirdParty.Lcd.Display

/-!
# `Lcd.Correctness.Framing` — the lines reach the panel

`sendLines_spec` follows the loop of `Display_sendPA` and the panel side by side: before each round the panel waits
for the pixels of the line that the round is going to send. It holds for every number of rounds, also for the
4294967295 rounds that the loop makes for `h = 0`.
-/

namespace ThirdParty.Lcd

open Lib

/-- **The lines are shown**: `h` lines are sent from exactly their bytes of the pixel array, and the panel writes each
    at its place and no others. -/
structure LinesShown (pa : Mem) (y h : Nat) (evs : List LcdEv) : Prop where
  reads     : pixelReads evs = List.range (16 * h)
  transfers : lineTransfers evs = h
  shown     : panelWrites evs = (List.range h).map fun k => (y + 1 + k, bytesAt pa (16 * k) 16)

/-! ## Commands -/

/-- The two bytes of a command with an address. -/
theorem sendCmd_eq {lo : Nat} (hlo : lo < 256) (x : Nat) :
    sendCmd (toU16 (lo ||| x <<< 8 : Nat)) = .spiTransmit .cmd [UInt8.ofNat lo, UInt8.ofNat x] := by
  have hor : lo ||| x <<< 8 = x * 256 + lo := by
    rw [Nat.or_comm, ← Nat.shiftLeft_add_eq_or_of_lt hlo, Nat.shiftLeft_eq]
  have hlow : (x * 256 + lo) % 65536 % 256 = lo := by omega
  have hhigh : UInt8.ofNat ((x * 256 + lo) % 65536 / 256) = UInt8.ofNat x := by
    apply UInt8.toNat_inj.mp
    rw [UInt8.toNat_ofNat', UInt8.toNat_ofNat']
    omega
  unfold sendCmd
  rw [hor, toU16_natCast, hlow, hhigh]

/-- The dummy byte and the next address: the width of the counter does not matter. -/
theorem sendCmd_next (n : Nat) :
    sendCmd (toU16 (0xFF ||| toU32 ((toU32 n <<< 8 : Nat)) : Nat)) = .spiTransmit .cmd [255, UInt8.ofNat n] := by
  have hshift : toU32 ((toU32 n <<< 8 : Nat)) = (toU32 n % 16777216) <<< 8 := by
    rw [Nat.shiftLeft_eq, Nat.shiftLeft_eq]
    unfold toU32
    omega
  have hbyte : UInt8.ofNat (toU32 n % 16777216) = UInt8.ofNat n := by
    apply UInt8.toNat_inj.mp
    rw [UInt8.toNat_ofNat', UInt8.toNat_ofNat']
    unfold toU32
    omega
  rw [hshift, sendCmd_eq (by decide), hbyte]
  rfl

/-! ## One line -/

/-- **The pixels of a line**: the panel collects them, and writes the line with the last one. -/
theorem byte_line (addr : Nat) : ∀ (data got : List Byte), data ≠ [] → got.length + data.length = width / 8 →
    transduce PanelState.byte (.line addr got) data = (.dummy, [(addr, got ++ data)]) := by
  intro data
  induction data with
  | nil => exact fun got h => absurd rfl h
  | cons b data ih =>
      intro got _ hlen
      rw [List.length_cons] at hlen
      cases data with
      | nil =>
          rw [List.length_nil] at hlen
          -- the last byte completes the line
          simp only [transduce, PanelState.byte]
          rw [if_pos (by omega)]
          rfl
      | cons b' data =>
          -- the line goes on
          have hnot : ¬got.length + 1 = width / 8 := by
            rw [List.length_cons] at hlen
            omega
          have hrest := ih (got ++ [b]) (List.cons_ne_nil b' data) (by
            rw [List.length_append, List.length_singleton]
            omega)
          rw [transduce]
          simp only [PanelState.byte, if_neg hnot]
          rw [hrest, List.append_assoc]
          rfl

theorem step_sendLine (pa : Mem) (addr p : Nat) :
    PanelState.step (.line addr []) (sendLine pa p) = (.dummy, [(addr, bytesAt pa p 16)]) := by
  have hlen := bytesAt_length pa p (width / 8)
  have hne : bytesAt pa p (width / 8) ≠ [] := List.ne_nil_of_length_pos (by rw [hlen]; decide)
  exact byte_line addr _ [] hne (by rw [hlen]; decide)

theorem step_next (n : Nat) :
    PanelState.step .dummy (sendCmd (toU16 (0xFF ||| toU32 ((toU32 n <<< 8 : Nat)) : Nat))) =
        (.line (n % 256) [], []) := by
  rw [sendCmd_next]
  show (PanelState.line (UInt8.ofNat n).toNat [], []) = _
  rw [UInt8.toNat_ofNat']

/-! ## The loop -/

theorem sendLines_done {pa : Mem} {y stop i p : Nat} (h : ¬i < stop) : sendLines pa y stop i p = ([], p) := by
  rw [sendLines, if_neg h]

theorem sendLines_next {pa : Mem} {y stop i p : Nat} (h : i < stop) :
    sendLines pa y stop i p =
      (sendLine pa p :: sendCmd (toU16 (0xFF ||| toU32 ((toU32 (y + i + 1 : Nat) <<< 8 : Nat)) : Nat)) ::
        (sendLines pa y stop (i + 1) (p + 16)).1, (sendLines pa y stop (i + 1) (p + 16)).2) := by
  rw [sendLines, if_pos h]
  rfl

/-- What a loop of `n` rounds from `i` on has done, with the lines from byte `p` on. -/
structure LinesSent (pa : Mem) (y n i p : Nat) (r : List LcdEv × Nat) : Prop where
  pointer   : r.2 = p + 16 * n
  reads     : pixelReads r.1 = List.range' p (16 * n)
  transfers : lineTransfers r.1 = n
  shown     : transduce PanelState.step (.line ((y + i) % 256) []) r.1 =
                (.line ((y + i + n) % 256) [],
                  (List.range n).map fun k => ((y + i + k) % 256, bytesAt pa (p + 16 * k) 16))

/-- **The loop**: the panel waits for the next line before each round, and afterwards for the one behind. -/
theorem sendLines_spec (pa : Mem) (y stop : Nat) : ∀ n i p : Nat, i + n = stop →
    LinesSent pa y n i p (sendLines pa y stop i p) := by
  intro n
  induction n with
  | zero =>
      intro i p hstop
      rw [sendLines_done (by omega)]
      exact ⟨rfl, rfl, rfl, rfl⟩
  | succ n ih =>
      intro i p hstop
      -- one round, and what the rest of the loop does from there
      obtain ⟨hpointer, hreads, htransfers, hshown⟩ := ih (i + 1) (p + 16) (by omega)
      rw [sendLines_next (by omega)]
      generalize sendLines pa y stop (i + 1) (p + 16) = r at hpointer hreads htransfers hshown
      refine ⟨?_, ?_, ?_, ?_⟩
      · rw [hpointer]
        omega
      · show List.range' p (bytesAt pa p (width / 8)).length ++ pixelReads r.1 = _
        rw [hreads, bytesAt_length, Nat.mul_succ, Nat.add_comm (16 * n) 16, ← List.range'_append_1]
        rfl
      · show lineTransfers (sendLine pa p :: _ :: r.1) = n + 1
        unfold lineTransfers at htransfers ⊢
        rw [List.countP_cons_of_pos (by rfl), List.countP_cons_of_neg (by exact Bool.false_ne_true), htransfers]
      · -- the line is written, and the command leads to the next address
        rw [transduce, step_sendLine]
        simp only
        rw [transduce, step_next]
        simp only
        rw [show y + i + 1 = y + (i + 1) from Nat.add_assoc y i 1, hshown, List.range_succ_eq_map, List.map_cons,
          List.map_map, Nat.mul_zero, Nat.add_zero, Nat.add_zero, List.nil_append]
        refine Prod.ext ?_ ?_
        · show PanelState.line _ [] = PanelState.line _ []
          congr 2
          omega
        · show _ :: _ = _ :: _
          congr 1
          apply List.map_congr_left
          intro k _
          show (_, _) = (_, _)
          congr 2 <;> simp only [Nat.succ_eq_add_one] <;> omega

/-! ## The whole transfer -/

theorem pixelReads_append (es es' : List LcdEv) : pixelReads (es ++ es') = pixelReads es ++ pixelReads es' :=
  List.flatMap_append

theorem lineTransfers_append (es es' : List LcdEv) : lineTransfers (es ++ es') = lineTransfers es + lineTransfers es' :=
  List.countP_append

/-- **How many lines are sent**: one more than the loop makes rounds. -/
theorem displaySendPA_transfers (pa : Mem) (y h : Nat) :
    lineTransfers (displaySendPA pa y h) = toU32 ((h : Int) - 1) + 1 := by
  obtain ⟨-, -, htransfers, -⟩ := sendLines_spec pa (toU8 (y + 1)) (toU32 ((h : Int) - 1)) _ 0 0 (Nat.zero_add _)
  unfold displaySendPA
  simp only
  generalize sendLines pa (toU8 (y + 1)) (toU32 ((h : Int) - 1)) 0 0 = r at htransfers
  rw [lineTransfers_append, lineTransfers_append, htransfers, Nat.add_comm (lineTransfers _), Nat.add_assoc]
  rfl

/-- **`Display_sendPA` shows the lines** if there are any. -/
theorem displaySendPA_shown (pa : Mem) {y n : Nat} (hy : y + (n + 1) ≤ 128) :
    LinesShown pa y (n + 1) (displaySendPA pa y (n + 1)) := by
  have hrounds : toU32 (((n + 1 : Nat) : Int) - 1) = n := by
    unfold toU32
    omega
  have hrow : toU8 ((y : Int) + 1) = y + 1 := by
    unfold toU8
    omega
  have htransfers := displaySendPA_transfers pa y (n + 1)
  rw [hrounds] at htransfers
  obtain ⟨hpointer, hreads, -, hshown⟩ := sendLines_spec pa (y + 1) n n 0 0 (Nat.zero_add n)
  refine ⟨?_, htransfers, ?_⟩
  · unfold displaySendPA
    simp only
    rw [hrounds, hrow]
    generalize sendLines pa (y + 1) n 0 0 = r at hpointer hreads
    rw [pixelReads_append, pixelReads_append, hreads, hpointer, List.range_eq_range', Nat.mul_succ,
      ← List.range'_append_1]
    show [] ++ _ ++ (List.range' _ (bytesAt pa _ (width / 8)).length ++ []) = _
    rw [bytesAt_length, List.nil_append, List.append_nil]
    rfl
  · unfold displaySendPA panelWrites
    simp only
    rw [hrounds, hrow, sendCmd_eq (by decide)]
    generalize sendLines pa (y + 1) n 0 0 = r at hpointer hshown
    rw [Nat.add_zero, Nat.mod_eq_of_lt (by omega : y + 1 < 256)] at hshown
    -- the command selects the first line
    have hfirst : transduce PanelState.step .deselected
        [.pinOutSet, .delay 6, .spiTransmit .cmd [UInt8.ofNat 0x01, UInt8.ofNat (y + 1)]] = (.line (y + 1) [], []) := by
      show (PanelState.line (UInt8.ofNat (y + 1)).toNat [], []) = _
      rw [UInt8.toNat_ofNat', Nat.mod_eq_of_lt (by omega)]
    -- the last line is sent like those before
    have hlast : ∀ addr, (transduce PanelState.step (.line addr [])
        [sendLine pa r.2, sendCmd 0xFFFF, .delay 2, .pinOutClear]).2 = [(addr, bytesAt pa r.2 16)] := by
      intro addr
      rw [transduce, step_sendLine]
      rfl
    rw [transduce_append, transduce_append, hfirst]
    simp only
    rw [hshown]
    simp only
    rw [hlast, hpointer, List.range_succ, List.map_append, List.nil_append]
    congr 1
    · apply List.map_congr_left
      intro k hk
      rw [List.mem_range] at hk
      rw [Nat.zero_add, Nat.mod_eq_of_lt (by omega)]
    · show [(_, _)] = [(_, _)]
      rw [Nat.zero_add, Nat.mod_eq_of_lt (by omega)]

/-- **When the lines are shown**: for every pixel array and every window of the display that is not empty. With
    `h = 0` the bound `h - 1` of the loop becomes 4294967295. -/
theorem lines_shown_iff (pa : Mem) {y h : Nat} (hwindow : y + h ≤ 128) :
    LinesShown pa y h (displaySendPA pa y h) ↔ 0 < h := by
  constructor
  · intro hshown
    by_contra hzero
    obtain rfl : h = 0 := by omega
    have htransfers := hshown.transfers
    rw [displaySendPA_transfers] at htransfers
    omega
  · intro hpos
    obtain ⟨n, rfl⟩ : ∃ n, h = n + 1 := ⟨h - 1, by omega⟩
    exact displaySendPA_shown pa hwindow

/-- A window of two lines at the bottom of the display. -/
theorem lines_shown_bottom : 126 + 2 ≤ 128 ∧ LinesShown UInt8.ofNat 126 2 (displaySendPA UInt8.ofNat 126 2) :=
  ⟨by decide, (lines_shown_iff UInt8.ofNat (by decide)).mpr (by decide)⟩

/-- For an empty window 4294967296 lines are sent. -/
theorem lines_empty_window : ¬LinesShown UInt8.ofNat 0 0 (displaySendPA UInt8.ofNat 0 0) := by
  intro hshown
  have htransfers := hshown.transfers
  rw [displaySendPA_transfers] at htransfers
  exact absurd htransfers (by decide)

end ThirdParty.Lcd
