import ThirdParty.Lib.Bytes
import ThirdParty.Lib.Transducer

/-!
# `Lcd.Display` — sending pixels to the LS013B7DH03 (`display_ls013b7dh03.c`), and the panel that receives them

`Display_sendPA` selects the panel, sends the update command with the address of the first line, and then the lines,
each followed by a dummy byte and the address of the next one. A call of the platform layer is an `LcdEv`. The panel
is a transducer of these events, which writes a line whenever all its pixels have arrived.
-/

namespace ThirdParty.Lcd

open Lib

/-- `LS013B7DH03_WIDTH`. -/
def width : Nat := 128

/-- Where `PAL_SpiTransmit` takes its bytes from: the variable `cmd`, or the pixel array from byte `off` on. -/
inductive SpiSource where
  | cmd
  | pixels (off : Nat)
  deriving DecidableEq, Repr

/-- The calls of the platform layer: the select pin set and cleared, a delay, and bytes sent on the SPI in the order
    of their addresses. -/
inductive LcdEv where
  | pinOutSet
  | pinOutClear
  | delay (us : Nat)
  | spiTransmit (src : SpiSource) (data : List Byte)
  deriving DecidableEq, Repr

/-- `PAL_SpiTransmit((uint8_t *)&cmd, 2)`: the low byte of the `uint16_t` lies first. -/
def sendCmd (cmd : Nat) : LcdEv := .spiTransmit .cmd [UInt8.ofNat (cmd % 256), UInt8.ofNat (cmd / 256)]

/-- `PAL_SpiTransmit((uint8_t *)p, LS013B7DH03_WIDTH/8)`. -/
def sendLine (pa : Mem) (p : Nat) : LcdEv := .spiTransmit (.pixels p) (bytesAt pa p (width / 8))

/-- `for (i = 0; i < h - 1; ++i)`, from `i` on, where `stop` is `h - 1` as the comparison with the `uint32_t` takes
    it; the result has the pointer behind the lines sent. -/
def sendLines (pa : Mem) (y stop i p : Nat) : List LcdEv × Nat :=
  if i < stop then
    let cmd := toU16 (0xFF ||| toU32 ((toU32 (y + i + 1) <<< 8 : Nat)) : Nat)
    let (rest, p') := sendLines pa y stop (i + 1) (p + width / 8)
    (sendLine pa p :: sendCmd cmd :: rest, p')
  else ([], p)
termination_by stop - i

/-- `Display_sendPA`. `h - 1` is an `int` that is converted for the comparison. -/
def displaySendPA (pa : Mem) (y h : Nat) : List LcdEv :=
  let y := toU8 (y + 1)
  let cmd := toU16 (0x01 ||| y <<< 8 : Nat)
  let (lines, p) := sendLines pa y (toU32 ((h : Int) - 1)) 0 0
  [.pinOutSet, .delay 6, sendCmd cmd] ++ lines ++
    [sendLine pa p, sendCmd 0xFFFF, .delay 2, .pinOutClear]

/-! ## The panel -/

/-- What the panel waits for. `ignored` is what follows a command that does not update lines. -/
inductive PanelState where
  | deselected
  | command
  | address
  | line (addr : Nat) (got : List Byte)
  | dummy
  | ignored

/-- The next byte; a line is written once all its pixels are there. -/
def PanelState.byte : PanelState → Byte → PanelState × List (Nat × List Byte)
  | .deselected,    _ => (.deselected, [])
  | .command,       b => (if b = 0x01 then .address else .ignored, [])
  | .address,       b => (.line b.toNat [], [])
  | .line addr got, b =>
      if got.length + 1 = width / 8 then (.dummy, [(addr, got ++ [b])]) else (.line addr (got ++ [b]), [])
  | .dummy,         _ => (.address, [])
  | .ignored,       _ => (.ignored, [])

def PanelState.step : PanelState → LcdEv → PanelState × List (Nat × List Byte)
  | _, .pinOutSet          => (.command, [])
  | _, .pinOutClear        => (.deselected, [])
  | s, .delay _            => (s, [])
  | s, .spiTransmit _ data => transduce PanelState.byte s data

/-- The lines that the panel writes, with their addresses. -/
def panelWrites (evs : List LcdEv) : List (Nat × List Byte) := (transduce PanelState.step .deselected evs).2

/-- The bytes of the pixel array that are read. -/
def pixelReads (evs : List LcdEv) : List Nat :=
  evs.flatMap fun e =>
    match e with
    | .spiTransmit (.pixels p) data => List.range' p data.length
    | _                             => []

/-- The number of lines that are sent. -/
def lineTransfers (evs : List LcdEv) : Nat :=
  evs.countP fun e =>
    match e with
    | .spiTransmit (.pixels _) _ => true
    | _                          => false

end ThirdParty.Lcd
