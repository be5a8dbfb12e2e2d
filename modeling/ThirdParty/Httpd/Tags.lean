import ThirdParty.Httpd.State

/-!
# `Httpd.Tags` — the SSI tag parser and `get_tag_insert` (`httpd.c`)

The character-consuming arms of the state machine in `send_data`, one definition an arm. `used` says whether
the arm moved on to the next character, `hit` that the closing `>` of a tag was just read.
-/

namespace ThirdParty.Httpd

open Lib Lwip

/-- `g_pcTagLeadIn`, `LEN_TAG_LEAD_IN`. -/
def tagLeadIn : List Byte := lit "<!--#"
def lenTagLeadIn : Nat := 5

/-- `g_pcTagLeadOut`, `LEN_TAG_LEAD_OUT`. -/
def tagLeadOut : List Byte := lit "-->"
def lenTagLeadOut : Nat := 3

/-- `' '`, `'\t'`, `'\n'` or `'\r'`. -/
def isTagSpace (ch : Byte) : Bool := ch = 32 || ch = 9 || ch = 10 || ch = 13

/-- `case TAG_NONE`. -/
def tagNone (t : TagScan) (ch : Byte) : TagScan :=
  if ch = tagLeadIn.getD 0 0 then { t with state := .leadin, index := 1 } else t

/-- `case TAG_LEADIN`. The end of the lead-in is noticed one round late, on the character after it. -/
def tagLeadin (t : TagScan) (ch : Byte) : TagScan × Bool :=
  if t.index = lenTagLeadIn then ({ t with index := 0, state := .found }, false)
  else if ch = tagLeadIn.getD t.index 0 then ({ t with index := toU8 (t.index + 1) }, true)
  else ({ t with state := .none }, true)

/-- `case TAG_FOUND`. -/
def tagFound (cfg : Config) (t : TagScan) (ch : Byte) : TagScan :=
  if t.index = 0 ∧ isTagSpace ch then t
  else if ch = tagLeadOut.getD 0 0 ∨ isTagSpace ch then
    if t.index = 0 then { t with state := .none }
    else { t with
      state := .leadout, nameLen := t.index, name := t.name.set t.index 0
      index := if ch = tagLeadOut.getD 0 0 then 1 else 0 }
  else if t.index < cfg.maxTagNameLen then
    { t with name := t.name.set t.index ch, index := toU8 (t.index + 1) }
  else { t with state := .none }

/-- `case TAG_LEADOUT`, up to the call of `get_tag_insert`. -/
def tagLeadout (t : TagScan) (ch : Byte) : TagScan × Bool :=
  if t.index = 0 ∧ isTagSpace ch then (t, false)
  else if ch = tagLeadOut.getD t.index 0 then
    if t.index = lenTagLeadOut - 1 then (t, true) else ({ t with index := toU8 (t.index + 1) }, false)
  else ({ t with state := .none }, false)

/-! ## `get_tag_insert` -/

/-- The text echoed for a tag without a handler, as cut by `snprintf`. -/
def unknownTagText (cfg : Config) (name : List Byte) : List Byte :=
  (lit "<b>***UNKNOWN TAG " ++ name ++ lit "***</b>").take cfg.maxTagInsertLen

/-- Overwrites the start of a buffer. -/
def overlay (text : List Byte) (buf : Nat → Byte) : Nat → Byte := fun i => (text[i]?).getD (buf i)

/-- The index of the tag in the registered table. -/
def findTag (cfg : Config) (name : List Byte) : Option Nat :=
  cfg.ssiTags.bind fun tags => tags.findIdx? fun tag => decide (name = tag)

/-- The content of `tag_insert` and the `int` length that `get_tag_insert` is about to store; `k` handler
    calls were made before. The flag says whether the handler was called. -/
def tagInsertText (cfg : Config) (insert : Nat → Nat → InsertReply) (t : TagScan) (k : Nat) :
    (Nat → Byte) × Int × Bool :=
  match findTag cfg (cstr t.name) with
  | some i => (overlay (insert k i).text t.insert, (insert k i).ret, true)
  | none   =>
      let text := unknownTagText cfg (cstr t.name)
      (overlay (text ++ [0]) t.insert, text.length, false)

/-- `get_tag_insert`: the length goes into the `u8_t` field `tag_insert_len`. -/
def getTagInsert (cfg : Config) (insert : Nat → Nat → InsertReply) (t : TagScan) (k : Nat) : TagScan × Nat :=
  let (buf, len, called) := tagInsertText cfg insert t k
  ({ t with insert := buf, insertLen := toU8 len }, if called then k + 1 else k)

end ThirdParty.Httpd
