import ThirdParty.Lib.Trace
import ThirdParty.Lib.Transducer
import ThirdParty.Httpd.Tags

/-!
# `Httpd.Reference` — what a file with tags should be sent as

The reference output of a file is produced by one uninterrupted pass of the tag parser over it: a transducer
that emits every byte of the file and, right after the closing `>` of a tag, the insert obtained for it. It
knows neither buffers nor `tcp_write`.

The parser notices two things late: the end of the lead-in on the character after it, and the end of an insert
when the loop comes back to it. `settle` catches up with both.
-/

namespace ThirdParty.Httpd

open Lib Lwip

/-- The parser state once it has noticed what it already knows. -/
def settle (t : TagScan) : TagScan :=
  match t.state with
  | .leadin  => if t.index = lenTagLeadIn then { t with index := 0, state := .found } else t
  | .sending => { t with index := 0, state := .none }
  | _        => t

/-- The bytes of an insert: the start of `tag_insert`, `cut len` bytes long when the length obtained is `len`. -/
def insertBytes (cfg : Config) (insert : Nat → Nat → InsertReply) (cut : Int → Nat) (t : TagScan) (k : Nat) :
    List Byte :=
  let (buf, len, _) := tagInsertText cfg insert t k
  bytesAt buf 0 (cut len)

/-- One byte of the file. The state holds the number of handler calls made so far next to the parser state. -/
def scanByte (cfg : Config) (insert : Nat → Nat → InsertReply) (cut : Int → Nat) (q : TagScan × Nat) (ch : Byte) :
    (TagScan × Nat) × List Byte :=
  let t := settle q.1
  match t.state with
  | .none    => ((tagNone t ch, q.2), [ch])
  | .leadin  => (((tagLeadin t ch).1, q.2), [ch])
  | .found   => ((tagFound cfg t ch, q.2), [ch])
  | .leadout =>
      let (t, hit) := tagLeadout t ch
      if hit then
        let (t', k) := getTagInsert cfg insert t q.2
        (({ t' with index := 0, state := .sending }, k), ch :: insertBytes cfg insert cut t q.2)
      else ((t, q.2), [ch])
  | .sending => ((t, q.2), [ch])

/-- **The reference output** of a file, inserts at the length the handler returned. -/
def refOutput (cfg : Config) (insert : Nat → Nat → InsertReply) (q : TagScan × Nat) (file : List Byte) : List Byte :=
  (transduce (scanByte cfg insert Int.toNat) q file).2

/-- The same pass with every length stored in the `u8_t` field `tag_insert_len`. -/
def narrowOutput (cfg : Config) (insert : Nat → Nat → InsertReply) (q : TagScan × Nat) (file : List Byte) :
    List Byte :=
  (transduce (scanByte cfg insert toU8) q file).2

/-- The parser state after the file. -/
def scanState (cfg : Config) (insert : Nat → Nat → InsertReply) (q : TagScan × Nat) (file : List Byte) :
    TagScan × Nat :=
  (transduce (scanByte cfg insert toU8) q file).1

/-! ## The two conditions -/

/-- If this byte closes a tag, the length obtained for the insert fits into a `u8_t`. -/
def InsertFits (cfg : Config) (insert : Nat → Nat → InsertReply) (q : TagScan × Nat) (ch : Byte) : Prop :=
  (settle q.1).state = .leadout → (tagLeadout (settle q.1) ch).2 = true →
    (tagInsertText cfg insert (tagLeadout (settle q.1) ch).1 q.2).2.1 < 256

/-- Every insert of the file is shorter than 256 bytes. -/
def InsertsFit (cfg : Config) (insert : Nat → Nat → InsertReply) (q : TagScan × Nat) (file : List Byte) : Prop :=
  AtEach (fun past ch => InsertFits cfg insert (scanState cfg insert q past) ch) file

/-- The last byte of the file closes a tag whose insert is not empty. -/
def EndsInInsert (cfg : Config) (insert : Nat → Nat → InsertReply) (q : TagScan × Nat) (file : List Byte) : Prop :=
  (scanState cfg insert q file).1.state = .sending ∧ (scanState cfg insert q file).1.insertLen ≠ 0

instance (cfg : Config) (insert : Nat → Nat → InsertReply) (q : TagScan × Nat) (file : List Byte) :
    Decidable (EndsInInsert cfg insert q file) := by
  unfold EndsInInsert
  infer_instance

/-! ## The reference and its narrowed version -/

theorem scanByte_state (cfg : Config) (insert : Nat → Nat → InsertReply) (cut cut' : Int → Nat)
    (q : TagScan × Nat) (ch : Byte) : (scanByte cfg insert cut q ch).1 = (scanByte cfg insert cut' q ch).1 := by
  unfold scanByte
  simp only
  split
  · rfl
  · rfl
  · rfl
  · split <;> rfl
  · rfl

/-- Handlers return a length between zero and `MAX_TAG_INSERT_LEN`. -/
def HandlerInRange (cfg : Config) (insert : Nat → Nat → InsertReply) : Prop :=
  ∀ k i, 0 ≤ (insert k i).ret ∧ (insert k i).ret ≤ cfg.maxTagInsertLen

theorem tagInsertText_nonneg {cfg : Config} {insert : Nat → Nat → InsertReply} (h : HandlerInRange cfg insert)
    (t : TagScan) (k : Nat) : 0 ≤ (tagInsertText cfg insert t k).2.1 := by
  unfold tagInsertText
  split
  · exact (h _ _).1
  · exact Int.natCast_nonneg _

/-- No insert is longer than `MAX_TAG_INSERT_LEN`, so all fit while that fits into a `u8_t`. -/
theorem insertsFit_of_small {cfg : Config} {insert : Nat → Nat → InsertReply} (h : HandlerInRange cfg insert)
    (hsmall : cfg.maxTagInsertLen < 256) (q : TagScan × Nat) (file : List Byte) :
    InsertsFit cfg insert q file := by
  have hlen : ∀ t k, (tagInsertText cfg insert t k).2.1 ≤ cfg.maxTagInsertLen := by
    intro t k
    unfold tagInsertText
    split
    · exact (h _ _).2
    · simp only [unknownTagText, List.length_take]
      omega
  refine atEach_of_forall fun past ch _ _ _ => ?_
  have := hlen (tagLeadout (settle (scanState cfg insert q past).1) ch).1 (scanState cfg insert q past).2
  omega

theorem toU8_le_toNat {len : Int} (h : 0 ≤ len) : toU8 len ≤ len.toNat := by unfold toU8; omega

theorem toU8_eq_toNat_iff {len : Int} (h : 0 ≤ len) : toU8 len = len.toNat ↔ len < 256 := by
  unfold toU8; omega

/-- On one byte: the narrowed output is as long as the reference exactly if the insert fits, and then they are
    the same. -/
theorem scanByte_narrow {cfg : Config} {insert : Nat → Nat → InsertReply} (h : HandlerInRange cfg insert)
    (q : TagScan × Nat) (ch : Byte) :
    (scanByte cfg insert toU8 q ch).2.length ≤ (scanByte cfg insert Int.toNat q ch).2.length ∧
    ((scanByte cfg insert toU8 q ch).2.length = (scanByte cfg insert Int.toNat q ch).2.length ↔
      InsertFits cfg insert q ch) ∧
    (InsertFits cfg insert q ch →
      (scanByte cfg insert toU8 q ch).2 = (scanByte cfg insert Int.toNat q ch).2) := by
  unfold scanByte InsertFits
  cases hst : (settle q.1).state with
  | leadout =>
      simp only [hst]
      cases hhit : (tagLeadout (settle q.1) ch).2 with
      | false => simp
      | true =>
          have hpos := tagInsertText_nonneg h (tagLeadout (settle q.1) ch).1 q.2
          have hiff := toU8_eq_toNat_iff hpos
          simp only [if_true, insertBytes, List.length_cons, bytesAt_length, Nat.add_right_cancel_iff, hiff,
            forall_const, true_and]
          refine ⟨Nat.succ_le_succ (toU8_le_toNat hpos), fun hfit => ?_⟩
          rw [hiff.mpr hfit]
  | _ => simp [hst]

/-- **The narrowed output is the reference exactly if every insert fits**, and shorter otherwise. -/
theorem narrowOutput_spec {cfg : Config} {insert : Nat → Nat → InsertReply} (h : HandlerInRange cfg insert)
    (q : TagScan × Nat) (file : List Byte) :
    (narrowOutput cfg insert q file).length ≤ (refOutput cfg insert q file).length ∧
    ((narrowOutput cfg insert q file).length = (refOutput cfg insert q file).length ↔
      InsertsFit cfg insert q file) ∧
    (InsertsFit cfg insert q file → narrowOutput cfg insert q file = refOutput cfg insert q file) := by
  induction file using List.reverseRecOn with
  | nil =>
      refine ⟨Nat.le_refl _, ?_, fun _ => rfl⟩
      simp only [narrowOutput, refOutput, transduce_nil, true_iff]
      exact atEach_nil _
  | append_singleton file ch ih =>
      have hstate : (transduce (scanByte cfg insert Int.toNat) q file).1 = scanState cfg insert q file :=
        transduce_state_congr _ _ (scanByte_state cfg insert _ _) file
      obtain ⟨hle, hiff, heq⟩ := scanByte_narrow h (scanState cfg insert q file) ch
      have hsplit : InsertsFit cfg insert q (file ++ [ch]) ↔
          InsertsFit cfg insert q file ∧ InsertFits cfg insert (scanState cfg insert q file) ch :=
        atEach_snoc
      have hnarrow : narrowOutput cfg insert q (file ++ [ch]) =
          narrowOutput cfg insert q file ++ (scanByte cfg insert toU8 (scanState cfg insert q file) ch).2 := by
        simp only [narrowOutput, scanState, transduce_snoc]
      have href : refOutput cfg insert q (file ++ [ch]) =
          refOutput cfg insert q file ++ (scanByte cfg insert Int.toNat (scanState cfg insert q file) ch).2 := by
        simp only [refOutput, transduce_snoc, hstate]
      rw [hsplit, hnarrow, href, List.length_append, List.length_append]
      obtain ⟨hle', hiff', heq'⟩ := ih
      refine ⟨by omega, ?_, fun ⟨hall, hlast⟩ => by rw [heq' hall, heq hlast]⟩
      rw [← hiff, ← hiff']
      omega

end ThirdParty.Httpd
