import ThirdParty.Lib.Bytes
import ThirdParty.Lib.Chain
import ThirdParty.Lwip.Api
import ThirdParty.Lwip.Mem

/-!
# `Lwip.Packets` — packet buffers (`core/pbuf.c`)

The functions of `pbuf.c` on chains of `struct pbuf`, with their lengths, reference counts and payloads; `pbuf_clen`
and `pbuf_strstr`, which only call or count, are left out. A `struct pbuf` is named by a number, and the block it
lies in has its own bytes, so a pointer is a block and an offset into it; `none` is the memory that `PBUF_ROM` and
`PBUF_REF` refer to. A loop over a chain runs over the list of its pbufs, which no such loop changes ahead of
itself. What `mem_malloc` and `memp_malloc` return is a list of blocks, used from the front; when it is empty they
return `NULL`. Assertions, flags, custom pbufs and arguments that are `NULL` are left out.

`pbufStep` is the pool with its clients. It says what they are asked to respect: they pass pbufs to which they hold
a reference, leave chains that others point into as they are, and keep the lengths and counts within 16 bits.
-/

namespace ThirdParty.Lwip

open Lib

/-- `pbuf_layer`. -/
inductive PbufLayer where
  | transport | ip | link | raw
  deriving DecidableEq, Repr

/-- `pbuf_type`. -/
inductive PbufType where
  | ram | rom | ref | pool
  deriving DecidableEq, Repr

/-- The options of `lwipopts.h`, `sizeof(struct pbuf)`, and the bits of a `mem_size_t`. -/
structure PbufOpts where
  memAlignment : Nat
  sizeofPbuf   : Nat
  linkHlen     : Nat
  poolBufsize  : Nat
  memSizeBits  : Nat

namespace PbufOpts

/-- `LWIP_MEM_ALIGN_SIZE`. -/
def align (o : PbufOpts) (size : Nat) : Nat := lwipMemAlignSize o.memAlignment size

/-- `SIZEOF_STRUCT_PBUF`. -/
def sizeofStructPbuf (o : PbufOpts) : Nat := o.align o.sizeofPbuf

/-- `PBUF_POOL_BUFSIZE_ALIGNED`. -/
def poolBufsizeAligned (o : PbufOpts) : Nat := o.align o.poolBufsize

/-- The room that `pbuf_alloc` leaves for headers. -/
def offset (o : PbufOpts) : PbufLayer → Nat
  | .transport => o.linkHlen + 20 + 20
  | .ip        => o.linkHlen + 20
  | .link      => o.linkHlen
  | .raw       => 0

/-- What `pbuf_alloc` asks of `mem_malloc` for a `PBUF_RAM` pbuf. -/
def ramSize (o : PbufOpts) (l : PbufLayer) (length : Nat) : Nat :=
  o.align (o.sizeofStructPbuf + o.offset l) + o.align length

end PbufOpts

/-- Options in which a buffer of the pool holds the headers and some data, and has a length of 16 bits. -/
structure PbufConfig extends PbufOpts where
  aligned  : ∃ k, memAlignment = 2 ^ k
  holds    : ∀ l, toPbufOpts.align (toPbufOpts.offset l) < toPbufOpts.poolBufsizeAligned
  fits     : toPbufOpts.sizeofStructPbuf + toPbufOpts.poolBufsizeAligned < 65536
  bits     : 16 ≤ memSizeBits

/-- A pointer: an offset into a block, or into the memory that belongs to no pbuf. -/
structure Pointer where
  block : Option Nat
  off   : Nat
  deriving DecidableEq, Repr

/-- `struct pbuf`. -/
structure Pbuf where
  next    : Option Nat
  payload : Pointer
  totLen  : Nat
  len     : Nat
  type    : PbufType
  ref     : Nat
  deriving DecidableEq, Repr

/-- The pbufs, those that are allocated, the sizes of their blocks, and the bytes in memory. -/
structure Packets where
  pbuf : Nat → Pbuf
  live : List Nat
  size : Nat → Nat
  data : Option Nat → Lib.Mem

namespace Packets

variable (s : Packets)

/-- A pbuf is overwritten. -/
def put (p : Nat) (b : Pbuf) : Packets := { s with pbuf := Function.update s.pbuf p b }

/-- `p->next = next`. -/
def setNext (p : Nat) (next : Option Nat) : Packets := s.put p { s.pbuf p with next := next }

/-- `p->tot_len = n`. -/
def setTotLen (p n : Nat) : Packets := s.put p { s.pbuf p with totLen := n }

/-- `p->len = n`. -/
def setLen (p n : Nat) : Packets := s.put p { s.pbuf p with len := n }

/-- `p->ref = n`. -/
def setRef (p n : Nat) : Packets := s.put p { s.pbuf p with ref := n }

/-- An allocator gives out the block `p`, of `size` bytes, and `struct pbuf` is set up in it. -/
def give (p size : Nat) (b : Pbuf) : Packets :=
  { s.put p b with live := p :: s.live, size := Function.update s.size p size }

/-- An allocator takes the block `p` back. -/
def take (p : Nat) : Packets := { s with live := s.live.erase p }

/-- `MEMCPY` to a pointer. -/
def store (a : Pointer) (bs : List Byte) : Packets :=
  { s with data := Function.update s.data a.block fun x =>
      if a.off ≤ x ∧ x < a.off + bs.length then bs.getD (x - a.off) 0 else s.data a.block x }

/-- `n` bytes at a pointer. -/
def load (a : Pointer) (n : Nat) : List Byte := bytesAt (s.data a.block) a.off n

/-- `p->next`, for every `p`. -/
def next (p : Nat) : Option Nat := (s.pbuf p).next

/-- The pbufs from `p` along `next`. -/
def chain (p : Nat) : List Nat := follow s.next s.live.length (some p)

/-- The payload of one pbuf. -/
def payload (p : Nat) : List Byte := s.load (s.pbuf p).payload (s.pbuf p).len

/-- The payloads of a chain. -/
def frags (p : Nat) : List (List Byte) := (s.chain p).map s.payload

/-- **The packet** that starts with `p`: what the payloads of its chain say together. -/
def bytes (p : Nat) : List Byte := (s.frags p).flatten

end Packets

/-- `(u8_t *)a + n`. -/
def Pointer.plus (a : Pointer) (n : Nat) : Pointer := { a with off := a.off + n }

/-! ## Reference counts and chains -/

/-- The loop of `pbuf_free`: the pool, and how many pbufs were deallocated. -/
def pbufFreeLoop : List Nat → Packets → Packets × Nat
  | [],      s => (s, 0)
  | p :: ps, s =>
      let ref := toU16 ((s.pbuf p).ref - 1)
      let s := s.setRef p ref
      if ref = 0 then
        let (s, count) := pbufFreeLoop ps (s.take p)
        (s, count + 1)
      else (s, 0)

/-- `pbuf_free`; the count that it returns is a `u8_t`. -/
def pbufFree (s : Packets) (p : Nat) : Packets × Nat :=
  let (s, count) := pbufFreeLoop (s.chain p) s
  (s, toU8 count)

/-- `pbuf_ref`. -/
def pbufRef (s : Packets) (p : Nat) : Packets := s.setRef p (toU16 ((s.pbuf p).ref + 1))

/-- The loop of `pbuf_cat`. -/
def pbufCatLoop (t : Nat) : List Nat → Packets → Packets
  | [],           s => s
  | [p],          s => (s.setTotLen p (toU16 ((s.pbuf p).totLen + (s.pbuf t).totLen))).setNext p (some t)
  | p :: q :: ps, s => pbufCatLoop t (q :: ps) (s.setTotLen p (toU16 ((s.pbuf p).totLen + (s.pbuf t).totLen)))

/-- `pbuf_cat`. -/
def pbufCat (s : Packets) (h t : Nat) : Packets := pbufCatLoop t (s.chain h) s

/-- `pbuf_chain`. -/
def pbufChain (s : Packets) (h t : Nat) : Packets := pbufRef (pbufCat s h t) t

/-- `pbuf_dechain`: the remainder is returned unless something was deallocated. -/
def pbufDechain (s : Packets) (p : Nat) : Packets × Option Nat :=
  match s.next p with
  | none   => (s, none)
  | some q =>
      let s := s.setTotLen q (toU16 ((s.pbuf p).totLen - (s.pbuf p).len))
      let s := s.setNext p none
      let s := s.setTotLen p (s.pbuf p).len
      let (s, tailGone) := pbufFree s q
      (s, if tailGone > 0 then none else some q)

/-! ## Allocation -/

section
variable (cfg : PbufConfig)

/-- The loop of `pbuf_alloc` that allocates the tail of a `PBUF_POOL` chain, behind `r`. -/
def poolTail (p : Nat) : List Nat → Nat → Nat → Packets → Packets × Option Nat
  | [],           _, remLen, s => if remLen = 0 then (s, some p) else ((pbufFree s p).1, none)
  | q :: mallocs, r, remLen, s =>
      if remLen = 0 then (s, some p)
      else
        let len := min (toU16 remLen) cfg.poolBufsizeAligned
        let s := s.give q (cfg.sizeofStructPbuf + cfg.poolBufsizeAligned)
          { next := none, payload := ⟨some q, cfg.sizeofStructPbuf⟩, totLen := toU16 remLen, len := len, type :=
            .pool, ref := 1 }
        poolTail p mallocs q (remLen - len) (s.setNext r (some q))

/-- `pbuf_alloc`. -/
def pbufAlloc (s : Packets) (l : PbufLayer) (length : Nat) (type : PbufType) : List Nat → Packets × Option Nat
  | []           => (s, none)
  | p :: mallocs =>
      match type with
      | .pool =>
          let len := min length (cfg.poolBufsizeAligned - cfg.align (cfg.offset l))
          let s := s.give p (cfg.sizeofStructPbuf + cfg.poolBufsizeAligned)
            { next := none, payload := ⟨some p, cfg.align (cfg.sizeofStructPbuf + cfg.offset l)⟩, totLen := length,
              len := len, type := .pool, ref := 1 }
          poolTail cfg p mallocs p (length - len) s
      | .ram =>
          (s.give p (cfg.ramSize l length % 2 ^ cfg.memSizeBits)
            { next := none, payload := ⟨some p, cfg.align (cfg.sizeofStructPbuf + cfg.offset l)⟩, totLen := length,
              len := length, type := .ram, ref := 1 }, some p)
      | type =>
          (s.give p cfg.sizeofStructPbuf
            { next := none, payload := ⟨none, 0⟩, totLen := length, len := length, type := type, ref := 1 }, some p)

/-! ## Lengths -/

/-- `mem_trim` on the block of a pbuf. -/
def memTrimBlock (s : Packets) (p newsize : Nat) : Packets := { s with size := Function.update s.size p newsize }

/-- `pbuf_realloc` at the new last pbuf `q`. -/
def reallocLast (s : Packets) (q remLen : Nat) : Packets :=
  let s := if (s.pbuf q).type = .ram ∧ remLen ≠ (s.pbuf q).len
    then memTrimBlock s q (toU16 (s.pbuf q).payload.off + remLen) else s
  let s := s.setLen q remLen
  let s := s.setTotLen q remLen
  let s := match s.next q with
    | some r => (pbufFree s r).1
    | none   => s
  s.setNext q none

/-- The loop of `pbuf_realloc` over the pbufs that stay. -/
def reallocLoop (grow : Int) : List Nat → Nat → Packets → Packets
  | [],      _,      s => s
  | q :: qs, remLen, s =>
      if remLen > (s.pbuf q).len then
        reallocLoop grow qs (remLen - (s.pbuf q).len) (s.setTotLen q (toU16 ((s.pbuf q).totLen + toU16 grow)))
      else reallocLast s q remLen

/-- `pbuf_realloc`. -/
def pbufRealloc (s : Packets) (p newLen : Nat) : Packets :=
  if newLen ≥ (s.pbuf p).totLen then s
  else reallocLoop ((newLen : Int) - (s.pbuf p).totLen) (s.chain p) newLen s

/-- The payload pointer, `len` and `tot_len` after `pbuf_header` has moved the pointer. -/
def Packets.moveHeader (s : Packets) (p : Nat) (inc : Int) : Packets :=
  let b := s.pbuf p
  s.put p { b with
    payload := { b.payload with off := (b.payload.off - inc).toNat }
    len     := toU16 (b.len + inc)
    totLen  := toU16 (b.totLen + inc) }

/-- `pbuf_header`, with `true` for success. -/
def pbufHeader (s : Packets) (p : Nat) (inc : Int) : Packets × Bool :=
  let b := s.pbuf p
  if inc = 0 then (s, true)
  else if inc < 0 ∧ (b.len : Int) < -inc then (s, false)
  else if b.type = .ram ∨ b.type = .pool then
    if (b.payload.off : Int) - inc < cfg.sizeofStructPbuf then (s, false) else (s.moveHeader p inc, true)
  else if inc < 0 ∧ -inc ≤ b.len then (s.moveHeader p inc, true)
  else (s, false)

end

/-! ## Copying -/

/-- A pbuf that ends its packet although the chain goes on. -/
def endsInQueue (s : Packets) : List Nat → Bool
  | p :: ps => (s.pbuf p).len = (s.pbuf p).totLen ∧ ps ≠ []
  | []      => false

/-- Why `pbuf_copy` ends, once the pbufs that it goes on with are known. -/
def copyEnds (s : Packets) (tos froms : List Nat) : Option Err :=
  if tos = [] ∧ froms ≠ [] then some .arg
  else if endsInQueue s froms then some .val
  else if endsInQueue s tos then some .val
  else if froms = [] then some .ok
  else none

/-- The loop of `pbuf_copy`. Each round finishes a pbuf of one of the chains, so `fuel` is the number of pbufs. -/
def pbufCopyLoop : Nat → List Nat → Nat → List Nat → Nat → Packets → Packets × Err
  | fuel + 1, pTo :: tos, offsetTo, pFrom :: froms, offsetFrom, s =>
      let len := if (s.pbuf pTo).len - offsetTo ≥ (s.pbuf pFrom).len - offsetFrom
        then (s.pbuf pFrom).len - offsetFrom else (s.pbuf pTo).len - offsetTo
      let s := s.store ((s.pbuf pTo).payload.plus offsetTo) (s.load ((s.pbuf pFrom).payload.plus offsetFrom) len)
      let (froms, offsetFrom) :=
        if offsetFrom + len ≥ (s.pbuf pFrom).len then (froms, 0) else (pFrom :: froms, offsetFrom + len)
      let (tos, offsetTo) := if offsetTo + len = (s.pbuf pTo).len then (tos, 0) else (pTo :: tos, offsetTo + len)
      match copyEnds s tos froms with
      | some err => (s, err)
      | none     => pbufCopyLoop fuel tos offsetTo froms offsetFrom s
  | _, _, _, _, _, s => (s, .ok)

/-- `pbuf_copy`. -/
def pbufCopy (s : Packets) (pTo pFrom : Nat) : Packets × Err :=
  if (s.pbuf pTo).totLen ≥ (s.pbuf pFrom).totLen then
    pbufCopyLoop ((s.chain pTo).length + (s.chain pFrom).length) (s.chain pTo) 0 (s.chain pFrom) 0 s
  else (s, .arg)

/-- The loop of `pbuf_copy_partial`: the bytes that it stores, one after the other. -/
def copyPartialLoop (s : Packets) : List Nat → Nat → Nat → List Byte
  | [],      _,   _      => []
  | p :: ps, len, offset =>
      if len = 0 then []
      else if offset ≠ 0 ∧ offset ≥ (s.pbuf p).len then copyPartialLoop s ps len (offset - (s.pbuf p).len)
      else
        let n := if (s.pbuf p).len - offset > len then len else (s.pbuf p).len - offset
        s.load ((s.pbuf p).payload.plus offset) n ++ copyPartialLoop s ps (len - n) 0

/-- `pbuf_copy_partial`; it returns the number of the bytes. -/
def pbufCopyPartial (s : Packets) (buf len offset : Nat) : List Byte := copyPartialLoop s (s.chain buf) len offset

/-- The loop of `pbuf_take`. -/
def pbufTakeLoop : List Nat → List Byte → Packets → Packets
  | [],      _,  s => s
  | p :: ps, bs, s =>
      if bs = [] then s
      else
        let n := if bs.length > (s.pbuf p).len then (s.pbuf p).len else bs.length
        pbufTakeLoop ps (bs.drop n) (s.store (s.pbuf p).payload (bs.take n))

/-- `pbuf_take`. -/
def pbufTake (s : Packets) (buf : Nat) (bs : List Byte) : Packets × Err :=
  if (s.pbuf buf).totLen < bs.length then (s, .arg) else (pbufTakeLoop (s.chain buf) bs s, .ok)

/-- `pbuf_coalesce`. -/
def pbufCoalesce (cfg : PbufConfig) (s : Packets) (p : Nat) (l : PbufLayer) (mallocs : List Nat) : Packets × Nat :=
  match s.next p with
  | none   => (s, p)
  | some _ =>
      match pbufAlloc cfg s l (s.pbuf p).totLen .ram mallocs with
      | (s, none)   => (s, p)
      | (s, some q) => ((pbufFree (pbufCopy s q p).1 p).1, q)

/-! ## Looking into a packet -/

/-- The pbuf of the chain that has the byte at `offset`, with what follows it, and the offset into it. -/
def findOffset (s : Packets) : List Nat → Nat → List Nat × Nat
  | [],      offset => ([], offset)
  | q :: qs, offset => if (s.pbuf q).len ≤ offset then findOffset s qs (offset - (s.pbuf q).len) else (q :: qs, offset)

/-- `pbuf_get_at` on the chain `ps`. -/
def getAt (s : Packets) (ps : List Nat) (offset : Nat) : Byte :=
  match findOffset s ps offset with
  | (q :: _, offset) => s.data (s.pbuf q).payload.block ((s.pbuf q).payload.off + offset)
  | ([],     _)      => 0

/-- `pbuf_get_at`. -/
def pbufGetAt (s : Packets) (p offset : Nat) : Byte := getAt s (s.chain p) offset

/-- The loop of `pbuf_memcmp`: `i + 1` for the first `i` at which the bytes differ. -/
def memcmpLoop (s : Packets) (ps : List Nat) (start : Nat) : List Byte → Nat → Nat
  | [],      _ => 0
  | b :: bs, i =>
      if getAt s ps (toU16 (start + i : Nat)) ≠ b then toU16 (i + 1 : Nat) else memcmpLoop s ps start bs (i + 1)

/-- `pbuf_memcmp`. -/
def pbufMemcmp (s : Packets) (p offset : Nat) (s2 : List Byte) : Nat :=
  match findOffset s (s.chain p) offset with
  | ([],      _)     => 0xffff
  | (q :: qs, start) => memcmpLoop s (q :: qs) start s2 0

/-- The loop of `pbuf_memfind`. -/
def memfindLoop (s : Packets) (p : Nat) (mem : List Byte) (max : Nat) : Nat → Nat → Nat
  | 0,        _ => 0xffff
  | fuel + 1, i =>
      if i ≤ max then
        let plus := pbufMemcmp s p i mem
        if plus = 0 then i else memfindLoop s p mem max fuel (toU16 (i + plus : Nat))
      else 0xffff

/-- `pbuf_memfind`. Every round but one goes on to a higher index, so there are no more than `2 ^ 16` of them. -/
def pbufMemfind (s : Packets) (p : Nat) (mem : List Byte) (startOffset : Nat) : Nat :=
  if (s.pbuf p).totLen ≥ mem.length + startOffset then
    memfindLoop s p mem (toU16 ((s.pbuf p).totLen - mem.length)) 65537 startOffset
  else 0xffff

/-! ## The pool and its clients -/

/-- What a client does. -/
inductive PbufAct where
  | alloc (l : PbufLayer) (length : Nat) (type : PbufType) (mallocs : List Nat)
  | ref (p : Nat)
  | free (p : Nat)
  | cat (h t : Nat)
  | chain (h t : Nat)
  | dechain (p : Nat)
  | realloc (p newLen : Nat)
  | header (p : Nat) (inc : Int)
  | refer (p a : Nat)
  | copy (pTo pFrom : Nat)
  | take (p : Nat) (bs : List Byte)
  | coalesce (p : Nat) (l : PbufLayer) (mallocs : List Nat)
  deriving DecidableEq, Repr

/-- The pool, and the references that the clients hold. -/
structure PbufSys where
  packets : Packets
  held    : List Nat

namespace Packets

variable (s : Packets)

/-- No `next` points to `p`. -/
def Heads (p : Nat) : Prop := ∀ q ∈ s.live, s.next q ≠ some p

/-- Nothing outside of the chain of `p` points into it. -/
def Unshared (p : Nat) : Prop := ∀ q ∈ s.live, q ∉ s.chain p → ∀ r ∈ s.chain p, s.next q ≠ some r

/-- The allocators give out blocks that are free, each once. -/
def Fresh (mallocs : List Nat) : Prop := mallocs.Nodup ∧ ∀ p ∈ mallocs, p ∉ s.live

/-- The payloads of the chain lie in the pool, where they may be written. -/
def Writable (p : Nat) : Prop := ∀ q ∈ s.chain p, (s.pbuf q).type = .ram ∨ (s.pbuf q).type = .pool

instance (p : Nat) : Decidable (s.Heads p) := by unfold Heads; infer_instance
instance (p : Nat) : Decidable (s.Unshared p) := by unfold Unshared; infer_instance
instance (mallocs : List Nat) : Decidable (s.Fresh mallocs) := by unfold Fresh; infer_instance
instance (p : Nat) : Decidable (s.Writable p) := by unfold Writable; infer_instance

end Packets

/-- The chain of `t` may be hung behind that of `h`: they have no pbuf in common, nothing else leads into the one of
    `h`, and the lengths add up. -/
def Joinable (s : Packets) (h t : Nat) : Prop :=
  (∀ q ∈ s.chain h, q ∉ s.chain t) ∧ s.Unshared h ∧ (s.pbuf h).totLen + (s.pbuf t).totLen < 65536

instance (s : Packets) (h t : Nat) : Decidable (Joinable s h t) := by unfold Joinable; infer_instance

/-- **One call of a client**, `none` if the client may not make it. -/
def pbufStep (cfg : PbufConfig) (s : PbufSys) : PbufAct → Option PbufSys
  | .alloc l length type mallocs =>
      if s.packets.Fresh mallocs ∧ length < 65536 ∧ (type = .ram → cfg.ramSize l length < 65536) then
        let (m, p) := pbufAlloc cfg s.packets l length type mallocs
        some { packets := m, held := p.toList ++ s.held }
      else none
  | .ref p =>
      if p ∈ s.held ∧ (s.packets.pbuf p).ref < 65535 then
        some { packets := pbufRef s.packets p, held := p :: s.held }
      else none
  | .free p =>
      if p ∈ s.held then some { packets := (pbufFree s.packets p).1, held := s.held.erase p } else none
  | .cat h t =>
      if h ∈ s.held ∧ t ∈ s.held ∧ Joinable s.packets h t then
        some { packets := pbufCat s.packets h t, held := s.held.erase t }
      else none
  | .chain h t =>
      if h ∈ s.held ∧ t ∈ s.held ∧ Joinable s.packets h t ∧ (s.packets.pbuf t).ref < 65535 then
        some { s with packets := pbufChain s.packets h t }
      else none
  | .dechain p =>
      if p ∈ s.held ∧ s.packets.Heads p then some { s with packets := (pbufDechain s.packets p).1 } else none
  | .realloc p newLen =>
      if p ∈ s.held ∧ s.packets.Unshared p then some { s with packets := pbufRealloc s.packets p newLen } else none
  | .header p inc =>
      if p ∈ s.held ∧ s.packets.Heads p ∧ (s.packets.pbuf p).totLen + inc < 65536 then
        some { s with packets := (pbufHeader cfg s.packets p inc).1 }
      else none
  | .refer p a =>
      let b := s.packets.pbuf p
      if p ∈ s.held ∧ (b.type = .ref ∨ b.type = .rom) then
        some { s with packets := s.packets.put p { b with payload := ⟨none, a⟩ } }
      else none
  | .copy pTo pFrom =>
      if pTo ∈ s.held ∧ pFrom ∈ s.held ∧ s.packets.Writable pTo ∧
        ∀ q ∈ s.packets.chain pTo, q ∉ s.packets.chain pFrom then
        some { s with packets := (pbufCopy s.packets pTo pFrom).1 }
      else none
  | .take p bs =>
      if p ∈ s.held ∧ s.packets.Writable p then some { s with packets := (pbufTake s.packets p bs).1 } else none
  | .coalesce p l mallocs =>
      if p ∈ s.held ∧ s.packets.Fresh mallocs ∧ cfg.ramSize l (s.packets.pbuf p).totLen < 65536 then
        let (m, q) := pbufCoalesce cfg s.packets p l mallocs
        some { packets := m, held := q :: s.held.erase p }
      else none

/-- No pbuf is allocated. -/
def PbufSys.init (pbuf : Nat → Pbuf) (size : Nat → Nat) (data : Option Nat → Lib.Mem) : PbufSys :=
  { packets := { pbuf := pbuf, live := [], size := size, data := data }, held := [] }

end ThirdParty.Lwip
