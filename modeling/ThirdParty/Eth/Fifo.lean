import ThirdParty.Lib.Words

/-!
# `Eth.Fifo` — frames at the FIFO register (`low_level_transmit`, `low_level_receive`)

Both functions move a frame between a pbuf chain and `ETH->DATA`, one word at a time. Transmission gathers the bytes
of pbufs of any lengths into words; reception stores whole words into the buffers of a chain that `pbuf_alloc` took
from the pool. Loops over an index run on fuel that their bound provides.
-/

namespace ThirdParty.Eth

open Lib

/-! ## Transmission -/

/-- What `low_level_transmit` writes to the MAC. -/
inductive MacWrite where
  | data (w : Nat)
  | newtx
  deriving DecidableEq, Repr

/-- `ulGather` as its four bytes, `iGather`, and the words written to `ETH->DATA` so far. -/
structure Gather where
  bytes : List Byte
  i     : Nat
  data  : List Nat

/-- `ulGather = 0`. -/
def gatherZero : List Byte := [0, 0, 0, 0]

/-- `pucGather[iGather] = b; iGather = ((iGather + 1) % 4);` -/
def Gather.put (g : Gather) (b : Byte) : Gather := { g with bytes := g.bytes.set g.i b, i := (g.i + 1) % 4 }

/-- `ETH->DATA = ulGather; ulGather = 0;` -/
def Gather.write (g : Gather) : Gather := { g with data := g.data ++ [leWord g.bytes], bytes := gatherZero }

/-- `while ((iBuf < q->len) && (iGather != 0)) { ... }` -/
def fillGather (buf : List Byte) : Nat → Nat → Gather → Nat × Gather
  | 0,        iBuf, g => (iBuf, g)
  | fuel + 1, iBuf, g =>
      if iBuf < buf.length ∧ g.i ≠ 0 then fillGather buf fuel (iBuf + 1) (g.put (buf.getD iBuf 0)) else (iBuf, g)

/-- `while ((iBuf + 4) <= q->len) { ETH->DATA = *pulBuf++; iBuf += 4; }` -/
def copyWords (buf : List Byte) : Nat → Nat → Gather → Nat × Gather
  | 0,        iBuf, g => (iBuf, g)
  | fuel + 1, iBuf, g =>
      if iBuf + 4 ≤ buf.length then
        copyWords buf fuel (iBuf + 4) { g with data := g.data ++ [leWord ((buf.drop iBuf).take 4)] }
      else (iBuf, g)

/-- `while (iBuf < q->len) { ... }` -/
def saveRest (buf : List Byte) : Nat → Nat → Gather → Gather
  | 0,        _,    g => g
  | fuel + 1, iBuf, g =>
      if iBuf < buf.length then saveRest buf fuel (iBuf + 1) (g.put (buf.getD iBuf 0)) else g

/-- One pbuf of the chain, given by its payload. -/
def packPbuf (g : Gather) (buf : List Byte) : Gather :=
  let (iBuf, g) := fillGather buf buf.length 0 g
  let g := if g.i = 0 ∧ iBuf ≠ 0 then g.write else g
  let (iBuf, g) := copyWords buf buf.length iBuf g
  saveRest buf buf.length iBuf g

/-- `*((unsigned short *)(p->payload)) = p->tot_len - 16;` -/
def putLength (totLen : Nat) (buf : List Byte) : List Byte :=
  let n := toU16 ((totLen : Int) - 16)
  (buf.set 0 (UInt8.ofNat n)).set 1 (UInt8.ofNat (n / 256))

/-- The payloads of the chain after the length is written into the first one. -/
def withLength (totLen : Nat) : List (List Byte) → List (List Byte)
  | []        => []
  | buf :: bs => putLength totLen buf :: bs

/-- `low_level_transmit` on a chain given by the payloads of its pbufs and the `tot_len` of the first one: the
    writes to the MAC and the payloads afterwards. -/
def transmitFrame (totLen : Nat) (chain : List (List Byte)) : List MacWrite × List (List Byte) :=
  let chain := withLength totLen chain
  let g := chain.foldl packPbuf ⟨gatherZero, 0, []⟩
  ((g.data ++ [leWord g.bytes]).map .data ++ [.newtx], chain)

/-! ## Reception -/

/-- A pbuf of the pool: the memory from the start of its payload area on, `payload` as an offset into it, `len` and
    `tot_len`. `stores` is history, the offsets at which a word was stored. -/
structure RxPbuf where
  area    : Nat → Byte
  payload : Nat
  len     : Nat
  totLen  : Nat
  stores  : List Nat

/-- A word stored at an offset, inside the payload area or not. -/
def RxPbuf.store (p : RxPbuf) (off w : Nat) : RxPbuf :=
  { p with
    area   := fun k => if off ≤ k ∧ k < off + 4 then (wordBytes w).getD (k - off) 0 else p.area k
    stores := p.stores ++ [off] }

/-- The bytes that the pbuf carries. -/
def RxPbuf.contents (p : RxPbuf) : List Byte := bytesAt p.area p.payload p.len

/-- `while (rem_len > 0) { ... }` in `pbuf_alloc`, for buffers of `size` bytes with any content. -/
def poolTail (size : Nat) (garbage : Nat → Nat → Byte) : Nat → Nat → Nat → List RxPbuf
  | 0,        _, _   => []
  | fuel + 1, k, rem =>
      if 0 < rem then
        ⟨garbage k, 0, min rem size, rem, []⟩ :: poolTail size garbage fuel (k + 1) (rem - min rem size)
      else []

/-- `pbuf_alloc(PBUF_RAW, len, PBUF_POOL)` where the pool has enough buffers. -/
def pbufAllocPool (size : Nat) (garbage : Nat → Nat → Byte) (len : Nat) : List RxPbuf :=
  ⟨garbage 0, 0, min len size, len, []⟩ :: poolTail size garbage len 1 (len - min len size)

/-- `for (i = 0; i < q->len; i += 4) { *ptr++ = ETH->DATA; }`; `data` is what successive reads of `ETH->DATA` give
    and `pos` the number of reads so far. -/
def copyPbuf (data : Nat → Nat) : Nat → Nat → Nat → RxPbuf → Nat × RxPbuf
  | 0,        _, pos, q => (pos, q)
  | fuel + 1, i, pos, q =>
      if i < q.len then copyPbuf data fuel (i + 4) (pos + 1) (q.store (q.payload + i) (data pos)) else (pos, q)

/-- `do { ... q = q->next; } while (q != NULL);` -/
def copyChain (data : Nat → Nat) : Nat → List RxPbuf → Nat × List RxPbuf
  | pos, []      => (pos, [])
  | pos, q :: qs =>
      let (pos, q) := copyPbuf data q.len 0 pos q
      let (pos, qs) := copyChain data pos qs
      (pos, q :: qs)

/-- `for (i = 4; i < len; i += 4) { temp = ETH->DATA; }` -/
def drainFrame (len : Nat) : Nat → Nat → Nat → Nat
  | 0,        _, pos => pos
  | fuel + 1, i, pos => if i < len then drainFrame len fuel (i + 4) (pos + 1) else pos

/-- `low_level_receive` with a frame in the FIFO, from read `pos` on; `alloc` is the answer of `pbuf_alloc`, the
    content of the buffers it gives out or `none` for `NULL`. -/
def receiveFrame (size : Nat) (data : Nat → Nat) (alloc : Option (Nat → Nat → Byte)) (pos : Nat) :
    Nat × Option (List RxPbuf) :=
  let temp := data pos
  let len := toU16 temp
  match alloc.map fun garbage => pbufAllocPool size garbage len with
  | some (p :: ps) =>
      let p := p.store p.payload temp
      let p := { p with payload := p.payload + 4, len := toU16 ((p.len : Int) - 4) }
      match copyChain data (pos + 1) (p :: ps) with
      | (pos, p :: ps) => (pos, some ({ p with payload := p.payload - 4, len := toU16 (p.len + 4) } :: ps))
      | (pos, [])      => (pos, some [])
  | _ => (drainFrame len len 4 (pos + 1), none)

end ThirdParty.Eth
