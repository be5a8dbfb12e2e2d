import ThirdParty.Lwip.Packets

/-!
# `Lwip.Checksum` — the Internet checksum (`core/ipv4/inet_chksum.c`) and the headers that carry it

The three versions of `lwip_standard_chksum` read memory in words of the host, from the address on at which the data
lie; so byte order and addresses are parameters. Over a chain of pbufs the sums are folded and swapped from pbuf to
pbuf. The last part has what `ip.c` and `icmp.c` write into a header and what they do to a checksum that is already
there.
-/

namespace ThirdParty.Lwip

open Lib

/-- `BYTE_ORDER`. -/
inductive ByteOrder where
  | little | big
  deriving DecidableEq, Repr

/-- `LWIP_CHKSUM_ALGORITHM`. -/
inductive ChksumAlgorithm where
  | one | two | three
  deriving DecidableEq, Repr

/-- What a port chooses, and where in memory a pointer points to. -/
structure ChksumPort where
  order     : ByteOrder
  algorithm : ChksumAlgorithm
  addr      : Pointer → Nat

/-! ## Words in memory -/

/-- A `u16_t` from two bytes in memory. -/
def hostU16 : ByteOrder → Byte → Byte → Nat
  | .little, b₀, b₁ => b₀.toNat + 256 * b₁.toNat
  | .big,    b₀, b₁ => 256 * b₀.toNat + b₁.toNat

/-- A `u32_t` from four bytes in memory. -/
def hostU32 : ByteOrder → Byte → Byte → Byte → Byte → Nat
  | .little, b₀, b₁, b₂, b₃ => hostU16 .little b₀ b₁ + 65536 * hostU16 .little b₂ b₃
  | .big,    b₀, b₁, b₂, b₃ => 65536 * hostU16 .big b₀ b₁ + hostU16 .big b₂ b₃

/-- A `u16_t` in memory. -/
def bytesU16 : ByteOrder → Nat → List Byte
  | .little, n => [UInt8.ofNat (n % 256), UInt8.ofNat (n / 256)]
  | .big,    n => [UInt8.ofNat (n / 256), UInt8.ofNat (n % 256)]

/-- `FOLD_U32T`. -/
def foldU32t (u : Nat) : Nat := u / 65536 + u % 65536

/-- `SWAP_BYTES_IN_WORD`. -/
def swapBytesInWord (w : Nat) : Nat := w % 256 * 256 + w / 256 % 256

/-- `htons`, and `PP_HTONS` for constants. -/
def htons : ByteOrder → Nat → Nat
  | .little, n => swapBytesInWord n
  | .big,    n => n

/-- `LWIP_MAKE_U16`. -/
def lwipMakeU16 : ByteOrder → Byte → Byte → Nat
  | .little, a, b => 256 * a.toNat + b.toNat
  | .big,    a, b => 256 * b.toNat + a.toNat

/-! ## `lwip_standard_chksum` -/

/-- `while (len > 1)`, two bytes at a time: the sum, and the byte that is left if there is one. -/
def sumU16s (e : ByteOrder) : List Byte → Nat → Nat × List Byte
  | b₀ :: b₁ :: bs, sum => sumU16s e bs (toU32 (sum + hostU16 e b₀ b₁ : Nat))
  | bs,             sum => (sum, bs)

/-- Version 1, which reads byte by byte. -/
def lwipStandardChksum1 (e : ByteOrder) (bs : List Byte) : Nat :=
  let (acc, rest) := sumU16s .big bs 0
  let acc := match rest with
    | b :: _ => toU32 (acc + 256 * b.toNat : Nat)
    | []     => acc
  let acc := foldU32t acc
  let acc := if acc / 65536 ≠ 0 then foldU32t acc else acc
  htons e (toU16 acc)

/-- The end of versions 2 and 3: `t` has the first byte if the address is odd, and the last one if it is left over. -/
def chksumEnd (e : ByteOrder) (odd : Bool) (first : Byte) (rest : List Byte) (sum : Nat) : Nat :=
  let sum := toU32 (sum + hostU16 e (rest.headD 0) first : Nat)
  let sum := foldU32t (foldU32t sum)
  let sum := if odd then swapBytesInWord sum else sum
  toU16 sum

/-- Version 2. -/
def lwipStandardChksum2 (e : ByteOrder) (addr : Nat) (bs : List Byte) : Nat :=
  match decide (addr % 2 = 1), bs with
  | true, b :: bs => let (sum, rest) := sumU16s e bs 0; chksumEnd e true b rest sum
  | odd,  bs      => let (sum, rest) := sumU16s e bs 0; chksumEnd e odd 0 rest sum

/-- Adding to a `u32_t`, with the carry added back. -/
def addCarry (a b : Nat) : Nat :=
  let t := toU32 (a + b : Nat)
  if t < a then toU32 (t + 1 : Nat) else t

/-- `while (len > 7)`, eight bytes at a time. -/
def sumU32s (e : ByteOrder) : List Byte → Nat → Nat × List Byte
  | b₀ :: b₁ :: b₂ :: b₃ :: b₄ :: b₅ :: b₆ :: b₇ :: bs, sum =>
      sumU32s e bs (addCarry (addCarry sum (hostU32 e b₀ b₁ b₂ b₃)) (hostU32 e b₄ b₅ b₆ b₇))
  | bs, sum => (sum, bs)

/-- Version 3 from an even address on: to a multiple of 4, then by eight bytes, then by two. -/
def chksumWords (e : ByteOrder) (addr : Nat) (bs : List Byte) : Nat × List Byte :=
  let (sum, bs) := match bs with
    | b₀ :: b₁ :: bs => if addr % 4 ≠ 0 then (hostU16 e b₀ b₁, bs) else (0, b₀ :: b₁ :: bs)
    | bs             => (0, bs)
  let (sum, bs) := sumU32s e bs sum
  sumU16s e bs (foldU32t sum)

/-- Version 3. -/
def lwipStandardChksum3 (e : ByteOrder) (addr : Nat) (bs : List Byte) : Nat :=
  match decide (addr % 2 = 1), bs with
  | true, b :: bs => let (sum, rest) := chksumWords e (addr + 1) bs; chksumEnd e true b rest sum
  | odd,  bs      => let (sum, rest) := chksumWords e addr bs; chksumEnd e odd 0 rest sum

/-- `LWIP_CHKSUM` of the bytes at a pointer. -/
def lwipChksum (c : ChksumPort) (a : Pointer) (bs : List Byte) : Nat :=
  match c.algorithm with
  | .one   => lwipStandardChksum1 c.order bs
  | .two   => lwipStandardChksum2 c.order (c.addr a) bs
  | .three => lwipStandardChksum3 c.order (c.addr a) bs

/-- `(u16_t)~x`. -/
def not16 (n : Nat) : Nat := 65535 - n % 65536

/-- `inet_chksum`. -/
def inetChksum (c : ChksumPort) (a : Pointer) (bs : List Byte) : Nat := not16 (lwipChksum c a bs)

/-! ## Checksums of chains -/

/-- What the loops do with the sum of one pbuf, of which `len` is the length. -/
def chksumRound (c : ChksumPort) (a : Pointer) (bs : List Byte) (len : Nat) (st : Nat × Bool) : Nat × Bool :=
  let acc := foldU32t (toU32 (st.1 + lwipChksum c a bs : Nat))
  if len % 2 ≠ 0 then (swapBytesInWord acc, !st.2) else (acc, st.2)

/-- The loop of `inet_chksum_pbuf` and of `inet_chksum_pseudo`: the sum, and whether its bytes are swapped. -/
def chksumLoop (c : ChksumPort) (s : Packets) : List Nat → Nat × Bool → Nat × Bool
  | [],      st => st
  | q :: qs, st => chksumLoop c s qs (chksumRound c (s.pbuf q).payload (s.payload q) (s.pbuf q).len st)

/-- The loop of `inet_chksum_pseudo_partial`. -/
def chksumPartialLoop (c : ChksumPort) (s : Packets) : List Nat → Nat → Nat × Bool → Nat × Bool
  | [],      _,         st => st
  | q :: qs, chksumLen, st =>
      if chksumLen > 0 then
        let chklen := if (s.pbuf q).len > chksumLen then chksumLen else (s.pbuf q).len
        chksumPartialLoop c s qs (chksumLen - chklen)
          (chksumRound c (s.pbuf q).payload ((s.payload q).take chklen) (s.pbuf q).len st)
      else st

/-- `if (swapped) acc = SWAP_BYTES_IN_WORD(acc)`. -/
def unswap (st : Nat × Bool) : Nat := if st.2 then swapBytesInWord st.1 else st.1

/-- `inet_chksum_pbuf`. -/
def inetChksumPbuf (c : ChksumPort) (s : Packets) (p : Nat) : Nat :=
  not16 (unswap (chksumLoop c s (s.chain p) (0, false)))

/-- An `ip_addr_t`: its bytes in network order. -/
structure IpAddr where
  (b₀ b₁ b₂ b₃ : Byte)
  deriving DecidableEq, Repr

/-- The address in memory. -/
def IpAddr.bytes (a : IpAddr) : List Byte := [a.b₀, a.b₁, a.b₂, a.b₃]

/-- `ip4_addr_get_u32`. -/
def ip4AddrGetU32 (e : ByteOrder) (a : IpAddr) : Nat := hostU32 e a.b₀ a.b₁ a.b₂ a.b₃

/-- The two halves of an address are added. -/
def addAddr (e : ByteOrder) (acc : Nat) (a : IpAddr) : Nat :=
  toU32 (toU32 (acc + ip4AddrGetU32 e a % 65536 : Nat) + ip4AddrGetU32 e a / 65536 % 65536 : Nat)

/-- The end of `inet_chksum_pseudo` and `inet_chksum_pseudo_partial`: the pseudo header is added. -/
def pseudoEnd (e : ByteOrder) (src dest : IpAddr) (proto : Byte) (protoLen acc : Nat) : Nat :=
  let acc := addAddr e (addAddr e acc src) dest
  let acc := toU32 (acc + htons e proto.toNat : Nat)
  let acc := toU32 (acc + htons e protoLen : Nat)
  not16 (foldU32t (foldU32t acc))

/-- `inet_chksum_pseudo`. -/
def inetChksumPseudo (c : ChksumPort) (s : Packets) (p : Nat) (src dest : IpAddr) (proto : Byte)
    (protoLen : Nat) : Nat :=
  pseudoEnd c.order src dest proto protoLen (unswap (chksumLoop c s (s.chain p) (0, false)))

/-- `inet_chksum_pseudo_partial`. -/
def inetChksumPseudoPartial (c : ChksumPort) (s : Packets) (p : Nat) (src dest : IpAddr) (proto : Byte)
    (protoLen chksumLen : Nat) : Nat :=
  pseudoEnd c.order src dest proto protoLen (unswap (chksumPartialLoop c s (s.chain p) chksumLen (0, false)))

/-! ## Headers -/

/-- What `ip_output_if_opt` writes into a header. -/
structure IpHeader where
  tos     : Byte
  totLen  : Nat
  ipId    : Nat
  ttl     : Byte
  proto   : Byte
  src     : IpAddr
  dest    : IpAddr
  options : List Byte

namespace IpHeader

variable (x : IpHeader)

/-- The options, with the bytes behind them set to zero up to a multiple of 4. -/
def aligned : List Byte := x.options ++ List.replicate ((x.options.length + 3) / 4 * 4 - x.options.length) 0

/-- `ip_hlen`. -/
def hlen : Nat := 20 + (x.options.length + 3) / 4 * 4

/-- `IPH_VHL_SET(iphdr, 4, ip_hlen / 4)`. -/
def vhl : Byte := UInt8.ofNat (4 <<< 4 ||| x.hlen / 4)

/-- `struct ip_hdr` with its options, in memory. -/
def bytes (e : ByteOrder) (chksum : Nat) : List Byte :=
  [x.vhl, x.tos] ++ bytesU16 e (htons e x.totLen) ++ bytesU16 e (htons e x.ipId) ++ bytesU16 e 0 ++ [x.ttl, x.proto] ++
    bytesU16 e chksum ++ x.src.bytes ++ x.dest.bytes ++ x.aligned

/-- The checksum that is computed while the fields are set (`CHECKSUM_GEN_IP_INLINE`). -/
def inlineChksum (e : ByteOrder) : Nat :=
  let chkSum := (sumU16s e x.aligned 0).1
  let chkSum := toU32 (chkSum + lwipMakeU16 e x.proto x.ttl : Nat)
  let chkSum := addAddr e chkSum x.dest
  let chkSum := toU32 (chkSum + lwipMakeU16 e x.tos x.vhl : Nat)
  let chkSum := toU32 (chkSum + htons e x.totLen : Nat)
  let chkSum := toU32 (chkSum + htons e x.ipId : Nat)
  let chkSum := addAddr e chkSum x.src
  let chkSum := chkSum / 65536 + chkSum % 65536
  let chkSum := chkSum / 65536 + chkSum
  not16 chkSum

/-- The header as `ip_output_if_opt` writes it to `a`. -/
def output (c : ChksumPort) (a : Pointer) (inline : Bool) : List Byte :=
  x.bytes c.order (if inline then x.inlineChksum c.order else inetChksum c a (x.bytes c.order 0))

end IpHeader

/-- A field of two bytes is read. -/
def getU16 (e : ByteOrder) (bs : List Byte) (i : Nat) : Nat := hostU16 e (bs.getD i 0) (bs.getD (i + 1) 0)

/-- A field of two bytes is written. -/
def setU16 (e : ByteOrder) (bs : List Byte) (i n : Nat) : List Byte := overwrite bs i (bytesU16 e n)

/-- A checksum is adjusted to a header word in network order that got smaller by `d`. -/
def adjustChksum (e : ByteOrder) (d chksum : Nat) : Nat :=
  if chksum ≥ htons e (0xffff - d) then toU16 (chksum + htons e d + 1 : Nat) else toU16 (chksum + htons e d : Nat)

/-- The header after `ip_forward`, which decrements the TTL; `none` if that was the last hop. -/
def ipForward (e : ByteOrder) (hdr : List Byte) : Option (List Byte) :=
  let hdr := hdr.set 8 (hdr.getD 8 0 - 1)
  if hdr.getD 8 0 = 0 then none
  else some (setU16 e hdr 10 (adjustChksum e 0x100 (getU16 e hdr 10)))

/-- The message after `icmp_input` has made an echo request into its reply. -/
def icmpEchoReply (e : ByteOrder) (msg : List Byte) : List Byte :=
  let msg := msg.set 0 0
  setU16 e msg 2 (adjustChksum e (8 * 256) (getU16 e msg 2))

/-- The IP header of that reply: addresses exchanged, a new TTL, and the checksum of the first `IP_HLEN` bytes. -/
def icmpEchoHeader (c : ChksumPort) (a : Pointer) (hdr : List Byte) : List Byte :=
  let src := (hdr.drop 12).take 4
  let dest := (hdr.drop 16).take 4
  let hdr := overwrite (overwrite hdr 12 dest) 16 src
  let hdr := hdr.set 8 255
  let hdr := setU16 c.order hdr 10 0
  setU16 c.order hdr 10 (inetChksum c a (hdr.take 20))

end ThirdParty.Lwip
