import Mathlib.Algebra.Order.Ring.Nat
import Mathlib.Logic.Function.Basic

/-!
# `Lwip.Mem` — the heap of `core/mem.c`

`mem_init`, `mem_malloc`, `mem_free` and `mem_trim` as they move `struct mem` headers. A pointer into the heap is its
offset from `ram`, so `ram` itself is `0` and `ram_end` is `MEM_SIZE_ALIGNED`; `ram` maps an offset to the header that
is read there. The heap is configured without `MEM_USE_POOLS` and without `LWIP_ALLOW_MEM_FREE_FROM_OTHER_CONTEXT`
(the default), where one mutex makes each call one step. Statistics and assertions are left out.

`memStep` is the heap with its clients, who ask for blocks, give them back, shrink them, and write what they like into
those they hold. A client may write where a header read at the offset would overlap its block; its own header is not
one of those places.
-/

namespace ThirdParty.Lwip

/-- `x & ~y`. -/
def andNot (x y : Nat) : Nat := x - (x &&& y)

/-- `LWIP_MEM_ALIGN_SIZE` for an alignment of `align` bytes. -/
def lwipMemAlignSize (align size : Nat) : Nat := andNot (size + align - 1) (align - 1)

/-- The options of `lwipopts.h`, and `sizeof(struct mem)`. -/
structure MemOpts where
  memSize      : Nat
  memAlignment : Nat
  minSize      : Nat
  sizeofMem    : Nat

namespace MemOpts

/-- `MEM_SIZE_ALIGNED`. -/
def memSizeAligned (o : MemOpts) : Nat := lwipMemAlignSize o.memAlignment o.memSize

/-- `SIZEOF_STRUCT_MEM`. -/
def sizeofStructMem (o : MemOpts) : Nat := lwipMemAlignSize o.memAlignment o.sizeofMem

/-- `MIN_SIZE_ALIGNED`. -/
def minSizeAligned (o : MemOpts) : Nat := lwipMemAlignSize o.memAlignment o.minSize

/-- The bits of a `mem_size_t`. -/
def memSizeBits (o : MemOpts) : Nat := if 64000 < o.memSize then 32 else 16

/-- The conversion to `mem_size_t`. -/
def toMemSize (o : MemOpts) (n : Nat) : Nat := n % 2 ^ o.memSizeBits

end MemOpts

/-- Options of a heap that holds one block at least and that `mem_size_t` can address. -/
structure MemConfig extends MemOpts where
  aligned  : ∃ k, memAlignment = 2 ^ k
  align_le : memAlignment ≤ 2 ^ toMemOpts.memSizeBits
  struct   : 0 < sizeofMem
  min_pos  : 0 < minSize
  holds    : toMemOpts.sizeofStructMem + toMemOpts.minSizeAligned ≤ toMemOpts.memSizeAligned
  fits     : toMemOpts.memSizeAligned < 2 ^ toMemOpts.memSizeBits

/-- `struct mem`. -/
structure Mem where
  next : Nat
  prev : Nat
  used : Bool
  deriving DecidableEq, Repr

/-- The headers, and `lfree`. -/
structure Heap where
  ram   : Nat → Mem
  lfree : Nat

namespace Heap

/-- `mem->next = next`. -/
def setNext (h : Heap) (mem next : Nat) : Heap :=
  { h with ram := Function.update h.ram mem { h.ram mem with next := next } }

/-- `mem->prev = prev`. -/
def setPrev (h : Heap) (mem prev : Nat) : Heap :=
  { h with ram := Function.update h.ram mem { h.ram mem with prev := prev } }

/-- `mem->used = used`. -/
def setUsed (h : Heap) (mem : Nat) (used : Bool) : Heap :=
  { h with ram := Function.update h.ram mem { h.ram mem with used := used } }

end Heap

section
variable (cfg : MemConfig)

/-- A difference of `size_t`s, of 32 bits. -/
def sizeSub (a b : Nat) : Nat := (a + 2 ^ 32 - b) % 2 ^ 32

/-- `mem_init`, in memory that holds anything. -/
def memInit (ram : Nat → Mem) : Heap :=
  { ram := Function.update (Function.update ram 0 ⟨cfg.memSizeAligned, 0, false⟩) cfg.memSizeAligned
      ⟨cfg.memSizeAligned, cfg.memSizeAligned, true⟩,
    lfree := 0 }

/-- The first half of `plug_holes`: a free block after `mem` becomes part of it. -/
def plugForward (h : Heap) (mem : Nat) : Heap :=
  let nmem := (h.ram mem).next
  if mem ≠ nmem ∧ (h.ram nmem).used = false ∧ nmem ≠ cfg.memSizeAligned then
    let h := if h.lfree = nmem then { h with lfree := mem } else h
    let h := h.setNext mem (h.ram nmem).next
    h.setPrev (h.ram nmem).next mem
  else h

/-- The second half: `mem` becomes part of a free block before it. -/
def plugBackward (h : Heap) (mem : Nat) : Heap :=
  let pmem := (h.ram mem).prev
  if pmem ≠ mem ∧ (h.ram pmem).used = false then
    let h := if h.lfree = mem then { h with lfree := pmem } else h
    let h := h.setNext pmem (h.ram mem).next
    h.setPrev (h.ram mem).next pmem
  else h

/-- `plug_holes`. -/
def plugHoles (h : Heap) (mem : Nat) : Heap := plugBackward (plugForward cfg h mem) mem

/-- `mem_free`; `none` is `NULL`. -/
def memFree (h : Heap) : Option Nat → Heap
  | none      => h
  | some rmem =>
      if cfg.memSizeAligned ≤ rmem then h
      else
        let mem := rmem - cfg.sizeofStructMem
        let h := h.setUsed mem false
        let h := if mem < h.lfree then { h with lfree := mem } else h
        plugHoles cfg h mem

/-- The size that a request is rounded to, as `mem_malloc` and `mem_trim` do it. -/
def roundSize (size : Nat) : Nat :=
  let size := cfg.toMemSize (lwipMemAlignSize cfg.memAlignment (cfg.toMemSize size))
  if size < cfg.minSizeAligned then cfg.minSizeAligned else size

/-- `mem_trim`: the heap, and the pointer returned. -/
def memTrim (h : Heap) (rmem newsize : Nat) : Heap × Option Nat :=
  let newsize := roundSize cfg newsize
  if cfg.memSizeAligned < newsize then (h, none)
  else if cfg.memSizeAligned ≤ rmem then (h, some rmem)
  else
    let mem := rmem - cfg.sizeofStructMem
    let ptr := mem
    let size := cfg.toMemSize (sizeSub (sizeSub (h.ram mem).next ptr) cfg.sizeofStructMem)
    if size < newsize then (h, none)
    else if newsize = size then (h, some rmem)
    else
      let mem2 := (h.ram mem).next
      let ptr2 := cfg.toMemSize (ptr + cfg.sizeofStructMem + newsize)
      if (h.ram mem2).used = false then
        let next := (h.ram mem2).next
        let h := if h.lfree = mem2 then { h with lfree := ptr2 } else h
        let h := h.setUsed ptr2 false
        let h := h.setNext ptr2 next
        let h := h.setPrev ptr2 ptr
        let h := h.setNext mem ptr2
        (if (h.ram ptr2).next ≠ cfg.memSizeAligned then h.setPrev (h.ram ptr2).next ptr2 else h, some rmem)
      else if newsize + cfg.sizeofStructMem + cfg.minSizeAligned ≤ size then
        let h := if ptr2 < h.lfree then { h with lfree := ptr2 } else h
        let h := h.setUsed ptr2 false
        let h := h.setNext ptr2 (h.ram mem).next
        let h := h.setPrev ptr2 ptr
        let h := h.setNext mem ptr2
        (if (h.ram ptr2).next ≠ cfg.memSizeAligned then h.setPrev (h.ram ptr2).next ptr2 else h, some rmem)
      else (h, some rmem)

/-- The user data size of the block at `ptr`. -/
def userSize (ram : Nat → Mem) (ptr : Nat) : Nat := sizeSub (ram ptr).next (ptr + cfg.sizeofStructMem)

/-- The scan of `mem_malloc` for a free block that is big enough. -/
def scanFree (ram : Nat → Mem) (size : Nat) : Nat → Nat → Option Nat
  | 0,        _   => none
  | fuel + 1, ptr =>
      if ptr < cfg.memSizeAligned - size then
        if (ram ptr).used = false ∧ size ≤ userSize cfg ram ptr then some ptr
        else scanFree ram size fuel (ram ptr).next
      else none

/-- The search of `mem_malloc` for the next free block after `cur`. -/
def nextFree (ram : Nat → Mem) : Nat → Nat → Nat
  | 0,        cur => cur
  | fuel + 1, cur =>
      if (ram cur).used = true ∧ cur ≠ cfg.memSizeAligned then nextFree ram fuel (ram cur).next else cur

/-- The body of the scan for the block at `ptr` that was found: split it if the rest is worth it, mark it used. -/
def takeBlock (h : Heap) (size ptr : Nat) : Heap :=
  if size + cfg.sizeofStructMem + cfg.minSizeAligned ≤ userSize cfg h.ram ptr then
    let ptr2 := cfg.toMemSize (ptr + cfg.sizeofStructMem + size)
    let h := h.setUsed ptr2 false
    let h := h.setNext ptr2 (h.ram ptr).next
    let h := h.setPrev ptr2 ptr
    let h := h.setNext ptr ptr2
    let h := h.setUsed ptr true
    if (h.ram ptr2).next ≠ cfg.memSizeAligned then h.setPrev (h.ram ptr2).next ptr2 else h
  else h.setUsed ptr true

/-- `mem_malloc_adjust_lfree`. -/
def adjustLfree (h : Heap) (mem : Nat) : Heap :=
  if mem = h.lfree then { h with lfree := nextFree cfg h.ram (cfg.memSizeAligned + 1) h.lfree } else h

/-- `mem_malloc`: the heap, and the pointer returned. -/
def memMalloc (h : Heap) (size : Nat) : Heap × Option Nat :=
  if cfg.toMemSize size = 0 then (h, none)
  else
    let size := roundSize cfg size
    if cfg.memSizeAligned < size then (h, none)
    else
      match scanFree cfg h.ram size (cfg.memSizeAligned + 1) h.lfree with
      | some ptr => (adjustLfree cfg (takeBlock cfg h size ptr) ptr, some (ptr + cfg.sizeofStructMem))
      | none     => (h, none)

end

/-! ## Clients -/

/-- What a client does. -/
inductive MemAct where
  | malloc (size : Nat)
  | free (rmem : Nat)
  | trim (rmem newsize : Nat)
  | store (rmem x : Nat) (m : Mem)

/-- The blocks that clients hold, each with the bytes it may use: those asked for, rounded as `mem_malloc` and
    `mem_trim` do. -/
abbrev Live := List (Nat × Nat)

/-- The clients hold `rmem`. -/
def Live.Holds (live : Live) (rmem : Nat) : Prop := rmem ∈ live.map Prod.fst

instance (live : Live) (rmem : Nat) : Decidable (live.Holds rmem) := inferInstanceAs (Decidable (_ ∈ _))

/-- A header read at `x` overlaps the `n` bytes at `rmem`. -/
def Overlaps (cfg : MemConfig) (rmem n x : Nat) : Prop := rmem < x + cfg.sizeofStructMem ∧ x < rmem + n

instance (cfg : MemConfig) (rmem n x : Nat) : Decidable (Overlaps cfg rmem n x) := inferInstanceAs (Decidable (_ ∧ _))

/-- A block was handed out, or not. -/
def Live.malloc (live : Live) (rmem : Option Nat) (size : Nat) : Live :=
  match rmem with
  | some p => (p, size) :: live
  | none   => live

/-- A block was given back. -/
def Live.free (live : Live) (rmem : Nat) : Live := live.filter fun b => b.1 ≠ rmem

/-- A block was shrunk, or not. -/
def Live.trim (live : Live) (rmem : Nat) (r : Option Nat) (size : Nat) : Live :=
  if r.isSome then live.map fun b => if b.1 = rmem then (rmem, size) else b else live

/-- The heap, and what its clients hold. -/
structure MemSys where
  heap : Heap
  live : Live

/-- One call, or one write by a client. -/
def memStep (cfg : MemConfig) (s : MemSys) : MemAct → Option MemSys
  | .malloc size =>
      let r := memMalloc cfg s.heap size
      some { heap := r.1, live := s.live.malloc r.2 (roundSize cfg size) }
  | .free rmem =>
      if s.live.Holds rmem then some { heap := memFree cfg s.heap (some rmem), live := s.live.free rmem } else none
  | .trim rmem newsize =>
      let r := memTrim cfg s.heap rmem newsize
      if s.live.Holds rmem then some { heap := r.1, live := s.live.trim rmem r.2 (roundSize cfg newsize) } else none
  | .store rmem x m =>
      if ∃ b ∈ s.live, b.1 = rmem ∧ Overlaps cfg rmem b.2 x then
        some { s with heap := { s.heap with ram := Function.update s.heap.ram x m } }
      else none

/-- The heap after `mem_init`. -/
def MemSys.init (cfg : MemConfig) (ram : Nat → Mem) : MemSys := { heap := memInit cfg ram, live := [] }

end ThirdParty.Lwip
