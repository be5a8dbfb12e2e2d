import ThirdParty.Lwip.Mem

/-!
# `Lwip.MemShared` — the heap with `LWIP_ALLOW_MEM_FREE_FROM_OTHER_CONTEXT`

With this option `mem_malloc` opens its protection in every round of its two loops, and `mem_free` and `mem_trim` may
then run, from an interrupt for instance. They set `mem_free_count`, and `mem_malloc` starts its loop again if it finds
that set. A second `mem_malloc` waits for the mutex. `MallocThread` is where the one that has the mutex stands; a step
takes it from one opening to the next.
-/

namespace ThirdParty.Lwip

/-- Where `mem_malloc` stands: it has returned, or it is in the opening of the scan at `ptr`, or in that of the
    search for the next free block at `cur`, with the block at `mem` taken. `size` is what was asked for. -/
inductive MallocThread where
  | returned (rmem : Option Nat)
  | scanning (size ptr : Nat)
  | adjusting (size mem cur : Nat)
  deriving DecidableEq

structure MemShared where
  heap         : Heap
  memFreeCount : Bool
  thread       : MallocThread
  live         : Live

section
variable (cfg : MemConfig) (s : MemShared)

/-- `mem_malloc` returns. -/
def MemShared.ret (rmem : Option Nat) (size : Nat) : MemShared :=
  { s with thread := .returned rmem, live := s.live.malloc rmem (roundSize cfg size) }

/-- The head of the scan, up to its opening. -/
def MemShared.scan (size ptr : Nat) : MemShared :=
  if ptr < cfg.memSizeAligned - roundSize cfg size then
    { s with memFreeCount := false, thread := .scanning size ptr }
  else s.ret cfg none size

/-- The head of the search for the next free block, up to its opening. -/
def MemShared.search (size mem cur : Nat) : MemShared :=
  if (s.heap.ram cur).used = true ∧ cur ≠ cfg.memSizeAligned then
    { s with memFreeCount := false, thread := .adjusting size mem cur }
  else { s with heap := { s.heap with lfree := cur } }.ret cfg (some (mem + cfg.sizeofStructMem)) size

/-- `mem_malloc_adjust_lfree`. -/
def MemShared.adjust (size mem : Nat) : MemShared :=
  if mem = s.heap.lfree then s.search cfg size mem s.heap.lfree
  else s.ret cfg (some (mem + cfg.sizeofStructMem)) size

/-- `mem_malloc` is called. -/
def MemShared.call (size : Nat) : MemShared :=
  if cfg.toMemSize size = 0 then s.ret cfg none size
  else if cfg.memSizeAligned < roundSize cfg size then s.ret cfg none size
  else s.scan cfg size s.heap.lfree

/-- `mem_malloc` goes on after an opening. -/
def MemShared.resume : Option MemShared :=
  match s.thread with
  | .returned _ => none
  | .scanning size ptr =>
      if s.memFreeCount then some (s.scan cfg size s.heap.lfree)
      else if (s.heap.ram ptr).used = false ∧ roundSize cfg size ≤ userSize cfg s.heap.ram ptr then
        some ({ s with heap := takeBlock cfg s.heap (roundSize cfg size) ptr }.adjust cfg size ptr)
      else some (s.scan cfg size (s.heap.ram ptr).next)
  | .adjusting size mem cur =>
      if s.memFreeCount then some (s.adjust cfg size mem) else some (s.search cfg size mem (s.heap.ram cur).next)

/-- `mem_trim` gets as far as its protection. -/
def memTrimProtects (h : Heap) (rmem newsize : Nat) : Bool :=
  let newsize := roundSize cfg newsize
  let mem := rmem - cfg.sizeofStructMem
  newsize ≤ cfg.memSizeAligned && rmem < cfg.memSizeAligned &&
    newsize < cfg.toMemSize (sizeSub (sizeSub (h.ram mem).next mem) cfg.sizeofStructMem)

end

/-- `mem_malloc` is called or goes on, or a client does something in an opening. -/
inductive SharedAct where
  | call (size : Nat)
  | resume
  | other (act : MemAct)

/-- The clients' part: everything but `mem_malloc`. -/
def MemShared.other (cfg : MemConfig) (s : MemShared) (act : MemAct) : Option MemShared :=
  let counts := match act with
    | .malloc _          => false
    | .free _            => true
    | .trim rmem newsize => memTrimProtects cfg s.heap rmem newsize
    | .store _ _ _       => false
  match act with
  | .malloc _ => none
  | _         => (memStep cfg ⟨s.heap, s.live⟩ act).map fun t =>
      { s with heap := t.heap, live := t.live, memFreeCount := s.memFreeCount || counts }

def sharedStep (cfg : MemConfig) (s : MemShared) : SharedAct → Option MemShared
  | .call size =>
      match s.thread with
      | .returned _ => some (s.call cfg size)
      | _           => none
  | .resume    => s.resume cfg
  | .other act => s.other cfg act

/-- The heap after `mem_init`. -/
def MemShared.init (cfg : MemConfig) (ram : Nat → Mem) : MemShared :=
  { heap := memInit cfg ram, memFreeCount := false, thread := .returned none, live := [] }

end ThirdParty.Lwip
