import ThirdParty.Lwip.Correctness.Packets

/-!
# `Lwip.Correctness.References` — which pbufs are allocated, in any run

The clients of `pbuf.c` share chains, hang them together, take them apart and give their references back in any order.
`Formed` holds after every call, and with it the two promises of `pbuf.h`; a pbuf is allocated exactly as long as some
reference leads to it.
-/

namespace ThirdParty.Lwip

open Lib

variable {cfg : PbufConfig} {s s' : PbufSys} {act : PbufAct} {tr : List (PbufSys × PbufAct)}

theorem Formed.perm {missing : Nat → Nat} {m : Packets} {held held' : List Nat} (h : Formed cfg missing m held)
    (hperm : held.Perm held') : Formed cfg missing m held' :=
  ⟨h.exact.perm hperm, h.ref_lt, h.total, h.total_lt, h.placed⟩

/-- A reference that is held is taken out of the others. -/
theorem Formed.split {missing : Nat → Nat} {m : Packets} {held : List Nat} {p : Nat} (h : Formed cfg missing m held)
    (hp : p ∈ held) : Formed cfg missing m (p :: held.erase p) :=
  h.perm (List.perm_cons_erase hp)

/-- **Every call keeps the pbufs well formed.** -/
theorem packetInv_step (h : PacketInv cfg s.packets s.held) (hs : pbufStep cfg s act = some s') :
    PacketInv cfg s'.packets s'.held := by
  have hlive : ∀ p ∈ s.held, p ∈ s.packets.live := h.exact.points
  cases act with
  | alloc l length type mallocs =>
      simp only [pbufStep] at hs
      split at hs
      · next hok =>
          obtain rfl := Option.some.inj hs
          have halloc := h.alloc type hok.1 hok.2.1 hok.2.2
          dsimp only
          generalize pbufAlloc cfg s.packets l length type mallocs = o at halloc
          cases halloc with
          | given keeps inv new total => exact inv
          | refused keeps inv => exact inv
      · cases hs
  | ref p =>
      simp only [pbufStep] at hs
      split at hs
      · next hok =>
          obtain rfl := Option.some.inj hs
          exact h.ref (hlive p hok.1) hok.2
      · cases hs
  | free p =>
      simp only [pbufStep] at hs
      split at hs
      · next hok =>
          obtain rfl := Option.some.inj hs
          exact (h.split hok).free
      · cases hs
  | cat x t =>
      simp only [pbufStep] at hs
      split at hs
      · next hok =>
          obtain rfl := Option.some.inj hs
          exact PacketInv.cat (h.split hok.2.1) (hlive x hok.1) hok.2.2
      · cases hs
  | chain x t =>
      simp only [pbufStep] at hs
      split at hs
      · next hok =>
          obtain ⟨hx, ht, hjoin, hlt⟩ := hok
          obtain rfl := Option.some.inj hs
          have hcat := PacketInv.cat (h.split ht) (hlive x hx) hjoin
          obtain ⟨ps, l, -, -, htnot, heq⟩ := h.pbufCat_eq (hlive x hx) (hlive t ht) hjoin
          -- `t` itself is as it was
          have hsame : (pbufCat s.packets x t).pbuf t = s.packets.pbuf t := by
            rw [heq]
            exact if_neg htnot
          have htlive : t ∈ (pbufCat s.packets x t).live := by
            rw [heq]
            exact hlive t ht
          exact (hcat.ref htlive (by rw [hsame]; exact hlt)).perm (List.perm_cons_erase ht).symm
      · cases hs
  | dechain p =>
      simp only [pbufStep] at hs
      split at hs
      · next hok =>
          obtain rfl := Option.some.inj hs
          exact h.dechain (hlive p hok.1) hok.2
      · cases hs
  | realloc p newLen =>
      simp only [pbufStep] at hs
      split at hs
      · next hok =>
          obtain rfl := Option.some.inj hs
          exact h.realloc (hlive p hok.1) hok.2 newLen
      · cases hs
  | header p inc =>
      simp only [pbufStep] at hs
      split at hs
      · next hok =>
          obtain rfl := Option.some.inj hs
          exact h.header (hlive p hok.1) hok.2.1 hok.2.2
      · cases hs
  | refer p a =>
      simp only [pbufStep] at hs
      split at hs
      · next hok =>
          obtain rfl := Option.some.inj hs
          exact h.refer (hlive p hok.1) hok.2 a
      · cases hs
  | copy pTo pFrom =>
      simp only [pbufStep] at hs
      split at hs
      · obtain rfl := Option.some.inj hs
        obtain ⟨data, hdata⟩ := pbufCopy_setData s.packets pTo pFrom
        dsimp only
        rw [hdata]
        exact h.setData data
      · cases hs
  | take p bs =>
      simp only [pbufStep] at hs
      split at hs
      · obtain rfl := Option.some.inj hs
        obtain ⟨data, hdata⟩ := pbufTake_setData s.packets p bs
        dsimp only
        rw [hdata]
        exact h.setData data
      · cases hs
  | coalesce p l mallocs =>
      simp only [pbufStep] at hs
      split at hs
      · next hok =>
          obtain rfl := Option.some.inj hs
          exact PacketInv.coalesce (h.split hok.1) hok.2.1 hok.2.2
      · cases hs

theorem packetInv_init (pbuf : Nat → Pbuf) (size : Nat → Nat) (data : Option Nat → Lib.Mem) :
    PacketInv cfg (PbufSys.init pbuf size data).packets (PbufSys.init pbuf size data).held where
  exact := ⟨List.nodup_nil, fun _ hp => absurd hp List.not_mem_nil, fun _ hp => absurd hp List.not_mem_nil,
    fun _ hp => absurd hp List.not_mem_nil, fun _ hp => absurd hp List.not_mem_nil⟩
  ref_lt _ hp := absurd hp List.not_mem_nil
  total _ hp := absurd hp List.not_mem_nil
  total_lt _ hp := absurd hp List.not_mem_nil
  placed _ hp := absurd hp List.not_mem_nil

variable {pbuf : Nat → Pbuf} {size : Nat → Nat} {data : Option Nat → Lib.Mem}

theorem packetInv_run (hrun : Run (pbufStep cfg) (PbufSys.init pbuf size data) tr s) : PacketInv cfg s.packets s.held :=
  hrun.invariant (I := fun s => PacketInv cfg s.packets s.held) (packetInv_init pbuf size data) packetInv_step

/-! ## The promises of `pbuf.h` -/

/-- **No pbuf is freed too early, and none is lost.** In every run of clients that share, chain and split packets, the
    pbufs that are allocated are those that a reference leads to. When every reference is given back, none is left. -/
theorem allocated_iff_reachable (hrun : Run (pbufStep cfg) (PbufSys.init pbuf size data) tr s) (p : Nat) :
    p ∈ s.packets.live ↔ ∃ x ∈ s.held, p ∈ s.packets.chain x := by
  have h := packetInv_run hrun
  rw [show p ∈ s.packets.live ↔ _ from h.exact.live_iff (p := p)]
  constructor
  · rintro ⟨x, hx, ps, hps, hp⟩
    refine ⟨x, hx, ?_⟩
    rw [h.chain_eq (h.exact.points x hx) hps]
    exact hp
  · rintro ⟨x, hx, hp⟩
    exact ⟨x, hx, s.packets.chain x, h.chained (h.exact.points x hx), hp⟩

theorem PacketInv.bytes_length {m : Packets} {held : List Nat} {p : Nat} (h : PacketInv cfg m held) (hp : p ∈ m.live) :
    (m.bytes p).length = (m.pbuf p).totLen := by
  rw [← h.total_sum hp, Packets.bytes, Packets.frags, List.length_flatten, List.map_map]
  congr 1
  refine List.map_congr_left fun q _ => ?_
  rw [Function.comp_apply, Packets.payload, Packets.load, bytesAt_length]

/-- **What `pbuf.h` says of a pbuf holds in every run.** Its reference count is the number of pointers to it, of clients
    and of other pbufs; its `tot_len` is the number of bytes from it to the end of the packet; and where the payload is
    its own, it lies behind the header and inside of the pbuf's block, so no two payloads overlap. -/
theorem pbuf_h_promises (hrun : Run (pbufStep cfg) (PbufSys.init pbuf size data) tr s) (p : Nat)
    (hp : p ∈ s.packets.live) :
    (s.packets.pbuf p).ref = s.held.count p + s.packets.live.countP (fun q => s.packets.next q = some p) ∧
    (s.packets.pbuf p).totLen = (s.packets.bytes p).length ∧
    ((s.packets.pbuf p).owns → (s.packets.pbuf p).payload.block = some p ∧
      cfg.sizeofStructPbuf ≤ (s.packets.pbuf p).payload.off ∧
      (s.packets.pbuf p).payload.off + (s.packets.pbuf p).len ≤ s.packets.size p) := by
  have h := packetInv_run hrun
  refine ⟨h.exact.counts p hp, (h.bytes_length hp).symm, fun ho => ?_⟩
  obtain ⟨hblock, hoff, hend, -⟩ := (h.placed p hp).inside ho
  exact ⟨hblock, hoff, hend⟩

/-! ## What `pbuf_dechain` returns -/

/-- The count of `pbuf_free`'s loop is the number of pbufs that went, and the first pbuf went if any did. -/
theorem pbufFreeLoop_count : ∀ {ps : List Nat} {m : Packets}, ps.Nodup → m.live.Nodup → (∀ p ∈ ps, p ∈ m.live) →
    (pbufFreeLoop ps m).1.live.length + (pbufFreeLoop ps m).2 = m.live.length ∧
      (∀ p ∈ (pbufFreeLoop ps m).1.live, p ∈ m.live) ∧
      ∀ p, ps.head? = some p → (p ∈ (pbufFreeLoop ps m).1.live ↔ (pbufFreeLoop ps m).2 = 0)
  | [],      m, _,      _,     _     => ⟨rfl, fun _ hp => hp, fun p hp => by cases hp⟩
  | p :: ps, m, hnodup, hmlive, hlive => by
      obtain ⟨hp, hps⟩ := List.nodup_cons.mp hnodup
      have hplive := hlive p List.mem_cons_self
      unfold pbufFreeLoop
      dsimp only
      split
      · obtain ⟨hcount, hold, -⟩ := pbufFreeLoop_count (m := (m.setRef p (toU16 ((m.pbuf p).ref - 1))).take p) hps
          (hmlive.erase p) fun q hq =>
            (List.mem_erase_of_ne (ne_of_mem_of_not_mem hq hp)).mpr (hlive q (List.mem_cons_of_mem p hq))
        have hlen : (m.live.erase p).length + 1 = m.live.length := by
          rw [List.length_erase_of_mem hplive, Nat.sub_add_cancel (List.length_pos_of_mem hplive)]
        refine ⟨by rw [← hlen, ← show _ = (m.live.erase p).length from hcount]; dsimp only; omega,
          fun q hq => List.mem_of_mem_erase (hold q hq), fun q hq => ?_⟩
        obtain rfl : p = q := Option.some.inj hq
        exact ⟨fun hmem => absurd (hold p hmem) hmlive.not_mem_erase, fun hzero => absurd hzero (Nat.succ_ne_zero _)⟩
      · refine ⟨rfl, fun q hq => hq, fun q hq => ?_⟩
        obtain rfl : p = q := Option.some.inj hq
        exact ⟨fun _ => rfl, fun _ => hplive⟩

/-- **`pbuf_dechain` tells whether the remainder is gone, unless 256 of its pbufs went, or a multiple of that.** The
    count of `pbuf_free` has 8 bits, so for those numbers a pointer to a pbuf that was deallocated is returned. -/
theorem dechain_tells_iff (hrun : Run (pbufStep cfg) (PbufSys.init pbuf size data) tr s) {p q : Nat} (hp : p ∈ s.held)
    (hheads : s.packets.Heads p) (hnext : s.packets.next p = some q) :
    ((pbufDechain s.packets p).2 = none ↔ q ∉ (pbufDechain s.packets p).1.live) ↔
      ¬(0 < s.packets.live.length - (pbufDechain s.packets p).1.live.length ∧
        256 ∣ s.packets.live.length - (pbufDechain s.packets p).1.live.length) := by
  have h := packetInv_run hrun
  have hlive := h.exact.points p hp
  obtain ⟨hshort, heq⟩ := h.dechain_cut hlive hheads hnext
  obtain ⟨m, hm⟩ : ∃ m, m = s.packets.shortened [] p (s.packets.pbuf p).len (s.packets.size p) := ⟨_, rfl⟩
  have hmlive : m.live = s.packets.live := by
    rw [hm]
    rfl
  rw [← hm, hnext] at hshort
  have hq : q ∈ m.live := hshort.exact.points q List.mem_cons_self
  have hpath := hshort.chained hq
  obtain ⟨rest, hrest, -⟩ := hpath.some_inv
  obtain ⟨hcount, -, hfirst⟩ := pbufFreeLoop_count hpath.nodup hshort.exact.nodup (hshort.chain_live hq)
  have hfree : pbufFree m q = ((pbufFreeLoop (m.chain q) m).1, toU8 (pbufFreeLoop (m.chain q) m).2) := rfl
  have hgone := hfirst q (by rw [hrest]; rfl)
  rw [heq, ← hm, hfree, ← hmlive, ← hcount, Nat.add_sub_cancel_left]
  dsimp only
  rw [hgone]
  generalize (pbufFreeLoop (m.chain q) m).2 = count
  unfold toU8
  split <;> simp <;> omega

/-! ## Runs on small pools -/

/-- Buffers of 60 bytes on a 32-bit machine. -/
def smallOpts : PbufOpts where
  memAlignment := 4
  sizeofPbuf   := 16
  linkHlen     := 14
  poolBufsize  := 60
  memSizeBits  := 16

theorem smallOpts_aligned : ∃ k, smallOpts.memAlignment = 2 ^ k := ⟨2, rfl⟩

theorem smallOpts_holds (l : PbufLayer) : smallOpts.align (smallOpts.offset l) < smallOpts.poolBufsizeAligned := by
  cases l <;> decide

theorem smallOpts_fits : smallOpts.sizeofStructPbuf + smallOpts.poolBufsizeAligned < 65536 := by decide

/-- A pool of these buffers. -/
def smallPbufs : PbufConfig := ⟨smallOpts, smallOpts_aligned, smallOpts_holds, smallOpts_fits, Nat.le_refl 16⟩

/-- No pbufs, and memory in which every byte is its offset. -/
def noPbufs : PbufSys :=
  PbufSys.init (fun _ => { next := none, payload := ⟨none, 0⟩, totLen := 9, len := 9, type := .rom, ref := 9 })
    (fun _ => 0)
    fun _ x => UInt8.ofNat x

/-- Where the calls `acts` lead from no pbufs at all. -/
def afterCalls (acts : List PbufAct) : PbufSys := (runActions (pbufStep smallPbufs) noPbufs acts).getD noPbufs

theorem afterCalls_eq {acts : List PbufAct} (h : (runActions (pbufStep smallPbufs) noPbufs acts).isSome = true) :
    runActions (pbufStep smallPbufs) noPbufs acts = some (afterCalls acts) := by
  obtain ⟨s, hs⟩ := Option.isSome_iff_exists.mp h
  rw [afterCalls, hs, Option.getD_some]

theorem afterCalls_run (acts : List PbufAct) (h : (runActions (pbufStep smallPbufs) noPbufs acts).isSome = true) :
    Run (pbufStep smallPbufs) noPbufs (executed (pbufStep smallPbufs) noPbufs acts) (afterCalls acts) :=
  Run.executed (afterCalls_eq h)

theorem afterCalls_later {acts acts' : List PbufAct} (h : (runActions (pbufStep smallPbufs) noPbufs acts).isSome = true)
    (h' : (runActions (pbufStep smallPbufs) noPbufs (acts ++ acts')).isSome = true) :
    Run (pbufStep smallPbufs) (afterCalls acts) (executed (pbufStep smallPbufs) (afterCalls acts) acts')
      (afterCalls (acts ++ acts')) := by
  have hall := afterCalls_eq h'
  rw [runActions_append, afterCalls_eq h, Option.bind_some] at hall
  exact Run.executed hall

theorem afterCalls_step {acts : List PbufAct} {act : PbufAct}
    (h : (runActions (pbufStep smallPbufs) noPbufs acts).isSome = true)
    (h' : (runActions (pbufStep smallPbufs) noPbufs (acts ++ [act])).isSome = true) :
    pbufStep smallPbufs (afterCalls acts) act = some (afterCalls (acts ++ [act])) := by
  have hall := afterCalls_eq h'
  rw [runActions_append, afterCalls_eq h, Option.bind_some] at hall
  obtain ⟨t, ht, hdone⟩ := Option.bind_eq_some_iff.mp hall
  rw [ht]
  exact hdone

/-- Two packets share a third one, which its client has given back. -/
def sharing : List PbufAct :=
  [.alloc .transport 70 .pool [1, 2, 3], .alloc .raw 5 .ram [4], .alloc .raw 4 .ram [5], .chain 4 5, .chain 1 5,
    .free 5]

theorem allocated_iff_reachable_shared : 5 ∈ (afterCalls sharing).packets.live ∧ 5 ∉ (afterCalls sharing).held :=
  ⟨(allocated_iff_reachable (afterCalls_run sharing (by decide +kernel)) 5).mpr
    ⟨1, by decide +kernel, by decide +kernel⟩,
    by decide +kernel⟩

theorem pbuf_h_promises_shared : ((afterCalls sharing).packets.pbuf 5).ref = 2 := by
  have h := (pbuf_h_promises (afterCalls_run sharing (by decide +kernel)) 5 (by decide +kernel)).1
  rw [h]
  decide +kernel

theorem dechain_tells_iff_shared :
    (pbufDechain (afterCalls sharing).packets 1).2 = none ↔ 2 ∉ (pbufDechain (afterCalls sharing).packets 1).1.live :=
  (dechain_tells_iff (afterCalls_run sharing (by decide +kernel)) (by decide +kernel) (by decide +kernel)
    (by decide +kernel)).mpr (by decide +kernel)

end ThirdParty.Lwip
