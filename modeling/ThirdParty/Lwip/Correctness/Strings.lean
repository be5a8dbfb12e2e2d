import ThirdParty.Lwip.Correctness.Contents

/-!
# `Lwip.Correctness.Strings` — packets as strings, in any run

To its holder a packet is a string. `PbufAct.outcome` says which packet a call is about, and what it says afterwards;
`PbufAct.changes` are the pbufs through which other packets could see the call. A packet that has none of them says what
it said before.
-/

namespace ThirdParty.Lwip

open Lib

/-- The pbufs whose pointers or bytes a call may change. -/
def PbufAct.changes (s : Packets) : PbufAct → List Nat
  | .cat h _     => s.chain h
  | .chain h _   => s.chain h
  | .dechain p   => [p]
  | .realloc p _ => s.chain p
  | .header p _  => [p]
  | .refer p _   => [p]
  | .copy pTo _  => s.chain pTo
  | .take p _    => s.chain p
  | _            => []

/-- The packet that a call is about, and what it says afterwards. -/
def PbufAct.outcome (cfg : PbufConfig) (s : Packets) : PbufAct → Option (Nat × List Byte)
  | .cat h t          => some (h, s.bytes h ++ s.bytes t)
  | .chain h t        => some (h, s.bytes h ++ s.bytes t)
  | .dechain p        => some (p, s.payload p)
  | .realloc p newLen => some (p, (s.bytes p).take newLen)
  | .header p inc     => some (p, if (pbufHeader cfg s p inc).2 then s.headed p inc else s.bytes p)
  | .take p bs        => some (p, if bs.length ≤ (s.bytes p).length then overwrite (s.bytes p) 0 bs else s.bytes p)
  | .copy pTo pFrom   =>
      if (pbufCopy s pTo pFrom).2 = .ok then some (pTo, overwrite (s.bytes pTo) 0 (s.bytes pFrom)) else none
  | _                 => none

section
variable {cfg : PbufConfig} {missing : Nat → Nat} {s s' : Packets} {held : List Nat} {p q : Nat}

theorem pbufRef_next (s : Packets) (p : Nat) : (pbufRef s p).next = s.next := by
  rw [pbufRef, s.setRef_eq]
  exact Packets.next_withCounts

theorem pbufRef_payload (s : Packets) (p q : Nat) : (pbufRef s p).payload q = s.payload q := by
  rw [pbufRef, s.setRef_eq]
  exact Packets.payload_congr rfl rfl rfl

theorem PacketInv.cat_other {x t : Nat} (h : PacketInv cfg s held) (hx : x ∈ s.live) (ht : t ∈ s.live)
    (hjoin : Joinable s x t)
    (hq : q ∉ s.chain x) : (pbufCat s x t).next q = s.next q ∧ (pbufCat s x t).payload q = s.payload q := by
  obtain ⟨ps, l, hchain, -, -, hcat⟩ := h.pbufCat_eq hx ht hjoin
  rw [hchain] at hq
  have hpbuf : (pbufCat s x t).pbuf q = s.pbuf q := by
    rw [hcat]
    exact if_neg hq
  refine ⟨by rw [Packets.next, hpbuf]; rfl, Packets.payload_congr (by rw [hpbuf]) (by rw [hpbuf]) ?_⟩
  rw [hcat]
  rfl

/-- The written packet, as one string. -/
theorem Copied.bytes {bs : List Byte} {i : Nat} (h : Copied s s' (s.chain p) i bs) (hlive : s'.live = s.live) :
    s'.bytes p = overwrite (s.bytes p) i bs := by
  have hchain : s'.chain p = s.chain p := by
    unfold Packets.chain Packets.next
    rw [h.pbuf, hlive]
  rw [Packets.bytes_eq_text, hchain, h.text]
  rfl

theorem Copied.other {ps : List Nat} {bs : List Byte} {i : Nat} (h : Copied s s' ps i bs)
    (hplaced : Placed cfg s q) (hq : q ∉ ps) :
    s'.next q = s.next q ∧ s'.payload q = s.payload q := by
  refine ⟨by rw [Packets.next, h.pbuf]; rfl, h.others q fun t ht => hplaced.block_ne fun heq => hq (heq ▸ ht)⟩

end

variable {cfg : PbufConfig} {s s' : PbufSys} {act : PbufAct} {tr tr' : List (PbufSys × PbufAct)} {p q x : Nat}

/-- **A call leaves the other pbufs as they are.** -/
theorem packetStep_other (h : PacketInv cfg s.packets s.held) (hs : pbufStep cfg s act = some s')
    (hq : q ∈ s.packets.live)
    (hother : q ∉ act.changes s.packets) :
    s'.packets.next q = s.packets.next q ∧ s'.packets.payload q = s.packets.payload q := by
  have hlive : ∀ p ∈ s.held, p ∈ s.packets.live := h.exact.points
  cases act with
  | alloc l length type mallocs =>
      simp only [pbufStep] at hs
      split at hs
      · next hok =>
          obtain rfl := Option.some.inj hs
          have halloc := h.alloc type hok.1 hok.2.1 hok.2.2
          dsimp only
          generalize pbufAlloc cfg s.packets l length type mallocs = o at halloc
          cases halloc with
          | given keeps inv new total => exact ⟨keeps.next hq, keeps.payload hq⟩
          | refused keeps inv => exact ⟨keeps.next hq, keeps.payload hq⟩
      · cases hs
  | ref p =>
      simp only [pbufStep] at hs
      split at hs
      · obtain rfl := Option.some.inj hs
        exact ⟨congrFun (pbufRef_next s.packets p) q, pbufRef_payload s.packets p q⟩
      · cases hs
  | free p =>
      simp only [pbufStep] at hs
      split at hs
      · next hok =>
          obtain rfl := Option.some.inj hs
          exact ⟨congrFun (h.free_next (hlive p hok)) q, h.free_payload (hlive p hok) q⟩
      · cases hs
  | cat x t =>
      simp only [pbufStep] at hs
      split at hs
      · next hok =>
          obtain rfl := Option.some.inj hs
          exact h.cat_other (hlive x hok.1) (hlive t hok.2.1) hok.2.2 hother
      · cases hs
  | chain x t =>
      simp only [pbufStep] at hs
      split at hs
      · next hok =>
          obtain rfl := Option.some.inj hs
          obtain ⟨hnext, hpayload⟩ := h.cat_other (hlive x hok.1) (hlive t hok.2.1) hok.2.2.1 hother
          dsimp only [pbufChain]
          rw [pbufRef_next, pbufRef_payload]
          exact ⟨hnext, hpayload⟩
      · cases hs
  | dechain p =>
      simp only [pbufStep] at hs
      split at hs
      · next hok =>
          obtain rfl := Option.some.inj hs
          obtain ⟨hnext, hpayload⟩ := h.dechain_effect (hlive p hok.1) hok.2
          dsimp only
          rw [hnext, Function.update_of_ne fun heq => hother (by rw [heq]; exact List.mem_singleton_self p)]
          exact ⟨rfl, hpayload q⟩
      · cases hs
  | realloc p newLen =>
      simp only [pbufStep] at hs
      split at hs
      · next hok =>
          obtain rfl := Option.some.inj hs
          exact (h.realloc_effect hok.1 hok.2 newLen).1 q hother
      · cases hs
  | header p inc =>
      simp only [pbufStep] at hs
      split at hs
      · next hok =>
          obtain rfl := Option.some.inj hs
          have hqp : q ≠ p := fun heq => hother (by rw [heq]; exact List.mem_singleton_self p)
          dsimp only
          rcases h.header_cases (hlive p hok.1) hok.2.2 with heq | ⟨-, heq⟩ | ⟨heq, -, -⟩
          · rw [heq]
            exact ⟨rfl, rfl⟩
          · rw [heq]
            exact ⟨rfl, rfl⟩
          · rw [heq, Packets.moveHeader_next]
            exact ⟨rfl, Packets.payload_put_of_ne hqp⟩
      · cases hs
  | refer p a =>
      simp only [pbufStep] at hs
      split at hs
      · obtain rfl := Option.some.inj hs
        have hqp : q ≠ p := fun heq => hother (by rw [heq]; exact List.mem_singleton_self p)
        dsimp only
        rw [Packets.next_put, Function.update_of_ne hqp]
        exact ⟨rfl, Packets.payload_put_of_ne hqp⟩
      · cases hs
  | copy pTo pFrom =>
      simp only [pbufStep] at hs
      split at hs
      · next hok =>
          obtain rfl := Option.some.inj hs
          obtain ⟨n, hcopied, -⟩ := h.copied (hlive pTo hok.1) (hlive pFrom hok.2.1) hok.2.2.1 hok.2.2.2
          exact hcopied.other (h.placed q hq) hother
      · cases hs
  | take p bs =>
      simp only [pbufStep] at hs
      split at hs
      · next hok =>
          obtain rfl := Option.some.inj hs
          exact (h.taken bs (hlive p hok.1) hok.2).other (h.placed q hq) hother
      · cases hs
  | coalesce p l mallocs =>
      simp only [pbufStep] at hs
      split at hs
      · next hok =>
          obtain rfl := Option.some.inj hs
          exact h.coalesce_effect (hlive p hok.1) hok.2.1 hok.2.2 hq
      · cases hs

/-- A packet that has no part in a call. -/
theorem packetStep_stays (h : PacketInv cfg s.packets s.held) (hs : pbufStep cfg s act = some s')
    (hx : x ∈ s.packets.live)
    (hx' : x ∈ s'.packets.live) (hother : ∀ q ∈ act.changes s.packets, q ∉ s.packets.chain x) :
    s'.packets.bytes x = s.packets.bytes x := by
  have hframe : ∀ q ∈ s.packets.chain x, s'.packets.next q = s.packets.next q ∧
      s'.packets.payload q = s.packets.payload q :=
    fun q hq => packetStep_other h hs (h.chain_live hx q hq) fun hmem => hother q hmem hq
  exact h.bytes_congr (packetInv_step h hs) hx hx' (fun q hq => (hframe q hq).1) fun q hq => (hframe q hq).2

variable {pbuf : Nat → Pbuf} {size : Nat → Nat} {data : Option Nat → Lib.Mem} {bs : List Byte}

/-- **A packet stays what it is.** From any point of any run of clients, a packet that is still allocated says what
    it said there, as long as no call changed one of its pbufs, whatever was allocated, shared, split, freed or
    written besides. -/
theorem packet_stays (hrun : Run (pbufStep cfg) (PbufSys.init pbuf size data) tr s)
    (hlater : Run (pbufStep cfg) s tr' s')
    (hkept : ∀ e ∈ tr', x ∈ e.1.packets.live ∧ ∀ q ∈ e.2.changes e.1.packets, q ∉ e.1.packets.chain x)
    (hx : x ∈ s'.packets.live) : s'.packets.bytes x = s.packets.bytes x := by
  have h := packetInv_run hrun
  induction hlater with
  | nil => rfl
  | @snoc tr' t t' act hlater hs ih =>
      obtain ⟨hxt, hother⟩ := hkept (t, act) (by simp)
      have ht := hlater.invariant (I := fun s => PacketInv cfg s.packets s.held) h packetInv_step
      rw [packetStep_stays ht hs hxt hx hother]
      exact ih (fun e he => hkept e (List.mem_append_left _ he)) hxt

/-- **Every call is an operation on the string of its packet.** Wherever a run of clients has got to, and however the
    packets are split into pbufs there: `pbuf_cat` and `pbuf_chain` put two strings together, `pbuf_dechain` leaves the
    payload of the first pbuf, `pbuf_realloc` the beginning, `pbuf_header` hides or reveals bytes at the front or does
    nothing, and `pbuf_take` and a complete `pbuf_copy` write over the beginning. -/
theorem packet_outcome (hrun : Run (pbufStep cfg) (PbufSys.init pbuf size data) tr s)
    (hs : pbufStep cfg s act = some s')
    (hout : act.outcome cfg s.packets = some (p, bs)) : s'.packets.bytes p = bs := by
  have h := packetInv_run hrun
  have hlive : ∀ p ∈ s.held, p ∈ s.packets.live := h.exact.points
  cases act with
  | alloc _ _ _ _ => cases hout
  | ref _ => cases hout
  | free _ => cases hout
  | refer _ _ => cases hout
  | coalesce _ _ _ => cases hout
  | cat x t =>
      obtain ⟨rfl, rfl⟩ := Prod.mk.inj (Option.some.inj hout)
      simp only [pbufStep] at hs
      split at hs
      · next hok =>
          obtain rfl := Option.some.inj hs
          obtain ⟨hx, ht, hjoin⟩ := hok
          exact h.cat_bytes (hlive x hx) (hlive t ht) hjoin (PacketInv.cat (h.split ht) (hlive x hx) hjoin)
      · cases hs
  | chain x t =>
      obtain ⟨rfl, rfl⟩ := Prod.mk.inj (Option.some.inj hout)
      have h' := packetInv_step h hs
      simp only [pbufStep] at hs
      split at hs
      · next hok =>
          obtain rfl := Option.some.inj hs
          obtain ⟨hx, ht, hjoin, -⟩ := hok
          have hcat := PacketInv.cat (h.split ht) (hlive x hx) hjoin
          have hxlive : x ∈ (pbufCat s.packets x t).live := by
            obtain ⟨ps, l, -, -, -, heq⟩ := h.pbufCat_eq (hlive x hx) (hlive t ht) hjoin
            rw [heq]
            exact hlive x hx
          rw [← h.cat_bytes (hlive x hx) (hlive t ht) hjoin hcat]
          exact hcat.bytes_congr h' hxlive hxlive (fun q _ => congrFun (pbufRef_next _ t) q) fun q _ =>
            pbufRef_payload _ t q
      · cases hs
  | dechain x =>
      obtain ⟨rfl, rfl⟩ := Prod.mk.inj (Option.some.inj hout)
      simp only [pbufStep] at hs
      split at hs
      · next hok =>
          obtain rfl := Option.some.inj hs
          exact h.dechain_bytes hok.1 hok.2
      · cases hs
  | realloc x newLen =>
      obtain ⟨rfl, rfl⟩ := Prod.mk.inj (Option.some.inj hout)
      simp only [pbufStep] at hs
      split at hs
      · next hok =>
          obtain rfl := Option.some.inj hs
          exact (h.realloc_effect hok.1 hok.2 newLen).2
      · cases hs
  | header x inc =>
      obtain ⟨rfl, rfl⟩ := Prod.mk.inj (Option.some.inj hout)
      simp only [pbufStep] at hs
      split at hs
      · next hok =>
          obtain rfl := Option.some.inj hs
          exact h.header_bytes hok.1 hok.2.1 hok.2.2
      · cases hs
  | take x ys =>
      obtain ⟨rfl, rfl⟩ := Prod.mk.inj (Option.some.inj hout)
      simp only [pbufStep] at hs
      split at hs
      · next hok =>
          obtain rfl := Option.some.inj hs
          obtain ⟨data, hdata⟩ := pbufTake_setData s.packets x ys
          have hbytes := (h.taken ys (hlive x hok.1) hok.2).bytes (by rw [hdata])
          dsimp only
          rw [hbytes]
          split
          · rfl
          · exact overwrite_nil _ _
      · cases hs
  | copy pTo pFrom =>
      simp only [PbufAct.outcome] at hout
      split at hout
      · next hdone =>
          obtain ⟨rfl, rfl⟩ := Prod.mk.inj (Option.some.inj hout)
          simp only [pbufStep] at hs
          split at hs
          · next hok =>
              obtain rfl := Option.some.inj hs
              obtain ⟨n, hcopied, hall⟩ := h.copied (hlive pTo hok.1) (hlive pFrom hok.2.1) hok.2.2.1 hok.2.2.2
              obtain ⟨data, hdata⟩ := pbufCopy_setData s.packets pTo pFrom
              rw [List.take_of_length_le (hall hdone)] at hcopied
              exact hcopied.bytes (by rw [hdata])
          · cases hs
      · cases hout

/-- **`pbuf_coalesce` keeps the packet, if it does not end with an empty pbuf.** Its copy into the new pbuf returns
    `ERR_OK` exactly if the last pbuf of the chain has bytes, and then the new pbuf says what the chain said. -/
theorem coalesce_keeps_packet {m : Packets} {l : PbufLayer} {mallocs : List Nat}
    (hrun : Run (pbufStep cfg) (PbufSys.init pbuf size data) tr s) (hp : p ∈ s.held) (hnext : s.packets.next p ≠ none)
    (hfresh : s.packets.Fresh mallocs) (hram : cfg.ramSize l (s.packets.pbuf p).totLen < 65536)
    (halloc : pbufAlloc cfg s.packets l (s.packets.pbuf p).totLen .ram mallocs = (m, some q)) :
    ((pbufCopy m q p).2 = .ok ↔ s.packets.EndsFull (s.packets.chain p)) ∧
      (s.packets.EndsFull (s.packets.chain p) → (pbufCoalesce cfg s.packets p l mallocs).2 = q ∧
        (pbufCoalesce cfg s.packets p l mallocs).1.bytes q = s.packets.bytes p) := by
  have h : PacketInv cfg s.packets (p :: s.held.erase p) := (packetInv_run hrun).split hp
  have hlive := h.exact.points p List.mem_cons_self
  have hok := (h.coalescing hlive hfresh hram halloc).copy_ok h hlive hnext
  exact ⟨hok, fun hfull => h.coalesce_bytes hfresh hram hnext halloc (hok.mpr hfull)⟩

/-- A packet of one pbuf is written, and others are allocated, written, linked and freed. -/
theorem packet_stays_busy :
    (afterCalls ([.alloc .raw 5 .ram [1], .take 1 [1, 2, 3, 4, 5]] ++
      [.alloc .raw 70 .pool [2, 3, 4], .alloc .raw 4 .ram [5], .cat 2 5, .take 2 [7, 7], .ref 1, .realloc 2 9, .free 2,
        .free 1])).packets.bytes 1 =
      (afterCalls [.alloc .raw 5 .ram [1], .take 1 [1, 2, 3, 4, 5]]).packets.bytes 1 := by
  refine packet_stays (afterCalls_run _ (by decide +kernel))
      (afterCalls_later (by decide +kernel) (by decide +kernel)) ?_
    (by decide +kernel)
  decide +kernel

/-- A packet of two pbufs is cut off in the first one. -/
theorem packet_outcome_cut :
    (afterCalls ([.alloc .raw 70 .pool [1, 2]] ++ [.realloc 1 7])).packets.bytes 1 =
      ((afterCalls [.alloc .raw 70 .pool [1, 2]]).packets.bytes 1).take 7 :=
  packet_outcome (afterCalls_run _ (by decide +kernel)) (afterCalls_step (by decide +kernel) (by decide +kernel)) rfl

/-- A pool with one packet, of three pbufs. -/
def threePbufs : List PbufAct := [.alloc .raw 130 .pool [1, 2, 3]]

theorem coalesce_keeps_packet_three :
    (pbufCoalesce smallPbufs (afterCalls threePbufs).packets 1 .raw [9]).1.bytes 9 =
    (afterCalls threePbufs).packets.bytes 1 := by
  have hrun : Run (pbufStep smallPbufs) noPbufs _ (afterCalls threePbufs) := afterCalls_run _ (by decide +kernel)
  have hlast : ((afterCalls threePbufs).packets.chain 1).getLast? = some 3 := by decide +kernel
  refine ((coalesce_keeps_packet hrun (by decide +kernel) (by decide +kernel) (by decide +kernel)
    (by decide +kernel) rfl).2
    fun x hx => ?_).2
  rw [hlast] at hx
  obtain rfl := Option.some.inj hx
  decide +kernel

end ThirdParty.Lwip
