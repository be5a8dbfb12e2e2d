import ThirdParty.Lib.Ledger
import ThirdParty.Httpd.Server
import ThirdParty.Httpd.Correctness.Log

/-!
# `Httpd.Correctness.Resources` — what one callback does with slots and blocks

A callback works for one connection while the others own slots of the file table and blocks of the heap: `Rest`.
`Owning` says that the connection has its `http_state`, its buffer and its slot, and nothing of the others;
`Vacated` says that it has given all of it back. Parsing, opening, sending and buffer allocation lead from
`Owning` to `Owning`, closing leads to `Vacated`, and so each callback ends in one of the two.
-/

namespace ThirdParty.Httpd

open Lib Lwip

/-! ## Blocks -/

/-- The blocks of the heap. -/
inductive Key where
  | state (serial : Nat)
  | buf (serial : Nat)
  deriving DecidableEq

def Key.serial : Key → Nat
  | .state n => n
  | .buf n   => n

/-- The heap operation of an event. -/
def heapOps : Ev → List (HeapOp Key)
  | .mallocState n => [.alloc (.state n)]
  | .mallocBuf n   => [.alloc (.buf n)]
  | .useState n    => [.use (.state n)]
  | .freeState n   => [.free (.state n)]
  | .freeBuf n     => [.free (.buf n)]
  | _              => []

def heapTrace (log : List Ev) : List (HeapOp Key) := log.flatMap heapOps

@[simp] theorem heapTrace_append (l₁ l₂ : List Ev) : heapTrace (l₁ ++ l₂) = heapTrace l₁ ++ heapTrace l₂ :=
  List.flatMap_append

@[simp] theorem heapTrace_cons (e : Ev) (l : List Ev) : heapTrace (e :: l) = heapOps e ++ heapTrace l := rfl

@[simp] theorem heapTrace_nil : heapTrace [] = [] := rfl

/-- Events whose only heap operations are uses of the `http_state` with serial `n`. -/
def usesOnly (n : Nat) (e : Ev) : Bool := heapOps e = [] ∨ e = .useState n

theorem heapTrace_uses {n : Nat} {es : List Ev} (h : ∀ e ∈ es, usesOnly n e = true) :
    ∀ op ∈ heapTrace es, op = .use (.state n) := by
  intro op hop
  obtain ⟨e, he, hmem⟩ := List.mem_flatMap.mp hop
  rcases of_decide_eq_true (h e he) with hnil | rfl
  · rw [hnil] at hmem
    exact absurd hmem List.not_mem_nil
  · exact List.mem_singleton.mp hmem

theorem usesOnly_of_sends {p : Src → Bool} {n : Nat} {e : Ev} (h : sendsFrom p n e = true) : usesOnly n e = true := by
  cases e <;> first | rfl | exact absurd h Bool.false_ne_true | simpa [sendsFrom, usesOnly, heapOps] using h

theorem usesOnly_of_parses {pay : Bool} {n : Nat} {e : Ev} (h : parsesOnly pay n e = true) : usesOnly n e = true := by
  cases e <;> first | rfl | exact absurd h Bool.false_ne_true | simpa [parsesOnly, usesOnly, heapOps] using h

/-! ## Slots -/

theorem fsInUse_iff_flags (m : FsMemory) (i : Nat) : FsInUse m i ↔ (fsFlags m)[i]? = some true := by
  unfold FsInUse fsFlags
  rw [List.getElem?_map]
  cases m[i]? <;> simp

theorem fsInUse_close (m : FsMemory) (i j : Nat) : FsInUse (fsClose m i) j ↔ FsInUse m j ∧ j ≠ i := by
  unfold FsInUse fsClose fsFree
  rw [List.getElem?_modify]
  by_cases hj : i = j
  · subst hj
    cases m[i]? <;> simp
  · simp [hj, Ne.symm hj]

theorem fsInUse_open {m : FsMemory} {i : Nat} {t : FsTable} (ht : m[i]? = some t) (file : FsFile) (j : Nat) :
    FsInUse (m.modify i fun _ => ⟨file, true⟩) j ↔ FsInUse m j ∨ j = i := by
  unfold FsInUse
  rw [List.getElem?_modify]
  by_cases hj : i = j
  · subst hj
    simp [ht]
  · simp [hj, Ne.symm hj]

/-! ## Ownership during a callback -/

/-- The blocks of an `http_state`: itself and its buffer. -/
def ownsBlock (self : Nat) (hs : HttpState) : Key → Prop
  | .state n => n = self
  | .buf n   => ∃ b, hs.buf = some b ∧ b.serial = n

/-- What the other connections own. -/
structure Rest where
  slots  : Nat → Prop
  blocks : Key → Prop

/-- `L` is the ledger after the events of `c`, with `own` live besides the blocks of the others. -/
structure LedgerAt (R : Rest) (L₀ : Ledger Key) (c : Ctx) (own : Key → Prop) (L : Ledger Key) : Prop where
  run    : runActions Ledger.step L₀ (heapTrace c.log) = some L
  live   : ∀ k, L k = .live ↔ R.blocks k ∨ own k
  unborn : ∀ k, c.nextSerial ≤ k.serial → L k = .unborn

/-- **The connection owns its `http_state`, its buffer, and slot `slot` if it has one**, and none of it is owned
    by another connection. -/
structure Owning (R : Rest) (L₀ : Ledger Key) (slot : Option Nat) (c : Ctx) : Prop where
  slots  : ∀ i, FsInUse c.fs i ↔ R.slots i ∨ slot = some i
  apart  : ∀ i, slot = some i → ¬R.slots i
  ledger : ∃ L, LedgerAt R L₀ c (ownsBlock c.self c.hs) L
  own    : ∀ k, ownsBlock c.self c.hs k → ¬R.blocks k

/-- **The connection has given everything back.** -/
structure Vacated (R : Rest) (L₀ : Ledger Key) (c : Ctx) : Prop where
  slots  : ∀ i, FsInUse c.fs i ↔ R.slots i
  ledger : ∃ L, LedgerAt R L₀ c (fun _ => False) L

section
variable {R : Rest} {L₀ L : Ledger Key} {own : Key → Prop} {slot : Option Nat} {c c' : Ctx}

/-- Using the connection's own `http_state` changes nothing. -/
theorem LedgerAt.uses (h : LedgerAt R L₀ c own L) (hown : own (.state c.self)) {es : List Ev}
    (hlog : c'.log = c.log ++ es) (hall : ∀ e ∈ es, usesOnly c.self e = true) (hser : c'.nextSerial = c.nextSerial) :
    LedgerAt R L₀ c' own L := by
  have hlive : L (.state c.self) = .live := (h.live _).mpr (.inr hown)
  refine ⟨?_, h.live, by rw [hser]; exact h.unborn⟩
  rw [hlog, heapTrace_append, runActions_append, h.run, Option.bind_some]
  exact Ledger.run_uses hlive (heapTrace_uses hall)

theorem LedgerAt.own_iff {own' : Key → Prop} (h : LedgerAt R L₀ c own L) (hown : ∀ k, own k ↔ own' k) :
    LedgerAt R L₀ c own' L :=
  ⟨h.run, fun k => by rw [h.live, hown], h.unborn⟩

/-- **A block that is freed** is owned no more. -/
theorem LedgerAt.free (h : LedgerAt R L₀ c own L) {k : Key} (hown : own k) (hrest : ¬R.blocks k) {e : Ev}
    (he : heapOps e = [.free k]) :
    LedgerAt R L₀ (c.emit e) (fun k' => own k' ∧ k' ≠ k) (Function.update L k .freed) := by
  have hlive : L k = .live := (h.live k).mpr (.inr hown)
  refine ⟨?_, fun k' => ?_, fun k' hk' => ?_⟩
  · rw [Ctx.emit_log, heapTrace_append, runActions_append, h.run, heapTrace_cons, he]
    simp [runActions, Ledger.step_free hlive]
  · by_cases heq : k' = k
    · subst heq
      simp [hrest]
    · rw [Function.update_of_ne heq, h.live]
      simp [heq]
  · have hborn : k' ≠ k := by
      rintro rfl
      rw [h.unborn k' hk'] at hlive
      exact Life.noConfusion hlive
    rw [Function.update_of_ne hborn]
    exact h.unborn k' hk'

/-- **A block just allocated** is owned from then on, and was nobody's before. -/
theorem LedgerAt.alloc (h : LedgerAt R L₀ c own L) {k : Key} (hk : k.serial = c.nextSerial) {e : Ev}
    (he : heapOps e = [.alloc k]) (hlog : c'.log = c.log ++ [e]) (hser : c'.nextSerial = c.nextSerial + 1) :
    LedgerAt R L₀ c' (fun k' => own k' ∨ k' = k) (Function.update L k .live) ∧ ¬R.blocks k := by
  have hunborn : L k = .unborn := h.unborn k (Nat.le_of_eq hk.symm)
  refine ⟨⟨?_, fun k' => ?_, fun k' hk' => ?_⟩, fun hR => ?_⟩
  · rw [hlog, heapTrace_append, runActions_append, h.run, heapTrace_cons, he]
    simp [runActions, Ledger.step_alloc hunborn]
  · by_cases heq : k' = k
    · simp [heq]
    · rw [Function.update_of_ne heq, h.live]
      simp [heq]
  · -- serials are not used twice
    have hne : k' ≠ k := by
      rintro rfl
      omega
    rw [Function.update_of_ne hne]
    exact h.unborn k' (by omega)
  · have hlive := (h.live k).mpr (.inl hR)
    rw [hunborn] at hlive
    exact Life.noConfusion hlive

theorem ownsBlock_self (self : Nat) (hs : HttpState) : ownsBlock self hs (.state self) := rfl

theorem ownsBlock_congr {self : Nat} {hs hs' : HttpState} (h : hs'.buf = hs.buf) (k : Key) :
    ownsBlock self hs' k ↔ ownsBlock self hs k := by
  cases k with
  | state n => exact Iff.rfl
  | buf n => unfold ownsBlock; rw [h]

/-- **What leaves the slots, the buffer and the heap alone leaves the ownership alone.** -/
theorem Owning.keep (h : Owning R L₀ slot c) (hself : c'.self = c.self) (hser : c'.nextSerial = c.nextSerial)
    (hflags : fsFlags c'.fs = fsFlags c.fs) (hbuf : c'.hs.buf = c.hs.buf)
    (hlog : ∃ es, c'.log = c.log ++ es ∧ ∀ e ∈ es, usesOnly c.self e = true) : Owning R L₀ slot c' := by
  obtain ⟨L, hL⟩ := h.ledger
  obtain ⟨es, hes, hall⟩ := hlog
  have hown : ∀ k, ownsBlock c'.self c'.hs k ↔ ownsBlock c.self c.hs k := by
    rw [hself]; exact ownsBlock_congr hbuf
  refine ⟨fun i => ?_, h.apart, ⟨L, ?_⟩, fun k hk => h.own k ((hown k).mp hk)⟩
  · rw [fsInUse_iff_flags, hflags, ← fsInUse_iff_flags]
    exact h.slots i
  · have hsame := hL.uses (ownsBlock_self _ _) hes hall hser
    exact ⟨hsame.run, fun k => by rw [hown]; exact hsame.live k, hsame.unborn⟩

theorem Owning.emit (h : Owning R L₀ slot c) {e : Ev} (he : usesOnly c.self e = true) : Owning R L₀ slot (c.emit e) :=
  h.keep rfl rfl rfl rfl ⟨[e], rfl, by simpa using he⟩

theorem Owning.useState (h : Owning R L₀ slot c) : Owning R L₀ slot c.useState :=
  h.emit (by simp [usesOnly])

theorem Owning.setHs (h : Owning R L₀ slot c) {hs : HttpState} (hbuf : hs.buf = c.hs.buf) :
    Owning R L₀ slot (c.setHs hs) :=
  h.keep rfl rfl rfl hbuf ⟨[], by simp, by simp⟩

theorem Owning.parses {pay : Bool} (h : Owning R L₀ slot c) (hp : Parses pay c c') : Owning R L₀ slot c' := by
  obtain ⟨es, hes, hall⟩ := hp.log
  exact h.keep hp.self hp.nextSerial (by rw [hp.fs]) hp.buf ⟨es, hes, fun e he => usesOnly_of_parses (hall e he)⟩

/-- **Sending and refilling**, which may allocate the buffer. -/
theorem Owning.stays {p : Src → Bool} (h : Owning R L₀ slot c) (hs : Stays p c c') : Owning R L₀ slot c' := by
  rcases hs.heap with ⟨hbuf, hser, es, hes, hall⟩ | ⟨hnone, ⟨a, hbuf⟩, hser, es, es', hes, hall, hall'⟩
  · exact h.keep hs.self hser hs.flags hbuf ⟨es, hes, fun e he => usesOnly_of_sends (hall e he)⟩
  obtain ⟨L, hL⟩ := h.ledger
  have hself := ownsBlock_self c.self c.hs
  have hnew : ∀ k, ownsBlock c.self c.hs k ∨ k = .buf c.nextSerial ↔ ownsBlock c'.self c'.hs k := by
    intro k
    cases k with
    | state n => simp [ownsBlock, hs.self]
    | buf n => simp [ownsBlock, hnone, hbuf, eq_comm]
  -- before the allocation, the allocation, and after it
  have hbefore : LedgerAt R L₀ { c with log := c.log ++ es } (ownsBlock c.self c.hs) L :=
    hL.uses hself rfl (fun e he => usesOnly_of_sends (hall e he)) rfl
  obtain ⟨halloc, hfresh⟩ : LedgerAt R L₀
      { c with log := c.log ++ es ++ [.mallocBuf c.nextSerial], nextSerial := c.nextSerial + 1 }
      (fun k => ownsBlock c.self c.hs k ∨ k = .buf c.nextSerial) (Function.update L (.buf c.nextSerial) .live) ∧
      ¬R.blocks (.buf c.nextSerial) := hbefore.alloc rfl rfl rfl rfl
  have hafter : LedgerAt R L₀ c' _ _ :=
    halloc.uses (.inl hself) (hes.trans (by simp)) (fun e he => usesOnly_of_sends (hall' e he)) hser
  refine ⟨fun i => ?_, h.apart, ⟨_, hafter.own_iff hnew⟩, fun k hk => ?_⟩
  · rw [fsInUse_iff_flags, hs.flags, ← fsInUse_iff_flags]
    exact h.slots i
  · rcases (hnew k).mpr hk with hk | rfl
    · exact h.own k hk
    · exact hfresh

/-- **Opening** gives the connection the slot of the file. -/
theorem Owning.opens {file : Option Nat} (h : Owning R L₀ none c) (ho : Opens c file c') : Owning R L₀ file c' := by
  have hp := h.parses ho.parses
  obtain ⟨L, hL⟩ := hp.ledger
  have hledger : ∃ L, LedgerAt R L₀ c' (ownsBlock c'.self c'.hs) L := ⟨L, hL.run, hL.live, hL.unborn⟩
  cases file with
  | none =>
      have hfs := ho.none rfl
      exact ⟨fun i => by rw [hfs]; exact hp.slots i, hp.apart, hledger, hp.own⟩
  | some i =>
      obtain ⟨t, f, ht, hfree, hfs⟩ := ho.some i rfl
      have hnot : ¬FsInUse c.fs i := by
        rintro ⟨t', ht', huse⟩
        rw [ht] at ht'
        rw [← Option.some.inj ht', hfree] at huse
        exact absurd huse (by decide)
      refine ⟨fun j => ?_, fun j hj hR => ?_, hledger, hp.own⟩
      · rw [hfs, fsInUse_open ht, h.slots]
        simp [eq_comm]
      · obtain rfl := Option.some.inj hj
        exact hnot ((h.slots i).mpr (.inl hR))

/-- The slot is given back first. -/
theorem Owning.closed_slots (h : Owning R L₀ c.hs.handle c) (i : Nat) : FsInUse (closeHandle c).fs i ↔ R.slots i := by
  have hslots := h.slots i
  unfold closeHandle
  cases hh : c.hs.handle with
  | none =>
      rw [hh] at hslots
      simpa using hslots
  | some j =>
      have hapart := h.apart j hh
      rw [hh] at hslots
      rw [fsInUse_close, hslots]
      constructor
      · rintro ⟨hR | heq, hne⟩
        · exact hR
        · exact absurd (Option.some.inj heq).symm hne
      · intro hR
        exact ⟨.inl hR, fun heq => hapart (heq ▸ hR)⟩

/-- **Closing** gives everything back. -/
theorem Owning.freeAll (h : Owning R L₀ c.hs.handle c) : Vacated R L₀ (freeAll (closeHandle c)) := by
  obtain ⟨L, hL⟩ := h.ledger
  have hclosed : LedgerAt R L₀ (closeHandle c) (ownsBlock c.self c.hs) L := by
    refine ⟨?_, hL.live, ?_⟩
    · rw [closeHandle_log]
      exact hL.run
    · rw [closeHandle_nextSerial]
      exact hL.unborn
  have hself := ownsBlock_self c.self c.hs
  refine ⟨fun i => ?_, ?_⟩
  · rw [freeAll_fs]
    exact h.closed_slots i
  unfold Httpd.freeAll
  rw [closeHandle_hs]
  simp only
  cases hbuf : c.hs.buf with
  | none =>
      have hstate := hclosed.free hself (h.own _ hself) (e := .freeState c.self) rfl
      simp only [closeHandle_self]
      refine ⟨_, hstate.own_iff fun k => ?_⟩
      cases k <;> simp [ownsBlock, hbuf]
  | some b =>
      -- the buffer goes first, the state last
      have hown : ownsBlock c.self c.hs (.buf b.serial) := ⟨b, hbuf, rfl⟩
      have hbuffer := hclosed.free hown (h.own _ hown) (e := .freeBuf b.serial) rfl
      have hstate := hbuffer.free ⟨hself, Key.noConfusion⟩ (h.own _ hself) (e := .freeState c.self) rfl
      simp only [Ctx.emit_self, closeHandle_self]
      refine ⟨_, hstate.own_iff fun k => ?_⟩
      cases k <;> simp [ownsBlock, hbuf, eq_comm]

/-- Events that concern the stack only. -/
theorem Vacated.emit (h : Vacated R L₀ c) {e : Ev} (he : heapOps e = []) : Vacated R L₀ (c.emit e) := by
  obtain ⟨L, hL⟩ := h.ledger
  refine ⟨h.slots, L, ?_, hL.live, hL.unborn⟩
  rw [Ctx.emit_log, heapTrace_append, runActions_append, hL.run]
  simp [heapTrace, he, runActions]

theorem Owning.closeConn (env : Env) (h : Owning R L₀ c.hs.handle c) : Vacated R L₀ (closeConn env c) := by
  unfold Httpd.closeConn
  refine Vacated.emit (Owning.freeAll ?_) rfl
  exact (((h.emit rfl).emit rfl).emit rfl).useState

theorem Owning.connErr (h : Owning R L₀ c.hs.handle c) : Vacated R L₀ (connErr c) := h.useState.freeAll

end

end ThirdParty.Httpd
