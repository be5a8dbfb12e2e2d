import ThirdParty.Httpd.Correctness.Callbacks

/-!
# `Httpd.Correctness.Conservation` — resources are conserved over whole runs

A callback either keeps what its connection owns or gives all of it back, and in the second case it also takes the
argument away from the connection (`Settled`). Hence the slots in use and the live blocks always belong to the
connections, each to one of them (`ServerInv`), in every state of every run.
-/

namespace ThirdParty.Httpd

open Lib Lwip

/-! ## Keeping all or leaving all -/

/-- Events that take the connection from its `http_state`. -/
def leavesArg : Ev → Bool
  | .tcpArg false | .tcpAbort => true
  | _ => false

/-- Events that do not set a new argument. -/
def noNewArg (e : Ev) : Bool := e ≠ .tcpArg true

theorem noNewArg_of_quiet {e : Ev} (h : quiet e = true) : noNewArg e = true := by
  cases e <;> first | rfl | exact absurd h Bool.false_ne_true

theorem closeConn_noNewArg (env : Env) (c : Ctx) : Adds noNewArg c (closeConn env c) := by
  refine ⟨closeEvents env c, closeConn_log env c, ?_⟩
  unfold closeEvents freeEvents
  cases c.hs.buf <;> simp [noNewArg]

theorem connErr_noNewArg (c : Ctx) : Adds noNewArg c (connErr c) := by
  refine ⟨.useState c.self :: freeEvents c, by simp [connErr, freeEvents], ?_⟩
  unfold freeEvents
  cases c.hs.buf <;> simp [noNewArg]

/-- **What a callback leaves**: everything in its hands, or everything given back and the connection left. -/
inductive Settled (R : Rest) (L₀ : Ledger Key) (c₀ c : Ctx) : Prop where
  | kept (h : Reached R L₀ c₀ c)
  | left (gone : Vacated R L₀ c) (log : Adds noNewArg c₀ c) (self : c.self = c₀.self)
      (leaves : ∃ e ∈ c.log, leavesArg e = true)

section
variable {R : Rest} {L₀ : Ledger Key} {env : Env} {c₀ c : Ctx}

theorem Settled.closed (hown : Owning R L₀ c.hs.handle c) (hlog : Adds noNewArg c₀ c) (hself : c.self = c₀.self) :
    Settled R L₀ c₀ (closeConn env c) := by
  refine .left (hown.closeConn env) (hlog.trans (closeConn_noNewArg env c)) (by rw [closeConn_self, hself])
    ⟨.tcpArg false, ?_, rfl⟩
  rw [closeConn_log]
  simp [closeEvents]

theorem Ends.settled (h : Ends R L₀ env c₀ c) : Settled R L₀ c₀ c := by
  cases h with
  | returned h => exact .kept h
  | closed h => exact .closed h.own (h.log.mono fun e => noNewArg_of_quiet) h.self
  | finished h =>
      exact .closed (h.own.emit rfl) ((h.log.mono fun e => noNewArg_of_quiet).trans (.emit _ rfl)) h.self
  | aborted h =>
      next c₁ =>
      have hend := connErr_noNewArg (c₁.emit .tcpAbort)
      refine .left (Owning.connErr (h.own.emit rfl)) ?_ ?_ ⟨.tcpAbort, ?_, rfl⟩
      · exact (h.log.mono fun e => noNewArg_of_quiet).trans ((Adds.emit _ rfl).trans hend)
      · simp [tcpAbort, connErr, h.self]
      · obtain ⟨es, hes, -⟩ := hend
        unfold tcpAbort
        rw [hes]
        simp

/-- Registering a callback. -/
theorem Settled.emit (h : Settled R L₀ c₀ c) {e : Ev} (hheap : heapOps e = []) (he : quiet e = true) :
    Settled R L₀ c₀ (c.emit e) := by
  cases h with
  | kept h => exact .kept (h.emit hheap he)
  | left gone log self leaves =>
      obtain ⟨e', he', hleave⟩ := leaves
      exact .left (gone.emit hheap) (log.trans (.emit c (noNewArg_of_quiet he))) self
        ⟨e', List.mem_append_left _ he', hleave⟩

/-- Every callback but `conn_err`. -/
theorem callback_settled (cfg : Config) (env : Env) (fuel : Nat) {cb : Callback} (hne : cb ≠ .err)
    (hown : Owning R L₀ c.hs.handle c) : Settled R L₀ c (callback cfg env fuel cb c).ctx := by
  cases cb with
  | recv p err => exact (httpRecv_ends cfg env fuel p err hown).settled
  | sent =>
      have hsend := (httpSent_ends cfg env fuel hown).settled
      simp only [callback, httpSent]
      split
      · exact hsend.emit rfl rfl
      · exact hsend
  | poll => exact (httpPoll_ends cfg env fuel hown).settled
  | err => exact absurd rfl hne

end

/-! ## Connections and what they hold -/

/-- The `http_state` of a connection that is still there. -/
def Conn.holds (k : Conn) : Option Nat := if k.alive then k.arg else none

theorem applyAll_quiet (self : Nat) : ∀ {log : List Ev} {k : Conn}, (∀ e ∈ log, quiet e = true) →
    (k.applyAll self log).holds = k.holds := by
  intro log
  induction log with
  | nil => intro k _; rfl
  | cons e log ih =>
      intro k h
      have hstep : (k.apply self e).holds = k.holds := by
        have he := h e (List.mem_cons_self ..)
        cases e with
        | tcpArg set => exact absurd he Bool.false_ne_true
        | tcpAbort => exact absurd he Bool.false_ne_true
        | tcpWrite src data err => cases err <;> rfl
        | _ => rfl
      exact (ih fun e' he' => h e' (List.mem_cons_of_mem _ he')).trans hstep

/-- A connection that was left stays left while no argument is set. -/
theorem applyAll_none (self : Nat) : ∀ {log : List Ev} {k : Conn}, (∀ e ∈ log, noNewArg e = true) →
    (k.holds = none ∨ ∃ e ∈ log, leavesArg e = true) → (k.applyAll self log).holds = none := by
  intro log
  induction log with
  | nil =>
      intro k _ h
      rcases h with h | ⟨e, he, -⟩
      · exact h
      · exact absurd he List.not_mem_nil
  | cons e log ih =>
      intro k hnew h
      refine ih (fun e' he' => hnew e' (List.mem_cons_of_mem _ he')) ?_
      by_cases hleave : leavesArg e = true
      · refine .inl ?_
        cases e with
        | tcpArg set =>
            cases set with
            | true => exact absurd hleave Bool.false_ne_true
            | false => simp [Conn.apply, Conn.holds]
        | tcpAbort => simp [Conn.apply, Conn.holds]
        | _ => exact absurd hleave Bool.false_ne_true
      · rcases h with h | ⟨e', he', hleave'⟩
        · refine .inl ?_
          -- an event that neither sets nor clears the argument
          have he := hnew e (List.mem_cons_self ..)
          cases e with
          | tcpArg set => cases set <;> first | exact absurd rfl hleave | simp [noNewArg] at he
          | tcpAbort => exact absurd rfl hleave
          | tcpWrite src data err => cases err <;> exact h
          | _ => exact h
        · rcases List.mem_cons.mp he' with rfl | he'
          · exact absurd hleave' hleave
          · exact .inr ⟨e', he', hleave'⟩

namespace Server

/-- The `http_state` that connection `j` holds. -/
def holder (s : Server) (j : Nat) : Option Nat := (s.conns[j]?).bind Conn.holds

/-- The slots and the blocks of connection `j`. -/
def ownsSlot (s : Server) (j i : Nat) : Prop := ∃ n, s.holder j = some n ∧ (s.objs n).handle = some i

def ownsKey (s : Server) (j : Nat) (k : Key) : Prop := ∃ n, s.holder j = some n ∧ ownsBlock n (s.objs n) k

end Server

/-- **The invariant of the server**: slots in use and live blocks belong to the connections, each to one. -/
structure ServerInv (s : Server) : Prop where
  slots     : ∀ i, FsInUse s.fs i ↔ ∃ j, s.ownsSlot j i
  slotsExcl : Exclusive s.ownsSlot
  keysExcl  : Exclusive s.ownsKey
  ledger    : ∃ L, runActions Ledger.step Ledger.empty (heapTrace s.log) = some L ∧
    (∀ k, L k = .live ↔ ∃ j, s.ownsKey j k) ∧ ∀ k, s.nextSerial ≤ k.serial → L k = .unborn

/-- What connection `j` leaves to the others. -/
def Server.rest (s : Server) (j : Nat) : Rest := ⟨others s.ownsSlot j, others s.ownsKey j⟩

section
variable {s s' : Server} {j n : Nat} {k k' : Conn}

theorem holder_of (hk : s.conns[j]? = some k) : s.holder j = k.holds := by rw [Server.holder, hk]; rfl

/-- **A change that concerns connection `j` alone** keeps the invariant, if the connection ends up with what is
    neither free nor held by the others. -/
theorem ServerInv.change (h : ServerInv s) (hslot : ∀ j' ≠ j, ∀ i, s'.ownsSlot j' i ↔ s.ownsSlot j' i)
    (hkey : ∀ j' ≠ j, ∀ k, s'.ownsKey j' k ↔ s.ownsKey j' k)
    (hfs : ∀ i, FsInUse s'.fs i ↔ (s.rest j).slots i ∨ s'.ownsSlot j i)
    (hapart : ∀ i, s'.ownsSlot j i → ¬(s.rest j).slots i) (hown : ∀ k, s'.ownsKey j k → ¬(s.rest j).blocks k)
    (hledger : ∃ L, runActions Ledger.step Ledger.empty (heapTrace s'.log) = some L ∧
      (∀ k, L k = .live ↔ (s.rest j).blocks k ∨ s'.ownsKey j k) ∧ ∀ k, s'.nextSerial ≤ k.serial → L k = .unborn) :
    ServerInv s' := by
  obtain ⟨L, hrun, hlive, hunborn⟩ := hledger
  refine ⟨fun i => ?_, h.slotsExcl.change hslot hapart, h.keysExcl.change hkey hown, L, hrun, fun k => ?_, hunborn⟩
  · rw [hfs, @exists_own_iff _ _ _ j, others_congr hslot]
    rfl
  · rw [hlive, @exists_own_iff _ _ _ j, others_congr hkey]
    rfl

/-- The other connections hold other states than connection `j` does, and than a new one. -/
theorem holder_ne (h : ServerInv s) (hk : s.holder j = some n ∨ s.nextSerial ≤ n) {j' : Nat} (hj' : j' ≠ j) {n' : Nat}
    (hn' : s.holder j' = some n') : n' ≠ n := by
  rintro rfl
  have hown' : s.ownsKey j' (.state n') := ⟨n', hn', rfl⟩
  rcases hk with hk | hk
  · exact hj' (h.keysExcl hown' ⟨n', hk, rfl⟩)
  · obtain ⟨L, -, hlive, hunborn⟩ := h.ledger
    have hl := (hlive (.state n')).mpr ⟨j', hown'⟩
    rw [hunborn (.state n') hk] at hl
    exact absurd hl (by decide)

/-- The callbacks of the other connections do not see the change. -/
theorem owns_of_ne (h : ServerInv s) (hk : s.holder j = some n ∨ s.nextSerial ≤ n) {hs : HttpState}
    (hconns : ∀ j' ≠ j, s'.conns[j']? = s.conns[j']?) (hobjs : s'.objs = Function.update s.objs n hs) :
    (∀ j' ≠ j, ∀ i, s'.ownsSlot j' i ↔ s.ownsSlot j' i) ∧ ∀ j' ≠ j, ∀ k, s'.ownsKey j' k ↔ s.ownsKey j' k := by
  have hholder : ∀ j' ≠ j, s'.holder j' = s.holder j' := fun j' hj' => by
    rw [Server.holder, Server.holder, hconns j' hj']
  -- whatever is said of the state another connection holds
  have hsame : ∀ (P : Nat → HttpState → Prop), ∀ j' ≠ j,
      (∃ n', s'.holder j' = some n' ∧ P n' (s'.objs n')) ↔ ∃ n', s.holder j' = some n' ∧ P n' (s.objs n') := by
    intro P j' hj'
    rw [hholder j' hj']
    apply exists_congr
    intro n'
    apply and_congr_right
    intro hn'
    rw [hobjs, Function.update_of_ne (holder_ne h hk hj' hn')]
  exact ⟨fun j' hj' i => hsame (fun _ hs => hs.handle = some i) j' hj',
    fun j' hj' k => hsame (fun n' hs => ownsBlock n' hs k) j' hj'⟩

/-- The connection that is called owns what it holds. -/
theorem ServerInv.owning (h : ServerInv s) (hn : s.holder j = some n) :
    ∃ L₀, runActions Ledger.step Ledger.empty (heapTrace s.log) = some L₀ ∧
      Owning (s.rest j) L₀ (s.ctx n).hs.handle (s.ctx n) := by
  obtain ⟨L, hrun, hlive, hunborn⟩ := h.ledger
  have hslot : ∀ i, s.ownsSlot j i ↔ (s.objs n).handle = some i := by
    intro i
    simp [Server.ownsSlot, hn]
  have hkey : ∀ k, s.ownsKey j k ↔ ownsBlock n (s.objs n) k := by
    intro k
    simp [Server.ownsKey, hn]
  refine ⟨L, hrun, fun i => ?_, fun i hi => ?_, ⟨L, rfl, fun k => ?_, hunborn⟩, fun k hk => ?_⟩
  · rw [show (s.ctx n).fs = s.fs from rfl, h.slots, @exists_own_iff _ _ _ j, hslot]
    rfl
  · exact h.slotsExcl.not_others ((hslot i).mpr hi)
  · rw [hlive, @exists_own_iff _ _ _ j, hkey]
    rfl
  · exact h.keysExcl.not_others ((hkey k).mpr hk)

section
variable {L₀ : Ledger Key} {c : Ctx} {returned : Bool}

theorem holder_absorb (hj : j < s.conns.length) :
    (s.absorb j k ⟨c, returned⟩).holder j = (k.applyAll c.self c.log).holds := by
  simp [Server.holder, Server.absorb, hj]

theorem conns_absorb {j' : Nat} (hne : j' ≠ j) : (s.absorb j k ⟨c, returned⟩).conns[j']? = s.conns[j']? := by
  simp [Server.absorb, Ne.symm hne]

theorem owns_of_absorb (k : Conn) (returned : Bool) (h : ServerInv s)
    (hn : s.holder j = some n ∨ s.nextSerial ≤ n) (hself : c.self = n) :
    (∀ j' ≠ j, ∀ i, (s.absorb j k ⟨c, returned⟩).ownsSlot j' i ↔ s.ownsSlot j' i) ∧
    ∀ j' ≠ j, ∀ key, (s.absorb j k ⟨c, returned⟩).ownsKey j' key ↔ s.ownsKey j' key :=
  owns_of_ne h hn (fun j' hj' => conns_absorb hj') (by rw [← hself]; rfl)

/-- The ledger after a callback. -/
theorem ledger_absorb {own : Key → Prop} (hrun : runActions Ledger.step Ledger.empty (heapTrace s.log) = some L₀)
    (h : ∃ L, LedgerAt (s.rest j) L₀ c own L) (hown : ∀ key, (s.absorb j k ⟨c, returned⟩).ownsKey j key ↔ own key) :
    ∃ L, runActions Ledger.step Ledger.empty (heapTrace (s.absorb j k ⟨c, returned⟩).log) = some L ∧
      (∀ key, L key = .live ↔ (s.rest j).blocks key ∨ (s.absorb j k ⟨c, returned⟩).ownsKey j key) ∧
      ∀ key, (s.absorb j k ⟨c, returned⟩).nextSerial ≤ key.serial → L key = .unborn := by
  obtain ⟨L, hL⟩ := h
  refine ⟨L, ?_, fun key => by rw [hown]; exact hL.live key, hL.unborn⟩
  rw [show (s.absorb j k ⟨c, returned⟩).log = s.log ++ c.log from rfl, heapTrace_append, runActions_append, hrun]
  exact hL.run

/-- **After a callback that has kept everything.** -/
theorem ServerInv.absorb_owning (h : ServerInv s) (hj : j < s.conns.length)
    (hn : s.holder j = some n ∨ s.nextSerial ≤ n)
    (hrun : runActions Ledger.step Ledger.empty (heapTrace s.log) = some L₀)
    (hown : Owning (s.rest j) L₀ c.hs.handle c) (hself : c.self = n)
    (hholds : (k.applyAll c.self c.log).holds = some n) :
    ServerInv (s.absorb j k ⟨c, returned⟩) := by
  have hobj : (s.absorb j k ⟨c, returned⟩).objs n = c.hs := by simp [Server.absorb, hself]
  have hholder : (s.absorb j k ⟨c, returned⟩).holder j = some n := (holder_absorb hj).trans hholds
  have hslot : ∀ i, (s.absorb j k ⟨c, returned⟩).ownsSlot j i ↔ c.hs.handle = some i := by
    intro i
    simp [Server.ownsSlot, hholder, hobj]
  have hkey : ∀ key, (s.absorb j k ⟨c, returned⟩).ownsKey j key ↔ ownsBlock c.self c.hs key := by
    intro key
    simp [Server.ownsKey, hholder, hobj, hself]
  obtain ⟨hothers, hothers'⟩ := owns_of_absorb k returned h hn hself
  refine h.change hothers hothers' (fun i => ?_) (fun i hi => ?_) (fun key hk => ?_)
    (ledger_absorb hrun hown.ledger hkey)
  · rw [hslot]; exact hown.slots i
  · exact hown.apart i ((hslot i).mp hi)
  · exact hown.own key ((hkey key).mp hk)

/-- **After a callback that has given everything back.** -/
theorem ServerInv.absorb_vacated (h : ServerInv s) (hj : j < s.conns.length) (hn : s.holder j = some n)
    (hrun : runActions Ledger.step Ledger.empty (heapTrace s.log) = some L₀) (hgone : Vacated (s.rest j) L₀ c)
    (hself : c.self = n) (hholds : (k.applyAll c.self c.log).holds = none) :
    ServerInv (s.absorb j k ⟨c, returned⟩) := by
  have hholder : (s.absorb j k ⟨c, returned⟩).holder j = none := (holder_absorb hj).trans hholds
  have hslot : ∀ i, ¬(s.absorb j k ⟨c, returned⟩).ownsSlot j i := by
    rintro i ⟨m, hm, -⟩
    rw [hholder] at hm
    exact absurd hm (by simp)
  have hkey : ∀ key, ¬(s.absorb j k ⟨c, returned⟩).ownsKey j key := by
    rintro key ⟨m, hm, -⟩
    rw [hholder] at hm
    exact absurd hm (by simp)
  obtain ⟨hothers, hothers'⟩ := owns_of_absorb k returned h (.inl hn) hself
  refine h.change hothers hothers' (fun i => ?_) (fun i hi => absurd hi (hslot i)) (fun key hk => absurd hk (hkey key))
    (ledger_absorb hrun hgone.ledger fun key => iff_of_false (hkey key) id)
  rw [iff_false_intro (hslot i), or_false]
  exact hgone.slots i

end

/-- What the invariant does not look at. -/
theorem ServerInv.congr (h : ServerInv s) (hholder : ∀ j, s'.holder j = s.holder j) (hobjs : s'.objs = s.objs)
    (hfs : s'.fs = s.fs) (hser : s'.nextSerial = s.nextSerial) (hlog : heapTrace s'.log = heapTrace s.log) :
    ServerInv s' := by
  have hslot : s'.ownsSlot = s.ownsSlot := by
    funext j i
    simp only [Server.ownsSlot, hholder, hobjs]
  have hkey : s'.ownsKey = s.ownsKey := by
    funext j k
    simp only [Server.ownsKey, hholder, hobjs]
  refine ⟨?_, ?_, ?_, ?_⟩
  · rw [hfs, hslot]; exact h.slots
  · rw [hslot]; exact h.slotsExcl
  · rw [hkey]; exact h.keysExcl
  · rw [hlog, hkey, hser]; exact h.ledger

theorem serverInv_init (slots : Nat) (mem : Mem) : ServerInv (Server.init slots mem) := by
  have hholder : ∀ j, (Server.init slots mem).holder j = none := fun j => by simp [Server.holder, Server.init]
  have hslot : ∀ j i, ¬(Server.init slots mem).ownsSlot j i := fun j i => by simp [Server.ownsSlot, hholder]
  have hkey : ∀ j k, ¬(Server.init slots mem).ownsKey j k := fun j k => by simp [Server.ownsKey, hholder]
  refine ⟨fun i => ?_, fun j j' i h => absurd h (hslot j i), fun j j' k h => absurd h (hkey j k), Ledger.empty, rfl,
    fun k => ?_, fun _ _ => rfl⟩
  · simp only [hslot, exists_false, iff_false]
    rintro ⟨t, ht, huse⟩
    simp only [Server.init, List.getElem?_replicate] at ht
    split at ht
    · rw [← Option.some.inj ht] at huse
      exact absurd huse (by decide)
    · exact absurd ht (by simp)
  · simp [hkey, Ledger.empty]

/-- `http_accept` allocates an `http_state` for the connection. -/
theorem httpAccept_owning {R : Rest} {L₀ : Ledger Key} {c : Ctx} (cfg : Config) (garbage : HttpState)
    (h : Vacated R L₀ c) :
    Owning R L₀ (httpAccept cfg garbage c).hs.handle (httpAccept cfg garbage c) := by
  obtain ⟨L, hL⟩ := h.ledger
  have hown : ∀ k, False ∨ k = .state c.nextSerial ↔
      ownsBlock (httpAccept cfg garbage c).self (httpAccept cfg garbage c).hs k := by
    intro k
    cases k <;> simp [ownsBlock, httpAccept, HttpState.accept]
  have hlog : (httpAccept cfg garbage c).log = c.log ++ [.mallocState c.nextSerial] ++ [.useState c.nextSerial,
      .tcpArg true, .tcpRecv true, .tcpErr true, .tcpPoll true] := by
    simp [httpAccept]
  have huses : ∀ e ∈ [Ev.useState c.nextSerial, .tcpArg true, .tcpRecv true, .tcpErr true, .tcpPoll true],
      usesOnly c.nextSerial e = true := by
    simp [usesOnly, heapOps]
  -- the state is allocated, and then initialised
  obtain ⟨halloc, hfresh⟩ : LedgerAt R L₀
      { c with self := c.nextSerial, log := c.log ++ [.mallocState c.nextSerial], nextSerial := c.nextSerial + 1 }
      (fun k => False ∨ k = .state c.nextSerial) (Function.update L (.state c.nextSerial) .live) ∧
      ¬R.blocks (.state c.nextSerial) := hL.alloc rfl rfl rfl rfl
  have hafter : LedgerAt R L₀ (httpAccept cfg garbage c) _ _ := halloc.uses (.inr rfl) hlog huses rfl
  refine ⟨fun i => ?_, fun i hi => ?_, ⟨_, hafter.own_iff hown⟩, fun k hk => ?_⟩
  · refine (h.slots i).trans ⟨.inl, ?_⟩
    rintro (hR | hi)
    · exact hR
    · exact absurd hi (by simp [httpAccept, HttpState.accept])
  · exact absurd hi (by simp [httpAccept, HttpState.accept])
  · rcases (hown k).mpr hk with hnone | rfl
    · exact hnone.elim
    · exact hfresh

/-- A connection offered to `http_accept` holds nothing. -/
theorem holder_fresh (s : Server) (j : Nat) : Server.holder { s with conns := s.conns ++ [.fresh] } j = s.holder j := by
  unfold Server.holder
  rcases Nat.lt_trichotomy j s.conns.length with hlt | rfl | hgt
  · rw [List.getElem?_append_left hlt]
  · simp [Conn.holds, Conn.fresh]
  · rw [List.getElem?_eq_none (by simp; omega), List.getElem?_eq_none (by omega)]

/-- Nothing of a vacant connection. -/
theorem ServerInv.vacant (h : ServerInv s) (hnone : s.holder j = none) :
    ∃ L₀, runActions Ledger.step Ledger.empty (heapTrace s.log) = some L₀ ∧ Vacated (s.rest j) L₀ (s.ctx 0) := by
  obtain ⟨L, hrun, hlive, hunborn⟩ := h.ledger
  refine ⟨L, hrun, fun i => ?_, L, rfl, fun k => ?_, hunborn⟩
  · rw [show (s.ctx 0).fs = s.fs from rfl, h.slots, @exists_own_iff _ _ _ j]
    simp [Server.rest, Server.ownsSlot, hnone]
  · rw [hlive, @exists_own_iff _ _ _ j]
    simp [Server.rest, Server.ownsKey, hnone]

/-- A connection without an argument is left as it is. -/
theorem holds_null (harg : k.arg = none) (cb : Callback) {m : Nat} :
    ((k.before cb).applyAll m (callbackNull cb)).holds = none := by
  have hbefore : (k.before cb).holds = none := by
    cases cb <;> simp [Conn.before, Conn.holds, harg]
  refine applyAll_none _ (fun e he => ?_) (.inl hbefore)
  cases cb with
  | recv p err => simp only [callbackNull] at he; split at he <;> simp_all [noNewArg]
  | poll => simp [callbackNull, httpPollNull] at he; subst he; rfl
  | sent => simp [callbackNull] at he
  | err => simp [callbackNull] at he

/-- The error callback is the last one. -/
theorem holds_err {c : Ctx} (h0 : c.log = []) {m : Nat} :
    ((k.before .err).applyAll m (connErr c).log).holds = none := by
  refine applyAll_none _ (fun e he => ?_) (.inl (by simp [Conn.before, Conn.holds]))
  obtain ⟨es, hes, hall⟩ := connErr_noNewArg c
  rw [hes, h0] at he
  exact hall e he

/-- **Every callback keeps the invariant.** -/
theorem serverInv_call (cfg : Config) (h : ServerInv s) (hk : s.conns[j]? = some k) (halive : k.alive = true)
    (cb : Callback) (env : Env) (fuel : Nat) : ServerInv (s.absorb j (k.before cb) (s.invoke cfg k cb env fuel)) := by
  have hj : j < s.conns.length := (List.getElem?_eq_some_iff.mp hk).1
  have hholds : k.holds = k.arg := by simp [Conn.holds, halive]
  unfold Server.invoke
  cases harg : k.arg with
  | none =>
      -- a callback with a null argument touches nothing
      refine h.congr (fun j' => ?_) (Function.update_eq_self _ _) rfl rfl ?_
      · by_cases hj' : j' = j
        · subst hj'
          rw [holder_absorb hj, holder_of hk, hholds, harg]
          exact holds_null harg cb
        · rw [Server.holder, Server.holder, conns_absorb hj']
      · have hnull : heapTrace (callbackNull cb) = [] := by
          cases cb with
          | recv p err => simp only [callbackNull]; split <;> rfl
          | _ => rfl
        show heapTrace (s.log ++ callbackNull cb) = heapTrace s.log
        rw [heapTrace_append, hnull, List.append_nil]
  | some n =>
      have hn : s.holder j = some n := by rw [holder_of hk, hholds, harg]
      obtain ⟨L₀, hrun, hown⟩ := h.owning hn
      by_cases herr : cb = .err
      · subst herr
        exact h.absorb_vacated hj hn hrun (Owning.connErr hown) (by simp [connErr, Server.ctx]) (holds_err rfl)
      · have hbefore : k.before cb = k := by cases cb <;> first | rfl | exact absurd rfl herr
        -- the callback keeps its state, or gives all of it back
        have hend := callback_settled cfg env fuel herr hown
        rw [hbefore]
        simp only
        generalize callback cfg env fuel cb (s.ctx n) = o at hend
        obtain ⟨c, returned⟩ := o
        cases hend with
        | kept hreached =>
            obtain ⟨es, hes, hall⟩ := hreached.log
            refine h.absorb_owning hj (.inl hn) hrun hreached.own hreached.self ?_
            rw [show c.log = es from hes, applyAll_quiet _ hall, hholds, harg]
        | left gone log self leaves =>
            obtain ⟨es, hes, hall⟩ := log
            refine h.absorb_vacated hj hn hrun gone self (applyAll_none _ ?_ (.inr leaves))
            rw [show c.log = es from hes]
            exact hall

/-- An acknowledgement leaves every `http_state` with its connection. -/
theorem holder_ack {j n : Nat} {k : Conn} (hk : s.conns[j]? = some k) (j' : Nat) :
    Server.holder { s with conns := s.conns.set j { k with acked := k.acked + n } } j' = s.holder j' := by
  by_cases hj' : j' = j
  · subst hj'
    have hj : j' < s.conns.length := (List.getElem?_eq_some_iff.mp hk).1
    rw [holder_of hk]
    simp [Server.holder, hj, Conn.holds]
  · simp [Server.holder, Ne.symm hj']

/-- **Every step keeps the invariant.** -/
theorem serverInv_step {cfg : Config} {a : Action} (h : ServerInv s) (hstep : s.step cfg a = some s') :
    ServerInv s' := by
  cases Server.step_cases hstep with
  | @accept garbage env hmalloc =>
      -- the connection is there first, then the callback
      have h₁ : ServerInv { s with conns := s.conns ++ [.fresh] } := h.congr (holder_fresh s) rfl rfl rfl rfl
      have hnone : Server.holder { s with conns := s.conns ++ [.fresh] } s.conns.length = none := by
        simp [Server.holder, Conn.holds, Conn.fresh]
      obtain ⟨L₀, hrun, hvacant⟩ := h₁.vacant hnone
      exact h₁.absorb_owning (by simp) (.inr (Nat.le_refl _)) hrun (httpAccept_owning cfg garbage hvacant) rfl rfl
  | refuse hmalloc => exact h
  | @ack j n k hk halive hroom => exact h.congr (holder_ack hk) rfl rfl rfl rfl
  | call hidle hk halive hhears => exact serverInv_call cfg h hk halive _ _ _

end

/-! ## Conservation -/

/-- An `http_state` that was allocated and not freed. -/
def Server.live (s : Server) (n : Nat) : Prop := .mallocState n ∈ s.log ∧ .freeState n ∉ s.log

/-- Connection `j` has the buffer with serial `n`. -/
def Server.hasBuf (s : Server) (j n : Nat) : Prop :=
  ∃ m, s.holder j = some m ∧ ∃ b, (s.objs m).buf = some b ∧ b.serial = n

/-- **Nothing is leaked, shared, freed twice or used after it was freed.** -/
structure Conserved (s : Server) : Prop where
  /-- the slots in use are those of the live states … -/
  slots     : ∀ i, FsInUse s.fs i ↔ ∃ n, s.live n ∧ (s.objs n).handle = some i
  /-- … and no two of them have the same slot -/
  unshared  : ∀ n n' i, s.live n → s.live n' → (s.objs n).handle = some i → (s.objs n').handle = some i → n = n'
  states    : ∀ n, .mallocState n ∈ s.log →
    ((∃! j, s.holder j = some n) ∧ .freeState n ∉ s.log) ∨
    ((∀ j, s.holder j ≠ some n) ∧ s.log.count (.freeState n) = 1)
  bufs      : ∀ n, .mallocBuf n ∈ s.log →
    ((∃! j, s.hasBuf j n) ∧ .freeBuf n ∉ s.log) ∨ ((∀ j, ¬s.hasBuf j n) ∧ s.log.count (.freeBuf n) = 1)
  allocated : ∀ n, s.log.count (.mallocState n) ≤ 1 ∧ s.log.count (.mallocBuf n) ≤ 1
  notAfter  : ∀ n, NoneAfter (fun e => e = .freeState n) (fun e => e = .useState n) s.log

/-- Counting an event is counting its heap operation. -/
theorem count_heapTrace {e : Ev} {op : HeapOp Key} (h : heapOps e = [op]) (hinj : ∀ e', op ∈ heapOps e' → e' = e)
    (log : List Ev) : (heapTrace log).count op = log.count e := by
  induction log with
  | nil => rfl
  | cons e' log ih =>
      rw [heapTrace_cons, List.count_append, ih, List.count_cons]
      by_cases he : e' = e
      · subst he
        simp [h, Nat.add_comm]
      · rw [List.count_eq_zero.mpr fun hmem => he (hinj e' hmem)]
        simp [he]

section
variable (n : Nat) (log : List Ev)

theorem count_mallocState : (heapTrace log).count (.alloc (.state n)) = log.count (.mallocState n) :=
  count_heapTrace rfl (fun e h => by cases e <;> simp_all [heapOps]) log

theorem count_mallocBuf : (heapTrace log).count (.alloc (.buf n)) = log.count (.mallocBuf n) :=
  count_heapTrace rfl (fun e h => by cases e <;> simp_all [heapOps]) log

theorem count_freeState : (heapTrace log).count (.free (.state n)) = log.count (.freeState n) :=
  count_heapTrace rfl (fun e h => by cases e <;> simp_all [heapOps]) log

theorem count_freeBuf : (heapTrace log).count (.free (.buf n)) = log.count (.freeBuf n) :=
  count_heapTrace rfl (fun e h => by cases e <;> simp_all [heapOps]) log

/-- No use after free, in terms of the events. -/
theorem noneAfter_of_heapTrace {log : List Ev}
    (h : NoneAfter (fun op => op = .free (.state n)) (fun op => op = .use (.state n)) (heapTrace log)) :
    NoneAfter (fun e => e = .freeState n) (fun e => e = .useState n) log := by
  unfold NoneAfter heapTrace at h
  rw [List.pairwise_flatMap] at h
  refine h.2.imp fun {e e'} hpair hfree => decide_eq_false fun huse => ?_
  obtain rfl := of_decide_eq_true hfree
  subst huse
  exact absurd (hpair _ (List.mem_singleton_self _) _ (List.mem_singleton_self _) (by simp)) (by simp)

end

section
variable {s : Server}

/-- **A block** is owned by one connection as long as it is live, and freed once when it is not. -/
theorem ServerInv.block (h : ServerInv s) (k : Key) (halloc : (heapTrace s.log).count (.alloc k) ≠ 0) :
    ((∃! j, s.ownsKey j k) ∧ (heapTrace s.log).count (.free k) = 0) ∨
    ((∀ j, ¬s.ownsKey j k) ∧ (heapTrace s.log).count (.free k) = 1) := by
  obtain ⟨L, hrun, hlive, -⟩ := h.ledger
  obtain ⟨hcount, hfree⟩ := Ledger.run_counts k hrun
  rw [hcount] at halloc
  cases hk : L k with
  | unborn => rw [if_pos hk] at halloc; exact absurd rfl halloc
  | live =>
      obtain ⟨j, hj⟩ := (hlive k).mp hk
      refine .inl ⟨⟨j, hj, fun j' hj' => h.keysExcl hj' hj⟩, ?_⟩
      rw [hfree, if_neg (by rw [hk]; decide)]
  | freed =>
      refine .inr ⟨fun j hj => ?_, by rw [hfree, if_pos hk]⟩
      have := (hlive k).mpr ⟨j, hj⟩
      rw [hk] at this
      exact absurd this (by decide)

/-- The live states are the held ones. -/
theorem ServerInv.live_iff (h : ServerInv s) (n : Nat) : s.live n ↔ ∃ j, s.holder j = some n := by
  obtain ⟨L, hrun, hlive, -⟩ := h.ledger
  obtain ⟨hcount, hfree⟩ := Ledger.run_counts (.state n) hrun
  rw [count_mallocState] at hcount
  rw [count_freeState] at hfree
  have hown : (∃ j, s.ownsKey j (.state n)) ↔ ∃ j, s.holder j = some n := by
    refine exists_congr fun j => ⟨?_, fun hj => ⟨n, hj, rfl⟩⟩
    rintro ⟨m, hm, rfl⟩
    exact hm
  rw [← hown, ← hlive]
  unfold Server.live
  rw [← List.count_pos_iff, ← List.count_eq_zero, hcount, hfree]
  cases L (.state n) <;> simp

theorem ServerInv.conserved (h : ServerInv s) : Conserved s := by
  have hslot : ∀ i, (∃ j, s.ownsSlot j i) ↔ ∃ n, s.live n ∧ (s.objs n).handle = some i := by
    intro i
    constructor
    · rintro ⟨j, n, hn, hi⟩
      exact ⟨n, (h.live_iff n).mpr ⟨j, hn⟩, hi⟩
    · rintro ⟨n, hn, hi⟩
      obtain ⟨j, hj⟩ := (h.live_iff n).mp hn
      exact ⟨j, n, hj, hi⟩
  refine ⟨fun i => (h.slots i).trans (hslot i), ?_, ?_, ?_, ?_, ?_⟩
  · intro n n' i hn hn' hi hi'
    obtain ⟨j, hj⟩ := (h.live_iff n).mp hn
    obtain ⟨j', hj'⟩ := (h.live_iff n').mp hn'
    obtain rfl := h.slotsExcl ⟨n, hj, hi⟩ ⟨n', hj', hi'⟩
    rw [hj] at hj'
    exact Option.some.inj hj'
  · intro n hn
    -- a state lives exactly as long as a connection holds it
    have hown : ∀ j, s.ownsKey j (.state n) ↔ s.holder j = some n := by
      refine fun j => ⟨?_, fun hj => ⟨n, hj, rfl⟩⟩
      rintro ⟨m, hm, rfl⟩
      exact hm
    have hblock := h.block (.state n) (by rw [count_mallocState]; exact (List.count_pos_iff.mpr hn).ne')
    simpa only [hown, count_freeState, List.count_eq_zero] using hblock
  · intro n hn
    have hblock := h.block (.buf n) (by rw [count_mallocBuf]; exact (List.count_pos_iff.mpr hn).ne')
    rw [count_freeBuf, List.count_eq_zero] at hblock
    exact hblock
  · intro n
    obtain ⟨L, hrun, -⟩ := h.ledger
    rw [← count_mallocState, ← count_mallocBuf, (Ledger.run_counts _ hrun).1, (Ledger.run_counts _ hrun).1]
    constructor <;> split <;> simp
  · intro n
    obtain ⟨L, hrun, -⟩ := h.ledger
    -- no use after free
    exact noneAfter_of_heapTrace n (Ledger.run_noneAfter _ hrun)

end

/-- **The server conserves its resources**, after every callback of every run, for any number of connections. -/
theorem server_conserves {cfg : Config} {slots : Nat} {mem : Mem} {tr : List (Server × Action)} {s : Server}
    (hrun : Run (Server.step cfg) (Server.init slots mem) tr s) : Conserved s :=
  ServerInv.conserved (hrun.invariant (serverInv_init slots mem) serverInv_step)

/-! Two connections: one is served the page and closed, the other is aborted after four polls. -/

def twoConnections : List Action :=
  [.accept .zero soleEnv, .accept .zero soleEnv, .call 0 (.recv (some pageRequest) .ok) soleEnv 0,
    .call 1 .poll soleEnv 0, .call 1 .poll soleEnv 0, .call 1 .poll soleEnv 0, .call 1 .poll soleEnv 0,
    .call 0 .sent soleEnv 0]

theorem server_conserves_two :
    ∃ tr s, Run (Server.step (soleConfig pageFile false)) (Server.init 1 fun _ => 0) tr s ∧
      (s.log.count (.freeState 0), s.log.count (.freeState 1), s.log.count (.freeBuf 2)) = (1, 1, 1) ∧
      Conserved s := by
  have hex : ((runActions (Server.step (soleConfig pageFile false)) (Server.init 1 fun _ => 0) twoConnections).map
      fun s => (s.log.count (.freeState 0), s.log.count (.freeState 1), s.log.count (.freeBuf 2))) =
        some (1, 1, 1) := by decide +kernel
  obtain ⟨s, hs, hcounts⟩ := Option.map_eq_some_iff.mp hex
  obtain ⟨tr, hrun, -⟩ := Run.of_runActions hs
  exact ⟨tr, s, hrun, hcounts, server_conserves hrun⟩

end ThirdParty.Httpd
