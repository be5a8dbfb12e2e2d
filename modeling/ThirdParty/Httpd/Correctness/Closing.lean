import ThirdParty.Httpd.Correctness.Sending

/-!
# `Httpd.Correctness.Closing` — when `send_data` closes the connection

`Finished cfg env c` says, of the state before a call of `send_data`, that there is nothing left to send: the
headers are out, no file byte is pending, a read buffer is there or can be had, and the file is absent or at
its end. It is exactly the condition under which the call ends in `close_conn`:

* `sendData_open` — otherwise the connection stays as it is, but for the cursors and a fresh buffer;
* `sendData_finished` — under it the call is `close_conn`, after some sending.
-/

namespace ThirdParty.Httpd

open Lib Lwip

/-! ## The read buffer -/

/-- Some size that `send_data` asks `mem_malloc` for is granted. -/
def GetsBuffer (env : Env) (mallocs count : Nat) : Prop :=
  ∃ j, (j = 0 ∨ count / 2 ^ j > 100) ∧ (env.malloc (mallocs + j)).isSome

/-- The context after a granted allocation. -/
def Ctx.withBuf (c : Ctx) (a n m : Nat) : Ctx :=
  { c.emit (.mallocBuf c.nextSerial) with
    mallocs := m, hs := { c.hs with buf := some ⟨c.nextSerial, a⟩, bufLen := n }
    nextSerial := c.nextSerial + 1 }

theorem getsBuffer_succ {env : Env} {mallocs count : Nat} (h0 : env.malloc mallocs = none) :
    GetsBuffer env mallocs count ↔ count / 2 > 100 ∧ GetsBuffer env (mallocs + 1) (count / 2) := by
  have hdiv : ∀ j, count / 2 / 2 ^ j = count / 2 ^ (j + 1) := fun j => by
    rw [Nat.div_div_eq_div_mul, Nat.pow_succ, Nat.mul_comm]
  constructor
  · rintro ⟨j, hj, hsome⟩
    cases j with
    | zero => simp [h0] at hsome
    | succ j =>
        have hbig : count / 2 / 2 ^ j > 100 := by rw [hdiv]; simpa using hj
        refine ⟨Nat.lt_of_lt_of_le hbig (Nat.div_le_self _ _), j, .inr hbig, ?_⟩
        rwa [Nat.add_assoc, Nat.add_comm 1 j]
  · rintro ⟨hbig, j, hj, hsome⟩
    refine ⟨j + 1, .inr ?_, ?_⟩
    · rcases hj with rfl | hj
      · simpa using hbig
      · rwa [← hdiv]
    · rwa [Nat.add_comm j 1, ← Nat.add_assoc]

/-- **The allocation loop** gets a buffer whenever one of its requests is granted. -/
theorem allocBuf_spec (env : Env) : ∀ (fuel count : Nat) (c : Ctx), count < fuel →
    (GetsBuffer env c.mallocs count ∧ ∃ a n m, allocBuf env fuel count c = c.withBuf a n m) ∨
    (¬GetsBuffer env c.mallocs count ∧ ∃ m, allocBuf env fuel count c = { c with mallocs := m }) := by
  intro fuel
  induction fuel with
  | zero => intro count c h; exact absurd h (Nat.not_lt_zero count)
  | succ fuel ih =>
      intro count c hfuel
      unfold allocBuf
      cases hanswer : env.malloc c.mallocs with
      | some a => exact .inl ⟨⟨0, .inl rfl, by simp [hanswer]⟩, a, count, c.mallocs + 1, by simp [Ctx.withBuf]⟩
      | none =>
          simp only
          rw [getsBuffer_succ hanswer]
          by_cases hbig : count / 2 > 100
          · rw [if_pos hbig]
            rcases ih (count / 2) { c with mallocs := c.mallocs + 1 } (by omega) with
              ⟨hgets, a, n, m, heq⟩ | ⟨hgets, m, heq⟩
            · exact .inl ⟨⟨hbig, hgets⟩, a, n, m, heq⟩
            · exact .inr ⟨fun h => hgets h.2, m, heq⟩
          · rw [if_neg hbig]
            exact .inr ⟨fun h => hbig h.1, c.mallocs + 1, rfl⟩

/-! ## A call that leaves the connection open -/

/-- The `inuse` flags of the file table. -/
def fsFlags (m : FsMemory) : List Bool := m.map FsTable.inuse

theorem fsFlags_modify (m : FsMemory) (i : Nat) {f : FsTable → FsTable} (h : ∀ t, (f t).inuse = t.inuse) :
    fsFlags (m.modify i f) = fsFlags m := by
  apply List.ext_getElem?
  intro j
  unfold fsFlags
  rw [List.getElem?_map, List.getElem?_map, List.getElem?_modify]
  cases m[j]? with
  | none => rfl
  | some t => by_cases hj : i = j <;> simp [hj, h]

/-- **`c'` is reached from `c` with the connection open**: the handle and the occupied file slots are the same,
    at most one buffer, the one the `http_state` now holds, was allocated, and only sources that satisfy `p`
    were sent from. -/
structure Stays (p : Src → Bool) (c c' : Ctx) : Prop where
  self    : c'.self = c.self
  payload : c'.payload = c.payload
  flags   : fsFlags c'.fs = fsFlags c.fs
  handle  : c'.hs.handle = c.hs.handle
  retries : c'.hs.retries = c.hs.retries
  hdrs    : c'.hs.hdrs = c.hs.hdrs
  cursor  : p (.header 0 0) = false → c'.hs.hdrIndex = c.hs.hdrIndex ∧ c'.hs.hdrPos = c.hs.hdrPos
  heap    :
    (c'.hs.buf = c.hs.buf ∧ c'.nextSerial = c.nextSerial ∧
      ∃ es, c'.log = c.log ++ es ∧ ∀ e ∈ es, sendsFrom p c.self e = true) ∨
    (c.hs.buf = none ∧ (∃ a, c'.hs.buf = some ⟨c.nextSerial, a⟩) ∧ c'.nextSerial = c.nextSerial + 1 ∧
      ∃ es es', c'.log = c.log ++ (es ++ .mallocBuf c.nextSerial :: es') ∧
        (∀ e ∈ es, sendsFrom p c.self e = true) ∧ ∀ e ∈ es', sendsFrom p c.self e = true)

theorem Sends.stays {p : Src → Bool} {c c' : Ctx} (h : Sends p c c') : Stays p c c' :=
  ⟨h.self, h.payload, by rw [h.fs], h.handle, h.retries, h.hdrs, h.cursor, .inl ⟨h.buf, h.nextSerial, h.log⟩⟩

theorem Stays.after {p : Src → Bool} {c₁ c₂ c₃ : Ctx} (h : Sends p c₁ c₂) (h' : Stays p c₂ c₃) : Stays p c₁ c₃ := by
  refine ⟨h'.self.trans h.self, h'.payload.trans h.payload, by rw [h'.flags, h.fs],
    h'.handle.trans h.handle, h'.retries.trans h.retries, h'.hdrs.trans h.hdrs,
    fun hp => ⟨(h'.cursor hp).1.trans (h.cursor hp).1, (h'.cursor hp).2.trans (h.cursor hp).2⟩, ?_⟩
  obtain ⟨es, hes, hall⟩ := h.log
  have hheap := h'.heap
  rw [h.buf, h.nextSerial, hes, h.self] at hheap
  rcases hheap with ⟨hbuf, hser, es', hes', hall'⟩ | ⟨hnone, hbuf, hser, es₁, es₂, hes', hall₁, hall₂⟩
  · refine .inl ⟨hbuf, hser, es ++ es', by rw [hes', List.append_assoc], ?_⟩
    intro e he
    exact (List.mem_append.mp he).elim (hall e) (hall' e)
  · refine .inr ⟨hnone, hbuf, hser, es ++ es₁, es₂, by rw [hes']; simp, ?_, hall₂⟩
    intro e he
    exact (List.mem_append.mp he).elim (hall e) (hall₁ e)

theorem Stays.before {p : Src → Bool} {c₁ c₂ c₃ : Ctx} (h : Stays p c₁ c₂) (h' : Sends p c₂ c₃) : Stays p c₁ c₃ := by
  refine ⟨h'.self.trans h.self, h'.payload.trans h.payload, by rw [h'.fs, h.flags],
    h'.handle.trans h.handle, h'.retries.trans h.retries, h'.hdrs.trans h.hdrs,
    fun hp => ⟨(h'.cursor hp).1.trans (h.cursor hp).1, (h'.cursor hp).2.trans (h.cursor hp).2⟩, ?_⟩
  obtain ⟨es, hes, hall⟩ := h'.log
  rw [h.self] at hall
  rw [h'.buf, h'.nextSerial, hes]
  rcases h.heap with ⟨hbuf, hser, es', hes', hall'⟩ | ⟨hnone, hbuf, hser, es₁, es₂, hes', hall₁, hall₂⟩
  · refine .inl ⟨hbuf, hser, es' ++ es, by rw [hes', List.append_assoc], ?_⟩
    intro e he
    exact (List.mem_append.mp he).elim (hall' e) (hall e)
  · refine .inr ⟨hnone, hbuf, hser, es₁, es₂ ++ es, by rw [hes']; simp, hall₁, ?_⟩
    intro e he
    exact (List.mem_append.mp he).elim (hall₂ e) (hall e)

theorem Stays.any {p : Src → Bool} {c c' : Ctx} (h : Stays p c c') : Stays Src.any c c' := by
  refine { h with cursor := (fun hp => by cases hp), heap := ?_ }
  rcases h.heap with ⟨hbuf, hser, es, hes, hall⟩ | ⟨hnone, hbuf, hser, es₁, es₂, hes, hall₁, hall₂⟩
  · exact .inl ⟨hbuf, hser, es, hes, fun e he => sendsFrom_any (hall e he)⟩
  · exact .inr ⟨hnone, hbuf, hser, es₁, es₂, hes, fun e he => sendsFrom_any (hall₁ e he),
      fun e he => sendsFrom_any (hall₂ e he)⟩

/-- **The events** of sending, with at most one allocation of a buffer among them. -/
theorem Stays.events {p : Src → Bool} {q : Ev → Prop} {c c' : Ctx} (h : Stays p c c')
    (hsend : ∀ e, sendsFrom p c.self e = true → q e) (hmalloc : ∀ n, q (.mallocBuf n)) :
    ∃ es, c'.log = c.log ++ es ∧ ∀ e ∈ es, q e := by
  rcases h.heap with ⟨-, -, es, hes, hall⟩ | ⟨-, -, -, es, es', hes, hall, hall'⟩
  · exact ⟨es, hes, fun e he => hsend e (hall e he)⟩
  · refine ⟨_, hes, fun e he => ?_⟩
    rcases List.mem_append.mp he with he | he
    · exact hsend e (hall e he)
    · rcases List.mem_cons.mp he with rfl | he
      · exact hmalloc _
      · exact hsend e (hall' e he)

/-! ## Refill -/

/-- **The read buffer.** Nothing else changes, and one is there afterwards exactly if there was one or a
    request for one is granted. -/
theorem obtainBuf_spec (p : Src → Bool) (env : Env) (c : Ctx) :
    Stays p c (obtainBuf env c) ∧ (obtainBuf env c).fs = c.fs ∧ (obtainBuf env c).mem = c.mem ∧
    (obtainBuf env c).inserts = c.inserts ∧
    accepted Src.isBody (obtainBuf env c).log = accepted Src.isBody c.log ∧
    (∃ b n, (obtainBuf env c).hs = { c.hs with buf := b, bufLen := n }) ∧
    ((obtainBuf env c).hs.buf ≠ none ↔ c.hs.buf ≠ none ∨ GetsBuffer env c.mallocs (twoMss env)) := by
  unfold obtainBuf
  cases hbuf : c.hs.buf with
  | some b => exact ⟨(Sends.refl c).stays, rfl, rfl, rfl, rfl, ⟨_, _, rfl⟩, by simp [hbuf]⟩
  | none =>
      simp only
      rcases allocBuf_spec env (twoMss env + 1) (twoMss env) (c.emit .pcbRead) (Nat.lt_succ_self _) with
        ⟨hgets, a, n, m, heq⟩ | ⟨hgets, m, heq⟩
      · rw [heq]
        refine ⟨⟨rfl, rfl, rfl, rfl, rfl, rfl, fun _ => ⟨rfl, rfl⟩,
          .inr ⟨hbuf, ⟨a, rfl⟩, rfl, [.pcbRead], [], ?_, ?_, ?_⟩⟩,
          rfl, rfl, rfl, ?_, ⟨_, _, rfl⟩, ?_⟩
        · simp [Ctx.withBuf]
        · simp [sendsFrom]
        · simp
        · simp [Ctx.withBuf, Ev.accepted]
        · simpa [Ctx.withBuf] using hgets
      · rw [heq]
        refine ⟨⟨rfl, rfl, rfl, rfl, rfl, rfl, fun _ => ⟨rfl, rfl⟩,
          .inl ⟨rfl, rfl, [.pcbRead], rfl, by simp [sendsFrom]⟩⟩,
          rfl, rfl, rfl, by simp [Ev.accepted], ⟨_, _, rfl⟩, ?_⟩
        simpa [hbuf] using hgets

/-- The file of the `http_state`, if there is one, is at its end. -/
def AtEnd (c : Ctx) : Prop :=
  match c.hs.handle with
  | none   => True
  | some i => (fsFile c.fs i).index = (fsFile c.fs i).len

/-- `close_conn` closes the file itself, so closing it before makes no difference. -/
theorem closeConn_closeHandle (env : Env) (c : Ctx) (e : Ev) :
    closeConn env ((closeHandle c).emit e) = closeConn env (c.emit e) := by
  unfold closeConn closeHandle
  cases hh : c.hs.handle with
  | none => simp [Ctx.useState, hh]
  | some i => simp [Ctx.useState, Ctx.emit, hh]

/-- There is no file data left, and room to notice it. -/
def Exhausted (env : Env) (c : Ctx) : Prop :=
  c.hs.left = 0 ∧ (c.hs.buf ≠ none ∨ GetsBuffer env c.mallocs (twoMss env)) ∧ AtEnd c

/-- With data left there is nothing to refill. -/
theorem refill_left (env : Env) {c : Ctx} (h : c.hs.left ≠ 0) : refill env c = (c.useState, false) := by
  unfold refill
  simp only [Ctx.useState_hs, if_neg h]

/-- Without a buffer `send_data` gives up for now. -/
theorem refill_noBuf (env : Env) {c : Ctx} (h : c.hs.left = 0)
    (hbuf : ¬(c.hs.buf ≠ none ∨ GetsBuffer env c.mallocs (twoMss env))) :
    refill env c = (obtainBuf env c.useState, true) := by
  obtain ⟨-, -, -, -, -, -, hiff⟩ := obtainBuf_spec Src.isBody env c.useState
  have hnone : (obtainBuf env c.useState).hs.buf = none := by
    by_contra hne
    exact hbuf (hiff.mp hne)
  unfold refill
  simp only [Ctx.useState_hs, if_pos h, hnone]

/-- **Refill.** Unless the response is exhausted, the connection stays open. -/
theorem refill_open (env : Env) (c : Ctx) (h : ¬Exhausted env c) : Stays Src.isBody c (refill env c).1 := by
  by_cases hleft : c.hs.left = 0
  swap
  · rw [refill_left env hleft]
    exact (Sends.useState c).stays
  obtain ⟨hstays, hfs, hmem, -, -, -, hiff⟩ := obtainBuf_spec Src.isBody env c.useState
  have hopen : Stays Src.isBody c (obtainBuf env c.useState) := .after (.useState c) hstays
  by_cases hgets : c.hs.buf ≠ none ∨ GetsBuffer env c.mallocs (twoMss env)
  swap
  · rw [refill_noBuf env hleft hgets]
    exact hopen
  obtain ⟨b, hb⟩ := Option.ne_none_iff_exists'.mp (hiff.mpr hgets)
  unfold refill
  simp only [Ctx.useState_hs, if_pos hleft, hb]
  cases hh : c.hs.handle with
  | none => exact absurd ⟨hleft, hgets, by simp [AtEnd, hh]⟩ h
  | some i =>
      have hhandle : (obtainBuf env c.useState).hs.handle = some i := hstays.handle.trans hh
      have hmore : (fsFile c.fs i).index ≠ (fsFile c.fs i).len := fun heq =>
        h ⟨hleft, hgets, by simpa [AtEnd, hh] using heq⟩
      simp only [hhandle, fsRead, hfs, Ctx.useState_fs, if_neg hmore]
      rw [if_neg (by omega)]
      exact ⟨hopen.self, hopen.payload, fsFlags_modify c.fs i fun _ => rfl, hopen.handle, hopen.retries,
        hopen.hdrs, hopen.cursor, hopen.heap⟩

theorem refill_exhausted (env : Env) (c : Ctx) (h : Exhausted env c) :
    refill env c = (closeConn env ((obtainBuf env c.useState).emit .endOfResponse), true) := by
  obtain ⟨hleft, hgets, hend⟩ := h
  obtain ⟨hstays, hfs, hmem, -, -, ⟨b', n', hhs⟩, hiff⟩ := obtainBuf_spec Src.isBody env c.useState
  have hhas : (obtainBuf env c.useState).hs.buf ≠ none := hiff.mpr hgets
  unfold refill
  simp only [Ctx.useState_hs, if_pos hleft]
  obtain ⟨b, hb⟩ := Option.ne_none_iff_exists'.mp hhas
  simp only [hb]
  have hhandle : (obtainBuf env c.useState).hs.handle = c.hs.handle := hstays.handle
  cases hh : c.hs.handle with
  | none => rw [hh] at hhandle; simp only [hhandle]
  | some i =>
      rw [hh] at hhandle
      simp only [hhandle]
      have hend' : (fsFile c.fs i).index = (fsFile c.fs i).len := by simpa [AtEnd, hh] using hend
      have hread : ∀ a k, fsRead (obtainBuf env c.useState).fs (obtainBuf env c.useState).mem i a k =
          (-1, (obtainBuf env c.useState).fs, (obtainBuf env c.useState).mem) := by
        intro a k
        simp [fsRead, hfs, hend']
      rw [hread]
      simp only
      rw [if_pos (by decide), closeConn_closeHandle]

/-! ## `send_data` -/

/-- The header phase does not make `send_data` return. -/
def headersDone (cfg : Config) (env : Env) (c : Ctx) : Bool :=
  !cfg.dynamicHttpHeaders || !(sendHeaders env c).2

/-- **Nothing is left to send**, and `send_data` gets to the point where it notices. -/
def Finished (cfg : Config) (env : Env) (c : Ctx) : Prop := headersDone cfg env c = true ∧ Exhausted env c

theorem sendBody_open (cfg : Config) (env : Env) (fuel : Nat) (s : Sending) (h : ¬Exhausted env s.ctx) :
    Stays Src.isBody s.ctx (sendBody cfg env fuel s).ctx := by
  have hrefill := refill_open env s.ctx h
  unfold sendBody
  generalize refill env s.ctx = r at hrefill
  obtain ⟨c, ret⟩ := r
  cases ret with
  | true => exact hrefill
  | false =>
      simp only
      split
      · exact hrefill.before (sendSsi_sends cfg env fuel { s with ctx := c })
      · exact hrefill.before (sendPlain_sends env { s with ctx := c })

theorem sendBody_exhausted (cfg : Config) (env : Env) (fuel : Nat) (s : Sending) (h : Exhausted env s.ctx) :
    ∃ c₁, Stays Src.isBody s.ctx c₁ ∧ sendBody cfg env fuel s = ⟨closeConn env (c₁.emit .endOfResponse), true⟩ := by
  obtain ⟨hstays, -⟩ := obtainBuf_spec Src.isBody env s.ctx.useState
  refine ⟨obtainBuf env s.ctx.useState, .after (.useState _) hstays, ?_⟩
  unfold sendBody
  rw [refill_exhausted env s.ctx h]

/-- The header phase does not touch what decides whether the response is exhausted. -/
theorem exhausted_sendHeaders (env : Env) (c : Ctx) :
    Exhausted env (sendHeaders env c).1.ctx ↔ Exhausted env c := by
  have hsent := sendHeaders_sentHeaders env c
  obtain ⟨pos, idx, hhs⟩ := hsent.hs
  unfold Exhausted AtEnd
  rw [hhs, hsent.sends.fs, hsent.sends.mallocs]

/-- **`send_data` leaves the connection open** as long as there is something left to send. -/
theorem sendData_open (cfg : Config) (env : Env) (fuel : Nat) (c : Ctx) (h : ¬Finished cfg env c) :
    Stays Src.any c (sendData cfg env fuel c).ctx := by
  unfold sendData
  cases hdyn : cfg.dynamicHttpHeaders with
  | false =>
      refine (sendBody_open cfg env fuel ⟨c, .ok, 0, false⟩ fun hex => h ⟨?_, hex⟩).any
      simp [headersDone, hdyn]
  | true =>
      have hsent := sendHeaders_sentHeaders env c
      have hiff := exhausted_sendHeaders env c
      have hdone : headersDone cfg env c = !(sendHeaders env c).2 := by simp [headersDone, hdyn]
      unfold Finished at h
      rw [hdone] at h
      generalize sendHeaders env c = r at hsent hiff h
      obtain ⟨s, ret⟩ := r
      cases ret with
      | true => exact hsent.sends.any.stays
      | false => exact .after hsent.sends.any (sendBody_open cfg env fuel s fun hex => h ⟨rfl, hiff.mp hex⟩).any

/-- **`send_data` closes the connection** when nothing is left to send, and that is the last thing it does. -/
theorem sendData_finished (cfg : Config) (env : Env) (fuel : Nat) (c : Ctx) (h : Finished cfg env c) :
    ∃ c₁, Stays Src.any c c₁ ∧ sendData cfg env fuel c = ⟨closeConn env (c₁.emit .endOfResponse), true⟩ := by
  obtain ⟨hdone, hex⟩ := h
  unfold sendData
  cases hdyn : cfg.dynamicHttpHeaders with
  | false =>
      obtain ⟨c₁, hstays, heq⟩ := sendBody_exhausted cfg env fuel ⟨c, .ok, 0, false⟩ hex
      exact ⟨c₁, hstays.any, heq⟩
  | true =>
      have hsent := sendHeaders_sentHeaders env c
      have hiff := exhausted_sendHeaders env c
      have hret : (sendHeaders env c).2 = false := by simpa [headersDone, hdyn] using hdone
      generalize sendHeaders env c = r at hsent hiff hret
      obtain ⟨s, ret⟩ := r
      simp only at hret hsent hiff
      subst hret
      obtain ⟨c₁, hstays, heq⟩ := sendBody_exhausted cfg env fuel s (hiff.mpr hex)
      exact ⟨c₁, .after hsent.sends.any hstays.any, heq⟩

end ThirdParty.Httpd
