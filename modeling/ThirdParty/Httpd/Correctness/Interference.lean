import ThirdParty.Httpd.Correctness.Cursors

/-!
# `Httpd.Correctness.Interference` — input that arrives during a response

`http_recv` takes the file handle for the sign of a response in progress. For a response made from a file the handle is
there until the connection is closed, and a segment that arrives meanwhile is acknowledged and freed. The built-in 404
page is a response without a file: while its headers are on their way, the next segment is taken for a new request.
-/

namespace ThirdParty.Httpd

open Lib Lwip

/-! ## What a response without a file is -/

/-- Part of the response is still to be handed to TCP. -/
def Responding (hs : HttpState) : Prop := hs.hdrIndex < numFileHdrStrings ∨ 0 < hs.left

instance (hs : HttpState) : Decidable (Responding hs) := by unfold Responding; infer_instance

/-- Without a file, what is sent is the built-in page. -/
def BuiltIn (hs : HttpState) : Prop :=
  hs.left = 0 ∧ (hs.hdrIndex < numFileHdrStrings → hs.hdrs 2 = httpHeaderString .default404Html)

/-- The state of a connection: without a handle, at most the built-in page is sent. -/
def Answering (hs : HttpState) : Prop := hs.handle = none → BuiltIn hs

theorem get404File_null (cfg : Config) (c : Ctx) (h : (get404File cfg c).1 = none) :
    (get404File cfg c).2.1 = .null := by
  unfold get404File at h ⊢
  generalize c.fsOpenUri cfg.fsRoot (.const (lit "/404.html")) = r at h ⊢
  obtain ⟨file, c₁⟩ := r
  cases file with
  | some i => exact absurd h (by simp)
  | none =>
      simp only at h ⊢
      generalize c₁.fsOpenUri cfg.fsRoot (.const (lit "/404.htm")) = r at h ⊢
      obtain ⟨file, c₂⟩ := r
      cases file with
      | some i => exact absurd h (by simp)
      | none => rfl

theorem openDefault_null (cfg : Config) : ∀ (names : List (List Byte × Bool)) (c : Ctx),
    (openDefault cfg names c).1 = none → (openDefault cfg names c).2.1 = .null := by
  intro names
  induction names with
  | nil => intro c h; exact get404File_null cfg c h
  | cons n names ih =>
      intro c h
      obtain ⟨name, shtml⟩ := n
      unfold openDefault at h ⊢
      generalize c.fsOpenUri cfg.fsRoot (.const name) = r at h ⊢
      obtain ⟨file, c₁⟩ := r
      cases file with
      | some i => exact absurd h (by simp)
      | none => exact ih c₁ h

theorem openNamed_null (cfg : Config) (env : Env) (c : Ctx) (h : (openNamed cfg env 4 c).1 = none) :
    (openNamed cfg env 4 c).2.1 = .null := by
  unfold openNamed at h ⊢
  generalize (if cfg.includeHttpdCgi = true then dispatchCgi cfg env 4 c else (Uri.payload 4, c)) = r at h ⊢
  obtain ⟨uri, c₁⟩ := r
  simp only at h ⊢
  generalize c₁.fsOpenUri cfg.fsRoot uri = r at h ⊢
  obtain ⟨file, c₂⟩ := r
  cases file with
  | none => exact get404File_null cfg c₂ h
  | some i =>
      simp only at h
      split at h
      · exact absurd h (by simp)
      · exact absurd h (by simp)

/-- Where no file was found, there is no name to look at. -/
theorem openRequested_null (cfg : Config) (env : Env) (c : Ctx) (h : (openRequested cfg env c).1 = none) :
    (openRequested cfg env c).2.1 = .null := by
  obtain ⟨c₁, -, -, heq⟩ := openRequested_cases cfg env c
  rw [heq] at h ⊢
  by_cases hroot : IsRoot c.payload
  · rw [if_pos hroot] at h ⊢
    exact openDefault_null cfg defaultFilenames c₁ h
  · rw [if_neg hroot] at h ⊢
    exact openNamed_null cfg env c₁ h

/-- The response that is set up. -/
theorem setUpResponse_answering {cfg : Config} (hdyn : cfg.dynamicHttpHeaders = true) {file : Option Nat} {uri : Uri}
    (huri : file = none → uri = .null) (c : Ctx) : (setUpResponse cfg file uri c).hs.handle = file ∧
      Answering (setUpResponse cfg file uri c).hs := by
  unfold setUpResponse
  rw [if_pos hdyn]
  cases file with
  | some i =>
      have hhandle := (getHttpHeaders_parses
        ((c.useState.setHs (c.useState.hs.serve i (fsFile c.useState.fs i))).emit .pbufFree) uri).handle
      refine ⟨hhandle, ?_⟩
      intro hnone
      rw [hhandle] at hnone
      exact absurd hnone (by simp [HttpState.serve])
  | none =>
      rw [huri rfl]
      exact ⟨rfl, fun _ => ⟨rfl, fun _ => rfl⟩⟩

/-- The header phase keeps a built-in page what it is. -/
theorem sendHeaders_builtIn (env : Env) {c : Ctx} (h : BuiltIn c.hs) : BuiltIn (sendHeaders env c).1.ctx.hs := by
  by_cases hidx : c.hs.hdrIndex < numFileHdrStrings
  · obtain ⟨pos, idx, hhs⟩ := (sendHeaders_sentHeaders env c).hs
    rw [hhs]
    exact ⟨h.1, fun _ => h.2 hidx⟩
  · -- the headers are out, so nothing happens
    have hskip : sendHeaders env c = (⟨c.useState, .ok, 0, false⟩, false) := by
      unfold sendHeaders
      exact if_neg hidx
    rw [hskip]
    exact h

/-- **`send_data`** keeps a built-in page what it is, while the connection stays open. -/
theorem sendData_answering {cfg : Config} (hdyn : cfg.dynamicHttpHeaders = true) (env : Env) (fuel : Nat) {c : Ctx}
    (h : Answering c.hs) (hfin : ¬Finished cfg env c) : Answering (sendData cfg env fuel c).ctx.hs := by
  intro hnone
  rw [(sendData_open cfg env fuel c hfin).handle] at hnone
  have hheaders := sendHeaders_builtIn env (h hnone)
  have hsent := sendHeaders_sentHeaders env c
  have hiff := exhausted_sendHeaders env c
  unfold Finished headersDone at hfin
  unfold sendData
  rw [hdyn] at hfin ⊢
  simp only [Bool.not_true, Bool.false_or] at hfin ⊢
  generalize sendHeaders env c = r at hheaders hsent hiff hfin
  obtain ⟨s, ret⟩ := r
  cases ret with
  | true => exact hheaders
  | false =>
      -- without a file the end is reached, so only a missing buffer keeps the connection open
      have hhandle : s.ctx.hs.handle = none := by
        obtain ⟨pos, idx, hhs⟩ := hsent.hs
        rw [hhs]
        exact hnone
      have hbuf : ¬(s.ctx.hs.buf ≠ none ∨ GetsBuffer env s.ctx.mallocs (twoMss env)) := by
        intro hbuf
        refine hfin ⟨rfl, hiff.mp ⟨hheaders.1, hbuf, ?_⟩⟩
        unfold AtEnd
        rw [hhandle]
        exact trivial
      obtain ⟨-, -, -, -, -, ⟨b, n, hhs⟩, -⟩ := obtainBuf_spec Src.isBody env s.ctx.useState
      show BuiltIn (sendBody cfg env fuel s).ctx.hs
      unfold sendBody
      rw [refill_noBuf env hheaders.1 hbuf]
      show BuiltIn (obtainBuf env s.ctx.useState).hs
      rw [hhs]
      exact hheaders

/-! ## The callbacks -/

section
variable {q : Ev → Bool} {cfg : Config} {env : Env} {fuel : Nat} {c₀ c : Ctx}

theorem httpRecv_answering (hdyn : cfg.dynamicHttpHeaders = true) (p : Option Segment) (err : Err)
    (h : Answering c.hs) (hquiet : Adds quiet c (httpRecv cfg env fuel p err c).ctx) :
    Answering (httpRecv cfg env fuel p err c).ctx.hs := by
  rcases httpRecv_cases cfg env fuel p err c with ⟨c₁, hhs, -, heq⟩ | ⟨c₁, -, hbefore, heq⟩ | ⟨c₁, -, hbefore, heq⟩
  · rw [heq, hhs]
    exact h
  · rw [heq] at hquiet
    exact absurd hquiet (not_quiet_closeConn hbefore)
  · rw [heq] at hquiet ⊢
    -- a new response that is not over yet
    obtain ⟨-, hanswer⟩ := setUpResponse_answering hdyn (openRequested_null cfg env c₁) (openRequested cfg env c₁).2.2
    exact sendData_answering hdyn env fuel hanswer (not_finished_of_quiet hbefore hquiet)

theorem httpSent_answering (hdyn : cfg.dynamicHttpHeaders = true) (h : Answering c.hs)
    (hquiet : Adds quiet c (httpSent cfg env fuel c).ctx) : Answering (httpSent cfg env fuel c).ctx.hs := by
  have hnotify : Adds (fun _ => true) c c.notify :=
    ⟨[.useState c.self, .tcpSent false], by simp [Ctx.notify], by simp⟩
  have hanswer : Answering c.notify.hs := h
  -- whether or not `tcp_sent` is called at the end
  have hlast : (httpSent cfg env fuel c).ctx = (sendData cfg env fuel c.notify).ctx ∨
      (httpSent cfg env fuel c).ctx = (sendData cfg env fuel c.notify).ctx.emit (.tcpSent true) := by
    unfold httpSent
    simp only
    split
    · exact .inr rfl
    · exact .inl rfl
  -- registering again neither closes nor changes the state
  have hsend : Adds quiet c (sendData cfg env fuel c.notify).ctx := by
    obtain ⟨es, hes, hall⟩ := hnotify.trans ((sendData_adds cfg env fuel c.notify).mono fun _ _ => rfl)
    refine ⟨es, hes, fun e he => ?_⟩
    rcases hlast with heq | heq
    · rw [heq] at hquiet
      exact hquiet.event (Adds.refl (q := fun _ => true) c) hes he
    · rw [heq] at hquiet
      have hlog : ((sendData cfg env fuel c.notify).ctx.emit (.tcpSent true)).log = c.log ++
          (es ++ [.tcpSent true]) := by
        rw [Ctx.emit_log, hes, List.append_assoc]
      exact hquiet.event (Adds.refl (q := fun _ => true) c) hlog (List.mem_append_left _ he)
  have hstate := sendData_answering hdyn env fuel hanswer (not_finished_of_quiet hnotify hsend)
  rcases hlast with heq | heq
  · rw [heq]
    exact hstate
  · rw [heq]
    exact hstate

theorem httpPoll_answering (hdyn : cfg.dynamicHttpHeaders = true) (h : Answering c.hs)
    (hquiet : Adds quiet c (httpPoll cfg env fuel c).ctx) : Answering (httpPoll cfg env fuel c).ctx.hs := by
  unfold httpPoll at hquiet ⊢
  simp only at hquiet ⊢
  generalize hc₁ : c.useState.setHs { c.useState.hs with retries := toU8 ((c.useState.hs.retries : Int) + 1) } = c₁
    at hquiet ⊢
  have hanswer : Answering c₁.hs := by rw [← hc₁]; exact h
  have hadds : Adds (fun _ => true) c c₁ := ⟨[.useState c.self], by rw [← hc₁]; simp, by simp⟩
  by_cases hretries : c₁.hs.retries = 4
  · rw [if_pos hretries] at hquiet
    obtain ⟨es, hes, -⟩ := connErr_noNewArg (c₁.emit .tcpAbort)
    rw [Ctx.emit_log, List.append_assoc] at hes
    have hmem : Ev.tcpAbort ∈ [.tcpAbort] ++ es := List.mem_cons_self ..
    exact absurd (hquiet.event hadds hes hmem) (by decide)
  · rw [if_neg hretries] at hquiet ⊢
    by_cases hhandle : c₁.hs.handle = none
    · rw [if_neg (not_not_intro hhandle)]
      exact hanswer
    · rw [if_pos hhandle] at hquiet ⊢
      exact sendData_answering hdyn env fuel hanswer (not_finished_of_quiet hadds hquiet)

/-- **Every callback keeps the form of the response**, or takes the connection from its state. -/
theorem callback_answering (hdyn : cfg.dynamicHttpHeaders = true) {cb : Callback} (hne : cb ≠ .err)
    (h : Answering c.hs) (hquiet : Adds quiet c (callback cfg env fuel cb c).ctx) :
    Answering (callback cfg env fuel cb c).ctx.hs := by
  cases cb with
  | recv p err => exact httpRecv_answering hdyn p err h hquiet
  | sent => exact httpSent_answering hdyn h hquiet
  | poll => exact httpPoll_answering hdyn h hquiet
  | err => exact absurd rfl hne

end

/-- **Every `http_state` has the form of a response**, in every state of every run. -/
theorem answering_kept {cfg : Config} (hdyn : cfg.dynamicHttpHeaders = true) :
    KeptByCallbacks cfg (fun _ => True) Answering where
  accept garbage := by
    -- a new connection has nothing to send
    intro _
    refine ⟨rfl, fun hidx => ?_⟩
    simp [HttpState.accept, hdyn] at hidx
  state cb hne env fuel c _ h hquiet := callback_answering hdyn hne h hquiet
  table cb env fuel c _ := trivial

/-! ## A segment during a response -/

/-- Calls of `tcp_write`. -/
def writesTcp : Ev → Bool
  | .tcpWrite .. => true
  | _ => false

/-- **The segment is acknowledged and freed**, and that is all. -/
structure Undisturbed (p : Segment) (c : Ctx) (o : Outcome) : Prop where
  returned : o.returned = true
  state    : o.ctx.hs = c.hs
  acked    : .tcpRecved p.totLen ∈ o.ctx.log
  released : ReleasedOnce o.ctx.log
  silent   : ∀ e ∈ o.ctx.log, writesTcp e = false ∧ e.isClose = false ∧ e ≠ .tcpAbort

section
variable {cfg : Config} {env : Env} {fuel : Nat} {p : Segment} {c : Ctx}

/-- What closes the connection disturbs it. -/
theorem not_undisturbed_closeConn {o : Outcome} {c₁ : Ctx} (hclose : o.ctx = closeConn env c₁) :
    ¬Undisturbed p c o := by
  intro h
  have hmem : .tcpClose env.close ∈ o.ctx.log := by simp [hclose, closeConn_log, closeEvents]
  exact Bool.noConfusion (h.silent _ hmem).2.1

/-- With a file, the segment is only acknowledged and freed. -/
theorem httpRecv_busy (hhandle : c.hs.handle ≠ none) : httpRecv cfg env fuel (some p) .ok c =
    ⟨{ c with payload := p.mem, log := c.log ++ [.tcpRecved p.totLen, .useState c.self, .pbufFree] }, true⟩ := by
  rw [httpRecv_some, if_neg hhandle]
  simp [Ctx.receive, Ctx.emit, Ctx.useState]

/-- **The guard of `http_recv`** leaves a connection alone exactly when it has a file. -/
theorem undisturbed_iff (hdyn : cfg.dynamicHttpHeaders = true) (h0 : c.log = []) :
    Undisturbed p c (httpRecv cfg env fuel (some p) .ok c) ↔ c.hs.handle ≠ none := by
  constructor
  · intro h hhandle
    rw [httpRecv_some, if_pos hhandle] at h
    rcases handleRequest_cases cfg env fuel (p := p) (c := c.receive p) rfl with ⟨c₁, -, heq⟩ | ⟨c₂, hparse, heq⟩
    · rw [heq] at h
      exact not_undisturbed_closeConn rfl h
    · rw [heq] at h
      have hreceive : Adds keepsSegment c (c.receive p) := receive_adds (fun _ => rfl) (fun _ => rfl) c p
      have hopened := openRequested_spec cfg env c₂
      obtain ⟨hset, -⟩ := setUpResponse_answering hdyn (openRequested_null cfg env c₂) (openRequested cfg env c₂).2.2
      generalize openRequested cfg env c₂ = r at h hset hopened
      obtain ⟨file, uri, c₃⟩ := r
      simp only at h hset hopened
      -- without a file the segment is kept, with one the handle changes
      have hbefore : Adds keepsSegment c c₃ := hreceive.trans (hparse.keepsSegment.trans hopened.1.keepsSegment)
      obtain ⟨hfile, -⟩ := (setUpResponse_released_iff cfg env fuel file uri h0 hbefore).mp h.released
      by_cases hfin : Finished cfg env ((setUpResponse cfg file uri c₃).emit (.tcpSent true))
      · obtain ⟨c₄, -, hclose⟩ := sendData_finished cfg env fuel _ hfin
        exact not_undisturbed_closeConn (congrArg Outcome.ctx hclose) h
      · have hkept := (sendData_open cfg env fuel _ hfin).handle
        rw [h.state, hhandle] at hkept
        exact hfile (hset.symm.trans hkept.symm)
  · intro hhandle
    rw [httpRecv_busy hhandle]
    refine ⟨rfl, rfl, ?_, ?_, ?_⟩
    · simp
    · simp [h0, ReleasedOnce, NoneAfter, Ev.usesPayload]
    · simp [h0, writesTcp, Ev.isClose]

end

/-! ## Two runs -/

/-- What happens to the server: a step of the run as it would be anyway, or a segment that arrives on top. -/
inductive Input where
  | act (a : Action)
  | inject (j : Nat) (p : Segment) (env : Env) (fuel : Nat)

/-- An injected segment comes like any other. -/
def Input.action : Input → Action
  | .act a => a
  | .inject j p env fuel => .call j (.recv (some p) .ok) env fuel

def Input.isAct : Input → Bool
  | .act _ => true
  | .inject .. => false

def Server.inputStep (cfg : Config) (s : Server) (i : Input) : Option Server := s.step cfg i.action

/-- A response made from a file is in progress on connection `j`. -/
def Server.ServesFile (s : Server) (j : Nat) : Prop :=
  ∃ n, s.holder j = some n ∧ Responding (s.objs n) ∧ (s.objs n).handle ≠ none

/-- Every injected segment arrives during a response made from a file. -/
def InjectedWhileServing (tr : List (Server × Input)) : Prop :=
  ∀ s j p env fuel, (s, .inject j p env fuel) ∈ tr → s.ServesFile j

/-- **The servers differ in their events only**, and not in what they handed to `tcp_write`. -/
structure SameWrites (s t : Server) : Prop where
  state  : s = { t with log := s.log }
  writes : s.log.filter writesTcp = t.log.filter writesTcp

section
variable {cfg : Config} {s s' t : Server}

/-- No step looks at the events of the past. -/
theorem step_relog (cfg : Config) (s : Server) (l : List Ev) (a : Action) :
    Server.step cfg { s with log := l } a =
      (s.step cfg a).map fun s' => { s' with log := l ++ s.callbackLog cfg a } := by
  unfold Server.step
  by_cases hblocked : s.blocked = true
  · rw [if_pos hblocked, if_pos hblocked]
    rfl
  rw [if_neg hblocked, if_neg hblocked]
  cases a with
  | accept garbage env =>
      by_cases hmalloc : (env.malloc 0).isSome = true
      · simp only [hmalloc, if_true, Option.map_some, Server.callbackLog]
        rfl
      · simp [hmalloc, Server.callbackLog]
  | ack j n =>
      cases hk : s.conns[j]? with
      | none => simp [hk]
      | some k =>
          by_cases hok : k.alive = true ∧ k.acked + n ≤ k.written
          · simp [hk, hok, Server.callbackLog]
          · simp [hk, hok]
  | call j cb env fuel =>
      cases hk : s.conns[j]? with
      | none => simp [hk]
      | some k =>
          by_cases hok : k.alive = true ∧ k.hears cb = true
          · simp only [hk, hok, and_self, if_true, Option.map_some, Server.callbackLog]
            rfl
          · simp [hk, hok]

/-- A step adds the events of its callback. -/
theorem step_log {a : Action} (hstep : s.step cfg a = some s') : s'.log = s.log ++ s.callbackLog cfg a := by
  have hsame := step_relog cfg s s.log a
  rw [show { s with log := s.log } = s from rfl, hstep, Option.map_some] at hsame
  exact congrArg Server.log (Option.some.inj hsame)

/-- The runs go on side by side. -/
theorem SameWrites.step {a : Action} (h : SameWrites s t) (hstep : s.step cfg a = some s') :
    ∃ t', t.step cfg a = some t' ∧ SameWrites s' t' := by
  have hstate := h.state
  have hlog : s.callbackLog cfg a = t.callbackLog cfg a := by rw [hstate]; cases a <;> rfl
  rw [hstate, step_relog] at hstep
  obtain ⟨t', ht', hs'⟩ := Option.map_eq_some_iff.mp hstep
  refine ⟨t', ht', by rw [← hs'], ?_⟩
  rw [← hs', step_log ht']
  simp only [List.filter_append, h.writes]

/-- A segment during a response made from a file changes nothing but the events. -/
theorem SameWrites.inject {j : Nat} {p : Segment} {env : Env} {fuel : Nat} (h : SameWrites s t)
    (hserve : s.ServesFile j)
    (hstep : s.step cfg (.call j (.recv (some p) .ok) env fuel) = some s') : SameWrites s' t := by
  obtain ⟨n, hn, -, hhandle⟩ := hserve
  cases Server.step_cases hstep with
  | @call _ _ _ _ k hidle hk halive hhears =>
      have harg : k.arg = some n := by
        rw [holder_of hk] at hn
        simpa [Conn.holds, halive] using hn
      have hinvoke : s.invoke cfg k (.recv (some p) .ok) env fuel =
          ⟨{ s.ctx n with payload := p.mem, log := [.tcpRecved p.totLen, .useState n, .pbufFree] }, true⟩ := by
        unfold Server.invoke
        rw [harg]
        exact httpRecv_busy hhandle
      have hconn : k.applyAll n [.tcpRecved p.totLen, .useState n, .pbufFree] = k := rfl
      have hconns : s.conns.set j k = s.conns := by
        obtain ⟨hj, hget⟩ := List.getElem?_eq_some_iff.mp hk
        rw [← hget]
        exact List.set_getElem_self hj
      -- the callback leaves the connection, the state and the memory as they were
      have hsame : s.absorb j (k.before (.recv (some p) .ok)) (s.invoke cfg k (.recv (some p) .ok) env fuel) =
          { s with log := s.log ++ [.tcpRecved p.totLen, .useState n, .pbufFree] } := by
        rw [hinvoke]
        simp only [Server.absorb, Conn.before, hconn, hconns, Server.ctx, Function.update_eq_self, Bool.not_true]
        rw [hidle]
      have hstate := h.state
      rw [hsame]
      refine ⟨?_, ?_⟩
      · rw [hstate]
      · show (s.log ++ [Ev.tcpRecved p.totLen, .useState n, .pbufFree]).filter writesTcp = t.log.filter writesTcp
        rw [List.filter_append, h.writes]
        simp [writesTcp]

end

/-! ## Input during a response -/

/-- **Input during a response** does no harm exactly where the response is made from a file; what is disturbed is the
    built-in page. Segments that arrive while files are served can be left out of a run, with the same outcome and
    the same calls of `tcp_write`. -/
theorem input_undisturbed_iff {cfg : Config} (hdyn : cfg.dynamicHttpHeaders = true) {slots : Nat} {mem : Mem}
    {tr : List (Server × Action)} {s : Server} (hrun : Run (Server.step cfg) (Server.init slots mem) tr s) :
    (∀ j k n, s.conns[j]? = some k → s.holder j = some n → Responding (s.objs n) →
      (∀ p env fuel, Undisturbed p (s.ctx n) (s.invoke cfg k (.recv (some p) .ok) env fuel) ↔
        (s.objs n).handle ≠ none) ∧
      ((s.objs n).handle = none → BuiltIn (s.objs n))) ∧
    ∀ tr' s', Run (Server.inputStep cfg) s tr' s' → InjectedWhileServing tr' →
      ∃ tr₀ s₀, Run (Server.inputStep cfg) s tr₀ s₀ ∧
        tr₀.map Prod.snd = (tr'.map Prod.snd).filter Input.isAct ∧ SameWrites s' s₀ := by
  refine ⟨?_, ?_⟩
  · intro j k n hk hn _
    refine ⟨fun p env fuel => ?_, ((answering_kept hdyn).run trivial hrun).2 j n hn⟩
    have harg : k.arg = some n := by
      rw [holder_of hk] at hn
      unfold Conn.holds at hn
      split at hn
      · exact hn
      · exact absurd hn (by simp)
    unfold Server.invoke
    rw [harg]
    exact undisturbed_iff hdyn rfl
  · intro tr' s' hrun' hinjected
    -- the run without the segments goes on side by side
    refine hrun'.erase ⟨rfl, rfl⟩ ?_ ?_
    · intro s₁ i s₂ t _ _ hsame hstep
      exact hsame.step hstep
    · intro s₁ i s₂ t hmem hinject hsame hstep
      cases i with
      | act a => exact absurd hinject (by simp [Input.isAct])
      | inject j p env fuel => exact hsame.inject (hinjected s₁ j p env fuel hmem) hstep

/-! Three bytes of a response are sent when the next segment comes: once the response is a page, once it is the
built-in one. -/

def narrowEnv : Env := { soleEnv with sndbuf := fun _ => 3 }

theorem input_undisturbed_page :
    ∃ tr s k n, Run (Server.step (soleConfig pageFile true)) (Server.init 1 fun _ => 0) tr s ∧ s.conns[0]? = some k ∧
      s.holder 0 = some n ∧ Responding (s.objs n) ∧
      Undisturbed otherRequest (s.ctx n)
        (s.invoke (soleConfig pageFile true) k (.recv (some otherRequest) .ok) soleEnv 0) := by
  have hex : ((runActions (Server.step (soleConfig pageFile true)) (Server.init 1 fun _ => 0)
      [.accept .zero soleEnv, .call 0 (.recv (some pageRequest) .ok) narrowEnv 0]).map fun s =>
        (s.conns[0]?.isSome, s.holder 0, decide (Responding (s.objs 0)), (s.objs 0).handle)) =
          some (true, some 0, true, some 0) := by decide +kernel
  obtain ⟨s, hs, hstate⟩ := Option.map_eq_some_iff.mp hex
  obtain ⟨tr, hrun, -⟩ := Run.of_runActions hs
  simp only [Prod.mk.injEq, decide_eq_true_eq] at hstate
  obtain ⟨hconn, hholder, hresponding, hhandle⟩ := hstate
  obtain ⟨k, hk⟩ := Option.isSome_iff_exists.mp hconn
  obtain ⟨hiff, -⟩ := (input_undisturbed_iff rfl hrun).1 0 k 0 hk hholder hresponding
  exact ⟨tr, s, k, 0, hrun, hk, hholder, hresponding, (hiff otherRequest soleEnv 0).mpr (by rw [hhandle]; simp)⟩

/-- The page is requested while the headers of the built-in page are on their way. -/
def interrupted (injected : List Action) : List Action :=
  [.accept .zero soleEnv, .call 0 (.recv (some otherRequest) .ok) narrowEnv 0] ++ injected ++
    [.call 0 .sent narrowEnv 0]

theorem builtin_page_interrupted :
    ∃ tr s k n, Run (Server.step (soleConfig pageFile true)) (Server.init 1 fun _ => 0) tr s ∧ s.conns[0]? = some k ∧
      s.holder 0 = some n ∧ Responding (s.objs n) ∧
      ¬Undisturbed pageRequest (s.ctx n)
        (s.invoke (soleConfig pageFile true) k (.recv (some pageRequest) .ok) narrowEnv 0) ∧
      ((runActions (Server.step (soleConfig pageFile true)) (Server.init 1 fun _ => 0)
        (interrupted [])).map fun s => accepted Src.any s.log) = some (lit "HTTP/1") ∧
      ((runActions (Server.step (soleConfig pageFile true)) (Server.init 1 fun _ => 0)
        (interrupted [.call 0 (.recv (some pageRequest) .ok) narrowEnv 0])).map fun s => accepted Src.any s.log) =
          some (lit "HTTHTTP/1") := by
  have hex : ((runActions (Server.step (soleConfig pageFile true)) (Server.init 1 fun _ => 0)
      [.accept .zero soleEnv, .call 0 (.recv (some otherRequest) .ok) narrowEnv 0]).map fun s =>
        (s.conns[0]?.map fun k =>
            (s.invoke (soleConfig pageFile true) k (.recv (some pageRequest) .ok) narrowEnv 0).ctx.log.any writesTcp,
          s.holder 0, decide (Responding (s.objs 0)))) = some (some true, some 0, true) := by decide +kernel
  obtain ⟨s, hs, hstate⟩ := Option.map_eq_some_iff.mp hex
  obtain ⟨tr, hrun, -⟩ := Run.of_runActions hs
  simp only [Prod.mk.injEq, decide_eq_true_eq, Option.map_eq_some_iff] at hstate
  obtain ⟨⟨k, hk, hwrites⟩, hholder, hresponding⟩ := hstate
  refine ⟨tr, s, k, 0, hrun, hk, hholder, hresponding, fun h => ?_, by decide +kernel, by decide +kernel⟩
  obtain ⟨e, he, hwrite⟩ := List.any_eq_true.mp hwrites
  rw [(h.silent e he).1] at hwrite
  exact Bool.noConfusion hwrite

end ThirdParty.Httpd
