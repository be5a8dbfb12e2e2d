import ThirdParty.Httpd.Correctness.Conservation

/-!
# `Httpd.Correctness.AfterClose` — what the server does to a connection it has closed

Two slips, each with the exact condition under which it does no harm:

* `http_sent` registers itself again after `send_data` may have closed the connection, so it hands a pcb to lwIP
  that `tcp_close` may have freed: `pcb_unused_after_close_iff`;
* `close_conn` leaves the poll callback registered, and `http_poll` aborts every connection without an argument,
  so a poll cuts off a response that is still on its way: `response_not_cut_off_iff`.
-/

namespace ThirdParty.Httpd

open Lib Lwip

/-! ## Nothing but the close -/

/-- The calls of `tcp_close` that return `ERR_OK`. -/
def closesOk : Ev → Bool
  | .tcpClose .ok => true
  | _ => false

/-- The events of `close_conn` before the call of `tcp_close`. -/
theorem closeConn_split (env : Env) (c : Ctx) : ∃ es, (closeConn env c).log = c.log ++ es ++ [.tcpClose env.close] ∧
    ∀ e ∈ es, closesOk e = false := by
  refine ⟨[.tcpArg false, .tcpSent false, .tcpRecv false, .useState c.self] ++ freeEvents c, ?_, ?_⟩
  · simp only [closeConn_log, closeEvents, List.append_assoc]
  · unfold freeEvents
    cases c.hs.buf <;> simp [closesOk]

/-- Closing is the last thing done. -/
theorem noneAfter_closeConn (env : Env) {c : Ctx} (h : ∀ e ∈ c.log, closesOk e = false) :
    NoneAfter closesOk Ev.usesPcb (closeConn env c).log ∧
    ((∃ e ∈ (closeConn env c).log, closesOk e = true) ↔ env.close = .ok) := by
  obtain ⟨es, hes, hall⟩ := closeConn_split env c
  have hbefore : ∀ e ∈ c.log ++ es, closesOk e = false := fun e he =>
    (List.mem_append.mp he).elim (h e) (hall e)
  rw [hes]
  constructor
  · refine noneAfter_append.mpr ⟨noneAfter_of_no_start hbefore, by simp [NoneAfter], ?_⟩
    rintro ⟨e, he, hclose⟩
    rw [hbefore e he] at hclose
    exact absurd hclose Bool.false_ne_true
  · constructor
    · rintro ⟨e, he, hclose⟩
      rcases List.mem_append.mp he with he | he
      · rw [hbefore e he] at hclose
        exact absurd hclose Bool.false_ne_true
      · rw [List.mem_singleton.mp he] at hclose
        cases hc : env.close <;> rw [hc] at hclose <;> first | rfl | exact absurd hclose Bool.false_ne_true
    · intro hok
      exact ⟨.tcpClose .ok, by rw [hok]; simp, rfl⟩

theorem closesOk_of_quiet {e : Ev} (h : quiet e = true) : closesOk e = false := by
  cases e <;> first | rfl | exact absurd h Bool.false_ne_true

section
variable {R : Rest} {L₀ : Ledger Key} {env : Env} {c₀ c : Ctx}

theorem Reached.closesOk (h : Reached R L₀ c₀ c) (h0 : c₀.log = []) : ∀ e ∈ c.log, closesOk e = false := by
  obtain ⟨es, hes, hall⟩ := h.log
  rw [hes, h0, List.nil_append]
  exact fun e he => closesOk_of_quiet (hall e he)

/-- The response is complete: `close_conn` follows. -/
theorem Reached.noneAfter_finished (h : Reached R L₀ c₀ c) (h0 : c₀.log = []) (env : Env) :
    NoneAfter Httpd.closesOk Ev.usesPcb (closeConn env (c.emit .endOfResponse)).log ∧
    ((∃ e ∈ (closeConn env (c.emit .endOfResponse)).log, Httpd.closesOk e = true) ↔ env.close = .ok) := by
  refine noneAfter_closeConn env fun e he => ?_
  rcases List.mem_append.mp he with he | he
  · exact h.closesOk h0 e he
  · rw [List.mem_singleton.mp he]
    rfl

/-- **However a callback ends**, it does not touch the pcb after a successful close. -/
theorem Ends.noneAfter (h : Ends R L₀ env c₀ c) (h0 : c₀.log = []) : NoneAfter closesOk Ev.usesPcb c.log := by
  cases h with
  | returned h => exact noneAfter_of_no_start (h.closesOk h0)
  | closed h => exact (noneAfter_closeConn env (h.closesOk h0)).1
  | finished h => exact (h.noneAfter_finished h0 env).1
  | aborted h =>
      next c₁ =>
      have hlog : (tcpAbort c₁).log = c₁.log ++ (.tcpAbort :: .useState c₁.self :: freeEvents c₁) := by
        simp [tcpAbort, connErr, freeEvents]
      refine noneAfter_of_no_start fun e he => ?_
      rw [hlog] at he
      rcases List.mem_append.mp he with he | he
      · exact h.closesOk h0 e he
      · unfold freeEvents at he
        cases hbuf : c₁.hs.buf <;> rw [hbuf] at he <;> simp at he <;> rcases he with rfl | rfl | rfl | rfl <;> rfl

/-- **`http_sent` uses the pcb after closing it** exactly when `send_data` finds the response complete and
    `tcp_close` succeeds. -/
theorem httpSent_noneAfter_iff (cfg : Config) (fuel : Nat) (hown : Owning R L₀ c.hs.handle c) (h0 : c.log = []) :
    NoneAfter closesOk Ev.usesPcb (httpSent cfg env fuel c).ctx.log ↔
      ¬(Finished cfg env c.notify ∧ env.close = .ok) := by
  have hretries : Reached R L₀ c (c.useState.setHs { c.hs with retries := 0 }) := (Reached.refl hown).setHs rfl rfl
  have hnotify : Reached R L₀ c c.notify := hretries.emit rfl rfl
  unfold httpSent
  by_cases hfin : Finished cfg env c.notify
  · obtain ⟨c₁, hstays, heq⟩ := sendData_finished cfg env fuel c.notify hfin
    obtain ⟨hnone, hiff⟩ := (hnotify.stays hstays).noneAfter_finished h0 env
    rw [heq]
    simp only [if_true, Ctx.emit_log, hfin, true_and]
    rw [noneAfter_append]
    constructor
    · rintro ⟨-, -, hcross⟩ hok
      exact absurd (hcross (hiff.mpr hok) _ (List.mem_singleton_self _)) (by simp [Ev.usesPcb])
    · intro hnot
      exact ⟨hnone, by simp [NoneAfter], fun hex => absurd (hiff.mp hex) hnot⟩
  · have hsent := hnotify.stays (sendData_open cfg env fuel c.notify hfin)
    refine iff_of_true ?_ fun h => hfin h.1
    simp only
    split
    · exact noneAfter_of_no_start ((hsent.emit rfl rfl).closesOk h0)
    · exact noneAfter_of_no_start (hsent.closesOk h0)

end

/-! ## Using a closed pcb -/

/-- `http_sent` is called, `send_data` finds the response complete, and `tcp_close` succeeds. -/
def ClosesInSent (cfg : Config) (s : Server) (a : Action) : Prop :=
  ∃ j k n env fuel, a = .call j .sent env fuel ∧ s.conns[j]? = some k ∧ k.arg = some n ∧
    Finished cfg env (s.ctx n).notify ∧ env.close = .ok

/-- A callback without an argument does not close. -/
theorem callbackNull_closesOk (cb : Callback) : ∀ e ∈ callbackNull cb, closesOk e = false := by
  intro e he
  cases cb with
  | recv p err => simp only [callbackNull] at he; split at he <;> simp_all [closesOk]
  | poll => rw [List.mem_singleton.mp he]; rfl
  | sent => exact absurd he List.not_mem_nil
  | err => exact absurd he List.not_mem_nil

/-- One callback of the run. -/
theorem callbackLog_noneAfter_iff {cfg : Config} {s s' : Server} {a : Action} (hinv : ServerInv s)
    (hstep : s.step cfg a = some s') :
    NoneAfter closesOk Ev.usesPcb (s.callbackLog cfg a) ↔ ¬ClosesInSent cfg s a := by
  cases Server.step_cases hstep with
  | accept hmalloc =>
      refine iff_of_true (noneAfter_of_no_start fun e he => ?_) (by simp [ClosesInSent])
      rw [Server.callbackLog, if_pos hmalloc] at he
      simp [httpAccept, Server.ctx] at he
      rcases he with rfl | rfl | rfl | rfl | rfl | rfl <;> rfl
  | refuse hmalloc =>
      refine iff_of_true ?_ (by simp [ClosesInSent])
      rw [Server.callbackLog, if_neg hmalloc]
      exact List.Pairwise.nil
  | ack hk halive hroom => exact iff_of_true List.Pairwise.nil (by simp [ClosesInSent])
  | @call j cb env fuel k hidle hk halive hhears =>
      simp only [Server.callbackLog, hk, Server.invoke]
      cases harg : k.arg with
      | none =>
          refine iff_of_true (noneAfter_of_no_start (callbackNull_closesOk cb)) ?_
          rintro ⟨j', k', n, env', fuel', ha, hk', harg', -⟩
          obtain ⟨rfl, -⟩ := Action.call.inj ha
          rw [hk] at hk'
          obtain rfl := Option.some.inj hk'
          rw [harg] at harg'
          exact absurd harg' (by simp)
      | some n =>
          have hn : s.holder j = some n := by
            rw [holder_of hk, Conn.holds, if_pos halive, harg]
          obtain ⟨L₀, -, hown⟩ := hinv.owning hn
          have hother : cb ≠ .sent → ¬ClosesInSent cfg s (.call j cb env fuel) := by
            rintro hne ⟨j', k', n', env', fuel', ha, -⟩
            exact hne (Action.call.inj ha).2.1
          cases cb with
          | recv p err =>
              exact iff_of_true ((httpRecv_ends cfg env fuel p err hown).noneAfter rfl) (hother (by simp))
          | poll => exact iff_of_true ((httpPoll_ends cfg env fuel hown).noneAfter rfl) (hother (by simp))
          | err =>
              refine iff_of_true (noneAfter_of_no_start fun e he => ?_) (hother (by simp))
              simp only [callback, connErr, freeAll_log, closeHandle_log, freeEvents] at he
              cases hbuf : (s.objs n).buf <;> simp [Server.ctx, hbuf] at he <;>
                rcases he with rfl | rfl | rfl <;> rfl
          | sent =>
              -- `http_sent` alone goes on after `send_data`
              refine (httpSent_noneAfter_iff cfg fuel hown rfl).trans (not_congr ?_)
              constructor
              · rintro ⟨hfin, hclose⟩
                exact ⟨j, k, n, env, fuel, rfl, hk, harg, hfin, hclose⟩
              · rintro ⟨j', k', n', env', fuel', ha, hk', harg', hfin, hclose⟩
                obtain ⟨rfl, -, rfl, rfl⟩ := Action.call.inj ha
                rw [hk] at hk'
                obtain rfl := Option.some.inj hk'
                rw [harg] at harg'
                obtain rfl := Option.some.inj harg'
                exact ⟨hfin, hclose⟩

def servedPage : List Action := [.accept .zero soleEnv, .call 0 (.recv (some pageRequest) .ok) soleEnv 0, .ack 0 1]

/-- A callback aborts a connection that was closed with its response complete, but not yet acknowledged. -/
def AbortsUnacked (cfg : Config) (s : Server) (a : Action) : Prop :=
  ∃ j k cb env fuel, a = .call j cb env fuel ∧ s.conns[j]? = some k ∧ k.finished = true ∧ k.unacked = true ∧
    .tcpAbort ∈ s.callbackLog cfg a

/-- Such a connection is polled. -/
def PollsUnacked (s : Server) (a : Action) : Prop :=
  ∃ j k env fuel, a = .call j .poll env fuel ∧ s.conns[j]? = some k ∧ k.finished = true ∧ k.unacked = true

/-- A connection closed with its response complete has no argument. -/
def FinishedLeft (s : Server) : Prop := ∀ k ∈ s.conns, k.finished = true → k.arg = none

/-- Events that change neither the argument nor whether the response was found complete. -/
def calm : Ev → Bool
  | .tcpArg _ | .endOfResponse => false
  | _ => true

theorem calm_of_quiet {e : Ev} (h : quiet e = true) : calm e = true := by
  cases e <;> first | rfl | exact absurd h Bool.false_ne_true

theorem applyAll_append (self : Nat) (k : Conn) (l₁ l₂ : List Ev) :
    k.applyAll self (l₁ ++ l₂) = (k.applyAll self l₁).applyAll self l₂ := List.foldl_append

theorem applyAll_calm (self : Nat) : ∀ {log : List Ev} {k : Conn}, (∀ e ∈ log, calm e = true) →
    (k.applyAll self log).finished = k.finished ∧ (k.applyAll self log).arg = k.arg := by
  intro log
  induction log with
  | nil => intro k _; exact ⟨rfl, rfl⟩
  | cons e log ih =>
      intro k h
      obtain ⟨hfin, harg⟩ := ih (k := k.apply self e) fun e' he' => h e' (List.mem_cons_of_mem _ he')
      have hstep : (k.apply self e).finished = k.finished ∧ (k.apply self e).arg = k.arg := by
        have he := h e (List.mem_cons_self ..)
        cases e with
        | tcpArg set => exact absurd he Bool.false_ne_true
        | endOfResponse => exact absurd he Bool.false_ne_true
        | tcpWrite src data err => cases err <;> exact ⟨rfl, rfl⟩
        | _ => exact ⟨rfl, rfl⟩
      exact ⟨hfin.trans hstep.1, harg.trans hstep.2⟩

/-- `close_conn` takes the argument away. -/
theorem applyAll_closeConn (self : Nat) (env : Env) (c : Ctx) (k : Conn) :
    (k.applyAll self (closeConn env c).log).arg = none := by
  rw [closeConn_log, applyAll_append, closeEvents, List.append_assoc, List.cons_append, Conn.applyAll,
    List.foldl_cons]
  refine (applyAll_calm self fun e he => ?_).2
  unfold freeEvents at he
  cases hbuf : c.hs.buf <;> rw [hbuf] at he <;> simp at he <;> rcases he with rfl | rfl | rfl | rfl | rfl | rfl <;> rfl

/-- After a callback that found the response complete there is no argument. -/
def LeavesFinished (log : List Ev) : Prop :=
  ∀ (self : Nat) (k : Conn), k.finished = false → (k.applyAll self log).finished = true →
    (k.applyAll self log).arg = none

theorem leavesFinished_of_calm {log : List Ev} (h : ∀ e ∈ log, calm e = true) : LeavesFinished log := by
  intro self k hk hfin
  rw [(applyAll_calm self h).1, hk] at hfin
  exact absurd hfin Bool.false_ne_true

theorem LeavesFinished.append {log log' : List Ev} (h : LeavesFinished log) (h' : ∀ e ∈ log', calm e = true) :
    LeavesFinished (log ++ log') := by
  intro self k hk hfin
  rw [applyAll_append] at hfin ⊢
  rw [(applyAll_calm self h').1] at hfin
  rw [(applyAll_calm self h').2]
  exact h self k hk hfin

theorem connErr_calm (c : Ctx) : Adds calm c (connErr c) := by
  refine ⟨.useState c.self :: freeEvents c, by simp [connErr, freeEvents], ?_⟩
  unfold freeEvents
  cases c.hs.buf <;> simp [calm]

theorem Ends.leavesFinished {R : Rest} {L₀ : Ledger Key} {env : Env} {c₀ c : Ctx} (h : Ends R L₀ env c₀ c)
    (h0 : c₀.log = []) : LeavesFinished c.log := by
  cases h with
  | returned h =>
      obtain ⟨es, hes, hall⟩ := h.log
      rw [hes, h0, List.nil_append]
      exact leavesFinished_of_calm fun e he => calm_of_quiet (hall e he)
  | closed h => exact fun self k _ _ => applyAll_closeConn self env _ k
  | finished h => exact fun self k _ _ => applyAll_closeConn self env _ k
  | aborted h =>
      next c₁ =>
      obtain ⟨es, hes, hall⟩ := h.log
      obtain ⟨es', hes', hall'⟩ := connErr_calm (c₁.emit .tcpAbort)
      unfold tcpAbort
      rw [hes', Ctx.emit_log, hes, h0, List.nil_append]
      refine leavesFinished_of_calm fun e he => ?_
      rcases List.mem_append.mp he with he | he
      · rcases List.mem_append.mp he with he | he
        · exact calm_of_quiet (hall e he)
        · rw [List.mem_singleton.mp he]; rfl
      · exact hall' e he

theorem callback_leavesFinished {R : Rest} {L₀ : Ledger Key} {c : Ctx} (cfg : Config) (env : Env) (fuel : Nat)
    (cb : Callback) (hown : Owning R L₀ c.hs.handle c) (h0 : c.log = []) :
    LeavesFinished (callback cfg env fuel cb c).ctx.log := by
  cases cb with
  | recv p err => exact (httpRecv_ends cfg env fuel p err hown).leavesFinished h0
  | sent =>
      have hsend := (httpSent_ends cfg env fuel hown).leavesFinished h0
      simp only [callback, httpSent]
      split
      · exact hsend.append (by simp [calm])
      · exact hsend
  | poll => exact (httpPoll_ends cfg env fuel hown).leavesFinished h0
  | err =>
      obtain ⟨es, hes, hall⟩ := connErr_calm c
      refine leavesFinished_of_calm fun e he => hall e ?_
      rw [h0, List.nil_append] at hes
      rwa [← hes]

theorem callbackNull_calm (cb : Callback) : ∀ e ∈ callbackNull cb, calm e = true := by
  intro e he
  cases cb with
  | recv p err => simp only [callbackNull] at he; split at he <;> simp_all [calm]
  | poll => rw [List.mem_singleton.mp he]; rfl
  | sent => exact absurd he List.not_mem_nil
  | err => exact absurd he List.not_mem_nil

theorem Conn.before_fields (k : Conn) (cb : Callback) :
    (k.before cb).finished = k.finished ∧ (k.before cb).arg = k.arg := by
  cases cb <;> exact ⟨rfl, rfl⟩

/-- A step keeps it. -/
theorem finishedLeft_step {cfg : Config} {s s' : Server} {a : Action} (h : ServerInv s ∧ FinishedLeft s)
    (hstep : s.step cfg a = some s') : ServerInv s' ∧ FinishedLeft s' := by
  refine ⟨serverInv_step h.1 hstep, ?_⟩
  obtain ⟨hinv, hleft⟩ := h
  have hset : ∀ {j : Nat} {k' : Conn} {conns : List Conn}, (∀ k ∈ conns, k.finished = true → k.arg = none) →
      (k'.finished = true → k'.arg = none) → ∀ k ∈ conns.set j k', k.finished = true → k.arg = none := by
    intro j k' conns hall hk' k hk
    rcases List.mem_or_eq_of_mem_set hk with hk | rfl
    · exact hall k hk
    · exact hk'
  cases Server.step_cases hstep with
  | accept hmalloc =>
      refine hset (fun k hk => ?_) (by simp [Conn.applyAll, httpAccept, Server.ctx, Conn.apply, Conn.fresh])
      rcases List.mem_append.mp hk with hk | hk
      · exact hleft k hk
      · rw [List.mem_singleton.mp hk]
        exact fun _ => rfl
  | refuse hmalloc => exact hleft
  | @ack j n k hk halive hroom => exact hset hleft (hleft k (List.mem_of_getElem? hk))
  | @call j cb env fuel k hidle hk halive hhears =>
      have hkfin := hleft k (List.mem_of_getElem? hk)
      obtain ⟨hbfin, hbarg⟩ := k.before_fields cb
      refine hset hleft ?_
      unfold Server.invoke
      cases harg : k.arg with
      | none =>
          -- without an argument nothing is closed
          intro _
          rw [(applyAll_calm _ (callbackNull_calm cb)).2, hbarg, harg]
      | some n =>
          have hn : s.holder j = some n := by
            rw [holder_of hk, Conn.holds, if_pos halive, harg]
          obtain ⟨L₀, -, hown⟩ := hinv.owning hn
          refine callback_leavesFinished cfg env fuel cb hown rfl _ _ ?_
          rw [hbfin]
          cases hfin : k.finished with
          | false => rfl
          | true =>
              have := hkfin hfin
              rw [harg] at this
              exact absurd this (by simp)

/-- **A fully queued response is never cut off**, in a run of the server, if and only if no connection is polled
    that was closed with its response complete while bytes of it are unacknowledged. -/
theorem response_not_cut_off_iff {cfg : Config} {slots : Nat} {mem : Mem} {tr : List (Server × Action)}
    {s : Server} (hrun : Run (Server.step cfg) (Server.init slots mem) tr s) :
    (∀ sa ∈ tr, ¬AbortsUnacked cfg sa.1 sa.2) ↔ ∀ sa ∈ tr, ¬PollsUnacked sa.1 sa.2 := by
  have h0 : ServerInv (Server.init slots mem) ∧ FinishedLeft (Server.init slots mem) :=
    ⟨serverInv_init slots mem, fun k hk => absurd hk List.not_mem_nil⟩
  refine forall₂_congr fun sa hsa => not_congr ?_
  obtain ⟨⟨-, hleft⟩, -⟩ := hrun.invariant_taken h0 finishedLeft_step sa hsa
  -- a response that is complete has left its connection without an argument
  have hnull : ∀ {j k cb env fuel}, sa.2 = .call j cb env fuel → sa.1.conns[j]? = some k → k.finished = true →
      sa.1.callbackLog cfg sa.2 = callbackNull cb := by
    intro j k cb env fuel ha hk hfin
    have harg := hleft k (List.mem_of_getElem? hk) hfin
    rw [ha]
    simp only [Server.callbackLog, hk, Server.invoke, harg]
  constructor
  · rintro ⟨j, k, cb, env, fuel, ha, hk, hfin, hun, habort⟩
    rw [hnull ha hk hfin] at habort
    cases cb with
    | poll => exact ⟨j, k, env, fuel, ha, hk, hfin, hun⟩
    | recv p err => simp only [callbackNull] at habort; split at habort <;> simp at habort
    | sent => exact absurd habort List.not_mem_nil
    | err => exact absurd habort List.not_mem_nil
  · rintro ⟨j, k, env, fuel, ha, hk, hfin, hun⟩
    refine ⟨j, k, .poll, env, fuel, ha, hk, hfin, hun, ?_⟩
    rw [hnull ha hk hfin]
    exact List.mem_singleton_self _

theorem response_not_cut_off_served :
    ∃ tr s, Run (Server.step (soleConfig pageFile false)) (Server.init 1 fun _ => 0) tr s ∧
      tr.map Prod.snd = servedPage ++ [.call 0 .sent soleEnv 0, .ack 0 2] ∧
      ∀ sa ∈ tr, ¬AbortsUnacked (soleConfig pageFile false) sa.1 sa.2 := by
  have hex : ((runActions (Server.step (soleConfig pageFile false)) (Server.init 1 fun _ => 0)
      (servedPage ++ [.call 0 .sent soleEnv 0, .ack 0 2])).map fun _ => true) = some true := by decide +kernel
  obtain ⟨s, hs, -⟩ := Option.map_eq_some_iff.mp hex
  obtain ⟨tr, hrun, hacts⟩ := Run.of_runActions hs
  refine ⟨tr, s, hrun, hacts, (response_not_cut_off_iff hrun).mpr ?_⟩
  rintro sa hsa ⟨j, k, env, fuel, ha, -⟩
  have hmem : sa.2 ∈ tr.map Prod.snd := List.mem_map_of_mem hsa
  rw [hacts, ha] at hmem
  simp [servedPage] at hmem

/-- **The response is cut off**: two of the three bytes are unacknowledged when the connection is polled. -/
theorem response_cut_off :
    ∃ tr s a s', Run (Server.step (soleConfig pageFile false)) (Server.init 1 fun _ => 0) tr s ∧
      s.step (soleConfig pageFile false) a = some s' ∧ AbortsUnacked (soleConfig pageFile false) s a := by
  have hex : ((runActions (Server.step (soleConfig pageFile false)) (Server.init 1 fun _ => 0)
      (servedPage ++ [.call 0 .sent soleEnv 0])).map fun s =>
        ((s.step (soleConfig pageFile false) (.call 0 .poll soleEnv 0)).isSome,
          (s.conns[0]?).map fun k => (k.finished, k.unacked),
          decide (.tcpAbort ∈ s.callbackLog (soleConfig pageFile false) (.call 0 .poll soleEnv 0)))) =
        some (true, some (true, true), true) := by decide +kernel
  obtain ⟨s, hs, hstep⟩ := Option.map_eq_some_iff.mp hex
  obtain ⟨hsome, hrest⟩ := Prod.mk.inj hstep
  obtain ⟨hconn, habort⟩ := Prod.mk.inj hrest
  obtain ⟨k, hk, hflags⟩ := Option.map_eq_some_iff.mp hconn
  obtain ⟨hfin, hun⟩ := Prod.mk.inj hflags
  obtain ⟨tr, hrun, -⟩ := Run.of_runActions hs
  obtain ⟨s', hs'⟩ := Option.isSome_iff_exists.mp hsome
  exact ⟨tr, s, _, s', hrun, hs', 0, k, .poll, soleEnv, 0, rfl, hk, hfin, hun, of_decide_eq_true habort⟩

end ThirdParty.Httpd
