import ThirdParty.Httpd.Correctness.Opening
import ThirdParty.Httpd.Correctness.Resources

/-!
# `Httpd.Correctness.Callbacks` — how a callback ends

Every callback works quietly for a while, with the resources of its connection in hand, and then either returns,
or closes the connection, because of the request or because `send_data` found the response complete, or aborts
it: `Ends`. Only `http_sent` does one thing more, it registers itself again. All that is said about the server
in the long run starts from here.
-/

namespace ThirdParty.Httpd

open Lib Lwip

/-! ## Quiet work -/

/-- Events that neither change the argument of a connection nor end it. -/
def quiet : Ev → Bool
  | .tcpArg _ | .tcpAbort | .tcpClose _ | .endOfResponse => false
  | _ => true

theorem Parses.quiet {pay : Bool} {c c' : Ctx} (h : Parses pay c c') : Adds quiet c c' := by
  obtain ⟨es, hes, hall⟩ := h.log
  refine ⟨es, hes, fun e he => ?_⟩
  have hparse := hall e he
  cases e <;> first | rfl | exact absurd hparse Bool.false_ne_true

theorem Stays.quiet {p : Src → Bool} {c c' : Ctx} (h : Stays p c c') : Adds quiet c c' :=
  h.adds.mono fun e he => by cases e <;> first | rfl | exact absurd he Bool.false_ne_true

section
variable {q : Ev → Bool} {cfg : Config} {env : Env} {fuel : Nat} {c₀ c : Ctx}

/-- Closing is not quiet. -/
theorem not_quiet_closeConn (hbefore : Adds q c₀ c) : ¬Adds quiet c₀ (closeConn env c) := by
  intro h
  have hmem : .tcpArg false ∈ closeEvents env c := by simp [closeEvents]
  exact absurd (h.event hbefore (closeConn_log env c) hmem) (by decide)

/-- Nor is the end of a response. -/
theorem not_finished_of_quiet (hbefore : Adds (fun _ => true) c₀ c) (h : Adds quiet c₀ (sendData cfg env fuel c).ctx) :
    ¬Finished cfg env c := by
  intro hfin
  obtain ⟨c₁, hstays, heq⟩ := sendData_finished cfg env fuel c hfin
  rw [heq] at h
  refine not_quiet_closeConn (q := fun _ => true) (hbefore.trans ?_) h
  exact (hstays.adds.mono fun _ _ => rfl).trans (.emit c₁ rfl)

end

/-- **A callback that started in `c₀` has got to `c`** with nothing decided yet. -/
structure Reached (R : Rest) (L₀ : Ledger Key) (c₀ c : Ctx) : Prop where
  own  : Owning R L₀ c.hs.handle c
  log  : Adds quiet c₀ c
  self : c.self = c₀.self

/-- **The ways a callback ends.** -/
inductive Ends (R : Rest) (L₀ : Ledger Key) (env : Env) (c₀ : Ctx) : Ctx → Prop where
  | returned {c : Ctx} (h : Reached R L₀ c₀ c) : Ends R L₀ env c₀ c
  | closed {c : Ctx} (h : Reached R L₀ c₀ c) : Ends R L₀ env c₀ (closeConn env c)
  | finished {c : Ctx} (h : Reached R L₀ c₀ c) : Ends R L₀ env c₀ (closeConn env (c.emit .endOfResponse))
  | aborted {c : Ctx} (h : Reached R L₀ c₀ c) : Ends R L₀ env c₀ (tcpAbort c)

section
variable {R : Rest} {L₀ : Ledger Key} {env : Env} {c₀ c c' : Ctx}

theorem Reached.refl (h : Owning R L₀ c.hs.handle c) : Reached R L₀ c c := ⟨h, .refl c, rfl⟩

theorem Reached.emit (h : Reached R L₀ c₀ c) {e : Ev} (hheap : heapOps e = []) (he : quiet e = true) :
    Reached R L₀ c₀ (c.emit e) :=
  ⟨h.own.emit (by simp [usesOnly, hheap]), h.log.trans (.emit c he), h.self⟩

theorem Reached.parses {pay : Bool} (h : Reached R L₀ c₀ c) (hp : Parses pay c c') : Reached R L₀ c₀ c' :=
  ⟨by rw [hp.handle]; exact h.own.parses hp, h.log.trans hp.quiet, hp.self.trans h.self⟩

theorem Reached.stays {p : Src → Bool} (h : Reached R L₀ c₀ c) (hs : Stays p c c') : Reached R L₀ c₀ c' :=
  ⟨by rw [hs.handle]; exact h.own.stays hs, h.log.trans hs.quiet, hs.self.trans h.self⟩

/-- Fields of the `http_state` other than the handle and the buffer. -/
theorem Reached.setHs (h : Reached R L₀ c₀ c) {hs : HttpState} (hhandle : hs.handle = c.hs.handle)
    (hbuf : hs.buf = c.hs.buf) : Reached R L₀ c₀ (c.useState.setHs hs) := by
  refine ⟨?_, h.log.trans ((Adds.emit c rfl).trans (.of_log rfl)), h.self⟩
  show Owning R L₀ hs.handle (c.useState.setHs hs)
  rw [hhandle]
  exact h.own.useState.setHs hbuf

/-- **`send_data`**. -/
theorem Reached.sendData (cfg : Config) (fuel : Nat) (h : Reached R L₀ c₀ c) :
    Ends R L₀ env c₀ (sendData cfg env fuel c).ctx := by
  by_cases hfin : Finished cfg env c
  · obtain ⟨c₁, hstays, heq⟩ := sendData_finished cfg env fuel c hfin
    rw [heq]
    exact .finished (h.stays hstays)
  · exact .returned (h.stays (sendData_open cfg env fuel c hfin))

end

/-! ## The callbacks -/

section
variable {R : Rest} {L₀ : Ledger Key} {c₀ c : Ctx} (cfg : Config) (env : Env) (fuel : Nat)

/-- The headers for a response that is set up. -/
theorem Reached.headers (h : Reached R L₀ c₀ c) (uri : Uri) :
    Reached R L₀ c₀ (if cfg.dynamicHttpHeaders then getHttpHeaders c uri else c) := by
  split
  · exact h.parses (getHttpHeaders_parses c uri)
  · exact h

/-- The set-up of the response, with the file that was opened. -/
theorem setUpResponse_reached {file : Option Nat} (uri : Uri) (hown : Owning R L₀ file c) (hlog : Adds quiet c₀ c)
    (hself : c.self = c₀.self) : Reached R L₀ c₀ (setUpResponse cfg file uri c) := by
  unfold setUpResponse
  cases file with
  | none =>
      have hserve : Reached R L₀ c₀ (c.useState.setHs c.useState.hs.serveNothing) :=
        ⟨hown.useState.setHs rfl, hlog.trans ((Adds.emit c rfl).trans (.of_log rfl)), hself⟩
      exact hserve.headers cfg uri
  | some i =>
      have hserve : Reached R L₀ c₀ (c.useState.setHs (c.useState.hs.serve i (fsFile c.useState.fs i))) :=
        ⟨hown.useState.setHs rfl, hlog.trans ((Adds.emit c rfl).trans (.of_log rfl)), hself⟩
      exact (hserve.emit rfl rfl).headers cfg uri

/-- A request on a connection that is not serving a file. -/
theorem handleRequest_ends (p : Segment) (h : Reached R L₀ c₀ c) (hhandle : c.hs.handle = none) :
    Ends R L₀ env c₀ (handleRequest cfg env fuel p c).ctx := by
  unfold handleRequest
  have hread : Parses true c (c.emit (.payloadRead 0 (prefixReads (lit "GET ") c.payload))) := .emit c rfl
  have hscan := hread.trans
    (findHttp_parses p.len p.len 4 (c.emit (.payloadRead 0 (prefixReads (lit "GET ") c.payload))))
  simp only
  split
  swap
  · exact .closed ((h.parses hread).emit rfl rfl)
  generalize findHttp p.len p.len 4 (c.emit (.payloadRead 0 (prefixReads (lit "GET ") c.payload))) = r at hscan
  obtain ⟨i, c₁⟩ := r
  have h₁ := h.parses hscan
  simp only
  split
  · exact .closed (h₁.emit rfl rfl)
  · have hown₁ := h₁.own
    rw [hscan.handle, hhandle] at hown₁
    obtain ⟨hopens, -⟩ := openRequested_spec cfg env c₁
    generalize openRequested cfg env c₁ = r at hopens
    obtain ⟨file, uri, c₂⟩ := r
    have hparses := hopens.parses
    have h₃ := setUpResponse_reached cfg uri (hown₁.opens hopens) (h₁.log.trans hparses.quiet)
      (hparses.self.trans h₁.self)
    exact (h₃.emit rfl rfl).sendData cfg fuel

/-- `http_recv`. -/
theorem httpRecv_ends (p : Option Segment) (err : Err) (hown : Owning R L₀ c.hs.handle c) :
    Ends R L₀ env c (httpRecv cfg env fuel p err c).ctx := by
  by_cases hok : err = .ok
  swap
  · unfold httpRecv
    rw [if_neg hok]
    exact .returned (.refl hown)
  subst hok
  cases p with
  | none => exact .closed (.refl hown)
  | some p =>
      have hrecv : Reached R L₀ c (c.receive p) :=
        ⟨hown.keep rfl rfl rfl rfl
            ⟨[.tcpRecved p.totLen, .useState c.self], by simp [Ctx.receive], by simp [usesOnly, heapOps]⟩,
          receive_adds (fun _ => rfl) (fun _ => rfl) c p, rfl⟩
      rw [httpRecv_some]
      split
      · next hhandle => exact handleRequest_ends cfg env fuel p hrecv hhandle
      · exact .returned (hrecv.emit rfl rfl)

/-- `http_sent`, but for the last statement. -/
theorem httpSent_ends (hown : Owning R L₀ c.hs.handle c) : Ends R L₀ env c (sendData cfg env fuel c.notify).ctx := by
  have hretries : Reached R L₀ c (c.useState.setHs { c.hs with retries := 0 }) := (Reached.refl hown).setHs rfl rfl
  exact (hretries.emit rfl rfl).sendData cfg fuel

/-- `http_poll`. -/
theorem httpPoll_ends (hown : Owning R L₀ c.hs.handle c) : Ends R L₀ env c (httpPoll cfg env fuel c).ctx := by
  have hretry : Reached R L₀ c
      (c.useState.setHs { c.useState.hs with retries := toU8 ((c.useState.hs.retries : Int) + 1) }) :=
    (Reached.refl hown).setHs rfl rfl
  unfold httpPoll
  simp only
  split
  · exact .aborted hretry
  · split
    · exact hretry.sendData cfg fuel
    · exact .returned hretry

end

end ThirdParty.Httpd
