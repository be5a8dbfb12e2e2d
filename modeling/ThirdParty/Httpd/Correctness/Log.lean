import ThirdParty.Httpd.Correctness.Closing
import ThirdParty.Httpd.Correctness.Requests

/-!
# `Httpd.Correctness.Log` — what a piece of a callback adds to the log

`Adds q c c'` forgets everything about a piece of code but the kind of its events. For parsing, sending and
closing the kinds are known from `Parses`, `Stays` and `close_conn` itself.
-/

namespace ThirdParty.Httpd

open Lib Lwip

/-- The log of `c'` is that of `c`, followed by events that all satisfy `q`. -/
def Adds (q : Ev → Bool) (c c' : Ctx) : Prop := ∃ es, c'.log = c.log ++ es ∧ ∀ e ∈ es, q e = true

section
variable {q q' : Ev → Bool} {c c₁ c₂ c₃ : Ctx}

theorem Adds.refl (c : Ctx) : Adds q c c := ⟨[], by simp, by simp⟩

theorem Adds.trans (h : Adds q c₁ c₂) (h' : Adds q c₂ c₃) : Adds q c₁ c₃ := by
  obtain ⟨es, hes, hall⟩ := h
  obtain ⟨es', hes', hall'⟩ := h'
  refine ⟨es ++ es', by rw [hes', hes, List.append_assoc], fun e he => ?_⟩
  exact (List.mem_append.mp he).elim (hall e) (hall' e)

theorem Adds.mono (h : Adds q c₁ c₂) (hq : ∀ e, q e = true → q' e = true) : Adds q' c₁ c₂ := by
  obtain ⟨es, hes, hall⟩ := h
  exact ⟨es, hes, fun e he => hq e (hall e he)⟩

theorem Adds.emit (c : Ctx) {e : Ev} (he : q e = true) : Adds q c (c.emit e) := ⟨[e], rfl, by simpa using he⟩

/-- What was added. -/
theorem Adds.event {c₀ c c' : Ctx} (h : Adds q c₀ c') (hbefore : Adds q' c₀ c) {es : List Ev}
    (hes : c'.log = c.log ++ es) {e : Ev} (he : e ∈ es) : q e = true := by
  obtain ⟨es₀, hes₀, hall⟩ := h
  obtain ⟨es₁, hes₁, -⟩ := hbefore
  rw [hes, hes₁, List.append_assoc, List.append_cancel_left_eq] at hes₀
  apply hall
  rw [← hes₀]
  exact List.mem_append_right _ he

/-- A step that adds nothing. -/
theorem Adds.of_log (h : c₂.log = c₁.log) : Adds q c₁ c₂ := ⟨[], by simp [h], by simp⟩

end

/-! ## The kinds of events -/

/-- What `send_data` does while it leaves the connection open. -/
def sendEvent : Ev → Bool
  | .pcbRead | .tcpOutput | .tcpWrite .. | .useState _ | .mallocBuf _ | .getTagInsert _ => true
  | _ => false

/-- What `close_conn` does. -/
def closeEvent : Ev → Bool
  | .tcpArg _ | .tcpSent _ | .tcpRecv _ | .tcpClose _ | .useState _ | .freeState _ | .freeBuf _ => true
  | _ => false

theorem Stays.adds {p : Src → Bool} {c c' : Ctx} (h : Stays p c c') : Adds sendEvent c c' := by
  apply h.events
  · intro e he
    cases e <;> first | rfl | exact absurd he Bool.false_ne_true
  · exact fun _ => rfl

/-- Taking a segment. -/
theorem receive_adds {q : Ev → Bool} (hrecved : ∀ n, q (.tcpRecved n) = true) (huse : ∀ n, q (.useState n) = true)
    (c : Ctx) (p : Segment) : Adds q c (c.receive p) := by
  refine Adds.trans (.emit c (hrecved p.totLen)) ?_
  refine Adds.trans (.emit _ (huse c.self)) ?_
  exact .of_log rfl

theorem closeConn_adds (env : Env) (c : Ctx) : Adds closeEvent c (closeConn env c) := by
  refine ⟨closeEvents env c, closeConn_log env c, ?_⟩
  unfold closeEvents freeEvents
  cases c.hs.buf <;> simp [closeEvent]

/-- **`send_data`** sends, and possibly closes. -/
theorem sendData_adds (cfg : Config) (env : Env) (fuel : Nat) (c : Ctx) :
    Adds (fun e => sendEvent e || closeEvent e || e = .endOfResponse) c (sendData cfg env fuel c).ctx := by
  by_cases hfin : Finished cfg env c
  · obtain ⟨c₁, hstays, heq⟩ := sendData_finished cfg env fuel c hfin
    rw [heq]
    refine (hstays.adds.mono ?_).trans ((Adds.emit c₁ (by simp)).trans ((closeConn_adds env _).mono ?_))
    · intro e he; simp [he]
    · intro e he; simp [he]
  · exact (sendData_open cfg env fuel c hfin).adds.mono fun e he => by simp [he]

end ThirdParty.Httpd
