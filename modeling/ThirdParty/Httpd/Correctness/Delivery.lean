import ThirdParty.Httpd.Correctness.Feeding

/-!
# `Httpd.Correctness.Delivery` — every connection gets the file that answers its request

Callbacks of other connections do not come between the callbacks of a response (`ServerInv`), so in every run of the
server the file data accepted on a connection is a start of one file: the one that answered its request. If the server
has closed the connection at the end of the response, it is the whole file.
-/

namespace ThirdParty.Httpd

open Lib Lwip

/-! ## What a run says about one connection -/

/-- What the `http_state` of connection `j` serves, if it holds one. -/
def Server.serves (s : Server) (j : Nat) : Option (Option Nat) := (s.holder j).map fun n => (s.objs n).handle

/-- The file that answers the request which the callback `a` hands to connection `j`, if it does: the connection must
    not be serving a file already, and a slot of the file table must be free. -/
def Server.answers (cfg : Config) (j : Nat) (s : Server) : Action → Option (FsDataFile × Bool)
  | .call j' (.recv (some p) .ok) env _ =>
      if j' = j ∧ s.serves j = some none ∧ p.IsRequest ∧ FsHasFree s.fs then answer cfg env p.request else none
  | _ => none

def Action.calls (j : Nat) : Action → Bool
  | .call j' _ _ _ => j' = j
  | _ => false

/-- The events of the callbacks of connection `j`. -/
def connLog (cfg : Config) (j : Nat) (tr : List (Server × Action)) : List Ev :=
  tr.flatMap fun sa => if sa.2.calls j then sa.1.callbackLog cfg sa.2 else []

/-- The file that answers the request of connection `j`. -/
def answeredBy (cfg : Config) (j : Nat) (tr : List (Server × Action)) : Option (FsDataFile × Bool) :=
  tr.findSome? fun sa => sa.1.answers cfg j sa.2

/-! ## The invariant -/

/-- **What the events of a connection have sent** when its cursor is at `a` with `left` bytes to go: nothing while no
    request is answered, then the start of the file up to the cursor. -/
inductive Sent (m : Mem) : Option (FsDataFile × Bool) → List Ev → Nat → Nat → Prop
  | waiting {log : List Ev} (a : Nat) (accepts : accepted Src.isFile log = [])
      (inside : ∀ e ∈ log, OffersWithin m 0 0 e) : Sent m none log a 0
  | serving {log : List Ev} {f : FsDataFile} {n : Nat} (ssi : Bool) (hn : n ≤ f.len)
      (accepts : accepted Src.isFile log = bytesAt m f.data n) (inside : ∀ e ∈ log, OffersWithin m f.data f.len e) :
      Sent m (some (f, ssi)) log (f.data + n) (f.len - n)

/-- **The delivery on connection `j`**: its `http_state`, as long as it holds one, stands where the events say, and the
    response was found complete only when nothing was left. -/
structure Delivery (m : Mem) (s : Server) (j : Nat) (ans : Option (FsDataFile × Bool)) (log : List Ev) : Prop where
  sent   : ∃ a left, Sent m ans log a left ∧ (∀ i, s.holder j = some i → (s.objs i).file = a ∧ (s.objs i).left = left) ∧
    ∀ k, s.conns[j]? = some k → k.finished = true → left = 0
  handle : ∀ i, s.holder j = some i → ((s.objs i).handle = none ↔ ans = none)
  fresh  : s.conns.length ≤ j → ans = none

section
variable {cfg : Config} {m : Mem} {s s' : Server} {j : Nat} {k : Conn} {ans : Option (FsDataFile × Bool)}
  {log es : List Ev} {hs hs' : HttpState} {a left : Nat}

theorem Sent.feed (h : Sent m ans log hs.file hs.left) (hfed : Fed m hs hs' es) :
    Sent m ans (log ++ es) hs'.file hs'.left := by
  obtain ⟨i, hi, hfile, hleft, hacc⟩ := hfed.sent
  have hinside := hfed.inside
  generalize hs.file = a at *
  generalize hs.left = left at *
  rw [hfile, hleft]
  cases h with
  | waiting a accepts inside =>
      obtain rfl : i = 0 := Nat.le_zero.mp hi
      refine .waiting _ (by rw [accepted_append, accepts, hacc]; rfl) fun e he => ?_
      rcases List.mem_append.mp he with he | he
      · exact inside e he
      · exact (hinside e he).of_zero
  | @serving _ f n ssi hn accepts inside =>
      rw [Nat.add_assoc, Nat.sub_sub]
      refine .serving ssi (by omega) (by rw [accepted_append, accepts, hacc, bytesAt_add]) fun e he => ?_
      rcases List.mem_append.mp he with he | he
      · exact inside e he
      · exact (hinside e he).mono (by omega) (by omega)

/-- Events that send nothing and do not end the response. -/
def sendsNothing (e : Ev) : Bool := idles e || leavesArg e

theorem sendsNothing_of_idles {e : Ev} (h : idles e = true) : sendsNothing e = true := by simp [sendsNothing, h]

theorem sendsNothing_cases {e : Ev} (h : sendsNothing e = true) : idles e = true ∨ e = .tcpArg false ∨
    e = .tcpAbort := by
  rcases Bool.or_eq_true_iff.mp h with h | h
  · exact .inl h
  · cases e with
    | tcpArg set => cases set <;> first | exact absurd h Bool.false_ne_true | exact .inr (.inl rfl)
    | tcpAbort => exact .inr (.inr rfl)
    | _ => exact absurd h Bool.false_ne_true

theorem Sent.idles (h : Sent m ans log a left) (hes : ∀ e ∈ es, sendsNothing e = true) :
    Sent m ans (log ++ es) a left := by
  have hnone : ∀ e ∈ es, e.accepted Src.isFile = [] ∧ ∀ b len, OffersWithin m b len e := by
    intro e he
    rcases sendsNothing_cases (hes e he) with h | rfl | rfl
    · exact ⟨accepted_of_idles h, offersWithin_of_idles h m⟩
    · exact ⟨rfl, fun _ _ => trivial⟩
    · exact ⟨rfl, fun _ _ => trivial⟩
  have hacc : accepted Src.isFile (log ++ es) = accepted Src.isFile log := by
    rw [accepted_append, accepted_eq_nil _ fun e he => (hnone e he).1, List.append_nil]
  have hinside : ∀ b len, (∀ e ∈ log, OffersWithin m b len e) → ∀ e ∈ log ++ es, OffersWithin m b len e := by
    intro b len hlog e he
    rcases List.mem_append.mp he with he | he
    · exact hlog e he
    · exact (hnone e he).2 b len
  cases h with
  | waiting a accepts inside => exact .waiting a (hacc.trans accepts) (hinside _ _ inside)
  | serving ssi hn accepts inside => exact .serving ssi hn (hacc.trans accepts) (hinside _ _ inside)

theorem Sent.left_lt (h : Sent m ans log a left) : left < 4294967296 := by
  cases h with
  | waiting => decide
  | @serving _ f n ssi hn accepts inside =>
      have := f.len_lt
      omega

theorem applyAll_finished (self : Nat) : ∀ {log : List Ev} {k : Conn}, (k.applyAll self log).finished = true →
    k.finished = true ∨ .endOfResponse ∈ log := by
  intro log
  induction log with
  | nil => intro k h; exact .inl h
  | cons e log ih =>
      intro k h
      rcases ih (k := k.apply self e) h with hfin | hend
      · by_cases he : e = .endOfResponse
        · exact .inr (he ▸ List.mem_cons_self)
        · refine .inl ?_
          cases e with
          | endOfResponse => exact absurd rfl he
          | tcpWrite src data err => cases err <;> exact hfin
          | _ => exact hfin
      · exact .inr (List.mem_cons_of_mem _ hend)

/-- Where another connection is called. -/
theorem Delivery.congr (h : Delivery m s j ans log) (hlen : s.conns.length ≤ s'.conns.length)
    (hhold : ∀ i, s'.holder j = some i → s.holder j = some i ∧ s'.objs i = s.objs i)
    (hconn : ∀ k', s'.conns[j]? = some k' → k'.finished = true → ∃ k, s.conns[j]? = some k ∧ k.finished = true) :
    Delivery m s' j ans log := by
  obtain ⟨a, left, hsent, hcursor, hdone⟩ := h.sent
  refine ⟨⟨a, left, hsent, fun i hi => ?_, fun k' hk' hfin => ?_⟩, fun i hi => ?_, fun hj =>
    h.fresh (Nat.le_trans hlen hj)⟩
  · obtain ⟨hi', hobj⟩ := hhold i hi
    rw [hobj]
    exact hcursor i hi'
  · obtain ⟨k, hk, hfin'⟩ := hconn k' hk' hfin
    exact hdone k hk hfin'
  · obtain ⟨hi', hobj⟩ := hhold i hi
    rw [hobj]
    exact h.handle i hi'

/-- A callback of another connection. -/
theorem Delivery.other {j' n : Nat} {c : Ctx} {returned : Bool} (h : Delivery m s j ans log) (hinv : ServerInv s)
    (hne : j ≠ j')
    (hobj : c.hs = s.objs c.self ∨ (c.self = n ∧ (s.holder j' = some n ∨ s.nextSerial ≤ n))) :
    Delivery m (s.absorb j' k ⟨c, returned⟩) j ans log := by
  have hconns : (s.absorb j' k ⟨c, returned⟩).conns[j]? = s.conns[j]? := conns_absorb hne
  refine h.congr (by simp [Server.absorb]) (fun i hi => ?_) fun k' hk' hfin => ⟨k', by rw [← hconns]; exact hk', hfin⟩
  have hi' : s.holder j = some i := by rwa [Server.holder, hconns] at hi
  refine ⟨hi', ?_⟩
  show Function.update s.objs c.self c.hs i = s.objs i
  rcases hobj with hsame | ⟨hself, hn⟩
  · rw [hsame, Function.update_eq_self]
  · rw [hself, Function.update_of_ne (holder_ne hinv hn hne hi')]

/-- **A callback that has fed its connection**, from the state `hs` on. -/
theorem Delivery.feed {c : Ctx} {returned : Bool} (hj : j < s.conns.length) (hsent : Sent m ans log hs.file hs.left)
    (hfed : Fed m hs c.hs es) (hlog : ∀ e, e ∈ c.log → e ∈ es ∨ idles e = true)
    (hhandle : hs.handle = none ↔ ans = none)
    (hfin : k.finished = false)
    (hlast : ∀ i, (k.applyAll c.self c.log).holds = some i → i = c.self ∧ ∀ e ∈ es, leavesArg e = false) :
    Delivery m (s.absorb j k ⟨c, returned⟩) j ans (log ++ es) := by
  have hobj : (s.absorb j k ⟨c, returned⟩).objs c.self = c.hs := Function.update_self ..
  refine ⟨⟨c.hs.file, c.hs.left, hsent.feed hfed, fun i hi => ?_, fun k' hk' hfin' => ?_⟩, fun i hi => ?_,
    fun hge => ?_⟩
  · rw [holder_absorb hj] at hi
    rw [(hlast i hi).1, hobj]
    exact ⟨rfl, rfl⟩
  · have hk'' : k' = k.applyAll c.self c.log := by simpa [Server.absorb, hj] using hk'.symm
    rw [hk''] at hfin'
    rcases applyAll_finished c.self hfin' with hold | hend
    · rw [hfin] at hold
      exact absurd hold Bool.false_ne_true
    · rcases hlog _ hend with hend | hidle
      · exact hfed.ends hend
      · exact absurd hidle Bool.false_ne_true
  · rw [holder_absorb hj] at hi
    obtain ⟨rfl, hstay⟩ := hlast i hi
    rw [hobj]
    rcases hfed.handle with hsame | ⟨e, he, hleave⟩
    · rw [hsame]
      exact hhandle
    · rw [hstay e he] at hleave
      exact absurd hleave Bool.false_ne_true
  · have : s.conns.length ≤ j := by simpa [Server.absorb] using hge
    omega

/-- A callback that leaves the connection without a state and sends nothing. -/
theorem Delivery.lose {c : Ctx} {returned : Bool} (h : Delivery m s j ans log) (hk : s.conns[j]? = some k)
    {k' : Conn} (hfin : k'.finished = k.finished) (hidle : ∀ e ∈ c.log, sendsNothing e = true)
    (hnone : (k'.applyAll c.self c.log).holds = none) : Delivery m (s.absorb j k' ⟨c, returned⟩) j ans
    (log ++ c.log) := by
  obtain ⟨hj, -⟩ := List.getElem?_eq_some_iff.mp hk
  obtain ⟨a, left, hsent, -, hdone⟩ := h.sent
  have hempty : ∀ i, (s.absorb j k' ⟨c, returned⟩).holder j ≠ some i := by
    intro i hi
    rw [holder_absorb hj, hnone] at hi
    exact absurd hi.symm (Option.some_ne_none i)
  refine ⟨⟨a, left, hsent.idles hidle, fun i hi => absurd hi (hempty i), fun k₂ hk₂ hfin₂ => ?_⟩,
    fun i hi => absurd hi (hempty i), fun hge => ?_⟩
  · have heq : k₂ = k'.applyAll c.self c.log := by simpa [Server.absorb, hj] using hk₂.symm
    rw [heq] at hfin₂
    rcases applyAll_finished c.self hfin₂ with hold | hend
    · exact hdone k hk (hfin ▸ hold)
    · exact absurd (hidle _ hend) Bool.false_ne_true
  · have : s.conns.length ≤ j := by simpa [Server.absorb] using hge
    omega

end

/-! ## One callback -/

/-- How a request leaves the `http_state`: at the start of the file that answers it, or with nothing to serve. -/
inductive Begins (cfg : Config) (hs : HttpState) : Option (FsDataFile × Bool) → Prop
  | file {f : FsDataFile} {ssi : Bool} (h : Starts cfg f ssi hs) : Begins cfg hs (some (f, ssi))
  | nothing (handle : hs.handle = none) (left : hs.left = 0) : Begins cfg hs none

/-- **How a callback of connection `j` treats its response**: it goes on with it, or begins it. -/
inductive Response (cfg : Config) (s : Server) (j : Nat) (act : Action) (c c' : Ctx) : Prop
  | goesOn (h : Feeds c c') (hans : s.answers cfg j act = none)
  | begins {c₁ : Ctx} (hmem : c₁.mem = c.mem) (hidle : Adds idles c c₁) (hidlest : c.hs.handle = none)
      (hbegins : Begins cfg c₁.hs (s.answers cfg j act)) (h : Feeds c₁ c')

section
variable {cfg : Config} {m : Mem} {s : Server} {j : Nat} {act : Action} {c c' : Ctx} {hs : HttpState}
  {ans : Option (FsDataFile × Bool)} {log : List Ev} {a left : Nat}

theorem Begins.handle (h : Begins cfg hs ans) : hs.handle = none ↔ ans = none := by
  cases h with
  | file h => exact iff_of_false h.handle (Option.some_ne_none _)
  | nothing handle left => exact iff_of_true handle rfl

theorem Begins.left_lt (h : Begins cfg hs ans) : hs.left < 4294967296 := by
  cases h with
  | @file f ssi h =>
      have := f.len_lt
      rw [h.left]
      omega
  | nothing handle left =>
      rw [left]
      decide

/-- Nothing was sent before. -/
theorem Begins.sent (h : Begins cfg hs ans) (hsent : Sent m none log a left) : Sent m ans log hs.file hs.left := by
  obtain ⟨-, accepts, inside⟩ := hsent
  cases h with
  | nothing handle left =>
      rw [left]
      exact .waiting _ accepts inside
  | file h =>
      rw [h.file, h.left]
      exact .serving (n := 0) _ (Nat.zero_le _) accepts fun e he => (inside e he).of_zero

theorem Response.mem (h : Response cfg s j act c c') : c'.mem = c.mem := by
  cases h with
  | goesOn h hans => exact h.mem
  | begins hmem hidle hidlest hbegins h => exact h.mem.trans hmem

end

theorem callback_response {cfg : Config} {s : Server} {j n : Nat} {cb : Callback} (env : Env) (fuel : Nat)
    (hn : s.holder j = some n) (hne : cb ≠ .err) (hend : AtFileEnd s.fs) (hcur : Cursors cfg (s.objs n))
    (hlt : (s.objs n).left < 4294967296) :
    Response cfg s j (.call j cb env fuel) (s.ctx n) (callback cfg env fuel cb (s.ctx n)).ctx := by
  have hserves : s.serves j = some (s.objs n).handle := by rw [Server.serves, hn]; rfl
  by_cases hreq : ∃ p, cb = .recv (some p) .ok ∧ (s.objs n).handle = none ∧ p.IsRequest
  swap
  · refine .goesOn (callback_feeds cfg env fuel hne (fun p hp h => hreq ⟨p, hp, h⟩) hcur hlt hend) ?_
    unfold Server.answers
    split
    · next j' p env' fuel' heq =>
        obtain ⟨-, rfl, -⟩ := Action.call.inj heq
        refine if_neg ?_
        rintro ⟨-, hidle, hp, -⟩
        rw [hserves] at hidle
        exact hreq ⟨p, rfl, Option.some.inj hidle, hp⟩
    · rfl
  -- a request, and nothing is served yet
  obtain ⟨p, rfl, hhandle, hp⟩ := hreq
  obtain ⟨c₁, hpay, hfs, hmem, hidle, heq⟩ := httpRecv_request cfg env fuel (c := s.ctx n) hhandle hp
  have hans : s.answers cfg j (.call j (.recv (some p) .ok) env fuel) =
      if FsHasFree s.fs then answer cfg env p.request else none := by
    simp only [Server.answers, hserves, hhandle, hp, true_and]
  obtain ⟨hmem₂, hcases⟩ := served_cases cfg env c₁
  have hidle₂ := hidle.trans (served_idles cfg env c₁)
  have hcur₂ := served_cursors cfg env c₁
  have hend₂ : AtFileEnd (c₁.served cfg env).fs := served_fs (by rw [hfs]; exact hend)
  rw [hpay, show c₁.fs = s.fs from hfs] at hcases
  simp only [callback]
  rw [heq]
  have hbegins : Begins cfg (c₁.served cfg env).hs (s.answers cfg j (.call j (.recv (some p) .ok) env fuel)) := by
    rw [hans]
    rcases hcases with ⟨f, ssi, hfree, hfile, hstart⟩ | ⟨hnot, hnone, hzero⟩
    · rw [if_pos hfree, hfile]
      exact .file hstart
    · split
      · next hfree =>
          cases hfile : answer cfg env p.request with
          | none => exact .nothing hnone hzero
          | some r => exact absurd ⟨hfree, by rw [hfile]; exact Option.some_ne_none r⟩ hnot
      · exact .nothing hnone hzero
  exact .begins (hmem₂.trans hmem) hidle₂ hhandle hbegins (sendData_feeds hcur₂ hbegins.left_lt hend₂)

/-! ## The server -/

section
variable {cfg : Config} {m : Mem} {s s' : Server} {j : Nat} {ans : Option (FsDataFile × Bool)} {log : List Ev}
  {act : Action}

theorem callback_self (hinv : ServerInv s) {n : Nat} (hn : s.holder j = some n) (cb : Callback) (env : Env)
    (fuel : Nat) :
    (callback cfg env fuel cb (s.ctx n)).ctx.self = n := by
  by_cases herr : cb = .err
  · subst herr
    simp [callback, connErr, Server.ctx]
  · obtain ⟨L₀, -, hown⟩ := hinv.owning hn
    cases callback_settled cfg env fuel herr hown with
    | kept h => exact h.self
    | left gone log self leaves => exact self

/-- A callback of connection `j` that has its `http_state`. -/
theorem Delivery.call {k : Conn} {cb : Callback} {env : Env} {fuel n : Nat} (hboth : ServerInv s ∧ FinishedLeft s)
    (hcur : s.Holds AtFileEnd (Cursors cfg)) (hm : s.mem = m) (h : Delivery m s j ans log) (hk : s.conns[j]? = some k)
    (hn : s.holder j = some n) (harg : k.arg = some n) (hne : cb ≠ .err) :
    Delivery m (s.absorb j k (callback cfg env fuel cb (s.ctx n))) j (ans.or (s.answers cfg j (.call j cb env fuel)))
      (log ++ (callback cfg env fuel cb (s.ctx n)).ctx.log) := by
  obtain ⟨hinv, hleft⟩ := hboth
  obtain ⟨hj, -⟩ := List.getElem?_eq_some_iff.mp hk
  obtain ⟨a, left, hsent, hcursor, -⟩ := h.sent
  obtain ⟨rfl, rfl⟩ := hcursor n hn
  have hhandle := h.handle n hn
  have hresponse := callback_response env fuel hn hne hcur.1 (hcur.2 j n hn) hsent.left_lt
  have hfin : k.finished = false := by
    cases hf : k.finished with
    | false => rfl
    | true => exact absurd (harg.symm.trans (hleft k (List.mem_of_getElem? hk) hf)) (Option.some_ne_none n)
  -- the state is kept with its argument, or neither
  obtain ⟨L₀, -, hown⟩ := hinv.owning hn
  have hsettled := callback_settled cfg env fuel hne hown
  generalize callback cfg env fuel cb (s.ctx n) = o at hresponse hsettled
  obtain ⟨c, returned⟩ := o
  simp only at hresponse hsettled ⊢
  have hlast : ∀ i, (k.applyAll c.self c.log).holds = some i → i = c.self ∧ ∀ e ∈ c.log, leavesArg e = false := by
    intro i hi
    cases hsettled with
    | kept hreached =>
        obtain ⟨es, hes, hquiet⟩ := hreached.log
        have hes : c.log = es := hes
        rw [applyAll_quiet _ (by rw [hes]; exact hquiet), ← holder_of hk, hn] at hi
        refine ⟨(Option.some.inj hi).symm.trans hreached.self.symm, fun e he => ?_⟩
        have := hquiet e (hes ▸ he)
        cases e with
        | tcpArg set => exact absurd this Bool.false_ne_true
        | tcpAbort => exact absurd this Bool.false_ne_true
        | _ => rfl
    | left gone hadds self leaves =>
        obtain ⟨es, hes, hnew⟩ := hadds
        have hes : c.log = es := hes
        rw [applyAll_none _ (by rw [hes]; exact hnew) (.inr leaves)] at hi
        exact absurd hi.symm (Option.some_ne_none i)
  cases hresponse with
  | goesOn hfeeds hans =>
      obtain ⟨es, hes, hfed⟩ := hfeeds.log
      have hes : c.log = es := hes
      rw [hans, Option.or_none]
      subst hes
      rw [show (s.ctx n).mem = m from hm] at hfed
      exact .feed hj hsent hfed (fun e he => .inl he) hhandle hfin hlast
  | @begins c₁ hmem hidle hidlest hbegins hfeeds =>
      obtain ⟨es₀, hes₀, hall⟩ := hidle
      obtain ⟨es, hes, hfed⟩ := hfeeds.log
      have hlog : c.log = es₀ ++ es := by rw [hes, hes₀]; rfl
      obtain rfl : ans = none := hhandle.mp hidlest
      rw [hmem, show (s.ctx n).mem = m from hm] at hfed
      rw [Option.none_or, hlog, ← List.append_assoc]
      have hbefore := hbegins.sent (hsent.idles fun e he => sendsNothing_of_idles (hall e he))
      refine .feed hj hbefore hfed (fun e he => ?_) hbegins.handle hfin fun i hi => ?_
      · rw [hlog] at he
        rcases List.mem_append.mp he with he | he
        · exact .inr (hall e he)
        · exact .inl he
      · obtain ⟨hi', hstay⟩ := hlast i hi
        exact ⟨hi', fun e he => hstay e (by rw [hlog]; exact List.mem_append_right _ he)⟩

/-- **Every step keeps the deliveries**: of the connection that is called and of the others. -/
theorem Delivery.step (hboth : ServerInv s ∧ FinishedLeft s) (hcur : s.Holds AtFileEnd (Cursors cfg)) (hm : s.mem = m)
    (h : Delivery m s j ans log) (hstep : s.step cfg act = some s') :
    Delivery m s' j (ans.or (s.answers cfg j act)) (log ++ if act.calls j then s.callbackLog cfg act else []) := by
  cases Server.step_cases hstep with
  | refuse hmalloc =>
      rw [show s.answers cfg j _ = none from rfl, Option.or_none]
      simpa [Action.calls] using h
  | @ack j' i k hk halive hroom =>
      rw [show s.answers cfg j _ = none from rfl, Option.or_none]
      simp only [Action.calls, Bool.false_eq_true, if_false, List.append_nil]
      refine h.congr (by simp) (fun n hn => ⟨by rw [← holder_ack hk]; exact hn, rfl⟩) fun k' hk' hfin => ?_
      by_cases hj : j' = j
      · subst hj
        obtain ⟨hlt, -⟩ := List.getElem?_eq_some_iff.mp hk
        have heq : k' = { k with acked := k.acked + i } := by simpa [hlt] using hk'.symm
        exact ⟨k, hk, by rw [heq] at hfin; exact hfin⟩
      · exact ⟨k', by simpa [hj] using hk', hfin⟩
  | @accept garbage env hmalloc =>
      rw [show s.answers cfg j _ = none from rfl, Option.or_none]
      simp only [Action.calls, Bool.false_eq_true, if_false, List.append_nil]
      have hinv₁ : ServerInv { s with conns := s.conns ++ [.fresh] } := hboth.1.congr (holder_fresh s) rfl rfl rfl rfl
      have h₁ : Delivery m { s with conns := s.conns ++ [.fresh] } j ans log := by
        refine h.congr (by simp) (fun n hn => ⟨by rw [← holder_fresh]; exact hn, rfl⟩) fun k' hk' hfin => ?_
        rcases Nat.lt_or_ge j s.conns.length with hlt | hge
        · exact ⟨k', by rw [List.getElem?_append_left hlt] at hk'; exact hk', hfin⟩
        · -- a connection that was just offered has no response
          rw [List.getElem?_append_right hge] at hk'
          obtain rfl := List.mem_singleton.mp (List.mem_of_getElem? hk')
          exact absurd hfin Bool.false_ne_true
      by_cases hj : j = s.conns.length
      swap
      · exact h₁.other hinv₁ hj (.inr ⟨rfl, .inr (Nat.le_refl s.nextSerial)⟩)
      -- the new connection waits for its request
      obtain rfl : ans = none := h.fresh (Nat.le_of_eq hj.symm)
      obtain ⟨a, left, ⟨-, accepts, inside⟩, -⟩ := h.sent
      have hlt : j < (s.conns ++ [Conn.fresh]).length := by simp [hj]
      subst hj
      have hobj : ∀ i, (Server.absorb { s with conns := s.conns ++ [.fresh] } s.conns.length .fresh
          ⟨httpAccept cfg garbage (s.ctx 0), true⟩).holder s.conns.length = some i → i = s.nextSerial := by
        intro i hi
        rw [holder_absorb hlt] at hi
        exact (Option.some.inj hi).symm
      refine ⟨⟨0, 0, .waiting 0 accepts inside, fun i hi => ?_, fun _ _ _ => rfl⟩, fun i hi => ?_, fun _ => rfl⟩
      · rw [hobj i hi]
        show (Function.update s.objs s.nextSerial (garbage.accept cfg) s.nextSerial).file = 0 ∧
          (Function.update s.objs s.nextSerial (garbage.accept cfg) s.nextSerial).left = 0
        rw [Function.update_self]
        exact ⟨rfl, rfl⟩
      · rw [hobj i hi]
        show (Function.update s.objs s.nextSerial (garbage.accept cfg) s.nextSerial).handle = none ↔ _
        rw [Function.update_self]
        exact iff_of_true rfl rfl
  | @call j' cb env fuel k hidle hk halive hhears =>
      have hholds : s.holder j' = k.arg := by rw [holder_of hk, Conn.holds, if_pos halive]
      by_cases hj : j = j'
      swap
      · -- nothing happens to the others
        have hnone : s.answers cfg j (.call j' cb env fuel) = none := by
          unfold Server.answers
          split
          · next heq =>
              obtain ⟨rfl, -⟩ := Action.call.inj heq
              exact if_neg fun h => hj h.1.symm
          · rfl
        have hcalls : Action.calls j (.call j' cb env fuel) = false := decide_eq_false fun h => hj h.symm
        rw [hnone, Option.or_none, hcalls, if_neg Bool.false_ne_true, List.append_nil]
        unfold Server.invoke
        cases harg : k.arg with
        | none => exact h.other (n := 0) hboth.1 hj (.inl rfl)
        | some n =>
            have hn : s.holder j' = some n := hholds.trans harg
            have hself : (callback cfg env fuel cb (s.ctx n)).ctx.self = n := callback_self hboth.1 hn cb env fuel
            exact h.other hboth.1 hj (.inr ⟨hself, .inl hn⟩)
      subst hj
      have hlog : (if (Action.call j cb env fuel).calls j = true then s.callbackLog cfg (.call j cb env fuel) else []) =
          (s.invoke cfg k cb env fuel).ctx.log := by
        simp only [Action.calls, decide_true, if_true, Server.callbackLog, hk]
      rw [hlog]
      unfold Server.invoke
      cases harg : k.arg with
      | none =>
          have hserves : s.serves j = none := by rw [Server.serves, hholds, harg]; rfl
          have hnone : s.answers cfg j (.call j cb env fuel) = none := by
            unfold Server.answers
            split
            · refine if_neg fun h => ?_
              rw [hserves] at h
              exact absurd h.2.1.symm (Option.some_ne_none _)
            · rfl
          rw [hnone, Option.or_none]
          refine h.lose hk (k.before_fields cb).1 (fun e he => ?_) (holds_null harg cb)
          cases cb with
          | recv p err => simp only [callbackNull] at he; split at he <;> simp_all [sendsNothing, idles, leavesArg]
          | poll => rw [List.mem_singleton.mp he]; rfl
          | sent => exact absurd he List.not_mem_nil
          | err => exact absurd he List.not_mem_nil
      | some n =>
          have hn : s.holder j = some n := hholds.trans harg
          by_cases herr : cb = .err
          · subst herr
            rw [show s.answers cfg j _ = none from rfl, Option.or_none]
            refine h.lose hk rfl (fun e he => ?_) (holds_err rfl)
            obtain ⟨es, hes, hall⟩ := connErr_idles (s.ctx n)
            exact sendsNothing_of_idles (hall e (by rw [show (connErr (s.ctx n)).log = es from hes] at he; exact he))
          · have hbefore : k.before cb = k := by cases cb <;> first | rfl | exact absurd rfl herr
            rw [hbefore]
            exact h.call hboth hcur hm hk hn harg herr

/-- **The memory of the files is never written**: a step finds and leaves it as it was. -/
theorem mem_step (hcur : s.Holds AtFileEnd (Cursors cfg)) (h : ∀ j, ∃ ans log, Delivery m s j ans log)
    (hstep : s.step cfg act = some s') : s'.mem = s.mem := by
  cases Server.step_cases hstep with
  | accept hmalloc => rfl
  | refuse hmalloc => rfl
  | ack hk halive hroom => rfl
  | @call j cb env fuel k hidle hk halive hhears =>
      have hholds : s.holder j = k.arg := by rw [holder_of hk, Conn.holds, if_pos halive]
      show (s.invoke cfg k cb env fuel).ctx.mem = s.mem
      unfold Server.invoke
      cases harg : k.arg with
      | none => rfl
      | some n =>
          have hn : s.holder j = some n := hholds.trans harg
          by_cases herr : cb = .err
          · subst herr
            simp [callback, connErr, Server.ctx]
          · obtain ⟨ans, log, hj⟩ := h j
            obtain ⟨a, left, hsent, hcursor, -⟩ := hj.sent
            have hlt : (s.objs n).left < 4294967296 := by
              rw [(hcursor n hn).2]
              exact hsent.left_lt
            exact (callback_response env fuel hn herr hcur.1 (hcur.2 j n hn) hlt).mem

theorem finishedLeft_init (slots : Nat) (mem : Mem) : FinishedLeft (Server.init slots mem) := by
  intro k hk
  exact absurd hk List.not_mem_nil

/-- **The deliveries in a run.** -/
theorem delivery_run {slots : Nat} {tr : List (Server × Action)}
    (hrun : Run (Server.step cfg) (Server.init slots m) tr s) :
    s.mem = m ∧ ∀ j, Delivery m s j (answeredBy cfg j tr) (connLog cfg j tr) := by
  induction hrun with
  | nil =>
      have hnone : ∀ j, (Server.init slots m).holder j = none := fun j => by simp [Server.holder, Server.init]
      refine ⟨rfl, fun j => ⟨⟨0, 0, .waiting 0 rfl (by simp [connLog]), ?_, fun _ _ _ => rfl⟩, ?_, fun _ => rfl⟩⟩
      · intro i hi
        rw [hnone] at hi
        exact absurd hi.symm (Option.some_ne_none i)
      · intro i hi
        rw [hnone] at hi
        exact absurd hi.symm (Option.some_ne_none i)
  | @snoc tr s act s' hr hstep ih =>
      obtain ⟨hm, hdelivery⟩ := ih
      have hboth := hr.invariant (I := fun s => ServerInv s ∧ FinishedLeft s)
        ⟨serverInv_init slots m, finishedLeft_init slots m⟩ finishedLeft_step
      have hcur := (cursors_kept cfg).run (atFileEnd_init slots m) hr
      refine ⟨(mem_step hcur (fun j => ⟨_, _, hdelivery j⟩) hstep).trans hm, fun j => ?_⟩
      have hnext := (hdelivery j).step hboth hcur hm hstep
      unfold answeredBy connLog at hnext ⊢
      rw [List.findSome?_append, List.flatMap_append]
      simpa using hnext

/-! ## The results -/

/-- **Every connection gets the file that answers its request, and nothing else of the ROM.** In every run of the
    server, whatever the peers, TCP, the allocator and the handlers do, the file data accepted on a connection are the
    first bytes of the file that answers its request, in order; each `tcp_write` offers bytes of that file only; and
    when the server has closed the connection at the end of the response, it has handed over the whole file. Without an
    answer no file data is offered. -/
theorem file_delivered {slots : Nat} {tr : List (Server × Action)}
    (hrun : Run (Server.step cfg) (Server.init slots m) tr s) (j : Nat) :
    match answeredBy cfg j tr with
    | none => ∀ e ∈ connLog cfg j tr, OffersWithin m 0 0 e
    | some (f, _) => ∃ n ≤ f.len, accepted Src.isFile (connLog cfg j tr) = bytesAt m f.data n ∧
        (∀ e ∈ connLog cfg j tr, OffersWithin m f.data f.len e) ∧
        ∀ k, s.conns[j]? = some k → k.finished = true → n = f.len := by
  obtain ⟨a, left, hsent, -, hdone⟩ := ((delivery_run hrun).2 j).sent
  generalize answeredBy cfg j tr = ans at hsent
  cases hsent with
  | waiting a accepts inside => exact inside
  | @serving _ f n ssi hn accepts inside =>
      refine ⟨n, hn, accepts, inside, fun k hk hfin => ?_⟩
      have := hdone k hk hfin
      omega

/-- **The memory of the files is never written**: no run of the server changes a byte of it. The read buffers that
    `send_data` allocates are never filled, since every file is opened at its end. -/
theorem files_never_written {slots : Nat} {tr : List (Server × Action)}
    (hrun : Run (Server.step cfg) (Server.init slots m) tr s) : s.mem = m ∧ ∀ sa ∈ tr, sa.1.mem = m := by
  refine ⟨(delivery_run hrun).1, fun sa hsa => ?_⟩
  induction hrun with
  | nil => exact absurd hsa List.not_mem_nil
  | snoc hr hstep ih =>
      rcases List.mem_append.mp hsa with hsa | hsa
      · exact ih hsa
      · rw [List.mem_singleton.mp hsa]
        exact (delivery_run hr).1

end

/-! A page of three bytes, asked for and sent. -/

def pageMem : Mem := fun a => (lit "abc").getD (a - 4096) 0

def pageActions : List Action :=
  [.accept .zero soleEnv, .call 0 (.recv (some pageRequest) .ok) soleEnv 0, .call 0 .sent soleEnv 0]

theorem pageActions_run : ∃ s, Run (Server.step (soleConfig pageFile false)) (Server.init 1 pageMem)
    (executed (Server.step (soleConfig pageFile false)) (Server.init 1 pageMem) pageActions) s ∧
    (s.conns[0]?).map Conn.finished = some true := by
  have hex : ((runActions (Server.step (soleConfig pageFile false)) (Server.init 1 pageMem) pageActions).bind fun s =>
      (s.conns[0]?).map Conn.finished) = some true := by decide +kernel
  obtain ⟨s, hs, hfin⟩ := Option.bind_eq_some_iff.mp hex
  exact ⟨s, Run.executed hs, hfin⟩

theorem file_delivered_abc : accepted Src.isFile (connLog (soleConfig pageFile false) 0
    (executed (Server.step (soleConfig pageFile false)) (Server.init 1 pageMem) pageActions)) = lit "abc" := by
  obtain ⟨s, hrun, hfin⟩ := pageActions_run
  obtain ⟨k, hk, hfin⟩ := Option.map_eq_some_iff.mp hfin
  have hans : answeredBy (soleConfig pageFile false) 0
      (executed (Server.step (soleConfig pageFile false)) (Server.init 1 pageMem) pageActions) = some
          (pageFile, false) := by
    decide +kernel
  have h := file_delivered hrun 0
  rw [hans] at h
  obtain ⟨n, -, hacc, -, hdone⟩ := h
  rw [hacc, hdone k hk hfin]
  decide +kernel

theorem files_never_written_abc : ∃ s, Run (Server.step (soleConfig pageFile false)) (Server.init 1 pageMem)
    (executed (Server.step (soleConfig pageFile false)) (Server.init 1 pageMem) pageActions) s ∧ s.mem = pageMem := by
  obtain ⟨s, hrun, -⟩ := pageActions_run
  exact ⟨s, hrun, (files_never_written hrun).1⟩

end ThirdParty.Httpd
