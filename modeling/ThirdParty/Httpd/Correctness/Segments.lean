import ThirdParty.Lib.Trace
import ThirdParty.Httpd.Correctness.Log
import ThirdParty.Httpd.Correctness.Opening

/-!
# `Httpd.Correctness.Segments` — who owns a received segment

A receive callback that returns `ERR_OK` owns the segment: it has to release it exactly once, and may not look
at the payload afterwards. `http_recv` does so on every path but two, and `segment_released_iff` says on which:

* where no file was found the segment is never released;
* with dynamic headers the URI is inspected after the release, and it may lie in the segment.
-/

namespace ThirdParty.Httpd

open Lib Lwip

/-! ## Releasing once -/

/-- **The segment is released exactly once**, and its payload is not touched afterwards. -/
def ReleasedOnce (log : List Ev) : Prop :=
  log.count .pbufFree = 1 ∧ NoneAfter (fun e => e = .pbufFree) Ev.usesPayload log

instance (log : List Ev) : Decidable (ReleasedOnce log) := by unfold ReleasedOnce; infer_instance

/-- Events that do not release the segment. -/
def keepsSegment (e : Ev) : Bool := e ≠ .pbufFree

/-- Events that have nothing to do with the segment. -/
def offSegment (e : Ev) : Bool := keepsSegment e && !e.usesPayload

theorem keepsSegment_of_off {e : Ev} (h : offSegment e = true) : keepsSegment e = true :=
  (Bool.and_eq_true_iff.mp h).1

theorem not_pbufFree_mem {es : List Ev} (h : ∀ e ∈ es, keepsSegment e = true) : Ev.pbufFree ∉ es := fun hmem =>
  absurd (h _ hmem) (by decide)

section
variable {c c₁ c₂ : Ctx}

/-- Nothing of the kind happened. -/
theorem not_releasedOnce (h0 : c.log = []) (h : Adds keepsSegment c c₁) : ¬ReleasedOnce c₁.log := by
  obtain ⟨es, hes, hall⟩ := h
  rw [hes, h0, List.nil_append]
  intro hrel
  have hzero := List.count_eq_zero.mpr (not_pbufFree_mem hall)
  have hone := hrel.1
  omega

/-- One release, after which the segment is left alone. -/
theorem releasedOnce (h0 : c.log = []) (hbefore : Adds keepsSegment c c₁)
    (hafter : Adds offSegment (c₁.emit .pbufFree) c₂) : ReleasedOnce c₂.log := by
  obtain ⟨es, hes, hall⟩ := hbefore
  obtain ⟨es', hes', hall'⟩ := hafter
  rw [hes', Ctx.emit_log, hes, h0, List.nil_append]
  have hfree := not_pbufFree_mem hall
  have hfree' := not_pbufFree_mem fun e he => keepsSegment_of_off (hall' e he)
  refine ⟨?_, ?_⟩
  · simp [List.count_append, List.count_eq_zero.mpr hfree, List.count_eq_zero.mpr hfree']
  · have hclean : ∀ e ∈ es', e.usesPayload = false := fun e he => by
      have := hall' e he
      simp only [offSegment, Bool.and_eq_true, Bool.not_eq_true'] at this
      exact this.2
    rw [noneAfter_append, noneAfter_append]
    refine ⟨⟨noneAfter_of_no_start fun e he => ?_, ?_, ?_⟩, noneAfter_of_no_end hclean, fun _ => hclean⟩
    · exact decide_eq_false fun heq => hfree (heq ▸ he)
    · simp [NoneAfter]
    · simp [Ev.usesPayload]

/-- One release, but the payload is touched afterwards. -/
theorem not_releasedOnce_of_late {c₃ : Ctx} (hbefore : Adds offSegment (c₁.emit .pbufFree) c₂) {i n : Nat}
    (hafter : ∃ es, c₃.log = (c₂.emit (.payloadRead i n)).log ++ es) : ¬ReleasedOnce c₃.log := by
  obtain ⟨es, hes, -⟩ := hbefore
  obtain ⟨es', hes'⟩ := hafter
  rintro ⟨-, hnone⟩
  rw [hes', Ctx.emit_log, hes, Ctx.emit_log, List.append_assoc, List.append_assoc, List.append_assoc,
    noneAfter_append] at hnone
  obtain ⟨-, hrest, -⟩ := hnone
  rw [List.singleton_append] at hrest
  have hpair := (List.pairwise_cons.mp hrest).1 (.payloadRead i n) (by simp)
  exact absurd (hpair (by simp)) (by simp [Ev.usesPayload])

end

/-! ## What the pieces add -/

theorem Parses.keepsSegment {pay : Bool} {c c' : Ctx} (h : Parses pay c c') : Adds keepsSegment c c' := by
  obtain ⟨es, hes, hall⟩ := h.log
  refine ⟨es, hes, fun e he => ?_⟩
  have hparse := hall e he
  cases e <;> first | rfl | exact absurd hparse Bool.false_ne_true

theorem Parses.offSegment {c c' : Ctx} (h : Parses false c c') : Adds offSegment c c' := by
  obtain ⟨es, hes, hall⟩ := h.log
  refine ⟨es, hes, fun e he => ?_⟩
  have hparse := hall e he
  cases e <;> first | rfl | exact absurd hparse Bool.false_ne_true

theorem Opens.keepsSegment {c c' : Ctx} {file : Option Nat} (h : Opens c file c') : Adds keepsSegment c c' :=
  h.parses.keepsSegment

theorem closeConn_offSegment (env : Env) (c : Ctx) : Adds offSegment c (closeConn env c) :=
  (closeConn_adds env c).mono fun e he => by cases e <;> first | rfl | exact absurd he Bool.false_ne_true

theorem sendData_offSegment (cfg : Config) (env : Env) (fuel : Nat) (c : Ctx) :
    Adds offSegment c (sendData cfg env fuel c).ctx :=
  (sendData_adds cfg env fuel c).mono fun e he => by
    cases e <;> first | rfl | simp [sendEvent, closeEvent] at he

/-- Once there is a file, only headers for a URI in the payload look at the segment again. -/
theorem getHttpHeaders_offSegment (c : Ctx) {uri : Uri} (h : uri.isPayload = false) :
    Adds offSegment c (getHttpHeaders c uri) := by
  have hparses := getHttpHeaders_parses c uri
  rw [h] at hparses
  exact hparses.offSegment

/-- The status line is chosen by a search through the URI. -/
theorem getHttpHeaders_reads (c : Ctx) (off : Nat) : ∃ c₁ i n es, Adds offSegment c c₁ ∧
    (getHttpHeaders c (.payload off)).log = (c₁.emit (.payloadRead i n)).log ++ es := by
  obtain ⟨n, hread⟩ : ∃ n, (setStatusHeader (.payload off) ((c.useState).setHs (c.useState.hs.setHdr 1 .server))).log =
      (c.useState.emit (.payloadRead (off + 0) n)).log := by
    unfold setStatusHeader Ctx.uriStrstr
    simp only
    split
    · exact ⟨_, rfl⟩
    · exact ⟨_, rfl⟩
  have htype := uriContentType_parses (.payload off)
    (setStatusHeader (.payload off) ((c.useState).setHs (c.useState.hs.setHdr 1 .server)))
  obtain ⟨es, hes, -⟩ := htype.log
  refine ⟨c.useState, off + 0, n, es, .emit c rfl, ?_⟩
  rw [← hread, ← hes]
  unfold getHttpHeaders
  rw [if_neg (by simp)]
  generalize uriContentType _ _ = r
  obtain ⟨ext, hdr, c'⟩ := r
  cases ext <;> rfl

/-! ## The marker -/

/-- Where the scan for `" HTTP"` stops with a hit: the first occurrence between index 4 and `len - 5`. -/
def Segment.marker (p : Segment) : Option Nat :=
  (List.range' 4 (p.len - 9)).find? fun i => decide (lit " HTTP" <+: p.mem.drop i)

/-- The payload with the URI terminated. -/
def Segment.request (p : Segment) : List Byte :=
  match p.marker with
  | some i => p.mem.set i 0
  | none   => p.mem

/-- **The scan** stops at the first occurrence, or at its bound. -/
theorem findHttp_spec (len : Nat) : ∀ (fuel i : Nat) (c : Ctx), len - 5 - i ≤ fuel →
    match (List.range' i (len - 5 - i)).find? fun j => decide (lit " HTTP" <+: c.payload.drop j) with
    | some j => (findHttp len fuel i c).1 = j ∧ (findHttp len fuel i c).2.payload = c.payload.set j 0
    | none   => (findHttp len fuel i c).1 = max i (len - 5) ∧ (findHttp len fuel i c).2.payload = c.payload := by
  intro fuel
  induction fuel with
  | zero =>
      intro i c h
      have hzero : len - 5 - i = 0 := by omega
      rw [hzero]
      exact ⟨by simp only [findHttp]; omega, rfl⟩
  | succ fuel ih =>
      intro i c h
      unfold findHttp
      by_cases hbound : (i : Int) < (len : Int) - 5
      · obtain ⟨k, hk⟩ : ∃ k, len - 5 - i = k + 1 := ⟨len - 5 - i - 1, by omega⟩
        have hk' : len - 5 - (i + 1) = k := by omega
        have hrest := ih (i + 1) (c.emit (.payloadRead i (prefixReads (lit " HTTP") (c.payload.drop i)))) (by omega)
        rw [if_pos hbound, hk, List.range'_succ, List.find?_cons]
        simp only [Ctx.emit_payload] at hrest ⊢
        rw [hk'] at hrest
        -- the text is here, or the scan goes on
        by_cases hhit : lit " HTTP" <+: c.payload.drop i
        · simp [hhit, Ctx.writePayload]
        · simp only [hhit, decide_false, if_false]
          have hmax : max (i + 1) (len - 5) = max i (len - 5) := by omega
          rwa [hmax] at hrest
      · have hzero : len - 5 - i = 0 := by omega
        rw [hzero, if_neg hbound]
        exact ⟨by simp only; omega, rfl⟩

/-- The scan of `http_recv`. -/
theorem findHttp_marker {p : Segment} {c : Ctx} (h : c.payload = p.mem) :
    ((((findHttp p.len p.len 4 c).1 : Int) = (p.len : Int) - 5) ↔ 9 ≤ p.len ∧ p.marker = none) ∧
    (findHttp p.len p.len 4 c).2.payload = p.request := by
  have hspec := findHttp_spec p.len p.len 4 c (by omega)
  have hlen : p.len - 5 - 4 = p.len - 9 := by omega
  rw [hlen, h] at hspec
  unfold Segment.request Segment.marker
  generalize hmarker : (List.range' 4 (p.len - 9)).find? (fun i => decide (lit " HTTP" <+: p.mem.drop i)) = m at hspec
  cases m with
  | some j =>
      obtain ⟨hj, hpay⟩ := hspec
      have hmem := List.mem_of_find?_eq_some hmarker
      rw [List.mem_range'_1] at hmem
      refine ⟨?_, hpay⟩
      rw [hj]
      simp only [reduceCtorEq, and_false, iff_false]
      omega
  | none =>
      obtain ⟨hi, hpay⟩ := hspec
      refine ⟨?_, hpay⟩
      rw [hi]
      simp only [and_true]
      omega

/-! ## `http_recv` -/

section
variable (cfg : Config) (env : Env) (fuel : Nat) {p : Segment} {c : Ctx}

/-- How a request is handled, from the payload of the segment. -/
theorem handleRequest_eq (hpay : c.payload = p.mem) :
    handleRequest cfg env fuel p c =
      if p.mem.take 4 = lit "GET " then
        if 9 ≤ p.len ∧ p.marker = none then
          ⟨closeConn env ((findHttp p.len p.len 4
            (c.emit (.payloadRead 0 (prefixReads (lit "GET ") p.mem)))).2.emit .pbufFree), true⟩
        else
          let r := openRequested cfg env (findHttp p.len p.len 4
            (c.emit (.payloadRead 0 (prefixReads (lit "GET ") p.mem)))).2
          sendData cfg env fuel ((setUpResponse cfg r.1 r.2.1 r.2.2).emit (.tcpSent true))
      else ⟨closeConn env ((c.emit (.payloadRead 0 (prefixReads (lit "GET ") p.mem))).emit .pbufFree), true⟩ := by
  unfold handleRequest
  simp only [hpay]
  generalize hc₁ : c.emit (.payloadRead 0 (prefixReads (lit "GET ") p.mem)) = c₁
  have hpay₁ : c₁.payload = p.mem := by rw [← hc₁]; exact hpay
  have hget : isGet c₁ = decide (p.mem.take 4 = lit "GET ") := by unfold isGet; rw [hpay₁]
  obtain ⟨hbound, -⟩ := findHttp_marker hpay₁
  rw [hget]
  by_cases hmethod : p.mem.take 4 = lit "GET "
  · rw [if_pos (decide_eq_true hmethod), if_pos hmethod]
    by_cases hnone : 9 ≤ p.len ∧ p.marker = none
    · rw [if_pos (hbound.mpr hnone), if_pos hnone]
    · rw [if_neg fun h => hnone (hbound.mp h), if_neg hnone]
  · rw [if_neg (by simp [hmethod]), if_neg hmethod]

/-- A request is refused, or a response is set up and its sending started. -/
theorem handleRequest_cases (hpay : c.payload = p.mem) :
    (∃ c₁, Parses true c c₁ ∧ handleRequest cfg env fuel p c = ⟨closeConn env (c₁.emit .pbufFree), true⟩) ∨
    (∃ c₂, Parses true c c₂ ∧ handleRequest cfg env fuel p c =
      sendData cfg env fuel ((setUpResponse cfg (openRequested cfg env c₂).1 (openRequested cfg env c₂).2.1
        (openRequested cfg env c₂).2.2).emit (.tcpSent true))) := by
  have hread : Parses true c (c.emit (.payloadRead 0 (prefixReads (lit "GET ") p.mem))) := .emit c rfl
  have hscan := hread.trans (findHttp_parses p.len p.len 4 _)
  rw [handleRequest_eq cfg env fuel hpay]
  split
  · split
    · exact .inl ⟨_, hscan, rfl⟩
    · exact .inr ⟨_, hscan, rfl⟩
  · exact .inl ⟨_, hread, rfl⟩

end


/-- The set-up of the response and the first `send_data`. -/
theorem setUpResponse_released_iff (cfg : Config) (env : Env) (fuel : Nat) (file : Option Nat) (uri : Uri)
    {c₀ c : Ctx} (h0 : c₀.log = []) (hbefore : Adds keepsSegment c₀ c) :
    ReleasedOnce (sendData cfg env fuel ((setUpResponse cfg file uri c).emit (.tcpSent true))).ctx.log ↔
      file ≠ none ∧ ¬(cfg.dynamicHttpHeaders = true ∧ uri.isPayload = true) := by
  have hsend : ∀ c' : Ctx, Adds offSegment c' (sendData cfg env fuel (c'.emit (.tcpSent true))).ctx := fun c' =>
    (Adds.emit c' rfl).trans (sendData_offSegment cfg env fuel _)
  have huse : Adds keepsSegment c₀ c.useState := hbefore.trans (.emit c rfl)
  unfold setUpResponse
  cases file with
  | none =>
      simp only [ne_eq, not_true_eq_false, false_and, iff_false]
      -- no file: the branch that frees the segment is not taken
      refine not_releasedOnce h0 (Adds.trans ?_ ((hsend _).mono fun _ => keepsSegment_of_off))
      have hnothing : Adds keepsSegment c₀ (c.useState.setHs c.useState.hs.serveNothing) := huse.trans (.of_log rfl)
      split
      · exact hnothing.trans (getHttpHeaders_parses _ uri).keepsSegment
      · exact hnothing
  | some i =>
      simp only [ne_eq, reduceCtorEq, not_false_eq_true, true_and]
      have hserve : Adds keepsSegment c₀ (c.useState.setHs (c.useState.hs.serve i (fsFile c.useState.fs i))) :=
        huse.trans (.of_log rfl)
      generalize c.useState.setHs (c.useState.hs.serve i (fsFile c.useState.fs i)) = c₁ at hserve
      by_cases hdyn : cfg.dynamicHttpHeaders = true
      swap
      · rw [if_neg hdyn]
        refine iff_of_true ?_ fun h => hdyn h.1
        exact releasedOnce h0 hserve (hsend _)
      simp only [hdyn, if_true, true_and]
      cases uri with
      | payload off =>
          simp only [Uri.isPayload, not_true_eq_false, iff_false]
          -- the headers are chosen by a name in the payload, after it was freed
          obtain ⟨c₂, j, n, es, hoff, hlate⟩ := getHttpHeaders_reads (c₁.emit .pbufFree) off
          obtain ⟨es', hes', -⟩ := hsend (getHttpHeaders (c₁.emit .pbufFree) (.payload off))
          exact not_releasedOnce_of_late hoff ⟨es ++ es', by rw [hes', hlate, List.append_assoc]⟩
      | const s =>
          simp only [Uri.isPayload, Bool.false_eq_true, not_false_eq_true, iff_true]
          -- the name is no part of the payload
          exact releasedOnce h0 hserve ((getHttpHeaders_offSegment _ rfl).trans (hsend _))
      | null =>
          simp only [Uri.isPayload, Bool.false_eq_true, not_false_eq_true, iff_true]
          exact releasedOnce h0 hserve ((getHttpHeaders_offSegment _ rfl).trans (hsend _))

/-- A segment that ends the connection. -/
theorem refused_released (env : Env) {c₀ c : Ctx} (h0 : c₀.log = []) (hbefore : Adds keepsSegment c₀ c) :
    ReleasedOnce (closeConn env (c.emit .pbufFree)).log :=
  releasedOnce h0 hbefore (closeConn_offSegment env _)

/-- Where `http_recv` does with the segment what it should: a file is being served, the segment holds no
    request, or a file is found and, with dynamic headers, not under a name in the payload. -/
def SegmentOwned (cfg : Config) (env : Env) (p : Segment) (c : Ctx) : Prop :=
  c.hs.handle ≠ none ∨ p.mem.take 4 ≠ lit "GET " ∨ (9 ≤ p.len ∧ p.marker = none) ∨
  (FindsFile cfg env c.fs p.request ∧ ¬(cfg.dynamicHttpHeaders = true ∧ OpensPayloadName cfg env c.fs p.request))

/-- A request on a connection that is not serving a file. -/
theorem handleRequest_released_iff (cfg : Config) (env : Env) (fuel : Nat) (p : Segment) {c₀ c : Ctx}
    (h0 : c₀.log = []) (hbefore : Adds keepsSegment c₀ c) (hhandle : c.hs.handle = none)
    (hpay : c.payload = p.mem) :
    ReleasedOnce (handleRequest cfg env fuel p c).ctx.log ↔ SegmentOwned cfg env p c := by
  have hread : Adds keepsSegment c₀ (c.emit (.payloadRead 0 (prefixReads (lit "GET ") c.payload))) :=
    hbefore.trans (.emit c rfl)
  unfold handleRequest SegmentOwned
  simp only [hhandle, ne_eq, not_true_eq_false, false_or]
  generalize hc₁ : c.emit (.payloadRead 0 (prefixReads (lit "GET ") c.payload)) = c₁ at hread
  have hpay₁ : c₁.payload = p.mem := by rw [← hc₁]; exact hpay
  have hfs₁ : c₁.fs = c.fs := by rw [← hc₁]; rfl
  have hget : isGet c₁ = decide (p.mem.take 4 = lit "GET ") := by unfold isGet; rw [hpay₁]
  rw [hget]
  by_cases hmethod : p.mem.take 4 = lit "GET "
  swap
  · -- no `GET`: the connection is closed
    simp only [hmethod, decide_false, Bool.false_eq_true, if_false, not_false_eq_true, true_or, iff_true]
    exact refused_released env h0 hread
  simp only [hmethod, decide_true, if_true, not_true_eq_false, false_or]
  -- the scan for the end of the URI
  obtain ⟨hbound, hrequest⟩ := findHttp_marker hpay₁
  have hscan := findHttp_parses p.len p.len 4 c₁
  generalize findHttp p.len p.len 4 c₁ = r at hbound hrequest hscan
  obtain ⟨i, c₂⟩ := r
  simp only at hbound hrequest hscan ⊢
  have hbefore₂ : Adds keepsSegment c₀ c₂ := hread.trans hscan.keepsSegment
  by_cases hnone : 9 ≤ p.len ∧ p.marker = none
  · rw [if_pos (hbound.mpr hnone)]
    simp only [hnone, and_self, true_or, iff_true]
    exact refused_released env h0 hbefore₂
  · rw [if_neg fun h => hnone (hbound.mp h)]
    -- a request: what is opened decides
    obtain ⟨hopens, hfound, hkind⟩ := openRequested_spec cfg env c₂
    rw [hscan.fs, hfs₁, hrequest] at hfound hkind
    generalize openRequested cfg env c₂ = r at hopens hfound hkind
    obtain ⟨file, uri, c₃⟩ := r
    simp only at hopens hfound hkind ⊢
    rw [setUpResponse_released_iff cfg env fuel file uri h0 (hbefore₂.trans hopens.keepsSegment), hfound, hkind]
    simp only [hnone, false_or]

/-- **The receive callback and its segment.** `http_recv` releases the segment exactly once and leaves its
    payload alone afterwards, in every state of the connection and whatever it is answered, exactly where
    `SegmentOwned` holds. -/
theorem segment_released_iff (cfg : Config) (env : Env) (fuel : Nat) (p : Segment) (c : Ctx) :
    ReleasedOnce (httpRecv cfg env fuel (some p) .ok { c with log := [] }).ctx.log ↔ SegmentOwned cfg env p c := by
  have hbefore : Adds keepsSegment { c with log := [] } (({ c with log := [] } : Ctx).receive p) :=
    ⟨[.tcpRecved p.totLen, .useState c.self], rfl, by simp [keepsSegment]⟩
  rw [httpRecv_some]
  by_cases hhandle : c.hs.handle = none
  · rw [if_pos hhandle]
    exact handleRequest_released_iff cfg env fuel p rfl hbefore hhandle rfl
  · rw [if_neg hhandle]
    exact iff_of_true (releasedOnce rfl hbefore (.refl _)) (.inl hhandle)

/-- Opening a file and setting up the response only add to the log. -/
theorem openRequested_setUp_adds (cfg : Config) (env : Env) (c : Ctx) :
    Adds (fun _ => true) c (setUpResponse cfg (openRequested cfg env c).1 (openRequested cfg env c).2.1
      (openRequested cfg env c).2.2) := by
  obtain ⟨es, hes, -⟩ := (openRequested_spec cfg env c).1.parses.log
  have hopen : Adds (fun _ => true) c (openRequested cfg env c).2.2 := ⟨es, hes, fun _ _ => rfl⟩
  generalize (openRequested cfg env c).1 = file
  generalize (openRequested cfg env c).2.1 = uri
  generalize (openRequested cfg env c).2.2 = c₁ at hopen
  have hheaders : ∀ c', Adds (fun _ => true) c' (getHttpHeaders c' uri) := by
    intro c'
    obtain ⟨es, hes, -⟩ := (getHttpHeaders_parses c' uri).log
    exact ⟨es, hes, fun _ _ => rfl⟩
  refine hopen.trans ?_
  unfold setUpResponse
  cases file with
  | some i =>
      have hfile : Adds (fun _ => true) c₁
          ((c₁.useState.setHs (c₁.useState.hs.serve i (fsFile c₁.useState.fs i))).emit .pbufFree) :=
        ⟨[.useState c₁.self, .pbufFree], by simp, by simp⟩
      simp only
      split
      · exact hfile.trans (hheaders _)
      · exact hfile
  | none =>
      have hnothing : Adds (fun _ => true) c₁ (c₁.useState.setHs c₁.useState.hs.serveNothing) :=
        ⟨[.useState c₁.self], by simp, by simp⟩
      simp only
      split
      · exact hnothing.trans (hheaders _)
      · exact hnothing

/-! Both ways to go wrong, on a connection that was just accepted: the ROM has the file `/a.htm` and no 404
page, one request asks for it, with dynamic headers, and one for another file. -/

def acceptedCtx (dynamic : Bool) : Ctx :=
  { httpAccept (soleConfig pageFile dynamic) .zero (.ofPayload []) with fs := [⟨⟨0, 0, 0⟩, false⟩], log := [] }

def otherRequest : Segment := { pageRequest with mem := lit "GET /b.htm HTTP/1.0\r\n\r\n", len_le := by decide }

theorem segment_leaked_or_read_late :
    ¬ReleasedOnce (httpRecv (soleConfig pageFile false) soleEnv 0 (some otherRequest) .ok (acceptedCtx false)).ctx.log ∧
    ¬ReleasedOnce (httpRecv (soleConfig pageFile true) soleEnv 0 (some pageRequest) .ok
        (acceptedCtx true)).ctx.log := by
  decide +kernel

end ThirdParty.Httpd
