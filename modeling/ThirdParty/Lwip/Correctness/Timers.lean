import ThirdParty.Lib.Deltas
import ThirdParty.Lib.Run
import ThirdParty.Lwip.Timers

/-!
# `Lwip.Correctness.Timers` — which timeouts are called, and when

The list of timeouts is a list of differences, so over every run the timeouts that wait are those of an agenda in
the order of their due times. The agenda counts from a time that is `age` milliseconds ago. `sys_timeout` promises
the call after the time that it is given; the promise is kept by every step but four, of which it is known when they
break it.
-/

namespace ThirdParty.Lwip

open Lib

/-! ## The list of timeouts -/

/-- The time and the rest. -/
def Timeo.entry (t : Timeo) : Nat × (Option Nat × Nat × Nat) := (t.time, t.h, t.arg, t.asked)

/-- The loop of `sys_timeout`, which begins at a timeout that is not later. -/
theorem sysTimeoutLoop_entries : ∀ (ts : List Timeo) (timeout : Timeo), (∀ t ∈ ts, t.time < 4294967296) →
    timeout.time < 4294967296 → (∀ t ∈ ts.head?, t.time ≤ timeout.time) → ts ≠ [] →
    (sysTimeoutLoop ts timeout).map Timeo.entry = insertDelta timeout.time timeout.entry.2 (ts.map Timeo.entry)
  | [],           _,       _,      _,   _,     hne => absurd rfl hne
  | [t],          timeout, _,      hlt, hhead, _   => by
      have hle : t.time ≤ timeout.time := hhead t rfl
      simp only [sysTimeoutLoop, List.map_cons, List.map_nil, Timeo.entry, insertDelta]
      rw [if_neg (Nat.not_lt.mpr hle), toU32_sub hle hlt]
  | t :: u :: ts, timeout, htimes, hlt, hhead, _   => by
      have hle : t.time ≤ timeout.time := hhead t rfl
      have hu := htimes u (List.mem_cons_of_mem _ List.mem_cons_self)
      have hrest : toU32 ((timeout.time : Int) - t.time) = timeout.time - t.time := toU32_sub hle hlt
      have hstop : insertDelta timeout.time timeout.entry.2 ((t :: u :: ts).map Timeo.entry) =
          t.entry :: insertDelta (timeout.time - t.time) timeout.entry.2 ((u :: ts).map Timeo.entry) :=
        if_neg (Nat.not_lt.mpr hle)
      rw [hstop, sysTimeoutLoop]
      dsimp only
      rw [hrest]
      split
      · next hbefore =>
          rw [List.map_cons, List.map_cons, List.map_cons, List.map_cons, toU32_sub (Nat.le_of_lt hbefore) hu]
          exact congrArg (t.entry :: ·) (if_pos hbefore).symm
      · next hbehind =>
          rw [List.map_cons]
          refine congrArg (t.entry :: ·) ?_
          refine sysTimeoutLoop_entries (u :: ts) { timeout with time := timeout.time - t.time } ?_ ?_ ?_
            (List.cons_ne_nil u ts)
          · exact fun t' ht' => htimes t' (List.mem_cons_of_mem _ ht')
          · exact Nat.lt_of_le_of_lt (Nat.sub_le _ _) hlt
          · intro t' ht'
            rw [List.head?_cons, Option.mem_def, Option.some.injEq] at ht'
            rw [← ht']
            exact Nat.le_of_not_lt hbehind

theorem sysTimeout_entries {ts : List Timeo} {timeout : Timeo} (htimes : ∀ t ∈ ts, t.time < 4294967296)
    (hlt : timeout.time < 4294967296) :
    (sysTimeout ts timeout).map Timeo.entry = insertDelta timeout.time timeout.entry.2 (ts.map Timeo.entry) := by
  cases ts with
  | nil => rfl
  | cons t ts =>
      rw [sysTimeout]
      split
      · next hbefore =>
          rw [List.map_cons, List.map_cons, List.map_cons,
            toU32_sub (Nat.le_of_lt hbefore) (htimes t List.mem_cons_self)]
          exact (if_pos hbefore).symm
      · next hbehind =>
          refine sysTimeoutLoop_entries (t :: ts) timeout htimes hlt ?_ (List.cons_ne_nil t ts)
          intro t' ht'
          rw [List.head?_cons, Option.mem_def, Option.some.injEq] at ht'
          rw [← ht']
          exact Nat.le_of_not_lt hbehind

theorem sysUntimeout_entries (h : Option Nat) (arg : Nat) : ∀ (ts : List Timeo) (n : Nat),
    (∀ e ∈ dues n (ts.map Timeo.entry), e.1 < 4294967296) →
    (sysUntimeout h arg ts).map Timeo.entry = removeDelta (fun y => decide (y.1 = h ∧ y.2.1 = arg)) (ts.map Timeo.entry)
  | [],      _, _     => rfl
  | t :: ts, n, hsoon => by
      rw [List.map_cons, removeDelta, sysUntimeout.eq_def]
      dsimp only
      by_cases hmatch : t.h = h ∧ t.arg = arg
      · have hentry : decide (t.entry.2.1 = h ∧ t.entry.2.2.1 = arg) = true := decide_eq_true hmatch
        rw [if_pos hmatch, if_pos hentry]
        cases ts with
        | nil => rfl
        | cons u us =>
            have hlast := hsoon (n + t.time + u.time, u.entry.2) (List.mem_cons_of_mem _ List.mem_cons_self)
            dsimp only at hlast
            rw [List.map_cons, List.map_cons, toU32_of_lt (by omega)]
            rfl
      · have hentry : ¬ decide (t.entry.2.1 = h ∧ t.entry.2.2.1 = arg) = true :=
          fun heq => hmatch (of_decide_eq_true heq)
        rw [if_neg hmatch, if_neg hentry, List.map_cons]
        exact congrArg (t.entry :: ·)
          (sysUntimeout_entries h arg ts (n + t.time) fun e he => hsoon e (List.mem_cons_of_mem _ he))

/-! ## What a step can do -/

section
variable {s s' : Timers}

theorem timerStep_timeout {msecs arg : Nat} {h : Option Nat} {memp : Bool}
    (hstep : timerStep s (.timeout msecs h arg memp) = some s') : msecs < 4294967296 ∧
      s' = if memp then
          { s with
            timeouts := sysTimeout s.timeouts { time := msecs, h := h, arg := arg, asked := s.clock + msecs } }
        else s := by
  rw [timerStep] at hstep
  split at hstep
  · next hmsecs =>
      cases memp <;> cases hstep <;> exact ⟨hmsecs, rfl⟩
  · cases hstep

theorem timerStep_check (hstep : timerStep s .check = some s') : s.check = none ∧
    (s' = s ∨ s' = { s with check := some ⟨s.sysNow, toU32 ((s.sysNow : Int) - s.lastTime)⟩ }) := by
  rw [timerStep] at hstep
  split at hstep
  · next hidle hnone =>
      cases hstep
      exact ⟨hidle, .inl rfl⟩
  · next t ts hidle hts =>
      cases hstep
      exact ⟨hidle, .inr rfl⟩
  · cases hstep

theorem timerStep_call (hstep : timerStep s .call = some s') :
    ∃ c t ts, s.check = some c ∧ s.timeouts = t :: ts ∧ t.time ≤ c.diff ∧
      s' = { s with
        timeouts := ts, lastTime := c.now, check := some { c with diff := toU32 ((c.diff : Int) - t.time) } } := by
  rw [timerStep] at hstep
  split at hstep
  · next c t ts hcheck hts =>
      split at hstep
      · next hdue =>
          cases hstep
          exact ⟨c, t, ts, hcheck, hts, hdue, rfl⟩
      · cases hstep
  · cases hstep

theorem timerStep_done (hstep : timerStep s .done = some s') :
    ∃ c, s.check = some c ∧ (∀ t ts, s.timeouts = t :: ts → c.diff < t.time) ∧ s' = { s with check := none } := by
  rw [timerStep] at hstep
  split at hstep
  · next c hcheck hnone =>
      cases hstep
      refine ⟨c, hcheck, fun t ts hts => ?_, rfl⟩
      rw [hnone] at hts
      cases hts
  · next c u us hcheck hus =>
      split at hstep
      · cases hstep
      · next hlate =>
          cases hstep
          refine ⟨c, hcheck, fun t ts hts => ?_, rfl⟩
          rw [hus] at hts
          cases hts
          exact Nat.lt_of_not_le hlate
  · cases hstep

theorem timerStep_restart (hstep : timerStep s .restart = some s') :
    s.check = none ∧ s' = { s with lastTime := s.sysNow } := by
  rw [timerStep] at hstep
  split at hstep
  · next hidle =>
      cases hstep
      exact ⟨hidle, rfl⟩
  · cases hstep

end

/-! ## The agenda -/

/-- The calls that wait, with the time at which they are due. -/
def Timers.agenda (s : Timers) : List (Nat × (Option Nat × Nat × Nat)) := dues 0 (s.timeouts.map Timeo.entry)

/-- What a step does to an agenda. -/
def agendaStep (clock : Nat) (l : List (Nat × (Option Nat × Nat × Nat))) :
    TimerAct → List (Nat × (Option Nat × Nat × Nat))
  | .timeout msecs h arg true => l.orderedInsert Before (msecs, h, arg, clock + msecs)
  | .untimeout h arg          => l.eraseP fun e => decide (e.2.1 = h ∧ e.2.2.1 = arg)
  | .call                     => l.tail.map fun e => (e.1 - (l.headD (0, none, 0, 0)).1, e.2)
  | _                         => l

/-- What holds after every step. -/
structure TimersInv (s : Timers) : Prop where
  soon  : ∀ e ∈ s.agenda, e.1 < 4294967296
  last  : s.lastTime < 4294967296
  check : ∀ c, s.check = some c → c.now < 4294967296 ∧ c.diff < 4294967296 ∧
    (s.lastTime = c.now ∨ c.diff = toU32 ((c.now : Int) - s.lastTime))

variable {s s' : Timers} {act : TimerAct} {clock : Nat} {tr : List (Timers × TimerAct)}

theorem mem_dues_of_mem : ∀ {ts : List Timeo} {t : Timeo} (n : Nat), t ∈ ts →
    ∃ k, n + t.time ≤ k ∧ (k, t.entry.2) ∈ dues n (ts.map Timeo.entry)
  | u :: ts, t, n, ht => by
      rcases List.mem_cons.mp ht with rfl | ht
      · exact ⟨n + t.time, Nat.le_refl _, List.mem_cons_self⟩
      · obtain ⟨k, hle, hk⟩ := mem_dues_of_mem (n + u.time) ht
        exact ⟨k, by omega, List.mem_cons_of_mem _ hk⟩

theorem TimersInv.times (h : TimersInv s) : ∀ t ∈ s.timeouts, t.time < 4294967296 := by
  intro t ht
  obtain ⟨k, hle, hk⟩ := mem_dues_of_mem 0 ht
  have hlt := h.soon _ hk
  dsimp only at hlt
  omega

theorem timersInv_init (clock : Nat) : TimersInv (Timers.init clock) :=
  ⟨fun _ he => absurd he List.not_mem_nil, toU32_lt (clock : Int), fun _ hc => by cases hc⟩

theorem agenda_cons {t : Timeo} {ts : List Timeo} :
    dues 0 ((t :: ts).map Timeo.entry) =
      (t.time, t.entry.2) :: (dues 0 (ts.map Timeo.entry)).map fun e => (e.1 + t.time, e.2) := by
  rw [List.map_cons, show t.entry = (t.time, t.entry.2) from rfl, dues_cons, dues_add, Nat.zero_add]

/-- **A step does to the agenda what it says.** -/
theorem agenda_step (h : TimersInv s) (hstep : timerStep s act = some s') :
    s'.agenda = agendaStep s.clock s.agenda act := by
  cases act with
  | tick ms => cases hstep; rfl
  | timeout msecs handler arg memp =>
      obtain ⟨hmsecs, rfl⟩ := timerStep_timeout hstep
      cases memp with
      | false => rfl
      | true =>
          rw [if_pos rfl, Timers.agenda, sysTimeout_entries h.times hmsecs, dues_insertDelta, Nat.zero_add]
          rfl
  | untimeout handler arg =>
      cases hstep
      rw [Timers.agenda, sysUntimeout_entries handler arg s.timeouts 0 h.soon, dues_removeDelta]
      rfl
  | check =>
      obtain ⟨-, rfl | rfl⟩ := timerStep_check hstep
      · rfl
      · rfl
  | call =>
      obtain ⟨c, t, ts, -, hts, -, rfl⟩ := timerStep_call hstep
      rw [Timers.agenda, Timers.agenda, hts, agenda_cons, agendaStep, List.tail_cons, List.headD_cons, List.map_map]
      refine (List.map_id _).symm.trans (List.map_congr_left fun e _ => ?_)
      show e = (e.1 + t.time - t.time, e.2)
      rw [Nat.add_sub_cancel]
  | done =>
      obtain ⟨c, -, -, rfl⟩ := timerStep_done hstep
      rfl
  | restart =>
      obtain ⟨-, rfl⟩ := timerStep_restart hstep
      rfl

theorem soon_agendaStep {l : List (Nat × (Option Nat × Nat × Nat))} (hsoon : ∀ e ∈ l, e.1 < 4294967296)
    (hmsecs : ∀ msecs h arg, act = .timeout msecs h arg true → msecs < 4294967296) :
    ∀ e ∈ agendaStep clock l act, e.1 < 4294967296 := by
  intro e he
  cases act with
  | timeout msecs handler arg memp =>
      cases memp with
      | false => exact hsoon e he
      | true =>
          rcases (List.mem_orderedInsert Before).mp he with rfl | he
          · exact hmsecs msecs handler arg rfl
          · exact hsoon e he
  | untimeout handler arg => exact hsoon e (List.mem_of_mem_eraseP he)
  | call =>
      obtain ⟨e', he', rfl⟩ := List.mem_map.mp he
      exact Nat.lt_of_le_of_lt (Nat.sub_le _ _) (hsoon e' (List.mem_of_mem_tail he'))
  | tick ms => exact hsoon e he
  | check => exact hsoon e he
  | done => exact hsoon e he
  | restart => exact hsoon e he

theorem timersInv_step (h : TimersInv s) (hstep : timerStep s act = some s') : TimersInv s' := by
  have hsoon : ∀ e ∈ s'.agenda, e.1 < 4294967296 := by
    rw [agenda_step h hstep]
    refine soon_agendaStep h.soon ?_
    rintro msecs handler arg rfl
    exact (timerStep_timeout hstep).1
  cases act with
  | tick ms => cases hstep; exact ⟨hsoon, h.last, h.check⟩
  | timeout msecs handler arg memp =>
      obtain ⟨-, rfl⟩ := timerStep_timeout hstep
      cases memp with
      | false => exact h
      | true => exact ⟨hsoon, h.last, h.check⟩
  | untimeout handler arg => cases hstep; exact ⟨hsoon, h.last, h.check⟩
  | check =>
      obtain ⟨-, rfl | rfl⟩ := timerStep_check hstep
      · exact h
      · refine ⟨hsoon, h.last, fun c hc => ?_⟩
        cases hc
        exact ⟨toU32_lt (s.clock : Int), toU32_lt _, .inr rfl⟩
  | call =>
      obtain ⟨c, t, ts, hcheck, -, -, rfl⟩ := timerStep_call hstep
      refine ⟨hsoon, (h.check c hcheck).1, fun c' hc' => ?_⟩
      cases hc'
      exact ⟨(h.check c hcheck).1, toU32_lt _, .inl rfl⟩
  | done =>
      obtain ⟨c, -, -, rfl⟩ := timerStep_done hstep
      exact ⟨hsoon, h.last, fun _ hc => by cases hc⟩
  | restart =>
      obtain ⟨hidle, rfl⟩ := timerStep_restart hstep
      exact ⟨hsoon, toU32_lt (s.clock : Int), fun _ hc => by rw [hidle] at hc; cases hc⟩

/-! ## When calls are due -/

/-- How long it is since `sys_check_timeouts` began, or since `timeouts_last_time` if it is not running. -/
def Timers.since (s : Timers) : Nat :=
  toU32 ((s.sysNow : Int) - (match s.check with | some c => c.now | none => s.lastTime : Nat))

/-- How long ago the time is from which the agenda counts. -/
def Timers.age (s : Timers) : Nat := s.since + (match s.check with | some c => c.diff | none => 0)

/-- **The promise of `sys_timeout`**: every call that waits is due when it was asked for. -/
def Timers.Promise (s : Timers) : Prop := ∀ e ∈ s.agenda, e.1 + s.clock = e.2.2.2 + s.age

/-- The steps that keep it: `sys_timeout` when the agenda counts from now, a `sys_check_timeouts` that returns when
    it has called something that was due just then; and time passes within the range of `u32_t`. -/
def TimerOk (s : Timers) : TimerAct → Prop
  | .tick ms            => s.timeouts = [] ∨ s.since + ms < 4294967296
  | .timeout _ _ _ memp => memp = false ∨ s.age = 0
  | .done               =>
      s.timeouts = [] ∨ ∀ c ∈ s.check, if s.lastTime = c.now then c.diff = 0 else s.age < 4294967296
  | .restart            => s.timeouts = [] ∨ s.age = 0
  | _                   => True

instance (s : Timers) : (act : TimerAct) → Decidable (TimerOk s act)
  | .tick ms            => inferInstanceAs (Decidable (s.timeouts = [] ∨ s.since + ms < 4294967296))
  | .timeout _ _ _ memp => inferInstanceAs (Decidable (memp = false ∨ s.age = 0))
  | .untimeout _ _      => instDecidableTrue
  | .check              => instDecidableTrue
  | .call               => instDecidableTrue
  | .done               => inferInstanceAs (Decidable (s.timeouts = [] ∨
      ∀ c ∈ s.check, if s.lastTime = c.now then c.diff = 0 else s.age < 4294967296))
  | .restart            => inferInstanceAs (Decidable (s.timeouts = [] ∨ s.age = 0))

theorem agenda_eq_nil : s.agenda = [] ↔ s.timeouts = [] := by
  rw [Timers.agenda, dues_eq_nil, List.map_eq_nil_iff]

/-- The same agenda on another clock. -/
theorem Timers.Promise.shift_iff (hp : s.Promise) (hagenda : s'.agenda = s.agenda) :
    s'.Promise ↔ s.timeouts = [] ∨ s'.clock + s.age = s.clock + s'.age := by
  rw [← agenda_eq_nil]
  unfold Timers.Promise at hp ⊢
  rw [hagenda]
  constructor
  · intro hp'
    rcases hl : s.agenda with _ | ⟨e, l⟩
    · exact .inl rfl
    · have hbefore := hp e (by rw [hl]; exact List.mem_cons_self)
      have hafter := hp' e (by rw [hl]; exact List.mem_cons_self)
      exact .inr (by omega)
  · rintro (hnone | hclock) e he
    · rw [hnone] at he
      exact absurd he List.not_mem_nil
    · have hbefore := hp e he
      omega

theorem since_idle (hidle : s.check = none) : s.since = toU32 ((s.clock % 4294967296 : Nat) - (s.lastTime : Int)) := by
  unfold Timers.since Timers.sysNow toU32
  rw [hidle]
  dsimp only
  omega

theorem since_running {c : TimerCheck} (hcheck : s.check = some c) :
    s.since = toU32 ((s.clock % 4294967296 : Nat) - (c.now : Int)) := by
  unfold Timers.since Timers.sysNow toU32
  rw [hcheck]
  dsimp only
  omega

theorem age_idle (hidle : s.check = none) : s.age = s.since := by
  unfold Timers.age
  rw [hidle]
  rfl

theorem age_running {c : TimerCheck} (hcheck : s.check = some c) : s.age = s.since + c.diff := by
  unfold Timers.age
  rw [hcheck]

/-- Time passes. -/
theorem age_tick (ms : Nat) (s : Timers) :
    ({ s with clock := s.clock + ms } : Timers).age + s.since = (s.since + ms) % 4294967296 + s.age := by
  obtain ⟨timeouts, lastTime, clock, check⟩ := s
  unfold Timers.age Timers.since Timers.sysNow toU32
  cases check with
  | none =>
      dsimp only
      omega
  | some c =>
      dsimp only
      omega

/-- **When a step keeps the promise.** -/
theorem promise_step_iff (h : TimersInv s) (hp : s.Promise) (hstep : timerStep s act = some s') :
    s'.Promise ↔ TimerOk s act := by
  have hagenda := agenda_step h hstep
  cases act with
  | tick ms =>
      have hage := age_tick ms s
      cases hstep
      rw [hp.shift_iff hagenda, TimerOk]
      refine or_congr Iff.rfl ?_
      dsimp only at hage ⊢
      omega
  | timeout msecs handler arg memp =>
      obtain ⟨-, rfl⟩ := timerStep_timeout hstep
      cases memp with
      | false => exact iff_of_true hp (.inl rfl)
      | true =>
          unfold Timers.Promise at hp ⊢
          rw [hagenda, TimerOk]
          constructor
          · intro hp'
            have hnew := hp' _ ((List.mem_orderedInsert Before).mpr (.inl rfl))
            right
            change msecs + s.clock = s.clock + msecs + s.age at hnew
            omega
          · rintro (hnone | hage) e he
            · cases hnone
            · show e.1 + s.clock = e.2.2.2 + s.age
              rcases (List.mem_orderedInsert Before).mp he with rfl | he
              · show msecs + s.clock = s.clock + msecs + s.age
                omega
              · exact hp e he
  | untimeout handler arg =>
      cases hstep
      refine iff_of_true ?_ trivial
      unfold Timers.Promise at hp ⊢
      rw [hagenda]
      exact fun e he => hp e (List.mem_of_mem_eraseP he)
  | check =>
      obtain ⟨hidle, rfl | rfl⟩ := timerStep_check hstep
      · exact iff_of_true hp trivial
      · rw [hp.shift_iff hagenda]
        refine iff_of_true (.inr ?_) trivial
        rw [age_idle hidle, since_idle hidle, age_running rfl, since_running rfl]
        unfold Timers.sysNow toU32
        dsimp only
        omega
  | call =>
      obtain ⟨c, t, ts, hcheck, hts, hdue, rfl⟩ := timerStep_call hstep
      refine iff_of_true ?_ trivial
      intro e he
      have hbefore := hp (e.1 + t.time, e.2) (by
        rw [Timers.agenda, hts, agenda_cons]
        exact List.mem_cons_of_mem _ (List.mem_map.mpr ⟨e, he, rfl⟩))
      rw [age_running hcheck, since_running hcheck] at hbefore
      rw [age_running rfl, since_running rfl]
      dsimp only at hbefore ⊢
      rw [toU32_sub hdue (h.check c hcheck).2.1]
      omega
  | done =>
      obtain ⟨c, hcheck, -, rfl⟩ := timerStep_done hstep
      obtain ⟨hnow, hdiff, hlast⟩ := h.check c hcheck
      have hlt := h.last
      rw [hp.shift_iff hagenda, TimerOk]
      refine or_congr Iff.rfl ?_
      have hforall : (∀ c' ∈ s.check, if s.lastTime = c'.now then c'.diff = 0 else s.age < 4294967296) ↔
          if s.lastTime = c.now then c.diff = 0 else s.age < 4294967296 :=
        ⟨fun hall => hall c hcheck, fun hc c' hc' => by rw [hcheck] at hc'; cases hc'; exact hc⟩
      rw [hforall, age_running hcheck, since_running hcheck, age_idle (s := { s with check := none }) rfl,
        since_idle (s := { s with check := none }) rfl]
      -- if something was called the rest of the difference is lost; if not, the difference is taken again
      unfold toU32 at hlast ⊢
      dsimp only
      split
      · omega
      · omega
  | restart =>
      obtain ⟨hidle, rfl⟩ := timerStep_restart hstep
      rw [hp.shift_iff hagenda, TimerOk]
      refine or_congr Iff.rfl ?_
      rw [age_idle hidle, since_idle hidle, age_idle (s := { s with lastTime := s.sysNow }) hidle,
        since_idle (s := { s with lastTime := s.sysNow }) hidle]
      unfold Timers.sysNow toU32
      dsimp only
      omega

/-! ## Runs -/

/-- The agenda of a history. -/
def agendaOf (tr : List (Timers × TimerAct)) : List (Nat × (Option Nat × Nat × Nat)) :=
  tr.foldl (fun l sa => agendaStep sa.1.clock l sa.2) []

/-- **The list of timeouts is an agenda.** In every run, what `sys_timeout`, `sys_untimeout` and the rounds of
    `sys_check_timeouts` leave is the agenda of the history, in the order of the due times. -/
theorem timeouts_refine_agenda (hrun : Run timerStep (Timers.init clock) tr s) :
    s.agenda = agendaOf tr ∧ s.agenda.Pairwise fun a b => a.1 ≤ b.1 := by
  refine ⟨?_, dues_pairwise 0 _⟩
  induction hrun with
  | nil => rfl
  | snoc hr hs ih =>
      have hstep := agenda_step (hr.invariant (timersInv_init clock) timersInv_step) hs
      rw [agendaOf, List.foldl_append, List.foldl_cons, List.foldl_nil, ← agendaOf, ← ih]
      exact hstep

/-- Of two timeouts the second is due first; it is called 10 ms late. -/
def lateCalls : List TimerAct :=
  [.timeout 100 (some 1) 0 true, .timeout 50 (some 2) 0 true, .tick 60, .check, .call, .done]

/-- What is left of them. -/
def afterLateCalls : Timers := ⟨[⟨50, some 1, 0, 100⟩], 60, 60, none⟩

theorem lateCalls_run : Run timerStep (Timers.init 0) (executed timerStep (Timers.init 0) lateCalls) afterLateCalls :=
  Run.executed (by decide +kernel)

theorem timeouts_refine_agenda_late :
    agendaOf (executed timerStep (Timers.init 0) lateCalls) = [(50, some 1, 0, 100)] :=
  (timeouts_refine_agenda lateCalls_run).1.symm

theorem promise_init (clock : Nat) : (Timers.init clock).Promise := fun _ he => absurd he List.not_mem_nil

/-- **When the promise of `sys_timeout` is kept**: in every run all calls that wait are due when they were asked
    for, in every state, exactly if every step of it is `TimerOk`. -/
theorem promise_kept_iff (hrun : Run timerStep (Timers.init clock) tr s) :
    ((∀ t ∈ visited tr, t.Promise) ∧ s.Promise) ↔ ∀ sa ∈ tr, TimerOk sa.1 sa.2 :=
  hrun.holds_iff (timersInv_init clock) (promise_init clock) timersInv_step promise_step_iff

theorem promise_kept_iff_late :
    ¬ ((∀ t ∈ visited (executed timerStep (Timers.init 0) lateCalls), t.Promise) ∧ afterLateCalls.Promise) := by
  rw [promise_kept_iff lateCalls_run]
  decide +kernel

/-- **Calls are on time.** In a run that keeps the promise a check calls what was asked for by the time at which it
    began, and nothing else. -/
theorem calls_on_time (hrun : Run timerStep (Timers.init clock) tr s) (hok : ∀ sa ∈ tr, TimerOk sa.1 sa.2) :
    (∀ sa ∈ tr, sa.2 = .call → ∀ t ∈ sa.1.timeouts.head?, t.asked + sa.1.since ≤ sa.1.clock) ∧
    (∀ sa ∈ tr, sa.2 = .done → ∀ t ∈ sa.1.timeouts, sa.1.clock < t.asked + sa.1.since) := by
  have hpromise := ((hrun.holds_iff (timersInv_init clock) (promise_init clock) timersInv_step
    promise_step_iff).mpr hok).1
  have htaken := hrun.invariant_taken (timersInv_init clock) timersInv_step
  constructor
  · rintro ⟨s, act⟩ hsa rfl t ht
    obtain ⟨s', hstep⟩ := (htaken _ hsa).2
    obtain ⟨c, u, us, hcheck, hus, hdue, -⟩ := timerStep_call hstep
    dsimp only at ht hcheck hus ⊢
    rw [hus, List.head?_cons, Option.mem_def, Option.some.injEq] at ht
    have hdueAt := hpromise s (List.mem_map.mpr ⟨_, hsa, rfl⟩) (u.time, u.entry.2) (by
      rw [Timers.agenda, hus, agenda_cons]
      exact List.mem_cons_self)
    rw [age_running hcheck] at hdueAt
    change u.time + s.clock = u.asked + (s.since + c.diff) at hdueAt
    rw [← ht]
    omega
  · rintro ⟨s, act⟩ hsa rfl t ht
    obtain ⟨s', hstep⟩ := (htaken _ hsa).2
    obtain ⟨c, hcheck, hlate, -⟩ := timerStep_done hstep
    dsimp only at ht hcheck hlate ⊢
    obtain ⟨k, -, hk⟩ := mem_dues_of_mem 0 ht
    have hdueAt := hpromise s (List.mem_map.mpr ⟨_, hsa, rfl⟩) _ hk
    rw [age_running hcheck] at hdueAt
    change k + s.clock = t.asked + (s.since + c.diff) at hdueAt
    -- the first is not due yet, and none is due before it
    have hnotYet : c.diff < k := by
      rcases hus : s.timeouts with _ | ⟨u, us⟩
      · rw [hus] at ht
        exact absurd ht List.not_mem_nil
      · have hfirst := hlate u us hus
        rw [hus, agenda_cons] at hk
        rcases List.mem_cons.mp hk with heq | hrest
        · exact Nat.lt_of_lt_of_eq hfirst (congrArg Prod.fst heq).symm
        · obtain ⟨e, -, heq⟩ := List.mem_map.mp hrest
          have hsum := congrArg Prod.fst heq
          dsimp only at hsum
          omega
    omega

/-- A timeout that is checked when it is due. -/
def punctualCalls : List TimerAct := [.timeout 100 (some 1) 0 true, .tick 100, .check, .call, .done]

/-- The state in which it is called. -/
def dueNow : Timers := ⟨[⟨100, some 1, 0, 100⟩], 0, 100, some ⟨100, 100⟩⟩

theorem calls_on_time_punctual : 100 + dueNow.since ≤ dueNow.clock := by
  have hrun : Run timerStep (Timers.init 0) (executed timerStep (Timers.init 0) punctualCalls) ⟨[], 100, 100, none⟩ :=
    Run.executed (by decide +kernel)
  exact (calls_on_time hrun (by decide +kernel)).1 (dueNow, .call) (by decide +kernel) rfl _ rfl

end ThirdParty.Lwip
