import ThirdParty.Httpd.Correctness.Conservation

/-!
# `Httpd.Correctness.States` — what holds of every `http_state` of a run

A property of single states is an invariant of the server as soon as every callback keeps it: no callback touches the
state of another connection (`ServerInv`), so nothing has to be said about how callbacks interleave. The file table is
shared, and what the callbacks need to know of it is carried along.
-/

namespace ThirdParty.Httpd

open Lib Lwip

/-- **Every callback keeps `P`** of its state, or takes the connection from it, and keeps `G` of the file table. -/
structure KeptByCallbacks (cfg : Config) (G : FsMemory → Prop) (P : HttpState → Prop) : Prop where
  accept   : ∀ garbage : HttpState, P (garbage.accept cfg)
  state    : ∀ cb ≠ Callback.err, ∀ env fuel c, G c.fs → P c.hs → Adds quiet c (callback cfg env fuel cb c).ctx →
    P (callback cfg env fuel cb c).ctx.hs
  table    : ∀ cb env fuel c, G c.fs → G (callback cfg env fuel cb c).ctx.fs

/-- `P` of every state that a connection holds, and `G` of the file table. -/
def Server.Holds (G : FsMemory → Prop) (P : HttpState → Prop) (s : Server) : Prop :=
  G s.fs ∧ ∀ j n, s.holder j = some n → P (s.objs n)

section
variable {cfg : Config} {G : FsMemory → Prop} {P : HttpState → Prop} {s s' : Server} {j n : Nat} {k : Conn}

/-- A callback that leaves its connection with `P`, or without its state. -/
theorem Server.Holds.absorb (h : s.Holds G P) (hinv : ServerInv s) (hj : j < s.conns.length)
    (hn : s.holder j = some n ∨ s.nextSerial ≤ n) {c : Ctx} {returned : Bool} (hself : c.self = n) (hfs : G c.fs)
    (hlast : ∀ m, (k.applyAll c.self c.log).holds = some m → m = n ∧ P c.hs) :
    (s.absorb j k ⟨c, returned⟩).Holds G P := by
  refine ⟨hfs, ?_⟩
  intro j' n' hn'
  show P (Function.update s.objs c.self c.hs n')
  rw [hself]
  by_cases hj' : j' = j
  · subst hj'
    rw [holder_absorb hj] at hn'
    obtain ⟨rfl, hp⟩ := hlast n' hn'
    rw [Function.update_self]
    exact hp
  · have hholder : s.holder j' = some n' := by
      rw [Server.holder, conns_absorb hj'] at hn'
      exact hn'
    rw [Function.update_of_ne (holder_ne hinv hn hj' hholder)]
    exact h.2 j' n' hholder

theorem KeptByCallbacks.call (hkept : KeptByCallbacks cfg G P) (h : s.Holds G P) (hinv : ServerInv s)
    (hk : s.conns[j]? = some k) (halive : k.alive = true) (cb : Callback) (env : Env) (fuel : Nat) :
    (s.absorb j (k.before cb) (s.invoke cfg k cb env fuel)).Holds G P := by
  have hj : j < s.conns.length := (List.getElem?_eq_some_iff.mp hk).1
  have hholds : k.holds = k.arg := by simp [Conn.holds, halive]
  unfold Server.invoke
  cases harg : k.arg with
  | none =>
      -- no state is looked at, and none is held afterwards
      refine ⟨h.1, ?_⟩
      intro j' n' hn'
      show P (Function.update s.objs 0 (s.objs 0) n')
      rw [Function.update_eq_self]
      by_cases hj' : j' = j
      · subst hj'
        rw [holder_absorb hj, holds_null harg cb] at hn'
        exact absurd hn' (by simp)
      · rw [Server.holder, conns_absorb hj'] at hn'
        exact h.2 j' n' hn'
  | some n =>
      have hn : s.holder j = some n := by rw [holder_of hk, hholds, harg]
      have hfs : G (callback cfg env fuel cb (s.ctx n)).ctx.fs := hkept.table cb env fuel (s.ctx n) h.1
      by_cases herr : cb = .err
      · subst herr
        refine h.absorb hinv hj (.inl hn) (by simp [connErr, Server.ctx]) hfs fun m hm => ?_
        rw [holds_err rfl] at hm
        exact absurd hm (by simp)
      · have hbefore : k.before cb = k := by cases cb <;> first | rfl | exact absurd rfl herr
        obtain ⟨L₀, -, hown⟩ := hinv.owning hn
        have hend := callback_settled cfg env fuel herr hown
        have hstate := hkept.state cb herr env fuel (s.ctx n) h.1 (h.2 j n hn)
        rw [hbefore]
        simp only
        generalize callback cfg env fuel cb (s.ctx n) = o at hend hstate hfs
        obtain ⟨c, returned⟩ := o
        cases hend with
        | kept hreached =>
            obtain ⟨es, hes, hall⟩ := hreached.log
            refine h.absorb hinv hj (.inl hn) hreached.self hfs fun m hm => ⟨?_, hstate hreached.log⟩
            rw [show c.log = es from hes, applyAll_quiet _ hall, hholds, harg] at hm
            exact (Option.some.inj hm).symm
        | left gone log self leaves =>
            refine h.absorb hinv hj (.inl hn) self hfs fun m hm => ?_
            obtain ⟨es, hes, hall⟩ := log
            rw [applyAll_none _ (by rw [show c.log = es from hes]; exact hall) (.inr leaves)] at hm
            exact absurd hm (by simp)

/-- **Every step keeps the property** of all states. -/
theorem KeptByCallbacks.step (hkept : KeptByCallbacks cfg G P) {a : Action} (h : s.Holds G P) (hinv : ServerInv s)
    (hstep : s.step cfg a = some s') : s'.Holds G P := by
  cases Server.step_cases hstep with
  | @accept garbage env hmalloc =>
      have hinv₁ : ServerInv { s with conns := s.conns ++ [.fresh] } := hinv.congr (holder_fresh s) rfl rfl rfl rfl
      have h₁ : Server.Holds G P { s with conns := s.conns ++ [.fresh] } := by
        refine ⟨h.1, ?_⟩
        intro j n hn
        rw [holder_fresh] at hn
        exact h.2 j n hn
      refine h₁.absorb hinv₁ (by simp) (.inr (Nat.le_refl _)) rfl h.1 fun m hm => ⟨(Option.some.inj hm).symm, ?_⟩
      exact hkept.accept garbage
  | refuse hmalloc => exact h
  | @ack j n k hk halive hroom =>
      refine ⟨h.1, ?_⟩
      intro j' n' hn'
      rw [holder_ack hk] at hn'
      exact h.2 j' n' hn'
  | call hidle hk halive hhears => exact hkept.call h hinv hk halive _ _ _

/-- **The rule for runs**: what every callback keeps holds of every state of every run. -/
theorem KeptByCallbacks.run (hkept : KeptByCallbacks cfg G P) {slots : Nat} {mem : Mem} {tr : List (Server × Action)}
    (hinit : G (Server.init slots mem).fs) (hrun : Run (Server.step cfg) (Server.init slots mem) tr s) :
    s.Holds G P := by
  have hboth : ServerInv s ∧ s.Holds G P := by
    refine hrun.invariant (I := fun s => ServerInv s ∧ s.Holds G P) ⟨serverInv_init slots mem, hinit, ?_⟩ ?_
    · intro j n hn
      simp [Server.holder, Server.init] at hn
    · intro s a s' h hstep
      exact ⟨serverInv_step h.1 hstep, hkept.step h.2 h.1 hstep⟩
  exact hboth.2

end

end ThirdParty.Httpd
