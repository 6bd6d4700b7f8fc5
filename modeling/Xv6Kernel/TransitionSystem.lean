/-
  TransitionSystem.lean
  =====================
  Labelled transition systems with a guarded, executable step function.

  `step s a` is `some (s', ev)` when the action `a` can be taken in `s`; `ev` lists
  the observable events of that step.  All nondeterminism is in the choice of the
  action, so a run is determined by its first state and its list of actions, and
  one definition serves both to replay a scenario and to quantify over all runs.

  `Reachable.invariant` is the induction every safety result uses, `invariant_of`
  the same rule when an earlier invariant is known.  `ReachableWhen` is about runs
  whose steps all meet a condition.  `Simulation` carries reachability to a more
  abstract system; `run_agree` compares runs.
-/
import Mathlib.Data.List.Basic

/-- A transition system over states `σ`, actions `α` and events `ε`. -/
structure TransitionSystem (σ : Type*) (α ε : Type) where
  init : σ → Prop
  step : σ → α → Option (σ × List ε)

namespace TransitionSystem

variable {σ : Type*} {α ε : Type} (T : TransitionSystem σ α ε)

/-! ### Reachable states -/

/-- States reached from an initial one by enabled steps. -/
inductive Reachable : σ → Prop where
  | init {s : σ} : T.init s → Reachable s
  | step {s s' : σ} {a : α} {ev : List ε} :
      Reachable s → T.step s a = some (s', ev) → Reachable s'

/-- States reached by steps that all meet the condition `C` on the state before the
    step and its action. -/
inductive ReachableWhen (C : σ → α → Prop) : σ → Prop where
  | init {s : σ} : T.init s → ReachableWhen C s
  | step {s s' : σ} {a : α} {ev : List ε} :
      ReachableWhen C s → C s a → T.step s a = some (s', ev) → ReachableWhen C s'

variable {T}

theorem Reachable.invariant {P : σ → Prop} {s : σ} (hs : T.Reachable s)
    (hinit : ∀ s, T.init s → P s)
    (hstep : ∀ s a s' ev, P s → T.step s a = some (s', ev) → P s') : P s := by
  induction hs with
  | init h0 => exact hinit _ h0
  | step _ hse ih => exact hstep _ _ _ _ ih hse

/-- An invariant may use one that is already known to hold. -/
theorem Reachable.invariant_of {P Q : σ → Prop} (hQ : ∀ s, T.Reachable s → Q s)
    {s : σ} (hs : T.Reachable s) (hinit : ∀ s, T.init s → P s)
    (hstep : ∀ s a s' ev, Q s → P s → T.step s a = some (s', ev) → P s') : P s := by
  induction hs with
  | init h0 => exact hinit _ h0
  | step hr hse ih => exact hstep _ _ _ _ (hQ _ hr) ih hse

theorem ReachableWhen.reachable (hs : T.ReachableWhen C s) : T.Reachable s := by
  induction hs with
  | init h0 => exact .init h0
  | step _ _ hse ih => exact .step ih hse

theorem ReachableWhen.invariant_of {P Q : σ → Prop}
    (hQ : ∀ s, T.Reachable s → Q s) {s : σ} (hs : T.ReachableWhen C s) (hinit : ∀ s, T.init s → P s)
    (hstep : ∀ s a s' ev, Q s → P s → C s a → T.step s a = some (s', ev) → P s') : P s := by
  induction hs with
  | init h0 => exact hinit _ h0
  | step hr hc hse ih => exact hstep _ _ _ _ (hQ _ hr.reachable) ih hc hse

/-! ### Runs -/

variable (T)

/-- The state and the events after taking the listed actions one by one. -/
def run : σ → List α → Option (σ × List ε)
  | s, [] => some (s, [])
  | s, a :: as =>
      match T.step s a with
      | none => none
      | some (s', ev) =>
          match run s' as with
          | none => none
          | some (s'', ev') => some (s'', ev ++ ev')

variable {T}

@[simp] theorem run_nil (s : σ) : T.run s [] = some (s, []) := rfl

theorem run_cons_eq_some : T.run s (a :: as) = some (t, ev) ↔
      ∃ s' ev₁ ev₂, T.step s a = some (s', ev₁) ∧ T.run s' as = some (t, ev₂) ∧
        ev = ev₁ ++ ev₂ := by
  constructor
  · intro hrun
    simp only [run] at hrun
    rcases hstep : T.step s a with _ | ⟨s', ev₁⟩
    · rw [hstep] at hrun
      simp at hrun
    · rw [hstep] at hrun
      rcases hrest : T.run s' as with _ | ⟨t', ev₂⟩
      · simp [hrest] at hrun
      · simp only [hrest, Option.some.injEq, Prod.mk.injEq] at hrun
        obtain ⟨rfl, rfl⟩ := hrun
        exact ⟨s', ev₁, ev₂, rfl, hrest, rfl⟩
  · rintro ⟨s', ev₁, ev₂, hstep, hrest, rfl⟩
    simp only [run, hstep, hrest]

theorem run_append_eq_some : T.run s (as ++ bs) = some (t, ev) ↔
      ∃ s' ev₁ ev₂, T.run s as = some (s', ev₁) ∧ T.run s' bs = some (t, ev₂) ∧
        ev = ev₁ ++ ev₂ := by
  induction as generalizing s ev with
  | nil => simp
  | cons a as ih =>
    rw [List.cons_append, run_cons_eq_some]
    constructor
    · rintro ⟨u, e₁, e₂, hstep, hrest, rfl⟩
      obtain ⟨s', f₁, f₂, has, hbs, rfl⟩ := ih.mp hrest
      exact ⟨s', e₁ ++ f₁, f₂, run_cons_eq_some.mpr ⟨u, e₁, f₁, hstep, has, rfl⟩, hbs,
        (List.append_assoc _ _ _).symm⟩
    · rintro ⟨s', f₁, f₂, has, hbs, rfl⟩
      obtain ⟨u, e₁, e₂, hstep, hrest, rfl⟩ := run_cons_eq_some.mp has
      exact ⟨u, e₁, e₂ ++ f₂, hstep, ih.mpr ⟨s', e₂, f₂, hrest, hbs, rfl⟩, List.append_assoc _ _ _⟩

theorem Reachable.run (hs : T.Reachable s) (hrun : T.run s as = some (t, ev)) : T.Reachable t := by
  induction as generalizing s ev with
  | nil =>
    simp only [run_nil, Option.some.injEq, Prod.mk.injEq] at hrun
    exact hrun.1 ▸ hs
  | cons a as ih =>
    obtain ⟨s', ev₁, ev₂, hstep, hrest, _⟩ := run_cons_eq_some.mp hrun
    exact ih (.step hs hstep) hrest

/-! ### Simulation -/

/-- Every step of `T` is a step of `U` between related states, with the same action and
    events, as long as `U` is in a reachable state. -/
structure Simulation {σ' : Type*} (T : TransitionSystem σ α ε) (U : TransitionSystem σ' α ε)
    (R : σ → σ' → Prop) : Prop where
  init : ∀ s, T.init s → ∃ u, U.init u ∧ R s u
  step : ∀ s u a s' ev, R s u → U.Reachable u → T.step s a = some (s', ev) →
    ∃ u', U.step u a = some (u', ev) ∧ R s' u'

namespace Simulation

variable {σ' : Type*}

theorem reachable (sim : Simulation T U R) (hs : T.Reachable s) : ∃ u, U.Reachable u ∧ R s u := by
  induction hs with
  | init h0 =>
    obtain ⟨u, hu, hr⟩ := sim.init _ h0
    exact ⟨u, .init hu, hr⟩
  | step _ hstep ih =>
    obtain ⟨u, hu, hr⟩ := ih
    obtain ⟨u', hstep', hr'⟩ := sim.step _ _ _ _ _ hr hu hstep
    exact ⟨u', .step hu hstep', hr'⟩

end Simulation

/-- Both have no outcome, or both end in related states with the same events. -/
def Agree (R : σ → σ' → Prop) : Option (σ × List ε) → Option (σ' × List ε) → Prop :=
  Option.Rel fun x y => R x.1 y.1 ∧ x.2 = y.2

/-- Where single steps agree, runs agree. -/
theorem run_agree {U : TransitionSystem σ' α ε} {R : σ → σ' → Prop}
    (h : ∀ s u a, R s u → Agree R (T.step s a) (U.step u a)) (as : List α) :
    ∀ {s u}, R s u → Agree R (T.run s as) (U.run u as) := by
  induction as with
  | nil => exact fun hr => .some ⟨hr, rfl⟩
  | cons a as ih =>
    intro s u hr
    have hstep := h s u a hr
    unfold run
    generalize T.step s a = x at hstep ⊢
    generalize U.step u a = y at hstep ⊢
    cases hstep with
    | none => exact .none
    | @some x y hxy =>
      have hrest := ih hxy.1
      dsimp only
      generalize T.run x.1 as = v at hrest ⊢
      generalize U.run y.1 as = z at hrest ⊢
      cases hrest with
      | none => exact .none
      | some hvz => exact .some ⟨hvz.1, congrArg₂ _ hxy.2 hvz.2⟩

end TransitionSystem
