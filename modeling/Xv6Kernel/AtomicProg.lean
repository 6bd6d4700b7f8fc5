/-
  AtomicProg.lean
  ===============
  Programs made of atomic operations, run alone or with others.

  A program is a tree of operations: the value that an operation returns decides how the
  program goes on.  `Sem` gives the operations a meaning on states, where an operation may
  have to wait and may stop the machine with an error.  The same programs run on several
  levels: `Sim` relates two meanings of the operations, and with them all programs.
-/
import Xv6Kernel.PanicMonad
import Xv6Kernel.TransitionSystem

namespace AtomicProg

open PanicMonad

/-! ### Programs -/

inductive Prog (Op : Type → Type) (α : Type) : Type 1 where
  | ret (a : α)
  | op {β : Type} (o : Op β) (k : β → Prog Op α)

variable {Op : Type → Type} {α β ε σ τ : Type}

namespace Prog

def bind : Prog Op α → (α → Prog Op β) → Prog Op β
  | .ret a, f => f a
  | .op o k, f => .op o fun b => bind (k b) f

instance : Monad (Prog Op) where
  pure := .ret
  bind := bind

/-- The program of one operation. -/
def call (o : Op α) : Prog Op α := .op o .ret

@[simp] theorem pure_eq (a : α) : (pure a : Prog Op α) = .ret a := rfl

@[simp] theorem ret_bind (a : α) (f : α → Prog Op β) : (Prog.ret a >>= f) = f a := rfl

@[simp] theorem op_bind (o : Op γ) (k : γ → Prog Op α) (f : α → Prog Op β) :
    (Prog.op o k >>= f) = .op o fun b => k b >>= f := rfl

@[simp] theorem call_bind (o : Op α) (f : α → Prog Op β) : (call o >>= f) = .op o f := rfl

end Prog

/-- A program as a function, for operations that never wait. -/
def Prog.interp (exec : {β : Type} → Op β → EStateM ε σ β) : Prog Op α → EStateM ε σ α
  | .ret a => pure a
  | .op o k => exec o >>= fun b => interp exec (k b)

section

variable {exec : {β : Type} → Op β → EStateM ε σ β}

@[simp] theorem interp_ret (a : α) : Prog.interp exec (.ret a) = pure a := rfl

@[simp] theorem interp_op (o : Op β) (k : β → Prog Op α) :
    Prog.interp exec (.op o k) = exec o >>= fun b => Prog.interp exec (k b) := rfl

@[simp] theorem interp_call (o : Op α) : Prog.interp exec (Prog.call o) = exec o :=
  bind_pure (m := EStateM ε σ) (exec o)

@[simp] theorem interp_bind (p : Prog Op β) (f : β → Prog Op α) :
    Prog.interp exec (p >>= f) = Prog.interp exec p >>= fun b => Prog.interp exec (f b) := by
  induction p with
  | ret a => rw [Prog.ret_bind, interp_ret, pure_bind]
  | op o k ih =>
    simp only [Prog.op_bind, interp_op, bind_assoc]
    exact congrArg _ (funext ih)

@[simp] theorem interp_ite [Decidable c] (p q : Prog Op α) : Prog.interp exec (if c then p else q) =
      if c then Prog.interp exec p else Prog.interp exec q := apply_ite ..

end

/-- What the operations do: whether one can go on, and then its effect. -/
structure Sem (Op : Type → Type) (ε σ : Type) where
  enabled : {β : Type} → Op β → σ → Bool
  exec : {β : Type} → Op β → EStateM ε σ β

/-! ### One program -/

namespace Sem

variable (S : Sem Op ε σ)

/-- The outcome of a program that runs alone; `none` if it waits forever. -/
def run : Prog Op α → σ → Option (EStateM.Result ε σ α)
  | .ret a, s => some (.ok a s)
  | .op o k, s =>
      if S.enabled o s then
        match S.exec o s with
        | .ok b s' => run (k b) s'
        | .error e s' => some (.error e s')
      else none

/-- The program returns in a state that meets `P`, or stops in one that meets `E`, or waits
    forever. -/
def wp : Prog Op α → (α → σ → Prop) → (ε → σ → Prop) → σ → Prop
  | .ret a, P, _, s => P a s
  | .op o k, P, E, s => S.enabled o s = true → PanicMonad.wp (S.exec o) (fun b => wp (k b) P E) E s

variable {S} {s : σ}

@[simp] theorem wp_ret : S.wp (.ret a) P E s ↔ P a s := Iff.rfl

@[simp] theorem wp_op : S.wp (.op o k) P E s ↔
      (S.enabled o s = true → PanicMonad.wp (S.exec o) (fun b => S.wp (k b) P E) E s) := Iff.rfl

@[simp] theorem wp_bind : S.wp (p >>= f) P E s ↔ S.wp p (fun b => S.wp (f b) P E) E s := by
  induction p generalizing s with
  | ret a => rfl
  | op o k ih =>
    simp only [Prog.op_bind, wp_op]
    refine imp_congr_right fun _ => ?_
    unfold PanicMonad.wp
    cases S.exec o s with
    | ok b s' => exact ih b
    | error e s' => rfl

theorem wp_mono (h : S.wp p P E s)
    (hP : ∀ a t, P a t → P' a t) (hE : ∀ e t, E e t → E' e t) : S.wp p P' E' s := by
  induction p generalizing s with
  | ret a => exact hP a s h
  | op o k ih =>
    intro hen
    exact PanicMonad.wp_mono (h hen) (fun b t hb => ih b hb) hE

theorem wp_ite [Decidable c] (hpos : c → S.wp p P E s)
    (hneg : ¬ c → S.wp q P E s) : S.wp (if c then p else q) P E s := by
  by_cases hc : c
  · rw [if_pos hc]
    exact hpos hc
  · rw [if_neg hc]
    exact hneg hc

theorem wp_iff_run : S.wp p P E s ↔ (∀ a t, S.run p s = some (.ok a t) → P a t) ∧
      ∀ e t, S.run p s = some (.error e t) → E e t := by
  induction p generalizing s with
  | ret a => simp [run, wp]
  | op o k ih =>
    unfold run wp PanicMonad.wp
    by_cases hen : S.enabled o s = true
    · simp only [hen, forall_const, if_true]
      cases S.exec o s with
      | ok b s' => exact ih b
      | error e s' => simp
    · simp [hen]

/-! ### Programs one after the other -/

variable {C : Type}

/-- Runs in which one program is started after the other, each when the state allows it.  The
    events are what the programs return. -/
def callSystem (S : Sem Op ε σ) (init : σ → Prop) (allowed : σ → C → Prop)
    [∀ s c, Decidable (allowed s c)] (prog : C → Prog Op α) : TransitionSystem σ C α where
  init := init
  step s c :=
    if allowed s c then
      match S.run (prog c) s with
      | some (.ok a s') => some (s', [a])
      | _ => none
    else none

section

variable {allowed : σ → C → Prop} [∀ s c, Decidable (allowed s c)]

theorem callSystem_step : (S.callSystem init allowed prog).step s c = some (s', ev) ↔
      allowed s c ∧ ∃ a, S.run (prog c) s = some (.ok a s') ∧ ev = [a] := by
  unfold callSystem
  dsimp only
  by_cases hc : allowed s c
  · rw [if_pos hc]
    constructor
    · intro h
      split at h
      · rename_i a t hrun
        cases h
        exact ⟨hc, a, hrun, rfl⟩
      · cases h
    · rintro ⟨-, a, hrun, rfl⟩
      rw [hrun]
  · rw [if_neg hc]
    exact ⟨nofun, fun h => absurd h.1 hc⟩

/-- What each program keeps holds in all runs. -/
theorem callSystem_invariant
    (hs : (S.callSystem init allowed prog).Reachable s) (hinit : ∀ s, init s → I s)
    (hstep : ∀ s c, I s → allowed s c → S.wp (prog c) (fun _ => I) E s) : I s := by
  refine hs.invariant hinit fun s c s' ev hI hc => ?_
  obtain ⟨hallowed, a, hrun, -⟩ := callSystem_step.mp hc
  exact (wp_iff_run.mp (hstep s c hI hallowed)).1 a s' hrun

end

end Sem

/-! ### Two levels -/

/-- The outcome of an operation on the lower level and the one on the upper level.  The
    upper level stops with the error `none` where it says nothing; the lower level may stop
    with an error of `allow` for reasons that the upper level does not know. -/
def OutcomesAgree (R : σ → τ → Prop) (allow : ε → Prop) :
    EStateM.Result ε σ α → EStateM.Result (Option ε) τ α → Prop
  | _, .error none _ => True
  | .ok a s, .ok b t => a = b ∧ R s t
  | .ok _ _, .error (some _) _ => False
  | .error e _, .ok _ _ => allow e
  | .error e _, .error (some f) _ => e = f ∨ allow e

/-- The lower level can be run with the rules of `wp`. -/
theorem OutcomesAgree.of_wp {x : EStateM ε σ α} {r : EStateM.Result (Option ε) τ α} {s : σ}
    (h : PanicMonad.wp x (fun a s' => ∃ t', r = .ok a t' ∧ R s' t')
      (fun e _ => allow e ∨ ∃ t', r = .error (some e) t') s) : OutcomesAgree R allow (x s) r := by
  unfold PanicMonad.wp at h
  cases hx : x s with
  | ok a s' =>
    rw [hx] at h
    obtain ⟨t', rfl, hR⟩ := h
    exact ⟨rfl, hR⟩
  | error e s' =>
    rw [hx] at h
    rcases h with hallow | ⟨t', rfl⟩
    · cases r with
      | ok _ _ => exact hallow
      | error f _ =>
        cases f with
        | none => trivial
        | some f => exact Or.inr hallow
    · exact Or.inl rfl

theorem OutcomesAgree.ite [Decidable c]
    [Decidable c'] {x y : EStateM ε σ α} {x' y' : EStateM (Option ε) τ α} {s : σ} {t : τ}
    (hc : c ↔ c') (hpos : c → OutcomesAgree R allow (x s) (x' t))
    (hneg : ¬ c → OutcomesAgree R allow (y s) (y' t)) :
    OutcomesAgree R allow ((if c then x else y) s) ((if c' then x' else y') t) := by
  by_cases h : c
  · rw [if_pos h, if_pos (hc.mp h)]
    exact hpos h
  · rw [if_neg h, if_neg fun h' => h (hc.mpr h')]
    exact hneg h

/-- It is enough to look at the case in which the upper level says something. -/
theorem OutcomesAgree.guard [Decidable c] (h : c → OutcomesAgree R allow y (x' t)) :
    OutcomesAgree R allow y ((if c then x' else throw none : EStateM (Option ε) τ α) t) := by
  by_cases hc : c
  · rw [if_pos hc]
    exact h hc
  · rw [if_neg hc]
    cases y <;> trivial

theorem OutcomesAgree.unless [Decidable c] (h : ¬ c → OutcomesAgree R allow y (x' t)) :
    OutcomesAgree R allow y ((if c then throw none else x' : EStateM (Option ε) τ α) t) := by
  by_cases hc : c
  · rw [if_pos hc]
    cases y <;> trivial
  · rw [if_neg hc]
    exact h hc

/-- Related states stay related and operations return the same. -/
structure Sim (S : Sem Op ε σ) (T : Sem Op (Option ε) τ) (R : σ → τ → Prop) (allow : ε → Prop) :
    Prop where
  enabled : ∀ {β : Type} (o : Op β) s t, R s t → S.enabled o s = T.enabled o t
  exec : ∀ {β : Type} (o : Op β) s t, R s t → OutcomesAgree R allow (S.exec o s) (T.exec o t)

namespace Sim

/-- What holds of a program on the upper level holds of it on the lower one. -/
theorem wp (sim : Sim S T R allow) (hR : R s t) (h : T.wp p P E t) (htame : ∀ u, ¬ E none u) :
    S.wp p (fun a s' => ∃ t', R s' t' ∧ P a t') (fun e _ => allow e ∨ ∃ t', E (some e) t') s := by
  induction p generalizing s t with
  | ret a => exact ⟨t, hR, h⟩
  | op o k ih =>
    intro hen
    have hup := h (by rw [← sim.enabled o s t hR, hen])
    have hagree := sim.exec o s t hR
    unfold PanicMonad.wp at hup ⊢
    cases ht : T.exec o t with
    | error f t' =>
      rw [ht] at hagree hup
      cases f with
      | none => exact absurd hup (htame t')
      | some f =>
        cases hs : S.exec o s with
        | ok b s' =>
          rw [hs] at hagree
          exact hagree.elim
        | error e s' =>
          rw [hs] at hagree
          rcases hagree with rfl | hallow
          · exact Or.inr ⟨t', hup⟩
          · exact Or.inl hallow
    | ok c t' =>
      rw [ht] at hagree hup
      cases hs : S.exec o s with
      | ok b s' =>
        rw [hs] at hagree
        obtain ⟨rfl, hR'⟩ := hagree
        exact ih b hR' hup
      | error e s' =>
        rw [hs] at hagree
        exact Or.inl hagree

end Sim

end AtomicProg
