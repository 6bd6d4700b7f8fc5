/-
  Threads.lean
  ============
  Programs of atomic operations that run at the same time.

  A pool has one state and, for each thread, the rest of the program that it is running, if it
  is running one.  Any thread may take the next step.  With each thread goes a record of what
  its program has done so far.

  A `Discipline` says which operations a thread with a given record may execute, and what it may
  expect of them whatever the other threads do.  `Discipline.wp` checks a program against it,
  thread by thread; `Workers.sound` says that this is enough if there is an invariant of the
  state and all records under which the operations behave as the discipline says.
-/
import Xv6Kernel.AtomicProg

namespace AtomicProg

open Function

variable {I : Type} {Op : Type → Type} {α β ε σ Λ C : Type}

/-! ### Pools -/

structure Pool (I : Type) (Op : Type → Type) (σ Λ α : Type) where
  state : σ
  thread : I → Option (Prog Op α)
  record : I → Λ

inductive PoolAct (I C : Type) where
  /-- The thread starts the program of a call. -/
  | start (i : I) (c : C)
  /-- It executes its next operation. -/
  | step (i : I)
  /-- Its program has ended. -/
  | finish (i : I)

structure Workers (I : Type) (Op : Type → Type) (ε σ Λ C α : Type) where
  sem : Sem Op ε σ
  init : σ → Prop
  allowed : σ → I → C → Bool
  prog : I → C → Prog Op α
  /-- The record of a thread that is not running a program, and of one that starts. -/
  blank : Λ
  opening : Λ
  /-- The record after an operation that was executed in a state and returned a value. -/
  note : I → {β : Type} → Op β → σ → β → Λ → Λ

namespace Workers

variable [DecidableEq I] (W : Workers I Op ε σ Λ C α)

/-- The pool after one operation of a thread. -/
def stepThread (p : Pool I Op σ Λ α) (i : I) : Prog Op α → Option (Pool I Op σ Λ α)
  | .ret _ => none
  | .op o k =>
      if W.sem.enabled o p.state then
        match W.sem.exec o p.state with
        | .ok b s => some
            { state := s
              thread := update p.thread i (some (k b))
              record := update p.record i (W.note i o p.state b (p.record i)) }
        | .error _ _ => none
      else none

/-- The pool after the end of a thread's program. -/
def finishThread (p : Pool I Op σ Λ α) (i : I) : Prog Op α → Option (Pool I Op σ Λ α × List α)
  | .ret a => some
      ({ p with
          thread := update p.thread i none
          record := update p.record i W.blank }, [a])
  | .op _ _ => none

/-- Runs of a pool.  The events are what the programs return; an error stops the machine. -/
def system : TransitionSystem (Pool I Op σ Λ α) (PoolAct I C) α where
  init p := W.init p.state ∧ (∀ i, p.thread i = none) ∧ ∀ i, p.record i = W.blank
  step p
    | .start i c =>
        match p.thread i with
        | some _ => none
        | none =>
            if W.allowed p.state i c then
              some
                ({ p with
                    thread := update p.thread i (some (W.prog i c))
                    record := update p.record i W.opening }, [])
            else none
    | .step i =>
        match p.thread i with
        | none => none
        | some q => (W.stepThread p i q).map (·, [])
    | .finish i =>
        match p.thread i with
        | none => none
        | some q => W.finishThread p i q

/-- The next operation of a thread is `o` and stops the machine. -/
def Panics (p : Pool I Op σ Λ α) (o : Op β) : Prop :=
  ∃ i, ∃ (k : β → Prog Op α) (e : ε) (s : σ), p.thread i = some (.op o k) ∧
    W.sem.enabled o p.state = true ∧ W.sem.exec o p.state = .error e s

end Workers

/-! ### One thread among others -/

/-- What the threads may do, and what the operations do to their records. -/
structure Discipline (I : Type) (Op : Type → Type) (Λ : Type) where
  may : I → {β : Type} → Op β → Λ → Prop
  does : I → {β : Type} → Op β → Λ → β → Λ → Prop

namespace Discipline

variable (D : Discipline I Op Λ) (i : I)

/-- The program keeps to the discipline and ends with a value and a record that meet `Q`. -/
def wp : Prog Op α → (α → Λ → Prop) → Λ → Prop
  | .ret a, Q, l => Q a l
  | .op o k, Q, l => D.may i o l ∧ ∀ b l', D.does i o l b l' → wp (k b) Q l'

variable {D i}

@[simp] theorem wp_ret : D.wp i (.ret a) Q l ↔ Q a l := Iff.rfl

@[simp] theorem wp_op :
    D.wp i (.op o k) Q l ↔ D.may i o l ∧ ∀ b l', D.does i o l b l' → D.wp i (k b) Q l' := Iff.rfl

@[simp] theorem wp_bind : D.wp i (p >>= f) Q l ↔ D.wp i p (fun b => D.wp i (f b) Q) l := by
  induction p generalizing l with
  | ret a => rfl
  | op o k ih =>
    simp only [Prog.op_bind, wp_op]
    exact and_congr_right fun _ => forall₂_congr fun b l' => imp_congr_right fun _ => ih b

theorem wp_mono (h : D.wp i p Q l) (hQ : ∀ a l', Q a l' → Q' a l') : D.wp i p Q' l := by
  induction p generalizing l with
  | ret a => exact hQ a l h
  | op o k ih => exact ⟨h.1, fun b l' hb => ih b (h.2 b l' hb)⟩

theorem wp_ite [Decidable c] (hpos : c → D.wp i p Q l)
    (hneg : ¬ c → D.wp i q Q l) : D.wp i (if c then p else q) Q l := by
  by_cases hc : c
  · rw [if_pos hc]
    exact hpos hc
  · rw [if_neg hc]
    exact hneg hc

end Discipline

/-! ### All threads -/

namespace Workers

variable [DecidableEq I] {W : Workers I Op ε σ Λ C α} {D : Discipline I Op Λ}
  {J : σ → (I → Λ) → Prop} {Done : I → Λ → Prop}

/-- An invariant of the state and the records under which the operations behave as the
    discipline says; those of `safe` do not stop the machine. -/
structure Keeps (W : Workers I Op ε σ Λ C α) (D : Discipline I Op Λ)
    (J : σ → (I → Λ) → Prop) (Done : I → Λ → Prop) (safe : {β : Type} → Op β → Prop) : Prop where
  init : ∀ s, W.init s → J s fun _ => W.blank
  start : ∀ s r i c, J s r → r i = W.blank → W.allowed s i c = true →
    J s (update r i W.opening) ∧ D.wp i (W.prog i c) (fun _ => Done i) W.opening
  step : ∀ s r i {β : Type} (o : Op β), J s r → D.may i o (r i) → W.sem.enabled o s = true →
    PanicMonad.wp (W.sem.exec o)
      (fun b s' => D.does i o (r i) b (W.note i o s b (r i)) ∧
        J s' (update r i (W.note i o s b (r i))))
      (fun _ _ => ¬ safe o) s
  finish : ∀ s r i, J s r → Done i (r i) → J s (update r i W.blank)

/-- What a thread has still to do keeps to the discipline. -/
def Fits (W : Workers I Op ε σ Λ C α) (D : Discipline I Op Λ) (Done : I → Λ → Prop)
    (p : Pool I Op σ Λ α) (i : I) : Prop :=
  match p.thread i with
  | none => p.record i = W.blank
  | some q => D.wp i q (fun _ => Done i) (p.record i)

theorem fits_update_of_ne (hne : j ≠ i) (h : W.Fits D Done p j) :
    W.Fits D Done ⟨s, update p.thread i q, update p.record i l⟩ j := by
  unfold Fits at h ⊢
  simp only [update_of_ne hne]
  exact h

theorem Keeps.stepThread (h : W.Keeps D J Done safe) (hthread : p.thread i = some q)
    (hJ : J p.state p.record)
    (hfits : ∀ j, W.Fits D Done p j) (hstep : W.stepThread p i q = some p') :
    J p'.state p'.record ∧ ∀ j, W.Fits D Done p' j := by
  cases q with
  | ret a => cases hstep
  | op o k =>
    have hwp : D.wp i (.op o k) (fun _ => Done i) (p.record i) := by
      have hi := hfits i
      unfold Fits at hi
      rw [hthread] at hi
      exact hi
    unfold Workers.stepThread at hstep
    dsimp only at hstep
    split at hstep
    · rename_i hen
      have hop := h.step p.state p.record i o hJ hwp.1 hen
      unfold PanicMonad.wp at hop
      split at hstep
      · rename_i b s' hexec
        rw [hexec] at hop
        cases hstep
        refine ⟨hop.2, fun j => ?_⟩
        by_cases hj : j = i
        · subst hj
          unfold Fits
          simp only [update_self]
          exact hwp.2 b _ hop.1
        · exact fits_update_of_ne hj (hfits j)
      · cases hstep
    · cases hstep

/-- The invariant holds in all runs, and all threads keep to the discipline. -/
theorem Keeps.sound (h : W.Keeps D J Done safe)
    (hp : W.system.Reachable p) : J p.state p.record ∧ ∀ i, W.Fits D Done p i := by
  refine hp.invariant (P := fun p => J p.state p.record ∧ ∀ i, W.Fits D Done p i) ?_ ?_
  · rintro p ⟨hinit, hthread, hrecord⟩
    have hblank : p.record = fun _ => W.blank := funext hrecord
    refine ⟨by rw [hblank]; exact h.init _ hinit, fun i => ?_⟩
    unfold Fits
    rw [hthread i]
    exact hrecord i
  · rintro p a p' ev ⟨hJ, hfits⟩ hstep
    cases a with
    | start i c =>
      unfold system at hstep
      dsimp only at hstep
      have hi := hfits i
      unfold Fits at hi
      split at hstep
      · cases hstep
      · rename_i hthread
        rw [hthread] at hi
        split at hstep
        · rename_i hallowed
          cases hstep
          obtain ⟨hJ', hwp⟩ := h.start p.state p.record i c hJ hi hallowed
          refine ⟨hJ', fun j => ?_⟩
          by_cases hj : j = i
          · subst hj
            unfold Fits
            simp only [update_self]
            exact hwp
          · exact fits_update_of_ne hj (hfits j)
        · cases hstep
    | step i =>
      unfold system at hstep
      dsimp only at hstep
      split at hstep
      · cases hstep
      · rename_i q hthread
        obtain ⟨p'', hp'', heq⟩ := Option.map_eq_some_iff.mp hstep
        cases heq
        exact h.stepThread hthread hJ hfits hp''
    | finish i =>
      unfold system at hstep
      dsimp only at hstep
      split at hstep
      · cases hstep
      · rename_i q hthread
        have hi := hfits i
        unfold Fits at hi
        rw [hthread] at hi
        cases q with
        | op o k => cases hstep
        | ret a =>
          cases hstep
          refine ⟨h.finish _ _ i hJ hi, fun j => ?_⟩
          by_cases hj : j = i
          · subst hj
            unfold Fits
            simp only [update_self]
          · exact fits_update_of_ne hj (hfits j)

/-- No run stops at an operation of `safe`. -/
theorem Keeps.not_panics (h : W.Keeps D J Done safe) (hp : W.system.Reachable p) (ho : safe o) :
    ¬ W.Panics p o := by
  rintro ⟨i, k, e, s, hthread, hen, hexec⟩
  obtain ⟨hJ, hfits⟩ := h.sound hp
  have hi := hfits i
  unfold Fits at hi
  rw [hthread] at hi
  have hop := h.step p.state p.record i o hJ hi.1 hen
  unfold PanicMonad.wp at hop
  rw [hexec] at hop
  exact hop ho

end Workers

end AtomicProg
