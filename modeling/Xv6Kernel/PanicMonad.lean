/-
  PanicMonad.lean
  ===============
  Rules for programs with state that can panic.

  A program is a term of `EStateM ε σ α`: it starts in a state and either returns a value
  or stops with an error, in both cases in some state.  `wp x P E s` says that `x`, started
  in `s`, returns in a state that meets `P` or stops in one that meets `E`.  There is one
  rule for each way of building programs.
-/
import Mathlib.Init

namespace PanicMonad

variable {ε σ α β : Type}

def wp (x : EStateM ε σ α) (P : α → σ → Prop) (E : ε → σ → Prop) (s : σ) : Prop :=
  match x s with
  | .ok a s' => P a s'
  | .error e s' => E e s'

@[simp] theorem wp_pure : wp (pure a : EStateM ε σ α) P E s ↔ P a s := Iff.rfl

@[simp] theorem wp_throw : wp (throw e : EStateM ε σ α) P E s ↔ E e s := Iff.rfl

@[simp] theorem wp_get : wp (get : EStateM ε σ σ) R E s ↔ R s s := Iff.rfl

@[simp] theorem wp_set : wp (set t : EStateM ε σ PUnit) R E s ↔ R ⟨⟩ t := Iff.rfl

@[simp] theorem wp_modify : wp (modify f : EStateM ε σ PUnit) R E s ↔ R ⟨⟩ (f s) := Iff.rfl

@[simp] theorem wp_bind : wp (x >>= f) Q E s ↔ wp x (fun a => wp (f a) Q E) E s := by
  unfold wp
  simp only [bind, EStateM.bind]
  cases x s <;> rfl

theorem get_bind {f : σ → EStateM ε σ α} : (get >>= f) s = f s s := rfl

theorem wp_ite [Decidable c]
    (hpos : c → wp x P E s) (hneg : ¬ c → wp y P E s) : wp (if c then x else y) P E s := by
  by_cases hc : c
  · rw [if_pos hc]
    exact hpos hc
  · rw [if_neg hc]
    exact hneg hc

theorem wp_mono (h : wp x P E s) (hP : ∀ a t, P a t → P' a t) (hE : ∀ e t, E e t → E' e t) :
    wp x P' E' s := by
  unfold wp at h ⊢
  cases hx : x s with
  | ok a t =>
    rw [hx] at h
    exact hP a t h
  | error e t =>
    rw [hx] at h
    exact hE e t h

/-- The rule for a sequence. -/
theorem wp_seq (h : wp x P E s) (hf : ∀ a t, P a t → wp (f a) Q E t) : wp (x >>= f) Q E s :=
  wp_bind.mpr (wp_mono h hf fun _ _ h => h)

theorem wp_of_forall (hP : ∀ a t, P a t) (hE : ∀ e t, E e t) : wp x P E s := by
  unfold wp
  cases x s with
  | ok a t => exact hP a t
  | error e t => exact hE e t

theorem wp_and (h : wp x P E s)
    (h' : wp x P' E' s) : wp x (fun a t => P a t ∧ P' a t) (fun e t => E e t ∧ E' e t) s := by
  unfold wp at h h' ⊢
  cases hx : x s with
  | ok a t =>
    rw [hx] at h h'
    exact ⟨h, h'⟩
  | error e t =>
    rw [hx] at h h'
    exact ⟨h, h'⟩

/-- A program that can only return one value in one state returns it. -/
theorem ok_of_wp (h : wp x (fun b u => b = a ∧ u = t) (fun _ _ => False) s) : x s = .ok a t := by
  unfold wp at h
  cases hx : x s with
  | ok b u =>
    rw [hx] at h
    rw [h.1, h.2]
  | error e u =>
    rw [hx] at h
    exact h.elim

/-- A program that cannot stop with an error returns. -/
theorem exists_ok_of_wp (h : wp x P (fun _ _ => False) s) : ∃ a t, x s = .ok a t ∧ P a t := by
  unfold wp at h
  cases hx : x s with
  | ok a t =>
    rw [hx] at h
    exact ⟨a, t, rfl, h⟩
  | error e t =>
    rw [hx] at h
    exact h.elim

/-- A program that cannot return stops with an error. -/
theorem exists_error_of_wp (h : wp x (fun _ _ => False) E s) : ∃ e t, x s = .error e t ∧ E e t := by
  unfold wp at h
  cases hx : x s with
  | ok a t =>
    rw [hx] at h
    exact h.elim
  | error e t =>
    rw [hx] at h
    exact ⟨e, t, rfl, h⟩

theorem post_of_ok (h : wp x P E s) (hx : x s = .ok a t) : P a t := by
  unfold wp at h
  rwa [hx] at h

theorem wp_of_ok (h : x s = .ok a t) (hP : P a t) : wp x P E s := by
  unfold wp
  rw [h]
  exact hP

/-- The state in which a program stops. -/
def finalState (x : EStateM ε σ α) (s : σ) : σ :=
  match x s with
  | .ok _ s' => s'
  | .error _ s' => s'

/-- A property of the final state can be proved with the rules. -/
theorem finalState_of_wp (h : wp x (fun _ => R) (fun _ => R) s) : R (finalState x s) := by
  unfold wp at h
  unfold finalState
  cases hx : x s with
  | ok a t =>
    rw [hx] at h
    exact h
  | error e t =>
    rw [hx] at h
    exact h

end PanicMonad
