/-
  StateView.lean
  ==============
  Programs on a part of the state.

  `zoom` runs a program on a view of the state and puts the result back.  `Follows` says that a
  program on a state does to a view of it exactly what a program on the view does; what is
  proved of the second then holds of the first.
-/
import Xv6Kernel.PanicMonad

namespace PanicMonad

variable {ε σ τ α β γ δ : Type}

/-- A program on a view of the state. -/
def zoom (view : σ → τ) (put : τ → σ → σ) (x : EStateM ε τ α) : EStateM ε σ α := fun s =>
  match x (view s) with
  | .ok a t => .ok a (put t s)
  | .error e t => .error e (put t s)

section

variable {view : σ → τ}

@[simp] theorem wp_zoom : wp (zoom view put x) P E s ↔
      wp x (fun a t => P a (put t s)) (fun e t => E e (put t s)) (view s) := by
  unfold wp zoom
  cases x (view s) <;> rfl

end

/-- `x` does what `y` does on the view, as long as the states meet `I`; `f` is applied to the
    results. -/
def Follows (view : σ → τ) (I : σ → Prop) (f : α → β) (x : EStateM ε σ α) (y : EStateM ε τ β) :
    Prop :=
  ∀ s, I s →
    wp x (fun a s' => y (view s) = .ok (f a) (view s') ∧ I s')
      (fun e s' => y (view s) = .error e (view s')) s

namespace Follows

/-- What holds of the program on the view holds of the other one. -/
theorem wp_view (h : Follows view I f x y) (hI : I s) (hy : wp y P E (view s)) :
    wp x (fun a s' => P (f a) (view s') ∧ I s') (fun e s' => E e (view s')) s := by
  refine wp_mono (h s hI) (fun a s' ha => ?_) fun e s' he => ?_
  · unfold wp at hy
    rw [ha.1] at hy
    exact ⟨hy, ha.2⟩
  · unfold wp at hy
    rw [he] at hy
    exact hy

theorem pure (hf : f a = b) : Follows view I f (Pure.pure a : EStateM ε σ α) (Pure.pure b) := by
  intro s hI
  rw [wp_pure, hf]
  exact ⟨rfl, hI⟩

theorem throw : Follows view I f (throw e : EStateM ε σ α) (throw e) := fun _ _ => rfl

theorem bind (h : Follows view I f x y)
    (hk : ∀ a, Follows view I g (k a) (l (f a))) : Follows view I g (x >>= k) (y >>= l) := by
  intro s hI
  rw [wp_bind]
  refine wp_mono (h s hI) (fun a s' ha => ?_) fun e s' he => ?_
  · have hrun : (y >>= l) (view s) = l (f a) (view s') := by
      change EStateM.bind y l (view s) = _
      unfold EStateM.bind
      rw [ha.1]
    rw [hrun]
    exact hk a s' ha.2
  · change EStateM.bind y l (view s) = _
    unfold EStateM.bind
    rw [he]

theorem ite [Decidable c] (hpos : c → Follows view I f x y) (hneg : ¬ c → Follows view I f x' y') :
    Follows view I f (if c then x else x') (if c then y else y') := by
  by_cases hc : c
  · rw [if_pos hc, if_pos hc]
    exact hpos hc
  · rw [if_neg hc, if_neg hc]
    exact hneg hc

theorem of_zoom (hview : ∀ t s, view (put t s) = t)
    (hI : ∀ t s, I s → I (put t s)) : Follows view I (fun a => a) (zoom view put z) z := by
  intro s hs
  rw [wp_zoom]
  unfold wp
  cases z (view s) with
  | ok a t =>
    dsimp only
    rw [hview]
    exact ⟨rfl, hI t s hs⟩
  | error e t =>
    dsimp only
    rw [hview]

/-- A step that the view does not show. -/
theorem hidden (hview : ∀ s, view (m s) = view s)
    (hI : ∀ s, I s → I (m s)) (hk : Follows view I f (k ⟨⟩) y) :
    Follows view I f (modify m >>= k) y := by
  intro s hs
  rw [wp_bind, wp_modify, ← hview]
  exact hk (m s) (hI s hs)

end Follows

end PanicMonad
