/-
  Allocation.lean
  ===============
  Places that hold resources of a pool.

  `o x = some b` says that place `x` holds resource `b`.  `Exact used o` says that the
  resources in use are the ones that are held, each by one place.
-/
import Mathlib.Data.Set.Insert

namespace Allocation

open Function

variable {ι β : Type} {o : ι → Option β} {x y : ι} {b : β}

structure Exact (used : Set β) (o : ι → Option β) : Prop where
  mem : ∀ {x b}, o x = some b → b ∈ used
  inj : ∀ {x y b}, o x = some b → o y = some b → x = y
  owned : ∀ {b}, b ∈ used → ∃ x, o x = some b

/-- A free resource is handed to a place that holds none. -/
theorem Exact.take [DecidableEq ι] (h : Exact used o) (hb : b ∉ used) (hx : o x = none) :
    Exact (insert b used) (update o x (some b)) := by
  have hold : ∀ {y c}, update o x (some b) y = some c →
      (y = x ∧ c = b) ∨ (y ≠ x ∧ o y = some c) := by
    intro y c hy
    by_cases hyx : y = x
    · subst hyx
      rw [update_self] at hy
      exact Or.inl ⟨rfl, (Option.some.inj hy).symm⟩
    · rw [update_of_ne hyx] at hy
      exact Or.inr ⟨hyx, hy⟩
  refine ⟨?_, ?_, ?_⟩
  · intro y c hy
    rcases hold hy with ⟨-, rfl⟩ | ⟨-, hy⟩
    · exact Set.mem_insert c used
    · exact Set.mem_insert_of_mem b (h.mem hy)
  · intro y z c hy hz
    rcases hold hy with ⟨hyx, rfl⟩ | ⟨-, hoy⟩ <;> rcases hold hz with ⟨hzx, hcb⟩ | ⟨-, hoz⟩
    · rw [hyx, hzx]
    · exact absurd (h.mem hoz) hb
    · subst hcb
      exact absurd (h.mem hoy) hb
    · exact h.inj hoy hoz
  · intro c hc
    rcases Set.mem_insert_iff.mp hc with rfl | hc
    · exact ⟨x, update_self ..⟩
    · obtain ⟨y, hy⟩ := h.owned hc
      have hyx : y ≠ x := by
        rintro rfl
        rw [hx] at hy
        cases hy
      exact ⟨y, by rw [update_of_ne hyx, hy]⟩

/-- A place gives up the resource that it holds. -/
theorem Exact.release [DecidableEq ι] (h : Exact used o) (hx : o x = some b) :
    Exact (used \ {b}) (update o x none) := by
  have hold : ∀ {y c}, update o x none y = some c → y ≠ x ∧ o y = some c := by
    intro y c hy
    by_cases hyx : y = x
    · subst hyx
      rw [update_self] at hy
      cases hy
    · rw [update_of_ne hyx] at hy
      exact ⟨hyx, hy⟩
  refine ⟨?_, ?_, ?_⟩
  · intro y c hy
    obtain ⟨hne, hy⟩ := hold hy
    refine ⟨h.mem hy, ?_⟩
    rintro rfl
    exact hne (h.inj hy hx)
  · intro y z c hy hz
    exact h.inj (hold hy).2 (hold hz).2
  · rintro c ⟨hc, hcb⟩
    obtain ⟨y, hy⟩ := h.owned hc
    have hyx : y ≠ x := by
      rintro rfl
      rw [hx] at hy
      exact hcb (Option.some.inj hy).symm
    exact ⟨y, by rw [update_of_ne hyx, hy]⟩

/-! ### Several places -/

/-- The places of a list hold nothing. -/
def clear [DecidableEq ι] (o : ι → Option β) (xs : List ι) (x : ι) : Option β :=
  if x ∈ xs then none else o x

section

variable [DecidableEq ι] {xs ys : List ι}

theorem clear_nil : clear o [] = o := by
  funext x
  exact if_neg List.not_mem_nil

theorem clear_of_mem (h : x ∈ xs) : clear o xs x = none := if_pos h

theorem clear_of_notMem (h : x ∉ xs) : clear o xs x = o x := if_neg h

theorem clear_update : clear (update o x none) xs = clear o (x :: xs) := by
  funext y
  unfold clear
  by_cases hy : y ∈ xs
  · rw [if_pos hy, if_pos (List.mem_cons_of_mem x hy)]
  · rw [if_neg hy]
    by_cases hyx : y = x
    · rw [hyx, update_self, if_pos List.mem_cons_self]
    · rw [update_of_ne hyx, if_neg (by simp [hyx, hy])]

theorem clear_cons_of_none (h : o x = none) : clear o (x :: xs) = clear o xs := by
  rw [← clear_update, ← h, update_eq_self]

theorem clear_of_none (h : ∀ x ∈ xs, o x = none) : clear o xs = o := by
  funext y
  by_cases hy : y ∈ xs
  · rw [clear_of_mem hy, h y hy]
  · rw [clear_of_notMem hy]

theorem clear_clear : clear (clear o xs) ys = clear o (xs ++ ys) := by
  funext y
  unfold clear
  by_cases hys : y ∈ ys
  · rw [if_pos hys, if_pos (List.mem_append_right xs hys)]
  · rw [if_neg hys]
    by_cases hxs : y ∈ xs
    · rw [if_pos hxs, if_pos (List.mem_append_left ys hxs)]
    · rw [if_neg hxs, if_neg (by simp [hxs, hys])]

end

end Allocation
