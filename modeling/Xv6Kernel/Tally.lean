/-
  Tally.lean
  ==========
  How often a function on a finite type takes a value.

  Reference counts are tallies: the slots of a table that hold a given value.  A change of
  one slot changes the tallies of the old value and of the new one by one.
-/
import Mathlib.Data.Fintype.BigOperators

namespace Tally

open Function Finset

variable {ι κ : Type} [Fintype ι] [DecidableEq κ] {g g' : ι → κ} {k v : κ} {x : ι}

def tally (g : ι → κ) (k : κ) : Nat := (Finset.univ.filter fun x => g x = k).card

theorem tally_pos : 0 < tally g k ↔ ∃ x, g x = k := by
  rw [tally, card_pos]
  constructor
  · rintro ⟨x, hx⟩
    exact ⟨x, (mem_filter.mp hx).2⟩
  · rintro ⟨x, hx⟩
    exact ⟨x, mem_filter.mpr ⟨mem_univ x, hx⟩⟩

theorem tally_eq_zero : tally g k = 0 ↔ ∀ x, g x ≠ k := by
  rw [tally, card_eq_zero, filter_eq_empty_iff]
  exact ⟨fun h x => h (mem_univ x), fun h x _ => h x⟩

/-- A table of tables. -/
theorem tally_prod {ι' : Type} [Fintype ι'] (g : ι → ι' → κ) (k : κ) :
    tally (fun x : ι × ι' => g x.1 x.2) k = ∑ i, tally (g i) k := by
  unfold tally
  simp only [card_filter, Fintype.sum_prod_type]

variable [DecidableEq ι]

/-- The tally without slot `x`. -/
theorem tally_eq (g : ι → κ) (x : ι) (k : κ) : tally g k = (if g x = k then 1 else 0) +
      ((Finset.univ.erase x).filter fun y => g y = k).card := by
  unfold tally
  rw [card_filter, card_filter, ← add_sum_erase _ _ (mem_univ x)]

/-- One slot changes. -/
theorem tally_update (g : ι → κ) (x : ι) (v k : κ) :
    tally (update g x v) k + (if g x = k then 1 else 0) = tally g k + if v = k then 1 else 0 := by
  rw [tally_eq (update g x v) x, tally_eq g x, update_self]
  have hrest : ((Finset.univ.erase x).filter fun y => update g x v y = k) =
      (Finset.univ.erase x).filter fun y => g y = k := by
    refine filter_congr fun y hy => ?_
    rw [update_of_ne (ne_of_mem_erase hy)]
  rw [hrest]
  omega

end Tally
