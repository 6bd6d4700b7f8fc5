/-
  CrashDisk.lean
  ==============
  Disks that can lose power between two writes.

  A disk is a map from addresses to contents, and a program that writes to it issues a
  list of single writes, each of which is atomic.  A crash after `k` of them leaves the
  disk `applyWrites d (ws.take k)`.
-/
import Mathlib.Data.List.Basic

namespace CrashDisk

open Function

variable {α β : Type} [DecidableEq α]

/-- The disk after the listed writes. -/
def applyWrites (d : α → β) (ws : List (α × β)) : α → β :=
  ws.foldl (fun d w => update d w.1 w.2) d

variable {d : α → β} {ws vs : List (α × β)} {a : α} {b : β}

@[simp] theorem applyWrites_nil : applyWrites d [] = d := rfl

@[simp] theorem applyWrites_cons :
    applyWrites d (w :: ws) = applyWrites (update d w.1 w.2) ws := rfl

@[simp] theorem applyWrites_append :
    applyWrites d (ws ++ vs) = applyWrites (applyWrites d ws) vs := List.foldl_append

/-- A predicate that every one of the writes keeps holds after any number of them. -/
theorem applyWrites_take {P : (α → β) → Prop} (h0 : P d)
    (hw : ∀ d, P d → ∀ w ∈ ws, P (update d w.1 w.2)) (k : Nat) :
    P (applyWrites d (ws.take k)) := by
  induction ws generalizing d k with
  | nil => simpa using h0
  | cons w ws ih =>
    cases k with
    | zero => exact h0
    | succ k =>
      exact ih (hw d h0 w (by simp)) (fun d hd v hv => hw d hd v (by simp [hv])) k

theorem applyWrites_all {P : (α → β) → Prop} (h0 : P d)
    (hw : ∀ d, P d → ∀ w ∈ ws, P (update d w.1 w.2)) : P (applyWrites d ws) := by
  have h := applyWrites_take h0 hw ws.length
  rwa [List.take_length] at h

/-- A crash among the writes of `ws ++ vs` is one among those of `ws` or, after all of
    these, one among those of `vs`. -/
theorem applyWrites_take_append {P Q : (α → β) → Prop} {k : Nat}
    (hws : k ≤ ws.length → P (applyWrites d (ws.take k)))
    (hvs : ws.length < k → Q (applyWrites (applyWrites d ws) (vs.take (k - ws.length)))) :
    (k ≤ ws.length → P (applyWrites d ((ws ++ vs).take k))) ∧
      (ws.length < k → Q (applyWrites d ((ws ++ vs).take k))) := by
  constructor
  · intro hk
    rw [List.take_append_of_le_length hk]
    exact hws hk
  · intro hk
    rw [List.take_append, List.take_of_length_le (Nat.le_of_lt hk), applyWrites_append]
    exact hvs hk

theorem applyWrites_of_not_mem (h : ∀ w ∈ ws, w.1 ≠ a) : applyWrites d ws a = d a := by
  apply applyWrites_all (P := fun d' => d' a = d a) rfl
  intro d' hd' w hw
  rw [update_of_ne (h w hw).symm, hd']

/-- An address that is written, always with the same contents, has these contents. -/
theorem applyWrites_of_mem (hmem : ∃ w ∈ ws, w.1 = a) (hval : ∀ w ∈ ws, w.1 = a → w.2 = b) :
    applyWrites d ws a = b := by
  induction ws generalizing d with
  | nil => simp at hmem
  | cons w ws ih =>
    rw [applyWrites_cons]
    by_cases hlater : ∃ v ∈ ws, v.1 = a
    · exact ih hlater fun v hv => hval v (by simp [hv])
    · push Not at hlater
      rw [applyWrites_of_not_mem hlater]
      have hw : w.1 = a := by
        obtain ⟨v, hv, hva⟩ := hmem
        rcases List.mem_cons.mp hv with rfl | hv
        · exact hva
        · exact absurd hva (hlater v hv)
      rw [← hw, update_self]
      exact hval w (by simp) hw

end CrashDisk
