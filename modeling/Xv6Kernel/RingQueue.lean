/-
  RingQueue.lean
  ==============
  Queues in an array, with counters that wrap around.

  `front` counts the elements taken and `back` the elements put in, both modulo `2 ^ w`;
  the element with number `k` is in cell `k % cap`.  The queue holds `back - front` elements,
  and if `cap` divides `2 ^ w` nothing changes when a counter wraps.
-/
import Mathlib.Data.BitVec

structure RingQueue (α : Type) (cap w : Nat) where
  cells : Nat → α
  front : BitVec w
  back : BitVec w

namespace RingQueue

variable {α : Type} {cap w : Nat} (q : RingQueue α cap w)

def count : Nat := (q.back - q.front).toNat

/-- The elements, in the order in which they were put in. -/
def contents : List α := (List.range q.count).map fun k => q.cells ((q.front.toNat + k) % cap)

def push (a : α) : RingQueue α cap w where
  cells := Function.update q.cells (q.back.toNat % cap) a
  front := q.front
  back := q.back + 1

def head : α := q.cells (q.front.toNat % cap)

def pop : RingQueue α cap w := { q with front := q.front + 1 }

theorem length_contents : q.contents.length = q.count := by
  unfold contents
  rw [List.length_map, List.length_range]

theorem count_eq_zero_iff : q.count = 0 ↔ q.front = q.back := by
  unfold count
  constructor
  · intro h
    have hzero : q.back - q.front = 0 := BitVec.eq_of_toNat_eq h
    exact (sub_eq_zero.mp hzero).symm
  · intro h
    rw [h, sub_self]
    rfl

theorem contents_eq_nil_iff : q.contents = [] ↔ q.front = q.back := by
  rw [← List.length_eq_zero_iff, length_contents, count_eq_zero_iff]

variable {q}

theorem back_toNat : q.back.toNat = (q.front.toNat + q.count) % 2 ^ w := by
  unfold count
  rw [BitVec.toNat_sub]
  have hf := q.front.isLt
  have hb := q.back.isLt
  rw [Nat.add_mod_mod, ← Nat.add_assoc, Nat.add_sub_cancel' hf.le, Nat.add_mod_left,
    Nat.mod_eq_of_lt hb]

/-- The queue is full if the counters are `cap` apart. -/
theorem count_eq_cap_iff (hcap : cap < 2 ^ w) :
    q.count = cap ↔ q.back = q.front + BitVec.ofNat w cap := by
  have hof : (BitVec.ofNat w cap).toNat = cap := by
    rw [BitVec.toNat_ofNat, Nat.mod_eq_of_lt hcap]
  constructor
  · intro h
    have hsub : q.back - q.front = BitVec.ofNat w cap := by
      apply BitVec.eq_of_toNat_eq
      rw [hof]
      exact h
    rw [← hsub, add_sub_cancel]
  · intro h
    unfold count
    rw [h, add_sub_cancel_left, hof]

theorem one_toNat (hcap : cap < 2 ^ w) (hpos : 0 < cap) : (1 : BitVec w).toNat = 1 := by
  have hone : (1 : BitVec w) = 1#w := rfl
  rw [hone, BitVec.toNat_ofNat, Nat.mod_eq_of_lt (by omega)]

section

variable {a : α} (hcap : cap < 2 ^ w)
include hcap

theorem count_push (h : q.count < cap) : (q.push a).count = q.count + 1 := by
  have hsub : (q.push a).back - (q.push a).front = (q.back - q.front) + 1 :=
    add_sub_right_comm _ _ _
  unfold count at h ⊢
  rw [hsub, BitVec.toNat_add, one_toNat hcap (by omega), Nat.mod_eq_of_lt (by omega)]

/-- A pushed element comes last; the cell it takes is not one of the elements'. -/
theorem contents_push (hdvd : cap ∣ 2 ^ w) (h : q.count < cap) :
    (q.push a).contents = q.contents ++ [a] := by
  have hback : q.back.toNat % cap = (q.front.toNat + q.count) % cap := by
    rw [back_toNat, Nat.mod_mod_of_dvd _ hdvd]
  unfold contents
  rw [count_push hcap h, List.range_succ, List.map_append, List.map_singleton]
  congr 1
  · refine List.map_congr_left fun k hk => Function.update_of_ne ?_ _ _
    have hlt : k < q.count := List.mem_range.mp hk
    rw [hback]
    intro heq
    -- two numbers less than `cap` apart have different remainders
    have hmod : k % cap = q.count % cap := Nat.ModEq.add_left_cancel' q.front.toNat heq
    rw [Nat.mod_eq_of_lt (by omega), Nat.mod_eq_of_lt h] at hmod
    omega
  · change [(q.push a).cells ((q.front.toNat + q.count) % cap)] = [a]
    rw [← hback]
    exact congrArg (· :: []) (Function.update_self _ _ _)

theorem count_pop (hne : q.front ≠ q.back) (hle : q.count ≤ cap) : q.count = q.pop.count + 1 := by
  have hpos : q.count ≠ 0 := fun h => hne (q.count_eq_zero_iff.mp h)
  have hsub : q.back - q.front = (q.pop.back - q.pop.front) + 1 := by
    change _ = (q.back - (q.front + 1)) + 1
    rw [← sub_sub, sub_add_cancel]
  have hadd : q.count = (q.pop.count + 1) % 2 ^ w := by
    unfold count at hle hpos ⊢
    rw [hsub, BitVec.toNat_add, one_toNat hcap (by omega)]
  have hlt : q.pop.count < 2 ^ w := BitVec.isLt _
  rcases Nat.lt_or_ge (q.pop.count + 1) (2 ^ w) with hb | hb
  · rwa [Nat.mod_eq_of_lt hb] at hadd
  · have hend : q.pop.count + 1 = 2 ^ w := by omega
    rw [hend, Nat.mod_self] at hadd
    exact absurd hadd hpos

theorem contents_pop (hdvd : cap ∣ 2 ^ w) (hne : q.front ≠ q.back) (hle : q.count ≤ cap) :
    q.contents = q.head :: q.pop.contents := by
  have hpos : 0 < cap := by
    have := count_pop hcap hne hle
    omega
  unfold contents
  rw [count_pop hcap hne hle, List.range_succ_eq_map, List.map_cons, List.map_map]
  refine congrArg (_ :: ·) (List.map_congr_left fun k _ => ?_)
  have hfront : (q.front + 1).toNat = (q.front.toNat + 1) % 2 ^ w := by
    rw [BitVec.toNat_add, one_toNat hcap hpos]
  change q.cells ((q.front.toNat + (k + 1)) % cap) = q.cells (((q.front + 1).toNat + k) % cap)
  rw [hfront, Nat.add_mod ((q.front.toNat + 1) % 2 ^ w), Nat.mod_mod_of_dvd _ hdvd, ← Nat.add_mod,
    Nat.add_assoc, Nat.add_comm 1 k]

end

end RingQueue
