/-
  StateLists.lean
  ===============
  The state-list invariant of the process table.

  `StateListInv s L` says what the pointers of `s` must look like: they are the chains
  of the lists `L`, every slot is on exactly one of these, once, and on the one that its
  fields name.  It holds in every reachable state, so none of the assertions that guard
  the list operations can fail.
-/
import Xv6Kernel.ProcSimulation

namespace Xv6Kernel

open IntrusiveList

/-- The processes that belong on a list. -/
def ListId.Holds (r : Proc) : ListId → Prop
  | .ready i => r.state = .runnable ∧ r.prio = (i : Nat)
  | .free => r.state = .unused
  | .sleep => r.state = .sleeping
  | .zombie => r.state = .zombie
  | .running => r.state = .running
  | .embryo => r.state = .embryo

structure StateListInv (s : PTable) (L : ListId → List Slot) : Prop where
  /-- Following `next` from the head pointer of a list visits its members in order and
      ends at a null pointer. -/
  chain : ∀ l, Chain s.next (s.pLists l) (L l)
  once : ∀ p, ∃ l, (L l).count p = 1 ∧ ∀ m, m ≠ l → p ∉ L m
  named : ∀ p l, p ∈ L l → l.Holds (s.proc p)
  prio : ∀ p, (s.proc p).state = .runnable → 0 ≤ (s.proc p).prio ∧ (s.proc p).prio ≤ MAX
  /-- No call of `removeFromStateList` has missed so far. -/
  noMiss : s.removeMiss = false

/-- The list named by the fields of a slot whose priority is in range. -/
theorem Proc.holds_list {r : Proc} (hprio : r.state = .runnable → r.PrioOk) : r.list.Holds r := by
  unfold Proc.list
  cases hst : r.state with
  | runnable =>
    obtain ⟨h0, h1⟩ := hprio hst
    exact ⟨hst, (readyIx_val h0 h1).symm⟩
  | unused => exact hst
  | embryo => exact hst
  | sleeping => exact hst
  | running => exact hst
  | zombie => exact hst

theorem Represents.stateListInv {a : Queues} (hr : Represents s a) (ok : a.ListsOk) :
    StateListInv s a.lists := by
  refine ⟨hr.chain, ?_, ?_, ?_, hr.removeMiss⟩
  · intro p
    have hmem : p ∈ a.lists (a.proc p).list := (ok.mem p _).mpr rfl
    refine ⟨(a.proc p).list, List.count_eq_one_of_mem (ok.nodup _) hmem, ?_⟩
    intro m hm hp
    exact hm ((ok.mem p m).mp hp).symm
  · intro p l hp
    rw [hr.proc, ← (ok.mem p l).mp hp]
    exact Proc.holds_list (ok.prio p)
  · intro p hp
    rw [hr.proc] at hp ⊢
    exact ok.prio p hp

/-- The lists of `StateListInv` are determined by the pointers, and they are in order. -/
theorem StateListInv.represents (h : StateListInv s L) :
    Represents s ⟨s.toTable, L, s.inserts, s.stamp⟩ ∧
      (⟨s.toTable, L, s.inserts, s.stamp⟩ : Queues).ListsOk := by
  have hunique : ∀ p l m, p ∈ L l → p ∈ L m → l = m := by
    intro p l m hl hm
    obtain ⟨k, -, hk⟩ := h.once p
    by_contra hne
    by_cases hlk : l = k
    · exact hk m (fun hmk => hne (hlk.trans hmk.symm)) hm
    · exact hk l hlk hl
  refine ⟨⟨rfl, h.noMiss, rfl, rfl, h.chain, fun l m p => hunique p l m⟩, ?_, ?_, h.prio⟩
  · intro p l
    obtain ⟨k, hk, -⟩ := h.once p
    have hpk : p ∈ L k := List.count_pos_iff.mp (by omega)
    have hlist : (s.proc p).list = k := by
      have hh := h.named p k hpk
      cases k with
      | ready i =>
        rw [Proc.list_eq_ready]
        exact ⟨hh.1, by rw [hh.2, readyIx_natCast]⟩
      | free => exact Proc.list_eq_free.mpr hh
      | sleep => exact Proc.list_eq_sleep.mpr hh
      | zombie => exact Proc.list_eq_zombie.mpr hh
      | running => exact Proc.list_eq_running.mpr hh
      | embryo => exact Proc.list_eq_embryo.mpr hh
    constructor
    · intro hp
      exact hlist.trans (hunique p k l hpk hp)
    · intro hp
      exact hp ▸ hlist ▸ hpk
  · exact fun l => (h.chain l).nodup

theorem reachable_stateListInv (hs : procSystem.Reachable s) : ∃ L, StateListInv s L := by
  obtain ⟨a, ha, hr⟩ := reachable_represents hs
  exact ⟨a.lists, hr.stateListInv (queueSystem_inv ha).toListsOk⟩

/-- In every reachable state each slot is on exactly one list, once, and on the list that
    its state and priority name; every list ends; `removeFromStateList` has never returned
    -1; and no step fails an assertion: the only panic a step can end in is the one of
    `exit` for init. -/
theorem state_list_invariant (s : PTable) (hs : procSystem.Reachable s) :
    (∃ L, StateListInv s L) ∧ ∀ act e, s.step act = some (.error e) → e = .initExiting := by
  refine ⟨reachable_stateListInv hs, ?_⟩
  intro act e he
  obtain ⟨a, ha, hr⟩ := reachable_represents hs
  have hsim := hr.step (queueSystem_inv ha) act
  rw [he] at hsim
  unfold Simulates at hsim
  rcases hq : a.step act with _ | ⟨a', ev⟩
  · rw [hq] at hsim
    simpa using hsim
  · rw [hq] at hsim
    obtain ⟨s', hs', -⟩ := hsim
    simp at hs'

theorem state_list_invariant_in_fork :
    ∃ L, StateListInv (afterActs [.scheduler 0, .resume 0, .allocproc 0]) L :=
  (state_list_invariant (afterActs [.scheduler 0, .resume 0, .allocproc 0])
    (afterActs_reachable _)).1

end Xv6Kernel
