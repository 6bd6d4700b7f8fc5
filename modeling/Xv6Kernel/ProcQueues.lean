/-
  ProcQueues.lean
  ===============
  The process table with its state lists as lists.

  `Queues` has the same table as `PTable` but keeps, for each list of
  `ptable.pLists`, the sequence of slots on it instead of a head pointer and `next`
  fields.  `Represents s a` is the representation relation.  The lemmas that follow it
  say that the list helpers of `proc.c` do to the pointers what `erase`, `::` and `++`
  do to the lists; nothing above this module looks at a `next` field again.
-/
import Xv6Kernel.ProcRun

namespace Xv6Kernel

open IntrusiveList Function List PTable

structure Queues extends Table where
  lists : ListId → List Slot
  inserts : Nat
  stamp : Slot → Nat

namespace Queues

/-! ### List operations -/

@[simps -fullyApplied toTable lists inserts stamp]
def upd (a : Queues) (f : Table → Table) : Queues := { a with toTable := f a.toTable }

@[simps -fullyApplied toTable lists inserts stamp]
def remove (a : Queues) (l : ListId) (p : Slot) : Queues :=
  { a with lists := update a.lists l ((a.lists l).erase p) }

@[simps -fullyApplied toTable lists inserts stamp]
def pushHead (a : Queues) (l : ListId) (p : Slot) : Queues :=
  { a with lists := update a.lists l (p :: a.lists l) }

@[simps -fullyApplied toTable lists]
def pushReady (a : Queues) (i : Fin (MAX + 1)) (p : Slot) : Queues :=
  { a with
    lists := update a.lists (.ready i) (a.lists (.ready i) ++ [p])
    inserts := a.inserts + 1
    stamp := update a.stamp p a.inserts }

end Queues

/-! ### The list helpers -/

/-- The step from `s` to `s'` has made `l` the list `ys`; it has assigned the head pointer of `l`
    and `next` fields of the nodes `xs`, and nothing else. -/
structure Relinked (l : ListId) (xs : List Slot) (s : PTable) (ys : List Slot) (s' : PTable) :
    Prop where
  chain : Chain s'.next (s'.pLists l) ys
  heads : ∀ m, m ≠ l → s'.pLists m = s.pLists m
  next : ∀ q, q ∉ xs → s'.next q = s.next q
  rest : { s with next := s'.next, pLists := s'.pLists } = s'

namespace PTable

variable {s : PTable} {l : ListId} {p : Slot} {xs : List Slot}
  (hc : Chain s.next (s.pLists l) xs)

include hc

theorem length_le_of_chain : xs.length ≤ NPROC := by
  simpa using hc.nodup.length_le_card

theorem insertHead_relinked (hp : p ∉ xs) :
    Relinked l (p :: xs) s (p :: xs) (s.insertHead l (some p)).2 := by
  refine ⟨?_, fun m hm => update_of_ne hm .., fun q hq => ?_, rfl⟩
  · simp only [insertHead, setHead, setNext, update_self]
    exact hc.push hp
  · exact update_of_ne (ne_of_not_mem_cons hq) ..

theorem insertTail_relinked (hp : p ∉ xs) : ∃ s', s.insertTail l (some p) = .ok (0, s') ∧
    Relinked l (p :: xs) s (xs ++ [p]) s' := by
  have hlen := length_le_of_chain hc
  unfold insertTail
  rcases eq_nil_or_concat xs with rfl | ⟨ys, t, rfl⟩
  · -- the list is empty
    have hhead : s.pLists l = none := hc
    simp only [hhead]
    refine ⟨_, rfl, ?_, fun m hm => update_of_ne hm .., fun q hq => ?_, rfl⟩
    · simp [setHead, setNext]
    · exact update_of_ne (ne_of_not_mem_cons hq) ..
  · -- `t` is the last node
    rw [concat_eq_append] at hc hp hlen ⊢
    obtain ⟨x, hx⟩ : ∃ x, s.pLists l = some x := by
      cases ys with
      | nil => exact ⟨t, hc.1⟩
      | cons x ys => exact ⟨x, hc.1⟩
    rw [length_append, length_singleton] at hlen
    rw [hx] at hc
    simp only [hx, lastNode_chain hc (Nat.le_of_succ_le hlen)]
    refine ⟨_, rfl, ?_, fun _ _ => rfl, fun q hq => ?_, rfl⟩
    · simp only [setNext, hx, append_assoc, cons_append, nil_append]
      exact hc.snoc hp
    · simp only [mem_cons, mem_append, not_or] at hq
      exact (update_of_ne hq.1 ..).trans (update_of_ne hq.2.2.1 ..)

theorem removeFromStateList_relinked (hp : p ∈ xs) :
    ∃ s', s.removeFromStateList l (some p) = .ok (0, s') ∧
      Relinked l xs s (xs.erase p) s' ∧ s'.next p = none := by
  have hnd := hc.nodup
  have hlen := length_le_of_chain hc
  obtain ⟨l₁, l₂, rfl⟩ := append_of_mem hp
  unfold removeFromStateList
  rcases eq_nil_or_concat l₁ with rfl | ⟨l₀, q, rfl⟩
  · -- `p` is the first node
    have hhead : s.pLists l = some p := hc.1
    simp only [hhead, if_true]
    refine ⟨_, rfl, ⟨?_, fun m hm => update_of_ne hm .., fun r hr => ?_, rfl⟩, update_self ..⟩
    · simp only [nil_append, setNext, setHead, update_self, erase_cons_head]
      exact hc.tail
    · exact update_of_ne (ne_of_not_mem_cons hr) ..
  · -- `p` comes right after `q`
    simp only [concat_eq_append, append_assoc, cons_append, nil_append] at hc hnd hlen ⊢
    simp only [length_append, length_cons] at hlen
    have hp₀ : p ∉ l₀ := fun hcon => (nodup_append.mp hnd).2.2 p hcon p (by simp) rfl
    have hqp : q ≠ p := by
      rintro rfl
      exact (nodup_cons.mp (nodup_append.mp hnd).2.1).1 mem_cons_self
    obtain ⟨x, hx, hxp⟩ : ∃ x, s.pLists l = some x ∧ x ≠ p := by
      cases l₀ with
      | nil => exact ⟨q, hc.1, hqp⟩
      | cons x l₀ => exact ⟨x, hc.1, (ne_of_not_mem_cons hp₀).symm⟩
    rw [hx] at hc
    simp only [hx, if_neg hxp, scanTo_chain hc (show l₀.length + 1 ≤ NPROC by omega)]
    refine ⟨_, rfl, ⟨?_, fun _ _ => rfl, fun r hr => ?_, rfl⟩, update_self ..⟩
    · rw [erase_append_right _ hp₀, erase_cons_tail (by simpa using hqp), erase_cons_head]
      simp only [setNext, hx]
      exact hc.unlink
    · simp only [mem_cons, mem_append, not_or] at hr
      exact (update_of_ne hr.2.2.1 ..).trans (update_of_ne hr.2.1 ..)

/-- On a list that `p` is not on, the removal only returns -1. -/
theorem removeFromStateList_absent (hp : p ∉ xs) :
    s.removeFromStateList l (some p) = .ok (-1, s) := by
  unfold removeFromStateList
  cases xs with
  | nil =>
    have hhead : s.pLists l = none := hc
    rw [hhead]
  | cons x xs =>
    have hhead : s.pLists l = some x := hc.1
    obtain ⟨prev, hscan⟩ : ∃ prev, scanTo s.next p NPROC none (some x) = some (prev, none) :=
      scanTo_absent (hhead ▸ hc) hp (length_le_of_chain hc)
    simp only [hhead, if_neg (ne_of_not_mem_cons hp).symm, hscan]

/-- The helpers do to the list of a head pointer what the list operations do. -/
theorem list_helpers (p : Slot) :
    (p ∉ xs → ∃ s', s.insertHead l (some p) = (0, s') ∧ Relinked l (p :: xs) s (p :: xs) s') ∧
    (p ∉ xs → ∃ s', s.insertTail l (some p) = .ok (0, s') ∧ Relinked l (p :: xs) s (xs ++ [p]) s') ∧
    (p ∈ xs → ∃ s', s.removeFromStateList l (some p) = .ok (0, s') ∧
      Relinked l xs s (xs.erase p) s' ∧ s'.next p = none) ∧
    (p ∉ xs → s.removeFromStateList l (some p) = .ok (-1, s)) :=
  ⟨fun hp => ⟨_, rfl, insertHead_relinked hc hp⟩, insertTail_relinked hc,
    removeFromStateList_relinked hc, removeFromStateList_absent hc⟩

omit hc

/-- Init is the only process of its ready list. -/
theorem list_helpers_booted : ∃ l p, Chain bootedTable.next (bootedTable.pLists l) [p] ∧
    ∃ s', bootedTable.removeFromStateList l (some p) = .ok (0, s') ∧
      Relinked l [p] bootedTable [] s' ∧ s'.next p = none := by
  have hc : Chain bootedTable.next (bootedTable.pLists (.ready 0)) [63] :=
    ⟨by decide +kernel, chain_nil.mpr (by decide +kernel)⟩
  have h := (list_helpers hc 63).2.2.1 mem_cons_self
  exact ⟨_, _, hc, h⟩

end PTable

/-! ### Representation -/

/-- The pointers of `s` denote the lists of `a`, and the rest of the table is the same.
    A slot is on at most one list, since all lists share its `next` field. -/
structure Represents (s : PTable) (a : Queues) : Prop where
  table : s.toTable = a.toTable
  removeMiss : s.removeMiss = false
  inserts : s.inserts = a.inserts
  stamp : s.stamp = a.stamp
  chain : ∀ l, Chain s.next (s.pLists l) (a.lists l)
  disjoint : ∀ l m p, p ∈ a.lists l → p ∈ a.lists m → l = m

namespace Represents

variable {s : PTable} {a : Queues} {l : ListId} {p : Slot}

variable (hr : Represents s a)

include hr

theorem proc : s.proc = a.proc := congrArg Table.proc hr.table

theorem length_le (l : ListId) : (a.lists l).length ≤ NPROC := length_le_of_chain (hr.chain l)

theorem upd (f : Table → Table) : Represents (s.upd f) (a.upd f) :=
  ⟨congrArg f hr.table, hr.removeMiss, hr.inserts, hr.stamp, hr.chain, hr.disjoint⟩

theorem assertState (hst : (a.proc p).state = st) : s.assertState p st = .ok () := by
  unfold PTable.assertState
  rw [hr.proc, if_neg (by simp [hst])]

theorem assertPrio (hn : (a.proc p).prio = n) : s.assertPrio p n = .ok () := by
  unfold PTable.assertPrio
  rw [hr.proc, if_neg (by simp [hn])]

/-- Lists other than the one an operation works on keep their nodes, and these are not
    the nodes whose `next` field it assigns. -/
theorem relinked (h : Relinked l xs s ys s')
    (hxs : ∀ m, m ≠ l → ∀ q ∈ a.lists m, q ∉ xs) (htable : b.toTable = a.toTable)
    (hinserts : b.inserts = a.inserts) (hstamp : b.stamp = a.stamp)
    (hlists : b.lists = update a.lists l ys)
    (hdisj : ∀ m m' q, q ∈ b.lists m → q ∈ b.lists m' → m = m') : Represents s' b := by
  obtain ⟨hchain, hheads, hnext, hrest⟩ := h
  rw [← hrest] at hchain hheads hnext ⊢
  refine ⟨hr.table.trans htable.symm, hr.removeMiss, hr.inserts.trans hinserts.symm,
    hr.stamp.trans hstamp.symm, fun m => ?_, hdisj⟩
  rw [hlists]
  by_cases hm : m = l
  · subst hm
    rw [update_self]
    exact hchain
  · rw [update_of_ne hm, hheads m hm]
    exact (hr.chain m).congr fun q hq => hnext q (hxs m hm q hq)

theorem removeFromStateList (hp : p ∈ a.lists l) :
    ∃ s', s.removeFromStateList l (some p) = .ok (0, s') ∧ Represents s' (a.remove l p) := by
  obtain ⟨s', hrun, h, -⟩ := removeFromStateList_relinked (hr.chain l) hp
  have hsub : ∀ m q, q ∈ (a.remove l p).lists m → q ∈ a.lists m := by
    intro m q hq
    rw [Queues.remove_lists] at hq
    by_cases hl : m = l
    · subst hl
      rw [update_self] at hq
      exact mem_of_mem_erase hq
    · rwa [update_of_ne hl] at hq
  refine ⟨s', hrun, hr.relinked h (fun m hm q hq hql => hm (hr.disjoint m l q hq hql)) rfl rfl rfl
    rfl fun m m' q hq hq' => hr.disjoint m m' q (hsub m q hq) (hsub m' q hq')⟩

theorem remove (hp : p ∈ a.lists l) :
    ∃ s', s.remove l p = .ok s' ∧ Represents s' (a.remove l p) := by
  obtain ⟨s', hrun, hr'⟩ := hr.removeFromStateList hp
  refine ⟨s'.noteRemove 0, ?_, hr'.table, ?_, hr'.inserts, hr'.stamp, hr'.chain, hr'.disjoint⟩
  · simp [PTable.remove, hrun, bind, Except.bind, pure, Except.pure]
  · simpa [noteRemove] using hr'.removeMiss

variable (hp : ∀ l, p ∉ a.lists l)

include hp

theorem not_mem_cons_of_other (m : ListId) (hm : m ≠ l) : ∀ q ∈ a.lists m, q ∉ p :: a.lists l := by
  intro q hq hql
  rcases mem_cons.mp hql with rfl | hql
  · exact hp m hq
  · exact hm (hr.disjoint m l q hq hql)

/-- A slot that is on no list can be put on one without disturbing the others. -/
theorem disjoint_update (hys : ∀ q ∈ ys, q ∈ a.lists l ∨ q = p) :
    ∀ m m' q, q ∈ update a.lists l ys m → q ∈ update a.lists l ys m' → m = m' := by
  have hin : ∀ m q, q ∈ update a.lists l ys m → q ∈ a.lists m ∨ (q = p ∧ m = l) := by
    intro m q hq
    by_cases hm : m = l
    · subst hm
      rw [update_self] at hq
      exact (hys q hq).imp_right fun h => ⟨h, rfl⟩
    · rw [update_of_ne hm] at hq
      exact Or.inl hq
  intro m m' q hq hq'
  rcases hin m q hq with h | ⟨h, hm⟩
  · rcases hin m' q hq' with h' | ⟨h', hm'⟩
    · exact hr.disjoint m m' q h h'
    · exact absurd h (h' ▸ hp m)
  · rcases hin m' q hq' with h' | ⟨h', hm'⟩
    · exact absurd h' (h ▸ hp m')
    · rw [hm, hm']

theorem pushHead : Represents (s.pushHead l p) (a.pushHead l p) := by
  refine hr.relinked (insertHead_relinked (hr.chain l) (hp l)) (hr.not_mem_cons_of_other hp) rfl rfl
    rfl rfl (hr.disjoint_update hp fun q hq => ?_)
  exact (mem_cons.mp hq).symm

theorem insertTail : ∃ s', s.insertTail (.ready i) (some p) = .ok (0, s') ∧
      Represents (s'.noteInsert p) (a.pushReady i p) := by
  obtain ⟨s', hrun, h⟩ := insertTail_relinked (hr.chain (.ready i)) (hp _)
  let b : Queues := { a with
    lists := update a.lists (.ready i) (a.lists (.ready i) ++ [p]) }
  have hb : Represents s' b :=
    hr.relinked h (hr.not_mem_cons_of_other hp) rfl rfl rfl rfl (hr.disjoint_update hp fun q hq =>
      (mem_append.mp hq).imp_right mem_singleton.mp)
  refine ⟨s', hrun, hb.table, hb.removeMiss, congrArg (· + 1) hb.inserts, ?_, hb.chain, hb.disjoint⟩
  change update s'.stamp p s'.inserts = update a.stamp p a.inserts
  rw [hb.stamp, hb.inserts]

theorem pushReady : ∃ s', s.pushReady i p = .ok s' ∧ Represents s' (a.pushReady i p) := by
  obtain ⟨s', hrun, hr'⟩ := hr.insertTail (i := i) hp
  exact ⟨_, by simp [PTable.pushReady, hrun, bind, Except.bind, pure, Except.pure], hr'⟩

end Represents

end Xv6Kernel
