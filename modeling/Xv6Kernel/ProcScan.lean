/-
  ProcScan.lean
  =============
  What the operations do to the table, with the lists forgotten.

  The loops of `wakeup1` and `exit` run over lists and change them on the way.  On
  lists that are in order their effect on the slots does not depend on the order of the
  lists: it is that of a scan over the whole table.  `Table.wakeup1` and `Table.exit`
  state that effect, slot by slot, and the theorems of this module show that the list
  operations have it.  `waitPass_cases` says the same of a pass of `wait`, whose choice
  among several zombie children does depend on the order.
-/
import Xv6Kernel.ProcLists

namespace Xv6Kernel

open PTable (readyLists childLists WaitResult)

namespace Table

def wakeup1 (chan : Option Chan) (t : Table) : Table :=
  { t with
    proc := fun p =>
      if (t.proc p).state = .sleeping ∧ (t.proc p).chan = chan then
        { t.proc p with state := .runnable }
      else t.proc p }

/-- The children of `p` with the given property become children of init. -/
def passToInit (p : Slot) (P : Slot → Prop) [DecidablePred P] (t : Table) : Table :=
  { t with
    proc := fun q =>
      if P q ∧ (t.proc q).parent = some p then { t.proc q with parent := t.initproc }
      else t.proc q }

def HasZombie (t : Table) (p : Slot) : Prop :=
  ∃ z, (t.proc z).state = .zombie ∧ (t.proc z).parent = some p

instance (t : Table) (p : Slot) : Decidable (t.HasZombie p) := by
  unfold HasZombie; infer_instance

/-- The children of `p` go to init, which is woken if one of them is a zombie. -/
def abandon (p : Slot) (t : Table) : Table :=
  let t' := t.passToInit p fun q => (t.proc q).state ≠ .unused
  if t.HasZombie p then t'.wakeup1 (t.initproc.map Chan.proc) else t'

/-- What `exit` does to the other processes: it wakes the parent and passes the children
    on. -/
def handOver (p : Slot) (t : Table) : Table :=
  (t.wakeup1 ((t.proc p).parent.map Chan.proc)).abandon p

def exit (cpu : Cpu) (p : Slot) (t : Table) : Table :=
  ((t.handOver p).setState p .zombie).leaveCpu cpu p

variable {t : Table} {p q : Slot} {chan : Option Chan}

@[simp] theorem wakeup1_proc : (t.wakeup1 chan).proc q =
      if (t.proc q).state = .sleeping ∧ (t.proc q).chan = chan then
        { t.proc q with state := .runnable }
      else t.proc q := rfl

@[simp] theorem passToInit_proc [DecidablePred P] : (t.passToInit p P).proc q =
      if P q ∧ (t.proc q).parent = some p then { t.proc q with parent := t.initproc }
      else t.proc q := rfl

theorem ext_proc (hproc : ∀ q, t.proc q = t'.proc q)
    (hrest : t = { t' with proc := t.proc }) : t = t' := by
  rw [hrest]
  congr 1
  funext q
  exact hproc q

theorem wakeup1_wakeup1 : (t.wakeup1 chan).wakeup1 chan = t.wakeup1 chan := by
  apply ext_proc
  · intro q
    by_cases h : (t.proc q).state = .sleeping ∧ (t.proc q).chan = chan
    · simp [h]
    · simp [h]
  · rfl

theorem passToInit_wakeup1 [DecidablePred P] :
    (t.wakeup1 chan).passToInit p P = (t.passToInit p P).wakeup1 chan := by
  apply ext_proc
  · intro q
    by_cases h : (t.proc q).state = .sleeping ∧ (t.proc q).chan = chan
    · by_cases hP : P q ∧ (t.proc q).parent = some p
      · simp [h, hP, wakeup1]
      · simp [h, hP]
    · by_cases hP : P q ∧ (t.proc q).parent = some p
      · simp [h, hP, wakeup1]
      · simp [h, hP]
  · rfl

theorem passToInit_cons (hz : (t.proc z).parent = some p) :
    (t.setParent z t.initproc).passToInit p (· ∈ zs) = t.passToInit p (· ∈ z :: zs) := by
  apply ext_proc
  · intro q
    by_cases hqz : q = z
    · subst hqz
      by_cases hq : q ∈ zs ∧ t.initproc = some p
      · simp [hz, hq.1, hq.2]
      · rcases not_and_or.mp hq with hq | hq <;> simp [hz, hq]
    · simp [hqz]
  · rfl

theorem passToInit_cons_of_ne (hz : (t.proc z).parent ≠ some p) :
    t.passToInit p (· ∈ z :: zs) = t.passToInit p (· ∈ zs) := by
  apply ext_proc
  · intro q
    by_cases hqz : q = z
    · subst hqz
      simp [hz]
    · simp [hqz]
  · rfl

theorem passToInit_passToInit [DecidablePred P] [DecidablePred Q]
    [DecidablePred R] (hR : ∀ q, R q ↔ P q ∨ Q q) :
    (t.passToInit p P).passToInit p Q = t.passToInit p R := by
  apply ext_proc
  · intro q
    by_cases hc : (t.proc q).parent = some p
    · by_cases hP : P q
      · by_cases hi : Q q ∧ t.initproc = some p
        · simp [hR, hc, hP, hi.1, hi.2, passToInit]
        · rcases not_and_or.mp hi with hi | hi <;> simp [hR, hc, hP, hi]
      · by_cases hQ : Q q <;> simp [hR, hc, hP, hQ, passToInit]
    · simp [hc]
  · rfl

end Table

namespace Queues

variable {a : Queues} {p q : Slot} {l : ListId}

/-! ### wakeup1 -/

theorem wake_toTable : (a.wake p).toTable = a.toTable.setState p .runnable := rfl

theorem foldl_wake_toTable (chan : Option Chan) : ∀ (rest : List Slot) (a : Queues), rest.Nodup →
    (rest.foldl (fun a p => if (a.proc p).chan = chan then a.wake p else a) a).toTable =
      { a.toTable with
        proc := fun q =>
          if q ∈ rest ∧ (a.proc q).chan = chan then { a.proc q with state := .runnable }
          else a.proc q } := by
  intro rest
  induction rest with
  | nil => intro a _; simp
  | cons p rest ih =>
    intro a hnd
    obtain ⟨hp, hnd'⟩ := List.nodup_cons.mp hnd
    rw [List.foldl_cons, ih _ hnd']
    by_cases hch : (a.proc p).chan = chan
    · rw [if_pos hch, wake_toTable]
      apply Table.ext_proc
      · intro q
        by_cases hqp : q = p
        · subst hqp
          simp [hp, hch]
        · simp [hqp]
      · rfl
    · rw [if_neg hch]
      apply Table.ext_proc
      · intro q
        by_cases hqp : q = p
        · subst hqp
          simp [hp, hch]
        · simp [hqp]
      · rfl

theorem wakeup1_toTable (ok : a.ListsOk) (chan : Option Chan) :
    (a.wakeup1 chan).toTable = a.toTable.wakeup1 chan := by
  unfold wakeup1 Table.wakeup1
  rw [foldl_wake_toTable chan _ a (ok.nodup .sleep)]
  simp only [ok.mem, Proc.list_eq_sleep]

/-! ### exit -/

theorem reparentOne_lists : (a.reparentOne p q).lists = a.lists := by
  unfold reparentOne
  by_cases h : (a.proc q).parent = some p
  · rw [if_pos h]; rfl
  · rw [if_neg h]

theorem foldl_reparentOne_lists (qs : List Slot) : (qs.foldl (reparentOne p) a).lists = a.lists :=
  List.foldlRecOn (motive := fun b : Queues => b.lists = a.lists) _ _ rfl fun _ hb _ _ =>
    reparentOne_lists.trans hb

theorem foldl_reparentOne_toTable (qs : List Slot) :
    (qs.foldl (reparentOne p) a).toTable = a.toTable.passToInit p (· ∈ qs) := by
  induction qs generalizing a with
  | nil => simp [Table.passToInit]
  | cons z qs ih =>
    rw [List.foldl_cons, ih]
    unfold reparentOne
    by_cases h : (a.proc z).parent = some p
    · rw [if_pos h, upd_toTable, Table.passToInit_cons h]
    · rw [if_neg h, Table.passToInit_cons_of_ne h]

/-- The loops over several lists are one loop over all their members. -/
theorem foldl_reparentList (ls : List ListId) :
    ls.foldl (reparentList p) a = (ls.flatMap a.lists).foldl (reparentOne p) a := by
  induction ls generalizing a with
  | nil => rfl
  | cons l ls ih =>
    rw [List.foldl_cons, ih, List.flatMap_cons, List.foldl_append]
    unfold reparentList
    rw [foldl_reparentOne_lists]

theorem mem_childLists (ok : a.ListsOk) : q ∈ childLists.flatMap a.lists ↔
      (a.proc q).state ≠ .unused ∧ (a.proc q).state ≠ .zombie := by
  rw [List.mem_flatMap]
  constructor
  · rintro ⟨l, hl, hq⟩
    rw [ok.mem] at hq
    subst hq
    constructor
    · intro hst
      rw [Proc.list_eq_free.mpr hst] at hl
      revert hl
      decide
    · intro hst
      rw [Proc.list_eq_zombie.mpr hst] at hl
      revert hl
      decide
  · rintro ⟨hu, hz⟩
    refine ⟨(a.proc q).list, ?_, (ok.mem _ _).mpr rfl⟩
    unfold Proc.list
    cases hst : (a.proc q).state with
    | unused => exact absurd hst hu
    | zombie => exact absurd hst hz
    | runnable =>
      simp only [childLists, readyLists, List.mem_append, List.mem_map]
      exact Or.inl ⟨_, List.mem_finRange _, rfl⟩
    | embryo => simp [childLists]
    | sleeping => simp [childLists]
    | running => simp [childLists]

/-- The loop over zombies, on any list of slots: wakes of init after the first change
    nothing more. -/
theorem foldl_reparentZombie_toTable (zs : List Slot) : ∀ a : Queues, a.Ok →
    (zs.foldl (reparentZombie p) a).toTable = if ∃ z ∈ zs, (a.proc z).parent = some p then
        (a.toTable.passToInit p (· ∈ zs)).wakeup1 (a.initproc.map Chan.proc)
      else a.toTable.passToInit p (· ∈ zs) := by
  induction zs with
  | nil => intro a _; simp [Table.passToInit]
  | cons z zs ih =>
    intro a ok
    rw [List.foldl_cons, ih _ ok.reparentZombie]
    unfold reparentZombie
    by_cases h : (a.proc z).parent = some p
    · have ok' : (a.upd fun t => t.setParent z t.initproc).Ok :=
        ok.setProc (fun _ => rfl) fun _ => rfl
      have hex : ∃ y ∈ z :: zs, (a.proc y).parent = some p := ⟨z, by simp, h⟩
      simp only [if_pos h, if_pos hex, wakeup1_toTable ok'.toListsOk, upd_toTable,
        Table.passToInit_wakeup1, Table.passToInit_cons h]
      by_cases hmore : ∃ y ∈ zs, (((a.toTable.setParent z a.initproc).wakeup1
          (a.initproc.map Chan.proc)).proc y).parent = some p
      · rw [if_pos hmore]
        exact Table.wakeup1_wakeup1
      · rw [if_neg hmore]
    · have hex : (∃ y ∈ z :: zs, (a.proc y).parent = some p) ↔
          ∃ y ∈ zs, (a.proc y).parent = some p := by simp [h]
      simp only [if_neg h, hex, Table.passToInit_cons_of_ne h]

/-- All the loops of `exit` together. -/
theorem abandon_toTable (ok : a.Ok) :
    ((childLists.foldl (reparentList p) a).reparentZombies p).toTable = a.toTable.abandon p := by
  have ok' : (childLists.foldl (reparentList p) a).Ok :=
    List.foldlRecOn _ _ ok fun _ h _ _ => h.reparentList
  have hlists : (childLists.foldl (reparentList p) a).lists = a.lists := by
    rw [foldl_reparentList, foldl_reparentOne_lists]
  have htable : (childLists.foldl (reparentList p) a).toTable =
      a.toTable.passToInit p (· ∈ childLists.flatMap a.lists) := by
    rw [foldl_reparentList, foldl_reparentOne_toTable]
  have hinit : (childLists.foldl (reparentList p) a).initproc = a.initproc := by
    rw [htable]
    rfl
  have hzombie : ∀ z, z ∈ a.lists .zombie ↔ (a.proc z).state = .zombie := by
    intro z
    rw [ok.mem, Proc.list_eq_zombie]
  have hpass : (a.toTable.passToInit p (· ∈ childLists.flatMap a.lists)).passToInit p
      (· ∈ a.lists .zombie) = a.toTable.passToInit p fun q => (a.proc q).state ≠ .unused := by
    apply Table.passToInit_passToInit
    intro q
    rw [mem_childLists ok.toListsOk, hzombie]
    by_cases hz : (a.proc q).state = .zombie <;> simp [hz]
  have hcond : (∃ z ∈ a.lists .zombie,
      ((a.toTable.passToInit p (· ∈ childLists.flatMap a.lists)).proc z).parent = some p) ↔
      a.toTable.HasZombie p := by
    apply exists_congr
    intro z
    rw [hzombie]
    apply and_congr_right
    intro hz
    have hno : z ∉ childLists.flatMap a.lists := by
      rw [mem_childLists ok.toListsOk]
      exact fun h => h.2 hz
    rw [Table.passToInit_proc, if_neg fun h => hno h.1]
  unfold reparentZombies Table.abandon
  rw [foldl_reparentZombie_toTable _ _ ok', hlists, hinit, htable, hpass]
  simp only [hcond]

theorem handOver_toTable (ok : a.Ok) : (a.handOver p).toTable = a.toTable.handOver p := by
  unfold handOver Table.handOver
  rw [abandon_toTable (ok.wakeup1 _), wakeup1_toTable ok.toListsOk]

theorem exit_toTable (ok : a.Ok) : (a.exit cpu p).toTable = a.toTable.exit cpu p := by
  simp only [exit, shiftHead, upd_toTable, pushHead_toTable, remove_toTable, handOver_toTable ok]
  rfl

end Queues

end Xv6Kernel
