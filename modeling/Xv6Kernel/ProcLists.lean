/-
  ProcLists.lean
  ==============
  Every slot is on the list that its state names.

  `Proc.list` gives the list on which a slot with given fields belongs, and
  `Queues.ListsOk` says that each list consists of exactly the slots that belong on it.
  That covers the whole of the partition: a slot is on one list, on no other, and once.

  Every operation changes the lists by moving single slots, so the invariant is proved
  for the two kinds of move (`ListsOk.shiftHead`, `ListsOk.shiftReady`) and for
  assignments that leave every slot where it belongs (`ListsOk.upd`).
-/
import Xv6Kernel.ProcQueueOps

namespace Xv6Kernel

open Function List Queues

/-- The list on which a slot belongs. -/
def Proc.list (r : Proc) : ListId :=
  match r.state with
  | .unused => .free
  | .embryo => .embryo
  | .sleeping => .sleep
  | .runnable => .ready (readyIx r.prio)
  | .running => .running
  | .zombie => .zombie

/-- A priority that indexes `ready`. -/
def Proc.PrioOk (r : Proc) : Prop := 0 ≤ r.prio ∧ r.prio ≤ MAX

/-- The processes that `setpriority` looks for. -/
def Proc.Active (r : Proc) : Prop :=
  r.state = .runnable ∨ r.state = .running ∨ r.state = .sleeping

instance {r : Proc} : Decidable r.Active := inferInstanceAs (Decidable (_ ∨ _ ∨ _))

theorem readyIx_val {n : Int} (h0 : 0 ≤ n) (h1 : n ≤ MAX) : ((readyIx n : Nat) : Int) = n := by
  simp only [readyIx]
  omega

theorem readyIndex_eq {n : Int} (h0 : 0 ≤ n) (h1 : n ≤ MAX) :
    PTable.readyIndex n = .ok (readyIx n) := by
  unfold PTable.readyIndex
  rw [dif_pos ⟨h0, h1⟩]
  congr 1
  apply Fin.ext
  simp only [readyIx]
  omega

theorem readyIx_natCast (i : Fin (MAX + 1)) : readyIx ((i : Nat) : Int) = i := by
  apply Fin.ext
  simp only [readyIx]
  have := i.isLt
  omega

namespace Proc

variable {r : Proc}

theorem list_eq_free : r.list = .free ↔ r.state = .unused := by
  unfold list; cases r.state <;> simp
theorem list_eq_embryo : r.list = .embryo ↔ r.state = .embryo := by
  unfold list; cases r.state <;> simp
theorem list_eq_sleep : r.list = .sleep ↔ r.state = .sleeping := by
  unfold list; cases r.state <;> simp
theorem list_eq_running : r.list = .running ↔ r.state = .running := by
  unfold list; cases r.state <;> simp
theorem list_eq_zombie : r.list = .zombie ↔ r.state = .zombie := by
  unfold list; cases r.state <;> simp
theorem list_eq_ready {i : Fin (MAX + 1)} :
    r.list = .ready i ↔ r.state = .runnable ∧ readyIx r.prio = i := by
  unfold list; cases r.state <;> simp

/-- Fields that matter for the list a slot is on. -/
theorem list_congr {r' : Proc} (hst : r'.state = r.state)
    (hprio : r.state = .runnable → r'.prio = r.prio) : r'.list = r.list := by
  unfold list
  rw [hst]
  cases h : r.state <;> simp
  rw [hprio h]

end Proc

namespace Queues

structure ListsOk (a : Queues) : Prop where
  mem : ∀ p l, p ∈ a.lists l ↔ (a.proc p).list = l
  nodup : ∀ l, (a.lists l).Nodup
  prio : ∀ p, (a.proc p).state = .runnable → (a.proc p).PrioOk

namespace ListsOk

variable {a : Queues} {p : Slot} {src dst : ListId} {f : Proc → Proc}

theorem mem_ready (ok : a.ListsOk) {i : Fin (MAX + 1)} :
    p ∈ a.lists (.ready i) ↔ (a.proc p).state = .runnable ∧ (a.proc p).prio = (i : Nat) := by
  rw [ok.mem, Proc.list_eq_ready]
  constructor
  · rintro ⟨hst, hi⟩
    refine ⟨hst, ?_⟩
    rw [← hi, readyIx_val (ok.prio p hst).1 (ok.prio p hst).2]
  · rintro ⟨hst, hi⟩
    refine ⟨hst, ?_⟩
    rw [hi, readyIx_natCast]

/-- A slot taken off its list is on none. -/
theorem not_mem_remove (ok : a.ListsOk) (hsrc : (a.proc p).list = src) (l : ListId) :
    p ∉ (a.remove src p).lists l := by
  rw [remove_lists]
  by_cases hl : l = src
  · subst hl
    rw [update_self]
    exact (ok.nodup l).not_mem_erase
  · rw [update_of_ne hl]
    intro hmem
    exact hl (((ok.mem p l).mp hmem).symm.trans hsrc)

theorem mem_remove (ok : a.ListsOk) (hsrc : (a.proc p).list = src) :
    q ∈ (a.remove src p).lists l ↔ q ≠ p ∧ (a.proc q).list = l := by
  rw [remove_lists]
  by_cases hl : l = src
  · subst hl
    rw [update_self, (ok.nodup l).mem_erase_iff, ok.mem]
  · rw [update_of_ne hl, ok.mem]
    constructor
    · intro hq
      refine ⟨?_, hq⟩
      intro hqp
      subst hqp
      exact hl (hq.symm.trans hsrc)
    · exact fun h => h.2

/-- Assignments that leave every slot on its list. -/
theorem upd (ok : a.ListsOk) {g : Table → Table}
    (hst : ∀ q, ((g a.toTable).proc q).state = (a.proc q).state)
    (hprio : ∀ q, (a.proc q).state = .runnable →
      ((g a.toTable).proc q).prio = (a.proc q).prio) : (a.upd g).ListsOk := by
  refine ⟨?_, ok.nodup, ?_⟩
  · intro q l
    rw [upd_lists, ok.mem, upd_toTable, Proc.list_congr (hst q) (hprio q)]
  · intro q hq
    rw [upd_toTable, hst q] at hq
    unfold Proc.PrioOk
    rw [upd_toTable, hprio q hq]
    exact ok.prio q hq

/-- Assignments to one slot that leave it on its list. -/
theorem setProc (ok : a.ListsOk) (hst : (f (a.proc p)).state = (a.proc p).state)
    (hprio : (a.proc p).state = .runnable → (f (a.proc p)).prio = (a.proc p).prio) :
    (a.upd fun t => t.setProc p f).ListsOk := by
  apply ok.upd
  · intro q
    by_cases hq : q = p
    · subst hq; simpa using hst
    · simp [update_of_ne hq]
  · intro q hrun
    by_cases hq : q = p
    · subst hq; simpa using hprio hrun
    · simp [update_of_ne hq]

section

variable (ok : a.ListsOk) (hsrc : (a.proc p).list = src) (hdst : (f (a.proc p)).list = dst)
  (hprio : (f (a.proc p)).state = .runnable → (f (a.proc p)).PrioOk)

include ok hsrc hdst hprio

/-- Taking a slot off its list, changing it, and adding it to the list on which it then
    belongs. -/
theorem shift {b : Queues} (htable : b.toTable = a.toTable.setProc p f)
    (hperm : ∀ l, (b.lists l).Perm
      (if l = dst then p :: (a.remove src p).lists l else (a.remove src p).lists l)) :
    b.ListsOk := by
  have hproc : b.proc = update a.proc p (f (a.proc p)) := by rw [htable]; rfl
  refine ⟨?_, ?_, ?_⟩
  · intro q l
    rw [(hperm l).mem_iff, hproc]
    by_cases hq : q = p
    · subst hq
      rw [update_self, hdst]
      by_cases hl : l = dst
      · simp [hl]
      · rw [if_neg hl]
        exact ⟨fun h => absurd h (ok.not_mem_remove hsrc l), fun h => absurd h.symm hl⟩
    · rw [update_of_ne hq]
      have hiff : q ∈ (a.remove src p).lists l ↔ (a.proc q).list = l := by
        rw [ok.mem_remove hsrc]
        exact ⟨fun h => h.2, fun h => ⟨hq, h⟩⟩
      by_cases hl : l = dst
      · rw [if_pos hl, mem_cons, hiff]
        exact ⟨fun h => h.resolve_left hq, Or.inr⟩
      · rw [if_neg hl, hiff]
  · intro l
    rw [(hperm l).nodup_iff]
    have hnd : ((a.remove src p).lists l).Nodup := by
      rw [remove_lists]
      by_cases hl : l = src
      · subst hl
        rw [update_self]
        exact (ok.nodup l).erase p
      · rw [update_of_ne hl]
        exact ok.nodup l
    by_cases hl : l = dst
    · rw [if_pos hl]
      exact nodup_cons.mpr ⟨ok.not_mem_remove hsrc l, hnd⟩
    · rw [if_neg hl]
      exact hnd
  · intro q hq
    rw [hproc] at hq ⊢
    by_cases hqp : q = p
    · subst hqp
      rw [update_self] at hq ⊢
      exact hprio hq
    · rw [update_of_ne hqp] at hq ⊢
      exact ok.prio q hq

theorem shiftHead : (a.shiftHead p src f dst).ListsOk := by
  apply ok.shift hsrc hdst hprio rfl
  intro l
  by_cases hl : l = dst
  · subst hl
    simp [Queues.shiftHead]
  · simp [Queues.shiftHead, hl]

end

theorem shiftReady (ok : a.ListsOk) (hsrc : (a.proc p).list = src)
    (hdst : (f (a.proc p)).state = .runnable) (hprio : (f (a.proc p)).PrioOk) :
    (a.shiftReady p src f).ListsOk := by
  have hlist : (f (a.proc p)).list = .ready (readyIx (f (a.proc p)).prio) :=
    Proc.list_eq_ready.mpr ⟨hdst, rfl⟩
  apply ok.shift hsrc hlist (fun _ => hprio) rfl
  intro l
  by_cases hl : l = .ready (readyIx (f (a.proc p)).prio)
  · subst hl
    simp [Queues.shiftReady, enqueue, perm_append_singleton]
  · simp [Queues.shiftReady, enqueue, hl]

end ListsOk

end Queues

/-! ### Priorities -/

theorem Proc.budgetupdate_state (now : Uint) (r : Proc) : (r.budgetupdate now).state = r.state := by
  unfold Proc.budgetupdate
  by_cases h : (r.budget - (now - r.cpuTicksIn)).toInt ≤ 0
  · simp only [h, if_true]
  · simp only [h, if_false]

theorem Proc.PrioOk.budgetupdate {r : Proc} (now : Uint) (hr : r.PrioOk) :
    (r.budgetupdate now).PrioOk := by
  obtain ⟨h0, h1⟩ := hr
  unfold Proc.budgetupdate Proc.PrioOk
  by_cases h : (r.budget - (now - r.cpuTicksIn)).toInt ≤ 0
  · simp only [h, if_true]
    by_cases hlt : r.prio < MAX ∧ MAX ≠ 0
    · rw [if_pos hlt]
      omega
    · rw [if_neg hlt]
      exact ⟨h0, h1⟩
  · simp only [h, if_false]
    exact ⟨h0, h1⟩

/-- Priorities of the processes that are not on a ready list but will be. -/
def Table.PrioOk (t : Table) : Prop :=
  ∀ p, (t.proc p).state = .running ∨ (t.proc p).state = .sleeping → (t.proc p).PrioOk

variable {p : Slot} {a : Queues}

theorem Queues.ListsOk.wake (ok : a.ListsOk) (hprio : a.PrioOk)
    (hst : (a.proc p).state = .sleeping) :
    (a.wake p).ListsOk :=
  ok.shiftReady (Proc.list_eq_sleep.mpr hst) rfl (hprio p (Or.inr hst))

/-- A slot that changes without its priority moving out of range keeps the range. -/
theorem Table.PrioOk.setProc {t : Table} {f : Proc → Proc} (hprio : t.PrioOk)
    (hp : (f (t.proc p)).state = .running ∨ (f (t.proc p)).state = .sleeping →
      (f (t.proc p)).PrioOk) : (t.setProc p f).PrioOk := by
  intro q hq
  by_cases hqp : q = p
  · subst hqp
    simp only [Table.setProc_proc, update_self] at hq ⊢
    exact hp hq
  · simp only [Table.setProc_proc, update_of_ne hqp] at hq ⊢
    exact hprio q hq

theorem Queues.wake_prioOk (hprio : a.PrioOk) : (a.wake p).PrioOk := by
  apply Table.PrioOk.setProc (f := fun r => { r with state := .runnable }) hprio
  rintro (h | h) <;> cases h

namespace Queues

open PTable (readyLists)

/-! The loops of `prioadjust`.  That over the sleep or the running list changes no list,
and that over `ready[i]` moves one process to `ready[i-1]`. -/

variable {a : Queues} {l : ListId} {i : Fin (MAX + 1)}

theorem decrementOne_state : ((decrementOne a p).proc q).state = (a.proc q).state := by
  unfold decrementOne
  by_cases h : (a.proc p).prio ≠ 0
  · rw [if_pos h]
    by_cases hq : q = p
    · subst hq; simp
    · simp [hq]
  · rw [if_neg h]

theorem ListsOk.decrementOne (ok : a.ListsOk) (hst : (a.proc p).state ≠ .runnable) :
    (decrementOne a p).ListsOk := by
  unfold Queues.decrementOne
  by_cases h : (a.proc p).prio ≠ 0
  · rw [if_pos h]
    exact ok.setProc rfl fun hrun => absurd hrun hst
  · rw [if_neg h]
    exact ok

theorem ListsOk.decrementPrio (ok : a.ListsOk) (hl : ∀ i, l ≠ .ready i) :
    (a.decrementPrio l).ListsOk := by
  have hrun : ∀ q ∈ a.lists l, (a.proc q).state ≠ .runnable := by
    intro q hq hrun
    have hlist := (ok.mem q l).mp hq
    rw [Proc.list_eq_ready.mpr ⟨hrun, rfl⟩] at hlist
    exact hl _ hlist.symm
  -- the states do not change, so no process of the list becomes runnable on the way
  have hgo : (a.decrementPrio l).ListsOk ∧
      ∀ q, ((a.decrementPrio l).proc q).state = (a.proc q).state := by
    apply List.foldlRecOn
      (motive := fun b : Queues => b.ListsOk ∧ ∀ q, (b.proc q).state = (a.proc q).state)
    · exact ⟨ok, fun _ => rfl⟩
    · rintro b ⟨okb, hb⟩ q hq
      exact ⟨okb.decrementOne (by rw [hb]; exact hrun q hq), fun r => by
        rw [decrementOne_state, hb]⟩
  exact hgo.1

theorem ListsOk.promote (ok : a.ListsOk) (hi : 0 < i) : (a.promote i).ListsOk := by
  unfold Queues.promote
  rcases hready : a.lists (.ready i) with _ | ⟨p, rest⟩
  · exact ok
  · have hp : p ∈ a.lists (.ready i) := by rw [hready]; simp
    obtain ⟨hst, hprio⟩ := ok.mem_ready.mp hp
    apply ok.shiftReady ((ok.mem p _).mp hp) hst
    have hpos : 0 < (i : Nat) := hi
    have hle := (ok.prio p hst).2
    constructor
    · simp only; omega
    · simp only; omega

theorem ListsOk.prioadjust (ok : a.ListsOk) : a.prioadjust.ListsOk := by
  have ok₁ := (ok.decrementPrio (l := .sleep) (by simp)).decrementPrio (l := .running) (by simp)
  have ok₂ : ((List.finRange (MAX + 1)).tail.foldl Queues.promote
      ((a.decrementPrio .sleep).decrementPrio .running)).ListsOk := by
    apply List.foldlRecOn (motive := fun b : Queues => b.ListsOk) _ _ ok₁
    intro b okb i hi
    exact okb.promote (by revert i; decide)
  exact ok₂.upd (fun _ => rfl) fun _ _ => rfl

theorem decrementOne_prioOk (hprio : a.PrioOk) : (decrementOne a p).PrioOk := by
  unfold decrementOne
  by_cases h : (a.proc p).prio ≠ 0
  · rw [if_pos h]
    apply Table.PrioOk.setProc (t := a.toTable) (f := fun r => { r with prio := r.prio - 1 }) hprio
    intro hlive
    obtain ⟨h0, h1⟩ := hprio p hlive
    constructor
    · simp only; omega
    · simp only; omega
  · rw [if_neg h]
    exact hprio

theorem promote_prioOk (ok : a.ListsOk) (hprio : a.PrioOk) : (a.promote i).PrioOk := by
  unfold promote
  rcases hready : a.lists (.ready i) with _ | ⟨p, rest⟩
  · exact hprio
  · have hp : p ∈ a.lists (.ready i) := by rw [hready]; simp
    apply Table.PrioOk.setProc (t := a.toTable) (f := fun r => { r with prio := r.prio - 1 }) hprio
    intro hlive
    simp [(ok.mem_ready.mp hp).1] at hlive

/-- The lists are in order and the priorities are in range. -/
structure Ok (a : Queues) : Prop extends ListsOk a where
  live : a.PrioOk

namespace Ok

variable {a : Queues} {p q : Slot}

theorem wake (ok : a.Ok) (hst : (a.proc p).state = .sleeping) : (a.wake p).Ok :=
  ⟨ok.toListsOk.wake ok.live hst, wake_prioOk ok.live⟩

variable {cpu : Cpu} {f : Proc → Proc}

theorem setProc (ok : a.Ok) (hst : ∀ r, (f r).state = r.state) (hprio : ∀ r, (f r).prio = r.prio) :
    (a.upd fun t => t.setProc p f).Ok := by
  refine ⟨ok.toListsOk.setProc (hst _) fun _ => hprio _, ok.live.setProc ?_⟩
  intro h
  unfold Proc.PrioOk
  rw [hst] at h
  rw [hprio]
  exact ok.live p h

theorem upd (ok : a.Ok) (g : Table → Table) (hproc : (g a.toTable).proc = a.proc) :
    (a.upd g).Ok := by
  refine ⟨ok.toListsOk.upd (fun q => by rw [hproc]) fun q _ => by rw [hproc], ?_⟩
  intro q
  rw [upd_toTable, hproc]
  exact ok.live q

theorem shiftHead (ok : a.Ok) {src dst : ListId} (hsrc : (a.proc p).list = src)
    (hdst : (f (a.proc p)).list = dst) (hready : ∀ i, dst ≠ .ready i)
    (hprio : dst = .running ∨ dst = .sleep → (f (a.proc p)).PrioOk) :
    (a.shiftHead p src f dst).Ok := by
  refine ⟨ok.toListsOk.shiftHead hsrc hdst ?_, ok.live.setProc ?_⟩
  · intro hst
    exact absurd (hdst.symm.trans (Proc.list_eq_ready.mpr ⟨hst, rfl⟩)) (hready _)
  · rintro (h | h)
    · exact hprio (Or.inl (hdst.symm.trans (Proc.list_eq_running.mpr h)))
    · exact hprio (Or.inr (hdst.symm.trans (Proc.list_eq_sleep.mpr h)))

theorem shiftReady (ok : a.Ok) {src : ListId} (hsrc : (a.proc p).list = src)
    (hst : (f (a.proc p)).state = .runnable) (hprio : (f (a.proc p)).PrioOk) :
    (a.shiftReady p src f).Ok :=
  ⟨ok.toListsOk.shiftReady hsrc hst hprio, ok.live.setProc fun _ => hprio⟩

/-- Waking the processes of a list that are asleep on a channel, the others of which are
    on the list no more than once. -/
theorem foldl_wake (chan : Option Chan) : ∀ (rest : List Slot) (a : Queues), a.Ok →
    (∀ p ∈ rest, (a.proc p).state = .sleeping) → rest.Nodup →
    (rest.foldl (fun a p => if (a.proc p).chan = chan then a.wake p else a) a).Ok := by
  intro rest
  induction rest with
  | nil => exact fun a ok _ _ => ok
  | cons p rest ih =>
    intro a ok hst hnd
    obtain ⟨hp, hnd'⟩ := nodup_cons.mp hnd
    rw [foldl_cons]
    by_cases hch : (a.proc p).chan = chan
    · rw [if_pos hch]
      apply ih _ (ok.wake (hst p (by simp))) _ hnd'
      intro q hq
      have hqp : q ≠ p := fun hcon => hp (hcon ▸ hq)
      simpa [Queues.wake, Queues.shiftReady, enqueue, update_of_ne hqp] using hst q (by simp [hq])
    · rw [if_neg hch]
      exact ih a ok (fun q hq => hst q (by simp [hq])) hnd'

section

variable (ok : a.Ok)

include ok

theorem wakeup1 (chan : Option Chan) : (a.wakeup1 chan).Ok := by
  apply foldl_wake chan _ a ok _ (ok.nodup .sleep)
  intro p hp
  exact Proc.list_eq_sleep.mp ((ok.mem p .sleep).mp hp)

theorem reparentOne : (reparentOne p a q).Ok := by
  unfold Queues.reparentOne
  by_cases h : (a.proc q).parent = some p
  · rw [if_pos h]
    exact ok.setProc (fun _ => rfl) fun _ => rfl
  · rw [if_neg h]
    exact ok

theorem reparentList : (reparentList p a l).Ok :=
  List.foldlRecOn _ _ ok fun _ h _ _ => h.reparentOne

theorem reparentZombie : (reparentZombie p a q).Ok := by
  unfold Queues.reparentZombie
  by_cases h : (a.proc q).parent = some p
  · rw [if_pos h]
    apply wakeup1
    exact ok.setProc (fun _ => rfl) fun _ => rfl
  · rw [if_neg h]
    exact ok

theorem reparentZombies : (a.reparentZombies p).Ok :=
  List.foldlRecOn _ _ ok fun _ h _ _ => h.reparentZombie

/-! The other operations. -/

theorem allocproc : a.allocproc.2.Ok := by
  unfold Queues.allocproc
  rcases hfree : a.lists .free with _ | ⟨p, rest⟩
  · exact ok
  · have hp : (a.proc p).list = .free := (ok.mem p .free).mp (by rw [hfree]; simp)
    have ok₁ : (a.shiftHead p .free (fun r => { r with state := .embryo }) .embryo).Ok :=
      ok.shiftHead hp rfl (by simp) (by simp)
    have ok₂ := ok₁.setProc (p := p)
      (f := fun r => { r with pid := a.nextpid }) (fun _ => rfl) fun _ => rfl
    exact ok₂.upd (fun t => { t with nextpid := a.nextpid + 1 }) rfl

variable (hst : (a.proc p).state = .embryo)

include hst

theorem freeEmbryo : (a.freeEmbryo p).Ok :=
  ok.shiftHead (Proc.list_eq_embryo.mpr hst) rfl (by simp) (by simp)

theorem kallocFails : (a.kallocFails p).Ok := by
  have ok₁ : (a.upd fun t => t.setProc p fun r => { r with kstack := none }).Ok :=
    ok.setProc (fun _ => rfl) fun _ => rfl
  exact ok₁.freeEmbryo (by simpa using hst)

theorem copyuvmFails : (a.copyuvmFails p).Ok := by
  have ok₁ : (a.upd fun t => t.setProc p fun r => { r with pgdir := none, kstack := none }).Ok :=
    ok.setProc (fun _ => rfl) fun _ => rfl
  exact ok₁.freeEmbryo (by simpa using hst)

end

/-- The new process goes to `ready[0]` whatever its priority is, so this needs to be 0. -/
theorem forkFinish_eq (hprio : (a.proc p).prio = 0) :
    a.forkFinish p = a.shiftReady p .embryo fun r => { r with state := .runnable } := by
  simp [Queues.forkFinish, Queues.shiftReady, enqueue, hprio, readyIx]

variable (ok : a.Ok)

include ok

theorem forkFinish (hst : (a.proc p).state = .embryo) (hprio : (a.proc p).prio = 0) :
    (a.forkFinish p).Ok := by
  rw [forkFinish_eq hprio]
  exact ok.shiftReady (Proc.list_eq_embryo.mpr hst) rfl (by simp [Proc.PrioOk, hprio, MAX])

theorem leaveCpu : (a.upd (Table.leaveCpu cpu p)).Ok :=
  (ok.setProc (p := p) (f := Proc.schedTicks a.ticks) (fun _ => rfl) fun _ => rfl).upd
    (fun t => (t.setCpu cpu none).setLock none) rfl

theorem sleep {chan : Chan} (hst : (a.proc p).state = .running) : (a.sleep cpu p chan).Ok := by
  have ok₁ : (a.upd fun t => t.setChan p (some chan)).Ok := ok.setProc (fun _ => rfl) fun _ => rfl
  have hst₁ : ((a.upd fun t => t.setChan p (some chan)).proc p).state = .running := by
    simpa using hst
  apply leaveCpu
  apply ok₁.shiftHead (Proc.list_eq_running.mpr hst₁)
  · apply Proc.list_eq_sleep.mpr
    rw [Proc.budgetupdate_state]
  · simp
  · intro _
    exact Proc.PrioOk.budgetupdate _ (ok₁.live p (Or.inl hst₁))

theorem yield (hst : (a.proc p).state = .running) : (a.yield cpu p).Ok := by
  apply leaveCpu
  apply ok.shiftReady (Proc.list_eq_running.mpr hst)
  · rw [Proc.budgetupdate_state]
  · exact Proc.PrioOk.budgetupdate _ (ok.live p (Or.inl hst))

theorem reap (hst : (a.proc q).state = .zombie) : (a.reap q).Ok := by
  have ok₁ : (a.upd fun t => t.setProc q fun r => { r with kstack := none }).Ok :=
    ok.setProc (fun _ => rfl) fun _ => rfl
  have ok₂ : ((a.upd fun t => t.setProc q fun r => { r with kstack := none }).shiftHead q .zombie
      (fun r => { r with state := .unused }) .free).Ok :=
    ok₁.shiftHead (Proc.list_eq_zombie.mpr (by simpa using hst)) rfl (by simp) (by simp)
  exact ok₂.setProc (f := Proc.reapFields) (fun _ => rfl) fun _ => rfl

theorem waitPass (hst : (a.proc p).state = .running) : (a.waitPass cpu p).2.Ok := by
  unfold Queues.waitPass
  cases hfind : (a.lists .zombie).find? (a.isChild p) with
  | some q =>
    apply ok.reap
    exact Proc.list_eq_zombie.mp ((ok.mem q .zombie).mp (mem_of_find?_eq_some hfind))
  | none =>
    by_cases h : (!a.haveKids p || (a.proc p).killed) = true
    · simp only [if_pos h]
      exact ok
    · simp only [if_neg h]
      exact ok.sleep hst

theorem prioadjust : a.prioadjust.Ok := by
  have hdec : ∀ (b : Queues) (l : ListId), b.PrioOk → (b.decrementPrio l).PrioOk := by
    intro b l hb
    apply List.foldlRecOn (motive := fun c : Queues => c.PrioOk) _ _ hb
    exact fun c hc q _ => decrementOne_prioOk hc
  have ok₁ := (ok.toListsOk.decrementPrio (l := .sleep) (by simp)).decrementPrio (l := .running)
    (by simp)
  have hpro : ((List.finRange (MAX + 1)).tail.foldl promote
      ((a.decrementPrio .sleep).decrementPrio .running)).ListsOk ∧
      ((List.finRange (MAX + 1)).tail.foldl promote
        ((a.decrementPrio .sleep).decrementPrio .running)).PrioOk := by
    apply List.foldlRecOn (motive := fun b : Queues => b.ListsOk ∧ b.PrioOk)
    · exact ⟨ok₁, hdec _ _ (hdec _ _ ok.live)⟩
    · rintro b ⟨okb, hb⟩ i hi
      exact ⟨okb.promote (by revert i; decide), promote_prioOk okb hb⟩
  refine ⟨ok.toListsOk.prioadjust, ?_⟩
  intro q
  simp only [Queues.prioadjust, upd_toTable]
  exact hpro.2 q

theorem promoteIfDue : a.promoteIfDue.Ok := by
  unfold Queues.promoteIfDue
  by_cases h : a.promoteAtTime ≤ a.ticks
  · rw [if_pos h]
    exact ok.prioadjust
  · rw [if_neg h]
    exact ok

theorem dispatch (hp : p ∈ a.lists (.ready i)) : (a.dispatch cpu i p).Ok := by
  have hlist := (ok.mem p _).mp hp
  have ok₁ : (a.shiftHead p (.ready i) (fun r => { r with state := .running }) .running).Ok :=
    ok.shiftHead hlist rfl (by simp) fun _ => ok.prio p (Proc.list_eq_ready.mp hlist).1
  have ok₂ := ok₁.setProc (p := p) (f := fun r => { r with cpuTicksIn := a.ticks })
    (fun _ => rfl) fun _ => rfl
  exact ok₂.upd (fun t => (t.setCpu cpu (some p)).setLock (some cpu)) rfl

end Ok

theorem firstReady_mem (h : a.firstReady is = some (i, p)) :
    ∃ rest, a.lists (.ready i) = p :: rest := by
  induction is with
  | nil => simp [firstReady] at h
  | cons j is ih =>
    unfold firstReady at h
    rcases hj : a.lists (.ready j) with _ | ⟨q, rest⟩
    · simp only [hj] at h
      exact ih h
    · simp only [hj, Option.some.injEq, Prod.mk.injEq] at h
      obtain ⟨rfl, rfl⟩ := h
      exact ⟨rest, hj⟩

theorem search_mem (h : a.search hit ls = some (l, p)) : l ∈ ls ∧ p ∈ a.lists l ∧ hit p = true := by
  induction ls with
  | nil => simp [search] at h
  | cons m ls ih =>
    unfold search at h
    cases hm : (a.lists m).find? hit with
    | none =>
      simp only [hm] at h
      obtain ⟨h1, h2⟩ := ih h
      exact ⟨mem_cons_of_mem _ h1, h2⟩
    | some q =>
      simp only [hm, Option.some.injEq, Prod.mk.injEq] at h
      obtain ⟨rfl, rfl⟩ := h
      exact ⟨by simp, mem_of_find?_eq_some hm, find?_some hm⟩

theorem search_none (h : a.search hit ls = none) : ∀ l ∈ ls, ∀ p ∈ a.lists l, hit p = false := by
  induction ls with
  | nil => simp
  | cons m ls ih =>
    unfold search at h
    cases hm : (a.lists m).find? hit with
    | none =>
      simp only [hm] at h
      intro l hl p hp
      rcases mem_cons.mp hl with rfl | hl
      · simpa using find?_eq_none.mp hm p hp
      · exact ih h l hl p hp
    | some q => simp [hm] at h

namespace Ok

variable {a : Queues} {p q : Slot} {l : ListId}

theorem scheduler (ok : a.Ok) : (a.scheduler cpu).2.Ok := by
  unfold Queues.scheduler
  rcases hfirst : a.promoteIfDue.firstReady (List.finRange (MAX + 1)) with _ | ⟨i, p⟩
  · exact ok.promoteIfDue
  · obtain ⟨rest, hrest⟩ := firstReady_mem hfirst
    exact ok.promoteIfDue.dispatch (by rw [hrest]; simp)

theorem setKilled (ok : a.Ok) : (a.upd fun t => t.setKilled p).Ok :=
  ok.setProc (fun _ => rfl) fun _ => rfl

theorem kill (ok : a.Ok) : (a.kill pid).2.Ok := by
  unfold Queues.kill
  rcases hs : a.search (a.hasPid pid) (readyLists ++ [.running, .embryo, .zombie]) with _ | ⟨l, p⟩
  · simp only [hs]
    cases hfind : (a.lists .sleep).find? (a.hasPid pid) with
    | none => exact ok
    | some p =>
      apply ok.setKilled.wake
      have hp := (ok.mem p .sleep).mp (mem_of_find?_eq_some hfind)
      simpa using Proc.list_eq_sleep.mp hp
  · simp only [hs]
    exact ok.setKilled

end Ok

/-- What `setpriority` can return and do. -/
inductive Reprioritises (a : Queues) (pid : Uint) (priority : Int) : Int → Queues → Prop where
  | refused : 0 > priority ∨ MAX < priority → Reprioritises a pid priority (-1) a
  | missed : 0 ≤ priority → priority ≤ MAX → (∀ q, (a.proc q).Active → (a.proc q).pid ≠ pid) →
      Reprioritises a pid priority (-1) a
  | stays {p : Slot} : 0 ≤ priority → priority ≤ MAX → (a.proc p).pid = pid →
      (a.proc p).state = .runnable → (a.proc p).prio = priority → Reprioritises a pid priority 0 a
  | moves {p : Slot} {i : Fin (MAX + 1)} : 0 ≤ priority → priority ≤ MAX → (a.proc p).pid = pid →
      p ∈ a.lists (.ready i) → priority ≠ (i : Nat) →
      Reprioritises a pid priority 0 (a.shiftReady p (.ready i) (PTable.setPrioFields priority))
  | assigned {p : Slot} : 0 ≤ priority → priority ≤ MAX → (a.proc p).pid = pid →
      (a.proc p).state = .running ∨ (a.proc p).state = .sleeping →
      Reprioritises a pid priority 0 (a.upd fun t => t.setProc p (PTable.setPrioFields priority))

theorem hasPid_iff : a.hasPid pid q = true ↔ (a.proc q).pid = pid := by
  simp [hasPid]

theorem ListsOk.reprioritises (ok : a.ListsOk) (pid : Uint) (priority : Int) :
    a.Reprioritises pid priority (a.setpriority pid priority).1 (a.setpriority pid priority).2 := by
  unfold setpriority
  by_cases h : 0 > priority ∨ MAX < priority
  · rw [if_pos h]
    exact .refused h
  · have h0 : 0 ≤ priority := by omega
    have h1 : priority ≤ MAX := by omega
    rw [if_neg h]
    rcases hs : a.search (a.hasPid pid) (readyLists ++ [.running, .sleep]) with _ | ⟨l, p⟩
    · simp only [hs]
      refine .missed h0 h1 fun q hq => ?_
      have hmem : (a.proc q).list ∈ readyLists ++ [.running, .sleep] := by
        rcases hq with hq | hq | hq
        · rw [Proc.list_eq_ready.mpr ⟨hq, rfl⟩]
          exact mem_append_left _ (mem_map_of_mem (mem_finRange _))
        · simp [Proc.list_eq_running.mpr hq]
        · simp [Proc.list_eq_sleep.mpr hq]
      exact of_decide_eq_false (search_none hs _ hmem q ((ok.mem q _).mpr rfl))
    · simp only [hs]
      obtain ⟨hl, hp, hpid⟩ := search_mem hs
      have hlist := (ok.mem p l).mp hp
      rw [hasPid_iff] at hpid
      rcases mem_append.mp hl with hl | hl
      · obtain ⟨i, -, rfl⟩ := mem_map.mp hl
        change a.Reprioritises pid priority 0 (if priority ≠ (i : Nat) then _ else _)
        by_cases hi : priority ≠ (i : Nat)
        · rw [if_pos hi]
          exact .moves h0 h1 hpid hp hi
        · rw [if_neg hi]
          have hready := ok.mem_ready.mp hp
          exact .stays h0 h1 hpid hready.1 (hready.2.trans (not_not.mp hi).symm)
      · simp only [mem_cons, not_mem_nil, or_false] at hl
        rcases hl with rfl | rfl
        · exact .assigned h0 h1 hpid (Or.inl (Proc.list_eq_running.mp hlist))
        · exact .assigned h0 h1 hpid (Or.inr (Proc.list_eq_sleep.mp hlist))

theorem ListsOk.setpriority (ok : a.ListsOk) (pid : Uint) (priority : Int) :
    (a.setpriority pid priority).2.ListsOk := by
  have hdid := ok.reprioritises pid priority
  generalize a.setpriority pid priority = r at hdid
  obtain ⟨rc, b⟩ := r
  cases hdid with
  | moves h0 h1 _ hp =>
    exact ok.shiftReady ((ok.mem _ _).mp hp) (ok.mem_ready.mp hp).1 ⟨h0, h1⟩
  | assigned _ _ _ hst =>
    refine ok.setProc rfl fun hrun => ?_
    rcases hst with hst | hst <;> exact absurd (hst.symm.trans hrun) (by decide)
  | _ => exact ok

theorem Ok.setpriority (ok : a.Ok) {pid : Uint} {priority : Int} :
    (a.setpriority pid priority).2.Ok := by
  refine ⟨ok.toListsOk.setpriority pid priority, ?_⟩
  have hdid := ok.toListsOk.reprioritises pid priority
  generalize a.setpriority pid priority = r at hdid
  obtain ⟨rc, b⟩ := r
  cases hdid with
  | moves h0 h1 => exact ok.live.setProc fun _ => ⟨h0, h1⟩
  | assigned h0 h1 => exact ok.live.setProc fun _ => ⟨h0, h1⟩
  | _ => exact ok.live

/-! Waking processes moves them from the sleep list to the ready lists only. -/

theorem wake_lists (hs : l ≠ .sleep) (hr : ∀ i, l ≠ .ready i) : (a.wake p).lists l = a.lists l := by
  simp [wake, shiftReady, enqueue, update_of_ne hs, update_of_ne (hr _)]

theorem wakeup1_lists (hs : l ≠ .sleep) (hr : ∀ i, l ≠ .ready i) :
    (a.wakeup1 chan).lists l = a.lists l := by
  apply List.foldlRecOn (motive := fun b : Queues => b.lists l = a.lists l) _ _ rfl
  intro b hb p _
  by_cases hch : (b.proc p).chan = chan
  · rw [if_pos hch, wake_lists hs hr, hb]
  · rw [if_neg hch, hb]

end Queues

theorem Queues.reparentZombie_zombies : (a.reparentZombie p q).lists .zombie = a.lists .zombie := by
  unfold reparentZombie
  by_cases h : (a.proc q).parent = some p
  · rw [if_pos h, wakeup1_lists (by simp) (by simp)]
    rfl
  · rw [if_neg h]

end Xv6Kernel
