/-
  ReadyOrder.lean
  ===============
  The order of the ready lists.

  Every insertion into a ready list is at its tail and gets a number, the `stamp` of the
  process.  The operations are sequences of moves between lists (`Queues.Moves`), and
  moves keep each ready list sorted by stamp.  The scheduler takes the first process of
  the first ready list that is not empty, so a process cannot be dispatched while one
  that was inserted into the same list before it is still there.
-/
import Xv6Kernel.ProcSimulation

namespace Xv6Kernel

open Function List

open PTable (readyLists childLists)

def ListId.NotReady : ListId → Prop
  | .ready _ => False
  | _ => True

theorem ListId.NotReady.ready_ne {l : ListId} (h : l.NotReady) (i : Fin (MAX + 1)) :
    .ready i ≠ l := by
  rintro rfl
  exact h

/-- The actions that can take a process off a ready list. -/
def Act.Requeues : Act → Prop
  | .scheduler _ => True
  | .setpriority _ _ _ => True
  | _ => False

namespace Queues

/-- Sequences of moves of slots from lists in `S` to other lists. -/
inductive Moves (S : ListId → Prop) : Queues → Queues → Prop where
  | same {a b : Queues} : b.lists = a.lists → b.inserts = a.inserts → b.stamp = a.stamp →
      Moves S a b
  | shiftHead {a : Queues} {p : Slot} {src dst : ListId} {f : Proc → Proc} : S src →
      dst.NotReady → Moves S a (a.shiftHead p src f dst)
  | shiftReady {a : Queues} {p : Slot} {src : ListId} {f : Proc → Proc} : S src →
      (∀ l, p ∉ (a.remove src p).lists l) → Moves S a (a.shiftReady p src f)
  | trans {a b c : Queues} : Moves S a b → Moves S b c → Moves S a c

/-- Ready lists are sorted by the time of insertion. -/
structure InOrder (a : Queues) : Prop where
  sorted : ∀ i, (a.lists (.ready i)).Pairwise fun p q => a.stamp p < a.stamp q
  past : ∀ i, ∀ p ∈ a.lists (.ready i), a.stamp p < a.inserts

/-- A slot is on no other ready list than before unless it was inserted since. -/
structure Later (a b : Queues) : Prop where
  inserts : a.inserts ≤ b.inserts
  stamp : ∀ q, (b.stamp q = a.stamp q ∧ ∀ i, q ∈ b.lists (.ready i) → q ∈ a.lists (.ready i)) ∨
    a.inserts ≤ b.stamp q

/-- The processes on ready lists stay where they are. -/
def Undisturbed (a b : Queues) : Prop :=
  ∀ q i, q ∈ a.lists (.ready i) → q ∈ b.lists (.ready i) ∧ b.stamp q = a.stamp q

variable {a b : Queues} {q : Slot}

/-! ### Moves -/

theorem mem_remove_of (h : q ∈ (a.remove src p).lists l) : q ∈ a.lists l := by
  rw [remove_lists] at h
  by_cases hl : l = src
  · subst hl
    rw [update_self] at h
    exact mem_of_mem_erase h
  · rwa [update_of_ne hl] at h

theorem remove_sublist (l : ListId) : ((a.remove src p).lists l).Sublist (a.lists l) := by
  rw [remove_lists]
  by_cases hl : l = src
  · subst hl
    rw [update_self]
    exact erase_sublist
  · rw [update_of_ne hl]

theorem shiftHead_ready (hdst : dst.NotReady) (i : Fin (MAX + 1)) :
    (a.shiftHead p src f dst).lists (.ready i) = (a.remove src p).lists (.ready i) := by
  simp [shiftHead, update_of_ne (hdst.ready_ne i)]

theorem shiftReady_ready (i : Fin (MAX + 1)) :
    (a.shiftReady p src f).lists (.ready i) = (a.remove src p).lists (.ready i) ++
      if i = readyIx (f (a.proc p)).prio then [p] else [] := by
  by_cases hi : i = readyIx (f (a.proc p)).prio
  · subst hi
    simp [shiftReady, enqueue]
  · simp [shiftReady, enqueue, hi]

theorem shiftReady_stamp (hq : q ≠ p) : (a.shiftReady p src f).stamp q = a.stamp q := by
  simp [shiftReady, enqueue, pushReady, hq]

theorem shiftReady_stamp_self : (a.shiftReady p src f).stamp p = a.inserts := by
  simp [shiftReady, enqueue, pushReady]

theorem shiftReady_inserts : (a.shiftReady p src f).inserts = a.inserts + 1 := rfl

namespace Later

theorem trans (h : a.Later b) (h' : b.Later c) : a.Later c := by
  refine ⟨h.inserts.trans h'.inserts, ?_⟩
  intro q
  rcases h'.stamp q with ⟨hq', hmem'⟩ | hq'
  · rw [hq']
    rcases h.stamp q with ⟨hq, hmem⟩ | hq
    · exact Or.inl ⟨hq, fun i hi => hmem i (hmem' i hi)⟩
    · exact Or.inr hq
  · exact Or.inr (h.inserts.trans hq')

end Later

namespace Moves

theorem mono (h : Moves S a b) (hS : ∀ l, S l → S' l) : Moves S' a b := by
  induction h with
  | same h1 h2 h3 => exact .same h1 h2 h3
  | shiftHead hsrc hdst => exact .shiftHead (hS _ hsrc) hdst
  | shiftReady hsrc hp => exact .shiftReady (hS _ hsrc) hp
  | trans _ _ ih₁ ih₂ => exact .trans ih₁ ih₂

theorem refl : Moves S a a := .same rfl rfl rfl

theorem upd : Moves S a (a.upd g) := .same rfl rfl rfl

theorem then_upd (h : Moves S a b) : Moves S a (b.upd g) := h.trans .upd

theorem after_upd (h : Moves S (a.upd g) b) : Moves S a b := Moves.upd.trans h

theorem inOrder (h : Moves S a b) (ha : a.InOrder) : b.InOrder := by
  induction h with
  | same h1 h2 h3 =>
    constructor
    · intro i
      rw [h1, h3]
      exact ha.sorted i
    · intro i
      rw [h1, h2, h3]
      exact ha.past i
  | @shiftHead a p src dst f _ hdst =>
    constructor
    · intro i
      rw [shiftHead_ready hdst]
      exact (ha.sorted i).sublist (remove_sublist _)
    · intro i q hq
      rw [shiftHead_ready hdst] at hq
      exact ha.past i q (mem_remove_of hq)
  | @shiftReady a p src f _ hp =>
    have hstamp : ∀ i, ∀ q ∈ (a.remove src p).lists (.ready i),
        (a.shiftReady p src f).stamp q = a.stamp q := by
      intro i q hq
      apply shiftReady_stamp
      rintro rfl
      exact hp _ hq
    constructor
    · intro i
      rw [shiftReady_ready, pairwise_append]
      refine ⟨?_, ?_, ?_⟩
      · apply ((ha.sorted i).sublist (remove_sublist _)).imp_of_mem
        intro q r hq hr hlt
        rwa [hstamp i q hq, hstamp i r hr]
      · split_ifs <;> simp
      · intro q hq r hr
        by_cases hi : i = readyIx (f (a.proc p)).prio
        · rw [if_pos hi, mem_singleton] at hr
          rw [hr, hstamp i q hq, shiftReady_stamp_self]
          exact ha.past i q (mem_remove_of hq)
        · simp [if_neg hi] at hr
    · intro i q hq
      rw [shiftReady_ready, mem_append] at hq
      rw [shiftReady_inserts]
      rcases hq with hq | hq
      · rw [hstamp i q hq]
        exact Nat.lt_succ_of_lt (ha.past i q (mem_remove_of hq))
      · by_cases hi : i = readyIx (f (a.proc p)).prio
        · rw [if_pos hi, mem_singleton] at hq
          rw [hq, shiftReady_stamp_self]
          exact Nat.lt_succ_self _
        · simp [if_neg hi] at hq
  | trans _ _ ih₁ ih₂ => exact ih₂ (ih₁ ha)

theorem later (h : Moves S a b) : a.Later b := by
  induction h with
  | same h1 h2 h3 =>
    refine ⟨h2.ge, fun q => Or.inl ⟨by rw [h3], fun i hi => ?_⟩⟩
    rwa [h1] at hi
  | @shiftHead a p src dst f _ hdst =>
    refine ⟨le_rfl, fun q => Or.inl ⟨rfl, fun i hi => ?_⟩⟩
    rw [shiftHead_ready hdst] at hi
    exact mem_remove_of hi
  | @shiftReady a p src f _ hp =>
    refine ⟨Nat.le_succ _, fun q => ?_⟩
    by_cases hq : q = p
    · rw [hq, shiftReady_stamp_self]
      exact Or.inr le_rfl
    · refine Or.inl ⟨shiftReady_stamp hq, fun i hi => ?_⟩
      rw [shiftReady_ready, mem_append] at hi
      rcases hi with hi | hi
      · exact mem_remove_of hi
      · split_ifs at hi <;> simp [hq] at hi
  | trans _ _ ih₁ ih₂ => exact ih₁.trans ih₂

/-- Moves off other lists do not disturb the ready lists. -/
theorem undisturbed (h : Moves ListId.NotReady a b) : a.Undisturbed b := by
  induction h with
  | same h1 h2 h3 =>
    intro q i hq
    rw [h1, h3]
    exact ⟨hq, rfl⟩
  | @shiftHead a p src dst f hsrc hdst =>
    intro q i hq
    refine ⟨?_, rfl⟩
    rwa [shiftHead_ready hdst, remove_lists, update_of_ne (hsrc.ready_ne i)]
  | @shiftReady a p src f hsrc hp =>
    intro q i hq
    have hmem : q ∈ (a.remove src p).lists (.ready i) := by
      rwa [remove_lists, update_of_ne (hsrc.ready_ne i)]
    refine ⟨by rw [shiftReady_ready]; exact mem_append_left _ hmem, ?_⟩
    apply shiftReady_stamp
    rintro rfl
    exact hp _ hmem
  | trans _ _ ih₁ ih₂ =>
    intro q i hq
    obtain ⟨hq₁, hs₁⟩ := ih₁ q i hq
    obtain ⟨hq₂, hs₂⟩ := ih₂ q i hq₁
    exact ⟨hq₂, hs₂.trans hs₁⟩

end Moves

/-! ### The operations as moves -/

/-- Operations that move processes on to ready lists but not off them. -/
abbrev Joins (a b : Queues) : Prop := Moves ListId.NotReady a b

namespace Ok

theorem wake_joins (ok : a.Ok) (hst : (a.proc p).state = .sleeping) : a.Joins (a.wake p) :=
  .shiftReady trivial (ok.not_mem_remove (Proc.list_eq_sleep.mpr hst))

theorem foldl_wake_joins (chan : Option Chan) : ∀ (rest : List Slot) (a : Queues), a.Ok →
    (∀ p ∈ rest, (a.proc p).state = .sleeping) → rest.Nodup →
    a.Joins (rest.foldl (fun a p => if (a.proc p).chan = chan then a.wake p else a) a) := by
  intro rest
  induction rest with
  | nil => exact fun a _ _ _ => .refl
  | cons p rest ih =>
    intro a ok hst hnd
    obtain ⟨hp, hnd'⟩ := nodup_cons.mp hnd
    have hpst := hst p (by simp)
    rw [foldl_cons]
    by_cases hch : (a.proc p).chan = chan
    · rw [if_pos hch]
      apply (ok.wake_joins hpst).trans
      apply ih _ (ok.wake hpst) _ hnd'
      intro q hq
      have hqp : q ≠ p := fun hcon => hp (hcon ▸ hq)
      simpa [Queues.wake, Queues.shiftReady, enqueue, update_of_ne hqp] using hst q (by simp [hq])
    · rw [if_neg hch]
      exact ih a ok (fun q hq => hst q (by simp [hq])) hnd'

theorem wakeup1_joins (ok : a.Ok) (chan : Option Chan) : a.Joins (a.wakeup1 chan) := by
  apply foldl_wake_joins chan _ a ok _ (ok.nodup .sleep)
  intro p hp
  exact Proc.list_eq_sleep.mp ((ok.mem p .sleep).mp hp)

theorem reparentOne_joins : a.Joins (Queues.reparentOne p a q) := by
  unfold Queues.reparentOne
  split_ifs
  · exact .upd
  · exact .refl

theorem reparentZombie_joins (ok : a.Ok) : a.Joins (Queues.reparentZombie p a q) := by
  unfold Queues.reparentZombie
  split_ifs
  · have ok₁ : (a.upd fun t => t.setParent q t.initproc).Ok :=
      ok.setProc (fun _ => rfl) fun _ => rfl
    exact .after_upd (ok₁.wakeup1_joins _)
  · exact .refl

theorem reparentZombies_joins (ok : a.Ok) : a.Joins (a.reparentZombies p) := by
  have hgo : (a.reparentZombies p).Ok ∧ a.Joins (a.reparentZombies p) := by
    apply List.foldlRecOn (motive := fun b : Queues => b.Ok ∧ a.Joins b)
    · exact ⟨ok, .refl⟩
    · rintro b ⟨okb, hb⟩ q _
      exact ⟨okb.reparentZombie, hb.trans okb.reparentZombie_joins⟩
  exact hgo.2

theorem handOver_joins (ok : a.Ok) : a.Joins (a.handOver p) := by
  have ok₁ := ok.wakeup1 ((a.proc p).parent.map Chan.proc)
  have hlists : (a.wakeup1 ((a.proc p).parent.map Chan.proc)).Joins
      (childLists.foldl (Queues.reparentList p) (a.wakeup1 ((a.proc p).parent.map Chan.proc))) := by
    apply List.foldlRecOn (motive := Moves ListId.NotReady _) _ _ .refl
    intro b hb l _
    apply hb.trans
    apply List.foldlRecOn (motive := Moves ListId.NotReady b) _ _ .refl
    exact fun c hc q _ => hc.trans reparentOne_joins
  have ok₂ : (childLists.foldl (Queues.reparentList p)
      (a.wakeup1 ((a.proc p).parent.map Chan.proc))).Ok :=
    List.foldlRecOn _ _ ok₁ fun _ h _ _ => h.reparentList
  exact ((ok.wakeup1_joins _).trans hlists).trans ok₂.reparentZombies_joins

theorem exit_joins (ok : a.Ok) : a.Joins (a.exit cpu p) :=
  .then_upd (ok.handOver_joins.trans (.shiftHead trivial trivial))

theorem allocproc_joins : a.Joins a.allocproc.2 := by
  unfold Queues.allocproc
  rcases hfree : a.lists .free with _ | ⟨p, rest⟩
  · exact .refl
  · have hshift : a.Joins (a.shiftHead p .free (fun r => { r with state := .embryo }) .embryo) :=
      .shiftHead trivial trivial
    exact hshift.trans (.same rfl rfl rfl)

theorem freeEmbryo_joins : a.Joins (a.freeEmbryo p) := .shiftHead trivial trivial

theorem forkFinish_joins (ok : a.Ok) (hst : (a.proc p).state = .embryo)
    (hprio : (a.proc p).prio = 0) : a.Joins (a.forkFinish p) := by
  rw [forkFinish_eq hprio]
  exact .shiftReady trivial (ok.not_mem_remove (Proc.list_eq_embryo.mpr hst))

theorem sleep_joins : a.Joins (a.sleep cpu p chan) := by
  apply Moves.then_upd
  apply Moves.after_upd
  exact .shiftHead trivial trivial

theorem yield_joins (ok : a.Ok) (hst : (a.proc p).state = .running) : a.Joins (a.yield cpu p) :=
  .then_upd (.shiftReady trivial (ok.not_mem_remove (Proc.list_eq_running.mpr hst)))

theorem wait_joins : a.Joins (a.wait cpu p).1 := by
  unfold Queues.wait Queues.waitPass
  cases hfind : (a.lists .zombie).find? (a.isChild p) with
  | some q =>
    have hreap : a.Joins (a.reap q) := by
      apply Moves.then_upd
      apply Moves.after_upd
      exact .shiftHead trivial trivial
    exact hreap.trans (.same rfl rfl rfl)
  | none =>
    by_cases h : (!a.haveKids p || (a.proc p).killed) = true
    · simp only [if_pos h]
      exact .upd
    · simp only [if_neg h]
      exact sleep_joins.then_upd

theorem resume_joins : a.Joins (a.resume cpu p).1 := by
  unfold Queues.resume
  cases a.kctx p with
  | asleepInWait => exact Moves.upd.trans wait_joins
  | _ => exact .same rfl rfl rfl

theorem kill_joins (ok : a.Ok) : a.Joins (a.kill pid).2 := by
  unfold Queues.kill
  rcases hs : a.search (a.hasPid pid) (readyLists ++ [.running, .embryo, .zombie]) with _ | ⟨l, p⟩
  · simp only [hs]
    cases hfind : (a.lists .sleep).find? (a.hasPid pid) with
    | none => exact .refl
    | some p =>
      have hp := (ok.mem p .sleep).mp (mem_of_find?_eq_some hfind)
      apply Moves.upd.trans (ok.setKilled.wake_joins _)
      simpa using Proc.list_eq_sleep.mp hp
  · simp only [hs]
    exact .upd

end Ok

variable {i : Fin (MAX + 1)} {ev : List Ev} {act : Act}

theorem Inv.did_joins (inv : a.Inv) (h : a.Did act ev b) (hact : ¬ act.Requeues) : a.Joins b := by
  have ok := inv.toOk
  cases h with
  | allocproc _ _ => exact Ok.allocproc_joins.then_upd
  | kallocFails _ => exact .then_upd (.after_upd Ok.freeEmbryo_joins)
  | copyuvmFails _ => exact .then_upd (.after_upd Ok.freeEmbryo_joins)
  | @forkFinish cpu p np hcall =>
    have hst := (inv.kernel.forking p np (by rw [hcall.kctx]; rfl)).1
    exact (ok.forkFinish_joins hst (inv.kernel.fresh p np (Or.inr hcall.kctx))).then_upd
  | exit _ _ => exact ok.exit_joins
  | wait _ => exact Ok.wait_joins
  | resume _ _ => exact Ok.resume_joins
  | yield hcall => exact ok.yield_joins (inv.kernel.onCpu _ _ hcall.cpu)
  | sleep _ => exact Ok.sleep_joins.then_upd
  | wakeup _ => exact ok.wakeup1_joins _
  | kill _ => exact ok.kill_joins
  | scheduler _ _ => exact absurd trivial hact
  | setpriority _ => exact absurd trivial hact
  | noSlot _ _ => exact .refl
  | _ => exact .upd

/-! ### setpriority, prioadjust and scheduler -/

/-- Moves off any list. -/
abbrev Rearranges (a b : Queues) : Prop := Moves (fun _ => True) a b

theorem Ok.setpriority_rearranges (ok : a.Ok) : a.Rearranges (a.setpriority pid priority).2 := by
  have hdid := ok.toListsOk.reprioritises pid priority
  generalize a.setpriority pid priority = r at hdid
  obtain ⟨rc, b⟩ := r
  cases hdid with
  | moves _ _ _ hp => exact .shiftReady trivial (ok.not_mem_remove ((ok.mem _ _).mp hp))
  | assigned => exact .upd (g := fun t => t.setProc _ (PTable.setPrioFields priority))
  | _ => exact .refl

/-- A process that `setpriority` moves is not on the list where it was. -/
theorem Ok.setpriority_stays (ok : a.Ok) (hq : q ∈ a.lists (.ready i))
    (hq' : q ∈ (a.setpriority pid priority).2.lists (.ready i)) :
    (a.setpriority pid priority).2.stamp q = a.stamp q := by
  have ok' : (a.setpriority pid priority).2.Ok := ok.setpriority
  have hprio := (ok'.toListsOk.mem_ready.mp hq').2
  clear hq' ok'
  have hdid := ok.toListsOk.reprioritises pid priority
  generalize a.setpriority pid priority = r at hdid hprio
  obtain ⟨rc, b⟩ := r
  cases hdid with
  | @moves p j _ _ _ hp hj =>
    apply shiftReady_stamp
    rintro rfl
    have hij : i = j := by simpa using ((ok.mem q _).mp hq).symm.trans ((ok.mem q _).mp hp)
    rw [hij] at hprio
    exact hj (by simpa [Queues.shiftReady, enqueue, PTable.setPrioFields] using hprio)
  | _ => rfl

theorem decrementPrio_rearranges : a.Rearranges (a.decrementPrio l) := by
  apply List.foldlRecOn (motive := fun b : Queues => a.Rearranges b) _ _ .refl
  intro b hb q _
  unfold decrementOne
  split_ifs
  · exact hb.then_upd
  · exact hb

theorem ListsOk.promote_rearranges (ok : a.ListsOk) : a.Rearranges (a.promote i) := by
  unfold Queues.promote
  rcases hready : a.lists (.ready i) with _ | ⟨p, rest⟩
  · exact .refl
  · exact .shiftReady trivial (ok.not_mem_remove ((ok.mem p _).mp (by rw [hready]; simp)))

theorem ListsOk.prioadjust_rearranges (ok : a.ListsOk) : a.Rearranges a.prioadjust := by
  have ok₁ := (ok.decrementPrio (l := .sleep) (by simp)).decrementPrio (l := .running) (by simp)
  have hgo : ((List.finRange (MAX + 1)).tail.foldl Queues.promote
      ((a.decrementPrio .sleep).decrementPrio .running)).ListsOk ∧
      ((a.decrementPrio .sleep).decrementPrio .running).Rearranges
        ((List.finRange (MAX + 1)).tail.foldl Queues.promote
          ((a.decrementPrio .sleep).decrementPrio .running)) := by
    apply List.foldlRecOn (motive := fun b : Queues => b.ListsOk ∧
      ((a.decrementPrio .sleep).decrementPrio .running).Rearranges b)
    · exact ⟨ok₁, .refl⟩
    · rintro b ⟨okb, hb⟩ i hi
      exact ⟨okb.promote (by revert i; decide), hb.trans okb.promote_rearranges⟩
  exact ((decrementPrio_rearranges.trans decrementPrio_rearranges).trans hgo.2).then_upd

/-- Processes get a lower priority, or at least no higher one if they are not inserted
    anywhere. -/
def Lowers (a b : Queues) : Prop :=
  ∀ q, (b.stamp q = a.stamp q ∧ (b.proc q).prio ≤ (a.proc q).prio) ∨
    (b.proc q).prio < (a.proc q).prio

namespace Lowers

theorem refl : a.Lowers a := fun _ => Or.inl ⟨rfl, le_rfl⟩

theorem trans (h : a.Lowers b) (h' : b.Lowers c) : a.Lowers c := by
  intro q
  rcases h q with ⟨hs, hle⟩ | hlt
  · rcases h' q with ⟨hs', hle'⟩ | hlt'
    · exact Or.inl ⟨hs'.trans hs, hle'.trans hle⟩
    · exact Or.inr (hlt'.trans_le hle)
  · rcases h' q with ⟨-, hle'⟩ | hlt'
    · exact Or.inr (hle'.trans_lt hlt)
    · exact Or.inr (hlt'.trans hlt)

theorem decrementPrio : a.Lowers (a.decrementPrio l) := by
  apply List.foldlRecOn (motive := fun b : Queues => a.Lowers b) _ _ .refl
  intro b hb p _
  apply hb.trans
  intro q
  unfold decrementOne
  split_ifs
  · left
    by_cases hq : q = p
    · subst hq
      refine ⟨rfl, ?_⟩
      simp only [upd_toTable, Table.setProc_proc, update_self]
      omega
    · simp [hq]
  · exact Or.inl ⟨rfl, le_rfl⟩

theorem promote : a.Lowers (a.promote i) := by
  intro q
  unfold Queues.promote
  rcases hready : a.lists (.ready i) with _ | ⟨p, rest⟩
  · exact Or.inl ⟨rfl, le_rfl⟩
  · by_cases hq : q = p
    · subst hq
      right
      have hprio :
          ((a.shiftReady q (.ready i) fun r => { r with prio := r.prio - 1 }).proc q).prio =
            (a.proc q).prio - 1 := by simp [shiftReady, enqueue]
      simp only [hprio]
      exact Int.sub_one_lt_of_le le_rfl
    · left
      exact ⟨shiftReady_stamp hq, by simp [shiftReady, enqueue, hq]⟩

theorem prioadjust : a.Lowers a.prioadjust := by
  have hgo : a.Lowers ((List.finRange (MAX + 1)).tail.foldl Queues.promote
      ((a.decrementPrio .sleep).decrementPrio .running)) := by
    apply List.foldlRecOn (motive := fun b : Queues => a.Lowers b)
    · exact decrementPrio.trans decrementPrio
    · exact fun b hb i _ => hb.trans promote
  intro q
  simp only [Queues.prioadjust, upd_stamp, upd_toTable]
  exact hgo q

end Lowers

theorem Ok.promoteIfDue_rearranges (ok : a.Ok) : a.Rearranges a.promoteIfDue := by
  unfold Queues.promoteIfDue
  split_ifs
  · exact ok.toListsOk.prioadjust_rearranges
  · exact .refl

theorem Ok.promoteIfDue_stays (ok : a.Ok) (hq : q ∈ a.lists (.ready i))
    (hq' : q ∈ a.promoteIfDue.lists (.ready i)) : a.promoteIfDue.stamp q = a.stamp q := by
  have hprio := (ok.toListsOk.mem_ready.mp hq).2
  have hprio' := (ok.promoteIfDue.toListsOk.mem_ready.mp hq').2
  have hlow : a.Lowers a.promoteIfDue := by
    unfold Queues.promoteIfDue
    split_ifs
    · exact .prioadjust
    · exact .refl
  rcases hlow q with ⟨hstamp, -⟩ | hlt
  · exact hstamp
  · rw [hprio, hprio'] at hlt
    exact absurd hlt (lt_irrefl _)

theorem dispatch_rearranges : a.Rearranges (a.dispatch cpu i p) :=
  .then_upd (.shiftHead trivial trivial)

theorem Ok.scheduler_rearranges (ok : a.Ok) : a.Rearranges (a.scheduler cpu).2 := by
  unfold Queues.scheduler
  rcases hfirst : a.promoteIfDue.firstReady (List.finRange (MAX + 1)) with _ | ⟨i, p⟩
  · exact ok.promoteIfDue_rearranges
  · exact ok.promoteIfDue_rearranges.trans dispatch_rearranges

theorem Ok.scheduler_stays (ok : a.Ok) (hq : q ∈ a.lists (.ready i))
    (hq' : q ∈ (a.scheduler cpu).2.lists (.ready i)) : (a.scheduler cpu).2.stamp q = a.stamp q := by
  unfold Queues.scheduler at hq' ⊢
  rcases hfirst : a.promoteIfDue.firstReady (List.finRange (MAX + 1)) with _ | ⟨j, p⟩
  · simp only [hfirst] at hq' ⊢
    exact ok.promoteIfDue_stays hq hq'
  · simp only [hfirst] at hq' ⊢
    have hmem : q ∈ (a.promoteIfDue.shiftHead p (.ready j)
      (fun r => { r with state := .running }) .running).lists (.ready i) := hq'
    rw [shiftHead_ready (show ListId.NotReady .running from trivial)] at hmem
    exact ok.promoteIfDue_stays hq (mem_remove_of hmem)

theorem Ok.scheduler_dispatches (ok : a.Ok) (hp : (a.scheduler cpu).1 = some p) :
    ∃ i rest, a.promoteIfDue.lists (.ready i) = p :: rest ∧
      (a.scheduler cpu).2 = a.promoteIfDue.dispatch cpu i p ∧
      ((a.scheduler cpu).2.proc p).prio = (i : Nat) := by
  unfold Queues.scheduler at hp ⊢
  rcases hfirst : a.promoteIfDue.firstReady (List.finRange (MAX + 1)) with _ | ⟨i, p'⟩
  · simp [hfirst] at hp
  · simp only [hfirst, Option.some.injEq] at hp ⊢
    subst hp
    obtain ⟨rest, hrest⟩ := firstReady_mem hfirst
    have hp := ok.promoteIfDue.toListsOk.mem_ready.mp (show p' ∈ _ by rw [hrest]; simp)
    refine ⟨i, rest, hrest, rfl, ?_⟩
    rw [← hp.2]
    simp [Queues.dispatch, Queues.shiftHead]

/-- The process dispatched was the first of its list, so all others of that list were
    inserted after it. -/
theorem Ok.scheduler_first (ok : a.Ok) (hord : a.InOrder) (hp : (a.scheduler cpu).1 = some p)
    (hq : ((a.scheduler cpu).2.proc q).state = .runnable)
    (hprio : ((a.scheduler cpu).2.proc q).prio = ((a.scheduler cpu).2.proc p).prio) :
    (a.scheduler cpu).2.stamp p < (a.scheduler cpu).2.stamp q := by
  have hord₁ := ok.promoteIfDue_rearranges.inOrder hord
  obtain ⟨i, rest, hrest, hdispatch, hpi⟩ := ok.scheduler_dispatches hp
  have ok₁ : (a.scheduler cpu).2.Ok := ok.scheduler
  have hmem := ok₁.toListsOk.mem_ready.mpr ⟨hq, hprio.trans hpi⟩
  rw [hdispatch] at hmem ⊢
  have hlists : (a.promoteIfDue.dispatch cpu i p).lists (.ready i) = rest := by
    simp [Queues.dispatch, Queues.shiftHead, hrest]
  rw [hlists] at hmem
  have hsorted := hord₁.sorted i
  rw [hrest, pairwise_cons] at hsorted
  exact hsorted.1 q hmem

/-- It was on that list before, or `prioadjust` has just inserted it there. -/
theorem Ok.scheduler_source (ok : a.Ok) (hp : (a.scheduler cpu).1 = some p)
    (hprio : ((a.scheduler cpu).2.proc p).prio = (i : Nat)) :
    (a.scheduler cpu).2.stamp p = a.stamp p ∧ p ∈ a.lists (.ready i) ∨
      a.inserts ≤ (a.scheduler cpu).2.stamp p := by
  obtain ⟨j, rest, hrest, hdispatch, hpj⟩ := ok.scheduler_dispatches hp
  have hij : i = j := by
    apply Fin.ext
    exact_mod_cast hprio.symm.trans hpj
  rw [hdispatch]
  rcases ok.promoteIfDue_rearranges.later.stamp p with ⟨hstamp, hmem⟩ | hge
  · exact Or.inl ⟨hstamp, hmem i (by rw [hij, hrest]; simp)⟩
  · exact Or.inr hge

/-! ### All steps -/

theorem Inv.did_rearranges (inv : a.Inv) (h : a.Did act ev b) : a.Rearranges b := by
  by_cases hact : act.Requeues
  · cases h with
    | scheduler _ _ => exact inv.scheduler_rearranges
    | setpriority _ => exact inv.setpriority_rearranges
    | _ => exact absurd hact id
  · exact (inv.did_joins h hact).mono fun _ _ => trivial

/-- A process that is on the same ready list after a step has not been moved. -/
theorem Inv.did_stays (inv : a.Inv) (h : a.Did act ev b) (hq : q ∈ a.lists (.ready i))
    (hq' : q ∈ b.lists (.ready i)) : b.stamp q = a.stamp q := by
  by_cases hact : act.Requeues
  · cases h with
    | scheduler _ _ => exact inv.scheduler_stays hq hq'
    | setpriority _ => exact inv.setpriority_stays hq hq'
    | _ => exact absurd hact id
  · exact ((inv.did_joins h hact).undisturbed q i hq).2

end Queues

theorem bootQueues_inOrder (now : Uint) : (bootQueues now).InOrder := by
  constructor <;> simp [bootQueues]

theorem queueSystem_inOrder (ha : queueSystem.Reachable a) : a.InOrder := by
  apply ha.invariant_of (P := Queues.InOrder) (Q := Queues.Inv) fun _ h => queueSystem_inv h
  · rintro a ⟨now, kstack, pgdir, p, rest, hfree, rfl⟩
    obtain ⟨ok, hst, hprio⟩ := embryoQueues_ok now kstack pgdir hfree
    have halloc : (bootQueues now).Joins (embryoQueues now kstack pgdir p) :=
      Queues.Ok.allocproc_joins.then_upd.then_upd
    exact (halloc.trans (ok.forkFinish_joins hst hprio)).inOrder (bootQueues_inOrder now)
  · intro a act a' ev inv hord hstep
    exact (inv.did_rearranges (Queues.step_did hstep)).inOrder hord

/-! ### The process table -/

/-- `q` is on `ready[i]`. -/
def Table.Queued (t : Table) (i : Fin (MAX + 1)) (q : Slot) : Prop :=
  (t.proc q).state = .runnable ∧ (t.proc q).prio = (i : Nat)

/-- A run from `u` to `s` during which `q` is on `ready[i]` in every state. -/
inductive Waits (i : Fin (MAX + 1)) (q : Slot) (u : PTable) : PTable → Prop where
  | here : u.Queued i q → Waits i q u u
  | step {s s' : PTable} {act : Act} {ev : List Ev} : Waits i q u s →
      procSystem.step s act = some (s', ev) → s'.Queued i q → Waits i q u s'

section

variable {s' u : PTable} {ev : List Ev} {q : Slot}

theorem Represents.queued (hr : Represents s a) (inv : a.Inv) :
    s.Queued i q ↔ q ∈ a.lists (.ready i) := by
  rw [inv.toListsOk.mem_ready, hr.table]
  exact Iff.rfl

theorem queued_stamp (hs : procSystem.Reachable s) (hq : s.Queued i q) : s.stamp q < s.inserts := by
  obtain ⟨a, ha, hr⟩ := reachable_represents hs
  rw [hr.stamp, hr.inserts]
  exact (queueSystem_inOrder ha).past i q ((hr.queued (queueSystem_inv ha)).mp hq)

/-- What a step does to the stamps. -/
theorem stamp_step (hs : procSystem.Reachable s) (h : procSystem.step s act = some (s', ev)) :
    s.inserts ≤ s'.inserts ∧ (∀ q, (s'.stamp q = s.stamp q ∧ ∀ i, s'.Queued i q → s.Queued i q) ∨
        s.inserts ≤ s'.stamp q) ∧
      ∀ i q, s.Queued i q → s'.Queued i q → s'.stamp q = s.stamp q := by
  obtain ⟨a, ha, hr⟩ := reachable_represents hs
  obtain ⟨a', hstep, hr'⟩ := simulation.step _ _ _ _ _ hr ha h
  have inv := queueSystem_inv ha
  have inv' := inv.step hstep
  have hdid := Queues.step_did hstep
  have hlater := (inv.did_rearranges hdid).later
  simp only [hr.queued inv, hr'.queued inv', hr.inserts, hr'.inserts, hr.stamp, hr'.stamp]
  exact ⟨hlater.inserts, hlater.stamp, fun i q => inv.did_stays hdid⟩

namespace Waits

theorem queued (h : Waits i q u s) : s.Queued i q := by
  cases h with
  | here hq => exact hq
  | step _ _ hq => exact hq

theorem reachable (h : Waits i q u s) (hu : procSystem.Reachable u) : procSystem.Reachable s := by
  induction h with
  | here _ => exact hu
  | step _ hstep _ ih => exact ih.step hstep

/-- While `q` waits it keeps its stamp, and whoever comes to its list gets a later one. -/
theorem stamps (h : Waits i q u s) (hu : procSystem.Reachable u) (hp : ¬ u.Queued i p) :
    s.stamp q < u.inserts ∧ u.inserts ≤ s.inserts ∧ (s.Queued i p → u.inserts ≤ s.stamp p) := by
  induction h with
  | here hq => exact ⟨queued_stamp hu hq, le_rfl, fun hcon => absurd hcon hp⟩
  | step hw hstep hq ih =>
    obtain ⟨hstamp, hins, hlate⟩ := ih
    obtain ⟨hins', hnew, hstay⟩ := stamp_step (hw.reachable hu) hstep
    refine ⟨by rwa [hstay i q hw.queued hq], hins.trans hins', ?_⟩
    intro hpq
    rcases hnew p with ⟨hsame, hmem⟩ | hge
    · rw [hsame]
      exact hlate (hmem i hpq)
    · exact hins.trans hge

end Waits

/-- The scheduler step of the list code. -/
theorem dispatched_queues (hs : procSystem.Reachable s)
    (hstep : procSystem.step s (.scheduler cpu) = some (s', ev)) (hp : Ev.dispatched p ∈ ev) :
    ∃ a, queueSystem.Reachable a ∧ Represents s a ∧ (a.scheduler cpu).1 = some p ∧
      Represents s' (a.scheduler cpu).2 := by
  obtain ⟨a, ha, hr⟩ := reachable_represents hs
  obtain ⟨a', hstep', hr'⟩ := simulation.step _ _ _ _ _ hr ha hstep
  have hdid : a.Did (.scheduler cpu) ev a' := Queues.step_did (r := (a', ev)) hstep'
  cases hdid with
  | scheduler _ _ => exact ⟨a, ha, hr, by simpa using hp, hr'⟩

end

/-- When the scheduler dispatches `p`, no runnable process has a smaller priority, and
    those with the same priority were inserted into their ready list after `p`.  In
    particular `p` does not overtake a process that was on the list before `p` was. -/
theorem scheduler_strict_priority_fifo {s s' : PTable} {cpu : Cpu} {ev : List Ev} {p : Slot}
    (hs : procSystem.Reachable s) (hstep : procSystem.step s (.scheduler cpu) = some (s', ev))
    (hp : Ev.dispatched p ∈ ev) :
    (∀ q, (s'.proc q).state = .runnable → (s'.proc p).prio ≤ (s'.proc q).prio) ∧
      (∀ q, (s'.proc q).state = .runnable → (s'.proc q).prio = (s'.proc p).prio →
        s'.stamp p < s'.stamp q) ∧
      ∀ u i q, procSystem.Reachable u → Waits i q u s → ¬ u.Queued i p →
        (s'.proc p).prio = (i : Nat) → ¬ s'.Queued i q := by
  obtain ⟨a, ha, hr, hsched, hr'⟩ := dispatched_queues hs hstep hp
  have inv := queueSystem_inv ha
  have hfirst : ∀ q, (s'.proc q).state = .runnable → (s'.proc q).prio = (s'.proc p).prio →
      s'.stamp p < s'.stamp q := by
    intro q hq hprio
    rw [hr'.proc] at hq hprio
    rw [hr'.stamp]
    exact inv.scheduler_first (queueSystem_inOrder ha) hsched hq hprio
  refine ⟨?_, hfirst, ?_⟩
  · obtain ⟨-, ht⟩ := reachable_step hs hstep
    generalize s'.toTable = t' at ht
    cases ht with
    | idle _ _ _ _ => simp at hp
    | @dispatch _ p' t₁ _ _ hre _ hmin =>
      obtain rfl : p = p' := by simpa using hp
      intro q hq
      have hqp : q ≠ p := by
        rintro rfl
        simp [Table.dispatch] at hq
      have hq' : (s.proc q).state = .runnable := by
        rw [← hre.state]
        simpa [Table.dispatch, hqp] using hq
      simpa [Table.dispatch, hqp] using hmin q hq'
  · intro u i q hu hw hpu hpi hq
    obtain ⟨hstamp, hins, hlate⟩ := hw.stamps hu hpu
    obtain ⟨-, -, hstay⟩ := stamp_step hs hstep
    have hold : s'.stamp q < u.inserts := by rwa [hstay i q hw.queued hq]
    have hnew : u.inserts ≤ s'.stamp p := by
      rw [hr'.proc] at hpi
      rcases inv.scheduler_source hsched hpi with ⟨hsame, hmem⟩ | hge
      · rw [hr'.stamp, hsame, ← hr.stamp]
        exact hlate ((hr.queued inv).mpr hmem)
      · rw [hr'.stamp]
        rw [← hr.inserts] at hge
        exact hins.trans hge
    have hlt := hfirst q hq.1 (hq.2.trans hpi.symm)
    omega

/-- Init has forked two children and gives up the CPU. -/
def twoChildren : PTable :=
  afterActs [.scheduler 0, .resume 0,
    .allocproc 0, .kalloc 0 (some 3), .copyuvm 0 (some 4), .forkFinish 0,
    .allocproc 0, .kalloc 0 (some 5), .copyuvm 0 (some 6), .forkFinish 0, .yield 0]

theorem scheduler_strict_priority_fifo_children :
    ∃ s' ev, procSystem.step twoChildren (.scheduler 0) = some (s', ev) ∧
      Ev.dispatched 62 ∈ ev ∧ (s'.proc 61).state = .runnable ∧ s'.stamp 62 < s'.stamp 61 := by
  have hrun : ((procSystem.step twoChildren (.scheduler 0)).map fun r =>
      (r.2, (r.1.proc 61).state, (r.1.proc 61).prio, (r.1.proc 62).prio)) =
        some ([.dispatched 62], .runnable, 0, 0) := by decide +kernel
  obtain ⟨⟨s', ev⟩, hstep, hfields⟩ := Option.map_eq_some_iff.mp hrun
  simp only [Prod.mk.injEq] at hfields
  obtain ⟨hev, hst, hprio, hprio'⟩ := hfields
  have hp : Ev.dispatched 62 ∈ ev := by rw [hev]; simp
  refine ⟨s', ev, hstep, hp, hst, ?_⟩
  exact (scheduler_strict_priority_fifo (afterActs_reachable _) hstep hp).2.1 61 hst
    (hprio.trans hprio'.symm)

end Xv6Kernel
