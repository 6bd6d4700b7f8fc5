/-
  ProcStep.lean
  =============
  The steps of the process code, as changes of the table.

  `Table.Step t act ev t'` lists, one constructor for each way a step can go, what the
  step finds in the table `t` and what it leaves.  The lists of `Queues` do not occur in
  it: where the code takes a process from a list the constructor only says what the
  state of that process is.  `Queues.Ok.table_step` shows that every step of the list
  model is one of these.  Invariants that do not speak of list order are proved over
  `Table.Step`, by cases on it.
-/
import Xv6Kernel.ProcScan

namespace Xv6Kernel

open List

open PTable (readyLists childLists WaitResult)

namespace Table

/-! ### What the operations do to the table -/

def allocproc (np : Slot) (t : Table) : Table :=
  { t.setProc np (fun r => { r with state := .embryo, pid := t.nextpid }) with
    nextpid := t.nextpid + 1 }

def kallocFails (np : Slot) (t : Table) : Table :=
  t.setProc np fun r => { r with kstack := none, state := .unused }

def copyuvmFails (np : Slot) (t : Table) : Table :=
  t.setProc np fun r => { r with pgdir := none, kstack := none, state := .unused }

def sleep (cpu : Cpu) (p : Slot) (chan : Chan) (t : Table) : Table :=
  (t.setProc p fun r =>
    ({ r with chan := some chan, state := .sleeping } : Proc).budgetupdate t.ticks).leaveCpu cpu p

def yield (cpu : Cpu) (p : Slot) (t : Table) : Table :=
  (t.setProc p fun r => ({ r with state := .runnable } : Proc).budgetupdate t.ticks).leaveCpu cpu p

def reap (q : Slot) (t : Table) : Table :=
  t.setProc q fun r => ({ r with kstack := none, state := .unused } : Proc).reapFields

def dispatch (cpu : Cpu) (p : Slot) (t : Table) : Table :=
  ((t.setProc p fun r => { r with state := .running, cpuTicksIn := t.ticks }).setCpu cpu
    (some p)).setLock (some cpu)

def kill (p : Slot) (t : Table) : Table :=
  t.setProc p fun r =>
    { r with killed := true, state := if r.state = .sleeping then .runnable else r.state }

/-- Priorities change, and nothing else that the other operations look at. -/
structure Reprio (t t' : Table) : Prop where
  proc : ∀ q, t'.proc q = { t.proc q with prio := (t'.proc q).prio }
  frame : t' = { t with proc := t'.proc, promoteAtTime := t'.promoteAtTime }
  idle : ∀ q, (t.proc q).state ≠ .runnable → (t.proc q).state ≠ .running →
    (t.proc q).state ≠ .sleeping → t'.proc q = t.proc q

/-- `p` runs on `cpu`, is at `k` in the kernel, and does not hold the lock. -/
structure Runs (t : Table) (cpu : Cpu) (p : Slot) (k : KCtx) : Prop where
  lock : t.lock ≠ some cpu
  cpu : t.cpuProc cpu = some p
  kctx : t.kctx p = k

/-- The same, with nobody holding the lock. -/
structure Calls (t : Table) (cpu : Cpu) (p : Slot) (k : KCtx) : Prop extends Runs t cpu p k where
  free : t.lock = none

/-- The ways in which a pass of `wait` by `p` can end. -/
inductive WaitPass (cpu : Cpu) (p : Slot) (t : Table) : List Ev → Table → Prop where
  | reaped {q : Slot} : (t.proc q).state = .zombie → (t.proc q).parent = some p →
      WaitPass cpu p t [.waitRet p (some q) (t.proc q).pid.toInt]
        (((t.reap q).setKCtx p .outside).setLock none)
  | failed : ¬ t.HasZombie p →
      (∀ q, (t.proc q).state ≠ .unused → (t.proc q).parent ≠ some p) ∨ (t.proc p).killed = true →
      WaitPass cpu p t [.waitRet p none (-1)] ((t.setKCtx p .outside).setLock none)
  | sleeps : ¬ t.HasZombie p →
      WaitPass cpu p t [] ((t.sleep cpu p (.proc p)).setKCtx p .asleepInWait)

inductive Step (t : Table) : Act → List Ev → Table → Prop where
  | tick : Step t .tick [] { t with ticks := t.ticks + 1 }
  | noSlot {cpu p} : t.Calls cpu p .outside → (∀ q, (t.proc q).state ≠ .unused) →
      Step t (.allocproc cpu) [.forkRet p (-1)] t
  | allocproc {cpu p np} : t.Calls cpu p .outside → (t.proc np).state = .unused →
      Step t (.allocproc cpu) [.born np] ((t.allocproc np).setKCtx p (.allocating np))
  | kallocFails {cpu p np} : t.Calls cpu p (.allocating np) →
      Step t (.kalloc cpu none) [.forkRet p (-1)] ((t.kallocFails np).setKCtx p .outside)
  | kalloc {cpu p np kstack} : t.Runs cpu p (.allocating np) →
      Step t (.kalloc cpu (some kstack)) []
        ((t.setProc np (Proc.allocprocFields kstack t.ticks)).setKCtx p (.copying np))
  | copyuvmFails {cpu p np} : t.Calls cpu p (.copying np) →
      Step t (.copyuvm cpu none) [.forkRet p (-1)] ((t.copyuvmFails np).setKCtx p .outside)
  | copyuvm {cpu p np pgdir} : t.Runs cpu p (.copying np) →
      Step t (.copyuvm cpu (some pgdir)) []
        ((t.setProc np (Proc.forkFields pgdir p (t.proc p))).setKCtx p (.linking np))
  | forkFinish {cpu p np} : t.Calls cpu p (.linking np) →
      Step t (.forkFinish cpu) [.forkRet p (t.proc np).pid.toInt]
        ((t.setState np .runnable).setKCtx p .outside)
  | exit {cpu p} : t.Calls cpu p .outside → some p ≠ t.initproc →
      Step t (.exit cpu) [.exited p] (t.exit cpu p)
  | wait {cpu p ev t'} : t.Calls cpu p .outside → WaitPass cpu p t ev t' →
      Step t (.wait cpu) ev t'
  | idle {cpu t'} : t.lock = none → t.cpuProc cpu = none → t.Reprio t' →
      (∀ q, (t.proc q).state ≠ .runnable) → Step t (.scheduler cpu) [] t'
  | dispatch {cpu p t'} : t.lock = none → t.cpuProc cpu = none → t.Reprio t' →
      (t.proc p).state = .runnable →
      (∀ q, (t.proc q).state = .runnable → (t'.proc p).prio ≤ (t'.proc q).prio) →
      Step t (.scheduler cpu) [.dispatched p] (t'.dispatch cpu p)
  | resume {cpu p} : t.lock = some cpu → t.cpuProc cpu = some p → t.kctx p ≠ .asleep →
      t.kctx p ≠ .asleepInWait → Step t (.resume cpu) [] (t.setLock none)
  | resumeAsleep {cpu p} : t.lock = some cpu → t.cpuProc cpu = some p → t.kctx p = .asleep →
      Step t (.resume cpu) [] (((t.setChan p none).setKCtx p .outside).setLock none)
  | resumeInWait {cpu p ev t'} : t.lock = some cpu → t.cpuProc cpu = some p →
      t.kctx p = .asleepInWait → WaitPass cpu p (t.setChan p none) ev t' →
      Step t (.resume cpu) ev t'
  | yield {cpu p k} : t.Calls cpu p k → Step t (.yield cpu) [] (t.yield cpu p)
  | sleep {cpu p a} : t.Calls cpu p .outside →
      Step t (.sleep cpu a) [] ((t.sleep cpu p (.addr a)).setKCtx p .asleep)
  | wakeup {a} : t.lock = none → Step t (.wakeup a) [] (t.wakeup1 (some (.addr a)))
  | kill {cpu p pid q} : t.Calls cpu p .outside → (t.proc q).state ≠ .unused →
      (t.proc q).pid = pid → Step t (.kill cpu pid) [.killRet 0] (t.kill q)
  | killMiss {cpu p pid} : t.Calls cpu p .outside →
      (∀ q, (t.proc q).state ≠ .unused → (t.proc q).pid ≠ pid) →
      Step t (.kill cpu pid) [.killRet (-1)] t
  | setpriority {cpu p pid priority q f} : t.Calls cpu p .outside →
      (t.proc q).state = .runnable ∨ (t.proc q).state = .running ∨ (t.proc q).state = .sleeping →
      (t.proc q).pid = pid → f = id ∨ f = PTable.setPrioFields priority →
      Step t (.setpriority cpu pid priority) [.setpriorityRet 0] (t.setProc q f)
  | setpriorityMiss {cpu p pid priority} : t.Calls cpu p .outside →
      Step t (.setpriority cpu pid priority) [.setpriorityRet (-1)] t
  | trapKill {cpu p} : t.Runs cpu p .outside → Step t (.trapKill cpu) [] (t.setKilled p)

namespace Reprio

variable {t : Table} {p : Slot}

theorem refl : t.Reprio t := ⟨fun _ => rfl, rfl, fun _ _ _ _ => rfl⟩

theorem state (h : t.Reprio t') (q : Slot) : (t'.proc q).state = (t.proc q).state := by
  rw [h.proc q]

theorem trans (h : t.Reprio t') (h' : t'.Reprio t'') : t.Reprio t'' := by
  refine ⟨?_, ?_, ?_⟩
  · intro q
    rw [h'.proc q, h.proc q]
  · rw [h'.frame, h.frame]
  · intro q hr hn hs
    rw [h'.idle q (by rwa [h.state]) (by rwa [h.state]) (by rwa [h.state]), h.idle q hr hn hs]

theorem setPrio (hst : (t.proc p).state = .runnable ∨ (t.proc p).state = .running ∨
    (t.proc p).state = .sleeping) : t.Reprio (t.setProc p fun r => { r with prio := n }) := by
  refine ⟨?_, rfl, ?_⟩
  · intro q
    by_cases hq : q = p
    · subst hq; simp
    · simp [hq]
  · intro q hr hn hs
    have hq : q ≠ p := by
      rintro rfl
      rcases hst with h | h | h
      · exact hr h
      · exact hn h
      · exact hs h
    simp [hq]

theorem setPromoteAtTime : t.Reprio { t with promoteAtTime := n } :=
  ⟨fun _ => rfl, rfl, fun _ _ _ _ => rfl⟩

end Reprio

end Table

namespace Queues

/-- The ways in which a step of the list code can go. -/
inductive Did (a : Queues) : Act → List Ev → Queues → Prop where
  | tick : Did a .tick [] (a.upd fun t => { t with ticks := t.ticks + 1 })
  | noSlot {cpu p} : a.Calls cpu p .outside → a.lists .free = [] →
      Did a (.allocproc cpu) [.forkRet p (-1)] a
  | allocproc {cpu p np rest} : a.Calls cpu p .outside → a.lists .free = np :: rest →
      Did a (.allocproc cpu) [.born np] (a.allocproc.2.upd fun t => t.setKCtx p (.allocating np))
  | kallocFails {cpu p np} : a.Calls cpu p (.allocating np) →
      Did a (.kalloc cpu none) [.forkRet p (-1)]
        ((a.kallocFails np).upd fun t => t.setKCtx p .outside)
  | kalloc {cpu p np kstack} : a.Runs cpu p (.allocating np) →
      Did a (.kalloc cpu (some kstack)) []
        (a.upd fun t =>
          (t.setProc np (Proc.allocprocFields kstack t.ticks)).setKCtx p (.copying np))
  | copyuvmFails {cpu p np} : a.Calls cpu p (.copying np) →
      Did a (.copyuvm cpu none) [.forkRet p (-1)]
        ((a.copyuvmFails np).upd fun t => t.setKCtx p .outside)
  | copyuvm {cpu p np pgdir} : a.Runs cpu p (.copying np) →
      Did a (.copyuvm cpu (some pgdir)) []
        (a.upd fun t => (t.setProc np (Proc.forkFields pgdir p (t.proc p))).setKCtx p (.linking np))
  | forkFinish {cpu p np} : a.Calls cpu p (.linking np) →
      Did a (.forkFinish cpu) [.forkRet p (a.proc np).pid.toInt]
        ((a.forkFinish np).upd fun t => t.setKCtx p .outside)
  | exit {cpu p} : a.Calls cpu p .outside → some p ≠ a.initproc →
      Did a (.exit cpu) [.exited p] (a.exit cpu p)
  | wait {cpu p} : a.Calls cpu p .outside → Did a (.wait cpu) (a.wait cpu p).2 (a.wait cpu p).1
  | scheduler {cpu} : a.lock = none → a.cpuProc cpu = none →
      Did a (.scheduler cpu) ((a.scheduler cpu).1.map Ev.dispatched).toList (a.scheduler cpu).2
  | resume {cpu p} : a.lock = some cpu → a.cpuProc cpu = some p →
      Did a (.resume cpu) (a.resume cpu p).2 (a.resume cpu p).1
  | yield {cpu p k} : a.Calls cpu p k → Did a (.yield cpu) [] (a.yield cpu p)
  | sleep {cpu p ch} : a.Calls cpu p .outside →
      Did a (.sleep cpu ch) [] ((a.sleep cpu p (.addr ch)).upd fun t => t.setKCtx p .asleep)
  | wakeup {ch} : a.lock = none → Did a (.wakeup ch) [] (a.wakeup1 (some (.addr ch)))
  | kill {cpu p pid} : a.Calls cpu p .outside →
      Did a (.kill cpu pid) [.killRet (a.kill pid).1] (a.kill pid).2
  | setpriority {cpu p pid priority} : a.Calls cpu p .outside →
      Did a (.setpriority cpu pid priority) [.setpriorityRet (a.setpriority pid priority).1]
        (a.setpriority pid priority).2
  | trapKill {cpu p} : a.Runs cpu p .outside →
      Did a (.trapKill cpu) [] (a.upd fun t => t.setKilled p)

variable {a : Queues} {p q : Slot} {cpu : Cpu}

/-! ### prioadjust and scheduler -/

theorem decrementOne_reprio (hst : (a.proc p).state = .running ∨ (a.proc p).state = .sleeping) :
    a.toTable.Reprio (decrementOne a p).toTable := by
  unfold decrementOne
  by_cases h : (a.proc p).prio ≠ 0
  · rw [if_pos h]
    exact Table.Reprio.setPrio (Or.inr hst)
  · rw [if_neg h]
    exact Table.Reprio.refl

theorem decrementPrio_reprio
    (hl : ∀ q ∈ a.lists l, (a.proc q).state = .running ∨ (a.proc q).state = .sleeping) :
    a.toTable.Reprio (a.decrementPrio l).toTable := by
  apply List.foldlRecOn (motive := fun b : Queues => a.toTable.Reprio b.toTable)
  · exact Table.Reprio.refl
  · intro b hb q hq
    apply hb.trans
    apply decrementOne_reprio
    rw [hb.state]
    exact hl q hq

variable {f : Slot → KCtx → Next} {is : List (Fin (MAX + 1))} {act : Act} {i : Fin (MAX + 1)}

theorem promote_reprio (ok : a.ListsOk) : a.toTable.Reprio (a.promote i).toTable := by
  unfold promote
  rcases hready : a.lists (.ready i) with _ | ⟨p, rest⟩
  · exact Table.Reprio.refl
  · have hp : p ∈ a.lists (.ready i) := by rw [hready]; simp
    exact Table.Reprio.setPrio (Or.inl (ok.mem_ready.mp hp).1)

theorem prioadjust_reprio (ok : a.ListsOk) : a.toTable.Reprio a.prioadjust.toTable := by
  have ok₁ := ok.decrementPrio (l := .sleep) (by simp)
  have ok₂ := ok₁.decrementPrio (l := .running) (by simp)
  have h₁ : a.toTable.Reprio (a.decrementPrio .sleep).toTable := by
    apply decrementPrio_reprio
    intro q hq
    exact Or.inr (Proc.list_eq_sleep.mp ((ok.mem q _).mp hq))
  have h₂ : (a.decrementPrio .sleep).toTable.Reprio
      ((a.decrementPrio .sleep).decrementPrio .running).toTable := by
    apply decrementPrio_reprio
    intro q hq
    exact Or.inl (Proc.list_eq_running.mp ((ok₁.mem q _).mp hq))
  have h₃ : ((List.finRange (MAX + 1)).tail.foldl promote
      ((a.decrementPrio .sleep).decrementPrio .running)).ListsOk ∧
      ((a.decrementPrio .sleep).decrementPrio .running).toTable.Reprio
        ((List.finRange (MAX + 1)).tail.foldl promote
          ((a.decrementPrio .sleep).decrementPrio .running)).toTable := by
    apply List.foldlRecOn (motive := fun b : Queues => b.ListsOk ∧
      ((a.decrementPrio .sleep).decrementPrio .running).toTable.Reprio b.toTable)
    · exact ⟨ok₂, Table.Reprio.refl⟩
    · rintro b ⟨okb, hb⟩ i hi
      exact ⟨okb.promote (by revert i; decide), hb.trans (promote_reprio okb)⟩
  exact ((h₁.trans h₂).trans h₃.2).trans Table.Reprio.setPromoteAtTime

theorem promoteIfDue_reprio (ok : a.Ok) : a.toTable.Reprio a.promoteIfDue.toTable := by
  unfold promoteIfDue
  by_cases h : a.promoteAtTime ≤ a.ticks
  · rw [if_pos h]
    exact prioadjust_reprio ok.toListsOk
  · rw [if_neg h]
    exact Table.Reprio.refl

/-- The lists before the one that `firstReady` finds are empty. -/
theorem firstReady_min (his : is.Pairwise (· < ·)) (h : a.firstReady is = some (i, p)) :
    ∀ j ∈ is, j < i → a.lists (.ready j) = [] := by
  induction is with
  | nil => simp
  | cons k is ih =>
    obtain ⟨hk, his'⟩ := pairwise_cons.mp his
    unfold firstReady at h
    rcases hlist : a.lists (.ready k) with _ | ⟨q, rest⟩
    · simp only [hlist] at h
      intro j hj hlt
      rcases mem_cons.mp hj with rfl | hj
      · exact hlist
      · exact ih his' h j hj hlt
    · simp only [hlist, Option.some.injEq, Prod.mk.injEq] at h
      obtain ⟨rfl, rfl⟩ := h
      intro j hj hlt
      rcases mem_cons.mp hj with rfl | hj
      · exact absurd hlt (lt_irrefl _)
      · exact absurd (hk j hj) (not_lt.mpr hlt.le)

theorem firstReady_none (h : a.firstReady is = none) : ∀ i ∈ is, a.lists (.ready i) = [] := by
  induction is with
  | nil => simp
  | cons k is ih =>
    unfold firstReady at h
    rcases hlist : a.lists (.ready k) with _ | ⟨q, rest⟩
    · simp only [hlist] at h
      intro i hi
      rcases mem_cons.mp hi with rfl | hi
      · exact hlist
      · exact ih h i hi
    · simp [hlist] at h

theorem scheduler_step (ok : a.Ok) (hlock : a.lock = none) (hcpu : a.cpuProc cpu = none) :
    a.toTable.Step (.scheduler cpu) ((a.scheduler cpu).1.map Ev.dispatched).toList
      (a.scheduler cpu).2.toTable := by
  have okb := ok.promoteIfDue
  have hre := promoteIfDue_reprio ok
  unfold scheduler
  rcases hfirst : a.promoteIfDue.firstReady (List.finRange (MAX + 1)) with _ | ⟨i, p⟩
  · apply Table.Step.idle hlock hcpu hre
    intro q hq
    rw [← hre.state] at hq
    have hmem := (okb.mem q _).mpr (Proc.list_eq_ready.mpr ⟨hq, rfl⟩)
    rw [firstReady_none hfirst _ (mem_finRange _)] at hmem
    simp at hmem
  · obtain ⟨rest, hrest⟩ := firstReady_mem hfirst
    have hhead : p ∈ a.promoteIfDue.lists (.ready i) := by rw [hrest]; simp
    have hp := okb.toListsOk.mem_ready.mp hhead
    have hstep := Table.Step.dispatch (p := p) hlock hcpu hre (by rw [← hre.state]; exact hp.1) (by
      intro q hq
      rw [← hre.state] at hq
      have hmem := (okb.mem q _).mpr (Proc.list_eq_ready.mpr ⟨hq, rfl⟩)
      have hprio := okb.prio q hq
      rw [hp.2, ← readyIx_val hprio.1 hprio.2]
      by_contra hlt
      have hlt' : readyIx (a.promoteIfDue.proc q).prio < i := by
        apply Fin.lt_def.mpr
        omega
      rw [firstReady_min (pairwise_lt_finRange _) hfirst _ (mem_finRange _) hlt'] at hmem
      simp at hmem)
    simpa [dispatch, shiftHead, Table.dispatch, Table.setProc] using hstep

/-! ### wait -/

theorem isChild_iff : a.isChild p q = true ↔ (a.proc q).parent = some p := by simp [isChild]

theorem haveKids_iff (ok : a.ListsOk) :
    a.haveKids p = true ↔ ∃ q, ((a.proc q).state ≠ .unused ∧ (a.proc q).state ≠ .zombie) ∧
      (a.proc q).parent = some p := by
  unfold haveKids
  simp only [any_eq_true, isChild_iff, ← mem_childLists ok, mem_flatMap]
  constructor
  · rintro ⟨l, hl, q, hq, hc⟩
    exact ⟨q, ⟨l, hl, hq⟩, hc⟩
  · rintro ⟨q, ⟨l, hl, hq⟩, hc⟩
    exact ⟨l, hl, q, hq, hc⟩

theorem wait_table (ok : a.Ok) :
    Table.WaitPass cpu p a.toTable (a.wait cpu p).2 (a.wait cpu p).1.toTable := by
  have hzombie : ∀ z, z ∈ a.lists .zombie ↔ (a.proc z).state = .zombie := by
    intro z
    rw [ok.mem, Proc.list_eq_zombie]
  unfold wait waitPass
  cases hfind : (a.lists .zombie).find? (a.isChild p) with
  | some q =>
    have hstep : Table.WaitPass cpu p a.toTable _ _ := .reaped
      ((hzombie q).mp (mem_of_find?_eq_some hfind)) (isChild_iff.mp (find?_some hfind))
    simpa [reap, shiftHead, Table.reap, Table.setProc] using hstep
  | none =>
    have hno : ¬ a.HasZombie p := by
      rintro ⟨z, hz, hc⟩
      exact find?_eq_none.mp hfind z ((hzombie z).mpr hz) (isChild_iff.mpr hc)
    by_cases h : (!a.haveKids p || (a.proc p).killed) = true
    · simp only [if_pos h]
      apply Table.WaitPass.failed hno
      rcases Bool.or_eq_true_iff.mp h with hkids | hkilled
      · left
        intro q hq hc
        have hkids' : a.haveKids p = true := by
          rw [haveKids_iff ok.toListsOk]
          exact ⟨q, ⟨hq, fun hz => hno ⟨q, hz, hc⟩⟩, hc⟩
        simp [hkids'] at hkids
      · exact Or.inr hkilled
    · simp only [if_neg h]
      have hstep : Table.WaitPass cpu p a.toTable _ _ := .sleeps hno
      simpa [sleep, shiftHead, Table.sleep, Table.setProc] using hstep

/-! ### kill and setpriority -/

theorem kill_step (ok : a.Ok) (hcall : a.Calls cpu p .outside) :
    a.toTable.Step (.kill cpu pid) [.killRet (a.kill pid).1] (a.kill pid).2.toTable := by
  unfold kill
  rcases hs : a.search (a.hasPid pid) (readyLists ++ [.running, .embryo, .zombie]) with _ | ⟨l, q⟩
  · simp only [hs]
    cases hfind : (a.lists .sleep).find? (a.hasPid pid) with
    | none =>
      apply Table.Step.killMiss hcall
      intro q hq hpid
      have hlist := (ok.mem q (a.proc q).list).mpr rfl
      by_cases hsleep : (a.proc q).state = .sleeping
      · rw [Proc.list_eq_sleep.mpr hsleep] at hlist
        exact find?_eq_none.mp hfind q hlist (hasPid_iff.mpr hpid)
      · have hin : (a.proc q).list ∈ readyLists ++ [.running, .embryo, .zombie] := by
          unfold Proc.list
          cases hst : (a.proc q).state with
          | unused => exact absurd hst hq
          | sleeping => exact absurd hst hsleep
          | runnable => simp [readyLists]
          | running => simp
          | embryo => simp
          | zombie => simp
        have := search_none hs _ hin q hlist
        rw [hasPid_iff.mpr hpid] at this
        simp at this
    | some q =>
      have hst : (a.proc q).state = .sleeping :=
        Proc.list_eq_sleep.mp ((ok.mem q .sleep).mp (mem_of_find?_eq_some hfind))
      have hstep := Table.Step.kill (q := q) hcall (by simp [hst])
        (hasPid_iff.mp (find?_some hfind))
      simpa [wake, shiftReady, enqueue, Table.kill, Table.setProc, hst] using hstep
  · simp only [hs]
    obtain ⟨hl, hq, hpid⟩ := search_mem hs
    have hlist := (ok.mem q l).mp hq
    have hst : (a.proc q).state ≠ .unused ∧ (a.proc q).state ≠ .sleeping := by
      constructor
      · intro hcon
        rw [← hlist, Proc.list_eq_free.mpr hcon] at hl
        simp [readyLists] at hl
      · intro hcon
        rw [← hlist, Proc.list_eq_sleep.mpr hcon] at hl
        simp [readyLists] at hl
    have hstep := Table.Step.kill (q := q) hcall hst.1 (hasPid_iff.mp hpid)
    simpa [Table.kill, Table.setProc, hst.2] using hstep

theorem setpriority_step (ok : a.Ok) (hcall : a.Calls cpu p .outside) :
    a.toTable.Step (.setpriority cpu pid priority) [.setpriorityRet (a.setpriority pid priority).1]
      (a.setpriority pid priority).2.toTable := by
  have hdid := ok.toListsOk.reprioritises pid priority
  generalize a.setpriority pid priority = r at hdid
  obtain ⟨rc, b⟩ := r
  cases hdid with
  | refused | missed => exact .setpriorityMiss hcall
  | stays _ _ hpid hst =>
    have hkeep := @Table.Step.setpriority _ cpu _ _ priority _ id hcall (Or.inl hst) hpid
      (Or.inl rfl)
    simpa [Table.setProc] using hkeep
  | moves _ _ hpid hq =>
    exact .setpriority hcall (Or.inl (ok.toListsOk.mem_ready.mp hq).1) hpid (Or.inr rfl)
  | assigned _ _ hpid hst => exact .setpriority hcall (Or.inr hst) hpid (Or.inr rfl)

/-! ### All steps -/

variable {r : Queues × List Ev}

theorem unlocked_eq_some (h : a.unlocked cpu f = some r) :
    ∃ p, a.Runs cpu p (a.kctx p) ∧ f p (a.kctx p) = some r := by
  unfold unlocked at h
  by_cases hlock : a.lock = some cpu
  · simp [hlock] at h
  · rw [if_neg hlock] at h
    cases hcpu : a.cpuProc cpu with
    | none => simp [hcpu] at h
    | some p =>
      simp only [hcpu] at h
      exact ⟨p, ⟨hlock, hcpu, rfl⟩, h⟩

theorem locked_eq_some (h : a.locked cpu f = some r) :
    ∃ p, a.Calls cpu p (a.kctx p) ∧ f p (a.kctx p) = some r := by
  unfold locked at h
  by_cases hlock : a.lock = none
  · rw [if_pos hlock] at h
    obtain ⟨p, hruns, hf⟩ := unlocked_eq_some h
    exact ⟨p, ⟨hruns, hlock⟩, hf⟩
  · simp [hlock] at h

theorem syscall_eq_some {f : Slot → Next} (h : a.syscall cpu f = some r) :
    ∃ p, a.Calls cpu p .outside ∧ f p = some r := by
  obtain ⟨p, hcall, hf⟩ := locked_eq_some h
  by_cases hk : a.kctx p = .outside
  · rw [if_pos hk] at hf
    exact ⟨p, hk ▸ hcall, hf⟩
  · simp [hk] at hf

theorem step_did (h : a.step act = some r) : a.Did act r.2 r.1 := by
  cases act with
  | tick =>
    cases h
    exact .tick
  | allocproc cpu =>
    obtain ⟨p, hcall, hf⟩ := syscall_eq_some h
    rcases hfree : a.lists .free with _ | ⟨np, rest⟩
    · simp only [allocproc, hfree, Option.some.injEq] at hf
      subst hf
      exact .noSlot hcall hfree
    · have hdid := Did.allocproc hcall hfree
      simp only [allocproc, hfree, Option.some.injEq] at hf hdid
      rwa [← hf]
  | kalloc cpu kstack =>
    cases kstack with
    | none =>
      obtain ⟨p, hcall, hf⟩ := locked_eq_some h
      cases hk : a.kctx p with
      | allocating np =>
        rw [hk] at hcall hf
        cases hf
        exact .kallocFails hcall
      | _ => simp [hk] at hf
    | some kstack =>
      simp only [step] at h
      obtain ⟨p, hruns, hf⟩ := unlocked_eq_some h
      cases hk : a.kctx p with
      | allocating np =>
        rw [hk] at hruns hf
        cases hf
        exact .kalloc hruns
      | _ => simp [hk] at hf
  | copyuvm cpu pgdir =>
    cases pgdir with
    | none =>
      obtain ⟨p, hcall, hf⟩ := locked_eq_some h
      cases hk : a.kctx p with
      | copying np =>
        rw [hk] at hcall hf
        cases hf
        exact .copyuvmFails hcall
      | _ => simp [hk] at hf
    | some pgdir =>
      simp only [step] at h
      obtain ⟨p, hruns, hf⟩ := unlocked_eq_some h
      cases hk : a.kctx p with
      | copying np =>
        rw [hk] at hruns hf
        cases hf
        exact .copyuvm hruns
      | _ => simp [hk] at hf
  | forkFinish cpu =>
    obtain ⟨p, hcall, hf⟩ := locked_eq_some h
    cases hk : a.kctx p with
    | linking np =>
      rw [hk] at hcall hf
      cases hf
      exact .forkFinish hcall
    | _ => simp [hk] at hf
  | exit cpu =>
    obtain ⟨p, hcall, hf⟩ := syscall_eq_some h
    by_cases hinit : some p = a.initproc
    · simp [hinit] at hf
    · rw [if_neg hinit] at hf
      cases hf
      exact .exit hcall hinit
  | wait cpu =>
    obtain ⟨p, hcall, hf⟩ := syscall_eq_some h
    cases hf
    exact .wait hcall
  | scheduler cpu =>
    simp only [step] at h
    by_cases hidle : a.lock = none ∧ a.cpuProc cpu = none
    · rw [if_pos hidle] at h
      cases h
      exact .scheduler hidle.1 hidle.2
    · simp [hidle] at h
  | resume cpu =>
    simp only [step] at h
    by_cases hlock : a.lock = some cpu
    · rw [if_pos hlock] at h
      cases hcpu : a.cpuProc cpu with
      | none => simp [hcpu] at h
      | some p =>
        simp only [hcpu, Option.some.injEq] at h
        subst h
        exact .resume hlock hcpu
    · simp [hlock] at h
  | yield cpu =>
    obtain ⟨p, hcall, hf⟩ := locked_eq_some h
    cases hf
    exact .yield hcall
  | sleep cpu ch =>
    obtain ⟨p, hcall, hf⟩ := syscall_eq_some h
    cases hf
    exact .sleep hcall
  | wakeup ch =>
    simp only [step] at h
    by_cases hlock : a.lock = none
    · rw [if_pos hlock] at h
      cases h
      exact .wakeup hlock
    · simp [hlock] at h
  | kill cpu pid =>
    obtain ⟨p, hcall, hf⟩ := syscall_eq_some h
    cases hf
    exact .kill hcall
  | setpriority cpu pid priority =>
    obtain ⟨p, hcall, hf⟩ := syscall_eq_some h
    cases hf
    exact .setpriority hcall
  | trapKill cpu =>
    simp only [step] at h
    obtain ⟨p, hruns, hf⟩ := unlocked_eq_some h
    by_cases hk : a.kctx p = .outside
    · rw [if_pos hk] at hf
      cases hf
      exact .trapKill (hk ▸ hruns)
    · simp [hk] at hf

theorem resume_step (ok : a.Ok) (hlock : a.lock = some cpu) (hcpu : a.cpuProc cpu = some p) :
    a.toTable.Step (.resume cpu) (a.resume cpu p).2 (a.resume cpu p).1.toTable := by
  have okc : (a.upd fun t => t.setChan p none).Ok := ok.setProc (fun _ => rfl) fun _ => rfl
  unfold resume
  cases hk : a.kctx p with
  | asleep => exact .resumeAsleep hlock hcpu hk
  | asleepInWait => exact .resumeInWait hlock hcpu hk (wait_table okc)
  | outside => exact .resume hlock hcpu (by simp [hk]) (by simp [hk])
  | allocating np => exact .resume hlock hcpu (by simp [hk]) (by simp [hk])
  | copying np => exact .resume hlock hcpu (by simp [hk]) (by simp [hk])
  | linking np => exact .resume hlock hcpu (by simp [hk]) (by simp [hk])

theorem Did.table_step (ok : a.Ok) (h : a.Did act ev b) : a.toTable.Step act ev b.toTable := by
  cases h with
  | tick => exact .tick
  | noSlot hcall hfree =>
    apply Table.Step.noSlot hcall
    intro q hq
    have hmem := (ok.mem q .free).mpr (Proc.list_eq_free.mpr hq)
    simp [hfree] at hmem
  | @allocproc cpu p np rest hcall hfree =>
    have hnp : (a.proc np).state = .unused :=
      Proc.list_eq_free.mp ((ok.mem np .free).mp (by rw [hfree]; simp))
    have hstep : a.toTable.Step (.allocproc cpu) _ _ := .allocproc hcall hnp
    simpa [Queues.allocproc, hfree, shiftHead, Table.allocproc, Table.setProc] using hstep
  | @kallocFails cpu p np hcall =>
    have hstep : a.toTable.Step (.kalloc cpu none) _ _ := .kallocFails hcall
    simpa [Queues.kallocFails, freeEmbryo, shiftHead, Table.kallocFails, Table.setProc] using hstep
  | kalloc hruns => exact .kalloc hruns
  | @copyuvmFails cpu p np hcall =>
    have hstep : a.toTable.Step (.copyuvm cpu none) _ _ := .copyuvmFails hcall
    simpa [Queues.copyuvmFails, freeEmbryo, shiftHead, Table.copyuvmFails, Table.setProc]
      using hstep
  | copyuvm hruns => exact .copyuvm hruns
  | forkFinish hcall => exact .forkFinish hcall
  | exit hcall hinit =>
    rw [exit_toTable ok]
    exact .exit hcall hinit
  | wait hcall => exact .wait hcall (wait_table ok)
  | scheduler hlock hcpu => exact scheduler_step ok hlock hcpu
  | resume hlock hcpu => exact resume_step ok hlock hcpu
  | yield hcall => exact .yield hcall
  | @sleep cpu p ch hcall =>
    have hstep : a.toTable.Step (.sleep cpu ch) _ _ := .sleep hcall
    simpa [Queues.sleep, shiftHead, Table.sleep, Table.setProc] using hstep
  | wakeup hlock =>
    rw [wakeup1_toTable ok.toListsOk]
    exact .wakeup hlock
  | kill hcall => exact kill_step ok hcall
  | setpriority hcall => exact setpriority_step ok hcall
  | trapKill hruns => exact .trapKill hruns

theorem table_step (ok : a.Ok) (h : a.step act = some r) :
    a.toTable.Step act r.2 r.1.toTable := (step_did h).table_step ok

end Queues

end Xv6Kernel
