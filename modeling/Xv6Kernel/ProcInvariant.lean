/-
  ProcInvariant.lean
  ==================
  The invariants of the process table.

  `Table.KernelOk` says that the state of a process agrees with where it stands in the
  kernel, and `Queues.Inv` adds to it that the lists are in order.  Both hold in every
  state of the list model; that the pointer model has the same states is shown in
  `ProcRefinement`.
-/
import Xv6Kernel.ProcStep

namespace Xv6Kernel

open Function

/-- The slot that a process in `fork` has taken. -/
def KCtx.child : KCtx → Option Slot
  | .allocating np => some np
  | .copying np => some np
  | .linking np => some np
  | _ => none

namespace Table

/-- The state of a process agrees with what it is doing.  A process that runs on a CPU
    is RUNNING; the slot taken by a process in `fork` is an EMBRYO that no other process
    has taken, and that process has not gone to sleep or exited; from `kalloc` on its
    priority is 0. -/
structure KernelOk (t : Table) : Prop where
  onCpu : ∀ cpu p, t.cpuProc cpu = some p → (t.proc p).state = .running
  cpu_inj : ∀ cpu cpu' p, t.cpuProc cpu = some p → t.cpuProc cpu' = some p → cpu = cpu'
  forking : ∀ p np, (t.kctx p).child = some np → (t.proc np).state = .embryo ∧
    ((t.proc p).state = .running ∨ (t.proc p).state = .runnable)
  child_inj : ∀ p q np, (t.kctx p).child = some np → (t.kctx q).child = some np → p = q
  fresh : ∀ p np, t.kctx p = .copying np ∨ t.kctx p = .linking np → (t.proc np).prio = 0
  sleeping : ∀ p, (t.proc p).state = .sleeping → t.kctx p = .asleep ∨ t.kctx p = .asleepInWait
  idle : ∀ p, (t.proc p).state = .unused ∨ (t.proc p).state = .embryo ∨
    (t.proc p).state = .zombie → t.kctx p = .outside

/-! ### Effect of the operations on the states -/

variable {t t' : Table} {p q np : Slot} {cpu : Cpu} {k : KCtx}

theorem leaveCpu_state : ((t.leaveCpu cpu p).proc q).state = (t.proc q).state := by
  by_cases hq : q = p
  · subst hq; simp [leaveCpu, Proc.schedTicks]
  · simp [leaveCpu, hq]

theorem sleep_state :
    ((t.sleep cpu p chan).proc q).state = if q = p then .sleeping else (t.proc q).state := by
  rw [sleep, leaveCpu_state]
  by_cases hq : q = p
  · subst hq; simp [Proc.budgetupdate_state]
  · simp [hq]

theorem yield_state :
    ((t.yield cpu p).proc q).state = if q = p then .runnable else (t.proc q).state := by
  rw [yield, leaveCpu_state]
  by_cases hq : q = p
  · subst hq; simp [Proc.budgetupdate_state]
  · simp [hq]

theorem wakeup1_state : ((t.wakeup1 chan).proc q).state =
      if (t.proc q).state = .sleeping ∧ (t.proc q).chan = chan then .runnable
      else (t.proc q).state := by
  rw [wakeup1_proc]
  by_cases h : (t.proc q).state = .sleeping ∧ (t.proc q).chan = chan
  · simp [h]
  · simp [h]

theorem passToInit_state [DecidablePred P] :
    ((t.passToInit p P).proc q).state = (t.proc q).state := by
  rw [passToInit_proc]
  by_cases h : P q ∧ (t.proc q).parent = some p
  · simp [h]
  · simp [h]

/-- The processes that an exiting process wakes are the only ones whose state changes
    before its own. -/
theorem handOver_state : ((t.handOver p).proc q).state = (t.proc q).state ∨
    (t.proc q).state = .sleeping ∧ ((t.handOver p).proc q).state = .runnable := by
  unfold handOver abandon
  by_cases hz : (t.wakeup1 ((t.proc p).parent.map Chan.proc)).HasZombie p
  · rw [if_pos hz, wakeup1_state, passToInit_state, wakeup1_state]
    split_ifs <;> simp_all
  · rw [if_neg hz, passToInit_state, wakeup1_state]
    split_ifs <;> simp_all

/-- A field that neither a wakeup nor a new parent touches survives `handOver`. -/
theorem handOver_field {f : Proc → α} (hstate : ∀ r st, f { r with state := st } = f r)
    (hparent : ∀ r o, f { r with parent := o } = f r) :
    f ((t.handOver p).proc q) = f (t.proc q) := by
  have hwake : ∀ (u : Table) chan, f ((u.wakeup1 chan).proc q) = f (u.proc q) := by
    intro u chan
    rw [wakeup1_proc]
    split_ifs
    · exact hstate _ _
    · rfl
  have hpass : ∀ (u : Table) (P : Slot → Prop) [DecidablePred P],
      f ((u.passToInit p P).proc q) = f (u.proc q) := by
    intro u P _
    rw [passToInit_proc]
    split_ifs
    · exact hparent _ _
    · rfl
  unfold handOver abandon
  by_cases hz : (t.wakeup1 ((t.proc p).parent.map Chan.proc)).HasZombie p
  · rw [if_pos hz, hwake, hpass, hwake]
  · rw [if_neg hz, hpass, hwake]

/-- Nothing but the slots changes. -/
theorem handOver_frame : t.handOver p = { t with proc := (t.handOver p).proc } := by
  unfold handOver abandon
  split_ifs <;> rfl

theorem handOver_cpuProc : (t.handOver p).cpuProc = t.cpuProc := by rw [handOver_frame]

theorem handOver_kctx : (t.handOver p).kctx = t.kctx := by rw [handOver_frame]

namespace KernelOk

variable (ok : t.KernelOk)

include ok

/-- Wakeups, and steps that leave the states alone. -/
theorem wakes (hst : ∀ q, (t'.proc q).state = (t.proc q).state ∨
      (t.proc q).state = .sleeping ∧ (t'.proc q).state = .runnable)
    (hprio : ∀ q, (t.proc q).state = .embryo → (t'.proc q).prio = (t.proc q).prio)
    (hcpu : t'.cpuProc = t.cpuProc) (hk : t'.kctx = t.kctx) : t'.KernelOk := by
  obtain ⟨onCpu, cpu_inj, forking, child_inj, fresh, sleeping, idle⟩ := ok
  constructor <;> simp only [hcpu, hk] <;> grind [KCtx.child]

/-- The CPU goes back to the scheduler. -/
theorem clearCpu (cpu : Cpu) : (t.setCpu cpu none).KernelOk := by
  obtain ⟨onCpu, cpu_inj, forking, child_inj, fresh, sleeping, idle⟩ := ok
  constructor <;> simp only [setCpu_proc, setCpu_kctx, setCpu_cpuProc, update_apply] <;>
    grind

/-- A RUNNING process goes to another place in the kernel. -/
theorem setKCtx (hst : (t.proc p).state = .running)
    (hchild : ∀ np, k.child = some np → (t.proc np).state = .embryo ∧
      (k = .copying np ∨ k = .linking np → (t.proc np).prio = 0) ∧
      ∀ q, (t.kctx q).child = some np → q = p) : (t.setKCtx p k).KernelOk := by
  obtain ⟨onCpu, cpu_inj, forking, child_inj, fresh, sleeping, idle⟩ := ok
  constructor <;> simp only [setKCtx_proc, setKCtx_kctx, setKCtx_cpuProc, update_apply] <;>
    grind [KCtx.child]

/-- A slot changes its state while it is on no CPU and no process in `fork` has taken it. -/
theorem moves (hcpu : ∀ c, t.cpuProc c ≠ some p) (hfree : ∀ q, (t.kctx q).child ≠ some p)
    (hother : ∀ q, q ≠ p → (t'.proc q).state = (t.proc q).state ∧
      (t'.proc q).prio = (t.proc q).prio)
    (hcpu' : t'.cpuProc = t.cpuProc) (hkctx : t'.kctx = t.kctx) (hk : match (t'.proc p).state with
      | .unused | .embryo | .zombie => t.kctx p = .outside
      | .sleeping => t.kctx p = .asleep ∨ t.kctx p = .asleepInWait
      | .runnable | .running => True) : t'.KernelOk := by
  obtain ⟨onCpu, cpu_inj, forking, child_inj, fresh, sleeping, idle⟩ := ok
  constructor <;> simp only [hcpu', hkctx] <;> grind [KCtx.child]

/-- A process that is on no CPU is put on one. -/
theorem setCpu (cpu : Cpu) (hst : (t.proc p).state = .running)
    (hp : ∀ c, t.cpuProc c ≠ some p) : (t.setCpu cpu (some p)).KernelOk := by
  obtain ⟨onCpu, cpu_inj, forking, child_inj, fresh, sleeping, idle⟩ := ok
  constructor <;> simp only [setCpu_proc, setCpu_kctx, setCpu_cpuProc, update_apply] <;>
    grind

theorem congr (hst : ∀ q, (t'.proc q).state = (t.proc q).state)
    (hprio : ∀ q, (t.proc q).state = .embryo → (t'.proc q).prio = (t.proc q).prio)
    (hcpu : t'.cpuProc = t.cpuProc) (hk : t'.kctx = t.kctx) : t'.KernelOk :=
  ok.wakes (fun q => Or.inl (hst q)) hprio hcpu hk

/-- A place in the kernel from which no slot has been taken. -/
theorem setKCtx_none (hst : (t.proc p).state = .running) (hk : k.child = none) :
    (t.setKCtx p k).KernelOk := by
  apply ok.setKCtx hst
  intro np hnp
  simp [hk] at hnp

/-! A process whose state is not RUNNING is on no CPU, and one that is not an EMBRYO has
not been taken. -/

theorem not_onCpu (hst : (t.proc p).state ≠ .running) (c : Cpu) :
    t.cpuProc c ≠ some p := fun h => hst (ok.onCpu c p h)

theorem not_taken (hst : (t.proc p).state ≠ .embryo) (q : Slot) :
    (t.kctx q).child ≠ some p := fun h => hst (ok.forking q p h).1

theorem clearCpu_not_onCpu (hcpu : t.cpuProc cpu = some p) (c : Cpu) :
    (t.setCpu cpu none).cpuProc c ≠ some p := by
  rw [setCpu_cpuProc]
  by_cases hc : c = cpu
  · subst hc; simp
  · rw [update_of_ne hc]
    exact fun h => hc (ok.cpu_inj c cpu p h hcpu)

/-- A process in `fork` that gives its slot up, or hands it over. -/
theorem endFork (hruns : t.Runs cpu p k) (hk : k.child = some np) :
    (t.setKCtx p .outside).KernelOk ∧ (∀ q, ((t.setKCtx p .outside).kctx q).child ≠ some np) := by
  refine ⟨ok.setKCtx_none (ok.onCpu cpu p hruns.cpu) rfl, ?_⟩
  intro q hq
  rw [setKCtx_kctx] at hq
  by_cases hqp : q = p
  · subst hqp
    simp [KCtx.child] at hq
  · rw [update_of_ne hqp] at hq
    exact hqp (ok.child_inj q p np hq (by rw [hruns.kctx, hk]))

/-! ### Each step -/

theorem allocproc (hruns : t.Runs cpu p .outside) (hnp : (t.proc np).state = .unused) :
    ((t.allocproc np).setKCtx p (.allocating np)).KernelOk := by
  have hp : (t.proc p).state = .running := ok.onCpu cpu p hruns.cpu
  have hne : p ≠ np := by
    rintro rfl
    simp [hp] at hnp
  have ok₁ : (t.allocproc np).KernelOk := by
    apply ok.moves (p := np) (ok.not_onCpu (by simp [hnp])) (ok.not_taken (by simp [hnp]))
    · intro q hq
      simp [Table.allocproc, hq]
    · rfl
    · rfl
    · simpa [Table.allocproc] using ok.idle np (Or.inl hnp)
  apply ok₁.setKCtx
  · simpa [Table.allocproc, hne] using hp
  · intro np' hnp'
    obtain rfl : np = np' := Option.some.inj hnp'
    refine ⟨by simp [Table.allocproc], by simp, ?_⟩
    intro q hq
    exact absurd hq (ok.not_taken (by simp [hnp]) q)

/-- The ways in which `fork` ends: the slot goes to a state other than EMBRYO. -/
theorem endFork_moves (hruns : t.Runs cpu p k) (hk : k.child = some np)
    (hf : (f (t.proc np)).state = .unused ∨ (f (t.proc np)).state = .runnable) :
    ((t.setProc np f).setKCtx p .outside).KernelOk := by
  obtain ⟨ok₁, hfree⟩ := ok.endFork hruns hk
  have hnp : (t.proc np).state = .embryo := (ok.forking p np (by rw [hruns.kctx, hk])).1
  have hp : (t.proc p).state = .running := ok.onCpu cpu p hruns.cpu
  have hne : np ≠ p := by
    rintro rfl
    simp [hp] at hnp
  apply ok₁.moves (p := np) (ok₁.not_onCpu (by simp [hnp])) hfree
  · intro q hq
    simp [hq]
  · rfl
  · rfl
  · have hidle := ok.idle np (Or.inr (Or.inl hnp))
    simp only [setKCtx_proc, setProc_proc, update_self, setKCtx_kctx, update_of_ne hne]
    rcases hf with hf | hf
    · simp [hf, hidle]
    · simp [hf]

theorem kalloc (hruns : t.Runs cpu p (.allocating np)) :
    ((t.setProc np (Proc.allocprocFields kstack t.ticks)).setKCtx p (.copying np)).KernelOk := by
  obtain ⟨ok₁, hfree⟩ := ok.endFork hruns rfl
  have hnp : (t.proc np).state = .embryo := (ok.forking p np (by rw [hruns.kctx]; rfl)).1
  have hp : (t.proc p).state = .running := ok.onCpu cpu p hruns.cpu
  have hne : np ≠ p := by
    rintro rfl
    simp [hp] at hnp
  have ok₂ : ((t.setKCtx p .outside).setProc np
      (Proc.allocprocFields kstack t.ticks)).KernelOk := by
    apply ok₁.moves (p := np) (ok₁.not_onCpu (by simp [hnp])) hfree
    · intro q hq
      simp [hq]
    · rfl
    · rfl
    · simpa [Proc.allocprocFields, hnp, hne] using ok.idle np (Or.inr (Or.inl hnp))
  have ok₃ := ok₂.setKCtx (p := p) (k := .copying np) (by simpa [hne.symm] using hp) (by
    intro np' hnp'
    obtain rfl : np = np' := Option.some.inj hnp'
    exact ⟨by simpa [Proc.allocprocFields] using hnp, fun _ => by simp [Proc.allocprocFields],
      fun q hq => absurd hq (hfree q)⟩)
  refine ok₃.congr ?_ ?_ rfl ?_
  · exact fun _ => rfl
  · exact fun _ _ => rfl
  · simp

theorem copyuvm (hruns : t.Runs cpu p (.copying np)) :
    ((t.setProc np (Proc.forkFields pgdir p (t.proc p))).setKCtx p (.linking np)).KernelOk := by
  obtain ⟨hnp, -⟩ := ok.forking p np (by rw [hruns.kctx]; rfl)
  have hst : ∀ q, ((t.setProc np (Proc.forkFields pgdir p (t.proc p))).proc q).state =
      (t.proc q).state ∧ ((t.setProc np (Proc.forkFields pgdir p (t.proc p))).proc q).prio =
      (t.proc q).prio := by
    intro q
    by_cases hq : q = np
    · subst hq; simp [Proc.forkFields]
    · simp [hq]
  have ok₁ := ok.congr (fun q => (hst q).1) (fun q _ => (hst q).2) rfl rfl
  apply ok₁.setKCtx
  · rw [(hst p).1]
    exact ok.onCpu cpu p hruns.cpu
  · intro np' hnp'
    obtain rfl : np = np' := Option.some.inj hnp'
    refine ⟨by rw [(hst np).1, hnp], fun _ => ?_, ?_⟩
    · rw [(hst np).2]
      exact ok.fresh p np (Or.inl hruns.kctx)
    · intro q hq
      exact ok.child_inj q p np hq (by rw [hruns.kctx]; rfl)

theorem handOver : (t.handOver p).KernelOk := by
  apply ok.wakes
  · exact fun q => handOver_state
  · exact fun q _ => handOver_field (f := Proc.prio) (fun _ _ => rfl) fun _ _ => rfl
  · exact handOver_cpuProc
  · exact handOver_kctx

theorem exit (hruns : t.Runs cpu p .outside) : (t.exit cpu p).KernelOk := by
  have ok₁ : (t.handOver p).KernelOk := ok.handOver
  have hcpu : (t.handOver p).cpuProc cpu = some p := by rw [handOver_cpuProc, hruns.cpu]
  have hp : ((t.handOver p).proc p).state = .running := ok₁.onCpu cpu p hcpu
  have ok₂ : ((t.handOver p).setCpu cpu none).KernelOk := ok₁.clearCpu cpu
  apply ok₂.moves (p := p) (ok₁.clearCpu_not_onCpu hcpu) (ok₂.not_taken (by simp [hp]))
  · intro q hq
    simp [Table.exit, leaveCpu, hq]
  · simp [Table.exit, leaveCpu]
  · simp [Table.exit, leaveCpu]
  · simpa [Table.exit, leaveCpu, Proc.schedTicks, handOver_kctx] using hruns.kctx

theorem sleep (hcpu : t.cpuProc cpu = some p)
    (hk : k = .asleep ∨ k = .asleepInWait) : ((t.sleep cpu p chan).setKCtx p k).KernelOk := by
  have hp : (t.proc p).state = .running := ok.onCpu cpu p hcpu
  have ok₁ := (ok.clearCpu cpu).setKCtx_none (p := p) (k := k) hp (by
    rcases hk with rfl | rfl <;> rfl)
  apply ok₁.moves (p := p) (ok.clearCpu_not_onCpu hcpu) (ok₁.not_taken (by simp [hp]))
  · intro q hq
    simp [Table.sleep, leaveCpu, hq]
  · rfl
  · rfl
  · rw [setKCtx_proc, sleep_state, if_pos rfl]
    simpa using hk

theorem yield (hcpu : t.cpuProc cpu = some p) : (t.yield cpu p).KernelOk := by
  have hp : (t.proc p).state = .running := ok.onCpu cpu p hcpu
  have ok₁ := ok.clearCpu cpu
  apply ok₁.moves (p := p) (ok.clearCpu_not_onCpu hcpu) (ok₁.not_taken (by simp [hp]))
  · intro q hq
    simp [Table.yield, leaveCpu, hq]
  · rfl
  · rfl
  · rw [yield_state, if_pos rfl]
    trivial

theorem reprio (hre : t.Reprio t') : t'.KernelOk := by
  apply ok.congr hre.state
  · intro q hq
    rw [hre.idle q (by simp [hq]) (by simp [hq]) (by simp [hq])]
  · rw [hre.frame]
  · rw [hre.frame]

theorem dispatch (hp : (t.proc p).state = .runnable) : (t.dispatch cpu p).KernelOk := by
  have hno := ok.not_onCpu (p := p) (by simp [hp])
  have ok₁ :
      (t.setProc p fun r => { r with state := .running, cpuTicksIn := t.ticks }).KernelOk := by
    apply ok.moves (p := p) hno (ok.not_taken (by simp [hp]))
    · intro q hq
      simp [hq]
    · rfl
    · rfl
    · simp
  have ok₂ := ok₁.setCpu cpu (p := p) (by simp) hno
  exact ok₂.congr (fun _ => rfl) (fun _ _ => rfl) rfl rfl

theorem waitPass (hcpu : t.cpuProc cpu = some p) (h : WaitPass cpu p t ev t') : t'.KernelOk := by
  have hp : (t.proc p).state = .running := ok.onCpu cpu p hcpu
  cases h with
  | @reaped q hz hparent =>
    have hne : p ≠ q := by
      rintro rfl
      simp [hp] at hz
    have ok₁ : (t.reap q).KernelOk := by
      apply ok.moves (p := q) (ok.not_onCpu (by simp [hz])) (ok.not_taken (by simp [hz]))
      · intro r hr
        simp [reap, hr]
      · rfl
      · rfl
      · simpa [reap, Proc.reapFields] using ok.idle q (Or.inr (Or.inr hz))
    have ok₂ := ok₁.setKCtx_none (p := p) (k := .outside) (by simpa [reap, hne] using hp) rfl
    exact ok₂.congr (fun _ => rfl) (fun _ _ => rfl) rfl rfl
  | failed _ _ =>
    exact (ok.setKCtx_none hp rfl).congr (fun _ => rfl) (fun _ _ => rfl) rfl rfl
  | sleeps _ => exact ok.sleep hcpu (Or.inr rfl)

theorem setProc (hst : (f (t.proc p)).state = (t.proc p).state)
    (hprio : (t.proc p).state = .embryo → (f (t.proc p)).prio = (t.proc p).prio) :
    (t.setProc p f).KernelOk := by
  refine ok.congr ?_ ?_ rfl rfl
  · intro q
    by_cases hq : q = p
    · subst hq; simpa using hst
    · simp [hq]
  · intro q hemb
    by_cases hq : q = p
    · subst hq; simpa using hprio hemb
    · simp [hq]

theorem step (h : t.Step act ev t') : t'.KernelOk := by
  cases h with
  | tick => exact ok.congr (fun _ => rfl) (fun _ _ => rfl) rfl rfl
  | noSlot _ _ => exact ok
  | allocproc hcall hnp => exact ok.allocproc hcall.toRuns hnp
  | kallocFails hcall => exact ok.endFork_moves hcall.toRuns rfl (Or.inl rfl)
  | kalloc hruns => exact ok.kalloc hruns
  | copyuvmFails hcall => exact ok.endFork_moves hcall.toRuns rfl (Or.inl rfl)
  | copyuvm hruns => exact ok.copyuvm hruns
  | forkFinish hcall => exact ok.endFork_moves hcall.toRuns rfl (Or.inr rfl)
  | exit hcall _ => exact ok.exit hcall.toRuns
  | wait hcall hwait => exact ok.waitPass hcall.cpu hwait
  | idle _ _ hre _ => exact ok.reprio hre
  | dispatch _ _ hre hp _ => exact (ok.reprio hre).dispatch (by rw [hre.state, hp])
  | resume _ _ _ _ => exact ok.congr (fun _ => rfl) (fun _ _ => rfl) rfl rfl
  | @resumeAsleep cpu p _ hcpu hk =>
    have ok₁ : (t.setChan p none).KernelOk := ok.setProc rfl fun _ => rfl
    have ok₂ := ok₁.setKCtx_none (p := p) (k := .outside) (by simpa using ok.onCpu cpu p hcpu) rfl
    exact ok₂.congr (fun _ => rfl) (fun _ _ => rfl) rfl rfl
  | resumeInWait _ hcpu _ hwait =>
    exact KernelOk.waitPass (ok.setProc rfl fun _ => rfl) hcpu hwait
  | yield hcall => exact ok.yield hcall.cpu
  | sleep hcall => exact ok.sleep hcall.cpu (Or.inl rfl)
  | wakeup _ =>
    refine ok.wakes ?_ ?_ rfl rfl
    · intro q
      rw [wakeup1_state]
      split_ifs with hq
      · exact Or.inr ⟨hq.1, rfl⟩
      · exact Or.inl rfl
    · intro q hq
      simp [hq]
  | @kill _ _ _ q _ _ _ =>
    refine ok.wakes ?_ ?_ rfl rfl
    · intro r
      by_cases hr : r = q
      · subst hr
        by_cases hs : (t.proc r).state = .sleeping <;> simp [Table.kill, hs]
      · simp [Table.kill, hr]
    · intro r _
      by_cases hr : r = q
      · subst hr; simp [Table.kill]
      · simp [Table.kill, hr]
  | killMiss _ _ => exact ok
  | setpriority _ hst _ hf =>
    rcases hf with rfl | rfl
    · exact ok.setProc rfl fun _ => rfl
    · apply ok.setProc rfl
      intro hemb
      simp [hemb] at hst
  | setpriorityMiss _ => exact ok
  | trapKill _ => exact ok.setProc rfl fun _ => rfl

end KernelOk

end Table

/-! ### The lists -/

namespace Queues

/-- The invariant of the list model. -/
structure Inv (a : Queues) : Prop extends Ok a where
  kernel : a.KernelOk

variable {a : Queues} {p : Slot}

theorem Ok.handOver (ok : a.Ok) : (a.handOver p).Ok := by
  apply Ok.reparentZombies
  exact List.foldlRecOn _ _ (ok.wakeup1 _) fun _ h _ _ => h.reparentList

section

variable (ok : a.Ok) (hst : (a.proc p).state = .running)

include ok hst

theorem Ok.handOver_running : ((a.handOver p).proc p).state = .running := by
  rw [handOver_toTable ok]
  rcases (Table.handOver_state (t := a.toTable) (p := p) (q := p)) with h | h
  · exact h.trans hst
  · simp [hst] at h

theorem Ok.exit : (a.exit cpu p).Ok := by
  have ok₁ : (a.handOver p).Ok := ok.handOver
  have hst₁ : ((a.handOver p).proc p).state = .running := ok.handOver_running hst
  have ok₂ : ((a.handOver p).shiftHead p .running
      (fun r => { r with state := .zombie }) .zombie).Ok :=
    ok₁.shiftHead (Proc.list_eq_running.mpr hst₁) rfl (by simp) (by simp)
  exact ok₂.leaveCpu

theorem Ok.wait : (a.wait cpu p).1.Ok := by
  have ok₁ : (a.waitPass cpu p).2.Ok := ok.waitPass hst
  unfold Queues.wait
  rcases hpass : a.waitPass cpu p with ⟨res, a'⟩
  rw [hpass] at ok₁
  cases res with
  | reaped q pid => exact ok₁.upd (fun t => (t.setKCtx p .outside).setLock none) rfl
  | failed => exact ok₁.upd (fun t => (t.setKCtx p .outside).setLock none) rfl
  | sleeps => exact ok₁.upd (fun t => t.setKCtx p .asleepInWait) rfl

theorem Ok.resume : (a.resume cpu p).1.Ok := by
  have ok₁ : (a.upd fun t => t.setChan p none).Ok := ok.setProc (fun _ => rfl) fun _ => rfl
  unfold Queues.resume
  cases a.kctx p with
  | asleep => exact ok₁.upd (fun t => (t.setKCtx p .outside).setLock none) rfl
  | asleepInWait => exact ok₁.wait (by simpa using hst)
  | outside => exact ok.upd (·.setLock none) rfl
  | allocating np => exact ok.upd (·.setLock none) rfl
  | copying np => exact ok.upd (·.setLock none) rfl
  | linking np => exact ok.upd (·.setLock none) rfl

end

/-- A step keeps the lists in order. -/
theorem Inv.ok_did (inv : a.Inv) (h : a.Did act ev b) : b.Ok := by
  have ok := inv.toOk
  have running : ∀ {cpu p}, a.cpuProc cpu = some p → (a.proc p).state = .running :=
    fun hcpu => inv.kernel.onCpu _ _ hcpu
  have taken : ∀ {p np k}, a.kctx p = k → k.child = some np → (a.proc np).state = .embryo :=
    fun hk hnp => (inv.kernel.forking _ _ (hk ▸ hnp)).1
  cases h with
  | tick => exact ok.upd (fun t => { t with ticks := t.ticks + 1 }) rfl
  | noSlot _ _ => exact ok
  | @allocproc cpu p np rest _ _ => exact ok.allocproc.upd (·.setKCtx p (.allocating np)) rfl
  | @kallocFails cpu p np hcall =>
    exact (ok.kallocFails (taken hcall.kctx rfl)).upd (·.setKCtx p .outside) rfl
  | @kalloc cpu p np kstack hruns =>
    have hnp : (a.proc np).state = .embryo := taken hruns.kctx rfl
    have ok₁ : (a.upd fun t => t.setProc np (Proc.allocprocFields kstack t.ticks)).Ok := by
      refine ⟨ok.toListsOk.setProc rfl ?_, Table.PrioOk.setProc ok.live ?_⟩
      · simp [hnp]
      · simp [Proc.allocprocFields, hnp]
    exact ok₁.upd (·.setKCtx p (.copying np)) rfl
  | @copyuvmFails cpu p np hcall =>
    exact (ok.copyuvmFails (taken hcall.kctx rfl)).upd (·.setKCtx p .outside) rfl
  | @copyuvm cpu p np pgdir hruns =>
    have ok₁ : (a.upd fun t => t.setProc np (Proc.forkFields pgdir p (a.proc p))).Ok :=
      ok.setProc (fun _ => rfl) fun _ => rfl
    exact ok₁.upd (·.setKCtx p (.linking np)) rfl
  | @forkFinish cpu p np hcall =>
    have hprio := inv.kernel.fresh p np (Or.inr hcall.kctx)
    exact (ok.forkFinish (taken hcall.kctx rfl) hprio).upd (·.setKCtx p .outside) rfl
  | exit hcall _ => exact ok.exit (running hcall.cpu)
  | wait hcall => exact ok.wait (running hcall.cpu)
  | scheduler _ _ => exact ok.scheduler
  | resume _ hcpu => exact ok.resume (running hcpu)
  | yield hcall => exact ok.yield (running hcall.cpu)
  | @sleep cpu p ch hcall => exact (ok.sleep (running hcall.cpu)).upd (·.setKCtx p .asleep) rfl
  | wakeup _ => exact ok.wakeup1 _
  | kill _ => exact ok.kill
  | setpriority _ => exact ok.setpriority
  | trapKill _ => exact ok.setKilled

theorem Inv.step (inv : a.Inv) (h : a.step act = some r) : r.1.Inv :=
  ⟨inv.ok_did (step_did h), inv.kernel.step (table_step inv.toOk h)⟩

end Queues

end Xv6Kernel
