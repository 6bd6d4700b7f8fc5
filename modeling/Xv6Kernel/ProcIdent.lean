/-
  ProcIdent.lean
  ==============
  Steps that matter for who a process is.

  Most steps leave alone the pid, the parent and the `killed` flag of every slot, and do
  not make a slot change between UNUSED, EMBRYO, live and ZOMBIE.  `Table.Quiet` says
  that of a step, and `Table.Change` sorts the steps into the quiet ones and the eight
  kinds that are not.  The invariants about pids, parents and `killed` only have to look
  at the latter.
-/
import Xv6Kernel.ProcSimulation

namespace Xv6Kernel

/-- A process that is neither free, nor being made, nor dead. -/
def ProcState.Live (st : ProcState) : Prop := st = .runnable ∨ st = .running ∨ st = .sleeping

instance (st : ProcState) : Decidable st.Live := by unfold ProcState.Live; infer_instance

/-- The stage of a process's life that its state stands for. -/
inductive Stage where
  | unused | embryo | live | zombie
deriving DecidableEq

def ProcState.stage : ProcState → Stage
  | .unused => .unused
  | .embryo => .embryo
  | .zombie => .zombie
  | .runnable | .running | .sleeping => .live

/-- The fields that say who a process is. -/
structure Ident where
  stage : Stage
  pid : Uint
  parent : Option Slot
  killed : Bool

def Proc.ident (r : Proc) : Ident := ⟨r.state.stage, r.pid, r.parent, r.killed⟩

/-- Events of steps at which no process is made or ends. -/
def Ev.Quiet : Ev → Prop
  | .born _ => False
  | .exited _ => False
  | .waitRet _ (some _) _ => False
  | .forkRet _ v => v = -1
  | _ => True

namespace ProcState

variable {st : ProcState}

theorem stage_unused : st.stage = .unused ↔ st = .unused := by cases st <;> simp [stage]
theorem stage_embryo : st.stage = .embryo ↔ st = .embryo := by cases st <;> simp [stage]
theorem stage_zombie : st.stage = .zombie ↔ st = .zombie := by cases st <;> simp [stage]
theorem stage_live : st.stage = .live ↔ st.Live := by cases st <;> simp [stage, Live]

end ProcState

namespace Table

structure Quiet (t t' : Table) : Prop where
  ident : ∀ q, (t'.proc q).ident = (t.proc q).ident
  nextpid : t'.nextpid = t.nextpid
  initproc : t'.initproc = t.initproc
  linking : ∀ p np, t'.kctx p = .linking np ↔ t.kctx p = .linking np

namespace Quiet

variable {t t' : Table} {p q np : Slot} {cpu : Cpu}

theorem refl : t.Quiet t := ⟨fun _ => rfl, rfl, rfl, fun _ _ => Iff.rfl⟩

theorem trans (h : t.Quiet u) (h' : u.Quiet t') : t.Quiet t' :=
  ⟨fun q => (h'.ident q).trans (h.ident q), h'.nextpid.trans h.nextpid,
    h'.initproc.trans h.initproc, fun p np => (h'.linking p np).trans (h.linking p np)⟩

/-! What a quiet step keeps. -/

theorem stage (h : t.Quiet t') (q : Slot) : (t'.proc q).state.stage = (t.proc q).state.stage :=
  congrArg Ident.stage (h.ident q)
theorem pid (h : t.Quiet t') (q : Slot) : (t'.proc q).pid = (t.proc q).pid :=
  congrArg Ident.pid (h.ident q)
theorem parent (h : t.Quiet t') (q : Slot) : (t'.proc q).parent = (t.proc q).parent :=
  congrArg Ident.parent (h.ident q)
theorem killed (h : t.Quiet t') (q : Slot) : (t'.proc q).killed = (t.proc q).killed :=
  congrArg Ident.killed (h.ident q)

theorem unused (h : t.Quiet t') (q : Slot) :
    (t'.proc q).state = .unused ↔ (t.proc q).state = .unused := by
  rw [← ProcState.stage_unused, h.stage, ProcState.stage_unused]
theorem zombie (h : t.Quiet t') (q : Slot) :
    (t'.proc q).state = .zombie ↔ (t.proc q).state = .zombie := by
  rw [← ProcState.stage_zombie, h.stage, ProcState.stage_zombie]
/-! The steps that are quiet. -/

theorem setProc (hf : (f (t.proc p)).ident = (t.proc p).ident) : t.Quiet (t.setProc p f) := by
  refine ⟨?_, rfl, rfl, fun _ _ => Iff.rfl⟩
  intro q
  by_cases hq : q = p
  · subst hq
    simpa using hf
  · simp [hq]

theorem setCpu : t.Quiet (t.setCpu cpu o) := ⟨fun _ => rfl, rfl, rfl, fun _ _ => Iff.rfl⟩

theorem setLock : t.Quiet (t.setLock l) := ⟨fun _ => rfl, rfl, rfl, fun _ _ => Iff.rfl⟩

/-- Moving between places in the kernel other than the end of `fork`. -/
theorem setKCtx (hk : ∀ np, k ≠ .linking np) (hk' : ∀ np, t.kctx p ≠ .linking np) :
    t.Quiet (t.setKCtx p k) := by
  refine ⟨fun _ => rfl, rfl, rfl, ?_⟩
  intro q np
  rw [setKCtx_kctx]
  by_cases hq : q = p
  · subst hq
    rw [Function.update_self]
    exact ⟨fun h => absurd h (hk np), fun h => absurd h (hk' np)⟩
  · rw [Function.update_of_ne hq]

theorem reprio (h : t.Reprio t') : t.Quiet t' := by
  refine ⟨?_, ?_, ?_, ?_⟩
  · intro q
    rw [h.proc q]
    rfl
  · rw [h.frame]
  · rw [h.frame]
  · intro p np
    rw [h.frame]

theorem wakeup1 : t.Quiet (t.wakeup1 chan) := by
  refine ⟨?_, rfl, rfl, fun _ _ => Iff.rfl⟩
  intro q
  rw [wakeup1_proc]
  split_ifs with h
  · simp [Proc.ident, h.1, ProcState.stage]
  · rfl

theorem budgetupdate (now : Uint) (r : Proc) : (r.budgetupdate now).ident = r.ident := by
  unfold Proc.budgetupdate
  by_cases h : (r.budget - (now - r.cpuTicksIn)).toInt ≤ 0
  · simp only [h, if_true]
    rfl
  · simp only [h, if_false]
    rfl

theorem leaveCpu : t.Quiet (t.leaveCpu cpu p) :=
  ((setProc (f := Proc.schedTicks t.ticks) rfl).trans setCpu).trans setLock

theorem sleep (hp : (t.proc p).state = .running) : t.Quiet (t.sleep cpu p chan) := by
  apply Quiet.trans (u := t.setProc p fun r =>
    ({ r with chan := some chan, state := .sleeping } : Proc).budgetupdate t.ticks)
  · apply setProc
    rw [budgetupdate]
    simp [Proc.ident, hp, ProcState.stage]
  · exact leaveCpu

theorem yield (hp : (t.proc p).state = .running) : t.Quiet (t.yield cpu p) := by
  apply Quiet.trans (u := t.setProc p fun r =>
    ({ r with state := .runnable } : Proc).budgetupdate t.ticks)
  · apply setProc
    rw [budgetupdate]
    simp [Proc.ident, hp, ProcState.stage]
  · exact leaveCpu

theorem dispatch (hp : (t.proc p).state = .runnable) : t.Quiet (t.dispatch cpu p) := by
  apply Quiet.trans (u := t.setProc p fun r => { r with state := .running, cpuTicksIn := t.ticks })
  · apply setProc
    simp [Proc.ident, hp, ProcState.stage]
  · exact setCpu.trans setLock

/-- Freeing a slot forgets who it was. -/
theorem reap (h : t.Quiet t') : (t.reap q).Quiet (t'.reap q) := by
  refine ⟨?_, h.nextpid, h.initproc, h.linking⟩
  intro r
  by_cases hr : r = q
  · subst hr
    simp [Table.reap, Proc.reapFields, Proc.ident]
  · simpa [Table.reap, hr] using h.ident r

/-- Apart from the flag, `kill` is a wakeup. -/
theorem kill : (t.setKilled q).Quiet (t.kill q) := by
  refine ⟨?_, rfl, rfl, fun _ _ => Iff.rfl⟩
  intro r
  by_cases hr : r = q
  · subst hr
    by_cases hs : (t.proc r).state = .sleeping
    · simp [Table.kill, Proc.ident, hs, ProcState.stage]
    · simp [Table.kill, Proc.ident, hs]
  · simp [Table.kill, hr]

end Quiet

/-! ### The other steps -/

inductive Change (t : Table) : Act → List Ev → Table → Prop where
  | quiet {act ev t'} : t.Quiet t' → (∀ e ∈ ev, e.Quiet) → Change t act ev t'
  | born {cpu p np} : t.Calls cpu p .outside → (t.proc np).state = .unused →
      Change t (.allocproc cpu) [.born np] ((t.allocproc np).setKCtx p (.allocating np))
  | kallocFails {cpu p np} : t.Calls cpu p (.allocating np) →
      Change t (.kalloc cpu none) [.forkRet p (-1)] ((t.kallocFails np).setKCtx p .outside)
  | copyuvmFails {cpu p np} : t.Calls cpu p (.copying np) →
      Change t (.copyuvm cpu none) [.forkRet p (-1)] ((t.copyuvmFails np).setKCtx p .outside)
  | copyuvm {cpu p np pgdir} : t.Runs cpu p (.copying np) →
      Change t (.copyuvm cpu (some pgdir)) []
        ((t.setProc np (Proc.forkFields pgdir p (t.proc p))).setKCtx p (.linking np))
  | forkFinish {cpu p np} : t.Calls cpu p (.linking np) →
      Change t (.forkFinish cpu) [.forkRet p (t.proc np).pid.toInt]
        ((t.setState np .runnable).setKCtx p .outside)
  | exit {cpu p} : t.Calls cpu p .outside → some p ≠ t.initproc →
      Change t (.exit cpu) [.exited p] (t.exit cpu p)
  | reaped {act cpu p q t'} : t.cpuProc cpu = some p → (t.proc q).state = .zombie →
      (t.proc q).parent = some p → (t.reap q).Quiet t' →
      Change t act [.waitRet p (some q) (t.proc q).pid.toInt] t'
  | killed {act ev q t'} : (t.proc q).state ≠ .unused → (t.setKilled q).Quiet t' →
      (∀ e ∈ ev, e.Quiet) → Change t act ev t'

variable {t t' : Table} {act : Act} {ev : List Ev} {cpu : Cpu} {p q : Slot}

/-- A pass of `wait`, which starts in a table `u` that differs from `t` at most in a
    channel. -/
theorem WaitPass.change (ok : u.KernelOk) (hquiet : t.Quiet u)
    (hcpus : u.cpuProc = t.cpuProc) (hcpu : t.cpuProc cpu = some p)
    (hk : ∀ np, u.kctx p ≠ .linking np) (h : WaitPass cpu p u ev t') : t.Change act ev t' := by
  have hp : (u.proc p).state = .running := ok.onCpu cpu p (by rw [hcpus, hcpu])
  have hend : ∀ v : Table, v.kctx = u.kctx → v.Quiet ((v.setKCtx p .outside).setLock none) := by
    intro v hv
    exact (Quiet.setKCtx (by simp) (by rw [hv]; exact hk)).trans Quiet.setLock
  cases h with
  | @reaped q hz hparent =>
    rw [hquiet.pid]
    apply Change.reaped hcpu ((hquiet.zombie q).mp hz) ((hquiet.parent q).symm.trans hparent)
    exact hquiet.reap.trans (hend _ rfl)
  | failed _ _ => exact .quiet (hquiet.trans (hend _ rfl)) (by simp [Ev.Quiet])
  | sleeps _ =>
    exact .quiet ((hquiet.trans (Quiet.sleep hp)).trans (Quiet.setKCtx (by simp) hk)) (by simp)

theorem Step.change (ok : t.KernelOk) (h : t.Step act ev t') : t.Change act ev t' := by
  cases h with
  | tick => exact .quiet ⟨fun _ => rfl, rfl, rfl, fun _ _ => Iff.rfl⟩ (by simp)
  | noSlot _ _ => exact .quiet Quiet.refl (by simp [Ev.Quiet])
  | allocproc hcall hnp => exact .born hcall hnp
  | kallocFails hcall => exact .kallocFails hcall
  | kalloc hruns =>
    exact .quiet ((Quiet.setProc rfl).trans (Quiet.setKCtx (by simp) (by simp [hruns.kctx])))
      (by simp)
  | copyuvmFails hcall => exact .copyuvmFails hcall
  | copyuvm hruns => exact .copyuvm hruns
  | forkFinish hcall => exact .forkFinish hcall
  | exit hcall hinit => exact .exit hcall hinit
  | wait hcall hwait =>
    exact hwait.change ok Quiet.refl rfl hcall.cpu (by simp [hcall.kctx])
  | idle _ _ hre _ => exact .quiet (Quiet.reprio hre) (by simp)
  | dispatch _ _ hre hp _ =>
    exact .quiet ((Quiet.reprio hre).trans (Quiet.dispatch (by rw [hre.state, hp])))
      (by simp [Ev.Quiet])
  | resume _ _ _ _ => exact .quiet Quiet.setLock (by simp)
  | resumeAsleep _ _ hk =>
    exact .quiet (((Quiet.setProc rfl).trans (Quiet.setKCtx (by simp) (by simp [hk]))).trans
      Quiet.setLock) (by simp)
  | resumeInWait _ hcpu hk hwait =>
    exact WaitPass.change (ok.setProc rfl fun _ => rfl) (Quiet.setProc rfl) rfl hcpu
      (by simp [hk]) hwait
  | yield hcall => exact .quiet (Quiet.yield (ok.onCpu _ _ hcall.cpu)) (by simp)
  | sleep hcall =>
    exact .quiet ((Quiet.sleep (ok.onCpu _ _ hcall.cpu)).trans
      (Quiet.setKCtx (by simp) (by simp [Table.sleep, leaveCpu, hcall.kctx]))) (by simp)
  | wakeup _ => exact .quiet Quiet.wakeup1 (by simp)
  | kill _ hq _ => exact .killed hq Quiet.kill (by simp [Ev.Quiet])
  | killMiss _ _ => exact .quiet Quiet.refl (by simp [Ev.Quiet])
  | setpriority _ _ _ hf =>
    rcases hf with rfl | rfl
    · exact .quiet (Quiet.setProc rfl) (by simp [Ev.Quiet])
    · exact .quiet (Quiet.setProc rfl) (by simp [Ev.Quiet])
  | setpriorityMiss _ => exact .quiet Quiet.refl (by simp [Ev.Quiet])
  | @trapKill cpu p hruns =>
    exact .killed (q := p) (by simp [ok.onCpu cpu p hruns.cpu]) Quiet.refl (by simp)

end Table

end Xv6Kernel
