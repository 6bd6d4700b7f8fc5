/-
  ProcRun.lean
  ============
  The process table as a transition system.

  A step is the code that one CPU runs while it holds `ptable.lock`, or a stretch of
  code between two such critical sections.  There is no bound on the number of CPUs.
  The lock is taken and released inside a step, with one exception: the scheduler
  keeps it across the `swtch` into the process that it has chosen, and that process
  releases it in `resume`, when it returns from `sched` in `yield` or `sleep`, or in
  `forkret`.  A process that slept in `wait` still holds the lock when it goes round the
  loop of `wait` again, so that pass belongs to the same step.

  A process can be preempted anywhere outside its critical sections, so `yield` is
  possible in the middle of `fork`.  `wakeup` is called by interrupt handlers too and
  needs no current process.
-/
import Xv6Kernel.ProcOps
import Xv6Kernel.TransitionSystem

namespace Xv6Kernel

inductive Act where
  | tick                                        -- timer interrupt: ticks is incremented
  | allocproc (cpu : Cpu)                       -- fork: the critical section of allocproc
  | kalloc (cpu : Cpu) (kstack : Option Addr)   -- fork: kalloc returns in allocproc
  | copyuvm (cpu : Cpu) (pgdir : Option Addr)   -- fork: copyuvm returns
  | forkFinish (cpu : Cpu)                      -- fork: the last critical section
  | exit (cpu : Cpu)
  | wait (cpu : Cpu)
  | scheduler (cpu : Cpu)
  | resume (cpu : Cpu)
  | yield (cpu : Cpu)
  | sleep (cpu : Cpu) (a : Addr)
  | wakeup (a : Addr)
  | kill (cpu : Cpu) (pid : Uint)
  | setpriority (cpu : Cpu) (pid : Uint) (priority : Int)
  | trapKill (cpu : Cpu)                        -- trap: proc->killed = 1
deriving DecidableEq, Repr

namespace PTable

/-- The result of a step: the state and the events, or a panic. -/
abbrev Outcome := Except Panic (PTable × List Ev)

/-- One entry of `wait`, or one return of its `sleep`: a pass of the loop, and what the
    caller does next. -/
def wait (cpu : Cpu) (p : Slot) (s : PTable) : Outcome := do
  let (r, s) ← s.waitPass cpu p
  match r with
  | .reaped q pid =>
      return (s.upd fun t => (t.setKCtx p .outside).setLock none, [.waitRet p (some q) pid.toInt])
  | .failed =>
      return (s.upd fun t => (t.setKCtx p .outside).setLock none, [.waitRet p none (-1)])
  | .sleeps => return (s.upd fun t => t.setKCtx p .asleepInWait, [])

/-- The process that the scheduler of `cpu` has switched to goes on. -/
def resume (cpu : Cpu) (p : Slot) (s : PTable) : Outcome :=
  match s.kctx p with
  | .asleep =>
      .ok (s.upd fun t => ((t.setChan p none).setKCtx p .outside).setLock none, [])
  | .asleepInWait => (s.upd fun t => t.setChan p none).wait cpu p
  | _ => .ok (s.upd fun t => t.setLock none, [])

/-- Code that `cpu` runs in the process `p` which is at `k`, without the lock. -/
def unlocked (s : PTable) (cpu : Cpu) (f : Slot → KCtx → Option Outcome) : Option Outcome :=
  if s.lock = some cpu then none
  else
    match s.cpuProc cpu with
    | none => none
    | some p => f p (s.kctx p)

/-- Code that `cpu` runs in its current process with the lock held. -/
def locked (s : PTable) (cpu : Cpu) (f : Slot → KCtx → Option Outcome) : Option Outcome :=
  if s.lock = none then s.unlocked cpu f else none

/-- The same, for a system call or interrupt that starts outside the functions below. -/
def syscall (s : PTable) (cpu : Cpu) (f : Slot → Outcome) : Option Outcome :=
  s.locked cpu fun p k => if k = .outside then some (f p) else none

def step (s : PTable) : Act → Option Outcome
  | .tick => some (.ok (s.upd fun t => { t with ticks := t.ticks + 1 }, []))
  | .allocproc cpu => s.syscall cpu fun p => do
      let (r, s) ← s.allocproc
      match r with
      | none => return (s, [.forkRet p (-1)])
      | some np => return (s.upd fun t => t.setKCtx p (.allocating np), [.born np])
  | .kalloc cpu none => s.locked cpu fun p k =>
      match k with
      | .allocating np => some do
          let s ← s.kallocFails np
          return (s.upd fun t => t.setKCtx p .outside, [.forkRet p (-1)])
      | _ => none
  | .kalloc cpu (some kstack) => s.unlocked cpu fun p k =>
      match k with
      | .allocating np =>
          some (.ok ((s.allocprocDone np kstack).upd fun t => t.setKCtx p (.copying np), []))
      | _ => none
  | .copyuvm cpu none => s.locked cpu fun p k =>
      match k with
      | .copying np => some do
          let s ← s.copyuvmFails np
          return (s.upd fun t => t.setKCtx p .outside, [.forkRet p (-1)])
      | _ => none
  | .copyuvm cpu (some pgdir) => s.unlocked cpu fun p k =>
      match k with
      | .copying np =>
          some (.ok ((s.copyuvmDone p np pgdir).upd fun t => t.setKCtx p (.linking np), []))
      | _ => none
  | .forkFinish cpu => s.locked cpu fun p k =>
      match k with
      | .linking np => some do
          let pid := (s.proc np).pid
          let s ← s.forkFinish np
          return (s.upd fun t => t.setKCtx p .outside, [.forkRet p pid.toInt])
      | _ => none
  | .exit cpu => s.syscall cpu fun p => do
      let s ← s.exit cpu p
      return (s, [.exited p])
  | .wait cpu => s.syscall cpu fun p => s.wait cpu p
  | .scheduler cpu =>
      if s.lock = none ∧ s.cpuProc cpu = none then some do
        let (r, s) ← s.scheduler cpu
        return (s, (r.map Ev.dispatched).toList)
      else none
  | .resume cpu =>
      if s.lock = some cpu then
        match s.cpuProc cpu with
        | none => none
        | some p => some (s.resume cpu p)
      else none
  | .yield cpu => s.locked cpu fun p _ => some do
      let s ← s.yield cpu p
      return (s, [])
  | .sleep cpu a => s.syscall cpu fun p => do
      let s ← s.sleep cpu p (.addr a)
      return (s.upd fun t => t.setKCtx p .asleep, [])
  | .wakeup a =>
      if s.lock = none then some do
        let s ← s.wakeup1 (some (.addr a))
        return (s, [])
      else none
  | .kill cpu pid => s.syscall cpu fun _ => do
      let (rc, s) ← s.kill pid
      return (s, [.killRet rc])
  | .setpriority cpu pid priority => s.syscall cpu fun _ => do
      let (rc, s) ← s.setpriority pid priority
      return (s, [.setpriorityRet rc])
  | .trapKill cpu => s.unlocked cpu fun p k =>
      if k = .outside then some (.ok (s.upd fun t => t.setKilled p, [])) else none

end PTable

/-- The kernel after `userinit`, for any tick count and any pages it was given. -/
def AfterUserinit (s : PTable) : Prop :=
  ∃ now kstack pgdir, PTable.userinit kstack pgdir (PTable.boot now) = .ok s

/-- The runs of the process code: steps that do not panic. -/
def procSystem : TransitionSystem PTable Act Ev where
  init := AfterUserinit
  step s a :=
    match s.step a with
    | some (.ok r) => some r
    | _ => none

/-! ### Scenarios -/

/-- The kernel after `userinit` at tick 0. -/
def bootedTable : PTable :=
  match PTable.userinit (some 1) (some 2) (PTable.boot 0) with
  | .ok s => s
  | .error _ => PTable.boot 0

/-- The state after the listed actions, from `bootedTable`. -/
def afterActs (acts : List Act) : PTable :=
  match procSystem.run bootedTable acts with
  | some (s, _) => s
  | none => bootedTable

theorem bootedTable_init : procSystem.init bootedTable := by
  refine ⟨0, some 1, some 2, ?_⟩
  have hok : (PTable.userinit (some 1) (some 2) (PTable.boot 0)).toBool = true := by
    decide +kernel
  unfold bootedTable
  rcases hrun : PTable.userinit (some 1) (some 2) (PTable.boot 0) with e | s
  · rw [hrun] at hok
    simp [Except.toBool] at hok
  · rfl

theorem afterActs_reachable (acts : List Act) : procSystem.Reachable (afterActs acts) := by
  unfold afterActs
  rcases hrun : procSystem.run bootedTable acts with _ | ⟨s, ev⟩
  · exact .init bootedTable_init
  · exact (TransitionSystem.Reachable.init bootedTable_init).run hrun

end Xv6Kernel
