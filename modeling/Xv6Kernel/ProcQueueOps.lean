/-
  ProcQueueOps.lean
  =================
  The process operations on lists.

  These are the operations of `ProcOps`, written with the list operations of `Queues`
  instead of pointers: a loop over a list is a fold, and a search is `find?`.  They are
  total.  That no assertion of `proc.c` fails, that every pointer loop ends and that
  `ready[i]` is only used with `i` in range is what `ProcRefinement` shows.

  `promote` is the one place where a fold over the list would be wrong: the loop of
  `prioadjust` goes on from the `next` field of the process it has just moved to the end
  of another list, so it handles the first process of each list only.
-/
import Xv6Kernel.ProcQueues

namespace Xv6Kernel

namespace Queues

open PTable (readyLists childLists WaitResult)

/-- The list `ready[i]` for a priority, which is in range whenever this is used. -/
def readyIx (i : Int) : Fin (MAX + 1) := ⟨min i.toNat MAX, by omega⟩

/-- Put a process at the end of the ready list of its priority. -/
def enqueue (a : Queues) (p : Slot) : Queues := a.pushReady (readyIx (a.proc p).prio) p

/-- Move `p` from one list to the head of another, changing its fields by `f`. -/
def shiftHead (a : Queues) (p : Slot) (src : ListId) (f : Proc → Proc) (dst : ListId) : Queues :=
  ((a.remove src p).upd fun t => t.setProc p f).pushHead dst p

/-- Move `p` from one list to the end of the ready list of its new priority. -/
def shiftReady (a : Queues) (p : Slot) (src : ListId) (f : Proc → Proc) : Queues :=
  ((a.remove src p).upd fun t => t.setProc p f).enqueue p

/-! ### allocproc and fork -/

def allocproc (a : Queues) : Option Slot × Queues :=
  match a.lists .free with
  | [] => (none, a)
  | p :: _ =>
      (some p, (a.shiftHead p .free (fun r => { r with state := .embryo }) .embryo).upd fun t =>
        { t.setProc p (fun r => { r with pid := t.nextpid }) with nextpid := t.nextpid + 1 })

def freeEmbryo (np : Slot) (a : Queues) : Queues :=
  a.shiftHead np .embryo (fun r => { r with state := .unused }) .free

def kallocFails (np : Slot) (a : Queues) : Queues :=
  (a.upd fun t => t.setProc np fun r => { r with kstack := none }).freeEmbryo np

def copyuvmFails (np : Slot) (a : Queues) : Queues :=
  (a.upd fun t => t.setProc np fun r => { r with pgdir := none, kstack := none }).freeEmbryo np

def forkFinish (np : Slot) (a : Queues) : Queues :=
  ((a.remove .embryo np).upd fun t => t.setState np .runnable).pushReady 0 np

/-! ### sleep, wakeup1 and yield -/

def sleep (cpu : Cpu) (p : Slot) (chan : Chan) (a : Queues) : Queues :=
  ((a.upd fun t => t.setChan p (some chan)).shiftHead p .running
    (fun r => ({ r with state := .sleeping } : Proc).budgetupdate a.ticks) .sleep).upd
      (Table.leaveCpu cpu p)

def wake (a : Queues) (p : Slot) : Queues :=
  a.shiftReady p .sleep fun r => { r with state := .runnable }

def wakeup1 (chan : Option Chan) (a : Queues) : Queues :=
  (a.lists .sleep).foldl (fun a p => if (a.proc p).chan = chan then a.wake p else a) a

def yield (cpu : Cpu) (p : Slot) (a : Queues) : Queues :=
  (a.shiftReady p .running
    (fun r => ({ r with state := .runnable } : Proc).budgetupdate a.ticks)).upd
      (Table.leaveCpu cpu p)

/-! ### exit and wait -/

def reparentOne (p : Slot) (a : Queues) (q : Slot) : Queues :=
  if (a.proc q).parent = some p then a.upd fun t => t.setParent q t.initproc else a

def reparentList (p : Slot) (a : Queues) (l : ListId) : Queues :=
  (a.lists l).foldl (reparentOne p) a

def reparentZombie (p : Slot) (a : Queues) (q : Slot) : Queues :=
  if (a.proc q).parent = some p then
    (a.upd fun t => t.setParent q t.initproc).wakeup1 (a.initproc.map Chan.proc)
  else a

def reparentZombies (p : Slot) (a : Queues) : Queues :=
  (a.lists .zombie).foldl (reparentZombie p) a

/-- What `exit` does before it changes its caller's state. -/
def handOver (p : Slot) (a : Queues) : Queues :=
  let a := a.wakeup1 ((a.proc p).parent.map Chan.proc)
  let a := childLists.foldl (reparentList p) a
  a.reparentZombies p

def exit (cpu : Cpu) (p : Slot) (a : Queues) : Queues :=
  ((a.handOver p).shiftHead p .running (fun r => { r with state := .zombie }) .zombie).upd
    (Table.leaveCpu cpu p)

def isChild (a : Queues) (p q : Slot) : Bool := decide ((a.proc q).parent = some p)

def reap (a : Queues) (q : Slot) : Queues :=
  ((a.upd fun t => t.setProc q fun r => { r with kstack := none }).shiftHead q .zombie
    (fun r => { r with state := .unused }) .free).upd fun t => t.setProc q Proc.reapFields

def haveKids (a : Queues) (p : Slot) : Bool :=
  childLists.any fun l => (a.lists l).any (a.isChild p)

def waitPass (cpu : Cpu) (p : Slot) (a : Queues) : WaitResult × Queues :=
  match (a.lists .zombie).find? (a.isChild p) with
  | some q => (.reaped q (a.proc q).pid, a.reap q)
  | none =>
      if !a.haveKids p || (a.proc p).killed then (.failed, a)
      else (.sleeps, a.sleep cpu p (.proc p))

/-! ### prioadjust and scheduler -/

def decrementOne (a : Queues) (p : Slot) : Queues :=
  if (a.proc p).prio ≠ 0 then a.upd fun t => t.setProc p fun r => { r with prio := r.prio - 1 }
  else a

def decrementPrio (a : Queues) (l : ListId) : Queues := (a.lists l).foldl decrementOne a

def promote (a : Queues) (i : Fin (MAX + 1)) : Queues :=
  match a.lists (.ready i) with
  | [] => a
  | p :: _ => a.shiftReady p (.ready i) fun r => { r with prio := r.prio - 1 }

def prioadjust (a : Queues) : Queues :=
  ((List.finRange (MAX + 1)).tail.foldl promote
    ((a.decrementPrio .sleep).decrementPrio .running)).upd fun t =>
      { t with promoteAtTime := t.ticks + BitVec.ofNat 32 TICKS_TO_PROMOTE }

def firstReady (a : Queues) : List (Fin (MAX + 1)) → Option (Fin (MAX + 1) × Slot)
  | [] => none
  | i :: is =>
      match a.lists (.ready i) with
      | p :: _ => some (i, p)
      | [] => firstReady a is

def dispatch (cpu : Cpu) (i : Fin (MAX + 1)) (p : Slot) (a : Queues) : Queues :=
  (a.shiftHead p (.ready i) (fun r => { r with state := .running }) .running).upd fun t =>
    ((t.setProc p fun r => { r with cpuTicksIn := t.ticks }).setCpu cpu (some p)).setLock
      (some cpu)

/-- The table when the scheduler looks for a process. -/
def promoteIfDue (a : Queues) : Queues := if a.promoteAtTime ≤ a.ticks then a.prioadjust else a

def scheduler (cpu : Cpu) (a : Queues) : Option Slot × Queues :=
  match a.promoteIfDue.firstReady (List.finRange (MAX + 1)) with
  | none => (none, a.promoteIfDue)
  | some (i, p) => (some p, a.promoteIfDue.dispatch cpu i p)

/-! ### kill and setpriority -/

/-- The first process with the property on the lists searched, with its list. -/
def search (a : Queues) (hit : Slot → Bool) : List ListId → Option (ListId × Slot)
  | [] => none
  | l :: ls =>
      match (a.lists l).find? hit with
      | some p => some (l, p)
      | none => search a hit ls

def hasPid (a : Queues) (pid : Uint) (p : Slot) : Bool := decide ((a.proc p).pid = pid)

def kill (pid : Uint) (a : Queues) : Int × Queues :=
  match a.search (a.hasPid pid) (readyLists ++ [.running, .embryo, .zombie]) with
  | some (_, p) => (0, a.upd fun t => t.setKilled p)
  | none =>
      match (a.lists .sleep).find? (a.hasPid pid) with
      | some p => (0, (a.upd fun t => t.setKilled p).wake p)
      | none => (-1, a)

/-- What `setpriority` does to the process that it finds on list `l`. -/
def reprioritise (a : Queues) (priority : Int) (l : ListId) (p : Slot) : Queues :=
  match l with
  | .ready i =>
      if priority ≠ (i : Nat) then a.shiftReady p (.ready i) (PTable.setPrioFields priority) else a
  | _ => a.upd fun t => t.setProc p (PTable.setPrioFields priority)

def setpriority (pid : Uint) (priority : Int) (a : Queues) : Int × Queues :=
  if 0 > priority ∨ MAX < priority then (-1, a)
  else
    match a.search (a.hasPid pid) (readyLists ++ [.running, .sleep]) with
    | some (l, p) => (0, a.reprioritise priority l p)
    | none => (-1, a)

/-! ### Steps -/

def wait (cpu : Cpu) (p : Slot) (a : Queues) : Queues × List Ev :=
  match a.waitPass cpu p with
  | (.reaped q pid, a) =>
      (a.upd fun t => (t.setKCtx p .outside).setLock none, [.waitRet p (some q) pid.toInt])
  | (.failed, a) =>
      (a.upd fun t => (t.setKCtx p .outside).setLock none, [.waitRet p none (-1)])
  | (.sleeps, a) => (a.upd fun t => t.setKCtx p .asleepInWait, [])

def resume (cpu : Cpu) (p : Slot) (a : Queues) : Queues × List Ev :=
  match a.kctx p with
  | .asleep => (a.upd fun t => ((t.setChan p none).setKCtx p .outside).setLock none, [])
  | .asleepInWait => (a.upd fun t => t.setChan p none).wait cpu p
  | _ => (a.upd fun t => t.setLock none, [])

abbrev Next := Option (Queues × List Ev)

def unlocked (a : Queues) (cpu : Cpu) (f : Slot → KCtx → Next) : Next :=
  if a.lock = some cpu then none
  else
    match a.cpuProc cpu with
    | none => none
    | some p => f p (a.kctx p)

def locked (a : Queues) (cpu : Cpu) (f : Slot → KCtx → Next) : Next :=
  if a.lock = none then a.unlocked cpu f else none

def syscall (a : Queues) (cpu : Cpu) (f : Slot → Next) : Next :=
  a.locked cpu fun p k => if k = .outside then f p else none

/-- The steps of `PTable.step` that do not panic. -/
def step (a : Queues) : Act → Next
  | .tick => some (a.upd fun t => { t with ticks := t.ticks + 1 }, [])
  | .allocproc cpu => a.syscall cpu fun p =>
      match a.allocproc with
      | (none, a) => some (a, [.forkRet p (-1)])
      | (some np, a) => some (a.upd fun t => t.setKCtx p (.allocating np), [.born np])
  | .kalloc cpu none => a.locked cpu fun p k =>
      match k with
      | .allocating np =>
          some ((a.kallocFails np).upd fun t => t.setKCtx p .outside, [.forkRet p (-1)])
      | _ => none
  | .kalloc cpu (some kstack) => a.unlocked cpu fun p k =>
      match k with
      | .allocating np =>
          some (a.upd fun t => (t.setProc np (Proc.allocprocFields kstack t.ticks)).setKCtx p
            (.copying np), [])
      | _ => none
  | .copyuvm cpu none => a.locked cpu fun p k =>
      match k with
      | .copying np =>
          some ((a.copyuvmFails np).upd fun t => t.setKCtx p .outside, [.forkRet p (-1)])
      | _ => none
  | .copyuvm cpu (some pgdir) => a.unlocked cpu fun p k =>
      match k with
      | .copying np =>
          some (a.upd fun t => (t.setProc np (Proc.forkFields pgdir p (t.proc p))).setKCtx p
            (.linking np), [])
      | _ => none
  | .forkFinish cpu => a.locked cpu fun p k =>
      match k with
      | .linking np =>
          some ((a.forkFinish np).upd fun t => t.setKCtx p .outside,
            [.forkRet p (a.proc np).pid.toInt])
      | _ => none
  | .exit cpu => a.syscall cpu fun p =>
      if some p = a.initproc then none else some (a.exit cpu p, [.exited p])
  | .wait cpu => a.syscall cpu fun p => some (a.wait cpu p)
  | .scheduler cpu =>
      if a.lock = none ∧ a.cpuProc cpu = none then
        some ((a.scheduler cpu).2, ((a.scheduler cpu).1.map Ev.dispatched).toList)
      else none
  | .resume cpu =>
      if a.lock = some cpu then
        match a.cpuProc cpu with
        | none => none
        | some p => some (a.resume cpu p)
      else none
  | .yield cpu => a.locked cpu fun p _ => some (a.yield cpu p, [])
  | .sleep cpu ch => a.syscall cpu fun p =>
      some ((a.sleep cpu p (.addr ch)).upd fun t => t.setKCtx p .asleep, [])
  | .wakeup ch => if a.lock = none then some (a.wakeup1 (some (.addr ch)), []) else none
  | .kill cpu pid => a.syscall cpu fun _ => some ((a.kill pid).2, [.killRet (a.kill pid).1])
  | .setpriority cpu pid priority => a.syscall cpu fun _ =>
      some ((a.setpriority pid priority).2, [.setpriorityRet (a.setpriority pid priority).1])
  | .trapKill cpu => a.unlocked cpu fun p k =>
      if k = .outside then some (a.upd fun t => t.setKilled p, []) else none

end Queues

end Xv6Kernel
