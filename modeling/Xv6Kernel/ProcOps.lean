/-
  ProcOps.lean
  ============
  The process operations of `proc.c`, in the build with `CS333_P3P4`.

  Each definition is the code that one function runs between taking and releasing
  `ptable.lock`, or between two releases where the function takes the lock several
  times: `allocproc` and `fork` are cut at `kalloc` and `copyuvm`, whose results are
  parameters (`none` is the null pointer).  `proc` of the source is the argument `p`.
  `sleep` and `yield` end in `sched`, which gives the CPU back to `scheduler`; what the
  process does when it runs again is `resume`.

  The file descriptors and the current directory that `fork` copies and `exit` closes
  are not part of the process table.
-/
import Xv6Kernel.ProcTable

namespace Xv6Kernel

/-- What an observer sees of one step. -/
inductive Ev where
  | born (p : Slot)                                   -- allocproc made `p` an EMBRYO
  | forkRet (p : Slot) (v : Int)                      -- fork returns `v` to `p`
  | exited (p : Slot)
  | waitRet (p : Slot) (child : Option Slot) (v : Int) -- wait returns `v` to `p`
  | dispatched (p : Slot)
  | killRet (v : Int)
  | setpriorityRet (v : Int)
deriving DecidableEq, Repr

namespace Proc

/-! ### budgetupdate and sched -/

/-- The assignments of `budgetupdate`, for the tick count `now`. -/
def budgetupdate (now : Uint) (r : Proc) : Proc :=
  let b := r.budget - (now - r.cpuTicksIn)
  if b.toInt ≤ 0 then
    { r with
      -- no need to change the bottom prio
      prio := if r.prio < MAX ∧ MAX ≠ 0 then r.prio + 1 else r.prio
      budget := BitVec.ofNat 32 BUDGET }
  else { r with budget := b }

/-- The assignments of `sched` before its `swtch`. -/
def schedTicks (now : Uint) (r : Proc) : Proc :=
  { r with cpuTicksTotal := r.cpuTicksTotal + (now - r.cpuTicksIn) }

/-- The assignments of `allocproc` after `kalloc` has succeeded. -/
def allocprocFields (kstack : Addr) (now : Uint) (r : Proc) : Proc :=
  { r with
    kstack := some kstack
    startTicks := now
    cpuTicksTotal := 0
    cpuTicksIn := 0
    prio := 0
    budget := BitVec.ofNat 32 BUDGET }

/-- The assignments of `fork` after `copyuvm` has succeeded; `q` is the caller. -/
def forkFields (pgdir : Addr) (parent : Slot) (q : Proc) (r : Proc) : Proc :=
  { r with
    pgdir := some pgdir
    sz := q.sz
    parent := some parent
    uid := q.uid
    gid := q.gid
    name := q.name }

/-- The assignments of `userinit` to the slot of init. -/
def userinitFields (pgdir : Addr) (r : Proc) : Proc :=
  { r with
    pgdir := some pgdir
    sz := BitVec.ofNat 32 PGSIZE
    name := "initcode"
    uid := BitVec.ofNat 32 DEFAULTUID
    gid := BitVec.ofNat 32 DEFAULTGID }

/-- The last assignments of `wait` to the slot it frees. -/
def reapFields (r : Proc) : Proc :=
  { r with pid := 0, parent := none, name := "", killed := false }

end Proc

/-- The table after `sched` has been called by `p` on `cpu`: back in `scheduler` the CPU
    has no process, and the lock is released. -/
def Table.leaveCpu (cpu : Cpu) (p : Slot) (t : Table) : Table :=
  ((t.setProc p (Proc.schedTicks t.ticks)).setCpu cpu none).setLock none

namespace PTable

def budgetupdate (p : Slot) (s : PTable) : PTable :=
  s.upd fun t => t.setProc p (Proc.budgetupdate t.ticks)

def sched (cpu : Cpu) (p : Slot) (s : PTable) : Except Panic PTable :=
  if (s.proc p).state = .running then .error .schedRunning
  else .ok (s.upd (Table.leaveCpu cpu p))

/-! ### allocproc and fork -/

/-- The critical section of `allocproc`. -/
def allocproc (s : PTable) : Except Panic (Option Slot × PTable) :=
  match s.pLists .free with
  | none => .ok (none, s)
  | some p => do
      let s ← s.remove .free p
      s.assertState p .unused
      let s := s.upd fun t => t.setState p .embryo
      let s := s.pushHead .embryo p
      let s := s.upd fun t =>
        { t.setProc p (fun r => { r with pid := t.nextpid }) with nextpid := t.nextpid + 1 }
      return (some p, s)

/-- A new process that cannot be completed goes back to the free list: the critical
    section after a failed `kalloc` in `allocproc` and after a failed `copyuvm` in
    `fork`. -/
def freeEmbryo (np : Slot) (s : PTable) : Except Panic PTable := do
  let s ← s.remove .embryo np
  s.assertState np .embryo
  let s := s.upd fun t => t.setState np .unused
  return s.pushHead .free np

/-- `allocproc` from `kalloc` on, without its failure path. -/
def allocprocDone (np : Slot) (kstack : Addr) (s : PTable) : PTable :=
  s.upd fun t => t.setProc np (Proc.allocprocFields kstack t.ticks)

/-- `allocproc` with a failed `kalloc`. -/
def kallocFails (np : Slot) (s : PTable) : Except Panic PTable :=
  (s.upd fun t => t.setProc np fun r => { r with kstack := none }).freeEmbryo np

/-- `fork` with a failed `copyuvm`. -/
def copyuvmFails (np : Slot) (s : PTable) : Except Panic PTable :=
  (s.upd fun t => t.setProc np fun r => { r with pgdir := none, kstack := none }).freeEmbryo np

/-- `fork` from a successful `copyuvm` to the last critical section. -/
def copyuvmDone (p np : Slot) (pgdir : Addr) (s : PTable) : PTable :=
  s.upd fun t => t.setProc np (Proc.forkFields pgdir p (t.proc p))

/-- The last critical section of `fork`. -/
def forkFinish (np : Slot) (s : PTable) : Except Panic PTable := do
  let s ← s.remove .embryo np
  s.assertState np .embryo
  let s := s.upd fun t => t.setState np .runnable
  s.pushReady 0 np

/-! ### sleep, wakeup1 and yield -/

/-- `sleep(chan, lk)` up to the `swtch`, with `ptable.lock` held. -/
def sleep (cpu : Cpu) (p : Slot) (chan : Chan) (s : PTable) : Except Panic PTable := do
  let s := s.upd fun t => t.setChan p (some chan)
  let s ← s.remove .running p
  s.assertState p .running
  let s := s.upd fun t => t.setState p .sleeping
  let s := s.budgetupdate p
  let s := s.pushHead .sleep p
  s.sched cpu p

/-- The loop of `wakeup1`: the node after `p` is read before `p` is moved. -/
def wakeup1Loop (chan : Option Chan) : Nat → Option Slot → PTable → Except Panic PTable
  | _, none, s => .ok s
  | 0, some _, _ => .error .diverges
  | fuel + 1, some p, s =>
      let curr := s.next p
      if (s.proc p).chan = chan then do
        let s ← s.remove .sleep p
        s.assertState p .sleeping
        let s := s.upd fun t => t.setState p .runnable
        let i ← readyIndex (s.proc p).prio
        let s ← s.pushReady i p
        wakeup1Loop chan fuel curr s
      else wakeup1Loop chan fuel curr s

def wakeup1 (chan : Option Chan) (s : PTable) : Except Panic PTable :=
  wakeup1Loop chan NPROC (s.pLists .sleep) s

def yield (cpu : Cpu) (p : Slot) (s : PTable) : Except Panic PTable := do
  let s ← s.remove .running p
  s.assertState p .running
  let s := s.upd fun t => t.setState p .runnable
  let s := s.budgetupdate p
  let i ← readyIndex (s.proc p).prio
  let s ← s.pushReady i p
  s.sched cpu p

/-! ### exit and wait -/

def readyLists : List ListId := (List.finRange (MAX + 1)).map ListId.ready

/-- The lists that `exit` and `wait` search in the same way, in their order. -/
def childLists : List ListId := readyLists ++ [.running, .sleep, .embryo]

/-- The body of a loop, as `forList` expects it: the loop goes on if there is no result. -/
abbrev Body (β : Type) := PTable → Except Panic (Option β × PTable)

def reparentOne (p q : Slot) : Body Unit := fun s =>
  if (s.proc q).parent = some p then .ok (none, s.upd fun t => t.setParent q t.initproc)
  else .ok (none, s)

/-- One of the loops of `exit` that pass the children of `p` on a list to init. -/
def reparentList (p : Slot) (s : PTable) (l : ListId) : Except Panic PTable := do
  let (_, s) ← s.forList l (reparentOne p)
  return s

def reparentZombie (p q : Slot) : Body Unit := fun s =>
  if (s.proc q).parent = some p then do
    let s := s.upd fun t => t.setParent q t.initproc
    let s ← s.wakeup1 (s.initproc.map Chan.proc)
    return (none, s)
  else .ok (none, s)

/-- The loop of `exit` over the zombie list, which also wakes init. -/
def reparentZombies (p : Slot) (s : PTable) : Except Panic PTable := do
  let (_, s) ← s.forList .zombie (reparentZombie p)
  return s

def exit (cpu : Cpu) (p : Slot) (s : PTable) : Except Panic PTable :=
  if some p = s.initproc then .error .initExiting
  else do
    -- parent might be sleeping in wait()
    let s ← s.wakeup1 ((s.proc p).parent.map Chan.proc)
    -- pass abandoned children to init
    let s ← childLists.foldlM (reparentList p) s
    let s ← s.reparentZombies p
    let s ← s.remove .running p
    s.assertState p .running
    let s := s.upd fun t => t.setState p .zombie
    let s := s.pushHead .zombie p
    s.sched cpu p

/-- How one pass of the loop of `wait` ends. -/
inductive WaitResult where
  | reaped (child : Slot) (pid : Uint)
  | failed
  | sleeps

/-- The body of the loop of `wait` over the zombie list: a child of `p` is freed. -/
def reapOne (p q : Slot) : Body (Slot × Uint) := fun s =>
  if (s.proc q).parent ≠ some p then .ok (none, s)
  else do
    let pid := (s.proc q).pid
    let s := s.upd fun t => t.setProc q fun r => { r with kstack := none }
    let s ← s.remove .zombie q
    s.assertState q .zombie
    let s := s.upd fun t => t.setState q .unused
    let s := s.pushHead .free q
    let s := s.upd fun t => t.setProc q Proc.reapFields
    return (some (q, pid), s)

def childOne (p q : Slot) : Body Unit := fun s =>
  if (s.proc q).parent ≠ some p then .ok (none, s) else .ok (some (), s)

/-- One of the loops of `wait` that look for a child: nothing happens once `found`. -/
def findChild (p : Slot) (s : PTable) (found : Bool) (l : ListId) : Except Panic Bool :=
  if found then .ok true
  else do
    let (r, _) ← s.forList l (childOne p)
    return r.isSome

/-- One pass of the `for(;;)` loop of `wait`. -/
def waitPass (cpu : Cpu) (p : Slot) (s : PTable) : Except Panic (WaitResult × PTable) := do
  let (r, s) ← s.forList .zombie (reapOne p)
  match r with
  | some (q, pid) => return (.reaped q pid, s)
  | none =>
      let havekids ← childLists.foldlM (findChild p s) false
      if !havekids || (s.proc p).killed then return (.failed, s)
      else do
        let s ← s.sleep cpu p (.proc p)
        return (.sleeps, s)

/-! ### prioadjust and scheduler -/

def decrementOne (p : Slot) : Body Unit := fun s =>
  if (s.proc p).prio ≠ 0 then
    .ok (none, s.upd fun t => t.setProc p fun r => { r with prio := r.prio - 1 })
  else .ok (none, s)

/-- A loop of `prioadjust` over the sleep or the running list. -/
def decrementPrio (s : PTable) (l : ListId) : Except Panic PTable := do
  let (_, s) ← s.forList l decrementOne
  return s

def promoteOne (i : Fin (MAX + 1)) (p : Slot) : Body Unit := fun s => do
  let s ← s.removeFromReadyList i p
  let s := s.upd fun t => t.setProc p fun r => { r with prio := r.prio - 1 }
  let j ← readyIndex (s.proc p).prio
  let s ← s.pushReady j p
  return (none, s)

/-- The loop of `prioadjust` over `ready[i]`.  The node after `p` is read after `p`
    has been moved to the tail of another list. -/
def promoteList (s : PTable) (i : Fin (MAX + 1)) : Except Panic PTable := do
  let (_, s) ← s.forList (.ready i) (promoteOne i)
  return s

def prioadjust (s : PTable) : Except Panic PTable := do
  let s ← s.decrementPrio .sleep
  let s ← s.decrementPrio .running
  let s ← (List.finRange (MAX + 1)).tail.foldlM promoteList s
  return s.upd fun t => { t with promoteAtTime := t.ticks + BitVec.ofNat 32 TICKS_TO_PROMOTE }

/-- The loop of `scheduler` over the ready lists: the first non-empty one. -/
def firstReady (s : PTable) : List (Fin (MAX + 1)) → Option (Fin (MAX + 1) × Slot)
  | [] => none
  | i :: is =>
      match s.pLists (.ready i) with
      | some p => some (i, p)
      | none => firstReady s is

/-- The periodic promotion at the start of a pass of `scheduler`. -/
def promoteIfDue (s : PTable) : Except Panic PTable :=
  if s.promoteAtTime ≤ s.ticks then s.prioadjust else .ok s

/-- One pass of the loop of `scheduler` on `cpu`, up to the `swtch` into the chosen
    process, which inherits the lock. -/
def scheduler (cpu : Cpu) (s : PTable) : Except Panic (Option Slot × PTable) := do
  let s ← s.promoteIfDue
  match s.firstReady (List.finRange (MAX + 1)) with
  | none => return (none, s)
  | some (i, p) => do
      let s ← s.removeFromReadyList i p
      let s := s.upd fun t => t.setState p .running
      let s := s.pushHead .running p
      let s := s.upd fun t =>
        ((t.setProc p fun r => { r with cpuTicksIn := t.ticks }).setCpu cpu (some p)).setLock
          (some cpu)
      return (some p, s)

/-! ### kill and setpriority -/

/-- The body of the loops of `kill` over all lists but the sleep list. -/
def killOne (pid : Uint) (p : Slot) : Body Unit := fun s =>
  if (s.proc p).pid = pid then .ok (some (), s.upd fun t => t.setKilled p)
  else .ok (none, s)

/-- The body of the last loop of `kill`, which wakes the process from its sleep. -/
def killSleeper (pid : Uint) (p : Slot) : Body Unit := fun s =>
  if (s.proc p).pid = pid then do
    let s := s.upd fun t => t.setKilled p
    let s ← s.remove .sleep p
    s.assertState p .sleeping
    let s := s.upd fun t => t.setState p .runnable
    let i ← readyIndex (s.proc p).prio
    let s ← s.pushReady i p
    return (some (), s)
  else .ok (none, s)

/-- Search several lists in turn and stop at the first hit. -/
def firstHit (body : ListId → Slot → Body Unit) : List ListId → Body Unit
  | [], s => .ok (none, s)
  | l :: ls, s => do
      let (r, s) ← s.forList l (body l)
      match r with
      | some u => return (some u, s)
      | none => firstHit body ls s

def kill (pid : Uint) (s : PTable) : Except Panic (Int × PTable) := do
  let (r, s) ← firstHit (fun _ => killOne pid) (readyLists ++ [.running, .embryo, .zombie]) s
  match r with
  | some _ => return (0, s)
  | none => do
      let (r, s) ← s.forList .sleep (killSleeper pid)
      match r with
      | some _ => return (0, s)
      | none => return (-1, s)

/-- The assignments of `setpriority`. -/
def setPrioFields (priority : Int) (r : Proc) : Proc :=
  { r with prio := priority, budget := BitVec.ofNat 32 BUDGET }

/-- The body of the loops of `setpriority`.  On `ready[i]` nothing changes when `priority`
    is `i`. -/
def setpriorityOne (pid : Uint) (priority : Int) (l : ListId) (p : Slot) : Body Unit := fun s =>
  if (s.proc p).pid = pid then
    match l with
    | .ready i =>
        if priority ≠ (i : Nat) then do
          let s ← s.removeFromReadyList i p
          let s := s.upd fun t => t.setProc p (setPrioFields priority)
          let j ← readyIndex priority
          let s ← s.pushReady j p
          return (some (), s)
        else .ok (some (), s)
    | _ => .ok (some (), s.upd fun t => t.setProc p (setPrioFields priority))
  else .ok (none, s)

def setpriority (pid : Uint) (priority : Int) (s : PTable) : Except Panic (Int × PTable) :=
  if 0 > priority ∨ MAX < priority then .ok (-1, s)
  else do
    let (r, s) ← firstHit (setpriorityOne pid priority) (readyLists ++ [.running, .sleep]) s
    match r with
    | some _ => return (0, s)
    | none => return (-1, s)

/-! ### userinit -/

/-- The zero-initialised kernel data, at tick count `now`. -/
def boot (now : Uint) : PTable where
  proc _ :=
    { sz := 0, pgdir := none, kstack := none, state := .unused, pid := 0, parent := none,
      chan := none, killed := false, name := "", startTicks := 0, uid := 0, gid := 0,
      cpuTicksTotal := 0, cpuTicksIn := 0, prio := 0, budget := 0 }
  promoteAtTime := 0
  initproc := none
  nextpid := 1
  ticks := now
  lock := none
  cpuProc _ := none
  kctx _ := .outside
  removeMiss := false
  inserts := 0
  stamp _ := 0
  next _ := none
  pLists _ := none

/-- The first critical section of `userinit`: every slot goes on the free list. -/
def initLists (s : PTable) : PTable :=
  let s := s.upd fun t => { t with promoteAtTime := BitVec.ofNat 32 TICKS_TO_PROMOTE }
  let s := { s with pLists := fun _ => none }
  (List.finRange NPROC).foldl
    (fun s curr => (s.upd fun t => t.setState curr .unused).pushHead .free curr) s

/-- The whole of `userinit`, for the results `kstack` of `kalloc` and `pgdir` of
    `setupkvm`. -/
def userinit (kstack pgdir : Option Addr) (s : PTable) : Except Panic PTable := do
  let (r, s) ← s.initLists.allocproc
  match r, kstack, pgdir with
  | none, _, _ => .error .nullPointer
  | _, none, _ => .error .nullPointer
  | _, _, none => .error .outOfMemory
  | some p, some kstack, some pgdir =>
      let s := s.allocprocDone p kstack
      let s := s.upd fun t => { t.setProc p (Proc.userinitFields pgdir) with initproc := some p }
      let s ← s.remove .embryo p
      s.assertState p .embryo
      let s := s.upd fun t => t.setState p .runnable
      -- the ready list is assigned directly, without insertTail
      let s := (s.setHead (.ready 0) (some p)).setNext p none
      return s.noteInsert p

end PTable

end Xv6Kernel
