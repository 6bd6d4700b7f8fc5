/-
  ProcTable.lean
  ==============
  The process table of `proc.c` and `proc.h`, in the build with `CS333_P3P4`.

  A slot of `ptable.proc` is a `Slot`; a `struct proc *` is an `Option Slot`.  The
  table is split in two.  `Table` holds the fields of the slots and the globals that
  the process code reads and writes.  `PTable` adds what the state lists are made
  of: the `next` field of every slot and the head pointers of `ptable.pLists`.

  `uint` fields are 32-bit vectors.  `budget` is an `int` that is computed with
  `uint` arithmetic in `budgetupdate`, so it is a 32-bit vector read with `toInt`.
  `prio` is an `int` that only ever moves by one, and is an `Int`.

  Three fields of `PTable` are not in the source: they record what happened, and no
  function of the model reads them.  `removeMiss` is set once a call of
  `removeFromStateList` has returned -1; `inserts` counts the insertions at the tail
  of a ready list and `stamp` keeps, for each slot, the number of its latest one.

  Left out, because no function of the model reads them: `tf`, `context`, `ofile` and
  `cwd`.
-/
import Mathlib.Data.BitVec
import Xv6Kernel.IntrusiveList

namespace Xv6Kernel

open Function

/-! ### Constants and types (`param.h`, `proc.h`) -/

def NPROC : Nat := 64
/-- Maximum priority value for the MLFQ. -/
def MAX : Nat := 6
def TICKS_TO_PROMOTE : Nat := 500
def BUDGET : Nat := 1700
def PGSIZE : Nat := 4096
def DEFAULTUID : Nat := 0
def DEFAULTGID : Nat := 0

instance : NeZero NPROC := ⟨by decide⟩
instance (priority := 2000) : NeZero (MAX + 1) := ⟨by decide⟩

abbrev Uint := BitVec 32
abbrev Slot := Fin NPROC
abbrev Cpu := Nat
/-- A non-null kernel address. -/
abbrev Addr := Nat

inductive ProcState where
  | unused | embryo | sleeping | runnable | running | zombie
deriving DecidableEq, Repr

/-- A non-null sleep channel: a process structure, which only `wait` sleeps on, or
    some other kernel address. -/
inductive Chan where
  | proc (p : Slot)
  | addr (a : Addr)
deriving DecidableEq, Repr

structure Proc where
  sz : Uint
  pgdir : Option Addr
  kstack : Option Addr
  state : ProcState
  pid : Uint
  parent : Option Slot
  chan : Option Chan
  killed : Bool
  name : String
  startTicks : Uint
  uid : Uint
  gid : Uint
  cpuTicksTotal : Uint
  cpuTicksIn : Uint
  prio : Int
  budget : Uint
deriving DecidableEq, Repr

/-- The lists of `struct StateLists`. -/
inductive ListId where
  | ready (i : Fin (MAX + 1))
  | free | sleep | zombie | running | embryo
deriving DecidableEq, Repr

/-- Where a process stands in the kernel while it does not hold `ptable.lock`. -/
inductive KCtx where
  | outside                   -- in none of the functions below
  | allocating (np : Slot)    -- fork: in `allocproc`, before `kalloc`
  | copying (np : Slot)       -- fork: `allocproc` has returned `np`
  | linking (np : Slot)       -- fork: before the critical section that ends it
  | asleep                    -- in `sleep`, called by other kernel code
  | asleepInWait              -- in `sleep`, called by `wait`
deriving DecidableEq, Repr

/-- What stops the kernel. -/
inductive Panic where
  | incorrectProcState        -- assertState: "Incorrect Proc State!\n"
  | incorrectProcPriority     -- assertPrio: "Incorrect Proc Priority!\n"
  | initExiting               -- exit: "init exiting"
  | schedRunning              -- sched: "sched running"
  | outOfMemory               -- userinit: "userinit: out of memory?"
  | nullPointer               -- a null pointer is followed
  | outOfBounds               -- `ready[i]` with `i` outside `0..MAX`
  | diverges                  -- a pointer loop runs for more than `NPROC` steps
deriving DecidableEq, Repr

structure Table where
  proc : Slot → Proc
  promoteAtTime : Uint
  initproc : Option Slot
  nextpid : Uint
  ticks : Uint
  /-- The CPU that holds `ptable.lock` across a `swtch` into a process. -/
  lock : Option Cpu
  /-- The per-CPU variable `proc`. -/
  cpuProc : Cpu → Option Slot
  kctx : Slot → KCtx

structure PTable extends Table where
  next : Slot → Option Slot
  pLists : ListId → Option Slot
  removeMiss : Bool
  inserts : Nat
  stamp : Slot → Nat

/-! ### Assignments to fields -/

namespace Table

variable (t : Table)

@[simps -fullyApplied]
def setProc (p : Slot) (f : Proc → Proc) : Table :=
  { t with proc := update t.proc p (f (t.proc p)) }

abbrev setState (p : Slot) (st : ProcState) : Table :=
  t.setProc p fun r => { r with state := st }

abbrev setParent (p : Slot) (q : Option Slot) : Table :=
  t.setProc p fun r => { r with parent := q }

abbrev setKilled (p : Slot) : Table :=
  t.setProc p fun r => { r with killed := true }

abbrev setChan (p : Slot) (ch : Option Chan) : Table :=
  t.setProc p fun r => { r with chan := ch }

@[simps -fullyApplied]
def setKCtx (p : Slot) (k : KCtx) : Table :=
  { t with kctx := update t.kctx p k }

@[simps -fullyApplied]
def setCpu (cpu : Cpu) (p : Option Slot) : Table :=
  { t with cpuProc := update t.cpuProc cpu p }

@[simps -fullyApplied]
def setLock (l : Option Cpu) : Table := { t with lock := l }

end Table

namespace PTable

/-- Apply an assignment to fields other than the list pointers. -/
def upd (s : PTable) (f : Table → Table) : PTable := { s with toTable := f s.toTable }

/-- Assign `p->next = q`. -/
def setNext (s : PTable) (p : Slot) (q : Option Slot) : PTable :=
  { s with next := update s.next p q }

/-- Assign the head pointer of a list. -/
def setHead (s : PTable) (l : ListId) (q : Option Slot) : PTable :=
  { s with pLists := update s.pLists l q }

/-- Record the return code of a call of `removeFromStateList`. -/
def noteRemove (s : PTable) (rc : Int) : PTable :=
  { s with removeMiss := s.removeMiss || decide (rc < 0) }

/-- Record an insertion of `p` at the tail of a ready list. -/
def noteInsert (s : PTable) (p : Slot) : PTable :=
  { s with inserts := s.inserts + 1, stamp := update s.stamp p s.inserts }

end PTable

/-! ### The list helpers of `proc.c` -/

namespace PTable

open IntrusiveList

def insertHead (l : ListId) (p : Option Slot) (s : PTable) : Int × PTable :=
  match p with
  | none => (-1, s)
  | some p => (0, (s.setNext p (s.pLists l)).setHead l (some p))

def insertTail (l : ListId) (p : Option Slot) (s : PTable) : Except Panic (Int × PTable) :=
  match p with
  | none => .ok (-1, s)
  | some p =>
      match s.pLists l with
      | none => .ok (0, (s.setHead l (some p)).setNext p none)
      | some curr =>
          match lastNode s.next NPROC curr with
          | none => .error .diverges
          | some t => .ok (0, (s.setNext t (some p)).setNext p none)

def removeFromStateList (l : ListId) (p : Option Slot) (s : PTable) :
    Except Panic (Int × PTable) :=
  match s.pLists l, p with
  | none, _ => .ok (-1, s)
  | some _, none => .ok (-1, s)
  | some h, some p =>
      if h = p then
        -- list beginning
        .ok (0, (s.setHead l (s.next h)).setNext h none)
      else
        match scanTo s.next p NPROC none (some h) with
        | none => .error .diverges
        | some (_, none) => .ok (-1, s)
        | some (none, some _) => .error .nullPointer
        | some (some new, some curr) =>
            -- middle/end
            .ok (0, (s.setNext new (s.next curr)).setNext curr none)

def assertState (p : Slot) (state : ProcState) (s : PTable) : Except Panic Unit :=
  if (s.proc p).state ≠ state then .error .incorrectProcState else .ok ()

def assertPrio (p : Slot) (expectedPrio : Int) (s : PTable) : Except Panic Unit :=
  if (s.proc p).prio ≠ expectedPrio then .error .incorrectProcPriority else .ok ()

/-! The callers of the helpers drop the return codes.  These wrappers keep the record
of them that `PTable` has room for. -/

def pushHead (l : ListId) (p : Slot) (s : PTable) : PTable := (s.insertHead l (some p)).2

def pushReady (i : Fin (MAX + 1)) (p : Slot) (s : PTable) : Except Panic PTable := do
  let (_, s) ← s.insertTail (.ready i) (some p)
  return s.noteInsert p

def remove (l : ListId) (p : Slot) (s : PTable) : Except Panic PTable := do
  let (rc, s) ← s.removeFromStateList l (some p)
  return s.noteRemove rc

def removeFromReadyList (i : Fin (MAX + 1)) (p : Slot) (s : PTable) : Except Panic PTable := do
  let s ← s.remove (.ready i) p
  s.assertPrio p (i : Nat)
  s.assertState p .runnable
  return s

/-- The index of `ready[i]` for an `int` expression `i`. -/
def readyIndex (i : Int) : Except Panic (Fin (MAX + 1)) :=
  if h : 0 ≤ i ∧ i ≤ MAX then .ok ⟨i.toNat, by omega⟩ else .error .outOfBounds

/-- `for(p = list; p; p = p->next) body(p);` -/
def forList {β : Type} (l : ListId)
    (body : Slot → PTable → Except Panic (Option β × PTable)) (s : PTable) :
    Except Panic (Option β × PTable) :=
  forEach PTable.next .diverges body NPROC (s.pLists l) s

end PTable

end Xv6Kernel
