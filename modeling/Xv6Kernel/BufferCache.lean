/-
  BufferCache.lean
  ================
  The buffer cache and the disk driver (`bio.c`, `ide.c`).

  Any number of processes call `bread`, change the data of the buffers that they hold, and call
  `log_write`, `bwrite` and `brelse`, in any order.  A step is one section that holds
  `bcache.lock` or `idelock`, or an assignment of a process to a buffer that it holds.  A process
  that sleeps in `bget` starts the search again when it has been woken up.

  The list through `bcache.head` is kept as pointers; `none` is the head.

  Left out: the checks of `iderw` and `idestart` on the device and the block number, which stop
  the machine, and of the log everything but the flag that `log_write` sets.
-/
import Xv6Kernel.LogModel
import Xv6Kernel.RingList
import Xv6Kernel.TransitionSystem

namespace Xv6Kernel

open Function

def NBUF : Nat := MAXOPBLOCKS * 3

namespace BufferCache

open RingList

/-! ### The state -/

/-- The fields `dev` and `blockno`. -/
abbrev Key := Uint × Uint

/-- A `struct buf` without its links. -/
structure Buffer where
  key : Key
  busy : Bool
  valid : Bool
  dirty : Bool
  data : Block

/-- Where a process is. -/
inductive Call where
  | idle
  /-- In `bget`, before it gets `bcache.lock`. -/
  | bget (k : Key)
  /-- Asleep in `bget` for a buffer that is busy. -/
  | sleep (b : Fin NBUF) (k : Key)
  /-- In `iderw`, called by `bread` or by `bwrite`, before it gets `idelock`. -/
  | iderw (b : Fin NBUF) (reads : Bool)
  /-- Asleep in `iderw`. -/
  | wait (b : Fin NBUF) (reads : Bool)
deriving DecidableEq

structure State (P : Type) where
  buf : Fin NBUF → Buffer
  links : Links (Fin NBUF)
  idequeue : List (Fin NBUF)
  disk : Key → Block
  call : P → Call
  /-- The buffers that a process has got from `bget` and not passed to `brelse`. -/
  held : P → List (Fin NBUF)
  /-- The holder has changed the data and not called `log_write` or `bwrite` since. -/
  changed : Fin NBUF → Bool
  /-- What the last holder of a block left in it; at first what is on the disk. -/
  left : Key → Block

inductive Act (P : Type) where
  | bread (p : P) (k : Key)
  /-- The section of `bget`, from the label `loop` until it returns or goes to sleep. -/
  | bget (p : P)
  /-- The first part of `iderw`. -/
  | iderw (p : P)
  | ideintr
  /-- `iderw` finds the transfer done. -/
  | finish (p : P)
  /-- An assignment to `b->data`. -/
  | assign (p : P) (b : Fin NBUF) (data : Block)
  | logWrite (p : P) (b : Fin NBUF)
  | bwrite (p : P) (b : Fin NBUF)
  | brelse (p : P) (b : Fin NBUF)

/-- `bread` returns a buffer with this block and these data. -/
structure Event (P : Type) where
  proc : P
  key : Key
  data : Block

/-! ### Steps -/

section

variable {P : Type} [DecidableEq P]

namespace State

def setBuf (s : State P) (b : Fin NBUF) (c : Buffer) : State P :=
  { s with buf := update s.buf b c }

def setCall (s : State P) (p : P) (c : Call) : State P :=
  { s with call := update s.call p c }

def take (s : State P) (p : P) (b : Fin NBUF) : State P :=
  { s with held := update s.held p (b :: s.held p) }

/-- `wakeup(b)`; a process in `iderw` looks at the flags again, which `finish` does. -/
def wakeup (s : State P) (b : Fin NBUF) : State P :=
  { s with call := fun q =>
      match s.call q with
      | .sleep b' k => if b' = b then .bget k else .sleep b' k
      | c => c }

/-- The search of `bget` for the block. -/
def cached (s : State P) (k : Key) : Option (Fin NBUF) :=
  walk s.links.next (fun b => decide ((s.buf b).key = k)) (NBUF + 1) (s.links.next none)

/-- The search for a buffer that is neither busy nor dirty. -/
def unused (s : State P) : Option (Fin NBUF) :=
  walk s.links.prev (fun b => !(s.buf b).busy && !(s.buf b).dirty) (NBUF + 1) (s.links.prev none)

/-- `bget`, and the test of `bread` whether there is something to read; `none` is the panic. -/
def bgetStep (s : State P) (p : P) (k : Key) : Option (State P × List (Event P)) :=
  match s.cached k with
  | some b =>
      if (s.buf b).busy then some (s.setCall p (.sleep b k), [])
      else
        let s := (s.setBuf b { s.buf b with busy := true }).take p b
        if (s.buf b).valid then some (s.setCall p .idle, [⟨p, k, (s.buf b).data⟩])
        else some (s.setCall p (.iderw b true), [])
  | none =>
      match s.unused with
      | some b =>
          let s := (s.setBuf b
            { s.buf b with key := k, busy := true, valid := false, dirty := false }).take p b
          some (s.setCall p (.iderw b true), [])
      | none => none

/-- `ideintr` for the first buffer of the queue, whose transfer is done: a write if it is dirty,
    a read otherwise. -/
def complete (s : State P) (b : Fin NBUF) (queue : List (Fin NBUF)) : State P :=
  let c := s.buf b
  let disk := if c.dirty then update s.disk c.key c.data else s.disk
  let data := if c.dirty then c.data else s.disk c.key
  ({ s with idequeue := queue, disk := disk }.setBuf b
    { c with data := data, valid := true, dirty := false }).wakeup b

def brelseStep (s : State P) (p : P) (b : Fin NBUF) : State P :=
  let s := { s with
    left := update s.left (s.buf b).key (s.buf b).data
    held := update s.held p ((s.held p).erase b)
    links := (s.links.unlink b).pushFront b }
  (s.setBuf b { s.buf b with busy := false }).wakeup b

/-- The process is not inside one of the functions, and holds the buffer. -/
def Uses (s : State P) (p : P) (b : Fin NBUF) : Prop := s.call p = .idle ∧ b ∈ s.held p

instance (s : State P) (p : P) (b : Fin NBUF) : Decidable (s.Uses p b) :=
  inferInstanceAs (Decidable (_ ∧ _))

def step (s : State P) : Act P → Option (State P × List (Event P))
  | .bread p k => if s.call p = .idle then some (s.setCall p (.bget k), []) else none
  | .bget p =>
      match s.call p with
      | .bget k => s.bgetStep p k
      | _ => none
  | .iderw p =>
      match s.call p with
      | .iderw b reads =>
          some ({ s with idequeue := s.idequeue ++ [b] }.setCall p (.wait b reads), [])
      | _ => none
  | .ideintr =>
      match s.idequeue with
      | b :: queue => some (s.complete b queue, [])
      | [] => none
  | .finish p =>
      match s.call p with
      | .wait b reads =>
          if (s.buf b).valid && !(s.buf b).dirty then
            some (s.setCall p .idle,
              if reads then [⟨p, (s.buf b).key, (s.buf b).data⟩] else [])
          else none
      | _ => none
  | .assign p b data =>
      if s.Uses p b then
        some ({ s.setBuf b { s.buf b with data := data } with
          changed := update s.changed b true }, [])
      else none
  | .logWrite p b =>
      if s.Uses p b then
        some ({ s.setBuf b { s.buf b with dirty := true } with
          changed := update s.changed b false }, [])
      else none
  | .bwrite p b =>
      if s.Uses p b then
        some ({ s.setBuf b { s.buf b with dirty := true } with
          changed := update s.changed b false }.setCall p (.iderw b false), [])
      else none
  -- a holder that has changed the data has called `log_write` or `bwrite`
  | .brelse p b =>
      if s.Uses p b ∧ s.changed b = false then some (s.brelseStep p b, []) else none

end State

/-! ### Boot -/

/-- The links after the loop of `binit`. -/
def binit : Links (Fin NBUF) :=
  (List.finRange NBUF).foldl Links.pushFront ⟨fun _ => none, fun _ => none⟩

/-- The field `dev` of a buffer that was never used. -/
def NODEV : Uint := BitVec.allOnes 32

structure Booted (s : State P) : Prop where
  links : s.links = binit
  buf : ∀ b, s.buf b = ⟨(NODEV, 0), false, false, false, fun _ => 0⟩
  queue : s.idequeue = []
  call : ∀ p, s.call p = .idle
  held : ∀ p, s.held p = []
  changed : ∀ b, s.changed b = false
  left : s.left = s.disk

def system (P : Type) [DecidableEq P] : TransitionSystem (State P) (Act P) (Event P) where
  init := Booted
  step := State.step

end

end BufferCache

end Xv6Kernel
