/-
  KernelOps.lean
  ==============
  The inode cache, the file table and the operations on them (`fs.c`, `file.c`).

  An operation is what a process does in one go: a section that holds `icache.lock`,
  `ftable.lock` or `log.lock`, or a function on an inode that the process has locked.  The
  functions that run under an inode's lock change the disk one buffer at a time and only
  blocks of that inode, apart from the free map and the inode's own slot, so they count as
  one step each.  The system calls are programs of these operations (`SysFile`).

  A `struct inode *` is an index of `icache.inode`, a `struct file *` one of `ftable.file`.
  A slot of the process table has the fields that the file system uses.

  A pipe is named by its page; what is in it is the subject of `Pipe`.

  Left out: `dev`, since there is one disk.
-/
import Xv6Kernel.AtomicProg
import Xv6Kernel.FsInode

namespace Xv6Kernel

open AtomicProg PanicMonad Function

/-! ### The state -/

def NINODE : Nat := 50
def NFILE : Nat := 100
def NOFILE : Nat := 16
/-- The inode number of the root directory. -/
def ROOTINO : Nat := 1
def DEFAULTMODE : Nat := 0o755

instance : NeZero NINODE := ⟨by decide⟩
instance : NeZero NFILE := ⟨by decide⟩
instance : NeZero NOFILE := ⟨by decide⟩

/-- The fields of an inode other than its size and its blocks. -/
structure InodeFields where
  type : InodeType
  major : BitVec 16
  minor : BitVec 16
  nlink : BitVec 16
  uid : BitVec 16
  gid : BitVec 16
  mode : Uint
deriving DecidableEq

def Inode.fields (ip : Inode) : InodeFields where
  type := ip.type
  major := ip.major
  minor := ip.minor
  nlink := ip.nlink
  uid := ip.uid
  gid := ip.gid
  mode := ip.mode

def Inode.withFields (ip : Inode) (f : InodeFields) : Inode where
  inum := ip.inum
  type := f.type
  major := f.major
  minor := f.minor
  nlink := f.nlink
  uid := f.uid
  gid := f.gid
  mode := f.mode
  size := ip.size
  addrs := ip.addrs

/-- An entry of the inode cache; `busy` and `valid` are its flags. -/
structure CachedInode where
  ref : Nat
  busy : Bool
  valid : Bool
  ip : Inode

/-- A `struct file`. -/
structure FileSlot where
  type : FdType
  ref : Nat
  readable : Bool
  writable : Bool
  pipe : Nat
  ip : Fin NINODE
  off : Nat

inductive ProcUse where
  | free
  | embryo
  | live
deriving DecidableEq

/-- The fields of a `struct proc` that the file system uses. -/
structure ProcFiles where
  use : ProcUse
  cwd : Option (Fin NINODE)
  ofile : Fin NOFILE → Option (Fin NFILE)

/-- The ends of the pipe in a page.  The code has no counters: how often the page was allocated
    for a pipe, how often `pipeclose` was called for the read end (`false`) and the write end
    (`true`), and how often it passed the page to `kfree`. -/
structure PipePage where
  isopen : Bool → Bool
  allocs : Nat
  closes : Bool → Nat
  frees : Nat

namespace PipePage

/-- The page is a pipe again, with both ends open. -/
def renew (c : PipePage) : PipePage :=
  { c with isopen := fun _ => true, allocs := c.allocs + 1 }

/-- `pipeclose(p, writable)`. -/
def close (c : PipePage) (writable : Bool) : PipePage :=
  let isopen := update c.isopen writable false
  { c with
    isopen := isopen
    closes := update c.closes writable (c.closes writable + 1)
    frees := if isopen false = false ∧ isopen true = false then c.frees + 1 else c.frees }

end PipePage

structure Kernel where
  fs : Fs
  /-- `log.outstanding`. -/
  outstanding : Nat
  icache : Fin NINODE → CachedInode
  ftable : Fin NFILE → FileSlot
  procs : Fin NPROC → ProcFiles
  pipes : Nat → PipePage

/-- What a process reads of an inode that it has locked. -/
structure InodeInfo where
  inum : Nat
  fields : InodeFields
  size : Nat

/-! ### The operations -/

inductive KOp : Type → Type where
  | panic (e : FsPanic) : KOp Empty
  | beginOp : KOp Unit
  | endOp : KOp Unit
  | iget (inum : Nat) : KOp (Fin NINODE)
  | idup (ip : Fin NINODE) : KOp Unit
  /-- The test of `ilock` that the inode is referenced. -/
  | ilockCheck (ip : Fin NINODE) : KOp Unit
  /-- Its loop that waits for `I_BUSY` to be clear. -/
  | ilockWait (ip : Fin NINODE) : KOp Unit
  /-- The part that reads the inode from the disk. -/
  | ilockLoad (ip : Fin NINODE) : KOp Unit
  | iunlock (ip : Fin NINODE) : KOp Unit
  /-- The section of `iput` that decides whether to free the inode. -/
  | iputBegin (ip : Fin NINODE) : KOp Bool
  /-- The section at its end after it has freed the inode. -/
  | iputEnd (ip : Fin NINODE) : KOp Unit
  /-- What it does in between: `itrunc`, then the type becomes 0. -/
  | ifree (ip : Fin NINODE) : KOp Unit
  | iupdate (ip : Fin NINODE) : KOp Unit
  | ninodes : KOp Nat
  | iallocTry (type : InodeType) (inum : Nat) : KOp Bool
  /-- Reading the fields of an inode. -/
  | inode (ip : Fin NINODE) : KOp InodeInfo
  /-- Assignments to the fields of an inode. -/
  | setFields (ip : Fin NINODE) (f : InodeFields → InodeFields) : KOp Unit
  | readi (ip : Fin NINODE) (off n : Nat) : KOp (Int × List Byte)
  | writei (ip : Fin NINODE) (src : Nat → Byte) (off n : Nat) : KOp Int
  | filealloc : KOp (Option (Fin NFILE))
  | filedup (f : Fin NFILE) : KOp Unit
  /-- The section of `fileclose`; returns the old contents of an entry that becomes free. -/
  | fileput (f : Fin NFILE) : KOp (Option FileSlot)
  | file (f : Fin NFILE) : KOp FileSlot
  /-- The assignments of `sys_open` to a new entry, and those of `pipealloc`. -/
  | setFile (f : Fin NFILE) (ip : Fin NINODE) (readable writable : Bool) : KOp Unit
  | setPipe (f : Fin NFILE) (page : Nat) (readable writable : Bool) : KOp Unit
  /-- The assignments of `pipealloc` to the page that `kalloc` returned. -/
  | pipeInit (page : Nat) : KOp Unit
  | pipeclose (page : Nat) (writable : Bool) : KOp Unit
  | setOff (f : Fin NFILE) (off : Nat) : KOp Unit
  | fdalloc (p : Fin NPROC) (f : Fin NFILE) : KOp (Option (Fin NOFILE))
  | ofile (p : Fin NPROC) (fd : Fin NOFILE) : KOp (Option (Fin NFILE))
  | clearFd (p : Fin NPROC) (fd : Fin NOFILE) : KOp Unit
  | cwd (p : Fin NPROC) : KOp (Option (Fin NINODE))
  | setCwd (p : Fin NPROC) (ip : Option (Fin NINODE)) : KOp Unit
  /-- `allocproc`, for the slot that it picks. -/
  | allocproc (np : Fin NPROC) : KOp Unit
  /-- The slot gets the files of the parent and becomes runnable. -/
  | setproc (np : Fin NPROC) (dir : Option (Fin NINODE)) (files : Fin NOFILE → Option (Fin NFILE)) :
      KOp Unit
  | freeproc (p : Fin NPROC) : KOp Unit

/-! ### Their effect -/

abbrev KM := EStateM FsPanic Kernel

/-- A function of the disk layer. -/
def onFs {α : Type} (x : FsM α) : KM α := fun k =>
  match x k.fs with
  | .ok a fs => .ok a { k with fs := fs }
  | .error e fs => .error e { k with fs := fs }

namespace Kernel

def setEntry (k : Kernel) (ip : Fin NINODE) (c : CachedInode) : Kernel :=
  { k with icache := update k.icache ip c }

def setFileSlot (k : Kernel) (f : Fin NFILE) (c : FileSlot) : Kernel :=
  { k with ftable := update k.ftable f c }

def setProc (k : Kernel) (p : Fin NPROC) (c : ProcFiles) : Kernel :=
  { k with procs := update k.procs p c }

def setPipePage (k : Kernel) (page : Nat) (c : PipePage) : Kernel :=
  { k with pipes := update k.pipes page c }

/-- The entry that `iget` finds for an inode number. -/
def cached (k : Kernel) (inum : Nat) : Option (Fin NINODE) :=
  (List.finRange NINODE).find? fun e =>
    decide (0 < (k.icache e).ref) && decide ((k.icache e).ip.inum = inum)

/-- The first entry without references. -/
def emptyEntry (k : Kernel) : Option (Fin NINODE) :=
  (List.finRange NINODE).find? fun e => decide ((k.icache e).ref = 0)

end Kernel

/-- A function of the disk layer on a cached inode, which may change it. -/
def onInode {α : Type} (ip : Fin NINODE) (x : Inode → FsM (α × Inode)) : KM α := do
  let k ← get
  let (a, i) ← onFs (x (k.icache ip).ip)
  modify fun k => k.setEntry ip { k.icache ip with ip := i }
  return a

section

variable {β : Type} {k : Kernel} {ip : Fin NINODE}

/-- A function of the disk layer leaves the rest of the state alone. -/
theorem onFs_wp
    (h : wp x (fun r fs => P r { k with fs := fs }) (fun e fs => E e { k with fs := fs }) k.fs) :
    wp (onFs x) P E k := by
  unfold wp at h
  cases hx : x k.fs with
  | ok r fs =>
    rw [hx] at h
    have hon : onFs x k = .ok r { k with fs := fs } := by
      unfold onFs
      simp only [hx]
    unfold wp
    rw [hon]
    exact h
  | error e fs =>
    rw [hx] at h
    have hon : onFs x k = .error e { k with fs := fs } := by
      unfold onFs
      simp only [hx]
    unfold wp
    rw [hon]
    exact h

theorem onInode_wp {P : β → Kernel → Prop}
    {E : FsPanic → Kernel → Prop} (h : wp (x (k.icache ip).ip) (fun r fs => P r.1
      (Kernel.setEntry { k with fs := fs } ip { k.icache ip with ip := r.2 }))
      (fun e fs => E e { k with fs := fs }) k.fs) : wp (onInode ip x) P E k := by
  unfold onInode
  simp only [wp_bind, wp_get]
  exact onFs_wp h

end

/-- What `iput` does to an inode that nothing refers to. -/
def ifree (ip : Inode) : FsM (Unit × Inode) := do
  let ip ← itrunc ip
  let ip := { ip with type := .free }
  iupdate ip
  return ((), ip)

def beginOpSem : KM Unit := modify fun k =>
  { k with
    outstanding := k.outstanding + 1
    fs := { k.fs with current := some (k.fs.current.getD []) } }

def endOpSem : KM Unit := modify fun k =>
  if k.outstanding = 1 then
    { k with
      outstanding := 0
      fs := { k.fs with current := none, done := k.fs.done ++ k.fs.current.toList } }
  else { k with outstanding := k.outstanding - 1 }

def igetSem (inum : Nat) : KM (Fin NINODE) := do
  let k ← get
  match k.cached inum with
  | some e =>
      set (k.setEntry e { k.icache e with ref := (k.icache e).ref + 1 })
      return e
  | none =>
      match k.emptyEntry with
      | some e =>
          -- recycle the entry
          set (k.setEntry e { ref := 1, busy := false, valid := false, ip :=
            { (k.icache e).ip with
              inum := inum, uid := BitVec.ofNat 16 DEFAULTUID, gid := BitVec.ofNat 16 DEFAULTGID,
              mode := BitVec.ofNat 32 DEFAULTMODE } })
          return e
      | none => throw .igetNoInodes

def idupSem (ip : Fin NINODE) : KM Unit := modify fun k =>
  k.setEntry ip { k.icache ip with ref := (k.icache ip).ref + 1 }

def ilockLoadSem (ip : Fin NINODE) : KM Unit := do
  let k ← get
  let c := k.icache ip
  if c.valid = false then
    set (k.setEntry ip { c with valid := true, ip := k.fs.dinode c.ip.inum })
    if (k.fs.dinode c.ip.inum).type = .free then throw .ilockNoType
  else return ()

def iunlockSem (ip : Fin NINODE) : KM Unit := do
  let k ← get
  let c := k.icache ip
  if c.busy = false ∨ c.ref < 1 then throw .iunlock
  else set (k.setEntry ip { c with busy := false })

def iputBeginSem (ip : Fin NINODE) : KM Bool := do
  let k ← get
  let c := k.icache ip
  if c.ref = 1 ∧ c.valid = true ∧ c.ip.nlink = 0 then
    if c.busy = true then throw .iputBusy
    else
      set (k.setEntry ip { c with busy := true })
      return true
  else
    set (k.setEntry ip { c with ref := c.ref - 1 })
    return false

def iputEndSem (ip : Fin NINODE) : KM Unit := modify fun k =>
  k.setEntry ip { k.icache ip with ref := (k.icache ip).ref - 1, busy := false, valid := false }

def fileputSem (f : Fin NFILE) : KM (Option FileSlot) := do
  let k ← get
  let ff := k.ftable f
  if ff.ref < 1 then throw .fileclose
  else if 1 < ff.ref then
    set (k.setFileSlot f { ff with ref := ff.ref - 1 })
    return none
  else
    set (k.setFileSlot f { ff with ref := 0, type := .none })
    return some ff

def fdallocSem (p : Fin NPROC) (f : Fin NFILE) : KM (Option (Fin NOFILE)) := do
  let k ← get
  let c := k.procs p
  match (List.finRange NOFILE).find? fun fd => c.ofile fd = none with
  | some fd =>
      set (k.setProc p { c with ofile := update c.ofile fd (some f) })
      return some fd
  | none => return none

namespace KOp

def exec : {β : Type} → KOp β → KM β
  | _, panic e => throw e
  | _, beginOp => beginOpSem
  | _, endOp => endOpSem
  | _, iget inum => igetSem inum
  | _, idup ip => idupSem ip
  | _, ilockCheck ip => do if ((← get).icache ip).ref < 1 then throw .ilock
  | _, ilockWait ip => modify fun k => k.setEntry ip { k.icache ip with busy := true }
  | _, ilockLoad ip => ilockLoadSem ip
  | _, iunlock ip => iunlockSem ip
  | _, iputBegin ip => iputBeginSem ip
  | _, iputEnd ip => iputEndSem ip
  | _, ifree ip => onInode ip Xv6Kernel.ifree
  | _, iupdate ip => onInode ip fun i => do Xv6Kernel.iupdate i; return ((), i)
  | _, ninodes => return (← get).fs.sb.ninodes
  | _, iallocTry type inum => onFs (Xv6Kernel.iallocTry type inum)
  | _, inode ip => do
      let i := ((← get).icache ip).ip
      return ⟨i.inum, i.fields, i.size⟩
  | _, setFields ip f => modify fun k =>
      k.setEntry ip
        { k.icache ip with ip := (k.icache ip).ip.withFields (f (k.icache ip).ip.fields) }
  | _, readi ip off n => onInode ip fun i => do
      let (r, bytes, i) ← Xv6Kernel.readi i off n
      return ((r, bytes), i)
  | _, writei ip src off n => onInode ip fun i => Xv6Kernel.writei i src off n
  | _, filealloc => do
      let k ← get
      match (List.finRange NFILE).find? fun f => (k.ftable f).ref = 0 with
      | some f =>
          set (k.setFileSlot f { k.ftable f with ref := 1 })
          return some f
      | none => return none
  | _, filedup f => do
      let k ← get
      if (k.ftable f).ref < 1 then throw .filedup
      else set (k.setFileSlot f { k.ftable f with ref := (k.ftable f).ref + 1 })
  | _, fileput f => fileputSem f
  | _, file f => return (← get).ftable f
  | _, setFile f ip readable writable => modify fun k =>
      k.setFileSlot f { k.ftable f with
        type := .inode, ip := ip, off := 0, readable := readable, writable := writable }
  | _, setPipe f page readable writable => modify fun k =>
      k.setFileSlot f { k.ftable f with
        type := .pipe, pipe := page, readable := readable, writable := writable }
  | _, pipeInit page => modify fun k => k.setPipePage page (k.pipes page).renew
  | _, pipeclose page writable => modify fun k =>
      k.setPipePage page ((k.pipes page).close writable)
  | _, setOff f off => modify fun k => k.setFileSlot f { k.ftable f with off := off }
  | _, fdalloc p f => fdallocSem p f
  | _, ofile p fd => return ((← get).procs p).ofile fd
  | _, clearFd p fd => modify fun k =>
      k.setProc p { k.procs p with ofile := update (k.procs p).ofile fd none }
  | _, cwd p => return ((← get).procs p).cwd
  | _, setCwd p ip => modify fun k => k.setProc p { k.procs p with cwd := ip }
  | _, allocproc np => modify fun k => k.setProc np { k.procs np with use := .embryo }
  | _, setproc np dir files => modify fun k => k.setProc np ⟨.live, dir, files⟩
  | _, freeproc p => modify fun k => k.setProc p { k.procs p with use := .free }

/-- An operation waits for an inode that is locked; `allocproc` picks a free slot, and `kalloc`
    a page that is not in use. -/
def enabled {β : Type} (o : KOp β) (k : Kernel) : Bool :=
  match o with
  | ilockWait ip => !(k.icache ip).busy
  | allocproc np => decide ((k.procs np).use = .free)
  | pipeInit page => decide ((k.pipes page).allocs = (k.pipes page).frees)
  | _ => true

end KOp

/-- The operations as the kernel executes them. -/
def Kernel.sem : Sem KOp FsPanic Kernel where
  enabled := KOp.enabled
  exec := KOp.exec

end Xv6Kernel
