/-
  KernelSpec.lean
  ===============
  The operations of `KernelOps` on a disk that is an array of inodes with bytes.

  Blocks, free map and log are gone: an inode is its fields and an array of bytes.  An
  operation stops with the error `none` where this level says nothing about what the kernel
  does: reading an inode with a number that is out of range, or using an inode that is not
  locked or not allocated.  That these cases do not arise is shown for the programs.

  An image may hold files that lack blocks below their size.  `bmap` adds such a block to
  the inode in memory and nothing writes the inode back, so the block is lost when the entry
  of the cache is.  Such inodes are `pinned`: this level speaks about them while they are
  referenced.
-/
import Xv6Kernel.FileStore
import Xv6Kernel.KernelOps

namespace Xv6Kernel

open AtomicProg Function

/-! ### The state -/

/-- An inode on the disk. -/
structure Node where
  fields : InodeFields
  bytes : Bytes

/-- An entry of the inode cache without the size and the blocks. -/
structure SpecInode where
  ref : Nat
  busy : Bool
  valid : Bool
  inum : Nat
  fields : InodeFields

structure SpecKernel where
  ninodes : Nat
  devsw : Fin NDEV → Option (Nat → Int)
  devswRead : Fin NDEV → Option (Nat → Int × List (BitVec 8))
  disk : Nat → Node
  /-- The inodes that may lack blocks on the disk. -/
  pinned : Nat → Bool
  icache : Fin NINODE → SpecInode
  ftable : Fin NFILE → FileSlot
  procs : Fin NPROC → ProcFiles
  pipes : Nat → PipePage

abbrev SM := EStateM (Option FsPanic) SpecKernel

namespace SpecKernel

def setEntry (k : SpecKernel) (ip : Fin NINODE) (c : SpecInode) : SpecKernel :=
  { k with icache := update k.icache ip c }

def setNode (k : SpecKernel) (i : Nat) (n : Node) : SpecKernel :=
  { k with disk := update k.disk i n }

def setFileSlot (k : SpecKernel) (f : Fin NFILE) (c : FileSlot) : SpecKernel :=
  { k with ftable := update k.ftable f c }

def setProc (k : SpecKernel) (p : Fin NPROC) (c : ProcFiles) : SpecKernel :=
  { k with procs := update k.procs p c }

def setPipePage (k : SpecKernel) (page : Nat) (c : PipePage) : SpecKernel :=
  { k with pipes := update k.pipes page c }

def cached (k : SpecKernel) (inum : Nat) : Option (Fin NINODE) :=
  (List.finRange NINODE).find? fun e =>
    decide (0 < (k.icache e).ref) && decide ((k.icache e).inum = inum)

def emptyEntry (k : SpecKernel) : Option (Fin NINODE) :=
  (List.finRange NINODE).find? fun e => decide ((k.icache e).ref = 0)

/-- The entry holds an allocated inode. -/
def Loaded (k : SpecKernel) (ip : Fin NINODE) : Prop :=
  0 < (k.icache ip).ref ∧ (k.icache ip).valid = true ∧ (k.icache ip).inum < k.ninodes ∧
    (k.icache ip).fields.type ≠ .free ∧ (k.disk (k.icache ip).inum).fields.type ≠ .free

instance {k : SpecKernel} {ip : Fin NINODE} : Decidable (k.Loaded ip) :=
  inferInstanceAs (Decidable (_ ∧ _))

end SpecKernel

/-! ### The operations -/

namespace Spec

/-- Nothing is said about this case. -/
def wild {α : Type} : SM α := throw none

def panic {α : Type} (e : FsPanic) : SM α := throw (some e)

def iget (inum : Nat) : SM (Fin NINODE) := do
  let k ← get
  match k.cached inum with
  | some e =>
      set (k.setEntry e { k.icache e with ref := (k.icache e).ref + 1 })
      return e
  | none =>
      match k.emptyEntry with
      | some e =>
          set (k.setEntry e { ref := 1, busy := false, valid := false, inum := inum, fields :=
            { (k.icache e).fields with
              uid := BitVec.ofNat 16 DEFAULTUID, gid := BitVec.ofNat 16 DEFAULTGID,
              mode := BitVec.ofNat 32 DEFAULTMODE } })
          return e
      | none => panic .igetNoInodes

def idup (ip : Fin NINODE) : SM Unit := do
  let k ← get
  let c := k.icache ip
  if 0 < c.ref then set (k.setEntry ip { c with ref := c.ref + 1 }) else wild

def ilockLoad (ip : Fin NINODE) : SM Unit := do
  let k ← get
  let c := k.icache ip
  if c.valid = false then
    if c.inum < k.ninodes then
      set (k.setEntry ip { c with valid := true, fields := (k.disk c.inum).fields })
      if (k.disk c.inum).fields.type = .free then panic .ilockNoType else return ()
    else wild
  else return ()

def iunlock (ip : Fin NINODE) : SM Unit := do
  let k ← get
  let c := k.icache ip
  if c.busy = false ∨ c.ref < 1 then panic .iunlock
  else set (k.setEntry ip { c with busy := false })

def iputBegin (ip : Fin NINODE) : SM Bool := do
  let k ← get
  let c := k.icache ip
  if c.ref = 1 ∧ c.valid = true ∧ c.fields.nlink = 0 then
    if c.busy = true then panic .iputBusy
    else
      set (k.setEntry ip { c with busy := true })
      return true
  else if c.ref ≤ 1 ∧ k.pinned c.inum = true then wild
  else
    set (k.setEntry ip { c with ref := c.ref - 1 })
    return false

def iputEnd (ip : Fin NINODE) : SM Unit := do
  let k ← get
  let c := k.icache ip
  if k.pinned c.inum = true then wild
  else set (k.setEntry ip { c with ref := c.ref - 1, busy := false, valid := false })

def ifree (ip : Fin NINODE) : SM Unit := do
  let k ← get
  if k.Loaded ip then
    let f := { (k.icache ip).fields with type := .free }
    set ((k.setNode (k.icache ip).inum ⟨f, []⟩).setEntry ip { k.icache ip with fields := f })
  else wild

def iupdate (ip : Fin NINODE) : SM Unit := do
  let k ← get
  let c := k.icache ip
  if k.Loaded ip then set (k.setNode c.inum { k.disk c.inum with fields := c.fields })
  else wild

/-- The inode that `ialloc` writes. -/
def freshNode (type : InodeType) : Node := ⟨⟨type, 0, 0, 0, 0, 0, 0⟩, []⟩

def iallocTry (type : InodeType) (inum : Nat) : SM Bool := do
  let k ← get
  if inum < k.ninodes ∧ type ≠ .free then
    if (k.disk inum).fields.type = .free then
      set (k.setNode inum (freshNode type))
      return true
    else return false
  else wild

def inode (ip : Fin NINODE) : SM InodeInfo := do
  let k ← get
  let c := k.icache ip
  if k.Loaded ip then return ⟨c.inum, c.fields, (k.disk c.inum).bytes.length⟩
  else wild

/-- Reading from a device. -/
def devRead (devsw : Fin NDEV → Option (Nat → Int × List Byte)) (major : BitVec 16) (n : Nat) :
    Int × List Byte :=
  if h : 0 ≤ major.toInt ∧ major.toInt.toNat < NDEV then
    match devsw ⟨major.toInt.toNat, h.2⟩ with
    | some read => read n
    | none => (-1, [])
  else (-1, [])

/-- Writing to a device. -/
def devWrite (devsw : Fin NDEV → Option (Nat → Int)) (major : BitVec 16) (n : Nat) : Int :=
  if h : 0 ≤ major.toInt ∧ major.toInt.toNat < NDEV then
    match devsw ⟨major.toInt.toNat, h.2⟩ with
    | some write => write n
    | none => -1
  else -1

def readi (ip : Fin NINODE) (off n : Nat) : SM (Int × List Byte) := do
  let k ← get
  let c := k.icache ip
  if k.Loaded ip ∧ off < 2 ^ 32 ∧ n < 2 ^ 32 then
    return if c.fields.type = .dev then devRead k.devswRead c.fields.major n
      else (k.disk c.inum).bytes.read off n
  else wild

def writei (ip : Fin NINODE) (src : Nat → Byte) (off n : Nat) : SM Int := do
  let k ← get
  let c := k.icache ip
  let d := k.disk c.inum
  if k.Loaded ip ∧ off < 2 ^ 32 ∧ n < 2 ^ 32 then
    if c.fields.type = .dev then return devWrite k.devsw c.fields.major n
    else
      let (r, bytes) := d.bytes.write src off n
      -- the inode is written to the disk if the file has become longer
      set (k.setNode c.inum
        ⟨if d.bytes.length < bytes.length then c.fields else d.fields, bytes⟩)
      return r
  else wild

def fileput (f : Fin NFILE) : SM (Option FileSlot) := do
  let k ← get
  let ff := k.ftable f
  if ff.ref < 1 then panic .fileclose
  else if 1 < ff.ref then
    set (k.setFileSlot f { ff with ref := ff.ref - 1 })
    return none
  else
    set (k.setFileSlot f { ff with ref := 0, type := .none })
    return some ff

def fdalloc (p : Fin NPROC) (f : Fin NFILE) : SM (Option (Fin NOFILE)) := do
  let k ← get
  let c := k.procs p
  match (List.finRange NOFILE).find? fun fd => c.ofile fd = none with
  | some fd =>
      set (k.setProc p { c with ofile := update c.ofile fd (some f) })
      return some fd
  | none => return none

def exec : {β : Type} → KOp β → SM β
  | _, .panic e => panic e
  | _, .beginOp => return ()
  | _, .endOp => return ()
  | _, .iget inum => iget inum
  | _, .idup ip => idup ip
  | _, .ilockCheck ip => do if ((← get).icache ip).ref < 1 then panic .ilock else return ()
  | _, .ilockWait ip => modify fun k => k.setEntry ip { k.icache ip with busy := true }
  | _, .ilockLoad ip => ilockLoad ip
  | _, .iunlock ip => iunlock ip
  | _, .iputBegin ip => iputBegin ip
  | _, .iputEnd ip => iputEnd ip
  | _, .ifree ip => ifree ip
  | _, .iupdate ip => iupdate ip
  | _, .ninodes => return (← get).ninodes
  | _, .iallocTry type inum => iallocTry type inum
  | _, .inode ip => inode ip
  | _, .setFields ip f => modify fun k =>
      k.setEntry ip { k.icache ip with fields := f (k.icache ip).fields }
  | _, .readi ip off n => readi ip off n
  | _, .writei ip src off n => writei ip src off n
  | _, .filealloc => do
      let k ← get
      match (List.finRange NFILE).find? fun f => (k.ftable f).ref = 0 with
      | some f =>
          set (k.setFileSlot f { k.ftable f with ref := 1 })
          return some f
      | none => return none
  | _, .filedup f => do
      let k ← get
      if (k.ftable f).ref < 1 then panic .filedup
      else set (k.setFileSlot f { k.ftable f with ref := (k.ftable f).ref + 1 })
  | _, .fileput f => fileput f
  | _, .file f => return (← get).ftable f
  | _, .setFile f ip readable writable => modify fun k =>
      k.setFileSlot f { k.ftable f with
        type := .inode, ip := ip, off := 0, readable := readable, writable := writable }
  | _, .setPipe f page readable writable => modify fun k =>
      k.setFileSlot f { k.ftable f with
        type := .pipe, pipe := page, readable := readable, writable := writable }
  | _, .pipeInit page => modify fun k => k.setPipePage page (k.pipes page).renew
  | _, .pipeclose page writable => modify fun k =>
      k.setPipePage page ((k.pipes page).close writable)
  | _, .setOff f off => modify fun k => k.setFileSlot f { k.ftable f with off := off }
  | _, .fdalloc p f => fdalloc p f
  | _, .ofile p fd => return ((← get).procs p).ofile fd
  | _, .clearFd p fd => modify fun k =>
      k.setProc p { k.procs p with ofile := update (k.procs p).ofile fd none }
  | _, .cwd p => return ((← get).procs p).cwd
  | _, .setCwd p ip => modify fun k => k.setProc p { k.procs p with cwd := ip }
  | _, .allocproc np => modify fun k => k.setProc np { k.procs np with use := .embryo }
  | _, .setproc np dir files => modify fun k => k.setProc np ⟨.live, dir, files⟩
  | _, .freeproc p => modify fun k => k.setProc p { k.procs p with use := .free }

def enabled {β : Type} (o : KOp β) (k : SpecKernel) : Bool :=
  match o with
  | .ilockWait ip => !(k.icache ip).busy
  | .allocproc np => decide ((k.procs np).use = .free)
  | .pipeInit page => decide ((k.pipes page).allocs = (k.pipes page).frees)
  | _ => true

end Spec

/-- The operations on byte arrays. -/
def SpecKernel.sem : Sem KOp (Option FsPanic) SpecKernel where
  enabled := Spec.enabled
  exec := Spec.exec

@[simp] theorem SpecKernel.sem_exec {β : Type} (o : KOp β) :
    SpecKernel.sem.exec o = Spec.exec o := rfl

end Xv6Kernel
