/-
  CallRecords.lean
  ================
  What a file system call has done so far.

  The record of a call counts its `begin_op` and `end_op`, lists the inodes on which it has set
  `I_BUSY`, and keeps account of the files it deals with: references that it has taken and not
  yet put into a descriptor, descriptors that it has seen, files it has allocated, and ends of
  pipes that it still has to hand on or to close.

  `callDiscipline` says what a call may do with a given record.  Every call keeps to it on all
  its paths, whatever the operations return (`keepsDiscipline`), and ends with a record in which
  nothing is left over (`CallRecord.Settled`).
-/
import Xv6Kernel.SysFile
import Xv6Kernel.Tally
import Xv6Kernel.Threads

namespace Xv6Kernel

open AtomicProg Tally Function Discipline List

/-! ### The calls -/

/-- What `exec` does with a program file that it has locked, depending on what it reads. -/
inductive ExecPlan where
  /-- `goto bad`. -/
  | bad
  | read (off n : Nat) (k : Int × List Byte → ExecPlan)
  /-- The segments are loaded; `ok` says whether the rest of `exec` succeeds. -/
  | loaded (ok : Bool)

namespace Sys

open Prog

def execPlan (ip : Fin NINODE) : ExecPlan → KProg Int
  | .bad => do
      iunlockput ip
      call .endOp
      return -1
  | .read off n k => do
      let r ← call (.readi ip (off % 2 ^ 32) (n % 2 ^ 32))
      execPlan ip (k r)
  | .loaded ok => do
      iunlockput ip
      call .endOp
      return if ok then 0 else -1

/-- `exec`, for what it does with the file. -/
def execFile (p : Fin NPROC) (path : Option CString) (plan : InodeInfo → ExecPlan) : KProg Int := do
  match path with
  | none => return -1
  | some path => do
      call .beginOp
      match ← namei p path with
      | none => do
          call .endOp
          return -1
      | some ip => do
          ilock ip
          let i ← call (.inode ip)
          execPlan ip (plan i)

end Sys

/-- The calls of a process with their arguments; `piped` is what `piperead` or `pipewrite`
    returns, `page` and `memory` say what the allocator has. -/
inductive FsCall where
  | dup (fd : Int)
  | read (fd n piped : Int)
  | write (fd : Int) (addr : Nat → Byte) (n piped : Int)
  | close (fd : Int)
  | fstat (fd : Int)
  | pipe (page : Option Nat)
  | link (old new : Option CString)
  | unlink (path : Option CString)
  | open (path : Option CString) (omode : Uint)
  | mkdir (path : Option CString)
  | mknod (path : Option CString) (major minor : Uint)
  | chdir (path : Option CString)
  | chmod (path : Option CString) (mode : Int)
  | chown (path : Option CString) (uid : Int)
  | chgrp (path : Option CString) (gid : Int)
  | exec (path : Option CString) (plan : InodeInfo → ExecPlan)
  | fork (np : Option (Fin NPROC)) (memory : Bool)
  | exit

def FsCall.prog (p : Fin NPROC) : FsCall → KProg Int
  | .dup fd => Sys.sysDup p fd
  | .read fd n piped => Sys.sysRead p fd n piped
  | .write fd addr n piped => Sys.sysWrite p fd addr n piped
  | .close fd => Sys.sysClose p fd
  | .fstat fd => Sys.sysFstat p fd
  | .pipe page => Sys.sysPipe p page
  | .link old new => Sys.sysLink p old new
  | .unlink path => Sys.sysUnlink p path
  | .open path omode => Sys.sysOpen p path omode
  | .mkdir path => Sys.sysMkdir p path
  | .mknod path major minor => Sys.sysMknod p path major minor
  | .chdir path => Sys.sysChdir p path
  | .chmod path mode => Sys.sysChmod p path mode
  | .chown path uid => Sys.sysChown p path uid
  | .chgrp path gid => Sys.sysChgrp p path gid
  | .exec path plan => Sys.execFile p path plan
  | .fork np memory => Sys.sysFork p np memory
  | .exit => Sys.sysExit p

/-! ### The record -/

structure FileRecord where
  /-- References taken and not put into a descriptor; less than 0 between the change of a
      descriptor and that of the reference count. -/
  held : Fin NFILE → Int
  /-- New files that have no type yet. -/
  fresh : List (Fin NFILE)
  /-- What the process has seen in its own descriptors. -/
  known : Fin NOFILE → Option (Option (Fin NFILE))
  /-- Ends of pipes that no file has any more, or not yet. -/
  ends : List (Nat × Bool)
  /-- The slot of the process that `fork` is making. -/
  child : Option (Fin NPROC)
  /-- A file that the call has read, with its inode. -/
  seen : Option (Fin NFILE × Fin NINODE)
  /-- The call is running, and its process has not given up its slot. -/
  live : Bool

namespace FileRecord

def blank : FileRecord := ⟨fun _ => 0, [], fun _ => none, [], none, none, false⟩

/-- A reference more, or one less. -/
def add (r : FileRecord) (f : Fin NFILE) (n : Int) : FileRecord :=
  { r with held := update r.held f (r.held f + n), seen := none }

def learn (r : FileRecord) (fd : Fin NOFILE) (v : Option (Fin NFILE)) : FileRecord :=
  { r with known := update r.known fd (some v), seen := none }

/-- The references to `f` that are certain to be the call's own. -/
def credit (r : FileRecord) (f : Fin NFILE) : Int := tally r.known (some (some f)) + r.held f

/-- The references of the descriptors that `fork` has copied become the child's. -/
def giveAll (r : FileRecord) (files : Fin NOFILE → Option (Fin NFILE)) : FileRecord :=
  { r with held := fun f => r.held f - tally files (some f), child := none, seen := none }

end FileRecord

structure CallRecord where
  begun : Nat
  ended : Nat
  /-- The inodes on which the call has set `I_BUSY`. -/
  busy : List (Fin NINODE)
  /-- The files whose references or descriptors it has changed. -/
  touched : List (Fin NFILE)
  files : FileRecord

namespace CallRecord

def blank : CallRecord := ⟨0, 0, [], [], .blank⟩

/-- The record of a call that starts. -/
def opening : CallRecord := { blank with files := { FileRecord.blank with live := true } }

def lock (r : CallRecord) (ip : Fin NINODE) : CallRecord := { r with busy := ip :: r.busy }
def unlock (r : CallRecord) (ip : Fin NINODE) : CallRecord := { r with busy := r.busy.erase ip }

def onFile (r : CallRecord) (f : Fin NFILE) (files : FileRecord) : CallRecord :=
  { r with touched := f :: r.touched, files := files }

/-- `n` operations begun and ended. -/
def ops (r : CallRecord) (n : Nat) : CallRecord :=
  { r with begun := r.begun + n, ended := r.ended + n }

/-- Nothing is left over. -/
structure Settled (r : CallRecord) : Prop where
  ops : r.begun = r.ended
  busy : r.busy = []
  held : r.files.held = fun _ => 0
  fresh : r.files.fresh = []
  ends : r.files.ends = []
  child : r.files.child = none

/-- Nothing is left over in a call that goes on. -/
structure Ready (r : CallRecord) : Prop extends Settled r where
  live : r.files.live = true

end CallRecord

/-- The record after the section of `fileclose`, which returned `b`. -/
def CallRecord.fileput (r : CallRecord) (f : Fin NFILE) (b : Option FileSlot) : CallRecord :=
  let files := { r.files.add f (-1) with fresh := r.files.fresh.erase f }
  match b with
  | some ff =>
      r.onFile f
        (if ff.type = .pipe then { files with ends := (ff.pipe, ff.writable) :: files.ends }
          else files)
  | none => r.onFile f files

/-- The record after a descriptor with the contents `g` was cleared. -/
def CallRecord.clearFd (r : CallRecord) (fd : Fin NOFILE) (g : Option (Fin NFILE)) : CallRecord :=
  match g with
  | some f => r.onFile f ((r.files.learn fd none).add f 1)
  | none => { r with files := r.files.learn fd none }

/-- The effect of an operation on the record; `g` is what was in the descriptor that it
    clears. -/
def KOp.effect : {β : Type} → KOp β → β → Option (Fin NFILE) → CallRecord → CallRecord
  | _, .beginOp, _, _, r => { r with begun := r.begun + 1 }
  | _, .endOp, _, _, r => { r with ended := r.ended + 1 }
  | _, .ilockWait ip, _, _, r => r.lock ip
  | _, .iputBegin ip, b, _, r => if b then r.lock ip else r
  | _, .iunlock ip, _, _, r => r.unlock ip
  | _, .iputEnd ip, _, _, r => r.unlock ip
  | _, .filealloc, none, _, r => r
  | _, .filealloc, some f, _, r =>
      r.onFile f { r.files.add f 1 with fresh := f :: r.files.fresh }
  | _, .filedup f, _, _, r => r.onFile f (r.files.add f 1)
  | _, .fileput f, b, _, r => r.fileput f b
  | _, .file f, b, _, r => { r with files := { r.files with seen := some (f, b.ip) } }
  | _, .setFile f _ _ _, _, _, r =>
      r.onFile f { r.files with fresh := r.files.fresh.erase f, seen := none }
  | _, .setPipe f page _ writable, _, _, r =>
      r.onFile f { r.files with
        fresh := r.files.fresh.erase f, ends := r.files.ends.erase (page, writable)
        seen := none }
  | _, .pipeInit page, _, _, r =>
      { r with files := { r.files with ends := (page, false) :: (page, true) :: r.files.ends } }
  | _, .pipeclose page writable, _, _, r =>
      { r with files := { r.files with ends := r.files.ends.erase (page, writable) } }
  | _, .fdalloc _ _, none, _, r => r
  | _, .fdalloc _ f, some fd, _, r => r.onFile f ((r.files.learn fd (some f)).add f (-1))
  | _, .ofile _ fd, b, _, r => { r with files := r.files.learn fd b }
  | _, .clearFd _ fd, _, g, r => r.clearFd fd g
  | _, .allocproc np, _, _, r => { r with files := { r.files with child := some np } }
  | _, .setproc _ _ files, _, _, r => { r with files := r.files.giveAll files }
  | _, .freeproc q, _, _, r =>
      if r.files.child = some q then { r with files := { r.files with child := none } }
      else { r with files := { r.files with known := fun _ => none, live := false } }
  | _, _, _, _, r => r

/-- What is in the descriptor that an operation clears. -/
def KOp.cleared {β : Type} (o : KOp β) (k : Kernel) : Option (Fin NFILE) :=
  match o with
  | .clearFd p fd => (k.procs p).ofile fd
  | _ => none

/-! ### What a call may do -/

/-- `begin_op` is called without an inode lock, locks and operations are given back by the one
    who has them, and files are used by one who has a reference. -/
def KOp.may (p : Fin NPROC) {β : Type} (o : KOp β) (r : CallRecord) : Prop :=
  match o with
  | .beginOp => r.busy = []
  | .endOp => r.ended < r.begun
  | .iunlock ip => ip ∈ r.busy
  | .iputEnd ip => ip ∈ r.busy
  | .filedup f => 1 ≤ r.files.credit f ∧ f ∉ r.files.fresh
  | .fileput f => 1 ≤ r.files.credit f
  | .file f => 1 ≤ r.files.credit f
  | .setFile f _ _ _ => f ∈ r.files.fresh
  | .setPipe f page _ writable => f ∈ r.files.fresh ∧ (page, writable) ∈ r.files.ends
  | .pipeclose page writable => (page, writable) ∈ r.files.ends
  | .fdalloc q f => q = p ∧ r.files.live = true ∧ 1 ≤ r.files.credit f
  | .ofile q _ => q = p ∧ r.files.live = true
  | .clearFd q _ => q = p ∧ r.files.live = true
  | .allocproc _ => r.files.child = none
  | .setproc np _ files =>
      r.files.child = some np ∧ r.files.live = true ∧ r.files.fresh = [] ∧
        ∀ f, (tally files (some f) : Int) ≤ r.files.held f
  | .freeproc q => r.files.live = true ∧
      (r.files.child = some q ∨ q = p ∧ r.Settled ∧ ∀ fd, r.files.known fd = some none)
  | _ => True

/-- What the other processes cannot change: a new file is closed without a type, a file keeps its
    inode, and the process's descriptors are what it has seen. -/
def KOp.expect {β : Type} (o : KOp β) (r : CallRecord) (b : β) (g : Option (Fin NFILE)) : Prop :=
  match o with
  | .fileput f => f ∈ r.files.fresh → ∀ ff, b = some ff → ff.type = .none
  | .file f => ∀ ip, r.files.seen = some (f, ip) → b.ip = ip
  | .fdalloc _ _ => ∀ fd, b = some fd → ∀ v, r.files.known fd = some v → v = none
  | .clearFd _ fd => ∀ v, r.files.known fd = some v → v = g
  | _ => True

def callDiscipline : Discipline (Fin NPROC) KOp CallRecord where
  may p _ o r := o.may p r
  does _ _ o r b r' := ∃ g, r' = o.effect b g r ∧ o.expect r b g

/-- The operations that a record takes no notice of. -/
def KOp.plain {β : Type} (o : KOp β) : Bool :=
  match o with
  | .panic _ | .iget _ | .idup _ | .ilockCheck _ | .ilockLoad _ | .ifree _ | .iupdate _
  | .ninodes | .iallocTry _ _ | .inode _ | .setFields _ _ | .readi _ _ _ | .writei _ _ _ _
  | .setOff _ _ | .cwd _ | .setCwd _ _ => true
  | _ => false

section

variable {p : Fin NPROC} {α β : Type} {r : CallRecord}

theorem wp_plain (ho : o.plain = true)
    (h : ∀ b, callDiscipline.wp p (k b) Q r) : callDiscipline.wp p (.op o k) Q r := by
  constructor
  · cases o <;> trivial
  · rintro b r' ⟨g, rfl, -⟩
    have hsame : o.effect b g r = r := by cases o <;> first | rfl | cases ho
    rw [hsame]
    exact h b

theorem wp_then (ho : o.plain = true)
    (h : ∀ b, callDiscipline.wp p (k b) Q r) : callDiscipline.wp p (Prog.call o >>= k) Q r :=
  wp_plain ho h

/-! ### Inodes -/

@[simp] theorem CallRecord.unlock_lock (ip : Fin NINODE) : (r.lock ip).unlock ip = r := by
  unfold CallRecord.lock CallRecord.unlock
  simp

theorem CallRecord.mem_lock (ip : Fin NINODE) : ip ∈ (r.lock ip).busy := mem_cons_self

theorem wp_begins (hbusy : r.busy = []) (h : Q () { r with begun := r.begun + 1 }) :
    callDiscipline.wp p (Prog.call .beginOp) Q r := by
  refine ⟨hbusy, ?_⟩
  rintro b r' ⟨g, rfl, -⟩
  exact h

theorem wp_ends (hlt : r.ended < r.begun) (h : Q () { r with ended := r.ended + 1 }) :
    callDiscipline.wp p (Prog.call .endOp) Q r := by
  refine ⟨hlt, ?_⟩
  rintro b r' ⟨g, rfl, -⟩
  exact h

theorem wp_ilock (h : Q () (r.lock ip)) : callDiscipline.wp p (Sys.ilock ip) Q r := by
  refine wp_plain rfl fun _ => ⟨trivial, ?_⟩
  rintro b r' ⟨g, rfl, -⟩
  exact wp_plain rfl fun _ => h

theorem wp_iunlock (hip : ip ∈ r.busy) (h : Q () (r.unlock ip)) :
    callDiscipline.wp p (Sys.iunlock ip) Q r := by
  refine ⟨hip, ?_⟩
  rintro b r' ⟨g, rfl, -⟩
  exact h

theorem wp_iput (h : Q () r) : callDiscipline.wp p (Sys.iput ip) Q r := by
  refine ⟨trivial, ?_⟩
  rintro b r' ⟨g, rfl, -⟩
  cases b with
  | false => exact h
  | true =>
    refine wp_plain rfl fun _ => ⟨r.mem_lock ip, ?_⟩
    rintro b r' ⟨g, rfl, -⟩
    change Q () ((r.lock ip).unlock ip)
    rw [CallRecord.unlock_lock]
    exact h

theorem wp_iunlockput (hip : ip ∈ r.busy) (h : Q () (r.unlock ip)) :
    callDiscipline.wp p (Sys.iunlockput ip) Q r :=
  wp_bind.mpr (wp_iunlock hip (wp_iput h))

variable {f : Fin NFILE}

/-- The inode that was locked last is given back. -/
theorem wp_drop (h : callDiscipline.wp p (k ()) Q r) :
    callDiscipline.wp p (Sys.iunlockput ip >>= k) Q (r.lock ip) := by
  refine wp_bind.mpr (wp_iunlockput (r.mem_lock ip) ?_)
  rw [CallRecord.unlock_lock]
  exact h

theorem wp_release (h : callDiscipline.wp p (k ()) Q r) :
    callDiscipline.wp p (Sys.iunlock ip >>= k) Q (r.lock ip) := by
  refine wp_bind.mpr (wp_iunlock (r.mem_lock ip) ?_)
  rw [CallRecord.unlock_lock]
  exact h

variable {minor major : BitVec 16}

theorem wp_fail : callDiscipline.wp p (Sys.fail e : KProg α) Q r := wp_plain rfl fun b => b.elim

/-- Loops over operations of which the record takes no notice. -/
theorem wp_iallocFrom {Q : Fin NINODE → CallRecord → Prop} {inums : List Nat} (h : ∀ ip, Q ip r) :
    callDiscipline.wp p (Sys.iallocFrom type inums) Q r := by
  induction inums with
  | nil => exact wp_fail
  | cons inum inums ih =>
    refine wp_plain rfl fun b => ?_
    cases b with
    | false => exact ih
    | true => exact wp_plain rfl h

theorem wp_ialloc {Q : Fin NINODE → CallRecord → Prop} (h : ∀ ip, Q ip r) :
    callDiscipline.wp p (Sys.ialloc type) Q r :=
  wp_plain rfl fun _ => wp_iallocFrom h

/-! ### Directories and names -/

theorem wp_readDirent {Q : Dirent → CallRecord → Prop} (h : ∀ de, Q de r) :
    callDiscipline.wp p (Sys.readDirent dp off e) Q r :=
  wp_plain rfl fun _ => wp_ite (fun _ => wp_fail) fun _ => h _

theorem wp_dirlookup {Q : Option (Fin NINODE × Nat) → CallRecord → Prop} (h : ∀ res, Q res r) :
    callDiscipline.wp p (Sys.dirlookup dp name) Q r := by
  refine wp_plain rfl fun d => wp_ite (fun _ => wp_fail) fun _ => ?_
  induction offsets d.size with
  | nil => exact h _
  | cons off offs ih =>
    refine wp_bind.mpr (wp_readDirent fun de => ?_)
    refine wp_ite (fun _ => ih) fun _ => wp_ite (fun _ => ?_) fun _ => ih
    exact wp_plain rfl fun _ => h _

theorem wp_dirlink {Q : Int → CallRecord → Prop} {inum : Nat} (h : ∀ res, Q res r) :
    callDiscipline.wp p (Sys.dirlink dp name inum) Q r := by
  have hempty : ∀ (Q : Nat → CallRecord → Prop), (∀ off, Q off r) → ∀ offs last,
      callDiscipline.wp p (Sys.emptyDirent dp offs last) Q r := by
    intro Q hQ offs
    induction offs with
    | nil => exact fun last => hQ _
    | cons off offs ih =>
      intro last
      refine wp_bind.mpr (wp_readDirent fun de => ?_)
      exact wp_ite (fun _ => hQ _) fun _ => ih _
  refine wp_bind.mpr (wp_dirlookup fun res => ?_)
  cases res with
  | some res => exact wp_bind.mpr (wp_iput (h _))
  | none =>
    refine wp_then rfl fun d => wp_bind.mpr (hempty _ (fun off => ?_) _ _)
    exact wp_then rfl fun _ => wp_ite (fun _ => wp_fail) fun _ => h _

theorem wp_isdirempty {Q : Bool → CallRecord → Prop} (h : ∀ res, Q res r) :
    callDiscipline.wp p (Sys.isdirempty dp) Q r := by
  refine wp_then rfl fun d => ?_
  induction (offsets d.size).drop 2 with
  | nil => exact h _
  | cons off offs ih =>
    refine wp_bind.mpr (wp_readDirent fun de => ?_)
    exact wp_ite (fun _ => h _) fun _ => ih

/-- `namex` holds no lock when it returns. -/
theorem wp_namexLoop {Q : Option (Fin NINODE × Name) → CallRecord → Prop} {parent : Bool}
    {names : List Name} (h : ∀ res, Q res r) :
    callDiscipline.wp p (Sys.namexLoop parent names ip) Q r := by
  induction names generalizing ip with
  | nil =>
    refine wp_ite (fun _ => ?_) fun _ => h _
    exact wp_bind.mpr (wp_iput (h _))
  | cons name rest ih =>
    refine wp_bind.mpr (wp_ilock (wp_plain rfl fun i => ?_))
    refine wp_ite (fun _ => wp_drop (h _)) fun _ => ?_
    refine wp_ite (fun _ => wp_release (h _)) fun _ => ?_
    refine wp_bind.mpr (wp_dirlookup fun res => ?_)
    cases res with
    | none => exact wp_drop (h _)
    | some res => exact wp_drop ih

theorem wp_namex {Q : Option (Fin NINODE × Name) → CallRecord → Prop} {parent : Bool}
    (h : ∀ res, Q res r) : callDiscipline.wp p (Sys.namex q path parent) Q r := by
  refine wp_ite (fun _ => wp_plain rfl fun _ => wp_namexLoop h) fun _ => ?_
  refine wp_plain rfl fun dir => ?_
  cases dir with
  | none => exact wp_fail
  | some ip => exact wp_plain rfl fun _ => wp_namexLoop h

theorem wp_namei {Q : Option (Fin NINODE) → CallRecord → Prop} (h : ∀ res, Q res r) :
    callDiscipline.wp p (Sys.namei q path) Q r :=
  wp_bind.mpr (wp_namex fun _ => h _)

/-! ### Calls that change the file system

Each of them is one operation: between `begin_op` and `end_op` the record is `r.opened`. -/

/-- The record of a call that is in an operation and holds no lock. -/
def CallRecord.opened (r : CallRecord) : CallRecord := { r with begun := r.begun + 1 }

theorem CallRecord.ended_lt_opened (h : r.begun = r.ended) : r.opened.ended < r.opened.begun := by
  change r.ended < r.begun + 1
  omega

section

/-- The end of an operation. -/
theorem wp_finish (hops : r.begun = r.ended) (h : Q n (r.ops 1)) :
    callDiscipline.wp p (Prog.call .endOp >>= fun _ => pure n) Q r.opened :=
  wp_bind.mpr (wp_ends (CallRecord.ended_lt_opened hops) h)

variable {ip : Fin NINODE}

/-- The end of an operation with an inode locked. -/
theorem wp_dropFinish (hops : r.begun = r.ended) (h : Q n (r.ops 1)) : callDiscipline.wp p
      (Sys.iunlockput ip >>= fun _ => Prog.call .endOp >>= fun _ => pure n) Q
      (r.opened.lock ip) :=
  wp_drop (wp_finish hops h)

theorem wp_start (hbusy : r.busy = []) (h : callDiscipline.wp p (k ()) Q r.opened) :
    callDiscipline.wp p (Prog.call .beginOp >>= k) Q r :=
  wp_bind.mpr (wp_begins hbusy h)

theorem wp_linkBad (hops : r.begun = r.ended) (h : ∀ n, Q n (r.ops 1)) :
    callDiscipline.wp p (Sys.linkBad ip) Q r.opened := by
  refine wp_bind.mpr (wp_ilock (wp_bind.mpr ?_))
  exact wp_plain rfl fun _ => wp_plain rfl fun _ => wp_dropFinish hops (h _)

theorem wp_sysLink {old new : Option CString} (hs : r.Ready) (hnone : ∀ n, Q n r)
    (h : ∀ n, Q n (r.ops 1)) : callDiscipline.wp p (Sys.sysLink q old new) Q r := by
  cases old with
  | none => exact hnone _
  | some old =>
    cases new with
    | none => exact hnone _
    | some new =>
      refine wp_start hs.busy (wp_bind.mpr (wp_namei fun res => ?_))
      cases res with
      | none => exact wp_finish hs.ops (h _)
      | some ip =>
        refine wp_bind.mpr (wp_ilock (wp_plain rfl fun i => ?_))
        refine wp_ite (fun _ => wp_dropFinish hs.ops (h _)) fun _ => ?_
        refine wp_then rfl fun _ => wp_then rfl fun _ => ?_
        refine wp_release (wp_bind.mpr (wp_namex fun res => ?_))
        cases res with
        | none => exact wp_linkBad hs.ops h
        | some res =>
          refine wp_bind.mpr (wp_ilock (wp_bind.mpr (wp_dirlink fun n => ?_)))
          refine wp_ite (fun _ => wp_drop (wp_linkBad hs.ops h)) fun _ => ?_
          exact wp_drop (wp_bind.mpr (wp_iput (wp_finish hs.ops (h _))))

/-- Both inodes are given back, the directory first or last. -/
theorem CallRecord.unlock_first (dp ip : Fin NINODE) :
    ((r.lock dp).lock ip).unlock dp = r.lock ip := by
  unfold CallRecord.lock CallRecord.unlock
  by_cases h : ip = dp
  · simp [h]
  · simp [erase_cons_tail, h]

theorem CallRecord.mem_lock_lock (dp ip : Fin NINODE) : dp ∈ ((r.lock dp).lock ip).busy :=
  mem_cons_of_mem _ mem_cons_self

theorem wp_unlinkInode {dp : Fin NINODE} (h : ∀ n, Q n r) :
    callDiscipline.wp p (Sys.unlinkInode dp ip off) Q ((r.lock dp).lock ip) := by
  refine wp_plain rfl fun i => wp_ite (fun _ => wp_fail) fun _ => ?_
  refine wp_bind.mpr ?_
  have hbody : ∀ ok : Bool, callDiscipline.wp p (if ok = false then do
          Sys.iunlockput ip
          Sys.iunlockput dp
          return -1
        else do
          let n ← Prog.call (.writei dp (fun _ => 0) off direntSize)
          if n ≠ direntSize then Sys.fail .unlinkWritei
          else
            Sys.dropParentLink dp i.fields.type
            Sys.iunlockput dp
            Sys.dropLink ip
            Sys.iunlockput ip
            return 0) Q ((r.lock dp).lock ip) := by
    intro ok
    refine wp_ite (fun _ => ?_) fun _ => ?_
    · exact wp_drop (wp_drop (h _))
    · refine wp_plain rfl fun n => wp_ite (fun _ => wp_fail) fun _ => ?_
      have hrest : callDiscipline.wp p (do
          Sys.iunlockput dp
          Sys.dropLink ip
          Sys.iunlockput ip
          return 0) Q ((r.lock dp).lock ip) := by
        refine wp_bind.mpr (wp_iunlockput (CallRecord.mem_lock_lock dp ip) ?_)
        rw [CallRecord.unlock_first]
        refine wp_bind.mpr (wp_plain rfl fun _ => wp_plain rfl fun _ => ?_)
        exact wp_drop (h _)
      refine wp_bind.mpr ?_
      refine wp_ite (fun _ => ?_) fun _ => hrest
      exact wp_plain rfl fun _ => wp_plain rfl fun _ => hrest
  exact wp_ite (fun _ => wp_isdirempty hbody) fun _ => hbody true

theorem wp_sysUnlink {path : Option CString} (hs : r.Ready) (hnone : ∀ n, Q n r)
    (h : ∀ n, Q n (r.ops 1)) : callDiscipline.wp p (Sys.sysUnlink q path) Q r := by
  cases path with
  | none => exact hnone _
  | some path =>
    refine wp_start hs.busy (wp_bind.mpr (wp_namex fun res => ?_))
    cases res with
    | none => exact wp_finish hs.ops (h _)
    | some res =>
      obtain ⟨dp, name⟩ := res
      have hend : ∀ n : Int,
        callDiscipline.wp p (Prog.call .endOp >>= fun _ => pure n) Q r.opened :=
        fun n => wp_finish hs.ops (h n)
      have hdrop : callDiscipline.wp p (Sys.iunlockput dp >>= fun _ => pure (-1))
          (fun n => callDiscipline.wp p (Prog.call .endOp >>= fun _ => pure n) Q)
          (r.opened.lock dp) :=
        wp_drop (hend _)
      refine wp_bind.mpr (wp_bind.mpr (wp_ilock ?_))
      refine wp_ite (fun _ => hdrop) fun _ => ?_
      refine wp_bind.mpr (wp_dirlookup fun res => ?_)
      cases res with
      | none => exact hdrop
      | some res => exact wp_bind.mpr (wp_ilock (wp_unlinkInode hend))

end

/-- `create` returns with the inode locked. -/
theorem wp_create {Q : Option (Fin NINODE) → CallRecord → Prop} (hnone : Q none r)
    (hsome : ∀ ip, Q (some ip) (r.lock ip)) :
    callDiscipline.wp p (Sys.create q path type major minor) Q r := by
  refine wp_bind.mpr (wp_namex fun res => ?_)
  cases res with
  | none => exact hnone
  | some res =>
    obtain ⟨dp, name⟩ := res
    refine wp_bind.mpr (wp_ilock (wp_bind.mpr (wp_dirlookup fun res => ?_)))
    cases res with
    | some res =>
      obtain ⟨ip, off⟩ := res
      refine wp_drop (wp_bind.mpr (wp_ilock (wp_plain rfl fun i => ?_)))
      refine wp_ite (fun _ => hsome ip) fun _ => ?_
      exact wp_drop hnone
    | none =>
      refine wp_bind.mpr ?_
      refine wp_bind.mpr (wp_ialloc fun ip => wp_bind.mpr (wp_ilock ?_))
      refine wp_then rfl fun _ => wp_then rfl fun _ => wp_then rfl fun i => ?_
      have hlink : callDiscipline.wp p (do
          if (← Sys.dirlink dp name i.inum) < 0 then Sys.fail .createDirlink
          else
            Sys.iunlockput dp
            return ip)
          (fun ip => callDiscipline.wp p (pure (some ip)) Q) ((r.lock dp).lock ip) := by
        refine wp_bind.mpr (wp_dirlink fun n => ?_)
        refine wp_ite (fun _ => wp_fail) fun _ => ?_
        refine wp_bind.mpr (wp_iunlockput (CallRecord.mem_lock_lock dp ip) ?_)
        rw [CallRecord.unlock_first]
        exact hsome ip
      refine wp_bind.mpr ?_
      refine wp_ite (fun _ => ?_) fun _ => hlink
      refine wp_then rfl fun _ => wp_then rfl fun _ => wp_then rfl fun d => ?_
      refine wp_bind.mpr (wp_dirlink fun n => ?_)
      refine wp_ite (fun _ => wp_fail) fun _ => ?_
      refine wp_bind.mpr (wp_dirlink fun n => ?_)
      refine wp_ite (fun _ => wp_fail) fun _ => ?_
      exact hlink

section

variable {Q : Int → CallRecord → Prop} {path : Option CString}

theorem wp_sysCreate {type : InodeType} (hs : r.Ready) (h : ∀ n, Q n (r.ops 1)) :
    callDiscipline.wp p (Sys.sysCreate q path type major minor) Q r := by
  refine wp_start hs.busy ?_
  cases path with
  | none => exact wp_finish hs.ops (h _)
  | some path =>
    refine wp_bind.mpr (wp_create (wp_finish hs.ops (h _)) fun ip => ?_)
    exact wp_dropFinish hs.ops (h _)

theorem wp_sysChdir (hs : r.Ready) (h : ∀ n, Q n (r.ops 1)) :
    callDiscipline.wp p (Sys.sysChdir q path) Q r := by
  refine wp_start hs.busy ?_
  cases path with
  | none => exact wp_finish hs.ops (h _)
  | some path =>
    refine wp_bind.mpr (wp_namei fun res => ?_)
    cases res with
    | none => exact wp_finish hs.ops (h _)
    | some ip =>
      refine wp_bind.mpr (wp_ilock (wp_plain rfl fun i => ?_))
      refine wp_ite (fun _ => wp_dropFinish hs.ops (h _)) fun _ => ?_
      refine wp_release (wp_then rfl fun dir => ?_)
      cases dir with
      | none => exact wp_fail
      | some old =>
        refine wp_bind.mpr (wp_iput (wp_bind.mpr ?_))
        refine wp_ends (CallRecord.ended_lt_opened hs.ops) (wp_plain rfl fun _ => ?_)
        exact h _

variable (hs : r.Ready) (hnone : ∀ n, Q n r) (h : ∀ n, Q n (r.ops 1))

include hs hnone h

theorem wp_changeField {f : InodeFields → InodeFields} :
    callDiscipline.wp p (Sys.changeField q path good f) Q r := by
  cases path with
  | none => exact hnone _
  | some path =>
    refine wp_start hs.busy (wp_bind.mpr (wp_namei fun res => ?_))
    cases res with
    | none => exact wp_finish hs.ops (h _)
    | some ip =>
      refine wp_ite (fun _ => wp_finish hs.ops (h _)) fun _ => ?_
      refine wp_bind.mpr (wp_ilock (wp_plain rfl fun _ => wp_plain rfl fun _ => ?_))
      exact wp_release (wp_finish hs.ops (h _))

theorem wp_execFile {plan : InodeInfo → ExecPlan} : callDiscipline.wp p
    (Sys.execFile q path plan) Q r := by
  cases path with
  | none => exact hnone _
  | some path =>
    refine wp_start hs.busy (wp_bind.mpr (wp_namei fun res => ?_))
    cases res with
    | none => exact wp_finish hs.ops (h _)
    | some ip =>
      refine wp_bind.mpr (wp_ilock (wp_then rfl fun i => ?_))
      induction plan i with
      | bad => exact wp_dropFinish hs.ops (h _)
      | read off n k ih => exact wp_then rfl fun b => ih b
      | loaded ok => exact wp_dropFinish hs.ops (h _)

end

/-! ### Files -/

/-- The record after `fileclose`, which may have been an operation of its own. -/
def CallRecord.closed (r : CallRecord) (f : Fin NFILE) (n : Nat) : CallRecord :=
  (r.onFile f { r.files.add f (-1) with fresh := r.files.fresh.erase f }).ops n

theorem CallRecord.fileput_of_ne (h : ff.type ≠ .pipe) : r.fileput f (some ff) = r.closed f 0 := by
  unfold CallRecord.fileput
  simp only [if_neg h]
  rfl

theorem CallRecord.fileput_pipe (h : ff.type = .pipe) : r.fileput f (some ff) = { r.closed f 0 with
      files := { (r.closed f 0).files with
        ends := (ff.pipe, ff.writable) :: (r.closed f 0).files.ends } } := by
  unfold CallRecord.fileput
  simp only [if_pos h]
  rfl

theorem wp_fileclose {Q : Unit → CallRecord → Prop} (hcredit : 1 ≤ r.files.credit f)
    (hbusy : r.busy = [] ∨ f ∈ r.files.fresh) (hops : r.ended ≤ r.begun)
    (h : ∀ n, Q () (r.closed f n)) : callDiscipline.wp p (Sys.fileclose f) Q r := by
  refine ⟨hcredit, ?_⟩
  rintro b r' ⟨g, rfl, hexpect⟩
  cases b with
  | none => exact h 0
  | some ff =>
    change callDiscipline.wp p _ Q (r.fileput f (some ff))
    simp only [Prog.bind]
    cases htype : ff.type with
    | none =>
      rw [CallRecord.fileput_of_ne (by rw [htype]; decide)]
      exact h 0
    | pipe =>
      rw [CallRecord.fileput_pipe htype]
      refine ⟨mem_cons_self, ?_⟩
      rintro b r' ⟨g, rfl, -⟩
      have hclosed := h 0
      generalize r.closed f 0 = r₁ at hclosed ⊢
      simp only [wp_ret, KOp.effect, erase_cons_head]
      exact hclosed
    | inode =>
      rw [CallRecord.fileput_of_ne (by rw [htype]; decide)]
      have hfree : r.busy = [] := by
        refine hbusy.resolve_right fun hfresh => ?_
        have hnone := hexpect hfresh ff rfl
        rw [htype] at hnone
        cases hnone
      refine wp_bind.mpr (wp_begins hfree ?_)
      refine wp_bind.mpr (wp_iput (wp_ends ?_ (h 1)))
      change r.ended < r.begun + 1
      omega

section

variable {Q : Int → CallRecord → Prop}

theorem CallRecord.Ready.ops_ready (hs : r.Ready) (n : Nat) : (r.ops n).Ready :=
  ⟨⟨by change r.begun + n = r.ended + n; rw [hs.ops], hs.busy, hs.held, hs.fresh, hs.ends,
    hs.child⟩, hs.live⟩

/-- The record after a file was read. -/
def CallRecord.saw (r : CallRecord) (f : Fin NFILE) (ip : Fin NINODE) : CallRecord :=
  { r with files := { r.files with seen := some (f, ip) } }

theorem CallRecord.Ready.saw_ready (hs : r.Ready) (f : Fin NFILE) (ip : Fin NINODE) :
    (r.saw f ip).Ready :=
  ⟨⟨hs.ops, hs.busy, hs.held, hs.fresh, hs.ends, hs.child⟩, hs.live⟩

variable {f : Fin NFILE} {fd : Fin NOFILE}

theorem wp_file
    (hcredit : 1 ≤ r.files.credit f) (h : ∀ ff, (∀ ip, r.files.seen = some (f, ip) → ff.ip = ip) →
      callDiscipline.wp p (k ff) Q (r.saw f ff.ip)) :
    callDiscipline.wp p (Prog.call (.file f) >>= k) Q r := by
  refine ⟨hcredit, ?_⟩
  rintro ff r' ⟨g, rfl, hexpect⟩
  exact h ff hexpect

/-- A file that was read again while its inode was locked. -/
@[simp] theorem CallRecord.unlock_saw (f : Fin NFILE) (ip : Fin NINODE) :
    (((r.saw f ip).lock ip).saw f ip).unlock ip = r.saw f ip := by
  unfold CallRecord.saw CallRecord.lock CallRecord.unlock
  simp

theorem wp_filestat (hcredit : 1 ≤ r.files.credit f) (h : ∀ n ip, Q n (r.saw f ip)) :
    callDiscipline.wp p (Sys.filestat f) Q r := by
  refine wp_file hcredit fun ff _ => ?_
  cases ff.type with
  | none => exact h _ _
  | pipe => exact h _ _
  | inode =>
    refine wp_bind.mpr (wp_ilock (wp_then rfl fun _ => ?_))
    exact wp_release (h _ _)

theorem wp_advance {Q : Unit → CallRecord → Prop} (h : Q () r) :
    callDiscipline.wp p (Sys.advance f off n) Q r := by
  exact wp_ite (fun _ => wp_plain rfl fun _ => h) fun _ => h

theorem wp_fileread {piped : Int} (hcredit : 1 ≤ r.files.credit f) (h : ∀ n ip, Q n (r.saw f ip)) :
    callDiscipline.wp p (Sys.fileread f n piped) Q r := by
  refine wp_file hcredit fun ff _ => wp_ite (fun _ => h _ _) fun _ => ?_
  cases ff.type with
  | none => exact wp_fail
  | pipe => exact h _ _
  | inode =>
    refine wp_bind.mpr (wp_ilock (wp_file hcredit fun ff' hip => ?_))
    rw [hip ff.ip rfl]
    refine wp_then rfl fun res => wp_bind.mpr (wp_advance ?_)
    refine wp_bind.mpr (wp_iunlock mem_cons_self ?_)
    rw [CallRecord.unlock_saw]
    exact h _ _

/-- Each round of `filewrite` is an operation. -/
theorem wp_filewriteFrom {i : Int} {fuel : Nat} (hcredit : 1 ≤ r.files.credit f)
    (hs : r.Ready) (h : ∀ n r', r'.Ready → Q n r') :
    callDiscipline.wp p (Sys.filewriteFrom f addr n fuel i) Q r := by
  induction fuel generalizing r i with
  | zero => exact h _ _ hs
  | succ fuel ih =>
    refine wp_ite (fun _ => ?_) fun _ => h _ _ hs
    refine wp_start hs.busy (wp_file hcredit fun ff _ => ?_)
    refine wp_bind.mpr (wp_ilock (wp_file hcredit fun ff' hip => ?_))
    rw [hip ff.ip rfl]
    refine wp_then rfl fun res => wp_bind.mpr (wp_advance ?_)
    refine wp_bind.mpr (wp_iunlock mem_cons_self ?_)
    rw [CallRecord.unlock_saw]
    have hdone : ((r.saw f ff.ip).ops 1).Ready := (hs.saw_ready f ff.ip).ops_ready 1
    refine wp_bind.mpr (wp_ends (CallRecord.ended_lt_opened hs.ops) ?_)
    refine wp_ite (fun _ => h _ _ hdone) fun _ => ?_
    refine wp_ite (fun _ => wp_fail) fun _ => ?_
    exact ih (r := (r.saw f ff.ip).ops 1) hcredit hdone

theorem wp_filewrite (hcredit : 1 ≤ r.files.credit f)
    (hs : r.Ready) (h : ∀ n r', r'.Ready → Q n r') :
    callDiscipline.wp p (Sys.filewrite f addr n piped) Q r := by
  refine wp_file hcredit fun ff _ => ?_
  have hsaw := hs.saw_ready f ff.ip
  refine wp_ite (fun _ => h _ _ hsaw) fun _ => ?_
  cases ff.type with
  | none => exact wp_fail
  | pipe => exact h _ _ hsaw
  | inode => exact wp_bind.mpr (wp_filewriteFrom hcredit hsaw fun n r' => h _ r')

/-! ### Descriptors -/

/-- The record after a look at a descriptor. -/
def CallRecord.learn (r : CallRecord) (fd : Fin NOFILE) (v : Option (Fin NFILE)) : CallRecord :=
  { r with files := r.files.learn fd v }

theorem CallRecord.Ready.learn_ready (hs : r.Ready) (fd : Fin NOFILE)
    (v : Option (Fin NFILE)) : (r.learn fd v).Ready :=
  ⟨⟨hs.ops, hs.busy, hs.held, hs.fresh, hs.ends, hs.child⟩, hs.live⟩

/-- A descriptor that was seen counts as a reference. -/
theorem FileRecord.credit_learn {l : FileRecord} (hheld : 0 ≤ l.held f) :
    1 ≤ (l.learn fd (some f)).credit f := by
  have hpos : 0 < tally (l.learn fd (some f)).known (some (some f)) :=
    tally_pos.mpr ⟨fd, update_self ..⟩
  change 1 ≤ (tally (l.learn fd (some f)).known (some (some f)) : Int) + l.held f
  omega

/-- A reference is given back and taken again. -/
theorem FileRecord.held_add_back (l : FileRecord) (f : Fin NFILE) :
    ((l.add f (-1)).add f 1).held = l.held := by
  change update (update l.held f (l.held f + -1)) f (update l.held f (l.held f + -1) f + 1) = l.held
  rw [update_self, update_idem, Int.neg_add_cancel_right, update_eq_self]

theorem CallRecord.Ready.credit_learn (hs : r.Ready) : 1 ≤ (r.learn fd (some f)).files.credit f :=
  FileRecord.credit_learn (by rw [hs.held])

theorem wp_ofile {α : Type} {Q : α → CallRecord → Prop} {k : Option (Fin NFILE) → KProg α}
    (hlive : r.files.live = true) (h : ∀ v, callDiscipline.wp p (k v) Q (r.learn fd v)) :
    callDiscipline.wp p (Prog.call (.ofile p fd) >>= k) Q r := by
  refine ⟨⟨rfl, hlive⟩, ?_⟩
  rintro v r' ⟨g, rfl, -⟩
  exact h v

theorem wp_argfd {Q : Option (Fin NOFILE × Fin NFILE) → CallRecord → Prop} {fd : Int}
    (hs : r.Ready) (hnone : ∀ r', r'.Ready → Q none r')
    (hsome : ∀ fd f, Q (some (fd, f)) (r.learn fd (some f))) :
    callDiscipline.wp p (Sys.argfd p fd) Q r := by
  unfold Sys.argfd
  split
  · refine wp_ofile hs.live fun v => ?_
    cases v with
    | none => exact hnone _ (hs.learn_ready _ _)
    | some f => exact hsome _ f
  · exact hnone r hs

section

variable {fd n piped : Int} (hs : r.Ready) (h : ∀ n r', r'.Ready → Q n r')
include hs h

theorem wp_sysRead : callDiscipline.wp p (Sys.sysRead p fd n piped) Q r := by
  refine wp_bind.mpr (wp_argfd hs (fun r' => h _ r') fun fd f => ?_)
  exact wp_fileread hs.credit_learn fun _ _ => h _ _ ((hs.learn_ready _ _).saw_ready _ _)

theorem wp_sysWrite {addr : Nat → Byte} :
    callDiscipline.wp p (Sys.sysWrite p fd addr n piped) Q r := by
  refine wp_bind.mpr (wp_argfd hs (fun r' => h _ r') fun fd f => ?_)
  exact wp_filewrite hs.credit_learn (hs.learn_ready _ _) h

theorem wp_sysFstat : callDiscipline.wp p (Sys.sysFstat p fd) Q r := by
  refine wp_bind.mpr (wp_argfd hs (fun r' => h _ r') fun fd f => ?_)
  exact wp_filestat hs.credit_learn fun _ _ => h _ _ ((hs.learn_ready _ _).saw_ready _ _)

end

/-! ### References in passing -/

/-- The call holds the references `fs`, of which those to `fresh` are to new files. -/
structure CallRecord.Carries (r : CallRecord) (fs fresh : List (Fin NFILE)) : Prop where
  held : ∀ f, r.files.held f = fs.count f
  fresh : r.files.fresh = fresh
  ends : r.files.ends = []
  child : r.files.child = none
  live : r.files.live = true

theorem CallRecord.Ready.carries (hs : r.Ready) : r.Carries [] [] :=
  ⟨fun f => by rw [hs.held]; rfl, hs.fresh, hs.ends, hs.child, hs.live⟩

theorem CallRecord.Carries.ready (h : r.Carries [] []) (hops : r.begun = r.ended)
    (hbusy : r.busy = []) : r.Ready :=
  ⟨⟨hops, hbusy, funext fun f => h.held f, h.fresh, h.ends, h.child⟩, h.live⟩

section

variable {fs fresh : List (Fin NFILE)}

theorem CallRecord.Carries.credit (h : r.Carries fs fresh) (hf : f ∈ fs) :
    1 ≤ r.files.credit f := by
  have hcount : 0 < fs.count f := count_pos_iff.mpr hf
  unfold FileRecord.credit
  rw [h.held]
  omega

theorem CallRecord.Carries.perm (h : r.Carries fs fresh)
    (hperm : fs.Perm fs') : r.Carries fs' fresh :=
  { h with held := fun f => by rw [h.held, hperm.count_eq] }

variable {α : Type} {l : FileRecord}

section

variable (hheld : ∀ g, l.held g = fs.count g)

include hheld

/-- The references after one more, or one less. -/
theorem count_add {fs' : List (Fin NFILE)} {n : Int}
    (hf : (fs'.count f : Int) = fs.count f + n) (hother : ∀ g, g ≠ f → fs'.count g = fs.count g)
    (g : Fin NFILE) : (l.add f n).held g = fs'.count g := by
  change update l.held f (l.held f + n) g = _
  by_cases hg : g = f
  · subst hg
    rw [update_self, hheld, hf]
  · rw [update_of_ne hg, hheld, hother g hg]

theorem count_add_one (g : Fin NFILE) : (l.add f 1).held g = (f :: fs).count g := by
  refine count_add hheld ?_ (fun g hg => count_cons_of_ne (Ne.symm hg)) g
  rw [count_cons_self]
  rfl

theorem count_sub_one (hf : f ∈ fs) (g : Fin NFILE) :
    (l.add f (-1)).held g = (fs.erase f).count g := by
  have hcount : 0 < fs.count f := count_pos_iff.mpr hf
  refine count_add hheld ?_ (fun g hg => count_erase_of_ne hg) g
  rw [count_erase_self]
  omega

end

section

variable (h : r.Carries fs fresh)

include h

theorem CallRecord.Carries.closed (hf : f ∈ fs) (n : Nat) :
    (r.closed f n).Carries (fs.erase f) (fresh.erase f) :=
  ⟨count_sub_one h.held hf, congrArg (·.erase f) h.fresh, h.ends, h.child, h.live⟩

theorem wp_filealloc {Q : α → CallRecord → Prop} {k : Option (Fin NFILE) → KProg α}
    (hnone : callDiscipline.wp p (k none) Q r)
    (hsome : ∀ f r', r'.Carries (f :: fs) (f :: fresh) → r'.begun = r.begun →
      r'.ended = r.ended → r'.busy = r.busy → callDiscipline.wp p (k (some f)) Q r') :
    callDiscipline.wp p (Prog.call .filealloc >>= k) Q r := by
  refine ⟨trivial, ?_⟩
  rintro b r' ⟨g, rfl, -⟩
  cases b with
  | none => exact hnone
  | some f =>
    refine hsome f _ ⟨count_add_one h.held, congrArg (f :: ·) h.fresh, h.ends, h.child,
      h.live⟩ ?_ ?_ ?_
    · rfl
    · rfl
    · rfl

theorem wp_fdalloc (hf : f ∈ fs) (hnone : callDiscipline.wp p (k none) Q r)
    (hsome : ∀ fd r', r'.Carries (fs.erase f) fresh → r'.files.known fd = some (some f) →
      r'.begun = r.begun → r'.ended = r.ended → r'.busy = r.busy →
      callDiscipline.wp p (k (some fd)) Q r') :
    callDiscipline.wp p (Prog.call (.fdalloc p f) >>= k) Q r := by
  refine ⟨⟨rfl, h.live, h.credit hf⟩, ?_⟩
  rintro b r' ⟨g, rfl, -⟩
  cases b with
  | none => exact hnone
  | some fd =>
    refine hsome fd _ ⟨?_, h.fresh, h.ends, h.child, h.live⟩ (update_self ..) rfl rfl rfl
    exact count_sub_one (l := r.files.learn fd (some f)) h.held hf

theorem wp_clearFd (hknown : r.files.known fd = some (some f))
    (hok : ∀ r', r'.Carries (f :: fs) fresh → r'.begun = r.begun → r'.ended = r.ended →
      r'.busy = r.busy → callDiscipline.wp p (k ()) Q r') :
    callDiscipline.wp p (Prog.call (.clearFd p fd) >>= k) Q r := by
  refine ⟨⟨rfl, h.live⟩, ?_⟩
  rintro b r' ⟨g, rfl, hexpect⟩
  have hg : some f = g := hexpect (some f) hknown
  subst hg
  refine hok _ ⟨?_, h.fresh, h.ends, h.child, h.live⟩ rfl rfl rfl
  exact count_add_one (l := r.files.learn fd none) h.held

end

theorem erase_pair (a b : Fin NFILE) : [a, b].erase b = [a] := by
  by_cases h : a = b
  · rw [h, erase_cons_head]
  · rw [erase_cons_tail (by simpa using h), erase_cons_head]

/-- Two references are given back one after the other. -/
theorem wp_closeTwo {Q : α → CallRecord → Prop} {rf wf : Fin NFILE} {k : KProg α}
    (h : r.Carries [wf, rf] fresh) (hfresh : fresh = [wf, rf] ∨ fresh = []) (hbusy : r.busy = [])
    (hops : r.begun = r.ended) (hok : ∀ r', r'.Ready → callDiscipline.wp p k Q r') :
    callDiscipline.wp p (Sys.fileclose rf >>= fun _ => Sys.fileclose wf >>= fun _ => k) Q r := by
  have hrf : rf ∈ [wf, rf] := mem_cons_of_mem _ mem_cons_self
  refine wp_bind.mpr (wp_fileclose (h.credit hrf) (Or.inl hbusy) hops.ge fun n => ?_)
  have h₁ := h.closed hrf n
  rw [erase_pair] at h₁
  have hwf : wf ∈ [wf] := mem_cons_self
  have hops₁ : (r.closed rf n).begun = (r.closed rf n).ended := congrArg (· + n) hops
  refine wp_bind.mpr (wp_fileclose (h₁.credit hwf) (Or.inl hbusy) hops₁.ge fun m => ?_)
  have h₂ := h₁.closed hwf m
  have hnil : (fresh.erase rf).erase wf = [] := by
    rcases hfresh with rfl | rfl
    · rw [erase_pair, erase_cons_head]
    · rfl
  rw [erase_cons_head, hnil] at h₂
  exact hok _ (h₂.ready (congrArg (· + m) hops₁) hbusy)

end

section

variable (hs : r.Ready) (h : ∀ n r', r'.Ready → Q n r')
include hs h

omit hs in
/-- The second half of `sys_pipe`: descriptors for the two ends. -/
theorem wp_pipeFds {rf wf : Fin NFILE} (hc : r.Carries [wf, rf] []) (hbusy : r.busy = [])
    (hops : r.begun = r.ended) : callDiscipline.wp p (do
      match ← Prog.call (.fdalloc p rf) with
      | none => do
          Sys.fileclose rf
          Sys.fileclose wf
          return -1
      | some fd0 =>
          match ← Prog.call (.fdalloc p wf) with
          | none => do
              Prog.call (.clearFd p fd0)
              Sys.fileclose rf
              Sys.fileclose wf
              return -1
          | some _ => return 0) Q r := by
  have hclose : ∀ r', r'.Ready → callDiscipline.wp p (pure (-1) : KProg Int) Q r' :=
    fun r' hr' => h _ r' hr'
  refine wp_fdalloc hc (mem_cons_of_mem _ mem_cons_self) ?_ ?_
  · exact wp_closeTwo hc (Or.inr rfl) hbusy hops hclose
  · intro fd r₁ h₁ hknown hb₁ he₁ hy₁
    rw [erase_pair] at h₁
    refine wp_fdalloc h₁ mem_cons_self ?_ ?_
    · refine wp_clearFd h₁ hknown fun r₂ h₂ hb₂ he₂ hy₂ => ?_
      refine wp_closeTwo (h₂.perm (List.Perm.swap ..)) (Or.inr rfl) ?_ ?_ hclose
      · rw [hy₂, hy₁, hbusy]
      · omega
    · intro fd' r₂ h₂ _ hb₂ he₂ hy₂
      rw [erase_cons_head] at h₂
      exact h _ _ (h₂.ready (by omega) (by rw [hy₂, hy₁, hbusy]))

theorem wp_sysPipe {page : Option Nat} : callDiscipline.wp p (Sys.sysPipe p page) Q r := by
  refine wp_bind.mpr ?_
  refine wp_filealloc hs.carries (h _ _ hs) fun rf r₁ h₁ hb₁ he₁ hy₁ => ?_
  have hops₁ : r₁.begun = r₁.ended := by rw [hb₁, he₁, hs.ops]
  have hbusy₁ : r₁.busy = [] := hy₁.trans hs.busy
  refine wp_filealloc h₁ ?_ fun wf r₂ h₂ hb₂ he₂ hy₂ => ?_
  · refine wp_bind.mpr (wp_fileclose (h₁.credit mem_cons_self) (Or.inl hbusy₁) hops₁.ge fun n => ?_)
    have hclosed := h₁.closed mem_cons_self n
    rw [erase_cons_head] at hclosed
    exact h _ _ (hclosed.ready (congrArg (· + n) hops₁) hbusy₁)
  · have hops₂ : r₂.begun = r₂.ended := by rw [hb₂, he₂, hops₁]
    have hbusy₂ : r₂.busy = [] := hy₂.trans hbusy₁
    cases page with
    | none => exact wp_closeTwo h₂ (Or.inl rfl) hbusy₂ hops₂ fun r' hr' => h _ r' hr'
    | some page =>
      have hrf : rf ∈ r₂.files.fresh := by
        rw [h₂.fresh]
        exact mem_cons_of_mem _ mem_cons_self
      have hwf : wf ∈ r₂.files.fresh.erase rf := by
        rw [h₂.fresh, erase_pair]
        exact mem_cons_self
      refine ⟨trivial, ?_⟩
      rintro _ _ ⟨g, rfl, -⟩
      refine ⟨⟨hrf, mem_cons_self⟩, ?_⟩
      rintro _ _ ⟨g, rfl, -⟩
      have hleft : (((page, false) :: (page, true) :: r₂.files.ends).erase (page, false)) =
          (page, true) :: r₂.files.ends := erase_cons_head ..
      have hnil : ((page, true) :: r₂.files.ends).erase (page, true) = r₂.files.ends :=
        erase_cons_head ..
      refine ⟨⟨hwf, ?_⟩, ?_⟩
      · change (page, true) ∈ ((page, false) :: (page, true) :: r₂.files.ends).erase (page, false)
        rw [hleft]
        exact mem_cons_self
      · rintro _ _ ⟨g, rfl, -⟩
        refine wp_pipeFds h ⟨h₂.held, ?_, ?_, h₂.child, h₂.live⟩ hbusy₂ hops₂
        · change (r₂.files.fresh.erase rf).erase wf = []
          rw [h₂.fresh, erase_pair, erase_cons_head]
        · change (((page, false) :: (page, true) :: r₂.files.ends).erase (page, false)).erase
            (page, true) = []
          rw [hleft, hnil, h₂.ends]

omit hs in
/-- The end of an operation with an inode locked, for any record. -/
theorem wp_unlockFinish (hbusy : r.busy = [ip])
    (hops : r.begun = r.ended + 1) (hc : r.Carries [] []) : callDiscipline.wp p
      (Sys.iunlockput ip >>= fun _ => Prog.call .endOp >>= fun _ => pure n) Q r := by
  have hmem : ip ∈ r.busy := by
    rw [hbusy]
    exact mem_cons_self
  refine wp_bind.mpr (wp_iunlockput hmem (wp_bind.mpr (wp_ends ?_ ?_)))
  · change r.ended < r.begun
    omega
  · refine h _ _ (CallRecord.Carries.ready ⟨hc.held, hc.fresh, hc.ends, hc.child, hc.live⟩ ?_ ?_)
    · exact hops
    · change r.busy.erase ip = []
      rw [hbusy, erase_cons_head]

variable {omode : Uint}

theorem wp_openFile {ip : Fin NINODE} :
    callDiscipline.wp p (Sys.openFile p ip omode) Q (r.opened.lock ip) := by
  have hbusy : (r.opened.lock ip).busy = [ip] := congrArg (ip :: ·) hs.busy
  have hops : (r.opened.lock ip).begun = (r.opened.lock ip).ended + 1 := congrArg (· + 1) hs.ops
  have hc : (r.opened.lock ip).Carries [] [] :=
    ⟨hs.carries.held, hs.fresh, hs.ends, hs.child, hs.live⟩
  refine wp_filealloc hc (wp_unlockFinish h hbusy hops hc) fun f r₁ h₁ hb₁ he₁ hy₁ => ?_
  refine wp_fdalloc h₁ mem_cons_self ?_ fun fd r₂ h₂ _ hb₂ he₂ hy₂ => ?_
  · have hfresh : f ∈ r₁.files.fresh := by
      rw [h₁.fresh]
      exact mem_cons_self
    refine wp_bind.mpr (wp_fileclose (h₁.credit mem_cons_self)
      (Or.inr hfresh) (by omega) fun n => ?_)
    have hclosed := h₁.closed mem_cons_self n
    rw [erase_cons_head] at hclosed
    refine wp_unlockFinish h (hy₁.trans hbusy) ?_ hclosed
    change r₁.begun + n = r₁.ended + n + 1
    omega
  · have hmem : ip ∈ r₂.busy := by
      rw [hy₂, hy₁, hbusy]
      exact mem_cons_self
    rw [erase_cons_head] at h₂
    refine wp_bind.mpr (wp_iunlock hmem (wp_bind.mpr (wp_ends ?_ ?_)))
    · change r₂.ended < r₂.begun
      omega
    · refine ⟨?_, ?_⟩
      · change f ∈ r₂.files.fresh
        rw [h₂.fresh]
        exact mem_cons_self
      · rintro _ _ ⟨g, rfl, -⟩
        refine h _ _ (CallRecord.Carries.ready ⟨h₂.held, ?_, h₂.ends, h₂.child, h₂.live⟩ ?_ ?_)
        · change r₂.files.fresh.erase f = []
          rw [h₂.fresh, erase_cons_head]
        · change r₂.begun = r₂.ended + 1
          omega
        · change r₂.busy.erase ip = []
          rw [hy₂, hy₁, hbusy, erase_cons_head]

theorem wp_sysOpen {path : Option CString} :
    callDiscipline.wp p (Sys.sysOpen p path omode) Q r := by
  cases path with
  | none => exact h _ _ hs
  | some path =>
    have hfail : callDiscipline.wp p (Prog.call .endOp >>= fun _ => pure (-1)) Q r.opened :=
      wp_finish hs.ops (h _ _ (hs.ops_ready 1))
    refine wp_start hs.busy (wp_bind.mpr ?_)
    refine wp_ite (fun _ => wp_create hfail fun ip => wp_openFile hs h) fun _ => ?_
    refine wp_bind.mpr (wp_namei fun res => ?_)
    cases res with
    | none => exact hfail
    | some ip =>
      refine wp_bind.mpr (wp_ilock (wp_then rfl fun i => ?_))
      refine wp_ite (fun _ => ?_) fun _ => wp_openFile hs h
      exact wp_drop hfail

theorem wp_sysClose {fd : Int} : callDiscipline.wp p (Sys.sysClose p fd) Q r := by
  refine wp_bind.mpr (wp_argfd hs (fun r' => h _ r') fun fd f => ?_)
  have hl := hs.learn_ready fd (some f)
  refine wp_clearFd hl.carries (update_self ..) fun r₁ h₁ hb₁ he₁ hy₁ => ?_
  have hops : r₁.begun = r₁.ended := by rw [hb₁, he₁, hl.ops]
  have hbusy : r₁.busy = [] := hy₁.trans hl.busy
  refine wp_bind.mpr (wp_fileclose (h₁.credit mem_cons_self) (Or.inl hbusy) hops.ge fun n => ?_)
  have hclosed := h₁.closed mem_cons_self n
  rw [erase_cons_head] at hclosed
  exact h _ _ (hclosed.ready (congrArg (· + n) hops) hbusy)

/-- The new descriptor and the one that was copied count, so that the reference may be taken
    after the descriptor. -/
theorem wp_sysDup {fd : Int} : callDiscipline.wp p (Sys.sysDup p fd) Q r := by
  refine wp_bind.mpr (wp_argfd hs (fun r' => h _ r') fun fd f => ?_)
  have hl := hs.learn_ready fd (some f)
  refine ⟨⟨rfl, hs.live, hs.credit_learn⟩, ?_⟩
  rintro b _ ⟨g, rfl, hexpect⟩
  cases b with
  | none => exact h _ _ hl
  | some fd' =>
    have hnew : (r.learn fd (some f)).files.known fd' ≠ some (some f) := fun hcon =>
      nomatch hexpect fd' rfl (some f) hcon
    have hone : 0 < tally (r.learn fd (some f)).files.known (some (some f)) :=
      tally_pos.mpr ⟨fd, update_self ..⟩
    have htwo := tally_update (r.learn fd (some f)).files.known fd' (some (some f)) (some (some f))
    rw [if_neg hnew, if_pos rfl] at htwo
    have hzero : (r.learn fd (some f)).files.held f = 0 := congrFun hl.held f
    refine ⟨⟨?_, by change f ∉ r.files.fresh; rw [hs.fresh]; exact not_mem_nil⟩, ?_⟩
    · change 1 ≤ (tally (update (r.learn fd (some f)).files.known fd' (some (some f)))
        (some (some f)) : Int) + update (r.learn fd (some f)).files.held f
          ((r.learn fd (some f)).files.held f + -1) f
      rw [update_self, hzero]
      omega
    · rintro _ _ ⟨g, rfl, -⟩
      refine h _ _ ⟨⟨hl.ops, hl.busy, ?_, hl.fresh, hl.ends, hl.child⟩, hl.live⟩
      exact (FileRecord.held_add_back (r.learn fd (some f)).files f).trans hl.held

/-! ### `fork` and `exit` -/

omit hs h in
/-- Each descriptor that `fork` has copied is a reference. -/
theorem wp_forkFiles {Q : (Fin NOFILE → Option (Fin NFILE)) → CallRecord → Prop} {np : Fin NPROC}
    {files : Fin NOFILE → Option (Fin NFILE)} (hnodup : fds.Nodup)
    (hrest : ∀ fd ∈ fds, files fd = none) (hheld : ∀ f, r.files.held f = tally files (some f))
    (hops : r.begun = r.ended) (hbusy : r.busy = []) (hfresh : r.files.fresh = [])
    (hends : r.files.ends = []) (hchild : r.files.child = some np) (hlive : r.files.live = true)
    (h : ∀ (files : Fin NOFILE → Option (Fin NFILE)) (r' : CallRecord),
      (∀ f, r'.files.held f = tally files (some f)) → r'.begun = r'.ended →
      r'.busy = [] → r'.files.fresh = [] → r'.files.ends = [] → r'.files.child = some np →
      r'.files.live = true → Q files r') : callDiscipline.wp p (Sys.forkFiles p fds files) Q r := by
  induction fds generalizing r files with
  | nil => exact h files r hheld hops hbusy hfresh hends hchild hlive
  | cons fd fds ih =>
    obtain ⟨hnot, hnodup'⟩ := nodup_cons.mp hnodup
    unfold Sys.forkFiles
    refine wp_ofile hlive fun v => ?_
    cases v with
    | none =>
      exact ih hnodup' (fun fd' hfd' => hrest fd' (mem_cons_of_mem _ hfd')) hheld hops hbusy
        hfresh hends hchild hlive
    | some f =>
      refine ⟨⟨FileRecord.credit_learn (by rw [hheld]; exact Int.natCast_nonneg _),
        by change f ∉ r.files.fresh; rw [hfresh]; exact not_mem_nil⟩, ?_⟩
      rintro _ _ ⟨g, rfl, -⟩
      refine ih hnodup' (fun fd' hfd' => ?_) (fun g => ?_) hops hbusy hfresh hends hchild hlive
      · have hne : fd' ≠ fd := by
          rintro rfl
          exact hnot hfd'
        rw [update_of_ne hne]
        exact hrest fd' (mem_cons_of_mem _ hfd')
      · have hset := tally_update files fd (some f) (some g)
        rw [hrest fd mem_cons_self, if_neg nofun] at hset
        change update r.files.held f (r.files.held f + 1) g = _
        by_cases hg : g = f
        · subst hg
          rw [if_pos rfl] at hset
          rw [update_self, hheld]
          omega
        · rw [if_neg fun heq => hg (Option.some.inj heq).symm] at hset
          rw [update_of_ne hg, hheld]
          omega

theorem wp_sysFork {np : Option (Fin NPROC)} {memory : Bool} :
    callDiscipline.wp p (Sys.sysFork p np memory) Q r := by
  cases np with
  | none => exact h _ _ hs
  | some np =>
    refine ⟨hs.child, ?_⟩
    rintro _ _ ⟨g, rfl, -⟩
    refine wp_ite (fun _ => ?_) fun _ => ?_
    · refine ⟨⟨hs.live, Or.inl rfl⟩, ?_⟩
      rintro _ _ ⟨g, rfl, -⟩
      simp only [KOp.effect, if_pos]
      exact h _ _ ⟨⟨hs.ops, hs.busy, hs.held, hs.fresh, hs.ends, rfl⟩, hs.live⟩
    · refine wp_bind.mpr (wp_forkFiles (nodup_finRange _) (fun _ _ => rfl)
        (fun f => ?_) hs.ops hs.busy hs.fresh hs.ends rfl
        hs.live ?_)
      · have hzero : tally (fun _ : Fin NOFILE => (none : Option (Fin NFILE))) (some f) = 0 :=
          tally_eq_zero.mpr fun _ => nofun
        rw [hzero]
        exact congrFun hs.held f
      · intro files r₁ hheld hops hbusy hfresh hends hchild hlive
        refine wp_then rfl fun dir => ?_
        cases dir with
        | none => exact wp_fail
        | some ip =>
          refine wp_then rfl fun _ => ⟨⟨hchild, hlive, hfresh, fun f => (hheld f).ge⟩, ?_⟩
          rintro _ _ ⟨g, rfl, -⟩
          refine h _ _ ⟨⟨hops, hbusy, funext fun f => ?_, hfresh, hends, rfl⟩, hlive⟩
          change r₁.files.held f - tally files (some f) = 0
          rw [hheld]
          exact sub_self _

omit hs h in
/-- `exit` closes a file before it clears the descriptor. -/
theorem wp_exitFiles {Q : Unit → CallRecord → Prop} (hs : r.Ready)
    (h : ∀ r', r'.Ready → (∀ fd, fd ∈ fds ∨ r.files.known fd = some none →
      r'.files.known fd = some none) → Q () r') :
    callDiscipline.wp p (Sys.exitFiles p fds) Q r := by
  induction fds generalizing r with
  | nil => exact h r hs fun fd hfd => hfd.resolve_left not_mem_nil
  | cons fd fds ih =>
    refine wp_ofile hs.live fun v => ?_
    have hstep : ∀ r₁ : CallRecord, r₁.files.known = update r.files.known fd (some none) →
        ∀ r' : CallRecord, (∀ fd', fd' ∈ fds ∨ r₁.files.known fd' = some none →
          r'.files.known fd' = some none) →
          ∀ fd', fd' ∈ fd :: fds ∨ r.files.known fd' = some none →
            r'.files.known fd' = some none := by
      intro r₁ hknown r' hr' fd' hfd'
      by_cases heq : fd' = fd
      · subst heq
        exact hr' _ (Or.inr (by rw [hknown, update_self]))
      · refine hr' fd' (hfd'.imp (fun hmem => ?_) fun hnone => ?_)
        · exact (mem_cons.mp hmem).resolve_left heq
        · rw [hknown, update_of_ne heq]
          exact hnone
    cases v with
    | none =>
      refine ih (hs.learn_ready fd none) fun r' hr' hknown => h r' hr' ?_
      exact hstep (r.learn fd none) rfl r' hknown
    | some f =>
      have hl := hs.learn_ready fd (some f)
      refine wp_bind.mpr (wp_fileclose hs.credit_learn (Or.inl hl.busy) hl.ops.ge fun n => ?_)
      refine ⟨⟨rfl, hl.live⟩, ?_⟩
      rintro _ _ ⟨g, rfl, hexpect⟩
      have hg : some f = g := hexpect (some f) (update_self ..)
      subst hg
      have hready : (((r.learn fd (some f)).closed f n).clearFd fd (some f)).Ready := by
        refine ⟨⟨congrArg (· + n) hl.ops, hl.busy, ?_, ?_, hl.ends, hl.child⟩, hl.live⟩
        · exact (FileRecord.held_add_back (r.learn fd (some f)).files f).trans hl.held
        · change (r.learn fd (some f)).files.fresh.erase f = []
          rw [hl.fresh]
          rfl
      refine ih hready fun r' hr' hknown => h r' hr' ?_
      refine hstep (((r.learn fd (some f)).closed f n).clearFd fd (some f)) ?_ r' hknown
      exact update_idem ..

omit h in
theorem wp_sysExit (h : ∀ n r', r'.Settled → Q n r') : callDiscipline.wp p (Sys.sysExit p) Q r := by
  refine wp_ite (fun _ => wp_fail) fun _ => ?_
  refine wp_bind.mpr (wp_exitFiles hs fun r₁ hr₁ hknown => ?_)
  refine wp_start hr₁.busy (wp_then rfl fun dir => ?_)
  cases dir with
  | none => exact wp_fail
  | some ip =>
    have hdone := hr₁.ops_ready 1
    refine wp_bind.mpr (wp_iput (wp_bind.mpr ?_))
    refine wp_ends (CallRecord.ended_lt_opened hr₁.ops) (wp_then rfl fun _ => ?_)
    refine ⟨⟨hdone.live, Or.inr ⟨rfl, hdone.toSettled,
      fun fd => hknown fd (Or.inl (mem_finRange fd))⟩⟩, ?_⟩
    rintro _ _ ⟨g, rfl, -⟩
    have hself : (r₁.ops 1).files.child ≠ some p := by
      rw [hdone.child]
      exact nofun
    refine h _ _ ?_
    change (if (r₁.ops 1).files.child = some p then _ else _ : CallRecord).Settled
    rw [if_neg hself]
    exact ⟨hdone.ops, hdone.busy, hdone.held, hdone.fresh, hdone.ends, hdone.child⟩

end

end

end

/-- Every call keeps to the discipline and leaves nothing over. -/
theorem keepsDiscipline (p : Fin NPROC) (c : FsCall) :
    callDiscipline.wp p (c.prog p) (fun _ r => r.Settled) .opening := by
  have hs : CallRecord.opening.Ready := ⟨⟨rfl, rfl, rfl, rfl, rfl, rfl⟩, rfl⟩
  have hops := (hs.ops_ready 1).toSettled
  cases c with
  | dup fd => exact wp_sysDup hs fun _ _ h => h.toSettled
  | read fd n piped => exact wp_sysRead hs fun _ _ h => h.toSettled
  | write fd addr n piped => exact wp_sysWrite hs fun _ _ h => h.toSettled
  | close fd => exact wp_sysClose hs fun _ _ h => h.toSettled
  | fstat fd => exact wp_sysFstat hs fun _ _ h => h.toSettled
  | pipe page => exact wp_sysPipe hs fun _ _ h => h.toSettled
  | link old new => exact wp_sysLink hs (fun _ => hs.toSettled) fun _ => hops
  | unlink path => exact wp_sysUnlink hs (fun _ => hs.toSettled) fun _ => hops
  | «open» path omode => exact wp_sysOpen hs fun _ _ h => h.toSettled
  | mkdir path => exact wp_sysCreate hs fun _ => hops
  | mknod path major minor => exact wp_sysCreate hs fun _ => hops
  | chdir path => exact wp_sysChdir hs fun _ => hops
  | chmod path mode => exact wp_changeField hs (fun _ => hs.toSettled) fun _ => hops
  | chown path uid => exact wp_changeField hs (fun _ => hs.toSettled) fun _ => hops
  | chgrp path gid => exact wp_changeField hs (fun _ => hs.toSettled) fun _ => hops
  | exec path plan => exact wp_execFile hs (fun _ => hs.toSettled) fun _ => hops
  | fork np memory => exact wp_sysFork hs fun _ _ h => h.toSettled
  | exit => exact wp_sysExit hs fun _ _ => id

end Xv6Kernel
