/-
  SysFile.lean
  ============
  The system calls of the file system as programs (`sysfile.c`, `fs.c`, `file.c`, and the
  parts of `proc.c` and `exec.c` that use files).

  A string argument is `none` if the call finds that its pointer is bad.  The name buffer
  that `namex` fills is the list of its bytes before the first zero byte, at most `DIRSIZ`
  of them; what follows in the buffer is never read.

  Left out: pipes, so reading from one or writing to one returns a value that the call is
  given, and the memory of processes, so `fork` and `pipe` are told whether there is enough.
  `exec` reads the program file as `ReadPlan` says, whatever its contents are.
-/
import Xv6Kernel.KernelOps

namespace Xv6Kernel

open AtomicProg

/-! ### Strings (`string.c`) -/

def DIRSIZ : Nat := 14

/-- A string of C without its zero byte. -/
def CString := { l : List Byte // (0 : Byte) ∉ l }

abbrev Name := List Byte

def strncmp : List Byte → List Byte → Nat → Int
  | _, _, 0 => 0
  | p, q, n + 1 =>
      if p.headD 0 ≠ 0 ∧ p.headD 0 = q.headD 0 then strncmp p.tail q.tail n
      else (p.headD 0).toNat - (q.headD 0).toNat

/-- The bytes that `strncpy` writes. -/
def strncpy : List Byte → Nat → List Byte
  | _, 0 => []
  | t, n + 1 =>
      if t.headD 0 = 0 then List.replicate (n + 1) 0 else t.headD 0 :: strncpy t.tail n

def namecmp (s t : List Byte) : Int := strncmp s t DIRSIZ

def slash : Byte := 47
def dot : Name := [46]
def dotdot : Name := [46, 46]

/-! ### Paths -/

/-- The next element of a path, cut off at `DIRSIZ` bytes, and the rest of the path. -/
def skipelem (path : List Byte) : Option (Name × List Byte) :=
  let path := path.dropWhile (· = slash)
  if path = [] then none
  else some ((path.takeWhile (· ≠ slash)).take DIRSIZ,
    (path.dropWhile (· ≠ slash)).dropWhile (· = slash))

/-- The elements that the loop of `namex` sees; each is at least one byte of the path. -/
def pathElems : (fuel : Nat) → List Byte → List Name
  | 0, _ => []
  | fuel + 1, path =>
      match skipelem path with
      | none => []
      | some (name, rest) => name :: pathElems fuel rest

def CString.elems (path : CString) : List Name := pathElems path.1.length path.1

/-- The parts of a path between its slashes that are not empty. -/
def pathParts (path : List Byte) : List Name := (path.splitOn slash).filter (· ≠ [])

theorem pathParts_dropWhile (path : List Byte) :
    pathParts (path.dropWhile (· = slash)) = pathParts path := by
  induction path with
  | nil => rfl
  | cons c path ih =>
      by_cases h : c = slash
      · simpa [h, pathParts, List.splitOn_cons_eq_if_modifyHead] using ih
      · simp [h]

theorem pathParts_cons {c : Byte} (hc : c ≠ slash) (path : List Byte) : pathParts (c :: path) =
    (c :: path.takeWhile (· ≠ slash)) :: pathParts (path.dropWhile (· ≠ slash)) := by
  induction path generalizing c with
  | nil => simp [pathParts, hc, List.splitOn_cons_eq_if_modifyHead]
  | cons d path ih =>
      by_cases h : d = slash
      · simp [pathParts, h, hc, List.splitOn_cons_eq_if_modifyHead]
      · have := ih h
        cases hs : path.splitOn slash <;> simp_all [pathParts, List.splitOn_cons_eq_if_modifyHead]

theorem pathElems_eq : ∀ (fuel : Nat) (path : List Byte), path.length ≤ fuel →
    pathElems fuel path = (pathParts path).map (·.take DIRSIZ)
  | 0, path, h => by simp_all [pathElems, pathParts]
  | fuel + 1, path, h => by
      have hle := (path.dropWhile_sublist (· = slash)).length_le
      have hhead := path.head?_dropWhile_not (· = slash)
      rw [← pathParts_dropWhile, pathElems, skipelem]
      cases hpath : path.dropWhile (· = slash) with
      | nil => rfl
      | cons c tail =>
          have hc : c ≠ slash := by simpa [hpath] using hhead
          have hrest := ((List.dropWhile_sublist (· = slash)).trans
            (tail.dropWhile_sublist (· ≠ slash))).length_le
          rw [pathParts_cons hc, ← pathParts_dropWhile, List.map_cons, ← pathElems_eq fuel]
          · simp [hc]
          · simp only [hpath, List.length_cons] at hle
            omega

/-- `namex` sees the parts of the path in order, each cut off at `DIRSIZ` bytes. -/
theorem CString.elems_eq_parts (path : CString) :
    path.elems = (pathParts path.1).map (·.take DIRSIZ) :=
  pathElems_eq _ _ le_rfl

/-! ### Directory entries -/

structure Dirent where
  inum : Nat
  name : List Byte
deriving DecidableEq

/-- `sizeof(struct dirent)`. -/
def direntSize : Nat := 16

def Dirent.ofBytes (l : List Byte) : Dirent where
  inum := (l.getD 0 0).toNat + 256 * (l.getD 1 0).toNat
  name := (l.drop 2).take DIRSIZ

/-- The bytes of an entry; `inum` is cut off to a `ushort`. -/
def direntBytes (inum : Nat) (name : Name) : List Byte :=
  BitVec.ofNat 8 inum :: BitVec.ofNat 8 (inum / 256) :: strncpy name DIRSIZ

/-- The offsets `0, 16, …` below the size. -/
def offsets (size : Nat) : List Nat :=
  (List.range ((size + direntSize - 1) / direntSize)).map (· * direntSize)

abbrev KProg := Prog KOp

namespace Sys

open KOp Prog

def fail {α : Type} (e : FsPanic) : KProg α := .op (.panic e) Empty.elim

/-! ### Inodes -/

def ilock (ip : Fin NINODE) : KProg Unit := do
  call (.ilockCheck ip)
  call (.ilockWait ip)
  call (.ilockLoad ip)

def iunlock (ip : Fin NINODE) : KProg Unit := call (.iunlock ip)

def iput (ip : Fin NINODE) : KProg Unit := do
  if ← call (.iputBegin ip) then
    call (.ifree ip)
    call (.iputEnd ip)
  else return ()

def iunlockput (ip : Fin NINODE) : KProg Unit := do
  iunlock ip
  iput ip

/-- The loop of `ialloc` over the inode numbers. -/
def iallocFrom (type : InodeType) : List Nat → KProg (Fin NINODE)
  | [] => fail .iallocNoInodes
  | inum :: inums => do
      if ← call (.iallocTry type inum) then call (.iget inum)
      else iallocFrom type inums

def ialloc (type : InodeType) : KProg (Fin NINODE) := do
  let n ← call .ninodes
  iallocFrom type (List.range' 1 (n - 1))

/-! ### Directories -/

/-- `readi` of a directory entry, which has to be there. -/
def readDirent (dp : Fin NINODE) (off : Nat) (e : FsPanic) : KProg Dirent := do
  let (r, bytes) ← call (.readi dp off direntSize)
  if r ≠ direntSize then fail e
  else return .ofBytes bytes

def dirlookupFrom (dp : Fin NINODE) (name : Name) :
    List Nat → KProg (Option (Fin NINODE × Nat))
  | [] => return none
  | off :: offs => do
      let de ← readDirent dp off .dirlinkRead
      if de.inum = 0 then dirlookupFrom dp name offs
      else if namecmp name de.name = 0 then
        let ip ← call (.iget de.inum)
        return some (ip, off)
      else dirlookupFrom dp name offs

/-- The inode with a name and the offset of its entry. -/
def dirlookup (dp : Fin NINODE) (name : Name) : KProg (Option (Fin NINODE × Nat)) := do
  let d ← call (.inode dp)
  if d.fields.type ≠ .dir then fail .dirlookupNotDir
  else dirlookupFrom dp name (offsets d.size)

/-- The offset of the first empty entry, or of the end. -/
def emptyDirent (dp : Fin NINODE) : List Nat → (last : Nat) → KProg Nat
  | [], last => return last
  | off :: offs, _ => do
      let de ← readDirent dp off .dirlinkRead
      if de.inum = 0 then return off
      else emptyDirent dp offs (off + direntSize)

def dirlink (dp : Fin NINODE) (name : Name) (inum : Nat) : KProg Int := do
  match ← dirlookup dp name with
  | some (ip, _) => do
      iput ip
      return -1
  | none => do
      let d ← call (.inode dp)
      let off ← emptyDirent dp (offsets d.size) 0
      let r ← call (.writei dp ((direntBytes inum name).getD · 0) off direntSize)
      if r ≠ direntSize then fail .dirlink
      else return 0

def isdiremptyFrom (dp : Fin NINODE) : List Nat → KProg Bool
  | [] => return true
  | off :: offs => do
      let de ← readDirent dp off .isdirempty
      if de.inum ≠ 0 then return false
      else isdiremptyFrom dp offs

def isdirempty (dp : Fin NINODE) : KProg Bool := do
  let d ← call (.inode dp)
  isdiremptyFrom dp ((offsets d.size).drop 2)

/-! ### Names -/

/-- The loop of `namex`; returns the inode, and the last element if the parent was asked for. -/
def namexLoop (parent : Bool) : List Name → Fin NINODE → KProg (Option (Fin NINODE × Name))
  | [], ip => do
      if parent then
        iput ip
        return none
      else return some (ip, [])
  | name :: rest, ip => do
      ilock ip
      let i ← call (.inode ip)
      if i.fields.type ≠ .dir then
        iunlockput ip
        return none
      else if parent ∧ rest = [] then
        -- stop one level early
        iunlock ip
        return some (ip, name)
      else
        match ← dirlookup ip name with
        | none => do
            iunlockput ip
            return none
        | some (next, _) => do
            iunlockput ip
            namexLoop parent rest next

def namex (p : Fin NPROC) (path : CString) (parent : Bool) :
    KProg (Option (Fin NINODE × Name)) := do
  if path.1.head? = some slash then
    let ip ← call (.iget ROOTINO)
    namexLoop parent path.elems ip
  else
    match ← call (.cwd p) with
    | none => fail .trap
    | some ip => do
        call (.idup ip)
        namexLoop parent path.elems ip

def namei (p : Fin NPROC) (path : CString) : KProg (Option (Fin NINODE)) := do
  return (← namex p path false).map Prod.fst

def nameiparent (p : Fin NPROC) (path : CString) : KProg (Option (Fin NINODE × Name)) :=
  namex p path true

/-! ### Files -/

def fileclose (f : Fin NFILE) : KProg Unit := do
  match ← call (.fileput f) with
  | none => return ()
  | some ff =>
      match ff.type with
      | .inode => do
          call .beginOp
          iput ff.ip
          call .endOp
      | .pipe => call (.pipeclose ff.pipe ff.writable)
      | .none => return ()

def filestat (f : Fin NFILE) : KProg Int := do
  let ff ← call (.file f)
  match ff.type with
  | .inode => do
      ilock ff.ip
      let _ ← call (.inode ff.ip)
      iunlock ff.ip
      return 0
  | _ => return -1

/-- `if(r > 0) f->off += r`. -/
def advance (f : Fin NFILE) (off : Nat) (r : Int) : KProg Unit :=
  if 0 < r then call (.setOff f ((off + r.toNat) % 2 ^ 32)) else return ()

/-- `fileread`; `piped` is what `piperead` returns. -/
def fileread (f : Fin NFILE) (n : Int) (piped : Int) : KProg Int := do
  let ff ← call (.file f)
  if ff.readable = false then return -1
  else
    match ff.type with
    | .pipe => return piped
    | .inode => do
        ilock ff.ip
        let ff ← call (.file f)
        let (r, _) ← call (.readi ff.ip ff.off (n % 2 ^ 32).toNat)
        advance f ff.off r
        iunlock ff.ip
        return r
    | .none => fail .fileread

/-- The loop of `filewrite`; each round writes at least one byte. -/
def filewriteFrom (f : Fin NFILE) (addr : Nat → Byte) (n : Int) : (fuel : Nat) → Int → KProg Int
  | 0, i => return i
  | fuel + 1, i => do
      if i < n then
        let n1 := if maxChunk < n - i then maxChunk else n - i
        call .beginOp
        let ff ← call (.file f)
        ilock ff.ip
        let ff ← call (.file f)
        let r ← call (.writei ff.ip (fun k => addr (i.toNat + k)) ff.off n1.toNat)
        advance f ff.off r
        iunlock ff.ip
        call .endOp
        if r < 0 then return i
        else if r ≠ n1 then fail .shortFilewrite
        else filewriteFrom f addr n fuel (i + r)
      else return i

/-- `filewrite`; `piped` is what `pipewrite` returns. -/
def filewrite (f : Fin NFILE) (addr : Nat → Byte) (n : Int) (piped : Int) : KProg Int := do
  let ff ← call (.file f)
  if ff.writable = false then return -1
  else
    match ff.type with
    | .pipe => return piped
    | .inode => do
        let i ← filewriteFrom f addr n n.toNat 0
        return if i = n then n else -1
    | .none => fail .filewrite

/-- `argfd`: the file of a descriptor. -/
def argfd (p : Fin NPROC) (fd : Int) : KProg (Option (Fin NOFILE × Fin NFILE)) := do
  if h : 0 ≤ fd ∧ fd.toNat < NOFILE then
    let f ← call (.ofile p ⟨fd.toNat, h.2⟩)
    return f.map fun f => (⟨fd.toNat, h.2⟩, f)
  else return none

/-! ### The calls -/

def sysDup (p : Fin NPROC) (fd : Int) : KProg Int := do
  match ← argfd p fd with
  | none => return -1
  | some (_, f) =>
      match ← call (.fdalloc p f) with
      | none => return -1
      | some fd' => do
          call (.filedup f)
          return fd'.val

def sysRead (p : Fin NPROC) (fd n piped : Int) : KProg Int := do
  match ← argfd p fd with
  | none => return -1
  | some (_, f) => fileread f n piped

def sysWrite (p : Fin NPROC) (fd : Int) (addr : Nat → Byte) (n piped : Int) : KProg Int := do
  match ← argfd p fd with
  | none => return -1
  | some (_, f) => filewrite f addr n piped

def sysClose (p : Fin NPROC) (fd : Int) : KProg Int := do
  match ← argfd p fd with
  | none => return -1
  | some (fd', f) => do
      call (.clearFd p fd')
      fileclose f
      return 0

def sysFstat (p : Fin NPROC) (fd : Int) : KProg Int := do
  match ← argfd p fd with
  | none => return -1
  | some (_, f) => filestat f

/-- `nlink` of an inode becomes one less. -/
def dropLink (ip : Fin NINODE) : KProg Unit := do
  call (.setFields ip fun f => { f with nlink := f.nlink - 1 })
  call (.iupdate ip)

/-- Two new files, the ends of a pipe; `page` is what `kalloc` returns. -/
def pipealloc (page : Option Nat) : KProg (Option (Fin NFILE × Fin NFILE)) := do
  match ← call .filealloc with
  | none => return none
  | some rf =>
      match ← call .filealloc with
      | none => do
          fileclose rf
          return none
      | some wf =>
          match page with
          | none => do
              fileclose rf
              fileclose wf
              return none
          | some page => do
              call (.pipeInit page)
              call (.setPipe rf page true false)
              call (.setPipe wf page false true)
              return some (rf, wf)

def sysPipe (p : Fin NPROC) (page : Option Nat) : KProg Int := do
  match ← pipealloc page with
  | none => return -1
  | some (rf, wf) =>
      match ← call (.fdalloc p rf) with
      | none => do
          fileclose rf
          fileclose wf
          return -1
      | some fd0 =>
          match ← call (.fdalloc p wf) with
          | none => do
              call (.clearFd p fd0)
              fileclose rf
              fileclose wf
              return -1
          | some _ => return 0

/-- The part of `sys_link` at the label `bad`. -/
def linkBad (ip : Fin NINODE) : KProg Int := do
  ilock ip
  dropLink ip
  iunlockput ip
  call .endOp
  return -1

/-- `sys_link` after it has found the old file. -/
def linkInode (p : Fin NPROC) (ip : Fin NINODE) (new : CString) : KProg Int := do
  ilock ip
  let i ← call (.inode ip)
  if i.fields.type = .dir then
    iunlockput ip
    call .endOp
    return -1
  else
    call (.setFields ip fun f => { f with nlink := f.nlink + 1 })
    call (.iupdate ip)
    iunlock ip
    match ← nameiparent p new with
    | none => linkBad ip
    | some (dp, name) => do
        ilock dp
        let r ← dirlink dp name i.inum
        if r < 0 then
          iunlockput dp
          linkBad ip
        else
          iunlockput dp
          iput ip
          call .endOp
          return 0

def sysLink (p : Fin NPROC) (old new : Option CString) : KProg Int := do
  match old, new with
  | some old, some new => do
      call .beginOp
      match ← namei p old with
      | none => do
          call .endOp
          return -1
      | some ip => linkInode p ip new
  | _, _ => return -1

/-- The test of `sys_unlink` that a directory is empty. -/
def mayUnlink (ip : Fin NINODE) (type : InodeType) : KProg Bool :=
  if type = .dir then isdirempty ip else return true

/-- ".." of a directory that is removed no longer counts. -/
def dropParentLink (dp : Fin NINODE) (type : InodeType) : KProg Unit :=
  if type = .dir then dropLink dp else return ()

/-- `sys_unlink` with both inodes locked: the entry at `off` of `dp` is removed, unless `ip`
    is a directory that is not empty. -/
def unlinkInode (dp ip : Fin NINODE) (off : Nat) : KProg Int := do
  let i ← call (.inode ip)
  if i.fields.nlink.toInt < 1 then fail .unlinkNlink
  else
    let ok ← mayUnlink ip i.fields.type
    if ok = false then
      iunlockput ip
      iunlockput dp
      return -1
    else
      let r ← call (.writei dp (fun _ => 0) off direntSize)
      if r ≠ direntSize then fail .unlinkWritei
      else
        dropParentLink dp i.fields.type
        iunlockput dp
        dropLink ip
        iunlockput ip
        return 0

/-- `sys_unlink` after it has found the directory. -/
def unlinkName (dp : Fin NINODE) (name : Name) : KProg Int := do
  ilock dp
  if namecmp name dot = 0 ∨ namecmp name dotdot = 0 then
    iunlockput dp
    return -1
  else
    match ← dirlookup dp name with
    | none => do
        iunlockput dp
        return -1
    | some (ip, off) => do
        ilock ip
        unlinkInode dp ip off

def sysUnlink (p : Fin NPROC) (path : Option CString) : KProg Int := do
  match path with
  | none => return -1
  | some path => do
      call .beginOp
      match ← nameiparent p path with
      | none => do
          call .endOp
          return -1
      | some (dp, name) => do
          let r ← unlinkName dp name
          call .endOp
          return r

/-- The entries "." and ".." of a new directory. -/
def createDots (dp ip : Fin NINODE) (inum : Nat) : KProg Unit := do
  -- for ".."
  call (.setFields dp fun f => { f with nlink := f.nlink + 1 })
  call (.iupdate dp)
  let d ← call (.inode dp)
  if (← dirlink ip dot inum) < 0 then fail .createDots
  else if (← dirlink ip dotdot d.inum) < 0 then fail .createDots
  else return ()

def createDirEntries (dp ip : Fin NINODE) (type : InodeType) (inum : Nat) : KProg Unit :=
  if type = .dir then createDots dp ip inum else return ()

/-- `create` when the name is not in the directory yet. -/
def createInode (dp : Fin NINODE) (name : Name) (type : InodeType) (major minor : BitVec 16) :
    KProg (Fin NINODE) := do
  let ip ← ialloc type
  ilock ip
  call (.setFields ip fun f => { f with major := major, minor := minor, nlink := 1 })
  call (.iupdate ip)
  let i ← call (.inode ip)
  createDirEntries dp ip type i.inum
  if (← dirlink dp name i.inum) < 0 then fail .createDirlink
  else
    iunlockput dp
    return ip

/-- `create` returns the inode locked. -/
def create (p : Fin NPROC) (path : CString) (type : InodeType) (major minor : BitVec 16) :
    KProg (Option (Fin NINODE)) := do
  match ← nameiparent p path with
  | none => return none
  | some (dp, name) => do
      ilock dp
      match ← dirlookup dp name with
      | some (ip, _) => do
          iunlockput dp
          ilock ip
          let i ← call (.inode ip)
          if type = .file ∧ i.fields.type = .file then return some ip
          else
            iunlockput ip
            return none
      | none => return some (← createInode dp name type major minor)

def O_WRONLY : Nat := 0x001
def O_RDWR : Nat := 0x002
def O_CREATE : Nat := 0x200

/-- The first part of `sys_open`: the inode, locked. -/
def openInode (p : Fin NPROC) (path : CString) (omode : Uint) : KProg (Option (Fin NINODE)) := do
  if omode &&& BitVec.ofNat 32 O_CREATE ≠ 0 then create p path .file 0 0
  else
    match ← namei p path with
    | none => return none
    | some ip => do
        ilock ip
        let i ← call (.inode ip)
        if i.fields.type = .dir ∧ omode ≠ 0 then
          iunlockput ip
          return none
        else return some ip

/-- The second part: a file and a descriptor for it. -/
def openFile (p : Fin NPROC) (ip : Fin NINODE) (omode : Uint) : KProg Int := do
  match ← call .filealloc with
  | none => do
      iunlockput ip
      call .endOp
      return -1
  | some f =>
      match ← call (.fdalloc p f) with
      | none => do
          fileclose f
          iunlockput ip
          call .endOp
          return -1
      | some fd => do
          iunlock ip
          call .endOp
          call (.setFile f ip (omode &&& BitVec.ofNat 32 O_WRONLY = 0)
            (omode &&& BitVec.ofNat 32 O_WRONLY ≠ 0 ∨ omode &&& BitVec.ofNat 32 O_RDWR ≠ 0))
          return fd.val

def sysOpen (p : Fin NPROC) (path : Option CString) (omode : Uint) : KProg Int := do
  match path with
  | none => return -1
  | some path => do
      call .beginOp
      match ← openInode p path omode with
      | none => do
          call .endOp
          return -1
      | some ip => openFile p ip omode

/-- `sys_mkdir` and `sys_mknod`. -/
def sysCreate (p : Fin NPROC) (path : Option CString) (type : InodeType) (major minor : BitVec 16) :
    KProg Int := do
  call .beginOp
  match path with
  | none => do
      call .endOp
      return -1
  | some path =>
      match ← create p path type major minor with
      | none => do
          call .endOp
          return -1
      | some ip => do
          iunlockput ip
          call .endOp
          return 0

def sysMkdir (p : Fin NPROC) (path : Option CString) : KProg Int := sysCreate p path .dir 0 0

def sysMknod (p : Fin NPROC) (path : Option CString) (major minor : Uint) : KProg Int :=
  sysCreate p path .dev (major.setWidth 16) (minor.setWidth 16)

def sysChdir (p : Fin NPROC) (path : Option CString) : KProg Int := do
  call .beginOp
  match path with
  | none => do
      call .endOp
      return -1
  | some path =>
      match ← namei p path with
      | none => do
          call .endOp
          return -1
      | some ip => do
          ilock ip
          let i ← call (.inode ip)
          if i.fields.type ≠ .dir then
            iunlockput ip
            call .endOp
            return -1
          else
            iunlock ip
            match ← call (.cwd p) with
            | none => fail .trap
            | some old => do
                iput old
                call .endOp
                call (.setCwd p (some ip))
                return 0

/-- `chmod`, `chown` and `chgrp`: an inode is looked up and a field of it is set. -/
def changeField (p : Fin NPROC) (path : Option CString) (good : Bool)
    (f : InodeFields → InodeFields) : KProg Int := do
  match path with
  | none => return -1
  | some path => do
      call .beginOp
      match ← namei p path with
      | none => do
          call .endOp
          return -1
      | some ip =>
          if good = false then do
            call .endOp
            return -1
          else do
            ilock ip
            call (.setFields ip f)
            call (.iupdate ip)
            iunlock ip
            call .endOp
            return 0

def sysChmod (p : Fin NPROC) (path : Option CString) (mode : Int) : KProg Int :=
  changeField p path (decide (mode ≤ 0o1777)) fun f => { f with mode := BitVec.ofInt 32 mode }

def sysChown (p : Fin NPROC) (path : Option CString) (uid : Int) : KProg Int :=
  changeField p path (decide (0 ≤ uid ∧ uid ≤ 32767)) fun f => { f with uid := BitVec.ofInt 16 uid }

def sysChgrp (p : Fin NPROC) (path : Option CString) (gid : Int) : KProg Int :=
  changeField p path (decide (0 ≤ gid ∧ gid ≤ 32767)) fun f => { f with gid := BitVec.ofInt 16 gid }

/-- What `exec` reads of a program file, depending on what it has read so far. -/
inductive ReadPlan where
  | done
  | read (off n : Nat) (k : Int × List Byte → ReadPlan)

def readPlan (ip : Fin NINODE) : ReadPlan → KProg Unit
  | .done => return ()
  | .read off n k => do
      let r ← call (.readi ip (off % 2 ^ 32) (n % 2 ^ 32))
      readPlan ip (k r)

/-- `exec` up to the point where it is done with the file; the rest does not use files. -/
def sysExec (p : Fin NPROC) (path : Option CString) (plan : InodeInfo → ReadPlan) (r : Int) :
    KProg Int := do
  match path with
  | none => return -1
  | some path => do
      call .beginOp
      match ← namei p path with
      | none => do
          call .endOp
          return -1
      | some ip => do
          ilock ip
          let i ← call (.inode ip)
          readPlan ip (plan i)
          iunlockput ip
          call .endOp
          return r

/-- The loop of `fork` that copies the descriptors. -/
def forkFiles (p : Fin NPROC) :
    List (Fin NOFILE) → (Fin NOFILE → Option (Fin NFILE)) → KProg (Fin NOFILE → Option (Fin NFILE))
  | [], files => return files
  | fd :: fds, files => do
      match ← call (.ofile p fd) with
      | none => forkFiles p fds files
      | some f => do
          call (.filedup f)
          forkFiles p fds (Function.update files fd (some f))

/-- `fork`; `np` is the slot that `allocproc` picks, if any, and `memory` says whether
    `copyuvm` succeeds. -/
def sysFork (p : Fin NPROC) (np : Option (Fin NPROC)) (memory : Bool) : KProg Int := do
  match np with
  | none => return -1
  | some np => do
      call (.allocproc np)
      if memory = false then
        call (.freeproc np)
        return -1
      else
        let files ← forkFiles p (List.finRange NOFILE) fun _ => none
        match ← call (.cwd p) with
        | none => fail .trap
        | some ip => do
            call (.idup ip)
            call (.setproc np (some ip) files)
            return np.val

/-- The loop of `exit` that closes the files. -/
def exitFiles (p : Fin NPROC) : List (Fin NOFILE) → KProg Unit
  | [] => return ()
  | fd :: fds => do
      match ← call (.ofile p fd) with
      | none => exitFiles p fds
      | some f => do
          fileclose f
          call (.clearFd p fd)
          exitFiles p fds

/-- `exit`, for the files of the process. -/
def sysExit (p : Fin NPROC) : KProg Int := do
  if p.val = 0 then fail .initExiting
  else
    exitFiles p (List.finRange NOFILE)
    call .beginOp
    match ← call (.cwd p) with
    | none => fail .trap
    | some ip => do
        iput ip
        call .endOp
        call (.setCwd p none)
        call (.freeproc p)
        return 0

end Sys

end Xv6Kernel
