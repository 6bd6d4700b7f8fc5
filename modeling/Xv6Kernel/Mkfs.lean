/-
  Mkfs.lean
  =========
  The program that makes the disk image (`mkfs.c`).

  The image is a file of the host, read and written in sectors of `BSIZE` bytes.  A sector
  behind the end of the file cannot be read, and writing one makes the file longer.  `mkfs`
  exits with status 1 where a call of the host fails, and it is aborted where an assertion
  does not hold; otherwise it exits with status 0.

  `xint` and `xshort` put numbers in the byte order of the disk, which is the one that
  `Block` and `Inode.word` have.

  Left out: the messages, and failures of the host other than reading behind the end (the
  input files are there and can be read, and there is room for the image).
-/
import Xv6Kernel.SysFile

namespace Xv6Kernel

def FSSIZE : Nat := 2000
def NINODES : Nat := 200

/-- An argument of `mkfs` and the contents of the file with this name. -/
structure InputFile where
  name : CString
  contents : List Byte

/-- The image file so far, and the variables `freeinode` and `freeblock`. -/
structure Mkfs where
  /-- The length of the file. -/
  sectors : Nat
  disk : Disk
  freeinode : Nat
  freeblock : Nat

/-- A failed call of the host or a failed assertion. -/
inductive MkfsFailure where
  | perror
  | assertion
deriving DecidableEq, Repr

abbrev MkfsM := EStateM MkfsFailure Mkfs

namespace Mkfs

/-! ### The layout of the disk -/

def nbitmap : Nat := FSSIZE / (BSIZE * 8) + 1
def ninodeblocks : Nat := NINODES / IPB + 1
def nlog : Nat := LOGSIZE
/-- The number of blocks before the data blocks. -/
def nmeta : Nat := 2 + nlog + ninodeblocks + nbitmap
def nblocks : Nat := FSSIZE - nmeta

/-- The fields of the superblock that are read again. -/
def sb : Superblock where
  size := FSSIZE
  ninodes := NINODES
  inodestart := 2 + nlog
  bmapstart := 2 + nlog + ninodeblocks

/-- The words of the superblock; the fields `size`, `nblocks`, `ninodes`, `nlog`, `logstart`,
    `inodestart` and `bmapstart`. -/
def sbWords : List Nat :=
  [FSSIZE, nblocks, NINODES, nlog, 2, 2 + nlog, 2 + nlog + ninodeblocks]

/-- The block that has the superblock at its beginning. -/
def sbBlock : Block := fun w => BitVec.ofNat 32 (sbWords.getD w 0)

/-! ### Sectors -/

/-- The sector at the offset `sec * BSIZE`, a `uint`. -/
def seek (sec : BlockNo) : BlockNo := BitVec.ofNat 32 (sec.toNat * BSIZE % 2 ^ 32 / BSIZE)

def wsect (sec : BlockNo) (buf : Block) : MkfsM Unit := modify fun m =>
  { m with
    sectors := max m.sectors ((seek sec).toNat + 1)
    disk := Function.update m.disk (seek sec) buf }

def rsect (sec : BlockNo) : MkfsM Block := do
  let m ← get
  if (seek sec).toNat < m.sectors then return m.disk (seek sec) else throw .perror

/-! ### Inodes -/

def winode (ip : Inode) : MkfsM Unit := do
  let bn := sb.IBLOCK ip.inum
  let buf ← rsect bn
  wsect bn fun w => if w.val / 16 = ip.inum % IPB then ip.word (w.val % 16) else buf w

/-- The dinode of inode `inum` in its block. -/
def dinodeIn (buf : Block) (inum : Nat) : Inode :=
  let word (k : Nat) : Uint := buf (Fin.ofNat NINDIRECT (16 * (inum % IPB) + k))
  { inum := inum
    type := .ofCode ((word 0).extractLsb' 0 16)
    major := (word 0).extractLsb' 16 16
    minor := (word 1).extractLsb' 0 16
    nlink := (word 1).extractLsb' 16 16
    uid := (word 2).extractLsb' 0 16
    gid := (word 2).extractLsb' 16 16
    mode := word 3
    size := (word 4).toNat
    addrs := fun k => word (k + 5) }

def rinode (inum : Nat) : MkfsM Inode := do
  let buf ← rsect (sb.IBLOCK inum)
  return dinodeIn buf inum

/-- A new inode. -/
def newInode (inum : Nat) (type : InodeType) : Inode where
  inum := inum
  type := type
  major := 0
  minor := 0
  nlink := 1
  uid := BitVec.ofNat 16 DEFAULTUID
  gid := BitVec.ofNat 16 DEFAULTGID
  mode := BitVec.ofNat 32 DEFAULTMODE
  size := 0
  addrs := fun _ => 0

def ialloc (type : InodeType) : MkfsM Nat := do
  let inum := (← get).freeinode
  modify fun m => { m with freeinode := m.freeinode + 1 }
  winode (newInode inum type)
  return inum

/-! ### Blocks -/

/-- The bits of the first `used` blocks. -/
def bitmap (used : Nat) : Block := (List.range used).foldl Block.setBit Block.zero

def balloc (used : Nat) : MkfsM Unit :=
  if used < BSIZE * 8 then wsect (BitVec.ofNat 32 sb.bmapstart) (bitmap used)
  else throw .assertion

/-- `freeblock++`. -/
def takeBlock : MkfsM BlockNo := do
  let x := (← get).freeblock
  modify fun m => { m with freeblock := m.freeblock + 1 }
  return BitVec.ofNat 32 x

/-- `din.addrs[i]`, which gets the next free block if it is 0. -/
def addrOrTake (din : Inode) (i : Nat) : MkfsM (BlockNo × Inode) :=
  if din.addr i = 0 then do
    let x ← takeBlock
    return (x, din.setAddr i x)
  else return (din.addr i, din)

/-- Entry `i` of the indirect block `ind`, which gets the next free block if it is 0. -/
def entryOrTake (ind : BlockNo) (i : Fin NINDIRECT) (indirect : Block) : MkfsM BlockNo :=
  if indirect i = 0 then do
    let x ← takeBlock
    wsect ind (Function.update indirect i x)
    return x
  else return indirect i

/-- The part of `iappend` that finds block `fbn` of the file. -/
def blockFor (din : Inode) (fbn : Nat) : MkfsM (BlockNo × Inode) :=
  if fbn < NDIRECT then addrOrTake din fbn
  else do
    let (ind, din) ← addrOrTake din NDIRECT
    let indirect ← rsect ind
    let x ← entryOrTake ind (Fin.ofNat NINDIRECT (fbn - NDIRECT)) indirect
    return (x, din)

/-- The loop of `iappend`, with the bytes still to append; each round appends at least one. -/
def iappendLoop : (fuel : Nat) → Inode → (p : List Byte) → (off : Nat) → MkfsM (Inode × Nat)
  | 0, din, _, off => return (din, off)
  | fuel + 1, din, p, off =>
      if 0 < p.length then do
        let fbn := off / BSIZE
        if fbn < MAXFILE then
          let (x, din) ← blockFor din fbn
          let n1 := min p.length ((fbn + 1) * BSIZE - off)
          let buf ← rsect x
          wsect x (buf.memmove (off - fbn * BSIZE) (p.getD · 0) n1)
          iappendLoop fuel din (p.drop n1) (off + n1)
        else throw .assertion
      else return (din, off)

def iappend (inum : Nat) (p : List Byte) : MkfsM Unit := do
  let din ← rinode inum
  let (din, off) ← iappendLoop p.length din p din.size
  winode { din with size := off }

end Mkfs

/-! ### The main program -/

def underscore : Byte := 95

/-- The name in the file system: one leading `_` is skipped. -/
def InputFile.entryName (f : InputFile) : Name :=
  if f.name.1.head? = some underscore then f.name.1.tail else f.name.1

namespace Mkfs

/-- The loop that reads an input file and appends what it has read. -/
def copyFile : (fuel : Nat) → (inum : Nat) → List Byte → MkfsM Unit
  | 0, _, _ => return ()
  | fuel + 1, inum, rest =>
      if 0 < rest.length then do
        iappend inum (rest.take BSIZE)
        copyFile fuel inum (rest.drop BSIZE)
      else return ()

def addFile (rootino : Nat) (f : InputFile) : MkfsM Unit := do
  if slash ∈ f.name.1 then throw .assertion
  else
    let inum ← ialloc .file
    iappend rootino (direntBytes inum f.entryName)
    copyFile f.contents.length inum f.contents

def addFiles (rootino : Nat) : List InputFile → MkfsM Unit
  | [] => return ()
  | f :: fs => do
      addFile rootino f
      addFiles rootino fs

/-- The size of the root directory, rounded up. -/
def fixRoot (rootino : Nat) : MkfsM Unit := do
  let din ← rinode rootino
  winode { din with size := (din.size / BSIZE + 1) * BSIZE }

/-- The loop that writes zeroes. -/
def zeroSectors : List Nat → MkfsM Unit
  | [] => return ()
  | i :: is => do
      wsect (BitVec.ofNat 32 i) Block.zero
      zeroSectors is

-- irreducible, as the loop over all the sectors must not be run to find the head of a term
@[irreducible] def main (files : List InputFile) : MkfsM Unit := do
  modify fun m => { m with freeblock := nmeta }
  zeroSectors (List.range FSSIZE)
  wsect 1 sbBlock
  let rootino ← ialloc .dir
  if rootino = ROOTINO then
    iappend rootino (direntBytes rootino dot)
    iappend rootino (direntBytes rootino dotdot)
    addFiles rootino files
    fixRoot rootino
    balloc (← get).freeblock
  else throw .assertion

/-- The image file after `open` with `O_TRUNC`. -/
def start : Mkfs where
  sectors := 0
  disk := fun _ => Block.zero
  freeinode := 1
  freeblock := 0

end Mkfs

end Xv6Kernel
