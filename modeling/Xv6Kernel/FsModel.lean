/-
  FsModel.lean
  ============
  Blocks, inodes and files (`fs.c`, `file.c`), in the build with `CS333_P5`.

  A function that can panic is a program over the file system state; the state at the
  panic is kept, since the calls of `log_write` made before it count.  The buffer cache
  is modelled as in `LogModel`.  The calls of `log_write` are recorded transaction by
  transaction; what the log does with them is the subject of `LogModel` and
  `LogAdmission`.

  An inode is passed to a function and returned by it where the source has a pointer to
  the cached inode.  Block and byte counts that the source keeps in `uint` variables are
  natural numbers, with the reduction modulo `2 ^ 32` where it can occur.

  Left out: device numbers, reference counts and locks of inodes.
-/
import Xv6Kernel.LogModel
import Xv6Kernel.PanicMonad

namespace Xv6Kernel

open Function

/-! ### Blocks as arrays of bytes and of bits -/

abbrev Byte := BitVec 8

namespace Block

def byte (b : Block) (k : Nat) : Byte :=
  (b (Fin.ofNat NINDIRECT (k / 4))).extractLsb' (8 * (k % 4)) 8

/-- The block with the given bytes; the machine is little-endian. -/
def ofBytes (f : Nat → Byte) : Block := fun w =>
  f (4 * w + 3) ++ f (4 * w + 2) ++ f (4 * w + 1) ++ f (4 * w)

/-- `memmove(b + off, src, m)`. -/
def memmove (b : Block) (off : Nat) (src : Nat → Byte) (m : Nat) : Block :=
  ofBytes fun k => if off ≤ k ∧ k < off + m then src (k - off) else b.byte k

/-- `data[bi/8] & (1 << (bi % 8))`: bit `bi % 8` of byte `bi / 8` is bit `bi % 32` of word
    `bi / 32`. -/
def testBit (b : Block) (bi : Nat) : Bool :=
  (b (Fin.ofNat NINDIRECT (bi / 32))).getLsbD (bi % 32)

/-- `data[bi/8] |= 1 << (bi % 8)`. -/
def setBit (b : Block) (bi : Nat) : Block :=
  update b (Fin.ofNat NINDIRECT (bi / 32))
    (b (Fin.ofNat NINDIRECT (bi / 32)) ||| BitVec.twoPow 32 (bi % 32))

def zero : Block := fun _ => 0

end Block

/-! ### The state -/

def NDIRECT : Nat := 10
def MAXFILE : Nat := NDIRECT + NINDIRECT

instance (priority := 2000) : NeZero (NDIRECT + 1) := ⟨by decide⟩
/-- Bitmap bits per block. -/
def BPB : Nat := BSIZE * 8
/-- Inodes per block; a `struct dinode` has 64 bytes. -/
def IPB : Nat := BSIZE / 64
def NDEV : Nat := 10

inductive FsPanic where
  | ballocOutOfBlocks     -- "balloc: out of blocks"
  | bmapOutOfRange        -- "bmap: out of range"
  | outsideOfTrans        -- "log_write outside of trans"
  | shortFilewrite        -- "short filewrite"
  | filewrite             -- "filewrite"
  | freeingFreeBlock      -- "freeing free block"
  | iallocNoInodes        -- "ialloc: no inodes"
  | igetNoInodes          -- "iget: no inodes"
  | ilock                 -- "ilock"
  | ilockNoType           -- "ilock: no type"
  | iunlock               -- "iunlock"
  | iputBusy              -- "iput busy"
  | dirlookupNotDir       -- "dirlookup not DIR"
  | dirlinkRead           -- "dirlink read"
  | dirlink               -- "dirlink"
  | isdirempty            -- "isdirempty: readi"
  | unlinkNlink           -- "unlink: nlink < 1"
  | unlinkWritei          -- "unlink: writei"
  | createDots            -- "create dots"
  | createDirlink         -- "create: dirlink"
  | filedup               -- "filedup"
  | fileclose             -- "fileclose"
  | fileread              -- "fileread"
  | initExiting           -- "init exiting"
  | trap                  -- "trap", a null pointer followed in the kernel
deriving DecidableEq, Repr

/-- The fields of the superblock that `fs.c` reads. -/
structure Superblock where
  size : Nat
  ninodes : Nat
  inodestart : Nat
  bmapstart : Nat
deriving DecidableEq, Repr

/-- The type of an inode; a damaged image may have other values than the four in use. -/
inductive InodeType where
  | free
  | dir
  | file
  | dev
  | other (c : Fin 65532)
deriving DecidableEq, Repr

/-- The values 0, `T_DIR`, `T_FILE` and `T_DEV`. -/
def InodeType.code : InodeType → BitVec 16
  | .free => 0
  | .dir => 1
  | .file => 2
  | .dev => 3
  | .other c => BitVec.ofNat 16 (c + 4)

structure Inode where
  inum : Nat
  type : InodeType
  major : BitVec 16
  minor : BitVec 16
  nlink : BitVec 16
  uid : BitVec 16
  gid : BitVec 16
  mode : Uint
  size : Nat
  addrs : Fin (NDIRECT + 1) → BlockNo

structure Fs where
  sb : Superblock
  /-- `devsw[major].write`, as the value it returns for a number of bytes. -/
  devsw : Fin NDEV → Option (Nat → Int)
  /-- `devsw[major].read`, as the value it returns for a number of bytes and the bytes. -/
  devswRead : Fin NDEV → Option (Nat → Int × List (BitVec 8))
  /-- What `bread` returns. -/
  cache : Disk
  /-- The calls of `log_write` since `begin_op`. -/
  current : Option (List (BlockNo × Block))
  /-- Those of the transactions that have ended. -/
  done : List (List (BlockNo × Block))

abbrev FsM := EStateM FsPanic Fs

/-- Every transaction so far, ended or not. -/
def Fs.transactions (s : Fs) : List (List (BlockNo × Block)) := s.done ++ s.current.toList

namespace Superblock

/-- Block of the free map that has the bit for block `b`. -/
def BBLOCK (sb : Superblock) (b : Nat) : BlockNo := BitVec.ofNat 32 (b / BPB + sb.bmapstart)

/-- Block that has inode `i`. -/
def IBLOCK (sb : Superblock) (i : Nat) : BlockNo := BitVec.ofNat 32 (i / IPB + sb.inodestart)

end Superblock

/-! ### Blocks -/

def bread (b : BlockNo) : FsM Block := do
  return (← get).cache b

def Fs.logged (s : Fs) (b : BlockNo) (data : Block) : Fs :=
  { s with
    cache := update s.cache b data
    current := s.current.map (· ++ [(b, data)]) }

/-- `log_write` for a buffer whose data the caller has changed to `data`. -/
def logWrite (b : BlockNo) (data : Block) : FsM Unit := do
  if (← get).current = none then throw .outsideOfTrans
  else modify fun s => s.logged b data

def beginOp : FsM Unit := modify fun s => { s with current := some [] }

def endOp : FsM Unit :=
  modify fun s => { s with current := none, done := s.done ++ s.current.toList }

def bzero (bno : BlockNo) : FsM Unit := logWrite bno Block.zero

/-- The loop of `balloc` over the bitmap blocks; `b` is the number of the first block that
    a bitmap block has the bit of. -/
def ballocFrom : List Nat → FsM BlockNo
  | [] => throw .ballocOutOfBlocks
  | b :: bs => do
      let sb := (← get).sb
      let bp ← bread (sb.BBLOCK b)
      match (List.range (min BPB (sb.size - b))).find? fun bi => !bp.testBit bi with
      | some bi =>
          logWrite (sb.BBLOCK b) (bp.setBit bi)
          bzero (BitVec.ofNat 32 (b + bi))
          return BitVec.ofNat 32 (b + bi)
      | none => ballocFrom bs

def balloc : FsM BlockNo := do
  let sb := (← get).sb
  ballocFrom ((List.range ((sb.size + BPB - 1) / BPB)).map (· * BPB))

/-! ### Inodes -/

/-- A `struct dinode` is 16 words long. -/
def Inode.word (ip : Inode) (k : Nat) : Uint :=
  match k with
  | 0 => ip.major ++ ip.type.code
  | 1 => ip.nlink ++ ip.minor
  | 2 => ip.gid ++ ip.uid
  | 3 => ip.mode
  | 4 => BitVec.ofNat 32 ip.size
  | k + 5 => ip.addrs (Fin.ofNat (NDIRECT + 1) k)

def iupdate (ip : Inode) : FsM Unit := do
  let sb := (← get).sb
  let bp ← bread (sb.IBLOCK ip.inum)
  logWrite (sb.IBLOCK ip.inum) fun w =>
    if w.val / 16 = ip.inum % IPB then ip.word (w.val % 16) else bp w

def Inode.addr (ip : Inode) (i : Nat) : BlockNo := ip.addrs (Fin.ofNat (NDIRECT + 1) i)

def Inode.setAddr (ip : Inode) (i : Nat) (b : BlockNo) : Inode :=
  { ip with addrs := update ip.addrs (Fin.ofNat (NDIRECT + 1) i) b }

/-- `ip->addrs[i]`, allocating a block if there is none. -/
def addrOrAlloc (ip : Inode) (i : Nat) : FsM (BlockNo × Inode) :=
  if ip.addr i = 0 then do
    let addr ← balloc
    return (addr, ip.setAddr i addr)
  else return (ip.addr i, ip)

/-- Entry `i` of the indirect block `ind`, allocating a block if there is none. -/
def entryOrAlloc (ind : BlockNo) (i : Fin NINDIRECT) : FsM BlockNo := do
  let bp ← bread ind
  if bp i = 0 then
    let addr ← balloc
    -- `a` points into the buffer of the indirect block, which is still held
    let bp ← bread ind
    logWrite ind (update bp i addr)
    return addr
  else return bp i

def bmap (ip : Inode) (bn : Nat) : FsM (BlockNo × Inode) :=
  if bn < NDIRECT then addrOrAlloc ip bn
  else if bn - NDIRECT < NINDIRECT then do
    let (ind, ip) ← addrOrAlloc ip NDIRECT
    let addr ← entryOrAlloc ind (Fin.ofNat NINDIRECT (bn - NDIRECT))
    return (addr, ip)
  else throw .bmapOutOfRange

/-- The loop of `writei`, with the bytes still to write; each round writes at least one of
    them, so `fuel` need not be more than their number.  Returns the final `off`. -/
def writeiLoop : (fuel : Nat) → Inode → (src : Nat → Byte) → (off n : Nat) → FsM (Inode × Nat)
  | 0, ip, _, off, _ => return (ip, off)
  | fuel + 1, ip, src, off, n =>
      if 0 < n then do
        let (addr, ip) ← bmap ip (off / BSIZE)
        let bp ← bread addr
        let m := min n (BSIZE - off % BSIZE)
        logWrite addr (bp.memmove (off % BSIZE) src m)
        writeiLoop fuel ip (fun k => src (k + m)) (off + m) (n - m)
      else return (ip, off)

theorem Inode.major_lt {ip : Inode} (h : 0 ≤ ip.major.toInt ∧ ip.major.toInt.toNat < NDEV) :
    ip.major.toInt.toNat < NDEV := h.2

def writei (ip : Inode) (src : Nat → Byte) (off n : Nat) : FsM (Int × Inode) := do
  if ip.type = .dev then
    let devsw := (← get).devsw
    if h : 0 ≤ ip.major.toInt ∧ ip.major.toInt.toNat < NDEV then
      match devsw ⟨ip.major.toInt.toNat, Inode.major_lt h⟩ with
      | some write => return (write n, ip)
      | none => return (-1, ip)
    else return (-1, ip)
  else if ip.size < off ∨ (off + n) % 2 ^ 32 < off then return (-1, ip)
  else if MAXFILE * BSIZE < (off + n) % 2 ^ 32 then return (-1, ip)
  else
    let (ip, off) ← writeiLoop n ip src off n
    if 0 < n ∧ ip.size < off then
      let ip := { ip with size := off }
      iupdate ip
      return (n, ip)
    else return (n, ip)

/-! ### Files -/

inductive FdType where
  | none
  | pipe
  | inode
deriving DecidableEq, Repr

structure File where
  type : FdType
  writable : Bool
  ip : Inode
  off : Nat

/-- The largest chunk that `filewrite` writes in one transaction. -/
def maxChunk : Int := ((LOGSIZE - 1 - 1 - 2) / 2) * 512

/-- The loop of `filewrite`; each round writes at least one byte. -/
def filewriteLoop : (fuel : Nat) → File → (addr : Nat → Byte) → (n i : Int) → FsM (Int × File)
  | 0, f, _, _, i => return (i, f)
  | fuel + 1, f, addr, n, i =>
      if i < n then do
        let n1 := if maxChunk < n - i then maxChunk else n - i
        beginOp
        let (r, ip) ← writei f.ip (fun k => addr (i.toNat + k)) f.off n1.toNat
        let f := { f with ip := ip, off := if 0 < r then (f.off + r.toNat) % 2 ^ 32 else f.off }
        endOp
        if r < 0 then return (i, f)
        else if r ≠ n1 then throw .shortFilewrite
        else filewriteLoop fuel f addr n (i + r)
      else return (i, f)

/-- `filewrite`; `pipewrite` stands for the call of it with the pipe of the file. -/
def filewrite (pipewrite : FsM Int) (f : File) (addr : Nat → Byte) (n : Int) :
    FsM (Int × File) := do
  if f.writable = false then return (-1, f)
  else
    match f.type with
    | .pipe => return (← pipewrite, f)
    | .inode =>
        let (i, f) ← filewriteLoop n.toNat f addr n 0
        return (if i = n then n else -1, f)
    | .none => throw .filewrite

end Xv6Kernel
