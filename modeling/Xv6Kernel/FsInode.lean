/-
  FsInode.lean
  ============
  More of `fs.c`: freeing blocks, reading and truncating files, inodes on the disk.

  These are the functions that `filewrite` does not call.  `readi` returns what it copies
  to `dst` as a list of bytes.
-/
import Xv6Kernel.FsModel

namespace Xv6Kernel

/-! ### Blocks -/

/-- `data[bi/8] &= ~(1 << (bi % 8))`. -/
def Block.clearBit (b : Block) (bi : Nat) : Block :=
  Function.update b (Fin.ofNat NINDIRECT (bi / 32))
    (b (Fin.ofNat NINDIRECT (bi / 32)) &&& ~~~ BitVec.twoPow 32 (bi % 32))

/-- The superblock in the words of block 1. -/
def Block.superblock (b : Block) : Superblock where
  size := (b 0).toNat
  ninodes := (b 2).toNat
  inodestart := (b 5).toNat
  bmapstart := (b 6).toNat

def readsb : FsM Unit := do
  let bp ← bread 1
  modify fun s => { s with sb := bp.superblock }

def bfree (b : BlockNo) : FsM Unit := do
  readsb
  let sb := (← get).sb
  let bp ← bread (sb.BBLOCK b.toNat)
  if bp.testBit (b.toNat % BPB) = false then throw .freeingFreeBlock
  else logWrite (sb.BBLOCK b.toNat) (bp.clearBit (b.toNat % BPB))

/-! ### Inodes on the disk -/

def InodeType.ofCode (c : BitVec 16) : InodeType :=
  match c.toNat with
  | 0 => .free
  | 1 => .dir
  | 2 => .file
  | 3 => .dev
  | n + 4 => .other (Fin.ofNat 65532 n)

/-- Word `k` of the dinode of inode `i`. -/
def Fs.dword (s : Fs) (i k : Nat) : Uint :=
  s.cache (s.sb.IBLOCK i) (Fin.ofNat NINDIRECT (16 * (i % IPB) + k))

/-- Inode `i` as `ilock` reads it from the disk. -/
def Fs.dinode (s : Fs) (i : Nat) : Inode where
  inum := i
  type := .ofCode ((s.dword i 0).extractLsb' 0 16)
  major := (s.dword i 0).extractLsb' 16 16
  minor := (s.dword i 1).extractLsb' 0 16
  nlink := (s.dword i 1).extractLsb' 16 16
  uid := (s.dword i 2).extractLsb' 0 16
  gid := (s.dword i 2).extractLsb' 16 16
  mode := s.dword i 3
  size := (s.dword i 4).toNat
  addrs := fun k => s.dword i (k + 5)

/-- One round of the loop of `ialloc`: take inode `inum` if it is free. -/
def iallocTry (type : InodeType) (inum : Nat) : FsM Bool := do
  let sb := (← get).sb
  let bp ← bread (sb.IBLOCK inum)
  if ((← get).dinode inum).type = .free then
    logWrite (sb.IBLOCK inum) fun w =>
      if w.val / 16 = inum % IPB then
        if w.val % 16 = 0 then type.code.setWidth 32 else 0
      else bp w
    return true
  else return false

/-! ### Contents -/

/-- The loop of `itrunc` over the direct blocks. -/
def itruncDirect : List Nat → Inode → FsM Inode
  | [], ip => return ip
  | i :: is, ip => do
      if ip.addr i ≠ 0 then
        bfree (ip.addr i)
        itruncDirect is (ip.setAddr i 0)
      else itruncDirect is ip

/-- The loop of `itrunc` over the entries of the indirect block. -/
def itruncEntries (a : Block) : List (Fin NINDIRECT) → FsM Unit
  | [] => return ()
  | j :: js => do
      if a j ≠ 0 then bfree (a j)
      itruncEntries a js

/-- The part of `itrunc` for the indirect block. -/
def itruncIndirect (ip : Inode) : FsM Inode :=
  if ip.addr NDIRECT ≠ 0 then do
    let a ← bread (ip.addr NDIRECT)
    itruncEntries a (List.finRange NINDIRECT)
    bfree (ip.addr NDIRECT)
    return ip.setAddr NDIRECT 0
  else return ip

def itrunc (ip : Inode) : FsM Inode := do
  let ip ← itruncDirect (List.range NDIRECT) ip
  let ip ← itruncIndirect ip
  let ip := { ip with size := 0 }
  iupdate ip
  return ip

/-- The loop of `readi`, with the number of bytes still to read. -/
def readiLoop : (fuel : Nat) → Inode → (off n : Nat) → FsM (List Byte × Inode)
  | 0, ip, _, _ => return ([], ip)
  | fuel + 1, ip, off, n =>
      if 0 < n then do
        let (addr, ip) ← bmap ip (off / BSIZE)
        let bp ← bread addr
        let m := min n (BSIZE - off % BSIZE)
        let (rest, ip) ← readiLoop fuel ip (off + m) (n - m)
        return ((List.range m).map (fun k => bp.byte (off % BSIZE + k)) ++ rest, ip)
      else return ([], ip)

def readi (ip : Inode) (off n : Nat) : FsM (Int × List Byte × Inode) := do
  if ip.type = .dev then
    let devsw := (← get).devswRead
    if h : 0 ≤ ip.major.toInt ∧ ip.major.toInt.toNat < NDEV then
      match devsw ⟨ip.major.toInt.toNat, Inode.major_lt h⟩ with
      | some read => return ((read n).1, (read n).2, ip)
      | none => return (-1, [], ip)
    else return (-1, [], ip)
  else if ip.size < off ∨ (off + n) % 2 ^ 32 < off then return (-1, [], ip)
  else
    let n := if ip.size < (off + n) % 2 ^ 32 then ip.size - off else n
    let (bytes, ip) ← readiLoop n ip off n
    return (n, bytes, ip)

end Xv6Kernel
