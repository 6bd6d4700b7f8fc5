/-
  BufferCalls.lean
  ================
  Which buffers the functions of `fs.c` and `log.c` hold.

  `FsModel`, `FsInode` and `LogModel` say what these functions do to the disk; a buffer there is
  only its data.  Here each function is the program of its calls of `bread`, `log_write` or
  `bwrite`, and `brelse`, in the order of the code.  Read as a function of the disk, the program
  is the function of `FsModel` or `FsInode` (`interp_readi`, ...); and on every path, whatever
  the blocks contain, it gives back each buffer that it has taken, and uses none that it has not
  (`holding`).
-/
import Xv6Kernel.KernelOps
import Xv6Kernel.Threads

namespace Xv6Kernel

open AtomicProg

/-! ### Operations -/

/-- The steps of a function of `fs.c`.  `data` is a look at the data of a buffer that is held,
    and `logWrite` has the new data. -/
inductive BufOp : Type → Type where
  | bread (b : BlockNo) : BufOp Block
  | data (b : BlockNo) : BufOp Block
  | logWrite (b : BlockNo) (d : Block) : BufOp Unit
  | brelse (b : BlockNo) : BufOp Unit
  | sb : BufOp Superblock
  | setSb (s : Superblock) : BufOp Unit
  | devsw : BufOp (Fin NDEV → Option (Nat → Int))
  | devswRead : BufOp (Fin NDEV → Option (Nat → Int × List Byte))
  | panic (e : FsPanic) : BufOp Empty

abbrev BufProg := Prog BufOp

/-- The steps as they act on the disk. -/
def BufOp.exec : {β : Type} → BufOp β → FsM β
  | _, .bread b => Xv6Kernel.bread b
  | _, .data b => Xv6Kernel.bread b
  | _, .logWrite b d => Xv6Kernel.logWrite b d
  | _, .brelse _ => return ()
  | _, .sb => return (← get).sb
  | _, .setSb v => modify fun s => { s with sb := v }
  | _, .devsw => return (← get).devsw
  | _, .devswRead => return (← get).devswRead
  | _, .panic e => throw e

/-! ### The functions of `fs.c` -/

namespace Buf

open Prog

def panic {α : Type} (e : FsPanic) : BufProg α := .op (.panic e) fun b => b.elim

def sb : BufProg Superblock := call .sb

def readsb : BufProg Unit := do
  let bp ← call (.bread 1)
  call (.setSb bp.superblock)
  call (.brelse 1)

def bzero (bno : BlockNo) : BufProg Unit := do
  let _ ← call (.bread bno)
  call (.logWrite bno Block.zero)
  call (.brelse bno)

def ballocFrom : List Nat → BufProg BlockNo
  | [] => panic .ballocOutOfBlocks
  | b :: bs => do
      let sb ← sb
      let bp ← call (.bread (sb.BBLOCK b))
      match (List.range (min BPB (sb.size - b))).find? fun bi => !bp.testBit bi with
      | some bi => do
          call (.logWrite (sb.BBLOCK b) (bp.setBit bi))
          call (.brelse (sb.BBLOCK b))
          bzero (BitVec.ofNat 32 (b + bi))
          return BitVec.ofNat 32 (b + bi)
      | none => do
          call (.brelse (sb.BBLOCK b))
          ballocFrom bs

def balloc : BufProg BlockNo := do
  let sb ← sb
  ballocFrom ((List.range ((sb.size + BPB - 1) / BPB)).map (· * BPB))

def bfree (b : BlockNo) : BufProg Unit := do
  readsb
  let sb ← sb
  let bp ← call (.bread (sb.BBLOCK b.toNat))
  if bp.testBit (b.toNat % BPB) = false then panic .freeingFreeBlock
  else do
    call (.logWrite (sb.BBLOCK b.toNat) (bp.clearBit (b.toNat % BPB)))
    call (.brelse (sb.BBLOCK b.toNat))

def iupdate (ip : Inode) : BufProg Unit := do
  let sb ← sb
  let bp ← call (.bread (sb.IBLOCK ip.inum))
  call (.logWrite (sb.IBLOCK ip.inum) fun w =>
    if w.val / 16 = ip.inum % IPB then ip.word (w.val % 16) else bp w)
  call (.brelse (sb.IBLOCK ip.inum))

def addrOrAlloc (ip : Inode) (i : Nat) : BufProg (BlockNo × Inode) :=
  if ip.addr i = 0 then do
    let addr ← balloc
    return (addr, ip.setAddr i addr)
  else return (ip.addr i, ip)

def entryOrAlloc (ind : BlockNo) (i : Fin NINDIRECT) : BufProg BlockNo := do
  let bp ← call (.bread ind)
  if bp i = 0 then do
    let addr ← balloc
    let bp ← call (.data ind)
    call (.logWrite ind (Function.update bp i addr))
    call (.brelse ind)
    return addr
  else do
    call (.brelse ind)
    return bp i

def bmap (ip : Inode) (bn : Nat) : BufProg (BlockNo × Inode) :=
  if bn < NDIRECT then addrOrAlloc ip bn
  else if bn - NDIRECT < NINDIRECT then do
    let (ind, ip) ← addrOrAlloc ip NDIRECT
    let addr ← entryOrAlloc ind (Fin.ofNat NINDIRECT (bn - NDIRECT))
    return (addr, ip)
  else panic .bmapOutOfRange

def writeiLoop :
    (fuel : Nat) → Inode → (src : Nat → Byte) → (off n : Nat) → BufProg (Inode × Nat)
  | 0, ip, _, off, _ => return (ip, off)
  | fuel + 1, ip, src, off, n =>
      if 0 < n then do
        let (addr, ip) ← bmap ip (off / BSIZE)
        let bp ← call (.bread addr)
        let m := min n (BSIZE - off % BSIZE)
        call (.logWrite addr (bp.memmove (off % BSIZE) src m))
        call (.brelse addr)
        writeiLoop fuel ip (fun k => src (k + m)) (off + m) (n - m)
      else return (ip, off)

def writei (ip : Inode) (src : Nat → Byte) (off n : Nat) : BufProg (Int × Inode) := do
  if ip.type = .dev then
    let devsw ← call .devsw
    if h : 0 ≤ ip.major.toInt ∧ ip.major.toInt.toNat < NDEV then
      match devsw ⟨ip.major.toInt.toNat, Inode.major_lt h⟩ with
      | some write => return (write n, ip)
      | none => return (-1, ip)
    else return (-1, ip)
  else if ip.size < off ∨ (off + n) % 2 ^ 32 < off then return (-1, ip)
  else if MAXFILE * BSIZE < (off + n) % 2 ^ 32 then return (-1, ip)
  else
    let (ip, off) ← writeiLoop n ip src off n
    if 0 < n ∧ ip.size < off then
      let ip := { ip with size := off }
      iupdate ip
      return (n, ip)
    else return (n, ip)

def iallocTry (type : InodeType) (inum : Nat) : BufProg Bool := do
  let sb ← sb
  let bp ← call (.bread (sb.IBLOCK inum))
  if InodeType.ofCode ((bp (Fin.ofNat NINDIRECT (16 * (inum % IPB)))).extractLsb' 0 16) = .free
  then do
    call (.logWrite (sb.IBLOCK inum) fun w =>
      if w.val / 16 = inum % IPB then
        if w.val % 16 = 0 then type.code.setWidth 32 else 0
      else bp w)
    call (.brelse (sb.IBLOCK inum))
    return true
  else do
    call (.brelse (sb.IBLOCK inum))
    return false

def itruncDirect : List Nat → Inode → BufProg Inode
  | [], ip => return ip
  | i :: is, ip =>
      if ip.addr i ≠ 0 then do
        bfree (ip.addr i)
        itruncDirect is (ip.setAddr i 0)
      else itruncDirect is ip

def itruncEntries (a : Block) : List (Fin NINDIRECT) → BufProg Unit
  | [] => return ()
  | j :: js => do
      if a j ≠ 0 then bfree (a j)
      itruncEntries a js

def itruncIndirect (ip : Inode) : BufProg Inode :=
  if ip.addr NDIRECT ≠ 0 then do
    let a ← call (.bread (ip.addr NDIRECT))
    itruncEntries a (List.finRange NINDIRECT)
    call (.brelse (ip.addr NDIRECT))
    bfree (ip.addr NDIRECT)
    return ip.setAddr NDIRECT 0
  else return ip

def itrunc (ip : Inode) : BufProg Inode := do
  let ip ← itruncDirect (List.range NDIRECT) ip
  let ip ← itruncIndirect ip
  let ip := { ip with size := 0 }
  iupdate ip
  return ip

def ifree (ip : Inode) : BufProg (Unit × Inode) := do
  let ip ← itrunc ip
  let ip := { ip with type := .free }
  iupdate ip
  return ((), ip)

def readiLoop : (fuel : Nat) → Inode → (off n : Nat) → BufProg (List Byte × Inode)
  | 0, ip, _, _ => return ([], ip)
  | fuel + 1, ip, off, n =>
      if 0 < n then do
        let (addr, ip) ← bmap ip (off / BSIZE)
        let bp ← call (.bread addr)
        let m := min n (BSIZE - off % BSIZE)
        call (.brelse addr)
        let (rest, ip) ← readiLoop fuel ip (off + m) (n - m)
        return ((List.range m).map (fun k => bp.byte (off % BSIZE + k)) ++ rest, ip)
      else return ([], ip)

def readi (ip : Inode) (off n : Nat) : BufProg (Int × List Byte × Inode) := do
  if ip.type = .dev then
    let devsw ← call .devswRead
    if h : 0 ≤ ip.major.toInt ∧ ip.major.toInt.toNat < NDEV then
      match devsw ⟨ip.major.toInt.toNat, Inode.major_lt h⟩ with
      | some read => return ((read n).1, (read n).2, ip)
      | none => return (-1, [], ip)
    else return (-1, [], ip)
  else if ip.size < off ∨ (off + n) % 2 ^ 32 < off then return (-1, [], ip)
  else
    let n := if ip.size < (off + n) % 2 ^ 32 then ip.size - off else n
    let (bytes, ip) ← readiLoop n ip off n
    return (n, bytes, ip)

/-- The data of inode `i` in its block. -/
def dinode (bp : Block) (i : Nat) : Inode where
  inum := i
  type := .ofCode ((word 0).extractLsb' 0 16)
  major := (word 0).extractLsb' 16 16
  minor := (word 1).extractLsb' 0 16
  nlink := (word 1).extractLsb' 16 16
  uid := (word 2).extractLsb' 0 16
  gid := (word 2).extractLsb' 16 16
  mode := word 3
  size := (word 4).toNat
  addrs := fun k => word (k + 5)
where
  word (k : Nat) : Uint := bp (Fin.ofNat NINDIRECT (16 * (i % IPB) + k))

/-- The part of `ilock` for an inode that is not valid. -/
def iload (inum : Nat) : BufProg Inode := do
  let sb ← sb
  let bp ← call (.bread (sb.IBLOCK inum))
  call (.brelse (sb.IBLOCK inum))
  if (dinode bp inum).type = .free then panic .ilockNoType
  else return dinode bp inum

end Buf

/-! ### They are the functions of the disk layer -/

@[simp] theorem interp_panic (e : FsPanic) :
    (Buf.panic e : BufProg α).interp BufOp.exec = throw e := by
  funext s
  rfl

@[simp] theorem interp_readsb : Buf.readsb.interp BufOp.exec = readsb := by
  unfold Buf.readsb readsb
  simp [BufOp.exec]

@[simp] theorem interp_bzero (bno : BlockNo) : (Buf.bzero bno).interp BufOp.exec = bzero bno := by
  unfold Buf.bzero bzero
  simp only [interp_bind, interp_call, BufOp.exec, bind_pure_unit]
  rfl

@[simp] theorem interp_ballocFrom (bs : List Nat) :
    (Buf.ballocFrom bs).interp BufOp.exec = ballocFrom bs := by
  induction bs with
  | nil => exact interp_panic _
  | cons b bs ih =>
    unfold Buf.ballocFrom ballocFrom
    simp only [Buf.sb, interp_bind, interp_call, BufOp.exec, bind_assoc, pure_bind]
    refine congrArg _ (funext fun s => congrArg _ (funext fun bp => ?_))
    cases (List.range (min BPB (s.sb.size - b))).find? fun bi => !bp.testBit bi with
    | some bi => simp [BufOp.exec]
    | none => simp [BufOp.exec, ih]

@[simp] theorem interp_balloc : Buf.balloc.interp BufOp.exec = balloc := by
  unfold Buf.balloc balloc
  simp [Buf.sb, BufOp.exec]

@[simp] theorem interp_bfree (b : BlockNo) : (Buf.bfree b).interp BufOp.exec = bfree b := by
  unfold Buf.bfree bfree
  simp [Buf.sb, BufOp.exec]

@[simp] theorem interp_iupdate (ip : Inode) : (Buf.iupdate ip).interp BufOp.exec = iupdate ip := by
  unfold Buf.iupdate iupdate
  simp [Buf.sb, BufOp.exec]

@[simp] theorem interp_addrOrAlloc (ip : Inode) (i : Nat) :
    (Buf.addrOrAlloc ip i).interp BufOp.exec = addrOrAlloc ip i := by
  unfold Buf.addrOrAlloc addrOrAlloc
  simp

@[simp] theorem interp_entryOrAlloc (ind : BlockNo) (i : Fin NINDIRECT) :
    (Buf.entryOrAlloc ind i).interp BufOp.exec = entryOrAlloc ind i := by
  unfold Buf.entryOrAlloc entryOrAlloc
  simp [BufOp.exec]

@[simp] theorem interp_bmap (ip : Inode) (bn : Nat) :
    (Buf.bmap ip bn).interp BufOp.exec = bmap ip bn := by
  unfold Buf.bmap bmap
  simp

@[simp] theorem interp_writeiLoop (fuel : Nat) (ip : Inode) (src : Nat → Byte) (off n : Nat) :
    (Buf.writeiLoop fuel ip src off n).interp BufOp.exec = writeiLoop fuel ip src off n := by
  induction fuel generalizing ip src off n with
  | zero => rfl
  | succ fuel ih =>
    unfold Buf.writeiLoop writeiLoop
    simp [BufOp.exec, ih]

@[simp] theorem interp_writei (ip : Inode) (src : Nat → Byte) (off n : Nat) :
    (Buf.writei ip src off n).interp BufOp.exec = writei ip src off n := by
  unfold Buf.writei writei
  by_cases hdev : ip.type = .dev
  · simp only [if_pos hdev, interp_bind, interp_call, BufOp.exec, bind_assoc, pure_bind]
    refine congrArg _ (funext fun s => ?_)
    split
    · rename_i h
      cases s.devsw ⟨ip.major.toInt.toNat, h.2⟩ <;> rfl
    · rfl
  · simp [if_neg hdev]

@[simp] theorem interp_iallocTry (type : InodeType) (inum : Nat) :
    (Buf.iallocTry type inum).interp BufOp.exec = iallocTry type inum := by
  unfold Buf.iallocTry iallocTry
  simp only [Buf.sb, interp_ite, interp_bind, interp_call, BufOp.exec, bind_assoc, pure_bind]
  rfl

@[simp] theorem interp_itruncDirect (is : List Nat) (ip : Inode) :
    (Buf.itruncDirect is ip).interp BufOp.exec = itruncDirect is ip := by
  induction is generalizing ip with
  | nil => rfl
  | cons i is ih =>
    unfold Buf.itruncDirect itruncDirect
    simp [ih]

@[simp] theorem interp_itruncEntries (a : Block) (js : List (Fin NINDIRECT)) :
    (Buf.itruncEntries a js).interp BufOp.exec = itruncEntries a js := by
  induction js with
  | nil => rfl
  | cons j js ih =>
    unfold Buf.itruncEntries itruncEntries
    simp [ih]

@[simp] theorem interp_itrunc (ip : Inode) : (Buf.itrunc ip).interp BufOp.exec = itrunc ip := by
  unfold Buf.itrunc itrunc Buf.itruncIndirect itruncIndirect
  simp [BufOp.exec]

@[simp] theorem interp_ifree (ip : Inode) : (Buf.ifree ip).interp BufOp.exec = ifree ip := by
  unfold Buf.ifree ifree
  simp

@[simp] theorem interp_readiLoop (fuel : Nat) (ip : Inode) (off n : Nat) :
    (Buf.readiLoop fuel ip off n).interp BufOp.exec = readiLoop fuel ip off n := by
  induction fuel generalizing ip off n with
  | zero => rfl
  | succ fuel ih =>
    unfold Buf.readiLoop readiLoop
    simp [BufOp.exec, ih]

@[simp] theorem interp_readi (ip : Inode) (off n : Nat) :
    (Buf.readi ip off n).interp BufOp.exec = readi ip off n := by
  unfold Buf.readi readi
  by_cases hdev : ip.type = .dev
  · simp only [if_pos hdev, interp_bind, interp_call, BufOp.exec, bind_assoc, pure_bind]
    refine congrArg _ (funext fun s => ?_)
    split
    · rename_i h
      cases s.devswRead ⟨ip.major.toInt.toNat, h.2⟩ <;> rfl
    · rfl
  · simp [if_neg hdev]

/-- The part of `ilock` that reads the inode, as `ilockLoadSem` has it. -/
theorem interp_iload (inum : Nat) (s : Fs) : (Buf.iload inum).interp BufOp.exec s =
      if (s.dinode inum).type = .free then .error .ilockNoType s else .ok (s.dinode inum) s := by
  unfold Buf.iload
  simp only [Buf.sb, interp_ite, interp_bind, interp_call, BufOp.exec, bind_assoc, pure_bind,
    interp_panic]
  change (if (s.dinode inum).type = .free then throw _ else pure (s.dinode inum) : FsM Inode) s = _
  split <;> rfl

/-! ### `log.c` -/

/-- The steps of the functions that `end_op` calls. -/
inductive LogOp : Type → Type where
  | bread (b : BlockNo) : LogOp Block
  | bwrite (b : BlockNo) (d : Block) : LogOp Unit
  | brelse (b : BlockNo) : LogOp Unit
  | lh : LogOp (List BlockNo)
  | clear : LogOp Unit
  | start : LogOp BlockNo
  | block (i : Nat) : LogOp BlockNo

abbrev LogProg := Prog LogOp

def LogOp.exec : {β : Type} → LogOp β → EStateM Empty Log β
  | _, .bread b => return (← get).bread b
  | _, .bwrite b d => modify (Log.bwrite b d)
  | _, .brelse _ => return ()
  | _, .lh => return (← get).lh
  | _, .clear => modify fun s => { s with lh := [] }
  | _, .start => return (← get).start
  | _, .block i => return (← get).block i

namespace Buf

open Prog

/-- The loop of `install_trans`, from the list of the blocks with their places in the log. -/
def installFrom : List (BlockNo × Nat) → LogProg Unit
  | [] => return ()
  | e :: es => do
      let src ← call (.block (e.2 + 1))
      let lbuf ← call (.bread src)
      let _ ← call (.bread e.1)
      call (.bwrite e.1 lbuf)
      call (.brelse src)
      call (.brelse e.1)
      installFrom es

def installTrans : LogProg Unit := do
  let lh ← call .lh
  installFrom lh.zipIdx

/-- The loop of `write_log`. -/
def writeLogFrom : List (BlockNo × Nat) → LogProg Unit
  | [] => return ()
  | e :: es => do
      let dst ← call (.block (e.2 + 1))
      let _ ← call (.bread dst)
      let cached ← call (.bread e.1)
      call (.bwrite dst cached)
      call (.brelse e.1)
      call (.brelse dst)
      writeLogFrom es

def writeLog : LogProg Unit := do
  let lh ← call .lh
  writeLogFrom lh.zipIdx

def writeHead : LogProg Unit := do
  let start ← call .start
  let buf ← call (.bread start)
  let lh ← call .lh
  call (.bwrite start (encodeHead lh buf))
  call (.brelse start)

def commit : LogProg Unit := do
  let lh ← call .lh
  if 0 < lh.length then do
    writeLog
    writeHead
    installTrans
    call .clear
    writeHead
  else return ()

end Buf

theorem interp_installFrom (es : List (BlockNo × Nat)) :
    (Buf.installFrom es).interp LogOp.exec = modify fun s =>
      es.foldl (fun s e => s.bwrite e.1 (s.bread (s.block (e.2 + 1)))) s := by
  induction es with
  | nil => rfl
  | cons e es ih =>
    unfold Buf.installFrom
    simp only [interp_bind, interp_call, LogOp.exec, pure_bind, ih]
    rfl

theorem interp_writeLogFrom (es : List (BlockNo × Nat)) :
    (Buf.writeLogFrom es).interp LogOp.exec = modify fun s =>
      es.foldl (fun s e => s.bwrite (s.block (e.2 + 1)) (s.bread e.1)) s := by
  induction es with
  | nil => rfl
  | cons e es ih =>
    unfold Buf.writeLogFrom
    simp only [interp_bind, interp_call, LogOp.exec, pure_bind, ih]
    rfl

theorem interp_writeHead : Buf.writeHead.interp LogOp.exec = modify Log.writeHead := by
  unfold Buf.writeHead
  simp only [interp_bind, interp_call, LogOp.exec]
  rfl

theorem interp_installTrans : Buf.installTrans.interp LogOp.exec = modify Log.installTrans := by
  unfold Buf.installTrans
  simp only [interp_bind, interp_call, LogOp.exec, interp_installFrom]
  rfl

theorem interp_writeLog : Buf.writeLog.interp LogOp.exec = modify Log.writeLog := by
  unfold Buf.writeLog
  simp only [interp_bind, interp_call, LogOp.exec, interp_writeLogFrom]
  rfl

/-- What a step does with buffers. -/
inductive BufUse where
  | none
  | take (b : BlockNo)
  /-- A look at the data of a buffer, or a change of them. -/
  | use (b : BlockNo)
  | give (b : BlockNo)

/-- Operations with their use of buffers. -/
class UsesBuffers (Op : Type → Type) where
  bufUse : {β : Type} → Op β → BufUse

open UsesBuffers

def BufOp.bufUse {β : Type} (o : BufOp β) : BufUse :=
  match o with
  | .bread b => .take b
  | .data b => .use b
  | .logWrite b _ => .use b
  | .brelse b => .give b
  | _ => .none

def LogOp.bufUse {β : Type} (o : LogOp β) : BufUse :=
  match o with
  | .bread b => .take b
  | .bwrite b _ => .use b
  | .brelse b => .give b
  | _ => .none

instance : UsesBuffers BufOp := ⟨BufOp.bufUse⟩
instance : UsesBuffers LogOp := ⟨LogOp.bufUse⟩

/-- A process uses and gives back the buffers that it holds only. -/
def BufUse.may (u : BufUse) (held : List BlockNo) : Prop :=
  match u with
  | .use b => b ∈ held
  | .give b => b ∈ held
  | _ => True

def BufUse.effect (u : BufUse) (held : List BlockNo) : List BlockNo :=
  match u with
  | .take b => b :: held
  | .give b => held.erase b
  | _ => held

/-- The buffers on which a process has set `B_BUSY`, whatever the steps return. -/
def holding (Op : Type → Type) [UsesBuffers Op] : Discipline Unit Op (List BlockNo) where
  may _ _ o held := (bufUse o).may held
  does _ _ o held _ held' := held' = (bufUse o).effect held

/-- The program returns with the buffers held that were held before. -/
def GivesBack {Op : Type → Type} [UsesBuffers Op] {α : Type} (p : Prog Op α) : Prop :=
  ∀ held, (holding Op).wp () p (fun _ held' => held' = held) held

section

variable {Op : Type → Type} [UsesBuffers Op] {α β : Type} {o : Op β} {k : β → Prog Op α}
  {held : List BlockNo}

theorem holding_take (ho : bufUse o = .take b) (h : ∀ d, (holding Op).wp () (k d) Q (b :: held)) :
    (holding Op).wp () (Prog.call o >>= k) Q held := by
  refine ⟨?_, fun d held' hd => ?_⟩
  · change (bufUse o).may held
    rw [ho]
    trivial
  · change held' = (bufUse o).effect held at hd
    rw [hd, ho]
    exact h d

theorem holding_use (ho : bufUse o = .use b) (hb : b ∈ held)
    (h : ∀ x, (holding Op).wp () (k x) Q held) :
    (holding Op).wp () (Prog.call o >>= k) Q held := by
  refine ⟨?_, fun x held' hx => ?_⟩
  · change (bufUse o).may held
    rw [ho]
    exact hb
  · change held' = (bufUse o).effect held at hx
    rw [hx, ho]
    exact h x

theorem holding_give (ho : bufUse o = .give b) (hb : b ∈ held)
    (h : ∀ x, (holding Op).wp () (k x) Q (held.erase b)) :
    (holding Op).wp () (Prog.call o >>= k) Q held := by
  refine ⟨?_, fun x held' hx => ?_⟩
  · change (bufUse o).may held
    rw [ho]
    exact hb
  · change held' = (bufUse o).effect held at hx
    rw [hx, ho]
    exact h x

/-- The buffer that was taken last is given back. -/
theorem holding_last (ho : bufUse o = .give b) (h : ∀ x, (holding Op).wp () (k x) Q held) :
    (holding Op).wp () (Prog.call o >>= k) Q (b :: held) :=
  holding_give ho List.mem_cons_self fun x => by
    rw [List.erase_cons_head]
    exact h x

theorem holding_other (ho : bufUse o = .none) (h : ∀ x, (holding Op).wp () (k x) Q held) :
    (holding Op).wp () (Prog.call o >>= k) Q held := by
  refine ⟨?_, fun x held' hx => ?_⟩
  · change (bufUse o).may held
    rw [ho]
    trivial
  · change held' = (bufUse o).effect held at hx
    rw [hx, ho]
    exact h x

/-- A function that gives everything back is called. -/
theorem GivesBack.call (hp : GivesBack p) (h : ∀ a, (holding Op).wp () (k a) Q held) :
    (holding Op).wp () (p >>= k) Q held := by
  refine Discipline.wp_bind.mpr (Discipline.wp_mono (hp held) fun a held' heq => ?_)
  rw [heq]
  exact h a

theorem GivesBack.ret (a : α) : GivesBack (.ret a : Prog Op α) := fun _ => rfl

theorem GivesBack.bind (hp : GivesBack p) (hk : ∀ a, GivesBack (k a)) : GivesBack (p >>= k) :=
  fun held => hp.call fun a => hk a held

theorem GivesBack.ite [Decidable c] {p q : Prog Op α} (hp : GivesBack p)
    (hq : GivesBack q) : GivesBack (if c then p else q) := by
  split
  · exact hp
  · exact hq

theorem GivesBack.other (ho : bufUse o = .none) : GivesBack (Prog.call o) := by
  intro held
  exact holding_other (k := Prog.ret) ho fun _ => rfl

end

/-! ### The functions of `fs.c` give back what they take -/

theorem panic_givesBack (e : FsPanic) : GivesBack (Buf.panic e : BufProg α) :=
  fun _ => ⟨trivial, fun b => b.elim⟩

theorem brelse_last : (holding BufOp).wp () (Prog.call (.brelse b)) (fun _ held' => held' = held)
      (b :: held) :=
  holding_last (k := Prog.ret) rfl fun _ => rfl

theorem readsb_givesBack : GivesBack Buf.readsb := by
  intro held
  refine holding_take rfl fun bp => ?_
  exact holding_other rfl fun _ => brelse_last

theorem bzero_givesBack (bno : BlockNo) : GivesBack (Buf.bzero bno) := by
  intro held
  refine holding_take rfl fun bp => ?_
  exact holding_use rfl List.mem_cons_self fun _ => brelse_last

theorem ballocFrom_givesBack (bs : List Nat) : GivesBack (Buf.ballocFrom bs) := by
  induction bs with
  | nil => exact panic_givesBack _
  | cons b bs ih =>
    intro held
    refine holding_other rfl fun sb => holding_take rfl fun bp => ?_
    split
    · refine holding_use rfl List.mem_cons_self fun _ => holding_last rfl fun _ => ?_
      exact (bzero_givesBack _).call fun _ => rfl
    · exact holding_last rfl fun _ => ih held

theorem balloc_givesBack : GivesBack Buf.balloc :=
  (GivesBack.other rfl).bind fun _ => ballocFrom_givesBack _

theorem bfree_givesBack (b : BlockNo) : GivesBack (Buf.bfree b) := by
  intro held
  refine readsb_givesBack.call fun _ => holding_other rfl fun sb => holding_take rfl fun bp => ?_
  refine Discipline.wp_ite (fun _ => ⟨trivial, fun e => e.elim⟩) fun _ => ?_
  exact holding_use rfl List.mem_cons_self fun _ => brelse_last

theorem iupdate_givesBack (ip : Inode) : GivesBack (Buf.iupdate ip) := by
  intro held
  refine holding_other rfl fun sb => holding_take rfl fun bp => ?_
  exact holding_use rfl List.mem_cons_self fun _ => brelse_last

theorem addrOrAlloc_givesBack (ip : Inode) (i : Nat) : GivesBack (Buf.addrOrAlloc ip i) :=
  (balloc_givesBack.bind fun _ => .ret _).ite (.ret _)

theorem entryOrAlloc_givesBack (ind : BlockNo) (i : Fin NINDIRECT) :
    GivesBack (Buf.entryOrAlloc ind i) := by
  intro held
  refine holding_take rfl fun bp => Discipline.wp_ite (fun _ => ?_) fun _ => ?_
  · -- the buffer of the indirect block is held during `balloc`
    refine balloc_givesBack.call fun addr => ?_
    refine holding_use rfl List.mem_cons_self fun _ => ?_
    exact holding_use rfl List.mem_cons_self fun _ => holding_last rfl fun _ => rfl
  · exact holding_last rfl fun _ => rfl

theorem bmap_givesBack (ip : Inode) (bn : Nat) : GivesBack (Buf.bmap ip bn) := by
  refine (addrOrAlloc_givesBack ip bn).ite (GivesBack.ite ?_ (panic_givesBack _))
  exact (addrOrAlloc_givesBack ip NDIRECT).bind fun r =>
    (entryOrAlloc_givesBack r.1 _).bind fun _ => .ret _

theorem writeiLoop_givesBack (fuel : Nat) (ip : Inode) (src : Nat → Byte) (off n : Nat) :
    GivesBack (Buf.writeiLoop fuel ip src off n) := by
  induction fuel generalizing ip src off n with
  | zero => exact .ret _
  | succ fuel ih =>
    refine GivesBack.ite (fun held => ?_) (.ret _)
    refine (bmap_givesBack ip _).call fun r => holding_take rfl fun bp => ?_
    refine holding_use rfl List.mem_cons_self fun _ => ?_
    exact holding_last rfl fun _ => ih _ _ _ _ held

theorem writei_givesBack (ip : Inode) (src : Nat → Byte) (off n : Nat) :
    GivesBack (Buf.writei ip src off n) := by
  refine GivesBack.ite (GivesBack.bind (.other rfl) fun devsw => ?_)
    (GivesBack.ite (.ret _) (GivesBack.ite (.ret _) ?_))
  · split
    · split
      · exact .ret _
      · exact .ret _
    · exact .ret _
  · refine (writeiLoop_givesBack n ip src off n).bind fun r => GivesBack.ite ?_ (.ret _)
    exact (iupdate_givesBack _).bind fun _ => .ret _

theorem iallocTry_givesBack (type : InodeType) (inum : Nat) :
    GivesBack (Buf.iallocTry type inum) := by
  intro held
  refine holding_other rfl fun sb => holding_take rfl fun bp => ?_
  refine Discipline.wp_ite (fun _ => ?_) fun _ => ?_
  · exact holding_use rfl List.mem_cons_self fun _ => holding_last rfl fun _ => rfl
  · exact holding_last rfl fun _ => rfl

theorem itruncDirect_givesBack (is : List Nat) (ip : Inode) :
    GivesBack (Buf.itruncDirect is ip) := by
  induction is generalizing ip with
  | nil => exact .ret _
  | cons i is ih => exact GivesBack.ite ((bfree_givesBack _).bind fun _ => ih _) (ih _)

theorem itruncEntries_givesBack (a : Block) (js : List (Fin NINDIRECT)) :
    GivesBack (Buf.itruncEntries a js) := by
  induction js with
  | nil => exact .ret _
  | cons j js ih =>
    unfold Buf.itruncEntries
    split
    · exact (bfree_givesBack _).bind fun _ => ih
    · exact (GivesBack.ret ()).bind fun _ => ih

theorem itruncIndirect_givesBack (ip : Inode) : GivesBack (Buf.itruncIndirect ip) := by
  refine GivesBack.ite (fun held => ?_) (.ret _)
  refine holding_take rfl fun a => (itruncEntries_givesBack a _).call fun _ => ?_
  exact holding_last rfl fun _ => (bfree_givesBack _).call fun _ => rfl

theorem itrunc_givesBack (ip : Inode) : GivesBack (Buf.itrunc ip) := by
  refine (itruncDirect_givesBack _ ip).bind fun ip =>
    (itruncIndirect_givesBack ip).bind fun ip => ?_
  exact (iupdate_givesBack _).bind fun _ => .ret _

theorem ifree_givesBack (ip : Inode) : GivesBack (Buf.ifree ip) :=
  (itrunc_givesBack ip).bind fun _ => (iupdate_givesBack _).bind fun _ => .ret _

theorem readiLoop_givesBack (fuel : Nat) (ip : Inode) (off n : Nat) :
    GivesBack (Buf.readiLoop fuel ip off n) := by
  induction fuel generalizing ip off n with
  | zero => exact .ret _
  | succ fuel ih =>
    refine GivesBack.ite (fun held => ?_) (.ret _)
    refine (bmap_givesBack ip _).call fun r => holding_take rfl fun bp => ?_
    exact holding_last rfl fun _ => (ih _ _ _).call fun _ => rfl

theorem readi_givesBack (ip : Inode) (off n : Nat) : GivesBack (Buf.readi ip off n) := by
  refine GivesBack.ite (GivesBack.bind (.other rfl) fun devsw => ?_) (GivesBack.ite (.ret _) ?_)
  · split
    · split
      · exact .ret _
      · exact .ret _
    · exact .ret _
  · exact (readiLoop_givesBack _ ip off _).bind fun _ => .ret _

theorem iload_givesBack (inum : Nat) : GivesBack (Buf.iload inum) := by
  intro held
  refine holding_other rfl fun sb => holding_take rfl fun bp => holding_last rfl fun _ => ?_
  exact GivesBack.ite (panic_givesBack _) (.ret _) held

/-! ### So do those of `log.c` -/

theorem writeHead_givesBack : GivesBack Buf.writeHead := by
  intro held
  refine holding_other rfl fun start => holding_take rfl fun buf => holding_other rfl fun lh => ?_
  refine holding_use rfl List.mem_cons_self fun _ => ?_
  exact holding_last (k := Prog.ret) rfl fun _ => rfl

/-- Two buffers, given back in the order in which they were taken. -/
theorem erase_second (b c : BlockNo) (held : List BlockNo) :
    (c :: b :: held).erase b = c :: held := by
  by_cases hcb : c = b
  · rw [hcb, List.erase_cons_head]
  · rw [List.erase_cons_tail (by simpa using hcb), List.erase_cons_head]

theorem installFrom_givesBack (es : List (BlockNo × Nat)) : GivesBack (Buf.installFrom es) := by
  induction es with
  | nil => exact .ret _
  | cons e es ih =>
    intro held
    refine holding_other rfl fun src => holding_take rfl fun _ => holding_take rfl fun _ => ?_
    refine holding_use rfl List.mem_cons_self fun _ => ?_
    refine holding_give rfl (by simp) fun _ => ?_
    rw [erase_second]
    exact holding_last rfl fun _ => ih held

theorem writeLogFrom_givesBack (es : List (BlockNo × Nat)) : GivesBack (Buf.writeLogFrom es) := by
  induction es with
  | nil => exact .ret _
  | cons e es ih =>
    intro held
    refine holding_other rfl fun dst => holding_take rfl fun _ => holding_take rfl fun _ => ?_
    refine holding_use rfl (by simp) fun _ => holding_last rfl fun _ => ?_
    exact holding_last rfl fun _ => ih held

theorem commit_givesBack : GivesBack Buf.commit := by
  have hlog : GivesBack Buf.writeLog :=
    GivesBack.bind (.other rfl) fun _ => writeLogFrom_givesBack _
  have hinstall : GivesBack Buf.installTrans :=
    GivesBack.bind (.other rfl) fun _ => installFrom_givesBack _
  refine GivesBack.bind (.other rfl) fun lh => GivesBack.ite ?_ (.ret _)
  exact hlog.bind fun _ => writeHead_givesBack.bind fun _ => hinstall.bind fun _ =>
    GivesBack.bind (.other rfl) fun _ => writeHead_givesBack

end Xv6Kernel
