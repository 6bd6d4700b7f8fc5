/-
  LogModel.lean
  =============
  The redo log (`log.c`).

  The buffer cache is modelled by what `bread` returns for each block number: a buffer
  that is not in the cache is read from the disk, and one that is dropped from it is
  clean, so caching is invisible.  `bwrite` changes the disk, and the state keeps the list
  of writes issued so far, from which the disk at any moment can be computed.

  The in-memory header `log.lh` is the list of the first `lh.n` entries of its array;
  nothing reads the others.  The header block on disk is a block like any other.

  Left out: the device number, locks and sleeping, since a step of the model is one
  critical section, and the bound on the number of buffers.
-/
import Xv6Kernel.CrashDisk
import Xv6Kernel.ProcTable

namespace Xv6Kernel

def BSIZE : Nat := 512
def MAXOPBLOCKS : Nat := 10
def LOGSIZE : Nat := MAXOPBLOCKS * 3
def NINDIRECT : Nat := BSIZE / 4

instance : NeZero NINDIRECT := ⟨by decide⟩

abbrev BlockNo := Uint
/-- The data of a block, as an array of `uint`. -/
abbrev Block := Fin NINDIRECT → Uint
abbrev Disk := BlockNo → Block

inductive LogPanic where
  | tooBigTransaction      -- log_write: "too big a transaction"
  | outsideOfTrans         -- log_write: "log_write outside of trans"
  | logCommitting          -- end_op: "log.committing"
  | outOfBounds            -- read_head: `block[i]` with `i` at least `LOGSIZE`
deriving DecidableEq, Repr

/-- `struct logheader` written over the data of a block. -/
def encodeHead (lh : List BlockNo) (b : Block) : Block := fun k =>
  if k = 0 then BitVec.ofNat 32 lh.length
  else
    match lh[k.val - 1]? with
    | some blockno => blockno
    | none => b k

/-- `struct logheader` read from the data of a block. -/
def decodeHead (b : Block) : Except LogPanic (List BlockNo) :=
  if (b 0).toInt ≤ LOGSIZE then
    .ok ((List.range (b 0).toInt.toNat).map fun i => b (Fin.ofNat NINDIRECT (i + 1)))
  else .error .outOfBounds

structure Log where
  start : BlockNo
  size : Nat
  outstanding : Int
  committing : Bool
  lh : List BlockNo
  /-- What `bread` returns. -/
  cache : Disk
  /-- The writes issued since the state that the cache was filled from. -/
  writes : List (BlockNo × Block)

namespace Log

/-- The block of the log area with the given index; the header has index 0. -/
def block (s : Log) (i : Nat) : BlockNo := s.start + BitVec.ofNat 32 i

def bread (s : Log) (b : BlockNo) : Block := s.cache b

/-- The caller of `bwrite` has changed the data of the buffer to `data`. -/
def bwrite (b : BlockNo) (data : Block) (s : Log) : Log :=
  { s with cache := Function.update s.cache b data, writes := s.writes ++ [(b, data)] }

def installTrans (s : Log) : Log :=
  s.lh.zipIdx.foldl (fun s e => s.bwrite e.1 (s.bread (s.block (e.2 + 1)))) s

def readHead (s : Log) : Except LogPanic Log := do
  let lh ← decodeHead (s.bread s.start)
  return { s with lh := lh }

def writeHead (s : Log) : Log := s.bwrite s.start (encodeHead s.lh (s.bread s.start))

def recoverFromLog (s : Log) : Except LogPanic Log := do
  let s ← s.readHead
  let s := s.installTrans
  let s := { s with lh := [] }
  return s.writeHead

/-- `begin_op`, if it does not go to sleep. -/
def beginOp (s : Log) : Option Log :=
  if s.committing then none
  else if (s.lh.length : Int) + (s.outstanding + 1) * MAXOPBLOCKS > LOGSIZE then none
  else some { s with outstanding := s.outstanding + 1 }

/-- The first critical section of `end_op`, with `do_commit`. -/
def endOp (s : Log) : Except LogPanic (Bool × Log) :=
  let s := { s with outstanding := s.outstanding - 1 }
  if s.committing then .error .logCommitting
  else if s.outstanding = 0 then .ok (true, { s with committing := true })
  else .ok (false, s)

def writeLog (s : Log) : Log :=
  s.lh.zipIdx.foldl (fun s e => s.bwrite (s.block (e.2 + 1)) (s.bread e.1)) s

def commit (s : Log) : Log :=
  if 0 < s.lh.length then
    let s := s.writeLog
    let s := s.writeHead
    let s := s.installTrans
    let s := { s with lh := [] }
    s.writeHead
  else s

/-- The last critical section of `end_op`, after `commit`. -/
def endCommit (s : Log) : Log := { s with committing := false }

/-- The tests of `log_write`, which it makes before it acquires the lock. -/
def logTest (s : Log) : Except LogPanic Unit :=
  if LOGSIZE ≤ s.lh.length ∨ s.size - 1 ≤ s.lh.length then .error .tooBigTransaction
  else if s.outstanding < 1 then .error .outsideOfTrans
  else .ok ()

/-- The critical section of `log_write`, for a buffer whose data the caller has changed
    to `data`. -/
def logAppend (b : BlockNo) (data : Block) (s : Log) : Log :=
  { s with
    cache := Function.update s.cache b data
    -- log absorption
    lh := if b ∈ s.lh then s.lh else s.lh ++ [b] }

def logWrite (b : BlockNo) (data : Block) (s : Log) : Except LogPanic Log := do
  s.logTest
  return s.logAppend b data

/-- A sequence of calls of `log_write`. -/
def logWrites (s : Log) : List (BlockNo × Block) → Except LogPanic Log
  | [] => .ok s
  | w :: ws => do
      let s ← s.logWrite w.1 w.2
      s.logWrites ws

variable {s : Log} {b : BlockNo}

theorem logTest_ok (h : s.logTest = .ok ()) :
    s.lh.length < LOGSIZE ∧ s.lh.length < s.size - 1 ∧ 1 ≤ s.outstanding := by
  unfold logTest at h
  split_ifs at h
  omega

@[simp] theorem mem_logAppend_lh {a : BlockNo} {x : Block} :
    a ∈ (s.logAppend b x).lh ↔ a ∈ s.lh ∨ a = b := by
  unfold logAppend
  split_ifs with hin
  · exact ⟨Or.inl, fun ha => ha.elim id fun hab => hab ▸ hin⟩
  · simp

theorem length_logAppend_lh {x : Block} : (s.logAppend b x).lh.length ≤ s.lh.length + 1 := by
  unfold logAppend
  split_ifs <;> simp

theorem length_logAppend_of_not_mem {x : Block} (hb : b ∉ s.lh) :
    (s.logAppend b x).lh.length = s.lh.length + 1 := by
  simp [logAppend, hb]

theorem length_logAppend_of_mem {x : Block} (hb : b ∈ s.lh) :
    (s.logAppend b x).lh.length = s.lh.length := by
  simp [logAppend, hb]

theorem nodup_logAppend {x : Block} (h : s.lh.Nodup) : (s.logAppend b x).lh.Nodup := by
  unfold logAppend
  split_ifs with hin
  · exact h
  · rw [List.nodup_append]
    refine ⟨h, List.nodup_singleton b, ?_⟩
    intro a ha c hc hac
    rw [List.mem_singleton] at hc
    exact hin (hc ▸ hac ▸ ha)

theorem foldl_bwrite {α : Type} (f : Log → α → BlockNo × Block) (es : List α) (s : Log) :
    ∃ cache writes, es.foldl (fun s e => s.bwrite (f s e).1 (f s e).2) s =
      { s with cache := cache, writes := writes } := by
  induction es generalizing s with
  | nil => exact ⟨s.cache, s.writes, rfl⟩
  | cons e es ih =>
    obtain ⟨cache, writes, h⟩ := ih (s.bwrite (f s e).1 (f s e).2)
    exact ⟨cache, writes, h⟩

theorem writeLog_frame (s : Log) :
    ∃ cache writes, s.writeLog = { s with cache := cache, writes := writes } :=
  foldl_bwrite (fun s (e : BlockNo × Nat) => (s.block (e.2 + 1), s.bread e.1)) s.lh.zipIdx s

theorem installTrans_frame (s : Log) :
    ∃ cache writes, s.installTrans = { s with cache := cache, writes := writes } :=
  foldl_bwrite (fun s (e : BlockNo × Nat) => (e.1, s.bread (s.block (e.2 + 1)))) s.lh.zipIdx s

/-- Apart from what it writes, `commit` only empties the in-memory header. -/
theorem commit_frame (s : Log) :
    ∃ cache writes, s.commit = { s with lh := [], cache := cache, writes := writes } := by
  by_cases hn : 0 < s.lh.length
  · have hcommit : s.commit = writeHead { s.writeLog.writeHead.installTrans with lh := [] } := by
      unfold commit
      rw [if_pos hn]
    obtain ⟨c₁, w₁, hlog⟩ := s.writeLog_frame
    obtain ⟨c₂, w₂, hinstall⟩ := s.writeLog.writeHead.installTrans_frame
    rw [hcommit, hinstall, hlog]
    exact ⟨_, _, rfl⟩
  · have hnil : s.lh = [] := List.length_eq_zero_iff.mp (by omega)
    refine ⟨s.cache, s.writes, ?_⟩
    unfold commit
    rw [if_neg hn, ← hnil]

theorem endOp_cases (s : Log) : (s.committing = true ∧ s.endOp = .error .logCommitting) ∨
    (s.committing = false ∧ s.outstanding - 1 = 0 ∧ s.endOp =
      .ok (true, { s with outstanding := s.outstanding - 1, committing := true })) ∨
    (s.committing = false ∧ s.outstanding - 1 ≠ 0 ∧ s.endOp =
      .ok (false, { s with outstanding := s.outstanding - 1 })) := by
  unfold endOp
  cases hc : s.committing with
  | true => simp
  | false =>
    by_cases ho : s.outstanding - 1 = 0
    · simp [ho]
    · simp [ho]

end Log

end Xv6Kernel
