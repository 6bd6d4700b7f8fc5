/-
  UserMemory.lean
  ===============
  The user memory that a system call reads and writes through a pointer argument.

  `argptr` checks a pointer and a size against the size of the process.  The five calls that use
  it are modelled by the addresses they touch through the pointer.  Addresses and sizes are
  32-bit words: `argptr` compares them unsigned, `sys_read` passes its count on as an `int`, and
  `readi` takes it as a `uint` again.

  What a call finds when it has waited (the pipe, the characters typed, the size of a file that
  others write to) is given by a `CallEnv`.  A call that panics touches no more than one that
  goes on, so panics are left out.
-/
import Xv6Kernel.KernelOps
import Xv6Kernel.Pipe

namespace Xv6Kernel

open List

def KERNBASE : Nat := 0x80000000

/-! ### Arguments -/

/-- What `fileread` and `filewrite` look at in an inode. -/
structure InodeView where
  type : InodeType
  major : BitVec 16
  size : BitVec 32

structure OpenFile where
  type : FdType
  readable : Bool
  writable : Bool
  ip : InodeView
  off : BitVec 32

/-- The calling process. -/
structure Caller where
  sz : BitVec 32
  /-- `proc->tf->esp`. -/
  esp : BitVec 32
  mem : BitVec 32 → Byte
  ofile : Fin NOFILE → Option OpenFile

namespace Caller

/-- `*(int*)(addr)`. -/
def word (u : Caller) (addr : BitVec 32) : BitVec 32 :=
  u.mem (addr + 3) ++ u.mem (addr + 2) ++ u.mem (addr + 1) ++ u.mem addr

def fetchint (u : Caller) (addr : BitVec 32) : Option (BitVec 32) :=
  if u.sz ≤ addr ∨ u.sz < addr + 4 then none else some (u.word addr)

def argint (u : Caller) (n : Nat) : Option (BitVec 32) :=
  u.fetchint (u.esp + 4 + 4 * BitVec.ofNat 32 n)

def argptr (u : Caller) (n : Nat) (size : BitVec 32) : Option (BitVec 32) :=
  match u.argint n with
  | none => none
  | some i => if u.sz ≤ i ∨ u.sz < i + size then none else some i

def argfd (u : Caller) (n : Nat) : Option OpenFile :=
  match u.argint n with
  | none => none
  | some fd =>
      if h : 0 ≤ fd.toInt ∧ fd.toInt.toNat < NOFILE then u.ofile ⟨fd.toInt.toNat, h.2⟩ else none

end Caller

/-! ### What the calls touch -/

/-- What the call meets on its way. -/
structure CallEnv where
  /-- The pipe when `piperead` has stopped waiting, unless it was killed. -/
  pipe : Option Pipe
  /-- How many bytes a pipe takes before `pipewrite` returns. -/
  taken : Nat
  /-- The characters that `consoleread` gets until it is killed. -/
  input : List Byte
  /-- The size of the inode at each chunk of `filewrite`. -/
  sizes : Nat → BitVec 32
  /-- `pipealloc` and both calls of `fdalloc` succeed. -/
  room : Bool

/-- The addresses of `k` bytes. -/
def bytesAt (addr : BitVec 32) (k : Nat) : List (BitVec 32) :=
  (List.range k).map fun i => addr + BitVec.ofNat 32 i

def CONSOLE : BitVec 16 := 1

/-- Control-D. -/
def ctrlD : Byte := 4
def newline : Byte := 10

/-- The loop of `consoleread`, for at most `n` characters. -/
def consoleread : List Byte → (dst : BitVec 32) → (n : Nat) → List (BitVec 32)
  | c :: cs, dst, n + 1 =>
      if c = ctrlD then []
      else if c = newline then [dst]
      else dst :: consoleread cs (dst + 1) n
  | _, _, _ => []

/-- The loop of `readi` and of `writei`, with the number of bytes still to copy. -/
def copyLoop : (fuel : Nat) → (addr : BitVec 32) → (off n : Nat) → List (BitVec 32)
  | 0, _, _, _ => []
  | fuel + 1, addr, off, n =>
      if 0 < n then
        let m := min n (BSIZE - off % BSIZE)
        bytesAt addr m ++ copyLoop fuel (addr + BitVec.ofNat 32 m) (off + m) (n - m)
      else []

/-- `readi(ip, dst, off, n)`, where `n` is a `uint`. -/
def readiTouches (env : CallEnv) (ip : InodeView) (dst off n : BitVec 32) : List (BitVec 32) :=
  if ip.type = .dev then
    if ip.major = CONSOLE then consoleread env.input dst n.toInt.toNat else []
  else if ip.size < off ∨ off + n < off then []
  else
    let n := if ip.size < off + n then ip.size - off else n
    copyLoop n.toNat dst off.toNat n.toNat

def pipereadTouches (env : CallEnv) (addr n : BitVec 32) : List (BitVec 32) :=
  match env.pipe with
  | none => []
  | some pipe => bytesAt addr (pipe.drain n.toInt.toNat).2.length

def filereadTouches (env : CallEnv) (f : OpenFile) (addr n : BitVec 32) : List (BitVec 32) :=
  if f.readable = false then []
  else
    match f.type with
    | .pipe => pipereadTouches env addr n
    | .inode => readiTouches env f.ip addr f.off n
    | .none => []

/-- `writei(ip, src, off, n)` for an inode of the given size; `none` if it returns -1. -/
def writeiTouches (ip : InodeView) (size src off n : BitVec 32) : Option (List (BitVec 32)) :=
  if ip.type = .dev then
    if ip.major = CONSOLE then some (bytesAt src n.toInt.toNat) else none
  else if size < off ∨ off + n < off then none
  else if BitVec.ofNat 32 (MAXFILE * BSIZE) < off + n then none
  else some (copyLoop n.toNat src off.toNat n.toNat)

/-- The loop of `filewrite`, with the number of bytes still to write. -/
def filewriteChunks (env : CallEnv) (ip : InodeView) :
    (fuel : Nat) → (chunk : Nat) → (addr off : BitVec 32) → (n : Nat) → List (BitVec 32)
  | 0, _, _, _, _ => []
  | fuel + 1, chunk, addr, off, n =>
      if 0 < n then
        let n1 := min n maxChunk.toNat
        match writeiTouches ip (env.sizes chunk) addr off (BitVec.ofNat 32 n1) with
        | none => []
        | some as =>
            as ++ filewriteChunks env ip fuel (chunk + 1) (addr + BitVec.ofNat 32 n1)
              (off + BitVec.ofNat 32 n1) (n - n1)
      else []

def filewriteTouches (env : CallEnv) (f : OpenFile) (addr n : BitVec 32) : List (BitVec 32) :=
  if f.writable = false then []
  else
    match f.type with
    | .pipe => bytesAt addr (min env.taken n.toInt.toNat)
    | .inode => filewriteChunks env f.ip n.toInt.toNat 0 addr f.off n.toInt.toNat
    | .none => []

/-- The offsets and sizes of the fields of `struct stat`, in the order in which `stati` sets
    them: `dev`, `ino`, `type`, `nlink`, `size`, `uid`, `gid` and `mode`. -/
def statFields : List (Nat × Nat) :=
  [(4, 4), (8, 4), (0, 2), (12, 2), (16, 4), (20, 2), (22, 2), (24, 4)]

def statSize : BitVec 32 := 28

def filestatTouches (f : OpenFile) (st : BitVec 32) : List (BitVec 32) :=
  match f.type with
  | .inode => statFields.flatMap fun fd => bytesAt (st + BitVec.ofNat 32 fd.1) fd.2
  | _ => []

def rtcdateSize : BitVec 32 := 24
def fdPairSize : BitVec 32 := 8

inductive MemCall where
  | read
  | write
  | fstat
  | pipe
  | date
  deriving DecidableEq

/-- A call in which `argptr` has returned 0. -/
structure Access where
  p : BitVec 32
  size : BitVec 32
  /-- The addresses that the call then touches through `p`. -/
  touches : List (BitVec 32)

/-- `sys_read` and `sys_write`. -/
def Caller.sysCopy (u : Caller) (touches : OpenFile → BitVec 32 → BitVec 32 → List (BitVec 32)) :
    Option Access :=
  match u.argfd 0, u.argint 2 with
  | some f, some n => (u.argptr 1 n).map fun p => ⟨p, n, touches f p n⟩
  | _, _ => none

def Caller.access (u : Caller) (env : CallEnv) : MemCall → Option Access
  | .read => u.sysCopy (filereadTouches env)
  | .write => u.sysCopy (filewriteTouches env)
  | .fstat =>
      match u.argfd 0 with
      | some f => (u.argptr 1 statSize).map fun st => ⟨st, statSize, filestatTouches f st⟩
      | none => none
  | .pipe =>
      (u.argptr 0 fdPairSize).map fun fd =>
        ⟨fd, fdPairSize, if env.room then bytesAt fd 4 ++ bytesAt (fd + 4) 4 else []⟩
  | .date => (u.argptr 0 rtcdateSize).map fun d => ⟨d, rtcdateSize, bytesAt d 24⟩

/-! ### The property -/

/-- All that is touched is in `[p, p + size)` and below `sz`. -/
def Access.Valid (x : Access) (sz : BitVec 32) : Prop :=
  ∀ a ∈ x.touches, x.p.toNat ≤ a.toNat ∧ (a.toNat : Int) < x.p.toNat + x.size.toInt ∧
    a.toNat < sz.toNat

/-- A read with a negative count that `readi` does not refuse: the file is on disk, and the
    count as a `uint` neither wraps around nor finds the end of the file. -/
structure Overreads (f : OpenFile) (n : BitVec 32) : Prop where
  negative : n.toInt < 0
  readable : f.readable = true
  type : f.type = .inode
  notDev : f.ip.type ≠ .dev
  off : f.off < f.ip.size
  noWrap : f.off.toNat + n.toNat < 2 ^ 32

/-! ### Ranges of bytes -/

variable {n off size : BitVec 32} {env : CallEnv} {u : Caller} {x : Access}

theorem mem_bytesAt : a ∈ bytesAt addr k ↔ ∃ i < k, a = addr + BitVec.ofNat 32 i := by
  unfold bytesAt
  rw [mem_map]
  constructor
  · rintro ⟨i, hi, rfl⟩
    exact ⟨i, mem_range.mp hi, rfl⟩
  · rintro ⟨i, hi, rfl⟩
    exact ⟨i, mem_range.mpr hi, rfl⟩

/-- A range inside another one. -/
theorem bytesAt_subset (h : i + m ≤ k) : bytesAt (addr + BitVec.ofNat 32 i) m ⊆ bytesAt addr k := by
  intro a ha
  obtain ⟨j, hj, rfl⟩ := mem_bytesAt.mp ha
  refine mem_bytesAt.mpr ⟨i + j, by omega, ?_⟩
  rw [BitVec.ofNat_add, add_assoc]

theorem bytesAt_subset_of_le (h : m ≤ k) : bytesAt addr m ⊆ bytesAt addr k := by
  intro a ha
  obtain ⟨j, hj, rfl⟩ := mem_bytesAt.mp ha
  exact mem_bytesAt.mpr ⟨j, by omega, rfl⟩

theorem copyLoop_subset {off n : Nat} : copyLoop fuel addr off n ⊆ bytesAt addr n := by
  induction fuel generalizing addr off n with
  | zero => exact nil_subset _
  | succ fuel ih =>
    rw [copyLoop]
    split_ifs with hn
    · dsimp only
      have hm : min n (BSIZE - off % BSIZE) ≤ n := Nat.min_le_left _ _
      refine append_subset.mpr ⟨bytesAt_subset_of_le hm, ?_⟩
      exact List.Subset.trans ih (bytesAt_subset (by omega))
    · exact nil_subset _

/-- The first byte is copied. -/
theorem mem_copyLoop {off n : Nat} (hfuel : 0 < fuel) (hn : 0 < n) :
    addr ∈ copyLoop fuel addr off n := by
  obtain ⟨fuel, rfl⟩ := Nat.exists_eq_succ_of_ne_zero hfuel.ne'
  rw [copyLoop, if_pos hn]
  have hmod : off % BSIZE < BSIZE := Nat.mod_lt _ (by decide)
  refine mem_append_left _ (mem_bytesAt.mpr ⟨0, ?_, ?_⟩)
  · omega
  · exact (BitVec.add_zero addr).symm

theorem consoleread_subset {n : Nat} : consoleread input dst n ⊆ bytesAt dst n := by
  induction input generalizing dst n with
  | nil =>
    cases n <;> exact nil_subset _
  | cons c cs ih =>
    cases n with
    | zero => exact nil_subset _
    | succ n =>
      have hfirst : dst ∈ bytesAt dst (n + 1) :=
        mem_bytesAt.mpr ⟨0, by omega, (BitVec.add_zero dst).symm⟩
      rw [consoleread]
      split_ifs
      · exact nil_subset _
      · exact cons_subset.mpr ⟨hfirst, nil_subset _⟩
      · refine cons_subset.mpr ⟨hfirst, List.Subset.trans ih ?_⟩
        exact bytesAt_subset (i := 1) (by omega)

theorem writeiTouches_subset {n : Nat} {as : List (BitVec 32)} (hn : n < 2 ^ 31)
    (h : writeiTouches ip size src off (BitVec.ofNat 32 n) = some as) : as ⊆ bytesAt src n := by
  have hnat : (BitVec.ofNat 32 n).toNat = n := by
    rw [BitVec.toNat_ofNat, Nat.mod_eq_of_lt (by omega)]
  have hint : (BitVec.ofNat 32 n).toInt.toNat = n := by
    rw [BitVec.toInt_eq_toNat_of_lt (by omega), hnat, Int.toNat_natCast]
  unfold writeiTouches at h
  rw [hnat, hint] at h
  split_ifs at h
  · cases h
    exact List.Subset.refl _
  · cases h
    exact copyLoop_subset

theorem filewriteChunks_subset {chunk n : Nat} :
    filewriteChunks env ip fuel chunk addr off n ⊆ bytesAt addr n := by
  induction fuel generalizing chunk addr off n with
  | zero => exact nil_subset _
  | succ fuel ih =>
    rw [filewriteChunks]
    split_ifs with hn
    · dsimp only
      have hmax : maxChunk.toNat = 6656 := rfl
      split
      · exact nil_subset _
      · rename_i as has
        have hchunk := writeiTouches_subset (by omega) has
        refine append_subset.mpr ⟨?_, ?_⟩
        · exact List.Subset.trans hchunk (bytesAt_subset_of_le (Nat.min_le_left _ _))
        · exact List.Subset.trans ih (bytesAt_subset (by omega))
    · exact nil_subset _

/-! ### What each call touches -/

/-- A negative count is no count for the loops that compare it as an `int`. -/
theorem toNat_of_negative (h : n.toInt < 0) : n.toInt.toNat = 0 := Int.toNat_of_nonpos h.le

theorem length_drain_le (n : Nat) (p : Pipe) : (p.drain n).2.length ≤ n := by
  induction n generalizing p with
  | zero => exact le_rfl
  | succ n ih =>
    rw [Pipe.drain]
    split_ifs
    · exact Nat.zero_le _
    · exact Nat.succ_le_succ (ih _)

theorem filewriteTouches_subset : filewriteTouches env f addr n ⊆ bytesAt addr n.toInt.toNat := by
  unfold filewriteTouches
  split_ifs
  · exact nil_subset _
  · split
    · exact bytesAt_subset_of_le (Nat.min_le_right _ _)
    · exact filewriteChunks_subset
    · exact nil_subset _

theorem pipereadTouches_subset : pipereadTouches env addr n ⊆ bytesAt addr n.toInt.toNat := by
  unfold pipereadTouches
  split
  · exact nil_subset _
  · exact bytesAt_subset_of_le (length_drain_le _ _)

theorem toNat_of_nonneg (hn : 0 ≤ n.toInt) : n.toInt.toNat = n.toNat ∧ n.toNat < 2 ^ 31 := by
  have hcond := BitVec.toInt_eq_toNat_cond n
  have hlt := n.isLt
  split_ifs at hcond with h
  · omega
  · omega

theorem toNat_of_neg (hn : n.toInt < 0) : 2 ^ 31 ≤ n.toNat := by
  have hcond := BitVec.toInt_eq_toNat_cond n
  split_ifs at hcond with h
  · omega
  · omega

/-- The bytes of a file on disk that `readi` copies. -/
def clip (size off n : BitVec 32) : BitVec 32 := if size < off + n then size - off else n

theorem readiTouches_disk (hdev : ip.type ≠ .dev) (hbad : ¬ (ip.size < off ∨ off + n < off)) :
    readiTouches env ip dst off n =
      copyLoop (clip ip.size off n).toNat dst off.toNat (clip ip.size off n).toNat := by
  unfold readiTouches
  rw [if_neg hdev, if_neg hbad]
  rfl

theorem clip_le (hbad : ¬ (size < off ∨ off + n < off)) : (clip size off n).toNat ≤ n.toNat := by
  unfold clip
  split_ifs with h
  · bv_omega
  · exact le_rfl

theorem clip_at_end (hn : 2 ^ 31 ≤ n.toNat) (hbad : ¬ (size < off ∨ off + n < off))
    (hoff : ¬ off < size) : (clip size off n).toNat = 0 := by
  unfold clip
  split_ifs with h
  · bv_omega
  · bv_omega

/-- `readi` with a count that is not negative. -/
theorem readiTouches_subset (hn : 0 ≤ n.toInt) :
    readiTouches env ip dst off n ⊆ bytesAt dst n.toInt.toNat := by
  by_cases hdev : ip.type = .dev
  · unfold readiTouches
    rw [if_pos hdev]
    split_ifs
    · exact consoleread_subset
    · exact nil_subset _
  · by_cases hbad : ip.size < off ∨ off + n < off
    · unfold readiTouches
      rw [if_neg hdev, if_pos hbad]
      exact nil_subset _
    · rw [readiTouches_disk hdev hbad, (toNat_of_nonneg hn).1]
      exact List.Subset.trans copyLoop_subset (bytesAt_subset_of_le (clip_le hbad))

theorem filereadTouches_subset (hn : 0 ≤ n.toInt) :
    filereadTouches env f addr n ⊆ bytesAt addr n.toInt.toNat := by
  unfold filereadTouches
  split_ifs
  · exact nil_subset _
  · split
    · exact pipereadTouches_subset
    · exact readiTouches_subset hn
    · exact nil_subset _

/-- With a negative count nothing is read, except from a file on disk. -/
theorem filereadTouches_negative (hn : n.toInt < 0) (hno : ¬ Overreads f n) :
    filereadTouches env f addr n = [] := by
  have hzero := toNat_of_negative hn
  unfold filereadTouches
  split_ifs with hr
  · rfl
  · split
    · rename_i htype
      have hsub : pipereadTouches env addr n ⊆ bytesAt addr n.toInt.toNat := pipereadTouches_subset
      rw [hzero] at hsub
      exact subset_nil.mp hsub
    · rename_i htype
      by_cases hdev : f.ip.type = .dev
      · unfold readiTouches
        rw [if_pos hdev, hzero]
        split_ifs
        · exact subset_nil.mp consoleread_subset
        · rfl
      · by_cases hbad : f.ip.size < f.off ∨ f.off + n < f.off
        · unfold readiTouches
          rw [if_neg hdev, if_pos hbad]
        · have hoff : ¬ f.off < f.ip.size := fun hlt =>
            hno ⟨hn, by simpa using hr, htype, hdev, hlt, by bv_omega⟩
          have hclip := clip_at_end (toNat_of_neg hn) hbad hoff
          rw [readiTouches_disk hdev hbad, hclip]
          rfl
    · rfl

/-- A read with a negative count stores a byte at `p`. -/
theorem Overreads.touches (h : Overreads f n) : addr ∈ filereadTouches env f addr n := by
  have hbad : ¬ (f.ip.size < f.off ∨ f.off + n < f.off) := by
    have hoff := h.off
    have hwrap := h.noWrap
    rintro (hb | hb) <;> bv_omega
  have hpos : 0 < (clip f.ip.size f.off n).toNat := by
    have hoff := h.off
    have hbig := toNat_of_neg h.negative
    unfold clip
    split_ifs <;> bv_omega
  unfold filereadTouches
  rw [h.readable, h.type]
  change addr ∈ readiTouches env f.ip addr f.off n
  rw [readiTouches_disk h.notDev hbad]
  exact mem_copyLoop hpos hpos

/-! ### The check of `argptr` -/

theorem argptr_spec {n : Nat} {p : BitVec 32} (hsz : u.sz.toNat < KERNBASE) (hsize : 0 ≤ size.toInt)
    (h : u.argptr n size = some p) : p.toNat + size.toNat ≤ u.sz.toNat := by
  have hlt := (toNat_of_nonneg hsize).2
  have hbase : KERNBASE = 2 ^ 31 := rfl
  unfold Caller.argptr at h
  split at h
  · cases h
  · split_ifs at h with hbad
    cases h
    rw [hbase] at hsz
    bv_omega

theorem valid_of_subset (hsize : 0 ≤ x.size.toInt) (hp : x.p.toNat + x.size.toNat ≤ u.sz.toNat)
    (hsub : x.touches ⊆ bytesAt x.p x.size.toInt.toNat) : x.Valid u.sz := by
  intro a ha
  obtain ⟨hnat, hlt⟩ := toNat_of_nonneg hsize
  obtain ⟨i, hi, rfl⟩ := mem_bytesAt.mp (hsub ha)
  have hsz := u.sz.isLt
  have hadd : (x.p + BitVec.ofNat 32 i).toNat = x.p.toNat + i := by
    rw [BitVec.toNat_add, BitVec.toNat_ofNat, Nat.mod_eq_of_lt (b := 2 ^ 32) (by omega),
      Nat.mod_eq_of_lt (by omega)]
  rw [hadd]
  omega

theorem valid_of_argptr {n : Nat} {p : BitVec 32} {touches : List (BitVec 32)}
    (hsz : u.sz.toNat < KERNBASE) (hsize : 0 ≤ size.toInt) (hp : u.argptr n size = some p)
    (hsub : touches ⊆ bytesAt p size.toInt.toNat) : Access.Valid ⟨p, size, touches⟩ u.sz :=
  valid_of_subset hsize (argptr_spec hsz hsize hp) hsub

theorem filestatTouches_subset : filestatTouches f st ⊆ bytesAt st 28 := by
  unfold filestatTouches
  split
  · intro a ha
    obtain ⟨fd, hfd, ha⟩ := mem_flatMap.mp ha
    have hfit : ∀ fd ∈ statFields, fd.1 + fd.2 ≤ 28 := by decide
    exact bytesAt_subset (hfit fd hfd) ha
  · exact nil_subset _

/-- The calls whose size is fixed. -/
theorem access_fixed {c : MemCall} (hsz : u.sz.toNat < KERNBASE) (hc : c ≠ .read ∧ c ≠ .write)
    (h : u.access env c = some x) : x.Valid u.sz := by
  cases c with
  | read => exact absurd rfl hc.1
  | write => exact absurd rfl hc.2
  | fstat =>
    simp only [Caller.access] at h
    split at h
    · obtain ⟨st, hst, rfl⟩ := Option.map_eq_some_iff.mp h
      exact valid_of_argptr hsz (by decide) hst filestatTouches_subset
    · cases h
  | pipe =>
    obtain ⟨fd, hfd, rfl⟩ := Option.map_eq_some_iff.mp h
    refine valid_of_argptr hsz (by decide) hfd ?_
    split_ifs
    · exact append_subset.mpr
        ⟨bytesAt_subset_of_le (by decide), bytesAt_subset (i := 4) (by decide)⟩
    · exact nil_subset _
  | date =>
    obtain ⟨d, hd, rfl⟩ := Option.map_eq_some_iff.mp h
    exact valid_of_argptr hsz (by decide) hd (List.Subset.refl _)

theorem sysCopy_eq_some (h : u.sysCopy touches = some x) :
    ∃ f, u.argfd 0 = some f ∧ u.argptr 1 x.size = some x.p ∧ x.touches = touches f x.p x.size := by
  unfold Caller.sysCopy at h
  split at h
  · rename_i f n hf _
    obtain ⟨p, hp, rfl⟩ := Option.map_eq_some_iff.mp h
    exact ⟨f, hf, hp, rfl⟩
  · cases h

/-- A write touches nothing if its count is negative. -/
theorem access_write (hsz : u.sz.toNat < KERNBASE) (h : u.access env .write = some x) :
    x.Valid u.sz := by
  obtain ⟨f, -, hp, htouch⟩ := sysCopy_eq_some h
  have hsub : x.touches ⊆ bytesAt x.p x.size.toInt.toNat := by
    rw [htouch]
    exact filewriteTouches_subset
  rcases lt_or_ge x.size.toInt 0 with hneg | hpos
  · rw [toNat_of_negative hneg] at hsub
    intro a ha
    exact absurd (hsub ha) not_mem_nil
  · exact valid_of_subset hpos (argptr_spec hsz hpos hp) hsub

/-- A read is valid unless its count is negative and it reads from a file on disk before its
    end. -/
theorem access_read (hsz : u.sz.toNat < KERNBASE) (hf : u.argfd 0 = some f)
    (h : u.access env .read = some x) : x.Valid u.sz ↔ ¬ Overreads f x.size := by
  obtain ⟨f', hf', hp, htouch⟩ := sysCopy_eq_some h
  obtain rfl : f' = f := Option.some.inj (hf'.symm.trans hf)
  constructor
  · intro hvalid hover
    have hmem : x.p ∈ x.touches := by
      rw [htouch]
      exact hover.touches
    have hlt := (hvalid x.p hmem).2.1
    have hneg := hover.negative
    omega
  · intro hno
    rcases lt_or_ge x.size.toInt 0 with hneg | hpos
    · intro a ha
      rw [htouch, filereadTouches_negative hneg hno] at ha
      exact absurd ha not_mem_nil
    · refine valid_of_subset hpos (argptr_spec hsz hpos hp) ?_
      rw [htouch]
      exact filereadTouches_subset hpos

/-- The call is no `sys_read` that overreads. -/
def CountOk (u : Caller) (c : MemCall) (x : Access) : Prop :=
  c = .read → ∀ f, u.argfd 0 = some f → ¬ Overreads f x.size

/-- Once `argptr` has returned 0, all that the call touches is validated user memory if and only
    if the call is no `sys_read` of a file on disk with a negative count. -/
theorem access_valid_iff {u : Caller} {env : CallEnv} {c : MemCall} {x : Access}
    (hsz : u.sz.toNat < KERNBASE) (h : u.access env c = some x) :
    x.Valid u.sz ↔ CountOk u c x := by
  by_cases hread : c = .read
  · subst hread
    obtain ⟨f, hf, -, -⟩ := sysCopy_eq_some h
    rw [access_read hsz hf h]
    constructor
    · intro hno _ f' hf'
      obtain rfl := Option.some.inj (hf'.symm.trans hf)
      exact hno
    · intro hok
      exact hok rfl f hf
  · refine iff_of_true ?_ fun hcon => absurd hcon hread
    by_cases hwrite : c = .write
    · subst hwrite
      exact access_write hsz h
    · exact access_fixed hsz ⟨hread, hwrite⟩ h

/-- `read(3, (char*)4000, n)` in a process of one page; descriptor 3 is a file of 200 bytes. -/
def readCaller (n : Byte) : Caller where
  sz := 4096
  esp := 0
  mem := fun a =>
    if a = 4 then 3 else if a = 8 then 0xA0 else if a = 9 then 0x0F
    else if 12 ≤ a ∧ a < 16 then n else 0
  ofile := fun fd =>
    if fd = 3 then
      some
        { type := .inode, readable := true, writable := false,
          ip := { type := .file, major := 0, size := 200 }, off := 0 }
    else none

def quietEnv : CallEnv where
  pipe := none
  taken := 0
  input := []
  sizes := fun _ => 0
  room := false

/-- With the count 0 nothing is touched. -/
theorem access_valid_iff_readNothing : ∃ x, (readCaller 0).access quietEnv .read = some x ∧
    (x.Valid (readCaller 0).sz ↔ CountOk (readCaller 0) .read x) :=
  ⟨_, rfl, access_valid_iff (by decide) rfl⟩

/-- With the count -1 the last of the 200 bytes goes to 4199, above the end of the process. -/
theorem negative_count_overruns : ∃ x, (readCaller 0xFF).access quietEnv .read = some x ∧
    x.size.toInt = -1 ∧ 4199 ∈ x.touches ∧ (readCaller 0xFF).sz.toNat ≤ 4199 ∧
      ¬ x.Valid (readCaller 0xFF).sz := by
  have heval : ((readCaller 0xFF).access quietEnv .read).map
      (fun x => (x.size.toInt, decide (4199 ∈ x.touches))) = some (-1, true) := by
    decide +kernel
  obtain ⟨x, hx, hval⟩ := Option.map_eq_some_iff.mp heval
  obtain ⟨hsize, hmem⟩ := Prod.mk.inj hval
  have hmem := of_decide_eq_true hmem
  refine ⟨x, hx, hsize, hmem, by decide, fun hvalid => ?_⟩
  exact absurd (hvalid _ hmem).2.2 (by decide)

end Xv6Kernel
