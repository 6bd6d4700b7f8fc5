/-
  GetProcs.lean
  =============
  The table that `getprocs` writes to user memory.

  `sys_getprocs` has `argptr` check the product of the count and the size of an entry, which
  is taken modulo 2^32; `getprocs` then compares the number of its entries with the count as a
  `uint`.  A negative count, or one that is too large, passes the check and does not stop the
  loop.
-/
import Xv6Kernel.ProcInfo
import Xv6Kernel.UserMemory

namespace Xv6Kernel

open List

/-- `sizeof(struct uproc)`. -/
def uprocSize : Nat := 96

/-- The bytes that `safestrcpy` writes to a field of `STRMAX` bytes: the loop copies the zero
    byte too, and another one is written after it. -/
def strWrites (t : String) : Nat := min (t.length + 2) STRMAX

/-- The offsets and lengths of what is written to one entry. -/
def Uproc.fields (r : Uproc) : List (Nat × Nat) :=
  [(0, 4), (4, 4), (8, 4), (12, 4), (16, 4), (20, 4), (24, strWrites r.state), (56, 4), (60, 4),
    (64, strWrites r.name)]

/-- The addresses that are written for the entries of the table at `addr`. -/
def tableWrites : (addr : BitVec 32) → List Uproc → List (BitVec 32)
  | _, [] => []
  | addr, r :: table =>
      r.fields.flatMap (fun fd => bytesAt (addr + BitVec.ofNat 32 fd.1) fd.2) ++
        tableWrites (addr + BitVec.ofNat 32 uprocSize) table

namespace Table

variable (t : Table)

/-- The pid that `getprocs` finds for the parent; `null` is what is in user memory where the
    field of a process at address 0 would be. -/
def parentPid (null : Uint) (p : Slot) : Uint :=
  match t.getppid p with
  | .ok ppid => ppid
  | .error _ => null

/-- What is written for the process `p`. -/
def entry (null : Uint) (p : Slot) : Uproc where
  pid := (t.proc p).pid
  uid := (t.proc p).uid
  gid := (t.proc p).gid
  ppid := t.parentPid null p
  elapsedTicks := t.ticks - (t.proc p).startTicks
  cpuTotalTicks := (t.proc p).cpuTicksTotal
  state := safestrcpy (t.proc p).state.text STRMAX
  size := (t.proc p).sz
  prio := BitVec.ofInt 32 (t.proc p).prio
  name := safestrcpy (t.proc p).name STRMAX

/-- The loop of `getprocs`. -/
def fillTable (null max : Uint) : List Slot → List Uproc → List Uproc
  | [], table => table
  | p :: ps, table =>
      if table.length < max.toNat then
        if (t.proc p).state.Live then fillTable null max ps (table ++ [t.entry null p])
        else fillTable null max ps table
      else table

/-- The processes that `getprocs` reports, in the order of the table. -/
def reported : List Slot := (List.finRange NPROC).filter fun p => (t.proc p).state.Live

variable {t}

theorem fillTable_eq (null max : Uint) (ps : List Slot) (table : List Uproc) :
    t.fillTable null max ps table = table ++
      ((ps.filter fun p => (t.proc p).state.Live).take (max.toNat - table.length)).map
        (t.entry null) := by
  induction ps generalizing table with
  | nil => simp [fillTable]
  | cons p ps ih =>
    unfold fillTable
    by_cases hmax : table.length < max.toNat
    · rw [if_pos hmax]
      by_cases hp : (t.proc p).state.Live
      · obtain ⟨k, hk⟩ := Nat.exists_eq_add_of_lt hmax
        have hrest : max.toNat - (table ++ [t.entry null p]).length = k := by
          rw [length_append, length_singleton]
          omega
        rw [if_pos hp, ih, hrest, show max.toNat - table.length = k + 1 by omega,
          filter_cons_of_pos (by simpa using hp), take_succ_cons, map_cons,
          append_assoc, singleton_append]
      · rw [if_neg hp, ih, filter_cons_of_neg (by simpa using hp)]
    · rw [if_neg hmax, Nat.sub_eq_zero_of_le (Nat.not_lt.mp hmax), take_zero, map_nil, append_nil]

/-- Where no parent is missing this is `getprocs`. -/
theorem getprocsLoop_eq {null max : Uint} {ps : List Slot} {table : List Uproc}
    (h : ∀ p ∈ ps, (t.proc p).state.Live → ∃ ppid, t.getppid p = .ok ppid) :
    t.getprocsLoop max ps table = .ok (t.fillTable null max ps table) := by
  induction ps generalizing table with
  | nil => rfl
  | cons p ps ih =>
    have ih' : ∀ table, t.getprocsLoop max ps table = .ok (t.fillTable null max ps table) :=
      fun _ => ih fun q hq => h q (mem_cons_of_mem p hq)
    unfold getprocsLoop fillTable
    by_cases hmax : table.length < max.toNat
    · rw [if_pos hmax, if_pos hmax]
      by_cases hp : (t.proc p).state.Live
      · obtain ⟨ppid, hppid⟩ := h p mem_cons_self hp
        rw [if_pos hp, if_pos hp, ← ih']
        simp only [uproc, entry, parentPid, hppid, bind, Except.bind, pure, Except.pure]
      · rw [if_neg hp, if_neg hp, ih']
    · rw [if_neg hmax, if_neg hmax]

end Table

/-- A call of `getprocs` by `sys_getprocs`. -/
structure GetprocsRun where
  max : Uint
  addr : BitVec 32
  table : List Uproc
  ret : Int

/-- `sys_getprocs`, or `none` if it returns -1 before it calls `getprocs`. -/
def sysGetprocs (u : Caller) (t : Table) (null : Uint) : Option GetprocsRun :=
  match u.argint 0 with
  | none => none
  | some max =>
      match u.argptr 1 (BitVec.ofNat 32 uprocSize * max) with
      | none => none
      | some addr =>
          let table := t.fillTable null max (List.finRange NPROC) []
          some ⟨max, addr, table, if 0 = table.length then -1 else table.length⟩

/-- The table is inside the caller's buffer and its memory, and has an entry for each of the
    first processes. -/
structure GetprocsRun.Faithful (r : GetprocsRun) (u : Caller) (t : Table) (null : Uint) : Prop where
  inside : ∀ a ∈ tableWrites r.addr r.table, r.addr.toNat ≤ a.toNat ∧
    (a.toNat : Int) < r.addr.toNat + r.max.toInt * uprocSize
  below : ∀ a ∈ tableWrites r.addr r.table, a < u.sz
  count : (r.table.length : Int) = min r.max.toInt t.reported.length
  entries : r.table = (t.reported.take r.table.length).map (t.entry null)
  ret : r.ret = if r.table.length = 0 then (-1 : Int) else r.table.length

/-- How far the entries reach: to the end of the last name. -/
def extent : List Uproc → Nat
  | [] => 0
  | [r] => 64 + strWrites r.name
  | _ :: table => uprocSize + extent table

section

variable {table : List Uproc} {addr a : BitVec 32} {r : Uproc}

theorem strWrites_pos (t : String) : 0 < strWrites t := by
  unfold strWrites STRMAX
  omega

theorem fields_le (h : fd ∈ r.fields) : fd.1 + fd.2 ≤ 64 + strWrites r.name := by
  have hstate : strWrites r.state ≤ STRMAX := Nat.min_le_right _ _
  have hmax : STRMAX = 32 := rfl
  simp only [Uproc.fields, mem_cons, not_mem_nil, or_false] at h
  rcases h with rfl | rfl | rfl | rfl | rfl | rfl | rfl | rfl | rfl | rfl <;> dsimp only <;> omega

theorem extent_cons (h : table ≠ []) : extent (r :: table) = uprocSize + extent table := by
  cases table with
  | nil => exact absurd rfl h
  | cons _ _ => rfl

theorem extent_le : extent table ≤ table.length * uprocSize := by
  induction table with
  | nil => exact Nat.zero_le _
  | cons r table ih =>
    rw [length_cons, Nat.succ_mul]
    by_cases h : table = []
    · have hname : strWrites r.name ≤ STRMAX := Nat.min_le_right _ _
      have hmax : STRMAX = 32 := rfl
      have hsize : uprocSize = 96 := rfl
      rw [h, extent]
      omega
    · rw [extent_cons h]
      omega

theorem entry_le_extent : 64 + strWrites r.name ≤ extent (r :: table) := by
  by_cases h : table = []
  · rw [h, extent]
  · have hname : strWrites r.name ≤ STRMAX := Nat.min_le_right _ _
    have hmax : STRMAX = 32 := rfl
    have hsize : uprocSize = 96 := rfl
    rw [extent_cons h]
    omega

theorem mem_tableWrites (h : a ∈ tableWrites addr table) :
    ∃ o < extent table, a = addr + BitVec.ofNat 32 o := by
  induction table generalizing addr with
  | nil => exact absurd h not_mem_nil
  | cons r table ih =>
    rcases mem_append.mp h with h | h
    · obtain ⟨fd, hfd, ha⟩ := mem_flatMap.mp h
      obtain ⟨i, hi, rfl⟩ := mem_bytesAt.mp ha
      have hle := fields_le hfd
      have hext : 64 + strWrites r.name ≤ extent (r :: table) := entry_le_extent
      exact ⟨fd.1 + i, by omega, by rw [BitVec.ofNat_add, BitVec.add_assoc]⟩
    · obtain ⟨o, ho, rfl⟩ := ih h
      have hne : table ≠ [] := by
        rintro rfl
        exact absurd ho (Nat.not_lt_zero o)
      refine ⟨uprocSize + o, ?_, by rw [BitVec.ofNat_add, BitVec.add_assoc]⟩
      rw [extent_cons hne]
      omega

/-- The last byte of the last name is written. -/
theorem last_mem_tableWrites (h : table ≠ []) :
    addr + BitVec.ofNat 32 (extent table - 1) ∈ tableWrites addr table := by
  induction table generalizing addr with
  | nil => exact absurd rfl h
  | cons r table ih =>
    by_cases hne : table = []
    · have hpos := strWrites_pos r.name
      refine mem_append_left _ (mem_flatMap.mpr ⟨(64, strWrites r.name), ?_, ?_⟩)
      · simp [Uproc.fields]
      · refine mem_bytesAt.mpr ⟨strWrites r.name - 1, by omega, ?_⟩
        rw [hne, extent, Nat.add_sub_assoc hpos, BitVec.ofNat_add, BitVec.add_assoc]
    · refine mem_append_right _ ?_
      have hpos : 0 < extent table := by
        obtain ⟨r', table', rfl⟩ := exists_cons_of_ne_nil hne
        exact lt_of_lt_of_le (by omega) entry_le_extent
      have hoff : uprocSize + (extent table - 1) = extent (r :: table) - 1 := by
        rw [extent_cons hne, Nat.add_sub_assoc hpos]
      rw [← hoff, BitVec.ofNat_add, ← BitVec.add_assoc]
      exact ih hne

end

theorem argptr_lt {u : Caller} {n : Nat} {size addr : BitVec 32}
    (h : u.argptr n size = some addr) : addr < u.sz := by
  unfold Caller.argptr at h
  split at h
  · cases h
  · split_ifs at h with hbad
    cases h
    exact BitVec.not_le.mp fun hle => hbad (Or.inl hle)

theorem sysGetprocs_some {t : Table} {null : Uint} {r : GetprocsRun}
    (h : sysGetprocs u t null = some r) : r.addr < u.sz ∧
      r.table = (t.reported.take r.max.toNat).map (t.entry null) ∧
      r.ret = if r.table.length = 0 then (-1 : Int) else r.table.length := by
  unfold sysGetprocs at h
  cases hmax : u.argint 0 with
  | none => simp [hmax] at h
  | some max =>
    cases haddr : u.argptr 1 (BitVec.ofNat 32 uprocSize * max) with
    | none => simp [hmax, haddr] at h
    | some addr =>
      simp only [hmax, haddr, Option.some.injEq] at h
      obtain rfl := h
      refine ⟨argptr_lt haddr, ?_, by simp only [eq_comm]⟩
      rw [Table.fillTable_eq, nil_append]
      rfl

/-- A process of 4096 bytes that calls `getprocs(max, addr)`. -/
def caller (max addr : BitVec 32) : Caller where
  sz := 4096
  esp := 0
  mem a := if a < 8 then (max >>> (8 * (a.toNat - 4))).setWidth 8
    else (addr >>> (8 * (a.toNat - 8))).setWidth 8
  ofile _ := none

end Xv6Kernel
