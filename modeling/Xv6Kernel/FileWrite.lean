/-
  FileWrite.lean
  ==============
  The blocks that a write to a file logs.

  `filewrite` splits a write into chunks, one transaction each.  The chunk size is computed
  from `LOGSIZE`, while `begin_op` reserves `MAXOPBLOCKS` blocks for a transaction.
  `chunkBlocks` is the number of distinct blocks that one chunk logs: the blocks of the
  file that it covers, the free map and the indirect block if it allocates, and the inode
  if the file grows.  The loop of `writei` is followed with the invariant `Writing`.
-/
import Xv6Kernel.BlockMap

namespace Xv6Kernel

open PanicMonad Function Finset

/-! ### Counting -/

/-- The number of blocks of a file with `size` bytes. -/
def blocksOf (size : Nat) : Nat := (size + BSIZE - 1) / BSIZE

/-- The number of blocks to allocate for the blocks below `e` of a file that has `A`. -/
def allocations (A e : Nat) : Nat := (e - A) + if A ≤ NDIRECT ∧ NDIRECT < e then 1 else 0

/-- The number of distinct blocks logged for `a` allocations: the new blocks, the free map,
    and the indirect block if the file already has one. -/
def allocBlocks (A a : Nat) : Nat := a + if 0 < a then (if NDIRECT < A then 2 else 1) else 0

/-- The number of distinct blocks that a chunk of `n` bytes at `off` logs, if `free` blocks
    are not in use. -/
def chunkBlocks (size off n free : Nat) : Nat :=
  (min (blocksOf (off + n)) (blocksOf size) - off / BSIZE) +
    allocBlocks (blocksOf size) (min (allocations (blocksOf size) (blocksOf (off + n))) free) +
    if allocations (blocksOf size) (blocksOf (off + n)) ≤ free ∧ size < off + n then 1 else 0

section

variable {e : Nat}

theorem allocations_of_le (h : e ≤ A) : allocations A e = 0 := by
  unfold allocations
  rw [if_neg (by omega)]
  omega

theorem allocations_succ (hA : A ≤ j) (hj : j ≠ NDIRECT) :
    allocations A (j + 1) = allocations A j + 1 := by
  unfold allocations
  by_cases h : A ≤ NDIRECT ∧ NDIRECT < j
  · rw [if_pos h, if_pos (by omega)]
    omega
  · rw [if_neg h, if_neg (by omega)]
    omega

theorem allocations_first (hA : A ≤ NDIRECT) :
    allocations A (NDIRECT + 1) = allocations A NDIRECT + 2 := by
  unfold allocations
  rw [if_pos ⟨hA, Nat.lt_succ_self _⟩, if_neg (by omega)]
  omega

theorem allocations_mono (h : e ≤ e') : allocations A e ≤ allocations A e' := by
  unfold allocations
  split_ifs <;> omega

theorem allocBlocks_succ : allocBlocks A (a + 1) =
    allocBlocks A a + 1 + if 0 < a then 0 else if NDIRECT < A then 2 else 1 := by
  unfold allocBlocks
  rw [if_pos (Nat.succ_pos a)]
  split_ifs <;> omega

theorem le_allocBlocks : a ≤ allocBlocks A a := Nat.le_add_right _ _

/-- The bytes that one round of the loop of `writei` writes end with the block that they
    start in, or with the chunk. -/
theorem round_bytes (hk : 0 < k) (hm : min k (BSIZE - off % BSIZE) = m) :
    0 < m ∧ m ≤ k ∧ off / BSIZE + 1 = blocksOf (off + m) ∧
      (0 < k - m → off / BSIZE + 1 = (off + m) / BSIZE) := by
  unfold blocksOf BSIZE at *
  omega

theorem blocksOf_mono (h : m ≤ n) : blocksOf m ≤ blocksOf n := Nat.div_le_div_right (by omega)

/-- The whole chunk is logged if it completes. -/
theorem le_chunkBlocks (h : allocations (blocksOf size) (blocksOf (off + n)) ≤ free) :
    n / BSIZE ≤ chunkBlocks size off n free := by
  have hcost : blocksOf (off + n) - blocksOf size ≤
      allocBlocks (blocksOf size) (allocations (blocksOf size) (blocksOf (off + n))) :=
    Nat.le_trans (Nat.le_add_right _ _) le_allocBlocks
  have hcover : n / BSIZE ≤ blocksOf (off + n) - off / BSIZE := by
    unfold blocksOf BSIZE
    omega
  unfold chunkBlocks
  rw [Nat.min_eq_left h]
  omega

end

/-! ### The blocks of the current transaction -/

namespace Fs

variable {s : Fs} {ip : Inode} {j : Nat}

def blocks (s : Fs) : Finset BlockNo := ((s.current.getD []).map Prod.fst).toFinset

theorem blocks_logged (hc : s.current ≠ none) : (s.logged b d).blocks = insert b s.blocks := by
  obtain ⟨tx, htx⟩ := Option.ne_none_iff_exists'.mp hc
  ext y
  simp [blocks, logged, htx, eq_comm]

theorem blocks_alloc (hc : s.current ≠ none) : (s.alloc n).blocks =
    insert (BitVec.ofNat 32 n) (insert (s.sb.BBLOCK 0) s.blocks) := by
  unfold alloc
  rw [blocks_logged (logged_current hc), blocks_logged hc]

/-- The logged blocks are the free map and blocks after it, and they are in use. -/
def LogUsed (s : Fs) : Prop := ∀ x ∈ s.blocks,
  s.sb.bmapstart ≤ x.toNat ∧ x.toNat < s.sb.size ∧ s.used x.toNat = true

namespace LogUsed

theorem not_mem (h : s.LogUsed) (hl : s.Layout) (hlt : n < s.sb.size) (hn : s.used n = false) :
    BitVec.ofNat 32 n ∉ s.blocks := by
  intro hmem
  have hused := (h _ hmem).2.2
  rw [hl.toNat_ofNat hlt, hn] at hused
  cases hused

theorem logged (h : s.LogUsed) (hc : s.current ≠ none) (hb : s.DataBlock b)
    (hne : b ≠ s.sb.BBLOCK 0) : (s.logged b d).LogUsed := by
  intro x hx
  rw [blocks_logged hc] at hx
  rw [used_logged hne, logged_sb]
  rcases mem_insert.mp hx with rfl | hx
  · exact ⟨Nat.le_of_lt hb.above, hb.below, hb.used⟩
  · exact h x hx

theorem alloc (h : s.LogUsed) (hc : s.current ≠ none) (hl : s.Layout) (hlt : n < s.sb.size)
    (hn : s.used n = false) : (s.alloc n).LogUsed := by
  intro x hx
  rw [blocks_alloc hc] at hx
  rcases mem_insert.mp hx with rfl | hx
  · have hdata := dataBlock_alloc hl hlt hn
    exact ⟨Nat.le_of_lt hdata.above, hdata.below, hdata.used⟩
  · have hold : s.sb.bmapstart ≤ x.toNat ∧ x.toNat < s.sb.size ∧ s.used x.toNat = true := by
      rcases mem_insert.mp hx with rfl | hx
      · rw [hl.toNat_BBLOCK]
        exact ⟨Nat.le_refl _, hl.room, hl.metadata _ (Nat.le_refl _)⟩
      · exact h x hx
    refine ⟨hold.1, hold.2.1, ?_⟩
    rw [hl.used_alloc hlt hn hold.2.1, hold.2.2, Bool.true_or]

end LogUsed

theorem blocks_allocEntry (ip : Inode) (j n : Nat) (hc : s.current ≠ none) :
    (s.allocEntry ip j n).blocks = insert (ip.addr NDIRECT) (s.alloc n).blocks :=
  blocks_logged (alloc_current hc)

theorem card_alloc (hc : s.current ≠ none) (hl : s.Layout) (hu : s.LogUsed)
    (hlt : n < s.sb.size) (hn : s.used n = false) : (s.alloc n).blocks.card =
      s.blocks.card + 1 + if s.sb.BBLOCK 0 ∈ s.blocks then 0 else 1 := by
  have hnew : BitVec.ofNat 32 n ∉ insert (s.sb.BBLOCK 0) s.blocks := by
    rw [mem_insert, not_or]
    exact ⟨hl.ofNat_ne_BBLOCK hlt hn, hu.not_mem hl hlt hn⟩
  rw [blocks_alloc hc, card_insert_of_notMem hnew]
  by_cases hb : s.sb.BBLOCK 0 ∈ s.blocks
  · rw [if_pos hb, insert_eq_of_mem hb]
  · rw [if_neg hb, card_insert_of_notMem hb]

end Fs

/-! ### The loop of `writei` -/

/-- The loop started in `s₀` at block `j₀` of a file with `A` blocks and has written the
    blocks below `j`. -/
structure Writing (s₀ : Fs) (ip₀ : Inode) (A j₀ : Nat) (s : Fs) (ip : Inode) (j : Nat) : Prop where
  ok : FileOk s ip (max A j) (decide (NDIRECT < max A j))
  current : s.current ≠ none
  done : s.done = s₀.done
  size : ip.size = ip₀.size
  type : ip.type = ip₀.type
  start : j₀ ≤ j ∧ j₀ ≤ A
  total : s.free + allocations A j = s₀.free
  card : s.blocks.card = (min j A - j₀) + allocBlocks A (allocations A j)
  used : s.LogUsed
  fresh : ∀ i, j ≤ i → i < A → s.fileBlock ip i ∉ s.blocks
  bitmap : s.sb.BBLOCK 0 ∈ s.blocks ↔ 0 < allocations A j
  ind : NDIRECT < max A j → (ip.addr NDIRECT ∈ s.blocks ↔ 0 < allocations A j)

/-- The loop has run out of free blocks before block `e`. -/
structure Stuck (s₀ : Fs) (A j₀ e : Nat) (s : Fs) : Prop where
  current : s.current ≠ none
  done : s.done = s₀.done
  lack : s₀.free < allocations A e
  card : s.blocks.card = (A - j₀) + allocBlocks A s₀.free

namespace Writing

variable {s₀ s : Fs} {ip₀ ip : Inode} {A j₀ j n : Nat}

section

variable (h : Writing s₀ ip₀ A j₀ s ip j)

include h

/-- Writing a block again that is already logged. -/
theorem relog (hi : i < max A j) (hmem : s.fileBlock ip i ∈ s.blocks) :
    Writing s₀ ip₀ A j₀ (s.logged (s.fileBlock ip i) d) ip j := by
  have hne := (h.ok.data i hi).ne_BBLOCK h.ok.toLayout
  have hblocks : (s.logged (s.fileBlock ip i) d).blocks = s.blocks := by
    rw [Fs.blocks_logged h.current, insert_eq_of_mem hmem]
  have hblock : ∀ k, k < max A j →
      (s.logged (s.fileBlock ip i) d).fileBlock ip k = s.fileBlock ip k := fun k hk =>
    fileBlock_logged ((h.ok.lt_or hk).imp_right fun hI => (h.ok.ind hI).2 i hi)
  refine ⟨h.ok.logged_data hi, Fs.logged_current h.current, h.done, h.size, h.type, h.start,
    ?_, ?_, h.used.logged h.current (h.ok.data i hi) hne, ?_, ?_, ?_⟩
  · rw [Fs.free_logged hne]
    exact h.total
  · rw [hblocks]
    exact h.card
  · intro k hjk hkA
    rw [hblocks, hblock k (by omega)]
    exact h.fresh k hjk hkA
  · rw [hblocks]
    exact h.bitmap
  · intro hN
    rw [hblocks]
    exact h.ind hN

/-- Writing a block that the file has. -/
theorem touch (hj : j < A) : Writing s₀ ip₀ A j₀ (s.logged (s.fileBlock ip j) d) ip (j + 1) := by
  have hmax : max A (j + 1) = max A j := by omega
  have hjmax : j < max A j := by omega
  have hnone : allocations A j = 0 := allocations_of_le (by omega)
  have hsame : allocations A (j + 1) = allocations A j := by
    rw [hnone, allocations_of_le (by omega)]
  have hne := (h.ok.data j hjmax).ne_BBLOCK h.ok.toLayout
  have hblocks := Fs.blocks_logged (b := s.fileBlock ip j) (d := d) h.current
  have hblock : ∀ k, k < max A j →
      (s.logged (s.fileBlock ip j) d).fileBlock ip k = s.fileBlock ip k := fun k hk =>
    fileBlock_logged ((h.ok.lt_or hk).imp_right fun hI => (h.ok.ind hI).2 j hjmax)
  have hstart := h.start
  refine ⟨hmax ▸ h.ok.logged_data hjmax, Fs.logged_current h.current, h.done, h.size, h.type,
    by omega, ?_, ?_, h.used.logged h.current (h.ok.data j hjmax) hne, ?_, ?_, ?_⟩
  · rw [Fs.free_logged hne, hsame]
    exact h.total
  · rw [hblocks, card_insert_of_notMem (h.fresh j (Nat.le_refl _) hj), h.card, hsame, hnone]
    omega
  · intro k hjk hkA hmem
    rw [hblocks, hblock k (by omega)] at hmem
    rcases mem_insert.mp hmem with heq | hmem
    · have hkj := h.ok.inj k j (by omega) hjmax heq
      omega
    · exact h.fresh k (by omega) hkA hmem
  · rw [hblocks, hsame, ← h.bitmap, Fs.logged_sb, mem_insert, or_iff_right hne.symm]
  · intro hN
    rw [hmax] at hN
    have hneind := (h.ok.ind (decide_eq_true hN)).2 j hjmax
    rw [hblocks, hsame, ← h.ind hN, mem_insert, or_iff_right hneind.symm]

/-- Allocating the next block, a direct one. -/
theorem direct (hA : A ≤ j) (hj : j < NDIRECT) (hlt : n < s.sb.size) (hn : s.used n = false) :
    Writing s₀ ip₀ A j₀ (s.alloc n) (ip.setAddr j (BitVec.ofNat 32 n)) (j + 1) := by
  have hmax : max A j = j := by omega
  have hmax' : max A (j + 1) = j + 1 := by omega
  have hok := h.ok
  rw [hmax] at hok
  have hsucc := allocations_succ hA (by omega : j ≠ NDIRECT)
  have hlay := hok.toLayout
  have hext := hok.extend_direct hj hlt hn
  rw [decide_eq_false (by omega)] at hext
  have hstart := h.start
  refine ⟨?_, Fs.alloc_current h.current, h.done, h.size, h.type, by omega, ?_, ?_,
    h.used.alloc h.current hlay hlt hn, fun k hjk hkA => by omega, ?_, fun hN => by omega⟩
  · rw [hmax', decide_eq_false (by omega)]
    exact hext
  · have hfree := hlay.free_alloc hlt hn
    have htotal := h.total
    omega
  · rw [Fs.card_alloc h.current hlay h.used hlt hn, h.card, hsucc, allocBlocks_succ,
      if_neg (by omega : ¬ NDIRECT < A), if_congr h.bitmap rfl rfl]
    omega
  · rw [Fs.blocks_alloc h.current, hsucc]
    simp

/-- Allocating the next block and entering it into the indirect block. -/
theorem entry (hA : A ≤ j) (hj : NDIRECT < j)
    (hfile : j < MAXFILE) (hlt : n < s.sb.size) (hn : s.used n = false) :
    Writing s₀ ip₀ A j₀ (s.allocEntry ip j n) ip (j + 1) := by
  have hmax : max A j = j := by omega
  have hmax' : max A (j + 1) = j + 1 := by omega
  have hok := h.ok
  rw [hmax, decide_eq_true hj] at hok
  have hlay := hok.toLayout
  have hind := (hok.ind rfl).1
  have hindne : ip.addr NDIRECT ≠ (s.alloc n).sb.BBLOCK 0 := hind.ne_BBLOCK hlay
  have hsucc := allocations_succ hA (by omega : j ≠ NDIRECT)
  have hmem := h.ind (by omega)
  have hblocks := Fs.blocks_allocEntry ip j n h.current
  have hstart := h.start
  refine ⟨?_, Fs.logged_current (Fs.alloc_current h.current), h.done, h.size, h.type, by omega,
    ?_, ?_, (h.used.alloc h.current hlay hlt hn).logged (Fs.alloc_current h.current)
      (hind.alloc hlay hlt hn) hindne, fun k hjk hkA => by omega, ?_, ?_⟩
  · rw [hmax', decide_eq_true (by omega)]
    exact hok.extend_entry (by omega) hfile hlt hn
  · have hfree := hlay.free_alloc hlt hn
    have hsame : (s.allocEntry ip j n).free = (s.alloc n).free := Fs.free_logged hindne
    have htotal := h.total
    omega
  · have hcard := Fs.card_alloc h.current hlay h.used hlt hn
    rw [if_congr h.bitmap rfl rfl, h.card] at hcard
    rw [hblocks, hsucc, allocBlocks_succ]
    by_cases hpos : 0 < allocations A j
    · have hin : ip.addr NDIRECT ∈ (s.alloc n).blocks := by
        rw [Fs.blocks_alloc h.current]
        simp [hmem.mpr hpos]
      rw [if_pos hpos] at hcard ⊢
      rw [insert_eq_of_mem hin]
      omega
    · -- the first allocation, so that the file had an indirect block before
      have hjA : j = A := by
        unfold allocations at hpos
        omega
      have hnotin : ip.addr NDIRECT ∉ (s.alloc n).blocks := by
        rw [Fs.blocks_alloc h.current, mem_insert, mem_insert, not_or, not_or]
        exact ⟨hind.ne_ofNat hlay hlt hn, hind.ne_BBLOCK hlay, fun hin => hpos (hmem.mp hin)⟩
      rw [if_neg hpos] at hcard ⊢
      rw [card_insert_of_notMem hnotin, if_pos (by omega)]
      omega
  · rw [hblocks, Fs.blocks_alloc h.current, hsucc]
    simp [Fs.allocEntry]
  · intro _
    rw [hblocks, hsucc]
    simp

end

/-- Allocating the indirect block and the first block in it. -/
theorem first (h : Writing s₀ ip₀ A j₀ s ip NDIRECT) (hA : A ≤ NDIRECT) (hm : m < s.sb.size)
    (hmfree : s.used m = false) (hn : n < s.sb.size) (hnfree : (s.alloc m).used n = false) :
    Writing s₀ ip₀ A j₀ ((s.alloc m).allocEntry (ip.setAddr NDIRECT (BitVec.ofNat 32 m)) NDIRECT n)
      (ip.setAddr NDIRECT (BitVec.ofNat 32 m)) (NDIRECT + 1) := by
  have hmax : max A NDIRECT = NDIRECT := by omega
  have hmax' : max A (NDIRECT + 1) = NDIRECT + 1 := by omega
  have hok := h.ok
  rw [hmax, decide_eq_false (by omega)] at hok
  have hok₁ := hok.add_indirect hm hmfree
  have hlay := hok.toLayout
  have hlay₁ := hok₁.toLayout
  have hcur₁ := Fs.alloc_current (n := m) h.current
  have hused₁ := h.used.alloc h.current hlay hm hmfree
  have hind := (hok₁.ind rfl).1
  have hindne := hind.ne_BBLOCK hlay₁
  have hblocks := Fs.blocks_allocEntry (ip.setAddr NDIRECT (BitVec.ofNat 32 m)) NDIRECT n hcur₁
  have hbit : (s.alloc m).sb.BBLOCK 0 ∈ (s.alloc m).blocks := by
    rw [Fs.blocks_alloc h.current]
    simp
  have hin : (ip.setAddr NDIRECT (BitVec.ofNat 32 m)).addr NDIRECT ∈
      ((s.alloc m).alloc n).blocks := by
    rw [Fs.blocks_alloc hcur₁, Fs.blocks_alloc h.current, addr_setAddr_self]
    simp
  have htwo := allocations_first hA
  have hstart := h.start
  refine ⟨?_, Fs.logged_current (Fs.alloc_current hcur₁), h.done, h.size, h.type, by omega,
    ?_, ?_, (hused₁.alloc hcur₁ hlay₁ hn hnfree).logged (Fs.alloc_current hcur₁)
      (hind.alloc hlay₁ hn hnfree) hindne, fun k hjk hkA => by omega, ?_, ?_⟩
  · rw [hmax', decide_eq_true (by omega)]
    exact hok₁.extend_entry (Nat.le_refl _) (by decide) hn hnfree
  · have hfree := hlay.free_alloc hm hmfree
    have hfree₁ := hlay₁.free_alloc hn hnfree
    have hsame : ((s.alloc m).allocEntry (ip.setAddr NDIRECT (BitVec.ofNat 32 m)) NDIRECT
        n).free = ((s.alloc m).alloc n).free := Fs.free_logged hindne
    have htotal := h.total
    omega
  · have hcard := Fs.card_alloc h.current hlay h.used hm hmfree
    rw [if_congr h.bitmap rfl rfl, h.card] at hcard
    rw [hblocks, insert_eq_of_mem hin,
      Fs.card_alloc hcur₁ hlay₁ hused₁ hn hnfree, if_pos hbit, hcard, htwo, allocBlocks_succ,
      allocBlocks_succ, if_pos (Nat.succ_pos _), if_neg (by omega : ¬ NDIRECT < A)]
    omega
  · rw [hblocks, Fs.blocks_alloc hcur₁, htwo]
    simp [Fs.allocEntry]
  · intro _
    rw [hblocks, htwo]
    simp

theorem stuck (h : Writing s₀ ip₀ A j₀ s ip j) (hA : A ≤ j) (he : j + 1 ≤ e)
    (hfree : s.free = 0) : Stuck s₀ A j₀ e s := by
  have htotal := h.total
  have hlack : allocations A j < allocations A (j + 1) := by
    by_cases hj : j = NDIRECT
    · rw [hj, allocations_first (by omega)]
      omega
    · rw [allocations_succ hA hj]
      omega
  refine ⟨h.current, h.done, ?_, ?_⟩
  · have hmono := allocations_mono (A := A) he
    omega
  · rw [h.card, Nat.min_eq_right hA, show s₀.free = allocations A j by omega]

theorem stuck_first (h : Writing s₀ ip₀ A j₀ s ip NDIRECT) (hA : A ≤ NDIRECT)
    (he : NDIRECT + 1 ≤ e) (hm : m < s.sb.size) (hmfree : s.used m = false)
    (hfree : (s.alloc m).free = 0) : Stuck s₀ A j₀ e (s.alloc m) := by
  have hlay := h.ok.toLayout
  have hone := hlay.free_alloc hm hmfree
  have htotal := h.total
  refine ⟨Fs.alloc_current h.current, h.done, ?_, ?_⟩
  · have hmono := allocations_mono (A := A) he
    rw [allocations_first hA] at hmono
    omega
  · rw [Fs.card_alloc h.current hlay h.used hm hmfree, if_congr h.bitmap rfl rfl, h.card,
      Nat.min_eq_right hA, show s₀.free = allocations A NDIRECT + 1 by omega, allocBlocks_succ,
      if_neg (by omega : ¬ NDIRECT < A)]
    omega

/-- One round of the loop: `bmap` and `log_write`. -/
theorem round (h : Writing s₀ ip₀ A j₀ s ip j) (hfile : j < MAXFILE) (he : j + 1 ≤ e)
    (hok : ∀ s' ip' b, (∀ d, Writing s₀ ip₀ A j₀ (s'.logged b d) ip' (j + 1)) →
      s'.current ≠ none → P (b, ip') s')
    (hstuck : ∀ s', Stuck s₀ A j₀ e s' → E .ballocOutOfBlocks s') : wp (bmap ip j) P E s := by
  -- a block that was just allocated is logged already
  have hnew : ∀ s' ip' b, Writing s₀ ip₀ A j₀ s' ip' (j + 1) → s'.fileBlock ip' j = b →
      b ∈ s'.blocks → P (b, ip') s' := by
    intro s' ip' b h' hb hmem
    subst hb
    exact hok s' ip' _ (fun d => h'.relog (by omega) hmem) h'.current
  apply bmap_wp h.ok h.current (by omega) hfile
  · intro hlt
    by_cases hj : j < A
    · exact hok s ip _ (fun d => h.touch hj) h.current
    · omega
  · exact fun hj hfree => hstuck s (h.stuck (by omega) he hfree)
  · intro hj hlt n hn hfree
    rw [← hj] at hlt ⊢
    refine hnew _ _ _ (h.direct (by omega) hlt hn hfree) ?_ ?_
    · rw [Fs.fileBlock, if_pos hlt, addr_setAddr_self]
    · rw [Fs.blocks_alloc h.current]
      simp
  · intro hj hlt n hn hfree
    rw [← hj] at hlt ⊢
    refine hnew _ _ _ (h.entry (by omega) hlt hfile hn hfree) ?_ ?_
    · rw [Fs.fileBlock, if_neg (by omega), Fs.allocEntry, Fs.logged_cache, update_self, update_self]
    · rw [Fs.blocks_allocEntry _ _ _ h.current, Fs.blocks_alloc h.current]
      simp
  · intro hj hN m hm hmfree
    have hjN : j = NDIRECT := by omega
    subst hjN
    refine ⟨fun hfree => hstuck _ (h.stuck_first (by omega) he hm hmfree hfree), ?_⟩
    intro n hn hnfree
    rw [← hj]
    refine hnew _ _ _ (h.first (by omega) hm hmfree hn hnfree) ?_ ?_
    · rw [Fs.fileBlock, if_neg (Nat.lt_irrefl _), Fs.allocEntry, Fs.logged_cache,
        update_self, update_self]
    · rw [Fs.blocks_allocEntry _ _ _ (Fs.alloc_current h.current),
        Fs.blocks_alloc (Fs.alloc_current h.current)]
      simp

theorem loop (h : Writing s₀ ip₀ A j₀ s ip j) (hfuel : k ≤ fuel)
    (hj : j = if 0 < k then off / BSIZE else blocksOf off) (hfit : off + k ≤ MAXFILE * BSIZE)
    (hok : ∀ s' ip', Writing s₀ ip₀ A j₀ s' ip' (blocksOf (off + k)) → P (ip', off + k) s')
    (hstuck : ∀ s', Stuck s₀ A j₀ (blocksOf (off + k)) s' → E .ballocOutOfBlocks s') :
    wp (writeiLoop fuel ip src off k) P E s := by
  induction fuel generalizing s ip src off k j with
  | zero =>
    obtain rfl : k = 0 := by omega
    rw [if_neg (Nat.lt_irrefl 0)] at hj
    exact hok s ip (hj ▸ h)
  | succ fuel ih =>
    refine wp_ite (fun hpos => ?_) (fun hzero => ?_)
    · rw [if_pos hpos] at hj
      generalize hm : min k (BSIZE - off % BSIZE) = m
      obtain ⟨hmpos, hmk, hnext, hmore⟩ := round_bytes hpos hm
      rw [← hj] at hnext hmore
      have hcover : j + 1 ≤ blocksOf (off + k) :=
        hnext ▸ blocksOf_mono (Nat.add_le_add_left hmk off)
      have hfile : j < MAXFILE := by
        rw [hj, Nat.div_lt_iff_lt_mul (by decide)]
        omega
      rw [wp_bind, ← hj]
      apply h.round hfile hcover _ hstuck
      intro s' ip' b hwrite hcur
      simp only [wp_bind, bread_wp]
      apply logWrite_wp hcur
      have hsum : off + m + (k - m) = off + k := by omega
      apply ih (hwrite _) (by omega)
      · by_cases hrest : 0 < k - m
        · rw [if_pos hrest]
          exact hmore hrest
        · rw [if_neg hrest]
          exact hnext
      · omega
      · rw [hsum]
        exact hok
      · rw [hsum]
        exact hstuck
    · obtain rfl : k = 0 := by omega
      rw [if_neg hzero] at hj
      exact hok s ip (hj ▸ h)

end Writing

/-! ### `writei` -/

/-- A regular file of a well-formed file system: it has the blocks that its size needs. -/
structure RegularFile (s : Fs) (ip : Inode) : Prop where
  type : ip.type = .file
  ok : FileOk s ip (blocksOf ip.size) (decide (NDIRECT < blocksOf ip.size))

/-- The state after a chunk, complete or not. -/
structure ChunkDone (s : Fs) (size off n : Nat) (s' : Fs) : Prop where
  current : s'.current ≠ none
  done : s'.done = s.done
  card : s'.blocks.card = chunkBlocks size off n s.free

section

variable {s s' : Fs} {ip ip' : Inode} {off n : Nat}

theorem RegularFile.size_le (h : RegularFile s ip) : ip.size ≤ MAXFILE * BSIZE := by
  have hmax := h.ok.max
  unfold blocksOf at hmax
  unfold BSIZE at *
  omega

theorem div_le_blocksOf (h : off ≤ n) : off / BSIZE ≤ blocksOf n := by
  unfold blocksOf BSIZE
  omega

theorem RegularFile.start (h : RegularFile s ip) (hcur : s.current = some [])
    (hoff : off ≤ ip.size) :
    Writing s ip (blocksOf ip.size) (off / BSIZE) s ip (off / BSIZE) := by
  have hle := div_le_blocksOf hoff
  have hmax : max (blocksOf ip.size) (off / BSIZE) = blocksOf ip.size := Nat.max_eq_left hle
  have hnone : allocations (blocksOf ip.size) (off / BSIZE) = 0 := allocations_of_le hle
  have hempty : s.blocks = ∅ := by simp [Fs.blocks, hcur]
  refine ⟨by rw [hmax]; exact h.ok, by simp [hcur], rfl, rfl, rfl, ⟨Nat.le_refl _, hle⟩, ?_, ?_,
    ?_, ?_, ?_, ?_⟩
  · rw [hnone]
    rfl
  · rw [hnone, hempty, Nat.min_eq_left hle, Nat.sub_self]
    rfl
  · intro x hx
    simp [hempty] at hx
  · simp [hempty]
  · simp [hempty, hnone]
  · simp [hempty, hnone]

theorem Stuck.chunkDone (h : Stuck s (blocksOf ip.size) (off / BSIZE) (blocksOf (off + n)) s') :
    ChunkDone s ip.size off n s' := by
  have hlack := h.lack
  have hgrow : blocksOf ip.size ≤ blocksOf (off + n) := by
    by_contra hlt
    rw [allocations_of_le (by omega)] at hlack
    omega
  refine ⟨h.current, h.done, ?_⟩
  unfold chunkBlocks
  rw [h.card, Nat.min_eq_right hgrow, Nat.min_eq_right (Nat.le_of_lt hlack), if_neg (by omega)]
  rfl

theorem Writing.chunkBlocks_eq (h : Writing s ip (blocksOf ip.size) (off / BSIZE) s' ip'
    (blocksOf (off + n))) : chunkBlocks ip.size off n s.free =
      s'.blocks.card + if ip.size < off + n then 1 else 0 := by
  have htotal := h.total
  have hroom : allocations (blocksOf ip.size) (blocksOf (off + n)) ≤ s.free := by omega
  unfold chunkBlocks
  rw [h.card, Nat.min_eq_left hroom]
  simp only [hroom, true_and]

/-- The inode block is not among the blocks logged so far. -/
theorem Writing.iblock (h : Writing s₀ ip₀ A j₀ s ip j) : s.sb.IBLOCK ip.inum ≠ s.sb.BBLOCK 0 ∧
      s.sb.IBLOCK ip.inum ∉ s.blocks ∧ ∀ b, s.DataBlock b → s.sb.IBLOCK ip.inum ≠ b := by
  have hinum := h.ok.inum
  have hroom := h.ok.room
  have hval : (s.sb.IBLOCK ip.inum).toNat < s.sb.bmapstart := by
    unfold Superblock.IBLOCK
    rw [h.ok.toNat_ofNat (by omega)]
    exact hinum
  refine ⟨?_, ?_, ?_⟩
  · intro hcon
    have hbit := h.ok.toNat_BBLOCK
    rw [← hcon] at hbit
    omega
  · intro hmem
    have habove := (h.used _ hmem).1
    omega
  · rintro b hb rfl
    have habove := hb.above
    omega

theorem iupdate_wp (hc : s.current ≠ none)
    (h : ∀ d, P () (s.logged (s.sb.IBLOCK ip.inum) d)) : wp (iupdate ip) P E s := by
  simp only [iupdate, wp_bind, wp_get, bread_wp]
  exact logWrite_wp hc (h _)

section

variable (h : Writing s ip (blocksOf ip.size) (off / BSIZE) s' ip' (blocksOf (off + n)))
  (htype : ip.type = .file)

include h htype

/-- The state after the loop and the update of the inode. -/
theorem Writing.finish (hgrow : ip.size < off + n) (d : Block) :
    RegularFile (s'.logged (s'.sb.IBLOCK ip'.inum) d) { ip' with size := off + n } ∧
      ChunkDone s ip.size off n (s'.logged (s'.sb.IBLOCK ip'.inum) d) := by
  obtain ⟨hbit, hmem, hdata⟩ := h.iblock
  have hmax : max (blocksOf ip.size) (blocksOf (off + n)) = blocksOf (off + n) :=
    Nat.max_eq_right (blocksOf_mono (Nat.le_of_lt hgrow))
  have hok := h.ok
  rw [hmax] at hok
  refine ⟨⟨h.type.trans htype, ?_⟩, ⟨Fs.logged_current h.current, h.done, ?_⟩⟩
  · exact (hok.logged (d := d) hbit fun hI => hdata _ (hok.ind hI).1).of_fileBlock
      (hok.toLayout.logged hbit) rfl rfl rfl (fun _ hb => hb) fun _ _ => rfl
  · rw [h.chunkBlocks_eq, if_pos hgrow, Fs.blocks_logged h.current, card_insert_of_notMem hmem]

/-- A chunk that stays within the file leaves the inode alone. -/
theorem Writing.finish_inside (hgrow : ¬ ip.size < off + n) :
    RegularFile s' ip' ∧ ChunkDone s ip.size off n s' := by
  have hmax : max (blocksOf ip.size) (blocksOf (off + n)) = blocksOf ip.size :=
    Nat.max_eq_left (blocksOf_mono (by omega))
  have hok := h.ok
  rw [hmax, ← h.size] at hok
  refine ⟨⟨h.type.trans htype, hok⟩, ⟨h.current, h.done, ?_⟩⟩
  rw [h.chunkBlocks_eq, if_neg hgrow]
  rfl

end

theorem writei_wp (h : RegularFile s ip)
    (hcur : s.current = some []) (hn : 0 < n) (hsmall : n < 2 ^ 31)
    (hreject : ip.size < off ∨ MAXFILE * BSIZE < off + n → P (-1, ip) s)
    (hok : off ≤ ip.size → off + n ≤ MAXFILE * BSIZE → ∀ s' ip', RegularFile s' ip' →
      ChunkDone s ip.size off n s' →
      allocations (blocksOf ip.size) (blocksOf (off + n)) ≤ s.free → P ((n : Int), ip') s')
    (hstuck : off ≤ ip.size → off + n ≤ MAXFILE * BSIZE → ∀ s',
      ChunkDone s ip.size off n s' → E .ballocOutOfBlocks s') :
    wp (writei ip src off n) P E s := by
  have hsize := h.size_le
  have hfile : MAXFILE * BSIZE = 70656 := rfl
  refine wp_ite (fun hdev => by rw [h.type] at hdev; cases hdev) fun _ => ?_
  refine wp_ite (fun hout => ?_) fun hin => ?_
  · apply hreject
    by_contra hfits
    rw [Nat.mod_eq_of_lt (by omega)] at hout
    omega
  have hmod : (off + n) % 2 ^ 32 = off + n := Nat.mod_eq_of_lt (by omega)
  rw [hmod]
  refine wp_ite (fun hbig => hreject (Or.inr hbig)) fun hfit => ?_
  have hoff : off ≤ ip.size := by omega
  have hfit' : off + n ≤ MAXFILE * BSIZE := by omega
  rw [wp_bind]
  apply (h.start hcur hoff).loop (Nat.le_refl n) (by rw [if_pos hn]) hfit'
  · intro s' ip' hw
    have htotal := hw.total
    have hroom : allocations (blocksOf ip.size) (blocksOf (off + n)) ≤ s.free := by omega
    refine wp_ite (fun hgrow => ?_) fun hgrow => ?_
    · rw [hw.size] at hgrow
      rw [wp_bind]
      refine iupdate_wp hw.current fun d => ?_
      obtain ⟨hreg, hdone⟩ := hw.finish h.type hgrow.2 d
      exact hok hoff hfit' _ _ hreg hdone hroom
    · rw [hw.size] at hgrow
      obtain ⟨hreg, hdone⟩ := hw.finish_inside h.type (by omega)
      exact hok hoff hfit' _ _ hreg hdone hroom
  · exact fun s' hs => hstuck hoff hfit' s' hs.chunkDone

end

/-! ### `filewrite` -/

/-- The number of distinct blocks that a transaction logs. -/
def distinctBlocks (tx : List (BlockNo × Block)) : Nat := (tx.map Prod.fst).toFinset.card

/-- Every transaction keeps within the reservation that `begin_op` makes for it. -/
def Fs.WithinReservation (s : Fs) : Prop :=
  ∀ tx ∈ s.transactions, distinctBlocks tx ≤ MAXOPBLOCKS

/-- The size of the first chunk. -/
def firstChunk (n : Int) : Nat := (if maxChunk < n then maxChunk else n).toNat

/-- `writei` rejects the first chunk, or the chunk logs few enough blocks. -/
def ChunkFits (s : Fs) (f : File) (n : Int) : Prop :=
  f.ip.size < f.off ∨ MAXFILE * BSIZE < f.off + firstChunk n ∨
    chunkBlocks f.ip.size f.off (firstChunk n) s.free ≤ MAXOPBLOCKS

section

variable {s : Fs} {f : File} {addr : Nat → Byte} {n : Int}

theorem RegularFile.setTrans (h : RegularFile s ip)
    (cur : Option (List (BlockNo × Block))) (done : List (List (BlockNo × Block))) :
    RegularFile { s with current := cur, done := done } ip :=
  ⟨h.type, h.ok.of_fileBlock ⟨h.ok.one, h.ok.room, h.ok.metadata⟩ rfl rfl rfl
    (fun _ hb => ⟨hb.above, hb.below, hb.used⟩) fun _ _ => rfl⟩

theorem ChunkDone.transaction (h : ChunkDone s size off k s') :
    ∃ tx, s'.current = some tx ∧ distinctBlocks tx = chunkBlocks size off k s.free := by
  obtain ⟨tx, htx⟩ := Option.ne_none_iff_exists'.mp h.current
  refine ⟨tx, htx, ?_⟩
  rw [← h.card, Fs.blocks, htx]
  rfl

/-- One round of the loop. -/
theorem filewriteLoop_wp (h : RegularFile s f.ip) (hi : i < n) (hk : k = firstChunk (n - i))
    (hreject : f.ip.size < f.off ∨ MAXFILE * BSIZE < f.off + k → ∀ s' f',
      s'.done = s.done ++ [[]] → s'.current = none → P (i, f') s')
    (hok : f.off ≤ f.ip.size → f.off + k ≤ MAXFILE * BSIZE → ∀ s' f' tx,
      RegularFile s' f'.ip → s'.done = s.done ++ [tx] → s'.current = none →
      distinctBlocks tx = chunkBlocks f.ip.size f.off k s.free →
      allocations (blocksOf f.ip.size) (blocksOf (f.off + k)) ≤ s.free →
      wp (filewriteLoop fuel f' addr n (i + k)) P E s')
    (hstuck : f.off ≤ f.ip.size → f.off + k ≤ MAXFILE * BSIZE → ∀ s' tx, s'.done = s.done →
      s'.current = some tx → distinctBlocks tx = chunkBlocks f.ip.size f.off k s.free →
      E .ballocOutOfBlocks s') :
    wp (filewriteLoop (fuel + 1) f addr n i) P E s := by
  have hmax : maxChunk = 6656 := rfl
  generalize hn1 : (if maxChunk < n - i then maxChunk else n - i) = n1
  have hcast : (k : Int) = n1 := by
    rw [hk, firstChunk, hn1]
    apply Int.toNat_of_nonneg
    split_ifs at hn1 <;> omega
  have hpos : 0 < k := by split_ifs at hn1 <;> omega
  have hsmall : k < 2 ^ 31 := by split_ifs at hn1 <;> omega
  have hreg := h.setTrans (some []) s.done
  unfold filewriteLoop
  rw [if_pos hi, hn1]
  simp only [beginOp, endOp, wp_bind, wp_modify]
  rw [← hcast, Int.toNat_natCast]
  apply writei_wp hreg rfl hpos hsmall
  · intro hout
    rw [if_pos (by simp)]
    exact hreject hout _ _ rfl rfl
  · intro hoff hfit s' ip' hreg' hdone hroom
    obtain ⟨tx, htx, hcard⟩ := hdone.transaction
    rw [if_neg (by omega), if_neg (by simp)]
    exact hok hoff hfit _ _ tx (hreg'.setTrans none _)
      (by simp only [htx, Option.toList_some, hdone.done]) rfl hcard hroom
  · intro hoff hfit s' hdone
    obtain ⟨tx, htx, hcard⟩ := hdone.transaction
    exact hstuck hoff hfit s' tx hdone.done htx hcard

/-- Later rounds keep the transactions of earlier ones. -/
theorem filewriteLoop_keeps (h : RegularFile s f.ip)
    (hdone : tx ∈ s.done) : wp (filewriteLoop fuel f addr n i)
      (fun _ s' => tx ∈ s'.transactions) (fun _ s' => tx ∈ s'.transactions) s := by
  have hhas : ∀ s' : Fs, tx ∈ s'.done → tx ∈ s'.transactions := fun s' hs' =>
    List.mem_append_left _ hs'
  induction fuel generalizing s f i with
  | zero => exact hhas s hdone
  | succ fuel ih =>
    by_cases hi : i < n
    · apply filewriteLoop_wp h hi rfl
      · intro _ s' f' hs' _
        exact hhas s' (by rw [hs']; exact List.mem_append_left _ hdone)
      · intro _ _ s' f' tx' hreg hs' _ _ _
        exact ih hreg (by rw [hs']; exact List.mem_append_left _ hdone)
      · intro _ _ s' tx' hs' _ _
        exact hhas s' (by rw [hs']; exact hdone)
    · unfold filewriteLoop
      rw [if_neg hi]
      exact hhas s hdone

theorem withinReservation_single {s' : Fs} {tx : List (BlockNo × Block)}
    (h : s'.transactions = [tx]) : s'.WithinReservation ↔ distinctBlocks tx ≤ MAXOPBLOCKS := by
  simp [Fs.WithinReservation, h]

theorem maxChunk_exceeds
    (h : allocations (blocksOf size) (blocksOf (off + maxChunk.toNat)) ≤ free) :
    MAXOPBLOCKS < chunkBlocks size off maxChunk.toNat free :=
  Nat.lt_of_lt_of_le (by decide) (le_chunkBlocks h)

theorem ChunkFits.iff_le (hoff : f.off ≤ f.ip.size)
    (hfit : f.off + firstChunk n ≤ MAXFILE * BSIZE) : ChunkFits s f n ↔
      chunkBlocks f.ip.size f.off (firstChunk n) s.free ≤ MAXOPBLOCKS := by
  unfold ChunkFits
  omega

/-- The loop of `filewrite` keeps within the reservation exactly when the first chunk does:
    a write of more than one chunk fails in its first one. -/
theorem filewriteLoop_within (h : RegularFile s f.ip) (hdone : s.done = []) (hn : 0 < n) :
    wp (filewriteLoop n.toNat f addr n 0) (fun _ s' => s'.WithinReservation ↔ ChunkFits s f n)
      (fun _ s' => s'.WithinReservation ↔ ChunkFits s f n) s := by
  obtain ⟨fuel, hfuel⟩ : ∃ fuel, n.toNat = fuel + 1 := ⟨n.toNat - 1, by omega⟩
  rw [hfuel]
  apply filewriteLoop_wp h hn (by rw [Int.sub_zero])
  · intro hout s' f' hs' hc'
    have htx : s'.transactions = [[]] := by simp [Fs.transactions, hs', hc', hdone]
    rw [withinReservation_single htx]
    exact iff_of_true (by decide) (hout.imp_right Or.inl)
  · intro hoff hfit s' f' tx hreg hs' hc' hcard hroom
    rw [hdone, List.nil_append] at hs'
    by_cases hlong : maxChunk < n
    · -- a full chunk is more than the reservation
      have hchunk : firstChunk n = maxChunk.toNat := by rw [firstChunk, if_pos hlong]
      have hexceeds : MAXOPBLOCKS < distinctBlocks tx := by
        rw [hchunk] at hcard hroom
        rw [hcard]
        exact maxChunk_exceeds hroom
      have hnot : ∀ s'' : Fs, tx ∈ s''.transactions →
          (s''.WithinReservation ↔ ChunkFits s f n) := by
        intro s'' hmem
        rw [ChunkFits.iff_le hoff hfit, ← hcard]
        exact iff_of_false (fun hall => Nat.not_le.mpr hexceeds (hall tx hmem))
          (Nat.not_le.mpr hexceeds)
      exact wp_mono (filewriteLoop_keeps hreg (by simp [hs'])) (fun _ s'' => hnot s'')
        fun _ s'' => hnot s''
    · have hchunk : (firstChunk n : Int) = n := by
        rw [firstChunk, if_neg hlong]
        omega
      have htx : s'.transactions = [tx] := by simp [Fs.transactions, hs', hc']
      have hpost : s'.WithinReservation ↔ ChunkFits s f n := by
        rw [withinReservation_single htx, hcard, ChunkFits.iff_le hoff hfit]
      rw [Int.zero_add, hchunk]
      cases fuel with
      | zero => exact hpost
      | succ fuel =>
        unfold filewriteLoop
        rw [if_neg (by omega)]
        exact hpost
  · intro hoff hfit s' tx hs' hc' hcard
    have htx : s'.transactions = [tx] := by simp [Fs.transactions, hs', hc', hdone]
    rw [withinReservation_single htx, hcard, ChunkFits.iff_le hoff hfit]

/-- The transactions of `filewrite` keep within the reservation if and only if nothing is
    written or the first chunk, which has at most `maxChunk` bytes, logs at most
    `MAXOPBLOCKS` distinct blocks. -/
theorem filewrite_within_reservation_iff {pipewrite : FsM Int} (h : RegularFile s f.ip)
    (hcur : s.current = none) (hdone : s.done = []) (hf : f.type = .inode) :
    (finalState (filewrite pipewrite f addr n) s).WithinReservation ↔
      f.writable = false ∨ n ≤ 0 ∨ ChunkFits s f n := by
  have hnone : s.WithinReservation := by simp [Fs.WithinReservation, Fs.transactions, hcur, hdone]
  apply finalState_of_wp
    (R := fun s' : Fs => s'.WithinReservation ↔ f.writable = false ∨ n ≤ 0 ∨ ChunkFits s f n)
  refine wp_ite (fun hw => iff_of_true hnone (Or.inl hw)) fun hw => ?_
  rw [hf, wp_bind]
  by_cases hn : 0 < n
  · have hcond : (f.writable = false ∨ n ≤ 0 ∨ ChunkFits s f n) ↔ ChunkFits s f n := by
      rw [or_iff_right hw, or_iff_right (by omega)]
    rw [hcond]
    exact wp_mono (filewriteLoop_within h hdone hn) (fun _ _ hs' => hs') fun _ _ hs' => hs'
  · rw [show n.toNat = 0 by omega]
    exact iff_of_true hnone (Or.inr (Or.inl (by omega)))

end

/-- The free map of a file system as `mkfs` lays it out, with no data block in use. -/
def freshBitmap : Block := fun w =>
  if w.val = 0 then 0xffffffff else if w.val = 1 then 0x7ffffff else 0

def freshFs : Fs where
  sb := { size := 2000, ninodes := 200, inodestart := 32, bmapstart := 58 }
  devsw := fun _ => none
  devswRead := fun _ => none
  cache := fun b => if b = 58 then freshBitmap else Block.zero
  current := none
  done := []

def emptyFile : Inode where
  inum := 2
  type := .file
  major := 0
  minor := 0
  nlink := 1
  uid := 0
  gid := 0
  mode := 0o755
  size := 0
  addrs := fun _ => 0

/-- A descriptor of the empty file, open for writing. -/
def emptyFd : File := { type := .inode, writable := true, ip := emptyFile, off := 0 }

theorem emptyFile_regular : RegularFile freshFs emptyFile := by
  refine ⟨rfl, ⟨by decide, by decide, by decide +kernel⟩, by decide, by decide, ?_, ?_, ?_, ?_, ?_⟩
  · exact fun j hj => absurd hj (Nat.not_lt_zero j)
  · exact fun i _ hi => absurd hi (Nat.not_lt_zero i)
  · exact fun hI => absurd hI (by decide)
  · exact fun _ => ⟨rfl, by decide⟩
  · intro j _ _ hj
    have hlt : j < NDIRECT := hj.resolve_right (by decide)
    rw [Fs.fileBlock, if_pos hlt]
    rfl

/-- One block fits. -/
theorem filewrite_within_reservation_iff_block : RegularFile freshFs emptyFile ∧
      (finalState (filewrite (pure 0) emptyFd (fun _ => 7) 512) freshFs).WithinReservation :=
  ⟨emptyFile_regular, (filewrite_within_reservation_iff emptyFile_regular rfl rfl rfl).mpr
    (Or.inr (Or.inr (Or.inr (Or.inr (by decide +kernel)))))⟩

instance (s : Fs) : Decidable s.WithinReservation :=
  inferInstanceAs (Decidable (∀ tx ∈ s.transactions, distinctBlocks tx ≤ MAXOPBLOCKS))

/-- A full chunk does not: thirteen data blocks, the indirect block, the free map and the
    inode. -/
theorem filewrite_exceeds_reservation : RegularFile freshFs emptyFile ∧
      ¬ (finalState (filewrite (pure 0) emptyFd (fun _ => 7) 6656) freshFs).WithinReservation :=
  ⟨emptyFile_regular, by decide +kernel⟩

end Xv6Kernel
