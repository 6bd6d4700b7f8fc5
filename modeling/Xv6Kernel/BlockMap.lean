/-
  BlockMap.lean
  =============
  The free map and the blocks of a file.

  `FileOk s ip A I` says that the file has exactly the blocks with index below `A`, that
  they are distinct data blocks in use, and that it has an indirect block if `I` holds.
  `balloc` picks a block that is not in use, so the file stays well formed when the block
  is entered as its next one.
-/
import Xv6Kernel.FsModel

namespace Xv6Kernel

open PanicMonad Function

/-! ### Bits -/

namespace Block

variable {b : Block} {i j : Nat}

/-- Bits of different words. -/
theorem word_ne (hi : i < BPB) (hj : j < BPB) (hw : j / 32 ≠ i / 32) :
    Fin.ofNat NINDIRECT (j / 32) ≠ Fin.ofNat NINDIRECT (i / 32) := by
  have hbpb : BPB = 4096 := rfl
  have hn : NINDIRECT = 128 := rfl
  intro hcon
  have hval := congrArg Fin.val hcon
  rw [Fin.val_ofNat, Fin.val_ofNat, Nat.mod_eq_of_lt (by omega), Nat.mod_eq_of_lt (by omega)]
    at hval
  exact hw hval

theorem testBit_setBit (hi : i < BPB) (hj : j < BPB) :
    (b.setBit i).testBit j = (b.testBit j || decide (j = i)) := by
  unfold setBit testBit
  by_cases hw : j / 32 = i / 32
  · rw [hw, update_self, BitVec.getLsbD_or, BitVec.getLsbD_twoPow]
    congr 1
    rw [decide_eq_true (show i % 32 < 32 by omega), Bool.true_and, decide_eq_decide]
    omega
  · have hij : j ≠ i := by
      rintro rfl
      exact hw rfl
    rw [update_of_ne (word_ne hi hj hw), decide_eq_false hij, Bool.or_false]

end Block

/-! ### The free map -/

namespace Fs

variable {s : Fs} {b : BlockNo} {n x : Nat}

def used (s : Fs) (b : Nat) : Bool := (s.cache (s.sb.BBLOCK 0)).testBit b

/-- The number of blocks that are not in use. -/
def free (s : Fs) : Nat := ((Finset.range s.sb.size).filter fun b => s.used b = false).card

/-- The free map is one block, and the blocks up to it are in use. -/
structure Layout (s : Fs) : Prop where
  one : s.sb.size ≤ BPB
  room : s.sb.bmapstart < s.sb.size
  metadata : ∀ b, b ≤ s.sb.bmapstart → s.used b = true

/-- A block after the free map that is in use. -/
structure DataBlock (s : Fs) (b : BlockNo) : Prop where
  above : s.sb.bmapstart < b.toNat
  below : b.toNat < s.sb.size
  used : s.used b.toNat = true

/-- The state after `balloc` has returned block `n`. -/
def alloc (s : Fs) (n : Nat) : Fs :=
  (s.logged (s.sb.BBLOCK 0) ((s.cache (s.sb.BBLOCK 0)).setBit n)).logged
    (BitVec.ofNat 32 n) Block.zero

@[simp] theorem logged_sb : (s.logged b d).sb = s.sb := rfl

@[simp] theorem logged_cache : (s.logged b d).cache = update s.cache b d := rfl

@[simp] theorem logged_done : (s.logged b d).done = s.done := rfl

@[simp] theorem alloc_sb : (s.alloc n).sb = s.sb := rfl

@[simp] theorem alloc_done : (s.alloc n).done = s.done := rfl

theorem logged_current (h : s.current ≠ none) : (s.logged b d).current ≠ none := by
  simpa [logged] using h

theorem alloc_current (h : s.current ≠ none) : (s.alloc n).current ≠ none :=
  logged_current (logged_current h)

theorem used_logged (h : b ≠ s.sb.BBLOCK 0) : (s.logged b d).used x = s.used x := by
  unfold used
  rw [logged_cache, logged_sb, update_of_ne h.symm]

theorem free_logged (h : b ≠ s.sb.BBLOCK 0) : (s.logged b d).free = s.free := by
  unfold free
  simp only [used_logged h, logged_sb]

namespace Layout

theorem toNat_BBLOCK (h : Layout s) : (s.sb.BBLOCK 0).toNat = s.sb.bmapstart := by
  have hone := h.one
  have hroom := h.room
  have hbpb : BPB = 4096 := rfl
  unfold Superblock.BBLOCK
  rw [Nat.zero_div, Nat.zero_add, BitVec.toNat_ofNat]
  omega

theorem toNat_ofNat (h : Layout s) (hn : n < s.sb.size) : (BitVec.ofNat 32 n).toNat = n := by
  have hone := h.one
  have hbpb : BPB = 4096 := rfl
  rw [BitVec.toNat_ofNat]
  omega

theorem logged (h : Layout s) (hb : b ≠ s.sb.BBLOCK 0) : Layout (s.logged b d) :=
  ⟨h.one, h.room, fun x hx => (used_logged hb).trans (h.metadata x hx)⟩

theorem above_of_not_used (h : Layout s) (hn : s.used n = false) : s.sb.bmapstart < n := by
  by_contra hle
  have hused := h.metadata n (by omega)
  rw [hn] at hused
  cases hused

variable (h : Layout s) (hlt : n < s.sb.size) (hn : s.used n = false)

include h hlt hn

theorem ofNat_ne_BBLOCK : BitVec.ofNat 32 n ≠ s.sb.BBLOCK 0 := by
  intro hcon
  have hval := congrArg BitVec.toNat hcon
  rw [h.toNat_ofNat hlt, h.toNat_BBLOCK] at hval
  exact absurd (h.above_of_not_used hn) (by omega)

theorem used_alloc (hx : x < s.sb.size) : (s.alloc n).used x = (s.used x || decide (x = n)) := by
  have hone := h.one
  have hne : BitVec.ofNat 32 n ≠ (s.logged (s.sb.BBLOCK 0)
      ((s.cache (s.sb.BBLOCK 0)).setBit n)).sb.BBLOCK 0 := h.ofNat_ne_BBLOCK hlt hn
  unfold Fs.alloc
  rw [used_logged hne]
  unfold used
  rw [logged_cache, logged_sb, update_self, Block.testBit_setBit (by omega) (by omega)]

theorem alloc : Layout (s.alloc n) := by
  refine ⟨h.one, h.room, ?_⟩
  intro x hx
  rw [h.used_alloc hlt hn (Nat.lt_of_le_of_lt hx h.room), h.metadata x hx, Bool.true_or]

theorem free_alloc : (s.alloc n).free + 1 = s.free := by
  have herase : ((Finset.range s.sb.size).filter fun b => (s.alloc n).used b = false) =
      ((Finset.range s.sb.size).filter fun b => s.used b = false).erase n := by
    ext x
    simp only [Finset.mem_filter, Finset.mem_range, Finset.mem_erase]
    constructor
    · rintro ⟨hx, hfree⟩
      rw [h.used_alloc hlt hn hx, Bool.or_eq_false_iff, decide_eq_false_iff_not] at hfree
      exact ⟨hfree.2, hx, hfree.1⟩
    · rintro ⟨hne, hx, hfree⟩
      rw [h.used_alloc hlt hn hx, hfree, decide_eq_false hne]
      exact ⟨hx, rfl⟩
  have hmem : n ∈ (Finset.range s.sb.size).filter fun b => s.used b = false :=
    Finset.mem_filter.mpr ⟨Finset.mem_range.mpr hlt, hn⟩
  unfold free
  rw [alloc_sb, herase]
  exact Finset.card_erase_add_one hmem

end Layout

section

variable (h : s.DataBlock b)

include h

theorem DataBlock.ne_BBLOCK (hl : Layout s) : b ≠ s.sb.BBLOCK 0 := by
  rintro rfl
  exact absurd h.above (by rw [hl.toNat_BBLOCK]; omega)

theorem DataBlock.ne_zero : b ≠ 0 := by
  rintro rfl
  exact absurd h.above (by simp)

theorem DataBlock.ne_ofNat (hl : Layout s) (hlt : n < s.sb.size)
    (hn : s.used n = false) : b ≠ BitVec.ofNat 32 n := by
  rintro rfl
  have hused := h.used
  rw [hl.toNat_ofNat hlt, hn] at hused
  cases hused

theorem DataBlock.logged (hc : c ≠ s.sb.BBLOCK 0) : (s.logged c d).DataBlock b :=
  ⟨h.above, h.below, (used_logged hc).trans h.used⟩

theorem DataBlock.alloc (hl : Layout s) (hlt : n < s.sb.size)
    (hn : s.used n = false) : (s.alloc n).DataBlock b := by
  refine ⟨h.above, h.below, ?_⟩
  rw [hl.used_alloc hlt hn h.below, h.used, Bool.true_or]

end

theorem dataBlock_alloc (hl : Layout s) (hlt : n < s.sb.size) (hn : s.used n = false) :
    (s.alloc n).DataBlock (BitVec.ofNat 32 n) := by
  have hval := hl.toNat_ofNat hlt
  refine ⟨?_, ?_, ?_⟩
  · rw [hval]
    exact hl.above_of_not_used hn
  · rw [hval]
    exact hlt
  · rw [hval, hl.used_alloc hlt hn hlt]
    simp

end Fs

/-! ### `balloc` -/

section

theorem bread_wp : wp (bread b) P E s ↔ P (s.cache b) s := Iff.rfl

theorem logWrite_wp (hc : s.current ≠ none)
    (h : P () (s.logged b d)) : wp (logWrite b d) P E s := by
  simp only [logWrite, wp_bind, wp_get]
  exact wp_ite (fun hnone => absurd hnone hc) fun _ => h

theorem balloc_wp (hl : s.Layout) (hc : s.current ≠ none)
    (hfull : s.free = 0 → E .ballocOutOfBlocks s)
    (hok : ∀ n, n < s.sb.size → s.used n = false → P (BitVec.ofNat 32 n) (s.alloc n)) :
    wp balloc P E s := by
  have hone := hl.one
  have hroom := hl.room
  have hbpb : BPB = 4096 := rfl
  have hblocks : (List.range ((s.sb.size + BPB - 1) / BPB)).map (· * BPB) = [0] := by
    have hcount : (s.sb.size + BPB - 1) / BPB = 1 := by
      rw [hbpb] at hone ⊢
      omega
    rw [hcount]
    rfl
  simp only [balloc, wp_bind, wp_get, hblocks, ballocFrom, bread_wp]
  rw [Nat.sub_zero, Nat.min_eq_right hone]
  cases hfind : (List.range s.sb.size).find? fun bi => !(s.cache (s.sb.BBLOCK 0)).testBit bi with
  | none =>
    apply hfull
    have hall := List.find?_eq_none.mp hfind
    refine Finset.card_eq_zero.mpr (Finset.filter_eq_empty_iff.mpr ?_)
    intro n hn hfree
    have hused := hall n (List.mem_range.mpr (Finset.mem_range.mp hn))
    unfold Fs.used at hfree
    simp [hfree] at hused
  | some n =>
    have hfree : s.used n = false := by simpa [Fs.used] using List.find?_some hfind
    have hlt : n < s.sb.size := List.mem_range.mp (List.mem_of_find?_eq_some hfind)
    simp only [wp_bind, Nat.zero_add]
    apply logWrite_wp hc
    rw [wp_bind]
    apply logWrite_wp (Fs.logged_current hc)
    exact hok n hlt hfree

end

/-! ### The blocks of a file -/

namespace Fs

/-- The block with index `j`, or 0. -/
def fileBlock (s : Fs) (ip : Inode) (j : Nat) : BlockNo :=
  if j < NDIRECT then ip.addr j
  else s.cache (ip.addr NDIRECT) (Fin.ofNat NINDIRECT (j - NDIRECT))

/-- The state after `bmap` has entered block `n` into the indirect block. -/
def allocEntry (s : Fs) (ip : Inode) (j n : Nat) : Fs :=
  (s.alloc n).logged (ip.addr NDIRECT)
    (update ((s.alloc n).cache (ip.addr NDIRECT)) (Fin.ofNat NINDIRECT (j - NDIRECT))
      (BitVec.ofNat 32 n))

end Fs

structure FileOk (s : Fs) (ip : Inode) (A : Nat) (I : Bool) : Prop extends Fs.Layout s where
  max : A ≤ MAXFILE
  inum : ip.inum / IPB + s.sb.inodestart < s.sb.bmapstart
  data : ∀ j, j < A → s.DataBlock (s.fileBlock ip j)
  inj : ∀ i j, i < A → j < A → s.fileBlock ip i = s.fileBlock ip j → i = j
  ind : I = true → s.DataBlock (ip.addr NDIRECT) ∧ ∀ j, j < A → s.fileBlock ip j ≠ ip.addr NDIRECT
  noInd : I = false → ip.addr NDIRECT = 0 ∧ A ≤ NDIRECT
  zero : ∀ j, A ≤ j → j < MAXFILE → j < NDIRECT ∨ I = true → s.fileBlock ip j = 0

section

variable {s : Fs} {ip : Inode} {n A : Nat} {I : Bool}

theorem fileBlock_logged (h : j < NDIRECT ∨ b ≠ ip.addr NDIRECT) :
    (s.logged b d).fileBlock ip j = s.fileBlock ip j := by
  unfold Fs.fileBlock
  rw [Fs.logged_cache]
  by_cases hj : j < NDIRECT
  · rw [if_pos hj, if_pos hj]
  · rw [if_neg hj, if_neg hj, update_of_ne (h.resolve_left hj).symm]

theorem addr_setAddr_self : (ip.setAddr i b).addr i = b := update_self _ _ _

theorem addr_setAddr_of_ne (hi : i ≤ NDIRECT) (hj : j ≤ NDIRECT) (hne : j ≠ i) :
    (ip.setAddr i b).addr j = ip.addr j := by
  apply update_of_ne
  intro hcon
  have hval := congrArg Fin.val hcon
  rw [Fin.val_ofNat, Fin.val_ofNat, Nat.mod_eq_of_lt (by omega), Nat.mod_eq_of_lt (by omega)]
    at hval
  exact hne hval

namespace FileOk

section

variable (h : FileOk s ip A I)

include h

theorem lt_or (hj : j < A) : j < NDIRECT ∨ I = true := by
  cases hI : I with
  | true => exact Or.inr rfl
  | false =>
    have hle := (h.noInd hI).2
    exact Or.inl (by omega)

/-- The part of the invariant that depends on where the blocks are only. -/
theorem of_fileBlock (hl : s'.Layout)
    (hsb : s'.sb = s.sb) (hinum : ip'.inum = ip.inum) (hind : ip'.addr NDIRECT = ip.addr NDIRECT)
    (hdata : ∀ b, s.DataBlock b → s'.DataBlock b)
    (hblock : ∀ j, j < NDIRECT ∨ I = true → s'.fileBlock ip' j = s.fileBlock ip j) :
    FileOk s' ip' A I where
  toLayout := hl
  max := h.max
  inum := by
    rw [hsb, hinum]
    exact h.inum
  data := fun j hj => by
    rw [hblock j (h.lt_or hj)]
    exact hdata _ (h.data j hj)
  inj := fun i j hi hj heq => by
    rw [hblock i (h.lt_or hi), hblock j (h.lt_or hj)] at heq
    exact h.inj i j hi hj heq
  ind := fun hI => by
    rw [hind]
    refine ⟨hdata _ (h.ind hI).1, ?_⟩
    intro j hj
    rw [hblock j (h.lt_or hj)]
    exact (h.ind hI).2 j hj
  noInd := fun hI => by
    rw [hind]
    exact h.noInd hI
  zero := fun j hA hmax hj => by
    rw [hblock j hj]
    exact h.zero j hA hmax hj

/-- Writing any block but the free map and the indirect block. -/
theorem logged (hb : b ≠ s.sb.BBLOCK 0)
    (hi : I = true → b ≠ ip.addr NDIRECT) : FileOk (s.logged b d) ip A I :=
  h.of_fileBlock (h.toLayout.logged hb) rfl rfl rfl (fun _ hc => hc.logged hb)
    fun _ hj => fileBlock_logged (hj.imp_right hi)

theorem logged_data (hj : j < A) : FileOk (s.logged (s.fileBlock ip j) d) ip A I :=
  h.logged ((h.data j hj).ne_BBLOCK h.toLayout) fun hI => (h.ind hI).2 j hj

/-! ### New blocks -/

variable (hlt : n < s.sb.size) (hn : s.used n = false)

include hlt hn

theorem fileBlock_alloc
    (hj : j < NDIRECT ∨ I = true) : (s.alloc n).fileBlock ip j = s.fileBlock ip j := by
  unfold Fs.alloc
  rw [fileBlock_logged, fileBlock_logged]
  · exact hj.imp_right fun hI => ((h.ind hI).1.ne_BBLOCK h.toLayout).symm
  · exact hj.imp_right fun hI => ((h.ind hI).1.ne_ofNat h.toLayout hlt hn).symm

/-- `balloc` leaves the file alone. -/
theorem alloc : FileOk (s.alloc n) ip A I := h.of_fileBlock (h.toLayout.alloc hlt hn) rfl rfl rfl
    (fun _ hb => hb.alloc h.toLayout hlt hn) fun _ hj => h.fileBlock_alloc hlt hn hj

theorem fileBlock_ne (hj : j < A) : s.fileBlock ip j ≠ BitVec.ofNat 32 n :=
  (h.data j hj).ne_ofNat h.toLayout hlt hn

end

/-- A block that is entered as the next one. -/
theorem extend (h : FileOk s' ip A I) (hA : A < MAXFILE)
    (hAI : A < NDIRECT ∨ I = true) (hl : s.Layout) (hsb : s.sb = s'.sb)
    (hinum : ip'.inum = ip.inum) (hind : ip'.addr NDIRECT = ip.addr NDIRECT)
    (hdata : ∀ b, s'.DataBlock b → s.DataBlock b) (hb : s'.DataBlock b)
    (hfresh : ∀ j, j < A → s'.fileBlock ip j ≠ b) (hbind : I = true → b ≠ ip.addr NDIRECT)
    (hnew : s.fileBlock ip' A = b) (hold : ∀ j, j ≠ A → j < MAXFILE → j < NDIRECT ∨ I = true →
      s.fileBlock ip' j = s'.fileBlock ip j) : FileOk s ip' (A + 1) I := by
  have hkeep : ∀ j, j < A → s.fileBlock ip' j = s'.fileBlock ip j := fun j hj =>
    hold j (by omega) (by omega) (h.lt_or hj)
  have hcases : ∀ j, j < A + 1 → j < A ∨ j = A := fun j hj => by omega
  refine ⟨hl, hA, ?_, ?_, ?_, ?_, ?_, ?_⟩
  · rw [hsb, hinum]
    exact h.inum
  · intro j hj
    rcases hcases j hj with hj | rfl
    · rw [hkeep j hj]
      exact hdata _ (h.data j hj)
    · rw [hnew]
      exact hdata _ hb
  · intro i j hi hj heq
    rcases hcases i hi with hi | rfl <;> rcases hcases j hj with hj | rfl
    · rw [hkeep i hi, hkeep j hj] at heq
      exact h.inj i j hi hj heq
    · rw [hkeep i hi, hnew] at heq
      exact absurd heq (hfresh i hi)
    · rw [hkeep j hj, hnew] at heq
      exact absurd heq.symm (hfresh j hj)
    · rfl
  · intro hI
    rw [hind]
    refine ⟨hdata _ (h.ind hI).1, ?_⟩
    intro j hj
    rcases hcases j hj with hj | rfl
    · rw [hkeep j hj]
      exact (h.ind hI).2 j hj
    · rw [hnew]
      exact hbind hI
  · intro hI
    rw [hind]
    refine ⟨(h.noInd hI).1, ?_⟩
    rcases hAI with hlt | htrue
    · exact hlt
    · rw [hI] at htrue
      cases htrue
  · intro j hA' hmax hj
    rw [hold j (by omega) hmax hj]
    exact h.zero j (by omega) hmax hj

theorem extend_direct (h : FileOk s ip A I) (hA : A < NDIRECT) (hlt : n < s.sb.size)
    (hn : s.used n = false) : FileOk (s.alloc n) (ip.setAddr A (BitVec.ofNat 32 n)) (A + 1) I := by
  have hN : NDIRECT ≤ MAXFILE := by decide
  have hind : (ip.setAddr A (BitVec.ofNat 32 n)).addr NDIRECT = ip.addr NDIRECT :=
    addr_setAddr_of_ne (by omega) (by omega) (by omega)
  refine (h.alloc hlt hn).extend (by omega) (Or.inl hA) (h.toLayout.alloc hlt hn) rfl rfl hind
    (fun _ hb => hb) (Fs.dataBlock_alloc h.toLayout hlt hn) ?_ ?_ ?_ ?_
  · intro j hj
    rw [h.fileBlock_alloc hlt hn (h.lt_or hj)]
    exact h.fileBlock_ne hlt hn hj
  · exact fun hI => ((h.ind hI).1.ne_ofNat h.toLayout hlt hn).symm
  · unfold Fs.fileBlock
    rw [if_pos hA, addr_setAddr_self]
  · intro j hj _ _
    unfold Fs.fileBlock
    rw [hind]
    by_cases hlt : j < NDIRECT
    · rw [if_pos hlt, if_pos hlt, addr_setAddr_of_ne (by omega) (by omega) hj]
    · rw [if_neg hlt, if_neg hlt]

/-- The indirect block is allocated; it is empty. -/
theorem add_indirect (h : FileOk s ip A false) (hlt : n < s.sb.size) (hn : s.used n = false) :
    FileOk (s.alloc n) (ip.setAddr NDIRECT (BitVec.ofNat 32 n)) A true := by
  have hA := (h.noInd rfl).2
  have hdirect : ∀ j, j < NDIRECT →
      (s.alloc n).fileBlock (ip.setAddr NDIRECT (BitVec.ofNat 32 n)) j = s.fileBlock ip j := by
    intro j hj
    unfold Fs.fileBlock
    rw [if_pos hj, if_pos hj, addr_setAddr_of_ne (by omega) (by omega) (by omega)]
  have hkeep : ∀ j, j < A →
      (s.alloc n).fileBlock (ip.setAddr NDIRECT (BitVec.ofNat 32 n)) j = s.fileBlock ip j :=
    fun j hj => hdirect j (by omega)
  refine ⟨h.toLayout.alloc hlt hn, h.max, h.inum, ?_, ?_, ?_, (fun hI => by cases hI), ?_⟩
  · intro j hj
    rw [hkeep j hj]
    exact (h.data j hj).alloc h.toLayout hlt hn
  · intro i j hi hj heq
    rw [hkeep i hi, hkeep j hj] at heq
    exact h.inj i j hi hj heq
  · intro _
    rw [addr_setAddr_self]
    refine ⟨Fs.dataBlock_alloc h.toLayout hlt hn, ?_⟩
    intro j hj
    rw [hkeep j hj]
    exact h.fileBlock_ne hlt hn hj
  · intro j hA' hmax _
    by_cases hj : j < NDIRECT
    · rw [hdirect j hj]
      exact h.zero j hA' hmax (Or.inl hj)
    · unfold Fs.fileBlock Fs.alloc
      rw [if_neg hj, addr_setAddr_self, Fs.logged_cache, update_self]
      rfl

theorem extend_entry (h : FileOk s ip A true) (hN : NDIRECT ≤ A) (hA : A < MAXFILE)
    (hlt : n < s.sb.size) (hn : s.used n = false) :
    FileOk (s.allocEntry ip A n) ip (A + 1) true := by
  have h' := h.alloc hlt hn
  have hne : ip.addr NDIRECT ≠ (s.alloc n).sb.BBLOCK 0 := (h.ind rfl).1.ne_BBLOCK h.toLayout
  refine h'.extend hA (Or.inr rfl) (h'.toLayout.logged hne) rfl rfl rfl
    (fun _ hb => hb.logged hne) (Fs.dataBlock_alloc h.toLayout hlt hn) ?_ ?_ ?_ ?_
  · intro j hj
    rw [h.fileBlock_alloc hlt hn (Or.inr rfl)]
    exact h.fileBlock_ne hlt hn hj
  · exact fun _ => ((h.ind rfl).1.ne_ofNat h.toLayout hlt hn).symm
  · unfold Fs.fileBlock Fs.allocEntry
    rw [if_neg (by omega), Fs.logged_cache, update_self, update_self]
  · intro j hj hmax _
    unfold Fs.fileBlock Fs.allocEntry
    by_cases hlt : j < NDIRECT
    · rw [if_pos hlt, if_pos hlt]
    · have hidx : Fin.ofNat NINDIRECT (j - NDIRECT) ≠ Fin.ofNat NINDIRECT (A - NDIRECT) := by
        intro hcon
        have hval := congrArg Fin.val hcon
        unfold MAXFILE at hA hmax
        rw [Fin.val_ofNat, Fin.val_ofNat, Nat.mod_eq_of_lt (by omega),
          Nat.mod_eq_of_lt (by omega)] at hval
        omega
      rw [if_neg hlt, if_neg hlt, Fs.logged_cache, update_self, update_of_ne hidx]

end FileOk

/-! ### `bmap` -/

theorem addrOrAlloc_wp (hl : s.Layout)
    (hc : s.current ≠ none) (hsome : ip.addr i ≠ 0 → P (ip.addr i, ip) s)
    (hfull : ip.addr i = 0 → s.free = 0 → E .ballocOutOfBlocks s)
    (hnew : ip.addr i = 0 → ∀ n, n < s.sb.size → s.used n = false →
      P (BitVec.ofNat 32 n, ip.setAddr i (BitVec.ofNat 32 n)) (s.alloc n)) :
    wp (addrOrAlloc ip i) P E s := by
  refine wp_ite (fun hzero => ?_) hsome
  rw [wp_bind]
  exact balloc_wp hl hc (hfull hzero) (hnew hzero)

theorem entryOrAlloc_wp (hl : s.Layout)
    (hc : s.current ≠ none) (hsome : s.cache b k ≠ 0 → P (s.cache b k) s)
    (hfull : s.cache b k = 0 → s.free = 0 → E .ballocOutOfBlocks s)
    (hnew : s.cache b k = 0 → ∀ n, n < s.sb.size → s.used n = false →
      P (BitVec.ofNat 32 n) ((s.alloc n).logged b
        (update ((s.alloc n).cache b) k (BitVec.ofNat 32 n)))) :
    wp (entryOrAlloc b k) P E s := by
  unfold entryOrAlloc
  rw [wp_bind, bread_wp]
  refine wp_ite (fun hzero => ?_) hsome
  rw [wp_bind]
  refine balloc_wp hl hc (hfull hzero) fun n hlt hn => ?_
  rw [wp_bind, bread_wp, wp_bind]
  exact logWrite_wp (Fs.alloc_current hc) (hnew hzero n hlt hn)

/-- `bmap` for a block of the file or for the next one. -/
theorem bmap_wp (h : FileOk s ip A (decide (NDIRECT < A))) (hc : s.current ≠ none) (hj : j ≤ A)
    (hmax : j < MAXFILE) (hold : j < A → P (s.fileBlock ip j, ip) s)
    (hfull : j = A → s.free = 0 → E .ballocOutOfBlocks s)
    (hdirect : j = A → A < NDIRECT → ∀ n, n < s.sb.size → s.used n = false →
      P (BitVec.ofNat 32 n, ip.setAddr A (BitVec.ofNat 32 n)) (s.alloc n))
    (hentry : j = A → NDIRECT < A → ∀ n, n < s.sb.size → s.used n = false →
      P (BitVec.ofNat 32 n, ip) (s.allocEntry ip A n))
    (hfirst : j = A → A = NDIRECT → ∀ m, m < s.sb.size → s.used m = false →
      ((s.alloc m).free = 0 → E .ballocOutOfBlocks (s.alloc m)) ∧
      ∀ n, n < s.sb.size → (s.alloc m).used n = false →
        P (BitVec.ofNat 32 n, ip.setAddr NDIRECT (BitVec.ofNat 32 m))
          ((s.alloc m).allocEntry (ip.setAddr NDIRECT (BitVec.ofNat 32 m)) A n)) :
    wp (bmap ip j) P E s := by
  have hmaxeq : MAXFILE = NDIRECT + NINDIRECT := rfl
  unfold bmap
  by_cases hlt : j < NDIRECT
  · rw [if_pos hlt]
    have hblock : s.fileBlock ip j = ip.addr j := if_pos hlt
    apply addrOrAlloc_wp h.toLayout hc
    · intro hne
      have hjA : j < A := by
        by_contra hge
        exact hne (hblock.symm.trans (h.zero j (by omega) hmax (Or.inl hlt)))
      exact hblock ▸ hold hjA
    · intro hzero hfree
      have hjA : j = A := by
        by_contra hne
        exact (h.data j (by omega)).ne_zero (hblock.trans hzero)
      exact hfull hjA hfree
    · intro hzero n hn hfree
      have hjA : j = A := by
        by_contra hne
        exact (h.data j (by omega)).ne_zero (hblock.trans hzero)
      subst hjA
      exact hdirect rfl hlt n hn hfree
  · rw [if_neg hlt, if_pos (by omega), wp_bind]
    by_cases hind : NDIRECT < A
    · -- the indirect block exists
      rw [decide_eq_true hind] at h
      apply addrOrAlloc_wp h.toLayout hc
      · intro _
        rw [wp_bind]
        have hblock : s.fileBlock ip j =
            s.cache (ip.addr NDIRECT) (Fin.ofNat NINDIRECT (j - NDIRECT)) := if_neg hlt
        have hzeroA : s.cache (ip.addr NDIRECT) (Fin.ofNat NINDIRECT (j - NDIRECT)) = 0 →
            j = A := by
          intro hzero
          by_contra hne
          exact (h.data j (by omega)).ne_zero (hblock.trans hzero)
        apply entryOrAlloc_wp h.toLayout hc
        · intro hne
          have hjA : j < A := by
            by_contra hge
            exact hne (hblock.symm.trans (h.zero j (by omega) hmax (Or.inr rfl)))
          exact hblock ▸ hold hjA
        · exact fun hzero hfree => hfull (hzeroA hzero) hfree
        · intro hzero n hn hfree
          obtain rfl := hzeroA hzero
          exact hentry rfl hind n hn hfree
      · exact fun hzero => absurd hzero (h.ind rfl).1.ne_zero
      · exact fun hzero => absurd hzero (h.ind rfl).1.ne_zero
    · -- the next block is the first one to need an indirect block
      have hjA : j = A := by omega
      have hA : A = NDIRECT := by omega
      rw [decide_eq_false hind] at h
      apply addrOrAlloc_wp h.toLayout hc
      · exact fun hne => absurd (h.noInd rfl).1 hne
      · exact fun _ hfree => hfull hjA hfree
      · intro _ m hm hmfree
        obtain ⟨hfull', hnew⟩ := hfirst hjA hA m hm hmfree
        have h' := h.add_indirect hm hmfree
        have hempty := h'.zero j (by omega) hmax (Or.inr rfl)
        rw [Fs.fileBlock, if_neg hlt, addr_setAddr_self] at hempty
        rw [wp_bind]
        apply entryOrAlloc_wp h'.toLayout (Fs.alloc_current hc)
        · exact fun hne => absurd hempty hne
        · exact fun _ hfree => hfull' hfree
        · intro _ n hn hfree
          have hpost := hnew n hn hfree
          rw [Fs.allocEntry, addr_setAddr_self] at hpost
          subst hjA
          exact hpost

end

end Xv6Kernel
