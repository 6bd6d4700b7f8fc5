/-
  DiskLayout.lean
  ===============
  The areas of the disk: superblock, inodes, free map and data.

  `Geometry sb ds` says that the areas which the superblock describes follow each other and
  that the data area starts at block `ds`.  A block is written in one area at a time, so
  what the other areas hold does not change: the lemmas of this module say so for the free
  map, for the inodes and for the superblock.
-/
import Xv6Kernel.BlockMap
import Xv6Kernel.FsInode

namespace Xv6Kernel

open PanicMonad Function

/-! ### Bits -/

theorem Block.testBit_clearBit {b : Block} {i j : Nat} (hi : i < BPB) (hj : j < BPB) :
    (b.clearBit i).testBit j = (b.testBit j && !decide (j = i)) := by
  unfold clearBit testBit
  by_cases hw : j / 32 = i / 32
  · rw [hw, update_self, BitVec.getLsbD_and, BitVec.getLsbD_not, BitVec.getLsbD_twoPow]
    have hlt : j % 32 < 32 := by omega
    have hlt' : i % 32 < 32 := by omega
    simp only [hlt, hlt', decide_true, Bool.true_and]
    congr 2
    rw [decide_eq_decide]
    omega
  · have hij : j ≠ i := by
      rintro rfl
      exact hw rfl
    rw [update_of_ne (word_ne hi hj hw), decide_eq_false hij, Bool.not_false, Bool.and_true]

/-! ### Areas -/

structure Geometry (sb : Superblock) (ds : Nat) : Prop where
  first : 1 < sb.inodestart
  inodes : ∀ i, i < sb.ninodes → i / IPB + sb.inodestart < sb.bmapstart
  bitmap : ∀ b, b < sb.size → b / BPB + sb.bmapstart < ds
  map : sb.bmapstart < ds
  data : ds ≤ sb.size
  small : sb.size < 2 ^ 31

namespace Geometry

variable {sb : Superblock} {ds : Nat} {x : BlockNo}

theorem toNat_BBLOCK (h : Geometry sb ds) (hb : b < sb.size) :
    (sb.BBLOCK b).toNat = b / BPB + sb.bmapstart := by
  have hmap := h.bitmap b hb
  have hdata := h.data
  have hsmall := h.small
  unfold Superblock.BBLOCK
  rw [BitVec.toNat_ofNat, Nat.mod_eq_of_lt (by omega)]

theorem toNat_IBLOCK (h : Geometry sb ds) (hi : i < sb.ninodes) :
    (sb.IBLOCK i).toNat = i / IPB + sb.inodestart := by
  have hin := h.inodes i hi
  have hmap := h.map
  have hdata := h.data
  have hsmall := h.small
  unfold Superblock.IBLOCK
  rw [BitVec.toNat_ofNat, Nat.mod_eq_of_lt (by omega)]

theorem toNat_ofNat (h : Geometry sb ds) (hb : b < sb.size) : (BitVec.ofNat 32 b).toNat = b := by
  have hsmall := h.small
  rw [BitVec.toNat_ofNat, Nat.mod_eq_of_lt (by omega)]

theorem ne_of_toNat (h : x.toNat ≠ y.toNat) : x ≠ y := by
  rintro rfl
  exact h rfl

variable (h : Geometry sb ds)

include h

theorem BBLOCK_ne_IBLOCK (hb : b < sb.size) (hi : i < sb.ninodes) : sb.BBLOCK b ≠ sb.IBLOCK i := by
  have hin := h.inodes i hi
  have hpos := Nat.zero_le (b / BPB)
  apply ne_of_toNat
  rw [h.toNat_BBLOCK hb, h.toNat_IBLOCK hi]
  omega

theorem one_ne_BBLOCK (hb : b < sb.size) (hi : 0 < sb.ninodes) : (1 : BlockNo) ≠ sb.BBLOCK b := by
  have hin := h.inodes 0 hi
  have hfirst := h.first
  have hpos := Nat.zero_le (b / BPB)
  rw [Nat.zero_div] at hin
  apply ne_of_toNat
  rw [h.toNat_BBLOCK hb, show (1 : BlockNo).toNat = 1 from rfl]
  omega

theorem one_ne_IBLOCK (hi : i < sb.ninodes) : (1 : BlockNo) ≠ sb.IBLOCK i := by
  have hfirst := h.first
  have hpos := Nat.zero_le (i / IPB)
  apply ne_of_toNat
  rw [h.toNat_IBLOCK hi, show (1 : BlockNo).toNat = 1 from rfl]
  omega

theorem data_ne_BBLOCK (hx : ds ≤ x.toNat) (hb : b < sb.size) : x ≠ sb.BBLOCK b := by
  have hmap := h.bitmap b hb
  apply ne_of_toNat
  rw [h.toNat_BBLOCK hb]
  omega

theorem data_ne_IBLOCK (hx : ds ≤ x.toNat) (hi : i < sb.ninodes) : x ≠ sb.IBLOCK i := by
  have hin := h.inodes i hi
  have hmap := h.map
  apply ne_of_toNat
  rw [h.toNat_IBLOCK hi]
  omega

theorem data_ne_one (hx : ds ≤ x.toNat) (hi : 0 < sb.ninodes) : x ≠ 1 := by
  have hin := h.inodes 0 hi
  have hmap := h.map
  rw [Nat.zero_div] at hin
  apply ne_of_toNat
  rw [show (1 : BlockNo).toNat = 1 from rfl]
  omega

theorem BBLOCK_eq_iff (hb : b < sb.size) (hc : c < sb.size) :
    sb.BBLOCK c = sb.BBLOCK b ↔ c / BPB = b / BPB := by
  constructor
  · intro heq
    have hval := congrArg BitVec.toNat heq
    rw [h.toNat_BBLOCK hb, h.toNat_BBLOCK hc] at hval
    omega
  · intro heq
    unfold Superblock.BBLOCK
    rw [heq]

theorem IBLOCK_eq_iff (hi : i < sb.ninodes) (hj : j < sb.ninodes) :
    sb.IBLOCK j = sb.IBLOCK i ↔ j / IPB = i / IPB := by
  constructor
  · intro heq
    have hval := congrArg BitVec.toNat heq
    rw [h.toNat_IBLOCK hi, h.toNat_IBLOCK hj] at hval
    omega
  · intro heq
    unfold Superblock.IBLOCK
    rw [heq]

end Geometry

/-! ### The free map -/

namespace Fs

variable {s : Fs} {x : BlockNo} {d : Block} {ds b c j k : Nat} {ip : Inode}

/-- Whether block `b` is marked as in use. -/
def bit (s : Fs) (b : Nat) : Bool := (s.cache (s.sb.BBLOCK b)).testBit (b % BPB)

/-- The state after `balloc` has returned block `b`. -/
def allocBlock (s : Fs) (b : Nat) : Fs :=
  (s.logged (s.sb.BBLOCK b) ((s.cache (s.sb.BBLOCK b)).setBit (b % BPB))).logged
    (BitVec.ofNat 32 b) Block.zero

/-- The state after `bfree` of block `b`. -/
def freeBlock (s : Fs) (b : Nat) : Fs :=
  s.logged (s.sb.BBLOCK b) ((s.cache (s.sb.BBLOCK b)).clearBit (b % BPB))

/-- The blocks before the data area are in use, and block 1 is the superblock. -/
structure Formatted (s : Fs) (ds : Nat) : Prop where
  geo : Geometry s.sb ds
  inodes : 0 < s.sb.ninodes
  superblock : (s.cache 1).superblock = s.sb
  metadata : ∀ b, b < ds → s.bit b = true

@[simp] theorem allocBlock_sb : (s.allocBlock b).sb = s.sb := rfl
@[simp] theorem freeBlock_sb : (s.freeBlock b).sb = s.sb := rfl

theorem allocBlock_current (h : s.current ≠ none) : (s.allocBlock b).current ≠ none :=
  logged_current (logged_current h)

theorem bit_logged (h : x ≠ s.sb.BBLOCK b) : (s.logged x d).bit b = s.bit b := by
  unfold bit
  rw [logged_cache, logged_sb, update_of_ne h.symm]

theorem mod_ne_of_div_eq (hne : c ≠ b) (hdiv : c / m = b / m) : c % m ≠ b % m := by
  intro hmod
  apply hne
  rw [← Nat.div_add_mod c m, ← Nat.div_add_mod b m, hdiv, hmod]

section

variable (h : Geometry s.sb ds) (hb : b < s.sb.size) (hc : c < s.sb.size)

include h hb hc

/-- A change of one bit in its block of the bitmap. -/
theorem bit_change {g : Bool → Bool → Bool} (hg : ∀ x, g x false = x) (hd : d.testBit (c % BPB) =
      g ((s.cache (s.sb.BBLOCK b)).testBit (c % BPB)) (decide (c % BPB = b % BPB))) :
    (s.logged (s.sb.BBLOCK b) d).bit c = g (s.bit c) (decide (c = b)) := by
  by_cases hblk : c / BPB = b / BPB
  · have hsame : c % BPB = b % BPB ↔ c = b := by
      refine ⟨fun hmod => ?_, fun heq => by rw [heq]⟩
      by_contra hne
      exact mod_ne_of_div_eq hne hblk hmod
    unfold bit
    rw [logged_sb, (h.BBLOCK_eq_iff hb hc).mpr hblk, logged_cache, update_self, hd]
    simp only [hsame]
  · have hne : c ≠ b := by
      rintro rfl
      exact hblk rfl
    rw [bit_logged (fun hcon => hblk ((h.BBLOCK_eq_iff hb hc).mp hcon.symm)), decide_eq_false hne,
      hg]

theorem bit_set : (s.logged (s.sb.BBLOCK b) ((s.cache (s.sb.BBLOCK b)).setBit (b % BPB))).bit c =
      (s.bit c || decide (c = b)) := by
  have hpos : 0 < BPB := by decide
  exact bit_change h hb hc Bool.or_false
    (Block.testBit_setBit (Nat.mod_lt _ hpos) (Nat.mod_lt _ hpos))

theorem bit_freeBlock : (s.freeBlock b).bit c = (s.bit c && !decide (c = b)) := by
  have hpos : 0 < BPB := by decide
  exact bit_change (g := fun x y => x && !y) h hb hc Bool.and_true
    (Block.testBit_clearBit (Nat.mod_lt _ hpos) (Nat.mod_lt _ hpos))

end

namespace Formatted

variable (h : s.Formatted ds)

include h

theorem above_of_free (hb : s.bit b = false) : ds ≤ b := by
  by_contra hlt
  have hset := h.metadata b (by omega)
  rw [hb] at hset
  cases hset

theorem ofNat_above (hb : b < s.sb.size) (hfree : s.bit b = false) :
    ds ≤ (BitVec.ofNat 32 b).toNat := by
  rw [h.geo.toNat_ofNat hb]
  exact h.above_of_free hfree

theorem bit_allocBlock (hb : b < s.sb.size) (hfree : s.bit b = false)
    (hc : c < s.sb.size) : (s.allocBlock b).bit c = (s.bit c || decide (c = b)) := by
  have hne := h.geo.data_ne_BBLOCK (h.ofNat_above hb hfree) hc
  unfold allocBlock
  rw [bit_logged (s := s.logged _ _) hne, bit_set h.geo hb hc]

/-- Writing a block outside the free map and the superblock. -/
theorem logged (hone : x ≠ 1) (hmap : ∀ b, b < s.sb.size → x ≠ s.sb.BBLOCK b) :
    (s.logged x d).Formatted ds where
  geo := h.geo
  inodes := h.inodes
  superblock := by
    rw [logged_cache, logged_sb, update_of_ne hone.symm]
    exact h.superblock
  metadata := fun b hb => by
    have hdata := h.geo.data
    rw [bit_logged (hmap b (by omega))]
    exact h.metadata b hb

theorem logged_data (hx : ds ≤ x.toNat) : (s.logged x d).Formatted ds :=
  h.logged (h.geo.data_ne_one hx h.inodes) fun _ hb => h.geo.data_ne_BBLOCK hx hb

theorem logged_inode (hi : i < s.sb.ninodes) : (s.logged (s.sb.IBLOCK i) d).Formatted ds :=
  h.logged (h.geo.one_ne_IBLOCK hi).symm fun _ hb => (h.geo.BBLOCK_ne_IBLOCK hb hi).symm

theorem allocBlock (hb : b < s.sb.size) (hfree : s.bit b = false) :
    (s.allocBlock b).Formatted ds where
  geo := h.geo
  inodes := h.inodes
  superblock := by
    have hone := h.geo.data_ne_one (h.ofNat_above hb hfree) h.inodes
    have hmap := h.geo.one_ne_BBLOCK hb h.inodes
    unfold Fs.allocBlock
    rw [logged_cache, update_of_ne hone.symm, logged_cache, update_of_ne hmap]
    exact h.superblock
  metadata := fun c hc => by
    have hdata := h.geo.data
    have hlt : c < s.sb.size := by omega
    rw [h.bit_allocBlock hb hfree hlt, h.metadata c hc, Bool.true_or]

theorem freeBlock (hb : b < s.sb.size) (hds : ds ≤ b) : (s.freeBlock b).Formatted ds where
  geo := h.geo
  inodes := h.inodes
  superblock := by
    have hmap := h.geo.one_ne_BBLOCK hb h.inodes
    unfold Fs.freeBlock
    rw [logged_cache, update_of_ne hmap]
    exact h.superblock
  metadata := fun c hc => by
    have hlt : c < s.sb.size := by omega
    have hne : c ≠ b := by omega
    rw [bit_freeBlock h.geo hb hlt, h.metadata c hc, decide_eq_false hne]
    rfl

end Formatted

/-! ### Inodes -/

/-- The state after `iupdate`. -/
def setDinode (s : Fs) (ip : Inode) : Fs :=
  s.logged (s.sb.IBLOCK ip.inum) fun w =>
    if w.val / 16 = ip.inum % IPB then ip.word (w.val % 16) else s.cache (s.sb.IBLOCK ip.inum) w

@[simp] theorem setDinode_sb : (s.setDinode ip).sb = s.sb := rfl

theorem dinode_congr {s' : Fs} (h : ∀ k, s'.dword i k = s.dword i k) :
    s'.dinode i = s.dinode i := by
  simp only [dinode, h]

theorem dinode_logged (h : x ≠ s.sb.IBLOCK i) : (s.logged x d).dinode i = s.dinode i := by
  refine dinode_congr fun k => ?_
  unfold dword
  rw [logged_cache, logged_sb, update_of_ne h.symm]

theorem val_dword (hk : k < 16) :
    (Fin.ofNat NINDIRECT (16 * (i % IPB) + k)).val = 16 * (i % IPB) + k := by
  have hpos : i % IPB < IPB := Nat.mod_lt _ (by decide)
  have hipb : IPB = 8 := rfl
  have hn : NINDIRECT = 128 := rfl
  exact Nat.mod_eq_of_lt (by omega)

theorem dword_setDinode_self (hk : k < 16) : (s.setDinode ip).dword ip.inum k = ip.word k := by
  unfold dword setDinode
  rw [logged_sb, logged_cache, update_self]
  simp only [val_dword hk]
  rw [if_pos (by omega)]
  congr 1
  omega

variable (h : Geometry s.sb ds) (hi : ip.inum < s.sb.ninodes) (hj : j < s.sb.ninodes)
  (hne : j ≠ ip.inum)

include h hi hj hne

theorem dword_setDinode_of_ne (hk : k < 16) : (s.setDinode ip).dword j k = s.dword j k := by
  unfold dword setDinode
  rw [logged_sb, logged_cache]
  by_cases hblk : j / IPB = ip.inum / IPB
  · have hmod := mod_ne_of_div_eq hne hblk
    rw [(h.IBLOCK_eq_iff hi hj).mpr hblk, update_self]
    simp only [val_dword hk]
    rw [if_neg (by omega)]
  · rw [update_of_ne fun hcon => hblk ((h.IBLOCK_eq_iff hi hj).mp hcon)]

theorem dinode_setDinode_of_ne : (s.setDinode ip).dinode j = s.dinode j := by
  have hn : NDIRECT = 10 := rfl
  have hword : ∀ k, k < 16 → (s.setDinode ip).dword j k = s.dword j k :=
    fun k hk => dword_setDinode_of_ne h hi hj hne hk
  have haddrs : (fun k : Fin (NDIRECT + 1) => (s.setDinode ip).dword j (k + 5)) =
      fun k : Fin (NDIRECT + 1) => s.dword j (k + 5) := by
    funext k
    exact hword _ (by omega)
  unfold dinode
  rw [hword 0 (by omega), hword 1 (by omega), hword 2 (by omega), hword 3 (by omega),
    hword 4 (by omega), haddrs]

end Fs

theorem InodeType.ofCode_code (t : InodeType) : InodeType.ofCode t.code = t := by
  cases t with
  | other c =>
    have hnat : (InodeType.code (.other c)).toNat = c.val + 4 := by
      unfold InodeType.code
      rw [BitVec.toNat_ofNat]
      omega
    unfold InodeType.ofCode
    rw [hnat]
    simp
  | free => rfl
  | dir => rfl
  | file => rfl
  | dev => rfl

namespace Fs

variable {s : Fs} {ip : Inode}

/-- `iupdate` followed by reading the inode again gives the inode back. -/
theorem dinode_setDinode_self (hsize : ip.size < 2 ^ 32) :
    (s.setDinode ip).dinode ip.inum = ip := by
  have hn : NDIRECT = 10 := rfl
  have hword : ∀ k, k < 16 → (s.setDinode ip).dword ip.inum k = ip.word k :=
    fun k hk => dword_setDinode_self hk
  have haddrs : (fun k : Fin (NDIRECT + 1) => (s.setDinode ip).dword ip.inum (k + 5)) =
      ip.addrs := by
    funext k
    rw [hword _ (by omega)]
    simp [Inode.word]
  unfold dinode
  rw [hword 0 (by omega), hword 1 (by omega), hword 2 (by omega), hword 3 (by omega),
    hword 4 (by omega), haddrs]
  simp only [Inode.word, BitVec.extractLsb'_append_eq_right, BitVec.extractLsb'_append_eq_left,
    InodeType.ofCode_code, BitVec.toNat_ofNat, Nat.mod_eq_of_lt hsize]

end Fs

/-! ### The functions on blocks and dinodes -/

/-- The inode that `ialloc` writes. -/
def Inode.fresh (inum : Nat) (type : InodeType) : Inode where
  inum := inum
  type := type
  major := 0
  minor := 0
  nlink := 0
  uid := 0
  gid := 0
  mode := 0
  size := 0
  addrs := fun _ => 0

theorem Inode.fresh_word (inum : Nat) (type : InodeType) (k : Nat) :
    (Inode.fresh inum type).word k = if k = 0 then type.code.setWidth 32 else 0 := by
  unfold Inode.word Inode.fresh
  split
  · simp [BitVec.setWidth_eq_append]
  all_goals simp

section

variable {s : Fs} {E : FsPanic → Fs → Prop}

section

variable (hout : s.current = none → E .outsideOfTrans s)

include hout

theorem logWrite_wp_or (h : s.current ≠ none → P () (s.logged b d)) : wp (logWrite b d) P E s := by
  simp only [logWrite, wp_bind, wp_get]
  exact wp_ite hout h

theorem ballocFrom_wp (hok : s.current ≠ none → ∀ n, n < s.sb.size → s.bit n = false →
      P (BitVec.ofNat 32 n) (s.allocBlock n)) :
    ∀ bs : List Nat, (∀ b ∈ bs, b % BPB = 0) →
      ((∀ b ∈ bs, ∀ bi, bi < BPB → b + bi < s.sb.size → s.bit (b + bi) = true) →
        E .ballocOutOfBlocks s) →
      wp (ballocFrom bs) P E s := by
  intro bs
  induction bs with
  | nil =>
    intro _ hfull
    exact hfull (by simp)
  | cons b bs ih =>
    intro hmul hfull
    have hb : b % BPB = 0 := hmul b (by simp)
    have hpos : 0 < BPB := by decide
    have hsplit : ∀ bi, bi < BPB → (b + bi) / BPB = b / BPB ∧ (b + bi) % BPB = bi := by
      intro bi hbi
      have hdm := Nat.div_add_mod b BPB
      rw [hb, Nat.add_zero] at hdm
      rw [← hdm]
      constructor
      · rw [Nat.mul_add_div hpos, Nat.div_eq_of_lt hbi, Nat.mul_div_cancel_left _ hpos,
          Nat.add_zero]
      · rw [Nat.mul_add_mod, Nat.mod_eq_of_lt hbi]
    have hbit : ∀ bi, bi < BPB → s.bit (b + bi) = (s.cache (s.sb.BBLOCK b)).testBit bi := by
      intro bi hbi
      unfold Fs.bit Superblock.BBLOCK
      rw [(hsplit bi hbi).1, (hsplit bi hbi).2]
    simp only [ballocFrom, wp_bind, wp_get, bread_wp]
    cases hfind : (List.range (min BPB (s.sb.size - b))).find? fun bi =>
        !(s.cache (s.sb.BBLOCK b)).testBit bi with
    | none =>
      simp only
      apply ih (fun c hc => hmul c (List.mem_cons_of_mem b hc))
      intro hrest
      apply hfull
      intro c hc bi hbi hlt
      rcases List.mem_cons.mp hc with rfl | hc
      · have hset := List.find?_eq_none.mp hfind bi (List.mem_range.mpr (by omega))
        rw [hbit bi hbi]
        simpa using hset
      · exact hrest c hc bi hbi hlt
    | some bi =>
      have hmem := List.mem_range.mp (List.mem_of_find?_eq_some hfind)
      have hbi : bi < BPB := by omega
      have hlt : b + bi < s.sb.size := by omega
      have hfree : s.bit (b + bi) = false := by
        rw [hbit bi hbi]
        simpa using List.find?_some hfind
      simp only [wp_bind]
      apply logWrite_wp_or hout
      intro hc
      rw [wp_bind]
      apply logWrite_wp (Fs.logged_current hc)
      have hstate := hok hc (b + bi) hlt hfree
      unfold Fs.allocBlock Superblock.BBLOCK at hstate
      rw [(hsplit bi hbi).1, (hsplit bi hbi).2] at hstate
      exact hstate

/-- `balloc` hands out a block that is not in use, or there is none. -/
theorem balloc_wp_or (hfull : (∀ b, b < s.sb.size → s.bit b = true) → E .ballocOutOfBlocks s)
    (hok : s.current ≠ none → ∀ n, n < s.sb.size → s.bit n = false →
      P (BitVec.ofNat 32 n) (s.allocBlock n)) : wp balloc P E s := by
  have hpos : 0 < BPB := by decide
  simp only [balloc, wp_bind, wp_get]
  apply ballocFrom_wp hout hok
  · intro b hb
    obtain ⟨q, -, rfl⟩ := List.mem_map.mp hb
    exact Nat.mul_mod_left q BPB
  · intro hall
    apply hfull
    intro b hb
    have hq : b / BPB < (s.sb.size + BPB - 1) / BPB := by
      rw [Nat.lt_div_iff_mul_lt hpos]
      have hle := Nat.div_mul_le_self b BPB
      omega
    have hset := hall (b / BPB * BPB)
      (List.mem_map.mpr ⟨b / BPB, List.mem_range.mpr hq, rfl⟩) (b % BPB) (Nat.mod_lt _ hpos)
    rw [Nat.div_add_mod'] at hset
    exact hset hb

end

theorem bfree_wp (hf : s.Formatted ds) (hbit : s.bit b.toNat = true)
    (hout : s.current = none → E .outsideOfTrans s)
    (hok : s.current ≠ none → P () (s.freeBlock b.toNat)) : wp (bfree b) P E s := by
  have hsb : { s with sb := (s.cache 1).superblock } = s := by rw [hf.superblock]
  simp only [bfree, readsb, wp_bind, bread_wp, wp_modify, wp_get, hsb]
  refine wp_ite (fun hfree => ?_) fun _ => logWrite_wp_or hout hok
  unfold Fs.bit at hbit
  rw [hbit] at hfree
  cases hfree

theorem iupdate_wp_or (hout : s.current = none → E .outsideOfTrans s)
    (hok : s.current ≠ none → P () (s.setDinode ip)) : wp (iupdate ip) P E s := by
  simp only [iupdate, wp_bind, wp_get, bread_wp]
  exact logWrite_wp_or hout hok

theorem iallocTry_wp
    (hout : s.current = none → E .outsideOfTrans s) (htaken : (s.dinode i).type ≠ .free → P false s)
    (hfree : s.current ≠ none → (s.dinode i).type = .free →
      P true (s.setDinode (Inode.fresh i type))) : wp (iallocTry type i) P E s := by
  simp only [iallocTry, wp_bind, wp_get, bread_wp]
  refine wp_ite (fun hf => ?_) fun hf => htaken hf
  rw [wp_bind]
  apply logWrite_wp_or hout
  intro hc
  have hstate := hfree hc hf
  unfold Fs.setDinode at hstate
  simp only [Inode.fresh_word] at hstate
  exact hstate

end

end Xv6Kernel
