/-
  MkfsAppend.lean
  ===============
  What `iappend` does to the disk that the kernel will find.

  `mkfs` writes the free map at the end.  `view` is the disk with the free map that it would
  write now: handing out the next block is then what `balloc` of the kernel does, and
  `iappend` is `writei` at the end of the file.  The lemmas on disks in order (`Ownership`,
  `FileBytes`, `FileStore`) apply to the view.

  The superblock says that there are `NINODES` inodes, but the inode blocks have room for some
  more, which `mkfs` uses if there are many files.  The number of inodes is a parameter of the
  view.
-/
import Mathlib.Order.Interval.Finset.Nat
import Xv6Kernel.FileStore
import Xv6Kernel.Mkfs

namespace Xv6Kernel

open PanicMonad Function List Place

namespace Mkfs

variable {m : Mkfs} {ni : Nat}

/-! ### The free map -/

theorem testBit_bitmap (hn : n ≤ BPB) (hb : b < BPB) : (bitmap n).testBit b = decide (b < n) := by
  induction n with
  | zero =>
    unfold bitmap
    rw [range_zero, foldl_nil, decide_eq_false (Nat.not_lt_zero b)]
    exact BitVec.getLsbD_zero
  | succ n ih =>
    have hstep : bitmap (n + 1) = (bitmap n).setBit n := by
      unfold bitmap
      rw [range_succ, foldl_append, foldl_cons, foldl_nil]
    rw [hstep, Block.testBit_setBit (by omega) hb, ih (by omega), ← Bool.decide_or,
      decide_eq_decide]
    omega

/-! ### The view -/

/-- The block of the free map. -/
def bmapBlock : BlockNo := BitVec.ofNat 32 sb.bmapstart

/-- The room in the inode blocks. -/
def inodeSlots : Nat := ninodeblocks * IPB

/-- The disk as it would be if the free map were written now, with `ni` inodes. -/
def view (ni : Nat) (m : Mkfs) : Fs where
  sb := { sb with ninodes := ni }
  devsw := fun _ => none
  devswRead := fun _ => none
  cache := update
    (update m.disk 1 (update sbBlock 2 (BitVec.ofNat 32 ni)))
    bmapBlock (bitmap m.freeblock)
  current := none
  done := []

/-- The image file has all its sectors, and those that are not in use are zeroed. -/
structure Ready (m : Mkfs) : Prop where
  sectors : m.sectors = FSSIZE
  super : m.disk 1 = sbBlock
  above : nmeta ≤ m.freeblock
  within : m.freeblock ≤ FSSIZE
  zero : ∀ b : BlockNo, m.freeblock ≤ b.toNat → b.toNat < FSSIZE → m.disk b = Block.zero

/-- A sector that `iappend` and `winode` may write. -/
structure Sector (b : BlockNo) : Prop where
  lt : b.toNat < FSSIZE
  notSuper : b ≠ 1
  notMap : b ≠ bmapBlock

theorem Sector.of_data (hlow : nmeta ≤ b.toNat) (hlt : b.toNat < FSSIZE) : Sector b := by
  refine ⟨hlt, ?_, ?_⟩
  · rintro rfl
    exact absurd hlow (by decide)
  · rintro rfl
    exact absurd hlow (by decide)

theorem toNat_IBLOCK (hi : i < inodeSlots) : (sb.IBLOCK i).toNat = i / IPB + 32 := by
  have hslots : inodeSlots = 208 := rfl
  have hipb : IPB = 8 := rfl
  have hstart : sb.inodestart = 32 := rfl
  unfold Superblock.IBLOCK
  rw [BitVec.toNat_ofNat, hstart, hipb]
  omega

theorem Sector.of_inode (hi : i < inodeSlots) : Sector (sb.IBLOCK i) := by
  have hslots : inodeSlots = 208 := rfl
  have hipb : IPB = 8 := rfl
  have hval := toNat_IBLOCK hi
  rw [hipb] at hval
  refine ⟨?_, fun h => ?_, fun h => ?_⟩
  · unfold FSSIZE
    omega
  · rw [h] at hval
    change 1 = i / 8 + 32 at hval
    omega
  · rw [h] at hval
    change 58 = i / 8 + 32 at hval
    omega

theorem cache_view (ni : Nat) (hb : Sector b) : (view ni m).cache b = m.disk b := by
  unfold view
  dsimp only
  rw [update_of_ne hb.notMap, update_of_ne hb.notSuper]

/-- The state after `wsect`. -/
def put (m : Mkfs) (b : BlockNo) (d : Block) : Mkfs := { m with disk := update m.disk b d }

theorem view_put (hb : Sector b) : view ni (m.put b d) = (view ni m).logged b d := by
  have hcache : (view ni (m.put b d)).cache = update (view ni m).cache b d := by
    unfold view put
    rw [update_comm hb.notSuper, update_comm hb.notMap]
  unfold Fs.logged
  rw [← hcache]
  rfl

theorem Ready.put (h : Ready m) (hsec : Sector b)
    (hb : b.toNat < m.freeblock) : Ready (m.put b d) := by
  refine ⟨h.sectors, ?_, h.above, h.within, fun c hlow hlt => ?_⟩
  · exact (update_of_ne hsec.notSuper.symm ..).trans h.super
  have hne : c ≠ b := by
    rintro rfl
    exact absurd hb (Nat.not_lt.mpr hlow)
  exact (update_of_ne hne ..).trans (h.zero c hlow hlt)

theorem bit_view (h : Ready m) (hb : b < FSSIZE) :
    (view ni m).bit b = decide (b < m.freeblock) := by
  have hsize : FSSIZE = 2000 := rfl
  have hbpb : BPB = 4096 := rfl
  have hwithin := h.within
  have hblock : (view ni m).sb.BBLOCK b = bmapBlock := by
    unfold Superblock.BBLOCK
    rw [Nat.div_eq_of_lt (by omega), Nat.zero_add]
    rfl
  unfold Fs.bit
  rw [hblock, Nat.mod_eq_of_lt (by omega)]
  unfold view
  dsimp only
  rw [update_self]
  exact testBit_bitmap (by omega) (by omega)

theorem freeBlocks_view (h : Ready m) : (view ni m).freeBlocks = FSSIZE - m.freeblock := by
  have hfree : (Finset.range FSSIZE).filter (fun b => (view ni m).bit b = false) =
      Finset.Ico m.freeblock FSSIZE := by
    ext b
    rw [Finset.mem_filter, Finset.mem_range, Finset.mem_Ico]
    refine ⟨fun ⟨hb, hbit⟩ => ?_, fun ⟨hlow, hb⟩ => ⟨hb, ?_⟩⟩
    · rw [bit_view h hb, decide_eq_false_iff_not] at hbit
      exact ⟨Nat.not_lt.mp hbit, hb⟩
    · rw [bit_view h hb, decide_eq_false_iff_not]
      exact Nat.not_lt.mpr hlow
  exact (congrArg Finset.card hfree).trans (Nat.card_Ico ..)

/-- The state after `freeblock++`. -/
def take (m : Mkfs) : Mkfs := { m with freeblock := m.freeblock + 1 }

theorem toNat_freeblock (h : m.freeblock ≤ FSSIZE) :
    (BitVec.ofNat 32 m.freeblock).toNat = m.freeblock := by
  have hsize : FSSIZE = 2000 := rfl
  rw [BitVec.toNat_ofNat]
  omega

theorem Ready.take (h : Ready m) (hlt : m.freeblock < FSSIZE) : Ready m.take :=
  ⟨h.sectors, h.super, h.above.trans (Nat.le_succ _), hlt,
    fun b hlow => h.zero b ((Nat.le_succ _).trans hlow)⟩

theorem view_take (h : Ready m) (hlt : m.freeblock < FSSIZE) :
    view ni m.take = (view ni m).allocBlock m.freeblock := by
  have hsize : FSSIZE = 2000 := rfl
  have hbpb : BPB = 4096 := rfl
  have hval := toNat_freeblock h.within
  have hsec : Sector (BitVec.ofNat 32 m.freeblock) :=
    .of_data (by rw [hval]; exact h.above) (by rw [hval]; exact hlt)
  have hblock : (view ni m).sb.BBLOCK m.freeblock = bmapBlock := by
    unfold Superblock.BBLOCK
    rw [Nat.div_eq_of_lt (by omega), Nat.zero_add]
    rfl
  have hmap : (view ni m).cache bmapBlock = bitmap m.freeblock := by
    unfold view
    dsimp only
    rw [update_self]
  have hstep : bitmap (m.freeblock + 1) = (bitmap m.freeblock).setBit m.freeblock := by
    unfold bitmap
    rw [range_succ, foldl_append, foldl_cons, foldl_nil]
  have hzero : (view ni m).cache (BitVec.ofNat 32 m.freeblock) = Block.zero := by
    rw [cache_view ni hsec]
    exact h.zero _ (by rw [hval]) (by rw [hval]; exact hlt)
  have hcache : (view ni m.take).cache = update
      (update (view ni m).cache bmapBlock ((bitmap m.freeblock).setBit m.freeblock))
      (BitVec.ofNat 32 m.freeblock) Block.zero := by
    have hsame : update (view ni m).cache (BitVec.ofNat 32 m.freeblock) Block.zero =
        (view ni m).cache := by
      rw [← hzero, update_eq_self]
    rw [update_comm hsec.notMap.symm, hsame, ← hstep]
    unfold view
    rw [update_idem]
    rfl
  unfold Fs.allocBlock
  rw [hblock, hmap, Nat.mod_eq_of_lt (by omega)]
  unfold Fs.logged
  rw [← hcache]
  rfl

/-! ### Sectors -/

section

variable {α : Type}

theorem seek_of_lt (hb : b.toNat ≤ FSSIZE) : seek b = b := by
  have hsize : FSSIZE = 2000 := rfl
  have hbs : BSIZE = 512 := rfl
  unfold seek
  apply BitVec.eq_of_toNat_eq
  rw [BitVec.toNat_ofNat, hbs]
  omega

theorem rsect_wp (hs : m.sectors = FSSIZE) (hb : b.toNat < FSSIZE)
    (hP : P (m.disk b) m) : wp (rsect b) P E m := by
  unfold rsect
  rw [wp_bind, wp_get, seek_of_lt hb.le, if_pos (by rwa [hs])]
  exact hP

/-- A sector behind the end of the image. -/
theorem rsect_end_wp (hs : m.sectors = FSSIZE) (hb : b.toNat = FSSIZE)
    (hE : E .perror m) : wp (rsect b) P E m := by
  unfold rsect
  rw [wp_bind, wp_get, seek_of_lt hb.le, if_neg (by rw [hs, hb]; exact Nat.lt_irrefl _)]
  exact hE

theorem wsect_wp (hs : m.sectors = FSSIZE) (hb : b.toNat < FSSIZE)
    (hP : P () (m.put b d)) : wp (wsect b d) P E m := by
  have hmax : max m.sectors (b.toNat + 1) = m.sectors := Nat.max_eq_left (by rw [hs]; exact hb)
  unfold wsect
  rw [wp_modify, seek_of_lt hb.le, hmax]
  exact hP

end

/-! ### Blocks of a file -/

section

variable {ino : Nat → Inode} {i : Nat}

/-- A block that an inode has is a sector in use. -/
theorem sector_of_slot (h : (view ni m).Owned nmeta ino) (hr : Ready m)
    (hl : (view ni m).Live ino i) (hne : (view ni m).slot (ino i) p ≠ 0) :
    Sector ((view ni m).slot (ino i) p) ∧ ((view ni m).slot (ino i) p).toNat < m.freeblock := by
  obtain ⟨hlow, hlt, hbit⟩ := h.data hl hne
  change _ < FSSIZE at hlt
  rw [bit_view hr hlt, decide_eq_true_iff] at hbit
  exact ⟨.of_data hlow hlt, hbit⟩

/-- There is a next free block, or the image is full and the block is behind its end. -/
theorem takeBlock_wp (ni : Nat) (hr : Ready m)
    (hok : m.freeblock < FSSIZE → (view ni m).bit m.freeblock = false →
      P (BitVec.ofNat 32 m.freeblock) m.take)
    (hend : (view ni m).freeBlocks = 0 → P (BitVec.ofNat 32 FSSIZE) m.take) :
    wp takeBlock P E m := by
  unfold takeBlock
  rw [wp_bind, wp_get, wp_bind, wp_modify, wp_pure]
  rcases Nat.lt_or_eq_of_le hr.within with hlt | heq
  · refine hok hlt ?_
    rw [bit_view hr hlt, decide_eq_false_iff_not]
    exact Nat.lt_irrefl _
  · have hP := hend (by rw [freeBlocks_view hr, heq, Nat.sub_self])
    rw [← heq] at hP
    exact hP

section

variable (h : (view ni m).Owned nmeta ino) (hr : Ready m) (hl : (view ni m).Live ino i)

include h hr hl

/-- The block at a place of the inode itself. -/
theorem addrOrTake_wp (hk : k ≤ NDIRECT)
    (hok : ∀ m' ip', Ready m' → Grown (view ni m) nmeta ino i (view ni m') ip'
        ((view ni m).missing (ino i) {.addr (Fin.ofNat (NDIRECT + 1) k)}) →
      P (ip'.addr k, ip') m')
    (hend : (view ni m).freeBlocks <
        ((view ni m).missing (ino i) {.addr (Fin.ofNat (NDIRECT + 1) k)}).card →
      ∀ m' ip', m'.sectors = FSSIZE → P (BitVec.ofNat 32 FSSIZE, ip') m') :
    wp (addrOrTake (ino i) k) P E m := by
  have hslot : (view ni m).slot (ino i) (.addr (Fin.ofNat (NDIRECT + 1) k)) = (ino i).addr k := rfl
  refine wp_ite (fun hz => ?_) fun hne => ?_
  · rw [missing_singleton_of_eq (hslot.trans hz)] at hok hend
    rw [wp_bind]
    refine takeBlock_wp ni hr (fun hlt hfree => ?_) fun hfull => ?_
    · have hgrown := h.grown_addr hl hk hz hlt hfree
      rw [← view_take hr hlt] at hgrown
      have hP := hok _ _ (hr.take hlt) hgrown
      rw [addr_setAddr_self] at hP
      exact hP
    · refine hend ?_ _ _ hr.sectors
      rw [hfull]
      exact Nat.zero_lt_one
  · rw [missing_singleton_of_ne (by rwa [hslot])] at hok
    exact hok m (ino i) hr h.grown_refl

/-- The block at a place of the indirect block. -/
theorem entryOrTake_wp (hind : (ino i).addr NDIRECT ≠ 0)
    (hok : ∀ m', Ready m' → Grown (view ni m) nmeta ino i (view ni m') (ino i)
        ((view ni m).missing (ino i) {.entry j}) → P ((view ni m').slot (ino i) (.entry j)) m')
    (hend : (view ni m).freeBlocks < ((view ni m).missing (ino i) {.entry j}).card →
      ∀ m', m'.sectors = FSSIZE → P (BitVec.ofNat 32 FSSIZE) m') :
    wp (entryOrTake ((ino i).addr NDIRECT) j ((view ni m).cache ((ino i).addr NDIRECT))) P E m := by
  have hslot : (view ni m).slot (ino i) (.entry j) = (view ni m).cache ((ino i).addr NDIRECT) j :=
    Fs.slot_entry hind
  obtain ⟨hsec, hused⟩ := sector_of_slot (p := .indirect) h hr hl hind
  rw [Fs.slot_indirect] at hsec hused
  refine wp_ite (fun hz => ?_) fun hne => ?_
  · rw [missing_singleton_of_eq (hslot.trans hz)] at hok hend
    rw [wp_bind]
    refine takeBlock_wp ni hr (fun hlt hfree => ?_) fun hfull => ?_
    · have hgrown := h.grown_entry hl hind hz hlt hfree
      rw [← view_take hr hlt, ← view_put hsec] at hgrown
      have hP := hok _ ((hr.take hlt).put hsec (hused.trans (Nat.lt_succ_self _))) hgrown
      rw [Fs.slot_entry hind, view_put hsec, Fs.logged_cache, update_self, update_self] at hP
      rw [wp_bind]
      exact wsect_wp (m := m.take) hr.sectors hsec.lt hP
    · rw [wp_bind]
      refine wsect_wp (m := m.take) hr.sectors hsec.lt (hend ?_ _ hr.sectors)
      rw [hfull]
      exact Nat.zero_lt_one
  · rw [missing_singleton_of_ne (by rwa [hslot])] at hok
    have hP := hok m hr h.grown_refl
    rw [hslot] at hP
    exact hP

/-- `mkfs` finds a block of a file as `bmap` does. -/
theorem blockFor_wp (hok : ∀ m' ip', Ready m' → Grown (view ni m) nmeta ino i (view ni m') ip'
        ((view ni m).missing (ino i) (path bn)) →
      P ((view ni m').slot ip' (ofIndex bn), ip') m')
    (hend : (view ni m).freeBlocks < ((view ni m).missing (ino i) (path bn)).card →
      (∀ m' ip', m'.sectors = FSSIZE → P (BitVec.ofNat 32 FSSIZE, ip') m') ∧ ∀ t, E .perror t) :
    wp (blockFor (ino i) bn) P E m := by
  have hsize : (BitVec.ofNat 32 FSSIZE : BlockNo).toNat = FSSIZE := by decide
  refine wp_ite (fun hd => ?_) fun hd => ?_
  · have hpath : path bn = {.addr (Fin.ofNat (NDIRECT + 1) bn)} := by
      unfold path ofIndex
      rw [if_pos hd, if_pos hd]
    rw [hpath] at hok hend
    refine addrOrTake_wp h hr hl (Nat.le_of_lt hd) (fun m' ip' hr' hg => ?_) fun hf => (hend hf).1
    have hP := hok m' ip' hr' hg
    unfold ofIndex at hP
    rw [if_pos hd] at hP
    exact hP
  · have hindex : ofIndex bn = .entry (Fin.ofNat NINDIRECT (bn - NDIRECT)) := if_neg hd
    have hcard : ((view ni m).missing (ino i) (path bn)).card = _ := (missing_path hd).2
    rw [wp_bind]
    refine addrOrTake_wp h hr hl (Nat.le_refl _) (fun m₁ ip₁ hr₁ hg₁ => ?_) fun hf m₁ ip₁ hs => ?_
    · have hino₁ : update ino i ip₁ i = ip₁ := update_self ..
      have hind := hg₁.addr_ne_zero
      have hl₁ := hg₁.live_iff.mpr hl
      have hsec := (sector_of_slot (p := .indirect) hg₁.owned hr₁ hl₁ (by rwa [hino₁])).1
      rw [hino₁, Fs.slot_indirect] at hsec
      rw [wp_bind]
      refine rsect_wp hr₁.sectors hsec.lt ?_
      rw [wp_bind, ← cache_view ni hsec]
      have hentry := entryOrTake_wp (j := Fin.ofNat NINDIRECT (bn - NDIRECT))
        (P := fun x t => P (x, ip₁) t) (E := E) hg₁.owned hr₁ hl₁
      rw [hino₁, ← hindex] at hentry
      refine hentry hind (fun m₂ hr₂ hg₂ => hok m₂ ip₁ hr₂ (hg₁.path hl hd hg₂))
        fun hf m₂ hs => (hend ?_).1 m₂ ip₁ hs
      have hfree := hg₁.free
      rw [hg₁.missing_ofIndex] at hf
      rw [hcard]
      change _ + ((view ni m).missing (ino i) {indirect}).card = _ at hfree
      omega
    · rw [wp_bind]
      refine rsect_end_wp hs hsize ((hend ?_).2 m₁)
      exact Nat.lt_of_lt_of_le hf (by rw [hcard]; exact Nat.le_add_right _ _)

end

/-- The loop of `iappend` writes what the loop of `writei` writes. -/
theorem iappendLoop_wp : ∀ (fuel : Nat) (m : Mkfs) (ino : Nat → Inode) (p : List Byte) (off : Nat),
      (view ni m).Owned nmeta ino → Ready m → (view ni m).Live ino i → off ≤ MAXFILE * BSIZE →
      p.length ≤ fuel → (MAXFILE * BSIZE < off + p.length → ∀ e t, E e t) →
      ((view ni m).freeBlocks < ((view ni m).missing (ino i) (Fs.touched off p.length)).card →
        ∀ t, E .perror t) →
      (off + p.length ≤ MAXFILE * BSIZE → ∀ m' ip', Ready m' →
        Wrote (view ni m) nmeta ino i (view ni m') ip'
          ((view ni m).missing (ino i) (Fs.touched off p.length))
          (overlay ((view ni m).byteAt (ino i)) off p.length (p.getD · 0)) →
        P (ip', off + p.length) m') →
      wp (iappendLoop fuel (ino i) p off) P E m := by
  intro fuel
  induction fuel with
  | zero =>
    intro m ino p off h hr hl hoff hn _ _ hok
    have hp : p.length = 0 := Nat.le_zero.mp hn
    rw [hp, overlay_zero] at hok
    exact hok hoff m (ino i) hr h.wrote_refl
  | succ fuel ih =>
    intro m ino p off h hr hl hoff hfuel hmax hfull hok
    have hb : BSIZE = 512 := rfl
    refine wp_ite (fun hpos => ?_) fun hn => ?_
    · refine wp_ite (fun hbn => ?_) fun hbn => ?_
      · obtain ⟨n₁, hn₁⟩ : ∃ n₁, n₁ = min p.length (BSIZE - off % BSIZE) := ⟨_, rfl⟩
        have hround : min p.length ((off / BSIZE + 1) * BSIZE - off) = n₁ := by
          rw [hn₁, hb]
          omega
        have hin : off - off / BSIZE * BSIZE = off % BSIZE := by
          rw [hb]
          omega
        have hpos₁ : 0 < n₁ := by rw [hb] at hn₁; omega
        have hle₁ : n₁ ≤ p.length := by omega
        have hfits : off + n₁ ≤ MAXFILE * BSIZE := by
          have hlast : (off / BSIZE + 1) * BSIZE ≤ MAXFILE * BSIZE := Nat.mul_le_mul_right _ hbn
          rw [hb] at hn₁ hlast ⊢
          omega
        have hsub : ((view ni m).missing (ino i) (path (off / BSIZE))).card ≤
            ((view ni m).missing (ino i) (Fs.touched off p.length)).card := missing_path_le hpos
        rw [wp_bind]
        refine blockFor_wp h hr hl (fun m₁ ip₁ hr₁ hg => ?_) fun hf => ?_
        · have hne := hg.slot_ofIndex_ne_zero
          have hino₁ : update ino i ip₁ i = ip₁ := update_self ..
          obtain ⟨hsec, hused⟩ := sector_of_slot hg.owned hr₁ (hg.live_iff.mpr hl) (by rwa [hino₁])
          rw [hino₁] at hsec hused
          have hw := (hg.wrote hl fun p hp => missing_eq_zero hp).round (p.getD · 0) hl hbn hn₁ hne
          rw [← view_put hsec, cache_view ni hsec] at hw
          rw [wp_bind]
          refine rsect_wp hr₁.sectors hsec.lt ?_
          rw [hround, hin, wp_bind]
          refine wsect_wp hr₁.sectors hsec.lt ?_
          have hr₂ : Ready (m₁.put ((view ni m₁).slot ip₁ (.ofIndex (off / BSIZE)))
            ((m₁.disk ((view ni m₁).slot ip₁ (.ofIndex (off / BSIZE)))).memmove (off % BSIZE)
              (p.getD · 0) n₁)) := hr₁.put hsec hused
          generalize m₁.put ((view ni m₁).slot ip₁ (.ofIndex (off / BSIZE)))
            ((m₁.disk ((view ni m₁).slot ip₁ (.ofIndex (off / BSIZE)))).memmove (off % BSIZE)
              (p.getD · 0) n₁) = m₂ at hw hr₂ ⊢
          have hnext := hw.rest hpos hn₁
          have hlen : (p.drop n₁).length = p.length - n₁ := length_drop
          have hrest := ih m₂ (update ino i ip₁) (p.drop n₁) (off + n₁) hw.owned hr₂
            (hw.live_iff.mpr hl) hfits (by omega) (fun hlt => hmax (by omega))
          rw [hino₁, hlen] at hrest
          refine hrest (fun hlt => hfull (hnext.1 hlt)) fun hle m₃ ip₃ hr₃ hw₃ => ?_
          have hP := hok (by omega) m₃ ip₃ hr₃ ((hnext.2 hw₃).congr fun k hk => ?_)
          · rwa [show off + n₁ + (p.length - n₁) = off + p.length by omega]
          · rw [← overlay_split hle₁]
            unfold overlay
            split
            · dsimp only
              rw [getD_eq_getElem?_getD, getElem?_drop, Nat.add_comm, ← getD_eq_getElem?_getD]
            · exact hw.bytes k hk
        · refine ⟨fun m₁ ip₁ hs => ?_, hfull (Nat.lt_of_lt_of_le hf hsub)⟩
          rw [wp_bind]
          exact rsect_end_wp hs (by decide) (hfull (Nat.lt_of_lt_of_le hf hsub) m₁)
      · refine hmax ?_ _ _
        have hlast : MAXFILE * BSIZE ≤ off / BSIZE * BSIZE :=
          Nat.mul_le_mul_right _ (Nat.not_lt.mp hbn)
        have hle := Nat.div_mul_le_self off BSIZE
        omega
    · have hp : p.length = 0 := by omega
      rw [hp, overlay_zero] at hok
      exact hok hoff m (ino i) hr h.wrote_refl

end

/-! ### The counters -/

/-- `freeinode` is the same and `freeblock` has not gone back. -/
structure Kept (m m' : Mkfs) : Prop where
  freeinode : m'.freeinode = m.freeinode
  freeblock : m.freeblock ≤ m'.freeblock

/-- The image file has its length, `n` is the next inode, and `lo` blocks or more are in use; they
    are in the image if `c` holds. -/
structure Counters (n lo : Nat) (c : Prop) (m : Mkfs) : Prop where
  sectors : m.sectors = FSSIZE
  freeinode : m.freeinode = n
  low : lo ≤ m.freeblock
  high : c → m.freeblock ≤ FSSIZE

/-- A part of `mkfs` that allocates no inode and reads every block it takes. -/
def Counts {α : Type} (x : MkfsM α) : Prop :=
  ∀ n lo m, Counters n lo True m → wp x (fun _ => Counters n lo True) (fun _ _ => True) m

section

variable {α β : Type} {c : Prop}

theorem Counts.pure {a : α} : Counts (Pure.pure a) := fun _ _ _ h => h

theorem Counts.throw {e : MkfsFailure} : Counts (throw e : MkfsM α) := fun _ _ _ _ => trivial

theorem Counts.bind {f : α → MkfsM β} (hx : Counts x) (hf : ∀ a, Counts (f a)) :
    Counts (x >>= f) := by
  intro n lo m h
  exact wp_seq (hx n lo m h) fun a m' h' => hf a n lo m' h'

theorem Counts.ite {p : Prop} [Decidable p] (hx : Counts x) (hy : Counts y) :
    Counts (if p then x else y) := by
  split
  · exact hx
  · exact hy

/-- A sector that can be read is in the image. -/
theorem Counters.rsect (h : Counters n lo ((seek b).toNat < FSSIZE) m) :
    wp (rsect b) (fun _ m' => Counters n lo True m' ∧ (seek b).toNat < FSSIZE) (fun _ _ => True)
      m := by
  unfold Mkfs.rsect
  rw [wp_bind, wp_get]
  refine wp_ite (fun hlt => ?_) fun _ => trivial
  rw [h.sectors] at hlt
  exact ⟨{ h with high := fun _ => h.high hlt }, hlt⟩

theorem Counters.wsect {d : Block} (h : Counters n lo c m) (hb : (seek b).toNat < FSSIZE) :
    wp (wsect b d) (fun _ => Counters n lo c) (fun _ _ => True) m := by
  refine { h with sectors := ?_ }
  change max m.sectors ((seek b).toNat + 1) = FSSIZE
  rw [h.sectors]
  exact Nat.max_eq_left hb

/-- The block taken last is in the image if it can be read. -/
theorem Counters.takeBlock (h : Counters n lo True m) :
    wp takeBlock (fun x => Counters n lo ((seek x).toNat < FSSIZE)) (fun _ _ => True) m := by
  refine ⟨h.sectors, h.freeinode, h.low.trans (Nat.le_succ _), fun hx => ?_⟩
  rcases (h.high trivial).lt_or_eq with hlt | heq
  · exact hlt
  · rw [heq] at hx
    exact absurd hx (by decide)

theorem Counters.addrOrTake {din : Inode} (h : Counters n lo True m) :
    wp (addrOrTake din i) (fun r => Counters n lo ((seek r.1).toNat < FSSIZE)) (fun _ _ => True)
      m := by
  refine wp_ite (fun _ => ?_) fun _ => { h with high := fun _ => h.high trivial }
  rw [wp_bind]
  exact h.takeBlock

theorem Counters.blockFor {din : Inode} {fbn : Nat} (h : Counters n lo True m) :
    wp (blockFor din fbn) (fun r => Counters n lo ((seek r.1).toNat < FSSIZE)) (fun _ _ => True)
      m := by
  refine wp_ite (fun _ => h.addrOrTake) fun _ => ?_
  refine wp_seq h.addrOrTake fun r m₁ h₁ => ?_
  refine wp_seq h₁.rsect fun d m₂ h₂ => ?_
  rw [wp_bind]
  refine wp_ite (fun _ => ?_) fun _ => { h₂.1 with high := fun _ => h₂.1.high trivial }
  refine wp_seq h₂.1.takeBlock fun x m₃ h₃ => ?_
  rw [wp_bind]
  exact h₃.wsect h₂.2

theorem counts_winode {ip : Inode} : Counts (winode ip) := by
  intro n lo m h
  refine wp_bind.mpr (wp_mono (Counters.rsect { h with high := fun _ => h.high trivial })
    (fun _ _ h₁ => ?_) fun _ _ _ => trivial)
  exact h₁.1.wsect h₁.2

theorem counts_rinode : Counts (rinode i) := by
  intro n lo m h
  exact wp_bind.mpr (wp_mono (Counters.rsect { h with high := fun _ => h.high trivial })
    (fun _ _ h₁ => h₁.1) fun _ _ _ => trivial)

theorem counts_iappendLoop (fuel : Nat) : ∀ (din : Inode) (p : List Byte) (off : Nat),
    Counts (iappendLoop fuel din p off) := by
  induction fuel with
  | zero => exact fun _ _ _ => .pure
  | succ fuel ih =>
    intro din p off
    refine .ite (.ite (fun n lo m h => ?_) .throw) .pure
    refine wp_seq h.blockFor fun r m₁ h₁ => ?_
    refine wp_seq h₁.rsect fun d m₂ h₂ => ?_
    exact wp_seq (h₂.1.wsect h₂.2) fun _ m₃ h₃ => ih _ _ _ n lo m₃ h₃

theorem counts_iappend {p : List Byte} : Counts (iappend i p) :=
  counts_rinode.bind fun _ => (counts_iappendLoop _ _ _ _).bind fun _ => counts_winode

end

/-! ### Inodes -/

theorem rinode_wp (ni : Nat) (hr : Ready m) (hi : i < inodeSlots)
    (hP : P ((view ni m).dinode i) m) : wp (rinode i) P E m := by
  have hsec := Sector.of_inode hi
  unfold rinode
  rw [wp_bind]
  refine rsect_wp hr.sectors hsec.lt ?_
  rw [← cache_view ni hsec]
  exact hP

theorem winode_wp (ni : Nat) (hr : Ready m) (hi : ip.inum < inodeSlots)
    (hP : ∀ m', Ready m' → view ni m' = (view ni m).setDinode ip → Kept m m' →
      m'.freeblock = m.freeblock → P () m') : wp (winode ip) P E m := by
  have hsec := Sector.of_inode hi
  have hused : (sb.IBLOCK ip.inum).toNat < m.freeblock := by
    have hslots : inodeSlots = 208 := rfl
    have hipb : IPB = 8 := rfl
    have habove := hr.above
    have hmeta : nmeta = 59 := rfl
    rw [toNat_IBLOCK hi, hipb]
    omega
  unfold winode
  rw [wp_bind]
  refine rsect_wp hr.sectors hsec.lt (wsect_wp hr.sectors hsec.lt ?_)
  refine hP _ (hr.put hsec hused) ?_ ⟨rfl, Nat.le_refl _⟩ rfl
  rw [view_put hsec, ← cache_view ni hsec]
  rfl

end Mkfs

/-! ### The number of blocks of a file -/

/-- The inode has no blocks behind its size. -/
def Fs.Tight (s : Fs) (ip : Inode) : Prop := ∀ p, s.slot ip p ≠ 0 → p ∈ Fs.touched 0 ip.size

/-- The number of blocks of a file with `n` bytes, the indirect block included. -/
def blocksFor (n : Nat) : Nat := (n + BSIZE - 1) / BSIZE + if NDIRECT * BSIZE < n then 1 else 0

section

variable {s : Fs} {ip : Inode} {p : Place} {n : Nat}

theorem mem_touched : p ∈ Fs.touched off n ↔ ∃ m, m < n ∧ p ∈ path ((off + m) / BSIZE) := by
  unfold Fs.touched
  rw [Finset.mem_biUnion]
  exact exists_congr fun m => and_congr_left fun _ => Finset.mem_range

theorem touched_append : Fs.touched 0 (n + k) = Fs.touched 0 n ∪ Fs.touched n k := by
  ext p
  rw [Finset.mem_union, mem_touched, mem_touched, mem_touched]
  constructor
  · rintro ⟨m, hm, hp⟩
    by_cases hmn : m < n
    · exact Or.inl ⟨m, hmn, hp⟩
    · refine Or.inr ⟨m - n, by omega, ?_⟩
      rwa [show n + (m - n) = 0 + m by omega]
  · rintro (⟨m, hm, hp⟩ | ⟨m, hm, hp⟩)
    · exact ⟨m, by omega, hp⟩
    · exact ⟨n + m, by omega, by rwa [Nat.zero_add]⟩

/-- The places of the blocks of a file. -/
theorem touched_eq (n : Nat) : Fs.touched 0 n =
    (Finset.range ((n + BSIZE - 1) / BSIZE)).image ofIndex ∪
      if NDIRECT * BSIZE < n then {indirect} else ∅ := by
  have hb : BSIZE = 512 := rfl
  have hn : NDIRECT = 10 := rfl
  ext p
  rw [mem_touched, Finset.mem_union, Finset.mem_image]
  constructor
  · rintro ⟨m, hm, hp⟩
    rw [Nat.zero_add] at hp
    have hindex : m / BSIZE < (n + BSIZE - 1) / BSIZE := by
      rw [hb]
      omega
    unfold path at hp
    split at hp
    · exact Or.inl ⟨_, Finset.mem_range.mpr hindex, (Finset.mem_singleton.mp hp).symm⟩
    · rename_i hd
      rw [Finset.mem_insert, Finset.mem_singleton] at hp
      rcases hp with rfl | rfl
      · right
        rw [if_pos (by rw [hb, hn] at hd ⊢; omega)]
        exact Finset.mem_singleton_self _
      · exact Or.inl ⟨_, Finset.mem_range.mpr hindex, rfl⟩
  · rintro (⟨l, hl, rfl⟩ | hp)
    · have hlt := Finset.mem_range.mp hl
      refine ⟨l * BSIZE, by rw [hb] at hlt ⊢; omega, ?_⟩
      rw [Nat.zero_add, Nat.mul_div_cancel _ (by decide)]
      exact ofIndex_mem_path
    · split at hp
      · rename_i hlarge
        rw [Finset.mem_singleton.mp hp]
        refine ⟨NDIRECT * BSIZE, hlarge, ?_⟩
        rw [Nat.zero_add, Nat.mul_div_cancel _ (by decide)]
        unfold path
        rw [if_neg (Nat.lt_irrefl _)]
        exact Finset.mem_insert_self ..
      · exact absurd hp (Finset.notMem_empty p)

theorem card_touched (hn : n ≤ MAXFILE * BSIZE) : (Fs.touched 0 n).card = blocksFor n := by
  have hb : BSIZE = 512 := rfl
  have hmax : MAXFILE = 138 := rfl
  have hinj : Set.InjOn ofIndex (Finset.range ((n + BSIZE - 1) / BSIZE)) := by
    intro k hk l hl heq
    have hk' := Finset.mem_range.mp hk
    have hl' := Finset.mem_range.mp hl
    rw [hb] at hk' hl'
    rw [hb, hmax] at hn
    exact ofIndex_inj (by omega) (by omega) heq
  have hdisj : Disjoint ((Finset.range ((n + BSIZE - 1) / BSIZE)).image ofIndex)
      (if NDIRECT * BSIZE < n then {indirect} else ∅) := by
    refine Finset.disjoint_left.mpr fun p hp hcon => ?_
    obtain ⟨l, _, rfl⟩ := Finset.mem_image.mp hp
    split at hcon
    · exact ofIndex_ne_indirect (Finset.mem_singleton.mp hcon)
    · exact absurd hcon (Finset.notMem_empty _)
  rw [touched_eq, Finset.card_union_of_disjoint hdisj, Finset.card_image_of_injOn hinj,
    Finset.card_range]
  unfold blocksFor
  split
  · rw [Finset.card_singleton]
  · rw [Finset.card_empty]

theorem blocksFor_mono (h : n ≤ k) : blocksFor n ≤ blocksFor k := by
  have hdiv : (n + BSIZE - 1) / BSIZE ≤ (k + BSIZE - 1) / BSIZE := Nat.div_le_div_right (by omega)
  unfold blocksFor
  split
  · rw [if_pos (by omega)]
    omega
  · omega

/-- The places that a longer file needs. -/
theorem Fs.Tight.missing_eq (h : s.Tight ip) (hfull : s.Full ip) (n : Nat) :
    s.missing ip (Fs.touched ip.size n) = Fs.touched 0 (ip.size + n) \ Fs.touched 0 ip.size := by
  have hthere : ∀ p, p ∈ Fs.touched 0 ip.size → s.slot ip p ≠ 0 := by
    intro p hp
    obtain ⟨m, hm, hpath⟩ := mem_touched.mp hp
    rw [Nat.zero_add] at hpath
    have hle := Nat.div_mul_le_self m BSIZE
    exact slot_path (hfull _ (by omega)).2 hpath
  ext p
  rw [touched_append, Finset.mem_sdiff, Finset.mem_union]
  unfold Fs.missing
  rw [Finset.mem_filter]
  constructor
  · rintro ⟨hp, hz⟩
    exact ⟨Or.inr hp, fun hcon => hthere p hcon hz⟩
  · rintro ⟨hp, hnot⟩
    exact ⟨hp.resolve_left hnot, by_contra fun hne => hnot (h p hne)⟩

theorem Fs.Tight.card_missing (h : s.Tight ip) (hfull : s.Full ip)
    (hn : ip.size + n ≤ MAXFILE * BSIZE) :
    (s.missing ip (Fs.touched ip.size n)).card + blocksFor ip.size = blocksFor (ip.size + n) := by
  have hsub : Fs.touched 0 ip.size ⊆ Fs.touched 0 (ip.size + n) := by
    rw [touched_append]
    exact Finset.subset_union_left
  rw [h.missing_eq hfull, ← card_touched hn, ← card_touched ((Nat.le_add_right _ _).trans hn)]
  exact Finset.card_sdiff_add_card_eq_card hsub

end

namespace Mkfs

variable {m m' : Mkfs} {ni i : Nat}

/-! ### Appending -/

/-- The disk is in order, and the files have no blocks too many. -/
structure Good (ni : Nat) (m : Mkfs) : Prop where
  ready : Ready m
  ownership : (view ni m).BlockOwnership nmeta
  tight : ∀ i, (view ni m).Live (view ni m).dinode i → (view ni m).Tight ((view ni m).dinode i)

/-- The bytes `p` have been appended to file `i`. -/
structure Appended (ni : Nat) (m : Mkfs) (i : Nat) (p : List Byte) (m' : Mkfs) : Prop where
  good : Good ni m'
  files : (view ni m').files =
    update (view ni m).files i (some ((view ni m).contents i ++ p))
  fields : ∀ j, j < ni → ((view ni m').dinode j).fields = ((view ni m).dinode j).fields
  free : (view ni m').freeBlocks + blocksFor ((view ni m).contents i ++ p).length =
    (view ni m).freeBlocks + blocksFor ((view ni m).contents i).length
  freeinode : m'.freeinode = m.freeinode

/-- Files that have grown have no blocks too many. -/
theorem tight_of_wrote (ht : ∀ j, s.Live s.dinode j → s.Tight (s.dinode j)) (hl : s.Live s.dinode i)
    (hw : Wrote s ds s.dinode i s' ip₁ (s.missing (s.dinode i) (Fs.touched (s.dinode i).size n)) f)
    (hip : ip₂ = { ip₁ with size := (s.dinode i).size + n }) (hsize : ip₂.size < 2 ^ 32) :
    ∀ j, (s'.setDinode ip₂).Live (s'.setDinode ip₂).dinode j →
      (s'.setDinode ip₂).Tight ((s'.setDinode ip₂).dinode j) := by
  have hip₂ : ip₂ = { ip₁ with size := ip₂.size } := by rw [hip]
  obtain ⟨hinum, hi⟩ := hw.toPlaced.inum_resized hip₂ hl
  have hdinode : ∀ j, j < s.sb.ninodes → (s'.setDinode ip₂).dinode j = update s.dinode i ip₂ j := by
    intro j hj
    rw [Fs.dinode_setDinode hw.owned.formatted.geo hi hsize (by rwa [hw.setup.sb]), hinum]
    by_cases hji : j = i
    · rw [hji, update_self, update_self]
    · rw [update_of_ne hji, update_of_ne hji, hw.dinode j hj]
  rintro j ⟨hj, htype⟩ p hp
  change j < s'.sb.ninodes at hj
  rw [hw.setup.sb] at hj
  rw [hdinode j hj] at htype hp ⊢
  by_cases hji : j = i
  · subst hji
    rw [update_self, hip, touched_append, Finset.mem_union]
    rw [update_self, hw.toPlaced.slot_resized hip₂ hl] at hp
    by_cases hmem : p ∈ s.missing (s.dinode j) (Fs.touched (s.dinode j).size n)
    · exact Or.inr (Finset.mem_filter.mp hmem).1
    · rw [hw.old p hmem] at hp
      exact Or.inl (ht j hl p hp)
  · rw [update_of_ne hji] at htype hp ⊢
    rw [hw.toPlaced.slot_resized_of_ne hip₂ hl hji ⟨hj, htype⟩] at hp
    exact ht j ⟨hj, htype⟩ p hp

/-- `iappend` does what `writei` at the end of the file does. -/
theorem iappend_wp (hni : ni ≤ inodeSlots) (hg : Good ni m)
    (hl : (view ni m).Live (view ni m).dinode i) :
    wp (iappend i p)
      (fun _ m' => ((view ni m).contents i ++ p).length ≤ MAXFILE * BSIZE ∧ Appended ni m i p m')
      (fun _ _ => MAXFILE * BSIZE < ((view ni m).contents i ++ p).length ∨
        (view ni m).freeBlocks + blocksFor ((view ni m).contents i).length <
          blocksFor ((view ni m).contents i ++ p).length) m := by
  have hfullfile := hg.ownership.full i hl
  have hsmall : MAXFILE * BSIZE < 2 ^ 32 := by decide
  have hi : i < inodeSlots := Nat.lt_of_lt_of_le hl.1 hni
  have hlen : ((view ni m).contents i ++ p).length = ((view ni m).dinode i).size + p.length := by
    rw [length_append, Fs.length_contents]
  have hcontents : ((view ni m).contents i).length = ((view ni m).dinode i).size :=
    Fs.length_contents
  suffices hmain : wp (iappend i p)
      (fun _ m' => ((view ni m).contents i ++ p).length ≤ MAXFILE * BSIZE ∧
        (Kept m m' → Appended ni m i p m'))
      (fun _ _ => MAXFILE * BSIZE < ((view ni m).contents i ++ p).length ∨
        (view ni m).freeBlocks + blocksFor ((view ni m).contents i).length <
          blocksFor ((view ni m).contents i ++ p).length) m from
    wp_mono (wp_and hmain (counts_iappend _ _ m ⟨hg.ready.sectors, rfl, le_rfl, fun _ =>
      hg.ready.within⟩)) (fun _ _ h => ⟨h.1.1, h.1.2 ⟨h.2.freeinode, h.2.low⟩⟩) fun _ _ h => h.1
  unfold iappend
  rw [wp_bind]
  refine rinode_wp ni hg.ready hi ?_
  rw [wp_bind]
  refine iappendLoop_wp p.length m (view ni m).dinode p _ hg.ownership.owned hg.ready hl
    hfullfile.size_le (Nat.le_refl _) (fun hlt _ _ => Or.inl (by rwa [hlen])) (fun hlt _ => ?_) ?_
  · by_cases hmax : ((view ni m).dinode i).size + p.length ≤ MAXFILE * BSIZE
    · right
      have hcard := (hg.tight i hl).card_missing hfullfile hmax
      rw [hlen, hcontents]
      omega
    · left
      rw [hlen]
      omega
  intro hle m₁ ip₁ hr₁ hw
  have hinum : ip₁.inum = i := by
    rw [hw.keeps]
    rfl
  refine winode_wp ni hr₁ (show ip₁.inum < inodeSlots by rwa [hinum]) ?_
  intro m₂ hr₂ hview _ hblock
  have hup := hw.updated_of_grow hg.ownership hl (Nat.le_refl _) hle
  have htight := tight_of_wrote hg.tight hl hw rfl
    (show ((view ni m).dinode i).size + p.length < 2 ^ 32 by omega)
  rw [← hview] at hup htight
  refine ⟨by rwa [hlen], fun hkept => ⟨⟨hr₂, hup.ownership, htight⟩, ?_, fun j hj => ?_, ?_,
    hkept.freeinode⟩⟩
  · have htype : ip₁.type = ((view ni m).dinode i).type := by rw [hw.keeps]
    rw [hup.files_eq hl htype]
    refine congrArg (update _ i) (congrArg some ?_)
    have hoverlay : (List.range (max ((view ni m).dinode i).size
          (((view ni m).dinode i).size + p.length))).map (overlay
          ((view ni m).byteAt ((view ni m).dinode i)) _ p.length (p.getD · 0)) = _ :=
      map_overlay (Nat.le_refl _)
    rw [Nat.max_eq_right (Nat.le_add_right _ _)] at hoverlay
    have htake : ((List.range ((view ni m).dinode i).size).map
        ((view ni m).byteAt ((view ni m).dinode i))).take ((view ni m).dinode i).size =
        (view ni m).contents i := take_of_length_le (by
      rw [length_map, length_range])
    have hdrop : ((List.range ((view ni m).dinode i).size).map
        ((view ni m).byteAt ((view ni m).dinode i))).drop
          (((view ni m).dinode i).size + p.length) = [] := drop_eq_nil_of_le (by
      rw [length_map, length_range]
      omega)
    rw [hoverlay, map_getD_range, htake, hdrop, append_nil]
  · by_cases hji : j = i
    · rw [hji, hup.self, hw.keeps]
      rfl
    · rw [hup.others j hji hj]
  · have hfree := hw.free
    have hcard := (hg.tight i hl).card_missing hfullfile hle
    have hsame : (view ni m₂).freeBlocks = (view ni m₁).freeBlocks := by
      rw [freeBlocks_view hr₂, freeBlocks_view hr₁, hblock]
    rw [hlen, hcontents]
    omega

end Mkfs

end Xv6Kernel
