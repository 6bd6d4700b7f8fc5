/-
  MkfsSizes.lean
  ==============
  Whether the files of a new image have their blocks.

  `mkfs` rounds the size of the root directory up to the next multiple of the block size, also
  if it is one already; the block that is then below the size was never added.  If there are
  more files than the inode blocks have room for, inodes are written to the block of the free
  map, which is overwritten at the end.
-/
import Xv6Kernel.MkfsImage

namespace Xv6Kernel

open PanicMonad Function

/-- The kernel has the image: the superblock has been read, and no block is in the log. -/
structure Mounted (img : Disk) (s : Fs) : Prop where
  sb : s.sb = (img 1).superblock
  cache : s.cache = img

namespace Mkfs

variable {m : Mkfs} {ni i : Nat} {files : List InputFile} {s : Fs} {p : Place}

/-! ### The image and the view -/

theorem Holds.root (h : Holds ni m files) : (view ni m).Live (view ni m).dinode ROOTINO ∧
    (view ni m).contents ROOTINO = rootBytes files :=
  Fs.live_of_files (by rw [h.contents]; exact if_pos rfl)

theorem Holds.root_size (h : Holds ni m files) :
    ((view ni m).dinode ROOTINO).size = direntSize * (files.length + 2) := by
  rw [← Fs.length_contents, h.root.2, length_rootBytes]

section

variable (hni : ni ≤ inodeSlots) (h : Holds ni m files) (hs : Mounted (finish (view ni m)) s)

theorem superblock_finish : (finish (view ni m) 1).superblock = sb := by
  unfold finish
  rw [update_self]
  rfl

include hs

theorem mounted_sb : s.sb = sb := hs.sb.trans superblock_finish

theorem mounted_cache (hb : b ≠ 1) :
    s.cache b = ((view ni m).setDinode (rounded ((view ni m).dinode ROOTINO))).cache b := by
  rw [hs.cache]
  unfold finish
  rw [update_of_ne hb]

include h

/-- Data blocks are the ones of the view. -/
theorem mounted_data (hb : nmeta ≤ b.toNat) : s.cache b = (view ni m).cache b := by
  have hone : b ≠ 1 := by
    rintro rfl
    exact absurd hb (by decide)
  rw [mounted_cache hs hone]
  refine update_of_ne ?_ ..
  exact h.good.ownership.owned.formatted.geo.data_ne_IBLOCK hb h.root.1.1

include hni

/-- The inodes of the image. -/
theorem mounted_dinode (hi : i < ni) : s.dinode i =
    if i = ROOTINO then rounded ((view ni m).dinode ROOTINO) else (view ni m).dinode i := by
  have hlive := h.root.1
  have hsize := (h.good.ownership.full ROOTINO hlive).size_le
  have hsec := Sector.of_inode (Nat.lt_of_lt_of_le hi hni)
  have hrounded : (rounded ((view ni m).dinode ROOTINO)).size < 2 ^ 32 := by
    change (_ / BSIZE + 1) * BSIZE < 2 ^ 32
    have hmax : MAXFILE * BSIZE = 70656 := rfl
    have hb : BSIZE = 512 := rfl
    rw [hb]
    omega
  have hdinode : ((view ni m).setDinode (rounded ((view ni m).dinode ROOTINO))).dinode i = _ :=
    Fs.dinode_setDinode h.good.ownership.owned.formatted.geo hlive.1 hrounded hi
  have hsame : s.dinode i =
      ((view ni m).setDinode (rounded ((view ni m).dinode ROOTINO))).dinode i := by
    refine Fs.dinode_congr fun k => ?_
    unfold Fs.dword
    rw [mounted_sb hs, mounted_cache hs hsec.notSuper]
    rfl
  rw [hsame, hdinode]
  change update (view ni m).dinode ROOTINO _ i = _
  by_cases hroot : i = ROOTINO
  · rw [hroot, update_self, if_pos rfl]
  · rw [update_of_ne hroot, if_neg hroot]

theorem mounted_addrs (hi : i < ni) : (s.dinode i).addrs = ((view ni m).dinode i).addrs := by
  rw [mounted_dinode hni h hs hi]
  split
  · rename_i hroot
    rw [hroot]
    rfl
  · rfl

theorem mounted_slot (hl : (view ni m).Live (view ni m).dinode i) :
    s.slot (s.dinode i) p = (view ni m).slot ((view ni m).dinode i) p := by
  rw [Fs.slot_of_addrs (mounted_addrs hni h hs hl.1)]
  refine Fs.slot_congr fun hind => mounted_data h hs ?_
  exact (h.good.ownership.owned.data (p := .indirect) hl hind).1

theorem mounted_fields (hi : i < ni) : (s.dinode i).fields = fieldsOf files.length i := by
  rw [← h.fields i hi, mounted_dinode hni h hs hi]
  split
  · rename_i hroot
    rw [hroot]
    rfl
  · rfl

theorem mounted_type (hlen : files.length + 2 ≤ ni) (hlow : 1 ≤ i) (hi : i < files.length + 2) :
    (s.dinode i).type = if i = ROOTINO then .dir else .file := by
  have hroot : ROOTINO = 1 := rfl
  have hfields := congrArg InodeFields.type (mounted_fields hni h hs (hi.trans_le hlen))
  change (s.dinode i).type = _ at hfields
  rw [hfields]
  unfold fieldsOf
  by_cases hr : i = ROOTINO
  · rw [if_pos hr, if_pos hr]
    rfl
  · rw [if_neg hr, if_neg hr, if_pos (by omega)]
    rfl

theorem mounted_live (hlen : files.length + 2 ≤ ni) (hlow : 1 ≤ i) (hi : i < files.length + 2) :
    (view ni m).Live (view ni m).dinode i := by
  have hlt := hi.trans_le hlen
  have htype := congrArg InodeFields.type
    ((h.fields i hlt).trans (mounted_fields hni h hs hlt).symm)
  refine ⟨hlt, ?_⟩
  change ((view ni m).dinode i).type = (s.dinode i).type at htype
  rw [htype, mounted_type hni h hs hlen hlow hi]
  split <;> decide

end

/-! ### The root directory -/

/-- The last block of the root directory is there unless the entries fill whole blocks. -/
theorem root_full_iff (hni : ni ≤ inodeSlots) (h : Holds ni m files)
    (hs : Mounted (finish (view ni m)) s) :
    s.Full (s.dinode ROOTINO) ↔ (files.length + 2) % 32 ≠ 0 := by
  have hb : BSIZE = 512 := rfl
  have hd : direntSize = 16 := rfl
  have hl := h.root.1
  have hfull := h.good.ownership.full ROOTINO hl
  have hsize := h.root_size
  have hrounded :
      (s.dinode ROOTINO).size = (((view ni m).dinode ROOTINO).size / BSIZE + 1) * BSIZE := by
    rw [mounted_dinode hni h hs hl.1, if_pos rfl]
    rfl
  rw [hd] at hsize
  rw [hsize, hb] at hrounded
  constructor
  · intro hthere hmod
    obtain ⟨hmax, hne⟩ := hthere ((files.length + 2) / 32) (by rw [hrounded, hb]; omega)
    rw [mounted_slot hni h hs hl] at hne
    have hmem := h.good.tight ROOTINO hl _ hne
    rw [touched_eq, Finset.mem_union, Finset.mem_image, hsize, hb] at hmem
    rcases hmem with ⟨k, hk, heq⟩ | hind
    · have hlt := Finset.mem_range.mp hk
      have hkey := Place.ofIndex_inj (by omega) hmax heq
      omega
    · split at hind
      · exact Place.ofIndex_ne_indirect (Finset.mem_singleton.mp hind)
      · exact absurd hind (Finset.notMem_empty _)
  · intro hmod k hk
    rw [hrounded, hb] at hk
    rw [mounted_slot hni h hs hl]
    refine hfull k ?_
    rw [hsize, hb]
    omega

/-! ### The counters in a run -/

theorem counts_copyFile (fuel : Nat) : ∀ (i : Nat) (rest : List Byte),
    Counts (copyFile fuel i rest) := by
  induction fuel with
  | zero => exact fun _ _ => .pure
  | succ fuel ih => exact fun _ _ => .ite (counts_iappend.bind fun _ => ih _ _) .pure

theorem Counters.ialloc (h : Counters n lo True m) :
    wp (ialloc type) (fun _ => Counters (n + 1) lo True) (fun _ _ => True) m := by
  unfold Mkfs.ialloc
  rw [wp_bind, wp_get, wp_bind, wp_modify]
  refine (counts_winode.bind fun _ => .pure) (n + 1) lo _ { h with freeinode := ?_ }
  exact congrArg (· + 1) h.freeinode

theorem Counters.addFiles (files : List InputFile) : ∀ n m, Counters n lo True m →
    wp (addFiles ROOTINO files) (fun _ => Counters (n + files.length) lo True) (fun _ _ => True)
      m := by
  induction files with
  | nil => exact fun _ _ h => h
  | cons f files ih =>
    intro n m h
    refine wp_bind.mpr (wp_ite (fun _ => trivial) fun _ => ?_)
    refine wp_seq h.ialloc fun j m₁ h₁ => ?_
    refine wp_mono ((counts_iappend.bind fun _ => counts_copyFile _ _ _) _ _ m₁ h₁)
      (fun _ m₂ h₂ => ?_) fun _ _ _ => trivial
    rw [List.length_cons, Nat.add_comm files.length, ← Nat.add_assoc]
    exact ih _ m₂ h₂

/-- At the end, the counters tell what was allocated, and the free map has the blocks that were
    handed out, however many files there are. -/
theorem main_counters (files : List InputFile) :
    wp (main files) (fun _ m' => Counters (files.length + 2) nmeta True m' ∧
      m'.disk bmapBlock = bitmap m'.freeblock ∧ m'.freeblock < BPB) (fun _ _ => True) start := by
  unfold main
  rw [wp_bind, wp_modify, wp_bind]
  generalize hn : FSSIZE = n
  refine zeroSectors_range_wp rfl rfl hn.ge ?_
  rw [wp_bind, ← hn]
  refine wsect_wp rfl (by decide) ?_
  have h₀ : Counters 1 nmeta True blank := ⟨rfl, rfl, Nat.le_refl _, fun _ => by decide⟩
  refine wp_seq h₀.ialloc fun r m₁ h₁ => ?_
  refine wp_ite (fun hr => ?_) fun _ => trivial
  rw [hr, wp_bind]
  refine wp_mono (counts_iappend _ _ _ h₁) (fun _ m₂ h₂ => ?_) fun _ _ _ => trivial
  refine wp_seq (counts_iappend _ _ _ h₂) fun _ m₃ h₃ => ?_
  refine wp_seq (Counters.addFiles files _ _ h₃) fun _ m₄ h₄ => ?_
  refine wp_seq ((counts_rinode.bind fun _ => counts_winode) _ _ _ h₄) fun _ m₅ h₅ => ?_
  rw [wp_bind, wp_get]
  refine wp_ite (fun hlt => ?_) fun _ => trivial
  refine wsect_wp h₅.sectors (by decide) ⟨?_, ?_, hlt⟩
  · rw [Nat.add_comm files.length]
    exact { h₅ with }
  · change update m₅.disk bmapBlock (bitmap m₅.freeblock) bmapBlock = _
    exact update_self ..

/-- The inode behind the inode blocks is in the free map. -/
theorem last_inode_lost (hsb : s.sb = sb) (hmap : s.cache bmapBlock = bitmap n)
    (hlow : nmeta ≤ n) (hn : n < BPB) :
    (s.dinode inodeSlots).type ≠ .file := by
  have hblock : s.sb.IBLOCK inodeSlots = bmapBlock := by
    rw [hsb]
    decide
  have hbit : ((s.dword inodeSlots 0).extractLsb' 0 16).getLsbD 0 = true := by
    have hset : (bitmap n).testBit 0 = true := by
      rw [testBit_bitmap hn.le (by decide), decide_eq_true_iff]
      exact Nat.lt_of_lt_of_le (by decide) hlow
    unfold Fs.dword
    rw [hblock, hmap, BitVec.getLsbD_extractLsb']
    exact hset
  change InodeType.ofCode ((s.dword inodeSlots 0).extractLsb' 0 16) ≠ .file
  generalize (s.dword inodeSlots 0).extractLsb' 0 16 = c at hbit
  intro hfile
  have hcode : c.toNat = 2 := by
    unfold InodeType.ofCode at hfile
    split at hfile <;> first | assumption | cases hfile
  have hc : c = 2 := BitVec.eq_of_toNat_eq hcode
  rw [hc] at hbit
  exact absurd hbit (by decide)

end Mkfs

/-! ### The sizes of the inodes -/

open Mkfs in
/-- The `n + 1` inodes are the root directory and regular files, all their blocks below the size
    are there, and reading from them changes nothing. -/
def SizeInvariant (n : Nat) (s : Fs) : Prop :=
  ∀ i, 1 ≤ i → i ≤ n + 1 →
    (s.dinode i).type = (if i = ROOTINO then .dir else .file) ∧ s.Full (s.dinode i) ∧
      ∀ off k, off < 2 ^ 32 → k < 2 ^ 32 → ∃ r, readi (s.dinode i) off k s = .ok r s

namespace Mkfs

variable {m : Mkfs} {files : List InputFile} {s : Fs}

/-- With the last block of the root directory, the size invariant holds. -/
theorem sizeInvariant_of_root (hni : ni ≤ inodeSlots) (hlen : files.length + 2 ≤ ni)
    (h : Holds ni m files) (hs : Mounted (finish (view ni m)) s)
    (hfull : s.Full (s.dinode ROOTINO)) : SizeInvariant files.length s := by
  intro i hlow hhigh
  have hi : i < files.length + 2 := by omega
  have htype := mounted_type hni h hs hlen hlow hi
  have hall : s.Full (s.dinode i) := by
    by_cases hr : i = ROOTINO
    · rw [hr]
      exact hfull
    · have hsame := mounted_dinode hni h hs (hi.trans_le hlen)
      rw [if_neg hr] at hsame
      have hl := mounted_live hni h hs hlen hlow hi
      intro k hk
      rw [mounted_slot hni h hs hl]
      rw [hsame] at hk
      exact h.good.ownership.full i hl k hk
  refine ⟨htype, hall, fun off k hoff hk => ?_⟩
  have hdev : (s.dinode i).type ≠ .dev := by
    rw [htype]
    split <;> exact nofun
  obtain ⟨r, t, hread, rfl⟩ := exists_ok_of_wp
    (readi_wp_full (P := fun _ t => t = s) hall hdev hoff hk (fun _ => rfl) fun _ _ => rfl)
  exact ⟨r, hread⟩

/-- Files that fit give an image. -/
theorem exists_image (hlen : files.length + 2 ≤ inodeSlots) (hfits : Fits files) :
    ∃ (m : Mkfs) (s : Fs), main files start = .ok () m ∧ s.sb = sb ∧ s.cache = m.disk := by
  have hmain := main_wp (Nat.le_refl inodeSlots) hlen
  obtain ⟨_, m, hrun, -⟩ := exists_ok_of_wp (wp_mono hmain (fun _ _ h => h) fun _ _ h => h hfits)
  exact ⟨m, { view NINODES m with cache := m.disk }, hrun, rfl, rfl⟩

/-- Empty files fit as long as the inode blocks have room. -/
theorem fits_of_empty (hlen : files.length + 2 ≤ inodeSlots)
    (hnames : ∀ f ∈ files, slash ∉ f.name.1) (hempty : ∀ f ∈ files, f.contents = []) :
    Fits files := by
  have hroot : (rootBytes files).length = 16 * (files.length + 2) := length_rootBytes
  have hslots : inodeSlots = 208 := rfl
  have hzero : ∀ f ∈ files, blocksFor f.contents.length = 0 := by
    intro f hf
    rw [hempty f hf]
    rfl
  refine ⟨hnames, fun f hf => ?_, ?_, ?_⟩
  · rw [hempty f hf]
    exact Nat.zero_le _
  · rw [hroot]
    change _ ≤ 70656
    omega
  · have hblocks : blocksFor (16 * (files.length + 2)) ≤ 8 := by
      have hb : BSIZE = 512 := rfl
      unfold blocksFor
      rw [hb]
      split <;> omega
    unfold used
    rw [hroot, List.map_congr_left hzero, List.map_const', List.sum_replicate_nat, Nat.mul_zero]
    exact hblocks.trans (by decide)

/-- Thirty empty files with names of one letter. -/
def emptyFiles : List InputFile := (List.finRange 30).map fun i =>
  ⟨⟨[BitVec.ofNat 8 (97 + i.val)], by revert i; decide⟩, []⟩

theorem length_emptyFiles : emptyFiles.length = 30 := by
  unfold emptyFiles
  rw [List.length_map, List.length_finRange]

theorem fits_emptyFiles : Fits emptyFiles := by
  refine fits_of_empty (by rw [length_emptyFiles]; decide) (fun f hf => ?_) fun f hf => ?_
  · obtain ⟨i, -, rfl⟩ := List.mem_map.mp hf
    exact (show ∀ i : Fin 30, slash ∉ [BitVec.ofNat 8 (97 + i.val)] by decide) i
  · obtain ⟨i, -, rfl⟩ := List.mem_map.mp hf
    rfl

/-- What `mkfs` allocated is where the layout has room for it: inode numbers are below `NINODES`, the
    dinodes are in the inode blocks, which the free map does not overwrite, and the blocks handed
    out, with those that the inodes name, pass the test of `idestart`. -/
structure InLayout (m : Mkfs) (s : Fs) : Prop where
  inodes : ∀ i, 1 ≤ i → i < m.freeinode → i < NINODES
  dinodes : ∀ i, 1 ≤ i → i < m.freeinode →
    sb.inodestart ≤ (sb.IBLOCK i).toNat ∧ (sb.IBLOCK i).toNat < sb.bmapstart
  types : ∀ i, 1 ≤ i → i < m.freeinode →
    (s.dinode i).type = if i = ROOTINO then .dir else .file
  blocks : ∀ b, nmeta ≤ b → b < m.freeblock → b < FSSIZE
  named : ∀ i p, 1 ≤ i → i < m.freeinode → s.slot (s.dinode i) p ≠ 0 →
    (s.slot (s.dinode i) p).toNat < FSSIZE

/-- A run that succeeds stays in the layout if and only if the inodes do. -/
theorem inLayout_iff (hrun : main files start = .ok () m) (hsb : s.sb = sb)
    (hcache : s.cache = m.disk) : InLayout m s ↔ files.length + 1 < NINODES := by
  obtain ⟨hc, -, -⟩ := post_of_ok (main_counters files) hrun
  constructor
  · intro h
    exact h.inodes (files.length + 1) (Nat.le_add_left ..) (by rw [hc.freeinode]; omega)
  · intro hlen
    have hslots : inodeSlots = 208 := rfl
    have hmax : NINODES = 200 := rfl
    have hni := Nat.le_refl inodeSlots
    have hroom : files.length + 2 ≤ inodeSlots := by omega
    obtain ⟨m₁, h, hdisk⟩ := post_of_ok (main_wp hni hroom) hrun
    have hs : Mounted (finish (view inodeSlots m₁)) s :=
      ⟨hsb.trans superblock_finish.symm, hcache.trans hdisk⟩
    rw [← Nat.succ_lt_succ_iff, Nat.succ_eq_add_one, ← hc.freeinode] at hlen
    have hlive := fun i hlow hi => mounted_live (i := i) hni h hs hroom hlow (hc.freeinode ▸ hi)
    refine ⟨fun i _ hi => by omega, fun i _ hi => ?_,
      fun i hlow hi => mounted_type hni h hs hroom hlow (hc.freeinode ▸ hi),
      fun b _ hb => hb.trans_le (hc.high trivial), fun i p hlow hi hne => ?_⟩
    · have hgeo := h.good.ownership.owned.formatted.geo
      have hblock := hgeo.toNat_IBLOCK (i := i) (show i < inodeSlots by omega)
      change (sb.IBLOCK i).toNat = i / 8 + 32 at hblock
      change 32 ≤ _ ∧ _ < 58
      omega
    · rw [mounted_slot hni h hs (hlive i hlow hi)] at hne ⊢
      exact (h.good.ownership.owned.data (hlive i hlow hi) hne).2.1

theorem inLayout_no_files :
    ∃ (m : Mkfs) (s : Fs), main [] start = .ok () m ∧ s.sb = sb ∧ s.cache = m.disk ∧
      InLayout m s := by
  have hfits : Fits [] := fits_of_empty (by decide) nofun nofun
  obtain ⟨m, s, hrun, hsb, hcache⟩ := exists_image (by decide) hfits
  exact ⟨m, s, hrun, hsb, hcache, (inLayout_iff hrun hsb hcache).mpr (by decide)⟩

/-- An empty file whose name has two letters. -/
def emptyFile (i j : Fin 16) : InputFile :=
  ⟨⟨[BitVec.ofNat 8 (97 + i.val), BitVec.ofNat 8 (97 + j.val)], by revert i j; decide⟩, []⟩

def manyFiles : List InputFile :=
  (List.range 199).map fun n => emptyFile (Fin.ofNat 16 (n / 16)) (Fin.ofNat 16 n)

/-- With 199 files the last inode has the number `NINODES`. -/
theorem inLayout_fails_manyFiles :
    ∃ (m : Mkfs) (s : Fs), main manyFiles start = .ok () m ∧ s.sb = sb ∧ s.cache = m.disk ∧
      ¬ InLayout m s := by
  have hlen : manyFiles.length = 199 := by
    unfold manyFiles
    rw [List.length_map, List.length_range]
  have hfits : Fits manyFiles := by
    refine fits_of_empty (by rw [hlen]; decide) (fun f hf => ?_) fun f hf => ?_
    · obtain ⟨i, -, rfl⟩ := List.mem_map.mp hf
      exact (show ∀ i j, slash ∉ (emptyFile i j).name.1 by decide) _ _
    · obtain ⟨i, -, rfl⟩ := List.mem_map.mp hf
      rfl
  obtain ⟨m, s, hrun, hsb, hcache⟩ := exists_image (by rw [hlen]; decide) hfits
  obtain ⟨hc, -, -⟩ := post_of_ok (main_counters manyFiles) hrun
  refine ⟨m, s, hrun, hsb, hcache, fun h => ?_⟩
  exact Nat.lt_irrefl NINODES (h.inodes NINODES (by decide) (by rw [hc.freeinode, hlen]; decide))

/-- The kernel reads from inode `i + 2` any part of what file `i` held. -/
theorem readi_input_file (hrun : main files start = .ok () m) (hsb : s.sb = sb)
    (hcache : s.cache = m.disk) (hroom : files.length + 2 ≤ inodeSlots) (hf : files[i]? = some f)
    (hoff : off ≤ f.contents.length) (hn : off + n < 2 ^ 32) :
    readi (s.dinode (i + 2)) off n s = .ok ((min (off + n) f.contents.length - off : Nat),
      (f.contents.drop off).take n, s.dinode (i + 2)) s := by
  have hni := Nat.le_refl inodeSlots
  obtain ⟨m₁, h, hdisk⟩ := post_of_ok (main_wp hni hroom) hrun
  have hs : Mounted (finish (view inodeSlots m₁)) s :=
    ⟨hsb.trans superblock_finish.symm, hcache.trans hdisk⟩
  have hroot : i + 2 ≠ ROOTINO := by simp [ROOTINO]
  have hi : i + 2 < files.length + 2 := Nat.add_lt_add_right (List.getElem?_eq_some_iff.mp hf).1 2
  have hfile : (view inodeSlots m₁).files (i + 2) = some f.contents := by
    rw [h.contents, fileMap, if_neg hroot, if_pos (Nat.le_add_left 2 i), Nat.add_sub_cancel, hf]
    rfl
  obtain ⟨hl, hview⟩ := Fs.live_of_files hfile
  have hsame := mounted_dinode hni h hs hl.1
  rw [if_neg hroot] at hsame
  have hslot := fun p => mounted_slot (p := p) hni h hs hl
  have hbyte : ∀ k, s.byteAt (s.dinode (i + 2)) k = _ := fun k =>
    Fs.byteAt_congr (hslot _) fun hne =>
      mounted_data h hs (h.good.ownership.owned.data hl hne).1
  have hfull : s.Full (s.dinode (i + 2)) := by
    intro k hk
    rw [hslot]
    rw [hsame] at hk
    exact h.good.ownership.full _ hl k hk
  have htype := mounted_type hni h hs hroom (Nat.le_add_left 1 _) hi
  rw [if_neg hroot] at htype
  have hcontents : s.contents (i + 2) = f.contents := by
    unfold Fs.contents
    rw [List.map_congr_left fun k _ => hbyte k, hsame]
    exact hview
  rw [← hcontents] at hoff ⊢
  rw [Fs.length_contents] at hoff ⊢
  unfold Fs.contents
  rw [drop_take_map_range]
  exact ok_of_wp (readi_wp_full hfull (by rw [htype]; exact nofun) (by omega) (by omega)
    (fun hbad => absurd hbad (by omega)) fun _ _ => ⟨rfl, rfl⟩)

def noteFile : InputFile := ⟨⟨[110], by decide⟩, [104, 105]⟩

theorem readi_input_file_note : ∃ (m : Mkfs) (s : Fs), main [noteFile] start = .ok () m ∧
    s.cache = m.disk ∧ readi (s.dinode 2) 1 5 s = .ok (1, [105], s.dinode 2) s := by
  have hfits : Fits [noteFile] := ⟨by decide, by decide, by decide, by decide⟩
  obtain ⟨m, s, hrun, hsb, hcache⟩ := exists_image (by decide) hfits
  refine ⟨m, s, hrun, hcache, ?_⟩
  exact readi_input_file (i := 0) hrun hsb hcache (by decide) rfl (by decide) (by decide)

end Mkfs

end Xv6Kernel
