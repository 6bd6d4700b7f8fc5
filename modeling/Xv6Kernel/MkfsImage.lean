/-
  MkfsImage.lean
  ==============
  The image that `mkfs` makes.

  `Holds ni m files` says what the disk holds after some of the files have been added: the
  root directory has an entry for each of them, and each is a file of its own.  Every file
  that is added keeps it.  From it follows what the kernel finds on the disk.
-/
import Xv6Kernel.InodeWalk
import Xv6Kernel.MkfsAppend

namespace Xv6Kernel

open PanicMonad Function List

/-! ### A new inode -/

section

variable {s : Fs} {ds : Nat} {ip : Inode}

/-- An inode without blocks in the place of a free one. -/
structure Fs.NewInode (s : Fs) (ds : Nat) (ip : Inode) : Prop where
  ownership : (s.setDinode ip).BlockOwnership ds
  dinode : ∀ j, j < s.sb.ninodes →
    (s.setDinode ip).dinode j = update s.dinode ip.inum ip j
  slot : ∀ j, s.Live s.dinode j → ∀ p, (s.setDinode ip).slot (s.dinode j) p = s.slot (s.dinode j) p
  byte : ∀ j, s.Live s.dinode j → ∀ k,
    (s.setDinode ip).byteAt (s.dinode j) k = s.byteAt (s.dinode j) k

theorem Fs.BlockOwnership.newInode (ho : s.BlockOwnership ds) (hi : ip.inum < s.sb.ninodes)
    (hfree : (s.dinode ip.inum).type = .free) (haddrs : ip.addrs = fun _ => 0)
    (hsize : ip.size = 0) : s.NewInode ds ip := by
  have hnone : ∀ p, s.owner s.dinode (ip.inum, p) = none :=
    fun p => if_neg fun hcon => hcon.1.2 hfree
  have hdinode : ∀ j, j < s.sb.ninodes → (s.setDinode ip).dinode j = update s.dinode ip.inum ip j :=
    fun j hj => Fs.dinode_setDinode ho.owned.formatted.geo hi (by rw [hsize]; decide) hj
  have hslot : ∀ j, s.Live s.dinode j → ∀ p,
      (s.setDinode ip).slot (s.dinode j) p = s.slot (s.dinode j) p :=
    fun j hl p => ho.owned.slot_setDinode hi hl
  have hown := (ho.owned.of_empty hnone rfl haddrs).setDinode hi
  refine ⟨ho.of_inode hown rfl hdinode (fun j _ hl p => hslot j hl p) fun _ k hk => ?_, hdinode,
    hslot, fun j hl k => ho.owned.byteAt_setDinode hi hl⟩
  rw [hsize] at hk
  exact absurd hk (Nat.not_lt_zero _)

theorem Fs.NewInode.files (h : s.NewInode ds ip) (hi : ip.inum < s.sb.ninodes)
    (htype : ip.type ≠ .free) (hsize : ip.size = 0) :
    (s.setDinode ip).files = update s.files ip.inum (some []) := by
  funext j
  by_cases hj : j = ip.inum
  · subst hj
    have hself := h.dinode ip.inum hi
    rw [update_self] at hself
    have hlive : (s.setDinode ip).Live (s.setDinode ip).dinode ip.inum :=
      ⟨hi, by rw [hself]; exact htype⟩
    rw [update_self, Fs.files_of_live hlive]
    unfold Fs.contents
    rw [hself, hsize]
    rfl
  · rw [update_of_ne hj]
    unfold Fs.files
    by_cases hl : s.Live s.dinode j
    · have hsame := h.dinode j hl.1
      rw [update_of_ne hj] at hsame
      have hlive : (s.setDinode ip).Live (s.setDinode ip).dinode j :=
        ⟨hl.1, by rw [hsame]; exact hl.2⟩
      rw [if_pos hlive, if_pos hl]
      unfold Fs.contents
      rw [hsame]
      exact congrArg some (map_congr_left fun k _ => h.byte j hl k)
    · refine (if_neg fun hcon => hl ⟨hcon.1, ?_⟩).trans (if_neg hl).symm
      have hsame := h.dinode j hcon.1
      rw [update_of_ne hj] at hsame
      rw [← hsame]
      exact hcon.2

theorem Fs.live_of_files (h : s.files i = some f) : s.Live s.dinode i ∧ s.contents i = f := by
  unfold Fs.files at h
  split at h
  · rename_i hl
    exact ⟨hl, Option.some.inj h⟩
  · cases h

end

namespace Mkfs

variable {m m' : Mkfs} {ni i : Nat} {files : List InputFile} {f : InputFile}

/-- `ialloc` has written a new inode. -/
structure Allocated (ni : Nat) (m : Mkfs) (type : InodeType) (m' : Mkfs) : Prop where
  good : Good ni m'
  files : (view ni m').files = update (view ni m).files m.freeinode (some [])
  fields : ∀ j, j < ni → ((view ni m').dinode j).fields =
    if j = m.freeinode then (newInode j type).fields else ((view ni m).dinode j).fields
  free : (view ni m').freeBlocks = (view ni m).freeBlocks
  freeinode : m'.freeinode = m.freeinode + 1

theorem ialloc_wp (hni : ni ≤ inodeSlots) (hg : Good ni m)
    (hlt : m.freeinode < ni) (hfree : ((view ni m).dinode m.freeinode).type = .free)
    (htype : type ≠ .free) :
    wp (ialloc type) (fun r m' => r = m.freeinode ∧ Allocated ni m type m') (fun _ _ => False)
      m := by
  unfold ialloc
  rw [wp_bind, wp_get, wp_bind, wp_modify, wp_bind]
  have hr : Ready { m with freeinode := m.freeinode + 1 } :=
    ⟨hg.ready.sectors, hg.ready.super, hg.ready.above, hg.ready.within, hg.ready.zero⟩
  refine winode_wp ni hr (Nat.lt_of_lt_of_le hlt hni) fun m' hr' hview hkept hblock => ?_
  have hnew : (view ni m).NewInode nmeta (newInode m.freeinode type) :=
    hg.ownership.newInode hlt hfree rfl rfl
  change view ni m' = (view ni m).setDinode (newInode m.freeinode type) at hview
  refine ⟨rfl, ⟨hr', by rw [hview]; exact hnew.ownership, ?_⟩, ?_, fun j hj => ?_, ?_,
    hkept.freeinode⟩
  · rw [hview]
    rintro j ⟨hj, hnonfree⟩ p hp
    rw [hnew.dinode j hj] at hnonfree hp ⊢
    change ((view ni m).setDinode (newInode m.freeinode type)).slot
      (update (view ni m).dinode m.freeinode (newInode m.freeinode type) j) p ≠ 0 at hp
    by_cases hji : j = m.freeinode
    · rw [hji, update_self] at hp
      exact absurd (slot_truncated rfl) hp
    · change (update (view ni m).dinode m.freeinode _ j).type ≠ _ at hnonfree
      change p ∈ Fs.touched 0 (update (view ni m).dinode m.freeinode _ j).size
      rw [update_of_ne hji] at hp hnonfree ⊢
      rw [hnew.slot j ⟨hj, hnonfree⟩] at hp
      exact hg.tight j ⟨hj, hnonfree⟩ p hp
  · rw [hview]
    exact hnew.files hlt htype rfl
  · rw [hview, hnew.dinode j hj]
    change (update (view ni m).dinode m.freeinode _ j).fields = _
    by_cases hji : j = m.freeinode
    · rw [hji, update_self, if_pos rfl]
    · rw [update_of_ne hji, if_neg hji]
  · rw [freeBlocks_view hr', freeBlocks_view hg.ready, hblock]

/-! ### Copying a file -/

theorem Appended.live (h : Appended ni m i p m') : (view ni m').Live (view ni m').dinode i ∧
      (view ni m').contents i = (view ni m).contents i ++ p :=
  Fs.live_of_files (by rw [h.files, update_self])

theorem Appended.refl (hg : Good ni m) (hl : (view ni m).Live (view ni m).dinode i) :
    Appended ni m i [] m := by
  refine ⟨hg, ?_, fun _ _ => rfl, by rw [append_nil], rfl⟩
  rw [append_nil, ← Fs.files_of_live hl, update_eq_self]

theorem Appended.trans (h : Appended ni m i p m')
    (h' : Appended ni m' i q m₂) : Appended ni m i (p ++ q) m₂ := by
  have hcontents := h.live.2
  have hfree := h.free
  have hfree' := h'.free
  rw [hcontents, append_assoc] at hfree'
  refine ⟨h'.good, ?_, fun j hj => (h'.fields j hj).trans (h.fields j hj), by omega,
    h'.freeinode.trans h.freeinode⟩
  rw [h'.files, h.files, update_idem, hcontents, append_assoc]

/-- Reading a file chunk by chunk appends all of it. -/
theorem copyFile_wp (hni : ni ≤ inodeSlots) : ∀ (fuel : Nat) (m : Mkfs) (rest : List Byte),
    Good ni m → (view ni m).Live (view ni m).dinode i → rest.length ≤ fuel →
    wp (copyFile fuel i rest) (fun _ m' => Appended ni m i rest m')
      (fun _ _ => MAXFILE * BSIZE < ((view ni m).contents i ++ rest).length ∨
        (view ni m).freeBlocks + blocksFor ((view ni m).contents i).length <
          blocksFor ((view ni m).contents i ++ rest).length) m := by
  intro fuel
  induction fuel with
  | zero =>
    intro m rest hg hl hlen
    obtain rfl := length_eq_zero_iff.mp (Nat.le_zero.mp hlen)
    exact .refl hg hl
  | succ fuel ih =>
    intro m rest hg hl hlen
    refine wp_ite (fun hpos => ?_) fun hzero => ?_
    · have hsplit : rest.take BSIZE ++ rest.drop BSIZE = rest := take_append_drop ..
      have hb : BSIZE = 512 := rfl
      have hshort : ((view ni m).contents i ++ rest.take BSIZE).length ≤
          ((view ni m).contents i ++ rest).length := by
        rw [length_append, length_append, length_take]
        omega
      have hdrop : (rest.drop BSIZE).length ≤ fuel := by
        rw [length_drop]
        omega
      rw [wp_bind]
      refine wp_mono (iappend_wp hni hg hl) (fun _ m₁ h₁ => ?_) fun _ _ h => ?_
      · have happ := h₁.2
        refine wp_mono (ih m₁ (rest.drop BSIZE) happ.good happ.live.1 hdrop) (fun _ m₂ h₂ => ?_)
          fun _ _ h => ?_
        · have htrans := happ.trans h₂
          rwa [hsplit] at htrans
        · have hfree := happ.free
          rw [happ.live.2, append_assoc, hsplit] at h
          refine h.imp_right fun hlt => ?_
          omega
      · refine h.imp (fun hlt => hlt.trans_le hshort)
          fun hlt => hlt.trans_le (blocksFor_mono hshort)
    · obtain rfl := length_eq_zero_iff.mp (Nat.eq_zero_of_not_pos hzero)
      exact .refl hg hl

/-! ### Adding the files -/

/-- The directory entries of the files, which have the inode numbers from `n` on. -/
def entries (n : Nat) : List InputFile → Bytes
  | [] => []
  | f :: fs => direntBytes n f.entryName ++ entries (n + 1) fs

/-- The root directory. -/
def rootBytes (files : List InputFile) : Bytes :=
  direntBytes ROOTINO dot ++ direntBytes ROOTINO dotdot ++ entries 2 files

/-- The files on the disk; those that were given have the inode numbers from 2 on. -/
def fileMap (files : List InputFile) (i : Nat) : Option Bytes :=
  if i = ROOTINO then some (rootBytes files)
  else if 2 ≤ i then files[i - 2]?.map InputFile.contents
  else none

/-- The fields of the inodes if there are `n` files. -/
def fieldsOf (n i : Nat) : InodeFields :=
  if i = ROOTINO then (newInode i .dir).fields
  else if 2 ≤ i ∧ i < n + 2 then (newInode i .file).fields
  else ⟨.free, 0, 0, 0, 0, 0, 0⟩

/-- The number of data blocks in use. -/
def used (files : List InputFile) : Nat :=
  blocksFor (rootBytes files).length + (files.map fun f => blocksFor f.contents.length).sum

/-- What makes `mkfs` succeed. -/
structure Fits (files : List InputFile) : Prop where
  names : ∀ f ∈ files, slash ∉ f.name.1
  sizes : ∀ f ∈ files, f.contents.length ≤ MAXFILE * BSIZE
  root : (rootBytes files).length ≤ MAXFILE * BSIZE
  blocks : used files ≤ nblocks

/-- The disk holds the files. -/
structure Holds (ni : Nat) (m : Mkfs) (files : List InputFile) : Prop where
  good : Good ni m
  contents : (view ni m).files = fileMap files
  fields : ∀ i, i < ni → ((view ni m).dinode i).fields = fieldsOf files.length i
  free : (view ni m).freeBlocks + used files = nblocks
  freeinode : m.freeinode = files.length + 2

theorem entries_append (fs gs : List InputFile) : ∀ n,
    entries n (fs ++ gs) = entries n fs ++ entries (n + fs.length) gs := by
  induction fs with
  | nil => intro n; rfl
  | cons f fs ih =>
    intro n
    change direntBytes n f.entryName ++ entries (n + 1) (fs ++ gs) = _
    rw [ih, ← append_assoc, length_cons, Nat.add_assoc, Nat.add_comm 1]
    rfl

theorem length_strncpy (n : Nat) : ∀ s : List Byte, (strncpy s n).length = n := by
  induction n with
  | zero => intro s; rfl
  | succ n ih =>
    intro s
    unfold strncpy
    split
    · exact length_replicate
    · rw [length_cons, ih]

theorem length_direntBytes : (direntBytes inum name).length = direntSize := by
  change (strncpy name DIRSIZ).length + 1 + 1 = direntSize
  rw [length_strncpy]
  rfl

theorem length_entries (fs : List InputFile) :
    ∀ n, (entries n fs).length = direntSize * fs.length := by
  induction fs with
  | nil => exact fun _ => rfl
  | cons f fs ih =>
    intro n
    change (direntBytes n f.entryName ++ entries (n + 1) fs).length = _
    rw [length_append, length_direntBytes, ih, length_cons, Nat.mul_succ, Nat.add_comm]

theorem length_rootBytes : (rootBytes files).length = direntSize * (files.length + 2) := by
  unfold rootBytes
  rw [length_append, length_append, length_direntBytes, length_direntBytes, length_entries]
  unfold direntSize
  omega

theorem rootBytes_append (gs : List InputFile) :
    rootBytes (files ++ gs) = rootBytes files ++ entries (files.length + 2) gs := by
  unfold rootBytes
  rw [entries_append, append_assoc, append_assoc, append_assoc, Nat.add_comm 2]

theorem used_append (gs : List InputFile) :
    used (files ++ gs) + blocksFor (rootBytes files).length =
    used files + blocksFor (rootBytes (files ++ gs)).length +
      (gs.map fun f => blocksFor f.contents.length).sum := by
  unfold used
  rw [map_append, sum_append]
  omega

theorem Fits.of_append (h : Fits (files ++ gs)) : Fits files := by
  have hle : (rootBytes files).length ≤ (rootBytes (files ++ gs)).length := by
    rw [rootBytes_append, length_append]
    exact Nat.le_add_right _ _
  refine ⟨fun f hf => h.names f (mem_append_left _ hf),
    fun f hf => h.sizes f (mem_append_left _ hf), hle.trans h.root, ?_⟩
  have hblocks := h.blocks
  have hmono := blocksFor_mono hle
  have hused : used (files ++ gs) + blocksFor (rootBytes files).length = _ := used_append gs
  omega

/-- The files after one more has got its inode, its entry and its contents. -/
theorem fileMap_append : fileMap (files ++ [f]) =
    update (update (update (fileMap files) (files.length + 2) (some []))
      ROOTINO (some (rootBytes files ++ direntBytes (files.length + 2) f.entryName)))
      (files.length + 2) (some f.contents) := by
  have hroot : ROOTINO = 1 := rfl
  funext j
  by_cases hj : j = files.length + 2
  · rw [hj, update_self]
    unfold fileMap
    rw [if_neg (by omega), if_pos (by omega), Nat.add_sub_cancel, getElem?_concat_length]
    rfl
  · rw [update_of_ne hj]
    by_cases hr : j = ROOTINO
    · rw [hr, update_self]
      unfold fileMap
      rw [if_pos rfl, rootBytes_append]
      change some (rootBytes files ++ (_ ++ [])) = _
      rw [append_nil]
    · rw [update_of_ne hr, update_of_ne hj]
      unfold fileMap
      rw [if_neg hr, if_neg hr]
      refine if_ctx_congr Iff.rfl (fun h2 => ?_) fun _ => rfl
      rcases Nat.lt_or_ge (j - 2) files.length with hlt | hge
      · rw [getElem?_append_left hlt]
      · rw [getElem?_eq_none (by rw [length_append, length_singleton]; omega), getElem?_eq_none hge]

theorem fieldsOf_succ : fieldsOf (n + 1) j =
    if j = n + 2 then (newInode j .file).fields else fieldsOf n j := by
  have hroot : ROOTINO = 1 := rfl
  unfold fieldsOf
  by_cases hj : j = n + 2
  · rw [if_pos hj, if_neg (by omega), if_pos (by omega)]
  · rw [if_neg hj]
    refine if_congr Iff.rfl rfl (if_congr ?_ rfl rfl)
    omega

/-- One more file. -/
theorem addFile_wp (hni : ni ≤ inodeSlots) (h : Holds ni m files) (hlt : files.length + 2 < ni) :
    wp (addFile ROOTINO f) (fun _ m' => Holds ni m' (files ++ [f]))
      (fun _ _ => ¬ Fits (files ++ [f])) m := by
  have hroot : ROOTINO = 1 := rfl
  have hother : files.length + 2 ≠ ROOTINO := by omega
  have hmem : f ∈ files ++ [f] := mem_append_right _ (mem_singleton_self f)
  have hfree : ((view ni m).dinode m.freeinode).type = .free := by
    have hfields := congrArg InodeFields.type
      (h.fields m.freeinode (by rw [h.freeinode]; exact hlt))
    rw [h.freeinode] at hfields ⊢
    unfold fieldsOf at hfields
    rw [if_neg (by omega), if_neg (by omega)] at hfields
    exact hfields
  refine wp_ite (fun hslash => fun hfits => hfits.names f hmem hslash) fun _ => ?_
  rw [wp_bind]
  refine wp_mono (ialloc_wp hni h.good (by rw [h.freeinode]; exact hlt) hfree nofun)
    (fun r m₁ h₁ => ?_) fun _ _ hf => hf.elim
  obtain ⟨rfl, h₁⟩ := h₁
  have hfiles₁ := h₁.files
  rw [h.contents, h.freeinode] at hfiles₁
  have hroot₁ : (view ni m₁).files ROOTINO = some (rootBytes files) := by
    rw [hfiles₁, update_of_ne hother.symm]
    exact if_pos rfl
  obtain ⟨hlroot, hcroot⟩ := Fs.live_of_files hroot₁
  have hentry : rootBytes (files ++ [f]) =
      rootBytes files ++ direntBytes (files.length + 2) f.entryName := by
    rw [rootBytes_append]
    change rootBytes files ++ (_ ++ []) = _
    rw [append_nil]
  have hused : used (files ++ [f]) + blocksFor (rootBytes files).length =
      used files + blocksFor (rootBytes (files ++ [f])).length + blocksFor f.contents.length := by
    rw [used_append]
    rfl
  have hfree₁ := h.free
  rw [← h₁.free] at hfree₁
  rw [h.freeinode, wp_bind]
  refine wp_mono (iappend_wp hni h₁.good hlroot) (fun _ m₂ h₂ => ?_) fun _ _ hfail hfits => ?_
  · obtain ⟨-, h₂⟩ := h₂
    have hfiles₂ := h₂.files
    rw [hfiles₁, hcroot] at hfiles₂
    have hnew₂ : (view ni m₂).files (files.length + 2) = some [] := by
      rw [hfiles₂, update_of_ne hother, update_self]
    obtain ⟨hlnew, hcnew⟩ := Fs.live_of_files hnew₂
    have hfree₂ := h₂.free
    rw [hcroot, ← hentry] at hfree₂
    have hzero : blocksFor ([] : Bytes).length = 0 := rfl
    refine wp_mono (copyFile_wp hni _ m₂ f.contents h₂.good hlnew (Nat.le_refl _))
      (fun _ m₃ h₃ => ?_)
      fun _ _ hfail hfits => ?_
    · have hfiles₃ := h₃.files
      rw [hfiles₂, hcnew, nil_append, ← fileMap_append] at hfiles₃
      have hfree₃ := h₃.free
      rw [hcnew, nil_append, hzero] at hfree₃
      refine ⟨h₃.good, hfiles₃, fun j hj => ?_, by omega, ?_⟩
      · rw [h₃.fields j hj, h₂.fields j hj, h₁.fields j hj, h.fields j hj, h.freeinode,
          length_append, length_singleton, fieldsOf_succ]
      · rw [h₃.freeinode, h₂.freeinode, h₁.freeinode, h.freeinode, length_append, length_singleton]
    · have hsize := hfits.sizes f hmem
      have hblocks := hfits.blocks
      rw [hcnew, nil_append, hzero] at hfail
      omega
  · have hsize := hfits.root
    have hblocks := hfits.blocks
    rw [hcroot, ← hentry] at hfail
    omega

theorem addFiles_wp (hni : ni ≤ inodeSlots) : ∀ (gs files : List InputFile) (m : Mkfs),
    Holds ni m files → files.length + gs.length + 2 ≤ ni →
    wp (addFiles ROOTINO gs) (fun _ m' => Holds ni m' (files ++ gs))
      (fun _ _ => ¬ Fits (files ++ gs)) m := by
  intro gs
  induction gs with
  | nil =>
    intro files m h _
    unfold addFiles
    rw [wp_pure, append_nil]
    exact h
  | cons g gs ih =>
    intro files m h hlen
    have happ : files ++ g :: gs = (files ++ [g]) ++ gs := by
      rw [append_assoc]
      rfl
    rw [length_cons] at hlen
    unfold addFiles
    rw [wp_bind, happ]
    refine wp_mono (addFile_wp hni h (by omega)) (fun _ m₁ h₁ => ?_) fun _ _ hfail hfits =>
      hfail hfits.of_append
    refine ih (files ++ [g]) m₁ h₁ ?_
    rw [length_append, length_singleton]
    omega

/-! ### The whole run -/

theorem zeroSectors_wp :
    ∀ (k n : Nat) (m : Mkfs), m.disk = (fun _ => Block.zero) → m.sectors = n → n + k ≤ FSSIZE →
      P () { m with sectors := n + k } → wp (zeroSectors (List.range' n k)) P E m := by
  intro k
  induction k with
  | zero =>
    intro n m _ hs _ hP
    rw [← hs, Nat.add_zero] at hP
    exact hP
  | succ k ih =>
    intro n m hd hs hle hP
    have hsize : FSSIZE = 2000 := rfl
    have hval : (BitVec.ofNat 32 n).toNat = n := by
      rw [BitVec.toNat_ofNat]
      omega
    have hdisk : update m.disk (BitVec.ofNat 32 n) Block.zero = fun _ => Block.zero := by
      have hzero : m.disk (BitVec.ofNat 32 n) = Block.zero := by rw [hd]
      rw [← hzero, update_eq_self, hd]
    rw [List.range'_succ]
    unfold zeroSectors
    rw [wp_bind]
    unfold wsect
    rw [wp_modify, seek_of_lt (by omega), hval]
    refine ih (n + 1) _ hdisk ?_ (by omega) ?_
    · change max m.sectors (n + 1) = n + 1
      omega
    · dsimp only
      rw [hdisk, ← hd, show n + 1 + k = n + (k + 1) by omega]
      exact hP

theorem zeroSectors_range_wp (hd : m.disk = fun _ => Block.zero) (hs : m.sectors = 0)
    (hn : n ≤ FSSIZE) (hP : P () { m with sectors := n }) :
    wp (zeroSectors (List.range n)) P E m := by
  rw [range_eq_range']
  refine zeroSectors_wp n 0 m hd hs (by omega) ?_
  rw [Nat.zero_add]
  exact hP

/-- The image with a superblock and nothing else. -/
def blank : Mkfs where
  sectors := FSSIZE
  disk := update (fun _ => Block.zero) 1 sbBlock
  freeinode := 1
  freeblock := nmeta

theorem blank_disk (hb : b ≠ 1) : blank.disk b = Block.zero := by
  unfold blank
  dsimp only
  rw [update_of_ne hb]

theorem blank_ready : Ready blank where
  sectors := rfl
  super := by
    unfold blank
    dsimp only
    rw [update_self]
  above := Nat.le_refl _
  within := by decide
  zero := by
    intro b hlow _
    refine blank_disk ?_
    rintro rfl
    exact absurd hlow (by decide)

theorem geometry (hni : ni ≤ inodeSlots) : Geometry { sb with ninodes := ni } nmeta where
  first := show 1 < sb.inodestart by decide
  inodes := by
    intro i hi
    change i < ni at hi
    have hslots : inodeSlots = 208 := rfl
    have hipb : IPB = 8 := rfl
    change i / IPB + 32 < 58
    rw [hipb]
    omega
  bitmap := by
    intro b hb
    change b < 2000 at hb
    have hbpb : BPB = 4096 := rfl
    change b / BPB + 58 < 59
    rw [hbpb]
    omega
  map := show sb.bmapstart < nmeta by decide
  data := show nmeta ≤ sb.size by decide
  small := show sb.size < 2 ^ 31 by decide

theorem superblock_view (hni : ni ≤ inodeSlots) :
    ((view ni m).cache 1).superblock = { sb with ninodes := ni } := by
  have hslots : inodeSlots = 208 := rfl
  have hne : (1 : BlockNo) ≠ bmapBlock := by decide
  have hcache : (view ni m).cache 1 = update sbBlock 2 (BitVec.ofNat 32 ni) := by
    unfold view
    dsimp only
    rw [update_of_ne hne, update_self]
  rw [hcache]
  unfold Block.superblock
  rw [update_self, update_of_ne (by decide), update_of_ne (by decide),
    update_of_ne (by decide), BitVec.toNat_ofNat, Nat.mod_eq_of_lt (by omega)]
  rfl

theorem blank_dinode (hi : i < inodeSlots) : (view ni blank).dinode i =
    { inum := i, type := .free, major := 0, minor := 0, nlink := 0, uid := 0, gid := 0, mode := 0,
      size := 0, addrs := fun _ => 0 } := by
  have hsec := Sector.of_inode hi
  have hcache : (view ni blank).cache (sb.IBLOCK i) = Block.zero := by
    rw [cache_view ni hsec, blank_disk hsec.notSuper]
  have hword : ∀ k, (view ni blank).dword i k = 0 := fun k => congrFun hcache _
  unfold Fs.dinode
  simp only [hword]
  rfl

theorem blank_good (hni : ni ≤ inodeSlots) (hpos : 0 < ni) : Good ni blank := by
  have hdead : ∀ i, ¬ (view ni blank).Live (view ni blank).dinode i := by
    rintro i ⟨hi, htype⟩
    rw [blank_dinode (Nat.lt_of_lt_of_le hi hni)] at htype
    exact htype rfl
  have hnone : ∀ x, (view ni blank).owner (view ni blank).dinode x = none :=
    fun x => if_neg fun hcon => hdead x.1 hcon.1
  have hbit : ∀ b, b < FSSIZE → (view ni blank).bit b = decide (b < nmeta) :=
    fun b hb => bit_view blank_ready hb
  refine ⟨blank_ready, ⟨⟨⟨geometry hni, hpos, superblock_view hni, fun b hb => ?_⟩, fun _ => rfl,
    ?_, ?_, ?_⟩, fun i hl => absurd hl (hdead i)⟩, fun i hl => absurd hl (hdead i)⟩
  · rw [hbit b (hb.trans (by decide)), decide_eq_true hb]
  · intro x b hx
    rw [hnone] at hx
    cases hx
  · intro x y b hx
    rw [hnone] at hx
    cases hx
  · rintro b ⟨hlow, hb, hset⟩
    rw [hbit b hb, decide_eq_true_iff] at hset
    exact absurd hset (Nat.not_lt.mpr hlow)

/-- The root directory with its two entries. -/
theorem root_wp (hni : ni ≤ inodeSlots) (hpos : 1 < ni) {f : Nat → MkfsM Unit}
    (hf : ∀ m, Holds ni m [] → wp (f ROOTINO) P E m) :
    wp (do
      let rootino ← ialloc .dir
      if rootino = ROOTINO then
        iappend rootino (direntBytes rootino dot)
        iappend rootino (direntBytes rootino dotdot)
        f rootino
      else throw .assertion) P E blank := by
  have hg := blank_good hni (by omega)
  have hinode : ∀ i, i < ni → ((view ni blank).dinode i).fields = ⟨.free, 0, 0, 0, 0, 0, 0⟩ :=
    fun i hi => by rw [blank_dinode (Nat.lt_of_lt_of_le hi hni)]; rfl
  have hnofiles : ∀ i, (view ni blank).files i = none := by
    intro i
    refine if_neg fun hl => hl.2 ?_
    exact congrArg InodeFields.type (hinode i hl.1)
  have hfree : (view ni blank).freeBlocks = 1941 := freeBlocks_view blank_ready
  rw [wp_bind]
  refine wp_mono (ialloc_wp hni hg hpos (congrArg InodeFields.type (hinode 1 hpos)) nofun)
    (fun r m₁ h₁ => ?_) fun _ _ hf => hf.elim
  obtain ⟨rfl, h₁⟩ := h₁
  have hfiles₁ : (view ni m₁).files = update (view ni blank).files ROOTINO (some []) := h₁.files
  have hroot₁ : (view ni m₁).files ROOTINO = some [] := by
    rw [hfiles₁, update_self]
  obtain ⟨hl₁, hc₁⟩ := Fs.live_of_files hroot₁
  have hlen : ∀ {n : Nat} {name : Name}, (direntBytes n name).length = 16 := length_direntBytes
  rw [if_pos (show blank.freeinode = ROOTINO from rfl), wp_bind]
  change wp (iappend ROOTINO (direntBytes ROOTINO dot)) _ _ _
  refine wp_mono (iappend_wp hni h₁.good hl₁) (fun _ m₂ h₂ => ?_) fun _ _ hfail => ?_
  · obtain ⟨-, h₂⟩ := h₂
    obtain ⟨hl₂, hc₂⟩ := h₂.live
    rw [hc₁, nil_append] at hc₂
    have hfree₂ := h₂.free
    rw [hc₁, nil_append, hlen, h₁.free, hfree] at hfree₂
    change _ + 1 = 1941 + 0 at hfree₂
    rw [wp_bind]
    change wp (iappend ROOTINO (direntBytes ROOTINO dotdot)) _ _ _
    refine wp_mono (iappend_wp hni h₂.good hl₂) (fun _ m₃ h₃ => ?_) fun _ _ hfail => ?_
    · obtain ⟨-, h₃⟩ := h₃
      have hfree₃ := h₃.free
      rw [hc₂, length_append, hlen, hlen] at hfree₃
      change _ + 1 = _ + 1 at hfree₃
      refine hf m₃ ⟨h₃.good, ?_, fun j hj => ?_, ?_, ?_⟩
      · rw [h₃.files, h₂.files, hfiles₁, hc₂, update_idem, update_idem]
        funext j
        by_cases hj : j = ROOTINO
        · rw [hj, update_self]
          unfold fileMap rootBytes entries
          rw [if_pos rfl, append_nil]
        · rw [update_of_ne hj, hnofiles]
          unfold fileMap
          rw [if_neg hj]
          split <;> rfl
      · rw [h₃.fields j hj, h₂.fields j hj, h₁.fields j hj, hinode j hj]
        unfold fieldsOf
        refine if_congr Iff.rfl rfl (if_neg ?_).symm
        rw [length_nil]
        omega
      · change _ + (blocksFor (rootBytes []).length + 0) = 1941
        rw [length_rootBytes]
        change _ + 1 = 1941
        omega
      · rw [h₃.freeinode, h₂.freeinode, h₁.freeinode]
        rfl
    · rw [hc₂, length_append, hlen, hlen] at hfail
      change _ < 32 ∨ _ + 1 < 1 at hfail
      have hmax : MAXFILE * BSIZE = 70656 := rfl
      omega
  · rw [hc₁, nil_append, hlen, h₁.free, hfree] at hfail
    change _ < 16 ∨ 1941 + 0 < 1 at hfail
    have hmax : MAXFILE * BSIZE = 70656 := rfl
    omega

/-- The inode with the rounded size. -/
def rounded (ip : Inode) : Inode := { ip with size := (ip.size / BSIZE + 1) * BSIZE }

/-- The disk after the size of the root directory has been rounded, with the superblock. -/
def finish (s : Fs) : Disk :=
  update (s.setDinode (rounded (s.dinode ROOTINO))).cache 1 sbBlock

theorem end_wp (hg : Good ni m) : wp (do fixRoot ROOTINO; balloc (← get).freeblock)
      (fun _ m' => m'.disk = finish (view ni m)) (fun _ _ => False) m := by
  have hi : ROOTINO < inodeSlots := by decide
  unfold fixRoot
  rw [bind_assoc, wp_bind]
  refine rinode_wp ni hg.ready hi ?_
  rw [wp_bind]
  refine winode_wp ni hg.ready hi fun m₁ hr₁ hview _ _ => ?_
  rw [wp_bind, wp_get]
  unfold balloc
  have hwithin := hr₁.within
  have hsize : FSSIZE = 2000 := rfl
  have hbs : BSIZE = 512 := rfl
  rw [if_pos (by rw [hbs]; omega)]
  refine wsect_wp hr₁.sectors (by decide) ?_
  have hcache : (view ni m₁).cache =
      ((view ni m).setDinode (rounded ((view ni m).dinode ROOTINO))).cache :=
    congrArg Fs.cache hview
  unfold finish
  rw [← hcache]
  unfold view put
  rw [update_comm (by decide), update_idem, ← hr₁.super, update_eq_self]
  rfl

/-- A run of `mkfs`, as far as the inode blocks have room. -/
theorem main_wp (hni : ni ≤ inodeSlots) (hlen : files.length + 2 ≤ ni) :
    wp (main files) (fun _ m' => ∃ m, Holds ni m files ∧ m'.disk = finish (view ni m))
      (fun _ _ => ¬ Fits files) start := by
  unfold main
  rw [wp_bind, wp_modify, wp_bind]
  generalize hn : FSSIZE = n
  refine zeroSectors_range_wp rfl rfl hn.ge ?_
  rw [wp_bind, ← hn]
  refine wsect_wp rfl (by decide) ?_
  refine root_wp hni (by omega) fun m h => ?_
  refine wp_seq (addFiles_wp hni files [] m h (by rw [length_nil]; omega)) fun _ m₁ h₁ => ?_
  rw [nil_append] at h₁
  refine wp_mono (end_wp h₁.good) (fun _ m' hd => ⟨m₁, h₁, hd⟩) fun _ _ hf => hf.elim

end Mkfs

end Xv6Kernel
