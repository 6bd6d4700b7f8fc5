/-
  CreateInode.lean
  ================
  The protection of the inodes that `create` makes.

  `iget` puts the default owner, group and mode into a new entry of the inode cache, but it
  leaves the entry to be read from the disk.  `ialloc` has zeroed the dinode, so `ilock` reads
  zeroes over the defaults, and the `iupdate` of `create` writes the zeroes back: a file made by
  `open`, `mkdir` or `mknod` has mode 0, in memory and on the disk.
-/
import Xv6Kernel.OwnershipRuns

namespace Xv6Kernel

open PanicMonad AtomicProg Function SpecKernel Sem

/-! ### The way to the directory -/

/-- The entries of the directories are for inodes of the disk. -/
def InRange (n : Nat) (disk : Nat → Node) : Prop :=
  ∀ d, d < n → (disk d).fields.type = .dir →
    ∀ off ∈ offsets (disk d).bytes.length, ((disk d).bytes.dirent off).inum < n

/-- Some inodes have been freed, and the others are as before. -/
def Freed (disk disk' : Nat → Node) : Prop :=
  ∀ i, disk' i = disk i ∨ (disk' i).fields.type = .free

/-- A process that started in `a` has got to `e`, with a reference to it. -/
structure Reached (base : Fin NINODE → Nat) (locks : Multiset (Fin NINODE)) (a a' : SpecKernel)
    (e : Fin NINODE) : Prop where
  walk : Walk base a' (e ::ₘ 0) locks
  inum : (a'.icache e).inum < a'.ninodes
  inRange : InRange a'.ninodes a'.disk
  freed : Freed a.disk a'.disk
  ninodes : a'.ninodes = a.ninodes

/-- A state between two calls, in which `p` can look up paths. -/
structure Settled (base : Fin NINODE → Nat) (a : SpecKernel) (p : Fin NPROC) : Prop where
  walk : Walk base a 0 0
  inRange : InRange a.ninodes a.disk
  root : ROOTINO < a.ninodes
  cwd : ∀ e, (a.procs p).cwd = some e → 0 < base e ∧ (a.icache e).inum < a.ninodes

section

variable {base : Fin NINODE → Nat} {a : SpecKernel} {own locks : Multiset (Fin NINODE)}
  {ip : Fin NINODE} {disk disk' : Nat → Node} {i : Nat} {p : Fin NPROC} {path : CString}
  {type : InodeType} {major minor : BitVec 16}

theorem Freed.refl : Freed disk disk := fun _ => Or.inl rfl

theorem Freed.trans (h : Freed disk disk') (h' : Freed disk' disk'') : Freed disk disk'' := by
  intro i
  rcases h' i with heq | hfree
  · rw [heq]
    exact h i
  · exact Or.inr hfree

variable {last : Prop}

theorem freed_dropRef [Decidable last] : Freed disk (dropRef disk i last) := by
  intro j
  unfold dropRef
  split
  · by_cases hj : j = i
    · rw [hj, update_self]
      exact Or.inr rfl
    · rw [update_of_ne hj]
      exact Or.inl rfl
  · exact Or.inl rfl

theorem InRange.freed (h : InRange n disk) (hf : Freed disk disk') : InRange n disk' := by
  intro d hd hdir
  rcases hf d with heq | hfree
  · rw [heq] at hdir ⊢
    exact h d hd hdir
  · rw [hfree] at hdir
    cases hdir

theorem InRange.inum (h : InRange n disk) (hi : i < n) (hdir : (disk i).fields.type = .dir)
    (hfind : (disk i).bytes.find name = some off) :
    ((disk i).bytes.dirent off).inum < n :=
  h i hi hdir off (List.mem_of_find?_eq_some hfind)

namespace Reached

theorem pos (_ : Reached base locks a a₁ e) : 0 < heldBy base (e ::ₘ 0) e :=
  heldBy_pos (Multiset.mem_cons_self e 0)

/-- Locking and unlocking change nothing else. -/
theorem next (h : Reached base locks a a₁ e) (hd : a'.disk = a₁.disk)
    (hk : Kept (heldBy base (e ::ₘ 0)) a₁ a') (hw : Walk base a' (e ::ₘ 0) locks') :
    Reached base locks' a a' e where
  walk := hw
  inum := by
    rw [hk.inum e h.pos, hk.ninodes]
    exact h.inum
  inRange := by
    rw [hd, hk.ninodes]
    exact h.inRange
  freed := by
    rw [hd]
    exact h.freed
  ninodes := hk.ninodes.trans h.ninodes

theorem ilock (h : Reached base 0 a a₁ e) (hok : ∀ a', Reached base (e ::ₘ 0) a a' e → P () a') :
    sem.wp (Sys.ilock e) P OtherPanic a₁ :=
  ilock_spec h.walk h.pos h.inum (fun _ _ => ⟨_, rfl, nofun, nofun⟩)
    fun a' _ hd hk _ hw => hok a' (h.next hd hk hw)

/-- Going on to an entry of a directory, which is locked. -/
theorem dirlookup (h : Reached base (e ::ₘ 0) a a₁ e) (hnone : P none a₁)
    (hsome : ∀ e' off a₂, (∀ Q : Unit → SpecKernel → Prop,
        (∀ a₃, Reached base 0 a a₃ e' → Q () a₃) →
        sem.wp (Sys.iunlockput e) Q OtherPanic a₂) → P (some (e', off)) a₂) :
    sem.wp (Sys.dirlookup e name) P OtherPanic a₁ := by
  refine dirlookup_spec h.walk tolerates_otherPanic (Multiset.mem_cons_self ..)
    (fun _ _ => hnone) fun off e' a₂ hdir hfind hd hk hi _ hw => hsome e' off a₂ fun Q hQ => ?_
  rw [Multiset.cons_swap] at hw
  refine iunlockput_spec hw fun a₃ hd₃ hk₃ hw₃ => hQ a₃ ?_
  have hfreed : Freed a₁.disk a₃.disk := by
    rw [hd₃, hd]
    exact freed_dropRef
  have hn : a₃.ninodes = a₁.ninodes := hk₃.ninodes.trans hk.ninodes
  refine ⟨hw₃, ?_, ?_, h.freed.trans hfreed, hn.trans h.ninodes⟩
  · rw [hk₃.inum e' (heldBy_pos (Multiset.mem_cons_self ..)), hi, hn]
    exact h.inRange.inum h.inum hdir hfind
  · rw [hn]
    exact h.inRange.freed hfreed

end Reached

theorem namexLoop_reaches : ∀ (elems : List Name) (a₁ : SpecKernel) (e : Fin NINODE),
    Reached base 0 a a₁ e → sem.wp (Sys.namexLoop parent elems e)
      (fun r a' => ∀ d ∈ r, Reached base 0 a a' d.1) OtherPanic a₁ := by
  intro elems
  induction elems with
  | nil =>
    intro a₁ e h
    cases parent with
    | true =>
      exact wp_bind.mpr (iput_spec h.walk nofun (fun _ _ _ _ _ => nofun)
        fun _ _ _ _ _ _ _ _ _ => nofun)
    | false =>
      rintro d ⟨⟩
      exact h
  | cons name rest ih =>
    intro a₁ e h
    refine wp_bind.mpr (h.ilock fun a₂ h₂ => inode_spec h₂.walk (Multiset.mem_cons_self ..) ?_)
    refine wp_ite (fun _ => ?_) fun _ => wp_ite (fun _ => ?_) fun _ => ?_
    · refine wp_bind.mpr (iunlockput_spec h₂.walk ?_)
      exact fun _ _ _ _ => nofun
    · refine wp_bind.mpr (iunlock_spec h₂.walk fun a₃ hd hk _ hw => ?_)
      rintro d ⟨⟩
      exact h₂.next hd hk hw
    · refine wp_bind.mpr (h₂.dirlookup ?_ fun e' off a₃ hput => ?_)
      · refine wp_bind.mpr (iunlockput_spec h₂.walk ?_)
        exact fun _ _ _ _ => nofun
      · exact wp_bind.mpr (hput _ fun a₄ h₄ => ih a₄ e' h₄)

theorem Settled.start (h : Settled base a p) (hd : a'.disk = a.disk)
    (hk : Kept (heldBy base 0) a a') (hw : Walk base a' (e ::ₘ 0) 0)
    (hi : (a'.icache e).inum < a.ninodes) : Reached base 0 a a' e := by
  refine ⟨hw, ?_, ?_, ?_, hk.ninodes⟩
  · rwa [hk.ninodes]
  · rw [hd, hk.ninodes]
    exact h.inRange
  · rw [hd]
    exact .refl

theorem namex_reaches (h : Settled base a p) : sem.wp (Sys.namex p path parent)
    (fun r a' => ∀ d ∈ r, Reached base 0 a a' d.1) OtherPanic a := by
  refine wp_ite (fun _ => ?_) fun _ => ?_
  · refine iget_spec h.walk tolerates_otherPanic fun e a₁ hd hk hi _ hw => ?_
    refine namexLoop_reaches _ a₁ e (h.start hd hk hw ?_)
    rw [hi]
    exact h.root
  · simp only [Prog.call_bind, wp_op, sem_exec]
    intro _
    unfold Spec.exec
    simp only [PanicMonad.wp_bind, PanicMonad.wp_get, PanicMonad.wp_pure]
    cases hcwd : (a.procs p).cwd with
    | none => exact fun _ => ⟨_, rfl, by decide, by decide⟩
    | some e =>
      obtain ⟨hbase, hlt⟩ := h.cwd e hcwd
      have hpos : 0 < heldBy base 0 e := heldBy_of_base e hbase
      simp only [wp_op, sem_exec]
      intro _
      refine idup_wp h.walk.inv hpos fun a₁ hd hk hinv => ?_
      rw [← heldBy_cons] at hinv
      refine namexLoop_reaches _ a₁ e (h.start hd hk (h.walk.next hk Multiset.nodup_zero hinv) ?_)
      rw [hk.inum e hpos]
      exact hlt

/-! ### The new inode -/

/-- The owner, group and mode of a zeroed dinode. -/
def InodeFields.Bare (f : InodeFields) : Prop := f.uid = 0 ∧ f.gid = 0 ∧ f.mode = 0

/-- The zeroes have stayed. -/
def StaysBare (disk disk' : Nat → Node) : Prop :=
  ∀ i, (disk i).fields.Bare → (disk' i).fields.Bare

theorem staysBare_update (hn : (disk i).fields.Bare → node.fields.Bare) :
    StaysBare disk (update disk i node) := by
  intro j hj
  by_cases hji : j = i
  · rw [hji, update_self]
    rw [hji] at hj
    exact hn hj
  · rwa [update_of_ne hji]

theorem staysBare_dropRef [Decidable last] : StaysBare disk (dropRef disk i last) := by
  unfold dropRef
  split
  · exact staysBare_update fun h => h
  · exact fun _ h => h

/-- `ip` is a new inode, and `create` goes on. -/
structure Making (base : Fin NINODE → Nat) (own locks : Multiset (Fin NINODE)) (a : SpecKernel)
    (ip : Fin NINODE) : Prop where
  walk : Walk base a own locks
  mem : ip ∈ own
  bare : (a.fieldsOf ip).Bare

namespace Making

theorem next (h : Making base own locks a ip)
    (hd : StaysBare a.disk a'.disk) (hk : Kept (heldBy base own') a a') (hip : ip ∈ own')
    (hw : Walk base a' own' locks') : Making base own' locks' a' ip := by
  refine ⟨hw, hip, ?_⟩
  unfold fieldsOf
  rw [hk.inum ip (heldBy_pos hip)]
  exact hd _ h.bare

theorem dirlink (h : Making base own locks a ip) (hl : dp ∈ locks)
    (hok : ∀ r a', Making base own locks a' ip → P r a') :
    sem.wp (Sys.dirlink dp name i) P OtherPanic a := by
  refine dirlink_spec h.walk tolerates_otherPanic hl ?_ ?_
  · intro a' _ _ _ hd hk hw
    refine hok _ a' (h.next ?_ hk h.mem hw)
    rw [hd]
    exact fun _ hb => hb
  · intro a' _ _ _ hd hk hw
    refine hok _ a' (h.next ?_ hk h.mem hw)
    rw [hd]
    exact staysBare_update fun hb => hb

theorem setFields (h : Making base own locks a ip) (hl : e ∈ locks)
    (hf : ∀ x, (f x).type = x.type) (hbare : ∀ x, x.Bare → (f x).Bare)
    (hok : ∀ a', Making base own locks a' ip → sem.wp rest P OtherPanic a') :
    sem.wp (do
      Prog.call (.setFields e f)
      Prog.call (.iupdate e)
      rest) P OtherPanic a := by
  refine setFields_iupdate_spec rest h.walk hl hf fun a' hd hk hw => ?_
  refine hok a' (h.next ?_ hk h.mem hw)
  rw [hd]
  exact staysBare_update (hbare _)

theorem createDirEntries (h : Making base own locks a ip) (hdp : dp ∈ locks) (hip : ip ∈ locks)
    (hok : ∀ a', Making base own locks a' ip → P () a') :
    sem.wp (Sys.createDirEntries dp ip type i) P OtherPanic a := by
  refine wp_ite (fun _ => ?_) fun _ => hok a h
  refine h.setFields hdp (fun _ => rfl) (fun _ hb => hb) fun a₁ h₁ => inode_spec h₁.walk hdp ?_
  refine wp_bind.mpr (h₁.dirlink hip fun _ a₂ h₂ => ?_)
  refine wp_ite (fun _ _ => ⟨_, rfl, nofun, nofun⟩) fun _ => ?_
  refine wp_bind.mpr (h₂.dirlink hip fun _ a₃ h₃ => ?_)
  exact wp_ite (fun _ _ => ⟨_, rfl, nofun, nofun⟩) fun _ => hok a₃ h₃

end Making

theorem createInode_bare (h : Walk base a (dp ::ₘ own) (dp ::ₘ locks)) (htype : type ≠ .free) :
    sem.wp (Sys.createInode dp name type major minor)
      (fun ip a' => a'.Coherent ip ∧ (a'.fieldsOf ip).Bare) OtherPanic a := by
  refine wp_bind.mpr (ialloc_spec h tolerates_otherPanic htype ?_)
  intro i ip a₁ _ hlt _ hd₁ hk₁ hi hw₁
  have hmem : ip ∈ ip ::ₘ dp ::ₘ own := Multiset.mem_cons_self ..
  have h₁ : Making base (ip ::ₘ dp ::ₘ own) (dp ::ₘ locks) a₁ ip := by
    refine ⟨hw₁, hmem, ?_⟩
    unfold fieldsOf
    rw [hi, hd₁, update_self]
    exact ⟨rfl, rfl, rfl⟩
  refine wp_bind.mpr (ilock_spec hw₁ (heldBy_pos hmem) ?_ (fun _ _ => ⟨_, rfl, nofun, nofun⟩) ?_)
  · rwa [hi, hk₁.ninodes]
  intro a₂ _ hd₂ hk₂ _ hw₂
  have h₂ := h₁.next (by rw [hd₂]; exact fun _ hb => hb) hk₂ hmem hw₂
  have hip : ip ∈ ip ::ₘ dp ::ₘ locks := Multiset.mem_cons_self ..
  have hdp : dp ∈ ip ::ₘ dp ::ₘ locks := Multiset.mem_cons_of_mem (Multiset.mem_cons_self ..)
  refine h₂.setFields hip (fun _ => rfl) (fun _ hb => hb) fun a₃ h₃ => inode_spec h₃.walk hip ?_
  refine wp_bind.mpr (h₃.createDirEntries hdp hip fun a₄ h₄ => ?_)
  refine wp_bind.mpr (h₄.dirlink hdp fun _ a₅ h₅ => ?_)
  refine wp_ite (fun _ _ => ⟨_, rfl, nofun, nofun⟩) fun _ => ?_
  have hw₅ := h₅.walk
  rw [Multiset.cons_swap, Multiset.cons_swap ip dp locks] at hw₅
  refine wp_bind.mpr (iunlockput_spec hw₅ fun a₆ hd₆ hk₆ hw₆ => ?_)
  have h₆ := h₅.next (by rw [hd₆]; exact staysBare_dropRef) hk₆ (Multiset.mem_cons_self ..) hw₆
  exact ⟨hw₆.coherent (Multiset.mem_cons_self ..), h₆.bare⟩

/-- `create` returns a file that was there, or an inode with zeroes. -/
theorem create_wp (h : Settled base a p) (htype : type ≠ .free) :
    sem.wp (Sys.create p path type major minor) (fun r a' => ∀ ip ∈ r,
      a'.Coherent ip ∧ ((a'.fieldsOf ip).Bare ∨ (a'.icache ip).inum < a.ninodes ∧
        a'.fieldsOf ip = (a.disk (a'.icache ip).inum).fields)) OtherPanic a := by
  refine wp_bind.mpr (wp_mono (namex_reaches h) ?_ fun _ _ h => h)
  intro r a₁ hr
  cases r with
  | none => exact nofun
  | some d =>
    have h₁ := hr d rfl
    refine wp_bind.mpr (h₁.ilock fun a₂ h₂ => ?_)
    refine wp_bind.mpr (h₂.dirlookup ?_ fun e off a₃ hput => ?_)
    · refine wp_bind.mpr (wp_mono (createInode_bare h₂.walk htype) ?_ fun _ _ h => h)
      rintro ip a' ⟨hcoh, hbare⟩ _ ⟨⟩
      exact ⟨hcoh, Or.inl hbare⟩
    · refine wp_bind.mpr (hput _ fun a₄ h₄ => wp_bind.mpr (h₄.ilock fun a₅ h₅ => ?_))
      have he : e ∈ e ::ₘ (0 : Multiset (Fin NINODE)) := Multiset.mem_cons_self ..
      have hcoh := h₅.walk.coherent he
      refine inode_spec h₅.walk he (wp_ite (fun _ => ?_) fun _ => ?_)
      · rintro _ ⟨⟩
        refine ⟨hcoh, Or.inr ⟨?_, ?_⟩⟩
        · rw [← h₅.ninodes]
          exact h₅.inum
        · rcases h₅.freed (a₅.icache e).inum with heq | hfree
          · exact congrArg Node.fields heq
          · exact absurd hfree hcoh.type
      · refine wp_bind.mpr (iunlockput_spec h₅.walk ?_)
        exact fun _ _ _ _ => nofun

/-! ### The kernel -/

/-- The protection that `mkfs` gives its files. -/
def InodeFields.Default (f : InodeFields) : Prop :=
  f.uid = BitVec.ofNat 16 DEFAULTUID ∧ f.gid = BitVec.ofNat 16 DEFAULTGID ∧
    f.mode = BitVec.ofNat 32 DEFAULTMODE

namespace Kernel

/-- The call that led from `k` to `k'` has made inode `i`: its dinode is another one. -/
def Made (k k' : Kernel) (i : Nat) : Prop := (k'.fs.dinode i).fields ≠ (k.fs.dinode i).fields

/-- The inode and its dinode, which `ilock` reads when the inode has left the cache, have the
    default protection. -/
def Protected (k : Kernel) (ip : Fin NINODE) : Prop :=
  (k.icache ip).ip.fields.Default ∧ (k.fs.dinode (k.icache ip).ip.inum).fields.Default

end Kernel

variable {k k' : Kernel} {ds : Nat}

theorem Rep.dinode (h : Rep ds k a) (hi : i < a.ninodes) :
    (k.fs.dinode i).fields = (a.disk i).fields := by
  obtain ⟨ino, disk, pinned, rfl, hd, -⟩ := h
  exact (hd.fields i hi).2

theorem Rep.entry (h : Rep ds k a) : a.icache e = (k.icache e).spec := by
  obtain ⟨ino, disk, pinned, rfl, -, -⟩ := h
  rfl

theorem create_run (hr : Rep ds k a) (hs : Settled base a p) (htype : type ≠ .free)
    (hrun : Kernel.sem.run (Sys.create p path type major minor) k = some (.ok (some ip) k'))
    (hmade : k.Made k' (k'.icache ip).ip.inum) : (k'.icache ip).ip.fields.Bare := by
  have htame : ∀ u, ¬ OtherPanic none u := by
    rintro u ⟨q, hcon, -⟩
    cases hcon
  obtain ⟨a', hr', hpost⟩ :=
    (wp_iff_run.mp ((kernel_sim ds).wp hr (create_wp hs htype) htame)).1 _ _ hrun
  obtain ⟨hcoh, hres⟩ := hpost ip rfl
  have hinum : (a'.icache ip).inum = (k'.icache ip).ip.inum := by rw [hr'.entry]; rfl
  have hmem : (k'.icache ip).ip.fields = a'.fieldsOf ip := by
    refine Eq.trans ?_ hcoh.fields
    rw [hr'.entry]
    rfl
  rcases hres with hbare | ⟨hlt, hsame⟩
  · rwa [hmem]
  · refine absurd ?_ hmade
    rw [← hinum, hr'.dinode hcoh.inum, hr.dinode hlt]
    exact hsame

/-- What `create` makes never has the default mode. -/
theorem create_protects_iff (hr : Rep ds k a) (hs : Settled base a p) (htype : type ≠ .free)
    (hrun : Kernel.sem.run (Sys.create p path type major minor) k = some (.ok (some ip) k')) :
    (k.Made k' (k'.icache ip).ip.inum → k'.Protected ip) ↔ ¬ k.Made k' (k'.icache ip).ip.inum := by
  refine ⟨fun hprot hmade => ?_, fun hno hmade => absurd hmade hno⟩
  obtain ⟨-, -, hmode⟩ := (hprot hmade).1
  obtain ⟨-, -, hzero⟩ := create_run hr hs htype hrun hmade
  rw [hzero] at hmode
  exact absurd hmode (by decide)

end

/-! ### An empty root directory -/

/-- The disk `oneFileDisk` with a directory in place of the file. -/
def rootDisk : Fs where
  sb := oneFileDisk.sb
  devsw := fun _ => none
  devswRead := fun _ => none
  cache := update oneFileDisk.cache 2 fun w => if w = 16 then 1 else 0
  current := some []
  done := []

theorem rootDisk_ownership : rootDisk.BlockOwnership 4 := by
  have hf : rootDisk.Formatted 4 := ⟨oneFileDisk_formatted.geo, by decide, by decide, by decide⟩
  exact hf.ownership_of_empty (by decide) (by decide) (by decide)

def rootKernel : Kernel := { oneFileKernel with fs := rootDisk }

theorem rootKernel_settled : ∃ a, Rep 4 rootKernel a ∧ Settled (fun _ => 0) a 0 := by
  have hcold : ∀ e, (rootKernel.icache e).ref = 0 := fun _ => rfl
  refine ⟨_, exists_rep_of_cold rootDisk_ownership hcold,
    walk_of_cold rootDisk_ownership hcold, ?_, by decide, nofun⟩
  intro d hd _ off hoff
  have hempty : ∀ d, d < 8 → rootDisk.contents d = [] := by decide
  change off ∈ offsets (rootDisk.contents d).length at hoff
  rw [hempty d hd] at hoff
  cases hoff

/-- `create("/a", T_FILE, 0, 0)`. -/
def createA : KProg (Option (Fin NINODE)) := Sys.create 0 ⟨[slash, 97], by decide⟩ .file 0 0

/-- The number of the inode that was created, and what is in the cache and on the disk. -/
def inodeA : Option (EStateM.Result FsPanic Kernel (Option (Fin NINODE))) →
    Option (Nat × InodeFields × InodeFields)
  | some (.ok (some ip) k) =>
      some ((k.icache ip).ip.inum, (k.icache ip).ip.fields, (k.fs.dinode 2).fields)
  | _ => none

theorem rootKernel_create : ∃ ip k', Kernel.sem.run createA rootKernel = some (.ok (some ip) k') ∧
    (k'.icache ip).ip.inum = 2 ∧ (k'.icache ip).ip.fields = ⟨.file, 0, 0, 1, 0, 0, 0⟩ ∧
      (k'.fs.dinode 2).fields = ⟨.file, 0, 0, 1, 0, 0, 0⟩ := by
  have hrun : inodeA (Kernel.sem.run createA rootKernel) =
      some (2, ⟨.file, 0, 0, 1, 0, 0, 0⟩, ⟨.file, 0, 0, 1, 0, 0, 0⟩) := by decide +kernel
  generalize Kernel.sem.run createA rootKernel = r at hrun
  unfold inodeA at hrun
  split at hrun
  · obtain ⟨hinum, hcache, hdisk⟩ : _ ∧ _ ∧ _ := by simpa using hrun
    exact ⟨_, _, rfl, hinum, hcache, hdisk⟩
  · cases hrun

theorem create_protects_iff_root : ∃ ip k',
    Kernel.sem.run createA rootKernel = some (.ok (some ip) k') ∧
    ((rootKernel.Made k' (k'.icache ip).ip.inum → k'.Protected ip) ↔
      ¬ rootKernel.Made k' (k'.icache ip).ip.inum) := by
  obtain ⟨ip, k', hrun, -⟩ := rootKernel_create
  obtain ⟨a, hr, hs⟩ := rootKernel_settled
  exact ⟨ip, k', hrun, create_protects_iff hr hs (by decide) hrun⟩

/-- The file `a` in an empty root directory has mode 0. -/
theorem create_leaves_mode_zero : ∃ ip k',
    Kernel.sem.run createA rootKernel = some (.ok (some ip) k') ∧
    rootKernel.Made k' (k'.icache ip).ip.inum ∧ (k'.icache ip).ip.mode = 0 ∧
    (k'.fs.dinode (k'.icache ip).ip.inum).mode = 0 ∧ ¬ k'.Protected ip := by
  obtain ⟨ip, k', hrun, hinum, hmem, hdisk⟩ := rootKernel_create
  have hfree : (rootKernel.fs.dinode 2).fields.type = .free := by decide
  refine ⟨ip, k', hrun, ?_, ?_, ?_, fun hprot => ?_⟩
  · rw [hinum]
    intro heq
    rw [← heq, hdisk] at hfree
    cases hfree
  · exact congrArg InodeFields.mode hmem
  · rw [hinum]
    exact congrArg InodeFields.mode hdisk
  · have hmode := hprot.1.2.2
    rw [hmem] at hmode
    exact absurd hmode (by decide)

end Xv6Kernel
