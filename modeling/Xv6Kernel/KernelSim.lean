/-
  KernelSim.lean
  ==============
  The kernel does what `KernelSpec` says, as long as the disk does not run out of blocks.

  `Rep ds` relates a state of the kernel to one of the upper level.  The inode cache counts:
  a valid entry has the size and the blocks of its inode, which the upper level has on its
  disk, and no two entries are for the same inode.
-/
import Xv6Kernel.NodeDisk

namespace Xv6Kernel

open PanicMonad AtomicProg Function

/-! ### The relation -/

def CachedInode.spec (c : CachedInode) : SpecInode where
  ref := c.ref
  busy := c.busy
  valid := c.valid
  inum := c.ip.inum
  fields := c.ip.fields

/-- The state of the upper level, where `disk` has the inodes. -/
def Kernel.spec (k : Kernel) (disk : Nat → Node) (pinned : Nat → Bool) : SpecKernel where
  ninodes := k.fs.sb.ninodes
  devsw := k.fs.devsw
  devswRead := k.fs.devswRead
  disk := disk
  pinned := pinned
  icache := fun e => (k.icache e).spec
  ftable := k.ftable
  procs := k.procs
  pipes := k.pipes

/-- The entry is in use for an inode of the disk and has read it. -/
def CachedInode.Has (c : CachedInode) (s : Fs) : Prop :=
  0 < c.ref ∧ c.valid = true ∧ c.ip.inum < s.sb.ninodes

/-- The entries of the inode cache and the disk. -/
structure CacheRep (s : Fs) (icache : Fin NINODE → CachedInode) (ino : Nat → Inode)
    (disk : Nat → Node) (pinned : Nat → Bool) : Prop where
  inMemory : ∀ e, (icache e).Has s → InMemory ino (icache e).ip.inum (icache e).ip
  /-- An inode that has been freed while another process had it. -/
  freed : ∀ e, (icache e).Has s → (disk (icache e).ip.inum).fields.type = .free →
    (icache e).ip.size = 0 ∧ (icache e).ip.addrs = fun _ => 0
  unique : ∀ e e', 0 < (icache e).ref → 0 < (icache e').ref →
    (icache e).ip.inum = (icache e').ip.inum → e = e'
  /-- Blocks that are not on the disk are in the cache. -/
  onDisk : ∀ i, i < s.sb.ninodes → pinned i = true →
    (∀ e, (icache e).Has s → (icache e).ip.inum ≠ i) → ino i = s.dinode i

def Rep (ds : Nat) (k : Kernel) (a : SpecKernel) : Prop :=
  ∃ ino disk pinned, a = k.spec disk pinned ∧ NodeDisk k.fs ds ino disk pinned ∧
    CacheRep k.fs k.icache ino disk pinned

/-- The panics that the upper level does not know. -/
def DiskPanic (e : FsPanic) : Prop := e = .ballocOutOfBlocks ∨ e = .outsideOfTrans

section

variable {k : Kernel} {s : Fs} {ds : Nat} {icache : Fin NINODE → CachedInode} {ino : Nat → Inode}
  {disk : Nat → Node} {pinned : Nat → Bool}

theorem spec_setEntry :
    (k.setEntry ip c).spec disk pinned = (k.spec disk pinned).setEntry ip c.spec := by
  have hcache : (fun e => (update k.icache ip c e).spec) =
      update (fun e => (k.icache e).spec) ip c.spec :=
    comp_update CachedInode.spec k.icache ip c
  exact congrArg (fun icache => { k.spec disk pinned with icache := icache }) hcache

/-- Assigning to an entry what it holds. -/
theorem setEntry_self {a : SpecKernel} {d : SpecInode} (h : a.icache ip = d) :
    a.setEntry ip d = a := by
  unfold SpecKernel.setEntry
  rw [← h, update_eq_self]

theorem setNode_self {a : SpecKernel} (h : a.disk i = n) : a.setNode i n = a := by
  unfold SpecKernel.setNode
  rw [← h, update_eq_self]

theorem spec_cached : (k.spec disk pinned).cached inum = k.cached inum := rfl

theorem spec_emptyEntry : (k.spec disk pinned).emptyEntry = k.emptyEntry := rfl

/-! ### Entries of the cache -/

namespace CacheRep

variable (h : CacheRep s icache ino disk pinned)

include h

theorem setEntry (hmem : c.Has s → InMemory ino c.ip.inum c.ip)
    (hfreed : c.Has s → (disk c.ip.inum).fields.type = .free →
      c.ip.size = 0 ∧ c.ip.addrs = fun _ => 0)
    (hunique : 0 < c.ref → ∀ e, e ≠ ip → 0 < (icache e).ref → (icache e).ip.inum ≠ c.ip.inum)
    (hdisk : (icache ip).Has s → pinned (icache ip).ip.inum = true →
      c.Has s ∧ c.ip.inum = (icache ip).ip.inum) :
    CacheRep s (update icache ip c) ino disk pinned := by
  refine ⟨?_, ?_, ?_, ?_⟩
  · intro e
    by_cases he : e = ip
    · rw [he, update_self]
      exact hmem
    · rw [update_of_ne he]
      exact h.inMemory e
  · intro e
    by_cases he : e = ip
    · rw [he, update_self]
      exact hfreed
    · rw [update_of_ne he]
      exact h.freed e
  · intro e e'
    by_cases he : e = ip <;> by_cases he' : e' = ip
    · intro _ _ _
      rw [he, he']
    · rw [he, update_self, update_of_ne he']
      intro href href' heq
      exact absurd heq.symm (hunique href e' he' href')
    · rw [he', update_self, update_of_ne he]
      intro href href' heq
      exact absurd heq (hunique href' e he href)
    · rw [update_of_ne he, update_of_ne he']
      exact h.unique e e'
  · intro i hi hp hnone
    refine h.onDisk i hi hp fun e hhas heq => ?_
    by_cases he : e = ip
    · subst he
      obtain ⟨hc, hinum⟩ := hdisk hhas (by rwa [heq])
      have hne := hnone e
      rw [update_self] at hne
      exact hne hc (hinum.trans heq)
    · have hne := hnone e
      rw [update_of_ne he] at hne
      exact hne hhas heq

/-- The entry stays for the same inode, with other flags or fields. -/
theorem keep (hvalid : c.valid = (icache ip).valid)
    (hinum : c.ip.inum = (icache ip).ip.inum) (hsize : c.ip.size = (icache ip).ip.size)
    (haddrs : c.ip.addrs = (icache ip).ip.addrs) (href : 0 < c.ref → 0 < (icache ip).ref)
    (hlast : 0 < (icache ip).ref → c.ref = 0 → pinned (icache ip).ip.inum = false) :
    CacheRep s (update icache ip c) ino disk pinned := by
  have hhas : c.Has s → (icache ip).Has s := by
    rintro ⟨hc, hv, hlt⟩
    exact ⟨href hc, hvalid ▸ hv, hinum ▸ hlt⟩
  refine h.setEntry (fun hc => ?_) (fun hc => ?_) (fun hc e he hr heq => ?_) fun hc hp => ?_
  · obtain ⟨hi, hs, ha⟩ := h.inMemory ip (hhas hc)
    rw [hinum]
    exact ⟨hinum, hsize.trans hs, haddrs.trans ha⟩
  · rw [hinum, hsize, haddrs]
    exact h.freed ip (hhas hc)
  · exact he (h.unique e ip hr (href hc) (heq.trans hinum))
  · refine ⟨⟨Nat.pos_of_ne_zero fun hz => ?_, hvalid ▸ hc.2.1, hinum ▸ hc.2.2⟩, hinum⟩
    rw [hlast hc.1 hz] at hp
    cases hp

/-- The entry has not read its inode. -/
theorem invalid (hvalid : c.valid = false)
    (hunique : 0 < c.ref → ∀ e, e ≠ ip → 0 < (icache e).ref → (icache e).ip.inum ≠ c.ip.inum)
    (hlast : 0 < (icache ip).ref → pinned (icache ip).ip.inum = false) :
    CacheRep s (update icache ip c) ino disk pinned := by
  have hhas : ¬ c.Has s := by
    rintro ⟨-, hv, -⟩
    rw [hvalid] at hv
    cases hv
  refine h.setEntry (fun hc => absurd hc hhas) (fun hc => absurd hc hhas) hunique fun hc hp => ?_
  rw [hlast hc.1] at hp
  cases hp

/-- The entry reads its inode. -/
theorem load (hd : NodeDisk s ds ino disk pinned)
    (hinvalid : (icache ip).valid = false) (hi : (icache ip).ip.inum < s.sb.ninodes)
    (htype : (disk (icache ip).ip.inum).fields.type ≠ .free)
    (hc : c = { icache ip with valid := true, ip := s.dinode (icache ip).ip.inum }) :
    CacheRep s (update icache ip c) ino disk pinned := by
  have hinum : c.ip.inum = (icache ip).ip.inum := by rw [hc]; rfl
  have href : c.ref = (icache ip).ref := by rw [hc]
  have hnone : ∀ e, (icache e).Has s → 0 < (icache ip).ref →
      (icache e).ip.inum ≠ (icache ip).ip.inum := by
    rintro e ⟨hr, hv, -⟩ hr' heq
    rw [h.unique e ip hr hr' heq, hinvalid] at hv
    cases hv
  refine h.setEntry (fun hhas => ?_) (fun _ hfree => absurd (hinum ▸ hfree) htype)
    (fun hr e he hr' heq => ?_) fun hhas => ?_
  · have hsame : ino (icache ip).ip.inum = s.dinode (icache ip).ip.inum := by
      cases hp : pinned (icache ip).ip.inum with
      | false => exact hd.same _ hi hp
      | true => exact h.onDisk _ hi hp fun e he => hnone e he (href ▸ hhas.1)
    rw [hinum, hc]
    exact ⟨rfl, by rw [hsame], by rw [hsame]⟩
  · exact he (h.unique e ip hr' (href ▸ hr) (heq.trans hinum))
  · have hv := hhas.2.1
    rw [hinvalid] at hv
    cases hv

/-- A function of the disk layer has worked on the inode of the entry. -/
theorem step (hhas : (icache ip).Has s)
    (hs : NodeStep s ds ino disk pinned (icache ip).ip.inum s' ip' n)
    (hinum : mem.inum = (icache ip).ip.inum) (hsize : mem.size = ip'.size)
    (haddrs : mem.addrs = ip'.addrs)
    (hfreed : n.fields.type = .free → mem.size = 0 ∧ mem.addrs = fun _ => 0) :
    CacheRep s' (update icache ip { icache ip with ip := mem }) (update ino (icache ip).ip.inum ip')
      (update disk (icache ip).ip.inum n) pinned := by
  have hsb : ∀ c : CachedInode, c.Has s' ↔ c.Has s := by
    intro c
    unfold CachedInode.Has
    rw [hs.setup.sb]
  have hother : ∀ e, e ≠ ip → (icache e).Has s' →
      (icache e).Has s ∧ (icache e).ip.inum ≠ (icache ip).ip.inum := by
    intro e he hc
    rw [hsb] at hc
    exact ⟨hc, fun heq => he (h.unique e ip hc.1 hhas.1 heq)⟩
  refine ⟨?_, ?_, ?_, ?_⟩
  · intro e
    by_cases he : e = ip
    · rw [he, update_self]
      intro _
      rw [hinum]
      refine ⟨hinum, ?_, ?_⟩
      · rw [update_self, hsize]
      · rw [update_self, haddrs]
    · rw [update_of_ne he]
      intro hc
      obtain ⟨hc, hne⟩ := hother e he hc
      obtain ⟨h1, h2, h3⟩ := h.inMemory e hc
      refine ⟨h1, ?_, ?_⟩
      · rw [update_of_ne hne, h2]
      · rw [update_of_ne hne, h3]
  · intro e
    by_cases he : e = ip
    · rw [he, update_self]
      intro _
      rw [hinum, update_self]
      exact hfreed
    · rw [update_of_ne he]
      intro hc
      obtain ⟨hc, hne⟩ := hother e he hc
      rw [update_of_ne hne]
      exact h.freed e hc
  · have hentry : ∀ e, (update icache ip { icache ip with ip := mem } e).ref = (icache e).ref ∧
        (update icache ip { icache ip with ip := mem } e).ip.inum = (icache e).ip.inum := by
      intro e
      by_cases he : e = ip
      · rw [he, update_self]
        exact ⟨rfl, hinum⟩
      · rw [update_of_ne he]
        exact ⟨rfl, rfl⟩
    intro e e'
    rw [(hentry e).1, (hentry e).2, (hentry e').1, (hentry e').2]
    exact h.unique e e'
  · intro i hi hp hnone
    rw [hs.setup.sb] at hi
    by_cases hii : i = (icache ip).ip.inum
    · have hne := hnone ip
      rw [update_self] at hne
      refine absurd (hinum.trans hii.symm) (hne ((hsb _).mpr ⟨hhas.1, hhas.2.1, ?_⟩))
      change mem.inum < _
      rw [hinum]
      exact hhas.2.2
    · rw [update_of_ne hii, hs.others i hii hi]
      refine h.onDisk i hi hp fun e hc heq => ?_
      by_cases he : e = ip
      · exact hii (by rw [← heq, he])
      · have hne := hnone e
        rw [update_of_ne he] at hne
        exact hne ((hsb _).mpr hc) heq

/-- A free inode has been allocated. -/
theorem alloc (hfree : (disk i).fields.type = .free)
    (hs : NodeStep s ds ino disk pinned i s' ip' n) (hself : s'.dinode i = ip')
    (hempty : ip'.size = 0 ∧ ip'.addrs = fun _ => 0) (htype : n.fields.type ≠ .free) :
    CacheRep s' icache (update ino i ip') (update disk i n) pinned := by
  have hsb : ∀ c : CachedInode, c.Has s' ↔ c.Has s := by
    intro c
    unfold CachedInode.Has
    rw [hs.setup.sb]
  refine ⟨?_, ?_, h.unique, ?_⟩
  · intro e hc
    rw [hsb] at hc
    obtain ⟨h1, h2, h3⟩ := h.inMemory e hc
    by_cases hi : (icache e).ip.inum = i
    · obtain ⟨hz, ha⟩ := h.freed e hc (by rwa [hi])
      refine ⟨rfl, ?_, ?_⟩
      · rw [hi, update_self, hz, hempty.1]
      · rw [hi, update_self, ha, hempty.2]
    · refine ⟨h1, ?_, ?_⟩
      · rw [update_of_ne hi, h2]
      · rw [update_of_ne hi, h3]
  · intro e hc
    rw [hsb] at hc
    by_cases hi : (icache e).ip.inum = i
    · rw [hi, update_self]
      exact fun hcon => absurd hcon htype
    · rw [update_of_ne hi]
      exact h.freed e hc
  · intro j hj hp hnone
    rw [hs.setup.sb] at hj
    by_cases hji : j = i
    · rw [hji, update_self, hself]
    · rw [update_of_ne hji, hs.others j hji hj]
      exact h.onDisk j hj hp fun e hc => hnone e ((hsb _).mpr hc)

end CacheRep

/-! ### The operations on the cache -/

variable {β : Type}

/-- The outcomes of an operation on the two levels. -/
def Agrees (ds : Nat) (k : Kernel) (a : SpecKernel) (o : KOp β) : Prop :=
  OutcomesAgree (Rep ds) DiskPanic (o.exec k) (Spec.exec o a)

theorem rep_setEntry (hd : NodeDisk k.fs ds ino disk pinned)
    (hc : CacheRep k.fs (update k.icache ip c) ino disk pinned) :
    Rep ds (k.setEntry ip c) ((k.spec disk pinned).setEntry ip c.spec) :=
  ⟨ino, disk, pinned, spec_setEntry.symm, hd, hc⟩

section

variable (hd : NodeDisk k.fs ds ino disk pinned) (hc : CacheRep k.fs k.icache ino disk pinned)

include hd hc

theorem iget_agrees : Agrees ds k (k.spec disk pinned) (.iget inum) := by
  refine OutcomesAgree.of_wp ?_
  unfold KOp.exec igetSem Spec.exec Spec.iget
  simp only [wp_bind, wp_get, get_bind, spec_cached, spec_emptyEntry]
  cases hcached : k.cached inum with
  | some e =>
    have hfound := List.find?_some hcached
    rw [Bool.and_eq_true, decide_eq_true_eq, decide_eq_true_eq] at hfound
    refine ⟨_, rfl, rep_setEntry (c := { k.icache e with ref := (k.icache e).ref + 1 }) hd ?_⟩
    exact hc.keep rfl rfl rfl rfl (fun _ => hfound.1) fun _ hz => absurd hz (Nat.succ_ne_zero _)
  | none =>
    cases hempty : k.emptyEntry with
    | some e =>
      have hzero := List.find?_some hempty
      rw [decide_eq_true_eq] at hzero
      refine ⟨_, rfl, rep_setEntry hd (hc.invalid rfl (fun _ e' _ hr heq => ?_) fun hr => ?_)⟩
      · have hnot := List.find?_eq_none.mp hcached e' (List.mem_finRange e')
        rw [Bool.and_eq_true, decide_eq_true_eq, decide_eq_true_eq] at hnot
        exact hnot ⟨hr, heq⟩
      · omega
    | none => exact Or.inr ⟨_, rfl⟩

theorem idup_agrees : Agrees ds k (k.spec disk pinned) (.idup ip) := by
  refine OutcomesAgree.guard fun href => ?_
  refine ⟨rfl, rep_setEntry (c := { k.icache ip with ref := (k.icache ip).ref + 1 }) hd ?_⟩
  exact hc.keep rfl rfl rfl rfl (fun _ => href) fun _ hz => absurd hz (Nat.succ_ne_zero _)

theorem ilockWait_agrees : Agrees ds k (k.spec disk pinned) (.ilockWait ip) :=
  ⟨rfl, rep_setEntry (c := { k.icache ip with busy := true }) hd
    (hc.keep rfl rfl rfl rfl id fun hr hz => absurd hr (Nat.not_lt.mpr (Nat.le_of_eq hz)))⟩

theorem ilockLoad_agrees : Agrees ds k (k.spec disk pinned) (.ilockLoad ip) := by
  refine OutcomesAgree.ite Iff.rfl (fun hinvalid => ?_) fun _ => ?_
  · refine OutcomesAgree.guard fun (hi : (k.icache ip).ip.inum < k.fs.sb.ninodes) => ?_
    have hfields := (hd.fields _ hi).2
    have htype : (k.fs.dinode (k.icache ip).ip.inum).type =
        (disk (k.icache ip).ip.inum).fields.type := congrArg InodeFields.type hfields
    refine OutcomesAgree.ite (by rw [htype]; rfl) (fun _ => Or.inl rfl) fun hne => ?_
    refine ⟨rfl, ?_⟩
    have hrep := rep_setEntry hd (hc.load hd hinvalid hi (by rwa [← htype]) rfl)
    unfold CachedInode.spec at hrep
    rw [hfields] at hrep
    exact hrep
  · exact ⟨rfl, ino, disk, pinned, rfl, hd, hc⟩

theorem iunlock_agrees : Agrees ds k (k.spec disk pinned) (.iunlock ip) := by
  refine OutcomesAgree.ite Iff.rfl (fun _ => Or.inl rfl) fun _ => ?_
  refine ⟨rfl, rep_setEntry (c := { k.icache ip with busy := false }) hd ?_⟩
  exact hc.keep rfl rfl rfl rfl id fun hr hz => absurd hr (Nat.not_lt.mpr (Nat.le_of_eq hz))

theorem iputBegin_agrees : Agrees ds k (k.spec disk pinned) (.iputBegin ip) := by
  refine OutcomesAgree.ite Iff.rfl (fun _ => ?_) fun _ => ?_
  · refine OutcomesAgree.ite Iff.rfl (fun _ => Or.inl rfl) fun _ => ?_
    refine ⟨rfl, rep_setEntry (c := { k.icache ip with busy := true }) hd ?_⟩
    exact hc.keep rfl rfl rfl rfl id fun hr hz => absurd hr (Nat.not_lt.mpr (Nat.le_of_eq hz))
  · refine OutcomesAgree.unless fun hlast => ?_
    refine ⟨rfl, rep_setEntry (c := { k.icache ip with ref := (k.icache ip).ref - 1 }) hd ?_⟩
    refine hc.keep rfl rfl rfl rfl (fun hr => Nat.lt_of_lt_of_le hr (Nat.sub_le _ _)) fun _ hz => ?_
    refine Bool.eq_false_iff.mpr fun hp => hlast ⟨?_, hp⟩
    change (k.icache ip).ref - 1 = 0 at hz
    change (k.icache ip).ref ≤ 1
    omega

theorem iputEnd_agrees : Agrees ds k (k.spec disk pinned) (.iputEnd ip) := by
  refine OutcomesAgree.unless fun hp => ⟨rfl, rep_setEntry (c := { k.icache ip with
    ref := (k.icache ip).ref - 1, busy := false, valid := false }) hd ?_⟩
  refine hc.invalid rfl (fun hr e he hr' heq => ?_) fun _ => Bool.eq_false_iff.mpr hp
  exact he (hc.unique e ip hr' (Nat.lt_of_lt_of_le hr (Nat.sub_le _ _)) heq)

theorem setFields_agrees : Agrees ds k (k.spec disk pinned) (.setFields ip f) :=
  ⟨rfl, rep_setEntry (c := { k.icache ip with
      ip := (k.icache ip).ip.withFields (f (k.icache ip).ip.fields) }) hd
    (hc.keep rfl rfl rfl rfl id fun hr hz => absurd hr (Nat.not_lt.mpr (Nat.le_of_eq hz)))⟩

/-! ### The operations on the disk -/

omit hd hc in
theorem readi_dev (hdev : ip.type = .dev) : readi ip off m s =
    .ok ((Spec.devRead s.devswRead ip.major m).1,
      (Spec.devRead s.devswRead ip.major m).2, ip) s := by
  unfold readi Spec.devRead
  rw [if_pos hdev, get_bind]
  split
  · rename_i h
    cases s.devswRead ⟨ip.major.toInt.toNat, h.2⟩ <;> rfl
  · rfl

omit hd hc in
theorem writei_dev (hdev : ip.type = .dev) :
    writei ip src off m s = .ok (Spec.devWrite s.devsw ip.major m, ip) s := by
  unfold writei Spec.devWrite
  rw [if_pos hdev, get_bind]
  split
  · rename_i h
    cases s.devsw ⟨ip.major.toInt.toNat, h.2⟩ <;> rfl
  · rfl

omit hd in
/-- The state after a function of the disk layer has worked on the inode of an entry. -/
theorem rep_step (hhas : (k.icache ip).Has k.fs)
    (hs : NodeStep k.fs ds ino disk pinned (k.icache ip).ip.inum s' ip' n)
    (hinum : mem.inum = (k.icache ip).ip.inum) (hsize : mem.size = ip'.size)
    (haddrs : mem.addrs = ip'.addrs)
    (hfreed : n.fields.type = .free → mem.size = 0 ∧ mem.addrs = fun _ => 0) :
    Rep ds (Kernel.setEntry { k with fs := s' } ip { k.icache ip with ip := mem })
      (((k.spec disk pinned).setNode (k.icache ip).ip.inum n).setEntry ip
        { (k.icache ip).spec with fields := mem.fields }) := by
  refine ⟨_, _, pinned, ?_, hs.rep, hc.step hhas hs hinum hsize haddrs hfreed⟩
  rw [spec_setEntry]
  unfold Kernel.spec SpecKernel.setNode SpecKernel.setEntry CachedInode.spec
  simp only [hs.setup.sb, hs.setup.devsw, hs.setup.devswRead, hinum]

omit hd in
/-- The same where the fields in memory have not changed. -/
theorem rep_same (hhas : (k.icache ip).Has k.fs)
    (hs : NodeStep k.fs ds ino disk pinned (k.icache ip).ip.inum s' ip' n)
    (hmem : SameInode (k.icache ip).ip mem ip') (htype : n.fields.type ≠ .free) :
    Rep ds (Kernel.setEntry { k with fs := s' } ip { k.icache ip with ip := mem })
      ((k.spec disk pinned).setNode (k.icache ip).ip.inum n) := by
  have hrep := rep_step hc hhas hs hmem.inum hmem.size hmem.addrs fun hcon => absurd hcon htype
  rw [hmem.fields, setEntry_self] at hrep
  · exact hrep
  · rfl

omit hd in
/-- The same where nothing has changed but the blocks that the inode knows. -/
theorem rep_read (hhas : (k.icache ip).Has k.fs)
    (hs : NodeStep k.fs ds ino disk pinned (k.icache ip).ip.inum s' ip'
      (disk (k.icache ip).ip.inum))
    (hmem : SameInode (k.icache ip).ip mem ip')
    (htype : (disk (k.icache ip).ip.inum).fields.type ≠ .free) :
    Rep ds (Kernel.setEntry { k with fs := s' } ip { k.icache ip with ip := mem })
      (k.spec disk pinned) := by
  have hrep := rep_same hc hhas hs hmem htype
  rw [setNode_self] at hrep
  · exact hrep
  · rfl

omit hc in
theorem live_of_loaded (h : (k.spec disk pinned).Loaded ip) :
    (k.icache ip).Has k.fs ∧ (k.icache ip).ip.type ≠ .free ∧ k.fs.Live ino (k.icache ip).ip.inum :=
  ⟨⟨h.1, h.2.1, h.2.2.1⟩, h.2.2.2.1, hd.live_iff.mpr ⟨h.2.2.1, h.2.2.2.2⟩⟩

theorem ifree_agrees : Agrees ds k (k.spec disk pinned) (.ifree ip) := by
  refine OutcomesAgree.guard fun hl => ?_
  obtain ⟨hhas, htype, hlive⟩ := live_of_loaded hd hl
  refine OutcomesAgree.of_wp (onInode_wp ?_)
  refine ifree_wp hd hlive (hc.inMemory ip hhas) htype (fun _ => Or.inl (Or.inr rfl))
    fun s' hs => ?_
  exact ⟨_, rfl, rep_step hc hhas hs rfl rfl rfl fun _ => ⟨rfl, rfl⟩⟩

theorem iupdate_agrees : Agrees ds k (k.spec disk pinned) (.iupdate ip) := by
  refine OutcomesAgree.guard fun hl => ?_
  obtain ⟨hhas, htype, hlive⟩ := live_of_loaded hd hl
  refine OutcomesAgree.of_wp ?_
  change wp (onInode ip fun i => do iupdate i; return ((), i)) _ _ k
  refine onInode_wp ?_
  rw [wp_bind]
  refine iupdate_wp_node hd hlive (hc.inMemory ip hhas) htype (fun _ => Or.inl (Or.inr rfl))
    fun s' hs => ?_
  exact ⟨_, rfl, rep_same hc hhas hs ⟨rfl, rfl, rfl, rfl⟩ htype⟩

theorem iallocTry_agrees : Agrees ds k (k.spec disk pinned) (.iallocTry type inum) := by
  refine OutcomesAgree.guard fun ⟨hi, htype⟩ => ?_
  by_cases hfree : (disk inum).fields.type = .free
  · refine OutcomesAgree.of_wp (onFs_wp ?_)
    refine iallocTry_wp_node hd hi (fun _ => Or.inl (Or.inr rfl)) (fun hcon => absurd hfree hcon)
      fun s' _ hself hs => ?_
    refine ⟨_, congrFun (if_pos hfree) (k.spec disk pinned), _, _, pinned, ?_, hs.rep,
      hc.alloc hfree hs hself ⟨rfl, rfl⟩ htype⟩
    unfold Kernel.spec SpecKernel.setNode
    simp only [hs.setup.sb, hs.setup.devsw, hs.setup.devswRead]
  · refine OutcomesAgree.of_wp (onFs_wp ?_)
    refine iallocTry_wp_node hd hi (fun _ => Or.inl (Or.inr rfl)) (fun _ => ?_)
      fun _ hcon => absurd hcon hfree
    exact ⟨_, congrFun (if_neg hfree) (k.spec disk pinned), ino, disk, pinned, rfl, hd, hc⟩

theorem inode_agrees : Agrees ds k (k.spec disk pinned) (.inode ip) := by
  refine OutcomesAgree.guard fun hl => ?_
  obtain ⟨hhas, -, hlive⟩ := live_of_loaded hd hl
  have hsize : (k.icache ip).ip.size = (disk (k.icache ip).ip.inum).bytes.length := by
    rw [hd.length_bytes hlive]
    exact (hc.inMemory ip hhas).size
  refine ⟨?_, ino, disk, pinned, rfl, hd, hc⟩
  rw [hsize]
  rfl

theorem readi_agrees : Agrees ds k (k.spec disk pinned) (.readi ip off m) := by
  refine OutcomesAgree.guard fun hmay => OutcomesAgree.of_wp ?_
  obtain ⟨hl, hoff, hm⟩ := hmay
  obtain ⟨hhas, htype, hlive⟩ := live_of_loaded hd hl
  unfold KOp.exec
  refine onInode_wp ?_
  rw [wp_bind]
  have hdisk := (hd.live_iff.mp hlive).2
  by_cases hdev : (k.icache ip).ip.type = .dev
  · refine wp_of_ok (readi_dev hdev) ⟨_, congrArg (EStateM.Result.ok · _) (if_pos hdev), ?_⟩
    have hmem := hc.inMemory ip hhas
    exact rep_read hc hhas hd.refl ⟨rfl, rfl, hmem.size, hmem.addrs⟩ hdisk
  · refine readi_wp_node hd hlive (hc.inMemory ip hhas) htype hdev hoff hm
      (fun _ => Or.inl (Or.inr rfl)) (fun _ => Or.inl (Or.inl rfl)) fun s' ip' mem' hs hmem => ?_
    exact ⟨_, congrArg (EStateM.Result.ok · _) (if_neg hdev), rep_read hc hhas hs hmem hdisk⟩

theorem writei_agrees : Agrees ds k (k.spec disk pinned) (.writei ip src off m) := by
  refine OutcomesAgree.guard fun ⟨hl, hoff, hm⟩ => OutcomesAgree.of_wp ?_
  obtain ⟨hhas, htype, hlive⟩ := live_of_loaded hd hl
  change wp (onInode ip fun i => writei i src off m) _ _ k
  refine onInode_wp ?_
  have hdisk := (hd.live_iff.mp hlive).2
  by_cases hdev : (k.icache ip).ip.type = .dev
  · refine wp_of_ok (writei_dev hdev) ⟨_, congrFun (if_pos hdev) _, ?_⟩
    have hmem := hc.inMemory ip hhas
    exact rep_read hc hhas hd.refl ⟨rfl, rfl, hmem.size, hmem.addrs⟩ hdisk
  · refine writei_wp_node hd hlive (hc.inMemory ip hhas) htype hdev hoff hm
      (fun _ => Or.inl (Or.inr rfl)) (fun _ => Or.inl (Or.inl rfl)) fun s' ip' mem' hs hmem => ?_
    refine ⟨_, congrFun (if_neg hdev) _, rep_same hc hhas hs hmem ?_⟩
    split
    · exact htype
    · exact hdisk

/-! ### All operations -/

omit hc in
/-- The log does not count. -/
theorem nodeDisk_log :
    NodeDisk { k.fs with current := current, done := done } ds ino disk pinned where
  owned :=
    { formatted := ⟨hd.owned.formatted.geo, hd.owned.formatted.inodes,
        hd.owned.formatted.superblock, hd.owned.formatted.metadata⟩
      inum := hd.owned.inum
      exact := hd.owned.exact }
  same := hd.same
  fields := hd.fields
  size := hd.size
  full := hd.full
  max := hd.max
  bytes := hd.bytes

omit hd in
theorem cacheRep_log :
    CacheRep { k.fs with current := current, done := done } k.icache ino disk pinned :=
  ⟨hc.inMemory, hc.freed, hc.unique, hc.onDisk⟩

theorem exec_agrees (o : KOp β) : Agrees ds k (k.spec disk pinned) o := by
  have hsame : Rep ds k (k.spec disk pinned) := ⟨ino, disk, pinned, rfl, hd, hc⟩
  cases o with
  | panic e => exact Or.inl rfl
  | beginOp => exact ⟨rfl, ino, disk, pinned, rfl, nodeDisk_log hd, cacheRep_log hc⟩
  | endOp =>
    refine ⟨rfl, ?_⟩
    change Rep ds (if _ then _ else _) _
    split
    · exact ⟨ino, disk, pinned, rfl, nodeDisk_log hd, cacheRep_log hc⟩
    · exact ⟨ino, disk, pinned, rfl, hd, hc⟩
  | iget inum => exact iget_agrees hd hc
  | idup ip => exact idup_agrees hd hc
  | ilockCheck ip =>
    exact OutcomesAgree.ite Iff.rfl (fun _ => Or.inl rfl) fun _ => ⟨rfl, hsame⟩
  | ilockWait ip => exact ilockWait_agrees hd hc
  | ilockLoad ip => exact ilockLoad_agrees hd hc
  | iunlock ip => exact iunlock_agrees hd hc
  | iputBegin ip => exact iputBegin_agrees hd hc
  | iputEnd ip => exact iputEnd_agrees hd hc
  | ifree ip => exact ifree_agrees hd hc
  | iupdate ip => exact iupdate_agrees hd hc
  | ninodes => exact ⟨rfl, hsame⟩
  | iallocTry type inum => exact iallocTry_agrees hd hc
  | inode ip => exact inode_agrees hd hc
  | setFields ip f => exact setFields_agrees hd hc
  | readi ip off n => exact readi_agrees hd hc
  | writei ip src off n => exact writei_agrees hd hc
  | filealloc =>
    have hfiles : (k.spec disk pinned).ftable = k.ftable := rfl
    simp only [Agrees, KOp.exec, Spec.exec, get_bind, hfiles]
    cases (List.finRange NFILE).find? fun f => (k.ftable f).ref = 0 with
    | some f => exact ⟨rfl, ino, disk, pinned, rfl, hd, hc⟩
    | none => exact ⟨rfl, hsame⟩
  | filedup f =>
    exact OutcomesAgree.ite Iff.rfl (fun _ => Or.inl rfl)
      fun _ => ⟨rfl, ino, disk, pinned, rfl, hd, hc⟩
  | fileput f =>
    refine OutcomesAgree.ite Iff.rfl (fun _ => Or.inl rfl) fun _ => ?_
    refine OutcomesAgree.ite Iff.rfl (fun _ => ?_) fun _ => ?_
    · exact ⟨rfl, ino, disk, pinned, rfl, hd, hc⟩
    · exact ⟨rfl, ino, disk, pinned, rfl, hd, hc⟩
  | file f => exact ⟨rfl, hsame⟩
  | fdalloc p f =>
    have hprocs : (k.spec disk pinned).procs = k.procs := rfl
    simp only [Agrees, KOp.exec, fdallocSem, Spec.exec, Spec.fdalloc, get_bind, hprocs]
    cases (List.finRange NOFILE).find? fun fd => (k.procs p).ofile fd = none with
    | some fd => exact ⟨rfl, ino, disk, pinned, rfl, hd, hc⟩
    | none => exact ⟨rfl, hsame⟩
  | ofile p fd => exact ⟨rfl, hsame⟩
  | cwd p => exact ⟨rfl, hsame⟩
  | _ => exact ⟨rfl, ino, disk, pinned, rfl, hd, hc⟩

end

end

/-- Every operation of the kernel does what the upper level says. -/
theorem kernel_sim (ds : Nat) : Sim Kernel.sem SpecKernel.sem (Rep ds) DiskPanic where
  enabled := by
    rintro β o k a ⟨ino, disk, pinned, rfl, -, -⟩
    cases o <;> rfl
  exec := by
    rintro β o k a ⟨ino, disk, pinned, rfl, hd, hc⟩
    exact exec_agrees hd hc o

end Xv6Kernel
