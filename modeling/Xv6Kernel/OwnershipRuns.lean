/-
  OwnershipRuns.lean
  ==================
  Every run of the functions of `fs.c` keeps the order of the blocks.

  `BlockCall` has the functions that processes call on inodes: taking a reference, locking,
  reading and writing, `ialloc`, `dirlink` and the part of `sys_unlink` that removes an entry,
  and `iput`, which truncates an inode that nothing refers to.  A process calls them on
  inodes that it has locked, as `Allowed` says; between two calls any number of inodes may
  be referenced and locked.
-/
import Xv6Kernel.InodeWalk

namespace Xv6Kernel

open PanicMonad AtomicProg Function

/-! ### Calls -/

/-- Assignments to the fields of an inode that leave the type alone. -/
def FieldChange := { f : InodeFields → InodeFields // ∀ x, (f x).type = x.type }

inductive BlockCall where
  | beginOp
  | endOp
  | iget (inum : Nat)
  | ilock (ip : Fin NINODE)
  | iunlock (ip : Fin NINODE)
  | iput (ip : Fin NINODE)
  | readi (ip : Fin NINODE) (off n : Uint)
  | writei (ip : Fin NINODE) (src : Nat → Byte) (off n : Uint)
  | ialloc (type : InodeType)
  | dirlink (dp : Fin NINODE) (name : Name) (inum : Nat)
  /-- The entry at `off` of `dp` is removed, which is for `ip`. -/
  | unlink (dp ip : Fin NINODE) (off : Uint)
  /-- Assignments to fields, then `iupdate`. -/
  | iupdate (ip : Fin NINODE) (f : FieldChange)

namespace BlockCall

open Prog in
def prog : BlockCall → KProg Unit
  | beginOp => call .beginOp
  | endOp => call .endOp
  | iget inum => do let _ ← call (.iget inum)
  | ilock ip => Sys.ilock ip
  | iunlock ip => Sys.iunlock ip
  | iput ip => Sys.iput ip
  | readi ip off n => do let _ ← call (.readi ip off.toNat n.toNat)
  | writei ip src off n => do let _ ← call (.writei ip src off.toNat n.toNat)
  | ialloc type => do let _ ← Sys.ialloc type
  | dirlink dp name inum => do let _ ← Sys.dirlink dp name inum
  | unlink dp ip off => do let _ ← Sys.unlinkInode dp ip off.toNat
  | iupdate ip f => do
      call (.setFields ip f.1)
      call (.iupdate ip)

/-- The inode is referenced and locked. -/
def Locked (k : Kernel) (ip : Fin NINODE) : Prop :=
  0 < (k.icache ip).ref ∧ (k.icache ip).busy = true

instance {k : Kernel} {ip : Fin NINODE} : Decidable (Locked k ip) :=
  inferInstanceAs (Decidable (_ ∧ _))

/-- What a process sees to before it calls the function.  An inode that it drops may be
    locked by another process, which then has a reference too. -/
def Allowed (k : Kernel) : BlockCall → Prop
  | beginOp | endOp | iget _ => True
  | ilock ip => 0 < (k.icache ip).ref ∧ (k.icache ip).ip.inum < k.fs.sb.ninodes
  | iput ip => 0 < (k.icache ip).ref ∧ ((k.icache ip).busy = true → 1 < (k.icache ip).ref)
  | ialloc type => type ≠ .free
  | iunlock ip | readi ip _ _ | writei ip _ _ _ | dirlink ip _ _ | iupdate ip _ => Locked k ip
  | unlink dp ip _ => Locked k dp ∧ Locked k ip ∧ dp ≠ ip ∧ (k.icache dp).ip.type = .dir

instance {k : Kernel} : ∀ c : BlockCall, Decidable (c.Allowed k)
  | beginOp | endOp | iget _ => inferInstanceAs (Decidable True)
  | ilock _ | iput _ => inferInstanceAs (Decidable (_ ∧ _))
  | ialloc _ => inferInstanceAs (Decidable (_ ≠ _))
  | iunlock _ | readi _ _ _ | writei _ _ _ _ | dirlink _ _ _ | iupdate _ _ =>
      inferInstanceAs (Decidable (Locked _ _))
  | unlink _ _ _ => inferInstanceAs (Decidable (_ ∧ _ ∧ _ ∧ _))

end BlockCall

/-- The runs that start from an image in order, with no inode in the cache. -/
def blockSystem (ds : Nat) : TransitionSystem Kernel BlockCall Unit :=
  Kernel.sem.callSystem (fun k => k.fs.BlockOwnership ds ∧ ∀ e, (k.icache e).ref = 0)
    (fun k c => c.Allowed k) BlockCall.prog

/-! ### The invariant -/

/-- Some references and locks, and no pinned inode. -/
def Quiet (a : SpecKernel) : Prop :=
  a.pinned = (fun _ => false) ∧ ∃ base locks, Walk base a 0 locks

section

variable {k : Kernel} {e : Fin NINODE} {ds : Nat}

theorem heldBy_heldBy : heldBy (heldBy base own) 0 = heldBy base own := by
  funext x
  unfold heldBy
  rw [Multiset.count_zero, Nat.add_zero]

theorem heldBy_zero : heldBy base 0 = base := by
  funext x
  unfold heldBy
  rw [Multiset.count_zero, Nat.add_zero]

/-- At the end of a call its references belong to whoever called it. -/
theorem Walk.quiet (h : Walk base a own locks) (hp : a.pinned = fun _ => false) : Quiet a := by
  refine ⟨hp, heldBy base own, locks, ?_, h.nodup, ?_⟩
  · rw [heldBy_heldBy]
    exact h.inv
  · intro i hi
    rw [hp] at hi
    cases hi

/-- A call uses one of the references. -/
theorem Walk.use (h : Walk base a own locks) (hp : a.pinned = fun _ => false) (he : 0 < base e) :
    Walk (update base e (base e - 1)) a (e ::ₘ own) locks := by
  refine ⟨?_, h.nodup, fun i hi => ?_⟩
  · have hheld : heldBy (update base e (base e - 1)) (e ::ₘ own) = heldBy base own := by
      funext x
      unfold heldBy
      by_cases hx : x = e
      · rw [hx, update_self, Multiset.count_cons_self]
        omega
      · rw [update_of_ne hx, Multiset.count_cons_of_ne hx]
    rw [hheld]
    exact h.inv
  · rw [hp] at hi
    cases hi

theorem Walk.ref_eq (h : Walk base a 0 locks) : (a.icache e).ref = base e := by
  rw [h.inv.ref e, heldBy_zero]

/-- The flag says whether an inode is locked. -/
theorem Walk.mem_locks (h : Walk base a own locks) (he : 0 < heldBy base own e)
    (hb : (a.icache e).busy = true) : e ∈ locks := by
  by_contra hno
  have hentry := h.inv.entry e he
  rw [lockOf_of_notMem hno] at hentry
  rw [hentry.1] at hb
  cases hb

/-- The state of the upper level when the cache is empty. -/
theorem exists_rep_of_cold (ho : k.fs.BlockOwnership ds) (hcold : ∀ e, (k.icache e).ref = 0) :
    Rep ds k (k.spec (fun i => ⟨(k.fs.dinode i).fields, k.fs.contents i⟩) fun _ => false) := by
  refine ⟨k.fs.dinode, _, _, rfl, ?_, ?_⟩
  · exact {
      owned := ho.owned
      same := fun _ _ _ => rfl
      fields := fun _ _ => ⟨rfl, rfl⟩
      size := fun _ _ => rfl
      full := fun i hi _ => ho.full i hi
      max := fun i hi => (ho.full i hi).size_le
      bytes := fun _ _ => rfl }
  · have hnone : ∀ e, ¬ 0 < (k.icache e).ref := fun e => by
      rw [hcold e]
      exact Nat.lt_irrefl 0
    exact {
      inMemory := fun e he => absurd he.1 (hnone e)
      freed := fun e he => absurd he.1 (hnone e)
      unique := fun e _ he => absurd he (hnone e)
      onDisk := fun _ _ hp => by cases hp }

theorem walk_of_cold (ho : k.fs.BlockOwnership ds) (hcold : ∀ e, (k.icache e).ref = 0) :
    Walk (fun _ => 0) (k.spec (fun i => ⟨(k.fs.dinode i).fields, k.fs.contents i⟩) fun _ => false)
      0 0 := by
  refine ⟨⟨?_, ?_, ?_, ?_, ?_⟩, Multiset.nodup_zero, nofun⟩
  · intro e
    exact hcold e
  · exact fun _ he => absurd he (Nat.lt_irrefl 0)
  · exact fun e _ => lockOf_of_notMem (Multiset.notMem_zero e)
  · exact fun _ _ he => absurd he (Nat.lt_irrefl 0)
  · intro i hi htype
    change (k.fs.contents i).length ≤ _
    rw [Fs.length_contents]
    exact (ho.full i ⟨hi, htype⟩).size_le

/-- The order of the blocks, from the upper level. -/
theorem Rep.blockOwnership (h : Rep ds k a) (hp : a.pinned = fun _ => false) :
    k.fs.BlockOwnership ds := by
  obtain ⟨ino, disk, pinned, rfl, hd, -⟩ := h
  have hsame : ∀ i, i < k.fs.sb.ninodes → k.fs.dinode i = ino i :=
    fun i hi => (hd.same i hi (congrFun hp i)).symm
  refine ⟨hd.owned.congr (fun _ => rfl) hsame, fun i hi => ?_⟩
  have hlive : k.fs.Live ino i := by
    refine ⟨hi.1, ?_⟩
    rw [← hsame i hi.1]
    exact hi.2
  rw [hsame i hi.1]
  exact hd.full i hlive (congrFun hp i)

/-! ### Each call keeps it -/

/-- The panics other than the two about blocks. -/
def OtherPanic (e : Option FsPanic) (_ : SpecKernel) : Prop :=
  ∃ p, e = some p ∧ p ≠ .freeingFreeBlock ∧ p ≠ .bmapOutOfRange

theorem tolerates_otherPanic : Tolerates OtherPanic := fun e _ _ hf hb => ⟨e, rfl, hf, hb⟩

theorem quiet_of_kept (h : Walk base a' own locks)
    (hk : Kept held a a') (hp : a.pinned = fun _ => false) : Quiet a' :=
  h.quiet (hk.pinned.trans hp)

theorem blockCall_wp {c : BlockCall} (hr : Rep ds k a) (hq : Quiet a) (hc : c.Allowed k) :
    SpecKernel.sem.wp c.prog (fun _ => Quiet) OtherPanic a := by
  obtain ⟨hp, base, locks, h⟩ := hq
  have hE := tolerates_otherPanic
  have hentry : ∀ e, a.icache e = (k.icache e).spec := by
    obtain ⟨ino, disk, pinned, rfl, -, -⟩ := hr
    exact fun _ => rfl
  have hpos : ∀ e, 0 < (k.icache e).ref → 0 < base e := by
    intro e he
    rw [← h.ref_eq (e := e), hentry]
    exact he
  have hlocked : ∀ e, BlockCall.Locked k e → e ∈ locks ∧ 0 < base e := by
    rintro e ⟨href, hbusy⟩
    refine ⟨h.mem_locks ?_ ?_, hpos e href⟩
    · rw [heldBy_zero]
      exact hpos e href
    · rw [hentry]
      exact hbusy
  cases c with
  | beginOp => exact fun _ => h.quiet hp
  | endOp => exact fun _ => h.quiet hp
  | iget inum =>
    exact iget_spec h hE fun e a' _ hk _ _ h' => quiet_of_kept h' hk hp
  | ilock ip =>
    obtain ⟨href, hi⟩ := hc
    refine ilock_spec h ?_ ?_ (fun _ _ => ⟨_, rfl, nofun, nofun⟩)
      fun a' _ _ hk _ h' => quiet_of_kept h' hk hp
    · rw [heldBy_zero]
      exact hpos ip href
    · obtain ⟨ino, disk, pinned, rfl, -, -⟩ := hr
      exact hi
  | iunlock ip =>
    obtain ⟨hmem, -⟩ := hlocked ip hc
    rw [← Multiset.cons_erase hmem] at h
    exact iunlock_spec h fun a' _ hk _ h' => quiet_of_kept h' hk hp
  | iput ip =>
    obtain ⟨href, hbusy⟩ := hc
    have huse := h.use hp (hpos ip href)
    refine iput_spec huse (fun hmem => ?_) (fun a' _ _ hk h' => quiet_of_kept h' hk hp)
      fun a' _ _ _ _ _ _ hk h' => quiet_of_kept h' hk hp
    have hb := (h.inv.entry ip (h.pos_of_lock hmem)).busy (by rw [lockOf_of_mem hmem]; exact nofun)
    rw [hentry] at hb
    have htwo := hbusy hb
    have href' := h.ref_eq (e := ip)
    rw [hentry] at href'
    rw [heldBy_zero, update_self]
    change (k.icache ip).ref = base ip at href'
    omega
  | readi ip off n =>
    obtain ⟨hmem, -⟩ := hlocked ip hc
    intro _
    exact readi_wp_cache h.inv (h.pos_of_lock hmem) (lockOf_of_mem hmem)
      off.isLt n.isLt (h.quiet hp)
  | writei ip src off n =>
    obtain ⟨hmem, -⟩ := hlocked ip hc
    intro _
    rw [SpecKernel.sem_exec]
    exact writei_wp_cache h.inv (h.pos_of_lock hmem) (lockOf_of_mem hmem) off.isLt n.isLt
      (fun _ => h.quiet hp) fun a' _ _ hk hinv => quiet_of_kept (h.next hk h.nodup hinv) hk hp
  | ialloc type =>
    refine Sem.wp_bind.mpr (ialloc_spec h hE hc ?_)
    exact fun i e a' _ _ _ _ hk _ h' => quiet_of_kept h' hk hp
  | dirlink dp name inum =>
    obtain ⟨hmem, -⟩ := hlocked dp hc
    refine Sem.wp_bind.mpr (dirlink_spec h hE hmem ?_ ?_)
    · exact fun a' _ _ _ _ hk h' => quiet_of_kept h' hk hp
    · exact fun a' _ _ _ _ hk h' => quiet_of_kept h' hk hp
  | unlink dp ip off =>
    obtain ⟨hdp, hip, hne, hdir⟩ := hc
    obtain ⟨hmemd, hposd⟩ := hlocked dp hdp
    obtain ⟨hmemi, hposi⟩ := hlocked ip hip
    have huse := (h.use hp hposi).use hp (e := dp) (by rwa [update_of_ne hne])
    have htype : (a.fieldsOf dp).type = .dir := by
      have hcoh := (h.coherent hmemd).fields
      unfold SpecKernel.fieldsOf
      rw [← hcoh, hentry]
      exact hdir
    have hi : ip ∈ locks.erase dp := (Multiset.mem_erase_of_ne hne.symm).mpr hmemi
    rw [← Multiset.cons_erase hmemd, ← Multiset.cons_erase hi] at huse
    refine Sem.wp_bind.mpr (unlinkInode_spec huse hE htype off.isLt ?_ ?_)
    · exact fun a' _ _ _ hk h' => quiet_of_kept h' hk hp
    · exact fun a' _ _ _ _ hk h' => quiet_of_kept h' hk hp
  | iupdate ip f =>
    obtain ⟨hmem, -⟩ := hlocked ip hc
    exact setFields_iupdate_spec (.ret ()) h hmem f.2 fun a' _ hk h' => quiet_of_kept h' hk hp

/-- The invariant of the kernel. -/
def BlocksOk (ds : Nat) (k : Kernel) : Prop := ∃ a, Rep ds k a ∧ Quiet a

/-- A call keeps it, and stops with none of the two panics. -/
theorem blockCall_run {c : BlockCall} (h : BlocksOk ds k) (hc : c.Allowed k) :
    Kernel.sem.wp c.prog (fun _ => BlocksOk ds)
      (fun e _ => e ≠ .freeingFreeBlock ∧ e ≠ .bmapOutOfRange) k := by
  obtain ⟨a, hr, hq⟩ := h
  refine Sem.wp_mono ((kernel_sim ds).wp hr (blockCall_wp hr hq hc) ?_) (fun _ _ => id) ?_
  · rintro u ⟨p, hcon, -⟩
    cases hcon
  · rintro e _ (hdisk | ⟨t, p, hsome, hpanic⟩)
    · rcases hdisk with rfl | rfl <;> exact ⟨nofun, nofun⟩
    · cases hsome
      exact hpanic

theorem blocksOk_of_reachable (h : (blockSystem ds).Reachable k) : BlocksOk ds k := by
  refine Sem.callSystem_invariant h ?_ fun k c hk hc => blockCall_run hk hc
  rintro k ⟨ho, hcold⟩
  exact ⟨_, exists_rep_of_cold ho hcold, rfl, _, _, walk_of_cold ho hcold⟩

/-- `balloc` hands out a block that is at no place. -/
theorem balloc_fresh (ho : s.BlockOwnership ds)
    (hb : balloc s = .ok b s') (hl : s.Live s.dinode i) :
    s.slot (s.dinode i) p ≠ b := by
  have hfree : ∃ n, n < s.sb.size ∧ s.bit n = false ∧ b = BitVec.ofNat 32 n := by
    have hwp : wp balloc (fun c _ => ∃ n, n < s.sb.size ∧ s.bit n = false ∧ c = BitVec.ofNat 32 n)
        (fun _ _ => True) s :=
      balloc_wp_or (fun _ => trivial) (fun _ => trivial) fun _ n hn hbit => ⟨n, hn, hbit, rfl⟩
    exact post_of_ok hwp hb
  obtain ⟨n, hn, hbit, rfl⟩ := hfree
  have hf := ho.owned.formatted
  intro heq
  have hne : s.slot (s.dinode i) p ≠ 0 := heq ▸ hf.ofNat_ne_zero hn hbit
  refine ho.owned.slot_ne_free hl hne hbit ?_
  rw [heq, hf.geo.toNat_ofNat hn]

/-- In every run every block in use is at one place of one inode, blocks below the size of a
    file are there, and so `balloc`, `bfree` and `bmap` find what they expect. -/
theorem blocks_owned_in_every_run (h : (blockSystem ds).Reachable k) : k.fs.BlockOwnership ds ∧
    (∀ b s', balloc k.fs = .ok b s' → ∀ i p, k.fs.Live k.fs.dinode i →
      k.fs.slot (k.fs.dinode i) p ≠ b) ∧
    ∀ c : BlockCall, c.Allowed k → ∀ e k', Kernel.sem.run c.prog k = some (.error e k') →
      e ≠ .freeingFreeBlock ∧ e ≠ .bmapOutOfRange := by
  have hok := blocksOk_of_reachable h
  have hown : k.fs.BlockOwnership ds := by
    obtain ⟨a, hr, hp, -⟩ := hok
    exact hr.blockOwnership hp
  refine ⟨hown, fun b s' hb i p hl => balloc_fresh hown hb hl, fun c hc e k' hrun => ?_⟩
  exact (Sem.wp_iff_run.mp (blockCall_run hok hc)).2 e k' hrun

end

/-- The kernel with `oneFileDisk`. -/
def oneFileKernel : Kernel where
  fs := oneFileDisk
  outstanding := 1
  icache := fun _ => ⟨0, false, false, Inode.fresh 0 .free⟩
  ftable := fun _ => ⟨.none, 0, false, false, 0, 0, 0⟩
  procs := fun _ => ⟨.free, none, fun _ => none⟩
  pipes := fun _ => ⟨fun _ => false, 0, fun _ => 0, 0⟩

/-- The file is locked, written, unlocked and dropped, which frees it. -/
theorem blocks_owned_in_every_run_oneFile : ∃ k ev, (blockSystem 4).run oneFileKernel
    [.iget 1, .ilock 0, .writei 0 (fun _ => 7) 0 3, .iunlock 0, .iput 0] = some (k, ev) ∧
      k.fs.BlockOwnership 4 := by
  obtain ⟨⟨k, ev⟩, hrun⟩ := Option.isSome_iff_exists.mp (show ((blockSystem 4).run oneFileKernel
    [.iget 1, .ilock 0, .writei 0 (fun _ => 7) 0 3, .iunlock 0, .iput 0]).isSome = true by
      decide +kernel)
  have hinit : (blockSystem 4).Reachable oneFileKernel :=
    .init ⟨oneFileDisk_ownership, fun _ => rfl⟩
  exact ⟨k, ev, hrun, (blocks_owned_in_every_run (hinit.run hrun)).1⟩

/-! ### Programs on the two levels -/

end Xv6Kernel
