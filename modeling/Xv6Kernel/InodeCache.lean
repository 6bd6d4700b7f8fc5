/-
  InodeCache.lean
  ===============
  The discipline of the inode cache: references, locks and copies of inodes.

  `CacheInv a held lock` says that `held e` references to entry `e` exist and what the
  holder of its lock, if any, has done so far.  There is one lemma for each operation.  They
  speak about all references and locks at once, so they hold for an operation of one process
  whatever references and locks the others have.
-/
import Xv6Kernel.KernelSim

namespace Xv6Kernel

open PanicMonad AtomicProg Function SpecKernel Spec

/-! ### The invariant -/

inductive LockState where
  | unlocked
  /-- Locked, and not yet read from the disk. -/
  | taken
  /-- As on the disk. -/
  | clean
  /-- With fields that are not yet on the disk. -/
  | dirty
  /-- Freed by `iput`, which has not yet released it. -/
  | freed
deriving DecidableEq

namespace SpecKernel

/-- The entry agrees with an allocated inode on the disk. -/
structure Coherent (a : SpecKernel) (e : Fin NINODE) : Prop where
  inum : (a.icache e).inum < a.ninodes
  fields : (a.icache e).fields = (a.disk (a.icache e).inum).fields
  type : (a.disk (a.icache e).inum).fields.type ≠ .free

def EntryOk (a : SpecKernel) (e : Fin NINODE) : LockState → Prop
  | .unlocked => (a.icache e).busy = false ∧ ((a.icache e).valid = true → a.Coherent e)
  | .taken => (a.icache e).busy = true ∧ ((a.icache e).valid = true → a.Coherent e)
  | .clean => (a.icache e).busy = true ∧ (a.icache e).valid = true ∧ a.Coherent e
  | .dirty => (a.icache e).busy = true ∧ a.Loaded e
  | .freed => (a.icache e).busy = true

end SpecKernel

structure CacheInv (a : SpecKernel) (held : Fin NINODE → Nat) (lock : Fin NINODE → LockState) :
    Prop where
  ref : ∀ e, (a.icache e).ref = held e
  entry : ∀ e, 0 < held e → a.EntryOk e (lock e)
  idle : ∀ e, held e = 0 → lock e = .unlocked
  unique : ∀ e e', 0 < held e → 0 < held e' → (a.icache e).inum = (a.icache e').inum → e = e'
  small : ∀ i, i < a.ninodes → (a.disk i).fields.type ≠ .free →
    (a.disk i).bytes.length ≤ MAXFILE * BSIZE

/-- What the operations on inodes leave alone, where `held` has the references in use. -/
structure Kept (held : Fin NINODE → Nat) (a a' : SpecKernel) : Prop where
  ninodes : a'.ninodes = a.ninodes
  devsw : a'.devsw = a.devsw
  devswRead : a'.devswRead = a.devswRead
  pinned : a'.pinned = a.pinned
  ftable : a'.ftable = a.ftable
  procs : a'.procs = a.procs
  inum : ∀ e, 0 < held e → (a'.icache e).inum = (a.icache e).inum
  valid : ∀ e, 0 < held e → (a.icache e).valid = true → (a'.icache e).valid = true

namespace Kept

theorem refl : Kept held a a := ⟨rfl, rfl, rfl, rfl, rfl, rfl, fun _ _ => rfl, fun _ _ => id⟩

theorem trans (h : Kept held a a₁) (h' : Kept held' a₁ a₂) (hle : ∀ e, 0 < held e → 0 < held' e) :
    Kept held a a₂ where
  ninodes := h'.ninodes.trans h.ninodes
  devsw := h'.devsw.trans h.devsw
  devswRead := h'.devswRead.trans h.devswRead
  pinned := h'.pinned.trans h.pinned
  ftable := h'.ftable.trans h.ftable
  procs := h'.procs.trans h.procs
  inum := fun e he => (h'.inum e (hle e he)).trans (h.inum e he)
  valid := fun e he hv => h'.valid e (hle e he) (h.valid e he hv)

theorem mono (h : Kept held' a a₁) (hle : ∀ e, 0 < held e → 0 < held' e) : Kept held a a₁ :=
  { h with
    inum := fun e he => h.inum e (hle e he)
    valid := fun e he => h.valid e (hle e he) }

end Kept

section

variable {a : SpecKernel} {held : Fin NINODE → Nat} {lock : Fin NINODE → LockState}
  {e ip : Fin NINODE}

namespace SpecKernel

@[simp] theorem setEntry_icache_self : (a.setEntry ip c).icache ip = c := update_self ..

theorem setEntry_icache_of_ne (h : e ≠ ip) : (a.setEntry ip c).icache e = a.icache e :=
  update_of_ne h ..

@[simp] theorem setNode_disk_self : (a.setNode i n).disk i = n := update_self ..

theorem setNode_disk_of_ne (h : j ≠ i) : (a.setNode i n).disk j = a.disk j := update_of_ne h ..

theorem Coherent.loaded (h : a.Coherent e) (href : 0 < (a.icache e).ref)
    (hvalid : (a.icache e).valid = true) : a.Loaded e :=
  ⟨href, hvalid, h.inum, by rw [h.fields]; exact h.type, h.type⟩

/-- The number of references does not count, as long as there are any. -/
theorem EntryOk.of_ref {a' : SpecKernel} (h : a.EntryOk e l) (hn : a'.ninodes = a.ninodes)
    (hd : a'.disk (a.icache e).inum = a.disk (a.icache e).inum)
    (hc : a'.icache e = { a.icache e with ref := (a'.icache e).ref })
    (href : 0 < (a'.icache e).ref) : a'.EntryOk e l := by
  have hbusy : (a'.icache e).busy = (a.icache e).busy := by rw [hc]
  have hvalid : (a'.icache e).valid = (a.icache e).valid := by rw [hc]
  have hinum : (a'.icache e).inum = (a.icache e).inum := by rw [hc]
  have hfields : (a'.icache e).fields = (a.icache e).fields := by rw [hc]
  have hcoh : a.Coherent e → a'.Coherent e := by
    rintro ⟨h1, h2, h3⟩
    refine ⟨?_, ?_, ?_⟩
    · rwa [hinum, hn]
    · rwa [hinum, hfields, hd]
    · rwa [hinum, hd]
  cases l with
  | unlocked => exact ⟨hbusy.trans h.1, fun hv => hcoh (h.2 (hvalid.symm.trans hv))⟩
  | taken => exact ⟨hbusy.trans h.1, fun hv => hcoh (h.2 (hvalid.symm.trans hv))⟩
  | clean => exact ⟨hbusy.trans h.1, hvalid.trans h.2.1, hcoh h.2.2⟩
  | dirty =>
    obtain ⟨h1, -, h2, h3, h4, h5⟩ := h
    refine ⟨hbusy.trans h1, href, hvalid.trans h2, ?_, ?_, ?_⟩
    · rwa [hinum, hn]
    · rwa [hfields]
    · rwa [hinum, hd]
  | freed => exact hbusy.trans h

/-- What is known of an entry depends on the entry and its inode. -/
theorem EntryOk.congr {a' : SpecKernel} (h : a.EntryOk e l) (hn : a'.ninodes = a.ninodes)
    (he : a'.icache e = a.icache e) (href : 0 < (a.icache e).ref)
    (hd : a'.disk (a.icache e).inum = a.disk (a.icache e).inum) : a'.EntryOk e l :=
  h.of_ref hn hd (by rw [he]) (by rwa [he])

theorem EntryOk.busy (h : a.EntryOk e l) (hl : l ≠ .unlocked) : (a.icache e).busy = true := by
  cases l with
  | unlocked => exact absurd rfl hl
  | taken => exact h.1
  | clean => exact h.1
  | dirty => exact h.1
  | freed => exact h

end SpecKernel

namespace CacheInv

section

variable (h : CacheInv a held lock) (he : 0 < held e)

include h he

theorem ref_pos : 0 < (a.icache e).ref := by
  rwa [h.ref e]

theorem coherent_of_clean (hl : lock e = .clean) : a.Coherent e := by
  have hentry := h.entry e he
  rw [hl] at hentry
  exact hentry.2.2

theorem loaded_of_clean (hl : lock e = .clean) : a.Loaded e := by
  have hentry := h.entry e he
  rw [hl] at hentry
  exact hentry.2.2.loaded (h.ref_pos he) hentry.2.1

/-- An inode that can be used by the holder of its lock. -/
theorem loaded (hl : lock e = .clean ∨ lock e = .dirty) : a.Loaded e := by
  rcases hl with hl | hl
  · exact h.loaded_of_clean he hl
  · have hentry := h.entry e he
    rw [hl] at hentry
    exact hentry.2

/-- Nobody has the lock if the flag is clear. -/
theorem unlocked_of_busy (hbusy : (a.icache e).busy = false) : lock e = .unlocked := by
  by_contra hl
  have hb := (h.entry e he).busy hl
  rw [hbusy] at hb
  cases hb

end

/-- What has to be shown when one entry changes and the disk does not. -/
theorem setEntry (h : CacheInv a held lock) {r : Nat} (href : c.ref = r)
    (hinum : 0 < r → 0 < held ip → c.inum = (a.icache ip).inum)
    (hnew : held ip = 0 → 0 < r → ∀ e, 0 < held e → (a.icache e).inum ≠ c.inum)
    (hentry : 0 < r → (a.setEntry ip c).EntryOk ip l) (hidle : r = 0 → l = .unlocked) :
    CacheInv (a.setEntry ip c) (update held ip r) (update lock ip l) := by
  have hfresh : ∀ e, e ≠ ip → 0 < r → 0 < held e → (a.icache e).inum ≠ c.inum := by
    intro e he hr hpos heq
    by_cases hip : 0 < held ip
    · exact he (h.unique e ip hpos hip (heq.trans (hinum hr hip)))
    · exact hnew (Nat.eq_zero_of_not_pos hip) hr e hpos heq
  refine ⟨?_, ?_, ?_, ?_, h.small⟩
  · intro e
    by_cases he : e = ip
    · rw [he, setEntry_icache_self, update_self, href]
    · rw [setEntry_icache_of_ne he, update_of_ne he, h.ref e]
  · intro e
    by_cases he : e = ip
    · rw [he, update_self, update_self]
      exact hentry
    · rw [update_of_ne he, update_of_ne he]
      intro hpos
      exact (h.entry e hpos).congr rfl (setEntry_icache_of_ne he) (h.ref_pos hpos) rfl
  · intro e
    by_cases he : e = ip
    · rw [he, update_self, update_self]
      exact hidle
    · rw [update_of_ne he, update_of_ne he]
      exact h.idle e
  · intro e e'
    by_cases he : e = ip <;> by_cases he' : e' = ip
    · intro _ _ _
      rw [he, he']
    · rw [he, update_self, update_of_ne he', setEntry_icache_self, setEntry_icache_of_ne he']
      intro hr hpos heq
      exact absurd heq.symm (hfresh e' he' hr hpos)
    · rw [he', update_self, update_of_ne he, setEntry_icache_self, setEntry_icache_of_ne he]
      intro hpos hr heq
      exact absurd heq (hfresh e he hr hpos)
    · rw [update_of_ne he, update_of_ne he', setEntry_icache_of_ne he, setEntry_icache_of_ne he']
      exact h.unique e e'

/-- What has to be shown when the inode of an entry changes on the disk. -/
theorem setNode (h : CacheInv a held lock) (hip : 0 < held ip)
    (hinum : c.inum = (a.icache ip).inum) (href : c.ref = (a.icache ip).ref)
    (hentry : ((a.setNode (a.icache ip).inum n).setEntry ip c).EntryOk ip l)
    (hsmall : n.fields.type ≠ .free → n.bytes.length ≤ MAXFILE * BSIZE) :
    CacheInv ((a.setNode (a.icache ip).inum n).setEntry ip c) held (update lock ip l) := by
  refine ⟨?_, ?_, ?_, ?_, ?_⟩
  · intro e
    by_cases he : e = ip
    · rw [he, setEntry_icache_self, href, h.ref]
    · rw [setEntry_icache_of_ne he]
      exact h.ref e
  · intro e hpos
    by_cases he : e = ip
    · rw [he, update_self]
      exact hentry
    · rw [update_of_ne he]
      refine (h.entry e hpos).congr rfl (setEntry_icache_of_ne he) (h.ref_pos hpos) ?_
      exact setNode_disk_of_ne fun heq => he (h.unique e ip hpos hip heq)
  · intro e hz
    have he : e ≠ ip := by
      rintro rfl
      omega
    rw [update_of_ne he]
    exact h.idle e hz
  · have hkeep : ∀ e, (((a.setNode (a.icache ip).inum n).setEntry ip c).icache e).inum =
        (a.icache e).inum := by
      intro e
      by_cases he : e = ip
      · rw [he, setEntry_icache_self, hinum]
      · rw [setEntry_icache_of_ne he]
        rfl
    intro e e'
    rw [hkeep, hkeep]
    exact h.unique e e'
  · intro i hi
    by_cases hii : i = (a.icache ip).inum
    · change (update a.disk _ n i).fields.type ≠ .free → (update a.disk _ n i).bytes.length ≤ _
      rw [hii, update_self]
      exact hsmall
    · change (update a.disk _ n i).fields.type ≠ .free → (update a.disk _ n i).bytes.length ≤ _
      rw [update_of_ne hii]
      exact h.small i hi

theorem kept_setEntry (hinum : 0 < held ip → c.inum = (a.icache ip).inum)
    (hvalid : 0 < held ip → (a.icache ip).valid = true → c.valid = true) :
    Kept held a (a.setEntry ip c) := by
  refine ⟨rfl, rfl, rfl, rfl, rfl, rfl, fun e he => ?_, fun e he => ?_⟩
  · by_cases heip : e = ip
    · rw [heip, setEntry_icache_self]
      exact hinum (heip ▸ he)
    · rw [setEntry_icache_of_ne heip]
  · by_cases heip : e = ip
    · rw [heip, setEntry_icache_self]
      exact hvalid (heip ▸ he)
    · rw [setEntry_icache_of_ne heip]
      exact id

theorem kept_setNode (hinum : c.inum = (a.icache ip).inum)
    (hvalid : (a.icache ip).valid = true → c.valid = true) :
    Kept held a ((a.setNode i n).setEntry ip c) := by
  have hk : Kept held a (a.setEntry ip c) := kept_setEntry (fun _ => hinum) fun _ => hvalid
  exact ⟨hk.ninodes, hk.devsw, hk.devswRead, hk.pinned, hk.ftable, hk.procs, hk.inum, hk.valid⟩

end CacheInv

/-! ### The operations -/

/-- One more reference. -/
theorem CacheInv.addRef (h : CacheInv a held lock) (hip : 0 < held ip) :
    CacheInv (a.setEntry ip { a.icache ip with ref := (a.icache ip).ref + 1 })
      (update held ip (held ip + 1)) lock := by
  have hinv : CacheInv (a.setEntry ip { a.icache ip with ref := (a.icache ip).ref + 1 })
      (update held ip (held ip + 1)) (update lock ip (lock ip)) := by
    refine h.setEntry (congrArg (· + 1) (h.ref ip)) (fun _ _ => rfl)
      (fun hz => absurd hip (by omega)) (fun _ => ?_) fun hz => absurd hz (Nat.succ_ne_zero _)
    refine (h.entry ip hip).of_ref rfl rfl ?_ ?_
    · rw [setEntry_icache_self]
    · rw [setEntry_icache_self]
      exact Nat.succ_pos _
  rwa [update_eq_self] at hinv

theorem iget_wp (h : CacheInv a held lock)
    (hok : ∀ e a', a'.disk = a.disk → Kept held a a' → (a'.icache e).inum = i →
      (held e = 0 → (a'.icache e).valid = false) →
      CacheInv a' (update held e (held e + 1)) lock → P e a')
    (hpanic : E (some .igetNoInodes) a) : wp (exec (.iget i)) P E a := by
  unfold exec iget
  simp only [wp_bind, wp_get]
  cases hcached : a.cached i with
  | some e =>
    have hfound := List.find?_some hcached
    rw [Bool.and_eq_true, decide_eq_true_eq, decide_eq_true_eq, h.ref e] at hfound
    refine hok e _ rfl (CacheInv.kept_setEntry (fun _ => rfl) fun _ => id)
      ?_ (fun hz => absurd hfound.1 (by omega))
      (h.addRef hfound.1)
    rw [setEntry_icache_self]
    exact hfound.2
  | none =>
    cases hempty : a.emptyEntry with
    | some e =>
      have hzero := List.find?_some hempty
      rw [decide_eq_true_eq, h.ref e] at hzero
      obtain ⟨f, hf⟩ : ∃ f : InodeFields, f = { (a.icache e).fields with
          uid := BitVec.ofNat 16 DEFAULTUID, gid := BitVec.ofNat 16 DEFAULTGID,
          mode := BitVec.ofNat 32 DEFAULTMODE } := ⟨_, rfl⟩
      obtain ⟨c, hc⟩ : ∃ c : SpecInode, c = ⟨1, false, false, i, f⟩ := ⟨_, rfl⟩
      have hinv : CacheInv (a.setEntry e c) (update held e 1) (update lock e (lock e)) := by
        refine h.setEntry (by rw [hc]) (fun _ hpos => absurd hpos (by omega)) ?_ ?_ ?_
        · intro _ _ e' hpos heq
          have hnot := List.find?_eq_none.mp hcached e' (List.mem_finRange e')
          rw [Bool.and_eq_true, decide_eq_true_eq, decide_eq_true_eq] at hnot
          exact hnot ⟨h.ref_pos hpos, heq.trans (by rw [hc])⟩
        · intro _
          rw [h.idle e hzero]
          unfold SpecKernel.EntryOk
          rw [setEntry_icache_self, hc]
          exact ⟨rfl, fun hv => by cases hv⟩
        · intro hz
          exact absurd hz (by decide)
      rw [update_eq_self] at hinv
      have hP := hok e (a.setEntry e c) rfl (CacheInv.kept_setEntry
        (fun hpos => absurd hpos (by omega)) fun hpos => absurd hpos (by omega))
        (by rw [setEntry_icache_self, hc])
        (fun _ => by rw [setEntry_icache_self, hc]) (by rw [hzero]; exact hinv)
      rw [hc, hf] at hP
      exact hP
    | none => exact hpanic

section

variable (h : CacheInv a held lock) (hip : 0 < held ip)

include h hip

theorem idup_wp (hok : ∀ a', a'.disk = a.disk → Kept held a a' →
      CacheInv a' (update held ip (held ip + 1)) lock → P () a') :
    wp (exec (.idup ip)) P E a := by
  unfold exec idup
  simp only [wp_bind, wp_get]
  rw [if_pos (h.ref_pos hip)]
  exact hok _ rfl (CacheInv.kept_setEntry (fun _ => rfl) fun _ => id) (h.addRef hip)

theorem ilockCheck_wp (hok : P () a) : wp (exec (.ilockCheck ip)) P E a := by
  have href := h.ref_pos hip
  unfold exec
  simp only [wp_bind, wp_get]
  rw [if_neg (by omega)]
  exact hok

/-- A step of the holder of a lock that changes flags and fields of the entry only. -/
theorem CacheInv.setLock (href : c.ref = (a.icache ip).ref) (hinum : c.inum = (a.icache ip).inum)
    (hentry : (a.setEntry ip c).EntryOk ip l) :
    CacheInv (a.setEntry ip c) held (update lock ip l) := by
  have hinv := h.setEntry (l := l) (href.trans (h.ref ip)) (fun _ _ => hinum)
    (fun hz => absurd hip (by omega)) (fun _ => hentry) fun hz => absurd hip (by omega)
  rwa [update_eq_self] at hinv

theorem ilockWait_wp
    (hen : (a.icache ip).busy = false) (hok : ∀ a', a'.disk = a.disk → Kept held a a' →
      CacheInv a' held (update lock ip .taken) → P () a') :
    wp (exec (.ilockWait ip)) P E a := by
  have hentry := h.entry ip hip
  rw [h.unlocked_of_busy hip hen] at hentry
  refine hok _ rfl (CacheInv.kept_setEntry (fun _ => rfl) fun _ => id)
    (h.setLock hip rfl rfl ⟨?_, ?_⟩)
  · rw [setEntry_icache_self]
  · intro hv
    rw [setEntry_icache_self] at hv
    obtain ⟨h1, h2, h3⟩ := hentry.2 hv
    refine ⟨?_, ?_, ?_⟩ <;> rw [setEntry_icache_self]
    · exact h1
    · exact h2
    · exact h3

theorem ilockLoad_wp (hlock : lock ip = .taken) (hi : (a.icache ip).inum < a.ninodes)
    (hpanic : (a.disk (a.icache ip).inum).fields.type = .free → ∀ t, E (some .ilockNoType) t)
    (hok : ∀ a', a'.disk = a.disk → Kept held a a' →
      CacheInv a' held (update lock ip .clean) → P () a') :
    wp (exec (.ilockLoad ip)) P E a := by
  have hentry := h.entry ip hip
  rw [hlock] at hentry
  unfold exec ilockLoad
  simp only [wp_bind, wp_get]
  refine wp_ite (fun hinvalid => ?_) fun hvalid => ?_
  · rw [if_pos hi]
    simp only [wp_bind, wp_set]
    refine wp_ite (fun hfree => hpanic hfree _) fun htype => ?_
    refine hok _ rfl (CacheInv.kept_setEntry (fun _ => rfl) fun _ _ => rfl)
      (h.setLock hip rfl rfl ⟨?_, ?_, ?_⟩)
    · rw [setEntry_icache_self]
      exact hentry.1
    · rw [setEntry_icache_self]
    · refine ⟨?_, ?_, ?_⟩ <;> rw [setEntry_icache_self]
      · exact hi
      · rfl
      · exact htype
  · have hv : (a.icache ip).valid = true := Bool.eq_true_of_not_eq_false hvalid
    have hinv : CacheInv a held (update lock ip .clean) := by
      have hset := h.setLock (c := a.icache ip) (l := .clean) hip rfl rfl (by
        rw [setEntry_self rfl]
        exact ⟨hentry.1, hv, hentry.2 hv⟩)
      rwa [setEntry_self rfl] at hset
    exact hok a rfl .refl hinv

theorem iunlock_wp (hlock : lock ip = .clean)
    (hok : ∀ a', a'.disk = a.disk → Kept held a a' → (a'.icache ip).valid = true →
      CacheInv a' held (update lock ip .unlocked) → P () a') :
    wp (exec (.iunlock ip)) P E a := by
  have hentry := h.entry ip hip
  have href := h.ref_pos hip
  rw [hlock] at hentry
  unfold exec iunlock
  simp only [wp_bind, wp_get]
  refine wp_ite (fun hbad => ?_) fun _ => ?_
  · rcases hbad with hbusy | href
    · rw [hentry.1] at hbusy
      cases hbusy
    · omega
  · refine hok _ rfl (CacheInv.kept_setEntry (fun _ => rfl) fun _ => id)
      ?_ (h.setLock hip rfl rfl ⟨?_, ?_⟩)
    · rw [setEntry_icache_self]
      exact hentry.2.1
    · rw [setEntry_icache_self]
    · intro _
      obtain ⟨h1, h2, h3⟩ := hentry.2.2
      refine ⟨?_, ?_, ?_⟩ <;> rw [setEntry_icache_self]
      · exact h1
      · exact h2
      · exact h3

theorem iputBegin_wp {P : Bool → SpecKernel → Prop} (hlock : held ip = 1 → lock ip = .unlocked)
    (hpin : held ip = 1 → a.pinned (a.icache ip).inum = false)
    (hfree : ∀ a', held ip = 1 → (a.icache ip).valid = true →
      (a.disk (a.icache ip).inum).fields.nlink = 0 → a'.disk = a.disk → Kept held a a' →
      CacheInv a' held (update lock ip .clean) → P true a')
    (hdrop : ∀ a', (held ip = 1 → (a.icache ip).valid = true →
        (a.disk (a.icache ip).inum).fields.nlink ≠ 0) →
      a'.disk = a.disk → Kept held a a' →
      CacheInv a' (update held ip (held ip - 1)) lock → P false a') :
    wp (exec (.iputBegin ip)) P E a := by
  have href := h.ref ip
  have hentry := h.entry ip hip
  have hone : held ip = 1 → (a.icache ip).busy = false ∧
      ((a.icache ip).valid = true → a.Coherent ip) := by
    intro h1
    rw [hlock h1] at hentry
    exact hentry
  unfold exec iputBegin
  simp only [wp_bind, wp_get]
  refine wp_ite (fun hlast => ?_) fun hnot => ?_
  · obtain ⟨hr, hv, hn⟩ := hlast
    obtain ⟨hbusy, hcoh⟩ := hone (href ▸ hr)
    obtain ⟨h1, h2, h3⟩ := hcoh hv
    rw [if_neg (by rw [hbusy]; decide)]
    refine hfree _ (href ▸ hr) hv (by rw [← h2]; exact hn)
      rfl (CacheInv.kept_setEntry (fun _ => rfl) fun _ => id)
      (h.setLock hip rfl rfl ⟨?_, ?_, ?_⟩)
    · rw [setEntry_icache_self]
    · rw [setEntry_icache_self]
      exact hv
    · refine ⟨?_, ?_, ?_⟩ <;> rw [setEntry_icache_self]
      · exact h1
      · exact h2
      · exact h3
  · refine wp_ite (fun hcon => ?_) fun _ => ?_
    · obtain ⟨hle, hp⟩ := hcon
      rw [hpin (by omega)] at hp
      cases hp
    · refine hdrop _ (fun h1 hv hz => hnot ⟨by omega, hv, ?_⟩) rfl
        (CacheInv.kept_setEntry (fun _ => rfl) fun _ => id) ?_
      · rw [((hone h1).2 hv).fields]
        exact hz
      · have hinv : CacheInv (a.setEntry ip { a.icache ip with ref := (a.icache ip).ref - 1 })
            (update held ip (held ip - 1)) (update lock ip (lock ip)) := by
          refine h.setEntry (congrArg (· - 1) href) (fun _ _ => rfl)
            (fun hz => absurd hip (by omega)) (fun hpos => ?_) fun hz => hlock (by omega)
          refine (h.entry ip hip).of_ref rfl rfl ?_ ?_
          · rw [setEntry_icache_self]
          · rw [setEntry_icache_self]
            change 0 < (a.icache ip).ref - 1
            omega
        rwa [update_eq_self] at hinv

theorem ifree_wp_cache (hlock : lock ip = .clean)
    (hok : ∀ a', a'.disk = update a.disk (a.icache ip).inum
        ⟨{ (a.disk (a.icache ip).inum).fields with type := .free }, []⟩ →
      Kept held a a' → CacheInv a' held (update lock ip .freed) → P () a') :
    wp (exec (.ifree ip)) P E a := by
  have hl := h.loaded_of_clean hip hlock
  have hcoh := h.coherent_of_clean hip hlock
  have hentry := h.entry ip hip
  rw [hlock] at hentry
  unfold Spec.exec Spec.ifree
  simp only [wp_bind, wp_get]
  rw [if_pos hl]
  refine hok _ ?_ (CacheInv.kept_setNode rfl id)
    (h.setNode hip rfl rfl ?_ fun hcon => absurd rfl hcon)
  · rw [hcoh.fields]
    rfl
  · unfold SpecKernel.EntryOk
    rw [setEntry_icache_self]
    exact hentry.1

theorem iputEnd_wp (hpin : a.pinned (a.icache ip).inum = false)
    (hok : ∀ a', a'.disk = a.disk → Kept (update held ip 0) a a' →
      CacheInv a' (update held ip (held ip - 1)) (update lock ip .unlocked) →
      P () a') : wp (exec (.iputEnd ip)) P E a := by
  have href := h.ref ip
  unfold exec iputEnd
  simp only [wp_bind, wp_get]
  rw [if_neg (by rw [hpin]; decide)]
  have hnone : ¬ 0 < update held ip 0 ip := by
    rw [update_self]
    exact Nat.lt_irrefl 0
  refine hok _ rfl (CacheInv.kept_setEntry (fun hpos => absurd hpos hnone)
    fun hpos => absurd hpos hnone) ?_
  refine h.setEntry (congrArg (· - 1) href) (fun _ _ => rfl) (fun hz => absurd hip (by omega))
    (fun _ => ?_) fun _ => rfl
  unfold SpecKernel.EntryOk
  rw [setEntry_icache_self]
  exact ⟨rfl, fun hv => by cases hv⟩

theorem setFields_wp (hlock : lock ip = .clean) (hf : (f (a.icache ip).fields).type ≠ .free)
    (hok : ∀ a', a'.disk = a.disk → Kept held a a' →
      (a'.icache ip).fields = f (a.disk (a.icache ip).inum).fields →
      CacheInv a' held (update lock ip .dirty) → P () a') :
    wp (exec (.setFields ip f)) P E a := by
  obtain ⟨h1, h2, h3, h4, h5⟩ := h.loaded_of_clean hip hlock
  have hcoh := h.coherent_of_clean hip hlock
  have hentry := h.entry ip hip
  rw [hlock] at hentry
  refine hok _ rfl (CacheInv.kept_setEntry (fun _ => rfl) fun _ => id)
    ?_ (h.setLock hip rfl rfl ⟨?_, ?_⟩)
  · rw [setEntry_icache_self, hcoh.fields]
  · rw [setEntry_icache_self]
    exact hentry.1
  · unfold SpecKernel.Loaded
    rw [setEntry_icache_self]
    exact ⟨h1, h2, h3, hf, h5⟩

theorem iupdate_wp_cache (hlock : lock ip = .clean ∨ lock ip = .dirty)
    (hok : ∀ a', a'.disk = update a.disk (a.icache ip).inum
        { a.disk (a.icache ip).inum with fields := (a.icache ip).fields } →
      Kept held a a' → CacheInv a' held (update lock ip .clean) → P () a') :
    wp (exec (.iupdate ip)) P E a := by
  have hl := h.loaded hip hlock
  have hbusy : (a.icache ip).busy = true := by
    refine (h.entry ip hip).busy ?_
    rcases hlock with hlock | hlock <;> rw [hlock] <;> exact nofun
  unfold Spec.exec Spec.iupdate
  simp only [wp_bind, wp_get]
  rw [if_pos hl]
  have hset : ∀ n : Node, (a.setNode (a.icache ip).inum n).setEntry ip (a.icache ip) =
      a.setNode (a.icache ip).inum n := fun n => setEntry_self rfl
  refine hok _ rfl ?_ ?_
  · rw [← hset]
    exact CacheInv.kept_setNode rfl id
  · rw [← hset]
    refine h.setNode hip rfl rfl ⟨?_, ?_, ?_⟩ fun _ => h.small _ hl.2.2.1 hl.2.2.2.2
    · rw [setEntry_icache_self]
      exact hbusy
    · rw [setEntry_icache_self]
      exact hl.2.1
    · refine ⟨?_, ?_, ?_⟩ <;> rw [setEntry_icache_self]
      · exact hl.2.2.1
      · rw [hset, setNode_disk_self]
      · rw [hset, setNode_disk_self]
        exact hl.2.2.2.1

theorem inode_wp {P : InodeInfo → SpecKernel → Prop} (hlock : lock ip = .clean)
    (hok : P ⟨(a.icache ip).inum, (a.disk (a.icache ip).inum).fields,
      (a.disk (a.icache ip).inum).bytes.length⟩ a) : wp (exec (.inode ip)) P E a := by
  unfold exec inode
  simp only [wp_bind, wp_get]
  rw [if_pos (h.loaded_of_clean hip hlock), (h.coherent_of_clean hip hlock).fields]
  exact hok

theorem readi_wp_cache {P : Int × List Byte → SpecKernel → Prop} (hlock : lock ip = .clean)
    (hoff : off < 2 ^ 32) (hm : m < 2 ^ 32)
    (hok : P (if (a.disk (a.icache ip).inum).fields.type = .dev then
        devRead a.devswRead (a.disk (a.icache ip).inum).fields.major m
      else (a.disk (a.icache ip).inum).bytes.read off m) a) :
    wp (exec (.readi ip off m)) P E a := by
  unfold Spec.exec Spec.readi
  simp only [wp_bind, wp_get]
  rw [if_pos ⟨h.loaded_of_clean hip hlock, hoff, hm⟩, (h.coherent_of_clean hip hlock).fields]
  exact hok

end

theorem length_write_le {f : Bytes} {src : Nat → Byte} (hf : f.length ≤ MAXFILE * BSIZE) :
    (f.write src off m).2.length ≤ MAXFILE * BSIZE := by
  unfold Bytes.write
  split
  · exact hf
  · rw [List.length_append, List.length_append, List.length_take, List.length_map,
      List.length_range, List.length_drop]
    omega

theorem writei_wp_cache {P : Int → SpecKernel → Prop} {src : Nat → Byte} (h : CacheInv a held lock)
    (hip : 0 < held ip) (hlock : lock ip = .clean) (hoff : off < 2 ^ 32) (hm : m < 2 ^ 32)
    (hdev : (a.disk (a.icache ip).inum).fields.type = .dev →
      P (devWrite a.devsw (a.disk (a.icache ip).inum).fields.major m) a)
    (hok : ∀ a', (a.disk (a.icache ip).inum).fields.type ≠ .dev →
      a'.disk = update a.disk (a.icache ip).inum ⟨(a.disk (a.icache ip).inum).fields,
        ((a.disk (a.icache ip).inum).bytes.write src off m).2⟩ →
      Kept held a a' → CacheInv a' held lock →
      P ((a.disk (a.icache ip).inum).bytes.write src off m).1 a') :
    wp (exec (.writei ip src off m)) P E a := by
  have hl := h.loaded_of_clean hip hlock
  have hcoh := h.coherent_of_clean hip hlock
  have hentry := h.entry ip hip
  rw [hlock] at hentry
  unfold Spec.exec Spec.writei
  simp only [wp_bind, wp_get]
  rw [if_pos ⟨hl, hoff, hm⟩, hcoh.fields, ite_self]
  refine wp_ite (fun hd => hdev hd) fun hd => ?_
  have hset : ∀ n : Node, (a.setNode (a.icache ip).inum n).setEntry ip (a.icache ip) =
      a.setNode (a.icache ip).inum n := fun n => setEntry_self rfl
  refine hok _ hd rfl ?_ ?_
  · rw [← hset]
    exact CacheInv.kept_setNode rfl id
  · have hinv : CacheInv ((a.setNode (a.icache ip).inum ⟨(a.disk (a.icache ip).inum).fields,
        ((a.disk (a.icache ip).inum).bytes.write src off m).2⟩).setEntry ip (a.icache ip)) held
        (update lock ip .clean) := by
      refine h.setNode hip rfl rfl ⟨?_, ?_, ?_⟩
        fun _ => length_write_le (h.small _ hl.2.2.1 hcoh.type)
      · rw [setEntry_icache_self]
        exact hentry.1
      · rw [setEntry_icache_self]
        exact hl.2.1
      · refine ⟨?_, ?_, ?_⟩ <;> rw [setEntry_icache_self]
        · exact hl.2.2.1
        · rw [hset, setNode_disk_self]
          exact hcoh.fields
        · rw [hset, setNode_disk_self]
          exact hcoh.type
    rw [← hlock, update_eq_self, hset] at hinv
    exact hinv

theorem iallocTry_wp_cache {P : Bool → SpecKernel → Prop} {type : InodeType}
    (h : CacheInv a held lock) (hi : i < a.ninodes) (htype : type ≠ .free)
    (htaken : (a.disk i).fields.type ≠ .free → P false a)
    (hfree : ∀ a', (a.disk i).fields.type = .free →
      a'.disk = update a.disk i (freshNode type) → Kept held a a' →
      CacheInv a' held lock → P true a') : wp (exec (.iallocTry type i)) P E a := by
  unfold Spec.exec Spec.iallocTry
  simp only [wp_bind, wp_get]
  rw [if_pos ⟨hi, htype⟩]
  refine wp_ite (fun hf => ?_) fun ht => htaken ht
  refine hfree _ hf rfl ⟨rfl, rfl, rfl, rfl, rfl, rfl, fun _ _ => rfl, fun _ _ => id⟩
    ⟨h.ref, ?_, h.idle, h.unique, ?_⟩
  · intro e he
    have hentry := h.entry e he
    by_cases hei : (a.icache e).inum = i
    · have hnot : ¬ a.Coherent e := fun hcoh => hcoh.type (by rwa [hei])
      cases hl : lock e with
      | unlocked =>
        rw [hl] at hentry
        exact ⟨hentry.1, fun hv => absurd (hentry.2 hv) hnot⟩
      | taken =>
        rw [hl] at hentry
        exact ⟨hentry.1, fun hv => absurd (hentry.2 hv) hnot⟩
      | clean =>
        rw [hl] at hentry
        exact absurd hentry.2.2 hnot
      | dirty =>
        rw [hl] at hentry
        exact absurd (by rwa [hei]) hentry.2.2.2.2.2
      | freed =>
        rw [hl] at hentry
        exact hentry
    · exact hentry.congr rfl rfl (h.ref_pos he) (setNode_disk_of_ne hei)
  · intro j hj
    change (update a.disk i _ j).fields.type ≠ .free → (update a.disk i _ j).bytes.length ≤ _
    by_cases hji : j = i
    · rw [hji, update_self]
      exact fun _ => Nat.zero_le _
    · rw [update_of_ne hji]
      exact h.small j hj

end

end Xv6Kernel
