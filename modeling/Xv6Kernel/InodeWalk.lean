/-
  InodeWalk.lean
  ==============
  The functions of `fs.c` on inodes and directories, run by one process.

  `Walk base a own locks` describes the inode cache while a process works: `own` has the
  references that the process has taken and not dropped, `locks` the inodes that are locked
  and `base e` counts the other references to `e`.  Directories are read through `Bytes`:
  `Bytes.lookup` and `Bytes.emptySlot` are the searches of `dirlookup` and `dirlink`.
-/
import Xv6Kernel.InodeCache
import Xv6Kernel.SysFile

namespace Xv6Kernel

open PanicMonad AtomicProg Function List SpecKernel Sem

/-! ### References and locks of a process -/

/-- All references. -/
def heldBy (base : Fin NINODE → Nat) (own : Multiset (Fin NINODE)) (e : Fin NINODE) : Nat :=
  base e + own.count e

def lockOf (locks : Multiset (Fin NINODE)) (e : Fin NINODE) : LockState :=
  if e ∈ locks then .clean else .unlocked

structure Walk (base : Fin NINODE → Nat) (a : SpecKernel) (own locks : Multiset (Fin NINODE)) :
    Prop where
  inv : CacheInv a (heldBy base own) (lockOf locks)
  nodup : locks.Nodup
  /-- The others keep the pinned inodes in the cache. -/
  pins : ∀ i, a.pinned i = true → ∃ e, 0 < base e ∧ (a.icache e).inum = i

/-- The panics that the calls may stop with, apart from `panic("ilock: no type")`. -/
def Tolerates (E : Option FsPanic → SpecKernel → Prop) : Prop :=
  ∀ e t, e ≠ .ilockNoType → e ≠ .freeingFreeBlock → e ≠ .bmapOutOfRange → E (some e) t

section

variable {base : Fin NINODE → Nat} {a : SpecKernel} {own locks : Multiset (Fin NINODE)}
  {dp : Fin NINODE} {E : Option FsPanic → SpecKernel → Prop} {α : Type}

theorem Tolerates.noInodes (hE : Tolerates E) (t : SpecKernel) : E (some .igetNoInodes) t :=
  hE _ _ (by decide) (by decide) (by decide)

theorem heldBy_cons : heldBy base (e ::ₘ own) =
    update (heldBy base own) e (heldBy base own e + 1) := by
  funext x
  unfold heldBy
  by_cases hx : x = e
  · rw [hx, update_self, Multiset.count_cons_self, Nat.add_assoc]
  · rw [update_of_ne hx, Multiset.count_cons_of_ne hx]

theorem heldBy_cons_sub : update (heldBy base (e ::ₘ own)) e
    (heldBy base (e ::ₘ own) e - 1) = heldBy base own := by
  rw [heldBy_cons, update_self, update_idem, Nat.add_sub_cancel, update_eq_self]

theorem heldBy_pos (h : e ∈ own) : 0 < heldBy base own e :=
  Nat.lt_of_lt_of_le (Multiset.count_pos.mpr h) (Nat.le_add_left _ _)

theorem heldBy_le_cons (x : Fin NINODE) (h : 0 < heldBy base own x) :
    0 < heldBy base (e ::ₘ own) x :=
  Nat.lt_of_lt_of_le h (Nat.add_le_add_left (Multiset.count_le_count_cons _ _ _) _)

theorem heldBy_of_base (x : Fin NINODE) (h : 0 < base x) : 0 < heldBy base own x :=
  Nat.lt_of_lt_of_le h (Nat.le_add_right _ _)

theorem lockOf_cons : lockOf (e ::ₘ locks) = update (lockOf locks) e .clean := by
  funext x
  unfold lockOf
  by_cases hx : x = e
  · rw [hx, update_self, if_pos (Multiset.mem_cons_self e locks)]
  · rw [update_of_ne hx]
    exact if_congr (by rw [Multiset.mem_cons, or_iff_right hx]) rfl rfl

theorem lockOf_self : lockOf (e ::ₘ locks) e = .clean := if_pos (Multiset.mem_cons_self e locks)

theorem lockOf_of_mem (h : e ∈ locks) : lockOf locks e = .clean := if_pos h

theorem lockOf_of_notMem (h : e ∉ locks) : lockOf locks e = .unlocked := if_neg h

theorem lockOf_unlock (h : e ∉ locks) :
    update (lockOf (e ::ₘ locks)) e .unlocked = lockOf locks := by
  rw [lockOf_cons, update_idem, ← lockOf_of_notMem h, update_eq_self]

namespace Walk

section

variable (h : Walk base a own locks)

include h

/-- A locked inode is referenced. -/
theorem pos_of_lock (hl : e ∈ locks) : 0 < heldBy base own e := by
  by_contra hz
  have hidle := h.inv.idle e (Nat.eq_zero_of_not_pos hz)
  rw [lockOf_of_mem hl] at hidle
  cases hidle

theorem coherent (hl : e ∈ locks) : a.Coherent e :=
  h.inv.coherent_of_clean (h.pos_of_lock hl) (lockOf_of_mem hl)

theorem pins_kept (hk : Kept (heldBy base own') a a') :
    ∀ i, a'.pinned i = true → ∃ e, 0 < base e ∧ (a'.icache e).inum = i := by
  intro i hi
  rw [hk.pinned] at hi
  obtain ⟨e, he, heq⟩ := h.pins i hi
  exact ⟨e, he, (hk.inum e (heldBy_of_base e he)).trans heq⟩

/-- The state after an operation. -/
theorem next (hk : Kept (heldBy base own₁) a a') (hn : locks'.Nodup)
    (hinv : CacheInv a' (heldBy base own') (lockOf locks')) : Walk base a' own' locks' :=
  ⟨hinv, hn, h.pins_kept hk⟩

end

/-- The inode of a single reference is not pinned. -/
theorem not_pinned (h : Walk base a (e ::ₘ own) locks) (hone : heldBy base (e ::ₘ own) e = 1) :
    a.pinned (a.icache e).inum = false := by
  refine Bool.eq_false_iff.mpr fun hp => ?_
  obtain ⟨x, hx, heq⟩ := h.pins _ hp
  have hxe := h.inv.unique x e (heldBy_of_base x hx) (heldBy_pos (Multiset.mem_cons_self e own)) heq
  subst hxe
  unfold heldBy at hone
  rw [Multiset.count_cons_self] at hone
  omega

end Walk

/-! ### Inodes -/

/-- `ilock` reads the inode. -/
theorem ilock_spec (h : Walk base a own locks) (he : 0 < heldBy base own e)
    (hi : (a.icache e).inum < a.ninodes)
    (hpanic : (a.disk (a.icache e).inum).fields.type = .free → ∀ t, E (some .ilockNoType) t)
    (hok : ∀ a', e ∉ locks → a'.disk = a.disk → Kept (heldBy base own) a a' →
      (a.disk (a.icache e).inum).fields.type ≠ .free → Walk base a' own (e ::ₘ locks) → P () a') :
    sem.wp (Sys.ilock e) P E a := by
  intro _
  refine ilockCheck_wp h.inv he ?_
  intro hen
  have hbusy : (a.icache e).busy = false := Bool.eq_false_of_not_eq_true' hen
  have hlock := h.inv.unlocked_of_busy he hbusy
  have hmem : e ∉ locks := by
    intro hmem
    rw [lockOf_of_mem hmem] at hlock
    cases hlock
  refine ilockWait_wp h.inv he hbusy fun a₁ hd₁ hk₁ hinv₁ => ?_
  have hinum : (a₁.icache e).inum = (a.icache e).inum := hk₁.inum e he
  intro _
  refine ilockLoad_wp hinv₁ he (update_self ..) ?_ ?_ ?_
  · rwa [hinum, hk₁.ninodes]
  · rwa [hinum, hd₁]
  · intro a₂ hd₂ hk₂ hinv₂
    rw [update_idem, ← lockOf_cons] at hinv₂
    have hk := hk₁.trans hk₂ fun _ => id
    have hcoh := hinv₂.coherent_of_clean he lockOf_self
    have hsame := hk.inum e he
    have htype := hcoh.type
    rw [hsame, hd₂, hd₁] at htype
    exact hok a₂ hmem (hd₂.trans hd₁) hk htype
      (h.next hk (Multiset.nodup_cons.mpr ⟨hmem, h.nodup⟩) hinv₂)

theorem iunlock_spec (h : Walk base a own (e ::ₘ locks))
    (hok : ∀ a', a'.disk = a.disk → Kept (heldBy base own) a a' →
      (a'.icache e).valid = true → Walk base a' own locks → P () a') :
    sem.wp (Sys.iunlock e) P E a := by
  obtain ⟨hmem, hnodup⟩ := Multiset.nodup_cons.mp h.nodup
  intro _
  refine iunlock_wp h.inv (h.pos_of_lock (Multiset.mem_cons_self e locks))
    lockOf_self fun a₁ hd hk hv hinv => ?_
  rw [lockOf_unlock hmem] at hinv
  exact hok a₁ hd hk hv (h.next hk hnodup hinv)

/-- The node that is left when inode `i` is freed. -/
def Node.freed (n : Node) : Node := ⟨{ n.fields with type := .free }, []⟩

theorem iput_spec (h : Walk base a (e ::ₘ own) locks) (hlock : e ∈ locks → 0 < heldBy base own e)
    (hdrop : ∀ a', (heldBy base own e = 0 → (a.icache e).valid = true →
        (a.disk (a.icache e).inum).fields.nlink ≠ 0) →
      a'.disk = a.disk → Kept (heldBy base own) a a' → Walk base a' own locks → P () a')
    (hfree : ∀ a', heldBy base own e = 0 → (a.icache e).valid = true →
      (a.disk (a.icache e).inum).fields.nlink = 0 →
      (a.disk (a.icache e).inum).fields.type ≠ .free → (a.icache e).inum < a.ninodes →
      a'.disk = update a.disk (a.icache e).inum (a.disk (a.icache e).inum).freed →
      Kept (heldBy base own) a a' → Walk base a' own locks → P () a') :
    sem.wp (Sys.iput e) P E a := by
  have hpos : 0 < heldBy base (e ::ₘ own) e := heldBy_pos (Multiset.mem_cons_self e own)
  have hone : heldBy base (e ::ₘ own) e = 1 ↔ heldBy base own e = 0 := by
    rw [heldBy_cons, update_self]
    omega
  have hunlocked : heldBy base own e = 0 → e ∉ locks := by
    intro hz hmem
    exact absurd (hlock hmem) (by omega)
  intro _
  refine iputBegin_wp h.inv hpos (fun h1 => lockOf_of_notMem (hunlocked (hone.mp h1)))
    (fun h1 => h.not_pinned h1) ?_ ?_
  · intro a₁ h1 hv hn hd₁ hk₁ hinv₁
    have hz := hone.mp h1
    have hinum₁ := hk₁.inum e hpos
    have hcoh := hinv₁.coherent_of_clean hpos (update_self ..)
    intro _
    refine ifree_wp_cache hinv₁ hpos (update_self ..) fun a₂ hd₂ hk₂ hinv₂ => ?_
    have hk := hk₁.trans hk₂ fun _ => id
    intro _
    refine iputEnd_wp hinv₂ hpos ?_ fun a₃ hd₃ hk₃ hinv₃ => ?_
    · rw [hk.pinned, hk.inum e hpos]
      exact h.not_pinned h1
    · have hk' : Kept (heldBy base own) a a₃ := (hk.mono heldBy_le_cons).trans hk₃ fun x hx => by
        have hne : x ≠ e := by
          rintro rfl
          omega
        rw [update_of_ne hne]
        exact heldBy_le_cons x hx
      rw [heldBy_cons_sub, update_idem, update_idem,
        ← lockOf_of_notMem (hunlocked hz), update_eq_self] at hinv₃
      have hdisk : a₃.disk = update a.disk (a.icache e).inum (a.disk (a.icache e).inum).freed := by
        rw [hd₃, hd₂, hinum₁, hd₁]
        rfl
      refine hfree a₃ hz hv hn ?_ ?_ hdisk hk' (h.next hk' h.nodup hinv₃)
      · have htype := hcoh.type
        rwa [hd₁, hinum₁] at htype
      · have hlt := hcoh.inum
        rwa [hinum₁, hk₁.ninodes] at hlt
  · intro a₁ hnlink hd₁ hk₁ hinv₁
    rw [heldBy_cons_sub] at hinv₁
    exact hdrop a₁ (fun hz => hnlink (hone.mpr hz)) hd₁ (hk₁.mono heldBy_le_cons)
      (h.next hk₁ h.nodup hinv₁)

/-- The disk after a reference to inode `i` has been dropped. -/
def dropRef (disk : Nat → Node) (i : Nat) (last : Prop) [Decidable last] : Nat → Node :=
  if last ∧ (disk i).fields.nlink = 0 then update disk i (disk i).freed else disk

/-- The inode is freed if this was the last reference and it has no links. -/
theorem iunlockput_spec (h : Walk base a (e ::ₘ own) (e ::ₘ locks))
    (hok : ∀ a', a'.disk = dropRef a.disk (a.icache e).inum (heldBy base own e = 0) →
      Kept (heldBy base own) a a' → Walk base a' own locks → P () a') :
    sem.wp (Sys.iunlockput e) P E a := by
  have hpos : 0 < heldBy base (e ::ₘ own) e := heldBy_pos (Multiset.mem_cons_self e own)
  have hmem := (Multiset.nodup_cons.mp h.nodup).1
  refine wp_bind.mpr (iunlock_spec h fun a₁ hd₁ hk₁ hv h₁ => ?_)
  have hinum := hk₁.inum e hpos
  refine iput_spec h₁ (fun hcon => absurd hcon hmem) ?_ ?_
  · intro a₂ hn hd₂ hk₂ h₂
    rw [hinum, hd₁] at hn
    refine hok a₂ ?_ ((hk₁.mono heldBy_le_cons).trans hk₂ fun _ => id) h₂
    exact (hd₂.trans hd₁).trans (if_neg fun hcon => hn hcon.1 hv hcon.2).symm
  · intro a₂ hz _ hn _ _ hd₂ hk₂ h₂
    rw [hinum, hd₁] at hn hd₂
    exact hok a₂ (hd₂.trans (if_pos ⟨hz, hn⟩).symm)
      ((hk₁.mono heldBy_le_cons).trans hk₂ fun _ => id) h₂

/-- `iget` and `iput` of an inode that the process does not use. -/
theorem iput_looked_spec (h : Walk base a (e ::ₘ own) locks)
    (hlock : e ∈ locks → 0 < heldBy base own e)
    (hlooked : heldBy base own e = 0 → (a.icache e).valid = false)
    (hok : ∀ a', a'.disk = a.disk → Kept (heldBy base own) a a' → Walk base a' own locks →
      P () a') : sem.wp (Sys.iput e) P E a := by
  refine iput_spec h hlock (fun a' _ => hok a') fun a' hz hv => ?_
  rw [hlooked hz] at hv
  cases hv

/-- Assignments to fields of an inode, then `iupdate`. -/
theorem setFields_iupdate_spec {P : α → SpecKernel → Prop} {f : InodeFields → InodeFields}
    (rest : KProg α) (h : Walk base a own locks) (hl : e ∈ locks) (hf : ∀ x, (f x).type = x.type)
    (hok : ∀ a', a'.disk = update a.disk (a.icache e).inum
        { a.disk (a.icache e).inum with fields := f (a.disk (a.icache e).inum).fields } →
      Kept (heldBy base own) a a' → Walk base a' own locks → sem.wp rest P E a') :
    sem.wp (do
      Prog.call (.setFields e f)
      Prog.call (.iupdate e)
      rest) P E a := by
  have he := h.pos_of_lock hl
  have hlock := lockOf_of_mem hl
  have hcoh := h.coherent hl
  simp only [Prog.call_bind, wp_op, sem_exec]
  intro _
  refine setFields_wp h.inv he hlock ?_ fun a₁ hd₁ hk₁ hf₁ hinv₁ => ?_
  · rw [hf, hcoh.fields]
    exact hcoh.type
  · have hinum := hk₁.inum e he
    intro _
    refine iupdate_wp_cache hinv₁ he (Or.inr (update_self ..)) fun a₂ hd₂ hk₂ hinv₂ => ?_
    have hk := hk₁.trans hk₂ fun _ => id
    rw [update_idem, ← hlock, update_eq_self] at hinv₂
    refine hok a₂ ?_ hk (h.next hk h.nodup hinv₂)
    rw [hd₂, hinum, hf₁, hd₁]

theorem iget_spec (h : Walk base a own locks) (hE : Tolerates E)
    (hok : ∀ e a', a'.disk = a.disk → Kept (heldBy base own) a a' → (a'.icache e).inum = i →
      (heldBy base own e = 0 → (a'.icache e).valid = false) → Walk base a' (e ::ₘ own) locks →
      sem.wp (rest e) Q E a') :
    sem.wp (Prog.call (.iget i) >>= rest) Q E a := by
  simp only [Prog.call_bind, wp_op, sem_exec]
  intro _
  refine iget_wp h.inv (fun e a' hd hk hi hv hinv => ?_) (hE.noInodes a)
  rw [← heldBy_cons] at hinv
  exact hok e a' hd hk hi hv (h.next hk h.nodup hinv)

/-! ### Directories -/

namespace Bytes

/-- The directory entry at an offset. -/
def dirent (f : Bytes) (off : Nat) : Dirent := .ofBytes ((f.drop off).take direntSize)

def HasName (f : Bytes) (name : Name) (off : Nat) : Prop :=
  (f.dirent off).inum ≠ 0 ∧ namecmp name (f.dirent off).name = 0

instance {f : Bytes} {name : Name} {off : Nat} : Decidable (f.HasName name off) :=
  inferInstanceAs (Decidable (_ ∧ _))

/-- The offset at which `dirlookup` finds a name. -/
def find (f : Bytes) (name : Name) : Option Nat := (offsets f.length).find? (f.HasName name ·)

/-- The offset at which `dirlink` writes. -/
def emptySlot (f : Bytes) : Nat :=
  ((offsets f.length).find? fun off => (f.dirent off).inum = 0).getD
    ((offsets f.length).length * direntSize)

/-- A directory with a new entry. -/
def link (f : Bytes) (name : Name) (inum : Nat) : Int × Bytes :=
  f.write ((direntBytes inum name).getD · 0) f.emptySlot direntSize

/-- No entries after the first two. -/
def IsEmptyDir (f : Bytes) : Prop := ∀ off ∈ (offsets f.length).drop 2, (f.dirent off).inum = 0

instance {f : Bytes} : Decidable f.IsEmptyDir := inferInstanceAs (Decidable (∀ _ ∈ _, _))

end Bytes

theorem lt_of_mem_offsets (h : off ∈ offsets size) : off < size := by
  obtain ⟨k, hk, rfl⟩ := mem_map.mp h
  have hlt := mem_range.mp hk
  have hs : direntSize = 16 := rfl
  rw [hs] at hlt ⊢
  omega

/-- The bytes of a locked inode. -/
def SpecKernel.bytesOf (a : SpecKernel) (e : Fin NINODE) : Bytes := (a.disk (a.icache e).inum).bytes

def SpecKernel.fieldsOf (a : SpecKernel) (e : Fin NINODE) : InodeFields :=
  (a.disk (a.icache e).inum).fields

section

variable (h : Walk base a own locks)

include h

theorem Walk.offset_small (hl : e ∈ locks)
    (hoff : off ∈ offsets (a.bytesOf e).length) : off < 2 ^ 32 := by
  have hcoh := h.coherent hl
  have hsmall := h.inv.small _ hcoh.inum hcoh.type
  have hmax : MAXFILE * BSIZE < 2 ^ 32 := by decide
  have hlt := lt_of_mem_offsets hoff
  unfold bytesOf at hlt
  omega

theorem inode_spec (hl : e ∈ locks) (hok : sem.wp
      (rest ⟨(a.icache e).inum, a.fieldsOf e, (a.bytesOf e).length⟩) Q E a) :
    sem.wp (Prog.call (.inode e) >>= rest) Q E a := by
  simp only [Prog.call_bind, wp_op, sem_exec]
  intro _
  exact inode_wp h.inv (h.pos_of_lock hl) (lockOf_of_mem hl) hok

theorem readDirent_spec {P : Dirent → SpecKernel → Prop} {p : FsPanic}
    (hl : dp ∈ locks) (hdir : (a.fieldsOf dp).type = .dir) (hoff : off < 2 ^ 32)
    (hpanic : E (some p) a) (hok : P ((a.bytesOf dp).dirent off) a) :
    sem.wp (Sys.readDirent dp off p) P E a := by
  unfold Sys.readDirent
  simp only [Prog.call_bind, wp_op, sem_exec]
  intro _
  refine readi_wp_cache h.inv (h.pos_of_lock hl) (lockOf_of_mem hl) hoff (by decide) ?_
  have hnotdev : (a.disk (a.icache dp).inum).fields.type ≠ .dev := by
    unfold fieldsOf at hdir
    rw [hdir]
    decide
  rw [if_neg hnotdev]
  refine wp_ite (fun _ _ => hpanic) fun hr => ?_
  unfold Bytes.read at hr ⊢
  split at hr
  · exact absurd (by decide) hr
  · rename_i hgood
    rw [if_neg hgood]
    exact hok

section

variable (hE : Tolerates E) (hl : dp ∈ locks)

include hE hl

theorem dirlookupFrom_spec {P : Option (Fin NINODE × Nat) → SpecKernel → Prop}
    (hdir : (a.fieldsOf dp).type = .dir) : ∀ offs : List Nat, (∀ off ∈ offs, off < 2 ^ 32) →
    (offs.find? ((a.bytesOf dp).HasName name ·) = none → P none a) →
    (∀ off e a', offs.find? ((a.bytesOf dp).HasName name ·) = some off → a'.disk = a.disk →
      Kept (heldBy base own) a a' → (a'.icache e).inum = ((a.bytesOf dp).dirent off).inum →
      (heldBy base own e = 0 → (a'.icache e).valid = false) → Walk base a' (e ::ₘ own) locks →
      P (some (e, off)) a') →
    sem.wp (Sys.dirlookupFrom dp name offs) P E a := by
  intro offs
  induction offs with
  | nil =>
    intro _ hnone _
    exact hnone rfl
  | cons off offs ih =>
    intro hsmall hnone hsome
    have hrest := ih fun o ho => hsmall o (mem_cons_of_mem off ho)
    refine wp_bind.mpr (readDirent_spec h hl hdir (hsmall off mem_cons_self)
      (hE _ _ nofun nofun nofun) ?_)
    have hskip : ¬ (a.bytesOf dp).HasName name off →
        sem.wp (Sys.dirlookupFrom dp name offs) P E a := by
      intro hno
      rw [find?_cons_of_neg (by simpa using hno)] at hnone hsome
      exact hrest hnone hsome
    refine wp_ite (fun hz => hskip fun hcon => hcon.1 hz) fun hne => ?_
    refine wp_ite (fun hname => ?_) fun hname => hskip fun hcon => hname hcon.2
    have hfound : (off :: offs).find? ((a.bytesOf dp).HasName name ·) = some off :=
      find?_cons_of_pos (by simpa using ⟨hne, hname⟩)
    exact iget_spec h hE fun e a' hd hk hi hv h' => hsome off e a' hfound hd hk hi hv h'

theorem dirlookup_spec {P : Option (Fin NINODE × Nat) → SpecKernel → Prop}
    (hnone : (a.fieldsOf dp).type = .dir → (a.bytesOf dp).find name = none → P none a)
    (hsome : ∀ off e a', (a.fieldsOf dp).type = .dir → (a.bytesOf dp).find name = some off →
      a'.disk = a.disk → Kept (heldBy base own) a a' →
      (a'.icache e).inum = ((a.bytesOf dp).dirent off).inum →
      (heldBy base own e = 0 → (a'.icache e).valid = false) → Walk base a' (e ::ₘ own) locks →
      P (some (e, off)) a') :
    sem.wp (Sys.dirlookup dp name) P E a := by
  refine inode_spec h hl (wp_ite (fun _ _ => hE _ _ nofun nofun nofun) fun htype => ?_)
  have hdir : (a.fieldsOf dp).type = .dir := Decidable.not_not.mp htype
  exact dirlookupFrom_spec h hE hl hdir _ (fun off hoff => h.offset_small hl hoff) (hnone hdir)
    fun off e a' hfound => hsome off e a' hdir hfound

theorem emptyDirent_spec {P : Nat → SpecKernel → Prop} (hdir : (a.fieldsOf dp).type = .dir) :
    ∀ (offs : List Nat) (last : Nat), (∀ off ∈ offs, off < 2 ^ 32) →
    P ((offs.find? fun off => ((a.bytesOf dp).dirent off).inum = 0).getD
      (offs.getLast?.elim last (· + direntSize))) a →
    sem.wp (Sys.emptyDirent dp offs last) P E a := by
  intro offs
  induction offs with
  | nil =>
    intro last _ hok
    exact hok
  | cons off offs ih =>
    intro last hsmall hok
    refine wp_bind.mpr (readDirent_spec h hl hdir (hsmall off mem_cons_self)
      (hE _ _ nofun nofun nofun) ?_)
    refine wp_ite (fun hz => ?_) fun hne => ?_
    · rw [find?_cons_of_pos (by simpa using hz)] at hok
      exact hok
    · refine ih _ (fun o ho => hsmall o (mem_cons_of_mem off ho)) ?_
      rw [find?_cons_of_neg (by simpa using hne)] at hok
      cases offs with
      | nil => exact hok
      | cons o os => exact hok

end

/-- Writing to a directory. -/
theorem writei_dir_spec (hl : dp ∈ locks) (hdir : (a.fieldsOf dp).type = .dir)
    (hoff : off < 2 ^ 32) (hok : ∀ a', a'.disk = update a.disk (a.icache dp).inum
        ⟨a.fieldsOf dp, ((a.bytesOf dp).write src off direntSize).2⟩ →
      Kept (heldBy base own) a a' → Walk base a' own locks →
      sem.wp (rest ((a.bytesOf dp).write src off direntSize).1) Q E a') :
    sem.wp (Prog.call (.writei dp src off direntSize) >>= rest) Q E a := by
  simp only [Prog.call_bind, wp_op, sem_exec]
  intro _
  have hnotdev : (a.disk (a.icache dp).inum).fields.type ≠ .dev := by
    unfold fieldsOf at hdir
    rw [hdir]
    decide
  exact writei_wp_cache h.inv (h.pos_of_lock hl) (lockOf_of_mem hl) hoff (by decide)
    (fun hdev => absurd hdev hnotdev) fun a' _ hd hk hinv => hok a' hd hk (h.next hk h.nodup hinv)

end

theorem length_offsets : (offsets size).length = (size + direntSize - 1) / direntSize := by
  unfold offsets
  rw [length_map, length_range]

/-- The offset after the last entry. -/
theorem getLast?_offsets :
    (offsets size).getLast?.elim 0 (· + direntSize) = (offsets size).length * direntSize := by
  rw [length_offsets]
  unfold offsets
  cases (size + direntSize - 1) / direntSize with
  | zero => rfl
  | succ n =>
    rw [range_succ, map_append, map_singleton, getLast?_concat, Nat.succ_mul]
    rfl

theorem Walk.emptySlot_small (h : Walk base a own locks) (hl : e ∈ locks) :
    (a.bytesOf e).emptySlot < 2 ^ 32 := by
  have hcoh := h.coherent hl
  have hsmall : (a.bytesOf e).length ≤ MAXFILE * BSIZE := h.inv.small _ hcoh.inum hcoh.type
  have hmax : MAXFILE * BSIZE < 2 ^ 31 := by decide
  have hs : direntSize = 16 := rfl
  unfold Bytes.emptySlot
  cases hfind : (offsets (a.bytesOf e).length).find? fun off =>
      ((a.bytesOf e).dirent off).inum = 0 with
  | some off => exact h.offset_small hl (mem_of_find?_eq_some hfind)
  | none =>
    rw [Option.getD_none, length_offsets, hs]
    omega

section

variable (h : Walk base a own locks) (hE : Tolerates E)

include h hE

theorem dirlink_spec {P : Int → SpecKernel → Prop} {inum : Nat} (hl : dp ∈ locks)
    (hfound : ∀ a' off, (a.fieldsOf dp).type = .dir → (a.bytesOf dp).find name = some off →
      a'.disk = a.disk → Kept (heldBy base own) a a' → Walk base a' own locks → P (-1) a')
    (hnew : ∀ a', (a.fieldsOf dp).type = .dir → (a.bytesOf dp).find name = none →
      ((a.bytesOf dp).link name inum).1 = direntSize →
      a'.disk = update a.disk (a.icache dp).inum
        ⟨a.fieldsOf dp, ((a.bytesOf dp).link name inum).2⟩ →
      Kept (heldBy base own) a a' → Walk base a' own locks → P 0 a') :
    sem.wp (Sys.dirlink dp name inum) P E a := by
  refine wp_bind.mpr (dirlookup_spec h hE hl ?_ ?_)
  · intro hdir hnone
    refine inode_spec h hl (wp_bind.mpr (emptyDirent_spec h hE hl hdir _ _
      (fun off hoff => h.offset_small hl hoff) ?_))
    change sem.wp (Prog.call (.writei dp ((direntBytes inum name).getD · 0)
      (((offsets (a.bytesOf dp).length).find? fun off => ((a.bytesOf dp).dirent off).inum = 0).getD
        ((offsets (a.bytesOf dp).length).getLast?.elim 0 (· + direntSize))) direntSize) >>= _) P E a
    rw [getLast?_offsets]
    refine writei_dir_spec h hl hdir (h.emptySlot_small hl) fun a' hd hk h' => ?_
    refine wp_ite (fun _ _ => hE _ _ nofun nofun nofun) fun hr => ?_
    exact hnew a' hdir hnone (Decidable.not_not.mp hr) hd hk h'
  · intro off e a₁ hdir hsome hd₁ hk₁ hi₁ hv₁ h₁
    refine wp_bind.mpr (iput_looked_spec h₁ (fun hmem => h.pos_of_lock hmem) hv₁ ?_)
    intro a₂ hd₂ hk₂ h₂
    exact hfound a₂ off hdir hsome (hd₂.trans hd₁) (hk₁.trans hk₂ fun _ => id) h₂

theorem isdiremptyFrom_spec {P : Bool → SpecKernel → Prop} (hl : dp ∈ locks)
    (hdir : (a.fieldsOf dp).type = .dir) :
    ∀ offs : List Nat, (∀ off ∈ offs, off < 2 ^ 32) →
    P (decide (∀ off ∈ offs, ((a.bytesOf dp).dirent off).inum = 0)) a →
    sem.wp (Sys.isdiremptyFrom dp offs) P E a := by
  intro offs
  induction offs with
  | nil =>
    intro _ hok
    exact hok
  | cons off offs ih =>
    intro hsmall hok
    refine wp_bind.mpr (readDirent_spec h hl hdir (hsmall off mem_cons_self)
      (hE _ _ nofun nofun nofun) ?_)
    refine wp_ite (fun hne => ?_) fun hz => ?_
    · rw [decide_eq_false fun hall => hne (hall off mem_cons_self)] at hok
      exact hok
    · refine ih (fun o ho => hsmall o (mem_cons_of_mem off ho)) ?_
      have hz' := Decidable.not_not.mp hz
      simp only [forall_mem_cons, hz', true_and] at hok
      exact hok

theorem isdirempty_spec {P : Bool → SpecKernel → Prop} (hl : dp ∈ locks)
    (hdir : (a.fieldsOf dp).type = .dir) (hok : P (decide (a.bytesOf dp).IsEmptyDir) a) :
    sem.wp (Sys.isdirempty dp) P E a := by
  refine inode_spec h hl (isdiremptyFrom_spec h hE hl hdir _ ?_ hok)
  exact fun off hoff => h.offset_small hl (mem_of_mem_drop hoff)

/-! ### `ialloc` -/

theorem iallocFrom_spec {P : Fin NINODE → SpecKernel → Prop} (htype : type ≠ .free) :
    ∀ inums : List Nat, (∀ i ∈ inums, i < a.ninodes) →
    (∀ i e a', i ∈ inums → (a.disk i).fields.type = .free →
      a'.disk = update a.disk i (Spec.freshNode type) → Kept (heldBy base own) a a' →
      (a'.icache e).inum = i → Walk base a' (e ::ₘ own) locks → P e a') →
    sem.wp (Sys.iallocFrom type inums) P E a := by
  intro inums
  induction inums with
  | nil =>
    intro _ _ _
    exact hE _ _ (by decide) (by decide) (by decide)
  | cons i inums ih =>
    intro hlt hok
    unfold Sys.iallocFrom
    simp only [Prog.call_bind, wp_op, sem_exec]
    intro _
    refine iallocTry_wp_cache h.inv (hlt i mem_cons_self) htype (fun _ => ?_)
      fun a₁ hfree hd₁ hk₁ hinv₁ => ?_
    · refine ih (fun j hj => hlt j (mem_cons_of_mem i hj)) ?_
      exact fun j e a' hj => hok j e a' (mem_cons_of_mem i hj)
    · have h₁ := h.next hk₁ h.nodup hinv₁
      intro _
      rw [sem_exec]
      refine iget_wp h₁.inv (fun e a₂ hd₂ hk₂ hi _ hinv₂ => ?_) (hE.noInodes a₁)
      rw [← heldBy_cons] at hinv₂
      exact hok i e a₂ mem_cons_self hfree (hd₂.trans hd₁) (hk₁.trans hk₂ fun _ => id) hi
        (h₁.next hk₂ h.nodup hinv₂)

theorem ialloc_spec {P : Fin NINODE → SpecKernel → Prop} (htype : type ≠ .free)
    (hok : ∀ i e a', 0 < i → i < a.ninodes → (a.disk i).fields.type = .free →
      a'.disk = update a.disk i (Spec.freshNode type) → Kept (heldBy base own) a a' →
      (a'.icache e).inum = i → Walk base a' (e ::ₘ own) locks → P e a') :
    sem.wp (Sys.ialloc type) P E a := by
  have hrange : ∀ i ∈ List.range' 1 (a.ninodes - 1), 0 < i ∧ i < a.ninodes := by
    intro i hi
    have hmem := mem_range'_1.mp hi
    omega
  intro _
  refine iallocFrom_spec h hE htype _ (fun i hi => (hrange i hi).2) ?_
  exact fun i e a' hi => hok i e a' (hrange i hi).1 (hrange i hi).2

end

/-! ### `unlink` -/

/-- The disk after the fields of inode `i` have been written. -/
def setNodeFields (disk : Nat → Node) (i : Nat) (f : InodeFields → InodeFields) : Nat → Node :=
  update disk i { disk i with fields := f (disk i).fields }

def InodeFields.decLink (f : InodeFields) : InodeFields := { f with nlink := f.nlink - 1 }

theorem dropLink_spec (h : Walk base a own locks) (hl : e ∈ locks)
    (hok : ∀ a', a'.disk = setNodeFields a.disk (a.icache e).inum .decLink →
      Kept (heldBy base own) a a' → Walk base a' own locks → P () a') :
    sem.wp (Sys.dropLink e) P E a :=
  setFields_iupdate_spec (.ret ()) h hl (fun _ => rfl) hok

/-- The disk after the entry at `off` of directory `d` has been removed, for an inode `i`. -/
def unlinked (disk : Nat → Node) (d i off : Nat) : Nat → Node :=
  let disk' := update disk d
    { disk d with bytes := ((disk d).bytes.write (fun _ => 0) off direntSize).2 }
  if (disk i).fields.type = .dir then setNodeFields disk' d .decLink else disk'

theorem mayUnlink_spec {P : Bool → SpecKernel → Prop} (h : Walk base a own locks)
    (hE : Tolerates E) (hl : e ∈ locks)
    (hok : P (decide ((a.fieldsOf e).type = .dir → (a.bytesOf e).IsEmptyDir)) a) :
    sem.wp (Sys.mayUnlink e (a.fieldsOf e).type) P E a := by
  refine wp_ite (fun hdir => isdirempty_spec h hE hl hdir ?_) fun hnot => ?_
  · simp only [hdir, true_imp_iff] at hok
    exact hok
  · rw [decide_eq_true fun hdir => absurd hdir hnot] at hok
    exact hok

theorem dropParentLink_spec (h : Walk base a own locks) (hl : e ∈ locks)
    (hok : ∀ a', a'.disk = (if type = .dir then
        setNodeFields a.disk (a.icache e).inum .decLink else a.disk) →
      Kept (heldBy base own) a a' → Walk base a' own locks → P () a') :
    sem.wp (Sys.dropParentLink e type) P E a := by
  refine wp_ite (fun hdir => dropLink_spec h hl fun a' hd => hok a' ?_) fun hnot => ?_
  · rw [if_pos hdir]
    exact hd
  · exact hok a (if_neg hnot).symm .refl h

theorem unlinkInode_spec {P : Int → SpecKernel → Prop}
    (h : Walk base a (dp ::ₘ ip ::ₘ own) (dp ::ₘ ip ::ₘ locks)) (hE : Tolerates E)
    (hdir : (a.fieldsOf dp).type = .dir) (hoff : off < 2 ^ 32)
    (hfail : ∀ a', (a.fieldsOf ip).type = .dir → ¬ (a.bytesOf ip).IsEmptyDir →
      a'.disk = dropRef (dropRef a.disk (a.icache ip).inum (heldBy base (dp ::ₘ own) ip = 0))
        (a.icache dp).inum (heldBy base own dp = 0) →
      Kept (heldBy base own) a a' → Walk base a' own locks → P (-1) a')
    (hok : ∀ a', 0 < (a.fieldsOf ip).nlink.toInt →
      ((a.fieldsOf ip).type = .dir → (a.bytesOf ip).IsEmptyDir) →
      ((a.bytesOf dp).write (fun _ => 0) off direntSize).1 = direntSize →
      a'.disk = dropRef (setNodeFields (dropRef (unlinked a.disk (a.icache dp).inum
        (a.icache ip).inum off) (a.icache dp).inum (heldBy base (ip ::ₘ own) dp = 0))
        (a.icache ip).inum .decLink) (a.icache ip).inum (heldBy base own ip = 0) →
      Kept (heldBy base own) a a' → Walk base a' own locks → P 0 a') :
    sem.wp (Sys.unlinkInode dp ip off) P E a := by
  have hdp : dp ∈ dp ::ₘ ip ::ₘ locks := Multiset.mem_cons_self ..
  have hip : ip ∈ dp ::ₘ ip ::ₘ locks := Multiset.mem_cons_of_mem (Multiset.mem_cons_self ..)
  have hposd := h.pos_of_lock hdp
  have hposi := h.pos_of_lock hip
  refine inode_spec h hip (wp_ite (fun _ _ => hE _ _ nofun nofun nofun) fun hnlink => ?_)
  refine wp_bind.mpr (mayUnlink_spec h hE hip ?_)
  refine wp_ite (fun hbad => ?_) fun hgood => ?_
  · -- a directory that is not empty
    have hno := of_decide_eq_false hbad
    rw [Classical.not_imp] at hno
    rw [Multiset.cons_swap, Multiset.cons_swap dp ip locks] at h
    refine wp_bind.mpr (iunlockput_spec h fun a₁ hd₁ hk₁ h₁ => ?_)
    have hinum := hk₁.inum dp (heldBy_pos (Multiset.mem_cons_self ..))
    refine wp_bind.mpr (iunlockput_spec h₁ fun a₂ hd₂ hk₂ h₂ => ?_)
    rw [hd₁, hinum] at hd₂
    exact hfail a₂ hno.1 hno.2 hd₂ ((hk₁.mono heldBy_le_cons).trans hk₂ fun _ => id) h₂
  · have hempty : (a.fieldsOf ip).type = .dir → (a.bytesOf ip).IsEmptyDir :=
      of_decide_eq_true (Bool.eq_true_of_not_eq_false hgood)
    refine writei_dir_spec h hdp hdir hoff fun a₁ hd₁ hk₁ h₁ => ?_
    refine wp_ite (fun _ _ => hE _ _ nofun nofun nofun) fun hr => ?_
    refine wp_bind.mpr (dropParentLink_spec h₁ hdp fun a₂ hd₂ hk₂ h₂ => ?_)
    have hk₁₂ := hk₁.trans hk₂ fun _ => id
    have hdisk₂ : a₂.disk = unlinked a.disk (a.icache dp).inum (a.icache ip).inum off := by
      rw [hd₂, hd₁, hk₁.inum dp hposd]
      rfl
    refine wp_bind.mpr (iunlockput_spec h₂ fun a₃ hd₃ hk₃ h₃ => ?_)
    have hk₁₃ := (hk₁₂.mono heldBy_le_cons).trans hk₃ fun _ => id
    refine wp_bind.mpr (dropLink_spec h₃ (Multiset.mem_cons_self ..) fun a₄ hd₄ hk₄ h₄ => ?_)
    have hk₁₄ := hk₁₃.trans hk₄ fun _ => id
    have hposi' : 0 < heldBy base (ip ::ₘ own) ip := heldBy_pos (Multiset.mem_cons_self ..)
    refine wp_bind.mpr (iunlockput_spec h₄ fun a₅ hd₅ hk₅ h₅ => ?_)
    refine hok a₅ (Int.not_lt.mp hnlink) hempty (Decidable.not_not.mp hr) ?_
      ((hk₁₄.mono heldBy_le_cons).trans hk₅ fun _ => id) h₅
    rw [hd₅, hk₁₄.inum ip hposi', hd₄, hk₁₃.inum ip hposi', hd₃, hk₁₂.inum dp hposd, hdisk₂]

end

end Xv6Kernel
