/-
  Ownership.lean
  ==============
  Which inode a data block belongs to.

  The number of a block of a file is stored at a `Place`: in the inode or in the indirect
  block that the inode names.  `Owned s ds ino` says that the blocks of the data area that
  are marked in the free map are the ones stored at some place of an allocated inode, each
  at one place.  `ino` has the inodes: those of the disk, except that an inode which is
  being written may be ahead of its copy there.

  `Grown` says what `bmap` does to an inode and to the disk when it adds blocks.
-/
import Xv6Kernel.Allocation
import Xv6Kernel.DiskLayout

namespace Xv6Kernel

open PanicMonad Function Finset

/-! ### Places -/

inductive Place where
  | addr (k : Fin (NDIRECT + 1))
  | entry (j : Fin NINDIRECT)
deriving DecidableEq

namespace Place

variable {k : Nat}

/-- The place of the number of the indirect block. -/
def indirect : Place := .addr (Fin.ofNat (NDIRECT + 1) NDIRECT)

/-- The place for block `k` of a file. -/
def ofIndex (k : Nat) : Place :=
  if k < NDIRECT then .addr (Fin.ofNat (NDIRECT + 1) k)
  else .entry (Fin.ofNat NINDIRECT (k - NDIRECT))

/-- The places that `bmap` looks at for block `k`. -/
def path (k : Nat) : Finset Place := if k < NDIRECT then {ofIndex k} else {indirect, ofIndex k}

theorem ofIndex_ne_indirect : ofIndex k ≠ indirect := by
  unfold ofIndex indirect
  split
  · intro hcon
    have hval := congrArg Fin.val (Place.addr.inj hcon)
    rw [Fin.val_ofNat, Fin.val_ofNat, Nat.mod_eq_of_lt (by omega), Nat.mod_eq_of_lt (by omega)]
      at hval
    omega
  · exact nofun

theorem ofIndex_inj (hk : k < MAXFILE) (hl : l < MAXFILE) (h : ofIndex k = ofIndex l) : k = l := by
  have hmax : MAXFILE = NDIRECT + NINDIRECT := rfl
  unfold ofIndex at h
  by_cases hkd : k < NDIRECT <;> by_cases hld : l < NDIRECT
  · rw [if_pos hkd, if_pos hld] at h
    have hval := congrArg Fin.val (Place.addr.inj h)
    rwa [Fin.val_ofNat, Fin.val_ofNat, Nat.mod_eq_of_lt (by omega), Nat.mod_eq_of_lt (by omega)]
      at hval
  · rw [if_pos hkd, if_neg hld] at h
    cases h
  · rw [if_neg hkd, if_pos hld] at h
    cases h
  · rw [if_neg hkd, if_neg hld] at h
    have hval := congrArg Fin.val (Place.entry.inj h)
    rw [Fin.val_ofNat, Fin.val_ofNat, Nat.mod_eq_of_lt (by omega), Nat.mod_eq_of_lt (by omega)]
      at hval
    omega

theorem ofIndex_mem_path : ofIndex k ∈ path k := by
  unfold path
  split <;> simp

end Place

/-! ### Owners -/

variable {s' : Fs} {ip' : Inode}

namespace Fs

variable {s : Fs} {ds i j n : Nat} {ip : Inode} {ino : Nat → Inode} {p : Place} {x : BlockNo}

/-- The block number stored at a place, or 0. -/
def slot (s : Fs) (ip : Inode) : Place → BlockNo
  | .addr k => ip.addrs k
  | .entry j => if ip.addr NDIRECT = 0 then 0 else s.cache (ip.addr NDIRECT) j

/-- Inode `i` is allocated. -/
def Live (s : Fs) (ino : Nat → Inode) (i : Nat) : Prop :=
  i < s.sb.ninodes ∧ (ino i).type ≠ .free

instance : Decidable (s.Live ino i) := inferInstanceAs (Decidable (_ ∧ _))

/-- The block that the place of an allocated inode holds. -/
def owner (s : Fs) (ino : Nat → Inode) (x : Nat × Place) : Option Nat :=
  if s.Live ino x.1 ∧ s.slot (ino x.1) x.2 ≠ 0 then some (s.slot (ino x.1) x.2).toNat else none

/-- The blocks of the data area that are marked in the free map. -/
def dataInUse (s : Fs) (ds : Nat) : Set Nat := { b | ds ≤ b ∧ b < s.sb.size ∧ s.bit b = true }

/-- The number of blocks that are not marked. -/
def freeBlocks (s : Fs) : Nat := ((Finset.range s.sb.size).filter fun b => s.bit b = false).card

structure Owned (s : Fs) (ds : Nat) (ino : Nat → Inode) : Prop where
  formatted : s.Formatted ds
  inum : ∀ i, (ino i).inum = i
  exact : Allocation.Exact (s.dataInUse ds) (s.owner ino)

theorem owner_of_slot (hl : s.Live ino i) (hne : s.slot (ino i) p ≠ 0) :
    s.owner ino (i, p) = some (s.slot (ino i) p).toNat := if_pos ⟨hl, hne⟩

theorem owner_of_slot_zero (h : s.slot (ino i) p = 0) : s.owner ino (i, p) = none :=
  if_neg fun hcon => hcon.2 h

theorem slot_indirect : s.slot ip .indirect = ip.addr NDIRECT := rfl

theorem slot_entry_of_zero (h : ip.addr NDIRECT = 0) : s.slot ip (.entry k) = 0 := if_pos h

theorem slot_entry (h : ip.addr NDIRECT ≠ 0) :
    s.slot ip (.entry k) = s.cache (ip.addr NDIRECT) k := if_neg h

/-- The slots of an inode depend on the indirect block only. -/
theorem slot_congr
    (h : ip.addr NDIRECT ≠ 0 → s'.cache (ip.addr NDIRECT) = s.cache (ip.addr NDIRECT)) :
    s'.slot ip p = s.slot ip p := by
  cases p with
  | addr k => rfl
  | entry k =>
    by_cases hind : ip.addr NDIRECT = 0
    · rw [slot_entry_of_zero hind, slot_entry_of_zero hind]
    · rw [slot_entry hind, slot_entry hind, h hind]

theorem slot_logged (h : ip.addr NDIRECT ≠ 0 → x ≠ ip.addr NDIRECT) :
    (s.logged x d).slot ip p = s.slot ip p :=
  slot_congr fun hind => update_of_ne (h hind).symm ..

theorem owner_congr (hlive : ∀ j, s'.Live ino' j ↔ s.Live ino j)
    (hslot : ∀ j q, s.Live ino j → s'.slot (ino' j) q = s.slot (ino j) q) :
    s'.owner ino' = s.owner ino := by
  funext y
  unfold owner
  by_cases hl : s.Live ino y.1
  · simp only [hlive, hslot y.1 y.2 hl]
  · rw [if_neg fun hcon => hl ((hlive _).mp hcon.1), if_neg fun hcon => hl hcon.1]

/-- One place gets a block. -/
theorem owner_update (hsb : s'.sb = s.sb) (hl : s.Live ino i)
    (htype : ∀ j, (ino' j).type = (ino j).type) (hnew : s'.slot (ino' i) p = b) (hb : b ≠ 0)
    (hslot : ∀ j q, s.Live ino j → (j, q) ≠ (i, p) → s'.slot (ino' j) q = s.slot (ino j) q) :
    s'.owner ino' = update (s.owner ino) (i, p) (some b.toNat) := by
  funext y
  have hlive : ∀ j, s'.Live ino' j ↔ s.Live ino j := by
    intro j
    unfold Live
    rw [hsb, htype]
  by_cases hy : y = (i, p)
  · subst hy
    rw [update_self, owner_of_slot ((hlive i).mpr hl) (hnew ▸ hb), hnew]
  · rw [update_of_ne hy]
    unfold owner
    by_cases hly : s.Live ino y.1
    · simp only [hlive, hslot y.1 y.2 hly hy]
    · rw [if_neg fun hcon => hly ((hlive _).mp hcon.1), if_neg fun hcon => hly hcon.1]

namespace Owned

theorem data (h : s.Owned ds ino) (hl : s.Live ino i) (hne : s.slot (ino i) p ≠ 0) :
    ds ≤ (s.slot (ino i) p).toNat ∧ (s.slot (ino i) p).toNat < s.sb.size ∧
      s.bit (s.slot (ino i) p).toNat = true :=
  h.exact.mem (owner_of_slot hl hne)

theorem slot_inj (h : s.Owned ds ino) (hi : s.Live ino i) (hj : s.Live ino j)
    (hne : s.slot (ino i) p ≠ 0) (heq : s.slot (ino i) p = s.slot (ino j) q) :
    (i, p) = (j, q) :=
  h.exact.inj (owner_of_slot hi hne) (by rw [heq, owner_of_slot hj (heq ▸ hne)])

/-- A block that is not marked is at no place. -/
theorem slot_ne_free (h : s.Owned ds ino) (hl : s.Live ino i) (hne : s.slot (ino i) p ≠ 0)
    (hn : s.bit n = false) : (s.slot (ino i) p).toNat ≠ n := by
  rintro rfl
  have hbit := (h.data hl hne).2.2
  rw [hn] at hbit
  cases hbit

end Owned

/-! ### The free map -/

namespace Formatted

variable (h : s.Formatted ds) (hlt : n < s.sb.size)

include h hlt

theorem dataInUse_allocBlock (hfree : s.bit n = false) :
    (s.allocBlock n).dataInUse ds = insert n (s.dataInUse ds) := by
  ext c
  simp only [dataInUse, Set.mem_ofPred_eq, Set.mem_insert_iff, allocBlock_sb]
  constructor
  · rintro ⟨hds, hc, hbit⟩
    rw [h.bit_allocBlock hlt hfree hc, Bool.or_eq_true, decide_eq_true_eq] at hbit
    rcases hbit with hbit | heq
    · exact Or.inr ⟨hds, hc, hbit⟩
    · exact Or.inl heq
  · rintro (rfl | ⟨hds, hc, hbit⟩)
    · refine ⟨h.above_of_free hfree, hlt, ?_⟩
      rw [h.bit_allocBlock hlt hfree hlt, decide_eq_true rfl, Bool.or_true]
    · refine ⟨hds, hc, ?_⟩
      rw [h.bit_allocBlock hlt hfree hc, hbit, Bool.true_or]

theorem dataInUse_freeBlock : (s.freeBlock n).dataInUse ds = s.dataInUse ds \ {n} := by
  ext c
  simp only [dataInUse, Set.mem_ofPred_eq, Set.mem_sdiff, Set.mem_singleton_iff, freeBlock_sb]
  constructor
  · rintro ⟨hds, hc, hbit⟩
    rw [bit_freeBlock h.geo hlt hc, Bool.and_eq_true, Bool.not_eq_true', decide_eq_false_iff_not]
      at hbit
    exact ⟨⟨hds, hc, hbit.1⟩, hbit.2⟩
  · rintro ⟨⟨hds, hc, hbit⟩, hne⟩
    refine ⟨hds, hc, ?_⟩
    rw [bit_freeBlock h.geo hlt hc, hbit, decide_eq_false hne]
    rfl

theorem freeBlocks_allocBlock (hfree : s.bit n = false) :
    (s.allocBlock n).freeBlocks + 1 = s.freeBlocks := by
  have herase : ((Finset.range s.sb.size).filter fun b => (s.allocBlock n).bit b = false) =
      ((Finset.range s.sb.size).filter fun b => s.bit b = false).erase n := by
    ext c
    simp only [mem_filter, mem_range, mem_erase]
    constructor
    · rintro ⟨hc, hbit⟩
      rw [h.bit_allocBlock hlt hfree hc, Bool.or_eq_false_iff, decide_eq_false_iff_not] at hbit
      exact ⟨hbit.2, hc, hbit.1⟩
    · rintro ⟨hne, hc, hbit⟩
      rw [h.bit_allocBlock hlt hfree hc, hbit, decide_eq_false hne]
      exact ⟨hc, rfl⟩
  have hmem : n ∈ (Finset.range s.sb.size).filter fun b => s.bit b = false :=
    mem_filter.mpr ⟨mem_range.mpr hlt, hfree⟩
  unfold freeBlocks
  rw [allocBlock_sb, herase]
  exact card_erase_add_one hmem

theorem cache_allocBlock (hx : ds ≤ x.toNat)
    (hne : x.toNat ≠ n) : (s.allocBlock n).cache x = s.cache x := by
  have hxn : x ≠ BitVec.ofNat 32 n := by
    apply Geometry.ne_of_toNat
    rwa [h.geo.toNat_ofNat hlt]
  unfold Fs.allocBlock
  rw [logged_cache, update_of_ne hxn, logged_cache, update_of_ne (h.geo.data_ne_BBLOCK hx hlt)]

theorem dinode_allocBlock (hfree : s.bit n = false)
    (hj : j < s.sb.ninodes) : (s.allocBlock n).dinode j = s.dinode j := by
  have hne := h.geo.data_ne_IBLOCK (h.ofNat_above hlt hfree) hj
  unfold Fs.allocBlock
  rw [dinode_logged (s := s.logged _ _) hne, dinode_logged (h.geo.BBLOCK_ne_IBLOCK hlt hj)]

end Formatted

theorem cache_allocBlock_self : (s.allocBlock n).cache (BitVec.ofNat 32 n) = Block.zero :=
  update_self ..

/-- Only the free map decides which blocks are in use. -/
theorem dataInUse_logged (h : ∀ b, b < s.sb.size → x ≠ s.sb.BBLOCK b) :
    (s.logged x d).dataInUse ds = s.dataInUse ds := by
  ext c
  simp only [dataInUse, Set.mem_ofPred_eq, logged_sb]
  constructor
  · rintro ⟨hds, hc, hbit⟩
    rw [bit_logged (h c hc)] at hbit
    exact ⟨hds, hc, hbit⟩
  · rintro ⟨hds, hc, hbit⟩
    rw [bit_logged (h c hc)]
    exact ⟨hds, hc, hbit⟩

theorem freeBlocks_logged (h : ∀ b, b < s.sb.size → x ≠ s.sb.BBLOCK b) :
    (s.logged x d).freeBlocks = s.freeBlocks := by
  unfold freeBlocks
  congr 1
  ext c
  simp only [mem_filter, mem_range, logged_sb]
  refine and_congr_right fun hc => ?_
  rw [bit_logged (h c hc)]

end Fs

/-! ### Adding blocks to an inode -/

/-- What no function but `begin_op`, `end_op` and `readsb` changes. -/
structure Fs.SameSetup (s s' : Fs) : Prop where
  sb : s'.sb = s.sb
  devsw : s'.devsw = s.devsw
  devswRead : s'.devswRead = s.devswRead
  done : s'.done = s.done
  current : s'.current = none ↔ s.current = none

namespace Fs.SameSetup

variable {s : Fs}

theorem refl (s : Fs) : s.SameSetup s := ⟨rfl, rfl, rfl, rfl, Iff.rfl⟩

theorem trans (h : s.SameSetup s₁) (h' : s₁.SameSetup s₂) : s.SameSetup s₂ where
  sb := h'.sb.trans h.sb
  devsw := h'.devsw.trans h.devsw
  devswRead := h'.devswRead.trans h.devswRead
  done := h'.done.trans h.done
  current := h'.current.trans h.current

theorem logged : s.SameSetup (s.logged b d) := ⟨rfl, rfl, rfl, rfl, Option.map_eq_none_iff⟩

theorem allocBlock : s.SameSetup (s.allocBlock n) := logged.trans logged

end Fs.SameSetup

/-- Inode `i` has got blocks at the places of `Q`, and the other places are as before. -/
structure Placed (s : Fs) (ds : Nat) (ino : Nat → Inode) (i : Nat) (s' : Fs) (ip' : Inode)
    (Q : Finset Place) : Prop where
  owned : s'.Owned ds (update ino i ip')
  keeps : ip' = { ino i with addrs := ip'.addrs }
  filled : ∀ p ∈ Q, s'.slot ip' p ≠ 0
  old : ∀ p, p ∉ Q → s'.slot ip' p = s.slot (ino i) p
  others : ∀ j, j ≠ i → s.Live ino j → ∀ p, s'.slot (ino j) p = s.slot (ino j) p
  dinode : ∀ j, j < s.sb.ninodes → s'.dinode j = s.dinode j
  setup : s.SameSetup s'
  free : s'.freeBlocks + Q.card = s.freeBlocks

/-- The new blocks are zeroed, and no other data block has changed. -/
structure Grown (s : Fs) (ds : Nat) (ino : Nat → Inode) (i : Nat) (s' : Fs) (ip' : Inode)
    (Q : Finset Place) : Prop extends Placed s ds ino i s' ip' Q where
  zero : ∀ p ∈ Q, p ≠ .indirect → s'.cache (s'.slot ip' p) = Block.zero
  blocks : ∀ j p, s.Live ino j → p ≠ .indirect → s.slot (ino j) p ≠ 0 →
    s'.cache (s.slot (ino j) p) = s.cache (s.slot (ino j) p)

namespace Fs

variable {s : Fs} {ds : Nat} {ino : Nat → Inode}

theorem Formatted.ofNat_ne_zero (h : s.Formatted ds) (hlt : n < s.sb.size)
    (hfree : s.bit n = false) : BitVec.ofNat 32 n ≠ 0 := by
  have habove := h.ofNat_above hlt hfree
  have hmap := h.geo.map
  apply Geometry.ne_of_toNat
  rw [show (0 : BlockNo).toNat = 0 from rfl]
  omega

variable (h : s.Owned ds ino)

include h

theorem Owned.placed_refl : Placed s ds ino i s (ino i) ∅ where
  owned := by
    rw [update_eq_self]
    exact h
  keeps := rfl
  filled := fun p hp => absurd hp (notMem_empty p)
  old := fun _ _ => rfl
  others := fun _ _ _ _ => rfl
  dinode := fun _ _ => rfl
  setup := .refl s
  free := rfl

theorem Owned.grown_refl : Grown s ds ino i s (ino i) ∅ where
  toPlaced := h.placed_refl
  zero := fun p hp => absurd hp (notMem_empty p)
  blocks := fun _ _ _ _ _ => rfl

/-- What `balloc` does to the blocks of the inodes. -/
theorem Owned.cache_allocBlock_slot (hlt : n < s.sb.size)
    (hfree : s.bit n = false) (hl : s.Live ino j) (hne : s.slot (ino j) p ≠ 0) :
    (s.allocBlock n).cache (s.slot (ino j) p) = s.cache (s.slot (ino j) p) :=
  h.formatted.cache_allocBlock hlt (h.data hl hne).1 (h.slot_ne_free hl hne hfree)

theorem Owned.slot_allocBlock (hlt : n < s.sb.size) (hfree : s.bit n = false)
    (hl : s.Live ino j) : (s.allocBlock n).slot (ino j) p = s.slot (ino j) p :=
  slot_congr fun hind => h.cache_allocBlock_slot (p := .indirect) hlt hfree hl hind

/-- One place of an inode gets a block that was free. -/
theorem Owned.grown_of_take (hl : s.Live ino i) (hlt : n < s.sb.size)
    (hfree : s.bit n = false) (hf : s'.Formatted ds) (hsetup : s.SameSetup s')
    (huse : s'.dataInUse ds = insert n (s.dataInUse ds)) (hcount : s'.freeBlocks + 1 = s.freeBlocks)
    (hkeeps : ip' = { ino i with addrs := ip'.addrs }) (hz : s.slot (ino i) p = 0)
    (hnew : s'.slot ip' p = BitVec.ofNat 32 n)
    (hold : ∀ q, q ≠ p → s'.slot ip' q = s.slot (ino i) q)
    (hothers : ∀ j, j ≠ i → s.Live ino j → ∀ q, s'.slot (ino j) q = s.slot (ino j) q)
    (hzero : s'.cache (BitVec.ofNat 32 n) = Block.zero)
    (hblocks : ∀ j q, s.Live ino j → q ≠ .indirect → s.slot (ino j) q ≠ 0 →
      s'.cache (s.slot (ino j) q) = s.cache (s.slot (ino j) q))
    (hdinode : ∀ j, j < s.sb.ninodes → s'.dinode j = s.dinode j) : Grown s ds ino i s' ip' {p} := by
  have hne := h.formatted.ofNat_ne_zero hlt hfree
  have hupdate : ∀ {α : Type} (f : Inode → α), f ip' = f (ino i) → ∀ j,
      f (update ino i ip' j) = f (ino j) := by
    intro α f hf j
    by_cases hj : j = i
    · subst hj
      rw [update_self, hf]
    · rw [update_of_ne hj]
  have howner : s'.owner (update ino i ip') =
      update (s.owner ino) (i, p) (some (BitVec.ofNat 32 n).toNat) := by
    refine owner_update hsetup.sb hl (hupdate _ (by rw [hkeeps])) ?_ hne ?_
    · rw [update_self]
      exact hnew
    · intro j q hj hjq
      by_cases hji : j = i
      · subst hji
        rw [update_self]
        exact hold q fun hcon => hjq (by rw [hcon])
      · rw [update_of_ne hji]
        exact hothers j hji hj q
  have hexact : Allocation.Exact (s'.dataInUse ds) (s'.owner (update ino i ip')) := by
    rw [howner, huse, h.formatted.geo.toNat_ofNat hlt]
    refine h.exact.take ?_ (owner_of_slot_zero hz)
    rintro ⟨-, -, hbit⟩
    rw [hfree] at hbit
    cases hbit
  refine ⟨⟨⟨hf, ?_, hexact⟩, hkeeps, ?_, ?_, hothers, hdinode, hsetup, hcount⟩, ?_, hblocks⟩
  · intro j
    rw [hupdate (·.inum) (by rw [hkeeps]) j]
    exact h.inum j
  · intro q hq
    rw [mem_singleton.mp hq, hnew]
    exact hne
  · intro q hq
    exact hold q fun hcon => hq (mem_singleton.mpr hcon)
  · intro q hq _
    rw [mem_singleton.mp hq, hnew, hzero]

/-- A block number in the inode itself. -/
theorem Owned.grown_addr (hl : s.Live ino i) (hk : k ≤ NDIRECT)
    (hz : (ino i).addr k = 0) (hlt : n < s.sb.size) (hfree : s.bit n = false) :
    Grown s ds ino i (s.allocBlock n) ((ino i).setAddr k (BitVec.ofNat 32 n))
      {.addr (Fin.ofNat (NDIRECT + 1) k)} := by
  have hf := h.formatted
  refine h.grown_of_take hl hlt hfree (hf.allocBlock hlt hfree) .allocBlock
    (hf.dataInUse_allocBlock hlt hfree) (hf.freeBlocks_allocBlock hlt hfree) rfl hz
    addr_setAddr_self ?_ (fun j _ hj q => h.slot_allocBlock hlt hfree hj) cache_allocBlock_self
    (fun j q hj _ hq => h.cache_allocBlock_slot hlt hfree hj hq)
    fun j hj => hf.dinode_allocBlock hlt hfree hj
  intro q hq
  cases q with
  | addr m =>
    exact update_of_ne (fun hcon => hq (by rw [hcon])) ..
  | entry m =>
    by_cases hkd : k = NDIRECT
    · -- the new indirect block has no entries
      subst hkd
      have hind : ((ino i).setAddr NDIRECT (BitVec.ofNat 32 n)).addr NDIRECT ≠ 0 := by
        rw [addr_setAddr_self]
        exact hf.ofNat_ne_zero hlt hfree
      rw [slot_entry hind, addr_setAddr_self, cache_allocBlock_self, slot_entry_of_zero hz]
      rfl
    · have haddr : ((ino i).setAddr k (BitVec.ofNat 32 n)).addr NDIRECT = (ino i).addr NDIRECT :=
        addr_setAddr_of_ne hk (Nat.le_refl _) (Ne.symm hkd)
      rw [← h.slot_allocBlock hlt hfree hl]
      simp only [slot, haddr]

/-- A block number in the indirect block. -/
theorem Owned.grown_entry (hl : s.Live ino i) (hind : (ino i).addr NDIRECT ≠ 0)
    (hz : s.cache ((ino i).addr NDIRECT) m = 0) (hlt : n < s.sb.size) (hfree : s.bit n = false) :
    Grown s ds ino i ((s.allocBlock n).logged ((ino i).addr NDIRECT)
      (update (s.cache ((ino i).addr NDIRECT)) m (BitVec.ofNat 32 n))) (ino i)
      {.entry m} := by
  have hf := h.formatted
  have hdata := h.data (p := .indirect) hl hind
  rw [slot_indirect] at hdata
  have hmap : ∀ b, b < s.sb.size → (ino i).addr NDIRECT ≠ s.sb.BBLOCK b :=
    fun b hb => hf.geo.data_ne_BBLOCK hdata.1 hb
  have hother : ∀ j q, s.Live ino j → (j, q) ≠ (i, .indirect) → s.slot (ino j) q ≠ 0 →
      (ino i).addr NDIRECT ≠ s.slot (ino j) q := by
    intro j q hj hne hq heq
    exact hne (h.slot_inj hj hl hq heq.symm)
  refine h.grown_of_take hl hlt hfree ((hf.allocBlock hlt hfree).logged_data hdata.1)
    (Fs.SameSetup.allocBlock.trans .logged) ?_ ?_ rfl ?_ ?_ ?_ ?_ ?_ ?_ ?_
  · rw [dataInUse_logged (s := s.allocBlock n) hmap, hf.dataInUse_allocBlock hlt hfree]
  · rw [freeBlocks_logged (s := s.allocBlock n) hmap]
    exact hf.freeBlocks_allocBlock hlt hfree
  · rw [slot_entry hind, hz]
  · rw [slot_entry hind, logged_cache, update_self, update_self]
  · intro q hq
    cases q with
    | addr l => rfl
    | entry l =>
      rw [slot_entry hind, logged_cache, update_self,
        update_of_ne (fun hcon => hq (by rw [hcon])), slot_entry hind]
  · intro j hj hlj q
    rw [slot_logged, h.slot_allocBlock hlt hfree hlj]
    intro hindj
    exact hother j .indirect hlj (fun hcon => hj (congrArg Prod.fst hcon)) hindj
  · have hne : BitVec.ofNat 32 n ≠ (ino i).addr NDIRECT := by
      intro hcon
      have hval := congrArg BitVec.toNat hcon
      rw [hf.geo.toNat_ofNat hlt] at hval
      exact h.slot_ne_free (p := .indirect) hl hind hfree hval.symm
    rw [logged_cache, update_of_ne hne, cache_allocBlock_self]
  · intro j q hj hqi hq
    have hne := hother j q hj (fun hcon => hqi (congrArg Prod.snd hcon)) hq
    rw [logged_cache, update_of_ne hne.symm, h.cache_allocBlock_slot hlt hfree hj hq]
  · intro j hj
    rw [dinode_logged (s := s.allocBlock n) (hf.geo.data_ne_IBLOCK hdata.1 hj),
      hf.dinode_allocBlock hlt hfree hj]

end Fs

section

variable {Q : Finset Place}

namespace Placed

theorem type_eq (h : Placed s ds ino i s₁ ip₁ Q) : ip₁.type = (ino i).type := by rw [h.keeps]

theorem live_iff (h : Placed s ds ino i s₁ ip₁ Q) :
    s₁.Live (update ino i ip₁) j ↔ s.Live ino j := by
  unfold Fs.Live
  rw [h.setup.sb]
  by_cases hj : j = i
  · subst hj
    rw [update_self, h.type_eq]
  · rw [update_of_ne hj]

/-- A place that had a block keeps it. -/
theorem slot_of_ne_zero (h : Placed s ds ino i s₁ ip₁ Q) (hQ : ∀ p ∈ Q, s.slot (ino i) p = 0)
    (hl : s.Live ino j) (hp : s.slot (ino j) p ≠ 0) :
    s₁.slot (update ino i ip₁ j) p = s.slot (ino j) p := by
  by_cases hj : j = i
  · subst hj
    rw [update_self]
    exact h.old p fun hcon => hp (hQ p hcon)
  · rw [update_of_ne hj]
    exact h.others j hj hl p

theorem trans (h : Placed s ds ino i s₁ ip₁ Q) (h' : Placed s₁ ds (update ino i ip₁) i s₂ ip₂ R)
    (hR : ∀ p ∈ R, s₁.slot ip₁ p = 0) : Placed s ds ino i s₂ ip₂ (Q ∪ R) := by
  have hdisj : Disjoint Q R := by
    rw [disjoint_left]
    intro p hpQ hpR
    exact h.filled p hpQ (hR p hpR)
  have hinoi : update ino i ip₁ i = ip₁ := update_self ..
  have hkeep : ∀ p, p ∉ R → s₂.slot ip₂ p = s₁.slot ip₁ p := by
    intro p hp
    rw [h'.old p hp, hinoi]
  refine ⟨?_, ?_, ?_, ?_, ?_, ?_, h.setup.trans h'.setup, ?_⟩
  · have howned := h'.owned
    rwa [update_idem] at howned
  · have hkeeps := h'.keeps
    rw [hinoi, h.keeps] at hkeeps
    exact hkeeps
  · intro p hp
    by_cases hpR : p ∈ R
    · exact h'.filled p hpR
    · rw [hkeep p hpR]
      exact h.filled p ((mem_union.mp hp).resolve_right hpR)
  · intro p hp
    rw [mem_union, not_or] at hp
    rw [hkeep p hp.2, h.old p hp.1]
  · intro j hj hl p
    have hothers := h'.others j hj (h.live_iff.mpr hl) p
    rw [update_of_ne hj] at hothers
    rw [hothers, h.others j hj hl p]
  · intro j hj
    rw [h'.dinode j (by rwa [h.setup.sb]), h.dinode j hj]
  · have hfree := h.free
    have hfree' := h'.free
    rw [card_union_of_disjoint hdisj]
    omega

end Placed

theorem Grown.trans (h : Grown s ds ino i s₁ ip₁ Q) (hl : s.Live ino i)
    (h' : Grown s₁ ds (update ino i ip₁) i s₂ ip₂ R)
    (hQ : ∀ p ∈ Q, s.slot (ino i) p = 0) (hR : ∀ p ∈ R, s₁.slot ip₁ p = 0) :
    Grown s ds ino i s₂ ip₂ (Q ∪ R) := by
  have hinoi : update ino i ip₁ i = ip₁ := update_self ..
  refine ⟨h.toPlaced.trans h'.toPlaced hR, ?_, ?_⟩
  · intro p hp hpi
    by_cases hpR : p ∈ R
    · exact h'.zero p hpR hpi
    · have hpQ := (mem_union.mp hp).resolve_right hpR
      have hblock := h'.blocks i p (h.live_iff.mpr hl) hpi
      rw [hinoi] at hblock
      rw [h'.old p hpR, hinoi, ← h.zero p hpQ hpi]
      exact hblock (h.filled p hpQ)
  · intro j p hlj hpi hp
    have hslot := h.slot_of_ne_zero hQ hlj hp
    have hblock := h'.blocks j p (h.live_iff.mpr hlj) hpi
    rw [hslot] at hblock
    rw [hblock hp, h.blocks j p hlj hpi hp]

end

/-! ### Writing inodes -/

namespace Fs

variable {s : Fs} {ip : Inode}

/-- Inodes with numbers that are too large do not count. -/
theorem Owned.congr (h : s.Owned ds ino) (hinum : ∀ j, (ino' j).inum = j)
    (hino : ∀ j, j < s.sb.ninodes → ino' j = ino j) : s.Owned ds ino' := by
  have howner : s.owner ino' = s.owner ino := by
    funext x
    by_cases hx : x.1 < s.sb.ninodes
    · have hxx := hino x.1 hx
      exact if_congr (by simp only [Live, hxx]) (by rw [hxx]) rfl
    · exact (if_neg fun hcon => hx hcon.1.1).trans (if_neg fun hcon => hx hcon.1.1).symm
  exact ⟨h.formatted, hinum, howner ▸ h.exact⟩

theorem slot_of_addrs (h : ip'.addrs = ip.addrs) : s.slot ip' p = s.slot ip p := by
  have haddr : ip'.addr NDIRECT = ip.addr NDIRECT := congrFun h _
  cases p with
  | addr k => exact congrFun h k
  | entry k => simp only [slot, haddr]

/-- The other fields of an inode do not count either. -/
theorem Owned.of_addrs (h : s.Owned ds ino) (hinum : ∀ j, (ino' j).inum = j)
    (htype : ∀ j, (ino' j).type = .free ↔ (ino j).type = .free)
    (haddrs : ∀ j, (ino' j).addrs = (ino j).addrs) : s.Owned ds ino' := by
  have howner : s.owner ino' = s.owner ino :=
    owner_congr (fun j => and_congr_right fun _ => not_congr (htype j))
      fun j _ _ => slot_of_addrs (haddrs j)
  exact ⟨h.formatted, hinum, howner ▸ h.exact⟩

theorem Owned.slot_setDinode (h : s.Owned ds ino) (hi : ip.inum < s.sb.ninodes)
    (hl : s.Live ino j) : (s.setDinode ip).slot (ino j) p = s.slot (ino j) p := by
  refine slot_logged fun hind => ?_
  exact (h.formatted.geo.data_ne_IBLOCK (h.data (p := .indirect) hl hind).1 hi).symm

/-- Writing an inode moves no block. -/
theorem Owned.setDinode (h : s.Owned ds ino) (hi : ip.inum < s.sb.ninodes) :
    (s.setDinode ip).Owned ds ino := by
  have hmap : ∀ b, b < s.sb.size → s.sb.IBLOCK ip.inum ≠ s.sb.BBLOCK b :=
    fun b hb => (h.formatted.geo.BBLOCK_ne_IBLOCK hb hi).symm
  refine ⟨h.formatted.logged_inode hi, h.inum, ?_⟩
  have howner : (s.setDinode ip).owner ino = s.owner ino :=
    owner_congr (fun _ => Iff.rfl) fun j p hl => h.slot_setDinode hi hl
  exact howner ▸ (dataInUse_logged hmap).symm ▸ h.exact

theorem dinode_setDinode (h : Geometry s.sb ds) (hi : ip.inum < s.sb.ninodes)
    (hsize : ip.size < 2 ^ 32) (hj : j < s.sb.ninodes) :
    (s.setDinode ip).dinode j = update s.dinode ip.inum ip j := by
  by_cases hji : j = ip.inum
  · subst hji
    rw [update_self, dinode_setDinode_self hsize]
  · rw [update_of_ne hji, dinode_setDinode_of_ne h hi hj hji]

end Fs

/-! ### `bmap` -/

/-- The places of `Q` that have no block. -/
def Fs.missing (s : Fs) (ip : Inode) (Q : Finset Place) : Finset Place :=
  Q.filter fun p => s.slot ip p = 0

section

variable {s : Fs} {ds i : Nat} {ino : Nat → Inode}

theorem missing_eq_zero (h : p ∈ s.missing (ino i) Q) : s.slot (ino i) p = 0 := (mem_filter.mp h).2

theorem missing_singleton_of_ne (h : s.slot (ino i) p ≠ 0) : s.missing (ino i) {p} = ∅ :=
  (filter_singleton ..).trans (if_neg h)

theorem missing_singleton_of_eq (h : s.slot (ino i) p = 0) : s.missing (ino i) {p} = {p} :=
  (filter_singleton ..).trans (if_pos h)

theorem freeBlocks_eq_zero (h : ∀ b, b < s.sb.size → s.bit b = true) : s.freeBlocks = 0 := by
  refine card_eq_zero.mpr (filter_eq_empty_iff.mpr ?_)
  intro b hb hfree
  rw [h b (mem_range.mp hb)] at hfree
  cases hfree

theorem addrOrAlloc_wp_grown (h : s.Owned ds ino) (hl : s.Live ino i) (hk : k ≤ NDIRECT)
    (hout : s.current = none → E .outsideOfTrans s)
    (hfull : s.freeBlocks < (s.missing (ino i) {.addr (Fin.ofNat (NDIRECT + 1) k)}).card →
      E .ballocOutOfBlocks s) (hok : ∀ s' ip', Grown s ds ino i s' ip'
        (s.missing (ino i) {.addr (Fin.ofNat (NDIRECT + 1) k)}) →
      P (ip'.addr k, ip') s') : wp (addrOrAlloc (ino i) k) P E s := by
  have hslot : s.slot (ino i) (.addr (Fin.ofNat (NDIRECT + 1) k)) = (ino i).addr k := rfl
  refine wp_ite (fun hz => ?_) fun hne => ?_
  · rw [missing_singleton_of_eq (hslot.trans hz)] at hfull hok
    rw [wp_bind]
    apply balloc_wp_or hout
    · intro hall
      apply hfull
      rw [freeBlocks_eq_zero hall]
      exact Nat.zero_lt_one
    · intro _ n hlt hfree
      have hP := hok _ _ (h.grown_addr hl hk hz hlt hfree)
      rw [addr_setAddr_self] at hP
      exact hP
  · rw [missing_singleton_of_ne (by rwa [hslot])] at hok
    exact hok s (ino i) h.grown_refl

theorem entryOrAlloc_wp_grown (h : s.Owned ds ino) (hl : s.Live ino i)
    (hind : (ino i).addr NDIRECT ≠ 0) (hout : s.current = none → E .outsideOfTrans s)
    (hfull : s.freeBlocks < (s.missing (ino i) {.entry m}).card → E .ballocOutOfBlocks s)
    (hok : ∀ s', Grown s ds ino i s' (ino i) (s.missing (ino i) {.entry m}) →
      P (s'.slot (ino i) (.entry m)) s') : wp (entryOrAlloc ((ino i).addr NDIRECT) m) P E s := by
  have hslot : s.slot (ino i) (.entry m) = s.cache ((ino i).addr NDIRECT) m := Fs.slot_entry hind
  simp only [entryOrAlloc, wp_bind, bread_wp]
  refine wp_ite (fun hz => ?_) fun hne => ?_
  · rw [missing_singleton_of_eq (hslot.trans hz)] at hfull hok
    rw [wp_bind]
    apply balloc_wp_or hout
    · intro hall
      apply hfull
      rw [freeBlocks_eq_zero hall]
      exact Nat.zero_lt_one
    · intro hc n hlt hfree
      have hP := hok _ (h.grown_entry hl hind hz hlt hfree)
      rw [Fs.slot_entry hind, Fs.logged_cache, update_self, update_self] at hP
      have hkeep := h.cache_allocBlock_slot (p := .indirect) hlt hfree hl hind
      rw [Fs.slot_indirect] at hkeep
      simp only [wp_bind, bread_wp, hkeep]
      exact logWrite_wp (Fs.allocBlock_current hc) hP
  · rw [missing_singleton_of_ne (by rwa [hslot])] at hok
    have hP := hok s (by simpa using h.grown_refl (i := i))
    rw [hslot] at hP
    exact hP

/-- Behind the direct blocks, the way to a block has two places. -/
theorem missing_path (hd : ¬ bn < NDIRECT) : s.missing ip (Place.path bn) =
        s.missing ip {Place.indirect} ∪ s.missing ip {Place.ofIndex bn} ∧
      (s.missing ip (Place.path bn)).card =
        (s.missing ip {Place.indirect}).card + (s.missing ip {Place.ofIndex bn}).card := by
  have hpath : Place.path bn = {Place.indirect, Place.ofIndex bn} := if_neg hd
  have hunion : s.missing ip (Place.path bn) =
      s.missing ip {Place.indirect} ∪ s.missing ip {Place.ofIndex bn} := by
    unfold Fs.missing
    rw [hpath, ← filter_union]
    rfl
  have hdisj : Disjoint (s.missing ip {Place.indirect}) (s.missing ip {Place.ofIndex bn}) := by
    refine disjoint_filter_filter ?_
    rw [disjoint_singleton]
    exact Place.ofIndex_ne_indirect.symm
  exact ⟨hunion, by rw [hunion]; exact card_union_of_disjoint hdisj⟩

section

variable {s₁ : Fs} {ip₁ : Inode}

variable (h : Grown s ds ino i s₁ ip₁ (s.missing (ino i) {Place.indirect}))

include h

/-- After the first place has been filled, there is an indirect block. -/
theorem Grown.addr_ne_zero : ip₁.addr NDIRECT ≠ 0 := by
  by_cases hz : s.slot (ino i) Place.indirect = 0
  · exact h.filled Place.indirect (mem_filter.mpr ⟨mem_singleton_self _, hz⟩)
  · have hold := h.old Place.indirect fun hcon => hz (missing_eq_zero hcon)
    exact fun hcon => hz (hold ▸ hcon)

theorem Grown.missing_ofIndex :
    s₁.missing ip₁ {Place.ofIndex bn} = s.missing (ino i) {Place.ofIndex bn} := by
  refine filter_congr fun p hp => ?_
  rw [h.old p]
  intro hcon
  have hpi := mem_singleton.mp (mem_filter.mp hcon).1
  rw [mem_singleton.mp hp] at hpi
  exact Place.ofIndex_ne_indirect hpi

/-- Both places of the way have been filled. -/
theorem Grown.path (hl : s.Live ino i) (hd : ¬ bn < NDIRECT)
    (h' : Grown s₁ ds (update ino i ip₁) i s₂ ip₁ (s₁.missing ip₁ {Place.ofIndex bn})) :
    Grown s ds ino i s₂ ip₁ (s.missing (ino i) (Place.path bn)) := by
  have htrans := h.trans hl h' (fun p hp => missing_eq_zero hp) fun p hp => (mem_filter.mp hp).2
  rwa [h.missing_ofIndex, ← (missing_path hd).1] at htrans

end

/-- `bmap` fills the places on its way and returns the block that is then there. -/
theorem bmap_wp_grown (h : s.Owned ds ino) (hl : s.Live ino i) (hbn : bn < MAXFILE)
    (hout : s.current = none → ∀ t, E .outsideOfTrans t)
    (hfull : s.freeBlocks < (s.missing (ino i) (Place.path bn)).card → ∀ t, E .ballocOutOfBlocks t)
    (hok : ∀ s' ip', Grown s ds ino i s' ip' (s.missing (ino i) (Place.path bn)) →
      P (s'.slot ip' (Place.ofIndex bn), ip') s') : wp (bmap (ino i) bn) P E s := by
  have hmax : MAXFILE = NDIRECT + NINDIRECT := rfl
  refine wp_ite (fun hd => ?_) fun hd => ?_
  · have hpath : Place.path bn = {.addr (Fin.ofNat (NDIRECT + 1) bn)} := by
      unfold Place.path Place.ofIndex
      rw [if_pos hd, if_pos hd]
    rw [hpath] at hfull hok
    refine addrOrAlloc_wp_grown h hl (Nat.le_of_lt hd) (fun hc => hout hc s)
      (fun hf => hfull hf s) ?_
    intro s' ip' hgrown
    have hP := hok s' ip' hgrown
    unfold Place.ofIndex at hP
    rw [if_pos hd] at hP
    exact hP
  · rw [if_pos (show bn - NDIRECT < NINDIRECT by omega), wp_bind]
    have hindex : Place.ofIndex bn = .entry (Fin.ofNat NINDIRECT (bn - NDIRECT)) := if_neg hd
    have hcard : (s.missing (ino i) (Place.path bn)).card = _ := (missing_path hd).2
    refine addrOrAlloc_wp_grown h hl (Nat.le_refl _) (fun hc => hout hc s) (fun hf => hfull ?_ s) ?_
    · exact Nat.lt_of_lt_of_le hf (by rw [hcard]; exact Nat.le_add_right _ _)
    intro s₁ ip₁ hg₁
    have hino₁ : update ino i ip₁ i = ip₁ := update_self ..
    have hentry := entryOrAlloc_wp_grown (m := Fin.ofNat NINDIRECT (bn - NDIRECT))
      (P := fun addr t => P (addr, ip₁) t) (E := E) hg₁.owned (hg₁.live_iff.mpr hl)
    rw [hino₁, ← hindex] at hentry
    rw [wp_bind]
    refine hentry hg₁.addr_ne_zero (fun hc => hout (hg₁.setup.current.mp hc) s₁)
      (fun hf => hfull ?_ s₁) fun s₂ hg₂ => hok s₂ ip₁ (hg₁.path hl hd hg₂)
    have hfree := hg₁.free
    rw [hg₁.missing_ofIndex] at hf
    rw [hcard]
    change _ + (s.missing (ino i) {Place.indirect}).card = _ at hfree
    omega

end

end Xv6Kernel
