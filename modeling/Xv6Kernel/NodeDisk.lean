/-
  NodeDisk.lean
  =============
  What the functions of `fs.c` do to the disk, seen as an array of inodes with bytes.

  `NodeDisk s ds ino disk pinned` relates a disk to such an array.  `ino` has the inodes with
  their blocks: for an inode that is not pinned it is the one on the disk, and for a pinned
  one it may have blocks that only the copy in memory knows.
-/
import Xv6Kernel.KernelSpec
import Xv6Kernel.Truncate

namespace Xv6Kernel

open PanicMonad Function List

/-! ### The relation -/

structure NodeDisk (s : Fs) (ds : Nat) (ino : Nat → Inode) (disk : Nat → Node)
    (pinned : Nat → Bool) : Prop where
  owned : s.Owned ds ino
  same : ∀ i, i < s.sb.ninodes → pinned i = false → ino i = s.dinode i
  fields : ∀ i, i < s.sb.ninodes →
    (ino i).fields = (disk i).fields ∧ (s.dinode i).fields = (disk i).fields
  size : ∀ i, i < s.sb.ninodes → (s.dinode i).size = (ino i).size
  full : ∀ i, s.Live ino i → pinned i = false → s.Full (ino i)
  max : ∀ i, s.Live ino i → (ino i).size ≤ MAXFILE * BSIZE
  bytes : ∀ i, s.Live ino i → (disk i).bytes = (List.range (ino i).size).map (s.byteAt (ino i))

/-- Inode `i` has become `ip'` with the contents `n`, and the others are as before. -/
structure NodeStep (s : Fs) (ds : Nat) (ino : Nat → Inode) (disk : Nat → Node)
    (pinned : Nat → Bool) (i : Nat) (s' : Fs) (ip' : Inode) (n : Node) : Prop where
  rep : NodeDisk s' ds (update ino i ip') (update disk i n) pinned
  others : ∀ j, j ≠ i → j < s.sb.ninodes → s'.dinode j = s.dinode j
  setup : s.SameSetup s'

/-- `mem` is inode `i` in memory, where the fields may be ahead of the disk. -/
structure InMemory (ino : Nat → Inode) (i : Nat) (mem : Inode) : Prop where
  inum : mem.inum = i
  size : mem.size = (ino i).size
  addrs : mem.addrs = (ino i).addrs

section

variable {s s' : Fs} {ds i j k : Nat} {ino : Nat → Inode} {disk : Nat → Node}
  {pinned : Nat → Bool} {mem ip' : Inode} {n : Node} {E : FsPanic → Fs → Prop}

namespace NodeDisk

variable (h : NodeDisk s ds ino disk pinned)

include h

theorem type_eq (hi : i < s.sb.ninodes) : (ino i).type = (disk i).fields.type :=
  congrArg InodeFields.type (h.fields i hi).1

theorem live_iff : s.Live ino i ↔ i < s.sb.ninodes ∧ (disk i).fields.type ≠ .free :=
  and_congr_right fun hi => by rw [h.type_eq hi]

theorem length_bytes (hl : s.Live ino i) : (disk i).bytes.length = (ino i).size := by
  rw [h.bytes i hl, length_map, length_range]

theorem refl : NodeStep s ds ino disk pinned i s (ino i) (disk i) := by
  refine ⟨?_, fun _ _ _ => rfl, .refl s⟩
  rw [update_eq_self, update_eq_self]
  exact h

/-- What has to be shown for a function that works on one inode. -/
theorem step (howned : s'.Owned ds (update ino i ip')) (hsetup : s.SameSetup s')
    (hothers : ∀ j, j ≠ i → j < s.sb.ninodes → s'.dinode j = s.dinode j)
    (hslot : ∀ j, j ≠ i → s.Live ino j → ∀ p, s'.slot (ino j) p = s.slot (ino j) p)
    (hbyte : ∀ j, j ≠ i → s.Live ino j → ∀ k, s'.byteAt (ino j) k = s.byteAt (ino j) k)
    (hsame : pinned i = false → ip' = s'.dinode i)
    (hfields : ip'.fields = n.fields ∧ (s'.dinode i).fields = n.fields)
    (hsize : (s'.dinode i).size = ip'.size)
    (hlive : ip'.type ≠ .free → (pinned i = false → s'.Full ip') ∧
      ip'.size ≤ MAXFILE * BSIZE ∧ n.bytes = (List.range ip'.size).map (s'.byteAt ip')) :
    NodeStep s ds ino disk pinned i s' ip' n := by
  have hother : ∀ j, j ≠ i → s'.Live (update ino i ip') j → s.Live ino j := by
    rintro j hj ⟨hlt, htype⟩
    rw [hsetup.sb] at hlt
    rw [update_of_ne hj] at htype
    exact ⟨hlt, htype⟩
  refine ⟨⟨howned, ?_, ?_, ?_, ?_, ?_, ?_⟩, hothers, hsetup⟩ <;> intro j hj
  · rw [hsetup.sb] at hj
    by_cases hji : j = i
    · rw [hji, update_self]
      exact hsame
    · rw [update_of_ne hji, hothers j hji hj]
      exact h.same j hj
  · rw [hsetup.sb] at hj
    by_cases hji : j = i
    · rw [hji, update_self, update_self]
      exact hfields
    · rw [update_of_ne hji, update_of_ne hji, hothers j hji hj]
      exact h.fields j hj
  · rw [hsetup.sb] at hj
    by_cases hji : j = i
    · rw [hji, update_self]
      exact hsize
    · rw [update_of_ne hji, hothers j hji hj]
      exact h.size j hj
  · by_cases hji : j = i
    · have htype := hj.2
      rw [hji, update_self] at htype ⊢
      exact (hlive htype).1
    · have hlj := hother j hji hj
      rw [update_of_ne hji]
      intro hp k hk
      rw [hslot j hji hlj]
      exact h.full j hlj hp k hk
  · by_cases hji : j = i
    · have htype := hj.2
      rw [hji, update_self] at htype ⊢
      exact (hlive htype).2.1
    · rw [update_of_ne hji]
      exact h.max j (hother j hji hj)
  · by_cases hji : j = i
    · have htype := hj.2
      rw [hji, update_self] at htype ⊢
      rw [update_self]
      exact (hlive htype).2.2
    · have hlj := hother j hji hj
      rw [update_of_ne hji, update_of_ne hji, h.bytes j hlj]
      exact map_congr_left fun k _ => (hbyte j hji hlj k).symm

/-- The blocks belong to the inode in memory just as well. -/
theorem owned_mem (hl : s.Live ino i) (hm : InMemory ino i mem) (htype : mem.type ≠ .free) :
    s.Owned ds (update ino i mem) := by
  refine h.owned.of_addrs ?_ ?_ ?_ <;> intro j <;> by_cases hj : j = i
  · rw [hj, update_self, hm.inum]
  · rw [update_of_ne hj, h.owned.inum]
  · rw [hj, update_self]
    exact iff_of_false htype hl.2
  · rw [update_of_ne hj]
  · rw [hj, update_self, hm.addrs]
  · rw [update_of_ne hj]

end NodeDisk

theorem live_update (hl : s.Live ino i) (htype : mem.type ≠ .free) :
    s.Live (update ino i mem) i := by
  refine ⟨hl.1, ?_⟩
  rwa [update_self]

theorem live_update_of_ne (hj : j ≠ i) (hl : s.Live ino j) : s.Live (update ino i mem) j := by
  refine ⟨hl.1, ?_⟩
  rw [update_of_ne hj]
  exact hl.2

theorem Fs.Full.of_size {ip : Inode} (h : s.Full ip) (hsize : mem.size = ip.size)
    (hslot : ∀ p, s'.slot mem p = s.slot ip p) : s'.Full mem := by
  intro k hk
  rw [hslot]
  exact h k (by rwa [← hsize])

/-! ### `iupdate` -/

/-- Writing an inode whose blocks are placed already. -/
theorem NodeDisk.setDinode (h : NodeDisk s ds ino disk pinned) (hi : i < s.sb.ninodes)
    (howned : s.Owned ds (update ino i mem)) (hinum : mem.inum = i)
    (hfields : mem.fields = n.fields) (hsmall : mem.size ≤ MAXFILE * BSIZE)
    (hlive : mem.type ≠ .free → (pinned i = false → s.Full mem) ∧
      n.bytes = (List.range mem.size).map (s.byteAt mem)) :
    NodeStep s ds ino disk pinned i (s.setDinode mem) mem n := by
  have hlt : MAXFILE * BSIZE < 2 ^ 32 := by decide
  have hmem : mem.inum < s.sb.ninodes := by rwa [hinum]
  have hdinode : ∀ j, j < s.sb.ninodes → (s.setDinode mem).dinode j = update s.dinode i mem j := by
    intro j hj
    rw [Fs.dinode_setDinode h.owned.formatted.geo hmem (by omega) hj, hinum]
  have hself : (s.setDinode mem).dinode i = mem := by rw [hdinode i hi, update_self]
  refine h.step (howned.setDinode hmem) .logged ?_ ?_ ?_ ?_ ?_ ?_ ?_
  · intro j hji hj
    rw [hdinode j hj, update_of_ne hji]
  · intro j _ hj p
    exact h.owned.slot_setDinode hmem hj
  · intro j _ hj k
    exact h.owned.byteAt_setDinode hmem hj
  · intro _
    exact hself.symm
  · rw [hself]
    exact ⟨hfields, hfields⟩
  · rw [hself]
  · intro htype
    obtain ⟨hfull, hbytes⟩ := hlive htype
    have hl : s.Live (update ino i mem) i := ⟨hi, by rwa [update_self]⟩
    have hslot : ∀ p, (s.setDinode mem).slot mem p = s.slot mem p := by
      intro p
      have hs := howned.slot_setDinode (p := p) hmem hl
      rwa [update_self] at hs
    have hbyte : ∀ k, (s.setDinode mem).byteAt mem k = s.byteAt mem k := by
      intro k
      have hb := howned.byteAt_setDinode (k := k) hmem hl
      rwa [update_self] at hb
    refine ⟨fun hp => (hfull hp).of_size rfl hslot, hsmall, ?_⟩
    rw [hbytes]
    exact map_congr_left fun k _ => (hbyte k).symm

theorem iupdate_wp_node {P : Unit → Fs → Prop} (h : NodeDisk s ds ino disk pinned)
    (hl : s.Live ino i) (hm : InMemory ino i mem) (htype : mem.type ≠ .free)
    (hout : ∀ t, E .outsideOfTrans t)
    (hok : ∀ s', NodeStep s ds ino disk pinned i s' mem { disk i with fields := mem.fields } →
      P () s') : wp (iupdate mem) P E s := by
  refine iupdate_wp_or (fun _ => hout s) fun _ => hok _ ?_
  refine h.setDinode hl.1 (h.owned_mem hl hm htype) hm.inum rfl ?_ fun _ => ⟨fun hp => ?_, ?_⟩
  · rw [hm.size]
    exact h.max i hl
  · exact (h.full i hl hp).of_size hm.size fun p => Fs.slot_of_addrs hm.addrs
  · rw [hm.size]
    exact (h.bytes i hl).trans (map_congr_left fun k _ => (Fs.byteAt_of_addrs hm.addrs).symm)

/-! ### Freeing an inode -/

/-- The inode that is left. -/
def Inode.freed (ip : Inode) : Inode := { ip.truncated with type := .free }

theorem slot_truncated {ip : Inode} {p : Place} (h : ip.addrs = fun _ => 0) : s.slot ip p = 0 := by
  cases p with
  | addr m => exact congrFun h m
  | entry m => exact Fs.slot_entry_of_zero (congrFun h _)

/-- An inode without blocks may become another one. -/
theorem Fs.Owned.of_empty {ip : Inode} (h : s.Owned ds ino) (hnone : ∀ p, s.owner ino (i, p) = none)
    (hinum : ip.inum = i) (haddrs : ip.addrs = fun _ => 0) :
    s.Owned ds (update ino i ip) := by
  have howner : s.owner (update ino i ip) = s.owner ino := by
    funext x
    obtain ⟨j, p⟩ := x
    by_cases hj : j = i
    · rw [hj, hnone, Fs.owner_of_slot_zero]
      rw [update_self]
      exact slot_truncated haddrs
    · refine if_congr ?_ ?_ rfl
      · unfold Fs.Live
        rw [update_of_ne hj]
      · rw [update_of_ne hj]
  refine ⟨h.formatted, ?_, howner ▸ h.exact⟩
  intro j
  by_cases hj : j = i
  · rw [hj, update_self, hinum]
  · rw [update_of_ne hj]
    exact h.inum j

/-- `itrunc` leaves the blocks of the other inodes alone. -/
theorem Emptied.slot_of_ne (h : Emptied s ds ino i s') (ho : s.Owned ds ino) (hl : s.Live ino j)
    (p : Place) : s'.slot (ino j) p = s.slot (ino j) p :=
  Fs.slot_congr fun hind => h.data _ (ho.data (p := .indirect) hl hind).1

theorem Emptied.byteAt_of_ne (h : Emptied s ds ino i s') (ho : s.Owned ds ino) (hl : s.Live ino j)
    (k : Nat) : s'.byteAt (ino j) k = s.byteAt (ino j) k :=
  Fs.byteAt_congr (h.slot_of_ne ho hl _) fun hne => h.data _ (ho.data hl hne).1

section

variable (h : NodeDisk s ds ino disk pinned)

include h

/-- After `itrunc` the inode is empty. -/
theorem Emptied.step (hl : s.Live ino i) (hm : InMemory ino i mem) (htype : mem.type ≠ .free)
    (he : Emptied s ds (update ino i mem) i s') :
    NodeStep s ds ino disk pinned i s' mem.truncated ⟨mem.fields, []⟩ := by
  have hown := h.owned_mem hl hm htype
  have howned := he.owned
  rw [update_self, update_idem] at howned
  have hdinode : ∀ j, j < s.sb.ninodes → s'.dinode j = update s.dinode i mem.truncated j := by
    intro j hj
    rw [he.dinode j hj, update_self]
  have hself : s'.dinode i = mem.truncated := by rw [hdinode i hl.1, update_self]
  refine h.step howned he.setup ?_ ?_ ?_ (fun _ => hself.symm) ?_ (by rw [hself]) ?_
  · intro j hji hj
    rw [hdinode j hj, update_of_ne hji]
  · intro j hji hj p
    have hs := he.slot_of_ne hown (live_update_of_ne hji hj) p
    rwa [update_of_ne hji] at hs
  · intro j hji hj k
    have hb := he.byteAt_of_ne hown (live_update_of_ne hji hj) k
    rwa [update_of_ne hji] at hb
  · rw [hself]
    exact ⟨rfl, rfl⟩
  · intro _
    exact ⟨fun _ k hk => absurd hk (Nat.not_lt_zero _), Nat.zero_le _, rfl⟩

theorem ifree_wp {P : Unit × Inode → Fs → Prop}
    (hl : s.Live ino i) (hm : InMemory ino i mem) (htype : mem.type ≠ .free)
    (hout : ∀ t, E .outsideOfTrans t) (hok : ∀ s', NodeStep s ds ino disk pinned i s' mem.freed
      ⟨{ mem.fields with type := .free }, []⟩ → P ((), mem.freed) s') :
    wp (ifree mem) P E s := by
  have htrunc := itrunc_wp (P := fun ip t => wp (do
      let ip := { ip with type := .free }
      iupdate ip
      return ((), ip)) P E t) (h.owned_mem hl hm htype) (live_update hl htype) fun _ => hout
  rw [update_self] at htrunc
  unfold ifree
  rw [wp_bind]
  refine htrunc fun s₁ he => ?_
  have hstep := he.step h hl hm htype
  have hsb := hstep.setup.sb
  simp only [wp_bind]
  refine iupdate_wp_or (fun _ => hout s₁) fun _ => hok _ ?_
  have hi : i < s₁.sb.ninodes := by
    rw [hsb]
    exact hl.1
  have howned : s₁.Owned ds (update (update ino i mem.truncated) i mem.freed) := by
    refine hstep.rep.owned.of_empty (fun p => Fs.owner_of_slot_zero ?_) hm.inum rfl
    rw [update_self]
    exact slot_truncated rfl
  have hlast := hstep.rep.setDinode (n := ⟨{ mem.fields with type := .free }, []⟩) hi howned hm.inum
    rfl (Nat.zero_le _) fun hcon => absurd rfl hcon
  refine ⟨?_, ?_, hstep.setup.trans hlast.setup⟩
  · have hrep := hlast.rep
    rwa [update_idem, update_idem] at hrep
  · intro j hji hj
    exact (hlast.others j hji (by rwa [hsb])).trans (hstep.others j hji hj)

/-! ### `ialloc` -/

theorem iallocTry_wp_node {P : Bool → Fs → Prop} {type : InodeType} (hi : i < s.sb.ninodes)
    (hout : ∀ t, E .outsideOfTrans t) (htaken : (disk i).fields.type ≠ .free → P false s)
    (hfree : ∀ s', (disk i).fields.type = .free → s'.dinode i = Inode.fresh i type →
      NodeStep s ds ino disk pinned i s' (Inode.fresh i type) (Spec.freshNode type) → P true s') :
    wp (iallocTry type i) P E s := by
  have hdisk : (s.dinode i).type = (disk i).fields.type :=
    congrArg InodeFields.type (h.fields i hi).2
  refine iallocTry_wp (fun _ => hout s) (fun htype => htaken (hdisk ▸ htype)) fun _ htype => ?_
  rw [hdisk] at htype
  refine hfree _ htype ?_ ?_
  · have hsmall : (Inode.fresh i type).size < 2 ^ 32 := Nat.two_pow_pos 32
    exact Fs.dinode_setDinode_self hsmall
  have hnone : ∀ p, s.owner ino (i, p) = none := by
    intro p
    refine if_neg fun hcon => hcon.1.2 ?_
    rw [h.type_eq hi, htype]
  have howned : s.Owned ds (update ino i (Inode.fresh i type)) := h.owned.of_empty hnone rfl rfl
  exact h.setDinode hi howned rfl rfl (Nat.zero_le _) fun _ =>
    ⟨fun _ k hk => absurd hk (Nat.not_lt_zero _), rfl⟩

/-! ### `readi` and `writei` -/

/-- An inode whose copy in memory is ahead. -/
theorem NodeDisk.pin : NodeDisk s ds ino disk (update pinned i true) := by
  have hpin : ∀ j, update pinned i true j = false → pinned j = false := by
    intro j hj
    by_cases hji : j = i
    · rw [hji, update_self] at hj
      cases hj
    · rwa [update_of_ne hji] at hj
  exact { h with
    same := fun j hj hp => h.same j hj (hpin j hp)
    full := fun j hj hp => h.full j hj (hpin j hp) }

end

/-- The copy on the disk has caught up. -/
theorem NodeDisk.unpin (h : NodeDisk s ds ino disk (update pinned i true))
    (hsame : ino i = s.dinode i) (hfull : pinned i = false → s.Full (ino i)) :
    NodeDisk s ds ino disk pinned := by
  refine { h with same := fun j hj hp => ?_, full := fun j hj hp => ?_ }
  · by_cases hji : j = i
    · rw [hji, hsame]
    · exact h.same j hj (by rwa [update_of_ne hji])
  · by_cases hji : j = i
    · rw [hji] at hp ⊢
      exact hfull hp
    · exact h.full j hj (by rwa [update_of_ne hji])

variable {Q : Finset Place} {f : Nat → Byte} {off m : Nat}

/-- The inode on the disk is not written: a pinned inode may have new blocks in memory. -/
theorem Wrote.step_stay (hw : Wrote s ds (update ino i mem) i s' ip' Q f)
    (h : NodeDisk s ds ino disk pinned) (hl : s.Live ino i) (hm : InMemory ino i mem)
    (htype : mem.type ≠ .free) (hQ : pinned i = false → Q = ∅) :
    NodeStep s ds ino disk pinned i s' { ino i with addrs := ip'.addrs }
      ⟨(disk i).fields, (List.range (ino i).size).map f⟩ := by
  have hmax := h.max i hl
  have howned := hw.owned
  rw [update_idem] at howned
  have htype' : ip'.type ≠ .free := by
    rw [hw.keeps, update_self]
    exact htype
  have hself : s'.dinode i = s.dinode i := hw.dinode i hl.1
  refine h.step ?_ hw.setup (fun j _ hj => hw.dinode j hj) ?_ ?_ ?_ ?_ ?_ ?_
  · refine howned.of_addrs ?_ ?_ ?_ <;> intro j <;> by_cases hj : j = i
    · rw [hj, update_self]
      exact h.owned.inum i
    · rw [update_of_ne hj, h.owned.inum]
    · rw [hj, update_self, update_self]
      exact iff_of_false hl.2 htype'
    · rw [update_of_ne hj, update_of_ne hj]
    · rw [hj, update_self, update_self]
    · rw [update_of_ne hj, update_of_ne hj]
  · intro j hji hj p
    have hs := hw.others j hji (live_update_of_ne hji hj) p
    rwa [update_of_ne hji] at hs
  · intro j hji hj k
    have hb := hw.otherBytes j hji (live_update_of_ne hji hj) k
    rwa [update_of_ne hji] at hb
  · intro hp
    have hip := hw.toPlaced
    rw [hQ hp] at hip
    rw [hip.eq_of_empty, update_self, hm.addrs, hself]
    exact h.same i hl.1 hp
  · rw [hself]
    exact h.fields i hl.1
  · rw [hself]
    exact h.size i hl.1
  · intro _
    refine ⟨fun hp => (h.full i hl hp).of_size rfl fun p => ?_, hmax, ?_⟩
    · have hip := hw.toPlaced
      rw [hQ hp] at hip
      have hold := hip.old p (Finset.notMem_empty p)
      rw [update_self] at hold
      rw [← Fs.slot_of_addrs hm.addrs, ← hold]
      exact Fs.slot_of_addrs rfl
    · refine map_congr_left fun k hk => ?_
      have hlt := mem_range.mp hk
      rw [← hw.bytes k (by omega)]
      exact (Fs.byteAt_of_addrs rfl).symm

/-- The inode on the disk is written, with a new size. -/
theorem Wrote.step_grow (hw : Wrote s ds (update ino i mem) i s' ip'
      (s.missing mem (Fs.touched off m)) f)
    (h : NodeDisk s ds ino disk pinned) (hl : s.Live ino i) (hm : InMemory ino i mem)
    (htype : mem.type ≠ .free) (hoff : off ≤ mem.size) (hmax : off + m ≤ MAXFILE * BSIZE) :
    NodeStep s ds ino disk pinned i (s'.setDinode { ip' with size := off + m })
      { ip' with size := off + m } ⟨mem.fields, (List.range (off + m)).map f⟩ := by
  have hstay := hw.step_stay h.pin hl hm htype fun hp => by
    rw [update_self] at hp
    cases hp
  have hkeeps := hw.keeps
  rw [update_self] at hkeeps
  obtain ⟨ip'', hip''⟩ : ∃ ip'' : Inode, ip'' = { ip' with size := off + m } := ⟨_, rfl⟩
  have haddrs : ip''.addrs = ip'.addrs := by rw [hip'']
  have hsize : ip''.size = off + m := by rw [hip'']
  have hinum : ip''.inum = i := by
    rw [hip'', hkeeps]
    exact hm.inum
  have hfields : ip''.fields = mem.fields := by
    rw [hip'', hkeeps]
    rfl
  have htype'' : ip''.type ≠ .free := by
    rw [hip'', hkeeps]
    exact htype
  have hi : i < s'.sb.ninodes := by
    rw [hw.setup.sb]
    exact hl.1
  rw [← hip'']
  have howned : s'.Owned ds (update (update ino i { ino i with addrs := ip'.addrs }) i ip'') := by
    refine hstay.rep.owned.of_addrs ?_ ?_ ?_ <;> intro j <;> by_cases hj : j = i
    · rw [hj, update_self, hinum]
    · rw [update_of_ne hj, update_of_ne hj, h.owned.inum]
    · rw [hj, update_self, update_self]
      exact iff_of_false htype'' hl.2
    · rw [update_of_ne hj]
    · rw [hj, update_self, update_self, haddrs]
    · rw [update_of_ne hj]
  have hbytes : (List.range (off + m)).map f = (List.range ip''.size).map (s'.byteAt ip'') := by
    rw [hsize]
    refine map_congr_left fun k hk => ?_
    have hlt := mem_range.mp hk
    rw [← hw.bytes k (by omega)]
    exact (Fs.byteAt_of_addrs haddrs).symm
  have hpin : ¬ update pinned i true i = false := by
    rw [update_self]
    exact nofun
  have hstep := hstay.rep.setDinode (n := ⟨mem.fields, (List.range (off + m)).map f⟩) hi howned
    hinum hfields (by omega) fun _ => ⟨fun hp => absurd hp hpin, hbytes⟩
  have hrep := hstep.rep
  rw [update_idem, update_idem] at hrep
  have hself : (s'.setDinode ip'').dinode i = ip'' := by
    rw [Fs.dinode_setDinode hstay.rep.owned.formatted.geo (by rwa [hinum])
      (by rw [hsize]; exact Nat.lt_of_le_of_lt hmax (by decide)) hi, hinum, update_self]
  refine ⟨hrep.unpin ?_ ?_, ?_, hstay.setup.trans hstep.setup⟩
  · rw [update_self, hself]
  · intro hp
    rw [update_self]
    have hold : s.Full mem := (h.full i hl hp).of_size hm.size fun p => Fs.slot_of_addrs hm.addrs
    have hmid : s'.Full ip'' := by
      have hpl : Placed s ds (update ino i mem) i s' ip'
          (s.missing (update ino i mem i) (Fs.touched off m)) := by
        rw [update_self]
        exact hw.toPlaced
      rw [hip'']
      refine hpl.full_of_grow ?_ ?_ hmax
      · rwa [update_self]
      · rwa [update_self]
    refine Fs.Full.of_size hmid rfl fun p => ?_
    have hmem : ip''.inum < s'.sb.ninodes := by rwa [hinum]
    have hlive : s'.Live (update (update ino i { ino i with addrs := ip'.addrs }) i ip'') i :=
      ⟨hi, by rwa [update_self]⟩
    have hs := howned.slot_setDinode (p := p) hmem hlive
    rwa [update_self] at hs
  · intro j hji hj
    exact (hstep.others j hji (by rwa [hw.setup.sb])).trans (hstay.others j hji hj)

/-- `mem` has become `mem'`, which has the blocks of `ip'`. -/
structure SameInode (mem mem' ip' : Inode) : Prop where
  inum : mem'.inum = mem.inum
  fields : mem'.fields = mem.fields
  size : mem'.size = ip'.size
  addrs : mem'.addrs = ip'.addrs

variable (h : NodeDisk s ds ino disk pinned) (hl : s.Live ino i) (hm : InMemory ino i mem)
  (htype : mem.type ≠ .free)

include h hl hm htype

variable (hdev : mem.type ≠ .dev) (hoff : off < 2 ^ 32) (hm32 : m < 2 ^ 32)
  (hout : ∀ t, E .outsideOfTrans t)

include hdev hoff hm32 hout

theorem readi_wp_node {P : Int × List Byte × Inode → Fs → Prop}
    (hfull : ∀ t, E .ballocOutOfBlocks t)
    (hok : ∀ s' ip' mem', NodeStep s ds ino disk pinned i s' ip' (disk i) → SameInode mem mem' ip' →
      P (((disk i).bytes.read off m).1, ((disk i).bytes.read off m).2, mem') s') :
    wp (readi mem off m) P E s := by
  have hlen := h.length_bytes hl
  suffices hread : wp (readi (update ino i mem i) off m) P E s by
    rwa [update_self] at hread
  refine readi_wp_wrote (h.owned_mem hl hm htype) (live_update hl htype) ?_ ?_ hoff hm32
    (fun _ => hout) hfull ?_ ?_ <;> rw [update_self]
  · rw [hm.size]
    exact h.max i hl
  · exact hdev
  · intro hbad
    have hP := hok s (ino i) mem h.refl ⟨rfl, rfl, hm.size, hm.addrs⟩
    unfold Bytes.read at hP
    rwa [hlen, ← hm.size, if_pos hbad] at hP
  · intro s' ip' hle hlt hw
    have hstep := hw.step_stay h hl hm htype fun hp =>
      ((h.full i hl hp).of_size hm.size fun p => Fs.slot_of_addrs hm.addrs).missing_eq_empty
        (by omega)
    have hnode : (⟨(disk i).fields, (List.range (ino i).size).map (s.byteAt mem)⟩ : Node) =
        disk i := by
      rw [map_congr_left fun k _ => Fs.byteAt_of_addrs hm.addrs, ← h.bytes i hl]
    rw [hnode] at hstep
    have hkeeps := hw.keeps
    rw [update_self] at hkeeps
    have hP := hok s' _ ip' hstep
      ⟨by rw [hkeeps], by rw [hkeeps]; rfl, by rw [hkeeps]; exact hm.size,
      rfl⟩
    unfold Bytes.read at hP
    rw [hlen, ← hm.size, if_neg (by omega), h.bytes i hl, drop_take_map_range, length_map,
      length_range, ← hm.size] at hP
    rw [map_congr_left fun k _ => Fs.byteAt_of_addrs hm.addrs]
    exact hP

theorem writei_wp_node {P : Int × Inode → Fs → Prop} {src : Nat → Byte}
    (hfull : ∀ t, E .ballocOutOfBlocks t)
    (hok : ∀ s' ip' mem', NodeStep s ds ino disk pinned i s' ip'
        ⟨if (disk i).bytes.length < ((disk i).bytes.write src off m).2.length then mem.fields
          else (disk i).fields, ((disk i).bytes.write src off m).2⟩ →
      SameInode mem mem' ip' → P (((disk i).bytes.write src off m).1, mem') s') :
    wp (writei mem src off m) P E s := by
  have hlen := h.length_bytes hl
  by_cases hbad : mem.size < off ∨ 2 ^ 32 ≤ off + m ∨ MAXFILE * BSIZE < off + m
  · refine wp_of_ok (writei_fails hdev hoff hm32 hbad) ?_
    have hwrite : (disk i).bytes.write src off m = (-1, (disk i).bytes) :=
      if_pos (by rwa [hlen, ← hm.size])
    rw [hwrite, if_neg (Nat.lt_irrefl _)] at hok
    exact hok s (ino i) mem h.refl ⟨rfl, rfl, hm.size, hm.addrs⟩
  · have hbytes : ((disk i).bytes.write src off m).2 =
        (List.range (max mem.size (off + m))).map (overlay (s.byteAt mem) off m src) := by
      unfold Bytes.write
      rw [if_neg (by rwa [hlen, ← hm.size]), map_overlay (by omega), h.bytes i hl, hm.size,
        map_congr_left fun k _ => (Fs.byteAt_of_addrs hm.addrs).symm]
    have hval : ((disk i).bytes.write src off m).1 = m := by
      unfold Bytes.write
      rw [if_neg (by rwa [hlen, ← hm.size])]
    have hnew : ((disk i).bytes.write src off m).2.length = max mem.size (off + m) := by
      rw [hbytes, length_map, length_range]
    rw [hval, hnew, hlen, ← hm.size] at hok
    suffices hwrite : wp (writei (update ino i mem i) src off m) P E s by
      rwa [update_self] at hwrite
    refine writei_wp_wrote (h.owned_mem hl hm htype) (live_update hl htype)
      (by rwa [update_self]) (by rw [update_self]; omega) (by omega)
      (fun _ => hout) (fun _ => hfull) ?_
    rw [update_self]
    intro s' ip' hw
    have hkeeps := hw.keeps
    rw [update_self] at hkeeps
    have hsame : ip'.inum = mem.inum ∧ ip'.fields = mem.fields ∧ ip'.size = mem.size := by
      rw [hkeeps]
      exact ⟨rfl, rfl, rfl⟩
    by_cases hg : 0 < m ∧ mem.size < off + m
    · rw [if_pos hg]
      have hstep := hw.step_grow h hl hm htype (by omega) (by omega)
      have hsize : max mem.size (off + m) = off + m := by omega
      rw [hbytes, hsize, if_pos (by omega)] at hok
      exact hok _ _ _ hstep ⟨hsame.1, hsame.2.1, rfl, rfl⟩
    · rw [if_neg hg]
      have hsize : max mem.size (off + m) = mem.size := by omega
      have hstep := hw.step_stay h hl hm htype fun hp =>
        ((h.full i hl hp).of_size hm.size fun p => Fs.slot_of_addrs hm.addrs).missing_eq_empty
          (by omega)
      rw [hbytes, hsize, if_neg (Nat.lt_irrefl _), hm.size] at hok
      exact hok _ _ _ hstep ⟨hsame.1, hsame.2.1, hsame.2.2.trans hm.size, rfl⟩

end

end Xv6Kernel
