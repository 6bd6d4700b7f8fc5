/-
  Truncate.lean
  =============
  `itrunc` gives back the blocks of a file.

  While it runs, the entries of the indirect block name blocks that are free already, so
  the places of the inode are emptied one by one in the map of the owners only; when the
  indirect block is gone the inode agrees with that map again.
-/
import Xv6Kernel.FileStore

namespace Xv6Kernel

open PanicMonad Allocation Function List

/-! ### Only the free map changes -/

structure OnlyMap (s : Fs) (ds : Nat) (s' : Fs) : Prop where
  formatted : s'.Formatted ds
  data : ∀ x : BlockNo, ds ≤ x.toNat → s'.cache x = s.cache x
  dinode : ∀ j, j < s.sb.ninodes → s'.dinode j = s.dinode j
  setup : s.SameSetup s'

variable {P : Inode → Fs → Prop} {x : Nat × Place}

section

variable {s s₁ s₂ : Fs}

theorem OnlyMap.refl (h : s.Formatted ds) : OnlyMap s ds s :=
  ⟨h, fun _ _ => rfl, fun _ _ => rfl, .refl s⟩

theorem OnlyMap.trans (h : OnlyMap s ds s₁) (h' : OnlyMap s₁ ds s₂) : OnlyMap s ds s₂ where
  formatted := h'.formatted
  data := fun x hx => (h'.data x hx).trans (h.data x hx)
  dinode := fun j hj => (h'.dinode j (by rwa [h.setup.sb])).trans (h.dinode j hj)
  setup := h.setup.trans h'.setup

theorem Fs.Formatted.onlyMap_freeBlock (h : s.Formatted ds) (hlt : n < s.sb.size) (hds : ds ≤ n) :
    OnlyMap s ds (s.freeBlock n) where
  formatted := h.freeBlock hlt hds
  data := fun _ hx => update_of_ne (h.geo.data_ne_BBLOCK hx hlt) ..
  dinode := fun _ hj => Fs.dinode_logged (h.geo.BBLOCK_ne_IBLOCK hlt hj)
  setup := .logged

/-- `bfree` of the block that a place holds. -/
theorem bfree_wp_release {P : Unit → Fs → Prop} (hf : s.Formatted ds)
    (he : Exact (s.dataInUse ds) o) (hx : o x = some b.toNat)
    (hout : s.current = none → ∀ t, E .outsideOfTrans t)
    (hok : ∀ s', OnlyMap s ds s' → Exact (s'.dataInUse ds) (update o x none) → P () s') :
    wp (bfree b) P E s := by
  obtain ⟨hds, hlt, hbit⟩ := he.mem hx
  refine bfree_wp hf hbit (fun hc => hout hc s) fun _ => ?_
  refine hok _ (hf.onlyMap_freeBlock hlt hds) ?_
  rw [hf.dataInUse_freeBlock hlt]
  exact he.release hx

/-! ### The loops -/

theorem itruncDirect_wp :
    ∀ (ks : List Nat) (s : Fs) (o : Nat × Place → Option Nat) (ip : Inode), ks.Nodup →
      (∀ k ∈ ks, k < NDIRECT) → s.Formatted ds → Exact (s.dataInUse ds) o →
      (∀ k ∈ ks, o (i, .addr (Fin.ofNat (NDIRECT + 1) k)) =
        if ip.addr k = 0 then none else some (ip.addr k).toNat) →
      (s.current = none → ∀ t, E .outsideOfTrans t) →
      (∀ s' ip', OnlyMap s ds s' → Exact (s'.dataInUse ds)
          (clear o (ks.map fun k => (i, .addr (Fin.ofNat (NDIRECT + 1) k)))) →
        ip' = { ip with addrs := ip'.addrs } → (∀ k ∈ ks, ip'.addr k = 0) →
        (∀ k, k ≤ NDIRECT → k ∉ ks → ip'.addr k = ip.addr k) → P ip' s') →
      wp (itruncDirect ks ip) P E s := by
  intro ks
  induction ks with
  | nil =>
    intro s o ip _ _ hf he _ _ hok
    refine hok s ip (.refl hf) ?_ rfl (fun k hk => absurd hk not_mem_nil) fun _ _ _ => rfl
    rw [map_nil, clear_nil]
    exact he
  | cons k ks ih =>
    intro s o ip hnodup hlt hf he ho hout hok
    have hk : k < NDIRECT := hlt k mem_cons_self
    have hlt' : ∀ l ∈ ks, l < NDIRECT := fun l hl => hlt l (mem_cons_of_mem k hl)
    obtain ⟨hnotMem, hnodup'⟩ := nodup_cons.mp hnodup
    have hok' := ho k mem_cons_self
    refine wp_ite (fun hne => ?_) fun hz => ?_
    · rw [if_neg hne] at hok'
      rw [wp_bind]
      refine bfree_wp_release hf he hok' hout fun s₁ hs₁ he₁ => ?_
      have hkeep : ∀ l, l ≤ NDIRECT → l ≠ k → (ip.setAddr k 0).addr l = ip.addr l :=
        fun l hl hlk => addr_setAddr_of_ne (Nat.le_of_lt hk) hl hlk
      refine ih s₁ _ _ hnodup' hlt' hs₁.formatted he₁ ?_
        (fun hc => hout (hs₁.setup.current.mp hc)) ?_
      · intro l hl
        have hlk : l ≠ k := fun hcon => hnotMem (hcon ▸ hl)
        have hne' : ((i, Place.addr (Fin.ofNat (NDIRECT + 1) l)) : Nat × Place) ≠
            (i, .addr (Fin.ofNat (NDIRECT + 1) k)) := by
          intro hcon
          have hval := congrArg Fin.val (Place.addr.inj (congrArg Prod.snd hcon))
          have hl' := hlt' l hl
          rw [Fin.val_ofNat, Fin.val_ofNat, Nat.mod_eq_of_lt (by omega),
            Nat.mod_eq_of_lt (by omega)] at hval
          exact hlk hval
        rw [update_of_ne hne', hkeep l (Nat.le_of_lt (hlt' l hl)) hlk]
        exact ho l (mem_cons_of_mem k hl)
      · intro s₂ ip₂ hs₂ he₂ hip₂ hzero hsame
        rw [clear_update] at he₂
        refine hok s₂ ip₂ (hs₁.trans hs₂) he₂ hip₂ ?_ ?_
        · intro l hl
          rcases mem_cons.mp hl with rfl | hl
          · rw [hsame l (Nat.le_of_lt hk) hnotMem, addr_setAddr_self]
          · exact hzero l hl
        · intro l hl hlks
          obtain ⟨hlk, hlks⟩ := not_or.mp (mt mem_cons.mpr hlks)
          rw [hsame l hl hlks, hkeep l hl hlk]
    · have hz : ip.addr k = 0 := Decidable.not_not.mp hz
      rw [if_pos hz] at hok'
      refine ih s o ip hnodup' hlt' hf he (fun l hl => ho l (mem_cons_of_mem k hl)) hout ?_
      intro s₂ ip₂ hs₂ he₂ hip₂ hzero hsame
      refine hok s₂ ip₂ hs₂ ?_ hip₂ ?_ fun l hl hlks =>
        hsame l hl fun hcon => hlks (mem_cons_of_mem k hcon)
      · rw [map_cons, clear_cons_of_none hok']
        exact he₂
      · intro l hl
        rcases mem_cons.mp hl with rfl | hl
        · rw [hsame l (Nat.le_of_lt hk) hnotMem, hz]
        · exact hzero l hl

theorem itruncEntries_wp {P : Unit → Fs → Prop} {a : Block} :
    ∀ (js : List (Fin NINDIRECT)) (s : Fs) (o : Nat × Place → Option Nat), js.Nodup →
      s.Formatted ds → Exact (s.dataInUse ds) o →
      (∀ j ∈ js, o (i, .entry j) = if a j = 0 then none else some (a j).toNat) →
      (s.current = none → ∀ t, E .outsideOfTrans t) →
      (∀ s', OnlyMap s ds s' →
        Exact (s'.dataInUse ds) (clear o (js.map fun j => (i, .entry j))) → P () s') →
      wp (itruncEntries a js) P E s := by
  intro js
  induction js with
  | nil =>
    intro s o _ hf he _ _ hok
    refine hok s (.refl hf) ?_
    rw [map_nil, clear_nil]
    exact he
  | cons j js ih =>
    intro s o hnodup hf he ho hout hok
    obtain ⟨hnotMem, hnodup'⟩ := nodup_cons.mp hnodup
    have hoj := ho j mem_cons_self
    simp only [itruncEntries]
    refine wp_ite (fun hne => ?_) fun hz => ?_
    · rw [if_neg hne] at hoj
      rw [wp_bind]
      refine bfree_wp_release hf he hoj hout fun s₁ hs₁ he₁ => ?_
      refine ih s₁ _ hnodup' hs₁.formatted he₁ ?_ (fun hc => hout (hs₁.setup.current.mp hc)) ?_
      · intro l hl
        have hne' : ((i, Place.entry l) : Nat × Place) ≠ (i, .entry j) := by
          intro hcon
          exact hnotMem (Place.entry.inj (congrArg Prod.snd hcon) ▸ hl)
        rw [update_of_ne hne']
        exact ho l (mem_cons_of_mem j hl)
      · intro s₂ hs₂ he₂
        rw [clear_update] at he₂
        exact hok s₂ (hs₁.trans hs₂) he₂
    · rw [if_pos (Decidable.not_not.mp hz)] at hoj
      refine ih s o hnodup' hf he (fun l hl => ho l (mem_cons_of_mem j hl)) hout ?_
      intro s₂ hs₂ he₂
      refine hok s₂ hs₂ ?_
      rw [map_cons, clear_cons_of_none hoj]
      exact he₂

/-- The places that go with the indirect block. -/
def indirectPlaces (i : Nat) : List (Nat × Place) :=
  ((List.finRange NINDIRECT).map fun j => (i, .entry j)) ++ [(i, .indirect)]

theorem itruncIndirect_wp {ip : Inode} (hf : s.Formatted ds) (he : Exact (s.dataInUse ds) o)
    (hentry : ∀ j, o (i, .entry j) =
      if s.slot ip (.entry j) = 0 then none else some (s.slot ip (.entry j)).toNat)
    (hind : o (i, .indirect) = if ip.addr NDIRECT = 0 then none else some (ip.addr NDIRECT).toNat)
    (hout : s.current = none → ∀ t, E .outsideOfTrans t)
    (hok : ∀ s', OnlyMap s ds s' → Exact (s'.dataInUse ds) (clear o (indirectPlaces i)) →
      P (ip.setAddr NDIRECT 0) s') : wp (itruncIndirect ip) P E s := by
  refine wp_ite (fun hne => ?_) fun hz => ?_
  · rw [if_neg hne] at hind
    simp only [wp_bind, bread_wp]
    refine itruncEntries_wp (i := i) (List.finRange NINDIRECT) s o (nodup_finRange _)
      hf he ?_ hout ?_
    · intro j _
      rw [hentry j, Fs.slot_entry hne]
    intro s₁ hs₁ he₁
    have hmem : (i, Place.indirect) ∉
        (List.finRange NINDIRECT).map fun j => (i, Place.entry j) := by
      intro hcon
      obtain ⟨j, -, heq⟩ := mem_map.mp hcon
      cases congrArg Prod.snd heq
    rw [wp_bind]
    refine bfree_wp_release hs₁.formatted he₁ (x := (i, .indirect)) ?_
      (fun hc => hout (hs₁.setup.current.mp hc)) ?_
    · rw [clear_of_notMem hmem, hind]
    intro s₂ hs₂ he₂
    rw [← clear_nil (o := update _ _ _), clear_update, clear_clear] at he₂
    exact hok s₂ (hs₁.trans hs₂) he₂
  · have hz : ip.addr NDIRECT = 0 := Decidable.not_not.mp hz
    rw [if_pos hz] at hind
    have hsame : ip.setAddr NDIRECT 0 = ip := by
      rw [← hz]
      change { ip with addrs := update ip.addrs _ (ip.addrs _) } = ip
      rw [update_eq_self]
    have hP := hok s (.refl hf) ?_
    · rwa [hsame] at hP
    · rw [clear_of_none]
      · exact he
      · intro x hx
        rcases mem_append.mp hx with hx | hx
        · obtain ⟨j, -, rfl⟩ := mem_map.mp hx
          rw [hentry j, if_pos (Fs.slot_entry_of_zero hz)]
        · rw [mem_singleton.mp hx, hind]

end

/-! ### `itrunc` -/

/-- The inode after `itrunc`. -/
def Inode.truncated (ip : Inode) : Inode := { ip with addrs := fun _ => 0, size := 0 }

/-- The places that `itrunc` goes through, in this order. -/
def truncPlaces (i : Nat) : List (Nat × Place) :=
  ((List.range NDIRECT).map fun k => (i, .addr (Fin.ofNat (NDIRECT + 1) k))) ++ indirectPlaces i

theorem mem_truncPlaces : x ∈ truncPlaces i ↔ x.1 = i := by
  have hn : NDIRECT = 10 := rfl
  unfold truncPlaces indirectPlaces
  rw [mem_append, mem_append]
  constructor
  · rintro (hx | hx | hx)
    · obtain ⟨k, -, rfl⟩ := mem_map.mp hx
      rfl
    · obtain ⟨k, -, rfl⟩ := mem_map.mp hx
      rfl
    · rw [mem_singleton.mp hx]
  · obtain ⟨j, p⟩ := x
    rintro rfl
    cases p with
    | entry m =>
      exact Or.inr (Or.inl (mem_map.mpr ⟨m, mem_finRange m, rfl⟩))
    | addr m =>
      by_cases hm : m.val < NDIRECT
      · refine Or.inl (mem_map.mpr ⟨m.val, mem_range.mpr hm, ?_⟩)
        rw [Fin.ofNat_val_eq_self]
      · refine Or.inr (Or.inr (mem_singleton.mpr ?_))
        have hval : m.val = NDIRECT := by omega
        have hm' : m = Fin.ofNat (NDIRECT + 1) NDIRECT := Fin.ext hval
        rw [hm']
        rfl

/-- Inode `i` has lost its blocks, and nothing else has changed. -/
structure Emptied (s : Fs) (ds : Nat) (ino : Nat → Inode) (i : Nat) (s' : Fs) : Prop where
  owned : s'.Owned ds (update ino i (ino i).truncated)
  data : ∀ x : BlockNo, ds ≤ x.toNat → s'.cache x = s.cache x
  dinode : ∀ j, j < s.sb.ninodes → s'.dinode j = update s.dinode i (ino i).truncated j
  setup : s.SameSetup s'

section

variable {s s' : Fs} {ds i j k : Nat} {ino : Nat → Inode} {p : Place} {E : FsPanic → Fs → Prop}

theorem Fs.Owned.owner_addr (hl : s.Live ino i) :
    s.owner ino (i, .addr (Fin.ofNat (NDIRECT + 1) k)) =
      if (ino i).addr k = 0 then none else some ((ino i).addr k).toNat := by
  by_cases hz : (ino i).addr k = 0
  · rw [if_pos hz]
    exact Fs.owner_of_slot_zero hz
  · rw [if_neg hz]
    exact Fs.owner_of_slot hl hz

/-- The owners after the inode has lost its blocks. -/
theorem OnlyMap.owner_truncated (h : OnlyMap s ds s') (ho : s.Owned ds ino)
    (hip : ip = (ino i).truncated) :
    s'.owner (update ino i ip) = clear (s.owner ino) (truncPlaces i) := by
  funext x
  obtain ⟨j, q⟩ := x
  by_cases hj : j = i
  · subst hj
    have hzero : s'.slot (update ino j ip j) q = 0 := by
      rw [update_self, hip]
      cases q with
      | addr m => rfl
      | entry m => exact Fs.slot_entry_of_zero rfl
    rw [clear_of_mem (x := (j, q)) (mem_truncPlaces.mpr rfl), Fs.owner_of_slot_zero hzero]
  · rw [clear_of_notMem fun hcon => hj (mem_truncPlaces.mp hcon)]
    have hino : update ino i ip j = ino j := update_of_ne hj ..
    have hlive : s'.Live (update ino i ip) j ↔ s.Live ino j := by
      unfold Fs.Live
      rw [h.setup.sb, hino]
    by_cases hl : s.Live ino j
    · have hslot : s'.slot (ino j) q = s.slot (ino j) q :=
        Fs.slot_congr fun hind => h.data _ (ho.data (p := .indirect) hl hind).1
      exact if_congr (by rw [hlive, hino, hslot]) (by rw [hino, hslot]) rfl
    · exact (if_neg fun hcon => hl (hlive.mp hcon.1)).trans (if_neg fun hcon => hl hcon.1).symm

/-- `itrunc` cannot reach `panic("freeing free block")`. -/
theorem itrunc_wp (ho : s.Owned ds ino) (hl : s.Live ino i)
    (hout : s.current = none → ∀ t, E .outsideOfTrans t)
    (hok : ∀ s', Emptied s ds ino i s' → P (ino i).truncated s') : wp (itrunc (ino i)) P E s := by
  have hinum := ho.inum i
  -- when the map of the owners is empty at every place of the inode
  have hfinish : ∀ (s₁ : Fs) (ip₁ : Inode), OnlyMap s ds s₁ →
    (s₁.current = none → ∀ t, E .outsideOfTrans t) →
      Exact (s₁.dataInUse ds) (clear (s.owner ino) (truncPlaces i)) →
      { ip₁ with size := 0 } = (ino i).truncated →
      wp (do iupdate { ip₁ with size := 0 }; return { ip₁ with size := 0 }) P E s₁ := by
    intro s₁ ip₁ hs₁ hout₁ he₁ hip₁
    rw [hip₁, wp_bind]
    have hi : (ino i).truncated.inum < s₁.sb.ninodes := by
      rw [hs₁.setup.sb]
      change (ino i).inum < _
      rw [hinum]
      exact hl.1
    refine iupdate_wp_or (fun hc => hout₁ hc s₁) fun _ => hok _ ⟨?_, ?_, ?_, ?_⟩
    · have howned : s₁.Owned ds (update ino i (ino i).truncated) := by
        refine ⟨hs₁.formatted, ?_, ?_⟩
        · intro j
          by_cases hj : j = i
          · rw [hj, update_self]
            exact hinum
          · rw [update_of_ne hj]
            exact ho.inum j
        · rw [hs₁.owner_truncated ho rfl]
          exact he₁
      exact howned.setDinode hi
    · intro x hx
      rw [← hs₁.data x hx]
      exact update_of_ne (hs₁.formatted.geo.data_ne_IBLOCK hx hi) ..
    · intro j hj
      rw [Fs.dinode_setDinode hs₁.formatted.geo hi (by exact Nat.two_pow_pos 32)
        (by rwa [hs₁.setup.sb])]
      change update s₁.dinode (ino i).inum _ j = _
      rw [hinum]
      by_cases hji : j = i
      · rw [hji, update_self, update_self]
      · rw [update_of_ne hji, update_of_ne hji, hs₁.dinode j hj]
    · exact hs₁.setup.trans .logged
  unfold itrunc
  rw [wp_bind]
  refine itruncDirect_wp (List.range NDIRECT) s (s.owner ino) (ino i) nodup_range
    (fun k hk => mem_range.mp hk) ho.formatted ho.exact
    (fun k _ => Fs.Owned.owner_addr hl) hout ?_
  intro s₁ ip₁ hs₁ he₁ hip₁ hzero hsame
  have hind₁ : ip₁.addr NDIRECT = (ino i).addr NDIRECT :=
    hsame NDIRECT (Nat.le_refl _) fun hcon => absurd (mem_range.mp hcon) (Nat.lt_irrefl _)
  have hdirect : ∀ q, (∀ k, k < NDIRECT → q ≠ Place.addr (Fin.ofNat (NDIRECT + 1) k)) →
      (i, q) ∉ (List.range NDIRECT).map fun k => (i, Place.addr (Fin.ofNat (NDIRECT + 1) k)) := by
    intro q hq hcon
    obtain ⟨k, hk, heq⟩ := mem_map.mp hcon
    exact hq k (mem_range.mp hk) (congrArg Prod.snd heq).symm
  have hslot : ∀ j, s₁.slot ip₁ (.entry j) = s.slot (ino i) (.entry j) := by
    intro j
    by_cases hz : (ino i).addr NDIRECT = 0
    · rw [Fs.slot_entry_of_zero (hind₁.trans hz), Fs.slot_entry_of_zero hz]
    · have hblock : s₁.cache ((ino i).addr NDIRECT) = s.cache ((ino i).addr NDIRECT) :=
        hs₁.data _ (ho.data (p := .indirect) hl hz).1
      rw [Fs.slot_entry (by rwa [hind₁]), Fs.slot_entry hz, hind₁, hblock]
  rw [wp_bind]
  refine itruncIndirect_wp (i := i)
    hs₁.formatted he₁ ?_ ?_ (fun hc => hout (hs₁.setup.current.mp hc)) ?_
  · intro j
    rw [clear_of_notMem (hdirect (.entry j) fun _ _ => nofun), hslot]
    by_cases hz : s.slot (ino i) (.entry j) = 0
    · rw [if_pos hz, Fs.owner_of_slot_zero hz]
    · rw [if_neg hz, Fs.owner_of_slot hl hz]
  · rw [clear_of_notMem, hind₁]
    · exact Fs.Owned.owner_addr hl
    · refine hdirect .indirect fun k hk hcon => Place.ofIndex_ne_indirect (k := k) ?_
      rw [hcon]
      exact if_pos hk
  · intro s₂ hs₂ he₂
    rw [clear_clear] at he₂
    have hs := hs₁.trans hs₂
    refine hfinish s₂ _ hs (fun hc => hout (hs.setup.current.mp hc)) he₂ ?_
    have haddrs : (ip₁.setAddr NDIRECT 0).addrs = fun _ => 0 := by
      funext k
      by_cases hk : k = Fin.ofNat (NDIRECT + 1) NDIRECT
      · rw [hk]
        exact addr_setAddr_self
      · have hlt : k.val < NDIRECT := by
          have hval : k.val ≠ NDIRECT := fun hcon => hk (Fin.ext hcon)
          have hn : NDIRECT = 10 := rfl
          omega
        have hz := hzero k.val (mem_range.mpr hlt)
        unfold Inode.addr at hz
        rw [Fin.ofNat_val_eq_self] at hz
        exact (update_of_ne hk ..).trans hz
    rw [haddrs]
    unfold Inode.truncated Inode.setAddr
    rw [hip₁]

end

end Xv6Kernel
