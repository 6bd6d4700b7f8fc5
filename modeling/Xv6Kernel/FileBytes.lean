/-
  FileBytes.lean
  ==============
  A file is an array of bytes.

  `byteAt s ip k` is byte `k` of the file, read through the block map.  Every other block
  belongs to another place, so a write to a block of one file changes that part of the file
  and no other file.  `Wrote` says this for any number of rounds of `writei`.
-/
import Mathlib.Data.Finset.Union
import Xv6Kernel.Ownership

namespace Xv6Kernel

open PanicMonad Function List

/-! ### Bytes of a block -/

namespace Block

variable {b : Block} {k off m : Nat} {src : Nat → Byte}

theorem byte_ofBytes (hk : k < BSIZE) : (ofBytes f).byte k = f k := by
  have hb : BSIZE = 512 := rfl
  have hn : NINDIRECT = 128 := rfl
  have hword : (Fin.ofNat NINDIRECT (k / 4)).val = k / 4 := Nat.mod_eq_of_lt (by omega)
  have hcases : k % 4 = 0 ∨ k % 4 = 1 ∨ k % 4 = 2 ∨ k % 4 = 3 := by omega
  simp only [byte, ofBytes, hword]
  rcases hcases with h | h | h | h
  · rw [h, show 4 * (k / 4) = k by omega]
    exact BitVec.extractLsb'_append_eq_right
  · rw [h, show 4 * (k / 4) + 1 = k by omega,
      BitVec.extractLsb'_append_eq_of_le (show 8 ≤ 8 * 1 by decide)]
    exact BitVec.extractLsb'_append_eq_right
  · rw [h, show 4 * (k / 4) + 2 = k by omega,
      BitVec.extractLsb'_append_eq_of_le (show 8 ≤ 8 * 2 by decide),
      BitVec.extractLsb'_append_eq_of_le (show 8 ≤ 8 * 2 - 8 by decide)]
    exact BitVec.extractLsb'_append_eq_right
  · rw [h, show 4 * (k / 4) + 3 = k by omega,
      BitVec.extractLsb'_append_eq_of_le (show 8 ≤ 8 * 3 by decide),
      BitVec.extractLsb'_append_eq_of_le (show 8 ≤ 8 * 3 - 8 by decide)]
    exact BitVec.extractLsb'_append_eq_left

theorem byte_memmove (hk : k < BSIZE) :
    (b.memmove off src m).byte k = if off ≤ k ∧ k < off + m then src (k - off) else b.byte k :=
  byte_ofBytes hk

theorem byte_zero : zero.byte k = 0 := by
  exact BitVec.extractLsb'_zero ..

end Block

/-! ### Bytes of a file -/

theorem map_getD_range (p : List Byte) : (List.range p.length).map (p.getD · 0) = p := by
  refine ext_getElem (by rw [length_map, length_range]) fun k hk hk' => ?_
  rw [getElem_map, getElem_range, getD_eq_getElem?_getD, getElem?_eq_getElem hk', Option.getD_some]

/-- The bytes `off`, …, `off + n - 1` replaced by those of `src`. -/
def overlay (f : Nat → Byte) (off n : Nat) (src : Nat → Byte) (k : Nat) : Byte :=
  if off ≤ k ∧ k < off + n then src (k - off) else f k

namespace Fs

variable {s : Fs} {ds i j k : Nat} {ip : Inode} {ino : Nat → Inode}

/-- Byte `k` of a file; a block that is missing counts as zeroed. -/
def byteAt (s : Fs) (ip : Inode) (k : Nat) : Byte :=
  if s.slot ip (.ofIndex (k / BSIZE)) = 0 then 0
  else (s.cache (s.slot ip (.ofIndex (k / BSIZE)))).byte (k % BSIZE)

/-- The places of the blocks that have the bytes `off`, …, `off + n - 1`. -/
def touched (off n : Nat) : Finset Place :=
  (Finset.range n).biUnion fun m => Place.path ((off + m) / BSIZE)

theorem byteAt_of_ne (h : s.slot ip (.ofIndex (k / BSIZE)) ≠ 0) :
    s.byteAt ip k = (s.cache (s.slot ip (.ofIndex (k / BSIZE)))).byte (k % BSIZE) := if_neg h

theorem byteAt_of_eq (h : s.slot ip (.ofIndex (k / BSIZE)) = 0) : s.byteAt ip k = 0 := if_pos h

/-- The same blocks with the same data. -/
theorem byteAt_congr {s' : Fs} {ip' : Inode}
    (hslot : s'.slot ip' (.ofIndex (k / BSIZE)) = s.slot ip (.ofIndex (k / BSIZE)))
    (hblock : s.slot ip (.ofIndex (k / BSIZE)) ≠ 0 →
      s'.cache (s.slot ip (.ofIndex (k / BSIZE))) = s.cache (s.slot ip (.ofIndex (k / BSIZE)))) :
    s'.byteAt ip' k = s.byteAt ip k := by
  unfold byteAt
  rw [hslot]
  by_cases hz : s.slot ip (.ofIndex (k / BSIZE)) = 0
  · rw [if_pos hz, if_pos hz]
  · rw [if_neg hz, if_neg hz, hblock hz]

theorem byteAt_of_addrs {ip' : Inode} (h : ip'.addrs = ip.addrs) : s.byteAt ip' k = s.byteAt ip k :=
  byteAt_congr (slot_of_addrs h) fun _ => rfl

theorem Owned.byteAt_setDinode (h : s.Owned ds ino) (hi : ip.inum < s.sb.ninodes)
    (hl : s.Live ino j) : (s.setDinode ip).byteAt (ino j) k = s.byteAt (ino j) k := by
  refine byteAt_congr (h.slot_setDinode hi hl) fun hne => ?_
  exact update_of_ne (h.formatted.geo.data_ne_IBLOCK (h.data hl hne).1 hi) ..

end Fs

/-- Inode `i` has got blocks at the places of `Q`, and its bytes are those of `f`. -/
structure Wrote (s : Fs) (ds : Nat) (ino : Nat → Inode) (i : Nat) (s' : Fs) (ip' : Inode)
    (Q : Finset Place) (f : Nat → Byte) : Prop extends Placed s ds ino i s' ip' Q where
  bytes : ∀ k, k < MAXFILE * BSIZE → s'.byteAt ip' k = f k
  otherBytes : ∀ j, j ≠ i → s.Live ino j → ∀ k, s'.byteAt (ino j) k = s.byteAt (ino j) k

section

variable {s₁ : Fs} {k : Nat} {ip₁ : Inode} {Q : Finset Place} {d : Block}

theorem Wrote.congr (h : Wrote s ds ino i s₁ ip₁ Q f) (hfg : ∀ k, k < MAXFILE * BSIZE → f k = g k) :
    Wrote s ds ino i s₁ ip₁ Q g :=
  ⟨h.toPlaced, fun k hk => (h.bytes k hk).trans (hfg k hk), h.otherBytes⟩

theorem Fs.Owned.wrote_refl (h : s.Owned ds ino) :
    Wrote s ds ino i s (ino i) ∅ (s.byteAt (ino i)) :=
  ⟨h.placed_refl, fun _ _ => rfl, fun _ _ _ _ => rfl⟩

/-- New blocks are zeroed, so the bytes of the file are the same. -/
theorem Grown.wrote (h : Grown s ds ino i s₁ ip₁ Q) (hl : s.Live ino i)
    (hQ : ∀ p ∈ Q, s.slot (ino i) p = 0) :
    Wrote s ds ino i s₁ ip₁ Q (s.byteAt (ino i)) := by
  refine ⟨h.toPlaced, ?_, ?_⟩
  · intro k _
    by_cases hmem : Place.ofIndex (k / BSIZE) ∈ Q
    · have hzero := h.zero _ hmem Place.ofIndex_ne_indirect
      rw [Fs.byteAt_of_ne (h.filled _ hmem), hzero, Block.byte_zero, Fs.byteAt_of_eq (hQ _ hmem)]
    · exact Fs.byteAt_congr (h.old _ hmem) fun hne =>
        h.blocks i _ hl Place.ofIndex_ne_indirect hne
  · intro j hj hlj k
    exact Fs.byteAt_congr (h.others j hj hlj _) fun hne =>
      h.blocks j _ hlj Place.ofIndex_ne_indirect hne

/-- The block that `bmap` was called for is there. -/
theorem Grown.slot_ofIndex_ne_zero (h : Grown s ds ino i s₁ ip₁
    (s.missing (ino i) (Place.path bn))) : s₁.slot ip₁ (.ofIndex bn) ≠ 0 := by
  by_cases hz : s.slot (ino i) (.ofIndex bn) = 0
  · exact h.filled _ (Finset.mem_filter.mpr ⟨Place.ofIndex_mem_path, hz⟩)
  · rw [h.old _ fun hcon => hz (missing_eq_zero hcon)]
    exact hz

theorem Wrote.trans (h : Wrote s ds ino i s₁ ip₁ Q f)
    (h' : Wrote s₁ ds (update ino i ip₁) i s₂ ip₂ R g)
    (hR : ∀ p ∈ R, s₁.slot ip₁ p = 0) : Wrote s ds ino i s₂ ip₂ (Q ∪ R) g := by
  refine ⟨h.toPlaced.trans h'.toPlaced hR, h'.bytes, ?_⟩
  intro j hj hlj k
  have hother := h'.otherBytes j hj (h.live_iff.mpr hlj) k
  rw [update_of_ne hj] at hother
  rw [hother, h.otherBytes j hj hlj k]

/-- The data of one block of the file is written. -/
theorem Fs.Owned.wrote_block (h : s.Owned ds ino) (hl : s.Live ino i) (hbn : bn < MAXFILE)
    (hne : s.slot (ino i) (.ofIndex bn) ≠ 0) :
    Wrote s ds ino i (s.logged (s.slot (ino i) (.ofIndex bn)) d) (ino i) ∅
      fun k => if k / BSIZE = bn then d.byte (k % BSIZE) else s.byteAt (ino i) k := by
  have hdata := h.data hl hne
  have hother : ∀ j q, s.Live ino j → (j, q) ≠ (i, .ofIndex bn) → s.slot (ino j) q ≠ 0 →
      s.slot (ino i) (.ofIndex bn) ≠ s.slot (ino j) q := by
    intro j q hj hjq hq heq
    exact hjq (h.slot_inj hj hl hq heq.symm)
  have hslot : ∀ j q, s.Live ino j →
      (s.logged (s.slot (ino i) (.ofIndex bn)) d).slot (ino j) q = s.slot (ino j) q := by
    intro j q hj
    refine Fs.slot_logged fun hind => ?_
    refine hother j .indirect hj (fun hcon => ?_) hind
    exact Place.ofIndex_ne_indirect (congrArg Prod.snd hcon).symm
  have howned : (s.logged (s.slot (ino i) (.ofIndex bn)) d).Owned ds ino := by
    have howner : (s.logged (s.slot (ino i) (.ofIndex bn)) d).owner ino = s.owner ino :=
      Fs.owner_congr (fun _ => Iff.rfl) hslot
    refine ⟨h.formatted.logged_data hdata.1, h.inum, ?_⟩
    rw [howner, Fs.dataInUse_logged fun b hb => h.formatted.geo.data_ne_BBLOCK hdata.1 hb]
    exact h.exact
  refine ⟨⟨?_, rfl, ?_, fun p _ => hslot i p hl, fun j _ hj q => hslot j q hj, ?_, .logged, ?_⟩,
    ?_, ?_⟩
  · rw [update_eq_self]
    exact howned
  · intro p hp
    exact absurd hp (Finset.notMem_empty p)
  · intro j hj
    exact Fs.dinode_logged (h.formatted.geo.data_ne_IBLOCK hdata.1 hj)
  · rw [Fs.freeBlocks_logged fun b hb => h.formatted.geo.data_ne_BBLOCK hdata.1 hb]
    rfl
  · intro k hk
    by_cases hkb : k / BSIZE = bn
    · rw [if_pos hkb, Fs.byteAt_of_ne (by rw [hkb, hslot i _ hl]; exact hne), hkb, hslot i _ hl,
        Fs.logged_cache, update_self]
    · rw [if_neg hkb]
      refine Fs.byteAt_congr (hslot i _ hl) fun hnek => ?_
      refine update_of_ne (hother i _ hl (fun hcon => hkb ?_) hnek).symm ..
      exact Place.ofIndex_inj (Nat.div_lt_of_lt_mul (by rwa [Nat.mul_comm])) hbn
        (congrArg Prod.snd hcon)
  · intro j hj hlj k
    refine Fs.byteAt_congr (hslot j _ hlj) fun hnek => ?_
    exact update_of_ne (hother j _ hlj (fun hcon => hj (congrArg Prod.fst hcon)) hnek).symm ..

end

/-! ### The loop of `writei` -/

section

variable {s : Fs} {ds i : Nat} {ino : Nat → Inode} {E : FsPanic → Fs → Prop}

variable {off n m : Nat} {ip : Inode} {src f : Nat → Byte}

/-- The bytes of one round are those of one block. -/
theorem div_eq_of_round (hm : m = min n (BSIZE - off % BSIZE)) : (off ≤ k ∧ k < off + m) ↔
      (k / BSIZE = off / BSIZE ∧ off % BSIZE ≤ k % BSIZE ∧ k % BSIZE < off % BSIZE + m) := by
  have hb : BSIZE = 512 := rfl
  rw [hb] at hm ⊢
  omega

theorem touched_split (hn : 0 < n) (hm : m = min n (BSIZE - off % BSIZE)) :
    Fs.touched off n = Place.path (off / BSIZE) ∪ Fs.touched (off + m) (n - m) := by
  have hb : BSIZE = 512 := rfl
  ext p
  simp only [Fs.touched, Finset.mem_union, Finset.mem_biUnion, Finset.mem_range]
  constructor
  · rintro ⟨l, hl, hp⟩
    by_cases hlm : l < m
    · left
      rwa [((div_eq_of_round hm).mp ⟨Nat.le_add_right off l, by omega⟩).1] at hp
    · right
      refine ⟨l - m, by omega, ?_⟩
      rwa [show off + m + (l - m) = off + l by omega]
  · rintro (hp | ⟨l, hl, hp⟩)
    · exact ⟨0, hn, hp⟩
    · refine ⟨m + l, by omega, ?_⟩
      rwa [← Nat.add_assoc]

theorem overlay_zero : overlay f off 0 src = f := by
  funext k
  exact if_neg (by omega)

theorem overlay_split (hm : m ≤ n) :
    overlay (overlay f off m src) (off + m) (n - m) (fun k => src (k + m)) =
      overlay f off n src := by
  funext k
  unfold overlay
  by_cases h₁ : off + m ≤ k ∧ k < off + m + (n - m)
  · rw [if_pos h₁, if_pos (by omega)]
    exact congrArg src (by omega)
  · rw [if_neg h₁]
    by_cases h₂ : off ≤ k ∧ k < off + m
    · rw [if_pos h₂, if_pos (by omega)]
    · rw [if_neg h₂, if_neg (by omega)]

/-- The block that a round writes is the old one with the new bytes laid over it. -/
theorem Wrote.round
    (h : Wrote s ds ino i s₁ ip₁ Q (s.byteAt (ino i))) (src : Nat → Byte) (hl : s.Live ino i)
    (hbn : off / BSIZE < MAXFILE) (hm : m = min n (BSIZE - off % BSIZE))
    (hne : s₁.slot ip₁ (.ofIndex (off / BSIZE)) ≠ 0) :
    Wrote s ds ino i (s₁.logged (s₁.slot ip₁ (.ofIndex (off / BSIZE)))
      ((s₁.cache (s₁.slot ip₁ (.ofIndex (off / BSIZE)))).memmove (off % BSIZE) src m)) ip₁ Q
      (overlay (s.byteAt (ino i)) off m src) := by
  have hino : update ino i ip₁ i = ip₁ := update_self ..
  have hwrite := h.owned.wrote_block
    (d := (s₁.cache (s₁.slot ip₁ (.ofIndex (off / BSIZE)))).memmove (off % BSIZE) src m)
    (h.live_iff.mpr hl) hbn (by rwa [hino])
  rw [hino] at hwrite
  have htrans := h.trans hwrite fun p hp => absurd hp (Finset.notMem_empty p)
  rw [Finset.union_empty] at htrans
  refine htrans.congr fun k hk => ?_
  have hround := div_eq_of_round (k := k) hm
  unfold overlay
  by_cases hkb : k / BSIZE = off / BSIZE
  · rw [if_pos hkb, Block.byte_memmove (Nat.mod_lt _ (by decide))]
    by_cases hin : off ≤ k ∧ k < off + m
    · obtain ⟨-, hlow, hhigh⟩ := hround.mp hin
      rw [if_pos hin, if_pos ⟨hlow, hhigh⟩]
      congr 1
      have hk' := Nat.div_add_mod k BSIZE
      have hoff' := Nat.div_add_mod off BSIZE
      rw [hkb] at hk'
      omega
    · rw [if_neg hin, if_neg fun hcon => hin (hround.mpr ⟨hkb, hcon⟩), ← h.bytes k hk,
        Fs.byteAt_of_ne (by rwa [hkb]), hkb]
  · rw [if_neg hkb, if_neg fun hcon => hkb (hround.mp hcon).1, ← h.bytes k hk]

/-- The places that are still missing after some have been filled. -/
theorem Placed.missing_union
    (h : Placed s ds ino i s₁ ip₁ (s.missing (ino i) Q)) (Q' : Finset Place) :
    s.missing (ino i) Q ∪ s₁.missing ip₁ Q' = s.missing (ino i) (Q ∪ Q') ∧
      (s.missing (ino i) Q ∪ s₁.missing ip₁ Q').card =
        (s.missing (ino i) Q).card + (s₁.missing ip₁ Q').card := by
  constructor
  · ext p
    simp only [Fs.missing, Finset.mem_union, Finset.mem_filter]
    constructor
    · rintro (⟨hp, hz⟩ | ⟨hp, hz⟩)
      · exact ⟨Or.inl hp, hz⟩
      · refine ⟨Or.inr hp, ?_⟩
        by_cases hmem : p ∈ s.missing (ino i) Q
        · exact missing_eq_zero hmem
        · rwa [h.old p hmem] at hz
    · rintro ⟨hp, hz⟩
      by_cases hpQ : p ∈ Q
      · exact Or.inl ⟨hpQ, hz⟩
      · refine Or.inr ⟨hp.resolve_left hpQ, ?_⟩
        rwa [h.old p fun hcon => hpQ (Finset.mem_filter.mp hcon).1]
  · refine Finset.card_union_of_disjoint (Finset.disjoint_left.mpr ?_)
    intro p hp hp'
    exact h.filled p hp (Finset.mem_filter.mp hp').2

/-- The places of the next round are among all those to come. -/
theorem missing_path_le (hpos : 0 < n) :
    (s.missing ip (Place.path (off / BSIZE))).card ≤ (s.missing ip (Fs.touched off n)).card := by
  refine Finset.card_le_card (Finset.filter_subset_filter _ ?_)
  rw [touched_split hpos rfl]
  exact Finset.subset_union_left

/-- The rounds after the first one. -/
theorem Wrote.rest
    (hw : Wrote s ds ino i s₁ ip₁ (s.missing (ino i) (Place.path (off / BSIZE))) g) (hpos : 0 < n)
    (hm : m = min n (BSIZE - off % BSIZE)) :
    (s₁.freeBlocks < (s₁.missing ip₁ (Fs.touched (off + m) (n - m))).card →
      s.freeBlocks < (s.missing (ino i) (Fs.touched off n)).card) ∧
    ∀ {s₂ ip₂ g₂}, Wrote s₁ ds (update ino i ip₁) i s₂ ip₂
        (s₁.missing ip₁ (Fs.touched (off + m) (n - m))) g₂ →
      Wrote s ds ino i s₂ ip₂ (s.missing (ino i) (Fs.touched off n)) g₂ := by
  have hmissing := hw.toPlaced.missing_union (Fs.touched (off + m) (n - m))
  rw [← touched_split hpos hm] at hmissing
  refine ⟨fun hlt => ?_, fun hw₂ => ?_⟩
  · have hfree := hw.free
    rw [← hmissing.1, hmissing.2]
    omega
  · have hall := hw.trans hw₂ fun p hp => (Finset.mem_filter.mp hp).2
    rwa [hmissing.1] at hall

theorem writeiLoop_wp_wrote :
    ∀ (fuel : Nat) (s : Fs) (ino : Nat → Inode) (src : Nat → Byte) (off n : Nat),
      s.Owned ds ino → s.Live ino i → off + n ≤ MAXFILE * BSIZE → n ≤ fuel →
      (s.current = none → ∀ t, E .outsideOfTrans t) →
      (s.freeBlocks < (s.missing (ino i) (Fs.touched off n)).card → ∀ t, E .ballocOutOfBlocks t) →
      (∀ s' ip', Wrote s ds ino i s' ip' (s.missing (ino i) (Fs.touched off n))
          (overlay (s.byteAt (ino i)) off n src) → P (ip', off + n) s') →
      wp (writeiLoop fuel (ino i) src off n) P E s := by
  intro fuel
  induction fuel with
  | zero =>
    intro s ino src off n h hl _ hn _ _ hok
    obtain rfl : n = 0 := by omega
    rw [overlay_zero] at hok
    exact hok s (ino i) h.wrote_refl
  | succ fuel ih =>
    intro s ino src off n h hl hmax hfuel hout hfull hok
    have hb : BSIZE = 512 := rfl
    refine wp_ite (fun hpos => ?_) fun hn => ?_
    · rw [wp_bind]
      have hbn : off / BSIZE < MAXFILE := Nat.div_lt_of_lt_mul (by rw [Nat.mul_comm]; omega)
      obtain ⟨m, hm⟩ : ∃ m, m = min n (BSIZE - off % BSIZE) := ⟨_, rfl⟩
      have hmpos : 0 < m := by rw [hb] at hm; omega
      have hmn : m ≤ n := by omega
      refine bmap_wp_grown h hl hbn hout
        (fun hlt => hfull (Nat.lt_of_lt_of_le hlt (missing_path_le hpos))) ?_
      intro s₁ ip₁ hg
      have hne := hg.slot_ofIndex_ne_zero
      have hw := (hg.wrote hl fun p hp => missing_eq_zero hp).round src hl hbn hm hne
      simp only [wp_bind, bread_wp, ← hm]
      apply logWrite_wp_or fun hc => hout (hg.setup.current.mp hc) s₁
      intro hc
      obtain ⟨s₂, hs₂⟩ : ∃ s₂, s₂ = s₁.logged (s₁.slot ip₁ (.ofIndex (off / BSIZE)))
        ((s₁.cache (s₁.slot ip₁ (.ofIndex (off / BSIZE)))).memmove (off % BSIZE) src m) := ⟨_, rfl⟩
      rw [← hs₂] at hw ⊢
      have hino : update ino i ip₁ i = ip₁ := update_self ..
      have hnext := hw.rest hpos hm
      have hrest := ih s₂ (update ino i ip₁) (fun k => src (k + m)) (off + m) (n - m)
        hw.owned (hw.live_iff.mpr hl) (by omega) (by omega)
        (fun hcon => hout (hw.setup.current.mp hcon))
      rw [hino] at hrest
      refine hrest (fun hlt => hfull (hnext.1 hlt)) fun s₃ ip₃ hw₃ => ?_
      have hP := hok s₃ ip₃ ((hnext.2 hw₃).congr fun k hk => ?_)
      · rwa [show off + m + (n - m) = off + n by omega]
      · rw [← overlay_split hmn]
        unfold overlay
        split
        · rfl
        · exact hw.bytes k hk
    · obtain rfl : n = 0 := by omega
      rw [overlay_zero] at hok
      exact hok s (ino i) h.wrote_refl

/-- `writei` where it does not return -1: the loop, then the new size. -/
theorem writei_wp_wrote (h : s.Owned ds ino) (hl : s.Live ino i)
    (hdev : (ino i).type ≠ .dev) (hoff : off ≤ (ino i).size) (hmax : off + n ≤ MAXFILE * BSIZE)
    (hout : s.current = none → ∀ t, E .outsideOfTrans t)
    (hfull : s.freeBlocks < (s.missing (ino i) (Fs.touched off n)).card →
      ∀ t, E .ballocOutOfBlocks t)
    (hok : ∀ s' ip', Wrote s ds ino i s' ip' (s.missing (ino i) (Fs.touched off n))
        (overlay (s.byteAt (ino i)) off n src) →
      if 0 < n ∧ (ino i).size < off + n then
        P (n, { ip' with size := off + n }) (s'.setDinode { ip' with size := off + n })
      else P (n, ip') s') : wp (writei (ino i) src off n) P E s := by
  have hsmall : MAXFILE * BSIZE < 2 ^ 32 := by decide
  have hmod : (off + n) % 2 ^ 32 = off + n := Nat.mod_eq_of_lt (by omega)
  unfold writei
  rw [if_neg hdev, hmod, if_neg (by omega), if_neg (by omega), wp_bind]
  apply writeiLoop_wp_wrote n s ino src off n h hl hmax (Nat.le_refl n) hout hfull
  intro s' ip' hw
  have hP := hok s' ip' hw
  have hsize : ip'.size = (ino i).size := by rw [hw.keeps]
  simp only [hsize]
  refine wp_ite (fun hgrow => ?_) fun hstay => ?_
  · rw [if_pos hgrow] at hP
    rw [wp_bind]
    exact iupdate_wp_or (fun hc => hout (hw.setup.current.mp hc) s') fun _ => hP
  · rw [if_neg hstay] at hP
    exact hP

theorem writei_fails (hdev : ip.type ≠ .dev) (hoff : off < 2 ^ 32) (hn : n < 2 ^ 32)
    (h : ip.size < off ∨ 2 ^ 32 ≤ off + n ∨ MAXFILE * BSIZE < off + n) :
    writei ip src off n s = .ok (-1, ip) s := by
  have hsmall : MAXFILE * BSIZE < 2 ^ 32 := by decide
  unfold writei
  rw [if_neg hdev]
  by_cases hfirst : ip.size < off ∨ (off + n) % 2 ^ 32 < off
  · rw [if_pos hfirst]
    rfl
  · rw [if_neg hfirst, if_pos (by omega)]
    rfl

/-! ### `readi` -/

/-- Every block below the size is there. -/
def Fs.Full (s : Fs) (ip : Inode) : Prop :=
  ∀ k, k * BSIZE < ip.size → k < MAXFILE ∧ s.slot ip (.ofIndex k) ≠ 0

theorem Fs.Full.size_le (h : s.Full ip) : ip.size ≤ MAXFILE * BSIZE := by
  by_contra hlt
  exact absurd (h MAXFILE (by omega)).1 (Nat.lt_irrefl _)

/-- A block that is there is found without changing anything. -/
theorem bmap_wp_slot (hbn : bn < MAXFILE)
    (h : s.slot ip (.ofIndex bn) ≠ 0) (hP : P (s.slot ip (.ofIndex bn), ip) s) :
    wp (bmap ip bn) P E s := by
  have hmax : MAXFILE = NDIRECT + NINDIRECT := rfl
  unfold bmap addrOrAlloc
  by_cases hd : bn < NDIRECT
  · have hslot : s.slot ip (.ofIndex bn) = ip.addr bn := by
      unfold Place.ofIndex
      rw [if_pos hd]
      rfl
    rw [hslot] at h hP
    rw [if_pos hd, if_neg h]
    exact hP
  · have hindex : Place.ofIndex bn = .entry (Fin.ofNat NINDIRECT (bn - NDIRECT)) := if_neg hd
    rw [hindex] at h hP
    have hind : ip.addr NDIRECT ≠ 0 := fun hcon => h (Fs.slot_entry_of_zero hcon)
    rw [Fs.slot_entry hind] at h hP
    rw [if_neg hd, if_pos (by omega), if_neg hind]
    simp only [entryOrAlloc, wp_bind, wp_pure, bread_wp]
    rw [if_neg h]
    exact hP

/-- The part of a block that one round copies. -/
theorem map_byte_round (hm : m = min n (BSIZE - off % BSIZE))
    (hne : s.slot ip (.ofIndex (off / BSIZE)) ≠ 0) :
    (List.range m).map (fun k =>
      (s.cache (s.slot ip (.ofIndex (off / BSIZE)))).byte (off % BSIZE + k)) =
      (List.range m).map fun k => s.byteAt ip (off + k) := by
  refine map_congr_left fun k hk => ?_
  have hlt := mem_range.mp hk
  obtain ⟨hdiv, -, -⟩ := (div_eq_of_round (k := off + k) hm).mp ⟨by omega, by omega⟩
  have hmod : off % BSIZE + k = (off + k) % BSIZE := by
    have hk' := Nat.div_add_mod (off + k) BSIZE
    have hoff' := Nat.div_add_mod off BSIZE
    rw [hdiv] at hk'
    omega
  rw [Fs.byteAt_of_ne (by rwa [hdiv]), hdiv, hmod]

theorem map_range_split (hmn : m ≤ n) : (List.range n).map (fun k => f (off + k)) =
      ((List.range m).map fun k => f (off + k)) ++
        (List.range (n - m)).map fun k => f (off + m + k) := by
  obtain ⟨l, rfl⟩ := Nat.exists_eq_add_of_le hmn
  rw [range_add, map_append, map_map, Nat.add_sub_cancel_left]
  simp only [comp_def, Nat.add_assoc]

/-- The loop of `readi` up to `last`, if the blocks up to there are there. -/
theorem readiLoop_wp_there (h : ∀ k, k * BSIZE < last → k < MAXFILE ∧ s.slot ip (.ofIndex k) ≠ 0) :
    ∀ {P : List Byte × Inode → Fs → Prop} (fuel off n : Nat), off + n ≤ last → n ≤ fuel →
      P ((List.range n).map fun k => s.byteAt ip (off + k), ip) s →
      wp (readiLoop fuel ip off n) P E s := by
  have hb : BSIZE = 512 := rfl
  intro P fuel
  induction fuel generalizing P with
  | zero =>
    intro off n _ hn hP
    obtain rfl : n = 0 := by omega
    exact hP
  | succ fuel ih =>
    intro off n hsize hfuel hP
    refine wp_ite (fun hpos => ?_) fun hn => ?_
    · have hle := Nat.div_mul_le_self off BSIZE
      obtain ⟨hbn, hslot⟩ := h (off / BSIZE) (by omega)
      obtain ⟨m, hm⟩ : ∃ m, m = min n (BSIZE - off % BSIZE) := ⟨_, rfl⟩
      have hmpos : 0 < m := by rw [hb] at hm; omega
      have hmn : m ≤ n := by omega
      rw [wp_bind]
      apply bmap_wp_slot hbn hslot
      simp only [wp_bind, bread_wp, ← hm]
      apply ih (off + m) (n - m) (by omega) (by omega)
      rw [wp_pure, map_byte_round hm hslot, ← map_range_split hmn]
      exact hP
    · obtain rfl : n = 0 := by omega
      exact hP

variable {P : Int × List Byte × Inode → Fs → Prop}

/-- `readi` runs its loop over the bytes up to the size. -/
theorem readi_wp_loop (hdev : ip.type ≠ .dev) (hoff : off < 2 ^ 32) (hn : n < 2 ^ 32)
    (hfail : ip.size < off ∨ 2 ^ 32 ≤ off + n → P (-1, [], ip) s)
    (hok : off ≤ ip.size → off + n < 2 ^ 32 → ∀ m, m = min (off + n) ip.size - off →
      wp (readiLoop m ip off m) (fun r => P (m, r.1, r.2)) E s) :
    wp (readi ip off n) P E s := by
  unfold readi
  rw [if_neg hdev]
  refine wp_ite (fun hbad => ?_) fun hgood => ?_
  · exact hfail (by omega)
  · have hmod : (off + n) % 2 ^ 32 = off + n := Nat.mod_eq_of_lt (by omega)
    rw [hmod, wp_bind]
    refine hok (by omega) (by omega) _ ?_
    split <;> omega

/-- `readi` returns the bytes up to the size and changes nothing. -/
theorem readi_wp_full (h : s.Full ip) (hdev : ip.type ≠ .dev) (hoff : off < 2 ^ 32)
    (hn : n < 2 ^ 32) (hfail : ip.size < off ∨ 2 ^ 32 ≤ off + n → P (-1, [], ip) s)
    (hok : off ≤ ip.size → off + n < 2 ^ 32 → P ((min (off + n) ip.size - off : Nat),
        (List.range (min (off + n) ip.size - off)).map fun k => s.byteAt ip (off + k), ip) s) :
    wp (readi ip off n) P E s := by
  refine readi_wp_loop hdev hoff hn hfail fun hle hlt m hm => ?_
  refine readiLoop_wp_there h _ _ _ (show _ ≤ ip.size by omega) (Nat.le_refl _) ?_
  rw [hm]
  exact hok hle hlt

/-! ### `readi` where blocks may be missing -/

theorem readiLoop_wp_wrote {P : List Byte × Inode → Fs → Prop} :
    ∀ (fuel : Nat) (s : Fs) (ino : Nat → Inode) (off n : Nat),
      s.Owned ds ino → s.Live ino i → off + n ≤ MAXFILE * BSIZE → n ≤ fuel →
      (s.current = none → ∀ t, E .outsideOfTrans t) →
      (s.freeBlocks < (s.missing (ino i) (Fs.touched off n)).card → ∀ t, E .ballocOutOfBlocks t) →
      (∀ s' ip', Wrote s ds ino i s' ip' (s.missing (ino i) (Fs.touched off n)) (s.byteAt (ino i)) →
        P ((List.range n).map fun k => s.byteAt (ino i) (off + k), ip') s') →
      wp (readiLoop fuel (ino i) off n) P E s := by
  intro fuel
  induction fuel generalizing P with
  | zero =>
    intro s ino off n h hl _ hn _ _ hok
    obtain rfl : n = 0 := by omega
    exact hok s (ino i) h.wrote_refl
  | succ fuel ih =>
    intro s ino off n h hl hmax hfuel hout hfull hok
    have hb : BSIZE = 512 := rfl
    refine wp_ite (fun hpos => ?_) fun hn => ?_
    · rw [wp_bind]
      have hbn : off / BSIZE < MAXFILE := Nat.div_lt_of_lt_mul (by rw [Nat.mul_comm]; omega)
      obtain ⟨m, hm⟩ : ∃ m, m = min n (BSIZE - off % BSIZE) := ⟨_, rfl⟩
      have hmpos : 0 < m := by rw [hb] at hm; omega
      have hmn : m ≤ n := by omega
      refine bmap_wp_grown h hl hbn hout
        (fun hlt => hfull (Nat.lt_of_lt_of_le hlt (missing_path_le hpos))) ?_
      intro s₁ ip₁ hg
      have hw := hg.wrote hl fun p hp => missing_eq_zero hp
      have hne := hg.slot_ofIndex_ne_zero
      simp only [wp_bind, bread_wp, ← hm, map_byte_round hm hne]
      have hino : update ino i ip₁ i = ip₁ := update_self ..
      have hnext := hw.rest hpos hm
      have hrest := ih (P := fun r t => P ((List.range m).map (fun k => s₁.byteAt ip₁ (off + k)) ++
          r.1, r.2) t) s₁ (update ino i ip₁) (off + m) (n - m)
        hw.owned (hw.live_iff.mpr hl) (by omega) (by omega)
        (fun hcon => hout (hw.setup.current.mp hcon))
      rw [hino] at hrest
      refine hrest (fun hlt => hfull (hnext.1 hlt)) fun s₃ ip₃ hw₃ => ?_
      have hP := hok s₃ ip₃ ((hnext.2 hw₃).congr fun k hk => hw.bytes k hk)
      rw [map_range_split hmn] at hP
      have hsame : ∀ a c, a + c ≤ off + n → (List.range c).map (fun k => s₁.byteAt ip₁ (a + k)) =
          (List.range c).map fun k => s.byteAt (ino i) (a + k) :=
        fun a c hle => map_congr_left fun k hk => hw.bytes _ (by
          have hlt := mem_range.mp hk
          omega)
      simp only [hsame off m (by omega), hsame (off + m) (n - m) (by omega)]
      exact hP
    · obtain rfl : n = 0 := by omega
      exact hok s (ino i) h.wrote_refl

/-- `readi` may add blocks but changes no byte. -/
theorem readi_wp_wrote (h : s.Owned ds ino) (hl : s.Live ino i)
    (hsize : (ino i).size ≤ MAXFILE * BSIZE) (hdev : (ino i).type ≠ .dev) (hoff : off < 2 ^ 32)
    (hn : n < 2 ^ 32) (hout : s.current = none → ∀ t, E .outsideOfTrans t)
    (hfull : ∀ t, E .ballocOutOfBlocks t)
    (hfail : (ino i).size < off ∨ 2 ^ 32 ≤ off + n → P (-1, [], ino i) s)
    (hok : ∀ s' ip', off ≤ (ino i).size → off + n < 2 ^ 32 → Wrote s ds ino i s' ip'
      (s.missing (ino i) (Fs.touched off (min (off + n) (ino i).size - off))) (s.byteAt (ino i)) →
      P ((min (off + n) (ino i).size - off : Nat),
        (List.range (min (off + n) (ino i).size - off)).map fun k => s.byteAt (ino i) (off + k),
        ip') s') : wp (readi (ino i) off n) P E s := by
  refine readi_wp_loop hdev hoff hn hfail fun hle hlt m hm => ?_
  subst hm
  refine readiLoop_wp_wrote _ s ino _ _ h hl (by omega) (Nat.le_refl _) hout (fun _ => hfull) ?_
  exact fun s' ip' hw => hok s' ip' hle hlt hw

end

end Xv6Kernel
