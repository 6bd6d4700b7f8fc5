/-
  WholeWrites.lean
  ================
  What a `filewrite` that fails leaves behind.

  `filewrite` cuts a write into chunks of `maxChunk` bytes and `writei` checks the size of a
  file for each of them.  A write whose first chunk fits into the largest file and whose last
  one does not returns -1 after the chunks before it are on disk.

  Calls that share a file take turns between chunks.  If they fit together none of them fails,
  and the file gets the chunks of all calls one after the other.
-/
import Mathlib.Algebra.Order.BigOperators.Group.Finset
import Mathlib.Data.Fintype.BigOperators
import Xv6Kernel.FileStore
import Xv6Kernel.FileWrite

namespace Xv6Kernel

open PanicMonad Function

/-! ### Chunks of bytes -/

def Bytes.put (bs : Bytes) (src : Nat → Byte) (off n : Nat) : Bytes :=
  bs.take off ++ (List.range n).map src ++ bs.drop (off + n)

namespace Bytes

variable {bs : Bytes} {src : Nat → Byte} {off m n : Nat}

theorem put_zero : bs.put src off 0 = bs := by
  simp [put]

/-- Writing behind what has been written. -/
theorem put_append (h : off ≤ bs.length) (l : Bytes) (src : Nat → Byte) :
    Bytes.put (bs.take off ++ l ++ bs.drop (off + l.length)) src (off + l.length) n =
      bs.take off ++ (l ++ (List.range n).map src) ++ bs.drop (off + (l.length + n)) := by
  have hlen : (bs.take off ++ l).length = off + l.length := by simp [h]
  rw [put, ← hlen, ← List.drop_drop, List.drop_left, List.take_left, hlen, List.drop_drop]
  simp only [List.append_assoc, Nat.add_assoc]

/-- One chunk after the other. -/
theorem put_put (h : off ≤ bs.length) :
    (bs.put src off m).put (fun k => src (m + k)) (off + m) n = bs.put src off (m + n) := by
  have hnext := put_append (n := n) h ((List.range m).map src) fun k => src (m + k)
  rw [List.length_map, List.length_range] at hnext
  refine hnext.trans ?_
  rw [put, List.range_add, List.map_append, List.map_map]
  rfl

end Bytes

/-! ### The loop -/

/-- The file `f` is open on inode `i`, a regular file of a disk in order. -/
structure OpenOn (s : Fs) (ds i : Nat) (f : File) : Prop where
  ownership : s.BlockOwnership ds
  live : s.Live s.dinode i
  regular : (s.dinode i).type = .file
  ip : f.ip = s.dinode i

/-- `m` of the bytes `src` have been written. -/
structure Written (s : Fs) (ds i : Nat) (f : File) (src : Nat → Byte) (m : Nat) (f' : File)
    (s' : Fs) : Prop where
  opened : OpenOn s' ds i f'
  off : f'.off = f.off + m
  files : s'.files = update s.files i (some ((s.contents i).put src f.off m))
  same : m = 0 → f' = f

/-- How many of `k` bytes the loop writes: all of them or, if they do not fit, the chunks
    that do. -/
def accepted (size off k : Nat) : Nat :=
  if size < off then 0
  else if off + k ≤ MAXFILE * BSIZE then k
  else (MAXFILE * BSIZE - off) / maxChunk.toNat * maxChunk.toNat

section

variable {s s' : Fs} {ds i : Nat} {f f' : File} {src : Nat → Byte} {m k size off : Nat}

theorem accepted_eq : accepted size off k =
    if size < off then 0 else if off + k ≤ 70656 then k else (70656 - off) / 6656 * 6656 := rfl

theorem accepted_zero : accepted size off 0 = 0 := by
  rw [accepted_eq]
  split_ifs <;> omega

theorem accepted_refused (h : size < off ∨ MAXFILE * BSIZE < off + min maxChunk.toNat k) :
    accepted size off k = 0 := by
  change size < off ∨ 70656 < off + min 6656 k at h
  rw [accepted_eq]
  split_ifs <;> omega

theorem accepted_chunk (hoff : off ≤ size) (hm : min maxChunk.toNat k = m)
    (hfit : off + m ≤ MAXFILE * BSIZE) :
    accepted size off k = m + accepted (max size (off + m)) (off + m) (k - m) := by
  change min 6656 k = m at hm
  change off + m ≤ 70656 at hfit
  rw [accepted_eq, accepted_eq]
  split_ifs <;> omega

section

variable (h : OpenOn s ds i f) (cur : Option (List (BlockNo × Block)))
  (done : List (List (BlockNo × Block)))

include h cur done

theorem OpenOn.setTrans : OpenOn { s with current := cur, done := done } ds i f := by
  obtain ⟨⟨⟨hformat, hinum, hexact⟩, hfull⟩, hlive, hreg, hip⟩ := h
  exact ⟨⟨⟨⟨hformat.geo, hformat.inodes, hformat.superblock, hformat.metadata⟩, hinum, hexact⟩,
    hfull⟩, hlive, hreg, hip⟩

theorem Written.nothing : Written s ds i f src 0 f { s with current := cur, done := done } where
  opened := h.setTrans cur done
  off := rfl
  files := by
    rw [Bytes.put_zero, ← Fs.files_of_live h.live, update_eq_self]
    rfl
  same := fun _ => rfl

end

theorem OpenOn.contents_eq (h : OpenOn s ds i f)
    (hfiles : s.files = update g i (some c)) : s.contents i = c := by
  have hfile := congrFun hfiles i
  rw [Fs.files_of_live h.live, update_self] at hfile
  exact Option.some.inj hfile

theorem Written.trans (h : Written s ds i f src m f' s')
    (h' : Written s' ds i f' (fun j => src (m + j)) k f'' s'') (hm : 0 < m)
    (hoff : f.off ≤ (s.dinode i).size) : Written s ds i f src (m + k) f'' s'' where
  opened := h'.opened
  off := by rw [h'.off, h.off, Nat.add_assoc]
  files := by
    rw [h'.files, h.files, update_idem, h.opened.contents_eq h.files, h.off,
      Bytes.put_put (by rwa [Fs.length_contents])]
  same := fun h => absurd h (by omega)

/-- A call of `writei` that is not refused. -/
theorem OpenOn.written (h : OpenOn s ds i f) (hoff : f.off ≤ (s.dinode i).size)
    (hm : 0 < m) (hup : Updated s ds i s' ip' (overlay (s.byteAt (s.dinode i)) f.off m src))
    (hip' : ip' = { s.dinode i with
      size := max (s.dinode i).size (f.off + m), addrs := ip'.addrs }) :
    Written s ds i f src m { f with ip := ip', off := f.off + m } s' := by
  have htype : ip'.type = (s.dinode i).type := by rw [hip']
  have hsize : ip'.size = max (s.dinode i).size (f.off + m) := by rw [hip']
  have hlive : s'.Live s'.dinode i := by
    refine ⟨by rw [hup.setup.sb]; exact h.live.1, ?_⟩
    rw [hup.self, htype]
    exact h.live.2
  refine ⟨⟨hup.ownership, hlive, ?_, hup.self.symm⟩, rfl, ?_, fun h => absurd h (by omega)⟩
  · rw [hup.self, htype, h.regular]
  · rw [hup.files_eq h.live htype, hsize, map_overlay hoff]
    rfl

theorem chunk_eq (hm : min maxChunk.toNat k = m) :
    (if maxChunk < ((a + k : Nat) : Int) - (a : Int) then maxChunk
      else ((a + k : Nat) : Int) - (a : Int)) = (m : Int) := by
  have hchunk : maxChunk = (maxChunk.toNat : Int) := rfl
  split_ifs <;> omega

/-- A chunk that fits is written. -/
theorem filewriteLoop_chunk (h : OpenOn s ds i f) (hk : 0 < k) (hm : min maxChunk.toNat k = m)
    (hle : f.off ≤ (s.dinode i).size) (hfit : f.off + m ≤ MAXFILE * BSIZE)
    (hok : ∀ f' s', Written s ds i f (fun j => addr (a + j)) m f' s' →
      (s'.dinode i).size = max (s.dinode i).size (f.off + m) →
      wp (filewriteLoop fuel f' addr (a + k : Nat) (a + m : Nat)) P (fun _ _ => True) s') :
    wp (filewriteLoop (fuel + 1) f addr (a + k : Nat) a) P (fun _ _ => True) s := by
  have hsmall : maxChunk.toNat = 6656 := rfl
  have hopen := h.setTrans (some []) s.done
  have hdev : (s.dinode i).type ≠ .dev := by
    rw [h.regular]
    decide
  unfold filewriteLoop
  rw [if_pos (by omega), chunk_eq hm]
  simp only [beginOp, endOp, wp_bind, wp_modify, Int.toNat_natCast, h.ip]
  refine writei_wp_updated hopen.ownership hopen.live hdev hle hfit (fun _ _ => trivial)
    (fun _ _ => trivial) fun s₁ ip₁ hup hip₁ => ?_
  have hmax : MAXFILE * BSIZE < 2 ^ 32 := by decide
  have hlt : (f.off + m) % 2 ^ 32 = f.off + m := Nat.mod_eq_of_lt (by omega)
  have hpos : (0 : Int) < m := by omega
  simp only [hpos, not_lt_of_gt hpos, if_true, if_false, ne_eq, not_true_eq_false, wp_bind,
    wp_modify, Int.toNat_natCast, hlt, ← Int.natCast_add]
  have hw := hopen.written hle (by omega) hup hip₁
  refine hok _ _ ⟨hw.opened.setTrans _ _, hw.off, hw.files, hw.same⟩ ?_
  have hsize : ip₁.size = max (s.dinode i).size (f.off + m) := by rw [hip₁]; rfl
  rw [← hsize]
  exact congrArg Inode.size hup.self

theorem filewriteLoop_written (h : OpenOn s ds i f) (hoff : f.off < 2 ^ 32) (hk : k ≤ fuel) :
    wp (filewriteLoop fuel f addr (a + k : Nat) a) (fun r s' =>
      r.1 = (a + accepted (s.dinode i).size f.off k : Nat) ∧
      Written s ds i f (fun j => addr (a + j)) (accepted (s.dinode i).size f.off k) r.2 s')
      (fun _ _ => True) s := by
  have hsmall : maxChunk.toNat = 6656 := rfl
  induction fuel generalizing s f a k with
  | zero =>
    obtain rfl := Nat.le_zero.mp hk
    rw [accepted_zero]
    exact ⟨rfl, .nothing h _ _⟩
  | succ fuel ih =>
    by_cases hdone : k = 0
    · subst hdone
      unfold filewriteLoop
      rw [accepted_zero, if_neg (by omega)]
      exact ⟨rfl, .nothing h _ _⟩
    generalize hm : min maxChunk.toNat k = m
    by_cases hbad : (s.dinode i).size < f.off ∨ MAXFILE * BSIZE < f.off + m
    · have hdev : (s.dinode i).type ≠ .dev := by
        rw [h.regular]
        decide
      have hfail : writei (s.dinode i) (fun k => addr (a + k)) f.off m
          { s with current := some [] } = .ok (-1, s.dinode i) { s with current := some [] } :=
        writei_fails hdev hoff (by omega) (by omega)
      have hsame : ({ f with ip := s.dinode i, off := f.off } : File) = f := by rw [← h.ip]
      unfold filewriteLoop
      rw [if_pos (by omega), chunk_eq hm, accepted_refused (by rwa [hm])]
      simp only [beginOp, endOp, wp_bind, wp_modify, Int.toNat_natCast, h.ip]
      refine wp_of_ok hfail ?_
      simp only [Int.reduceNeg, Int.reduceLT, if_false, if_true, hsame]
      exact ⟨rfl, .nothing h none _⟩
    · obtain ⟨hle, hfit⟩ : f.off ≤ (s.dinode i).size ∧ f.off + m ≤ MAXFILE * BSIZE := by omega
      have hmax : MAXFILE * BSIZE < 2 ^ 32 := by decide
      refine filewriteLoop_chunk h (by omega) hm hle hfit fun f₁ s₁ hw hsize => ?_
      have hrest := ih (a := a + m) (k := k - m) hw.opened (by rw [hw.off]; omega) (by omega)
      rw [hsize, hw.off, Nat.add_assoc, Nat.add_sub_cancel' (by omega)] at hrest
      rw [accepted_chunk hle hm hfit]
      refine wp_mono hrest ?_ fun _ _ _ => trivial
      rintro ⟨j, g⟩ u ⟨hj, hu⟩
      simp only [Nat.add_assoc] at hj hu
      exact ⟨hj, hw.trans hu (by omega) hle⟩

/-! ### `filewrite` -/

/-- A write that returns -1 has done nothing, and one that does not has written all bytes. -/
structure AllOrNothing (s : Fs) (i : Nat) (f : File) (addr : Nat → Byte) (n ret : Int) (f' : File)
    (s' : Fs) : Prop where
  failed : ret = -1 → s'.files = s.files ∧ f' = f
  wrote : 0 ≤ ret → ret = n ∧ f'.off = f.off + n.toNat ∧
    s'.files = update s.files i (some ((s.contents i).put addr f.off n.toNat))

/-- The first chunk of a write fits, and its last one does not. -/
def Straddles (size off : Nat) (n : Int) : Prop :=
  off ≤ size ∧ maxChunk < n ∧ off + maxChunk ≤ MAXFILE * BSIZE ∧ MAXFILE * BSIZE < off + n

theorem straddles_iff : Straddles size off n ↔
    off ≤ size ∧ 6656 < n ∧ (off : Int) + 6656 ≤ 70656 ∧ 70656 < (off : Int) + n := Iff.rfl

theorem accepted_pos_iff (h : (accepted size off n.toNat : Int) ≠ n) :
    accepted size off n.toNat ≠ 0 ↔ Straddles size off n := by
  rw [accepted_eq] at h ⊢
  rw [straddles_iff]
  split_ifs at h ⊢ <;> omega

theorem not_straddles (h : (accepted size off n.toNat : Int) = n) : ¬ Straddles size off n := by
  rw [accepted_eq] at h
  rw [straddles_iff]
  split_ifs at h <;> omega

theorem filewrite_written (h : OpenOn s ds i f) (htype : f.type = .inode) (hw : f.writable = true)
    (hoff : f.off < 2 ^ 32) (hrun : filewrite pipewrite f addr n s = .ok (ret, f') s') :
    ret = (if (accepted (s.dinode i).size f.off n.toNat : Int) = n then n else -1) ∧
    Written s ds i f addr (accepted (s.dinode i).size f.off n.toNat) f' s' := by
  have hloop : wp (filewriteLoop n.toNat f addr n 0) (fun r s' =>
      r.1 = accepted (s.dinode i).size f.off n.toNat ∧
      Written s ds i f addr (accepted (s.dinode i).size f.off n.toNat) r.2 s')
      (fun _ _ => True) s := by
    by_cases hn : 0 ≤ n
    · have hall : wp (filewriteLoop n.toNat f addr (0 + n.toNat : Nat) (0 : Nat)) _ _ s :=
        filewriteLoop_written h hoff (le_refl n.toNat)
      rw [Nat.zero_add, Int.toNat_of_nonneg hn] at hall
      simp only [Nat.zero_add] at hall
      exact hall
    · rw [Int.toNat_of_nonpos (by omega), accepted_zero]
      exact ⟨rfl, .nothing h _ _⟩
  have hwrite : wp (filewrite pipewrite f addr n) (fun r s' =>
      r.1 = (if (accepted (s.dinode i).size f.off n.toNat : Int) = n then n else -1) ∧
      Written s ds i f addr (accepted (s.dinode i).size f.off n.toNat) r.2 s')
      (fun _ _ => True) s := by
    unfold filewrite
    rw [if_neg (by simp [hw])]
    simp only [htype, wp_bind]
    refine wp_mono hloop ?_ fun _ _ _ => trivial
    rintro ⟨j, g⟩ u ⟨rfl, hu⟩
    exact ⟨rfl, hu⟩
  exact post_of_ok (P := fun r s' => r.1 = _ ∧ Written s ds i f addr _ r.2 s') hwrite hrun

/-- Writes are whole except for those that straddle the end of the largest file. -/
theorem filewrite_whole_iff {pipewrite : FsM Int} {addr : Nat → Byte} {n ret : Int}
    (h : OpenOn s ds i f) (htype : f.type = .inode) (hoff : f.off < 2 ^ 32)
    (hrun : filewrite pipewrite f addr n s = .ok (ret, f') s') :
    AllOrNothing s i f addr n ret f' s' ↔
      ¬ (f.writable = true ∧ Straddles (s.dinode i).size f.off n) := by
  by_cases hw : f.writable = true
  · obtain ⟨hret, hm⟩ := filewrite_written h htype hw hoff hrun
    simp only [hw, true_and]
    by_cases hall : (accepted (s.dinode i).size f.off n.toNat : Int) = n
    · rw [if_pos hall] at hret
      rw [show accepted (s.dinode i).size f.off n.toNat = n.toNat by omega] at hm
      have hok : AllOrNothing s i f addr n ret f' s' :=
        ⟨fun hcon => absurd hcon (by omega), fun _ => ⟨hret, hm.off, hm.files⟩⟩
      exact iff_of_true hok (not_straddles hall)
    · rw [if_neg hall] at hret
      rw [← accepted_pos_iff hall, not_not]
      constructor
      · intro hok
        have hoff' := hm.off
        rw [(hok.failed hret).2] at hoff'
        omega
      · intro hzero
        rw [hzero] at hm
        have hfiles := hm.files
        rw [Bytes.put_zero, ← Fs.files_of_live h.live, update_eq_self] at hfiles
        exact ⟨fun _ => ⟨hfiles, hm.same rfl⟩, fun hcon => absurd hcon (by omega)⟩
  · have hfail : filewrite pipewrite f addr n s = .ok (-1, f) s := by
      unfold filewrite
      rw [if_pos (by simpa using hw)]
      rfl
    rw [hfail] at hrun
    cases hrun
    exact iff_of_true ⟨fun _ => ⟨rfl, rfl⟩, fun hcon => absurd hcon (by omega)⟩
      fun hcon => hw hcon.1

end

/-! ### The largest file -/

/-- A disk of 143 blocks with a file of the largest size, inode 1. -/
def fullDisk : Fs where
  sb := { size := 143, ninodes := 8, inodestart := 2, bmapstart := 3 }
  devsw := fun _ => none
  devswRead := fun _ => none
  cache := fun b w =>
    if b = 1 then
      if w = 0 then 143 else if w = 2 then 8 else if w = 5 then 2 else if w = 6 then 3 else 0
    else if b = 2 then
      if w = 16 then 2 else if w = 20 then 70656
      else if 20 < w ∧ w < 32 then BitVec.ofNat 32 (w - 17) else 0
    else if b = 3 then if w < 4 then 0xffffffff else if w = 4 then 0x7fff else 0
    else if b = 14 then BitVec.ofNat 32 (15 + w)
    else 0
  current := none
  done := []

/-- The place that holds a block. -/
def fullPlace (b : Nat) : Place :=
  if b < 15 then .addr (Fin.ofNat _ (b - 4)) else .entry (Fin.ofNat _ (b - 15))

theorem fullDisk_slot (p : Place) : fullDisk.slot (fullDisk.dinode 1) p ≠ 0 ∧
    4 ≤ (fullDisk.slot (fullDisk.dinode 1) p).toNat ∧
    (fullDisk.slot (fullDisk.dinode 1) p).toNat < 143 ∧
    fullPlace (fullDisk.slot (fullDisk.dinode 1) p).toNat = p := by
  cases p with
  | addr k => revert k; decide +kernel
  | entry j => revert j; decide +kernel

theorem fullDisk_owner
    (h : fullDisk.owner fullDisk.dinode x = some b) : x = (1, fullPlace b) ∧ 4 ≤ b ∧ b < 143 := by
  have hlive : ∀ i < 8, (fullDisk.dinode i).type ≠ .free → i = 1 := by decide +kernel
  obtain ⟨i, p⟩ := x
  obtain ⟨⟨hl, -⟩, hb⟩ := Option.ite_none_right_eq_some.mp h
  obtain rfl := hlive i hl.1 hl.2
  obtain rfl := Option.some.inj hb
  obtain ⟨-, h4, hlt, hp⟩ := fullDisk_slot p
  exact ⟨by rw [hp], h4, hlt⟩

theorem fullDisk_ownership : fullDisk.BlockOwnership 4 := by
  have hbits : ∀ b < 143, fullDisk.bit b = true := by decide +kernel
  have hblock : ∀ b < 143, 4 ≤ b → fullDisk.owner fullDisk.dinode (1, fullPlace b) = some b := by
    decide +kernel
  refine ⟨⟨⟨⟨?_, ?_, ?_, ?_, ?_, ?_⟩, ?_, ?_, ?_⟩, fun _ => rfl, ?_, ?_, ?_⟩, ?_⟩
  iterate 8 decide +kernel
  · exact fun b hb => hbits b (by omega)
  · intro x b hx
    obtain ⟨-, h4, hlt⟩ := fullDisk_owner hx
    exact ⟨h4, hlt, hbits b hlt⟩
  · exact fun hx hy => (fullDisk_owner hx).1.trans (fullDisk_owner hy).1.symm
  · exact fun ⟨h4, hlt, _⟩ => ⟨_, hblock _ hlt h4⟩
  · intro i hl k hk
    have hlive : ∀ i < 8, (fullDisk.dinode i).type ≠ .free → i = 1 := by decide +kernel
    obtain rfl := hlive i hl.1 hl.2
    have hsize : (fullDisk.dinode 1).size = 138 * BSIZE := by decide +kernel
    rw [hsize] at hk
    exact ⟨Nat.lt_of_mul_lt_mul_right hk, (fullDisk_slot _).1⟩

def fullFile : File := { type := .inode, writable := true, ip := fullDisk.dinode 1, off := 64000 }

theorem fullFile_openOn : OpenOn fullDisk 4 1 fullFile :=
  ⟨fullDisk_ownership, by decide +kernel, by decide +kernel, rfl⟩

theorem filewrite_whole_iff_oneByte : ∃ f' s',
    filewrite (pure 0) fullFile (fun _ => 1) 1 fullDisk = .ok (1, f') s' ∧
    AllOrNothing fullDisk 1 fullFile (fun _ => 1) 1 1 f' s' := by
  have hrun : (match filewrite (pure 0) fullFile (fun _ => 1) 1 fullDisk with
      | .ok (ret, _) _ => decide (ret = 1)
      | .error _ _ => false) = true := by
    decide +kernel
  split at hrun
  · rename_i ret f' s' heq
    obtain rfl := of_decide_eq_true hrun
    refine ⟨f', s', heq, (filewrite_whole_iff fullFile_openOn rfl (by decide) heq).mpr ?_⟩
    intro hcon
    exact absurd hcon.2.2.1 (by decide)
  · cases hrun

/-- A chunk is written, and the call returns -1. -/
theorem filewrite_returns_with_chunk : ∃ f' s',
    filewrite (pure 0) fullFile (fun _ => 1) 6657 fullDisk = .ok (-1, f') s' ∧
    OpenOn fullDisk 4 1 fullFile ∧ f'.off = 70656 ∧
    ¬ AllOrNothing fullDisk 1 fullFile (fun _ => 1) 6657 (-1) f' s' := by
  have hrun : (match filewrite (pure 0) fullFile (fun _ => 1) 6657 fullDisk with
      | .ok (ret, f') _ => decide (ret = -1 ∧ f'.off = 70656)
      | .error _ _ => false) = true := by
    decide +kernel
  split at hrun
  · rename_i ret f' s' heq
    obtain ⟨rfl, hoff⟩ := of_decide_eq_true hrun
    refine ⟨f', s', heq, fullFile_openOn, hoff, fun hcon => ?_⟩
    rw [(hcon.failed rfl).2] at hoff
    exact absurd hoff (by decide)
  · cases hrun

/-! ### Several writers -/

/-- A call `filewrite(f, addr, n)`. -/
structure WriteCall where
  addr : Nat → Byte
  n : Int

/-- Chunk `k` of a call. -/
def WriteCall.chunk (c : WriteCall) (k : Nat) : Bytes :=
  (List.range (min maxChunk.toNat (c.n.toNat - k * maxChunk.toNat))).map fun j =>
    c.addr (k * maxChunk.toNat + j)

def WriteCall.chunks (c : WriteCall) : List Bytes :=
  (List.range ((c.n.toNat + maxChunk.toNat - 1) / maxChunk.toNat)).map c.chunk

section

variable {P : Type} [DecidableEq P]

/-- The calls share the file and write a chunk each, in the order given; the inode is locked from
    where a chunk reads `f->off` to where it changes it.  `i` says how far each call is. -/
def writeChunks (calls : P → WriteCall) : List P → File → (P → Nat) → FsM (File × (P → Nat))
  | [], f, i => return (f, i)
  | p :: ps, f, i => do
      let (j, f) ← filewriteLoop 1 f (calls p).addr (calls p).n (i p)
      writeChunks calls ps f (update i p j.toNat)

variable [Fintype P] {calls : P → WriteCall} {ds ino : Nat} {s₀ s : Fs} {f₀ f : File}
  {turns i : P → Nat} {log : List (P × Bytes)}

/-- After `turns` of each call the chunks in `log` have been written from the offset of `f₀` on,
    those of each call in their order. -/
structure Shares (calls : P → WriteCall) (ds ino : Nat) (s₀ : Fs) (f₀ : File) (turns i : P → Nat)
    (log : List (P × Bytes)) (f : File) (s : Fs) : Prop where
  opened : OpenOn s ds ino f
  off : f.off = f₀.off + (log.flatMap Prod.snd).length
  total : (log.flatMap Prod.snd).length = ∑ p, i p
  files : s.files = update s₀.files ino (some ((s₀.contents ino).take f₀.off ++
    log.flatMap Prod.snd ++ (s₀.contents ino).drop (f₀.off + (log.flatMap Prod.snd).length)))
  order : ∀ p, (log.filter (·.1 = p)).map Prod.snd = (calls p).chunks.take (turns p)
  done : ∀ p, i p = min (turns p * maxChunk.toNat) (calls p).n.toNat

theorem sum_update_add (p : P) (m : Nat) : ∑ q, update i p (i p + m) q = ∑ q, i q + m := by
  rw [Finset.sum_update_of_mem (Finset.mem_univ p), ← Finset.add_sum_erase _ _ (Finset.mem_univ p),
    Finset.sdiff_singleton_eq_erase]
  omega

theorem chunks_take {c : WriteCall} {k : Nat} (h : k * maxChunk.toNat < c.n.toNat) :
    c.chunks.take (k + 1) = c.chunks.take k ++ [c.chunk k] := by
  have hpos : 0 < maxChunk.toNat := by decide
  have hk : k < (c.n.toNat + maxChunk.toNat - 1) / maxChunk.toNat := by
    rw [Nat.lt_div_iff_mul_lt hpos]
    omega
  rw [List.take_add_one]
  simp [WriteCall.chunks, hk]

theorem length_chunks_le {c : WriteCall} {k : Nat} :
    c.chunks.length ≤ k ↔ c.n.toNat ≤ k * maxChunk.toNat := by
  have hpos : 0 < maxChunk.toNat := by decide
  rw [WriteCall.chunks, List.length_map, List.length_range, ← Nat.lt_succ_iff,
    Nat.div_lt_iff_lt_mul hpos, Nat.succ_mul]
  omega

theorem Shares.step {p : P} (h : Shares calls ds ino s₀ f₀ turns i log f s)
    (hoff : f₀.off ≤ (s₀.dinode ino).size)
    (hfit : f₀.off + ∑ p, (calls p).n.toNat ≤ MAXFILE * BSIZE) :
    wp (filewriteLoop 1 f (calls p).addr (calls p).n (i p))
      (fun r s' => ∃ log', Shares calls ds ino s₀ f₀ (update turns p (turns p + 1))
        (update i p r.1.toNat) log' r.2 s') (fun _ _ => True) s := by
  have hi := h.done p
  by_cases hlt : i p < (calls p).n.toNat
  · obtain ⟨k, hk⟩ : ∃ k, (calls p).n.toNat = i p + k := ⟨_, (Nat.add_sub_cancel' hlt.le).symm⟩
    have hn : (calls p).n = ((i p + k : Nat) : Int) := by omega
    have hstart : turns p * maxChunk.toNat = i p := by omega
    generalize hm : min maxChunk.toNat k = m
    have hchunk : (calls p).chunk (turns p) =
        (List.range m).map fun j => (calls p).addr (i p + j) := by
      unfold WriteCall.chunk
      rw [hstart, hk, Nat.add_sub_cancel_left, hm]
    have hsum : ∑ q, i q + m ≤ ∑ q, (calls q).n.toNat := by
      rw [← sum_update_add p m]
      refine Finset.sum_le_sum fun q _ => ?_
      by_cases hq : q = p
      · rw [hq, update_self]
        omega
      · rw [update_of_ne hq, h.done]
        exact Nat.min_le_right _ _
    have hcontents := h.opened.contents_eq h.files
    have hle : f.off ≤ (s.dinode ino).size := by
      rw [← Fs.length_contents, hcontents, h.off]
      simp [Fs.length_contents, hoff]
    have hfits : f.off + m ≤ MAXFILE * BSIZE := by
      rw [h.off, h.total]
      omega
    rw [hn]
    refine filewriteLoop_chunk h.opened (by omega) hm hle hfits fun f' s' hw _ =>
      ⟨log ++ [(p, (calls p).chunk (turns p))], hw.opened, ?_, ?_, ?_, fun q => ?_, fun q => ?_⟩
    · rw [hw.off, h.off]
      simp [hchunk, Nat.add_assoc]
    · rw [Int.toNat_natCast, sum_update_add, ← h.total]
      simp [hchunk]
    · rw [hw.files, h.files, update_idem, hcontents, h.off,
        Bytes.put_append (by rwa [Fs.length_contents])]
      simp [hchunk]
    · by_cases hq : q = p
      · rw [hq, update_self, chunks_take (by omega), ← h.order]
        simp
      · rw [update_of_ne hq, ← h.order]
        simp [Ne.symm hq]
    · by_cases hq : q = p
      · rw [hq, update_self, update_self, Nat.succ_mul]
        omega
      · rw [update_of_ne hq, update_of_ne hq, h.done]
  · unfold filewriteLoop
    rw [if_neg (by omega)]
    refine ⟨log, h.opened, h.off, ?_, h.files, fun q => ?_, fun q => ?_⟩
    · rw [Int.toNat_natCast, update_eq_self, h.total]
    · rw [h.order]
      by_cases hq : q = p
      · have hall : (calls p).chunks.length ≤ turns p := length_chunks_le.mpr (by omega)
        rw [hq, update_self, List.take_of_length_le hall, List.take_of_length_le (by omega)]
      · rw [update_of_ne hq]
    · rw [Int.toNat_natCast, update_eq_self]
      by_cases hq : q = p
      · rw [hq, update_self, Nat.succ_mul]
        omega
      · rw [update_of_ne hq, h.done]

theorem Shares.run (hoff : f₀.off ≤ (s₀.dinode ino).size)
    (hfit : f₀.off + ∑ p, (calls p).n.toNat ≤ MAXFILE * BSIZE) (ps : List P)
    (h : Shares calls ds ino s₀ f₀ turns i log f s) :
    wp (writeChunks calls ps f i) (fun r s' => ∃ log', Shares calls ds ino s₀ f₀
      (fun p => turns p + ps.count p) r.2 log' r.1 s') (fun _ _ => True) s := by
  induction ps generalizing turns f i s log with
  | nil => exact ⟨log, h⟩
  | cons p ps ih =>
    unfold writeChunks
    refine wp_seq (h.step hoff hfit) fun r s' hr => ?_
    obtain ⟨log', h'⟩ := hr
    have hcount : (fun q => update turns p (turns p + 1) q + ps.count q) =
        fun q => turns q + (p :: ps).count q := by
      funext q
      by_cases hq : q = p
      · simp [hq, Nat.add_right_comm, Nat.add_assoc]
      · simp [hq, Ne.symm hq]
    rw [← hcount]
    exact ih h'

/-- No chunk of the calls is lost, and the file ends up behind all of them.  The offset of an open
    file is never behind its size. -/
theorem shared_writes (calls : P → WriteCall) (ps : List P) (ho : OpenOn s ds ino f)
    (hoff : f.off ≤ (s.dinode ino).size) (hfit : f.off + ∑ p, (calls p).n.toNat ≤ MAXFILE * BSIZE)
    (hturns : ∀ p, (calls p).chunks.length ≤ ps.count p) {f' : File} {s' : Fs}
    (hrun : writeChunks calls ps f (fun _ => 0) s = .ok (f', i) s') :
    ∃ log : List (P × Bytes), (∀ p, (log.filter (·.1 = p)).map Prod.snd = (calls p).chunks) ∧
      s'.files = update s.files ino (some ((s.contents ino).take f.off ++
        log.flatMap Prod.snd ++ (s.contents ino).drop (f.off + (log.flatMap Prod.snd).length))) ∧
      (∀ p, i p = (calls p).n.toNat) ∧ f'.off = f.off + ∑ p, (calls p).n.toNat := by
  have hstart : Shares calls ds ino s f (fun _ => 0) (fun _ => 0) [] f s := by
    refine ⟨ho, rfl, by simp, ?_, fun p => rfl, by simp⟩
    simp [← Fs.files_of_live ho.live]
  have hend := hstart.run hoff hfit ps
  unfold wp at hend
  rw [hrun] at hend
  obtain ⟨log, h⟩ : ∃ log, Shares calls ds ino s f (fun p => 0 + ps.count p) i log f' s' := hend
  have hi : ∀ p, i p = (calls p).n.toNat := by
    intro p
    rw [h.done, Nat.zero_add]
    exact min_eq_right (length_chunks_le.mp (hturns p))
  refine ⟨log, fun p => ?_, h.files, hi, ?_⟩
  · rw [h.order, Nat.zero_add, List.take_of_length_le (hturns p)]
  · rw [h.off, h.total, Finset.sum_congr rfl fun p _ => hi p]

end

def oneByte (_ : Bool) : WriteCall := ⟨fun _ => 1, 1⟩

theorem shared_writes_two : ∃ f' s' i,
    writeChunks oneByte [true, false] fullFile (fun _ => 0) fullDisk = .ok (f', i) s' ∧
    f'.off = 64002 := by
  have hrun : (match writeChunks oneByte [true, false] fullFile (fun _ => 0) fullDisk with
      | .ok _ _ => true
      | .error _ _ => false) = true := by
    decide +kernel
  split at hrun
  · rename_i r s' heq
    obtain ⟨_, -, -, -, hoff⟩ := shared_writes oneByte _ fullFile_openOn (by decide +kernel)
      (by decide) (by decide) heq
    exact ⟨r.1, s', r.2, heq, hoff⟩
  · cases hrun

end Xv6Kernel
