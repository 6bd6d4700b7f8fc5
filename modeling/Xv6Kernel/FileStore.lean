/-
  FileStore.lean
  ==============
  `readi` and `writei` on a disk in order are reads and writes of byte arrays.

  `BlockOwnership s ds` is the order that `fs.c` keeps on the disk.  The specification is a
  map from inode numbers to lists of bytes, with a read and a write; `Fs.files` relates a
  disk to such a map.
-/
import Xv6Kernel.FileBytes

namespace Xv6Kernel

open PanicMonad Function List

/-! ### Disks in order -/

/-- Each block in use is at one place of one inode, and the blocks below the size of a file
    are there. -/
structure Fs.BlockOwnership (s : Fs) (ds : Nat) : Prop where
  owned : s.Owned ds s.dinode
  full : ∀ i, s.Live s.dinode i → s.Full (s.dinode i)

/-- Inode `i` of the disk has become `ip'` with the bytes of `f`, and the others are as
    before. -/
structure Updated (s : Fs) (ds i : Nat) (s' : Fs) (ip' : Inode) (f : Nat → Byte) : Prop where
  ownership : s'.BlockOwnership ds
  self : s'.dinode i = ip'
  bytes : ∀ k, k < ip'.size → s'.byteAt ip' k = f k
  others : ∀ j, j ≠ i → j < s.sb.ninodes → s'.dinode j = s.dinode j
  otherBytes : ∀ j, j ≠ i → s.Live s.dinode j → ∀ k,
    s'.byteAt (s.dinode j) k = s.byteAt (s.dinode j) k
  setup : s.SameSetup s'

section

variable {s s' : Fs} {ds i : Nat} {ip' : Inode} {Q : Finset Place}

/-- With a block, a file has the indirect block on the way to it. -/
theorem slot_path (h : s.slot ip (.ofIndex k) ≠ 0) (hp : p ∈ Place.path k) : s.slot ip p ≠ 0 := by
  unfold Place.path at hp
  by_cases hd : k < NDIRECT
  · rw [if_pos hd] at hp
    rwa [Finset.mem_singleton.mp hp]
  · rw [if_neg hd, Finset.mem_insert, Finset.mem_singleton] at hp
    rcases hp with rfl | rfl
    · intro hind
      unfold Place.ofIndex at h
      rw [if_neg hd] at h
      exact h (Fs.slot_entry_of_zero hind)
    · exact h

theorem Fs.Full.missing_eq_empty (h : s.Full ip) (hsize : off + n ≤ ip.size) :
    s.missing ip (Fs.touched off n) = ∅ := by
  refine Finset.filter_eq_empty_iff.mpr fun p hp => ?_
  obtain ⟨m, hm, hpath⟩ := Finset.mem_biUnion.mp hp
  have hle := Nat.div_mul_le_self (off + m) BSIZE
  have hlt := Finset.mem_range.mp hm
  exact slot_path (h _ (by omega)).2 hpath

theorem Placed.eq_of_empty (h : Placed s ds ino i s' ip' ∅) : ip' = ino i := by
  have haddrs : ip'.addrs = (ino i).addrs := by
    funext k
    exact h.old (.addr k) (Finset.notMem_empty _)
  rw [h.keeps, haddrs]

/-- The blocks of a write that makes the file longer are there afterwards. -/
theorem Placed.full_of_grow (h : Placed s ds ino i s' ip' (s.missing (ino i) (Fs.touched off n)))
    (hfull : s.Full (ino i)) (hoff : off ≤ (ino i).size)
    (hmax : off + n ≤ MAXFILE * BSIZE) : s'.Full { ip' with size := off + n } := by
  intro k hk
  have hkmax : k < MAXFILE := by
    have hb : 0 < BSIZE := by decide
    exact Nat.lt_of_mul_lt_mul_right (a := BSIZE) (by
      change k * BSIZE < off + n at hk
      omega)
  have hslot : s'.slot { ip' with size := off + n } (.ofIndex k) = s'.slot ip' (.ofIndex k) := by
    cases Place.ofIndex k <;> rfl
  refine ⟨hkmax, ?_⟩
  rw [hslot]
  by_cases hz : s.slot (ino i) (.ofIndex k) = 0
  · have hbig : (ino i).size ≤ k * BSIZE := by
      by_contra hlt
      exact (hfull k (by omega)).2 hz
    refine h.filled _ (Finset.mem_filter.mpr ⟨Finset.mem_biUnion.mpr ⟨k * BSIZE - off, ?_, ?_⟩, hz⟩)
    · change k * BSIZE < off + n at hk
      exact Finset.mem_range.mpr (by omega)
    · rw [show off + (k * BSIZE - off) = k * BSIZE by omega, Nat.mul_div_cancel _ (by decide)]
      exact Place.ofIndex_mem_path
  · rw [h.old _ fun hcon => hz (Finset.mem_filter.mp hcon).2]
    exact hz

/-- A disk on which one inode has been rewritten is in order. -/
theorem Fs.BlockOwnership.of_inode (ho : s.BlockOwnership ds)
    (howned : s'.Owned ds (update s.dinode i ip')) (hsb : s'.sb = s.sb)
    (hdinode : ∀ j, j < s.sb.ninodes → s'.dinode j = update s.dinode i ip' j)
    (hothers : ∀ j, j ≠ i → s.Live s.dinode j → ∀ p, s'.slot (s.dinode j) p = s.slot (s.dinode j) p)
    (hfull : ip'.type ≠ .free → s'.Full ip') : s'.BlockOwnership ds := by
  have howned' : s'.Owned ds s'.dinode :=
    howned.congr (fun _ => rfl) fun j hj => hdinode j (by rwa [hsb] at hj)
  refine ⟨howned', ?_⟩
  rintro j ⟨hj, htype⟩
  rw [hsb] at hj
  rw [hdinode j hj] at htype ⊢
  by_cases hji : j = i
  · subst hji
    rw [update_self] at htype ⊢
    exact hfull htype
  · rw [update_of_ne hji] at htype ⊢
    intro k hk
    rw [hothers j hji ⟨hj, htype⟩]
    exact ho.full j ⟨hj, htype⟩ k hk

section

variable {ip₂ : Inode} {j : Nat}

variable (h : Placed s ds s.dinode i s' ip' Q) (hip : ip₂ = { ip' with size := ip₂.size })

include h hip

/-- The inode with its new blocks and another size is in order with the other ones. -/
theorem Placed.owned_resized : s'.Owned ds (update s.dinode i ip₂) := by
  refine h.owned.of_addrs ?_ ?_ ?_ <;> intro j <;> by_cases hj : j = i
  · rw [hj, update_self, hip, h.keeps]
    rfl
  · rw [update_of_ne hj]
    rfl
  · rw [hj, update_self, update_self, hip]
  · rw [update_of_ne hj, update_of_ne hj]
  · rw [hj, update_self, update_self, hip]
  · rw [update_of_ne hj, update_of_ne hj]

theorem Placed.live_resized (hl : s.Live s.dinode j) : s'.Live (update s.dinode i ip₂) j := by
  refine ⟨by rw [h.setup.sb]; exact hl.1, ?_⟩
  by_cases hji : j = i
  · subst hji
    rw [update_self, hip, h.keeps]
    exact hl.2
  · rw [update_of_ne hji]
    exact hl.2

theorem Placed.inum_resized (hl : s.Live s.dinode i) : ip₂.inum = i ∧ ip₂.inum < s'.sb.ninodes := by
  have hinum : ip₂.inum = i := by
    rw [hip, h.keeps]
    rfl
  rw [hinum, h.setup.sb]
  exact ⟨rfl, hl.1⟩

/-- Writing the inode to the disk moves no block. -/
theorem Placed.slot_resized (hl : s.Live s.dinode i) (p : Place) :
    (s'.setDinode ip₂).slot ip₂ p = s'.slot ip' p := by
  have hslot := (h.owned_resized hip).slot_setDinode (p := p) (h.inum_resized hip hl).2
    (h.live_resized hip hl)
  rw [update_self] at hslot
  rw [hslot]
  exact Fs.slot_of_addrs (by rw [hip])

theorem Placed.slot_resized_of_ne (hl : s.Live s.dinode i) (hj : j ≠ i)
    (hlj : s.Live s.dinode j) (p : Place) :
    (s'.setDinode ip₂).slot (s.dinode j) p = s.slot (s.dinode j) p := by
  have hslot := (h.owned_resized hip).slot_setDinode (p := p) (h.inum_resized hip hl).2
    (h.live_resized hip hlj)
  rw [update_of_ne hj] at hslot
  rw [hslot, h.others j hj hlj p]

end

theorem Wrote.updated_of_grow (h : Wrote s ds s.dinode i s' ip' (s.missing (s.dinode i)
      (Fs.touched off n)) f) (ho : s.BlockOwnership ds) (hl : s.Live s.dinode i)
    (hoff : off ≤ (s.dinode i).size) (hmax : off + n ≤ MAXFILE * BSIZE) :
    Updated s ds i (s'.setDinode { ip' with size := off + n }) { ip' with size := off + n } f := by
  have hsmall : MAXFILE * BSIZE < 2 ^ 32 := by decide
  have hfull := h.toPlaced.full_of_grow (ho.full i hl) hoff hmax
  obtain ⟨ip₂, hip₂⟩ : ∃ ip₂ : Inode, ip₂ = { ip' with size := off + n } := ⟨_, rfl⟩
  have hsize : ip₂.size = off + n := by rw [hip₂]
  have haddrs : ip₂.addrs = ip'.addrs := by rw [hip₂]
  rw [← hip₂] at hfull ⊢
  rw [← hsize] at hip₂
  obtain ⟨hinum, hi⟩ := h.toPlaced.inum_resized hip₂ hl
  have hown := h.toPlaced.owned_resized hip₂
  have hdinode : ∀ j, j < s.sb.ninodes → (s'.setDinode ip₂).dinode j = update s.dinode i ip₂ j := by
    intro j hj
    rw [Fs.dinode_setDinode h.owned.formatted.geo hi (by omega) (by rwa [h.setup.sb]), hinum]
    by_cases hji : j = i
    · rw [hji, update_self, update_self]
    · rw [update_of_ne hji, update_of_ne hji, h.dinode j hj]
  refine ⟨ho.of_inode (hown.setDinode hi) h.setup.sb hdinode
    (fun j hj hlj p => h.toPlaced.slot_resized_of_ne hip₂ hl hj hlj p) fun _ k hk => ?_, ?_, ?_, ?_,
    ?_, h.setup.trans .logged⟩
  · rw [h.toPlaced.slot_resized hip₂ hl, ← Fs.slot_of_addrs haddrs]
    exact hfull k hk
  · rw [hdinode i hl.1, update_self]
  · intro k hk
    have hbyte := hown.byteAt_setDinode (k := k) hi (h.toPlaced.live_resized hip₂ hl)
    rw [update_self] at hbyte
    rw [hbyte, Fs.byteAt_of_addrs haddrs, h.bytes k (by omega)]
  · intro j hji hj
    rw [hdinode j hj, update_of_ne hji]
  · intro j hji hlj k
    have hbyte := hown.byteAt_setDinode (k := k) hi (h.toPlaced.live_resized hip₂ hlj)
    rw [update_of_ne hji] at hbyte
    rw [hbyte, h.otherBytes j hji hlj k]

theorem Wrote.updated_of_stay (h : Wrote s ds s.dinode i s' ip' ∅ f) (ho : s.BlockOwnership ds)
    (hl : s.Live s.dinode i) : Updated s ds i s' (s.dinode i) f := by
  obtain rfl := h.toPlaced.eq_of_empty
  have hsize := (ho.full i hl).size_le
  have hown := h.owned
  have hdinode : ∀ j, j < s.sb.ninodes → s'.dinode j = update s.dinode i (s.dinode i) j := by
    intro j hj
    rw [update_eq_self, h.dinode j hj]
  refine ⟨ho.of_inode hown h.setup.sb hdinode h.others fun _ k hk => ?_, h.dinode i hl.1, ?_,
    fun j _ hj => h.dinode j hj, h.otherBytes, h.setup⟩
  · rw [h.old _ (Finset.notMem_empty _)]
    exact ho.full i hl k hk
  · intro k hk
    exact h.bytes k (by omega)

/-- `writei` on a disk in order. -/
theorem writei_wp_updated (ho : s.BlockOwnership ds)
    (hl : s.Live s.dinode i) (hdev : (s.dinode i).type ≠ .dev) (hoff : off ≤ (s.dinode i).size)
    (hmax : off + n ≤ MAXFILE * BSIZE) (hout : s.current = none → ∀ t, E .outsideOfTrans t)
    (hfull : s.freeBlocks < (s.missing (s.dinode i) (Fs.touched off n)).card →
      ∀ t, E .ballocOutOfBlocks t)
    (hok : ∀ s' ip', Updated s ds i s' ip' (overlay (s.byteAt (s.dinode i)) off n src) →
      ip' = { s.dinode i with size := max (s.dinode i).size (off + n), addrs := ip'.addrs } →
      P (n, ip') s') :
    wp (writei (s.dinode i) src off n) P E s := by
  refine writei_wp_wrote ho.owned hl hdev hoff hmax hout hfull fun s' ip' hw => ?_
  by_cases hgrow : 0 < n ∧ (s.dinode i).size < off + n
  · rw [if_pos hgrow]
    refine hok _ _ (hw.updated_of_grow ho hl hoff hmax) ?_
    rw [Nat.max_eq_right (by omega)]
    rw [hw.keeps]
  · rw [if_neg hgrow]
    have hle : off + n ≤ (s.dinode i).size := by omega
    rw [(ho.full i hl).missing_eq_empty hle] at hw
    obtain rfl := hw.toPlaced.eq_of_empty
    refine hok _ _ (hw.updated_of_stay ho hl) ?_
    rw [Nat.max_eq_left hle]

end

/-! ### Byte arrays -/

abbrev Bytes := List Byte

namespace Bytes

/-- A write returns -1 and does nothing, or replaces bytes and makes the array longer where
    necessary. -/
def write (f : Bytes) (src : Nat → Byte) (off n : Nat) : Int × Bytes :=
  if f.length < off ∨ 2 ^ 32 ≤ off + n ∨ MAXFILE * BSIZE < off + n then (-1, f)
  else (n, f.take off ++ (List.range n).map src ++ f.drop (off + n))

def read (f : Bytes) (off n : Nat) : Int × Bytes :=
  if f.length < off ∨ 2 ^ 32 ≤ off + n then (-1, [])
  else (((f.drop off).take n).length, (f.drop off).take n)

end Bytes

namespace Fs

variable {s : Fs} {i : Nat}

def contents (s : Fs) (i : Nat) : Bytes :=
  (List.range (s.dinode i).size).map (s.byteAt (s.dinode i))

/-- The contents of the allocated inodes. -/
def files (s : Fs) (i : Nat) : Option Bytes :=
  if s.Live s.dinode i then some (s.contents i) else none

theorem length_contents : (s.contents i).length = (s.dinode i).size := by
  unfold contents
  rw [length_map, length_range]

theorem files_of_live (h : s.Live s.dinode i) : s.files i = some (s.contents i) := if_pos h

end Fs

section

variable {s s' : Fs} {i : Nat} {ip' : Inode} {off n : Nat} {src f : Nat → Byte}

/-- The bytes under an overlay, as a list. -/
theorem map_overlay (hoff : off ≤ size) :
    (List.range (max size (off + n))).map (overlay f off n src) =
      ((List.range size).map f).take off ++ (List.range n).map src ++
        ((List.range size).map f).drop (off + n) := by
  have htake : (((List.range size).map f).take off).length = off := by
    rw [length_take, length_map, length_range]
    omega
  have hsrc : ((List.range n).map src).length = n := by rw [length_map, length_range]
  rw [append_assoc]
  apply ext_getElem
  · simp only [length_append, htake, hsrc, length_drop, length_map, length_range]
    omega
  · intro k hk _
    rw [length_map, length_range] at hk
    rw [getElem_map, getElem_range]
    unfold overlay
    by_cases hlow : k < off
    · rw [if_neg (by omega), getElem_append_left (by omega), getElem_take,
        getElem_map, getElem_range]
    · rw [getElem_append_right (by omega)]
      by_cases hmid : k < off + n
      · rw [if_pos ⟨by omega, hmid⟩, getElem_append_left (by omega), getElem_map,
          getElem_range, htake]
      · rw [if_neg (by omega), getElem_append_right (by omega), getElem_drop,
          getElem_map, getElem_range, htake, hsrc]
        exact congrArg f (by omega)

theorem Updated.files_eq (h : Updated s ds i s' ip' f) (hl : s.Live s.dinode i)
    (htype : ip'.type = (s.dinode i).type) :
    s'.files = update s.files i (some ((List.range ip'.size).map f)) := by
  funext j
  have hnin : s'.sb.ninodes = s.sb.ninodes := by rw [h.setup.sb]
  by_cases hj : j = i
  · subst hj
    have hlive : s'.Live s'.dinode j := by
      refine ⟨by rw [hnin]; exact hl.1, ?_⟩
      rw [h.self, htype]
      exact hl.2
    rw [update_self, Fs.files_of_live hlive]
    unfold Fs.contents
    rw [h.self]
    exact congrArg some (map_congr_left fun k hk => h.bytes k (mem_range.mp hk))
  · rw [update_of_ne hj]
    by_cases hlj : s.Live s.dinode j
    · have hsame := h.others j hj hlj.1
      have hlive : s'.Live s'.dinode j := ⟨by rw [hnin]; exact hlj.1, by rw [hsame]; exact hlj.2⟩
      rw [Fs.files_of_live hlive, Fs.files_of_live hlj]
      unfold Fs.contents
      rw [hsame]
      exact congrArg some (map_congr_left fun k _ => h.otherBytes j hj hlj k)
    · refine (if_neg fun hcon => hlj ?_).trans (if_neg hlj).symm
      have hlt : j < s.sb.ninodes := by
        rw [← hnin]
        exact hcon.1
      refine ⟨hlt, ?_⟩
      rw [← h.others j hj hlt]
      exact hcon.2

/-- The bytes that `readi` copies, as a part of the contents. -/
theorem drop_take_map_range : (((List.range size).map f).drop off).take n =
      (List.range (min (off + n) size - off)).map fun k => f (off + k) := by
  apply ext_getElem
  · simp only [length_take, length_drop, length_map, length_range]
    omega
  · intro k _ _
    rw [getElem_take, getElem_drop, getElem_map, getElem_range, getElem_map, getElem_range]

end

/-! ### Calls -/

/-- A call of `writei` or `readi` on the inode with a number, which the caller has locked. -/
inductive FileCall where
  | writei (i : Nat) (src : Nat → Byte) (off n : Nat)
  | readi (i off n : Nat)

namespace FileCall

/-- The value that a call returns and the bytes that it copies to `dst`. -/
def exec : FileCall → FsM (Int × Bytes)
  | writei i src off n => do
      let (r, _) ← Xv6Kernel.writei ((← get).dinode i) src off n
      return (r, [])
  | readi i off n => do
      let (r, bytes, _) ← Xv6Kernel.readi ((← get).dinode i) off n
      return (r, bytes)

def execAll : List FileCall → FsM (List (Int × Bytes))
  | [] => return []
  | c :: cs => do
      let r ← c.exec
      let rs ← execAll cs
      return r :: rs

/-- The same call on byte arrays. -/
def onBytes (m : Nat → Option Bytes) : FileCall → (Int × Bytes) × (Nat → Option Bytes)
  | writei i src off n =>
      match m i with
      | some f => (((f.write src off n).1, []), update m i (some (f.write src off n).2))
      | none => ((-1, []), m)
  | readi i off n =>
      match m i with
      | some f => (f.read off n, m)
      | none => ((-1, []), m)

def allOnBytes (m : Nat → Option Bytes) :
    List FileCall → List (Int × Bytes) × (Nat → Option Bytes)
  | [] => ([], m)
  | c :: cs => ((c.onBytes m).1 :: (allOnBytes (c.onBytes m).2 cs).1,
      (allOnBytes (c.onBytes m).2 cs).2)

/-- The inode is allocated and not a device, and the arguments are 32-bit numbers. -/
def Proper (s : Fs) : FileCall → Prop
  | writei i _ off n | readi i off n =>
      s.Live s.dinode i ∧ (s.dinode i).type ≠ .dev ∧ off < 2 ^ 32 ∧ n < 2 ^ 32

/-- The free blocks suffice for the call. -/
def Enough (s : Fs) : FileCall → Prop
  | writei i _ off n =>
      off ≤ (s.dinode i).size → off + n ≤ MAXFILE * BSIZE →
        (s.missing (s.dinode i) (Fs.touched off n)).card ≤ s.freeBlocks
  | readi .. => True

/-- They do so for each call when its turn comes. -/
def EnoughForAll : List FileCall → Fs → Prop
  | [], _ => True
  | c :: cs, s => c.Enough s ∧ ∀ r s', c.exec s = .ok r s' → EnoughForAll cs s'

end FileCall

section

variable {s : Fs} {ds : Nat}

/-- One call does what it does to byte arrays. -/
theorem FileCall.exec_wp {c : FileCall} (ho : s.BlockOwnership ds) (hc : s.current ≠ none)
    (hp : c.Proper s) (he : c.Enough s) :
    wp c.exec (fun r s' => (r, s'.files) = c.onBytes s.files ∧ s'.BlockOwnership ds ∧
      s'.current ≠ none ∧ s'.sb = s.sb ∧
      ∀ j, j < s.sb.ninodes → (s'.dinode j).type = (s.dinode j).type) (fun _ _ => False) s := by
  cases c with
  | writei i src off n =>
    obtain ⟨hl, hdev, hoff, hn⟩ := hp
    have hfiles := Fs.files_of_live hl
    simp only [exec, onBytes, hfiles, wp_bind, wp_get, Bytes.write, Fs.length_contents]
    by_cases hbad : (s.dinode i).size < off ∨ 2 ^ 32 ≤ off + n ∨ MAXFILE * BSIZE < off + n
    · refine wp_of_ok (writei_fails hdev hoff hn hbad) ?_
      rw [if_pos hbad, ← hfiles, update_eq_self]
      exact ⟨rfl, ho, hc, rfl, fun _ _ => rfl⟩
    · rw [if_neg hbad]
      refine writei_wp_updated ho hl hdev (by omega) (by omega) (fun h => absurd h hc)
        (fun h => absurd (he (by omega) (by omega)) (by omega)) fun s' ip' hup hip' => ?_
      have htype : ip'.type = (s.dinode i).type := by rw [hip']
      have hsize : ip'.size = max (s.dinode i).size (off + n) := by rw [hip']
      refine ⟨?_, hup.ownership, fun h => hc (hup.setup.current.mp h), hup.setup.sb, ?_⟩
      · rw [hup.files_eq hl htype, hsize, map_overlay (by omega)]
        rfl
      · intro j hj
        by_cases hji : j = i
        · rw [hji, hup.self, htype]
        · rw [hup.others j hji hj]
  | readi i off n =>
    obtain ⟨hl, hdev, hoff, hn⟩ := hp
    have hfiles := Fs.files_of_live hl
    simp only [exec, onBytes, hfiles, wp_bind, wp_get, Bytes.read, Fs.length_contents]
    apply readi_wp_full (ho.full i hl) hdev hoff hn
    · intro hbad
      rw [if_pos hbad]
      exact ⟨rfl, ho, hc, rfl, fun _ _ => rfl⟩
    · intro hle hlt
      unfold Fs.contents
      rw [if_neg (by omega), drop_take_map_range, length_map, length_range]
      exact ⟨rfl, ho, hc, rfl, fun _ _ => rfl⟩

theorem FileCall.execAll_wp : ∀ (cs : List FileCall) (s : Fs), s.BlockOwnership ds →
    s.current ≠ none → (∀ c ∈ cs, c.Proper s) → EnoughForAll cs s →
    wp (execAll cs) (fun rs s' => (rs, s'.files) = allOnBytes s.files cs ∧ s'.BlockOwnership ds)
      (fun _ _ => False) s := by
  intro cs
  induction cs with
  | nil =>
    intro s ho _ _ _
    exact ⟨rfl, ho⟩
  | cons c cs ih =>
    intro s ho hc hp he
    obtain ⟨r, s₁, hexec, hr, ho₁, hc₁, hsb, htype⟩ :=
      exists_ok_of_wp (exec_wp ho hc (hp c mem_cons_self) he.1)
    have hproper : ∀ d ∈ cs, d.Proper s₁ := by
      intro d hd
      have hold := hp d (mem_cons_of_mem c hd)
      cases d with
      | writei i _ off n | readi i off n =>
        obtain ⟨⟨hi, hfree⟩, hdev, hargs⟩ := hold
        refine ⟨⟨by rwa [hsb], ?_⟩, ?_, hargs⟩
        · rwa [htype i hi]
        · rwa [htype i hi]
    obtain ⟨rs, s₂, hrest, hrs, ho₂⟩ := exists_ok_of_wp (ih s₁ ho₁ hc₁ hproper (he.2 r s₁ hexec))
    unfold execAll
    rw [wp_bind]
    refine wp_of_ok hexec ?_
    rw [wp_bind]
    refine wp_of_ok hrest ⟨?_, ho₂⟩
    simp only [allOnBytes, ← hr, ← hrs]

end

/-! ### A small disk -/

/-- A disk of eight blocks with an empty file, inode 1. -/
def oneFileDisk : Fs where
  sb := { size := 8, ninodes := 8, inodestart := 2, bmapstart := 3 }
  devsw := fun _ => none
  devswRead := fun _ => none
  cache := fun b w =>
    if b = 1 then if w = 0 ∨ w = 2 then 8 else if w = 5 then 2 else if w = 6 then 3 else 0
    else if b = 2 then if w = 16 then 2 else 0
    else if b = 3 then if w = 0 then 15 else 0
    else 0
  current := some []
  done := []

theorem oneFileDisk_formatted : oneFileDisk.Formatted 4 where
  geo := by
    have hipb : IPB = 8 := rfl
    have hbpb : BPB = 4096 := rfl
    refine ⟨by decide, fun i hi => ?_, fun b hb => ?_, by decide, by decide, by decide⟩
    · change i < 8 at hi
      change i / IPB + 2 < 3
      rw [hipb]
      omega
    · change b < 8 at hb
      change b / BPB + 3 < 4
      rw [hbpb]
      omega
  inodes := by decide
  superblock := by decide
  metadata := by decide

/-- A disk on which no inode has a block. -/
theorem Fs.Formatted.ownership_of_empty {s : Fs} {ds : Nat} (hf : s.Formatted ds)
    (haddr : ∀ i, i < s.sb.ninodes → ∀ k, s.slot (s.dinode i) (.addr k) = 0)
    (hfree : ∀ b, b < s.sb.size → ds ≤ b → s.bit b = false)
    (hsize : ∀ i, i < s.sb.ninodes → (s.dinode i).size = 0) : s.BlockOwnership ds := by
  have hnone : ∀ x, s.owner s.dinode x = none := by
    rintro ⟨i, p⟩
    refine if_neg fun hcon => hcon.2 ?_
    cases p with
    | addr k => exact haddr i hcon.1.1 k
    | entry k => exact Fs.slot_entry_of_zero (haddr i hcon.1.1 _)
  refine ⟨⟨hf, fun _ => rfl, ?_, ?_, ?_⟩, ?_⟩
  · intro x b hx
    rw [hnone] at hx
    cases hx
  · intro x y b hx
    rw [hnone] at hx
    cases hx
  · rintro b ⟨hds, hb, hbit⟩
    rw [hfree b hb hds] at hbit
    cases hbit
  · rintro i ⟨hi, -⟩ k hk
    rw [hsize i hi] at hk
    omega

theorem oneFileDisk_ownership : oneFileDisk.BlockOwnership 4 :=
  oneFileDisk_formatted.ownership_of_empty (by decide) (by decide) (by decide)

end Xv6Kernel
