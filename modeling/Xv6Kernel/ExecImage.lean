/-
  ExecImage.lean
  ==============
  The memory that `exec` builds from an executable file.

  The segment loop extends one run of user pages from address 0 up and copies the file parts of the
  segments into it, so that a later segment wins over an earlier one.  The state of the loop is
  told by the end of the program so far and by the bytes of its memory (`Segments`); `stackPages`
  then adds the guard page and the stack page.
-/
import Xv6Kernel.CopyOut

namespace Xv6Kernel

open PanicMonad List

/-! ### `allocuvm` with enough memory -/

/-- A frame has been taken off the free list. -/
theorem Spare.take (h : Spare T (n + 1) d s)
    (hfree : s.free = mem :: ps) : Spare T n d { s with free := ps, user := user } := by
  unfold Spare at h ⊢
  rw [hfree, length_cons] at h
  dsimp only
  omega

namespace Ram

variable {bound a : Nat}

section

variable {n : Nat}

theorem pgRoundUp_lt (h : sz < KERNBASE) : pgRoundUp sz < sz + PGSIZE := by
  unfold pgRoundUp
  unfold PGSIZE ADDRESSES KERNBASE at *
  omega

theorem allocLoop_spare_wp
    (hsz : newsz < KERNBASE) (ha : a % PGSIZE = 0) (hT : ∀ x < newsz, PDX x ∈ T)
    (hclear : ∀ x, a ≤ x → x < KERNBASE → d.getPte x = none) (hn : a + n * PGSIZE = pgRoundUp newsz)
    (hfuel : n ≤ fuel) (h : Spare T (n + m) d s) (hshort : s.short = false)
    (hok : ∀ d' s', Spare T m d' s' → s'.short = false → P (newsz, d') s') :
    wp (Xv6Kernel.allocLoop K oldsz newsz fuel d a) P E s := by
  have hround := le_pgRoundUp hsz
  have hlast := pgRoundUp_lt hsz
  induction fuel generalizing d s a n with
  | zero =>
    rw [Nat.le_zero.mp hfuel, Nat.zero_add] at h
    exact hok d s h hshort
  | succ fuel ih =>
    unfold Xv6Kernel.allocLoop
    cases n with
    | zero =>
      rw [Nat.zero_mul, Nat.add_zero] at hn
      rw [Nat.zero_add] at h
      rw [if_neg (by omega)]
      exact hok d s h hshort
    | succ n =>
      rw [Nat.succ_mul] at hn
      rw [Nat.succ_add_eq_add_succ] at h
      have hlt : a < newsz := by omega
      have hak : a < KERNBASE := hlt.trans hsz
      rw [if_pos hlt, wp_bind]
      refine kalloc_pop_wp (fun hnil => ?_) fun mem ps hfree => ?_
      · unfold Spare at h
        rw [hnil, length_nil] at h
        omega
      · dsimp only
        rw [wp_bind, wp_modify, wp_bind]
        refine mapPage_spare_wp hak ha (hT a hlt) (hclear a le_rfl hak) (h.take hfree)
          fun d' s' hm h' => ?_
        refine ih (next_page_aligned ha) (fun x hle hx => ?_) (by omega)
          (Nat.le_of_succ_le_succ hfuel) h' ?_
        · have hne : x / PGSIZE ≠ a / PGSIZE := by
            unfold PGSIZE at *
            omega
          rw [hm.others x hne]
          exact hclear x (by omega) hx
        · rw [hm.moves.short]
          exact hshort

/-- With enough memory and no other processors `allocuvm` succeeds. -/
theorem allocuvm_spare_wp (hold : oldsz ≤ newsz) (hnew : newsz < KERNBASE)
    (hT : ∀ x < newsz, PDX x ∈ T)
    (hclear : ∀ x, pgRoundUp oldsz ≤ x → x < KERNBASE → d.getPte x = none)
    (hn : pgRoundUp oldsz + n * PGSIZE = pgRoundUp newsz) (h : Spare T (n + m) d s.toKmem)
    (hok : UserOk K d s.toKmem) (hshort : s.short = false) (hrefusals : s.refusals = []) :
    wp (allocuvm K d oldsz newsz)
      (fun r s' => r.1 = newsz ∧ Growing d s (pgRoundUp oldsz) (pgRoundUp newsz) [] r.2 s' ∧
        UserOk K r.2 s'.toKmem ∧ Spare T m r.2 s'.toKmem ∧ s'.short = false ∧ s'.refusals = [])
      (fun _ _ => False) s := by
  have hspare : wp (Xv6Kernel.allocuvm K d oldsz newsz)
      (fun r k => r.1 = newsz ∧ Spare T m r.2 k ∧ k.short = false) (fun _ _ => True) s.toKmem := by
    have hfuel : n ≤ ADDRESSES / PGSIZE := by
      refine Nat.le_of_mul_le_mul_right ?_ page_pos
      have hall : ADDRESSES / PGSIZE * PGSIZE = ADDRESSES := by decide
      have hend := pgRoundUp_le_kernbase hnew
      have haddr : KERNBASE ≤ ADDRESSES := by decide
      omega
    unfold Xv6Kernel.allocuvm
    rw [if_neg (by omega), if_neg (by omega)]
    exact allocLoop_spare_wp hnew (pgRoundUp_aligned oldsz) hT hclear hn hfuel h hshort
      fun d' k h' hs => ⟨rfl, h', hs⟩
  have hgrow := allocuvm_growing_wp hold hnew
    (fun x _ hle hlt => hclear x hle (hlt.trans hnew)) hok.sound.free hshort
  have huser : wp (allocuvm K d oldsz newsz) (fun r s' => UserOk K r.2 s'.toKmem)
      (fun _ _ => True) s := allocuvm_userOk_wp (fun _ _ => trivial) hok fun _ _ _ h _ => h
  refine wp_mono (wp_and hgrow (wp_and huser
    ((allocuvm_refines K d oldsz newsz).wp_view hrefusals hspare))) ?_ fun _ _ hf => hf.1.elim
  rintro r s' ⟨hcase, hu, ⟨hr, he, hs⟩, hq⟩
  refine ⟨hr, ?_, hu, he, hs, hq⟩
  rcases hcase with ⟨_, a, lost, ha, hle, hor, hg⟩ | ⟨hzero, a, _, _, _, _, _, hlt, _⟩
  · have hlost : lost = [] := by
      by_contra hne
      rw [hg.short.mpr hne] at hs
      cases hs
    rw [hlost, alloc_end hold hnew ha hle hor] at hg
    exact hg
  · rw [hr] at hzero
    omega

end

/-! ### User memory as a function -/

/-- The byte at a user address. -/
def userByte (d : PageDir) (s : Ram) (a : Nat) : Option Byte :=
  (d.getPte a).bind fun e => if e.u then some (s.bytes e.pa (a % PGSIZE)) else none

/-- The user pages hold the bytes of `m`. -/
def PagesHold (d : PageDir) (m : Nat → Byte) (s : Ram) : Prop :=
  ∀ x e, x % PGSIZE = 0 → d.getPte x = some e → e.u = true → ∀ o < PGSIZE,
    s.bytes e.pa o = m (x + o)

structure UserMem (K : KernelImage) (d : PageDir) (m : Nat → Byte) (s : Ram) : Prop where
  ok : UserOk K d s.toKmem
  bytes : PagesHold d m s

/-- The first `n` bytes of `buf` are put at `va`. -/
def put (m : Nat → Byte) (va n : Nat) (buf : List Byte) (a : Nat) : Byte :=
  if va ≤ a ∧ a < va + n then buf.getD (a - va) 0 else m a

theorem put_zero (m : Nat → Byte) (va : Nat) (buf : List Byte) : put m va 0 buf = m := by
  funext a
  exact if_neg (by omega)

theorem put_put (m : Nat → Byte) (va c n : Nat) (buf : List Byte) :
    put (put m va c buf) (va + c) n (buf.drop c) = put m va (c + n) buf := by
  funext a
  unfold put
  by_cases hrest : va + c ≤ a ∧ a < va + c + n
  · rw [if_pos hrest, if_pos (by omega), getD_eq_getElem?_getD, getElem?_drop,
      getD_eq_getElem?_getD, show c + (a - (va + c)) = a - va by omega]
  · rw [if_neg hrest]
    by_cases hfirst : va ≤ a ∧ a < va + c
    · rw [if_pos hfirst, if_pos (by omega)]
    · rw [if_neg hfirst, if_neg (by omega)]

section

variable {K : KernelImage} {d : PageDir} {s : Ram} {mem : Nat → Byte}

theorem PagesHold.userByte (h : PagesHold d mem s) (ha : IsUser d a) :
    userByte d s a = some (mem a) := by
  obtain ⟨e, hget, hu⟩ := ha
  have hdown := (getPte_pgRoundDown (d := d) a).trans hget
  have hbyte := h _ e (pgRoundDown_aligned a) hdown hu (a % PGSIZE) (Nat.mod_lt _ page_pos)
  have hsplit : pgRoundDown a + a % PGSIZE = a := Nat.div_add_mod' a PGSIZE
  unfold Ram.userByte
  rw [hget, Option.bind_some, if_pos hu, hbyte, hsplit]

variable {sz : Nat} {bytes : List Byte}

theorem UserMem.stored (h : UserMem K d mem s) (hs : Stored d s va n buf s')
    (hok : UserOk K d s'.toKmem) : UserMem K d (put mem va n buf) s' := by
  refine ⟨hok, fun x e hx hget hu o ho => ?_⟩
  rw [hs.user x e hx hget hu o ho, h.bytes x e hx hget hu o ho]
  rfl

/-! ### The segment loop -/

/-- The program so far: user pages up to `sz` with the bytes of `m`, and nothing above. -/
structure Segments (K : KernelImage) (d : PageDir) (sz : Nat) (m : Nat → Byte) (s : Ram) :
    Prop where
  mem : UserMem K d m s
  size : sz < KERNBASE
  pages : ∀ x < KERNBASE, ((d.getPte x).isSome = true ↔ x < pgRoundUp sz)
  user : ∀ x e, x < KERNBASE → d.getPte x = some e → e.u = true
  tables : ∀ i < PDX KERNBASE, pgRoundUp sz ≤ i * SPAN → d.tables i = none
  zero : ∀ a, sz ≤ a → m a = 0
  short : s.short = false
  refusals : s.refusals = []

theorem Segments.clear (h : Segments K d sz mem s) (hle : pgRoundUp sz ≤ x)
    (hx : x < KERNBASE) : d.getPte x = none := by
  by_contra hne
  have hlt := (h.pages x hx).mp (Option.isSome_iff_ne_none.mpr hne)
  omega

theorem Segments.isUser (h : Segments K d sz mem s) (ha : a < pgRoundUp sz) : IsUser d a := by
  have hak : a < KERNBASE := Nat.lt_of_lt_of_le ha (pgRoundUp_le_kernbase h.size)
  obtain ⟨e, hget⟩ := Option.isSome_iff_exists.mp ((h.pages a hak).mpr ha)
  exact ⟨e, hget, h.user a e hak hget⟩

/-- The program has become longer. -/
theorem Segments.grow (h : Segments K d sz mem s) (hle : sz ≤ newsz) (hnew : newsz < KERNBASE)
    (hg : Growing d s (pgRoundUp sz) (pgRoundUp newsz) [] d' s') (hok : UserOk K d' s'.toKmem)
    (hshort : s'.short = false) (hrefusals : s'.refusals = []) : Segments K d' newsz mem s' := by
  have hmono := pgRoundUp_mono hle hnew
  have hround := le_pgRoundUp h.size
  -- a page of the new directory is an old one with its old bytes, or a new one full of zeros
  have hpage : ∀ x, x < KERNBASE → x % PGSIZE = 0 → (x < pgRoundUp sz ∧ d'.getPte x = d.getPte x) ∨
      (pgRoundUp sz ≤ x ∧ x < pgRoundUp newsz ∧
        ∃ f, d'.getPte x = some ⟨f, true, true⟩ ∧ ∀ o, s'.bytes f o = 0) ∨
      (pgRoundUp newsz ≤ x ∧ d'.getPte x = none) := by
    intro x hx hal
    by_cases hold : x < pgRoundUp sz
    · exact Or.inl ⟨hold, hg.outside x hal (Or.inl hold)⟩
    · by_cases hin : x < pgRoundUp newsz
      · rcases hg.inside x hal (by omega) hin with ⟨_, hne⟩ | ⟨f, _, hget, hzero⟩
        · exact absurd rfl hne
        · exact Or.inr (Or.inl ⟨by omega, hin, f, hget, hzero⟩)
      · have hsame := hg.outside x hal (Or.inr (Nat.le_of_not_lt hin))
        exact Or.inr (Or.inr ⟨by omega, hsame.trans (h.clear (by omega) hx)⟩)
  have hdown : ∀ x, x < KERNBASE → pgRoundDown x < KERNBASE :=
    fun x hx => Nat.lt_of_le_of_lt (Nat.div_mul_le_self x PGSIZE) hx
  refine ⟨⟨hok, fun x e hal hget hu o ho => ?_⟩, hnew, fun x hx => ?_, fun x e hx hget => ?_,
    fun i hi hle => ?_, fun a ha => h.zero a (by omega), hshort, hrefusals⟩
  · have hx := hok.user_lt ⟨e, hget, hu⟩
    rcases hpage x hx hal with ⟨_, hsame⟩ | ⟨hge, _, f, hnewpage, hzero⟩ | ⟨_, hnone⟩
    · rw [hsame] at hget
      rw [hg.bytes e.pa (h.mem.ok.sound.frame_notMem hx hget)]
      exact h.mem.bytes x e hal hget hu o ho
    · rw [hnewpage] at hget
      rw [← Option.some.inj hget, hzero, h.zero (x + o) (by omega)]
    · rw [hnone] at hget
      cases hget
  · rw [← getPte_pgRoundDown (d := d') x, ← pgRoundDown_lt_iff (pgRoundUp_aligned newsz)]
    have hpages := h.pages _ (hdown x hx)
    rcases hpage _ (hdown x hx) (pgRoundDown_aligned x) with
      ⟨hlt, hsame⟩ | ⟨_, hlt, f, hnewpage, _⟩ | ⟨hge, hnone⟩
    · rw [hsame, hpages]
      omega
    · rw [hnewpage]
      exact iff_of_true rfl hlt
    · rw [hnone]
      exact iff_of_false Bool.false_ne_true (by omega)
  · rw [← getPte_pgRoundDown (d := d') x] at hget
    rcases hpage _ (hdown x hx) (pgRoundDown_aligned x) with
      ⟨_, hsame⟩ | ⟨_, _, f, hnewpage, _⟩ | ⟨_, hnone⟩
    · rw [hsame] at hget
      exact h.user _ e (hdown x hx) hget
    · rw [hnewpage] at hget
      rw [← Option.some.inj hget]
    · rw [hnone] at hget
      cases hget
  · rw [← Option.not_isSome_iff_eq_none]
    intro hsome
    rcases hg.tables i hsome with hold | ⟨x, _, hlt, hx⟩
    · rw [h.tables i hi (by omega)] at hold
      cases hold
    · have hspan : i * SPAN ≤ x := by
        rw [← hx]
        exact Nat.div_mul_le_self x SPAN
      omega

/-- A read within a file. -/
theorem readi_disk (hfit : off + n ≤ bytes.length) (hlen : bytes.length < ADDRESSES) :
    (ExeFile.disk bytes).readi off n = ((n : Int), (bytes.drop off).take n, .disk bytes) := by
  have hmod : (off + n) % ADDRESSES = off + n := Nat.mod_eq_of_lt (by omega)
  unfold ExeFile.readi
  dsimp only
  rw [hmod, if_neg (by omega), if_neg (by omega)]

variable (h : Segments K d sz mem s)

include h

/-- A store into the program. -/
theorem Segments.stored (hs : Stored d s va n buf s')
    (hend : va + n ≤ sz) (hkmem : s'.toKmem = s.toKmem) (hrefusals : s'.refusals = s.refusals) :
    Segments K d sz (put mem va n buf) s' := by
  refine ⟨h.mem.stored hs (by rw [hkmem]; exact h.mem.ok), h.size, h.pages, h.user, h.tables,
    fun a ha => ?_, ?_, hrefusals.trans h.refusals⟩
  · exact (if_neg (by omega)).trans (h.zero a ha)
  · rw [hkmem]
    exact h.short

theorem Segments.record (calls : List StoreCall) : Segments K d sz mem { s with calls := calls } :=
  ⟨⟨h.mem.ok.record _, h.mem.bytes⟩, h.size, h.pages, h.user, h.tables, h.zero, h.short, h.refusals⟩

theorem loadLoop_segments_wp
    (haddr : addr % PGSIZE = 0) (hend : addr + filesz ≤ sz) (hfile : offset + filesz ≤ bytes.length)
    (hlen : bytes.length < ADDRESSES) (hi : i % PGSIZE = 0) (hlt : i < filesz + PGSIZE)
    (hfuel : filesz + PGSIZE ≤ i + fuel * PGSIZE) :
    wp (loadLoop d addr offset filesz fuel i (.disk bytes)) (fun r s' => r = (true, .disk bytes) ∧
        Segments K d sz (put mem (addr + i) (filesz - i) (bytes.drop (offset + i))) s' ∧
        s'.toKmem = s.toKmem)
      (fun _ _ => False) s := by
  induction fuel generalizing i mem s with
  | zero => omega
  | succ fuel ih =>
    rw [Nat.succ_mul] at hfuel
    refine wp_ite (fun hin => ?_) fun hout => ?_
    · have hround := le_pgRoundUp h.size
      have hsize := h.size
      have hva : (addr + i) % ADDRESSES = addr + i := Nat.mod_eq_of_lt (lt_addresses (by omega))
      have hoff : (offset + i) % ADDRESSES = offset + i := Nat.mod_eq_of_lt (by omega)
      have hal : (addr + i) % PGSIZE = 0 := by
        unfold PGSIZE at *
        omega
      obtain ⟨e, hget, hu⟩ := h.isUser (show addr + i < pgRoundUp sz by omega)
      have hmem := h.mem.ok.frames _ e (show addr + i < KERNBASE by omega) hget
      have hdown : pgRoundDown (addr + i) = addr + i := by
        unfold pgRoundDown
        unfold PGSIZE at *
        omega
      rw [hva, hoff]
      unfold lift
      rw [wp_bind, wp_zoom]
      refine walkpgdir_find_wp (fun ht => ?_) fun _ => ?_
      · rw [tables_of_getPte (by rw [hget]; rfl)] at ht
        cases ht
      · dsimp only
        generalize hn : (if filesz - i < PGSIZE then filesz - i else PGSIZE) = n
        have hnle : n ≤ filesz - i ∧ n ≤ PGSIZE := by
          rw [← hn]
          split <;> omega
        rw [readi_disk (by omega) hlen, hget]
        rw [wp_bind]
        refine store_wp hmem ?_
        rw [if_neg (not_not.mpr rfl)]
        have hstored : Stored d s (addr + i) n (bytes.drop (offset + i)) { s with
              bytes := Function.update s.bytes e.pa
                (overwrite (s.bytes e.pa) 0 ((bytes.drop (offset + i)).take n)) } := by
          refine .chunk h.mem.ok (by rw [hdown]; exact hget) hu ?_ ?_ ?_
          · rw [length_drop]
            omega
          · rw [hdown]
            omega
          · rw [hdown, Nat.sub_self]
        have hnext := ih (h.stored hstored (by omega) rfl rfl) (next_page_aligned hi) (by omega)
          (by omega)
        refine wp_mono hnext ?_ fun _ _ hf => hf
        rintro r s' ⟨hr, hseg, hkmem⟩
        refine ⟨hr, ?_, hkmem⟩
        by_cases hlast : filesz - i < PGSIZE
        · rw [if_pos hlast] at hn
          rw [show filesz - (i + PGSIZE) = 0 by omega, put_zero, ← hn] at hseg
          exact hseg
        · rw [if_neg hlast] at hn
          rw [← hn] at hseg
          have hput := put_put mem (addr + i) PGSIZE (filesz - (i + PGSIZE))
            (bytes.drop (offset + i))
          rw [drop_drop, Nat.add_assoc, Nat.add_assoc,
            show PGSIZE + (filesz - (i + PGSIZE)) = filesz - i by omega] at hput
          rw [hput] at hseg
          exact hseg
    · refine ⟨rfl, ?_, rfl⟩
      rw [show filesz - i = 0 by omega, put_zero]
      exact h

theorem loaduvm_segments_wp (haddr : addr % PGSIZE = 0)
    (hend : addr + filesz ≤ sz) (hfile : offset + filesz ≤ bytes.length)
    (hlen : bytes.length < ADDRESSES) :
    wp (loaduvm d addr (.disk bytes) offset filesz) (fun r s' => r = (true, .disk bytes) ∧
        Segments K d sz (put mem addr filesz (bytes.drop offset)) s' ∧ s'.free = s.free)
      (fun _ _ => False) s := by
  have hfuel : filesz + PGSIZE ≤ 0 + (ADDRESSES / PGSIZE + 1) * PGSIZE := by
    have hall : ADDRESSES / PGSIZE * PGSIZE = ADDRESSES := by decide
    rw [Nat.succ_mul]
    omega
  have hpos := page_pos
  unfold loaduvm lift
  generalize ADDRESSES / PGSIZE + 1 = fuel at hfuel
  rw [wp_bind, wp_zoom]
  refine recordCall_wp ?_
  rw [if_neg (not_not.mpr haddr)]
  refine wp_mono (loadLoop_segments_wp (h.record _)
    haddr hend hfile hlen (Nat.zero_mod _) (by omega)
    hfuel) ?_ fun _ _ hf => hf
  rintro r s' ⟨hr, hseg, hkmem⟩
  exact ⟨hr, hseg, by rw [hkmem]⟩

/-- `allocuvm` for the next segment, with memory for the pages below `bound`. -/
theorem allocuvm_segments_wp (hnew : newsz < KERNBASE)
    (hT : ∀ x < newsz, PDX x ∈ T) (hle : pgRoundUp newsz ≤ bound)
    (hn : pgRoundUp sz + n * PGSIZE = bound) (hspare : Spare T n d s.toKmem) :
    wp (allocuvm K d sz newsz)
      (fun r s' => r.1 = max sz newsz ∧ Segments K r.2 (max sz newsz) mem s' ∧
        ∃ n', pgRoundUp (max sz newsz) + n' * PGSIZE = bound ∧ Spare T n' r.2 s'.toKmem)
      (fun _ _ => False) s := by
  by_cases hlt : newsz < sz
  · rw [Nat.max_eq_left hlt.le]
    unfold allocuvm
    rw [if_neg (by omega), if_pos hlt]
    exact ⟨rfl, h, n, hn, hspare⟩
  · have hold : sz ≤ newsz := Nat.le_of_not_lt hlt
    rw [Nat.max_eq_right hold]
    obtain ⟨c, hc⟩ : ∃ c, pgRoundUp newsz = pgRoundUp sz + c * PGSIZE := by
      have hmono := pgRoundUp_mono hold hnew
      have hal := pgRoundUp_aligned sz
      have hal' := pgRoundUp_aligned newsz
      refine ⟨(pgRoundUp newsz - pgRoundUp sz) / PGSIZE, ?_⟩
      unfold PGSIZE at *
      omega
    have hcn : c ≤ n := Nat.le_of_mul_le_mul_right (by omega) page_pos
    obtain ⟨m, rfl⟩ := Nat.exists_eq_add_of_le hcn
    rw [Nat.add_mul] at hn
    refine wp_mono (allocuvm_spare_wp hold hnew hT (fun x hx => h.clear hx) hc.symm hspare
      h.mem.ok h.short h.refusals) ?_ fun _ _ hf => hf
    rintro r s' ⟨hr, hg, hok, he, hshort, hq⟩
    exact ⟨hr, h.grow hold hnew hg hok hshort hq, m, by omega, he⟩

end

/-- The program headers of a file from `off` on. -/
def headers (bytes : List Byte) : (k off : Nat) → List ProgHdr
  | 0, _ => []
  | k + 1, off =>
      progHdr ((bytes.drop off).take PROGHDRSIZE) :: headers bytes k (off + PROGHDRSIZE)

/-- What is asked of a segment that is to be loaded. -/
structure SegmentOk (bytes : List Byte) (h : ProgHdr) : Prop where
  aligned : h.vaddr % PGSIZE = 0
  sizes : h.filesz ≤ h.memsz
  pos : 0 < h.vaddr + h.memsz
  bound : h.vaddr + h.memsz < KERNBASE - 4 * PGSIZE
  file : h.off + h.filesz ≤ bytes.length

/-- The end of the program with one segment more. -/
def extend (sz : Nat) (h : ProgHdr) : Nat :=
  if h.type = ELF_PROG_LOAD then max sz (h.vaddr + h.memsz) else sz

/-- The end of the program. -/
def programEnd (hs : List ProgHdr) : Nat := hs.foldl extend 0

/-- The file part of the segment is loaded to `a`. -/
def covers (a : Nat) (h : ProgHdr) : Bool :=
  decide (h.type = ELF_PROG_LOAD ∧ h.vaddr ≤ a ∧ a < h.vaddr + h.filesz)

/-- The byte of the last segment whose file part covers `a`, or 0. -/
def imageByte (bytes : List Byte) (hs : List ProgHdr) (a : Nat) : Byte :=
  match hs.reverse.find? (covers a) with
  | none => 0
  | some h => bytes.getD (h.off + (a - h.vaddr)) 0

/-- The memory with one segment more. -/
def loadSegment (bytes : List Byte) (m : Nat → Byte) (h : ProgHdr) : Nat → Byte :=
  if h.type = ELF_PROG_LOAD then put m h.vaddr h.filesz (bytes.drop h.off) else m

theorem loadSegment_apply (bytes : List Byte) (m : Nat → Byte) (h : ProgHdr) (a : Nat) :
    loadSegment bytes m h a = if covers a h then bytes.getD (h.off + (a - h.vaddr)) 0 else m a := by
  unfold loadSegment covers
  by_cases hload : h.type = ELF_PROG_LOAD
  · rw [if_pos hload]
    unfold put
    simp only [hload, true_and, decide_eq_true_eq, getD_eq_getElem?_getD, getElem?_drop]
  · rw [if_neg hload, if_neg (by simp [hload])]

theorem foldl_loadSegment (bytes : List Byte) (hs : List ProgHdr) (m : Nat → Byte) (a : Nat) :
    hs.foldl (loadSegment bytes) m a = match hs.reverse.find? (covers a) with
      | none => m a
      | some h => bytes.getD (h.off + (a - h.vaddr)) 0 := by
  induction hs generalizing m with
  | nil => rfl
  | cons h hs ih =>
    rw [foldl_cons, ih, reverse_cons, find?_append]
    cases hs.reverse.find? (covers a) with
    | some h' => rfl
    | none =>
      rw [Option.none_or, find?_singleton, loadSegment_apply]
      by_cases hc : covers a h = true
      · rw [if_pos hc, if_pos hc]
      · rw [if_neg hc, if_neg hc]

theorem le_foldl_extend (hs : List ProgHdr) (sz : Nat) : sz ≤ hs.foldl extend sz := by
  induction hs generalizing sz with
  | nil => exact le_rfl
  | cons h hs ih =>
    have hstep : sz ≤ extend sz h := by
      unfold extend
      split
      · exact Nat.le_max_left _ _
      · exact le_rfl
    exact hstep.trans (ih _)

section

variable {K : KernelImage} {d : PageDir} {s : Ram} {mem : Nat → Byte}

/-- The segment loop, with memory for the pages below `bound`. -/
theorem loadSegments_segments_wp {bytes : List Byte} {k off n : Nat}
    (h : Segments K d sz mem s) (hlen : bytes.length < ADDRESSES)
    (htable : off + k * PROGHDRSIZE ≤ bytes.length)
    (hsegs : ∀ ph ∈ headers bytes k off, ph.type = ELF_PROG_LOAD → SegmentOk bytes ph)
    (hT : ∀ x < (headers bytes k off).foldl extend sz, PDX x ∈ T)
    (hfinal : (headers bytes k off).foldl extend sz < KERNBASE)
    (hend : pgRoundUp ((headers bytes k off).foldl extend sz) ≤ bound)
    (hn : pgRoundUp sz + n * PGSIZE = bound) (hspare : Spare T n d s.toKmem) :
    wp (loadSegments K k off d sz (.disk bytes))
      (fun r s' => ∃ d' n', r = (true, d', (headers bytes k off).foldl extend sz) ∧
        Segments K d' ((headers bytes k off).foldl extend sz)
          ((headers bytes k off).foldl (loadSegment bytes) mem) s' ∧
        pgRoundUp ((headers bytes k off).foldl extend sz) + n' * PGSIZE = bound ∧
        Spare T n' d' s'.toKmem)
      (fun _ _ => False) s := by
  induction k generalizing d s mem off sz n with
  | zero => exact ⟨d, n, rfl, h, hn, hspare⟩
  | succ k ih =>
    rw [Nat.succ_mul] at htable
    have hoff : (off + PROGHDRSIZE) % ADDRESSES = off + PROGHDRSIZE := Nat.mod_eq_of_lt (by omega)
    unfold headers at hsegs hT hfinal hend ⊢
    rw [foldl_cons] at hT hfinal hend
    simp only [foldl_cons]
    have hrest : ∀ ph ∈ headers bytes k (off + PROGHDRSIZE), ph.type = ELF_PROG_LOAD →
        SegmentOk bytes ph := fun ph hph => hsegs ph (mem_cons_of_mem _ hph)
    have hfirst := hsegs _ mem_cons_self
    unfold loadSegments
    rw [readi_disk (by omega) hlen]
    dsimp only
    rw [if_neg (not_not.mpr rfl), hoff]
    generalize progHdr ((bytes.drop off).take PROGHDRSIZE) = ph at hfirst hT hfinal hend ⊢
    by_cases hload : ph.type = ELF_PROG_LOAD
    · have hseg := hfirst hload
      have hbound := hseg.bound
      have hext : extend sz ph = max sz (ph.vaddr + ph.memsz) := if_pos hload
      have hmem : loadSegment bytes mem ph = put mem ph.vaddr ph.filesz (bytes.drop ph.off) :=
        if_pos hload
      have hnew : ph.vaddr + ph.memsz < KERNBASE := by omega
      have hmod : (ph.vaddr + ph.memsz) % ADDRESSES = ph.vaddr + ph.memsz :=
        Nat.mod_eq_of_lt (lt_addresses hnew)
      rw [if_neg (not_not.mpr hload), if_neg (Nat.not_lt.mpr hseg.sizes), hmod, wp_bind]
      rw [hext] at hT hfinal hend ⊢
      rw [hmem]
      have hmax := le_foldl_extend (headers bytes k (off + PROGHDRSIZE))
        (max sz (ph.vaddr + ph.memsz))
      have hround : pgRoundUp (ph.vaddr + ph.memsz) ≤ bound :=
        (pgRoundUp_mono (by omega) hfinal).trans hend
      refine wp_mono (allocuvm_segments_wp h hnew (fun x hx => hT x (by omega)) hround hn hspare)
        ?_ fun _ _ hf => hf
      rintro ⟨r, d₁⟩ s₁ ⟨hr, hseg₁, n₁, hn₁, he₁⟩
      have hpos := hseg.pos
      have hsizes := hseg.sizes
      rw [hr, if_neg (by omega), wp_bind]
      refine wp_mono (loaduvm_segments_wp hseg₁ hseg.aligned (by omega) hseg.file hlen) ?_
        fun _ _ hf => hf
      rintro _ s₂ ⟨rfl, hseg₂, hfree⟩
      have he₂ : Spare T n₁ d₁ s₂.toKmem := by
        unfold Spare at he₁ ⊢
        rw [hfree]
        exact he₁
      exact ih hseg₂ (by omega) hrest hT hfinal hend hn₁ he₂
    · have hext : extend sz ph = sz := if_neg hload
      have hmem : loadSegment bytes mem ph = mem := if_neg hload
      rw [if_pos hload]
      rw [hext] at hT hfinal hend ⊢
      rw [hmem]
      exact ih h (by omega) hrest hT hfinal hend hn hspare

/-! ### The stack -/

theorem clearpteu_found_wp
    (hget : d.getPte uva = some e) (hok : P (d.setPte uva (some { e with u := false })) k) :
    wp (clearpteu d uva) P E k := by
  unfold clearpteu
  rw [wp_bind]
  refine walkpgdir_find_wp (fun ht => ?_) fun _ => ?_
  · rw [tables_of_getPte (by rw [hget]; rfl)] at ht
    cases ht
  · dsimp only
    rw [hget]
    exact hok

/-- The program up to `top` with the bytes of `m`, a guard page, a stack page, and nothing
    above. -/
structure Stacked (K : KernelImage) (d : PageDir) (top : Nat) (m : Nat → Byte) (s : Ram) :
    Prop where
  mem : UserMem K d m s
  below : ∀ a < top, IsUser d a
  guard : ∃ e, d.getPte top = some e ∧ e.u = false
  stack : IsUser d (top + PGSIZE)
  above : ∀ x, top + 2 * PGSIZE ≤ x → x < KERNBASE → d.getPte x = none

theorem pgRoundUp_of_aligned (ha : a % PGSIZE = 0) (hlt : a < KERNBASE) : pgRoundUp a = a := by
  unfold pgRoundUp
  unfold PGSIZE ADDRESSES KERNBASE at *
  omega

theorem Segments.round (h : Segments K d sz mem s) (hlt : pgRoundUp sz < KERNBASE) :
    Segments K d (pgRoundUp sz) mem s := by
  have hround := le_pgRoundUp h.size
  have htwice := pgRoundUp_of_aligned (pgRoundUp_aligned sz) hlt
  refine ⟨h.mem, hlt, fun x hx => ?_, h.user, fun i hi hle => ?_, fun a ha => h.zero a (by omega),
    h.short, h.refusals⟩
  · rw [htwice]
    exact h.pages x hx
  · rw [htwice] at hle
    exact h.tables i hi hle

/-- The guard page is closed. -/
theorem Segments.stacked (h : Segments K d (top + 2 * PGSIZE) mem s)
    (htop : top % PGSIZE = 0) (hget : d.getPte top = some e) :
    Stacked K (d.setPte top (some { e with u := false })) top mem s := by
  have hpos := page_pos
  have hsize := h.size
  have ht : (d.tables (PDX top)).isSome = true := tables_of_getPte (by rw [hget]; rfl)
  have hround : pgRoundUp (top + 2 * PGSIZE) = top + 2 * PGSIZE :=
    pgRoundUp_of_aligned (by unfold PGSIZE at *; omega) hsize
  have hother : ∀ x, x < top ∨ top + PGSIZE ≤ x →
      (d.setPte top (some { e with u := false })).getPte x = d.getPte x := by
    intro x hx
    refine PageDir.getPte_setPte_of_ne ?_
    unfold PGSIZE at *
    omega
  have hself := PageDir.getPte_setPte_self (e := some { e with u := false }) ht
  have hisUser : ∀ a, a < top + 2 * PGSIZE → (a < top ∨ top + PGSIZE ≤ a) →
      IsUser (d.setPte top (some { e with u := false })) a := by
    intro a ha hor
    obtain ⟨q, hq, hu⟩ := h.isUser (show a < pgRoundUp (top + 2 * PGSIZE) by rw [hround]; exact ha)
    exact ⟨q, (hother a hor).trans hq, hu⟩
  refine ⟨⟨h.mem.ok.clear hget, fun x q hx hq hu o ho => ?_⟩,
    fun a ha => hisUser a (by omega) (Or.inl ha), ⟨_, hself, rfl⟩,
    hisUser _ (by omega) (Or.inr le_rfl), fun x hle hx => ?_⟩
  · by_cases heq : x = top
    · rw [heq, hself] at hq
      rw [← Option.some.inj hq] at hu
      cases hu
    · rw [PageDir.getPte_setPte_of_ne (page_ne hx htop heq)] at hq
      exact h.mem.bytes x q hx hq hu o ho
  · rw [hother x (Or.inr (by omega))]
    exact h.clear (by rw [hround]; exact hle) hx

theorem stackPages_stacked_wp (h : Segments K d sz mem s)
    (hsz : sz < KERNBASE - 4 * PGSIZE) (hT : ∀ x < pgRoundUp sz + 2 * PGSIZE, PDX x ∈ T)
    (hn : 2 ≤ n) (hspare : Spare T n d s.toKmem) :
    wp (stackPages K d sz)
      (fun r s' => r.1 = pgRoundUp sz + 2 * PGSIZE ∧ Stacked K r.2 (pgRoundUp sz) mem s')
      (fun _ _ => False) s := by
  have hpos := page_pos
  have htop : pgRoundUp sz ≤ KERNBASE - 4 * PGSIZE := pgRoundUp_le (by decide) hsz.le h.size
  have hal := pgRoundUp_aligned sz
  have hlt : pgRoundUp sz + 2 * PGSIZE < KERNBASE := by
    omega
  have hround : pgRoundUp (pgRoundUp sz + 2 * PGSIZE) = pgRoundUp sz + 2 * PGSIZE :=
    pgRoundUp_of_aligned (by unfold PGSIZE at *; omega) hlt
  have hround' : pgRoundUp (pgRoundUp sz) = pgRoundUp sz := pgRoundUp_of_aligned hal (by omega)
  have hmax : max (pgRoundUp sz) (pgRoundUp sz + 2 * PGSIZE) = pgRoundUp sz + 2 * PGSIZE :=
    Nat.max_eq_right (Nat.le_add_right _ _)
  unfold stackPages
  dsimp only
  rw [Nat.mod_eq_of_lt (lt_addresses hlt), wp_bind]
  refine wp_mono (allocuvm_segments_wp (h.round (by omega)) hlt hT ?_ rfl hspare) ?_
    fun _ _ hf => hf
  · rw [hround, hround']
    exact Nat.add_le_add_left (Nat.mul_le_mul_right _ hn) _
  · rintro ⟨r, d₁⟩ s₁ ⟨hr, hseg, _⟩
    rw [hmax] at hr hseg
    rw [hr, if_neg (by omega), Nat.add_sub_cancel]
    obtain ⟨e, hget, _⟩ := hseg.isUser (show pgRoundUp sz < pgRoundUp (pgRoundUp sz + 2 * PGSIZE) by
      rw [hround]
      omega)
    unfold lift
    rw [wp_bind, wp_zoom]
    exact clearpteu_found_wp hget ⟨rfl, hseg.stacked hal hget⟩

end

/-! ### The whole image -/

/-- The page tables for the kernel and for the user addresses below `bound`. -/
def imageTables (K : KernelImage) (bound : Nat) : Finset Nat :=
  (Finset.range NPDENTRIES).filter fun i =>
    i * SPAN < bound ∨ ∃ k ∈ kmap K, k.virt < (i + 1) * SPAN ∧ i * SPAN < k.virt + k.size

/-- The pages that an image takes: the directory, its page tables, and the user pages. -/
def imagePages (K : KernelImage) (hs : List ProgHdr) : Nat :=
  let top := pgRoundUp (programEnd hs)
  1 + (imageTables K (top + 2 * PGSIZE)).card + (top / PGSIZE + 2)

/-- `exec` from `setupkvm` on: the segment loop succeeds, the program is in memory, with the guard
    page and the stack page above it. -/
def BuildsImage (K : KernelImage) (bytes : List Byte) (phnum phoff : Nat) (s : Ram) : Prop :=
  let hs := headers bytes phnum phoff
  let top := pgRoundUp (programEnd hs)
  ∃ d₀ k d₁ s₁ d₂ s₂,
    setupkvm K { s.toKmem with user := [], calls := [] } = .ok (some d₀) k ∧
    loadSegments K phnum phoff d₀ 0 (.disk bytes) { s with toKmem := k } =
      .ok (true, d₁, programEnd hs) s₁ ∧
    stackPages K d₁ (programEnd hs) s₁ = .ok (top + 2 * PGSIZE, d₂) s₂ ∧
    (∀ a < programEnd hs, userByte d₂ s₂ a = some (imageByte bytes hs a)) ∧
    (∃ e, d₂.getPte top = some e ∧ e.u = false) ∧ IsUser d₂ (top + PGSIZE) ∧
    ∀ x, top + 2 * PGSIZE ≤ x → x < KERNBASE → d₂.getPte x = none

theorem mem_imageTables (hx : x < bound) (hlt : x < ADDRESSES) : PDX x ∈ imageTables K bound := by
  refine Finset.mem_filter.mpr ⟨Finset.mem_range.mpr (pdx_lt hlt), Or.inl ?_⟩
  exact Nat.lt_of_le_of_lt (Nat.div_mul_le_self x SPAN) hx

theorem kernelTables_imageTables (K : KernelImage) (bound : Nat) :
    KernelTables K (imageTables K bound) := by
  intro k hk x hle hx
  have hfits := (kmap_ok K k hk).fits
  refine Finset.mem_filter.mpr ⟨Finset.mem_range.mpr (pdx_lt (by omega)), Or.inr ⟨k, hk, ?_, ?_⟩⟩
  · exact Nat.lt_of_le_of_lt hle ((Nat.div_lt_iff_lt_mul (by decide)).mp (Nat.lt_succ_self _))
  · exact Nat.lt_of_le_of_lt (Nat.div_mul_le_self x SPAN) hx

theorem foldl_extend_lt {hs : List ProgHdr} {sz : Nat} (hsz : sz < bound)
    (h : ∀ ph ∈ hs, ph.type = ELF_PROG_LOAD → ph.vaddr + ph.memsz < bound) :
    hs.foldl extend sz < bound := by
  induction hs generalizing sz with
  | nil => exact hsz
  | cons ph hs ih =>
    have hstep : extend sz ph < bound := by
      unfold extend
      split
      · rename_i hload
        exact Nat.max_lt.mpr ⟨hsz, h ph mem_cons_self hload⟩
      · exact hsz
    exact ih hstep fun ph hph => h ph (mem_cons_of_mem _ hph)

/-- Nothing is loaded yet. -/
theorem Segments.start {s : Ram} {d : PageDir} {k k' : Kmem} (hfresh : FreshDir K k d k')
    (hlow : NoUserTables d) (hnodup : k.free.Nodup) (hfree : GoodFree K k)
    (hshort : k.short = false) (hrefusals : s.refusals = []) :
    Segments K d 0 (fun _ => 0) { s with toKmem := k' } := by
  have hok : UserOk K d k' := .fresh hfresh hnodup hfree
  have hround : pgRoundUp 0 = 0 := by decide
  refine ⟨⟨hok, fun x e _ hget hu => ?_⟩, by decide, fun x hx => ?_, fun x e hx hget => ?_,
    fun i hi _ => hlow i hi, fun _ _ => rfl, hfresh.moves.short.trans hshort, hrefusals⟩
  · rw [hfresh.getPte_user (hok.user_lt ⟨e, hget, hu⟩)] at hget
    cases hget
  · rw [hfresh.getPte_user hx, hround]
    exact iff_of_false Bool.false_ne_true (Nat.not_lt_zero x)
  · rw [hfresh.getPte_user hx] at hget
    cases hget

/-- `exec` from `setupkvm` to the stack pages. -/
theorem exec_stacked {bytes : List Byte} {phnum phoff : Nat} {s : Ram}
    (hlen : bytes.length < ADDRESSES) (htable : phoff + phnum * PROGHDRSIZE ≤ bytes.length)
    (hsegs : ∀ ph ∈ headers bytes phnum phoff, ph.type = ELF_PROG_LOAD → SegmentOk bytes ph)
    (hnodup : s.free.Nodup) (hfree : GoodFree K s.toKmem) (hshort : s.short = false)
    (hrefusals : s.refusals = [])
    (hmem : imagePages K (headers bytes phnum phoff) ≤ s.free.length) :
    ∃ d₀ k d₁ s₁ d₂ s₂, setupkvm K { s.toKmem with user := [], calls := [] } = .ok (some d₀) k ∧
      loadSegments K phnum phoff d₀ 0 (.disk bytes) { s with toKmem := k } =
        .ok (true, d₁, programEnd (headers bytes phnum phoff)) s₁ ∧
      stackPages K d₁ (programEnd (headers bytes phnum phoff)) s₁ =
        .ok (pgRoundUp (programEnd (headers bytes phnum phoff)) + 2 * PGSIZE, d₂) s₂ ∧
      Stacked K d₂ (pgRoundUp (programEnd (headers bytes phnum phoff)))
        ((headers bytes phnum phoff).foldl (loadSegment bytes) fun _ => 0) s₂ := by
  have hend : programEnd (headers bytes phnum phoff) < KERNBASE - 4 * PGSIZE :=
    foldl_extend_lt (by decide) fun ph hph hload => (hsegs ph hph hload).bound
  have hendk : programEnd (headers bytes phnum phoff) < KERNBASE := by omega
  have hal := pgRoundUp_aligned (programEnd (headers bytes phnum phoff))
  have htop : pgRoundUp (programEnd (headers bytes phnum phoff)) ≤ KERNBASE - 4 * PGSIZE :=
    pgRoundUp_le (by decide) hend.le hendk
  have hround := le_pgRoundUp hendk
  unfold imagePages at hmem
  dsimp only at hmem
  have hTk := kernelTables_imageTables K
    (pgRoundUp (programEnd (headers bytes phnum phoff)) + 2 * PGSIZE)
  have hTu : ∀ x < pgRoundUp (programEnd (headers bytes phnum phoff)) + 2 * PGSIZE,
      PDX x ∈ imageTables K (pgRoundUp (programEnd (headers bytes phnum phoff)) + 2 * PGSIZE) := by
    intro x hx
    refine mem_imageTables hx ?_
    unfold KERNBASE PGSIZE at htop
    unfold PGSIZE at hx
    unfold ADDRESSES
    omega
  generalize imageTables K
    (pgRoundUp (programEnd (headers bytes phnum phoff)) + 2 * PGSIZE) = T at hmem hTk hTu
  obtain ⟨n, hn⟩ := Nat.exists_eq_add_of_le hmem
  have hneed : s.free.length = T.card + 1 +
      (pgRoundUp (programEnd (headers bytes phnum phoff)) / PGSIZE + 2 + n) := by omega
  obtain ⟨d₀, k, hsetup, hfresh, hlow, hspare⟩ :=
    setupkvm_spare (s := { s.toKmem with user := [], calls := [] }) hfree rfl rfl hTk hneed
  have hstart : Segments K d₀ 0 (fun _ => 0) { s with toKmem := k } :=
    .start hfresh hlow hnodup hfree hshort hrefusals
  have hbound : pgRoundUp (programEnd (headers bytes phnum phoff)) + 2 * PGSIZE ≤
      pgRoundUp 0 + (pgRoundUp (programEnd (headers bytes phnum phoff)) / PGSIZE + 2 + n) *
        PGSIZE := by
    rw [Nat.add_mul, Nat.add_mul, Nat.div_mul_cancel (Nat.dvd_of_mod_eq_zero hal)]
    omega
  obtain ⟨_, s₁, hload, d₁, n₁, rfl, hseg, hn₁, he₁⟩ :=
    exists_ok_of_wp (loadSegments_segments_wp hstart hlen htable hsegs
      (fun x hx => hTu x (Nat.lt_of_lt_of_le hx (hround.trans (Nat.le_add_right _ _)))) hendk
      ((Nat.le_add_right _ _).trans hbound) rfl hspare)
  have htwo : 2 ≤ n₁ := by
    rw [← hn₁] at hbound
    exact Nat.le_of_mul_le_mul_right (Nat.le_of_add_le_add_left hbound) page_pos
  obtain ⟨⟨r, d₂⟩, s₂, hrun, hr, hst⟩ :=
    exists_ok_of_wp (stackPages_stacked_wp hseg hend hTu htwo he₁)
  dsimp only at hr hst
  rw [hr] at hrun
  exact ⟨d₀, k, d₁, s₁, d₂, s₂, hsetup, hload, hrun, hst⟩

/-- The loader builds the image that the file describes. -/
theorem exec_builds_image (K : KernelImage) (bytes : List Byte) (phnum phoff : Nat) (s : Ram)
    (hlen : bytes.length < ADDRESSES) (htable : phoff + phnum * PROGHDRSIZE ≤ bytes.length)
    (hsegs : ∀ ph ∈ headers bytes phnum phoff, ph.type = ELF_PROG_LOAD → SegmentOk bytes ph)
    (hnodup : s.free.Nodup) (hfree : GoodFree K s.toKmem) (hshort : s.short = false)
    (hrefusals : s.refusals = [])
    (hmem : imagePages K (headers bytes phnum phoff) ≤ s.free.length) :
    BuildsImage K bytes phnum phoff s := by
  obtain ⟨d₀, k, d₁, s₁, d₂, s₂, hsetup, hload, hrun, hst⟩ :=
    exec_stacked hlen htable hsegs hnodup hfree hshort hrefusals hmem
  refine ⟨d₀, k, d₁, s₁, d₂, s₂, hsetup, hload, hrun, fun a ha => ?_, hst.guard, hst.stack,
    hst.above⟩
  have hend : programEnd (headers bytes phnum phoff) < KERNBASE := by
    refine foldl_extend_lt (by decide) fun ph hph hload => ?_
    have hbound := (hsegs ph hph hload).bound
    omega
  have hbelow := Nat.lt_of_lt_of_le ha (le_pgRoundUp hend)
  rw [hst.mem.bytes.userByte (hst.below a hbelow), foldl_loadSegment]
  rfl

/-- Three bytes of the file at address 0, and two bytes of zeros. -/
def smallProgram : List Byte :=
  [1, 0, 0, 0] ++ [32, 0, 0, 0] ++ List.replicate 8 0 ++ [3, 0, 0, 0] ++ [5, 0, 0, 0] ++
    List.replicate 8 0 ++ [7, 8, 9]

theorem exec_builds_smallProgram : BuildsImage smallKernel smallProgram 1 0 manyRam := by
  have hnodup := manyPages_nodup
  have hfree := goodFree_manyPages
  unfold manyRam
  have hcount := manyPages_count
  generalize manyPages = m at hnodup hfree hcount
  have hhdr : headers smallProgram 1 0 = [⟨1, 32, 0, 3, 5⟩] := rfl
  have hmem : imagePages smallKernel (headers smallProgram 1 0) ≤
    (startRam m.free).free.length := by
    have hcard : (imageTables smallKernel (pgRoundUp 5 + 2 * PGSIZE)).card ≤ NPDENTRIES :=
      (Finset.card_filter_le _ _).trans (Finset.card_range _).le
    have htop : pgRoundUp 5 / PGSIZE = 1 := by decide
    have hend : programEnd [⟨1, 32, 0, 3, 5⟩] = 5 := by decide
    have hlen : (startRam m.free).free.length = NPDENTRIES + 1 + 975 := hcount
    rw [hhdr, imagePages, hend, htop, hlen]
    omega
  refine exec_builds_image smallKernel smallProgram 1 0 (startRam m.free) (by decide) (by decide)
    (fun ph hph _ => ?_) hnodup.of_cons.of_cons.of_cons hfree rfl rfl hmem
  rw [hhdr, mem_singleton] at hph
  rw [hph]
  exact ⟨by decide, by decide, by decide, by decide, by decide⟩

end Ram

end Xv6Kernel
