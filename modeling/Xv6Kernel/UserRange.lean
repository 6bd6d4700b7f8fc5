/-
  UserRange.lean
  ==============
  What `deallocuvm` does to the mappings.

  The loop goes from page to page.  Where there is no page table it moves on by the whole span
  of a table, but from the address it is at: if that is in the middle of the span, it arrives in
  the middle of the next one, and the pages at its start are never looked at.  `NoSkip` says that
  no mapped page is passed over in this way; it holds if and only if the range is freed.
-/
import Xv6Kernel.ExecSafety

namespace Xv6Kernel

open PanicMonad

/-- The bytes that one page table maps. -/
def SPAN : Nat := PGSIZE * NPTENTRIES

/-- The addresses of the pages from `a` on that start below `b`. -/
def pagesIn (a b : Nat) : List Nat := List.range' a ((b - a + (PGSIZE - 1)) / PGSIZE) PGSIZE

/-- The frames of the mapped pages from `a` on that start below `b`. -/
def framesIn (d : PageDir) (a b : Nat) : List Nat :=
  (pagesIn a b).filterMap fun x => (d.getPte x).map (·.pa)

/-- The whole range from `a` up to `b` has been freed, and nothing else. -/
structure FreesRange (d : PageDir) (s : Kmem) (a b : Nat) (d' : PageDir) (s' : Kmem) : Prop where
  clear : ∀ x, x % PGSIZE = 0 → a ≤ x → x < b → d'.getPte x = none
  freed : s'.free = (framesIn d a b).reverse ++ s.free
  others : ∀ x, x % PGSIZE = 0 → (x < a ∨ b ≤ x) → d'.getPte x = d.getPte x

/-- A mapped page of the range whose table follows absent tables only, from the one of `a` on,
    does not lie lower in the span of its table than `a` does. -/
def NoSkip (d : PageDir) (a b : Nat) : Prop :=
  ∀ x, x % PGSIZE = 0 → a ≤ x → x < b → (d.getPte x).isSome = true →
    (∀ i, PDX a ≤ i → i < PDX x → (d.tables i).isSome = false) → a % SPAN ≤ x % SPAN

/-! ### Ranges of pages -/

section

variable {d : PageDir} {a b : Nat}

variable {x : Nat}

theorem page_ne (hx : x % PGSIZE = 0) (hy : y % PGSIZE = 0) (hne : x ≠ y) :
    x / PGSIZE ≠ y / PGSIZE := by
  unfold PGSIZE at *
  omega

theorem next_page_le (hx : x % PGSIZE = 0) (hy : y % PGSIZE = 0) (hlt : x < y) :
    x + PGSIZE ≤ y := by
  unfold PGSIZE at *
  omega

theorem next_page_aligned (hx : x % PGSIZE = 0) : (x + PGSIZE) % PGSIZE = 0 := by
  rw [Nat.add_mod_right, hx]

theorem span_aligned (hx : x % PGSIZE = 0) : (x + SPAN) % PGSIZE = 0 := by
  unfold SPAN
  rw [Nat.add_mul_mod_self_left, hx]

theorem page_pos : 0 < PGSIZE := by decide

theorem page_le_span : PGSIZE ≤ SPAN := Nat.le_mul_of_pos_right PGSIZE (by decide)

theorem pagesIn_of_le (h : b ≤ a) : pagesIn a b = [] := by
  have hzero : (b - a + (PGSIZE - 1)) / PGSIZE = 0 := by
    unfold PGSIZE
    omega
  unfold pagesIn
  rw [hzero, List.range'_zero]

theorem pagesIn_of_lt (h : a < b) : pagesIn a b = a :: pagesIn (a + PGSIZE) b := by
  have hsucc : (b - a + (PGSIZE - 1)) / PGSIZE =
      (b - (a + PGSIZE) + (PGSIZE - 1)) / PGSIZE + 1 := by
    unfold PGSIZE
    omega
  unfold pagesIn
  rw [hsucc, List.range'_succ]

theorem framesIn_of_le (h : b ≤ a) : framesIn d a b = [] := by
  unfold framesIn
  rw [pagesIn_of_le h, List.filterMap_nil]

theorem framesIn_unmapped (h : d.getPte a = none) : framesIn d a b = framesIn d (a + PGSIZE) b := by
  unfold framesIn
  by_cases hlt : a < b
  · rw [pagesIn_of_lt hlt]
    exact List.filterMap_cons_none (by rw [h]; rfl)
  · rw [pagesIn_of_le (by omega), pagesIn_of_le (by omega)]

theorem framesIn_mapped (hlt : a < b) (h : d.getPte a = some e) :
    framesIn d a b = e.pa :: framesIn d (a + PGSIZE) b := by
  unfold framesIn
  rw [pagesIn_of_lt hlt]
  exact List.filterMap_cons_some (by rw [h]; rfl)

theorem mem_pagesIn (ha : a % PGSIZE = 0) : x ∈ pagesIn a b ↔ x % PGSIZE = 0 ∧ a ≤ x ∧ x < b := by
  unfold pagesIn
  rw [List.mem_range']
  unfold PGSIZE at *
  constructor
  · rintro ⟨i, hi, rfl⟩
    omega
  · rintro ⟨hx, hle, hlt⟩
    exact ⟨(x - a) / 4096, by omega, by omega⟩

theorem framesIn_congr (ha : a % PGSIZE = 0)
    (h : ∀ x, x % PGSIZE = 0 → a ≤ x → x < b → d'.getPte x = d.getPte x) :
    framesIn d' a b = framesIn d a b := by
  refine List.filterMap_congr fun x hx => ?_
  obtain ⟨hal, hle, hlt⟩ := (mem_pagesIn ha).mp hx
  rw [h x hal hle hlt]

/-- Unmapped pages have no frames. -/
theorem framesIn_skip (n : Nat) (ha : a % PGSIZE = 0)
    (h : ∀ x, x % PGSIZE = 0 → a ≤ x → x < a + n * PGSIZE → x < b → d.getPte x = none) :
    framesIn d a b = framesIn d (a + n * PGSIZE) b := by
  have hpos := page_pos
  induction n generalizing a with
  | zero => rw [Nat.zero_mul, Nat.add_zero]
  | succ n ih =>
    rw [Nat.succ_mul] at h ⊢
    by_cases hlt : a < b
    · have hnone : d.getPte a = none := h a ha le_rfl (by omega) hlt
      have hnext : a + (n * PGSIZE + PGSIZE) = a + PGSIZE + n * PGSIZE := by omega
      rw [framesIn_unmapped hnone, hnext]
      exact ih (next_page_aligned ha) fun x hx hle hxlt hxb => h x hx (by omega) (by omega) hxb
    · rw [framesIn_of_le (by omega), framesIn_of_le (by omega)]

/-! ### Where pages are skipped -/

theorem pdx_eq_div (va : Nat) : PDX va = va / SPAN := rfl

/-- No page is skipped from a page table that is there. -/
theorem noSkip_of_table (ht : (d.tables (PDX a)).isSome = true) : NoSkip d a b := by
  intro x _ hle _ _ habsent
  by_cases hlt : PDX a < PDX x
  · rw [habsent _ le_rfl hlt] at ht
    cases ht
  · unfold PDX at hlt
    unfold SPAN
    unfold PGSIZE NPTENTRIES at *
    omega

/-- No page is skipped from the start of a span. -/
theorem noSkip_of_aligned (ha : a % SPAN = 0) : NoSkip d a b := by
  intro x _ _ _ _ _
  rw [ha]
  exact Nat.zero_le _

theorem noSkip_of_unmapped
    (h : ∀ x, x % PGSIZE = 0 → a ≤ x → x < b → (d.getPte x).isSome = false) : NoSkip d a b := by
  intro x hx hle hlt hsome _
  rw [h x hx hle hlt] at hsome
  cases hsome

/-- After a page whose table is there, none is skipped. -/
theorem noSkip_next (ha : a % PGSIZE = 0) (ht : (d.tables (PDX a)).isSome = true)
    (hsame : ∀ i, (d'.tables i).isSome = (d.tables i).isSome) : NoSkip d' (a + PGSIZE) b := by
  by_cases hsame' : PDX (a + PGSIZE) = PDX a
  · refine noSkip_of_table ?_
    rw [hsame, hsame']
    exact ht
  · refine noSkip_of_aligned ?_
    unfold PDX at hsame'
    unfold SPAN
    unfold PGSIZE NPTENTRIES at *
    omega

theorem getPte_of_absent (h : (d.tables (PDX x)).isSome = false) : d.getPte x = none := by
  unfold PageDir.getPte
  have hnone : d.tables (PDX x) = none := by simpa using h
  rw [hnone]

variable (h : NoSkip d a b) (ht : (d.tables (PDX a)).isSome = false)

include h ht

/-- After a jump, what was skipped before is still skipped. -/
theorem NoSkip.jump : NoSkip d (a + SPAN) b := by
  intro x hx hle hlt hsome habsent
  have hspan : 0 < SPAN := by decide
  have hpdx : PDX (a + SPAN) = PDX a + 1 := by
    rw [pdx_eq_div, pdx_eq_div, Nat.add_div_right _ hspan]
  rw [Nat.add_mod_right]
  refine h x hx (by omega) hlt hsome fun i hi hix => ?_
  by_cases heq : i = PDX a
  · rw [heq]
    exact ht
  · exact habsent i (by omega) hix

/-- The pages that a jump passes over. -/
theorem NoSkip.passed
    (hx : x % PGSIZE = 0) (hle : a ≤ x) (hlt : x < a + SPAN) (hb : x < b) : d.getPte x = none := by
  by_cases hsame : PDX x = PDX a
  · exact getPte_of_absent (by rw [hsame]; exact ht)
  · by_contra hmapped
    have hsome : (d.getPte x).isSome = true := Option.isSome_iff_ne_none.mpr hmapped
    have hpdx : PDX x = PDX a + 1 ∧ x % SPAN < a % SPAN := by
      rw [pdx_eq_div, pdx_eq_div] at *
      unfold SPAN PGSIZE NPTENTRIES at *
      omega
    have hmod := h x hx hle hb hsome fun i hi hix => by
      have heq : i = PDX a := by omega
      rw [heq]
      exact ht
    omega

end

/-! ### The loop -/

section

/-- A mapped page from `a` on whose frame `kfree` refuses. -/
def BadFrame (K : KernelImage) (d : PageDir) (a b : Nat) : Prop :=
  ∃ x e, x % PGSIZE = 0 ∧ a ≤ x ∧ x < b ∧ d.getPte x = some e ∧ ¬ ValidPage K e.pa

theorem kfree_check_wp (hok : ValidPage K pa → P () { s with free := pa :: s.free })
    (hbad : ¬ ValidPage K pa → E .kfree s) : wp (kfree K pa) P E s := by
  refine wp_ite (fun h => hbad fun hv => ?_) fun h => hok ?_
  · have hge := hv.above
    have hlt := hv.below
    rcases h with h | h | h
    · exact h hv.aligned
    · omega
    · omega
  · push Not at h
    exact ⟨h.1, h.2.1, h.2.2⟩

/-- How the loop leaves the directory and the free list. -/
structure Dealloc (d : PageDir) (s : Kmem) (a b : Nat) (d' : PageDir) (s' : Kmem) : Prop where
  page : d'.page = d.page
  user : s'.user = s.user
  sub : ∀ x e, d'.getPte x = some e → d.getPte x = some e
  tables : ∀ i, (d'.tables i).isSome = (d.tables i).isSome
  others : ∀ x, x % PGSIZE = 0 → (x < a ∨ b ≤ x) → d'.getPte x = d.getPte x
  frees : NoSkip d a b → FreesRange d s a b d' s'
  noSkip : (∀ x, x % PGSIZE = 0 → a ≤ x → x < b → d'.getPte x = none) → NoSkip d a b

theorem Dealloc.done (h : b ≤ a) : Dealloc d s a b d s := by
  refine ⟨rfl, rfl, fun _ _ h => h, fun _ => rfl, fun _ _ _ => rfl,
    fun _ => ⟨?_, ?_, fun _ _ _ => rfl⟩, fun _ => ?_⟩
  · exact fun x _ hle hlt => absurd hlt (by omega)
  · rw [framesIn_of_le h]
    rfl
  · exact noSkip_of_unmapped fun x _ hle hlt => absurd hlt (by omega)

variable {s' : Kmem} {d' : PageDir}

/-- A page that is not mapped is passed. -/
theorem Dealloc.pass (ha : a % PGSIZE = 0) (ht : (d.tables (PDX a)).isSome = true)
    (hnone : d.getPte a = none) (h : Dealloc d s (a + PGSIZE) b d' s') : Dealloc d s a b d' s' := by
  have hpos := page_pos
  refine ⟨h.page, h.user, h.sub, h.tables, fun x hx hor => h.others x hx (by omega), fun _ => ?_,
    fun _ => noSkip_of_table ht⟩
  have hrest := h.frees (noSkip_next ha ht fun _ => rfl)
  refine ⟨fun x hx hle hlt => ?_, ?_, fun x hx hor => h.others x hx (by omega)⟩
  · by_cases heq : x = a
    · rw [heq, h.others a ha (by omega), hnone]
    · exact hrest.clear x hx (next_page_le ha hx (by omega)) hlt
  · rw [framesIn_unmapped hnone]
    exact hrest.freed

/-- A mapped page is freed. -/
theorem Dealloc.free (ha : a % PGSIZE = 0) (hlt : a < b) (hsome : d.getPte a = some e)
    (h : Dealloc (d.setPte a none) { s with free := e.pa :: s.free } (a + PGSIZE) b d' s') :
    Dealloc d s a b d' s' := by
  have hpos := page_pos
  have ht : (d.tables (PDX a)).isSome = true := tables_of_getPte (by rw [hsome]; rfl)
  have htables : ∀ i, ((d.setPte a none).tables i).isSome = (d.tables i).isSome :=
    PageDir.isSome_tables_setPte
  have hother : ∀ x, x % PGSIZE = 0 → x ≠ a → (d.setPte a none).getPte x = d.getPte x := by
    intro x hx hne
    exact PageDir.getPte_setPte_of_ne (page_ne hx ha hne)
  refine ⟨h.page.trans PageDir.page_setPte, h.user, fun x q hq => ?_,
    fun i => (h.tables i).trans (htables i), fun x hx hor => ?_, fun _ => ?_,
    fun _ => noSkip_of_table ht⟩
  · have hq' := h.sub x q hq
    by_cases hpage : x / PGSIZE = a / PGSIZE
    · rw [PageDir.getPte_of_page hpage, PageDir.getPte_setPte_self ht] at hq'
      exact nomatch hq'
    · rwa [PageDir.getPte_setPte_of_ne hpage] at hq'
  · rw [h.others x hx (by omega), hother x hx (by omega)]
  · have hrest := h.frees (noSkip_next ha ht htables)
    refine ⟨fun x hx hle hxb => ?_, ?_, fun x hx hor => ?_⟩
    · by_cases heq : x = a
      · rw [heq, h.others a ha (by omega), PageDir.getPte_setPte_self ht]
      · exact hrest.clear x hx (next_page_le ha hx (by omega)) hxb
    · have hcongr : framesIn (d.setPte a none) (a + PGSIZE) b = framesIn d (a + PGSIZE) b :=
        framesIn_congr (next_page_aligned ha) fun x hx hle _ => hother x hx (by omega)
      rw [framesIn_mapped hlt hsome, hrest.freed, hcongr, List.reverse_cons, List.append_assoc]
      rfl
    · rw [h.others x hx (by omega), hother x hx (by omega)]

/-- The loop jumps where there is no page table. -/
theorem Dealloc.jump (ha : a % PGSIZE = 0) (ht : (d.tables (PDX a)).isSome = false)
    (h : Dealloc d s (a + SPAN) b d' s') : Dealloc d s a b d' s' := by
  have hspan : SPAN = NPTENTRIES * PGSIZE := by decide
  refine ⟨h.page, h.user, h.sub, h.tables, fun x hx hor => h.others x hx (by omega),
    fun hskip => ?_, fun hclear => ?_⟩
  · have hrest := h.frees (hskip.jump ht)
    have hpassed := fun x hx hle hlt hb => hskip.passed (x := x) ht hx hle hlt hb
    refine ⟨fun x hx hle hlt => ?_, ?_, fun x hx hor => h.others x hx (by omega)⟩
    · by_cases hjump : x < a + SPAN
      · rw [h.others x hx (Or.inl hjump), hpassed x hx hle hjump hlt]
      · exact hrest.clear x hx (by omega) hlt
    · rw [framesIn_skip NPTENTRIES ha (by rw [← hspan]; exact hpassed), ← hspan]
      exact hrest.freed
  · have hrest := h.noSkip fun x hx hle hlt => hclear x hx (by omega) hlt
    intro x hx hle hlt hsome habsent
    by_cases hjump : x < a + SPAN
    · have hnone := hclear x hx hle hlt
      rw [h.others x hx (Or.inl hjump)] at hnone
      rw [hnone] at hsome
      cases hsome
    · have hpdx : PDX a < PDX (a + SPAN) := by
        rw [pdx_eq_div, pdx_eq_div, Nat.add_div_right _ (by decide)]
        omega
      have hmod := hrest x hx (by omega) hlt hsome fun i hi hix => habsent i (by omega) hix
      rwa [Nat.add_mod_right] at hmod

theorem BadFrame.mono (h : BadFrame K d a' b) (hle : a ≤ a') : BadFrame K d a b := by
  obtain ⟨x, e, hx, hxa, hxb, hget, hbad⟩ := h
  exact ⟨x, e, hx, hle.trans hxa, hxb, hget, hbad⟩

theorem deallocLoop_range_wp (ha : a % PGSIZE = 0) (hfuel : b ≤ a + fuel * PGSIZE) :
    wp (deallocLoop K fuel d a b) (fun d' s' => Dealloc d s a b d' s')
      (fun e _ => e = .kfree ∧ BadFrame K d a b) s := by
  have hpos := page_pos
  induction fuel generalizing s d a with
  | zero => exact Dealloc.done (by omega)
  | succ fuel ih =>
    rw [Nat.succ_mul] at hfuel
    have hnext := next_page_aligned ha
    refine wp_ite (fun hlt => ?_) fun hge => Dealloc.done (by omega)
    rw [wp_bind]
    refine walkpgdir_find_wp (fun ht => ?_) fun ht => ?_
    · have hstep : a + (NPTENTRIES - 1) * PGSIZE + PGSIZE = a + SPAN := by
        have hspan : (NPTENTRIES - 1) * PGSIZE + PGSIZE = SPAN := by decide
        omega
      have hspan := page_le_span
      rw [hstep]
      refine wp_mono (ih (s := s) (d := d) (a := a + SPAN) (span_aligned ha) (by omega))
        (fun d' s' h => h.jump ha ht) fun e t h => ⟨h.1, h.2.mono (by omega)⟩
    · dsimp only
      cases hget : d.getPte a with
      | none =>
        refine wp_mono (ih (s := s) (d := d) hnext (by omega)) (fun d' s' h => h.pass ha ht hget)
          fun e t h => ⟨h.1, h.2.mono (by omega)⟩
      | some e =>
        have hbad : ¬ ValidPage K e.pa → BadFrame K d a b := fun hno =>
          ⟨a, e, ha, le_rfl, hlt, hget, hno⟩
        refine wp_ite (fun hzero => ⟨rfl, hbad fun hv => hv.ne_zero hzero⟩) fun _ => ?_
        rw [wp_bind]
        refine kfree_check_wp (fun hv => ?_) fun hno => ⟨rfl, hbad hno⟩
        refine wp_mono (ih hnext (by omega)) (fun d' s' h => h.free ha hlt hget) ?_
        rintro e' t ⟨he', x, e'', hx, hle, hxb, hget', hno⟩
        refine ⟨he', x, e'', hx, by omega, hxb, ?_, hno⟩
        rw [← hget', PageDir.getPte_setPte_of_ne (page_ne hx ha (by omega))]

theorem deallocuvm_range_wp (hlt : newsz < oldsz) (hle : oldsz ≤ KERNBASE) :
    wp (deallocuvm K d oldsz newsz)
      (fun r s' => r.1 = newsz ∧ Dealloc d s (pgRoundUp newsz) oldsz r.2 s')
      (fun e _ => e = .kfree ∧ BadFrame K d (pgRoundUp newsz) oldsz) s := by
  have hfuel : oldsz ≤ pgRoundUp newsz + ADDRESSES / PGSIZE * PGSIZE := by
    have hall : ADDRESSES / PGSIZE * PGSIZE = ADDRESSES := by decide
    have haddr : KERNBASE ≤ ADDRESSES := by decide
    omega
  unfold deallocuvm
  refine wp_ite (fun hno => absurd hno (Nat.not_le.mpr hlt)) fun _ => ?_
  rw [wp_bind]
  exact wp_mono (deallocLoop_range_wp (pgRoundUp_aligned newsz) hfuel) (fun d' s' h => ⟨rfl, h⟩)
    fun e t h => h

/-- `deallocuvm` returns, unless a frame of the range is none that `kfree` takes; it has freed the
    range if and only if no mapped page was passed over. -/
theorem deallocuvm_frees_iff_noSkip (K : KernelImage) (s : Kmem) (d : PageDir) (oldsz newsz : Nat)
    (hlt : newsz < oldsz) (hle : oldsz ≤ KERNBASE) :
    wp (deallocuvm K d oldsz newsz) (fun r s' => r.1 = newsz ∧
        (FreesRange d s (pgRoundUp newsz) oldsz r.2 s' ↔ NoSkip d (pgRoundUp newsz) oldsz))
      (fun e _ => e = .kfree ∧ BadFrame K d (pgRoundUp newsz) oldsz) s := by
  refine wp_mono (deallocuvm_range_wp hlt hle) (fun r s' h => ⟨h.1, ?_⟩) fun _ _ h => h
  exact ⟨fun hfrees => h.2.noSkip hfrees.clear, h.2.frees⟩

/-- A directory with one page table, for the second 4 MB, that maps its first page. -/
def secondTable : PageDir where
  page := 0x300000
  tables i :=
    if i = 1 then
      some ⟨0x301000, fun j => if j = 0 then some ⟨0x302000, true, true⟩ else none⟩
    else none

theorem deallocuvm_frees_iff_noSkip_page : wp (deallocuvm smallKernel emptyDir PGSIZE 0)
      (fun r s' => r.1 = 0 ∧ (FreesRange emptyDir ⟨[], false, [], []⟩ (pgRoundUp 0) PGSIZE r.2 s' ↔
          NoSkip emptyDir (pgRoundUp 0) PGSIZE))
      (fun e _ => e = .kfree ∧ BadFrame smallKernel emptyDir (pgRoundUp 0) PGSIZE)
      ⟨[], false, [], []⟩ :=
  deallocuvm_frees_iff_noSkip smallKernel ⟨[], false, [], []⟩ emptyDir PGSIZE 0 (by decide)
    (by decide)

theorem secondTable_frame (h : secondTable.getPte x = some e) : e.pa = 0x302000 := by
  unfold PageDir.getPte secondTable at h
  dsimp only at h
  by_cases hi : PDX x = 1
  · rw [if_pos hi] at h
    dsimp only at h
    by_cases hj : PTX x = 0
    · rw [if_pos hj] at h
      rw [← Option.some.inj h]
    · rw [if_neg hj] at h
      cases h
  · rw [if_neg hi] at h
    cases h

/-- From the second page of the address space the loop jumps to the second page of the table. -/
theorem secondTable_skipped : ∃ d' s',
    deallocuvm smallKernel secondTable (SPAN + 2 * PGSIZE) PGSIZE ⟨[], false, [], []⟩ =
      .ok (PGSIZE, d') s' ∧
    ¬ FreesRange secondTable ⟨[], false, [], []⟩ (pgRoundUp PGSIZE) (SPAN + 2 * PGSIZE) d' s' := by
  have hskip : ¬ NoSkip secondTable (pgRoundUp PGSIZE) (SPAN + 2 * PGSIZE) := by
    intro h
    have hmod := h SPAN (by decide) (by decide) (by decide) (by decide) fun i hi hlt => by
      have hzero : i = 0 := by
        have hone : PDX SPAN = 1 := by decide
        omega
      rw [hzero]
      rfl
    exact absurd hmod (by decide)
  have hgood : ¬ BadFrame smallKernel secondTable (pgRoundUp PGSIZE) (SPAN + 2 * PGSIZE) := by
    rintro ⟨x, e, _, _, _, hget, hbad⟩
    refine hbad ?_
    rw [secondTable_frame hget]
    exact ⟨by decide, by decide, by decide⟩
  have hrun : wp (deallocuvm smallKernel secondTable (SPAN + 2 * PGSIZE) PGSIZE)
      (fun r s' => r.1 = PGSIZE ∧ Dealloc secondTable ⟨[], false, [], []⟩ (pgRoundUp PGSIZE)
        (SPAN + 2 * PGSIZE) r.2 s') (fun _ _ => False) ⟨[], false, [], []⟩ :=
    wp_mono (deallocuvm_range_wp (by decide) (by decide)) (fun _ _ h => h) fun _ _ h => hgood h.2
  obtain ⟨⟨r, d'⟩, s', hok, hr, h⟩ := exists_ok_of_wp hrun
  dsimp only at hr
  rw [hr] at hok
  exact ⟨d', s', hok, fun hfrees => hskip (h.noSkip hfrees.clear)⟩

end

end Xv6Kernel
