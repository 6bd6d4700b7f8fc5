/-
  PageAccounts.lean
  =================
  Where the pages go.

  `owned d p` says how often a page directory has the page `p`: as its own page, as a page table
  or as a frame that its user part maps.  Every function of `vm.c` moves pages between the free
  list and the directories it works on (`Moves`), and pages are lost in one case only: when
  `walkpgdir` gets no page for a page table (`Books`).
-/
import Mathlib.Algebra.Order.BigOperators.Group.Finset
import Xv6Kernel.VirtualMemory

namespace Xv6Kernel

open PanicMonad Function Finset PageDir

/-! ### The pages of a directory -/

/-- The page directory entries of the user part. -/
def USERPDES : Nat := KERNBASE / (PGSIZE * NPTENTRIES)

def one (page p : Nat) : Nat := if page = p then 1 else 0

def ownedPte (e : Option Pte) (p : Nat) : Nat :=
  match e with
  | none => 0
  | some e => one e.pa p

/-- The pages of one page table; the kernel's mappings own no frames. -/
def ownedTable (p i : Nat) : Option PageTable → Nat
  | none => 0
  | some t =>
      one t.page p +
        if i < USERPDES then ∑ j ∈ Finset.range NPTENTRIES, ownedPte (t.ptes j) p else 0

variable {i : Nat} {s' : Kmem}

theorem ownedTable_user (h : i < USERPDES) (t : PageTable) : ownedTable p i (some t) =
      one t.page p + ∑ j ∈ Finset.range NPTENTRIES, ownedPte (t.ptes j) p := by
  simp only [ownedTable, if_pos h]

theorem ownedTable_kernel (h : ¬ i < USERPDES) (t : PageTable) :
    ownedTable p i (some t) = one t.page p := by
  simp only [ownedTable, if_neg h, Nat.add_zero]

/-- A page table without entries. -/
theorem ownedTable_new {page : Nat} : ownedTable p i (some ⟨page, fun _ => none⟩) = one page p := by
  by_cases h : i < USERPDES
  · rw [ownedTable_user h]
    exact congrArg (one page p + ·) (sum_eq_zero fun _ _ => rfl)
  · exact ownedTable_kernel h _

def owned (d : PageDir) (p : Nat) : Nat :=
  one d.page p + ∑ i ∈ Finset.range NPDENTRIES, ownedTable p i (d.tables i)

/-- A sum in which one term changes. -/
theorem sum_one_changed [DecidableEq ι] {t : Finset ι} {i : ι} (hi : i ∈ t)
    (f : ι → α) (v : α) (g : ι → α → Nat) :
    ∑ x ∈ t, g x (update f i v x) + g i (f i) = ∑ x ∈ t, g x (f x) + g i v := by
  have hrest : ∀ x ∈ t.erase i, g x (update f i v x) = g x (f x) :=
    fun x hx => by rw [update_of_ne (ne_of_mem_erase hx)]
  have hnew := add_sum_erase _ (fun x => g x (update f i v x)) hi
  have hold := add_sum_erase _ (fun x => g x (f x)) hi
  rw [sum_congr rfl hrest, update_self] at hnew
  omega

/-! ### Addresses -/

theorem pdx_lt (h : va < ADDRESSES) : PDX va < NPDENTRIES := by
  unfold ADDRESSES at h
  unfold PDX PGSIZE NPTENTRIES NPDENTRIES
  omega

theorem ptx_lt (va : Nat) : PTX va < NPTENTRIES := Nat.mod_lt _ (by decide)

theorem pdx_lt_user (h : va < KERNBASE) : PDX va < USERPDES := by
  unfold KERNBASE at h
  unfold PDX USERPDES KERNBASE PGSIZE NPTENTRIES
  omega

theorem user_le_pdx (h : KERNBASE ≤ va) : ¬ PDX va < USERPDES := by
  unfold KERNBASE at h
  unfold PDX USERPDES KERNBASE PGSIZE NPTENTRIES
  omega

theorem lt_addresses (h : va < KERNBASE) : va < ADDRESSES := Nat.lt_trans h (by decide)

/-! ### Changes of a directory -/

namespace PageDir

variable {d : PageDir} {va va' page p : Nat} {e : Option Pte}

theorem owned_setPte_user (hva : va < KERNBASE) (ht : (d.tables (PDX va)).isSome = true) :
    owned (d.setPte va e) p + ownedPte (d.getPte va) p = owned d p + ownedPte e p := by
  obtain ⟨t, ht⟩ := Option.isSome_iff_exists.mp ht
  have hset := sum_one_changed (mem_range.mpr (pdx_lt (lt_addresses hva))) d.tables
    (some { t with ptes := update t.ptes (PTX va) e }) (ownedTable p)
  have hpte := sum_one_changed (mem_range.mpr (ptx_lt va)) t.ptes e fun _ e => ownedPte e p
  rw [ht, ownedTable_user (pdx_lt_user hva), ownedTable_user (pdx_lt_user hva)] at hset
  dsimp only at hset
  simp only [owned, setPte, getPte, ht]
  omega

theorem owned_setPte_kernel (hva : KERNBASE ≤ va) (hlt : va < ADDRESSES) :
    owned (d.setPte va e) p = owned d p := by
  unfold setPte
  cases ht : d.tables (PDX va) with
  | none => rfl
  | some t =>
    have hset := sum_one_changed (mem_range.mpr (pdx_lt hlt)) d.tables
      (some { t with ptes := update t.ptes (PTX va) e }) (ownedTable p)
    rw [ht, ownedTable_kernel (user_le_pdx hva), ownedTable_kernel (user_le_pdx hva)] at hset
    dsimp only at hset
    simp only [owned]
    omega

theorem owned_addTable (hlt : va < ADDRESSES) (ht : (d.tables (PDX va)).isSome = false) :
    owned (d.addTable va page) p = owned d p + one page p := by
  have hnone : d.tables (PDX va) = none := by simpa using ht
  have hset := sum_one_changed (mem_range.mpr (pdx_lt hlt)) d.tables
    (some ⟨page, fun _ => none⟩) (ownedTable p)
  rw [hnone, ownedTable_new] at hset
  have hzero : ownedTable p (PDX va) none = 0 := rfl
  simp only [owned, addTable]
  omega

theorem owned_new : owned ⟨page, fun _ => none⟩ p = one page p := by
  have hzero : ∑ i ∈ Finset.range NPDENTRIES, ownedTable p i none = 0 := sum_eq_zero fun _ _ => rfl
  simp only [owned, hzero, Nat.add_zero]

theorem getPte_addTable (ht : (d.tables (PDX va)).isSome = false) (va' : Nat) :
    (d.addTable va page).getPte va' = d.getPte va' := by
  have hnone : d.tables (PDX va) = none := by simpa using ht
  unfold getPte addTable
  by_cases h : PDX va' = PDX va
  · simp only [h, update_self, hnone]
  · simp only [update_of_ne h]

theorem isSome_tables_addTable (i : Nat) (h : (d.tables i).isSome = true ∨ i = PDX va) :
    ((d.addTable va page).tables i).isSome = true := by
  unfold addTable
  by_cases hi : i = PDX va
  · simp only [hi, update_self, Option.isSome_some]
  · simp only [update_of_ne hi]
    exact h.resolve_right hi

theorem isSome_tables_setPte (i : Nat) :
    ((d.setPte va e).tables i).isSome = (d.tables i).isSome := by
  unfold setPte
  cases ht : d.tables (PDX va) with
  | none => rfl
  | some t =>
    by_cases hi : i = PDX va
    · simp only [hi, update_self, ht, Option.isSome_some]
    · simp only [update_of_ne hi]

theorem page_setPte : (d.setPte va e).page = d.page := by
  unfold setPte
  cases d.tables (PDX va) <;> rfl

/-- A page has one entry. -/
theorem getPte_of_page (h : va' / PGSIZE = va / PGSIZE) : d.getPte va' = d.getPte va := by
  unfold getPte PDX PTX
  rw [← Nat.div_div_eq_div_mul, ← Nat.div_div_eq_div_mul, h]

theorem getPte_setPte_self (ht : (d.tables (PDX va)).isSome = true) :
    (d.setPte va e).getPte va = e := by
  obtain ⟨t, ht⟩ := Option.isSome_iff_exists.mp ht
  simp only [getPte, setPte, ht, update_self]

/-- Another page's entry. -/
theorem getPte_setPte_of_ne (h : va' / PGSIZE ≠ va / PGSIZE) :
    (d.setPte va e).getPte va' = d.getPte va' := by
  unfold setPte
  cases ht : d.tables (PDX va) with
  | none => rfl
  | some t =>
    unfold getPte
    by_cases hi : PDX va' = PDX va
    · have hj : PTX va' ≠ PTX va := by
        intro hj
        unfold PDX at hi
        unfold PTX at hj
        rw [← Nat.div_div_eq_div_mul, ← Nat.div_div_eq_div_mul] at hi
        rw [← Nat.div_add_mod (va' / PGSIZE) NPTENTRIES, hi, hj, Nat.div_add_mod] at h
        exact h rfl
      simp only [hi, update_self, update_of_ne hj, ht]
    · simp only [update_of_ne hi]

end PageDir

theorem owned_page_pos (d : PageDir) : 0 < owned d d.page := by
  unfold owned one
  rw [if_pos rfl]
  omega

theorem owned_eq (d : PageDir) (p : Nat) :
    owned d p = one d.page p + ∑ i ∈ Finset.range NPDENTRIES, ownedTable p i (d.tables i) := rfl

-- From here on sums over page tables are not to be computed.
attribute [irreducible] owned

/-! ### Accounts -/

/-- Pages have moved between the free list and their owner, and none was refused to
    `walkpgdir`. -/
structure Moves (s : Kmem) (own : Nat → Nat) (s' : Kmem) (own' : Nat → Nat) : Prop where
  count : ∀ p, s.free.count p + own p = s'.free.count p + own' p
  short : s'.short = s.short

/-- As `Moves`, but with pages lost if and only if `walkpgdir` was refused one. -/
def Books (s : Kmem) (own : Nat → Nat) (s' : Kmem) (own' : Nat → Nat) : Prop :=
  ∃ lost : Nat → Nat, (∀ p, s.free.count p + own p = s'.free.count p + own' p + lost p) ∧
    (s'.short = true ↔ s.short = true ∨ ∃ p, 0 < lost p)

theorem Moves.refl (s : Kmem) (own : Nat → Nat) : Moves s own s own := ⟨fun _ => rfl, rfl⟩

theorem Moves.trans (h : Moves s own s' own')
    (h' : Moves s' own' s'' own'') : Moves s own s'' own'' :=
  ⟨fun p => (h.count p).trans (h'.count p), h'.short.trans h.short⟩

theorem Moves.books (h : Moves s own s' own') : Books s own s' own' := by
  refine ⟨fun _ => 0, h.count, ?_⟩
  rw [h.short]
  exact ⟨Or.inl, fun hor => hor.resolve_right fun ⟨_, hp⟩ => absurd hp (Nat.lt_irrefl 0)⟩

theorem Books.trans (h : Books s own s' own')
    (h' : Books s' own' s'' own'') : Books s own s'' own'' := by
  obtain ⟨lost, hc, hs⟩ := h
  obtain ⟨lost', hc', hs'⟩ := h'
  refine ⟨fun p => lost p + lost' p, fun p => ?_, ?_⟩
  · have h1 := hc p
    have h2 := hc' p
    dsimp only
    omega
  · rw [hs', hs, or_assoc]
    refine or_congr_right ⟨?_, ?_⟩
    · rintro (⟨p, hp⟩ | ⟨p, hp⟩)
      · exact ⟨p, Nat.add_pos_left hp _⟩
      · exact ⟨p, Nat.add_pos_right _ hp⟩
    · rintro ⟨p, hp⟩
      dsimp only at hp
      rcases Nat.eq_zero_or_pos (lost p) with hz | hz
      · exact Or.inr ⟨p, by omega⟩
      · exact Or.inl ⟨p, hz⟩

/-- Nothing is lost if no page table was refused. -/
theorem Books.moves (h : Books s own s' own') (hs : s'.short = false) : Moves s own s' own' := by
  obtain ⟨lost, hc, hshort⟩ := h
  have hnone : ¬ (s.short = true ∨ ∃ p, 0 < lost p) := by
    rw [← hshort, hs]
    exact Bool.false_ne_true
  refine ⟨fun p => ?_, ?_⟩
  · have hzero : lost p = 0 := Nat.eq_zero_of_not_pos fun hp => hnone (Or.inr ⟨p, hp⟩)
    have h1 := hc p
    omega
  · rw [hs]
    exact (Bool.eq_false_iff.mpr fun ht => hnone (Or.inl ht)).symm

section

variable {K : KernelImage} {s : Kmem} {d : PageDir} {va : Nat} {E : VmPanic → Kmem → Prop}
  (hE : ∀ e t, E e t)

theorem count_cons_one (p q : Nat) (l : List Nat) : (p :: l).count q = l.count q + one p q := by
  rw [List.count_cons]
  unfold one
  simp only [beq_iff_eq]

theorem kalloc_wp (hnone : s.free = [] → P none s)
    (hsome : ∀ p s', Moves s (fun _ => 0) s' (one p) → s'.user = s.user → P (some p) s') :
    wp kalloc P E s := by
  unfold kalloc
  rw [wp_bind, wp_get]
  cases hf : s.free with
  | nil => exact hnone hf
  | cons p ps =>
    refine hsome p _ ⟨fun q => ?_, rfl⟩ rfl
    rw [hf, count_cons_one]
    rfl

include hE

variable {a fuel i : Nat} {P : Option PageDir → Kmem → Prop}

theorem kfree_wp {P : Unit → Kmem → Prop}
    (hok : ∀ s', Moves s (one pa) s' (fun _ => 0) → s'.user = s.user → P () s') :
    wp (kfree K pa) P E s := by
  refine wp_ite (fun _ => hE _ _) fun _ => ?_
  refine hok _ ⟨fun q => ?_, rfl⟩ rfl
  exact (count_cons_one pa q s.free).symm

omit hE in
theorem walkpgdir_find_wp (hnone : (d.tables (PDX va)).isSome = false → P none s)
    (hsome : (d.tables (PDX va)).isSome = true → P (some d) s) :
    wp (walkpgdir d va false) P E s := by
  refine wp_ite hsome fun hn => ?_
  exact hnone (by simpa using hn)

omit hE in
theorem walkpgdir_alloc_wp (hva : va < ADDRESSES)
    (hnone : ∀ s', s'.free = s.free → s'.short = true → s'.user = s.user → P none s')
    (hsome : ∀ d' s', Moves s (owned d) s' (owned d') → s'.user = s.user →
      (d'.tables (PDX va)).isSome = true → (∀ va', d'.getPte va' = d.getPte va') →
      P (some d') s') : wp (walkpgdir d va true) P E s := by
  refine wp_ite (fun ht => hsome d s (.refl s _) rfl ht fun _ => rfl) fun hn => ?_
  have ht : (d.tables (PDX va)).isSome = false := by simpa using hn
  rw [if_pos rfl, wp_bind]
  refine kalloc_wp (fun _ => ?_) fun page s' hm hu => ?_
  · exact hnone _ rfl rfl rfl
  · refine hsome _ s' ⟨fun p => ?_, hm.short⟩ hu ?_ fun va' => getPte_addTable ht va'
    · have := hm.count p
      rw [owned_addTable hva ht]
      omega
    · exact isSome_tables_addTable _ (Or.inr rfl)

/-! ### `mappages` -/

omit hE in
/-- The loop of `mappages` over a range of whole pages. -/
theorem mappages_eq_mapLoop (halign : va % PGSIZE = 0) (hsize : size % PGSIZE = 0)
    (hpos : 0 < size) (hend : va + size ≤ ADDRESSES) (w u : Bool) :
    mappages d va size pa w u = mapLoop w u (size / PGSIZE - 1) d va pa := by
  have hround : pgRoundDown va = va := Nat.div_mul_cancel (Nat.dvd_of_mod_eq_zero halign)
  have hlast : pgRoundDown ((va + size + (ADDRESSES - 1)) % ADDRESSES) = va + size - PGSIZE := by
    unfold pgRoundDown
    unfold PGSIZE ADDRESSES at *
    omega
  have hcount : (va + size - PGSIZE + ADDRESSES - va) % ADDRESSES / PGSIZE = size / PGSIZE - 1 := by
    unfold PGSIZE ADDRESSES at *
    omega
  simp only [mappages, hround, hlast, hcount]

omit hE in
theorem mappages_page (hva : va < KERNBASE) (halign : va % PGSIZE = 0) (w u : Bool) :
    mappages d va PGSIZE pa w u = mapLoop w u 0 d va pa :=
  mappages_eq_mapLoop halign (by decide) (by decide) (by
    unfold KERNBASE at hva
    unfold PGSIZE ADDRESSES
    omega) w u

/-- One page of user memory is mapped. -/
theorem mappages_user_wp {P : Bool × PageDir → Kmem → Prop} (hva : va < KERNBASE)
    (halign : va % PGSIZE = 0)
    (hfail : ∀ s', s'.free = s.free → s'.short = true → s'.user = s.user → P (false, d) s')
    (hok : ∀ d' s', Moves s (fun p => owned d p + one pa p) s' (owned d') → s'.user = s.user →
      P (true, d') s') : wp (mappages d va PGSIZE pa w u) P E s := by
  rw [mappages_page hva halign]
  unfold mapLoop
  rw [wp_bind]
  refine walkpgdir_alloc_wp (lt_addresses hva) hfail fun d' s' hm hu ht hget => ?_
  refine wp_ite (fun _ => hE _ _) fun hfree => ?_
  refine hok _ s' ⟨fun p => ?_, hm.short⟩ hu
  have hnone : d'.getPte va = none := by simpa using hfree
  have hset := owned_setPte_user (e := some ⟨pa, w, u⟩) (p := p) hva ht
  have hzero : ownedPte none p = 0 := rfl
  have hone : ownedPte (some ⟨pa, w, u⟩) p = one pa p := rfl
  rw [hnone, hzero, hone] at hset
  have := hm.count p
  omega

omit hE in
/-- Loop rule of `mappages`: `I j` holds before page `j` of the range. -/
theorem mapLoop_rule {I : Nat → PageDir → Kmem → Prop} {P : Bool × PageDir → Kmem → Prop} {k : Nat}
    (hk : a + k * PGSIZE < ADDRESSES) (h : I 0 d s)
    (hstep : ∀ j d s (Q : Option PageDir → Kmem → Prop), j ≤ k → a + j * PGSIZE < ADDRESSES →
      I j d s → (∀ s', P (false, d) s' → Q none s') →
      (∀ d' s', ((d'.getPte (a + j * PGSIZE)).isSome = true → E .remap s') →
        (¬ (d'.getPte (a + j * PGSIZE)).isSome = true →
          I (j + 1) (d'.setPte (a + j * PGSIZE) (some ⟨pa + j * PGSIZE, w, u⟩)) s') →
        Q (some d') s') → wp (walkpgdir d (a + j * PGSIZE) true) Q E s)
    (hok : ∀ d' s', I (k + 1) d' s' → P (true, d') s') : wp (mapLoop w u k d a pa) P E s := by
  suffices hall : ∀ i j d s, j + i = k → I j d s →
      wp (mapLoop w u i d (a + j * PGSIZE) (pa + j * PGSIZE)) P E s by
    have hzero := hall k 0 d s (Nat.zero_add k) h
    rwa [Nat.zero_mul, Nat.add_zero, Nat.add_zero] at hzero
  intro i
  induction i with
  | zero =>
    intro j d s hj hI
    rw [Nat.add_zero] at hj
    subst hj
    unfold mapLoop
    rw [wp_bind]
    refine hstep j d s _ le_rfl hk hI (fun _ hP => hP) fun d' s' hmap hset => ?_
    exact wp_ite hmap fun hno => hok _ s' (hset hno)
  | succ i ih =>
    intro j d s hj hI
    have hle : (j + 1) * PGSIZE ≤ k * PGSIZE := Nat.mul_le_mul_right _ (by omega)
    rw [Nat.succ_mul] at hle
    unfold mapLoop
    rw [wp_bind]
    refine hstep j d s _ (by omega) (by omega) hI (fun _ hP => hP) fun d' s' hmap hset => ?_
    refine wp_ite hmap fun hno => ?_
    have hnext := ih (j + 1) _ s' (by omega) (hset hno)
    rw [Nat.succ_mul, ← Nat.add_assoc, ← Nat.add_assoc] at hnext
    rwa [Nat.mod_eq_of_lt (by omega)]

/-- Pages of the kernel part are mapped; the mapped frames belong to nobody. -/
theorem mapLoop_kernel_wp {P : Bool × PageDir → Kmem → Prop} {k : Nat} (ha : KERNBASE ≤ a)
    (hk : a + k * PGSIZE < ADDRESSES)
    (hfail : ∀ d' s', (∀ p, s.free.count p + owned d p = s'.free.count p + owned d' p) →
      s'.short = true → P (false, d') s')
    (hok : ∀ d' s', Moves s (owned d) s' (owned d') → P (true, d') s') :
    wp (mapLoop w u k d a pa) P E s := by
  refine mapLoop_rule (I := fun _ d' s' => Moves s (owned d) s' (owned d')) hk (.refl s _)
    (fun j d' s' Q _ hlt hm hnone hsome => ?_) hok
  refine walkpgdir_alloc_wp hlt (fun s₁ hf hs _ => hnone s₁ (hfail d' s₁ (fun p => ?_) hs))
    fun d₁ s₁ hm₁ _ _ _ => hsome d₁ s₁ (fun _ => hE _ _) fun _ => ?_
  · rw [hf]
    exact hm.count p
  · refine hm.trans ⟨fun p => ?_, hm₁.short⟩
    rw [owned_setPte_kernel (by omega) hlt]
    exact hm₁.count p

/-- A range of the kernel part that ends below `2 ^ 32`. -/
theorem mappages_kernel_wp {P : Bool × PageDir → Kmem → Prop} {size : Nat} (hva : KERNBASE ≤ va)
    (halign : va % PGSIZE = 0) (hsize : size % PGSIZE = 0) (hpos : 0 < size)
    (hend : va + size ≤ ADDRESSES)
    (hfail : ∀ d' s', (∀ p, s.free.count p + owned d p = s'.free.count p + owned d' p) →
      s'.short = true → P (false, d') s')
    (hok : ∀ d' s', Moves s (owned d) s' (owned d') → P (true, d') s') :
    wp (mappages d va size pa w u) P E s := by
  rw [mappages_eq_mapLoop halign hsize hpos hend]
  refine mapLoop_kernel_wp hE hva ?_ hfail hok
  unfold PGSIZE ADDRESSES at *
  omega

/-- What `mappages` needs of an entry of `kmap`. -/
structure KmapOk (k : Kmap) : Prop where
  virt : KERNBASE ≤ k.virt
  aligned : k.virt % PGSIZE = 0
  size : (k.physEnd + ADDRESSES - k.physStart) % ADDRESSES % PGSIZE = 0
  pos : 0 < (k.physEnd + ADDRESSES - k.physStart) % ADDRESSES
  fits : k.virt + (k.physEnd + ADDRESSES - k.physStart) % ADDRESSES ≤ ADDRESSES

omit hE in
theorem kmap_ok (K : KernelImage) : ∀ k ∈ kmap K, KmapOk k := by
  have haligned := K.aligned
  have htext := K.text
  have hfits := K.fits
  unfold PGSIZE at haligned
  unfold EXTMEM at htext
  unfold PHYSTOP at hfits
  intro k hk
  simp only [kmap, List.mem_cons, List.not_mem_nil, or_false] at hk
  rcases hk with rfl | rfl | rfl | rfl
  · exact ⟨by decide, by decide, by decide, by decide, by decide⟩
  · refine ⟨?_, ?_, ?_, ?_, ?_⟩ <;>
      simp only [KERNLINK, KERNBASE, EXTMEM, ADDRESSES, PGSIZE] <;> omega
  · refine ⟨?_, ?_, ?_, ?_, ?_⟩ <;>
      simp only [KERNBASE, PHYSTOP, ADDRESSES, PGSIZE] <;> omega
  · exact ⟨by decide, by decide, by decide, by decide, by decide⟩

theorem mapKernel_wp {ks : List Kmap} (hks : ∀ k ∈ ks, KmapOk k)
    (hfail : ∀ d' s', (∀ p, s.free.count p + owned d p = s'.free.count p + owned d' p) →
      s'.short = true → P none s')
    (hok : ∀ d' s', Moves s (owned d) s' (owned d') → P (some d') s') :
    wp (mapKernel ks d) P E s := by
  induction ks generalizing s d with
  | nil => exact hok d s (.refl s _)
  | cons k ks ih =>
    have hk := hks k List.mem_cons_self
    unfold mapKernel
    rw [wp_bind]
    refine mappages_kernel_wp hE hk.virt hk.aligned hk.size hk.pos hk.fits hfail ?_
    intro d' s' hm
    refine ih (fun k hk => hks k (List.mem_cons_of_mem _ hk)) ?_ ?_
    · exact fun d'' s'' hc hs => hfail d'' s'' (fun p => (hm.count p).trans (hc p)) hs
    · exact fun d'' s'' hm' => hok d'' s'' (hm.trans hm')

/-- `setupkvm` loses the directory if it gets no page for a page table. -/
theorem setupkvm_wp (hfail : ∀ s', Books s (fun _ => 0) s' (fun _ => 0) → P none s')
    (hok : ∀ d s', Moves s (fun _ => 0) s' (owned d) → P (some d) s') : wp (setupkvm K) P E s := by
  unfold setupkvm
  rw [wp_bind]
  refine kalloc_wp (fun _ => hfail s (Moves.refl s _).books) fun page s₁ hm _ => ?_
  have hm₁ : Moves s (fun _ => 0) s₁ (owned ⟨page, fun _ => none⟩) :=
    ⟨fun p => by rw [owned_new]; exact hm.count p, hm.short⟩
  refine mapKernel_wp hE (kmap_ok K) ?_ fun d s' hm' => hok d s' (hm₁.trans hm')
  intro d s' hc hs
  refine hfail s' ⟨owned d, fun p => ?_, ?_⟩
  · have h1 := hm₁.count p
    have h2 := hc p
    omega
  · simp only [hs, true_iff]
    exact Or.inr ⟨d.page, owned_page_pos d⟩

/-! ### User memory -/

theorem deallocLoop_wp {P : PageDir → Kmem → Prop} (hsz : oldsz ≤ KERNBASE)
    (hok : ∀ d' s', Moves s (owned d) s' (owned d') → P d' s') :
    wp (deallocLoop K fuel d a oldsz) P E s := by
  induction fuel generalizing s d a with
  | zero => exact hok d s (.refl s _)
  | succ fuel ih =>
    refine wp_ite (fun ha => ?_) fun _ => hok d s (.refl s _)
    have hva : a < KERNBASE := Nat.lt_of_lt_of_le ha hsz
    rw [wp_bind]
    refine walkpgdir_find_wp (fun _ => ih hok) fun ht => ?_
    dsimp only
    cases hget : d.getPte a with
    | none => exact ih hok
    | some e =>
      refine wp_ite (fun _ => hE _ _) fun _ => ?_
      rw [wp_bind]
      refine kfree_wp hE fun s' hm _ => ih fun d' s'' hm' => hok d' s'' ?_
      refine ⟨fun p => ?_, hm'.short.trans hm.short⟩
      have hset := owned_setPte_user (e := none) (p := p) hva ht
      rw [hget] at hset
      have h0 : ownedPte none p = 0 := rfl
      have h1 : ownedPte (some e) p = one e.pa p := rfl
      have h2 := hm.count p
      have h3 := hm'.count p
      omega

theorem deallocuvm_wp {P : Nat × PageDir → Kmem → Prop} (hsz : oldsz ≤ KERNBASE)
    (hok : ∀ r d' s', Moves s (owned d) s' (owned d') → r ≤ oldsz → P (r, d') s') :
    wp (deallocuvm K d oldsz newsz) P E s := by
  unfold deallocuvm
  refine wp_ite (fun _ => hok _ d s (.refl s _) le_rfl) fun hlt => ?_
  rw [wp_bind]
  exact deallocLoop_wp hE hsz fun d' s' hm => hok _ d' s' hm (Nat.le_of_not_le hlt)

omit hE in
theorem books_of_loss (hc : ∀ p, s.free.count p + own p = s'.free.count p + own' p + one m p)
    (hs : s'.short = true) : Books s own s' own' := by
  refine ⟨one m, hc, ?_⟩
  simp only [hs, true_iff]
  exact Or.inr ⟨m, by unfold one; rw [if_pos rfl]; exact Nat.one_pos⟩

/-- `allocuvm` loses the page that it could not map. -/
theorem allocLoop_wp {P : Nat × PageDir → Kmem → Prop} (hsz : newsz ≤ KERNBASE)
    (ha : a % PGSIZE = 0)
    (hok : ∀ r d' s', Books s (owned d) s' (owned d') → r ≤ newsz → P (r, d') s') :
    wp (allocLoop K oldsz newsz fuel d a) P E s := by
  induction fuel generalizing s d a with
  | zero => exact hok _ d s (Moves.refl s _).books le_rfl
  | succ fuel ih =>
    refine wp_ite (fun hlt => ?_) fun _ => hok _ d s (Moves.refl s _).books le_rfl
    have hva : a < KERNBASE := Nat.lt_of_lt_of_le hlt hsz
    have hnext : (a + PGSIZE) % PGSIZE = 0 := by rw [Nat.add_mod_right, ha]
    rw [wp_bind]
    refine kalloc_wp (fun _ => ?_) fun mem s₁ hm₁ _ => ?_
    · rw [wp_bind]
      exact deallocuvm_wp hE hsz fun _ d' s' hm _ => hok _ d' s' hm.books (Nat.zero_le _)
    · rw [wp_bind, wp_modify, wp_bind]
      refine mappages_user_wp hE hva ha ?_ ?_
      · intro s₂ hf hs _
        refine ih hnext fun r d' s' hb hr => hok r d' s' ?_ hr
        refine Books.trans (books_of_loss (m := mem) (fun p => ?_) hs) hb
        have h1 := hm₁.count p
        rw [hf]
        dsimp only at h1 ⊢
        omega
      · intro d₂ s₂ hm₂ _
        refine ih hnext fun r d' s' hb hr => hok r d' s' ?_ hr
        have hm : Moves s (owned d) s₂ (owned d₂) := by
          refine ⟨fun p => ?_, hm₂.short.trans hm₁.short⟩
          have h1 := hm₁.count p
          have h2 := hm₂.count p
          dsimp only at h1 h2
          omega
        exact hm.books.trans hb

omit hE in
theorem pgRoundUp_aligned (sz : Nat) : pgRoundUp sz % PGSIZE = 0 := Nat.mul_mod_left _ _

theorem allocuvm_wp {P : Nat × PageDir → Kmem → Prop}
    (hok : ∀ r d' s', Books s (owned d) s' (owned d') → (oldsz ≤ KERNBASE → r ≤ KERNBASE) →
      P (r, d') s') : wp (allocuvm K d oldsz newsz) P E s := by
  unfold allocuvm
  refine wp_ite (fun _ => hok _ d s (Moves.refl s _).books fun _ => Nat.zero_le _) fun hlt => ?_
  refine wp_ite (fun _ => hok _ d s (Moves.refl s _).books id) fun _ => ?_
  have hle : newsz ≤ KERNBASE := Nat.le_of_not_le hlt
  refine allocLoop_wp hE hle (pgRoundUp_aligned oldsz) fun r d' s' hb hr => ?_
  exact hok r d' s' hb fun _ => hr.trans hle

/-! ### `freevm` -/

/-- The walk of `deallocuvm` from 0 leaves nothing behind it: where a page table is missing it
    is at the start of that table's range. -/
structure Swept (d : PageDir) (a : Nat) : Prop where
  empty : ∀ va < a, va < KERNBASE → d.getPte va = none
  aligned : a % PGSIZE = 0
  start : a % (PGSIZE * NPTENTRIES) = 0 ∨ (d.tables (PDX a)).isSome = true

omit hE in
theorem Swept.skip (h : Swept d a) (ht : (d.tables (PDX a)).isSome = false) :
    Swept d (a + (NPTENTRIES - 1) * PGSIZE + PGSIZE) := by
  have hstart : a % (PGSIZE * NPTENTRIES) = 0 := by
    refine h.start.resolve_right fun hs => ?_
    rw [ht] at hs
    exact Bool.noConfusion hs
  have hstep : a + (NPTENTRIES - 1) * PGSIZE + PGSIZE = a + PGSIZE * NPTENTRIES := by
    unfold NPTENTRIES PGSIZE
    omega
  rw [hstep]
  refine ⟨fun va hva huser => ?_, ?_, Or.inl ?_⟩
  · by_cases hlt : va < a
    · exact h.empty va hlt huser
    · have hpdx : PDX va = PDX a := by
        unfold PDX
        unfold PGSIZE NPTENTRIES at *
        omega
      have hnone : d.tables (PDX va) = none := by
        rw [hpdx]
        simpa using ht
      unfold getPte
      rw [hnone]
  · have := h.aligned
    unfold PGSIZE NPTENTRIES at *
    omega
  · rw [Nat.add_mod_right, hstart]

omit hE in
/-- The page at `a` is empty in `d'`, which agrees with `d` elsewhere. -/
theorem Swept.next (h : Swept d a) (htables : ∀ i, (d'.tables i).isSome = (d.tables i).isSome)
    (ht : (d.tables (PDX a)).isSome = true) (hself : d'.getPte a = none)
    (hother : ∀ va, va / PGSIZE ≠ a / PGSIZE → d'.getPte va = d.getPte va) :
    Swept d' (a + PGSIZE) := by
  have haligned := h.aligned
  refine ⟨fun va hva huser => ?_, by rw [Nat.add_mod_right, haligned], ?_⟩
  · by_cases hlt : va < a
    · rw [hother va (by unfold PGSIZE at *; omega)]
      exact h.empty va hlt huser
    · have hpage : va / PGSIZE = a / PGSIZE := by
        unfold PGSIZE at *
        omega
      rw [getPte_of_page hpage]
      exact hself
  · by_cases hedge : (a + PGSIZE) % (PGSIZE * NPTENTRIES) = 0
    · exact Or.inl hedge
    · right
      have hpdx : PDX (a + PGSIZE) = PDX a := by
        unfold PDX
        unfold PGSIZE NPTENTRIES at *
        omega
      rw [hpdx, htables]
      exact ht

theorem deallocLoop_swept_wp {P : PageDir → Kmem → Prop} (hfuel : KERNBASE ≤ a + fuel * PGSIZE)
    (h : Swept d a) (hok : ∀ d' s', Moves s (owned d) s' (owned d') →
      (∀ va < KERNBASE, d'.getPte va = none) → d'.page = d.page → P d' s') :
    wp (deallocLoop K fuel d a KERNBASE) P E s := by
  induction fuel generalizing s d a with
  | zero =>
    refine hok d s (.refl s _) (fun va hva => h.empty va ?_ hva) rfl
    omega
  | succ fuel ih =>
    refine wp_ite (fun ha => ?_) fun hge => ?_
    · have hfuel' : KERNBASE ≤ a + PGSIZE + fuel * PGSIZE := by
        rw [Nat.succ_mul] at hfuel
        omega
      rw [wp_bind]
      refine walkpgdir_find_wp (fun ht => ?_) fun ht => ?_
      · exact ih (by unfold NPTENTRIES; omega) (h.skip ht) hok
      · dsimp only
        cases hget : d.getPte a with
        | none => exact ih hfuel' (h.next (fun _ => rfl) ht hget fun _ _ => rfl) hok
        | some e =>
          refine wp_ite (fun _ => hE _ _) fun _ => ?_
          rw [wp_bind]
          refine kfree_wp hE fun s' hm _ => ?_
          refine ih hfuel' (h.next isSome_tables_setPte ht
            (getPte_setPte_self ht) fun _ => getPte_setPte_of_ne) ?_
          intro d' s'' hm' hempty hpage
          refine hok d' s'' ⟨fun p => ?_, hm'.short.trans hm.short⟩ hempty (hpage.trans page_setPte)
          have hset := owned_setPte_user (e := none) (p := p) ha ht
          rw [hget] at hset
          have h0 : ownedPte none p = 0 := rfl
          have h1 : ownedPte (some e) p = one e.pa p := rfl
          have h2 := hm.count p
          have h3 := hm'.count p
          omega
    · exact hok d s (.refl s _) (fun va hva => h.empty va (by omega) hva) rfl

/-- The pages of the page tables with the given numbers. -/
def tablePages (d : PageDir) (is : List Nat) (p : Nat) : Nat :=
  (is.map fun i => ownedTable p i ((d.tables i).map fun t => ⟨t.page, fun _ => none⟩)).sum

omit hE in
theorem tablePages_range (n p : Nat) : tablePages d (List.range n) p = ∑ i ∈ Finset.range n,
      ownedTable p i ((d.tables i).map fun t => ⟨t.page, fun _ => none⟩) := by
  induction n with
  | zero => rfl
  | succ n ih =>
    rw [sum_range_succ, ← ih, List.range_succ]
    unfold tablePages
    rw [List.map_append, List.sum_append, List.map_singleton, List.sum_singleton]

theorem freeTables_wp {P : Unit → Kmem → Prop} {is : List Nat}
    (hok : ∀ s', Moves s (tablePages d is) s' (fun _ => 0) → P () s') :
    wp (freeTables K d is) P E s := by
  induction is generalizing s with
  | nil => exact hok s (.refl s _)
  | cons i is ih =>
    unfold freeTables
    cases ht : d.tables i with
    | none =>
      refine ih fun s' hm => hok s' ⟨fun p => ?_, hm.short⟩
      rw [← hm.count p]
      simp only [tablePages, List.map_cons, List.sum_cons, ht, Option.map_none, ownedTable]
      omega
    | some t =>
      rw [wp_bind]
      refine kfree_wp hE fun s₁ hm₁ _ => ih fun s' hm => hok s' ⟨fun p => ?_, ?_⟩
      · have h1 := hm₁.count p
        have h2 := hm.count p
        simp only [tablePages, List.map_cons, List.sum_cons, ht, Option.map_some,
          ownedTable_new] at h2 ⊢
        omega
      · exact hm.short.trans hm₁.short

omit hE in
/-- The address of an entry of a page table of the user part. -/
theorem getPte_entry (ht : d.tables i = some t) (hi : i < USERPDES)
    (hj : j < NPTENTRIES) : (i * NPTENTRIES + j) * PGSIZE < KERNBASE ∧
      d.getPte ((i * NPTENTRIES + j) * PGSIZE) = t.ptes j := by
  have hpdx : PDX ((i * NPTENTRIES + j) * PGSIZE) = i := by
    unfold PDX
    unfold PGSIZE NPTENTRIES at *
    omega
  have hptx : PTX ((i * NPTENTRIES + j) * PGSIZE) = j := by
    unfold PTX
    unfold PGSIZE NPTENTRIES at *
    omega
  constructor
  · unfold USERPDES at hi
    unfold KERNBASE PGSIZE NPTENTRIES at *
    omega
  · unfold getPte
    rw [hpdx, ht, hptx]

omit hE in
theorem ptes_of_empty (h : ∀ va < KERNBASE, d.getPte va = none)
    (ht : d.tables i = some t) (hi : i < USERPDES) (hj : j < NPTENTRIES) : t.ptes j = none := by
  obtain ⟨hva, hget⟩ := getPte_entry ht hi hj
  rw [← hget]
  exact h _ hva

omit hE in
/-- A directory whose user part is empty has its page and its page tables only. -/
theorem owned_of_empty (h : ∀ va < KERNBASE, d.getPte va = none) (p : Nat) :
    owned d p = one d.page p + tablePages d (List.range NPDENTRIES) p := by
  rw [tablePages_range, owned_eq]
  refine congrArg (one d.page p + ·) (sum_congr rfl fun i _ => ?_)
  cases ht : d.tables i with
  | none => rfl
  | some t =>
    rw [Option.map_some, ownedTable_new]
    by_cases hi : i < USERPDES
    · rw [ownedTable_user hi]
      refine Nat.add_eq_left.mpr (sum_eq_zero fun j hj => ?_)
      have hj : j < NPTENTRIES := mem_range.mp hj
      rw [ptes_of_empty h ht hi hj]
      rfl
    · exact ownedTable_kernel hi t

theorem freevm_wp {P : Unit → Kmem → Prop}
    (hok : ∀ s', Moves s (owned d) s' (fun _ => 0) → P () s') : wp (freevm K d) P E s := by
  have hstart : Swept d 0 := ⟨fun va hva => absurd hva (Nat.not_lt_zero va), rfl, Or.inl rfl⟩
  have hzero : pgRoundUp 0 = 0 := by decide
  have hfuel : KERNBASE ≤ 0 + ADDRESSES / PGSIZE * PGSIZE := by
    unfold KERNBASE ADDRESSES PGSIZE
    omega
  unfold freevm deallocuvm
  rw [wp_bind, if_neg (by decide), wp_bind, hzero]
  refine deallocLoop_swept_wp hE hfuel hstart fun d' s₁ hm₁ hempty hpage => ?_
  rw [wp_pure]
  have howned := owned_of_empty hempty
  -- the list of all 1024 indices is not to be computed
  generalize List.range NPDENTRIES = is at howned ⊢
  rw [wp_bind]
  refine freeTables_wp hE fun s₂ hm₂ => ?_
  refine kfree_wp hE fun s₃ hm₃ _ => hok s₃ ⟨fun p => ?_, ?_⟩
  · have h1 := hm₁.count p
    have h2 := hm₂.count p
    have h3 := hm₃.count p
    rw [howned] at h1
    omega
  · exact hm₃.short.trans (hm₂.short.trans hm₁.short)

/-! ### `copyuvm` and `fork` -/

theorem copyPages_wp {sz : Nat} (hsz : sz ≤ KERNBASE) (hi : i % PGSIZE = 0)
    (hfail : ∀ s', Books s (owned d) s' (fun _ => 0) → P none s')
    (hok : ∀ d' s', Moves s (owned d) s' (owned d') → P (some d') s') :
    wp (copyPages K src sz fuel d i) P E s := by
  induction fuel generalizing s d i with
  | zero => exact hok d s (.refl s _)
  | succ fuel ih =>
    refine wp_ite (fun hlt => ?_) fun _ => hok d s (.refl s _)
    have hva : i < KERNBASE := Nat.lt_of_lt_of_le hlt hsz
    rw [wp_bind]
    refine walkpgdir_find_wp (fun _ => hE _ _) fun _ => ?_
    dsimp only
    cases src.getPte i with
    | none => exact hE _ _
    | some e =>
      rw [wp_bind]
      refine kalloc_wp (fun _ => ?_) fun mem s₁ hm₁ _ => ?_
      · rw [wp_bind]
        exact freevm_wp hE fun s' hm => hfail s' hm.books
      · rw [wp_bind]
        refine mappages_user_wp hE hva hi ?_ ?_
        · intro s₂ hf hs _
          rw [wp_bind]
          refine freevm_wp hE fun s' hm => hfail s' ?_
          refine Books.trans (books_of_loss (m := mem) (fun p => ?_) hs) hm.books
          have h1 := hm₁.count p
          rw [hf]
          omega
        · intro d₂ s₂ hm₂ _
          have hm : Moves s (owned d) s₂ (owned d₂) := by
            refine ⟨fun p => ?_, hm₂.short.trans hm₁.short⟩
            have h1 := hm₁.count p
            have h2 := hm₂.count p
            omega
          refine ih (by rw [Nat.add_mod_right, hi]) ?_ fun d' s' hm' => hok d' s' (hm.trans hm')
          exact fun s' hb => hfail s' (hm.books.trans hb)

theorem copyuvm_wp (hsz : sz ≤ KERNBASE)
    (hfail : ∀ s', Books s (fun _ => 0) s' (fun _ => 0) → P none s')
    (hok : ∀ d s', Moves s (fun _ => 0) s' (owned d) → P (some d) s') :
    wp (copyuvm K src sz) P E s := by
  unfold copyuvm
  rw [wp_bind]
  refine setupkvm_wp hE hfail fun d s₁ hm₁ => ?_
  refine copyPages_wp hE hsz (Nat.zero_mod _) ?_ fun d' s' hm => hok d' s' (hm₁.trans hm)
  exact fun s' hb => hfail s' (hm₁.books.trans hb)

end

end Xv6Kernel
