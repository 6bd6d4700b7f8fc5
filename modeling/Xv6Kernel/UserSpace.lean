/-
  UserSpace.lean
  ==============
  `allocuvm` and `growproc`.

  The pages of a directory and those on the free list are all different (`Sound`), and every
  function moves pages between the two.  So the frames that `allocuvm` takes are new to the
  directory and different from each other, and what a failed call has taken is back on the free
  list or has become a page table.

  There is one exception.  `allocuvm` does not look at the result of `mappages`, and when there is
  no page for a page table, the frame that was to be mapped is lost: if `allocuvm` goes on to
  return the new size, one page of it is not there.
-/
import Xv6Kernel.PhysMemory

namespace Xv6Kernel

open PanicMonad Function List PageDir

/-! ### Pages in one place -/

/-- The pages of the directory and the free pages are all different, and they are pages that
    `kfree` accepts. -/
structure Sound (K : KernelImage) (d : PageDir) (s : Kmem) : Prop where
  excl : ∀ p, s.free.count p + owned d p ≤ 1
  free : GoodFree K s
  dir : GoodDir K d

variable {p : Nat}

section

variable {K : KernelImage} {d : PageDir} {s : Kmem}

variable {e : Pte} {x : Nat}

theorem owned_setPte_none (hx : x < KERNBASE) (hget : d.getPte x = some e) :
    owned (d.setPte x none) e.pa + 1 = owned d e.pa := by
  have hset := owned_setPte_user (e := none) (p := e.pa) hx (tables_of_getPte (by rw [hget]; rfl))
  rw [hget] at hset
  have hone : ownedPte (some e) e.pa = 1 := if_pos rfl
  have hzero : ownedPte none e.pa = 0 := rfl
  omega

/-- Two pages of a directory that have one frame count twice. -/
theorem two_le_owned (hx : x < KERNBASE) (hy : y < KERNBASE)
    (hne : y / PGSIZE ≠ x / PGSIZE) (hgetx : d.getPte x = some e) (hgety : d.getPte y = some e')
    (hpa : e'.pa = e.pa) : 2 ≤ owned d e.pa := by
  have hother : (d.setPte x none).getPte y = some e' := (getPte_setPte_of_ne hne).trans hgety
  have hpos := owned_frame_pos hy hother
  have hone := owned_setPte_none hx hgetx
  rw [hpa] at hpos
  omega

section

variable (h : Sound K d s)

include h

theorem Sound.frame_inj (hx : x < KERNBASE)
    (hy : y < KERNBASE) (hgetx : d.getPte x = some e) (hgety : d.getPte y = some e')
    (hpa : e'.pa = e.pa) : y / PGSIZE = x / PGSIZE := by
  by_contra hne
  have htwo := two_le_owned hx hy hne hgetx hgety hpa
  have hexcl := h.excl e.pa
  omega

theorem Sound.not_owned (hp : p ∈ s.free) : owned d p = 0 := by
  have hcount := count_pos_iff.mpr hp
  have hexcl := h.excl p
  omega

theorem Sound.frame_notMem (hx : x < KERNBASE) (hget : d.getPte x = some e) : e.pa ∉ s.free := by
  intro hmem
  have hpos := owned_frame_pos hx hget
  rw [h.not_owned hmem] at hpos
  exact absurd hpos (Nat.lt_irrefl 0)

/-- A page that is not mapped can be unmapped, as far as its frame is concerned. -/
theorem Sound.frame_valid (hx : x < KERNBASE) (hget : d.getPte x = some e) :
    ValidPage K e.pa := h.dir e.pa (owned_frame_pos hx hget)

/-- Moves between the free list and the directory keep the pages different. -/
theorem Sound.moves
    (hm : ∀ p, s.free.count p + owned d p = s'.free.count p + owned d' p) : Sound K d' s' := by
  have hvalid : ∀ p, 0 < s'.free.count p + owned d' p → ValidPage K p := by
    intro p hp
    rw [← hm p] at hp
    rcases Nat.eq_zero_or_pos (owned d p) with hzero | hpos
    · exact h.free p (count_pos_iff.mp (by omega))
    · exact h.dir p hpos
  refine ⟨fun p => ?_, fun p hp => hvalid p ?_, fun p hp => hvalid p (by omega)⟩
  · rw [← hm p]
    exact h.excl p
  · have hcount := count_pos_iff.mpr hp
    omega

end

/-- A page of a directory is its own page, one of its page tables, or a frame of user memory. -/
theorem owned_pos_cases (h : 0 < owned d p) :
    d.page = p ∨ (∃ i < NPDENTRIES, ∃ t, d.tables i = some t ∧ t.page = p) ∨
      ∃ x e, x < KERNBASE ∧ d.getPte x = some e ∧ e.pa = p := by
  rw [owned_eq] at h
  by_cases hpage : d.page = p
  · exact Or.inl hpage
  · have hzero : one d.page p = 0 := if_neg hpage
    rw [hzero, Nat.zero_add] at h
    obtain ⟨i, hi, hpos⟩ := (Finset.sum_pos_iff).mp h
    refine Or.inr ?_
    cases ht : d.tables i with
    | none =>
      rw [ht] at hpos
      exact absurd hpos (Nat.lt_irrefl 0)
    | some t =>
      rw [ht] at hpos
      by_cases htable : t.page = p
      · exact Or.inl ⟨i, Finset.mem_range.mp hi, t, ht, htable⟩
      · have hno : one t.page p = 0 := if_neg htable
        by_cases huser : i < USERPDES
        · rw [ownedTable_user huser, hno, Nat.zero_add] at hpos
          obtain ⟨j, hj, hpte⟩ := (Finset.sum_pos_iff).mp hpos
          obtain ⟨hva, hget⟩ := getPte_entry ht huser (Finset.mem_range.mp hj)
          cases hpte' : t.ptes j with
          | none =>
            rw [hpte'] at hpte
            exact absurd hpte (Nat.lt_irrefl 0)
          | some e =>
            refine Or.inr ⟨_, e, hva, hget.trans hpte', ?_⟩
            by_contra hne
            rw [hpte'] at hpte
            have hnone : ownedPte (some e) p = 0 := if_neg hne
            omega
        · rw [ownedTable_kernel huser, hno] at hpos
          exact absurd hpos (Nat.lt_irrefl 0)

/-! ### One page more -/

/-- The page of `a` has been given the entry `e`, in a page table that may be new. -/
structure Mapped (d : PageDir) (s : Kmem) (a : Nat) (e : Pte) (d' : PageDir) (s' : Kmem) :
    Prop where
  page : d'.page = d.page
  moves : Moves s (fun p => owned d p + one e.pa p) s' (owned d')
  self : d'.getPte a = some e
  others : ∀ x, x / PGSIZE ≠ a / PGSIZE → d'.getPte x = d.getPte x
  tables : ∀ i, i ≠ PDX a → (d'.tables i).isSome = (d.tables i).isSome
  suffix : s'.free <:+ s.free
  user : s'.user = s.user

theorem Mapped.set (ha : a < KERNBASE) (ht : (d.tables (PDX a)).isSome = true)
    (hnone : d.getPte a = none) : Mapped d s a e (d.setPte a (some e)) s := by
  refine ⟨page_setPte, ⟨fun p => ?_, rfl⟩, getPte_setPte_self ht,
    fun x hx => getPte_setPte_of_ne hx, fun i _ => isSome_tables_setPte i,
    suffix_rfl, rfl⟩
  · have hset := owned_setPte_user (e := some e) (p := p) ha ht
    rw [hnone] at hset
    have hone : ownedPte (some e) p = one e.pa p := rfl
    have hzero : ownedPte none p = 0 := rfl
    omega

/-- The same, with a new page table. -/
theorem Mapped.ofTable {page : Nat} (ha : a < KERNBASE) (ht : (d.tables (PDX a)).isSome = false)
    (hfree : s.free = page :: ps) (h : Mapped (d.addTable a page) { s with free := ps } a e d' s') :
    Mapped d s a e d' s' := by
  refine ⟨h.page, ⟨fun p => ?_, h.moves.short⟩, h.self, fun x hx => ?_,
    fun i hi => (h.tables i hi).trans ?_, ?_, h.user⟩
  · have hcount := h.moves.count p
    rw [owned_addTable (lt_addresses ha) ht] at hcount
    rw [hfree, count_cons_one]
    dsimp only at hcount
    omega
  · exact (h.others x hx).trans (getPte_addTable ht x)
  · exact congrArg Option.isSome (update_of_ne hi _ _)
  · rw [hfree]
    exact h.suffix.trans (suffix_cons page ps)

theorem mapPage_wp {E : VmPanic → Kmem → Prop} (ha : a < KERNBASE) (halign : a % PGSIZE = 0)
    (hnone : d.getPte a = none) (hfail : (d.tables (PDX a)).isSome = false → s.free = [] →
      P (false, d) { s with short := true })
    (hok : ∀ d' s', Mapped d s a ⟨pa, w, u⟩ d' s' → P (true, d') s') :
    wp (mappages d a PGSIZE pa w u) P E s := by
  rw [mappages_page ha halign]
  unfold mapLoop walkpgdir
  rw [wp_bind]
  refine wp_ite (fun ht => ?_) fun hn => ?_
  · have hno : ¬ (d.getPte a).isSome = true := by simp [hnone]
    exact wp_ite (fun hsome => absurd hsome hno) fun _ => hok _ _ (.set ha ht hnone)
  · have ht : (d.tables (PDX a)).isSome = false := by simpa using hn
    rw [if_pos rfl, wp_bind]
    refine kalloc_pop_wp (fun hempty => hfail ht hempty) fun page ps hfree => ?_
    have hnone' : (d.addTable a page).getPte a = none := (getPte_addTable ht a).trans hnone
    have hno : ¬ ((d.addTable a page).getPte a).isSome = true := by simp [hnone']
    refine wp_ite (fun hsome => absurd hsome hno) fun _ => hok _ _ ?_
    exact .ofTable ha ht hfree (.set ha (isSome_tables_addTable _ (Or.inr rfl)) hnone')

/-- With enough memory the page is mapped. -/
theorem mapPage_spare_wp (ha : a < KERNBASE)
    (halign : a % PGSIZE = 0) (hT : PDX a ∈ T) (hnone : d.getPte a = none) (h : Spare T n d s)
    (hok : ∀ d' s', Mapped d s a ⟨pa, w, u⟩ d' s' → Spare T n d' s' → P (true, d') s') :
    wp (mappages d a PGSIZE pa w u) P E s := by
  have hspare : wp (mappages d a PGSIZE pa w u) (fun r s' => r.1 = true ∧ Spare T n r.2 s')
      (fun _ _ => True) s := by
    rw [mappages_page ha halign]
    refine mapLoop_spare_wp (fun _ _ => trivial) ?_ (fun i hi => ?_) h fun d' s' h' => ⟨rfl, h'⟩
    · rw [Nat.zero_mul]
      exact lt_addresses ha
    · rw [Nat.le_zero.mp hi, Nat.zero_mul]
      exact hT
  have hmapped : wp (mappages d a PGSIZE pa w u)
      (fun r s' => r.1 = true → Mapped d s a ⟨pa, w, u⟩ r.2 s') (fun _ _ => False) s :=
    mapPage_wp ha halign hnone (fun _ _ hno => absurd hno Bool.false_ne_true) fun _ _ hm _ => hm
  refine wp_mono (wp_and hspare hmapped) ?_ fun _ _ hf => hf.2.elim
  rintro ⟨r, d'⟩ s' ⟨⟨hr, h'⟩, hm⟩
  dsimp only at hr h' hm
  rw [hr]
  exact hok d' s' (hm hr) h'

end

/-! ### The allocator under contention -/

namespace Ram

section

variable {E : VmPanic → Ram → Prop}

theorem contended_wp {α : Type} {x : VmM α} {P : α → Ram → Prop}
    (hstarved : s.refusals.head? = some true → wp x
      (fun a k => P a { s with toKmem := { k with free := k.free ++ s.free },
                               refusals := s.refusals.tail })
      (fun e k => E e { s with toKmem := { k with free := k.free ++ s.free },
                               refusals := s.refusals.tail })
      { s.toKmem with free := [] })
    (hfree : wp x (fun a k => P a { s with toKmem := k, refusals := s.refusals.tail })
      (fun e k => E e { s with toKmem := k, refusals := s.refusals.tail }) s.toKmem) :
    wp (contended x) P E s := by
  unfold contended starved lift
  rw [wp_bind, wp_get, wp_bind, wp_set]
  refine wp_ite (fun h => ?_) fun _ => ?_
  · rw [wp_zoom]
    exact hstarved h
  · rw [wp_zoom]
    exact hfree

/-- The free list is empty, or other processors have it. -/
def Short (s : Ram) : Prop := s.refusals = [] → s.free = []

theorem short_of_head (h : s.refusals.head? = some true) : Short s := by
  intro hnil
  rw [hnil] at h
  cases h

theorem kalloc_contended_wp {P : Option Nat → Ram → Prop}
    (hnone : Short s → P none { s with refusals := s.refusals.tail })
    (hsome : ∀ p ps, s.free = p :: ps →
      P (some p) { s with free := ps, refusals := s.refusals.tail }) :
    wp (contended kalloc) P E s := by
  refine contended_wp (fun h => ?_) ?_
  · exact kalloc_pop_wp (fun _ => hnone (short_of_head h)) fun p ps hp => nomatch hp
  · exact kalloc_pop_wp (fun h => hnone fun _ => h) hsome

theorem mapPage_contended_wp {P : Bool × PageDir → Ram → Prop} {a : Nat} (ha : a < KERNBASE)
    (halign : a % PGSIZE = 0) (hnone : d.getPte a = none)
    (hfail : (d.tables (PDX a)).isSome = false → Short s →
      P (false, d) { s with short := true, refusals := s.refusals.tail })
    (hok : ∀ d' k, Mapped d s.toKmem a ⟨pa, w, u⟩ d' k →
      P (true, d') { s with toKmem := k, refusals := s.refusals.tail }) :
    wp (contended (mappages d a PGSIZE pa w u)) P E s := by
  refine contended_wp (fun h => ?_) ?_
  · refine mapPage_wp ha halign hnone (fun ht _ => hfail ht (short_of_head h)) fun d' k hk => ?_
    have hnil : k.free = [] := suffix_nil.mp hk.suffix
    refine hok d' _ ⟨hk.page, ⟨fun p => ?_, hk.moves.short⟩, hk.self, hk.others, hk.tables, ?_,
      hk.user⟩
    · have hcount := hk.moves.count p
      rw [hnil] at hcount ⊢
      simp only [count_nil, nil_append] at hcount ⊢
      omega
    · rw [hnil]
      exact suffix_rfl
  · exact mapPage_wp ha halign hnone (fun ht hempty => hfail ht fun _ => hempty) hok

/-! ### Freed pages -/

/-- The free list has become longer, and the pages that are not on it have kept their contents. -/
structure Kept (s s' : Ram) : Prop where
  free : ∀ p ∈ s.free, p ∈ s'.free
  bytes : ∀ p, p ∉ s'.free → s'.bytes p = s.bytes p

theorem Kept.refl (s : Ram) : Kept s s := ⟨fun _ h => h, fun _ _ => rfl⟩

theorem Kept.trans (h : Kept s s') (h' : Kept s' s'') : Kept s s'' :=
  ⟨fun p hp => h'.free p (h.free p hp),
    fun p hp => (h'.bytes p hp).trans (h.bytes p fun hmem => hp (h'.free p hmem))⟩

section

variable (hE : ∀ e t, E e t)
include hE

theorem kfree_kept_wp {P : Unit → Ram → Prop} (hok : ∀ s', Kept s s' → P () s') :
    wp (kfree K pa) P E s := by
  unfold kfree lift Xv6Kernel.kfree
  rw [wp_bind, wp_zoom]
  refine wp_ite (fun _ => hE _ _) fun _ => hok _ ⟨fun p hp => mem_cons_of_mem _ hp, ?_⟩
  intro p hp
  have hne : p ≠ pa := fun heq => hp (by rw [heq]; exact mem_cons_self)
  exact update_of_ne hne _ _

theorem deallocLoop_kept_wp {P : PageDir → Ram → Prop} {fuel a oldsz : Nat}
    (hok : ∀ d' s', Kept s s' → P d' s') : wp (deallocLoop K fuel d a oldsz) P E s := by
  induction fuel generalizing s d a with
  | zero => exact hok d s (.refl s)
  | succ fuel ih =>
    refine wp_ite (fun _ => ?_) fun _ => hok d s (.refl s)
    unfold lift
    rw [wp_bind, wp_zoom]
    refine walkpgdir_find_wp (fun _ => ih hok) fun _ => ?_
    dsimp only
    cases d.getPte a with
    | none => exact ih hok
    | some e =>
      refine wp_ite (fun _ => hE _ _) fun _ => ?_
      rw [wp_bind]
      refine kfree_kept_wp hE fun s' h => ih fun d' s'' h' => hok d' s'' (h.trans h')

theorem deallocuvm_kept_wp {oldsz newsz : Nat} (hok : ∀ r s', Kept s s' → P r s') :
    wp (deallocuvm K d oldsz newsz) P E s := by
  unfold deallocuvm
  refine wp_ite (fun _ => hok _ s (.refl s)) fun _ => ?_
  rw [wp_bind]
  exact deallocLoop_kept_wp hE fun d' s' h => hok _ s' h

end

/-- Everything that `deallocuvm` does. -/
structure Freed (d : PageDir) (s : Ram) (oldsz newsz : Nat) (d' : PageDir) (s' : Ram) : Prop where
  dealloc : Dealloc d s.toKmem (pgRoundUp newsz) oldsz d' s'.toKmem
  moves : Moves s.toKmem (owned d) s'.toKmem (owned d')
  kept : Kept s s'
  refusals : s'.refusals = s.refusals

theorem deallocuvm_freed_wp (hlt : newsz < oldsz) (hle : oldsz ≤ KERNBASE)
    (hgood : ¬ BadFrame K d (pgRoundUp newsz) oldsz) :
    wp (deallocuvm K d oldsz newsz) (fun r s' => r.1 = newsz ∧ Freed d s oldsz newsz r.2 s')
      (fun _ _ => False) s := by
  have hfollow := deallocuvm_refines K (q := s.refusals) d oldsz newsz
  have hrange := hfollow.wp_view rfl (deallocuvm_range_wp (s := s.toKmem) hlt hle)
  have hmoves := hfollow.wp_view rfl (deallocuvm_wp (s := s.toKmem) (E := fun _ _ => True)
    (P := fun r s' => Moves s.toKmem (owned d) s' (owned r.2)) (fun _ _ => trivial) hle
    fun r d' s' hm _ => hm)
  have hkept : wp (deallocuvm K d oldsz newsz) (fun _ s' => Kept s s') (fun _ _ => True) s :=
    deallocuvm_kept_wp (fun _ _ => trivial) fun _ _ h => h
  refine wp_mono (wp_and hrange (wp_and hmoves hkept)) ?_ fun e t h => hgood h.1.2
  rintro r s' ⟨⟨⟨hr, hd⟩, hq⟩, ⟨hm, _⟩, hk⟩
  exact ⟨hr, hd, hm, hk, hq⟩

end

/-! ### `allocuvm` -/

/-- `allocuvm` at the page `a`, with the frames that it could not map. -/
structure Growing (d₀ : PageDir) (s₀ : Ram) (base a : Nat) (lost : List Nat) (d : PageDir)
    (s : Ram) : Prop where
  page : d.page = d₀.page
  count : ∀ p, s₀.free.count p + owned d₀ p = s.free.count p + owned d p + lost.count p
  short : s.short = true ↔ lost ≠ []
  outside : ∀ x, x % PGSIZE = 0 → (x < base ∨ a ≤ x) → d.getPte x = d₀.getPte x
  inside : ∀ x, x % PGSIZE = 0 → base ≤ x → x < a →
    (d.getPte x = none ∧ lost ≠ []) ∨
      ∃ f ∈ s₀.free, d.getPte x = some ⟨f, true, true⟩ ∧ ∀ o, s.bytes f o = 0
  missing : lost ≠ [] → ∃ x, x % PGSIZE = 0 ∧ base ≤ x ∧ x < a ∧ d.getPte x = none
  tables : ∀ i, (d.tables i).isSome = true →
    (d₀.tables i).isSome = true ∨ ∃ x, base ≤ x ∧ x < a ∧ PDX x = i
  bytes : ∀ p, p ∉ s₀.free → s.bytes p = s₀.bytes p
  free : ∀ p ∈ s.free, p ∈ s₀.free
  wasFree : ∀ p ∈ lost, p ∈ s₀.free
  -- without other processors, no page is left when one has been refused
  tight : s₀.refusals = [] → s.refusals = [] ∧ (lost ≠ [] → s.free = [] ∧
    ∀ x, x % PGSIZE = 0 → base ≤ x → x + PGSIZE < a → (d.getPte x).isSome = true)

section

variable {d₀ d d' : PageDir} {s₀ s s' : Ram} {base a : Nat} {lost : List Nat}

theorem Growing.start (hshort : s₀.short = false) : Growing d₀ s₀ base base [] d₀ s₀ := by
  refine ⟨rfl, fun p => rfl, ?_, fun _ _ _ => rfl, fun x _ hle hlt => absurd hlt (by omega),
    fun h => absurd rfl h, fun _ h => Or.inl h, fun _ _ => rfl, fun _ h => h,
    fun _ h => absurd h not_mem_nil, fun hq => ⟨hq, fun h => absurd rfl h⟩⟩
  rw [hshort]
  simp

section

variable (h : Growing d₀ s₀ base a lost d s)

include h

/-- The page `a` has been mapped to a new frame. -/
theorem Growing.map (ha : a % PGSIZE = 0) (hbase : base ≤ a) (hfree : s.free = mem :: ps)
    (hm : Mapped d { s.toKmem with free := ps, user := mem :: s.user } a ⟨mem, true, true⟩ d'
      s'.toKmem) (hbytes : s'.bytes = update s.bytes mem fun _ => 0)
    (hrefusals : s.refusals = [] → s'.refusals = []) :
    Growing d₀ s₀ base (a + PGSIZE) lost d' s' := by
  have hpos := page_pos
  have hmem : mem ∈ s₀.free := h.free mem (by rw [hfree]; exact mem_cons_self)
  have hother : ∀ x, x % PGSIZE = 0 → x ≠ a → d'.getPte x = d.getPte x :=
    fun x hx hne => hm.others x (page_ne hx ha hne)
  refine ⟨hm.page.trans h.page, fun p => ?_, ?_, fun x hx hor => ?_, fun x hx hle hlt => ?_,
    fun hlost => ?_, fun i hi => ?_, fun p hp => ?_, fun p hp => ?_, h.wasFree, fun hq => ?_⟩
  · have hcount := hm.moves.count p
    have hcount' := h.count p
    rw [hfree, count_cons_one] at hcount'
    dsimp only at hcount
    omega
  · rw [hm.moves.short]
    exact h.short
  · rw [hother x hx (by omega)]
    exact h.outside x hx (by omega)
  · by_cases heq : x = a
    · refine Or.inr ⟨mem, hmem, ?_, fun o => ?_⟩
      · rw [heq]
        exact hm.self
      · rw [hbytes, update_self]
    · have hlt' : x < a := by
        by_contra hge
        have hnext := next_page_le ha hx (by omega)
        omega
      rcases h.inside x hx hle hlt' with hnone | ⟨f, hf, hget, hzero⟩
      · refine Or.inl ⟨?_, hnone.2⟩
        rw [hother x hx heq]
        exact hnone.1
      · refine Or.inr ⟨f, hf, ?_, fun o => ?_⟩
        · rw [hother x hx heq]
          exact hget
        · rw [hbytes]
          by_cases hfm : f = mem
          · rw [hfm, update_self]
          · rw [update_of_ne hfm]
            exact hzero o
  · obtain ⟨x, hx, hle, hlt, hnone⟩ := h.missing hlost
    refine ⟨x, hx, hle, by omega, ?_⟩
    rw [hother x hx (by omega)]
    exact hnone
  · by_cases hself : i = PDX a
    · exact Or.inr ⟨a, hbase, by omega, hself.symm⟩
    · rw [hm.tables i hself] at hi
      rcases h.tables i hi with hold | ⟨x, hle, hlt, hx⟩
      · exact Or.inl hold
      · exact Or.inr ⟨x, hle, by omega, hx⟩
  · have hne : p ≠ mem := fun heq => hp (by rw [heq]; exact hmem)
    rw [hbytes, update_of_ne hne]
    exact h.bytes p hp
  · refine h.free p ?_
    rw [hfree]
    exact mem_cons_of_mem _ (hm.suffix.subset hp)
  · obtain ⟨hq', hlost⟩ := h.tight hq
    refine ⟨hrefusals hq', fun hne => ?_⟩
    have hnil := (hlost hne).1
    rw [hfree] at hnil
    cases hnil

/-- The page `a` has not been mapped, and its frame is lost. -/
theorem Growing.lose (ha : a % PGSIZE = 0)
    (hbase : base ≤ a) (hnone : d₀.getPte a = none) (hfree : s.free = mem :: ps)
    (hfree' : s'.free = ps) (hshort : s'.short = true)
    (hbytes : s'.bytes = update s.bytes mem fun _ => 0)
    (hrefusals : s.refusals = [] → s'.refusals = [] ∧ ps = []) :
    Growing d₀ s₀ base (a + PGSIZE) (mem :: lost) d s' := by
  have hpos := page_pos
  have hmem : mem ∈ s₀.free := h.free mem (by rw [hfree]; exact mem_cons_self)
  have hlost : mem :: lost ≠ [] := cons_ne_nil _ _
  have hself : d.getPte a = none := (h.outside a ha (by omega)).trans hnone
  have hbefore : ∀ x, x % PGSIZE = 0 → x < a + PGSIZE → x ≠ a → x < a := by
    intro x hx hlt hne
    by_contra hge
    have hnext := next_page_le ha hx (by omega)
    omega
  refine ⟨h.page, fun p => ?_, ?_, fun x hx hor => h.outside x hx (by omega),
    fun x hx hle hlt => ?_, fun _ => ⟨a, ha, hbase, by omega, hself⟩, fun i hi => ?_,
    fun p hp => ?_, fun p hp => ?_, fun p hp => ?_, fun hq => ?_⟩
  · have hcount := h.count p
    rw [hfree, count_cons_one] at hcount
    rw [hfree', count_cons_one]
    omega
  · rw [hshort]
    simp
  · by_cases heq : x = a
    · rw [heq]
      exact Or.inl ⟨hself, hlost⟩
    · rcases h.inside x hx hle (hbefore x hx hlt heq) with hgone | ⟨f, hf, hget, hzero⟩
      · exact Or.inl ⟨hgone.1, hlost⟩
      · refine Or.inr ⟨f, hf, hget, fun o => ?_⟩
        rw [hbytes]
        by_cases hfm : f = mem
        · rw [hfm, update_self]
        · rw [update_of_ne hfm]
          exact hzero o
  · rcases h.tables i hi with hold | ⟨x, hle, hlt, hx⟩
    · exact Or.inl hold
    · exact Or.inr ⟨x, hle, by omega, hx⟩
  · have hne : p ≠ mem := fun heq => hp (by rw [heq]; exact hmem)
    rw [hbytes, update_of_ne hne]
    exact h.bytes p hp
  · refine h.free p ?_
    rw [hfree]
    rw [hfree'] at hp
    exact mem_cons_of_mem _ hp
  · rcases mem_cons.mp hp with rfl | hp
    · exact hmem
    · exact h.wasFree p hp
  · obtain ⟨hq', htight⟩ := h.tight hq
    obtain ⟨hnext, hps⟩ := hrefusals hq'
    refine ⟨hnext, fun _ => ⟨hfree'.trans hps, fun x hx hle hlt => ?_⟩⟩
    rcases h.inside x hx hle (by omega) with ⟨_, hne⟩ | ⟨f, _, hget, _⟩
    · have hnil := (htight hne).1
      rw [hfree] at hnil
      cases hnil
    · rw [hget]
      rfl

/-- A failed call can be rolled back, unless other processors were involved. -/
theorem Growing.noSkip (hbase : base % PGSIZE = 0) (ha : a % PGSIZE = 0) (hle : base ≤ a)
    (hclear : ∀ x, x % PGSIZE = 0 → base ≤ x → x < b → d₀.getPte x = none)
    (hor : lost = [] ∨ s₀.refusals = []) : NoSkip d base b := by
  have hafter : ∀ x, x % PGSIZE = 0 → a ≤ x → x < b → (d.getPte x).isSome = false := by
    intro x hx hax hxb
    rw [h.outside x hx (Or.inr hax), hclear x hx (by omega) hxb]
    rfl
  by_cases heq : base = a
  · exact noSkip_of_unmapped fun x hx hbx hxb => hafter x hx (by omega) hxb
  · have hlt : base < a := by omega
    rcases h.inside base hbase le_rfl hlt with ⟨hnone, hlost⟩ | ⟨f, _, hget, _⟩
    · obtain ⟨_, htight⟩ := h.tight (hor.resolve_left hlost)
      have hmapped := (htight hlost).2
      have hone : a = base + PGSIZE := by
        have hnext := next_page_le hbase ha hlt
        by_contra hne
        have hsome := hmapped base hbase le_rfl (by omega)
        rw [hnone] at hsome
        cases hsome
      refine noSkip_of_unmapped fun x hx hbx hxb => ?_
      by_cases hxa : a ≤ x
      · exact hafter x hx hxa hxb
      · have hxeq : x = base := by
          by_contra hne
          have hnext := next_page_le hbase hx (by omega)
          omega
        rw [hxeq, hnone]
        rfl
    · exact noSkip_of_table (tables_of_getPte (by rw [hget]; rfl))

theorem Growing.noBad (hfree : GoodFree K s₀.toKmem)
    (hclear : ∀ x, x % PGSIZE = 0 → base ≤ x → x < b → d₀.getPte x = none) :
    ¬ BadFrame K d base b := by
  rintro ⟨x, e, hx, hle, hlt, hget, hbad⟩
  by_cases hxa : x < a
  · rcases h.inside x hx hle hxa with ⟨hnone, _⟩ | ⟨f, hf, hget', _⟩
    · rw [hnone] at hget
      cases hget
    · rw [hget] at hget'
      rw [Option.some.inj hget'] at hbad
      exact hbad (hfree f hf)
  · rw [h.outside x hx (by omega), hclear x hx hle hlt] at hget
    cases hget

end

/-- The loop of `allocuvm` gets to the end or to a page that it does not get. -/
theorem allocLoop_growing_wp {E : VmPanic → Ram → Prop} {fuel : Nat} (hsz : newsz < KERNBASE)
    (ha : a % PGSIZE = 0) (hbase : base ≤ a) (hfuel : newsz ≤ a + fuel * PGSIZE)
    (hclear : ∀ x, x % PGSIZE = 0 → base ≤ x → x < newsz → d₀.getPte x = none)
    (h : Growing d₀ s₀ base a lost d s)
    (hdone : ∀ a' lost' d' s', a' % PGSIZE = 0 → newsz ≤ a' → a' < newsz + PGSIZE ∨ a' = a →
      Growing d₀ s₀ base a' lost' d' s' → P (newsz, d') s')
    (hfail : ∀ a' lost' d' s', a' % PGSIZE = 0 → base ≤ a' → a' < newsz →
      Growing d₀ s₀ base a' lost' d' s' →
      wp (deallocuvm K d' newsz oldsz) (fun r => P (0, r.2)) E s') :
    wp (allocLoop K oldsz newsz fuel d a) P E s := by
  induction fuel generalizing s d a lost with
  | zero => exact hdone a lost d s ha (by omega) (Or.inr rfl) h
  | succ fuel ih =>
    rw [Nat.succ_mul] at hfuel
    refine wp_ite (fun hlt => ?_) fun hge => hdone a lost d s ha (by omega) (Or.inr rfl) h
    have hnone : d₀.getPte a = none := hclear a ha hbase hlt
    have hdone' : ∀ a' lost' d' s', a' % PGSIZE = 0 → newsz ≤ a' →
        a' < newsz + PGSIZE ∨ a' = a + PGSIZE → Growing d₀ s₀ base a' lost' d' s' →
        P (newsz, d') s' :=
      fun a' lost' d' s' hal hle hor => hdone a' lost' d' s' hal hle (by omega)
    rw [wp_bind]
    refine kalloc_contended_wp (fun _ => ?_) fun mem ps hfree => ?_
    · rw [wp_bind]
      refine hfail a lost d _ ha hbase hlt ?_
      exact { h with tight := fun hq => ⟨by rw [(h.tight hq).1]; rfl, (h.tight hq).2⟩ }
    · unfold lift
      rw [wp_bind, wp_zoom, wp_modify, wp_bind]
      unfold setPage
      rw [wp_modify, wp_bind]
      have hself : d.getPte a = none := (h.outside a ha (by omega)).trans hnone
      refine mapPage_contended_wp (hlt.trans hsz) ha hself (fun _ hshort => ?_) fun d' k hk => ?_
      · refine ih (next_page_aligned ha) (by omega) (by omega)
          (h.lose ha hbase hnone hfree rfl rfl rfl fun hq => ⟨?_, hshort ?_⟩) hdone'
        · change s.refusals.tail.tail = []
          rw [hq]
          rfl
        · change s.refusals.tail = []
          rw [hq]
          rfl
      · refine ih (next_page_aligned ha) (by omega) (by omega)
          (h.map ha hbase hfree hk rfl fun hq => ?_) hdone'
        rw [hq]
        rfl

/-- The pages from `oldsz` up to `newsz` are there, in new frames full of zeros. -/
structure Delivered (d : PageDir) (oldsz newsz : Nat) (d' : PageDir) (s' : Ram) : Prop where
  pages : ∀ x, x % PGSIZE = 0 → pgRoundUp oldsz ≤ x → x < newsz →
    ∃ f, d'.getPte x = some ⟨f, true, true⟩ ∧ (∀ o, s'.bytes f o = 0) ∧
      ∀ y e, y < KERNBASE → d.getPte y = some e → e.pa ≠ f
  distinct : ∀ x y e e', x % PGSIZE = 0 → pgRoundUp oldsz ≤ x → x < newsz → y % PGSIZE = 0 →
    pgRoundUp oldsz ≤ y → y < newsz → d'.getPte x = some e → d'.getPte y = some e' →
    e'.pa = e.pa → y = x
  others : ∀ x, x % PGSIZE = 0 → (x < pgRoundUp oldsz ∨ newsz ≤ x) → d'.getPte x = d.getPte x

/-- The mappings are as before, and every page that was free is free again or a page table. -/
structure Undone (d : PageDir) (s : Ram) (d' : PageDir) (s' : Ram) : Prop where
  pages : ∀ x, d'.getPte x = d.getPte x
  frames : ∀ p ∈ s.free,
    p ∈ s'.free ∨ ∃ i < NPDENTRIES, ∃ t, d'.tables i = some t ∧ t.page = p

/-- What `allocuvm` reports is so. -/
def AllocReport (d : PageDir) (s : Ram) (oldsz newsz r : Nat) (d' : PageDir) (s' : Ram) : Prop :=
  (r = newsz → Delivered d oldsz newsz d' s') ∧ (r = 0 → Undone d s d' s')

theorem getPte_pgRoundDown (x : Nat) : d.getPte (pgRoundDown x) = d.getPte x := by
  refine getPte_of_page ?_
  unfold pgRoundDown
  rw [Nat.mul_div_cancel _ page_pos]

theorem Growing.sound (h : Growing d₀ s₀ base a [] d s) (hs : Sound K d₀ s₀.toKmem) :
    Sound K d s.toKmem := by
  refine hs.moves fun p => ?_
  rw [h.count p, count_nil, Nat.add_zero]

/-- Without a loss the new pages are there. -/
theorem Growing.delivered (h : Growing d₀ s₀ (pgRoundUp oldsz) a [] d s) (hs : Sound K d₀ s₀.toKmem)
    (hnew : newsz < KERNBASE) (hle : newsz ≤ a)
    (hother : ∀ x, x % PGSIZE = 0 → newsz ≤ x → x < pgRoundUp oldsz ∨ a ≤ x) :
    Delivered d₀ oldsz newsz d s := by
  refine ⟨fun x hx hbx hxn => ?_, fun x y e e' hx _ hxn hy _ hyn hgetx hgety hpa => ?_,
    fun x hx hor => ?_⟩
  · rcases h.inside x hx hbx (by omega) with ⟨_, hne⟩ | ⟨f, hf, hget, hzero⟩
    · exact absurd rfl hne
    · refine ⟨f, hget, hzero, fun y e hy hgety hpa => ?_⟩
      exact hs.frame_notMem hy hgety (by rw [hpa]; exact hf)
  · have hpage := (h.sound hs).frame_inj (hxn.trans hnew) (hyn.trans hnew) hgetx hgety hpa
    by_contra hne
    exact page_ne hy hx hne hpage
  · rcases hor with hlt | hge
    · exact h.outside x hx (Or.inl hlt)
    · exact h.outside x hx (hother x hx hge)

/-- A lost frame is neither free nor a page table. -/
theorem Growing.not_undone (h : Growing d₀ s₀ base a lost d s) (hs : Sound K d₀ s₀.toKmem)
    (hlost : lost ≠ []) (hm : Moves s.toKmem (owned d) s'.toKmem (owned d')) :
    ¬ Undone d₀ s₀ d' s' := by
  intro hundone
  obtain ⟨p, hp⟩ := exists_mem_of_ne_nil lost hlost
  have hcount := h.count p
  have hcount' := hm.count p
  have hexcl := hs.excl p
  have hpos := count_pos_iff.mpr hp
  rcases hundone.frames p (h.wasFree p hp) with hfree | ⟨i, hi, t, ht, hpage⟩
  · have hpos' := count_pos_iff.mpr hfree
    omega
  · have hpos' := owned_table_pos ht hi
    rw [hpage] at hpos'
    omega

/-- Without a loss the roll-back undoes everything. -/
theorem Growing.undone (h : Growing d₀ s₀ base a [] d s) (hs : Sound K d₀ s₀.toKmem)
    (hpages : ∀ x, d'.getPte x = d₀.getPte x) (hpage : d'.page = d.page)
    (hm : Moves s.toKmem (owned d) s'.toKmem (owned d')) : Undone d₀ s₀ d' s' := by
  refine ⟨hpages, fun p hp => ?_⟩
  have hcount := h.count p
  have hcount' := hm.count p
  have hzero := hs.not_owned hp
  have hpos := count_pos_iff.mpr hp
  rw [count_nil] at hcount
  by_cases hfree : p ∈ s'.free
  · exact Or.inl hfree
  · have hno : s'.free.count p = 0 := count_eq_zero_of_not_mem hfree
    have howned : 0 < owned d' p := by omega
    rcases owned_pos_cases howned with hdir | htable | ⟨x, e, hx, hget, hpa⟩
    · have hself := owned_page_pos d₀
      rw [← h.page, ← hpage, hdir] at hself
      omega
    · exact Or.inr htable
    · rw [hpages] at hget
      have hframe := owned_frame_pos hx hget
      rw [hpa] at hframe
      omega

/-- After the roll-back the mappings are those from before. -/
theorem Growing.rolledBack (h : Growing d₀ s₀ (pgRoundUp oldsz) a lost d s) (ha : a % PGSIZE = 0)
    (hle : pgRoundUp oldsz ≤ a) (hlt : a < newsz)
    (hclear : ∀ x, x % PGSIZE = 0 → pgRoundUp oldsz ≤ x → x < newsz → d₀.getPte x = none)
    (hor : lost = [] ∨ s₀.refusals = []) (hfreed : Freed d s newsz oldsz d' s') :
    ∀ x, d'.getPte x = d₀.getPte x := by
  have hskip := h.noSkip (pgRoundUp_aligned oldsz) ha hle hclear hor
  have hrange := hfreed.dealloc.frees hskip
  intro x
  rw [← getPte_pgRoundDown (d := d') x, ← getPte_pgRoundDown (d := d₀) x]
  have hx : pgRoundDown x % PGSIZE = 0 := Nat.mul_mod_left _ _
  generalize pgRoundDown x = x at hx
  by_cases hin : pgRoundUp oldsz ≤ x ∧ x < newsz
  · rw [hrange.clear x hx hin.1 hin.2, hclear x hx hin.1 hin.2]
  · rw [hrange.others x hx (by omega), h.outside x hx (by omega)]

theorem le_pgRoundUp (h : sz < KERNBASE) : sz ≤ pgRoundUp sz := by
  unfold pgRoundUp
  unfold PGSIZE ADDRESSES KERNBASE at *
  omega

/-- `allocuvm` gets to the end, or rolls back. -/
theorem allocuvm_growing_wp (hold : oldsz ≤ newsz) (hnew : newsz < KERNBASE)
    (hclear : ∀ x, x % PGSIZE = 0 → pgRoundUp oldsz ≤ x → x < newsz → d.getPte x = none)
    (hfree : GoodFree K s.toKmem) (hshort : s.short = false) :
    wp (allocuvm K d oldsz newsz) (fun r s' =>
        (r.1 = newsz ∧ ∃ a lost, a % PGSIZE = 0 ∧ newsz ≤ a ∧
          (a < newsz + PGSIZE ∨ a = pgRoundUp oldsz) ∧
          Growing d s (pgRoundUp oldsz) a lost r.2 s') ∨
        (r.1 = 0 ∧ ∃ a lost d₁ s₁, a % PGSIZE = 0 ∧ pgRoundUp oldsz ≤ a ∧ a < newsz ∧
          Growing d s (pgRoundUp oldsz) a lost d₁ s₁ ∧ Freed d₁ s₁ newsz oldsz r.2 s'))
      (fun _ _ => False) s := by
  have hfuel : newsz ≤ pgRoundUp oldsz + ADDRESSES / PGSIZE * PGSIZE := by
    have hall : ADDRESSES / PGSIZE * PGSIZE = ADDRESSES := by decide
    have haddr : KERNBASE ≤ ADDRESSES := by decide
    omega
  have hround := le_pgRoundUp (Nat.lt_of_le_of_lt hold hnew)
  unfold allocuvm
  refine wp_ite (fun hge => absurd hge (by omega)) fun _ => ?_
  refine wp_ite (fun hlt => absurd hlt (by omega)) fun _ => ?_
  refine allocLoop_growing_wp hnew (pgRoundUp_aligned oldsz) le_rfl hfuel hclear (.start hshort)
    (fun a' lost' d' s' ha hle hor h => Or.inl ⟨rfl, a', lost', ha, hle, hor, h⟩) ?_
  intro a' lost' d' s' ha hle hlt h
  refine wp_mono (deallocuvm_freed_wp (by omega) hnew.le (h.noBad hfree hclear)) ?_ fun _ _ hf => hf
  exact fun r s'' hr => Or.inr ⟨rfl, a', lost', d', s', ha, hle, hlt, h, hr.2⟩

/-- For every pattern of refusals: what `allocuvm` reports is so if and only if it was not refused
    a page for a page table. -/
theorem allocuvm_report_iff (K : KernelImage) (d : PageDir) (s : Ram) (oldsz newsz : Nat)
    (hold : oldsz ≤ newsz) (hnew : newsz < KERNBASE) (hpos : 0 < newsz)
    (hmapped : ∀ x < KERNBASE, ((d.getPte x).isSome = true ↔ x < pgRoundUp oldsz))
    (hs : Sound K d s.toKmem) (hshort : s.short = false) :
    ∃ r d' s', allocuvm K d oldsz newsz s = .ok (r, d') s' ∧ (r = newsz ∨ r = 0) ∧
      (AllocReport d s oldsz newsz r d' s' ↔ s'.short = false) := by
  have hclear : ∀ x, x % PGSIZE = 0 → pgRoundUp oldsz ≤ x → x < newsz → d.getPte x = none := by
    intro x _ hle hlt
    by_contra hne
    have hlt' := (hmapped x (hlt.trans hnew)).mp (Option.isSome_iff_ne_none.mpr hne)
    omega
  obtain ⟨⟨r, d'⟩, s', hrun, hcase⟩ :=
    exists_ok_of_wp (allocuvm_growing_wp hold hnew hclear hs.free hshort)
  refine ⟨r, d', s', hrun, ?_⟩
  rcases hcase with ⟨hr, a, lost, ha, hle, hor, h⟩ | ⟨hr, a, lost, d₁, s₁, ha, hle, hlt, h, hf⟩
  · refine ⟨Or.inl hr, fun hreport => ?_, fun hno => ⟨fun _ => ?_, fun hzero => ?_⟩⟩
    · rw [Bool.eq_false_iff, ne_eq, h.short]
      intro hlost
      obtain ⟨x, hx, hbx, hxa, hnone⟩ := h.missing hlost
      have hxn : x < newsz := by
        have hnext := next_page_le hx ha hxa
        omega
      obtain ⟨f, hget, _⟩ := (hreport.1 hr).pages x hx hbx hxn
      rw [hnone] at hget
      cases hget
    · have hlost : lost = [] := by
        by_contra hne
        rw [h.short.mpr hne] at hno
        cases hno
      rw [hlost] at h
      refine h.delivered hs hnew hle fun x hx hge => ?_
      by_contra hno
      push Not at hno
      have hnext := next_page_le hx ha hno.2
      omega
    · omega
  · have hshort' : s'.short = s₁.short := hf.moves.short
    refine ⟨Or.inr hr, fun hreport => ?_, fun hno => ⟨fun hr' => ?_, fun _ => ?_⟩⟩
    · rw [hshort', Bool.eq_false_iff, ne_eq, h.short]
      exact fun hlost => h.not_undone hs hlost hf.moves (hreport.2 hr)
    · omega
    · have hlost : lost = [] := by
        by_contra hne
        rw [hshort', h.short.mpr hne] at hno
        cases hno
      have hpages := h.rolledBack ha hle hlt hclear (Or.inl hlost) hf
      rw [hlost] at h
      exact h.undone hs hpages hf.dealloc.page hf.moves

end

/-- An empty directory and some free pages. -/
def startRam (free : List Nat) : Ram := ⟨⟨free, false, [], []⟩, fun _ _ => 0, []⟩

theorem emptyDir_sound (hnodup : (0x200000 :: free).Nodup)
    (hvalid : ∀ p ∈ free, ValidPage smallKernel p) :
    Sound smallKernel emptyDir (startRam free).toKmem := by
  refine ⟨fun p => ?_, hvalid, fun p hp => ?_⟩
  · have hcount := nodup_iff_count_le_one.mp hnodup p
    rw [count_cons_one] at hcount
    rw [emptyDir, owned_new]
    exact hcount
  · rw [emptyDir, owned_new] at hp
    have heq : 0x200000 = p := by
      by_contra hne
      have hzero : one 0x200000 p = 0 := if_neg hne
      omega
    rw [← heq]
    exact ⟨by decide, by decide, by decide⟩

theorem allocuvm_report_iff_page : ∃ r d' s',
    allocuvm smallKernel emptyDir 0 PGSIZE (startRam [0x300000, 0x301000]) = .ok (r, d') s' ∧
      (r = PGSIZE ∨ r = 0) ∧
      (AllocReport emptyDir (startRam [0x300000, 0x301000]) 0 PGSIZE r d' s' ↔ s'.short = false) :=
  allocuvm_report_iff smallKernel emptyDir (startRam [0x300000, 0x301000]) 0 PGSIZE (by decide)
    (by decide) (by decide)
    (fun x _ => ⟨fun h => (nomatch h), fun h => absurd h (Nat.not_lt_zero x)⟩)
    (emptyDir_sound (by decide) (by
      rintro p hp
      rcases mem_cons.mp hp with rfl | hp
      · exact ⟨by decide, by decide, by decide⟩
      · rw [mem_singleton.mp hp]
        exact ⟨by decide, by decide, by decide⟩)) rfl

/-- With one page left, there is none for the page table; `allocuvm` returns the new size. -/
theorem allocuvm_page_missing : ∃ d' s',
    allocuvm smallKernel emptyDir 0 PGSIZE (startRam [0x300000]) = .ok (PGSIZE, d') s' ∧
      d'.getPte 0 = none ∧ ¬ AllocReport emptyDir (startRam [0x300000]) 0 PGSIZE PGSIZE d' s' := by
  have heval : (match allocuvm smallKernel emptyDir 0 PGSIZE (startRam [0x300000]) with
      | .ok r _ => some (r.1, (r.2.getPte 0).isNone)
      | .error _ _ => none) = some (PGSIZE, true) := by decide +kernel
  split at heval
  · rename_i r s' hrun
    obtain ⟨hr, hnone⟩ := Prod.mk.inj (Option.some.inj heval)
    have hget := Option.isNone_iff_eq_none.mp hnone
    obtain ⟨n, d'⟩ := r
    dsimp only at hr hget
    rw [hr] at hrun
    refine ⟨d', s', hrun, hget, fun hreport => ?_⟩
    obtain ⟨f, hf, _⟩ := (hreport.1 rfl).pages 0 (by decide) (by decide) (by decide)
    rw [hget] at hf
    cases hf
  · cases heval

/-! ### `growproc` -/

/-- A page of user memory: its permissions and its contents. -/
def userPage (d : PageDir) (s : Ram) (x : Nat) : Option (Bool × Bool × (Nat → Byte)) :=
  (d.getPte x).map fun e => (e.w, e.u, s.bytes e.pa)

/-- The user memory of a process is the pages below its size. -/
structure Process (K : KernelImage) (d : PageDir) (sz : Nat) (s : Ram) : Prop where
  size : sz < KERNBASE
  pages : ∀ x < KERNBASE, ((d.getPte x).isSome = true ↔ x < pgRoundUp sz)
  sound : Sound K d s.toKmem

/-- The process has grown by `n` bytes. -/
structure Grown (d : PageDir) (s : Ram) (sz : Nat) (n : Int) (d' : PageDir) (s' : Ram)
    (sz' : Nat) : Prop where
  size : (sz' : Int) = sz + n
  bound : sz' < KERNBASE
  pages : ∀ x < KERNBASE, ((d'.getPte x).isSome = true ↔ x < pgRoundUp sz')
  kept : ∀ x, x < pgRoundUp sz → x < pgRoundUp sz' → userPage d' s' x = userPage d s x
  zero : ∀ x e, pgRoundUp sz ≤ x → x < pgRoundUp sz' → d'.getPte x = some e →
    ∀ o, s'.bytes e.pa o = 0

/-- The process is as before. -/
structure Unchanged (d : PageDir) (s : Ram) (sz : Nat) (d' : PageDir) (s' : Ram) (sz' : Nat) :
    Prop where
  size : sz' = sz
  pages : ∀ x < KERNBASE, userPage d' s' x = userPage d s x

/-- What `growproc` reports is so. -/
def GrowReport (d : PageDir) (s : Ram) (sz : Nat) (n r : Int) (d' : PageDir) (s' : Ram)
    (sz' : Nat) : Prop :=
  (r = 0 → Grown d s sz n d' s' sz') ∧ (r = -1 → Unchanged d s sz d' s' sz')

section

variable {K : KernelImage} {d d' : PageDir} {s s' : Ram} {sz : Nat}

theorem userPage_congr (hget : d'.getPte x = d.getPte x)
    (hbytes : ∀ e, d.getPte x = some e → s'.bytes e.pa = s.bytes e.pa) :
    userPage d' s' x = userPage d s x := by
  unfold userPage
  rw [hget]
  cases he : d.getPte x with
  | none => rfl
  | some e => rw [Option.map_some, Option.map_some, hbytes e he]

theorem Process.clear (h : Process K d sz s) (hnew : newsz ≤ KERNBASE) :
    ∀ x, x % PGSIZE = 0 → pgRoundUp sz ≤ x → x < newsz → d.getPte x = none := by
  intro x _ hle hlt
  by_contra hne
  have hlt' := (h.pages x (by omega)).mp (Option.isSome_iff_ne_none.mpr hne)
  omega

/-- A page of the directory is not free, so `kfree` has left its contents alone. -/
theorem Kept.bytes_of_owned (h : Kept s s') (hp : 0 < owned d' p)
    (hexcl : s'.free.count p + owned d' p ≤ 1) : s'.bytes p = s.bytes p := by
  refine h.bytes p fun hmem => ?_
  have hcount := count_pos_iff.mpr hmem
  omega

/-- Growing that has failed leaves the process as it was. -/
theorem Process.unchanged (h : Process K d sz s)
    (hg : Growing d s (pgRoundUp sz) a lost d₁ s₁) (hf : Freed d₁ s₁ newsz sz d' s')
    (hpages : ∀ x, d'.getPte x = d.getPte x) : Unchanged d s sz d' s' sz := by
  refine ⟨rfl, fun x hx => userPage_congr (hpages x) fun e he => ?_⟩
  have hpos := owned_frame_pos hx ((hpages x).trans he)
  have hcount := hg.count e.pa
  have hcount' := hf.moves.count e.pa
  have hexcl := h.sound.excl e.pa
  rw [hf.kept.bytes_of_owned hpos (by omega)]
  exact hg.bytes e.pa (h.sound.frame_notMem hx he)

theorem pgRoundUp_le (ha : a % PGSIZE = 0) (hle : sz ≤ a) (hsz : sz < KERNBASE) :
    pgRoundUp sz ≤ a := by
  unfold pgRoundUp
  unfold PGSIZE ADDRESSES KERNBASE at *
  omega

theorem pgRoundUp_mono (hle : sz ≤ newsz) (hnew : newsz < KERNBASE) :
    pgRoundUp sz ≤ pgRoundUp newsz :=
  pgRoundUp_le (pgRoundUp_aligned newsz) (hle.trans (le_pgRoundUp hnew)) (by omega)

theorem pgRoundUp_le_kernbase (hsz : sz < KERNBASE) : pgRoundUp sz ≤ KERNBASE :=
  pgRoundUp_le (by decide) hsz.le hsz

/-- The loop of `allocuvm` ends at the next page boundary. -/
theorem alloc_end (hle : sz ≤ newsz) (hnew : newsz < KERNBASE) (ha : a % PGSIZE = 0)
    (hge : newsz ≤ a) (hor : a < newsz + PGSIZE ∨ a = pgRoundUp sz) : a = pgRoundUp newsz := by
  have hle' := pgRoundUp_le ha hge hnew
  rcases hor with hlt | heq
  · by_contra hne
    have hnext := next_page_le (pgRoundUp_aligned newsz) ha (by omega)
    have hround := le_pgRoundUp hnew
    omega
  · have hmono := pgRoundUp_mono hle hnew
    omega

/-- Whether an address is below a page boundary depends on its page. -/
theorem pgRoundDown_lt_iff (ha : a % PGSIZE = 0) : pgRoundDown x < a ↔ x < a := by
  unfold pgRoundDown
  unfold PGSIZE at *
  omega

theorem pgRoundDown_aligned (x : Nat) : pgRoundDown x % PGSIZE = 0 := Nat.mul_mod_left _ _

section

variable (h : Process K d sz s)

include h

/-- Growing without a loss. -/
theorem Process.grown (hle : sz ≤ newsz) (hnew : newsz < KERNBASE)
    (hn : (newsz : Int) = sz + n) (hg : Growing d s (pgRoundUp sz) (pgRoundUp newsz) [] d' s') :
    Grown d s sz n d' s' newsz := by
  have hbase := pgRoundUp_aligned sz
  have hmono := pgRoundUp_mono hle hnew
  have hbelow : ∀ x, x < pgRoundUp sz → d'.getPte x = d.getPte x := by
    intro x hx
    rw [← getPte_pgRoundDown (d := d') x, ← getPte_pgRoundDown (d := d) x]
    exact hg.outside _ (pgRoundDown_aligned x) (Or.inl ((pgRoundDown_lt_iff hbase).mpr hx))
  have hnewPage : ∀ x, pgRoundUp sz ≤ x → x < pgRoundUp newsz →
      ∃ f ∈ s.free, d'.getPte x = some ⟨f, true, true⟩ ∧ ∀ o, s'.bytes f o = 0 := by
    intro x hge hlt
    have hge' : pgRoundUp sz ≤ pgRoundDown x :=
      Nat.le_of_not_lt fun hno => absurd ((pgRoundDown_lt_iff hbase).mp hno) (by omega)
    rcases hg.inside _ (pgRoundDown_aligned x) hge'
      ((pgRoundDown_lt_iff (pgRoundUp_aligned newsz)).mpr hlt) with ⟨_, hne⟩ | hpage
    · exact absurd rfl hne
    · rw [getPte_pgRoundDown] at hpage
      exact hpage
  refine ⟨hn, hnew, fun x hx => ?_, fun x hx _ => ?_, fun x e hge hlt he => ?_⟩
  · by_cases hold : x < pgRoundUp sz
    · rw [hbelow x hold, h.pages x hx]
      omega
    · by_cases hlt : x < pgRoundUp newsz
      · obtain ⟨f, _, hget, _⟩ := hnewPage x (by omega) hlt
        simp [hget, hlt]
      · have hge : pgRoundUp newsz ≤ pgRoundDown x := Nat.le_of_not_lt fun hno =>
          hlt ((pgRoundDown_lt_iff (pgRoundUp_aligned newsz)).mp hno)
        rw [← getPte_pgRoundDown (d := d') x,
          hg.outside _ (pgRoundDown_aligned x) (Or.inr hge), getPte_pgRoundDown, h.pages x hx]
        omega
  · have hxk := Nat.lt_of_lt_of_le hx (pgRoundUp_le_kernbase h.size)
    exact userPage_congr (hbelow x hx) fun e he => hg.bytes e.pa (h.sound.frame_notMem hxk he)
  · obtain ⟨f, _, hget, hzero⟩ := hnewPage x hge hlt
    rw [hget] at he
    rw [← Option.some.inj he]
    exact hzero

/-- The first page above the new size has a page table. -/
theorem Process.noSkip : NoSkip d (pgRoundUp newsz) sz := by
  have hsz := h.size
  by_cases hbase : pgRoundUp newsz < sz
  · refine noSkip_of_table (tables_of_getPte ((h.pages _ (by omega)).mpr ?_))
    exact Nat.lt_of_lt_of_le hbase (le_pgRoundUp hsz)
  · exact noSkip_of_unmapped fun x _ hge hxlt => absurd hxlt (by omega)

theorem Process.noBad : ¬ BadFrame K d (pgRoundUp newsz) sz := by
  rintro ⟨x, e, _, _, hlt, hget, hbad⟩
  exact hbad (h.sound.frame_valid (hlt.trans h.size) hget)

/-- Shrinking to a smaller size. -/
theorem Process.shrunk (hlt : newsz < sz) (hn : (newsz : Int) = sz + n)
    (hf : Freed d s sz newsz d' s') : Grown d s sz n d' s' newsz := by
  have hsz := h.size
  have hnew : newsz < KERNBASE := by omega
  have hmono := pgRoundUp_mono hlt.le hsz
  have hbase := pgRoundUp_aligned newsz
  have hrange := hf.dealloc.frees h.noSkip
  have hbelow : ∀ x, x < pgRoundUp newsz → d'.getPte x = d.getPte x := by
    intro x hx
    rw [← getPte_pgRoundDown (d := d') x, ← getPte_pgRoundDown (d := d) x]
    exact hrange.others _ (pgRoundDown_aligned x) (Or.inl ((pgRoundDown_lt_iff hbase).mpr hx))
  have hsound : Sound K d' s'.toKmem := h.sound.moves hf.moves.count
  refine ⟨hn, hnew, fun x hx => ?_, fun x _ hx => ?_, fun x _ hge hlt' => absurd hlt' (by omega)⟩
  · by_cases hxnew : x < pgRoundUp newsz
    · rw [hbelow x hxnew, h.pages x hx]
      omega
    · have hge : pgRoundUp newsz ≤ pgRoundDown x := Nat.le_of_not_lt fun hno =>
        hxnew ((pgRoundDown_lt_iff hbase).mp hno)
      have hnone : d'.getPte x = none := by
        rw [← getPte_pgRoundDown (d := d') x]
        by_cases hxsz : pgRoundDown x < sz
        · exact hrange.clear _ (pgRoundDown_aligned x) hge hxsz
        · rw [hrange.others _ (pgRoundDown_aligned x) (by omega)]
          by_contra hne
          have hlt' := (h.pages _ (by
            have hdown : pgRoundDown x ≤ x := Nat.div_mul_le_self x PGSIZE
            omega)).mp (Option.isSome_iff_ne_none.mpr hne)
          have hround := pgRoundUp_le (pgRoundDown_aligned x) (by omega) hsz
          omega
      simp [hnone, hxnew]
  · have hxk := Nat.lt_of_lt_of_le hx (pgRoundUp_le_kernbase hnew)
    refine userPage_congr (hbelow x hx) fun e he => ?_
    exact hf.kept.bytes_of_owned (owned_frame_pos hxk ((hbelow x hx).trans he)) (hsound.excl e.pa)

end

/-- When what `growproc` reports is so. -/
def GrowCondition (sz : Nat) (n r : Int) (s' : Ram) : Prop :=
  (n < 0 → 0 < sz + n ∨ sz = 0) ∧ (0 < n → r = 0 → s'.short = false)

theorem growReport_zero : GrowReport d s sz n 0 d' s' sz' ↔ Grown d s sz n d' s' sz' :=
  ⟨fun h => h.1 rfl, fun h => ⟨fun _ => h, fun hno => absurd hno (by decide)⟩⟩

theorem growReport_neg : GrowReport d s sz n (-1) d' s' sz' ↔ Unchanged d s sz d' s' sz' :=
  ⟨fun h => h.2 rfl, fun h => ⟨fun hno => absurd hno (by decide), fun _ => h⟩⟩

/-- A call that fails to grow a process meets the condition. -/
theorem growCondition_neg (hn : 0 < n) : GrowCondition sz n (-1) s' :=
  ⟨fun hneg => absurd hneg (by omega), fun _ hno => absurd hno (by decide)⟩

theorem growproc_up_wp (hn : 0 < n) (hint : n < 2 ^ 31) (hp : Process K d sz s)
    (hshort : s.short = false) (halone : s.refusals = []) :
    wp (growproc K d sz n) (fun q s' => (q.1 = 0 ∨ q.1 = -1) ∧
        (GrowReport d s sz n q.1 q.2.1 s' q.2.2 ↔ GrowCondition sz n q.1 s'))
      (fun _ _ => False) s := by
  have hsz := hp.size
  obtain ⟨newsz, hnewsz⟩ : ∃ newsz : Nat, (newsz : Int) = sz + n :=
    ⟨(sz + n).toNat, Int.toNat_of_nonneg (by omega)⟩
  have hwant : ((sz + n) % (ADDRESSES : Int)).toNat = newsz := by
    rw [← hnewsz]
    unfold ADDRESSES KERNBASE at *
    omega
  unfold growproc
  rw [hwant, if_pos hn, wp_bind]
  by_cases hnew : newsz < KERNBASE
  · refine wp_mono (allocuvm_growing_wp (by omega) hnew (hp.clear hnew.le) hp.sound.free hshort) ?_
      fun _ _ hf => hf
    rintro ⟨r, d'⟩ s' (⟨hr, a, lost, ha, hle, hor, h⟩ | ⟨hr, a, lost, d₁, s₁, ha, hle, hlt, h, hf⟩)
    · dsimp only at hr h ⊢
      rw [hr, if_neg (by omega)]
      refine ⟨Or.inl rfl, growReport_zero.trans ⟨fun hgrown => ?_, fun hcond => ?_⟩⟩
      · refine ⟨fun hneg => absurd hneg (by omega), fun _ _ => ?_⟩
        rw [Bool.eq_false_iff, ne_eq, h.short]
        intro hlost
        obtain ⟨x, hx, hbx, hxa, hnone⟩ := h.missing hlost
        rw [alloc_end (by omega) hnew ha hle hor] at hxa
        have hxk := Nat.lt_of_lt_of_le hxa (pgRoundUp_le_kernbase hnew)
        have hsome := (hgrown.pages x hxk).mpr hxa
        rw [hnone] at hsome
        cases hsome
      · have hlost : lost = [] := by
          by_contra hne
          have hno := hcond.2 hn rfl
          rw [h.short.mpr hne] at hno
          cases hno
        have hend := alloc_end (by omega) hnew ha hle hor
        rw [hlost, hend] at h
        have hgrown : sz ≤ newsz := by omega
        exact hp.grown hgrown hnew hnewsz h
    · dsimp only at hr hf ⊢
      rw [hr, if_pos rfl]
      have hpages := h.rolledBack ha hle hlt (hp.clear hnew.le) (Or.inr halone) hf
      exact ⟨Or.inr rfl, growReport_neg.trans
        ⟨fun _ => growCondition_neg hn, fun _ => hp.unchanged h hf hpages⟩⟩
  · unfold allocuvm
    rw [if_pos (by omega), wp_pure]
    dsimp only
    rw [if_pos rfl]
    exact ⟨Or.inr rfl, growReport_neg.trans
      ⟨fun _ => growCondition_neg hn, fun _ => ⟨rfl, fun _ _ => rfl⟩⟩⟩

theorem growproc_down_wp (hn : n < 0) (hint : -(2 ^ 31) ≤ n) (hp : Process K d sz s) :
    wp (growproc K d sz n) (fun q s' => (q.1 = 0 ∨ q.1 = -1) ∧
        (GrowReport d s sz n q.1 q.2.1 s' q.2.2 ↔ GrowCondition sz n q.1 s'))
      (fun _ _ => False) s := by
  have hsz := hp.size
  have hup : ∀ {r : Int} {s' : Ram}, 0 < n → r = 0 → s'.short = false :=
    fun hpos => absurd hpos (by omega)
  unfold growproc
  rw [if_neg (by omega), if_pos hn, wp_bind]
  by_cases hneg : (sz : Int) + n < 0
  · have hwant : sz ≤ ((sz + n) % (ADDRESSES : Int)).toNat := by
      unfold ADDRESSES KERNBASE at *
      omega
    unfold deallocuvm
    rw [if_pos hwant, wp_pure]
    dsimp only
    by_cases hzero : sz = 0
    · rw [if_pos hzero]
      exact ⟨Or.inr rfl, growReport_neg.trans
        ⟨fun _ => ⟨fun _ => Or.inr hzero, hup⟩, fun _ => ⟨rfl, fun _ _ => rfl⟩⟩⟩
    · rw [if_neg hzero]
      refine ⟨Or.inl rfl, growReport_zero.trans ⟨fun hgrown => ?_, fun hcond => ?_⟩⟩
      · have hsize := hgrown.size
        omega
      · have hor := hcond.1 hn
        omega
  · obtain ⟨newsz, hnewsz⟩ : ∃ newsz : Nat, (newsz : Int) = sz + n :=
      ⟨(sz + n).toNat, Int.toNat_of_nonneg (by omega)⟩
    have hwant : ((sz + n) % (ADDRESSES : Int)).toNat = newsz := by
      rw [← hnewsz]
      unfold ADDRESSES KERNBASE at *
      omega
    rw [hwant]
    refine wp_mono (deallocuvm_freed_wp (by omega) hsz.le hp.noBad) ?_ fun _ _ hf => hf
    rintro ⟨r, d'⟩ s' ⟨hr, hf⟩
    dsimp only at hr hf ⊢
    rw [hr]
    by_cases hzero : newsz = 0
    · rw [if_pos hzero]
      refine ⟨Or.inr rfl, growReport_neg.trans ⟨fun hsame => ?_, fun hcond => ?_⟩⟩
      · have hrange := hf.dealloc.frees hp.noSkip
        have hnone : d'.getPte 0 = none := by
          refine hrange.clear 0 (by decide) ?_ (by omega)
          rw [hzero]
          decide
        have hpage := hsame.pages 0 (by decide)
        have hsome : (d.getPte 0).isSome = true := by
          refine (hp.pages 0 (by decide)).mpr (Nat.lt_of_lt_of_le ?_ (le_pgRoundUp hsz))
          omega
        obtain ⟨e, he⟩ := Option.isSome_iff_exists.mp hsome
        unfold userPage at hpage
        rw [hnone, he] at hpage
        cases hpage
      · have hor := hcond.1 hn
        omega
    · rw [if_neg hzero]
      have hless : newsz < sz := by omega
      exact ⟨Or.inl rfl, growReport_zero.trans
        ⟨fun _ => ⟨fun _ => Or.inl (by omega), hup⟩, fun _ => hp.shrunk hless hnewsz hf⟩⟩

end

/-- A process without memory. -/
theorem emptyDir_process (hnodup : (0x200000 :: free).Nodup)
    (hvalid : ∀ p ∈ free, ValidPage smallKernel p) :
    Process smallKernel emptyDir 0 (startRam free) :=
  ⟨by decide, fun x _ => ⟨fun h => (nomatch h), fun h => absurd h (Nat.not_lt_zero x)⟩,
    emptyDir_sound hnodup hvalid⟩

/-- A directory with the first page of user memory. -/
def onePage : PageDir := (emptyDir.addTable 0 0x201000).setPte 0 (some ⟨0x202000, true, true⟩)

theorem onePage_mapped (free : List Nat) :
    Mapped emptyDir ⟨0x201000 :: free, false, [], []⟩ 0 ⟨0x202000, true, true⟩ onePage
      ⟨free, false, [], []⟩ :=
  .ofTable (by decide) rfl rfl (.set (by decide) rfl rfl)

theorem onePage_process (hnodup : (0x200000 :: 0x201000 :: 0x202000 :: free).Nodup)
    (hvalid : ∀ p ∈ free, ValidPage smallKernel p) :
    Process smallKernel onePage PGSIZE (startRam free) := by
  have hmapped := onePage_mapped free
  have hcount : ∀ p, free.count p + owned onePage p =
      (0x200000 :: 0x201000 :: 0x202000 :: free).count p := by
    intro p
    have hc := hmapped.moves.count p
    rw [count_cons_one, emptyDir, owned_new] at hc
    rw [count_cons_one, count_cons_one, count_cons_one]
    dsimp only at hc
    omega
  refine ⟨by decide, fun x hx => ?_, fun p => ?_, hvalid, fun p hp => ?_⟩
  · have hround : pgRoundUp PGSIZE = PGSIZE := by decide
    rw [hround]
    by_cases hpage : x / PGSIZE = 0 / PGSIZE
    · have hget : onePage.getPte x = some ⟨0x202000, true, true⟩ :=
        (getPte_of_page hpage).trans hmapped.self
      rw [hget]
      unfold PGSIZE at *
      simp
      omega
    · rw [hmapped.others x hpage]
      unfold PGSIZE at *
      refine ⟨fun h => (nomatch h), fun h => ?_⟩
      omega
  · rw [show (startRam free).free.count p + owned onePage p = _ from hcount p]
    exact nodup_iff_count_le_one.mp hnodup p
  · have hmem : p ∈ 0x200000 :: 0x201000 :: 0x202000 :: free := by
      rw [← count_pos_iff, ← hcount]
      omega
    simp only [mem_cons] at hmem
    rcases hmem with rfl | rfl | rfl | hmem
    · exact ⟨by decide, by decide, by decide⟩
    · exact ⟨by decide, by decide, by decide⟩
    · exact ⟨by decide, by decide, by decide⟩
    · exact hvalid p hmem

end Ram

end Xv6Kernel
