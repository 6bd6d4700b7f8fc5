/-
  ExecSafety.lean
  ===============
  `exec` on arbitrary files.

  A call of `loaduvm` is in order (`StoreCall.Ok`) if its address is aligned and every page it
  gets to is mapped by `allocuvm`, or else has a page table and gets no byte.  A call of
  `copyout` is in order if every page it gets to has a page table, or else the word at address 0
  is not the entry of a present user page.  `exec` returns if and only if all its calls are in
  order; the other panics of `vm.c` are never reached.
-/
import Xv6Kernel.Exec

namespace Xv6Kernel

open PanicMonad List PageDir

/-! ### Calls in order -/

/-- What `loaduvm` needs of a page it gets to.  Above the user part it may come upon a frame of
    the image through the kernel's own mapping. -/
def LoadPageOk (d : PageDir) (user : List Nat) (va : Nat) (bytes : List Byte) : Prop :=
  (va < KERNBASE ∧ (d.getPte va).isSome) ∨
    (d.tables (PDX va)).isSome ∧ (bytes = [] ∨ KERNBASE ≤ va ∧ pteAddr (d.getPte va) ∈ user)

/-- What `copyout` needs of a page it gets to. -/
def CopyPageOk (d : PageDir) (user : List Nat) (word0 : Option Pte) (va : Nat) : Prop :=
  (d.tables (PDX va)).isSome ∨ ∀ pa, userFrame word0 = some pa → pa ∈ user

def StoreCall.Ok : StoreCall → Prop
  | .load d user addr visits =>
      addr % PGSIZE = 0 ∧ ∀ v ∈ visits, LoadPageOk d user ((addr + v.1) % ADDRESSES) v.2
  | .copy d user word0 visits => ∀ va ∈ visits, CopyPageOk d user word0 va

def AllOk (s : Kmem) : Prop := ∀ c ∈ s.calls, c.Ok

/-- A panic, if it is only reached when some call is not in order. -/
def NotOk (_ : VmPanic) (s : Kmem) : Prop := ¬ AllOk s

theorem AllOk.of_calls (h : AllOk s) (hcalls : s'.calls = s.calls) : AllOk s' := by
  unfold AllOk
  rw [hcalls]
  exact h

/-! ### Pages of the allocator -/

/-- The pages that `kfree` accepts. -/
structure ValidPage (K : KernelImage) (p : Nat) : Prop where
  aligned : p % PGSIZE = 0
  above : K.kend ≤ p
  below : p < PHYSTOP

theorem ValidPage.ne_zero (h : ValidPage K p) : p ≠ 0 := by
  have htext := K.text
  have horder := K.order
  have habove := h.above
  omega

def GoodFree (K : KernelImage) (s : Kmem) : Prop := ∀ p ∈ s.free, ValidPage K p
def GoodDir (K : KernelImage) (d : PageDir) : Prop := ∀ p, 0 < owned d p → ValidPage K p

theorem owned_frame_pos (hva : va < KERNBASE) (hget : d.getPte va = some e) : 0 < owned d e.pa := by
  have ht : (d.tables (PDX va)).isSome = true := by
    unfold getPte at hget
    cases ht : d.tables (PDX va) with
    | none =>
      rw [ht] at hget
      cases hget
    | some t => rfl
  have hset := owned_setPte_user (e := none) (p := e.pa) hva ht
  rw [hget] at hset
  have hone : ownedPte (some e) e.pa = 1 := if_pos rfl
  have hzero : ownedPte none e.pa = 0 := rfl
  omega

theorem owned_table_pos (ht : d.tables i = some t) (hi : i < NPDENTRIES) : 0 < owned d t.page := by
  have hone : 0 < ownedTable t.page i (d.tables i) := by
    rw [ht]
    have hself : one t.page t.page = 1 := if_pos rfl
    refine Nat.lt_of_lt_of_le ?_ (Nat.le_add_right _ _)
    rw [hself]
    exact Nat.one_pos
  have hle : ownedTable t.page i (d.tables i) ≤
      ∑ i ∈ Finset.range NPDENTRIES, ownedTable t.page i (d.tables i) :=
    Finset.single_le_sum (f := fun i => ownedTable t.page i (d.tables i))
      (fun _ _ => Nat.zero_le _) (Finset.mem_range.mpr hi)
  rw [owned_eq]
  omega

section

variable {K : KernelImage} {s : Kmem} {d : PageDir} {va : Nat}

theorem kalloc_pop_wp (hnone : s.free = [] → P none s)
    (hsome : ∀ p ps, s.free = p :: ps → P (some p) { s with free := ps }) :
    wp kalloc P E s := by
  unfold kalloc
  rw [wp_bind, wp_get]
  cases hf : s.free with
  | nil => exact hnone hf
  | cons p ps => exact hsome p ps hf

variable {top : Nat}

theorem kfree_valid_wp (hpa : ValidPage K pa) (hok : P () { s with free := pa :: s.free }) :
    wp (kfree K pa) P E s := by
  have hno : ¬ (pa % PGSIZE ≠ 0 ∨ pa < K.kend ∨ PHYSTOP ≤ pa) := by
    have haligned := hpa.aligned
    have habove := hpa.above
    have hbelow := hpa.below
    omega
  unfold kfree
  rw [if_neg hno]
  exact hok

/-! ### `freevm` returns -/

theorem GoodDir.unmap (h : GoodDir K d) (hva : va < KERNBASE) : GoodDir K (d.setPte va none) := by
  intro p hp
  refine h p ?_
  cases ht : (d.tables (PDX va)).isSome with
  | false =>
    have hsame : d.setPte va none = d := by
      unfold setPte
      cases htab : d.tables (PDX va) with
      | none => rfl
      | some t =>
        rw [htab] at ht
        cases ht
    rw [hsame] at hp
    exact hp
  | true =>
    have hset := owned_setPte_user (e := none) (p := p) hva ht
    have hzero : ownedPte none p = 0 := rfl
    omega

theorem deallocLoop_good_wp {P : PageDir → Kmem → Prop} (hsz : oldsz ≤ KERNBASE) (hd : GoodDir K d)
    (hok : ∀ d' s', GoodDir K d' → s'.calls = s.calls → P d' s') :
    wp (deallocLoop K fuel d a oldsz) P E s := by
  induction fuel generalizing s d a with
  | zero => exact hok d s hd rfl
  | succ fuel ih =>
    refine wp_ite (fun ha => ?_) fun _ => hok d s hd rfl
    have hva : a < KERNBASE := Nat.lt_of_lt_of_le ha hsz
    rw [wp_bind]
    refine walkpgdir_find_wp (fun _ => ih hd hok) fun _ => ?_
    dsimp only
    cases hget : d.getPte a with
    | none => exact ih hd hok
    | some e =>
      have hpage : ValidPage K e.pa := hd _ (owned_frame_pos hva hget)
      refine wp_ite (fun hzero => absurd hzero hpage.ne_zero) fun _ => ?_
      rw [wp_bind]
      exact kfree_valid_wp hpage (ih (hd.unmap hva) fun d' s' hd' hc => hok d' s' hd' hc)

theorem deallocuvm_good_wp {P : Nat × PageDir → Kmem → Prop} (hsz : oldsz ≤ KERNBASE)
    (hd : GoodDir K d) (hok : ∀ r d' s', GoodDir K d' → s'.calls = s.calls → P (r, d') s') :
    wp (deallocuvm K d oldsz newsz) P E s := by
  unfold deallocuvm
  refine wp_ite (fun _ => hok _ d s hd rfl) fun _ => ?_
  rw [wp_bind]
  exact deallocLoop_good_wp hsz hd fun d' s' hd' hc => hok _ d' s' hd' hc

theorem freeTables_good_wp (hd : GoodDir K d) (his : ∀ i ∈ is, i < NPDENTRIES)
    (hok : ∀ s', s'.calls = s.calls → P () s') : wp (freeTables K d is) P E s := by
  induction is generalizing s with
  | nil => exact hok s rfl
  | cons i is ih =>
    have hrest : ∀ j ∈ is, j < NPDENTRIES := fun j hj => his j (mem_cons_of_mem _ hj)
    unfold freeTables
    cases ht : d.tables i with
    | none => exact ih hrest hok
    | some t =>
      have hpage : ValidPage K t.page := hd _ (owned_table_pos ht (his i mem_cons_self))
      rw [wp_bind]
      exact kfree_valid_wp hpage (ih hrest hok)

theorem freevm_good_wp (hd : GoodDir K d) (hok : ∀ s', s'.calls = s.calls → P () s') :
    wp (freevm K d) P E s := by
  unfold freevm
  rw [wp_bind]
  refine deallocuvm_good_wp le_rfl hd fun r d' s₁ hd' hc₁ => ?_
  have his : ∀ i ∈ List.range NPDENTRIES, i < NPDENTRIES := fun i => mem_range.mp
  -- the list of all 1024 indices is not to be computed
  generalize List.range NPDENTRIES = is at his ⊢
  rw [wp_bind]
  refine freeTables_good_wp hd' his fun s₂ hc₂ => ?_
  exact kfree_valid_wp (hd' _ (owned_page_pos d')) (hok _ (hc₂.trans hc₁))

/-! ### The image that `exec` builds -/

/-- The user part of a directory up to `top`, and a free list to extend it from. -/
structure Ready (K : KernelImage) (d : PageDir) (top : Nat) (s : Kmem) : Prop where
  /-- What is mapped is mapped to frames of the image. -/
  frames : ∀ va < KERNBASE, ∀ e, d.getPte va = some e → e.pa ∈ s.user
  above : ∀ va, top ≤ va → va < KERNBASE → d.getPte va = none
  kernel : ∀ va, KERNBASE ≤ va → va < ADDRESSES → ∀ e, d.getPte va = some e → e.u = false
  free : GoodFree K s
  dir : GoodDir K d
  user : ∀ p ∈ s.user, ValidPage K p
  calls : AllOk s

/-- A page table is added, or the free list is empty. -/
theorem walkpgdir_ready_wp {P : Option PageDir → Kmem → Prop} (hva : va < ADDRESSES)
    (h : Ready K d top s) (hnone : s.free = [] → P none { s with short := true })
    (hsome : ∀ d' s', Ready K d' top s' → s'.user = s.user → (∀ x, d'.getPte x = d.getPte x) →
      (d'.tables (PDX va)).isSome = true →
      (∀ i, (d.tables i).isSome = true → (d'.tables i).isSome = true) → P (some d') s') :
    wp (walkpgdir d va true) P E s := by
  refine wp_ite (fun ht => hsome d s h rfl (fun _ => rfl) ht fun _ => id) fun hn => ?_
  have ht : (d.tables (PDX va)).isSome = false := by simpa using hn
  rw [if_pos rfl, wp_bind]
  refine kalloc_pop_wp hnone fun page ps hf => ?_
  have hget : ∀ x, (d.addTable va page).getPte x = d.getPte x := getPte_addTable ht
  have hpage : ValidPage K page := h.free page (by rw [hf]; exact mem_cons_self)
  refine hsome _ _ ⟨?_, ?_, ?_, fun p hp => ?_, fun p hp => ?_, h.user, h.calls⟩ rfl hget
    (isSome_tables_addTable _ (Or.inr rfl))
    fun i hi => isSome_tables_addTable i (Or.inl hi)
  · exact fun x hx e he => h.frames x hx e ((hget x).symm.trans he)
  · exact fun x htop hx => (hget x).trans (h.above x htop hx)
  · exact fun x hx hlt e he => h.kernel x hx hlt e ((hget x).symm.trans he)
  · exact h.free p (by rw [hf]; exact mem_cons_of_mem _ hp)
  · rw [owned_addTable hva ht] at hp
    by_cases heq : page = p
    · rw [← heq]
      exact hpage
    · have hzero : one page p = 0 := if_neg heq
      exact h.dir p (by omega)

theorem Ready.mono (h : Ready K d top s) (hle : top ≤ top') : Ready K d top' s :=
  { h with above := fun va htop => h.above va (hle.trans htop) }

/-- The kernel part maps no user page. -/
theorem Ready.mapKernel (h : Ready K d top s) (ha : KERNBASE ≤ a) (hlt : a < ADDRESSES)
    (ht : (d.tables (PDX a)).isSome = true) : Ready K (d.setPte a (some ⟨pa, w, false⟩)) top s := by
  have hother : ∀ x < KERNBASE, (d.setPte a (some ⟨pa, w, false⟩)).getPte x = d.getPte x := by
    intro x hx
    refine getPte_setPte_of_ne ?_
    unfold KERNBASE at ha hx
    unfold PGSIZE
    omega
  refine ⟨?_, ?_, ?_, h.free, fun p hp => ?_, h.user, h.calls⟩
  · exact fun x hx e he => h.frames x hx e ((hother x hx).symm.trans he)
  · exact fun x htop hx => (hother x hx).trans (h.above x htop hx)
  · intro x hx hxlt e he
    by_cases hpage : x / PGSIZE = a / PGSIZE
    · rw [getPte_of_page hpage, getPte_setPte_self ht] at he
      rw [← Option.some.inj he]
    · rw [getPte_setPte_of_ne hpage] at he
      exact h.kernel x hx hxlt e he
  · rw [owned_setPte_kernel ha hlt] at hp
    exact h.dir p hp

/-- One more page of the image. -/
theorem Ready.mapUser (h : Ready K d a s) (ha : a < KERNBASE) (halign : a % PGSIZE = 0)
    (ht : (d.tables (PDX a)).isSome = true) (hpa : pa ∈ s.user) :
    Ready K (d.setPte a (some ⟨pa, w, u⟩)) (a + PGSIZE) s := by
  refine ⟨?_, ?_, ?_, h.free, fun p hp => ?_, h.user, h.calls⟩
  · intro x hx e he
    by_cases hpage : x / PGSIZE = a / PGSIZE
    · rw [getPte_of_page hpage, getPte_setPte_self ht] at he
      rw [← Option.some.inj he]
      exact hpa
    · rw [getPte_setPte_of_ne hpage] at he
      exact h.frames x hx e he
  · intro x htop hx
    rw [getPte_setPte_of_ne (by unfold PGSIZE at *; omega)]
    exact h.above x (by omega) hx
  · intro x hx hlt e he
    have hne : x / PGSIZE ≠ a / PGSIZE := by
      unfold KERNBASE at ha hx
      unfold PGSIZE
      omega
    rw [getPte_setPte_of_ne hne] at he
    exact h.kernel x hx hlt e he
  · have hset := owned_setPte_user (e := some ⟨pa, w, u⟩) (p := p) ha ht
    have hone : ownedPte (some ⟨pa, w, u⟩) p = one pa p := rfl
    by_cases heq : pa = p
    · rw [← heq]
      exact h.user pa hpa
    · have hzero : one pa p = 0 := if_neg heq
      exact h.dir p (by omega)

/-! ### `setupkvm` does not remap -/

theorem mapLoop_ready_wp {P : Bool × PageDir → Kmem → Prop} (ha : KERNBASE ≤ a)
    (hk : a + k * PGSIZE < ADDRESSES) (halign : a % PGSIZE = 0) (h : Ready K d 0 s)
    (hclear : ∀ x, a ≤ x → d.getPte x = none) (hfail : ∀ d' s', AllOk s' → P (false, d') s')
    (hok : ∀ d' s', Ready K d' 0 s' → (∀ x, a + (k + 1) * PGSIZE ≤ x → d'.getPte x = none) →
      P (true, d') s') : wp (mapLoop w false k d a pa) P E s := by
  refine mapLoop_rule (I := fun j d s => Ready K d 0 s ∧
    ∀ x, a + j * PGSIZE ≤ x → d.getPte x = none) hk ⟨h, fun x hx => hclear x (by omega)⟩
    (fun j d s Q _ hlt hI hnone hsome => ?_) fun d' s' hI => hok d' s' hI.1 hI.2
  obtain ⟨h, hclear⟩ := hI
  have hal : (a + j * PGSIZE) % PGSIZE = 0 := by rw [Nat.add_mul_mod_self_right, halign]
  refine walkpgdir_ready_wp hlt h (fun _ => hnone _ (hfail d _ h.calls)) fun d' s' h' _ hget ht _ =>
    hsome d' s' (fun hthere => ?_) fun _ => ⟨h'.mapKernel (by omega) hlt ht, fun x hx => ?_⟩
  · rw [hget, hclear _ le_rfl] at hthere
    cases hthere
  · rw [Nat.succ_mul, ← Nat.add_assoc] at hx
    rw [getPte_setPte_of_ne (by unfold PGSIZE at *; omega), hget]
    exact hclear x (by omega)

theorem mappages_ready_wp {P : Bool × PageDir → Kmem → Prop} {size : Nat} (hva : KERNBASE ≤ va)
    (halign : va % PGSIZE = 0) (hsize : size % PGSIZE = 0) (hpos : 0 < size)
    (hend : va + size ≤ ADDRESSES) (h : Ready K d 0 s) (hclear : ∀ x, va ≤ x → d.getPte x = none)
    (hfail : ∀ d' s', AllOk s' → P (false, d') s')
    (hok : ∀ d' s', Ready K d' 0 s' → (∀ x, va + size ≤ x → d'.getPte x = none) →
      P (true, d') s') : wp (mappages d va size pa w false) P E s := by
  have hcount : (size / PGSIZE - 1 + 1) * PGSIZE = size := by
    unfold PGSIZE at *
    omega
  rw [mappages_eq_mapLoop halign hsize hpos hend]
  refine mapLoop_ready_wp hva ?_ halign h hclear hfail fun d' s' h' hclear' => ?_
  · rw [Nat.succ_mul] at hcount
    unfold PGSIZE at *
    omega
  · refine hok d' s' h' fun x hx => hclear' x ?_
    rw [hcount]
    exact hx

/-- The ranges of `kmap` follow one another. -/
theorem mapKernel_ready_wp {P : Option PageDir → Kmem → Prop} (hks : ∀ k ∈ ks, KmapOk k)
    (hfrom : ∀ k ∈ ks, a ≤ k.virt) (hsorted : ks.Pairwise fun k k' =>
      k.virt + (k.physEnd + ADDRESSES - k.physStart) % ADDRESSES ≤ k'.virt) (h : Ready K d 0 s)
    (hclear : ∀ x, a ≤ x → d.getPte x = none) (hfail : ∀ s', AllOk s' → P none s')
    (hok : ∀ d' s', Ready K d' 0 s' → P (some d') s') : wp (mapKernel ks d) P E s := by
  induction ks generalizing s d a with
  | nil => exact hok d s h
  | cons k ks ih =>
    have hk := hks k mem_cons_self
    have hle : a ≤ k.virt := hfrom k mem_cons_self
    obtain ⟨hafter, hrest⟩ := pairwise_cons.mp hsorted
    unfold mapKernel
    rw [wp_bind]
    refine mappages_ready_wp hk.virt hk.aligned hk.size hk.pos hk.fits h
      (fun x hx => hclear x (hle.trans hx)) (fun _ s' hs' => hfail s' hs')
      fun d' s' h' hclear' => ?_
    exact ih (fun k hk => hks k (mem_cons_of_mem _ hk)) hafter hrest h' hclear'

theorem kmap_sorted (K : KernelImage) : (kmap K).Pairwise fun k k' =>
    k.virt + (k.physEnd + ADDRESSES - k.physStart) % ADDRESSES ≤ k'.virt := by
  have htext := K.text
  have hfits := K.fits
  unfold EXTMEM at htext
  unfold PHYSTOP at hfits
  simp only [kmap, KERNLINK, KERNBASE, EXTMEM, PHYSTOP, DEVSPACE, ADDRESSES, pairwise_cons,
    mem_cons, not_mem_nil, or_false, forall_eq_or_imp, forall_eq, List.Pairwise.nil,
    and_true, false_imp_iff, implies_true]
  omega

theorem setupkvm_ready_wp {P : Option PageDir → Kmem → Prop} (hfree : GoodFree K s)
    (huser : s.user = []) (hcalls : AllOk s) (hfail : ∀ s', AllOk s' → P none s')
    (hok : ∀ d s', Ready K d 0 s' → P (some d) s') : wp (setupkvm K) P E s := by
  unfold setupkvm
  rw [wp_bind]
  refine kalloc_pop_wp (fun _ => hfail s hcalls) fun page ps hf => ?_
  have hpage : ValidPage K page := hfree page (by rw [hf]; exact mem_cons_self)
  refine mapKernel_ready_wp (a := 0) (kmap_ok K) (fun k _ => Nat.zero_le _) (kmap_sorted K) ?_
    (fun _ _ => rfl) hfail hok
  refine ⟨fun _ _ e he => (nomatch he), fun _ _ _ => rfl, fun _ _ _ e he => (nomatch he),
    fun p hp => hfree p (by rw [hf]; exact mem_cons_of_mem _ hp), fun p hp => ?_,
    fun p hp => ?_, hcalls⟩
  · rw [owned_new] at hp
    by_cases heq : page = p
    · rw [← heq]
      exact hpage
    · have hzero : one page p = 0 := if_neg heq
      omega
  · have hnil : p ∈ s.user := hp
    rw [huser] at hnil
    exact absurd hnil not_mem_nil

/-! ### `allocuvm` does not remap -/

theorem mapPage_ready_wp {P : Bool × PageDir → Kmem → Prop} (ha : a < KERNBASE)
    (halign : a % PGSIZE = 0) (h : Ready K d a s) (hpa : pa ∈ s.user)
    (hfail : s.free = [] → P (false, d) { s with short := true })
    (hok : ∀ d' s', Ready K d' (a + PGSIZE) s' → (d'.tables (PDX a)).isSome = true →
      (∀ i, (d.tables i).isSome = true → (d'.tables i).isSome = true) → P (true, d') s') :
    wp (mappages d a PGSIZE pa w u) P E s := by
  rw [mappages_page ha halign]
  unfold mapLoop
  rw [wp_bind]
  refine walkpgdir_ready_wp (lt_addresses ha) h hfail fun d' s' h' hu hget ht hmono => ?_
  have hno : ¬ (d'.getPte a).isSome = true := by simp [hget, h.above a le_rfl ha]
  refine wp_ite (fun hsome => absurd hsome hno) fun _ => ?_
  refine hok _ s' (h'.mapUser ha halign ht (by rw [hu]; exact hpa)) ?_ fun i hi => ?_
  · rw [isSome_tables_setPte]
    exact ht
  · rw [isSome_tables_setPte]
    exact hmono i hi

/-- A free page becomes a frame of the image. -/
theorem Ready.take (h : Ready K d top s) (hf : s.free = mem :: ps) :
    Ready K d top { s with free := ps, user := mem :: s.user } := by
  refine ⟨fun x hx e he => mem_cons_of_mem _ (h.frames x hx e he), h.above, h.kernel,
    fun p hp => h.free p (by rw [hf]; exact mem_cons_of_mem _ hp), h.dir, fun p hp => ?_,
    h.calls⟩
  rcases mem_cons.mp hp with rfl | hp
  · exact h.free p (by rw [hf]; exact mem_cons_self)
  · exact h.user p hp

/-- Without free pages the loop is at its end or fails. -/
theorem allocLoop_noPage_wp {P : Nat × PageDir → Kmem → Prop} (hsz : newsz ≤ KERNBASE)
    (hfuel : newsz ≤ a + fuel * PGSIZE) (hd : GoodDir K d) (hf : s.free = [])
    (hend : newsz ≤ a → P (newsz, d) s)
    (hfail : ∀ d' s', GoodDir K d' → s'.calls = s.calls → P (0, d') s') :
    wp (allocLoop K oldsz newsz fuel d a) P E s := by
  cases fuel with
  | zero => exact hend (by omega)
  | succ fuel =>
    refine wp_ite (fun _ => ?_) fun hge => hend (by omega)
    rw [wp_bind]
    refine kalloc_pop_wp (fun _ => ?_) fun p ps hcons => ?_
    · rw [wp_bind]
      exact deallocuvm_good_wp hsz hd fun _ d' s' hd' hc => hfail d' s' hd' hc
    · rw [hf] at hcons
      cases hcons

/-- The pages before the last one are mapped: if a page table is refused, so is the next page. -/
theorem allocLoop_ready_wp {P : Nat × PageDir → Kmem → Prop} (hsz : newsz < KERNBASE)
    (halign : a % PGSIZE = 0) (hle : a ≤ pgRoundUp newsz) (hfuel : newsz ≤ a + fuel * PGSIZE)
    (h : Ready K d a s) (hfail : ∀ d' s', GoodDir K d' → AllOk s' → P (0, d') s')
    (hok : ∀ d' s', Ready K d' (pgRoundUp newsz) s' →
      (∀ i, (d.tables i).isSome = true → (d'.tables i).isSome = true) →
      (∀ x, a ≤ x → x + PGSIZE < newsz → (d'.tables (PDX x)).isSome = true) → P (newsz, d') s') :
    wp (allocLoop K oldsz newsz fuel d a) P E s := by
  induction fuel generalizing s d a with
  | zero =>
    exact hok d s (h.mono hle) (fun _ => id) fun x hx hlt => absurd hlt (by omega)
  | succ fuel ih =>
    refine wp_ite (fun hlt => ?_) fun hge => ?_
    · have ha : a < KERNBASE := hlt.trans hsz
      have hpages : a + PGSIZE ≤ pgRoundUp newsz := by
        unfold pgRoundUp
        unfold PGSIZE ADDRESSES KERNBASE at *
        omega
      have hfuel' : newsz ≤ a + PGSIZE + fuel * PGSIZE := by
        rw [Nat.succ_mul] at hfuel
        omega
      have hnext : (a + PGSIZE) % PGSIZE = 0 := by rw [Nat.add_mod_right, halign]
      rw [wp_bind]
      refine kalloc_pop_wp (fun _ => ?_) fun mem ps hf => ?_
      · rw [wp_bind]
        refine deallocuvm_good_wp hsz.le h.dir fun _ d' s' hd' hc => ?_
        exact hfail d' s' hd' (h.calls.of_calls hc)
      · rw [wp_bind, wp_modify, wp_bind]
        have hready := h.take hf
        refine mapPage_ready_wp ha halign hready mem_cons_self (fun hempty => ?_) ?_
        · have hready' : Ready K d (a + PGSIZE)
              { s with free := ps, user := mem :: s.user, short := true } :=
            { hready.mono (Nat.le_add_right a PGSIZE) with }
          refine allocLoop_noPage_wp hsz.le hfuel' h.dir hempty (fun hend => ?_) ?_
          · exact hok d _ (hready'.mono hpages) (fun _ => id) fun x hx hx' => absurd hx' (by omega)
          · exact fun d' s' hd' hc => hfail d' s' hd' (hready'.calls.of_calls hc)
        · intro d' s' h' ht hmono
          refine ih hnext hpages hfuel' h' fun d'' s'' h'' hmono' htables => ?_
          refine hok d'' s'' h'' (fun i hi => hmono' i (hmono i hi)) fun x hx hx' => ?_
          by_cases hpage : x < a + PGSIZE
          · have hpdx : PDX x = PDX a := by
              unfold PDX
              unfold PGSIZE NPTENTRIES at *
              omega
            rw [hpdx]
            exact hmono' _ ht
          · exact htables x (by omega) hx'
    · exact hok d s (h.mono hle) (fun _ => id) fun x hx hx' => absurd hx' (by omega)

theorem allocuvm_ready_wp {P : Nat × PageDir → Kmem → Prop} (h : Ready K d (pgRoundUp oldsz) s)
    (hfail : ∀ d' s', GoodDir K d' → AllOk s' → P (0, d') s')
    (hkeep : newsz < oldsz → P (oldsz, d) s)
    (hok : ∀ d' s', newsz < KERNBASE → Ready K d' (pgRoundUp newsz) s' →
      (∀ x, pgRoundUp oldsz ≤ x → x + PGSIZE < newsz → (d'.tables (PDX x)).isSome = true) →
      P (newsz, d') s') : wp (allocuvm K d oldsz newsz) P E s := by
  unfold allocuvm
  refine wp_ite (fun _ => hfail d s h.dir h.calls) fun hlt => ?_
  refine wp_ite hkeep fun hge => ?_
  have hsz : newsz < KERNBASE := by omega
  have hle : pgRoundUp oldsz ≤ pgRoundUp newsz := by
    unfold pgRoundUp
    unfold PGSIZE ADDRESSES KERNBASE at *
    omega
  have hfuel : newsz ≤ pgRoundUp oldsz + ADDRESSES / PGSIZE * PGSIZE := by
    unfold PGSIZE ADDRESSES KERNBASE at *
    omega
  exact allocLoop_ready_wp hsz (pgRoundUp_aligned oldsz) hle hfuel h hfail
    fun d' s' h' _ htables => hok d' s' hsz h' htables

/-! ### `loaduvm` -/

theorem tables_of_getPte (h : (d.getPte va).isSome = true) : (d.tables (PDX va)).isSome = true := by
  unfold getPte at h
  cases ht : d.tables (PDX va) with
  | none =>
    rw [ht] at h
    cases h
  | some t => rfl

theorem Ready.zero_notMem (h : Ready K d top s) : 0 ∉ s.user :=
  fun hzero => (h.user 0 hzero).ne_zero rfl

/-- Where there is a page table, the store goes astray if and only if the page is not in order. -/
theorem Ready.loadPageOk_iff (h : Ready K d top s) (ht : (d.tables (PDX va)).isSome = true) :
    LoadPageOk d s.user va bytes ↔ ¬ (bytes ≠ [] ∧ pteAddr (d.getPte va) ∉ s.user) := by
  unfold LoadPageOk
  by_cases hva : va < KERNBASE
  · cases hget : d.getPte va with
    | none =>
      have hzero : pteAddr none ∉ s.user := h.zero_notMem
      have hle : ¬ KERNBASE ≤ va := Nat.not_le.mpr hva
      simp [ht, hzero, hle]
    | some e =>
      have hmem : pteAddr (some e) ∈ s.user := h.frames va hva e hget
      simp [hva, hmem]
  · have hle : KERNBASE ≤ va := Nat.le_of_not_lt hva
    simp only [hva, false_and, false_or, ht, true_and, hle]
    tauto

theorem storeTo_iff_wp (hok : ¬ (bytes ≠ [] ∧ pa ∉ s.user) → P () s)
    (hwild : bytes ≠ [] ∧ pa ∉ s.user → E .wildStore s) : wp (storeTo pa bytes) P E s := by
  unfold storeTo
  rw [wp_bind, wp_get]
  exact wp_ite hwild hok

/-- The loop goes through if and only if the pages it gets to are in order. -/
theorem loadLoop_ready_wp {P : Bool × ExeFile → Kmem → Prop} {addr i : Nat} {t : Kmem}
    (h : Ready K d top s) (hu : t.user = s.user) (hok : (∀ v ∈ loadVisits offset sz fuel i f,
      LoadPageOk d s.user ((addr + v.1) % ADDRESSES) v.2) → ∀ r, P r t)
    (hbad : (∃ v ∈ loadVisits offset sz fuel i f,
      ¬ LoadPageOk d s.user ((addr + v.1) % ADDRESSES) v.2) → ∀ e, E e t) :
    wp (loadLoop d addr offset sz fuel i f) P E t := by
  induction fuel generalizing i f with
  | zero => exact hok (fun v hv => absurd hv not_mem_nil) _
  | succ fuel ih =>
    unfold loadVisits at hok hbad
    refine wp_ite (fun hlt => ?_) fun hge => ?_
    · rw [if_pos hlt] at hok hbad
      dsimp only at hok hbad
      generalize hn : (if sz - i < PGSIZE then sz - i else PGSIZE) = n at hok hbad ⊢
      rw [wp_bind]
      refine walkpgdir_find_wp (fun hnone => ?_) fun ht => ?_
      · refine hbad ⟨_, mem_cons_self, ?_⟩ _
        rintro (⟨_, hget⟩ | ⟨ht, _⟩)
        · rw [tables_of_getPte hget] at hnone
          cases hnone
        · rw [ht] at hnone
          cases hnone
      · dsimp only
        rw [wp_bind]
        refine storeTo_iff_wp (fun hstore => ?_) fun hstore => ?_
        · rw [hu] at hstore
          have hpage := (h.loadPageOk_iff ht).mpr hstore
          refine wp_ite (fun hshort => ?_) fun hfull => ?_
          · refine hok (fun v hv => ?_) _
            rw [if_pos hshort, mem_singleton] at hv
            rw [hv]
            exact hpage
          · rw [if_neg hfull] at hok hbad
            refine ih (fun hrest => hok fun v hv => ?_) fun hrest => ?_
            · rcases mem_cons.mp hv with rfl | hv
              · exact hpage
              · exact hrest v hv
            · obtain ⟨v, hv, hno⟩ := hrest
              exact hbad ⟨v, mem_cons_of_mem _ hv, hno⟩
        · refine hbad ⟨_, mem_cons_self, fun hpage => ?_⟩ _
          rw [hu] at hstore
          exact (h.loadPageOk_iff ht).mp hpage hstore
    · rw [if_neg hge] at hok
      exact hok (fun v hv => absurd hv not_mem_nil) _

/-- The record of a call changes nothing that matters to the image. -/
theorem Ready.record (h : Ready K d top s) (hc : c.Ok) :
    Ready K d top { s with calls := c :: s.calls } := by
  refine { h with calls := fun c' hc' => ?_ }
  rcases mem_cons.mp hc' with rfl | hc'
  · exact hc
  · exact h.calls c' hc'

theorem notOk_record (e : VmPanic) (hc : ¬ c.Ok) : NotOk e { s with calls := c :: s.calls } :=
  fun hall => hc (hall c mem_cons_self)

section

variable (h : Ready K d top s)

include h

theorem loaduvm_ready_wp {P : Bool × ExeFile → Kmem → Prop} {addr : Nat}
    (hok : ∀ r s', Ready K d top s' → P r s') : wp (loaduvm d addr f offset sz) P NotOk s := by
  unfold loaduvm
  generalize ADDRESSES / PGSIZE + 1 = fuel
  rw [wp_bind]
  refine recordCall_wp ?_
  refine wp_ite (fun halign => notOk_record .notAligned fun hc => halign hc.1) fun halign => ?_
  refine loadLoop_ready_wp h rfl (fun hvisits r => ?_) fun ⟨v, hv, hno⟩ e => ?_
  · exact hok r _ (h.record ⟨not_not.mp halign, hvisits⟩)
  · exact notOk_record e fun hc => hno (hc.2 v hv)

/-! ### `copyout` -/

/-- Where there is a page table, `uva2ka` finds a frame of the image or nothing. -/
theorem Ready.uva2ka_mem (hva : va < ADDRESSES)
    (ht : (d.tables (PDX va)).isSome = true) (hpa : uva2ka word0 d va = some pa) : pa ∈ s.user := by
  unfold uva2ka at hpa
  rw [if_pos ht] at hpa
  cases hget : d.getPte va with
  | none =>
    rw [hget] at hpa
    cases hpa
  | some e =>
    rw [hget] at hpa
    unfold userFrame at hpa
    dsimp only at hpa
    split at hpa
    · rename_i huser
      rw [← Option.some.inj hpa]
      by_cases hlt : va < KERNBASE
      · exact h.frames va hlt e hget
      · have hno := h.kernel va (Nat.le_of_not_lt hlt) hva e hget
        rw [hno] at huser
        exact nomatch huser.1
    · cases hpa

/-- The page that `copyout` stores to is the image's if and only if the page is in order. -/
theorem Ready.copyPageOk_iff (hva : va < ADDRESSES) :
    CopyPageOk d s.user word0 va ↔ ∀ pa, uva2ka word0 d va = some pa → pa ∈ s.user := by
  unfold CopyPageOk
  by_cases ht : (d.tables (PDX va)).isSome = true
  · simp only [ht, true_or, true_iff]
    exact fun pa hpa => h.uva2ka_mem hva ht hpa
  · unfold uva2ka
    simp only [ht, if_false, false_or, Bool.false_eq_true]

theorem copyoutLoop_ready_wp {P : Bool → Kmem → Prop} {len : Nat} {t : Kmem}
    (hu : t.user = s.user) (hva : va < ADDRESSES)
    (hok : (∀ a ∈ copyVisits word0 d fuel va len, CopyPageOk d s.user word0 a) → ∀ r, P r t)
    (hbad : (∃ a ∈ copyVisits word0 d fuel va len, ¬ CopyPageOk d s.user word0 a) → ∀ e, E e t) :
    wp (copyoutLoop word0 d fuel va len) P E t := by
  induction fuel generalizing va len with
  | zero => exact hok (fun v hv => absurd hv not_mem_nil) _
  | succ fuel ih =>
    have hdown : pgRoundDown va < ADDRESSES :=
      Nat.lt_of_le_of_lt (Nat.div_mul_le_self va PGSIZE) hva
    unfold copyVisits at hok hbad
    refine wp_ite (fun hpos => ?_) fun hzero => ?_
    · rw [if_pos hpos] at hok hbad
      cases hka : uva2ka word0 d (pgRoundDown va) with
      | none =>
        refine hok (fun a ha => ?_) _
        rw [hka, mem_singleton] at ha
        rw [ha, h.copyPageOk_iff hdown]
        intro pa hpa
        rw [hka] at hpa
        cases hpa
      | some pa0 =>
        rw [hka] at hok hbad
        have hchunk : List.replicate (copyChunk va len) (0 : Byte) ≠ [] := by
          have hlt : va - pgRoundDown va < PGSIZE := by
            unfold pgRoundDown PGSIZE
            omega
          have hpos' : copyChunk va len ≠ 0 := by
            unfold copyChunk
            omega
          simpa using hpos'
        rw [wp_bind]
        refine storeTo_iff_wp (fun hstore => ?_) fun hstore => ?_
        · have hmem : pa0 ∈ s.user := by
            rw [← hu]
            by_contra hno
            exact hstore ⟨hchunk, hno⟩
          have hpage : CopyPageOk d s.user word0 (pgRoundDown va) := by
            refine (h.copyPageOk_iff hdown).mpr fun pa hpa => ?_
            rw [hka] at hpa
            rw [← Option.some.inj hpa]
            exact hmem
          refine ih (Nat.mod_lt _ (by decide)) (fun hrest => hok fun a ha => ?_)
            fun hrest => hbad (hrest.imp fun _ h => ⟨mem_cons_of_mem _ h.1, h.2⟩)
          rcases mem_cons.mp ha with rfl | ha
          · exact hpage
          · exact hrest a ha
        · refine hbad ⟨_, mem_cons_self, fun hpage => ?_⟩ _
          rw [hu] at hstore
          exact hstore.2 ((h.copyPageOk_iff hdown).mp hpage pa0 hka)
    · rw [if_neg hzero] at hok
      exact hok (fun v hv => absurd hv not_mem_nil) _

theorem copyout_ready_wp {P : Bool → Kmem → Prop} {len : Nat}
    (hva : va < ADDRESSES) (hok : ∀ r s', Ready K d top s' → P r s') :
    wp (copyout word0 d va len) P NotOk s := by
  unfold copyout
  rw [wp_bind]
  refine recordCall_wp (copyoutLoop_ready_wp h rfl hva (fun hvisits r => ?_) ?_)
  · exact hok r _ (h.record hvisits)
  · exact fun ⟨a, ha, hno⟩ e => notOk_record e fun hc => hno (hc a ha)

theorem pushArgs_ready_wp {P : Option (Nat × Nat) → Kmem → Prop} {argc sp : Nat} {lens : List Nat}
    (hok : ∀ r s', Ready K d top s' → P r s') :
    wp (pushArgs word0 d argc sp lens) P NotOk s := by
  induction lens generalizing s argc sp with
  | nil => exact hok _ s h
  | cons len lens ih =>
    refine wp_ite (fun _ => hok _ s h) fun _ => ?_
    rw [wp_bind]
    have hsp : (sp + ADDRESSES - (len + 1) % ADDRESSES) % ADDRESSES / 4 * 4 < ADDRESSES :=
      Nat.lt_of_le_of_lt (Nat.div_mul_le_self _ 4) (Nat.mod_lt _ (by decide))
    exact copyout_ready_wp h hsp fun ok s' h' => wp_ite (fun _ => ih h') fun _ => hok _ s' h'

end

/-! ### `exec` -/

/-- Whatever size `allocuvm` returns, the image goes up to it. -/
theorem allocuvm_upTo_wp {P : Nat × PageDir → Kmem → Prop} (hold : oldsz ≤ KERNBASE)
    (h : Ready K d (pgRoundUp oldsz) s) (hfail : ∀ d' s', GoodDir K d' → AllOk s' → P (0, d') s')
    (hok : ∀ sz d' s', sz ≤ KERNBASE → Ready K d' (pgRoundUp sz) s' → P (sz, d') s') :
    wp (allocuvm K d oldsz newsz) P E s :=
  allocuvm_ready_wp h hfail (fun _ => hok oldsz d s hold h)
    fun d' s' hlt h' _ => hok _ d' s' hlt.le h'

theorem loadSegments_ready_wp {P : Bool × PageDir × Nat → Kmem → Prop} {off : Nat}
    (hsz : sz ≤ KERNBASE) (h : Ready K d (pgRoundUp sz) s)
    (hfail : ∀ d' sz' s', GoodDir K d' → AllOk s' → P (false, d', sz') s')
    (hok : ∀ d' sz' s', sz' ≤ KERNBASE → Ready K d' (pgRoundUp sz') s' → P (true, d', sz') s') :
    wp (loadSegments K k off d sz f) P NotOk s := by
  induction k generalizing s d off sz f with
  | zero => exact hok d sz s hsz h
  | succ k ih =>
    refine wp_ite (fun _ => hfail d sz s h.dir h.calls) fun _ => ?_
    refine wp_ite (fun _ => ih hsz h) fun _ => ?_
    refine wp_ite (fun _ => hfail d sz s h.dir h.calls) fun _ => ?_
    rw [wp_bind]
    refine allocuvm_upTo_wp hsz h (fun d' s' hd' hs' => hfail d' 0 s' hd' hs')
      fun sz' d' s' hsz' h' => ?_
    refine wp_ite (fun _ => hfail d' sz' s' h'.dir h'.calls) fun _ => ?_
    rw [wp_bind]
    refine loaduvm_ready_wp h' ?_
    rintro ⟨ok, f''⟩ s'' h''
    cases ok with
    | false => exact hfail d' sz' s'' h''.dir h''.calls
    | true => exact ih hsz' h''

theorem Ready.clearUser (h : Ready K d top s) (huva : uva < KERNBASE)
    (hget : d.getPte uva = some e) : Ready K (d.setPte uva (some { e with u := false })) top s := by
  have ht : (d.tables (PDX uva)).isSome = true := tables_of_getPte (by rw [hget]; rfl)
  have hpos : ∀ x, (d.setPte uva (some { e with u := false })).getPte x = d.getPte x ∨
      x / PGSIZE = uva / PGSIZE ∧
        (d.setPte uva (some { e with u := false })).getPte x = some { e with u := false } := by
    intro x
    by_cases hpage : x / PGSIZE = uva / PGSIZE
    · refine Or.inr ⟨hpage, ?_⟩
      rw [getPte_of_page hpage, getPte_setPte_self ht]
    · exact Or.inl (getPte_setPte_of_ne hpage)
  refine ⟨fun x hx e' he' => ?_, fun x htop hx => ?_, fun x hx hlt e' he' => ?_, h.free,
    fun p hp => ?_, h.user, h.calls⟩
  · rcases hpos x with hsame | ⟨_, hself⟩
    · exact h.frames x hx e' (hsame.symm.trans he')
    · rw [hself] at he'
      rw [← Option.some.inj he']
      exact h.frames uva huva e hget
  · rcases hpos x with hsame | ⟨hpage, _⟩
    · exact hsame.trans (h.above x htop hx)
    · have hnone := h.above x htop hx
      rw [getPte_of_page hpage, hget] at hnone
      cases hnone
  · rcases hpos x with hsame | ⟨_, hself⟩
    · exact h.kernel x hx hlt e' (hsame.symm.trans he')
    · rw [hself] at he'
      rw [← Option.some.inj he']
  · rw [owned_clearUser hget] at hp
    exact h.dir p hp

theorem clearpteu_ready_wp {P : PageDir → Kmem → Prop} {uva : Nat} (h : Ready K d top s)
    (huva : uva < KERNBASE) (ht : (d.tables (PDX uva)).isSome = true)
    (hok : ∀ d', Ready K d' top s → P d' s) : wp (clearpteu d uva) P E s := by
  unfold clearpteu
  rw [wp_bind]
  refine walkpgdir_find_wp (fun hnone => ?_) fun _ => ?_
  · rw [ht] at hnone
    cases hnone
  · dsimp only
    cases hget : d.getPte uva with
    | none => exact hok d h
    | some e => exact hok _ (h.clearUser huva hget)

theorem buildStack_ready_wp {P : Bool × PageDir × Nat → Kmem → Prop} (hsz : sz ≤ KERNBASE)
    (h : Ready K d (pgRoundUp sz) s)
    (hok : ∀ r d' sz' s', GoodDir K d' → AllOk s' → P (r, d', sz') s') :
    wp (buildStack K args d sz) P NotOk s := by
  have htop : pgRoundUp (pgRoundUp sz) = pgRoundUp sz := by
    unfold pgRoundUp
    unfold PGSIZE ADDRESSES KERNBASE at *
    omega
  have hnowrap : (pgRoundUp sz + 2 * PGSIZE) % ADDRESSES = pgRoundUp sz + 2 * PGSIZE := by
    unfold pgRoundUp
    unfold PGSIZE ADDRESSES KERNBASE at *
    omega
  unfold buildStack
  dsimp only
  rw [hnowrap, wp_bind]
  refine allocuvm_ready_wp (by rw [htop]; exact h) (fun d' s' hd' hs' => hok _ d' 0 s' hd' hs')
    (fun hlt => absurd hlt (by omega)) fun d' s' hlt h' htables => ?_
  refine wp_ite (fun _ => hok _ d' _ s' h'.dir h'.calls) fun _ => ?_
  have huva : pgRoundUp sz + 2 * PGSIZE - 2 * PGSIZE = pgRoundUp sz := Nat.add_sub_cancel ..
  have hpg : PGSIZE = 4096 := rfl
  rw [wp_bind, huva]
  refine clearpteu_ready_wp h' (by omega) (htables _ htop.le (by omega)) fun d'' h'' => ?_
  rw [wp_bind]
  refine pushArgs_ready_wp h'' fun r s'' hready => ?_
  cases r with
  | none => exact hok _ d'' _ s'' hready.dir hready.calls
  | some r =>
    rw [wp_bind]
    exact copyout_ready_wp hready (Nat.mod_lt _ (by decide)) fun ok t ht =>
      hok ok d'' _ t ht.dir ht.calls

theorem execBad_ready_wp {P : Option (PageDir × Nat) → Kmem → Prop} (hd : GoodDir K d)
    (hcalls : AllOk s) (hok : ∀ r s', AllOk s' → P r s') : wp (execBad K d) P E s := by
  unfold execBad
  rw [wp_bind]
  exact freevm_good_wp hd fun s' hc => hok _ s' (hcalls.of_calls hc)

/-- `exec` returns, or one of its calls was not in order. -/
theorem exec_ready_wp {P : Option (PageDir × Nat) → Kmem → Prop} (hfree : GoodFree K s)
    (hold : GoodDir K oldpgdir) (hok : ∀ r s', AllOk s' → P r s') :
    wp (exec K args f oldpgdir) P NotOk s := by
  have hstart : AllOk { s with user := [], calls := [] } := fun c hc => absurd hc not_mem_nil
  unfold exec
  rw [wp_bind, wp_modify]
  refine wp_ite (fun _ => hok _ _ hstart) fun _ => ?_
  refine wp_ite (fun _ => hok _ _ hstart) fun _ => ?_
  refine wp_ite (fun _ => hok _ _ hstart) fun _ => ?_
  rw [wp_bind]
  refine setupkvm_ready_wp hfree rfl hstart (fun s' hs' => hok _ s' hs') fun d s₁ h₁ => ?_
  rw [wp_bind]
  refine loadSegments_ready_wp (Nat.zero_le _) h₁ (fun d' _ s' hd' hs' => ?_)
    fun d' sz' s' hsz' h' => ?_
  · exact execBad_ready_wp hd' hs' hok
  · dsimp only
    unfold finishExec
    rw [wp_bind]
    refine buildStack_ready_wp hsz' h' fun ok d'' sz'' s'' hd'' hs'' => ?_
    cases ok with
    | false => exact execBad_ready_wp hd'' hs'' hok
    | true =>
      rw [wp_bind]
      exact freevm_good_wp hold fun t hc => hok _ t (hs''.of_calls hc)

end

/-! ### The header -/

theorem readi_result (f : ExeFile) (off n : Nat) :
    (f.readi off n).1 = -1 ∨ 0 ≤ (f.readi off n).1 ∧ (f.readi off n).1 ≤ n := by
  cases f with
  | disk bytes =>
    unfold ExeFile.readi
    dsimp only
    split
    · exact Or.inl rfl
    · right
      dsimp only
      have hmod : (off + n) % ADDRESSES ≤ off + n := Nat.mod_le _ _
      split <;> omega
  | dev reads =>
    cases reads with
    | nil => exact Or.inl rfl
    | cons r rs =>
      unfold ExeFile.readi
      dsimp only
      split
      · exact Or.inl rfl
      · right
        have hlen : (r.bytes.take n).length ≤ n := length_take_le ..
        omega

/-- The header test lets exactly -1 pass besides a full read. -/
theorem headerPassed_iff (f : ExeFile) :
    (headerPassed (f.readi 0 ELFHDRSIZE).1 → (f.readi 0 ELFHDRSIZE).1 = ELFHDRSIZE) ↔
      (f.readi 0 ELFHDRSIZE).1 ≠ -1 := by
  have hresult := readi_result f 0 ELFHDRSIZE
  generalize (f.readi 0 ELFHDRSIZE).1 = r at hresult ⊢
  unfold headerPassed
  unfold ELFHDRSIZE at *
  omega

/-! ### Safety -/

theorem goodDir_emptyDir : GoodDir smallKernel emptyDir := by
  intro p hp
  unfold emptyDir at hp
  rw [owned_new] at hp
  by_cases heq : 0x200000 = p
  · rw [← heq]
    exact ⟨by decide, by decide, by decide⟩
  · have hzero : one 0x200000 p = 0 := if_neg heq
    omega

/-- The page tables among `T` that a directory does not have. -/
def missing (T : Finset Nat) (d : PageDir) : Finset Nat := T.filter fun i => (d.tables i).isNone

/-- There are `n` free pages besides one for each page table of `T` that is to come. -/
def Spare (T : Finset Nat) (n : Nat) (d : PageDir) (s : Kmem) : Prop :=
  s.free.length = (missing T d).card + n

/-- The page tables of the kernel's mappings are among `T`. -/
def KernelTables (K : KernelImage) (T : Finset Nat) : Prop :=
  ∀ k ∈ kmap K, ∀ x, k.virt ≤ x →
    x < k.virt + (k.physEnd + ADDRESSES - k.physStart) % ADDRESSES → PDX x ∈ T

theorem kernelTables_all (K : KernelImage) : KernelTables K (Finset.range NPDENTRIES) := by
  intro k hk x _ hx
  have hfits := (kmap_ok K k hk).fits
  exact Finset.mem_range.mpr (pdx_lt (by omega))

section

variable {E : VmPanic → Kmem → Prop} (hE : ∀ e t, E e t)

theorem missing_addTable (page : Nat) (hva : PDX va ∈ T) (ht : (d.tables (PDX va)).isSome = false) :
    (missing T (d.addTable va page)).card + 1 = (missing T d).card := by
  have hmem : PDX va ∈ missing T d := by
    unfold missing
    rw [Finset.mem_filter]
    exact ⟨hva, by simpa using ht⟩
  have herase : missing T (d.addTable va page) = (missing T d).erase (PDX va) := by
    ext i
    unfold missing addTable
    simp only [Finset.mem_erase, Finset.mem_filter, Function.update_apply]
    by_cases hi : i = PDX va
    · simp [hi]
    · simp [hi]
  rw [herase, Finset.card_erase_add_one hmem]

theorem missing_setPte : missing T (d.setPte va e) = missing T d := by
  refine Finset.filter_congr fun i _ => ?_
  have hsome : ((d.setPte va e).tables i).isSome = (d.tables i).isSome := isSome_tables_setPte i
  rw [← Option.not_isSome, ← Option.not_isSome, hsome]

theorem walkpgdir_spare_wp (hva : PDX va ∈ T) (h : Spare T n d s)
    (hok : ∀ d' s', Spare T n d' s' → P (some d') s') : wp (walkpgdir d va true) P E s := by
  refine wp_ite (fun _ => hok d s h) fun hn => ?_
  have ht : (d.tables (PDX va)).isSome = false := by simpa using hn
  have hmissing := missing_addTable 0 hva ht
  rw [if_pos rfl, wp_bind]
  refine kalloc_pop_wp (fun hnil => ?_) fun page ps hf => ?_
  · unfold Spare at h
    rw [hnil, length_nil] at h
    omega
  · refine hok _ _ ?_
    have hmissing := missing_addTable page hva ht
    unfold Spare at h ⊢
    rw [hf, length_cons] at h
    dsimp only
    omega

include hE

theorem mapLoop_spare_wp {P : Bool × PageDir → Kmem → Prop} {w : Bool} {a : Nat}
    (hend : a + k * PGSIZE < ADDRESSES) (hT : ∀ i ≤ k, PDX (a + i * PGSIZE) ∈ T) (h : Spare T n d s)
    (hok : ∀ d' s', Spare T n d' s' → P (true, d') s') : wp (mapLoop w u k d a pa) P E s := by
  refine mapLoop_rule (I := fun _ d s => Spare T n d s) hend h
    (fun j d s Q hj _ h _ hsome => ?_) hok
  refine walkpgdir_spare_wp (hT j hj) h fun d' s' h' => hsome d' s' (fun _ => hE _ _) fun _ => ?_
  unfold Spare
  rw [missing_setPte]
  exact h'

theorem mapKernel_spare_wp (hks : ∀ k ∈ ks, KmapOk k) (hT : ∀ k ∈ ks, ∀ x, k.virt ≤ x →
      x < k.virt + (k.physEnd + ADDRESSES - k.physStart) % ADDRESSES → PDX x ∈ T)
    (h : Spare T n d s) (hok : ∀ d' s', Spare T n d' s' → P (some d') s') :
    wp (mapKernel ks d) P E s := by
  induction ks generalizing s d with
  | nil => exact hok d s h
  | cons k ks ih =>
    have hk := hks k mem_cons_self
    have hfits := hk.fits
    have hpage : 0 < PGSIZE := by decide
    -- the last page starts below the end
    have hlast : ((k.physEnd + ADDRESSES - k.physStart) % ADDRESSES / PGSIZE - 1) * PGSIZE <
        (k.physEnd + ADDRESSES - k.physStart) % ADDRESSES := by
      have hpos := hk.pos
      have hsub := Nat.div_mul_le_self ((k.physEnd + ADDRESSES - k.physStart) % ADDRESSES) PGSIZE
      rw [Nat.sub_mul]
      omega
    unfold mapKernel
    rw [wp_bind, mappages_eq_mapLoop hk.aligned hk.size hk.pos hk.fits]
    refine mapLoop_spare_wp hE (by omega) (fun i hi => ?_) h fun d' s' h' => ?_
    · have hmul := Nat.mul_le_mul_right PGSIZE hi
      exact hT k mem_cons_self _ (Nat.le_add_right _ _) (by omega)
    · exact ih (fun k hk => hks k (mem_cons_of_mem _ hk))
        (fun k hk => hT k (mem_cons_of_mem _ hk)) h'

theorem setupkvm_spare_wp (hT : KernelTables K T) (hfree : s.free.length = T.card + 1 + n)
    (hok : ∀ d s', Spare T n d s' → P (some d) s') : wp (setupkvm K) P E s := by
  unfold setupkvm
  rw [wp_bind]
  refine kalloc_pop_wp (fun hnil => ?_) fun page ps hf => ?_
  · rw [hnil, length_nil] at hfree
    omega
  · refine mapKernel_spare_wp hE (kmap_ok K) hT ?_ hok
    have hcard : (missing T ⟨page, fun _ => none⟩).card = T.card := by
      exact congrArg Finset.card (Finset.filter_true_of_mem fun _ _ => rfl)
    unfold Spare
    rw [hf, length_cons] at hfree
    dsimp only
    omega

omit hE in
/-- The first page of the image, when there is a free page. -/
theorem allocuvm_one_wp {P : Nat × PageDir → Kmem → Prop} (h : Ready K d 0 s)
    (hfree : s.free ≠ []) (hok : ∀ d' s', P (1, d') s') : wp (allocuvm K d 0 1) P E s := by
  have hfuel : ADDRESSES / PGSIZE = 0xFFFFE + 2 := by decide
  unfold allocuvm
  rw [if_neg (by decide), if_neg (by decide), hfuel]
  generalize 0xFFFFE = fuel
  have hdone : ∀ d' s', wp (allocLoop K 0 1 (fuel + 1) d' (pgRoundUp 0 + PGSIZE)) P E s' := by
    intro d' s'
    unfold allocLoop
    rw [if_neg (by decide)]
    exact hok d' s'
  unfold allocLoop
  rw [if_pos (by decide), wp_bind]
  refine kalloc_pop_wp (fun hnil => absurd hnil hfree) fun mem ps hf => ?_
  rw [wp_bind, wp_modify, wp_bind]
  exact mapPage_ready_wp (by decide) (by decide) (h.take hf) mem_cons_self
    (fun _ => hdone _ _) fun d' s' _ _ _ => hdone d' s'

omit hE in
theorem loaduvm_misaligned_wp {P : Bool × ExeFile → Kmem → Prop} {addr sz : Nat} {f : ExeFile}
    (haddr : addr % PGSIZE ≠ 0) (hpanic : ∀ t, E .notAligned t) :
    wp (loaduvm d addr f offset sz) P E s := by
  unfold loaduvm
  generalize ADDRESSES / PGSIZE + 1 = fuel
  rw [wp_bind]
  refine recordCall_wp ?_
  rw [if_pos haddr, wp_bind]
  exact hpanic _

omit hE in
/-- A file with one segment of one byte at a misaligned address. -/
theorem exec_misaligned_wp {P : Option (PageDir × Nat) → Kmem → Prop} {f f₁ f₂ : ExeFile}
    {hdr phdr : List Byte} {phoff : Nat} (hperm : args.permitted = true)
    (hhdr : f.readi 0 ELFHDRSIZE = ((ELFHDRSIZE : Int), hdr, f₁))
    (hmagic : (elfHdr (hdr ++ args.garbage.drop hdr.length)).magic = ELF_MAGIC)
    (hphoff : (elfHdr (hdr ++ args.garbage.drop hdr.length)).phoff = phoff)
    (hphnum : (elfHdr (hdr ++ args.garbage.drop hdr.length)).phnum = 1)
    (hphdr : f₁.readi phoff PROGHDRSIZE = ((PROGHDRSIZE : Int), phdr, f₂))
    (htype : (progHdr phdr).type = ELF_PROG_LOAD)
    (hmemsz : (progHdr phdr).filesz ≤ (progHdr phdr).memsz)
    (hend : ((progHdr phdr).vaddr + (progHdr phdr).memsz) % ADDRESSES = 1)
    (hvaddr : (progHdr phdr).vaddr % PGSIZE ≠ 0) (hfree : GoodFree K s)
    (hmany : NPDENTRIES + 1 < s.free.length) (hpanic : ∀ t, E .notAligned t) :
    wp (exec K args f oldpgdir) P E s := by
  have hpassed : ¬ ¬ headerPassed ELFHDRSIZE := by decide
  have hready : wp (setupkvm K) (fun r t => ∀ d, r = some d → Ready K d 0 t) (fun _ _ => False)
      { s with user := [], calls := [] } :=
    setupkvm_ready_wp hfree rfl (fun c hc => absurd hc not_mem_nil)
      (fun _ _ _ hd => nomatch hd) fun d t h _ hd => Option.some.inj hd ▸ h
  obtain ⟨n, hn⟩ := Nat.exists_eq_add_of_le (Nat.succ_le_of_lt hmany)
  have hspare : wp (setupkvm K) (fun r t => ∃ d, r = some d ∧
      Spare (Finset.range NPDENTRIES) (1 + n) d t) (fun _ _ => True)
      { s with user := [], calls := [] } := by
    refine setupkvm_spare_wp (fun _ _ => trivial) (kernelTables_all K) ?_ fun d t h => ⟨d, rfl, h⟩
    rw [Finset.card_range]
    exact hn.trans (Nat.add_assoc _ 1 n)
  unfold exec
  rw [wp_bind, wp_modify, if_neg (by rw [hperm]; decide), hhdr]
  dsimp only
  rw [if_neg hpassed, if_neg (not_not.mpr hmagic), wp_bind]
  refine wp_mono (wp_and hready hspare) ?_ fun e t h => h.1.elim
  rintro r t ⟨hready, d, rfl, hspare⟩
  rw [hphnum, hphoff, wp_bind]
  unfold loadSegments
  rw [hphdr]
  dsimp only
  rw [if_neg (not_not.mpr rfl), if_neg (not_not.mpr htype), if_neg (Nat.not_lt.mpr hmemsz), hend,
    wp_bind]
  have hpos : 0 < t.free.length := by
    unfold Spare at hspare
    omega
  refine allocuvm_one_wp (hready d rfl) (ne_nil_of_length_pos hpos) fun d' s' => ?_
  rw [if_neg Nat.one_ne_zero, wp_bind]
  exact loaduvm_misaligned_wp hvaddr hpanic

end

/-- An ELF header for one program header, which follows it. -/
def oneSegmentHdr : List Byte :=
  [0x7F, 0x45, 0x4C, 0x46] ++ List.replicate 24 0 ++ [52, 0, 0, 0] ++ List.replicate 12 0 ++
    [1, 0] ++ List.replicate 6 0

/-- A program header with the address 1 and no bytes. -/
def misalignedHdr : List Byte :=
  [1, 0, 0, 0] ++ List.replicate 4 0 ++ [1, 0, 0, 0] ++ List.replicate 20 0

def misalignedFile : ExeFile := .disk (oneSegmentHdr ++ misalignedHdr)

/-- Two thousand free pages from `0x400000` on. -/
def manyPages : Kmem := ⟨(List.range 2000).map fun i => 0x400000 + i * PGSIZE, false, [], []⟩

theorem goodFree_manyPages : GoodFree smallKernel manyPages := by
  intro p hp
  simp only [manyPages, mem_map, mem_range] at hp
  obtain ⟨i, hi, rfl⟩ := hp
  have hkend : smallKernel.kend = 0x110000 := rfl
  refine ⟨?_, ?_, ?_⟩
  · unfold PGSIZE
    omega
  · rw [hkend]
    omega
  · unfold PGSIZE PHYSTOP
    omega

theorem manyPages_length : NPDENTRIES + 1 < manyPages.free.length := by
  unfold manyPages NPDENTRIES
  rw [length_map, length_range]
  omega

end Xv6Kernel
