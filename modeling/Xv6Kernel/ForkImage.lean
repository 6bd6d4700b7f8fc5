/-
  ForkImage.lean
  ==============
  The mappings of `setupkvm`, and `copyuvm`.

  All directories have the same kernel part: `setupkvm` maps the ranges of `kmap`, and the result
  depends on nothing but the addresses of the kernel (`kernelPte`).  `copyuvm` puts copies of the
  user pages below it, each in a frame that was free before.
-/
import Xv6Kernel.UserSpace

namespace Xv6Kernel

open PanicMonad Function List

/-! ### The kernel part -/

/-- The bytes of a range of `kmap`. -/
def Kmap.size (k : Kmap) : Nat := (k.physEnd + ADDRESSES - k.physStart) % ADDRESSES

/-- The entry of the page `x` after the ranges `ks` have been mapped, if it was `e` before. -/
def rangesPte (ks : List Kmap) (x : Nat) (e : Option Pte) : Option Pte :=
  ks.foldl (fun e k => if k.virt ≤ x ∧ x < k.virt + k.size then
    some ⟨k.physStart + (x - k.virt), k.w, false⟩ else e) e

/-- The entry of the page `x` in a directory of `setupkvm`. -/
def kernelPte (K : KernelImage) (x : Nat) : Option Pte := rangesPte (kmap K) x none

section

variable {E : VmPanic → Kmem → Prop}

/-- Pages have been mapped one after the other from `a` on. -/
structure MappedRange (d : PageDir) (s : Kmem) (a k pa : Nat) (w u : Bool) (d' : PageDir)
    (s' : Kmem) : Prop where
  getPte : ∀ x, x % PGSIZE = 0 → d'.getPte x =
    if a ≤ x ∧ x < a + (k + 1) * PGSIZE then some ⟨pa + (x - a), w, u⟩ else d.getPte x
  user : s'.user = s.user

variable (hE : ∀ e t, E e t)
include hE

theorem mapLoop_range_wp {k : Nat} (ha : a % PGSIZE = 0)
    (hk : a + k * PGSIZE < ADDRESSES) (hfail : ∀ d' s', P (false, d') s')
    (hok : ∀ d' s', MappedRange d s a k pa w u d' s' → P (true, d') s') :
    wp (mapLoop w u k d a pa) P E s := by
  refine mapLoop_rule (I := fun j d' s' => (∀ x, x % PGSIZE = 0 → d'.getPte x =
      if a ≤ x ∧ x < a + j * PGSIZE then some ⟨pa + (x - a), w, u⟩ else d.getPte x) ∧
      s'.user = s.user) hk ⟨fun x _ => (if_neg (by omega)).symm, rfl⟩
    (fun j d₁ s₁ Q _ hlt hI hnone hsome => ?_) fun d' s' hI => hok d' s' ⟨hI.1, hI.2⟩
  have hal : (a + j * PGSIZE) % PGSIZE = 0 := by rw [Nat.add_mul_mod_self_right, ha]
  refine walkpgdir_alloc_wp hlt (fun _ _ _ _ => hnone _ (hfail _ _)) fun d₂ s₂ _ hu ht hget =>
    hsome d₂ s₂ (fun _ => hE _ _) fun _ => ⟨fun x hx => ?_, hu.trans hI.2⟩
  have hpos := page_pos
  rw [Nat.succ_mul, ← Nat.add_assoc]
  by_cases heq : x = a + j * PGSIZE
  · rw [heq, PageDir.getPte_setPte_self ht, if_pos (by omega), Nat.add_sub_cancel_left]
  · rw [PageDir.getPte_setPte_of_ne (page_ne hx hal heq), hget, hI.1 x hx]
    by_cases hlow : a ≤ x ∧ x < a + j * PGSIZE
    · rw [if_pos hlow, if_pos (by omega)]
    · have hnext := next_page_le hal hx
      rw [if_neg hlow, if_neg (by omega)]

theorem mapKernel_ranges_wp (hks : ∀ k ∈ ks, KmapOk k) (hfail : ∀ s', P none s')
    (hok : ∀ d' s', (∀ x, x % PGSIZE = 0 → d'.getPte x = rangesPte ks x (d.getPte x)) →
      s'.user = s.user → P (some d') s') :
    wp (mapKernel ks d) P E s := by
  induction ks generalizing s d with
  | nil => exact hok d s (fun _ _ => rfl) rfl
  | cons k ks ih =>
    have hk := hks k mem_cons_self
    have hsize : (k.size / PGSIZE - 1 + 1) * PGSIZE = k.size := by
      have hmod : k.size % PGSIZE = 0 := hk.size
      have hpos : 0 < k.size := hk.pos
      unfold PGSIZE at *
      omega
    have hfits : k.virt + k.size ≤ ADDRESSES := hk.fits
    unfold mapKernel
    rw [wp_bind, mappages_eq_mapLoop hk.aligned hk.size hk.pos hk.fits]
    refine mapLoop_range_wp hE hk.aligned ?_ (fun _ s' => hfail s') fun d₁ s₁ h => ?_
    · change k.virt + (k.size / PGSIZE - 1) * PGSIZE < ADDRESSES
      rw [Nat.succ_mul] at hsize
      have hpos := page_pos
      omega
    · refine ih (fun k hk => hks k (mem_cons_of_mem _ hk)) fun d' s' hget hu => ?_
      refine hok d' s' (fun x hx => ?_) (hu.trans h.user)
      have hone := h.getPte x hx
      rw [show (k.physEnd + ADDRESSES - k.physStart) % ADDRESSES = k.size from rfl, hsize] at hone
      rw [hget x hx, hone]
      rfl

theorem setupkvm_pages_wp (hfail : ∀ s', P none s')
    (hok : ∀ d s', (∀ x, x % PGSIZE = 0 → d.getPte x = kernelPte K x) → s'.user = s.user →
      P (some d) s') : wp (setupkvm K) P E s := by
  unfold setupkvm
  rw [wp_bind]
  refine kalloc_pop_wp (fun _ => hfail s) fun page ps _ => ?_
  exact mapKernel_ranges_wp hE (kmap_ok K) hfail hok

end

variable {x : Nat}

theorem rangesPte_of_lt (h : ∀ k ∈ ks, x < k.virt) : rangesPte ks x e = e := by
  induction ks generalizing e with
  | nil => rfl
  | cons k ks ih =>
    have hk : ¬ (k.virt ≤ x ∧ x < k.virt + k.size) := by
      have hlt := h k mem_cons_self
      omega
    unfold rangesPte
    rw [foldl_cons, if_neg hk]
    exact ih fun k hk => h k (mem_cons_of_mem _ hk)

/-- The kernel maps nothing in the user part. -/
theorem kernelPte_user (K : KernelImage) (hx : x < KERNBASE) : kernelPte K x = none :=
  rangesPte_of_lt fun k hk => Nat.lt_of_lt_of_le hx (kmap_ok K k hk).virt

theorem rangesPte_user
    (he : ∀ q, e = some q → q.u = false) (h : rangesPte ks x e = some q) : q.u = false := by
  induction ks generalizing e with
  | nil => exact he q h
  | cons k ks ih =>
    unfold rangesPte at h
    rw [foldl_cons] at h
    refine ih (e := _) (fun q' hq' => ?_) h
    split at hq'
    · rw [← Option.some.inj hq']
    · exact he q' hq'

/-- The kernel's pages are not for users. -/
theorem kernelPte_not_user (h : kernelPte K x = some e) : e.u = false :=
  rangesPte_user (fun _ hq => absurd hq.symm (Option.some_ne_none _)) h

/-- A directory of `setupkvm`. -/
structure FreshDir (K : KernelImage) (s : Kmem) (d : PageDir) (s' : Kmem) : Prop where
  pages : ∀ x, x % PGSIZE = 0 → d.getPte x = kernelPte K x
  moves : Moves s (fun _ => 0) s' (owned d)
  user : s'.user = s.user

theorem setupkvm_fresh_wp (hE : ∀ e t, E e t) (hfail : ∀ s', P none s')
    (hok : ∀ d s', FreshDir K s d s' → P (some d) s') : wp (setupkvm K) P E s := by
  have hpages : wp (setupkvm K) (fun r s' => ∀ d, r = some d →
      (∀ x, x % PGSIZE = 0 → d.getPte x = kernelPte K x) ∧ s'.user = s.user) (fun _ _ => True) s :=
    setupkvm_pages_wp (fun _ _ => trivial) (fun _ d hd => absurd hd.symm (Option.some_ne_none d))
      fun d s' hget hu d' hd => by
        rw [← Option.some.inj hd]
        exact ⟨hget, hu⟩
  have hmoves : wp (setupkvm K) (fun r s' => ∀ d, r = some d →
      Moves s (fun _ => 0) s' (owned d)) (fun _ _ => True) s :=
    setupkvm_wp (fun _ _ => trivial) (fun _ _ d hd => absurd hd.symm (Option.some_ne_none d))
      fun d s' hm d' hd => by
        rw [← Option.some.inj hd]
        exact hm
  refine wp_mono (wp_and hpages hmoves) (fun r s' h => ?_) fun e t _ => hE e t
  cases r with
  | none => exact hfail s'
  | some d => exact hok d s' ⟨(h.1 d rfl).1, h.2 d rfl, (h.1 d rfl).2⟩

section

variable {K : KernelImage} {s s' : Kmem} {d : PageDir}

section

variable (h : FreshDir K s d s')

include h

theorem FreshDir.free_sub : ∀ p ∈ s'.free, p ∈ s.free := by
  intro p hp
  have hcount := h.moves.count p
  have hpos := count_pos_iff.mpr hp
  exact count_pos_iff.mp (by omega)

theorem FreshDir.sound (hnodup : ∀ p, s.free.count p ≤ 1)
    (hfree : GoodFree K s) : Sound K d s' := by
  refine ⟨fun p => ?_, fun p hp => hfree p (h.free_sub p hp), fun p hp => hfree p ?_⟩
  · have hcount := h.moves.count p
    have hone := hnodup p
    omega
  · have hcount := h.moves.count p
    exact count_pos_iff.mp (by omega)

theorem FreshDir.getPte (x : Nat) : d.getPte x = kernelPte K (pgRoundDown x) := by
  rw [← Ram.getPte_pgRoundDown]
  exact h.pages _ (Ram.pgRoundDown_aligned x)

theorem FreshDir.getPte_user (hx : x < KERNBASE) : d.getPte x = none := by
  rw [h.getPte]
  exact kernelPte_user K (Nat.lt_of_le_of_lt (Nat.div_mul_le_self x PGSIZE) hx)

/-- All directories of `setupkvm` have the same mappings. -/
theorem FreshDir.unique
    (hrun : setupkvm K t = .ok (some d₂) t') (x : Nat) : d₂.getPte x = d.getPte x := by
  have hwp : wp (setupkvm K) (fun r _ => ∀ d', r = some d' →
      ∀ x, x % PGSIZE = 0 → d'.getPte x = kernelPte K x) (fun _ _ => True) t :=
    setupkvm_pages_wp (fun _ _ => trivial) (fun _ d hd => absurd hd.symm (Option.some_ne_none d))
      fun d s' hget _ d' hd => by
        rw [← Option.some.inj hd]
        exact hget
  rw [h.getPte, ← Ram.getPte_pgRoundDown]
  exact post_of_ok hwp hrun d₂ rfl _ (Ram.pgRoundDown_aligned x)

end

theorem Sound.free_nodup (h : Sound K d s) (p : Nat) : s.free.count p ≤ 1 := by
  have hexcl := h.excl p
  omega

end

namespace Ram

/-! ### `copyuvm` -/

/-- `copyuvm` at the page `i`; `s₀` is the state after `setupkvm` has made `d₀`. -/
structure Copying (src d₀ : PageDir) (s₀ : Ram) (i : Nat) (d : PageDir) (s : Ram) : Prop where
  count : ∀ p, s₀.free.count p + owned d₀ p = s.free.count p + owned d p
  pages : ∀ x, x % PGSIZE = 0 → x < i → ∃ e f, src.getPte x = some e ∧ f ∈ s₀.free ∧
    d.getPte x = some ⟨f, e.w, e.u⟩ ∧ s.bytes f = s₀.bytes e.pa
  others : ∀ x, x % PGSIZE = 0 → i ≤ x → d.getPte x = d₀.getPte x
  bytes : ∀ p, p ∉ s₀.free → s.bytes p = s₀.bytes p
  free : ∀ p ∈ s.free, p ∈ s₀.free

section

variable {d : PageDir} {s' : Ram}

theorem Copying.start : Copying src d₀ s₀ 0 d₀ s₀ :=
  ⟨fun _ => rfl, fun _ _ hlt => absurd hlt (Nat.not_lt_zero _), fun _ _ _ => rfl, fun _ _ => rfl,
    fun _ h => h⟩

theorem Copying.step (h : Copying src d₀ s₀ i d s)
    (hs : Sound K d₀ s₀.toKmem) (hi : i < KERNBASE) (halign : i % PGSIZE = 0)
    (hsrc : src.getPte i = some e) (hapart : e.pa ∉ s₀.free) (hfree : s.free = mem :: ps)
    (hm : Mapped d { s.toKmem with free := ps } i ⟨mem, e.w, e.u⟩ d' s'.toKmem)
    (hbytes : s'.bytes = update s.bytes mem (s.bytes e.pa)) :
    Copying src d₀ s₀ (i + PGSIZE) d' s' := by
  have hpos := page_pos
  have hmem : mem ∈ s₀.free := h.free mem (by rw [hfree]; exact mem_cons_self)
  have hother : ∀ x, x % PGSIZE = 0 → x ≠ i → d'.getPte x = d.getPte x :=
    fun x hx hne => hm.others x (page_ne hx halign hne)
  refine ⟨fun p => ?_, fun x hx hlt => ?_, fun x hx hle => ?_, fun p hp => ?_, fun p hp => ?_⟩
  · have hcount := hm.moves.count p
    have hcount' := h.count p
    rw [hfree, count_cons_one] at hcount'
    dsimp only at hcount
    omega
  · by_cases heq : x = i
    · rw [heq]
      refine ⟨e, mem, hsrc, hmem, hm.self, ?_⟩
      rw [hbytes, update_self]
      exact h.bytes e.pa hapart
    · have hlt' : x < i := by
        by_contra hge
        have hnext := next_page_le halign hx (by omega)
        omega
      obtain ⟨e', f, hsrc', hf, hget, hcopy⟩ := h.pages x hx hlt'
      refine ⟨e', f, hsrc', hf, (hother x hx heq).trans hget, ?_⟩
      -- a frame of the copy is not on the free list
      have hne : f ≠ mem := by
        intro hfm
        have howned := owned_frame_pos (hlt'.trans hi) hget
        have hcount := h.count mem
        have hexcl := hs.excl mem
        rw [hfree, count_cons_one, one, if_pos rfl] at hcount
        rw [show (⟨f, e'.w, e'.u⟩ : Pte).pa = mem from hfm] at howned
        omega
      rw [hbytes, update_of_ne hne]
      exact hcopy
  · rw [hother x hx (by omega)]
    exact h.others x hx (by omega)
  · have hne : p ≠ mem := fun heq => hp (by rw [heq]; exact hmem)
    rw [hbytes, update_of_ne hne]
    exact h.bytes p hp
  · refine h.free p ?_
    rw [hfree]
    exact mem_cons_of_mem _ (hm.suffix.subset hp)

theorem copyPages_wp (hE : ∀ e t, E e t) (hs : Sound K d₀ s₀.toKmem)
    (hsz : sz < KERNBASE) (hclear : ∀ x < KERNBASE, d₀.getPte x = none)
    (hapart : ∀ x e, x < KERNBASE → src.getPte x = some e → e.pa ∉ s₀.free)
    (halign : i % PGSIZE = 0) (hfuel : sz ≤ i + fuel * PGSIZE) (h : Copying src d₀ s₀ i d s)
    (hfail : ∀ s', P none s')
    (hok : ∀ i' d' s', i' % PGSIZE = 0 → sz ≤ i' → i' < sz + PGSIZE ∨ i' = i →
      Copying src d₀ s₀ i' d' s' → P (some d') s') : wp (copyPages K src sz fuel d i) P E s := by
  induction fuel generalizing d s i with
  | zero => exact hok i d s halign (by omega) (Or.inr rfl) h
  | succ fuel ih =>
    rw [Nat.succ_mul] at hfuel
    refine wp_ite (fun hlt => ?_) fun hge => hok i d s halign (by omega) (Or.inr rfl) h
    have hi : i < KERNBASE := hlt.trans hsz
    unfold lift
    rw [wp_bind, wp_zoom]
    refine walkpgdir_find_wp (fun _ => hE _ _) fun _ => ?_
    dsimp only
    cases hget : src.getPte i with
    | none => exact hE _ _
    | some e =>
      have hfree : ∀ d'' s'', wp (freevm K d'' >>= fun _ => pure none) P E s'' := by
        intro d'' s''
        rw [wp_bind]
        exact wp_of_forall (fun _ s' => hfail s') hE
      dsimp only
      rw [wp_bind, wp_zoom]
      refine kalloc_pop_wp (fun _ => hfree d _) fun mem ps hps => ?_
      rw [wp_bind, wp_get]
      unfold setPage
      rw [wp_bind, wp_modify, wp_bind, wp_zoom]
      have hnone : d.getPte i = none := (h.others i halign le_rfl).trans (hclear i hi)
      refine mapPage_wp hi halign hnone (fun _ _ => hfree d _) fun d' k hk => ?_
      refine ih (next_page_aligned halign) (by omega)
        (h.step hs hi halign hget (hapart i e hi hget) hps hk rfl)
        fun i' d'' s'' hal hle hor => hok i' d'' s'' hal hle (by omega)

/-- `d` is a copy of the user memory of `src`. -/
structure Duplicate (K : KernelImage) (src : PageDir) (sz : Nat) (s : Ram) (d : PageDir)
    (s' : Ram) : Prop where
  pages : ∀ x, x % PGSIZE = 0 → x < sz → ∃ e f, src.getPte x = some e ∧
    d.getPte x = some ⟨f, e.w, e.u⟩ ∧ s'.bytes f = s.bytes e.pa
  above : ∀ x, pgRoundUp sz ≤ x → x < KERNBASE → d.getPte x = none
  -- no page of `src`, frame or table, is one of `d`, and none has changed
  apart : ∀ p, 0 < owned src p → owned d p = 0 ∧ s'.bytes p = s.bytes p
  frames : ∀ x y e e', x % PGSIZE = 0 → x < KERNBASE → y % PGSIZE = 0 → y < KERNBASE →
    d.getPte x = some e → d.getPte y = some e' → e'.pa = e.pa → y = x
  -- the kernel part is that of every directory of `setupkvm`
  kernel : ∀ t d₂ t', setupkvm K t = .ok (some d₂) t' → ∀ x, KERNBASE ≤ x →
    d.getPte x = d₂.getPte x

/-- The copy is complete. -/
theorem Copying.duplicate (h : Copying src d₀ { s with toKmem := k } (pgRoundUp sz) d s')
    (hs : Sound K src s.toKmem) (hfresh : FreshDir K s.toKmem d₀ k) (hsz : sz < KERNBASE) :
    Duplicate K src sz s d s' := by
  have hround := le_pgRoundUp hsz
  have hkern := pgRoundUp_le_kernbase hsz
  have hsound : Sound K d s'.toKmem := (hfresh.sound hs.free_nodup hs.free).moves fun p => h.count p
  have habove : ∀ x, pgRoundUp sz ≤ x → d.getPte x = d₀.getPte x := by
    intro x hx
    rw [← getPte_pgRoundDown (d := d), ← getPte_pgRoundDown (d := d₀)]
    refine h.others _ (pgRoundDown_aligned x) (Nat.le_of_not_lt fun hlt => ?_)
    have hno := (pgRoundDown_lt_iff (pgRoundUp_aligned sz)).mp hlt
    omega
  refine ⟨fun x hx hlt => ?_, fun x hle hlt => ?_, fun p hp => ?_, ?_, fun t d₂ t' hrun x hx => ?_⟩
  · obtain ⟨e, f, hsrc, _, hget, hbytes⟩ := h.pages x hx (by omega)
    exact ⟨e, f, hsrc, hget, hbytes⟩
  · exact (habove x hle).trans (hfresh.getPte_user hlt)
  · have hexcl := hs.excl p
    have hcount := hfresh.moves.count p
    have hcount' := h.count p
    dsimp only at hcount'
    refine ⟨by omega, h.bytes p fun hmem => ?_⟩
    have hpos := count_pos_iff.mpr (hfresh.free_sub p hmem)
    omega
  · intro x y e e' hx hxk hy hyk hgetx hgety hpa
    have hpage := hsound.frame_inj hxk hyk hgetx hgety hpa
    by_contra hne
    exact page_ne hy hx hne hpage
  · rw [habove x (by omega), hfresh.unique hrun]

theorem copyuvm_wp (hE : ∀ e t, E e t) (hs : Sound K src s.toKmem) (hsz : sz < KERNBASE)
    (hfail : ∀ s', P none s') (hok : ∀ d s', Duplicate K src sz s d s' → P (some d) s') :
    wp (copyuvm K src sz) P E s := by
  have hfuel : sz ≤ 0 + ADDRESSES / PGSIZE * PGSIZE := by
    have hall : ADDRESSES / PGSIZE * PGSIZE = ADDRESSES := by decide
    have haddr : KERNBASE ≤ ADDRESSES := by decide
    omega
  unfold copyuvm lift
  rw [wp_bind, wp_zoom]
  refine setupkvm_fresh_wp (fun e t => hE e _) (fun _ => hfail _) fun d₀ k hfresh => ?_
  have hsound : Sound K d₀ k := hfresh.sound hs.free_nodup hs.free
  have hsub : ∀ p ∈ k.free, p ∈ s.free := hfresh.free_sub
  have hstart : Copying src d₀ { s with toKmem := k } 0 d₀ { s with toKmem := k } := .start
  refine copyPages_wp hE hsound hsz (fun x hx => ?_)
    (fun x e hx he hmem => hs.frame_notMem hx he (hsub _ hmem)) (Nat.zero_mod _) hfuel hstart hfail
    fun i' d s' hal hle hor h => hok d s' ?_
  · exact hfresh.getPte_user hx
  · have hi : i' = pgRoundUp sz := alloc_end (Nat.zero_le sz) hsz hal hle hor
    rw [hi] at h
    exact h.duplicate hs hfresh hsz

/-- What `copyuvm` returns is a copy of the user memory. -/
theorem copyuvm_duplicates (K : KernelImage) (src : PageDir) (sz : Nat) (s : Ram)
    (hsz : sz < KERNBASE) (hs : Sound K src s.toKmem) (d : PageDir) (s' : Ram)
    (hrun : copyuvm K src sz s = .ok (some d) s') : Duplicate K src sz s d s' := by
  have hwp : wp (copyuvm K src sz) (fun r t => ∀ d, r = some d → Duplicate K src sz s d t)
      (fun _ _ => True) s :=
    copyuvm_wp (fun _ _ => trivial) hs hsz (fun _ d hd => absurd hd.symm (Option.some_ne_none d))
      fun d t h d' hd => by
        rw [← Option.some.inj hd]
        exact h
  exact post_of_ok hwp hrun d rfl

/-- With enough memory the copy succeeds. -/
theorem copyPages_spare_wp (hsz : sz < KERNBASE)
    (halign : i % PGSIZE = 0) (hT : ∀ x < sz, PDX x ∈ T)
    (hpresent : ∀ x, x % PGSIZE = 0 → x < sz → (src.getPte x).isSome = true)
    (hclear : ∀ x, i ≤ x → x < KERNBASE → d.getPte x = none) (hn : sz ≤ i + n * PGSIZE)
    (hspare : Spare T n d s.toKmem) (hok : ∀ d' s', P (some d') s') :
    wp (copyPages K src sz fuel d i) P E s := by
  induction fuel generalizing d s i n with
  | zero => exact hok d s
  | succ fuel ih =>
    refine wp_ite (fun hlt => ?_) fun _ => hok d s
    have hi : i < KERNBASE := hlt.trans hsz
    have hsome := hpresent i halign hlt
    obtain ⟨e, hget⟩ := Option.isSome_iff_exists.mp hsome
    cases n with
    | zero => exact absurd hlt (by omega)
    | succ n =>
      rw [Nat.succ_mul] at hn
      unfold lift
      rw [wp_bind, wp_zoom]
      refine walkpgdir_find_wp (fun ht => ?_) fun _ => ?_
      · rw [tables_of_getPte hsome] at ht
        cases ht
      · dsimp only
        rw [hget]
        rw [wp_bind, wp_zoom]
        have hlen : s.free.length = (missing T d).card + (n + 1) := hspare
        refine kalloc_pop_wp (fun hnil => ?_) fun mem ps hps => ?_
        · rw [show s.free = [] from hnil, length_nil] at hlen
          omega
        · have hrest : Spare T n d { s.toKmem with free := ps } := by
            rw [show s.free = mem :: ps from hps, length_cons] at hlen
            unfold Spare
            dsimp only
            omega
          dsimp only
          rw [wp_bind, wp_get]
          unfold setPage
          rw [wp_bind, wp_modify, wp_bind, wp_zoom]
          refine mapPage_spare_wp hi halign (hT i hlt) (hclear i le_rfl hi)
            hrest fun d' k hk hspare' => ?_
          refine ih (next_page_aligned halign) (fun x hle hx => ?_) (by omega) hspare'
          have hne : x / PGSIZE ≠ i / PGSIZE := by
            unfold PGSIZE at *
            omega
          rw [hk.others x hne]
          exact hclear x (by omega) hx

theorem copyuvm_enough (hsz : sz < KERNBASE) (hT : KernelTables K T) (hTu : ∀ x < sz, PDX x ∈ T)
    (hpresent : ∀ x, x % PGSIZE = 0 → x < sz → (src.getPte x).isSome = true) (hn : sz ≤ n * PGSIZE)
    (hgood : GoodFree K s.toKmem) (huser : s.user = []) (hcalls : s.calls = [])
    (hfree : s.free.length = T.card + 1 + n) : ∃ d s', copyuvm K src sz s = .ok (some d) s' := by
  have hclear : wp (setupkvm K) (fun r t => ∀ d, r = some d → Ready K d 0 t) (fun _ _ => False)
      s.toKmem :=
    setupkvm_ready_wp hgood huser (fun c hc => absurd hc (by rw [hcalls]; exact not_mem_nil))
      (fun _ _ d hd => absurd hd.symm (Option.some_ne_none d))
      fun d t h _ hd => Option.some.inj hd ▸ h
  have hspare : wp (setupkvm K) (fun r t => ∃ d, r = some d ∧ Spare T n d t) (fun _ _ => True)
      s.toKmem := setupkvm_spare_wp (fun _ _ => trivial) hT hfree fun d t h => ⟨d, rfl, h⟩
  have hrun : wp (copyuvm K src sz) (fun r _ => ∃ d, r = some d) (fun _ _ => False) s := by
    unfold copyuvm lift
    rw [wp_bind, wp_zoom]
    refine wp_mono (wp_and hclear hspare) ?_ fun _ _ h => h.1
    rintro r k ⟨hready, d, rfl, h⟩
    exact copyPages_spare_wp hsz (Nat.zero_mod _) hTu hpresent
      (fun x _ hx => (hready d rfl).above x (Nat.zero_le x) hx) (by omega) h fun d' _ => ⟨d', rfl⟩
  obtain ⟨r, s', hok, d, rfl⟩ := exists_ok_of_wp hrun
  exact ⟨d, s', hok⟩

end

/-- Two thousand free pages. -/
def manyRam : Ram := startRam manyPages.free

theorem manyPages_count : manyPages.free.length = NPDENTRIES + 1 + 975 := by
  unfold manyPages NPDENTRIES
  rw [length_map, length_range]

theorem manyPages_nodup : (0x200000 :: 0x201000 :: 0x202000 :: manyPages.free).Nodup := by
  have hmem : ∀ p ∈ manyPages.free, 0x400000 ≤ p := by
    intro p hp
    simp only [manyPages, mem_map, mem_range] at hp
    obtain ⟨i, _, rfl⟩ := hp
    exact Nat.le_add_right _ _
  have hmany : manyPages.free.Nodup := by
    simp only [manyPages]
    refine nodup_range.map fun i j hij => ?_
    unfold PGSIZE at hij
    omega
  have hnot : ∀ p < 0x400000, p ∉ manyPages.free :=
    fun p hp hin => absurd (hmem p hin) (Nat.not_le.mpr hp)
  generalize manyPages.free = l at hmany hnot
  simp [hmany, hnot]

theorem copyuvm_duplicates_page : ∃ d s', copyuvm smallKernel onePage PGSIZE manyRam =
    .ok (some d) s' ∧ Duplicate smallKernel onePage PGSIZE manyRam d s' := by
  have hnodup := manyPages_nodup
  have hfree := goodFree_manyPages
  have hcount := manyPages_count
  unfold manyRam
  generalize manyPages = m at hnodup hfree hcount
  have hp : Process smallKernel onePage PGSIZE (startRam m.free) := onePage_process hnodup hfree
  have hround : pgRoundUp PGSIZE = PGSIZE := by decide
  have hsz : PGSIZE < KERNBASE := by decide
  have hT : ∀ x < PGSIZE, PDX x ∈ Finset.range NPDENTRIES :=
    fun x hx => Finset.mem_range.mpr (pdx_lt (hx.trans (by decide)))
  obtain ⟨d, s', hrun⟩ := copyuvm_enough (n := 975) hsz (kernelTables_all smallKernel) hT
    (fun x _ hx => (hp.pages x (hx.trans hsz)).mpr (by rw [hround]; exact hx)) (by decide)
    hp.sound.free rfl rfl (by rw [Finset.card_range]; exact hcount)
  exact ⟨d, s', hrun,
    copyuvm_duplicates smallKernel onePage PGSIZE (startRam m.free) hsz hp.sound d s' hrun⟩

end Ram

end Xv6Kernel
