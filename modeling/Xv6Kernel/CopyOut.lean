/-
  CopyOut.lean
  ============
  `copyout` on the directories that `exec` builds.

  Directories that come from `setupkvm`, `allocuvm` and `clearpteu` keep their frames to themselves
  and map nothing for users above `KERNBASE` (`UserOk`).  On such a directory `copyout` stores
  exactly the bytes up to the first page that is not a user page, unless `uva2ka` follows a null
  pointer: `walkpgdir` returns 0 if there is no page table, and nobody looks.
-/
import Xv6Kernel.ForkImage

namespace Xv6Kernel

open PanicMonad Function List

namespace Ram

/-! ### Directories for `exec` -/

/-- The frames of a directory are the user pages that `allocuvm` got, and all different; the
    kernel part is there, and not for users. -/
structure UserOk (K : KernelImage) (d : PageDir) (s : Kmem) : Prop where
  sound : Sound K d s
  frames : ∀ x e, x < KERNBASE → d.getPte x = some e → e.pa ∈ s.user
  kernel : ∀ x e, KERNBASE ≤ x → d.getPte x = some e → e.u = false
  mapped : ∀ x, x % PGSIZE = 0 → (kernelPte K x).isSome = true → (d.getPte x).isSome = true

/-- The pages of the directory and of the free list were among them before. -/
def Within (d : PageDir) (s : Kmem) (d' : PageDir) (s' : Kmem) : Prop :=
  ∀ p, s'.free.count p + owned d' p ≤ s.free.count p + owned d p

theorem Within.refl (d : PageDir) (s : Kmem) : Within d s d s := fun _ => le_rfl

theorem Within.trans (h : Within d s d' s')
    (h' : Within d' s' d'' s'') : Within d s d'' s'' := fun p => (h' p).trans (h p)

variable {e : Pte}

theorem kernbase_le_of_kernelPte (h : (kernelPte K x).isSome = true) : KERNBASE ≤ x := by
  by_contra hlt
  rw [kernelPte_user K (Nat.lt_of_not_le hlt)] at h
  cases h

/-- A frame has been taken off the free list. -/
theorem UserOk.take (h : UserOk K d s) (hfree : s.free = mem :: ps) (hfree' : s'.free = ps)
    (huser : s'.user = mem :: s.user) : UserOk K d s' := by
  refine ⟨⟨fun p => ?_, fun p hp => h.sound.free p ?_, h.sound.dir⟩, fun x e hx he => ?_, h.kernel,
    h.mapped⟩
  · have hexcl := h.sound.excl p
    rw [hfree, count_cons_one] at hexcl
    rw [hfree']
    omega
  · rw [hfree]
    rw [hfree'] at hp
    exact mem_cons_of_mem _ hp
  · rw [huser]
    exact mem_cons_of_mem _ (h.frames x e hx he)

theorem within_take (hfree : s.free = mem :: ps) (hfree' : s'.free = ps) : Within d s d s' := by
  intro p
  rw [hfree, hfree', count_cons_one]
  omega

theorem within_map (hfree : s.free = mem :: ps) (he : e.pa = mem)
    (hm : Mapped d { s with free := ps, user := mem :: s.user } a e d' s') : Within d s d' s' := by
  intro p
  have hcount := hm.moves.count p
  rw [hfree, count_cons_one]
  rw [he] at hcount
  dsimp only at hcount
  omega

/-- The frame has been mapped. -/
theorem UserOk.map (h : UserOk K d s) (ha : a < KERNBASE) (hfree : s.free = mem :: ps)
    (hm : Mapped d { s with free := ps, user := mem :: s.user } a ⟨mem, true, true⟩ d' s') :
    UserOk K d' s' := by
  have hsound : Sound K d' s' := by
    refine h.sound.moves fun p => ?_
    have hcount := hm.moves.count p
    rw [hfree, count_cons_one]
    dsimp only at hcount
    omega
  have hkernel : ∀ x, KERNBASE ≤ x → d'.getPte x = d.getPte x := by
    intro x hx
    refine hm.others x ?_
    unfold KERNBASE at ha hx
    unfold PGSIZE
    omega
  refine ⟨hsound, fun x e hx he => ?_, fun x e hx he => ?_, fun x hx hsome => ?_⟩
  · rw [hm.user]
    by_cases hpage : x / PGSIZE = a / PGSIZE
    · rw [PageDir.getPte_of_page hpage, hm.self] at he
      rw [← Option.some.inj he]
      exact mem_cons_self
    · rw [hm.others x hpage] at he
      exact mem_cons_of_mem _ (h.frames x e hx he)
  · rw [hkernel x hx] at he
    exact h.kernel x e hx he
  · rw [hkernel x (kernbase_le_of_kernelPte hsome)]
    exact h.mapped x hx hsome

theorem UserOk.record (h : UserOk K d k) (calls : List StoreCall) :
    UserOk K d { k with calls := calls } :=
  ⟨⟨h.sound.excl, h.sound.free, h.sound.dir⟩, h.frames, h.kernel, h.mapped⟩

theorem UserOk.freed (h : UserOk K d s.toKmem) (hle : oldsz ≤ KERNBASE)
    (hf : Freed d s oldsz newsz d' s') : UserOk K d' s'.toKmem := by
  refine ⟨h.sound.moves hf.moves.count, fun x e hx he => ?_, fun x e hx he => ?_,
    fun x hx hsome => ?_⟩
  · rw [hf.dealloc.user]
    exact h.frames x e hx (hf.dealloc.sub x e he)
  · exact h.kernel x e hx (hf.dealloc.sub x e he)
  · rw [hf.dealloc.others x hx (Or.inr (hle.trans (kernbase_le_of_kernelPte hsome)))]
    exact h.mapped x hx hsome

/-- `mappages` of a page that may be mapped already, which is a panic. -/
theorem mapPage_any_wp (hE : ∀ e t, E e t) (ha : a < KERNBASE) (halign : a % PGSIZE = 0)
    (hfail : P (false, d) { s with short := true, refusals := s.refusals.tail })
    (hok : ∀ d' k, Mapped d s.toKmem a ⟨pa, w, u⟩ d' k →
      P (true, d') { s with toKmem := k, refusals := s.refusals.tail }) :
    wp (contended (mappages d a PGSIZE pa w u)) P E s := by
  cases hget : d.getPte a with
  | none => exact mapPage_contended_wp ha halign hget (fun _ _ => hfail) hok
  | some e =>
    have hpanic : ∀ {P : Bool × PageDir → Kmem → Prop} {E : VmPanic → Kmem → Prop} (k : Kmem),
        (∀ e t, E e t) → wp (mappages d a PGSIZE pa w u) P E k := by
      intro P E k hE
      have hsome : (d.getPte a).isSome = true := by rw [hget]; rfl
      rw [mappages_page ha halign]
      unfold mapLoop walkpgdir
      rw [wp_bind, if_pos (tables_of_getPte hsome), wp_pure]
      exact wp_ite (fun _ => hE _ _) fun hno => absurd hsome hno
    exact contended_wp (fun _ => hpanic _ fun e t => hE e _) (hpanic _ fun e t => hE e _)

theorem allocLoop_userOk_wp (hE : ∀ e t, E e t)
    (hsz : newsz < KERNBASE) (hold : oldsz ≤ newsz) (ha : a % PGSIZE = 0)
    (hle : pgRoundUp oldsz ≤ a) (h : UserOk K d s.toKmem)
    (hok : ∀ r d' s', UserOk K d' s'.toKmem → Within d s.toKmem d' s'.toKmem → P (r, d') s') :
    wp (allocLoop K oldsz newsz fuel d a) P E s := by
  induction fuel generalizing s d a with
  | zero => exact hok _ d s h (.refl d _)
  | succ fuel ih =>
    refine wp_ite (fun hlt => ?_) fun _ => hok _ d s h (.refl d _)
    have hak : a < KERNBASE := hlt.trans hsz
    have hround := le_pgRoundUp (Nat.lt_of_le_of_lt hold hsz)
    rw [wp_bind]
    refine kalloc_contended_wp (fun _ => ?_) fun mem ps hfree => ?_
    · rw [wp_bind]
      have hbad : ¬ BadFrame K d (pgRoundUp oldsz) newsz := by
        rintro ⟨x, e, _, _, hxlt, hget, hno⟩
        exact hno (h.sound.frame_valid (hxlt.trans hsz) hget)
      refine wp_mono (deallocuvm_freed_wp (by omega) hsz.le hbad) (fun r s' hr => ?_)
        fun _ _ hf => hf.elim
      refine hok _ _ s' (UserOk.freed (s := { s with refusals := s.refusals.tail })
        h hsz.le hr.2) ?_
      exact fun p => (hr.2.moves.count p).ge
    · unfold lift setPage
      rw [wp_bind, wp_zoom, wp_modify, wp_bind, wp_modify, wp_bind]
      refine mapPage_any_wp hE hak ha ?_ fun d' k hk => ?_
      · exact ih (next_page_aligned ha) (by omega) (h.take hfree rfl rfl)
          fun r d' s' h' hw => hok r d' s' h' ((within_take hfree rfl).trans hw)
      · exact ih (next_page_aligned ha) (by omega) (h.map hak hfree hk)
          fun r d' s' h' hw => hok r d' s' h' ((within_map hfree rfl hk).trans hw)

theorem allocuvm_userOk_wp (hE : ∀ e t, E e t) (h : UserOk K d s.toKmem)
    (hok : ∀ r d' s', UserOk K d' s'.toKmem → Within d s.toKmem d' s'.toKmem → P (r, d') s') :
    wp (allocuvm K d oldsz newsz) P E s := by
  have hsame : ∀ r, P (r, d) s := fun r => hok r d s h (.refl d _)
  unfold allocuvm
  refine wp_ite (fun _ => hsame _) fun hnew => wp_ite (fun _ => hsame _) fun hold => ?_
  exact allocLoop_userOk_wp hE (by omega) (by omega) (pgRoundUp_aligned oldsz) le_rfl h hok

/-- Clearing `PTE_U` changes no frame. -/
theorem UserOk.clear (h : UserOk K d k) (hget : d.getPte uva = some e) :
    UserOk K (d.setPte uva (some { e with u := false })) k := by
  have ht : (d.tables (PDX uva)).isSome = true := tables_of_getPte (by rw [hget]; rfl)
  have hentry : ∀ x q, (d.setPte uva (some { e with u := false })).getPte x = some q →
      ∃ q', d.getPte x = some q' ∧ q'.pa = q.pa ∧ (q'.u = false → q.u = false) := by
    intro x q hq
    by_cases hpage : x / PGSIZE = uva / PGSIZE
    · rw [PageDir.getPte_of_page hpage, PageDir.getPte_setPte_self ht] at hq
      refine ⟨e, (PageDir.getPte_of_page hpage).trans hget, ?_, fun _ => ?_⟩
      · rw [← Option.some.inj hq]
      · rw [← Option.some.inj hq]
    · rw [PageDir.getPte_setPte_of_ne hpage] at hq
      exact ⟨q, hq, rfl, id⟩
  refine ⟨⟨?_, h.sound.free, ?_⟩, fun x q hx hq => ?_, fun x q hx hq => ?_, fun x hx hsome => ?_⟩
  · rw [owned_clearUser hget]
    exact h.sound.excl
  · unfold GoodDir
    rw [owned_clearUser hget]
    exact h.sound.dir
  · obtain ⟨q', hq', hpa, _⟩ := hentry x q hq
    rw [← hpa]
    exact h.frames x q' hx hq'
  · obtain ⟨q', hq', _, hu⟩ := hentry x q hq
    exact hu (h.kernel x q' hx hq')
  · by_cases hpage : x / PGSIZE = uva / PGSIZE
    · rw [PageDir.getPte_of_page hpage, PageDir.getPte_setPte_self ht]
      rfl
    · rw [PageDir.getPte_setPte_of_ne hpage]
      exact h.mapped x hx hsome

theorem clearpteu_userOk_wp {E : VmPanic → Kmem → Prop} {uva : Nat}
    (hE : ∀ e t, E e t) (h : UserOk K d k) (hok : ∀ d', UserOk K d' k → P d' k) :
    wp (clearpteu d uva) P E k := by
  unfold clearpteu
  rw [wp_bind]
  refine walkpgdir_find_wp (fun _ => hE _ _) fun _ => ?_
  dsimp only
  cases hget : d.getPte uva with
  | none => exact hok d h
  | some e => exact hok _ (h.clear hget)

/-- A directory of `setupkvm` has no frames. -/
theorem UserOk.fresh (hfresh : FreshDir K k d k') (hnodup : k.free.Nodup)
    (hfree : GoodFree K k) : UserOk K d k' := by
  refine ⟨hfresh.sound (nodup_iff_count_le_one.mp hnodup) hfree, fun x e hx he => ?_,
    fun x e _ he => ?_, fun x hx hsome => ?_⟩
  · rw [hfresh.getPte_user hx] at he
    cases he
  · rw [hfresh.getPte] at he
    exact kernelPte_not_user he
  · rw [hfresh.pages x hx]
    exact hsome

/-- The directories that are built with `setupkvm`, `allocuvm` and `clearpteu`, each with the state
    it is left in. -/
inductive Built (K : KernelImage) : PageDir → Ram → Prop where
  | setup {s : Ram} {d : PageDir} {k : Kmem} : s.free.Nodup → GoodFree K s.toKmem →
      setupkvm K s.toKmem = .ok (some d) k → Built K d { s with toKmem := k }
  | alloc {d : PageDir} {s : Ram} {oldsz newsz r : Nat} {d' : PageDir} {s' : Ram} : Built K d s →
      allocuvm K d oldsz newsz s = .ok (r, d') s' → Built K d' s'
  | clear {d : PageDir} {s : Ram} {uva : Nat} {d' : PageDir} {k : Kmem} : Built K d s →
      clearpteu d uva s.toKmem = .ok d' k → Built K d' { s with toKmem := k }

theorem Built.userOk {d : PageDir} {s : Ram} (h : Built K d s) : UserOk K d s.toKmem := by
  induction h with
  | @setup s d k hnodup hfree hrun =>
    have hwp : wp (setupkvm K) (fun r k => ∀ d, r = some d → FreshDir K s.toKmem d k)
        (fun _ _ => True) s.toKmem :=
      setupkvm_fresh_wp (fun _ _ => trivial) (fun _ d hd => absurd hd.symm (Option.some_ne_none d))
        fun d k h d' hd => by
          rw [← Option.some.inj hd]
          exact h
    exact .fresh (post_of_ok hwp hrun d rfl) hnodup hfree
  | @alloc d s oldsz newsz r d' s' _ hrun ih =>
    have hwp : wp (allocuvm K d oldsz newsz) (fun r s' => UserOk K r.2 s'.toKmem)
        (fun _ _ => True) s :=
      allocuvm_userOk_wp (fun _ _ => trivial) ih fun _ _ _ h _ => h
    have hok := post_of_ok hwp hrun
    exact hok
  | @clear d s uva d' k _ hrun ih =>
    have hwp : wp (clearpteu d uva) (fun d' k => UserOk K d' s.toKmem ∧ k = s.toKmem)
      (fun _ _ => True) s.toKmem :=
      clearpteu_userOk_wp (fun _ _ => trivial) ih fun _ h => ⟨h, rfl⟩
    obtain ⟨hok, hsame⟩ := post_of_ok hwp hrun
    rw [hsame]
    exact hok

/-! ### What `copyout` stores -/

/-- The address is in a present page for users. -/
def IsUser (d : PageDir) (a : Nat) : Prop := ∃ e, d.getPte a = some e ∧ e.u = true

/-- The first `n` bytes of `buf` are at the user addresses from `va` on, and nothing else has
    changed. -/
structure Stored (d : PageDir) (s : Ram) (va n : Nat) (buf : List Byte) (s' : Ram) : Prop where
  user : ∀ x e, x % PGSIZE = 0 → d.getPte x = some e → e.u = true → ∀ o < PGSIZE,
    s'.bytes e.pa o =
      if va ≤ x + o ∧ x + o < va + n then buf.getD (x + o - va) 0 else s.bytes e.pa o
  others : ∀ p, (∀ x e, d.getPte x = some e → e.u = true → e.pa ≠ p) → s'.bytes p = s.bytes p

section

variable {s' : Ram}

variable {a n : Nat}

theorem isUser_of_page (h : IsUser d a) (hpage : a' / PGSIZE = a / PGSIZE) : IsUser d a' := by
  obtain ⟨e, he, hu⟩ := h
  exact ⟨e, (PageDir.getPte_of_page hpage).trans he, hu⟩

theorem UserOk.user_lt (h : UserOk K d k) (ha : IsUser d a) : a < KERNBASE := by
  obtain ⟨e, he, hu⟩ := ha
  by_contra hge
  rw [h.kernel a e (by omega) he] at hu
  cases hu

theorem Stored.nothing (hbytes : s'.bytes = s.bytes) : Stored d s va 0 buf s' := by
  refine ⟨fun x e _ _ _ o _ => ?_, fun p _ => by rw [hbytes]⟩
  rw [if_neg (by omega), hbytes]

/-- A store within one page. -/
theorem Stored.chunk (h : UserOk K d k) (hget : d.getPte (pgRoundDown va) = some e)
    (hu : e.u = true) (hlen : c ≤ buf.length) (hc : va - pgRoundDown va + c ≤ PGSIZE)
    (hbytes : s'.bytes = update s.bytes e.pa
      (overwrite (s.bytes e.pa) (va - pgRoundDown va) (buf.take c))) : Stored d s va c buf s' := by
  have hdown : pgRoundDown va ≤ va := Nat.div_mul_le_self va PGSIZE
  have hvk := h.user_lt ⟨e, hget, hu⟩
  have htake : (buf.take c).length = c := by
    rw [length_take, Nat.min_eq_left hlen]
  refine ⟨fun x q hx hq hqu o ho => ?_, fun p hp => ?_⟩
  · have hxk := h.user_lt ⟨q, hq, hqu⟩
    rw [hbytes]
    by_cases heq : x = pgRoundDown va
    · have hqe : q = e := by
        rw [heq, hget] at hq
        exact (Option.some.inj hq).symm
      rw [hqe, update_self, overwrite, htake, heq]
      by_cases hin : va - pgRoundDown va ≤ o ∧ o < va - pgRoundDown va + c
      · rw [if_pos hin, if_pos (by omega), show pgRoundDown va + o - va =
          o - (va - pgRoundDown va) by omega, getD_eq_getElem?_getD,
          getD_eq_getElem?_getD, getElem?_take_of_lt (by omega)]
      · rw [if_neg hin, if_neg (by omega)]
    · have hne : q.pa ≠ e.pa := by
        intro hpa
        have hpage := h.sound.frame_inj hvk hxk hget hq hpa
        exact page_ne hx (pgRoundDown_aligned va) heq hpage
      rw [update_of_ne hne, if_neg ?_]
      rintro ⟨hle, hlt⟩
      rcases Nat.lt_or_gt_of_ne heq with hbelow | habove
      · have hnext := next_page_le hx (pgRoundDown_aligned va) hbelow
        omega
      · have hnext := next_page_le (pgRoundDown_aligned va) hx habove
        omega
  · have hne : p ≠ e.pa := fun heq => hp _ e hget hu heq.symm
    rw [hbytes, update_of_ne hne]

/-- One store after the other. -/
theorem Stored.append (h : Stored d s va c buf s₁)
    (h' : Stored d s₁ (va + c) n (buf.drop c) s') : Stored d s va (c + n) buf s' := by
  refine ⟨fun x e hx hget hu o ho => ?_, fun p hp => (h'.others p hp).trans (h.others p hp)⟩
  rw [h'.user x e hx hget hu o ho, h.user x e hx hget hu o ho]
  by_cases hfirst : va ≤ x + o ∧ x + o < va + c
  · rw [if_neg (by omega), if_pos hfirst, if_pos (by omega)]
  · by_cases hrest : va + c ≤ x + o ∧ x + o < va + c + n
    · rw [if_pos hrest, if_pos (by omega), getD_eq_getElem?_getD, getElem?_drop,
        getD_eq_getElem?_getD, show c + (x + o - (va + c)) = x + o - va by omega]
    · rw [if_neg hrest, if_neg hfirst, if_neg (by omega)]

theorem PDX_pgRoundDown (a : Nat) : PDX (pgRoundDown a) = PDX a := by
  unfold PDX pgRoundDown PGSIZE NPTENTRIES
  omega

/-- The first page that is not a user page has a page table. -/
def TablesThere (d : PageDir) (va len : Nat) : Prop :=
  ∀ i < len, (∀ j < i, IsUser d ((va + j) % ADDRESSES)) →
    (d.tables (PDX ((va + i) % ADDRESSES))).isSome = true

/-- On a user page `uva2ka` finds the frame. -/
theorem UserOk.uva2ka_user (h : UserOk K d k) (hget : d.getPte a = some e) (hu : e.u = true) :
    uva2ka word0 d a = some e.pa := by
  have hvalid := h.sound.frame_valid (h.user_lt ⟨e, hget, hu⟩) hget
  have habove := hvalid.above
  have hbelow := hvalid.below
  have horder := K.order
  have htext := K.text
  have hp2v : (e.pa + KERNBASE) % ADDRESSES ≠ 0 := by
    unfold PHYSTOP at hbelow
    unfold EXTMEM at htext
    unfold KERNBASE ADDRESSES
    omega
  unfold uva2ka
  rw [if_pos (tables_of_getPte (by rw [hget]; rfl)), hget, userFrame, if_pos ⟨hu, hp2v⟩]

theorem uva2ka_not_user (ht : (d.tables (PDX a)).isSome = true) (hno : ¬ IsUser d a) :
    uva2ka word0 d a = none := by
  unfold uva2ka
  rw [if_pos ht]
  cases hget : d.getPte a with
  | none => rfl
  | some e =>
    exact if_neg fun hu => hno ⟨e, hget, hu.1⟩

/-- The next page, if the page of `va` is a user page. -/
theorem TablesThere.next (h : TablesThere d va len) (hk : UserOk K d k)
    (hu : IsUser d (pgRoundDown va)) :
    TablesThere d ((pgRoundDown va + PGSIZE) % ADDRESSES) (len - copyChunk va len) := by
  have hvk := hk.user_lt hu
  have hal := pgRoundDown_aligned va
  have hnext : (pgRoundDown va + PGSIZE) % ADDRESSES = pgRoundDown va + PGSIZE := by
    refine Nat.mod_eq_of_lt ?_
    unfold KERNBASE at hvk
    unfold PGSIZE ADDRESSES
    omega
  intro i hi hall
  rw [hnext] at hall ⊢
  have hdown : va - pgRoundDown va < PGSIZE ∧ pgRoundDown va ≤ va := by
    unfold pgRoundDown PGSIZE
    omega
  have hchunk : copyChunk va len = PGSIZE - (va - pgRoundDown va) := by
    unfold copyChunk at hi ⊢
    omega
  have hindex : ∀ j, pgRoundDown va + PGSIZE + j = va + (copyChunk va len + j) := by
    intro j
    omega
  rw [hindex]
  refine h (copyChunk va len + i) (by omega) fun j hj => ?_
  by_cases hpage : j < copyChunk va len
  · have hsame : (va + j) % ADDRESSES = va + j := by
      refine Nat.mod_eq_of_lt ?_
      unfold PGSIZE ADDRESSES at *
      omega
    rw [hsame]
    refine isUser_of_page hu ?_
    unfold PGSIZE at *
    omega
  · have hj' := hall (j - copyChunk va len) (by omega)
    rw [hindex, show copyChunk va len + (j - copyChunk va len) = j by omega] at hj'
    exact hj'

/-- Nothing is stored at any address. -/
theorem Stored.move (h : Stored d s va 0 buf s') : Stored d s va' 0 buf' s' := by
  refine ⟨fun x e hx hget hu o ho => ?_, h.others⟩
  rw [h.user x e hx hget hu o ho, if_neg (by omega), if_neg (by omega)]

/-- `copyout` has stored the bytes up to the first address that is not a user's. -/
structure Copied (d : PageDir) (s : Ram) (va : Nat) (buf : List Byte) (r : Bool) (n : Nat)
    (s' : Ram) : Prop where
  le : n ≤ buf.length
  user : ∀ i < n, IsUser d (va + i)
  all : r = true → n = buf.length
  stop : r = false → n < buf.length ∧ ¬ IsUser d ((va + n) % ADDRESSES)
  stored : Stored d s va n buf s'
  kmem : s'.toKmem = s.toKmem
  refusals : s'.refusals = s.refusals

theorem Copied.none (hpos : 0 < buf.length) (hva : va < ADDRESSES)
    (hno : ¬ IsUser d (pgRoundDown va)) : Copied d s va buf false 0 s := by
  refine ⟨Nat.zero_le _, fun i hi => absurd hi (Nat.not_lt_zero i), (fun h => nomatch h),
    fun _ => ⟨hpos, fun hu => hno ?_⟩, .nothing rfl, rfl, rfl⟩
  rw [Nat.add_zero, Nat.mod_eq_of_lt hva] at hu
  refine isUser_of_page hu ?_
  unfold pgRoundDown
  rw [Nat.mul_div_cancel _ page_pos]

/-- One page after the other. -/
theorem Copied.cons (hva : va < KERNBASE) (hu : IsUser d (pgRoundDown va))
    (h : Stored d s va (copyChunk va buf.length) buf s₁) (hkmem : s₁.toKmem = s.toKmem)
    (hrefusals : s₁.refusals = s.refusals) (h' : Copied d s₁ ((pgRoundDown va + PGSIZE) % ADDRESSES)
      (buf.drop (copyChunk va buf.length)) r n s') :
    Copied d s va buf r (copyChunk va buf.length + n) s' := by
  have hle : copyChunk va buf.length ≤ buf.length := Nat.min_le_left _ _
  have hdown : va - pgRoundDown va < PGSIZE ∧ pgRoundDown va ≤ va := by
    unfold pgRoundDown PGSIZE
    omega
  have hnext : (pgRoundDown va + PGSIZE) % ADDRESSES = pgRoundDown va + PGSIZE := by
    refine Nat.mod_eq_of_lt ?_
    unfold KERNBASE at hva
    unfold PGSIZE ADDRESSES
    omega
  have hlen := h'.le
  rw [length_drop] at hlen
  rw [hnext] at h'
  have hpage : ∀ i < copyChunk va buf.length, IsUser d (va + i) := by
    intro i hi
    refine isUser_of_page hu ?_
    unfold copyChunk at hi
    unfold pgRoundDown at *
    unfold PGSIZE at *
    omega
  -- the last page may not be full
  have hwhere : n = 0 ∨ va + copyChunk va buf.length = pgRoundDown va + PGSIZE := by
    by_cases hn : n = 0
    · exact Or.inl hn
    · refine Or.inr ?_
      unfold copyChunk at *
      omega
  refine ⟨by omega, fun i hi => ?_, fun hr => ?_, fun hr => ?_, ?_, h'.kmem.trans hkmem,
    h'.refusals.trans hrefusals⟩
  · by_cases hfirst : i < copyChunk va buf.length
    · exact hpage i hfirst
    · rcases hwhere with hn | heq
      · omega
      · have hi' := h'.user (i - copyChunk va buf.length) (by omega)
        rw [← heq, show va + copyChunk va buf.length + (i - copyChunk va buf.length) = va + i by
          omega] at hi'
        exact hi'
  · have hall := h'.all hr
    rw [length_drop] at hall
    omega
  · obtain ⟨hlt, hno⟩ := h'.stop hr
    rw [length_drop] at hlt
    refine ⟨by omega, ?_⟩
    have heq : va + copyChunk va buf.length = pgRoundDown va + PGSIZE := by
      unfold copyChunk at *
      omega
    rw [← heq, Nat.add_assoc] at hno
    exact hno
  · rcases hwhere with hn | heq
    · have hstored := h'.stored
      rw [hn] at hstored ⊢
      exact h.append hstored.move
    · have hstored := h'.stored
      rw [← heq] at hstored
      exact h.append hstored

theorem store_wp (hmem : pa ∈ s.user)
    (hok : P () { s with bytes := update s.bytes pa (overwrite (s.bytes pa) off l) }) :
    wp (store pa off l) P E s := by
  unfold store lift
  rw [wp_bind, wp_zoom]
  exact storeTo_iff_wp (fun _ => hok) fun hno => absurd hmem hno.2

/-- If every page table that is needed is there, `copyout` stops at the first page that is not a
    user page. -/
theorem copyoutLoop_copied_wp (h : UserOk K d s.toKmem) (hva : va < ADDRESSES)
    (hfuel : buf.length < fuel) (ht : TablesThere d va buf.length) :
    wp (copyoutLoop word0 d fuel va buf) (fun r s' => ∃ n, Copied d s va buf r n s')
      (fun _ _ => False) s := by
  induction fuel generalizing va buf s with
  | zero => exact absurd hfuel (Nat.not_lt_zero _)
  | succ fuel ih =>
    refine wp_ite (fun hpos => ?_) fun hzero => ?_
    · have htable : (d.tables (PDX (pgRoundDown va))).isSome = true := by
        have htable := ht 0 hpos fun j hj => absurd hj (Nat.not_lt_zero j)
        rw [Nat.add_zero, Nat.mod_eq_of_lt hva, ← PDX_pgRoundDown] at htable
        exact htable
      by_cases hu : IsUser d (pgRoundDown va)
      · obtain ⟨e, hget, heu⟩ := hu
        have hvk := h.user_lt ⟨e, hget, heu⟩
        rw [h.uva2ka_user hget heu]
        rw [wp_bind]
        refine store_wp (h.frames _ e hvk hget) ?_
        have hchunk : copyChunk va buf.length ≤ buf.length := Nat.min_le_left _ _
        have hposc : 0 < copyChunk va buf.length := by
          unfold copyChunk pgRoundDown
          unfold PGSIZE
          omega
        refine wp_mono (ih (s := { s with bytes := _ }) h (Nat.mod_lt _ (by decide)) ?_ ?_) ?_
          fun _ _ hf => hf
        · rw [length_drop]
          omega
        · rw [length_drop]
          exact ht.next h ⟨e, hget, heu⟩
        · rintro r s' ⟨n, hn⟩
          have hstored : Stored d s va (copyChunk va buf.length) buf { s with bytes := _ } :=
            .chunk h hget heu hchunk (by
              unfold copyChunk
              unfold pgRoundDown PGSIZE
              omega) rfl
          refine ⟨_, .cons ?_ ⟨e, hget, heu⟩ hstored rfl rfl hn⟩
          unfold pgRoundDown at hvk
          unfold KERNBASE PGSIZE at *
          omega
      · rw [uva2ka_not_user htable hu]
        exact ⟨0, .none hpos hva hu⟩
    · have hnil : buf = [] := length_eq_zero_iff.mp (by omega)
      rw [hnil]
      exact ⟨0, ⟨le_rfl, fun i hi => absurd hi (Nat.not_lt_zero i), fun _ => rfl,
        (fun h => by cases h), .nothing rfl, rfl, rfl⟩⟩

theorem copyout_copied_wp (h : UserOk K d s.toKmem) (hva : va < ADDRESSES)
    (ht : TablesThere d va buf.length) :
    wp (copyout word0 d va buf)
      (fun r s' => ∃ n calls, Copied d { s with calls := calls } va buf r n s')
      (fun _ _ => False) s := by
  unfold copyout lift
  rw [wp_bind, wp_zoom]
  refine recordCall_wp ?_
  refine wp_mono (copyoutLoop_copied_wp (h.record _) hva (Nat.lt_succ_self _) ht) ?_
    fun _ _ hf => hf
  exact fun r s' ⟨n, hn⟩ => ⟨n, _, hn⟩

/-- The way back of `TablesThere.next`. -/
theorem TablesThere.cons (hk : UserOk K d k) (hva : va < ADDRESSES)
    (htable : (d.tables (PDX (pgRoundDown va))).isSome = true) (h : IsUser d (pgRoundDown va) →
      TablesThere d ((pgRoundDown va + PGSIZE) % ADDRESSES) (len - copyChunk va len)) :
    TablesThere d va len := by
  have hdown : va - pgRoundDown va < PGSIZE ∧ pgRoundDown va ≤ va := by
    unfold pgRoundDown PGSIZE
    omega
  intro i hi hall
  by_cases hpage : i < copyChunk va len
  · have hpdx : PDX ((va + i) % ADDRESSES) = PDX (pgRoundDown va) := by
      unfold copyChunk at hpage
      unfold PDX pgRoundDown at *
      unfold PGSIZE NPTENTRIES ADDRESSES at *
      omega
    rw [hpdx]
    exact htable
  · have hchunk : copyChunk va len = PGSIZE - (va - pgRoundDown va) := by
      unfold copyChunk at hpage ⊢
      omega
    have hu : IsUser d (pgRoundDown va) := by
      have hzero := hall 0 (by omega)
      rw [Nat.add_zero, Nat.mod_eq_of_lt hva] at hzero
      refine isUser_of_page hzero ?_
      unfold pgRoundDown
      rw [Nat.mul_div_cancel _ page_pos]
    have hvk := hk.user_lt hu
    have hnext : (pgRoundDown va + PGSIZE) % ADDRESSES = pgRoundDown va + PGSIZE := by
      refine Nat.mod_eq_of_lt ?_
      unfold KERNBASE at hvk
      unfold PGSIZE ADDRESSES
      omega
    have hindex : ∀ j, pgRoundDown va + PGSIZE + j = va + (copyChunk va len + j) := by
      intro j
      omega
    have hrest := h hu (i - copyChunk va len) (by omega) fun j hj => by
      rw [hnext, hindex]
      exact hall _ (by omega)
    rw [hnext, hindex, show copyChunk va len + (i - copyChunk va len) = i by omega] at hrest
    exact hrest

/-- `copyout` follows no null pointer if and only if the page tables are there. -/
theorem UserOk.visits_iff (hk : UserOk K d k) (hva : va < ADDRESSES) (hfuel : len < fuel) :
    (∀ a ∈ copyVisits word0 d fuel va len, (d.tables (PDX a)).isSome = true) ↔
      TablesThere d va len := by
  induction fuel generalizing va len with
  | zero => exact absurd hfuel (Nat.not_lt_zero _)
  | succ fuel ih =>
    unfold copyVisits
    by_cases hpos : 0 < len
    · have hchunk : 0 < copyChunk va len := by
        unfold copyChunk pgRoundDown
        unfold PGSIZE
        omega
      have hmod : (pgRoundDown va + PGSIZE) % ADDRESSES < ADDRESSES := Nat.mod_lt _ (by decide)
      have hless : len - copyChunk va len < fuel := by omega
      have ih' := ih hmod hless
      rw [if_pos hpos, forall_mem_cons]
      refine ⟨fun hall => .cons hk hva hall.1 fun huser => ?_, fun h => ?_⟩
      · obtain ⟨e, hget, hu⟩ := huser
        have hrest := hall.2
        rw [hk.uva2ka_user hget hu] at hrest
        exact ih'.mp hrest
      · have htable : (d.tables (PDX (pgRoundDown va))).isSome = true := by
          have htable := h 0 hpos fun j hj => absurd hj (Nat.not_lt_zero j)
          rw [Nat.add_zero, Nat.mod_eq_of_lt hva, ← PDX_pgRoundDown] at htable
          exact htable
        refine ⟨htable, ?_⟩
        by_cases hu : IsUser d (pgRoundDown va)
        · obtain ⟨e, hget, heu⟩ := hu
          rw [hk.uva2ka_user hget heu]
          exact ih'.mpr (h.next hk ⟨e, hget, heu⟩)
        · rw [uva2ka_not_user htable hu]
          exact fun a ha => absurd ha not_mem_nil
    · rw [if_neg hpos]
      exact ⟨fun _ i hi => absurd hi (by omega), fun _ a ha => absurd ha not_mem_nil⟩

/-- What `copyout` is for: it follows no null pointer, it returns 0 if and only if all addresses are
    in user pages, and it stores to user pages only, everything if it returns 0. -/
structure CopyoutSafe (word0 : Option Pte) (d : PageDir) (va : Nat) (buf : List Byte) (s : Ram) :
    Prop where
  noNull : ∀ a ∈ copyVisits word0 d (buf.length + 1) va buf.length,
    (d.tables (PDX a)).isSome = true
  run : ∃ r s', copyout word0 d va buf s = .ok r s' ∧
    (r = true ↔ ∀ i < buf.length, IsUser d ((va + i) % ADDRESSES)) ∧
    (r = true → Stored d s va buf.length buf s') ∧
    ∃ n ≤ buf.length, (∀ i < n, IsUser d (va + i)) ∧ Stored d s va n buf s'

theorem Copied.result (hk : UserOk K d k) (h : Copied d s va buf r n s') :
    r = true ↔ ∀ i < buf.length, IsUser d ((va + i) % ADDRESSES) := by
  constructor
  · intro hr i hi
    have hu := h.user i (by rw [h.all hr]; exact hi)
    have hlt : va + i < ADDRESSES := (hk.user_lt hu).trans (by decide)
    rw [Nat.mod_eq_of_lt hlt]
    exact hu
  · intro hall
    cases r with
    | true => rfl
    | false =>
      obtain ⟨hlt, hno⟩ := h.stop rfl
      exact absurd (hall n hlt) hno

/-- `copyout` is safe on a directory of `setupkvm`, `allocuvm` and `clearpteu` if and only if no
    page table is missing where it first meets a page that is not a user page. -/
theorem copyout_safe_iff_tablesThere (K : KernelImage) (d : PageDir) (s : Ram) (h : Built K d s)
    (word0 : Option Pte) (va : Nat) (hva : va < ADDRESSES) (buf : List Byte) :
    CopyoutSafe word0 d va buf s ↔ TablesThere d va buf.length := by
  have hk := h.userOk
  have hvisits : (∀ a ∈ copyVisits word0 d (buf.length + 1) va buf.length,
      (d.tables (PDX a)).isSome = true) ↔ TablesThere d va buf.length :=
    hk.visits_iff hva (Nat.lt_succ_self buf.length)
  refine ⟨fun hsafe => hvisits.mp hsafe.noNull, fun ht => ⟨hvisits.mpr ht, ?_⟩⟩
  obtain ⟨r, s', hrun, n, calls, hcopied⟩ := exists_ok_of_wp (copyout_copied_wp hk hva ht)
  have hstored : Stored d s va n buf s' := ⟨hcopied.stored.user, hcopied.stored.others⟩
  refine ⟨r, s', hrun, hcopied.result hk, fun hr => ?_, n, hcopied.le, hcopied.user, hstored⟩
  rw [hcopied.all hr] at hstored
  exact hstored

end

/-! ### A directory without a page table for users -/

/-- There is no page table for user addresses. -/
def NoUserTables (d : PageDir) : Prop := ∀ i < PDX KERNBASE, d.tables i = none

section

variable {d : PageDir} {s : Kmem} {E : VmPanic → Kmem → Prop}

theorem NoUserTables.setPte (h : NoUserTables d) : NoUserTables (d.setPte a e) := by
  intro i hi
  have hsome : ((d.setPte a e).tables i).isSome = (d.tables i).isSome :=
    PageDir.isSome_tables_setPte i
  rw [h i hi] at hsome
  exact Option.isNone_iff_eq_none.mp (by simpa using hsome)

theorem walkpgdir_low_wp (ha : KERNBASE ≤ a) (h : NoUserTables d) (hnone : ∀ s', P none s')
    (hsome : ∀ d' s', NoUserTables d' → P (some d') s') : wp (walkpgdir d a true) P E s := by
  refine wp_ite (fun _ => hsome d s h) fun _ => ?_
  rw [if_pos rfl, wp_bind]
  refine kalloc_pop_wp (fun _ => hnone _) fun page ps _ => hsome _ _ fun i hi => ?_
  have hne : i ≠ PDX a := by
    have hle : PDX KERNBASE ≤ PDX a := Nat.div_le_div_right ha
    omega
  exact (update_of_ne hne _ _).trans (h i hi)

variable (hE : ∀ e t, E e t)
include hE

theorem mapLoop_low_wp {P : Bool × PageDir → Kmem → Prop} {w u : Bool} {k : Nat} (ha : KERNBASE ≤ a)
    (hk : a + k * PGSIZE < ADDRESSES) (h : NoUserTables d) (hfail : ∀ d' s', P (false, d') s')
    (hok : ∀ d' s', NoUserTables d' → P (true, d') s') : wp (mapLoop w u k d a pa) P E s := by
  refine mapLoop_rule (I := fun _ d _ => NoUserTables d) hk h
    (fun j d s Q _ _ h hnone hsome => ?_) hok
  exact walkpgdir_low_wp (ha.trans (Nat.le_add_right ..)) h (fun _ => hnone _ (hfail d _))
    fun d₁ s₁ h₁ => hsome d₁ s₁ (fun _ => hE _ _) fun _ => h₁.setPte

theorem mapKernel_low_wp {ks : List Kmap} (hks : ∀ k ∈ ks, KmapOk k) (h : NoUserTables d)
    (hfail : ∀ s', P none s') (hok : ∀ d' s', NoUserTables d' → P (some d') s') :
    wp (mapKernel ks d) P E s := by
  induction ks generalizing s d with
  | nil => exact hok d s h
  | cons k ks ih =>
    have hk := hks k mem_cons_self
    have hend := hk.fits
    have hpos := hk.pos
    unfold mapKernel
    rw [wp_bind, mappages_eq_mapLoop hk.aligned hk.size hk.pos hk.fits]
    refine mapLoop_low_wp hE hk.virt ?_ h (fun _ s' => hfail s') fun d₁ s₁ h₁ => ?_
    · have hsub := Nat.div_mul_le_self ((k.physEnd + ADDRESSES - k.physStart) % ADDRESSES) PGSIZE
      rw [Nat.sub_mul]
      have hpage := page_pos
      omega
    · exact ih (fun k hk => hks k (mem_cons_of_mem _ hk)) h₁

theorem setupkvm_low_wp (hfail : ∀ s', P none s') (hok : ∀ d s', NoUserTables d → P (some d) s') :
    wp (setupkvm K) P E s := by
  unfold setupkvm
  rw [wp_bind]
  refine kalloc_pop_wp (fun _ => hfail s) fun page ps _ => ?_
  exact mapKernel_low_wp hE (kmap_ok K) (fun _ _ => rfl) hfail hok

end

/-- With enough memory `setupkvm` succeeds. -/
theorem setupkvm_spare
    (hgood : GoodFree K s) (huser : s.user = []) (hcalls : s.calls = []) (hT : KernelTables K T)
    (hfree : s.free.length = T.card + 1 + n) :
    ∃ d k, setupkvm K s = .ok (some d) k ∧ FreshDir K s d k ∧ NoUserTables d ∧ Spare T n d k := by
  have hready : wp (setupkvm K) (fun _ _ => True) (fun _ _ => False) s :=
    setupkvm_ready_wp hgood huser (fun c hc => absurd hc (by rw [hcalls]; exact not_mem_nil))
      (fun _ _ => trivial) fun _ _ _ => trivial
  have hspare : wp (setupkvm K) (fun r k => ∃ d, r = some d ∧ Spare T n d k)
      (fun _ _ => True) s := setupkvm_spare_wp (fun _ _ => trivial)
      hT hfree fun d k h => ⟨d, rfl, h⟩
  have hfresh : wp (setupkvm K) (fun r k => ∀ d, r = some d → FreshDir K s d k)
      (fun _ _ => True) s :=
    setupkvm_fresh_wp (fun _ _ => trivial) (fun _ d hd => absurd hd.symm (Option.some_ne_none d))
      fun d k h d' hd => Option.some.inj hd ▸ h
  have hlow : wp (setupkvm K) (fun r _ => ∀ d, r = some d → NoUserTables d) (fun _ _ => True) s :=
    setupkvm_low_wp (fun _ _ => trivial) (fun _ d hd => absurd hd.symm (Option.some_ne_none d))
      fun d _ h d' hd => Option.some.inj hd ▸ h
  have hall : wp (setupkvm K) (fun r k => ∃ d, r = some d ∧ FreshDir K s d k ∧ NoUserTables d ∧
      Spare T n d k) (fun _ _ => False) s := by
    refine wp_mono (wp_and (wp_and hready hspare) (wp_and hfresh hlow)) ?_ fun _ _ h => h.1.1
    rintro r k ⟨⟨_, d, hd, h⟩, hf, hl⟩
    exact ⟨d, hd, hf d hd, hl d hd, h⟩
  obtain ⟨r, k, hrun, d, rfl, h⟩ := exists_ok_of_wp hall
  exact ⟨d, k, hrun, h⟩

theorem manyRam_built : ∃ d s, Built smallKernel d s ∧ NoUserTables d ∧
    ∀ x, d.getPte x = kernelPte smallKernel (pgRoundDown x) := by
  have hnodup := manyPages_nodup
  have hfree := goodFree_manyPages
  have hcount := manyPages_count
  generalize manyPages = m at hnodup hfree hcount
  have hnodup' : (startRam m.free).free.Nodup := hnodup.of_cons.of_cons.of_cons
  have hgood : GoodFree smallKernel (startRam m.free).toKmem := hfree
  obtain ⟨d, k, hrun, hfresh, hlow, _⟩ := setupkvm_spare (n := 975) hgood rfl rfl
    (kernelTables_all smallKernel) (by rw [Finset.card_range]; exact hcount)
  exact ⟨d, _, .setup hnodup' hgood hrun, hlow, hfresh.getPte⟩

/-- A kernel address is refused. -/
theorem copyout_safe_kernbase : ∃ d s, Built smallKernel d s ∧
    CopyoutSafe none d KERNBASE [7] s := by
  obtain ⟨d, s, hbuilt, _, hget⟩ := manyRam_built
  refine ⟨d, s, hbuilt,
    (copyout_safe_iff_tablesThere smallKernel d s hbuilt none KERNBASE (by decide) [7]).mpr ?_⟩
  intro i hi _
  have hzero : i = 0 := Nat.lt_one_iff.mp hi
  have hpte : (d.getPte KERNBASE).isSome = true := by
    rw [hget]
    decide
  rw [hzero]
  exact tables_of_getPte hpte

/-- No page table is there for the address 0, and `uva2ka` reads the entry through a null
    pointer. -/
theorem copyout_null_table : ∃ d s, Built smallKernel d s ∧ ¬ CopyoutSafe none d 0 [7] s := by
  obtain ⟨d, s, hbuilt, hlow, _⟩ := manyRam_built
  refine ⟨d, s, hbuilt, fun hsafe => ?_⟩
  have htable := hsafe.noNull 0 mem_cons_self
  rw [hlow (PDX 0) (by decide)] at htable
  cases htable

end Ram

end Xv6Kernel
