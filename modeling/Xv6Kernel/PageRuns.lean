/-
  PageRuns.lean
  =============
  The pages of the whole machine.

  A page is on the free list, or it is the kernel stack of a process, a boot stack or a pipe, or
  it belongs to a page directory: that of a process, `kpgdir`, or the one that an `exec` in
  progress is building.  A step is one call of `kalloc`, `kfree` or a function of `vm.c` by some
  process, with what the caller does with the result; `exec` is several steps, between which
  other processes run.

  As long as `walkpgdir` is not refused a page, which it never is if `kalloc` does not return
  0, every page is in exactly one place.
-/
import Xv6Kernel.Exec

namespace Xv6Kernel

open PanicMonad Function List Option

/-! ### The state -/

/-- The memory of a process slot. -/
structure MemSlot where
  kstack : Option Nat
  pgdir : Option PageDir
  sz : Nat
  /-- The directory and size of an image that `exec` is building. -/
  building : Option (PageDir × Nat)

def MemSlot.unused : MemSlot := ⟨none, none, 0, none⟩

structure Memory where
  kmem : Kmem
  kpgdir : Option PageDir
  bootStacks : List Nat
  pipes : List Nat
  procs : Fin NPROC → MemSlot
  /-- `kinit2` has run. -/
  complete : Bool
  /-- The pages that `kinit1` and `kinit2` have put on the free list. -/
  given : List Nat

/-- The pages of `freerange(vstart, vend)`, in the order in which it frees them. -/
def freerange (vstart vend : Nat) : List Nat :=
  (List.range ((vend - pgRoundUp vstart) / PGSIZE)).map fun i => pgRoundUp vstart + i * PGSIZE

/-- The end of the memory that `entrypgdir` maps. -/
def BOOTTOP : Nat := 4 * 1024 * 1024

inductive MemAct where
  | kvmalloc
  | startother
  | kinit2
  | userinit (p : Fin NPROC)
  | allocproc (p : Fin NPROC)
  /-- `fork`, from `copyuvm` on. -/
  | fork (parent child : Fin NPROC)
  | execStart (p : Fin NPROC)
  | execGrow (p : Fin NPROC) (newsz : Nat)
  | execGuard (p : Fin NPROC) (uva : Nat)
  | execBad (p : Fin NPROC)
  | execCommit (p : Fin NPROC)
  | growproc (p : Fin NPROC) (n : Int)
  /-- `wait` finds the zombie `p`. -/
  | wait (p : Fin NPROC)
  | pipealloc
  | pipeclose (page : Nat)

/-! ### What a step does to a slot -/

variable (K : KernelImage)

def allocprocSlot : VmM MemSlot := do
  match ← kalloc with
  | none => return .unused
  | some kstack => return { MemSlot.unused with kstack := some kstack }

/-- `setupkvm` and `inituvm` in `userinit`; without memory it panics. -/
def userinitSlot (x : MemSlot) : VmM MemSlot := do
  match ← setupkvm K with
  | none => throw .kfree
  | some d =>
      match ← kalloc with
      | none => throw .kfree
      | some mem =>
          let (_, d) ← mappages d 0 PGSIZE mem true true
          return { x with pgdir := some d, sz := PGSIZE }

def forkSlot (parent : PageDir) (sz kstack : Nat) : VmM MemSlot := do
  match ← copyuvm K parent sz with
  | none =>
      kfree K kstack
      return .unused
  | some d => return { kstack := some kstack, pgdir := some d, sz := sz, building := none }

def execStartSlot (x : MemSlot) : VmM MemSlot := do
  match ← setupkvm K with
  | none => return x
  | some d => return { x with building := some (d, 0) }

def execGrowSlot (x : MemSlot) (d : PageDir) (sz newsz : Nat) : VmM MemSlot := do
  let (sz, d) ← allocuvm K d sz newsz
  return { x with building := some (d, sz) }

def execGuardSlot (x : MemSlot) (d : PageDir) (sz uva : Nat) : VmM MemSlot := do
  let d ← clearpteu d uva
  return { x with building := some (d, sz) }

def execBadSlot (x : MemSlot) (d : PageDir) : VmM MemSlot := do
  freevm K d
  return { x with building := none }

def execCommitSlot (x : MemSlot) (old d : PageDir) (sz : Nat) : VmM MemSlot := do
  freevm K old
  return { x with pgdir := some d, sz := sz, building := none }

/-- A result of 0 counts as an error, also that of `deallocuvm`: the size is then not set. -/
def growprocSlot (x : MemSlot) (d : PageDir) (n : Int) : VmM MemSlot := do
  let newsz := ((x.sz + n) % ADDRESSES).toNat
  if 0 < n then
    let (sz, d) ← allocuvm K d x.sz newsz
    return { x with pgdir := some d, sz := if sz = 0 then x.sz else sz }
  else if n < 0 then
    let (sz, d) ← deallocuvm K d x.sz newsz
    return { x with pgdir := some d, sz := if sz = 0 then x.sz else sz }
  else return x

def waitSlot (kstack : Nat) (d : PageDir) : VmM MemSlot := do
  kfree K kstack
  freevm K d
  return .unused

/-- The slot that a step changes, and how. -/
def slotStep (procs : Fin NPROC → MemSlot) : MemAct → Option (Fin NPROC × VmM MemSlot)
  | .userinit p =>
      match procs p with
      | ⟨some _, none, _, none⟩ => some (p, userinitSlot K (procs p))
      | _ => none
  | .allocproc p =>
      match procs p with
      | ⟨none, none, _, none⟩ => some (p, allocprocSlot)
      | _ => none
  | .fork parent child =>
      match (procs parent).pgdir, procs child with
      | some d, ⟨some kstack, none, _, none⟩ => some (child, forkSlot K d (procs parent).sz kstack)
      | _, _ => none
  | .execStart p =>
      match procs p with
      | ⟨_, some _, _, none⟩ => some (p, execStartSlot K (procs p))
      | _ => none
  | .execGrow p newsz =>
      match (procs p).building with
      | some (d, sz) => some (p, execGrowSlot K (procs p) d sz newsz)
      | none => none
  | .execGuard p uva =>
      match (procs p).building with
      | some (d, sz) => some (p, execGuardSlot (procs p) d sz uva)
      | none => none
  | .execBad p =>
      match (procs p).building with
      | some (d, _) => some (p, execBadSlot K (procs p) d)
      | none => none
  | .execCommit p =>
      match (procs p).pgdir, (procs p).building with
      | some old, some (d, sz) => some (p, execCommitSlot K (procs p) old d sz)
      | _, _ => none
  | .growproc p n =>
      match procs p with
      | ⟨_, some d, _, none⟩ => some (p, growprocSlot K (procs p) d n)
      | _ => none
  | .wait p =>
      match procs p with
      | ⟨some kstack, some d, _, none⟩ => some (p, waitSlot K kstack d)
      | _ => none
  | _ => none

/-! ### Steps -/

/-- The result of a call that does not panic. -/
def ran {α : Type} (m : VmM α) (s : Kmem) : Option (α × Kmem) :=
  match m s with
  | .ok a t => some (a, t)
  | .error _ _ => none

namespace Memory

def setSlot (s : Memory) (p : Fin NPROC) (r : MemSlot × Kmem) : Memory :=
  { s with kmem := r.2, procs := update s.procs p r.1 }

def step (s : Memory) (a : MemAct) : Option (Memory × List Empty) :=
  match a with
  | .kvmalloc =>
      if s.kpgdir.isNone then
        (ran (setupkvm K) s.kmem).map fun r => ({ s with kpgdir := r.1, kmem := r.2 }, [])
      else none
  | .startother =>
      (ran kalloc s.kmem).map fun r =>
        ({ s with bootStacks := r.1.toList ++ s.bootStacks, kmem := r.2 }, [])
  | .kinit2 =>
      if s.complete then none
      else
        let pages := freerange BOOTTOP PHYSTOP
        let kmem := { s.kmem with free := pages.reverse ++ s.kmem.free }
        some ({ s with kmem := kmem, complete := true, given := pages ++ s.given }, [])
  | .pipealloc =>
      (ran kalloc s.kmem).map fun r =>
        ({ s with pipes := r.1.toList ++ s.pipes, kmem := r.2 }, [])
  | .pipeclose page =>
      if page ∈ s.pipes then
        (ran (kfree K page) s.kmem).map fun r =>
          ({ s with pipes := s.pipes.erase page, kmem := r.2 }, [])
      else none
  | a =>
      match slotStep K s.procs a with
      | some (p, m) => (ran m s.kmem).map fun r => (s.setSlot p r, [])
      | none => none

/-- After `kinit1`. -/
structure Initial (s : Memory) : Prop where
  free : s.kmem.free = (freerange K.kend BOOTTOP).reverse
  short : s.kmem.short = false
  kpgdir : s.kpgdir = none
  bootStacks : s.bootStacks = []
  pipes : s.pipes = []
  procs : ∀ p, s.procs p = .unused
  complete : s.complete = false
  given : s.given = freerange K.kend BOOTTOP

end Memory

def memorySystem : TransitionSystem Memory MemAct Empty where
  init := Memory.Initial K
  step := Memory.step K

/-! ### The pages of a slot -/

def ownedDir (d : Option PageDir) (p : Nat) : Nat := d.elim 0 fun d => owned d p

def slotPages (x : MemSlot) (p : Nat) : Nat :=
  (x.kstack.elim 0 fun k => one k p) + ownedDir x.pgdir p + ownedDir (x.building.map Prod.fst) p

/-- Sizes end below the kernel. -/
structure SlotOk (x : MemSlot) : Prop where
  sz : x.sz ≤ KERNBASE
  building : ∀ d sz, x.building = some (d, sz) → sz ≤ KERNBASE

theorem slotOk_unused : SlotOk .unused := ⟨Nat.zero_le _, fun _ _ h => nomatch h⟩

/-- A call that works on the pages `own` of a slot; the rest of the slot stays. -/
theorem Books.frame (h : Books s own s' own') (r : Nat → Nat)
    (ha : ∀ p, a p = r p + own p) (hb : ∀ p, b p = r p + own' p) : Books s a s' b := by
  obtain ⟨lost, hc, hs⟩ := h
  refine ⟨lost, fun p => ?_, hs⟩
  have h1 := hc p
  have h2 := ha p
  have h3 := hb p
  omega

section

variable {K} {x : MemSlot} {p : Fin NPROC}

/-- What a step does to a slot. -/
def SlotWp (x : MemSlot) (m : VmM MemSlot) (s : Kmem) : Prop :=
  wp m (fun x' t => Books s (slotPages x) t (slotPages x') ∧ SlotOk x') (fun _ _ => True) s

variable {d : PageDir} {sz : Nat}

theorem allocprocSlot_wp : SlotWp ⟨none, none, sz, none⟩ allocprocSlot s := by
  unfold SlotWp allocprocSlot
  rw [wp_bind]
  refine kalloc_wp (fun _ => ?_) fun k t hm _ => ?_
  · exact ⟨(Moves.refl s _).books, slotOk_unused⟩
  · refine ⟨hm.books.frame (fun _ => 0) (fun _ => rfl) fun p => (Nat.zero_add _).symm, ?_⟩
    exact ⟨Nat.zero_le _, fun _ _ h => nomatch h⟩

theorem userinitSlot_wp (hx : x = ⟨some k, none, sz, none⟩) : SlotWp x (userinitSlot K x) s := by
  have hE : ∀ (e : VmPanic) (t : Kmem), (fun _ _ => True) e t := fun _ _ => trivial
  have hzero : (0 : Nat) < KERNBASE := by decide
  have hok : ∀ d t, Books s (fun _ => 0) t (owned d) →
      Books s (slotPages x) t (slotPages { x with pgdir := some d, sz := PGSIZE }) ∧
        SlotOk { x with pgdir := some d, sz := PGSIZE } := by
    intro d t hb
    subst hx
    have hsize : PGSIZE ≤ KERNBASE := by decide
    exact ⟨hb.frame (one k) (fun _ => rfl) fun p => rfl, ⟨hsize, fun _ _ h => nomatch h⟩⟩
  unfold SlotWp userinitSlot
  rw [wp_bind]
  refine setupkvm_wp hE (fun _ _ => trivial) fun d t hm => ?_
  rw [wp_bind]
  refine kalloc_wp (fun _ => trivial) fun mem t₁ hm₁ _ => ?_
  rw [wp_bind]
  refine mappages_user_wp hE hzero (by decide) ?_ ?_
  · intro t₂ hf hs _
    refine hok d t₂ (hm.books.trans (books_of_loss (m := mem) (fun p => ?_) hs))
    have h1 := hm₁.count p
    rw [hf]
    omega
  · intro d' t₂ hm₂ _
    refine hok d' t₂ (hm.books.trans (Moves.books ⟨fun p => ?_, hm₂.short.trans hm₁.short⟩))
    have h1 := hm₁.count p
    have h2 := hm₂.count p
    omega

theorem forkSlot_wp (hsz : sz ≤ KERNBASE) :
    SlotWp ⟨some k, none, sz', none⟩ (forkSlot K d sz k) s := by
  have hE : ∀ (e : VmPanic) (t : Kmem), (fun _ _ => True) e t := fun _ _ => trivial
  unfold SlotWp forkSlot
  rw [wp_bind]
  refine copyuvm_wp hE hsz (fun t hb => ?_) fun d' t hm => ?_
  · dsimp only
    rw [wp_bind]
    refine kfree_wp hE fun t' hm _ => ⟨?_, slotOk_unused⟩
    refine (hb.frame (one k) (fun _ => rfl) fun _ => rfl).trans ?_
    exact hm.books.frame (fun _ => 0) (fun p => (Nat.zero_add _).symm) fun _ => rfl
  · exact ⟨hm.books.frame (one k) (fun _ => rfl) fun _ => rfl, ⟨hsz, fun _ _ h => nomatch h⟩⟩

theorem execStartSlot_wp (hx : SlotOk x) (hnone : x.building = none) :
    SlotWp x (execStartSlot K x) s := by
  unfold SlotWp execStartSlot
  rw [wp_bind]
  refine setupkvm_wp (fun _ _ => trivial) (fun t hb => ?_) fun d t hm => ?_
  · exact ⟨hb.frame (slotPages x) (fun _ => rfl) fun _ => rfl, hx⟩
  · refine ⟨hm.books.frame (slotPages x) (fun _ => rfl) fun p => ?_, hx.sz, ?_⟩
    · simp only [slotPages, hnone, map_none, map_some, ownedDir, elim_none, elim_some, Nat.add_zero]
    · rintro d' sz' hb
      cases hb
      exact Nat.zero_le _

/-- The pages of a slot other than those of the image being built. -/
def settledPages (x : MemSlot) (p : Nat) : Nat :=
  (x.kstack.elim 0 fun k => one k p) + ownedDir x.pgdir p

theorem slotPages_building (hb : x.building = some (d, sz)) (p : Nat) :
    slotPages x p = settledPages x p + owned d p := by
  unfold slotPages settledPages
  rw [hb]
  rfl

section

variable (hx : SlotOk x) (hb : x.building = some (d, sz))

include hx hb

theorem execGrowSlot_wp : SlotWp x (execGrowSlot K x d sz newsz) s := by
  unfold SlotWp execGrowSlot
  rw [wp_bind]
  refine allocuvm_wp (fun _ _ => trivial) fun r d' t hbooks hr => ⟨?_, hx.sz, ?_⟩
  · exact hbooks.frame (settledPages x) (slotPages_building hb) fun _ => rfl
  · rintro d'' sz' hb'
    obtain ⟨rfl, rfl⟩ := Prod.mk.inj (some.inj hb')
    exact hr (hx.building d sz hb)

theorem execGuardSlot_wp : SlotWp x (execGuardSlot x d sz uva) s := by
  unfold SlotWp execGuardSlot
  rw [wp_bind]
  refine clearpteu_wp (fun _ _ => trivial) fun d' hsame => ⟨?_, hx.sz, ?_⟩
  · refine (Moves.refl s (owned d)).books.frame (settledPages x) (slotPages_building hb) fun p => ?_
    rw [← hsame]
    rfl
  · rintro d'' sz' hb'
    obtain ⟨rfl, rfl⟩ := Prod.mk.inj (some.inj hb')
    exact hx.building d sz hb

theorem execBadSlot_wp : SlotWp x (execBadSlot K x d) s := by
  unfold SlotWp execBadSlot
  rw [wp_bind]
  refine freevm_wp (fun _ _ => trivial) fun t hm => ⟨?_, hx.sz, fun _ _ h => nomatch h⟩
  exact hm.books.frame (settledPages x) (slotPages_building hb) fun _ => rfl

end

theorem execCommitSlot_wp (hx : SlotOk x) (hold : x.pgdir = some old)
    (hb : x.building = some (d, sz)) : SlotWp x (execCommitSlot K x old d sz) s := by
  unfold SlotWp execCommitSlot
  rw [wp_bind]
  refine freevm_wp (fun _ _ => trivial) fun t hm =>
    ⟨?_, hx.building d sz hb, fun _ _ h => nomatch h⟩
  refine hm.books.frame (fun p => (x.kstack.elim 0 fun k => one k p) + owned d p) (fun p => ?_)
    fun p => rfl
  rw [slotPages_building hb]
  unfold settledPages
  rw [hold]
  exact Nat.add_right_comm _ _ _

/-- A slot with one directory that is replaced by another. -/
theorem slotPages_pgdir (hd : x.pgdir = some d) (hb : x.building = none) (p : Nat) :
    slotPages x p = (x.kstack.elim 0 fun k => one k p) + owned d p := by
  unfold slotPages
  rw [hd, hb]
  rfl

theorem growprocSlot_wp (hx : SlotOk x) (hd : x.pgdir = some d) (hb : x.building = none) :
    SlotWp x (growprocSlot K x d n) s := by
  have hsz : ∀ r : Nat, r ≤ KERNBASE → (if r = 0 then x.sz else r) ≤ KERNBASE := by
    intro r hr
    split_ifs
    · exact hx.sz
    · exact hr
  have hok : ∀ d' sz' t, Books s (owned d) t (owned d') → sz' ≤ KERNBASE →
      Books s (slotPages x) t (slotPages { x with pgdir := some d', sz := sz' }) ∧
        SlotOk { x with pgdir := some d', sz := sz' } := by
    intro d' sz' t hbooks hsz'
    refine ⟨hbooks.frame _ (slotPages_pgdir hd hb) fun p => ?_, hsz', hx.building⟩
    exact slotPages_pgdir (x := { x with pgdir := some d', sz := sz' }) rfl hb p
  refine wp_ite (fun _ => ?_) fun _ => wp_ite (fun _ => ?_) fun _ => ?_
  · rw [wp_bind]
    refine allocuvm_wp (fun _ _ => trivial) fun r d' t hbooks hr => ?_
    exact hok d' _ t hbooks (hsz r (hr hx.sz))
  · rw [wp_bind]
    refine deallocuvm_wp (fun _ _ => trivial) hx.sz fun r d' t hm hr => ?_
    exact hok d' _ t hm.books (hsz r (hr.trans hx.sz))
  · exact ⟨(Moves.refl s _).books, hx⟩

/-- `wait` gives back all pages of the slot. -/
theorem waitSlot_moves (sz : Nat) (hE : ∀ e t, E e t) : wp (waitSlot K k d)
      (fun x t => x = .unused ∧
        Moves s (slotPages ⟨some k, some d, sz, none⟩) t fun _ => 0) E s := by
  unfold waitSlot
  rw [wp_bind]
  refine kfree_wp hE fun t hm _ => ?_
  rw [wp_bind]
  refine freevm_wp hE fun t' hm' => ⟨rfl, fun p => ?_, hm'.short.trans hm.short⟩
  have h1 := hm.count p
  have h2 := hm'.count p
  have hpages : slotPages ⟨some k, some d, sz, none⟩ p = one k p + owned d p := rfl
  rw [hpages]
  omega

theorem waitSlot_wp : SlotWp ⟨some k, some d, sz, none⟩ (waitSlot K k d) s := by
  refine wp_mono (waitSlot_moves sz fun _ _ => trivial) ?_ fun _ _ h => h
  rintro x t ⟨rfl, hm⟩
  exact ⟨hm.books, slotOk_unused⟩

theorem slotStep_wp (hok : ∀ q, SlotOk (procs q))
    (h : slotStep K procs a = some (p, m)) : SlotWp (procs p) m s := by
  cases a with
  | userinit q =>
    simp only [slotStep] at h
    split at h
    · rename_i k sz heq
      cases h
      exact userinitSlot_wp heq
    · cases h
  | allocproc q =>
    simp only [slotStep] at h
    split at h
    · rename_i sz heq
      cases h
      rw [heq]
      exact allocprocSlot_wp
    · cases h
  | fork parent child =>
    simp only [slotStep] at h
    split at h
    · rename_i d k sz hd heq
      cases h
      rw [heq]
      exact forkSlot_wp (hok parent).sz
    · cases h
  | execStart q =>
    simp only [slotStep] at h
    split at h
    · rename_i k d sz heq
      obtain ⟨rfl, rfl⟩ := Prod.mk.inj (some.inj h)
      exact execStartSlot_wp (hok q) (by rw [heq])
    · cases h
  | execGrow q newsz =>
    simp only [slotStep] at h
    split at h
    · rename_i d sz heq
      obtain ⟨rfl, rfl⟩ := Prod.mk.inj (some.inj h)
      exact execGrowSlot_wp (hok q) heq
    · cases h
  | execGuard q uva =>
    simp only [slotStep] at h
    split at h
    · rename_i d sz heq
      obtain ⟨rfl, rfl⟩ := Prod.mk.inj (some.inj h)
      exact execGuardSlot_wp (hok q) heq
    · cases h
  | execBad q =>
    simp only [slotStep] at h
    split at h
    · rename_i d sz heq
      obtain ⟨rfl, rfl⟩ := Prod.mk.inj (some.inj h)
      exact execBadSlot_wp (hok q) heq
    · cases h
  | execCommit q =>
    simp only [slotStep] at h
    split at h
    · rename_i old d sz hold heq
      obtain ⟨rfl, rfl⟩ := Prod.mk.inj (some.inj h)
      exact execCommitSlot_wp (hok q) hold heq
    · cases h
  | growproc q n =>
    simp only [slotStep] at h
    split at h
    · rename_i k d sz heq
      obtain ⟨rfl, rfl⟩ := Prod.mk.inj (some.inj h)
      exact growprocSlot_wp (hok q) (by rw [heq]) (by rw [heq])
    · cases h
  | wait q =>
    simp only [slotStep] at h
    split at h
    · rename_i k d sz heq
      cases h
      rw [heq]
      exact waitSlot_wp
    · cases h
  | _ => cases h

end

/-! ### The pages of the machine -/

theorem ran_of_wp (h : wp m P E s) (hr : ran m s = some (a, t)) : P a t := by
  unfold wp at h
  unfold ran at hr
  cases hm : m s with
  | ok b u =>
    rw [hm] at h hr
    cases hr
    exact h
  | error e u =>
    rw [hm] at hr
    cases hr

namespace Memory

variable {K} {s s' : Memory} {ev : List Empty}

/-- How often a page is in use. -/
def held (s : Memory) (p : Nat) : Nat :=
  ∑ q, slotPages (s.procs q) p + ownedDir s.kpgdir p + s.bootStacks.count p + s.pipes.count p

theorem held_setSlot (q : Fin NPROC) (r : MemSlot × Kmem) (p : Nat) :
    (s.setSlot q r).held p + slotPages (s.procs q) p = s.held p + slotPages r.1 p := by
  have h := sum_one_changed (Finset.mem_univ q) s.procs r.1 fun _ x => slotPages x p
  unfold held setSlot
  dsimp only
  omega

/-- Every page that was put on the free list is free or in use, once, as long as `walkpgdir` was
    refused none. -/
structure Sound (s : Memory) : Prop where
  slots : ∀ q, SlotOk (s.procs q)
  pages : s.kmem.short = false → ∀ p, s.kmem.free.count p + s.held p = s.given.count p

theorem count_toList (o : Option Nat) (l : List Nat) (p : Nat) :
    (o.toList ++ l).count p = l.count p + o.elim 0 fun k => one k p := by
  cases o with
  | none => rfl
  | some k => exact count_cons_one k p l

/-- A step that gives or takes pages `own` of the rest. -/
theorem Sound.of_books (h : Sound s) (hb : Books s.kmem own s'.kmem own')
    (hslots : ∀ q, SlotOk (s'.procs q)) (hgiven : s'.given = s.given)
    (hheld : ∀ p, s'.held p + own p = s.held p + own' p) : Sound s' := by
  refine ⟨hslots, fun hs p => ?_⟩
  have hm := hb.moves hs
  have hpages := h.pages (hm.short.symm.trans hs) p
  have h1 := hm.count p
  have h2 := hheld p
  rw [hgiven]
  omega

theorem kalloc_books {s : Kmem} : wp kalloc
    (fun o t => Books s (fun _ => 0) t fun p => o.elim 0 fun k => one k p) (fun _ _ => True) s :=
  kalloc_wp (fun _ => (Moves.refl s _).books) fun _ _ hm _ => hm.books

theorem setupkvm_books {s : Kmem} : wp (setupkvm K)
    (fun o t => Books s (fun _ => 0) t (ownedDir o)) (fun _ _ => True) s :=
  setupkvm_wp (fun _ _ => trivial) (fun _ hb => hb) fun _ _ hm => hm.books

theorem Sound.step (h : Sound s) (hstep : s.step K a = some (s', ev)) : Sound s' := by
  have hslot : ∀ {b : MemAct}, (match slotStep K s.procs b with
      | some (p, m) => (ran m s.kmem).map fun r => (s.setSlot p r, [])
      | none => none) = some (s', ev) → Sound s' := by
    intro b hb
    split at hb
    · rename_i p m hslotStep
      obtain ⟨r, hr, heq⟩ := map_eq_some_iff.mp hb
      cases heq
      obtain ⟨hbooks, hok⟩ := ran_of_wp (slotStep_wp h.slots hslotStep) hr
      refine h.of_books hbooks (fun q => ?_) rfl fun x => held_setSlot p r x
      change SlotOk (update s.procs p r.1 q)
      by_cases hq : q = p
      · rw [hq, update_self]
        exact hok
      · rw [update_of_ne hq]
        exact h.slots q
    · cases hb
  cases a with
  | kvmalloc =>
    simp only [Memory.step] at hstep
    split_ifs at hstep with hnone
    obtain ⟨⟨o, t⟩, hr, heq⟩ := map_eq_some_iff.mp hstep
    cases heq
    refine h.of_books (ran_of_wp setupkvm_books hr) h.slots rfl fun p => ?_
    have hkp : ownedDir s.kpgdir p = 0 := by
      rw [isNone_iff_eq_none.mp hnone]
      rfl
    unfold held
    dsimp only
    omega
  | startother =>
    simp only [Memory.step] at hstep
    obtain ⟨⟨o, t⟩, hr, heq⟩ := map_eq_some_iff.mp hstep
    cases heq
    refine h.of_books (ran_of_wp kalloc_books hr) h.slots rfl fun p => ?_
    have hcount := count_toList o s.bootStacks p
    unfold held
    dsimp only
    omega
  | kinit2 =>
    simp only [Memory.step] at hstep
    generalize freerange BOOTTOP PHYSTOP = pages at hstep
    split_ifs at hstep with hdone
    cases hstep
    refine ⟨h.slots, fun hs p => ?_⟩
    have hpages := h.pages hs p
    change (pages.reverse ++ s.kmem.free).count p + s.held p = (pages ++ s.given).count p
    rw [count_append, count_append, count_reverse]
    omega
  | pipealloc =>
    simp only [Memory.step] at hstep
    obtain ⟨⟨o, t⟩, hr, heq⟩ := map_eq_some_iff.mp hstep
    cases heq
    refine h.of_books (ran_of_wp kalloc_books hr) h.slots rfl fun p => ?_
    have hcount := count_toList o s.pipes p
    unfold held
    dsimp only
    omega
  | pipeclose page =>
    simp only [Memory.step] at hstep
    split_ifs at hstep with hmem
    obtain ⟨⟨_, t⟩, hr, heq⟩ := map_eq_some_iff.mp hstep
    cases heq
    have hfree : wp (kfree K page) (fun _ t => Books s.kmem (one page) t fun _ => 0)
        (fun _ _ => True) s.kmem := kfree_wp (fun _ _ => trivial) fun _ hm _ => hm.books
    refine h.of_books (ran_of_wp hfree hr) h.slots rfl fun p => ?_
    have hcount := (perm_cons_erase hmem).count_eq p
    rw [count_cons_one] at hcount
    unfold held
    dsimp only
    omega
  | _ => exact hslot hstep

theorem Sound.initial (h : s.Initial K) : Sound s := by
  refine ⟨fun q => by rw [h.procs]; exact slotOk_unused, fun _ p => ?_⟩
  have hslots : ∑ q, slotPages (s.procs q) p = 0 := by
    refine Finset.sum_eq_zero fun q _ => ?_
    rw [h.procs]
    rfl
  have hheld : s.held p = 0 := by
    unfold held
    rw [hslots, h.kpgdir, h.bootStacks, h.pipes]
    rfl
  rw [hheld, h.free, h.given, count_reverse, Nat.add_zero]

/-! ### The pages given out -/

theorem mem_freerange (h : p ∈ freerange vstart vend) : pgRoundUp vstart ≤ p ∧ p < vend := by
  obtain ⟨i, hi, rfl⟩ := mem_map.mp h
  have hi := mem_range.mp hi
  unfold PGSIZE at *
  omega

theorem nodup_freerange (vstart vend : Nat) : (freerange vstart vend).Nodup := by
  refine List.Nodup.map (fun i j hij => ?_) nodup_range
  unfold PGSIZE at hij
  omega

/-- Which pages have been given out. -/
def Given (K : KernelImage) (s : Memory) : Prop :=
  s.given = if s.complete then freerange BOOTTOP PHYSTOP ++ freerange K.kend BOOTTOP
    else freerange K.kend BOOTTOP

theorem Given.nodup (h : Given K s) : s.given.Nodup := by
  have hround : pgRoundUp BOOTTOP = BOOTTOP := by decide
  rw [h]
  split_ifs
  · refine nodup_append.mpr ⟨nodup_freerange _ _, nodup_freerange _ _, ?_⟩
    intro p hp q hq hpq
    have h1 := (mem_freerange hp).1
    have h2 := (mem_freerange hq).2
    omega
  · exact nodup_freerange _ _

theorem Given.step (h : Given K s) (hstep : s.step K a = some (s', ev)) : Given K s' := by
  have hsame : s'.given = s.given → s'.complete = s.complete → Given K s' := by
    intro hg hc
    unfold Given
    rw [hg, hc]
    exact h
  unfold Given at h
  cases a with
  | kinit2 =>
    simp only [Memory.step] at hstep
    split_ifs at hstep with hdone
    rw [if_neg hdone] at h
    obtain ⟨rfl, -⟩ := Prod.mk.inj (some.inj hstep)
    exact congrArg (freerange BOOTTOP PHYSTOP ++ ·) h
  | kvmalloc =>
    simp only [Memory.step] at hstep
    split_ifs at hstep
    obtain ⟨r, -, heq⟩ := map_eq_some_iff.mp hstep
    cases heq
    exact hsame rfl rfl
  | startother =>
    obtain ⟨r, -, heq⟩ := map_eq_some_iff.mp hstep
    cases heq
    exact hsame rfl rfl
  | pipealloc =>
    obtain ⟨r, -, heq⟩ := map_eq_some_iff.mp hstep
    cases heq
    exact hsame rfl rfl
  | pipeclose page =>
    simp only [Memory.step] at hstep
    split_ifs at hstep
    obtain ⟨r, -, heq⟩ := map_eq_some_iff.mp hstep
    cases heq
    exact hsame rfl rfl
  | _ =>
    simp only [Memory.step] at hstep
    split at hstep
    · obtain ⟨r, -, heq⟩ := map_eq_some_iff.mp hstep
      cases heq
      exact hsame rfl rfl
    · cases hstep

theorem reachable_sound (hs : (memorySystem K).Reachable s) : Sound s :=
  hs.invariant (fun _ h => Sound.initial h) fun _ _ _ _ h hstep => h.step hstep

theorem reachable_given (hs : (memorySystem K).Reachable s) : Given K s := by
  refine hs.invariant (fun s h => ?_) fun _ _ _ _ h hstep => h.step hstep
  unfold Given
  rw [h.complete, h.given]
  rfl

/-- Two slots are two different places. -/
theorem slotPages_add_le (hqr : q ≠ r) (p : Nat) :
    slotPages (s.procs q) p + slotPages (s.procs r) p ≤ s.held p := by
  have hpair := Finset.sum_pair (f := fun x => slotPages (s.procs x) p) hqr
  have hle : ∑ x ∈ {q, r}, slotPages (s.procs x) p ≤ ∑ x, slotPages (s.procs x) p :=
    Finset.sum_le_sum_of_subset (Finset.subset_univ _)
  unfold held
  omega

theorem free_of_wait (hstep : s.step K (.wait q) = some (s', ev)) : s'.procs q = .unused ∧
      ∀ p, s'.kmem.free.count p = s.kmem.free.count p + slotPages (s.procs q) p := by
  simp only [Memory.step, slotStep] at hstep
  split at hstep
  · rename_i p m hslot
    split at hslot
    · rename_i k d sz heq
      cases hslot
      obtain ⟨r, hr, hs'⟩ := map_eq_some_iff.mp hstep
      obtain ⟨rfl, -⟩ := Prod.mk.inj hs'
      have hwp := waitSlot_moves (K := K) (s := s.kmem) (k := k) (d := d)
        (E := fun _ _ => True) sz fun _ _ => trivial
      obtain ⟨hunused, hm⟩ := ran_of_wp hwp hr
      refine ⟨?_, fun p => ?_⟩
      · change update s.procs q r.1 q = .unused
        rw [update_self]
        exact hunused
      · rw [heq]
        exact (hm.count p).symm
    · cases hslot
  · cases hstep

/-- Every page is in exactly one place, in every state of every run in which `walkpgdir` is
    refused no page, in particular if `kalloc` never returns 0; two processes have no page in
    common, what is freed is not free, and `wait` puts all pages of a process back. -/
theorem pages_in_one_place (hs : (memorySystem K).Reachable s) (hshort : s.kmem.short = false) :
    (∀ p ∈ s.given, s.kmem.free.count p + s.held p = 1) ∧
    (∀ p, p ∉ s.given → p ∉ s.kmem.free ∧ s.held p = 0) ∧
    (∀ p, 0 < s.held p → p ∉ s.kmem.free) ∧
    (∀ q r p, q ≠ r → 0 < slotPages (s.procs q) p → slotPages (s.procs r) p = 0) ∧
    ∀ q s' ev, s.step K (.wait q) = some (s', ev) → s'.procs q = .unused ∧
      ∀ p, s'.kmem.free.count p = s.kmem.free.count p + slotPages (s.procs q) p := by
  have hnodup := (reachable_given hs).nodup
  have hpages := (reachable_sound hs).pages hshort
  have hle : ∀ p, s.kmem.free.count p + s.held p ≤ 1 := fun p => by
    rw [hpages p]
    exact nodup_iff_count_le_one.mp hnodup p
  refine ⟨fun p hp => ?_, fun p hp => ?_, fun p hp => ?_, fun q r p hqr hq => ?_, ?_⟩
  · rw [hpages p, count_eq_one_of_mem hnodup hp]
  · have h := hpages p
    rw [count_eq_zero_of_not_mem hp] at h
    exact ⟨count_eq_zero.mp (by omega), by omega⟩
  · have h := hle p
    exact count_eq_zero.mp (by omega)
  · have h1 := hle p
    have h2 := slotPages_add_le (s := s) hqr p
    omega
  · exact fun q s' ev hstep => free_of_wait hstep

/-- The machine after `kinit1`. -/
def afterKinit1 (K : KernelImage) : Memory where
  kmem := ⟨(freerange K.kend BOOTTOP).reverse, false, [], []⟩
  kpgdir := none
  bootStacks := []
  pipes := []
  procs := fun _ => .unused
  complete := false
  given := freerange K.kend BOOTTOP

theorem afterKinit1_initial (K : KernelImage) : (afterKinit1 K).Initial K :=
  ⟨rfl, rfl, rfl, rfl, rfl, fun _ => rfl, rfl, rfl⟩

/-- A process gets its kernel stack. -/
theorem pages_in_one_place_kstack : ∃ s ev, (memorySystem smallKernel).run (afterKinit1 smallKernel)
      [.startother, .allocproc 0] = some (s, ev) ∧
      s.kmem.short = false ∧ ∀ p ∈ s.given, s.kmem.free.count p + s.held p = 1 := by
  have heval : ((memorySystem smallKernel).run (afterKinit1 smallKernel)
      [.startother, .allocproc 0]).map (fun r => r.1.kmem.short) = some false := by
    decide +kernel
  obtain ⟨⟨s, ev⟩, hrun, hshort⟩ := map_eq_some_iff.mp heval
  have hs : (memorySystem smallKernel).Reachable s :=
    TransitionSystem.Reachable.run (.init (afterKinit1_initial _)) hrun
  exact ⟨s, ev, hrun, hshort, (pages_in_one_place hs hshort).1⟩

end Memory

end Xv6Kernel
