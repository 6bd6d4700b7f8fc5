/-
  Exec.lean
  =========
  The memory of `fork` and of `exec`.

  `exec` reads its file with `readi`, from a disk inode or from a device.  The stores of
  `loaduvm` and `copyout` are not carried out: what matters is the page they go to.  A store to
  a page that `allocuvm` did not get for the new image ends the run with `wildStore`.

  A call that returns -1 gives back every page it got if and only if `walkpgdir` was never
  refused a page for a page table: `setupkvm` then drops its directory, and `copyuvm` and
  `allocuvm` drop the frame that they could not map.
-/
import Xv6Kernel.PageAccounts

namespace Xv6Kernel

open PanicMonad Function

/-! ### `fork` -/

section

variable (K : KernelImage)

/-- The pages of `allocproc` and `fork`: the kernel stack and the directory of the child, or
    `none` for -1.  `slot` says whether there is an `UNUSED` process. -/
def forkMem (slot : Bool) (pgdir : PageDir) (sz : Nat) : VmM (Option (Nat × PageDir)) :=
  if slot then do
    match ← kalloc with
    | none => return none
    | some kstack =>
        match ← copyuvm K pgdir sz with
        | none =>
            kfree K kstack
            return none
        | some d => return some (kstack, d)
  else return none

end

/-! ### Executable files -/

def MAXARG : Nat := 32
def ELF_MAGIC : Nat := 0x464C457F
def ELF_PROG_LOAD : Nat := 1
/-- `sizeof(struct elfhdr)`. -/
def ELFHDRSIZE : Nat := 52
/-- `sizeof(struct proghdr)`. -/
def PROGHDRSIZE : Nat := 32

/-- A read of a device: the bytes it stores, and whether it was killed then. -/
structure DevRead where
  bytes : List Byte
  killed : Bool

inductive ExeFile where
  | disk (bytes : List Byte)
  /-- A device, with the results of the reads to come; there are none if it has no `read`. -/
  | dev (reads : List DevRead)

/-- `readi(ip, dst, off, n)`: its result, the bytes it stores, and the file for the next read. -/
def ExeFile.readi (f : ExeFile) (off n : Nat) : Int × List Byte × ExeFile :=
  match f with
  | .disk bytes =>
      if bytes.length < off ∨ (off + n) % ADDRESSES < off then (-1, [], f)
      else
        let m := if bytes.length < (off + n) % ADDRESSES then bytes.length - off else n
        (m, (bytes.drop off).take m, f)
  | .dev [] => (-1, [], f)
  | .dev (r :: rs) =>
      let got := r.bytes.take n
      (if r.killed then -1 else got.length, got, .dev rs)

/-- A little-endian number of `k` bytes. -/
def leNat (bytes : List Byte) (off : Nat) : (k : Nat) → Nat
  | 0 => 0
  | k + 1 => (bytes.getD off 0).toNat + 256 * leNat bytes (off + 1) k

/-- The fields of `struct elfhdr` that `exec` reads. -/
structure ElfHdr where
  magic : Nat
  entry : Nat
  phoff : Nat
  phnum : Nat

def elfHdr (bytes : List Byte) : ElfHdr where
  magic := leNat bytes 0 4
  entry := leNat bytes 24 4
  phoff := leNat bytes 28 4
  phnum := leNat bytes 44 2

structure ProgHdr where
  type : Nat
  off : Nat
  vaddr : Nat
  filesz : Nat
  memsz : Nat

def progHdr (bytes : List Byte) : ProgHdr where
  type := leNat bytes 0 4
  off := leNat bytes 4 4
  vaddr := leNat bytes 8 4
  filesz := leNat bytes 16 4
  memsz := leNat bytes 20 4

/-! ### Loading -/

/-- `PTE_ADDR(*pte)`. -/
def pteAddr : Option Pte → Nat
  | none => 0
  | some e => e.pa

/-- A store of bytes to the page `pa`. -/
def storeTo (pa : Nat) (bytes : List Byte) : VmM Unit := do
  if bytes ≠ [] ∧ pa ∉ (← get).user then throw .wildStore

def loadLoop (d : PageDir) (addr offset sz : Nat) :
    (fuel : Nat) → (i : Nat) → ExeFile → VmM (Bool × ExeFile)
  | 0, _, f => return (false, f)
  | fuel + 1, i, f =>
      if i < sz then do
        match ← walkpgdir d ((addr + i) % ADDRESSES) false with
        | none => throw .shouldExist
        | some d =>
            let n := if sz - i < PGSIZE then sz - i else PGSIZE
            let (r, bytes, f) := f.readi ((offset + i) % ADDRESSES) n
            storeTo (pteAddr (d.getPte ((addr + i) % ADDRESSES))) bytes
            if r ≠ n then return (false, f)
            else loadLoop d addr offset sz fuel (i + PGSIZE) f
      else return (true, f)

/-- The offsets `loadLoop` gets to if it stops at no panic, with what it stores there. -/
def loadVisits (offset sz : Nat) : (fuel : Nat) → (i : Nat) → ExeFile → List (Nat × List Byte)
  | 0, _, _ => []
  | fuel + 1, i, f =>
      if i < sz then
        let n := if sz - i < PGSIZE then sz - i else PGSIZE
        let (r, bytes, f) := f.readi ((offset + i) % ADDRESSES) n
        (i, bytes) :: if r ≠ n then [] else loadVisits offset sz fuel (i + PGSIZE) f
      else []

def recordCall (c : List Nat → StoreCall) : VmM Unit :=
  modify fun s => { s with calls := c s.user :: s.calls }

def loaduvm (d : PageDir) (addr : Nat) (f : ExeFile) (offset sz : Nat) :
    VmM (Bool × ExeFile) := do
  let fuel := ADDRESSES / PGSIZE + 1
  recordCall fun user => .load d user addr (loadVisits offset sz fuel 0 f)
  if addr % PGSIZE ≠ 0 then throw .notAligned
  loadLoop d addr offset sz fuel 0 f

def clearpteu (d : PageDir) (uva : Nat) : VmM PageDir := do
  match ← walkpgdir d uva false with
  | none => throw .clearpteu
  | some d =>
      match d.getPte uva with
      | none => return d
      | some e => return d.setPte uva (some { e with u := false })

/-- The frame of a present user page, unless `p2v` of it is 0. -/
def userFrame : Option Pte → Option Nat
  | none => none
  | some e => if e.u ∧ (e.pa + KERNBASE) % ADDRESSES ≠ 0 then some e.pa else none

/-- `uva2ka` does not test whether `walkpgdir` returned 0; the word at address 0 is then taken
    for the entry. -/
def uva2ka (word0 : Option Pte) (d : PageDir) (uva : Nat) : Option Nat :=
  userFrame (if (d.tables (PDX uva)).isSome then d.getPte uva else word0)

/-- How many of `len` bytes `copyout` puts into the page of `va`. -/
def copyChunk (va len : Nat) : Nat := min len (PGSIZE - (va - pgRoundDown va))

def copyoutLoop (word0 : Option Pte) (d : PageDir) :
    (fuel : Nat) → (va len : Nat) → VmM Bool
  | 0, _, _ => return false
  | fuel + 1, va, len =>
      if 0 < len then
        match uva2ka word0 d (pgRoundDown va) with
        | none => return false
        | some pa0 => do
            storeTo pa0 (List.replicate (copyChunk va len) 0)
            copyoutLoop word0 d fuel ((pgRoundDown va + PGSIZE) % ADDRESSES)
              (len - copyChunk va len)
      else return true

/-- The pages `copyoutLoop` gets to. -/
def copyVisits (word0 : Option Pte) (d : PageDir) : (fuel : Nat) → (va len : Nat) → List Nat
  | 0, _, _ => []
  | fuel + 1, va, len =>
      if 0 < len then
        pgRoundDown va ::
          match uva2ka word0 d (pgRoundDown va) with
          | none => []
          | some _ =>
              copyVisits word0 d fuel ((pgRoundDown va + PGSIZE) % ADDRESSES)
                (len - copyChunk va len)
      else []

/-- `copyout(pgdir, va, p, len)`; what is copied does not matter. -/
def copyout (word0 : Option Pte) (d : PageDir) (va len : Nat) : VmM Bool := do
  recordCall fun user => .copy d user word0 (copyVisits word0 d (len + 1) va len)
  copyoutLoop word0 d (len + 1) va len

/-! ### `exec` -/

/-- What `exec` finds besides its file. -/
structure ExecArgs where
  /-- The path names an inode that the caller may execute. -/
  permitted : Bool
  /-- What is on the kernel stack where `elf` is. -/
  garbage : List Byte
  /-- The lengths of the argument strings. -/
  argv : List Nat
  /-- The word at user address 0, as a page table entry. -/
  word0 : Option Pte

variable (K : KernelImage)

/-- The loop over the `k` program headers from offset `off` on. -/
def loadSegments : (k : Nat) → (off : Nat) → PageDir → (sz : Nat) → ExeFile →
    VmM (Bool × PageDir × Nat)
  | 0, _, d, sz, _ => return (true, d, sz)
  | k + 1, off, d, sz, f => do
      let (r, bytes, f) := f.readi off PROGHDRSIZE
      if r ≠ PROGHDRSIZE then return (false, d, sz)
      else
        let ph := progHdr bytes
        if ph.type ≠ ELF_PROG_LOAD then
          loadSegments k ((off + PROGHDRSIZE) % ADDRESSES) d sz f
        else if ph.memsz < ph.filesz then return (false, d, sz)
        else
          let (sz, d) ← allocuvm K d sz ((ph.vaddr + ph.memsz) % ADDRESSES)
          if sz = 0 then return (false, d, sz)
          else
            match ← loaduvm d ph.vaddr f ph.off ph.filesz with
            | (false, _) => return (false, d, sz)
            | (true, f) => loadSegments k ((off + PROGHDRSIZE) % ADDRESSES) d sz f

/-- The argument strings are pushed from `sp` down; `none` for `goto bad`. -/
def pushArgs (word0 : Option Pte) (d : PageDir) :
    (argc : Nat) → (sp : Nat) → List Nat → VmM (Option (Nat × Nat))
  | argc, sp, [] => return some (argc, sp)
  | argc, sp, len :: lens =>
      if MAXARG ≤ argc then return none
      else do
        let sp := (sp + ADDRESSES - (len + 1) % ADDRESSES) % ADDRESSES / 4 * 4
        if ← copyout word0 d sp (len + 1) then pushArgs word0 d (argc + 1) sp lens
        else return none

/-- From the stack pages on; `none` for `goto bad`. -/
def buildStack (args : ExecArgs) (d : PageDir) (sz : Nat) : VmM (Bool × PageDir × Nat) := do
  let sz := pgRoundUp sz
  let (sz, d) ← allocuvm K d sz ((sz + 2 * PGSIZE) % ADDRESSES)
  if sz = 0 then return (false, d, sz)
  else
    let d ← clearpteu d (sz - 2 * PGSIZE)
    match ← pushArgs args.word0 d 0 sz args.argv with
    | none => return (false, d, sz)
    | some (argc, sp) =>
        let len := (3 + argc + 1) * 4
        let ok ← copyout args.word0 d ((sp + ADDRESSES - len) % ADDRESSES) len
        return (ok, d, sz)

/-- The label `bad`. -/
def execBad (d : PageDir) : VmM (Option (PageDir × Nat)) := do
  freevm K d
  return none

/-- The second half of `exec`, when the segments are loaded. -/
def finishExec (args : ExecArgs) (oldpgdir d : PageDir) (sz : Nat) :
    VmM (Option (PageDir × Nat)) := do
  match ← buildStack K args d sz with
  | (false, d, _) => execBad K d
  | (true, d, sz) =>
      freevm K oldpgdir
      return some (d, sz)

/-- The test of what `readi` returned for the header: an `int` is compared with `sizeof(elf)`, so
    -1 counts as a large number. -/
def headerPassed (r : Int) : Prop := ¬ (0 ≤ r ∧ r < ELFHDRSIZE)

instance (r : Int) : Decidable (headerPassed r) := inferInstanceAs (Decidable (¬ _))

/-- The new directory and size, or `none` for -1. -/
def exec (args : ExecArgs) (f : ExeFile) (oldpgdir : PageDir) :
    VmM (Option (PageDir × Nat)) := do
  modify fun s => { s with user := [], calls := [] }
  if args.permitted = false then return none
  else
    let (r, bytes, f) := f.readi 0 ELFHDRSIZE
    if ¬ headerPassed r then return none
    else
      let elf := elfHdr (bytes ++ args.garbage.drop bytes.length)
      if elf.magic ≠ ELF_MAGIC then return none
      else
        match ← setupkvm K with
        | none => return none
        | some d =>
            match ← loadSegments K elf.phnum elf.phoff d 0 f with
            | (false, d, _) => execBad K d
            | (true, d, sz) => finishExec K args oldpgdir d sz

/-! ### Accounts of `fork` -/

section

variable {K} {E : VmPanic → Kmem → Prop} (hE : ∀ e t, E e t)
include hE

variable {sz : Nat} {f : ExeFile} {args : ExecArgs}

theorem forkMem_wp {P : Option (Nat × PageDir) → Kmem → Prop} {slot : Bool} {pgdir : PageDir}
    (hsz : sz ≤ KERNBASE) (hfail : ∀ s', Books s (fun _ => 0) s' (fun _ => 0) → P none s')
    (hok : ∀ kstack d s', Moves s (fun _ => 0) s' (fun p => one kstack p + owned d p) →
      P (some (kstack, d)) s') : wp (forkMem K slot pgdir sz) P E s := by
  refine wp_ite (fun _ => ?_) fun _ => hfail s (Moves.refl s _).books
  rw [wp_bind]
  refine kalloc_wp (fun _ => hfail s (Moves.refl s _).books) fun kstack s₁ hm₁ _ => ?_
  rw [wp_bind]
  refine copyuvm_wp hE hsz (fun s₂ hb => ?_) fun d s₂ hm₂ => ?_
  · rw [wp_bind]
    refine kfree_wp hE fun s₃ hm₃ _ => hfail s₃ ?_
    obtain ⟨lost, hc, hs⟩ := hb
    refine ⟨lost, fun p => ?_, ?_⟩
    · have h1 := hm₁.count p
      have h2 := hc p
      have h3 := hm₃.count p
      omega
    · rw [hm₃.short, hs, hm₁.short]
  · refine hok kstack d s₂ ⟨fun p => ?_, hm₂.short.trans hm₁.short⟩
    have h1 := hm₁.count p
    have h2 := hm₂.count p
    omega

/-! ### Accounts of `exec` -/

theorem storeTo_wp {P : Unit → Kmem → Prop} {pa : Nat} {bytes : List Byte} (hok : P () s) :
    wp (storeTo pa bytes) P E s := by
  unfold storeTo
  rw [wp_bind, wp_get]
  exact wp_ite (fun _ => hE _ _) fun _ => hok

theorem loadLoop_wp {P : Bool × ExeFile → Kmem → Prop} {addr offset fuel i : Nat}
    (hok : ∀ r, P r s) :
    wp (loadLoop d addr offset sz fuel i f) P E s := by
  induction fuel generalizing i f with
  | zero => exact hok _
  | succ fuel ih =>
    refine wp_ite (fun _ => ?_) fun _ => hok _
    rw [wp_bind]
    refine walkpgdir_find_wp (fun _ => hE _ _) fun _ => ?_
    rw [wp_bind]
    exact storeTo_wp hE (wp_ite (fun _ => hok _) fun _ => ih)

omit hE in
/-- A recorded call is not a change of the accounts. -/
theorem recordCall_wp {P : Unit → Kmem → Prop} {c : List Nat → StoreCall}
    (hok : P () { s with calls := c s.user :: s.calls }) : wp (recordCall c) P E s := hok

theorem loaduvm_wp {P : Bool × ExeFile → Kmem → Prop} {addr offset : Nat}
    (hok : ∀ r s', Moves s (owned d) s' (owned d) → P r s') :
    wp (loaduvm d addr f offset sz) P E s := by
  unfold loaduvm
  rw [wp_bind]
  refine recordCall_wp (wp_ite (fun _ => hE _ _) fun _ => loadLoop_wp hE fun r => ?_)
  exact hok r _ ⟨fun _ => rfl, rfl⟩

omit hE in
/-- Clearing `PTE_U` moves no page. -/
theorem owned_clearUser (hget : d.getPte uva = some e) :
    owned (d.setPte uva (some { e with u := false })) = owned d := by
  funext p
  unfold PageDir.getPte at hget
  unfold PageDir.setPte
  cases ht : d.tables (PDX uva) with
  | none => rfl
  | some t =>
    rw [ht] at hget
    change t.ptes (PTX uva) = some e at hget
    rw [owned_eq, owned_eq]
    refine congrArg (one d.page p + ·) (Finset.sum_congr rfl fun i _ => ?_)
    by_cases hi : i = PDX uva
    · have hsame : ∀ j, ownedPte (update t.ptes (PTX uva) (some { e with u := false }) j) p =
          ownedPte (t.ptes j) p := by
        intro j
        by_cases hj : j = PTX uva
        · rw [hj, update_self, hget]
          rfl
        · rw [update_of_ne hj]
      dsimp only
      rw [hi, update_self, ht]
      simp only [ownedTable, hsame]
    · dsimp only
      rw [update_of_ne hi]

theorem clearpteu_wp {P : PageDir → Kmem → Prop} {uva : Nat}
    (hok : ∀ d', owned d' = owned d → P d' s) : wp (clearpteu d uva) P E s := by
  unfold clearpteu
  rw [wp_bind]
  refine walkpgdir_find_wp (fun _ => hE _ _) fun ht => ?_
  dsimp only
  cases hget : d.getPte uva with
  | none => exact hok d rfl
  | some e => exact hok _ (owned_clearUser hget)

theorem copyoutLoop_wp {P : Bool → Kmem → Prop} {fuel va len : Nat} (hok : ∀ r, P r s) :
    wp (copyoutLoop word0 d fuel va len) P E s := by
  induction fuel generalizing va len with
  | zero => exact hok _
  | succ fuel ih =>
    refine wp_ite (fun _ => ?_) fun _ => hok _
    cases uva2ka word0 d (pgRoundDown va) with
    | none => exact hok _
    | some pa0 =>
      rw [wp_bind]
      exact storeTo_wp hE ih

theorem copyout_wp {P : Bool → Kmem → Prop} {va len : Nat}
    (hok : ∀ r s', Moves s (owned d) s' (owned d) → P r s') :
    wp (copyout word0 d va len) P E s := by
  unfold copyout
  rw [wp_bind]
  refine recordCall_wp (copyoutLoop_wp hE fun r => ?_)
  exact hok r _ ⟨fun _ => rfl, rfl⟩

theorem pushArgs_wp {P : Option (Nat × Nat) → Kmem → Prop} {argc sp : Nat} {lens : List Nat}
    (hok : ∀ r s', Moves s (owned d) s' (owned d) → P r s') :
    wp (pushArgs word0 d argc sp lens) P E s := by
  induction lens generalizing s argc sp with
  | nil => exact hok _ s (.refl s _)
  | cons len lens ih =>
    refine wp_ite (fun _ => hok _ s (.refl s _)) fun _ => ?_
    rw [wp_bind]
    refine copyout_wp hE fun ok s' hm => wp_ite (fun _ => ?_) fun _ => hok _ s' hm
    exact ih fun r s'' hm' => hok r s'' (hm.trans hm')

theorem loadSegments_wp {P : Bool × PageDir × Nat → Kmem → Prop} {k off : Nat}
    (hok : ∀ r d' sz' s', Books s (owned d) s' (owned d') → P (r, d', sz') s') :
    wp (loadSegments K k off d sz f) P E s := by
  induction k generalizing s d off sz f with
  | zero => exact hok _ d sz s (Moves.refl s _).books
  | succ k ih =>
    refine wp_ite (fun _ => hok _ d sz s (Moves.refl s _).books) fun _ => ?_
    refine wp_ite (fun _ => ih hok) fun _ => ?_
    refine wp_ite (fun _ => hok _ d sz s (Moves.refl s _).books) fun _ => ?_
    rw [wp_bind]
    refine allocuvm_wp hE fun sz' d' s' hb _ => ?_
    refine wp_ite (fun _ => hok _ d' sz' s' hb) fun _ => ?_
    rw [wp_bind]
    refine loaduvm_wp hE ?_
    rintro ⟨ok, f'⟩ s'' hm
    have hb := hb.trans hm.books
    cases ok with
    | false => exact hok _ d' sz' s'' hb
    | true => exact ih fun r d'' sz'' t hb' => hok r d'' sz'' t (hb.trans hb')

theorem buildStack_wp {P : Bool × PageDir × Nat → Kmem → Prop}
    (hok : ∀ r d' sz' s', Books s (owned d) s' (owned d') → P (r, d', sz') s') :
    wp (buildStack K args d sz) P E s := by
  unfold buildStack
  rw [wp_bind]
  refine allocuvm_wp hE fun sz' d' s' hb _ => ?_
  refine wp_ite (fun _ => hok _ d' sz' s' hb) fun _ => ?_
  rw [wp_bind]
  refine clearpteu_wp hE fun d'' hsame => ?_
  rw [← hsame] at hb
  rw [wp_bind]
  refine pushArgs_wp hE fun r s'' hm => ?_
  have hb := hb.trans hm.books
  cases r with
  | none => exact hok _ d'' sz' s'' hb
  | some r =>
    rw [wp_bind]
    exact copyout_wp hE fun ok t hm' => hok ok d'' sz' t (hb.trans hm'.books)

theorem execBad_wp (hfail : ∀ s', Books s (owned d) s' (fun _ => 0) → P none s') :
    wp (execBad K d) P E s := by
  unfold execBad
  rw [wp_bind]
  exact freevm_wp hE fun s' hm => hfail s' hm.books

theorem finishExec_wp {oldpgdir : PageDir}
    (hfail : ∀ s', Books s (owned d) s' (fun _ => 0) → P none s')
    (hok : ∀ d' sz' s', Books s (fun p => owned d p + owned oldpgdir p) s' (owned d') →
      P (some (d', sz')) s') : wp (finishExec K args oldpgdir d sz) P E s := by
  unfold finishExec
  rw [wp_bind]
  refine buildStack_wp hE fun ok d₁ sz₁ s₁ hb => ?_
  cases ok with
  | false => exact execBad_wp hE fun s' hb' => hfail s' (hb.trans hb')
  | true =>
    rw [wp_bind]
    refine freevm_wp hE fun s₂ hm => hok d₁ sz₁ s₂ ?_
    obtain ⟨lost, hc, hs⟩ := hb
    refine ⟨lost, fun p => ?_, ?_⟩
    · have h1 := hc p
      have h2 := hm.count p
      dsimp only
      omega
    · rw [hm.short]
      exact hs

/-- If `exec` returns -1, the books say what it lost. -/
theorem exec_wp {oldpgdir : PageDir}
    (hfail : ∀ s', Books s (fun _ => 0) s' (fun _ => 0) → P none s')
    (hok : ∀ d sz s', Books s (owned oldpgdir) s' (owned d) → P (some (d, sz)) s') :
    wp (exec K args f oldpgdir) P E s := by
  have hstart : Moves s (fun _ => 0) { s with user := [], calls := [] } (fun _ => 0) :=
    ⟨fun _ => rfl, rfl⟩
  unfold exec
  rw [wp_bind, wp_modify]
  refine wp_ite (fun _ => hfail _ hstart.books) fun _ => ?_
  refine wp_ite (fun _ => hfail _ hstart.books) fun _ => ?_
  refine wp_ite (fun _ => hfail _ hstart.books) fun _ => ?_
  rw [wp_bind]
  refine setupkvm_wp hE (fun s' hb => hfail s' (hstart.books.trans hb)) fun d s₁ hm₁ => ?_
  rw [wp_bind]
  refine loadSegments_wp hE fun ok d₂ sz₂ s₂ hb₂ => ?_
  have hb := (hstart.trans hm₁).books.trans hb₂
  cases ok with
  | false => exact execBad_wp hE fun s' hb' => hfail s' (hb.trans hb')
  | true =>
    refine finishExec_wp hE (fun s' hb' => hfail s' (hb.trans hb')) fun d' sz' s' hb' => ?_
    obtain ⟨lost, hc, hs⟩ := hb
    have hold : Books s (owned oldpgdir) s₂ fun p => owned d₂ p + owned oldpgdir p := by
      refine ⟨lost, fun p => ?_, hs⟩
      have h1 := hc p
      dsimp only at h1 ⊢
      omega
    exact hok d' sz' s' (hold.trans hb')

end

/-! ### Failed calls -/

/-- Nothing is lost if and only if no page table was refused. -/
theorem Books.perm_iff (h : Books s (fun _ => 0) s' fun _ => 0)
    (hs : s.short = false) : s'.free.Perm s.free ↔ s'.short = false := by
  obtain ⟨lost, hc, hshort⟩ := h
  rw [hs] at hshort
  constructor
  · intro hperm
    refine Bool.eq_false_iff.mpr fun htrue => ?_
    obtain ⟨p, hp⟩ := (hshort.mp htrue).resolve_left Bool.false_ne_true
    have h1 := hc p
    rw [hperm.count_eq p] at h1
    omega
  · intro hfalse
    refine List.perm_iff_count.mpr fun p => ?_
    have hzero : lost p = 0 := by
      by_contra hne
      have htrue := hshort.mpr (Or.inr ⟨p, Nat.pos_of_ne_zero hne⟩)
      rw [hfalse] at htrue
      exact Bool.noConfusion htrue
    have h1 := hc p
    omega

/-- A call of `fork` or `exec` that returns -1 leaves the free list with the pages it had if and
    only if `kalloc` did not refuse a page for a page table during the call. -/
theorem failed_call_leaks_nothing_iff (K : KernelImage) {s s' : Kmem} (hs : s.short = false) :
    (∀ slot pgdir sz, sz ≤ KERNBASE → forkMem K slot pgdir sz s = .ok none s' →
      (s'.free.Perm s.free ↔ s'.short = false)) ∧
    ∀ args f oldpgdir, exec K args f oldpgdir s = .ok none s' →
      (s'.free.Perm s.free ↔ s'.short = false) := by
  constructor
  · intro slot pgdir sz hsz h
    have hwp : wp (forkMem K slot pgdir sz)
        (fun r t => r = none → Books s (fun _ => 0) t fun _ => 0) (fun _ _ => True) s :=
      forkMem_wp (fun _ _ => trivial) hsz (fun _ hb _ => hb) fun _ _ _ _ hnone => nomatch hnone
    exact (post_of_ok hwp h rfl).perm_iff hs
  · intro args f oldpgdir h
    have hwp : wp (exec K args f oldpgdir)
        (fun r t => r = none → Books s (fun _ => 0) t fun _ => 0) (fun _ _ => True) s :=
      exec_wp (fun _ _ => trivial) (fun _ hb _ => hb) fun _ _ _ _ hnone => nomatch hnone
    exact (post_of_ok hwp h rfl).perm_iff hs

/-- A small kernel. -/
def smallKernel : KernelImage where
  data := 0x108000
  kend := 0x110000
  aligned := by decide
  text := by decide
  order := by decide
  fits := by decide

/-- A directory of one page that maps nothing. -/
def emptyDir : PageDir := ⟨0x200000, fun _ => none⟩

/-- With no page at all, `fork` fails and leaks nothing. -/
theorem failed_call_leaks_nothing_iff_noPage : ∃ s' : Kmem,
    forkMem smallKernel true emptyDir 0 ⟨[], false, [], []⟩ = .ok none s' ∧
      (s'.free.Perm [] ↔ s'.short = false) :=
  ⟨⟨[], false, [], []⟩, rfl,
    (failed_call_leaks_nothing_iff (s := ⟨[], false, [], []⟩) smallKernel rfl).1 true emptyDir 0
      (by decide) rfl⟩

/-- With two pages `setupkvm` has one for the directory and none for its first page table; the
    page of the directory is lost. -/
theorem fork_leaks_directory : ∃ s' : Kmem,
    forkMem smallKernel true emptyDir 0 ⟨[0x300000, 0x301000], false, [], []⟩ = .ok none s' ∧
      s'.free = [0x300000] ∧ ¬ s'.free.Perm [0x300000, 0x301000] := by
  have heval : (match forkMem smallKernel true emptyDir 0 ⟨[0x300000, 0x301000], false, [], []⟩ with
      | .ok r s' => some (r.isNone, s'.free)
      | .error _ _ => none) = some (true, [0x300000]) := by decide +kernel
  split at heval
  · rename_i r s' hrun
    obtain ⟨hr, hfree⟩ := Prod.mk.inj (Option.some.inj heval)
    rw [Option.isNone_iff_eq_none.mp hr] at hrun
    refine ⟨s', hrun, hfree, fun hperm => ?_⟩
    rw [hfree] at hperm
    exact absurd hperm.length_eq (by decide)
  · exact nomatch heval

end Xv6Kernel
