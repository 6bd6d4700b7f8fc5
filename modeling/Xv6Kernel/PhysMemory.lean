/-
  PhysMemory.lean
  ===============
  The functions of `vm.c`, `growproc` and `exec`, with the contents of the pages.

  `Ram` adds to the allocator what is in its pages, byte by byte; the link that a free page holds
  and the entries of page tables are not among these bytes, as the free list and the page tables
  have them.  What reads or writes no contents is taken over from `VirtualMemory.lean` with `lift`.

  Other processors take and return pages between two calls of `kalloc`.  `refusals` says at which
  of the calls of `allocuvm` they have all the pages.  Without refusals every function does to the
  page tables and to the free list what its namesake without contents does (`Follows`).
-/
import Xv6Kernel.StateView
import Xv6Kernel.UserRange

namespace Xv6Kernel

open PanicMonad

structure Ram extends Kmem where
  /-- The bytes of the page at a physical address. -/
  bytes : Nat → Nat → Byte
  refusals : List Bool

abbrev RamM := EStateM VmPanic Ram

namespace Ram

variable {α : Type}

/-- A function that reads and writes no contents. -/
def lift (x : VmM α) : RamM α := zoom Ram.toKmem (fun k s => { s with toKmem := k }) x

/-- A call while other processors have all free pages. -/
def starved (x : VmM α) : RamM α :=
  zoom (fun s => { s.toKmem with free := [] })
    (fun k s => { s with toKmem := { k with free := k.free ++ s.free } }) x

/-- A call that may find the free list empty because of other processors. -/
def contended (x : VmM α) : RamM α := do
  let s ← get
  set { s with refusals := s.refusals.tail }
  if s.refusals.head? = some true then starved x else lift x

/-- `memmove` or `memset` of a whole page. -/
def setPage (pa : Nat) (f : Nat → Byte) : RamM Unit :=
  modify fun s => { s with bytes := Function.update s.bytes pa f }

/-- A page with some bytes stored from `off` on. -/
def overwrite (page : Nat → Byte) (off : Nat) (l : List Byte) (o : Nat) : Byte :=
  if off ≤ o ∧ o < off + l.length then l.getD (o - off) 0 else page o

/-- A store of bytes to the page `pa`, from `off` on. -/
def store (pa off : Nat) (l : List Byte) : RamM Unit := do
  lift (storeTo pa l)
  modify fun s => { s with bytes := Function.update s.bytes pa (overwrite (s.bytes pa) off l) }

variable (K : KernelImage)

/-- The page is filled with junk. -/
def kfree (pa : Nat) : RamM Unit := do
  lift (Xv6Kernel.kfree K pa)
  setPage pa fun _ => 1

/-! ### User memory -/

def deallocLoop : (fuel : Nat) → PageDir → (a oldsz : Nat) → RamM PageDir
  | 0, d, _, _ => return d
  | fuel + 1, d, a, oldsz =>
      if a < oldsz then do
        match ← lift (walkpgdir d a false) with
        | none => deallocLoop fuel d (a + (NPTENTRIES - 1) * PGSIZE + PGSIZE) oldsz
        | some d =>
            match d.getPte a with
            | none => deallocLoop fuel d (a + PGSIZE) oldsz
            | some e =>
                if e.pa = 0 then throw .kfree
                kfree K e.pa
                deallocLoop fuel (d.setPte a none) (a + PGSIZE) oldsz
      else return d

@[irreducible] def deallocuvm (d : PageDir) (oldsz newsz : Nat) : RamM (Nat × PageDir) := do
  if oldsz ≤ newsz then return (oldsz, d)
  let d ← deallocLoop K (ADDRESSES / PGSIZE) d (pgRoundUp newsz) oldsz
  return (newsz, d)

def allocLoop (oldsz newsz : Nat) : (fuel : Nat) → PageDir → (a : Nat) → RamM (Nat × PageDir)
  | 0, d, _ => return (newsz, d)
  | fuel + 1, d, a =>
      if a < newsz then do
        match ← contended kalloc with
        | none =>
            let (_, d) ← deallocuvm K d newsz oldsz
            return (0, d)
        | some mem =>
            lift (modify fun s => { s with user := mem :: s.user })
            setPage mem fun _ => 0
            let (_, d) ← contended (mappages d a PGSIZE mem true true)
            allocLoop oldsz newsz fuel d (a + PGSIZE)
      else return (newsz, d)

@[irreducible] def allocuvm (d : PageDir) (oldsz newsz : Nat) : RamM (Nat × PageDir) :=
  if KERNBASE ≤ newsz then return (0, d)
  else if newsz < oldsz then return (oldsz, d)
  else allocLoop K oldsz newsz (ADDRESSES / PGSIZE) d (pgRoundUp oldsz)

/-- `growproc(n)` of a process with directory `d` and size `sz`: the result, the directory and
    the size.  `sz + n` is computed modulo `2 ^ 32`. -/
def growproc (d : PageDir) (sz : Nat) (n : Int) : RamM (Int × PageDir × Nat) := do
  let want := ((sz + n) % (ADDRESSES : Int)).toNat
  if 0 < n then
    let (r, d) ← allocuvm K d sz want
    if r = 0 then return (-1, d, sz) else return (0, d, r)
  else if n < 0 then
    let (r, d) ← deallocuvm K d sz want
    if r = 0 then return (-1, d, sz) else return (0, d, r)
  else return (0, d, sz)

def freeTables (d : PageDir) : List Nat → RamM Unit
  | [] => return ()
  | i :: is => do
      match d.tables i with
      | none => freeTables d is
      | some t =>
          kfree K t.page
          freeTables d is

@[irreducible] def freevm (d : PageDir) : RamM Unit := do
  let (_, d) ← deallocuvm K d KERNBASE 0
  freeTables K d (List.range NPDENTRIES)
  kfree K d.page

/-- The loop of `copyuvm`. -/
def copyPages (src : PageDir) (sz : Nat) :
    (fuel : Nat) → PageDir → (i : Nat) → RamM (Option PageDir)
  | 0, d, _ => return some d
  | fuel + 1, d, i =>
      if i < sz then do
        match ← lift (walkpgdir src i false) with
        | none => throw .pteShouldExist
        | some src =>
            match src.getPte i with
            | none => throw .pageNotPresent
            | some e =>
                match ← lift kalloc with
                | none =>
                    freevm K d
                    return none
                | some mem =>
                    let s ← get
                    setPage mem (s.bytes e.pa)
                    match ← lift (mappages d i PGSIZE mem e.w e.u) with
                    | (false, d) =>
                        freevm K d
                        return none
                    | (true, d) => copyPages src sz fuel d (i + PGSIZE)
      else return some d

def copyuvm (src : PageDir) (sz : Nat) : RamM (Option PageDir) := do
  match ← lift (setupkvm K) with
  | none => return none
  | some d => copyPages K src sz (ADDRESSES / PGSIZE) d 0

/-! ### Loading and copying out -/

def loadLoop (d : PageDir) (addr offset sz : Nat) :
    (fuel : Nat) → (i : Nat) → ExeFile → RamM (Bool × ExeFile)
  | 0, _, f => return (false, f)
  | fuel + 1, i, f =>
      if i < sz then do
        match ← lift (walkpgdir d ((addr + i) % ADDRESSES) false) with
        | none => throw .shouldExist
        | some d =>
            let n := if sz - i < PGSIZE then sz - i else PGSIZE
            let (r, bytes, f) := f.readi ((offset + i) % ADDRESSES) n
            store (pteAddr (d.getPte ((addr + i) % ADDRESSES))) 0 bytes
            if r ≠ n then return (false, f)
            else loadLoop d addr offset sz fuel (i + PGSIZE) f
      else return (true, f)

def loaduvm (d : PageDir) (addr : Nat) (f : ExeFile) (offset sz : Nat) :
    RamM (Bool × ExeFile) := do
  let fuel := ADDRESSES / PGSIZE + 1
  lift (recordCall fun user => .load d user addr (loadVisits offset sz fuel 0 f))
  if addr % PGSIZE ≠ 0 then throw .notAligned
  loadLoop d addr offset sz fuel 0 f

def copyoutLoop (word0 : Option Pte) (d : PageDir) :
    (fuel : Nat) → (va : Nat) → List Byte → RamM Bool
  | 0, _, _ => return false
  | fuel + 1, va, buf =>
      if 0 < buf.length then
        match uva2ka word0 d (pgRoundDown va) with
        | none => return false
        | some pa0 => do
            let n := copyChunk va buf.length
            store pa0 (va - pgRoundDown va) (buf.take n)
            copyoutLoop word0 d fuel ((pgRoundDown va + PGSIZE) % ADDRESSES) (buf.drop n)
      else return true

def copyout (word0 : Option Pte) (d : PageDir) (va : Nat) (buf : List Byte) : RamM Bool := do
  let fuel := buf.length + 1
  lift (recordCall fun user => .copy d user word0 (copyVisits word0 d fuel va buf.length))
  copyoutLoop word0 d fuel va buf

/-! ### `exec` -/

/-- What `exec` finds besides its file; the strings come without their terminating 0. -/
structure ExecArgs where
  permitted : Bool
  garbage : List Byte
  argv : List (List Byte)
  word0 : Option Pte

/-- What `exec` gives the process. -/
structure NewImage where
  pgdir : PageDir
  sz : Nat
  eip : Nat
  esp : Nat

/-- A `uint` in memory. -/
def word (w : Nat) : List Byte :=
  [BitVec.ofNat 8 w, BitVec.ofNat 8 (w / 256), BitVec.ofNat 8 (w / 65536),
    BitVec.ofNat 8 (w / 16777216)]

def loadSegments : (k : Nat) → (off : Nat) → PageDir → (sz : Nat) → ExeFile →
    RamM (Bool × PageDir × Nat)
  | 0, _, d, sz, _ => return (true, d, sz)
  | k + 1, off, d, sz, f => do
      let (r, bytes, f) := f.readi off PROGHDRSIZE
      if r ≠ PROGHDRSIZE then return (false, d, sz)
      else
        let ph := progHdr bytes
        if ph.type ≠ ELF_PROG_LOAD then
          loadSegments k ((off + PROGHDRSIZE) % ADDRESSES) d sz f
        else if ph.memsz < ph.filesz then return (false, d, sz)
        else
          let (sz, d) ← allocuvm K d sz ((ph.vaddr + ph.memsz) % ADDRESSES)
          if sz = 0 then return (false, d, sz)
          else
            match ← loaduvm d ph.vaddr f ph.off ph.filesz with
            | (false, _) => return (false, d, sz)
            | (true, f) => loadSegments k ((off + PROGHDRSIZE) % ADDRESSES) d sz f

/-- Where the next string goes. -/
def below (sp len : Nat) : Nat := (sp + ADDRESSES - (len + 1) % ADDRESSES) % ADDRESSES / 4 * 4

/-- The argument strings are pushed from `sp` down; `ptrs` are the addresses of those that were
    pushed, `ustack[3]` on. -/
def pushArgs (word0 : Option Pte) (d : PageDir) :
    (ptrs : List Nat) → (sp : Nat) → List (List Byte) → RamM (Option (List Nat × Nat))
  | ptrs, sp, [] => return some (ptrs, sp)
  | ptrs, sp, arg :: args =>
      if MAXARG ≤ ptrs.length then return none
      else do
        let sp := below sp arg.length
        if ← copyout word0 d sp (arg ++ [0]) then pushArgs word0 d (ptrs ++ [sp]) sp args
        else return none

/-- `ustack`: the fake return address, `argc`, `argv`, the pointers and a 0. -/
def ustack (ptrs : List Nat) (sp : Nat) : List Nat :=
  [0xffffffff, ptrs.length, (sp + ADDRESSES - (ptrs.length + 1) * 4) % ADDRESSES] ++ ptrs ++ [0]

/-- The two pages above the program; the lower one is made inaccessible. -/
def stackPages (d : PageDir) (sz : Nat) : RamM (Nat × PageDir) := do
  let sz := pgRoundUp sz
  let (sz, d) ← allocuvm K d sz ((sz + 2 * PGSIZE) % ADDRESSES)
  if sz = 0 then return (0, d)
  else
    let d ← lift (clearpteu d (sz - 2 * PGSIZE))
    return (sz, d)

/-- From the stack pages on: whether it went well, the directory, the size and the stack
    pointer. -/
def buildStack (args : ExecArgs) (d : PageDir) (sz : Nat) :
    RamM (Bool × PageDir × Nat × Nat) := do
  let (sz, d) ← stackPages K d sz
  if sz = 0 then return (false, d, sz, 0)
  else
    match ← pushArgs args.word0 d [] sz args.argv with
    | none => return (false, d, sz, 0)
    | some (ptrs, sp) =>
        let len := (3 + ptrs.length + 1) * 4
        let esp := (sp + ADDRESSES - len) % ADDRESSES
        let ok ← copyout args.word0 d esp ((ustack ptrs sp).flatMap word)
        return (ok, d, sz, esp)

def execBad (d : PageDir) : RamM (Option NewImage) := do
  freevm K d
  return none

def finishExec (args : ExecArgs) (entry : Nat) (oldpgdir d : PageDir) (sz : Nat) :
    RamM (Option NewImage) := do
  match ← buildStack K args d sz with
  | (false, d, _) => execBad K d
  | (true, d, sz, esp) =>
      freevm K oldpgdir
      return some ⟨d, sz, entry, esp⟩

/-- The new image, or `none` for -1. -/
def exec (args : ExecArgs) (f : ExeFile) (oldpgdir : PageDir) : RamM (Option NewImage) := do
  lift (modify fun s => { s with user := [], calls := [] })
  if args.permitted = false then return none
  else
    let (r, bytes, f) := f.readi 0 ELFHDRSIZE
    if ¬ headerPassed r then return none
    else
      let elf := elfHdr (bytes ++ args.garbage.drop bytes.length)
      if elf.magic ≠ ELF_MAGIC then return none
      else
        match ← lift (setupkvm K) with
        | none => return none
        | some d =>
            match ← loadSegments K elf.phnum elf.phoff d 0 f with
            | (false, d, _) => execBad K d
            | (true, d, sz) => finishExec K args elf.entry oldpgdir d sz

/-! ### Without refusals the contents can be forgotten -/

/-- As long as the refusals to come are `q`, `x` does to the page tables and the free list what
    `y` does. -/
abbrev Refines {β : Type} (q : List Bool) (f : α → β) (x : RamM α) (y : VmM β) : Prop :=
  PanicMonad.Follows Ram.toKmem (fun s => s.refusals = q) f x y

variable {q : List Bool}

theorem lift_refines (x : VmM α) : Refines q (fun a => a) (lift x) x :=
  Follows.of_zoom (fun _ _ => rfl) fun _ _ h => h

theorem contended_refines (x : VmM α) : Refines [] (fun a => a) (contended x) x := by
  intro s hs
  unfold contended
  rw [wp_bind, wp_get, wp_bind, wp_set, hs]
  refine wp_ite (fun h => nomatch h) fun _ => ?_
  exact lift_refines x { s with refusals := [] } rfl

theorem setPage_hidden (hk : Refines q f (k ()) y) : Refines q f (setPage pa c >>= k) y :=
  Follows.hidden (fun _ => rfl) (fun _ h => h) hk

theorem storeTo_congr (h : l = [] ↔ l' = []) : storeTo pa l = storeTo pa l' := by
  unfold storeTo
  simp only [ne_eq, h]

theorem store_refines (h : l = [] ↔ l' = []) :
    Refines q (fun a => a) (store pa off l) (storeTo pa l') := by
  intro s hs
  unfold store
  rw [← storeTo_congr h, wp_bind]
  exact wp_mono (lift_refines (storeTo pa l) s hs) (fun _ _ ha => ha) fun _ _ he => he

theorem kfree_refines (pa : Nat) : Refines q (fun a => a) (kfree K pa) (Xv6Kernel.kfree K pa) := by
  intro s hs
  unfold kfree
  exact wp_seq (lift_refines (Xv6Kernel.kfree K pa) s hs) fun _ _ ha => ha

theorem deallocLoop_refines (fuel : Nat) (d : PageDir) (a oldsz : Nat) :
    Refines q (fun r => r) (deallocLoop K fuel d a oldsz)
      (Xv6Kernel.deallocLoop K fuel d a oldsz) := by
  induction fuel generalizing d a with
  | zero => exact Follows.pure rfl
  | succ fuel ih =>
    refine Follows.ite (fun _ => ?_) fun _ => Follows.pure rfl
    refine (lift_refines _).bind fun found => ?_
    cases found with
    | none => exact ih _ _
    | some d =>
      dsimp only
      cases d.getPte a with
      | none => exact ih _ _
      | some e =>
        refine Follows.ite (fun _ => Follows.throw) fun _ => ?_
        exact (kfree_refines K e.pa).bind fun _ => ih _ _

theorem deallocuvm_refines (d : PageDir) (oldsz newsz : Nat) :
    Refines q (fun r => r) (deallocuvm K d oldsz newsz) (Xv6Kernel.deallocuvm K d oldsz newsz) := by
  unfold deallocuvm Xv6Kernel.deallocuvm
  refine Follows.ite (fun _ => Follows.pure rfl) fun _ => ?_
  exact (deallocLoop_refines K _ _ _ _).bind fun _ => Follows.pure rfl

theorem allocLoop_refines (oldsz newsz fuel : Nat) (d : PageDir) (a : Nat) :
    Refines [] (fun r => r) (allocLoop K oldsz newsz fuel d a)
      (Xv6Kernel.allocLoop K oldsz newsz fuel d a) := by
  induction fuel generalizing d a with
  | zero => exact Follows.pure rfl
  | succ fuel ih =>
    refine Follows.ite (fun _ => ?_) fun _ => Follows.pure rfl
    refine (contended_refines _).bind fun mem => ?_
    cases mem with
    | none => exact (deallocuvm_refines K _ _ _).bind fun _ => Follows.pure rfl
    | some mem =>
      refine (lift_refines _).bind fun _ => setPage_hidden ?_
      exact (contended_refines _).bind fun r => ih r.2 _

theorem allocuvm_refines (d : PageDir) (oldsz newsz : Nat) :
    Refines [] (fun r => r) (allocuvm K d oldsz newsz) (Xv6Kernel.allocuvm K d oldsz newsz) := by
  unfold allocuvm Xv6Kernel.allocuvm
  refine Follows.ite (fun _ => Follows.pure rfl) fun _ => ?_
  refine Follows.ite (fun _ => Follows.pure rfl) fun _ => ?_
  exact allocLoop_refines K oldsz newsz _ d _

theorem freeTables_refines (d : PageDir) (is : List Nat) :
    Refines q (fun r => r) (freeTables K d is) (Xv6Kernel.freeTables K d is) := by
  induction is with
  | nil => exact Follows.pure rfl
  | cons i is ih =>
    unfold freeTables Xv6Kernel.freeTables
    cases d.tables i with
    | none => exact ih
    | some t => exact (kfree_refines K t.page).bind fun _ => ih

theorem freevm_refines (d : PageDir) :
    Refines q (fun r => r) (freevm K d) (Xv6Kernel.freevm K d) := by
  unfold freevm Xv6Kernel.freevm
  generalize List.range NPDENTRIES = is
  refine (deallocuvm_refines K _ _ _).bind fun r => ?_
  exact (freeTables_refines K _ _).bind fun _ => kfree_refines K _

theorem copyPages_refines (src : PageDir) (sz fuel : Nat) (d : PageDir) (i : Nat) :
    Refines q (fun r => r) (copyPages K src sz fuel d i)
      (Xv6Kernel.copyPages K src sz fuel d i) := by
  induction fuel generalizing src d i with
  | zero => exact Follows.pure rfl
  | succ fuel ih =>
    refine Follows.ite (fun _ => ?_) fun _ => Follows.pure rfl
    refine (lift_refines _).bind fun found => ?_
    cases found with
    | none => exact Follows.throw
    | some src =>
      dsimp only
      cases src.getPte i with
      | none => exact Follows.throw
      | some e =>
        refine (lift_refines _).bind fun mem => ?_
        cases mem with
        | none => exact (freevm_refines K d).bind fun _ => Follows.pure rfl
        | some mem =>
          intro s hs
          rw [wp_bind, wp_get]
          refine setPage_hidden ((lift_refines _).bind fun r => ?_) s hs
          obtain ⟨ok, d⟩ := r
          cases ok with
          | false => exact (freevm_refines K d).bind fun _ => Follows.pure rfl
          | true => exact ih src d _

theorem copyuvm_refines (src : PageDir) (sz : Nat) :
    Refines q (fun r => r) (copyuvm K src sz) (Xv6Kernel.copyuvm K src sz) := by
  refine (lift_refines _).bind fun d => ?_
  cases d with
  | none => exact Follows.pure rfl
  | some d => exact copyPages_refines K src sz _ d 0

theorem loadLoop_refines (d : PageDir) (addr offset sz fuel i : Nat) (f : ExeFile) :
    Refines q (fun r => r) (loadLoop d addr offset sz fuel i f)
      (Xv6Kernel.loadLoop d addr offset sz fuel i f) := by
  induction fuel generalizing d i f with
  | zero => exact Follows.pure rfl
  | succ fuel ih =>
    refine Follows.ite (fun _ => ?_) fun _ => Follows.pure rfl
    refine (lift_refines _).bind fun found => ?_
    cases found with
    | none => exact Follows.throw
    | some d =>
      refine (store_refines Iff.rfl).bind fun _ => ?_
      exact Follows.ite (fun _ => Follows.pure rfl) fun _ => ih d _ _

theorem loaduvm_refines (d : PageDir) (addr : Nat) (f : ExeFile) (offset sz : Nat) :
    Refines q (fun r => r) (loaduvm d addr f offset sz) (Xv6Kernel.loaduvm d addr f offset sz) := by
  refine (lift_refines _).bind fun _ => ?_
  refine Follows.ite (fun _ => Follows.throw) fun _ => ?_
  exact loadLoop_refines d addr offset sz _ 0 f

theorem copyoutLoop_refines (word0 : Option Pte) (d : PageDir) (fuel va : Nat) (buf : List Byte) :
    Refines q (fun r => r) (copyoutLoop word0 d fuel va buf)
      (Xv6Kernel.copyoutLoop word0 d fuel va buf.length) := by
  induction fuel generalizing va buf with
  | zero => exact Follows.pure rfl
  | succ fuel ih =>
    refine Follows.ite (fun _ => ?_) fun _ => Follows.pure rfl
    cases uva2ka word0 d (pgRoundDown va) with
    | none => exact Follows.pure rfl
    | some pa0 =>
      have hle : copyChunk va buf.length ≤ buf.length := Nat.min_le_left _ _
      refine (store_refines ?_).bind fun _ => ?_
      · rw [← List.length_eq_zero_iff, ← List.length_eq_zero_iff, List.length_take,
          List.length_replicate, Nat.min_eq_left hle]
      · rw [← List.length_drop]
        exact ih _ _

theorem copyout_refines (word0 : Option Pte) (d : PageDir) (va : Nat) (buf : List Byte) :
    Refines q (fun r => r) (copyout word0 d va buf) (Xv6Kernel.copyout word0 d va buf.length) := by
  exact (lift_refines _).bind fun _ => copyoutLoop_refines word0 d _ va buf

theorem loadSegments_refines (k off : Nat) (d : PageDir) (sz : Nat) (f : ExeFile) :
    Refines [] (fun r => r) (loadSegments K k off d sz f)
      (Xv6Kernel.loadSegments K k off d sz f) := by
  induction k generalizing off d sz f with
  | zero => exact Follows.pure rfl
  | succ k ih =>
    refine Follows.ite (fun _ => Follows.pure rfl) fun _ => ?_
    refine Follows.ite (fun _ => ih _ _ _ _) fun _ => ?_
    refine Follows.ite (fun _ => Follows.pure rfl) fun _ => ?_
    refine (allocuvm_refines K _ _ _).bind fun r => ?_
    refine Follows.ite (fun _ => Follows.pure rfl) fun _ => ?_
    refine (loaduvm_refines _ _ _ _ _).bind fun loaded => ?_
    obtain ⟨ok, f⟩ := loaded
    cases ok with
    | false => exact Follows.pure rfl
    | true => exact ih _ _ _ _

theorem pushArgs_refines (word0 : Option Pte) (d : PageDir) (ptrs : List Nat) (sp : Nat)
    (args : List (List Byte)) :
    Refines q (Option.map fun r => (r.1.length, r.2)) (pushArgs word0 d ptrs sp args)
      (Xv6Kernel.pushArgs word0 d ptrs.length sp (args.map List.length)) := by
  induction args generalizing ptrs sp with
  | nil => exact Follows.pure rfl
  | cons arg args ih =>
    refine Follows.ite (fun _ => Follows.pure rfl) fun _ => ?_
    have hlen : (arg ++ [(0 : Byte)]).length = arg.length + 1 := List.length_append ..
    have hcopy := copyout_refines (q := q) word0 d (below sp arg.length) (arg ++ [0])
    rw [hlen] at hcopy
    refine hcopy.bind fun ok => ?_
    refine Follows.ite (fun _ => ?_) fun _ => Follows.pure rfl
    have hptrs : (ptrs ++ [below sp arg.length]).length = ptrs.length + 1 := List.length_append ..
    have hrest := ih (ptrs ++ [below sp arg.length]) (below sp arg.length)
    rwa [hptrs] at hrest

/-- The lengths of the strings. -/
def ExecArgs.lengths (args : ExecArgs) : Xv6Kernel.ExecArgs :=
  ⟨args.permitted, args.garbage, args.argv.map List.length, args.word0⟩

theorem length_ustack (ptrs : List Nat) (sp : Nat) :
    ((ustack ptrs sp).flatMap word).length = (3 + ptrs.length + 1) * 4 := by
  have hword : ∀ w, (word w).length = 4 := fun _ => rfl
  simp only [List.length_flatMap, hword, List.map_const', List.sum_replicate_nat, ustack,
    List.length_append, List.length_cons, List.length_nil]

theorem buildStack_refines (args : ExecArgs) (d : PageDir) (sz : Nat) :
    Refines [] (fun r => (r.1, r.2.1, r.2.2.1)) (buildStack K args d sz)
      (Xv6Kernel.buildStack K args.lengths d sz) := by
  unfold buildStack Xv6Kernel.buildStack stackPages
  rw [bind_assoc]
  refine (allocuvm_refines K _ _ _).bind fun r => ?_
  obtain ⟨sz', d'⟩ := r
  dsimp only
  by_cases hzero : sz' = 0
  · rw [if_pos hzero, if_pos hzero, pure_bind]
    dsimp only
    rw [if_pos rfl]
    exact Follows.pure (by rw [hzero])
  · rw [if_neg hzero, if_neg hzero, bind_assoc]
    refine (lift_refines _).bind fun d'' => ?_
    rw [pure_bind]
    rw [if_neg hzero]
    refine (pushArgs_refines args.word0 d'' [] sz' args.argv).bind fun pushed => ?_
    cases pushed with
    | none => exact Follows.pure rfl
    | some pushed =>
      obtain ⟨ptrs, sp⟩ := pushed
      have hcopy := copyout_refines (q := []) args.word0 d''
        ((sp + ADDRESSES - (3 + ptrs.length + 1) * 4) % ADDRESSES) ((ustack ptrs sp).flatMap word)
      rw [length_ustack] at hcopy
      exact hcopy.bind fun ok => Follows.pure rfl

theorem execBad_refines (d : PageDir) :
    Refines q (Option.map f) (execBad K d) (Xv6Kernel.execBad K d) := by
  exact (freevm_refines K d).bind fun _ => Follows.pure rfl

/-- Without refusals `exec` does to the pages what it does in `Exec.lean`. -/
theorem exec_refines (args : ExecArgs) (f : ExeFile) (oldpgdir : PageDir) :
    Refines [] (Option.map fun img => (img.pgdir, img.sz)) (exec K args f oldpgdir)
      (Xv6Kernel.exec K args.lengths f oldpgdir) := by
  refine (lift_refines _).bind fun _ => ?_
  refine Follows.ite (fun _ => Follows.pure rfl) fun _ => ?_
  refine Follows.ite (fun _ => Follows.pure rfl) fun _ => ?_
  refine Follows.ite (fun _ => Follows.pure rfl) fun _ => ?_
  refine (lift_refines _).bind fun d => ?_
  cases d with
  | none => exact Follows.pure rfl
  | some d =>
    refine (loadSegments_refines K _ _ _ _ _).bind fun r => ?_
    obtain ⟨ok, d, sz⟩ := r
    cases ok with
    | false => exact execBad_refines K d
    | true =>
      refine (buildStack_refines K args d sz).bind fun built => ?_
      obtain ⟨ok, d, sz, esp⟩ := built
      cases ok with
      | false => exact execBad_refines K d
      | true => exact (freevm_refines K oldpgdir).bind fun _ => Follows.pure rfl

end Ram

end Xv6Kernel
