/-
  VirtualMemory.lean
  ==================
  `kalloc.c` and the page tables of `vm.c`.

  Physical pages are named by their addresses.  A page directory is a tree: the page of the
  directory itself, its page tables, and their entries; an entry that is not present is `none`,
  as all code that clears an entry writes 0.  The functions that take a `pde_t*` return the
  directory as they leave it.

  The state is the free list.  The code has none of the rest of `Kmem`: `short` records that
  `walkpgdir` got no page for a page table, `user` lists the pages that `allocuvm` got for user
  memory, and `calls` the calls that store to them.
-/
import Xv6Kernel.UserMemory

namespace Xv6Kernel

open PanicMonad

/-! ### Addresses -/

def NPDENTRIES : Nat := 1024
def NPTENTRIES : Nat := 1024
/-- The number of 32-bit addresses. -/
def ADDRESSES : Nat := 2 ^ 32

def EXTMEM : Nat := 0x100000
def PHYSTOP : Nat := 0xE000000
def DEVSPACE : Nat := 0xFE000000
def KERNLINK : Nat := KERNBASE + EXTMEM

def PDX (va : Nat) : Nat := va / (PGSIZE * NPTENTRIES)
def PTX (va : Nat) : Nat := va / PGSIZE % NPTENTRIES

def pgRoundUp (sz : Nat) : Nat := (sz + PGSIZE - 1) % ADDRESSES / PGSIZE * PGSIZE
def pgRoundDown (a : Nat) : Nat := a / PGSIZE * PGSIZE

/-- What the linker decides: the physical addresses of `data` and `end`. -/
structure KernelImage where
  data : Nat
  kend : Nat
  aligned : data % PGSIZE = 0
  text : EXTMEM < data
  order : data ≤ kend
  fits : data < PHYSTOP

/-! ### Page tables -/

structure Pte where
  pa : Nat
  w : Bool
  u : Bool
deriving DecidableEq

structure PageTable where
  page : Nat
  ptes : Nat → Option Pte

structure PageDir where
  page : Nat
  tables : Nat → Option PageTable

namespace PageDir

def getPte (d : PageDir) (va : Nat) : Option Pte :=
  match d.tables (PDX va) with
  | none => none
  | some t => t.ptes (PTX va)

/-- `*pte = e`, for the entry that `walkpgdir` has found. -/
def setPte (d : PageDir) (va : Nat) (e : Option Pte) : PageDir :=
  match d.tables (PDX va) with
  | none => d
  | some t =>
      { d with
        tables := Function.update d.tables (PDX va)
          (some { t with ptes := Function.update t.ptes (PTX va) e }) }

def addTable (d : PageDir) (va page : Nat) : PageDir :=
  { d with tables := Function.update d.tables (PDX va) (some ⟨page, fun _ => none⟩) }

end PageDir

/-! ### The allocator -/

inductive VmPanic where
  | kfree
  | remap
  | notAligned
  | shouldExist
  | pteShouldExist
  | pageNotPresent
  | clearpteu
  /-- A store to memory that is not the new image's; what follows depends on what is there. -/
  | wildStore
deriving DecidableEq

/-- A call of `loaduvm` or `copyout` on a directory, with the pages `user` of its image.
    `visits` are the pages the call gets to: for `loaduvm` their offsets, each with the bytes to
    be stored there; for `copyout` their addresses. -/
inductive StoreCall where
  | load (d : PageDir) (user : List Nat) (addr : Nat) (visits : List (Nat × List Byte))
  | copy (d : PageDir) (user : List Nat) (word0 : Option Pte) (visits : List Nat)

structure Kmem where
  free : List Nat
  short : Bool
  user : List Nat
  calls : List StoreCall

abbrev VmM := EStateM VmPanic Kmem

def kalloc : VmM (Option Nat) := do
  let s ← get
  match s.free with
  | [] => return none
  | p :: ps =>
      set { s with free := ps }
      return some p

variable (K : KernelImage)

def kfree (pa : Nat) : VmM Unit := do
  if pa % PGSIZE ≠ 0 ∨ pa < K.kend ∨ PHYSTOP ≤ pa then throw .kfree
  modify fun s => { s with free := pa :: s.free }

/-! ### `walkpgdir` and `mappages` -/

/-- The directory in which the entry of `va` can be read and set, or `none` for 0. -/
def walkpgdir (d : PageDir) (va : Nat) (alloc : Bool) : VmM (Option PageDir) := do
  if (d.tables (PDX va)).isSome then return some d
  else if alloc then
    match ← kalloc with
    | none =>
        modify fun s => { s with short := true }
        return none
    | some page => return some (d.addTable va page)
  else return none

/-- The loop of `mappages`; `k` is the number of pages that follow. -/
def mapLoop (w u : Bool) : (k : Nat) → PageDir → (a pa : Nat) → VmM (Bool × PageDir)
  | k, d, a, pa => do
      match ← walkpgdir d a true with
      | none => return (false, d)
      | some d =>
          if (d.getPte a).isSome then throw .remap
          let d := d.setPte a (some ⟨pa, w, u⟩)
          match k with
          | 0 => return (true, d)
          | k + 1 => mapLoop w u k d ((a + PGSIZE) % ADDRESSES) (pa + PGSIZE)

def mappages (d : PageDir) (va size pa : Nat) (w u : Bool) : VmM (Bool × PageDir) :=
  let a := pgRoundDown va
  let last := pgRoundDown ((va + size + (ADDRESSES - 1)) % ADDRESSES)
  mapLoop w u ((last + ADDRESSES - a) % ADDRESSES / PGSIZE) d a pa

/-! ### The kernel's mappings -/

structure Kmap where
  virt : Nat
  physStart : Nat
  physEnd : Nat
  w : Bool

def kmap : List Kmap :=
  [⟨KERNBASE, 0, EXTMEM, true⟩, ⟨KERNLINK, EXTMEM, K.data, false⟩,
    ⟨KERNBASE + K.data, K.data, PHYSTOP, true⟩, ⟨DEVSPACE, DEVSPACE, 0, true⟩]

/-- The loop of `setupkvm`; when it fails, the directory is lost. -/
def mapKernel : List Kmap → PageDir → VmM (Option PageDir)
  | [], d => return some d
  | k :: ks, d => do
      let size := (k.physEnd + ADDRESSES - k.physStart) % ADDRESSES
      match ← mappages d k.virt size k.physStart k.w false with
      | (false, _) => return none
      | (true, d) => mapKernel ks d

def setupkvm : VmM (Option PageDir) := do
  match ← kalloc with
  | none => return none
  | some page => mapKernel (kmap K) ⟨page, fun _ => none⟩

/-! ### User memory

The functions are irreducible so that elaboration does not run their loops. -/

def deallocLoop : (fuel : Nat) → PageDir → (a oldsz : Nat) → VmM PageDir
  | 0, d, _, _ => return d
  | fuel + 1, d, a, oldsz =>
      if a < oldsz then do
        match ← walkpgdir d a false with
        | none => deallocLoop fuel d (a + (NPTENTRIES - 1) * PGSIZE + PGSIZE) oldsz
        | some d =>
            match d.getPte a with
            | none => deallocLoop fuel d (a + PGSIZE) oldsz
            | some e =>
                if e.pa = 0 then throw .kfree
                kfree K e.pa
                deallocLoop fuel (d.setPte a none) (a + PGSIZE) oldsz
      else return d

/-- The new size and the directory. -/
@[irreducible] def deallocuvm (d : PageDir) (oldsz newsz : Nat) : VmM (Nat × PageDir) := do
  if oldsz ≤ newsz then return (oldsz, d)
  let d ← deallocLoop K (ADDRESSES / PGSIZE) d (pgRoundUp newsz) oldsz
  return (newsz, d)

def allocLoop (oldsz newsz : Nat) : (fuel : Nat) → PageDir → (a : Nat) → VmM (Nat × PageDir)
  | 0, d, _ => return (newsz, d)
  | fuel + 1, d, a =>
      if a < newsz then do
        match ← kalloc with
        | none =>
            let (_, d) ← deallocuvm K d newsz oldsz
            return (0, d)
        | some mem =>
            modify fun s => { s with user := mem :: s.user }
            -- the result of `mappages` is not looked at
            let (_, d) ← mappages d a PGSIZE mem true true
            allocLoop oldsz newsz fuel d (a + PGSIZE)
      else return (newsz, d)

/-- The new size, 0 on error, and the directory. -/
@[irreducible] def allocuvm (d : PageDir) (oldsz newsz : Nat) : VmM (Nat × PageDir) :=
  if KERNBASE ≤ newsz then return (0, d)
  else if newsz < oldsz then return (oldsz, d)
  else allocLoop K oldsz newsz (ADDRESSES / PGSIZE) d (pgRoundUp oldsz)

/-- The loop of `freevm` over the directory. -/
def freeTables (d : PageDir) : List Nat → VmM Unit
  | [] => return ()
  | i :: is => do
      match d.tables i with
      | none => freeTables d is
      | some t =>
          kfree K t.page
          freeTables d is

@[irreducible] def freevm (d : PageDir) : VmM Unit := do
  let (_, d) ← deallocuvm K d KERNBASE 0
  freeTables K d (List.range NPDENTRIES)
  kfree K d.page

/-- The loop of `copyuvm`; `none` after `freevm` of the copy. -/
def copyPages (src : PageDir) (sz : Nat) : (fuel : Nat) → PageDir → (i : Nat) → VmM (Option PageDir)
  | 0, d, _ => return some d
  | fuel + 1, d, i =>
      if i < sz then do
        match ← walkpgdir src i false with
        | none => throw .pteShouldExist
        | some src =>
            match src.getPte i with
            | none => throw .pageNotPresent
            | some e =>
                match ← kalloc with
                | none =>
                    freevm K d
                    return none
                | some mem =>
                    match ← mappages d i PGSIZE mem e.w e.u with
                    | (false, d) =>
                        freevm K d
                        return none
                    | (true, d) => copyPages src sz fuel d (i + PGSIZE)
      else return some d

def copyuvm (src : PageDir) (sz : Nat) : VmM (Option PageDir) := do
  match ← setupkvm K with
  | none => return none
  | some d => copyPages K src sz (ADDRESSES / PGSIZE) d 0

end Xv6Kernel
