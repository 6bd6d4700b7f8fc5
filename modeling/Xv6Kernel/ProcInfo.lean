/-
  ProcInfo.lean
  =============
  The functions that report the parent of a process.

  `getprocs`, `sys_getppid` and `printZombieList` follow the parent pointer of a process
  and read a pid through it, without looking at what is there.  Since the table is a tree
  they find a live process.  `getprocs` and `sys_getppid` do not follow the pointer of a
  process whose pid is 1, which init is.

  `procdump` takes no lock and lists embryos too.  The parent of an embryo is null until `fork`
  sets it, so the listing dereferences a null pointer if it is asked for before that.
-/
import Xv6Kernel.ProcTree

namespace Xv6Kernel

open Relation (ReflTransGen)
open IntrusiveList

def STRMAX : Nat := 32

structure Uproc where
  pid : Uint
  uid : Uint
  gid : Uint
  ppid : Uint
  elapsedTicks : Uint
  cpuTotalTicks : Uint
  state : String
  size : Uint
  prio : Uint
  name : String
deriving DecidableEq, Repr

/-- The table `states` of `proc.c`. -/
def ProcState.text : ProcState → String
  | .unused => "unused"
  | .embryo => "embryo"
  | .sleeping => "sleep "
  | .runnable => "runble"
  | .running => "run   "
  | .zombie => "zombie"

def safestrcpy (t : String) (n : Nat) : String := String.ofList (t.toList.take (n - 1))

namespace Table

/-- `sys_getppid` for the process `p`. -/
def getppid (t : Table) (p : Slot) : Except Panic Uint :=
  if 1 = (t.proc p).pid then .ok (t.proc p).pid
  else
    match (t.proc p).parent with
    | none => .error .nullPointer
    | some q => .ok (t.proc q).pid

/-- What `getprocs` writes to one entry of the user's table. -/
def uproc (t : Table) (p : Slot) : Except Panic Uproc := do
  let r := t.proc p
  let ppid ← t.getppid p
  return {
    pid := r.pid
    uid := r.uid
    gid := r.gid
    ppid := ppid
    elapsedTicks := t.ticks - r.startTicks
    cpuTotalTicks := r.cpuTicksTotal
    state := safestrcpy r.state.text STRMAX
    size := r.sz
    prio := BitVec.ofInt 32 r.prio
    name := safestrcpy r.name STRMAX }

def getprocsLoop (t : Table) (max : Uint) : List Slot → List Uproc → Except Panic (List Uproc)
  | [], table => .ok table
  | p :: ps, table =>
      if table.length < max.toNat then
        if (t.proc p).state.Live then do
          let u ← t.uproc p
          getprocsLoop t max ps (table ++ [u])
        else getprocsLoop t max ps table
      else .ok table

def getprocs (t : Table) (max : Uint) : Except Panic (Int × List Uproc) := do
  let table ← t.getprocsLoop max (List.finRange NPROC) []
  return (if 0 = table.length then -1 else table.length, table)

/-- The line that `printprocinfo` prints. -/
def printprocinfo (t : Table) (p : Slot) (state : String) : Except Panic Uproc := do
  let r := t.proc p
  let ppid ← t.getppid p
  return {
    pid := r.pid
    uid := r.uid
    gid := r.gid
    ppid := ppid
    elapsedTicks := t.ticks - r.startTicks
    cpuTotalTicks := r.cpuTicksTotal
    state := state
    size := r.sz
    prio := BitVec.ofInt 32 r.prio
    name := r.name }

def procdumpLoop (t : Table) : List Slot → Except Panic (List Uproc)
  | [] => .ok []
  | p :: ps =>
      if (t.proc p).state = .unused then procdumpLoop t ps
      else do
        let line ← t.printprocinfo p (t.proc p).state.text
        let lines ← procdumpLoop t ps
        return line :: lines

/-- The lines of `procdump`, without the addresses that it adds for a sleeping process. -/
def procdump (t : Table) : Except Panic (List Uproc) := t.procdumpLoop (List.finRange NPROC)

end Table

/-- One turn of the loop of `printZombieList`, which prints a pid and a parent's pid. -/
def PTable.printZombie (p : Slot) (s : PTable × List (Uint × Uint)) :
    Except Panic (Option Unit × (PTable × List (Uint × Uint))) :=
  match (s.1.proc p).parent with
  | none => .error .nullPointer
  | some q => .ok (none, (s.1, s.2 ++ [((s.1.proc p).pid, (s.1.proc q).pid)]))

/-- The pairs that `printZombieList` prints. -/
def PTable.printZombieList (s : PTable) : Except Panic (List (Uint × Uint)) := do
  let (_, (_, out)) ←
    forEach (fun s => s.1.next) .diverges printZombie NPROC (s.pLists .zombie) (s, [])
  return out

namespace Table

variable {t : Table} {p q i : Slot}

namespace Tree

theorem parent_live (h : t.Tree) (hi : t.initproc = some i) (hp : (t.proc p).state.Started)
    (hpi : p ≠ i) : ∃ q, (t.proc p).parent = some q ∧ (t.proc q).state.Live := by
  rcases (h.reaches i p hi hp).cases_head with heq | ⟨q, hc, -⟩
  · exact absurd heq hpi
  · exact ⟨q, hc.parent, hc.live⟩

theorem getppid_live (h : t.Tree) (hp : (t.proc p).state.Live) :
    ∃ q, (t.proc q).state.Live ∧ t.getppid p = .ok (t.proc q).pid := by
  obtain ⟨i, hi, -, hpid, -⟩ := h.root
  unfold getppid
  by_cases h1 : 1 = (t.proc p).pid
  · rw [if_pos h1]
    exact ⟨p, hp, rfl⟩
  · rw [if_neg h1]
    have hpi : p ≠ i := by
      rintro rfl
      exact h1 hpid.symm
    obtain ⟨q, hq, hlive⟩ := h.parent_live hi (Or.inl hp) hpi
    rw [hq]
    exact ⟨q, hlive, rfl⟩

theorem getprocsLoop_live (h : t.Tree) (max : Uint) (ps : List Slot)
    (htable : ∀ u ∈ table, ∃ q, (t.proc q).state.Live ∧ u.ppid = (t.proc q).pid) :
    ∃ table', t.getprocsLoop max ps table = .ok table' ∧
      ∀ u ∈ table', ∃ q, (t.proc q).state.Live ∧ u.ppid = (t.proc q).pid := by
  induction ps generalizing table with
  | nil => exact ⟨table, rfl, htable⟩
  | cons p ps ih =>
    unfold getprocsLoop
    by_cases hmax : table.length < max.toNat
    · rw [if_pos hmax]
      by_cases hp : (t.proc p).state.Live
      · obtain ⟨q, hq, hppid⟩ := h.getppid_live hp
        simp only [if_pos hp, uproc, hppid, bind, Except.bind, pure, Except.pure]
        apply ih
        intro u hu
        rcases List.mem_append.mp hu with hu | hu
        · exact htable u hu
        · rw [List.mem_singleton.mp hu]
          exact ⟨q, hq, rfl⟩
      · rw [if_neg hp]
        exact ih htable
    · rw [if_neg hmax]
      exact ⟨table, rfl, htable⟩

theorem getprocs_live (h : t.Tree) (max : Uint) : ∃ n table, t.getprocs max = .ok (n, table) ∧
    ∀ u ∈ table, ∃ q, (t.proc q).state.Live ∧ u.ppid = (t.proc q).pid := by
  obtain ⟨table, hrun, hlive⟩ := h.getprocsLoop_live max (List.finRange NPROC)
    (show ∀ u ∈ [], _ by simp)
  exact ⟨_, table, by simp only [getprocs, hrun]; rfl, hlive⟩

end Tree

/-- The listing needs a parent of every process but the one with pid 1. -/
theorem procdumpLoop_ok_iff (ps : List Slot) : (∃ lines, t.procdumpLoop ps = .ok lines) ↔
    ∀ p ∈ ps, (t.proc p).state ≠ .unused → (t.proc p).pid ≠ 1 → (t.proc p).parent ≠ none := by
  induction ps with
  | nil => simp [procdumpLoop]
  | cons p ps ih =>
    unfold procdumpLoop
    rw [List.forall_mem_cons, ← ih]
    by_cases hst : (t.proc p).state = .unused
    · rw [if_pos hst]
      exact ⟨fun h => ⟨absurd hst, h⟩, fun h => h.2⟩
    · rw [if_neg hst]
      unfold printprocinfo getppid
      by_cases hpid : 1 = (t.proc p).pid
      · cases hrest : t.procdumpLoop ps <;> simp [← hpid, bind, Except.bind, pure, Except.pure]
      · rw [if_neg hpid]
        cases hparent : (t.proc p).parent <;> cases hrest : t.procdumpLoop ps <;>
          simp [hst, bind, Except.bind, pure, Except.pure]
        exact fun h => hpid h.symm

theorem Tree.procdump_ok_iff (h : t.Tree) : (∃ lines, t.procdump = .ok lines) ↔
    ∀ q, (t.proc q).state = .embryo → (t.proc q).pid ≠ 1 → ∃ p, t.kctx p = .linking q := by
  obtain ⟨i, hi, -, hpid, -⟩ := h.root
  unfold procdump
  rw [procdumpLoop_ok_iff]
  constructor
  · intro hall q hq h1
    by_contra hno
    have hst : (t.proc q).state ≠ .unused := by rw [hq]; decide
    exact hall q (List.mem_finRange q) hst h1 (h.embryo q hq fun p hp => hno ⟨p, hp⟩)
  · intro hall q _ hst h1
    have hqi : q ≠ i := by
      rintro rfl
      exact h1 hpid
    by_cases hq : (t.proc q).state = .embryo
    · obtain ⟨p, hp⟩ := hall q hq h1
      rw [h.linking p q hp]
      exact Option.some_ne_none p
    · have hstarted : (t.proc q).state.Started := by
        revert hst hq
        cases (t.proc q).state <;> simp [ProcState.Started, ProcState.Live]
      obtain ⟨p, hp, -⟩ := h.parent_live hi hstarted hqi
      rw [hp]
      exact Option.some_ne_none p

end Table

theorem Represents.printZombieList_live (hr : Represents s a)
    (ok : a.ListsOk) (h : s.Tree) : ∃ out, s.printZombieList = .ok out ∧
      ∀ o ∈ out, ∃ q, (s.proc q).state.Live ∧ o.2 = (s.proc q).pid := by
  obtain ⟨i, hi, hlive, -⟩ := h.root
  have hzombie : ∀ z ∈ a.lists .zombie, (s.proc z).state = .zombie := by
    intro z hz
    rw [hr.proc]
    exact Proc.list_eq_zombie.mp ((ok.mem z .zombie).mp hz)
  have hparent : ∀ z, (s.proc z).state = .zombie →
      ∃ q, (s.proc z).parent = some q ∧ (s.proc q).state.Live := by
    intro z hz
    apply h.parent_live hi (Or.inr hz)
    rintro rfl
    rw [hz] at hlive
    rcases hlive with h | h | h <;> cases h
  have hloop : ∃ s', forEach (fun x : PTable × List (Uint × Uint) => x.1.next) .diverges
      PTable.printZombie NPROC (s.pLists .zombie) (s, []) =
        .ok ((foldStop (fun _ u => (none, u)) (a.lists .zombie) ()).1, s') ∧
      ∀ o ∈ s'.2, ∃ q, (s.proc q).state.Live ∧ o.2 = (s.proc q).pid := by
    -- the loop changes nothing, and what it has printed so far is as claimed
    apply forEach_foldStop (fun l (x : PTable × List (Uint × Uint)) (_ : Unit) =>
        x.1 = s ∧ (∃ head, Chain s.next head l) ∧
        (∀ z ∈ l, (s.proc z).state = .zombie) ∧
        ∀ o ∈ x.2, ∃ q, (s.proc q).state.Live ∧ o.2 = (s.proc q).pid)
      (fun (x : PTable × List (Uint × Uint)) (_ : Unit) =>
        ∀ o ∈ x.2, ∃ q, (s.proc q).state.Live ∧ o.2 = (s.proc q).pid)
    · exact fun _ _ hrel => hrel.2.2.2
    · rintro z l ⟨x, out⟩ u ⟨rfl, ⟨head, hchain⟩, hz, hout⟩
      obtain ⟨q, hq, hqlive⟩ := hparent z (hz z (by simp))
      refine ⟨(x, out ++ [((x.proc z).pid, (x.proc q).pid)]), ?_, by simp, fun _ => ?_⟩
      · unfold PTable.printZombie
        rw [hq]
      · refine ⟨⟨rfl, ⟨_, hchain.2⟩, fun y hy => hz y (by simp [hy]), ?_⟩, hchain.2⟩
        intro o ho
        rcases List.mem_append.mp ho with ho | ho
        · exact hout o ho
        · rw [List.mem_singleton.mp ho]
          exact ⟨q, hqlive, rfl⟩
    · exact ⟨rfl, ⟨_, hr.chain .zombie⟩, hzombie, by simp⟩
    · exact hr.chain .zombie
    · exact hr.length_le .zombie
  obtain ⟨s', hrun, hout⟩ := hloop
  exact ⟨s'.2, by simp only [PTable.printZombieList, hrun]; rfl, hout⟩

/-- Init has forked a child, which has exited. -/
def deadChild : PTable :=
  afterActs [.scheduler 0, .resume 0,
    .allocproc 0, .kalloc 0 (some 3), .copyuvm 0 (some 4), .forkFinish 0,
    .scheduler 1, .resume 1, .exit 1]

/-- Init is in `fork` and has allocated a slot. -/
def midFork : PTable := afterActs [.scheduler 0, .resume 0, .allocproc 0]

end Xv6Kernel
