/-
  CpuTime.lean
  ============
  The time that a process spends on a CPU.

  The code keeps the time in `uint` fields, and `ticks` wraps.  A `Ledger` counts the same
  ticks without wrapping: those since `allocproc`, those of the current slice and those of
  the slices that have ended, a slice being the time from the dispatch of a process to its
  `yield`, `sleep` or `exit`.  `Table.Charge` lists what a step can do to the fields of one
  process; that the two sides of the books agree is then arithmetic.
-/
import Xv6Kernel.ProcSimulation

namespace Xv6Kernel

open Function

/-! ### What a step does to one process -/

namespace Table

variable {t t' : Table} {p q : Slot} {act : Act} {ev : List Ev} {cpu : Cpu} {r : Proc}

/-- The action ends the `allocproc` that makes `p`. -/
def Births (t : Table) (p : Slot) : Act → Prop
  | .kalloc cpu (some _) => (t.cpuProc cpu).map t.kctx = some (.allocating p)
  | _ => False

instance : Decidable (t.Births p act) := by
  unfold Births
  split <;> infer_instance

/-- `scheduler` promotes, and `setpriority` sets a priority: what they change of a process
    does not follow from its own time. -/
def Adjusts : Act → Bool
  | .scheduler _ | .setpriority _ _ _ => true
  | _ => false

/-- `p` keeps its CPU, or does without one. -/
structure Stays (t : Table) (p : Slot) (act : Act) (r : Proc) : Prop where
  running : r.state = .running ↔ (t.proc p).state = .running
  start : r.startTicks = (t.proc p).startTicks
  ticksIn : r.cpuTicksIn = (t.proc p).cpuTicksIn
  total : r.cpuTicksTotal = (t.proc p).cpuTicksTotal
  held : Adjusts act = false → r.budget = (t.proc p).budget ∧ r.prio = (t.proc p).prio

/-- A slice of `p` ends in `sched`. -/
structure Ends (t : Table) (p : Slot) (r : Proc) : Prop where
  running : (t.proc p).state = .running
  stopped : r.state ≠ .running
  start : r.startTicks = (t.proc p).startTicks
  total : r.cpuTicksTotal = (t.proc p).cpuTicksTotal + (t.ticks - (t.proc p).cpuTicksIn)

inductive Charge (t : Table) (p : Slot) (act : Act) (r : Proc) : Prop where
  | stays : ¬ t.Births p act → (act = .tick → r = t.proc p) → t.Stays p act r → Charge t p act r
  | born : t.Births p act → act ≠ .tick → r.state ≠ .running → r.startTicks = t.ticks →
      r.cpuTicksTotal = 0 → r.budget = BitVec.ofNat 32 BUDGET → r.prio = 0 → Charge t p act r
  | dispatched : ¬ t.Births p act → act ≠ .tick → (t.proc p).state ≠ .running →
      r.state = .running → r.startTicks = (t.proc p).startTicks → r.cpuTicksIn = t.ticks →
      r.cpuTicksTotal = (t.proc p).cpuTicksTotal → Adjusts act → Charge t p act r
  /-- In `yield` or `sleep`. -/
  | left : ¬ t.Births p act → act ≠ .tick → t.Ends p r → r.state ≠ .zombie →
      r.budget = ((t.proc p).budgetupdate t.ticks).budget →
      r.prio = ((t.proc p).budgetupdate t.ticks).prio → Charge t p act r
  | exited : ¬ t.Births p act → act ≠ .tick → t.Ends p r → r.state = .zombie →
      r.budget = (t.proc p).budget → r.prio = (t.proc p).prio → Charge t p act r

theorem Stays.refl : t.Stays p act (t.proc p) := ⟨Iff.rfl, rfl, rfl, rfl, fun _ => ⟨rfl, rfl⟩⟩

theorem Charge.refl (hact : ¬ t.Births p act) : t.Charge p act (t.proc p) :=
  .stays hact (fun _ => rfl) .refl

theorem Charge.changed (hproc : t'.proc = update t.proc q r)
    (hact : ¬ t.Births p act) (htick : act ≠ .tick) (hr : t.Stays q act r) :
    t.Charge p act (t'.proc p) := by
  rw [hproc]
  by_cases hq : p = q
  · subst hq
    rw [update_self]
    exact .stays hact (fun h => absurd h htick) hr
  · rw [update_of_ne hq]
    exact .refl hact

/-- The process `q` leaves its CPU for a state other than ZOMBIE, in a table `u` that has
    the other processes of `t`. -/
theorem Charge.leaves (u : Table) (c : Option Chan) (st : ProcState)
    (hproc : t'.proc = update u.proc q
      ((({ t.proc q with chan := c, state := st } : Proc).budgetupdate t.ticks).schedTicks t.ticks))
    (hu : ∀ r, r ≠ q → u.proc r = t.proc r) (hact : ¬ t.Births p act) (htick : act ≠ .tick)
    (hq : (t.proc q).state = .running) (hst : st ≠ .running) (hst' : st ≠ .zombie) :
    t.Charge p act (t'.proc p) := by
  rw [hproc]
  by_cases hp : p = q
  · subst hp
    rw [update_self]
    by_cases h : ((t.proc p).budget - (t.ticks - (t.proc p).cpuTicksIn)).toInt ≤ 0
    · refine .left hact htick ⟨hq, ?_, ?_, ?_⟩ ?_ ?_ ?_ <;>
        simp only [h, if_true, Proc.schedTicks, Proc.budgetupdate] <;> assumption
    · refine .left hact htick ⟨hq, ?_, ?_, ?_⟩ ?_ ?_ ?_ <;>
        simp only [h, if_false, Proc.schedTicks, Proc.budgetupdate] <;> assumption
  · rw [update_of_ne hp, hu p hp]
    exact .refl hact

theorem Charge.exit (hq : (t.proc q).state = .running) :
    t.Charge p (.exit cpu) ((t.exit cpu q).proc p) := by
  have hfield : ∀ {α : Type} (f : Proc → α), (∀ r st, f { r with state := st } = f r) →
      (∀ r o, f { r with parent := o } = f r) → f ((t.handOver q).proc p) = f (t.proc p) :=
    fun f hs ho => handOver_field hs ho
  have hstart := hfield Proc.startTicks (by simp) (by simp)
  have hin := hfield Proc.cpuTicksIn (by simp) (by simp)
  have htotal := hfield Proc.cpuTicksTotal (by simp) (by simp)
  have hbudget := hfield Proc.budget (by simp) (by simp)
  have hprio := hfield Proc.prio (by simp) (by simp)
  by_cases hp : p = q
  · subst hp
    have hnow : (t.handOver p).ticks = t.ticks := by rw [handOver_frame]
    have hnew : (t.exit cpu p).proc p =
        ({ (t.handOver p).proc p with state := .zombie } : Proc).schedTicks t.ticks := by
      simp [Table.exit, leaveCpu, hnow]
    rw [hnew]
    refine .exited id (by simp) ⟨hq, ?_, ?_, ?_⟩ ?_ ?_ ?_ <;>
      simp only [Proc.schedTicks, hstart, hin, htotal, hbudget, hprio, ne_eq, reduceCtorEq,
        not_false_eq_true]
  · have hnew : (t.exit cpu q).proc p = (t.handOver q).proc p := by
      simp [Table.exit, leaveCpu, hp]
    rw [hnew]
    refine .stays id (by simp) ⟨?_, hstart, hin, htotal, fun _ => ⟨hbudget, hprio⟩⟩
    rcases handOver_state (t := t) (p := q) (q := p) with h | ⟨h, h'⟩
    · rw [h]
    · simp [h, h']

/-- A pass of `wait` by `q`, in a table `u` that differs from `t` at most in a channel. -/
theorem WaitPass.charge (h : WaitPass cpu q u ev t') (hact : ¬ t.Births p act)
    (htick : act ≠ .tick) (hq : (t.proc q).state = .running)
    (hu : ∀ r, r ≠ q → u.proc r = t.proc r) (huq : ∃ c, u.proc q = { t.proc q with chan := c })
    (hnow : u.ticks = t.ticks) : t.Charge p act (t'.proc p) := by
  obtain ⟨c, hc⟩ := huq
  have hsame : ∀ r, t.Stays r act (u.proc r) := by
    intro r
    by_cases hr : r = q
    · rw [hr, hc]
      exact ⟨Iff.rfl, rfl, rfl, rfl, fun _ => ⟨rfl, rfl⟩⟩
    · rw [hu r hr]
      exact .refl
  cases h with
  | @reaped z hz _ =>
    refine .stays hact (fun h => absurd h htick) ?_
    obtain ⟨hrun, hstart, hin, htotal, hheld⟩ := hsame p
    by_cases hp : p = z
    · subst hp
      have hidle : (t.proc p).state ≠ .running := by simpa [hz] using hrun
      refine ⟨?_, ?_, ?_, ?_, fun h => ?_⟩ <;>
        simp [Table.reap, Proc.reapFields, *]
    · simpa [Table.reap, hp] using hsame p
  | failed _ _ => exact .stays hact (fun h => absurd h htick) (hsame p)
  | sleeps _ =>
    refine .leaves u (some (.proc q)) .sleeping ?_ hu hact htick hq (by simp) (by simp)
    simp [Table.sleep, leaveCpu, hc, hnow]

theorem Reprio.ticks (h : t.Reprio t') : t'.ticks = t.ticks := by rw [h.frame]

theorem Reprio.stays (h : t.Reprio t') (p : Slot) (cpu : Cpu) :
    t.Stays p (.scheduler cpu) (t'.proc p) := by
  rw [h.proc p]
  exact ⟨Iff.rfl, rfl, rfl, rfl, by simp [Adjusts]⟩

theorem Step.charge (ok : t.KernelOk) (h : t.Step act ev t') (p : Slot) :
    t.Charge p act (t'.proc p) := by
  have hembryo : ∀ {q np : Slot}, (t.kctx q).child = some np → (t.proc np).state ≠ .running := by
    intro q np hk
    simp [(ok.forking q np hk).1]
  cases h with
  | tick | noSlot _ _ | resume _ _ _ _ | killMiss _ _ | setpriorityMiss _ => exact .refl id
  | allocproc _ hnp =>
    exact .changed rfl id (by simp) ⟨by simp [hnp], rfl, rfl, rfl, fun _ => ⟨rfl, rfl⟩⟩
  | kallocFails hcall =>
    have hnp := hembryo (by rw [hcall.kctx]; rfl)
    exact .changed rfl id (by simp) ⟨by simp [hnp], rfl, rfl, rfl, fun _ => ⟨rfl, rfl⟩⟩
  | @kalloc cpu q np kstack hruns =>
    have hnp := hembryo (by rw [hruns.kctx]; rfl)
    by_cases hp : p = np
    · subst hp
      have hborn : t.Births p (.kalloc cpu (some kstack)) := by
        simp [Births, hruns.cpu, hruns.kctx]
      refine .born hborn ?_ ?_ ?_ ?_ ?_ ?_ <;> simp [Proc.allocprocFields, hnp]
    · have hother : ¬ t.Births p (.kalloc cpu (some kstack)) := by
        simp [Births, hruns.cpu, hruns.kctx, Ne.symm hp]
      simpa [hp] using Charge.refl hother
  | copyuvmFails hcall =>
    have hnp := hembryo (by rw [hcall.kctx]; rfl)
    exact .changed rfl id (by simp) ⟨by simp [hnp], rfl, rfl, rfl, fun _ => ⟨rfl, rfl⟩⟩
  | copyuvm _ => exact .changed rfl id (by simp) ⟨Iff.rfl, rfl, rfl, rfl, fun _ => ⟨rfl, rfl⟩⟩
  | forkFinish hcall =>
    have hnp := hembryo (by rw [hcall.kctx]; rfl)
    exact .changed rfl id (by simp) ⟨by simp [hnp], rfl, rfl, rfl, fun _ => ⟨rfl, rfl⟩⟩
  | exit hcall _ => exact .exit (ok.onCpu _ _ hcall.cpu)
  | wait hcall hwait =>
    exact hwait.charge id (by simp) (ok.onCpu _ _ hcall.cpu) (fun _ _ => rfl) ⟨_, rfl⟩ rfl
  | idle _ _ hre _ => exact .stays id (by simp) (hre.stays p _)
  | @dispatch cpu q u _ _ hre hq _ =>
    obtain ⟨hrun, hstart, hin, htotal, _⟩ := hre.stays p cpu
    by_cases hp : p = q
    · subst hp
      have hidle : (t.proc p).state ≠ .running := by simp [hq]
      refine .dispatched id (by simp) hidle ?_ ?_ ?_ ?_ rfl <;>
        simp [Table.dispatch, hstart, htotal, hre.ticks]
    · refine .stays id (by simp) ?_
      simpa [Table.dispatch, hp] using hre.stays p cpu
  | resumeAsleep _ _ _ =>
    exact .changed rfl id (by simp) ⟨Iff.rfl, rfl, rfl, rfl, fun _ => ⟨rfl, rfl⟩⟩
  | @resumeInWait cpu q _ _ _ hcpu _ hwait =>
    exact hwait.charge id (by simp) (ok.onCpu _ _ hcpu) (fun r hr => by simp [hr])
      ⟨none, by simp⟩ rfl
  | @yield cpu q _ hcall =>
    refine .leaves t (t.proc q).chan .runnable ?_ (fun _ _ => rfl) id
      (by simp) (ok.onCpu _ _ hcall.cpu) (by simp) (by simp)
    simp [Table.yield, leaveCpu]
  | @sleep cpu q ch hcall =>
    refine .leaves t (some (.addr ch)) .sleeping ?_ (fun _ _ => rfl) id
      (by simp) (ok.onCpu _ _ hcall.cpu) (by simp) (by simp)
    simp [Table.sleep, leaveCpu]
  | wakeup _ =>
    refine .stays id (by simp) ?_
    rw [wakeup1_proc]
    split_ifs with hs
    · exact ⟨by simp [hs.1], rfl, rfl, rfl, fun _ => ⟨rfl, rfl⟩⟩
    · exact .refl
  | @kill cpu _ _ q _ _ _ =>
    refine .changed rfl id (by simp) ⟨?_, rfl, rfl, rfl, fun _ => ⟨rfl, rfl⟩⟩
    by_cases hs : (t.proc q).state = .sleeping
    · simp [hs]
    · simp [hs]
  | setpriority _ _ _ hf =>
    rcases hf with rfl | rfl
    · exact .changed rfl id (by simp) ⟨Iff.rfl, rfl, rfl, rfl, by simp [Adjusts]⟩
    · exact .changed rfl id (by simp) ⟨Iff.rfl, rfl, rfl, rfl, by simp [Adjusts]⟩
  | trapKill _ => exact .changed rfl id (by simp) ⟨Iff.rfl, rfl, rfl, rfl, fun _ => ⟨rfl, rfl⟩⟩

theorem leaveCpu_clock (cpu : Cpu) (q : Slot) : (t.leaveCpu cpu q).ticks = t.ticks ∧
    (t.leaveCpu cpu q).promoteAtTime = t.promoteAtTime := ⟨rfl, rfl⟩

theorem WaitPass.clock (h : WaitPass cpu q u ev t') :
    t'.ticks = u.ticks ∧ t'.promoteAtTime = u.promoteAtTime := by
  cases h <;> exact ⟨rfl, rfl⟩

/-- The clock moves at a timer tick, and the time of the next promotion in `scheduler`. -/
theorem Step.clock (h : t.Step act ev t') :
    t'.ticks = (if act = .tick then t.ticks + 1 else t.ticks) ∧
      ((∀ cpu, act ≠ .scheduler cpu) → t'.promoteAtTime = t.promoteAtTime) := by
  cases h with
  | @exit cpu q _ _ =>
    obtain ⟨hnow, hnext⟩ := leaveCpu_clock (t := (t.handOver q).setState q .zombie) cpu q
    rw [Table.exit, hnow, hnext, setProc_ticks, setProc_promoteAtTime, handOver_frame]
    exact ⟨rfl, fun _ => rfl⟩
  | wait _ h => exact ⟨h.clock.1, fun _ => h.clock.2⟩
  | resumeInWait _ _ _ h => exact ⟨h.clock.1, fun _ => h.clock.2⟩
  | @idle cpu _ _ _ hre _ => exact ⟨hre.ticks, fun h => absurd rfl (h cpu)⟩
  | @dispatch cpu _ _ _ _ hre _ _ => exact ⟨hre.ticks, fun h => absurd rfl (h cpu)⟩
  | _ => exact ⟨rfl, fun _ => rfl⟩

end Table

/-! ### The ledger of a process -/

/-- Ticks of a process, counted without wrapping. -/
structure Ledger where
  age : Nat          -- since its `allocproc`
  slice : Nat        -- since it was last dispatched
  spent : Nat        -- in its slices that have ended
  charged : Nat      -- in those that `yield` or `sleep` ended
  longest : Nat      -- the longest of these
  exhausted : Nat    -- how many of these used up what was left of the budget
  disturbed : Bool   -- it has been promoted, or its priority has been set
deriving DecidableEq

namespace Ledger

def new : Ledger := ⟨0, 0, 0, 0, 0, 0, false⟩

/-- What the step `act` from `t` adds, if it leaves the slot `p` as `r`. -/
def next (t : Table) (p : Slot) (act : Act) (r : Proc) (k : Ledger) : Ledger :=
  let old := t.proc p
  if t.Births p act then new
  else if act = .tick then { k with age := k.age + 1, slice := k.slice + 1 }
  else if old.state = .running ∧ r.state ≠ .running then
    if r.state = .zombie then { k with spent := k.spent + k.slice }
    else
      { k with
        spent := k.spent + k.slice
        charged := k.charged + k.slice
        longest := max k.longest k.slice
        exhausted := if old.budget.toNat ≤ k.slice then k.exhausted + 1 else k.exhausted }
  else
    { k with
      slice := if old.state ≠ .running ∧ r.state = .running then 0 else k.slice
      disturbed := k.disturbed ||
        (Table.Adjusts act && decide (r.budget ≠ old.budget ∨ r.prio ≠ old.prio)) }

/-- What the budget and the priority of a process say of its slices, none of which is longer
    than `S`. -/
structure Budgeted (k : Ledger) (S : Nat) (r : Proc) : Prop where
  pos : 1 ≤ r.budget.toNat
  le : r.budget.toNat ≤ BUDGET
  prio : r.prio = min MAX k.exhausted
  low : k.exhausted * BUDGET + (BUDGET - r.budget.toNat) ≤ k.charged
  high : k.charged ≤ k.exhausted * (BUDGET + S - 1) + (BUDGET - r.budget.toNat)

/-- The fields of the process agree with its ledger. -/
structure Bills (k : Ledger) (t : Table) (p : Slot) : Prop where
  age : t.ticks = (t.proc p).startTicks + BitVec.ofNat 32 k.age
  total : (t.proc p).cpuTicksTotal = BitVec.ofNat 32 k.spent
  slice : (t.proc p).state = .running → t.ticks = (t.proc p).cpuTicksIn + BitVec.ofNat 32 k.slice
  le_age : k.spent ≤ k.age
  slice_le_age : (t.proc p).state = .running → k.spent + k.slice ≤ k.age
  budget : ∀ S, S < 2 ^ 31 - BUDGET → k.longest ≤ S → k.disturbed = false →
    k.Budgeted S (t.proc p)

variable {k k' : Ledger} {S : Nat} {r r' : Proc}

theorem Budgeted.congr (hk : k.Budgeted S r) (hc : k'.charged = k.charged)
    (he : k'.exhausted = k.exhausted) (hb : r'.budget = r.budget) (hp : r'.prio = r.prio) :
    k'.Budgeted S r' := by
  constructor
  · exact hb ▸ hk.pos
  · exact hb ▸ hk.le
  · rw [hp, he, hk.prio]
  · rw [hc, he, hb]
    exact hk.low
  · rw [hc, he, hb]
    exact hk.high

theorem Budgeted.new (hb : r.budget = BitVec.ofNat 32 BUDGET) (hp : r.prio = 0)
    (hc : k.charged = 0) (he : k.exhausted = 0) : k.Budgeted S r := by
  constructor
  · rw [hb]
    decide
  · rw [hb]
    decide
  · rw [hp, he]
    rfl
  · simp [hb, he, BUDGET]
  · simp [hc]

/-- The subtraction of `budgetupdate`, whose result is read as a signed number. -/
theorem budget_sub (hb : b.toNat ≤ BUDGET) (hn : n < 2 ^ 31 - BUDGET) :
    ((b - BitVec.ofNat 32 n).toInt ≤ 0 ↔ b.toNat ≤ n) ∧
      (n < b.toNat → (b - BitVec.ofNat 32 n).toNat = b.toNat - n) := by
  have hB : BUDGET = 1700 := rfl
  rw [BitVec.toInt_eq_toNat_cond, BitVec.toNat_sub, BitVec.toNat_ofNat]
  constructor
  · split_ifs <;> omega
  · omega

/-- `budgetupdate` at the end of a slice of `k.slice` ticks. -/
theorem Budgeted.ends (hk : k.Budgeted S r) (hS : S < 2 ^ 31 - BUDGET)
    (hslice : k.slice ≤ S) (hnow : now - r.cpuTicksIn = BitVec.ofNat 32 k.slice)
    (hc : k'.charged = k.charged + k.slice)
    (he : k'.exhausted = if r.budget.toNat ≤ k.slice then k.exhausted + 1 else k.exhausted) :
    k'.Budgeted S (r.budgetupdate now) := by
  have hB : BUDGET = 1700 := rfl
  have hpos := hk.pos
  have hle := hk.le
  have hlow := hk.low
  have hhigh := hk.high
  obtain ⟨hsign, hsub⟩ := budget_sub hk.le (lt_of_le_of_lt hslice hS)
  unfold Proc.budgetupdate
  rw [hnow]
  by_cases hused : r.budget.toNat ≤ k.slice
  · -- what the slice takes beyond the budget is not taken from the new one
    rw [if_pos hused] at he
    have hbudget : (BitVec.ofNat 32 BUDGET).toNat = BUDGET := rfl
    simp only [hsign.mpr hused, if_true]
    constructor
    · rw [hbudget]
      omega
    · exact hbudget.le
    · have hM : MAX = 6 := rfl
      have hprio := hk.prio
      rw [he]
      simp only
      split_ifs <;> omega
    · rw [he, hc, hbudget, Nat.succ_mul]
      omega
    · rw [he, hc, hbudget, Nat.succ_mul]
      omega
  · rw [if_neg hused] at he
    have hrest := hsub (by omega)
    simp only [mt hsign.mp hused, if_false]
    constructor
    · rw [hrest]
      omega
    · rw [hrest]
      omega
    · rw [he, hk.prio]
    · rw [he, hc, hrest]
      omega
    · rw [he, hc, hrest]
      omega

end Ledger

theorem Table.Charge.bills {act : Act} {k : Ledger} (h : t.Charge p act (t'.proc p))
    (hclock : t'.ticks = if act = .tick then t.ticks + 1 else t.ticks) (hk : k.Bills t p) :
    (k.next t p act (t'.proc p)).Bills t' p := by
  have hend : t.Ends p (t'.proc p) → act ≠ .tick →
      (t'.proc p).cpuTicksTotal = BitVec.ofNat 32 (k.spent + k.slice) := by
    intro hend _
    rw [hend.total, hk.total, hk.slice hend.running, BitVec.ofNat_add,
      BitVec.add_comm (t.proc p).cpuTicksIn, BitVec.add_sub_cancel]
  cases h with
  | stays hact htick hstays =>
    obtain ⟨hrun, hstart, hin, htotal, hheld⟩ := hstays
    by_cases h : act = .tick
    · have hr := htick h
      have hsucc : ∀ n, BitVec.ofNat 32 (n + 1) = BitVec.ofNat 32 n + 1 :=
        fun n => BitVec.ofNat_add n 1
      rw [if_pos h] at hclock
      have hnext : k.next t p act (t'.proc p) =
          { k with age := k.age + 1, slice := k.slice + 1 } := (if_neg hact).trans (if_pos h)
      rw [hnext]
      refine ⟨?_, ?_, ?_, Nat.le_succ_of_le hk.le_age, ?_, ?_⟩
      · rw [hclock, hstart, hk.age, hsucc, BitVec.add_assoc]
      · rw [htotal, hk.total]
      · rw [hrun, hclock, hin, hsucc, ← BitVec.add_assoc]
        exact fun hp => congrArg (· + 1) (hk.slice hp)
      · rw [hrun]
        exact fun hp => Nat.succ_le_succ (hk.slice_le_age hp)
      · rw [hr]
        exact fun S hS hlong hd => (hk.budget S hS hlong hd).congr rfl rfl rfl rfl
    · rw [if_neg h] at hclock
      have hnext : k.next t p act (t'.proc p) = { k with
          disturbed := k.disturbed || (Table.Adjusts act && decide
            ((t'.proc p).budget ≠ (t.proc p).budget ∨ (t'.proc p).prio ≠ (t.proc p).prio)) } := by
        by_cases hp : (t.proc p).state = .running
        · simp [Ledger.next, hact, h, hp, hrun.mpr hp]
        · simp [Ledger.next, hact, h, hp, mt hrun.mp hp]
      rw [hnext]
      refine ⟨?_, ?_, ?_, hk.le_age, ?_, ?_⟩
      · rw [hclock, hstart, hk.age]
      · rw [htotal, hk.total]
      · rw [hrun, hclock, hin]
        exact hk.slice
      · rw [hrun]
        exact hk.slice_le_age
      · intro S hS hlong hd
        simp only [Bool.or_eq_false_iff, Bool.and_eq_false_iff, decide_eq_false_iff_not, not_or,
          ne_eq, not_not] at hd
        obtain ⟨hbudget, hprio⟩ := hd.2.elim hheld id
        exact (hk.budget S hS hlong hd.1).congr rfl rfl hbudget hprio
  | born hact htick hidle hstart htotal hbudget hprio =>
    rw [if_neg htick] at hclock
    have hnext : k.next t p act (t'.proc p) = .new := if_pos hact
    rw [hnext]
    refine ⟨?_, htotal, fun h => absurd h hidle, le_refl _, fun h => absurd h hidle, ?_⟩
    · rw [hclock, hstart]
      exact (BitVec.add_zero _).symm
    · exact fun S _ _ _ => .new hbudget hprio rfl rfl
  | dispatched hact htick hidle hrun hstart hin htotal hadj =>
    rw [if_neg htick] at hclock
    have hnext : k.next t p act (t'.proc p) = { k with
        slice := 0
        disturbed := k.disturbed || decide ((t'.proc p).budget ≠ (t.proc p).budget ∨
            (t'.proc p).prio ≠ (t.proc p).prio) } := by
      simp [Ledger.next, hact, htick, hidle, hrun, hadj]
    rw [hnext]
    refine ⟨?_, ?_, fun _ => ?_, hk.le_age, fun _ => hk.le_age, ?_⟩
    · rw [hclock, hstart, hk.age]
    · rw [htotal, hk.total]
    · rw [hclock, hin]
      exact (BitVec.add_zero _).symm
    · intro S hS hlong hd
      simp only [Bool.or_eq_false_iff, decide_eq_false_iff_not, not_or, ne_eq, not_not] at hd
      exact (hk.budget S hS hlong hd.1).congr rfl rfl hd.2.1 hd.2.2
  | left hact htick hends hz hbudget hprio =>
    have htotal := hend hends htick
    obtain ⟨hp, hidle, hstart, _⟩ := hends
    rw [if_neg htick] at hclock
    have hnext : k.next t p act (t'.proc p) = { k with
        spent := k.spent + k.slice
        charged := k.charged + k.slice
        longest := max k.longest k.slice
        exhausted := if (t.proc p).budget.toNat ≤ k.slice then k.exhausted + 1
          else k.exhausted } := by
      simp [Ledger.next, hact, htick, hp, hidle, hz]
    rw [hnext]
    refine ⟨?_, htotal, fun h => absurd h hidle, hk.slice_le_age hp, fun h => absurd h hidle, ?_⟩
    · rw [hclock, hstart, hk.age]
    · intro S hS hlong hd
      have hold := hk.budget S hS ((Nat.le_max_left _ _).trans hlong) hd
      have hnow : t.ticks - (t.proc p).cpuTicksIn = BitVec.ofNat 32 k.slice := by
        rw [hk.slice hp, BitVec.add_comm, BitVec.add_sub_cancel]
      exact (hold.ends hS ((Nat.le_max_right _ _).trans hlong) hnow rfl rfl).congr rfl rfl
        hbudget hprio
  | exited hact htick hends hz hbudget hprio =>
    have htotal := hend hends htick
    obtain ⟨hp, hidle, hstart, _⟩ := hends
    rw [if_neg htick] at hclock
    have hnext : k.next t p act (t'.proc p) = { k with spent := k.spent + k.slice } := by
      simp [Ledger.next, hact, htick, hp, hz]
    rw [hnext]
    refine ⟨?_, htotal, fun h => absurd h hidle, hk.slice_le_age hp, fun h => absurd h hidle, ?_⟩
    · rw [hclock, hstart, hk.age]
    · exact fun S hS hlong hd => (hk.budget S hS hlong hd).congr rfl rfl hbudget hprio

/-! ### Runs -/

/-- The process code with the ledger of the slot `p`.  A slot that has not been used has
    `startTicks = 0`, and its budget does not count. -/
def timedSystem (p : Slot) : TransitionSystem (PTable × Ledger) Act Ev where
  init s := procSystem.init s.1 ∧ s.2 = { Ledger.new with
    age := (s.1.ticks - (s.1.proc p).startTicks).toNat
    disturbed := decide (s.1.initproc ≠ some p) }
  step s act := (procSystem.step s.1 act).map fun r =>
    ((r.1, s.2.next s.1.toTable p act (r.1.proc p)), r.2)

section Runs

variable {s : PTable × Ledger}

theorem timed_step
    (h : (timedSystem p).step s act = some r) : procSystem.step s.1 act = some (r.1.1, r.2) ∧
      r.1.2 = s.2.next s.1.toTable p act (r.1.1.proc p) := by
  obtain ⟨r', hr', rfl⟩ := Option.map_eq_some_iff.mp h
  exact ⟨hr', rfl⟩

theorem timed_reachable (hs : (timedSystem p).Reachable s) : procSystem.Reachable s.1 := by
  induction hs with
  | init h0 => exact .init h0.1
  | step _ hse ih => exact .step ih (timed_step hse).1

theorem timed_bills (hs : (timedSystem p).Reachable s) : s.2.Bills s.1.toTable p := by
  refine hs.invariant_of (P := fun s => s.2.Bills s.1.toTable p) (fun _ => timed_reachable) ?_ ?_
  · rintro s ⟨h0, hk⟩
    obtain ⟨i, hi⟩ := init_initial h0
    have hidle : (s.1.proc p).state ≠ .running := by
      by_cases hp : p = i
      · simp [hp, hi.state]
      · simp [hi.unused p hp]
    rw [hk]
    refine ⟨?_, hi.idle p, fun h => absurd h hidle, Nat.zero_le _, fun h => absurd h hidle, ?_⟩
    · rw [BitVec.ofNat_toNat, BitVec.setWidth_eq, BitVec.add_comm, BitVec.sub_add_cancel]
    · intro S _ _ hd
      have hp : s.1.initproc = some p := not_not.mp (of_decide_eq_false hd)
      obtain rfl : i = p := Option.some.inj (hi.initproc.symm.trans hp)
      exact .new hi.born.2 hi.prio rfl rfl
  · rintro s act s' ev hr hk hse
    obtain ⟨hstep, hnext⟩ := timed_step hse
    obtain ⟨ok, ht⟩ := reachable_step hr hstep
    rw [hnext]
    exact (ht.charge ok p).bills ht.clock.1 hk

theorem exists_ledger {s : PTable} (hs : procSystem.Reachable s) (p : Slot) :
    ∃ k, (timedSystem p).Reachable (s, k) := by
  induction hs with
  | @init s h0 =>
    refine ⟨{ Ledger.new with
      age := (s.ticks - (s.proc p).startTicks).toNat
      disturbed := decide (s.initproc ≠ some p) }, .init ⟨h0, rfl⟩⟩
  | @step s s' act ev _ hse ih =>
    obtain ⟨k, hk⟩ := ih
    have hstep : (timedSystem p).step (s, k) act =
        some ((s', k.next s.toTable p act (s'.proc p)), ev) := by
      simp only [timedSystem, hse, Option.map_some]
    exact ⟨_, .step hk hstep⟩

/-- Init runs for two ticks and yields. -/
theorem init_yields : ∃ s, (timedSystem 63).Reachable (s, ⟨2, 2, 2, 2, 2, 0, false⟩) ∧
    (s.proc 63).state = .runnable := by
  have hrun : (((timedSystem 63).run (bootedTable, .new) [.scheduler 0, .resume 0,
      .tick, .tick, .yield 0]).map fun r => (r.1.2, (r.1.1.proc 63).state)) =
      some (⟨2, 2, 2, 2, 2, 0, false⟩, .runnable) := by
    decide +kernel
  obtain ⟨⟨⟨s, k⟩, ev⟩, hrun, hk⟩ := Option.map_eq_some_iff.mp hrun
  obtain ⟨rfl, hst⟩ := Prod.mk.inj hk
  have hinit : (timedSystem 63).init (bootedTable, .new) := ⟨bootedTable_init, by decide +kernel⟩
  exact ⟨s, (TransitionSystem.Reachable.init hinit).run hrun, hst⟩

end Runs

/-- A process has not used more CPU time than has passed since it was made, as long as
    the clock has not wrapped round since then; its total is the sum of its slices that
    have ended, and it starts from 0. -/
theorem cpu_time_le_elapsed {s : PTable} (hs : procSystem.Reachable s) (p : Slot) :
    (∃ k, (timedSystem p).Reachable (s, k)) ∧
    (∀ k, (timedSystem p).Reachable (s, k) → k.age < 2 ^ 32 →
      (s.proc p).state ≠ .unused → (s.proc p).state ≠ .embryo →
      (s.proc p).cpuTicksTotal.toNat = k.spent ∧
      (s.proc p).cpuTicksTotal ≤ s.ticks - (s.proc p).startTicks) ∧
    (∀ act s' ev, procSystem.step s act = some (s', ev) → s.Births p act →
      (s'.proc p).cpuTicksTotal = 0 ∧ (s'.proc p).startTicks = s'.ticks) := by
  refine ⟨exists_ledger hs p, ?_, ?_⟩
  · intro k hk hage _ _
    have hbills := timed_bills hk
    have hspent : k.spent < 2 ^ 32 := lt_of_le_of_lt hbills.le_age hage
    have htotal : (s.proc p).cpuTicksTotal.toNat = k.spent := by
      rw [hbills.total, BitVec.toNat_ofNat, Nat.mod_eq_of_lt hspent]
    have helapsed : (s.ticks - (s.proc p).startTicks).toNat = k.age := by
      rw [hbills.age, BitVec.add_comm, BitVec.add_sub_cancel, BitVec.toNat_ofNat,
        Nat.mod_eq_of_lt hage]
    refine ⟨htotal, BitVec.le_def.mpr ?_⟩
    rw [htotal, helapsed]
    exact hbills.le_age
  · intro act s' ev hstep hborn
    obtain ⟨ok, ht⟩ := reachable_step hs hstep
    have hclock := ht.clock.1
    cases ht.charge ok p with
    | born _ htick _ hstart htotal _ _ =>
      rw [if_neg htick] at hclock
      exact ⟨htotal, hstart.trans hclock.symm⟩
    | stays h | dispatched h | left h | exited h => exact absurd hborn h

theorem cpu_time_le_elapsed_init : ∃ s : PTable, (s.proc 63).cpuTicksTotal.toNat = 2 := by
  obtain ⟨s, hs, hst⟩ := init_yields
  exact ⟨s, ((cpu_time_le_elapsed (timed_reachable hs) 63).2.1 _ hs (by decide)
    (by simp [hst]) (by simp [hst])).1⟩

/-- A process that is not promoted and whose priority is not set is demoted after every
    `BUDGET` ticks of CPU time, up to the last priority. -/
theorem budget_bounds_demotion {S : Nat} (hS : S < 2 ^ 31 - BUDGET) {p : Slot}
    {s : PTable} {k : Ledger} (hs : (timedSystem p).Reachable (s, k)) (hlong : k.longest ≤ S)
    (hd : k.disturbed = false) : k.Budgeted S (s.proc p) :=
  (timed_bills hs).budget S hS hlong hd

theorem budget_bounds_demotion_init : ∃ s : PTable,
    (Ledger.mk 2 2 2 2 2 0 false).Budgeted 100 (s.proc 63) := by
  obtain ⟨s, hs, _⟩ := init_yields
  exact ⟨s, budget_bounds_demotion (by decide) hs (by decide) rfl⟩

/-! ### The spacing of promotions -/

theorem Queues.scheduler_promoteAtTime {a : Queues} (ok : a.Ok) (cpu : Cpu) :
    (a.scheduler cpu).2.promoteAtTime =
      if a.promoteAtTime ≤ a.ticks then a.ticks + BitVec.ofNat 32 TICKS_TO_PROMOTE
      else a.promoteAtTime := by
  have hadjust : a.prioadjust.promoteAtTime = a.ticks + BitVec.ofNat 32 TICKS_TO_PROMOTE := by
    rw [← (prioadjust_reprio ok.toListsOk).ticks]
    simp only [prioadjust, upd_toTable]
  have hdue : a.promoteIfDue.promoteAtTime =
      if a.promoteAtTime ≤ a.ticks then a.ticks + BitVec.ofNat 32 TICKS_TO_PROMOTE
      else a.promoteAtTime := by
    unfold promoteIfDue
    split_ifs
    · exact hadjust
    · rfl
  rw [← hdue]
  unfold scheduler
  split <;> rfl

section Clock

variable {t : PTable} {ev : List Ev}

theorem scheduler_promoteAtTime (hs : procSystem.Reachable s)
    (h : procSystem.step s (.scheduler cpu) = some (s', ev)) : s'.promoteAtTime =
      if s.promoteAtTime ≤ s.ticks then s.ticks + BitVec.ofNat 32 TICKS_TO_PROMOTE
      else s.promoteAtTime := by
  obtain ⟨a, ha, hr⟩ := reachable_represents hs
  obtain ⟨a', hstep, hr'⟩ := simulation.step _ _ _ _ _ hr ha h
  have hdid : a.Did (.scheduler cpu) ev a' := Queues.step_did (r := (a', ev)) hstep
  cases hdid with
  | scheduler _ _ =>
    rw [hr'.table, hr.table]
    exact Queues.scheduler_promoteAtTime (queueSystem_inv ha).toOk cpu

/-- No pass of the scheduler in the run calls `prioadjust`. -/
def NoPromotion (s : PTable) (acts : List Act) : Prop :=
  ∀ as cpu bs u ev, acts = as ++ .scheduler cpu :: bs → procSystem.run s as = some (u, ev) →
    ¬ u.promoteAtTime ≤ u.ticks

theorem run_clock (hs : procSystem.Reachable s) (hrun : procSystem.run s acts = some (t, ev))
    (hnone : NoPromotion s acts) : t.promoteAtTime = s.promoteAtTime ∧
      t.ticks = s.ticks + BitVec.ofNat 32 (acts.count .tick) := by
  induction acts generalizing s ev with
  | nil =>
    obtain ⟨rfl, _⟩ := Prod.mk.inj (Option.some.inj hrun)
    simp
  | cons act acts ih =>
    obtain ⟨u, ev₁, ev₂, hstep, hrest, _⟩ := TransitionSystem.run_cons_eq_some.mp hrun
    obtain ⟨_, ht⟩ := reachable_step hs hstep
    have hkeep : u.promoteAtTime = s.promoteAtTime := by
      by_cases hact : ∃ cpu, act = .scheduler cpu
      · obtain ⟨cpu, rfl⟩ := hact
        rw [scheduler_promoteAtTime hs hstep, if_neg]
        exact hnone [] cpu acts s [] rfl rfl
      · exact ht.clock.2 fun cpu h => hact ⟨cpu, h⟩
    have hnone' : NoPromotion u acts := by
      intro as cpu bs v ev' hacts hv
      refine hnone (act :: as) cpu bs v (ev₁ ++ ev') (by rw [hacts, List.cons_append]) ?_
      exact TransitionSystem.run_cons_eq_some.mpr ⟨u, ev₁, ev', hstep, hv, rfl⟩
    obtain ⟨hp, hnow⟩ := ih (.step hs hstep) hrest hnone'
    refine ⟨hp.trans hkeep, ?_⟩
    rw [hnow, ht.clock.1, List.count_cons]
    by_cases hact : act = .tick
    · simp [hact, BitVec.ofNat_add, BitVec.add_assoc, BitVec.add_comm 1#32]
    · simp [hact]

end Clock

/-- After a promotion at tick `x` and `n` more ticks, the clock tells whether the next one
    is due. -/
def DeadlineOk (x n : Nat) : Prop :=
  (n < TICKS_TO_PROMOTE → x + TICKS_TO_PROMOTE < 2 ^ 32 ∨ 2 ^ 32 ≤ x + n) ∧
  (TICKS_TO_PROMOTE ≤ n → (x + TICKS_TO_PROMOTE) % 2 ^ 32 ≤ (x + n) % 2 ^ 32)

/-- Between a promotion and the next pass of the scheduler that is due, with any steps and
    passes that are not due between them. -/
theorem promotions_spaced_iff {s s₁ t : PTable} {cpu : Cpu} {ev ev' : List Ev} {acts : List Act}
    (hs : procSystem.Reachable s) (hdue : s.promoteAtTime ≤ s.ticks)
    (hstep : procSystem.step s (.scheduler cpu) = some (s₁, ev))
    (hrun : procSystem.run s₁ acts = some (t, ev')) (hnone : NoPromotion s₁ acts) :
    (t.promoteAtTime ≤ t.ticks ↔ TICKS_TO_PROMOTE ≤ acts.count .tick) ↔
      DeadlineOk s.ticks.toNat (acts.count .tick) := by
  obtain ⟨hp, hnow⟩ := run_clock (.step hs hstep) hrun hnone
  rw [scheduler_promoteAtTime hs hstep, if_pos hdue] at hp
  rw [(reachable_step hs hstep).2.clock.1, if_neg (by simp)] at hnow
  have hT : TICKS_TO_PROMOTE = 500 := rfl
  have hlt := s.ticks.isLt
  rw [hp, hnow, BitVec.le_def, BitVec.toNat_add, BitVec.toNat_add, BitVec.toNat_ofNat,
    BitVec.toNat_ofNat]
  unfold DeadlineOk
  generalize acts.count .tick = n
  omega

/-- The kernel when the clock has moved `n` times and nothing has run. -/
def ticked (n : Nat) : PTable :=
  bootedTable.upd fun t => { t with ticks := t.ticks + BitVec.ofNat 32 n }

theorem ticked_reachable (n : Nat) : procSystem.Reachable (ticked n) := by
  induction n with
  | zero =>
    have h : ticked 0 = bootedTable := by simp [ticked, PTable.upd]
    exact h ▸ .init bootedTable_init
  | succ n ih =>
    have h : ticked (n + 1) = (ticked n).upd fun t => { t with ticks := t.ticks + 1 } := by
      simp [ticked, PTable.upd, BitVec.ofNat_add, BitVec.add_assoc]
    have hstep : procSystem.step (ticked n) .tick = some (ticked (n + 1), []) := by
      rw [h]
      rfl
    exact .step ih hstep

theorem promotions_spaced_iff_booted : ∃ s₁ : PTable, (s₁.promoteAtTime ≤ s₁.ticks ↔
    TICKS_TO_PROMOTE ≤ ([] : List Act).count .tick) ↔ DeadlineOk (ticked 500).ticks.toNat 0 := by
  have hstep : (procSystem.step (ticked 500) (.scheduler 0)).isSome := by decide +kernel
  obtain ⟨⟨s₁, ev⟩, hstep⟩ := Option.isSome_iff_exists.mp hstep
  exact ⟨s₁, promotions_spaced_iff (ticked_reachable 500) (by decide +kernel) hstep
    (TransitionSystem.run_nil s₁) (by simp [NoPromotion])⟩

/-- 100 ticks before the clock wraps two CPUs call the scheduler at the same tick, and both
    promote. -/
theorem promotions_spaced_fails_at_wrap : ∃ s₁ t u ev ev₁ ev₂,
    procSystem.Reachable (ticked (2 ^ 32 - 100)) ∧
    (ticked (2 ^ 32 - 100)).promoteAtTime ≤ (ticked (2 ^ 32 - 100)).ticks ∧
    procSystem.step (ticked (2 ^ 32 - 100)) (.scheduler 0) = some (s₁, ev) ∧
    procSystem.run s₁ [.resume 0] = some (t, ev₁) ∧ NoPromotion s₁ [.resume 0] ∧
    t.promoteAtTime ≤ t.ticks ∧ procSystem.step t (.scheduler 1) = some (u, ev₂) ∧
    ¬ TICKS_TO_PROMOTE ≤ [Act.resume 0].count .tick := by
  have hrun : ((procSystem.run (ticked (2 ^ 32 - 100)) [.scheduler 0, .resume 0]).bind fun r =>
      (procSystem.step r.1 (.scheduler 1)).map fun _ => decide (r.1.promoteAtTime ≤ r.1.ticks)) =
      some true := by
    decide +kernel
  obtain ⟨⟨t, ev'⟩, hrun, hlast⟩ := Option.bind_eq_some_iff.mp hrun
  obtain ⟨⟨u, ev₂⟩, hu, hdue⟩ := Option.map_eq_some_iff.mp hlast
  obtain ⟨s₁, ev, ev₁, hs₁, ht, _⟩ := TransitionSystem.run_cons_eq_some.mp hrun
  refine ⟨s₁, t, u, ev, ev₁, ev₂, ticked_reachable _, by decide +kernel, hs₁, ht, ?_,
    of_decide_eq_true hdue, hu, by decide⟩
  intro as cpu bs _ _ hacts
  rcases as with _ | ⟨a, _ | ⟨b, as⟩⟩
  · simp at hacts
  · simp at hacts
  · simp at hacts

end Xv6Kernel
