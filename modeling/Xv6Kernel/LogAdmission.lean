/-
  LogAdmission.lean
  =================
  Concurrent transactions and the space in the log.

  `begin_op` admits a transaction only if the log has `MAXOPBLOCKS` free slots for it and
  for each transaction that is still open.  The system below interleaves any number of
  callers, each of which runs one transaction after the other and logs at most `budget`
  distinct blocks in each.  `log_write` makes its tests without the lock, so the tests and
  the critical section are separate steps.

  The admission test keeps the number of logged blocks within `LOGSIZE`, but `log_write`
  panics earlier: `mkfs` makes the log area `LOGSIZE` blocks long, one of which is the
  header, and the tests come before the search for the block in the log.
-/
import Mathlib.Algebra.BigOperators.Ring.Finset
import Mathlib.Algebra.Order.BigOperators.Group.Finset
import Xv6Kernel.LogModel
import Xv6Kernel.TransitionSystem

namespace Xv6Kernel

open Finset TransitionSystem

/-- The size of the log area, as `mkfs` writes it into the superblock. -/
def nlog : Nat := LOGSIZE

/-- Where a caller is. -/
inductive TxPhase where
  | outside
  | inside (bs : Finset BlockNo)                 -- in a transaction that has logged `bs`
  | logging (bs : Finset BlockNo) (b : BlockNo)  -- in `log_write` of `b`, after the tests
  | committing                                   -- in `end_op`, before `commit`
  | committed                                    -- in `end_op`, after `commit`
deriving DecidableEq

inductive TxAct (P : Type) where
  | beginOp (p : P)
  | logTest (p : P) (b : BlockNo)
  | logAppend (p : P) (b : BlockNo) (data : Block)
  | endOp (p : P)
  | commit (p : P)
  | endCommit (p : P)

structure Txs (P : Type) where
  log : Log
  phase : P → TxPhase

namespace Txs

variable {P : Type} [DecidableEq P]

def moveTo (s : Txs P) (p : P) (log : Log) (ph : TxPhase) : Txs P :=
  { log := log, phase := Function.update s.phase p ph }

/-- One step of the caller `p`; `none` if `p` is elsewhere or has to sleep. -/
def step (budget : Nat) (s : Txs P) : TxAct P → Option (Except LogPanic (Txs P))
  | .beginOp p =>
      match s.phase p, s.log.beginOp with
      | .outside, some log => some (.ok (s.moveTo p log (.inside ∅)))
      | _, _ => none
  | .logTest p b =>
      match s.phase p with
      | .inside bs =>
          if (insert b bs).card ≤ budget then
            match s.log.logTest with
            | .ok () => some (.ok (s.moveTo p s.log (.logging bs b)))
            | .error e => some (.error e)
          else none
      | _ => none
  | .logAppend p b data =>
      match s.phase p with
      | .logging bs b' =>
          if b' = b then some (.ok (s.moveTo p (s.log.logAppend b data) (.inside (insert b bs))))
          else none
      | _ => none
  | .endOp p =>
      match s.phase p with
      | .inside _ =>
          match s.log.endOp with
          | .ok (true, log) => some (.ok (s.moveTo p log .committing))
          | .ok (false, log) => some (.ok (s.moveTo p log .outside))
          | .error e => some (.error e)
      | _ => none
  | .commit p =>
      match s.phase p with
      | .committing => some (.ok (s.moveTo p s.log.commit .committed))
      | _ => none
  | .endCommit p =>
      match s.phase p with
      | .committed => some (.ok (s.moveTo p s.log.endCommit .outside))
      | _ => none

/-- After `initlog`. -/
structure Initial (s : Txs P) : Prop where
  size : s.log.size = nlog
  outstanding : s.log.outstanding = 0
  committing : s.log.committing = false
  lh : s.log.lh = []
  outside : ∀ p, s.phase p = .outside

end Txs

/-- The callers' steps interleaved; a panic stops the system. -/
def txSystem (P : Type) [DecidableEq P] (budget : Nat) :
    TransitionSystem (Except LogPanic (Txs P)) (TxAct P) Empty where
  init := fun r => ∃ s, r = .ok s ∧ s.Initial
  step := fun r a =>
    match r with
    | .ok s => (s.step budget a).map fun r => (r, [])
    | .error _ => none

/-! ### What a step does -/

namespace Log

/-- `begin_op` has admitted a transaction. -/
def enter (s : Log) : Log := { s with outstanding := s.outstanding + 1 }

/-- `end_op` has closed a transaction, which was not the last one. -/
def leave (s : Log) : Log := { s with outstanding := s.outstanding - 1 }

/-- `end_op` has closed the last transaction. -/
def leaveLast (s : Log) : Log :=
  { s with outstanding := s.outstanding - 1, committing := true }

end Log

namespace Txs

variable {P : Type} [DecidableEq P] {budget : Nat} {s : Txs P}

inductive Did (budget : Nat) (s : Txs P) : TxAct P → Txs P → Prop where
  | beginOp {p : P} : s.phase p = .outside → s.log.committing = false →
      (s.log.lh.length : Int) + (s.log.outstanding + 1) * MAXOPBLOCKS ≤ LOGSIZE →
      Did budget s (.beginOp p) (s.moveTo p s.log.enter (.inside ∅))
  | logTest {p : P} {b : BlockNo} {bs : Finset BlockNo} : s.phase p = .inside bs →
      (insert b bs).card ≤ budget → s.log.logTest = .ok () →
      Did budget s (.logTest p b) (s.moveTo p s.log (.logging bs b))
  | logAppend {p : P} {b : BlockNo} {bs : Finset BlockNo} {x : Block} :
      s.phase p = .logging bs b →
      Did budget s (.logAppend p b x)
        (s.moveTo p (s.log.logAppend b x) (.inside (insert b bs)))
  | endLast {p : P} {bs : Finset BlockNo} : s.phase p = .inside bs →
      s.log.committing = false → s.log.outstanding - 1 = 0 →
      Did budget s (.endOp p) (s.moveTo p s.log.leaveLast .committing)
  | endOther {p : P} {bs : Finset BlockNo} : s.phase p = .inside bs →
      s.log.committing = false → s.log.outstanding - 1 ≠ 0 →
      Did budget s (.endOp p) (s.moveTo p s.log.leave .outside)
  | commit {p : P} : s.phase p = .committing →
      Did budget s (.commit p) (s.moveTo p s.log.commit .committed)
  | endCommit {p : P} : s.phase p = .committed →
      Did budget s (.endCommit p) (s.moveTo p s.log.endCommit .outside)

theorem step_did (h : s.step budget a = some (.ok s')) : Did budget s a s' := by
  cases a with
  | beginOp p =>
    simp only [step, Log.beginOp] at h
    split_ifs at h with hc hn
    · split at h <;> simp_all
    · split at h <;> simp_all
    · cases hp : s.phase p <;> simp only [hp, Option.some.injEq, Except.ok.injEq, reduceCtorEq] at h
      subst h
      exact .beginOp hp (by simpa using hc) (by omega)
  | logTest p b =>
    cases hp : s.phase p <;> simp only [step, hp, reduceCtorEq] at h
    split_ifs at h with hcard
    cases ht : s.log.logTest with
    | error e => simp [ht] at h
    | ok u =>
      simp only [ht, Option.some.injEq, Except.ok.injEq] at h
      subst h
      exact .logTest hp hcard ht
  | logAppend p b x =>
    cases hp : s.phase p <;> simp only [step, hp, reduceCtorEq] at h
    split_ifs at h with hb
    obtain rfl := Except.ok.inj (Option.some.inj h)
    exact .logAppend (hb ▸ hp)
  | endOp p =>
    cases hp : s.phase p <;> simp only [step, hp, reduceCtorEq] at h
    rcases s.log.endOp_cases with ⟨-, he⟩ | ⟨hc, ho, he⟩ | ⟨hc, ho, he⟩
    · simp [he] at h
    · simp only [he, Option.some.injEq, Except.ok.injEq] at h
      exact h ▸ .endLast hp hc ho
    · simp only [he, Option.some.injEq, Except.ok.injEq] at h
      exact h ▸ .endOther hp hc ho
  | commit p =>
    cases hp : s.phase p <;> simp only [step, hp, reduceCtorEq, Option.some.injEq,
      Except.ok.injEq] at h
    exact h ▸ .commit hp
  | endCommit p =>
    cases hp : s.phase p <;> simp only [step, hp, reduceCtorEq, Option.some.injEq,
      Except.ok.injEq] at h
    exact h ▸ .endCommit hp

theorem step_panics (h : s.step budget a = some (.error e)) :
    (∃ p b bs, a = .logTest p b ∧ s.phase p = .inside bs ∧ (insert b bs).card ≤ budget ∧
      s.log.logTest = .error e) ∨
    ∃ p bs, a = .endOp p ∧ s.phase p = .inside bs ∧ s.log.committing = true ∧
      e = .logCommitting := by
  cases a with
  | beginOp p =>
    simp only [step] at h
    split at h <;> simp at h
  | logTest p b =>
    cases hp : s.phase p <;> simp only [step, hp, reduceCtorEq] at h
    split_ifs at h with hcard
    cases ht : s.log.logTest with
    | error e' =>
      simp only [ht, Option.some.injEq, Except.error.injEq] at h
      exact Or.inl ⟨p, b, _, rfl, hp, hcard, by rw [h]⟩
    | ok u => simp [ht] at h
  | logAppend p b x =>
    cases hp : s.phase p <;> simp only [step, hp, reduceCtorEq] at h
    split_ifs at h
    simp at h
  | endOp p =>
    cases hp : s.phase p <;> simp only [step, hp, reduceCtorEq] at h
    rcases s.log.endOp_cases with ⟨hc, he⟩ | ⟨-, -, he⟩ | ⟨-, -, he⟩
    · simp only [he, Option.some.injEq, Except.error.injEq] at h
      exact Or.inr ⟨p, _, rfl, hp, hc, h.symm⟩
    · simp [he] at h
    · simp [he] at h
  | commit p => cases hp : s.phase p <;> simp [step, hp] at h
  | endCommit p => cases hp : s.phase p <;> simp [step, hp] at h

end Txs

/-! ### Accounting for log space -/

namespace TxPhase

/-- The blocks logged by the open transaction. -/
def blocks : TxPhase → Finset BlockNo
  | .inside bs => bs
  | .logging bs _ => bs
  | _ => ∅

/-- The same, with the one that is being logged. -/
def claimed : TxPhase → Finset BlockNo
  | .inside bs => bs
  | .logging bs b => insert b bs
  | _ => ∅

/-- Whether a transaction is open, as a number. -/
def active : TxPhase → Nat
  | .inside _ => 1
  | .logging _ _ => 1
  | _ => 0

/-- What the transaction can still log. -/
def reserve (c : Nat) (ph : TxPhase) : Nat := ph.active * c - ph.blocks.card

def Ending (ph : TxPhase) : Prop := ph = .committing ∨ ph = .committed

theorem reserve_le (ph : TxPhase) : ph.reserve c ≤ ph.active * c := Nat.sub_le _ _

end TxPhase

namespace Txs

variable {P : Type} {c B : Nat} {s s' : Txs P} {a : TxAct P} {p : P}

/-- The committing flag excludes open transactions, and the log is empty when there is
    neither. -/
structure Exclusive (s : Txs P) : Prop where
  closed : s.log.committing = true → ∀ p, (s.phase p).active = 0
  running : s.log.committing = false → ∀ p, ¬ (s.phase p).Ending
  one : ∀ p q, (s.phase p).Ending → (s.phase q).Ending → p = q
  done : ∀ p, s.phase p = .committed → s.log.lh = []
  idle : s.log.committing = false → (∀ p, (s.phase p).active = 0) → s.log.lh = []

theorem exclusive_of_running (hflag : s.log.committing = false) (hrun : ∀ q, ¬ (s.phase q).Ending)
    (hidle : (∀ q, (s.phase q).active = 0) → s.log.lh = []) : Exclusive s where
  closed := fun h => by simp [hflag] at h
  running := fun _ => hrun
  one := fun q _ hq _ => absurd hq (hrun q)
  done := fun q hq => absurd (Or.inr hq) (hrun q)
  idle := fun _ => hidle

theorem Exclusive.flag_of_active (h : Exclusive s) (hp : (s.phase p).active = 1) :
    s.log.committing = false := by
  by_contra hflag
  have hzero := h.closed (by simpa using hflag) p
  omega

theorem Exclusive.flag_of_ending (h : Exclusive s) (hp : (s.phase p).Ending) :
    s.log.committing = true := by
  by_contra hflag
  exact h.running (by simpa using hflag) p hp

/-- What is known of the space in the log, when transactions log at most `c` blocks. -/
structure Accounted [Fintype P] (c : Nat) (s : Txs P) : Prop where
  size : s.log.size = nlog
  nodup : s.log.lh.Nodup
  outstanding : s.log.outstanding = ((∑ p, (s.phase p).active : Nat) : Int)
  logged : ∀ p, ∀ b ∈ (s.phase p).blocks, b ∈ s.log.lh
  within : ∀ p, (s.phase p).claimed.card ≤ c

/-- The slots in use and those that open transactions may still use. -/
def demand [Fintype P] (c : Nat) (s : Txs P) : Nat :=
  s.log.lh.length + ∑ p, (s.phase p).reserve c

theorem demand_le [Fintype P] : s.demand c ≤ s.log.lh.length + (∑ p, (s.phase p).active) * c := by
  rw [sum_mul]
  exact Nat.add_le_add_left (sum_le_sum fun q _ => (s.phase q).reserve_le) _

theorem active_le_sum [Fintype P] (p : P) : (s.phase p).active ≤ ∑ q, (s.phase q).active :=
  single_le_sum (f := fun q => (s.phase q).active) (fun _ _ => Nat.zero_le _) (mem_univ p)

theorem Accounted.active_pos [Fintype P] (h : Accounted c s) (hp : (s.phase p).active = 1) :
    1 ≤ s.log.outstanding := by
  have hle := active_le_sum (s := s) p
  have hout := h.outstanding
  omega

/-- Everything that is known of a reachable state. -/
structure Inv [Fintype P] (c B : Nat) (s : Txs P) : Prop extends Accounted c s, Exclusive s where
  demand : s.demand c ≤ B

theorem Initial.inv [Fintype P] (h : s.Initial) : Inv c B s := by
  have hsum : ∀ f : TxPhase → Nat, f .outside = 0 → ∑ p, f (s.phase p) = 0 := by
    intro f hf
    exact sum_eq_zero fun p _ => by rw [h.outside p, hf]
  refine ⟨⟨h.size, by simp [h.lh], ?_, ?_, ?_⟩, ?_, ?_⟩
  · rw [hsum TxPhase.active rfl, h.outstanding]
    rfl
  · intro p b hb
    simp [h.outside p, TxPhase.blocks] at hb
  · intro p
    simp [h.outside p, TxPhase.claimed]
  · exact exclusive_of_running h.committing
      (fun p => by simp [h.outside p, TxPhase.Ending]) (fun _ => h.lh)
  · unfold Txs.demand
    rw [hsum (TxPhase.reserve c) (by simp [TxPhase.reserve, TxPhase.active]), h.lh]
    exact Nat.zero_le B

variable {ev : List Empty} {as : List (TxAct P)}

theorem Inv.logTest_error [Fintype P] (h : Inv c B s) (hp : (s.phase p).active = 1)
    (he : s.log.logTest = .error e) : e = .tooBigTransaction ∧ LOGSIZE - 1 ≤ s.log.lh.length := by
  have hout := h.active_pos hp
  have hsize := h.size
  unfold nlog at hsize
  unfold Log.logTest at he
  split_ifs at he with hbig hnone
  · exact ⟨(Except.error.inj he).symm, by omega⟩
  · omega

theorem Inv.logTest_tooBig [Fintype P] (h : Inv c B s) (hn : LOGSIZE - 1 ≤ s.log.lh.length) :
    s.log.logTest = .error .tooBigTransaction := by
  have hsize := h.size
  unfold nlog at hsize
  unfold Log.logTest
  rw [if_pos (Or.inr (by omega))]

variable [DecidableEq P] {log : Log} {ph : TxPhase}

@[simp] theorem moveTo_log : (s.moveTo p log ph).log = log := rfl

@[simp] theorem moveTo_phase_self : (s.moveTo p log ph).phase p = ph := by simp [moveTo]

theorem forall_moveTo (Q : P → TxPhase → Prop) :
    (∀ q, Q q ((s.moveTo p log ph).phase q)) ↔ Q p ph ∧ ∀ q, q ≠ p → Q q (s.phase q) :=
  Function.forall_update_iff s.phase Q

theorem sum_moveTo [Fintype P] (s : Txs P) (p : P) (log : Log) (ph : TxPhase) (f : TxPhase → Nat) :
    ∑ q, f ((s.moveTo p log ph).phase q) + f (s.phase p) = ∑ q, f (s.phase q) + f ph := by
  have hupd : (fun q => f ((s.moveTo p log ph).phase q)) =
      Function.update (fun q => f (s.phase q)) p (f ph) := by
    funext q
    by_cases hq : q = p
    · subst hq
      simp
    · simp [moveTo, hq]
  have hnew := sum_update_of_mem (mem_univ p) (fun q => f (s.phase q)) (f ph)
  have hold := sum_eq_add_sum_sdiff_singleton_of_mem (mem_univ p) (fun q => f (s.phase q))
  rw [hupd, hnew, hold]
  omega

/-! ### The committing flag -/

/-- A step that leaves the flag clear and a transaction open. -/
theorem Exclusive.moveTo (h : Exclusive s) (hflag : s.log.committing = false)
    (hlog : log.committing = false) (hph : ¬ ph.Ending)
    (hopen : ∃ q, ((s.moveTo p log ph).phase q).active ≠ 0) : Exclusive (s.moveTo p log ph) := by
  apply exclusive_of_running hlog
  · exact (forall_moveTo fun _ ph => ¬ ph.Ending).mpr ⟨hph, fun q _ => h.running hflag q⟩
  · intro hzero
    obtain ⟨q, hq⟩ := hopen
    exact absurd (hzero q) hq

/-- A step after which only `p` can be in the last part of `end_op`. -/
theorem Exclusive.moveTo_ending (hclosed : ∀ q, ((s.moveTo p log ph).phase q).active = 0)
    (hlog : log.committing = true) (hother : ∀ q, q ≠ p → ¬ (s.phase q).Ending)
    (hdone : ph = .committed → log.lh = []) : Exclusive (s.moveTo p log ph) := by
  have honly : ∀ q, ((s.moveTo p log ph).phase q).Ending → q = p :=
    (forall_moveTo fun q ph => ph.Ending → q = p).mpr
      ⟨fun _ => rfl, fun q hq hqe => absurd hqe (hother q hq)⟩
  refine ⟨fun _ => hclosed, fun hfalse => ?_, ?_, ?_, fun hfalse => ?_⟩
  · rw [moveTo_log, hlog] at hfalse
    cases hfalse
  · intro q₁ q₂ h₁ h₂
    rw [honly q₁ h₁, honly q₂ h₂]
  · exact (forall_moveTo fun _ ph => ph = .committed → log.lh = []).mpr
      ⟨hdone, fun q hq hqc => absurd (Or.inr hqc) (hother q hq)⟩
  · rw [moveTo_log, hlog] at hfalse
    cases hfalse

theorem Exclusive.step [Fintype P] (h : Exclusive s)
    (hs' : s'.log.outstanding = ((∑ p, (s'.phase p).active : Nat) : Int))
    (hd : Did c s a s') : Exclusive s' := by
  cases hd with
  | @beginOp p hp hflag _ =>
    exact h.moveTo hflag hflag (by simp [TxPhase.Ending]) ⟨p, by simp [TxPhase.active]⟩
  | @logTest p b bs hp _ _ =>
    have hflag := h.flag_of_active (p := p) (by rw [hp]; rfl)
    exact h.moveTo hflag hflag (by simp [TxPhase.Ending]) ⟨p, by simp [TxPhase.active]⟩
  | @logAppend p b bs x hp =>
    have hflag := h.flag_of_active (p := p) (by rw [hp]; rfl)
    exact h.moveTo hflag hflag (by simp [TxPhase.Ending]) ⟨p, by simp [TxPhase.active]⟩
  | @endLast p bs hp hflag hout =>
    apply Exclusive.moveTo_ending _ rfl (fun q _ => h.running hflag q) (by simp)
    intro q
    have hle := active_le_sum (s := s.moveTo p s.log.leaveLast .committing) q
    have hzero : s.log.leaveLast.outstanding = 0 := hout
    rw [moveTo_log] at hs'
    omega
  | @endOther p bs hp hflag hout =>
    have hleave : s.log.leave.committing = false := hflag
    refine h.moveTo hflag hleave (by simp [TxPhase.Ending]) ?_
    by_contra hzero
    push Not at hzero
    rw [sum_eq_zero fun q _ => hzero q] at hs'
    exact hout hs'
  | @commit p hp =>
    have hflag := h.flag_of_ending (Or.inl hp)
    obtain ⟨cache, writes, hcommit⟩ := s.log.commit_frame
    apply Exclusive.moveTo_ending
    · exact (forall_moveTo fun _ ph => ph.active = 0).mpr ⟨rfl, fun q _ => h.closed hflag q⟩
    · rw [hcommit]
      exact hflag
    · exact fun q hq hqe => hq (h.one q p hqe (Or.inl hp))
    · intro _
      rw [hcommit]
  | @endCommit p hp =>
    apply exclusive_of_running rfl
    · exact (forall_moveTo fun _ ph => ¬ ph.Ending).mpr
        ⟨by simp [TxPhase.Ending], fun q hq hqe => hq (h.one q p hqe (Or.inr hp))⟩
    · intro _
      exact h.done p hp

/-! ### Runs -/

theorem system_step (h : (txSystem P c).step (.ok s) a = some (r', ev)) : s.step c a = some r' := by
  simp only [txSystem, Option.map_eq_some_iff, Prod.mk.injEq] at h
  obtain ⟨r, hr, rfl, -⟩ := h
  exact hr

theorem run_of_error
    (h : (txSystem P c).run (.error e) as = some (r, ev)) : as = [] ∧ r = .error e := by
  cases as with
  | nil =>
    simp only [run_nil, Option.some.injEq, Prod.mk.injEq] at h
    exact ⟨rfl, h.1.symm⟩
  | cons a as =>
    obtain ⟨_, _, _, hstep, -⟩ := run_cons_eq_some.mp h
    simp [txSystem] at hstep

theorem logTest_step
    (h : s.step c (.logTest p b) = some r) (he : s.log.logTest = .error e) : r = .error e := by
  cases hp : s.phase p <;> simp only [step, hp, reduceCtorEq] at h
  split_ifs at h
  simpa [he] using h.symm

/-- How an action changes the set of blocks logged since the last commit. -/
def grow (g : Finset BlockNo) : TxAct P → Finset BlockNo
  | .logAppend _ b _ => insert b g
  | .commit _ => ∅
  | _ => g

/-- The distinct blocks that the listed actions have logged since the last commit. -/
def groupBlocks (as : List (TxAct P)) : Finset BlockNo := as.foldl grow ∅

theorem Did.grow (hd : Did c s a s') : s'.log.lh.toFinset = Txs.grow s.log.lh.toFinset a := by
  cases hd with
  | @logAppend p b bs x hp =>
    ext d
    rw [moveTo_log, List.mem_toFinset, Log.mem_logAppend_lh]
    simp only [Txs.grow, mem_insert, List.mem_toFinset]
    exact or_comm
  | @commit p hp =>
    obtain ⟨cache, writes, hcommit⟩ := s.log.commit_frame
    rw [moveTo_log, hcommit]
    rfl
  | _ => rfl

theorem run_lh (hrun : (txSystem P c).run (.ok s) as = some (.ok s', ev)) :
    s'.log.lh.toFinset = as.foldl Txs.grow s.log.lh.toFinset := by
  induction as generalizing s ev with
  | nil =>
    simp only [run_nil, Option.some.injEq, Prod.mk.injEq, Except.ok.injEq] at hrun
    rw [hrun.1]
    rfl
  | cons a as ih =>
    obtain ⟨r₁, ev₁, ev₂, hstep, hrest, -⟩ := run_cons_eq_some.mp hrun
    cases r₁ with
    | error e => exact absurd (run_of_error hrest).2 (by simp)
    | ok s₁ =>
      rw [ih hrest, (step_did (system_step hstep)).grow]
      rfl

/-- A run that panics does so in its last step. -/
theorem run_error (hrun : (txSystem P c).run (.ok s) as = some (.error e, ev)) :
    ∃ pre a s₁ ev₁, as = pre ++ [a] ∧ (txSystem P c).run (.ok s) pre = some (.ok s₁, ev₁) ∧
      s₁.step c a = some (.error e) := by
  induction as generalizing s ev with
  | nil => simp at hrun
  | cons a as ih =>
    obtain ⟨r₁, ev₁, ev₂, hstep, hrest, -⟩ := run_cons_eq_some.mp hrun
    cases r₁ with
    | error e' =>
      obtain ⟨rfl, he⟩ := run_of_error hrest
      obtain rfl := Except.error.inj he
      exact ⟨[], a, s, [], rfl, rfl, system_step hstep⟩
    | ok s₁ =>
      obtain ⟨pre, a', s₂, ev', rfl, hpre, hlast⟩ := ih hrest
      exact ⟨a :: pre, a', s₂, ev₁ ++ ev', rfl,
        run_cons_eq_some.mpr ⟨_, _, _, hstep, hpre, rfl⟩, hlast⟩

/-! ### The space in the log -/

variable [Fintype P]

theorem Accounted.moveTo (h : Accounted c s) (p : P) (log : Log) (ph : TxPhase)
    (hsize : log.size = s.log.size) (hnodup : log.lh.Nodup)
    (hout : log.outstanding + (s.phase p).active = s.log.outstanding + ph.active)
    (hlogged : ∀ b ∈ ph.blocks, b ∈ log.lh) (hkeep : ∀ q, ∀ b ∈ (s.phase q).blocks, b ∈ log.lh)
    (hwithin : ph.claimed.card ≤ c) : Accounted c (s.moveTo p log ph) := by
  refine ⟨hsize.trans h.size, hnodup, ?_, ?_, ?_⟩
  · have hsum := sum_moveTo s p log ph TxPhase.active
    have hold := h.outstanding
    rw [moveTo_log]
    omega
  · exact (forall_moveTo fun _ ph => ∀ b ∈ ph.blocks, b ∈ log.lh).mpr ⟨hlogged, fun q _ => hkeep q⟩
  · exact (forall_moveTo fun _ ph => ph.claimed.card ≤ c).mpr ⟨hwithin, fun q _ => h.within q⟩

theorem blocks_of_active (h : ph.active = 0) : ph.blocks = ∅ := by
  cases ph <;> simp_all [TxPhase.active, TxPhase.blocks]

theorem Accounted.step (h : Accounted c s) (hx : Exclusive s) (hd : Did c s a s') :
    Accounted c s' := by
  cases hd with
  | @beginOp p hp hflag _ =>
    refine h.moveTo p s.log.enter _ rfl h.nodup ?_
      (by simp [TxPhase.blocks]) h.logged (Nat.zero_le _)
    rw [hp]
    simp [Log.enter, TxPhase.active]
  | @logTest p b bs hp hcard _ =>
    have hbs := h.logged p
    rw [hp] at hbs
    refine h.moveTo p s.log _ rfl h.nodup ?_ hbs h.logged hcard
    rw [hp]
    rfl
  | @logAppend p b bs x hp =>
    have hbs := h.logged p
    have hcard := h.within p
    rw [hp] at hbs hcard
    refine h.moveTo p (s.log.logAppend b x) _ rfl (Log.nodup_logAppend h.nodup) ?_ ?_ ?_ hcard
    · rw [hp]
      rfl
    · intro d hd
      rw [Log.mem_logAppend_lh]
      rcases mem_insert.mp hd with rfl | hd
      · exact Or.inr rfl
      · exact Or.inl (hbs d hd)
    · intro q d hd
      rw [Log.mem_logAppend_lh]
      exact Or.inl (h.logged q d hd)
  | @endLast p bs hp _ _ =>
    refine h.moveTo p s.log.leaveLast _ rfl h.nodup ?_
      (by simp [TxPhase.blocks]) h.logged (Nat.zero_le _)
    rw [hp]
    simp [Log.leaveLast, TxPhase.active]
  | @endOther p bs hp _ _ =>
    refine h.moveTo p s.log.leave _ rfl h.nodup ?_
      (by simp [TxPhase.blocks]) h.logged (Nat.zero_le _)
    rw [hp]
    simp [Log.leave, TxPhase.active]
  | @commit p hp =>
    have hclosed := hx.closed (hx.flag_of_ending (Or.inl hp))
    obtain ⟨cache, writes, hcommit⟩ := s.log.commit_frame
    rw [hcommit]
    refine h.moveTo p _ _ rfl List.nodup_nil ?_ (by simp [TxPhase.blocks]) ?_ (Nat.zero_le _)
    · rw [hp]
      rfl
    · intro q d hd
      rw [blocks_of_active (hclosed q)] at hd
      exact absurd hd (notMem_empty d)
  | @endCommit p hp =>
    refine h.moveTo p s.log.endCommit _ rfl h.nodup ?_
      (by simp [TxPhase.blocks]) h.logged (Nat.zero_le _)
    rw [hp]
    rfl

theorem demand_moveTo (c : Nat) (s : Txs P) (p : P) (log : Log) (ph : TxPhase) :
    (s.moveTo p log ph).demand c + (s.phase p).reserve c + s.log.lh.length =
      s.demand c + ph.reserve c + log.lh.length := by
  have hsum := sum_moveTo s p log ph (TxPhase.reserve c)
  unfold demand
  rw [moveTo_log]
  omega

/-- The admission test makes room for the demand of one more transaction. -/
def Suffices (c B : Nat) : Prop :=
  ∀ n k, (k = 0 → n = 0) → n + (k + 1) * MAXOPBLOCKS ≤ LOGSIZE → n + (k + 1) * c ≤ B

theorem demand_beginOp (h : Accounted c s) (hx : Exclusive s) (hB : Suffices c B)
    (hp : s.phase p = .outside) (hflag : s.log.committing = false)
    (hroom : (s.log.lh.length : Int) + (s.log.outstanding + 1) * MAXOPBLOCKS ≤ LOGSIZE) :
    (s.moveTo p s.log.enter (.inside ∅)).demand c ≤ B := by
  have hmove := demand_moveTo c s p s.log.enter (.inside ∅)
  have hout : (s.phase p).reserve c = 0 := by simp [hp, TxPhase.reserve, TxPhase.active]
  have hin : (TxPhase.inside ∅).reserve c = c := by
    simp [TxPhase.reserve, TxPhase.active, TxPhase.blocks]
  have hlen : s.log.enter.lh.length = s.log.lh.length := rfl
  have hidle : ∑ q, (s.phase q).active = 0 → s.log.lh.length = 0 := by
    intro hzero
    rw [hx.idle hflag fun q => Nat.le_zero.mp (hzero ▸ active_le_sum q)]
    rfl
  rw [h.outstanding] at hroom
  have hle := hB _ _ hidle (by exact_mod_cast hroom)
  have hdem := demand_le (s := s) (c := c)
  rw [Nat.add_mul] at hle
  omega

theorem demand_logAppend (h : Accounted c s) (hp : s.phase p = .logging bs b) :
    (s.moveTo p (s.log.logAppend b x) (.inside (insert b bs))).demand c ≤ s.demand c := by
  have hmove := demand_moveTo c s p (s.log.logAppend b x) (.inside (insert b bs))
  have hwithin : (insert b bs).card ≤ c := by
    have hclaimed := h.within p
    rwa [hp] at hclaimed
  have hold : (s.phase p).reserve c = c - bs.card := by
    simp [hp, TxPhase.reserve, TxPhase.active, TxPhase.blocks]
  have hnew : (TxPhase.inside (insert b bs)).reserve c = c - (insert b bs).card := by
    simp [TxPhase.reserve, TxPhase.active, TxPhase.blocks]
  have hmono : bs.card ≤ (insert b bs).card := card_le_card (subset_insert b bs)
  by_cases hb : b ∈ s.log.lh
  · rw [Log.length_logAppend_of_mem hb] at hmove
    omega
  · -- a new slot is taken from the reserve of the transaction
    have hbs : b ∉ bs := by
      intro hbs
      have hlogged := h.logged p b
      rw [hp] at hlogged
      exact hb (hlogged hbs)
    rw [Log.length_logAppend_of_not_mem hb] at hmove
    rw [card_insert_of_notMem hbs] at hwithin hnew
    omega

theorem demand_step (h : Accounted c s) (hx : Exclusive s) (hB : Suffices c B)
    (hle : s.demand c ≤ B) (hd : Did c s a s') : s'.demand c ≤ B := by
  cases hd with
  | @beginOp p hp hflag hroom => exact demand_beginOp h hx hB hp hflag hroom
  | @logTest p b bs hp hcard _ =>
    have hmove := demand_moveTo c s p s.log (.logging bs b)
    have hsame : (TxPhase.logging bs b).reserve c = (s.phase p).reserve c := by rw [hp]; rfl
    omega
  | @logAppend p b bs x hp => exact Nat.le_trans (demand_logAppend h hp) hle
  | @endLast p bs hp _ _ =>
    have hmove := demand_moveTo c s p s.log.leaveLast .committing
    have hzero : TxPhase.committing.reserve c = 0 := by simp [TxPhase.reserve, TxPhase.active]
    have hlen : s.log.leaveLast.lh.length = s.log.lh.length := rfl
    omega
  | @endOther p bs hp _ _ =>
    have hmove := demand_moveTo c s p s.log.leave .outside
    have hzero : TxPhase.outside.reserve c = 0 := by simp [TxPhase.reserve, TxPhase.active]
    have hlen : s.log.leave.lh.length = s.log.lh.length := rfl
    omega
  | @commit p hp =>
    have hmove := demand_moveTo c s p s.log.commit .committed
    have hzero : TxPhase.committed.reserve c = 0 := by simp [TxPhase.reserve, TxPhase.active]
    obtain ⟨cache, writes, hcommit⟩ := s.log.commit_frame
    have hlen : s.log.commit.lh.length = 0 := by rw [hcommit]; rfl
    omega
  | @endCommit p hp =>
    have hmove := demand_moveTo c s p s.log.endCommit .outside
    have hzero : TxPhase.outside.reserve c = 0 := by simp [TxPhase.reserve, TxPhase.active]
    have hlen : s.log.endCommit.lh.length = s.log.lh.length := rfl
    omega

/-! ### Reachable states -/

theorem Inv.step (h : Inv c B s) (hB : Suffices c B) (hd : Did c s a s') : Inv c B s' := by
  have hacc := h.toAccounted.step h.toExclusive hd
  exact ⟨hacc, h.toExclusive.step hacc.outstanding hd,
    demand_step h.toAccounted h.toExclusive hB h.demand hd⟩

theorem reachable_inv (hB : Suffices c B) (hs : (txSystem P c).Reachable (.ok s)) : Inv c B s := by
  have hall : ∀ s', (Except.ok s : Except LogPanic (Txs P)) = .ok s' → Inv c B s' := by
    apply hs.invariant (P := fun r => ∀ s', r = .ok s' → Inv c B s')
    · rintro _ ⟨s₀, rfl, h0⟩ s' hs'
      obtain rfl := Except.ok.inj hs'
      exact h0.inv
    · intro r a r' ev ih hstep s' hs'
      subst hs'
      cases r with
      | error e => simp [txSystem] at hstep
      | ok s₁ => exact (ih s₁ rfl).step hB (step_did (system_step hstep))
  exact hall s rfl

theorem suffices_maxopblocks : Suffices MAXOPBLOCKS LOGSIZE := fun _ _ _ h => h

/-- With one block less per transaction the demand stays below the test of `log_write`. -/
theorem suffices_one_less : Suffices (MAXOPBLOCKS - 1) (LOGSIZE - 2) := by
  intro n k hidle hroom
  simp only [MAXOPBLOCKS, LOGSIZE] at hroom ⊢
  rcases Nat.eq_zero_or_pos k with rfl | hk
  · rw [hidle rfl]
    decide
  · omega

/-- The only panic is that of the size test, and it needs a full log. -/
theorem Inv.step_error (h : Inv c B s) (hstep : s.step c a = some (.error e)) :
    e = .tooBigTransaction ∧ LOGSIZE - 1 ≤ s.log.lh.length ∧ ∃ p b, a = .logTest p b := by
  rcases step_panics hstep with ⟨p, b, bs, rfl, hp, -, he⟩ | ⟨p, bs, rfl, hp, hflag, -⟩
  · obtain ⟨hbig, hn⟩ := h.logTest_error (p := p) (by rw [hp]; rfl) he
    exact ⟨hbig, hn, p, b, rfl⟩
  · have hzero := h.closed hflag p
    rw [hp] at hzero
    cases hzero

/-- Transactions that log at most `MAXOPBLOCKS - 1` blocks never make the log panic. -/
theorem no_panic_one_less : ¬ (txSystem P (MAXOPBLOCKS - 1)).Reachable (.error e) := by
  intro hr
  cases hr with
  | init h0 =>
    obtain ⟨s, hs, -⟩ := h0
    cases hs
  | @step r _ a ev hr hstep =>
    cases r with
    | error e' => simp [txSystem] at hstep
    | ok s =>
      have hinv := reachable_inv suffices_one_less hr
      obtain ⟨-, hn, -⟩ := hinv.step_error (system_step hstep)
      have hdem := hinv.demand
      unfold Txs.demand at hdem
      simp only [LOGSIZE, MAXOPBLOCKS] at hn hdem
      omega

theorem Initial.run_group (h0 : s₀.Initial)
    (hrun : (txSystem P MAXOPBLOCKS).run (.ok s₀) as = some (.ok s, ev)) :
    Inv MAXOPBLOCKS LOGSIZE s ∧ s.log.lh.length = (groupBlocks as).card := by
  have hinv : Inv MAXOPBLOCKS LOGSIZE s := reachable_inv suffices_maxopblocks
      (TransitionSystem.Reachable.run (.init ⟨s₀, rfl, h0⟩) hrun)
  refine ⟨hinv, ?_⟩
  rw [← List.toFinset_card_of_nodup hinv.nodup, run_lh hrun, h0.lh]
  rfl

/-- In a run of transactions that respect their reservation `log_write` does not panic for
    lack of space if and only if each call of it finds fewer than `LOGSIZE - 1` distinct
    blocks logged since the last commit. -/
theorem log_write_fits_iff {s₀ : Txs P} (h0 : s₀.Initial) {as : List (TxAct P)}
    {r : Except LogPanic (Txs P)} {ev : List Empty}
    (hrun : (txSystem P MAXOPBLOCKS).run (.ok s₀) as = some (r, ev)) :
    r ≠ .error .tooBigTransaction ↔ ∀ pre p b post, as = pre ++ .logTest p b :: post →
        (groupBlocks pre).card < LOGSIZE - 1 := by
  constructor
  · rintro hr pre p b post rfl
    obtain ⟨r₁, ev₁, ev₂, hpre, hrest, -⟩ := run_append_eq_some.mp hrun
    obtain ⟨r₂, ev₃, ev₄, hstep, hpost, -⟩ := run_cons_eq_some.mp hrest
    cases r₁ with
    | error e => simp [txSystem] at hstep
    | ok s₁ =>
      obtain ⟨hinv, hlen⟩ := h0.run_group hpre
      by_contra hfull
      have htest := hinv.logTest_tooBig (by omega)
      have hpanic := logTest_step (system_step hstep) htest
      subst hpanic
      exact hr (run_of_error hpost).2
  · rintro hfits rfl
    obtain ⟨pre, a, s₁, ev₁, rfl, hpre, hlast⟩ := run_error hrun
    obtain ⟨hinv, hlen⟩ := h0.run_group hpre
    obtain ⟨-, hfull, p, b, rfl⟩ := hinv.step_error hlast
    have hroom := hfits pre p b [] rfl
    omega

/-- An empty file system with three callers. -/
def threeCallers : Txs (Fin 3) where
  log :=
    { start := 2, size := nlog, outstanding := 0, committing := false, lh := [],
      cache := fun _ _ => 0, writes := [] }
  phase := fun _ => .outside

theorem threeCallers_initial : threeCallers.Initial := ⟨rfl, rfl, rfl, rfl, fun _ => rfl⟩

/-- A transaction of one block. -/
def oneBlock : List (TxAct (Fin 3)) :=
  [.beginOp 0, .logTest 0 100, .logAppend 0 100 fun _ => 1, .endOp 0, .commit 0, .endCommit 0]

theorem log_write_fits_iff_oneBlock : ∃ r ev,
    (txSystem (Fin 3) MAXOPBLOCKS).run (.ok threeCallers) oneBlock = some (r, ev) ∧
      (r ≠ .error .tooBigTransaction ↔ ∀ pre p b post,
        oneBlock = pre ++ .logTest p b :: post → (groupBlocks pre).card < LOGSIZE - 1) :=
  ⟨_, _, rfl, log_write_fits_iff threeCallers_initial rfl⟩

/-- The calls of `log_write` for `n` blocks from `b` on. -/
def writesFrom (p : Fin 3) (b : Nat) (n : Nat) : List (TxAct (Fin 3)) :=
  (List.range n).flatMap fun i =>
    [.logTest p (BitVec.ofNat 32 (b + i)), .logAppend p (BitVec.ofNat 32 (b + i)) fun _ => 1]

/-- Three transactions that are open at the same time; the last one has logged nine blocks
    and is about to log its tenth. -/
def threeOpen : List (TxAct (Fin 3)) :=
  [.beginOp 0, .beginOp 1, .beginOp 2] ++ writesFrom 0 100 10 ++ writesFrom 1 110 10 ++
    writesFrom 2 120 9 ++ [.logTest 2 129]

def panicOf (r : Option (Except LogPanic (Txs (Fin 3)) × List Empty)) : Option LogPanic :=
  match r with
  | some (.error e, _) => some e
  | _ => none

theorem panicOf_eq (h : panicOf r = some e) : ∃ ev, r = some (.error e, ev) := by
  rcases r with _ | ⟨_ | s, ev⟩
  · cases h
  · cases h
    exact ⟨ev, rfl⟩
  · cases h

/-- The thirtieth block does not fit, although each transaction logs ten blocks only. -/
theorem log_write_panics_threeOpen :
    (txSystem (Fin 3) MAXOPBLOCKS).Reachable (.error .tooBigTransaction) := by
  have hpanic : panicOf ((txSystem (Fin 3) MAXOPBLOCKS).run (.ok threeCallers) threeOpen) =
      some .tooBigTransaction := by decide +kernel
  obtain ⟨ev, hrun⟩ := panicOf_eq hpanic
  exact TransitionSystem.Reachable.run (.init ⟨_, rfl, threeCallers_initial⟩) hrun

end Txs

end Xv6Kernel
