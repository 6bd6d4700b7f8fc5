/-
  LogWaiters.lean
  ===============
  Callers that sleep in `begin_op`.

  The system of `LogAdmission` leaves out the steps in which `begin_op` puts its caller to
  sleep.  Here they are steps: a caller that is not admitted sleeps on the log, `end_op`
  wakes all sleepers when it closes a transaction that is not the last one and again when
  the commit is over, and `kill` may wake one at any time.  A caller that is awake makes
  the test again.  `sleep` gives up `log.lock` only once it holds `ptable.lock`, which
  `wakeup` needs, so testing and falling asleep are one step.

  Nothing bounds the blocks of a transaction here: the budget of `Txs.step` is the number
  of all block numbers.
-/
import Xv6Kernel.LogAdmission

namespace Xv6Kernel

/-- A budget that no transaction can exceed. -/
def anyBlocks : Nat := 2 ^ 32

inductive CallerAct (P : Type) where
  | tx (a : TxAct P)
  | kill (p : P)

structure Callers (P : Type) extends Txs P where
  /-- Asleep on the log, in `begin_op`. -/
  asleep : P → Bool

/-- Whether a step of a caller ends in `wakeup(&log)`. -/
def Txs.wakes {P : Type} (s : Txs P) : TxAct P → Bool
  | .endOp _ => decide (s.log.outstanding - 1 ≠ 0)
  | .endCommit _ => true
  | _ => false

namespace Callers

variable {P : Type} [DecidableEq P]

/-- The callers after one of them has taken the step `a` of `Txs`. -/
def after (s : Callers P) (a : TxAct P) (t : Txs P) : Callers P :=
  { toTxs := t, asleep := if s.toTxs.wakes a then fun _ => false else s.asleep }

def setAsleep (s : Callers P) (p : P) (b : Bool) : Callers P :=
  { s with asleep := Function.update s.asleep p b }

/-- The caller who takes a step is awake. -/
def step (s : Callers P) : CallerAct P → Option (Except LogPanic (Callers P))
  | .kill p => if s.asleep p then some (.ok (s.setAsleep p false)) else none
  | .tx (.beginOp p) =>
      if s.asleep p then none
      else
        match s.phase p, s.log.beginOp with
        | .outside, none => some (.ok (s.setAsleep p true))
        | _, _ => (s.toTxs.step anyBlocks (.beginOp p)).map fun r => r.map (s.after (.beginOp p))
  | .tx a => (s.toTxs.step anyBlocks a).map fun r => r.map (s.after a)

/-- After `initlog`. -/
structure Initial (s : Callers P) : Prop where
  outstanding : s.log.outstanding = 0
  committing : s.log.committing = false
  lh : s.log.lh = []
  outside : ∀ p, s.phase p = .outside
  awake : ∀ p, s.asleep p = false

end Callers

/-- The callers' steps interleaved; a panic stops the system. -/
def callerSystem (P : Type) [DecidableEq P] :
    TransitionSystem (Except LogPanic (Callers P)) (CallerAct P) Empty where
  init := fun r => ∃ s, r = .ok s ∧ s.Initial
  step := fun r a =>
    match r with
    | .ok s => (s.step a).map fun r => (r, [])
    | .error _ => none

/-! ### What a step does -/

namespace Callers

variable {P : Type} [DecidableEq P] {s : Callers P} {a : CallerAct P}

/-- The ways in which `begin_op` does not admit its caller. -/
def Refused (log : Log) : Prop :=
  log.committing = true ∨ (LOGSIZE : Int) < log.lh.length + (log.outstanding + 1) * MAXOPBLOCKS

inductive Did (s : Callers P) : CallerAct P → Callers P → Prop where
  | kill {p : P} : Did s (.kill p) (s.setAsleep p false)
  | sleep {p : P} : s.phase p = .outside → Refused s.log →
      Did s (.tx (.beginOp p)) (s.setAsleep p true)
  | tx {a : TxAct P} {t : Txs P} : Txs.Did anyBlocks s.toTxs a t → Did s (.tx a) (s.after a t)

theorem refused_of_beginOp (h : log.beginOp = none) : Refused log := by
  unfold Log.beginOp at h
  split_ifs at h with hc hn
  · exact Or.inl hc
  · exact Or.inr hn

theorem map_step_did
    (h : (s.toTxs.step anyBlocks b).map (fun r => r.map (s.after b)) = some (.ok s')) :
    Did s (.tx b) s' := by
  obtain ⟨r, hr, hs'⟩ := Option.map_eq_some_iff.mp h
  cases r with
  | error e => simp [Except.map] at hs'
  | ok t =>
    obtain rfl := Except.ok.inj hs'
    exact .tx (Txs.step_did hr)

theorem step_did (h : s.step a = some (.ok s')) : Did s a s' := by
  cases a with
  | kill p =>
    simp only [step] at h
    split_ifs at h
    obtain rfl := Except.ok.inj (Option.some.inj h)
    exact .kill
  | tx b =>
    cases b with
    | beginOp p =>
      simp only [step] at h
      split_ifs at h
      split at h
      · rename_i hp hb
        obtain rfl := Except.ok.inj (Option.some.inj h)
        exact .sleep hp (refused_of_beginOp hb)
      · exact map_step_did h
    | logTest p b => exact map_step_did h
    | logAppend p b x => exact map_step_did h
    | endOp p => exact map_step_did h
    | commit p => exact map_step_did h
    | endCommit p => exact map_step_did h

theorem map_step_panics
    (h : (s.toTxs.step anyBlocks b).map (fun r => r.map (s.after b)) = some (.error e)) :
    s.toTxs.step anyBlocks b = some (.error e) := by
  obtain ⟨r, hr, hs'⟩ := Option.map_eq_some_iff.mp h
  cases r with
  | error e' =>
    obtain rfl := Except.error.inj hs'
    exact hr
  | ok t => simp [Except.map] at hs'

theorem step_panics (h : s.step a = some (.error e)) :
    ∃ b, a = .tx b ∧ s.toTxs.step anyBlocks b = some (.error e) := by
  cases a with
  | kill p =>
    simp only [step] at h
    split_ifs at h
    simp at h
  | tx b =>
    refine ⟨b, rfl, ?_⟩
    cases b with
    | beginOp p =>
      simp only [step] at h
      split_ifs at h
      split at h
      · simp at h
      · exact map_step_panics h
    | logTest p b => exact map_step_panics h
    | logAppend p b x => exact map_step_panics h
    | endOp p => exact map_step_panics h
    | commit p => exact map_step_panics h
    | endCommit p => exact map_step_panics h

end Callers

/-! ### The number of open transactions -/

namespace Txs

variable {P : Type} [Fintype P] {s : Txs P}

/-- `log.outstanding` counts the open transactions. -/
def Counted (s : Txs P) : Prop := s.log.outstanding = ((∑ p, (s.phase p).active : Nat) : Int)

/-- The callers between `begin_op` and `end_op`. -/
def inTransaction (s : Txs P) : Finset P := Finset.univ.filter fun p => (s.phase p).active = 1

theorem active_eq_zero_or_one (ph : TxPhase) : ph.active = 0 ∨ ph.active = 1 := by
  cases ph <;> simp [TxPhase.active]

theorem card_inTransaction (s : Txs P) : s.inTransaction.card = ∑ p, (s.phase p).active := by
  unfold inTransaction
  rw [Finset.card_filter]
  refine Finset.sum_congr rfl fun p _ => ?_
  rcases active_eq_zero_or_one (s.phase p) with hp | hp <;> simp [hp]

theorem Counted.pos_of_active (h : s.Counted) (hp : (s.phase p).active = 1) :
    1 ≤ s.log.outstanding := by
  have hle := active_le_sum (s := s) p
  unfold Counted at h
  omega

/-- With nothing outstanding and no commit running, the log is empty. -/
theorem Exclusive.empty_of_idle (hx : Exclusive s) (h : s.Counted)
    (hflag : s.log.committing = false) (hout : s.log.outstanding ≤ 0) : s.log.lh = [] := by
  apply hx.idle hflag
  intro p
  have hle := active_le_sum (s := s) p
  unfold Counted at h
  omega

variable [DecidableEq P]

theorem Counted.moveTo (h : s.Counted) (p : P) (log : Log) (ph : TxPhase)
    (hout : log.outstanding + (s.phase p).active = s.log.outstanding + ph.active) :
    (s.moveTo p log ph).Counted := by
  have hsum := sum_moveTo s p log ph TxPhase.active
  unfold Counted at h ⊢
  rw [moveTo_log]
  omega

theorem Counted.step (h : s.Counted) (hd : Did c s a s') : s'.Counted := by
  cases hd with
  | @beginOp p hp _ _ =>
    apply h.moveTo
    rw [hp]
    simp [Log.enter, TxPhase.active]
  | @logTest p b bs hp _ _ =>
    apply h.moveTo
    rw [hp]
    rfl
  | @logAppend p b bs x hp =>
    apply h.moveTo
    rw [hp]
    rfl
  | @endLast p bs hp _ _ =>
    apply h.moveTo
    rw [hp]
    simp [Log.leaveLast, TxPhase.active]
  | @endOther p bs hp _ _ =>
    apply h.moveTo
    rw [hp]
    simp [Log.leave, TxPhase.active]
  | @commit p hp =>
    obtain ⟨cache, writes, hcommit⟩ := s.log.commit_frame
    apply h.moveTo
    rw [hp, hcommit]
    rfl
  | @endCommit p hp =>
    apply h.moveTo
    rw [hp]
    rfl

end Txs

/-! ### Sleepers -/

namespace Callers

variable {P : Type} {s s' : Callers P} {a : CallerAct P}

/-- What a sleeper waits for. -/
def Blocked (log : Log) : Prop :=
  log.committing = true ∨
    ((LOGSIZE : Int) < log.lh.length + (log.outstanding + 1) * MAXOPBLOCKS ∧
      0 < log.outstanding)

/-- A step that does not wake the sleepers leaves them with what they wait for. -/
theorem Blocked.step [DecidableEq P] {s t : Txs P} {b : TxAct P} (hx : Txs.Exclusive s)
    (h : Blocked s.log)
    (hd : Txs.Did anyBlocks s b t) (hw : s.wakes b = false) : Blocked t.log := by
  have hm : MAXOPBLOCKS = 10 := rfl
  cases hd with
  | @beginOp p _ hflag _ =>
    rcases h with hc | ⟨hn, ho⟩
    · simp [hflag] at hc
    · refine Or.inr ⟨?_, ?_⟩
      · simp only [Txs.moveTo_log, Log.enter, hm] at hn ⊢
        omega
      · simp only [Txs.moveTo_log, Log.enter]
        omega
  | logTest => exact h
  | @logAppend p b' bs x _ =>
    rcases h with hc | ⟨hn, ho⟩
    · exact Or.inl hc
    · refine Or.inr ⟨?_, ho⟩
      have hlen : s.log.lh.length ≤ (s.log.logAppend b' x).lh.length := by
        unfold Log.logAppend
        dsimp only
        split_ifs
        · exact Nat.le_refl _
        · simp
      simp only [Txs.moveTo_log, Log.logAppend, hm] at hn hlen ⊢
      omega
  | endLast => exact Or.inl rfl
  | @endOther p bs _ _ hout => simp [Txs.wakes, hout] at hw
  | @commit p hp =>
    obtain ⟨cache, writes, hcommit⟩ := s.log.commit_frame
    refine Or.inl ?_
    rw [Txs.moveTo_log, hcommit]
    exact hx.flag_of_ending (Or.inl hp)
  | endCommit => simp [Txs.wakes] at hw

variable [Fintype P]

structure Inv (s : Callers P) : Prop where
  counted : s.Counted
  exclusive : s.Exclusive
  sleepers : ∀ p, s.asleep p = true → Blocked s.log

theorem Initial.inv (h : s.Initial) : Inv s where
  counted := by
    unfold Txs.Counted
    rw [h.outstanding, Finset.sum_eq_zero fun p _ => by rw [h.outside p]; rfl]
    rfl
  exclusive := Txs.exclusive_of_running h.committing
    (fun p => by simp [h.outside p, TxPhase.Ending]) (fun _ => h.lh)
  sleepers := fun p hp => by simp [h.awake p] at hp

/-- A caller is refused only while there is someone who will wake it. -/
theorem Inv.blocked_of_refused (h : Inv s) (hr : Refused s.log) : Blocked s.log := by
  by_cases hflag : s.log.committing = true
  · exact Or.inl hflag
  rcases hr with hc | hn
  · exact absurd hc hflag
  right
  refine ⟨hn, ?_⟩
  by_contra hout
  have hempty := h.exclusive.empty_of_idle h.counted (by simpa using hflag) (by omega)
  have hsum := h.counted
  rw [hempty] at hn
  simp only [List.length_nil, MAXOPBLOCKS, LOGSIZE] at hn
  omega

variable [DecidableEq P]

theorem Inv.step (h : Inv s) (hd : Did s a s') : Inv s' := by
  cases hd with
  | @kill p =>
    refine ⟨h.counted, h.exclusive, fun q hq => h.sleepers q ?_⟩
    by_cases hqp : q = p
    · simp [setAsleep, hqp] at hq
    · simpa [setAsleep, hqp] using hq
  | sleep _ hr =>
    exact ⟨h.counted, h.exclusive, fun q _ => h.blocked_of_refused hr⟩
  | @tx b t hd =>
    have hcounted : t.Counted := h.counted.step hd
    refine ⟨hcounted, h.exclusive.step hcounted hd, ?_⟩
    intro q hq
    cases hw : s.toTxs.wakes b with
    | true => simp [after, hw] at hq
    | false =>
      simp only [after, hw] at hq
      exact (h.sleepers q hq).step h.exclusive hd hw

theorem reachable_inv (hs : (callerSystem P).Reachable (.ok s)) : Inv s := by
  suffices h : ∀ r, (callerSystem P).Reachable r → ∀ s, r = .ok s → Inv s from h _ hs s rfl
  intro r hr
  apply hr.invariant (P := fun r => ∀ s, r = .ok s → Inv s)
  · rintro r ⟨s, rfl, h0⟩ s' hs'
    obtain rfl := Except.ok.inj hs'
    exact h0.inv
  · intro r a r' ev ih hstep s' hs'
    cases r with
    | error e => simp [callerSystem] at hstep
    | ok s =>
      simp only [callerSystem, Option.map_eq_some_iff, Prod.mk.injEq] at hstep
      obtain ⟨r, hr, rfl, -⟩ := hstep
      rw [hs'] at hr
      exact (ih s rfl).step (step_did hr)

/-- The only panic that a caller can run into is the one for lack of space. -/
theorem Inv.panics (h : Inv s) (he : s.step a = some (.error e)) : e = .tooBigTransaction := by
  obtain ⟨b, rfl, hb⟩ := step_panics he
  rcases Txs.step_panics hb with ⟨p, x, bs, rfl, hp, -, ht⟩ | ⟨p, bs, rfl, hp, hc, -⟩
  · have hout := h.counted.pos_of_active (p := p) (by rw [hp]; rfl)
    unfold Log.logTest at ht
    split_ifs at ht
    · exact (Except.error.inj ht).symm
    · omega
  · have hflag := h.exclusive.flag_of_active (p := p) (by rw [hp]; rfl)
    simp [hflag] at hc

/-- During a commit only `commit` changes the list of logged blocks. -/
theorem Inv.lh_during_commit (h : Inv s) (hflag : s.log.committing = true)
    (hd : Did s a s') : s'.log.lh = s.log.lh ∨ ∃ p, a = .tx (.commit p) := by
  cases hd with
  | kill => exact Or.inl rfl
  | sleep => exact Or.inl rfl
  | @tx b t hd =>
    cases hd with
    | @logAppend p b' bs x hp =>
      have hfalse := h.exclusive.flag_of_active (p := p) (by rw [hp]; rfl)
      simp [hflag] at hfalse
    | @commit p _ => exact Or.inr ⟨p, rfl⟩
    | _ => exact Or.inl rfl

/-- The protocol of `begin_op`, `log_write`, `end_op` and `commit`, in every state that any
    interleaving of any number of callers reaches. -/
theorem transaction_protocol (hs : (callerSystem P).Reachable (.ok s)) :
    s.log.outstanding = s.inTransaction.card ∧
    (s.log.committing = true → s.inTransaction = ∅) ∧
    (∀ a s', s.log.committing = true → s.step a = some (.ok s') →
      s'.log.lh = s.log.lh ∨ ∃ p, a = .tx (.commit p)) ∧
    (∀ a e, s.step a = some (.error e) → e ≠ .logCommitting ∧ e ≠ .outsideOfTrans) ∧
    ∀ p, s.asleep p = true → s.log.committing = true ∨
        ((LOGSIZE : Int) < s.log.lh.length + (s.log.outstanding + 1) * MAXOPBLOCKS ∧
          0 < s.log.outstanding) := by
  have hinv := reachable_inv hs
  refine ⟨?_, ?_, ?_, ?_, hinv.sleepers⟩
  · rw [Txs.card_inTransaction]
    exact hinv.counted
  · intro hflag
    unfold Txs.inTransaction
    rw [Finset.filter_eq_empty_iff]
    intro p _ hp
    have hzero := hinv.exclusive.closed hflag p
    omega
  · intro a s' hflag hstep
    exact hinv.lh_during_commit hflag (step_did hstep)
  · intro a e he
    obtain rfl := hinv.panics he
    exact ⟨by simp, by simp⟩

/-- Four callers of an empty log, of which the last finds no room. -/
def fourCallers : Callers (Fin 4) where
  log :=
    { start := 2, size := nlog, outstanding := 0, committing := false, lh := [],
      cache := fun _ _ => 0, writes := [] }
  phase := fun _ => .outside
  asleep := fun _ => false

theorem fourCallers_initial : fourCallers.Initial := ⟨rfl, rfl, rfl, fun _ => rfl, fun _ => rfl⟩

def oneSleeps : List (CallerAct (Fin 4)) :=
  [.tx (.beginOp 0), .tx (.beginOp 1), .tx (.beginOp 2), .tx (.beginOp 3)]

theorem transaction_protocol_oneSleeps : ∃ s : Callers (Fin 4), ∃ ev,
    (callerSystem (Fin 4)).run (.ok fourCallers) oneSleeps = some (.ok s, ev) ∧
      s.asleep 3 = true ∧ s.log.outstanding = s.inTransaction.card := by
  obtain ⟨s, ev, hrun, hasleep⟩ : ∃ s : Callers (Fin 4), ∃ ev,
      (callerSystem (Fin 4)).run (.ok fourCallers) oneSleeps = some (.ok s, ev) ∧
        s.asleep 3 = true := ⟨_, _, rfl, rfl⟩
  have hs : (callerSystem (Fin 4)).Reachable (.ok s) :=
    TransitionSystem.Reachable.run (.init ⟨fourCallers, rfl, fourCallers_initial⟩) hrun
  exact ⟨s, ev, hrun, hasleep, (transaction_protocol hs).1⟩

end Callers

end Xv6Kernel
