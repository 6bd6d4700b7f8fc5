/-
  BornAlive.lean
  ==============
  The `killed` flag of new processes.

  `allocproc` does not clear `killed`; `wait` does when it frees a slot.  But a slot can
  also become free when `fork` fails, and `kill` finds processes on the embryo list.  So
  new processes are alive as long as no process was killed whose `fork` then fails, and
  the first time this happens the slot is the next one to be taken.
-/
import Xv6Kernel.ProcIdent

namespace Xv6Kernel

/-- A step at which `fork` gives its slot up finds the `killed` flag of the slot clear. -/
def Table.FailsUnkilled (t : Table) : Act → Prop
  | .kalloc cpu none => ∀ p np, t.cpuProc cpu = some p → t.kctx p = .allocating np →
      (t.proc np).killed = false
  | .copyuvm cpu none => ∀ p np, t.cpuProc cpu = some p → t.kctx p = .copying np →
      (t.proc np).killed = false
  | _ => True

/-- Whatever step is taken, a process that it makes is not killed. -/
def BornAlive (s : PTable) : Prop :=
  ∀ act s' ev np, procSystem.step s act = some (s', ev) → Ev.born np ∈ ev →
    (s'.proc np).state = .embryo ∧ (s'.proc np).killed = false

namespace Table

variable {t t' : Table} {act : Act} {ev : List Ev}

/-- Free slots are not killed. -/
def FreeUnkilled (t : Table) : Prop := ∀ q, (t.proc q).state = .unused → (t.proc q).killed = false

theorem Quiet.freeUnkilled (h : t.Quiet t') (hfree : t.FreeUnkilled) : t'.FreeUnkilled := by
  intro q hq
  rw [h.killed]
  exact hfree q ((h.unused q).mp hq)

/-- A slot other than `np` is as it was. -/
theorem FreeUnkilled.setProc (hfree : t.FreeUnkilled)
    (hf : (f (t.proc np)).state = .unused → (f (t.proc np)).killed = false) :
    (t.setProc np f).FreeUnkilled := by
  intro q hq
  by_cases hqn : q = np
  · subst hqn
    simp only [setProc_proc, Function.update_self] at hq ⊢
    exact hf hq
  · simp only [setProc_proc, Function.update_of_ne hqn] at hq ⊢
    exact hfree q hq

theorem FreeUnkilled.exit (hfree : t.FreeUnkilled) : (t.exit cpu p).FreeUnkilled := by
  have hhand : (t.handOver p).FreeUnkilled := by
    intro q hq
    have hkilled : ((t.handOver p).proc q).killed = (t.proc q).killed :=
      handOver_field (f := Proc.killed) (fun _ _ => rfl) fun _ _ => rfl
    rw [hkilled]
    rcases handOver_state (t := t) (p := p) (q := q) with h | h
    · exact hfree q (h ▸ hq)
    · rw [h.2] at hq
      cases hq
  exact Quiet.leaveCpu.freeUnkilled (hhand.setProc (by simp))

theorem FreeUnkilled.setKCtx (hfree : t.FreeUnkilled) : (t.setKCtx p k).FreeUnkilled := hfree

theorem FreeUnkilled.step (ok : t.KernelOk) (hfree : t.FreeUnkilled) (hact : t.FailsUnkilled act)
    (h : t.Step act ev t') : t'.FreeUnkilled := by
  cases h.change ok with
  | quiet hq _ => exact hq.freeUnkilled hfree
  | @born cpu p np _ _ =>
    have hnp : (t.setProc np fun r => { r with state := .embryo, pid := t.nextpid }).FreeUnkilled :=
      hfree.setProc (by simp)
    exact hnp
  | @kallocFails cpu p np hcall =>
    have hnp : (t.kallocFails np).FreeUnkilled :=
      hfree.setProc fun _ => hact p np hcall.cpu hcall.kctx
    exact hnp.setKCtx
  | @copyuvmFails cpu p np hcall =>
    have hnp : (t.copyuvmFails np).FreeUnkilled :=
      hfree.setProc fun _ => hact p np hcall.cpu hcall.kctx
    exact hnp.setKCtx
  | @copyuvm cpu p np pgdir hruns =>
    have hemb := (ok.forking p np (by rw [hruns.kctx]; rfl)).1
    have hnp : (t.setProc np (Proc.forkFields pgdir p (t.proc p))).FreeUnkilled :=
      hfree.setProc (by simp [Proc.forkFields, hemb])
    exact hnp.setKCtx
  | @forkFinish cpu p np _ =>
    have hnp : (t.setState np .runnable).FreeUnkilled := hfree.setProc (by simp)
    exact hnp.setKCtx
  | exit _ _ => exact hfree.exit
  | @reaped _ cpu p q _ _ _ _ hq =>
    have hreap : (t.reap q).FreeUnkilled := hfree.setProc fun _ => rfl
    exact hq.freeUnkilled hreap
  | @killed _ _ q _ hne hq _ =>
    have hkill : (t.setKilled q).FreeUnkilled := hfree.setProc fun hst => absurd hst hne
    exact hq.freeUnkilled hkill

/-- The process that a step makes comes from a free slot. -/
theorem Step.born (ok : t.KernelOk) (h : t.Step act ev t') (hborn : Ev.born np ∈ ev) :
    (t.proc np).state = .unused ∧ (t'.proc np).state = .embryo ∧
      (t'.proc np).killed = (t.proc np).killed := by
  cases h.change ok with
  | quiet _ hev => exact absurd (hev _ hborn) (by simp [Ev.Quiet])
  | @born cpu p np' _ hnp =>
    obtain rfl : np = np' := by simpa using hborn
    exact ⟨hnp, by simp [Table.allocproc], by simp [Table.allocproc]⟩
  | killed _ _ hev => exact absurd (hev _ hborn) (by simp [Ev.Quiet])
  | _ => simp at hborn

end Table

theorem reachableWhen_freeUnkilled
    (hs : procSystem.ReachableWhen (fun s act => s.FailsUnkilled act) s) : s.FreeUnkilled := by
  apply hs.invariant_of (P := fun s => s.FreeUnkilled) (Q := procSystem.Reachable) (fun _ h => h)
  · intro s h0
    obtain ⟨p, hp⟩ := init_initial h0
    exact fun q _ => hp.killed q
  · intro s act s' ev hr hfree hact h
    obtain ⟨ok, ht⟩ := reachable_step hr h
    exact hfree.step ok hact ht

/-! ### The failing case -/

namespace Queues

variable {a : Queues} {cpu : Cpu} {p np : Slot}

/-- A slot given up by `fork` is the first one on the free list, and its `killed` flag is
    as it was. -/
theorem freeEmbryo_free (a : Queues) (p np : Slot) (hf : ∀ r, (f r).killed = r.killed) :
    ((((a.upd fun t => t.setProc np f).freeEmbryo np).upd fun t =>
        t.setKCtx p .outside).lists .free) = np :: a.lists .free ∧
      ((((a.upd fun t => t.setProc np f).freeEmbryo np).upd fun t =>
        t.setKCtx p .outside).proc np).killed = (a.proc np).killed := by
  constructor
  · simp [freeEmbryo, shiftHead]
  · simp [freeEmbryo, shiftHead, hf]

/-- After a step that fails the condition, the same CPU can make a killed process. -/
theorem born_killed (hstep : a.step act = some r) (hact : ¬ a.FailsUnkilled act) :
    ∃ cpu np a', r.1.step (.allocproc cpu) = some (a', [.born np]) ∧
      (a'.proc np).killed = true := by
  have hgo : ∀ (cpu : Cpu) (p np : Slot) (b : Queues), a.Calls cpu p (a.kctx p) →
      (a.proc np).killed = true → b.lists .free = np :: a.lists .free →
      (b.proc np).killed = (a.proc np).killed → b.lock = a.lock → b.cpuProc = a.cpuProc →
      b.kctx p = .outside →
      ∃ cpu np a', b.step (.allocproc cpu) = some (a', [.born np]) ∧
        (a'.proc np).killed = true := by
    intro cpu p np b hcall hkilled hfree hsame hlock hcpus hk
    obtain ⟨a', hnext, hsame'⟩ := step_allocproc (a := b) (p := p)
      ⟨⟨by rw [hlock]; exact hcall.lock, by rw [hcpus, hcall.cpu], hk⟩, by rw [hlock, hcall.free]⟩
      hfree
    exact ⟨cpu, np, a', hnext, by rw [hsame', hsame, hkilled]⟩
  unfold Table.FailsUnkilled at hact
  split at hact
  · rename_i cpu
    push Not at hact
    obtain ⟨p, np, hcpu, hk, hkilled⟩ := hact
    obtain ⟨p', hcall, hf⟩ := locked_eq_some hstep
    obtain rfl : p = p' := Option.some.inj (hcpu.symm.trans hcall.cpu)
    rw [hk] at hf
    cases hf
    obtain ⟨hfree, hsame⟩ := freeEmbryo_free a p np
      (f := fun r => { r with kstack := none }) fun _ => rfl
    exact hgo cpu p np _ hcall (by simpa using hkilled) hfree hsame rfl rfl (by simp)
  · rename_i cpu
    push Not at hact
    obtain ⟨p, np, hcpu, hk, hkilled⟩ := hact
    obtain ⟨p', hcall, hf⟩ := locked_eq_some hstep
    obtain rfl : p = p' := Option.some.inj (hcpu.symm.trans hcall.cpu)
    rw [hk] at hf
    cases hf
    obtain ⟨hfree, hsame⟩ := freeEmbryo_free a p np
      (f := fun r => { r with pgdir := none, kstack := none }) fun _ => rfl
    exact hgo cpu p np _ hcall (by simpa using hkilled) hfree hsame rfl rfl (by simp)
  · exact absurd trivial hact

end Queues

/-- If at every step at which a `fork` fails the slot given up is not killed, then every
    process is born alive; and as soon as one such slot is killed, the next call of
    `allocproc` makes a process that is killed. -/
theorem born_alive_while_failed_forks_unkilled (s : PTable) :
    (procSystem.ReachableWhen (fun s act => s.FailsUnkilled act) s → BornAlive s) ∧
      ∀ act s' ev, procSystem.Reachable s → procSystem.step s act = some (s', ev) →
        ¬ s.FailsUnkilled act → ¬ BornAlive s' := by
  constructor
  · intro hs act s' ev np hstep hborn
    obtain ⟨ok, ht⟩ := reachable_step hs.reachable hstep
    obtain ⟨hfree, hemb, hsame⟩ := ht.born ok hborn
    refine ⟨hemb, ?_⟩
    rw [hsame]
    exact reachableWhen_freeUnkilled hs np hfree
  · intro act s' ev hs hstep hact halive
    obtain ⟨a, ha, hr⟩ := reachable_represents hs
    obtain ⟨a', hstep', hr'⟩ := simulation.step _ _ _ _ _ hr ha hstep
    rw [hr.table] at hact
    obtain ⟨cpu, np, b, hnext, hkilled⟩ := Queues.born_killed hstep' hact
    obtain ⟨s'', hs'', hr''⟩ := hr'.step_some (.step ha hstep') hnext
    have hkilled' := (halive (.allocproc cpu) s'' [.born np] np hs'' (by simp)).2
    rw [hr''.proc, hkilled] at hkilled'
    cases hkilled'

/-- Init has forked a child; the child is in the middle of a `fork` of its own when init
    kills the process that this `fork` is making. -/
def killedInFork : PTable :=
  afterActs [.scheduler 0, .resume 0,
    .allocproc 0, .kalloc 0 (some 3), .copyuvm 0 (some 4), .forkFinish 0,
    .scheduler 1, .resume 1, .allocproc 1, .kill 0 3]

theorem born_alive_while_failed_forks_unkilled_booted :
    BornAlive bootedTable ∧ ∃ s', procSystem.step killedInFork (.kalloc 1 none) = some s' ∧
      ¬ BornAlive s'.1 := by
  refine ⟨(born_alive_while_failed_forks_unkilled bootedTable).1 (.init bootedTable_init), ?_⟩
  have hrun : (procSystem.step killedInFork (.kalloc 1 none)).isSome = true := by decide +kernel
  obtain ⟨⟨s', ev⟩, hstep⟩ := Option.isSome_iff_exists.mp hrun
  have hreach : procSystem.Reachable killedInFork := afterActs_reachable _
  refine ⟨(s', ev), hstep, (born_alive_while_failed_forks_unkilled _).2 _ _ _ hreach hstep ?_⟩
  intro hact
  have hkilled : killedInFork.cpuProc 1 = some 62 ∧ killedInFork.kctx 62 = .allocating 61 ∧
      (killedInFork.proc 61).killed = true := by decide +kernel
  have hfalse := hact 62 61 hkilled.1 hkilled.2.1
  rw [hkilled.2.2] at hfalse
  cases hfalse

/-- The child's `kalloc` fails, and the slot it gives up is killed when it is next used. -/
theorem born_killed_after_failed_fork : procSystem.Reachable (afterActs [.scheduler 0, .resume 0,
      .allocproc 0, .kalloc 0 (some 3), .copyuvm 0 (some 4), .forkFinish 0,
      .scheduler 1, .resume 1, .allocproc 1, .kill 0 3, .kalloc 1 none]) ∧
    ¬ BornAlive (afterActs [.scheduler 0, .resume 0,
      .allocproc 0, .kalloc 0 (some 3), .copyuvm 0 (some 4), .forkFinish 0,
      .scheduler 1, .resume 1, .allocproc 1, .kill 0 3, .kalloc 1 none]) := by
  refine ⟨afterActs_reachable _, ?_⟩
  intro halive
  have hborn : ((procSystem.step (afterActs [.scheduler 0, .resume 0,
      .allocproc 0, .kalloc 0 (some 3), .copyuvm 0 (some 4), .forkFinish 0,
      .scheduler 1, .resume 1, .allocproc 1, .kill 0 3, .kalloc 1 none]) (.allocproc 1)).map
        fun r => (r.2, (r.1.proc 61).killed)) = some ([.born 61], true) := by
    decide +kernel
  obtain ⟨⟨s', ev⟩, hstep, hpair⟩ := Option.map_eq_some_iff.mp hborn
  simp only [Prod.mk.injEq] at hpair
  have hfalse := (halive _ s' ev 61 hstep (by rw [hpair.1]; simp)).2
  rw [hpair.2] at hfalse
  cases hfalse

end Xv6Kernel
