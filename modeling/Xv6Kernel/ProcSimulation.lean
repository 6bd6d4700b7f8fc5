/-
  ProcSimulation.lean
  ===================
  Every run of the pointer code is a run of the list code.

  `Represents.step` puts the operations of `ProcRefinement` together: from related
  states that satisfy the invariant, a step of one model is a step of the other.  The
  only panic a step can end in is the one of `exit` for init.  With `userinit` this
  gives, for every reachable process table, lists that it represents and that satisfy
  the invariant.
-/
import Xv6Kernel.ProcRefinement

namespace Xv6Kernel

open IntrusiveList Function Queues

/-- The pointer model ends where the list model ends, with the same events.  Where the
    list model has no step, the pointer model has none or stops in the panic of `exit`. -/
def Simulates (x : Option PTable.Outcome) (y : Queues.Next) : Prop :=
  match y with
  | some (a, ev) => ∃ s, x = some (.ok (s, ev)) ∧ Represents s a
  | none => x = none ∨ x = some (.error .initExiting)

namespace Represents

variable {s : PTable} {a : Queues} {cpu : Cpu} {p : Slot}

section

variable (hr : Represents s a)

include hr

theorem kctx : s.kctx = a.kctx := congrArg Table.kctx hr.table
theorem lock : s.lock = a.lock := congrArg Table.lock hr.table
theorem cpuProc : s.cpuProc = a.cpuProc := congrArg Table.cpuProc hr.table

theorem wait (ok : a.Ok) (cpu : Cpu) (hst : (a.proc p).state = .running) :
    ∃ s', s.wait cpu p = .ok (s', (a.wait cpu p).2) ∧ Represents s' (a.wait cpu p).1 := by
  obtain ⟨s₁, hrun, hr₁⟩ := hr.waitPass ok cpu hst
  unfold PTable.wait Queues.wait
  simp only [hrun, bind, Except.bind]
  rcases hpass : a.waitPass cpu p with ⟨res, a'⟩
  rw [hpass] at hr₁
  cases res with
  | reaped q pid => exact ⟨_, rfl, hr₁.upd fun t => (t.setKCtx p .outside).setLock none⟩
  | failed => exact ⟨_, rfl, hr₁.upd fun t => (t.setKCtx p .outside).setLock none⟩
  | sleeps => exact ⟨_, rfl, hr₁.upd fun t => t.setKCtx p .asleepInWait⟩

theorem resume (ok : a.Ok) (cpu : Cpu) (hst : (a.proc p).state = .running) :
    ∃ s', s.resume cpu p = .ok (s', (a.resume cpu p).2) ∧ Represents s' (a.resume cpu p).1 := by
  have ok₁ : (a.upd fun t => t.setChan p none).Ok := ok.setProc (fun _ => rfl) fun _ => rfl
  unfold PTable.resume Queues.resume
  rw [hr.kctx]
  cases a.kctx p with
  | asleep => exact ⟨_, rfl, hr.upd fun t => ((t.setChan p none).setKCtx p .outside).setLock none⟩
  | asleepInWait =>
    exact (hr.upd fun t => t.setChan p none).wait ok₁ cpu (by simpa using hst)
  | outside => exact ⟨_, rfl, hr.upd fun t => t.setLock none⟩
  | allocating np => exact ⟨_, rfl, hr.upd fun t => t.setLock none⟩
  | copying np => exact ⟨_, rfl, hr.upd fun t => t.setLock none⟩
  | linking np => exact ⟨_, rfl, hr.upd fun t => t.setLock none⟩

end

/-! ### Guards -/

variable {f : Slot → KCtx → Option PTable.Outcome} {g : Slot → KCtx → Queues.Next}

section

variable (hr : Represents s a)
  (hfg : ∀ p, a.cpuProc cpu = some p → Simulates (f p (a.kctx p)) (g p (a.kctx p)))

include hr hfg

theorem unlocked : Simulates (s.unlocked cpu f) (a.unlocked cpu g) := by
  unfold PTable.unlocked Queues.unlocked
  rw [hr.lock, hr.cpuProc, hr.kctx]
  by_cases hlock : a.lock = some cpu
  · simp only [if_pos hlock]
    exact Or.inl rfl
  · simp only [if_neg hlock]
    cases hcpu : a.cpuProc cpu with
    | none => exact Or.inl rfl
    | some p => exact hfg p hcpu

theorem locked : Simulates (s.locked cpu f) (a.locked cpu g) := by
  unfold PTable.locked Queues.locked
  rw [hr.lock]
  by_cases hlock : a.lock = none
  · simp only [if_pos hlock]
    exact hr.unlocked hfg
  · simp only [if_neg hlock]
    exact Or.inl rfl

end

theorem syscall (hr : Represents s a) {f : Slot → PTable.Outcome} {g : Slot → Queues.Next}
    (hfg : ∀ p, a.cpuProc cpu = some p → Simulates (some (f p)) (g p)) :
    Simulates (s.syscall cpu f) (a.syscall cpu g) := by
  apply hr.locked
  intro p hcpu
  by_cases hk : a.kctx p = .outside
  · simp only [if_pos hk]
    exact hfg p hcpu
  · simp only [if_neg hk]
    exact Or.inl rfl

/-! ### Steps -/

theorem step (hr : Represents s a) (inv : a.Inv) (act : Act) :
    Simulates (s.step act) (a.step act) := by
  have ok := inv.toOk
  have running : ∀ {cpu p}, a.cpuProc cpu = some p → (a.proc p).state = .running :=
    fun hcpu => inv.kernel.onCpu _ _ hcpu
  have taken : ∀ {p np}, (a.kctx p).child = some np → (a.proc np).state = .embryo :=
    fun hk => (inv.kernel.forking _ _ hk).1
  cases act with
  | tick => exact ⟨_, rfl, hr.upd _⟩
  | allocproc cpu =>
    apply hr.syscall
    intro p _
    obtain ⟨s₁, hrun, hr₁⟩ := hr.allocproc ok.toListsOk
    rcases halloc : a.allocproc with ⟨np, a'⟩
    rw [halloc] at hrun hr₁
    simp only [hrun, bind, Except.bind]
    cases np with
    | none => exact ⟨_, rfl, hr₁⟩
    | some np => exact ⟨_, rfl, hr₁.upd fun t => t.setKCtx p (.allocating np)⟩
  | kalloc cpu kstack =>
    cases kstack with
    | none =>
      apply hr.locked
      intro p _
      cases hk : a.kctx p with
      | allocating np =>
        obtain ⟨s₁, hrun, hr₁⟩ := hr.kallocFails ok.toListsOk (taken (by rw [hk]; rfl))
        simp only [hrun, bind, Except.bind]
        exact ⟨_, rfl, hr₁.upd fun t => t.setKCtx p .outside⟩
      | _ => exact Or.inl rfl
    | some kstack =>
      simp only [PTable.step, Queues.step]
      apply hr.unlocked
      intro p _
      cases hk : a.kctx p with
      | allocating np => exact ⟨_, rfl, (hr.upd _).upd _⟩
      | _ => exact Or.inl rfl
  | copyuvm cpu pgdir =>
    cases pgdir with
    | none =>
      apply hr.locked
      intro p _
      cases hk : a.kctx p with
      | copying np =>
        obtain ⟨s₁, hrun, hr₁⟩ := hr.copyuvmFails ok.toListsOk (taken (by rw [hk]; rfl))
        simp only [hrun, bind, Except.bind]
        exact ⟨_, rfl, hr₁.upd fun t => t.setKCtx p .outside⟩
      | _ => exact Or.inl rfl
    | some pgdir =>
      simp only [PTable.step, Queues.step]
      apply hr.unlocked
      intro p _
      cases hk : a.kctx p with
      | copying np => exact ⟨_, rfl, (hr.upd _).upd _⟩
      | _ => exact Or.inl rfl
  | forkFinish cpu =>
    apply hr.locked
    intro p _
    cases hk : a.kctx p with
    | linking np =>
      obtain ⟨s₁, hrun, hr₁⟩ := hr.forkFinish ok.toListsOk (taken (by rw [hk]; rfl))
      simp only [hrun, bind, Except.bind, hr.proc]
      exact ⟨_, rfl, hr₁.upd fun t => t.setKCtx p .outside⟩
    | _ => exact Or.inl rfl
  | exit cpu =>
    apply hr.syscall
    intro p hcpu
    by_cases hinit : some p = a.initproc
    · have hinit' : some p = s.initproc := by rw [hr.table, hinit]
      simp only [if_pos hinit, PTable.exit, if_pos hinit', bind, Except.bind]
      exact Or.inr rfl
    · obtain ⟨s₁, hrun, hr₁⟩ := hr.exit ok cpu hinit (running hcpu)
      simp only [if_neg hinit, hrun, bind, Except.bind]
      exact ⟨_, rfl, hr₁⟩
  | wait cpu =>
    apply hr.syscall
    intro p hcpu
    obtain ⟨s₁, hrun, hr₁⟩ := hr.wait ok cpu (running hcpu)
    simp only [hrun]
    exact ⟨_, rfl, hr₁⟩
  | scheduler cpu =>
    unfold PTable.step Queues.step
    rw [hr.lock, hr.cpuProc]
    by_cases hidle : a.lock = none ∧ a.cpuProc cpu = none
    · obtain ⟨s₁, hrun, hr₁⟩ := hr.scheduler ok cpu
      simp only [if_pos hidle, hrun, bind, Except.bind]
      exact ⟨_, rfl, hr₁⟩
    · simp only [if_neg hidle]
      exact Or.inl rfl
  | resume cpu =>
    unfold PTable.step Queues.step
    rw [hr.lock, hr.cpuProc]
    by_cases hlock : a.lock = some cpu
    · simp only [if_pos hlock]
      cases hcpu : a.cpuProc cpu with
      | none => exact Or.inl rfl
      | some p =>
        obtain ⟨s₁, hrun, hr₁⟩ := hr.resume ok cpu (running hcpu)
        simp only [hrun]
        exact ⟨_, rfl, hr₁⟩
    · simp only [if_neg hlock]
      exact Or.inl rfl
  | yield cpu =>
    apply hr.locked
    intro p hcpu
    obtain ⟨s₁, hrun, hr₁⟩ := hr.yield ok.toListsOk ok.live cpu (running hcpu)
    simp only [hrun, bind, Except.bind]
    exact ⟨_, rfl, hr₁⟩
  | sleep cpu ch =>
    apply hr.syscall
    intro p hcpu
    obtain ⟨s₁, hrun, hr₁⟩ := hr.sleep ok.toListsOk cpu (.addr ch) (running hcpu)
    simp only [hrun, bind, Except.bind]
    exact ⟨_, rfl, hr₁.upd _⟩
  | wakeup ch =>
    unfold PTable.step Queues.step
    rw [hr.lock]
    by_cases hlock : a.lock = none
    · obtain ⟨s₁, hrun, hr₁⟩ := hr.wakeup1 ok.toListsOk ok.live (some (.addr ch))
      simp only [if_pos hlock, hrun, bind, Except.bind]
      exact ⟨_, rfl, hr₁⟩
    · simp only [if_neg hlock]
      exact Or.inl rfl
  | kill cpu pid =>
    apply hr.syscall
    intro p _
    obtain ⟨s₁, hrun, hr₁⟩ := hr.kill ok pid
    simp only [hrun, bind, Except.bind]
    exact ⟨_, rfl, hr₁⟩
  | setpriority cpu pid priority =>
    apply hr.syscall
    intro p _
    obtain ⟨s₁, hrun, hr₁⟩ := hr.setpriority ok.toListsOk pid priority
    simp only [hrun, bind, Except.bind]
    exact ⟨_, rfl, hr₁⟩
  | trapKill cpu =>
    simp only [PTable.step, Queues.step]
    apply hr.unlocked
    intro p _
    by_cases hk : a.kctx p = .outside
    · simp only [if_pos hk]
      exact ⟨_, rfl, hr.upd _⟩
    · simp only [if_neg hk]
      exact Or.inl rfl

end Represents

/-! ### userinit -/

/-- The table after `userinit`: init alone, ready to run. -/
structure Table.Initial (t : Table) (p : Slot) : Prop where
  initproc : t.initproc = some p
  state : (t.proc p).state = .runnable
  prio : (t.proc p).prio = 0
  pid : (t.proc p).pid = 1
  parent : ∀ q, (t.proc q).parent = none
  killed : ∀ q, (t.proc q).killed = false
  unused : ∀ q, q ≠ p → (t.proc q).state = .unused
  idle : ∀ q, (t.proc q).cpuTicksTotal = 0
  born : (t.proc p).startTicks = t.ticks ∧ (t.proc p).budget = BitVec.ofNat 32 BUDGET
  nextpid : t.nextpid = 2
  lock : t.lock = none
  cpuProc : ∀ cpu, t.cpuProc cpu = none
  kctx : ∀ q, t.kctx q = .outside

variable {p : Slot} {rest : List Slot}

theorem Table.Initial.kernelOk {t : Table} (h : t.Initial p) : t.KernelOk := by
  have hctx : ∀ q np, (t.kctx q).child ≠ some np := by
    intro q np
    rw [h.kctx]
    simp [KCtx.child]
  refine ⟨?_, ?_, ?_, ?_, ?_, ?_, ?_⟩
  · intro cpu q hcpu
    simp [h.cpuProc] at hcpu
  · intro cpu cpu' q hcpu
    simp [h.cpuProc] at hcpu
  · intro q np hk
    exact absurd hk (hctx q np)
  · intro q q' np hk
    exact absurd hk (hctx q np)
  · intro q np hk
    simp [h.kctx] at hk
  · intro q hq
    by_cases hqp : q = p
    · rw [hqp, h.state] at hq
      cases hq
    · rw [h.unused q hqp] at hq
      cases hq
  · exact fun q _ => h.kctx q

namespace Represents

/-- The loop of `userinit` that fills the free list. -/
theorem foldl_pushFree (ps : List Slot) : ∀ (s : PTable) (a : Queues), Represents s a →
    (∀ p, (a.proc p).state = .unused) → ps.Nodup → (∀ p ∈ ps, ∀ l, p ∉ a.lists l) →
    Represents
      (ps.foldl (fun s curr => (s.upd fun t => t.setState curr .unused).pushHead .free curr) s)
      { a with lists := update a.lists .free (ps.reverse ++ a.lists .free) } := by
  induction ps with
  | nil =>
    intro s a hr _ _ _
    simpa using hr
  | cons p ps ih =>
    intro s a hr hun hnd hno
    obtain ⟨hp, hnd'⟩ := List.nodup_cons.mp hnd
    have hsame : (a.upd fun t => t.setState p .unused) = a := by
      have hproc : ({ a.proc p with state := .unused } : Proc) = a.proc p := by rw [← hun p]
      simp [Queues.upd, Table.setProc, hproc]
    have hr₁ := (hr.upd fun t => t.setState p .unused).pushHead (l := .free) (p := p) (by
      rw [hsame]
      exact hno p (by simp))
    rw [hsame] at hr₁
    have hr₂ := ih _ _ hr₁ hun hnd' (by
      intro q hq l
      have hqp : q ≠ p := fun hcon => hp (hcon ▸ hq)
      rw [pushHead_lists]
      by_cases hl : l = .free
      · subst hl
        rw [update_self]
        simpa [hqp] using hno q (by simp [hq]) .free
      · rw [update_of_ne hl]
        exact hno q (by simp [hq]) l)
    simpa [pushHead] using hr₂

end Represents

/-- The lists before the first `allocproc`. -/
def bootQueues (now : Uint) : Queues :=
  { toTable := { (PTable.boot now).toTable with
      promoteAtTime := BitVec.ofNat 32 TICKS_TO_PROMOTE }
    lists := update (fun _ => []) .free (List.finRange NPROC).reverse
    inserts := 0
    stamp := fun _ => 0 }

theorem represents_initLists (now : Uint) :
    Represents (PTable.boot now).initLists (bootQueues now) := by
  have hr : Represents ({ (PTable.boot now).upd fun t =>
      { t with promoteAtTime := BitVec.ofNat 32 TICKS_TO_PROMOTE } with pLists := fun _ => none })
      { bootQueues now with lists := fun _ => [] } := by
    refine ⟨rfl, rfl, rfl, rfl, ?_, ?_⟩
    · intro l
      simp
    · intro l m p hp
      simp at hp
  have hr₁ := Represents.foldl_pushFree (List.finRange NPROC) _ _ hr (fun _ => rfl)
    (List.nodup_finRange _) (by simp)
  simpa [PTable.initLists, bootQueues] using hr₁

theorem bootQueues_ok (now : Uint) : (bootQueues now).Ok := by
  have hlist : ∀ p, ((bootQueues now).proc p).list = .free := fun _ => rfl
  refine ⟨⟨?_, ?_, ?_⟩, ?_⟩
  · intro p l
    rw [hlist]
    by_cases hl : l = .free
    · subst hl
      simp [bootQueues]
    · simp [bootQueues, update_of_ne hl, Ne.symm hl]
  · intro l
    by_cases hl : l = .free
    · subst hl
      simp [bootQueues, List.nodup_finRange]
    · simp [bootQueues, update_of_ne hl]
  · intro p hp
    cases hp
  · rintro p (hp | hp) <;> cases hp

/-- `userinit` assigns the head pointer of the empty ready list itself. -/
theorem Represents.pushFirst (hr : Represents s a)
    (hempty : a.lists (.ready i) = []) (hno : ∀ l, p ∉ a.lists l) :
    Represents (((s.setHead (.ready i) (some p)).setNext p none).noteInsert p)
      (a.pushReady i p) := by
  obtain ⟨s', hrun, hr'⟩ := hr.insertTail (i := i) hno
  have hhead : s.pLists (.ready i) = none := by
    rw [(hr.chain (.ready i)).head, hempty]
    rfl
  simp only [PTable.insertTail, hhead, Except.ok.injEq, Prod.mk.injEq, true_and] at hrun
  rwa [← hrun] at hr'

/-- The lists after `userinit` has filled in the slot `p` for init. -/
def embryoQueues (now : Uint) (kstack pgdir : Addr) (p : Slot) : Queues :=
  ((bootQueues now).allocproc.2.upd fun t =>
    t.setProc p (Proc.allocprocFields kstack t.ticks)).upd fun t =>
      { t.setProc p (Proc.userinitFields pgdir) with initproc := some p }

/-- The lists after `userinit`. -/
def initQueues (now : Uint) (kstack pgdir : Addr) (p : Slot) : Queues :=
  (embryoQueues now kstack pgdir p).forkFinish p

theorem bootQueues_free (now : Uint) : ∃ p rest, (bootQueues now).lists .free = p :: rest ∧
      (bootQueues now).allocproc.1 = some p := by
  have hlists : (bootQueues now).lists .free = (List.finRange NPROC).reverse := by
    simp [bootQueues]
  rcases hfree : (bootQueues now).lists .free with _ | ⟨p, rest⟩
  · have hlen := congrArg List.length (hlists.symm.trans hfree)
    simp [NPROC] at hlen
  · refine ⟨p, rest, rfl, ?_⟩
    unfold allocproc
    rw [hfree]

section

variable (now : Uint) (kstack pgdir : Addr) (hfree : (bootQueues now).lists .free = p :: rest)

include now kstack pgdir hfree

theorem initQueues_initial : (initQueues now kstack pgdir p).toTable.Initial p := by
  have htable : (initQueues now kstack pgdir p).toTable =
      { ((bootQueues now).toTable.setProc p fun r =>
          { (({ r with state := .embryo, pid := 1 } : Proc).allocprocFields kstack
              now).userinitFields pgdir with state := .runnable }) with
        nextpid := 2, initproc := some p } := by
    simp only [initQueues, embryoQueues, allocproc, hfree, forkFinish,
      shiftHead, pushReady_toTable, upd_toTable, remove_toTable,
      pushHead_toTable, Table.setProc]
    simp [bootQueues, PTable.boot]
  rw [htable]
  refine ⟨rfl, ?_, ?_, ?_, ?_, ?_, ?_, ?_, ?_, rfl, rfl, fun _ => rfl, fun _ => rfl⟩
  · simp
  · simp [Proc.userinitFields, Proc.allocprocFields]
  · simp [Proc.userinitFields, Proc.allocprocFields]
  · intro q
    by_cases hq : q = p
    · subst hq; simp [Proc.userinitFields, Proc.allocprocFields, bootQueues, PTable.boot]
    · simp [hq, bootQueues, PTable.boot]
  · intro q
    by_cases hq : q = p
    · subst hq; simp [Proc.userinitFields, Proc.allocprocFields, bootQueues, PTable.boot]
    · simp [hq, bootQueues, PTable.boot]
  · intro q hq
    simp [hq, bootQueues, PTable.boot]
  · intro q
    by_cases hq : q = p
    · subst hq; simp [Proc.userinitFields, Proc.allocprocFields]
    · simp [hq, bootQueues, PTable.boot]
  · simp [Proc.userinitFields, Proc.allocprocFields, bootQueues, PTable.boot]

theorem embryoQueues_ok : (embryoQueues now kstack pgdir p).Ok ∧
      ((embryoQueues now kstack pgdir p).proc p).state = .embryo ∧
      ((embryoQueues now kstack pgdir p).proc p).prio = 0 := by
  have ok₁ := (bootQueues_ok now).allocproc
  have hemb : ((bootQueues now).allocproc.2.proc p).state = .embryo := by
    simp [allocproc, hfree, shiftHead]
  have ok₂ : ((bootQueues now).allocproc.2.upd fun t =>
      t.setProc p (Proc.allocprocFields kstack t.ticks)).Ok := by
    refine ⟨ok₁.toListsOk.setProc rfl ?_, Table.PrioOk.setProc ok₁.live ?_⟩
    · simp [hemb]
    · simp [Proc.allocprocFields, hemb]
  have ok₃ := ok₂.setProc (p := p) (f := Proc.userinitFields pgdir) (fun _ => rfl) fun _ => rfl
  refine ⟨ok₃.upd (fun t => { t with initproc := some p }) rfl, ?_, ?_⟩
  · simpa [embryoQueues, Proc.userinitFields, Proc.allocprocFields] using hemb
  · simp [embryoQueues, Proc.userinitFields, Proc.allocprocFields]

theorem initQueues_ok : (initQueues now kstack pgdir p).Ok := by
  obtain ⟨ok, hst, hprio⟩ := embryoQueues_ok now kstack pgdir hfree
  exact ok.forkFinish hst hprio

end

theorem AfterUserinit.queues (h : AfterUserinit s) :
    ∃ now kstack pgdir p rest, (bootQueues now).lists .free = p :: rest ∧
      Represents s (initQueues now kstack pgdir p) := by
  obtain ⟨now, kstack, pgdir, hrun⟩ := h
  obtain ⟨p, rest, hfree, hp⟩ := bootQueues_free now
  obtain ⟨s₁, hrun₁, hr₁⟩ := (represents_initLists now).allocproc (bootQueues_ok now).toListsOk
  have ok₁ := (bootQueues_ok now).allocproc
  unfold PTable.userinit at hrun
  rw [hrun₁, hp] at hrun
  simp only [bind, Except.bind] at hrun
  cases kstack with
  | none => simp at hrun
  | some kstack =>
    cases pgdir with
    | none => simp at hrun
    | some pgdir =>
      refine ⟨now, kstack, pgdir, p, rest, hfree, ?_⟩
      obtain ⟨ok, hst, -⟩ := embryoQueues_ok now kstack pgdir hfree
      have hr₂ : Represents _ (embryoQueues now kstack pgdir p) := (hr₁.upd fun t =>
        t.setProc p (Proc.allocprocFields kstack t.ticks)).upd fun t =>
          { t.setProc p (Proc.userinitFields pgdir) with initproc := some p }
      obtain ⟨s₃, hrun₃, hr₃, hno⟩ := hr₂.take ok.toListsOk (Proc.list_eq_embryo.mpr hst)
      simp only [PTable.allocprocDone, hrun₃, hr₃.assertState hst, pure, Except.pure,
        Except.ok.injEq] at hrun
      rw [← hrun]
      have hempty : (embryoQueues now kstack pgdir p).lists (.ready 0) = [] := by
        simp only [embryoQueues, allocproc, hfree, shiftHead]
        simp [bootQueues]
      exact (hr₃.upd fun t => t.setState p .runnable).pushFirst (i := 0) (by simpa using hempty) hno

/-! ### Steps that can be taken -/

namespace Queues

variable {a : Queues}

/-- `allocproc` takes the first slot of the free list as it finds it. -/
theorem step_allocproc (hcall : a.Calls cpu p .outside) (hfree : a.lists .free = np :: rest) :
    ∃ a', a.step (.allocproc cpu) = some (a', [.born np]) ∧
      (a'.proc np).killed = (a.proc np).killed := by
  obtain ⟨⟨hlock, hcpu, hk⟩, hnone⟩ := hcall
  refine ⟨a.allocproc.2.upd fun t => t.setKCtx p (.allocating np), ?_, ?_⟩
  · simp [step, syscall, locked, unlocked, hnone, hcpu, hk, allocproc, hfree]
  · simp [allocproc, hfree, shiftHead]

theorem step_kallocFails (hcall : a.Calls cpu p (.allocating np)) :
    ∃ a', a.step (.kalloc cpu none) = some (a', [.forkRet p (-1)]) := by
  obtain ⟨⟨hlock, hcpu, hk⟩, hnone⟩ := hcall
  exact ⟨_, by simp only [step, locked, unlocked, hnone, hcpu, hk]; rfl⟩

end Queues

/-! ### Runs -/

/-- The runs of the list code. -/
def queueSystem : TransitionSystem Queues Act Ev where
  init a := ∃ now kstack pgdir p rest, (bootQueues now).lists .free = p :: rest ∧
    a = initQueues now kstack pgdir p
  step := step

theorem queueSystem_inv (ha : queueSystem.Reachable a) : a.Inv := by
  apply ha.invariant (P := Queues.Inv)
  · rintro a ⟨now, kstack, pgdir, p, rest, hfree, rfl⟩
    exact ⟨initQueues_ok now kstack pgdir hfree,
      (initQueues_initial now kstack pgdir hfree).kernelOk⟩
  · intro a act a' ev inv hstep
    exact inv.step hstep

theorem procSystem_step : procSystem.step s act = some r ↔ s.step act = some (.ok r) := by
  unfold procSystem
  rcases hstep : s.step act with _ | (e | r') <;> simp [hstep]

theorem simulation : TransitionSystem.Simulation procSystem queueSystem Represents := by
  constructor
  · intro s hs
    obtain ⟨now, kstack, pgdir, p, rest, hfree, hr⟩ := AfterUserinit.queues hs
    exact ⟨_, ⟨now, kstack, pgdir, p, rest, hfree, rfl⟩, hr⟩
  · intro s a act s' ev hr ha hstep
    rw [procSystem_step] at hstep
    have hsim := hr.step (queueSystem_inv ha) act
    rcases hq : a.step act with _ | ⟨a', ev'⟩
    · rw [hq] at hsim
      rcases hsim with h | h <;> simp [h] at hstep
    · rw [hq] at hsim
      obtain ⟨s'', hs'', hr'⟩ := hsim
      rw [hs''] at hstep
      simp only [Option.some.injEq, Except.ok.injEq, Prod.mk.injEq] at hstep
      obtain ⟨rfl, rfl⟩ := hstep
      exact ⟨a', hq, hr'⟩

/-- The pointer code can take the steps that the list code can. -/
theorem Represents.step_some (hr : Represents s a)
    (ha : queueSystem.Reachable a) (h : a.step act = some (a', ev)) :
    ∃ s', procSystem.step s act = some (s', ev) ∧ Represents s' a' := by
  have hsim := hr.step (queueSystem_inv ha) act
  rw [h] at hsim
  obtain ⟨s', hs', hr'⟩ := hsim
  exact ⟨s', procSystem_step.mpr hs', hr'⟩

/-- Every reachable process table represents lists that satisfy the invariant. -/
theorem reachable_represents (hs : procSystem.Reachable s) :
    ∃ a, queueSystem.Reachable a ∧ Represents s a := simulation.reachable hs

/-- What a step from a reachable state does to the table. -/
theorem reachable_step (hs : procSystem.Reachable s) (h : procSystem.step s act = some (s', ev)) :
    s.KernelOk ∧ s.toTable.Step act ev s'.toTable := by
  obtain ⟨a, ha, hr⟩ := reachable_represents hs
  have inv := queueSystem_inv ha
  obtain ⟨a', hstep, hr'⟩ := simulation.step _ _ _ _ _ hr ha h
  rw [hr.table, hr'.table]
  exact ⟨inv.kernel, table_step inv.toOk hstep⟩

theorem init_initial (hs : procSystem.init s) : ∃ p, s.toTable.Initial p := by
  obtain ⟨now, kstack, pgdir, p, rest, hfree, hr⟩ := AfterUserinit.queues hs
  rw [hr.table]
  exact ⟨p, initQueues_initial now kstack pgdir hfree⟩

/-- Invariants of the table alone. -/
theorem table_invariant {P : Table → Prop} (hinit : ∀ t p, t.Initial p → P t)
    (hstep : ∀ t act ev t', t.KernelOk → P t → t.Step act ev t' → P t')
    (hs : procSystem.Reachable s) : P s.toTable := by
  apply hs.invariant_of (P := fun s => P s.toTable) (Q := procSystem.Reachable) (fun _ h => h)
  · intro s h0
    obtain ⟨p, hp⟩ := init_initial h0
    exact hinit _ p hp
  · intro s act s' ev hr hP h
    obtain ⟨ok, ht⟩ := reachable_step hr h
    exact hstep _ act ev _ ok hP ht

/-! ### Whole runs -/

def Tracks (s : PTable) (a : Queues) : Prop := Represents s a ∧ a.Inv

theorem Tracks.agree (act : Act) (h : Tracks s a) :
    TransitionSystem.Agree Tracks (procSystem.step s act) (queueSystem.step a act) := by
  have hsim := h.1.step h.2 act
  unfold procSystem queueSystem
  dsimp only
  rcases hq : a.step act with _ | ⟨a', ev⟩
  · rw [hq] at hsim
    rcases hsim with hsim | hsim <;> rw [hsim] <;> exact .none
  · rw [hq] at hsim
    obtain ⟨s', hs, hr⟩ := hsim
    rw [hs]
    exact .some ⟨⟨hr, h.2.step hq⟩, rfl⟩

/-- The pointer code and the list code can take the same runs, with the same events, and the
    pointers represent the lists all the time. -/
theorem pointer_code_runs_as_lists (hs : procSystem.init s) : ∃ a, queueSystem.init a ∧ ∀ acts,
    TransitionSystem.Agree Tracks (procSystem.run s acts) (queueSystem.run a acts) := by
  obtain ⟨a, ha, hr⟩ := simulation.init _ hs
  have hstart : Tracks s a := ⟨hr, queueSystem_inv (.init ha)⟩
  exact ⟨a, ha, fun acts => TransitionSystem.run_agree (fun _ _ act h => h.agree act) acts hstart⟩

theorem pointer_code_runs_as_lists_booted : ∃ a, queueSystem.init a ∧ ∀ acts,
    TransitionSystem.Agree Tracks (procSystem.run bootedTable acts) (queueSystem.run a acts) :=
  pointer_code_runs_as_lists bootedTable_init

end Xv6Kernel
