/-
  ExitWait.lean
  =============
  The hand-off between `exit` and `wait`.

  A process that sleeps in `wait` has no zombie child: it looked for one before it went to
  sleep, and whoever makes it the parent of a zombie afterwards wakes it.  For its own
  parent `exit` does so first thing, while it is not yet a zombie, but the lock is held
  until it is one; for init it does so when it passes a zombie on.

  Each time a process exits, at most one `wait` returns it.  `Ev.follow` is the automaton
  that accepts the events of such a history of one slot.
-/
import Xv6Kernel.Pids
import Xv6Kernel.ProcTree
import Xv6Kernel.StateLists

namespace Xv6Kernel

namespace Table

/-- `p` sleeps in `wait`. -/
def InWait (t : Table) (p : Slot) : Prop :=
  (t.proc p).state = .sleeping ∧ (t.proc p).chan = some (.proc p)

def NoMissedChild (t : Table) : Prop := ∀ p, t.InWait p → ¬ t.HasZombie p

/-- Nobody has gone to sleep in `wait`. -/
def FewerWaits (t t' : Table) : Prop := ∀ p, t'.InWait p → t.InWait p

variable {t t' u : Table} {p q : Slot} {ev : List Ev}

namespace FewerWaits

theorem trans (h : t.FewerWaits t') (h' : t'.FewerWaits t'') : t.FewerWaits t'' :=
  fun p hp => h p (h' p hp)

theorem congr (hproc : t'.proc = t.proc) : t.FewerWaits t' := by
  intro p hp
  unfold InWait at hp ⊢
  rwa [hproc] at hp

variable {f : Proc → Proc}

theorem setProc (hf : (f (t.proc q)).state = .sleeping →
    (f (t.proc q)).chan = some (.proc q) → t.InWait q) : t.FewerWaits (t.setProc q f) := by
  intro r hr
  by_cases hrq : r = q
  · subst hrq
    unfold InWait at hr
    simp only [setProc_proc, Function.update_self] at hr
    exact hf hr.1 hr.2
  · unfold InWait at hr ⊢
    simpa only [setProc_proc, Function.update_of_ne hrq] using hr

theorem setProc_same (hst : (f (t.proc q)).state = (t.proc q).state)
    (hchan : (f (t.proc q)).chan = (t.proc q).chan) : t.FewerWaits (t.setProc q f) :=
  setProc fun h h' => ⟨hst ▸ h, hchan ▸ h'⟩

theorem setProc_awake (hst : (f (t.proc q)).state ≠ .sleeping) : t.FewerWaits (t.setProc q f) :=
  setProc fun h _ => absurd h hst

theorem leaveCpu : t.FewerWaits (t.leaveCpu cpu p) :=
  (setProc_same (f := Proc.schedTicks t.ticks) (q := p) rfl rfl).trans (congr rfl)

theorem wakeup1 : t.FewerWaits (t.wakeup1 chan) := by
  intro r hr
  unfold InWait at hr ⊢
  rw [wakeup1_proc] at hr
  split_ifs at hr with h
  · simp at hr
  · exact hr

theorem reprio (h : t.Reprio t') : t.FewerWaits t' := by
  intro r hr
  unfold InWait at hr ⊢
  rw [h.proc r] at hr
  exact hr

end FewerWaits

theorem budgetupdate_chan (now : Uint) (r : Proc) : (r.budgetupdate now).chan = r.chan := by
  unfold Proc.budgetupdate
  by_cases h : (r.budget - (now - r.cpuTicksIn)).toInt ≤ 0
  · simp only [h, if_true]
  · simp only [h, if_false]

namespace NoMissedChild

/-- Nobody goes to sleep in `wait`, and nobody gets a zombie child. -/
theorem mono (h : t.NoMissedChild) (hw : t.FewerWaits t')
    (hz : ∀ z q, (t'.proc z).state = .zombie → (t'.proc z).parent = some q →
      (t.proc z).state = .zombie ∧ (t.proc z).parent = some q) : t'.NoMissedChild := by
  rintro r hr ⟨z, hzombie, hparent⟩
  exact h r (hw r hr) ⟨z, hz z r hzombie hparent⟩

theorem quiet (h : t.NoMissedChild) (hw : t.FewerWaits t') (hq : t.Quiet t') : t'.NoMissedChild :=
  h.mono hw fun z _ hz hp => ⟨(hq.zombie z).mp hz, (hq.parent z).symm.trans hp⟩

/-- A slot that is no zombie afterwards changes. -/
theorem setProc (h : t.NoMissedChild)
    (hst : (f (t.proc q)).state ≠ .sleeping) (hz : (f (t.proc q)).state ≠ .zombie) :
    ((t.setProc q f).setKCtx p k).NoMissedChild := by
  apply h.mono ((FewerWaits.setProc_awake hst).trans (FewerWaits.congr rfl))
  intro z r hzombie hparent
  have hzq : z ≠ q := by
    rintro rfl
    exact hz (by simpa using hzombie)
  simp only [setProc_proc, Function.update_of_ne hzq] at hzombie hparent
  exact ⟨hzombie, hparent⟩

theorem congr (h : t.NoMissedChild) (hproc : t'.proc = t.proc) : t'.NoMissedChild := by
  apply h.mono (FewerWaits.congr hproc)
  intro z r hz hp
  rw [hproc] at hz hp
  exact ⟨hz, hp⟩

theorem waitPass (h : u.NoMissedChild) (hp : (u.proc p).state = .running)
    (hw : WaitPass cpu p u ev t') : t'.NoMissedChild := by
  cases hw with
  | @reaped q _ _ =>
    have hreap : ((u.reap q).setKCtx p .outside).NoMissedChild :=
      h.setProc (by simp [Proc.reapFields]) (by simp [Proc.reapFields])
    exact hreap.congr rfl
  | failed _ _ => exact h.congr rfl
  | sleeps hno =>
    have hquiet : u.Quiet (u.sleep cpu p (.proc p)) := Quiet.sleep hp
    rintro r hr ⟨z, hz, hparent⟩
    have hzr : u.HasZombie r := ⟨z, (hquiet.zombie z).mp hz, (hquiet.parent z).symm.trans hparent⟩
    by_cases hrp : r = p
    · subst hrp
      exact hno hzr
    · have hr' : u.InWait r := by
        unfold InWait at hr ⊢
        simpa [Table.sleep, Table.leaveCpu, hrp] using hr
      exact h r hr' hzr

end NoMissedChild

/-- A process that is still asleep after a wakeup was not meant by it. -/
theorem wakeup1_inWait (h : (t.wakeup1 chan).InWait q) : t.InWait q ∧ chan ≠ some (.proc q) := by
  refine ⟨FewerWaits.wakeup1 q h, ?_⟩
  rintro rfl
  have hq := FewerWaits.wakeup1 q h
  unfold InWait at h hq
  rw [wakeup1_proc, if_pos hq] at h
  cases h.1

/-- The processes that `exit` leaves asleep in `wait`: not the parent of the caller, and
    not init if the caller has a zombie child. -/
theorem handOver_inWait (h : (t.handOver p).InWait q) : t.InWait q ∧
    (t.proc p).parent ≠ some q ∧ (t.HasZombie p → t.initproc ≠ some q) := by
  have hwoken : (t.wakeup1 ((t.proc p).parent.map Chan.proc)).InWait q ∧
      (t.HasZombie p → t.initproc ≠ some q) := by
    have hzombie : t.HasZombie p → (t.wakeup1 ((t.proc p).parent.map Chan.proc)).HasZombie p := by
      have hquiet : t.Quiet (t.wakeup1 ((t.proc p).parent.map Chan.proc)) := Quiet.wakeup1
      rintro ⟨z, hz, hparent⟩
      exact ⟨z, (hquiet.zombie z).mpr hz, (hquiet.parent z).trans hparent⟩
    have hpass : ∀ v : Table, (v.passToInit p fun q => (v.proc q).state ≠ .unused).InWait q →
        v.InWait q := by
      intro v hv
      unfold InWait at hv ⊢
      rw [passToInit_proc] at hv
      split_ifs at hv <;> exact hv
    unfold handOver abandon at h
    by_cases hz : (t.wakeup1 ((t.proc p).parent.map Chan.proc)).HasZombie p
    · rw [if_pos hz] at h
      obtain ⟨h₁, hinit⟩ := wakeup1_inWait h
      refine ⟨hpass _ h₁, fun _ hcon => hinit ?_⟩
      have hcon' : (t.wakeup1 ((t.proc p).parent.map Chan.proc)).initproc = some q := hcon
      rw [hcon']
      rfl
    · rw [if_neg hz] at h
      exact ⟨hpass _ h, fun hcon => absurd (hzombie hcon) hz⟩
  obtain ⟨hq, hparent⟩ := wakeup1_inWait hwoken.1
  refine ⟨hq, ?_, hwoken.2⟩
  intro hcon
  rw [hcon] at hparent
  exact hparent rfl

namespace NoMissedChild

theorem exit (ok : t.KernelOk) (tree : t.Tree) (h : t.NoMissedChild)
    (hcall : t.Calls cpu p .outside) : (t.exit cpu p).NoMissedChild := by
  have hrun : (t.proc p).state = .running := ok.onCpu cpu p hcall.cpu
  have hself := tree.parent_ne_self (p := p) (by simp [hrun, ProcState.Started, ProcState.Live])
  have hset : ((t.handOver p).setState p .zombie).NoMissedChild := by
    rintro r hr ⟨z, hz, hparent⟩
    have hrp : r ≠ p := by
      rintro rfl
      simp [InWait] at hr
    have hr' : (t.handOver p).InWait r := by
      unfold InWait at hr ⊢
      simpa [hrp] using hr
    obtain ⟨hwait, hnotParent, hnotInit⟩ := handOver_inWait hr'
    have hparent' : (((t.handOver p).proc z)).parent = some r := by
      by_cases hzp : z = p
      · subst hzp
        simpa using hparent
      · simpa [hzp] using hparent
    rw [handOver_parent] at hparent'
    by_cases hzp : z = p
    · -- the new zombie: its parent has been woken
      subst hzp
      rw [if_neg (by simp [hself])] at hparent'
      exact hnotParent hparent'
    · have hz' : (t.proc z).state = .zombie := by
        have hz₁ : ((t.handOver p).proc z).state = .zombie := by simpa [hzp] using hz
        rwa [← ProcState.stage_zombie, handOver_stage, ProcState.stage_zombie] at hz₁
      by_cases hzparent : (t.proc z).parent = some p
      · -- a zombie child of the caller: init has been woken
        rw [if_pos ⟨by simp [hz'], hzparent⟩] at hparent'
        exact hnotInit ⟨z, hz', hzparent⟩ hparent'
      · rw [if_neg (by simp [hzparent])] at hparent'
        exact h r hwait ⟨z, hz', hparent'⟩
  exact hset.quiet FewerWaits.leaveCpu Quiet.leaveCpu

theorem step (ok : t.KernelOk) (tree : t.Tree) (h : t.NoMissedChild) (hs : t.Step act ev t') :
    t'.NoMissedChild := by
  have forking : ∀ {p np k}, t.kctx p = k → k.child = some np → (t.proc np).state = .embryo :=
    fun hk hnp => (ok.forking _ _ (hk ▸ hnp)).1
  cases hs with
  | tick => exact h.congr rfl
  | noSlot _ _ => exact h
  | @allocproc cpu p np _ _ =>
    have hset : ((t.setProc np fun r => { r with state := .embryo, pid := t.nextpid }).setKCtx p
        (.allocating np)).NoMissedChild := h.setProc (by simp) (by simp)
    exact hset.congr rfl
  | kallocFails _ => exact h.setProc (by simp) (by simp)
  | kalloc hruns =>
    have hemb := forking hruns.kctx rfl
    exact h.setProc (by simp [Proc.allocprocFields, hemb]) (by simp [Proc.allocprocFields, hemb])
  | copyuvmFails _ => exact h.setProc (by simp) (by simp)
  | copyuvm hruns =>
    have hemb := forking hruns.kctx rfl
    exact h.setProc (by simp [Proc.forkFields, hemb]) (by simp [Proc.forkFields, hemb])
  | forkFinish _ => exact h.setProc (by simp) (by simp)
  | exit hcall _ => exact h.exit ok tree hcall
  | wait hcall hw => exact h.waitPass (ok.onCpu _ _ hcall.cpu) hw
  | idle _ _ hre _ => exact h.quiet (FewerWaits.reprio hre) (Quiet.reprio hre)
  | @dispatch cpu p t₁ _ _ hre hp _ =>
    have hset : t₁.FewerWaits
        (t₁.setProc p fun r => { r with state := .running, cpuTicksIn := t₁.ticks }) :=
      FewerWaits.setProc_awake (by simp)
    have hdis : t₁.FewerWaits (t₁.dispatch cpu p) := hset.trans (FewerWaits.congr rfl)
    exact h.quiet ((FewerWaits.reprio hre).trans hdis)
      ((Quiet.reprio hre).trans (Quiet.dispatch (by rw [hre.state, hp])))
  | resume _ _ _ _ => exact h.congr rfl
  | @resumeAsleep cpu p _ hcpu _ =>
    have hrun := ok.onCpu cpu p hcpu
    have hset : ((t.setChan p none).setKCtx p .outside).NoMissedChild :=
      h.setProc (by simp [hrun]) (by simp [hrun])
    exact hset.congr rfl
  | @resumeInWait cpu p _ _ _ hcpu _ hw =>
    have hrun := ok.onCpu cpu p hcpu
    have hset : (t.setChan p none).NoMissedChild :=
      h.quiet (FewerWaits.setProc_awake (by simp [hrun])) (Quiet.setProc rfl)
    exact hset.waitPass (by simp [hrun]) hw
  | @yield cpu p k hcall =>
    have hrun := ok.onCpu cpu p hcall.cpu
    have hset : t.FewerWaits (t.yield cpu p) := by
      refine FewerWaits.trans (FewerWaits.setProc_awake ?_) FewerWaits.leaveCpu
      rw [Proc.budgetupdate_state]
      simp
    exact h.quiet hset (Quiet.yield hrun)
  | @sleep cpu p a hcall =>
    have hrun := ok.onCpu cpu p hcall.cpu
    have hset : t.FewerWaits (t.sleep cpu p (.addr a)) := by
      refine FewerWaits.trans (FewerWaits.setProc ?_) FewerWaits.leaveCpu
      intro _ hchan
      rw [budgetupdate_chan] at hchan
      simp at hchan
    exact (h.quiet hset (Quiet.sleep hrun)).congr rfl
  | wakeup _ => exact h.quiet FewerWaits.wakeup1 Quiet.wakeup1
  | @kill cpu p pid q _ _ _ =>
    have hset : t.FewerWaits (t.kill q) := by
      apply FewerWaits.setProc_awake
      by_cases hq : (t.proc q).state = .sleeping
      · simp [hq]
      · simp [hq]
    apply h.mono hset
    intro z r hz hparent
    have hk : (t.setKilled q).Quiet (t.kill q) := Quiet.kill
    have hz' := (hk.zombie z).mp hz
    have hp' := (hk.parent z).symm.trans hparent
    by_cases hzq : z = q
    · subst hzq
      exact ⟨by simpa using hz', by simpa using hp'⟩
    · exact ⟨by simpa [hzq] using hz', by simpa [hzq] using hp'⟩
  | killMiss _ _ => exact h
  | @setpriority cpu p pid n q f _ _ _ hf =>
    rcases hf with rfl | rfl
    · exact h.quiet (FewerWaits.setProc_same rfl rfl) (Quiet.setProc rfl)
    · exact h.quiet (FewerWaits.setProc_same rfl rfl) (Quiet.setProc rfl)
  | setpriorityMiss _ => exact h
  | @trapKill cpu p hruns =>
    have hrun := ok.onCpu cpu p hruns.cpu
    have hset : ((t.setKilled p).setKCtx p (t.kctx p)).NoMissedChild :=
      h.setProc (by simp [hrun]) (by simp [hrun])
    exact hset.congr rfl

end NoMissedChild

end Table

theorem reachable_noMissedChild (hs : procSystem.Reachable s) : s.NoMissedChild := by
  have h : s.Tree ∧ s.NoMissedChild := by
    apply table_invariant (P := fun t => t.Tree ∧ t.NoMissedChild) _ _ hs
    · intro t p hinit
      refine ⟨hinit.tree, ?_⟩
      rintro r hr ⟨z, hz, -⟩
      by_cases hzp : z = p
      · rw [hzp, hinit.state] at hz
        cases hz
      · rw [hinit.unused z hzp] at hz
        cases hz
    · intro t act ev t' ok h hstep
      exact ⟨h.1.step ok hstep, h.2.step ok h.1 hstep⟩
  exact h.2

/-! ### Exits and returns -/

/-- Whether `q` is a zombie after an event, or nothing if the event does not fit: only a
    process that is alive exits, and only a zombie is returned by `wait`. -/
def Ev.follow (q : Slot) (z : Bool) : Ev → Option Bool
  | .exited r => if r = q then (if z then none else some true) else some z
  | .waitRet _ (some r) _ => if r = q then (if z then some false else none) else some z
  | _ => some z

/-- The events are not about the end of `q`. -/
structure NotEnding (q : Slot) (ev : List Ev) : Prop where
  exited : Ev.exited q ∉ ev
  returned : ∀ p v, Ev.waitRet p (some q) v ∉ ev

variable {q : Slot} {ev : List Ev}

theorem NotEnding.of_quiet (hev : ∀ e ∈ ev, e.Quiet) : NotEnding q ev :=
  ⟨fun h => hev _ h, fun _ _ h => hev _ h⟩

theorem NotEnding.follow (h : NotEnding q ev) (z : Bool) : ev.foldlM (Ev.follow q) z = some z := by
  induction ev with
  | nil => rfl
  | cons e ev ih =>
    have he : e.follow q z = some z := by
      cases e with
      | exited r =>
        have hr : r ≠ q := by
          rintro rfl
          exact h.exited (by simp)
        simp [Ev.follow, hr]
      | waitRet p r v =>
        cases r with
        | none => rfl
        | some r =>
          have hr : r ≠ q := by
            rintro rfl
            exact h.returned p v (by simp)
          simp [Ev.follow, hr]
      | _ => rfl
    rw [List.foldlM_cons, he]
    exact ih ⟨fun hx => h.exited (by simp [hx]), fun p v hx => h.returned p v (by simp [hx])⟩

/-- A process that does not exit does not become a zombie. -/
theorem follow_false (hno : Ev.exited q ∉ ev)
    (h : ev.foldlM (Ev.follow q) false = some z) : z = false := by
  induction ev with
  | nil => exact (Option.some.inj h).symm
  | cons e ev ih =>
    rw [List.foldlM_cons] at h
    obtain ⟨z', hz', hrest⟩ := Option.bind_eq_some_iff.mp h
    have hfalse : z' = false := by
      cases e with
      | exited r =>
        have hr : r ≠ q := by
          rintro rfl
          simp at hno
        simpa [Ev.follow, hr] using hz'.symm
      | waitRet p r v =>
        cases r with
        | none => exact (Option.some.inj hz').symm
        | some r =>
          by_cases hr : r = q
          · simp [Ev.follow, hr] at hz'
          · simpa [Ev.follow, hr] using hz'.symm
      | _ => exact (Option.some.inj hz').symm
    rw [hfalse] at hrest
    exact ih (fun hcon => hno (by simp [hcon])) hrest

/-- Between two returns of the same slot there is an exit. -/
theorem exited_between (h : ev.foldlM (Ev.follow q) z = some z')
    (hev : ev = ev₁ ++ .waitRet p (some q) v :: ev₂ ++ .waitRet p' (some q) v' :: ev₃) :
    Ev.exited q ∈ ev₂ := by
  by_contra hno
  rw [hev, List.foldlM_append, List.foldlM_append] at h
  obtain ⟨z₂, h₂, h₃⟩ := Option.bind_eq_some_iff.mp h
  obtain ⟨z₁, -, h₁₂⟩ := Option.bind_eq_some_iff.mp h₂
  rw [List.foldlM_cons] at h₁₂ h₃
  obtain ⟨y, hy, hfold⟩ := Option.bind_eq_some_iff.mp h₁₂
  have hfalse : y = false := by
    cases z₁ with
    | false => simp [Ev.follow] at hy
    | true => simpa [Ev.follow] using hy.symm
  rw [hfalse] at hfold
  rw [follow_false hno hfold] at h₃
  simp [Ev.follow] at h₃

/-! ### What a step does to a slot -/

/-- The part of a step in the life of `q`. -/
inductive Table.Life (t : Table) (ev : List Ev) (t' : Table) (q : Slot) : Prop where
  | goesOn : NotEnding q ev → ((t'.proc q).state = .zombie ↔ (t.proc q).state = .zombie) →
      ((t.proc q).state = .zombie → (t'.proc q).pid = (t.proc q).pid) → Life t ev t' q
  | exits : ev = [.exited q] → (t.proc q).state ≠ .zombie → (t'.proc q).state = .zombie →
      Life t ev t' q
  | returned {p : Slot} : ev = [.waitRet p (some q) (t.proc q).pid.toInt] →
      (t.proc q).state = .zombie → (t.proc q).parent = some p → (t'.proc q).state = .unused →
      Life t ev t' q

namespace Table

variable {t t' : Table} {cpu : Cpu} {p q np : Slot} {act : Act} {ev : List Ev}

/-- A step that changes one slot, which is no zombie before and after. -/
theorem Life.onlyChanges (np : Slot) (hev : NotEnding q ev)
    (hother : ∀ r, r ≠ np → t'.proc r = t.proc r) (hst : (t.proc np).state ≠ .zombie)
    (hst' : (t'.proc np).state ≠ .zombie) : t.Life ev t' q := by
  refine .goesOn hev ?_ ?_
  · by_cases hq : q = np
    · subst hq
      exact ⟨fun h => absurd h hst', fun h => absurd h hst⟩
    · rw [hother q hq]
  · intro hz
    rw [hother q (by rintro rfl; exact hst hz)]

theorem Life.quiet (h : t.Life ev u q) (hq : u.Quiet t') : t.Life ev t' q := by
  cases h with
  | goesOn hev hz hpid =>
    exact .goesOn hev ((hq.zombie q).trans hz) fun h => (hq.pid q).trans (hpid h)
  | exits hev hz hz' => exact .exits hev hz ((hq.zombie q).mpr hz')
  | returned hev hz hp hu => exact .returned hev hz hp ((hq.unused q).mpr hu)

theorem Change.life (ok : t.KernelOk) (h : t.Change act ev t') (q : Slot) : t.Life ev t' q := by
  have forking : ∀ {p np k}, t.kctx p = k → k.child = some np → (t.proc np).state = .embryo :=
    fun hk hnp => (ok.forking _ _ (hk ▸ hnp)).1
  cases h with
  | quiet hq hev =>
    exact .goesOn (.of_quiet hev) (hq.zombie q) fun _ => hq.pid q
  | @born _ _ np _ hnp =>
    exact .onlyChanges np ⟨by simp, by simp⟩ (fun r hr => by simp [Table.allocproc, hr])
      (by simp [hnp]) (by simp [Table.allocproc])
  | @kallocFails _ _ np hcall =>
    have hemb := forking hcall.kctx rfl
    exact .onlyChanges np ⟨by simp, by simp⟩ (fun r hr => by simp [Table.kallocFails, hr])
      (by simp [hemb]) (by simp [Table.kallocFails])
  | @copyuvmFails _ _ np hcall =>
    have hemb := forking hcall.kctx rfl
    exact .onlyChanges np ⟨by simp, by simp⟩ (fun r hr => by simp [Table.copyuvmFails, hr])
      (by simp [hemb]) (by simp [Table.copyuvmFails])
  | @copyuvm _ _ np _ hruns =>
    have hemb := forking hruns.kctx rfl
    exact .onlyChanges np ⟨by simp, by simp⟩ (fun r hr => by simp [hr]) (by simp [hemb])
      (by simp [Proc.forkFields, hemb])
  | @forkFinish _ _ np hcall =>
    have hemb := forking hcall.kctx rfl
    exact .onlyChanges np ⟨by simp, by simp⟩ (fun r hr => by simp [hr]) (by simp [hemb]) (by simp)
  | @exit cpu p hcall _ =>
    have hset : t.Life [.exited p] ((t.handOver p).setState p .zombie) q := by
      by_cases hqp : q = p
      · subst hqp
        exact .exits rfl (by simp [ok.onCpu cpu q hcall.cpu]) (by simp)
      · have hproc : ((t.handOver p).setState p .zombie).proc q = (t.handOver p).proc q := by
          simp [hqp]
        refine .goesOn ⟨by simp [hqp], by simp⟩ ?_ fun _ => ?_
        · rw [hproc, ← ProcState.stage_zombie, handOver_stage, ProcState.stage_zombie]
        · rw [hproc]
          exact handOver_field (f := Proc.pid) (fun _ _ => rfl) fun _ _ => rfl
    exact hset.quiet Quiet.leaveCpu
  | @reaped _ cpu p r _ _ hz hparent hq =>
    have hset : t.Life [.waitRet p (some r) (t.proc r).pid.toInt] (t.reap r) q := by
      by_cases hqr : q = r
      · subst hqr
        exact .returned rfl hz hparent (by simp [Table.reap, Proc.reapFields])
      · have hproc : (t.reap r).proc q = t.proc q := by simp [Table.reap, hqr]
        exact .goesOn ⟨by simp, by simp [hqr]⟩ (by rw [hproc]) fun _ => by rw [hproc]
    exact hset.quiet hq
  | @killed _ _ r _ _ hq hev =>
    have hset : t.Life ev (t.setKilled r) q := by
      by_cases hqr : q = r
      · subst hqr
        exact .goesOn (.of_quiet hev) (by simp) fun _ => by simp
      · exact .goesOn (.of_quiet hev) (by simp [hqr]) fun _ => by simp [hqr]
    exact hset.quiet hq

theorem Life.follow (h : t.Life ev t' q) : ev.foldlM (Ev.follow q)
    (decide ((t.proc q).state = .zombie)) = some (decide ((t'.proc q).state = .zombie)) := by
  cases h with
  | goesOn hev hz _ => rw [hev.follow, decide_eq_decide.mpr hz]
  | exits hev hz hz' => simp [hev, hz, hz', Ev.follow]
  | returned hev hz _ hu => simp [hev, hz, hu, Ev.follow]

/-- `wait` fails only if the caller has no zombie child, and has no child or is killed. -/
theorem WaitPass.fails (h : WaitPass cpu p t ev t') (hv : Ev.waitRet q none v ∈ ev) :
    v = -1 ∧ ¬ t.HasZombie q ∧ ((∀ r, (t.proc r).state ≠ .unused → (t.proc r).parent ≠ some q) ∨
        (t.proc q).killed = true) := by
  cases h with
  | reaped _ _ => simp at hv
  | failed hno hkids =>
    obtain ⟨rfl, rfl⟩ : q = p ∧ v = -1 := by simpa using hv
    exact ⟨rfl, hno, hkids⟩
  | sleeps _ => simp at hv

theorem Step.waitFails (h : t.Step act ev t') (hv : Ev.waitRet q none v ∈ ev) :
    v = -1 ∧ ¬ t.HasZombie q ∧ ((∀ r, (t.proc r).state ≠ .unused → (t.proc r).parent ≠ some q) ∨
        (t.proc q).killed = true) := by
  cases h with
  | wait _ hw => exact hw.fails hv
  | @resumeInWait cpu p _ _ _ _ _ hw =>
    obtain ⟨hv', hno, hkids⟩ := hw.fails hv
    have hsame : ∀ r, ((t.setChan p none).proc r).state = (t.proc r).state ∧
        ((t.setChan p none).proc r).parent = (t.proc r).parent ∧
        ((t.setChan p none).proc r).killed = (t.proc r).killed := by
      intro r
      by_cases hr : r = p
      · subst hr
        simp
      · simp [hr]
    refine ⟨hv', ?_, ?_⟩
    · rintro ⟨z, hz, hparent⟩
      exact hno ⟨z, (hsame z).1.trans hz, (hsame z).2.1.trans hparent⟩
    · rcases hkids with hkids | hkilled
      · left
        intro r hr
        rw [← (hsame r).2.1]
        exact hkids r (by rwa [(hsame r).1])
      · right
        rw [← (hsame q).2.2]
        exact hkilled
  | _ => simp at hv

end Table

/-- `q` is found by following `next` from the head of the list. -/
def PTable.OnList (s : PTable) (l : ListId) (q : Slot) : Prop :=
  ∃ qs, IntrusiveList.Chain s.next (s.pLists l) qs ∧ q ∈ qs

/-- What a step may do to zombies.  They come from `exit` only; they keep their pid; and
    they go from the zombie list to the free list when `wait` returns them to their
    parent. -/
structure HandsOff (s : PTable) (ev : List Ev) (s' : PTable) : Prop where
  exits : ∀ q, Ev.exited q ∈ ev ↔ (s.proc q).state ≠ .zombie ∧ (s'.proc q).state = .zombie
  returns : ∀ q, (∃ p v, Ev.waitRet p (some q) v ∈ ev) ↔
    (s.proc q).state = .zombie ∧ (s'.proc q).state ≠ .zombie
  keeps : ∀ q, (s.proc q).state = .zombie → (s'.proc q).state = .zombie →
    (s'.proc q).pid = (s.proc q).pid
  toParent : ∀ p q v, Ev.waitRet p (some q) v ∈ ev → (s.proc q).parent = some p ∧
    v = (s.proc q).pid.toInt ∧ s.OnList .zombie q ∧ s'.OnList .free q
  fails : ∀ p v, Ev.waitRet p none v ∈ ev → v = -1 ∧ ¬ s.HasZombie p ∧
    ((∀ q, (s.proc q).state ≠ .unused → (s.proc q).parent ≠ some p) ∨ (s.proc p).killed = true)

section

variable {s s' t : PTable} {act : Act} {acts : List Act} {ev : List Ev} {q : Slot}

variable (hs : procSystem.Reachable s)

include hs

theorem onList_of_state (hq : (s.proc q).list = l) : s.OnList l q := by
  obtain ⟨a, ha, hr⟩ := reachable_represents hs
  rw [hr.proc] at hq
  exact ⟨a.lists l, hr.chain l, ((queueSystem_inv ha).mem q l).mpr hq⟩

theorem reachable_life (h : procSystem.step s act = some (s', ev))
    (q : Slot) : s.toTable.Life ev s'.toTable q := by
  obtain ⟨ok, ht⟩ := reachable_step hs h
  exact (ht.change ok).life ok q

theorem reachable_handsOff (h : procSystem.step s act = some (s', ev)) : HandsOff s ev s' := by
  have hlife := reachable_life hs h
  obtain ⟨-, ht⟩ := reachable_step hs h
  refine ⟨?_, ?_, ?_, ?_, fun p v => ht.waitFails⟩
  · intro q
    cases hlife q with
    | goesOn hev hz _ => exact ⟨fun hx => absurd hx hev.exited, fun hx => absurd (hz.mp hx.2) hx.1⟩
    | exits hev hz hz' => exact ⟨fun _ => ⟨hz, hz'⟩, fun _ => by simp [hev]⟩
    | returned hev hz _ _ => exact ⟨fun hx => by simp [hev] at hx, fun hx => absurd hz hx.1⟩
  · intro q
    cases hlife q with
    | goesOn hev hz _ =>
      exact ⟨fun ⟨p, v, hx⟩ => absurd hx (hev.returned p v), fun hx => absurd (hz.mpr hx.1) hx.2⟩
    | exits hev hz _ => exact ⟨fun ⟨p, v, hx⟩ => by simp [hev] at hx, fun hx => absurd hx.1 hz⟩
    | @returned p hev hz _ hu =>
      exact ⟨fun _ => ⟨hz, by simp [hu]⟩, fun _ => ⟨p, (s.proc q).pid.toInt, by rw [hev]; simp⟩⟩
  · intro q hz hz'
    cases hlife q with
    | goesOn _ _ hpid => exact hpid hz
    | exits _ hnot _ => exact absurd hz hnot
    | returned _ _ _ hu => simp [hu] at hz'
  · intro p q v hv
    cases hlife q with
    | goesOn hev _ _ => exact absurd hv (hev.returned p v)
    | exits hev _ _ => simp [hev] at hv
    | @returned p' hev hz hparent hu =>
      rw [hev] at hv
      obtain ⟨rfl, rfl⟩ : p = p' ∧ v = (s.proc q).pid.toInt := by simpa using hv
      exact ⟨hparent, rfl, onList_of_state hs (Proc.list_eq_zombie.mpr hz),
        onList_of_state (hs.step h) (Proc.list_eq_free.mpr hu)⟩

theorem run_follow (hrun : procSystem.run s acts = some (t, ev))
    (q : Slot) : ev.foldlM (Ev.follow q) (decide ((s.proc q).state = .zombie)) =
      some (decide ((t.proc q).state = .zombie)) := by
  induction acts generalizing s ev with
  | nil =>
    cases hrun
    rfl
  | cons act acts ih =>
    obtain ⟨s', ev₁, ev₂, hstep, hrest, rfl⟩ := TransitionSystem.run_cons_eq_some.mp hrun
    rw [List.foldlM_append, (reachable_life hs hstep q).follow]
    exact ih (hs.step hstep) hrest

end

end Xv6Kernel
