/-
  ProcRefinement.lean
  ===================
  The pointer code refines the list code.

  For each operation of `ProcOps`: on a table whose pointers represent lists that are in
  order, the operation does not panic, every loop of it ends, and the resulting pointers
  represent the result of the operation of `ProcQueueOps`.
-/
import Xv6Kernel.ProcInvariant

namespace Xv6Kernel

open IntrusiveList List PTable
open Queues (ListsOk readyIx)

namespace Represents

variable {s : PTable} {a : Queues} {p : Slot}

/-! ### Moving one process -/

section

variable (hr : Represents s a)

include hr

theorem take (ok : a.ListsOk) (hl : (a.proc p).list = l) :
    ∃ s', s.remove l p = .ok s' ∧ Represents s' (a.remove l p) ∧
      ∀ m, p ∉ (a.remove l p).lists m := by
  obtain ⟨s', hrun, hr'⟩ := hr.remove ((ok.mem p l).mpr hl)
  exact ⟨s', hrun, hr', ok.not_mem_remove hl⟩

theorem takeReady (ok : a.ListsOk) (hp : p ∈ a.lists (.ready i)) :
    ∃ s', s.removeFromReadyList i p = .ok s' ∧ Represents s' (a.remove (.ready i) p) ∧
      ∀ m, p ∉ (a.remove (.ready i) p).lists m := by
  obtain ⟨hst, hprio⟩ := ok.mem_ready.mp hp
  obtain ⟨s', hrun, hr', hno⟩ := hr.take ok ((ok.mem p _).mp hp)
  refine ⟨s', ?_, hr', hno⟩
  simp [removeFromReadyList, hrun, bind, Except.bind, hr'.assertPrio (n := (i : Nat)) hprio,
    hr'.assertState hst, pure, Except.pure]

theorem enqueue (hno : ∀ m, p ∉ a.lists m) (hprio : (a.proc p).PrioOk) :
    ∃ s' j, readyIndex (s.proc p).prio = .ok j ∧ s.pushReady j p = .ok s' ∧
      Represents s' (a.enqueue p) := by
  obtain ⟨s', hrun, hr'⟩ := hr.pushReady (i := readyIx (a.proc p).prio) hno
  refine ⟨s', _, ?_, hrun, hr'⟩
  rw [hr.proc]
  exact readyIndex_eq hprio.1 hprio.2

/-! ### allocproc and fork -/

theorem allocproc (ok : a.ListsOk) :
    ∃ s', s.allocproc = .ok (a.allocproc.1, s') ∧ Represents s' a.allocproc.2 := by
  unfold PTable.allocproc Queues.allocproc
  rw [(hr.chain .free).head]
  rcases hfree : a.lists .free with _ | ⟨p, rest⟩
  · exact ⟨s, rfl, hr⟩
  · have hp : (a.proc p).list = .free := (ok.mem p .free).mp (by rw [hfree]; simp)
    obtain ⟨s₁, hrun, hr₁, hno⟩ := hr.take ok hp
    simp only [head?_cons, hrun, bind, Except.bind, hr₁.assertState (Proc.list_eq_free.mp hp)]
    exact ⟨_, rfl, ((hr₁.upd _).pushHead hno).upd _⟩

section

variable (ok : a.ListsOk) (hst : (a.proc p).state = .embryo)

include ok hst

theorem freeEmbryo : ∃ s', s.freeEmbryo p = .ok s' ∧ Represents s' (a.freeEmbryo p) := by
  obtain ⟨s₁, hrun, hr₁, hno⟩ := hr.take ok (Proc.list_eq_embryo.mpr hst)
  simp only [PTable.freeEmbryo, hrun, bind, Except.bind, hr₁.assertState hst]
  exact ⟨_, rfl, (hr₁.upd _).pushHead hno⟩

theorem kallocFails : ∃ s', s.kallocFails p = .ok s' ∧ Represents s' (a.kallocFails p) := by
  apply (hr.upd _).freeEmbryo (ok.setProc rfl fun _ => rfl)
  simpa using hst

theorem copyuvmFails : ∃ s', s.copyuvmFails p = .ok s' ∧ Represents s' (a.copyuvmFails p) := by
  apply (hr.upd _).freeEmbryo (ok.setProc rfl fun _ => rfl)
  simpa using hst

theorem forkFinish : ∃ s', s.forkFinish p = .ok s' ∧ Represents s' (a.forkFinish p) := by
  obtain ⟨s₁, hrun, hr₁, hno⟩ := hr.take ok (Proc.list_eq_embryo.mpr hst)
  simp only [PTable.forkFinish, hrun, bind, Except.bind, hr₁.assertState hst]
  exact (hr₁.upd _).pushReady hno

end

/-! ### sleep, wakeup1 and yield -/

theorem sched (cpu : Cpu) (hst : (a.proc p).state ≠ .running) :
    s.sched cpu p = .ok (s.upd (Table.leaveCpu cpu p)) := by
  unfold PTable.sched
  rw [hr.proc, if_neg hst]

theorem sleep (ok : a.ListsOk) (cpu : Cpu) (chan : Chan) (hst : (a.proc p).state = .running) :
    ∃ s', s.sleep cpu p chan = .ok s' ∧ Represents s' (a.sleep cpu p chan) := by
  have ok₀ : (a.upd fun t => t.setChan p (some chan)).ListsOk := ok.setProc rfl fun _ => rfl
  have hst₀ : ((a.upd fun t => t.setChan p (some chan)).proc p).state = .running := by
    simpa using hst
  obtain ⟨s₁, hrun, hr₁, hno⟩ :=
    (hr.upd fun t => t.setChan p (some chan)).take ok₀ (Proc.list_eq_running.mpr hst₀)
  have hr₂ := ((hr₁.upd fun t => t.setState p .sleeping).upd fun t =>
    t.setProc p (Proc.budgetupdate t.ticks)).pushHead (l := .sleep) (p := p) hno
  have hsched := hr₂.sched cpu (p := p) (by
    simp [Proc.budgetupdate_state])
  simp only [PTable.sleep, hrun, bind, Except.bind, hr₁.assertState hst₀]
  refine ⟨_, hsched, ?_⟩
  have hr₃ := hr₂.upd (Table.leaveCpu cpu p)
  simpa [Queues.sleep, Queues.shiftHead, Queues.upd, Queues.pushHead, Queues.remove,
    Table.setProc] using hr₃

theorem wake_run (ok : a.ListsOk) (hprio : a.PrioOk) (hst : (a.proc p).state = .sleeping) :
    ∃ s₁ s₂ j, s.remove .sleep p = .ok s₁ ∧ s₁.assertState p .sleeping = .ok () ∧
      readyIndex ((s₁.upd fun t => t.setState p .runnable).proc p).prio = .ok j ∧
      (s₁.upd fun t => t.setState p .runnable).pushReady j p = .ok s₂ ∧
      Represents s₂ (a.wake p) := by
  obtain ⟨s₁, hrun, hr₁, hno⟩ := hr.take ok (Proc.list_eq_sleep.mpr hst)
  obtain ⟨s₂, j, hj, hpush, hr₂⟩ :=
    (hr₁.upd fun t => t.setState p .runnable).enqueue (p := p) hno (by
      simpa [Proc.PrioOk] using hprio p (Or.inr hst))
  exact ⟨s₁, s₂, j, hrun, hr₁.assertState hst, hj, hpush, hr₂⟩

end

/-- The loop of `wakeup1` over the part `rest` of the sleep list, after the processes
    before it that stay asleep. -/
theorem wakeup1Loop (chan : Option Chan) : ∀ (rest kept : List Slot) (fuel : Nat) (s : PTable)
    (a : Queues), Represents s a → a.ListsOk → a.PrioOk → a.lists .sleep = kept ++ rest →
    rest.length ≤ fuel →
    ∃ s', s.wakeup1Loop chan fuel rest.head? = .ok s' ∧
      Represents s' (rest.foldl (fun a p => if (a.proc p).chan = chan then a.wake p else a) a) := by
  intro rest
  induction rest with
  | nil =>
    intro kept fuel s a hr _ _ _ _
    exact ⟨s, by cases fuel <;> rfl, hr⟩
  | cons p rest ih =>
    intro kept fuel s a hr ok hprio hsleep hfuel
    cases fuel with
    | zero => simp at hfuel
    | succ fuel =>
      have hlen : rest.length ≤ fuel := by simpa using hfuel
      have hst : (a.proc p).state = .sleeping :=
        Proc.list_eq_sleep.mp ((ok.mem p .sleep).mp (by rw [hsleep]; simp))
      have hchain := hr.chain .sleep
      rw [hsleep] at hchain
      have hnext : s.next p = rest.head? := (hchain.drop).2.head
      simp only [head?_cons, PTable.wakeup1Loop, hnext, foldl_cons, hr.proc]
      by_cases hch : (a.proc p).chan = chan
      · obtain ⟨s₁, s₂, j, hrun, hassert, hj, hpush, hr₂⟩ := hr.wake_run ok hprio hst
        simp only [if_pos hch, hrun, hassert, hj, hpush, bind, Except.bind]
        -- `p` has left the sleep list; the rest of the list is where it was
        have hrest : (a.wake p).lists .sleep = kept ++ rest := by
          have hnd := ok.nodup .sleep
          rw [hsleep] at hnd
          have hpk : p ∉ kept := fun hcon =>
            (nodup_append.mp hnd).2.2 p hcon p (by simp) rfl
          simp [Queues.wake, Queues.shiftReady, Queues.enqueue, hsleep, erase_append_right _ hpk]
        exact ih kept fuel s₂ _ hr₂ (ok.wake hprio hst) (Queues.wake_prioOk hprio) hrest hlen
      · simp only [if_neg hch]
        exact ih (kept ++ [p]) fuel s a hr ok hprio (by rw [hsleep]; simp) hlen

theorem wakeup1 (hr : Represents s a) (ok : a.ListsOk) (hprio : a.PrioOk) (chan : Option Chan) :
    ∃ s', s.wakeup1 chan = .ok s' ∧ Represents s' (a.wakeup1 chan) := by
  unfold PTable.wakeup1
  rw [(hr.chain .sleep).head]
  exact wakeup1Loop chan (a.lists .sleep) [] NPROC s a hr ok hprio rfl (hr.length_le .sleep)

theorem yield (hr : Represents s a) (ok : a.ListsOk) (hprio : a.PrioOk) (cpu : Cpu)
    (hst : (a.proc p).state = .running) :
    ∃ s', s.yield cpu p = .ok s' ∧ Represents s' (a.yield cpu p) := by
  obtain ⟨s₁, hrun, hr₁, hno⟩ := hr.take ok (Proc.list_eq_running.mpr hst)
  have hr₂ := (hr₁.upd fun t => t.setState p .runnable).upd fun t =>
    t.setProc p (Proc.budgetupdate t.ticks)
  obtain ⟨s₃, j, hj, hpush, hr₃⟩ := hr₂.enqueue (p := p) hno (by
    simp only [Queues.upd_toTable, Queues.remove_toTable, Table.setProc_proc, Function.update_self]
    exact Proc.PrioOk.budgetupdate (r := { a.proc p with state := .runnable }) _
      (hprio p (Or.inl hst)))
  have hsched := hr₃.sched cpu (p := p) (by
    simp [Queues.enqueue, Proc.budgetupdate_state])
  simp only [PTable.yield, hrun, bind, Except.bind, hr₁.assertState hst, PTable.budgetupdate, hj,
    hpush]
  refine ⟨_, hsched, ?_⟩
  have hr₄ := hr₃.upd (Table.leaveCpu cpu p)
  simpa [Queues.yield, Queues.shiftReady, Queues.enqueue, Queues.upd, Queues.remove,
    Table.setProc] using hr₄

/-! ### Loops -/

/-- Loop rule for `forList`.  The body does what `f` does to the lists, keeps `Inv`, and
    leaves the list that the loop runs over alone. -/
theorem forList (hr : Represents s a) (body : Slot → PTable → Except Panic (Option β × PTable))
    (f : Slot → Queues → Option β × Queues) (Inv : Queues → Prop) (hinv : Inv a)
    (hbody : ∀ p ∈ a.lists l, ∀ s' a', Represents s' a' → Inv a' → a'.lists l = a.lists l →
      ∃ s'', body p s' = .ok ((f p a').1, s'') ∧ Represents s'' (f p a').2 ∧
        ((f p a').1 = none → Inv (f p a').2 ∧ (f p a').2.lists l = a.lists l)) :
    ∃ s', s.forList l body = .ok ((foldStop f (a.lists l) a).1, s') ∧
      Represents s' (foldStop f (a.lists l) a).2 := by
  apply forEach_foldStop (fun rest s' a' => Represents s' a' ∧ Inv a' ∧ a'.lists l = a.lists l ∧
      ∃ seen, a.lists l = seen ++ rest)
    Represents
  · exact fun s' a' h => h.1
  · rintro q rest s' a' ⟨hr', hinv', hl', seen, hseen⟩
    obtain ⟨s'', hrun, hr'', hgo⟩ := hbody q (by rw [hseen]; simp) s' a' hr' hinv' hl'
    refine ⟨s'', hrun, fun _ => hr'', ?_⟩
    intro hnone
    obtain ⟨hinv'', hl''⟩ := hgo hnone
    refine ⟨⟨hr'', hinv'', hl'', seen ++ [q], by rw [hseen]; simp⟩, ?_⟩
    have hchain := hr''.chain l
    rw [hl'', hseen] at hchain
    exact hchain.drop.2
  · exact ⟨hr, hinv, rfl, [], rfl⟩
  · exact hr.chain l
  · exact hr.length_le l

end Represents

/-! ### exit and wait -/

namespace Represents

variable {s : PTable} {a : Queues}

variable (hr : Represents s a)

include hr

theorem reparentList : ∃ s', s.reparentList p l = .ok s' ∧ Represents s' (a.reparentList p l) := by
  obtain ⟨s', hrun, hr'⟩ := hr.forList (l := l) (reparentOne p)
    (fun q a => (none, a.reparentOne p q)) (fun _ => True) trivial (by
    intro q _ s₁ a₁ hr₁ _ hl₁
    unfold reparentOne Queues.reparentOne
    rw [hr₁.proc]
    by_cases h : (a₁.proc q).parent = some p
    · simp only [if_pos h]
      exact ⟨_, rfl, hr₁.upd _, fun _ => ⟨trivial, hl₁⟩⟩
    · simp only [if_neg h]
      exact ⟨_, rfl, hr₁, fun _ => ⟨trivial, hl₁⟩⟩)
  rw [foldStop_foldl (g := Queues.reparentOne p) (fun _ _ => rfl)] at hrun hr'
  refine ⟨s', ?_, hr'⟩
  unfold PTable.reparentList
  rw [hrun]
  rfl

theorem reparentLists (ls : List ListId) : ∃ s', ls.foldlM (PTable.reparentList p) s = .ok s' ∧
      Represents s' (ls.foldl (Queues.reparentList p) a) := by
  induction ls generalizing s a with
  | nil => exact ⟨s, rfl, hr⟩
  | cons l ls ih =>
    obtain ⟨s₁, hrun, hr₁⟩ := hr.reparentList (p := p) (l := l)
    obtain ⟨s₂, hrun', hr₂⟩ := ih hr₁
    refine ⟨s₂, ?_, hr₂⟩
    rw [foldlM_cons, hrun]
    exact hrun'

theorem reparentZombie (ok : a.Ok) (q : Slot) :
    ∃ s', reparentZombie p q s = .ok (none, s') ∧ Represents s' (a.reparentZombie p q) := by
  unfold PTable.reparentZombie Queues.reparentZombie
  rw [hr.proc]
  by_cases h : (a.proc q).parent = some p
  · simp only [if_pos h]
    have ok' : (a.upd fun t => t.setParent q t.initproc).Ok :=
      ok.setProc (fun _ => rfl) fun _ => rfl
    obtain ⟨s₁, hrun, hr₁⟩ := (hr.upd fun t => t.setParent q t.initproc).wakeup1
      ok'.toListsOk ok'.live (a.initproc.map Chan.proc)
    refine ⟨s₁, ?_, hr₁⟩
    have hinit : s.initproc = a.initproc := congrArg Table.initproc hr.table
    have hinit' : (s.upd fun t => t.setParent q t.initproc).initproc = a.initproc := hinit
    rw [hinit', hrun]
    rfl
  · simp only [if_neg h]
    exact ⟨s, rfl, hr⟩

theorem reparentZombies (ok : a.Ok) :
    ∃ s', s.reparentZombies p = .ok s' ∧ Represents s' (a.reparentZombies p) := by
  obtain ⟨s', hrun, hr'⟩ := hr.forList (l := .zombie) (PTable.reparentZombie p)
    (fun q a => (none, a.reparentZombie p q)) Queues.Ok ok (by
    intro q _ s₁ a₁ hr₁ ok₁ hl₁
    obtain ⟨s₂, hrun, hr₂⟩ := hr₁.reparentZombie ok₁ (p := p) q
    exact ⟨s₂, hrun, hr₂, fun _ =>
      ⟨ok₁.reparentZombie, Queues.reparentZombie_zombies.trans hl₁⟩⟩)
  rw [foldStop_foldl (g := Queues.reparentZombie p) (fun _ _ => rfl)] at hrun hr'
  refine ⟨s', ?_, hr'⟩
  unfold PTable.reparentZombies
  rw [hrun]
  rfl

/-- The wakeups and the loops of `exit`. -/
theorem handOver (ok : a.Ok) : ∃ s₁ s₂ s₃, s.wakeup1 ((a.proc p).parent.map Chan.proc) = .ok s₁ ∧
      PTable.childLists.foldlM (PTable.reparentList p) s₁ = .ok s₂ ∧
      s₂.reparentZombies p = .ok s₃ ∧ Represents s₃ (a.handOver p) := by
  obtain ⟨s₁, hrun₁, hr₁⟩ := hr.wakeup1 ok.toListsOk ok.live ((a.proc p).parent.map Chan.proc)
  obtain ⟨s₂, hrun₂, hr₂⟩ := hr₁.reparentLists (p := p) PTable.childLists
  have ok₂ : (childLists.foldl (Queues.reparentList p)
      (a.wakeup1 ((a.proc p).parent.map Chan.proc))).Ok :=
    List.foldlRecOn _ _ (ok.wakeup1 _) fun _ h _ _ => h.reparentList
  obtain ⟨s₃, hrun₃, hr₃⟩ := hr₂.reparentZombies (p := p) ok₂
  exact ⟨s₁, s₂, s₃, hrun₁, hrun₂, hrun₃, hr₃⟩

theorem exit (ok : a.Ok) (cpu : Cpu) (hinit : some p ≠ a.initproc)
    (hst : (a.proc p).state = .running) :
    ∃ s', s.exit cpu p = .ok s' ∧ Represents s' (a.exit cpu p) := by
  obtain ⟨s₁, s₂, s₃, hrun₁, hrun₂, hrun₃, hr₃⟩ := hr.handOver (p := p) ok
  have hst₃ : ((a.handOver p).proc p).state = .running := ok.handOver_running hst
  have ok₃ : (a.handOver p).Ok := ok.handOver
  unfold Queues.exit
  generalize a.handOver p = b at hr₃ hst₃ ok₃ ⊢
  obtain ⟨s₄, hrun₄, hr₄, hno⟩ := hr₃.take ok₃.toListsOk (Proc.list_eq_running.mpr hst₃)
  have hr₅ := (hr₄.upd fun t => t.setState p .zombie).pushHead (l := .zombie) (p := p) hno
  have hsched := hr₅.sched cpu (p := p) (by simp)
  have hinit' : some p ≠ s.initproc := by rwa [hr.table]
  unfold PTable.exit
  simp only [if_neg hinit', hr.proc, hrun₁, hrun₂, hrun₃, hrun₄, bind, Except.bind,
    hr₄.assertState hst₃]
  exact ⟨_, hsched, hr₅.upd _⟩

theorem reapOne (ok : a.Ok) (hst : (a.proc q).state = .zombie) : ∃ s', reapOne p q s =
        .ok (if a.isChild p q then some (q, (a.proc q).pid) else none, s') ∧
      Represents s' (if a.isChild p q then a.reap q else a) := by
  unfold PTable.reapOne
  rw [hr.proc]
  by_cases h : (a.proc q).parent = some p
  · have hchild : a.isChild p q = true := Queues.isChild_iff.mpr h
    have ok₁ : (a.upd fun t => t.setProc q fun r => { r with kstack := none }).Ok :=
      ok.setProc (fun _ => rfl) fun _ => rfl
    have hst₁ : ((a.upd fun t => t.setProc q fun r => { r with kstack := none }).proc q).state =
        .zombie := by simpa using hst
    obtain ⟨s₁, hrun, hr₁, hno⟩ :=
      (hr.upd fun t => t.setProc q fun r => { r with kstack := none }).take ok₁.toListsOk
        (Proc.list_eq_zombie.mpr hst₁)
    simp only [h, ne_eq, not_true_eq_false, if_false, hrun, bind, Except.bind,
      hr₁.assertState hst₁, hchild, if_true]
    exact ⟨_, rfl, (((hr₁.upd _).pushHead hno).upd _)⟩
  · have hchild : a.isChild p q = false := by simp [Queues.isChild, h]
    simp only [if_pos h, hchild]
    exact ⟨s, rfl, hr⟩

theorem findChild (found : Bool) :
    s.findChild p found l = .ok (found || (a.lists l).any (a.isChild p)) := by
  unfold PTable.findChild
  cases found with
  | true => rfl
  | false =>
    obtain ⟨s', hrun, -⟩ := hr.forList (l := l) (childOne p)
      (fun q a => (if a.isChild p q then some () else none, a)) (fun a' => a' = a) rfl (by
      rintro q _ s₁ a₁ hr₁ rfl hl₁
      refine ⟨s₁, ?_, hr₁, fun _ => ⟨rfl, hl₁⟩⟩
      unfold childOne
      rw [hr₁.proc]
      by_cases h : (a₁.proc q).parent = some p
      · simp [h, Queues.isChild]
      · simp [h, Queues.isChild])
    rw [foldStop_find (a.isChild p) (fun _ => ()) (fun _ => a)
      (fun x hx => by simp [hx]) (fun x hx => by simp [hx])] at hrun
    have hany : ((a.lists l).find? (a.isChild p)).isSome = (a.lists l).any (a.isChild p) := by
      rw [Bool.eq_iff_iff, find?_isSome, any_eq_true]
    rw [if_neg (by simp), hrun, Bool.false_or, ← hany]
    cases (a.lists l).find? (a.isChild p) <;> rfl

theorem findChildren (ls : List ListId) (found : Bool) : ls.foldlM (s.findChild p) found =
      .ok (found || ls.any fun l => (a.lists l).any (a.isChild p)) := by
  induction ls generalizing found with
  | nil => simp [pure, Except.pure]
  | cons l ls ih =>
    rw [foldlM_cons, hr.findChild]
    simp only [bind, Except.bind, ih, any_cons, Bool.or_assoc]

theorem waitPass (ok : a.Ok) (cpu : Cpu) (hst : (a.proc p).state = .running) :
    ∃ s', s.waitPass cpu p = .ok ((a.waitPass cpu p).1, s') ∧
      Represents s' (a.waitPass cpu p).2 := by
  obtain ⟨s₁, hrun, hr₁⟩ := hr.forList (l := .zombie) (PTable.reapOne p)
    (fun q a => (if a.isChild p q then some (q, (a.proc q).pid) else none,
      if a.isChild p q then a.reap q else a)) (fun a' => a' = a) rfl (by
    rintro q hq s₁ a₁ hr₁ rfl hl₁
    obtain ⟨s₂, hrun, hr₂⟩ := hr₁.reapOne ok (p := p)
      (Proc.list_eq_zombie.mp ((ok.mem q .zombie).mp hq))
    refine ⟨s₂, hrun, hr₂, ?_⟩
    intro hnone
    have hno : a₁.isChild p q = false := by
      by_contra hcon
      simp [hcon] at hnone
    simp [hno])
  rw [foldStop_find (a.isChild p) (fun q => (q, (a.proc q).pid)) a.reap
    (fun x hx => by simp [hx]) (fun x hx => by simp [hx])] at hrun hr₁
  unfold PTable.waitPass Queues.waitPass
  cases hfind : (a.lists .zombie).find? (a.isChild p) with
  | some q =>
    simp only [hfind] at hrun hr₁
    simp only [hrun, bind, Except.bind]
    exact ⟨s₁, rfl, hr₁⟩
  | none =>
    simp only [hfind] at hrun hr₁
    simp only [hrun, bind, Except.bind, hr₁.findChildren, Bool.false_or, hr₁.proc]
    by_cases h : (!a.haveKids p || (a.proc p).killed) = true
    · have h' : (!(childLists.any fun l => (a.lists l).any (a.isChild p)) ||
          (a.proc p).killed) = true := h
      simp only [if_pos h, if_pos h']
      exact ⟨s₁, rfl, hr₁⟩
    · have h' : ¬ (!(childLists.any fun l => (a.lists l).any (a.isChild p)) ||
          (a.proc p).killed) = true := h
      obtain ⟨s₂, hsleep, hr₂⟩ := hr₁.sleep ok.toListsOk cpu (.proc p) hst
      simp only [if_neg h, if_neg h', hsleep]
      exact ⟨s₂, rfl, hr₂⟩

/-! ### prioadjust and scheduler -/

theorem decrementPrio : ∃ s', s.decrementPrio l = .ok s' ∧ Represents s' (a.decrementPrio l) := by
  obtain ⟨s', hrun, hr'⟩ := hr.forList (l := l) decrementOne
    (fun q a => (none, a.decrementOne q)) (fun _ => True) trivial (by
    intro q _ s₁ a₁ hr₁ _ hl₁
    unfold decrementOne Queues.decrementOne
    rw [hr₁.proc]
    by_cases h : (a₁.proc q).prio ≠ 0
    · simp only [if_pos h]
      exact ⟨_, rfl, hr₁.upd _, fun _ => ⟨trivial, hl₁⟩⟩
    · simp only [if_neg h]
      exact ⟨_, rfl, hr₁, fun _ => ⟨trivial, hl₁⟩⟩)
  rw [foldStop_foldl (g := Queues.decrementOne) (fun _ _ => rfl)] at hrun hr'
  refine ⟨s', ?_, hr'⟩
  unfold PTable.decrementPrio
  rw [hrun]
  rfl

/-- Taking a process off `ready[i]`, changing it, and putting it back in line. -/
theorem shiftReady (ok : a.ListsOk) (hp : p ∈ a.lists (.ready i)) (hprio : (f (a.proc p)).PrioOk) :
    ∃ s₁ s₂ j, s.removeFromReadyList i p = .ok s₁ ∧
      readyIndex ((s₁.upd fun t => t.setProc p f).proc p).prio = .ok j ∧
      (s₁.upd fun t => t.setProc p f).pushReady j p = .ok s₂ ∧
      Represents s₂ (a.shiftReady p (.ready i) f) := by
  obtain ⟨s₁, hrun, hr₁, hno⟩ := hr.takeReady ok hp
  obtain ⟨s₂, j, hj, hpush, hr₂⟩ := (hr₁.upd fun t => t.setProc p f).enqueue (p := p) hno (by
    simpa [Proc.PrioOk] using hprio)
  exact ⟨s₁, s₂, j, hrun, hj, hpush, hr₂⟩

/-- A process that has just been put at the end of a list is followed by none. -/
theorem next_last (hl : (a.lists l).getLast? = some p) : s.next p = none := by
  obtain ⟨l₀, hl₀⟩ := getLast?_eq_some_iff.mp hl
  have hchain := hr.chain l
  rw [hl₀] at hchain
  exact hchain.drop.2

/-- The loop over `ready[i]` makes one iteration: the process it has moved is now the
    last one of its list, and the loop goes on from there. -/
theorem promoteList (ok : a.ListsOk) (hi : 0 < i) :
    ∃ s', s.promoteList i = .ok s' ∧ Represents s' (a.promote i) := by
  unfold PTable.promoteList PTable.forList Queues.promote
  rw [(hr.chain (.ready i)).head]
  rcases hready : a.lists (.ready i) with _ | ⟨p, rest⟩
  · exact ⟨s, rfl, hr⟩
  · have hp : p ∈ a.lists (.ready i) := by rw [hready]; simp
    obtain ⟨hst, hprio⟩ := ok.mem_ready.mp hp
    have hpos : 0 < (i : Nat) := hi
    have hle := (ok.prio p hst).2
    obtain ⟨s₁, s₂, j, hrun, hj, hpush, hr₂⟩ := hr.shiftReady ok hp
      (f := fun r => { r with prio := r.prio - 1 }) ⟨by simp only; omega, by simp only; omega⟩
    have hbody : promoteOne i p s = .ok (none, s₂) := by
      simp only [promoteOne, hrun, bind, Except.bind, hj, hpush]
      rfl
    have hlast : s₂.next p = none := by
      apply hr₂.next_last (l := .ready (readyIx ((a.proc p).prio - 1)))
      simp [Queues.shiftReady, Queues.enqueue]
    refine ⟨s₂, ?_, hr₂⟩
    simp only [head?_cons, NPROC, forEach, hbody, hlast]
    rfl

theorem promoteLists (ok : a.ListsOk) (is : List (Fin (MAX + 1))) (his : ∀ i ∈ is, 0 < i) :
    ∃ s', is.foldlM PTable.promoteList s = .ok s' ∧ Represents s' (is.foldl Queues.promote a) := by
  induction is generalizing s a with
  | nil => exact ⟨s, rfl, hr⟩
  | cons i is ih =>
    have hi : 0 < i := his i (by simp)
    obtain ⟨s₁, hrun, hr₁⟩ := hr.promoteList ok hi
    obtain ⟨s₂, hrun', hr₂⟩ := ih hr₁ (ok.promote hi) fun j hj => his j (by simp [hj])
    refine ⟨s₂, ?_, hr₂⟩
    rw [foldlM_cons, hrun]
    exact hrun'

theorem prioadjust (ok : a.ListsOk) : ∃ s', s.prioadjust = .ok s' ∧ Represents s' a.prioadjust := by
  obtain ⟨s₁, hrun₁, hr₁⟩ := hr.decrementPrio (l := .sleep)
  obtain ⟨s₂, hrun₂, hr₂⟩ := hr₁.decrementPrio (l := .running)
  have ok₂ := (ok.decrementPrio (l := .sleep) (by simp)).decrementPrio (l := .running) (by simp)
  obtain ⟨s₃, hrun₃, hr₃⟩ := hr₂.promoteLists ok₂ (List.finRange (MAX + 1)).tail (by decide)
  refine ⟨_, ?_, hr₃.upd _⟩
  simp only [PTable.prioadjust, hrun₁, hrun₂, hrun₃, bind, Except.bind]
  rfl

theorem firstReady (is : List (Fin (MAX + 1))) : s.firstReady is = a.firstReady is := by
  induction is with
  | nil => rfl
  | cons i is ih =>
    unfold PTable.firstReady Queues.firstReady
    rw [(hr.chain (.ready i)).head]
    rcases a.lists (.ready i) with _ | ⟨p, rest⟩
    · exact ih
    · rfl

theorem promoteIfDue (ok : a.Ok) :
    ∃ s', s.promoteIfDue = .ok s' ∧ Represents s' a.promoteIfDue := by
  unfold PTable.promoteIfDue Queues.promoteIfDue
  rw [hr.table]
  by_cases h : a.promoteAtTime ≤ a.ticks
  · simp only [if_pos h]
    exact hr.prioadjust ok.toListsOk
  · simp only [if_neg h]
    exact ⟨s, rfl, hr⟩

theorem scheduler (ok : a.Ok) (cpu : Cpu) : ∃ s', s.scheduler cpu = .ok ((a.scheduler cpu).1, s') ∧
      Represents s' (a.scheduler cpu).2 := by
  obtain ⟨s₁, hrun₁, hr₁⟩ := hr.promoteIfDue ok
  have ok₁ := ok.promoteIfDue
  unfold PTable.scheduler Queues.scheduler
  simp only [hrun₁, bind, Except.bind, hr₁.firstReady]
  generalize a.promoteIfDue = b at hr₁ ok₁ ⊢
  rcases hfirst : b.firstReady (List.finRange (MAX + 1)) with _ | ⟨i, p⟩
  · exact ⟨s₁, rfl, hr₁⟩
  · obtain ⟨rest, hrest⟩ := Queues.firstReady_mem hfirst
    have hp : p ∈ b.lists (.ready i) := by rw [hrest]; simp
    obtain ⟨s₂, hrun₂, hr₂, hno⟩ := hr₁.takeReady ok₁.toListsOk hp
    simp only [hrun₂]
    exact ⟨_, rfl, ((hr₂.upd _).pushHead hno).upd _⟩

/-! ### kill and setpriority -/

/-- A loop that does nothing until it finds what it looks for. -/
theorem forList_find (body : Slot → PTable.Body Unit) (hit : Slot → Bool) (g : Slot → Queues)
    (hhit : ∀ q ∈ a.lists l, hit q = true → ∀ s', Represents s' a →
      ∃ s'', body q s' = .ok (some (), s'') ∧ Represents s'' (g q))
    (hmiss : ∀ q ∈ a.lists l, hit q = false → ∀ s', Represents s' a → body q s' = .ok (none, s')) :
    ∃ s', s.forList l body = .ok (((a.lists l).find? hit).map fun _ => (), s') ∧
      Represents s' (((a.lists l).find? hit).elim a g) := by
  obtain ⟨s', hrun, hr'⟩ := hr.forList (l := l) body
    (fun q a' => if hit q then (some (), g q) else (none, a')) (fun a' => a' = a) rfl (by
    rintro q hq s₁ a₁ hr₁ rfl hl₁
    cases hh : hit q with
    | true =>
      obtain ⟨s₂, hrun, hr₂⟩ := hhit q hq hh s₁ hr₁
      exact ⟨s₂, hrun, hr₂, by simp⟩
    | false => exact ⟨s₁, hmiss q hq hh s₁ hr₁, hr₁, fun _ => ⟨rfl, hl₁⟩⟩)
  rw [foldStop_find hit (fun _ => ()) g (fun x hx => by simp [hx]) (fun x hx => by simp [hx])]
    at hrun hr'
  refine ⟨s', ?_, ?_⟩
  · rw [hrun]
    cases (a.lists l).find? hit <;> rfl
  · cases hfind : (a.lists l).find? hit with
    | none => simpa [hfind] using hr'
    | some q => simpa [hfind] using hr'

theorem firstHit (body : ListId → Slot → PTable.Body Unit)
    (hit : Slot → Bool) (g : ListId → Slot → Queues) (ls : List ListId)
    (hhit : ∀ l ∈ ls, ∀ q ∈ a.lists l, hit q = true → ∀ s', Represents s' a →
      ∃ s'', body l q s' = .ok (some (), s'') ∧ Represents s'' (g l q))
    (hmiss : ∀ l ∈ ls, ∀ q ∈ a.lists l, hit q = false → ∀ s', Represents s' a →
      body l q s' = .ok (none, s')) :
    ∃ s', firstHit body ls s = .ok ((a.search hit ls).map fun _ => (), s') ∧
      Represents s' ((a.search hit ls).elim a fun lq => g lq.1 lq.2) := by
  induction ls generalizing s with
  | nil => exact ⟨s, rfl, hr⟩
  | cons l ls ih =>
    obtain ⟨s₁, hrun, hr₁⟩ := hr.forList_find (l := l) (body l) hit (g l)
      (hhit l (by simp)) (hmiss l (by simp))
    unfold firstHit Queues.search
    simp only [hrun, bind, Except.bind]
    cases hfind : (a.lists l).find? hit with
    | some q =>
      simp only [hfind, Option.elim_some] at hr₁
      exact ⟨s₁, rfl, hr₁⟩
    | none =>
      simp only [hfind, Option.elim_none] at hr₁
      exact ih hr₁ (fun m hm => hhit m (by simp [hm])) fun m hm => hmiss m (by simp [hm])

theorem killOne :
    (a.hasPid pid q = true → killOne pid q s = .ok (some (), s.upd fun t => t.setKilled q)) ∧
      (a.hasPid pid q = false → killOne pid q s = .ok (none, s)) := by
  unfold PTable.killOne
  rw [hr.proc]
  constructor
  · intro h
    rw [if_pos (Queues.hasPid_iff.mp h)]
  · intro h
    rw [if_neg (by simpa [Queues.hasPid] using h)]

theorem killSleeper (ok : a.Ok) (hq : q ∈ a.lists .sleep) (hpid : a.hasPid pid q = true) :
    ∃ s', killSleeper pid q s = .ok (some (), s') ∧
      Represents s' ((a.upd fun t => t.setKilled q).wake q) := by
  have hst : (a.proc q).state = .sleeping := Proc.list_eq_sleep.mp ((ok.mem q .sleep).mp hq)
  have ok₁ : (a.upd fun t => t.setKilled q).Ok := ok.setKilled
  obtain ⟨s₁, s₂, j, hrun, hassert, hj, hpush, hr₂⟩ :=
    (hr.upd fun t => t.setKilled q).wake_run ok₁.toListsOk ok₁.live (p := q) (by simpa using hst)
  refine ⟨s₂, ?_, hr₂⟩
  unfold PTable.killSleeper
  rw [hr.proc, if_pos (Queues.hasPid_iff.mp hpid)]
  simp only [hrun, hassert, hj, hpush, bind, Except.bind]
  rfl

theorem kill (ok : a.Ok) (pid : Uint) :
    ∃ s', s.kill pid = .ok ((a.kill pid).1, s') ∧ Represents s' (a.kill pid).2 := by
  obtain ⟨s₁, hrun₁, hr₁⟩ := hr.firstHit (fun _ => PTable.killOne pid) (a.hasPid pid)
    (fun _ q => a.upd fun t => t.setKilled q) (readyLists ++ [.running, .embryo, .zombie])
    (fun _ _ q _ hq s' hr' => ⟨_, hr'.killOne.1 hq, hr'.upd _⟩)
    fun _ _ q _ hq s' hr' => hr'.killOne.2 hq
  unfold PTable.kill Queues.kill
  simp only [hrun₁, bind, Except.bind]
  rcases hs : a.search (a.hasPid pid) (readyLists ++ [.running, .embryo, .zombie]) with _ | ⟨l, q⟩
  · simp only [hs, Option.elim_none] at hr₁ ⊢
    obtain ⟨s₂, hrun₂, hr₂⟩ := hr₁.forList_find (l := .sleep) (PTable.killSleeper pid)
      (a.hasPid pid) (fun q => (a.upd fun t => t.setKilled q).wake q)
      (fun q hq hpid s' hr' => hr'.killSleeper ok hq hpid) (by
      intro q _ hpid s' hr'
      unfold PTable.killSleeper
      rw [hr'.proc, if_neg (by simpa [Queues.hasPid] using hpid)])
    simp only [Option.map_none, hrun₂]
    cases hfind : (a.lists .sleep).find? (a.hasPid pid) with
    | none =>
      simp only [hfind, Option.elim_none] at hr₂
      exact ⟨s₂, rfl, hr₂⟩
    | some q =>
      simp only [hfind, Option.elim_some] at hr₂
      exact ⟨s₂, rfl, hr₂⟩
  · simp only [hs, Option.elim_some] at hr₁ ⊢
    exact ⟨s₁, rfl, hr₁⟩

theorem setpriorityOne (ok : a.ListsOk) {priority : Int} {q : Slot}
    (h0 : 0 ≤ priority) (h1 : priority ≤ MAX) (hq : q ∈ a.lists l) (hpid : a.hasPid pid q = true) :
    ∃ s', setpriorityOne pid priority l q s = .ok (some (), s') ∧
      Represents s' (a.reprioritise priority l q) := by
  unfold PTable.setpriorityOne Queues.reprioritise
  rw [hr.proc, if_pos (Queues.hasPid_iff.mp hpid)]
  cases l with
  | ready i =>
    by_cases hi : priority ≠ (i : Nat)
    · obtain ⟨s₁, s₂, j, hrun, hj, hpush, hr₂⟩ := hr.shiftReady ok hq
        (f := setPrioFields priority) ⟨h0, h1⟩
      have hj' : readyIndex priority = .ok j := by
        simpa [PTable.upd, PTable.setPrioFields] using hj
      simp only [if_pos hi, hrun, hj', hpush, bind, Except.bind]
      exact ⟨s₂, rfl, hr₂⟩
    · simp only [if_neg hi]
      exact ⟨s, rfl, hr⟩
  | free => exact ⟨_, rfl, hr.upd _⟩
  | sleep => exact ⟨_, rfl, hr.upd _⟩
  | zombie => exact ⟨_, rfl, hr.upd _⟩
  | running => exact ⟨_, rfl, hr.upd _⟩
  | embryo => exact ⟨_, rfl, hr.upd _⟩

theorem setpriority (ok : a.ListsOk) (pid : Uint) (priority : Int) :
    ∃ s', s.setpriority pid priority = .ok ((a.setpriority pid priority).1, s') ∧
      Represents s' (a.setpriority pid priority).2 := by
  unfold PTable.setpriority Queues.setpriority
  by_cases h : 0 > priority ∨ MAX < priority
  · simp only [if_pos h]
    exact ⟨s, rfl, hr⟩
  · obtain ⟨s₁, hrun₁, hr₁⟩ := hr.firstHit (PTable.setpriorityOne pid priority) (a.hasPid pid)
      (a.reprioritise priority) (readyLists ++ [.running, .sleep])
      (fun l _ q hq hpid s' hr' => hr'.setpriorityOne ok (by omega) (by omega) hq hpid) (by
      intro l _ q _ hpid s' hr'
      unfold PTable.setpriorityOne
      rw [hr'.proc, if_neg (by simpa [Queues.hasPid] using hpid)])
    simp only [if_neg h, hrun₁, bind, Except.bind]
    rcases hs : a.search (a.hasPid pid) (PTable.readyLists ++ [.running, .sleep]) with _ | ⟨l, q⟩
    · simp only [hs, Option.elim_none] at hr₁ ⊢
      exact ⟨s₁, rfl, hr₁⟩
    · simp only [hs, Option.elim_some] at hr₁ ⊢
      exact ⟨s₁, rfl, hr₁⟩

end Represents

end Xv6Kernel
