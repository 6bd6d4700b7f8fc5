/-
  ProcTree.lean
  =============
  The tree of processes.

  Parent pointers lead from every process that has started, also from a zombie, to init,
  through live processes.  `exit` keeps that by making the children of its caller children
  of init, and `wait` frees only zombies, which are nobody's parent.  Slots that are free
  have no parent, and an embryo has none before the end of `fork`, so that nothing is left
  of the process that used the slot before.
-/
import Xv6Kernel.ProcIdent

namespace Xv6Kernel

open ProcState

open Relation (ReflTransGen)

/-- A process that has run or may run. -/
def ProcState.Started (st : ProcState) : Prop := st.Live ∨ st = .zombie

theorem ProcState.stage_started {st : ProcState} :
    st.Started ↔ st.stage = .live ∨ st.stage = .zombie := by
  rw [Started, stage_live, stage_zombie]

namespace Table

/-- `q` is the parent of `p` and is alive. -/
structure Child (t : Table) (p q : Slot) : Prop where
  started : (t.proc p).state.Started
  parent : (t.proc p).parent = some q
  live : (t.proc q).state.Live

structure Tree (t : Table) : Prop where
  root : ∃ i, t.initproc = some i ∧ (t.proc i).state.Live ∧ (t.proc i).pid = 1 ∧
    (t.proc i).parent = none
  free : ∀ q, (t.proc q).state = .unused → (t.proc q).parent = none
  embryo : ∀ q, (t.proc q).state = .embryo → (∀ p, t.kctx p ≠ .linking q) →
    (t.proc q).parent = none
  linking : ∀ p q, t.kctx p = .linking q → (t.proc q).parent = some p
  reaches : ∀ i p, t.initproc = some i → (t.proc p).state.Started → ReflTransGen t.Child p i

variable {t t' : Table} {cpu : Cpu} {p q np i : Slot} {act : Act} {ev : List Ev}

theorem Initial.tree (h : t.Initial p) : t.Tree := by
  have hlive : (t.proc p).state.Live := by simp [h.state, ProcState.Live]
  have hother : ∀ q, q ≠ p → (t.proc q).state = .unused := h.unused
  refine ⟨⟨p, h.initproc, hlive, h.pid, h.parent p⟩, fun q _ => h.parent q, fun q _ _ => h.parent q,
    ?_, ?_⟩
  · intro r q hk
    simp [h.kctx] at hk
  · intro i q hi hq
    obtain rfl : p = i := Option.some.inj (h.initproc.symm.trans hi)
    have hqp : q = p := by
      by_contra hne
      rw [hother q hne] at hq
      rcases hq with (h | h | h) | h <;> cases h
    rw [hqp]

/-- The tables agree on what the tree is made of. -/
structure SameTree (t t' : Table) : Prop where
  stage : ∀ q, (t'.proc q).state.stage = (t.proc q).state.stage
  parent : ∀ q, (t'.proc q).parent = (t.proc q).parent
  pid : ∀ q, (t'.proc q).pid = (t.proc q).pid
  initproc : t'.initproc = t.initproc
  linking : ∀ p np, t'.kctx p = .linking np ↔ t.kctx p = .linking np

theorem Quiet.sameTree (h : t.Quiet t') : t.SameTree t' :=
  ⟨h.stage, h.parent, h.pid, h.initproc, h.linking⟩

theorem SameTree.setKilled : t.SameTree (t.setKilled q) := by
  have hident : ∀ r, ((t.setKilled q).proc r).state = (t.proc r).state ∧
      ((t.setKilled q).proc r).parent = (t.proc r).parent ∧
      ((t.setKilled q).proc r).pid = (t.proc r).pid := by
    intro r
    by_cases hr : r = q
    · subst hr
      simp
    · simp [hr]
  exact ⟨fun r => by rw [(hident r).1], fun r => (hident r).2.1, fun r => (hident r).2.2, rfl,
    fun _ _ => Iff.rfl⟩

theorem SameTree.tree (h : t.SameTree t') (ht : t.Tree) : t'.Tree := by
  have hlive : ∀ q, (t'.proc q).state.Live ↔ (t.proc q).state.Live := by
    intro q
    rw [← stage_live, h.stage, stage_live]
  have hstarted : ∀ q, (t'.proc q).state.Started ↔ (t.proc q).state.Started := by
    intro q
    rw [stage_started, h.stage, stage_started]
  refine ⟨?_, ?_, ?_, ?_, ?_⟩
  · obtain ⟨i, hi, hl, hpid, hparent⟩ := ht.root
    exact ⟨i, h.initproc.trans hi, (hlive i).mpr hl, (h.pid i).trans hpid,
      (h.parent i).trans hparent⟩
  · intro q hq
    rw [← stage_unused, h.stage, stage_unused] at hq
    rw [h.parent]
    exact ht.free q hq
  · intro q hq hk
    rw [← stage_embryo, h.stage, stage_embryo] at hq
    rw [h.parent]
    exact ht.embryo q hq fun p hp => hk p ((h.linking p q).mpr hp)
  · intro p q hk
    rw [h.parent]
    exact ht.linking p q ((h.linking p q).mp hk)
  · intro i p hi hp
    have hmono : ∀ x y, t.Child x y → t'.Child x y := by
      rintro x y ⟨hs, hxy, hl⟩
      exact ⟨(hstarted x).mpr hs, (h.parent x).trans hxy, (hlive y).mpr hl⟩
    exact ReflTransGen.mono hmono _ _
      (ht.reaches i p (h.initproc.symm.trans hi) ((hstarted p).mp hp))

theorem handOver_parent : ((t.handOver p).proc q).parent =
    if (t.proc q).state ≠ .unused ∧ (t.proc q).parent = some p then t.initproc
    else (t.proc q).parent := by
  unfold handOver abandon
  have hwake : ∀ (u : Table) (chan : Option Chan),
      ((u.wakeup1 chan).proc q).parent = (u.proc q).parent := by
    intro u chan
    rw [wakeup1_proc]
    split_ifs <;> rfl
  have hused : ∀ (u : Table) (chan : Option Chan),
      ((u.wakeup1 chan).proc q).state ≠ .unused ↔ (u.proc q).state ≠ .unused := by
    intro u chan
    rw [ne_eq, ne_eq, (Quiet.wakeup1 (t := u)).unused]
  have hpass : ∀ u : Table, ((u.passToInit p fun q => (u.proc q).state ≠ .unused).proc q).parent =
        if (u.proc q).state ≠ .unused ∧ (u.proc q).parent = some p then u.initproc
        else (u.proc q).parent := by
    intro u
    rw [passToInit_proc]
    split_ifs <;> rfl
  by_cases hz : (t.wakeup1 ((t.proc p).parent.map Chan.proc)).HasZombie p
  · rw [if_pos hz, hwake, hpass, hwake]
    simp only [hused]
    rfl
  · rw [if_neg hz, hpass, hwake]
    simp only [hused]
    rfl

theorem handOver_stage : ((t.handOver p).proc q).state.stage = (t.proc q).state.stage := by
  rcases handOver_state (t := t) (p := p) (q := q) with h | ⟨h, h'⟩
  · rw [h]
  · rw [h, h']
    rfl

theorem not_started_of_unused {st : ProcState} (h : st = .unused) : ¬ st.Started := by
  subst h
  simp [ProcState.Started, ProcState.Live]

theorem not_started_of_embryo {st : ProcState} (h : st = .embryo) : ¬ st.Started := by
  subst h
  simp [ProcState.Started, ProcState.Live]

namespace Tree

/-- A change to a slot that has not started and does not start by it.  It has no parent
    afterwards, unless its parent is the process that is making it. -/
theorem setProc (h : t.Tree) (hq : ¬ (t.proc q).state.Started)
    (hq' : ¬ (f (t.proc q)).state.Started) (hold : ∀ r, t.kctx p ≠ .linking r)
    (hno : ∀ r, t.kctx r ≠ .linking q)
    (hnew : (f (t.proc q)).parent = none ∧ (∀ r, k ≠ .linking r) ∨
      (f (t.proc q)).parent = some p ∧ k = .linking q ∧ (f (t.proc q)).state = .embryo) :
    ((t.setProc q f).setKCtx p k).Tree := by
  have hsame : ∀ r, r ≠ q → ((t.setProc q f).setKCtx p k).proc r = t.proc r := by
    intro r hr
    simp [hr]
  have hself : ((t.setProc q f).setKCtx p k).proc q = f (t.proc q) := by simp
  have hne : ∀ r, (t.proc r).state.Started → r ≠ q := by
    rintro r hr rfl
    exact hq hr
  have hlinks : ∀ r s, ((t.setProc q f).setKCtx p k).kctx r = .linking s →
      r = p ∧ k = .linking s ∨ r ≠ p ∧ t.kctx r = .linking s := by
    intro r s hk
    rw [setKCtx_kctx] at hk
    by_cases hr : r = p
    · subst hr
      rw [Function.update_self] at hk
      exact Or.inl ⟨rfl, hk⟩
    · rw [Function.update_of_ne hr] at hk
      exact Or.inr ⟨hr, hk⟩
  refine ⟨?_, ?_, ?_, ?_, ?_⟩
  · obtain ⟨i, hi, hlive, hrest⟩ := h.root
    refine ⟨i, hi, ?_⟩
    rw [hsame i (hne i (Or.inl hlive))]
    exact ⟨hlive, hrest⟩
  · intro r hr
    by_cases hrq : r = q
    · subst hrq
      rw [hself] at hr ⊢
      rcases hnew with ⟨hnone, -⟩ | ⟨-, -, hst⟩
      · exact hnone
      · rw [hst] at hr
        cases hr
    · rw [hsame r hrq] at hr ⊢
      exact h.free r hr
  · intro r hr hk
    by_cases hrq : r = q
    · subst hrq
      rw [hself]
      rcases hnew with ⟨hnone, -⟩ | ⟨-, hlink, -⟩
      · exact hnone
      · exact absurd (by simp [hlink]) (hk p)
    · rw [hsame r hrq] at hr ⊢
      apply h.embryo r hr
      intro x hx
      have hxp : x ≠ p := by
        rintro rfl
        exact hold r hx
      exact hk x (by simpa [hxp] using hx)
  · intro r s hk
    rcases hlinks r s hk with ⟨rfl, hk'⟩ | ⟨-, hk'⟩
    · rcases hnew with ⟨-, hnot⟩ | ⟨hparent, hlink, -⟩
      · exact absurd hk' (hnot s)
      · obtain rfl : q = s := by simpa using hlink.symm.trans hk'
        rw [hself]
        exact hparent
    · rw [hsame s (by rintro rfl; exact hno r hk')]
      exact h.linking r s hk'
  · intro i r hi hr
    have hrq : r ≠ q := by
      rintro rfl
      rw [hself] at hr
      exact hq' hr
    rw [hsame r hrq] at hr
    have hmono : ∀ x y, t.Child x y → ((t.setProc q f).setKCtx p k).Child x y := by
      rintro x y ⟨hs, hp, hl⟩
      have hx := hsame x (hne x hs)
      have hy := hsame y (hne y (Or.inl hl))
      exact ⟨by rwa [hx], by rwa [hx], by rwa [hy]⟩
    exact ReflTransGen.mono hmono _ _ (h.reaches i r hi hr)

/-- The new process starts, as a child of the one that has made it. -/
theorem forkFinish (ok : t.KernelOk) (h : t.Tree) (hcall : t.Calls cpu p (.linking np)) :
    ((t.setState np .runnable).setKCtx p .outside).Tree := by
  have hemb := (ok.forking p np (by rw [hcall.kctx]; rfl)).1
  have hnot : ¬ (t.proc np).state.Started := not_started_of_embryo hemb
  have hp : (t.proc p).state.Live := by simp [ok.onCpu cpu p hcall.cpu, ProcState.Live]
  have hsame : ∀ r, r ≠ np → ((t.setState np .runnable).setKCtx p .outside).proc r = t.proc r := by
    intro r hr
    simp [hr]
  have hself : ((t.setState np .runnable).setKCtx p .outside).proc np =
      { t.proc np with state := .runnable } := by simp
  have hne : ∀ r, (t.proc r).state.Started → r ≠ np := by
    rintro r hr rfl
    exact hnot hr
  have hmono : ∀ x y, t.Child x y → ((t.setState np .runnable).setKCtx p .outside).Child x y := by
    rintro x y ⟨hs, hparent, hl⟩
    have hx := hsame x (hne x hs)
    have hy := hsame y (hne y (Or.inl hl))
    exact ⟨by rwa [hx], by rwa [hx], by rwa [hy]⟩
  refine ⟨?_, ?_, ?_, ?_, ?_⟩
  · obtain ⟨i, hi, hlive, hrest⟩ := h.root
    refine ⟨i, hi, ?_⟩
    rw [hsame i (hne i (Or.inl hlive))]
    exact ⟨hlive, hrest⟩
  · intro r hr
    by_cases hrn : r = np
    · subst hrn
      rw [hself] at hr
      cases hr
    · rw [hsame r hrn] at hr ⊢
      exact h.free r hr
  · intro r hr hk
    by_cases hrn : r = np
    · subst hrn
      rw [hself] at hr
      cases hr
    · rw [hsame r hrn] at hr ⊢
      apply h.embryo r hr
      intro x hx
      by_cases hxp : x = p
      · subst hxp
        rw [hcall.kctx] at hx
        exact hrn (by simpa using hx.symm)
      · exact hk x (by simpa [hxp] using hx)
  · intro r s hk
    by_cases hrp : r = p
    · subst hrp
      simp at hk
    · have hk' : t.kctx r = .linking s := by simpa [hrp] using hk
      have hs : s ≠ np := by
        rintro rfl
        exact hrp (ok.child_inj r p s (by rw [hk']; rfl) (by rw [hcall.kctx]; rfl))
      rw [hsame s hs]
      exact h.linking r s hk'
  · intro i r hi hr
    by_cases hrn : r = np
    · subst hrn
      have hchild : ((t.setState r .runnable).setKCtx p .outside).Child r p := by
        refine ⟨hr, ?_, ?_⟩
        · rw [hself]
          exact h.linking p r hcall.kctx
        · rw [hsame p (hne p (Or.inl hp))]
          exact hp
      exact .head hchild (ReflTransGen.mono hmono _ _ (h.reaches i p hi (Or.inl hp)))
    · rw [hsame r hrn] at hr
      exact ReflTransGen.mono hmono _ _ (h.reaches i r hi hr)

/-- The exiting process becomes a zombie, and its children become children of init. -/
theorem exit (ok : t.KernelOk) (h : t.Tree) (hcall : t.Calls cpu p .outside)
    (hinit : some p ≠ t.initproc) : (t.exit cpu p).Tree := by
  have hstate : (t.proc p).state = .running := ok.onCpu cpu p hcall.cpu
  have hother : ∀ r, r ≠ p →
      ((t.handOver p).setState p .zombie).proc r = (t.handOver p).proc r := by
    intro r hr
    simp [hr]
  have hp : (((t.handOver p).setState p .zombie).proc p).state = .zombie := by simp
  have hparent : ∀ r, (((t.handOver p).setState p .zombie).proc r).parent =
      if (t.proc r).state ≠ .unused ∧ (t.proc r).parent = some p then t.initproc
      else (t.proc r).parent := by
    intro r
    rw [← handOver_parent]
    by_cases hr : r = p
    · subst hr
      simp
    · rw [hother r hr]
  have hstage : ∀ r, r ≠ p → (((t.handOver p).setState p .zombie).proc r).state.stage =
      (t.proc r).state.stage := by
    intro r hr
    rw [hother r hr, handOver_stage]
  have hlive : ∀ r, r ≠ p → (t.proc r).state.Live →
      (((t.handOver p).setState p .zombie).proc r).state.Live := by
    intro r hr hl
    rwa [← stage_live, hstage r hr, stage_live]
  have hstarted : ∀ r, (((t.handOver p).setState p .zombie).proc r).state.Started ↔
      (t.proc r).state.Started := by
    intro r
    by_cases hr : r = p
    · subst hr
      simp [hstate, ProcState.Started, ProcState.Live]
    · rw [stage_started, hstage r hr, stage_started]
  have hframe : ((t.handOver p).setState p .zombie).initproc = t.initproc ∧
      ((t.handOver p).setState p .zombie).kctx = t.kctx := by
    rw [handOver_frame]
    exact ⟨rfl, rfl⟩
  obtain ⟨i, hi, hilive, hipid, hiparent⟩ := h.root
  have hip : i ≠ p := by
    rintro rfl
    exact hinit hi.symm
  apply Quiet.leaveCpu.sameTree.tree
  refine ⟨⟨i, hframe.1.trans hi, hlive i hip hilive, ?_, ?_⟩, ?_, ?_, ?_, ?_⟩
  · rw [hother i hip, ← hipid]
    exact handOver_field (f := Proc.pid) (fun _ _ => rfl) fun _ _ => rfl
  · rw [hparent, if_neg (by simp [hiparent]), hiparent]
  · intro r hr
    have hrp : r ≠ p := by
      rintro rfl
      rw [hp] at hr
      cases hr
    have hr' : (t.proc r).state = .unused := by
      rwa [← stage_unused, hstage r hrp, stage_unused] at hr
    rw [hparent, if_neg (by simp [hr']), h.free r hr']
  · intro r hr hk
    have hrp : r ≠ p := by
      rintro rfl
      rw [hp] at hr
      cases hr
    have hr' : (t.proc r).state = .embryo := by
      rwa [← stage_embryo, hstage r hrp, stage_embryo] at hr
    rw [hframe.2] at hk
    have hnone := h.embryo r hr' hk
    rw [hparent, if_neg (by simp [hnone]), hnone]
  · intro x r hk
    rw [hframe.2] at hk
    have hxp : x ≠ p := by
      rintro rfl
      rw [hcall.kctx] at hk
      cases hk
    have hr := h.linking x r hk
    rw [hparent, if_neg (by simp [hr, hxp]), hr]
  · intro j r hj hr
    obtain rfl : i = j := Option.some.inj (hi.symm.trans (hframe.1.symm.trans hj))
    rw [hstarted] at hr
    -- along the old path to init, a child of `p` takes the shortcut
    refine (h.reaches i r hi hr).head_induction_on .refl ?_
    rintro x y ⟨hs, hxy, hl⟩ - ih
    by_cases hyp : y = p
    · subst hyp
      apply ReflTransGen.single
      refine ⟨(hstarted x).mpr hs, ?_, hlive i hip hilive⟩
      have hused : (t.proc x).state ≠ .unused := fun hcon => not_started_of_unused hcon hs
      rw [hparent, if_pos ⟨hused, hxy⟩, hi]
    · refine .head ⟨(hstarted x).mpr hs, ?_, hlive y hyp hl⟩ ih
      rw [hparent, if_neg (by simp [hxy, hyp]), hxy]

/-- A zombie is nobody's parent. -/
theorem reap (ok : t.KernelOk) (h : t.Tree) (hz : (t.proc q).state = .zombie) :
    (t.reap q).Tree := by
  have hsame : ∀ r, r ≠ q → (t.reap q).proc r = t.proc r := by
    intro r hr
    simp [Table.reap, hr]
  have hself : ((t.reap q).proc q).state = .unused ∧ ((t.reap q).proc q).parent = none := by
    simp [Table.reap, Proc.reapFields]
  have hne : ∀ r, (t.proc r).state.Live → r ≠ q := by
    rintro r hr rfl
    rw [hz] at hr
    rcases hr with h | h | h <;> cases h
  refine ⟨?_, ?_, ?_, ?_, ?_⟩
  · obtain ⟨i, hi, hlive, hrest⟩ := h.root
    refine ⟨i, hi, ?_⟩
    rw [hsame i (hne i hlive)]
    exact ⟨hlive, hrest⟩
  · intro r hr
    by_cases hrq : r = q
    · subst hrq
      exact hself.2
    · rw [hsame r hrq] at hr ⊢
      exact h.free r hr
  · intro r hr hk
    by_cases hrq : r = q
    · subst hrq
      exact hself.2
    · rw [hsame r hrq] at hr ⊢
      exact h.embryo r hr hk
  · intro x r hk
    have hrq : r ≠ q := by
      rintro rfl
      have hemb := (ok.forking x r (by rw [show t.kctx x = _ from hk]; rfl)).1
      rw [hz] at hemb
      cases hemb
    rw [hsame r hrq]
    exact h.linking x r hk
  · intro i r hi hr
    have hrq : r ≠ q := by
      rintro rfl
      exact not_started_of_unused hself.1 hr
    rw [hsame r hrq] at hr
    have hpath := h.reaches i r hi hr
    -- the path from `r` does not come to `q`, since `q` is not live
    clear hr
    induction hpath using ReflTransGen.head_induction_on with
    | refl => exact .refl
    | @head x y hc _ ih =>
      obtain ⟨hs, hxy, hl⟩ := hc
      have hx := hsame x hrq
      have hy := hsame y (hne y hl)
      exact .head ⟨by rwa [hx], by rwa [hx], by rwa [hy]⟩ (ih (hne y hl))

theorem parent_ne_self (h : t.Tree) (hp : (t.proc p).state.Started) :
    (t.proc p).parent ≠ some p := by
  intro hself
  obtain ⟨i, hi, -, -, hparent⟩ := h.root
  have hpath := h.reaches i p hi hp
  have hroot : p = i := by
    generalize hx : p = x at hpath
    induction hpath using ReflTransGen.head_induction_on with
    | refl => rfl
    | @head x y hc _ ih =>
      subst hx
      have hy : p = y := Option.some.inj (hself.symm.trans hc.parent)
      exact hy.trans (ih hy)
  rw [hroot, hparent] at hself
  cases hself

/-- Nobody else is at the end of a `fork` for the slot that `p` has taken. -/
theorem not_linking (ok : t.KernelOk) (hk : (t.kctx p).child = some np)
    (hp : ∀ r, t.kctx p ≠ .linking r) : ∀ r, t.kctx r ≠ .linking np := by
  intro r hr
  obtain rfl : r = p := ok.child_inj r p np (by rw [hr]; rfl) hk
  exact hp np hr

theorem step (ok : t.KernelOk) (h : t.Tree) (hs : t.Step act ev t') : t'.Tree := by
  cases hs.change ok with
  | quiet hq _ => exact hq.sameTree.tree h
  | @born cpu p np hcall hnp =>
    have hno : ∀ r, t.kctx r ≠ .linking np := by
      intro r hr
      have hemb := (ok.forking r np (by rw [hr]; rfl)).1
      rw [hnp] at hemb
      cases hemb
    have hset : ((t.setProc np fun r => { r with state := .embryo, pid := t.nextpid }).setKCtx p
        (.allocating np)).Tree :=
      h.setProc (not_started_of_unused hnp) (not_started_of_embryo rfl) (by simp [hcall.kctx]) hno
        (Or.inl ⟨h.free np hnp, by simp⟩)
    refine SameTree.tree ?_ hset
    exact ⟨fun _ => rfl, fun _ => rfl, fun _ => rfl, rfl, fun _ _ => Iff.rfl⟩
  | @kallocFails cpu p np hcall =>
    have hk : (t.kctx p).child = some np := by rw [hcall.kctx]; rfl
    have hemb := (ok.forking p np hk).1
    have hp : ∀ r, t.kctx p ≠ .linking r := by simp [hcall.kctx]
    have hno := not_linking ok hk hp
    exact h.setProc (not_started_of_embryo hemb) (not_started_of_unused rfl) hp hno
      (Or.inl ⟨h.embryo np hemb hno, by simp⟩)
  | @copyuvmFails cpu p np hcall =>
    have hk : (t.kctx p).child = some np := by rw [hcall.kctx]; rfl
    have hemb := (ok.forking p np hk).1
    have hp : ∀ r, t.kctx p ≠ .linking r := by simp [hcall.kctx]
    have hno := not_linking ok hk hp
    exact h.setProc (not_started_of_embryo hemb) (not_started_of_unused rfl) hp hno
      (Or.inl ⟨h.embryo np hemb hno, by simp⟩)
  | @copyuvm cpu p np pgdir hruns =>
    have hk : (t.kctx p).child = some np := by rw [hruns.kctx]; rfl
    have hemb := (ok.forking p np hk).1
    have hp : ∀ r, t.kctx p ≠ .linking r := by simp [hruns.kctx]
    exact h.setProc (not_started_of_embryo hemb) (not_started_of_embryo hemb) hp
      (not_linking ok hk hp) (Or.inr ⟨rfl, rfl, hemb⟩)
  | forkFinish hcall => exact h.forkFinish ok hcall
  | exit hcall hinit => exact h.exit ok hcall hinit
  | reaped _ hz _ hq => exact hq.sameTree.tree (h.reap ok hz)
  | killed _ hq _ => exact hq.sameTree.tree (SameTree.setKilled.tree h)

end Tree

end Table

/-- Every reachable process table is a tree. -/
theorem reachable_tree (hs : procSystem.Reachable s) : s.Tree :=
  table_invariant (fun _ _ h => h.tree) (fun _ _ _ _ ok h hstep => h.step ok hstep) hs

end Xv6Kernel
