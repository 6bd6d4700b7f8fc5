/-
  TableScan.lean
  ==============
  The process code of the build without `CS333_P3P4`.

  In that build `wakeup1`, `exit`, `wait` and `kill` loop over the whole of `ptable.proc`
  and there are no lists.  The code with lists does the same to the `state`, `parent` and
  `killed` field of every slot, with one exception: the loops over the table also visit
  UNUSED slots.  An UNUSED slot whose `parent` field still names the caller is passed to
  init by one version of `exit` and not by the other, and it counts as a child in one
  version of `wait` only.  No reachable state has such a slot, since `wait` clears the
  field.
-/
import Xv6Kernel.ProcTree
import Xv6Kernel.StateLists

namespace Xv6Kernel

open List

open PTable (readyLists childLists WaitResult)

/-! ### The code -/

/-- The assignments of `wait` to the slot it frees. -/
def Proc.scanReap (r : Proc) : Proc :=
  { r with
    kstack := none
    state := .unused
    pid := 0
    parent := none
    name := ""
    killed := false }

namespace Table

def scanWakeOne (chan : Option Chan) (t : Table) (p : Slot) : Table :=
  if (t.proc p).state = .sleeping ∧ (t.proc p).chan = chan then t.setState p .runnable else t

def scanWakeup1 (chan : Option Chan) (t : Table) : Table :=
  (List.finRange NPROC).foldl (scanWakeOne chan) t

def sched (cpu : Cpu) (p : Slot) (t : Table) : Except Panic Table :=
  if (t.proc p).state = .running then .error .schedRunning else .ok (t.leaveCpu cpu p)

def scanReparent (p : Slot) (t : Table) (q : Slot) : Table :=
  if (t.proc q).parent = some p then
    let t := t.setParent q t.initproc
    if (t.proc q).state = .zombie then t.scanWakeup1 (t.initproc.map Chan.proc) else t
  else t

def scanExit (cpu : Cpu) (p : Slot) (t : Table) : Except Panic Table :=
  if some p = t.initproc then .error .initExiting
  else
    -- parent might be sleeping in wait()
    let t := t.scanWakeup1 ((t.proc p).parent.map Chan.proc)
    -- pass abandoned children to init
    let t := (List.finRange NPROC).foldl (scanReparent p) t
    (t.setState p .zombie).sched cpu p

def scanSleep (cpu : Cpu) (p : Slot) (chan : Chan) (t : Table) : Except Panic Table :=
  ((t.setChan p (some chan)).setState p .sleeping).sched cpu p

/-- The loop of `wait` over the table, which ends at the first zombie child; also returns
    `havekids`. -/
def scanChildren (p : Slot) (t : Table) : List Slot → Bool → Bool × Option Slot
  | [], havekids => (havekids, none)
  | q :: qs, havekids =>
      if (t.proc q).parent ≠ some p then scanChildren p t qs havekids
      else if (t.proc q).state = .zombie then (true, some q)
      else scanChildren p t qs true

/-- One pass of the `for(;;)` loop of `wait`. -/
def scanWaitPass (cpu : Cpu) (p : Slot) (t : Table) : Except Panic (WaitResult × Table) :=
  match t.scanChildren p (List.finRange NPROC) false with
  | (_, some q) => .ok (.reaped q (t.proc q).pid, t.setProc q Proc.scanReap)
  | (havekids, none) =>
      if !havekids || (t.proc p).killed then .ok (.failed, t)
      else do
        let t ← t.scanSleep cpu p (.proc p)
        return (.sleeps, t)

def scanKillFrom (pid : Uint) (t : Table) : List Slot → Int × Table
  | [] => (-1, t)
  | p :: ps =>
      if (t.proc p).pid = pid then
        let t := t.setKilled p
        (0, if (t.proc p).state = .sleeping then t.setState p .runnable else t)
      else scanKillFrom pid t ps

def scanKill (pid : Uint) (t : Table) : Int × Table := t.scanKillFrom pid (List.finRange NPROC)

/-! ### What the loops do -/

variable {t : Table} {q : Slot} {chan : Option Chan}

theorem foldl_scanWakeOne (qs : List Slot) : qs.foldl (scanWakeOne chan) t = { t with
        proc := fun q =>
          if q ∈ qs ∧ (t.proc q).state = .sleeping ∧ (t.proc q).chan = chan then
            { t.proc q with state := .runnable }
          else t.proc q } := by
  induction qs generalizing t with
  | nil => simp
  | cons r qs ih =>
    rw [foldl_cons, ih]
    unfold scanWakeOne
    by_cases hr : (t.proc r).state = .sleeping ∧ (t.proc r).chan = chan
    · rw [if_pos hr]
      apply ext_proc
      · intro q
        by_cases hqr : q = r
        · subst hqr
          simp [hr]
        · simp [hqr]
      · rfl
    · rw [if_neg hr]
      apply ext_proc
      · intro q
        by_cases hqr : q = r
        · subst hqr
          simp [hr]
        · simp [hqr]
      · rfl

theorem scanWakeup1_eq : t.scanWakeup1 chan = t.wakeup1 chan := by
  unfold scanWakeup1 wakeup1
  rw [foldl_scanWakeOne]
  simp only [mem_finRange, true_and]

/-- The loop of `exit`, on any list of slots: wakes of init after the first change nothing
    more. -/
theorem foldl_scanReparent (qs : List Slot) : qs.foldl (scanReparent p) t =
      if ∃ z ∈ qs, (t.proc z).state = .zombie ∧ (t.proc z).parent = some p then
        (t.passToInit p (· ∈ qs)).wakeup1 (t.initproc.map Chan.proc)
      else t.passToInit p (· ∈ qs) := by
  induction qs generalizing t with
  | nil => simp [passToInit]
  | cons r qs ih =>
    rw [foldl_cons, ih]
    unfold scanReparent
    by_cases hr : (t.proc r).parent = some p
    · have hstate : ∀ z, ((t.setParent r t.initproc).proc z).state = (t.proc z).state := by
        intro z
        by_cases hzr : z = r
        · subst hzr
          simp
        · simp [hzr]
      simp only [if_pos hr, hstate, scanWakeup1_eq]
      by_cases hz : (t.proc r).state = .zombie
      · have hex : ∃ z ∈ r :: qs, (t.proc z).state = .zombie ∧ (t.proc z).parent = some p :=
          ⟨r, by simp, hz, hr⟩
        simp only [if_pos hz, if_pos hex, passToInit_wakeup1, passToInit_cons hr]
        split_ifs
        · exact wakeup1_wakeup1
        · rfl
      · have hex : (∃ z ∈ qs, (t.proc z).state = .zombie ∧
            ((t.setParent r t.initproc).proc z).parent = some p) ↔
            ∃ z ∈ r :: qs, (t.proc z).state = .zombie ∧ (t.proc z).parent = some p := by
          constructor
          · rintro ⟨z, hzq, hzst, hzp⟩
            have hzr : z ≠ r := by
              rintro rfl
              exact hz hzst
            exact ⟨z, mem_cons_of_mem r hzq, hzst, by simpa [hzr] using hzp⟩
          · rintro ⟨z, hzq, hzst, hzp⟩
            have hzr : z ≠ r := by
              rintro rfl
              exact hz hzst
            refine ⟨z, ?_, hzst, by simpa [hzr] using hzp⟩
            simpa [hzr] using hzq
        simp only [if_neg hz, hstate, hex, passToInit_cons hr]
        rfl
    · have hex : (∃ z ∈ r :: qs, (t.proc z).state = .zombie ∧ (t.proc z).parent = some p) ↔
          ∃ z ∈ qs, (t.proc z).state = .zombie ∧ (t.proc z).parent = some p := by simp [hr]
      simp only [if_neg hr, hex, passToInit_cons_of_ne hr]

/-- An UNUSED slot that the caller `p` is still entered in as the parent of. -/
def StaleChild (t : Table) (p : Slot) : Prop :=
  ∃ q, (t.proc q).state = .unused ∧ (t.proc q).parent = some p

theorem foldl_scanReparent_abandon (hstale : ¬ t.StaleChild p) :
    (List.finRange NPROC).foldl (scanReparent p) t = t.abandon p := by
  have hpass : t.passToInit p (· ∈ List.finRange NPROC) =
      t.passToInit p fun q => (t.proc q).state ≠ .unused := by
    apply ext_proc
    · intro q
      have hiff : (t.proc q).parent = some p ↔
          (t.proc q).state ≠ .unused ∧ (t.proc q).parent = some p :=
        ⟨fun h => ⟨fun hst => hstale ⟨q, hst, h⟩, h⟩, fun h => h.2⟩
      simp only [passToInit_proc, mem_finRange, true_and]
      simp only [← hiff]
    · rfl
  rw [foldl_scanReparent, hpass]
  unfold abandon HasZombie
  simp only [mem_finRange, true_and]

theorem wakeup1_stale (h : ¬ t.StaleChild p) : ¬ (t.wakeup1 chan).StaleChild p := by
  rintro ⟨q, hst, hp⟩
  apply h
  by_cases hq : (t.proc q).state = .sleeping ∧ (t.proc q).chan = chan
  · simp [hq] at hst
  · simp only [wakeup1_proc, if_neg hq] at hst hp
    exact ⟨q, hst, hp⟩

/-- Without such a slot the loops of `exit` have the effect of those over the lists. -/
theorem scanExit_eq (hinit : some p ≠ t.initproc) (hstale : ¬ t.StaleChild p) :
    t.scanExit cpu p = .ok (t.exit cpu p) := by
  unfold scanExit
  rw [if_neg hinit]
  simp only [scanWakeup1_eq, foldl_scanReparent_abandon (wakeup1_stale hstale)]
  unfold sched
  rw [if_neg (by simp)]
  rfl

/-! ### wait -/

def isZombieChild (t : Table) (p q : Slot) : Bool :=
  decide ((t.proc q).parent = some p ∧ (t.proc q).state = .zombie)

theorem scanChildren_eq (qs : List Slot) (b : Bool) :
    (t.scanChildren p qs b).2 = qs.find? (t.isZombieChild p) ∧ ((t.scanChildren p qs b).2 = none →
        (t.scanChildren p qs b).1 =
        (b || qs.any fun q => decide ((t.proc q).parent = some p))) := by
  induction qs generalizing b with
  | nil => simp [scanChildren]
  | cons q qs ih =>
    unfold scanChildren
    by_cases hc : (t.proc q).parent = some p
    · rw [if_neg (by simp [hc])]
      by_cases hz : (t.proc q).state = .zombie
      · simp [hz, hc, isZombieChild]
      · have hno : t.isZombieChild p q = false := by simp [isZombieChild, hz]
        rw [if_neg hz, find?_cons_of_neg (by simp [hno])]
        refine ⟨(ih true).1, fun hnone => ?_⟩
        rw [(ih true).2 hnone]
        simp [hc]
    · have hno : t.isZombieChild p q = false := by simp [isZombieChild, hc]
      rw [if_pos hc, find?_cons_of_neg (by simp [hno])]
      refine ⟨(ih b).1, fun hnone => ?_⟩
      rw [(ih b).2 hnone]
      simp [hc]

/-- One pass of `wait` has reaped `q`. -/
structure Reaps (t : Table) (p q : Slot) (pid : Uint) (t' : Table) : Prop where
  zombie : (t.proc q).state = .zombie
  child : (t.proc q).parent = some p
  pid_eq : pid = (t.proc q).pid
  slot : t' = t.setProc q Proc.scanReap

/-- The tables agree on the fields that the code without lists has. -/
def SameFields (t t' : Table) : Prop :=
  ∀ q, (t.proc q).state = (t'.proc q).state ∧ (t.proc q).parent = (t'.proc q).parent ∧
    (t.proc q).killed = (t'.proc q).killed

/-- Two passes of `wait` from the table `t` end in the same way. -/
def WaitAgrees (t : Table) (p : Slot) : WaitResult × Table → WaitResult × Table → Prop
  | (.reaped q pid, t₁), (.reaped q' pid', t₂) => t.Reaps p q pid t₁ ∧ t.Reaps p q' pid' t₂
  | (.failed, t₁), (.failed, t₂) => t₁ = t ∧ t₂ = t
  | (.sleeps, t₁), (.sleeps, t₂) => SameFields t₁ t₂
  | _, _ => False

/-- Without a zombie child `wait` looks at whether there is a child at all. -/
theorem scanWaitPass_eq (t : Table) (p : Slot) (cpu : Cpu) :
    (∃ q, t.scanWaitPass cpu p = .ok (.reaped q (t.proc q).pid, t.setProc q Proc.scanReap) ∧
      (t.proc q).state = .zombie ∧ (t.proc q).parent = some p) ∨
    (¬ t.HasZombie p ∧ t.scanWaitPass cpu p =
      if (∃ q, (t.proc q).parent = some p) ∧ (t.proc p).killed = false then
        .ok (.sleeps, ((t.setChan p (some (.proc p))).setState p .sleeping).leaveCpu cpu p)
      else .ok (.failed, t)) := by
  obtain ⟨hfind, hkids⟩ := scanChildren_eq (t := t) (p := p) (List.finRange NPROC) false
  unfold scanWaitPass
  rcases hs : t.scanChildren p (List.finRange NPROC) false with ⟨havekids, _ | q⟩
  · right
    rw [hs] at hfind hkids
    have hnone := find?_eq_none.mp hfind.symm
    refine ⟨?_, ?_⟩
    · rintro ⟨z, hz, hzp⟩
      exact hnone z (mem_finRange z) (by simp [isZombieChild, hz, hzp])
    · have hany : havekids = true ↔ ∃ q, (t.proc q).parent = some p := by
        have hb := hkids rfl
        dsimp only at hb
        rw [hb]
        simp
      by_cases hkid : ∃ q, (t.proc q).parent = some p
      · have htrue := hany.mpr hkid
        cases hk : (t.proc p).killed with
        | true => simp [htrue]
        | false =>
          simp only [htrue, hkid, Bool.not_true, Bool.or_self, Bool.false_eq_true, if_false,
            and_self, if_true]
          unfold scanSleep sched
          rw [if_neg (by simp)]
          rfl
      · have hfalse : havekids = false := by simpa [hkid] using hany
        simp [hfalse, hkid]
  · left
    rw [hs] at hfind
    have hq := find?_some hfind.symm
    simp only [isZombieChild, decide_eq_true_eq] at hq
    exact ⟨q, rfl, hq.2, hq.1⟩

/-! ### kill -/

def killEffect (p : Slot) (t : Table) : Table :=
  if (t.proc p).state = .sleeping then (t.setKilled p).setState p .runnable else t.setKilled p

theorem scanKillFrom_eq (hq : q ∈ qs) (hpid : (t.proc q).pid = pid)
    (huniq : ∀ r, (t.proc r).pid = pid → r = q) :
    t.scanKillFrom pid qs = (0, t.killEffect q) := by
  induction qs with
  | nil => simp at hq
  | cons r qs ih =>
    unfold scanKillFrom
    by_cases hr : (t.proc r).pid = pid
    · obtain rfl := huniq r hr
      rw [if_pos hr]
      simp [killEffect]
    · have hqr : q ≠ r := by
        rintro rfl
        exact hr hpid
      rw [if_neg hr]
      exact ih (by simpa [hqr] using hq)

end Table

/-! ### The code with lists -/

namespace Queues

variable {a : Queues} {p q : Slot} {cpu : Cpu}

theorem reap_toTable : (a.reap q).toTable = a.toTable.setProc q Proc.scanReap := by
  apply Table.ext_proc
  · intro r
    by_cases hr : r = q
    · subst hr
      simp [reap, shiftHead, Proc.reapFields, Proc.scanReap]
    · simp [reap, shiftHead, hr]
  · rfl

theorem sleep_sameFields : Table.SameFields (a.sleep cpu p chan).toTable
      (((a.toTable.setChan p (some chan)).setState p .sleeping).leaveCpu cpu p) := by
  intro q
  by_cases hq : q = p
  · subst hq
    simp [sleep, shiftHead, Table.leaveCpu, Proc.schedTicks, Proc.budgetupdate]
    split_ifs <;> simp
  · simp [sleep, shiftHead, Table.leaveCpu, hq]

theorem waitPass_agrees (cpu : Cpu) (ok : a.Ok) (hstale : ¬ a.StaleChild p) :
    ∃ r, a.toTable.scanWaitPass cpu p = .ok r ∧
      a.toTable.WaitAgrees p ((a.waitPass cpu p).1, (a.waitPass cpu p).2.toTable) r := by
  have hzombie : ∀ q, q ∈ a.lists .zombie ↔ (a.proc q).state = .zombie := by
    intro q
    rw [ok.mem, Proc.list_eq_zombie]
  unfold waitPass
  cases hfind : (a.lists .zombie).find? (a.isChild p) with
  | some q =>
    have hq : (a.proc q).state = .zombie := (hzombie q).mp (mem_of_find?_eq_some hfind)
    have hqp : (a.proc q).parent = some p := isChild_iff.mp (find?_some hfind)
    have hreap : a.toTable.Reaps p q (a.proc q).pid (a.reap q).toTable :=
      ⟨hq, hqp, rfl, reap_toTable⟩
    rcases a.toTable.scanWaitPass_eq p cpu with ⟨q', hrun, hz, hzp⟩ | ⟨hno, -⟩
    · exact ⟨_, hrun, hreap, ⟨hz, hzp, rfl, rfl⟩⟩
    · exact absurd ⟨q, hq, hqp⟩ hno
  | none =>
    have hnone := find?_eq_none.mp hfind
    have hno : ¬ a.HasZombie p := by
      rintro ⟨z, hz, hzp⟩
      exact hnone z ((hzombie z).mpr hz) (isChild_iff.mpr hzp)
    have hkids : a.haveKids p = true ↔ ∃ q, (a.proc q).parent = some p := by
      rw [haveKids_iff ok.toListsOk]
      constructor
      · rintro ⟨q, -, hq⟩
        exact ⟨q, hq⟩
      · rintro ⟨q, hq⟩
        exact ⟨q, ⟨fun hu => hstale ⟨q, hu, hq⟩, fun hz => hno ⟨q, hz, hq⟩⟩, hq⟩
    rcases a.toTable.scanWaitPass_eq p cpu with ⟨q', -, hz, hzp⟩ | ⟨-, hrun⟩
    · exact absurd ⟨q', hz, hzp⟩ hno
    · by_cases hsleep : (∃ q, (a.proc q).parent = some p) ∧ (a.proc p).killed = false
      · rw [if_pos hsleep] at hrun
        refine ⟨_, hrun, ?_⟩
        simp only [hkids.mpr hsleep.1, hsleep.2]
        exact sleep_sameFields
      · rw [if_neg hsleep] at hrun
        refine ⟨_, hrun, ?_⟩
        have hfail : (!a.haveKids p || (a.proc p).killed) = true := by
          by_contra hcon
          simp only [Bool.or_eq_true, Bool.not_eq_true', not_or, Bool.not_eq_false,
            Bool.not_eq_true] at hcon
          exact hsleep ⟨hkids.mp hcon.1, hcon.2⟩
        simp only [hfail, if_true]
        exact ⟨rfl, rfl⟩

/-- The lists that `kill` searches first are those of the processes that do not sleep. -/
theorem list_mem_searched {r : Proc} (hu : r.state ≠ .unused) (hs : r.state ≠ .sleeping) :
    r.list ∈ readyLists ++ [.running, .embryo, .zombie] := by
  unfold Proc.list
  cases hst : r.state with
  | unused => exact absurd hst hu
  | sleeping => exact absurd hst hs
  | runnable =>
    rw [mem_append]
    exact Or.inl (mem_map.mpr ⟨_, mem_finRange _, rfl⟩)
  | embryo => simp
  | running => simp
  | zombie => simp

theorem kill_toTable {pid : Uint} (ok : a.Ok) (hq : (a.proc q).state ≠ .unused)
    (hpid : (a.proc q).pid = pid) (huniq : ∀ r, (a.proc r).pid = pid → r = q) :
    (a.kill pid).1 = 0 ∧ (a.kill pid).2.toTable = a.toTable.killEffect q := by
  have hmem : q ∈ a.lists (a.proc q).list := (ok.mem q _).mpr rfl
  unfold kill Table.killEffect
  rcases hs : a.search (a.hasPid pid) (readyLists ++ [.running, .embryo, .zombie]) with _ | ⟨l, r⟩
  · have hsleep : (a.proc q).state = .sleeping := by
      by_contra hno
      have hmiss := search_none hs _ (list_mem_searched hq hno) q hmem
      rw [hasPid_iff.mpr hpid] at hmiss
      cases hmiss
    simp only [hs, if_pos hsleep]
    cases hfind : (a.lists .sleep).find? (a.hasPid pid) with
    | none =>
      rw [Proc.list_eq_sleep.mpr hsleep] at hmem
      exact absurd (hasPid_iff.mpr hpid) (find?_eq_none.mp hfind q hmem)
    | some r =>
      obtain rfl := huniq r (hasPid_iff.mp (find?_some hfind))
      exact ⟨rfl, rfl⟩
  · obtain ⟨hl, hr, hit⟩ := search_mem hs
    obtain rfl := huniq r (hasPid_iff.mp hit)
    have hno : (a.proc r).state ≠ .sleeping := by
      intro hst
      rw [ok.mem, Proc.list_eq_sleep.mpr hst] at hr
      subst hr
      revert hl
      decide
    simp only [hs, if_neg hno]
    exact ⟨trivial, rfl⟩

end Queues

/-! ### The two builds compared -/

namespace Table

theorem SameFields.of_eq {t t' : Table} (h : t = t') : t.SameFields t' := by
  subst h
  exact fun _ => ⟨rfl, rfl, rfl⟩

end Table

/-- The two results are the same panic, or tables that agree on the fields. -/
def AgreesWith : Except Panic PTable → Except Panic Table → Prop
  | .ok s, .ok t => s.SameFields t
  | .error e, .error e' => e = e'
  | _, _ => False

/-- The code with lists does what the code without lists does, in every state in which the
    lists are in order, the priorities of sleeping and running processes are in range and no
    other slot, UNUSED slots included, has the pid of a process.  For `exit` and `wait` no
    UNUSED slot may name the caller as its parent. -/
theorem list_code_refines_table_scan {s : PTable} {L : ListId → List Slot}
    (hinv : StateListInv s L) (hprio : s.PrioOk)
    (hpid : ∀ q r, (s.proc q).state ≠ .unused → (s.proc r).pid = (s.proc q).pid → r = q) :
    (∀ chan, ∃ s', s.wakeup1 chan = .ok s' ∧ s'.SameFields (s.scanWakeup1 chan)) ∧
    (∀ cpu p, (s.proc p).state = .running → ¬ s.StaleChild p →
      AgreesWith (s.exit cpu p) (s.scanExit cpu p)) ∧
    (∀ q, (s.proc q).state ≠ .unused →
      ∃ s', s.kill (s.proc q).pid = .ok ((s.scanKill (s.proc q).pid).1, s') ∧
        s'.SameFields (s.scanKill (s.proc q).pid).2) ∧
    ∀ cpu p, (s.proc p).state = .running → ¬ s.StaleChild p →
      ∃ r s' r', s.waitPass cpu p = .ok (r, s') ∧ s.scanWaitPass cpu p = .ok r' ∧
        s.WaitAgrees p (r, s'.toTable) r' := by
  obtain ⟨hr, hlists⟩ := hinv.represents
  have ok : (⟨s.toTable, L, s.inserts, s.stamp⟩ : Queues).Ok := ⟨hlists, hprio⟩
  refine ⟨?_, ?_, ?_, ?_⟩
  · intro chan
    obtain ⟨s', hrun, hr'⟩ := hr.wakeup1 hlists hprio chan
    refine ⟨s', hrun, Table.SameFields.of_eq ?_⟩
    rw [hr'.table, Queues.wakeup1_toTable hlists, Table.scanWakeup1_eq]
  · intro cpu p hst hstale
    by_cases hinit : some p = s.initproc
    · unfold PTable.exit Table.scanExit
      rw [if_pos hinit, if_pos hinit]
      rfl
    · obtain ⟨s', hrun, hr'⟩ := hr.exit ok cpu hinit hst
      rw [hrun, Table.scanExit_eq hinit hstale]
      apply Table.SameFields.of_eq
      rw [hr'.table, Queues.exit_toTable ok]
  · intro q hq
    obtain ⟨s', hrun, hr'⟩ := hr.kill ok (s.proc q).pid
    obtain ⟨hzero, htable⟩ := Queues.kill_toTable (q := q) ok hq rfl (fun r => hpid q r hq)
    have hscan : s.scanKill (s.proc q).pid = (0, s.killEffect q) :=
      Table.scanKillFrom_eq (mem_finRange q) rfl fun r => hpid q r hq
    rw [hscan]
    refine ⟨s', hzero ▸ hrun, Table.SameFields.of_eq ?_⟩
    rw [hr'.table, htable]
  · intro cpu p hst hstale
    obtain ⟨s', hrun, hr'⟩ := hr.waitPass ok cpu hst
    obtain ⟨r', hscan, hagree⟩ := Queues.waitPass_agrees cpu ok hstale
    refine ⟨_, s', r', hrun, hscan, ?_⟩
    rw [hr'.table]
    exact hagree

/-- The states that the kernel reaches have their priorities in range and no slot that would
    make the two builds differ. -/
theorem reachable_prioOk_noStale (hs : procSystem.Reachable s) :
    s.PrioOk ∧ ∀ p, ¬ s.StaleChild p := by
  obtain ⟨a, ha, hr⟩ := reachable_represents hs
  refine ⟨?_, ?_⟩
  · rw [hr.table]
    exact (queueSystem_inv ha).live
  · rintro p ⟨q, hq, hqp⟩
    have hnone := (reachable_tree hs).free q hq
    rw [hnone] at hqp
    cases hqp

/-- The table with all pids distinct and the given parent in slot 0. -/
def PTable.renumber (parent : Option Slot) (s : PTable) : PTable :=
  s.upd fun t =>
    { t with
      proc := fun q =>
        { t.proc q with
          pid := BitVec.ofNat 32 (q.val + 1)
          parent := if q = 0 then parent else (t.proc q).parent } }

theorem StateListInv.renumber (h : StateListInv s L)
    (parent : Option Slot) : StateListInv (s.renumber parent) L := by
  refine ⟨h.chain, h.once, ?_, h.prio, h.noMiss⟩
  intro p l hp
  have hholds := h.named p l hp
  cases l <;> exact hholds

theorem PTable.renumber_prioOk {s : PTable} {parent : Option Slot} (h : s.PrioOk) :
    (s.renumber parent).PrioOk := fun q hq => h q hq

theorem PTable.renumber_pid {s : PTable} {parent : Option Slot} {q r : Slot}
    (h : ((s.renumber parent).proc r).pid = ((s.renumber parent).proc q).pid) : r = q := by
  have hval : BitVec.ofNat 32 (r.val + 1) = BitVec.ofNat 32 (q.val + 1) := h
  have hnat := congrArg BitVec.toNat hval
  have hq := q.isLt
  have hr := r.isLt
  have hn : NPROC = 64 := rfl
  simp only [BitVec.toNat_ofNat] at hnat
  apply Fin.ext
  omega

/-- Init has forked a child, which runs. -/
def childRuns : PTable :=
  afterActs [.scheduler 0, .resume 0,
    .allocproc 0, .kalloc 0 (some 3), .copyuvm 0 (some 4), .forkFinish 0,
    .scheduler 1, .resume 1]

theorem childRuns_reachable : procSystem.Reachable childRuns := afterActs_reachable _

theorem list_code_refines_table_scan_childRuns :
    ((childRuns.renumber none).proc 62).state = .running ∧
      AgreesWith ((childRuns.renumber none).exit 1 62)
      ((childRuns.renumber none).scanExit 1 62) := by
  have hst : ((childRuns.renumber none).proc 62).state = .running := by decide +kernel
  obtain ⟨L, hL⟩ := reachable_stateListInv childRuns_reachable
  have hprio := (reachable_prioOk_noStale childRuns_reachable).1
  refine ⟨hst, (list_code_refines_table_scan (hL.renumber none) (PTable.renumber_prioOk hprio)
    fun q r _ => PTable.renumber_pid).2.1 1 62 hst ?_⟩
  rintro ⟨q, hq, hqp⟩
  have hall : ∀ q : Slot, ((childRuns.renumber none).proc q).state = .unused →
      ((childRuns.renumber none).proc q).parent ≠ some 62 := by decide +kernel
  exact hall q hq hqp

/-- The lists are in order and all pids differ, but `exit` leaves the stale parent of an
    UNUSED slot alone where the loop over the table replaces it. -/
theorem exit_differs_on_stale_child : ∃ s : PTable,
    (∃ L, StateListInv s L) ∧ (∀ q r, (s.proc r).pid = (s.proc q).pid → r = q) ∧
    (s.proc 62).state = .running ∧ ¬ AgreesWith (s.exit 1 62) (s.scanExit 1 62) := by
  obtain ⟨L, hL⟩ := reachable_stateListInv childRuns_reachable
  refine ⟨childRuns.renumber (some 62), ⟨L, hL.renumber _⟩, fun q r => PTable.renumber_pid,
    by decide +kernel, ?_⟩
  have hlist : ((childRuns.renumber (some 62)).exit 1 62).toOption.map
      (fun s => (s.proc 0).parent) = some (some 62) := by decide +kernel
  have hscan : ((childRuns.renumber (some 62)).scanExit 1 62).toOption.map
      (fun t => (t.proc 0).parent) = some (some 63) := by decide +kernel
  intro hagree
  cases hs : (childRuns.renumber (some 62)).exit 1 62 with
  | error e => simp [hs, Except.toOption] at hlist
  | ok s =>
    cases ht : (childRuns.renumber (some 62)).scanExit 1 62 with
    | error e => simp [ht, Except.toOption] at hscan
    | ok t =>
      rw [hs, ht] at hagree
      simp only [hs, ht, Except.toOption, Option.map_some, Option.some.injEq] at hlist hscan
      have hparent := (hagree 0).2.1
      rw [hlist, hscan] at hparent
      revert hparent
      decide

end Xv6Kernel
