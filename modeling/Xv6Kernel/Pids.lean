/-
  Pids.lean
  =========
  Process identifiers.

  `nextpid` is a 32-bit `int` that `allocproc` increments each time it takes a slot, also
  when the `fork` that called it fails later, and no pid is ever checked for being in use.
  `Table.Numbered t n` describes the table after `n` births: the pids in use are different
  numbers from 1 to `n + 1`, as 32-bit words.  They are positive as long as `n + 1` is at
  most `2 ^ 31 - 1`, and the next birth after that is of a process with a negative pid.
-/
import Xv6Kernel.ProcIdent

namespace Xv6Kernel

open Function TransitionSystem

def Ev.isBorn : Ev → Bool
  | .born _ => true
  | _ => false

/-- The number of times that `allocproc` took a slot. -/
def births (ev : List Ev) : Nat := ev.countP Ev.isBorn

/-- Births that can happen before `nextpid` is no longer positive. -/
def maxBirths : Nat := 2 ^ 31 - 2

/-- The pid by which a system call names the process it is for. -/
def Act.target : Act → Option Uint
  | .kill _ pid => some pid
  | .setpriority _ pid _ => some pid
  | _ => none

/-- What is expected of pids: they are positive and different, so that `fork` returns a
    positive number when it succeeds, and a call for the process `q` changes no other. -/
structure PidsOk (s : PTable) : Prop where
  positive : ∀ p, (s.proc p).state ≠ .unused → 0 < (s.proc p).pid.toInt
  distinct : ∀ p q, (s.proc p).state ≠ .unused → (s.proc q).state ≠ .unused →
    (s.proc p).pid = (s.proc q).pid → p = q
  forkRet : ∀ cpu s' ev p v, procSystem.step s (.forkFinish cpu) = some (s', ev) →
    Ev.forkRet p v ∈ ev → 0 < v
  target : ∀ act s' ev q, procSystem.step s act = some (s', ev) → (s.proc q).state ≠ .unused →
    act.target = some (s.proc q).pid → ∀ r, r ≠ q → s'.proc r = s.proc r

namespace Table

variable {t t' : Table} {n : Nat}

structure Numbered (t : Table) (n : Nat) : Prop where
  nextpid : t.nextpid = BitVec.ofNat 32 (n + 2)
  pids : ∃ num : Slot → Nat,
    (∀ q, (t.proc q).state ≠ .unused →
      (t.proc q).pid = BitVec.ofNat 32 (num q) ∧ 1 ≤ num q ∧ num q ≤ n + 1) ∧
    ∀ q r, (t.proc q).state ≠ .unused → (t.proc r).state ≠ .unused → num q = num r → q = r

theorem Initial.numbered (h : t.Initial p) : t.Numbered 0 := by
  have honly : ∀ q, (t.proc q).state ≠ .unused → q = p := by
    intro q hq
    by_contra hne
    exact hq (h.unused q hne)
  refine ⟨h.nextpid, fun _ => 1, ?_, ?_⟩
  · intro q hq
    rw [honly q hq, h.pid]
    exact ⟨rfl, le_rfl, le_rfl⟩
  · intro q r hq hr _
    rw [honly q hq, honly r hr]

namespace Numbered

section

variable (h : t.Numbered n)

include h

/-- No slot comes into use and no pid changes. -/
theorem mono (hnext : t'.nextpid = t.nextpid) (hused : ∀ q, (t'.proc q).state ≠ .unused →
      (t.proc q).state ≠ .unused ∧ (t'.proc q).pid = (t.proc q).pid) : t'.Numbered n := by
  obtain ⟨hn, num, hpid, hinj⟩ := h
  refine ⟨hnext.trans hn, num, ?_, ?_⟩
  · intro q hq
    obtain ⟨hq', hsame⟩ := hused q hq
    rw [hsame]
    exact hpid q hq'
  · intro q r hq hr
    exact hinj q r (hused q hq).1 (hused r hr).1

theorem quiet (hq : t.Quiet t') : t'.Numbered n :=
  h.mono hq.nextpid fun q hused => ⟨fun hcon => hused ((hq.unused q).mpr hcon), hq.pid q⟩

/-- A slot changes without getting a new pid or coming into use. -/
theorem setProc (hf : (f (t.proc np)).state ≠ .unused →
      (t.proc np).state ≠ .unused ∧ (f (t.proc np)).pid = (t.proc np).pid) :
    (t.setProc np f).Numbered n := by
  refine h.mono rfl ?_
  intro q hq
  by_cases hqn : q = np
  · subst hqn
    simp only [setProc_proc, update_self] at hq ⊢
    exact hf hq
  · rw [setProc_proc, update_of_ne hqn] at hq ⊢
    exact ⟨hq, rfl⟩

theorem setState (hnp : (t.proc np).state ≠ .unused) : (t.setState np st).Numbered n :=
  h.setProc fun _ => ⟨hnp, rfl⟩

theorem setKCtx : (t.setKCtx p k).Numbered n := h.mono rfl fun _ hq => ⟨hq, rfl⟩

theorem allocproc : (t.allocproc np).Numbered (n + 1) := by
  obtain ⟨hn, num, hpid, hinj⟩ := h
  refine ⟨?_, update num np (n + 2), ?_, ?_⟩
  · have hsucc : (t.allocproc np).nextpid = t.nextpid + 1 := rfl
    rw [hsucc, hn]
    exact (BitVec.ofNat_add (n + 2) 1).symm
  · intro q hq
    by_cases hqn : q = np
    · subst hqn
      simp [Table.allocproc, hn]
    · simp only [Table.allocproc, setProc_proc, update_of_ne hqn] at hq ⊢
      obtain ⟨h1, h2, h3⟩ := hpid q hq
      exact ⟨h1, h2, by omega⟩
  · intro q r hq hr heq
    have hbound : ∀ r, r ≠ np → ((t.allocproc np).proc r).state ≠ .unused → num r ≤ n + 1 := by
      intro r hrn hr
      simp only [Table.allocproc, setProc_proc, update_of_ne hrn] at hr
      exact (hpid r hr).2.2
    by_cases hqn : q = np
    · by_cases hrn : r = np
      · rw [hqn, hrn]
      · have := hbound r hrn hr
        rw [hqn, update_self, update_of_ne hrn] at heq
        omega
    · by_cases hrn : r = np
      · have := hbound q hqn hq
        rw [hrn, update_self, update_of_ne hqn] at heq
        omega
      · rw [update_of_ne hqn, update_of_ne hrn] at heq
        simp only [Table.allocproc, setProc_proc, update_of_ne hqn] at hq
        simp only [Table.allocproc, setProc_proc, update_of_ne hrn] at hr
        exact hinj q r hq hr heq

theorem exit (hp : (t.proc p).state ≠ .unused) : (t.exit cpu p).Numbered n := by
  have hpid : ∀ q, ((t.handOver p).proc q).pid = (t.proc q).pid := fun q =>
    handOver_field (f := Proc.pid) (fun _ _ => rfl) fun _ _ => rfl
  have hused : ∀ q, ((t.handOver p).proc q).state ≠ .unused → (t.proc q).state ≠ .unused := by
    intro q hq hcon
    rcases handOver_state (t := t) (p := p) (q := q) with hs | hs
    · exact hq (hs.trans hcon)
    · simp [hs.1] at hcon
  have hhand : (t.handOver p).Numbered n := by
    apply h.mono
    · rw [handOver_frame]
    · exact fun q hq => ⟨hused q hq, hpid q⟩
  apply Numbered.quiet _ Quiet.leaveCpu
  apply hhand.setState
  rcases handOver_state (t := t) (p := p) (q := p) with hs | hs
  · rw [hs]
    exact hp
  · rw [hs.2]
    simp

end

theorem births_quiet (hev : ∀ e ∈ ev, e.Quiet) : births ev = 0 := by
  apply List.countP_eq_zero.mpr
  intro e he
  have := hev e he
  cases e <;> simp_all [Ev.isBorn, Ev.Quiet]

theorem step (ok : t.KernelOk) (h : t.Numbered n) (hs : t.Step act ev t') :
    t'.Numbered (n + births ev) := by
  cases hs.change ok with
  | quiet hq hev =>
    rw [births_quiet hev]
    exact h.quiet hq
  | born _ _ => exact h.allocproc.setKCtx
  | @kallocFails cpu p np _ =>
    have hnp : (t.kallocFails np).Numbered n := h.setProc (by simp)
    exact hnp.setKCtx
  | @copyuvmFails cpu p np _ =>
    have hnp : (t.copyuvmFails np).Numbered n := h.setProc (by simp)
    exact hnp.setKCtx
  | @copyuvm cpu p np pgdir _ =>
    have hnp : (t.setProc np (Proc.forkFields pgdir p (t.proc p))).Numbered n :=
      h.setProc fun hq => ⟨hq, rfl⟩
    exact hnp.setKCtx
  | @forkFinish cpu p np hcall =>
    have hemb := (ok.forking p np (by rw [hcall.kctx]; rfl)).1
    exact (h.setState (by simp [hemb])).setKCtx
  | @exit cpu p hcall _ => exact h.exit (by simp [ok.onCpu cpu p hcall.cpu])
  | @reaped _ _ _ q _ _ _ _ hq =>
    have hreap : (t.reap q).Numbered n := h.setProc (by simp [Proc.reapFields])
    exact hreap.quiet hq
  | @killed _ _ q _ _ hq hev =>
    rw [births_quiet hev]
    have hkill : (t.setKilled q).Numbered n := h.setProc fun hused => ⟨hused, rfl⟩
    exact hkill.quiet hq

theorem positive (h : t.Numbered n) (hn : n ≤ maxBirths)
    (hq : (t.proc q).state ≠ .unused) : 0 < (t.proc q).pid.toInt := by
  obtain ⟨-, num, hpid, -⟩ := h
  obtain ⟨heq, hlow, hhigh⟩ := hpid q hq
  unfold maxBirths at hn
  rw [heq, BitVec.toInt_eq_toNat_cond, BitVec.toNat_ofNat]
  omega

theorem distinct (h : t.Numbered n) (hn : n ≤ maxBirths)
    (hq : (t.proc q).state ≠ .unused) (hr : (t.proc r).state ≠ .unused)
    (heq : (t.proc q).pid = (t.proc r).pid) : q = r := by
  obtain ⟨-, num, hpid, hinj⟩ := h
  obtain ⟨hq₁, -, hq₂⟩ := hpid q hq
  obtain ⟨hr₁, -, hr₂⟩ := hpid r hr
  apply hinj q r hq hr
  have hnat := congrArg BitVec.toNat (hq₁.symm.trans (heq.trans hr₁))
  unfold maxBirths at hn
  rw [BitVec.toNat_ofNat, BitVec.toNat_ofNat] at hnat
  omega

end Numbered

/-- A step that makes a process gives it the number `nextpid`. -/
theorem Step.born_pid (ok : t.KernelOk) (h : t.Step act ev t') (hborn : births ev ≠ 0) :
    births ev = 1 ∧ ∃ np, (t'.proc np).state = .embryo ∧ (t'.proc np).pid = t.nextpid := by
  cases h.change ok with
  | quiet _ hev => exact absurd (Numbered.births_quiet hev) hborn
  | @born cpu p np _ _ => exact ⟨rfl, np, by simp [Table.allocproc], by simp [Table.allocproc]⟩
  | killed _ _ hev => exact absurd (Numbered.births_quiet hev) hborn
  | _ => exact absurd rfl hborn

/-- `kill` and `setpriority` change only the process whose pid they were given. -/
theorem Step.target (h : t.Step act ev t') (hdistinct : ∀ q r, (t.proc q).state ≠ .unused →
      (t.proc r).state ≠ .unused → (t.proc q).pid = (t.proc r).pid → q = r)
    (hq : (t.proc q).state ≠ .unused) (htarget : act.target = some (t.proc q).pid) :
    ∀ r, r ≠ q → t'.proc r = t.proc r := by
  intro r hr
  cases h with
  | @kill cpu p pid q' _ hq' hpid =>
    obtain rfl : q' = q := hdistinct q' q hq' hq (hpid.trans (Option.some.inj htarget))
    simp [Table.kill, hr]
  | @setpriority cpu p pid n q' f _ hq' hpid _ =>
    have hused : (t.proc q').state ≠ .unused := by
      rcases hq' with hst | hst | hst <;> simp [hst]
    obtain rfl : q' = q := hdistinct q' q hused hq (hpid.trans (Option.some.inj htarget))
    simp [hr]
  | killMiss _ _ => rfl
  | setpriorityMiss _ => rfl
  | _ => simp [Act.target] at htarget

end Table

/-! ### Runs -/

section Runs

variable {ev : List Ev}

theorem births_append (ev ev' : List Ev) : births (ev ++ ev') = births ev + births ev' :=
  List.countP_append

theorem run_numbered (hs : procSystem.Reachable s) (hn : s.Numbered n)
    (hrun : procSystem.run s acts = some (t, ev)) : t.Numbered (n + births ev) := by
  induction acts generalizing s n ev with
  | nil =>
    cases hrun
    exact hn
  | cons act acts ih =>
    obtain ⟨s', ev₁, ev₂, hstep, hrest, rfl⟩ := run_cons_eq_some.mp hrun
    obtain ⟨ok, ht⟩ := reachable_step hs hstep
    rw [births_append, ← Nat.add_assoc]
    exact ih (.step hs hstep) (hn.step ok ht) hrest

theorem init_numbered (h0 : procSystem.init s) (hrun : procSystem.run s acts = some (t, ev)) :
    procSystem.Reachable t ∧ t.Numbered (births ev) := by
  obtain ⟨p, hp⟩ := init_initial h0
  have hs : procSystem.Reachable s := .init h0
  refine ⟨hs.run hrun, ?_⟩
  have h := run_numbered hs hp.numbered hrun
  rwa [Nat.zero_add] at h

theorem pidsOk_of_numbered (hs : procSystem.Reachable s) (h : s.Numbered n)
    (hn : n ≤ maxBirths) : PidsOk s := by
  refine ⟨fun _ => h.positive hn, fun _ _ => h.distinct hn, ?_, ?_⟩
  · intro cpu s' ev p v hstep hv
    obtain ⟨ok, ht⟩ := reachable_step hs hstep
    generalize s'.toTable = t' at ht
    cases ht with
    | @forkFinish _ p' np hcall =>
      have hemb := (ok.forking p' np (by rw [hcall.kctx]; rfl)).1
      obtain ⟨-, rfl⟩ : p = p' ∧ v = (s.proc np).pid.toInt := by simpa using hv
      exact h.positive hn (by simp [hemb])
  · intro act s' ev q hstep hq htarget
    obtain ⟨-, ht⟩ := reachable_step hs hstep
    exact ht.target (fun _ _ => h.distinct hn) hq htarget

/-- The birth after the last one that is all right. -/
theorem not_pidsOk_of_born (hs : procSystem.Reachable s)
    (h : s.Numbered maxBirths) (hstep : procSystem.step s act = some (s', ev))
    (hborn : births ev ≠ 0) : ¬ PidsOk s' := by
  intro hok
  obtain ⟨ok, ht⟩ := reachable_step hs hstep
  obtain ⟨-, np, hemb, hpid⟩ := ht.born_pid ok hborn
  have hpos := hok.positive np (by simp [hemb])
  rw [hpid, h.nextpid] at hpos
  revert hpos
  decide

end Runs

/-- Pids are as expected in every state of a run exactly if `allocproc` takes at most
    `2 ^ 31 - 2` slots in it. -/
theorem pids_ok_iff_births {s t : PTable} {acts : List Act} {ev : List Ev}
    (h0 : procSystem.init s) (hrun : procSystem.run s acts = some (t, ev)) :
    (∀ acts₁ acts₂ u ev₁, acts = acts₁ ++ acts₂ → procSystem.run s acts₁ = some (u, ev₁) →
      PidsOk u) ↔ births ev ≤ maxBirths := by
  constructor
  · induction acts using List.reverseRecOn generalizing t ev with
    | nil =>
      intro _
      cases hrun
      exact Nat.zero_le _
    | append_singleton acts act ih =>
      intro hok
      obtain ⟨u, ev₁, ev₂, hrun₁, hrun₂, rfl⟩ := run_append_eq_some.mp hrun
      obtain ⟨s', ev₃, ev₄, hstep, hnil, rfl⟩ := run_cons_eq_some.mp hrun₂
      cases hnil
      obtain ⟨hu, hnum⟩ := init_numbered h0 hrun₁
      -- the run up to `u` has few births, so the last step would have to be one too many
      have hle : births ev₁ ≤ maxBirths := ih hrun₁ fun as bs v e happ hv =>
        hok as (bs ++ [act]) v e (by rw [happ, List.append_assoc]) hv
      rw [List.append_nil, births_append]
      by_contra hlt
      obtain ⟨ok, ht⟩ := reachable_step hu hstep
      have hborn : births ev₃ ≠ 0 := by omega
      have hone := (ht.born_pid ok hborn).1
      have hmax : births ev₁ = maxBirths := by omega
      rw [hmax] at hnum
      exact not_pidsOk_of_born hu hnum hstep hborn
        (hok (acts ++ [act]) [] t _ (List.append_nil _).symm hrun)
  · intro hle acts₁ acts₂ u ev₁ happ hrun₁
    obtain ⟨hu, hnum⟩ := init_numbered h0 hrun₁
    rw [happ] at hrun
    obtain ⟨u', ev₁', ev₂, hrun₁', -, rfl⟩ := run_append_eq_some.mp hrun
    rw [hrun₁] at hrun₁'
    simp only [Option.some.injEq, Prod.mk.injEq] at hrun₁'
    obtain ⟨rfl, rfl⟩ := hrun₁'
    rw [births_append] at hle
    exact pidsOk_of_numbered hu hnum (by omega)

theorem pids_ok_iff_births_booted : PidsOk (afterActs [.scheduler 0, .resume 0, .allocproc 0,
    .kalloc 0 (some 3), .copyuvm 0 (some 4), .forkFinish 0]) := by
  have hrun : ((procSystem.run bootedTable [.scheduler 0, .resume 0, .allocproc 0,
      .kalloc 0 (some 3), .copyuvm 0 (some 4), .forkFinish 0]).map fun r => births r.2) =
      some 1 := by
    decide +kernel
  obtain ⟨⟨t, ev⟩, hrun, hbirths⟩ := Option.map_eq_some_iff.mp hrun
  have hle : births ev ≤ maxBirths := by
    rw [show births ev = 1 from hbirths]
    decide
  have hok := (pids_ok_iff_births bootedTable_init hrun).mpr hle _ [] t ev
    (List.append_nil _).symm hrun
  unfold afterActs
  rw [hrun]
  exact hok

/-! ### A run with too many births -/

/-- A process on CPU 0 that is not in the kernel, with a slot to be had. -/
structure CanFork (s : PTable) : Prop where
  reachable : procSystem.Reachable s
  calls : ∃ p, s.Calls 0 p .outside
  slot : ∃ q, (s.proc q).state = .unused

namespace CanFork

variable {s : PTable}

theorem allocproc (h : CanFork s) : ∃ s' np p,
    procSystem.step s (.allocproc 0) = some (s', [.born np]) ∧
      s'.toTable = (s.toTable.allocproc np).setKCtx p (.allocating np) ∧ s.Calls 0 p .outside := by
  obtain ⟨hs, ⟨p, hcall⟩, q, hq⟩ := h
  obtain ⟨a, ha, hr⟩ := reachable_represents hs
  have hmem : q ∈ a.lists .free := by
    rw [(queueSystem_inv ha).mem, Proc.list_eq_free, ← hr.proc]
    exact hq
  obtain ⟨np, rest, hfree⟩ := List.exists_cons_of_ne_nil (List.ne_nil_of_mem hmem)
  obtain ⟨a', hstep, -⟩ := Queues.step_allocproc (by rw [← hr.table]; exact hcall) hfree
  obtain ⟨s', hstep', -⟩ := hr.step_some ha hstep
  obtain ⟨-, ht⟩ := reachable_step hs hstep'
  refine ⟨s', np, p, hstep', ?_, hcall⟩
  generalize s'.toTable = t' at ht
  cases ht with
  | @allocproc _ p' np hcall' _ =>
    obtain rfl : p' = p := Option.some.inj (hcall'.cpu.symm.trans hcall.cpu)
    rfl

/-- A `fork` that gets a slot but no page leaves things as they were. -/
theorem fork_fails (h : CanFork s) : ∃ s' ev,
    procSystem.run s [.allocproc 0, .kalloc 0 none] = some (s', ev) ∧ births ev = 1 ∧
      CanFork s' := by
  obtain ⟨s₁, np, p, hstep₁, ht₁, hcall⟩ := h.allocproc
  obtain ⟨hlock, hcpu, hk⟩ := hcall.toRuns
  have hs₁ := h.reachable.step hstep₁
  have hcall₁ : s₁.Calls 0 p (.allocating np) := by
    rw [ht₁]
    exact ⟨⟨hlock, hcpu, by simp⟩, hcall.free⟩
  obtain ⟨a₁, ha₁, hr₁⟩ := reachable_represents hs₁
  obtain ⟨a₂, hstep₂⟩ := Queues.step_kallocFails (a := a₁) (by rw [← hr₁.table]; exact hcall₁)
  obtain ⟨s₂, hstep₂, -⟩ := hr₁.step_some ha₁ hstep₂
  refine ⟨s₂, [.born np, .forkRet p (-1)], ?_, rfl, ?_⟩
  · exact run_cons_eq_some.mpr ⟨s₁, _, _, hstep₁,
      run_cons_eq_some.mpr ⟨s₂, _, _, hstep₂, rfl, rfl⟩, rfl⟩
  · obtain ⟨-, ht₂⟩ := reachable_step hs₁ hstep₂
    have hagain : (∃ p, s₂.Calls 0 p .outside) ∧ ∃ q, (s₂.proc q).state = .unused := by
      generalize s₂.toTable = t₂ at ht₂
      cases ht₂ with
      | @kallocFails _ _ np' hcall' =>
        obtain ⟨hlock', hcpu', -⟩ := hcall'.toRuns
        exact ⟨⟨p, ⟨hlock', hcpu', by simp⟩, hcall'.free⟩, np', by simp [Table.kallocFails]⟩
    exact ⟨hs₁.step hstep₂, hagain.1, hagain.2⟩

theorem fork_fails_times (h : CanFork s) (n : Nat) : ∃ s' ev,
    procSystem.run s (List.replicate n [Act.allocproc 0, .kalloc 0 none]).flatten = some (s', ev) ∧
      births ev = n ∧ CanFork s' := by
  induction n generalizing s with
  | zero => exact ⟨s, [], rfl, rfl, h⟩
  | succ n ih =>
    obtain ⟨s₁, ev₁, hrun₁, hbirths₁, h₁⟩ := h.fork_fails
    obtain ⟨s₂, ev₂, hrun₂, hbirths₂, h₂⟩ := ih h₁
    refine ⟨s₂, ev₁ ++ ev₂, ?_, ?_, h₂⟩
    · rw [List.replicate_succ, List.flatten_cons]
      exact run_append_eq_some.mpr ⟨s₁, ev₁, ev₂, hrun₁, hrun₂, rfl⟩
    · rw [births_append, hbirths₁, hbirths₂, Nat.add_comm]

end CanFork

/-- Init runs `fork` until it has failed `2 ^ 31 - 2` times for want of a page, and the
    next process has a negative pid. -/
theorem negative_pid_after_failed_forks : ∃ s ev,
    procSystem.run bootedTable ([.scheduler 0, .resume 0] ++
      (List.replicate maxBirths [Act.allocproc 0, .kalloc 0 none]).flatten ++ [.allocproc 0]) =
        some (s, ev) ∧ ¬ PidsOk s := by
  have hstart : ((procSystem.run bootedTable [.scheduler 0, .resume 0]).map fun r =>
      (births r.2, r.1.lock, r.1.cpuProc 0, r.1.kctx 63, (r.1.proc 0).state)) =
        some (0, none, some 63, .outside, .unused) := by decide +kernel
  obtain ⟨⟨s₁, ev₁⟩, hrun₁, hfields⟩ := Option.map_eq_some_iff.mp hstart
  simp only [Prod.mk.injEq] at hfields
  obtain ⟨hbirths₁, hlock, hcpu, hk, hfree⟩ := hfields
  have hbooted : procSystem.Reachable bootedTable := .init bootedTable_init
  have h₁ : CanFork s₁ := ⟨hbooted.run hrun₁, ⟨63, ⟨by simp [hlock], hcpu, hk⟩, hlock⟩, 0, hfree⟩
  obtain ⟨s₂, ev₂, hrun₂, hbirths₂, h₂⟩ := h₁.fork_fails_times maxBirths
  obtain ⟨s₃, np, p, hstep₃, -, -⟩ := h₂.allocproc
  have hrun₁₂ := run_append_eq_some.mpr ⟨s₁, ev₁, ev₂, hrun₁, hrun₂, rfl⟩
  have hnum := (init_numbered bootedTable_init hrun₁₂).2
  rw [births_append, hbirths₁, hbirths₂, Nat.zero_add] at hnum
  refine ⟨s₃, _, run_append_eq_some.mpr ⟨s₂, _, _, hrun₁₂,
    run_cons_eq_some.mpr ⟨s₃, _, _, hstep₃, rfl, rfl⟩, rfl⟩, ?_⟩
  exact not_pidsOk_of_born h₂.reachable hnum hstep₃ Nat.one_ne_zero

end Xv6Kernel
