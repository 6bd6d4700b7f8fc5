/-
  PipeSleepers.lean
  =================
  Who may sleep on a pipe.

  A reader should sleep only on an empty pipe with an open write end, and a writer only on a
  full pipe with an open read end.  Every call wakes the other side for what it has done,
  except one: `pipewrite` returns `-1` from its test for a full pipe without `wakeup(&p->nread)`,
  although it may have filled the pipe itself since it last woke the readers.  So the property
  is kept by a step if and only if no reader sleeps when `pipewrite` gives up in this way.
-/
import Xv6Kernel.Pipe

namespace Xv6Kernel

open PipePhase

/-- A call has a reason to sleep. -/
def PipeCall.Blocked (pipe : Pipe) : PipeCall → Prop
  | .read _ => pipe.nread = pipe.nwrite ∧ pipe.writeopen = true
  | .write .. => pipe.full = true ∧ pipe.readopen = true

/-- A full pipe stays full. -/
theorem Pipe.Filled.full_of_full {p q : Pipe} {rest new left : List Byte}
    (h : p.Filled rest q new left) (hfull : p.full = true) : q.full = true := by
  have hlen := congrArg List.length h.contents
  have hp : p.contents.length = PIPESIZE := p.ring.length_contents.trans (Pipe.full_iff.mp hfull)
  have hq : q.contents.length = q.ring.count := q.ring.length_contents
  rw [List.length_append, hp, hq] at hlen
  have hle := h.count
  exact Pipe.full_iff.mpr (by omega)

variable {ph : PipePhase} {c : PipeCall}

theorem PipePhase.wakeup_eq_asleep (h : ph.wakeup chan = .asleep c) :
    ph = .asleep c ∧ c.chan ≠ chan := by
  cases ph with
  | asleep c' =>
    simp only [wakeup] at h
    split_ifs at h with hc
    obtain rfl := asleep.inj h
    exact ⟨rfl, hc⟩
  | _ => cases h

theorem PipePhase.wakeup_eq_going (h : ph.wakeup chan = .going c) : ph = .going c := by
  cases ph with
  | asleep c' =>
    simp only [wakeup] at h
    split_ifs at h
  | _ => exact h

theorem PipePhase.kill_eq_going (h : ph.kill = .going c) : ph = .going c := by
  cases ph with
  | asleep => cases h
  | _ => exact h

theorem PipePhase.kill_ne_asleep : ph.kill ≠ .asleep c := by
  cases ph <;> exact nofun

namespace PipeUsers

variable {P : Type} [DecidableEq P] {s s' : PipeUsers P} {a : PipeAct P}
  {ev : List (PipeReturn P)}

/-- Whoever sleeps has a reason to, whenever the lock is free. -/
def NoneStranded (s : PipeUsers P) : Prop :=
  s.lock = none → ∀ p c, s.phase p = .asleep c → c.Blocked s.pipe

/-- The step runs a `pipewrite` that returns `-1` from its test for a full pipe. -/
def GivesUp (s : PipeUsers P) (a : PipeAct P) : Prop :=
  ∃ p n addr rest before, Runs s a p (.write n addr rest before) ∧
    (s.pipe.fill rest).2 ≠ [] ∧ (s.pipe.readopen = false ∨ s.killed p = true)

/-- `pipewrite` gives up only when no reader sleeps. -/
def GivesUpUnwatched (s : PipeUsers P) (a : PipeAct P) : Prop :=
  GivesUp s a → ∀ q n, s.phase q ≠ .asleep (.read n)

/-! ### One step -/

/-- The reason is there from the decision to sleep on, while the lock is still held. -/
structure Waiting (s : PipeUsers P) : Prop where
  going : ∀ p c, s.phase p = .going c → s.lock = some p ∧ c.Blocked s.pipe
  asleep : ∀ p c, s.phase p = .asleep c → c.Blocked s.pipe

namespace Waiting

omit [DecidableEq P] in
theorem not_going (h : Waiting s) (hlock : s.lock = none) (p : P) (c : PipeCall) :
    s.phase p ≠ .going c := by
  intro hgo
  have hp := (h.going p c hgo).1
  rw [hlock] at hp
  cases hp

variable {p : P} {c : PipeCall}

theorem setPhase_cases (hr : (s.setPhase p x).phase r = y) :
    r = p ∧ x = y ∨ r ≠ p ∧ s.phase r = y := by
  by_cases heq : r = p
  · rw [heq, setPhase_self] at hr
    exact .inl ⟨heq, hr⟩
  · rw [setPhase_of_ne _ _ heq] at hr
    exact .inr ⟨heq, hr⟩

section

variable (hgo : ∀ r c, s.phase r ≠ .going c)
  (hasleep : ∀ r c, s.phase r = .asleep c → c.Blocked s.pipe)

include hgo hasleep

/-- A process leaves its call. -/
theorem outside : Waiting (s.setPhase p .outside) := by
  constructor
  · intro r c hr
    rcases setPhase_cases hr with ⟨-, hx⟩ | ⟨-, hr⟩
    · cases hx
    · exact absurd hr (hgo r c)
  · intro r c hr
    rcases setPhase_cases hr with ⟨-, hx⟩ | ⟨-, hr⟩
    · cases hx
    · exact hasleep r c hr

/-- A process decides to sleep. -/
theorem goesToSleep (hc : c.Blocked s.pipe) :
    Waiting { s.setPhase p (.going c) with lock := some p } := by
  constructor
  · intro r c' hr
    rcases setPhase_cases hr with ⟨heq, hx⟩ | ⟨-, hr⟩
    · cases hx
      exact ⟨congrArg some heq.symm, hc⟩
    · exact absurd hr (hgo r c')
  · intro r c' hr
    rcases setPhase_cases hr with ⟨-, hx⟩ | ⟨-, hr⟩
    · cases hx
    · exact hasleep r c' hr

end

omit [DecidableEq P] in
/-- Writers go on waiting when more bytes are offered to a full pipe. -/
theorem writers {q : Pipe} {rest new left : List Byte} {r : P} (h : Waiting s)
    (hf : s.pipe.Filled rest q new left) (hr : s.phase r = .asleep c) (hc : c.chan ≠ .nread) :
    c.Blocked q := by
  cases c with
  | read => exact absurd rfl hc
  | write =>
    obtain ⟨hfull, hopen⟩ := h.asleep r _ hr
    exact ⟨hf.full_of_full hfull, hf.readopen.trans hopen⟩

theorem ran (h : Waiting s) (hlock : s.lock = none) (hr : Runs s a p c) (hd : Ran s p c s' ev)
    (hup : GivesUpUnwatched s a) : Waiting s' := by
  have hgo := h.not_going hlock
  have hgo' : ∀ chan r c, (s.phase r).wakeup chan ≠ .going c := fun chan r c hw =>
    hgo r c (wakeup_eq_going hw)
  cases hd with
  | wrote hf _ =>
    refine outside (hgo' .nread) fun r c hs => ?_
    obtain ⟨hs, hc⟩ := wakeup_eq_asleep hs
    exact h.writers hf hs hc
  | @gaveUp n addr rest new left before q hf hleft hne hwhy =>
    have hnone := hup ⟨p, n, addr, rest, before, hr, hleft ▸ hne, hwhy⟩
    refine outside hgo fun r c hs => h.writers hf hs ?_
    intro hc
    cases c with
    | write => cases hc
    | read m => exact hnone r m hs
  | writeSleeps hf hne hopen _ =>
    refine goesToSleep (hgo' .nread) (fun r c hs => ?_) ⟨hf.full hne, hf.readopen.trans hopen⟩
    obtain ⟨hs, hc⟩ := wakeup_eq_asleep hs
    exact h.writers hf hs hc
  | readKilled => exact outside hgo h.asleep
  | readSleeps hemp hopen =>
    exact goesToSleep hgo h.asleep ⟨Pipe.empty_iff.mp hemp, hopen⟩
  | read hready =>
    refine outside (hgo' .nwrite) fun r c hs => ?_
    obtain ⟨hs, hc⟩ := wakeup_eq_asleep hs
    cases c with
    | write => exact absurd rfl hc
    | read m =>
      -- no reader slept, since this one did not have to
      obtain ⟨hemp, hopen⟩ := h.asleep r _ hs
      exact absurd ⟨Pipe.empty_iff.mpr hemp, hopen⟩ hready

omit [DecidableEq P] in
theorem pipeclose (h : Waiting s) (hlock : s.lock = none) : Waiting (s.pipeclose writable) := by
  have hgo : ∀ chan r c, (s.phase r).wakeup chan ≠ .going c := fun chan r c hw =>
    h.not_going hlock r c (wakeup_eq_going hw)
  cases writable with
  | true =>
    refine ⟨fun r c hr => absurd hr (hgo .nread r c), fun r c hr => ?_⟩
    obtain ⟨hs, hc⟩ := wakeup_eq_asleep hr
    cases c with
    | read => exact absurd rfl hc
    | write => exact h.asleep r _ hs
  | false =>
    refine ⟨fun r c hr => absurd hr (hgo .nwrite r c), fun r c hr => ?_⟩
    obtain ⟨hs, hc⟩ := wakeup_eq_asleep hr
    cases c with
    | write => exact absurd rfl hc
    | read => exact h.asleep r _ hs

theorem sleep (h : Waiting s) (hp : s.phase p = .going c) :
    Waiting { s.setPhase p (.asleep c) with lock := none } := by
  obtain ⟨hlock, hblocked⟩ := h.going p c hp
  constructor
  · intro r c' hr
    rcases setPhase_cases hr with ⟨-, hx⟩ | ⟨hne, hr⟩
    · cases hx
    · have hr' := (h.going r c' hr).1
      rw [hlock] at hr'
      exact absurd (Option.some.inj hr').symm hne
  · intro r c' hr
    rcases setPhase_cases hr with ⟨-, hx⟩ | ⟨-, hr⟩
    · cases hx
      exact hblocked
    · exact h.asleep r c' hr

theorem kill (h : Waiting s) : Waiting
      { s.setPhase p (s.phase p).kill with killed := Function.update s.killed p true } := by
  constructor
  · intro r c hr
    rcases setPhase_cases hr with ⟨heq, hx⟩ | ⟨-, hr⟩
    · rw [heq]
      exact h.going p c (kill_eq_going hx)
    · exact h.going r c hr
  · intro r c hr
    rcases setPhase_cases hr with ⟨-, hx⟩ | ⟨-, hr⟩
    · exact absurd hx kill_ne_asleep
    · exact h.asleep r c hr

theorem step (h : Waiting s) (hfifo : Fifo s) (hup : GivesUpUnwatched s a)
    (hstep : s.step a = some (s', ev)) : Waiting s' := by
  cases step_did hfifo.count hstep with
  | ran hlock hr hd => exact h.ran hlock hr hd hup
  | sleep hp => exact h.sleep hp
  | pipeclose hlock => exact h.pipeclose hlock
  | kill => exact h.kill
  | wakeup =>
    exact ⟨fun r c hr => h.going r c (wakeup_eq_going hr),
      fun r c hr => h.asleep r c (wakeup_eq_asleep hr).1⟩

omit [DecidableEq P] in
theorem initial (h : s.Initial) : Waiting s := by
  constructor
  · intro p c hp
    rw [h.outside p] at hp
    cases hp
  · intro p c hp
    rw [h.outside p] at hp
    cases hp

end Waiting

theorem reachableWhen_waiting (hs : (pipeSystem P).ReachableWhen GivesUpUnwatched s) : Waiting s :=
  hs.invariant_of (fun _ hr => reachable_fifo hr) (fun _ h => Waiting.initial h)
    fun _ _ _ _ hfifo h hup hstep => h.step hfifo hup hstep

/-- A writer that gives up leaves the pipe full, so a reader that sleeps then is stranded. -/
theorem stranded_of_givesUp (hfifo : Fifo s) (hstep : s.step a = some (s', ev))
    (hup : GivesUp s a) (hq : s.phase q = .asleep (.read n)) :
    ¬ NoneStranded s' := by
  obtain ⟨p, m, addr, rest, before, hr, hleft, hwhy⟩ := hup
  have hne : q ≠ p := by
    rintro rfl
    cases hr with
    | pipewrite hout => exact nomatch hq.symm.trans hout
    | resume hw => exact nomatch hq.symm.trans hw
  cases step_did hfifo.count hstep with
  | ran hlock hr' hd =>
    obtain ⟨rfl, rfl⟩ := hr.unique hr'
    cases hd with
    | wrote _ hnil => exact absurd hnil hleft
    | @gaveUp _ _ _ new left _ q' hf _ hleft' _ =>
      intro hnone
      have hq' : ((s.wrote p new q').setPhase p .outside).phase q = .asleep (.read n) :=
        (setPhase_of_ne _ _ hne).trans hq
      exact Pipe.not_empty_of_full (hf.full hleft') (hnone hlock q _ hq').1
    | writeSleeps _ _ hopen hkill =>
      rcases hwhy with hwhy | hwhy
      · exact nomatch hopen.symm.trans hwhy
      · exact nomatch hkill.symm.trans hwhy
  | sleep => cases hr
  | pipeclose => cases hr
  | kill => cases hr
  | wakeup => cases hr

/-- Nobody sleeps on a ready pipe in a run in which `pipewrite` gives up only when no reader
    sleeps; and the first step that breaks this rule strands a reader. -/
theorem none_stranded_iff_givesUpUnwatched :
    (∀ s, (pipeSystem P).ReachableWhen GivesUpUnwatched s → NoneStranded s) ∧
    ∀ s a s' ev, (pipeSystem P).ReachableWhen GivesUpUnwatched s → s.step a = some (s', ev) →
      (NoneStranded s' ↔ GivesUpUnwatched s a) := by
  refine ⟨fun s hs _ => (reachableWhen_waiting hs).asleep, ?_⟩
  intro s a s' ev hs hstep
  have hfifo := reachable_fifo hs.reachable
  constructor
  · intro hnone hup q n hq
    exact stranded_of_givesUp hfifo hstep hup hq hnone
  · intro hup _
    exact ((reachableWhen_waiting hs).step hfifo hup hstep).asleep

/-- A reader of a new pipe sleeps, and rightly. -/
theorem none_stranded_iff_givesUpUnwatched_reader : ∃ s : PipeUsers (Fin 2),
    (pipeSystem (Fin 2)).ReachableWhen GivesUpUnwatched s ∧ s.phase 1 = .asleep (.read 1) ∧
      NoneStranded s := by
  have hcalm₁ : GivesUpUnwatched newPipe (.piperead 1 1) := by
    rintro ⟨_, _, _, _, _, hr, _⟩
    cases hr
  have h₁ := TransitionSystem.ReachableWhen.step (T := pipeSystem (Fin 2))
    (.init newPipe_initial) hcalm₁ rfl
  have hcalm₂ : ∀ s : PipeUsers (Fin 2), GivesUpUnwatched s (.sleep 1) := by
    rintro s ⟨_, _, _, _, _, hr, _⟩
    cases hr
  have h₂ := h₁.step (hcalm₂ _) rfl
  exact ⟨_, h₂, rfl, (none_stranded_iff_givesUpUnwatched (P := Fin 2)).1 _ h₂⟩

/-- A writer fills the pipe and sleeps; the reader empties it and sleeps in its next call; the
    writer is killed and goes on. -/
def killedWriter : List (PipeAct (Fin 2)) :=
  [.pipewrite 0 (fun _ => 0) 1200, .sleep 0, .piperead 1 512, .piperead 1 1, .sleep 1, .kill 0,
    .resume 0]

/-- The reader sleeps on a full pipe whose write end is open. -/
theorem reader_stranded_by_killed_writer : ∃ s : PipeUsers (Fin 2), ∃ ev,
    (pipeSystem (Fin 2)).run newPipe killedWriter = some (s, ev) ∧ s.lock = none ∧
      s.phase 1 = .asleep (.read 1) ∧ s.pipe.full = true ∧ s.pipe.writeopen = true ∧
      ¬ NoneStranded s := by
  have heval : ((pipeSystem (Fin 2)).run newPipe killedWriter).map
      (fun r => (r.1.lock, r.1.phase 1, r.1.pipe.full, r.1.pipe.writeopen)) =
        some (none, .asleep (.read 1), true, true) := by decide +kernel
  obtain ⟨⟨s, ev⟩, hrun, hs⟩ := Option.map_eq_some_iff.mp heval
  obtain ⟨hlock, hphase, hfull, hopen⟩ := by simpa only [Prod.mk.injEq] using hs
  refine ⟨s, ev, hrun, hlock, hphase, hfull, hopen, fun hnone => ?_⟩
  exact Pipe.not_empty_of_full hfull (hnone hlock 1 _ hphase).1

end PipeUsers

end Xv6Kernel
