/-
  Pipe.lean
  =========
  `pipe.c`: one pipe, its readers and its writers.

  A call to `pipewrite` or `piperead` runs under `p->lock` from one sleep to the next, so the
  part between two sleeps is one step.  `sleep` is a step of its own: between the test of
  `proc->killed` and the moment at which `sleep` holds `ptable.lock` the caller still holds
  `p->lock`, and a `kill` that arrives there sets the flag but wakes nobody.

  `written` and `stored` record the bytes taken from writers, each with its writer, and the
  bytes put into readers' buffers.  The pipe is a lossless queue: what was written is what was
  stored followed by the bytes in `data`.
-/
import Xv6Kernel.FsModel
import Xv6Kernel.RingQueue
import Xv6Kernel.TransitionSystem

namespace Xv6Kernel

open Function List

def PIPESIZE : Nat := 512

/-- `struct pipe`; its lock is kept with the processes that use it. -/
structure Pipe where
  data : Nat → Byte
  nread : BitVec 32
  nwrite : BitVec 32
  readopen : Bool
  writeopen : Bool

namespace Pipe

/-- The test of `pipewrite`. -/
def full (p : Pipe) : Bool := p.nwrite == p.nread + BitVec.ofNat 32 PIPESIZE

/-- The test of `piperead`. -/
def empty (p : Pipe) : Bool := p.nread == p.nwrite

/-- Freed by `pipeclose`. -/
def freed (p : Pipe) : Bool := !p.readopen && !p.writeopen

/-- `p->data[p->nwrite++ % PIPESIZE] = b`. -/
def put (p : Pipe) (b : Byte) : Pipe :=
  { p with
    data := update p.data (p.nwrite.toNat % PIPESIZE) b
    nwrite := p.nwrite + 1 }

/-- The loop of `pipewrite` up to the first byte that finds the pipe full; the bytes left
    over come with the pipe. -/
def fill : Pipe → List Byte → Pipe × List Byte
  | p, [] => (p, [])
  | p, b :: bs => if p.full then (p, b :: bs) else (p.put b).fill bs

/-- The loop of `piperead` for at most `n` bytes, with the bytes it stores. -/
def drain : Nat → Pipe → Pipe × List Byte
  | 0, p => (p, [])
  | n + 1, p =>
      if p.empty then (p, [])
      else
        let r := drain n { p with nread := p.nread + 1 }
        (r.1, p.data (p.nread.toNat % PIPESIZE) :: r.2)

/-- The bytes between the two counters. -/
def ring (p : Pipe) : RingQueue Byte PIPESIZE 32 where
  cells := p.data
  front := p.nread
  back := p.nwrite

def contents (p : Pipe) : List Byte := p.ring.contents

end Pipe

/-! ### Callers -/

/-- The two channels of a pipe, `&p->nread` and `&p->nwrite`. -/
inductive PipeChan where
  | nread
  | nwrite
  deriving DecidableEq

/-- A call in progress.  For a writer: its count, its bytes, those not yet in the pipe, and
    how many bytes of its process were in the pipe's history when the call began. -/
inductive PipeCall where
  | write (n : Int) (addr rest : List Byte) (before : Nat)
  | read (n : Int)
  deriving DecidableEq

def PipeCall.chan : PipeCall → PipeChan
  | .write .. => .nwrite
  | .read _ => .nread

/-- Where a process is: in no call; holding `p->lock` on its way into `sleep`; `SLEEPING`; or
    woken, before it has `p->lock` again. -/
inductive PipePhase where
  | outside
  | going (c : PipeCall)
  | asleep (c : PipeCall)
  | woken (c : PipeCall)
  deriving DecidableEq

def PipePhase.wakeup (chan : PipeChan) : PipePhase → PipePhase
  | .asleep c => if c.chan = chan then .woken c else .asleep c
  | ph => ph

def PipePhase.kill : PipePhase → PipePhase
  | .asleep c => .woken c
  | ph => ph

/-- The call a process is in. -/
def PipePhase.call : PipePhase → Option PipeCall
  | .outside => none
  | .going c | .asleep c | .woken c => some c

structure PipeUsers (P : Type) where
  pipe : Pipe
  lock : Option P
  killed : P → Bool
  phase : P → PipePhase
  written : List (P × Byte)
  stored : List Byte

inductive PipeAct (P : Type) where
  | pipewrite (p : P) (addr : Nat → Byte) (n : Int)
  | piperead (p : P) (n : Int)
  | resume (p : P)
  | sleep (p : P)
  | pipeclose (writable : Bool)
  | kill (p : P)
  | wakeup (chan : PipeChan)

/-- A call that returns, as it was when it last took the lock, and its result. -/
structure PipeReturn (P : Type) where
  proc : P
  call : PipeCall
  result : Int

/-- The `n` bytes at `addr`. -/
def userBytes (addr : Nat → Byte) (n : Int) : List Byte := (List.range n.toNat).map addr

namespace PipeUsers

variable {P : Type} [DecidableEq P]

def wakeup (s : PipeUsers P) (chan : PipeChan) : PipeUsers P :=
  { s with phase := fun p => (s.phase p).wakeup chan }

def setPhase (s : PipeUsers P) (p : P) (ph : PipePhase) : PipeUsers P :=
  { s with phase := update s.phase p ph }

/-- The history of one writer. -/
def writtenBy (s : PipeUsers P) (p : P) : List Byte :=
  (s.written.filter fun e => e.1 = p).map Prod.snd

/-- The bytes `new` of `p` have gone into the pipe. -/
def wrote (s : PipeUsers P) (p : P) (new : List Byte) (pipe : Pipe) : PipeUsers P :=
  { s with pipe := pipe, written := s.written ++ new.map (p, ·) }

def took (s : PipeUsers P) (new : List Byte) (pipe : Pipe) : PipeUsers P :=
  { s with pipe := pipe, stored := s.stored ++ new }

/-- `sleep` is entered with the lock held. -/
def goToSleep (s : PipeUsers P) (p : P) (c : PipeCall) : PipeUsers P × List (PipeReturn P) :=
  ({ s.setPhase p (.going c) with lock := some p }, [])

def finish (s : PipeUsers P) (p : P) (c : PipeCall) (r : Int) :
    PipeUsers P × List (PipeReturn P) :=
  (s.setPhase p .outside, [⟨p, c, r⟩])

/-- A call from the moment it has the lock to its next sleep or its return. -/
def runCall (s : PipeUsers P) (p : P) : PipeCall → PipeUsers P × List (PipeReturn P)
  | .write n addr rest before =>
      let r := s.pipe.fill rest
      let s₁ := s.wrote p (rest.take (rest.length - r.2.length)) r.1
      if r.2 = [] then (s₁.wakeup .nread).finish p (.write n addr rest before) n
      else if s.pipe.readopen = false ∨ s.killed p then
        s₁.finish p (.write n addr rest before) (-1)
      else (s₁.wakeup .nread).goToSleep p (.write n addr r.2 before)
  | .read n =>
      if s.pipe.empty && s.pipe.writeopen then
        if s.killed p then s.finish p (.read n) (-1) else s.goToSleep p (.read n)
      else
        let r := s.pipe.drain n.toNat
        ((s.took r.2 r.1).wakeup .nwrite).finish p (.read n) r.2.length

def pipeclose (s : PipeUsers P) (writable : Bool) : PipeUsers P :=
  if writable then { s with pipe := { s.pipe with writeopen := false } }.wakeup .nread
  else { s with pipe := { s.pipe with readopen := false } }.wakeup .nwrite

/-- What takes `p->lock` needs it free, and the pipe's page not freed. -/
def available (s : PipeUsers P) : Bool := s.lock.isNone && !s.pipe.freed

def step (s : PipeUsers P) : PipeAct P → Option (PipeUsers P × List (PipeReturn P))
  | .pipewrite p addr n =>
      match s.available, s.phase p with
      | true, .outside =>
          let bytes := userBytes addr n
          some (s.runCall p (.write n bytes bytes (s.writtenBy p).length))
      | _, _ => none
  | .piperead p n =>
      match s.available, s.phase p with
      | true, .outside => some (s.runCall p (.read n))
      | _, _ => none
  | .resume p =>
      match s.available, s.phase p with
      | true, .woken c => some (s.runCall p c)
      | _, _ => none
  | .sleep p =>
      match s.phase p with
      | .going c => some ({ s.setPhase p (.asleep c) with lock := none }, [])
      | _ => none
  | .pipeclose writable => if s.available then some (s.pipeclose writable, []) else none
  | .kill p =>
      some ({ s.setPhase p (s.phase p).kill with killed := update s.killed p true }, [])
  | .wakeup chan => some (s.wakeup chan, [])

/-- After `pipealloc`. -/
structure Initial (s : PipeUsers P) : Prop where
  nread : s.pipe.nread = 0
  nwrite : s.pipe.nwrite = 0
  readopen : s.pipe.readopen = true
  writeopen : s.pipe.writeopen = true
  lock : s.lock = none
  outside : ∀ p, s.phase p = .outside
  written : s.written = []
  stored : s.stored = []

end PipeUsers

/-- The users of one pipe, interleaved. -/
def pipeSystem (P : Type) [DecidableEq P] :
    TransitionSystem (PipeUsers P) (PipeAct P) (PipeReturn P) where
  init := PipeUsers.Initial
  step := PipeUsers.step

/-! ### The two loops -/

variable {rest : List Byte}

namespace Pipe

theorem pipesize_lt : PIPESIZE < 2 ^ 32 := by decide

theorem pipesize_dvd : PIPESIZE ∣ 2 ^ 32 := by decide

variable {p : Pipe}

theorem full_iff : p.full = true ↔ p.ring.count = PIPESIZE := by
  rw [RingQueue.count_eq_cap_iff pipesize_lt]
  exact beq_iff_eq

theorem empty_iff : p.empty = true ↔ p.nread = p.nwrite := beq_iff_eq

theorem length_contents (p : Pipe) : p.contents.length = (p.nwrite - p.nread).toNat :=
  p.ring.length_contents

theorem not_empty_of_full (h : p.full = true) : p.nread ≠ p.nwrite := by
  intro heq
  have hzero := p.ring.count_eq_zero_iff.mpr heq
  rw [full_iff.mp h] at hzero
  exact absurd hzero (by decide)

theorem ring_put (p : Pipe) (b : Byte) : (p.put b).ring = p.ring.push b := rfl

theorem put_spec (hc : p.ring.count ≤ PIPESIZE) (hf : p.full = false) :
    (p.put b).ring.count ≤ PIPESIZE ∧ (p.put b).contents = p.contents ++ [b] := by
  have hne : p.ring.count ≠ PIPESIZE := by
    intro h
    rw [full_iff.mpr h] at hf
    exact Bool.noConfusion hf
  have hlt : p.ring.count < PIPESIZE := Nat.lt_of_le_of_ne hc hne
  unfold contents
  rw [ring_put, RingQueue.count_push pipesize_lt hlt]
  exact ⟨hlt, RingQueue.contents_push pipesize_lt pipesize_dvd hlt⟩

/-- What the loop of `pipewrite` does with the bytes `rest`: those in `new` are appended, and
    if any are left the pipe is full. -/
structure Filled (p : Pipe) (rest : List Byte) (q : Pipe) (new left : List Byte) : Prop where
  split : rest = new ++ left
  contents : q.contents = p.contents ++ new
  count : q.ring.count ≤ PIPESIZE
  readopen : q.readopen = p.readopen
  writeopen : q.writeopen = p.writeopen
  full : left ≠ [] → q.full = true

theorem fill_spec (hc : p.ring.count ≤ PIPESIZE) :
    ∃ new, Filled p rest (p.fill rest).1 new (p.fill rest).2 := by
  induction rest generalizing p with
  | nil => exact ⟨[], rfl, (append_nil _).symm, hc, rfl, rfl, fun h => absurd rfl h⟩
  | cons b bs ih =>
    rw [fill]
    by_cases hf : p.full = true
    · rw [if_pos hf]
      exact ⟨[], rfl, (append_nil _).symm, hc, rfl, rfl, fun _ => hf⟩
    · rw [if_neg hf]
      obtain ⟨hc', hput⟩ := put_spec (b := b) hc (by simpa using hf)
      obtain ⟨new, h⟩ := ih hc'
      refine ⟨b :: new, ?_, ?_, h.count, h.readopen, h.writeopen, h.full⟩
      · exact congrArg (b :: ·) h.split
      · rw [h.contents, hput, append_assoc, singleton_append]

theorem drain_spec (hc : p.ring.count ≤ PIPESIZE) :
    p.contents = (p.drain n).2 ++ (p.drain n).1.contents ∧ (p.drain n).1.ring.count ≤ PIPESIZE ∧
      (p.drain n).1.writeopen = p.writeopen ∧ (p.drain n).1.readopen = p.readopen := by
  induction n generalizing p with
  | zero => exact ⟨rfl, hc, rfl, rfl⟩
  | succ n ih =>
    rw [drain]
    split_ifs with he
    · exact ⟨rfl, hc, rfl, rfl⟩
    · have hne : p.ring.front ≠ p.ring.back := fun h => he (empty_iff.mpr h)
      have hpop := RingQueue.contents_pop pipesize_lt pipesize_dvd hne hc
      have hcount := RingQueue.count_pop pipesize_lt hne hc
      have hle : p.ring.pop.count ≤ PIPESIZE := by omega
      obtain ⟨hcont, hc', hw, hr⟩ := ih (p := { p with nread := p.nread + 1 }) hle
      refine ⟨?_, hc', hw, hr⟩
      exact hpop.trans (congrArg (_ :: ·) hcont)

/-- A reader that stores nothing had no room for a byte or found the pipe empty. -/
theorem drain_eq_nil (h : (p.drain n).2 = []) : n = 0 ∨ p.empty = true ∧ (p.drain n).1 = p := by
  cases n with
  | zero => exact Or.inl rfl
  | succ n =>
    rw [drain] at h ⊢
    split_ifs at h ⊢ with he
    exact Or.inr ⟨he, rfl⟩

end Pipe

/-! ### What a step does -/

namespace PipeUsers

variable {P : Type} [DecidableEq P] {s s' : PipeUsers P} {a : PipeAct P}
  {ev : List (PipeReturn P)}

/-- A call between two sleeps. -/
inductive Ran (s : PipeUsers P) (p : P) :
    PipeCall → PipeUsers P → List (PipeReturn P) → Prop where
  | wrote {n : Int} {addr rest : List Byte} {before : Nat} {q : Pipe} :
      s.pipe.Filled rest q rest [] → (s.pipe.fill rest).2 = [] →
      Ran s p (.write n addr rest before)
        (((s.wrote p rest q).wakeup .nread).setPhase p .outside)
        [⟨p, .write n addr rest before, n⟩]
  | gaveUp {n : Int} {addr rest new left : List Byte} {before : Nat} {q : Pipe} :
      s.pipe.Filled rest q new left → left = (s.pipe.fill rest).2 → left ≠ [] →
      (s.pipe.readopen = false ∨ s.killed p) →
      Ran s p (.write n addr rest before) ((s.wrote p new q).setPhase p .outside)
        [⟨p, .write n addr rest before, -1⟩]
  | writeSleeps {n : Int} {addr rest new left : List Byte} {before : Nat} {q : Pipe} :
      s.pipe.Filled rest q new left → left ≠ [] → s.pipe.readopen = true → s.killed p = false →
      Ran s p (.write n addr rest before)
        { ((s.wrote p new q).wakeup .nread).setPhase p (.going (.write n addr left before)) with
          lock := some p } []
  | readKilled {n : Int} : Ran s p (.read n) (s.setPhase p .outside) [⟨p, .read n, -1⟩]
  | readSleeps {n : Int} : s.pipe.empty = true → s.pipe.writeopen = true →
      Ran s p (.read n) { s.setPhase p (.going (.read n)) with lock := some p } []
  | read {n : Int} : ¬ (s.pipe.empty = true ∧ s.pipe.writeopen = true) →
      Ran s p (.read n)
        (((s.took (s.pipe.drain n.toNat).2 (s.pipe.drain n.toNat).1).wakeup .nwrite).setPhase p
          .outside)
        [⟨p, .read n, (s.pipe.drain n.toNat).2.length⟩]

variable {p : P} {n : Int}

theorem runCall_ran (hc : s.pipe.ring.count ≤ PIPESIZE) (c : PipeCall) :
    Ran s p c (s.runCall p c).1 (s.runCall p c).2 := by
  cases c with
  | write n addr rest before =>
    obtain ⟨new, h⟩ : ∃ new, s.pipe.Filled rest (s.pipe.fill rest).1 new (s.pipe.fill rest).2 :=
      Pipe.fill_spec hc
    have htake : rest.take (rest.length - (s.pipe.fill rest).2.length) = new := by
      have hlen := congrArg List.length h.split
      rw [length_append] at hlen
      rw [hlen, Nat.add_sub_cancel]
      exact (congrArg (List.take new.length) h.split).trans take_left
    simp only [runCall, htake]
    split_ifs with hleft hup
    · have hnew : new = rest := by
        have hsplit := h.split
        rw [hleft, append_nil] at hsplit
        exact hsplit.symm
      rw [hleft, hnew] at h
      rw [hnew]
      exact .wrote h hleft
    · exact .gaveUp h rfl hleft hup
    · push Not at hup
      exact .writeSleeps h hleft (by simpa using hup.1) (by simpa using hup.2)
  | read n =>
    simp only [runCall]
    split_ifs with he hk
    · exact .readKilled
    · obtain ⟨hemp, hopen⟩ := Bool.and_eq_true_iff.mp he
      exact .readSleeps hemp hopen
    · exact .read fun h => he (Bool.and_eq_true_iff.mpr h)

/-- The call that a step starts or goes on with. -/
inductive Runs (s : PipeUsers P) : PipeAct P → P → PipeCall → Prop where
  | pipewrite {p : P} {addr : Nat → Byte} {n : Int} : s.phase p = .outside →
      Runs s (.pipewrite p addr n) p
        (.write n (userBytes addr n) (userBytes addr n) (s.writtenBy p).length)
  | piperead {p : P} {n : Int} : s.phase p = .outside → Runs s (.piperead p n) p (.read n)
  | resume {p : P} {c : PipeCall} : s.phase p = .woken c → Runs s (.resume p) p c

variable {before : Nat}

theorem Runs.unique (h : Runs s a p c) (h' : Runs s a p' c') : p = p' ∧ c = c' := by
  cases h with
  | pipewrite _ =>
    cases h'
    exact ⟨rfl, rfl⟩
  | piperead _ =>
    cases h'
    exact ⟨rfl, rfl⟩
  | resume hw =>
    cases h' with
    | resume hw' => exact ⟨rfl, PipePhase.woken.inj (hw.symm.trans hw')⟩

inductive Did (s : PipeUsers P) : PipeAct P → PipeUsers P → List (PipeReturn P) → Prop where
  | ran {a : PipeAct P} {p : P} {c : PipeCall} {s' : PipeUsers P} {ev : List (PipeReturn P)} :
      s.lock = none → Runs s a p c → Ran s p c s' ev → Did s a s' ev
  | sleep {p : P} {c : PipeCall} : s.phase p = .going c →
      Did s (.sleep p) { s.setPhase p (.asleep c) with lock := none } []
  | pipeclose {writable : Bool} : s.lock = none →
      Did s (.pipeclose writable) (s.pipeclose writable) []
  | kill {p : P} :
      Did s (.kill p)
        { s.setPhase p (s.phase p).kill with killed := update s.killed p true } []
  | wakeup {chan : PipeChan} : Did s (.wakeup chan) (s.wakeup chan) []

omit [DecidableEq P] in
theorem lock_of_available (h : s.available = true) : s.lock = none := by
  have hfree : s.lock.isNone = true := (Bool.and_eq_true_iff.mp h).1
  exact Option.isNone_iff_eq_none.mp hfree

theorem step_did (hc : s.pipe.ring.count ≤ PIPESIZE) (h : s.step a = some (s', ev)) :
    Did s a s' ev := by
  have hran : ∀ {p c}, some (s.runCall p c) = some (s', ev) → Ran s p c s' ev := by
    intro p c heq
    have hr := runCall_ran (p := p) hc c
    rwa [Option.some.inj heq] at hr
  cases a with
  | pipewrite p addr n =>
    simp only [step] at h
    split at h
    case h_1 hav hph => exact .ran (lock_of_available hav) (.pipewrite hph) (hran h)
    case h_2 => exact absurd h (by simp)
  | piperead p n =>
    simp only [step] at h
    split at h
    case h_1 hav hph => exact .ran (lock_of_available hav) (.piperead hph) (hran h)
    case h_2 => exact absurd h (by simp)
  | resume p =>
    simp only [step] at h
    split at h
    case h_1 hav hph => exact .ran (lock_of_available hav) (.resume hph) (hran h)
    case h_2 => exact absurd h (by simp)
  | sleep p =>
    simp only [step] at h
    split at h
    case h_1 hph =>
      cases h
      exact .sleep hph
    case h_2 => exact absurd h (by simp)
  | pipeclose w =>
    simp only [step] at h
    split_ifs at h with hav
    cases h
    exact .pipeclose (lock_of_available hav)
  | kill p =>
    cases h
    exact .kill
  | wakeup chan =>
    cases h
    exact .wakeup

/-! ### The queue -/

@[simp] theorem setPhase_self (s : PipeUsers P) (p : P) (ph : PipePhase) :
    (s.setPhase p ph).phase p = ph := update_self _ _ _

@[simp] theorem setPhase_of_ne (s : PipeUsers P) (ph : PipePhase) (h : q ≠ p) :
    (s.setPhase p ph).phase q = s.phase q := update_of_ne h _ _

theorem writtenBy_wrote_self (s : PipeUsers P) (p : P) (new : List Byte) (q : Pipe) :
    (s.wrote p new q).writtenBy p = s.writtenBy p ++ new := by
  simp [writtenBy, wrote, filter_map, comp_def]

theorem writtenBy_wrote_of_ne (s : PipeUsers P) (h : r ≠ p) (new : List Byte) (q : Pipe) :
    (s.wrote p new q).writtenBy r = s.writtenBy r := by
  simp [writtenBy, wrote, filter_map, comp_def, h.symm]

/-- How far a writer has got: the bytes its process has put in since the call began and those
    left over are its `n` bytes. -/
structure Writing (mine : List Byte) (n : Int) (addr rest : List Byte) (before : Nat) : Prop where
  bytes : mine.drop before ++ rest = addr
  before : before ≤ mine.length
  length : addr.length = n.toNat

theorem Writing.append (h : Writing mine n addr rest before)
    (hsplit : rest = new ++ left) : Writing (mine ++ new) n addr left before := by
  refine ⟨?_, ?_, h.length⟩
  · rw [drop_append_of_le_length h.before, append_assoc, ← hsplit]
    exact h.bytes
  · rw [length_append]
    exact Nat.le_add_right_of_le h.before

structure Fifo (s : PipeUsers P) : Prop where
  count : s.pipe.ring.count ≤ PIPESIZE
  stream : s.written.map Prod.snd = s.stored ++ s.pipe.contents
  writing : ∀ p n addr rest before, (s.phase p).call = some (.write n addr rest before) →
    Writing (s.writtenBy p) n addr rest before

theorem call_wakeup (ph : PipePhase) (chan : PipeChan) : (ph.wakeup chan).call = ph.call := by
  cases ph with
  | asleep c =>
    simp only [PipePhase.wakeup]
    split_ifs <;> rfl
  | _ => rfl

theorem call_kill (ph : PipePhase) : ph.kill.call = ph.call := by
  cases ph <;> rfl

theorem call_wakeup_setPhase (chan : PipeChan) (p : P) (ph : PipePhase) (r : P) :
    (((s.wakeup chan).setPhase p ph).phase r).call = ((s.setPhase p ph).phase r).call := by
  by_cases heq : r = p
  · rw [heq, setPhase_self, setPhase_self]
  · rw [setPhase_of_ne _ _ heq, setPhase_of_ne _ _ heq]
    exact call_wakeup _ _

namespace Fifo

/-- The queue says nothing of locks, kills and open ends, nor of who sleeps. -/
theorem of_calls (h : Fifo s) (hring : s'.pipe.ring = s.pipe.ring)
    (hwritten : s'.written = s.written) (hstored : s'.stored = s.stored)
    (hcall : ∀ p, (s'.phase p).call = (s.phase p).call) : Fifo s' where
  count := by
    rw [hring]
    exact h.count
  stream := by
    unfold Pipe.contents
    rw [hwritten, hstored, hring]
    exact h.stream
  writing := by
    intro p n addr rest before hp
    rw [hcall] at hp
    unfold writtenBy
    rw [hwritten]
    exact h.writing p n addr rest before hp

variable {p : P}

theorem setPhase (hcount : s.pipe.ring.count ≤ PIPESIZE)
    (hstream : s.written.map Prod.snd = s.stored ++ s.pipe.contents)
    (hothers : ∀ r n addr rest before, r ≠ p → (s.phase r).call = some (.write n addr rest before) →
      Writing (s.writtenBy r) n addr rest before)
    (hph : ∀ n addr rest before, ph.call = some (.write n addr rest before) →
      Writing (s.writtenBy p) n addr rest before) : Fifo (s.setPhase p ph) := by
  refine ⟨hcount, hstream, ?_⟩
  intro r n addr rest before hr
  by_cases heq : r = p
  · subst heq
    rw [setPhase_self] at hr
    exact hph n addr rest before hr
  · rw [setPhase_of_ne _ _ heq] at hr
    exact hothers r n addr rest before heq hr

theorem wrote (h : Fifo s) (hf : s.pipe.Filled rest q new left)
    (hph : ∀ n addr rest' before, ph.call = some (.write n addr rest' before) →
      Writing (s.writtenBy p ++ new) n addr rest' before) :
    Fifo ((s.wrote p new q).setPhase p ph) := by
  refine setPhase hf.count ?_ ?_ ?_
  · change (s.written ++ new.map (p, ·)).map Prod.snd = s.stored ++ q.contents
    rw [map_append, h.stream, hf.contents, map_map, append_assoc]
    exact congrArg (fun l => s.stored ++ (s.pipe.contents ++ l)) (map_id new)
  · intro r n addr rest' before heq hr
    rw [writtenBy_wrote_of_ne s heq]
    exact h.writing r n addr rest' before hr
  · rw [writtenBy_wrote_self]
    exact hph

theorem took {n : Nat} (h : Fifo s) : Fifo (s.took (s.pipe.drain n).2 (s.pipe.drain n).1) := by
  obtain ⟨hcont, hcount, -, -⟩ := Pipe.drain_spec (n := n) h.count
  refine ⟨hcount, ?_, fun p => h.writing p⟩
  change s.written.map Prod.snd = (s.stored ++ (s.pipe.drain n).2) ++ (s.pipe.drain n).1.contents
  rw [append_assoc, ← hcont]
  exact h.stream

theorem outOfWrite (h : Fifo s)
    (hph : ∀ n addr rest before, ph.call ≠ some (.write n addr rest before)) :
    Fifo (s.setPhase p ph) :=
  setPhase h.count h.stream (fun r n addr rest before _ => h.writing r n addr rest before)
    (fun n addr rest before hc => absurd hc (hph n addr rest before))

/-- The call that a step runs is as far as the queue says. -/
theorem runs (h : Fifo s) (hr : Runs s a p (.write n addr rest before)) :
    Writing (s.writtenBy p) n addr rest before := by
  cases hr with
  | pipewrite _ =>
    refine ⟨?_, le_rfl, ?_⟩
    · rw [drop_length, nil_append]
    · unfold userBytes
      rw [length_map, length_range]
  | resume hw => exact h.writing p n addr rest before (by rw [hw]; rfl)

theorem ran (h : Fifo s) (hr : Runs s a p c) (hd : Ran s p c s' ev) : Fifo s' := by
  cases hd with
  | @wrote _ _ rest _ q hf _ =>
    have hfifo : Fifo ((s.wrote p rest q).setPhase p .outside) :=
      h.wrote hf fun _ _ _ _ hc => nomatch hc
    exact hfifo.of_calls rfl rfl rfl (call_wakeup_setPhase _ _ _)
  | gaveUp hf _ _ _ => exact h.wrote hf fun _ _ _ _ hc => nomatch hc
  | @writeSleeps n addr rest new left before q hf _ _ _ =>
    have hw : Writing (s.writtenBy p ++ new) n addr left before := (h.runs hr).append hf.split
    have hfifo : Fifo ((s.wrote p new q).setPhase p (.going (.write n addr left before))) := by
      refine h.wrote hf fun n' addr' rest' before' hc => ?_
      obtain ⟨rfl, rfl, rfl, rfl⟩ := PipeCall.write.inj (Option.some.inj hc)
      exact hw
    exact hfifo.of_calls rfl rfl rfl (call_wakeup_setPhase _ _ _)
  | readKilled => exact h.outOfWrite fun _ _ _ _ hc => nomatch hc
  | @readSleeps n _ _ =>
    have hfifo : Fifo (s.setPhase p (.going (.read n))) := h.outOfWrite fun _ _ _ _ hc => nomatch hc
    exact hfifo.of_calls rfl rfl rfl fun _ => rfl
  | @read n _ =>
    have hfifo := h.took (n := n.toNat)
    have hout : Fifo ((s.took _ _).setPhase p .outside) :=
      hfifo.outOfWrite fun _ _ _ _ hc => nomatch hc
    exact hout.of_calls rfl rfl rfl (call_wakeup_setPhase _ _ _)

theorem call_setPhase_of_eq (hcall : ph.call = (s.phase p).call) (r : P) :
    ((s.setPhase p ph).phase r).call = (s.phase r).call := by
  by_cases heq : r = p
  · rw [heq, setPhase_self, hcall]
  · rw [setPhase_of_ne _ _ heq]

theorem step (h : Fifo s) (hstep : s.step a = some (s', ev)) : Fifo s' := by
  cases step_did h.count hstep with
  | ran _ hr hd => exact h.ran hr hd
  | sleep hgo =>
    exact h.of_calls rfl rfl rfl (call_setPhase_of_eq (by rw [hgo]; rfl))
  | @pipeclose writable _ =>
    cases writable <;> exact h.of_calls rfl rfl rfl fun _ => call_wakeup _ _
  | kill => exact h.of_calls rfl rfl rfl (call_setPhase_of_eq (call_kill _))
  | wakeup => exact h.of_calls rfl rfl rfl fun _ => call_wakeup _ _

theorem initial (h : s.Initial) : Fifo s := by
  have hzero : s.pipe.ring.front = s.pipe.ring.back := h.nread.trans h.nwrite.symm
  refine ⟨?_, ?_, ?_⟩
  · rw [s.pipe.ring.count_eq_zero_iff.mpr hzero]
    exact Nat.zero_le _
  · unfold Pipe.contents
    rw [h.written, h.stored, s.pipe.ring.contents_eq_nil_iff.mpr hzero]
    rfl
  · intro p n addr rest before hp
    rw [h.outside p] at hp
    cases hp

end Fifo

theorem reachable_fifo (hs : (pipeSystem P).Reachable s) : Fifo s :=
  hs.invariant (fun _ h => Fifo.initial h) fun _ _ _ _ h hstep => h.step hstep

/-! ### What calls return -/

/-- A call of `pipewrite` that returns its count has put all its bytes in, in their order. -/
theorem Fifo.wrote_all (h : Fifo s) (hstep : s.step a = some (s', ev))
    (he : ⟨p, .write n addr rest before, n⟩ ∈ ev) :
    addr.length = n.toNat ∧ (s'.writtenBy p).drop before = addr := by
  cases step_did h.count hstep with
  | ran _ hr hd =>
    cases hd with
    | @wrote n' addr' rest' before' q hf _ =>
      obtain ⟨rfl, hc, -⟩ := PipeReturn.mk.inj (mem_singleton.mp he)
      obtain ⟨rfl, rfl, rfl, rfl⟩ := PipeCall.write.inj hc
      have hw : Writing (s.writtenBy p ++ rest) n addr [] before :=
        (h.runs hr).append (append_nil _).symm
      refine ⟨hw.length, ?_⟩
      have hby : (((s.wrote p rest q).wakeup .nread).setPhase p .outside).writtenBy p =
          s.writtenBy p ++ rest := writtenBy_wrote_self s p rest q
      rw [hby, ← append_nil (List.drop _ _)]
      exact hw.bytes
    | @gaveUp n' addr' rest' new left before' q hf _ hleft _ =>
      obtain ⟨rfl, hc, hn⟩ := PipeReturn.mk.inj (mem_singleton.mp he)
      obtain ⟨rfl, rfl, rfl, rfl⟩ := PipeCall.write.inj hc
      -- a count of `-1` comes with no bytes, so nothing could be left
      have hw := h.runs hr
      have hlen : addr.length = 0 := by rw [hw.length, hn]; rfl
      have hnil : rest = [] := by
        have happ := hw.bytes
        rw [length_eq_zero_iff.mp hlen] at happ
        exact (append_eq_nil_iff.mp happ).2
      have hsplit := hf.split
      rw [hnil] at hsplit
      exact absurd (append_eq_nil_iff.mp hsplit.symm).2 hleft
    | writeSleeps => exact absurd he not_mem_nil
    | readKilled => simp at he
    | readSleeps => exact absurd he not_mem_nil
    | read => simp at he
  | _ => exact absurd he not_mem_nil

/-- `piperead` returns 0 for a positive count only at the end of the stream. -/
theorem Fifo.read_zero (h : Fifo s) (hstep : s.step a = some (s', ev)) (hn : 0 < n)
    (he : ⟨p, .read n, 0⟩ ∈ ev) : s'.pipe.nread = s'.pipe.nwrite ∧ s'.pipe.writeopen = false := by
  cases step_did h.count hstep with
  | ran _ hr hd =>
    cases hd with
    | wrote => simp at he
    | gaveUp => simp at he
    | writeSleeps => exact absurd he not_mem_nil
    | readKilled => simp at he
    | readSleeps => exact absurd he not_mem_nil
    | @read n' hready =>
      obtain ⟨rfl, hc, hlen⟩ := PipeReturn.mk.inj (mem_singleton.mp he)
      obtain rfl := PipeCall.read.inj hc
      have hnil : (s.pipe.drain n.toNat).2 = [] :=
        length_eq_zero_iff.mp (Int.natCast_eq_zero.mp hlen.symm)
      rcases Pipe.drain_eq_nil hnil with hzero | ⟨hemp, hsame⟩
      · omega
      · change (s.pipe.drain n.toNat).1.nread = (s.pipe.drain n.toNat).1.nwrite ∧
          (s.pipe.drain n.toNat).1.writeopen = false
        rw [hsame]
        refine ⟨Pipe.empty_iff.mp hemp, ?_⟩
        exact Bool.eq_false_iff.mpr fun hopen => hready ⟨hemp, hopen⟩
  | _ => exact absurd he not_mem_nil

/-- A pipe is a lossless queue, in every state that any interleaving of any number of readers
    and writers reaches. -/
theorem pipe_lossless (hs : (pipeSystem P).Reachable s) : s.stored <+: s.written.map Prod.snd ∧
    s.written.map Prod.snd = s.stored ++ s.pipe.contents ∧
    s.pipe.contents.length = (s.pipe.nwrite - s.pipe.nread).toNat ∧
    (s.pipe.nwrite - s.pipe.nread).toNat ≤ PIPESIZE ∧
    ∀ a s' ev, s.step a = some (s', ev) →
      (∀ p n addr rest before, ⟨p, .write n addr rest before, n⟩ ∈ ev →
        addr.length = n.toNat ∧ (s'.writtenBy p).drop before = addr) ∧
      ∀ p n, 0 < n → ⟨p, .read n, 0⟩ ∈ ev →
        s'.pipe.nread = s'.pipe.nwrite ∧ s'.pipe.writeopen = false := by
  have hfifo := reachable_fifo hs
  refine ⟨⟨_, hfifo.stream.symm⟩, hfifo.stream, s.pipe.length_contents, hfifo.count, ?_⟩
  intro a s' ev hstep
  exact ⟨fun _ _ _ _ _ he => hfifo.wrote_all hstep he, fun _ _ hn he => hfifo.read_zero hstep hn he⟩

/-- A new pipe. -/
def newPipe : PipeUsers (Fin 2) where
  pipe := { data := fun _ => 0, nread := 0, nwrite := 0, readopen := true, writeopen := true }
  lock := none
  killed := fun _ => false
  phase := fun _ => .outside
  written := []
  stored := []

theorem newPipe_initial : newPipe.Initial := ⟨rfl, rfl, rfl, rfl, rfl, fun _ => rfl, rfl, rfl⟩

/-- Three bytes go in and two come out. -/
theorem pipe_lossless_threeBytes : ∃ s : PipeUsers (Fin 2), ∃ ev,
    (pipeSystem (Fin 2)).run newPipe [.pipewrite 0 (fun k => BitVec.ofNat 8 k) 3, .piperead 1 2] =
      some (s, ev) ∧ s.stored = [0, 1] ∧ s.stored <+: s.written.map Prod.snd := by
  obtain ⟨s, ev, hrun, hstored⟩ : ∃ s : PipeUsers (Fin 2), ∃ ev, (pipeSystem (Fin 2)).run newPipe
        [.pipewrite 0 (fun k => BitVec.ofNat 8 k) 3, .piperead 1 2] = some (s, ev) ∧
        s.stored = [0, 1] := ⟨_, _, rfl, by decide +kernel⟩
  have hs : (pipeSystem (Fin 2)).Reachable s :=
    TransitionSystem.Reachable.run (.init newPipe_initial) hrun
  exact ⟨s, ev, hrun, hstored, (pipe_lossless hs).1⟩

end PipeUsers

end Xv6Kernel
