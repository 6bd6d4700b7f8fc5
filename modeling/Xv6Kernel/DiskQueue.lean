/-
  DiskQueue.lean
  ==============
  The commands that the disk gets.

  `idestart` tells the disk to read or to write the block of a buffer, and an interrupt says that
  this is done.  `iderw` starts a command if its buffer is the first of the queue, and `ideintr`
  starts the next one.  Here the command in flight is part of the state: the disk does what it was
  told, while `ideintr` goes by the flags that the first buffer of the queue has when the
  interrupt comes.  In every interleaving the two agree.

  Left out: interrupts without a command, which `ideintr` ignores when the queue is empty.
-/
import Xv6Kernel.BufferCoherence

namespace Xv6Kernel.BufferCache

open RingList Function List

variable {P : Type}

/-! ### The driver -/

/-- What `idestart` writes to the ports of the disk. -/
structure Command where
  buf : Fin NBUF
  key : Key
  /-- The data of a write. -/
  out : Option Block

def idestart (s : State P) (b : Fin NBUF) : Command :=
  ⟨b, (s.buf b).key, if (s.buf b).dirty then some (s.buf b).data else none⟩

/-- `ideintr` for the first buffer of the queue, after the disk has done the command `c`. -/
def State.ideintr (s : State P) (c : Command) (b : Fin NBUF) (queue : List (Fin NBUF)) : State P :=
  let disk := c.out.elim s.disk (update s.disk c.key)
  let data := if (s.buf b).dirty then (s.buf b).data else s.disk c.key
  ({ s with idequeue := queue, disk := disk }.setBuf b
    { s.buf b with data := data, valid := true, dirty := false }).wakeup b

/-- The cache with the command in flight, and what has happened so far. -/
structure Driver (P : Type) where
  cache : State P
  command : Option Command
  appended : List (Fin NBUF)
  started : List Command
  completed : List (Fin NBUF)

namespace Driver

variable [DecidableEq P]

def start (d : Driver P) (b : Fin NBUF) : Driver P :=
  { d with command := some (idestart d.cache b), started := d.started ++ [idestart d.cache b] }

def step (d : Driver P) : Act P → Option (Driver P × List (Event P))
  | .iderw p =>
      match d.cache.call p with
      | .iderw b reads =>
          let s := { d.cache with idequeue := d.cache.idequeue ++ [b] }.setCall p (.wait b reads)
          let d := { d with cache := s, appended := d.appended ++ [b] }
          some (if s.idequeue.head? = some b then d.start b else d, [])
      | _ => none
  | .ideintr =>
      match d.command, d.cache.idequeue with
      | some c, b :: queue =>
          let d := { d with
            cache := d.cache.ideintr c b queue, command := none, completed := d.completed ++ [b] }
          some (queue.head?.elim d d.start, [])
      | _, _ => none
  | a => (d.cache.step a).map fun r => ({ d with cache := r.1 }, r.2)

structure Booted (d : Driver P) : Prop where
  cache : BufferCache.Booted d.cache
  command : d.command = none
  appended : d.appended = []
  started : d.started = []
  completed : d.completed = []

end Driver

def driverSystem (P : Type) [DecidableEq P] : TransitionSystem (Driver P) (Act P) (Event P) where
  init := Driver.Booted
  step := Driver.step

/-! ### The command in flight is that of the first buffer -/

variable {s : State P} {d d' : Driver P} {p : P} {b : Fin NBUF} {a : Act P} {ev : List (Event P)}

/-- The queue and its buffers stay as they are. -/
structure Still (s s' : State P) : Prop where
  queue : s'.idequeue = s.idequeue
  buf : ∀ c ∈ s.idequeue, s'.buf c = s.buf c

theorem Still.of_update {c : Buffer} (hq : s'.idequeue = s.idequeue)
    (hbuf : s'.buf = update s.buf b c) (hb : b ∉ s.idequeue) : Still s s' := by
  refine ⟨hq, fun d hd => ?_⟩
  have hne : d ≠ b := fun heq => hb (heq ▸ hd)
  rw [hbuf, update_of_ne hne]

/-- The disk has done what `ideintr` takes it to have done. -/
theorem ideintr_idestart (queue : List (Fin NBUF)) :
    s.ideintr (idestart s b) b queue = s.complete b queue := by
  unfold State.ideintr State.complete idestart
  by_cases hd : (s.buf b).dirty = true <;> simp [hd]

structure DriverOk (d : Driver P) : Prop where
  cache : Inv d.cache
  command : d.command = d.cache.idequeue.head?.map (idestart d.cache)
  appended : d.appended = d.completed ++ d.cache.idequeue
  started : d.started.map Command.buf = d.completed ++ d.cache.idequeue.head?.toList

theorem DriverOk.still (h : DriverOk d) (hinv : Inv s) (hs : Still d.cache s) :
    DriverOk { d with cache := s } := by
  refine ⟨hinv, ?_, ?_, ?_⟩
  · rw [hs.queue, h.command]
    cases hq : d.cache.idequeue with
    | nil => rfl
    | cons b queue =>
      have hb : s.buf b = d.cache.buf b := hs.buf b (by rw [hq]; exact mem_cons_self)
      simp only [head?_cons, Option.map_some, idestart, hb]
  · rw [hs.queue]
    exact h.appended
  · rw [hs.queue]
    exact h.started

variable [DecidableEq P]

theorem Inv.still_bget {k : Key} (h : Inv s) (hstep : s.bgetStep p k = some (s', ev)) :
    Still s s' := by
  unfold State.bgetStep at hstep
  split at hstep
  · split at hstep
    · cases hstep
      exact ⟨rfl, fun _ _ => rfl⟩
    · rename_i hbusy
      have hb := h.notMem_queue_of_idle (Bool.eq_false_of_not_eq_true hbusy)
      dsimp only at hstep
      split at hstep <;> cases hstep <;> exact .of_update rfl rfl hb
  · split at hstep
    · rename_i hfree
      have hflags := walk_found hfree
      simp only [Bool.and_eq_true, Bool.not_eq_true'] at hflags
      cases hstep
      exact .of_update rfl rfl (h.notMem_queue_of_idle hflags.1)
    · cases hstep

theorem Inv.still (h : Inv s) (hstep : s.step a = some (s', ev)) (hrw : ∀ p, a ≠ .iderw p)
    (hintr : a ≠ .ideintr) : Still s s' := by
  have hb : ∀ {p b}, s.Uses p b → b ∉ s.idequeue :=
    fun hu => h.notMem_queue hu.2 (by rw [hu.1]; rfl)
  cases a with
  | iderw p => exact absurd rfl (hrw p)
  | ideintr => exact absurd rfl hintr
  | bget p =>
    dsimp only [State.step] at hstep
    split at hstep
    · exact h.still_bget hstep
    · cases hstep
  | bread p k =>
    dsimp only [State.step] at hstep
    split at hstep <;> cases hstep
    exact ⟨rfl, fun _ _ => rfl⟩
  | finish p =>
    dsimp only [State.step] at hstep
    split at hstep
    · split at hstep <;> cases hstep
      exact ⟨rfl, fun _ _ => rfl⟩
    · cases hstep
  | brelse p b =>
    dsimp only [State.step] at hstep
    split at hstep <;> cases hstep
    rename_i hu
    exact .of_update rfl rfl (hb hu.1)
  | _ p b =>
    dsimp only [State.step] at hstep
    split at hstep <;> cases hstep
    rename_i hu
    exact .of_update rfl rfl (hb hu)

theorem DriverOk.step (h : DriverOk d) (hstep : d.step a = some (d', ev)) : DriverOk d' := by
  have hcache := h.cache
  have hcommand := h.command
  have happended := h.appended
  have hstarted := h.started
  cases a with
  | iderw p =>
    dsimp only [Driver.step] at hstep
    split at hstep
    · rename_i b reads hcall
      have hinv := hcache.enqueue hcall
      have hok := hcache.calls p
      rw [hcall] at hok
      cases hq : d.cache.idequeue with
      | nil =>
        rw [hq] at hinv hstep happended hstarted
        split at hstep
        · cases hstep
          refine ⟨hinv, rfl, congrArg (· ++ [b]) (happended.trans (append_nil _)), ?_⟩
          exact (map_append ..).trans (congrArg (· ++ [b]) (hstarted.trans (append_nil _)))
        · exact absurd rfl ‹_›
      | cons c queue =>
        have hne : c ≠ b := fun heq => hok.2.2.1 (by rw [hq, heq]; exact mem_cons_self)
        rw [hq] at hinv hstep happended hstarted hcommand
        split at hstep
        · exact absurd (Option.some.inj ‹_›) hne
        · cases hstep
          exact ⟨hinv, hcommand, (congrArg (· ++ [b]) happended).trans (append_assoc ..), hstarted⟩
    · cases hstep
  | ideintr =>
    dsimp only [Driver.step] at hstep
    split at hstep
    · rename_i c b queue hc hq
      rw [hq] at hcommand hstarted happended
      obtain rfl : c = idestart d.cache b := Option.some.inj (hc.symm.trans hcommand)
      rw [ideintr_idestart] at hstep
      have hinv := hcache.complete hq
      have hsplit := happended.trans (append_cons ..)
      cases queue with
      | nil =>
        cases hstep
        exact ⟨hinv, rfl, hsplit, hstarted.trans (append_nil _).symm⟩
      | cons c queue =>
        cases hstep
        exact ⟨hinv, rfl, hsplit, (map_append ..).trans (congrArg (· ++ [c]) hstarted)⟩
    · cases hstep
  | _ =>
    obtain ⟨r, hr, heq⟩ := Option.map_eq_some_iff.mp hstep
    cases heq
    exact h.still (hcache.step hr).1 (hcache.still hr (by simp) (by simp))

/-- The disk gets its commands one at a time and in the order of the calls of `iderw`, and a call
    returns with a buffer that is what is on the disk. -/
theorem disk_queue (h : (driverSystem P).Reachable d) :
    d.command = d.cache.idequeue.head?.map (idestart d.cache) ∧ d.cache.idequeue.Nodup ∧
    d.appended = d.completed ++ d.cache.idequeue ∧
    d.started.map Command.buf = d.completed ++ d.cache.idequeue.head?.toList ∧
    ∀ p d' ev, d.step (.finish p) = some (d', ev) → ∃ b reads, d.cache.call p = .wait b reads ∧
      (d.cache.buf b).valid = true ∧ (d.cache.buf b).dirty = false ∧
      d.cache.disk (d.cache.buf b).key = (d.cache.buf b).data := by
  have hok : DriverOk d := by
    refine h.invariant (fun d h0 => ?_) fun _ _ _ _ hd hstep => hd.step hstep
    obtain ⟨hcache, hcommand, happended, hstarted, hcompleted⟩ := h0
    refine ⟨hcache.inv, ?_, ?_, ?_⟩ <;>
      simp [hcache.queue, hcommand, happended, hstarted, hcompleted]
  refine ⟨hok.command, hok.cache.nodup, hok.appended, hok.started, fun p d' ev hstep => ?_⟩
  obtain ⟨r, hr, -⟩ := Option.map_eq_some_iff.mp hstep
  dsimp only [State.step] at hr
  split at hr
  · rename_i b reads hcall
    split at hr
    · rename_i hflags
      simp only [Bool.and_eq_true, Bool.not_eq_true'] at hflags
      have hcalls := hok.cache.calls p
      rw [hcall] at hcalls
      exact ⟨b, reads, hcall, hflags.1, hflags.2,
        hok.cache.data.clean b hflags.1 hflags.2 hcalls.2.1⟩
    · cases hr
  · cases hr

def bootDriver : Driver Unit := ⟨bootState, none, [], [], []⟩

/-- A block is read. -/
theorem disk_queue_read : ∃ d b, (driverSystem Unit).Reachable d ∧
    d.command.map Command.buf = some b ∧ d.cache.idequeue = [b] ∧ d.completed = [] ∧
    d.started.map Command.buf = [b] := by
  have hboot : (driverSystem Unit).init bootDriver :=
    ⟨⟨rfl, fun _ => rfl, rfl, fun _ => rfl, fun _ => rfl, fun _ => rfl, rfl⟩, rfl, rfl, rfl, rfl⟩
  have h₁ : (driverSystem Unit).Reachable _ := .step (a := .bread () (1, 5)) (.init hboot) rfl
  have h₂ : (driverSystem Unit).Reachable _ := .step (a := .bget ()) h₁ rfl
  have h₃ : (driverSystem Unit).Reachable _ := .step (a := .iderw ()) h₂ rfl
  have hok := disk_queue h₃
  exact ⟨_, _, h₃, rfl, rfl, rfl, hok.2.2.2.1⟩

end Xv6Kernel.BufferCache
