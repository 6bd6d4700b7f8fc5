/-
  CallBalance.lean
  ================
  No call of the file system leaves a lock, a buffer or an operation behind.

  A call that returns has ended the operations of the log that it has begun and has unlocked the
  inodes that it has locked, in every interleaving of calls.  The buffers are taken and given
  back inside the operations of `KOp`: `KOp.diskProg` is what such an operation does with them.
-/
import Xv6Kernel.BufferCalls
import Xv6Kernel.FileRuns

namespace Xv6Kernel

open AtomicProg PanicMonad

/-! ### Buffers of the operations -/

/-- What an operation does with buffers; `end_op` calls `commit` besides, if it is the last. -/
def KOp.diskProg : {β : Type} → KOp β → Kernel → BufProg Unit
  | _, .ilockLoad ip, k =>
      if (k.icache ip).valid = false then do
        let _ ← Buf.iload (k.icache ip).ip.inum
        return ()
      else return ()
  | _, .ifree ip, k => do
      let _ ← Buf.ifree (k.icache ip).ip
      return ()
  | _, .iupdate ip, k => Buf.iupdate (k.icache ip).ip
  | _, .iallocTry type inum, _ => do
      let _ ← Buf.iallocTry type inum
      return ()
  | _, .readi ip off n, k => do
      let _ ← Buf.readi (k.icache ip).ip off n
      return ()
  | _, .writei ip src off n, k => do
      let _ ← Buf.writei (k.icache ip).ip src off n
      return ()
  | _, _, _ => return ()

theorem KOp.diskProg_givesBack (o : KOp β) (k : Kernel) : GivesBack (o.diskProg k) := by
  cases o with
  | ilockLoad ip =>
    exact GivesBack.ite ((iload_givesBack _).bind fun _ => .ret _) (.ret _)
  | ifree ip => exact (ifree_givesBack _).bind fun _ => .ret _
  | iupdate ip => exact iupdate_givesBack _
  | iallocTry type inum => exact (iallocTry_givesBack type inum).bind fun _ => .ret _
  | readi ip off n => exact (readi_givesBack _ off n).bind fun _ => .ret _
  | writei ip src off n => exact (writei_givesBack _ src off n).bind fun _ => .ret _
  | _ => exact .ret _

section

variable {k : Kernel}

/-- The disk after a function of which only the value is used. -/
theorem finalState_then (x : FsM α) (f : α → γ) (fs : Fs) :
    finalState (x >>= fun a => pure (f a)) fs = finalState x fs := by
  unfold finalState
  simp only [bind, EStateM.bind]
  cases x fs <;> rfl

theorem fs_onFs (x : FsM α) : (finalState (onFs x) k).fs = finalState x k.fs := by
  unfold finalState onFs
  cases x k.fs <;> rfl

theorem fs_onInode (x : Inode → FsM (α × Inode)) :
    (finalState (onInode ip x) k).fs = finalState (x (k.icache ip).ip) k.fs := by
  unfold finalState onInode onFs
  rw [get_bind]
  simp only [bind, EStateM.bind]
  cases x (k.icache ip).ip k.fs <;> rfl

theorem fs_of_wp (h : wp x (fun _ k' => k'.fs = k.fs) (fun _ k' => k'.fs = k.fs) k) :
    (finalState x k).fs = k.fs :=
  finalState_of_wp (R := fun k' : Kernel => k'.fs = k.fs) h

end

section

variable {p : FsPool} (h : fsWorkers.system.Reachable p)

include h

/-- A call that returns has nothing left, and operations of the log begin without locks. -/
theorem calls_leave_nothing : (∀ i n, p.thread i = some (.ret n) →
      (p.record i).begun = (p.record i).ended ∧ (p.record i).busy = []) ∧
    (∀ i rest, p.thread i = some (.op .beginOp rest) → (p.record i).busy = []) ∧
    (∀ {β : Type} (o : KOp β), GivesBack (o.diskProg p.state)) ∧
    GivesBack Buf.commit := by
  refine ⟨fun i n hi => ?_, fun i rest hi => ?_, fun o => o.diskProg_givesBack _, commit_givesBack⟩
  · have hdone : (p.record i).Settled := wp_of_thread h hi
    exact ⟨hdone.ops, hdone.busy⟩
  · exact (wp_of_thread h hi).1

end

/-- `chdir` with a bad address has begun and ended one operation. -/
theorem calls_leave_nothing_chdir : ∃ p, fsWorkers.system.Reachable p ∧
    p.thread 0 = some (.ret (-1)) ∧ (p.record 0).begun = 1 ∧ (p.record 0).ended = 1 ∧
    (p.record 0).busy = [] := by
  obtain ⟨p, ev, hrun, hret, hbegun⟩ : ∃ p ev, fsWorkers.system.run bootPool
      [.start 0 (.chdir none), .step 0, .step 0] = some (p, ev) ∧
      p.thread 0 = some (.ret (-1)) ∧ (p.record 0).begun = 1 := ⟨_, _, rfl, rfl, rfl⟩
  have hp := TransitionSystem.Reachable.run (.init bootPool_init) hrun
  obtain ⟨hended, hbusy⟩ := (calls_leave_nothing hp).1 0 (-1) hret
  exact ⟨p, hp, hret, hbegun, hended ▸ hbegun, hbusy⟩

end Xv6Kernel
