/-
  ExecGate.lean
  =============
  Who may execute a file, in the build with `CS333_P5`.

  `exec` tries the execute bits of the owner, the group and the others one after the other,
  and passes if one of them lets it.  `canRun` of `p5-test.c` looks only at the bit of the
  first class that matches.
-/
import Xv6Kernel.CallRecords

namespace Xv6Kernel

namespace InodeFields

/-! The execute bits of `union mode_t`. -/

def o_x (st : InodeFields) : Bool := st.mode.getLsbD 0
def g_x (st : InodeFields) : Bool := st.mode.getLsbD 3
def u_x (st : InodeFields) : Bool := st.mode.getLsbD 6

end InodeFields

/-- The check of `exec` on what `stati` has found: the `ushort` ids of the file are
    converted to the type of those of the process. -/
def execPermits (uid gid : Uint) (st : InodeFields) : Bool :=
  if st.uid.setWidth 32 = uid ∧ st.u_x = true then true
  else if st.gid.setWidth 32 = gid ∧ st.g_x = true then true
  else if st.o_x = true then true
  else false

/-- `exec` goes on with a file that passes, and to `bad` with another. -/
def Sys.execChecked (uid gid : Uint) (plan : InodeInfo → ExecPlan) (i : InodeInfo) : ExecPlan :=
  if execPermits uid gid i.fields then plan i else .bad

/-- `canRun` of `p5-test.c`; the ids of the process are what `getuid` and `getgid` return. -/
def canRun (uid gid : Int) (st : InodeFields) : Bool :=
  if uid = st.uid.toNat then
    if st.u_x = true then true else false
  else if gid = st.gid.toNat then
    if st.g_x = true then true else false
  else if st.o_x = true then true
  else false

/-- The comparison of `canRun` is that of `exec`, although its types are others. -/
theorem toInt_eq_toNat_iff {id : Uint} {w : BitVec 16} :
    id.toInt = w.toNat ↔ w.setWidth 32 = id := by
  have hw := w.isLt
  have hid := id.isLt
  rw [← BitVec.toNat_inj, BitVec.toNat_setWidth, BitVec.toInt_eq_toNat_cond]
  split_ifs <;> omega

/-- The file has a class that matches, its execute bit is not set, and that of a later class
    that matches too is. -/
def Leaks (uid gid : Uint) (st : InodeFields) : Prop :=
  (st.uid.setWidth 32 = uid ∧ st.u_x = false ∧
    ((st.gid.setWidth 32 = gid ∧ st.g_x = true) ∨ st.o_x = true)) ∨
  (st.uid.setWidth 32 ≠ uid ∧ st.gid.setWidth 32 = gid ∧ st.g_x = false ∧ st.o_x = true)

theorem execPermits_eq_canRun_iff (uid gid : Uint) (st : InodeFields) :
    execPermits uid gid st = canRun uid.toInt gid.toInt st ↔ ¬ Leaks uid gid st := by
  unfold execPermits canRun Leaks
  simp only [toInt_eq_toNat_iff]
  by_cases hu : st.uid.setWidth 32 = uid
  · cases st.u_x <;> cases st.g_x <;> cases st.o_x <;> simp [hu]
  · by_cases hg : st.gid.setWidth 32 = gid
    · cases st.u_x <;> cases st.g_x <;> cases st.o_x <;> simp [hu, hg]
    · cases st.o_x <;> simp [hu, hg]

/-- The owner has no execute permission, the others have: `exec` runs the file for its owner. -/
theorem execPermits_for_owner_without_u_x : execPermits 0 0 ⟨.file, 0, 0, 1, 0, 0, 0o001⟩ = true ∧
      canRun 0 0 ⟨.file, 0, 0, 1, 0, 0, 0o001⟩ = false := by
  decide

end Xv6Kernel
