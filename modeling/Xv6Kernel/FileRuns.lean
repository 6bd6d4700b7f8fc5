/-
  FileRuns.lean
  =============
  Open files and pipes in every interleaving of calls.

  The processes run the calls of `FsCall`, any number of them at the same time, one operation of
  the kernel after the other.  What they hold is in their records (`CallRecords`), and the
  invariant of `FileRefs` relates the records to the tables of the kernel.
-/
import Xv6Kernel.FileRefs
import Mathlib.Algebra.BigOperators.Ring.Finset

namespace Xv6Kernel

open AtomicProg PanicMonad Tally Function

/-! ### The system -/

/-- After boot: no file is open.  The disk and the inode cache may be anything. -/
structure Booted (k : Kernel) : Prop where
  files : ∀ f, (k.ftable f).ref = 0 ∧ (k.ftable f).type = .none
  fds : ∀ p fd, (k.procs p).ofile fd = none
  pipes : ∀ q w, (k.pipes q).isopen w = false ∧ (k.pipes q).allocs = 0 ∧
    (k.pipes q).closes w = 0 ∧ (k.pipes q).frees = 0
  procs : ∀ p, (k.procs p).use ≠ .embryo

/-- Processes that make calls of the file system. -/
def fsWorkers : Workers (Fin NPROC) KOp FsPanic Kernel CallRecord FsCall Int where
  sem := Kernel.sem
  init := Booted
  allowed k p _ := decide ((k.procs p).use = .live)
  prog p c := c.prog p
  blank := .blank
  opening := .opening
  note _ _ o k b r := o.effect b (o.cleared k) r

section

variable {k k' : Kernel} {R : Fin NPROC → FileRecord} {i : Fin NPROC} {f : Fin NFILE}

/-! ### One operation -/

/-- The operations that leave files, descriptors and pipes alone. -/
def KOp.offFiles {β : Type} (o : KOp β) : Bool :=
  match o with
  | .filealloc | .filedup _ | .fileput _ | .file _ | .setFile _ _ _ _ | .setPipe _ _ _ _
  | .pipeInit _ | .pipeclose _ _ | .fdalloc _ _ | .ofile _ _ | .clearFd _ _ | .allocproc _
  | .setproc _ _ _ | .freeproc _ => false
  | _ => true

/-- The operations that check a reference count. -/
def KOp.counting {β : Type} (o : KOp β) : Prop :=
  match o with
  | .filedup _ | .fileput _ => True
  | _ => False

section

variable {β : Type} {o : KOp β} {b : β} {r : CallRecord}

theorem KOp.effect_offFiles (ho : o.offFiles = true) (g : Option (Fin NFILE)) :
    (o.effect b g r).files = r.files := by
  cases o <;> first | rfl | cases ho
  change (if b then r.lock _ else r : CallRecord).files = _
  split <;> rfl

theorem KOp.expect_offFiles (ho : o.offFiles = true) (g : Option (Fin NFILE)) : o.expect r b g := by
  cases o <;> trivial

theorem FilesOk.offFiles (h : FilesOk k R) (ho : o.offFiles = true) :
    wp o.exec (fun _ k' => FilesOk k' R) (fun _ _ => True) k := by
  have hsame : ∀ {k' : Kernel}, k'.ftable = k.ftable → k'.procs = k.procs → k'.pipes = k.pipes →
      FilesOk k' R := fun hfile hprocs hpipes =>
    h.frame (fun g => ⟨(k.ftable g).off, by rw [hfile]⟩) (fun _ => by rw [hprocs])
      (fun _ => by rw [hprocs]) hpipes
  have hinode : ∀ {γ : Type} {ip : Fin NINODE} {x : Inode → FsM (γ × Inode)},
      wp (onInode ip x) (fun _ k' => FilesOk k' R) (fun _ _ => True) k :=
    onInode_wp (wp_of_forall (fun _ _ => hsame rfl rfl rfl) fun _ _ => trivial)
  cases o with
  | filealloc | filedup | fileput | file | setFile | setPipe | pipeInit | pipeclose | fdalloc
  | ofile | clearFd | allocproc | setproc | freeproc => cases ho
  | ifree ip | iupdate ip | readi ip off n | writei ip src off n =>
    unfold KOp.exec
    exact hinode
  | iallocTry => exact onFs_wp (wp_of_forall (fun _ _ => hsame rfl rfl rfl) fun _ _ => trivial)
  | panic => trivial
  | beginOp | idup | ilockWait | iputEnd | setFields => exact hsame rfl rfl rfl
  | ninodes | inode | cwd => exact h
  | setOff f off => exact h.setOff off
  | setCwd p ip =>
    change FilesOk (k.setProc p { k.procs p with cwd := ip }) R
    refine h.frame (fun g => ⟨_, rfl⟩) (fun j => ?_) (fun j => ?_) rfl
    · by_cases hj : j = p
      · rw [hj, k.setProc_self]
      · rw [k.setProc_of_ne hj]
    · by_cases hj : j = p
      · rw [hj, k.setProc_self]
      · rw [k.setProc_of_ne hj]
  | endOp =>
    change FilesOk (if k.outstanding = 1 then _ else _) R
    split
    · exact hsame rfl rfl rfl
    · exact hsame rfl rfl rfl
  | iget inum =>
    change wp (igetSem inum) _ _ k
    unfold igetSem
    simp only [wp_bind, wp_get]
    split
    · exact hsame rfl rfl rfl
    · split
      · exact hsame rfl rfl rfl
      · trivial
  | ilockCheck ip =>
    unfold KOp.exec
    simp only [wp_bind, wp_get]
    exact wp_ite (fun _ => trivial) fun _ => h
  | ilockLoad ip =>
    change wp (ilockLoadSem ip) _ _ k
    unfold ilockLoadSem
    simp only [wp_bind, wp_get]
    refine wp_ite (fun _ => ?_) fun _ => h
    exact wp_bind.mpr (wp_ite (fun _ => trivial) fun _ => hsame rfl rfl rfl)
  | iunlock ip =>
    change wp (iunlockSem ip) _ _ k
    unfold iunlockSem
    simp only [wp_bind, wp_get]
    exact wp_ite (fun _ => trivial) fun _ => hsame rfl rfl rfl
  | iputBegin ip =>
    change wp (iputBeginSem ip) _ _ k
    unfold iputBeginSem
    simp only [wp_bind, wp_get]
    refine wp_ite (fun _ => wp_ite (fun _ => trivial) fun _ => ?_) fun _ => ?_
    · exact hsame rfl rfl rfl
    · exact hsame rfl rfl rfl

end

theorem FilesOk.fileput (h : FilesOk k R) (hr : R i = r.files) (hcredit : 1 ≤ r.files.credit f) :
    wp (KOp.fileput f).exec (fun b k' => (KOp.fileput f).expect r b none ∧
        FilesOk k' (update R i (r.fileput f b).files))
      (fun _ _ => ¬ (KOp.fileput f).counting) k := by
  rw [← hr] at hcredit
  have hpos := h.ref_pos (h.share_pos hcredit)
  change wp (fileputSem f) _ _ k
  unfold fileputSem
  simp only [wp_bind, wp_get]
  refine wp_ite (fun hlt => by omega) fun _ => wp_ite (fun hlt => ?_) fun hle => ?_
  · refine ⟨fun _ _ hff => (by cases hff), ?_⟩
    change FilesOk _ (update R i { r.files.add f (-1) with fresh := r.files.fresh.erase f })
    rw [← hr]
    exact h.fileputShared hcredit hlt
  · have hone : (k.ftable f).ref = 1 := by omega
    refine ⟨fun hfresh ff hff => ?_, ?_⟩
    · rw [← hr] at hfresh
      rw [← Option.some.inj hff]
      exact (h.slots.fresh i f hfresh).1
    · have hlast := h.fileputLast hcredit hone rfl
      change FilesOk _ (update R i (if (k.ftable f).type = .pipe then _ else _ : FileRecord))
      unfold FileSlot.pipeEnd at hlast
      by_cases hpipe : (k.ftable f).type = .pipe
      · rw [if_pos hpipe] at hlast ⊢
        rw [← hr]
        exact hlast
      · rw [if_neg hpipe] at hlast ⊢
        rw [← hr]
        exact hlast

/-- Each operation that a call may execute keeps the invariant, and does not panic if it checks a
    reference count. -/
theorem FilesOk.exec {o : KOp β} {r : CallRecord} (h : FilesOk k R) (hr : R i = r.files)
    (hmay : o.may i r) (hen : o.enabled k = true) :
    wp o.exec (fun b k' => o.expect r b (o.cleared k) ∧
        FilesOk k' (update R i (o.effect b (o.cleared k) r).files))
      (fun _ _ => ¬ o.counting) k := by
  by_cases ho : o.offFiles = true
  · refine wp_mono (h.offFiles ho) (fun b k' hk' => ⟨o.expect_offFiles ho _, ?_⟩) fun _ _ _ => ?_
    · rw [o.effect_offFiles ho, ← hr, update_eq_self]
      exact hk'
    · cases o <;> first | exact id | cases ho
  · cases o with
    | filealloc =>
      unfold KOp.exec
      simp only [wp_bind, wp_get]
      split
      · rename_i f hf
        refine ⟨trivial, ?_⟩
        have hfree : (k.ftable f).ref = 0 := by simpa using List.find?_some hf
        change FilesOk _ (update R i { r.files.add f 1 with fresh := f :: r.files.fresh })
        rw [← hr]
        exact h.filealloc hfree
      · refine ⟨trivial, ?_⟩
        change FilesOk _ (update R i r.files)
        rw [← hr, update_eq_self]
        exact h
    | filedup f =>
      obtain ⟨hcredit, hnew⟩ := hmay
      rw [← hr] at hcredit hnew
      have hpos := h.ref_pos (h.share_pos hcredit)
      unfold KOp.exec
      simp only [wp_bind, wp_get]
      refine wp_ite (fun hlt => by omega) fun _ => ⟨trivial, ?_⟩
      change FilesOk _ (update R i (r.files.add f 1))
      rw [← hr]
      exact h.filedup hcredit hnew
    | fileput f =>
      exact h.fileput hr hmay
    | file f =>
      change 1 ≤ r.files.credit f at hmay
      rw [← hr] at hmay
      refine ⟨fun ip hs => ?_, ?_⟩
      · rw [← hr] at hs
        exact (h.slots.seen i f ip hs).1
      · change FilesOk k (update R i { r.files with seen := some (f, (k.ftable f).ip) })
        rw [← hr]
        exact h.file hmay
    | setFile f ip readable writable =>
      change f ∈ r.files.fresh at hmay
      rw [← hr] at hmay
      refine ⟨trivial, ?_⟩
      change FilesOk _ (update R i { r.files with fresh := r.files.fresh.erase f, seen := none })
      rw [← hr]
      exact h.setFile hmay rfl rfl
    | setPipe f page readable writable =>
      obtain ⟨hf, hend⟩ := hmay
      rw [← hr] at hf hend
      refine ⟨trivial, ?_⟩
      change FilesOk _ (update R i { r.files with
        fresh := r.files.fresh.erase f, ends := r.files.ends.erase (page, writable)
        seen := none })
      rw [← hr]
      exact h.setPipe hf (c := { k.ftable f with
        type := .pipe, pipe := page, readable := readable, writable := writable }) rfl rfl hend
    | pipeInit page =>
      refine ⟨trivial, ?_⟩
      change FilesOk _ (update R i
        { r.files with ends := (page, false) :: (page, true) :: r.files.ends })
      rw [← hr]
      exact h.pipeInit (of_decide_eq_true hen)
    | pipeclose page writable =>
      change (page, writable) ∈ r.files.ends at hmay
      rw [← hr] at hmay
      refine ⟨trivial, ?_⟩
      change FilesOk _ (update R i { r.files with ends := r.files.ends.erase (page, writable) })
      rw [← hr]
      exact h.pipeclose hmay
    | fdalloc q f =>
      obtain ⟨rfl, hlive, -⟩ := hmay
      rw [← hr] at hlive
      change wp (fdallocSem q f) _ _ k
      unfold fdallocSem
      simp only [wp_bind, wp_get]
      split
      · rename_i fd hfd
        have hnone : (k.procs q).ofile fd = none := by simpa using List.find?_some hfd
        refine ⟨fun fd' hfd' v hv => ?_, ?_⟩
        · cases hfd'
          rw [← hr] at hv
          exact (h.procs.known q fd v hv).symm.trans hnone
        · change FilesOk _ (update R q ((r.files.learn fd (some f)).add f (-1)))
          rw [← hr]
          exact h.fdalloc hlive hnone
      · refine ⟨fun _ hfd => (by cases hfd), ?_⟩
        change FilesOk _ (update R q r.files)
        rw [← hr, update_eq_self]
        exact h
    | ofile q fd =>
      obtain ⟨rfl, hlive⟩ := hmay
      rw [← hr] at hlive
      refine ⟨trivial, ?_⟩
      change FilesOk k (update R q (r.files.learn fd ((k.procs q).ofile fd)))
      rw [← hr]
      exact h.ofile hlive fd
    | clearFd q fd =>
      obtain ⟨rfl, hlive⟩ := hmay
      rw [← hr] at hlive
      refine ⟨fun v hv => ?_, ?_⟩
      · rw [← hr] at hv
        exact (h.procs.known q fd v hv).symm
      · change FilesOk _ (update R q (r.clearFd fd ((k.procs q).ofile fd)).files)
        cases hfd : (k.procs q).ofile fd with
        | none =>
          change FilesOk _ (update R q (r.files.learn fd none))
          rw [← hr]
          exact h.clearFd_none hlive hfd
        | some f =>
          change FilesOk _ (update R q ((r.files.learn fd none).add f 1))
          rw [← hr]
          exact h.clearFd hlive hfd
    | allocproc np =>
      refine ⟨trivial, ?_⟩
      change FilesOk _ (update R i { r.files with child := some np })
      rw [← hr]
      exact h.allocproc (of_decide_eq_true hen)
    | setproc np dir files =>
      obtain ⟨hchild, hlive, hfresh, hheld⟩ := hmay
      rw [← hr] at hchild hlive hfresh
      refine ⟨trivial, ?_⟩
      change FilesOk _ (update R i (r.files.giveAll files))
      rw [← hr] at hheld ⊢
      exact h.setproc hlive hchild hfresh hheld
    | freeproc q =>
      obtain ⟨hlive, hwho⟩ := hmay
      rw [← hr] at hlive
      refine ⟨trivial, ?_⟩
      change FilesOk _ (update R i (if r.files.child = some q then _ else _ : CallRecord).files)
      by_cases hchild : r.files.child = some q
      · rw [if_pos hchild]
        change FilesOk _ (update R i { r.files with child := none })
        rw [← hr] at hchild ⊢
        exact h.freeChild hlive hchild
      · obtain ⟨rfl, hdone, hknown⟩ := hwho.resolve_left hchild
        rw [if_neg hchild]
        change FilesOk _ (update R q { r.files with known := fun _ => none, live := false })
        have hnone := hdone.child
        rw [← hr] at hnone hknown ⊢
        exact h.freeSelf hlive hnone hknown
    | _ => exact absurd rfl ho

end

/-! ### All runs -/

theorem Booted.filesOk (h : Booted k) : FilesOk k fun _ => .blank := by
  have hshare : ∀ j f, share k (fun _ => .blank) j f = 0 := fun j f => by
    have hnone : tally (k.procs j).ofile (some f) = 0 := tally_eq_zero.mpr fun fd hfd => by
      rw [h.fds j fd] at hfd
      cases hfd
    unfold share
    rw [hnone]
    rfl
  refine ⟨⟨fun f => ?_, fun j f => (hshare j f).ge⟩, ⟨fun f _ => (h.files f).2, nofun,
    fun _ => List.nodup_nil, nofun⟩, ⟨nofun, fun _ _ _ => rfl, nofun, fun j _ => h.fds j, nofun,
    nofun⟩, fun q w => ?_, fun q w => ?_, fun q => ?_⟩
  · simp only [hshare, (h.files f).1, Finset.sum_const_zero]
    rfl
  · obtain ⟨hshut, -⟩ := h.pipes q w
    have hnone : tally (fun f => (k.ftable f).pipeEnd) (some (q, w)) = 0 :=
      tally_eq_zero.mpr fun f hf => by
        rw [FileSlot.pipeEnd_of_type (by simp [(h.files f).2])] at hf
        cases hf
    unfold endCount
    rw [hshut, hnone]
    simp [FileRecord.blank]
  · obtain ⟨hshut, hallocs, hcloses, -⟩ := h.pipes q w
    rw [hshut, hallocs, hcloses]
    rfl
  · obtain ⟨hshut, hallocs, -, hfrees⟩ := h.pipes q false
    rw [hshut, (h.pipes q true).1, hallocs, hfrees]
    rfl

/-- A call holds references to the files that it has worked on only. -/
def CallRecord.Touched (r : CallRecord) : Prop := ∀ f, r.files.held f ≠ 0 → f ∈ r.touched

section

variable {r : CallRecord}

theorem CallRecord.Touched.onFile {files : FileRecord} (h : r.Touched)
    (hheld : ∀ g, g ≠ f → files.held g = r.files.held g) : (r.onFile f files).Touched := by
  intro g hg
  by_cases hgf : g = f
  · rw [hgf]
    exact List.mem_cons_self
  · change files.held g ≠ 0 at hg
    rw [hheld g hgf] at hg
    exact List.mem_cons_of_mem _ (h g hg)

theorem CallRecord.Touched.add {n : Int} {files : FileRecord} (h : r.Touched)
    (hheld : files.held = (r.files.add f n).held) : (r.onFile f files).Touched :=
  h.onFile fun g hg => by
    rw [hheld]
    exact update_of_ne hg ..

theorem CallRecord.Touched.effect {β : Type} {o : KOp β} (h : r.Touched)
    (hmay : o.may i r) (b : β) (g : Option (Fin NFILE)) : (o.effect b g r).Touched := by
  cases o with
  | filealloc =>
    cases b with
    | none => exact h
    | some f => exact h.add rfl
  | filedup f => exact h.add rfl
  | fileput f =>
    cases b with
    | none => exact h.add rfl
    | some ff =>
      refine h.add (n := -1) ?_
      split <;> rfl
  | setFile f | setPipe f => exact h.onFile fun _ _ => rfl
  | fdalloc q f =>
    cases b with
    | none => exact h
    | some fd => exact h.add rfl
  | clearFd q fd =>
    cases g with
    | none => exact h
    | some f => exact h.add rfl
  | setproc np dir files =>
    intro f hf
    obtain ⟨-, -, -, hheld⟩ := hmay
    refine h f fun hzero => hf ?_
    have hle := hheld f
    change r.files.held f - tally files (some f) = 0
    omega
  | freeproc q =>
    change (if r.files.child = some q then _ else _ : CallRecord).Touched
    split
    · exact h
    · exact h
  | iputBegin ip =>
    change (if b then r.lock ip else r : CallRecord).Touched
    split
    · exact h
    · exact h
  | _ => exact h

end

theorem files_update (r : Fin NPROC → CallRecord) (i : Fin NPROC) (l : CallRecord) :
    (fun j => (update r i l j).files) = update (fun j => (r j).files) i l.files := comp_update ..

theorem touched_update {i : Fin NPROC} {l : CallRecord}
    (h : ∀ j, (r j).Touched) (hl : l.Touched) (j : Fin NPROC) :
    (update r i l j).Touched := by
  by_cases hj : j = i
  · rw [hj, update_self]
    exact hl
  · rw [update_of_ne hj]
    exact h j

/-- The invariant holds in every interleaving of calls. -/
theorem fsWorkers_keeps : fsWorkers.Keeps callDiscipline
    (fun k r => FilesOk k (fun i => (r i).files) ∧ ∀ i, (r i).Touched) (fun _ r => r.Settled)
    (fun o => o.counting) where
  init _ h := ⟨h.filesOk, fun _ _ hf => absurd rfl hf⟩
  start k r i c h hblank hallowed := by
    refine ⟨⟨?_, touched_update h.2 fun _ hf => absurd rfl hf⟩, keepsDiscipline i c⟩
    rw [files_update]
    exact h.1.start (by rw [hblank]; rfl) (of_decide_eq_true hallowed)
  step k r i β o h hmay hen := by
    refine wp_mono (h.1.exec rfl hmay hen)
      (fun b k' hk' => ⟨⟨_, rfl, hk'.1⟩, ?_, touched_update h.2 ((h.2 i).effect hmay b _)⟩)
      fun _ _ => id
    rw [files_update]
    exact hk'.2
  finish k r i h hdone := by
    refine ⟨?_, touched_update h.2 fun _ hf => absurd rfl hf⟩
    rw [files_update]
    exact h.1.finish hdone.held hdone.fresh hdone.ends hdone.child

/-! ### References and pipes -/

/-- The number of pairs of a process and a descriptor that refers to a file. -/
def Kernel.descriptors (k : Kernel) (f : Fin NFILE) : Nat :=
  tally (fun x : Fin NPROC × Fin NOFILE => (k.procs x.1).ofile x.2) (some f)

/-- A file is an end of the pipe in a page. -/
def Kernel.IsEnd (k : Kernel) (f : Fin NFILE) (page : Nat) (writable : Bool) : Prop :=
  (k.ftable f).type = .pipe ∧ (k.ftable f).pipe = page ∧ (k.ftable f).writable = writable

variable {page : Nat}

theorem Kernel.isEnd_iff {k : Kernel} {f : Fin NFILE} :
    k.IsEnd f page writable ↔ (k.ftable f).pipeEnd = some (page, writable) := by
  unfold Kernel.IsEnd FileSlot.pipeEnd
  split
  · rename_i htype
    simp [htype]
  · rename_i htype
    simp [htype]

abbrev FsPool := Pool (Fin NPROC) KOp Kernel CallRecord Int

section

variable {p : FsPool} (h : fsWorkers.system.Reachable p)

include h

theorem ref_eq_descriptors (hf : ∀ i, f ∉ (p.record i).touched) :
    (p.state.ftable f).ref = p.state.descriptors f := by
  obtain ⟨⟨hfiles, htouched⟩, -⟩ := fsWorkers_keeps.sound h
  have hrefs := hfiles.refs.refs f
  have hshare : ∀ i, share p.state (fun i => (p.record i).files) i f =
      (tally (p.state.procs i).ofile (some f) : Int) := fun i => by
    have hheld : (p.record i).files.held f = 0 := by
      by_contra hne
      exact hf i (htouched i f hne)
    unfold share
    rw [hheld, Int.add_zero]
  simp only [hshare] at hrefs
  unfold Kernel.descriptors
  rw [tally_prod fun i fd => (p.state.procs i).ofile fd]
  refine Int.natCast_inj.mp ?_
  rw [hrefs, Nat.cast_sum]

/-- While a file is an end of the pipe, the end is open. -/
theorem isopen_of_isEnd {f : Fin NFILE} (hf : p.state.IsEnd f page writable) :
    (p.state.pipes page).isopen writable = true := by
  obtain ⟨⟨hfiles, -⟩, -⟩ := fsWorkers_keeps.sound h
  have hpos : 0 < tally (fun f => (p.state.ftable f).pipeEnd) (some (page, writable)) :=
    tally_pos.mpr ⟨f, Kernel.isEnd_iff.mp hf⟩
  have hends := hfiles.pipes.ends page writable
  unfold endCount at hends
  by_contra hshut
  rw [if_neg hshut] at hends
  omega

/-- A call that has an end of a pipe is the only one, and no file has it. -/
theorem not_isEnd_of_mem {i : Fin NPROC} (hi : (page, writable) ∈ (p.record i).files.ends) :
    (p.state.pipes page).isopen writable = true ∧ ∀ f, ¬ p.state.IsEnd f page writable := by
  obtain ⟨⟨hfiles, -⟩, -⟩ := fsWorkers_keeps.sound h
  have hends := hfiles.pipes.ends page writable
  have hone : 1 ≤ ∑ j, (p.record j).files.ends.count (page, writable) :=
    (List.count_pos_iff.mpr hi).trans_le
      (Finset.single_le_sum (f := fun j => (p.record j).files.ends.count (page, writable))
        (fun _ _ => Nat.zero_le _) (Finset.mem_univ i))
  unfold endCount at hends
  dsimp only at hends
  have hopen : (p.state.pipes page).isopen writable = true := by
    by_contra hshut
    rw [if_neg hshut] at hends
    omega
  refine ⟨hopen, fun f hf => ?_⟩
  have hpos : 0 < tally (fun f => (p.state.ftable f).pipeEnd) (some (page, writable)) :=
    tally_pos.mpr ⟨f, Kernel.isEnd_iff.mp hf⟩
  rw [if_pos hopen] at hends
  omega

/-- An open end is with a call or with a file. -/
theorem exists_isEnd (hopen : (p.state.pipes page).isopen writable = true)
    (hcalls : ∀ i, (page, writable) ∉ (p.record i).files.ends) :
    ∃ f, p.state.IsEnd f page writable := by
  obtain ⟨⟨hfiles, -⟩, -⟩ := fsWorkers_keeps.sound h
  have hends := hfiles.pipes.ends page writable
  have hnone : ∑ j, (p.record j).files.ends.count (page, writable) = 0 :=
    Finset.sum_eq_zero fun j _ => List.count_eq_zero.mpr (hcalls j)
  unfold endCount at hends
  rw [if_pos hopen, hnone, Nat.add_zero] at hends
  obtain ⟨f, hf⟩ := tally_pos.mp (Nat.lt_of_lt_of_eq Nat.one_pos hends)
  exact ⟨f, Kernel.isEnd_iff.mpr hf⟩

theorem wp_of_thread (hi : p.thread i = some q) :
    callDiscipline.wp i q (fun _ r => r.Settled) (p.record i) := by
  have hfits := (fsWorkers_keeps.sound h).2 i
  unfold Workers.Fits at hfits
  rw [hi] at hfits
  exact hfits

end

/-- The life of the pipes in a page. -/
structure PipeLife (p : FsPool) (page : Nat) : Prop where
  /-- Each pipe has had one call of `pipeclose` for each end, or none while the end is open. -/
  closes : ∀ w, (p.state.pipes page).closes w + (if (p.state.pipes page).isopen w then 1 else 0) =
    (p.state.pipes page).allocs
  /-- It has had one call of `kfree`, or none while an end is open. -/
  frees : (p.state.pipes page).frees +
    (if (p.state.pipes page).isopen false ∨ (p.state.pipes page).isopen true then 1 else 0) =
      (p.state.pipes page).allocs
  /-- `pipeclose` is called when no descriptor refers to the end. -/
  last : ∀ i w rest, p.thread i = some (.op (.pipeclose page w) rest) →
    (p.state.pipes page).isopen w = true ∧
      ∀ j fd f, (p.state.procs j).ofile fd = some f → ¬ p.state.IsEnd f page w
  /-- No descriptor refers to an end that is closed. -/
  gone : ∀ w, (p.state.pipes page).isopen w = false →
    ∀ j fd f, (p.state.procs j).ofile fd = some f → ¬ p.state.IsEnd f page w
  /-- An end to which no descriptor refers is closed, unless a call in progress has it. -/
  closed : ∀ w, (∀ f, p.state.IsEnd f page w → ∀ i, f ∉ (p.record i).touched) →
    (∀ i, (page, w) ∉ (p.record i).files.ends) →
    (∀ j fd f, (p.state.procs j).ofile fd = some f → ¬ p.state.IsEnd f page w) →
    (p.state.pipes page).isopen w = false

/-- Reference counts and pipes in every interleaving of calls. -/
theorem open_files {p : FsPool} (h : fsWorkers.system.Reachable p) :
    (∀ f, (∀ i, f ∉ (p.record i).touched) → (p.state.ftable f).ref = p.state.descriptors f) ∧
    (∀ f, (p.state.ftable f).ref = 0 → (p.state.ftable f).type = .none) ∧
    (∀ f, ¬ fsWorkers.Panics p (.filedup f) ∧ ¬ fsWorkers.Panics p (.fileput f)) ∧
    ∀ page, PipeLife p page := by
  obtain ⟨⟨hfiles, -⟩, -⟩ := fsWorkers_keeps.sound h
  refine ⟨fun f hf => ref_eq_descriptors h hf, hfiles.slots.idle, fun f => ⟨?_, ?_⟩, fun page =>
    ⟨hfiles.pipes.closes page, hfiles.pipes.frees page, fun i w rest hi => ?_,
      fun w hshut j fd f hfd hend => ?_, fun w hidle hcalls hfds => ?_⟩⟩
  · exact fsWorkers_keeps.not_panics h trivial
  · exact fsWorkers_keeps.not_panics h trivial
  · obtain ⟨hopen, hnot⟩ := not_isEnd_of_mem h (wp_of_thread h hi).1
    exact ⟨hopen, fun _ _ f _ => hnot f⟩
  · rw [isopen_of_isEnd h hend] at hshut
    cases hshut
  · by_contra hopen
    obtain ⟨f, hend⟩ := exists_isEnd h (Bool.eq_true_of_not_eq_false hopen) hcalls
    have hnone : p.state.descriptors f = 0 := tally_eq_zero.mpr fun x hx => hfds x.1 x.2 f hx hend
    have hfree := hfiles.slots.idle f ((ref_eq_descriptors h (hidle f hend)).trans hnone)
    rw [hend.1] at hfree
    cases hfree

/-- A machine after boot. -/
def bootPool : FsPool where
  state :=
    { fs := ⟨⟨0, 0, 0, 0⟩, fun _ => none, fun _ => none, fun _ => 0, none, []⟩
      outstanding := 0
      icache := fun _ => ⟨0, false, false, ⟨0, .free, 0, 0, 0, 0, 0, 0, 0, fun _ => 0⟩⟩
      ftable := fun _ => ⟨.none, 0, false, false, 0, 0, 0⟩
      procs := fun _ => ⟨.live, none, fun _ => none⟩
      pipes := fun _ => ⟨fun _ => false, 0, fun _ => 0, 0⟩ }
  thread _ := none
  record _ := .blank

theorem bootPool_init : fsWorkers.system.init bootPool :=
  ⟨⟨fun _ => ⟨rfl, rfl⟩, fun _ _ => rfl, fun _ _ => ⟨rfl, rfl, rfl, rfl⟩, nofun⟩, fun _ => rfl,
    fun _ => rfl⟩

/-- A process makes a pipe and has two descriptors. -/
theorem open_files_pipe : ∃ p, fsWorkers.system.Reachable p ∧
    (p.state.procs 0).ofile 1 = some 1 ∧ p.state.IsEnd 1 7 true ∧
    (p.state.ftable 1).ref = p.state.descriptors 1 ∧
    (p.state.pipes 7).isopen true = true ∧ PipeLife p 7 := by
  obtain ⟨p, ev, hrun, hfd, hend, hidle, hopen⟩ : ∃ p ev, fsWorkers.system.run bootPool
      (.start 0 (.pipe (some 7)) :: List.replicate 7 (.step 0) ++ [.finish 0]) = some (p, ev) ∧
      (p.state.procs 0).ofile 1 = some 1 ∧ p.state.IsEnd 1 7 true ∧
      (∀ i, 1 ∉ (p.record i).touched) ∧ (p.state.pipes 7).isopen true = true :=
    ⟨_, _, rfl, rfl, ⟨rfl, rfl, rfl⟩, by decide, rfl⟩
  have hp := TransitionSystem.Reachable.run (.init bootPool_init) hrun
  have hok := open_files hp
  exact ⟨p, hp, hfd, hend, hok.1 1 hidle, hopen, hok.2.2.2 7⟩

end Xv6Kernel
