/-
  FileRefs.lean
  =============
  The references to open files, and the ends of pipes.

  The reference count of a file is the number of descriptors that refer to it plus what the
  calls in progress hold (`RefsOk`); a file is new for at most one call (`SlotsOk`); a process
  alone changes its descriptors (`ProcsOk`); and each open end of a pipe is in one file, or in
  the hands of one call (`PipesOk`).  Each operation on files keeps this.
-/
import Xv6Kernel.CallRecords
import Mathlib.Algebra.Order.BigOperators.Group.Finset

namespace Xv6Kernel

open Tally Function List Finset

/-- The end of a pipe that a file is. -/
def FileSlot.pipeEnd (c : FileSlot) : Option (Nat × Bool) :=
  if c.type = .pipe then some (c.pipe, c.writable) else none

/-! ### The invariant -/

/-- The references to a file by a process's descriptors and by its call in progress. -/
def share (k : Kernel) (R : Fin NPROC → FileRecord) (i : Fin NPROC) (f : Fin NFILE) : Int :=
  tally (k.procs i).ofile (some f) + (R i).held f

structure RefsOk (k : Kernel) (R : Fin NPROC → FileRecord) : Prop where
  refs : ∀ f, ((k.ftable f).ref : Int) = ∑ i, share k R i f
  backed : ∀ i f, 0 ≤ share k R i f

structure SlotsOk (k : Kernel) (R : Fin NPROC → FileRecord) : Prop where
  idle : ∀ f, (k.ftable f).ref = 0 → (k.ftable f).type = .none
  fresh : ∀ i, ∀ f ∈ (R i).fresh,
    (k.ftable f).type = .none ∧ (k.ftable f).ref = 1 ∧ 1 ≤ share k R i f
  nodup : ∀ i, (R i).fresh.Nodup
  seen : ∀ i f ip, (R i).seen = some (f, ip) → (k.ftable f).ip = ip ∧ 1 ≤ share k R i f

structure ProcsOk (k : Kernel) (R : Fin NPROC → FileRecord) : Prop where
  known : ∀ i fd v, (R i).known fd = some v → (k.procs i).ofile fd = v
  quiet : ∀ i, (R i).live = false → ∀ fd, (R i).known fd = none
  live : ∀ i, (R i).live = true → (k.procs i).use = .live
  dead : ∀ i, (k.procs i).use ≠ .live → ∀ fd, (k.procs i).ofile fd = none
  child : ∀ i np, (R i).child = some np → (k.procs np).use = .embryo
  unique : ∀ i j np, (R i).child = some np → (R j).child = some np → i = j

/-- How many ends of pipes there are of a kind, with files and in calls in progress. -/
def endCount (k : Kernel) (R : Fin NPROC → FileRecord) (e : Nat × Bool) : Nat :=
  tally (fun f => (k.ftable f).pipeEnd) (some e) + ∑ i, (R i).ends.count e

structure PipesOk (k : Kernel) (R : Fin NPROC → FileRecord) : Prop where
  ends : ∀ q w, (if (k.pipes q).isopen w then 1 else 0) = endCount k R (q, w)
  closes : ∀ q w, (k.pipes q).closes w + (if (k.pipes q).isopen w then 1 else 0) =
    (k.pipes q).allocs
  frees : ∀ q, (k.pipes q).frees +
    (if (k.pipes q).isopen false ∨ (k.pipes q).isopen true then 1 else 0) = (k.pipes q).allocs

structure FilesOk (k : Kernel) (R : Fin NPROC → FileRecord) : Prop where
  refs : RefsOk k R
  slots : SlotsOk k R
  procs : ProcsOk k R
  pipes : PipesOk k R

section

variable {k : Kernel} {R : Fin NPROC → FileRecord} {i : Fin NPROC} {f : Fin NFILE}

/-! ### What references imply -/

theorem RefsOk.share_le (h : RefsOk k R) (i : Fin NPROC) (f : Fin NFILE) :
    share k R i f ≤ (k.ftable f).ref := by
  rw [h.refs f]
  exact single_le_sum (f := fun i => share k R i f) (fun j _ => h.backed j f) (mem_univ i)

variable {c : FileSlot} {j : Fin NPROC} {fd : Fin NOFILE}

/-- Two processes with references to one file. -/
theorem RefsOk.share_add_le (h : RefsOk k R) (hne : i ≠ j) (f : Fin NFILE) :
    share k R i f + share k R j f ≤ (k.ftable f).ref := by
  rw [h.refs f, ← add_sum_erase _ _ (mem_univ i)]
  have hj : j ∈ univ.erase i := mem_erase.mpr ⟨hne.symm, mem_univ j⟩
  have hle := single_le_sum (f := fun i => share k R i f) (fun j _ => h.backed j f) hj
  omega

theorem ProcsOk.credit_le (h : ProcsOk k R) (i : Fin NPROC) (f : Fin NFILE) :
    (R i).credit f ≤ share k R i f := by
  have hle : tally (R i).known (some (some f)) ≤ tally (k.procs i).ofile (some f) := by
    refine card_le_card fun fd hfd => ?_
    have hknown := (Finset.mem_filter.mp hfd).2
    exact mem_filter.mpr ⟨mem_univ fd, h.known i fd _ hknown⟩
  unfold FileRecord.credit share
  omega

/-- Only the process that has allocated a file uses it while it is new. -/
theorem FilesOk.notMem_fresh (h : FilesOk k R) (hshare : 1 ≤ share k R i f) (hne : j ≠ i) :
    f ∉ (R j).fresh := by
  intro hmem
  obtain ⟨-, hone, hj⟩ := h.slots.fresh j f hmem
  have hle := h.refs.share_add_le hne f
  omega

/-! ### Changes of one process -/

theorem share_update_of_ne (hj : j ≠ i) (ho : (k'.procs j).ofile = (k.procs j).ofile)
    (f : Fin NFILE) : share k' (update R i l) j f = share k R j f := by
  unfold share
  rw [update_of_ne hj, ho]

theorem share_update_self (f : Fin NFILE) :
    share k' (update R i l) i f = tally (k'.procs i).ofile (some f) + l.held f := by
  unfold share
  rw [update_self]

/-- A field of the records that the change leaves alone. -/
theorem update_same (g : FileRecord → γ) (h : g l = g (R i)) (j : Fin NPROC) :
    g (update R i l j) = g (R j) := by
  by_cases hj : j = i
  · rw [hj, update_self, h]
  · rw [update_of_ne hj]

theorem sum_changed {g g' : Fin NPROC → Int} (h : ∀ j, j ≠ i → g' j = g j) :
    ∑ j, g' j = ∑ j, g j - g i + g' i := by
  have hrest : ∑ j ∈ univ.erase i, g' j = ∑ j ∈ univ.erase i, g j :=
    sum_congr rfl fun j hj => h j (ne_of_mem_erase hj)
  rw [← add_sum_erase _ g' (mem_univ i), ← add_sum_erase _ g (mem_univ i), hrest]
  omega

/-- The share of one process changes with the reference counts. -/
theorem RefsOk.change (h : RefsOk k R)
    (hother : ∀ j, j ≠ i → (k'.procs j).ofile = (k.procs j).ofile)
    (href : ∀ f, ((k'.ftable f).ref : Int) - (k.ftable f).ref =
      share k' (update R i l) i f - share k R i f)
    (hback : ∀ f, 0 ≤ share k' (update R i l) i f) :
    RefsOk k' (update R i l) := by
  refine ⟨fun f => ?_, fun j f => ?_⟩
  · rw [sum_changed (i := i) fun j hj => share_update_of_ne hj (hother j hj) f, ← h.refs f]
    have := href f
    omega
  · by_cases hj : j = i
    · rw [hj]
      exact hback f
    · rw [share_update_of_ne hj (hother j hj)]
      exact h.backed j f

/-- One file and one process change. -/
theorem SlotsOk.change (h : SlotsOk k R) (hslot : k'.ftable = update k.ftable f c)
    (hofile : ∀ j, j ≠ i → (k'.procs j).ofile = (k.procs j).ofile)
    (hidle : c.ref = 0 → c.type = .none)
    (hfresh : ∀ j, j ≠ i → f ∈ (R j).fresh → c.type = .none ∧ c.ref = 1)
    (hseen : ∀ j, j ≠ i → ∀ ip, (R j).seen = some (f, ip) → c.ip = ip)
    (hself : ∀ g ∈ l.fresh, (k'.ftable g).type = .none ∧ (k'.ftable g).ref = 1 ∧
      1 ≤ share k' (update R i l) i g) (hnodup : l.fresh.Nodup)
    (hlook : ∀ g ip, l.seen = some (g, ip) → (k'.ftable g).ip = ip ∧
      1 ≤ share k' (update R i l) i g) : SlotsOk k' (update R i l) := by
  have hat : k'.ftable f = c := by rw [hslot, update_self]
  have hoff : ∀ g, g ≠ f → k'.ftable g = k.ftable g := fun g hg => by
    rw [hslot, update_of_ne hg]
  refine ⟨fun g hg => ?_, fun j g hg => ?_, fun j => ?_, fun j g ip hg => ?_⟩
  · by_cases hgf : g = f
    · rw [hgf, hat] at hg ⊢
      exact hidle hg
    · rw [hoff g hgf] at hg ⊢
      exact h.idle g hg
  · by_cases hj : j = i
    · rw [hj, update_self] at hg
      rw [hj]
      exact hself g hg
    · rw [update_of_ne hj] at hg
      rw [share_update_of_ne hj (hofile j hj)]
      obtain ⟨htype, href, hshare⟩ := h.fresh j g hg
      by_cases hgf : g = f
      · rw [hgf] at hg hshare ⊢
        rw [hat]
        obtain ⟨htype, href⟩ := hfresh j hj hg
        exact ⟨htype, href, hshare⟩
      · rw [hoff g hgf]
        exact ⟨htype, href, hshare⟩
  · by_cases hj : j = i
    · rw [hj, update_self]
      exact hnodup
    · rw [update_of_ne hj]
      exact h.nodup j
  · by_cases hj : j = i
    · rw [hj, update_self] at hg
      rw [hj]
      exact hlook g ip hg
    · rw [update_of_ne hj] at hg
      rw [share_update_of_ne hj (hofile j hj)]
      obtain ⟨hip, hshare⟩ := h.seen j g ip hg
      by_cases hgf : g = f
      · rw [hgf] at hg hshare ⊢
        rw [hat]
        exact ⟨hseen j hj ip hg, hshare⟩
      · rw [hoff g hgf]
        exact ⟨hip, hshare⟩

/-- The process table and what the calls know of it stay. -/
theorem ProcsOk.congr (h : ProcsOk k R) (hofile : ∀ j, (k'.procs j).ofile = (k.procs j).ofile)
    (huse : ∀ j, (k'.procs j).use = (k.procs j).use) (hknown : l.known = (R i).known)
    (hlive : l.live = (R i).live) (hchild : l.child = (R i).child) :
    ProcsOk k' (update R i l) := by
  have hk := update_same FileRecord.known hknown
  have hl := update_same FileRecord.live hlive
  have hc := update_same FileRecord.child hchild
  refine ⟨fun j => ?_, fun j => ?_, fun j => ?_, fun j => ?_, fun j np => ?_, fun j j' np => ?_⟩
  · rw [hk, hofile]
    exact h.known j
  · rw [hl, hk]
    exact h.quiet j
  · rw [hl, huse]
    exact h.live j
  · rw [huse, hofile]
    exact h.dead j
  · rw [hc, huse]
    exact h.child j np
  · rw [hc, hc]
    exact h.unique j j' np

theorem PipesOk.congr (h : PipesOk k R)
    (hends : ∀ e, endCount k' R' e = endCount k R e) (hpipes : k'.pipes = k.pipes) :
    PipesOk k' R' := by
  refine ⟨fun q w => ?_, fun q w => ?_, fun q => ?_⟩
  · rw [hpipes, hends]
    exact h.ends q w
  · rw [hpipes]
    exact h.closes q w
  · rw [hpipes]
    exact h.frees q

theorem sum_ends_update (R : Fin NPROC → FileRecord) (i : Fin NPROC) (l : FileRecord)
    (e : Nat × Bool) : ∑ j, (update R i l j).ends.count e + (R i).ends.count e =
      ∑ j, (R j).ends.count e + l.ends.count e := by
  have hrest : ∑ j ∈ univ.erase i, (update R i l j).ends.count e =
      ∑ j ∈ univ.erase i, (R j).ends.count e :=
    sum_congr rfl fun j hj => by rw [update_of_ne (ne_of_mem_erase hj)]
  rw [← add_sum_erase _ _ (mem_univ i),
    ← add_sum_erase _ (fun j => (R j).ends.count e) (mem_univ i), hrest,
    update_self]
  omega

/-- The ends of pipes when one file and one process change. -/
theorem endCount_update (hslot : k'.ftable = update k.ftable f c) (e : Nat × Bool) :
    endCount k' (update R i l) e +
        ((if (k.ftable f).pipeEnd = some e then 1 else 0) + (R i).ends.count e) =
      endCount k R e + ((if c.pipeEnd = some e then 1 else 0) + l.ends.count e) := by
  have hends := sum_ends_update R i l e
  have hfiles := tally_update (fun g => (k.ftable g).pipeEnd) f c.pipeEnd (some e)
  have hfun : (fun g => (k'.ftable g).pipeEnd) =
      update (fun g => (k.ftable g).pipeEnd) f c.pipeEnd := by
    funext g
    rw [hslot]
    by_cases hg : g = f
    · rw [hg, update_self, update_self]
    · rw [update_of_ne hg, update_of_ne hg]
  unfold endCount
  rw [hfun]
  omega

theorem FileSlot.pipeEnd_of_type (h : c.type ≠ .pipe) : c.pipeEnd = none := if_neg h

/-! ### The operations on files -/

theorem FilesOk.share_pos (h : FilesOk k R) (hcredit : 1 ≤ (R i).credit f) :
    1 ≤ share k R i f := hcredit.trans (h.procs.credit_le i f)

theorem FilesOk.ref_pos (h : FilesOk k R) (hshare : 1 ≤ share k R i f) : 1 ≤ (k.ftable f).ref := by
  have hle := h.refs.share_le i f
  omega

theorem share_add (hofile : (k'.procs i).ofile = (k.procs i).ofile)
    (hheld : l.held = ((R i).add f n).held) :
    share k' (update R i l) i g = share k R i g + if g = f then n else 0 := by
  rw [share_update_self, hofile, hheld]
  unfold share
  change _ + update (R i).held f ((R i).held f + n) g = _
  by_cases hg : g = f
  · rw [hg, update_self, if_pos rfl]
    omega
  · rw [update_of_ne hg, if_neg hg]
    omega

/-- A process gets `n` references to a file more, and the file changes with it. -/
structure FileChange (k : Kernel) (R : Fin NPROC → FileRecord) (i : Fin NPROC) (f : Fin NFILE)
    (c : FileSlot) (l : FileRecord) (n : Int) : Prop where
  held : l.held = ((R i).add f n).held
  known : l.known = (R i).known
  live : l.live = (R i).live
  child : l.child = (R i).child
  ref : (c.ref : Int) = (k.ftable f).ref + n
  backed : 0 ≤ share k R i f + n
  idle : c.ref = 0 → c.type = .none
  fresh : ∀ j, j ≠ i → f ∉ (R j).fresh
  seen : ∀ j, j ≠ i → ∀ ip, (R j).seen = some (f, ip) → c.ip = ip
  still : ∀ g ∈ l.fresh, g ≠ f → g ∈ (R i).fresh
  new : f ∈ l.fresh → c.type = .none ∧ c.ref = 1 ∧ 1 ≤ share k R i f + n
  nodup : l.fresh.Nodup
  look : ∀ g ip, l.seen = some (g, ip) → (R i).seen = some (g, ip) ∧ (g = f → c.ip = ip ∧ n = 0)

theorem FilesOk.changeFile (h : FilesOk k R) (hc : FileChange k R i f c l n)
    (hends : ∀ e, endCount (k.setFileSlot f c) (update R i l) e = endCount k R e) :
    FilesOk (k.setFileSlot f c) (update R i l) := by
  have hat : (k.setFileSlot f c).ftable f = c := update_self ..
  have hoff : ∀ g, g ≠ f → (k.setFileSlot f c).ftable g = k.ftable g :=
    fun g hg => update_of_ne hg ..
  have hshare : ∀ g, share (k.setFileSlot f c) (update R i l) i g =
      share k R i g + if g = f then n else 0 := fun g => share_add (k := k) rfl hc.held
  refine ⟨h.refs.change (fun _ _ => rfl) (fun g => ?_) fun g => ?_,
    h.slots.change rfl (fun _ _ => rfl) hc.idle (fun j hj hmem => absurd hmem (hc.fresh j hj))
      hc.seen (fun g hg => ?_) hc.nodup (fun g ip hg => ?_),
    h.procs.congr (fun _ => rfl) (fun _ => rfl) hc.known hc.live hc.child,
    h.pipes.congr hends rfl⟩
  · rw [hshare]
    by_cases hg : g = f
    · have := hc.ref
      rw [hg, hat, if_pos rfl]
      omega
    · rw [hoff g hg, if_neg hg]
      omega
  · rw [hshare]
    by_cases hg : g = f
    · rw [hg, if_pos rfl]
      exact hc.backed
    · rw [if_neg hg, Int.add_zero]
      exact h.refs.backed i g
  · rw [hshare]
    by_cases hgf : g = f
    · rw [hgf, hat, if_pos rfl]
      exact hc.new (hgf ▸ hg)
    · rw [hoff g hgf, if_neg hgf, Int.add_zero]
      exact h.slots.fresh i g (hc.still g hg hgf)
  · rw [hshare]
    obtain ⟨hold, hself⟩ := hc.look g ip hg
    obtain ⟨hip, hpos⟩ := h.slots.seen i g ip hold
    by_cases hgf : g = f
    · obtain ⟨hcip, hn⟩ := hself hgf
      rw [hgf] at hpos ⊢
      rw [hat, if_pos rfl, hn, Int.add_zero]
      exact ⟨hcip, hpos⟩
    · rw [hoff g hgf, if_neg hgf, Int.add_zero]
      exact ⟨hip, hpos⟩

/-- Ends of pipes move between a file and a call. -/
theorem endCount_moved (h : (if c.pipeEnd = some e then 1 else 0) + l.ends.count e =
      (if (k.ftable f).pipeEnd = some e then 1 else 0) + (R i).ends.count e) :
    endCount (k.setFileSlot f c) (update R i l) e = endCount k R e := by
  have hcount : endCount (k.setFileSlot f c) (update R i l) e + _ = _ := endCount_update rfl e
  omega

theorem endCount_same (hend : c.pipeEnd = (k.ftable f).pipeEnd) (hends : l.ends = (R i).ends)
    (e : Nat × Bool) : endCount (k.setFileSlot f c) (update R i l) e = endCount k R e :=
  endCount_moved (by rw [hend, hends])

section

variable (h : FilesOk k R)

include h

theorem FilesOk.filealloc (hf : (k.ftable f).ref = 0) :
    FilesOk (k.setFileSlot f { k.ftable f with ref := 1 })
      (update R i { (R i).add f 1 with fresh := f :: (R i).fresh }) := by
  have hzero : ∀ j, share k R j f = 0 := fun j => by
    have hle := h.refs.share_le j f
    have hback := h.refs.backed j f
    omega
  have hfresh : ∀ j, f ∉ (R j).fresh := fun j hmem => by
    have := (h.slots.fresh j f hmem).2.1
    omega
  have hone : 1 ≤ share k R i f + 1 := by
    have := h.refs.backed i f
    omega
  refine h.changeFile (n := 1) ⟨rfl, rfl, rfl, rfl, ?_, by omega, nofun, fun j _ => hfresh j,
    fun j _ ip hs => ?_, fun g hg hne => (mem_cons.mp hg).resolve_left hne,
    fun _ => ⟨h.slots.idle f hf, rfl, hone⟩, nodup_cons.mpr ⟨hfresh i, h.slots.nodup i⟩,
    nofun⟩ (endCount_same rfl rfl)
  · rw [hf]
    rfl
  · exact (h.slots.seen j f ip hs).1

theorem FilesOk.filedup (hcredit : 1 ≤ (R i).credit f) (hnew : f ∉ (R i).fresh) :
    FilesOk (k.setFileSlot f { k.ftable f with ref := (k.ftable f).ref + 1 })
      (update R i ((R i).add f 1)) := by
  have hshare := h.share_pos hcredit
  refine h.changeFile (n := 1) ⟨rfl, rfl, rfl, rfl, ?_, by omega, nofun,
    fun j hj => h.notMem_fresh hshare hj, fun j _ ip hs => (h.slots.seen j f ip hs).1,
    fun g hg _ => hg, fun hf => absurd hf hnew, h.slots.nodup i, nofun⟩ (endCount_same rfl rfl)
  push_cast
  rfl

/-- `fileclose` of a file with more references. -/
theorem FilesOk.fileputShared (hcredit : 1 ≤ (R i).credit f) (href : 1 < (k.ftable f).ref) :
    FilesOk (k.setFileSlot f { k.ftable f with ref := (k.ftable f).ref - 1 })
      (update R i { (R i).add f (-1) with fresh := (R i).fresh.erase f }) := by
  have hshare := h.share_pos hcredit
  have hnew : f ∉ (R i).fresh := fun hmem => by
    have := (h.slots.fresh i f hmem).2.1
    omega
  refine h.changeFile (n := -1) ⟨rfl, rfl, rfl, rfl, ?_, by omega, fun hz => ?_,
    fun j hj => h.notMem_fresh hshare hj, fun j _ ip hs => (h.slots.seen j f ip hs).1,
    fun g hg _ => mem_of_mem_erase hg, fun hf => absurd (mem_of_mem_erase hf) hnew,
    (h.slots.nodup i).erase f, nofun⟩ (endCount_same rfl rfl)
  · dsimp only
    omega
  · change (k.ftable f).ref - 1 = 0 at hz
    omega

/-- `fileclose` of the last reference. -/
theorem FilesOk.fileputLast (hcredit : 1 ≤ (R i).credit f) (href : (k.ftable f).ref = 1)
    (hends : ends = (k.ftable f).pipeEnd.toList ++ (R i).ends) :
    FilesOk (k.setFileSlot f { k.ftable f with ref := 0, type := .none }) (update R i
        { (R i).add f (-1) with fresh := (R i).fresh.erase f, ends := ends }) := by
  have hshare := h.share_pos hcredit
  have hlone : ∀ j, j ≠ i → share k R j f = 0 := fun j hj => by
    have hle := h.refs.share_add_le hj f
    have hback := h.refs.backed j f
    omega
  have hle := h.refs.share_le i f
  refine h.changeFile (n := -1) ⟨rfl, rfl, rfl, rfl, ?_, by omega, fun _ => rfl,
    fun j hj => h.notMem_fresh hshare hj, fun j hj ip hs => ?_,
    fun g hg _ => mem_of_mem_erase hg, fun hf => ?_, (h.slots.nodup i).erase f, nofun⟩
    fun e => ?_
  · rw [href]
    rfl
  · have hpos := (h.slots.seen j f ip hs).2
    have hzero := hlone j hj
    omega
  · exact absurd hf (List.Nodup.not_mem_erase (h.slots.nodup i))
  · have hnone : ({ k.ftable f with ref := 0, type := .none } : FileSlot).pipeEnd = none :=
      FileSlot.pipeEnd_of_type (by simp)
    refine endCount_moved ?_
    rw [hnone, hends, count_append]
    cases (k.ftable f).pipeEnd with
    | none => simp
    | some e' => simp [count_singleton]

section

variable (hf : f ∈ (R i).fresh) (hc : c.ref = (k.ftable f).ref)

include hf hc

/-- The assignments of `sys_open` to a new file, and of `pipealloc`. -/
theorem FilesOk.setNew
    (hends : ∀ e, (if c.pipeEnd = some e then 1 else 0) + ends.count e = (R i).ends.count e) :
    FilesOk (k.setFileSlot f c) (update R i
        { R i with fresh := (R i).fresh.erase f, ends := ends, seen := none }) := by
  obtain ⟨htype, href, hshare⟩ := h.slots.fresh i f hf
  refine h.changeFile (n := 0) ⟨?_, rfl, rfl, rfl, by omega, by omega, by omega,
    fun j hj => h.notMem_fresh hshare hj, fun j hj ip hs => ?_,
    fun g hg _ => mem_of_mem_erase hg,
    fun hf => absurd hf (List.Nodup.not_mem_erase (h.slots.nodup i)),
    (h.slots.nodup i).erase f, nofun⟩ fun e => endCount_moved ?_
  · change _ = update _ _ _
    rw [Int.add_zero, update_eq_self]
  · have hle := h.refs.share_add_le hj f
    have hpos := (h.slots.seen j f ip hs).2
    omega
  · have hnone : (k.ftable f).pipeEnd = none := FileSlot.pipeEnd_of_type (by simp [htype])
    rw [hnone, if_neg (Option.some_ne_none e).symm, Nat.zero_add]
    exact hends e

theorem FilesOk.setFile (htype : c.type = .inode) : FilesOk (k.setFileSlot f c)
      (update R i { R i with fresh := (R i).fresh.erase f, seen := none }) := by
  refine h.setNew hf hc fun e => ?_
  rw [FileSlot.pipeEnd_of_type (by simp [htype]), if_neg nofun, Nat.zero_add]

theorem FilesOk.setPipe (hend : c.pipeEnd = some e) (he : e ∈ (R i).ends) :
    FilesOk (k.setFileSlot f c) (update R i
        { R i with fresh := (R i).fresh.erase f, ends := (R i).ends.erase e, seen := none }) := by
  refine h.setNew hf hc fun e' => ?_
  have hpos := count_pos_iff.mpr he
  rw [hend, count_erase]
  by_cases hee : e = e'
  · subst hee
    simp only [beq_self_eq_true, if_true]
    omega
  · rw [if_neg fun heq => hee (Option.some.inj heq), if_neg fun heq => hee (eq_of_beq heq)]
    omega

end

/-- Nothing of it depends on the offsets, the inodes or the disk. -/
theorem FilesOk.frame (hfile : ∀ g, ∃ off, k'.ftable g = { k.ftable g with off := off })
    (hofile : ∀ j, (k'.procs j).ofile = (k.procs j).ofile)
    (huse : ∀ j, (k'.procs j).use = (k.procs j).use) (hpipes : k'.pipes = k.pipes) :
    FilesOk k' R := by
  have htype : ∀ g, (k'.ftable g).type = (k.ftable g).type := fun g => by
    obtain ⟨off, hg⟩ := hfile g
    rw [hg]
  have href : ∀ g, (k'.ftable g).ref = (k.ftable g).ref := fun g => by
    obtain ⟨off, hg⟩ := hfile g
    rw [hg]
  have hip : ∀ g, (k'.ftable g).ip = (k.ftable g).ip := fun g => by
    obtain ⟨off, hg⟩ := hfile g
    rw [hg]
  have hend : ∀ g, (k'.ftable g).pipeEnd = (k.ftable g).pipeEnd := fun g => by
    obtain ⟨off, hg⟩ := hfile g
    rw [hg]
    rfl
  have hshare : ∀ j g, share k' R j g = share k R j g := fun j g => by
    unfold share
    rw [hofile]
  refine ⟨⟨fun g => ?_, fun j g => ?_⟩, ⟨fun g => ?_, fun j g => ?_, h.slots.nodup,
    fun j g ip => ?_⟩, ⟨fun j => ?_, h.procs.quiet, fun j => ?_, fun j => ?_, fun j np => ?_,
    h.procs.unique⟩, h.pipes.congr (fun e => ?_) hpipes⟩
  · simp only [href, hshare]
    exact h.refs.refs g
  · rw [hshare]
    exact h.refs.backed j g
  · rw [href, htype]
    exact h.slots.idle g
  · rw [href, htype, hshare]
    exact h.slots.fresh j g
  · rw [hip, hshare]
    exact h.slots.seen j g ip
  · rw [hofile]
    exact h.procs.known j
  · rw [huse]
    exact h.procs.live j
  · rw [huse, hofile]
    exact h.procs.dead j
  · rw [huse]
    exact h.procs.child j np
  · unfold endCount
    simp only [hend]

theorem FilesOk.setOff (off : Nat) :
    FilesOk (k.setFileSlot f { k.ftable f with off := off }) R := by
  refine h.frame (fun g => ?_) (fun _ => rfl) (fun _ => rfl) rfl
  by_cases hg : g = f
  · exact ⟨off, by rw [hg]; exact update_self ..⟩
  · exact ⟨(k.ftable g).off, update_of_ne hg ..⟩

/-! ### Pipes -/

/-- Only the ends that a call has change. -/
theorem FilesOk.ends {ends : List (Nat × Bool)}
    (hfile : k'.ftable = k.ftable) (hprocs : k'.procs = k.procs)
    (hpipes : PipesOk k' (update R i { R i with ends := ends })) :
    FilesOk k' (update R i { R i with ends := ends }) := by
  have hheld := update_same (R := R) (i := i) (l := { R i with ends := ends }) (·.held) rfl
  have hfresh := update_same (R := R) (i := i) (l := { R i with ends := ends }) (·.fresh) rfl
  have hseen := update_same (R := R) (i := i) (l := { R i with ends := ends }) (·.seen) rfl
  have hshare : ∀ j g, share k' (update R i { R i with ends := ends }) j g =
      share k R j g := fun j g => by
    unfold share
    rw [hheld, hprocs]
  refine ⟨⟨fun g => ?_, fun j g => ?_⟩, ⟨fun g => ?_, fun j g => ?_, fun j => ?_, fun j g ip => ?_⟩,
    h.procs.congr (fun _ => by rw [hprocs]) (fun _ => by rw [hprocs]) rfl rfl rfl, hpipes⟩
  · simp only [hshare, hfile]
    exact h.refs.refs g
  · rw [hshare]
    exact h.refs.backed j g
  · rw [hfile]
    exact h.slots.idle g
  · rw [hfresh, hfile, hshare]
    exact h.slots.fresh j g
  · rw [hfresh]
    exact h.slots.nodup j
  · rw [hseen, hfile, hshare]
    exact h.slots.seen j g ip

/-- One page changes, with the ends that a call has of the pipe in it. -/
theorem FilesOk.setPipePage {c : PipePage} {ends : List (Nat × Bool)}
    (hother : ∀ q w, q ≠ page → ends.count (q, w) = (R i).ends.count (q, w))
    (hself : ∀ w, (if c.isopen w then 1 else 0) + (R i).ends.count (page, w) =
      (if (k.pipes page).isopen w then 1 else 0) + ends.count (page, w))
    (hcloses : ∀ w, c.closes w + (if c.isopen w then 1 else 0) = c.allocs)
    (hfrees : c.frees + (if c.isopen false ∨ c.isopen true then 1 else 0) = c.allocs) :
    FilesOk (k.setPipePage page c) (update R i { R i with ends := ends }) := by
  have hcount : ∀ e, endCount (k.setPipePage page c)
      (update R i { R i with ends := ends }) e + (R i).ends.count e =
        endCount k R e + ends.count e := fun e => by
    have hends : _ = ∑ j, (R j).ends.count e + ends.count e :=
      sum_ends_update R i { R i with ends := ends } e
    change tally (fun f => (k.ftable f).pipeEnd) (some e) + _ + _ = tally _ _ + _ + _
    omega
  have hat : (k.setPipePage page c).pipes page = c := update_self ..
  have hoff : ∀ q, q ≠ page → (k.setPipePage page c).pipes q = k.pipes q :=
    fun q hq => update_of_ne hq ..
  refine h.ends rfl rfl ⟨fun q w => ?_, fun q w => ?_, fun q => ?_⟩
  · have hnew := hcount (q, w)
    have hold := h.pipes.ends q w
    by_cases hq : q = page
    · subst hq
      have := hself w
      rw [hat]
      omega
    · have := hother q w hq
      rw [hoff q hq]
      omega
  · by_cases hq : q = page
    · rw [hq, hat]
      exact hcloses w
    · rw [hoff q hq]
      exact h.pipes.closes q w
  · by_cases hq : q = page
    · rw [hq, hat]
      exact hfrees
    · rw [hoff q hq]
      exact h.pipes.frees q

theorem FilesOk.pipeInit (hpage : (k.pipes page).allocs = (k.pipes page).frees) :
    FilesOk (k.setPipePage page (k.pipes page).renew) (update R i
        { R i with ends := (page, false) :: (page, true) :: (R i).ends }) := by
  have hshut : ∀ w, (k.pipes page).isopen w = false := fun w => by
    have hfrees := h.pipes.frees page
    rw [hpage, Nat.add_eq_left, ite_eq_right_iff] at hfrees
    cases hw : (k.pipes page).isopen w with
    | false => rfl
    | true => cases w <;> simp [hw] at hfrees
  refine h.setPipePage (fun q w hq => ?_) (fun w => ?_) (fun w => ?_) ?_
  · rw [count_cons_of_ne fun heq => hq (congrArg Prod.fst heq).symm,
      count_cons_of_ne fun heq => hq (congrArg Prod.fst heq).symm]
  · rw [hshut w]
    cases w <;> simp [PipePage.renew, Nat.add_comm]
  · have hcloses := h.pipes.closes page w
    rw [hshut w] at hcloses
    simpa [PipePage.renew] using hcloses
  · simp [PipePage.renew, hpage]

theorem FilesOk.pipeclose {writable : Bool} (hend : (page, writable) ∈ (R i).ends) :
    FilesOk (k.setPipePage page ((k.pipes page).close writable))
      (update R i { R i with ends := (R i).ends.erase (page, writable) }) := by
  have hpos := count_pos_iff.mpr hend
  have hopen : (k.pipes page).isopen writable = true := by
    have hold := h.pipes.ends page writable
    have hle : (R i).ends.count (page, writable) ≤ endCount k R (page, writable) :=
      le_add_left (single_le_sum (f := fun j => (R j).ends.count (page, writable))
        (fun _ _ => Nat.zero_le _) (mem_univ i))
    by_contra hshut
    rw [if_neg hshut] at hold
    omega
  refine h.setPipePage (fun q w hq => ?_) (fun w => ?_) (fun w => ?_) ?_
  · rw [count_erase_of_ne fun heq => hq (congrArg Prod.fst heq)]
  · by_cases hw : w = writable
    · subst hw
      rw [count_erase_self, hopen]
      simp only [PipePage.close, update_self, if_true, Bool.false_eq_true, if_false]
      omega
    · rw [count_erase_of_ne fun heq => hw (congrArg Prod.snd heq)]
      simp only [PipePage.close, update_of_ne hw]
  · have hcloses := h.pipes.closes page w
    by_cases hw : w = writable
    · subst hw
      rw [hopen] at hcloses
      simpa [PipePage.close] using hcloses
    · simpa [PipePage.close, update_of_ne hw] using hcloses
  · have hfrees := h.pipes.frees page
    cases writable with
    | false =>
      cases hother : (k.pipes page).isopen true <;>
        simpa [PipePage.close, update_apply, hopen, hother] using hfrees
    | true =>
      cases hother : (k.pipes page).isopen false <;>
        simpa [PipePage.close, update_apply, hopen, hother] using hfrees

end

/-! ### Descriptors -/

/-- The slots stay; a process that is running a call has another view of its own. -/
structure OwnView (k k' : Kernel) (R : Fin NPROC → FileRecord) (i : Fin NPROC) (l : FileRecord) :
    Prop where
  ftable : k'.ftable = k.ftable
  pipes : k'.pipes = k.pipes
  use : ∀ j, (k'.procs j).use = (k.procs j).use
  ofile : ∀ j, j ≠ i → (k'.procs j).ofile = (k.procs j).ofile
  child : l.child = (R i).child
  fresh : l.fresh = (R i).fresh
  ends : l.ends = (R i).ends
  refs : ∀ f, share k' (update R i l) i f = share k R i f
  known : ∀ fd v, l.known fd = some v → (k'.procs i).ofile fd = v
  quiet : l.live = false → ∀ fd, l.known fd = none
  live : l.live = true → (k.procs i).use = .live
  dead : (k.procs i).use ≠ .live → ∀ fd, (k'.procs i).ofile fd = none
  seen : ∀ f ip, l.seen = some (f, ip) → (k.ftable f).ip = ip ∧ 1 ≤ share k R i f

section

variable (h : FilesOk k R)

include h

theorem FilesOk.ownView (hv : OwnView k k' R i l) : FilesOk k' (update R i l) := by
  have hshare : ∀ j f, share k' (update R i l) j f = share k R j f := fun j f => by
    by_cases hj : j = i
    · rw [hj, hv.refs]
    · rw [share_update_of_ne hj (hv.ofile j hj)]
  have hfresh := update_same FileRecord.fresh hv.fresh
  have hends := update_same FileRecord.ends hv.ends
  have hchild := update_same FileRecord.child hv.child
  refine ⟨⟨fun f => ?_, fun j f => ?_⟩,
    ⟨fun f => ?_, fun j f => ?_, fun j => ?_, fun j f ip hs => ?_⟩,
    ⟨fun j fd v hk => ?_, fun j hq => ?_, fun j hl => ?_, fun j hd => ?_, fun j np => ?_,
      fun j j' np => ?_⟩, h.pipes.congr (fun e => ?_) hv.pipes⟩
  · simp only [hshare, hv.ftable]
    exact h.refs.refs f
  · rw [hshare]
    exact h.refs.backed j f
  · rw [hv.ftable]
    exact h.slots.idle f
  · rw [hfresh, hv.ftable, hshare]
    exact h.slots.fresh j f
  · rw [hfresh]
    exact h.slots.nodup j
  · rw [hv.ftable, hshare]
    by_cases hj : j = i
    · subst hj
      rw [update_self] at hs
      exact hv.seen f ip hs
    · rw [update_of_ne hj] at hs
      exact h.slots.seen j f ip hs
  · by_cases hj : j = i
    · subst hj
      rw [update_self] at hk
      exact hv.known fd v hk
    · rw [update_of_ne hj] at hk
      rw [hv.ofile j hj]
      exact h.procs.known j fd v hk
  · by_cases hj : j = i
    · subst hj
      rw [update_self] at hq ⊢
      exact hv.quiet hq
    · rw [update_of_ne hj] at hq ⊢
      exact h.procs.quiet j hq
  · rw [hv.use]
    by_cases hj : j = i
    · subst hj
      rw [update_self] at hl
      exact hv.live hl
    · rw [update_of_ne hj] at hl
      exact h.procs.live j hl
  · rw [hv.use] at hd
    by_cases hj : j = i
    · subst hj
      exact hv.dead hd
    · rw [hv.ofile j hj]
      exact h.procs.dead j hd
  · rw [hchild, hv.use]
    exact h.procs.child j np
  · rw [hchild, hchild]
    exact h.procs.unique j j' np
  · unfold endCount
    simp only [hv.ftable, hends]

/-- Reading a file to which the process has a reference. -/
theorem FilesOk.file (hcredit : 1 ≤ (R i).credit f) :
    FilesOk k (update R i { R i with seen := some (f, (k.ftable f).ip) }) := by
  refine h.ownView ⟨rfl, rfl, fun _ => rfl, fun _ _ => rfl, rfl, rfl, rfl,
    fun g => share_update_self g, h.procs.known i, h.procs.quiet i, h.procs.live i,
    h.procs.dead i, fun g ip hs => ?_⟩
  cases hs
  exact ⟨rfl, h.share_pos hcredit⟩

/-- Reading a descriptor. -/
theorem FilesOk.ofile (hlive : (R i).live = true) (fd : Fin NOFILE) :
    FilesOk k (update R i ((R i).learn fd ((k.procs i).ofile fd))) := by
  refine h.ownView ⟨rfl, rfl, fun _ => rfl, fun _ _ => rfl, rfl, rfl, rfl,
    fun g => share_update_self g, fun fd' v hv => ?_,
    fun hdead => absurd (hlive.symm.trans hdead) nofun,
    h.procs.live i, h.procs.dead i, nofun⟩
  change update _ _ _ _ = _ at hv
  by_cases hfd : fd' = fd
  · rw [hfd, update_self] at hv
    rw [hfd]
    exact Option.some.inj hv
  · rw [update_of_ne hfd] at hv
    exact h.procs.known i fd' v hv

/-- A call starts. -/
theorem FilesOk.start (hblank : R i = .blank) (huse : (k.procs i).use = .live) :
    FilesOk k (update R i { FileRecord.blank with live := true }) := by
  refine h.ownView ⟨rfl, rfl, fun _ => rfl, fun _ _ => rfl, ?_, ?_, ?_, fun g => ?_, nofun, nofun,
    fun _ => huse, h.procs.dead i, nofun⟩
  · rw [hblank]
  · rw [hblank]
  · rw [hblank]
  · rw [share_update_self]
    unfold share
    rw [hblank]

/-- A call ends and leaves nothing over. -/
theorem FilesOk.finish (hheld : (R i).held = fun _ => 0)
    (hfresh : (R i).fresh = []) (hends : (R i).ends = []) (hchild : (R i).child = none) :
    FilesOk k (update R i .blank) := by
  refine h.ownView ⟨rfl, rfl, fun _ => rfl, fun _ _ => rfl, hchild.symm, hfresh.symm, hends.symm,
    fun g => ?_, nofun, fun _ _ => rfl, nofun, h.procs.dead i, nofun⟩
  rw [share_update_self]
  unfold share
  rw [hheld]
  rfl

variable (hlive : (R i).live = true)

include hlive

/-- The descriptor `fd` gets the contents `v`; the references that it had become the call's, and
    those that it has now are no longer. -/
theorem FilesOk.setFd
    (hlive' : l.live = (R i).live) (hchild : l.child = (R i).child) (hfresh : l.fresh = (R i).fresh)
    (hends : l.ends = (R i).ends) (hseen : l.seen = none)
    (hknown : l.known = update (R i).known fd (some v))
    (hheld : ∀ g, l.held g + (if v = some g then 1 else 0 : Nat) =
      (R i).held g + (if (k.procs i).ofile fd = some g then 1 else 0 : Nat)) :
    FilesOk (k.setProc i { k.procs i with ofile := update (k.procs i).ofile fd v })
      (update R i l) := by
  have hat : (k.setProc i { k.procs i with ofile := update (k.procs i).ofile fd v }).procs
      i = { k.procs i with ofile := update (k.procs i).ofile fd v } :=
    update_self ..
  have hoff : ∀ j, j ≠ i → (k.setProc i { k.procs i with
      ofile := update (k.procs i).ofile fd v }).procs j = k.procs j :=
    fun j hj => update_of_ne hj ..
  refine h.ownView ⟨rfl, rfl, fun j => ?_, fun j hj => by rw [hoff j hj], hchild, hfresh, hends,
    fun g => ?_, fun fd' w hw => ?_, fun hdead => absurd hdead (by simp [hlive', hlive]),
    fun _ => h.procs.live i hlive, fun hdead => absurd (h.procs.live i hlive) hdead,
    fun g ip hs => ?_⟩
  · by_cases hj : j = i
    · rw [hj, hat]
    · rw [hoff j hj]
  · rw [share_update_self, hat]
    have htally := tally_update (k.procs i).ofile fd v (some g)
    have := hheld g
    unfold share
    dsimp only
    omega
  · rw [hknown] at hw
    rw [hat]
    change update _ _ _ _ = _
    by_cases hfd : fd' = fd
    · rw [hfd, update_self] at hw ⊢
      exact Option.some.inj hw
    · rw [update_of_ne hfd] at hw ⊢
      exact h.procs.known i fd' w hw
  · rw [hseen] at hs
    cases hs

theorem FilesOk.fdalloc (hfd : (k.procs i).ofile fd = none) : FilesOk
      (k.setProc i { k.procs i with ofile := update (k.procs i).ofile fd (some f) })
      (update R i (((R i).learn fd (some f)).add f (-1))) := by
  refine h.setFd hlive rfl rfl rfl rfl rfl rfl fun g => ?_
  rw [hfd, if_neg (Option.some_ne_none g).symm]
  change update (R i).held f ((R i).held f + -1) g + _ = _
  by_cases hg : g = f
  · rw [hg, update_self, if_pos rfl]
    omega
  · rw [update_of_ne hg, if_neg fun heq => hg (Option.some.inj heq).symm]

theorem FilesOk.clearFd (hfd : (k.procs i).ofile fd = some f) : FilesOk
      (k.setProc i { k.procs i with ofile := update (k.procs i).ofile fd none })
      (update R i (((R i).learn fd none).add f 1)) := by
  refine h.setFd hlive rfl rfl rfl rfl rfl rfl fun g => ?_
  rw [hfd, if_neg (Option.some_ne_none g).symm]
  change update (R i).held f ((R i).held f + 1) g + _ = _
  by_cases hg : g = f
  · rw [hg, update_self, if_pos rfl]
    omega
  · rw [update_of_ne hg, if_neg fun heq => hg (Option.some.inj heq).symm]

/-- A descriptor that was clear already. -/
theorem FilesOk.clearFd_none (hfd : (k.procs i).ofile fd = none) : FilesOk
      (k.setProc i { k.procs i with ofile := update (k.procs i).ofile fd none })
      (update R i ((R i).learn fd none)) := by
  refine h.setFd hlive rfl rfl rfl rfl rfl rfl fun g => ?_
  rw [hfd]
  rfl

end

/-! ### Processes -/

theorem Kernel.setProc_self (k : Kernel) (q : Fin NPROC) (c : ProcFiles) :
    (k.setProc q c).procs q = c := update_self ..

theorem Kernel.setProc_of_ne (k : Kernel) {c : ProcFiles} (h : j ≠ q) :
    (k.setProc q c).procs j = k.procs j := update_of_ne h ..

theorem ProcsOk.empty_of_child (h : ProcsOk k R) (hchild : (R i).child = some np)
    (fd : Fin NOFILE) : (k.procs np).ofile fd = none := by
  refine h.dead np ?_ fd
  rw [h.child i np hchild]
  simp

section

variable (h : FilesOk k R)

include h

/-- Files and descriptors stay when a slot of the process table gets another use. -/
theorem FilesOk.setUse {u : ProcUse} (hheld : l.held = (R i).held)
    (hfresh : l.fresh = (R i).fresh) (hseen : l.seen = (R i).seen) (hends : l.ends = (R i).ends)
    (hprocs : (∀ j, ((k.setProc q { k.procs q with use := u }).procs j).ofile =
      (k.procs j).ofile) → ProcsOk (k.setProc q { k.procs q with use := u })
        (update R i l)) : FilesOk (k.setProc q { k.procs q with use := u }) (update R i l) := by
  have hofile : ∀ j, ((k.setProc q { k.procs q with use := u }).procs j).ofile =
      (k.procs j).ofile := fun j => by
    by_cases hj : j = q
    · rw [hj, k.setProc_self]
    · rw [k.setProc_of_ne hj]
  have hh := update_same FileRecord.held hheld
  have hf := update_same FileRecord.fresh hfresh
  have hs := update_same FileRecord.seen hseen
  have he := update_same FileRecord.ends hends
  have hshare : ∀ j g, share (k.setProc q { k.procs q with use := u }) (update R i l) j g =
      share k R j g := fun j g => by
    unfold share
    rw [hh, hofile]
  refine ⟨⟨fun g => ?_, fun j g => ?_⟩, ⟨h.slots.idle, fun j g => ?_, fun j => ?_,
    fun j g ip => ?_⟩, hprocs hofile, h.pipes.congr (fun e => ?_) rfl⟩
  · simp only [hshare]
    exact h.refs.refs g
  · rw [hshare]
    exact h.refs.backed j g
  · rw [hf, hshare]
    exact h.slots.fresh j g
  · rw [hf]
    exact h.slots.nodup j
  · rw [hs, hshare]
    exact h.slots.seen j g ip
  · unfold endCount
    simp only [he]
    rfl

theorem FilesOk.allocproc {np : Fin NPROC} (hfree : (k.procs np).use = .free) :
    FilesOk (k.setProc np { k.procs np with use := .embryo })
      (update R i { R i with child := some np }) := by
  refine h.setUse rfl rfl rfl rfl fun hofile => ?_
  have hk := update_same (R := R) (i := i) (l := { R i with child := some np }) (·.known) rfl
  have hl := update_same (R := R) (i := i) (l := { R i with child := some np }) (·.live) rfl
  -- the slot was free, so no call has it as its child
  have hother : ∀ j, (R j).child ≠ some np := fun j hj => by
    have := h.procs.child j np hj
    rw [hfree] at this
    cases this
  refine ⟨fun j => ?_, fun j => ?_, fun j hlive => ?_, fun j hdead => ?_, fun j np' hc => ?_,
    fun j j' np' hj hj' => ?_⟩
  · rw [hk, hofile]
    exact h.procs.known j
  · rw [hl, hk]
    exact h.procs.quiet j
  · rw [hl] at hlive
    have huse := h.procs.live j hlive
    rw [k.setProc_of_ne fun hj => by rw [hj, hfree] at huse; cases huse]
    exact huse
  · rw [hofile]
    by_cases hj : j = np
    · refine h.procs.dead j ?_
      rw [hj, hfree]
      simp
    · rw [k.setProc_of_ne hj] at hdead
      exact h.procs.dead j hdead
  · by_cases hnp : np' = np
    · rw [hnp, k.setProc_self]
    · rw [k.setProc_of_ne hnp]
      by_cases hj : j = i
      · rw [hj, update_self] at hc
        exact absurd (Option.some.inj hc).symm hnp
      · rw [update_of_ne hj] at hc
        exact h.procs.child j np' hc
  · by_cases hji : j = i <;> by_cases hji' : j' = i
    · rw [hji, hji']
    · rw [hji, update_self] at hj
      rw [update_of_ne hji', ← hj] at hj'
      exact absurd hj' (hother j')
    · rw [hji', update_self] at hj'
      rw [update_of_ne hji, ← hj'] at hj
      exact absurd hj (hother j)
    · rw [update_of_ne hji] at hj
      rw [update_of_ne hji'] at hj'
      exact h.procs.unique j j' np' hj hj'

/-- A slot without descriptors is given back by the one call that may do so. -/
theorem FilesOk.freeproc (hempty : ∀ fd, (k.procs q).ofile fd = none)
    (hchild : ∀ j, j ≠ i → (R j).child ≠ some q) (hlive : ∀ j, j ≠ i → j = q → (R j).live = false)
    (hheld : l.held = (R i).held) (hfresh : l.fresh = (R i).fresh) (hseen : l.seen = (R i).seen)
    (hends : l.ends = (R i).ends) (hnone : l.child = none)
    (hself : l.live = true → i ≠ q ∧ l.live = (R i).live)
    (hknown : ∀ fd v, l.known fd = some v → (R i).known fd = some v)
    (hquiet : l.live = false → ∀ fd, l.known fd = none) :
    FilesOk (k.setProc q { k.procs q with use := .free }) (update R i l) := by
  refine h.setUse hheld hfresh hseen hends fun hofile => ?_
  refine ⟨fun j fd v hv => ?_, fun j hq => ?_, fun j hl => ?_, fun j hdead => ?_,
    fun j np hc => ?_, fun j j' np hj hj' => ?_⟩
  · rw [hofile]
    by_cases hj : j = i
    · subst hj
      rw [update_self] at hv
      exact h.procs.known j fd v (hknown fd v hv)
    · rw [update_of_ne hj] at hv
      exact h.procs.known j fd v hv
  · by_cases hj : j = i
    · subst hj
      rw [update_self] at hq ⊢
      exact hquiet hq
    · rw [update_of_ne hj] at hq ⊢
      exact h.procs.quiet j hq
  · by_cases hj : j = i
    · subst hj
      rw [update_self] at hl
      obtain ⟨hne, hsame⟩ := hself hl
      rw [k.setProc_of_ne hne]
      exact h.procs.live j (hsame ▸ hl)
    · rw [update_of_ne hj] at hl
      have hne : j ≠ q := fun hjq => by
        rw [hlive j hj hjq] at hl
        cases hl
      rw [k.setProc_of_ne hne]
      exact h.procs.live j hl
  · rw [hofile]
    by_cases hj : j = q
    · rw [hj]
      exact hempty
    · rw [k.setProc_of_ne hj] at hdead
      exact h.procs.dead j hdead
  · have hj : j ≠ i := fun hji => by
      rw [hji, update_self, hnone] at hc
      cases hc
    rw [update_of_ne hj] at hc
    rw [k.setProc_of_ne fun hnp : np = q => hchild j hj (hnp ▸ hc)]
    exact h.procs.child j np hc
  · by_cases hji : j = i
    · rw [hji, update_self, hnone] at hj
      cases hj
    · by_cases hji' : j' = i
      · rw [hji', update_self, hnone] at hj'
        cases hj'
      · rw [update_of_ne hji] at hj
        rw [update_of_ne hji'] at hj'
        exact h.procs.unique j j' np hj hj'

/-- `fork` gives up on its child. -/
theorem FilesOk.freeChild (hlive : (R i).live = true) (hchild : (R i).child = some q) :
    FilesOk (k.setProc q { k.procs q with use := .free })
      (update R i { R i with child := none }) := by
  have huse := h.procs.child i q hchild
  refine h.freeproc (h.procs.empty_of_child hchild) (fun j hj hc => hj ?_) (fun j _ hjq => ?_)
    rfl rfl rfl rfl rfl (fun _ => ⟨fun hiq => ?_, rfl⟩) (fun _ _ hv => hv) fun hdead => ?_
  · exact h.procs.unique j i q hc hchild
  · by_contra hl
    have := h.procs.live j (Bool.eq_true_of_not_eq_false hl)
    rw [hjq, huse] at this
    cases this
  · have := h.procs.live i hlive
    rw [hiq, huse] at this
    cases this
  · exact h.procs.quiet i hdead

/-- A process ends with all its files closed. -/
theorem FilesOk.freeSelf (hlive : (R i).live = true)
    (hchild : (R i).child = none) (hknown : ∀ fd, (R i).known fd = some none) :
    FilesOk (k.setProc i { k.procs i with use := .free })
      (update R i { R i with known := fun _ => none, live := false }) := by
  refine h.freeproc (fun fd => h.procs.known i fd none (hknown fd)) (fun j hj hc => ?_)
    (fun j hj hji => absurd hji hj) rfl rfl rfl rfl hchild nofun nofun fun _ _ => rfl
  have hembryo := h.procs.child j i hc
  rw [h.procs.live i hlive] at hembryo
  cases hembryo

end

/-! ### `fork` -/

theorem share_other {j : Fin NPROC} (hj : j ≠ i) (hjnp : j ≠ np) (f : Fin NFILE) :
    share (k.setProc np ⟨.live, dir, files⟩) (update R i l) j f = share k R j f :=
  share_update_of_ne hj (by rw [k.setProc_of_ne hjnp]) f

theorem share_parent (hne : i ≠ np) (f : Fin NFILE) :
    share (k.setProc np ⟨.live, dir, files⟩) (update R i ((R i).giveAll files)) i f =
      share k R i f - tally files (some f) := by
  rw [share_update_self, k.setProc_of_ne hne]
  unfold share
  change _ + ((R i).held f - _) = _
  omega

theorem share_child (hne : i ≠ np) (hempty : ∀ fd, (k.procs np).ofile fd = none) (f : Fin NFILE) :
    share (k.setProc np ⟨.live, dir, files⟩) (update R i ((R i).giveAll files)) np f =
      share k R np f + tally files (some f) := by
  have hnone : tally (k.procs np).ofile (some f) = 0 := tally_eq_zero.mpr fun fd hfd => by
      rw [hempty fd] at hfd
      cases hfd
  unfold share
  rw [update_of_ne hne.symm, k.setProc_self, hnone]
  dsimp only
  omega

/-- The references go from the parent to the child. -/
theorem RefsOk.setproc (h : RefsOk k R) (hne : i ≠ np) (hempty : ∀ fd, (k.procs np).ofile fd = none)
    (hheld : ∀ f, (tally files (some f) : Int) ≤ (R i).held f) :
    RefsOk (k.setProc np ⟨.live, dir, files⟩) (update R i ((R i).giveAll files)) := by
  refine ⟨fun f => ?_, fun j f => ?_⟩
  · have hparent : ∑ j, share k (update R i ((R i).giveAll files)) j f =
        ∑ j, share k R j f - share k R i f + share k (update R i ((R i).giveAll files)) i f :=
      sum_changed fun j hj => share_update_of_ne hj rfl f
    have hchild : ∑ j, share (k.setProc np ⟨.live, dir, files⟩)
        (update R i ((R i).giveAll files)) j f =
          ∑ j, share k (update R i ((R i).giveAll files)) j f -
            share k (update R i ((R i).giveAll files)) np f +
            share (k.setProc np ⟨.live, dir, files⟩) (update R i ((R i).giveAll files)) np f :=
      sum_changed fun j hj => by
        unfold share
        rw [k.setProc_of_ne hj]
    have hnp : share k (update R i ((R i).giveAll files)) np f = share k R np f :=
      share_update_of_ne hne.symm rfl f
    have hi : share k (update R i ((R i).giveAll files)) i f =
        share k R i f - tally files (some f) := by
      rw [share_update_self]
      unfold share
      change _ + ((R i).held f - _) = _
      omega
    rw [hchild, hparent, hnp, hi, share_child hne hempty, ← h.refs f]
    change ((k.ftable f).ref : Int) = _
    omega
  · have hback := h.backed j f
    by_cases hj : j = i
    · have := hheld f
      rw [hj, share_parent hne]
      unfold share
      omega
    · by_cases hjnp : j = np
      · rw [hjnp] at hback ⊢
        rw [share_child hne hempty]
        omega
      · rw [share_other hj hjnp]
        exact hback

theorem SlotsOk.setproc (h : SlotsOk k R) (hne : i ≠ np)
    (hempty : ∀ fd, (k.procs np).ofile fd = none) (hfresh : (R i).fresh = []) :
    SlotsOk (k.setProc np ⟨.live, dir, files⟩) (update R i ((R i).giveAll files)) := by
  have hmore : ∀ j, j ≠ i → ∀ f, share k R j f ≤ share (k.setProc np ⟨.live, dir, files⟩)
      (update R i ((R i).giveAll files)) j f := fun j hj f => by
    by_cases hjnp : j = np
    · rw [hjnp, share_child hne hempty]
      omega
    · rw [share_other hj hjnp]
  have hfr := update_same (R := R) (i := i) (l := (R i).giveAll files) (·.fresh) rfl
  refine ⟨h.idle, fun j f hf => ?_, fun j => ?_, fun j f ip hs => ?_⟩
  · rw [hfr] at hf
    have hj : j ≠ i := fun hji => by
      rw [hji, hfresh] at hf
      cases hf
    obtain ⟨htype, href, hshare⟩ := h.fresh j f hf
    exact ⟨htype, href, hshare.trans (hmore j hj f)⟩
  · rw [hfr]
    exact h.nodup j
  · have hj : j ≠ i := fun hji => by
      rw [hji, update_self] at hs
      cases hs
    rw [update_of_ne hj] at hs
    obtain ⟨hip, hshare⟩ := h.seen j f ip hs
    exact ⟨hip, hshare.trans (hmore j hj f)⟩

theorem ProcsOk.setproc (h : ProcsOk k R) (hchild : (R i).child = some np) :
    ProcsOk (k.setProc np ⟨.live, dir, files⟩) (update R i ((R i).giveAll files)) := by
  have hk := update_same (R := R) (i := i) (l := (R i).giveAll files) (·.known) rfl
  have hl := update_same (R := R) (i := i) (l := (R i).giveAll files) (·.live) rfl
  have hquiet : (R np).live = false := by
    by_contra hnp
    have huse := h.live np (Bool.eq_true_of_not_eq_false hnp)
    rw [h.child i np hchild] at huse
    cases huse
  -- the child of another call is another slot
  have hother : ∀ j np', (update R i ((R i).giveAll files) j).child = some np' →
      (R j).child = some np' ∧ j ≠ i := fun j np' hc => by
    by_cases hj : j = i
    · rw [hj, update_self] at hc
      cases hc
    · rw [update_of_ne hj] at hc
      exact ⟨hc, hj⟩
  refine ⟨fun j fd v hv => ?_, fun j => ?_, fun j hj => ?_, fun j hdead => ?_, fun j np' hc => ?_,
    fun j j' np' hj hj' => ?_⟩
  · rw [hk] at hv
    have hj : j ≠ np := fun hj => by
      rw [hj, h.quiet np hquiet] at hv
      cases hv
    rw [k.setProc_of_ne hj]
    exact h.known j fd v hv
  · rw [hl, hk]
    exact h.quiet j
  · rw [hl] at hj
    by_cases hjnp : j = np
    · rw [hjnp, k.setProc_self]
    · rw [k.setProc_of_ne hjnp]
      exact h.live j hj
  · have hj : j ≠ np := fun hj => by
      rw [hj, k.setProc_self] at hdead
      exact hdead rfl
    rw [k.setProc_of_ne hj] at hdead ⊢
    exact h.dead j hdead
  · obtain ⟨hc, hj⟩ := hother j np' hc
    rw [k.setProc_of_ne fun hnp : np' = np => hj (h.unique j i np (hnp ▸ hc) hchild)]
    exact h.child j np' hc
  · exact h.unique j j' np' (hother j np' hj).1 (hother j' np' hj').1

/-- The child gets the descriptors, with the references that the call has taken. -/
theorem FilesOk.setproc (h : FilesOk k R) (hlive : (R i).live = true)
    (hchild : (R i).child = some np) (hfresh : (R i).fresh = [])
    (hheld : ∀ f, (tally files (some f) : Int) ≤ (R i).held f) :
    FilesOk (k.setProc np ⟨.live, dir, files⟩) (update R i ((R i).giveAll files)) := by
  have hne : i ≠ np := fun hiq => by
    have huse := h.procs.live i hlive
    rw [hiq, h.procs.child i np hchild] at huse
    cases huse
  have hempty := h.procs.empty_of_child hchild
  refine ⟨h.refs.setproc hne hempty hheld, h.slots.setproc hne hempty hfresh,
    h.procs.setproc hchild, h.pipes.congr (fun e => ?_) rfl⟩
  have he := update_same (R := R) (i := i) (l := (R i).giveAll files) (·.ends) rfl
  unfold endCount
  simp only [he]
  rfl

end

end Xv6Kernel
