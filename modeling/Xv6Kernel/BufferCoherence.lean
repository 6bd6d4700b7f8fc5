/-
  BufferCoherence.lean
  ====================
  The buffer cache is coherent in every interleaving.

  Two buffers can have the same `dev` and `blockno` only before they are used: then `dev` is -1,
  and of these only the first in the list is ever found (`RingOk`).  So a block has at most one
  buffer that says something about it.  If that buffer is valid and neither dirty nor being
  changed, the disk has the same data, and if there is none, the disk has what the last holder
  left (`DataOk`).
-/
import Xv6Kernel.BufferCache

namespace Xv6Kernel.BufferCache

open RingList Function List

variable {P : Type}

/-! ### The invariant -/

/-- The buffer was never used. -/
structure Buffer.Blank (c : Buffer) : Prop where
  dev : c.key.1 = NODEV
  busy : c.busy = false
  valid : c.valid = false
  dirty : c.dirty = false

/-- All buffers are on the list, and of two with the same key the second is blank. -/
def RingOk (s : State P) : Prop :=
  ∃ l, IsRing s.links l ∧ (∀ b, b ∈ l) ∧
    l.Pairwise fun b c => (s.buf b).key = (s.buf c).key → (s.buf c).Blank

structure HeldOk (s : State P) : Prop where
  busy : ∀ b, (s.buf b).busy = true ↔ ∃ p, b ∈ s.held p
  unique : ∀ p q b, b ∈ s.held p → b ∈ s.held q → p = q
  nodup : ∀ p, (s.held p).Nodup

/-- The buffer for which the process is in `iderw`. -/
def Call.target : Call → Option (Fin NBUF)
  | .iderw b _ => some b
  | .wait b _ => some b
  | _ => none

/-- A process in `iderw` holds the buffer, and the flags are as its caller left them until the
    transfer is done. -/
def CallOk (s : State P) (p : P) : Call → Prop
  | .iderw b reads => b ∈ s.held p ∧ s.changed b = false ∧ b ∉ s.idequeue ∧
      (s.buf b).valid = !reads ∧ (s.buf b).dirty = !reads
  | .wait b reads => b ∈ s.held p ∧ s.changed b = false ∧
      (b ∈ s.idequeue ∧ (s.buf b).valid = !reads ∧ (s.buf b).dirty = !reads ∨
        b ∉ s.idequeue ∧ (s.buf b).valid = true ∧ (s.buf b).dirty = false ∧
          (reads = true → (s.buf b).data = s.left (s.buf b).key))
  | _ => True

structure DataOk (s : State P) : Prop where
  plain : ∀ b, (s.buf b).valid = false → (s.buf b).dirty = false ∧ s.changed b = false
  held : ∀ b, s.changed b = true → (s.buf b).busy = true
  clean : ∀ b, (s.buf b).valid = true → (s.buf b).dirty = false → s.changed b = false →
    s.disk (s.buf b).key = (s.buf b).data
  kept : ∀ b, (s.buf b).valid = true → (s.buf b).busy = false →
    (s.buf b).data = s.left (s.buf b).key
  absent : ∀ k, (∀ b, (s.buf b).key = k → (s.buf b).valid = false) → s.disk k = s.left k

structure Inv (s : State P) : Prop where
  ring : RingOk s
  held : HeldOk s
  calls : ∀ p, CallOk s p (s.call p)
  reading : ∀ p b, b ∈ s.held p → (s.buf b).valid = false →
    s.call p = .iderw b true ∨ s.call p = .wait b true
  queue : ∀ b ∈ s.idequeue, ∃ p reads, s.call p = .wait b reads
  nodup : s.idequeue.Nodup
  data : DataOk s

variable {s s' : State P} {p q : P} {b : Fin NBUF} {k : Key}

/-! ### What it implies -/

theorem RingOk.eq_of_key (h : RingOk s) (hkey : (s.buf b).key = (s.buf c).key)
    (hb : ¬ (s.buf b).Blank) (hc : ¬ (s.buf c).Blank) : b = c := by
  obtain ⟨l, -, hall, hpair⟩ := h
  by_contra hne
  rcases rel_or_rel hpair (hall b) (hall c) hne with hrel | hrel
  · exact hc (hrel hkey)
  · exact hb (hrel hkey.symm)

theorem Buffer.not_blank_of_busy {c : Buffer} (h : c.busy = true) : ¬ c.Blank := fun hc => by
  rw [hc.busy] at h
  cases h

theorem Buffer.not_blank_of_valid {c : Buffer} (h : c.valid = true) : ¬ c.Blank := fun hc => by
  rw [hc.valid] at h
  cases h

theorem HeldOk.busy_of_mem (h : HeldOk s) (hb : b ∈ s.held p) : (s.buf b).busy = true :=
  (h.busy b).mpr ⟨p, hb⟩

/-- A buffer for which a process is in `iderw` is its own. -/
theorem CallOk.mem_held (h : CallOk s p (s.call p)) (hb : (s.call p).target = some b) :
    b ∈ s.held p := by
  cases hcall : s.call p with
  | iderw c reads =>
    rw [hcall] at h hb
    cases hb
    exact h.1
  | wait c reads =>
    rw [hcall] at h hb
    cases hb
    exact h.1
  | _ =>
    rw [hcall] at hb
    cases hb

/-- What `CallOk` says depends on one buffer only. -/
theorem CallOk.frame (h : CallOk s p x)
    (hsame : ∀ b, x.target = some b → b ∈ s.held p → s'.buf b = s.buf b ∧
      s'.changed b = s.changed b ∧ (b ∈ s'.idequeue ↔ b ∈ s.idequeue) ∧ b ∈ s'.held p ∧
      s'.left (s.buf b).key = s.left (s.buf b).key) : CallOk s' p x := by
  cases x with
  | iderw b reads =>
    obtain ⟨hbuf, hchanged, hqueue, hheld, -⟩ := hsame b rfl h.1
    simp only [CallOk] at h ⊢
    rw [hbuf, hchanged, hqueue]
    exact ⟨hheld, h.2⟩
  | wait b reads =>
    obtain ⟨hbuf, hchanged, hqueue, hheld, hleft⟩ := hsame b rfl h.1
    simp only [CallOk] at h ⊢
    rw [hbuf, hchanged, hqueue, hleft]
    exact ⟨hheld, h.2⟩
  | _ => trivial

theorem Inv.eq_of_held (h : Inv s) (hkey : (s.buf b).key = (s.buf c).key) (hb : b ∈ s.held p)
    (hc : c ∈ s.held q) : p = q ∧ b = c := by
  have heq := h.ring.eq_of_key hkey (Buffer.not_blank_of_busy (h.held.busy_of_mem hb))
    (Buffer.not_blank_of_busy (h.held.busy_of_mem hc))
  exact ⟨h.held.unique p q c (heq ▸ hb) hc, heq⟩

/-- The buffers of a process that is not inside a function. -/
theorem Inv.notMem_queue (h : Inv s) (hb : b ∈ s.held p) (hcall : (s.call p).target = none) :
    b ∉ s.idequeue := by
  intro hmem
  obtain ⟨q, reads, hq⟩ := h.queue b hmem
  have hmine := (h.calls q).mem_held (b := b) (by rw [hq]; rfl)
  rw [h.held.unique p q b hb hmine, hq] at hcall
  cases hcall

theorem Inv.valid_of_mem (h : Inv s) (hb : b ∈ s.held p) (hcall : (s.call p).target = none) :
    (s.buf b).valid = true := by
  by_contra hvalid
  rcases h.reading p b hb (Bool.eq_false_of_not_eq_true hvalid) with heq | heq
  · rw [heq] at hcall
    cases hcall
  · rw [heq] at hcall
    cases hcall

section

variable (h : Inv s) (hb : (s.buf b).busy = false)

include h hb

theorem Inv.notMem_held (q : P) : b ∉ s.held q := fun hmem => by
    rw [h.held.busy_of_mem hmem] at hb
    cases hb

theorem Inv.not_changed : s.changed b = false := by
  by_contra hch
  rw [h.data.held b (Bool.eq_true_of_not_eq_false hch)] at hb
  cases hb

theorem Inv.notMem_queue_of_idle : b ∉ s.idequeue := fun hin => by
  obtain ⟨q, reads, hq⟩ := h.queue b hin
  exact h.notMem_held hb q ((h.calls q).mem_held (by rw [hq]; rfl))

end

/-! ### Where the processes are -/

variable [DecidableEq P]

/-- A process that is outside of `iderw` before and after. -/
theorem Inv.setCall (h : Inv s) (hcall : (s.call p).target = none)
    (hx : x.target = none) : Inv (s.setCall p x) := by
  have hoff : ∀ q, q ≠ p → (s.setCall p x).call q = s.call q := fun q hq => update_of_ne hq ..
  refine ⟨h.ring, ⟨h.held.busy, h.held.unique, h.held.nodup⟩, fun q => ?_, fun q b hb hv => ?_,
    fun b hb => ?_, h.nodup, ⟨h.data.plain, h.data.held, h.data.clean, h.data.kept, h.data.absent⟩⟩
  · by_cases hq : q = p
    · rw [hq]
      change CallOk _ p (update s.call p x p)
      rw [update_self]
      exact CallOk.frame (s := s) (by cases x <;> trivial) fun b hb => by rw [hx] at hb; cases hb
    · rw [hoff q hq]
      exact (h.calls q).frame fun b _ hb => ⟨rfl, rfl, Iff.rfl, hb, rfl⟩
  · have hq : q ≠ p := fun hqp => by
      rw [hqp] at hb
      exact absurd hv (by simp [State.setCall, h.valid_of_mem hb hcall])
    rw [hoff q hq]
    exact h.reading q b hb hv
  · obtain ⟨q, reads, hq⟩ := h.queue b hb
    have hqp : q ≠ p := fun hqp => by
      rw [← hqp, hq] at hcall
      cases hcall
    exact ⟨q, reads, (hoff q hqp).trans hq⟩

omit [DecidableEq P] in
theorem wakeup_eq (hx : (s.call p).target.isSome) : (s.wakeup b).call p = s.call p := by
  unfold State.wakeup
  dsimp only
  cases hcall : s.call p with
  | sleep c k =>
    rw [hcall] at hx
    cases hx
  | _ => rfl

omit [DecidableEq P] in
theorem wakeup_target : ((s.wakeup b).call p).target = (s.call p).target := by
  unfold State.wakeup
  dsimp only
  cases s.call p with
  | sleep c k =>
    dsimp only
    split <;> rfl
  | _ => rfl

omit [DecidableEq P] in
theorem Inv.wakeup (h : Inv s) (b : Fin NBUF) : Inv (s.wakeup b) := by
  refine ⟨h.ring, ⟨h.held.busy, h.held.unique, h.held.nodup⟩, fun q => ?_, fun q c hc hv => ?_,
    fun c hc => ?_, h.nodup, ⟨h.data.plain, h.data.held, h.data.clean, h.data.kept, h.data.absent⟩⟩
  · have hq := h.calls q
    cases hcall : s.call q with
    | iderw c reads =>
      rw [wakeup_eq (by rw [hcall]; rfl)]
      exact hq.frame fun c _ hc => ⟨rfl, rfl, Iff.rfl, hc, rfl⟩
    | wait c reads =>
      rw [wakeup_eq (by rw [hcall]; rfl)]
      exact hq.frame fun c _ hc => ⟨rfl, rfl, Iff.rfl, hc, rfl⟩
    | _ =>
      have hnone : ((s.wakeup b).call q).target = none := by
        rw [wakeup_target, hcall]
        rfl
      cases hx : (s.wakeup b).call q <;> first | trivial | (rw [hx] at hnone; cases hnone)
  · have hcall := h.reading q c hc hv
    have hsome : (s.call q).target.isSome := by
      rcases hcall with heq | heq <;> rw [heq] <;> rfl
    rw [wakeup_eq hsome]
    exact hcall
  · obtain ⟨q, reads, hq⟩ := h.queue c hc
    exact ⟨q, reads, (wakeup_eq (by rw [hq]; rfl)).trans hq⟩

/-! ### One buffer changes while it is held -/

omit [DecidableEq P] in
/-- The data on the disk are what the last holder left until the block has been read. -/
theorem Inv.disk_eq_left (h : Inv s) (hb : b ∈ s.held p) (hv : (s.buf b).valid = false) :
    s.disk (s.buf b).key = s.left (s.buf b).key := by
  refine h.data.absent _ fun c hc => ?_
  by_contra hvalid
  have heq := h.ring.eq_of_key hc (Buffer.not_blank_of_valid (Bool.eq_true_of_not_eq_false hvalid))
    (Buffer.not_blank_of_busy (h.held.busy_of_mem hb))
  exact hvalid (heq ▸ hv)

/-- The holder is in its call or leaves it, and the buffer, the queue and the disk change with
    it. -/
structure Change (s s' : State P) (p : P) (b : Fin NBUF) (c : Buffer) (x : Call) : Prop where
  mem : b ∈ s.held p
  buf : s'.buf = update s.buf b c
  call : s'.call = update s.call p x
  links : s'.links = s.links
  held : s'.held = s.held
  left : s'.left = s.left
  key : c.key = (s.buf b).key
  busy : c.busy = true
  disk : ∀ k, k ≠ c.key → s'.disk k = s.disk k
  changed : ∀ d, d ≠ b → s'.changed d = s.changed d
  queue : ∀ d, d ≠ b → (d ∈ s'.idequeue ↔ d ∈ s.idequeue)
  nodup : s'.idequeue.Nodup
  before : ∀ d, (s.call p).target = some d → d = b
  after : CallOk s' p x
  waits : b ∈ s'.idequeue → ∃ reads, x = .wait b reads
  reads : c.valid = false → x = .iderw b true ∨ x = .wait b true
  plain : c.valid = false → c.dirty = false ∧ s'.changed b = false ∧ (s.buf b).valid = false ∧
    s'.disk c.key = s.disk c.key
  clean : c.valid = true → c.dirty = false → s'.changed b = false → s'.disk c.key = c.data

namespace Change

variable {c : Buffer} {x : Call} (h : Inv s) (hc : Change s s' p b c x)

include hc

theorem buf_self : s'.buf b = c := by
  rw [hc.buf, update_self]

theorem buf_of_ne (hd : d ≠ b) : s'.buf d = s.buf d := by
  rw [hc.buf, update_of_ne hd]

theorem key_eq (d : Fin NBUF) : (s'.buf d).key = (s.buf d).key := by
  by_cases hd : d = b
  · rw [hd, hc.buf_self, hc.key]
  · rw [hc.buf_of_ne hd]

theorem call_of_ne (hq : q ≠ p) : s'.call q = s.call q := by
  rw [hc.call, update_of_ne hq]

include h

theorem ring : RingOk s' := by
  obtain ⟨l, hring, hall, hpair⟩ := h.ring
  refine ⟨l, hc.links ▸ hring, hall, hpair.imp fun {d e} hde hkey => ?_⟩
  rw [hc.key_eq, hc.key_eq] at hkey
  have hblank := hde hkey
  by_cases he : e = b
  · rw [he] at hblank
    exact absurd hblank (Buffer.not_blank_of_busy (h.held.busy_of_mem hc.mem))
  · rw [hc.buf_of_ne he]
    exact hblank

theorem heldOk : HeldOk s' := by
  refine ⟨fun d => ?_, ?_, ?_⟩
  · rw [hc.held]
    by_cases hd : d = b
    · rw [hd, hc.buf_self, hc.busy]
      exact ⟨fun _ => ⟨p, hc.mem⟩, fun _ => rfl⟩
    · rw [hc.buf_of_ne hd]
      exact h.held.busy d
  · rw [hc.held]
    exact h.held.unique
  · rw [hc.held]
    exact h.held.nodup

theorem callOk (q : P) : CallOk s' q (s'.call q) := by
  by_cases hq : q = p
  · rw [hq, hc.call, update_self]
    exact hc.after
  · rw [hc.call_of_ne hq]
    refine (h.calls q).frame fun d _ hd => ?_
    have hdb : d ≠ b := fun heq => hq (h.held.unique q p b (heq ▸ hd) hc.mem)
    exact ⟨hc.buf_of_ne hdb, hc.changed d hdb, hc.queue d hdb, hc.held ▸ hd, by rw [hc.left]⟩

theorem readingOk (q : P) (d : Fin NBUF) (hd : d ∈ s'.held q) (hv : (s'.buf d).valid = false) :
    s'.call q = .iderw d true ∨ s'.call q = .wait d true := by
  rw [hc.held] at hd
  by_cases hdb : d = b
  · subst hdb
    rw [h.held.unique q p d hd hc.mem, hc.call, update_self]
    rw [hc.buf_self] at hv
    exact hc.reads hv
  · rw [hc.buf_of_ne hdb] at hv
    have hcall := h.reading q d hd hv
    have hq : q ≠ p := fun hqp => by
      refine hdb (hc.before d ?_)
      rw [← hqp]
      rcases hcall with heq | heq <;> rw [heq] <;> rfl
    rw [hc.call_of_ne hq]
    exact hcall

theorem queueOk (d : Fin NBUF) (hd : d ∈ s'.idequeue) : ∃ q reads, s'.call q = .wait d reads := by
  by_cases hdb : d = b
  · obtain ⟨reads, hx⟩ := hc.waits (hdb ▸ hd)
    refine ⟨p, reads, ?_⟩
    rw [hc.call, update_self, hx, hdb]
  · obtain ⟨q, reads, hq⟩ := h.queue d ((hc.queue d hdb).mp hd)
    have hqp : q ≠ p := fun hqp => hdb (hc.before d (by rw [← hqp, hq]; rfl))
    exact ⟨q, reads, (hc.call_of_ne hqp).trans hq⟩

theorem dataOk : DataOk s' := by
  -- a valid buffer other than `b` has another block
  have hother : ∀ d, d ≠ b → (s.buf d).valid = true → (s.buf d).key ≠ c.key := fun d hd hv heq =>
    hd (h.ring.eq_of_key (heq.trans hc.key) (Buffer.not_blank_of_valid hv)
      (Buffer.not_blank_of_busy (h.held.busy_of_mem hc.mem)))
  refine ⟨fun d hv => ?_, fun d hch => ?_, fun d hv hdirty hch => ?_, fun d hv hbusy => ?_,
    fun k hk => ?_⟩
  · by_cases hd : d = b
    · rw [hd, hc.buf_self] at hv ⊢
      exact ⟨(hc.plain hv).1, (hc.plain hv).2.1⟩
    · rw [hc.buf_of_ne hd] at hv ⊢
      rw [hc.changed d hd]
      exact h.data.plain d hv
  · by_cases hd : d = b
    · rw [hd, hc.buf_self]
      exact hc.busy
    · rw [hc.changed d hd] at hch
      rw [hc.buf_of_ne hd]
      exact h.data.held d hch
  · by_cases hd : d = b
    · rw [hd, hc.buf_self] at hv hdirty ⊢
      exact hc.clean hv hdirty (hd ▸ hch)
    · rw [hc.buf_of_ne hd] at hv hdirty ⊢
      rw [hc.changed d hd] at hch
      rw [hc.disk _ (hother d hd hv)]
      exact h.data.clean d hv hdirty hch
  · have hd : d ≠ b := fun hd => by
      rw [hd, hc.buf_self, hc.busy] at hbusy
      cases hbusy
    rw [hc.buf_of_ne hd] at hv hbusy ⊢
    rw [hc.left]
    exact h.data.kept d hv hbusy
  · have hold : ∀ d, d ≠ b → (s.buf d).key = k → (s.buf d).valid = false := fun d hd hkey => by
      rw [← hc.buf_of_ne hd] at hkey ⊢
      exact hk d hkey
    rw [hc.left]
    by_cases hkey : k = c.key
    · have hv := hk b (by rw [hc.buf_self, hkey])
      rw [hc.buf_self] at hv
      obtain ⟨-, -, hold_b, hdisk⟩ := hc.plain hv
      rw [hkey, hdisk, hc.key]
      exact h.disk_eq_left hc.mem hold_b
    · rw [hc.disk k hkey]
      refine h.data.absent k fun d hd => ?_
      by_cases hdb : d = b
      · exact absurd (hd.symm.trans (by rw [hdb, hc.key])) hkey
      · exact hold d hdb hd

theorem inv : Inv s' :=
  ⟨hc.ring h, hc.heldOk h, hc.callOk h, hc.readingOk h, hc.queueOk h, hc.nodup, hc.dataOk h⟩

end Change

/-- The holder, outside of all functions, writes to the buffer. -/
theorem Inv.write (h : Inv s) (hu : s.Uses p b) {c : Buffer} {m : Bool} {x : Call}
    (hkey : c.key = (s.buf b).key) (hbusy : c.busy = (s.buf b).busy)
    (hvalid : c.valid = (s.buf b).valid) (hd : c.dirty = false → m = true)
    (hx : x = .idle ∨ x = .iderw b false ∧ c.dirty = true ∧ m = false) :
    Inv ({ s.setBuf b c with changed := update s.changed b m }.setCall p x) := by
  obtain ⟨hidle, hmem⟩ := hu
  have hnone : (s.call p).target = none := by
    rw [hidle]
    rfl
  have hv := h.valid_of_mem hmem hnone
  have hnew : c.valid ≠ false := by
    rw [hvalid, hv]
    simp
  have hqueue := h.notMem_queue hmem hnone
  refine Change.inv (c := c) (x := x) (p := p) (b := b) h
    { mem := hmem, buf := rfl, call := rfl, links := rfl, held := rfl, left := rfl, key := hkey
      busy := hbusy.trans (h.held.busy_of_mem hmem), disk := fun _ _ => rfl
      changed := fun d hd => update_of_ne hd .., queue := fun _ _ => Iff.rfl
      nodup := h.nodup, before := fun d hd => by rw [hnone] at hd; cases hd
      after := ?_, waits := fun hin => absurd hin hqueue, reads := fun hf => absurd hf hnew
      plain := fun hf => absurd hf hnew, clean := fun _ hdirty hch => ?_ }
  · rcases hx with rfl | ⟨rfl, hdirty, hch⟩
    · trivial
    · refine ⟨hmem, ?_, hqueue, ?_, ?_⟩
      · change update s.changed b m b = false
        rw [update_self, hch]
      · change (update s.buf b c b).valid = true
        rw [update_self, hvalid, hv]
      · change (update s.buf b c b).dirty = true
        rw [update_self, hdirty]
  · change update s.changed b m b = false at hch
    rw [update_self, hd hdirty] at hch
    cases hch

/-- The first part of `iderw`. -/
theorem Inv.enqueue (h : Inv s) (hcall : s.call p = .iderw b reads) :
    Inv ({ s with idequeue := s.idequeue ++ [b] }.setCall p (.wait b reads)) := by
  have hok := h.calls p
  rw [hcall] at hok
  obtain ⟨hmem, hch, hqueue, hvalid, hdirty⟩ := hok
  refine Change.inv (c := s.buf b) (x := .wait b reads) (p := p) (b := b) h
    { mem := hmem, buf := (update_eq_self ..).symm, call := rfl, links := rfl, held := rfl
      left := rfl, key := rfl, busy := h.held.busy_of_mem hmem, disk := fun _ _ => rfl
      changed := fun _ _ => rfl, queue := fun d hd => ?_, nodup := ?_
      before := fun d hd => ?_
      after := ⟨hmem, hch, .inl ⟨mem_append_right _ mem_cons_self, hvalid, hdirty⟩⟩
      waits := fun _ => ⟨reads, rfl⟩, reads := fun hf => .inr ?_
      plain := fun hf => ⟨(h.data.plain b hf).1, hch, hf, rfl⟩, clean := h.data.clean b }
  · change d ∈ s.idequeue ++ [b] ↔ _
    rw [mem_append, mem_singleton]
    exact or_iff_left hd
  · exact nodup_append.mpr ⟨h.nodup, nodup_singleton b,
      fun c hc d hd hcd => hqueue (mem_singleton.mp hd ▸ hcd ▸ hc)⟩
  · rw [hcall] at hd
    exact (Option.some.inj hd).symm
  · cases reads with
    | true => rfl
    | false =>
      rw [hvalid] at hf
      cases hf

/-- The transfer of a buffer is done. -/
theorem Inv.complete (h : Inv s) {queue : List (Fin NBUF)} (hq : s.idequeue = b :: queue) :
    Inv (s.complete b queue) := by
  obtain ⟨p, reads, hcall⟩ := h.queue b (by rw [hq]; exact mem_cons_self)
  have hok := h.calls p
  rw [hcall] at hok
  obtain ⟨hmem, hch, hflags⟩ := hok
  have hin : b ∈ s.idequeue := by
    rw [hq]
    exact mem_cons_self
  obtain ⟨hnotin, hnodup⟩ := nodup_cons.mp (hq ▸ h.nodup)
  obtain ⟨-, hvalid, hdirty⟩ := hflags.resolve_right fun hout => hout.1 hin
  refine Inv.wakeup ?_ b
  have hbefore : ∀ d, (s.call p).target = some d → d = b := fun d hd => by
    rw [hcall] at hd
    exact (Option.some.inj hd).symm
  have hmemq : ∀ d, d ≠ b → (d ∈ queue ↔ d ∈ s.idequeue) := fun d hd => by
    rw [hq, mem_cons]
    exact (or_iff_right hd).symm
  refine Change.inv (c := { s.buf b with
      data := if (s.buf b).dirty then (s.buf b).data else s.disk (s.buf b).key
      valid := true, dirty := false }) (x := s.call p) (p := p) (b := b) h
    { mem := hmem, buf := rfl, call := (update_eq_self ..).symm, links := rfl
      held := rfl, left := rfl, key := rfl, busy := h.held.busy_of_mem hmem
      disk := fun k hk => ?_, changed := fun _ _ => rfl, queue := hmemq, nodup := hnodup
      before := hbefore, after := ?_, waits := fun hin => absurd hin hnotin, reads := nofun
      plain := nofun, clean := fun _ _ _ => ?_ }
  · dsimp only [State.setBuf]
    split
    · exact update_of_ne hk ..
    · rfl
  · rw [hcall]
    refine ⟨hmem, hch, .inr ⟨hnotin, ?_, ?_, fun hreads => ?_⟩⟩
    · simp [State.setBuf]
    · simp [State.setBuf]
    · -- a read: nobody else has the block
      rw [hreads] at hvalid hdirty
      simp only [State.setBuf, update_self]
      rw [if_neg (by simp [hdirty])]
      exact h.disk_eq_left hmem hvalid
  · dsimp only [State.setBuf]
    split
    · exact update_self ..
    · rfl

/-- `iderw` returns. -/
theorem Inv.finish (h : Inv s) (hcall : s.call p = .wait b reads)
    (hv : (s.buf b).valid = true) (hd : (s.buf b).dirty = false) : Inv (s.setCall p .idle) := by
  have hok := h.calls p
  rw [hcall] at hok
  obtain ⟨hmem, hch, hflags⟩ := hok
  have hqueue : b ∉ s.idequeue := fun hin => by
    obtain ⟨-, hvalid, hdirty⟩ := hflags.resolve_right fun hout => hout.1 hin
    rw [hd] at hdirty
    rw [hv, ← hdirty] at hvalid
    cases hvalid
  refine Change.inv (c := s.buf b) (x := .idle) (p := p) (b := b) h
    { mem := hmem, buf := (update_eq_self ..).symm, call := rfl, links := rfl, held := rfl
      left := rfl, key := rfl, busy := h.held.busy_of_mem hmem, disk := fun _ _ => rfl
      changed := fun _ _ => rfl, queue := fun _ _ => Iff.rfl, nodup := h.nodup
      before := fun d hd => ?_, after := trivial, waits := fun hin => absurd hin hqueue
      reads := fun hf => absurd (hv.symm.trans hf) nofun
      plain := fun hf => absurd (hv.symm.trans hf) nofun, clean := h.data.clean b }
  rw [hcall] at hd
  exact (Option.some.inj hd).symm

/-! ### A process gets a buffer -/

omit [DecidableEq P] in
theorem RingOk.cached_eq (h : RingOk s) : ∃ l, IsRing s.links l ∧ (∀ b, b ∈ l) ∧
    (l.Pairwise fun b c => (s.buf b).key = (s.buf c).key → (s.buf c).Blank) ∧
    s.cached k = l.find? fun b => decide ((s.buf b).key = k) := by
  obtain ⟨l, hring, hall, hpair⟩ := h
  have hlen : l.length ≤ NBUF := by
    have := List.Nodup.length_le_card hring.nodup
    simpa using this
  exact ⟨l, hring, hall, hpair, hring.seg.walk_next (Nat.lt_succ_of_le hlen)⟩

omit [DecidableEq P] in
theorem RingOk.key_ne (h : RingOk s) (hnone : s.cached k = none) (b : Fin NBUF) :
    (s.buf b).key ≠ k := by
  obtain ⟨l, -, hall, -, hfind⟩ := h.cached_eq (k := k)
  rw [hnone] at hfind
  have := find?_eq_none.mp hfind.symm b (hall b)
  simpa using this

/-- A buffer that nobody holds goes to a process that has been in `bget`. -/
structure Taken (s s' : State P) (p : P) (b : Fin NBUF) (c : Buffer) (x : Call) : Prop where
  target : (s.call p).target = none
  idle : (s.buf b).busy = false
  buf : s'.buf = update s.buf b c
  call : s'.call = update s.call p x
  links : s'.links = s.links
  held : s'.held = update s.held p (b :: s.held p)
  left : s'.left = s.left
  disk : s'.disk = s.disk
  changed : s'.changed = s.changed
  queue : s'.idequeue = s.idequeue
  busy : c.busy = true
  ring : RingOk s'
  data : DataOk s'
  after : x = .idle ∧ c.valid = true ∨ x = .iderw b true ∧ c.valid = false ∧ c.dirty = false

namespace Taken

variable {c : Buffer} {x : Call} (h : Inv s) (hc : Taken s s' p b c x)

include hc

theorem buf_of_ne (hd : d ≠ b) : s'.buf d = s.buf d := by
  rw [hc.buf, update_of_ne hd]

theorem mem_held : d ∈ s'.held q ↔ q = p ∧ d = b ∨ d ∈ s.held q := by
  rw [hc.held]
  by_cases hq : q = p
  · rw [hq, update_self, mem_cons]
    simp
  · rw [update_of_ne hq]
    simp [hq]

include h

theorem heldOk : HeldOk s' := by
  refine ⟨fun d => ?_, fun q r d hq hr => ?_, fun q => ?_⟩
  · by_cases hd : d = b
    · rw [hd, hc.buf, update_self, hc.busy]
      exact ⟨fun _ => ⟨p, hc.mem_held.mpr (.inl ⟨rfl, rfl⟩)⟩, fun _ => rfl⟩
    · rw [hc.buf_of_ne hd, h.held.busy d]
      refine exists_congr fun q => ?_
      rw [hc.mem_held]
      exact (or_iff_right fun hq => hd hq.2).symm
  · rcases hc.mem_held.mp hq with ⟨rfl, rfl⟩ | hq
    · rcases hc.mem_held.mp hr with ⟨rfl, -⟩ | hr
      · rfl
      · exact absurd hr (h.notMem_held hc.idle r)
    · rcases hc.mem_held.mp hr with ⟨rfl, rfl⟩ | hr
      · exact absurd hq (h.notMem_held hc.idle q)
      · exact h.held.unique q r d hq hr
  · rw [hc.held]
    by_cases hq : q = p
    · rw [hq, update_self]
      exact nodup_cons.mpr ⟨h.notMem_held hc.idle p, h.held.nodup p⟩
    · rw [update_of_ne hq]
      exact h.held.nodup q

theorem callOk (q : P) : CallOk s' q (s'.call q) := by
  rw [hc.call]
  by_cases hq : q = p
  · rw [hq, update_self]
    rcases hc.after with ⟨rfl, -⟩ | ⟨rfl, hvalid, hdirty⟩
    · trivial
    · refine ⟨hc.mem_held.mpr (.inl ⟨rfl, rfl⟩), ?_, ?_, ?_, ?_⟩
      · rw [hc.changed]
        exact h.not_changed hc.idle
      · rw [hc.queue]
        exact h.notMem_queue_of_idle hc.idle
      · rw [hc.buf, update_self, hvalid]
        rfl
      · rw [hc.buf, update_self, hdirty]
        rfl
  · rw [update_of_ne hq]
    refine (h.calls q).frame fun d _ hd => ?_
    have hdb : d ≠ b := fun heq => h.notMem_held hc.idle q (heq ▸ hd)
    exact ⟨hc.buf_of_ne hdb, by rw [hc.changed], by rw [hc.queue], hc.mem_held.mpr (.inr hd),
      by rw [hc.left]⟩

theorem readingOk (q : P) (d : Fin NBUF) (hd : d ∈ s'.held q) (hv : (s'.buf d).valid = false) :
    s'.call q = .iderw d true ∨ s'.call q = .wait d true := by
  rcases hc.mem_held.mp hd with ⟨rfl, rfl⟩ | hd
  · rw [hc.buf, update_self] at hv
    rw [hc.call, update_self]
    rcases hc.after with ⟨-, hvalid⟩ | ⟨rfl, -⟩
    · exact absurd (hv.symm.trans hvalid) nofun
    · exact .inl rfl
  · have hdb : d ≠ b := fun heq => h.notMem_held hc.idle q (heq ▸ hd)
    rw [hc.buf_of_ne hdb] at hv
    have hq : q ≠ p := fun hqp => by
      rw [hqp] at hd
      rw [h.valid_of_mem hd hc.target] at hv
      cases hv
    rw [hc.call, update_of_ne hq]
    exact h.reading q d hd hv

theorem inv : Inv s' := by
  refine ⟨hc.ring, hc.heldOk h, hc.callOk h, hc.readingOk h, fun d hd => ?_, hc.queue ▸ h.nodup,
    hc.data⟩
  rw [hc.queue] at hd
  obtain ⟨q, reads, hq⟩ := h.queue d hd
  have hqp : q ≠ p := fun hqp => by
    have := hc.target
    rw [← hqp, hq] at this
    cases this
  refine ⟨q, reads, ?_⟩
  rw [hc.call, update_of_ne hqp]
  exact hq

end Taken

/-- `bget` finds the block in a buffer that is not busy. -/
theorem Inv.takeCached (h : Inv s) (hcall : (s.call p).target = none)
    (hfound : s.cached k = some b) (hidle : (s.buf b).busy = false)
    (hx : x = .idle ∧ (s.buf b).valid = true ∨ x = .iderw b true ∧ (s.buf b).valid = false) :
    Inv (((s.setBuf b { s.buf b with busy := true }).take p b).setCall p x) := by
  have hbuf : ∀ d, d ≠ b → update s.buf b { s.buf b with busy := true } d = s.buf d :=
    fun d hd => update_of_ne hd ..
  have hself : update s.buf b { s.buf b with busy := true } b =
      { s.buf b with busy := true } := update_self ..
  refine Taken.inv (c := { s.buf b with busy := true }) (x := x) (p := p) (b := b) h
    { target := hcall, idle := hidle, buf := rfl, call := rfl, links := rfl, held := rfl
      left := rfl, disk := rfl, changed := rfl, queue := rfl, busy := rfl, ring := ?_, data := ?_
      after := ?_ }
  · obtain ⟨l, hring, hall, hpair, hfind⟩ := h.ring.cached_eq (k := k)
    have hkey : (s.buf b).key = k := by
      have := find?_some (hfind.symm.trans hfound)
      simpa using this
    -- the buffer is the first with the block, so nothing before it has the block
    have hfirst := pairwise_find hring.nodup (hfind.symm.trans hfound)
    refine ⟨l, hring, hall, (hpair.and hfirst).imp fun {d e} hde heq => ?_⟩
    change (update s.buf b _ d).key = (update s.buf b _ e).key at heq
    have hsame : ∀ d, (update s.buf b { s.buf b with busy := true } d).key =
        (s.buf d).key := fun d => by
      by_cases hd : d = b
      · rw [hd, hself]
      · rw [hbuf d hd]
    rw [hsame, hsame] at heq
    by_cases he : e = b
    · have hd := hde.2 he
      rw [heq, he, hkey] at hd
      simp at hd
    · change (update s.buf b _ e).Blank
      rw [hbuf e he]
      exact hde.1 heq
  · have hsame : ∀ d, update s.buf b { s.buf b with busy := true } d =
        { s.buf d with busy := (update s.buf b { s.buf b with busy := true } d).busy } :=
      fun d => by
        by_cases hd : d = b
        · rw [hd, hself]
        · rw [hbuf d hd]
    refine ⟨fun d hv => ?_, fun d hch => ?_, fun d => ?_, fun d hv hb => ?_, fun k hk => ?_⟩
    · change (update s.buf b _ d).valid = false at hv
      change (update s.buf b _ d).dirty = false ∧ _
      rw [hsame] at hv ⊢
      exact h.data.plain d hv
    · have hd : d ≠ b := fun hd => by
        rw [hd] at hch
        exact absurd (hch.symm.trans (h.not_changed hidle)) nofun
      change (update s.buf b _ d).busy = true
      rw [hbuf d hd]
      exact h.data.held d hch
    · change (update s.buf b _ d).valid = true → (update s.buf b _ d).dirty = false → _ →
        s.disk (update s.buf b _ d).key = (update s.buf b _ d).data
      rw [hsame]
      exact h.data.clean d
    · change (update s.buf b _ d).busy = false at hb
      have hd : d ≠ b := fun hd => by
        rw [hd, hself] at hb
        cases hb
      change (update s.buf b _ d).valid = true at hv
      change (update s.buf b _ d).data = s.left (update s.buf b _ d).key
      rw [hbuf d hd] at hv hb ⊢
      exact h.data.kept d hv hb
    · refine h.data.absent k fun d hd => ?_
      have hnew := hk d
      change (update s.buf b _ d).key = k → (update s.buf b _ d).valid = false at hnew
      rw [hsame] at hnew
      exact hnew hd
  · rcases hx with ⟨hx, hv⟩ | ⟨hx, hv⟩
    · exact .inl ⟨hx, hv⟩
    · exact .inr ⟨hx, hv, (h.data.plain b hv).1⟩

/-- `bget` gives a buffer another block. -/
theorem Inv.recycle (h : Inv s) (hcall : (s.call p).target = none) (hnone : s.cached k = none)
    (hidle : (s.buf b).busy = false) (hclean : (s.buf b).dirty = false) :
    Inv (((s.setBuf b { s.buf b with key := k, busy := true, valid := false, dirty := false }).take
      p b).setCall p (.iderw b true)) := by
  have hfree := h.ring.key_ne hnone
  have hch := h.not_changed hidle
  generalize hc : ({ s.buf b with key := k, busy := true, valid := false, dirty := false } :
    Buffer) = c
  obtain ⟨hkey, hbusy, hvalid, hdirty⟩ : c.key = k ∧ c.busy = true ∧ c.valid = false ∧
    c.dirty = false := by
    subst hc
    exact ⟨rfl, rfl, rfl, rfl⟩
  have hbuf : ∀ d, d ≠ b → update s.buf b c d = s.buf d := fun d hd => update_of_ne hd ..
  have hself : update s.buf b c b = c := update_self ..
  refine Taken.inv (c := c) (x := .iderw b true) (p := p) (b := b) h
    { target := hcall, idle := hidle, buf := rfl, call := rfl, links := rfl, held := rfl
      left := rfl, disk := rfl, changed := rfl, queue := rfl, busy := hbusy, ring := ?_, data := ?_
      after := .inr ⟨rfl, hvalid, hdirty⟩ }
  · obtain ⟨l, hring, hall, hpair⟩ := h.ring
    refine ⟨l, hring, hall, (hpair.and hring.nodup).imp fun {d e} hde heq => ?_⟩
    change (update s.buf b c d).key = (update s.buf b c e).key at heq
    change (update s.buf b c e).Blank
    -- no other buffer has the block
    have he : e ≠ b := fun he => by
      rw [he, hself, hkey, hbuf d (he ▸ hde.2)] at heq
      exact hfree d heq
    have hd : d ≠ b := fun hd => by
      rw [hd, hself, hkey, hbuf e he] at heq
      exact hfree e heq.symm
    rw [hbuf d hd, hbuf e he] at heq
    rw [hbuf e he]
    exact hde.1 heq
  · refine ⟨fun d hv => ?_, fun d hd => ?_, fun d hv hd hchd => ?_, fun d hv hb => ?_,
      fun k' hk => ?_⟩
    · change (update s.buf b c d).valid = false at hv
      change (update s.buf b c d).dirty = false ∧ s.changed d = false
      by_cases hd : d = b
      · rw [hd, hself]
        exact ⟨hdirty, hch⟩
      · rw [hbuf d hd] at hv ⊢
        exact h.data.plain d hv
    · have hne : d ≠ b := fun heq => by
        rw [heq] at hd
        exact absurd (hd.symm.trans hch) nofun
      change (update s.buf b c d).busy = true
      rw [hbuf d hne]
      exact h.data.held d hd
    · change (update s.buf b c d).valid = true at hv
      change (update s.buf b c d).dirty = false at hd
      change s.disk (update s.buf b c d).key = (update s.buf b c d).data
      have hne : d ≠ b := fun heq => by
        rw [heq, hself, hvalid] at hv
        cases hv
      rw [hbuf d hne] at hv hd ⊢
      exact h.data.clean d hv hd hchd
    · change (update s.buf b c d).valid = true at hv
      change (update s.buf b c d).busy = false at hb
      change (update s.buf b c d).data = s.left (update s.buf b c d).key
      have hne : d ≠ b := fun heq => by
        rw [heq, hself, hvalid] at hv
        cases hv
      rw [hbuf d hne] at hv hb ⊢
      exact h.data.kept d hv hb
    · change s.disk k' = s.left k'
      by_cases hold : (s.buf b).key = k' ∧ (s.buf b).valid = true
      · -- the buffer was clean, so the disk has its data
        rw [← hold.1, h.data.clean b hold.2 hclean hch, h.data.kept b hold.2 hidle]
      · refine h.data.absent k' fun d hd => ?_
        by_cases hdb : d = b
        · rw [hdb] at hd ⊢
          exact Bool.eq_false_of_not_eq_true fun hv => hold ⟨hd, hv⟩
        · have hnew := hk d
          change (update s.buf b c d).key = k' → (update s.buf b c d).valid = false at hnew
          rw [hbuf d hdb] at hnew
          exact hnew hd

/-! ### A buffer is given back -/

omit [DecidableEq P] in
theorem RingOk.brelse (h : RingOk s) (hb : (s.buf b).busy = true) {held : P → List (Fin NBUF)} :
    RingOk ({ s with
      left := left, held := held
      links := (s.links.unlink b).pushFront b }.setBuf b { s.buf b with busy := false }) := by
  obtain ⟨l, hring, hall, hpair⟩ := h
  have hother : ∀ d, d ≠ b → update s.buf b { s.buf b with busy := false } d = s.buf d :=
    fun d hd => update_of_ne hd ..
  have hself : update s.buf b { s.buf b with busy := false } b =
      { s.buf b with busy := false } := update_self ..
  refine ⟨b :: l.erase b, hring.moveToFront (hall b), fun d => ?_, pairwise_cons.mpr
    ⟨fun d hd hkey => ?_, ?_⟩⟩
  · by_cases hd : d = b
    · exact hd ▸ mem_cons_self
    · exact mem_cons_of_mem b ((mem_erase_of_ne hd).mpr (hall d))
  · have hdb : d ≠ b := fun heq => List.Nodup.not_mem_erase hring.nodup (heq ▸ hd)
    change (update s.buf b _ b).key = (update s.buf b _ d).key at hkey
    change (update s.buf b _ d).Blank
    rw [hself, hother d hdb] at hkey
    rw [hother d hdb]
    rcases rel_or_rel hpair (hall b) (hall d) hdb.symm with hrel | hrel
    · exact hrel hkey
    · exact absurd (hrel hkey.symm) (Buffer.not_blank_of_busy hb)
  · refine (hpair.sublist erase_sublist).imp_of_mem fun {d e} hd he hde hkey => ?_
    have hdb : d ≠ b := fun heq => List.Nodup.not_mem_erase hring.nodup (heq ▸ hd)
    have heb : e ≠ b := fun heq => List.Nodup.not_mem_erase hring.nodup (heq ▸ he)
    change (update s.buf b _ d).key = (update s.buf b _ e).key at hkey
    change (update s.buf b _ e).Blank
    rw [hother d hdb, hother e heb] at hkey
    rw [hother e heb]
    exact hde hkey

theorem Inv.brelse (h : Inv s) (hu : s.Uses p b) (hch : s.changed b = false) :
    Inv (s.brelseStep p b) := by
  obtain ⟨hidle, hmem⟩ := hu
  have hnone : (s.call p).target = none := by
    rw [hidle]
    rfl
  have hv := h.valid_of_mem hmem hnone
  have hbusy := h.held.busy_of_mem hmem
  refine Inv.wakeup ?_ b
  generalize hc : ({ s.buf b with busy := false } : Buffer) = c
  obtain ⟨hkey, hnew, hvalid, hdirty, hdata⟩ : c.key = (s.buf b).key ∧ c.busy = false ∧
    c.valid = (s.buf b).valid ∧ c.dirty = (s.buf b).dirty ∧ c.data = (s.buf b).data := by
    subst hc
    exact ⟨rfl, rfl, rfl, rfl, rfl⟩
  have hother : ∀ d, d ≠ b → update s.buf b c d = s.buf d := fun d hd => update_of_ne hd ..
  have hself : update s.buf b c b = c := update_self ..
  have hheld : ∀ q d, d ∈ update s.held p ((s.held p).erase b) q ↔
      d ∈ s.held q ∧ d ≠ b := fun q d => by
    by_cases hq : q = p
    · rw [hq, update_self, (h.held.nodup p).mem_erase_iff]
      exact and_comm
    · rw [update_of_ne hq]
      exact ⟨fun hd => ⟨hd, fun heq => hq (h.held.unique q p b (heq ▸ hd) hmem)⟩, And.left⟩
  -- a buffer with something in it has another block than `b`
  have hleft : ∀ d, d ≠ b → ¬ (s.buf d).Blank →
      update s.left (s.buf b).key (s.buf b).data (s.buf d).key =
        s.left (s.buf d).key := fun d hd hblank =>
    update_of_ne (fun heq => hd (h.ring.eq_of_key heq hblank (Buffer.not_blank_of_busy hbusy))) ..
  refine ⟨hc ▸ h.ring.brelse hbusy, ⟨fun d => ?_, fun q r d hq hr => ?_, fun q => ?_⟩, fun q => ?_,
    fun q d hd hvd => ?_, h.queue, h.nodup, ⟨fun d hvd => ?_, fun d hchd => ?_,
      fun d hvd hdd hchd => ?_, fun d hvd hbd => ?_, fun k hk => ?_⟩⟩
  · change (update s.buf b c d).busy = true ↔ ∃ q, d ∈ update s.held p _ q
    by_cases hd : d = b
    · rw [hd, hself, hnew]
      exact ⟨nofun, fun ⟨q, hq⟩ => absurd rfl ((hheld q b).mp hq).2⟩
    · rw [hother d hd, h.held.busy d]
      exact exists_congr fun q => ((hheld q d).trans (and_iff_left hd)).symm
  · exact h.held.unique q r d ((hheld q d).mp hq).1 ((hheld r d).mp hr).1
  · change (update s.held p ((s.held p).erase b) q).Nodup
    by_cases hq : q = p
    · rw [hq, update_self]
      exact (h.held.nodup p).erase b
    · rw [update_of_ne hq]
      exact h.held.nodup q
  · refine (h.calls q).frame fun d hd hdq => ?_
    have hdb : d ≠ b := fun heq => by
      rw [heq] at hdq hd
      rw [h.held.unique q p b hdq hmem, hnone] at hd
      cases hd
    exact ⟨hother d hdb, rfl, Iff.rfl, (hheld q d).mpr ⟨hdq, hdb⟩,
      hleft d hdb (Buffer.not_blank_of_busy (h.held.busy_of_mem hdq))⟩
  · obtain ⟨hdq, hdb⟩ := (hheld q d).mp hd
    change (update s.buf b c d).valid = false at hvd
    rw [hother d hdb] at hvd
    exact h.reading q d hdq hvd
  · change (update s.buf b c d).valid = false at hvd
    change (update s.buf b c d).dirty = false ∧ s.changed d = false
    have hdb : d ≠ b := fun heq => by
      rw [heq, hself, hvalid, hv] at hvd
      cases hvd
    rw [hother d hdb] at hvd ⊢
    exact h.data.plain d hvd
  · have hdb : d ≠ b := fun heq => by
      change s.changed d = true at hchd
      rw [heq, hch] at hchd
      cases hchd
    change (update s.buf b c d).busy = true
    rw [hother d hdb]
    exact h.data.held d hchd
  · change (update s.buf b c d).valid = true at hvd
    change (update s.buf b c d).dirty = false at hdd
    change s.disk (update s.buf b c d).key = (update s.buf b c d).data
    by_cases hdb : d = b
    · rw [hdb] at hvd hdd hchd ⊢
      rw [hself] at hvd hdd ⊢
      rw [hkey, hdata]
      exact h.data.clean b hv (hdirty ▸ hdd) hchd
    · rw [hother d hdb] at hvd hdd ⊢
      exact h.data.clean d hvd hdd hchd
  · change (update s.buf b c d).valid = true at hvd
    change (update s.buf b c d).busy = false at hbd
    change (update s.buf b c d).data = update s.left _ _ (update s.buf b c d).key
    by_cases hdb : d = b
    · rw [hdb, hself, hkey, update_self, hdata]
    · rw [hother d hdb] at hvd hbd ⊢
      rw [hleft d hdb (Buffer.not_blank_of_valid hvd)]
      exact h.data.kept d hvd hbd
  · change s.disk k = update s.left _ _ k
    have hkb : k ≠ (s.buf b).key := fun heq => by
      have hfalse := hk b
      change (update s.buf b c b).key = k → (update s.buf b c b).valid = false at hfalse
      rw [hself, hkey, hvalid, hv] at hfalse
      exact absurd (hfalse heq.symm) nofun
    rw [update_of_ne hkb]
    refine h.data.absent k fun d hd => ?_
    have hdb : d ≠ b := fun heq => hkb (heq ▸ hd.symm)
    have hold := hk d
    change (update s.buf b c d).key = k → (update s.buf b c d).valid = false at hold
    rw [hother d hdb] at hold
    exact hold hd

/-! ### All runs -/

theorem binit_isRing : IsRing binit (List.finRange NBUF).reverse := by
  have hempty : IsRing (⟨fun _ => none, fun _ => none⟩ : Links (Fin NBUF)) [] :=
    ⟨⟨rfl, rfl⟩, nodup_nil⟩
  have hnodup : ((List.finRange NBUF).reverse ++ []).Nodup := by
    rw [append_nil]
    exact nodup_reverse.mpr (nodup_finRange NBUF)
  have hring := hempty.foldl_pushFront hnodup
  rw [append_nil] at hring
  exact hring

omit [DecidableEq P] in
theorem Booted.inv (h : Booted s) : Inv s := by
  have hblank : ∀ b, (s.buf b).Blank := fun b => by
    rw [h.buf b]
    exact ⟨rfl, rfl, rfl, rfl⟩
  refine ⟨⟨_, h.links ▸ binit_isRing, fun b => mem_reverse.mpr (mem_finRange b),
    pairwise_of_forall_mem_list fun _ _ c _ _ => hblank c⟩, ⟨fun b => ?_, fun p q b hb => ?_,
      fun p => ?_⟩, fun p => ?_, fun p b hb => ?_, fun b hb => ?_, ?_,
    ⟨fun b _ => ⟨(hblank b).dirty, h.changed b⟩, fun b hb => ?_, fun b hv => ?_, fun b hv => ?_,
      fun k _ => by rw [h.left]⟩⟩
  · rw [(hblank b).busy]
    refine ⟨nofun, fun ⟨p, hp⟩ => ?_⟩
    rw [h.held p] at hp
    cases hp
  · rw [h.held p] at hb
    cases hb
  · rw [h.held p]
    exact nodup_nil
  · rw [h.call p]
    trivial
  · rw [h.held p] at hb
    cases hb
  · rw [h.queue] at hb
    cases hb
  · rw [h.queue]
    exact nodup_nil
  · rw [h.changed b] at hb
    cases hb
  · rw [(hblank b).valid] at hv
    cases hv
  · rw [(hblank b).valid] at hv
    cases hv

/-- What `bread` returns is what the last holder left. -/
def Fresh (s : State P) (ev : List (Event P)) : Prop :=
  ∀ e ∈ ev, e.data = s.left e.key

/-- `bget` keeps the invariant, returns what the last holder left, and recycles no buffer that is
    dirty. -/
theorem Inv.bget (h : Inv s) (hcall : s.call p = .bget k) (hstep : s.bgetStep p k = some (s', ev)) :
    Inv s' ∧ Fresh s ev ∧ ∀ b, (s.buf b).dirty = true → (s'.buf b).key = (s.buf b).key := by
  have hnone : (s.call p).target = none := by
    rw [hcall]
    rfl
  unfold State.bgetStep at hstep
  cases hfound : s.cached k with
  | some b =>
    rw [hfound] at hstep
    dsimp only at hstep
    by_cases hbusy : (s.buf b).busy = true
    · rw [if_pos hbusy] at hstep
      cases hstep
      exact ⟨h.setCall hnone rfl, nofun, fun _ _ => rfl⟩
    · rw [if_neg hbusy] at hstep
      have hidle := Bool.eq_false_of_not_eq_true hbusy
      have hbuf : ((s.setBuf b { s.buf b with busy := true }).take p b).buf b =
          { s.buf b with busy := true } := update_self ..
      have hkeys : ∀ d, (((s.setBuf b { s.buf b with busy := true }).take p b).buf d).key =
          (s.buf d).key := fun d => by
        by_cases hd : d = b
        · rw [hd, hbuf]
        · exact congrArg Buffer.key (update_of_ne hd ..)
      rw [hbuf] at hstep
      by_cases hv : (s.buf b).valid = true
      · rw [if_pos hv] at hstep
        cases hstep
        refine ⟨h.takeCached hnone hfound hidle (.inl ⟨rfl, hv⟩), fun e he => ?_,
          fun d _ => hkeys d⟩
        obtain ⟨l, -, -, -, hfind⟩ := h.ring.cached_eq (k := k)
        have hkey : (s.buf b).key = k := by
          have := find?_some (hfind.symm.trans hfound)
          simpa using this
        rw [mem_singleton.mp he, ← hkey]
        exact h.data.kept b hv hidle
      · rw [if_neg hv] at hstep
        cases hstep
        exact ⟨h.takeCached hnone hfound hidle (.inr ⟨rfl, Bool.eq_false_of_not_eq_true hv⟩),
          nofun, fun d _ => hkeys d⟩
  | none =>
    rw [hfound] at hstep
    dsimp only at hstep
    cases hfree : s.unused with
    | none =>
      rw [hfree] at hstep
      cases hstep
    | some b =>
      rw [hfree] at hstep
      cases hstep
      have hflags := walk_found hfree
      simp only [Bool.and_eq_true, Bool.not_eq_true'] at hflags
      refine ⟨h.recycle hnone hfound hflags.1 hflags.2, nofun, fun d hd => ?_⟩
      have hdb : d ≠ b := fun heq => by
        rw [heq, hflags.2] at hd
        cases hd
      exact congrArg Buffer.key (update_of_ne hdb ..)

omit [DecidableEq P] in
/-- A change of the holder leaves the block of every buffer alone. -/
theorem key_of_update {c : Buffer} (hbuf : s'.buf = update s.buf b c)
    (hkey : c.key = (s.buf b).key) (d : Fin NBUF) : (s'.buf d).key = (s.buf d).key := by
  rw [hbuf]
  by_cases hd : d = b
  · rw [hd, update_self, hkey]
  · rw [update_of_ne hd]

theorem Inv.of_setCall_idle (h : Inv (s.setCall p .idle)) (hidle : s.call p = .idle) : Inv s := by
  unfold State.setCall at h
  rw [← hidle, update_eq_self] at h
  exact h

/-- Every step keeps the invariant, returns what the last holder left, and recycles no buffer that
    is dirty. -/
theorem Inv.step (h : Inv s) {a : Act P} {ev : List (Event P)} (hstep : s.step a = some (s', ev)) :
    Inv s' ∧ Fresh s ev ∧ ∀ b, (s.buf b).dirty = true → (s'.buf b).key = (s.buf b).key := by
  cases a with
  | bread p k =>
    change (if s.call p = .idle then some (s.setCall p (.bget k), []) else none) = _ at hstep
    split at hstep
    · rename_i hidle
      cases hstep
      exact ⟨h.setCall (by rw [hidle]; rfl) rfl, nofun, fun _ _ => rfl⟩
    · cases hstep
  | bget p =>
    dsimp only [State.step] at hstep
    cases hcall : s.call p with
    | bget k =>
      rw [hcall] at hstep
      exact h.bget hcall hstep
    | _ =>
      rw [hcall] at hstep
      cases hstep
  | iderw p =>
    dsimp only [State.step] at hstep
    cases hcall : s.call p with
    | iderw b reads =>
      rw [hcall] at hstep
      cases hstep
      exact ⟨h.enqueue hcall, nofun, fun _ _ => rfl⟩
    | _ =>
      rw [hcall] at hstep
      cases hstep
  | ideintr =>
    dsimp only [State.step] at hstep
    cases hq : s.idequeue with
    | nil =>
      rw [hq] at hstep
      cases hstep
    | cons b queue =>
      rw [hq] at hstep
      cases hstep
      exact ⟨h.complete hq, nofun, fun d _ => key_of_update rfl (by rfl) d⟩
  | finish p =>
    dsimp only [State.step] at hstep
    cases hcall : s.call p with
    | wait b reads =>
      rw [hcall] at hstep
      dsimp only at hstep
      split at hstep
      · rename_i hflags
        simp only [Bool.and_eq_true, Bool.not_eq_true'] at hflags
        cases hstep
        refine ⟨h.finish hcall hflags.1 hflags.2, fun e he => ?_, fun _ _ => rfl⟩
        cases reads with
        | false => cases he
        | true =>
          rw [mem_singleton.mp he]
          have hok := h.calls p
          rw [hcall] at hok
          rcases hok.2.2 with ⟨-, hvalid, -⟩ | ⟨-, -, -, hdata⟩
          · rw [hflags.1] at hvalid
            cases hvalid
          · exact hdata rfl
      · cases hstep
    | _ =>
      rw [hcall] at hstep
      cases hstep
  | assign p b data =>
    change (if s.Uses p b then some (_, []) else none) = _ at hstep
    split at hstep
    · rename_i hu
      cases hstep
      refine ⟨?_, nofun, fun d _ => key_of_update rfl (by rfl) d⟩
      have hinv := h.write hu (c := { s.buf b with data := data }) (x := .idle) rfl rfl rfl
        (fun _ => rfl) (.inl rfl)
      exact hinv.of_setCall_idle hu.1
    · cases hstep
  | logWrite p b =>
    change (if s.Uses p b then some (_, []) else none) = _ at hstep
    split at hstep
    · rename_i hu
      cases hstep
      refine ⟨?_, nofun, fun d _ => key_of_update rfl (by rfl) d⟩
      have hinv := h.write hu (c := { s.buf b with dirty := true }) (x := .idle) (m := false) rfl
        rfl rfl nofun (.inl rfl)
      exact hinv.of_setCall_idle hu.1
    · cases hstep
  | bwrite p b =>
    change (if s.Uses p b then some (_, []) else none) = _ at hstep
    split at hstep
    · rename_i hu
      cases hstep
      refine ⟨?_, nofun, fun d _ => key_of_update rfl (by rfl) d⟩
      exact h.write hu rfl rfl rfl nofun (.inr ⟨rfl, rfl, rfl⟩)
    · cases hstep
  | brelse p b =>
    change (if s.Uses p b ∧ s.changed b = false then some (s.brelseStep p b, []) else none) = _
      at hstep
    split at hstep
    · rename_i hu
      cases hstep
      exact ⟨h.brelse hu.1 hu.2, nofun, fun d _ => key_of_update rfl (by rfl) d⟩
    · cases hstep

theorem inv_of_reachable (h : (system P).Reachable s) : Inv s :=
  h.invariant (fun _ => Booted.inv) fun _ _ _ _ hinv hstep => (hinv.step hstep).1

/-- The buffer cache is coherent in every interleaving. -/
theorem buffer_cache_coherent (h : (system P).Reachable s) :
    (∀ b c, b ≠ c → (s.buf b).key = (s.buf c).key → (s.buf b).key.1 = NODEV) ∧
    (∀ p q b c, b ∈ s.held p → c ∈ s.held q → (s.buf b).key = (s.buf c).key → p = q ∧ b = c) ∧
    (∀ a s' ev, (system P).step s a = some (s', ev) → ∀ e ∈ ev, e.data = s.left e.key) ∧
    (∀ a s' ev, (system P).step s a = some (s', ev) →
      ∀ b, (s.buf b).dirty = true → (s'.buf b).key = (s.buf b).key) ∧
    ∃ l, IsRing s.links l ∧ ∀ b, b ∈ l := by
  have hinv := inv_of_reachable h
  refine ⟨fun b c hne hkey => ?_, fun p q b c hb hc hkey => hinv.eq_of_held hkey hb hc,
    fun a s' ev hstep => (hinv.step hstep).2.1, fun a s' ev hstep => (hinv.step hstep).2.2, ?_⟩
  · obtain ⟨l, -, hall, hpair⟩ := hinv.ring
    rcases rel_or_rel hpair (hall b) (hall c) hne with hrel | hrel
    · rw [hkey]
      exact (hrel hkey).dev
    · exact (hrel hkey.symm).dev
  · obtain ⟨l, hring, hall, -⟩ := hinv.ring
    exact ⟨l, hring, hall⟩

/-- The cache after `binit`, with a process. -/
def bootState : State Unit where
  buf _ := ⟨(NODEV, 0), false, false, false, fun _ => 0⟩
  links := binit
  idequeue := []
  disk _ _ := 0
  call _ := .idle
  held _ := []
  changed _ := false
  left _ _ := 0

/-- The process is about to search for block 5. -/
theorem buffer_cache_coherent_bread : ∃ s, (system Unit).Reachable s ∧ s.call () = .bget (1, 5) ∧
    (∃ l, IsRing s.links l ∧ ∀ b, b ∈ l) ∧ ∀ a s' ev, (system Unit).step s a = some (s', ev) →
      ∀ e ∈ ev, e.data = s.left e.key := by
  have hboot : (system Unit).init bootState :=
    ⟨rfl, fun _ => rfl, rfl, fun _ => rfl, fun _ => rfl, fun _ => rfl, rfl⟩
  have hs : (system Unit).Reachable (bootState.setCall () (.bget (1, 5))) :=
    .step (a := .bread () (1, 5)) (.init hboot) rfl
  have hok := buffer_cache_coherent hs
  exact ⟨_, hs, rfl, hok.2.2.2.2, hok.2.2.1⟩

end Xv6Kernel.BufferCache
