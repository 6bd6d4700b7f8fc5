/-
  RingList.lean
  =============
  Circular doubly linked lists with a sentinel.

  The pointers `next` and `prev` are functions on the nodes; `none` is the sentinel and `some a`
  the node of `a`.  `Seg p x l y` says that following `next` from `x` leads through the nodes of
  `l` to `y`, and `prev` the same way back; a ring is a segment from the sentinel to itself.
  Unlinking a node and linking it in behind the sentinel, as pointer assignments, are removal from
  the list and insertion at its front.
-/
import Mathlib.Data.List.Induction
import Mathlib.Data.List.Nodup

namespace RingList

open Function List

/-- The pointers of all nodes. -/
structure Links (α : Type) where
  next : Option α → Option α
  prev : Option α → Option α

variable {α : Type}

/-! ### Segments -/

def Seg (p : Links α) : Option α → List α → Option α → Prop
  | x, [], y => p.next x = y ∧ p.prev y = x
  | x, a :: l, y => p.next x = some a ∧ p.prev (some a) = x ∧ Seg p (some a) l y

/-- The nodes of a ring, in the order of `next`. -/
structure IsRing (p : Links α) (l : List α) : Prop where
  seg : Seg p none l none
  nodup : l.Nodup

variable {p p' : Links α} {x y : Option α} {a b : α} {l l' : List α}

theorem seg_append : Seg p x (l ++ b :: l') y ↔ Seg p x l (some b) ∧ Seg p (some b) l' y := by
  induction l generalizing x with
  | nil => exact and_assoc.symm
  | cons a l ih =>
    change _ ∧ _ ∧ Seg p (some a) (l ++ b :: l') y ↔ (_ ∧ _ ∧ Seg p (some a) l (some b)) ∧ _
    rw [ih, and_assoc, and_assoc]

/-- Pointers that a segment does not use may change. -/
theorem Seg.congr (h : Seg p x l y) (hx : p'.next x = p.next x)
    (hnext : ∀ c ∈ l, p'.next (some c) = p.next (some c))
    (hprev : ∀ c ∈ l, p'.prev (some c) = p.prev (some c)) (hy : p'.prev y = p.prev y) :
    Seg p' x l y := by
  induction l generalizing x with
  | nil => exact ⟨hx.trans h.1, hy.trans h.2⟩
  | cons a l ih =>
    obtain ⟨hn, hp, hrest⟩ := h
    refine ⟨hx.trans hn, (hprev a mem_cons_self).trans hp, ?_⟩
    exact ih hrest (hnext a mem_cons_self) (fun c hc => hnext c (mem_cons_of_mem a hc))
      fun c hc => hprev c (mem_cons_of_mem a hc)

theorem Seg.prev_mem (h : Seg p x l y) : p.prev y ∈ x :: l.map some := by
  induction l generalizing x with
  | nil =>
    rw [h.2]
    exact mem_cons_self
  | cons a l ih => exact mem_cons_of_mem x (ih h.2.2)

/-! ### Pointer assignments -/

variable [DecidableEq α]

def Links.setNext (p : Links α) (x y : Option α) : Links α :=
  { p with next := update p.next x y }

def Links.setPrev (p : Links α) (x y : Option α) : Links α :=
  { p with prev := update p.prev x y }

/-- `b->next->prev = b->prev; b->prev->next = b->next`. -/
def Links.unlink (p : Links α) (b : α) : Links α :=
  let p := p.setPrev (p.next (some b)) (p.prev (some b))
  p.setNext (p.prev (some b)) (p.next (some b))

/-- `b->next = head.next; b->prev = &head; head.next->prev = b; head.next = b`. -/
def Links.pushFront (p : Links α) (b : α) : Links α :=
  let p := p.setNext (some b) (p.next none)
  let p := p.setPrev (some b) none
  let p := p.setPrev (p.next none) (some b)
  p.setNext none (some b)

section

variable {c : Option α}

@[simp] theorem next_setPrev : (p.setPrev x y).next c = p.next c := rfl
@[simp] theorem prev_setNext : (p.setNext x y).prev c = p.prev c := rfl
@[simp] theorem next_setNext_self : (p.setNext x y).next x = y := update_self ..
@[simp] theorem prev_setPrev_self : (p.setPrev x y).prev x = y := update_self ..

theorem next_setNext_of_ne (h : c ≠ x) : (p.setNext x y).next c = p.next c := update_of_ne h ..

theorem prev_setPrev_of_ne (h : c ≠ x) : (p.setPrev x y).prev c = p.prev c := update_of_ne h ..

end

theorem unlink_eq (h : some b ≠ p.next (some b)) :
    p.unlink b = (p.setPrev (p.next (some b)) (p.prev (some b))).setNext (p.prev (some b))
      (p.next (some b)) := by
  unfold Links.unlink
  simp only [next_setPrev, prev_setPrev_of_ne h]

theorem pushFront_eq : p.pushFront b =
    (((p.setNext (some b) (p.next none)).setPrev (some b) none).setPrev (p.next none)
      (some b)).setNext none (some b) := by
  have hnone : (p.setNext (some b) (p.next none)).next none = p.next none :=
    next_setNext_of_ne (Option.some_ne_none b).symm
  unfold Links.pushFront
  simp only [next_setPrev, hnone]

/-- The last link of a segment is set to another node. -/
theorem Seg.retarget (h : Seg p x l y) (hx : x ∉ l.map some) (hl : l.Nodup)
    (hz : z ∉ l.map some) : Seg ((p.setPrev z (p.prev y)).setNext (p.prev y) z) x l z := by
  induction l generalizing x with
  | nil =>
    rw [h.2]
    exact ⟨next_setNext_self, prev_setPrev_self⟩
  | cons a l ih =>
    obtain ⟨hn, hp, hrest⟩ := h
    obtain ⟨ha, hl⟩ := nodup_cons.mp hl
    have hne : x ≠ p.prev y := fun heq => by
      refine hx ?_
      rw [heq]
      exact hrest.prev_mem
    have haz : some a ≠ z := fun heq => by
      refine hz ?_
      rw [← heq]
      exact mem_cons_self
    refine ⟨?_, ?_, ih hrest ?_ hl fun hmem => hz (mem_cons_of_mem _ hmem)⟩
    · rw [next_setNext_of_ne hne]
      exact hn
    · rw [prev_setNext, prev_setPrev_of_ne haz]
      exact hp
    · exact fun hmem => ha (by simpa using hmem)

theorem IsRing.unlink (h : IsRing p (l ++ b :: l')) : IsRing (p.unlink b) (l ++ l') := by
  obtain ⟨hseg, hnodup⟩ := h
  obtain ⟨hfirst, hsecond⟩ := seg_append.mp hseg
  obtain ⟨hl, hbl', hdisj⟩ := nodup_append.mp hnodup
  obtain ⟨hb, hl'⟩ := nodup_cons.mp hbl'
  refine ⟨?_, nodup_append.mpr ⟨hl, hl', fun c hc d hd => hdisj c hc d (mem_cons_of_mem b hd)⟩⟩
  cases l' with
  | nil =>
    obtain ⟨hn, hp⟩ := hsecond
    rw [unlink_eq (by rw [hn]; exact Option.some_ne_none b), hn, append_nil]
    exact hfirst.retarget (by simp) hl (by simp)
  | cons a l' =>
    obtain ⟨hn, hp, hrest⟩ := hsecond
    obtain ⟨ha, -⟩ := nodup_cons.mp hl'
    have hba : b ≠ a := fun heq => hb (heq ▸ mem_cons_self)
    have hmem : ∀ c ∈ a :: l', c ∉ l := fun c hc hcl =>
      hdisj c hcl c (mem_cons_of_mem b hc) rfl
    have hprev : ∀ c ∈ a :: l', some c ≠ p.prev (some b) := fun c hc heq => by
      have hc' := hfirst.prev_mem
      rw [← heq] at hc'
      exact hmem c hc (by simpa using hc')
    rw [unlink_eq (by rw [hn]; simpa using hba), hn, seg_append]
    refine ⟨hfirst.retarget (by simp) hl (by simpa using hmem a mem_cons_self), ?_⟩
    refine hrest.congr ?_ (fun c hc => ?_) (fun c hc => ?_) ?_
    · exact next_setNext_of_ne (hprev a mem_cons_self)
    · exact next_setNext_of_ne (hprev c (mem_cons_of_mem a hc))
    · have hca : some c ≠ some a := fun heq => ha (Option.some.inj heq ▸ hc)
      rw [prev_setNext, prev_setPrev_of_ne hca]
    · rw [prev_setNext, prev_setPrev_of_ne (Option.some_ne_none a).symm]

theorem IsRing.pushFront (h : IsRing p l) (hb : b ∉ l) : IsRing (p.pushFront b) (b :: l) := by
  obtain ⟨hseg, hnodup⟩ := h
  refine ⟨?_, nodup_cons.mpr ⟨hb, hnodup⟩⟩
  have hne : ∀ c ∈ l, some c ≠ some b := fun c hc heq => hb (Option.some.inj heq ▸ hc)
  have hsb := Option.some_ne_none b
  rw [pushFront_eq]
  refine ⟨next_setNext_self, ?_, ?_⟩
  · cases l with
    | nil =>
      rw [prev_setNext, hseg.1, prev_setPrev_of_ne hsb, prev_setPrev_self]
    | cons a l =>
      rw [prev_setNext, hseg.1, prev_setPrev_of_ne (hne a mem_cons_self).symm, prev_setPrev_self]
  · cases l with
    | nil =>
      refine ⟨?_, ?_⟩
      · rw [next_setNext_of_ne hsb, next_setPrev, next_setPrev, next_setNext_self, hseg.1]
      · rw [prev_setNext, hseg.1, prev_setPrev_self]
    | cons a l =>
      obtain ⟨hn, hp, hrest⟩ := hseg
      obtain ⟨ha, -⟩ := nodup_cons.mp hnodup
      refine ⟨?_, ?_, hrest.congr ?_ (fun c hc => ?_) (fun c hc => ?_) ?_⟩
      · rw [next_setNext_of_ne hsb, next_setPrev, next_setPrev, next_setNext_self, hn]
      · rw [prev_setNext, hn, prev_setPrev_self]
      · rw [next_setNext_of_ne (Option.some_ne_none a), next_setPrev, next_setPrev,
          next_setNext_of_ne (hne a mem_cons_self)]
      · rw [next_setNext_of_ne (Option.some_ne_none c), next_setPrev, next_setPrev,
          next_setNext_of_ne (hne c (mem_cons_of_mem a hc))]
      · have hca : some c ≠ some a := fun heq => ha (Option.some.inj heq ▸ hc)
        rw [prev_setNext, hn, prev_setPrev_of_ne hca,
          prev_setPrev_of_ne (hne c (mem_cons_of_mem a hc)), prev_setNext]
      · rw [prev_setNext, hn, prev_setPrev_of_ne (Option.some_ne_none a).symm,
          prev_setPrev_of_ne hsb.symm, prev_setNext]

/-- A node moves to the front. -/
theorem IsRing.moveToFront (h : IsRing p l) (hb : b ∈ l) :
    IsRing ((p.unlink b).pushFront b) (b :: l.erase b) := by
  obtain ⟨l₁, l₂, rfl⟩ := append_of_mem hb
  have hnot : b ∉ l₁ := fun hmem =>
    (nodup_append.mp h.nodup).2.2 b hmem b mem_cons_self rfl
  have herase : (l₁ ++ b :: l₂).erase b = l₁ ++ l₂ := by
    rw [erase_append_right _ hnot, erase_cons_head]
  have hrest := h.unlink
  rw [herase]
  refine hrest.pushFront fun hmem => ?_
  rcases mem_append.mp hmem with hmem | hmem
  · exact hnot hmem
  · exact (nodup_cons.mp (nodup_append.mp h.nodup).2.1).1 hmem

theorem IsRing.foldl_pushFront {as : List α} (h : IsRing p l) (hn : (as.reverse ++ l).Nodup) :
    IsRing (as.foldl Links.pushFront p) (as.reverse ++ l) := by
  induction as generalizing p l with
  | nil => exact h
  | cons a as ih =>
    rw [reverse_cons, append_assoc, singleton_append] at hn ⊢
    exact ih (h.pushFront (nodup_cons.mp (nodup_append.mp hn).2.1).1) hn

/-! ### Order -/

omit [DecidableEq α] in
/-- Of two nodes one comes first. -/
theorem rel_or_rel (h : l.Pairwise R) (ha : a ∈ l) (hb : b ∈ l) (hne : a ≠ b) : R a b ∨ R b a := by
  induction l with
  | nil => cases ha
  | cons c l ih =>
    obtain ⟨hc, hrest⟩ := pairwise_cons.mp h
    rcases mem_cons.mp ha with rfl | ha'
    · exact .inl (hc b ((mem_cons.mp hb).resolve_left hne.symm))
    · rcases mem_cons.mp hb with rfl | hb'
      · exact .inr (hc a ha')
      · exact ih hrest ha' hb'

omit [DecidableEq α] in
/-- Nothing before the first node with a property has it. -/
theorem pairwise_find (hl : l.Nodup) (h : l.find? f = some b) :
    l.Pairwise fun c d => d = b → f c = false := by
  induction l with
  | nil => exact .nil
  | cons a l ih =>
    obtain ⟨ha, hl⟩ := nodup_cons.mp hl
    rw [find?_cons] at h
    cases hfa : f a with
    | true =>
      rw [hfa] at h
      cases h
      refine pairwise_cons.mpr ⟨fun d hd hda => absurd (hda ▸ hd) ha, ?_⟩
      exact pairwise_of_forall_mem_list fun c _ d hd hda => absurd (hda ▸ hd) ha
    | false =>
      rw [hfa] at h
      exact pairwise_cons.mpr ⟨fun _ _ _ => hfa, ih hl h⟩

/-! ### Walks -/

/-- The loop `for(b = start; b != &head; b = step(b)) if(found(b)) ...`. -/
def walk (step : Option α → Option α) (found : α → Bool) : (fuel : Nat) → Option α → Option α
  | 0, _ => none
  | _ + 1, none => none
  | fuel + 1, some b => if found b then some b else walk step found fuel (step (some b))

omit [DecidableEq α] in
theorem walk_found (h : walk step found fuel x = some b) : found b = true := by
  induction fuel generalizing x with
  | zero => cases h
  | succ fuel ih =>
    cases x with
    | none => cases h
    | some a =>
      change (if found a then some a else walk step found fuel (step (some a))) = some b at h
      by_cases ha : found a = true
      · rw [if_pos ha] at h
        cases h
        exact ha
      · rw [if_neg ha] at h
        exact ih h

omit [DecidableEq α] in
theorem Seg.walk_next (h : Seg p x l none)
    (hfuel : l.length < fuel) : walk p.next found fuel (p.next x) = l.find? found := by
  induction l generalizing x fuel with
  | nil =>
    obtain ⟨fuel, rfl⟩ := Nat.exists_eq_add_of_lt hfuel
    rw [h.1]
    rfl
  | cons a l ih =>
    obtain ⟨hn, -, hrest⟩ := h
    obtain ⟨fuel, rfl⟩ := Nat.exists_eq_add_of_lt hfuel
    rw [hn, find?_cons]
    change (if found a then some a else walk p.next found _ (p.next (some a))) = _
    cases hfound : found a with
    | true => rfl
    | false => exact ih hrest (by simp only [length_cons]; omega)

end RingList
