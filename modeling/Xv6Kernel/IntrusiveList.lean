/-
  IntrusiveList.lean
  ==================
  Singly linked lists that are threaded through a `next` field of their nodes.

  `Chain next h l` says that following `next` from the head pointer `h` visits
  exactly the nodes of `l` and then reaches the null pointer.  The node type is
  arbitrary and the field is a function, so an assignment `p->next = q` is
  `update next p q`.  A chain is finite and has no repeated node (`Chain.nodup`),
  since such a node would be followed by two different suffixes.

  The second half gives three pointer walks, with a bound on the number of steps:
  to the last node, to a given node while remembering its predecessor, and a loop
  body at every node.
-/
import Mathlib.Data.List.Nodup

namespace IntrusiveList

open Function List

variable {ι : Type}

/-! ### Chains -/

/-- Following `next` from `h` visits the nodes of the list, in order, and ends. -/
def Chain (next : ι → Option ι) : Option ι → List ι → Prop
  | h, [] => h = none
  | h, x :: l => h = some x ∧ Chain next (next x) l

variable {next : ι → Option ι} {h : Option ι} {l : List ι}

@[simp] theorem chain_nil : Chain next h [] ↔ h = none := Iff.rfl

@[simp] theorem chain_cons : Chain next h (x :: l) ↔ h = some x ∧ Chain next (next x) l := Iff.rfl

/-- A head pointer denotes at most one list. -/
theorem Chain.unique (hl : Chain next h l) (hm : Chain next h m) : l = m := by
  induction l generalizing h m with
  | nil =>
    cases m with
    | nil => rfl
    | cons y m =>
      rw [chain_nil] at hl
      rw [hl] at hm
      exact absurd hm.1 (by simp)
  | cons x l ih =>
    cases m with
    | nil =>
      rw [chain_nil] at hm
      rw [hm] at hl
      exact absurd hl.1 (by simp)
    | cons y m =>
      have hxy : x = y := Option.some.inj (hl.1.symm.trans hm.1)
      subst hxy
      rw [ih hl.2 hm.2]

/-- Only the `next` fields of the nodes on the list matter. -/
theorem Chain.congr (hl : Chain next h l) (hn : ∀ x ∈ l, next' x = next x) : Chain next' h l := by
  induction l generalizing h with
  | nil => exact hl
  | cons x l ih =>
    refine ⟨hl.1, ?_⟩
    rw [hn x (by simp)]
    exact ih hl.2 (fun y hy => hn y (by simp [hy]))

/-- The part of a chain that starts at one of its nodes. -/
theorem Chain.suffix (hl : Chain next h (l₁ ++ x :: l₂)) : Chain next (some x) (x :: l₂) := by
  induction l₁ generalizing h with
  | nil => exact ⟨rfl, hl.2⟩
  | cons y l₁ ih => exact ih hl.2

theorem Chain.head (hl : Chain next h l) : h = l.head? := by
  cases l with
  | nil => exact hl
  | cons x l => exact hl.1

theorem Chain.drop (hl : Chain next h (l₁ ++ l₂)) : Chain next l₂.head? l₂ := by
  cases l₂ with
  | nil => rfl
  | cons x l₂ => exact hl.suffix

/-- A chain never visits a node twice: the two suffixes from it would have to be
    the same list. -/
theorem Chain.nodup (hl : Chain next h l) : l.Nodup := by
  induction l generalizing h with
  | nil => exact nodup_nil
  | cons x l ih =>
    refine nodup_cons.mpr ⟨?_, ih hl.2⟩
    intro hx
    obtain ⟨l₁, l₂, rfl⟩ := append_of_mem hx
    have hsuf : Chain next (some x) (x :: l₂) := Chain.suffix hl.2
    have heq := hsuf.unique (m := x :: (l₁ ++ x :: l₂)) ⟨rfl, hl.2⟩
    have hlen := congrArg List.length heq
    simp only [length_cons, length_append] at hlen
    omega

variable [DecidableEq ι]

theorem Chain.update_of_not_mem (hl : Chain next h l) (hp : p ∉ l) :
    Chain (update next p q) h l := by
  refine hl.congr ?_
  intro x hx
  have hxp : x ≠ p := fun hcon => hp (hcon ▸ hx)
  rw [update_of_ne hxp]

/-- Pushing a node that is not on the list in front of it. -/
theorem Chain.push (hl : Chain next h l) (hp : p ∉ l) :
    Chain (update next p h) (some p) (p :: l) := by
  refine ⟨rfl, ?_⟩
  rw [update_self]
  exact hl.update_of_not_mem hp

/-- Appending a node that is not on the list behind its last node `t`. -/
theorem Chain.snoc (hl : Chain next h (l ++ [t])) (hp : p ∉ l ++ [t]) :
    Chain (update (update next t (some p)) p none) h (l ++ [t, p]) := by
  induction l generalizing h with
  | nil =>
    have htp : t ≠ p := by
      intro hcon
      exact hp (by simp [hcon])
    exact ⟨hl.1, by rw [update_of_ne htp, update_self], by rw [chain_nil, update_self]⟩
  | cons x l ih =>
    have hnd := hl.nodup
    have hxp : x ≠ p := by
      intro hcon
      exact hp (by simp [hcon])
    have hxt : x ≠ t := by
      intro hcon
      exact (nodup_cons.mp hnd).1 (by simp [hcon])
    refine ⟨hl.1, ?_⟩
    rw [update_of_ne hxp, update_of_ne hxt]
    exact ih hl.2 (fun hmem => hp (mem_cons_of_mem _ hmem))

/-- Unlinking the first node. -/
theorem Chain.tail (hl : Chain next h (p :: l)) : Chain (update next p none) (next p) l :=
  Chain.update_of_not_mem hl.2 (nodup_cons.mp hl.nodup).1

/-- Unlinking a node `p` whose predecessor is `q`. -/
theorem Chain.unlink (hl : Chain next h (l₁ ++ q :: p :: l₂)) :
    Chain (update (update next q (next p)) p none) h (l₁ ++ q :: l₂) := by
  induction l₁ generalizing h with
  | nil =>
    have hnd := hl.nodup
    simp only [nil_append, nodup_cons, mem_cons, not_or] at hnd
    refine ⟨hl.1, ?_⟩
    rw [update_of_ne hnd.1.1, update_self]
    exact (hl.2.2.update_of_not_mem hnd.1.2).update_of_not_mem hnd.2.1
  | cons x l₁ ih =>
    have hnd := hl.nodup
    simp only [cons_append, nodup_cons, mem_append, mem_cons, not_or] at hnd
    refine ⟨hl.1, ?_⟩
    rw [update_of_ne hnd.1.2.2.1, update_of_ne hnd.1.2.1]
    exact ih hl.2

/-! ### Walks -/

/-- `while(c->next) c = c->next;` with at most `fuel` steps. -/
def lastNode (next : ι → Option ι) : Nat → ι → Option ι
  | 0, c => if next c = none then some c else none
  | fuel + 1, c =>
      match next c with
      | none => some c
      | some d => lastNode next fuel d

omit [DecidableEq ι] in
theorem lastNode_chain (hl : Chain next (some x) (l ++ [t]))
    (hf : l.length ≤ fuel) : lastNode next fuel x = some t := by
  induction l generalizing x fuel with
  | nil =>
    have hx : x = t := Option.some.inj hl.1
    subst hx
    have hn : next x = none := hl.2
    cases fuel with
    | zero => simp [lastNode, hn]
    | succ fuel => simp [lastNode, hn]
  | cons y l ih =>
    have hx : x = y := Option.some.inj hl.1
    subst hx
    cases fuel with
    | zero => simp at hf
    | succ fuel =>
      -- the walk goes to the node after `x`, which starts the rest of the chain
      obtain ⟨z, hz⟩ : ∃ z, next x = some z := by
        cases l with
        | nil => exact ⟨t, hl.2.1⟩
        | cons z l => exact ⟨z, hl.2.1⟩
      have hrest : Chain next (some z) (l ++ [t]) := hz ▸ hl.2
      simp only [lastNode, hz]
      exact ih hrest (by simpa using hf)

/-- `for(c = h; c && c != p; prev = c, c = c->next);` with at most `fuel` steps:
    the final values of `prev` and `c`. -/
def scanTo (next : ι → Option ι) (p : ι) :
    Nat → Option ι → Option ι → Option (Option ι × Option ι)
  | _, prev, none => some (prev, none)
  | 0, prev, some c => if c = p then some (prev, some c) else none
  | fuel + 1, prev, some c =>
      if c = p then some (prev, some c) else scanTo next p fuel (some c) (next c)

theorem scanTo_absent {prev : Option ι} (hl : Chain next h l) (hp : p ∉ l) (hf : l.length ≤ fuel) :
    ∃ prev', scanTo next p fuel prev h = some (prev', none) := by
  induction l generalizing h fuel prev with
  | nil =>
    rw [chain_nil] at hl
    subst hl
    exact ⟨prev, by cases fuel <;> rfl⟩
  | cons x l ih =>
    have hxp : x ≠ p := by
      intro hcon
      exact hp (by simp [hcon])
    cases fuel with
    | zero => simp at hf
    | succ fuel =>
      rw [hl.1]
      simp only [scanTo, if_neg hxp]
      exact ih hl.2 (fun hmem => hp (mem_cons_of_mem _ hmem)) (by simpa using hf)

/-- On a chain in which `q` stands right before `p`, the scan stops at `p` with
    `prev` at `q`. -/
theorem scanTo_chain {prev : Option ι} (hl : Chain next h (l₁ ++ q :: p :: l₂))
    (hf : l₁.length + 1 ≤ fuel) :
    scanTo next p fuel prev h = some (some q, some p) := by
  induction l₁ generalizing h fuel prev with
  | nil =>
    have hnd := hl.nodup
    simp only [nil_append, nodup_cons, mem_cons, not_or] at hnd
    cases fuel with
    | zero => simp at hf
    | succ fuel =>
      rw [hl.1]
      simp only [scanTo, if_neg hnd.1.1]
      rw [hl.2.1]
      cases fuel with
      | zero => simp [scanTo]
      | succ fuel => simp [scanTo]
  | cons x l₁ ih =>
    have hnd := hl.nodup
    simp only [cons_append, nodup_cons, mem_append, mem_cons, not_or] at hnd
    cases fuel with
    | zero => simp at hf
    | succ fuel =>
      rw [hl.1]
      simp only [scanTo, if_neg hnd.1.2.2.1]
      exact ih hl.2 (by simpa using hf)

/-! ### Loops over a list -/

section Loop

variable {σ ε β : Type}

/-- `for(p = h; p; p = p->next) body(p);` in a state `σ` that the body may change,
    the `next` field included: it is read in the state that the body leaves.  The
    body ends the loop early by returning a value. -/
def forEach (next : σ → ι → Option ι) (diverges : ε)
    (body : ι → σ → Except ε (Option β × σ)) : Nat → Option ι → σ → Except ε (Option β × σ)
  | _, none, s => .ok (none, s)
  | 0, some _, _ => .error diverges
  | fuel + 1, some p, s =>
      match body p s with
      | .error e => .error e
      | .ok (some b, s') => .ok (some b, s')
      | .ok (none, s') => forEach next diverges body fuel (next s' p) s'

/-- What the loop does when it runs over a list given in advance. -/
def foldStop {α : Type} (f : ι → α → Option β × α) : List ι → α → Option β × α
  | [], a => (none, a)
  | x :: l, a =>
      match f x a with
      | (some b, a') => (some b, a')
      | (none, a') => foldStop f l a'

omit [DecidableEq ι] in
/-- A body that never stops makes the loop a fold. -/
theorem foldStop_foldl {f : ι → α → Option β × α} {g : α → ι → α}
    (hf : ∀ x a, f x a = (none, g a x)) (l : List ι) (a : α) :
    foldStop f l a = (none, l.foldl g a) := by
  induction l generalizing a with
  | nil => rfl
  | cons x l ih => simp only [foldStop, hf, foldl_cons, ih]

omit [DecidableEq ι] in
/-- A body that does nothing until it stops makes the loop a search. -/
theorem foldStop_find (hit : ι → Bool)
    (b : ι → β) (g : ι → α) (hhit : ∀ x, hit x = true → f x a = (some (b x), g x))
    (hmiss : ∀ x, hit x = false → f x a = (none, a)) (l : List ι) :
    foldStop f l a = match l.find? hit with
      | some x => (some (b x), g x)
      | none => (none, a) := by
  induction l with
  | nil => rfl
  | cons x l ih =>
    cases hx : hit x with
    | true => simp only [foldStop, hhit x hx, find?_cons, hx]
    | false => simp only [foldStop, hmiss x hx, find?_cons, hx, ih]

omit [DecidableEq ι] in
/-- Loop rule.  `Rel` relates the states of the loop to states of a model in which
    the list is known, and holds whenever the loop test is made; its first argument
    is the part of the list not yet visited.  If at every node the body does what `f`
    does to the model, and the nodes not yet visited still form a chain after it, then
    the loop does what `foldStop f` does. -/
theorem forEach_foldStop (Rel : List ι → σ → α → Prop) (Post : σ → α → Prop)
    {diverges : ε} {body : ι → σ → Except ε (Option β × σ)}
    {f : ι → α → Option β × α} (hdone : ∀ s a, Rel [] s a → Post s a)
    (hbody : ∀ x l s a, Rel (x :: l) s a → ∃ s', body x s = .ok ((f x a).1, s') ∧
        ((f x a).1 ≠ none → Post s' (f x a).2) ∧
        ((f x a).1 = none → Rel l s' (f x a).2 ∧ Chain (nextOf s') (nextOf s' x) l)) :
    ∀ (l : List ι) (fuel : Nat) (h : Option ι) (s : σ) (a : α), Rel l s a →
      Chain (nextOf s) h l → l.length ≤ fuel →
      ∃ s', forEach nextOf diverges body fuel h s = .ok ((foldStop f l a).1, s') ∧
        Post s' (foldStop f l a).2 := by
  intro l
  induction l with
  | nil =>
    intro fuel h s a hrel hl _
    rw [chain_nil] at hl
    subst hl
    exact ⟨s, by cases fuel <;> rfl, hdone s a hrel⟩
  | cons x l ih =>
    intro fuel h s a hrel hl hf
    obtain ⟨s', hrun, hstop, hgo⟩ := hbody x l s a hrel
    cases fuel with
    | zero => simp at hf
    | succ fuel =>
      rw [hl.1]
      simp only [forEach, hrun, foldStop]
      rcases hfx : f x a with ⟨r, a'⟩
      rw [hfx] at hstop hgo
      cases r with
      | some b => exact ⟨s', rfl, hstop (by simp)⟩
      | none =>
        obtain ⟨hrel', hchain⟩ := hgo rfl
        exact ih fuel (nextOf s' x) s' a' hrel' hchain (by simpa using hf)

end Loop

end IntrusiveList
