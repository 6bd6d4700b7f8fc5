/-
  GrepLoop.lean
  =============
  The loop of `grep` over what `read` returns.

  `buf` is the list of the characters in it.  A result of `read` fits the space behind them, so
  that the list is never longer than the buffer; lines are shorter than it, so that there is space.
-/
import Xv6Kernel.GrepMatch

namespace Xv6Kernel

namespace Grep

open List

/-! ### The functions -/

def newline : Byte := chr '\n'

/-- `strchr(p, '\n')`: the line before the newline and what follows it.  A NUL ends the string. -/
def strchr : (p : List Byte) → Option (List Byte × List Byte)
  | [] => none
  | c :: p =>
      if c = newline then some ([], p)
      else if c = 0 then none
      else (strchr p).map fun r => (c :: r.1, r.2)

/-- The loop over the lines in the buffer: what it writes, and the text behind `p`. -/
def grepLines (re : List Byte) : (fuel : Nat) → (p : List Byte) → List Byte × List Byte
  | 0, p => ([], p)
  | fuel + 1, p =>
      match strchr p with
      | none => ([], p)
      | some (l, q) =>
          let r := grepLines re fuel q
          ((if matchRe re l then l ++ [newline] else []) ++ r.1, r.2)

/-- `grep` with `m` in the buffer: what it writes for the results of `read` that follow. -/
def grep (re : List Byte) : (m : List Byte) → (reads : List (List Byte)) → List Byte
  | _, [] => []
  | m, c :: reads =>
      let r := grepLines re (m ++ c).length (m ++ c)
      -- if `p` is still at the beginning, the text is dropped
      r.1 ++ grep re (if r.2.length = (m ++ c).length then [] else r.2) reads

/-! ### Lines -/

/-- The lines of a text that match, in order, and the characters behind the last newline; the first
    line begins with `l`. -/
def matching (re : List Byte) : (l s : List Byte) → List Byte × List Byte
  | l, [] => ([], l)
  | l, c :: s =>
      if c = newline then
        ((if matchRe re l then l ++ [newline] else []) ++ (matching re [] s).1, (matching re [] s).2)
      else matching re (l ++ [c]) s

/-- No newline comes after a result of `read` that has none. -/
def NothingDropped : (reads : List (List Byte)) → Prop
  | [] => True
  | c :: reads => (newline ∈ c ∨ newline ∉ reads.flatten) ∧ NothingDropped reads

theorem matching_append : ∀ {l}, matching re l (s ++ t) =
    ((matching re l s).1 ++ (matching re (matching re l s).2 t).1,
      (matching re (matching re l s).2 t).2) := by
  induction s with
  | nil => exact rfl
  | cons c s ih =>
    intro l
    rw [cons_append, matching, matching]
    by_cases hc : c = newline
    · rw [if_pos hc, if_pos hc, ih, append_assoc]
    · rw [if_neg hc, if_neg hc, ih]

theorem matching_plain (hs : newline ∉ s) : ∀ {l}, matching re l s = ([], l ++ s) := by
  induction s with
  | nil =>
    intro l
    rw [append_nil]
    rfl
  | cons c s ih =>
    intro l
    rw [mem_cons, not_or] at hs
    rw [matching, if_neg (Ne.symm hs.1), ih hs.2, append_assoc]
    rfl

/-- What is behind the last newline. -/
theorem matching_rest : ∀ {l}, newline ∉ l →
    newline ∉ (matching re l s).2 ∧ (matching re l s).2 <:+ l ++ s := by
  induction s with
  | nil => exact fun hl => ⟨hl, by rw [append_nil]; exact suffix_rfl⟩
  | cons c s ih =>
    intro l hl
    rw [matching]
    by_cases hc : c = newline
    · rw [if_pos hc]
      obtain ⟨hno, hsuf⟩ := ih (l := []) not_mem_nil
      exact ⟨hno, hsuf.trans ⟨l ++ [c], by simp⟩⟩
    · rw [if_neg hc, append_cons l c s]
      exact ih (by simp [hl, Ne.symm hc])

theorem matchRe_nil (l : List Byte) : matchRe [] l = true := by
  unfold matchRe matchLoop matchhere
  rfl

/-- The empty pattern gives the first line with what it begins with. -/
theorem length_matching (hs : newline ∈ s) : ∀ l,
    (matching [] l s).1.length = l.length + (matching [] [] s).1.length := by
  induction s with
  | nil => cases hs
  | cons c s ih =>
    intro l
    rw [matching, matching]
    by_cases hc : c = newline
    · simp only [if_pos hc, matchRe_nil, if_true, length_append]
      simp [Nat.add_assoc]
    · have hs' := (mem_cons.mp hs).resolve_left (Ne.symm hc)
      rw [if_neg hc, if_neg hc, ih hs', ih hs' ([] ++ [c]), length_append]
      simp [Nat.add_assoc]

/-! ### The loop -/

theorem strchr_cases (hs : 0 ∉ s) : strchr s = none ∧ newline ∉ s ∨
    ∃ l q, strchr s = some (l, q) ∧ s = l ++ newline :: q ∧ newline ∉ l := by
  induction s with
  | nil => exact .inl ⟨rfl, not_mem_nil⟩
  | cons c s ih =>
    rw [mem_cons, not_or] at hs
    rw [strchr]
    by_cases hc : c = newline
    · exact .inr ⟨[], s, if_pos hc, by rw [hc]; rfl, not_mem_nil⟩
    · rw [if_neg hc, if_neg (Ne.symm hs.1)]
      rcases ih hs.2 with ⟨h, hno⟩ | ⟨l, q, h, rfl, hno⟩
      · exact .inl ⟨by rw [h]; rfl, by simp [Ne.symm hc, hno]⟩
      · exact .inr ⟨c :: l, q, by rw [h]; rfl, rfl, by simp [Ne.symm hc, hno]⟩

theorem grepLines_eq (fuel : Nat) : ∀ s, 0 ∉ s → s.length ≤ fuel →
    grepLines re fuel s = matching re [] s := by
  induction fuel with
  | zero =>
    intro s _ hlen
    rw [length_eq_zero_iff.mp (Nat.le_zero.mp hlen)]
    rfl
  | succ fuel ih =>
    intro s hs hlen
    rcases strchr_cases hs with ⟨h, hno⟩ | ⟨l, q, h, rfl, hno⟩
    · simp only [grepLines, h, matching_plain hno, nil_append]
    · simp only [mem_append, mem_cons, not_or] at hs
      rw [length_append, length_cons] at hlen
      simp only [grepLines, h, ih q hs.2.2 (by omega), matching_append, matching_plain hno, matching,
        if_true, nil_append]

/-- One round of the loop. -/
theorem grep_cons (hm : newline ∉ m) (h0 : 0 ∉ m ++ c) :
    grep re m (c :: reads) = (matching re m c).1 ++
      grep re (if newline ∈ c then (matching re m c).2 else []) reads := by
  have hstart : matching re [] (m ++ c) = matching re m c := by
    simp only [matching_append, matching_plain hm, nil_append]
  have hif : (matching re m c).2.length = (m ++ c).length ↔ newline ∉ c := by
    obtain ⟨hno, hsuf⟩ := @matching_rest re c m hm
    constructor
    · intro hlen hc
      rw [hsuf.eq_of_length hlen] at hno
      exact hno (mem_append_right m hc)
    · intro hc
      rw [matching_plain hc]
  rw [grep]
  simp only [grepLines_eq _ _ h0 le_rfl, hstart, hif, ite_not]

/-- What the loop writes, by induction on the results of `read`. -/
theorem grep_spec (reads : List (List Byte)) (hreads : ∀ c ∈ reads, c ≠ [] ∧ 0 ∉ c) :
    ∀ m, newline ∉ m → 0 ∉ m →
      (NothingDropped reads → ∀ re, grep re m reads = (matching re m reads.flatten).1) ∧
      (grep [] m reads).length ≤ (matching [] m reads.flatten).1.length ∧
      ((grep [] m reads).length = (matching [] m reads.flatten).1.length →
        NothingDropped reads) := by
  induction reads with
  | nil => exact fun m _ _ => ⟨fun _ _ => rfl, le_rfl, fun _ => trivial⟩
  | cons c reads ih =>
    intro m hm h0
    obtain ⟨⟨hne, hc0⟩, hreads⟩ := forall_mem_cons.mp hreads
    have h0' : 0 ∉ m ++ c := by
      rw [mem_append, not_or]
      exact ⟨h0, hc0⟩
    simp only [grep_cons hm h0', flatten_cons, matching_append, length_append]
    by_cases hc : newline ∈ c
    · have hrest : ∀ re, newline ∉ (matching re m c).2 ∧ 0 ∉ (matching re m c).2 := fun re =>
        ⟨(matching_rest hm).1, fun hcon => h0' ((matching_rest hm).2.subset hcon)⟩
      obtain ⟨-, hle, heq⟩ := ih hreads _ (hrest []).1 (hrest []).2
      simp only [if_pos hc]
      refine ⟨fun h re => ?_, by omega, fun h => ⟨Or.inl hc, heq (by omega)⟩⟩
      rw [(ih hreads _ (hrest re).1 (hrest re).2).1 h.2]
    · obtain ⟨hall, hle, heq⟩ := ih hreads [] not_mem_nil not_mem_nil
      simp only [if_neg hc, matching_plain hc, nil_append, length_nil, Nat.zero_add]
      by_cases hF : newline ∈ reads.flatten
      · have hlen := length_matching hF (m ++ c)
        have hpos := length_pos_iff.mpr hne
        rw [length_append] at hlen
        refine ⟨fun h => ?_, by omega, fun h => by omega⟩
        exact absurd hF (h.1.resolve_left hc)
      · simp only [matching_plain hF] at hall hle heq ⊢
        exact ⟨fun h => hall h.2, hle, fun h => ⟨Or.inr hF, heq h⟩⟩

/-- Every pattern gives the lines that match, however the input arrives, if and only if nothing is
    dropped. -/
theorem grep_output_iff {reads : List (List Byte)} (hreads : ∀ c ∈ reads, c ≠ [] ∧ 0 ∉ c) :
    (∀ re, grep re [] reads = (matching re [] reads.flatten).1) ↔ NothingDropped reads := by
  obtain ⟨hall, -, heq⟩ := grep_spec reads hreads [] not_mem_nil not_mem_nil
  exact ⟨fun h => heq (by rw [h]), hall⟩

theorem grep_output_iff_line :
    grep [chr 'a'] [] [[chr 'a', newline]] = (matching [chr 'a'] [] [chr 'a', newline]).1 := by
  have hreads : NothingDropped [[chr 'a', newline]] := ⟨Or.inr (by simp), trivial⟩
  exact (grep_output_iff (by simp +decide)).mpr hreads _

/-- The first part of a line that comes in two parts is dropped. -/
theorem grep_drops_part : grep [] [] [[chr 'a'], [chr 'b', newline]] = [chr 'b', newline] ∧
    grep [] [] [[chr 'a', chr 'b', newline]] = [chr 'a', chr 'b', newline] := by
  constructor <;> simp +decide [grep, grepLines, strchr, matchRe_nil]

end Grep

end Xv6Kernel
