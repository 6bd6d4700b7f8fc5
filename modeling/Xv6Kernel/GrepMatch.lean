/-
  GrepMatch.lean
  ==============
  The pattern matcher of `grep`.

  `match`, `matchhere` and `matchstar` read C strings: a character at or behind the end of
  a string is NUL.  The three functions call each other on shorter patterns, or on the same
  pattern and a shorter text, so they are total.  A pattern is read as a list of items and
  the items as languages, and the matcher finds exactly the substrings in the product of
  these languages.
-/
import Mathlib.Computability.Language
import Xv6Kernel.FsModel

namespace Xv6Kernel

namespace Grep

open Computability

def chr (c : Char) : Byte := BitVec.ofNat 8 c.toNat

/-- The character `s[i]` of a string, with the NUL that ends it. -/
def ch (s : List Byte) (i : Nat) : Byte := s.getD i 0

/-! ### The functions -/

mutual

/-- `matchhere`: search for `re` at the beginning of the text. -/
def matchhere (re text : List Byte) : Bool :=
  if ch re 0 = 0 then true
  else if ch re 1 = chr '*' then matchstar (ch re 0) (re.drop 2) text
  else if ch re 0 = chr '$' ∧ ch re 1 = 0 then ch text 0 = 0
  else if ch text 0 ≠ 0 ∧ (ch re 0 = chr '.' ∨ ch re 0 = ch text 0) then
    matchhere (re.drop 1) (text.drop 1)
  else false
termination_by (re.length, text.length, 0)
decreasing_by all_goals cases re <;> simp_all [ch, Prod.lex_def, Nat.sub_lt_succ]

/-- `matchstar`: search for `c*re` at the beginning of the text. -/
def matchstar (c : Byte) (re text : List Byte) : Bool :=
  if matchhere re text then true
  else if ch text 0 ≠ 0 ∧ (ch text 0 = c ∨ c = chr '.') then matchstar c re (text.drop 1)
  else false
termination_by (re.length, text.length, 1)
decreasing_by all_goals cases text <;> simp_all [ch, Prod.lex_def]

end

/-- The loop of `match`, which also looks at the empty string at the end of the text. -/
def matchLoop (re text : List Byte) : Bool :=
  if matchhere re text then true
  else if ch text 0 ≠ 0 then matchLoop re (text.drop 1)
  else false
termination_by text.length
decreasing_by cases text <;> simp_all [ch]

/-- The function `match`. -/
def matchRe (re text : List Byte) : Bool :=
  if ch re 0 = chr '^' then matchhere (re.drop 1) text else matchLoop re text

/-! ### The meaning of a pattern -/

/-- One character of the text for the character `c` of a pattern. -/
def single (c : Byte) : Language Byte := {w | ∃ a, w = [a] ∧ (a = c ∨ c = chr '.')}

inductive Item where
  | one (c : Byte)
  | many (c : Byte)
deriving DecidableEq, Repr

def Item.language : Item → Language Byte
  | .one c => single c
  | .many c => (single c)∗

/-- A pattern without its `^`: what it repeats and whether a `$` ends it. -/
structure Pattern where
  items : List Item
  atEnd : Bool
deriving DecidableEq, Repr

def Pattern.cons (i : Item) (p : Pattern) : Pattern := { p with items := i :: p.items }

/-- A star belongs to the character before it, whatever that is; a `$` is the end of the
    text only if it is the last character. -/
def pattern : List Byte → Pattern
  | [] => ⟨[], false⟩
  | [c] => if c = chr '$' then ⟨[], true⟩ else ⟨[.one c], false⟩
  | c :: d :: re =>
    if d = chr '*' then (pattern re).cons (.many c) else (pattern (d :: re)).cons (.one c)

def Pattern.language (p : Pattern) : Language Byte := (p.items.map Item.language).prod

/-- The text has a word of the language in front, and nothing else if `atEnd`. -/
def Front (L : Language Byte) (atEnd : Bool) (text : List Byte) : Prop :=
  ∃ w rest, text = w ++ rest ∧ w ∈ L ∧ (atEnd = true → rest = [])

/-- Some substring of the text is in the language of the pattern. -/
def Occurs (re text : List Byte) : Prop :=
  if re.head? = some (chr '^') then
    Front (pattern re.tail).language (pattern re.tail).atEnd text
  else
    ∃ skipped text', text = skipped ++ text' ∧
      Front (pattern re).language (pattern re).atEnd text'

/-! ### Languages in front of a text -/

theorem front_add : Front (L + M) e text ↔ Front L e text ∨ Front M e text := by
  simp only [Front, Language.mem_add, or_and_right, and_or_left, exists_or]

theorem front_nil : Front (1 : Language Byte) e text ↔ (e = true → text = []) := by
  simp [Front, Language.mem_one]

theorem not_front_single : ¬ Front (single c * L) e [] := by
  rintro ⟨w, rest, hnil, ⟨-, ⟨b, rfl, -⟩, v, -, rfl⟩, -⟩
  exact absurd hnil (by simp)

theorem front_single_cons :
    Front (single c * L) e (a :: text) ↔ (a = c ∨ c = chr '.') ∧ Front L e text := by
  refine ⟨?_, ?_⟩
  · rintro ⟨w, rest, htext, ⟨-, ⟨b, rfl, hb⟩, v, hv, rfl⟩, hend⟩
    obtain ⟨rfl, rfl⟩ : a = b ∧ text = v ++ rest := by simpa using htext
    exact ⟨hb, v, rest, rfl, hv, hend⟩
  · rintro ⟨ha, v, rest, rfl, hv, hend⟩
    exact ⟨a :: v, rest, rfl, ⟨[a], ⟨a, rfl, ha⟩, v, hv, rfl⟩, hend⟩

/-- A star matches nothing or one character and then again itself. -/
theorem front_many : Front ((single c)∗ * L) e text ↔
      Front L e text ∨ Front (single c * ((single c)∗ * L)) e text := by
  rw [← front_add, ← mul_assoc, ← one_add_mul, Language.one_add_self_mul_kstar_eq_kstar]

/-! ### The matcher -/

@[simp] theorem ch_cons_zero : ch (a :: text) 0 = a := rfl

@[simp] theorem ch_nil {i : Nat} : ch [] i = 0 := rfl

theorem matchstar_iff (hre : ∀ t, 0 ∉ t → (matchhere re t = true ↔ Front L e t))
    (htext : 0 ∉ text) : matchstar c re text = true ↔ Front ((single c)∗ * L) e text := by
  induction text with
  | nil =>
    rw [matchstar, front_many, ← hre [] htext]
    simp [not_front_single]
  | cons a text ih =>
    obtain ⟨ha, ht⟩ : 0 ≠ a ∧ 0 ∉ text := by simpa using htext
    rw [matchstar, front_many, front_single_cons, ← ih ht, ← hre (a :: text) htext]
    cases hhere : matchhere re (a :: text) with
    | true => simp
    | false => simpa using fun _ _ => ha.symm

/-- A character without a star that is not the final `$`. -/
theorem matchhere_one (hc : c ≠ 0) (hstar : ch re 0 ≠ chr '*')
    (hlast : ¬ (c = chr '$' ∧ ch re 0 = 0))
    (hre : ∀ t, 0 ∉ t → (matchhere re t = true ↔ Front L e t)) (htext : 0 ∉ text) :
    matchhere (c :: re) text = true ↔ Front (single c * L) e text := by
  have hstar' : ch (c :: re) 1 ≠ chr '*' := hstar
  have hlast' : ¬ (c = chr '$' ∧ ch (c :: re) 1 = 0) := hlast
  rw [matchhere, ch_cons_zero, if_neg hc, if_neg hstar', if_neg hlast']
  cases text with
  | nil => simpa using not_front_single
  | cons a text =>
    obtain ⟨ha, ht⟩ : 0 ≠ a ∧ 0 ∉ text := by simpa using htext
    have hany : ch (a :: text) 0 ≠ 0 ∧ (c = chr '.' ∨ c = a) ↔ a = c ∨ c = chr '.' := by
      rw [or_comm, eq_comm (a := c) (b := a)]
      exact and_iff_right ha.symm
    rw [front_single_cons, ← hre text ht, ← hany]
    simp

theorem matchhere_iff (hre : 0 ∉ re) (htext : 0 ∉ text) :
    matchhere re text = true ↔ Front (pattern re).language (pattern re).atEnd text := by
  induction re using pattern.induct generalizing text with
  | case1 => simp [matchhere, pattern, Pattern.language, front_nil]
  | case2 =>
    cases text with
    | nil => simp [matchhere, pattern, Pattern.language, front_nil, ch, chr]
    | cons a text =>
      have ha : a ≠ 0 := fun h => htext (h ▸ List.mem_cons_self)
      simpa [matchhere, pattern, Pattern.language, front_nil, ch, chr] using ha
  | case3 c hc =>
    have hnil : ∀ t, 0 ∉ t → (matchhere [] t = true ↔ Front 1 false t) := fun t _ => by
      simp [matchhere, front_nil]
    have hc0 : c ≠ 0 := fun h => hre (h ▸ List.mem_cons_self)
    rw [matchhere_one hc0 (by decide) (fun h => hc h.1) hnil htext, pattern, if_neg hc]
    simp [Pattern.language, Item.language]
  | case4 c re ih =>
    have hre' : 0 ∉ re := fun h => hre (.tail _ (.tail _ h))
    have hc : c ≠ 0 := fun h => hre (h ▸ List.mem_cons_self)
    have hstar : ch (c :: chr '*' :: re) 1 = chr '*' := rfl
    rw [matchhere, ch_cons_zero, if_neg hc, if_pos hstar, pattern, if_pos rfl]
    exact matchstar_iff (fun _ ht => ih hre' ht) htext
  | case5 c d re hd ih =>
    obtain ⟨hc, hre'⟩ : 0 ≠ c ∧ 0 ∉ d :: re := by simpa using hre
    have hd0 : d ≠ 0 := fun h => hre' (h ▸ List.mem_cons_self)
    have hstar : ch (d :: re) 0 ≠ chr '*' := hd
    rw [matchhere_one hc.symm hstar (fun h => hd0 h.2) (fun _ ht => ih hre' ht) htext, pattern,
      if_neg hd]
    rfl

theorem matchLoop_iff {P : List Byte → Prop} (hre : ∀ t, 0 ∉ t → (matchhere re t = true ↔ P t))
    (htext : 0 ∉ text) :
    matchLoop re text = true ↔ ∃ skipped text', text = skipped ++ text' ∧ P text' := by
  induction text with
  | nil =>
    rw [matchLoop]
    simp [hre]
  | cons a text ih =>
    obtain ⟨ha, ht⟩ : 0 ≠ a ∧ 0 ∉ text := by simpa using htext
    have hsplit : (∃ skipped text', a :: text = skipped ++ text' ∧ P text') ↔
        P (a :: text) ∨ ∃ skipped text', text = skipped ++ text' ∧ P text' := by
      refine ⟨?_, ?_⟩
      · rintro ⟨_ | ⟨b, skipped⟩, text', htext', hp⟩
        · exact Or.inl (htext' ▸ hp)
        · exact Or.inr ⟨skipped, text', (List.cons.inj htext').2, hp⟩
      · rintro (hp | ⟨skipped, text', rfl, hp⟩)
        · exact ⟨[], _, rfl, hp⟩
        · exact ⟨a :: skipped, text', rfl, hp⟩
    rw [matchLoop, hsplit, ← hre _ htext, ← ih ht]
    cases hhere : matchhere re (a :: text) with
    | true => simp
    | false => simpa using fun _ => ha.symm

/-- **`match` finds what the pattern means.**  On strings it answers 1 exactly if some
    substring, one at the beginning after a `^`, is in the language of the pattern. -/
theorem matchRe_iff (re text : List Byte) (hre : 0 ∉ re) (htext : 0 ∉ text) :
    matchRe re text = true ↔ Occurs re text := by
  cases re with
  | nil => exact matchLoop_iff (fun _ ht => matchhere_iff hre ht) htext
  | cons c re =>
    by_cases hc : c = chr '^'
    · subst hc
      exact matchhere_iff (fun h => hre (.tail _ h)) htext
    · rw [matchRe, Occurs, ch_cons_zero, if_neg hc, if_neg (by simpa using hc)]
      exact matchLoop_iff (fun _ ht => matchhere_iff hre ht) htext

/-- A star behind a dollar and a dollar at the end. -/
theorem matchRe_iff_dollars : matchRe ("^$*b$".toList.map chr) ("$$b".toList.map chr) = true ∧
      Occurs ("^$*b$".toList.map chr) ("$$b".toList.map chr) := by
  have hrun : matchRe ("^$*b$".toList.map chr) ("$$b".toList.map chr) = true := by
    simp [matchRe, matchhere, matchstar, ch, chr]
  exact ⟨hrun, (matchRe_iff _ _ (by decide) (by decide)).mp hrun⟩

end Grep

end Xv6Kernel
