/-
  Numerals.lean
  =============
  Printing and reading numbers in user programs: `printint` in `printf.c`, `atoi` and `atog`
  in `ulib.c`.

  A string is the list of its characters without the NUL that ends it.  An `int` is a word
  and its arithmetic wraps around, so that `-xx` is defined for the most negative number.
  The loops are compared with Mathlib's digits of a number.

  Left out: the length 16 of `buf`, which the 11 characters of a number in base 10 do not
  reach.
-/
import Mathlib.Data.List.TakeWhile
import Mathlib.Data.Nat.Digits.Defs
import Xv6Kernel.GrepMatch

namespace Xv6Kernel

namespace Ulib

open Grep List

/-! ### The functions -/

/-- The table `digits` of `printint`. -/
def digits : List Byte := "0123456789ABCDEF".toList.map chr

def digit (d : Nat) : Byte := digits.getD d 0

/-- The loop that fills `buf`, with the least digit first. -/
def printintLoop (base : Uint) : (fuel : Nat) → (x : Uint) → List Byte
  | 0, _ => []
  | fuel + 1, x =>
      digit (x % base).toNat :: if x / base ≠ 0 then printintLoop base fuel (x / base) else []

/-- What `printint` writes. -/
def printint (xx base : Uint) (sgn : Bool) : List Byte :=
  let neg := sgn && xx.slt 0
  let x := if neg then -xx else xx
  let buf := printintLoop base 32 x
  (if neg then buf ++ [chr '-'] else buf).reverse

def isDigit (c : Byte) : Bool := chr '0' ≤ c && c ≤ chr '9'

/-- The loop over the digits: the number, and the string behind them. -/
def atogLoop (b : Uint) : (n : Uint) → (s : List Byte) → Uint × List Byte
  | n, [] => (n, [])
  | n, c :: s =>
      if isDigit c then atogLoop b (n * b + c.setWidth 32 - 48) s else (n, c :: s)

def skipSpaces (s : List Byte) : List Byte := s.dropWhile (· == chr ' ')

def sign (s : List Byte) : Uint := if ch s 0 = chr '-' then -1 else 1

def skipSign (s : List Byte) : List Byte :=
  if ch s 0 = chr '+' ∨ ch s 0 = chr '-' then s.drop 1 else s

/-- The result of `atog` and the string that it has not read. -/
def atogRun (s : List Byte) (b : Uint) : Uint × List Byte :=
  let s := skipSpaces s
  let (n, rest) := atogLoop b 0 (skipSign s)
  (sign s * n, rest)

def atog (s : List Byte) (b : Uint) : Uint := (atogRun s b).1

/-- `atoi` has the body of `atog`, with 10 for the base. -/
def atoi (s : List Byte) : Uint := atog s 10

/-! ### Numerals -/

/-- The digits of `x` in base `b`, the greatest first. -/
def digitsOf (b x : Nat) : List Nat := if x = 0 then [0] else (Nat.digits b x).reverse

def numeral (b x : Nat) : List Byte := (digitsOf b x).map digit

/-- The number that digits denote, the greatest first. -/
def value (b : Nat) (ds : List Nat) : Nat := ds.foldl (fun n d => n * b + d) 0

variable {b : Nat}

theorem value_eq_ofDigits (ds : List Nat) : value b ds = Nat.ofDigits b ds.reverse := by
  rw [Nat.ofDigits_eq_foldr, foldr_reverse]
  unfold value
  simp only [Nat.cast_id, Nat.add_comm, Nat.mul_comm]

theorem value_digitsOf : value b (digitsOf b x) = x := by
  rw [value_eq_ofDigits]
  unfold digitsOf
  split
  · next h => rw [h]; rfl
  · rw [reverse_reverse, Nat.ofDigits_digits]

theorem value_append (ds es : List Nat) :
    value b (ds ++ es) = value b es + b ^ es.length * value b ds := by
  simp only [value_eq_ofDigits, reverse_append, Nat.ofDigits_append, length_reverse]

section

variable (hb : 1 < b)

include hb

theorem digitsOf_lt : ∀ d ∈ digitsOf b x, d < b := by
  unfold digitsOf
  intro d hd
  split at hd
  · rw [mem_singleton.mp hd]
    exact Nat.zero_lt_of_lt hb
  · exact Nat.digits_lt_base hb (mem_reverse.mp hd)

theorem digitsOf_div (hx : x / b ≠ 0) : digitsOf b x = digitsOf b (x / b) ++ [x % b] := by
  have hpos : x ≠ 0 := by
    rintro rfl
    exact hx (Nat.zero_div b)
  unfold digitsOf
  rw [if_neg hpos, if_neg hx, Nat.digits_eq_cons_digits_div hb hpos, reverse_cons]

theorem digitsOf_of_lt (hx : x / b = 0) : digitsOf b x = [x % b] := by
  have hlt : x < b := (Nat.div_eq_zero_iff_lt (Nat.zero_lt_of_lt hb)).mp hx
  rw [Nat.mod_eq_of_lt hlt]
  unfold digitsOf
  split
  · next h => rw [h]
  · next h => rw [Nat.digits_of_lt b x h hlt]; rfl

/-- A part of a numeral denotes a smaller number, unless it is the whole of it. -/
theorem value_prefix (h : digitsOf b x = ds ++ es) (hes : x = 0 → es = []) :
    value b ds ≤ x ∧ (value b ds = x ↔ es = []) := by
  have hval : value b es + b ^ es.length * value b ds = x := by
    rw [← value_append, ← h, value_digitsOf]
  have hle := Nat.le_mul_of_pos_left (value b ds)
    (Nat.pow_pos (n := es.length) (Nat.zero_lt_of_lt hb))
  refine ⟨by omega, ?_⟩
  constructor
  · intro heq
    by_contra hne
    have hpow : 2 ≤ b ^ es.length :=
      Nat.le_trans hb (Nat.le_self_pow (length_pos_iff.mpr hne).ne' b)
    have hmul := Nat.mul_le_mul_right (value b ds) hpow
    exact hne (hes (by omega))
  · rintro rfl
    simpa [value] using hval

end

/-! ### The loops -/

section

variable {base : Uint} (hb : 1 < base.toNat)

include hb

theorem printintLoop_last (hy : y.toNat / base.toNat = 0) :
    (printintLoop base (fuel + 1) y).reverse = numeral base.toNat y.toNat := by
  have hzero : y / base = 0 := BitVec.eq_of_toNat_eq (by rw [BitVec.toNat_udiv, hy]; rfl)
  unfold printintLoop numeral
  rw [if_neg (not_not.mpr hzero), digitsOf_of_lt hb hy, BitVec.toNat_umod]
  rfl

theorem printintLoop_eq (fuel : Nat) (hy : y.toNat / base.toNat < base.toNat ^ fuel) :
    (printintLoop base (fuel + 1) y).reverse = numeral base.toNat y.toNat := by
  induction fuel generalizing y with
  | zero => exact printintLoop_last hb (Nat.lt_one_iff.mp hy)
  | succ fuel ih =>
    by_cases hz : y.toNat / base.toNat = 0
    · exact printintLoop_last hb hz
    · have hne : y / base ≠ 0 := by
        intro hcon
        have hval := congrArg BitVec.toNat hcon
        rw [BitVec.toNat_udiv] at hval
        exact hz hval
      have hdiv : (y / base).toNat / base.toNat < base.toNat ^ fuel := by
        rw [BitVec.toNat_udiv]
        exact Nat.div_lt_of_lt_mul (by rwa [Nat.mul_comm, ← Nat.pow_succ])
      unfold printintLoop
      rw [if_pos hne, reverse_cons, ih hdiv]
      unfold numeral
      rw [digitsOf_div hb hz, map_append, BitVec.toNat_udiv, BitVec.toNat_umod]
      rfl

end

/-- The loop stops at the first digit that is a letter. -/
theorem atogLoop_numeral (ds : List Nat) : ∀ n, (∀ d ∈ ds, d < 16) →
    atogLoop (.ofNat 32 b) (.ofNat 32 n) (ds.map digit) =
      (.ofNat 32 ((ds.takeWhile (· < 10)).foldl (fun n d => n * b + d) n),
        (ds.dropWhile (· < 10)).map digit) := by
  have hdigit : ∀ d < 16, isDigit (digit d) = decide (d < 10) ∧
      (d < 10 → (digit d).setWidth 32 = BitVec.ofNat 32 d + 48) := by decide
  induction ds with
  | nil => exact fun _ _ => rfl
  | cons d ds ih =>
    intro n hds
    obtain ⟨his, hval⟩ := hdigit d (hds d mem_cons_self)
    rw [map_cons]
    unfold atogLoop
    by_cases hd : d < 10
    · simp only [his, takeWhile_cons, dropWhile_cons, hd, decide_true, if_true, foldl_cons]
      rw [hval hd, ← BitVec.add_assoc, BitVec.add_sub_cancel, ← BitVec.ofNat_mul,
        ← BitVec.ofNat_add]
      exact ih _ fun e he => hds e (mem_cons_of_mem _ he)
    · simp [his, hd]

theorem atogLoop_rest (w : Uint) (s : List Byte) : ∀ n,
    (atogLoop w n s).2 = s.dropWhile isDigit := by
  induction s with
  | nil => exact fun _ => rfl
  | cons c s ih =>
    intro n
    unfold atogLoop
    by_cases hc : isDigit c = true
    · rw [if_pos hc, dropWhile_cons_of_pos hc]
      exact ih _
    · rw [if_neg hc, dropWhile_cons_of_neg hc]

/-! ### Reading a numeral -/

/-- What `atog` reads behind spaces and a sign are digits of base `b`. -/
def ReadsDigits (s : List Byte) (b : Nat) : Prop :=
  ∃ cs, skipSign (skipSpaces s) = cs ++ (atogRun s (.ofNat 32 b)).2 ∧ ∀ c ∈ cs, c ∈ digits.take b

theorem readsDigits_iff (hb : b ≤ 16) : ReadsDigits s b ↔
    ∀ c ∈ (skipSign (skipSpaces s)).takeWhile isDigit, c.toNat < 48 + b := by
  have htable : ∀ d < 10, ∀ b < 17,
      (BitVec.ofNat 8 (48 + d) ∈ digits.take b ↔ 48 + d < 48 + b) := by decide
  have hmem : ∀ c, isDigit c = true → (c ∈ digits.take b ↔ c.toNat < 48 + b) := by
    intro c hc
    unfold isDigit at hc
    rw [Bool.and_eq_true, decide_eq_true_iff, decide_eq_true_iff, BitVec.le_def,
      BitVec.le_def] at hc
    change 48 ≤ c.toNat ∧ c.toNat ≤ 57 at hc
    have h := htable (c.toNat - 48) (by omega) b (by omega)
    rwa [Nat.add_sub_cancel' hc.1, BitVec.ofNat_toNat, BitVec.setWidth_eq] at h
  have hrun : (atogRun s (.ofNat 32 b)).2 = (skipSign (skipSpaces s)).dropWhile isDigit :=
    atogLoop_rest ..
  unfold ReadsDigits
  rw [hrun]
  constructor
  · rintro ⟨cs, happ, hcs⟩ c hc
    have heq := append_cancel_right (happ.symm.trans takeWhile_append_dropWhile.symm)
    exact (hmem c (mem_takeWhile_imp hc)).mp (hcs c (heq ▸ hc))
  · intro h
    exact ⟨_, takeWhile_append_dropWhile.symm, fun c hc =>
      (hmem c (mem_takeWhile_imp hc)).mpr (h c hc)⟩

section

variable (hb : 1 < b) (hle : b ≤ 16)

include hb hle

/-- A numeral has no spaces and no sign. -/
theorem atog_eq_loop : atog (numeral b x) w = (atogLoop w 0 (numeral b x)).1 := by
  have hhead : ∀ d < 16, digit d ≠ chr ' ' ∧ digit d ≠ chr '+' ∧ digit d ≠ chr '-' := by decide
  have hlt := digitsOf_lt hb (x := x)
  have hne : digitsOf b x ≠ [] := by
    unfold digitsOf
    split <;> simp_all [Nat.digits_eq_nil_iff_eq_zero]
  unfold numeral
  cases hd : digitsOf b x with
  | nil => exact absurd hd hne
  | cons d ds =>
    rw [hd] at hlt
    obtain ⟨hspace, hplus, hminus⟩ := hhead d ((hlt d mem_cons_self).trans_le hle)
    have hskip : skipSpaces (map digit (d :: ds)) = map digit (d :: ds) :=
      dropWhile_cons_of_neg (by simpa using hspace)
    have hch : ch (map digit (d :: ds)) 0 = digit d := rfl
    unfold atog atogRun
    simp only [hskip, skipSign, sign, hch, hplus, hminus, or_false, if_false]
    exact BitVec.one_mul _

theorem atogLoop_value : (atogLoop (.ofNat 32 b) 0 (numeral b x)).1 =
    .ofNat 32 (value b ((digitsOf b x).takeWhile (· < 10))) :=
  congrArg Prod.fst (atogLoop_numeral _ 0 fun d hd => (digitsOf_lt hb d hd).trans_le hle)

/-- `atog` reads a numeral if and only if no digit is a letter. -/
theorem atog_numeral_iff (hx : x < 2 ^ 32) :
    atog (numeral b x) (.ofNat 32 b) = .ofNat 32 x ↔ ∀ d ∈ digitsOf b x, d < 10 := by
  have hzero : x = 0 → (digitsOf b x).dropWhile (· < 10) = [] := by
    rintro rfl
    rfl
  obtain ⟨hval, hiff⟩ := value_prefix hb takeWhile_append_dropWhile.symm hzero
  rw [atog_eq_loop hb hle, atogLoop_value hb hle, ← BitVec.toNat_inj, BitVec.toNat_ofNat,
    BitVec.toNat_ofNat, Nat.mod_eq_of_lt (by omega), Nat.mod_eq_of_lt (by omega), hiff,
    dropWhile_eq_nil_iff]
  simp only [decide_eq_true_eq]

end

theorem atogLoop_ten (y : Uint) : (atogLoop 10 0 (numeral 10 y.toNat)).1 = y := by
  have h := (atog_numeral_iff (b := 10) (by decide) (by decide) y.isLt).mpr (digitsOf_lt (by decide))
  rwa [atog_eq_loop (by decide) (by decide), BitVec.ofNat_toNat, BitVec.setWidth_eq] at h

/-- What `printint` writes for an `int`, `atoi` reads. -/
theorem atoi_printint (y : Uint) : atoi (printint y 10 true) = y := by
  have hloop : ∀ z : Uint, (printintLoop 10 32 z).reverse = numeral 10 z.toNat := by
    intro z
    refine printintLoop_eq (by decide) 31 (Nat.lt_of_le_of_lt (Nat.div_le_self ..) ?_)
    exact z.isLt.trans (by decide)
  unfold printint
  rw [Bool.true_and]
  cases hneg : y.slt 0 with
  | false =>
    simp only [Bool.false_eq_true, if_false]
    rw [hloop]
    exact (atog_eq_loop (by decide) (by decide)).trans (atogLoop_ten y)
  | true =>
    simp only [if_true, reverse_append, reverse_singleton, singleton_append]
    rw [hloop]
    change -1 * (atogLoop 10 0 (numeral 10 (-y).toNat)).1 = y
    rw [atogLoop_ten, BitVec.neg_mul, BitVec.mul_neg, BitVec.neg_neg]
    exact BitVec.one_mul y

/-- Reading gives back what was written if and only if all the digits are decimal, and `atog` reads
    digits of its base only if the decimal digits that come next are. -/
theorem numerals_iff {b x : Nat} (hb : 1 < b) (hle : b ≤ 16) (hx : x < 2 ^ 31) (y : Uint)
    (s : List Byte) :
    (atoi (printint y 10 true) = y ∧ atog (numeral b x) (.ofNat 32 b) = .ofNat 32 x ∧
      ReadsDigits s b) ↔
    (∀ d ∈ digitsOf b x, d < 10) ∧
      ∀ c ∈ (skipSign (skipSpaces s)).takeWhile isDigit, c.toNat < 48 + b := by
  rw [and_iff_right (atoi_printint y), atog_numeral_iff hb hle (by omega),
    readsDigits_iff hle]

theorem numerals_iff_octal : atoi (printint (BitVec.intMin 32) 10 true) = BitVec.intMin 32 ∧
    atog (numeral 8 7) 8 = 7 ∧ ReadsDigits [chr '7', chr 'A'] 8 :=
  (numerals_iff (by decide) (by decide) (by decide) _ _).mpr
    ⟨by rw [digitsOf_of_lt] <;> decide, by decide⟩

/-- `atog` stops at a letter, and it reads 9 in base 8. -/
theorem atog_stops_at_letter : atog (numeral 16 10) 16 = 0 ∧ atog [chr '9'] 8 = 9 ∧
    ¬ ReadsDigits [chr '9'] 8 := by
  have hten : numeral 16 10 = [chr 'A'] := by
    unfold numeral
    rw [digitsOf_of_lt] <;> decide
  rw [hten, readsDigits_iff (by decide)]
  decide

end Ulib

end Xv6Kernel
