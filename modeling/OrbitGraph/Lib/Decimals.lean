import Mathlib.Data.List.TakeWhile
import Mathlib.Tactic.Linarith
import Mathlib.Tactic.Positivity
import Mathlib.Tactic.FieldSimp
import Mathlib.Tactic.Ring

/-!
The digits after a decimal point.

A list of digits is a fraction below one. Final zeros do not change it, and fractions
are in the order of their digits once the shorter is filled with zeros.
-/

namespace Lib.Decimals

def digit (c : Char) : Nat := c.toNat - '0'.toNat

/-- What the digits after the point stand for. -/
def fraction : List Char → ℚ
  | [] => 0
  | c :: rest => (digit c + fraction rest) / 10

/-- The order of characters by their numbers. -/
def byNumber (c d : Char) : Ordering := compare c.toNat d.toNat

theorem digit_bounds {c : Char} (isDigit : c.isDigit = true) : '0'.toNat ≤ c.toNat ∧ c.toNat ≤ '0'.toNat + 9 := by
  simpa [Char.isDigit, UInt32.le_iff_toNat_le] using isDigit

instance : Std.ReflCmp byNumber where
  compare_self := Nat.compare_eq_eq.mpr rfl

instance : Std.LawfulEqCmp byNumber where
  eq_of_compare same := Char.toNat_inj.mp (Nat.compare_eq_eq.mp same)

theorem byNumber_eq {c d : Char} (left : c.isDigit = true) (right : d.isDigit = true) :
    byNumber c d = compare (digit c) (digit d) := by
  have boundsC := digit_bounds left
  have boundsD := digit_bounds right
  unfold byNumber digit
  rw [Nat.compare_eq_ite_lt, Nat.compare_eq_ite_lt]
  split_ifs <;> first | rfl | omega

variable {ds es : List Char}

theorem fraction_bounds (digits : ds.all Char.isDigit = true) : 0 ≤ fraction ds ∧ fraction ds < 1 := by
  induction ds with
  | nil => exact ⟨le_rfl, zero_lt_one⟩
  | cons c rest ih =>
    rw [List.all_cons, Bool.and_eq_true] at digits
    obtain ⟨nonneg, below⟩ := ih digits.2
    have bounds := digit_bounds digits.1
    have atMost : digit c ≤ 9 := by
      simp only [digit]
      omega
    have small : (digit c : ℚ) ≤ 9 := by exact_mod_cast atMost
    rw [fraction]
    constructor
    · positivity
    · rw [div_lt_one (by norm_num)]
      linarith

theorem fraction_zeros (n : Nat) : fraction (List.replicate n '0') = 0 := by
  induction n with
  | zero => rfl
  | succ n ih => simp [List.replicate_succ, fraction, digit, ih]

theorem fraction_append_zeros (ds : List Char) (n : Nat) : fraction (ds ++ List.replicate n '0') = fraction ds := by
  induction ds with
  | nil => exact fraction_zeros n
  | cons c rest ih => rw [List.cons_append, fraction, fraction, ih]

/-- The digits after the point are the number that they write, shifted by as many places. -/
theorem fraction_eq_div (ds : List Char) : fraction ds = Nat.ofDigitChars 10 ds 0 / 10 ^ ds.length := by
  induction ds with
  | nil => simp [fraction]
  | cons c rest ih =>
    have first : Nat.ofDigitChars 10 (c :: rest) 0 = 10 ^ rest.length * digit c + Nat.ofDigitChars 10 rest 0 := by
      rw [Nat.ofDigitChars_cons, Nat.ofDigitChars_eq_ofDigitChars_zero, Nat.mul_zero, Nat.zero_add]
      rfl
    rw [fraction, ih, first, List.length_cons, pow_succ]
    push_cast
    field_simp

theorem compareLex_compares (length : ds.length = es.length) (left : ds.all Char.isDigit = true)
    (right : es.all Char.isDigit = true) : (ds.compareLex byNumber es).Compares (fraction ds) (fraction es) := by
  induction ds generalizing es with
  | nil =>
    obtain rfl := List.length_eq_zero_iff.mp length.symm
    exact rfl
  | cons c rest ih =>
    cases es with
    | nil => cases length
    | cons d rest' =>
      rw [List.all_cons, Bool.and_eq_true] at left right
      have later := ih (Nat.succ.inj length) left.2 right.2
      obtain ⟨nonneg, below⟩ := fraction_bounds left.2
      obtain ⟨nonneg', below'⟩ := fraction_bounds right.2
      rw [List.compareLex_cons_cons, byNumber_eq left.1 right.1, fraction, fraction]
      rcases Nat.lt_trichotomy (digit c) (digit d) with less | equal | greater
      · have step : (digit c : ℚ) + 1 ≤ digit d := by exact_mod_cast less
        rw [Nat.compare_eq_lt.mpr less]
        change _ < _
        linarith
      · rw [equal, Nat.compare_eq_eq.mpr rfl, Ordering.eq_then]
        generalize rest.compareLex byNumber rest' = order at later
        cases order with
        | lt =>
          change fraction rest < fraction rest' at later
          change _ < _
          linarith
        | eq =>
          change fraction rest = fraction rest' at later
          rw [later]
          exact rfl
        | gt =>
          change fraction rest > fraction rest' at later
          change _ > _
          linarith
      · have step : (digit d : ℚ) + 1 ≤ digit c := by exact_mod_cast greater
        rw [Nat.compare_eq_gt.mpr greater]
        change _ > _
        linarith

/-- The digits without the final zeros. -/
def strip (ds : List Char) : List Char := (ds.reverse.dropWhile (· = '0')).reverse

theorem exists_strip (ds : List Char) : ∃ n, ds = strip ds ++ List.replicate n '0' := by
  refine ⟨(ds.reverse.takeWhile (· = '0')).length, ?_⟩
  have zeros : ds.reverse.takeWhile (· = '0') = List.replicate (ds.reverse.takeWhile (· = '0')).length '0' := by
    refine List.eq_replicate_of_mem fun c mem => ?_
    simpa using List.mem_takeWhile_imp (p := fun c => decide (c = '0')) mem
  have whole := congrArg List.reverse (List.takeWhile_append_dropWhile (p := (· = '0')) (l := ds.reverse))
  rw [List.reverse_append, List.reverse_reverse, zeros, List.reverse_replicate] at whole
  exact whole.symm

/-- Zeros after digits that do not end with one are what is dropped. -/
theorem strip_append_zeros (last : ds.getLast? ≠ some '0') (n : Nat) : strip (ds ++ List.replicate n '0') = ds := by
  unfold strip
  rw [List.reverse_append, List.reverse_replicate, List.dropWhile_append_of_pos (by simp)]
  cases rev : ds.reverse with
  | nil => rw [List.dropWhile_nil, List.reverse_nil, List.reverse_eq_nil_iff.mp rev]
  | cons c rest =>
    have final : ds.getLast? = some c := by rw [← List.head?_reverse, rev, List.head?_cons]
    have other : c ≠ '0' := by
      rintro rfl
      exact last final
    rw [List.dropWhile_cons_of_neg (by simpa using other), ← rev, List.reverse_reverse]

theorem all_strip (digits : ds.all Char.isDigit = true) : (strip ds).all Char.isDigit = true := by
  obtain ⟨n, same⟩ := exists_strip ds
  rw [same, List.all_append, Bool.and_eq_true] at digits
  exact digits.1

theorem strip_getLast? (ds : List Char) : (strip ds).getLast? ≠ some '0' := by
  unfold strip
  rw [List.getLast?_reverse]
  intro last
  have kept := List.head?_dropWhile_not (fun c => decide (c = '0')) ds.reverse
  rw [last] at kept
  simp at kept

end Lib.Decimals
