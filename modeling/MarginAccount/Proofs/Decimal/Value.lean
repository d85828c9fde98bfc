import Mathlib
import MarginAccount.Decimal.Arithmetic

/-! # The exact value of a decimal

`Decimal.toRat` forgets the scale. Everything a decimal is compared by is a statement about this
value: the order, the sign tests, the opposite number and the larger of two. A magnitude is a
whole number of units of any place that the decimal has, and stays below `2 ^ 96`.
-/

namespace MarginAccount.Decimal

/-! ## The value by sign, mantissa and scale -/

theorem toRat_eq_units (d : Decimal) : d.toRat = d.units / 10 ^ 28 := by
  rw [toRat, Rat.mkRat_eq_div]
  norm_num

theorem units_eq_toRat (d : Decimal) : (d.units : ℚ) = d.toRat * 10 ^ 28 := by
  rw [toRat_eq_units]
  field_simp

theorem size_div (d : Decimal) : (d.size : ℚ) / 10 ^ 28 = d.mantissa / 10 ^ d.scale := by
  have h : (10 : ℚ) ^ 28 = 10 ^ (28 - d.scale) * 10 ^ d.scale := by
    rw [← pow_add, Nat.sub_add_cancel d.scale_le]
  rw [size, h]
  push_cast
  field_simp

theorem toRat_eq (d : Decimal) :
    d.toRat = if d.negative then -(d.mantissa / 10 ^ d.scale : ℚ) else d.mantissa / 10 ^ d.scale := by
  rw [toRat_eq_units, units, ← size_div]
  split
  · push_cast
    ring
  · push_cast
    rfl

theorem abs_toRat (d : Decimal) : |d.toRat| = d.mantissa / 10 ^ d.scale := by
  have h : (0 : ℚ) ≤ d.mantissa / 10 ^ d.scale := by positivity
  rw [toRat_eq]
  split
  · rw [abs_neg, abs_of_nonneg h]
  · exact abs_of_nonneg h

theorem toRat_of_parts (negative : Bool) (m s : ℕ) (hm : m < 2 ^ 96) (hs : s ≤ 28) :
    (⟨negative, m, s, hm, hs⟩ : Decimal).toRat =
      if negative then -(m / 10 ^ s : ℚ) else m / 10 ^ s :=
  toRat_eq _

/-- A signed number of units of a place, by its sign and its magnitude. -/
theorem signed_natAbs (z : ℤ) (s : ℕ) :
    (if decide (z < 0) = true then -(z.natAbs / 10 ^ s : ℚ) else z.natAbs / 10 ^ s) =
      z / 10 ^ s := by
  rw [Nat.cast_natAbs]
  by_cases hz : z < 0
  · rw [decide_eq_true hz, if_pos rfl, abs_of_neg hz]
    push_cast
    ring
  · rw [decide_eq_false hz, if_neg Bool.false_ne_true, abs_of_nonneg (not_lt.1 hz)]

theorem toRat_of_not_negative {d : Decimal} (h : d.negative = false) :
    d.toRat = d.mantissa / 10 ^ d.scale := by
  rw [toRat_eq, h]
  rfl

theorem toRat_of_nonneg {d : Decimal} (h : 0 ≤ d.toRat) : d.toRat = d.mantissa / 10 ^ d.scale := by
  rw [← abs_toRat, abs_of_nonneg h]

@[simp] theorem toRat_zero : zero.toRat = 0 := by
  rw [toRat_eq_units, units_zero]
  norm_num

@[simp] theorem toRat_one : one.toRat = 1 := by
  rw [toRat_of_not_negative rfl]
  norm_num [one, lit]

/-! ## Order and sign -/

theorem le_iff_toRat {a b : Decimal} : a ≤ b ↔ a.toRat ≤ b.toRat := by
  rw [le_def, toRat_eq_units, toRat_eq_units, div_le_div_iff_of_pos_right (by positivity)]
  exact Int.cast_le.symm

theorem lt_iff_toRat {a b : Decimal} : a < b ↔ a.toRat < b.toRat := by
  rw [lt_def, toRat_eq_units, toRat_eq_units, div_lt_div_iff_of_pos_right (by positivity)]
  exact Int.cast_lt.symm

theorem isZero_iff_toRat {d : Decimal} : d.isZero = true ↔ d.toRat = 0 := by
  rw [isZero_iff, toRat_eq_units]
  constructor
  · intro h
    rw [h]
    norm_num
  · intro h
    have h' : (d.units : ℚ) = 0 := by
      rwa [div_eq_zero_iff, or_iff_left (by positivity)] at h
    exact_mod_cast h'

theorem isZero_eq_false_iff {d : Decimal} : d.isZero = false ↔ d.toRat ≠ 0 := by
  rw [← not_iff_not, Bool.not_eq_false, isZero_iff_toRat, not_not]

theorem isPositive_iff {d : Decimal} : d.isPositive = true ↔ 0 < d.toRat := by
  rw [isPositive, decide_eq_true_iff, lt_iff_toRat, toRat_zero]

theorem isPositive_eq_false_iff {d : Decimal} : d.isPositive = false ↔ d.toRat ≤ 0 := by
  rw [← not_iff_not, Bool.not_eq_false, isPositive_iff, not_le]

theorem isNegative_iff {d : Decimal} : d.isNegative = true ↔ d.toRat < 0 := by
  rw [isNegative, decide_eq_true_iff, lt_iff_toRat, toRat_zero]

theorem isNegative_eq_false_iff {d : Decimal} : d.isNegative = false ↔ 0 ≤ d.toRat := by
  rw [isNegative, decide_eq_false_iff_not, lt_iff_toRat, toRat_zero, not_lt]

@[simp] theorem toRat_neg (d : Decimal) : d.neg.toRat = -d.toRat := by
  unfold neg
  split
  · rename_i h
    rw [isZero_iff_toRat.1 h, neg_zero]
  · rw [toRat_eq, toRat_eq]
    cases d.negative <;> simp

theorem toRat_max (a b : Decimal) : (a.max b).toRat = Max.max a.toRat b.toRat := by
  unfold max
  split
  · rename_i h
    exact (max_eq_right (lt_iff_toRat.1 h).le).symm
  · rename_i h
    exact (max_eq_left (not_lt.1 (mt lt_iff_toRat.2 h))).symm

/-! ## Size -/

/-- A magnitude is at most the largest mantissa. -/
theorem abs_toRat_le (d : Decimal) : |d.toRat| ≤ 2 ^ 96 - 1 := by
  have hm : (d.mantissa : ℚ) + 1 ≤ 2 ^ 96 := by exact_mod_cast d.mantissa_lt
  rw [abs_toRat]
  have hd : (d.mantissa : ℚ) / 10 ^ d.scale ≤ d.mantissa :=
    div_le_self (by positivity) (one_le_pow₀ (by norm_num))
  linarith

/-- A positive decimal is at least one unit of the last place there is. -/
theorem le_toRat_of_pos {d : Decimal} (h : 0 < d.toRat) : 1 / 10 ^ 28 ≤ d.toRat := by
  have hu : (0 : ℤ) < d.units := by
    have h' : (0 : ℚ) < d.units := by
      rw [units_eq_toRat]
      positivity
    exact_mod_cast h'
  rw [toRat_eq_units, div_le_div_iff_of_pos_right (by positivity)]
  exact_mod_cast hu

/-- A mantissa of more than 64 bits is worth that many units of the last place there is. -/
theorem le_abs_toRat_of_isLong {d : Decimal} (h : d.isLong = true) : 2 ^ 64 / 10 ^ 28 ≤ |d.toRat| := by
  have hm : (2 ^ 64 : ℚ) ≤ d.mantissa := by exact_mod_cast of_decide_eq_true h
  have hs : (10 : ℚ) ^ d.scale ≤ 10 ^ 28 := pow_le_pow_right₀ (by norm_num) d.scale_le
  rw [abs_toRat]
  gcongr

/-! ## Exact operations

An operation is exact on two decimals if its result, where there is one, has the value that the
operation has on rationals. -/

def AddExact (a b : Decimal) : Prop := ∀ c ∈ a.add? b, c.toRat = a.toRat + b.toRat

def SubExact (a b : Decimal) : Prop := ∀ c ∈ a.sub? b, c.toRat = a.toRat - b.toRat

def MulExact (a b : Decimal) : Prop := ∀ c ∈ a.mul? b, c.toRat = a.toRat * b.toRat

def DivExact (a b : Decimal) : Prop := ∀ c ∈ a.div? b, c.toRat = a.toRat / b.toRat

instance (a b : Decimal) : Decidable (a.AddExact b) := inferInstanceAs (Decidable (∀ c ∈ _, _))

instance (a b : Decimal) : Decidable (a.SubExact b) := inferInstanceAs (Decidable (∀ c ∈ _, _))

instance (a b : Decimal) : Decidable (a.MulExact b) := inferInstanceAs (Decidable (∀ c ∈ _, _))

instance (a b : Decimal) : Decidable (a.DivExact b) := inferInstanceAs (Decidable (∀ c ∈ _, _))

end MarginAccount.Decimal
