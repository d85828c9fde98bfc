import MarginAccount.Power

/-! # Decimal numbers that keep their scale

A decimal is a sign, a mantissa below `2 ^ 96` and a scale of at most 28, and stands for
`± mantissa / 10 ^ scale`. The scale is part of the number, so `1.0` and `1.00` are two decimals of
one value. `units` counts the value in steps of `10 ^ (-28)`, which every scale can express; all
comparison goes through it.
-/

namespace MarginAccount

structure Decimal where
  negative : Bool
  mantissa : Nat
  scale : Nat
  mantissa_lt : mantissa < 2 ^ 96 := by decide
  scale_le : scale ≤ 28 := by decide
deriving DecidableEq, Repr

namespace Decimal

/-- The decimal with these parts, if they are in range. -/
def ofParts? (negative : Bool) (mantissa scale : Nat) : Option Decimal :=
  if h : mantissa < 2 ^ 96 ∧ scale ≤ 28 then some ⟨negative, mantissa, scale, h.1, h.2⟩ else none

/-- Whether a decimal may have this mantissa and this scale. -/
def inRange (mantissa scale : Nat) : Bool := mantissa < 2 ^ 96 && scale ≤ 28

theorem inRange_iff (mantissa scale : Nat) :
    inRange mantissa scale = true ↔ mantissa < 2 ^ 96 ∧ scale ≤ 28 := by
  rw [inRange, Bool.and_eq_true, decide_eq_true_iff, decide_eq_true_iff]

/-- The number `mantissa / 10 ^ scale`. -/
def lit (mantissa : Nat) (scale : Nat := 0)
    (h : inRange mantissa scale = true := by exact Eq.refl true) : Decimal :=
  ⟨false, mantissa, scale, ((inRange_iff ..).1 h).1, ((inRange_iff ..).1 h).2⟩

def zero : Decimal := lit 0

def one : Decimal := lit 1

instance : Inhabited Decimal := ⟨zero⟩

/-- The magnitude in units of `10 ^ (-28)`. -/
def size (d : Decimal) : Nat := d.mantissa * 10 ^ (28 - d.scale)

/-- The value in units of `10 ^ (-28)`. -/
def units (d : Decimal) : Int := if d.negative then -d.size else d.size

/-- The exact value. -/
def toRat (d : Decimal) : Rat := mkRat d.units (10 ^ 28)

instance : LE Decimal := ⟨fun a b => a.units ≤ b.units⟩

instance : LT Decimal := ⟨fun a b => a.units < b.units⟩

instance (a b : Decimal) : Decidable (a ≤ b) := inferInstanceAs (Decidable (a.units ≤ b.units))

instance (a b : Decimal) : Decidable (a < b) := inferInstanceAs (Decidable (a.units < b.units))

instance : Ord Decimal := ⟨fun a b => compare a.units b.units⟩

theorem le_def (a b : Decimal) : a ≤ b ↔ a.units ≤ b.units := Iff.rfl

theorem lt_def (a b : Decimal) : a < b ↔ a.units < b.units := Iff.rfl

def isZero (d : Decimal) : Bool := d.mantissa == 0

/-- Below zero in value: a zero with a minus sign is not. -/
def isNegative (d : Decimal) : Bool := d < zero

def isPositive (d : Decimal) : Bool := zero < d

/-- The opposite number; a zero is left as it is. -/
def neg (d : Decimal) : Decimal := if d.isZero then d else { d with negative := !d.negative }

/-- The larger of two, the first where they have one value. -/
def max (a b : Decimal) : Decimal := if a < b then b else a

@[simp] theorem units_zero : zero.units = 0 := rfl

theorem ofParts?_eq_some {negative : Bool} {mantissa scale : Nat}
    (hm : mantissa < 2 ^ 96) (hs : scale ≤ 28) :
    ofParts? negative mantissa scale = some ⟨negative, mantissa, scale, hm, hs⟩ :=
  dif_pos ⟨hm, hs⟩

@[simp] theorem natAbs_units (d : Decimal) : d.units.natAbs = d.size := by
  unfold units
  split <;> simp

theorem isZero_iff_size (d : Decimal) : d.isZero = true ↔ d.size = 0 := by
  have hp : 10 ^ (28 - d.scale) ≠ 0 := Nat.ne_of_gt (Nat.pow_pos (by decide))
  rw [isZero, size, beq_iff_eq, Nat.mul_eq_zero, or_iff_left hp]

theorem isZero_iff (d : Decimal) : d.isZero = true ↔ d.units = 0 := by
  rw [isZero_iff_size, ← natAbs_units, Int.natAbs_eq_zero]

end Decimal

end MarginAccount
