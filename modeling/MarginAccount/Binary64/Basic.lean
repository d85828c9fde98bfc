import MarginAccount.Decimal.Rounding

/-! # Binary floating point of 64 bits

The non-negative finite numbers of the format, as an integer significand of at most 53 bits times a
power of two. `nearest` rounds a non-negative rational, ties to the even significand; the arithmetic
of the format is exact rational arithmetic followed by `nearest`.
-/

namespace MarginAccount

/-- The number `significand · 2 ^ exponent`. -/
structure Binary64 where
  significand : Nat
  exponent : Int
deriving DecidableEq, Repr

namespace Binary64

def toRat (x : Binary64) : Rat :=
  if 0 ≤ x.exponent then (x.significand * 2 ^ x.exponent.toNat : Nat)
  else mkRat x.significand (2 ^ (-x.exponent).toNat)

/-- The power of two at or below `n / d`, for positive `n` and `d`. -/
def binaryOrder (n d : Nat) : Int :=
  let guess : Int := n.log2 - d.log2
  let below := if 0 ≤ guess then n < d * 2 ^ guess.toNat else n * 2 ^ (-guess).toNat < d
  if below then guess - 1 else guess

/-- The number of the format nearest to a non-negative rational. The exponent is not limited above:
`isFinite` tells whether the format has it. -/
def nearest (x : Rat) : Binary64 :=
  let n := x.num.natAbs
  let d := x.den
  let e := max (binaryOrder n d - 52) (-1074)
  let m := if 0 ≤ e then halfEven n (d * 2 ^ e.toNat) else halfEven (n * 2 ^ (-e).toNat) d
  if m = 2 ^ 53 then ⟨2 ^ 52, e + 1⟩ else ⟨m, e⟩

def ofNat (n : Nat) : Binary64 := nearest n

def isFinite (x : Binary64) : Bool := x.exponent ≤ 971

def isZero (x : Binary64) : Bool := x.significand == 0

def add (x y : Binary64) : Binary64 := nearest (x.toRat + y.toRat)

def mul (x y : Binary64) : Binary64 := nearest (x.toRat * y.toRat)

def div (x y : Binary64) : Binary64 := nearest (x.toRat / y.toRat)

/-- The nearest integer, halves away from zero. -/
def round (x : Binary64) : Binary64 := nearest (x.toRat + 1 / 2).floor

def infinityBits : Nat := 0x7ff * 2 ^ 52

/-- The word of the format, without the sign bit. -/
def bits (x : Binary64) : Nat :=
  if x.significand < 2 ^ 52 then x.significand
  else if x.isFinite then (x.exponent + 1075).toNat * 2 ^ 52 + (x.significand - 2 ^ 52)
  else infinityBits

end Binary64

namespace Decimal

/-- The magnitude in binary floating point: whole part and fraction are converted apart, and the sum
is rounded to the places of the decimal again. -/
def toBinary64 (d : Decimal) : Binary64 :=
  if d.scale = 0 then .ofNat d.mantissa
  else
    let power := Binary64.ofNat (10 ^ d.scale)
    let whole := Binary64.ofNat (d.mantissa / 10 ^ d.scale)
    let fraction := (Binary64.ofNat (d.mantissa % 10 ^ d.scale)).div power
    if fraction.isZero then whole
    else (((whole.add fraction).mul power).round).div power

end Decimal

end MarginAccount
