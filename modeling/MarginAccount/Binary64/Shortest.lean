import MarginAccount.Binary64.Basic

/-! # The shortest decimal of a binary number

Of the decimals that round to a binary number, `shortest` picks one with the fewest digits and among
those the nearest, the upper one of two that are equally near. A number of `n` digits that lies in
the rounding interval exists exactly if one of the two neighbours of the number on the `n`-digit
grid does.
-/

namespace MarginAccount.Binary64

/-- The half-way points to the neighbours of a number. Below a power of two the gap is half as wide. -/
def interval (x : Binary64) : Rat × Rat :=
  let step := toRat ⟨1, x.exponent⟩
  let gap := if x.significand = 2 ^ 52 ∧ -1074 < x.exponent then step / 2 else step
  (x.toRat - gap / 2, x.toRat + step / 2)

/-- Whether a decimal rounds to the number; the ends of the interval do if the significand is even. -/
def reads (x : Binary64) (y : Rat) : Bool :=
  let (low, high) := x.interval
  if x.significand % 2 = 0 then low ≤ y && y ≤ high else low < y && y < high

def pow10 (e : Int) : Rat := if 0 ≤ e then (10 ^ e.toNat : Nat) else mkRat 1 (10 ^ (-e).toNat)

/-- The least power of ten above a positive number, searched upwards from `e`. -/
def decimalOrder (x : Rat) (e : Int) : Nat → Int
  | 0 => e
  | fuel + 1 => if x < pow10 e then e else decimalOrder x (e + 1) fuel

/-- The neighbour of `x` on the grid of step `10 ^ e` that reads back as `x` and is nearest to it. -/
def onGrid? (x : Binary64) (e : Int) : Option (Nat × Int) :=
  let scaled := x.toRat / pow10 e
  let low := scaled.floor.toNat
  let high := low + 1
  match x.reads (low * pow10 e), x.reads (high * pow10 e) with
  | true, true => if scaled - low < high - scaled then some (low, e) else some (high, e)
  | true, false => some (low, e)
  | false, true => some (high, e)
  | false, false => none

/-- Digits and exponent of the shortest decimal; a positive number has one of at most 17 digits. The
first grid tried holds the powers of ten alone. -/
def shortest (x : Binary64) : Nat × Int :=
  if x.isZero then (0, 0)
  else
    let order := decimalOrder x.toRat (-330) 700
    ((List.range 18).findSome? fun n : Nat => x.onGrid? (order - n)).getD (0, 0)

/-- The shortest decimal written out without an exponent. -/
def toChars (x : Binary64) : List Char :=
  let (digits, e) := x.shortest
  let ds := Nat.toDigits 10 digits
  if 0 ≤ e then if digits = 0 then ds else ds ++ List.replicate e.toNat '0'
  else
    let places := (-e).toNat
    let padded := List.replicate (places + 1 - ds.length) '0' ++ ds
    padded.take (padded.length - places) ++ '.' :: padded.drop (padded.length - places)

end MarginAccount.Binary64
