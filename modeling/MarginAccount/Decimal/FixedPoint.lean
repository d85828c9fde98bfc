import MarginAccount.Decimal.Arithmetic

/-! # Fixed-point balances

A balance is a count of base units and comes with a power of ten. Up to 28 places the exponent
becomes the scale as it is; past that the excess places are divided away, and a positive exponent
multiplies.
-/

namespace MarginAccount.Decimal

/-- `units · 10 ^ exponent`, none where it does not fit. -/
def ofFixedPoint? (units : Nat) (exponent : Int) : Option Decimal :=
  if 0 < exponent then do
    let base ← ofParts? false units 0
    let factor ← pow10? exponent
    base.mul? factor
  else if -28 ≤ exponent then ofParts? false units (-exponent).toNat
  else do
    let base ← ofParts? false units 28
    let excess ← pow10? (-exponent - 28)
    base.div? excess

end MarginAccount.Decimal
