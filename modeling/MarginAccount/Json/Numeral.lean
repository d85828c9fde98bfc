import MarginAccount.Binary64.Basic

/-! # Written numbers

A JSON number as it is written. One without point and exponent is an integer as long as it has 64
bits and is not a negative zero; every other one is read in binary floating point. That reading is
quick rather than exact: the digits that fit 64 bits are taken as one integer, and a single
multiplication or division by a power of ten follows.
-/

namespace MarginAccount.Json

structure Numeral where
  negative : Bool
  whole : Nat
  /-- The digits after the point, where there is one. -/
  places : Option (List Nat)
  exponent : Option Int
deriving DecidableEq, Repr

namespace Numeral

def ofInt (n : Int) : Numeral := ⟨n < 0, n.natAbs, none, none⟩

/-- Written with neither point nor exponent. -/
def isIntegral (n : Numeral) : Bool := n.places.isNone && n.exponent.isNone

/-- The integer that is written, of any size. -/
def integer? (n : Numeral) : Option Int :=
  if n.isIntegral then some (if n.negative then -n.whole else n.whole) else none

/-- The integer that is written, if it counts as one of 64 bits. -/
def word? (n : Numeral) : Option Int := do
  let i ← n.integer?
  if -2 ^ 63 ≤ i ∧ i < 2 ^ 64 ∧ !(n.negative && i == 0) then some i else none

/-- Appends digits to a significand as long as it stays below `2 ^ 64`, and tells how many did not
fit. -/
def takeDigits (significand : Nat) : List Nat → Nat × Nat
  | [] => (significand, 0)
  | d :: ds =>
    if 10 * significand + d < 2 ^ 64 then takeDigits (10 * significand + d) ds
    else (significand, ds.length + 1)

/-- `x · 10 ^ e` in at most one rounding step for every 308 powers, none if it is too large. -/
def scale (x : Binary64) (e : Int) : Option Binary64 :=
  if 0 ≤ e then
    if 308 < e then (if x.isZero then some x else none)
    else
      let y := x.mul (.ofNat (10 ^ e.toNat))
      if y.isFinite then some y else none
  else if -308 ≤ e then some (x.div (.ofNat (10 ^ (-e).toNat)))
  else if x.isZero then some x
  else scale (x.div (.ofNat (10 ^ 308))) (e + 308)
termination_by (-e).toNat

/-- The magnitude in binary floating point, none if it is too large. -/
def toBinary64? (n : Numeral) : Option Binary64 :=
  let wholeDigits := (Nat.toDigits 10 n.whole).map fun c => c.toNat - '0'.toNat
  let placeDigits := n.places.getD []
  let (m, dropped) := takeDigits 0 wholeDigits
  let (m, cut) := takeDigits m placeDigits
  let e := n.exponent.getD 0
  if e.natAbs < 2 ^ 31 then
    scale (.ofNat m) (dropped - (placeDigits.length - cut : Nat) + e)
  else if m ≠ 0 ∧ 0 < e then none
  else some ⟨0, 0⟩

def toText (n : Numeral) : String :=
  (if n.negative then "-" else "") ++ toString n.whole
    ++ (n.places.elim "" fun ds => "." ++ String.join (ds.map toString))
    ++ (n.exponent.elim "" fun e => "e" ++ toString e)

@[simp] theorem integer?_ofInt (i : Int) : (ofInt i).integer? = some i := by
  simp only [integer?, isIntegral, ofInt, Option.isNone_none, Bool.and_self, if_true,
    decide_eq_true_eq, Option.some.injEq]
  split <;> omega

end Numeral

end MarginAccount.Json
