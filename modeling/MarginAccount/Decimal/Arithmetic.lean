import MarginAccount.Decimal.Quotient
import MarginAccount.Fault

/-! # Sums, products and powers of ten

The operations with a question mark give none where the exact result does not fit; the ones without
turn that into a fault. A zero operand is neutral in a sum whatever its scale, so the scale of a sum
with zero is that of the other operand.
-/

namespace MarginAccount.Decimal

/-- The signed mantissa this number has at scale `s`. -/
def mantissaAt (d : Decimal) (s : Nat) : Int :=
  let m : Int := (d.mantissa * 10 ^ (s - d.scale) : Nat)
  if d.negative then -m else m

def add? (a b : Decimal) : Option Decimal :=
  if a.isZero then some b
  else if b.isZero then some a
  else
    let s := Nat.max a.scale b.scale
    let sum := a.mantissaAt s + b.mantissaAt s
    fit? (sum < 0) sum.natAbs s

def sub? (a b : Decimal) : Option Decimal := a.add? b.neg

/-- A mantissa of at most 32 bits. -/
def isShort (d : Decimal) : Bool := d.mantissa < 2 ^ 32

/-- The product. A minus sign stays on a product that rounds to zero, unless both factors are
short; two short factors with more than 47 places between them give a plain zero. -/
def mul? (a b : Decimal) : Option Decimal :=
  if a.isZero || b.isZero then some zero
  else
    let short := a.isShort && b.isShort
    if short && 47 < a.scale + b.scale then some zero
    else do
      let p ← fit? (a.negative != b.negative) (a.mantissa * b.mantissa) (a.scale + b.scale)
      pure (if short && p.isZero then { p with negative := false } else p)

/-- Ten to the power `e`, for exponents between -28 and 28. -/
def pow10? (e : Int) : Option Decimal :=
  if 0 ≤ e then
    if e ≤ 28 then ofParts? false (10 ^ e.toNat) 0 else none
  else if -28 ≤ e then do
    let power ← ofParts? false (10 ^ (-e).toNat) 0
    one.div? power
  else none

def orFault (f : Fault) : Option Decimal → Except Fault Decimal
  | some d => .ok d
  | none => .error f

def add (a b : Decimal) : Except Fault Decimal := orFault .addition (a.add? b)

def sub (a b : Decimal) : Except Fault Decimal := orFault .subtraction (a.sub? b)

def mul (a b : Decimal) : Except Fault Decimal := orFault .multiplication (a.mul? b)

def div (a b : Decimal) : Except Fault Decimal :=
  if b.isZero then .error .divisionByZero else orFault .division (a.div? b)

@[simp] theorem orFault_some (f : Fault) (d : Decimal) : orFault f (some d) = .ok d := rfl

@[simp] theorem orFault_none (f : Fault) : orFault f none = .error f := rfl

@[simp] theorem zero_add? (b : Decimal) : zero.add? b = some b := rfl

end MarginAccount.Decimal
