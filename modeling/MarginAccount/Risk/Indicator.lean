import MarginAccount.Amount
import MarginAccount.Binary64.Basic
import MarginAccount.Risk.Policy

/-! # Risk

Risk is the collateral that debt demands, plus the debt, over the weighted collateral. Debt without
collateral, and a ratio too large for a decimal, are unbounded risk, which is above every finite one.
-/

namespace MarginAccount

inductive Risk where
  | finite (value : Decimal)
  | unbounded
deriving DecidableEq, Repr

/-- The figures that risk is computed from. -/
inductive Figure where
  | requiredCollateral
  | weightedCollateral
  | liabilities
deriving DecidableEq, Repr

def Figure.name : Figure → String
  | .requiredCollateral => "required_collateral"
  | .weightedCollateral => "weighted_collateral"
  | .liabilities => "liabilities"

structure NegativeFigure where
  figure : Figure
  value : Usd
deriving DecidableEq, Repr

def NegativeFigure.message (e : NegativeFigure) : String :=
  "Invalid argument: " ++ e.figure.name ++ s!" must be non-negative, got {e.value}"

inductive RiskLevel where
  | healthy
  | warning
  | critical
  | liquidatable
deriving DecidableEq, Repr

def RiskLevel.name : RiskLevel → String
  | .healthy => "Healthy"
  | .warning => "Warning"
  | .critical => "Critical"
  | .liquidatable => "Liquidatable"

/-- The order of the levels, worst last. -/
def RiskLevel.rank : RiskLevel → Nat
  | .healthy => 0
  | .warning => 1
  | .critical => 2
  | .liquidatable => 3

namespace Risk

def zero : Risk := .finite .zero

def isUnbounded : Risk → Bool
  | .finite _ => false
  | .unbounded => true

def atLeast (threshold : Decimal) : Risk → Bool
  | .finite v => threshold ≤ v
  | .unbounded => true

/-- Ascending order, unbounded risk last. -/
def le : Risk → Risk → Bool
  | .finite a, .finite b => a ≤ b
  | _, .unbounded => true
  | .unbounded, .finite _ => false

instance : LE Risk := ⟨fun a b => le a b = true⟩

instance (a b : Risk) : Decidable (a ≤ b) := inferInstanceAs (Decidable (le a b = true))

/-- At most four places, or `inf`. -/
def toText : Risk → String
  | .finite v => (v.roundTo 4).toText
  | .unbounded => "inf"

instance : ToString Risk := ⟨toText⟩

/-- The word of the binary floating-point number that stands for a risk. -/
def bits : Risk → Nat
  | .finite v => v.toBinary64.bits + if v.negative then 2 ^ 63 else 0
  | .unbounded => Binary64.infinityBits

/-- `demand / weighted`, where `demand` is none if it does not fit a decimal. -/
def ofDemand (demand? : Option Decimal) (weighted : Decimal) : Risk :=
  match demand? with
  | none => .unbounded
  | some demand =>
    if weighted.isPositive then (demand.div? weighted).elim .unbounded .finite
    else if demand.isPositive then .unbounded
    else zero

/-- `(required + liabilities) / weighted`. Negative figures are refused. -/
def ofFigures (required weighted liabilities : Usd) : Except NegativeFigure Risk :=
  if required.isNegative then .error ⟨.requiredCollateral, required⟩
  else if weighted.isNegative then .error ⟨.weightedCollateral, weighted⟩
  else if liabilities.isNegative then .error ⟨.liabilities, liabilities⟩
  else .ok (ofDemand (required.value.add? liabilities.value) weighted.value)

def level (r : Risk) (policy : Policy) : RiskLevel :=
  if r.atLeast policy.liquidationLevel then .liquidatable
  else if r.atLeast policy.criticalLevel then .critical
  else if r.atLeast policy.warningLevel then .warning
  else .healthy

def isLiquidatable (r : Risk) (policy : Policy) : Bool := r.atLeast policy.liquidationLevel

@[simp] theorem atLeast_unbounded (t : Decimal) : unbounded.atLeast t = true := rfl

@[simp] theorem atLeast_finite (t v : Decimal) : (finite v).atLeast t = decide (t ≤ v) := rfl

end Risk

end MarginAccount
