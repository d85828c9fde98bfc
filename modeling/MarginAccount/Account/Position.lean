import MarginAccount.Decimal.FixedPoint
import MarginAccount.Decimal.Text
import MarginAccount.Identifier

/-! # Positions

One entry per registered token: a balance in base units with a power of ten, and the weight at which
it counts. A deposit is collateral, a claim is debt, and a position of no value is only kept. A
weight lies between zero and one; a claim is divided by its weight, so that must not be zero.
-/

namespace MarginAccount

inductive PositionKind where
  | deposit
  | claim
  | noValue
deriving DecidableEq, Repr

def PositionKind.name : PositionKind → String
  | .deposit => "Deposit"
  | .claim => "Claim"
  | .noValue => "NoValue"

instance : ToString PositionKind := ⟨PositionKind.name⟩

/-- A count of base units, a word of 128 bits. -/
structure Balance where
  units : Nat
  units_lt : units < 2 ^ 128 := by decide
deriving DecidableEq, Repr

namespace Balance

def ofNat? (n : Nat) : Option Balance := if h : n < 2 ^ 128 then some ⟨n, h⟩ else none

def zero : Balance := { units := 0 }

/-- The balance nearest to an integer. -/
def clamp (n : Int) : Balance where
  units := Nat.min n.toNat (2 ^ 128 - 1)
  units_lt := Nat.lt_of_le_of_lt (Nat.min_le_right ..) (by decide)

def isZero (b : Balance) : Bool := b.units == 0

instance : ToString Balance := ⟨fun b => toString b.units⟩

end Balance

structure Position where
  token : TokenId
  address : Address
  balance : Balance
  exponent : Int8
  kind : PositionKind
  modifier : Decimal
deriving DecidableEq, Repr

inductive PositionError where
  | invalidModifier (token : TokenId) (modifier : Decimal)
  | zeroClaimWeight (token : TokenId)
  | kindMismatch (token : TokenId) (registered requested : PositionKind)
  | duplicateAddress (address : Address)
  | tooManyPositions (count limit : Nat)
deriving DecidableEq, Repr

def PositionError.message : PositionError → String
  | .invalidModifier token modifier =>
    s!"Value modifier {modifier} for token {token} is outside [0, 1]"
  | .zeroClaimWeight token => s!"Claim position for token {token} has a zero value modifier"
  | .kindMismatch token registered requested =>
    s!"Position kind for token {token} is {registered}, change requested {requested}"
  | .duplicateAddress address => s!"Duplicate position address {address}"
  | .tooManyPositions count limit => s!"Account holds {count} positions, maximum is {limit}"

/-- The weight rules of a kind. -/
def checkModifier (token : TokenId) (kind : PositionKind) (modifier : Decimal) :
    Except PositionError Unit :=
  if modifier < .zero ∨ .one < modifier then .error (.invalidModifier token modifier)
  else if kind = .claim ∧ modifier.isZero then .error (.zeroClaimWeight token)
  else .ok ()

namespace Position

def check (p : Position) : Except PositionError Unit := checkModifier p.token p.kind p.modifier

/-- The position itself, if its weight is allowed. -/
def checked (p : Position) : Except PositionError Position := p.check.map fun _ => p

/-- The balance in whole tokens, none where it does not fit a decimal. -/
def quantity? (p : Position) : Option Decimal :=
  Decimal.ofFixedPoint? p.balance.units p.exponent.toInt

def isEmpty (p : Position) : Bool := p.balance.isZero

end Position

end MarginAccount
