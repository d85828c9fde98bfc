import MarginAccount.Decimal.Arithmetic
import MarginAccount.Decimal.Text

/-! # Dollars and token quantities

`Usd` is a dollar figure of either sign; a shortfall is a negative one. `TokenAmount` is a quantity of
whole tokens. Its operations keep it from going below zero.
-/

namespace MarginAccount

structure Usd where
  value : Decimal
deriving DecidableEq, Repr

namespace Usd

def zero : Usd := ⟨.zero⟩

instance : Inhabited Usd := ⟨zero⟩

instance : ToString Usd := ⟨fun u => "$" ++ u.value.toText⟩

def isZero (u : Usd) : Bool := u.value.isZero

def isNegative (u : Usd) : Bool := u.value.isNegative

def add (a b : Usd) : Except Fault Usd := (a.value.add b.value).map .mk

def sub (a b : Usd) : Except Fault Usd := (a.value.sub b.value).map .mk

end Usd

structure TokenAmount where
  value : Decimal
deriving DecidableEq, Repr

namespace TokenAmount

def zero : TokenAmount := ⟨.zero⟩

instance : Inhabited TokenAmount := ⟨zero⟩

instance : ToString TokenAmount := ⟨fun a => a.value.toText⟩

def ofDecimal? (d : Decimal) : Option TokenAmount := if d.isNegative then none else some ⟨d⟩

/-- The amount, with zero in place of a negative number. -/
def clamped (d : Decimal) : TokenAmount := ⟨d.max .zero⟩

def isZero (a : TokenAmount) : Bool := a.value.isZero

def add (a b : TokenAmount) : Except Fault TokenAmount := (a.value.add b.value).map .mk

/-- The difference, zero where it would be negative. -/
def saturatingSub (a b : TokenAmount) : Except Fault TokenAmount :=
  (a.value.sub b.value).map clamped

/-- The smaller of two, the first where they have one value. -/
def min (a b : TokenAmount) : TokenAmount := if b.value < a.value then b else a

/-- Cuts the places past those of the token, so a bound never exceeds what there is. -/
def roundDown (a : TokenAmount) (places : Nat) : TokenAmount := ⟨a.value.truncateTo places⟩

end TokenAmount

end MarginAccount
