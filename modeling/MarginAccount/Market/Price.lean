import MarginAccount.Decimal.Arithmetic
import MarginAccount.Market.Registry
import MarginAccount.Time

/-! # Oracle prices

A reading says that a whole token costs `price · 10 ^ exponent` dollars. A reading that is not
positive, or does not fit a decimal, counts as no price. A price source looks tokens up; looking up
may fault, because the age of a reading is a duration.
-/

namespace MarginAccount

structure OraclePrice where
  price : Decimal
  exponent : Int8
  timestamp : Timestamp
deriving DecidableEq, Repr

namespace OraclePrice

/-- The usable dollar price of a whole token. -/
def usd? (p : OraclePrice) : Option Decimal := do
  let power ← Decimal.pow10? p.exponent.toInt
  let usd ← p.price.mul? power
  if usd.isPositive then some usd else none

/-- Age in whole seconds, cut toward zero. -/
def ageSeconds (p : OraclePrice) (now : Timestamp) : Except Fault Int :=
  (now.since p.timestamp).map (·.seconds)

def isStale (p : OraclePrice) (now : Timestamp) (maxAge : Int) : Except Fault Bool :=
  (p.ageSeconds now).map (maxAge < ·)

end OraclePrice

abbrev PriceSource := TokenId → Except Fault (Option OraclePrice)

namespace PriceSource

def ofRegistry (prices : Registry OraclePrice) : PriceSource := fun token => .ok (prices.get? token)

/-- Hides the readings that are older than `maxAge` seconds. -/
def fresh (source : PriceSource) (now : Timestamp) (maxAge : Int) : PriceSource := fun token => do
  match ← source token with
  | none => pure none
  | some reading => pure (if ← reading.isStale now maxAge then none else some reading)

/-- The usable dollar price of a token. -/
def usd? (source : PriceSource) (token : TokenId) : Except Fault (Option Decimal) := do
  pure ((← source token).bind (·.usd?))

@[simp] theorem ofRegistry_apply (prices : Registry OraclePrice) (token : TokenId) :
    ofRegistry prices token = .ok (prices.get? token) := rfl

@[simp] theorem usd?_ofRegistry (prices : Registry OraclePrice) (token : TokenId) :
    (ofRegistry prices).usd? token = .ok ((prices.get? token).bind (·.usd?)) := rfl

end PriceSource

end MarginAccount
