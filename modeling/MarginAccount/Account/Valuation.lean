import MarginAccount.Account.Change
import MarginAccount.Market.Price
import MarginAccount.Risk.Indicator

/-! # Valuation

Deposits count fully as assets and at their weight as collateral. A claim counts fully as a liability
and demands `value / weight` of collateral, or `value / (weight · fraction)` for the sizing of new
trades. A position without a usable price is worth zero and is counted as unpriced unless it is
empty. The contributions are summed in the order of their addresses, so the order in which positions
come does not matter.
-/

namespace MarginAccount

structure Valuation where
  assets : Usd
  liabilities : Usd
  required : Usd
  requiredSetup : Usd
  weighted : Usd
  /-- Weighted collateral less liabilities. -/
  effective : Usd
  /-- What the required collateral leaves of the effective; negative in a shortfall. -/
  available : Usd
  /-- The same against the collateral required for setting up trades. -/
  availableSetup : Usd
  /-- How many positions count but lack a price. Nothing limits the count here; one of 32 bits agrees
  with it below `2 ^ 32`, and a text holds no more. -/
  unpriced : Nat
deriving DecidableEq, Repr

inductive ValuationError where
  | balanceOutOfRange (token : TokenId) (balance : Balance) (exponent : Int8)
  | valueOverflow (token : TokenId)
  | totalOverflow
  | position (cause : PositionError)
deriving DecidableEq, Repr

def ValuationError.message : ValuationError → String
  | .balanceOutOfRange token balance exponent =>
    s!"Balance {balance} with exponent {exponent} for token {token} does not fit a decimal"
  | .valueOverflow token => s!"Dollar value of token {token} overflows"
  | .totalOverflow => "Account collateral figures overflow"
  | .position cause => "Position error: " ++ cause.message

/-- What one position adds to the sums. -/
structure Contribution where
  assets : Decimal := .zero
  liabilities : Decimal := .zero
  weighted : Decimal := .zero
  required : Decimal := .zero
  requiredSetup : Decimal := .zero
deriving DecidableEq, Repr

namespace Contribution

def zero : Contribution := {}

def add? (a b : Contribution) : Option Contribution := do
  pure {
    assets := ← a.assets.add? b.assets
    liabilities := ← a.liabilities.add? b.liabilities
    weighted := ← a.weighted.add? b.weighted
    required := ← a.required.add? b.required
    requiredSetup := ← a.requiredSetup.add? b.requiredSetup }

end Contribution

/-- A contribution under the position it comes from. -/
structure Part where
  address : Address
  token : TokenId
  contribution : Contribution
deriving DecidableEq, Repr

/-- The order of addresses, and of tokens at one address. -/
def Part.le (a b : Part) : Bool :=
  a.address.id < b.address.id || (a.address == b.address && a.token.id ≤ b.token.id)

namespace Position

def outOfRange (p : Position) : ValuationError := .balanceOutOfRange p.token p.balance p.exponent

/-- The dollar value, none without a usable price. -/
def value (p : Position) (prices : PriceSource) : Outcome ValuationError (Option Usd) := do
  let quantity ← .ofOption p.outOfRange p.quantity?
  match ← .ofFaultable (prices.usd? p.token) with
  | none => pure none
  | some price =>
    let value ← .ofOption (.valueOverflow p.token) (quantity.mul? price)
    pure (some ⟨value⟩)

/-- What the position adds at a dollar value. -/
def contribution (p : Position) (value : Decimal) (policy : Policy) :
    Except ValuationError Contribution :=
  let orOverflow := fun d? : Option Decimal => d?.elim (.error (.valueOverflow p.token)) .ok
  match p.kind with
  | .deposit => do
    let weighted ← orOverflow (value.mul? p.modifier)
    pure { assets := value, weighted }
  | .claim => do
    if p.modifier.isZero then throw (.position (.zeroClaimWeight p.token))
    let setupWeight ← orOverflow ((p.modifier.mul? policy.setupFraction).filter (!·.isZero))
    let required ← orOverflow (value.div? p.modifier)
    let requiredSetup ← orOverflow (value.div? setupWeight)
    pure { liabilities := value, required, requiredSetup }
  | .noValue => pure .zero

/-- How a position enters the valuation. -/
inductive Appraisal where
  | priced (part : Part)
  | unpriced
  | skipped
deriving DecidableEq, Repr

def Appraisal.part? : Appraisal → Option Part
  | .priced part => some part
  | .unpriced | .skipped => none

def appraise (p : Position) (prices : PriceSource) (policy : Policy) :
    Outcome ValuationError Appraisal :=
  if p.kind = .noValue then pure .skipped
  else do
    match ← p.value prices with
    | some usd =>
      let contribution ← .ofRefusable (p.contribution usd.value policy)
      pure (.priced ⟨p.address, p.token, contribution⟩)
    | none => pure (if p.isEmpty then .skipped else .unpriced)

end Position

/-- Sums parts in the order of their addresses. -/
def sumParts (parts : List Part) : Except ValuationError Contribution :=
  (parts.mergeSort Part.le).foldlM (fun total part =>
    (total.add? part.contribution).elim (.error (.valueOverflow part.token)) .ok) .zero

namespace Valuation

def zero : Valuation :=
  ⟨.zero, .zero, .zero, .zero, .zero, .zero, .zero, .zero, 0⟩

/-- The valuation of summed contributions. -/
def ofTotal (total : Contribution) (unpriced : Nat) : Except ValuationError Valuation := do
  let orOverflow := fun d? : Option Decimal => d?.elim (.error .totalOverflow) .ok
  let effective ← orOverflow (total.weighted.sub? total.liabilities)
  let available ← orOverflow (effective.sub? total.required)
  let availableSetup ← orOverflow (effective.sub? total.requiredSetup)
  pure {
    assets := ⟨total.assets⟩
    liabilities := ⟨total.liabilities⟩
    required := ⟨total.required⟩
    requiredSetup := ⟨total.requiredSetup⟩
    weighted := ⟨total.weighted⟩
    effective := ⟨effective⟩
    available := ⟨available⟩
    availableSetup := ⟨availableSetup⟩
    unpriced }

/-- Values positions with changes merged in. -/
def ofPositions (positions : List Position) (prices : PriceSource) (changes : List Change)
    (policy : Policy) : Outcome ValuationError Valuation := do
  let merged ← .mapRefusal .position (.ofRefusable (mergeChanges positions changes))
  let appraisals ← merged.mapM (·.appraise prices policy)
  let total ← .ofRefusable (sumParts (appraisals.filterMap (·.part?)))
  .ofRefusable (ofTotal total (appraisals.count .unpriced))

def risk (v : Valuation) : Except NegativeFigure Risk :=
  Risk.ofFigures v.required v.weighted v.liabilities

def equity (v : Valuation) : Except Fault Usd := v.assets.sub v.liabilities

/-- Some position had no price. -/
def isDegraded (v : Valuation) : Bool := 0 < v.unpriced

end Valuation

end MarginAccount
