import MarginAccount.Market.Context
import MarginAccount.Trade.Bounds

/-! # The pools of an account

One view for each configured token whose pool is loaded: the account's notes, what they are worth,
and the trade bounds. Tokens without a pool are listed as skipped, so the view is incomplete rather
than wrong.
-/

namespace MarginAccount

structure PoolView where
  token : TokenId
  symbol : String
  depositPosition : Option Position
  loanPosition : Option Position
  /-- What the deposit notes are worth in underlying tokens. -/
  depositBalance : TokenAmount
  depositValue : Usd
  /-- The underlying tokens owed. -/
  loanBalance : TokenAmount
  loanValue : Usd
  bounds : TradeBounds
deriving DecidableEq, Repr

structure PoolViews where
  views : List PoolView
  skipped : List TokenId
deriving DecidableEq, Repr

/-- The first position that holds a token. -/
def findPosition? (positions : List Position) (token : TokenId) : Option Position :=
  positions.find? (·.token == token)

/-- The underlying tokens that a position's notes are worth, cut to the places of the token. -/
def Position.underlying (p : Position) (rate : ExchangeRate) (decimals : Nat) :
    Except ValuationError TokenAmount :=
  match p.quantity?.bind rate.toUnderlying? with
  | some underlying => .ok ((TokenAmount.clamped underlying).roundDown decimals)
  | none => .error p.outOfRange

/-- The underlying tokens of the notes an account may hold; none held are worth zero. -/
def noteBalance (p? : Option Position) (rate : ExchangeRate) (decimals : Nat) :
    Except ValuationError TokenAmount :=
  p?.elim (.ok .zero) (·.underlying rate decimals)

/-- The dollar value of the notes an account may hold; unpriced ones are worth zero. -/
def noteValue (p? : Option Position) (prices : PriceSource) : Outcome ValuationError Usd :=
  match p? with
  | some p => do pure ((← p.value prices).getD .zero)
  | none => pure .zero

namespace Pool

/-- The weights of the notes: that of the position held, else the pool's own. -/
def weights (pool : Pool) (deposit? loan? : Option Position) : NoteWeights where
  deposit := (deposit?.map (·.modifier)).getD pool.depositWeight
  loan := (loan?.map (·.modifier)).getD pool.loanWeight

/-- An account's view of a loaded pool. -/
def view (pool : Pool) (token : TokenId) (positions : List Position) (market : Market)
    (prices : PriceSource) (available : Usd) (policy : Policy) :
    Outcome ValuationError PoolView := do
  let deposit? := findPosition? positions pool.depositNote
  let loan? := findPosition? positions pool.loanNote
  let depositBalance ← .ofRefusable (noteBalance deposit? pool.depositRate pool.decimals)
  let loanBalance ← .ofRefusable (noteBalance loan? pool.loanRate pool.decimals)
  let price? ← .ofFaultable (prices.usd? pool.token)
  let bounds ← .ofFaultable (TradeBounds.ofPool pool
    ⟨depositBalance, loanBalance, market.walletBalance token⟩ (pool.weights deposit? loan?)
    available price? policy)
  let depositValue ← noteValue deposit? prices
  let loanValue ← noteValue loan? prices
  pure {
    token
    symbol := pool.symbol
    depositPosition := deposit?
    loanPosition := loan?
    depositBalance
    depositValue
    loanBalance
    loanValue
    bounds }

end Pool

namespace PoolViews

def empty : PoolViews := ⟨[], []⟩

/-- The views of the configured tokens, in their order. -/
def ofTokens (tokens : List TokenId) (positions : List Position) (market : Market)
    (prices : PriceSource) (available : Usd) (policy : Policy) : Outcome ValuationError PoolViews :=
  match tokens with
  | [] => pure empty
  | token :: rest =>
    match market.pools.get? token with
    | none => do
      let later ← ofTokens rest positions market prices available policy
      pure { later with skipped := token :: later.skipped }
    | some pool => do
      let view ← pool.view token positions market prices available policy
      let later ← ofTokens rest positions market prices available policy
      pure { later with views := view :: later.views }

/-- The views of all configured tokens of a market. -/
def ofMarket (positions : List Position) (market : Market) (prices : PriceSource)
    (available : Usd) (policy : Policy) : Outcome ValuationError PoolViews :=
  ofTokens market.tokens positions market prices available policy

def get? (v : PoolViews) (token : TokenId) : Option PoolView := v.views.find? (·.token == token)

def bySymbol? (v : PoolViews) (symbol : String) : Option PoolView :=
  v.views.find? (·.symbol == symbol)

/-- No configured token is without a pool. -/
def isComplete (v : PoolViews) : Bool := v.skipped.isEmpty

end PoolViews

end MarginAccount
