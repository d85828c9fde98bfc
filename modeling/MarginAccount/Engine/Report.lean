import MarginAccount.Account.Snapshot
import MarginAccount.Account.Summary
import MarginAccount.Liquidation.Event
import MarginAccount.Trade.PoolView

/-! # Account reports

Everything a client or a monitor needs about one account at one instant, computed from a snapshot, a
market and changes that have not landed yet.
-/

namespace MarginAccount

structure Report where
  valuation : Valuation
  risk : Risk
  level : RiskLevel
  summary : Summary
  pools : PoolViews
  isBeingLiquidated : Bool
  /-- What is left of the timeout; none outside a liquidation. -/
  remaining : Option Duration
  phase : LiquidationPhase
deriving DecidableEq, Repr

inductive EngineError where
  | risk (cause : NegativeFigure)
  | valuation (cause : ValuationError)
  | position (cause : PositionError)
  | liquidation (cause : LiquidationError)
  | policy (cause : PolicyError)
deriving DecidableEq, Repr

def EngineError.message : EngineError → String
  | .risk cause => "Risk error: " ++ cause.message
  | .valuation cause => "Valuation error: " ++ cause.message
  | .position cause => "Position error: " ++ cause.message
  | .liquidation cause => "Liquidation error: " ++ cause.message
  | .policy cause => "Config error: " ++ cause.message

namespace Report

/-- The report of a snapshot as if `changes` had landed. -/
def ofSnapshot (snapshot : Snapshot) (market : Market) (prices : PriceSource)
    (changes : List Change) (now : Timestamp) (policy : Policy) : Outcome EngineError Report := do
  let valuation ← .mapRefusal .valuation
    (Valuation.ofPositions snapshot.positions prices changes policy)
  let risk ← .mapRefusal .risk (.ofRefusable valuation.risk)
  let summary ← .ofFaultable (valuation.summary policy)
  let positions ← .mapRefusal .position (.ofRefusable (mergeChanges snapshot.positions changes))
  let pools ← .mapRefusal .valuation
    (PoolViews.ofMarket positions market prices valuation.availableSetup policy)
  let remaining ← .ofFaultable (snapshot.liquidation.mapM (·.remaining now))
  pure {
    valuation
    risk
    level := risk.level policy
    summary
    pools
    isBeingLiquidated := snapshot.isBeingLiquidated
    remaining
    phase := Liquidation.phase snapshot.liquidation risk policy }

/-- Some position had no price, or some pool was not loaded. -/
def isDegraded (r : Report) : Bool := r.valuation.isDegraded || !r.pools.isComplete

end Report

end MarginAccount
