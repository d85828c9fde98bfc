import MarginAccount.Engine.Report
import MarginAccount.Json.Account
import MarginAccount.Json.Market

/-! # Events and reports as documents

What is left of a liquidation is written in whole seconds, so reading a report gives back whole
seconds.
-/

namespace MarginAccount.Json

instance : Codec TradeAction where
  encode a := .string a.name
  decode := decodeName TradeAction.all TradeAction.name

instance : Codec TradeBounds where
  encode b := .ofMembers [
    ("deposit", encode b.deposit),
    ("withdraw", encode b.withdraw),
    ("borrow", encode b.borrow),
    ("repay", encode b.repay),
    ("repay_from_deposit", encode b.repayFromDeposit),
    ("swap", encode b.swap),
    ("transfer", encode b.transfer)]
  decode := Record.read (TradeBounds.mk
    <$> .member "deposit"
    <*> .member "withdraw"
    <*> .member "borrow"
    <*> .member "repay"
    <*> .member "repay_from_deposit"
    <*> .member "swap"
    <*> .member "transfer")

instance : Codec PoolView where
  encode v := .ofMembers [
    ("token", encode v.token),
    ("symbol", encode v.symbol),
    ("deposit_position", encode v.depositPosition),
    ("loan_position", encode v.loanPosition),
    ("deposit_balance", encode v.depositBalance),
    ("deposit_value", encode v.depositValue),
    ("loan_balance", encode v.loanBalance),
    ("loan_value", encode v.loanValue),
    ("max_trade_amounts", encode v.bounds)]
  decode := Record.read (PoolView.mk
    <$> .member "token"
    <*> .member "symbol"
    <*> .optional "deposit_position"
    <*> .optional "loan_position"
    <*> .member "deposit_balance"
    <*> .member "deposit_value"
    <*> .member "loan_balance"
    <*> .member "loan_value"
    <*> .member "max_trade_amounts")

instance : Codec PoolViews where
  encode v := .ofMembers [("positions", encode v.views), ("skipped", encode v.skipped)]
  decode := Record.read (PoolViews.mk <$> .member "positions" <*> .member "skipped")

instance : Codec EndReason where
  encode r := .string r.name
  decode := decodeName [.byLiquidator, .recovered, .timedOut] EndReason.name

instance : Codec LiquidationPhase where
  encode p := .string p.name
  decode := decodeName [.healthy, .eligible, .inLiquidation] LiquidationPhase.name

instance : Codec LiquidationBegun where
  encode e := .ofMembers [
    ("account", encode e.account),
    ("liquidator", encode e.liquidator),
    ("start_time", encode e.startTime),
    ("risk_indicator", encode e.risk),
    ("valuation", encode e.valuation)]
  decode := Record.read (LiquidationBegun.mk
    <$> .member "account"
    <*> .member "liquidator"
    <*> .member "start_time"
    <*> .member "risk_indicator"
    <*> .member "valuation")

instance : Codec LiquidationEnded where
  encode e := .ofMembers [
    ("account", encode e.account),
    ("authority", encode e.authority),
    ("reason", encode e.reason)]
  decode := Record.read (LiquidationEnded.mk
    <$> .member "account"
    <*> .member "authority"
    <*> .member "reason")

instance : Codec EventPayload where
  encode
    | .begun e => .ofMembers [("LiquidationBegun", encode e)]
    | .ended e => .ofMembers [("LiquidationEnded", encode e)]
  decode
    | .object [(some "LiquidationBegun", d)] => return .begun (← decode d)
    | .object [(some "LiquidationEnded", d)] => return .ended (← decode d)
    | _ => unreadable

instance : Codec Event where
  encode e := .ofMembers [
    ("id", .ofInt e.id),
    ("timestamp", encode e.timestamp),
    ("payload", encode e.payload)]
  decode := Record.read (Event.mk
    <$> .memberBy "id" (natBits 64)
    <*> .member "timestamp"
    <*> .member "payload")

/-- A duration in whole seconds, or nothing. -/
def encodeSeconds (d? : Option Duration) : Document := d?.elim .null (.ofInt ·.seconds)

def decodeSeconds : Document → Decoded (Option Duration)
  | .null => pure none
  | d => do
    let seconds ← int64 d
    return some (← .ofFaultable (Duration.ofSeconds seconds))

instance : Codec Report where
  encode r := .ofMembers [
    ("valuation", encode r.valuation),
    ("risk_indicator", encode r.risk),
    ("risk_level", encode r.level),
    ("summary", encode r.summary),
    ("pool_positions", encode r.pools),
    ("is_being_liquidated", encode r.isBeingLiquidated),
    ("remaining_liquidation_time", encodeSeconds r.remaining),
    ("liquidation_phase", encode r.phase)]
  decode := Record.read (Report.mk
    <$> .member "valuation"
    <*> .member "risk_indicator"
    <*> .member "risk_level"
    <*> .member "summary"
    <*> .member "pool_positions"
    <*> .member "is_being_liquidated"
    <*> .memberBy "remaining_liquidation_time" decodeSeconds
    <*> .member "liquidation_phase")

end MarginAccount.Json
