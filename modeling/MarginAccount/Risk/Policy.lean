import MarginAccount.Decimal.Text

/-! # The margin policy

The tunable numbers of the margin rules: the three risk thresholds, how much of the allowance new
trades may use, how full a pool may get, how long a liquidator may hold an account. `check` refuses a
policy whose numbers make no sense; the first rule broken gives the reason.
-/

namespace MarginAccount

structure Policy where
  warningLevel : Decimal
  criticalLevel : Decimal
  /-- The risk at which a liquidator may claim the account. -/
  liquidationLevel : Decimal
  /-- The share of the real allowance that new trades are sized with. -/
  setupFraction : Decimal
  /-- The utilization that a single borrow may push a pool to. -/
  utilizationCap : Decimal
  /-- Seconds before others than the liquidator may end a liquidation. -/
  liquidationTimeout : Int
  /-- The leverage reported where equity is not positive. -/
  leverageSentinel : Decimal
  /-- The part of the wallet of the gas token that sizing leaves alone. -/
  feeBuffer : Decimal
  /-- Seconds after which a price is stale, where staleness counts. -/
  maxPriceAge : Int
deriving DecidableEq, Repr

inductive PolicyError where
  | thresholds (warning critical liquidation : Decimal)
  | setupFraction (fraction : Decimal)
  | utilizationCap (cap : Decimal)
  | timeout (seconds : Int)
  | feeBuffer (buffer : Decimal)
  | leverageSentinel (sentinel : Decimal)
deriving DecidableEq, Repr

def PolicyError.message : PolicyError → String
  | .thresholds warning critical liquidation =>
    "Risk thresholds must be positive and strictly increasing: " ++
      s!"warning {warning}, critical {critical}, liquidation {liquidation}"
  | .setupFraction fraction => s!"Setup leverage fraction {fraction} must be in (0, 1]"
  | .utilizationCap cap => s!"Max pool utilization after borrow {cap} must be in (0, 1]"
  | .timeout seconds => s!"Liquidation timeout {seconds}s must be positive"
  | .feeBuffer buffer => s!"Native fee buffer {buffer} must not be negative"
  | .leverageSentinel sentinel => s!"Leverage sentinel {sentinel} must be positive"

namespace Policy

def standard : Policy where
  warningLevel := .lit 8 1
  criticalLevel := .lit 9 1
  liquidationLevel := .one
  setupFraction := .lit 5 1
  utilizationCap := .lit 95 2
  liquidationTimeout := 60
  leverageSentinel := .lit 9999 1
  feeBuffer := .lit 75 3
  maxPriceAge := 30

/-- Tighter sizing, for clients that refresh slowly. -/
def conservative : Policy :=
  { standard with
    setupFraction := .lit 4 1
    utilizationCap := .lit 9 1
    maxPriceAge := 15 }

/-- More time for liquidators and for prices. -/
def testnet : Policy := { standard with liquidationTimeout := 600, maxPriceAge := 120 }

/-- Above zero and at most one. -/
def isShare (d : Decimal) : Bool := .zero < d && d ≤ .one

/-- The thresholds are positive and strictly increasing. -/
def ordered (p : Policy) : Bool :=
  .zero < p.warningLevel && p.warningLevel < p.criticalLevel && p.criticalLevel < p.liquidationLevel

def check (p : Policy) : Except PolicyError Unit :=
  if !p.ordered then .error (.thresholds p.warningLevel p.criticalLevel p.liquidationLevel)
  else if !isShare p.setupFraction then .error (.setupFraction p.setupFraction)
  else if !isShare p.utilizationCap then .error (.utilizationCap p.utilizationCap)
  else if p.liquidationTimeout ≤ 0 then .error (.timeout p.liquidationTimeout)
  else if p.feeBuffer < .zero then .error (.feeBuffer p.feeBuffer)
  else if p.leverageSentinel ≤ .zero then .error (.leverageSentinel p.leverageSentinel)
  else .ok ()

end Policy

inductive Environment where
  | development
  | testnet
  | mainnet
deriving DecidableEq, Repr

def Environment.policy : Environment → Policy
  | .development => .standard
  | .testnet => .testnet
  | .mainnet => .conservative

end MarginAccount
