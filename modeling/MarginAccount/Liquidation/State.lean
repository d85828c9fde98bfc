import MarginAccount.Risk.Indicator
import MarginAccount.Identifier
import MarginAccount.Time

/-! # Liquidation

An account whose risk reaches the liquidation level may be claimed by a liquidator. The liquidator
may let go of it at any time. The owner may end the liquidation once the account has recovered, and
anyone may once the liquidator has held it past the timeout.
-/

namespace MarginAccount

inductive LiquidationPhase where
  | healthy
  | eligible
  | inLiquidation
deriving DecidableEq, Repr

def LiquidationPhase.name : LiquidationPhase → String
  | .healthy => "Healthy"
  | .eligible => "LiquidationEligible"
  | .inLiquidation => "InLiquidation"

/-- Who holds an account, since when, and for how many seconds at most. -/
structure Liquidation where
  liquidator : Address
  startTime : Timestamp
  timeout : Int
deriving DecidableEq, Repr

inductive EndReason where
  | byLiquidator
  | recovered
  | timedOut
deriving DecidableEq, Repr

def EndReason.name : EndReason → String
  | .byLiquidator => "ByLiquidator"
  | .recovered => "Recovered"
  | .timedOut => "TimedOut"

inductive LiquidationError where
  | notLiquidatable (risk : Risk)
  | alreadyLiquidating (liquidator : Address)
  | notBeingLiquidated
  | unauthorized (who : Address)
deriving DecidableEq, Repr

def LiquidationError.message : LiquidationError → String
  | .notLiquidatable risk => s!"Account is not liquidatable at risk {risk}"
  | .alreadyLiquidating liquidator => s!"Account is already being liquidated by {liquidator}"
  | .notBeingLiquidated => "Account is not being liquidated"
  | .unauthorized who => s!"{who} does not have permission to do this"

/-- How a claim ends well: with a new liquidation, or with the one the claimant already holds. -/
inductive ClaimOutcome where
  | started (liquidation : Liquidation)
  | alreadyClaimed (liquidation : Liquidation)
deriving DecidableEq, Repr

def ClaimOutcome.liquidation : ClaimOutcome → Liquidation
  | .started l | .alreadyClaimed l => l

namespace Liquidation

/-- What is left of the timeout; negative once it has passed. -/
def remaining (l : Liquidation) (now : Timestamp) : Except Fault Duration := do
  let allowed ← Duration.ofSeconds l.timeout
  let held ← now.since l.startTime
  allowed.sub held

def isTimedOut (l : Liquidation) (now : Timestamp) : Except Fault Bool :=
  (l.remaining now).map (·.isNegative)

def phase (current : Option Liquidation) (risk : Risk) (policy : Policy) : LiquidationPhase :=
  if current.isSome then .inLiquidation
  else if risk.isLiquidatable policy then .eligible
  else .healthy

/-- A liquidator claims an account. -/
def claim (current : Option Liquidation) (liquidator : Address) (risk : Risk) (now : Timestamp)
    (policy : Policy) : Except LiquidationError ClaimOutcome :=
  if liquidator.isZero then .error (.unauthorized liquidator)
  else
    match current with
    | some l =>
      if l.liquidator = liquidator then .ok (.alreadyClaimed l)
      else .error (.alreadyLiquidating l.liquidator)
    | none =>
      if risk.isLiquidatable policy then .ok (.started ⟨liquidator, now, policy.liquidationTimeout⟩)
      else .error (.notLiquidatable risk)

/-- Whether `requester` may end the liquidation now, and on what ground. -/
def authorizeEnd (current : Option Liquidation) (requester owner : Address) (risk : Risk)
    (now : Timestamp) (policy : Policy) : Outcome LiquidationError EndReason :=
  match current with
  | none => .refuse .notBeingLiquidated
  | some l =>
    if requester = l.liquidator then pure .byLiquidator
    else do
      if ← .ofFaultable (l.isTimedOut now) then pure .timedOut
      else if requester = owner ∧ !risk.isLiquidatable policy then pure .recovered
      else .refuse (.unauthorized requester)

end Liquidation

end MarginAccount
