import MarginAccount.Account.Valuation
import MarginAccount.Market.Pool

/-! # Trade bounds

The largest amount of a token that each action may move. A withdrawal is limited by the deposit, by
the vault and by the collateral available for setting up trades; a borrow by the headroom of the pool
and by the same collateral, of which a borrowed token takes `1 - weight + 1 / (loan weight ·
fraction)` of its price. Without a price a withdrawal is limited only by collateral being left at
all, and a borrow is refused.
-/

namespace MarginAccount

inductive TradeAction where
  | deposit
  | withdraw
  | borrow
  | repay
  | repayFromDeposit
  | swap
  | transfer
deriving DecidableEq, Repr

namespace TradeAction

def name : TradeAction → String
  | .deposit => "Deposit"
  | .withdraw => "Withdraw"
  | .borrow => "Borrow"
  | .repay => "Repay"
  | .repayFromDeposit => "RepayFromDeposit"
  | .swap => "Swap"
  | .transfer => "Transfer"

def all : List TradeAction :=
  [.deposit, .withdraw, .borrow, .repay, .repayFromDeposit, .swap, .transfer]

end TradeAction

structure TradeBounds where
  deposit : TokenAmount
  withdraw : TokenAmount
  borrow : TokenAmount
  repay : TokenAmount
  repayFromDeposit : TokenAmount
  swap : TokenAmount
  transfer : TokenAmount
deriving DecidableEq, Repr

/-- What an account has in one pool, in underlying tokens. -/
structure PoolBalances where
  deposit : TokenAmount
  loan : TokenAmount
  wallet : TokenAmount
deriving DecidableEq, Repr

/-- The weights of a pool's notes. -/
structure NoteWeights where
  deposit : Decimal
  loan : Decimal
deriving DecidableEq, Repr

namespace TradeBounds

def get (b : TradeBounds) : TradeAction → TokenAmount
  | .deposit => b.deposit
  | .withdraw => b.withdraw
  | .borrow => b.borrow
  | .repay => b.repay
  | .repayFromDeposit => b.repayFromDeposit
  | .swap => b.swap
  | .transfer => b.transfer

def allows (b : TradeBounds) (action : TradeAction) (amount : TokenAmount) : Bool :=
  amount.value ≤ (b.get action).value

/-- How many tokens the collateral covers at `demand` dollars each, none where it sets no limit. -/
def collateralLimit? (available demand : Decimal) : Option TokenAmount :=
  if !available.isPositive then some .zero
  else if !demand.isPositive then none
  else (available.div? demand).map .clamped

/-- The collateral limit of a withdrawal; a demand that does not fit a decimal leaves nothing. -/
def withdrawLimit? (available depositWeight : Decimal) (price? : Option Decimal) :
    Option TokenAmount :=
  match price? with
  | some price =>
    match depositWeight.mul? price with
    | some demand => collateralLimit? available demand
    | none => some .zero
  | none => if available.isPositive then none else some .zero

/-- The dollars of collateral that a borrowed token takes, none where they do not fit a decimal. -/
def borrowDemand? (weights : NoteWeights) (setupWeight price : Decimal) :
    Except Fault (Option Decimal) :=
  match Decimal.one.div? setupWeight with
  | none => pure none
  | some inverse => do
    let uncovered ← Decimal.one.sub weights.deposit
    pure ((uncovered.add? inverse).bind (·.mul? price))

/-- The limit of a borrow before it is cut to the places of the token. -/
def borrowLimit (headroom : TokenAmount) (weights : NoteWeights) (setupWeight available : Decimal)
    (price? : Option Decimal) : Except Fault TokenAmount :=
  match price? with
  | none => pure .zero
  | some price =>
    if setupWeight.isPositive then do
      match ← borrowDemand? weights setupWeight price with
      | some demand =>
        pure (headroom.min ((collateralLimit? available demand).getD headroom))
      | none => pure (headroom.min .zero)
    else pure .zero

/-- The part of the wallet that trades may use. The gas token keeps the fee buffer back. -/
def spendable (pool : Pool) (wallet : TokenAmount) (policy : Policy) : Except Fault TokenAmount :=
  if pool.isNative then wallet.saturatingSub (.clamped policy.feeBuffer) else pure wallet

/-- The bounds of one pool, given the collateral available for setting up trades and the dollar
price of the token. -/
def ofPool (pool : Pool) (balances : PoolBalances) (weights : NoteWeights) (available : Usd)
    (price? : Option Decimal) (policy : Policy) : Except Fault TradeBounds := do
  let wallet ← spendable pool balances.wallet policy
  let price? := price?.filter (·.isPositive)
  let held := balances.deposit.min pool.vaultLiquidity
  let withdraw := (match withdrawLimit? available.value weights.deposit price? with
    | some limit => held.min limit
    | none => held).roundDown pool.decimals
  let headroom ← pool.borrowHeadroom policy.utilizationCap
  let setupWeight ← weights.loan.mul policy.setupFraction
  let limit ← borrowLimit headroom weights setupWeight available.value price?
  let borrow := limit.roundDown pool.decimals
  let afterBorrow ← balances.deposit.add borrow
  pure {
    deposit := wallet
    withdraw
    borrow
    repay := balances.loan.min wallet
    repayFromDeposit := balances.loan.min balances.deposit
    swap := afterBorrow.min pool.vaultLiquidity
    transfer := withdraw }

end TradeBounds

end MarginAccount
