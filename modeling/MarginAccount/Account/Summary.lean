import MarginAccount.Account.Valuation

/-! # Account summary

The header of an account: what it holds, what it owes, the balance of the two, and its leverage,
which is assets over equity.
-/

namespace MarginAccount

structure Summary where
  deposited : Usd
  borrowed : Usd
  /-- Deposits less borrows; negative under water. -/
  balance : Usd
  available : Usd
  leverage : Decimal
deriving DecidableEq, Repr

/-- Leverage at a given equity. Without positive equity, and where the ratio does not fit a decimal,
the policy's sentinel stands for it; an empty account has leverage one. -/
def Valuation.leverage (v : Valuation) (equity : Usd) (policy : Policy) : Decimal :=
  if equity.value.isPositive then
    (v.assets.value.div? equity.value).getD policy.leverageSentinel
  else if v.assets.isZero && v.liabilities.isZero then .one
  else policy.leverageSentinel

def Valuation.summary (v : Valuation) (policy : Policy) : Except Fault Summary := do
  let equity ← v.equity
  pure {
    deposited := v.assets
    borrowed := v.liabilities
    balance := equity
    available := v.available
    leverage := v.leverage equity policy }

end MarginAccount
