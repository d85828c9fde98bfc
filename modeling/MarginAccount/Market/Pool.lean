import MarginAccount.Amount
import MarginAccount.Identifier

/-! # Lending pools

A pool issues deposit notes and loan notes; an exchange rate says what notes are worth in the
underlying token. Borrowing is limited by the utilization that it would leave the pool at.
-/

namespace MarginAccount

structure ExchangeRate where
  totalUnderlying : Decimal
  totalNotes : Decimal
deriving DecidableEq, Repr

namespace ExchangeRate

def one : ExchangeRate := ⟨.one, .one⟩

/-- `notes · underlying / notes outstanding`; one to one while no notes are outstanding. -/
def toUnderlying? (rate : ExchangeRate) (notes : Decimal) : Option Decimal :=
  if rate.totalNotes.isZero then some notes
  else do (← notes.mul? rate.totalUnderlying).div? rate.totalNotes

end ExchangeRate

structure Pool where
  token : TokenId
  symbol : String
  decimals : Nat
  depositNote : TokenId
  loanNote : TokenId
  /-- Tokens in the vault, free to be withdrawn or borrowed. -/
  vaultLiquidity : TokenAmount
  totalBorrowed : TokenAmount
  depositRate : ExchangeRate
  loanRate : ExchangeRate
  /-- The weight of deposit notes for an account that holds none. -/
  depositWeight : Decimal
  /-- The weight of loan notes for an account that holds none. -/
  loanWeight : Decimal
  /-- Whether the token pays the network's fees. -/
  isNative : Bool
deriving DecidableEq, Repr

namespace Pool

/-- The borrowed share of the pool; zero for an empty pool. -/
def utilization (pool : Pool) : Except Fault Decimal := do
  let total ← pool.vaultLiquidity.value.add pool.totalBorrowed.value
  if total.isZero then pure .zero else pool.totalBorrowed.value.div total

/-- What may be borrowed before the pool reaches a utilization of `cap`:
`vault · cap - borrowed · (1 - cap)`, at least zero. -/
def borrowHeadroom (pool : Pool) (cap : Decimal) : Except Fault TokenAmount := do
  let lendable ← pool.vaultLiquidity.value.mul cap
  let kept ← pool.totalBorrowed.value.mul (← Decimal.one.sub cap)
  pure (.clamped (← lendable.sub kept))

end Pool

end MarginAccount
