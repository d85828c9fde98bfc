import MarginAccount.Market.Pool
import MarginAccount.Market.Price

/-! # The market around an account

The configured tokens in display order, and what has been loaded about them so far: pools, prices and
the balances of the wallet.
-/

namespace MarginAccount

structure Market where
  tokens : List TokenId
  pools : Registry Pool
  prices : Registry OraclePrice
  wallet : Registry TokenAmount

namespace Market

def ofTokens (tokens : List TokenId) : Market := ⟨tokens, .empty, .empty, .empty⟩

def setPool (m : Market) (pool : Pool) : Market :=
  { m with pools := m.pools.insert pool.token pool }

def setPrice (m : Market) (token : TokenId) (price : OraclePrice) : Market :=
  { m with prices := m.prices.insert token price }

def setWallet (m : Market) (token : TokenId) (amount : TokenAmount) : Market :=
  { m with wallet := m.wallet.insert token amount }

def removePool (m : Market) (token : TokenId) : Market := { m with pools := m.pools.erase token }

def removePrice (m : Market) (token : TokenId) : Market := { m with prices := m.prices.erase token }

def walletBalance (m : Market) (token : TokenId) : TokenAmount :=
  (m.wallet.get? token).getD .zero

end Market

end MarginAccount
