import MarginAccount.Json.Record
import MarginAccount.Market.Pool
import MarginAccount.Market.Price

/-! # Prices and pools as documents -/

namespace MarginAccount.Json

instance : Codec OraclePrice where
  encode p := .ofMembers [
    ("price", encode p.price),
    ("exponent", encode p.exponent),
    ("timestamp", encode p.timestamp)]
  decode := Record.read (OraclePrice.mk
    <$> .member "price"
    <*> .member "exponent"
    <*> .member "timestamp")

instance : Codec ExchangeRate where
  encode r := .ofMembers [
    ("total_underlying", encode r.totalUnderlying),
    ("total_notes", encode r.totalNotes)]
  decode := Record.read (ExchangeRate.mk
    <$> .member "total_underlying"
    <*> .member "total_notes")

instance : Codec Pool where
  encode p := .ofMembers [
    ("token", encode p.token),
    ("symbol", encode p.symbol),
    ("decimals", .ofInt p.decimals),
    ("deposit_note", encode p.depositNote),
    ("loan_note", encode p.loanNote),
    ("vault_liquidity", encode p.vaultLiquidity),
    ("total_borrowed", encode p.totalBorrowed),
    ("deposit_rate", encode p.depositRate),
    ("loan_rate", encode p.loanRate),
    ("deposit_weight", encode p.depositWeight),
    ("loan_weight", encode p.loanWeight),
    ("is_native", encode p.isNative)]
  decode := Record.read (Pool.mk
    <$> .member "token"
    <*> .member "symbol"
    <*> .memberBy "decimals" (natBits 32)
    <*> .member "deposit_note"
    <*> .member "loan_note"
    <*> .member "vault_liquidity"
    <*> .member "total_borrowed"
    <*> .member "deposit_rate"
    <*> .member "loan_rate"
    <*> .member "deposit_weight"
    <*> .member "loan_weight"
    <*> .member "is_native")

end MarginAccount.Json
