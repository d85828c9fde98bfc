import MarginAccount.Json.Record
import MarginAccount.Risk.Indicator

/-! # Policies and risk as documents -/

namespace MarginAccount.Json

def environmentName : Environment → String
  | .development => "development"
  | .testnet => "testnet"
  | .mainnet => "mainnet"

instance : Codec Environment where
  encode e := .string (environmentName e)
  decode := decodeName [.development, .testnet, .mainnet] environmentName

instance : Codec Policy where
  encode p := .ofMembers [
    ("risk_warning_level", encode p.warningLevel),
    ("risk_critical_level", encode p.criticalLevel),
    ("risk_liquidation_level", encode p.liquidationLevel),
    ("setup_leverage_fraction", encode p.setupFraction),
    ("max_pool_util_ratio_after_borrow", encode p.utilizationCap),
    ("liquidation_timeout_secs", .ofInt p.liquidationTimeout),
    ("leverage_sentinel", encode p.leverageSentinel),
    ("native_fee_buffer", encode p.feeBuffer),
    ("max_price_age_secs", .ofInt p.maxPriceAge)]
  decode := Record.read (Policy.mk
    <$> .member "risk_warning_level"
    <*> .member "risk_critical_level"
    <*> .member "risk_liquidation_level"
    <*> .member "setup_leverage_fraction"
    <*> .member "max_pool_util_ratio_after_borrow"
    <*> .memberBy "liquidation_timeout_secs" int64
    <*> .member "leverage_sentinel"
    <*> .member "native_fee_buffer"
    <*> .memberBy "max_price_age_secs" int64)

instance : Codec RiskLevel where
  encode l := .string l.name
  decode := decodeName [.healthy, .warning, .critical, .liquidatable] RiskLevel.name

instance : Codec Risk where
  encode
    | .finite v => .ofMembers [("Finite", encode v)]
    | .unbounded => .string "Unbounded"
  decode
    | .object [(some "Finite", d)] => return .finite (← decode d)
    | .string "Unbounded" | .object [(some "Unbounded", .null)] => pure .unbounded
    | _ => unreadable

end MarginAccount.Json
