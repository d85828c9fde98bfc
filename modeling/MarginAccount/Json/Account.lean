import MarginAccount.Account.Change
import MarginAccount.Account.Snapshot
import MarginAccount.Account.Summary
import MarginAccount.Json.Risk

/-! # Accounts as documents

A position or a change that is read has an allowed weight. A snapshot that is read is taken as it is
written.
-/

namespace MarginAccount.Json

instance : Codec PositionKind where
  encode k := .string k.name
  decode := decodeName [.deposit, .claim, .noValue] PositionKind.name

instance : Codec Balance where
  encode b := .ofInt b.units
  decode d := do
    let n ← bigInt d
    orUnreadable (if writtenNegative d then none else Balance.ofNat? n.toNat)
where
  /-- A minus sign stands before the number, even if that is zero. -/
  writtenNegative : Document → Bool
    | .number n => n.negative
    | _ => false

instance : Codec Delta where
  encode d := .ofInt d.units
  decode d := do orUnreadable (Delta.ofInt? (← bigInt d))

/-- Restates a broken weight rule as a reason for not reading. -/
def orRefused {α : Type} (checked : Except PositionError α) : Decoded α :=
  .mapRefusal .position (.ofRefusable checked)

/-- The members of a position, before its weight is checked. -/
def positionRecord : Record Position :=
  Position.mk
    <$> .member "token"
    <*> .member "address"
    <*> .member "balance"
    <*> .member "exponent"
    <*> .member "kind"
    <*> .member "value_modifier"

instance : Codec Position where
  encode p := .ofMembers [
    ("token", encode p.token),
    ("address", encode p.address),
    ("balance", encode p.balance),
    ("exponent", encode p.exponent),
    ("kind", encode p.kind),
    ("value_modifier", encode p.modifier)]
  decode d := do orRefused (← positionRecord.read d).checked

/-- The members of a change, before its weight is checked. -/
def changeRecord : Record Change :=
  Change.mk
    <$> .member "token"
    <*> .member "kind"
    <*> .member "exponent"
    <*> .member "value_modifier"
    <*> .member "delta"

instance : Codec Change where
  encode c := .ofMembers [
    ("token", encode c.token),
    ("kind", encode c.kind),
    ("exponent", encode c.exponent),
    ("value_modifier", encode c.modifier),
    ("delta", encode c.delta)]
  decode d := do orRefused (← changeRecord.read d).checked

instance : Codec Liquidation where
  encode l := .ofMembers [
    ("liquidator", encode l.liquidator),
    ("start_time", encode l.startTime),
    ("timeout_secs", .ofInt l.timeout)]
  decode := Record.read (Liquidation.mk
    <$> .member "liquidator"
    <*> .member "start_time"
    <*> .memberBy "timeout_secs" int64)

instance : Codec Snapshot where
  encode s := .ofMembers [
    ("account", encode s.account),
    ("owner", encode s.owner),
    ("positions", encode s.positions),
    ("liquidation", encode s.liquidation),
    ("fetched_at", encode s.fetchedAt)]
  decode := Record.read (Snapshot.mk
    <$> .member "account"
    <*> .member "owner"
    <*> .member "positions"
    <*> .optional "liquidation"
    <*> .member "fetched_at")

instance : Codec Valuation where
  encode v := .ofMembers [
    ("assets", encode v.assets),
    ("liabilities", encode v.liabilities),
    ("required_collateral", encode v.required),
    ("required_setup_collateral", encode v.requiredSetup),
    ("weighted_collateral", encode v.weighted),
    ("effective_collateral", encode v.effective),
    ("available_collateral", encode v.available),
    ("available_setup_collateral", encode v.availableSetup),
    ("unpriced_positions", .ofInt v.unpriced)]
  decode := Record.read (Valuation.mk
    <$> .member "assets"
    <*> .member "liabilities"
    <*> .member "required_collateral"
    <*> .member "required_setup_collateral"
    <*> .member "weighted_collateral"
    <*> .member "effective_collateral"
    <*> .member "available_collateral"
    <*> .member "available_setup_collateral"
    <*> .memberBy "unpriced_positions" (natBits 32))

instance : Codec Summary where
  encode s := .ofMembers [
    ("deposited_value", encode s.deposited),
    ("borrowed_value", encode s.borrowed),
    ("account_balance", encode s.balance),
    ("available_collateral", encode s.available),
    ("leverage", encode s.leverage)]
  decode := Record.read (Summary.mk
    <$> .member "deposited_value"
    <*> .member "borrowed_value"
    <*> .member "account_balance"
    <*> .member "available_collateral"
    <*> .member "leverage")

end MarginAccount.Json
