import MarginAccount.Account.Position
import MarginAccount.Liquidation.State

/-! # Account snapshots

An immutable view of one account: its registered positions and, while it lasts, its liquidation.
`ofSlots` drops the slots at the zero address and refuses too many positions, a weight that is not
allowed and an address that occurs twice.
-/

namespace MarginAccount

structure Snapshot where
  account : Address
  owner : Address
  positions : List Position
  liquidation : Option Liquidation
  fetchedAt : Timestamp
deriving DecidableEq, Repr

/-- The most positions that an account may register. -/
def maxPositions : Nat := 24

/-- Each position has an allowed weight and an address that is not among `seen` or before it. -/
def checkPositions (seen : List Address) : List Position → Except PositionError Unit
  | [] => .ok ()
  | p :: ps => do
    p.check
    if p.address ∈ seen then .error (.duplicateAddress p.address)
    else checkPositions (p.address :: seen) ps

namespace Snapshot

def ofSlots (account owner : Address) (positions : List Position) (liquidation : Option Liquidation)
    (fetchedAt : Timestamp) : Except PositionError Snapshot :=
  let registered := positions.filter (!·.address.isZero)
  if maxPositions < registered.length then
    .error (.tooManyPositions registered.length maxPositions)
  else (checkPositions [] registered).map fun _ =>
    ⟨account, owner, registered, liquidation, fetchedAt⟩

/-- An account with nothing registered. -/
def empty (account owner : Address) (fetchedAt : Timestamp) : Snapshot :=
  ⟨account, owner, [], none, fetchedAt⟩

def position? (s : Snapshot) (token : TokenId) : Option Position :=
  s.positions.find? (·.token == token)

def isBeingLiquidated (s : Snapshot) : Bool := s.liquidation.isSome

def liquidator? (s : Snapshot) : Option Address := s.liquidation.map (·.liquidator)

/-- The owner always, and the liquidator while the liquidation lasts. -/
def hasAuthority (s : Snapshot) (who : Address) : Bool :=
  who == s.owner || s.liquidator? == some who

def withLiquidation (s : Snapshot) (liquidation : Option Liquidation) : Snapshot :=
  { s with liquidation }

end Snapshot

end MarginAccount
