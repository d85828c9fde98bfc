import MarginAccount.Account.Valuation
import MarginAccount.Liquidation.State

/-! # The liquidation log

Every liquidation that begins or ends is recorded under consecutive numbers. The log keeps the last
of its events, up to a limit.
-/

namespace MarginAccount

structure LiquidationBegun where
  account : Address
  liquidator : Address
  startTime : Timestamp
  risk : Risk
  valuation : Valuation
deriving DecidableEq, Repr

structure LiquidationEnded where
  account : Address
  authority : Address
  reason : EndReason
deriving DecidableEq, Repr

def LiquidationEnded.timedOut (e : LiquidationEnded) : Bool := e.reason == .timedOut

inductive EventPayload where
  | begun (event : LiquidationBegun)
  | ended (event : LiquidationEnded)
deriving DecidableEq, Repr

structure Event where
  id : Nat
  timestamp : Timestamp
  payload : EventPayload
deriving DecidableEq, Repr

structure EventLog where
  events : List Event
  nextId : Nat
deriving DecidableEq, Repr

/-- The last `n` elements of a list. -/
def lastOf {α : Type} (n : Nat) (xs : List α) : List α := xs.drop (xs.length - n)

namespace EventLog

def empty : EventLog := ⟨[], 1⟩

/-- Appends an event under the next number and keeps the last `limit`. -/
def record (log : EventLog) (limit : Nat) (timestamp : Timestamp) (payload : EventPayload) :
    EventLog where
  events := lastOf limit (log.events ++ [⟨log.nextId, timestamp, payload⟩])
  nextId := log.nextId + 1

def recent (log : EventLog) (count : Nat) : List Event := lastOf count log.events

@[simp] theorem nextId_record (log : EventLog) (limit : Nat) (t : Timestamp) (p : EventPayload) :
    (log.record limit t p).nextId = log.nextId + 1 := rfl

theorem length_lastOf {α : Type} (n : Nat) (xs : List α) :
    (lastOf n xs).length = Nat.min n xs.length := by
  simp only [lastOf, List.length_drop, Nat.min_def]
  split <;> omega

end EventLog

end MarginAccount
