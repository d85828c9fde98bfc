import MarginAccount.Fault
import MarginAccount.Power

/-! # Time

Instants and durations count milliseconds. An instant is a number of 64 bits, and arithmetic on
instants that takes more is a fault; nothing wraps around. A duration has a magnitude below `2 ^ 63`,
which leaves out one number of 64 bits, and making one outside that range is a fault of its own.
-/

namespace MarginAccount

/-- An integer of 64 bits. -/
def FitsWord (n : Int) : Prop := -2 ^ 63 ≤ n ∧ n < 2 ^ 63

instance (n : Int) : Decidable (FitsWord n) := inferInstanceAs (Decidable (_ ∧ _))

structure Timestamp where
  milliseconds : Int
deriving DecidableEq, Repr

structure Duration where
  milliseconds : Int
deriving DecidableEq, Repr

namespace Duration

def inRange (n : Int) : Bool := n.natAbs < 2 ^ 63

def ofMilliseconds (n : Int) : Except Fault Duration :=
  if inRange n then .ok ⟨n⟩ else .error .millisecondsOutOfBounds

def ofSeconds (n : Int) : Except Fault Duration :=
  if inRange (1000 * n) then .ok ⟨1000 * n⟩ else .error .secondsOutOfBounds

def sub (a b : Duration) : Except Fault Duration :=
  let n := a.milliseconds - b.milliseconds
  if inRange n then .ok ⟨n⟩ else .error .durationSubtraction

/-- Whole seconds, cut toward zero. -/
def seconds (d : Duration) : Int := d.milliseconds.tdiv 1000

def isNegative (d : Duration) : Bool := d.milliseconds < 0

end Duration

namespace Timestamp

def ofSeconds (n : Int) : Except Fault Timestamp :=
  if FitsWord (1000 * n) then .ok ⟨1000 * n⟩ else .error .wordMultiplication

/-- Whole seconds, rounded down. -/
def seconds (t : Timestamp) : Int := t.milliseconds.fdiv 1000

/-- The time from `earlier` to `t`, negative if `earlier` is the later one. -/
def since (t earlier : Timestamp) : Except Fault Duration :=
  let n := t.milliseconds - earlier.milliseconds
  if FitsWord n then Duration.ofMilliseconds n else .error .wordSubtraction

end Timestamp

end MarginAccount
