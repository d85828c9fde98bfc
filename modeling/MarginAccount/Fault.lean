/-! # Faults

A fault is a computation that has no answer at all: a sum outside the decimal range, a duration
outside the clock's range. It is kept apart from a refusal, which is an answer. `Outcome ε α` is a
computation that may fault, refuse with an `ε`, or return an `α`.
-/

namespace MarginAccount

inductive Fault where
  | addition
  | subtraction
  | multiplication
  | division
  | divisionByZero
  | secondsOutOfBounds
  | millisecondsOutOfBounds
  | durationSubtraction
  | wordSubtraction
  | wordMultiplication
deriving DecidableEq, Repr

def Fault.message : Fault → String
  | .addition => "Addition overflowed"
  | .subtraction => "Subtraction overflowed"
  | .multiplication => "Multiplication overflowed"
  | .division => "Division overflowed"
  | .divisionByZero => "Division by zero"
  | .secondsOutOfBounds => "TimeDelta::seconds out of bounds"
  | .millisecondsOutOfBounds => "TimeDelta::milliseconds out of bounds"
  | .durationSubtraction => "`TimeDelta - TimeDelta` overflowed"
  | .wordSubtraction => "attempt to subtract with overflow"
  | .wordMultiplication => "attempt to multiply with overflow"

inductive Failure (ε : Type) where
  | fault (cause : Fault)
  | refused (reason : ε)
deriving DecidableEq, Repr

abbrev Outcome (ε α : Type) := Except (Failure ε) α

namespace Outcome

variable {ε δ α : Type}

def refuse (reason : ε) : Outcome ε α := .error (.refused reason)

/-- A computation that can only fault, among those that can also refuse. -/
def ofFaultable : Except Fault α → Outcome ε α
  | .ok a => .ok a
  | .error f => .error (.fault f)

/-- A computation that can only refuse, among those that can also fault. -/
def ofRefusable : Except ε α → Outcome ε α
  | .ok a => .ok a
  | .error e => .error (.refused e)

/-- The value, or a refusal where there is none. -/
def ofOption (reason : ε) : Option α → Outcome ε α
  | some a => .ok a
  | none => refuse reason

/-- Restates the reason of a refusal; faults stay as they are. -/
def mapRefusal (g : ε → δ) : Outcome ε α → Outcome δ α
  | .ok a => .ok a
  | .error (.fault f) => .error (.fault f)
  | .error (.refused e) => .error (.refused (g e))

@[simp] theorem ofFaultable_ok (a : α) : (ofFaultable (.ok a) : Outcome ε α) = .ok a := rfl

@[simp] theorem ofFaultable_error (f : Fault) :
    (ofFaultable (.error f) : Outcome ε α) = .error (.fault f) := rfl

@[simp] theorem ofRefusable_ok (a : α) : (ofRefusable (.ok a) : Outcome ε α) = .ok a := rfl

@[simp] theorem ofRefusable_error (e : ε) :
    (ofRefusable (.error e) : Outcome ε α) = .error (.refused e) := rfl

@[simp] theorem ofOption_some (e : ε) (a : α) : ofOption e (some a) = .ok a := rfl

@[simp] theorem ofOption_none (e : ε) : (ofOption e none : Outcome ε α) = refuse e := rfl

@[simp] theorem mapRefusal_ok (g : ε → δ) (a : α) :
    mapRefusal g (.ok a : Outcome ε α) = .ok a := rfl

@[simp] theorem mapRefusal_refuse (g : ε → δ) (e : ε) :
    mapRefusal g (refuse e : Outcome ε α) = refuse (g e) := rfl

@[simp] theorem mapRefusal_fault (g : ε → δ) (f : Fault) :
    mapRefusal g (.error (.fault f) : Outcome ε α) = .error (.fault f) := rfl

end Outcome

end MarginAccount
