import MarginAccount.Account.Position

/-! # Hypothetical changes

A change moves the balance of a token and stops at zero and at the largest balance. It lands on the
first position that holds the token and must be of its kind; if there is none it opens a position at
the zero address.
-/

namespace MarginAccount

/-- A signed count of base units, a word of 128 bits. -/
structure Delta where
  units : Int
  neg_le : -2 ^ 127 ≤ units := by decide
  units_lt : units < 2 ^ 127 := by decide
deriving DecidableEq, Repr

def Delta.ofInt? (n : Int) : Option Delta :=
  if h : -2 ^ 127 ≤ n ∧ n < 2 ^ 127 then some ⟨n, h.1, h.2⟩ else none

def Balance.move (b : Balance) (d : Delta) : Balance := clamp (b.units + d.units)

structure Change where
  token : TokenId
  kind : PositionKind
  exponent : Int8
  modifier : Decimal
  delta : Delta
deriving DecidableEq, Repr

namespace Change

/-- The change itself, if its weight is allowed. -/
def checked (c : Change) : Except PositionError Change :=
  (checkModifier c.token c.kind c.modifier).map fun _ => c

/-- The position that a change opens. -/
def opened (c : Change) : Position where
  token := c.token
  address := .zero
  balance := Balance.zero.move c.delta
  exponent := c.exponent
  kind := c.kind
  modifier := c.modifier

def land (c : Change) : List Position → Except PositionError (List Position)
  | [] => .ok [c.opened]
  | p :: ps =>
    if p.token = c.token then
      if p.kind = c.kind then .ok ({ p with balance := p.balance.move c.delta } :: ps)
      else .error (.kindMismatch c.token p.kind c.kind)
    else (c.land ps).map (p :: ·)

end Change

/-- Lands changes one after the other. -/
def mergeChanges (positions : List Position) (changes : List Change) :
    Except PositionError (List Position) :=
  changes.foldlM (fun ps c => c.land ps) positions

@[simp] theorem mergeChanges_nil (positions : List Position) :
    mergeChanges positions [] = .ok positions := rfl

@[simp] theorem mergeChanges_cons (positions : List Position) (c : Change) (cs : List Change) :
    mergeChanges positions (c :: cs) = (c.land positions).bind (mergeChanges · cs) := rfl

end MarginAccount
