import MarginAccount.Json.Codec

/-! # Records

A record reads named members of an object in any order and ignores the others. Of two members that
cannot be read, the one that is written first gives the reason; a member that is missing counts as
written last, and one that is written again goes wrong in its second place. The values alone are read
too, as an array in the order of the names; there none is missing and nothing follows.
-/

namespace MarginAccount.Json

/-- What could not be read, and at which member. -/
structure Misread where
  place : Nat
  reason : Failure DecodeError
deriving DecidableEq, Repr

structure Record (α : Type) where
  /-- The names of the members, in the order of their values in an array. -/
  names : List String
  run : List (Option String × Document) → Except Misread α
  /-- Reads the values at the start of an array, and leaves the others. -/
  take : List Document → Decoded (α × List Document)

namespace Record

variable {α β : Type}

/-- The earlier of two failures, the first at one place. -/
def combine : Except Misread (α → β) → Except Misread α → Except Misread β
  | .ok f, .ok a => .ok (f a)
  | .ok _, .error e => .error e
  | .error e, .ok _ => .error e
  | .error e, .error e' => .error (if e.place ≤ e'.place then e else e')

instance : Applicative Record where
  pure a := ⟨[], fun _ => .ok a, fun items => pure (a, items)⟩
  seq f x := {
    names := f.names ++ (x ()).names
    run := fun members => combine (f.run members) ((x ()).run members)
    take := fun items => do
      let first ← f.take items
      let second ← (x ()).take first.2
      pure (first.1 second.1, second.2) }

def located (place : Nat) : Decoded α → Except Misread α
  | .ok a => .ok a
  | .error e => .error ⟨place, e⟩

/-- Where a name is written. -/
def placeOf (name : String) (members : List (Option String × Document)) : Nat :=
  members.findIdx (·.1 == some name)

/-- Reads the value at the start of an array. -/
def takeBy (read : Document → Decoded α) : List Document → Decoded (α × List Document)
  | [] => unreadable
  | item :: items => return (← read item, items)

/-- The member of a name, read as told. -/
def memberBy (name : String) (read : Document → Decoded α) : Record α where
  names := [name]
  run members :=
    let place := placeOf name members
    located place ((members[place]?.map (·.2)).elim unreadable read)
  take := takeBy read

def member (name : String) [Codec α] : Record α := memberBy name decode

/-- A member that may be missing from an object. -/
def optional (name : String) [Codec α] : Record (Option α) where
  names := [name]
  run members :=
    let place := placeOf name members
    located place ((members[place]?.map (·.2)).elim (pure none) decode)
  take := takeBy decode

/-- No member is wrong at its place. -/
def clean (wrong : List (Option String × Document) → (Option String × Document) × Nat → Bool) :
    Record Unit where
  names := []
  run members :=
    let place := members.zipIdx.findIdx (wrong members)
    if place < members.length then .error ⟨place, .refused .unreadable⟩ else .ok ()
  take items := pure ((), items)

/-- Every member has a name, and none goes wrong, whatever its name. -/
def intact : Record Unit := clean fun _ ((name, value), _) => name.isNone || !value.isWhole

/-- None of the names is written again. -/
def unrepeated (names : List String) : Record Unit := clean fun members ((name, _), place) =>
  names.any fun known => name == some known && placeOf known members < place

def read (r : Record α) : Document → Decoded α
  | .object members =>
    match (r <* unrepeated r.names <* intact).run members with
    | .ok a => pure a
    | .error e => .error e.reason
  | .array items => do
    match ← r.take items with
    | (a, []) => pure a
    | _ => unreadable
  | _ => unreadable

end Record

end MarginAccount.Json
