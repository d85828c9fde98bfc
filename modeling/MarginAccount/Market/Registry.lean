import MarginAccount.Identifier

/-! # Registries

A registry holds at most one entry for each token. It is known by its look-ups alone, so two
registries with the same entries are equal.
-/

namespace MarginAccount

@[ext] structure Registry (α : Type) where
  get? : TokenId → Option α

namespace Registry

variable {α : Type}

def empty : Registry α := ⟨fun _ => none⟩

def insert (r : Registry α) (token : TokenId) (entry : α) : Registry α :=
  ⟨fun t => if t = token then some entry else r.get? t⟩

def erase (r : Registry α) (token : TokenId) : Registry α :=
  ⟨fun t => if t = token then none else r.get? t⟩

def contains (r : Registry α) (token : TokenId) : Bool := (r.get? token).isSome

/-- The registry of a list of entries, of which a later one for the same token wins. -/
def ofList (entries : List (TokenId × α)) : Registry α :=
  entries.foldl (fun r (token, entry) => r.insert token entry) empty

theorem get?_insert (r : Registry α) (token t : TokenId) (entry : α) :
    (r.insert token entry).get? t = if t = token then some entry else r.get? t := rfl

@[simp] theorem get?_insert_self (r : Registry α) (token : TokenId) (entry : α) :
    (r.insert token entry).get? token = some entry := by
  simp [get?_insert]

end Registry

end MarginAccount
