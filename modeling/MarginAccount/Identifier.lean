import MarginAccount.Power

/-! # Identifiers

Tokens and addresses are words of 256 bits, read as 32 bytes with the most significant first, so the
order of the words is the order of the byte strings. In messages an identifier shows its first four
bytes.
-/

namespace MarginAccount

abbrev Identifier := BitVec 256

namespace Identifier

/-- The identifier whose first byte is the tag and all others zero. -/
def ofTag (tag : UInt8) : Identifier := BitVec.ofNat 256 (tag.toNat * 256 ^ 31)

/-- The 32 bytes, most significant first. -/
def bytes (id : Identifier) : List Nat :=
  (List.range 32).map fun i => id.toNat / 256 ^ (31 - i) % 256

/-- The identifier of exactly 32 bytes. -/
def ofBytes? (bytes : List Nat) : Option Identifier :=
  if bytes.length = 32 ∧ bytes.all (· < 256) then
    some (BitVec.ofNat 256 (bytes.foldl (fun n b => 256 * n + b) 0))
  else none

def hexByte (b : Nat) : String :=
  String.ofList [Nat.digitChar (b / 16), Nat.digitChar (b % 16)]

def hex (id : Identifier) : String := String.join (id.bytes.map hexByte)

/-- The first four bytes and two dots. -/
def short (id : Identifier) : String := String.join ((id.bytes.take 4).map hexByte) ++ ".."

end Identifier

structure TokenId where
  id : Identifier
deriving DecidableEq, Repr

structure Address where
  id : Identifier
deriving DecidableEq, Repr

instance : ToString TokenId := ⟨fun t => t.id.short⟩

instance : ToString Address := ⟨fun a => a.id.short⟩

def TokenId.ofTag (tag : UInt8) : TokenId := ⟨.ofTag tag⟩

namespace Address

def ofTag (tag : UInt8) : Address := ⟨.ofTag tag⟩

/-- The zero address: the slot of a position that is not registered, the signer nobody is. -/
def zero : Address := ⟨0⟩

def isZero (a : Address) : Bool := a == zero

end Address

end MarginAccount
