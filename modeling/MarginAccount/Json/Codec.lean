import MarginAccount.Account.Position
import MarginAccount.Amount
import MarginAccount.Binary64.Shortest
import MarginAccount.Decimal.Reader
import MarginAccount.Json.Reader
import MarginAccount.Time

/-! # Values as documents

A codec writes values as documents and reads them back. A document that is not of the expected form is
unreadable; one whose position breaks the weight rules is refused with that reason. Reading may fault
where a value cannot be represented at all.
-/

namespace MarginAccount.Json

inductive DecodeError where
  | unreadable
  | position (cause : PositionError)
deriving DecidableEq, Repr

abbrev Decoded (α : Type) := Outcome DecodeError α

class Codec (α : Type) where
  encode : α → Document
  decode : Document → Decoded α

export Codec (encode decode)

def unreadable {α : Type} : Decoded α := .refuse .unreadable

def orUnreadable {α : Type} (a? : Option α) : Decoded α := .ofOption .unreadable a?

/-- An integer of at most 64 bits between two limits. -/
def intBetween (low high : Int) : Document → Decoded Int
  | .number n => orUnreadable (n.word?.filter fun i => low ≤ i && i ≤ high)
  | _ => unreadable

def int64 : Document → Decoded Int := intBetween (-2 ^ 63) (2 ^ 63 - 1)

/-- A natural number of so many bits, at most 64. -/
def natBits (bits : Nat) (d : Document) : Decoded Nat :=
  return (← intBetween 0 (2 ^ bits - 1) d).toNat

/-- An integer of any size. -/
def bigInt : Document → Decoded Int
  | .number n => orUnreadable n.integer?
  | _ => unreadable

/-- A value that is written as one of a few names. A name may also stand as the only member of an
object, with nothing as its value. -/
def decodeName {α : Type} (values : List α) (name : α → String) : Document → Decoded α
  | .string s | .object [(some s, .null)] => orUnreadable (values.find? (name · == s))
  | _ => unreadable

/-- A number in binary floating point as a decimal: by its shortest text. -/
def decimalOfFloat? (n : Numeral) : Option Decimal := do
  let x ← n.toBinary64?
  Decimal.read? ((if n.negative then ['-'] else []) ++ x.toChars)

/-- A number as a decimal. Integers of 64 bits are exact. -/
def decimalOfNumber? (n : Numeral) : Option Decimal :=
  match n.word? with
  | some i => Decimal.ofParts? (i < 0) i.natAbs 0
  | none => decimalOfFloat? n

instance : Codec Bool where
  encode := .bool
  decode
    | .bool b => pure b
    | _ => unreadable

instance : Codec String where
  encode := .string
  decode
    | .string s => pure s
    | _ => unreadable

instance {α : Type} [Codec α] : Codec (List α) where
  encode items := .array (items.map encode)
  decode
    | .array items => items.mapM decode
    | _ => unreadable

instance {α : Type} [Codec α] : Codec (Option α) where
  encode
    | none => .null
    | some a => encode a
  decode
    | .null => pure none
    | d => return some (← decode d)

instance : Codec Decimal where
  encode d := .string d.toText
  decode
    | .string s => orUnreadable (Decimal.read? s.toList)
    | .number n => orUnreadable (decimalOfNumber? n)
    | _ => unreadable

instance : Codec Usd where
  encode u := encode u.value
  decode d := return ⟨← decode d⟩

instance : Codec TokenAmount where
  encode a := encode a.value
  decode d := return ⟨← decode d⟩

instance : Codec Int8 where
  encode n := .ofInt n.toInt
  decode d := return Int8.ofInt (← intBetween (-128) 127 d)

instance : Codec Timestamp where
  encode t := .ofInt t.milliseconds
  decode d := return ⟨← int64 d⟩

def encodeIdentifier (id : Identifier) : Document := .array (id.bytes.map fun b : Nat => .ofInt b)

/-- Exactly 32 bytes. -/
def decodeIdentifier : Document → Decoded Identifier
  | .array items => do
    let bytes ← items.mapM (natBits 8)
    orUnreadable (Identifier.ofBytes? bytes)
  | _ => unreadable

instance : Codec TokenId where
  encode t := encodeIdentifier t.id
  decode d := return ⟨← decodeIdentifier d⟩

instance : Codec Address where
  encode a := encodeIdentifier a.id
  decode d := return ⟨← decodeIdentifier d⟩

/-- Reads a text that holds one document and blanks around it. -/
def readText {α : Type} [Codec α] (text : String) : Decoded α := do
  let (document, rest) := Document.read text.toList
  let value ← decode document
  if skipBlanks rest = [] then pure value else unreadable

def writeText {α : Type} [Codec α] (value : α) : String := (encode value).render

end MarginAccount.Json
