import MarginAccount.Json.Numeral

/-! # JSON documents

The tree of a JSON text. Members keep the order in which they are written. A text that goes wrong has
a tree too, up to the place where it breaks off: the last leaf is then `broken`. A string or a name
with an escape that stands for no character has a place in the tree but no text. `render` writes a
document without blanks.
-/

namespace MarginAccount.Json

inductive Document where
  | null
  | bool (value : Bool)
  | number (value : Numeral)
  | string (value : String)
  /-- A string with an escape that stands for no character. -/
  | garbled
  | array (items : List Document)
  /-- A name is missing where an escape in it stands for no character. -/
  | object (members : List (Option String × Document))
  /-- The text goes wrong here. -/
  | broken

namespace Document

mutual

/-- The text of the document does not go wrong. -/
def isWhole : Document → Bool
  | .broken => false
  | .array items => areWhole items
  | .object members => membersAreWhole members
  | .null | .bool _ | .number _ | .string _ | .garbled => true

def areWhole : List Document → Bool
  | [] => true
  | item :: items => item.isWhole && areWhole items

def membersAreWhole : List (Option String × Document) → Bool
  | [] => true
  | (_, value) :: members => value.isWhole && membersAreWhole members

end

def ofInt (n : Int) : Document := .number (.ofInt n)

/-- The object with these members. -/
def ofMembers (members : List (String × Document)) : Document :=
  .object (members.map fun (name, value) => (some name, value))

/-- The escape of a character in a string. -/
def escape (c : Char) : List Char :=
  if c = '"' then ['\\', '"']
  else if c = '\\' then ['\\', '\\']
  else if c = '\n' then ['\\', 'n']
  else if c = '\r' then ['\\', 'r']
  else if c = '\t' then ['\\', 't']
  else if c = '\x08' then ['\\', 'b']
  else if c = '\x0c' then ['\\', 'f']
  else if c.toNat < 32 then
    ['\\', 'u', '0', '0', Nat.digitChar (c.toNat / 16), Nat.digitChar (c.toNat % 16)]
  else [c]

def quote (s : String) : String := String.ofList ('"' :: s.toList.flatMap escape ++ ['"'])

mutual

/-- The compact text. What stands for no text of its own is left out. -/
def render : Document → String
  | .null => "null"
  | .bool b => if b then "true" else "false"
  | .number n => n.toText
  | .string s => quote s
  | .array items => "[" ++ ",".intercalate (renderItems items) ++ "]"
  | .object members => "\x7b" ++ ",".intercalate (renderMembers members) ++ "\x7d"
  | .garbled | .broken => ""

def renderItems : List Document → List String
  | [] => []
  | item :: items => item.render :: renderItems items

def renderMembers : List (Option String × Document) → List String
  | [] => []
  | (name, value) :: members =>
    (name.elim "" quote ++ ":" ++ value.render) :: renderMembers members

end

end Document

end MarginAccount.Json
