import MarginAccount.Decimal.Text
import MarginAccount.Json.Document

/-! # Reading JSON text

`Document.read` turns a text into its document and the text that follows it. Reading never fails: a
text that goes wrong gives a document with a broken leaf at that place, and nothing after it is
looked at.
-/

namespace MarginAccount.Json

def isBlank (c : Char) : Bool := c = ' ' || c = '\n' || c = '\t' || c = '\r'

def skipBlanks (text : List Char) : List Char := text.dropWhile isBlank

/-- Digits at the start of a text, and the rest. -/
def spanDigits (text : List Char) : List Nat × List Char :=
  (text.takeWhile (digit? · |>.isSome) |>.filterMap digit?, text.dropWhile (digit? · |>.isSome))

def natOfDigits (ds : List Nat) : Nat := ds.foldl (fun n d => 10 * n + d) 0

/-- The digits after a point; there must be one. -/
def readPlaces? : List Char → Option (Option (List Nat) × List Char)
  | '.' :: text =>
    match spanDigits text with
    | ([], _) => none
    | (ds, rest) => some (some ds, rest)
  | text => some (none, text)

/-- The sign of an exponent. -/
def readSign : List Char → Bool × List Char
  | '-' :: rest => (true, rest)
  | '+' :: rest => (false, rest)
  | rest => (false, rest)

/-- The exponent after its mark; there must be a digit. -/
def readExponent? : List Char → Option (Option Int × List Char)
  | c :: text =>
    if c = 'e' ∨ c = 'E' then
      let (negative, digits) := readSign text
      match spanDigits digits with
      | ([], _) => none
      | (ds, rest) =>
        let n : Int := natOfDigits ds
        some (some (if negative then -n else n), rest)
    else some (none, c :: text)
  | [] => some (none, [])

/-- A number without its sign. More than one digit must not start with a zero. -/
def readUnsigned? (negative : Bool) (text : List Char) : Option (Numeral × List Char) := do
  let (ds, text) := spanDigits text
  if ds = [] ∨ (ds.head? = some 0 ∧ 1 < ds.length) then none
  else
    let (places, text) ← readPlaces? text
    let (exponent, text) ← readExponent? text
    some (⟨negative, natOfDigits ds, places, exponent⟩, text)

def readNumeral? : List Char → Option (Numeral × List Char)
  | '-' :: text => readUnsigned? true text
  | text => readUnsigned? false text

def hexDigit? (c : Char) : Option Nat :=
  if '0' ≤ c ∧ c ≤ '9' then some (c.toNat - '0'.toNat)
  else if 'a' ≤ c ∧ c ≤ 'f' then some (c.toNat - 'a'.toNat + 10)
  else if 'A' ≤ c ∧ c ≤ 'F' then some (c.toNat - 'A'.toNat + 10)
  else none

def hexUnit? (a b c d : Char) : Option Nat := do
  pure (((16 * (← hexDigit? a) + (← hexDigit? b)) * 16 + (← hexDigit? c)) * 16 + (← hexDigit? d))

/-- The character of a short escape. -/
def shortEscape? (c : Char) : Option Char :=
  if c = '"' then some '"'
  else if c = '\\' then some '\\'
  else if c = '/' then some '/'
  else if c = 'b' then some '\x08'
  else if c = 'f' then some '\x0c'
  else if c = 'n' then some '\n'
  else if c = 'r' then some '\r'
  else if c = 't' then some '\t'
  else none

/-- One step into a string: a character, an escaped unit of 16 bits, or the closing quote. -/
inductive StringToken where
  | char (c : Char)
  | unit (n : Nat)
  | close
deriving DecidableEq, Repr

/-- The next token of a string and how many characters it takes, none where the text goes wrong. -/
def stringToken? : List Char → Option (StringToken × Nat)
  | [] => none
  | c :: rest =>
    if c = '"' then some (.close, 1)
    else if c.toNat < 32 then none
    else if c = '\\' then
      match rest with
      | 'u' :: h₁ :: h₂ :: h₃ :: h₄ :: _ => (hexUnit? h₁ h₂ h₃ h₄).map (.unit ·, 6)
      | e :: _ => (shortEscape? e).map (.char ·, 2)
      | [] => none
    else some (.char c, 1)

/-- The tokens of a string up to its closing quote, and the text after it. `skip` characters still
belong to the token before. -/
def stringTokens? (skip : Nat) : List Char → Option (List StringToken × List Char)
  | [] => none
  | c :: rest =>
    match skip with
    | skip + 1 => stringTokens? skip rest
    | 0 =>
      match stringToken? (c :: rest) with
      | none => none
      | some (.close, _) => some ([], rest)
      | some (token, width) => do
        let (tokens, after) ← stringTokens? (width - 1) rest
        some (token :: tokens, after)

/-- The characters of tokens, none if a unit stands for no character. Two units may form a pair. -/
def characters? : List StringToken → Option (List Char)
  | [] => some []
  | .char c :: rest => (characters? rest).map (c :: ·)
  | .close :: rest => characters? rest
  | .unit n :: rest =>
    if n < 0xd800 ∨ 0xe000 ≤ n then (characters? rest).map (Char.ofNat n :: ·)
    else
      match rest with
      | .unit m :: rest =>
        if n < 0xdc00 ∧ 0xdc00 ≤ m ∧ m < 0xe000 then
          (characters? rest).map (Char.ofNat (0x10000 + (n - 0xd800) * 0x400 + (m - 0xdc00)) :: ·)
        else none
      | _ => none

/-- A string after its opening quote. -/
def readString? (text : List Char) : Option (Option String × List Char) :=
  (stringTokens? 0 text).map fun (tokens, rest) => ((characters? tokens).map String.ofList, rest)

def afterWord? (word text : List Char) : Option (List Char) :=
  if word.isPrefixOf text then some (text.drop word.length) else none

/-- A name written out in letters. -/
def readWord (word : String) (value : Document) (text : List Char) : Document × List Char :=
  match afterWord? word.toList text with
  | some rest => (value, rest)
  | none => (.broken, [])

namespace Document

/-- An item list or member list that goes wrong. -/
def brokenMember : Option String × Document := (none, .broken)

mutual

def readValue (fuel : Nat) (text : List Char) : Document × List Char :=
  match fuel with
  | 0 => (.broken, [])
  | fuel + 1 =>
    match skipBlanks text with
    | [] => (.broken, [])
    | c :: rest =>
      if c = '[' then
        match skipBlanks rest with
        | ']' :: rest => (.array [], rest)
        | rest =>
          let (items, rest) := readItems fuel rest
          (.array items, rest)
      else if c = '\x7b' then
        match skipBlanks rest with
        | '\x7d' :: rest => (.object [], rest)
        | rest =>
          let (members, rest) := readMembers fuel rest
          (.object members, rest)
      else if c = '"' then
        match readString? rest with
        | some (some s, rest) => (.string s, rest)
        | some (none, rest) => (.garbled, rest)
        | none => (.broken, [])
      else if c = 'n' then readWord "null" .null (c :: rest)
      else if c = 't' then readWord "true" (.bool true) (c :: rest)
      else if c = 'f' then readWord "false" (.bool false) (c :: rest)
      else
        match readNumeral? (c :: rest) with
        | some (n, rest) => (.number n, rest)
        | none => (.broken, [])

/-- Items up to the closing bracket. -/
def readItems (fuel : Nat) (text : List Char) : List Document × List Char :=
  match fuel with
  | 0 => ([.broken], [])
  | fuel + 1 =>
    let (item, rest) := readValue fuel text
    match skipBlanks rest with
    | ']' :: rest => ([item], rest)
    | ',' :: rest =>
      let (items, rest) := readItems fuel rest
      (item :: items, rest)
    | _ => ([item, .broken], [])

/-- Members up to the closing brace. -/
def readMembers (fuel : Nat) (text : List Char) : List (Option String × Document) × List Char :=
  match fuel with
  | 0 => ([brokenMember], [])
  | fuel + 1 =>
    match skipBlanks text with
    | '"' :: rest =>
      match readString? rest with
      | some (name, rest) =>
        match skipBlanks rest with
        | ':' :: rest =>
          let (value, rest) := readValue fuel rest
          match skipBlanks rest with
          | '\x7d' :: rest => ([(name, value)], rest)
          | ',' :: rest =>
            let (members, rest) := readMembers fuel rest
            ((name, value) :: members, rest)
          | _ => ([(name, value), brokenMember], [])
        | _ => ([brokenMember], [])
      | none => ([brokenMember], [])
    | _ => ([brokenMember], [])

end

/-- The document at the start of a text, and the text after it. Every second step of reading takes
a character, which bounds the number of steps. -/
def read (text : List Char) : Document × List Char := readValue (2 * text.length + 2) text

end Document

end MarginAccount.Json
