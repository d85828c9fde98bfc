import MarginAccount.Decimal.Basic

/-! # Plain decimal text

A decimal is written with all places of its scale. Plain text, the form `-?digits(.digits)?`, reads
back what is written.
-/

namespace MarginAccount

/-- The value of a digit. -/
def digit? (c : Char) : Option Nat :=
  if '0' ≤ c ∧ c ≤ '9' then some (c.toNat - '0'.toNat) else none

/-- The number that decimal digits spell, if they are digits and there is one. -/
def natOfDigits? : List Char → Option Nat
  | [] => none
  | cs => cs.foldlM (fun n c => (digit? c).map (10 * n + ·)) 0

namespace Decimal

/-- The digits with at least one before the point. -/
def digits (d : Decimal) : List Char :=
  let ds := Nat.toDigits 10 d.mantissa
  List.replicate (d.scale + 1 - ds.length) '0' ++ ds

def toChars (d : Decimal) : List Char :=
  let ds := d.digits
  let whole := ds.take (ds.length - d.scale)
  let places := ds.drop (ds.length - d.scale)
  (if d.negative then ['-'] else []) ++ whole ++ (if d.scale = 0 then [] else '.' :: places)

def toText (d : Decimal) : String := String.ofList d.toChars

instance : ToString Decimal := ⟨toText⟩

/-- The decimal that plain text spells. A zero loses its sign. -/
def ofPlain? (text : List Char) : Option Decimal := do
  let (negative, body) := match text with
    | '-' :: rest => (true, rest)
    | rest => (false, rest)
  let whole := body.takeWhile (· != '.')
  let (places, ended) := match body.dropWhile (· != '.') with
    | [] => ([], true)
    | _ :: rest => (rest, !rest.isEmpty)
  let _ ← natOfDigits? whole
  let m ← natOfDigits? (whole ++ places)
  if ended then ofParts? (negative && m != 0) m places.length else none

end Decimal

end MarginAccount
