import MarginAccount.Decimal.Arithmetic
import MarginAccount.Decimal.Text

/-! # Reading decimals leniently

`read?` takes what `toText` writes and more: a sign, a point at either end, underscores after digits,
and an exponent after `e`. Digits past the 28th place or past `2 ^ 96` are rounded once, half up on
the first of them. An exponent that moves places past the 28th rounds them once more, half up again.
-/

namespace MarginAccount.Decimal

/-- Adds one to the last place where the next digit rounds up. Digits that reach `2 ^ 96` give up a
place, which is impossible without one. -/
def roundUp? (digits scale next : Nat) : Option (Nat × Nat) :=
  if next < 5 then some (digits, scale)
  else if digits + 1 < 2 ^ 96 then some (digits + 1, scale)
  else if scale = 0 then none
  else some ((digits + 5) / 10, scale - 1)

/-- Only digits and separators, which are what may follow the digit that rounds. -/
def isTail (text : List Char) : Bool := text.all fun c => c = '_' || (digit? c).isSome

/-- From here on a number counts as long: a byte more, and ten times it may not fit 64 bits. -/
def longFrom : Nat := (2 ^ 64 - 1) / 10 - (2 ^ 8 - 1)

/-- The digit by which the text after the last place rounds. Where the digits before that place are
a long number, separators are skipped first; otherwise a separator counts as a zero. -/
def roundingDigit? (before : Nat) (text : List Char) : Option Nat :=
  let text := if longFrom ≤ before then text.dropWhile (· = '_') else text
  match text with
  | [] => some 0
  | c :: rest =>
    if !isTail rest then none
    else if c = '_' then some 0
    else digit? c

/-- Reads on after `digits` at `scale`. `point` says that the point has been passed, `started` that
there has been a digit. -/
def scan (digits scale : Nat) (point started : Bool) : List Char → Option (Nat × Nat)
  | [] => if started then some (digits, scale) else none
  | c :: rest =>
    if c = '.' then
      if point then none else scan digits scale true started rest
    else if c = '_' then
      if started then scan digits scale point started rest else none
    else do
      let d ← digit? c
      if 2 ^ 96 ≤ 10 * digits + d then
        if point ∧ isTail rest then roundUp? digits scale d else none
      else
        let scale := if point then scale + 1 else scale
        if point ∧ 28 ≤ scale then do
          roundUp? (10 * digits + d) scale (← roundingDigit? digits rest)
        else scan (10 * digits + d) scale point true rest

/-- Reads digits with a sign and a point; a zero has no sign. -/
def readPlaces? (text : List Char) : Option Decimal := do
  let (negative, body) := match text with
    | '-' :: rest => (true, rest)
    | '+' :: rest => (false, rest)
    | rest => (false, rest)
  let (m, scale) ← scan 0 0 false false body
  ofParts? (negative && m != 0) m scale

/-- An unsigned exponent, with or without a plus sign, of 32 bits. -/
def exponent? (text : List Char) : Option Nat := do
  let n ← natOfDigits? (match text with | '+' :: rest => rest | rest => rest)
  if n < 2 ^ 32 then some n else none

/-- Multiplies by `10 ^ e` in steps of at most nineteen powers, so that each factor is exact. -/
def scaleUp? (d : Decimal) (e : Nat) : Option Decimal :=
  if e = 0 then some d
  else do
    let factor ← ofParts? false (10 ^ Nat.min e 19) 0
    (← d.mul? factor).scaleUp? (e - 19)
termination_by e

/-- Divides by `10 ^ e` for an `e` of at most 28. Places past the 28th are rounded half up, and the
sign stays on a number that becomes zero. -/
def scaleDown? (d : Decimal) (e : Nat) : Option Decimal :=
  if 28 < e then none
  else
    let scale := Nat.min (d.scale + e) 28
    ofParts? d.negative (halfUp d.mantissa (10 ^ (d.scale + e - scale))) scale

/-- Moves the point of `d` by an exponent. The scale absorbs it as far as it can. -/
def shift? (d : Decimal) : List Char → Option Decimal
  | '-' :: text => do d.scaleDown? (← exponent? text)
  | text => do
    let e ← exponent? text
    if e ≤ d.scale then ofParts? d.negative d.mantissa (d.scale - e)
    else if e ≤ 28 then return (← d.scaleUp? e).normalize
    else none

/-- Reads a decimal with an exponent. -/
def readScientific? (text : List Char) : Option Decimal := do
  let isMark := fun c : Char => c = 'e' || c = 'E'
  match text.dropWhile (!isMark ·) with
  | [] => none
  | _ :: e => (← readPlaces? (text.takeWhile (!isMark ·))).shift? e

def read? (text : List Char) : Option Decimal :=
  (readPlaces? text).or (readScientific? text)

end MarginAccount.Decimal
