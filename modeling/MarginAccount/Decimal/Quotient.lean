import MarginAccount.Decimal.Rounding

/-! # Division

A quotient is expanded place by place, in runs of at most nine places, until it is exact or no
further place fits; then it is rounded half to even. Only a run whose last digit no longer fits is
rounded half up, if the divisor is a long one. `quotientAt n d k` holds the digits of `n / d` up to
the `k`-th place, so the state of the expansion is the number of places alone. An expansion
that went past the places of its operands ends in a run whose zeros are taken off again in blocks of
eight, four, two and one, which leaves `1 / 2 = 0.50` and `1 / 10 = 0.10`.
-/

namespace MarginAccount.Decimal

/-- The digits of `n / d` up to place `k`. -/
def quotientAt (n d k : Nat) : Nat := n * 10 ^ k / d

/-- What is left of `n / d` after place `k`, in units of that place over `d`. -/
def remainderAt (n d k : Nat) : Nat := n * 10 ^ k % d

/-- The longest run of at most nine places after the digits `q` at scale `s` that keeps the scale
at 28 or below and the digits below `2 ^ 96` if only zeros follow. -/
def placesLeft (q : Nat) (s : Int) : Nat :=
  ((List.range 10).reverse.find? fun p : Nat => s + p ≤ 28 ∧ q * 10 ^ p < 2 ^ 96).getD 0

/-- How an expansion ends. -/
inductive Ending where
  /-- Exact at this place. -/
  | exact (place : Nat)
  /-- To be rounded at this place. -/
  | inexact (place : Nat)
  /-- To be rounded at this place, because the digit after it is known but does not fit. -/
  | crowded (place : Nat)
  /-- The whole part does not fit. -/
  | overflow
deriving DecidableEq, Repr

theorem scale_add_placesLeft_le (q : Nat) (s : Int) (h : 0 < placesLeft q s) :
    s + placesLeft q s ≤ 28 := by
  unfold placesLeft at h ⊢
  cases hf : (List.range 10).reverse.find? fun p : Nat => s + p ≤ 28 ∧ q * 10 ^ p < 2 ^ 96 with
  | none => rw [hf] at h; exact absurd h (Nat.lt_irrefl 0)
  | some p =>
    have := List.find?_some hf
    simp only [decide_eq_true_eq] at this
    simpa using this.1

/-- The place at which the expansion of `n / d` ends, where place `k` has scale `s + k`. -/
def expand (n d : Nat) (s : Int) (k : Nat) : Ending :=
  if remainderAt n d k = 0 then
    if 0 ≤ s + k then .exact k
    else
      let p := min 9 (-(s + k)).toNat
      if quotientAt n d (k + p) < 2 ^ 96 then expand n d s (k + p) else .overflow
  else
    let p := placesLeft (quotientAt n d k) (s + k)
    if p < 9 ∧ s + k + p < 0 then .overflow
    else if p = 0 then .inexact k
    else if quotientAt n d (k + p) < 2 ^ 96 then expand n d s (k + p)
    else if s + k + p < 1 then .overflow
    else .crowded (k + p - 1)
termination_by (28 - (s + k)).toNat
decreasing_by
  · omega
  · have := scale_add_placesLeft_le (quotientAt n d k) (s + k) (by omega)
    omega

/-- Takes zeros off the end: eights while the digits are a multiple of `2 ^ 32`, then four, two and
one, each at most once. -/
def dropZeros (m : Nat) (s : Nat) : Nat × Nat :=
  if m % 2 ^ 32 = 0 ∧ m % 10 ^ 8 = 0 ∧ 8 ≤ s then dropZeros (m / 10 ^ 8) (s - 8)
  else drop 1 (drop 2 (drop 4 (m, s)))
termination_by s
where
  drop (zeros : Nat) (x : Nat × Nat) : Nat × Nat :=
    if x.1 % 10 ^ zeros = 0 ∧ zeros ≤ x.2 then (x.1 / 10 ^ zeros, x.2 - zeros) else x

/-- Rounds at a place; digits that round up to `2 ^ 96` give up the last one. -/
def settle (m scale : Nat) : Option (Nat × Nat) :=
  if m < 2 ^ 96 then some (m, scale)
  else if scale = 0 then none
  else some (2 ^ 96 / 10 + 1, scale - 1)

/-- A mantissa of more than 64 bits. -/
def isLong (d : Decimal) : Bool := 2 ^ 64 ≤ d.mantissa

/-- The quotient, none for a zero divisor or an overflow. -/
def div? (a b : Decimal) : Option Decimal :=
  if b.isZero then none
  else if a.isZero then some zero
  else do
    let s : Int := a.scale - b.scale
    let n := a.mantissa
    let d := b.mantissa
    let (m, scale) ← match expand n d s 0 with
      | .overflow => none
      | .exact k =>
        let m := quotientAt n d k
        if remainderAt n d 0 = 0 then some (m, (s + k).toNat) else some (dropZeros m (s + k).toNat)
      | .inexact k =>
        (settle (halfEven (n * 10 ^ k) d) (s + k).toNat).map fun (m, scale) => dropZeros m scale
      | .crowded k =>
        let round := if b.isLong then halfUp else halfEven
        some (dropZeros (round (n * 10 ^ k) d) (s + k).toNat)
    ofParts? (a.negative != b.negative && m != 0) m scale

end MarginAccount.Decimal
