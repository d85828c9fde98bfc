import MarginAccount.Decimal.Basic

/-! # Rounding to the decimal range

`halfEven` and `halfUp` round a quotient of natural numbers to the nearest one; a tie goes to the even
neighbour or up. `fit?` brings an exact magnitude of any size into the range of a decimal by dropping
as few digits as it can. `truncateTo` and `roundTo` shorten a decimal to a number of places.
-/

namespace MarginAccount

/-- The natural number nearest to `n / d`, the even one of two that are equally near. -/
def halfEven (n d : Nat) : Nat :=
  if 2 * (n % d) < d then n / d
  else if d < 2 * (n % d) then n / d + 1
  else n / d + n / d % 2

/-- The natural number nearest to `n / d`, the larger of two that are equally near. -/
def halfUp (n d : Nat) : Nat := (n + d / 2) / d

theorem halfEven_le (n d : Nat) : halfEven n d ≤ n := by
  rcases Nat.eq_zero_or_pos d with rfl | hd
  · simp [halfEven]
    split <;> omega
  · have hdiv := Nat.div_add_mod n d
    have hq : n / d ≤ d * (n / d) := Nat.le_mul_of_pos_left _ hd
    have hlt := Nat.mod_lt n hd
    unfold halfEven
    split
    · omega
    · split <;> omega

namespace Decimal

/-- The fewest digits to drop so that at most 28 places stay and what stays is below `2 ^ 96`. -/
def droppedDigits? (mantissa scale : Nat) : Option Nat :=
  (List.range (scale + 1)).find? fun k => scale ≤ k + 28 ∧ mantissa / 10 ^ k < 2 ^ 96

/-- The decimal nearest to `± mantissa / 10 ^ scale`, none if its whole part is out of range. A
mantissa that rounds up to `2 ^ 96` gives up one more digit. -/
def fit? (negative : Bool) (mantissa scale : Nat) : Option Decimal := do
  let k ← droppedDigits? mantissa scale
  let m := halfEven mantissa (10 ^ k)
  if m < 2 ^ 96 then ofParts? negative m (scale - k)
  else if scale = k then none
  else ofParts? negative (halfEven m 10) (scale - k - 1)

/-- `m` in place of the mantissa, at `places` places. A number that becomes zero loses its sign. -/
private def shorten (d : Decimal) (m places : Nat) (hm : m ≤ d.mantissa)
    (hp : ¬d.scale ≤ places) : Decimal where
  negative := d.negative && (m != 0 || d.isZero)
  mantissa := m
  scale := places
  mantissa_lt := Nat.lt_of_le_of_lt hm d.mantissa_lt
  scale_le := by have := d.scale_le; omega

/-- Cuts the digits past `places`; a shorter number is left as it is. -/
def truncateTo (d : Decimal) (places : Nat) : Decimal :=
  if h : d.scale ≤ places then d
  else d.shorten (d.mantissa / 10 ^ (d.scale - places)) places (Nat.div_le_self ..) h

/-- Rounds to `places`, ties to even; a shorter number is left as it is. -/
def roundTo (d : Decimal) (places : Nat) : Decimal :=
  if h : d.scale ≤ places then d
  else d.shorten (halfEven d.mantissa (10 ^ (d.scale - places))) places (halfEven_le ..) h

theorem truncateTo_scale_le (d : Decimal) (places : Nat) : (d.truncateTo places).scale ≤ places := by
  unfold truncateTo
  split
  · assumption
  · exact Nat.le_refl _

/-- Drops every zero at the end of the places. -/
def normalize (d : Decimal) : Decimal :=
  go d.negative d.mantissa d.scale d.mantissa_lt d.scale_le
where
  go (negative : Bool) (m : Nat) : (s : Nat) → m < 2 ^ 96 → s ≤ 28 → Decimal
    | 0, hm, _ => ⟨negative && m != 0, m, 0, hm, Nat.zero_le _⟩
    | s + 1, hm, hs =>
      if m % 10 = 0 then
        go negative (m / 10) s (Nat.lt_of_le_of_lt (Nat.div_le_self ..) hm) (by omega)
      else ⟨negative, m, s + 1, hm, hs⟩

end Decimal

end MarginAccount
