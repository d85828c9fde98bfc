import Mathlib
import MarginAccount.Decimal.Rounding

/-! # Rounding a magnitude at its place

The arithmetic of decimals rounds an exact magnitude `x` at one place only: the last of the 28 at
which `x` stays below `2 ^ 96`. This file says what a rounding is in terms of rationals
(`RoundsAt`), independently of how the digits are produced:

* `RoundsAt.mono`: of two magnitudes the larger one never rounds to less; for equal ones ties
  have to be broken alike (`RoundsAt.mono_of_even`).
* `RoundsAt.eq_of_fits`: a magnitude that fits a decimal is its own rounding.
* `RoundsAt.error_le`: how far a rounding is from the exact magnitude.
* `RoundsAt.lt_limit`: what rounds is below the magnitude where decimals end.
-/

namespace MarginAccount

/-! ## The nearest natural number -/

section Nearest

variable {n d m j : ℕ}

theorem abs_sub_div_le_half (hd : 0 < d) (h : 2 * (d * m) ≤ 2 * n + d)
    (h' : 2 * n ≤ 2 * (d * m) + d) : |(m : ℚ) - n / d| ≤ 1 / 2 := by
  have hd' : (0 : ℚ) < d := by exact_mod_cast hd
  have hle : 2 * (d * m : ℚ) ≤ 2 * n + d := by exact_mod_cast h
  have hge : 2 * (n : ℚ) ≤ 2 * (d * m) + d := by exact_mod_cast h'
  have hsub : (m : ℚ) - n / d = (d * m - n) / d := by field_simp
  rw [hsub, abs_div, abs_of_pos hd', div_le_iff₀ hd', abs_le]
  constructor <;> linarith

theorem halfEven_near (hd : 0 < d) : |(halfEven n d : ℚ) - n / d| ≤ 1 / 2 := by
  have hdiv := Nat.div_add_mod n d
  have hlt := Nat.mod_lt n hd
  have hsucc : d * (n / d + 1) = d * (n / d) + d := Nat.mul_succ ..
  unfold halfEven
  split_ifs with hdown hup
  · exact abs_sub_div_le_half hd (by omega) (by omega)
  · exact abs_sub_div_le_half hd (by omega) (by omega)
  · -- a tie: either neighbour is near enough
    rcases Nat.mod_two_eq_zero_or_one (n / d) with hp | hp <;> rw [hp]
    · exact abs_sub_div_le_half hd (by rw [Nat.add_zero]; omega) (by rw [Nat.add_zero]; omega)
    · exact abs_sub_div_le_half hd (by omega) (by omega)

theorem halfEven_le_succ (n d : ℕ) : halfEven n d ≤ n / d + 1 := by
  have hp := Nat.mod_lt (n / d) Nat.two_pos
  unfold halfEven
  split_ifs <;> omega

@[simp] theorem halfEven_one (n : ℕ) : halfEven n 1 = n := by
  simp [halfEven, Nat.mod_one]

theorem halfUp_near (hd : 0 < d) : |(halfUp n d : ℚ) - n / d| ≤ 1 / 2 := by
  have hdiv := Nat.div_add_mod (n + d / 2) d
  have hlt := Nat.mod_lt (n + d / 2) hd
  apply abs_sub_div_le_half hd <;> unfold halfUp <;> omega

theorem halfUp_le_succ (n : ℕ) (hd : 0 < d) : halfUp n d ≤ n / d + 1 := by
  rw [halfUp, ← Nat.add_div_right n hd]
  exact Nat.div_le_div_right (by omega)

/-- A quotient half way between `j` and `j + 1`. -/
theorem tie_iff (hd : 0 < d) : (n / d : ℚ) = j + 1 / 2 ↔ n / d = j ∧ 2 * (n % d) = d := by
  have hd' : (d : ℚ) ≠ 0 := by exact_mod_cast hd.ne'
  have hdiv := Nat.div_add_mod n d
  constructor
  · intro h
    have hn : 2 * n = 2 * (d * j) + d := by
      have hq : (2 * n : ℚ) = 2 * (d * j) + d := by
        rw [div_eq_iff hd'] at h
        linarith
      exact_mod_cast hq
    have hj : n / d = j := by
      apply Nat.div_eq_of_lt_le
      · rw [Nat.mul_comm]
        omega
      · rw [Nat.mul_comm, Nat.mul_succ]
        omega
    rw [hj] at hdiv
    exact ⟨hj, by omega⟩
  · rintro ⟨rfl, hmod⟩
    have hq : (n : ℚ) = d * (n / d : ℕ) + (n % d : ℕ) := by exact_mod_cast hdiv.symm
    have hmod' : (2 * (n % d : ℕ) : ℚ) = d := by exact_mod_cast hmod
    rw [div_eq_iff hd']
    linarith

/-- A quotient half way below `m`. -/
theorem tie_up_iff (hd : 0 < d) : (n / d : ℚ) + 1 / 2 = m ↔ n / d + 1 = m ∧ 2 * (n % d) = d := by
  constructor
  · intro h
    obtain ⟨j, rfl⟩ : ∃ j, m = j + 1 := by
      refine Nat.exists_eq_add_one.2 ?_
      have : (0 : ℚ) < m := by
        rw [← h]
        positivity
      exact_mod_cast this
    obtain ⟨hj, hmod⟩ := (tie_iff (n := n) (j := j) hd).1 (by push_cast at h; linarith)
    exact ⟨by rw [hj], hmod⟩
  · rintro ⟨rfl, hmod⟩
    rw [(tie_iff hd).2 ⟨rfl, hmod⟩]
    push_cast
    ring

theorem even_halfEven_of_tie (h : 2 * (n % d) = d) : Even (halfEven n d) := by
  rw [halfEven, if_neg (by omega), if_neg (by omega), Nat.even_iff]
  omega

theorem halfUp_of_tie (hd : 0 < d) (h : 2 * (n % d) = d) : halfUp n d = n / d + 1 := by
  have hdiv := Nat.div_add_mod n d
  apply Nat.div_eq_of_lt_le
  · rw [Nat.add_mul, Nat.one_mul, Nat.mul_comm]
    omega
  · rw [Nat.add_mul, Nat.add_mul, Nat.one_mul, Nat.mul_comm]
    omega

end Nearest

/-! ## The place of a magnitude -/

/-- `t` is the place that the magnitude `x` is rounded at: the last of the first 28 at which it
stays below `2 ^ 96`. -/
structure IsPlace (x : ℚ) (t : ℕ) : Prop where
  nonneg : 0 ≤ x
  le : t ≤ 28
  lt : x * 10 ^ t < 2 ^ 96
  last : t = 28 ∨ 2 ^ 96 ≤ x * 10 ^ (t + 1)

variable {x x' y y' : ℚ} {t t' m m' : ℕ}

theorem exists_isPlace (h₀ : 0 ≤ x) (h : x < 2 ^ 96) : ∃ t, IsPlace x t := by
  classical
  have hex : ∃ k, 28 ≤ k ∨ 2 ^ 96 ≤ x * 10 ^ (k + 1) := ⟨28, .inl le_rfl⟩
  have hmin : ∀ k < Nat.find hex, ¬(28 ≤ k ∨ 2 ^ 96 ≤ x * 10 ^ (k + 1)) :=
    fun k hk ↦ Nat.find_min hex hk
  have hle : Nat.find hex ≤ 28 := Nat.find_min' hex (.inl le_rfl)
  refine ⟨Nat.find hex, h₀, hle, ?_, ?_⟩
  · cases hk : Nat.find hex with
    | zero => simpa using h
    | succ k =>
      have := hmin k (by omega)
      push Not at this
      exact this.2
  · exact (Nat.find_spec hex).imp (fun h28 ↦ by omega) id

/-- A larger magnitude has fewer places. -/
theorem IsPlace.anti (h : IsPlace x t) (h' : IsPlace x' t') (hle : x ≤ x') : t' ≤ t := by
  by_contra hlt
  rw [not_le] at hlt
  have hlast : 2 ^ 96 ≤ x * 10 ^ (t + 1) := h.last.resolve_left (by have := h'.le; omega)
  have hpow : (10 : ℚ) ^ (t + 1) ≤ 10 ^ t' := pow_le_pow_right₀ (by norm_num) hlt
  have : x * 10 ^ (t + 1) ≤ x' * 10 ^ t' :=
    mul_le_mul hle hpow (by positivity) h'.nonneg
  exact absurd h'.lt (not_lt.2 (hlast.trans this))

theorem IsPlace.unique (h : IsPlace x t) (h' : IsPlace x t') : t = t' :=
  le_antisymm (h'.anti h le_rfl) (h.anti h' le_rfl)

section Fits

variable {m₀ s : ℕ}

/-- Units of place `s` in units of a later place. -/
theorem div_pow_mul_pow (m₀ : ℕ) (h : s ≤ t) : (m₀ / 10 ^ s : ℚ) * 10 ^ t = (m₀ * 10 ^ (t - s) : ℕ) := by
  have hpow : (10 : ℚ) ^ t = 10 ^ (t - s) * 10 ^ s := by rw [← pow_add, Nat.sub_add_cancel h]
  rw [hpow]
  push_cast
  field_simp

/-- A magnitude of `m₀` units of place `s` has at least `s` places. -/
theorem IsPlace.le_of_fits (h : IsPlace (m₀ / 10 ^ s) t) (hm : m₀ < 2 ^ 96) (hs : s ≤ 28) :
    s ≤ t := by
  by_contra hlt
  rw [not_le] at hlt
  have hlast := h.last.resolve_left (by omega)
  have hpow : (10 : ℚ) ^ (t + 1) ≤ 10 ^ s := pow_le_pow_right₀ (by norm_num) hlt
  have hle : (m₀ / 10 ^ s : ℚ) * 10 ^ (t + 1) ≤ m₀ := by
    calc (m₀ / 10 ^ s : ℚ) * 10 ^ (t + 1) ≤ m₀ / 10 ^ s * 10 ^ s := by gcongr
      _ = m₀ := by field_simp
  have hm' : (m₀ : ℚ) < 2 ^ 96 := by exact_mod_cast hm
  linarith

theorem IsPlace.fits_lt (h : IsPlace (m₀ / 10 ^ s) t) (hst : s ≤ t) :
    m₀ * 10 ^ (t - s) < 2 ^ 96 := by
  have hlt := h.lt
  rw [div_pow_mul_pow m₀ hst] at hlt
  exact_mod_cast hlt

end Fits

/-! ## Roundings -/

/-- The value of `m` units of place `t`. Units that reach `2 ^ 96` give up the place, which leaves
`2 ^ 96 + 4` of them. -/
def settled (m t : ℕ) : ℚ := if m < 2 ^ 96 then m / 10 ^ t else (2 ^ 96 + 4) / 10 ^ t

theorem settled_of_lt (h : m < 2 ^ 96) : settled m t = m / 10 ^ t := if_pos h

theorem settled_of_not_lt (h : ¬m < 2 ^ 96) : settled m t = (2 ^ 96 + 4) / 10 ^ t := if_neg h

/-- `y` is the magnitude `x` rounded to `m` units of its place `t`. A tie that goes down goes to an
even number of units. -/
structure RoundsAt (x : ℚ) (t m : ℕ) (y : ℚ) : Prop where
  place : IsPlace x t
  near : |(m : ℚ) - x * 10 ^ t| ≤ 1 / 2
  even_of_down : x * 10 ^ t = m + 1 / 2 → Even m
  fits : m < 2 ^ 96 ∨ 0 < t
  value : y = settled m t

/-- The same for a tie that goes up. -/
def EvenUp (x : ℚ) (t m : ℕ) : Prop := x * 10 ^ t + 1 / 2 = m → Even m

namespace RoundsAt

theorem le_add_half (h : RoundsAt x t m y) : (m : ℚ) ≤ x * 10 ^ t + 1 / 2 := by
  have := (abs_le.1 h.near).2
  linarith

theorem sub_half_le (h : RoundsAt x t m y) : x * 10 ^ t - 1 / 2 ≤ (m : ℚ) := by
  have := (abs_le.1 h.near).1
  linarith

theorem le_limit (h : RoundsAt x t m y) : m ≤ 2 ^ 96 := by
  have hlt : (m : ℚ) < 2 ^ 96 + 1 := by linarith [h.le_add_half, h.place.lt]
  have : m < 2 ^ 96 + 1 := by exact_mod_cast hlt
  omega

/-! ### Rounding a quotient -/

section Quotient

variable {n d : ℕ}

theorem of_halfEven (hp : IsPlace x t) (hd : 0 < d) (hx : x * 10 ^ t = n / d)
    (hfits : halfEven n d < 2 ^ 96 ∨ 0 < t) :
    RoundsAt x t (halfEven n d) (settled (halfEven n d) t) ∧ EvenUp x t (halfEven n d) := by
  refine ⟨⟨hp, ?_, ?_, hfits, rfl⟩, ?_⟩
  · rw [hx]
    exact halfEven_near hd
  · intro htie
    rw [hx, tie_iff hd] at htie
    exact even_halfEven_of_tie htie.2
  · intro htie
    rw [hx, tie_up_iff hd] at htie
    exact even_halfEven_of_tie htie.2

theorem of_halfUp (hp : IsPlace x t) (hd : 0 < d) (hx : x * 10 ^ t = n / d)
    (hfits : halfUp n d < 2 ^ 96 ∨ 0 < t) :
    RoundsAt x t (halfUp n d) (settled (halfUp n d) t) := by
  refine ⟨hp, ?_, ?_, hfits, rfl⟩
  · rw [hx]
    exact halfUp_near hd
  · intro htie
    rw [hx, tie_iff hd] at htie
    have := halfUp_of_tie hd htie.2
    omega

end Quotient

/-! ### Magnitudes that fit -/

section Fits

variable {m₀ s : ℕ}

/-- The rounding of a magnitude that fits a decimal is itself. -/
theorem eq_of_fits (h : RoundsAt (m₀ / 10 ^ s) t m y) (hm : m₀ < 2 ^ 96) (hs : s ≤ 28) :
    y = m₀ / 10 ^ s := by
  have hst := h.place.le_of_fits hm hs
  have hx := div_pow_mul_pow m₀ hst
  have hle := h.le_add_half
  have hge := h.sub_half_le
  rw [hx] at hle hge
  have hmeq : m = m₀ * 10 ^ (t - s) := by
    have h₁ : m < m₀ * 10 ^ (t - s) + 1 := by
      have : (m : ℚ) < (m₀ * 10 ^ (t - s) : ℕ) + 1 := by linarith
      exact_mod_cast this
    have h₂ : m₀ * 10 ^ (t - s) < m + 1 := by
      have : ((m₀ * 10 ^ (t - s) : ℕ) : ℚ) < m + 1 := by linarith
      exact_mod_cast this
    omega
  rw [h.value, settled_of_lt (hmeq ▸ h.place.fits_lt hst), hmeq, ← hx]
  field_simp

/-- A magnitude that fits a decimal has a rounding, which is itself. -/
theorem of_fits (hm : m₀ < 2 ^ 96) (hs : s ≤ 28) :
    ∃ t m, RoundsAt (m₀ / 10 ^ s) t m (m₀ / 10 ^ s) ∧ EvenUp (m₀ / 10 ^ s) t m := by
  have hlim : (m₀ / 10 ^ s : ℚ) < 2 ^ 96 := by
    have hm' : (m₀ : ℚ) < 2 ^ 96 := by exact_mod_cast hm
    exact (div_le_self (by positivity) (one_le_pow₀ (by norm_num))).trans_lt hm'
  obtain ⟨t, ht⟩ := exists_isPlace (by positivity) hlim
  have hst := ht.le_of_fits hm hs
  have hx := div_pow_mul_pow m₀ hst
  refine ⟨t, m₀ * 10 ^ (t - s), ⟨ht, ?_, ?_, .inl (ht.fits_lt hst), ?_⟩, ?_⟩
  · rw [hx, sub_self, abs_zero]
    norm_num
  · intro htie
    rw [hx] at htie
    linarith
  · rw [settled_of_lt (ht.fits_lt hst), ← hx]
    field_simp
  · intro htie
    rw [hx] at htie
    linarith

end Fits

/-! ### Monotonicity -/

theorem le_full (h : RoundsAt x t m y) : y ≤ (2 ^ 96 + 4) / 10 ^ t := by
  rw [h.value, settled]
  split
  · rename_i hm
    have hm' : (m : ℚ) < 2 ^ 96 := by exact_mod_cast hm
    gcongr
    linarith
  · exact le_rfl

/-- What is rounded at an earlier place is worth at least a full set of units of a later one. -/
theorem full_le (h : RoundsAt x t m y) (hlt : t < t') (ht' : t' ≤ 28) :
    (2 ^ 96 + 4) / 10 ^ t' ≤ y := by
  have hlast := h.place.last.resolve_left (by omega)
  have hm : 2 ^ 96 + 4 ≤ m * 10 := by
    have hge : (2 ^ 96 : ℚ) - 5 ≤ m * 10 := by
      rw [pow_succ (10 : ℚ)] at hlast
      linarith [h.sub_half_le]
    have hge' : 2 ^ 96 ≤ m * 10 + 5 := by
      have : (2 ^ 96 : ℚ) ≤ m * 10 + 5 := by linarith
      exact_mod_cast this
    omega
  have hpow : (10 : ℚ) ^ (t + 1) ≤ 10 ^ t' := pow_le_pow_right₀ (by norm_num) hlt
  have hm' : (2 ^ 96 + 4 : ℚ) ≤ m * 10 := by exact_mod_cast hm
  calc (2 ^ 96 + 4 : ℚ) / 10 ^ t' ≤ (2 ^ 96 + 4) / 10 ^ (t + 1) := by gcongr
    _ = (2 ^ 96 + 4) / 10 / 10 ^ t := by rw [pow_succ (10 : ℚ)]; ring
    _ ≤ y := by
      rw [h.value, settled]
      split
      · gcongr
        linarith
      · gcongr
        norm_num

theorem settled_mono (h : m ≤ m') (h' : m' ≤ 2 ^ 96) : settled m t ≤ settled m' t := by
  unfold settled
  have hm : (m : ℚ) ≤ m' := by exact_mod_cast h
  have hm' : (m' : ℚ) ≤ 2 ^ 96 := by exact_mod_cast h'
  split
  · split
    · gcongr
    · gcongr
      linarith
  · rw [if_neg (by omega)]

/-- The larger of two magnitudes never rounds to less. -/
theorem mono (h : RoundsAt x t m y) (h' : RoundsAt x' t' m' y') (hlt : x < x') : y ≤ y' := by
  rcases (h.place.anti h'.place hlt.le).eq_or_lt with rfl | htt
  · have hm : m < m' + 1 := by
      have hxt : x * 10 ^ t' < x' * 10 ^ t' := by gcongr
      have : (m : ℚ) < m' + 1 := by linarith [h.le_add_half, h'.sub_half_le]
      exact_mod_cast this
    rw [h.value, h'.value]
    exact settled_mono (by omega) h'.le_limit
  · exact h.le_full.trans (h'.full_le htt h.place.le)

/-- Where the first of two roundings breaks ties to even, equal magnitudes keep the order too. -/
theorem mono_of_even (h : RoundsAt x t m y) (he : EvenUp x t m) (h' : RoundsAt x' t' m' y')
    (hle : x ≤ x') : y ≤ y' := by
  rcases hle.eq_or_lt with rfl | hlt
  · obtain rfl := h.place.unique h'.place
    rw [h.value, h'.value]
    refine settled_mono ?_ h'.le_limit
    by_contra hm
    have hstep : (m' : ℚ) + 1 ≤ m := by exact_mod_cast not_le.1 hm
    have hup := h.le_add_half
    have hdown := h'.sub_half_le
    have hm' : m' + 1 = m := by
      have hle : (m : ℚ) ≤ m' + 1 := by linarith
      have hle' : m ≤ m' + 1 := by exact_mod_cast hle
      omega
    have heven : Even m := he (by linarith)
    have heven' : Even m' := h'.even_of_down (by linarith)
    rw [← hm', Nat.even_add_one] at heven
    exact heven heven'
  · exact h.mono h' hlt

/-- Where two roundings of one magnitude break its tie apart, the upper one is odd and the other one
is a unit below it. Neither gives up a place. -/
theorem units_of_ties (h : RoundsAt x t m y) (hup : ¬EvenUp x t m) (h' : RoundsAt x t' m' y')
    (heven : EvenUp x t' m') :
    Even m' ∧ m = m' + 1 ∧ m < 2 ^ 96 ∧ x ≤ y ∧ y = m / 10 ^ t ∧ y' = m' / 10 ^ t := by
  obtain rfl := h.place.unique h'.place
  unfold EvenUp at hup
  push Not at hup
  obtain ⟨htie, hodd⟩ := hup
  have hle : m' ≤ m := by
    have hlow := h'.le_add_half
    rw [htie] at hlow
    exact_mod_cast hlow
  have hge : m ≤ m' + 1 := by
    have : (m : ℚ) ≤ m' + 1 := by linarith [h'.sub_half_le]
    exact_mod_cast this
  have hne : m' ≠ m := by
    rintro rfl
    exact hodd (heven htie)
  have hm : m = m' + 1 := by omega
  have hlt : m < 2 ^ 96 := lt_of_le_of_ne h.le_limit fun heq ↦ hodd (heq ▸ by decide)
  have hy : y = m / 10 ^ t := by rw [h.value, settled_of_lt hlt]
  refine ⟨?_, hm, hlt, ?_, hy, ?_⟩
  · rwa [hm, Nat.even_add_one, not_not] at hodd
  · rw [hy, le_div_iff₀ (by positivity)]
    linarith
  · rw [h'.value, settled_of_lt (by omega)]

/-- Two roundings of one magnitude are out of order only if the first has broken its tie upward
against the even rule and the second has kept to it. -/
theorem le_iff (h : RoundsAt x t m y) (h' : RoundsAt x t' m' y') :
    y ≤ y' ↔ (EvenUp x t' m' → EvenUp x t m) := by
  constructor
  · intro hle he'
    by_contra he
    obtain ⟨-, hm, -, -, hy, hy'⟩ := h.units_of_ties he h' he'
    rw [hy, hy', hm, div_le_div_iff_of_pos_right (by positivity)] at hle
    push_cast at hle
    linarith
  · intro himp
    obtain rfl := h.place.unique h'.place
    by_cases he' : EvenUp x t m'
    · exact h.mono_of_even (himp he') h' le_rfl
    · unfold EvenUp at he'
      push Not at he'
      have hup := h.le_add_half
      rw [he'.1] at hup
      rw [h.value, h'.value]
      exact settled_mono (by exact_mod_cast hup) h'.le_limit

/-! ### Error and range -/

/-- A rounding is off by half a unit of the last place there is, or by less than seven parts in
`10 ^ 29`. -/
theorem error_le (h : RoundsAt x t m y) : |y - x| ≤ 1 / 10 ^ 28 * max (1 / 2) (2 / 3 * x) := by
  have hx := h.place.nonneg
  have hpos : (0 : ℚ) < 10 ^ t := by positivity
  by_cases hm : m < 2 ^ 96
  · have herr : |y - x| ≤ 1 / 2 / 10 ^ t := by
      have hsub : y - x = (m - x * 10 ^ t) / 10 ^ t := by
        rw [h.value, settled_of_lt hm]
        field_simp
      rw [hsub, abs_div, abs_of_pos hpos]
      gcongr
      exact h.near
    rcases h.place.last with rfl | hlast
    · refine herr.trans ?_
      have : (1 / 2 : ℚ) ≤ max (1 / 2) (2 / 3 * x) := le_max_left ..
      calc (1 / 2 / 10 ^ 28 : ℚ) = 1 / 10 ^ 28 * (1 / 2) := by ring
        _ ≤ _ := by gcongr
    · refine herr.trans ?_
      have : (2 / 3 * x : ℚ) ≤ max (1 / 2) (2 / 3 * x) := le_max_right ..
      calc (1 / 2 / 10 ^ t : ℚ) ≤ 1 / 10 ^ 28 * (2 / 3 * x) := by
            rw [div_le_iff₀ hpos]
            rw [pow_succ (10 : ℚ)] at hlast
            linarith
        _ ≤ _ := by gcongr
  · have hfull : (2 ^ 96 : ℚ) ≤ m := by exact_mod_cast not_lt.1 hm
    have hlow := h.le_add_half
    have hhigh := h.place.lt
    have hsub : y - x = (2 ^ 96 + 4 - x * 10 ^ t) / 10 ^ t := by
      rw [h.value, settled_of_not_lt hm]
      field_simp
    rw [hsub, abs_div, abs_of_pos hpos, abs_of_nonneg (by linarith)]
    have : (2 / 3 * x : ℚ) ≤ max (1 / 2) (2 / 3 * x) := le_max_right ..
    calc (2 ^ 96 + 4 - x * 10 ^ t) / 10 ^ t ≤ 1 / 10 ^ 28 * (2 / 3 * x) := by
          rw [div_le_iff₀ hpos]
          linarith
      _ ≤ _ := by gcongr

/-- What rounds to a decimal is closer to the largest one than to `2 ^ 96`. -/
theorem lt_limit (h : RoundsAt x t m y) : x < 2 ^ 96 - 1 / 2 := by
  rcases Nat.eq_zero_or_pos t with rfl | ht
  · have hm : m ≤ 2 ^ 96 - 1 := Nat.le_sub_one_of_lt (h.fits.resolve_right (lt_irrefl 0))
    have hm' : (m : ℚ) ≤ 2 ^ 96 - 1 := by
      have : (m : ℚ) + 1 ≤ 2 ^ 96 := by exact_mod_cast (by omega : m + 1 ≤ 2 ^ 96)
      linarith
    have hle := h.sub_half_le
    rw [pow_zero, mul_one] at hle
    refine lt_of_le_of_ne (by linarith) fun heq ↦ ?_
    -- the tie below `2 ^ 96` would have gone down to an odd number
    have hmeq : m = 2 ^ 96 - 1 := by
      have : (2 ^ 96 : ℚ) ≤ m + 1 := by linarith
      have : 2 ^ 96 ≤ m + 1 := by exact_mod_cast this
      omega
    have heven := h.even_of_down (by
      rw [pow_zero, mul_one, heq, hmeq]
      norm_num)
    rw [hmeq] at heven
    exact absurd heven (by decide)
  · have hpow : (10 : ℚ) ^ 1 ≤ 10 ^ t := pow_le_pow_right₀ (by norm_num) ht
    have hle : x * 10 ^ 1 ≤ x * 10 ^ t := mul_le_mul_of_nonneg_left hpow h.place.nonneg
    linarith [h.place.lt]

end RoundsAt

end MarginAccount
