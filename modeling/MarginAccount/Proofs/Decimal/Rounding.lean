import MarginAccount.Proofs.Decimal.Place
import MarginAccount.Proofs.Decimal.Value

/-! # Roundings of an exact result

`Rounds x d` says that the decimal `d` is a rounding of the rational `x`; `RoundsEven` adds that a
tie went to even, which leaves one value for each `x`. Both are monotone, fix what fits a decimal,
and so keep the order to every decimal: an exact result at or above a decimal never rounds below
it. `Decimal.fit?` rounds to even and fails only past the last decimal.
-/

namespace MarginAccount

/-- The decimal `d` is the rational `x`, rounded. -/
structure Rounds (x : ℚ) (d : Decimal) : Prop where
  magnitude : ∃ t m, RoundsAt |x| t m |d.toRat|
  nonneg : 0 ≤ x → 0 ≤ d.toRat
  nonpos : x ≤ 0 → d.toRat ≤ 0

/-- The decimal `d` is the rational `x`, rounded with ties to even. -/
structure RoundsEven (x : ℚ) (d : Decimal) : Prop where
  magnitude : ∃ t m, RoundsAt |x| t m |d.toRat| ∧ EvenUp |x| t m
  nonneg : 0 ≤ x → 0 ≤ d.toRat
  nonpos : x ≤ 0 → d.toRat ≤ 0

/-- The rational `x` is past the last decimal. -/
def TooLarge (x : ℚ) : Prop := 2 ^ 96 - 1 / 2 ≤ |x|

variable {x x' : ℚ} {d d' a : Decimal}

theorem RoundsEven.rounds (h : RoundsEven x d) : Rounds x d where
  magnitude := let ⟨t, m, hm, _⟩ := h.magnitude; ⟨t, m, hm⟩
  nonneg := h.nonneg
  nonpos := h.nonpos

theorem Rounds.eq_zero (h : Rounds 0 d) : d.toRat = 0 :=
  le_antisymm (h.nonpos le_rfl) (h.nonneg le_rfl)

/-- A decimal is its own rounding. -/
theorem RoundsEven.self (d : Decimal) : RoundsEven d.toRat d where
  magnitude := by
    rw [Decimal.abs_toRat]
    exact RoundsAt.of_fits d.mantissa_lt d.scale_le
  nonneg := id
  nonpos := id

/-! ## Monotonicity -/

/-- Roundings keep the order of magnitudes, read with the sign of both. -/
private theorem le_of_magnitudes (hn : 0 ≤ x → 0 ≤ d.toRat) (hp : x ≤ 0 → d.toRat ≤ 0)
    (hn' : 0 ≤ x' → 0 ≤ d'.toRat) (hp' : x' ≤ 0 → d'.toRat ≤ 0) (hle : x ≤ x')
    (hpos : 0 ≤ x → |d.toRat| ≤ |d'.toRat|) (hneg : x' ≤ 0 → |d'.toRat| ≤ |d.toRat|) :
    d.toRat ≤ d'.toRat := by
  rcases le_total 0 x with hx | hx
  · have := hpos hx
    rwa [abs_of_nonneg (hn hx), abs_of_nonneg (hn' (hx.trans hle))] at this
  · rcases le_total 0 x' with hx' | hx'
    · exact (hp hx).trans (hn' hx')
    · have := hneg hx'
      rw [abs_of_nonpos (hp hx), abs_of_nonpos (hp' hx')] at this
      linarith

theorem Rounds.mono (h : Rounds x d) (h' : Rounds x' d') (hlt : x < x') : d.toRat ≤ d'.toRat := by
  obtain ⟨t, m, hm⟩ := h.magnitude
  obtain ⟨t', m', hm'⟩ := h'.magnitude
  refine le_of_magnitudes h.nonneg h.nonpos h'.nonneg h'.nonpos hlt.le (fun hx ↦ ?_) fun hx ↦ ?_
  · refine hm.mono hm' ?_
    rwa [abs_of_nonneg hx, abs_of_nonneg (hx.trans hlt.le)]
  · refine hm'.mono hm ?_
    rw [abs_of_nonpos hx, abs_of_nonpos (hlt.le.trans hx)]
    linarith

theorem RoundsEven.mono (h : RoundsEven x d) (h' : RoundsEven x' d') (hle : x ≤ x') :
    d.toRat ≤ d'.toRat := by
  obtain ⟨t, m, hm, he⟩ := h.magnitude
  obtain ⟨t', m', hm', he'⟩ := h'.magnitude
  refine le_of_magnitudes h.nonneg h.nonpos h'.nonneg h'.nonpos hle (fun hx ↦ ?_) fun hx ↦ ?_
  · refine hm.mono_of_even he hm' ?_
    rwa [abs_of_nonneg hx, abs_of_nonneg (hx.trans hle)]
  · refine hm'.mono_of_even he' hm ?_
    rw [abs_of_nonpos hx, abs_of_nonpos (hle.trans hx)]
    linarith

/-! ## Results that fit a decimal -/

theorem Rounds.eq_of_fits (h : Rounds a.toRat d) : d.toRat = a.toRat := by
  obtain ⟨t, m, hm⟩ := h.magnitude
  rw [Decimal.abs_toRat a] at hm
  have habs : |d.toRat| = |a.toRat| := by
    rw [hm.eq_of_fits a.mantissa_lt a.scale_le, Decimal.abs_toRat]
  rcases le_total 0 a.toRat with ha | ha
  · rwa [abs_of_nonneg ha, abs_of_nonneg (h.nonneg ha)] at habs
  · rw [abs_of_nonpos ha, abs_of_nonpos (h.nonpos ha)] at habs
    linarith

theorem Rounds.le_of_le (h : Rounds x d) (hle : x ≤ a.toRat) : d.toRat ≤ a.toRat := by
  rcases hle.eq_or_lt with rfl | hlt
  · exact h.eq_of_fits.le
  · exact h.mono (RoundsEven.self a).rounds hlt

theorem Rounds.ge_of_ge (h : Rounds x d) (hle : a.toRat ≤ x) : a.toRat ≤ d.toRat := by
  rcases hle.eq_or_lt with rfl | hlt
  · exact h.eq_of_fits.ge
  · exact (RoundsEven.self a).rounds.mono h hlt

/-! ## Error and range -/

theorem Rounds.error_le (h : Rounds x d) :
    |d.toRat - x| ≤ 1 / 10 ^ 28 * max (1 / 2) (2 / 3 * |x|) := by
  obtain ⟨t, m, hm⟩ := h.magnitude
  have herr := hm.error_le
  rcases le_total 0 x with hx | hx
  · rwa [abs_of_nonneg hx, abs_of_nonneg (h.nonneg hx)] at *
  · rw [abs_of_nonpos hx, abs_of_nonpos (h.nonpos hx), ← abs_neg] at herr
    rw [abs_of_nonpos hx]
    convert herr using 2
    ring

theorem Rounds.not_tooLarge (h : Rounds x d) : ¬TooLarge x := by
  obtain ⟨t, m, hm⟩ := h.magnitude
  exact not_le.2 hm.lt_limit

/-- What is past the last decimal is larger than every decimal. -/
theorem TooLarge.abs_lt (h : TooLarge x) (d : Decimal) : |d.toRat| < |x| := by
  have hd := d.abs_toRat_le
  unfold TooLarge at h
  linarith

theorem TooLarge.mono (h : TooLarge x) (hle : |x| ≤ |x'|) : TooLarge x' := le_trans h hle

/-- A whole number is past the last decimal from `2 ^ 96` on. -/
theorem tooLarge_natCast {n : ℕ} : TooLarge n ↔ 2 ^ 96 ≤ n := by
  rw [TooLarge, abs_of_nonneg (Nat.cast_nonneg n)]
  constructor
  · intro h
    have hlt : ((2 ^ 96 - 1 : ℕ) : ℚ) < n := by
      push_cast
      linarith
    have := Nat.cast_lt.1 hlt
    omega
  · intro h
    have h' : (2 ^ 96 : ℚ) ≤ n := by exact_mod_cast h
    linarith

/-! ## Results that need no rounding

A whole number of units of a place is a decimal unless it is too long, and sums of such numbers are
such numbers. An operation that rounds its exact result, and fails only past the last decimal,
returns a result that is a decimal as it is. -/

/-- The rational `x` is a decimal. -/
def Fits (x : ℚ) : Prop := ∃ d : Decimal, d.toRat = x

/-- The rational `x` is a whole number of units of the place `s`. -/
def IsWholeAt (s : ℕ) (x : ℚ) : Prop := ∃ n : ℤ, x = n / 10 ^ s

namespace IsWholeAt

variable {s : ℕ}

theorem iff_den : IsWholeAt s x ↔ (x * 10 ^ s).den = 1 := by
  constructor
  · rintro ⟨n, rfl⟩
    rw [div_mul_cancel₀ _ (by positivity)]
    exact Rat.den_intCast n
  · intro h
    refine ⟨(x * 10 ^ s).num, ?_⟩
    rw [Rat.den_eq_one_iff _ |>.1 h]
    exact (mul_div_cancel_right₀ x (by positivity)).symm

instance (s : ℕ) (x : ℚ) : Decidable (IsWholeAt s x) := decidable_of_iff _ iff_den.symm

theorem zero (s : ℕ) : IsWholeAt s 0 := ⟨0, by rw [Int.cast_zero, zero_div]⟩

theorem add (h : IsWholeAt s x) (h' : IsWholeAt s x') : IsWholeAt s (x + x') := by
  obtain ⟨n, rfl⟩ := h
  obtain ⟨n', rfl⟩ := h'
  exact ⟨n + n', by rw [Int.cast_add, add_div]⟩

theorem sub (h : IsWholeAt s x) (h' : IsWholeAt s x') : IsWholeAt s (x - x') := by
  obtain ⟨n, rfl⟩ := h
  obtain ⟨n', rfl⟩ := h'
  exact ⟨n - n', by rw [Int.cast_sub, sub_div]⟩

end IsWholeAt

theorem Decimal.isWholeAt_toRat (d : Decimal) : IsWholeAt 28 d.toRat := ⟨d.units, d.toRat_eq_units⟩

theorem Fits.of_isWholeAt {s : ℕ} (h : IsWholeAt s x) (hs : s ≤ 28) (hlt : |x| * 10 ^ s < 2 ^ 96) :
    Fits x := by
  obtain ⟨n, rfl⟩ := h
  have hn : n.natAbs < 2 ^ 96 := by
    rw [abs_div, abs_of_pos (by positivity : (0 : ℚ) < 10 ^ s), div_mul_cancel₀ _ (by positivity),
      ← Int.cast_abs, Int.abs_eq_natAbs, Int.cast_natCast] at hlt
    exact_mod_cast hlt
  exact ⟨⟨decide (n < 0), n.natAbs, s, hn, hs⟩, by
    rw [Decimal.toRat_of_parts, Decimal.signed_natAbs]⟩

/-- A difference of numbers that are not negative is no longer than one of them. -/
theorem Fits.sub_of_isWholeAt {s : ℕ} (h : IsWholeAt s x) (h' : IsWholeAt s x') (hs : s ≤ 28)
    (hx : 0 ≤ x) (hx' : 0 ≤ x') (hlt : x * 10 ^ s < 2 ^ 96) (hlt' : x' * 10 ^ s < 2 ^ 96) :
    Fits (x - x') := by
  have hpos : (0 : ℚ) < 10 ^ s := by positivity
  refine .of_isWholeAt (h.sub h') hs ?_
  rw [← abs_of_pos hpos, ← abs_mul, sub_mul]
  exact abs_sub_lt_of_nonneg_of_lt (mul_nonneg hx hpos.le) hlt (mul_nonneg hx' hpos.le) hlt'

theorem TooLarge.not_fits (h : TooLarge x) : ¬Fits x := by
  rintro ⟨d, rfl⟩
  exact (h.abs_lt d).false

/-- What fits is its own rounding. -/
theorem Fits.toRat_eq (h : Fits x) (hround : Rounds x d) : d.toRat = x := by
  obtain ⟨a, rfl⟩ := h
  exact hround.eq_of_fits

/-- What fits is returned as it is. -/
theorem Fits.exists_eq {r? : Option Decimal} (h : Fits x) (hnone : r? = none → TooLarge x)
    (hsome : ∀ d, r? = some d → Rounds x d) : ∃ d, r? = some d ∧ d.toRat = x := by
  cases r? with
  | none => exact absurd h (hnone rfl).not_fits
  | some d => exact ⟨d, rfl, h.toRat_eq (hsome d rfl)⟩

/-! ## Fitting a long mantissa -/

namespace Decimal

variable {negative : Bool} {m s k : ℕ}

theorem droppedDigits?_eq_some (h : droppedDigits? m s = some k) :
    k ≤ s ∧ s ≤ k + 28 ∧ m / 10 ^ k < 2 ^ 96 ∧
      ∀ j < k, s ≤ j + 28 → 2 ^ 96 ≤ m / 10 ^ j := by
  rw [droppedDigits?, List.find?_range_eq_some] at h
  obtain ⟨hp, hk, hmin⟩ := h
  rw [decide_eq_true_iff] at hp
  refine ⟨by rw [List.mem_range] at hk; omega, hp.1, hp.2, fun j hj hs ↦ ?_⟩
  have := hmin j hj
  rw [Bool.not_eq_true', decide_eq_false_iff_not] at this
  by_contra hlt
  exact this ⟨hs, not_le.1 hlt⟩

theorem droppedDigits?_eq_none (h : droppedDigits? m s = none) : 2 ^ 96 ≤ m / 10 ^ s := by
  rw [droppedDigits?, List.find?_eq_none] at h
  have := h s (List.mem_range.2 (Nat.lt_succ_self s))
  rw [decide_eq_true_iff] at this
  by_contra hlt
  exact this ⟨by omega, not_le.1 hlt⟩

/-- The place that is left when the fewest digits are dropped. -/
theorem isPlace_of_droppedDigits? (h : droppedDigits? m s = some (k + 1)) :
    IsPlace (m / 10 ^ s) (s - (k + 1)) := by
  obtain ⟨hks, hs, hlt, hmin⟩ := droppedDigits?_eq_some h
  have hpow : ∀ j ≤ s, (m / 10 ^ s : ℚ) * 10 ^ (s - j) = m / 10 ^ j := fun j hj ↦ by
    have : (10 : ℚ) ^ s = 10 ^ (s - j) * 10 ^ j := by rw [← pow_add, Nat.sub_add_cancel hj]
    rw [this]
    field_simp
  refine ⟨by positivity, by omega, ?_, ?_⟩
  · rw [hpow _ hks, div_lt_iff₀ (by positivity)]
    have := (Nat.div_lt_iff_lt_mul (Nat.pow_pos (by norm_num))).1 hlt
    exact_mod_cast this
  · by_cases h28 : s ≤ k + 28
    · right
      have hge := (Nat.le_div_iff_mul_le (Nat.pow_pos (by norm_num))).1 (hmin k (by omega) h28)
      rw [show s - (k + 1) + 1 = s - k by omega, hpow k (by omega), le_div_iff₀ (by positivity)]
      exact_mod_cast hge
    · left
      omega

theorem fit?_rounds (h : fit? negative m s = some d) :
    d.negative = negative ∧ ∃ t n, RoundsAt (m / 10 ^ s) t n (d.mantissa / 10 ^ d.scale) ∧
      EvenUp (m / 10 ^ s) t n := by
  unfold fit? at h
  cases hk : droppedDigits? m s with
  | none => simp [hk] at h
  | some k =>
    obtain ⟨hks, hs, hlt, -⟩ := droppedDigits?_eq_some hk
    simp only [hk, Option.bind_eq_bind, Option.bind_some] at h
    cases k with
    | zero =>
      -- nothing is dropped
      rw [pow_zero, Nat.div_one] at hlt
      rw [pow_zero, halfEven_one, if_pos hlt, Nat.sub_zero,
        ofParts?_eq_some hlt (by omega), Option.some.injEq] at h
      subst h
      exact ⟨rfl, RoundsAt.of_fits hlt (by omega)⟩
    | succ k =>
      have hplace := isPlace_of_droppedDigits? hk
      have hx : (m / 10 ^ s : ℚ) * 10 ^ (s - (k + 1)) = m / (10 ^ (k + 1) : ℕ) := by
        have : (10 : ℚ) ^ s = 10 ^ (s - (k + 1)) * 10 ^ (k + 1) := by
          rw [← pow_add, Nat.sub_add_cancel hks]
        rw [this]
        push_cast
        field_simp
      split at h
      · rename_i hq
        rw [ofParts?_eq_some hq (by omega), Option.some.injEq] at h
        subst h
        have := RoundsAt.of_halfEven hplace (Nat.pow_pos (by norm_num)) hx (.inl hq)
        rw [settled_of_lt hq] at this
        exact ⟨rfl, _, _, this⟩
      · rename_i hq
        split at h
        · cases h
        · rename_i hsk
          have hqeq : halfEven m (10 ^ (k + 1)) = 2 ^ 96 := by
            have := halfEven_le_succ m (10 ^ (k + 1))
            omega
          have ht : 0 < s - (k + 1) := by omega
          rw [hqeq, show halfEven (2 ^ 96) 10 = 7922816251426433759354395034 by rfl,
            ofParts?_eq_some (by norm_num) (by omega), Option.some.injEq] at h
          subst h
          have hval : (2 ^ 96 + 4 : ℚ) / 10 ^ (s - (k + 1)) =
              (7922816251426433759354395034 : ℕ) / 10 ^ (s - (k + 1) - 1) := by
            obtain ⟨t, ht'⟩ := Nat.exists_eq_add_one.2 ht
            rw [ht', Nat.add_sub_cancel, pow_succ (10 : ℚ)]
            field_simp
            norm_num
          have := RoundsAt.of_halfEven hplace (Nat.pow_pos (by norm_num)) hx (.inr ht)
          rw [settled_of_not_lt hq, hval] at this
          exact ⟨rfl, _, _, this⟩

theorem fit?_eq_none (h : fit? negative m s = none) : (2 ^ 96 - 1 / 2 : ℚ) ≤ m / 10 ^ s := by
  unfold fit? at h
  cases hk : droppedDigits? m s with
  | none =>
    have hle := (Nat.le_div_iff_mul_le (Nat.pow_pos (by norm_num))).1 (droppedDigits?_eq_none hk)
    have hle' : (2 ^ 96 * 10 ^ s : ℚ) ≤ m := by exact_mod_cast hle
    have : (2 ^ 96 : ℚ) ≤ m / 10 ^ s := by rwa [le_div_iff₀ (by positivity)]
    linarith
  | some k =>
    obtain ⟨hks, hs, hlt, -⟩ := droppedDigits?_eq_some hk
    have hle := halfEven_le_succ m (10 ^ k)
    simp only [hk, Option.bind_eq_bind, Option.bind_some] at h
    split at h
    · rename_i hq
      rw [ofParts?_eq_some hq (by omega)] at h
      cases h
    · rename_i hq
      split at h
      · rename_i hsk
        subst hsk
        have hnear := (abs_le.1 (halfEven_near (n := m) (Nat.pow_pos (n := s) (by norm_num : 0 < 10)))).2
        have hq' : (2 ^ 96 : ℚ) ≤ halfEven m (10 ^ s) := by exact_mod_cast not_lt.1 hq
        push_cast at hnear
        linarith
      · have hqeq : halfEven m (10 ^ k) = 2 ^ 96 := by omega
        rw [hqeq, show halfEven (2 ^ 96) 10 = 7922816251426433759354395034 by rfl,
          ofParts?_eq_some (by norm_num) (by omega)] at h
        cases h

end Decimal

end MarginAccount
