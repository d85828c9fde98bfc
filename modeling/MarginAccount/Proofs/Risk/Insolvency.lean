import MarginAccount.Proofs.Risk.Monotone

/-! # Risk never understates insolvency

Risk reaches a threshold whenever debt is that multiple of the weighted collateral. A threshold is a
decimal and so is its own rounding, which a quotient of at least the threshold never falls below. For
the threshold one the debt need not be a decimal: it is compared with the collateral, which is.
Conversely, risk that reaches one may owe it to the rounding of the sum and of the quotient, but
to less than two parts in `10 ^ 28`.
-/

namespace MarginAccount.Risk

variable {a b c w t : Decimal} {ρ : Risk}

/-! ## Thresholds on one demand -/

/-- A demand of at least the threshold times the collateral reaches the threshold. -/
theorem atLeast_ofDemand (ha : 0 < a.toRat) (hw : 0 ≤ w.toRat) (h : t.toRat * w.toRat ≤ a.toRat) :
    (ofDemand (some a) w).atLeast t = true := by
  rcases hw.eq_or_lt with hw₀ | hw
  · rw [ofDemand_of_debt ha hw₀.symm]
    exact atLeast_unbounded t
  · rw [ofDemand_of_pos a hw]
    cases hq : a.div? w with
    | none => exact atLeast_unbounded t
    | some c =>
      rw [Option.elim_some, atLeast_finite, decide_eq_true_iff, Decimal.le_iff_toRat]
      exact (Decimal.div?_rounds hq).ge_of_ge ((le_div_iff₀ hw).2 h)

theorem le_of_one_le_rounding {x : ℚ} (h : Rounds x c) (hc : 1 ≤ c.toRat) :
    1 - 2 / 3 / 10 ^ 28 ≤ x := by
  by_contra hlt
  rw [not_le] at hlt
  have hx : 0 ≤ x := by
    by_contra hneg
    have := h.nonpos (le_of_not_ge hneg)
    linarith
  have herr := h.error_le
  have hmax : max (1 / 2) (2 / 3 * |x|) ≤ (2 / 3 : ℚ) := by
    rw [abs_of_nonneg hx, max_le_iff]
    constructor <;> linarith
  have hbound : |c.toRat - x| ≤ 2 / 3 / 10 ^ 28 := by
    calc |c.toRat - x| ≤ 1 / 10 ^ 28 * max (1 / 2) (2 / 3 * |x|) := herr
      _ ≤ 1 / 10 ^ 28 * (2 / 3) := by gcongr
      _ = 2 / 3 / 10 ^ 28 := by ring
  linarith [(abs_le.1 hbound).2]

/-- Risk of at least one means a demand that falls short of the collateral by a rounding at most. -/
theorem debt_of_atLeast_one (ha : 0 ≤ a.toRat) (hw : 0 ≤ w.toRat)
    (h : (ofDemand (some a) w).atLeast .one = true) :
    0 < a.toRat ∧ (1 - 2 / 3 / 10 ^ 28) * w.toRat ≤ a.toRat := by
  have hpos : 0 < a.toRat := by
    refine lt_of_le_of_ne ha fun ha₀ ↦ ?_
    rw [ofDemand_of_zero ha₀.symm] at h
    exact absurd h (by decide)
  refine ⟨hpos, ?_⟩
  rcases hw.eq_or_lt with hw₀ | hw
  · rw [← hw₀, mul_zero]
    exact ha
  · rw [ofDemand_of_pos a hw] at h
    rw [← le_div_iff₀ hw]
    cases hq : a.div? w with
    | none =>
      have hlarge := Decimal.div?_eq_none (Decimal.isZero_eq_false_iff.2 hw.ne') hq
      rw [TooLarge, abs_of_nonneg (by positivity)] at hlarge
      linarith
    | some c =>
      rw [hq, Option.elim_some, atLeast_finite, decide_eq_true_iff, Decimal.le_iff_toRat,
        Decimal.toRat_one] at h
      exact le_of_one_le_rounding (Decimal.div?_rounds hq) h

/-- A demand of at least the collateral reaches one, also where the demand does not fit a decimal. -/
theorem atLeast_one_of_debt {r l : Decimal} (hr : 0 ≤ r.toRat) (hl : 0 ≤ l.toRat) (hw : 0 ≤ w.toRat)
    (hle : w.toRat ≤ r.toRat + l.toRat) (hpos : 0 < r.toRat + l.toRat) :
    (ofDemand (r.add? l) w).atLeast .one = true := by
  cases hs : r.add? l with
  | none => exact atLeast_unbounded _
  | some s =>
    refine atLeast_ofDemand (Decimal.add?_pos hr hl hs hpos) hw ?_
    rw [Decimal.toRat_one, one_mul]
    exact (Decimal.add?_roundsEven hs).rounds.ge_of_ge hle

/-! ## Thresholds on the figures -/

/-- Insolvency is never understated: debt that is a decimal reaches every threshold that it is a
multiple of, any debt of at least the collateral reaches one, and what reaches one is insolvent up
to two parts in `10 ^ 28`. -/
theorem atLeast_ofFigures {r w l : Usd} (hr : .zero ≤ r.value) (hw : .zero ≤ w.value)
    (hl : .zero ≤ l.value) :
    ∃ ρ, ofFigures r w l = .ok ρ ∧
      ((∃ d : Decimal, d.toRat = r.value.toRat + l.value.toRat) →
        ∀ t : Decimal, 0 < t.toRat → t.toRat * w.value.toRat ≤ r.value.toRat + l.value.toRat →
          0 < r.value.toRat + l.value.toRat → ρ.atLeast t = true) ∧
      (w.value.toRat ≤ r.value.toRat + l.value.toRat → 0 < r.value.toRat + l.value.toRat →
        ρ.atLeast .one = true) ∧
      (ρ.atLeast .one = true → 0 < r.value.toRat + l.value.toRat ∧
        (1 - 2 / 10 ^ 28) * w.value.toRat ≤ r.value.toRat + l.value.toRat) := by
  refine ⟨_, ofFigures_of_nonneg hr hw hl, ?_⟩
  rw [Decimal.le_iff_toRat, Decimal.toRat_zero] at hr hw hl
  cases hs : r.value.add? l.value with
  | none =>
    have hlarge := Decimal.lt_of_add?_eq_none hr hl hs
    refine ⟨fun _ t _ _ _ ↦ atLeast_unbounded t, fun _ _ ↦ atLeast_unbounded _, fun _ ↦ ⟨?_, ?_⟩⟩
    · exact hw.trans_lt (hlarge w.value)
    · refine le_trans ?_ (hlarge w.value).le
      linarith
  | some s =>
    have hround := (Decimal.add?_roundsEven hs).rounds
    refine ⟨?_, fun hle hpos ↦ ?_, fun hone ↦ ?_⟩
    · rintro ⟨d, hd⟩ t - hle hpos
      have hsd : s.toRat = r.value.toRat + l.value.toRat := by
        rw [← hd] at hround ⊢
        exact hround.eq_of_fits
      exact atLeast_ofDemand (hsd ▸ hpos) hw (hsd ▸ hle)
    · refine atLeast_ofDemand (Decimal.add?_pos hr hl hs hpos) hw ?_
      rw [Decimal.toRat_one, one_mul]
      exact hround.ge_of_ge hle
    · have hsum := add_nonneg hr hl
      obtain ⟨hpos, hdebt⟩ := debt_of_atLeast_one (hround.nonneg hsum) hw hone
      have herr := (abs_le.1 (Decimal.add?_error_le hr hl hs)).2
      refine ⟨lt_of_le_of_ne hsum fun h₀ ↦ ?_, ?_⟩
      · rw [← h₀] at hround
        exact absurd hpos (not_lt.2 (hround.nonpos le_rfl))
      · -- the sum takes at most as much from the debt as the quotient does
        linarith

/-- Debt of 110 against collateral of 100 reaches one, and the threshold that is just its ratio. -/
theorem atLeast_ofFigures_of_shortfall :
    ∃ ρ, ofFigures ⟨.lit 30⟩ ⟨.lit 100⟩ ⟨.lit 80⟩ = .ok ρ ∧ ρ.atLeast (.lit 11 1) = true ∧
      ρ.atLeast .one = true := by
  obtain ⟨ρ, hρ, hthreshold, hone, -⟩ := atLeast_ofFigures (r := ⟨.lit 30⟩) (w := ⟨.lit 100⟩)
    (l := ⟨.lit 80⟩) (by decide) (by decide) (by decide)
  refine ⟨ρ, hρ, hthreshold ⟨.lit 110, ?_⟩ _ ?_ ?_ ?_, hone ?_ ?_⟩ <;> decide +kernel

end MarginAccount.Risk
