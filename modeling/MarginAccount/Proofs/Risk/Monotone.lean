import MarginAccount.Proofs.Decimal.Arithmetic
import MarginAccount.Proofs.Decimal.Quotient
import MarginAccount.Risk.Indicator

/-! # Risk and the growth of debt

More debt against less collateral is at least as much risk. Sums and quotients are both rounded, but
roundings keep the order, and what does not fit a decimal is unbounded risk above all of them. There
is one exception, at operands of equal value and different scale: a quotient may break a tie upward
while the other one breaks it to even (`TiesApart`). `ofFigures_le_iff` shows that risk is out of
order there and nowhere else.
-/

namespace MarginAccount.Risk

variable {ρ ρ' : Risk} {a b w w' t : Decimal}

/-! ## The order of risks -/

theorem finite_le_finite : finite a ≤ finite b ↔ a.toRat ≤ b.toRat := by
  rw [← Decimal.le_iff_toRat]
  exact decide_eq_true_iff

theorem le_unbounded (ρ : Risk) : ρ ≤ unbounded := by
  cases ρ <;> exact rfl

theorem not_unbounded_le_finite : ¬unbounded ≤ finite a := Bool.false_ne_true

/-- A threshold that is reached stays reached. -/
theorem atLeast_mono (h : ρ ≤ ρ') (ht : ρ.atLeast t = true) : ρ'.atLeast t = true := by
  cases ρ' with
  | unbounded => rfl
  | finite b =>
    cases ρ with
    | unbounded => exact absurd h not_unbounded_le_finite
    | finite a =>
      rw [atLeast_finite, decide_eq_true_iff, Decimal.le_iff_toRat] at ht ⊢
      exact ht.trans (finite_le_finite.1 h)

/-- Below a threshold that is reached, every threshold is. -/
theorem atLeast_anti {t' : Decimal} (h : t ≤ t') (ht : ρ.atLeast t' = true) : ρ.atLeast t = true := by
  cases ρ with
  | unbounded => rfl
  | finite a =>
    rw [atLeast_finite, decide_eq_true_iff] at ht ⊢
    exact Int.le_trans h ht

/-- Levels never improve with growing risk. -/
theorem rank_level_mono (h : ρ ≤ ρ') (policy : Policy) :
    (ρ.level policy).rank ≤ (ρ'.level policy).rank := by
  unfold level
  split
  · rename_i hliquidation
    rw [if_pos (atLeast_mono h hliquidation)]
  · split
    · rename_i hcritical
      rw [if_pos (atLeast_mono h hcritical)]
      split <;> decide
    · split
      · rename_i hwarning
        rw [if_pos (atLeast_mono h hwarning)]
        split
        · decide
        · split <;> decide
      · exact Nat.zero_le _

/-! ## Risk of a demand -/

/-- The first quotient breaks a tie upward which the second one, of the same values, does not. -/
structure TiesApart (a w b w' : Decimal) : Prop where
  demand : a.toRat = b.toRat
  weighted : w.toRat = w'.toRat
  up : a.roundsTieUp w = true
  not_up : b.roundsTieUp w' = false

/-- Only a divisor of more than 64 bits breaks ties upward. -/
theorem TiesApart.isLong (h : TiesApart a w b w') : w.isLong = true :=
  Decimal.isLong_of_roundsTieUp h.up

theorem ofDemand_of_pos (d : Decimal) (hw : 0 < w.toRat) :
    ofDemand (some d) w = (d.div? w).elim unbounded finite := by
  rw [ofDemand, Decimal.isPositive_iff.2 hw, if_pos rfl]

theorem ofDemand_of_debt (ha : 0 < a.toRat) (hw : w.toRat = 0) :
    ofDemand (some a) w = unbounded := by
  rw [ofDemand, Decimal.isPositive_eq_false_iff.2 hw.le, if_neg Bool.false_ne_true,
    Decimal.isPositive_iff.2 ha, if_pos rfl]

/-- Without debt there is no risk. -/
theorem ofDemand_of_zero (ha : a.toRat = 0) : ofDemand (some a) w = zero := by
  rw [ofDemand]
  split
  · rename_i hw
    have hwz := Decimal.isZero_eq_false_iff.2 (Decimal.isPositive_iff.1 hw).ne'
    rw [Decimal.div?, hwz, if_neg Bool.false_ne_true, Decimal.isZero_iff_toRat.2 ha, if_pos rfl]
    rfl
  · rw [Decimal.isPositive_eq_false_iff.2 ha.le, if_neg Bool.false_ne_true]

/-- Where a ratio is equal for more demand and less collateral, both are equal. -/
theorem eq_of_div_eq {x y u v : ℚ} (hx : 0 < x) (hv : 0 < v) (hxy : x ≤ y) (hvu : v ≤ u)
    (heq : x / u = y / v) : x = y ∧ u = v := by
  have hu := hv.trans_le hvu
  rw [div_eq_div_iff hu.ne' hv.ne'] at heq
  have hvu' : v = u := by
    by_contra hne
    have : x * v < y * u := mul_lt_mul' hxy (lt_of_le_of_ne hvu hne) hv.le (hx.trans_le hxy)
    exact absurd heq this.ne
  rw [hvu'] at heq
  exact ⟨mul_right_cancel₀ hu.ne' heq, hvu'.symm⟩

/-- A quotient is not above that of a larger ratio, ties apart. -/
theorem div?_le_div?_iff {c c' : Decimal} (ha : 0 ≤ a.toRat) (hab : a.toRat ≤ b.toRat)
    (hw' : 0 < w'.toRat) (hw : w'.toRat ≤ w.toRat) (hq : a.div? w = some c)
    (hq' : b.div? w' = some c') : c.toRat ≤ c'.toRat ↔ ¬TiesApart a w b w' := by
  have hwpos := hw'.trans_le hw
  have hratio : a.toRat / w.toRat ≤ b.toRat / w'.toRat := div_le_div₀ (ha.trans hab) hab hw' hw
  rcases hratio.eq_or_lt with heq | hlt
  · rw [Decimal.div?_le_iff hq hq' heq (by positivity)]
    constructor
    · intro himp htie
      exact absurd (himp htie.up) (by simp [htie.not_up])
    · intro htie hup
      have hapos : 0 < a.toRat := lt_of_le_of_ne ha
        (Decimal.isZero_eq_false_iff.1 (Decimal.isZero_eq_false_of_roundsTieUp hup).1).symm
      obtain ⟨hd, hwd⟩ := eq_of_div_eq hapos hw' hab hw heq
      by_contra hnot
      exact htie ⟨hd, hwd, hup, Bool.eq_false_iff.2 hnot⟩
  · refine ⟨fun _ htie ↦ ?_, fun _ ↦ (Decimal.div?_rounds hq).mono (Decimal.div?_rounds hq') hlt⟩
    exact hlt.ne (by rw [htie.demand, htie.weighted])

/-- A ratio is none above a larger one, and none of its quotients is, ties apart. -/
theorem ofDemand_le_iff_of_pos (ha : 0 ≤ a.toRat) (hab : a.toRat ≤ b.toRat) (hw' : 0 < w'.toRat)
    (hw : w'.toRat ≤ w.toRat) :
    ofDemand (some a) w ≤ ofDemand (some b) w' ↔ ¬TiesApart a w b w' := by
  have hwpos := hw'.trans_le hw
  have hratio : a.toRat / w.toRat ≤ b.toRat / w'.toRat := div_le_div₀ (ha.trans hab) hab hw' hw
  have hnonneg : 0 ≤ a.toRat / w.toRat := by positivity
  have hwz := Decimal.isZero_eq_false_iff.2 hwpos.ne'
  have hwz' := Decimal.isZero_eq_false_iff.2 hw'.ne'
  rw [ofDemand_of_pos a hwpos, ofDemand_of_pos b hw']
  cases hq' : b.div? w' with
  | none =>
    refine ⟨fun _ htie ↦ ?_, fun _ ↦ le_unbounded _⟩
    -- the quotient that breaks the tie fits a decimal, so the other one of its value does
    obtain ⟨c, hc⟩ := Decimal.exists_div?_of_roundsTieUp htie.up
    have heq : a.toRat / w.toRat = b.toRat / w'.toRat := by rw [htie.demand, htie.weighted]
    exact (Decimal.div?_rounds hc).not_tooLarge (heq ▸ Decimal.div?_eq_none hwz' hq')
  | some c' =>
    obtain ⟨c, hq⟩ : ∃ c, a.div? w = some c := by
      rw [← Option.ne_none_iff_exists']
      intro hq
      refine (Decimal.div?_rounds hq').not_tooLarge ((Decimal.div?_eq_none hwz hq).mono ?_)
      rwa [abs_of_nonneg hnonneg, abs_of_nonneg (hnonneg.trans hratio)]
    rw [hq, Option.elim_some, Option.elim_some, finite_le_finite]
    exact div?_le_div?_iff ha hab hw' hw hq hq'

theorem ofDemand_le_iff (ha : 0 ≤ a.toRat) (hab : a.toRat ≤ b.toRat) (hw' : 0 ≤ w'.toRat)
    (hw : w'.toRat ≤ w.toRat) :
    ofDemand (some a) w ≤ ofDemand (some b) w' ↔ ¬TiesApart a w b w' := by
  rcases hw'.eq_or_lt with hzero | hpos
  · have hnot : ¬TiesApart a w b w' := fun htie ↦ by
      have := (Decimal.isZero_eq_false_of_roundsTieUp htie.up).2
      exact Decimal.isZero_eq_false_iff.1 this (htie.weighted.trans hzero.symm)
    refine iff_of_true ?_ hnot
    rcases (ha.trans hab).eq_or_lt with hb | hb
    · rw [ofDemand_of_zero (le_antisymm (hab.trans hb.ge) ha), ofDemand_of_zero hb.symm]
      exact finite_le_finite.2 le_rfl
    · rw [ofDemand_of_debt hb hzero.symm]
      exact le_unbounded _
  · exact ofDemand_le_iff_of_pos ha hab hpos hw

/-- More debt against less collateral is more risk, or as much, ties apart, also where the debt does
not fit a decimal. -/
theorem ofDemand_add?_le_iff {r l r' l' : Decimal} (hr : 0 ≤ r.toRat) (hl : 0 ≤ l.toRat)
    (hrr : r.toRat ≤ r'.toRat) (hll : l.toRat ≤ l'.toRat) (hw' : 0 ≤ w'.toRat)
    (hw : w'.toRat ≤ w.toRat) :
    ofDemand (r.add? l) w ≤ ofDemand (r'.add? l') w' ↔
      ¬∃ a ∈ r.add? l, ∃ b ∈ r'.add? l', TiesApart a w b w' := by
  have hsum : r.toRat + l.toRat ≤ r'.toRat + l'.toRat := add_le_add hrr hll
  cases hb : r'.add? l' with
  | none => exact iff_of_true (le_unbounded _) (by simp)
  | some b =>
    obtain ⟨a, ha⟩ := Decimal.exists_add?_of_le hr hl hsum hb
    have hround := Decimal.add?_roundsEven ha
    have hab := hround.mono (Decimal.add?_roundsEven hb) hsum
    rw [ha, ofDemand_le_iff (hround.nonneg (add_nonneg hr hl)) hab hw' hw]
    simp

/-! ## Risk of the figures -/

theorem ofFigures_of_nonneg {r w l : Usd} (hr : .zero ≤ r.value) (hw : .zero ≤ w.value)
    (hl : .zero ≤ l.value) :
    ofFigures r w l = .ok (ofDemand (r.value.add? l.value) w.value) := by
  have hneg : ∀ u : Usd, .zero ≤ u.value → u.isNegative = false := fun u hu ↦ by
    rw [Decimal.le_iff_toRat, Decimal.toRat_zero] at hu
    exact Decimal.isNegative_eq_false_iff.2 hu
  rw [ofFigures, hneg r hr, hneg w hw, hneg l hl]
  rfl

/-- More debt against less collateral is more risk, or as much, unless one quotient breaks a tie
apart from the other. The level then never improves. -/
theorem ofFigures_le_iff {r r' w w' l l' : Usd} (hr : .zero ≤ r.value) (hl : .zero ≤ l.value)
    (hw : .zero ≤ w'.value) (hrr : r.value ≤ r'.value) (hll : l.value ≤ l'.value)
    (hww : w'.value ≤ w.value) :
    ∃ ρ ρ', ofFigures r w l = .ok ρ ∧ ofFigures r' w' l' = .ok ρ' ∧
      (ρ ≤ ρ' ↔ ¬∃ a b, r.value.add? l.value = some a ∧ r'.value.add? l'.value = some b ∧
        TiesApart a w.value b w'.value) ∧
      (ρ ≤ ρ' → ∀ policy, (ρ.level policy).rank ≤ (ρ'.level policy).rank) := by
  have hr' : Decimal.zero ≤ r'.value := Int.le_trans hr hrr
  have hl' : Decimal.zero ≤ l'.value := Int.le_trans hl hll
  refine ⟨_, _, ofFigures_of_nonneg hr (Int.le_trans hw hww) hl, ofFigures_of_nonneg hr' hw hl',
    ?_, rank_level_mono⟩
  rw [Decimal.le_iff_toRat] at hr hl hw hrr hll hww
  rw [Decimal.toRat_zero] at hr hl hw
  have hsum : r.value.toRat + l.value.toRat ≤ r'.value.toRat + l'.value.toRat := add_le_add hrr hll
  cases hb : r'.value.add? l'.value with
  | none => exact iff_of_true (le_unbounded _) (by simp)
  | some b =>
    cases ha : r.value.add? l.value with
    | none =>
      -- the smaller sum cannot be the one that overflows
      refine absurd ((Decimal.add?_eq_none ha).mono ?_) (Decimal.add?_roundsEven hb).rounds.not_tooLarge
      rwa [abs_of_nonneg (add_nonneg hr hl), abs_of_nonneg ((add_nonneg hr hl).trans hsum)]
    | some a =>
      have hround := Decimal.add?_roundsEven ha
      rw [ofDemand_le_iff (hround.nonneg (add_nonneg hr hl)) (hround.mono (Decimal.add?_roundsEven hb) hsum)
        hw hww]
      simp

/-- A tenth of a cent more of required collateral and a tenth of the collateral gone. -/
theorem ofFigures_le_of_more_required :
    ∃ ρ ρ', ofFigures ⟨.lit 0⟩ ⟨.lit 150⟩ ⟨.lit 80⟩ = .ok ρ ∧
      ofFigures ⟨.lit 1 3⟩ ⟨.lit 1350 1⟩ ⟨.lit 80⟩ = .ok ρ' ∧ ρ ≤ ρ' ∧
      ∀ policy, (ρ.level policy).rank ≤ (ρ'.level policy).rank := by
  have hrequired : (⟨.lit 0⟩ : Usd).value ≤ (⟨.lit 1 3⟩ : Usd).value := by decide
  have hliabilities : (⟨.lit 80⟩ : Usd).value ≤ (⟨.lit 80⟩ : Usd).value := by decide
  have hweighted : (⟨.lit 1350 1⟩ : Usd).value ≤ (⟨.lit 150⟩ : Usd).value := by decide
  obtain ⟨ρ, ρ', hρ, hρ', hiff, hlevel⟩ := ofFigures_le_iff (by decide) (by decide) (by decide)
    hrequired hliabilities hweighted
  have hle : ρ ≤ ρ' := hiff.2 fun ⟨a, b, _, _, htie⟩ ↦ absurd htie.weighted (by decide +kernel)
  exact ⟨ρ, ρ', hρ, hρ', hle, hlevel hle⟩

/-- Collateral and liabilities held fixed, a larger requirement lowers the risk: the sum is the
same number at a larger scale, and the quotient then breaks its tie downward. -/
theorem risk_falls_as_debt_grows :
    let w : Usd := ⟨.lit 1600000000000000000000000000 26⟩
    let l : Usd := ⟨.lit 126765060022822940149670321⟩
    (⟨.lit 0⟩ : Usd).value < (⟨.lit 4 3⟩ : Usd).value ∧
      ofFigures ⟨.lit 0⟩ w l = .ok (.finite (.lit 7922816251426433759354395063 3)) ∧
      ofFigures ⟨.lit 4 3⟩ w l = .ok (.finite (.lit 7922816251426433759354395062 3)) ∧
      ¬finite (.lit 7922816251426433759354395063 3) ≤ finite (.lit 7922816251426433759354395062 3) := by
  decide +kernel

end MarginAccount.Risk
