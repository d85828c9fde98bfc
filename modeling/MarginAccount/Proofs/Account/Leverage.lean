import MarginAccount.Account.Summary
import MarginAccount.Proofs.Fault
import MarginAccount.Proofs.Risk.Monotone

/-! # Leverage in order

The more an account owes at the same assets, the less equity it has, and the higher its leverage is,
as long as there is a ratio to show: `ratio?` is none without positive equity and where assets over
equity do not fit a decimal, and it stays none as liabilities grow. The policy's sentinel stands for
what is missing. It is one number, and no ratio is held against it, so leverage falls exactly where
the sentinel takes the place of a ratio above it (`leverage_le_iff`). The one other exception is that
of all quotients: one may break a tie upward that another one of the same values does not.
-/

namespace MarginAccount.Valuation

variable {v v' : Valuation} {equity q q' : Decimal} {policy : Policy}

/-- Assets over equity, where equity is positive and the quotient fits a decimal. -/
def ratio? (v : Valuation) : Option Decimal := do
  let equity ← v.assets.value.sub? v.liabilities.value
  if equity.isPositive then v.assets.value.div? equity else none

/-- The first ratio breaks a tie upward, and the second one, of assets and equity of the same values,
does not. -/
def RatioTiesApart (v v' : Valuation) : Prop :=
  ∃ equity ∈ v.assets.value.sub? v.liabilities.value,
    ∃ equity' ∈ v'.assets.value.sub? v'.liabilities.value,
      Risk.TiesApart v.assets.value equity v'.assets.value equity'

theorem ratio?_eq_some : v.ratio? = some q ↔ ∃ equity,
    v.assets.value.sub? v.liabilities.value = some equity ∧ 0 < equity.toRat ∧
      v.assets.value.div? equity = some q := by
  rw [ratio?, Option.bind_eq_bind, Option.bind_eq_some_iff]
  simp only [Option.ite_none_right_eq_some, Decimal.isPositive_iff]

/-! ## The summary -/

/-- Assets and liabilities that are not negative have a summary, with the leverage at their equity. -/
theorem exists_summary (hassets : 0 ≤ v.assets.value.toRat)
    (hliabilities : 0 ≤ v.liabilities.value.toRat) (policy : Policy) :
    ∃ equity s, v.assets.value.sub? v.liabilities.value = some equity ∧
      v.summary policy = .ok s ∧ s.leverage = v.leverage ⟨equity⟩ policy := by
  obtain ⟨equity, hequity⟩ := Decimal.exists_sub?_of_nonneg hassets hliabilities
  have hsub : v.assets.value.sub v.liabilities.value = .ok equity := Decimal.orFault_eq_ok.2 hequity
  rw [summary, Valuation.equity, Usd.sub, hsub]
  exact ⟨equity, _, hequity, rfl, rfl⟩

/-- Once there are assets, leverage is the ratio, or the sentinel without one. -/
theorem leverage_eq (hassets : 0 < v.assets.value.toRat)
    (h : v.assets.value.sub? v.liabilities.value = some equity) (policy : Policy) :
    v.leverage ⟨equity⟩ policy = v.ratio?.getD policy.leverageSentinel := by
  have hholding : v.assets.isZero = false := Decimal.isZero_eq_false_iff.2 hassets.ne'
  rw [leverage, ratio?, h, hholding, Bool.false_and, if_neg Bool.false_ne_true, Option.bind_eq_bind,
    Option.bind_some]
  split <;> rfl

/-- Assets that do not exceed the liabilities have no ratio. -/
theorem ratio?_eq_none_of_le (h : v.assets.value.toRat ≤ v.liabilities.value.toRat) :
    v.ratio? = none := by
  rw [Option.eq_none_iff_forall_ne_some]
  intro q hq
  obtain ⟨equity, hequity, hpos, -⟩ := ratio?_eq_some.1 hq
  exact absurd ((Decimal.sub?_roundsEven hequity).nonpos (sub_nonpos.2 h)) (not_le.2 hpos)

/-! ## More liabilities -/

section

variable (hassets : v'.assets = v.assets)
  (hle : v.liabilities.value.toRat ≤ v'.liabilities.value.toRat)

include hassets hle

theorem equity_le {equity' : Decimal} (h : v.assets.value.sub? v.liabilities.value = some equity)
    (h' : v'.assets.value.sub? v'.liabilities.value = some equity') :
    equity'.toRat ≤ equity.toRat := by
  rw [hassets] at h'
  exact (Decimal.sub?_roundsEven h').mono (Decimal.sub?_roundsEven h) (sub_le_sub_left hle _)

/-- There is a ratio if there is one with more liabilities. -/
theorem exists_ratio?_of_le (h₀ : 0 ≤ v.assets.value.toRat)
    (hliabilities : 0 ≤ v.liabilities.value.toRat) (hq' : v'.ratio? = some q') :
    ∃ q, v.ratio? = some q := by
  obtain ⟨equity', hequity', hpos', hq'⟩ := ratio?_eq_some.1 hq'
  obtain ⟨equity, hequity⟩ := Decimal.exists_sub?_of_nonneg h₀ hliabilities
  have hequity_le := equity_le hassets hle hequity hequity'
  rw [hassets] at hq'
  obtain ⟨q, hq⟩ := Decimal.exists_div?_of_le h₀ (hpos'.trans_le hequity_le)
    (div_le_div_of_nonneg_left h₀ hpos' hequity_le) hq'
  exact ⟨q, ratio?_eq_some.2 ⟨equity, hequity, hpos'.trans_le hequity_le, hq⟩⟩

/-- The ratio grows with the liabilities, ties apart. -/
theorem ratio_le_iff (h₀ : 0 ≤ v.assets.value.toRat) (hq : v.ratio? = some q)
    (hq' : v'.ratio? = some q') : q.toRat ≤ q'.toRat ↔ ¬v.RatioTiesApart v' := by
  obtain ⟨equity, hequity, -, hq⟩ := ratio?_eq_some.1 hq
  obtain ⟨equity', hequity', hpos', hq'⟩ := ratio?_eq_some.1 hq'
  rw [Risk.div?_le_div?_iff h₀ (by rw [hassets]) hpos' (equity_le hassets hle hequity hequity') hq
    hq', RatioTiesApart, hequity, hequity']
  simp

end

/-- With more liabilities there is no ratio where there was none, and leverage is as high or higher
exactly if the sentinel takes no place of a ratio above it. Where both have a ratio, ties that break
apart are left out. -/
theorem leverage_le_iff (hassets : v'.assets = v.assets) (h₀ : .zero < v.assets.value)
    (hliabilities : .zero ≤ v.liabilities.value) (hle : v.liabilities.value ≤ v'.liabilities.value)
    (policy : Policy) :
    ∃ s s', v.summary policy = .ok s ∧ v'.summary policy = .ok s' ∧
      s.leverage = v.ratio?.getD policy.leverageSentinel ∧
      s'.leverage = v'.ratio?.getD policy.leverageSentinel ∧
      (v'.assets.value ≤ v'.liabilities.value → v'.ratio? = none) ∧
      (v.ratio? = none → v'.ratio? = none) ∧
      (¬v.RatioTiesApart v' → (s.leverage ≤ s'.leverage ↔
        ∀ q ∈ v.ratio?, v'.ratio? = none → q ≤ policy.leverageSentinel)) := by
  rw [Decimal.lt_iff_toRat, Decimal.toRat_zero] at h₀
  rw [Decimal.le_iff_toRat, Decimal.toRat_zero] at hliabilities
  rw [Decimal.le_iff_toRat] at hle
  have h₀' : 0 < v'.assets.value.toRat := by rwa [hassets]
  obtain ⟨equity, s, hequity, hs, hleverage⟩ := exists_summary h₀.le hliabilities policy
  obtain ⟨equity', s', hequity', hs', hleverage'⟩ :=
    exists_summary h₀'.le (hliabilities.trans hle) policy
  rw [leverage_eq h₀ hequity] at hleverage
  rw [leverage_eq h₀' hequity'] at hleverage'
  have hnone (h : v.ratio? = none) : v'.ratio? = none := by
    rw [Option.eq_none_iff_forall_ne_some]
    intro q' hq'
    obtain ⟨q, hq⟩ := exists_ratio?_of_le hassets hle h₀.le hliabilities hq'
    rw [h] at hq
    cases hq
  refine ⟨s, s', hs, hs', hleverage, hleverage',
    fun h ↦ ratio?_eq_none_of_le (Decimal.le_iff_toRat.1 h), hnone, fun hties ↦ ?_⟩
  rw [hleverage, hleverage', Decimal.le_iff_toRat]
  cases hq : v.ratio? with
  | none =>
    rw [hnone hq]
    exact iff_of_true le_rfl (by simp)
  | some q =>
    cases hq' : v'.ratio? with
    | none => simp [Decimal.le_iff_toRat]
    | some q' => exact iff_of_true ((ratio_le_iff hassets hle h₀.le hq hq').2 hties) (by simp)

/-- An account that holds and owes so much. -/
def ofBalance (assets liabilities : Decimal) : Valuation :=
  ⟨⟨assets⟩, ⟨liabilities⟩, .zero, .zero, .zero, .zero, .zero, .zero, 0⟩

/-- An account of leverage three goes under water, and shows the standard sentinel. -/
theorem leverage_le_of_three :
    ∃ s s', (ofBalance (.lit 300) (.lit 200)).summary .standard = .ok s ∧
      (ofBalance (.lit 300) (.lit 400)).summary .standard = .ok s' ∧
      s.leverage.toRat = 3 ∧ s'.leverage = .lit 9999 1 ∧ s.leverage ≤ s'.leverage := by
  have hassets : (ofBalance (.lit 300) (.lit 400)).assets =
      (ofBalance (.lit 300) (.lit 200)).assets := rfl
  obtain ⟨s, s', hs, hs', hleverage, hleverage', hunderwater, -, hiff⟩ :=
    leverage_le_iff hassets (by decide) (by decide) (by decide) .standard
  have hties : ¬(ofBalance (.lit 300) (.lit 200)).RatioTiesApart
      (ofBalance (.lit 300) (.lit 400)) := by
    rintro ⟨equity, hequity, _, -, htie⟩
    have hshort : ∀ equity ∈ (Decimal.lit 300).sub? (.lit 200), equity.isLong = false := by decide
    exact Bool.false_ne_true ((hshort equity hequity).symm.trans htie.isLong)
  have hratio : ∀ q ∈ (ofBalance (.lit 300) (.lit 200)).ratio?,
      q ≤ Policy.standard.leverageSentinel := by decide +kernel
  refine ⟨s, s', hs, hs', ?_, ?_, (hiff hties).2 fun q hq _ ↦ hratio q hq⟩
  · rw [hleverage]
    decide +kernel
  · rw [hleverage', hunderwater (by decide)]
    rfl

theorem not_leverage_le {leverage leverage' : Decimal}
    (h : (v.summary policy).toOption.any (·.leverage = leverage) = true)
    (h' : (v'.summary policy).toOption.any (·.leverage = leverage') = true)
    (hlt : ¬leverage ≤ leverage') :
    ∃ s s', v.summary policy = .ok s ∧ v'.summary policy = .ok s' ∧ s.leverage = leverage ∧
      s'.leverage = leverage' ∧ ¬s.leverage ≤ s'.leverage := by
  obtain ⟨s, hs, hleverage⟩ := exists_ok_of_any h
  obtain ⟨s', hs', hleverage'⟩ := exists_ok_of_any h'
  obtain rfl := of_decide_eq_true hleverage
  obtain rfl := of_decide_eq_true hleverage'
  exact ⟨s, s', hs, hs', rfl, rfl, hlt⟩

/-- Under the standard policy an account that holds 1001 dollars has a leverage of 1001 while it owes
1000 of them, and shows 999.9 once it owes 1002. With a leverage of 79 it shows less by a unit of the
last place once the liabilities, the same number as before, are written with one more place. -/
theorem leverage_falls :
    Policy.standard.check = .ok () ∧
    ((.zero < Decimal.lit 1001 ∧ .zero ≤ Decimal.lit 1000 ∧ Decimal.lit 1000 ≤ .lit 1002) ∧
      ∃ s s', (ofBalance (.lit 1001) (.lit 1000)).summary .standard = .ok s ∧
        (ofBalance (.lit 1001) (.lit 1002)).summary .standard = .ok s' ∧
        s.leverage = .lit 1001 ∧ s'.leverage = .lit 9999 1 ∧ ¬s.leverage ≤ s'.leverage) ∧
    let assets : Decimal := .lit 126765060022822940149670321 26
    let liabilities : Decimal := .lit 125165060022822940149670321 26
    let liabilities' : Decimal := .lit 1251650600228229401496703210 27
    (.zero < assets ∧ .zero ≤ liabilities ∧ liabilities ≤ liabilities') ∧
      ∃ s s', (ofBalance assets liabilities).summary .standard = .ok s ∧
        (ofBalance assets liabilities').summary .standard = .ok s' ∧
        s.leverage = .lit 7922816251426433759354395063 26 ∧
        s'.leverage = .lit 7922816251426433759354395062 26 ∧ ¬s.leverage ≤ s'.leverage :=
  ⟨by decide,
    ⟨by decide, not_leverage_le (by decide +kernel) (by decide +kernel) (by decide)⟩,
    by decide, not_leverage_le (by decide +kernel) (by decide +kernel) (by decide)⟩

end MarginAccount.Valuation
