import MarginAccount.Proofs.Account.Figures
import MarginAccount.Proofs.Risk.Insolvency

/-! # A shortfall is always liquidatable

Available collateral is what two differences leave, and risk is a quotient of a sum: two roundings of
one comparison of the debt with the collateral. A difference that rounds to a negative number was
negative, so the collateral is below the debt, and a quotient of at least one never rounds below one.
-/

namespace MarginAccount.Valuation

variable {positions : List Position} {changes : List Change} {prices : PriceSource} {policy : Policy}
  {v : Valuation}

/-- Where available collateral is negative, the exact debt exceeds the collateral. -/
theorem weighted_lt_of_shortfall (hbalanced : v.IsBalanced) (hshortfall : v.available.value.toRat < 0) :
    v.weighted.value.toRat < v.required.value.toRat + v.liabilities.value.toRat := by
  have hrequired : v.effective.value.toRat < v.required.value.toRat := by
    by_contra hle
    have := hbalanced.available.nonneg (sub_nonneg.2 (not_lt.1 hle))
    linarith
  by_contra hle
  -- the required collateral is a decimal, and a difference that reaches it does not round below it
  have := hbalanced.effective.rounds.ge_of_ge (a := v.required.value) (by linarith)
  linarith

/-- An account that is short of collateral can be liquidated, under every policy that allows it from a
risk of one on. -/
theorem isLiquidatable_of_shortfall (hpositions : ∀ p ∈ positions, p.check = .ok ())
    (hchanges : ∀ c ∈ changes, checkModifier c.token c.kind c.modifier = .ok ())
    (hpolicy : policy.check = .ok ()) (hlevel : policy.liquidationLevel ≤ .one)
    (h : ofPositions positions prices changes policy = .ok v) :
    ∃ ρ, v.risk = .ok ρ ∧ (v.available.isNegative = true → ρ.isLiquidatable policy = true) := by
  obtain ⟨merged, hmerge⟩ := exists_mergeChanges h
  have hsound := isSound_of_checks hpositions hchanges hpolicy h
  refine ⟨_, risk_eq_ofDemand hsound, fun hshortfall ↦ ?_⟩
  obtain ⟨hweighted, -, hliabilities, hrequired, -⟩ := hsound
  have hdebt := weighted_lt_of_shortfall (addParts_eq_sums h hmerge).2
    (Decimal.isNegative_iff.1 hshortfall)
  exact Risk.atLeast_anti hlevel (Risk.atLeast_one_of_debt (hliabilities.trans hrequired) hliabilities
    hweighted hdebt.le (hweighted.trans_lt hdebt))

open Sample

/-- The last of the 27 places of a deposit is taken out, and it falls short of the debt by that. -/
theorem isLiquidatable_of_last_place :
    ∃ v ρ, ofPositions [deposited 1 { units := 9190466851654663160851098273 } (-27), longClaim] oneDollar
        [⟨.ofTag 1, .deposit, -27, .one, { units := -1 }⟩] .standard = .ok v ∧
      v.available.value.toRat = -1 / 10 ^ 27 ∧ v.risk = .ok ρ ∧ ρ.isLiquidatable .standard = true := by
  obtain ⟨v, hv, havailable⟩ : ∃ v,
      ofPositions [deposited 1 { units := 9190466851654663160851098273 } (-27), longClaim] oneDollar
          [⟨.ofTag 1, .deposit, -27, .one, { units := -1 }⟩] .standard = .ok v ∧
        decide (v.available.value.toRat = -1 / 10 ^ 27) = true := by
    apply exists_ok_of_any
    rw [ofPositions_of_sorted rfl (by decide +kernel)]
    decide +kernel
  have hshort := of_decide_eq_true havailable
  obtain ⟨ρ, hρ, hliquidatable⟩ := isLiquidatable_of_shortfall (by decide) (by decide) (by decide)
    (by decide) hv
  refine ⟨v, ρ, hv, hshort, hρ, hliquidatable (Decimal.isNegative_iff.2 ?_)⟩
  rw [hshort]
  norm_num

end MarginAccount.Valuation
