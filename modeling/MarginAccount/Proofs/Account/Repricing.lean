import MarginAccount.Proofs.Account.Gains

/-! # Two valuations at different prices

Where what is deposited costs at least as much as before and what is owed at most as much, each
position is worth what is for the good of the account, and the account is no worse. A missing price
counts as zero, so a position may come into the sums or drop out of them.
-/

namespace MarginAccount

variable {prices prices' : PriceSource} {policy : Policy} {p : Position} {weight : Decimal}
  {positions merged : List Position} {changes : List Change}

/-- The second prices suit a position as well as the first or better: its token costs at least as
much if it is deposited, and at most as much if it is owed. -/
structure PriceSource.Suits (prices prices' : PriceSource) (kind : PositionKind) (token : TokenId) :
    Prop where
  deposit : kind = .deposit → prices.rate token ≤ prices'.rate token
  claim : kind = .claim → prices'.rate token ≤ prices.rate token

instance (prices prices' : PriceSource) (kind : PositionKind) (token : TokenId) :
    Decidable (prices.Suits prices' kind token) :=
  decidable_of_iff ((kind = .deposit → prices.rate token ≤ prices'.rate token) ∧
    (kind = .claim → prices'.rate token ≤ prices.rate token))
    ⟨fun h ↦ ⟨h.1, h.2⟩, fun h ↦ ⟨h.1, h.2⟩⟩

/-! ## One position -/

namespace Position

variable {a a' : Appraisal}

theorem worth_mono (h : p.appraise prices policy = .ok a) (h' : p.appraise prices' policy = .ok a')
    (hk : p.kind ≠ .noValue) (hrate : prices.rate p.token ≤ prices'.rate p.token) :
    (p.worth prices).toRat ≤ (p.worth prices').toRat := by
  obtain ⟨quantity, hquantity, hnonneg, hround⟩ := worth_roundsEven h hk
  obtain ⟨_, hquantity', -, hround'⟩ := worth_roundsEven h' hk
  obtain rfl := Option.some.inj (hquantity.symm.trans hquantity')
  exact hround.mono hround' (mul_le_mul_of_nonneg_left hrate hnonneg)

theorem worth_favours (h : p.appraise prices policy = .ok a)
    (h' : p.appraise prices' policy = .ok a') (hsuits : prices.Suits prices' p.kind p.token) :
    p.kind.Favours (p.worth prices).toRat (p.worth prices').toRat where
  deposit hk := worth_mono h h' (by rw [hk]; decide) (hsuits.deposit hk)
  claim hk := worth_mono h' h (by rw [hk]; decide) (hsuits.claim hk)

theorem added_gains (h : p.appraise prices policy = .ok a) (h' : p.appraise prices' policy = .ok a')
    (hp : p.check = .ok ()) (hsuits : prices.Suits prices' p.kind p.token) :
    (p.added prices policy).Gains (p.added prices' policy) :=
  added_gains_of_worth h h' hp rfl rfl (worth_favours h h' hsuits)

/-! ## Two quotients of one worth -/

/-- The worth of a claim over a weight breaks a tie upward at the second prices, and does not at the
first, where it is the same number at another scale. -/
def RepricedTiesApart (p : Position) (weight : Decimal) (prices prices' : PriceSource) : Prop :=
  p.kind = .claim ∧ Risk.TiesApart (p.worth prices') weight (p.worth prices) weight

/-- Ties never come apart over a weight of at most 64 bits. -/
theorem not_repricedTiesApart (h : weight.isLong = false) :
    ¬p.RepricedTiesApart weight prices prices' :=
  not_tiesApart h

/-- A position requires as much as before or less, ties apart. -/
theorem required_le_iff (h : p.appraise prices policy = .ok a)
    (h' : p.appraise prices' policy = .ok a') (hp : p.check = .ok ())
    (hsuits : prices.Suits prices' p.kind p.token) :
    (p.added prices' policy).required.toRat ≤ (p.added prices policy).required.toRat ↔
      ¬p.RepricedTiesApart p.modifier prices prices' :=
  required_le_iff_of_worth h h' hp rfl rfl (worth_favours h h' hsuits)

/-- A position requires as much as before or less for setting up trades, ties apart. -/
theorem requiredSetup_le_iff (h : p.appraise prices policy = .ok a)
    (h' : p.appraise prices' policy = .ok a') (hp : p.check = .ok ()) (hpolicy : policy.check = .ok ())
    (hsuits : prices.Suits prices' p.kind p.token) :
    (p.added prices' policy).requiredSetup.toRat ≤ (p.added prices policy).requiredSetup.toRat ↔
      ∀ weight ∈ p.setupWeight? policy, ¬p.RepricedTiesApart weight prices prices' :=
  requiredSetup_le_iff_of_worth h h' hp hpolicy rfl rfl (worth_favours h h' hsuits)

end Position

/-! ## Two valuations -/

namespace Valuation

variable {v v' : Valuation}

theorem sums_gains (h : ofPositions positions prices changes policy = .ok v)
    (h' : ofPositions positions prices' changes policy = .ok v')
    (hmerge : mergeChanges positions changes = .ok merged)
    (hgains : ∀ p ∈ merged, (p.added prices policy).Gains (p.added prices' policy)) :
    v.sums.Gains v'.sums where
  assets := figure_le isFigure_assets isFigure_assets h h' hmerge hmerge fun p hp ↦
    (hgains p hp).assets
  weighted := figure_le isFigure_weighted isFigure_weighted h h' hmerge hmerge fun p hp ↦
    (hgains p hp).weighted
  liabilities := figure_le isFigure_liabilities isFigure_liabilities h' h hmerge hmerge fun p hp ↦
    (hgains p hp).liabilities

/-- An account gains from prices that suit its positions: its assets, its weighted and its effective
collateral grow or stay, and its liabilities shrink or stay. So does what is required, and what is
available grows, unless a claim breaks its ties apart; then risk falls too, unless the two risks
break theirs apart. -/
theorem gains_of_suits (hpositions : ∀ p ∈ positions, p.check = .ok ())
    (hchanges : ∀ c ∈ changes, checkModifier c.token c.kind c.modifier = .ok ())
    (hpolicy : policy.check = .ok ())
    (hsuits : ∀ p ∈ positions, prices.Suits prices' p.kind p.token)
    (hsuits' : ∀ c ∈ changes, prices.Suits prices' c.kind c.token)
    (h : ofPositions positions prices changes policy = .ok v)
    (h' : ofPositions positions prices' changes policy = .ok v') :
    ∃ ρ ρ', v.risk = .ok ρ ∧ v'.risk = .ok ρ' ∧
      (v.assets.value ≤ v'.assets.value ∧ v.weighted.value ≤ v'.weighted.value ∧
        v.effective.value ≤ v'.effective.value ∧ v'.liabilities.value ≤ v.liabilities.value) ∧
      ((∀ merged, mergeChanges positions changes = .ok merged →
          ∀ p ∈ merged, ¬p.RepricedTiesApart p.modifier prices prices') →
        v'.required.value ≤ v.required.value ∧ v.available.value ≤ v'.available.value ∧
          (ρ' ≤ ρ ↔ ¬v'.RiskTiesApart v)) ∧
      ((∀ merged, mergeChanges positions changes = .ok merged →
          ∀ p ∈ merged, ∀ weight ∈ p.setupWeight? policy,
            ¬p.RepricedTiesApart weight prices prices') →
        v'.requiredSetup.value ≤ v.requiredSetup.value ∧
          v.availableSetup.value ≤ v'.availableSetup.value) := by
  obtain ⟨merged, hmerge⟩ := exists_mergeChanges h
  have hchecks := check_of_mergeChanges hpositions hchanges hmerge
  have hmerged : ∀ p ∈ merged, prices.Suits prices' p.kind p.token :=
    forall_mergeChanges (fun _ _ hp ↦ hp) hsuits hsuits' hmerge
  have happraised := (ofPositions_eq_ok h hmerge).1
  have happraised' := (ofPositions_eq_ok h' hmerge).1
  have hbalanced := (addParts_eq_sums h hmerge).2
  have hbalanced' := (addParts_eq_sums h' hmerge).2
  have hsound := isSound_of_checks hpositions hchanges hpolicy h
  have hsound' := isSound_of_checks hpositions hchanges hpolicy h'
  have hgains : v.sums.Gains v'.sums := sums_gains h h' hmerge fun p hp ↦ by
    obtain ⟨_, ha⟩ := happraised p hp
    obtain ⟨_, ha'⟩ := happraised' p hp
    exact Position.added_gains ha ha' (hchecks p hp) (hmerged p hp)
  simp only [Decimal.le_iff_toRat]
  refine ⟨_, _, risk_eq_ofDemand hsound, risk_eq_ofDemand hsound', ⟨hgains.assets, hgains.weighted,
    effective_mono hbalanced hbalanced' hgains, hgains.liabilities⟩, fun hties ↦ ?_, fun hties ↦ ?_⟩
  · have hrequired : v'.sums.required.toRat ≤ v.sums.required.toRat :=
      figure_le isFigure_required isFigure_required h' h hmerge hmerge fun p hp ↦ by
        obtain ⟨_, ha⟩ := happraised p hp
        obtain ⟨_, ha'⟩ := happraised' p hp
        exact (Position.required_le_iff ha ha' (hchecks p hp) (hmerged p hp)).2
          (hties merged hmerge p hp)
    exact ⟨hrequired, available_mono hbalanced hbalanced' hgains hrequired,
      risk_le_iff hsound hsound' hgains hrequired (risk_eq_ofDemand hsound)
        (risk_eq_ofDemand hsound')⟩
  · have hrequired : v'.sums.requiredSetup.toRat ≤ v.sums.requiredSetup.toRat :=
      figure_le isFigure_requiredSetup isFigure_requiredSetup h' h hmerge hmerge fun p hp ↦ by
        obtain ⟨_, ha⟩ := happraised p hp
        obtain ⟨_, ha'⟩ := happraised' p hp
        exact (Position.requiredSetup_le_iff ha ha' (hchecks p hp) hpolicy (hmerged p hp)).2
          (hties merged hmerge p hp)
    exact ⟨hrequired, availableSetup_mono hbalanced hbalanced' hgains hrequired⟩

end Valuation

/-! ## Prices of a deposit and a claim -/

namespace Sample

/-- A price of the first token and one of all others; a price of zero is none. -/
def quoted (first other : Decimal) : PriceSource := fun token ↦
  .ok (some ⟨if token = .ofTag 1 then first else other, 0, ⟨0⟩⟩)

/-- Ten deposited tokens, and six owed at a weight of three quarters. -/
def lent : List Position :=
  [deposited 1 (.clamp 10) 0, ⟨.ofTag 2, .ofTag 2, .clamp 6, 0, .claim, .lit 75 2⟩]

/-- Ten deposited tokens, and 0.2535… owed at a weight of sixteen hundredths that is written with 27
places. -/
def lentLong : List Position :=
  [deposited 1 (.clamp 10) 0, ⟨.ofTag 2, .ofTag 2, .clamp 253530120045645880299340642, -27, .claim,
    .lit 160000000000000000000000000 27⟩]

/-- One more token is deposited. -/
def oneMore : Change := ⟨.ofTag 1, .deposit, 0, .one, { units := 1 }⟩

end Sample

namespace Valuation

open Sample

/-- A deposit that had no price gets one, and the price of the claim halves: the shortfall is gone, and
risk falls. -/
theorem gains_of_priced_deposit :
    ∃ v v' ρ ρ', ofPositions lent (quoted .zero .one) [oneMore] .standard = .ok v ∧
      ofPositions lent (quoted .one (.lit 5 1)) [oneMore] .standard = .ok v' ∧
      v.available.value = (Decimal.lit 14).neg ∧ v'.available.value = .lit 40 1 ∧
      v.availableSetup.value ≤ v'.availableSetup.value ∧
      v.risk = .ok ρ ∧ v'.risk = .ok ρ' ∧ ρ' ≤ ρ := by
  obtain ⟨v, hv, hfigures⟩ : ∃ v, ofPositions lent (quoted .zero .one) [oneMore] .standard = .ok v ∧
      decide (v.weighted.value = .zero ∧ v.available.value = (Decimal.lit 14).neg) = true := by
    apply exists_ok_of_any
    rw [ofPositions_of_sorted rfl (by decide +kernel)]
    decide +kernel
  obtain ⟨v', hv', hfigures'⟩ : ∃ v,
      ofPositions lent (quoted .one (.lit 5 1)) [oneMore] .standard = .ok v ∧
        decide (v.weighted.value = .lit 11 ∧ v.available.value = .lit 40 1) = true := by
    apply exists_ok_of_any
    rw [ofPositions_of_sorted rfl (by decide +kernel)]
    decide +kernel
  obtain ⟨hweighted, havailable⟩ := of_decide_eq_true hfigures
  obtain ⟨hweighted', havailable'⟩ := of_decide_eq_true hfigures'
  obtain ⟨ρ, ρ', hρ, hρ', -, hrequired, hsetup⟩ := gains_of_suits (by decide) (by decide)
    (by decide) (by decide +kernel) (by decide +kernel) hv hv'
  -- no weight of these positions has more than 64 bits
  have hshort : ∀ merged, mergeChanges lent [oneMore] = .ok merged → ∀ p ∈ merged,
      p.modifier.isLong = false ∧ ∀ weight ∈ p.setupWeight? .standard, weight.isLong = false :=
    fun _ ↦ forall_mergeChanges (fun _ _ hp ↦ hp) (by decide +kernel) (by decide +kernel)
  obtain ⟨-, -, hiff⟩ := hrequired fun merged hmerge p hp ↦
    Position.not_repricedTiesApart (hshort merged hmerge p hp).1
  obtain ⟨-, hle⟩ := hsetup fun merged hmerge p hp weight hweight ↦
    Position.not_repricedTiesApart ((hshort merged hmerge p hp).2 weight hweight)
  refine ⟨v, v', ρ, ρ', hv, hv', havailable, havailable', hle, hρ, hρ', hiff.2 ?_⟩
  rintro ⟨_, _, _, _, htie⟩
  have hequal := htie.weighted
  rw [hweighted, hweighted'] at hequal
  exact absurd hequal (by decide +kernel)

/-- The price of a claim falls from five dollars by the last of its places. The claim is worth the same
number with one more place, and its quotient now breaks the tie upward: more is required, less is
available, and risk rises. -/
theorem requirement_grows_as_claim_loses :
    Policy.standard.check = .ok () ∧
      (∀ p ∈ lentLong, p.check = .ok () ∧ (quoted .one (.lit 5)).Suits
        (quoted .one (.lit 49999999999999999999999999999 28)) p.kind p.token) ∧
      ∃ v v' ρ ρ', ofPositions lentLong (quoted .one (.lit 5)) [] .standard = .ok v ∧
        ofPositions lentLong (quoted .one (.lit 49999999999999999999999999999 28)) [] .standard =
          .ok v' ∧
        v.risk = .ok ρ ∧ v'.risk = .ok ρ' ∧ ¬v'.required.value ≤ v.required.value ∧
        ¬v.available.value ≤ v'.available.value ∧ ¬ρ' ≤ ρ := by
  obtain ⟨v, hv, hfigures⟩ : ∃ v, ofPositions lentLong (quoted .one (.lit 5)) [] .standard = .ok v ∧
      decide (v.required.value = .lit 7922816251426433759354395062 27 ∧
        v.available.value = .lit 809533148345336839148901728 27 ∧
        v.risk = .ok (.finite (.lit 9190466851654663160851098272 28))) = true := by
    apply exists_ok_of_any
    rw [ofPositions_of_sorted rfl (by decide +kernel)]
    decide +kernel
  obtain ⟨v', hv', hfigures'⟩ : ∃ v,
      ofPositions lentLong (quoted .one (.lit 49999999999999999999999999999 28)) [] .standard = .ok v ∧
        decide (v.required.value = .lit 7922816251426433759354395063 27 ∧
          v.available.value = .lit 809533148345336839148901727 27 ∧
          v.risk = .ok (.finite (.lit 9190466851654663160851098273 28))) = true := by
    apply exists_ok_of_any
    rw [ofPositions_of_sorted rfl (by decide +kernel)]
    decide +kernel
  obtain ⟨hrequired, havailable, hrisk⟩ := of_decide_eq_true hfigures
  obtain ⟨hrequired', havailable', hrisk'⟩ := of_decide_eq_true hfigures'
  refine ⟨by decide, by decide +kernel, v, v', _, _, hv, hv', hrisk, hrisk', ?_, ?_, by decide⟩
  · rw [hrequired, hrequired']
    decide
  · rw [havailable, havailable']
    decide

end Valuation

end MarginAccount
