import MarginAccount.Proofs.Account.Valuation
import MarginAccount.Proofs.Decimal.FixedPoint

/-! # What a position adds

A position that is appraised adds what it contributes at its worth, which is the rounded product of
its quantity and its price and zero without a price. So one equation covers a position that drops
out of the sums and one that stays in: a deposit adds its worth and a share of it, a claim its worth
and two quotients of it.
-/

namespace MarginAccount

variable {prices : PriceSource} {policy : Policy} {p : Position} {value weight : Decimal}
  {c : Contribution} {part : Part}

/-! ## Weights and fractions -/

theorem checkModifier_eq_ok {token : TokenId} {kind : PositionKind} {modifier : Decimal} :
    checkModifier token kind modifier = .ok () ↔
      0 ≤ modifier.toRat ∧ modifier.toRat ≤ 1 ∧ (kind = .claim → modifier.toRat ≠ 0) := by
  unfold checkModifier
  split
  · rename_i hrange
    rw [Decimal.lt_iff_toRat, Decimal.lt_iff_toRat, Decimal.toRat_zero, Decimal.toRat_one] at hrange
    refine iff_of_false (fun h ↦ by cases h) fun ⟨h₀, h₁, _⟩ ↦ ?_
    rcases hrange with h | h <;> linarith
  · rename_i hrange
    rw [Decimal.lt_iff_toRat, Decimal.lt_iff_toRat, Decimal.toRat_zero, Decimal.toRat_one, not_or,
      not_lt, not_lt] at hrange
    split
    · rename_i hzero
      rw [Decimal.isZero_iff_toRat] at hzero
      exact iff_of_false (fun h ↦ by cases h) fun ⟨_, _, h⟩ ↦ h hzero.1 hzero.2
    · rename_i hzero
      rw [Decimal.isZero_iff_toRat, not_and] at hzero
      exact iff_of_true rfl ⟨hrange.1, hrange.2, hzero⟩

theorem Policy.isShare_iff {d : Decimal} : isShare d = true ↔ 0 < d.toRat ∧ d.toRat ≤ 1 := by
  rw [isShare, Bool.and_eq_true, decide_eq_true_iff, decide_eq_true_iff, Decimal.lt_iff_toRat,
    Decimal.le_iff_toRat, Decimal.toRat_zero, Decimal.toRat_one]

theorem Policy.isShare_of_check (h : policy.check = .ok ()) :
    isShare policy.setupFraction = true ∧ isShare policy.utilizationCap = true := by
  rw [check] at h
  split at h
  · cases h
  · split at h
    · cases h
    · rename_i hfraction
      split at h
      · cases h
      · rename_i hcap
        simp only [Bool.not_eq_true', Bool.not_eq_false] at hfraction hcap
        exact ⟨hfraction, hcap⟩

/-- A checked policy sizes new trades with a share of the allowance. -/
theorem Policy.setupFraction_of_check (h : policy.check = .ok ()) :
    0 < policy.setupFraction.toRat ∧ policy.setupFraction.toRat ≤ 1 :=
  isShare_iff.1 (isShare_of_check h).1

/-- A checked policy lets a borrow fill a share of the pool. -/
theorem Policy.utilizationCap_of_check (h : policy.check = .ok ()) :
    0 < policy.utilizationCap.toRat ∧ policy.utilizationCap.toRat ≤ 1 :=
  isShare_iff.1 (isShare_of_check h).2

/-! ## Worth -/

/-- The usable price of a token, zero where there is none. -/
def PriceSource.rate (source : PriceSource) (token : TokenId) : ℚ :=
  (source.quote? token).elim 0 (·.toRat)

theorem PriceSource.rate_nonneg (source : PriceSource) (token : TokenId) : 0 ≤ source.rate token := by
  rw [rate]
  cases h : source.quote? token with
  | none => exact le_rfl
  | some price => exact (Decimal.isPositive_iff.1 (isPositive_of_quote? h)).le

namespace Position

/-- The dollar value of a position, zero without a usable price. -/
def worth (p : Position) (prices : PriceSource) : Decimal :=
  (p.quantity?.bind fun quantity ↦ (prices.quote? p.token).bind quantity.mul?).getD .zero

/-- A value that is returned is the worth; none is returned for a position without a price. -/
theorem worth_of_value {usd? : Option Usd} (h : p.value prices = .ok usd?) :
    p.worth prices = (usd?.getD .zero).value := by
  obtain ⟨quantity, hquantity, ⟨hquote, rfl⟩ | ⟨price, value, hquote, hmul, rfl⟩⟩ := value_eq_ok h
  · rw [worth, hquantity, Option.bind_some, hquote]
    rfl
  · rw [worth, hquantity, Option.bind_some, hquote, Option.bind_some, hmul]
    rfl

/-! ## Contributions -/

/-- The weight of a claim in what it requires for setting up trades. -/
def setupWeight? (p : Position) (policy : Policy) : Option Decimal :=
  (p.modifier.mul? policy.setupFraction).filter (!·.isZero)

theorem setupWeight?_eq_some (h : p.setupWeight? policy = some weight) :
    p.modifier.mul? policy.setupFraction = some weight ∧ weight.toRat ≠ 0 := by
  obtain ⟨hweight, hnonzero⟩ := Option.filter_eq_some_iff.1 h
  exact ⟨hweight, Decimal.isZero_eq_false_iff.1 (by simpa using hnonzero)⟩

theorem contribution_of_deposit (hk : p.kind = .deposit) (h : p.contribution value policy = .ok c) :
    ∃ weighted, value.mul? p.modifier = some weighted ∧ c = { assets := value, weighted } := by
  simp only [contribution, hk, bind_eq_ok, elim_error_eq_ok, pure_eq_ok] at h
  obtain ⟨weighted, hweighted, rfl⟩ := h
  exact ⟨weighted, hweighted, rfl⟩

theorem contribution_of_claim (hk : p.kind = .claim) (h : p.contribution value policy = .ok c) :
    ∃ weight required requiredSetup, p.setupWeight? policy = some weight ∧
      value.div? p.modifier = some required ∧ value.div? weight = some requiredSetup ∧
      c = { liabilities := value, required, requiredSetup } := by
  simp only [contribution, hk] at h
  split at h
  · cases h
  · simp only [bind_eq_ok, elim_error_eq_ok, pure_eq_ok] at h
    obtain ⟨weight, hweight, required, hrequired, requiredSetup, hsetup, rfl⟩ := h
    exact ⟨weight, required, requiredSetup, hweight, hrequired, hsetup, rfl⟩

/-! ## Appraisals -/

/-- An appraisal is a part for a position that counts and has a price, and none for any other, which
is of no value or worth nothing. -/
theorem appraise_eq_ok {a : Appraisal} (h : p.appraise prices policy = .ok a) :
    (a.part? = none ∧ (p.kind = .noValue ∨ p.worth prices = .zero)) ∨
      ∃ c, p.kind ≠ .noValue ∧ p.contribution (p.worth prices) policy = .ok c ∧
        a = .priced ⟨p.address, p.token, c⟩ := by
  by_cases hk : p.kind = .noValue
  · rw [appraise, if_pos hk] at h
    cases h
    exact .inl ⟨rfl, .inl hk⟩
  · rw [appraise, if_neg hk, bind_eq_ok] at h
    obtain ⟨usd?, hvalue, h⟩ := h
    rw [worth_of_value hvalue]
    cases usd? with
    | none =>
      refine .inl ⟨?_, .inr rfl⟩
      dsimp only at h
      split at h <;> cases h <;> rfl
    | some usd =>
      dsimp only at h
      rw [bind_eq_ok] at h
      obtain ⟨c, hc, h⟩ := h
      rw [Outcome.ofRefusable_eq_ok] at hc
      rw [pure_eq_ok] at h
      exact .inr ⟨c, hk, hc, h.symm⟩

theorem quantity?_nonneg {quantity : Decimal} (h : p.quantity? = some quantity) :
    0 ≤ quantity.toRat :=
  Decimal.toRat_nonneg_of_ofFixedPoint? h

/-- The worth of a position that counts is its quantity at the price of its token, rounded. -/
theorem worth_roundsEven {a : Appraisal} (h : p.appraise prices policy = .ok a)
    (hk : p.kind ≠ .noValue) : ∃ quantity, p.quantity? = some quantity ∧ 0 ≤ quantity.toRat ∧
      RoundsEven (quantity.toRat * prices.rate p.token) (p.worth prices) := by
  rw [appraise, if_neg hk, bind_eq_ok] at h
  obtain ⟨usd?, hvalue, -⟩ := h
  obtain ⟨quantity, hquantity, hprice⟩ := value_eq_ok hvalue
  refine ⟨quantity, hquantity, quantity?_nonneg hquantity, ?_⟩
  rw [worth, hquantity, Option.bind_some, PriceSource.rate]
  rcases hprice with ⟨hquote, -⟩ | ⟨price, value, hquote, hmul, -⟩
  · rw [hquote, Option.bind_none, Option.getD_none, Option.elim_none, mul_zero, ← Decimal.toRat_zero]
    exact .self _
  · rw [hquote, Option.bind_some, hmul, Option.getD_some, Option.elim_some]
    exact Decimal.mul?_roundsEven hmul

theorem worth_nonneg {a : Appraisal} (h : p.appraise prices policy = .ok a) (hk : p.kind ≠ .noValue) :
    0 ≤ (p.worth prices).toRat := by
  obtain ⟨quantity, -, hquantity, hround⟩ := worth_roundsEven h hk
  exact hround.nonneg (mul_nonneg hquantity (prices.rate_nonneg p.token))

theorem part?_of_appraise {a : Appraisal} (h : p.appraise prices policy = .ok a) :
    p.part? prices policy = a.part? := by
  rw [part?, h]
  rfl

/-- The part of a position stands in its slot. -/
theorem part?_slot (h : p.part? prices policy = some part) :
    part.address = p.address ∧ part.token = p.token := by
  cases happraise : p.appraise prices policy with
  | error f =>
    rw [part?, happraise] at h
    cases h
  | ok a =>
    rw [part?_of_appraise happraise] at h
    rcases appraise_eq_ok happraise with ⟨hnone, -⟩ | ⟨c, -, -, rfl⟩
    · rw [hnone] at h
      cases h
    · cases h
      exact ⟨rfl, rfl⟩

/-! ## What is added -/

/-- What a position adds to the sums, nothing if it has no part in them. -/
def added (p : Position) (prices : PriceSource) (policy : Policy) : Contribution :=
  (p.part? prices policy).elim .zero (·.contribution)

variable {a : Appraisal}

theorem added_of_noValue (hk : p.kind = .noValue) : p.added prices policy = .zero := by
  have h : p.appraise prices policy = .ok .skipped := by
    rw [appraise, if_pos hk]
    rfl
  rw [added, part?_of_appraise h]
  rfl

theorem added_of_deposit (h : p.appraise prices policy = .ok a) (hk : p.kind = .deposit) :
    ∃ weighted, (p.worth prices).mul? p.modifier = some weighted ∧
      p.added prices policy = { assets := p.worth prices, weighted } := by
  rw [added, part?_of_appraise h]
  rcases appraise_eq_ok h with ⟨hnone, hzero⟩ | ⟨c, -, hc, rfl⟩
  · rw [hzero.resolve_left (by rw [hk]; decide), hnone]
    exact ⟨.zero, rfl, rfl⟩
  · exact contribution_of_deposit hk hc

/-- Only claims require collateral. -/
theorem required_of_not_claim (h : p.appraise prices policy = .ok a) (hk : p.kind ≠ .claim) :
    (p.added prices policy).required = .zero ∧ (p.added prices policy).requiredSetup = .zero := by
  cases hkind : p.kind with
  | noValue =>
    rw [added_of_noValue hkind]
    exact ⟨rfl, rfl⟩
  | deposit =>
    obtain ⟨weighted, -, hadded⟩ := added_of_deposit h hkind
    rw [hadded]
    exact ⟨rfl, rfl⟩
  | claim => exact absurd hkind hk

/-- A claim adds its worth and two quotients of it. One without a weight for setting up trades can
only be worth nothing. -/
theorem added_of_claim (h : p.appraise prices policy = .ok a) (hk : p.kind = .claim)
    (hmodifier : p.modifier.toRat ≠ 0) :
    ∃ required requiredSetup, (p.worth prices).div? p.modifier = some required ∧
      (∀ weight ∈ p.setupWeight? policy, (p.worth prices).div? weight = some requiredSetup) ∧
      (p.setupWeight? policy = none → p.worth prices = .zero ∧ requiredSetup = .zero) ∧
      p.added prices policy = { liabilities := p.worth prices, required, requiredSetup } := by
  have hdiv {d : Decimal} (hd : d.toRat ≠ 0) : Decimal.zero.div? d = some .zero := by
    rw [Decimal.div?, Decimal.isZero_eq_false_iff.2 hd]
    rfl
  rw [added, part?_of_appraise h]
  rcases appraise_eq_ok h with ⟨hnone, hzero⟩ | ⟨c, -, hc, rfl⟩
  · rw [hzero.resolve_left (by rw [hk]; decide), hnone]
    exact ⟨.zero, .zero, hdiv hmodifier, fun weight hweight ↦ hdiv (setupWeight?_eq_some hweight).2,
      fun _ ↦ ⟨rfl, rfl⟩, rfl⟩
  · obtain ⟨weight, required, requiredSetup, hweight, hrequired, hsetup, rfl⟩ :=
      contribution_of_claim hk hc
    rw [hweight]
    refine ⟨required, requiredSetup, hrequired, ?_, fun hnone ↦ (by cases hnone), rfl⟩
    rintro _ ⟨⟩
    exact hsetup

end Position

end MarginAccount
