import MarginAccount.Proofs.Account.Figures

/-! # Valuations that need no rounding

Let every number that a valuation computes be a whole number of units of one place, 28 at most, and
let the totals be short enough for a decimal at that place. Then nothing is rounded: a product or a
quotient is a decimal as it is, a partial sum is no longer than its total, and a difference no longer
than one of its sides. `FitsPlace` states this with rational numbers only, of each position and of
the totals, and `Valuation.exists_exact_iff` concludes that there is a valuation and that it shows
the exact sums and differences.
-/

namespace MarginAccount

variable {prices : PriceSource} {policy : Policy} {p : Position}

/-! ## Columns -/

/-- What a valuation sums over the positions. -/
inductive Column where
  | assets
  | liabilities
  | weighted
  | required
  | requiredSetup

theorem Column.forall_iff {P : Column → Prop} : (∀ column, P column) ↔
    P .assets ∧ P .liabilities ∧ P .weighted ∧ P .required ∧ P .requiredSetup := by
  refine ⟨fun h ↦ ⟨h _, h _, h _, h _, h _⟩, fun ⟨ha, hl, hw, hr, hs⟩ column ↦ ?_⟩
  cases column <;> assumption

instance (P : Column → Prop) [DecidablePred P] : Decidable (∀ column, P column) :=
  decidable_of_iff _ Column.forall_iff.symm

namespace Contribution

variable {a b : Contribution}

def get (c : Contribution) : Column → Decimal
  | .assets => c.assets
  | .liabilities => c.liabilities
  | .weighted => c.weighted
  | .required => c.required
  | .requiredSetup => c.requiredSetup

@[simp] theorem get_zero (column : Column) : zero.get column = .zero := by
  cases column <;> rfl

/-- Columns whose sums are decimals are added without rounding. -/
theorem exists_add?_of_fits (h : ∀ column, Fits ((a.get column).toRat + (b.get column).toRat)) :
    ∃ c, a.add? b = some c ∧
      ∀ column, (c.get column).toRat = (a.get column).toRat + (b.get column).toRat := by
  choose sum hsum hvalue using fun column ↦ Decimal.exists_add?_of_fits (h column)
  refine ⟨⟨sum .assets, sum .liabilities, sum .weighted, sum .required, sum .requiredSetup⟩, ?_,
    fun column ↦ ?_⟩
  · have hassets : a.assets.add? b.assets = _ := hsum .assets
    have hliabilities : a.liabilities.add? b.liabilities = _ := hsum .liabilities
    have hweighted : a.weighted.add? b.weighted = _ := hsum .weighted
    have hrequired : a.required.add? b.required = _ := hsum .required
    have hsetup : a.requiredSetup.add? b.requiredSetup = _ := hsum .requiredSetup
    rw [add?, hassets, hliabilities, hweighted, hrequired, hsetup]
    rfl
  · cases column <;> exact hvalue _

end Contribution

/-! ## Shares in exact numbers -/

namespace PositionKind

variable {value weight fraction : ℚ}

/-- What a value adds to a column. -/
def share (kind : PositionKind) (value weight fraction : ℚ) (column : Column) : ℚ :=
  match kind, column with
  | .deposit, .assets => value
  | .deposit, .weighted => value * weight
  | .claim, .liabilities => value
  | .claim, .required => value / weight
  | .claim, .requiredSetup => value / (weight * fraction)
  | _, _ => 0

theorem share_zero (kind : PositionKind) (weight fraction : ℚ) (column : Column) :
    kind.share 0 weight fraction column = 0 := by
  cases kind <;> cases column <;> simp [share]

theorem share_nonneg (kind : PositionKind) (hvalue : 0 ≤ value) (hweight : 0 ≤ weight)
    (hfraction : 0 ≤ fraction) (column : Column) : 0 ≤ kind.share value weight fraction column := by
  cases kind <;> cases column <;> dsimp only [share] <;> positivity

theorem share_weighted_le (kind : PositionKind) (hvalue : 0 ≤ value) (hweight : weight ≤ 1) :
    kind.share value weight fraction .weighted ≤ kind.share value weight fraction .assets := by
  cases kind
  · exact mul_le_of_le_one_right hvalue hweight
  all_goals exact le_rfl

theorem share_required_le (kind : PositionKind) (hvalue : 0 ≤ value) (hweight : 0 ≤ weight)
    (hfraction : 0 < fraction) (hone : fraction ≤ 1) :
    kind.share value weight fraction .required ≤
      kind.share value weight fraction .requiredSetup := by
  cases kind
  case claim =>
    rw [share, share, ← div_div]
    exact le_div_self (div_nonneg hvalue hweight) hfraction hone
  all_goals exact le_rfl

end PositionKind

namespace Position

/-- The dollar value of the quantity, zero without a usable price. -/
def exactWorth (p : Position) (prices : PriceSource) : ℚ :=
  p.quantity?.elim 0 (·.toRat) * prices.rate p.token

/-- What a position adds to a column. -/
def share (p : Position) (prices : PriceSource) (policy : Policy) (column : Column) : ℚ :=
  p.kind.share (p.exactWorth prices) p.modifier.toRat policy.setupFraction.toRat column

theorem exactWorth_nonneg (p : Position) (prices : PriceSource) : 0 ≤ p.exactWorth prices := by
  refine mul_nonneg ?_ (prices.rate_nonneg p.token)
  cases h : p.quantity? with
  | none => exact le_rfl
  | some quantity => exact quantity?_nonneg h

theorem share_of_unpriced (h : prices.quote? p.token = none) (policy : Policy) (column : Column) :
    p.share prices policy column = 0 := by
  rw [share, exactWorth, PriceSource.rate, h, Option.elim_none, mul_zero, PositionKind.share_zero]

end Position

/-! ## Numbers of one place -/

/-- The numbers that go into the appraisal of a position are whole numbers of units of a place. -/
@[mk_iff]
structure Position.IsWholeAt (s : ℕ) (p : Position) (prices : PriceSource) (policy : Policy) :
    Prop where
  quantity : p.kind ≠ .noValue → p.quantity?.isSome = true
  share : ∀ column, MarginAccount.IsWholeAt s (p.share prices policy column)
  setupWeight : p.kind = .claim → ∀ _ ∈ prices.quote? p.token,
    MarginAccount.IsWholeAt s (p.modifier.toRat * policy.setupFraction.toRat)

instance (s : ℕ) (p : Position) (prices : PriceSource) (policy : Policy) :
    Decidable (p.IsWholeAt s prices policy) :=
  decidable_of_iff' _ (Position.isWholeAt_iff ..)

/-- The columns of a contribution are whole numbers of units of a place and not negative. -/
structure Contribution.IsWholeAt (s : ℕ) (c : Contribution) : Prop where
  whole : ∀ column, MarginAccount.IsWholeAt s (c.get column).toRat
  nonneg : ∀ column, 0 ≤ (c.get column).toRat

theorem Contribution.IsWholeAt.zero (s : ℕ) : Contribution.zero.IsWholeAt s where
  whole column := by
    rw [get_zero, Decimal.toRat_zero]
    exact .zero s
  nonneg column := by rw [get_zero, Decimal.toRat_zero]

/-- What positions add to a column. -/
def exactTotal (positions : List Position) (prices : PriceSource) (policy : Policy)
    (column : Column) : ℚ :=
  (positions.map (·.share prices policy column)).sum

/-- The numbers of the positions are whole numbers of units of a place, and what the deposits are
worth and what the claims take altogether is short enough for a decimal. -/
@[mk_iff]
structure FitsPlace (s : ℕ) (positions : List Position) (prices : PriceSource) (policy : Policy) :
    Prop where
  place : s ≤ 28
  whole : ∀ p ∈ positions, p.IsWholeAt s prices policy
  deposits : exactTotal positions prices policy .assets * 10 ^ s < 2 ^ 96
  claims : (exactTotal positions prices policy .liabilities +
    exactTotal positions prices policy .requiredSetup) * 10 ^ s < 2 ^ 96

instance (s : ℕ) (positions : List Position) (prices : PriceSource) (policy : Policy) :
    Decidable (FitsPlace s positions prices policy) :=
  decidable_of_iff' _ (fitsPlace_iff ..)

section Totals

variable {positions : List Position} {s : ℕ}

theorem Position.share_nonneg (hp : p.check = .ok ()) (hpolicy : policy.check = .ok ())
    (column : Column) : 0 ≤ p.share prices policy column :=
  p.kind.share_nonneg (p.exactWorth_nonneg prices) (checkModifier_eq_ok.1 hp).1
    (Policy.setupFraction_of_check hpolicy).1.le column

theorem exactTotal_mono {column column' : Column}
    (h : ∀ p ∈ positions, p.share prices policy column ≤ p.share prices policy column') :
    exactTotal positions prices policy column ≤ exactTotal positions prices policy column' :=
  List.sum_le_sum h

variable (hpositions : ∀ p ∈ positions, p.check = .ok ()) (hpolicy : policy.check = .ok ())

include hpositions hpolicy

theorem exactTotal_nonneg (column : Column) : 0 ≤ exactTotal positions prices policy column := by
  refine List.sum_nonneg fun x hx ↦ ?_
  obtain ⟨p, hp, rfl⟩ := List.mem_map.1 hx
  exact p.share_nonneg (hpositions p hp) hpolicy column

theorem share_le_exactTotal (hp : p ∈ positions) (column : Column) :
    p.share prices policy column ≤ exactTotal positions prices policy column := by
  refine List.single_le_sum (fun x hx ↦ ?_) _ (List.mem_map_of_mem hp)
  obtain ⟨p, hp, rfl⟩ := List.mem_map.1 hx
  exact p.share_nonneg (hpositions p hp) hpolicy column

omit hpolicy in
/-- Collateral is weighed at no more than it is worth. -/
theorem exactTotal_weighted_le :
    exactTotal positions prices policy .weighted ≤ exactTotal positions prices policy .assets :=
  exactTotal_mono fun p hp ↦ p.kind.share_weighted_le (p.exactWorth_nonneg prices)
    (checkModifier_eq_ok.1 (hpositions p hp)).2.1

/-- Setting up trades requires no less. -/
theorem exactTotal_required_le : exactTotal positions prices policy .required ≤
    exactTotal positions prices policy .requiredSetup := by
  obtain ⟨hfraction, hone⟩ := Policy.setupFraction_of_check hpolicy
  exact exactTotal_mono fun p hp ↦ p.kind.share_required_le (p.exactWorth_nonneg prices)
    (checkModifier_eq_ok.1 (hpositions p hp)).1 hfraction hone

/-- Every column is short enough. -/
theorem FitsPlace.exactTotal_lt (h : FitsPlace s positions prices policy) (column : Column) :
    exactTotal positions prices policy column * 10 ^ s < 2 ^ 96 := by
  have hnonneg : ∀ column, 0 ≤ exactTotal positions prices policy column :=
    exactTotal_nonneg hpositions hpolicy
  have hweighted : exactTotal positions prices policy .weighted ≤
      exactTotal positions prices policy .assets := exactTotal_weighted_le hpositions
  have hrequired : exactTotal positions prices policy .required ≤
      exactTotal positions prices policy .requiredSetup :=
    exactTotal_required_le hpositions hpolicy
  have hbelow {x y : ℚ} (hle : x ≤ y) (hlt : y * 10 ^ s < 2 ^ 96) : x * 10 ^ s < 2 ^ 96 :=
    (mul_le_mul_of_nonneg_right hle (by positivity)).trans_lt hlt
  cases column with
  | assets => exact h.deposits
  | weighted => exact hbelow hweighted h.deposits
  | liabilities => exact hbelow (le_add_of_nonneg_right (hnonneg _)) h.claims
  | requiredSetup => exact hbelow (le_add_of_nonneg_left (hnonneg _)) h.claims
  | required => exact hbelow (hrequired.trans (le_add_of_nonneg_left (hnonneg _))) h.claims

end Totals

/-! ## Appraisals that need no rounding -/

namespace Position

variable {value : Decimal} {s : ℕ}

/-- What a value adds is added as it is where it is a decimal in every column. A claim is divided by
a decimal, so the product of its weight and the fraction must be one too. -/
theorem exists_contribution_of_fits
    (hfits : ∀ column, Fits (p.kind.share value.toRat p.modifier.toRat policy.setupFraction.toRat
      column))
    (hclaim : p.kind = .claim → p.modifier.toRat * policy.setupFraction.toRat ≠ 0 ∧
      Fits (p.modifier.toRat * policy.setupFraction.toRat)) :
    ∃ c, p.contribution value policy = .ok c ∧ ∀ column, (c.get column).toRat =
      p.kind.share value.toRat p.modifier.toRat policy.setupFraction.toRat column := by
  cases hk : p.kind <;> rw [hk] at hfits
  case deposit =>
    obtain ⟨weighted, hmul, hweighted⟩ := Decimal.exists_mul?_of_fits (hfits .weighted)
    refine ⟨{ assets := value, weighted }, ?_, fun column ↦ ?_⟩
    · simp only [contribution, hk, hmul]
      rfl
    · cases column
      case assets => rfl
      case weighted => exact hweighted
      all_goals exact Decimal.toRat_zero
  case claim =>
    obtain ⟨hne, hproduct⟩ := hclaim hk
    have hmodifier := left_ne_zero_of_mul hne
    obtain ⟨weight, hmul, hweight⟩ := Decimal.exists_mul?_of_fits hproduct
    rw [← hweight] at hne
    obtain ⟨required, hdiv, hrequired⟩ := Decimal.exists_div?_of_fits hmodifier (hfits .required)
    obtain ⟨requiredSetup, hdiv', hsetup⟩ := Decimal.exists_div?_of_fits (a := value) hne (by
      rw [hweight]
      exact hfits .requiredSetup)
    refine ⟨{ liabilities := value, required, requiredSetup }, ?_, fun column ↦ ?_⟩
    · have hsetupWeight : p.setupWeight? policy = some weight := by
        rw [setupWeight?, hmul, Option.filter_some, Decimal.isZero_eq_false_iff.2 hne]
        rfl
      simp only [contribution, hk, Decimal.isZero_eq_false_iff.2 hmodifier, Bool.false_eq_true,
        if_false, bind_eq_ok, elim_error_eq_ok, pure_eq_ok]
      exact ⟨weight, hsetupWeight, required, hdiv, requiredSetup, hdiv', rfl⟩
    · rw [hweight] at hsetup
      cases column
      case liabilities => rfl
      case required => exact hrequired
      case requiredSetup => exact hsetup
      all_goals exact Decimal.toRat_zero
  case noValue =>
    refine ⟨.zero, ?_, fun column ↦ ?_⟩
    · rw [contribution, hk]
      rfl
    · rw [Contribution.get_zero, Decimal.toRat_zero]
      rfl

/-- A dollar value that is a decimal is returned as it is. -/
theorem exists_value_of_fits {quantity : Decimal} {price? : Option Decimal}
    (hquantity : p.quantity? = some quantity) (hprice : prices.usd? p.token = .ok price?)
    (hfits : Fits (p.exactWorth prices)) :
    (prices.quote? p.token = none ∧ p.value prices = .ok none) ∨
      ∃ price value, prices.quote? p.token = some price ∧ p.value prices = .ok (some ⟨value⟩) ∧
        value.toRat = p.exactWorth prices := by
  have hquote := PriceSource.quote?_of_ok hprice
  rw [exactWorth, hquantity, Option.elim_some, PriceSource.rate] at hfits ⊢
  rw [value, hquantity, hprice]
  cases price? with
  | none => exact .inl ⟨hquote, rfl⟩
  | some price =>
    rw [hquote, Option.elim_some] at hfits ⊢
    obtain ⟨value, hmul, hvalue⟩ := Decimal.exists_mul?_of_fits hfits
    refine .inr ⟨price, value, rfl, ?_, hvalue⟩
    change Outcome.ofOption (ValuationError.valueOverflow p.token) (quantity.mul? price) >>= _ = _
    rw [hmul]
    rfl

/-- An appraisal needs an answer to the look-up of the price, unless the position is of no value. -/
theorem usd?_of_appraise {a : Appraisal} (h : p.appraise prices policy = .ok a)
    (hk : p.kind ≠ .noValue) : ∃ price?, prices.usd? p.token = .ok price? := by
  rw [appraise, if_neg hk, bind_eq_ok] at h
  obtain ⟨usd?, hvalue, -⟩ := h
  rw [value, bind_eq_ok] at hvalue
  obtain ⟨quantity, -, hvalue⟩ := hvalue
  rw [bind_eq_ok] at hvalue
  obtain ⟨price?, hprice, -⟩ := hvalue
  exact ⟨price?, Outcome.ofFaultable_eq_ok.1 hprice⟩

/-- The dollar value is in a column, unless the position is of no value. -/
theorem exists_share_eq (p : Position) (prices : PriceSource) (policy : Policy)
    (hk : p.kind ≠ .noValue) : ∃ column, p.share prices policy column = p.exactWorth prices := by
  cases h : p.kind with
  | deposit => exact ⟨.assets, by rw [share, h, PositionKind.share]⟩
  | claim => exact ⟨.liabilities, by rw [share, h, PositionKind.share]⟩
  | noValue => exact absurd h hk

/-- A checked position whose numbers are short enough is appraised and adds its shares. -/
theorem exists_appraise_of_isWholeAt (h : p.IsWholeAt s prices policy) (hs : s ≤ 28)
    (hp : p.check = .ok ()) (hpolicy : policy.check = .ok ())
    (hlt : ∀ column, p.share prices policy column * 10 ^ s < 2 ^ 96)
    (hprice : p.kind ≠ .noValue → ∃ price?, prices.usd? p.token = .ok price?) :
    (∃ a, p.appraise prices policy = .ok a) ∧
      ∀ column, ((p.added prices policy).get column).toRat = p.share prices policy column := by
  have hfits (column : Column) : Fits (p.share prices policy column) := by
    refine .of_isWholeAt (h.share column) hs ?_
    rw [abs_of_nonneg (p.share_nonneg hp hpolicy column)]
    exact hlt column
  by_cases hk : p.kind = .noValue
  · refine ⟨⟨.skipped, by rw [appraise, if_pos hk]; rfl⟩, fun column ↦ ?_⟩
    rw [added_of_noValue hk, Contribution.get_zero, Decimal.toRat_zero, share, hk]
    rfl
  · obtain ⟨quantity, hquantity⟩ := Option.isSome_iff_exists.1 (h.quantity hk)
    obtain ⟨price?, hprice⟩ := hprice hk
    obtain ⟨column, hcolumn⟩ := p.exists_share_eq prices policy hk
    rcases exists_value_of_fits hquantity hprice (hcolumn ▸ hfits column) with
      ⟨hquote, hvalue⟩ | ⟨price, value, hquote, hvalue, hworth⟩
    · have happraise : p.appraise prices policy =
          .ok (if p.isEmpty then .skipped else .unpriced) := by
        rw [appraise, if_neg hk, hvalue]
        rfl
      have hpart : (if p.isEmpty then Appraisal.skipped else .unpriced).part? = none := by
        split <;> rfl
      refine ⟨⟨_, happraise⟩, fun column ↦ ?_⟩
      rw [share_of_unpriced hquote, added, part?_of_appraise happraise, hpart, Option.elim_none,
        Contribution.get_zero, Decimal.toRat_zero]
    · have hclaim (hclaim : p.kind = .claim) :
          p.modifier.toRat * policy.setupFraction.toRat ≠ 0 ∧
            Fits (p.modifier.toRat * policy.setupFraction.toRat) := by
        obtain ⟨hfraction, hone⟩ := Policy.setupFraction_of_check hpolicy
        have hpos := mul_pos (modifier_pos hp hclaim) hfraction
        refine ⟨hpos.ne', .of_isWholeAt (h.setupWeight hclaim price hquote) hs ?_⟩
        have hle : p.modifier.toRat * policy.setupFraction.toRat ≤ 1 :=
          mul_le_one₀ (checkModifier_eq_ok.1 hp).2.1 hfraction.le hone
        calc |p.modifier.toRat * policy.setupFraction.toRat| * 10 ^ s ≤ 1 * 10 ^ 28 := by
              rw [abs_of_pos hpos]
              gcongr
              norm_num
          _ < 2 ^ 96 := by norm_num
      simp only [share, ← hworth] at hfits
      obtain ⟨c, hc, hcolumns⟩ := exists_contribution_of_fits hfits hclaim
      have happraise : p.appraise prices policy = .ok (.priced ⟨p.address, p.token, c⟩) := by
        rw [appraise, if_neg hk, hvalue]
        change (Outcome.ofRefusable (p.contribution value policy) >>= _) = _
        rw [hc]
        rfl
      refine ⟨⟨_, happraise⟩, fun column ↦ ?_⟩
      rw [added, part?_of_appraise happraise, share, ← hworth]
      exact hcolumns column

theorem isWholeAt_added (h : p.IsWholeAt s prices policy) (hp : p.check = .ok ())
    (hpolicy : policy.check = .ok ())
    (hadded : ∀ column, ((p.added prices policy).get column).toRat = p.share prices policy column) :
    (p.added prices policy).IsWholeAt s where
  whole column := by
    rw [hadded]
    exact h.share column
  nonneg column := by
    rw [hadded]
    exact p.share_nonneg hp hpolicy column

end Position

/-! ## Sums that need no rounding -/

namespace Valuation

variable {positions merged : List Position} {changes : List Change} {s : ℕ} {v : Valuation}

/-- Parts whose totals are short enough are added without rounding: what is added so far is no
longer than what is added in the end. -/
theorem exists_addParts_of_isWholeAt {parts : List Part} {total : Contribution} (hs : s ≤ 28)
    (htotal : total.IsWholeAt s) (hparts : ∀ part ∈ parts, part.contribution.IsWholeAt s)
    (hlt : ∀ column, ((total.get column).toRat +
      (parts.map fun part ↦ (part.contribution.get column).toRat).sum) * 10 ^ s < 2 ^ 96) :
    ∃ sum, addParts total parts = .ok sum ∧ sum.IsWholeAt s ∧ ∀ column,
      (sum.get column).toRat = (total.get column).toRat +
        (parts.map fun part ↦ (part.contribution.get column).toRat).sum := by
  induction parts generalizing total with
  | nil => exact ⟨total, rfl, htotal, fun column ↦ by rw [List.map_nil, List.sum_nil, add_zero]⟩
  | cons part parts ih =>
    rw [List.forall_mem_cons] at hparts
    simp only [List.map_cons, List.sum_cons, ← add_assoc] at hlt ⊢
    have hrest (column : Column) :
        0 ≤ (parts.map fun part ↦ (part.contribution.get column).toRat).sum := by
      refine List.sum_nonneg fun x hx ↦ ?_
      obtain ⟨part, hpart, rfl⟩ := List.mem_map.1 hx
      exact (hparts.2 part hpart).nonneg column
    have hwhole (column : Column) := (htotal.whole column).add (hparts.1.whole column)
    have hnonneg (column : Column) := add_nonneg (htotal.nonneg column) (hparts.1.nonneg column)
    obtain ⟨next, hnext, hcolumns⟩ := Contribution.exists_add?_of_fits fun column ↦ by
      refine Fits.of_isWholeAt (hwhole column) hs ((mul_le_mul_of_nonneg_right ?_ ?_).trans_lt
        (hlt column))
      · rw [abs_of_nonneg (hnonneg column)]
        exact le_add_of_nonneg_right (hrest column)
      · positivity
    simp only [← hcolumns] at hlt hwhole hnonneg ⊢
    obtain ⟨sum, hsum, hvalues⟩ := ih ⟨hwhole, hnonneg⟩ hparts.2 hlt
    refine ⟨sum, ?_, hvalues⟩
    rw [addParts, List.foldlM_cons, hnext]
    exact hsum

/-- The figures are the sums and differences of exact totals. -/
structure ShowsExactly (v : Valuation) (total : Column → ℚ) : Prop where
  sums : ∀ column, (v.sums.get column).toRat = total column
  effective : v.effective.value.toRat = total .weighted - total .liabilities
  available : v.available.value.toRat = total .weighted - total .liabilities - total .required
  availableSetup :
    v.availableSetup.value.toRat = total .weighted - total .liabilities - total .requiredSetup

/-- Differences of totals that are short enough are taken without rounding. -/
theorem exists_ofTotal_of_isWholeAt {total : Contribution} (hs : s ≤ 28)
    (htotal : total.IsWholeAt s) (hweighted : (total.get .weighted).toRat * 10 ^ s < 2 ^ 96)
    (hrequired : (total.get .required).toRat ≤ (total.get .requiredSetup).toRat)
    (hclaims : ((total.get .liabilities).toRat + (total.get .requiredSetup).toRat) * 10 ^ s < 2 ^ 96)
    (unpriced : ℕ) :
    ∃ v, ofTotal total unpriced = .ok v ∧ v.ShowsExactly fun column ↦ (total.get column).toRat := by
  obtain ⟨hwhole, hnonneg⟩ := htotal
  -- what is left is what is weighted less one number that claims take
  have hfits {x : ℚ} (hx : MarginAccount.IsWholeAt s x) (hx₀ : 0 ≤ x)
      (hle : x ≤ total.liabilities.toRat + total.requiredSetup.toRat) :
      Fits (total.weighted.toRat - x) := by
    refine .sub_of_isWholeAt (hwhole .weighted) hx hs (hnonneg .weighted) hx₀ hweighted ?_
    exact (mul_le_mul_of_nonneg_right hle (by positivity)).trans_lt hclaims
  have hliabilities : Fits (total.weighted.toRat - total.liabilities.toRat) :=
    hfits (hwhole .liabilities) (hnonneg .liabilities)
      (le_add_of_nonneg_right (hnonneg .requiredSetup))
  obtain ⟨effective, heffective, heffective'⟩ := Decimal.exists_sub?_of_fits hliabilities
  have hrequired : Fits (effective.toRat - total.required.toRat) := by
    rw [heffective', sub_sub]
    exact hfits ((hwhole .liabilities).add (hwhole .required))
      (add_nonneg (hnonneg .liabilities) (hnonneg .required)) (add_le_add_right hrequired _)
  have hsetup : Fits (effective.toRat - total.requiredSetup.toRat) := by
    rw [heffective', sub_sub]
    exact hfits ((hwhole .liabilities).add (hwhole .requiredSetup))
      (add_nonneg (hnonneg .liabilities) (hnonneg .requiredSetup)) le_rfl
  obtain ⟨available, havailable, havailable'⟩ := Decimal.exists_sub?_of_fits hrequired
  obtain ⟨availableSetup, hsetup, hsetup'⟩ := Decimal.exists_sub?_of_fits hsetup
  rw [heffective'] at havailable' hsetup'
  refine ⟨⟨⟨total.assets⟩, ⟨total.liabilities⟩, ⟨total.required⟩, ⟨total.requiredSetup⟩,
    ⟨total.weighted⟩, ⟨effective⟩, ⟨available⟩, ⟨availableSetup⟩, unpriced⟩, ?_, ?_⟩
  · simp only [ofTotal, bind_eq_ok, elim_error_eq_ok, pure_eq_ok]
    exact ⟨effective, heffective, available, havailable, availableSetup, hsetup, rfl⟩
  · exact ⟨fun column ↦ by cases column <;> rfl, heffective', havailable', hsetup'⟩

/-! ## The valuation -/

/-- Parts of positions that add their shares have the exact totals. -/
theorem sum_parts_inOrder
    (hadded : ∀ p ∈ merged, ∀ column,
      ((p.added prices policy).get column).toRat = p.share prices policy column) (column : Column) :
    ((parts (inOrder merged) prices policy).map
      fun part ↦ (part.contribution.get column).toRat).sum =
        exactTotal merged prices policy column := by
  have hzero : (Contribution.zero.get column).toRat = 0 := by
    rw [Contribution.get_zero, Decimal.toRat_zero]
  rw [sum_parts (q := fun c ↦ (c.get column).toRat) hzero, ((inOrder_perm merged).map _).sum_eq,
    List.map_congr_left fun p hp ↦ hadded p hp column, exactTotal]

/-- Checked positions whose numbers fit a place have a valuation, and it is exact. -/
theorem exists_exact_of_fitsPlace (hmerge : mergeChanges positions changes = .ok merged)
    (hchecks : ∀ p ∈ merged, p.check = .ok ()) (hpolicy : policy.check = .ok ())
    (hfits : FitsPlace s merged prices policy)
    (hprices : ∀ p ∈ merged, p.kind ≠ .noValue → ∃ price?, prices.usd? p.token = .ok price?) :
    ∃ v, ofPositions positions prices changes policy = .ok v ∧
      v.ShowsExactly (exactTotal merged prices policy) := by
  have hlt := hfits.exactTotal_lt hchecks hpolicy
  have happraise (p : Position) (hp : p ∈ merged) :=
    Position.exists_appraise_of_isWholeAt (hfits.whole p hp) hfits.place (hchecks p hp) hpolicy
      (fun column ↦ (mul_le_mul_of_nonneg_right (share_le_exactTotal hchecks hpolicy hp column)
        (by positivity)).trans_lt (hlt column)) (hprices p hp)
  have hadded (p : Position) (hp : p ∈ merged) := (happraise p hp).2
  have hparts : ∀ part ∈ parts (inOrder merged) prices policy, part.contribution.IsWholeAt s := by
    intro part hpart
    obtain ⟨p, hp, heq⟩ := exists_added_of_mem_parts hpart
    rw [mem_inOrder] at hp
    rw [heq]
    exact Position.isWholeAt_added (hfits.whole p hp) (hchecks p hp) hpolicy (hadded p hp)
  have htotal (column : Column) : (Contribution.zero.get column).toRat +
      ((parts (inOrder merged) prices policy).map
        fun part ↦ (part.contribution.get column).toRat).sum =
      exactTotal merged prices policy column := by
    rw [Contribution.get_zero, Decimal.toRat_zero, zero_add, sum_parts_inOrder hadded]
  obtain ⟨sum, hsum, hwhole, hcolumns⟩ :=
    exists_addParts_of_isWholeAt hfits.place (.zero s) hparts fun column ↦ by
      rw [htotal]
      exact hlt column
  simp only [htotal] at hcolumns
  obtain ⟨v, hv, hshows⟩ := exists_ofTotal_of_isWholeAt hfits.place hwhole
    (by rw [hcolumns]; exact hlt .weighted)
    (by rw [hcolumns, hcolumns]; exact exactTotal_required_le hchecks hpolicy)
    (by rw [hcolumns, hcolumns]; exact hfits.claims)
    ((appraisals merged prices policy).count .unpriced)
  refine ⟨v, ?_, ?_⟩
  · rw [ofPositions_of_appraised hmerge fun p hp ↦ (happraise p hp).1, hsum]
    exact congrArg Outcome.ofRefusable hv
  · simpa only [hcolumns] using hshows

/-- Checked positions whose numbers fit a place have a valuation with the exact sums and differences
if and only if every price that is needed is looked up without a fault. -/
theorem exists_exact_iff (hpositions : ∀ p ∈ positions, p.check = .ok ())
    (hpolicy : policy.check = .ok ()) (hfits : FitsPlace s positions prices policy) :
    (∃ v, ofPositions positions prices [] policy = .ok v ∧
        v.ShowsExactly (exactTotal positions prices policy)) ↔
      ∀ p ∈ positions, p.kind ≠ .noValue → ∃ price?, prices.usd? p.token = .ok price? := by
  constructor
  · rintro ⟨v, hv, -⟩ p hp hk
    obtain ⟨a, ha⟩ := (ofPositions_eq_ok hv (mergeChanges_nil _)).1 p hp
    exact Position.usd?_of_appraise ha hk
  · exact exists_exact_of_fitsPlace (mergeChanges_nil _) hpositions hpolicy hfits

end Valuation

/-! ## Five thousand dollars against one thousand -/

namespace Sample

/-- A deposit of 5000 tokens at nine tenths and a claim of 1000 at eight tenths. -/
def secured : List Position :=
  [⟨.ofTag 1, .ofTag 1, { units := 5000000000 }, -6, .deposit, .lit 9 1⟩,
    ⟨.ofTag 2, .ofTag 2, { units := 1000000000 }, -6, .claim, .lit 8 1⟩]

end Sample

namespace Valuation

open Sample

/-- Their numbers have one place. The claim takes 1000 dollars of the 4500 that the deposit weighs
and requires 1250 of the rest, 2500 for setting up trades. -/
theorem exists_exact_secured :
    FitsPlace 1 secured oneDollar .standard ∧
      ∃ v, ofPositions secured oneDollar [] .standard = .ok v ∧
        v.ShowsExactly (exactTotal secured oneDollar .standard) ∧
        v.available.value.toRat = 2250 ∧ v.availableSetup.value.toRat = 1000 := by
  have hfits : FitsPlace 1 secured oneDollar .standard := by decide +kernel
  obtain ⟨v, hv, hshows⟩ := (exists_exact_iff (by decide) (by decide) hfits).2
    fun p hp hk ↦ ⟨_, rfl⟩
  refine ⟨hfits, v, hv, hshows, ?_, ?_⟩
  · rw [hshows.available]
    decide +kernel
  · rw [hshows.availableSetup]
    decide +kernel

end Valuation

end MarginAccount
