import MarginAccount.Proofs.Decimal.Value
import MarginAccount.Proofs.Fault
import MarginAccount.Account.Valuation

/-! # Exact valuations

Where no operation of a valuation rounds, the collateral available for setting up trades is the sum
of what each position takes or gives in exact numbers: its amount times its price times a factor that
its kind and weight decide (`Valuation.availableSetup_eq_sum`). `Valuation.Exact` says that nothing
rounds, operation by operation.
-/

namespace MarginAccount

/-- The usable dollar price of a token, none also where its look-up faults. -/
def PriceSource.quote? (source : PriceSource) (token : TokenId) : Option Decimal :=
  (source.usd? token).toOption.join

theorem PriceSource.quote?_of_ok {source : PriceSource} {token : TokenId} {price? : Option Decimal}
    (h : source.usd? token = .ok price?) : source.quote? token = price? := by
  rw [quote?, h]
  rfl

theorem OraclePrice.isPositive_of_usd? {reading : OraclePrice} {price : Decimal}
    (h : reading.usd? = some price) : price.isPositive = true := by
  rw [usd?] at h
  simp only [Option.bind_eq_bind, Option.bind_eq_some_iff] at h
  obtain ⟨power, -, usd, -, h⟩ := h
  split at h
  · rename_i hpos
    cases h
    exact hpos
  · cases h

/-- A usable price is positive. -/
theorem PriceSource.isPositive_of_quote? {source : PriceSource} {token : TokenId} {price : Decimal}
    (h : source.quote? token = some price) : price.isPositive = true := by
  rw [quote?, usd?] at h
  cases hreading : source token with
  | error f =>
    rw [hreading] at h
    cases h
  | ok reading? =>
    rw [hreading] at h
    change reading?.bind (·.usd?) = some price at h
    rw [Option.bind_eq_some_iff] at h
    obtain ⟨reading, -, husd⟩ := h
    exact OraclePrice.isPositive_of_usd? husd

theorem PriceSource.quote?_filter_isPositive (source : PriceSource) (token : TokenId) :
    (source.quote? token).filter (·.isPositive) = source.quote? token := by
  cases h : source.quote? token with
  | none => rfl
  | some price => rw [Option.filter_some, if_pos (isPositive_of_quote? h)]

variable {prices : PriceSource} {policy : Policy} {p : Position}

/-! ## What a position is worth in exact numbers -/

/-- The part of a dollar that goes to the collateral for setting up trades. A claim takes itself and
the collateral it requires. -/
def PositionKind.setupFactor (kind : PositionKind) (weight fraction : ℚ) : ℚ :=
  match kind with
  | .deposit => weight
  | .claim => -(1 + 1 / (weight * fraction))
  | .noValue => 0

namespace Position

/-- The balance in whole tokens, exactly. -/
def amount (p : Position) : ℚ :=
  if 0 ≤ p.exponent.toInt then p.balance.units * 10 ^ p.exponent.toInt.toNat
  else p.balance.units / 10 ^ (-p.exponent.toInt).toNat

/-- The part of its value that a position adds to the collateral for setting up trades. -/
def setupFactor (p : Position) (policy : Policy) : ℚ :=
  p.kind.setupFactor p.modifier.toRat policy.setupFraction.toRat

/-- What a position adds to the collateral for setting up trades. -/
def setupShare (p : Position) (prices : PriceSource) (policy : Policy) : ℚ :=
  (prices.quote? p.token).elim 0 fun price ↦ p.amount * price.toRat * p.setupFactor policy

theorem setupShare_of_quote {price : Decimal} (h : prices.quote? p.token = some price) :
    p.setupShare prices policy = p.amount * price.toRat * p.setupFactor policy := by
  rw [setupShare, h, Option.elim_some]

theorem setupShare_of_unpriced (h : prices.quote? p.token = none) :
    p.setupShare prices policy = 0 := by
  rw [setupShare, h, Option.elim_none]

/-- No operation rounds that weighs a value. -/
def WeightExact (p : Position) (value : Decimal) (policy : Policy) : Prop :=
  match p.kind with
  | .deposit => value.MulExact p.modifier
  | .claim => p.modifier.MulExact policy.setupFraction ∧ value.DivExact p.modifier ∧
      ∀ weight ∈ p.modifier.mul? policy.setupFraction, value.DivExact weight
  | .noValue => True

/-- No operation rounds that values the position and weighs it. -/
def Exact (p : Position) (prices : PriceSource) (policy : Policy) : Prop :=
  p.kind = .noValue ∨ ∀ q ∈ p.quantity?, q.toRat = p.amount ∧ ∀ price ∈ prices.quote? p.token,
    q.MulExact price ∧ ∀ value ∈ q.mul? price, p.WeightExact value policy

instance (p : Position) (value : Decimal) (policy : Policy) :
    Decidable (p.WeightExact value policy) := by
  unfold WeightExact
  cases p.kind <;> exact inferInstance

instance (p : Position) (prices : PriceSource) (policy : Policy) :
    Decidable (p.Exact prices policy) :=
  inferInstanceAs (Decidable (_ ∨ ∀ q ∈ _, _ ∧ ∀ price ∈ _, _ ∧ ∀ value ∈ _, _))

end Position

/-! ## Contributions -/

namespace Contribution

variable {a b c : Contribution}

/-- What a contribution leaves for setting up trades. -/
def setup (c : Contribution) : ℚ := c.weighted.toRat - c.liabilities.toRat - c.requiredSetup.toRat

/-- None of the five sums rounds. -/
def AddExact (a b : Contribution) : Prop :=
  a.assets.AddExact b.assets ∧ a.liabilities.AddExact b.liabilities ∧
    a.weighted.AddExact b.weighted ∧ a.required.AddExact b.required ∧
    a.requiredSetup.AddExact b.requiredSetup

/-- None of the three differences rounds. -/
def DifferencesExact (c : Contribution) : Prop :=
  c.weighted.SubExact c.liabilities ∧ ∀ effective ∈ c.weighted.sub? c.liabilities,
    effective.SubExact c.required ∧ effective.SubExact c.requiredSetup

instance (a b : Contribution) : Decidable (a.AddExact b) :=
  inferInstanceAs (Decidable (_ ∧ _ ∧ _ ∧ _ ∧ _))

instance (c : Contribution) : Decidable c.DifferencesExact :=
  inferInstanceAs (Decidable (_ ∧ ∀ effective ∈ _, _ ∧ _))

theorem add?_eq_some (h : a.add? b = some c) :
    a.assets.add? b.assets = some c.assets ∧ a.liabilities.add? b.liabilities = some c.liabilities ∧
      a.weighted.add? b.weighted = some c.weighted ∧ a.required.add? b.required = some c.required ∧
      a.requiredSetup.add? b.requiredSetup = some c.requiredSetup := by
  simp only [add?, Option.bind_eq_bind, Option.bind_eq_some_iff, Option.pure_def,
    Option.some.injEq] at h
  obtain ⟨assets, ha, liabilities, hl, weighted, hw, required, hr, setup, hs, rfl⟩ := h
  exact ⟨ha, hl, hw, hr, hs⟩

/-- A quantity that exact sums of contributions add up. -/
structure IsAdditive (g : Contribution → ℚ) : Prop where
  zero : g zero = 0
  add : ∀ {a b c : Contribution}, a.add? b = some c → a.AddExact b → g c = g a + g b

theorem isAdditive_assets : IsAdditive (·.assets.toRat) where
  zero := Decimal.toRat_zero
  add h hexact := hexact.1 _ (add?_eq_some h).1

theorem isAdditive_liabilities : IsAdditive (·.liabilities.toRat) where
  zero := Decimal.toRat_zero
  add h hexact := hexact.2.1 _ (add?_eq_some h).2.1

@[simp] theorem setup_zero : zero.setup = 0 := by
  simp [setup, zero]

theorem isAdditive_setup : IsAdditive setup where
  zero := setup_zero
  add h hexact := by
    obtain ⟨-, hliabilities, hweighted, -, hsetup⟩ := add?_eq_some h
    obtain ⟨-, hl, hw, -, hs⟩ := hexact
    rw [setup, hl _ hliabilities, hw _ hweighted, hs _ hsetup, setup, setup]
    ring

end Contribution

namespace Position

theorem contribution_setup {value : Decimal} {c : Contribution}
    (h : p.contribution value policy = .ok c) (hexact : p.WeightExact value policy) :
    c.setup = value.toRat * p.setupFactor policy := by
  unfold contribution at h
  unfold WeightExact at hexact
  unfold setupFactor PositionKind.setupFactor
  dsimp only at h
  cases hk : p.kind <;> rw [hk] at h hexact <;> dsimp only at h hexact ⊢
  · -- a deposit
    rw [bind_eq_ok] at h
    obtain ⟨weighted, hw, hc⟩ := h
    rw [elim_error_eq_ok] at hw
    rw [pure_eq_ok] at hc
    rw [← hc, Contribution.setup, hexact _ hw]
    simp
  · -- a claim
    obtain ⟨hmul, -, hdiv⟩ := hexact
    split at h
    · cases h
    · simp only [bind_eq_ok, elim_error_eq_ok, Option.filter_eq_some_iff, pure_eq_ok] at h
      obtain ⟨weight, ⟨hweight, -⟩, required, -, setup, hsetup, rfl⟩ := h
      rw [Contribution.setup, hdiv weight hweight _ hsetup, hmul _ hweight]
      simp
      ring
  · -- a position of no value
    cases h
    simp

/-- The dollar value is the quantity at the usable price. -/
theorem value_eq_ok {usd? : Option Usd} (h : p.value prices = .ok usd?) :
    ∃ q, p.quantity? = some q ∧
      ((prices.quote? p.token = none ∧ usd? = none) ∨
        ∃ price value, prices.quote? p.token = some price ∧ q.mul? price = some value ∧
          usd? = some ⟨value⟩) := by
  rw [value, bind_eq_ok] at h
  obtain ⟨q, hq, h⟩ := h
  rw [bind_eq_ok] at h
  obtain ⟨price?, hprice, h⟩ := h
  rw [Outcome.ofOption_eq_ok] at hq
  rw [Outcome.ofFaultable_eq_ok] at hprice
  refine ⟨q, hq, ?_⟩
  rw [PriceSource.quote?_of_ok hprice]
  cases price? with
  | none =>
    cases h
    exact .inl ⟨rfl, rfl⟩
  | some price =>
    simp only [bind_eq_ok, Outcome.ofOption_eq_ok, pure_eq_ok] at h
    obtain ⟨value, hvalue, rfl⟩ := h
    exact .inr ⟨price, value, rfl, hvalue, rfl⟩

/-- An appraisal needs the quantity, unless the position is of no value. -/
theorem quantity_of_appraise {a : Appraisal} (h : p.appraise prices policy = .ok a)
    (hk : p.kind ≠ .noValue) : ∃ q, p.quantity? = some q := by
  rw [appraise, if_neg hk, bind_eq_ok] at h
  obtain ⟨usd?, hvalue, -⟩ := h
  obtain ⟨q, hq, -⟩ := value_eq_ok hvalue
  exact ⟨q, hq⟩

/-- An exact appraisal adds the share of the position. -/
theorem appraise_setup {a : Appraisal} (h : p.appraise prices policy = .ok a)
    (hexact : p.Exact prices policy) :
    a.part?.elim 0 (·.contribution.setup) = p.setupShare prices policy := by
  by_cases hk : p.kind = .noValue
  · rw [appraise, if_pos hk] at h
    cases h
    have hfactor : p.setupFactor policy = 0 := by
      rw [setupFactor, hk]
      rfl
    cases hquote : prices.quote? p.token with
    | none => exact (setupShare_of_unpriced hquote).symm
    | some price =>
      rw [setupShare_of_quote hquote, hfactor, mul_zero]
      rfl
  · rw [appraise, if_neg hk, bind_eq_ok] at h
    obtain ⟨usd?, hvalue, h⟩ := h
    obtain ⟨q, hq, ⟨hquote, rfl⟩ | ⟨price, value, hquote, hmul, rfl⟩⟩ := value_eq_ok hvalue
    · rw [setupShare_of_unpriced hquote]
      dsimp only at h
      split at h <;> cases h <;> rfl
    · dsimp only at h
      rw [bind_eq_ok] at h
      obtain ⟨c, hc, h⟩ := h
      rw [Outcome.ofRefusable_eq_ok] at hc
      rw [pure_eq_ok] at h
      obtain ⟨hamount, hprice⟩ := hexact.resolve_left hk q hq
      obtain ⟨hmulExact, hweight⟩ := hprice price hquote
      rw [← h, setupShare_of_quote hquote, ← hamount, ← hmulExact _ hmul]
      exact contribution_setup hc (hweight _ hmul)

/-- The part that a position adds to the sums, if any. -/
def part? (p : Position) (prices : PriceSource) (policy : Policy) : Option Part :=
  (p.appraise prices policy).toOption.bind (·.part?)

end Position

/-! ## Sums -/

/-- No partial sum rounds, from a total on. -/
def SumsExact : Contribution → List Part → Prop
  | _, [] => True
  | total, part :: parts => total.AddExact part.contribution ∧
      ∀ next ∈ total.add? part.contribution, SumsExact next parts

instance decidableSumsExact : (total : Contribution) → (parts : List Part) →
    Decidable (SumsExact total parts)
  | _, [] => isTrue trivial
  | total, part :: parts =>
    have := fun next ↦ decidableSumsExact next parts
    inferInstanceAs (Decidable (_ ∧ ∀ next ∈ total.add? part.contribution, SumsExact next parts))

/-- Adds parts to a total as they come. -/
def addParts (total : Contribution) (parts : List Part) : Except ValuationError Contribution :=
  parts.foldlM (fun total part ↦
    (total.add? part.contribution).elim (.error (.valueOverflow part.token)) .ok) total

variable {g : Contribution → ℚ}

/-- A fold of exact sums adds up what the parts add. -/
theorem additive_addParts {parts : List Part} {total total' : Contribution}
    (hg : Contribution.IsAdditive g) (h : addParts total parts = .ok total')
    (hexact : SumsExact total parts) :
    g total' = g total + (parts.map fun part ↦ g part.contribution).sum := by
  induction parts generalizing total with
  | nil =>
    cases h
    simp
  | cons part parts ih =>
    rw [addParts, List.foldlM_cons, bind_eq_ok] at h
    obtain ⟨next, hnext, h⟩ := h
    rw [elim_error_eq_ok] at hnext
    obtain ⟨hadd, hrest⟩ := hexact
    rw [ih h (hrest next hnext), hg.add hnext hadd, List.map_cons, List.sum_cons]
    ring

/-- The order of the parts does not matter to an exact sum. -/
theorem additive_sumParts {parts : List Part} {total : Contribution}
    (hg : Contribution.IsAdditive g) (h : sumParts parts = .ok total)
    (hexact : SumsExact .zero (parts.mergeSort Part.le)) :
    g total = (parts.map fun part ↦ g part.contribution).sum := by
  have hperm := (List.mergeSort_perm parts Part.le).map fun part ↦ g part.contribution
  rw [additive_addParts hg h hexact, hg.zero, zero_add, hperm.sum_eq]

/-- Parts that come in order are added as they come. -/
theorem sumParts_of_sorted {parts : List Part} (h : parts.Pairwise fun a b ↦ Part.le a b = true) :
    sumParts parts = addParts .zero parts := by
  rw [sumParts, List.mergeSort_of_pairwise h, addParts]

namespace Valuation

variable {positions merged : List Position} {changes : List Change} {v : Valuation}

theorem unpriced_of_ofTotal {total : Contribution} {n : ℕ} (h : ofTotal total n = .ok v) :
    v.unpriced = n := by
  rw [ofTotal] at h
  simp only [bind_eq_ok, elim_error_eq_ok, pure_eq_ok] at h
  obtain ⟨_, -, _, -, _, -, rfl⟩ := h
  rfl

theorem availableSetup_ofTotal {total : Contribution} {unpriced : ℕ}
    (h : ofTotal total unpriced = .ok v) (hexact : total.DifferencesExact) :
    v.availableSetup.value.toRat = total.setup := by
  unfold ofTotal at h
  simp only [bind_eq_ok, elim_error_eq_ok, pure_eq_ok] at h
  obtain ⟨effective, heffective, available, -, setup, hsetup, rfl⟩ := h
  obtain ⟨hfirst, hrest⟩ := hexact
  change setup.toRat = _
  rw [(hrest effective heffective).2 _ hsetup, hfirst _ heffective, Contribution.setup]

/-- The parts that positions add to the sums. -/
def parts (positions : List Position) (prices : PriceSource) (policy : Policy) : List Part :=
  positions.filterMap (·.part? prices policy)

/-- No operation of the valuation of these positions rounds. -/
structure Exact (ps : List Position) (prices : PriceSource) (policy : Policy) : Prop where
  positions : ∀ p ∈ ps, p.Exact prices policy
  sums : SumsExact .zero ((parts ps prices policy).mergeSort Part.le)
  differences : ∀ total ∈ (sumParts (parts ps prices policy)).toOption, total.DifferencesExact

/-- The parts of positions that are each appraised exactly add up to their shares. -/
theorem sum_parts_setup (happraise : ∀ p ∈ positions, ∃ a, p.appraise prices policy = .ok a)
    (hexact : ∀ p ∈ positions, p.Exact prices policy) :
    ((parts positions prices policy).map (·.contribution.setup)).sum =
      (positions.map (·.setupShare prices policy)).sum := by
  induction positions with
  | nil => rfl
  | cons p ps ih =>
    rw [List.forall_mem_cons] at happraise hexact
    obtain ⟨⟨a, ha⟩, happraise⟩ := happraise
    have hpart : p.part? prices policy = a.part? := by
      rw [Position.part?, ha]
      rfl
    rw [List.map_cons, List.sum_cons, ← ih happraise hexact.2,
      ← Position.appraise_setup ha hexact.1, parts, List.filterMap_cons, hpart]
    cases a.part? with
    | none => rw [Option.elim_none, zero_add, parts]
    | some part => rw [List.map_cons, List.sum_cons, Option.elim_some, parts]

theorem filterMap_part?_eq_parts {appraisals : List Position.Appraisal}
    (h : positions.mapM (·.appraise prices policy) = .ok appraisals) :
    appraisals.filterMap (·.part?) = parts positions prices policy := by
  rw [(mapM_eq_ok h).2, List.filterMap_filterMap]
  rfl

/-- A valuation appraises each position, sums the parts and takes the differences. -/
theorem exists_appraisals (h : ofPositions positions prices changes policy = .ok v)
    (hmerge : mergeChanges positions changes = .ok merged) :
    ∃ appraisals, merged.mapM (·.appraise prices policy) = .ok appraisals ∧
      ∃ total, sumParts (appraisals.filterMap (·.part?)) = .ok total ∧
        ofTotal total (appraisals.count .unpriced) = .ok v := by
  rw [ofPositions, hmerge, bind_eq_ok] at h
  obtain ⟨_, hm, h⟩ := h
  cases hm
  simp only [bind_eq_ok, Outcome.ofRefusable_eq_ok] at h
  exact h

/-- So each position is appraised, and the parts are those of the positions. -/
theorem ofPositions_eq_ok (h : ofPositions positions prices changes policy = .ok v)
    (hmerge : mergeChanges positions changes = .ok merged) :
    (∀ p ∈ merged, ∃ a, p.appraise prices policy = .ok a) ∧ ∃ total unpriced,
      sumParts (parts merged prices policy) = .ok total ∧ ofTotal total unpriced = .ok v := by
  obtain ⟨appraisals, ha, total, ht, h⟩ := exists_appraisals h hmerge
  refine ⟨(mapM_eq_ok ha).1, total, _, ?_, h⟩
  rw [← ht, filterMap_part?_eq_parts ha]

/-- An exact valuation leaves for setting up trades what the positions add in exact numbers. -/
theorem availableSetup_eq_sum (h : ofPositions positions prices changes policy = .ok v)
    (hmerge : mergeChanges positions changes = .ok merged) (hexact : Exact merged prices policy) :
    v.availableSetup.value.toRat = (merged.map (·.setupShare prices policy)).sum := by
  obtain ⟨happraise, total, unpriced, ht, hv⟩ := ofPositions_eq_ok h hmerge
  have hdiff := hexact.differences total (by rw [ht]; rfl)
  rw [← sum_parts_setup happraise hexact.positions, availableSetup_ofTotal hv hdiff,
    additive_sumParts Contribution.isAdditive_setup ht hexact.sums]

/-! ### Positions in order -/

theorem ofPositions_of_sorted (hmerge : mergeChanges positions changes = .ok merged)
    (hsorted : (parts merged prices policy).Pairwise fun a b ↦ Part.le a b = true) :
    ofPositions positions prices changes policy = (do
      let appraisals ← merged.mapM (·.appraise prices policy)
      let total ← .ofRefusable (addParts .zero (parts merged prices policy))
      .ofRefusable (ofTotal total (appraisals.count .unpriced))) := by
  rw [ofPositions, hmerge, ← sumParts_of_sorted hsorted]
  change ((merged.mapM (fun p ↦ p.appraise prices policy) : Outcome ValuationError _) >>=
    fun appraisals ↦ Outcome.ofRefusable (sumParts (appraisals.filterMap (·.part?))) >>=
      fun total ↦ Outcome.ofRefusable (ofTotal total (appraisals.count .unpriced))) = _
  cases h : merged.mapM (·.appraise prices policy) with
  | error f => rfl
  | ok appraisals =>
    change (Outcome.ofRefusable (sumParts (appraisals.filterMap (·.part?))) >>= _) = _
    rw [filterMap_part?_eq_parts h]
    rfl

theorem Exact.of_sorted (hpositions : ∀ p ∈ positions, p.Exact prices policy)
    (hsorted : (parts positions prices policy).Pairwise fun a b ↦ Part.le a b = true)
    (hsums : SumsExact .zero (parts positions prices policy))
    (hdifferences : ∀ total ∈ (addParts .zero (parts positions prices policy)).toOption,
      total.DifferencesExact) : Exact positions prices policy where
  positions := hpositions
  sums := by rwa [List.mergeSort_of_pairwise hsorted]
  differences := by rwa [sumParts_of_sorted hsorted]

/-- The quantities of a valuation fit a decimal. -/
theorem exists_quantity (h : ofPositions positions prices changes policy = .ok v)
    (hmerge : mergeChanges positions changes = .ok merged) (hp : p ∈ merged)
    (hk : p.kind ≠ .noValue) : ∃ q, p.quantity? = some q := by
  obtain ⟨a, ha⟩ := (ofPositions_eq_ok h hmerge).1 p hp
  exact Position.quantity_of_appraise ha hk

end Valuation

end MarginAccount
