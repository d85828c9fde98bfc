import MarginAccount.Account.Summary
import MarginAccount.Liquidation.State
import MarginAccount.Proofs.Account.Figures

/-! # Less for new trades

Two policies may size new trades differently and agree in all else. A valuation reads one number of
its policy, the share of the allowance that new trades may use, in one place: the weight that what a
claim requires for setting up trades is divided by. So all other figures are the same whatever the
policy (`Valuation.unsized_eq`). With a smaller share more is required for setting up trades and less
is left for it, unless two quotients by weights of one value break their tie apart.
-/

namespace MarginAccount

/-- The same policy with as much for new trades or less: of the allowance and of a pool. -/
structure Policy.IsTighter (tight loose : Policy) : Prop where
  rest : tight =
    { loose with setupFraction := tight.setupFraction, utilizationCap := tight.utilizationCap }
  setupFraction : tight.setupFraction ≤ loose.setupFraction
  utilizationCap : tight.utilizationCap ≤ loose.utilizationCap

namespace Policy.IsTighter

variable {tight loose : Policy} (h : tight.IsTighter loose)

include h

theorem feeBuffer : tight.feeBuffer = loose.feeBuffer := by rw [h.rest]

theorem maxPriceAge : tight.maxPriceAge = loose.maxPriceAge := by rw [h.rest]

theorem summary (v : Valuation) : v.summary tight = v.summary loose := by
  rw [h.rest]
  rfl

theorem level (risk : Risk) : risk.level tight = risk.level loose := by
  rw [h.rest]
  rfl

theorem phase (held : Option Liquidation) (risk : Risk) :
    Liquidation.phase held risk tight = Liquidation.phase held risk loose := by
  rw [h.rest]
  rfl

end Policy.IsTighter

variable {prices : PriceSource} {policy policy' tight loose : Policy} {p : Position}
  {positions merged : List Position} {changes : List Change} {a b c sum sum' : Contribution}

/-! ## What does not size trades -/

/-- The contribution without what it requires for setting up trades. -/
def Contribution.unsized (c : Contribution) : Contribution := { c with requiredSetup := .zero }

def Part.unsized (x : Part) : Part := { x with contribution := x.contribution.unsized }

def Position.Appraisal.unsized : Appraisal → Appraisal
  | .priced part => .priced part.unsized
  | .unpriced => .unpriced
  | .skipped => .skipped

/-- The valuation without the two figures that size trades. -/
def Valuation.unsized (v : Valuation) : Valuation :=
  { v with requiredSetup := .zero, availableSetup := .zero }

theorem Contribution.unsized_add? (h : a.add? b = some c) :
    a.unsized.add? b.unsized = some c.unsized := by
  obtain ⟨hassets, hliabilities, hweighted, hrequired, -⟩ := add?_eq_some h
  simp only [add?, unsized, hassets, hliabilities, hweighted, hrequired, Decimal.zero_add?]
  rfl

namespace Position

variable {value : Decimal} {x x' : Appraisal}

theorem contribution_unsized {c c' : Contribution} (h : p.contribution value policy = .ok c)
    (h' : p.contribution value policy' = .ok c') : c.unsized = c'.unsized := by
  cases hk : p.kind with
  | deposit =>
    obtain ⟨weighted, hweighted, rfl⟩ := contribution_of_deposit hk h
    obtain ⟨weighted', hweighted', rfl⟩ := contribution_of_deposit hk h'
    obtain rfl := Option.some.inj (hweighted.symm.trans hweighted')
    rfl
  | claim =>
    obtain ⟨_, required, _, -, hrequired, -, rfl⟩ := contribution_of_claim hk h
    obtain ⟨_, required', _, -, hrequired', -, rfl⟩ := contribution_of_claim hk h'
    obtain rfl := Option.some.inj (hrequired.symm.trans hrequired')
    rfl
  | noValue =>
    rw [contribution, hk] at h h'
    cases h
    cases h'
    rfl

/-- Policies appraise a position alike, up to what sizes trades. -/
theorem appraise_unsized (h : p.appraise prices policy = .ok x)
    (h' : p.appraise prices policy' = .ok x') : x.unsized = x'.unsized := by
  rw [appraise] at h h'
  split at h
  · rename_i hk
    rw [if_pos hk] at h'
    cases h
    cases h'
    rfl
  · rename_i hk
    rw [if_neg hk, bind_eq_ok] at h'
    rw [bind_eq_ok] at h
    obtain ⟨usd?, hvalue, h⟩ := h
    obtain ⟨usd?', hvalue', h'⟩ := h'
    obtain rfl := Except.ok.inj (hvalue.symm.trans hvalue')
    cases usd? with
    | none =>
      obtain rfl := Except.ok.inj (h.symm.trans h')
      rfl
    | some usd =>
      simp only [bind_eq_ok, Outcome.ofRefusable_eq_ok, pure_eq_ok] at h h'
      obtain ⟨c, hc, rfl⟩ := h
      obtain ⟨c', hc', rfl⟩ := h'
      rw [Appraisal.unsized, Appraisal.unsized, Part.unsized, Part.unsized,
        contribution_unsized hc hc']

theorem Appraisal.part?_unsized (x : Appraisal) : x.unsized.part? = x.part?.map Part.unsized := by
  cases x <;> rfl

end Position

theorem addParts_unsized {parts : List Part} {total : Contribution}
    (h : addParts total parts = .ok sum) :
    addParts total.unsized (parts.map Part.unsized) = .ok sum.unsized := by
  induction parts generalizing total with
  | nil =>
    cases h
    rfl
  | cons part parts ih =>
    rw [addParts, List.foldlM_cons, bind_eq_ok] at h
    obtain ⟨next, hnext, h⟩ := h
    rw [elim_error_eq_ok] at hnext
    rw [addParts, List.map_cons, List.foldlM_cons, bind_eq_ok]
    exact ⟨next.unsized, elim_error_eq_ok.2 (Contribution.unsized_add? hnext), ih h⟩

theorem sumParts_unsized {parts : List Part} (h : sumParts parts = .ok sum) :
    sumParts (parts.map Part.unsized) = .ok sum.unsized := by
  have hsort : (parts.map Part.unsized).mergeSort Part.le =
      (parts.mergeSort Part.le).map Part.unsized :=
    (List.map_mergeSort (f := Part.unsized) fun _ _ _ _ ↦ rfl).symm
  rw [sumParts, hsort]
  exact addParts_unsized h

namespace Valuation

variable {v v' : Valuation} {n : ℕ}

theorem ofTotal_unsized (hsum : sum.unsized = sum'.unsized) (h : ofTotal sum n = .ok v)
    (h' : ofTotal sum' n = .ok v') : v.unsized = v'.unsized := by
  obtain ⟨assets, liabilities, weighted, required, setup⟩ := sum
  obtain ⟨assets', liabilities', weighted', required', setup'⟩ := sum'
  cases hsum
  simp only [ofTotal, bind_eq_ok, elim_error_eq_ok, pure_eq_ok] at h h'
  obtain ⟨effective, heffective, available, havailable, _, -, rfl⟩ := h
  obtain ⟨effective', heffective', available', havailable', _, -, rfl⟩ := h'
  obtain rfl := Option.some.inj (heffective.symm.trans heffective')
  obtain rfl := Option.some.inj (havailable.symm.trans havailable')
  rfl

/-- Any two policies value an account alike, up to what sizes trades. -/
theorem unsized_eq (h : ofPositions positions prices changes policy = .ok v)
    (h' : ofPositions positions prices changes policy' = .ok v') : v.unsized = v'.unsized := by
  obtain ⟨merged, hmerge⟩ := exists_mergeChanges h
  obtain ⟨xs, hxs, sum, hsum, hv⟩ := exists_appraisals h hmerge
  obtain ⟨xs', hxs', sum', hsum', hv'⟩ := exists_appraisals h' hmerge
  have hmap : xs.map (·.unsized) = xs'.map (·.unsized) := by
    rw [(mapM_eq_ok hxs).2, (mapM_eq_ok hxs').2, List.map_filterMap, List.map_filterMap]
    refine List.filterMap_congr fun p hp ↦ ?_
    obtain ⟨x, hx⟩ := (mapM_eq_ok hxs).1 p hp
    obtain ⟨x', hx'⟩ := (mapM_eq_ok hxs').1 p hp
    rw [hx, hx']
    exact congrArg some (Position.appraise_unsized hx hx')
  have hparts (ys : List Position.Appraisal) : (ys.filterMap (·.part?)).map Part.unsized =
      (ys.map (·.unsized)).filterMap (·.part?) := by
    rw [List.map_filterMap, List.filterMap_map]
    exact List.filterMap_congr fun y _ ↦ y.part?_unsized.symm
  have hcount (ys : List Position.Appraisal) :
      ys.count .unpriced = (ys.map (·.unsized)).count .unpriced := by
    rw [List.count_eq_countP, List.count_eq_countP, List.countP_map]
    refine congrArg (List.countP · ys) (funext fun y ↦ ?_)
    cases y <;> rfl
  have hsum := sumParts_unsized hsum
  rw [hparts, hmap, ← hparts, sumParts_unsized hsum', Except.ok.injEq] at hsum
  rw [hcount, hmap, ← hcount] at hv
  exact ofTotal_unsized hsum.symm hv hv'

end Valuation

/-! ## What is required for setting up trades -/

namespace Position

variable {x x' : Appraisal} {weight weight' : Decimal}

/-- What a claim requires for setting up trades breaks a tie upward at the first policy and not at
the second, which divides by a weight of the same value. -/
def SizedTiesApart (p : Position) (prices : PriceSource) (loose tight : Policy) : Prop :=
  p.kind = .claim ∧ ∃ weight ∈ p.setupWeight? loose, ∃ weight' ∈ p.setupWeight? tight,
    Risk.TiesApart (p.worth prices) weight (p.worth prices) weight'

theorem setupWeight?_mono (hp : p.check = .ok ())
    (hfraction : tight.setupFraction ≤ loose.setupFraction)
    (hweight : p.setupWeight? loose = some weight) (hweight' : p.setupWeight? tight = some weight') :
    weight'.toRat ≤ weight.toRat := by
  obtain ⟨hmodifier, -, -⟩ := checkModifier_eq_ok.1 hp
  have hround := Decimal.mul?_roundsEven (setupWeight?_eq_some hweight).1
  have hround' := Decimal.mul?_roundsEven (setupWeight?_eq_some hweight').1
  exact hround'.mono hround
    (mul_le_mul_of_nonneg_left (Decimal.le_iff_toRat.1 hfraction) hmodifier)

/-- With less of the allowance for new trades a position requires as much or more, ties apart. -/
theorem requiredSetup_le_iff_of_tighter (h : p.appraise prices loose = .ok x)
    (h' : p.appraise prices tight = .ok x') (hp : p.check = .ok ())
    (htight : tight.check = .ok ()) (hfraction : tight.setupFraction ≤ loose.setupFraction) :
    (p.added prices loose).requiredSetup.toRat ≤ (p.added prices tight).requiredSetup.toRat ↔
      ¬p.SizedTiesApart prices loose tight := by
  by_cases hk : p.kind = .claim
  · have hne := (modifier_pos hp hk).ne'
    have hworth := worth_nonneg h (by rw [hk]; decide)
    have hsound := added_isSound h' hp htight
    obtain ⟨_, setup, -, hsetup, hnone, hadded⟩ := added_of_claim h hk hne
    obtain ⟨_, setup', -, hsetup', hnone', hadded'⟩ := added_of_claim h' hk hne
    rw [SizedTiesApart, and_iff_right hk]
    cases hweight : p.setupWeight? loose with
    | none =>
      rw [hadded, (hnone hweight).2, Decimal.toRat_zero]
      exact iff_of_true (hsound.liabilities_nonneg.trans hsound.liabilities_le_setup) (by simp)
    | some weight =>
      cases hweight' : p.setupWeight? tight with
      | none =>
        -- a claim without a weight is worth nothing, and nothing divided is nothing
        have hround := Decimal.div?_rounds (hsetup weight hweight)
        rw [(hnone' hweight').1, Decimal.toRat_zero, zero_div] at hround
        rw [hadded, hadded', (hnone' hweight').2, Decimal.toRat_zero]
        exact iff_of_true (hround.nonpos le_rfl) (by simp)
      | some weight' =>
        rw [hadded, hadded', Risk.div?_le_div?_iff hworth le_rfl
          (setupWeight?_bounds hp htight hweight').1 (setupWeight?_mono hp hfraction hweight hweight')
          (hsetup weight hweight) (hsetup' weight' hweight')]
        simp
  · rw [(required_of_not_claim h hk).2, (required_of_not_claim h' hk).2]
    exact iff_of_true le_rfl fun htie ↦ hk htie.1

theorem setupWeight?_error_le (hp : p.check = .ok ()) (hpolicy : policy.check = .ok ())
    (h : p.setupWeight? policy = some weight) :
    |weight.toRat - p.modifier.toRat * policy.setupFraction.toRat| ≤ 2 / 3 / 10 ^ 28 := by
  obtain ⟨hmodifier, hone, -⟩ := checkModifier_eq_ok.1 hp
  obtain ⟨hfraction, hfraction₁⟩ := Policy.setupFraction_of_check hpolicy
  have hle : p.modifier.toRat * policy.setupFraction.toRat ≤ 1 :=
    mul_le_one₀ hone hfraction.le hfraction₁
  have herr := (Decimal.mul?_roundsEven (setupWeight?_eq_some h).1).rounds.error_le
  rw [abs_of_nonneg (mul_nonneg hmodifier hfraction.le)] at herr
  have hmax : max (1 / 2) (2 / 3 * (p.modifier.toRat * policy.setupFraction.toRat)) ≤ 2 / 3 :=
    max_le (by norm_num) (mul_le_of_le_one_right (by norm_num) hle)
  calc |weight.toRat - p.modifier.toRat * policy.setupFraction.toRat|
      ≤ 1 / 10 ^ 28 * max (1 / 2) (2 / 3 * (p.modifier.toRat * policy.setupFraction.toRat)) := herr
    _ ≤ 1 / 10 ^ 28 * (2 / 3) := by gcongr
    _ = 2 / 3 / 10 ^ 28 := by ring

/-- Ties come apart only between policies that leave almost the same for new trades: the two weights
have more than 64 bits and one value, so the products that they are differ by a rounding. -/
theorem SizedTiesApart.setupFraction_ge (h : p.SizedTiesApart prices loose tight)
    (hp : p.check = .ok ()) (hloose : loose.check = .ok ()) (htight : tight.check = .ok ()) :
    loose.setupFraction.toRat - 1 / 2 ^ 63 ≤ tight.setupFraction.toRat := by
  obtain ⟨-, weight, hweight, weight', hweight', htie⟩ := h
  obtain ⟨hmodifier, -, -⟩ := checkModifier_eq_ok.1 hp
  obtain ⟨hfraction, hone⟩ := Policy.setupFraction_of_check hloose
  have hlong := Decimal.le_abs_toRat_of_isLong htie.isLong
  rw [abs_of_pos (setupWeight?_bounds hp hloose hweight).1] at hlong
  have herr := abs_le.1 (setupWeight?_error_le hp hloose hweight)
  have herr' := abs_le.1 (setupWeight?_error_le hp htight hweight')
  rw [← htie.weighted] at herr'
  -- a weight of that many units comes from a modifier of as many
  have hm : (2 ^ 64 - 1) / 10 ^ 28 ≤ p.modifier.toRat := by
    have := mul_le_of_le_one_right hmodifier hone
    linarith
  by_contra hlt
  rw [not_le] at hlt
  have hgap : p.modifier.toRat * (1 / 2 ^ 63) ≤
      p.modifier.toRat * (loose.setupFraction.toRat - tight.setupFraction.toRat) :=
    mul_le_mul_of_nonneg_left (by linarith) hmodifier
  rw [mul_sub] at hgap
  linarith

end Position

namespace Valuation

variable {v v' : Valuation}

/-- With less of the allowance for new trades more is required for setting them up and less is left
for it, where no claim breaks its ties apart. -/
theorem setup_in_order (hpositions : ∀ p ∈ positions, p.check = .ok ())
    (hchanges : ∀ c ∈ changes, checkModifier c.token c.kind c.modifier = .ok ())
    (hloose : loose.check = .ok ()) (htight : tight.check = .ok ())
    (hfraction : tight.setupFraction ≤ loose.setupFraction)
    (h : ofPositions positions prices changes loose = .ok v)
    (h' : ofPositions positions prices changes tight = .ok v')
    (hties : tight.setupFraction.toRat < loose.setupFraction.toRat - 1 / 2 ^ 63 ∨
      ∀ merged, mergeChanges positions changes = .ok merged →
        ∀ p ∈ merged, ¬p.SizedTiesApart prices loose tight) :
    v.requiredSetup.value ≤ v'.requiredSetup.value ∧
      v'.availableSetup.value ≤ v.availableSetup.value := by
  obtain ⟨merged, hmerge⟩ := exists_mergeChanges h
  have hchecks := check_of_mergeChanges hpositions hchanges hmerge
  have hnone : ∀ p ∈ merged, ¬p.SizedTiesApart prices loose tight := by
    intro p hp htie
    rcases hties with hlt | hnone
    · exact absurd (htie.setupFraction_ge (hchecks p hp) hloose htight) (not_le.2 hlt)
    · exact hnone merged hmerge p hp htie
  have hrequired : v.sums.requiredSetup.toRat ≤ v'.sums.requiredSetup.toRat := by
    refine figure_le isFigure_requiredSetup isFigure_requiredSetup h h' hmerge hmerge fun p hp ↦ ?_
    obtain ⟨x, hx⟩ := (ofPositions_eq_ok h hmerge).1 p hp
    obtain ⟨x', hx'⟩ := (ofPositions_eq_ok h' hmerge).1 p hp
    exact (Position.requiredSetup_le_iff_of_tighter hx hx' (hchecks p hp) htight hfraction).2
      (hnone p hp)
  have heffective : v'.unsized.effective = v.unsized.effective := by rw [unsized_eq h' h]
  have hbalanced := (addParts_eq_sums h hmerge).2.availableSetup
  have hbalanced' := (addParts_eq_sums h' hmerge).2.availableSetup
  change v'.effective = v.effective at heffective
  rw [heffective] at hbalanced'
  rw [Decimal.le_iff_toRat, Decimal.le_iff_toRat]
  exact ⟨hrequired, hbalanced'.mono hbalanced (sub_le_sub_left hrequired _)⟩

end Valuation

end MarginAccount
