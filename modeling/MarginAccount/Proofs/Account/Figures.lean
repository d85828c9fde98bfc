import MarginAccount.Proofs.Account.Change
import MarginAccount.Proofs.Account.Order
import MarginAccount.Proofs.Risk.Monotone

/-! # The figures of a valuation

A figure of a valuation is the sum of that figure over the positions, rounded after each of them.
Rounding keeps the order, so a figure that is at most another one for each position is at most the
other one in total (`Valuation.figure_le`), be it another figure of the same run or one of another
run. Deposits weigh no more than they are worth, and claims require no less.

One comparison needs more: what claims require for setting up trades is a second quotient, by a
smaller weight, and of two quotients of one ratio one may break a tie upward where the other does
not.
-/

namespace MarginAccount

variable {prices prices' : PriceSource} {policy policy' : Policy} {p : Position}
  {f g : Contribution → Decimal} {total total' sum sum' : Contribution}
  {positions positions' merged : List Position} {changes changes' : List Change}

/-! ## One figure at a time -/

/-- A figure of contributions that is summed on its own. -/
structure IsFigure (f : Contribution → Decimal) : Prop where
  zero : f .zero = .zero
  add : ∀ {a b c : Contribution}, a.add? b = some c → (f a).add? (f b) = some (f c)

theorem isFigure_zero : IsFigure fun _ ↦ .zero := ⟨rfl, fun _ ↦ rfl⟩

theorem isFigure_assets : IsFigure Contribution.assets :=
  ⟨rfl, fun h ↦ (Contribution.add?_eq_some h).1⟩

theorem isFigure_liabilities : IsFigure Contribution.liabilities :=
  ⟨rfl, fun h ↦ (Contribution.add?_eq_some h).2.1⟩

theorem isFigure_weighted : IsFigure Contribution.weighted :=
  ⟨rfl, fun h ↦ (Contribution.add?_eq_some h).2.2.1⟩

theorem isFigure_required : IsFigure Contribution.required :=
  ⟨rfl, fun h ↦ (Contribution.add?_eq_some h).2.2.2.1⟩

theorem isFigure_requiredSetup : IsFigure Contribution.requiredSetup :=
  ⟨rfl, fun h ↦ (Contribution.add?_eq_some h).2.2.2.2⟩

/-! ## Sums of a figure -/

namespace Valuation

variable {α : Type} {part? part?' : α → Option Part} {l : List α} {x : α}

/-- One part further, a figure is what it was and what the part contributes, rounded. -/
theorem addParts_filterMap_cons (hf : IsFigure f)
    (h : addParts total ((x :: l).filterMap part?) = .ok sum) :
    ∃ next, addParts next (l.filterMap part?) = .ok sum ∧
      RoundsEven ((f total).toRat + (f ((part? x).elim .zero (·.contribution))).toRat) (f next) := by
  rw [List.filterMap_cons] at h
  cases hpart : part? x with
  | none =>
    rw [hpart] at h
    refine ⟨total, h, ?_⟩
    rw [Option.elim_none, hf.zero, Decimal.toRat_zero, add_zero]
    exact .self _
  | some part =>
    rw [hpart] at h
    dsimp only at h
    rw [addParts, List.foldlM_cons, bind_eq_ok] at h
    obtain ⟨next, hnext, h⟩ := h
    rw [elim_error_eq_ok] at hnext
    exact ⟨next, h, Decimal.add?_roundsEven (hf.add hnext)⟩

/-- Sums over two selections of parts keep the order that a figure of the one has to a figure of the
other at each place. -/
theorem addParts_filterMap_le (hf : IsFigure f) (hg : IsFigure g)
    (hle : ∀ x ∈ l, (f ((part? x).elim .zero (·.contribution))).toRat ≤
      (g ((part?' x).elim .zero (·.contribution))).toRat)
    (htotal : (f total).toRat ≤ (g total').toRat)
    (h : addParts total (l.filterMap part?) = .ok sum)
    (h' : addParts total' (l.filterMap part?') = .ok sum') :
    (f sum).toRat ≤ (g sum').toRat := by
  induction l generalizing total total' with
  | nil =>
    cases h
    cases h'
    exact htotal
  | cons x l ih =>
    rw [List.forall_mem_cons] at hle
    obtain ⟨next, hrest, hround⟩ := addParts_filterMap_cons hf h
    obtain ⟨next', hrest', hround'⟩ := addParts_filterMap_cons hg h'
    exact ih hle.2 (hround.mono hround' (add_le_add htotal hle.1)) hrest hrest'

/-! ## What a valuation shows -/

/-- The sums that a valuation shows. -/
def sums (v : Valuation) : Contribution where
  assets := v.assets.value
  liabilities := v.liabilities.value
  weighted := v.weighted.value
  required := v.required.value
  requiredSetup := v.requiredSetup.value

/-- The other figures are differences of the sums, rounded. -/
structure IsBalanced (v : Valuation) : Prop where
  effective : RoundsEven (v.weighted.value.toRat - v.liabilities.value.toRat) v.effective.value
  available : RoundsEven (v.effective.value.toRat - v.required.value.toRat) v.available.value
  availableSetup :
    RoundsEven (v.effective.value.toRat - v.requiredSetup.value.toRat) v.availableSetup.value

variable {v v' : Valuation}

theorem ofTotal_eq_ok {unpriced : ℕ} (h : ofTotal sum unpriced = .ok v) :
    v.sums = sum ∧ v.IsBalanced := by
  unfold ofTotal at h
  simp only [bind_eq_ok, elim_error_eq_ok, pure_eq_ok] at h
  obtain ⟨effective, heffective, available, havailable, availableSetup, hsetup, rfl⟩ := h
  exact ⟨rfl, Decimal.sub?_roundsEven heffective, Decimal.sub?_roundsEven havailable,
    Decimal.sub?_roundsEven hsetup⟩

theorem exists_mergeChanges (h : ofPositions positions prices changes policy = .ok v) :
    ∃ merged, mergeChanges positions changes = .ok merged := by
  rw [ofPositions, bind_eq_ok] at h
  obtain ⟨merged, hmerge, -⟩ := h
  rw [Outcome.mapRefusal_eq_ok, Outcome.ofRefusable_eq_ok] at hmerge
  exact ⟨merged, hmerge⟩

/-- A valuation shows the sums over the positions in order, and their differences. -/
theorem addParts_eq_sums (h : ofPositions positions prices changes policy = .ok v)
    (hmerge : mergeChanges positions changes = .ok merged) :
    addParts .zero (parts (inOrder merged) prices policy) = .ok v.sums ∧ v.IsBalanced := by
  obtain ⟨-, sum, unpriced, hsum, hv⟩ := ofPositions_eq_ok h hmerge
  obtain ⟨hsums, hbalanced⟩ := ofTotal_eq_ok hv
  exact ⟨by rw [hsums, ← sumParts_parts, hsum], hbalanced⟩

/-- A part is what a position adds. -/
theorem exists_added_of_mem_parts {part : Part} (h : part ∈ parts positions prices policy) :
    ∃ p ∈ positions, part.contribution = p.added prices policy := by
  obtain ⟨p, hp, hpart⟩ := List.mem_filterMap.1 h
  exact ⟨p, hp, by rw [Position.added, hpart, Option.elim_some]⟩

/-- The parts add up to what the positions add. -/
theorem sum_parts {q : Contribution → ℚ} (hzero : q .zero = 0) (positions : List Position)
    (prices : PriceSource) (policy : Policy) :
    ((parts positions prices policy).map fun part ↦ q part.contribution).sum =
      (positions.map fun p ↦ q (p.added prices policy)).sum := by
  induction positions with
  | nil => rfl
  | cons p ps ih =>
    rw [List.map_cons, List.sum_cons, ← ih, parts, List.filterMap_cons, Position.added]
    cases p.part? prices policy with
    | none => rw [Option.elim_none, hzero, zero_add, parts]
    | some part => rw [List.map_cons, List.sum_cons, Option.elim_some, parts]

/-- An exact valuation adds up what its positions add. -/
theorem additive_sums {q : Contribution → ℚ} (hq : Contribution.IsAdditive q)
    (h : ofPositions positions prices changes policy = .ok v)
    (hmerge : mergeChanges positions changes = .ok merged) (hexact : Exact merged prices policy) :
    q v.sums = (merged.map fun p ↦ q (p.added prices policy)).sum := by
  obtain ⟨-, sum, unpriced, hsum, hv⟩ := ofPositions_eq_ok h hmerge
  rw [(ofTotal_eq_ok hv).1, additive_sumParts hq hsum hexact.sums, sum_parts hq.zero]

/-- What a position adds to the sums, if there is one. -/
def addedBy (p? : Option Position) (prices : PriceSource) (policy : Policy) : Contribution :=
  p?.elim .zero (·.added prices policy)

/-- The positions that are selected stand in these slots. -/
def InSlots (slot : α → Position) (φ : α → Option Position) : Prop :=
  ∀ x, ∀ p ∈ φ x, p.address = (slot x).address ∧ p.token = (slot x).token

variable {slot : α → Position} {φ ψ : α → Option Position}

theorem sumParts_eq_sums (hφ : InSlots slot φ)
    (h : ofPositions positions prices changes policy = .ok v)
    (hmerge : mergeChanges positions changes = .ok (l.filterMap φ)) :
    addParts .zero ((l.mergeSort fun x y ↦ (slot x).le (slot y)).filterMap
      fun x ↦ (φ x).bind (·.part? prices policy)) = .ok v.sums := by
  rw [← (addParts_eq_sums h hmerge).1, ← sumParts_parts, parts, List.filterMap_filterMap]
  refine (sumParts_filterMap slot (fun x part hpart ↦ ?_) l).symm
  obtain ⟨p, hp, hpart⟩ := Option.bind_eq_some_iff.1 hpart
  obtain ⟨haddress, htoken⟩ := Position.part?_slot hpart
  obtain ⟨haddress', htoken'⟩ := hφ x p hp
  exact ⟨haddress.trans haddress', htoken.trans htoken'⟩

/-- A figure that is at most another one in each slot is at most the other one in total. -/
theorem figure_le_of_slots (hφ : InSlots slot φ) (hψ : InSlots slot ψ) (hf : IsFigure f)
    (hg : IsFigure g) (h : ofPositions positions prices changes policy = .ok v)
    (h' : ofPositions positions' prices' changes' policy' = .ok v')
    (hmerge : mergeChanges positions changes = .ok (l.filterMap φ))
    (hmerge' : mergeChanges positions' changes' = .ok (l.filterMap ψ))
    (hle : ∀ x ∈ l, (f (addedBy (φ x) prices policy)).toRat ≤
      (g (addedBy (ψ x) prices' policy')).toRat) : (f v.sums).toRat ≤ (g v'.sums).toRat := by
  have hadded : ∀ (p? : Option Position) (prices : PriceSource) (policy : Policy),
      ((p?.bind (·.part? prices policy)).elim .zero (·.contribution) : Contribution) =
        addedBy p? prices policy := by
    intro p? prices policy
    cases p? <;> rfl
  refine addParts_filterMap_le hf hg (fun x hx ↦ ?_) (by rw [hf.zero, hg.zero])
    (sumParts_eq_sums hφ h hmerge) (sumParts_eq_sums hψ h' hmerge')
  rw [hadded, hadded]
  exact hle x (List.mem_mergeSort.1 hx)

/-- A figure that is at most another one for each position is at most the other one in total. -/
theorem figure_le (hf : IsFigure f) (hg : IsFigure g)
    (h : ofPositions positions prices changes policy = .ok v)
    (h' : ofPositions positions' prices' changes' policy' = .ok v')
    (hmerge : mergeChanges positions changes = .ok merged)
    (hmerge' : mergeChanges positions' changes' = .ok merged)
    (hle : ∀ p ∈ merged,
      (f (p.added prices policy)).toRat ≤ (g (p.added prices' policy')).toRat) :
    (f v.sums).toRat ≤ (g v'.sums).toRat := by
  have hslots : InSlots id (some : Position → Option Position) := by
    rintro p _ ⟨⟩
    exact ⟨rfl, rfl⟩
  rw [← List.filterMap_some (l := merged)] at hmerge hmerge'
  exact figure_le_of_slots hslots hslots hf hg h h' hmerge hmerge' hle

theorem figure_nonneg (hf : IsFigure f) (h : ofPositions positions prices changes policy = .ok v)
    (hmerge : mergeChanges positions changes = .ok merged)
    (hle : ∀ p ∈ merged, 0 ≤ (f (p.added prices policy)).toRat) : 0 ≤ (f v.sums).toRat := by
  have hzero := figure_le isFigure_zero hf h h hmerge hmerge fun p hp ↦ by
    rw [Decimal.toRat_zero]
    exact hle p hp
  rwa [Decimal.toRat_zero] at hzero

end Valuation

/-! ## Sound contributions -/

/-- Collateral is weighed at no more than it is worth, debt at no less. -/
structure Contribution.IsSound (c : Contribution) : Prop where
  weighted_nonneg : 0 ≤ c.weighted.toRat
  weighted_le : c.weighted.toRat ≤ c.assets.toRat
  liabilities_nonneg : 0 ≤ c.liabilities.toRat
  liabilities_le : c.liabilities.toRat ≤ c.required.toRat
  liabilities_le_setup : c.liabilities.toRat ≤ c.requiredSetup.toRat

theorem Contribution.isSound_zero : zero.IsSound :=
  ⟨Decimal.toRat_zero.ge, le_rfl, Decimal.toRat_zero.ge, le_rfl, le_rfl⟩

namespace Position

variable {weight : Decimal} {a : Appraisal}

theorem modifier_pos (hp : p.check = .ok ()) (hk : p.kind = .claim) : 0 < p.modifier.toRat := by
  obtain ⟨hmodifier, -, hclaim⟩ := checkModifier_eq_ok.1 hp
  exact lt_of_le_of_ne hmodifier (hclaim hk).symm

/-- The weight of a claim for setting up trades is a share of its weight. -/
theorem setupWeight?_bounds (hp : p.check = .ok ()) (hpolicy : policy.check = .ok ())
    (h : p.setupWeight? policy = some weight) :
    0 < weight.toRat ∧ weight.toRat ≤ p.modifier.toRat := by
  obtain ⟨hmodifier, -, -⟩ := checkModifier_eq_ok.1 hp
  obtain ⟨hfraction, hone⟩ := Policy.setupFraction_of_check hpolicy
  obtain ⟨hweight, hne⟩ := setupWeight?_eq_some h
  obtain ⟨hnonneg, hle⟩ := Decimal.mul?_share hmodifier hfraction.le hone hweight
  exact ⟨lt_of_le_of_ne hnonneg hne.symm, hle⟩

theorem added_isSound (h : p.appraise prices policy = .ok a) (hp : p.check = .ok ())
    (hpolicy : policy.check = .ok ()) : (p.added prices policy).IsSound := by
  obtain ⟨hmodifier, hone, -⟩ := checkModifier_eq_ok.1 hp
  cases hk : p.kind with
  | noValue =>
    rw [added_of_noValue hk]
    exact Contribution.isSound_zero
  | deposit =>
    have hworth := worth_nonneg h (by rw [hk]; decide)
    obtain ⟨weighted, hweighted, hadded⟩ := added_of_deposit h hk
    obtain ⟨hnonneg, hle⟩ := Decimal.mul?_share hworth hmodifier hone hweighted
    rw [hadded]
    exact ⟨hnonneg, hle, Decimal.toRat_zero.ge, le_rfl, le_rfl⟩
  | claim =>
    have hworth := worth_nonneg h (by rw [hk]; decide)
    have hpos := modifier_pos hp hk
    obtain ⟨required, requiredSetup, hrequired, hsetup, hnone, hadded⟩ := added_of_claim h hk hpos.ne'
    rw [hadded]
    refine ⟨Decimal.toRat_zero.ge, le_rfl, hworth, Decimal.le_div?_share hworth hpos hone hrequired, ?_⟩
    cases hweight : p.setupWeight? policy with
    | none =>
      obtain ⟨hzero, hzero'⟩ := hnone hweight
      rw [hzero, hzero']
    | some weight =>
      obtain ⟨hwpos, hle⟩ := setupWeight?_bounds hp hpolicy hweight
      exact Decimal.le_div?_share hworth hwpos (hle.trans hone) (hsetup weight hweight)

/-! ## Two quotients of one claim -/

/-- What a claim requires breaks a tie upward, and what it requires for setting up trades, by a
weight of the same value, does not. -/
def SetupTiesApart (p : Position) (prices : PriceSource) (policy : Policy) : Prop :=
  p.kind = .claim ∧ ∃ weight ∈ p.setupWeight? policy,
    Risk.TiesApart (p.worth prices) p.modifier (p.worth prices) weight

/-- A position requires as much for setting up trades or more, ties apart. -/
theorem required_le_requiredSetup_iff (h : p.appraise prices policy = .ok a) (hp : p.check = .ok ())
    (hpolicy : policy.check = .ok ()) :
    (p.added prices policy).required.toRat ≤ (p.added prices policy).requiredSetup.toRat ↔
      ¬p.SetupTiesApart prices policy := by
  by_cases hk : p.kind = .claim
  · have hworth := worth_nonneg h (by rw [hk]; decide)
    obtain ⟨required, requiredSetup, hrequired, hsetup, hnone, hadded⟩ :=
      added_of_claim h hk (modifier_pos hp hk).ne'
    rw [hadded, SetupTiesApart, and_iff_right hk]
    cases hweight : p.setupWeight? policy with
    | none =>
      obtain ⟨hzero, rfl⟩ := hnone hweight
      rw [hzero] at hrequired
      have hround := Decimal.div?_rounds hrequired
      rw [Decimal.toRat_zero, zero_div] at hround
      exact iff_of_true ((hround.nonpos le_rfl).trans Decimal.toRat_zero.ge) (by simp)
    | some weight =>
      obtain ⟨hpos, hle⟩ := setupWeight?_bounds hp hpolicy hweight
      have hiff := Risk.div?_le_div?_iff hworth le_rfl hpos hle hrequired (hsetup weight hweight)
      rw [hiff]
      simp
  · obtain ⟨hrequired, hsetup⟩ := required_of_not_claim h hk
    rw [hrequired, hsetup]
    exact iff_of_true le_rfl fun htie ↦ hk htie.1

/-- Ties come apart only where hardly anything of the allowance is left out of setting up trades: a
weight that breaks ties upward has more than 64 bits, and keeps its value only in a product with
almost one. -/
theorem SetupTiesApart.setupFraction_ge (h : p.SetupTiesApart prices policy)
    (hpolicy : policy.check = .ok ()) : 1 - 1 / 2 ^ 65 ≤ policy.setupFraction.toRat := by
  obtain ⟨-, weight, hsetupWeight, htie⟩ := h
  obtain ⟨hweight, -⟩ := setupWeight?_eq_some hsetupWeight
  obtain ⟨hfraction, hone⟩ := Policy.setupFraction_of_check hpolicy
  have hlong := Decimal.le_abs_toRat_of_isLong htie.isLong
  -- the product has lost nothing but a rounding
  have hlost : |p.modifier.toRat| * (1 - policy.setupFraction.toRat) ≤
      1 / 10 ^ 28 * max (1 / 2) (2 / 3 * (|p.modifier.toRat| * policy.setupFraction.toRat)) := by
    have herr := (Decimal.mul?_roundsEven hweight).rounds.error_le
    rw [← htie.weighted, abs_mul, abs_of_pos hfraction] at herr
    calc |p.modifier.toRat| * (1 - policy.setupFraction.toRat)
        = |p.modifier.toRat - p.modifier.toRat * policy.setupFraction.toRat| := by
          rw [← mul_one_sub, abs_mul, abs_of_nonneg (sub_nonneg.2 hone)]
      _ ≤ _ := herr
  generalize |p.modifier.toRat| = m at hlong hlost
  generalize policy.setupFraction.toRat = f at *
  rcases max_cases (1 / 2) (2 / 3 * (m * f)) with ⟨hmax, -⟩ | ⟨hmax, -⟩
  · rw [hmax] at hlost
    nlinarith
  · rw [hmax] at hlost
    nlinarith

end Position

/-! ## The figures in order -/

namespace Valuation

variable {v : Valuation}

theorem sums_isSound (h : ofPositions positions prices changes policy = .ok v)
    (hmerge : mergeChanges positions changes = .ok merged)
    (hsound : ∀ p ∈ merged, (p.added prices policy).IsSound) : v.sums.IsSound where
  weighted_nonneg := figure_nonneg isFigure_weighted h hmerge fun p hp ↦ (hsound p hp).weighted_nonneg
  weighted_le := figure_le isFigure_weighted isFigure_assets h h hmerge hmerge fun p hp ↦
    (hsound p hp).weighted_le
  liabilities_nonneg := figure_nonneg isFigure_liabilities h hmerge fun p hp ↦
    (hsound p hp).liabilities_nonneg
  liabilities_le := figure_le isFigure_liabilities isFigure_required h h hmerge hmerge fun p hp ↦
    (hsound p hp).liabilities_le
  liabilities_le_setup := figure_le isFigure_liabilities isFigure_requiredSetup h h hmerge hmerge
    fun p hp ↦ (hsound p hp).liabilities_le_setup

/-- The figures of a valuation with allowed weights are sound. -/
theorem isSound_of_checks (hpositions : ∀ p ∈ positions, p.check = .ok ())
    (hchanges : ∀ c ∈ changes, checkModifier c.token c.kind c.modifier = .ok ())
    (hpolicy : policy.check = .ok ()) (h : ofPositions positions prices changes policy = .ok v) :
    v.sums.IsSound := by
  obtain ⟨merged, hmerge⟩ := exists_mergeChanges h
  refine sums_isSound h hmerge fun p hp ↦ ?_
  obtain ⟨a, ha⟩ := (ofPositions_eq_ok h hmerge).1 p hp
  exact Position.added_isSound ha (check_of_mergeChanges hpositions hchanges hmerge p hp) hpolicy

/-- The risk of sound figures is never refused. -/
theorem risk_eq_ofDemand (hsound : v.sums.IsSound) :
    v.risk = .ok (Risk.ofDemand (v.required.value.add? v.liabilities.value) v.weighted.value) := by
  have hnonneg {d : Decimal} (h : 0 ≤ d.toRat) : Decimal.zero ≤ d := by
    rwa [Decimal.le_iff_toRat, Decimal.toRat_zero]
  exact Risk.ofFigures_of_nonneg (hnonneg (hsound.liabilities_nonneg.trans hsound.liabilities_le))
    (hnonneg hsound.weighted_nonneg) (hnonneg hsound.liabilities_nonneg)

/-- Where no claim breaks its ties apart, setting up trades requires as much or more. -/
theorem required_le_requiredSetup (hpolicy : policy.check = .ok ())
    (h : ofPositions positions prices changes policy = .ok v)
    (hmerge : mergeChanges positions changes = .ok merged)
    (hchecks : ∀ p ∈ merged, p.check = .ok ())
    (hties : ∀ p ∈ merged, ¬p.SetupTiesApart prices policy) :
    v.sums.required.toRat ≤ v.sums.requiredSetup.toRat := by
  refine figure_le isFigure_required isFigure_requiredSetup h h hmerge hmerge fun p hp ↦ ?_
  obtain ⟨a, ha⟩ := (ofPositions_eq_ok h hmerge).1 p hp
  exact (Position.required_le_requiredSetup_iff ha (hchecks p hp) hpolicy).2 (hties p hp)

/-- The figures of a valuation are in order: collateral is weighed down and debt up, and each figure
that is left is less than the one before. What is required for setting up trades and what is left
for it are in order too, unless the fraction of the allowance for it is all but one and a claim
breaks its ties apart. -/
theorem figures_in_order (hpositions : ∀ p ∈ positions, p.check = .ok ())
    (hchanges : ∀ c ∈ changes, checkModifier c.token c.kind c.modifier = .ok ())
    (hpolicy : policy.check = .ok ()) (h : ofPositions positions prices changes policy = .ok v) :
    (.zero ≤ v.weighted.value ∧ v.weighted.value ≤ v.assets.value) ∧
      (.zero ≤ v.liabilities.value ∧ v.liabilities.value ≤ v.required.value ∧
        v.liabilities.value ≤ v.requiredSetup.value) ∧
      (v.available.value ≤ v.effective.value ∧ v.availableSetup.value ≤ v.effective.value ∧
        v.effective.value ≤ v.weighted.value) ∧
      ((policy.setupFraction.toRat < 1 - 1 / 2 ^ 65 ∨
          ∀ merged, mergeChanges positions changes = .ok merged →
            ∀ p ∈ merged, ¬p.SetupTiesApart prices policy) →
        v.required.value ≤ v.requiredSetup.value ∧ v.availableSetup.value ≤ v.available.value) := by
  obtain ⟨merged, hmerge⟩ := exists_mergeChanges h
  obtain ⟨heffective, havailable, hsetup⟩ := (addParts_eq_sums h hmerge).2
  obtain ⟨hw₀, hw, hl₀, hl, hls⟩ := isSound_of_checks hpositions hchanges hpolicy h
  have hr₀ : 0 ≤ v.required.value.toRat := hl₀.trans hl
  have hs₀ : 0 ≤ v.requiredSetup.value.toRat := hl₀.trans hls
  simp only [Decimal.le_iff_toRat, Decimal.toRat_zero]
  refine ⟨⟨hw₀, hw⟩, ⟨hl₀, hl, hls⟩, ⟨?_, ?_, ?_⟩, fun hties ↦ ?_⟩
  · exact havailable.rounds.le_of_le (sub_le_self _ hr₀)
  · exact hsetup.rounds.le_of_le (sub_le_self _ hs₀)
  · exact heffective.rounds.le_of_le (sub_le_self _ hl₀)
  · have hnone : ∀ p ∈ merged, ¬p.SetupTiesApart prices policy := fun p hp htie ↦
      hties.elim (fun hlt ↦ absurd (htie.setupFraction_ge hpolicy) (not_le.2 hlt))
        fun hnone ↦ hnone merged hmerge p hp htie
    have hchecks := check_of_mergeChanges hpositions hchanges hmerge
    have hle := required_le_requiredSetup hpolicy h hmerge hchecks hnone
    exact ⟨hle, hsetup.mono havailable (sub_le_sub_left hle _)⟩

end Valuation

/-! ## A claim at a long weight -/

namespace Sample

/-- A claim of 1.2676… tokens, all 28 places of them, at a weight of sixteen hundredths that is
written with 27 places. -/
def longClaim : Position :=
  ⟨.ofTag 2, .ofTag 2, { units := 12676506002282294014967032100 }, -28, .claim,
    .lit 160000000000000000000000000 27⟩

/-- New trades may use the whole allowance. -/
def wholeAllowance : Policy := { Policy.standard with setupFraction := .lit 10 1 }

end Sample

namespace Valuation

open Sample

/-- Ten dollars of deposits, one more put in, and a claim: with half of the allowance for new trades
all figures are in order. -/
theorem figures_in_order_of_half_allowance :
    ∃ v, ofPositions [deposited 1 { units := 10 } 0, longClaim] oneDollar
        [⟨.ofTag 1, .deposit, 0, .one, { units := 1 }⟩] .standard = .ok v ∧
      v.weighted.value = .lit 11 ∧ v.required.value ≤ v.requiredSetup.value ∧
      v.availableSetup.value ≤ v.available.value := by
  obtain ⟨v, hv, hweighted⟩ : ∃ v, ofPositions [deposited 1 { units := 10 } 0, longClaim] oneDollar
      [⟨.ofTag 1, .deposit, 0, .one, { units := 1 }⟩] .standard = .ok v ∧
        decide (v.weighted.value = .lit 11) = true := by
    apply exists_ok_of_any
    rw [ofPositions_of_sorted rfl (by decide +kernel)]
    decide +kernel
  obtain ⟨-, -, -, hsetup⟩ := figures_in_order (by decide) (by decide) (by decide) hv
  exact ⟨v, hv, of_decide_eq_true hweighted, hsetup (.inl (by decide +kernel))⟩

/-- With the whole allowance for new trades the claim is divided twice by sixteen hundredths, at 27
and at 28 places. The first quotient breaks its tie upward and the second to even, so less is
required for setting up trades, and more is left for it. -/
theorem requiredSetup_falls_below_required :
    longClaim.check = .ok () ∧ wholeAllowance.check = .ok () ∧
      ∃ v, ofPositions [longClaim] oneDollar [] wholeAllowance = .ok v ∧
        v.required.value = .lit 7922816251426433759354395063 27 ∧
        v.requiredSetup.value = .lit 7922816251426433759354395062 27 ∧
        ¬v.required.value ≤ v.requiredSetup.value ∧ ¬v.availableSetup.value ≤ v.available.value := by
  obtain ⟨v, hv, hfigures⟩ : ∃ v, ofPositions [longClaim] oneDollar [] wholeAllowance = .ok v ∧
      decide (v.required.value = .lit 7922816251426433759354395063 27 ∧
        v.requiredSetup.value = .lit 7922816251426433759354395062 27 ∧
        ¬v.required.value ≤ v.requiredSetup.value ∧
        ¬v.availableSetup.value ≤ v.available.value) = true := by
    apply exists_ok_of_any
    rw [ofPositions_of_sorted rfl (by decide +kernel)]
    decide +kernel
  exact ⟨by decide, by decide, v, hv, of_decide_eq_true hfigures⟩

end Valuation

end MarginAccount
