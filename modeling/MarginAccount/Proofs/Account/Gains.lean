import MarginAccount.Proofs.Account.Figures

/-! # Two valuations in order

An account is no worse than before if each of its deposits is worth as much or more and each of its
claims as much or less: it has as much collateral or more, and as much debt or less. The positions
are compared by what they are worth, so it does not matter whether prices or balances have moved.

What a claim requires is a quotient of its worth. Rounding keeps the order there too, except where
the worth stays the same number and only its scale changes: of two quotients of one ratio, one may
break a tie upward where the other does not.
-/

namespace MarginAccount

variable {prices prices' : PriceSource} {policy : Policy} {p p' : Position} {weight : Decimal}

/-- More of a deposit and less of a claim is for the good of the account. -/
structure PositionKind.Favours {α : Type} [LE α] (kind : PositionKind) (x x' : α) : Prop where
  deposit : kind = .deposit → x ≤ x'
  claim : kind = .claim → x' ≤ x

instance {α : Type} [LE α] [DecidableLE α] (kind : PositionKind) (x x' : α) :
    Decidable (kind.Favours x x') :=
  decidable_of_iff ((kind = .deposit → x ≤ x') ∧ (kind = .claim → x' ≤ x))
    ⟨fun h ↦ ⟨h.1, h.2⟩, fun h ↦ ⟨h.1, h.2⟩⟩

namespace PositionKind.Favours

variable {α : Type} [Preorder α] {kind : PositionKind} {x y z : α}

theorem refl (kind : PositionKind) (x : α) : kind.Favours x x := ⟨fun _ ↦ le_rfl, fun _ ↦ le_rfl⟩

theorem trans (h : kind.Favours x y) (h' : kind.Favours y z) : kind.Favours x z where
  deposit hk := (h.deposit hk).trans (h'.deposit hk)
  claim hk := (h'.claim hk).trans (h.claim hk)

end PositionKind.Favours

/-! ## Two contributions -/

/-- The second contribution has as much collateral or more, and as much debt or less. -/
structure Contribution.Gains (c c' : Contribution) : Prop where
  assets : c.assets.toRat ≤ c'.assets.toRat
  weighted : c.weighted.toRat ≤ c'.weighted.toRat
  liabilities : c'.liabilities.toRat ≤ c.liabilities.toRat

/-- The second contribution gains, and requires as much or less, ties apart. -/
structure Contribution.Eases (ties setupTies : Prop) (c c' : Contribution) : Prop
    extends c.Gains c' where
  required : ¬ties → c'.required.toRat ≤ c.required.toRat
  requiredSetup : ¬setupTies → c'.requiredSetup.toRat ≤ c.requiredSetup.toRat

theorem Contribution.Eases.refl {ties setupTies : Prop} (c : Contribution) :
    c.Eases ties setupTies c where
  assets := le_rfl
  weighted := le_rfl
  liabilities := le_rfl
  required _ := le_rfl
  requiredSetup _ := le_rfl

theorem Contribution.Eases.imp {ties ties' setupTies setupTies' : Prop} {c c' : Contribution}
    (h : c.Eases ties setupTies c') (hties : ties → ties') (hsetup : setupTies → setupTies') :
    c.Eases ties' setupTies' c' where
  toGains := h.toGains
  required hnot := h.required (mt hties hnot)
  requiredSetup hnot := h.requiredSetup (mt hsetup hnot)

/-! ## Two positions of one kind and weight -/

namespace Position

variable {a a' : Appraisal} {c c' : Decimal}

theorem added_gains_of_worth (h : p.appraise prices policy = .ok a)
    (h' : p'.appraise prices' policy = .ok a') (hp : p.check = .ok ()) (hkind : p'.kind = p.kind)
    (hmodifier : p'.modifier = p.modifier)
    (hworth : p.kind.Favours (p.worth prices).toRat (p'.worth prices').toRat) :
    (p.added prices policy).Gains (p'.added prices' policy) := by
  cases hk : p.kind with
  | noValue =>
    rw [added_of_noValue hk, added_of_noValue (hkind.trans hk)]
    exact ⟨le_rfl, le_rfl, le_rfl⟩
  | deposit =>
    obtain ⟨hnonneg, -, -⟩ := checkModifier_eq_ok.1 hp
    have hle := hworth.deposit hk
    obtain ⟨weighted, hweighted, hadded⟩ := added_of_deposit h hk
    obtain ⟨weighted', hweighted', hadded'⟩ := added_of_deposit h' (hkind.trans hk)
    rw [hmodifier] at hweighted'
    rw [hadded, hadded']
    exact ⟨hle, (Decimal.mul?_roundsEven hweighted).mono (Decimal.mul?_roundsEven hweighted')
      (mul_le_mul_of_nonneg_right hle hnonneg), le_rfl⟩
  | claim =>
    have hne := (modifier_pos hp hk).ne'
    obtain ⟨_, _, -, -, -, hadded⟩ := added_of_claim h hk hne
    obtain ⟨_, _, -, -, -, hadded'⟩ := added_of_claim h' (hkind.trans hk) (hmodifier ▸ hne)
    rw [hadded, hadded']
    exact ⟨le_rfl, le_rfl, hworth.claim hk⟩

/-- The worth of a claim over a weight breaks a tie upward for the second position, and does not for
the first, where it is the same number at another scale. -/
def TiesApart (p p' : Position) (weight : Decimal) (prices prices' : PriceSource) : Prop :=
  p.kind = .claim ∧ Risk.TiesApart (p'.worth prices') weight (p.worth prices) weight

/-- Ties never come apart over a weight of at most 64 bits. -/
theorem not_tiesApart (h : weight.isLong = false) : ¬p.TiesApart p' weight prices prices' := by
  intro htie
  rw [htie.2.isLong] at h
  cases h

theorem div?_worth_le_iff_of_worth (h' : p'.appraise prices' policy = .ok a') (hk : p.kind = .claim)
    (hkind : p'.kind = p.kind) (hworth : (p'.worth prices').toRat ≤ (p.worth prices).toRat)
    (hweight : 0 < weight.toRat) (hq : (p.worth prices).div? weight = some c)
    (hq' : (p'.worth prices').div? weight = some c') :
    c'.toRat ≤ c.toRat ↔ ¬p.TiesApart p' weight prices prices' := by
  have hne : p'.kind ≠ .noValue := by
    rw [hkind, hk]
    decide
  rw [TiesApart, and_iff_right hk]
  exact Risk.div?_le_div?_iff (worth_nonneg h' hne) hworth hweight le_rfl hq' hq

theorem required_le_iff_of_worth (h : p.appraise prices policy = .ok a)
    (h' : p'.appraise prices' policy = .ok a') (hp : p.check = .ok ()) (hkind : p'.kind = p.kind)
    (hmodifier : p'.modifier = p.modifier)
    (hworth : p.kind.Favours (p.worth prices).toRat (p'.worth prices').toRat) :
    (p'.added prices' policy).required.toRat ≤ (p.added prices policy).required.toRat ↔
      ¬p.TiesApart p' p.modifier prices prices' := by
  by_cases hk : p.kind = .claim
  · have hpos := modifier_pos hp hk
    obtain ⟨required, _, hrequired, -, -, hadded⟩ := added_of_claim h hk hpos.ne'
    obtain ⟨required', _, hrequired', -, -, hadded'⟩ :=
      added_of_claim h' (hkind.trans hk) (hmodifier ▸ hpos.ne')
    rw [hmodifier] at hrequired'
    rw [hadded, hadded']
    exact div?_worth_le_iff_of_worth h' hk hkind (hworth.claim hk) hpos hrequired hrequired'
  · rw [(required_of_not_claim h hk).1, (required_of_not_claim h' (hkind ▸ hk)).1]
    exact iff_of_true le_rfl fun htie ↦ hk htie.1

theorem requiredSetup_le_iff_of_worth (h : p.appraise prices policy = .ok a)
    (h' : p'.appraise prices' policy = .ok a') (hp : p.check = .ok ()) (hpolicy : policy.check = .ok ())
    (hkind : p'.kind = p.kind) (hmodifier : p'.modifier = p.modifier)
    (hworth : p.kind.Favours (p.worth prices).toRat (p'.worth prices').toRat) :
    (p'.added prices' policy).requiredSetup.toRat ≤ (p.added prices policy).requiredSetup.toRat ↔
      ∀ weight ∈ p.setupWeight? policy, ¬p.TiesApart p' weight prices prices' := by
  by_cases hk : p.kind = .claim
  · have hne := (modifier_pos hp hk).ne'
    have hweights : p'.setupWeight? policy = p.setupWeight? policy := by
      rw [setupWeight?, setupWeight?, hmodifier]
    obtain ⟨_, setup, -, hsetup, hnone, hadded⟩ := added_of_claim h hk hne
    obtain ⟨_, setup', -, hsetup', hnone', hadded'⟩ :=
      added_of_claim h' (hkind.trans hk) (hmodifier ▸ hne)
    rw [hweights] at hsetup' hnone'
    rw [hadded, hadded']
    cases hweight : p.setupWeight? policy with
    | none =>
      -- neither is worth anything
      rw [(hnone hweight).2, (hnone' hweight).2]
      exact iff_of_true le_rfl (by simp)
    | some weight =>
      have hpos := (setupWeight?_bounds hp hpolicy hweight).1
      have hiff := div?_worth_le_iff_of_worth h' hk hkind (hworth.claim hk) hpos
        (hsetup weight hweight) (hsetup' weight hweight)
      rw [hiff]
      simp
  · rw [(required_of_not_claim h hk).2, (required_of_not_claim h' (hkind ▸ hk)).2]
    exact iff_of_true le_rfl fun _ _ htie ↦ hk htie.1

theorem added_eases (h : p.appraise prices policy = .ok a)
    (h' : p'.appraise prices' policy = .ok a') (hp : p.check = .ok ()) (hpolicy : policy.check = .ok ())
    (hkind : p'.kind = p.kind) (hmodifier : p'.modifier = p.modifier)
    (hworth : p.kind.Favours (p.worth prices).toRat (p'.worth prices').toRat) :
    (p.added prices policy).Eases (p.TiesApart p' p.modifier prices prices')
      (∃ weight ∈ p.setupWeight? policy, p.TiesApart p' weight prices prices')
      (p'.added prices' policy) where
  toGains := added_gains_of_worth h h' hp hkind hmodifier hworth
  required := (required_le_iff_of_worth h h' hp hkind hmodifier hworth).2
  requiredSetup hties := (requiredSetup_le_iff_of_worth h h' hp hpolicy hkind hmodifier hworth).2
    fun weight hweight htie ↦ hties ⟨weight, hweight, htie⟩

end Position

/-! ## Two valuations -/

namespace Valuation

variable {v v' : Valuation} {ρ ρ' : Risk} {ties setupTies : Prop}

theorem effective_mono (hbalanced : v.IsBalanced) (hbalanced' : v'.IsBalanced)
    (hgains : v.sums.Gains v'.sums) : v.effective.value.toRat ≤ v'.effective.value.toRat :=
  hbalanced.effective.mono hbalanced'.effective (sub_le_sub hgains.weighted hgains.liabilities)

theorem available_mono (hbalanced : v.IsBalanced) (hbalanced' : v'.IsBalanced)
    (hgains : v.sums.Gains v'.sums)
    (hrequired : v'.required.value.toRat ≤ v.required.value.toRat) :
    v.available.value.toRat ≤ v'.available.value.toRat :=
  hbalanced.available.mono hbalanced'.available
    (sub_le_sub (effective_mono hbalanced hbalanced' hgains) hrequired)

theorem availableSetup_mono (hbalanced : v.IsBalanced) (hbalanced' : v'.IsBalanced)
    (hgains : v.sums.Gains v'.sums)
    (hrequired : v'.requiredSetup.value.toRat ≤ v.requiredSetup.value.toRat) :
    v.availableSetup.value.toRat ≤ v'.availableSetup.value.toRat :=
  hbalanced.availableSetup.mono hbalanced'.availableSetup
    (sub_le_sub (effective_mono hbalanced hbalanced' hgains) hrequired)

/-- The first risk breaks a tie upward, and the second one, of a demand and a collateral of the same
values, does not. -/
def RiskTiesApart (v v' : Valuation) : Prop :=
  ∃ a ∈ v.required.value.add? v.liabilities.value, ∃ b ∈ v'.required.value.add? v'.liabilities.value,
    Risk.TiesApart a v.weighted.value b v'.weighted.value

/-- Risks never break ties apart over collateral of at most 64 bits. -/
theorem not_riskTiesApart (h : v.weighted.value.isLong = false) : ¬v.RiskTiesApart v' := by
  rintro ⟨_, -, _, -, htie⟩
  rw [htie.isLong] at h
  cases h

/-- Where collateral gains and less is required, risk is as much as before or less, ties apart. -/
theorem risk_le_iff (hsound : v.sums.IsSound) (hsound' : v'.sums.IsSound)
    (hgains : v.sums.Gains v'.sums)
    (hrequired : v'.required.value.toRat ≤ v.required.value.toRat) (hρ : v.risk = .ok ρ)
    (hρ' : v'.risk = .ok ρ') : ρ' ≤ ρ ↔ ¬v'.RiskTiesApart v := by
  rw [risk_eq_ofDemand hsound, Except.ok.injEq] at hρ
  rw [risk_eq_ofDemand hsound', Except.ok.injEq] at hρ'
  have hnonneg : 0 ≤ v'.required.value.toRat :=
    hsound'.liabilities_nonneg.trans hsound'.liabilities_le
  rw [← hρ, ← hρ']
  exact Risk.ofDemand_add?_le_iff hnonneg hsound'.liabilities_nonneg hrequired hgains.liabilities
    hsound.weighted_nonneg hgains.weighted

/-- The second valuation, of the second risk, is as good as the first or better: always in collateral
and debt, in what is left of them where no claim breaks its ties apart, and in risk where the two
risks do not either. -/
structure Improves (ties setupTies : Prop) (v v' : Valuation) (ρ ρ' : Risk) : Prop where
  assets : v.assets.value ≤ v'.assets.value
  weighted : v.weighted.value ≤ v'.weighted.value
  effective : v.effective.value ≤ v'.effective.value
  liabilities : v'.liabilities.value ≤ v.liabilities.value
  required : ¬ties → v'.required.value ≤ v.required.value
  available : ¬ties → v.available.value ≤ v'.available.value
  risk : ¬ties → (ρ' ≤ ρ ↔ ¬v'.RiskTiesApart v)
  requiredSetup : ¬setupTies → v'.requiredSetup.value ≤ v.requiredSetup.value
  availableSetup : ¬setupTies → v.availableSetup.value ≤ v'.availableSetup.value

theorem improves_of_eases (hsound : v.sums.IsSound) (hsound' : v'.sums.IsSound)
    (hbalanced : v.IsBalanced) (hbalanced' : v'.IsBalanced)
    (heases : v.sums.Eases ties setupTies v'.sums) (hρ : v.risk = .ok ρ) (hρ' : v'.risk = .ok ρ') :
    Improves ties setupTies v v' ρ ρ' where
  assets := Decimal.le_iff_toRat.2 heases.assets
  weighted := Decimal.le_iff_toRat.2 heases.weighted
  effective := Decimal.le_iff_toRat.2 (effective_mono hbalanced hbalanced' heases.toGains)
  liabilities := Decimal.le_iff_toRat.2 heases.liabilities
  required h := Decimal.le_iff_toRat.2 (heases.required h)
  available h :=
    Decimal.le_iff_toRat.2 (available_mono hbalanced hbalanced' heases.toGains (heases.required h))
  risk h := risk_le_iff hsound hsound' heases.toGains (heases.required h) hρ hρ'
  requiredSetup h := Decimal.le_iff_toRat.2 (heases.requiredSetup h)
  availableSetup h := Decimal.le_iff_toRat.2
    (availableSetup_mono hbalanced hbalanced' heases.toGains (heases.requiredSetup h))

section

variable {α : Type} {slot : α → Position} {φ ψ : α → Option Position} {l : List α}
  {positions positions' : List Position} {changes changes' : List Change}

/-- Sums over slots ease what eases in each slot. -/
theorem sums_eases (hφ : InSlots slot φ) (hψ : InSlots slot ψ)
    (h : ofPositions positions prices changes policy = .ok v)
    (h' : ofPositions positions' prices' changes' policy = .ok v')
    (hmerge : mergeChanges positions changes = .ok (l.filterMap φ))
    (hmerge' : mergeChanges positions' changes' = .ok (l.filterMap ψ))
    (heases : ∀ x ∈ l, (addedBy (φ x) prices policy).Eases ties setupTies
      (addedBy (ψ x) prices' policy)) : v.sums.Eases ties setupTies v'.sums where
  assets := figure_le_of_slots hφ hψ isFigure_assets isFigure_assets h h' hmerge hmerge'
    fun x hx ↦ (heases x hx).assets
  weighted := figure_le_of_slots hφ hψ isFigure_weighted isFigure_weighted h h' hmerge hmerge'
    fun x hx ↦ (heases x hx).weighted
  liabilities := figure_le_of_slots hψ hφ isFigure_liabilities isFigure_liabilities h' h hmerge'
    hmerge fun x hx ↦ (heases x hx).liabilities
  required hties := figure_le_of_slots hψ hφ isFigure_required isFigure_required h' h hmerge' hmerge
    fun x hx ↦ (heases x hx).required hties
  requiredSetup hties := figure_le_of_slots hψ hφ isFigure_requiredSetup isFigure_requiredSetup h' h
    hmerge' hmerge fun x hx ↦ (heases x hx).requiredSetup hties

end

/-- Two valuations of the same positions compare as what each position adds to them. -/
theorem improves_of_each (hpositions : ∀ p ∈ positions, p.check = .ok ())
    (hpolicy : policy.check = .ok ()) (h : ofPositions positions prices [] policy = .ok v)
    (h' : ofPositions positions prices' [] policy = .ok v')
    (heases : ∀ p ∈ positions,
      (p.added prices policy).Eases ties setupTies (p.added prices' policy))
    (hρ : v.risk = .ok ρ) (hρ' : v'.risk = .ok ρ') : Improves ties setupTies v v' ρ ρ' := by
  have hslots : InSlots id (some : Position → Option Position) := by
    rintro p _ ⟨⟩
    exact ⟨rfl, rfl⟩
  have hmerge : mergeChanges positions [] = .ok (positions.filterMap some) := by
    rw [List.filterMap_some, mergeChanges_nil]
  refine improves_of_eases (isSound_of_checks hpositions (by simp) hpolicy h)
    (isSound_of_checks hpositions (by simp) hpolicy h') (addParts_eq_sums h hmerge).2
    (addParts_eq_sums h' hmerge).2 ?_ hρ hρ'
  exact sums_eases hslots hslots h h' hmerge hmerge heases

end Valuation

end MarginAccount
