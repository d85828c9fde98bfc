import MarginAccount.Proofs.Account.Landing

/-! # Two valuations at different balances

Where changes add to deposits and take from claims, each position is worth what is for the good of
the account, and the account is no worse; where they go the other way, it is no better. A position
that the changes open is compared with no position at all: it is summed in its own slot, and it adds
nothing against the direction of the changes.

A claim breaks its ties apart at two balances only if it has more than 28 places: with fewer, its
worth has the scale that its value gives it.
-/

namespace MarginAccount

variable {prices : PriceSource} {policy : Policy} {p : Position} {b : Balance} {weight : Decimal}

/-! ## Adding nothing -/

namespace Contribution

/-- The contribution is zero, at whatever scales. -/
structure IsNull (c : Contribution) : Prop where
  assets : c.assets.toRat = 0
  weighted : c.weighted.toRat = 0
  liabilities : c.liabilities.toRat = 0
  required : c.required.toRat = 0
  requiredSetup : c.requiredSetup.toRat = 0

theorem isNull_zero : zero.IsNull where
  assets := Decimal.toRat_zero
  weighted := Decimal.toRat_zero
  liabilities := Decimal.toRat_zero
  required := Decimal.toRat_zero
  requiredSetup := Decimal.toRat_zero

variable {c c' : Contribution} {ties setupTies : Prop}

theorem IsNull.eases (h : c.IsNull) (h' : c'.IsNull) : c.Eases ties setupTies c' where
  assets := (h.assets.trans h'.assets.symm).le
  weighted := (h.weighted.trans h'.weighted.symm).le
  liabilities := (h'.liabilities.trans h.liabilities.symm).le
  required _ := (h'.required.trans h.required.symm).le
  requiredSetup _ := (h'.requiredSetup.trans h.requiredSetup.symm).le

end Contribution

/-! ## One position -/

namespace Position

variable {a a' : Appraisal}

theorem worth_mono_of_units (h : p.appraise prices policy = .ok a)
    (h' : Position.appraise { p with balance := b } prices policy = .ok a') (hk : p.kind ≠ .noValue)
    (hle : p.balance.units ≤ b.units) :
    (p.worth prices).toRat ≤ (Position.worth { p with balance := b } prices).toRat := by
  obtain ⟨quantity, hquantity, -, hround⟩ := worth_roundsEven h hk
  obtain ⟨quantity', hquantity', -, hround'⟩ := worth_roundsEven h' hk
  have hquantities := Decimal.ofFixedPoint?_mono hle hquantity hquantity'
  exact hround.mono hround' (mul_le_mul_of_nonneg_right hquantities (prices.rate_nonneg p.token))

theorem worth_favours_of_units (h : p.appraise prices policy = .ok a)
    (h' : Position.appraise { p with balance := b } prices policy = .ok a')
    (hunits : p.kind.Favours (p.balance.units : ℤ) b.units) :
    p.kind.Favours (p.worth prices).toRat (Position.worth { p with balance := b } prices).toRat where
  deposit hk :=
    worth_mono_of_units h h' (by rw [hk]; decide) (Int.ofNat_le.1 (hunits.deposit hk))
  claim hk := worth_mono_of_units h' h (by show p.kind ≠ _; rw [hk]; decide)
    (Int.ofNat_le.1 (hunits.claim hk))

/-- An empty position is worth nothing. -/
theorem worth_of_empty (h : p.appraise prices policy = .ok a) (hk : p.kind ≠ .noValue)
    (hempty : p.balance.units = 0) : (p.worth prices).toRat = 0 := by
  obtain ⟨quantity, hquantity, -, hround⟩ := worth_roundsEven h hk
  rw [quantity?, hempty] at hquantity
  rw [Decimal.toRat_of_ofFixedPoint?_zero hquantity, zero_mul] at hround
  exact hround.rounds.eq_zero

theorem added_of_worthless (h : p.appraise prices policy = .ok a) (hp : p.check = .ok ())
    (hworth : p.kind ≠ .noValue → (p.worth prices).toRat = 0) :
    (p.added prices policy).IsNull := by
  obtain ⟨hmodifier, hone, -⟩ := checkModifier_eq_ok.1 hp
  cases hk : p.kind with
  | noValue =>
    rw [added_of_noValue hk]
    exact Contribution.isNull_zero
  | deposit =>
    have hzero := hworth (by rw [hk]; decide)
    obtain ⟨weighted, hweighted, hadded⟩ := added_of_deposit h hk
    obtain ⟨hnonneg, hle⟩ := Decimal.mul?_share hzero.ge hmodifier hone hweighted
    rw [hadded]
    exact { Contribution.isNull_zero with
      assets := hzero
      weighted := le_antisymm (hle.trans hzero.le) hnonneg }
  | claim =>
    have hzero := hworth (by rw [hk]; decide)
    have hquotient {weight q : Decimal} (hq : (p.worth prices).div? weight = some q) :
        q.toRat = 0 := by
      have hround := Decimal.div?_rounds hq
      rw [hzero, zero_div] at hround
      exact hround.eq_zero
    obtain ⟨required, requiredSetup, hrequired, hsetup, hnone, hadded⟩ :=
      added_of_claim h hk (modifier_pos hp hk).ne'
    rw [hadded]
    refine { Contribution.isNull_zero with
      liabilities := hzero
      required := hquotient hrequired
      requiredSetup := ?_ }
    cases hweight : p.setupWeight? policy with
    | none =>
      rw [(hnone hweight).2]
      exact Decimal.toRat_zero
    | some weight => exact hquotient (hsetup weight hweight)

/-! ## A position that is opened -/

/-- A position that is opened for the good of the account eases what is added without it. -/
theorem eases_of_opened (h : p.appraise prices policy = .ok a) (hp : p.check = .ok ())
    (hpolicy : policy.check = .ok ()) (hunits : p.kind.Favours 0 (p.balance.units : ℤ)) :
    Contribution.zero.Eases False False (p.added prices policy) := by
  cases hk : p.kind with
  | noValue =>
    exact Contribution.isNull_zero.eases (added_of_worthless h hp fun hvalue ↦ absurd hk hvalue)
  | deposit =>
    have hsound := added_isSound h hp hpolicy
    have hweighted := Decimal.toRat_zero.le.trans hsound.weighted_nonneg
    obtain ⟨_, -, hadded⟩ := added_of_deposit h hk
    refine ⟨⟨hweighted.trans hsound.weighted_le, hweighted, ?_⟩, fun _ ↦ ?_, fun _ ↦ ?_⟩
    all_goals
      rw [hadded]
      exact le_rfl
  | claim =>
    -- a claim that is opened downward is empty
    have hle := hunits.claim hk
    exact Contribution.isNull_zero.eases
      (added_of_worthless h hp fun hvalue ↦ worth_of_empty h hvalue (by omega))

/-- A position that is opened against the account would ease what is added by its absence. -/
theorem opened_eases (h : p.appraise prices policy = .ok a) (hp : p.check = .ok ())
    (hpolicy : policy.check = .ok ()) (hunits : p.kind.Favours (p.balance.units : ℤ) 0) :
    (p.added prices policy).Eases False False .zero := by
  cases hk : p.kind with
  | noValue =>
    exact (added_of_worthless h hp fun hvalue ↦ absurd hk hvalue).eases Contribution.isNull_zero
  | deposit =>
    -- a deposit that is opened downward is empty
    have hle := hunits.deposit hk
    exact (added_of_worthless h hp fun hvalue ↦ worth_of_empty h hvalue (by omega)).eases
      Contribution.isNull_zero
  | claim =>
    have hsound := added_isSound h hp hpolicy
    have hliabilities := Decimal.toRat_zero.le.trans hsound.liabilities_nonneg
    obtain ⟨_, _, -, -, -, hadded⟩ := added_of_claim h hk (modifier_pos hp hk).ne'
    refine ⟨⟨?_, ?_, hliabilities⟩, fun _ ↦ hliabilities.trans hsound.liabilities_le,
      fun _ ↦ hliabilities.trans hsound.liabilities_le_setup⟩
    all_goals
      rw [hadded]
      exact le_rfl

/-! ## Ties -/

/-- A position that is worth something has a quantity and a price. -/
theorem worth_of_ne_zero (h : p.worth prices ≠ .zero) :
    ∃ quantity price, p.quantity? = some quantity ∧ prices.quote? p.token = some price ∧
      quantity.mul? price = some (p.worth prices) := by
  cases hbind : p.quantity?.bind fun quantity ↦ (prices.quote? p.token).bind quantity.mul? with
  | none =>
    rw [worth, hbind] at h
    exact absurd rfl h
  | some value =>
    obtain ⟨quantity, hquantity, hvalue⟩ := Option.bind_eq_some_iff.1 hbind
    obtain ⟨price, hprice, hmul⟩ := Option.bind_eq_some_iff.1 hvalue
    refine ⟨quantity, price, hquantity, hprice, ?_⟩
    rw [worth, hbind, Option.getD_some, hmul]

/-- Up to 28 places the worth of a position has the places of its exponent and its price. -/
theorem worth_isFull (he : -28 ≤ p.exponent.toInt) (hne : (p.worth prices).toRat ≠ 0) :
    ∃ price, prices.quote? p.token = some price ∧
      (p.worth prices).IsFull ((-p.exponent.toInt).toNat + price.scale) := by
  obtain ⟨quantity, price, hquantity, hprice, hmul⟩ :=
    worth_of_ne_zero fun hzero ↦ hne (hzero ▸ Decimal.toRat_zero)
  have hquantity_ne : quantity.toRat ≠ 0 := fun hzero ↦ by
    have hround := Decimal.mul?_roundsEven hmul
    rw [hzero, zero_mul] at hround
    exact hne hround.rounds.eq_zero
  refine ⟨price, hprice, ?_⟩
  rw [← Decimal.scale_of_ofFixedPoint? he hquantity hquantity_ne]
  exact Decimal.mul?_isFull hmul hne

/-- A claim of more than 28 places, at a weight of more than 64 bits. -/
structure IsDeepAt (p : Position) (weight : Decimal) : Prop where
  claim : p.kind = .claim
  places : p.exponent.toInt < -28
  long : weight.isLong = true

/-- At one price only such a claim breaks its ties apart at two balances. -/
theorem TiesApart.isDeepAt (h : p.TiesApart { p with balance := b } weight prices prices) :
    p.IsDeepAt weight := by
  refine ⟨h.1, ?_, h.2.isLong⟩
  obtain ⟨-, hvalue, -, hup, hnot⟩ := h
  have hne' := Decimal.isZero_eq_false_iff.1 (Decimal.isZero_eq_false_of_roundsTieUp hup).1
  have hne : (p.worth prices).toRat ≠ 0 := hvalue ▸ hne'
  by_contra he
  rw [not_lt] at he
  obtain ⟨price, hquote, hfull⟩ := worth_isFull he hne
  obtain ⟨_, hquote', hfull'⟩ := worth_isFull (p := { p with balance := b }) he hne'
  obtain rfl := Option.some.inj (hquote.symm.trans hquote')
  rw [hfull'.eq_of_toRat hfull hvalue hne', hnot] at hup
  cases hup

end Position

/-! ## Every position -/

/-- `p` is one of the positions, and `p'` is the same one with the changes landed. -/
structure Lands (positions : List Position) (changes : List Change) (p p' : Position) : Prop where
  before : p ∈ positions
  after : ∃ merged, mergeChanges positions changes = .ok merged ∧ p' ∈ merged
  moved : p' = { p with balance := p'.balance }

/-- Some claim breaks its ties apart between two valuations, over its weight. -/
def AnyTiesApart (pairs : Position → Position → Prop) (prices : PriceSource) : Prop :=
  ∃ p p', pairs p p' ∧ p.TiesApart p' p.modifier prices prices

/-- Some claim breaks its ties apart between two valuations, over its weight for setting up trades. -/
def AnySetupTiesApart (pairs : Position → Position → Prop) (prices : PriceSource) (policy : Policy) :
    Prop :=
  ∃ p p', pairs p p' ∧ ∃ weight ∈ p.setupWeight? policy, p.TiesApart p' weight prices prices

variable {positions merged : List Position} {changes : List Change} {landings : List Landing}
  {p' : Position}

theorem Lands.isDeepAt (h : Lands positions changes p p')
    (htie : p.TiesApart p' weight prices prices ∨ p'.TiesApart p weight prices prices) :
    p.IsDeepAt weight := by
  rw [h.moved] at htie
  rcases htie with htie | htie
  · exact htie.isDeepAt
  · obtain ⟨hclaim, hplaces, hlong⟩ := Position.TiesApart.isDeepAt htie
    exact ⟨hclaim, hplaces, hlong⟩

/-- Without a deep claim no ties come apart, whichever way the changes go. -/
theorem not_anyTiesApart (h : ∀ p ∈ positions, ¬p.IsDeepAt p.modifier) :
    ¬AnyTiesApart (Lands positions changes) prices ∧
      ¬AnyTiesApart (flip (Lands positions changes)) prices := by
  constructor
  · rintro ⟨p, p', hlands, htie⟩
    exact h p hlands.before (hlands.isDeepAt (.inl htie))
  · rintro ⟨p', p, hlands, htie⟩
    have hmodifier : p'.modifier = p.modifier := by rw [hlands.moved]
    rw [hmodifier] at htie
    exact h p hlands.before (hlands.isDeepAt (.inr htie))

theorem not_anySetupTiesApart
    (h : ∀ p ∈ positions, ∀ weight ∈ p.setupWeight? policy, ¬p.IsDeepAt weight) :
    ¬AnySetupTiesApart (Lands positions changes) prices policy ∧
      ¬AnySetupTiesApart (flip (Lands positions changes)) prices policy := by
  constructor
  · rintro ⟨p, p', hlands, weight, hweight, htie⟩
    exact h p hlands.before weight hweight (hlands.isDeepAt (.inl htie))
  · rintro ⟨p', p, hlands, weight, hweight, htie⟩
    have hweights : p'.setupWeight? policy = p.setupWeight? policy := by
      rw [hlands.moved]
      rfl
    exact h p hlands.before weight (hweights ▸ hweight) (hlands.isDeepAt (.inr htie))

/-- What is known of a landing when both valuations have been made. -/
structure Landing.IsValued (l : Landing) (positions : List Position) (changes : List Change)
    (prices : PriceSource) (policy : Policy) : Prop where
  check : l.after.check = .ok ()
  after : ∃ a, l.after.appraise prices policy = .ok a
  origin : ∀ p ∈ l.origin?, ∃ a, p.appraise prices policy = .ok a
  lands : ∀ p ∈ l.origin?, Lands positions changes p l.after

namespace Landing

theorem inSlots_origin? : Valuation.InSlots after origin? := by
  intro l p hp
  obtain ⟨b, -, rfl⟩ := Option.map_eq_some_iff.1 hp
  exact ⟨rfl, rfl⟩

theorem inSlots_after : Valuation.InSlots after fun l ↦ some l.after := by
  rintro l p ⟨⟩
  exact ⟨rfl, rfl⟩

theorem mergeChanges_origins (horigin : landings.filterMap (·.origin?) = positions) :
    mergeChanges positions [] = .ok (landings.filterMap (·.origin?)) := by
  rw [horigin, mergeChanges_nil]

theorem mergeChanges_afters (hmerge : mergeChanges positions changes = .ok (landings.map (·.after))) :
    mergeChanges positions changes = .ok (landings.filterMap fun l ↦ some l.after) := by
  rw [hmerge, List.filterMap_eq_map']

variable {l : Landing}

theorem eases (h : l.IsValued positions changes prices policy) (hpolicy : policy.check = .ok ())
    (hrelated : l.Related fun k n n' ↦ k.Favours n n') :
    (Valuation.addedBy l.origin? prices policy).Eases
      (AnyTiesApart (Lands positions changes) prices)
      (AnySetupTiesApart (Lands positions changes) prices policy)
      (Valuation.addedBy (some l.after) prices policy) := by
  obtain ⟨before, p'⟩ := l
  obtain ⟨hp, ⟨a', h'⟩, horigin, hlands⟩ := h
  cases before with
  | none => exact (Position.eases_of_opened h' hp hpolicy hrelated).imp False.elim False.elim
  | some b =>
    obtain ⟨a, h⟩ := horigin _ rfl
    have hworth := Position.worth_favours_of_units h h' hrelated
    exact (Position.added_eases h h' hp hpolicy rfl rfl hworth).imp
      (fun htie ↦ ⟨_, _, hlands _ rfl, htie⟩) fun htie ↦ ⟨_, _, hlands _ rfl, htie⟩

theorem eases_of_burdens (h : l.IsValued positions changes prices policy)
    (hpolicy : policy.check = .ok ()) (hrelated : l.Related fun k n n' ↦ k.Favours n' n) :
    (Valuation.addedBy (some l.after) prices policy).Eases
      (AnyTiesApart (flip (Lands positions changes)) prices)
      (AnySetupTiesApart (flip (Lands positions changes)) prices policy)
      (Valuation.addedBy l.origin? prices policy) := by
  obtain ⟨before, p'⟩ := l
  obtain ⟨hp, ⟨a', h'⟩, horigin, hlands⟩ := h
  cases before with
  | none => exact (Position.opened_eases h' hp hpolicy hrelated).imp False.elim False.elim
  | some b =>
    obtain ⟨a, h⟩ := horigin _ rfl
    have hworth := Position.worth_favours_of_units h' h hrelated
    exact (Position.added_eases h' h hp hpolicy rfl rfl hworth).imp
      (fun htie ↦ ⟨_, _, hlands _ rfl, htie⟩) fun htie ↦ ⟨_, _, hlands _ rfl, htie⟩

end Landing

namespace Valuation

variable {v v' : Valuation} {ρ ρ' : Risk}

/-- Where the positions are valued with and without the changes, each landing is known. -/
theorem isValued_of_landings (hpositions : ∀ p ∈ positions, p.check = .ok ())
    (hchanges : ∀ c ∈ changes, checkModifier c.token c.kind c.modifier = .ok ())
    (horigin : landings.filterMap (·.origin?) = positions)
    (hmerge : mergeChanges positions changes = .ok (landings.map (·.after)))
    (h : ofPositions positions prices [] policy = .ok v)
    (h' : ofPositions positions prices changes policy = .ok v') :
    ∀ l ∈ landings, l.IsValued positions changes prices policy := by
  intro l hl
  have hafter : l.after ∈ landings.map (·.after) := List.mem_map_of_mem hl
  have hbefore : ∀ p ∈ l.origin?, p ∈ positions := fun p hp ↦
    horigin ▸ List.mem_filterMap.2 ⟨l, hl, hp⟩
  refine ⟨check_of_mergeChanges hpositions hchanges hmerge _ hafter,
    (ofPositions_eq_ok h' hmerge).1 _ hafter,
    fun p hp ↦ (ofPositions_eq_ok h (mergeChanges_nil _)).1 p (hbefore p hp),
    fun p hp ↦ ⟨hbefore p hp, ⟨_, hmerge, hafter⟩, ?_⟩⟩
  obtain ⟨b, -, rfl⟩ := Option.map_eq_some_iff.1 hp
  rfl

variable (hpositions : ∀ p ∈ positions, p.check = .ok ())
  (hchanges : ∀ c ∈ changes, checkModifier c.token c.kind c.modifier = .ok ())
  (hpolicy : policy.check = .ok ())
  (h : ofPositions positions prices [] policy = .ok v)
  (h' : ofPositions positions prices changes policy = .ok v')
  (hρ : v.risk = .ok ρ) (hρ' : v'.risk = .ok ρ')

include hpositions hchanges hpolicy h h' hρ hρ'

/-- Changes for the good of the account leave it no worse. -/
theorem improves_of_favours (hfavours : ∀ c ∈ changes, c.kind.Favours 0 c.delta.units) :
    Improves (AnyTiesApart (Lands positions changes) prices)
      (AnySetupTiesApart (Lands positions changes) prices policy) v v' ρ ρ' := by
  obtain ⟨merged, hmerge⟩ := exists_mergeChanges h'
  obtain ⟨landings, horigin, rfl, hrelated⟩ := exists_landings_of_favours hfavours hmerge
  have hvalued := isValued_of_landings hpositions hchanges horigin hmerge h h'
  have hbefore := Landing.mergeChanges_origins horigin
  have hafter := Landing.mergeChanges_afters hmerge
  refine improves_of_eases (isSound_of_checks hpositions (by simp) hpolicy h)
    (isSound_of_checks hpositions hchanges hpolicy h') (addParts_eq_sums h hbefore).2
    (addParts_eq_sums h' hafter).2 ?_ hρ hρ'
  exact sums_eases Landing.inSlots_origin? Landing.inSlots_after h h' hbefore hafter fun l hl ↦
    Landing.eases (hvalued l hl) hpolicy (hrelated l hl)

/-- Changes against the account leave it no better. -/
theorem improves_of_burdens (hburdens : ∀ c ∈ changes, c.kind.Favours c.delta.units 0) :
    Improves (AnyTiesApart (flip (Lands positions changes)) prices)
      (AnySetupTiesApart (flip (Lands positions changes)) prices policy) v' v ρ' ρ := by
  obtain ⟨merged, hmerge⟩ := exists_mergeChanges h'
  obtain ⟨landings, horigin, rfl, hrelated⟩ := exists_landings_of_burdens hburdens hmerge
  have hvalued := isValued_of_landings hpositions hchanges horigin hmerge h h'
  have hbefore := Landing.mergeChanges_origins horigin
  have hafter := Landing.mergeChanges_afters hmerge
  refine improves_of_eases (isSound_of_checks hpositions hchanges hpolicy h')
    (isSound_of_checks hpositions (by simp) hpolicy h) (addParts_eq_sums h' hafter).2
    (addParts_eq_sums h hbefore).2 ?_ hρ' hρ
  exact sums_eases Landing.inSlots_after Landing.inSlots_origin? h' h hafter hbefore fun l hl ↦
    Landing.eases_of_burdens (hvalued l hl) hpolicy (hrelated l hl)

end Valuation

end MarginAccount
