import MarginAccount.Proofs.Account.Figures
import MarginAccount.Proofs.Account.Leverage
import MarginAccount.Proofs.Engine.Liquidation

/-! # What a report is refused for

A report is only refused for its valuation: a number that does not fit a decimal, or a change that
asks for another kind than the registered one. The other refusals that an engine knows of never come
up here. Figures are not negative, so risk is never refused; the changes land a second time if they
have landed once.
-/

namespace MarginAccount

variable {snapshot : Snapshot} {market : Market} {prices : PriceSource} {changes : List Change}
  {now : Timestamp} {policy : Policy} {positions merged : List Position} {p : Position}
  {error : ValuationError} {v : Valuation} {e : Engine}

/-- The refusal is about a number, not about a position. -/
def ValuationError.IsNumeric (error : ValuationError) : Prop := ∀ reason, error ≠ .position reason

namespace ValuationError

theorem isNumeric_balanceOutOfRange {token : TokenId} {balance : Balance} {exponent : Int8} :
    (balanceOutOfRange token balance exponent).IsNumeric := fun _ h ↦ by cases h

theorem isNumeric_valueOverflow {token : TokenId} : (valueOverflow token).IsNumeric := fun _ h ↦ by
  cases h

theorem isNumeric_totalOverflow : totalOverflow.IsNumeric := fun _ h ↦ by cases h

end ValuationError

open ValuationError

/-! ## Positions and sums -/

namespace Position

/-- A position is not valued where its balance has no decimal, or its value has none. -/
theorem value_eq_refused (h : p.value prices = .error (.refused error)) :
    (p.quantity? = none ∧ error = p.outOfRange) ∨ error = .valueOverflow p.token := by
  rw [value, bind_eq_error] at h
  rcases h with h | ⟨quantity, -, h⟩
  · obtain ⟨hquantity, rfl⟩ := Outcome.ofOption_eq_refused.1 h
    exact .inl ⟨hquantity, rfl⟩
  · rcases bind_eq_error.1 h with h | ⟨price?, -, h⟩
    · exact absurd h (Outcome.ofFaultable_ne_refused _)
    · cases price? with
      | none => cases h
      | some price =>
        rcases bind_eq_error.1 h with h | ⟨_, -, h⟩
        · exact .inr (Outcome.ofOption_eq_refused.1 h).2.symm
        · cases h

/-- A value is not weighed where a product or a quotient has no decimal, or its weight is zero. -/
theorem contribution_eq_error {value : Decimal} (h : p.contribution value policy = .error error) :
    error = .valueOverflow p.token ∨
      p.kind = .claim ∧ p.modifier.isZero = true ∧ error = .position (.zeroClaimWeight p.token) := by
  cases hk : p.kind with
  | noValue =>
    simp only [contribution, hk] at h
    cases h
  | deposit =>
    simp only [contribution, hk] at h
    rcases bind_eq_error.1 h with h | ⟨_, -, h⟩
    · exact .inl (elim_error_eq_error.1 h).2
    · cases h
  | claim =>
    simp only [contribution, hk] at h
    split at h
    · rename_i hzero
      exact .inr ⟨rfl, hzero, (Except.error.inj h).symm⟩
    · left
      rcases bind_eq_error.1 h with h | ⟨_, -, h⟩
      · exact (elim_error_eq_error.1 h).2
      · rcases bind_eq_error.1 h with h | ⟨_, -, h⟩
        · exact (elim_error_eq_error.1 h).2
        · rcases bind_eq_error.1 h with h | ⟨_, -, h⟩
          · exact (elim_error_eq_error.1 h).2
          · cases h

theorem appraise_eq_refused (h : p.appraise prices policy = .error (.refused error)) :
    p.value prices = .error (.refused error) ∨
      ∃ value, p.contribution value policy = .error error := by
  rw [appraise] at h
  split at h
  · cases h
  · rcases bind_eq_error.1 h with h | ⟨usd?, -, h⟩
    · exact .inl h
    · cases usd? with
      | none => cases h
      | some usd =>
        rcases bind_eq_error.1 h with h | ⟨_, -, h⟩
        · exact .inr ⟨usd.value, Outcome.ofRefusable_eq_refused.1 h⟩
        · cases h

theorem isNumeric_of_value (h : p.value prices = .error (.refused error)) : error.IsNumeric := by
  rcases value_eq_refused h with ⟨-, rfl⟩ | rfl
  · exact isNumeric_balanceOutOfRange
  · exact isNumeric_valueOverflow

/-- An allowed weight is not zero where the value is divided by it. -/
theorem isNumeric_of_appraise (hp : p.check = .ok ())
    (h : p.appraise prices policy = .error (.refused error)) : error.IsNumeric := by
  rcases appraise_eq_refused h with h | ⟨value, h⟩
  · exact isNumeric_of_value h
  · rcases contribution_eq_error h with rfl | ⟨hk, hzero, -⟩
    · exact isNumeric_valueOverflow
    · obtain ⟨-, -, hclaim⟩ := checkModifier_eq_ok.1 hp
      exact absurd (Decimal.isZero_iff_toRat.1 hzero) (hclaim hk)

end Position

theorem addParts_eq_error {total : Contribution} {parts : List Part}
    (h : addParts total parts = .error error) : ∃ token, error = .valueOverflow token := by
  induction parts generalizing total with
  | nil => cases h
  | cons part parts ih =>
    rw [addParts, List.foldlM_cons] at h
    rcases bind_eq_error.1 h with h | ⟨next, -, h⟩
    · exact ⟨_, (elim_error_eq_error.1 h).2⟩
    · exact ih h

namespace Valuation

theorem ofTotal_eq_error {total : Contribution} {unpriced : ℕ}
    (h : ofTotal total unpriced = .error error) : error = .totalOverflow := by
  rw [ofTotal] at h
  rcases bind_eq_error.1 h with h | ⟨effective, -, h⟩
  · exact (elim_error_eq_error.1 h).2
  · rcases bind_eq_error.1 h with h | ⟨available, -, h⟩
    · exact (elim_error_eq_error.1 h).2
    · rcases bind_eq_error.1 h with h | ⟨availableSetup, -, h⟩
      · exact (elim_error_eq_error.1 h).2
      · cases h

/-- What a valuation is refused for: changes that do not land, a position, or a sum. -/
inductive Refuses (positions : List Position) (prices : PriceSource) (changes : List Change)
    (policy : Policy) : ValuationError → Prop
  | merge {reason : PositionError} (hmerge : mergeChanges positions changes = .error reason) :
      Refuses positions prices changes policy (.position reason)
  | appraisal {merged : List Position} {p : Position} {error : ValuationError}
      (hmerge : mergeChanges positions changes = .ok merged) (hp : p ∈ merged)
      (h : p.appraise prices policy = .error (.refused error)) :
      Refuses positions prices changes policy error
  | sum (token : TokenId) : Refuses positions prices changes policy (.valueOverflow token)
  | total : Refuses positions prices changes policy .totalOverflow

theorem refuses_of_ofPositions
    (h : ofPositions positions prices changes policy = .error (.refused error)) :
    Refuses positions prices changes policy error := by
  rw [ofPositions] at h
  rcases bind_eq_error.1 h with h | ⟨merged, hmerge, h⟩
  · obtain ⟨reason, hmerge, rfl⟩ := Outcome.mapRefusal_eq_refused.1 h
    exact .merge (Outcome.ofRefusable_eq_refused.1 hmerge)
  · rw [Outcome.mapRefusal_eq_ok, Outcome.ofRefusable_eq_ok] at hmerge
    rcases bind_eq_error.1 h with h | ⟨appraisals, -, h⟩
    · obtain ⟨p, hp, h⟩ := exists_of_mapM_eq_error h
      exact .appraisal hmerge hp h
    · rcases bind_eq_error.1 h with h | ⟨total, -, h⟩
      · obtain ⟨token, rfl⟩ := addParts_eq_error (Outcome.ofRefusable_eq_refused.1 h)
        exact .sum token
      · rw [ofTotal_eq_error (Outcome.ofRefusable_eq_refused.1 h)]
        exact .total

/-- A valuation is refused for a change of the wrong kind, or else for a number. -/
theorem ofPositions_eq_refused (hpositions : ∀ p ∈ positions, p.check = .ok ())
    (hchanges : ∀ c ∈ changes, checkModifier c.token c.kind c.modifier = .ok ())
    (h : ofPositions positions prices changes policy = .error (.refused error)) :
    (∃ reason, mergeChanges positions changes = .error reason ∧ error = .position reason) ∨
      error.IsNumeric := by
  cases refuses_of_ofPositions h with
  | merge hmerge => exact .inl ⟨_, hmerge, rfl⟩
  | appraisal hmerge hp h =>
    exact .inr (Position.isNumeric_of_appraise
      (check_of_mergeChanges hpositions hchanges hmerge _ hp) h)
  | sum => exact .inr isNumeric_valueOverflow
  | total => exact .inr isNumeric_totalOverflow

theorem ofPositions_of_mergeChanges_eq_error {reason : PositionError}
    (h : mergeChanges positions changes = .error reason) :
    ofPositions positions prices changes policy = .error (.refused (.position reason)) := by
  rw [ofPositions, h]
  rfl

end Valuation

/-! ## Pools -/

theorem noteBalance_eq_error {p? : Option Position} {rate : ExchangeRate} {decimals : ℕ}
    (h : noteBalance p? rate decimals = .error error) :
    ∃ p, p? = some p ∧ p.quantity?.bind rate.toUnderlying? = none ∧ error = p.outOfRange := by
  cases p? with
  | none => cases h
  | some p =>
    rw [noteBalance, Option.elim_some, Position.underlying] at h
    split at h
    · cases h
    · rename_i hnone
      exact ⟨p, rfl, hnone, (Except.error.inj h).symm⟩

theorem noteValue_eq_refused {p? : Option Position}
    (h : noteValue p? prices = .error (.refused error)) :
    ∃ p, p? = some p ∧ p.value prices = .error (.refused error) := by
  cases p? with
  | none => cases h
  | some p =>
    rcases bind_eq_error.1 h with h | ⟨_, -, h⟩
    · exact ⟨p, rfl, h⟩
    · cases h

/-- A pool is not shown where notes of it are not converted, or not valued. -/
theorem Pool.view_eq_refused {pool : Pool} {token : TokenId} {available : Usd}
    (h : pool.view token positions market prices available policy = .error (.refused error)) :
    noteBalance (findPosition? positions pool.depositNote) pool.depositRate pool.decimals =
        .error error ∨
      noteBalance (findPosition? positions pool.loanNote) pool.loanRate pool.decimals =
        .error error ∨
      ∃ note, noteValue (findPosition? positions note) prices = .error (.refused error) := by
  simp only [view, bind_eq_error, Outcome.ofRefusable_eq_refused] at h
  rcases h with h | ⟨_, -, h | ⟨_, -, h | ⟨_, -, h | ⟨_, -, h | ⟨_, -, h | ⟨_, -, h⟩⟩⟩⟩⟩⟩
  · exact .inl h
  · exact .inr (.inl h)
  · exact absurd h (Outcome.ofFaultable_ne_refused _)
  · exact absurd h (Outcome.ofFaultable_ne_refused _)
  · exact .inr (.inr ⟨_, h⟩)
  · exact .inr (.inr ⟨_, h⟩)
  · cases h

theorem Pool.isNumeric_of_view {pool : Pool} {token : TokenId} {available : Usd}
    (h : pool.view token positions market prices available policy = .error (.refused error)) :
    error.IsNumeric := by
  rcases view_eq_refused h with h | h | ⟨note, h⟩
  · obtain ⟨p, -, -, rfl⟩ := noteBalance_eq_error h
    exact isNumeric_balanceOutOfRange
  · obtain ⟨p, -, -, rfl⟩ := noteBalance_eq_error h
    exact isNumeric_balanceOutOfRange
  · obtain ⟨p, -, h⟩ := noteValue_eq_refused h
    exact Position.isNumeric_of_value h

/-! ## Reports -/

/-- The summary of sound figures is always there. -/
theorem Valuation.exists_summary_of_isSound (hsound : v.sums.IsSound) (policy : Policy) :
    ∃ summary, v.summary policy = .ok summary := by
  obtain ⟨_, summary, -, hsummary, -⟩ := exists_summary
    (hsound.weighted_nonneg.trans hsound.weighted_le) hsound.liabilities_nonneg policy
  exact ⟨summary, hsummary⟩

/-- Once the positions are valued, a report only waits for the pools and for the clock. -/
theorem Report.ofSnapshot_eq_error (hpolicy : policy.check = .ok ())
    (hpositions : ∀ p ∈ snapshot.positions, p.check = .ok ())
    (hchanges : ∀ c ∈ changes, checkModifier c.token c.kind c.modifier = .ok ())
    {failure : Failure EngineError} :
    ofSnapshot snapshot market prices changes now policy = .error failure ↔
      Outcome.mapRefusal .valuation
          (Valuation.ofPositions snapshot.positions prices changes policy) = .error failure ∨
      ∃ v merged, Valuation.ofPositions snapshot.positions prices changes policy = .ok v ∧
        mergeChanges snapshot.positions changes = .ok merged ∧
        (Outcome.mapRefusal .valuation
            (PoolViews.ofMarket merged market prices v.availableSetup policy) = .error failure ∨
          ∃ views, PoolViews.ofMarket merged market prices v.availableSetup policy = .ok views ∧
            Outcome.ofFaultable (snapshot.liquidation.mapM (·.remaining now)) =
              .error failure) := by
  simp only [ofSnapshot, bind_eq_error, Outcome.mapRefusal_eq_ok, Outcome.ofRefusable_eq_ok,
    Outcome.ofFaultable_eq_ok]
  refine or_congr_right ⟨?_, ?_⟩
  · rintro ⟨v, hv, h⟩
    have hsound := Valuation.isSound_of_checks hpositions hchanges hpolicy hv
    obtain ⟨summary, hsummary⟩ := Valuation.exists_summary_of_isSound hsound policy
    obtain ⟨merged, hmerge⟩ := Valuation.exists_mergeChanges hv
    rcases h with h | ⟨risk, -, h | ⟨_, -, h | ⟨merged', hmerge', h⟩⟩⟩
    · rw [Valuation.risk_eq_ofDemand hsound] at h
      cases h
    · rw [hsummary] at h
      cases h
    · rw [hmerge] at h
      cases h
    · refine ⟨v, merged', hv, hmerge', ?_⟩
      rcases h with h | ⟨views, hviews, h | ⟨_, -, h⟩⟩
      · exact .inl h
      · exact .inr ⟨views, hviews, h⟩
      · cases h
  · rintro ⟨v, merged, hv, hmerge, h⟩
    have hsound := Valuation.isSound_of_checks hpositions hchanges hpolicy hv
    obtain ⟨summary, hsummary⟩ := Valuation.exists_summary_of_isSound hsound policy
    refine ⟨v, hv, .inr ⟨_, Valuation.risk_eq_ofDemand hsound, .inr ⟨summary, hsummary, .inr
      ⟨merged, hmerge, ?_⟩⟩⟩⟩
    rcases h with h | ⟨views, hviews, h⟩
    · exact .inl h
    · exact .inr ⟨views, hviews, .inl h⟩

/-- A report is refused for changes that do not land, or else for a number. -/
theorem Report.ofSnapshot_eq_refused (hpolicy : policy.check = .ok ())
    (hpositions : ∀ p ∈ snapshot.positions, p.check = .ok ())
    (hchanges : ∀ c ∈ changes, checkModifier c.token c.kind c.modifier = .ok ())
    {error : EngineError}
    (h : ofSnapshot snapshot market prices changes now policy = .error (.refused error)) :
    ∃ cause, error = .valuation cause ∧
      ((∃ reason, mergeChanges snapshot.positions changes = .error reason ∧
        cause = .position reason) ∨ cause.IsNumeric) := by
  rcases (ofSnapshot_eq_error hpolicy hpositions hchanges).1 h with h | ⟨_, _, -, -, h | ⟨_, -, h⟩⟩
  · obtain ⟨cause, hcause, rfl⟩ := Outcome.mapRefusal_eq_refused.1 h
    exact ⟨cause, rfl, Valuation.ofPositions_eq_refused hpositions hchanges hcause⟩
  · obtain ⟨cause, hcause, rfl⟩ := Outcome.mapRefusal_eq_refused.1 h
    obtain ⟨token, -, pool, -, h⟩ := PoolViews.exists_of_ofTokens_eq_error hcause
    exact ⟨cause, rfl, .inr (Pool.isNumeric_of_view h)⟩
  · exact absurd h (Outcome.ofFaultable_ne_refused _)

/-- A report that is refused for its valuation has none, or has no view of the pools. -/
theorem Report.ofSnapshot_eq_valuation
    (h : ofSnapshot snapshot market prices changes now policy = .error (.refused (.valuation error))) :
    Valuation.ofPositions snapshot.positions prices changes policy = .error (.refused error) ∨
      ∃ merged available, mergeChanges snapshot.positions changes = .ok merged ∧
        PoolViews.ofMarket merged market prices available policy = .error (.refused error) := by
  have hvaluation {α : Type} {x : Outcome ValuationError α}
      (h : x.mapRefusal EngineError.valuation = .error (.refused (.valuation error))) :
      x = .error (.refused error) := by
    obtain ⟨cause, hcause, h⟩ := Outcome.mapRefusal_eq_refused.1 h
    cases h
    exact hcause
  simp only [ofSnapshot, bind_eq_error] at h
  rcases h with h | ⟨v, -, h | ⟨_, -, h | ⟨_, -, h | ⟨merged, hmerge, h | ⟨_, -, h | ⟨_, -, h⟩⟩⟩⟩⟩⟩
  · exact .inl (hvaluation h)
  · obtain ⟨_, -, h⟩ := Outcome.mapRefusal_eq_refused.1 h
    cases h
  · exact absurd h (Outcome.ofFaultable_ne_refused _)
  · obtain ⟨_, -, h⟩ := Outcome.mapRefusal_eq_refused.1 h
    cases h
  · rw [Outcome.mapRefusal_eq_ok, Outcome.ofRefusable_eq_ok] at hmerge
    exact .inr ⟨merged, v.availableSetup, hmerge, hvaluation h⟩
  · exact absurd h (Outcome.ofFaultable_ne_refused _)
  · cases h

theorem Report.ofSnapshot_of_mergeChanges_eq_error {reason : PositionError}
    (h : mergeChanges snapshot.positions changes = .error reason) :
    ofSnapshot snapshot market prices changes now policy =
      .error (.refused (.valuation (.position reason))) := by
  rw [ofSnapshot, Valuation.ofPositions_of_mergeChanges_eq_error h]
  rfl

namespace Engine

variable {account owner : Address} {slots : List Position} {held : Option Liquidation}
  {fetchedAt : Timestamp}

/-- A projection or an evaluation is only ever refused for its valuation, and for a position only
where a change asks for another kind than the one it lands on: then always, and never in an
evaluation. Whatever is valued has a risk, for none of the three figures is negative, and its changes
land again. -/
theorem project_refused (hpolicy : e.settings.policy.check = .ok ())
    (hsnapshot : Snapshot.ofSlots account owner slots held fetchedAt = .ok snapshot)
    (hchanges : ∀ c ∈ changes, checkModifier c.token c.kind c.modifier = .ok ()) :
    (∀ error, e.project snapshot market changes now = .error (.refused error) →
      ∃ cause, error = .valuation cause ∧ ∀ reason, cause = .position reason →
        ∃ c ∈ changes, ∃ registered, registered ≠ c.kind ∧
          reason = .kindMismatch c.token registered c.kind) ∧
    (∀ reason, e.project snapshot market changes now =
        .error (.refused (.valuation (.position reason))) ↔
      mergeChanges snapshot.positions changes = .error reason) ∧
    (∀ error, e.evaluate snapshot market now = .error (.refused error) →
      ∃ cause, error = .valuation cause ∧ ∀ reason, cause ≠ .position reason) ∧
    ∀ v, Valuation.ofPositions snapshot.positions (e.prices market now) changes e.settings.policy =
        .ok v →
      v.required.isNegative = false ∧ v.weighted.isNegative = false ∧
        v.liabilities.isNegative = false ∧ (∃ risk, v.risk = .ok risk) ∧
        ∃ merged, mergeChanges snapshot.positions changes = .ok merged := by
  have hpositions := check_of_checkPositions (Snapshot.checkPositions_of_ofSlots hsnapshot)
  refine ⟨fun error h ↦ ?_, fun reason ↦ ⟨fun h ↦ ?_, Report.ofSnapshot_of_mergeChanges_eq_error⟩,
    fun error h ↦ ?_, fun v hv ↦ ?_⟩
  · obtain ⟨cause, hcause, hreason⟩ := Report.ofSnapshot_eq_refused hpolicy hpositions hchanges h
    refine ⟨cause, hcause, fun reason hposition ↦ ?_⟩
    rcases hreason with ⟨reason', hmerge, hposition'⟩ | hnumeric
    · rw [hposition, ValuationError.position.injEq] at hposition'
      exact hposition' ▸ mergeChanges_eq_error hmerge
    · exact absurd hposition (hnumeric reason)
  · obtain ⟨cause, hcause, hreason⟩ := Report.ofSnapshot_eq_refused hpolicy hpositions hchanges h
    cases hcause
    rcases hreason with ⟨reason', hmerge, hposition⟩ | hnumeric
    · cases hposition
      exact hmerge
    · exact absurd rfl (hnumeric reason)
  · obtain ⟨cause, hcause, hreason⟩ :=
      Report.ofSnapshot_eq_refused hpolicy hpositions (by simp) h
    rcases hreason with ⟨_, hmerge, -⟩ | hnumeric
    · cases hmerge
    · exact ⟨cause, hcause, hnumeric⟩
  · have hsound := Valuation.isSound_of_checks hpositions hchanges hpolicy hv
    simp only [Usd.isNegative, Decimal.isNegative_eq_false_iff]
    exact ⟨hsound.liabilities_nonneg.trans hsound.liabilities_le, hsound.weighted_nonneg,
      hsound.liabilities_nonneg, ⟨_, Valuation.risk_eq_ofDemand hsound⟩,
      Valuation.exists_mergeChanges hv⟩

open Sample in
/-- Nothing can be deposited of a token that the account owes. -/
theorem project_refused_of_debt :
    engine.project leveraged (owing .one) [⟨.ofTag 2, .deposit, 0, .one, { units := 20 }⟩] ⟨0⟩ =
      .error (.refused (.valuation (.position (.kindMismatch (.ofTag 2) .claim .deposit)))) := by
  have hsnapshot : Snapshot.ofSlots leveraged.account leveraged.owner leveraged.positions none ⟨0⟩ =
      .ok leveraged := by decide +kernel
  exact ((project_refused (by decide) hsnapshot (by decide)).2.1 _).2 (by decide +kernel)

end Engine

end MarginAccount
