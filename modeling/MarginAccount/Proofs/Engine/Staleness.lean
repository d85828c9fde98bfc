import MarginAccount.Proofs.Engine.Report
import MarginAccount.Proofs.Time

/-! # Stale prices

An engine that enforces staleness reads every price through one filter. So it goes by the market as
if the stale readings had been taken out of it (`Engine.enforcement_is_removal`), in reports and in
liquidations. The one thing that it does besides is to take the age of a reading. Where the difference
takes more than 64 bits, or is not a duration, the look-up faults; `Market.ExceedsClock` tells the two
apart.
-/

namespace MarginAccount

/-! ## The market without stale readings -/

/-- The whole seconds since the reading, cut toward zero, are more than `maxAge`. -/
def OraclePrice.IsStale (reading : OraclePrice) (now : Timestamp) (maxAge : ℤ) : Prop :=
  maxAge < (now.milliseconds - reading.timestamp.milliseconds).tdiv 1000

instance (reading : OraclePrice) (now : Timestamp) (maxAge : ℤ) :
    Decidable (reading.IsStale now maxAge) :=
  inferInstanceAs (Decidable (_ < _))

/-- A reading of instant zero is stale from 31 seconds on, where 30 are allowed. -/
example (reading : OraclePrice) (h : reading.timestamp = ⟨0⟩) :
    ¬reading.IsStale ⟨30999⟩ 30 ∧ reading.IsStale ⟨31000⟩ 30 := by
  rw [OraclePrice.IsStale, OraclePrice.IsStale, h]
  decide

namespace Market

/-- The market without the readings that are stale. -/
def dropStale (m : Market) (now : Timestamp) (maxAge : ℤ) : Market :=
  { m with prices := ⟨fun token ↦ (m.prices.get? token).filter (¬·.IsStale now maxAge)⟩ }

/-- How the age of a reading goes wrong: the difference takes more than 64 bits, or it is the one number
of 64 bits that is not a duration. -/
inductive ExceedsClock (m : Market) (now : Timestamp) : Fault → Prop
  | word {token : TokenId} {reading : OraclePrice} (hreading : m.prices.get? token = some reading)
      (hage : ¬FitsWord (now.milliseconds - reading.timestamp.milliseconds)) :
      ExceedsClock m now .wordSubtraction
  | duration {token : TokenId} {reading : OraclePrice}
      (hreading : m.prices.get? token = some reading)
      (hage : now.milliseconds - reading.timestamp.milliseconds = -2 ^ 63) :
      ExceedsClock m now .millisecondsOutOfBounds

end Market

/-! ## Look-ups -/

namespace PriceSource

variable {cause : Fault → Prop} {source source' : PriceSource} {market : Market} {now : Timestamp}

/-- Looking a token up is the same, unless it ends with a fault that has a cause. -/
def SameUnless (cause : Fault → Prop) (source source' : PriceSource) : Prop :=
  ∀ token, source token = source' token ∨ ∃ f, cause f ∧ source token = .error f

theorem SameUnless.usd? {ε : Type} (h : source.SameUnless cause source') (token : TokenId) :
    Outcome.SameUnless (ε := ε) cause (.ofFaultable (source.usd? token))
      (.ofFaultable (source'.usd? token)) := by
  rcases h token with h | ⟨f, hcause, h⟩
  · rw [PriceSource.usd?, PriceSource.usd?, h]
    exact .refl _
  · refine .inr ⟨f, hcause, ?_⟩
    rw [PriceSource.usd?, h]
    rfl

/-- The filter is the removal of stale readings, unless the age of a reading goes wrong. -/
theorem fresh_sameUnless (market : Market) (now : Timestamp) (maxAge : ℤ) :
    ((ofRegistry market.prices).fresh now maxAge).SameUnless (market.ExceedsClock now)
      (ofRegistry (market.dropStale now maxAge).prices) := by
  intro token
  have hkept : (market.dropStale now maxAge).prices.get? token =
      (market.prices.get? token).filter (¬·.IsStale now maxAge) := rfl
  rw [fresh, ofRegistry_apply, ofRegistry_apply, hkept]
  cases hreading : market.prices.get? token with
  | none => exact .inl rfl
  | some reading =>
    cases hsince : now.since reading.timestamp with
    | ok age =>
      obtain ⟨-, rfl⟩ := Timestamp.since_eq_ok.1 hsince
      have hstale : reading.isStale now maxAge = .ok (decide (reading.IsStale now maxAge)) := by
        rw [OraclePrice.isStale, OraclePrice.ageSeconds, hsince]
        rfl
      refine .inl ?_
      simp only [bind, Except.bind, hstale, Option.filter_some]
      by_cases h : reading.IsStale now maxAge
      · simp [h, pure, Except.pure]
      · simp [h, pure, Except.pure]
    | error f =>
      have hcause : market.ExceedsClock now f := by
        rcases Timestamp.since_eq_error.1 hsince with ⟨hage, rfl⟩ | ⟨hage, rfl⟩
        · exact .word hreading hage
        · exact .duration hreading hage
      have hstale : reading.isStale now maxAge = .error f := by
        rw [OraclePrice.isStale, OraclePrice.ageSeconds, hsince]
        rfl
      refine .inr ⟨f, hcause, ?_⟩
      simp only [bind, Except.bind, hstale]

end PriceSource

/-! ## Reports -/

section

variable {cause : Fault → Prop} {prices prices' : PriceSource} {policy : Policy}
  {positions : List Position} {changes : List Change} {market : Market} {now : Timestamp}
  (h : prices.SameUnless cause prices')

include h

theorem Position.value_sameUnless (p : Position) :
    (p.value prices).SameUnless cause (p.value prices') := by
  refine (Outcome.SameUnless.refl _).bind fun quantity ↦ (h.usd? p.token).bind fun price? ↦ ?_
  exact .refl _

theorem Position.appraise_sameUnless (p : Position) :
    (p.appraise prices policy).SameUnless cause (p.appraise prices' policy) := by
  unfold appraise
  split
  · exact .refl _
  · exact (p.value_sameUnless h).bind fun usd? ↦ .refl _

theorem Valuation.ofPositions_sameUnless :
    (ofPositions positions prices changes policy).SameUnless cause
      (ofPositions positions prices' changes policy) := by
  refine (Outcome.SameUnless.refl _).bind fun merged ↦ ?_
  exact (Outcome.SameUnless.mapM fun p _ ↦ p.appraise_sameUnless h).bind fun appraisals ↦ .refl _

theorem noteValue_sameUnless (p? : Option Position) :
    (noteValue p? prices).SameUnless cause (noteValue p? prices') := by
  cases p? with
  | none => exact .refl _
  | some p => exact (p.value_sameUnless h).bind fun usd? ↦ .refl _

theorem Pool.view_sameUnless (pool : Pool) (token : TokenId) (available : Usd) :
    (pool.view token positions market prices available policy).SameUnless cause
      (pool.view token positions market prices' available policy) := by
  refine (Outcome.SameUnless.refl _).bind fun depositBalance ↦ ?_
  refine (Outcome.SameUnless.refl _).bind fun loanBalance ↦ ?_
  refine (h.usd? pool.token).bind fun price? ↦ ?_
  refine (Outcome.SameUnless.refl _).bind fun bounds ↦ ?_
  refine (noteValue_sameUnless h _).bind fun depositValue ↦ ?_
  exact (noteValue_sameUnless h _).bind fun loanValue ↦ .refl _

theorem PoolViews.ofTokens_sameUnless (tokens : List TokenId) (available : Usd) :
    (ofTokens tokens positions market prices available policy).SameUnless cause
      (ofTokens tokens positions market prices' available policy) := by
  induction tokens with
  | nil => exact .refl _
  | cons token rest ih =>
    rw [ofTokens, ofTokens]
    cases market.pools.get? token with
    | none => exact ih.bind fun later ↦ .refl _
    | some pool =>
      exact (pool.view_sameUnless h token available).bind fun view ↦ ih.bind fun later ↦ .refl _

theorem Report.ofSnapshot_sameUnless (snapshot : Snapshot) :
    (ofSnapshot snapshot market prices changes now policy).SameUnless cause
      (ofSnapshot snapshot market prices' changes now policy) := by
  refine (Valuation.ofPositions_sameUnless h).mapRefusal.bind fun valuation ↦ ?_
  refine (Outcome.SameUnless.refl _).bind fun risk ↦ (Outcome.SameUnless.refl _).bind fun summary ↦ ?_
  refine (Outcome.SameUnless.refl _).bind fun merged ↦ ?_
  refine (PoolViews.ofTokens_sameUnless h market.tokens _).mapRefusal.bind fun pools ↦ ?_
  exact .refl _

end

/-- Reports read prices from their source and never from the market. -/
theorem PoolViews.ofTokens_withPrices (tokens : List TokenId) (positions : List Position)
    (market : Market) (readings : Registry OraclePrice) (prices : PriceSource) (available : Usd)
    (policy : Policy) :
    ofTokens tokens positions { market with prices := readings } prices available policy =
      ofTokens tokens positions market prices available policy := by
  induction tokens with
  | nil => rfl
  | cons token rest ih =>
    rw [ofTokens, ofTokens, ih]
    rfl

theorem Report.ofSnapshot_withPrices (snapshot : Snapshot) (market : Market)
    (readings : Registry OraclePrice) (prices : PriceSource) (changes : List Change)
    (now : Timestamp) (policy : Policy) :
    ofSnapshot snapshot { market with prices := readings } prices changes now policy =
      ofSnapshot snapshot market prices changes now policy := by
  simp only [ofSnapshot, PoolViews.ofMarket, PoolViews.ofTokens_withPrices]

/-! ## Requests -/

namespace Engine

variable {snapshot : Snapshot} {market : Market} {changes : List Change} {now : Timestamp}

/-- The engine that enforces staleness, or the one that does not. -/
def withStaleness (e : Engine) (enforce : Bool) : Engine :=
  { e with settings := { e.settings with enforceStaleness := enforce } }

/-- Two requests end with the same answer and the same log, unless the first ends with a fault that has
a cause. -/
def AnswersUnless {α : Type} (cause : Fault → Prop) (x y : Outcome EngineError α × Engine) : Prop :=
  (x.1 = y.1 ∧ x.2.log = y.2.log) ∨ ∃ f, cause f ∧ x.1 = .error (.fault f)

/-- Procedures that start from the same log go the same way if their first steps do. -/
theorem AnswersUnless.bind {α β : Type} {cause : Fault → Prop} {e e' : Engine}
    {x y : Outcome EngineError β} {k k' : β → Procedure α} (h : x.SameUnless cause y)
    (hlog : e.log = e'.log) (hk : ∀ b, AnswersUnless cause (e.run (k b)) (e'.run (k' b))) :
    AnswersUnless cause (e.run (.ofOutcome x >>= k)) (e'.run (.ofOutcome y >>= k')) := by
  rcases h with rfl | ⟨f, hcause, rfl⟩
  · cases x with
    | error failure => exact .inl ⟨rfl, hlog⟩
    | ok b => exact hk b
  · exact .inr ⟨f, hcause, rfl⟩

theorem project_sameUnless (e : Engine) (snapshot : Snapshot) (market : Market)
    (changes : List Change) (now : Timestamp) :
    ((e.withStaleness true).project snapshot market changes now).SameUnless (market.ExceedsClock now)
      ((e.withStaleness false).project snapshot
        (market.dropStale now e.settings.policy.maxPriceAge) changes now) := by
  have hmarket : (e.withStaleness false).project snapshot
      (market.dropStale now e.settings.policy.maxPriceAge) changes now =
      Report.ofSnapshot snapshot market (.ofRegistry
        (market.dropStale now e.settings.policy.maxPriceAge).prices) changes now
        e.settings.policy := Report.ofSnapshot_withPrices ..
  rw [hmarket]
  exact Report.ofSnapshot_sameUnless (PriceSource.fresh_sameUnless market now _) snapshot

theorem evaluate_sameUnless (e : Engine) (snapshot : Snapshot) (market : Market) (now : Timestamp) :
    ((e.withStaleness true).evaluate snapshot market now).SameUnless (market.ExceedsClock now)
      ((e.withStaleness false).evaluate snapshot
        (market.dropStale now e.settings.policy.maxPriceAge) now) :=
  e.project_sameUnless snapshot market [] now

/-- What follows on a report goes by the policy and the log, which the two engines share. -/
theorem beginLiquidation_answersUnless (e : Engine) (snapshot : Snapshot) (market : Market)
    (liquidator : Address) (now : Timestamp) :
    AnswersUnless (market.ExceedsClock now)
      ((e.withStaleness true).beginLiquidation snapshot market liquidator now)
      ((e.withStaleness false).beginLiquidation snapshot
        (market.dropStale now e.settings.policy.maxPriceAge) liquidator now) := by
  refine .bind (e.evaluate_sameUnless snapshot market now) rfl fun report ↦ ?_
  refine .bind (.refl _) rfl fun outcome ↦ ?_
  cases outcome with
  | started | alreadyClaimed => exact .inl ⟨rfl, rfl⟩

theorem endLiquidation_answersUnless (e : Engine) (snapshot : Snapshot) (market : Market)
    (requester : Address) (now : Timestamp) :
    AnswersUnless (market.ExceedsClock now)
      ((e.withStaleness true).endLiquidation snapshot market requester now)
      ((e.withStaleness false).endLiquidation snapshot
        (market.dropStale now e.settings.policy.maxPriceAge) requester now) := by
  refine .bind (e.evaluate_sameUnless snapshot market now) rfl fun report ↦ ?_
  exact .bind (.refl _) rfl fun reason ↦ .inl ⟨rfl, rfl⟩

/-- An engine that enforces staleness answers every request, and logs, as one that does not would in
the market without the stale readings. Only where the age of some reading goes wrong may it end with
the fault of that age instead. -/
theorem enforcement_is_removal (e : Engine) (snapshot : Snapshot) (market : Market)
    (changes : List Change) (who : Address) (now : Timestamp) :
    let enforcing := e.withStaleness true
    let trusting := e.withStaleness false
    let kept := market.dropStale now e.settings.policy.maxPriceAge
    let cause := market.ExceedsClock now
    (enforcing.evaluate snapshot market now).SameUnless cause (trusting.evaluate snapshot kept now) ∧
    (enforcing.project snapshot market changes now).SameUnless cause
      (trusting.project snapshot kept changes now) ∧
    AnswersUnless cause (enforcing.beginLiquidation snapshot market who now)
      (trusting.beginLiquidation snapshot kept who now) ∧
    AnswersUnless cause (enforcing.endLiquidation snapshot market who now)
      (trusting.endLiquidation snapshot kept who now) :=
  ⟨e.evaluate_sameUnless snapshot market now, e.project_sameUnless snapshot market changes now,
    e.beginLiquidation_answersUnless snapshot market who now,
    e.endLiquidation_answersUnless snapshot market who now⟩

open Sample in
/-- At the first instant of the clock, a reading of instant zero is none too old, but its age is not a
duration: the engine that enforces staleness faults, and the other one reports. -/
theorem enforcement_faults_at_first_instant :
    Engine.start .standard = .ok engine ∧
      Snapshot.ofSlots account.account account.owner account.positions none ⟨0⟩ = .ok account ∧
      (engine.withStaleness true).evaluate account notesMarket ⟨-2 ^ 63⟩ =
        .error (.fault .millisecondsOutOfBounds) ∧
      ∃ report, (engine.withStaleness false).evaluate account
        (notesMarket.dropStale ⟨-2 ^ 63⟩ engine.settings.policy.maxPriceAge) ⟨-2 ^ 63⟩ =
          .ok report := by
  refine ⟨by decide +kernel, by decide +kernel, ?_, ?_⟩
  · rw [evaluate, project, Report.ofSnapshot, Valuation.ofPositions]
    rfl
  · obtain ⟨report, hreport, -⟩ : ∃ report, (engine.withStaleness false).evaluate account
        (notesMarket.dropStale ⟨-2 ^ 63⟩ engine.settings.policy.maxPriceAge) ⟨-2 ^ 63⟩ = .ok report ∧
          true = true := by
      apply exists_ok_of_any
      rw [Engine.evaluate, Engine.project, Report.ofSnapshot,
        Valuation.ofPositions_of_sorted rfl (by decide +kernel)]
      decide +kernel
    exact ⟨report, hreport⟩

end Engine

end MarginAccount
