import MarginAccount.Proofs.Engine.Session

/-! # Who may claim, as a report tells it

A client reads the phase and the level off a report and then claims the account. The report, the
level and the claim each look at the risk for themselves, and the claim asks first who is calling and
who holds the account. Here they are shown to agree: the phase of a report says how every claim ends
that is made in the same market at the same time.
-/

namespace MarginAccount

variable {snapshot after : Snapshot} {market : Market} {now : Timestamp} {policy : Policy}
  {report : Report} {e e' : Engine} {l : Liquidation} {current : Option Liquidation} {risk : Risk}
  {who : Address}

/-! ## Phase and level -/

theorem Risk.level_eq_liquidatable :
    risk.level policy = .liquidatable ↔ risk.isLiquidatable policy = true := by
  unfold level isLiquidatable
  split_ifs with h <;> simp [h]

namespace Liquidation

theorem phase_eq_eligible :
    phase current risk policy = .eligible ↔ current = none ∧ risk.isLiquidatable policy = true := by
  cases current with
  | none => cases h : risk.isLiquidatable policy <;> simp [phase, h]
  | some l => simp [phase]

theorem phase_eq_healthy :
    phase current risk policy = .healthy ↔ current = none ∧ risk.isLiquidatable policy = false := by
  cases current with
  | none => cases h : risk.isLiquidatable policy <;> simp [phase, h]
  | some l => simp [phase]

theorem phase_eq_inLiquidation :
    phase current risk policy = .inLiquidation ↔ ∃ l, current = some l := by
  cases current with
  | none => cases h : risk.isLiquidatable policy <;> simp [phase, h]
  | some l => simp [phase]

/-! ## Claims -/

theorem claim_of_zero (hwho : who.isZero = true) :
    claim current who risk now policy = .error (.unauthorized who) := by
  simp [claim, hwho]

theorem claim_none (hwho : who.isZero = false) :
    claim none who risk now policy =
      if risk.isLiquidatable policy then .ok (.started ⟨who, now, policy.liquidationTimeout⟩)
      else .error (.notLiquidatable risk) := by
  simp [claim, hwho]

theorem claim_some (hwho : who.isZero = false) :
    claim (some l) who risk now policy =
      if l.liquidator = who then .ok (.alreadyClaimed l)
      else .error (.alreadyLiquidating l.liquidator) := by
  simp [claim, hwho]

end Liquidation

/-- The snapshot after a claim: the liquidation holds the account, and all else is as it was. -/
structure Snapshot.ClaimedAs (claimed snapshot : Snapshot) (l : Liquidation) : Prop where
  liquidation : claimed.liquidation = some l
  account : claimed.account = snapshot.account
  owner : claimed.owner = snapshot.owner
  positions : claimed.positions = snapshot.positions
  fetchedAt : claimed.fetchedAt = snapshot.fetchedAt

theorem Snapshot.claimedAs_withLiquidation (snapshot : Snapshot) (l : Liquidation) :
    (snapshot.withLiquidation (some l)).ClaimedAs snapshot l :=
  ⟨rfl, rfl, rfl, rfl, rfl⟩

namespace Engine

/-- A claim on an account that evaluates is refused for the reason that the liquidation gives. -/
theorem beginLiquidation_eq_refused {refusal : LiquidationError}
    (hreport : e.evaluate snapshot market now = .ok report)
    (hclaim : Liquidation.claim snapshot.liquidation who report.risk now e.settings.policy =
      .error refusal) :
    e.beginLiquidation snapshot market who now = (.error (.refused (.liquidation refusal)), e) :=
  beginLiquidation_eq_error.2 ⟨rfl, .inr ⟨report, refusal, hreport, hclaim, rfl⟩⟩

theorem answer_claim (h : e.beginLiquidation snapshot market who now = (.ok after, e')) :
    e.answer snapshot ⟨market, now, .claim who⟩ = (after, e') := by
  simp only [answer, h]
  rfl

/-- What has been recorded does not matter to an evaluation. -/
theorem evaluate_emptied :
    e.emptied.evaluate snapshot market now = e.evaluate snapshot market now :=
  Agrees.evaluate_eq ⟨rfl, rfl⟩

/-- What a claim emits on an account that is free and at the liquidation level. -/
theorem emitted_claim_of_free (hreport : e.evaluate snapshot market now = .ok report)
    (hwho : who.isZero = false) (hfree : snapshot.liquidation = none)
    (hrisk : report.risk.isLiquidatable e.settings.policy = true) :
    e.emitted snapshot ⟨market, now, .claim who⟩ =
      [⟨e.log.nextId, now,
        .begun ⟨snapshot.account, who, now, report.risk, report.valuation⟩⟩] := by
  have hbegin := beginLiquidation_eq_ok.2 ⟨report, evaluate_emptied.trans hreport, hwho,
    .inr ⟨hfree, hrisk, rfl, rfl⟩⟩
  rw [emitted, answer_claim hbegin]
  rfl

/-- A claim made again emits nothing. -/
theorem emitted_claim_of_held (hreport : e.evaluate snapshot market now = .ok report)
    (hwho : l.liquidator.isZero = false) (hheld : snapshot.liquidation = some l) :
    e.emitted snapshot ⟨market, now, .claim l.liquidator⟩ = [] := by
  have hbegin := beginLiquidation_eq_ok.2 ⟨report, evaluate_emptied.trans hreport, hwho,
    .inl ⟨l, hheld, rfl, rfl, rfl⟩⟩
  rw [emitted, answer_claim hbegin]
  rfl

/-! ## Agreement -/

theorem phase_of_evaluate (h : e.evaluate snapshot market now = .ok report) :
    report.phase = Liquidation.phase snapshot.liquidation report.risk e.settings.policy := by
  obtain ⟨-, -, -, -, -, -, -, hphase⟩ := Report.ofSnapshot_eq_ok_iff.1 h
  exact hphase

theorem level_of_evaluate (h : e.evaluate snapshot market now = .ok report) :
    report.level = report.risk.level e.settings.policy := by
  obtain ⟨-, -, -, -, -, hlevel, -⟩ := Report.ofSnapshot_eq_ok_iff.1 h
  exact hlevel

/-- Without the liquidation the account evaluates to the same risk. -/
theorem evaluate_free (h : e.evaluate snapshot market now = .ok report) :
    ∃ free, e.evaluate (snapshot.withLiquidation none) market now = .ok free ∧
      free.risk = report.risk := by
  rw [evaluate, project, Report.ofSnapshot_eq_bind, bind_eq_ok] at h
  obtain ⟨free, hfree, h⟩ := h
  obtain ⟨remaining, -, h⟩ := bind_eq_ok.1 h
  rw [pure_eq_ok] at h
  exact ⟨free, hfree, by rw [← h]⟩

/-- The phase of a report says how every claim ends in the same market at the same time. -/
theorem phase_settles_claims (h : e.evaluate snapshot market now = .ok report) :
    (report.phase = .eligible ↔ snapshot.liquidation = none ∧
      ∀ who, who.isZero = false →
        let payload := .begun ⟨snapshot.account, who, now, report.risk, report.valuation⟩
        (∃ claimed, e.beginLiquidation snapshot market who now =
            (.ok claimed, e.record now payload) ∧
          claimed.ClaimedAs snapshot ⟨who, now, e.settings.policy.liquidationTimeout⟩) ∧
        e.emitted snapshot ⟨market, now, .claim who⟩ = [⟨e.log.nextId, now, payload⟩]) ∧
    (report.phase = .healthy → ∀ who, who.isZero = false →
      e.beginLiquidation snapshot market who now =
        (.error (.refused (.liquidation (.notLiquidatable report.risk))), e)) ∧
    (report.phase = .inLiquidation → ∃ l, snapshot.liquidation = some l ∧
      ∀ who, who.isZero = false →
        (who = l.liquidator → e.beginLiquidation snapshot market who now = (.ok snapshot, e) ∧
          e.emitted snapshot ⟨market, now, .claim who⟩ = []) ∧
        (who ≠ l.liquidator → e.beginLiquidation snapshot market who now =
          (.error (.refused (.liquidation (.alreadyLiquidating l.liquidator))), e))) ∧
    (∀ who, who.isZero = true → e.beginLiquidation snapshot market who now =
      (.error (.refused (.liquidation (.unauthorized who))), e)) ∧
    ∃ free, e.evaluate (snapshot.withLiquidation none) market now = .ok free ∧
      (report.level = .liquidatable ↔ free.phase = .eligible) := by
  rw [phase_of_evaluate h, level_of_evaluate h]
  refine ⟨⟨fun hphase ↦ ?_, fun ⟨hfree, hclaims⟩ ↦ ?_⟩, fun hphase who hwho ↦ ?_,
    fun hphase ↦ ?_, fun who hwho ↦ beginLiquidation_eq_refused h (Liquidation.claim_of_zero hwho),
    ?_⟩
  · obtain ⟨hfree, hrisk⟩ := Liquidation.phase_eq_eligible.1 hphase
    refine ⟨hfree, fun who hwho ↦ ⟨⟨_, ?_, snapshot.claimedAs_withLiquidation _⟩,
      emitted_claim_of_free h hwho hfree hrisk⟩⟩
    exact beginLiquidation_eq_ok.2 ⟨report, h, hwho, .inr ⟨hfree, hrisk, rfl, rfl⟩⟩
  · -- one claim that goes through shows the level; any address but zero will do
    obtain ⟨⟨_, hbegin, -⟩, -⟩ := hclaims (.ofTag 1) (by decide)
    obtain ⟨report', hreport', -, ⟨l, hheld, -⟩ | ⟨-, hrisk, -⟩⟩ := beginLiquidation_eq_ok.1 hbegin
    · rw [hfree] at hheld
      cases hheld
    · rw [h, Except.ok.injEq] at hreport'
      exact Liquidation.phase_eq_eligible.2 ⟨hfree, hreport' ▸ hrisk⟩
  · obtain ⟨hfree, hrisk⟩ := Liquidation.phase_eq_healthy.1 hphase
    refine beginLiquidation_eq_refused h ?_
    rw [hfree, Liquidation.claim_none hwho, hrisk]
    rfl
  · obtain ⟨l, hheld⟩ := Liquidation.phase_eq_inLiquidation.1 hphase
    refine ⟨l, hheld, fun who hwho ↦ ⟨?_, fun hother ↦ ?_⟩⟩
    · rintro rfl
      exact ⟨beginLiquidation_eq_ok.2 ⟨report, h, hwho, .inl ⟨l, hheld, rfl, rfl, rfl⟩⟩,
        emitted_claim_of_held h hwho hheld⟩
    · refine beginLiquidation_eq_refused h ?_
      rw [hheld, Liquidation.claim_some hwho, if_neg (Ne.symm hother)]
  · obtain ⟨free, hfree, hrisk⟩ := evaluate_free h
    refine ⟨free, hfree, ?_⟩
    rw [phase_of_evaluate hfree, Liquidation.phase_eq_eligible, Risk.level_eq_liquidatable, hrisk]
    simp

open Sample in
/-- The leveraged account is eligible, so any address may claim it, and a claim by the seventh one
is recorded: the account is then held by that address, from now on and for the timeout. -/
theorem claims_of_leveraged :
    ∃ report claimed, engine.evaluate leveraged (owing .one) ⟨1000⟩ = .ok report ∧
      report.phase = .eligible ∧
      engine.beginLiquidation leveraged (owing .one) (.ofTag 7) ⟨1000⟩ =
        (.ok claimed, engine.record ⟨1000⟩
          (.begun ⟨leveraged.account, .ofTag 7, ⟨1000⟩, report.risk, report.valuation⟩)) ∧
      claimed.liquidation = some ⟨.ofTag 7, ⟨1000⟩, Policy.standard.liquidationTimeout⟩ ∧
      claimed.positions = leveraged.positions := by
  obtain ⟨report, hreport, hrisk⟩ := evaluate_leveraged ⟨1000⟩
  have hphase : report.phase = .eligible := by
    rw [phase_of_evaluate hreport, hrisk]
    decide
  obtain ⟨heligible, -⟩ := phase_settles_claims hreport
  obtain ⟨⟨claimed, hbegin, hclaimed⟩, -⟩ := (heligible.1 hphase).2 (.ofTag 7) (by decide)
  exact ⟨report, claimed, hreport, hphase, hbegin, hclaimed.liquidation, hclaimed.positions⟩

end Engine

end MarginAccount
