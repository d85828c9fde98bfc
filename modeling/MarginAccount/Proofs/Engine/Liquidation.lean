import MarginAccount.Proofs.Engine.Report
import MarginAccount.Proofs.Time

/-! # Claiming an account and letting go of it

What a claim and an exit need in order to go through, and that one which fails leaves the engine as it
was. The engine evaluates the account before it looks at who is asking, so an exit that its ground
permits still waits for a valuation and for the clock: `exit_available_iff` shows that it waits for
nothing else.
-/

namespace MarginAccount

variable {snapshot claimed : Snapshot} {market : Market} {now : Timestamp} {policy : Policy}
  {report : Report} {e e' e₁ : Engine} {l : Liquidation} {d : Duration} {risk : Risk}
  {requester owner liquidator : Address} {reason : EndReason} {release : Release}
  {failure : Failure EngineError}

/-! ## The clock -/

namespace Liquidation

/-- Milliseconds for which the account has been held. -/
def heldFor (l : Liquidation) (now : Timestamp) : Int := now.milliseconds - l.startTime.milliseconds

/-- The timeout, the time held and what is left of the timeout are durations. -/
structure HasClock (l : Liquidation) (now : Timestamp) : Prop where
  timeout : Duration.inRange (1000 * l.timeout) = true
  held : Duration.inRange (l.heldFor now) = true
  left : Duration.inRange (1000 * l.timeout - l.heldFor now) = true

theorem remaining_eq_ok :
    l.remaining now = .ok d ↔ l.HasClock now ∧ d = ⟨1000 * l.timeout - l.heldFor now⟩ := by
  simp only [remaining, bind_eq_ok, Duration.ofSeconds_eq_ok, Timestamp.since_eq_ok,
    Duration.sub_eq_ok]
  constructor
  · rintro ⟨_, ⟨htimeout, rfl⟩, _, ⟨hheld, rfl⟩, hleft, rfl⟩
    exact ⟨⟨htimeout, hheld, hleft⟩, rfl⟩
  · rintro ⟨⟨htimeout, hheld, hleft⟩, rfl⟩
    exact ⟨_, ⟨htimeout, rfl⟩, _, ⟨hheld, rfl⟩, hleft, rfl⟩

theorem HasClock.isTimedOut (h : l.HasClock now) :
    l.isTimedOut now = .ok (decide (1000 * l.timeout < l.heldFor now)) := by
  rw [Liquidation.isTimedOut, remaining_eq_ok.2 ⟨h, rfl⟩]
  simp [Except.map, Duration.isNegative]

/-! ## Grounds -/

/-- The ground on which `requester` may end the liquidation: the liquidator's wish, before the timeout,
before the owner's recovery. -/
def exitReason? (l : Liquidation) (requester owner : Address) (risk : Risk) (now : Timestamp)
    (policy : Policy) : Option EndReason :=
  if requester = l.liquidator then some .byLiquidator
  else if 1000 * l.timeout < l.heldFor now then some .timedOut
  else if requester = owner ∧ risk.isLiquidatable policy = false then some .recovered
  else none

theorem isSome_exitReason? :
    (l.exitReason? requester owner risk now policy).isSome = true ↔
      requester = l.liquidator ∨ 1000 * l.timeout < l.heldFor now ∨
        requester = owner ∧ risk.isLiquidatable policy = false := by
  unfold exitReason?
  split
  · simp_all
  · split
    · simp_all
    · split <;> simp_all

theorem authorizeEnd_eq_ok (h : l.HasClock now) :
    authorizeEnd (some l) requester owner risk now policy = .ok reason ↔
      l.exitReason? requester owner risk now policy = some reason := by
  simp only [authorizeEnd, exitReason?, h.isTimedOut, Outcome.ofFaultable_ok]
  split
  · simp [pure, Except.pure]
  · simp only [bind, Except.bind, decide_eq_true_eq]
    split
    · simp [pure, Except.pure]
    · simp only [Bool.not_eq_true']
      split <;> simp [pure, Except.pure, Outcome.refuse]

theorem claim_eq_ok {current : Option Liquidation} {outcome : ClaimOutcome} :
    claim current liquidator risk now policy = .ok outcome ↔
      liquidator.isZero = false ∧
        ((∃ l, current = some l ∧ l.liquidator = liquidator ∧ outcome = .alreadyClaimed l) ∨
          (current = none ∧ risk.isLiquidatable policy = true ∧
            outcome = .started ⟨liquidator, now, policy.liquidationTimeout⟩)) := by
  unfold claim
  cases hzero : liquidator.isZero with
  | true => simp
  | false =>
    cases current with
    | none => simpa using ite_error_eq_ok
    | some l => simpa using ite_error_eq_ok

end Liquidation

namespace Snapshot

variable {held held' : Option Liquidation}

@[simp] theorem liquidation_withLiquidation : (snapshot.withLiquidation held).liquidation = held := rfl

@[simp] theorem account_withLiquidation :
    (snapshot.withLiquidation held).account = snapshot.account := rfl

@[simp] theorem owner_withLiquidation :
    (snapshot.withLiquidation held).owner = snapshot.owner := rfl

@[simp] theorem withLiquidation_withLiquidation :
    (snapshot.withLiquidation held).withLiquidation held' = snapshot.withLiquidation held' := rfl

theorem withLiquidation_of_eq (h : snapshot.liquidation = held) :
    snapshot.withLiquidation held = snapshot := by
  subst h
  rfl

end Snapshot

namespace Engine

open Liquidation

/-! ## Procedures -/

section

variable {α β : Type} {x : Outcome EngineError β} {k : β → Procedure α} {a : α}

theorem run_bind_eq_ok : e.run (.ofOutcome x >>= k) = (.ok a, e') ↔
    ∃ b, x = .ok b ∧ e.run (k b) = (.ok a, e') := by
  cases x with
  | error failure => simp
  | ok b => simp

/-- A step that only answers may fail, and then the engine is the one before it. -/
theorem run_bind_eq_error : e.run (.ofOutcome x >>= k) = (.error failure, e') ↔
    (x = .error failure ∧ e' = e) ∨
      ∃ b, x = .ok b ∧ e.run (k b) = (.error failure, e') := by
  cases x with
  | error failure' => simp [eq_comm]
  | ok b => simp

end

/-! ## Requests to the engine -/

@[simp] theorem settings_record {payload : EventPayload} :
    (e.record now payload).settings = e.settings := rfl

/-- Two engines go by the same rules. They may have recorded different things. -/
structure Agrees (e' e : Engine) : Prop where
  policy : e'.settings.policy = e.settings.policy
  staleness : e'.settings.enforceStaleness = e.settings.enforceStaleness

theorem Agrees.of_settings (h : e'.settings = e.settings) : e'.Agrees e := by
  constructor <;> rw [h]

theorem Agrees.evaluate_eq (h : e'.Agrees e) :
    e'.evaluate snapshot market now = e.evaluate snapshot market now := by
  simp only [evaluate, project, prices, h.policy, h.staleness]

/-- Evaluating an account that is held takes the clock, and what it takes if nobody holds it. -/
theorem exists_evaluate_iff (hl : snapshot.liquidation = some l) :
    (∃ report, e.evaluate snapshot market now = .ok report) ↔
      (∃ report, e.evaluate (snapshot.withLiquidation none) market now = .ok report) ∧
        l.HasClock now := by
  simp only [evaluate, project]
  rw [Report.ofSnapshot_eq_bind, hl]
  simp only [bind_eq_ok, Outcome.ofFaultable_eq_ok, pure_eq_ok]
  constructor
  · rintro ⟨_, free, hfree, _, hremaining, -⟩
    obtain ⟨d, hd, -⟩ := bind_eq_ok.1 hremaining
    exact ⟨⟨free, hfree⟩, (remaining_eq_ok.1 hd).1⟩
  · rintro ⟨⟨free, hfree⟩, hclock⟩
    exact ⟨_, free, hfree, _, bind_eq_ok.2 ⟨_, remaining_eq_ok.2 ⟨hclock, rfl⟩, rfl⟩, rfl⟩

/-- Without a limit on the age of prices, an account that nobody holds evaluates the same at any time. -/
theorem evaluate_now {now' : Timestamp} (hstale : e.settings.enforceStaleness = false)
    (hfree : snapshot.liquidation = none) :
    e.evaluate snapshot market now = e.evaluate snapshot market now' := by
  simp [evaluate, project, prices, hstale, Report.ofSnapshot, hfree]

theorem evaluate_hasClock (h : e.evaluate snapshot market now = .ok report)
    (hl : snapshot.liquidation = some l) : l.HasClock now :=
  ((exists_evaluate_iff hl).1 ⟨report, h⟩).2

/-- All that a claim can do. -/
theorem beginLiquidation_eq_ok :
    e.beginLiquidation snapshot market liquidator now = (.ok claimed, e') ↔
      ∃ report, e.evaluate snapshot market now = .ok report ∧ liquidator.isZero = false ∧
        ((∃ l, snapshot.liquidation = some l ∧ l.liquidator = liquidator ∧
            claimed = snapshot ∧ e' = e) ∨
          (snapshot.liquidation = none ∧ report.risk.isLiquidatable e.settings.policy = true ∧
            claimed = snapshot.withLiquidation
              (some ⟨liquidator, now, e.settings.policy.liquidationTimeout⟩) ∧
            e' = e.record now (.begun
              ⟨snapshot.account, liquidator, now, report.risk, report.valuation⟩))) := by
  simp only [beginLiquidation, run_bind_eq_ok, Outcome.mapRefusal_eq_ok, Outcome.ofRefusable_eq_ok,
    claim_eq_ok]
  constructor
  · rintro ⟨report, hreport, outcome, ⟨hzero, ⟨l, hl, hliquidator, rfl⟩ | ⟨hnone, hrisk, rfl⟩⟩, h⟩
    · obtain ⟨⟨⟩, rfl⟩ := Prod.mk.inj h
      exact ⟨report, hreport, hzero, .inl ⟨l, hl, hliquidator, rfl, rfl⟩⟩
    · obtain ⟨⟨⟩, rfl⟩ := Prod.mk.inj h
      exact ⟨report, hreport, hzero, .inr ⟨hnone, hrisk, rfl, rfl⟩⟩
  · rintro ⟨report, hreport, hzero, ⟨l, hl, hliquidator, rfl, rfl⟩ | ⟨hnone, hrisk, rfl, rfl⟩⟩
    · exact ⟨report, hreport, _, ⟨hzero, .inl ⟨l, hl, hliquidator, rfl⟩⟩, rfl⟩
    · exact ⟨report, hreport, _, ⟨hzero, .inr ⟨hnone, hrisk, rfl⟩⟩, rfl⟩

/-- All that keeps a claim from going through. It leaves the engine as it was. -/
theorem beginLiquidation_eq_error :
    e.beginLiquidation snapshot market liquidator now = (.error failure, e') ↔
      e' = e ∧ (e.evaluate snapshot market now = .error failure ∨
        ∃ report refusal, e.evaluate snapshot market now = .ok report ∧
          claim snapshot.liquidation liquidator report.risk now e.settings.policy =
            .error refusal ∧
          failure = .refused (.liquidation refusal)) := by
  simp only [beginLiquidation, run_bind_eq_error]
  constructor
  · rintro (⟨hreport, rfl⟩ | ⟨report, hreport, ⟨hclaim, rfl⟩ | ⟨outcome, -, h⟩⟩)
    · exact ⟨rfl, .inl hreport⟩
    · cases h : claim snapshot.liquidation liquidator report.risk now e'.settings.policy with
      | error refusal =>
        rw [h] at hclaim
        exact ⟨rfl, .inr ⟨report, refusal, hreport, h, (Except.error.inj hclaim).symm⟩⟩
      | ok outcome =>
        rw [h] at hclaim
        cases hclaim
    · -- a claim that is granted is recorded last, and nothing fails any more
      cases outcome <;> cases h
  · rintro ⟨rfl, hreport | ⟨report, refusal, hreport, hclaim, rfl⟩⟩
    · exact .inl ⟨hreport, rfl⟩
    · refine .inr ⟨report, hreport, .inl ⟨?_, rfl⟩⟩
      rw [hclaim]
      rfl

/-- Engines that agree refuse the same claims, and each stays as it was. -/
theorem Agrees.refuses_claim (h : e'.Agrees e)
    (hbegin : e.beginLiquidation snapshot market liquidator now = (.error failure, e₁)) :
    e'.beginLiquidation snapshot market liquidator now = (.error failure, e') := by
  obtain ⟨-, hfailure⟩ := beginLiquidation_eq_error.1 hbegin
  rw [← h.evaluate_eq, ← h.policy] at hfailure
  exact beginLiquidation_eq_error.2 ⟨rfl, hfailure⟩

theorem exitReason?_of_authorizeEnd (hreport : e.evaluate snapshot market now = .ok report)
    (h : authorizeEnd snapshot.liquidation requester owner risk now policy = .ok reason) :
    ∃ l, snapshot.liquidation = some l ∧
      l.exitReason? requester owner risk now policy = some reason := by
  cases hl : snapshot.liquidation with
  | none =>
    rw [hl] at h
    cases h
  | some l =>
    rw [hl, authorizeEnd_eq_ok (evaluate_hasClock hreport hl)] at h
    exact ⟨l, rfl, h⟩

/-- All that an exit can do. -/
theorem endLiquidation_eq_ok :
    e.endLiquidation snapshot market requester now = (.ok release, e') ↔
      ∃ report l reason, e.evaluate snapshot market now = .ok report ∧
        snapshot.liquidation = some l ∧
        l.exitReason? requester snapshot.owner report.risk now e.settings.policy = some reason ∧
        release = ⟨snapshot.withLiquidation none, ⟨snapshot.account, requester, reason⟩⟩ ∧
        e' = e.record now (.ended ⟨snapshot.account, requester, reason⟩) := by
  simp only [endLiquidation, run_bind_eq_ok, Outcome.mapRefusal_eq_ok, run_emit_bind, run_pure,
    Prod.mk.injEq, Except.ok.injEq]
  constructor
  · rintro ⟨report, hreport, reason, hreason, rfl, rfl⟩
    obtain ⟨l, hl, hground⟩ := exitReason?_of_authorizeEnd hreport hreason
    exact ⟨report, l, reason, hreport, hl, hground, rfl, rfl⟩
  · rintro ⟨report, l, reason, hreport, hl, hreason, rfl, rfl⟩
    rw [← authorizeEnd_eq_ok (evaluate_hasClock hreport hl), ← hl] at hreason
    exact ⟨report, hreport, reason, hreason, rfl, rfl⟩

/-- All that keeps an exit from going through. It leaves the engine as it was. -/
theorem endLiquidation_eq_error :
    e.endLiquidation snapshot market requester now = (.error failure, e') ↔
      e' = e ∧ (e.evaluate snapshot market now = .error failure ∨
        ∃ report, e.evaluate snapshot market now = .ok report ∧
          Outcome.mapRefusal .liquidation (authorizeEnd snapshot.liquidation requester snapshot.owner
            report.risk now e.settings.policy) = .error failure) := by
  simp only [endLiquidation, run_bind_eq_error, run_emit_bind, run_pure]
  constructor
  · rintro (⟨hreport, rfl⟩ | ⟨report, hreport, ⟨hreason, rfl⟩ | ⟨reason, -, ⟨⟩⟩⟩)
    · exact ⟨rfl, .inl hreport⟩
    · exact ⟨rfl, .inr ⟨report, hreport, hreason⟩⟩
  · rintro ⟨rfl, hreport | ⟨report, hreport, hreason⟩⟩
    · exact .inl ⟨hreport, rfl⟩
    · exact .inr ⟨report, hreport, .inl ⟨hreason, rfl⟩⟩

/-- Engines that agree refuse the same exits, and each stays as it was. -/
theorem Agrees.refuses_exit (h : e'.Agrees e)
    (hend : e.endLiquidation snapshot market requester now = (.error failure, e₁)) :
    e'.endLiquidation snapshot market requester now = (.error failure, e') := by
  obtain ⟨-, hfailure⟩ := endLiquidation_eq_error.1 hend
  rw [← h.evaluate_eq, ← h.policy] at hfailure
  exact endLiquidation_eq_error.2 ⟨rfl, hfailure⟩

/-- Whoever has a ground ends the liquidation if the account evaluates. -/
theorem exists_endLiquidation_iff (hreport : e.evaluate snapshot market now = .ok report)
    (hl : snapshot.liquidation = some l) :
    (∃ release e', e.endLiquidation snapshot market requester now = (.ok release, e')) ↔
      requester = l.liquidator ∨ 1000 * l.timeout < l.heldFor now ∨
        requester = snapshot.owner ∧ report.risk.isLiquidatable e.settings.policy = false := by
  rw [← isSome_exitReason?, Option.isSome_iff_exists]
  simp only [endLiquidation_eq_ok]
  constructor
  · rintro ⟨_, _, report', l', reason, hreport', hl', hreason, -, -⟩
    rw [hreport, Except.ok.injEq] at hreport'
    rw [hl, Option.some.injEq] at hl'
    subst hreport' hl'
    exact ⟨reason, hreason⟩
  · rintro ⟨reason, hreason⟩
    exact ⟨_, _, report, l, reason, hreport, hl, hreason, rfl, rfl⟩

/-! ## The way out

The module comment of a liquidation promises its liquidator a way out at any time. -/

/-- The liquidator's exit waits for the account to evaluate as one that nobody holds, and for the
clock. After the timeout the owner's waits for the same, whatever the risk. -/
theorem exit_available_iff
    (hbegin : e.beginLiquidation snapshot market liquidator now = (.ok claimed, e₁)) :
    ∃ l, claimed.liquidation = some l ∧ l.liquidator = liquidator ∧
      (snapshot.liquidation = none →
        l = ⟨liquidator, now, e.settings.policy.liquidationTimeout⟩) ∧
      ∀ (e' : Engine) (market' : Market) (now' : Timestamp),
        ((∃ release e'', e'.endLiquidation claimed market' liquidator now' = (.ok release, e'')) ↔
          (∃ report, e'.evaluate (claimed.withLiquidation none) market' now' = .ok report) ∧
            l.HasClock now') ∧
        (1000 * l.timeout < l.heldFor now' →
          ((∃ release e'', e'.endLiquidation claimed market' claimed.owner now' =
              (.ok release, e'')) ↔
            (∃ report, e'.evaluate (claimed.withLiquidation none) market' now' = .ok report) ∧
              l.HasClock now')) := by
  obtain ⟨l, hl, hliquidator, hfresh⟩ : ∃ l, claimed.liquidation = some l ∧
      l.liquidator = liquidator ∧ (snapshot.liquidation = none →
        l = ⟨liquidator, now, e.settings.policy.liquidationTimeout⟩) := by
    obtain ⟨report, -, -, ⟨l, hl, hliquidator, rfl, -⟩ | ⟨-, -, rfl, -⟩⟩ :=
      beginLiquidation_eq_ok.1 hbegin
    · refine ⟨l, hl, hliquidator, fun hnone ↦ ?_⟩
      rw [hnone] at hl
      cases hl
    · exact ⟨_, rfl, rfl, fun _ ↦ rfl⟩
  refine ⟨l, hl, hliquidator, hfresh, fun e' market' now' ↦ ?_⟩
  -- whoever has a ground only waits for the report
  have hexit : ∀ requester, (requester = l.liquidator ∨ 1000 * l.timeout < l.heldFor now') →
      ((∃ release e'', e'.endLiquidation claimed market' requester now' = (.ok release, e'')) ↔
        ∃ report, e'.evaluate claimed market' now' = .ok report) := by
    intro requester hground
    constructor
    · rintro ⟨release, e'', hend⟩
      obtain ⟨report, _, _, hreport, -⟩ := endLiquidation_eq_ok.1 hend
      exact ⟨report, hreport⟩
    · rintro ⟨report, hreport⟩
      refine (exists_endLiquidation_iff hreport hl).2 ?_
      exact hground.imp_right .inl
  rw [← exists_evaluate_iff hl]
  exact ⟨hexit liquidator (.inl hliquidator.symm), fun hlate ↦ hexit _ (.inr hlate)⟩

/-- Without a limit on the age of prices, the market in which the account was claimed lets it go. -/
theorem exit_available_in_market
    (hbegin : e.beginLiquidation snapshot market liquidator now = (.ok claimed, e₁))
    (hstale : e.settings.enforceStaleness = false) (hl : claimed.liquidation = some l)
    {now' : Timestamp} (hclock : l.HasClock now') :
    ∃ release e'', e.endLiquidation claimed market liquidator now' = (.ok release, e'') := by
  obtain ⟨report, hreport, -, hcases⟩ := beginLiquidation_eq_ok.1 hbegin
  have hliquidator : liquidator = l.liquidator := by
    rcases hcases with ⟨l₀, hl₀, hliquidator, rfl, -⟩ | ⟨-, -, rfl, -⟩
    · rw [← hliquidator, Option.some.inj (hl.symm.trans hl₀)]
    · exact congrArg Liquidation.liquidator (Option.some.inj hl)
  have hfree : ∃ report, e.evaluate (claimed.withLiquidation none) market now' = .ok report := by
    have hnow : e.evaluate (claimed.withLiquidation none) market now' =
        e.evaluate (claimed.withLiquidation none) market now := evaluate_now hstale rfl
    rw [hnow]
    rcases hcases with ⟨_, hl₀, -, rfl, -⟩ | ⟨hnone, -, rfl, -⟩
    · exact ((exists_evaluate_iff hl₀).1 ⟨report, hreport⟩).1
    · rw [Snapshot.withLiquidation_withLiquidation, Snapshot.withLiquidation_of_eq hnone]
      exact ⟨report, hreport⟩
  obtain ⟨report', hreport'⟩ := (exists_evaluate_iff hl).2 ⟨hfree, hclock⟩
  exact (exists_endLiquidation_iff hreport' hl).2 (.inl hliquidator)

end Engine

namespace Sample

/-- A hundred deposited tokens, and 80 owed at a weight of one half. -/
def leveraged : Snapshot :=
  ⟨.ofTag 99, .ofTag 50, [⟨.ofTag 1, .ofTag 1, .clamp 100, 0, .deposit, .one⟩,
    ⟨.ofTag 2, .ofTag 2, .clamp 80, 0, .claim, .lit 50 2⟩], none, ⟨0⟩⟩

/-- A market without pools that quotes one dollar for what is deposited. -/
def owing (price : Decimal) : Market :=
  ((Market.ofTokens []).setPrice (.ofTag 1) ⟨.one, 0, ⟨0⟩⟩).setPrice (.ofTag 2) ⟨price, 0, ⟨0⟩⟩

/-- The account in the hands of the seventh address from the first second on. -/
def seized : Snapshot :=
  leveraged.withLiquidation (some ⟨.ofTag 7, ⟨1000⟩, Policy.standard.liquidationTimeout⟩)

theorem evaluate_leveraged (now : Timestamp) :
    ∃ report, engine.evaluate leveraged (owing .one) now = .ok report ∧
      report.risk = .finite (.lit 240 2) := by
  obtain ⟨report, hreport, hrisk⟩ : ∃ report, engine.evaluate leveraged (owing .one) ⟨0⟩ = .ok report ∧
      decide (report.risk = .finite (.lit 240 2)) = true := by
    apply exists_ok_of_any
    rw [Engine.evaluate, Engine.project, Report.ofSnapshot,
      Valuation.ofPositions_of_sorted rfl (by decide +kernel)]
    decide +kernel
  exact ⟨report, (Engine.evaluate_now rfl rfl).trans hreport, of_decide_eq_true hrisk⟩

theorem beginLiquidation_leveraged :
    ∃ e, e.settings = engine.settings ∧
      engine.beginLiquidation leveraged (owing .one) (.ofTag 7) ⟨1000⟩ = (.ok seized, e) := by
  obtain ⟨report, hreport, hrisk⟩ := evaluate_leveraged ⟨1000⟩
  have hliquidatable : report.risk.isLiquidatable engine.settings.policy = true := by
    rw [hrisk]
    decide
  exact ⟨_, Engine.settings_record, Engine.beginLiquidation_eq_ok.2
    ⟨report, hreport, by decide, .inr ⟨rfl, hliquidatable, rfl, rfl⟩⟩⟩

end Sample

namespace Engine

open Sample

/-- In the market of the claim the liquidator lets go after a second, and the owner gets the account
back after the timeout. -/
theorem exit_of_leveraged :
    ∃ e release release' e' e'',
      engine.beginLiquidation leveraged (owing .one) (.ofTag 7) ⟨1000⟩ = (.ok seized, e) ∧
      e.endLiquidation seized (owing .one) (.ofTag 7) ⟨2000⟩ = (.ok release, e') ∧
      e.endLiquidation seized (owing .one) (.ofTag 50) ⟨61001⟩ = (.ok release', e'') := by
  obtain ⟨e, hsettings, hbegin⟩ := beginLiquidation_leveraged
  obtain ⟨l, -, -, hfresh, hexit⟩ := exit_available_iff hbegin
  obtain rfl := hfresh rfl
  have hreport : ∀ now, ∃ report,
      e.evaluate (seized.withLiquidation none) (owing .one) now = .ok report := by
    intro now
    obtain ⟨report, hreport, -⟩ := evaluate_leveraged now
    exact ⟨report, (Agrees.of_settings hsettings).evaluate_eq.trans hreport⟩
  obtain ⟨release, e', hend⟩ := (hexit e (owing .one) ⟨2000⟩).1.2
    ⟨hreport _, by constructor <;> decide⟩
  obtain ⟨release', e'', hend'⟩ := ((hexit e (owing .one) ⟨61001⟩).2 (by decide)).2
    ⟨hreport _, by constructor <;> decide⟩
  exact ⟨e, release, release', e', e'', hbegin, hend, hend'⟩

/-- The price of what is owed rises until its value overflows. From then on nobody gets the account
out of the liquidation, neither its liquidator nor, after the timeout, its owner. -/
theorem exit_blocked_by_overflow :
    Engine.start .standard = .ok engine ∧
      Snapshot.ofSlots leveraged.account leveraged.owner leveraged.positions none ⟨0⟩ =
        .ok leveraged ∧
      ∃ e, engine.beginLiquidation leveraged (owing .one) (.ofTag 7) ⟨1000⟩ = (.ok seized, e) ∧
        ∀ requester now, e.endLiquidation seized (owing (.lit 1000000000000000000000000000)) requester
          now = (.error (.refused (.valuation (.valueOverflow (.ofTag 2)))), e) := by
  obtain ⟨e, hsettings, hbegin⟩ := beginLiquidation_leveraged
  refine ⟨by decide +kernel, by decide +kernel, e, hbegin, fun requester now ↦ ?_⟩
  have hvaluation : Valuation.ofPositions seized.positions
      (engine.prices (owing (.lit 1000000000000000000000000000)) now) [] engine.settings.policy =
        .error (.refused (.valueOverflow (.ofTag 2))) := by
    change Valuation.ofPositions seized.positions
      (engine.prices (owing (.lit 1000000000000000000000000000)) ⟨0⟩) [] engine.settings.policy = _
    decide +kernel
  refine endLiquidation_eq_error.2 ⟨rfl, .inl ?_⟩
  rw [(Agrees.of_settings hsettings).evaluate_eq, evaluate, project, Report.ofSnapshot, hvaluation]
  rfl

end Engine

end MarginAccount
