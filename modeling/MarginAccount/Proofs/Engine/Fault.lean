import MarginAccount.Proofs.Engine.Refusal
import MarginAccount.Proofs.Trade.Overflow

/-! # When the engine has no answer

Snapshots, changes and policies are checked before the engine sees them, so that it answers every
request or refuses it. Where pools, wallets and times make sense as well, there are three ways left to
get no answer, and `fault_iff` lists them: an account overfills a pool, the timeout of its liquidation
is not a duration, or what is left of the timeout is not. A policy may have such a timeout, and a
checked account may overfill a pool.
-/

namespace MarginAccount

variable {snapshot : Snapshot} {market : Market} {prices : PriceSource}
  {changes : List Change} {now : Timestamp} {policy : Policy} {l : Liquidation} {f : Fault}
  {e : Engine} {owner liquidator requester : Address}

/-! ## The clock -/

namespace Liquidation

/-- What is left of a timeout is missing where the timeout is no duration, or the difference. -/
theorem remaining_eq_error (hheld : Duration.inRange (l.heldFor now) = true) :
    l.remaining now = .error f ↔
      (Duration.inRange (1000 * l.timeout) = false ∧ f = .secondsOutOfBounds) ∨
      (Duration.inRange (1000 * l.timeout) = true ∧
        Duration.inRange (1000 * l.timeout - l.heldFor now) = false ∧ f = .durationSubtraction) := by
  have hsince : now.since l.startTime = .ok ⟨l.heldFor now⟩ := Timestamp.since_eq_ok.2 ⟨hheld, rfl⟩
  simp only [remaining, hsince, bind_eq_error, Duration.ofSeconds_eq_error, Duration.ofSeconds_eq_ok,
    reduceCtorEq, false_or, Except.ok.injEq, exists_eq_left', Duration.sub_eq_error]
  constructor
  · rintro (h | ⟨_, ⟨hrange, rfl⟩, hleft⟩)
    · exact .inl h
    · exact .inr ⟨hrange, hleft⟩
  · rintro (h | ⟨hrange, hleft⟩)
    · exact .inl h
    · exact .inr ⟨_, ⟨hrange, rfl⟩, hleft⟩

theorem authorizeEnd_ne_fault {current : Option Liquidation} {risk : Risk}
    (hclock : ∀ l, current = some l → l.HasClock now) :
    authorizeEnd current requester owner risk now policy ≠ .error (.fault f) := by
  cases current with
  | none => exact fun h ↦ by cases h
  | some l =>
    simp only [authorizeEnd, (hclock l rfl).isTimedOut, Outcome.ofFaultable_ok]
    split
    · exact fun h ↦ by cases h
    · simp only [bind, Except.bind, decide_eq_true_eq]
      split
      · exact fun h ↦ by cases h
      · split <;> exact fun h ↦ by cases h

end Liquidation

/-! ## Reports -/

namespace Report

theorem mapM_remaining_eq_error :
    snapshot.liquidation.mapM (·.remaining now) = .error f ↔
      ∃ l, snapshot.liquidation = some l ∧ l.remaining now = .error f := by
  cases hl : snapshot.liquidation with
  | none => exact ⟨fun h ↦ (by cases h), fun ⟨_, h, _⟩ ↦ (by cases h)⟩
  | some l =>
    change (l.remaining now >>= fun d ↦ pure (some d)) = .error f ↔ _
    rw [bind_eq_error]
    constructor
    · rintro (h | ⟨_, -, h⟩)
      · exact ⟨l, rfl, h⟩
      · cases h
    · rintro ⟨_, ⟨⟩, h⟩
      exact .inl h

/-- A report faults over a pool that is overfilled, or once there is one but for the clock. -/
theorem ofSnapshot_eq_fault (hprices : prices.IsTotal) (hmarket : market.IsSound)
    (hpolicy : policy.check = .ok ()) (hpositions : ∀ p ∈ snapshot.positions, p.check = .ok ())
    (hchanges : ∀ c ∈ changes, checkModifier c.token c.kind c.modifier = .ok ()) :
    ofSnapshot snapshot market prices changes now policy = .error (.fault f) ↔
      (f = .addition ∧ ∃ v merged before token after pool views,
        Valuation.ofPositions snapshot.positions prices changes policy = .ok v ∧
        mergeChanges snapshot.positions changes = .ok merged ∧
        market.tokens = before ++ token :: after ∧
        PoolViews.ofTokens before merged market prices v.availableSetup policy = .ok views ∧
        market.pools.get? token = some pool ∧
        pool.Overfills merged prices v.availableSetup policy) ∨
      ∃ report l,
        ofSnapshot (snapshot.withLiquidation none) market prices changes now policy = .ok report ∧
        snapshot.liquidation = some l ∧ l.remaining now = .error f := by
  have hviews : ∀ {v merged}, mergeChanges snapshot.positions changes = .ok merged →
      (PoolViews.ofMarket merged market prices v policy = .error (.fault f) ↔ _) :=
    fun hmerge ↦ PoolViews.ofTokens_eq_fault hprices hmarket
      (check_of_mergeChanges hpositions hchanges hmerge) hpolicy
  have hfree : ofSnapshot (snapshot.withLiquidation none) market prices changes now policy =
      .error (.fault f) ↔ ∃ v merged,
        Valuation.ofPositions snapshot.positions prices changes policy = .ok v ∧
        mergeChanges snapshot.positions changes = .ok merged ∧
        PoolViews.ofMarket merged market prices v.availableSetup policy = .error (.fault f) := by
    have hfree : ∀ p ∈ (snapshot.withLiquidation none).positions, p.check = .ok () := hpositions
    rw [ofSnapshot_eq_error hpolicy hfree hchanges]
    constructor
    · rintro (h | ⟨v, merged, hv, hmerge, h | ⟨_, -, h⟩⟩)
      · exact absurd (Outcome.mapRefusal_eq_fault.1 h) (Valuation.ofPositions_ne_fault hprices)
      · exact ⟨v, merged, hv, hmerge, Outcome.mapRefusal_eq_fault.1 h⟩
      · cases h
    · rintro ⟨v, merged, hv, hmerge, h⟩
      exact .inr ⟨v, merged, hv, hmerge, .inl (Outcome.mapRefusal_eq_fault.2 h)⟩
  rw [ofSnapshot_eq_bind, bind_eq_error, hfree]
  refine or_congr ⟨?_, ?_⟩ ⟨?_, ?_⟩
  · rintro ⟨v, merged, hv, hmerge, h⟩
    obtain ⟨hf, before, token, after, pool, htokens, ⟨views, hbefore⟩, hpool, hover⟩ :=
      (hviews hmerge).1 h
    exact ⟨hf, v, merged, before, token, after, pool, views, hv, hmerge, htokens, hbefore, hpool,
      hover⟩
  · rintro ⟨hf, v, merged, before, token, after, pool, views, hv, hmerge, htokens, hbefore, hpool,
      hover⟩
    exact ⟨v, merged, hv, hmerge, (hviews hmerge).2
      ⟨hf, before, token, after, pool, htokens, ⟨views, hbefore⟩, hpool, hover⟩⟩
  · rintro ⟨report, hreport, h⟩
    rcases bind_eq_error.1 h with h | ⟨_, -, h⟩
    · obtain ⟨l, hl, h⟩ := mapM_remaining_eq_error.1 (Outcome.ofFaultable_eq_fault.1 h)
      exact ⟨report, l, hreport, hl, h⟩
    · cases h
  · rintro ⟨report, l, hreport, hl, h⟩
    exact ⟨report, hreport, bind_eq_error.2 (.inl (Outcome.ofFaultable_eq_fault.2
      (mapM_remaining_eq_error.2 ⟨l, hl, h⟩)))⟩

end Report

/-! ## Requests -/

namespace Engine

/-- The snapshots that an engine may be asked about: those that have been checked, and those that
it has handed out with a liquidation. -/
inductive Admits (e : Engine) : Snapshot → Prop
  | accepted {account owner : Address} {slots : List Position} {held : Option Liquidation}
      {fetchedAt : Timestamp} {snapshot : Snapshot}
      (h : Snapshot.ofSlots account owner slots held fetchedAt = .ok snapshot) : Admits e snapshot
  | claimed {e' e'' : Engine} {snapshot claimed : Snapshot} {market : Market}
      {liquidator : Address} {now : Timestamp} (hadmits : Admits e snapshot)
      (hsettings : e'.settings = e.settings)
      (h : e'.beginLiquidation snapshot market liquidator now = (.ok claimed, e'')) :
      Admits e claimed

theorem Admits.check (h : e.Admits snapshot) : ∀ p ∈ snapshot.positions, p.check = .ok () := by
  induction h with
  | accepted h => exact check_of_checkPositions (Snapshot.checkPositions_of_ofSlots h)
  | claimed _ _ h ih =>
    obtain ⟨_, -, -, ⟨_, -, -, rfl, -⟩ | ⟨-, -, rfl, -⟩⟩ := beginLiquidation_eq_ok.1 h
    · exact ih
    · exact ih

/-- The ages of the prices and the time that the account has been held are durations. -/
structure InClock (snapshot : Snapshot) (market : Market) (now : Timestamp) : Prop where
  age : ∀ token reading, market.prices.get? token = some reading →
    Duration.inRange (now.milliseconds - reading.timestamp.milliseconds) = true
  held : ∀ l, snapshot.liquidation = some l → Duration.inRange (l.heldFor now) = true

theorem InClock.isTotal_prices (h : InClock snapshot market now) (e : Engine) :
    (e.prices market now).IsTotal := by
  rw [prices]
  split
  · refine (PriceSource.isTotal_ofRegistry _).fresh (fun token reading hreading ↦ ?_) _
    exact h.age token reading (Except.ok.inj hreading)
  · exact PriceSource.isTotal_ofRegistry _

theorem InClock.of_empty {account owner : Address} {positions : List Position} {fetchedAt : Timestamp}
    (tokens : List TokenId) : InClock ⟨account, owner, positions, none, fetchedAt⟩
      (.ofTokens tokens) now where
  age _ _ h := by cases h
  held _ h := by cases h

theorem InClock.setPool (h : InClock snapshot market now) (pool : Pool) :
    InClock snapshot (market.setPool pool) now :=
  ⟨h.age, h.held⟩

theorem InClock.setPrice (h : InClock snapshot market now) {reading : OraclePrice}
    (hage : Duration.inRange (now.milliseconds - reading.timestamp.milliseconds) = true)
    (token : TokenId) : InClock snapshot (market.setPrice token reading) now where
  age other reading' hreading := by
    rw [Market.setPrice, Registry.get?_insert] at hreading
    split at hreading
    · cases hreading
      exact hage
    · exact h.age other reading' hreading
  held := h.held

theorem InClock.withLiquidation (h : InClock snapshot market now)
    (hheld : Duration.inRange (l.heldFor now) = true) :
    InClock (snapshot.withLiquidation (some l)) market now where
  age := h.age
  held _ hl := by
    cases hl
    exact hheld

/-- The ways to get no answer: the account overfills a pool while those before it have a view, or else
reports but for its liquidation, of which the timeout or what is left of it is not a duration. -/
inductive Exceeds (e : Engine) (snapshot : Snapshot) (market : Market) (changes : List Change)
    (now : Timestamp) : Fault → Prop
  | overfilled {v : Valuation} {merged : List Position} {before after : List TokenId}
      {token : TokenId} {pool : Pool} {views : PoolViews}
      (hvaluation : Valuation.ofPositions snapshot.positions (e.prices market now) changes
        e.settings.policy = .ok v)
      (hmerge : mergeChanges snapshot.positions changes = .ok merged)
      (htokens : market.tokens = before ++ token :: after)
      (hbefore : PoolViews.ofTokens before merged market (e.prices market now) v.availableSetup
        e.settings.policy = .ok views)
      (hpool : market.pools.get? token = some pool)
      (hover : pool.Overfills merged (e.prices market now) v.availableSetup e.settings.policy) :
      Exceeds e snapshot market changes now .addition
  | timeout {report : Report} {l : Liquidation}
      (hreport : e.project (snapshot.withLiquidation none) market changes now = .ok report)
      (hheld : snapshot.liquidation = some l)
      (htimeout : Duration.inRange (1000 * l.timeout) = false) :
      Exceeds e snapshot market changes now .secondsOutOfBounds
  | left {report : Report} {l : Liquidation}
      (hreport : e.project (snapshot.withLiquidation none) market changes now = .ok report)
      (hheld : snapshot.liquidation = some l)
      (htimeout : Duration.inRange (1000 * l.timeout) = true)
      (hleft : Duration.inRange (1000 * l.timeout - l.heldFor now) = false) :
      Exceeds e snapshot market changes now .durationSubtraction

/-- Nothing is exceeded where each deposit fits a decimal with the vault of its pool and the liquidation
has a clock. -/
theorem not_exceeds (hpolicy : e.settings.policy.check = .ok ()) (hmarket : market.IsSound)
    (hfits : ∀ token pool merged deposit, market.pools.get? token = some pool →
      mergeChanges snapshot.positions changes = .ok merged →
      noteBalance (findPosition? merged pool.depositNote) pool.depositRate pool.decimals =
        .ok deposit → ¬TooLarge (deposit.value.toRat + pool.vaultLiquidity.value.toRat))
    (hclock : ∀ l, snapshot.liquidation = some l → l.HasClock now) :
    ¬e.Exceeds snapshot market changes now f := by
  intro h
  cases h with
  | overfilled _ hmerge _ _ hpool hover =>
    exact Pool.not_overfills (hmarket.pools _ _ hpool) hpolicy
      (fun deposit ↦ hfits _ _ _ deposit hpool hmerge) hover
  | timeout _ hheld htimeout =>
    rw [(hclock _ hheld).timeout] at htimeout
    cases htimeout
  | left _ hheld _ hleft =>
    rw [(hclock _ hheld).left] at hleft
    cases hleft

theorem project_eq_fault (hpolicy : e.settings.policy.check = .ok ()) (hadmits : e.Admits snapshot)
    (hchanges : ∀ c ∈ changes, checkModifier c.token c.kind c.modifier = .ok ())
    (hmarket : market.IsSound) (hclock : InClock snapshot market now) :
    e.project snapshot market changes now = .error (.fault f) ↔
      e.Exceeds snapshot market changes now f := by
  rw [project, Report.ofSnapshot_eq_fault (hclock.isTotal_prices e) hmarket hpolicy hadmits.check
    hchanges]
  constructor
  · rintro (⟨rfl, v, merged, before, token, after, pool, views, hv, hmerge, htokens, hbefore, hpool,
      hover⟩ | ⟨report, l, hreport, hl, h⟩)
    · exact .overfilled hv hmerge htokens hbefore hpool hover
    · rcases (Liquidation.remaining_eq_error (hclock.held l hl)).1 h with
        ⟨htimeout, rfl⟩ | ⟨htimeout, hleft, rfl⟩
      · exact .timeout hreport hl htimeout
      · exact .left hreport hl htimeout hleft
  · intro h
    cases h with
    | overfilled hv hmerge htokens hbefore hpool hover =>
      exact .inl ⟨rfl, _, _, _, _, _, _, _, hv, hmerge, htokens, hbefore, hpool, hover⟩
    | timeout hreport hl htimeout =>
      exact .inr ⟨_, _, hreport, hl, (Liquidation.remaining_eq_error (hclock.held _ hl)).2
        (.inl ⟨htimeout, rfl⟩)⟩
    | left hreport hl htimeout hleft =>
      exact .inr ⟨_, _, hreport, hl, (Liquidation.remaining_eq_error (hclock.held _ hl)).2
        (.inr ⟨htimeout, hleft, rfl⟩)⟩

/-- A claim faults where the report does. -/
theorem beginLiquidation_eq_fault :
    (e.beginLiquidation snapshot market liquidator now).1 = .error (.fault f) ↔
      e.evaluate snapshot market now = .error (.fault f) := by
  constructor
  · intro h
    obtain ⟨-, hreport | ⟨_, _, -, -, hrefused⟩⟩ := beginLiquidation_eq_error.1 (Prod.ext h rfl)
    · exact hreport
    · cases hrefused
  · exact fun hreport ↦ congrArg Prod.fst (beginLiquidation_eq_error.2 ⟨rfl, .inl hreport⟩)

/-- So does an exit: whoever has a report has a clock. -/
theorem endLiquidation_eq_fault :
    (e.endLiquidation snapshot market requester now).1 = .error (.fault f) ↔
      e.evaluate snapshot market now = .error (.fault f) := by
  constructor
  · intro h
    obtain ⟨-, hreport | ⟨report, hreport, hreason⟩⟩ := endLiquidation_eq_error.1 (Prod.ext h rfl)
    · exact hreport
    · exact absurd (Outcome.mapRefusal_eq_fault.1 hreason) (Liquidation.authorizeEnd_ne_fault
        fun l hl ↦ evaluate_hasClock hreport hl)
  · exact fun hreport ↦ congrArg Prod.fst (endLiquidation_eq_error.2 ⟨rfl, .inl hreport⟩)

/-- With a checked policy, an admitted snapshot, checked changes, a sound market and times not too far
apart, every request to the engine is answered or refused, but where it exceeds a pool or the clock. -/
theorem fault_iff (hpolicy : e.settings.policy.check = .ok ()) (hadmits : e.Admits snapshot)
    (hchanges : ∀ c ∈ changes, checkModifier c.token c.kind c.modifier = .ok ())
    (hmarket : market.IsSound) (hclock : InClock snapshot market now) (f : Fault) :
    (e.project snapshot market changes now = .error (.fault f) ↔
      e.Exceeds snapshot market changes now f) ∧
    (e.evaluate snapshot market now = .error (.fault f) ↔ e.Exceeds snapshot market [] now f) ∧
    (∀ liquidator, (e.beginLiquidation snapshot market liquidator now).1 = .error (.fault f) ↔
      e.Exceeds snapshot market [] now f) ∧
    ∀ requester, (e.endLiquidation snapshot market requester now).1 = .error (.fault f) ↔
      e.Exceeds snapshot market [] now f := by
  have hevaluate : e.evaluate snapshot market now = .error (.fault f) ↔
      e.Exceeds snapshot market [] now f :=
    project_eq_fault hpolicy hadmits (by simp) hmarket hclock
  exact ⟨project_eq_fault hpolicy hadmits hchanges hmarket hclock, hevaluate,
    fun _ ↦ beginLiquidation_eq_fault.trans hevaluate,
    fun _ ↦ endLiquidation_eq_fault.trans hevaluate⟩

end Engine

namespace Sample

/-- A vault of 6e28, of which nothing has been borrowed. -/
def deepPool : Pool := { pool with vaultLiquidity := ⟨.lit (6 * 10 ^ 28)⟩, totalBorrowed := .zero }

/-- The deep pool, and a price of one dollar for its token and its deposit notes. -/
def deepMarket : Market :=
  (((Market.ofTokens [pool.token]).setPool deepPool).setPrice pool.token ⟨.one, 0, ⟨0⟩⟩).setPrice
    pool.depositNote ⟨.one, 0, ⟨0⟩⟩

/-- As many deposit notes as there are tokens in the deep pool. -/
def deepAccount : Snapshot :=
  ⟨.ofTag 99, .ofTag 50,
    [⟨pool.depositNote, .ofTag 1, .clamp (6 * 10 ^ 28), 0, .deposit, .one⟩], none, ⟨0⟩⟩

/-- Liquidators may hold an account for as many seconds as make no duration any more. -/
def patient : Settings :=
  { Settings.standard with
    policy := { Policy.standard with liquidationTimeout := 9223372036854776 } }

theorem isSound_of_amounts {vault borrowed : Decimal} (hvault : vault.isNegative = false)
    (hborrowed : borrowed.isNegative = false) :
    ({ pool with vaultLiquidity := ⟨vault⟩, totalBorrowed := ⟨borrowed⟩ } : Pool).IsSound where
  vaultLiquidity := Decimal.isNegative_eq_false_iff.1 hvault
  totalBorrowed := Decimal.isNegative_eq_false_iff.1 hborrowed
  depositWeight := Decimal.isWeight_one
  loanWeight := Decimal.isWeight_one

theorem isSound_pricedMarket : pricedMarket.IsSound :=
  ((((Market.isSound_ofTokens _).setPool (isSound_of_amounts (by decide) (by decide))).setPrice _
    _).setPrice _ _).setPrice _ _

theorem inClock_pricedMarket : Engine.InClock account pricedMarket ⟨0⟩ :=
  ((((Engine.InClock.of_empty _).setPool pool).setPrice (by decide) _).setPrice (by decide) _).setPrice
    (by decide) _

theorem isSound_deepMarket : deepMarket.IsSound :=
  (((Market.isSound_ofTokens _).setPool (isSound_of_amounts (by decide) (by decide))).setPrice _
    _).setPrice _ _

theorem inClock_deepMarket : Engine.InClock deepAccount deepMarket ⟨0⟩ :=
  (((Engine.InClock.of_empty _).setPool deepPool).setPrice (by decide) _).setPrice (by decide) _

theorem isSound_owing (price : Decimal) : (owing price).IsSound :=
  ((Market.isSound_ofTokens _).setPrice _ _).setPrice _ _

end Sample

namespace Engine

open Sample

/-- The small account gets an answer to every request in its market, since it gets a report. -/
theorem no_fault_of_report :
    (∃ report, engine.evaluate account pricedMarket ⟨0⟩ = .ok report) ∧
      ∀ f, ¬engine.Exceeds account pricedMarket [] ⟨0⟩ f ∧
        (∀ liquidator, (engine.beginLiquidation account pricedMarket liquidator ⟨0⟩).1 ≠
          .error (.fault f)) ∧
        ∀ requester, (engine.endLiquidation account pricedMarket requester ⟨0⟩).1 ≠
          .error (.fault f) := by
  obtain ⟨report, hreport, -⟩ : ∃ report,
      engine.evaluate account pricedMarket ⟨0⟩ = .ok report ∧ true = true := by
    apply exists_ok_of_any
    rw [Engine.evaluate, Engine.project, Report.ofSnapshot,
      Valuation.ofPositions_of_sorted rfl (by decide +kernel)]
    decide +kernel
  have hsnapshot : Snapshot.ofSlots account.account account.owner account.positions none ⟨0⟩ =
      .ok account := by decide +kernel
  refine ⟨⟨report, hreport⟩, fun f ↦ ?_⟩
  have hchanges : ∀ c ∈ ([] : List Change), checkModifier c.token c.kind c.modifier = .ok () := by
    simp
  obtain ⟨-, hevaluate, hbegin, hend⟩ := fault_iff (e := engine) (by decide) (.accepted hsnapshot)
    hchanges isSound_pricedMarket inClock_pricedMarket f
  have hexceeds : ¬engine.Exceeds account pricedMarket [] ⟨0⟩ f := fun h ↦ by
    rw [← hevaluate, hreport] at h
    cases h
  exact ⟨hexceeds, fun _ h ↦ hexceeds ((hbegin _).1 h), fun _ h ↦ hexceeds ((hend _).1 h)⟩

/-- A checked account with a deposit that the vault could pay out has no report, since the deposit and
half as much again to be borrowed do not fit a decimal. And under a checked policy of great patience a
liquidator claims an account and then has no report on it, nor a way to let go. -/
theorem evaluate_faults :
    (Engine.start .standard = .ok engine ∧
      Snapshot.ofSlots deepAccount.account deepAccount.owner deepAccount.positions none ⟨0⟩ =
        .ok deepAccount ∧
      deepMarket.IsSound ∧ InClock deepAccount deepMarket ⟨0⟩ ∧
      engine.evaluate deepAccount deepMarket ⟨0⟩ = .error (.fault .addition)) ∧
    ∃ e claimed e', Engine.start patient = .ok e ∧
      e.beginLiquidation leveraged (owing .one) (.ofTag 7) ⟨1000⟩ = (.ok claimed, e') ∧
      (owing .one).IsSound ∧ InClock claimed (owing .one) ⟨1000⟩ ∧
      e'.evaluate claimed (owing .one) ⟨1000⟩ = .error (.fault .secondsOutOfBounds) ∧
      (e'.endLiquidation claimed (owing .one) (.ofTag 7) ⟨1000⟩).1 =
        .error (.fault .secondsOutOfBounds) := by
  refine ⟨⟨by decide +kernel, by decide +kernel, isSound_deepMarket, inClock_deepMarket, ?_⟩, ?_⟩
  · rw [evaluate, project, Report.ofSnapshot,
      Valuation.ofPositions_of_sorted rfl (by decide +kernel)]
    decide +kernel
  · obtain ⟨report, hreport, hrisk⟩ : ∃ report,
        (⟨patient, .empty⟩ : Engine).evaluate leveraged (owing .one) ⟨1000⟩ = .ok report ∧
          decide (report.risk = .finite (.lit 240 2)) = true := by
      apply exists_ok_of_any
      rw [Engine.evaluate, Engine.project, Report.ofSnapshot,
        Valuation.ofPositions_of_sorted rfl (by decide +kernel)]
      decide +kernel
    have hliquidatable : report.risk.isLiquidatable patient.policy = true := by
      rw [of_decide_eq_true hrisk]
      decide
    have hsnapshot : Snapshot.ofSlots leveraged.account leveraged.owner leveraged.positions none
        ⟨0⟩ = .ok leveraged := by decide +kernel
    have hliquidator : (Address.ofTag 7).isZero = false := by decide
    have hbegin := beginLiquidation_eq_ok.2
      ⟨report, hreport, hliquidator, .inr ⟨rfl, hliquidatable, rfl, rfl⟩⟩
    have hclock : InClock leveraged (owing .one) ⟨1000⟩ :=
      ((InClock.of_empty _).setPrice (by decide) _).setPrice (by decide) _
    have hclaimed := hclock.withLiquidation
      (l := ⟨.ofTag 7, ⟨1000⟩, patient.policy.liquidationTimeout⟩) (by decide)
    have hfault := (project_eq_fault (by decide) (.claimed (.accepted hsnapshot) rfl hbegin)
      (by simp) (isSound_owing .one) hclaimed).2 (.timeout hreport rfl (by decide))
    refine ⟨_, _, _, by decide +kernel, hbegin, isSound_owing .one, hclaimed, ?_,
      endLiquidation_eq_fault.2 ?_⟩
    · exact (Agrees.of_settings settings_record).evaluate_eq.trans hfault
    · exact (Agrees.of_settings settings_record).evaluate_eq.trans hfault

end Engine

end MarginAccount
