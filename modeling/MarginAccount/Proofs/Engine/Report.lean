import MarginAccount.Proofs.Trade.PoolView
import MarginAccount.Engine.Basic

/-! # What a report is made of

A report that is returned holds the valuation of the positions with the changes landed, and the pool
views at that valuation.
-/

namespace MarginAccount

section

variable {snapshot : Snapshot} {market : Market} {prices : PriceSource} {changes : List Change}
  {now : Timestamp} {policy : Policy} {report : Report} {e : Engine} {view : PoolView} {pool : Pool}

/-- A report is returned exactly when each of its parts is. -/
theorem Report.ofSnapshot_eq_ok_iff :
    ofSnapshot snapshot market prices changes now policy = .ok report ↔
      Valuation.ofPositions snapshot.positions prices changes policy = .ok report.valuation ∧
      report.valuation.risk = .ok report.risk ∧
      report.valuation.summary policy = .ok report.summary ∧
      (∃ merged, mergeChanges snapshot.positions changes = .ok merged ∧
        PoolViews.ofMarket merged market prices report.valuation.availableSetup policy =
          .ok report.pools) ∧
      snapshot.liquidation.mapM (·.remaining now) = .ok report.remaining ∧
      report.level = report.risk.level policy ∧
      report.isBeingLiquidated = snapshot.isBeingLiquidated ∧
      report.phase = Liquidation.phase snapshot.liquidation report.risk policy := by
  rw [ofSnapshot]
  simp only [bind_eq_ok, Outcome.mapRefusal_eq_ok, Outcome.ofRefusable_eq_ok,
    Outcome.ofFaultable_eq_ok, pure_eq_ok]
  constructor
  · rintro ⟨valuation, hvaluation, risk, hrisk, summary, hsummary, merged, hmerged, pools, hpools,
      remaining, hremaining, rfl⟩
    exact ⟨hvaluation, hrisk, hsummary, ⟨merged, hmerged, hpools⟩, hremaining, rfl, rfl, rfl⟩
  · rintro ⟨hvaluation, hrisk, hsummary, ⟨merged, hmerged, hpools⟩, hremaining, hlevel, hheld,
      hphase⟩
    refine ⟨_, hvaluation, _, hrisk, _, hsummary, _, hmerged, _, hpools, _, hremaining, ?_⟩
    rw [← hlevel, ← hheld, ← hphase]

theorem Report.ofSnapshot_eq_ok
    (h : ofSnapshot snapshot market prices changes now policy = .ok report) :
    Valuation.ofPositions snapshot.positions prices changes policy = .ok report.valuation ∧
      ∃ merged, mergeChanges snapshot.positions changes = .ok merged ∧
        PoolViews.ofMarket merged market prices report.valuation.availableSetup policy =
          .ok report.pools := by
  obtain ⟨hvaluation, -, -, hpools, -⟩ := ofSnapshot_eq_ok_iff.1 h
  exact ⟨hvaluation, hpools⟩

/-- The report on a held account is the one on the account as nobody's, and the clock. -/
theorem Report.ofSnapshot_eq_bind : ofSnapshot snapshot market prices changes now policy = (do
    let free ← ofSnapshot (snapshot.withLiquidation none) market prices changes now policy
    let remaining ← .ofFaultable (snapshot.liquidation.mapM (·.remaining now))
    pure { free with
      isBeingLiquidated := snapshot.isBeingLiquidated
      remaining
      phase := Liquidation.phase snapshot.liquidation free.risk policy }) := by
  simp only [ofSnapshot, bind_assoc, pure_bind]
  rfl

namespace Engine

/-- A report on the snapshot as it stands values its positions and lists the views of loaded pools. -/
theorem evaluate_eq_ok (h : e.evaluate snapshot market now = .ok report)
    (hv : view ∈ report.pools.views) (hpool : market.pools.get? view.token = some pool) :
    Valuation.ofPositions snapshot.positions (e.prices market now) [] e.settings.policy =
        .ok report.valuation ∧
      pool.view view.token snapshot.positions market (e.prices market now)
        report.valuation.availableSetup e.settings.policy = .ok view := by
  obtain ⟨hvaluation, merged, hmerged, hviews⟩ := Report.ofSnapshot_eq_ok h
  rw [mergeChanges_nil, Except.ok.injEq] at hmerged
  subst hmerged
  obtain ⟨pool', hpool', hview⟩ := PoolViews.view_of_mem hviews hv
  rw [hpool, Option.some.injEq] at hpool'
  subst hpool'
  exact ⟨hvaluation, hview⟩

/-- No operation rounds that values the snapshot with the changes landed. -/
def ValuationExact (e : Engine) (snapshot : Snapshot) (market : Market) (changes : List Change)
    (now : Timestamp) : Prop :=
  ∀ merged, mergeChanges snapshot.positions changes = .ok merged →
    Valuation.Exact merged (e.prices market now) e.settings.policy

end Engine

end

/-! ## A small account

Concrete runs are about one pool and an account with 100 of its deposit notes and 10 of its loan
notes. -/

namespace Sample

def pool : Pool where
  token := .ofTag 1
  symbol := "TKN"
  decimals := 0
  depositNote := .ofTag 2
  loanNote := .ofTag 3
  vaultLiquidity := ⟨.lit 1000⟩
  totalBorrowed := ⟨.lit 10⟩
  depositRate := .one
  loanRate := .one
  depositWeight := .one
  loanWeight := .one
  isNative := false

/-- The pool, and a price of one dollar for each of the quoted tokens. -/
def market (quoted : List TokenId) : Market :=
  quoted.foldl (fun m token ↦ m.setPrice token ⟨.one, 0, ⟨0⟩⟩)
    ((Market.ofTokens [pool.token]).setPool pool)

/-- The token and both notes have a price. -/
def pricedMarket : Market := market [pool.token, pool.depositNote, pool.loanNote]

/-- Only the notes have a price. -/
def notesMarket : Market := market [pool.depositNote, pool.loanNote]

def deposit : Position := ⟨pool.depositNote, .ofTag 1, { units := 100 }, 0, .deposit, .one⟩

def loan : Position := ⟨pool.loanNote, .ofTag 2, { units := 10 }, 0, .claim, .one⟩

def account : Snapshot := ⟨.ofTag 99, .ofTag 50, [deposit, loan], none, ⟨0⟩⟩

/-- An account without positions. -/
def unopened : Snapshot := .empty (.ofTag 99) (.ofTag 50) ⟨0⟩

def engine : Engine := ⟨.standard, .empty⟩

end Sample

end MarginAccount
