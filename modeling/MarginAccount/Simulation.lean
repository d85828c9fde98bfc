import MarginAccount.Engine.Basic

/-! # A simulated account

Walks one account through a deposit, the sizing of a borrow, a rally of the borrowed token, a
liquidation and its timeout, on a market of two pools. Each scene gives the lines that a client would
see.
-/

namespace MarginAccount.Simulation

def usdc : TokenId := .ofTag 1
def usdcDeposit : TokenId := .ofTag 2
def usdcLoan : TokenId := .ofTag 3
def sol : TokenId := .ofTag 4
def solDeposit : TokenId := .ofTag 5
def solLoan : TokenId := .ofTag 6

def liquidator : Address := .ofTag 200

abbrev Scene := Outcome EngineError (List String)

def pool (token depositNote loanNote : TokenId) (symbol : String) (decimals : Nat)
    (isNative : Bool) : Pool where
  token
  symbol
  decimals
  depositNote
  loanNote
  vaultLiquidity := ⟨.lit 1000000⟩
  totalBorrowed := ⟨.lit 400000⟩
  depositRate := .one
  loanRate := .one
  depositWeight := .lit 9 1
  loanWeight := .lit 8 1
  isNative

/-- Both pools, with one dollar for USDC and `solPrice` for SOL and its notes. -/
def market (solPrice : Decimal) : Except Fault Market := do
  let start ← Timestamp.ofSeconds 0
  let unpriced := Market.ofTokens [usdc, sol]
    |>.setPool (pool usdc usdcDeposit usdcLoan "USDC" 6 false)
    |>.setPool (pool sol solDeposit solLoan "SOL" 9 true)
    |>.setWallet usdc ⟨.lit 2500⟩
    |>.setWallet sol ⟨.lit 3⟩
  let dollar := [usdc, usdcDeposit, usdcLoan].map (·, Decimal.one)
  let shocked := [sol, solDeposit, solLoan].map (·, solPrice)
  pure ((dollar ++ shocked).foldl (fun m (token, price) => m.setPrice token ⟨price, 0, start⟩) unpriced)

def usdcHeld (units : Balance) : Position where
  token := usdcDeposit
  address := .ofTag 10
  balance := units
  exponent := -6
  kind := .deposit
  modifier := .lit 9 1

def solOwed (units : Balance) : Position where
  token := solLoan
  address := .ofTag 11
  balance := units
  exponent := -9
  kind := .claim
  modifier := .lit 8 1

/-- An account with 10,000 USDC and a debt in SOL, if there is one. -/
def account (solDebt : Balance) : Outcome EngineError Snapshot := do
  let debt := if solDebt.isZero then [] else [solOwed solDebt]
  let start ← .ofFaultable (Timestamp.ofSeconds 0)
  .mapRefusal .position (.ofRefusable
    (Snapshot.ofSlots (.ofTag 100) (.ofTag 101) (usdcHeld { units := 10000000000 } :: debt) none
      start))

def describe (label : String) (r : Report) : List String :=
  let v := r.valuation
  let leverage := r.summary.leverage.roundTo 2
  let header := s!"    assets {v.assets}, liabilities {v.liabilities}, "
    ++ s!"risk {r.risk} ({r.level.name}), leverage {leverage}x"
  let pools := r.pools.views.map fun p =>
    s!"    {p.symbol}: deposit {p.depositBalance} loan {p.loanBalance} | "
      ++ s!"max withdraw {p.bounds.withdraw} borrow {p.bounds.borrow} "
      ++ s!"repay {p.bounds.repay} swap {p.bounds.swap}"
  ("  " ++ label) :: header :: pools

/-- A fresh deposit with nothing borrowed. -/
def freshDeposit (e : Engine) : Scene := do
  let market ← .ofFaultable (market (.lit 20))
  let now ← .ofFaultable (Timestamp.ofSeconds 1)
  let report ← e.evaluate (← account .zero) market now
  pure (["Scenario 1: Fresh Deposit", ""] ++ describe "10,000 USDC deposited" report ++ [""])

/-- The largest borrow, and the account after half of it. -/
def borrowSizing (e : Engine) : Scene := do
  let snapshot ← account .zero
  let market ← .ofFaultable (market (.lit 20))
  let now ← .ofFaultable (Timestamp.ofSeconds 1)
  let report ← e.evaluate snapshot market now
  let largest := ((report.pools.bySymbol? "SOL").map (·.bounds.borrow)).getD .zero
  let half := (← .ofFaultable (largest.value.div (.lit 2))).roundTo 9
  let units := (← .ofFaultable (half.mul (.lit 1000000000))).truncateTo 0
  let borrow : Change := {
    token := solLoan
    kind := .claim
    exponent := -9
    modifier := .lit 8 1
    delta := (Delta.ofInt? units.mantissa).getD { units := 0 } }
  let projected ← e.project snapshot market [borrow] now
  pure (["Scenario 2: Borrow Sizing", "", s!"  Max SOL borrow: {largest}"]
    ++ describe s!"after borrowing {half} SOL (projected)" projected ++ [""])

/-- The borrowed token gets dearer until the account can be claimed, which a liquidator does. -/
def priceShock (e : Engine) : Outcome EngineError (List String × Engine) := do
  let snapshot ← account { units := 150000000000 }
  let (lines, e) ← rally snapshot e [.lit 20, .lit 24, .lit 28, .lit 32]
  let count := e.log.events.length
  pure (["Scenario 3: Price Shock and Liquidation", ""] ++ lines
    ++ [s!"  Events recorded: {count}", ""], e)
where
  rally (snapshot : Snapshot) (e : Engine) :
      List Decimal → Outcome EngineError (List String × Engine)
    | [] => pure ([], e)
    | price :: prices => do
      let market ← .ofFaultable (market price)
      let now ← .ofFaultable (Timestamp.ofSeconds 10)
      let report ← e.evaluate snapshot market now
      let quote := s!"  SOL @ ${price}: risk {report.risk} ({report.phase.name})"
      if report.phase = .eligible then
        let (claimed, e) := e.beginLiquidation snapshot market liquidator now
        let later ← .ofFaultable (Timestamp.ofSeconds 30)
        let (release, e) := e.endLiquidation (← claimed) market liquidator later
        let release ← release
        pure ([quote, s!"  Liquidator {liquidator} claimed the account",
          s!"  Liquidation ended: {release.event.reason.name}"], e)
      else
        let (lines, e) ← rally snapshot e prices
        pure (quote :: lines, e)

/-- The owner of a claimed account keeps asking for its release and gets it after the timeout. -/
def timeout (e : Engine) : Scene := do
  let market ← .ofFaultable (market (.lit 32))
  let snapshot ← account { units := 150000000000 }
  let now ← .ofFaultable (Timestamp.ofSeconds 100)
  let (claimed, e) := e.beginLiquidation snapshot market liquidator now
  let lines ← ask e (← claimed) market [120, 160, 170]
  pure (["Scenario 4: Liquidation Timeout", ""] ++ lines ++ [""])
where
  ask (e : Engine) (claimed : Snapshot) (market : Market) : List Nat → Scene
    | [] => pure []
    | t :: later => do
      let now ← .ofFaultable (Timestamp.ofSeconds t)
      let report ← e.evaluate claimed market now
      let left := (report.remaining.map (·.seconds)).getD 0
      match e.endLiquidation claimed market claimed.owner now with
      | (.ok release, _) =>
        pure [s!"  t={t}s remaining {left}s: "
          ++ s!"owner ended liquidation ({release.event.reason.name})"]
      | (.error (.refused reason), e) => do
        let lines ← ask e claimed market later
        pure (s!"  t={t}s remaining {left}s: owner refused: {reason.message}" :: lines)
      | (.error (.fault f), _) => .error (.fault f)

/-- A missing price and a pool that is not loaded make the view incomplete, and no more. -/
def degradedInputs (e : Engine) : Scene := do
  let market := ((← .ofFaultable (market (.lit 20))).removePrice solLoan).removePool sol
  let now ← .ofFaultable (Timestamp.ofSeconds 1)
  let report ← e.evaluate (← account { units := 50000000000 }) market now
  let skipped := report.pools.skipped.length
  pure (["Scenario 5: Degraded Inputs", "",
    s!"  unpriced positions: {report.valuation.unpriced}, skipped pools: {skipped}, "
      ++ s!"degraded: {report.isDegraded}"]
    ++ describe "view with SOL missing" report)

/-- All scenes on one engine. -/
def lines : Scene := do
  let e ← .ofRefusable (Engine.start .standard)
  let first ← freshDeposit e
  let second ← borrowSizing e
  let (third, e) ← priceShock e
  let fourth ← timeout e
  let fifth ← degradedInputs e
  pure (["Margin Account Engine Simulation", "Two Pools, Cross Collateral, Full Lifecycle", ""]
    ++ first ++ second ++ third ++ fourth ++ fifth
    ++ ["", "All simulations completed successfully."])

end MarginAccount.Simulation
