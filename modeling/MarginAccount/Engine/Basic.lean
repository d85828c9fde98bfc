import MarginAccount.Engine.Report

/-! # The account engine

An engine reports on snapshots and lets liquidations begin and end. It holds nothing of any account;
its only state is the log of liquidations. A request that may add to the log gives back the engine
beside the answer, also where the answer is a failure.
-/

namespace MarginAccount

structure Settings where
  policy : Policy
  /-- How many events the log keeps. -/
  maxEvents : Nat
  /-- Whether prices older than the policy's limit count as missing. -/
  enforceStaleness : Bool
deriving DecidableEq, Repr

structure Engine where
  settings : Settings
  log : EventLog
deriving DecidableEq, Repr

/-- An ended liquidation: the account without it, and the event that was recorded. -/
structure Release where
  snapshot : Snapshot
  event : LiquidationEnded
deriving DecidableEq, Repr

def Settings.standard : Settings := ⟨.standard, 10000, false⟩

namespace Engine

/-- An engine for a policy that makes sense. -/
def start (settings : Settings) : Except EngineError Engine :=
  match settings.policy.check with
  | .ok _ => .ok ⟨settings, .empty⟩
  | .error e => .error (.policy e)

/-- The prices that the engine goes by. -/
def prices (e : Engine) (market : Market) (now : Timestamp) : PriceSource :=
  let all := PriceSource.ofRegistry market.prices
  if e.settings.enforceStaleness then all.fresh now e.settings.policy.maxPriceAge else all

/-- The report as if `changes` had landed. -/
def project (e : Engine) (snapshot : Snapshot) (market : Market) (changes : List Change)
    (now : Timestamp) : Outcome EngineError Report :=
  Report.ofSnapshot snapshot market (e.prices market now) changes now e.settings.policy

/-- The report on a snapshot as it stands. -/
def evaluate (e : Engine) (snapshot : Snapshot) (market : Market) (now : Timestamp) :
    Outcome EngineError Report :=
  e.project snapshot market [] now

def record (e : Engine) (now : Timestamp) (payload : EventPayload) : Engine :=
  { e with log := e.log.record e.settings.maxEvents now payload }

/-- What runs on an engine and may change it before it fails. -/
abbrev Procedure (α : Type) := ExceptT (Failure EngineError) (StateM Engine) α

/-- An answer that does not touch the engine. -/
def Procedure.ofOutcome {α : Type} (answer : Outcome EngineError α) : Procedure α :=
  ExceptT.mk (pure answer)

/-- Records an event. -/
def Procedure.emit (now : Timestamp) (payload : EventPayload) : Procedure Unit :=
  modify (·.record now payload)

/-- The answer of a procedure, and the engine after it. -/
def run {α : Type} (e : Engine) (procedure : Procedure α) : Outcome EngineError α × Engine :=
  StateT.run (ExceptT.run procedure) e

section

variable {α β : Type} {now : Timestamp} {payload : EventPayload}

@[simp] theorem run_pure (e : Engine) (a : α) : e.run (pure a) = (.ok a, e) := rfl

@[simp] theorem run_emit_bind (e : Engine) (k : Unit → Procedure α) :
    e.run (Procedure.emit now payload >>= k) = (e.record now payload).run (k ()) := rfl

@[simp] theorem run_ok_bind (e : Engine) (b : β) (k : β → Procedure α) :
    e.run (Procedure.ofOutcome (.ok b) >>= k) = e.run (k b) := rfl

@[simp] theorem run_error_bind (e : Engine) (failure : Failure EngineError) (k : β → Procedure α) :
    e.run (Procedure.ofOutcome (.error failure) >>= k) = (.error failure, e) := rfl

end

/-- A liquidator claims the account. Claiming again what one already holds changes nothing. -/
def beginLiquidation (e : Engine) (snapshot : Snapshot) (market : Market) (liquidator : Address)
    (now : Timestamp) : Outcome EngineError Snapshot × Engine :=
  e.run do
    let report ← .ofOutcome (e.evaluate snapshot market now)
    let outcome ← .ofOutcome (.mapRefusal .liquidation (.ofRefusable
      (Liquidation.claim snapshot.liquidation liquidator report.risk now e.settings.policy)))
    match outcome with
    | .alreadyClaimed _ => pure snapshot
    | .started l =>
      Procedure.emit now (.begun {
        account := snapshot.account
        liquidator
        startTime := l.startTime
        risk := report.risk
        valuation := report.valuation })
      pure (snapshot.withLiquidation (some l))

/-- Ends the liquidation if `requester` may. -/
def endLiquidation (e : Engine) (snapshot : Snapshot) (market : Market) (requester : Address)
    (now : Timestamp) : Outcome EngineError Release × Engine :=
  e.run do
    let report ← .ofOutcome (e.evaluate snapshot market now)
    let reason ← .ofOutcome (.mapRefusal .liquidation (Liquidation.authorizeEnd
      snapshot.liquidation requester snapshot.owner report.risk now e.settings.policy))
    let ended : LiquidationEnded := { account := snapshot.account, authority := requester, reason }
    Procedure.emit now (.ended ended)
    pure ⟨snapshot.withLiquidation none, ended⟩

end Engine

end MarginAccount
