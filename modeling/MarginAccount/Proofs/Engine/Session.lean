import MarginAccount.Proofs.Engine.Liquidation

/-! # Sessions

Any number of callers share one engine. Each holds the snapshot of its own account, asks the engine
about it, and goes on with the snapshot it gets back; after a failed call it keeps the old one. What
one call can do is said once (`Engine.exists_transition`), and every fact about a session is an
invariant that a call preserves, carried through the run by induction on the calls.
-/

namespace MarginAccount

inductive Request where
  | claim (liquidator : Address)
  | release (requester : Address)
  | evaluate
  | project (changes : List Change)

structure Call where
  market : Market
  now : Timestamp
  request : Request

def EventPayload.account : EventPayload → Address
  | .begun event => event.account
  | .ended event => event.account

def EventPayload.isBegun : EventPayload → Bool
  | .begun _ => true
  | .ended _ => false

/-! ## One call -/

namespace Engine


variable {e e' : Engine} {snapshot after : Snapshot} {call : Call}

/-- The snapshot that the caller holds after a call, and the engine that the call gives back. Reports
change neither. -/
def answer (e : Engine) (snapshot : Snapshot) (call : Call) : Snapshot × Engine :=
  match call.request with
  | .claim liquidator =>
    let (outcome, e') := e.beginLiquidation snapshot call.market liquidator call.now
    (outcome.toOption.getD snapshot, e')
  | .release requester =>
    let (outcome, e') := e.endLiquidation snapshot call.market requester call.now
    ((outcome.toOption.map (·.snapshot)).getD snapshot, e')
  | .evaluate | .project _ => (snapshot, e)

/-- The same engine before an empty log that has room. -/
def emptied (e : Engine) : Engine := ⟨{ e.settings with maxEvents := 1 }, { e.log with events := [] }⟩

/-- The events that a call records, whether or not the log has room for them. -/
def emitted (e : Engine) (snapshot : Snapshot) (call : Call) : List Event :=
  (e.emptied.answer snapshot call).2.log.events

/-- What a call on a snapshot can lead to: the snapshot that is held afterwards, and the event if there
is one. -/
inductive Transition (e : Engine) (snapshot : Snapshot) (call : Call) :
    Snapshot → Option EventPayload → Prop
  | quiet : Transition e snapshot call snapshot none
  | begun {liquidator : Address} {report : Report} (hrequest : call.request = .claim liquidator)
      (hreport : e.evaluate snapshot call.market call.now = .ok report)
      (hliquidator : liquidator.isZero = false) (hfree : snapshot.liquidation = none)
      (hrisk : report.risk.isLiquidatable e.settings.policy = true) :
      Transition e snapshot call
        (snapshot.withLiquidation
          (some ⟨liquidator, call.now, e.settings.policy.liquidationTimeout⟩))
        (some (.begun ⟨snapshot.account, liquidator, call.now, report.risk, report.valuation⟩))
  | ended {requester : Address} {report : Report} {l : Liquidation} {reason : EndReason}
      (hrequest : call.request = .release requester)
      (hreport : e.evaluate snapshot call.market call.now = .ok report)
      (hheld : snapshot.liquidation = some l)
      (hreason : l.exitReason? requester snapshot.owner report.risk call.now e.settings.policy =
        some reason) :
      Transition e snapshot call (snapshot.withLiquidation none)
        (some (.ended ⟨snapshot.account, requester, reason⟩))

/-- A transition is how a call goes, whatever log it goes before. -/
structure Takes (e : Engine) (snapshot : Snapshot) (call : Call) (after : Snapshot)
    (payload? : Option EventPayload) : Prop where
  transition : Transition e snapshot call after payload?
  answer : ∀ e' : Engine, e'.Agrees e →
    e'.answer snapshot call = (after, payload?.elim e' (e'.record call.now))

theorem exists_takes_of_claim {liquidator : Address} (hrequest : call.request = .claim liquidator) :
    ∃ after payload?, Takes e snapshot call after payload? := by
  cases hbegin : e.beginLiquidation snapshot call.market liquidator call.now with
  | mk outcome e₁ =>
    cases outcome with
    | error failure =>
      refine ⟨snapshot, none, .quiet, fun e' h ↦ ?_⟩
      simp only [answer, hrequest, h.refuses_claim hbegin]
      rfl
    | ok claimed =>
      obtain ⟨report, hreport, hzero, ⟨l, hl, hliquidator, rfl, -⟩ | ⟨hfree, hrisk, rfl, -⟩⟩ :=
        beginLiquidation_eq_ok.1 hbegin
      · refine ⟨claimed, none, .quiet, fun e' h ↦ ?_⟩
        have hagain := beginLiquidation_eq_ok.2 ⟨report, h.evaluate_eq.trans hreport, hzero,
          .inl ⟨l, hl, hliquidator, rfl, rfl⟩⟩
        simp only [answer, hrequest, hagain]
        rfl
      · refine ⟨_, _, .begun hrequest hreport hzero hfree hrisk, fun e' h ↦ ?_⟩
        have hagain := beginLiquidation_eq_ok.2 ⟨report, h.evaluate_eq.trans hreport, hzero,
          .inr ⟨hfree, h.policy ▸ hrisk, rfl, rfl⟩⟩
        simp only [answer, hrequest, hagain, h.policy]
        rfl

theorem exists_takes_of_release {requester : Address}
    (hrequest : call.request = .release requester) :
    ∃ after payload?, Takes e snapshot call after payload? := by
  cases hend : e.endLiquidation snapshot call.market requester call.now with
  | mk outcome e₁ =>
    cases outcome with
    | error failure =>
      refine ⟨snapshot, none, .quiet, fun e' h ↦ ?_⟩
      simp only [answer, hrequest, h.refuses_exit hend]
      rfl
    | ok release =>
      obtain ⟨report, l, reason, hreport, hl, hreason, -, -⟩ := endLiquidation_eq_ok.1 hend
      refine ⟨_, _, .ended hrequest hreport hl hreason, fun e' h ↦ ?_⟩
      have hagain := endLiquidation_eq_ok.2 ⟨report, l, reason, h.evaluate_eq.trans hreport, hl,
        h.policy ▸ hreason, rfl, rfl⟩
      simp only [answer, hrequest, hagain]
      rfl

/-- Every call takes a transition. -/
theorem exists_takes (e : Engine) (snapshot : Snapshot) (call : Call) :
    ∃ after payload?, Takes e snapshot call after payload? := by
  cases hrequest : call.request with
  | claim liquidator => exact exists_takes_of_claim hrequest
  | release requester => exact exists_takes_of_release hrequest
  | evaluate | project changes =>
    refine ⟨snapshot, none, .quiet, fun e' _ ↦ ?_⟩
    simp only [answer, hrequest]
    rfl

/-- The transition of a call gives what the caller holds, what is recorded and what is emitted. -/
theorem exists_transition (e : Engine) (snapshot : Snapshot) (call : Call) :
    ∃ payload?, Transition e snapshot call (e.answer snapshot call).1 payload? ∧
      (e.answer snapshot call).2 = payload?.elim e (e.record call.now) ∧
      e.emitted snapshot call = (payload?.map (⟨e.log.nextId, call.now, ·⟩)).toList := by
  obtain ⟨after, payload?, htransition, h⟩ := exists_takes e snapshot call
  rw [h e ⟨rfl, rfl⟩, emitted, h e.emptied ⟨rfl, rfl⟩]
  refine ⟨payload?, htransition, rfl, ?_⟩
  cases payload? <;> rfl

end Engine

/-! ## The life of one liquidation after another -/

/-- How the events of an account, oldest first, explain who holds it now. -/
inductive Lifecycle (timeout : Int) : List Event → Option Liquidation → Prop
  | fresh : Lifecycle timeout [] none
  | begun {events : List Event} {event : Event} {b : LiquidationBegun}
      (before : Lifecycle timeout events none) (hevent : event.payload = .begun b)
      (hliquidator : b.liquidator.isZero = false) :
      Lifecycle timeout (events ++ [event]) (some ⟨b.liquidator, b.startTime, timeout⟩)
  | ended {events : List Event} {event : Event} {x : LiquidationEnded} {l : Liquidation}
      (before : Lifecycle timeout events (some l)) (hevent : event.payload = .ended x) :
      Lifecycle timeout (events ++ [event]) none

namespace Lifecycle

variable {timeout : Int} {events : List Event} {current : Option Liquidation} {l : Liquidation}

/-- An account is held after an odd number of events, and free after an even one. -/
theorem isSome_iff (h : Lifecycle timeout events current) :
    current.isSome = true ↔ ¬Even events.length := by
  induction h with
  | fresh => simp
  | begun _ _ _ ih => simpa [Nat.even_add_one] using ih
  | ended _ _ ih => simpa [Nat.even_add_one] using ih

/-- One more event keeps an alternation that it continues. -/
theorem isBegun_concat {event : Event}
    (hevents : ∀ k (hk : k < events.length), events[k].payload.isBegun = true ↔ Even k)
    (hevent : event.payload.isBegun = true ↔ Even events.length) (k : ℕ)
    (hk : k < (events ++ [event]).length) :
    (events ++ [event])[k].payload.isBegun = true ↔ Even k := by
  rcases Nat.lt_or_ge k events.length with hlt | hge
  · rw [List.getElem_append_left hlt]
    exact hevents k hlt
  · obtain rfl : k = events.length := by
      rw [List.length_append, List.length_singleton] at hk
      omega
    rw [List.getElem_concat_length rfl]
    exact hevent

/-- Beginnings and endings alternate, a beginning first. -/
theorem isBegun_iff (h : Lifecycle timeout events current) :
    ∀ k (hk : k < events.length), events[k].payload.isBegun = true ↔ Even k := by
  induction h with
  | fresh => exact fun _ hk ↦ absurd hk (Nat.not_lt_zero _)
  | begun before hevent _ ih =>
    refine isBegun_concat ih (iff_of_true (by rw [hevent]; rfl) ?_)
    simpa using before.isSome_iff
  | ended before hevent ih =>
    refine isBegun_concat ih (iff_of_false (by rw [hevent]; exact Bool.false_ne_true) ?_)
    exact before.isSome_iff.1 rfl

theorem eq_some_iff (h : Lifecycle timeout events current) :
    current = some l ↔ ∃ event b, events.getLast? = some event ∧ event.payload = .begun b ∧
      l = ⟨b.liquidator, b.startTime, timeout⟩ := by
  cases h with
  | fresh => simp
  | begun before hevent hliquidator => simp [hevent, eq_comm]
  | ended before hevent => simp [hevent]

theorem isZero_liquidator (h : Lifecycle timeout events (some l)) : l.liquidator.isZero = false := by
  cases h with
  | begun _ _ hliquidator => exact hliquidator

end Lifecycle

/-- The account was at the liquidation level, by the figures that the event holds, and the liquidation
began when it was recorded. -/
structure LiquidationBegun.Justified (b : LiquidationBegun) (policy : Policy) (recorded : Timestamp) :
    Prop where
  level : b.risk.atLeast policy.liquidationLevel = true
  risk : b.valuation.risk = .ok b.risk
  startTime : b.startTime = recorded

/-! ## Runs -/

/-- Callers with one engine: what each of them holds, and all events so far. -/
structure Session (ι : Type) where
  engine : Engine
  held : ι → Snapshot
  history : List Event

namespace Session

variable {ι : Type} {s : Session ι} {origin : ι → Snapshot} {i : ι} {c : Call}

/-- The events of one account. -/
def eventsOf (s : Session ι) (account : Address) : List Event :=
  s.history.filter (·.payload.account == account)

section

variable [DecidableEq ι]

def call (s : Session ι) (i : ι) (c : Call) : Session ι where
  engine := (s.engine.answer (s.held i) c).2
  held := Function.update s.held i (s.engine.answer (s.held i) c).1
  history := s.history ++ s.engine.emitted (s.held i) c

/-- Calls in the order in which they arrive, each about one of the accounts. -/
def run (s : Session ι) (calls : List (ι × Call)) : Session ι :=
  calls.foldl (fun s (i, c) ↦ s.call i c) s

@[simp] theorem run_nil (s : Session ι) : s.run [] = s := rfl

@[simp] theorem run_cons (s : Session ι) (i : ι) (c : Call) (calls : List (ι × Call)) :
    s.run ((i, c) :: calls) = (s.call i c).run calls := rfl

theorem exists_call (s : Session ι) (i : ι) (c : Call) :
    ∃ after payload?, s.engine.Transition (s.held i) c after payload? ∧
      s.call i c = ⟨payload?.elim s.engine (s.engine.record c.now), Function.update s.held i after,
        s.history ++ (payload?.map (⟨s.engine.log.nextId, c.now, ·⟩)).toList⟩ := by
  obtain ⟨payload?, htransition, hengine, hemitted⟩ := s.engine.exists_transition (s.held i) c
  refine ⟨_, payload?, htransition, ?_⟩
  rw [call, hengine, hemitted]

end

/-- From one session to the other, nothing of a snapshot changes but its liquidation, and nothing of
the engine but its log. -/
structure Frame (s s' : Session ι) : Prop where
  settings : s'.engine.settings = s.engine.settings
  held : ∀ i, s'.held i = (s.held i).withLiquidation (s'.held i).liquidation

theorem Frame.refl (s : Session ι) : s.Frame s where
  settings := rfl
  held _ := (Snapshot.withLiquidation_of_eq rfl).symm

theorem Frame.trans {s' s'' : Session ι} (h : s.Frame s') (h' : s'.Frame s'') : s.Frame s'' where
  settings := h'.settings.trans h.settings
  held i := by
    rw [h'.held i, h.held i]
    rfl

theorem Frame.account_eq {s' : Session ι} (h : s.Frame s') (i : ι) :
    (s'.held i).account = (s.held i).account := by
  rw [h.held i]
  rfl

theorem Frame.owner_eq {s' : Session ι} (h : s.Frame s') (i : ι) :
    (s'.held i).owner = (s.held i).owner := by
  rw [h.held i]
  rfl

/-- What holds of a session at all times: accounts have different addresses, the events of each one
explain who holds it, and every beginning was justified. -/
structure Coherent (s : Session ι) : Prop where
  distinct : Function.Injective fun i ↦ (s.held i).account
  lifecycle : ∀ i, Lifecycle s.engine.settings.policy.liquidationTimeout
    (s.eventsOf (s.held i).account) (s.held i).liquidation
  justified : ∀ event ∈ s.history, ∀ b, event.payload = .begun b →
    b.Justified s.engine.settings.policy event.timestamp

theorem coherent_of_free (e : Engine) (hdistinct : Function.Injective fun i ↦ (origin i).account)
    (hfree : ∀ i, (origin i).liquidation = none) : Coherent ⟨e, origin, []⟩ where
  distinct := hdistinct
  lifecycle i := by
    rw [hfree i]
    exact .fresh
  justified event hmem := absurd hmem List.not_mem_nil

variable [DecidableEq ι]

theorem held_update {current : Option Liquidation} (j : ι) :
    Function.update s.held i ((s.held i).withLiquidation current) j =
      (s.held j).withLiquidation
        (Function.update s.held i ((s.held i).withLiquidation current) j).liquidation := by
  by_cases hj : j = i
  · subst hj
    rw [Function.update_self]
    rfl
  · rw [Function.update_of_ne hj]
    exact (Snapshot.withLiquidation_of_eq rfl).symm

theorem frame_call (s : Session ι) (i : ι) (c : Call) : s.Frame (s.call i c) := by
  obtain ⟨after, payload?, htransition, hcall⟩ := s.exists_call i c
  rw [hcall]
  cases htransition with
  | quiet =>
    rw [Function.update_eq_self]
    exact ⟨rfl, (Frame.refl s).held⟩
  | begun | ended => exact ⟨rfl, held_update⟩

theorem frame_run (s : Session ι) (calls : List (ι × Call)) : s.Frame (s.run calls) := by
  induction calls generalizing s with
  | nil => exact .refl s
  | cons call calls ih =>
    obtain ⟨i, c⟩ := call
    exact (s.frame_call i c).trans (ih (s.call i c))

/-- One more event about one account. -/
theorem Coherent.extend (h : s.Coherent) {current : Option Liquidation} {payload : EventPayload}
    (haccount : payload.account = (s.held i).account)
    (hlifecycle : Lifecycle s.engine.settings.policy.liquidationTimeout
      (s.eventsOf (s.held i).account ++ [⟨s.engine.log.nextId, c.now, payload⟩]) current)
    (hjustified : ∀ b, payload = .begun b → b.Justified s.engine.settings.policy c.now) :
    Coherent ⟨s.engine.record c.now payload,
      Function.update s.held i ((s.held i).withLiquidation current),
      s.history ++ [⟨s.engine.log.nextId, c.now, payload⟩]⟩ := by
  have haccounts : ∀ j, (Function.update s.held i ((s.held i).withLiquidation current) j).account =
      (s.held j).account := by
    intro j
    rw [held_update]
    rfl
  refine ⟨?_, fun j ↦ ?_, fun event hmem b hevent ↦ ?_⟩
  · simpa only [haccounts] using h.distinct
  · by_cases hj : j = i
    · subst hj
      simpa [eventsOf, haccount] using hlifecycle
    · have hother : (s.held i).account ≠ (s.held j).account := fun heq ↦ hj (h.distinct heq).symm
      simpa [eventsOf, haccount, hother, hj] using h.lifecycle j
  · rcases List.mem_append.1 hmem with hmem | hmem
    · exact h.justified event hmem b hevent
    · obtain rfl := List.mem_singleton.1 hmem
      exact hjustified b hevent

/-- A call keeps a session coherent. -/
theorem Coherent.call (h : s.Coherent) (i : ι) (c : Call) : (s.call i c).Coherent := by
  obtain ⟨after, payload?, htransition, hcall⟩ := s.exists_call i c
  rw [hcall]
  have hlife := h.lifecycle i
  cases htransition with
  | quiet =>
    rw [Function.update_eq_self]
    simpa using h
  | begun _ hreport hliquidator hfree hrisk =>
    rw [hfree] at hlife
    refine h.extend rfl
      (@Lifecycle.begun _ _ ⟨s.engine.log.nextId, c.now, _⟩ _ hlife rfl hliquidator) ?_
    rintro b ⟨⟩
    exact ⟨hrisk, (Report.ofSnapshot_eq_ok_iff.1 hreport).2.1, rfl⟩
  | ended _ _ hheld _ =>
    rw [hheld] at hlife
    refine h.extend rfl (.ended hlife rfl) ?_
    rintro b ⟨⟩

theorem Coherent.run (h : s.Coherent) (calls : List (ι × Call)) : (s.run calls).Coherent := by
  induction calls generalizing s with
  | nil => exact h
  | cons call calls ih =>
    obtain ⟨i, c⟩ := call
    exact ih (h.call i c)

/-- Over any run of calls on accounts of different addresses, none of them held at first: the events
of each account alternate, a beginning first; the account is held exactly when the last of them is a
beginning, and then as it says and for the timeout of the policy; every beginning was justified; and
nothing else of a snapshot ever changes. -/
theorem lifecycle_of_run (e : Engine) (hdistinct : Function.Injective fun i ↦ (origin i).account)
    (hfree : ∀ i, (origin i).liquidation = none) (calls : List (ι × Call)) (i : ι) :
    let s := run ⟨e, origin, []⟩ calls
    let events := s.eventsOf (origin i).account
    (∀ k (hk : k < events.length), events[k].payload.isBegun = true ↔ Even k) ∧
    (∀ l, (s.held i).liquidation = some l ↔ ∃ event b, events.getLast? = some event ∧
      event.payload = .begun b ∧
      l = ⟨b.liquidator, b.startTime, e.settings.policy.liquidationTimeout⟩) ∧
    (∀ l, (s.held i).liquidation = some l → l.liquidator.isZero = false) ∧
    (∀ event ∈ s.history, ∀ b, event.payload = .begun b →
      b.Justified e.settings.policy event.timestamp) ∧
    (s.held i).account = (origin i).account ∧ (s.held i).owner = (origin i).owner ∧
      (s.held i).positions = (origin i).positions ∧ (s.held i).fetchedAt = (origin i).fetchedAt := by
  intro s events
  have hframe : Frame ⟨e, origin, []⟩ s := frame_run _ calls
  have hcoherent : s.Coherent := (coherent_of_free e hdistinct hfree).run calls
  have hlifecycle := hcoherent.lifecycle i
  have hjustified := hcoherent.justified
  rw [hframe.account_eq, hframe.settings] at hlifecycle
  rw [hframe.settings] at hjustified
  refine ⟨hlifecycle.isBegun_iff, fun l ↦ hlifecycle.eq_some_iff, fun l hl ↦ ?_, hjustified, ?_⟩
  · rw [hl] at hlifecycle
    exact hlifecycle.isZero_liquidator
  · rw [hframe.held i]
    exact ⟨rfl, rfl, rfl, rfl⟩

end Session

namespace Sample

/-- The account and a second one of another address. -/
def callers : Bool → Snapshot
  | true => leveraged
  | false => { leveraged with account := .ofTag 98 }

/-- The seventh address claims the account. -/
def claims : List (Bool × Call) := [(true, ⟨owing .one, ⟨1000⟩, .claim (.ofTag 7)⟩)]

end Sample

namespace Session

open Sample

/-- After the claim the account is held, and its last event says by whom. -/
theorem lifecycle_of_claim :
    (((run ⟨Sample.engine, callers, []⟩ claims).held true).liquidation =
        some ⟨.ofTag 7, ⟨1000⟩, Policy.standard.liquidationTimeout⟩) ∧
      ∃ event b, ((run ⟨Sample.engine, callers, []⟩ claims).eventsOf leveraged.account).getLast? =
          some event ∧ event.payload = .begun b ∧ b.liquidator = .ofTag 7 ∧
        b.startTime = ⟨1000⟩ ∧ b.risk.atLeast Policy.standard.liquidationLevel = true := by
  obtain ⟨e, -, hbegin⟩ := beginLiquidation_leveraged
  have hheld : (run ⟨Sample.engine, callers, []⟩ claims).held true = seized := by
    show Function.update callers true (Sample.engine.answer leveraged _).1 true = seized
    rw [Function.update_self]
    simp only [Engine.answer, hbegin]
    rfl
  have hdistinct : Function.Injective fun i ↦ (callers i).account := by decide
  have hfree : ∀ i, (callers i).liquidation = none := by decide
  obtain ⟨-, hheld_iff, -, hjustified, -⟩ := lifecycle_of_run Sample.engine hdistinct hfree claims true
  have hliquidation : ((run ⟨Sample.engine, callers, []⟩ claims).held true).liquidation =
      some ⟨.ofTag 7, ⟨1000⟩, Policy.standard.liquidationTimeout⟩ := by
    rw [hheld]
    rfl
  obtain ⟨event, b, hlast, hevent, hl⟩ := (hheld_iff _).1 hliquidation
  rw [Liquidation.mk.injEq] at hl
  refine ⟨hliquidation, event, b, hlast, hevent, hl.1.symm, hl.2.1.symm, ?_⟩
  exact (hjustified event (List.mem_of_mem_filter (List.mem_of_getLast? hlast)) b hevent).level

end Session

end MarginAccount
