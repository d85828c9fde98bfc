import MarginAccount.Proofs.Engine.Session

/-! # The log of a run

Whoever calls, and about whatever accounts, an engine numbers the events that it emits from one on and
keeps the last of them. What a call does to the log is said once (`EventLog.Keeps.answer`), and a run
is an induction on its calls. Nothing of the log ever shows in a reply.
-/

namespace MarginAccount

/-! ## What is kept -/

theorem lastOf_concat {α : Type} (n : ℕ) (xs : List α) (x : α) :
    lastOf n (lastOf n xs ++ [x]) = lastOf n (xs ++ [x]) := by
  simp only [lastOf, List.length_append, List.length_drop, List.length_singleton]
  rw [← List.drop_append_of_le_length (Nat.sub_le _ _), List.drop_drop]
  congr 1
  omega

namespace EventLog

variable {log : EventLog} {limit : ℕ} {history : List Event}

/-- The log holds the last events of a history that is numbered from one on. -/
structure Keeps (log : EventLog) (limit : ℕ) (history : List Event) : Prop where
  events : log.events = lastOf limit history
  ids : history.map (·.id) = List.range' 1 history.length
  nextId : log.nextId = history.length + 1

theorem Keeps.empty : EventLog.empty.Keeps limit [] := ⟨List.drop_nil.symm, rfl, rfl⟩

theorem Keeps.record (h : log.Keeps limit history) (t : Timestamp) (payload : EventPayload) :
    (log.record limit t payload).Keeps limit (history ++ [⟨log.nextId, t, payload⟩]) where
  events := by
    rw [EventLog.record, h.events, lastOf_concat]
  ids := by
    rw [List.map_append, List.length_append, List.length_singleton, List.range'_concat, h.ids,
      List.map_singleton, h.nextId, Nat.one_mul, Nat.add_comm]
  nextId := by
    simp [h.nextId]

theorem Keeps.length_events (h : log.Keeps limit history) :
    log.events.length = min limit history.length := by
  rw [h.events, length_lastOf]

/-- The numbers in the log are consecutive and end at the length of the history. -/
theorem Keeps.ids_events (h : log.Keeps limit history) : log.events.map (·.id) =
    List.range' (history.length + 1 - log.events.length) log.events.length := by
  rw [h.length_events, h.events, lastOf, List.map_drop, h.ids, List.drop_range']
  congr 1 <;> omega

end EventLog

/-! ## What a call does to the log -/

/-- What the caller is told. -/
inductive Reply where
  | claimed (result : Outcome EngineError Snapshot)
  | released (result : Outcome EngineError Release)
  | reported (result : Outcome EngineError Report)

namespace Engine

variable {e e' : Engine} {snapshot after : Snapshot} {call : Call} {payload : EventPayload}

def reply (e : Engine) (snapshot : Snapshot) (call : Call) : Reply :=
  match call.request with
  | .claim liquidator =>
    .claimed (e.beginLiquidation snapshot call.market liquidator call.now).1
  | .release requester =>
    .released (e.endLiquidation snapshot call.market requester call.now).1
  | .evaluate => .reported (e.evaluate snapshot call.market call.now)
  | .project changes => .reported (e.project snapshot call.market changes call.now)

/-- A claim of an account that nobody holds, or an exit, that goes through. -/
def Records (e : Engine) (snapshot : Snapshot) (call : Call) : Prop :=
  match call.request with
  | .claim liquidator => snapshot.liquidation = none ∧
      ∃ claimed e', e.beginLiquidation snapshot call.market liquidator call.now = (.ok claimed, e')
  | .release requester =>
      ∃ release e', e.endLiquidation snapshot call.market requester call.now = (.ok release, e')
  | .evaluate | .project _ => False

/-- Engines that agree answer a claim alike. -/
theorem Agrees.beginLiquidation_eq (h : e'.Agrees e) (market : Market) (liquidator : Address)
    (now : Timestamp) : (e'.beginLiquidation snapshot market liquidator now).1 =
      (e.beginLiquidation snapshot market liquidator now).1 := by
  cases hbegin : e.beginLiquidation snapshot market liquidator now with
  | mk outcome e₁ =>
    cases outcome with
    | error failure => rw [h.refuses_claim hbegin]
    | ok claimed =>
      obtain ⟨report, hreport, hzero, ⟨l, hl, hliquidator, hclaimed, -⟩ | ⟨hfree, hrisk, hclaimed, -⟩⟩ :=
        beginLiquidation_eq_ok.1 hbegin
      · rw [beginLiquidation_eq_ok.2 ⟨report, h.evaluate_eq.trans hreport, hzero,
          .inl ⟨l, hl, hliquidator, hclaimed, rfl⟩⟩]
      · rw [← h.policy] at hrisk hclaimed
        rw [beginLiquidation_eq_ok.2 ⟨report, h.evaluate_eq.trans hreport, hzero,
          .inr ⟨hfree, hrisk, hclaimed, rfl⟩⟩]

/-- And an exit. -/
theorem Agrees.endLiquidation_eq (h : e'.Agrees e) (market : Market) (requester : Address)
    (now : Timestamp) : (e'.endLiquidation snapshot market requester now).1 =
      (e.endLiquidation snapshot market requester now).1 := by
  cases hend : e.endLiquidation snapshot market requester now with
  | mk outcome e₁ =>
    cases outcome with
    | error failure => rw [h.refuses_exit hend]
    | ok release =>
      obtain ⟨report, l, reason, hreport, hl, hreason, hrelease, -⟩ := endLiquidation_eq_ok.1 hend
      rw [← h.policy] at hreason
      rw [endLiquidation_eq_ok.2 ⟨report, l, reason, h.evaluate_eq.trans hreport, hl, hreason,
        hrelease, rfl⟩]

theorem Agrees.reply_eq (h : e'.Agrees e) (snapshot : Snapshot) (call : Call) :
    e'.reply snapshot call = e.reply snapshot call := by
  cases hrequest : call.request with
  | evaluate => simp only [reply, hrequest, h.evaluate_eq]
  | project changes => simp only [reply, hrequest, project, prices, h.policy, h.staleness]
  | claim liquidator => simp only [reply, hrequest, h.beginLiquidation_eq]
  | release requester => simp only [reply, hrequest, h.endLiquidation_eq]

/-- A transition with an event is one of a call that records, about its account. -/
theorem Transition.records (h : e.Transition snapshot call after (some payload)) :
    e.Records snapshot call ∧ payload.account = snapshot.account := by
  cases h with
  | begun hrequest hreport hliquidator hfree hrisk =>
    simp only [Records, hrequest]
    exact ⟨⟨hfree, _, _, beginLiquidation_eq_ok.2
      ⟨_, hreport, hliquidator, .inr ⟨hfree, hrisk, rfl, rfl⟩⟩⟩, rfl⟩
  | ended hrequest hreport hheld hreason =>
    simp only [Records, hrequest]
    exact ⟨⟨_, _, endLiquidation_eq_ok.2 ⟨_, _, _, hreport, hheld, hreason, rfl, rfl⟩⟩, rfl⟩

theorem Records.nextId_answer (h : e.Records snapshot call) :
    (e.answer snapshot call).2.log.nextId = e.log.nextId + 1 := by
  cases hrequest : call.request with
  | evaluate | project =>
    simp only [Records, hrequest] at h
  | claim liquidator =>
    simp only [Records, hrequest] at h
    obtain ⟨hfree, claimed, e', hbegin⟩ := h
    simp only [answer, hrequest, hbegin]
    obtain ⟨_, -, -, ⟨l, hl, -⟩ | ⟨-, -, -, rfl⟩⟩ := beginLiquidation_eq_ok.1 hbegin
    · rw [hfree] at hl
      cases hl
    · rfl
  | release requester =>
    simp only [Records, hrequest] at h
    obtain ⟨release, e', hend⟩ := h
    simp only [answer, hrequest, hend]
    obtain ⟨_, _, _, -, -, -, -, rfl⟩ := endLiquidation_eq_ok.1 hend
    rfl

/-- A call that records emits one event about its account, under the next number and at the time of
the call. -/
theorem Records.exists_payload (h : e.Records snapshot call) :
    ∃ payload : EventPayload, payload.account = snapshot.account ∧
      e.emitted snapshot call = [⟨e.log.nextId, call.now, payload⟩] ∧
      (e.answer snapshot call).2 = e.record call.now payload := by
  obtain ⟨payload?, htransition, hengine, hemitted⟩ := e.exists_transition snapshot call
  have hnext := h.nextId_answer
  rw [hengine] at hnext ⊢
  cases payload? with
  | none => exact absurd hnext (Nat.ne_of_lt (Nat.lt_succ_self _))
  | some payload => exact ⟨payload, htransition.records.2, hemitted, rfl⟩

/-- All other calls leave the engine as it is. -/
theorem answer_of_not_records (h : ¬e.Records snapshot call) :
    (e.answer snapshot call).2 = e ∧ e.emitted snapshot call = [] := by
  obtain ⟨payload?, htransition, hengine, hemitted⟩ := e.exists_transition snapshot call
  cases payload? with
  | none => exact ⟨hengine, hemitted⟩
  | some payload => exact absurd htransition.records.1 h

theorem settings_answer (e : Engine) (snapshot : Snapshot) (call : Call) :
    (e.answer snapshot call).2.settings = e.settings := by
  obtain ⟨payload?, -, hengine, -⟩ := e.exists_transition snapshot call
  rw [hengine]
  cases payload? <;> rfl

end Engine

/-- A log that keeps the end of a history keeps the end of it with what a call emits. -/
theorem EventLog.Keeps.answer {e : Engine} {history : List Event}
    (h : e.log.Keeps e.settings.maxEvents history) (snapshot : Snapshot) (call : Call) :
    (e.answer snapshot call).2.log.Keeps e.settings.maxEvents
      (history ++ e.emitted snapshot call) := by
  obtain ⟨payload?, -, hengine, hemitted⟩ := e.exists_transition snapshot call
  rw [hengine, hemitted]
  cases payload? with
  | none => simpa using h
  | some payload => exact h.record _ _

/-! ## Runs -/

namespace Engine

/-- The engine after calls about any snapshots, in the order in which they arrive. -/
def serve (e : Engine) (calls : List (Snapshot × Call)) : Engine :=
  calls.foldl (fun e (snapshot, call) ↦ (e.answer snapshot call).2) e

/-- What is emitted on the way, oldest first. -/
def history (e : Engine) : List (Snapshot × Call) → List Event
  | [] => []
  | (snapshot, call) :: calls =>
    e.emitted snapshot call ++ (e.answer snapshot call).2.history calls

theorem settings_serve (e : Engine) (calls : List (Snapshot × Call)) :
    (e.serve calls).settings = e.settings := by
  induction calls generalizing e with
  | nil => rfl
  | cons call calls ih => exact (ih _).trans (e.settings_answer call.1 call.2)

theorem keeps_serve {e : Engine} {past : List Event} (calls : List (Snapshot × Call))
    (h : e.log.Keeps e.settings.maxEvents past) :
    (e.serve calls).log.Keeps e.settings.maxEvents (past ++ e.history calls) := by
  induction calls generalizing e past with
  | nil =>
    rw [history, List.append_nil]
    exact h
  | cons call calls ih =>
    obtain ⟨snapshot, call⟩ := call
    rw [history, ← List.append_assoc, ← e.settings_answer snapshot call]
    refine ih ?_
    rw [settings_answer]
    exact h.answer snapshot call

/-- After any calls about any snapshots: the log holds the last of what was emitted, under consecutive
numbers up to how much that was, and shows ends of it. A call that fails, a repeated claim and a report
leave the engine as it is, any other one adds one event under the next number, and no reply depends on
the log. -/
theorem log_of_run (settings : Settings) (calls : List (Snapshot × Call)) :
    let e := serve ⟨settings, .empty⟩ calls
    let emitted := history ⟨settings, .empty⟩ calls
    let kept := min emitted.length settings.maxEvents
    (e.log.events <:+ emitted ∧ e.log.events.length = kept) ∧
    e.log.events.map (·.id) = List.range' (emitted.length + 1 - kept) kept ∧
    e.log.nextId = emitted.length + 1 ∧
    (∀ count, e.log.recent count <:+ e.log.events ∧
      (e.log.recent count).length = min count e.log.events.length) ∧
    (∀ snapshot call, ¬e.Records snapshot call →
      (e.answer snapshot call).2 = e ∧ e.emitted snapshot call = []) ∧
    (∀ snapshot call, e.Records snapshot call →
      ∃ payload : EventPayload, payload.account = snapshot.account ∧
        e.emitted snapshot call = [⟨e.log.nextId, call.now, payload⟩] ∧
        (e.answer snapshot call).2 = e.record call.now payload) ∧
    ∀ (log : EventLog) (maxEvents : ℕ) (snapshot : Snapshot) (call : Call),
      reply ⟨{ settings with maxEvents }, log⟩ snapshot call = e.reply snapshot call := by
  intro e emitted kept
  have hkeeps : e.log.Keeps settings.maxEvents emitted :=
    @keeps_serve ⟨settings, .empty⟩ [] calls .empty
  have hsettings : e.settings = settings := settings_serve _ calls
  have hlength : e.log.events.length = kept := hkeeps.length_events.trans (Nat.min_comm _ _)
  refine ⟨⟨?_, hlength⟩, ?_, hkeeps.nextId, fun count ↦ ⟨?_, ?_⟩, fun _ _ ↦ answer_of_not_records,
    fun _ _ ↦ Records.exists_payload, fun log maxEvents ↦ ?_⟩
  · rw [hkeeps.events]
    exact List.drop_suffix _ _
  · rw [← hlength]
    exact hkeeps.ids_events
  · exact List.drop_suffix _ _
  · exact EventLog.length_lastOf _ _
  · exact Agrees.reply_eq (by constructor <;> simp [hsettings])

end Engine

namespace Session

variable {ι : Type} [DecidableEq ι] {s : Session ι}

/-- The log of the engine is the end of the history of the session, however many calls there were. -/
theorem keeps_run (calls : List (ι × Call))
    (h : s.engine.log.Keeps s.engine.settings.maxEvents s.history) :
    (s.run calls).engine.log.Keeps s.engine.settings.maxEvents (s.run calls).history := by
  induction calls generalizing s with
  | nil => exact h
  | cons call calls ih =>
    obtain ⟨i, c⟩ := call
    rw [run_cons, ← (s.frame_call i c).settings]
    refine ih ?_
    rw [(s.frame_call i c).settings]
    exact h.answer _ _

end Session

end MarginAccount
