import MarginAccount.Proofs.Engine.Session

/-! # Authority over an exit

A liquidation stands until a call ends it that may: one by its liquidator, one after the timeout, or
one by the owner of an account that has recovered. Neither reports, nor claims by others, nor claims
made again restart its clock or change whose it is.
-/

namespace MarginAccount

/-- The call asks for the release of the snapshot, which `l` holds, and has a ground. -/
def Engine.MayEnd (e : Engine) (snapshot : Snapshot) (l : Liquidation) (c : Call) : Prop :=
  ∃ requester report, c.request = .release requester ∧
    e.evaluate snapshot c.market c.now = .ok report ∧
    (requester = l.liquidator ∨ 1000 * l.timeout < l.heldFor c.now ∨
      requester = snapshot.owner ∧ report.risk.isLiquidatable e.settings.policy = false)

namespace Liquidation

variable {l : Liquidation} {requester owner : Address} {risk : Risk} {now : Timestamp}
  {policy : Policy} {reason : EndReason}

theorem reason_of_exitReason?
    (h : l.exitReason? requester owner risk now policy = some reason) :
    reason = if requester = l.liquidator then .byLiquidator
      else if 1000 * l.timeout < l.heldFor now then .timedOut else .recovered := by
  unfold exitReason? at h
  split_ifs at h ⊢ <;> simp_all

end Liquidation

namespace Session

variable {ι : Type} [DecidableEq ι] {s : Session ι} {i j : ι} {c : Call} {l : Liquidation}

/-- A call on one account leaves the others as they are. -/
theorem held_call_of_ne (hj : i ≠ j) : (s.call j c).held i = s.held i := by
  simp only [call, Function.update_of_ne hj]

theorem held_claim {market : Market} {liquidator : Address} {now : Timestamp} {claimed : Snapshot}
    {e : Engine} (hclaim : s.engine.beginLiquidation (s.held i) market liquidator now =
      (.ok claimed, e)) : (s.call i ⟨market, now, .claim liquidator⟩).held i = claimed := by
  simp only [call, Function.update_self, Engine.answer, hclaim]
  rfl

/-- A liquidation survives every call that may not end it. -/
theorem stands_or_mayEnd (hl : (s.held i).liquidation = some l) (j : ι) (c : Call) :
    ((s.call j c).held i).liquidation = some l ∨
      j = i ∧ s.engine.MayEnd (s.held i) l c := by
  by_cases hj : i = j
  · subst hj
    obtain ⟨after, payload?, htransition, hcall⟩ := s.exists_call i c
    rw [hcall]
    cases htransition with
    | quiet =>
      left
      rw [Function.update_eq_self]
      exact hl
    | begun _ _ _ hfree _ =>
      rw [hl] at hfree
      cases hfree
    | ended hrequest hreport hheld hreason =>
      right
      obtain rfl : _ = l := Option.some.inj (hheld.symm.trans hl)
      exact ⟨rfl, _, _, hrequest, hreport,
        Liquidation.isSome_exitReason?.1 (Option.isSome_of_eq_some hreason)⟩
  · left
    rw [held_call_of_ne hj]
    exact hl

/-- Over a run, a liquidation stands or was ended by a call that might. -/
theorem stands_or_ended (hl : (s.held i).liquidation = some l) (calls : List (ι × Call)) :
    ((s.run calls).held i).liquidation = some l ∨
      ∃ before c after, calls = before ++ (i, c) :: after ∧
        ((s.run before).held i).liquidation = some l ∧
        (s.run before).engine.MayEnd ((s.run before).held i) l c := by
  induction calls generalizing s with
  | nil => exact .inl hl
  | cons call calls ih =>
    obtain ⟨j, c⟩ := call
    rcases stands_or_mayEnd hl j c with hstands | ⟨rfl, hmay⟩
    · rcases ih hstands with hstands | ⟨before, c', after, rfl, hbefore, hmay⟩
      · exact .inl hstands
      · exact .inr ⟨(j, c) :: before, c', after, rfl, hbefore, hmay⟩
    · exact .inr ⟨[], c, calls, rfl, hl, hmay⟩

/-- A release that is refused leaves the session as it is. -/
theorem call_of_refused {requester : Address} {failure : Failure EngineError} {e : Engine}
    (hrequest : c.request = .release requester)
    (h : s.engine.endLiquidation (s.held i) c.market requester c.now = (.error failure, e)) :
    e = s.engine ∧ s.call i c = s := by
  obtain ⟨rfl, -⟩ := Engine.endLiquidation_eq_error.1 h
  refine ⟨rfl, ?_⟩
  obtain ⟨after, payload?, htransition, hcall⟩ := s.exists_call i c
  rw [hcall]
  cases htransition with
  | quiet =>
    rw [Function.update_eq_self]
    simp
  | begun hclaim => cases hrequest.symm.trans hclaim
  | ended hrelease hreport hheld hreason =>
    cases hrequest.symm.trans hrelease
    rw [Engine.endLiquidation_eq_ok.2 ⟨_, _, _, hreport, hheld, hreason, rfl, rfl⟩] at h
    cases h

/-- After a claim, through any calls: the liquidation stands, or was ended by a call that might. While
it stands, an account that evaluates is released to its liquidator, to anyone after the timeout and to
its owner below the liquidation level, and to nobody else; it is the account that was claimed, and
the reason is the first of the three that applies. A refusal leaves the session as it is. -/
theorem exit_authority {market : Market} {liquidator : Address} {t₀ : Timestamp}
    {claimed : Snapshot} {e₁ : Engine} (hfree : (s.held i).liquidation = none)
    (hclaim : s.engine.beginLiquidation (s.held i) market liquidator t₀ = (.ok claimed, e₁))
    (later : List (ι × Call)) :
    let start := s.call i ⟨market, t₀, .claim liquidator⟩
    let l : Liquidation := ⟨liquidator, t₀, s.engine.settings.policy.liquidationTimeout⟩
    let s' := start.run later
    (((s'.held i).liquidation = some l ∨
      ∃ before c after, later = before ++ (i, c) :: after ∧
        ((start.run before).held i).liquidation = some l ∧
        (start.run before).engine.MayEnd ((start.run before).held i) l c)) ∧
    ((s'.held i).liquidation = some l → ∀ requester market' now report,
      s'.engine.evaluate (s'.held i) market' now = .ok report →
      ((∃ release e', s'.engine.endLiquidation (s'.held i) market' requester now =
          (.ok release, e')) ↔
        requester = liquidator ∨
        1000 * s.engine.settings.policy.liquidationTimeout < now.milliseconds - t₀.milliseconds ∨
        requester = (s.held i).owner ∧
          report.risk.atLeast s.engine.settings.policy.liquidationLevel = false) ∧
      (∀ release e', s'.engine.endLiquidation (s'.held i) market' requester now =
          (.ok release, e') →
        release.snapshot = s.held i ∧ release.event.account = (s.held i).account ∧
        release.event.authority = requester ∧
        release.event.reason = if requester = liquidator then .byLiquidator
          else if 1000 * s.engine.settings.policy.liquidationTimeout <
            now.milliseconds - t₀.milliseconds then .timedOut
          else .recovered) ∧
      (∀ failure e', s'.engine.endLiquidation (s'.held i) market' requester now =
          (.error failure, e') →
        e' = s'.engine ∧ s'.call i ⟨market', now, .release requester⟩ = s')) := by
  intro start l s'
  have hstart : (start.held i).liquidation = some l := by
    obtain ⟨_, -, -, ⟨_, hl, -⟩ | ⟨-, -, rfl, -⟩⟩ := Engine.beginLiquidation_eq_ok.1 hclaim
    · rw [hfree] at hl
      cases hl
    · rw [show start.held i = _ from held_claim hclaim]
      rfl
  have hframe : s.Frame s' := (s.frame_call i _).trans (start.frame_run later)
  refine ⟨stands_or_ended hstart later, fun hl requester market' now report hreport ↦ ⟨?_, ?_, ?_⟩⟩
  · rw [Engine.exists_endLiquidation_iff hreport hl, hframe.owner_eq, hframe.settings]
    rfl
  · intro release e' hend
    obtain ⟨report', l', reason, hreport', hl', hreason, rfl, -⟩ := Engine.endLiquidation_eq_ok.1 hend
    obtain rfl : l' = l := Option.some.inj (hl'.symm.trans hl)
    refine ⟨?_, hframe.account_eq i, rfl, Liquidation.reason_of_exitReason? hreason⟩
    rw [hframe.held i]
    exact Snapshot.withLiquidation_of_eq hfree
  · intro failure e' hrefused
    exact call_of_refused rfl hrefused

open Sample in
/-- In the 60th second a stranger asks in vain for the account, which the seventh address holds. After
the timeout the owner gets it. -/
theorem exit_after_timeout :
    ∃ release e, (run ⟨Sample.engine, callers, []⟩ (claims ++
        [(true, ⟨owing .one, ⟨60000⟩, .release (.ofTag 9)⟩)])).engine.endLiquidation seized
          (owing .one) (.ofTag 50) ⟨61001⟩ = (.ok release, e) ∧
      release.snapshot = leveraged ∧ release.event.reason = .timedOut := by
  let s : Session Bool := ⟨Sample.engine, callers, []⟩
  let stranger : Call := ⟨owing .one, ⟨60000⟩, .release (.ofTag 9)⟩
  let s' := s.run (claims ++ [(true, stranger)])
  obtain ⟨e₁, -, hbegin⟩ := beginLiquidation_leveraged
  obtain ⟨hstands, hexit⟩ := @exit_authority Bool _ s true _ _ _ _ _ rfl hbegin [(true, stranger)]
  have hframe : s.Frame s' := s.frame_run _
  have hheld : (s'.held true).liquidation = seized.liquidation := by
    rcases hstands with hstands | ⟨before, c, after, hcalls, -, _, _, hrequest, -, hground⟩
    · exact hstands
    · cases before with
      | cons _ before => cases before <;> cases hcalls
      | nil =>
        cases hcalls
        obtain rfl := Request.release.inj hrequest
        have howner := (s.frame_call true ⟨owing .one, ⟨1000⟩, .claim (.ofTag 7)⟩).owner_eq true
        rcases hground with hground | hground | ⟨hground, -⟩
        · exact absurd hground (by decide)
        · exact absurd hground (by decide)
        · exact absurd (hground.trans howner) (by decide)
  have hseized : s'.held true = seized := by
    rw [hframe.held true, hheld]
    rfl
  obtain ⟨report, hreport⟩ : ∃ report, s'.engine.evaluate seized (owing .one) ⟨61001⟩ = .ok report := by
    refine (Engine.exists_evaluate_iff rfl).2 ⟨?_, by constructor <;> decide⟩
    obtain ⟨report, hreport, -⟩ := evaluate_leveraged ⟨61001⟩
    exact ⟨report, (Engine.Agrees.of_settings hframe.settings).evaluate_eq.trans hreport⟩
  rw [← hseized] at hreport ⊢
  obtain ⟨hiff, hrelease, -⟩ := hexit hheld (.ofTag 50) _ _ _ hreport
  obtain ⟨release, e, hend⟩ := hiff.2 (.inr (.inl (by decide)))
  obtain ⟨hsnapshot, -, -, hreason⟩ := hrelease release e hend
  exact ⟨release, e, hend, hsnapshot, hreason.trans (by decide)⟩

end Session

end MarginAccount
