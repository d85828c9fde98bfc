import MarginAccount.Proofs.Account.Rearrangement
import MarginAccount.Proofs.Engine.Direction

/-! # Reports on changes in another order

A report on changes that have not landed depends on the order of the changes to one token only. How
the changes to different tokens are interleaved shows nowhere in it.
-/

namespace MarginAccount

section

variable {snapshot : Snapshot} {market : Market} {prices : PriceSource}
  {positions merged merged' : List Position} {changes changes' : List Change} {now : Timestamp}
  {policy : Policy} {report : Report} {available : Usd} {e : Engine} {v : Valuation}

/-- Positions that merge in another order have the same valuation. -/
theorem Valuation.ofPositions_of_rearranged (h : Rearranged Position.token merged merged')
    (hmerge : mergeChanges positions changes = .ok merged)
    (hmerge' : mergeChanges positions changes' = .ok merged')
    (hv : ofPositions positions prices changes policy = .ok v) :
    ofPositions positions prices changes' policy = .ok v := by
  have happraise := (ofPositions_eq_ok hv hmerge).1
  have hcount : (appraisals merged prices policy).count .unpriced =
      (appraisals merged' prices policy).count .unpriced := (h.perm.filterMap _).count_eq _
  rw [← hv, ofPositions_of_appraised hmerge happraise,
    ofPositions_of_appraised hmerge' fun p hp ↦ happraise p (h.mem_iff.2 hp), h.inOrder_eq, hcount]

/-- A view looks positions up, and sees nothing else of them. -/
theorem Pool.view_congr (hfind : ∀ token, findPosition? merged token = findPosition? merged' token)
    (pool : Pool) (token : TokenId) :
    pool.view token merged market prices available policy =
      pool.view token merged' market prices available policy := by
  rw [view, view, hfind, hfind]

theorem PoolViews.ofTokens_congr
    (hfind : ∀ token, findPosition? merged token = findPosition? merged' token)
    (tokens : List TokenId) :
    ofTokens tokens merged market prices available policy =
      ofTokens tokens merged' market prices available policy := by
  induction tokens with
  | nil => rfl
  | cons token rest ih =>
    rw [ofTokens, ofTokens, ih]
    cases market.pools.get? token with
    | none => rfl
    | some pool =>
      dsimp only
      rw [pool.view_congr hfind]

namespace Engine

theorem project_of_rearranged (h : Rearranged Change.token changes changes')
    (hreport : e.project snapshot market changes now = .ok report) :
    e.project snapshot market changes' now = .ok report := by
  obtain ⟨hvaluation, hrisk, hsummary, ⟨merged, hmerge, hpools⟩, hrest⟩ :=
    Report.ofSnapshot_eq_ok_iff.1 hreport
  obtain ⟨merged', hmerge', hmerged⟩ := h.mergeChanges hmerge
  have hviews : PoolViews.ofMarket merged' market (e.prices market now)
      report.valuation.availableSetup e.settings.policy = .ok report.pools := by
    rw [← hpools]
    exact PoolViews.ofTokens_congr (fun token ↦ (hmerged.findPosition?_eq token).symm) market.tokens
  exact Report.ofSnapshot_eq_ok_iff.2
    ⟨Valuation.ofPositions_of_rearranged hmerged hmerge hmerge' hvaluation, hrisk, hsummary,
      ⟨merged', hmerge', hviews⟩, hrest⟩

/-- Changes that come in another order, but in the same order for each token, give the same report
or none either way. -/
theorem project_rearranged (e : Engine) (snapshot : Snapshot) (market : Market) (now : Timestamp)
    (h : Rearranged Change.token changes changes') :
    (∃ report, e.project snapshot market changes now = .ok report ∧
      e.project snapshot market changes' now = .ok report) ∨
    (∃ failure failure', e.project snapshot market changes now = .error failure ∧
      e.project snapshot market changes' now = .error failure') := by
  cases hreport : e.project snapshot market changes now with
  | ok report => exact .inl ⟨report, rfl, project_of_rearranged h hreport⟩
  | error failure =>
    cases hreport' : e.project snapshot market changes' now with
    | ok report =>
      rw [project_of_rearranged h.symm hreport'] at hreport
      cases hreport
    | error failure' => exact .inr ⟨failure, failure', rfl, rfl⟩

end Engine

end

/-! ## An account that opens -/

namespace Sample

def deposits (units : Int) (h : -2 ^ 127 ≤ units := by decide) (h' : units < 2 ^ 127 := by decide) :
    Change :=
  ⟨.ofTag 1, .deposit, 0, .one, ⟨units, h, h'⟩⟩

/-- Thirty-five tokens are borrowed. -/
def borrows : Change := ⟨.ofTag 2, .claim, 0, .lit 50 2, { units := 35 }⟩

/-- Taking out more than there is leaves nothing, so the order of the last two changes matters. -/
def refilled : List Change := [deposits (-1000), deposits 90]

end Sample

namespace Engine

open Sample

/-- Borrowing first or depositing first gives one report, although the positions open in another
order. -/
theorem project_unopened :
    ∃ report,
      engine.project unopened (owing .one) (deposits 100 :: borrows :: refilled) ⟨0⟩ = .ok report ∧
      engine.project unopened (owing .one) (borrows :: deposits 100 :: refilled) ⟨0⟩ = .ok report ∧
      report.valuation.assets.value = .lit 90 := by
  obtain ⟨report, hreport, hassets⟩ : ∃ report,
      engine.project unopened (owing .one) (deposits 100 :: borrows :: refilled) ⟨0⟩ = .ok report ∧
        decide (report.valuation.assets.value = .lit 90) = true := by
    apply exists_ok_of_any
    rw [Engine.project, Report.ofSnapshot, Valuation.ofPositions_of_sorted rfl (by decide +kernel)]
    decide +kernel
  have hchanges : Rearranged Change.token (deposits 100 :: borrows :: refilled)
      (borrows :: deposits 100 :: refilled) := .swap (by decide) refilled
  obtain ⟨report', h, h'⟩ | ⟨failure, -, h, -⟩ :=
    project_rearranged engine unopened (owing .one) ⟨0⟩ hchanges
  · rw [hreport, Except.ok.injEq] at h
    exact ⟨report, hreport, h ▸ h', of_decide_eq_true hassets⟩
  · rw [hreport] at h
    cases h

end Engine

end MarginAccount
