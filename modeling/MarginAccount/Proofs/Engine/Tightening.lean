import MarginAccount.Proofs.Engine.Fault
import MarginAccount.Proofs.Trade.Tightening

/-! # Reports under a tighter policy

An engine with less for new trades reports the same account: the same figures, risk, level, phase and
summary, and the same notes in each pool. Only what sizes new trades differs, and it is not more
(`Engine.tighter_sizes_less`), as long as no division breaks a tie apart.
-/

namespace MarginAccount

section

variable {prices : PriceSource} {policy policy' tight : Policy} {positions : List Position}
  {changes : List Change} {market : Market} {available available' : Usd} {pool : Pool}
  {token : TokenId} {now : Timestamp} {snapshot : Snapshot}

/-! ## Views -/

/-- The view without the bounds that the collateral sizes. -/
def PoolView.unsized (v : PoolView) : PoolView := { v with bounds := v.bounds.unsized }

def PoolViews.unsized (v : PoolViews) : PoolViews := { v with views := v.views.map (·.unsized) }

/-- Policies that keep the same of the wallet back show a pool alike, up to what sizes trades. -/
theorem Pool.view_unsized {view view' : PoolView} (hbuffer : policy.feeBuffer = policy'.feeBuffer)
    (h : pool.view token positions market prices available policy = .ok view)
    (h' : pool.view token positions market prices available' policy' = .ok view') :
    view.unsized = view'.unsized := by
  simp only [Pool.view, bind_eq_ok, Outcome.ofRefusable_eq_ok, Outcome.ofFaultable_eq_ok,
    pure_eq_ok] at h h'
  obtain ⟨deposit, hdeposit, loan, hloan, price?, hprice, bounds, hbounds, depositValue,
    hdepositValue, loanValue, hloanValue, rfl⟩ := h
  obtain ⟨deposit', hdeposit', loan', hloan', price?', hprice', bounds', hbounds', depositValue',
    hdepositValue', loanValue', hloanValue', rfl⟩ := h'
  obtain rfl := Except.ok.inj (hdeposit.symm.trans hdeposit')
  obtain rfl := Except.ok.inj (hloan.symm.trans hloan')
  obtain rfl := Except.ok.inj (hprice.symm.trans hprice')
  obtain rfl := Except.ok.inj (hdepositValue.symm.trans hdepositValue')
  obtain rfl := Except.ok.inj (hloanValue.symm.trans hloanValue')
  have hbounds_eq := TradeBounds.ofPool_unsized hbuffer hbounds hbounds'
  rw [PoolView.unsized, PoolView.unsized, hbounds_eq]

namespace PoolViews

variable {tokens : List TokenId} {views views' : PoolViews} {R : PoolView → PoolView → Prop}

/-- What relates the two views of each loaded pool relates the views one by one. -/
theorem forall₂_views
    (hR : ∀ token pool view view', market.pools.get? token = some pool →
      pool.view token positions market prices available policy = .ok view →
      pool.view token positions market prices available' policy' = .ok view' → R view view')
    (h : ofTokens tokens positions market prices available policy = .ok views)
    (h' : ofTokens tokens positions market prices available' policy' = .ok views') :
    List.Forall₂ R views.views views'.views ∧ views.skipped = views'.skipped := by
  induction tokens generalizing views views' with
  | nil =>
    cases h
    cases h'
    exact ⟨.nil, rfl⟩
  | cons token rest ih =>
    rw [ofTokens] at h h'
    cases hpool : market.pools.get? token with
    | none =>
      simp only [hpool, bind_eq_ok, pure_eq_ok] at h h'
      obtain ⟨later, hlater, rfl⟩ := h
      obtain ⟨later', hlater', rfl⟩ := h'
      obtain ⟨hviews, hskipped⟩ := ih hlater hlater'
      exact ⟨hviews, congrArg (token :: ·) hskipped⟩
    | some pool =>
      simp only [hpool, bind_eq_ok, pure_eq_ok] at h h'
      obtain ⟨view, hview, later, hlater, rfl⟩ := h
      obtain ⟨view', hview', later', hlater', rfl⟩ := h'
      obtain ⟨hviews, hskipped⟩ := ih hlater hlater'
      exact ⟨.cons (hR token pool view view' hpool hview hview') hviews, hskipped⟩

theorem ofTokens_unsized (hbuffer : policy.feeBuffer = policy'.feeBuffer)
    (h : ofTokens tokens positions market prices available policy = .ok views)
    (h' : ofTokens tokens positions market prices available' policy' = .ok views') :
    views.unsized = views'.unsized := by
  obtain ⟨hviews, hskipped⟩ := forall₂_views
    (fun _ _ _ _ _ hview hview' ↦ Pool.view_unsized hbuffer hview hview') h h'
  rw [unsized, unsized, hskipped]
  exact congrArg (PoolViews.mk · _) (List.forall₂_eq_eq_eq ▸ List.forall₂_map_left_iff.2
    (List.forall₂_map_right_iff.2 hviews))

end PoolViews

/-- Where the bounds of a view for an action may be out of order. -/
def Pool.SizedApart (pool : Pool) (view : PoolView) (prices : PriceSource)
    (available available' : Usd) (tight loose : Policy) (action : TradeAction) : Prop :=
  TradeBounds.SizedApart (pool.weights view.depositPosition view.loanPosition) available.value
    available'.value (prices.quote? pool.token) tight loose action

/-- Under a tighter policy and with less collateral available, a view bounds no action by more. -/
theorem Pool.view_bounds_le {loose : Policy} {view view' : PoolView}
    (hvault : 0 ≤ pool.vaultLiquidity.value.toRat) (hborrowed : 0 ≤ pool.totalBorrowed.value.toRat)
    (htight : tight.check = .ok ()) (htighter : tight.IsTighter loose)
    (havailable : available.value ≤ available'.value)
    (h : pool.view token positions market prices available tight = .ok view)
    (h' : pool.view token positions market prices available' loose = .ok view') (action : TradeAction)
    (hapart : ¬pool.SizedApart view' prices available available' tight loose action) :
    (view.bounds.get action).value ≤ (view'.bounds.get action).value := by
  have hunsized := Pool.view_unsized htighter.feeBuffer h h'
  rw [PoolView.unsized, PoolView.unsized, PoolView.mk.injEq] at hunsized
  obtain ⟨-, -, hdeposit, hloan, hbalance, -, hbalance', -⟩ := hunsized
  obtain ⟨-, -, -, -, hbounds⟩ := Pool.view_eq_ok h
  obtain ⟨-, -, -, hheld, hbounds'⟩ := Pool.view_eq_ok h'
  rw [hdeposit, hloan, hbalance, hbalance'] at hbounds
  refine TradeBounds.get_le_of_tighter hvault hborrowed (noteBalance_nonneg hheld) htight htighter
    (Decimal.le_iff_toRat.1 havailable) hbounds hbounds' action ?_
  rwa [PriceSource.quote?_filter_isPositive]

/-! ## Reports -/

/-- The report without the figures and the bounds that size trades. -/
def Report.unsized (r : Report) : Report :=
  { r with valuation := r.valuation.unsized, pools := r.pools.unsized }

/-- Under a tighter policy an account is reported alike, up to what sizes trades. -/
theorem Report.ofSnapshot_unsized {loose : Policy} {report report' : Report}
    (htighter : tight.IsTighter loose)
    (h : ofSnapshot snapshot market prices changes now tight = .ok report)
    (h' : ofSnapshot snapshot market prices changes now loose = .ok report') :
    report.unsized = report'.unsized := by
  obtain ⟨hvaluation, hrisk, hsummary, ⟨merged, hmerge, hpools⟩, hremaining, hlevel, hheld, hphase⟩ :=
    ofSnapshot_eq_ok_iff.1 h
  obtain ⟨hvaluation', hrisk', hsummary', ⟨merged', hmerge', hpools'⟩, hremaining', hlevel', hheld',
    hphase'⟩ := ofSnapshot_eq_ok_iff.1 h'
  obtain rfl := Except.ok.inj (hmerge.symm.trans hmerge')
  have hunsized := Valuation.unsized_eq hvaluation hvaluation'
  have hrisks : report.risk = report'.risk := by
    change report.valuation.unsized.risk = _ at hrisk
    rw [hunsized] at hrisk
    exact Except.ok.inj (hrisk.symm.trans hrisk')
  have hsummaries : report.summary = report'.summary := by
    rw [htighter.summary] at hsummary
    change report.valuation.unsized.summary _ = _ at hsummary
    rw [hunsized] at hsummary
    exact Except.ok.inj (hsummary.symm.trans hsummary')
  have hremainings := Except.ok.inj (hremaining.symm.trans hremaining')
  rw [Report.unsized, Report.unsized, hunsized, PoolViews.ofTokens_unsized htighter.feeBuffer hpools
    hpools', hrisks, hsummaries, hremainings, hlevel, hlevel', hheld, hheld', hphase, hphase', hrisks,
    htighter.level, htighter.phase]

namespace Engine

variable {e : Engine} {report report' : Report} {account owner : Address} {slots : List Position}
  {held : Option Liquidation} {fetchedAt : Timestamp}

def withPolicy (e : Engine) (policy : Policy) : Engine :=
  { e with settings := { e.settings with policy } }

theorem prices_withPolicy (h : tight.IsTighter e.settings.policy) (market : Market)
    (now : Timestamp) : (e.withPolicy tight).prices market now = e.prices market now := by
  rw [prices, prices, withPolicy, h.maxPriceAge]

/-- An engine with less for new trades reports the same account up to what sizes trades. It requires
as much or more for setting up trades and leaves as much or less for it, unless the fractions of the
allowance are all but the same and a claim breaks its ties apart; and then it bounds every action by
as much or less, unless the sizing of a pool breaks its ties apart. -/
theorem tighter_sizes_less (hpolicy : e.settings.policy.check = .ok ())
    (htight : tight.check = .ok ()) (htighter : tight.IsTighter e.settings.policy)
    (hslots : Snapshot.ofSlots account owner slots held fetchedAt = .ok snapshot)
    (hchanges : ∀ c ∈ changes, checkModifier c.token c.kind c.modifier = .ok ())
    (hpools : ∀ token pool, market.pools.get? token = some pool →
      0 ≤ pool.vaultLiquidity.value.toRat ∧ 0 ≤ pool.totalBorrowed.value.toRat)
    (h : e.project snapshot market changes now = .ok report)
    (h' : (e.withPolicy tight).project snapshot market changes now = .ok report') :
    report'.unsized = report.unsized ∧
      ((tight.setupFraction.toRat < e.settings.policy.setupFraction.toRat - 1 / 2 ^ 63 ∨
          ∀ merged, mergeChanges snapshot.positions changes = .ok merged →
            ∀ p ∈ merged, ¬p.SizedTiesApart (e.prices market now) e.settings.policy tight) →
        (report.valuation.requiredSetup.value ≤ report'.valuation.requiredSetup.value ∧
          report'.valuation.availableSetup.value ≤ report.valuation.availableSetup.value) ∧
        List.Forall₂ (fun view' view ↦ ∃ pool, market.pools.get? view.token = some pool ∧
            ∀ action, ¬pool.SizedApart view (e.prices market now) report'.valuation.availableSetup
                report.valuation.availableSetup tight e.settings.policy action →
              (view'.bounds.get action).value ≤ (view.bounds.get action).value)
          report'.pools.views report.pools.views) := by
  rw [project, prices_withPolicy htighter] at h'
  refine ⟨Report.ofSnapshot_unsized htighter h' h, fun hties ↦ ?_⟩
  obtain ⟨hvaluation, merged, hmerge, hviews⟩ := Report.ofSnapshot_eq_ok h
  obtain ⟨hvaluation', merged', hmerge', hviews'⟩ := Report.ofSnapshot_eq_ok h'
  obtain rfl := Except.ok.inj (hmerge.symm.trans hmerge')
  have hpositions := check_of_checkPositions (Snapshot.checkPositions_of_ofSlots hslots)
  have hsetup := Valuation.setup_in_order hpositions hchanges hpolicy htight htighter.setupFraction
    hvaluation hvaluation' hties
  refine ⟨hsetup, (PoolViews.forall₂_views (fun token pool view' view hpool hview' hview ↦ ?_) hviews'
    hviews).1⟩
  obtain ⟨hvault, hborrowed⟩ := hpools token pool hpool
  refine ⟨pool, by rw [(Pool.view_eq_ok hview).1, hpool], fun action hapart ↦ ?_⟩
  exact Pool.view_bounds_le hvault hborrowed htight htighter hsetup.2 hview' hview action hapart

end Engine

end

/-! ## Less of the allowance -/

namespace Sample

/-- The standard policy with four tenths of the allowance for new trades, and pools filled less. -/
def cautious : Policy :=
  { Policy.standard with setupFraction := .lit 4 1, utilizationCap := .lit 9 1 }

theorem isTighter_cautious : cautious.IsTighter .standard := ⟨rfl, by decide, by decide⟩

/-- All of the allowance, and all of it but the last unit there is. -/
def full : Policy := { Policy.standard with setupFraction := .one }

def nearlyFull : Policy := { Policy.standard with setupFraction := .lit (10 ^ 28 - 1) 28 }

theorem isTighter_nearlyFull : nearlyFull.IsTighter full := ⟨rfl, by decide, by decide⟩

/-- The pool with 28 places for its token. -/
def fineMarket : Market := pricedMarket.setPool { pool with decimals := 28 }

theorem isSound_fineMarket : fineMarket.IsSound := by
  have hpool : pool.IsSound := isSound_of_amounts (by decide) (by decide)
  exact isSound_pricedMarket.setPool
    ⟨hpool.vaultLiquidity, hpool.totalBorrowed, hpool.depositWeight, hpool.loanWeight⟩

/-- Ten deposit notes, and loan notes at a weight of more than 64 bits. -/
def borrower : Snapshot :=
  ⟨.ofTag 99, .ofTag 50,
    [{ deposit with balance := .clamp 10 }, { longClaim with token := pool.loanNote }], none,
    ⟨0⟩⟩

end Sample

namespace Engine

open Sample

/-- Ten dollars of loans require 20 dollars at half of the allowance and 25 at four tenths of it. So
70 dollars are available or 65, and no action is bounded by more than before. -/
theorem sizes_less_of_cautious : ∃ report report' view view',
    engine.evaluate account pricedMarket ⟨0⟩ = .ok report ∧
      (engine.withPolicy cautious).evaluate account pricedMarket ⟨0⟩ = .ok report' ∧
      (report.pools.views = [view] ∧ report'.pools.views = [view']) ∧
      (view.bounds.withdraw.value = .lit 70 ∧ view'.bounds.withdraw.value = .lit 65) ∧
      report'.valuation.availableSetup.value ≤ report.valuation.availableSetup.value ∧
      (∀ action, (view'.bounds.get action).value ≤ (view.bounds.get action).value) ∧
      report'.risk = report.risk := by
  obtain ⟨report, hreport, hviews⟩ : ∃ report,
      engine.evaluate account pricedMarket ⟨0⟩ = .ok report ∧
        decide (report.pools.views.map (fun v ↦
            (v.token, v.depositPosition, v.loanPosition, v.bounds.withdraw.value)) =
          [(pool.token, some deposit, some loan, .lit 70)]) = true := by
    apply exists_ok_of_any
    rw [Engine.evaluate, Engine.project, Report.ofSnapshot,
      Valuation.ofPositions_of_sorted rfl (by decide +kernel)]
    decide +kernel
  obtain ⟨report', hreport', hviews'⟩ : ∃ report,
      (engine.withPolicy cautious).evaluate account pricedMarket ⟨0⟩ = .ok report ∧
        decide (report.pools.views.map (·.bounds.withdraw.value) = [.lit 65]) = true := by
    apply exists_ok_of_any
    rw [Engine.evaluate, Engine.project, Report.ofSnapshot,
      Valuation.ofPositions_of_sorted rfl (by decide +kernel)]
    decide +kernel
  obtain ⟨view, hviews, hview⟩ := List.map_eq_singleton_iff.1 (of_decide_eq_true hviews)
  obtain ⟨view', hviews', hwithdraw'⟩ := List.map_eq_singleton_iff.1 (of_decide_eq_true hviews')
  simp only [Prod.mk.injEq] at hview
  obtain ⟨htoken, hdeposit, hloan, hwithdraw⟩ := hview
  have hsnapshot : Snapshot.ofSlots account.account account.owner account.positions none ⟨0⟩ =
      .ok account := by decide +kernel
  obtain ⟨hunsized, hsized⟩ := tighter_sizes_less (by decide) (by decide) isTighter_cautious hsnapshot
    (by simp) (fun token pool hpool ↦ ⟨(isSound_pricedMarket.pools token pool hpool).vaultLiquidity,
      (isSound_pricedMarket.pools token pool hpool).totalBorrowed⟩) hreport hreport'
  obtain ⟨⟨-, havailable⟩, hbounds⟩ := hsized (.inl (by decide +kernel))
  rw [hviews, hviews', List.forall₂_cons] at hbounds
  obtain ⟨⟨pool', hpool, hbounds⟩, -⟩ := hbounds
  rw [htoken] at hpool
  obtain rfl : pool = pool' := Option.some.inj hpool
  have hrisk : report'.unsized.risk = report.unsized.risk := by rw [hunsized]
  refine ⟨report, report', view, view', hreport, hreport', ⟨hviews, hviews'⟩,
    ⟨hwithdraw, hwithdraw'⟩, havailable, fun action ↦ hbounds action ?_, hrisk⟩
  rw [Pool.SizedApart, hdeposit, hloan]
  exact TradeBounds.not_sizedApart Decimal.isWeight_one Decimal.isWeight_one (by decide) (by decide)
    isTighter_cautious.setupFraction (by decide +kernel) (by decide +kernel) (by decide +kernel)
    (by decide +kernel) action

/-- The last unit of the allowance is kept back, and more of a deposit may be withdrawn: the weight of
the loan keeps its value in the product and gains a place, and the quotient by it then breaks its tie
downward. -/
theorem sizes_more_of_nearlyFull :
    full.check = .ok () ∧ nearlyFull.check = .ok () ∧ nearlyFull.IsTighter full ∧
      Snapshot.ofSlots borrower.account borrower.owner borrower.positions none ⟨0⟩ = .ok borrower ∧
      fineMarket.IsSound ∧
      ∃ report report' view view',
        (engine.withPolicy full).evaluate borrower fineMarket ⟨0⟩ = .ok report ∧
        ((engine.withPolicy full).withPolicy nearlyFull).evaluate borrower fineMarket ⟨0⟩ =
          .ok report' ∧
        (report.pools.views = [view] ∧ report'.pools.views = [view']) ∧
        view.bounds.withdraw.value = .lit 809533148345336839148901727 27 ∧
          view'.bounds.withdraw.value = .lit 809533148345336839148901728 27 ∧
        ¬(view'.bounds.get .withdraw).value ≤ (view.bounds.get .withdraw).value ∧
          ¬(view'.bounds.get .borrow).value ≤ (view.bounds.get .borrow).value := by
  obtain ⟨report, hreport, hbounds⟩ : ∃ report,
      (engine.withPolicy full).evaluate borrower fineMarket ⟨0⟩ = .ok report ∧
        decide (report.pools.views.map (fun v ↦ (v.bounds.withdraw.value, v.bounds.borrow.value)) =
          [(.lit 809533148345336839148901727 27, .lit 1295253037352538942638242763 28)]) = true := by
    apply exists_ok_of_any
    rw [Engine.evaluate, Engine.project, Report.ofSnapshot,
      Valuation.ofPositions_of_sorted rfl (by decide +kernel)]
    decide +kernel
  obtain ⟨report', hreport', hbounds'⟩ : ∃ report,
      ((engine.withPolicy full).withPolicy nearlyFull).evaluate borrower fineMarket ⟨0⟩ =
          .ok report ∧
        decide (report.pools.views.map (fun v ↦ (v.bounds.withdraw.value, v.bounds.borrow.value)) =
          [(.lit 809533148345336839148901728 27, .lit 1295253037352538942638242765 28)]) = true := by
    apply exists_ok_of_any
    rw [Engine.evaluate, Engine.project, Report.ofSnapshot,
      Valuation.ofPositions_of_sorted rfl (by decide +kernel)]
    decide +kernel
  obtain ⟨view, hviews, hview⟩ := List.map_eq_singleton_iff.1 (of_decide_eq_true hbounds)
  obtain ⟨view', hviews', hview'⟩ := List.map_eq_singleton_iff.1 (of_decide_eq_true hbounds')
  rw [Prod.mk.injEq] at hview hview'
  refine ⟨by decide, by decide, isTighter_nearlyFull, by decide +kernel, isSound_fineMarket, report,
    report', view, view', hreport, hreport', ⟨hviews, hviews'⟩, hview.1, hview'.1, ?_, ?_⟩
  · rw [TradeBounds.get, TradeBounds.get, hview.1, hview'.1]
    decide
  · rw [TradeBounds.get, TradeBounds.get, hview.2, hview'.2]
    decide

end Engine

end MarginAccount
