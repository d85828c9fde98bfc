import MarginAccount.Proofs.Account.Projection
import MarginAccount.Proofs.Engine.Report

/-! # Withdrawing the whole bound

A withdrawal is sized with the price of the token, while the deposit is valued at the price of its
notes. Taking the whole bound leaves no shortfall as long as the token has a usable price, or its
notes have none. With a price for the notes alone the bound is not limited by the collateral that
the notes are: `project_withdrawal_iff` says what is left.
-/

namespace MarginAccount

/-- The change takes the whole bound of a withdrawal off the deposit notes. -/
structure IsWithdrawal (view : PoolView) (pool : Pool) (c : Change) : Prop where
  token : c.token = pool.depositNote
  delta : (c.delta.units : ℚ) = -(view.bounds.withdraw.value.toRat * 10 ^ pool.decimals)

section

variable {e : Engine} {snapshot : Snapshot} {market : Market} {now : Timestamp}
  {report report' : Report} {view : PoolView} {pool : Pool} {p : Position} {c : Change}
  {available : Usd} {prices : PriceSource} {policy : Policy}

/-- A withdrawal at par never takes more than the position holds. -/
theorem IsWithdrawal.move {positions : List Position} (hc : IsWithdrawal view pool c)
    (hview : pool.view view.token positions market prices available policy = .ok view)
    (hx : 0 < view.bounds.withdraw.value.toRat) (hrate : pool.depositRate.IsPar)
    (hp : view.depositPosition = some p) (hexp : p.exponent.toInt = -(pool.decimals : ℤ))
    (hquantity : ∀ q ∈ p.quantity?, q.toRat = p.amount) :
    ((p.balance.move c.delta).units : ℤ) = p.balance.units + c.delta.units := by
  obtain ⟨-, -, -, hbalance, hbounds⟩ := Pool.view_eq_ok hview
  rw [hp] at hbalance
  obtain ⟨q, hq, hle⟩ := Position.underlying_le hrate hbalance
  have hheld : 0 ≤ p.amount := by
    unfold Position.amount
    split <;> positivity
  rw [hquantity q hq, max_eq_left hheld, Position.amount_of_places hexp] at hle
  have hx' : view.bounds.withdraw.value.toRat ≤ p.balance.units / 10 ^ pool.decimals :=
    (TradeBounds.withdraw_le hbounds hx).1.trans hle
  rw [le_div_iff₀ (by positivity)] at hx'
  have hdelta := hc.delta
  have hlow : (0 : ℚ) ≤ (p.balance.units + c.delta.units : ℤ) := by
    push_cast
    linarith
  have hhigh : ((c.delta.units : ℤ) : ℚ) ≤ 0 := by
    rw [hdelta]
    exact neg_nonpos.2 (by positivity)
  have hlow' : 0 ≤ (p.balance.units + c.delta.units : ℤ) := by exact_mod_cast hlow
  have hhigh' : c.delta.units ≤ 0 := by exact_mod_cast hhigh
  have hlt := p.balance.units_lt
  exact Balance.move_units hlow' (by omega)

/-- Withdrawing the whole bound leaves no shortfall, except where the notes have a usable price, the
token has none, and the bound takes more than is available at the price of the notes. -/
theorem project_withdrawal_iff (hr : e.evaluate snapshot market now = .ok report)
    (hv : view ∈ report.pools.views) (hpool : market.pools.get? view.token = some pool)
    (hx : 0 < view.bounds.withdraw.value.toRat) (hrate : pool.depositRate.IsPar)
    (hp : view.depositPosition = some p) (hkind : p.kind = .deposit)
    (hexp : p.exponent.toInt = -(pool.decimals : ℤ)) (hc : IsWithdrawal view pool c)
    (hprices : ∀ price ∈ (e.prices market now).quote? pool.token,
      ∀ note ∈ (e.prices market now).quote? pool.depositNote, price.toRat = note.toRat)
    (hsizing : TradeBounds.WithdrawExact report.valuation.availableSetup.value p.modifier
      ((e.prices market now).quote? pool.token))
    (hbefore : e.ValuationExact snapshot market [] now)
    (hafter : e.ValuationExact snapshot market [c] now)
    (hr' : e.project snapshot market [c] now = .ok report') :
    0 ≤ report'.valuation.availableSetup.value.toRat ↔
      ∀ note ∈ (e.prices market now).quote? pool.depositNote,
        (e.prices market now).quote? pool.token = none →
          view.bounds.withdraw.value.toRat * (p.modifier.toRat * note.toRat) ≤
            report.valuation.availableSetup.value.toRat := by
  obtain ⟨hvaluation, hview⟩ := Engine.evaluate_eq_ok hr hv hpool
  obtain ⟨hvaluation', merged, hmerged, -⟩ := Report.ofSnapshot_eq_ok hr'
  obtain ⟨-, hfind, -, -, hbounds⟩ := Pool.view_eq_ok hview
  have hland := mergeChanges_singleton_eq_ok.1 hmerged
  have htarget : c.target snapshot.positions = p :=
    Change.target_of_find (by rw [hc.token, ← hfind, hp])
  have hmem : p ∈ snapshot.positions := List.mem_of_find?_eq_some (hfind.symm.trans hp)
  have hexact := hbefore snapshot.positions rfl
  have hquantity : ∀ q ∈ p.quantity?, q.toRat = p.amount := fun q hq ↦
    ((hexact.positions p hmem).resolve_left (by rw [hkind]; decide) q hq).1
  have hmove := hc.move hview hx hrate hp hexp hquantity
  -- both valuations are sums of shares, which differ at the deposit
  have hA := Valuation.availableSetup_eq_sum hvaluation (mergeChanges_nil _) hexact
  have hA' := Valuation.availableSetup_eq_sum hvaluation' hmerged (hafter merged hmerged)
  have hlimit := (TradeBounds.withdraw_le hbounds hx).2
  rw [PriceSource.quote?_filter_isPositive, Pool.weights, hp, Option.map_some, Option.getD_some]
    at hlimit
  have hpos := TradeBounds.available_pos_of_withdrawLimit hx hlimit
  cases hnote : (e.prices market now).quote? pool.depositNote with
  | none =>
    have hsum := Change.sum_setupShare_land_of_unpriced e.settings.policy hland (by rw [hc.token, hnote])
    rw [hA', hsum, ← hA]
    exact iff_of_true hpos.le (by simp)
  | some note =>
    have hsum := Change.sum_setupShare_land e.settings.policy hland (by rw [hc.token, hnote])
      (by rw [htarget, hexp]) (by rw [Change.landed, htarget]; exact hmove)
    have hleft : report'.valuation.availableSetup.value.toRat =
        report.valuation.availableSetup.value.toRat -
          view.bounds.withdraw.value.toRat * (p.modifier.toRat * note.toRat) := by
      rw [hA', hsum, ← hA, htarget, Position.setupFactor, hkind, PositionKind.setupFactor, hc.delta]
      field_simp
      ring
    rw [hleft, sub_nonneg]
    cases hprice : (e.prices market now).quote? pool.token with
    | none => simp
    | some price =>
      rw [hprice] at hlimit hsizing
      have hle := TradeBounds.withdrawal_le hx hlimit hsizing
      rw [hprices price hprice note hnote] at hle
      exact iff_of_true hle (by simp)

end

section

open Sample

/-- With a price for the token the bound is the 70 dollars that are available. -/
theorem project_withdrawal_of_priced_token :
    ∃ report report' view, view ∈ report.pools.views ∧
      engine.evaluate account pricedMarket ⟨0⟩ = .ok report ∧
      engine.project account pricedMarket [⟨pool.depositNote, .deposit, 0, .one, { units := -70 }⟩] ⟨0⟩ =
        .ok report' ∧
      view.bounds.withdraw.value.toRat = 70 ∧ 0 ≤ report'.valuation.availableSetup.value.toRat := by
  obtain ⟨report, hreport, hsized⟩ : ∃ report,
      engine.evaluate account pricedMarket ⟨0⟩ = .ok report ∧
        decide (TradeBounds.WithdrawExact report.valuation.availableSetup.value deposit.modifier
            ((engine.prices pricedMarket ⟨0⟩).quote? pool.token) ∧
          ∃ view ∈ report.pools.views, view.token = pool.token ∧
            view.depositPosition = some deposit ∧ view.bounds.withdraw.value.toRat = 70) = true := by
    apply exists_ok_of_any
    rw [Engine.evaluate, Engine.project, Report.ofSnapshot,
      Valuation.ofPositions_of_sorted rfl (by decide +kernel)]
    decide +kernel
  obtain ⟨report', hreport', -⟩ : ∃ report',
      engine.project account pricedMarket [⟨pool.depositNote, .deposit, 0, .one, { units := -70 }⟩] ⟨0⟩ =
        .ok report' ∧ true = true := by
    apply exists_ok_of_any
    rw [Engine.project, Report.ofSnapshot, Valuation.ofPositions_of_sorted rfl (by decide +kernel)]
    decide +kernel
  obtain ⟨hsizing, view, hview, htoken, hdeposit, hwithdraw⟩ := of_decide_eq_true hsized
  have hpool : pricedMarket.pools.get? view.token = some pool := by
    rw [htoken]
    rfl
  have hbefore : engine.ValuationExact account pricedMarket [] ⟨0⟩ := by
    rintro merged ⟨⟩
    refine .of_sorted ?_ ?_ ?_ ?_ <;> decide +kernel
  have hafter : engine.ValuationExact account pricedMarket
      [⟨pool.depositNote, .deposit, 0, .one, { units := -70 }⟩] ⟨0⟩ := by
    rintro merged ⟨⟩
    refine .of_sorted ?_ ?_ ?_ ?_ <;> decide +kernel
  have hc : IsWithdrawal view pool ⟨pool.depositNote, .deposit, 0, .one, { units := -70 }⟩ :=
    ⟨rfl, by rw [hwithdraw]; norm_num [pool]⟩
  have hiff := project_withdrawal_iff hreport hview hpool (by rw [hwithdraw]; norm_num)
    ExchangeRate.isPar_one hdeposit rfl (by decide) hc (by decide +kernel) hsizing hbefore hafter
    hreport'
  have hpriced : (engine.prices pricedMarket ⟨0⟩).quote? pool.token ≠ none := by decide +kernel
  exact ⟨report, report', view, hview, hreport, hreport', hwithdraw,
    hiff.2 fun _ _ hnone ↦ absurd hnone hpriced⟩

/-- With a price for the notes alone the bound is the whole deposit of 100, of which only 70 dollars
are available: nothing rounds, and a shortfall of 30 is left. -/
theorem shortfall_of_unpriced_token :
    Engine.start .standard = .ok engine ∧
      Snapshot.ofSlots account.account account.owner account.positions none ⟨0⟩ = .ok account ∧
      ∃ report report' view, view ∈ report.pools.views ∧
      engine.evaluate account notesMarket ⟨0⟩ = .ok report ∧
      engine.project account notesMarket [⟨pool.depositNote, .deposit, 0, .one, { units := -100 }⟩] ⟨0⟩ =
        .ok report' ∧
      notesMarket.pools.get? view.token = some pool ∧ view.depositPosition = some deposit ∧
      IsWithdrawal view pool ⟨pool.depositNote, .deposit, 0, .one, { units := -100 }⟩ ∧
      engine.ValuationExact account notesMarket [] ⟨0⟩ ∧
      engine.ValuationExact account notesMarket
        [⟨pool.depositNote, .deposit, 0, .one, { units := -100 }⟩] ⟨0⟩ ∧
      report.valuation.availableSetup.value.toRat = 70 ∧ view.bounds.withdraw.value.toRat = 100 ∧
      report'.valuation.availableSetup.value.toRat = -30 := by
  refine ⟨by decide +kernel, by decide +kernel, ?_⟩
  obtain ⟨report, hreport, hsized⟩ : ∃ report,
      engine.evaluate account notesMarket ⟨0⟩ = .ok report ∧
        decide (report.valuation.availableSetup.value.toRat = 70 ∧
          ∃ view ∈ report.pools.views, view.token = pool.token ∧
            view.depositPosition = some deposit ∧ view.bounds.withdraw.value.toRat = 100) = true := by
    apply exists_ok_of_any
    rw [Engine.evaluate, Engine.project, Report.ofSnapshot,
      Valuation.ofPositions_of_sorted rfl (by decide +kernel)]
    decide +kernel
  obtain ⟨report', hreport', hleft⟩ : ∃ report',
      engine.project account notesMarket [⟨pool.depositNote, .deposit, 0, .one, { units := -100 }⟩] ⟨0⟩ =
        .ok report' ∧ decide (report'.valuation.availableSetup.value.toRat = -30) = true := by
    apply exists_ok_of_any
    rw [Engine.project, Report.ofSnapshot, Valuation.ofPositions_of_sorted rfl (by decide +kernel)]
    decide +kernel
  obtain ⟨havailable, view, hview, htoken, hdeposit, hwithdraw⟩ := of_decide_eq_true hsized
  refine ⟨report, report', view, hview, hreport, hreport', ?_, hdeposit, ⟨rfl, ?_⟩, ?_, ?_, havailable,
    hwithdraw, of_decide_eq_true hleft⟩
  · rw [htoken]
    rfl
  · rw [hwithdraw]
    norm_num [pool]
  · rintro merged ⟨⟩
    refine .of_sorted ?_ ?_ ?_ ?_ <;> decide +kernel
  · rintro merged ⟨⟩
    refine .of_sorted ?_ ?_ ?_ ?_ <;> decide +kernel

end

end MarginAccount
