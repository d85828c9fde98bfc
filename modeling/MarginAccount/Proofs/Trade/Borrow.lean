import MarginAccount.Proofs.Account.Projection
import MarginAccount.Proofs.Engine.Report

/-! # Borrowing the whole bound

A borrow enters the account as two changes, the deposit notes of the tokens and as many loan notes.
What the pair takes of the collateral for setting up trades is what the bound was sized with, so the
whole bound leaves a shortfall of no more than the rounding of the one quotient that it is
(`project_borrow_covered`).
-/

namespace MarginAccount

/-- The change enters an amount of notes, of some places, at a weight. -/
structure Change.Enters (c : Change) (note : TokenId) (kind : PositionKind) (weight : Decimal)
    (amount : ℚ) (places : ℕ) : Prop where
  token : c.token = note
  kind : c.kind = kind
  exponent : c.exponent.toInt = -(places : ℤ)
  modifier : c.modifier.toRat = weight.toRat
  delta : (c.delta.units : ℚ) = amount * 10 ^ places

section

variable {note : TokenId} {kind : PositionKind} {weight price : Decimal} {amount : ℚ} {n : ℕ}
  {c : Change} {positions positions' : List Position} {prices : PriceSource}

namespace Change.Enters

/-- Where notes are held, they have the places and the weight of the change. -/
theorem target_parts (hc : c.Enters note kind weight amount n)
    (hheld : ∀ p ∈ findPosition? positions note,
      p.exponent.toInt = -(n : ℤ) ∧ p.modifier.toRat = weight.toRat) :
    (c.target positions).exponent.toInt = -(n : ℤ) ∧
      (c.target positions).modifier.toRat = weight.toRat := by
  cases h : findPosition? positions c.token with
  | none =>
    rw [target_of_not_find h]
    exact ⟨hc.exponent, hc.modifier⟩
  | some p =>
    rw [target_of_find h]
    rw [hc.token] at h
    exact hheld p h

/-- Entered notes add their value times the factor of their kind. -/
theorem sum_setupShare (hc : c.Enters note kind weight amount n) (policy : Policy)
    (hland : c.land positions = .ok positions') (hprice : prices.quote? note = some price)
    (hheld : ∀ p ∈ findPosition? positions note,
      p.exponent.toInt = -(n : ℤ) ∧ p.modifier.toRat = weight.toRat)
    (hamount : 0 ≤ amount) (hquantity : ∃ q, (c.landed positions).quantity? = some q) :
    (positions'.map (·.setupShare prices policy)).sum =
      (positions.map (·.setupShare prices policy)).sum +
        amount * price.toRat * kind.setupFactor weight.toRat policy.setupFraction.toRat := by
  obtain ⟨hexponent, hmodifier⟩ := hc.target_parts hheld
  obtain ⟨q, hq⟩ := hquantity
  have hdelta : 0 ≤ c.delta.units := by
    have : (0 : ℚ) ≤ c.delta.units := by
      rw [hc.delta]
      positivity
    exact_mod_cast this
  have hkind : (c.target positions).kind = kind := (target_kind hland).trans hc.kind
  rw [sum_setupShare_land policy hland (by rw [hc.token, hprice]) hexponent
    (landed_units_of_quantity hdelta hq), Position.setupFactor, hkind, hmodifier, hc.delta]
  field_simp

end Change.Enters

end

/-- The changes enter the whole bound of a borrow: the notes deposited and the notes owed, at the
weights that the bound was sized with. -/
structure IsBorrow (view : PoolView) (pool : Pool) (deposit loan : Change) : Prop where
  deposit : deposit.Enters pool.depositNote .deposit
    (pool.weights view.depositPosition view.loanPosition).deposit view.bounds.borrow.value.toRat
    pool.decimals
  loan : loan.Enters pool.loanNote .claim
    (pool.weights view.depositPosition view.loanPosition).loan view.bounds.borrow.value.toRat
    pool.decimals

section

variable {e : Engine} {snapshot : Snapshot} {market : Market} {now : Timestamp}
  {report report' : Report} {view : PoolView} {pool : Pool} {deposit loan : Change}
  {price depositPrice loanPrice : Decimal} {positions landed merged : List Position}

/-- The second change of a borrow lands where it would have landed first: the notes differ, for a
deposit does not land on a claim. -/
theorem IsBorrow.loan_target (h : IsBorrow view pool deposit loan)
    (hdeposit : deposit.land positions = .ok landed) (hloan : loan.land landed = .ok merged) :
    loan.token ≠ deposit.token ∧ findPosition? landed loan.token = findPosition? positions loan.token := by
  have hne : loan.token ≠ deposit.token := by
    intro heq
    have hfound := Change.findPosition?_land_self hdeposit
    rw [← heq] at hfound
    have hkind := Change.target_kind hloan
    rw [Change.target_of_find hfound, h.loan.kind] at hkind
    have hkind' := (Change.target_kind hdeposit).trans h.deposit.kind
    change (deposit.target positions).kind = .claim at hkind
    rw [hkind'] at hkind
    cases hkind
  exact ⟨hne, Change.findPosition?_land hdeposit hne⟩

/-- Borrowing the whole bound leaves a shortfall of at most the rounding of the bound, and none if
the bound is not rounded. -/
theorem project_borrow_covered (hr : e.evaluate snapshot market now = .ok report)
    (hv : view ∈ report.pools.views) (hpool : market.pools.get? view.token = some pool)
    (hx : 0 < view.bounds.borrow.value.toRat)
    (hprice : (e.prices market now).quote? pool.token = some price)
    (hdepositPrice : (e.prices market now).quote? pool.depositNote = some depositPrice)
    (hloanPrice : (e.prices market now).quote? pool.loanNote = some loanPrice)
    (hdepositEq : depositPrice.toRat = price.toRat) (hloanEq : loanPrice.toRat = price.toRat)
    (hdeposit : ∀ p ∈ view.depositPosition, p.exponent.toInt = -(pool.decimals : ℤ))
    (hloan : ∀ p ∈ view.loanPosition, p.exponent.toInt = -(pool.decimals : ℤ))
    (hc : IsBorrow view pool deposit loan)
    (hsizing : TradeBounds.BorrowExact (pool.weights view.depositPosition view.loanPosition)
      e.settings.policy.setupFraction price)
    (hbefore : e.ValuationExact snapshot market [] now)
    (hafter : e.ValuationExact snapshot market [deposit, loan] now)
    (hr' : e.project snapshot market [deposit, loan] now = .ok report') :
    -(1 / 10 ^ 28 * max 1 view.bounds.borrow.value.toRat *
        TradeBounds.exactDemand (pool.weights view.depositPosition view.loanPosition)
          e.settings.policy.setupFraction.toRat price.toRat) ≤
        report'.valuation.availableSetup.value.toRat ∧
      ((∀ demand ∈ TradeBounds.borrowDivisor?
            (pool.weights view.depositPosition view.loanPosition)
            e.settings.policy.setupFraction price,
          report.valuation.availableSetup.value.DivExact demand) →
        0 ≤ report'.valuation.availableSetup.value.toRat) := by
  obtain ⟨hvaluation, hview⟩ := Engine.evaluate_eq_ok hr hv hpool
  obtain ⟨hvaluation', merged, hmerged, -⟩ := Report.ofSnapshot_eq_ok hr'
  obtain ⟨-, hfindDeposit, hfindLoan, -, hbounds⟩ := Pool.view_eq_ok hview
  rw [mergeChanges_cons_eq_ok] at hmerged
  obtain ⟨landed, hlandDeposit, hlandLoan'⟩ := hmerged
  have hlandLoan := mergeChanges_singleton_eq_ok.1 hlandLoan'
  have hmerged := mergeChanges_cons_eq_ok.2 ⟨landed, hlandDeposit, hlandLoan'⟩
  obtain ⟨hne, hfindLoan'⟩ := hc.loan_target hlandDeposit hlandLoan
  -- both landed positions are valued at the end, so their balances have not been cut
  have hquantity : ∀ p ∈ merged, p.kind ≠ .noValue → ∃ q, p.quantity? = some q :=
    fun p hp hk ↦ Valuation.exists_quantity hvaluation' hmerged hp hk
  have hdepositMem : deposit.landed snapshot.positions ∈ merged := by
    have hfound := Change.findPosition?_land_self hlandDeposit
    rw [← Change.findPosition?_land hlandLoan hne.symm] at hfound
    exact List.mem_of_find?_eq_some hfound
  have hdepositKind : (deposit.landed snapshot.positions).kind = .deposit :=
    (Change.target_kind hlandDeposit).trans hc.deposit.kind
  have hloanKind : (loan.landed landed).kind = .claim :=
    (Change.target_kind hlandLoan).trans hc.loan.kind
  -- the pair moves the sum of the shares by what the bound was sized with
  have hsumDeposit := hc.deposit.sum_setupShare e.settings.policy hlandDeposit hdepositPrice
    (fun p hp ↦ ⟨hdeposit p (hfindDeposit.trans hp), by
      rw [Pool.weights, hfindDeposit, hp, Option.map_some, Option.getD_some]⟩) hx.le
    (hquantity _ hdepositMem (by rw [hdepositKind]; decide))
  have hsumLoan := hc.loan.sum_setupShare e.settings.policy hlandLoan hloanPrice
    (fun p hp ↦ by
      rw [← hc.loan.token, hfindLoan', hc.loan.token] at hp
      refine ⟨hloan p (hfindLoan.trans hp), ?_⟩
      rw [Pool.weights, hfindLoan, hp, Option.map_some, Option.getD_some]) hx.le
    (hquantity _ (Change.landed_mem hlandLoan) (by rw [hloanKind]; decide))
  have hA := Valuation.availableSetup_eq_sum hvaluation (mergeChanges_nil _) (hbefore _ rfl)
  have hA' := Valuation.availableSetup_eq_sum hvaluation' hmerged (hafter _ hmerged)
  obtain ⟨price', demand, hprice', hdemand, hlimit⟩ := TradeBounds.borrow_le hbounds hx
  rw [hprice, Option.some.injEq] at hprice'
  subst hprice'
  have hdemandEq := TradeBounds.toRat_borrowDivisor? hdemand hsizing
  have hleft : report'.valuation.availableSetup.value.toRat =
      report.valuation.availableSetup.value.toRat -
        view.bounds.borrow.value.toRat * demand.toRat := by
    rw [hA', hsumLoan, hsumDeposit, ← hA, hdepositEq, hloanEq, hdemandEq, TradeBounds.exactDemand,
      PositionKind.setupFactor, PositionKind.setupFactor]
    ring
  rw [← hdemandEq, hleft]
  refine ⟨?_, fun hexact ↦ ?_⟩
  · have := TradeBounds.limited_le hx hlimit
    linarith
  · exact sub_nonneg.2 (TradeBounds.limited_le_of_exact hx hlimit (hexact demand hdemand))

end

section

open Sample

/-- A borrowed dollar takes two, so the bound is half of the 70 dollars that are available. -/
theorem project_borrow_of_half_available :
    ∃ report report' view, view ∈ report.pools.views ∧
      engine.evaluate account pricedMarket ⟨0⟩ = .ok report ∧
      engine.project account pricedMarket
        [⟨pool.depositNote, .deposit, 0, .one, { units := 35 }⟩,
          ⟨pool.loanNote, .claim, 0, .one, { units := 35 }⟩] ⟨0⟩ = .ok report' ∧
      view.bounds.borrow.value.toRat = 35 ∧ 0 ≤ report'.valuation.availableSetup.value.toRat := by
  obtain ⟨report, hreport, hsized⟩ : ∃ report,
      engine.evaluate account pricedMarket ⟨0⟩ = .ok report ∧
        decide ((∀ demand ∈ TradeBounds.borrowDivisor? (pool.weights (some deposit) (some loan))
            engine.settings.policy.setupFraction .one,
            report.valuation.availableSetup.value.DivExact demand) ∧
          ∃ view ∈ report.pools.views, view.token = pool.token ∧
            view.depositPosition = some deposit ∧ view.loanPosition = some loan ∧
            view.bounds.borrow.value.toRat = 35) = true := by
    apply exists_ok_of_any
    rw [Engine.evaluate, Engine.project, Report.ofSnapshot,
      Valuation.ofPositions_of_sorted rfl (by decide +kernel)]
    decide +kernel
  obtain ⟨report', hreport', -⟩ : ∃ report',
      engine.project account pricedMarket
        [⟨pool.depositNote, .deposit, 0, .one, { units := 35 }⟩,
          ⟨pool.loanNote, .claim, 0, .one, { units := 35 }⟩] ⟨0⟩ = .ok report' ∧ true = true := by
    apply exists_ok_of_any
    rw [Engine.project, Report.ofSnapshot, Valuation.ofPositions_of_sorted rfl (by decide +kernel)]
    decide +kernel
  obtain ⟨hdivision, view, hview, htoken, hdeposit, hloan, hborrow⟩ := of_decide_eq_true hsized
  have hpool : pricedMarket.pools.get? view.token = some pool := by
    rw [htoken]
    rfl
  have hbefore : engine.ValuationExact account pricedMarket [] ⟨0⟩ := by
    rintro merged ⟨⟩
    refine .of_sorted ?_ ?_ ?_ ?_ <;> decide +kernel
  have hafter : engine.ValuationExact account pricedMarket
      [⟨pool.depositNote, .deposit, 0, .one, { units := 35 }⟩,
        ⟨pool.loanNote, .claim, 0, .one, { units := 35 }⟩] ⟨0⟩ := by
    rintro merged ⟨⟩
    refine .of_sorted ?_ ?_ ?_ ?_ <;> decide +kernel
  have hc : IsBorrow view pool ⟨pool.depositNote, .deposit, 0, .one, { units := 35 }⟩
      ⟨pool.loanNote, .claim, 0, .one, { units := 35 }⟩ := by
    refine ⟨⟨rfl, rfl, by decide, ?_, ?_⟩, ⟨rfl, rfl, by decide, ?_, ?_⟩⟩
    · rw [hdeposit, hloan]
      rfl
    · rw [hborrow]
      norm_num [pool]
    · rw [hdeposit, hloan]
      rfl
    · rw [hborrow]
      norm_num [pool]
  rw [← hdeposit, ← hloan] at hdivision
  have hprice : ∀ token ∈ [pool.token, pool.depositNote, pool.loanNote],
      (engine.prices pricedMarket ⟨0⟩).quote? token = some .one := by decide +kernel
  have hcovered := project_borrow_covered hreport hview hpool (by rw [hborrow]; norm_num)
    (hprice _ (by simp)) (hprice _ (by simp)) (hprice _ (by simp)) rfl rfl
    (by rw [hdeposit]; decide +kernel) (by rw [hloan]; decide +kernel) hc
    (by rw [hdeposit, hloan]; decide +kernel) hbefore hafter hreport'
  exact ⟨report, report', view, hview, hreport, hreport', hborrow, hcovered.2 hdivision⟩

end

end MarginAccount
