import MarginAccount.Proofs.Engine.Report
import MarginAccount.Proofs.Trade.Tightening

/-! # What there is to trade

No action is bounded by more than there is: of the wallet, of the deposit, of the loan, of the vault
and of the pool's room for borrows, and none by less than zero. Rounding does not change that, since
it keeps the order to every decimal and places are only cut (`TradeBounds.ofPool_isCovered`). The
collateral is another matter: the quotient that sizes a bound may be rounded up, so a bound may take
more than there is by the rounding of that quotient, and by no more (`TradeBounds.sized_le`).
-/

namespace MarginAccount

/-- The notes of the account in tokens, and five more tokens in its wallet. -/
def Sample.holdings : PoolBalances := ⟨⟨.lit 100⟩, ⟨.lit 10⟩, ⟨.lit 5⟩⟩

namespace TradeBounds

variable {pool : Pool} {balances : PoolBalances} {weights : NoteWeights} {surplus : Usd}
  {price : Decimal} {price? : Option Decimal} {policy : Policy} {b : TradeBounds}
  {wallet spent headroom borrow : TokenAmount}

/-! ## Shares of what there is -/

/-- The part of the wallet that trades may use is a part of it. -/
theorem spendable_le (hwallet : 0 ≤ wallet.value.toRat)
    (h : spendable pool wallet policy = .ok spent) :
    0 ≤ spent.value.toRat ∧ spent.value.toRat ≤ wallet.value.toRat := by
  rw [spendable] at h
  split at h
  · obtain ⟨rest, hrest, rfl⟩ := TokenAmount.saturatingSub_eq_ok.1 h
    have hbuffer := TokenAmount.clamped_nonneg policy.feeBuffer
    have hle := (Decimal.sub?_roundsEven hrest).rounds.le_of_le (sub_le_self _ hbuffer)
    refine ⟨TokenAmount.clamped_nonneg rest, ?_⟩
    rw [TokenAmount.toRat_clamped]
    exact max_le hle hwallet
  · cases h
    exact ⟨hwallet, le_rfl⟩

/-- A withdrawal leaves nothing missing, in the deposit or in the vault. -/
theorem withdraw_le_stock (hvault : 0 ≤ pool.vaultLiquidity.value.toRat)
    (hdeposit : 0 ≤ balances.deposit.value.toRat)
    (h : ofPool pool balances weights surplus price? policy = .ok b) :
    0 ≤ b.withdraw.value.toRat ∧ b.withdraw.value.toRat ≤ balances.deposit.value.toRat ∧
      b.withdraw.value.toRat ≤ pool.vaultLiquidity.value.toRat := by
  have hlimited := TokenAmount.within_nonneg (TokenAmount.min_nonneg hdeposit hvault)
    fun limit (hlimit : limit ∈ withdrawLimit? surplus.value weights.deposit
      (price?.filter (·.isPositive))) ↦ withdrawLimit?_nonneg hlimit
  rw [withdraw_eq_within h]
  refine ⟨TokenAmount.roundDown_nonneg hlimited _, le_min_iff.1 ?_⟩
  rw [← TokenAmount.toRat_min]
  exact (TokenAmount.roundDown_le_of_nonneg hlimited _).trans (TokenAmount.within_le ..)

/-- Without collateral nothing is withdrawn and nothing is borrowed. -/
theorem withdraw_eq_zero_of_shortfall (hwithdraw : 0 ≤ b.withdraw.value.toRat)
    (h : ofPool pool balances weights surplus price? policy = .ok b)
    (hsurplus : surplus.value.toRat ≤ 0) : b.withdraw.value.toRat = 0 := by
  refine le_antisymm (not_lt.1 fun hpos ↦ ?_) hwithdraw
  exact absurd (available_pos_of_withdrawLimit hpos (withdraw_le h hpos).2) (not_lt.2 hsurplus)

theorem borrow_eq_zero_of_shortfall
    (h : ofPool pool balances weights surplus price? policy = .ok b)
    (hsurplus : surplus.value.toRat ≤ 0) : b.borrow.value.toRat = 0 := by
  refine le_antisymm (not_lt.1 fun hpos ↦ ?_) (borrowBound_le_headroom (borrow_ofPool h)).1
  obtain ⟨price, demand, -, -, hlimit⟩ := borrow_le h hpos
  exact absurd (available_pos_of_limit hpos hlimit) (not_lt.2 hsurplus)

/-! ## All bounds -/

/-- The bounds that no collateral sizes are what there is of the wallet, the loan and the deposit. -/
theorem unsized_bounds (h : ofPool pool balances weights surplus price? policy = .ok b) :
    ∃ spent, spendable pool balances.wallet policy = .ok spent ∧ b.deposit = spent ∧
      b.repay = balances.loan.min spent ∧
      b.repayFromDeposit = balances.loan.min balances.deposit := by
  obtain ⟨spent, -, hspent, -, hunsized, -⟩ := rest_ofPool h
  exact ⟨spent, hspent, congrArg TradeBounds.deposit hunsized, congrArg TradeBounds.repay hunsized,
    congrArg TradeBounds.repayFromDeposit hunsized⟩

theorem get_nonneg (hvault : 0 ≤ pool.vaultLiquidity.value.toRat)
    (hdeposit : 0 ≤ balances.deposit.value.toRat) (hloan : 0 ≤ balances.loan.value.toRat)
    (hwallet : 0 ≤ balances.wallet.value.toRat)
    (h : ofPool pool balances weights surplus price? policy = .ok b) (action : TradeAction) :
    0 ≤ (b.get action).value.toRat := by
  obtain ⟨spent, hspent, hdepositBound, hrepay, hrepayFromDeposit⟩ := unsized_bounds h
  obtain ⟨-, after, -, hafter, -, hswap, htransfer⟩ := rest_ofPool h
  have hspent₀ := (spendable_le hwallet hspent).1
  have hwithdraw₀ := (withdraw_le_stock hvault hdeposit h).1
  have hborrow₀ := (borrowBound_le_headroom (borrow_ofPool h)).1
  cases action with
  | deposit => rwa [get, hdepositBound]
  | withdraw => exact hwithdraw₀
  | borrow => exact hborrow₀
  | repay =>
    rw [get, hrepay]
    exact TokenAmount.min_nonneg hloan hspent₀
  | repayFromDeposit =>
    rw [get, hrepayFromDeposit]
    exact TokenAmount.min_nonneg hloan hdeposit
  | swap =>
    obtain ⟨sum, hsum, rfl⟩ := TokenAmount.add_eq_ok.1 hafter
    have hsum₀ := (Decimal.add?_roundsEven hsum).nonneg (add_nonneg hdeposit hborrow₀)
    rw [get, hswap]
    exact TokenAmount.min_nonneg hsum₀ hvault
  | transfer => rwa [get, htransfer]

/-- No bound is below zero or above what there is. The room for borrows is `headroom`. -/
structure IsCovered (b : TradeBounds) (pool : Pool) (balances : PoolBalances)
    (headroom : TokenAmount) : Prop where
  nonneg : ∀ action, 0 ≤ (b.get action).value.toRat
  deposit_le_wallet : b.deposit.value.toRat ≤ balances.wallet.value.toRat
  withdraw_le_deposit : b.withdraw.value.toRat ≤ balances.deposit.value.toRat
  withdraw_le_vault : b.withdraw.value.toRat ≤ pool.vaultLiquidity.value.toRat
  transfer_eq_withdraw : b.transfer = b.withdraw
  borrow_le_headroom : b.borrow.value.toRat ≤ headroom.value.toRat
  headroom_le_vault : headroom.value.toRat ≤ pool.vaultLiquidity.value.toRat
  repay_le_loan : b.repay.value.toRat ≤ balances.loan.value.toRat
  repay_le_wallet : b.repay.value.toRat ≤ balances.wallet.value.toRat
  repayFromDeposit_le_loan : b.repayFromDeposit.value.toRat ≤ balances.loan.value.toRat
  repayFromDeposit_le_deposit : b.repayFromDeposit.value.toRat ≤ balances.deposit.value.toRat
  swap_le_vault : b.swap.value.toRat ≤ pool.vaultLiquidity.value.toRat

theorem ofPool_isCovered (hvault : 0 ≤ pool.vaultLiquidity.value.toRat)
    (hborrowed : 0 ≤ pool.totalBorrowed.value.toRat) (hdeposit : 0 ≤ balances.deposit.value.toRat)
    (hloan : 0 ≤ balances.loan.value.toRat) (hwallet : 0 ≤ balances.wallet.value.toRat)
    (hpolicy : policy.check = .ok ())
    (h : ofPool pool balances weights surplus price? policy = .ok b) :
    (∃ headroom, pool.borrowHeadroom policy.utilizationCap = .ok headroom ∧
      b.IsCovered pool balances headroom) ∧
      (surplus.value.toRat ≤ 0 → b.withdraw.value.toRat = 0 ∧ b.borrow.value.toRat = 0) := by
  obtain ⟨hcap, hcap₁⟩ := Policy.utilizationCap_of_check hpolicy
  obtain ⟨spent, hspent, hdepositBound, hrepay, hrepayFromDeposit⟩ := unsized_bounds h
  obtain ⟨-, after, -, -, -, hswap, htransfer⟩ := rest_ofPool h
  obtain ⟨-, hspent_le⟩ := spendable_le hwallet hspent
  obtain ⟨hwithdraw₀, hwithdraw_deposit, hwithdraw_vault⟩ := withdraw_le_stock hvault hdeposit h
  obtain ⟨-, headroom, hheadroom, hborrow_le⟩ := borrowBound_le_headroom (borrow_ofPool h)
  have hcovered : b.IsCovered pool balances headroom := {
    nonneg := get_nonneg hvault hdeposit hloan hwallet h
    deposit_le_wallet := by rwa [hdepositBound]
    withdraw_le_deposit := hwithdraw_deposit
    withdraw_le_vault := hwithdraw_vault
    transfer_eq_withdraw := htransfer
    borrow_le_headroom := hborrow_le
    headroom_le_vault := Pool.borrowHeadroom_le hvault hborrowed ⟨hcap.le, hcap₁⟩ hheadroom
    repay_le_loan := by
      rw [hrepay]
      exact TokenAmount.toRat_min_le_left ..
    repay_le_wallet := by
      rw [hrepay]
      exact (TokenAmount.toRat_min_le_right ..).trans hspent_le
    repayFromDeposit_le_loan := by
      rw [hrepayFromDeposit]
      exact TokenAmount.toRat_min_le_left ..
    repayFromDeposit_le_deposit := by
      rw [hrepayFromDeposit]
      exact TokenAmount.toRat_min_le_right ..
    swap_le_vault := by
      rw [hswap]
      exact TokenAmount.toRat_min_le_right .. }
  exact ⟨⟨headroom, hheadroom, hcovered⟩, fun hsurplus ↦
    ⟨withdraw_eq_zero_of_shortfall hwithdraw₀ h hsurplus, borrow_eq_zero_of_shortfall h hsurplus⟩⟩

/-- With 70 dollars of collateral, 70 of the 100 deposited tokens may be withdrawn, and half as many
borrowed. -/
theorem isCovered_of_seventy_dollars :
    ∃ b headroom, ofPool Sample.pool Sample.holdings ⟨.one, .one⟩ ⟨.lit 70⟩ (some .one) .standard =
        .ok b ∧
      b.withdraw.value.toRat = 70 ∧ b.borrow.value.toRat = 35 ∧
      Sample.pool.borrowHeadroom Policy.standard.utilizationCap = .ok headroom ∧
      b.IsCovered Sample.pool Sample.holdings headroom := by
  obtain ⟨b, hb, hsized⟩ : ∃ b, ofPool Sample.pool Sample.holdings ⟨.one, .one⟩ ⟨.lit 70⟩
      (some .one) .standard = .ok b ∧
        decide (b.withdraw.value.toRat = 70 ∧ b.borrow.value.toRat = 35) = true := by
    apply exists_ok_of_any
    decide +kernel
  obtain ⟨hwithdraw, hborrow⟩ := of_decide_eq_true hsized
  obtain ⟨⟨headroom, hheadroom, hcovered⟩, -⟩ := ofPool_isCovered (by decide +kernel)
    (by decide +kernel) (by decide +kernel) (by decide +kernel) (by decide +kernel) (by decide) hb
  exact ⟨b, headroom, hb, hwithdraw, hborrow, hheadroom, hcovered⟩

/-! ## Collateral -/

/-- What is withdrawn or borrowed takes no more collateral than there is, up to one part in `10 ^ 28`
of it or of what one token takes. -/
theorem sized_le (h : ofPool pool balances weights surplus (some price) policy = .ok b)
    (hdeposit : 0 ≤ weights.deposit.toRat) (hsurplus : 0 < surplus.value.toRat)
    (hprice : 0 < price.toRat) :
    (∀ demand, weights.deposit.mul? price = some demand →
      (b.withdraw.value.toRat - 1 / 10 ^ 28 * max 1 b.withdraw.value.toRat) * demand.toRat ≤
        surplus.value.toRat) ∧
    (0 < b.borrow.value.toRat → ∃ demand,
      borrowDivisor? weights policy.setupFraction price = some demand ∧
      (b.borrow.value.toRat - 1 / 10 ^ 28 * max 1 b.borrow.value.toRat) * demand.toRat ≤
        surplus.value.toRat) := by
  refine ⟨fun demand hdemand ↦ ?_, fun hborrow ↦ ?_⟩
  · rcases le_or_gt b.withdraw.value.toRat 0 with hnone | hpos
    · have hdemand₀ : 0 ≤ demand.toRat :=
        (Decimal.mul?_roundsEven hdemand).nonneg (mul_nonneg hdeposit hprice.le)
      have hslack : 0 ≤ 1 / 10 ^ 28 * max 1 b.withdraw.value.toRat := by positivity
      exact (mul_nonpos_of_nonpos_of_nonneg (by linarith) hdemand₀).trans hsurplus.le
    · have hlimit := (withdraw_le h hpos).2
      rw [Option.filter_some, if_pos (Decimal.isPositive_iff.2 hprice), withdrawLimit?, hdemand]
        at hlimit
      exact limited_le hpos hlimit
  · obtain ⟨price', demand, hprice', hdemand, hlimit⟩ := borrow_le h hborrow
    cases hprice'
    exact ⟨demand, hdemand, limited_le hborrow hlimit⟩

/-- A third of twenty dollars is rounded up at the 28th place, so the withdrawal takes more than there
is, but not by more than one part in `10 ^ 28`. -/
theorem sized_le_of_third :
    ∃ b, ofPool { Sample.pool with decimals := 28 } Sample.holdings ⟨.one, .one⟩ ⟨.lit 20⟩
        (some (.lit 3)) .standard = .ok b ∧
      20 < b.withdraw.value.toRat * 3 ∧
      (b.withdraw.value.toRat - 1 / 10 ^ 28 * max 1 b.withdraw.value.toRat) * 3 ≤ 20 ∧
      (b.borrow.value.toRat - 1 / 10 ^ 28 * max 1 b.borrow.value.toRat) * 6 ≤ 20 := by
  obtain ⟨b, hb, hsized⟩ : ∃ b, ofPool { Sample.pool with decimals := 28 } Sample.holdings
      ⟨.one, .one⟩ ⟨.lit 20⟩ (some (.lit 3)) .standard = .ok b ∧
        decide (20 < b.withdraw.value.toRat * 3 ∧ 0 < b.borrow.value.toRat) = true := by
    apply exists_ok_of_any
    decide +kernel
  obtain ⟨hlarge, hpos⟩ := of_decide_eq_true hsized
  obtain ⟨hwithdraw, hborrow⟩ := sized_le hb (by decide +kernel) (by decide +kernel)
    (by decide +kernel)
  have hwithdraw := hwithdraw (.lit 3) (by decide +kernel)
  obtain ⟨demand, hdemand, hborrow⟩ := hborrow hpos
  have hthree : (Decimal.lit 3).toRat = 3 := by decide +kernel
  have htwenty : (Decimal.lit 20).toRat = 20 := by decide +kernel
  have hsix : ∀ demand ∈ borrowDivisor? ⟨.one, .one⟩ Policy.standard.setupFraction (.lit 3),
      demand.toRat = 6 := by decide +kernel
  rw [hthree, htwenty] at hwithdraw
  rw [hsix demand hdemand, htwenty] at hborrow
  exact ⟨b, hb, hlarge, hwithdraw, hborrow⟩

end TradeBounds

end MarginAccount
