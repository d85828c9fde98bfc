import MarginAccount.Proofs.Trade.Coverage

/-! # How trade bounds respond

More collateral, more in the vault and more deposited never lower a bound, and more borrowed from the
pool never raises one. A higher price does not raise a bound either, whichever of its operations fail
at one of the prices (`TradeBounds.ofPool_responds`), with one exception: where the demands of a token
at both prices round to one value at two scales, the division of the collateral by them may break a
tie upward at the higher price alone (`TradeBounds.withdraws_more_at_higher_price`). A demand of at
most 64 bits does not do that.
-/

namespace MarginAccount

/-! ## Fuller pools and larger deposits -/

/-- The second pool is the first one, with as much or more in its vault and no more borrowed. -/
structure Pool.LeFull (pool pool' : Pool) : Prop where
  isNative : pool.isNative = pool'.isNative
  decimals : pool.decimals = pool'.decimals
  vaultLiquidity : pool.vaultLiquidity.value.toRat ≤ pool'.vaultLiquidity.value.toRat
  totalBorrowed : pool'.totalBorrowed.value.toRat ≤ pool.totalBorrowed.value.toRat

theorem Pool.LeFull.refl (pool : Pool) : pool.LeFull pool := ⟨rfl, rfl, le_rfl, le_rfl⟩

theorem Pool.LeFull.vault {pool : Pool} {vault' : TokenAmount}
    (h : pool.vaultLiquidity.value ≤ vault'.value) :
    pool.LeFull { pool with vaultLiquidity := vault' } :=
  ⟨rfl, rfl, Decimal.le_iff_toRat.1 h, le_rfl⟩

theorem Pool.LeFull.borrowed {pool : Pool} {borrowed' : TokenAmount}
    (h : pool.totalBorrowed.value ≤ borrowed'.value) :
    Pool.LeFull { pool with totalBorrowed := borrowed' } pool :=
  ⟨rfl, rfl, le_rfl, Decimal.le_iff_toRat.1 h⟩

/-- The second balances are the first ones, with as much or more deposited. -/
structure PoolBalances.LeDeposit (balances balances' : PoolBalances) : Prop where
  deposit : balances.deposit.value.toRat ≤ balances'.deposit.value.toRat
  loan : balances.loan = balances'.loan
  wallet : balances.wallet = balances'.wallet

theorem PoolBalances.LeDeposit.refl (balances : PoolBalances) : balances.LeDeposit balances :=
  ⟨le_rfl, rfl, rfl⟩

theorem PoolBalances.LeDeposit.deposited {balances : PoolBalances} {deposit' : TokenAmount}
    (h : balances.deposit.value ≤ deposit'.value) :
    balances.LeDeposit { balances with deposit := deposit' } :=
  ⟨Decimal.le_iff_toRat.1 h, rfl, rfl⟩

/-- A fuller pool has as much room or more. -/
theorem Pool.LeFull.borrowHeadroom {pool pool' : Pool} {cap : Decimal}
    {headroom headroom' : TokenAmount} (hpool : pool.LeFull pool') (hcap : cap.IsWeight)
    (h : pool.borrowHeadroom cap = .ok headroom) (h' : pool'.borrowHeadroom cap = .ok headroom') :
    headroom.value.toRat ≤ headroom'.value.toRat := by
  refine borrowHeadroom_le_of_shares (mul_le_mul_of_nonneg_right hpool.vaultLiquidity hcap.1)
    (fun rest hrest rest' hrest' ↦ ?_) h h'
  obtain ⟨left, hleft, hweight⟩ := Decimal.exists_one_sub hcap
  rw [Decimal.sub, Decimal.orFault_eq_ok] at hleft
  rw [hleft] at hrest hrest'
  cases hrest
  cases hrest'
  exact mul_le_mul_of_nonneg_right hpool.totalBorrowed hweight.1

namespace TradeBounds

variable {available available' demand price price' fraction weight : Decimal}
  {weights : NoteWeights} {pool pool' : Pool} {balances balances' : PoolBalances}
  {surplus surplus' : Usd} {price? price?' : Option Decimal} {policy : Policy}
  {b b' : TradeBounds} {action : TradeAction}

/-! ## Collateral limits -/

/-- Quotients of one demand never break a tie apart where more collateral is divided. -/
theorem collateralLimit?_mono_of_lt (hlt : available.toRat < available'.toRat) :
    TokenAmount.LimitLe (collateralLimit? available demand) (collateralLimit? available' demand) :=
  collateralLimit?_mono hlt.le le_rfl fun htie ↦ hlt.ne htie.demand

theorem withdrawLimit?_mono_of_lt (hlt : available.toRat < available'.toRat) :
    TokenAmount.LimitLe (withdrawLimit? available weight price?)
      (withdrawLimit? available' weight price?) :=
  withdrawLimit?_mono hlt.le fun ⟨_, _, _, _, htie⟩ ↦ hlt.ne htie.demand

theorem borrowCover?_mono_of_lt (hlt : available.toRat < available'.toRat) :
    TokenAmount.LimitLe (borrowCover? weights fraction available price)
      (borrowCover? weights fraction available' price) := by
  rw [borrowCover?, borrowCover?]
  cases borrowDivisor? weights fraction price with
  | none => exact .zero fun limit hlimit ↦ by cases hlimit; exact TokenAmount.toRat_zero.ge
  | some demand => exact collateralLimit?_mono_of_lt hlt

/-! ## Prices -/

/-- The dollars of collateral that one token of an action takes, where they fit a decimal. -/
def tokenDemand? (weights : NoteWeights) (fraction price : Decimal) : TradeAction → Option Decimal
  | .withdraw | .transfer => weights.deposit.mul? price
  | .borrow | .swap => borrowDivisor? weights fraction price
  | .deposit | .repay | .repayFromDeposit => none

/-- The demands of a token at two prices are of one value, but the division of the collateral by the
second one breaks a tie upward. -/
def PricedApart (weights : NoteWeights) (available fraction price price' : Decimal)
    (action : TradeAction) : Prop :=
  ∃ demand ∈ tokenDemand? weights fraction price action,
    ∃ demand' ∈ tokenDemand? weights fraction price' action,
      Risk.TiesApart available demand' available demand

theorem not_pricedApart
    (h : ∀ demand' ∈ tokenDemand? weights fraction price' action, demand'.isLong = false) :
    ¬PricedApart weights available fraction price price' action := by
  rintro ⟨_, _, demand', hdemand', htie⟩
  have hlong := htie.isLong
  rw [h demand' hdemand'] at hlong
  cases hlong

/-- A demand at a lower price fits a decimal as well and is no larger. -/
theorem exists_mul?_of_price_le {demand' : Decimal} (hweight : 0 ≤ weight.toRat)
    (hprice : 0 ≤ price.toRat) (hle : price.toRat ≤ price'.toRat)
    (h : weight.mul? price' = some demand') :
    ∃ demand, weight.mul? price = some demand ∧ demand.toRat ≤ demand'.toRat := by
  have hmul := mul_le_mul_of_nonneg_left hle hweight
  obtain ⟨demand, hdemand⟩ := Decimal.exists_mul?_of_le hweight hprice hmul h
  exact ⟨demand, hdemand,
    (Decimal.mul?_roundsEven hdemand).mono (Decimal.mul?_roundsEven h) hmul⟩

theorem withdrawLimit?_anti (hweight : 0 ≤ weights.deposit.toRat) (hprice : 0 ≤ price.toRat)
    (hle : price.toRat ≤ price'.toRat)
    (hapart : ¬PricedApart weights available fraction price price' .withdraw) :
    TokenAmount.LimitLe (withdrawLimit? available weights.deposit (some price'))
      (withdrawLimit? available weights.deposit (some price)) := by
  rw [withdrawLimit?]
  cases hdemand' : weights.deposit.mul? price' with
  | none => exact .zero fun _ ↦ withdrawLimit?_nonneg
  | some demand' =>
    obtain ⟨demand, hdemand, hdemand_le⟩ := exists_mul?_of_price_le hweight hprice hle hdemand'
    rw [withdrawLimit?, hdemand]
    exact collateralLimit?_mono le_rfl hdemand_le fun htie ↦
      hapart ⟨demand, hdemand, demand', hdemand', htie⟩

/-- A borrowed token takes a factor of its price, which does not depend on the price. -/
theorem exists_borrowDivisor?_of_price_le {demand' : Decimal} (hdeposit : weights.deposit.toRat ≤ 1)
    (hweight : weights.loan.mul? fraction = some weight) (hpos : 0 < weight.toRat)
    (hprice : 0 ≤ price.toRat) (hle : price.toRat ≤ price'.toRat)
    (h : borrowDivisor? weights fraction price' = some demand') :
    ∃ demand, borrowDivisor? weights fraction price = some demand ∧
      demand.toRat ≤ demand'.toRat := by
  obtain ⟨w, inverse, uncovered, factor, hw, hinverse, huncovered, hfactor, hmul⟩ :=
    borrowDivisor?_eq_some.1 h
  obtain rfl := Option.some.inj (hw.symm.trans hweight)
  have huncovered₀ := uncovered_nonneg hdeposit huncovered
  have hinverse₀ : 0 ≤ inverse.toRat :=
    (Decimal.div?_rounds hinverse).nonneg (div_nonneg Decimal.isWeight_one.1 hpos.le)
  have hfactor₀ : 0 ≤ factor.toRat :=
    (Decimal.add?_roundsEven hfactor).nonneg (add_nonneg huncovered₀ hinverse₀)
  obtain ⟨demand, hdemand, hdemand_le⟩ := exists_mul?_of_price_le hfactor₀ hprice hle hmul
  exact ⟨demand, borrowDivisor?_eq_some.2
    ⟨w, inverse, uncovered, factor, hw, hinverse, huncovered, hfactor, hdemand⟩, hdemand_le⟩

theorem borrowCover?_anti (hdeposit : weights.deposit.toRat ≤ 1)
    (hweight : weights.loan.mul? fraction = some weight) (hpos : 0 < weight.toRat)
    (hprice : 0 ≤ price.toRat) (hle : price.toRat ≤ price'.toRat)
    (hapart : ¬PricedApart weights available fraction price price' .borrow) :
    TokenAmount.LimitLe (borrowCover? weights fraction available price')
      (borrowCover? weights fraction available price) := by
  rw [borrowCover?]
  cases hdemand' : borrowDivisor? weights fraction price' with
  | none => exact .zero fun _ ↦ borrowCover?_nonneg
  | some demand' =>
    obtain ⟨demand, hdemand, hdemand_le⟩ :=
      exists_borrowDivisor?_of_price_le hdeposit hweight hpos hprice hle hdemand'
    rw [borrowCover?, hdemand]
    exact collateralLimit?_mono le_rfl hdemand_le fun htie ↦
      hapart ⟨demand, hdemand, demand', hdemand', htie⟩

/-! ## The bounds of a pool -/

/-- As much may be withdrawn or transferred where there is as much and the limit is as high. -/
theorem withdraw_le_of_leFull (hpool : pool.LeFull pool') (hbalances : balances.LeDeposit balances')
    (hvault : 0 ≤ pool.vaultLiquidity.value.toRat) (hheld : 0 ≤ balances.deposit.value.toRat)
    (hlimit : TokenAmount.LimitLe
      (withdrawLimit? surplus.value weights.deposit (price?.filter (·.isPositive)))
      (withdrawLimit? surplus'.value weights.deposit (price?'.filter (·.isPositive))))
    (h : ofPool pool balances weights surplus price? policy = .ok b)
    (h' : ofPool pool' balances' weights surplus' price?' policy = .ok b') :
    b.withdraw.value.toRat ≤ b'.withdraw.value.toRat ∧
      b.transfer.value.toRat ≤ b'.transfer.value.toRat := by
  obtain ⟨-, -, -, -, -, -, htransfer⟩ := rest_ofPool h
  obtain ⟨-, -, -, -, -, -, htransfer'⟩ := rest_ofPool h'
  have hwithdraw := withdraw_le_of_limitLe hpool.decimals hvault hheld hpool.vaultLiquidity
    hbalances.deposit hlimit h h'
  rw [htransfer, htransfer']
  exact ⟨hwithdraw, hwithdraw⟩

/-- As much may be borrowed or swapped where the pool is as full and the collateral covers as
much. -/
theorem borrow_le_of_leFull (hpool : pool.LeFull pool') (hbalances : balances.LeDeposit balances')
    (hpolicy : policy.check = .ok ())
    (hcover : ∀ price ∈ price?.filter (·.isPositive),
      ∀ weight ∈ weights.loan.mul? policy.setupFraction, 0 < weight.toRat →
        ∃ price' ∈ price?'.filter (·.isPositive), TokenAmount.LimitLe
          (borrowCover? weights policy.setupFraction surplus.value price)
          (borrowCover? weights policy.setupFraction surplus'.value price'))
    (h : ofPool pool balances weights surplus price? policy = .ok b)
    (h' : ofPool pool' balances' weights surplus' price?' policy = .ok b') :
    b.borrow.value.toRat ≤ b'.borrow.value.toRat ∧ b.swap.value.toRat ≤ b'.swap.value.toRat := by
  obtain ⟨hcap, hcap₁⟩ := Policy.utilizationCap_of_check hpolicy
  have hbound := borrow_ofPool h
  have hbound' := borrow_ofPool h'
  simp only [borrowBound, bind_eq_ok, pure_eq_ok] at hbound hbound'
  obtain ⟨headroom, hheadroom, weight, hweight, limit, hlimit, heq⟩ := hbound
  obtain ⟨headroom', hheadroom', weight', hweight', limit', hlimit', heq'⟩ := hbound'
  obtain rfl := Except.ok.inj (hweight.symm.trans hweight')
  have hmul := Decimal.orFault_eq_ok.1 hweight
  have hheadroom₀ := Pool.borrowHeadroom_nonneg hheadroom
  have hlimit_le := borrowLimit_le_of_limitLe hheadroom₀
    (hpool.borrowHeadroom ⟨hcap.le, hcap₁⟩ hheadroom hheadroom') hmul hmul
    (fun price hp hpos ↦ ⟨hpos, hcover price hp weight hmul hpos⟩) hlimit hlimit'
  have hborrow : b.borrow.value.toRat ≤ b'.borrow.value.toRat := by
    rw [← heq, ← heq', hpool.decimals]
    exact Decimal.toRat_truncateTo_mono (borrowLimit_le hheadroom₀ hlimit).1 hlimit_le _
  exact ⟨hborrow, swap_le_of_borrow_le hpool.vaultLiquidity hbalances.deposit hborrow h h'⟩

/-- A bound is as large or larger for a fuller pool and a larger deposit, with as much covered by the
collateral where it sizes the bound. -/
theorem get_le_of_leFull (hpool : pool.LeFull pool') (hbalances : balances.LeDeposit balances')
    (hvault : 0 ≤ pool.vaultLiquidity.value.toRat) (hheld : 0 ≤ balances.deposit.value.toRat)
    (hpolicy : policy.check = .ok ())
    (hlimit : action = .withdraw ∨ action = .transfer → TokenAmount.LimitLe
      (withdrawLimit? surplus.value weights.deposit (price?.filter (·.isPositive)))
      (withdrawLimit? surplus'.value weights.deposit (price?'.filter (·.isPositive))))
    (hcover : action = .borrow ∨ action = .swap → ∀ price ∈ price?.filter (·.isPositive),
      ∀ weight ∈ weights.loan.mul? policy.setupFraction, 0 < weight.toRat →
        ∃ price' ∈ price?'.filter (·.isPositive), TokenAmount.LimitLe
          (borrowCover? weights policy.setupFraction surplus.value price)
          (borrowCover? weights policy.setupFraction surplus'.value price'))
    (h : ofPool pool balances weights surplus price? policy = .ok b)
    (h' : ofPool pool' balances' weights surplus' price?' policy = .ok b') :
    (b.get action).value ≤ (b'.get action).value := by
  obtain ⟨spent, hspent, hdeposit, hrepay, hrepayFromDeposit⟩ := unsized_bounds h
  obtain ⟨spent', hspent', hdeposit', hrepay', hrepayFromDeposit'⟩ := unsized_bounds h'
  rw [spendable, hpool.isNative, hbalances.wallet, ← spendable, hspent', Except.ok.injEq] at hspent
  subst hspent
  rw [Decimal.le_iff_toRat]
  cases action with
  | deposit => rw [get, get, hdeposit, hdeposit']
  | repay => rw [get, get, hrepay, hrepay', hbalances.loan]
  | repayFromDeposit =>
    rw [get, get, hrepayFromDeposit, hrepayFromDeposit', TokenAmount.toRat_min,
      TokenAmount.toRat_min, hbalances.loan]
    exact min_le_min_left _ hbalances.deposit
  | withdraw =>
    exact (withdraw_le_of_leFull hpool hbalances hvault hheld (hlimit (.inl rfl)) h h').1
  | transfer =>
    exact (withdraw_le_of_leFull hpool hbalances hvault hheld (hlimit (.inr rfl)) h h').2
  | borrow => exact (borrow_le_of_leFull hpool hbalances hpolicy (hcover (.inl rfl)) h h').1
  | swap => exact (borrow_le_of_leFull hpool hbalances hpolicy (hcover (.inr rfl)) h h').2

/-- Bounds are in order where only the pool or the deposit differs. -/
theorem get_le_of_stock (hpool : pool.LeFull pool') (hbalances : balances.LeDeposit balances')
    (hvault : 0 ≤ pool.vaultLiquidity.value.toRat) (hheld : 0 ≤ balances.deposit.value.toRat)
    (hpolicy : policy.check = .ok ())
    (h : ofPool pool balances weights surplus price? policy = .ok b)
    (h' : ofPool pool' balances' weights surplus price? policy = .ok b') :
    (b.get action).value ≤ (b'.get action).value :=
  get_le_of_leFull hpool hbalances hvault hheld hpolicy (fun _ ↦ .refl _)
    (fun _ price hp _ _ _ ↦ ⟨price, hp, .refl _⟩) h h'

theorem get_le_of_surplus_lt (hvault : 0 ≤ pool.vaultLiquidity.value.toRat)
    (hheld : 0 ≤ balances.deposit.value.toRat) (hpolicy : policy.check = .ok ())
    (hlt : surplus.value.toRat < surplus'.value.toRat)
    (h : ofPool pool balances weights surplus price? policy = .ok b)
    (h' : ofPool pool balances weights surplus' price? policy = .ok b') :
    (b.get action).value ≤ (b'.get action).value :=
  get_le_of_leFull (.refl pool) (.refl balances) hvault hheld hpolicy
    (fun _ ↦ withdrawLimit?_mono_of_lt hlt)
    (fun _ price hp _ _ _ ↦ ⟨price, hp, borrowCover?_mono_of_lt hlt⟩) h h'

theorem get_le_of_price_le (hvault : 0 ≤ pool.vaultLiquidity.value.toRat)
    (hheld : 0 ≤ balances.deposit.value.toRat) (hdeposit : weights.deposit.IsWeight)
    (hpolicy : policy.check = .ok ()) (hprice : 0 < price.toRat)
    (hle : price.toRat ≤ price'.toRat)
    (hapart : ¬PricedApart weights surplus.value policy.setupFraction price price' action)
    (h : ofPool pool balances weights surplus (some price) policy = .ok b)
    (h' : ofPool pool balances weights surplus (some price') policy = .ok b') :
    (b'.get action).value ≤ (b.get action).value := by
  have hfilter {p : Decimal} (hp : 0 < p.toRat) : (some p).filter (·.isPositive) = some p :=
    (Option.filter_some ..).trans (if_pos (Decimal.isPositive_iff.2 hp))
  have hprice' := hprice.trans_le hle
  refine get_le_of_leFull (.refl pool) (.refl balances) hvault hheld hpolicy (fun haction ↦ ?_)
    (fun haction p hp weight hweight hpos ↦ ?_) h' h
  · have hnot : ¬PricedApart weights surplus.value policy.setupFraction price price' .withdraw := by
      rcases haction with rfl | rfl <;> exact hapart
    rw [hfilter hprice, hfilter hprice']
    exact withdrawLimit?_anti hdeposit.1 hprice.le hle hnot
  · have hnot : ¬PricedApart weights surplus.value policy.setupFraction price price' .borrow := by
      rcases haction with rfl | rfl <;> exact hapart
    rw [hfilter hprice'] at hp
    cases hp
    exact ⟨price, hfilter hprice,
      borrowCover?_anti hdeposit.2 hweight hpos hprice.le hle hnot⟩

/-- How the bounds of a pool compare with those that are returned where one amount is raised. -/
structure Responds (b : TradeBounds) (pool : Pool) (balances : PoolBalances)
    (weights : NoteWeights) (surplus : Usd) (price? : Option Decimal) (policy : Policy) : Prop where
  more_available : ∀ surplus' b', surplus.value < surplus'.value →
    ofPool pool balances weights surplus' price? policy = .ok b' →
      ∀ action, (b.get action).value ≤ (b'.get action).value
  higher_price : ∀ price price' b', price? = some price → 0 < price.toRat → price < price' →
    ofPool pool balances weights surplus (some price') policy = .ok b' →
      ∀ action, ¬PricedApart weights surplus.value policy.setupFraction price price' action →
        (b'.get action).value ≤ (b.get action).value
  fuller_vault : ∀ vault' b', pool.vaultLiquidity.value ≤ vault'.value →
    ofPool { pool with vaultLiquidity := vault' } balances weights surplus price? policy = .ok b' →
      ∀ action, (b.get action).value ≤ (b'.get action).value
  more_borrowed : ∀ borrowed' b', pool.totalBorrowed.value ≤ borrowed'.value →
    ofPool { pool with totalBorrowed := borrowed' } balances weights surplus price? policy = .ok b' →
      ∀ action, (b'.get action).value ≤ (b.get action).value
  more_deposited : ∀ deposit' b', balances.deposit.value ≤ deposit'.value →
    ofPool pool { balances with deposit := deposit' } weights surplus price? policy = .ok b' →
      ∀ action, (b.get action).value ≤ (b'.get action).value

/-- More collateral, a lower price, a fuller vault, less debt of the pool and a larger deposit never take
from the bounds that go by them, unless a tie breaks apart at the two prices. -/
theorem ofPool_responds (hvault : 0 ≤ pool.vaultLiquidity.value.toRat)
    (hheld : 0 ≤ balances.deposit.value.toRat) (hdeposit : weights.deposit.IsWeight)
    (hpolicy : policy.check = .ok ())
    (h : ofPool pool balances weights surplus price? policy = .ok b) :
    b.Responds pool balances weights surplus price? policy where
  more_available _ _ hlt h' _ :=
    get_le_of_surplus_lt hvault hheld hpolicy (Decimal.lt_iff_toRat.1 hlt) h h'
  higher_price price price' b' hp hprice hlt h' action hapart := by
    subst hp
    exact get_le_of_price_le hvault hheld hdeposit hpolicy hprice (Decimal.lt_iff_toRat.1 hlt).le
      hapart h h'
  fuller_vault _ _ hle h' _ :=
    get_le_of_stock (.vault hle) (.refl balances) hvault hheld hpolicy h h'
  more_borrowed _ _ hle h' _ :=
    get_le_of_stock (.borrowed hle) (.refl balances) hvault hheld hpolicy h' h
  more_deposited _ _ hle h' _ :=
    get_le_of_stock (.refl pool) (.deposited hle) hvault hheld hpolicy h h'

/-- With 70 dollars of collateral, 70 tokens may be withdrawn at one dollar each and 35 at two. -/
theorem responds_of_doubled_price :
    ∃ b b', ofPool Sample.pool Sample.holdings ⟨.one, .one⟩ ⟨.lit 70⟩ (some .one) .standard = .ok b ∧
      ofPool Sample.pool Sample.holdings ⟨.one, .one⟩ ⟨.lit 70⟩ (some (.lit 2)) .standard = .ok b' ∧
      b.withdraw.value.toRat = 70 ∧ b'.withdraw.value.toRat = 35 ∧
      b.Responds Sample.pool Sample.holdings ⟨.one, .one⟩ ⟨.lit 70⟩ (some .one) .standard ∧
      ∀ action, (b'.get action).value ≤ (b.get action).value := by
  obtain ⟨b, hb, hwithdraw⟩ : ∃ b, ofPool Sample.pool Sample.holdings ⟨.one, .one⟩ ⟨.lit 70⟩
      (some .one) .standard = .ok b ∧ decide (b.withdraw.value.toRat = 70) = true := by
    apply exists_ok_of_any
    decide +kernel
  obtain ⟨b', hb', hwithdraw'⟩ : ∃ b, ofPool Sample.pool Sample.holdings ⟨.one, .one⟩ ⟨.lit 70⟩
      (some (.lit 2)) .standard = .ok b ∧ decide (b.withdraw.value.toRat = 35) = true := by
    apply exists_ok_of_any
    decide +kernel
  have hresponds := ofPool_responds (by decide +kernel) (by decide +kernel) Decimal.isWeight_one
    (by decide) hb
  have hshort : ∀ action, ∀ demand ∈ tokenDemand? ⟨.one, .one⟩ Policy.standard.setupFraction (.lit 2)
      action, demand.isLong = false := by
    intro action
    cases action <;> decide +kernel
  exact ⟨b, b', hb, hb', of_decide_eq_true hwithdraw, of_decide_eq_true hwithdraw', hresponds,
    fun action ↦ hresponds.higher_price .one (.lit 2) b' rfl (by decide +kernel) (by decide +kernel)
      hb' action (not_pricedApart (hshort action))⟩

/-- The price rises by a unit of the last place and more may be withdrawn: the demand of a token keeps
its value and loses a place, and the collateral divided by it then breaks its tie upward. -/
theorem withdraws_more_at_higher_price :
    ∃ b b', ofPool { Sample.pool with decimals := 28 } ⟨⟨.lit 100⟩, .zero, .zero⟩ ⟨.lit 5 1, .one⟩
        ⟨.lit 12676506002282294014967032100 28⟩ (some (.lit 3199999999999999999999999999 28))
        .standard = .ok b ∧
      ofPool { Sample.pool with decimals := 28 } ⟨⟨.lit 100⟩, .zero, .zero⟩ ⟨.lit 5 1, .one⟩
        ⟨.lit 12676506002282294014967032100 28⟩ (some (.lit 32000000000000000000000000 26))
        .standard = .ok b' ∧
      (Decimal.lit 3199999999999999999999999999 28) < .lit 32000000000000000000000000 26 ∧
      Policy.standard.check = .ok () ∧
      b.withdraw.value = .lit 7922816251426433759354395062 27 ∧
        b'.withdraw.value = .lit 7922816251426433759354395063 27 ∧
      ¬(b'.get .withdraw).value ≤ (b.get .withdraw).value ∧
        ¬(b'.get .transfer).value ≤ (b.get .transfer).value := by
  obtain ⟨b, hb, hfigures⟩ : ∃ b, ofPool { Sample.pool with decimals := 28 }
      ⟨⟨.lit 100⟩, .zero, .zero⟩ ⟨.lit 5 1, .one⟩ ⟨.lit 12676506002282294014967032100 28⟩
      (some (.lit 3199999999999999999999999999 28)) .standard = .ok b ∧
        decide (b.withdraw.value = .lit 7922816251426433759354395062 27 ∧
          b.transfer.value = .lit 7922816251426433759354395062 27) = true := by
    apply exists_ok_of_any
    decide +kernel
  obtain ⟨b', hb', hfigures'⟩ : ∃ b, ofPool { Sample.pool with decimals := 28 }
      ⟨⟨.lit 100⟩, .zero, .zero⟩ ⟨.lit 5 1, .one⟩ ⟨.lit 12676506002282294014967032100 28⟩
      (some (.lit 32000000000000000000000000 26)) .standard = .ok b ∧
        decide (b.withdraw.value = .lit 7922816251426433759354395063 27 ∧
          b.transfer.value = .lit 7922816251426433759354395063 27) = true := by
    apply exists_ok_of_any
    decide +kernel
  obtain ⟨hwithdraw, htransfer⟩ := of_decide_eq_true hfigures
  obtain ⟨hwithdraw', htransfer'⟩ := of_decide_eq_true hfigures'
  refine ⟨b, b', hb, hb', by decide +kernel, by decide, hwithdraw, hwithdraw', ?_, ?_⟩
  · rw [get, get, hwithdraw, hwithdraw']
    decide +kernel
  · rw [get, get, htransfer, htransfer']
    decide +kernel

end TradeBounds

end MarginAccount
