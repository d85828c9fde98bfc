import MarginAccount.Proofs.Account.Tightening
import MarginAccount.Proofs.Trade.Overflow

/-! # Trade bounds with less for new trades

A bound is the least of what there is and of what the collateral covers, cut to the places of the
token. With less collateral available, a higher demand for each token and less room in the pool every
bound is as much as before or less (`TradeBounds.get_le_of_tighter`). The exceptions are divisions of
one ratio that break their tie apart, and a demand that is only expressed with the larger inverse
weight, because a deposit weight far above one takes it past the last decimal below zero.
-/

namespace MarginAccount

/-! ## Limits -/

namespace TokenAmount

variable {a a' : TokenAmount} {limit? limit?' : Option TokenAmount}

/-- The amount or the limit, if there is one, whichever is less. -/
def within (a : TokenAmount) (limit? : Option TokenAmount) : TokenAmount := a.min (limit?.getD a)

theorem within_none (a : TokenAmount) : a.within none = a := by
  rw [within, Option.getD_none, min, ite_self]

theorem within_le (a : TokenAmount) (limit? : Option TokenAmount) :
    (a.within limit?).value.toRat ≤ a.value.toRat :=
  toRat_min_le_left ..

/-- The first limit is as much as the second or less, where none is no limit. -/
def LimitLe (limit? limit?' : Option TokenAmount) : Prop :=
  ∀ limit' ∈ limit?', ∃ limit ∈ limit?, limit.value.toRat ≤ limit'.value.toRat

theorem LimitLe.refl (limit? : Option TokenAmount) : LimitLe limit? limit? :=
  fun limit hlimit ↦ ⟨limit, hlimit, le_rfl⟩

theorem LimitLe.zero (h : ∀ limit' ∈ limit?', 0 ≤ limit'.value.toRat) :
    LimitLe (some .zero) limit?' :=
  fun limit' hlimit' ↦ ⟨.zero, rfl, toRat_zero.le.trans (h limit' hlimit')⟩

theorem LimitLe.within (h : LimitLe limit? limit?') (hle : a.value.toRat ≤ a'.value.toRat) :
    (a.within limit?).value.toRat ≤ (a'.within limit?').value.toRat := by
  cases limit?' with
  | none =>
    rw [within_none]
    exact (a.within_le limit?).trans hle
  | some limit' =>
    obtain ⟨limit, hlimit, hle'⟩ := h limit' rfl
    rw [TokenAmount.within, TokenAmount.within, hlimit, toRat_min, toRat_min, Option.getD_some,
      Option.getD_some]
    exact min_le_min hle hle'

theorem within_nonneg (ha : 0 ≤ a.value.toRat)
    (hlimit : ∀ limit ∈ limit?, 0 ≤ limit.value.toRat) : 0 ≤ (a.within limit?).value.toRat := by
  cases limit? with
  | none => rwa [within_none]
  | some limit => exact min_nonneg ha (hlimit limit rfl)

theorem add_mono {b b' c c' : TokenAmount} (hle : a.value.toRat ≤ a'.value.toRat)
    (hle' : b.value.toRat ≤ b'.value.toRat) (h : a.add b = .ok c) (h' : a'.add b' = .ok c') :
    c.value.toRat ≤ c'.value.toRat := by
  obtain ⟨sum, hsum, rfl⟩ := add_eq_ok.1 h
  obtain ⟨sum', hsum', rfl⟩ := add_eq_ok.1 h'
  exact (Decimal.add?_roundsEven hsum).mono (Decimal.add?_roundsEven hsum') (add_le_add hle hle')

end TokenAmount

/-! ## Room in the pool -/

namespace Pool

variable {pool pool' : Pool} {cap cap' : Decimal} {headroom headroom' : TokenAmount}

/-- There is as much room where as much is lent out of the vault and no more is kept for what is
borrowed. -/
theorem borrowHeadroom_le_of_shares
    (hlendable : pool.vaultLiquidity.value.toRat * cap.toRat ≤
      pool'.vaultLiquidity.value.toRat * cap'.toRat)
    (hkept : ∀ rest ∈ Decimal.one.sub? cap, ∀ rest' ∈ Decimal.one.sub? cap',
      pool'.totalBorrowed.value.toRat * rest'.toRat ≤ pool.totalBorrowed.value.toRat * rest.toRat)
    (h : pool.borrowHeadroom cap = .ok headroom) (h' : pool'.borrowHeadroom cap' = .ok headroom') :
    headroom.value.toRat ≤ headroom'.value.toRat := by
  simp only [borrowHeadroom, bind_eq_ok, pure_eq_ok] at h h'
  obtain ⟨lendable, hlend, rest, hrest, kept, hkeep, room, hroom, rfl⟩ := h
  obtain ⟨lendable', hlend', rest', hrest', kept', hkeep', room', hroom', rfl⟩ := h'
  have hlendable_le := (Decimal.mul?_roundsEven (Decimal.orFault_eq_ok.1 hlend)).mono
    (Decimal.mul?_roundsEven (Decimal.orFault_eq_ok.1 hlend')) hlendable
  have hkept_le := (Decimal.mul?_roundsEven (Decimal.orFault_eq_ok.1 hkeep')).mono
    (Decimal.mul?_roundsEven (Decimal.orFault_eq_ok.1 hkeep))
    (hkept rest (Decimal.orFault_eq_ok.1 hrest) rest' (Decimal.orFault_eq_ok.1 hrest'))
  have hroom_le := (Decimal.sub?_roundsEven (Decimal.orFault_eq_ok.1 hroom)).mono
    (Decimal.sub?_roundsEven (Decimal.orFault_eq_ok.1 hroom')) (sub_le_sub hlendable_le hkept_le)
  rw [TokenAmount.toRat_clamped, TokenAmount.toRat_clamped]
  exact max_le_max_right 0 hroom_le

theorem borrowHeadroom_mono (hvault : 0 ≤ pool.vaultLiquidity.value.toRat)
    (hborrowed : 0 ≤ pool.totalBorrowed.value.toRat) (hcap : cap.toRat ≤ cap'.toRat)
    (h : pool.borrowHeadroom cap = .ok headroom) (h' : pool.borrowHeadroom cap' = .ok headroom') :
    headroom.value.toRat ≤ headroom'.value.toRat := by
  refine borrowHeadroom_le_of_shares (mul_le_mul_of_nonneg_left hcap hvault)
    (fun rest hrest rest' hrest' ↦ mul_le_mul_of_nonneg_left ?_ hborrowed) h h'
  exact (Decimal.sub?_roundsEven hrest').mono (Decimal.sub?_roundsEven hrest)
    (sub_le_sub_left hcap _)

end Pool

namespace TradeBounds

variable {available available' demand demand' price fraction fraction' weight weight' : Decimal}
  {weights weights' : NoteWeights} {pool pool' : Pool} {balances balances' : PoolBalances}
  {surplus surplus' : Usd} {price? price?' : Option Decimal} {policy policy' tight loose : Policy}
  {b b' : TradeBounds} {headroom headroom' limit limit' : TokenAmount}

/-! ## What the collateral covers -/

theorem collateralLimit?_mono (havailable : available.toRat ≤ available'.toRat)
    (hdemand : demand'.toRat ≤ demand.toRat)
    (hties : ¬Risk.TiesApart available demand available' demand') :
    TokenAmount.LimitLe (collateralLimit? available demand)
      (collateralLimit? available' demand') := by
  rcases le_or_gt available.toRat 0 with hnone | hpos
  · rw [collateralLimit?_of_nonpos hnone]
    exact .zero fun _ ↦ collateralLimit?_nonneg
  · intro limit' hlimit'
    have hpos' := hpos.trans_le havailable
    rcases le_or_gt demand'.toRat 0 with hfree | hcost'
    · rw [collateralLimit?, Decimal.isPositive_iff.2 hpos',
        Decimal.isPositive_eq_false_iff.2 hfree] at hlimit'
      cases hlimit'
    · have hcost := hcost'.trans_le hdemand
      rw [collateralLimit?, Decimal.isPositive_iff.2 hpos', Decimal.isPositive_iff.2 hcost'] at hlimit'
      obtain ⟨q', hq', rfl⟩ := Option.map_eq_some_iff.1 hlimit'
      rw [collateralLimit?, Decimal.isPositive_iff.2 hpos, Decimal.isPositive_iff.2 hcost]
      obtain ⟨q, hq⟩ := Decimal.exists_div?_of_le hpos.le hcost
        (div_le_div₀ hpos'.le havailable hcost' hdemand) hq'
      rw [hq]
      refine ⟨.clamped q, rfl, ?_⟩
      rw [TokenAmount.toRat_clamped, TokenAmount.toRat_clamped]
      exact max_le_max_right 0
        ((Risk.div?_le_div?_iff hpos.le havailable hcost' hdemand hq hq').2 hties)

/-- The limits of a withdrawal break a tie apart. -/
def WithdrawApart (available available' weight : Decimal) (price? : Option Decimal) : Prop :=
  ∃ price ∈ price?, ∃ demand ∈ weight.mul? price, Risk.TiesApart available demand available' demand

theorem withdrawLimit?_mono (havailable : available.toRat ≤ available'.toRat)
    (hapart : ¬WithdrawApart available available' weight price?) :
    TokenAmount.LimitLe (withdrawLimit? available weight price?)
      (withdrawLimit? available' weight price?) := by
  intro limit' hlimit'
  cases price? with
  | none =>
    rw [withdrawLimit?] at hlimit' ⊢
    split at hlimit'
    · cases hlimit'
    · rename_i hnot
      cases hlimit'
      rw [Decimal.isPositive_iff, not_lt] at hnot
      refine ⟨.zero, ?_, le_rfl⟩
      rw [Decimal.isPositive_eq_false_iff.2 (havailable.trans hnot)]
      rfl
  | some price =>
    rw [withdrawLimit?] at hlimit' ⊢
    cases hdemand : weight.mul? price with
    | none =>
      rw [hdemand] at hlimit'
      exact ⟨limit', hlimit', le_rfl⟩
    | some demand =>
      rw [hdemand] at hlimit'
      exact collateralLimit?_mono havailable le_rfl
        (fun htie ↦ hapart ⟨price, rfl, demand, hdemand, htie⟩) limit' hlimit'

theorem withdrawLimit?_nonneg {limit : TokenAmount}
    (h : withdrawLimit? available weight price? = some limit) : 0 ≤ limit.value.toRat := by
  unfold withdrawLimit? at h
  split at h
  · split at h
    · exact collateralLimit?_nonneg h
    · cases h
      exact TokenAmount.toRat_zero.ge
  · split at h
    · cases h
    · cases h
      exact TokenAmount.toRat_zero.ge

/-! ## What a borrowed token takes -/

/-- How many borrowed tokens the collateral covers, by the demand of a token. -/
def borrowCover? (weights : NoteWeights) (fraction available price : Decimal) :
    Option TokenAmount :=
  (borrowDivisor? weights fraction price).elim (some .zero) (collateralLimit? available)

theorem borrowCover?_nonneg {limit : TokenAmount}
    (h : borrowCover? weights fraction available price = some limit) : 0 ≤ limit.value.toRat := by
  rw [borrowCover?] at h
  cases hdemand : borrowDivisor? weights fraction price with
  | none =>
    rw [hdemand] at h
    cases h
    exact TokenAmount.toRat_zero.ge
  | some demand =>
    rw [hdemand] at h
    exact collateralLimit?_nonneg h

/-- The limit of a borrow that is not refused. -/
theorem borrowLimit_eq_within (hweight : weights.loan.mul? fraction = some weight)
    (hpos : weight.isPositive = true)
    (h : borrowLimit headroom weights weight available (some price) = .ok limit) :
    limit = headroom.within (borrowCover? weights fraction available price) := by
  rw [borrowLimit, if_pos hpos, bind_eq_ok] at h
  obtain ⟨demand?, hdemand, h⟩ := h
  rw [borrowCover?, borrowDivisor?, hweight, Option.bind_some, hdemand]
  cases demand? with
  | none =>
    cases h
    rfl
  | some demand =>
    cases h
    rfl

/-- A borrow is bounded by as much where the pool has as much room and the collateral covers as
much. -/
theorem borrowLimit_le_of_limitLe (hheadroom₀ : 0 ≤ headroom.value.toRat)
    (hheadroom : headroom.value.toRat ≤ headroom'.value.toRat)
    (hweight : weights.loan.mul? fraction = some weight)
    (hweight' : weights'.loan.mul? fraction' = some weight')
    (hcover : ∀ price ∈ price?, 0 < weight.toRat → 0 < weight'.toRat ∧ ∃ price' ∈ price?',
      TokenAmount.LimitLe (borrowCover? weights fraction available price)
        (borrowCover? weights' fraction' available' price'))
    (h : borrowLimit headroom weights weight available price? = .ok limit)
    (h' : borrowLimit headroom' weights' weight' available' price?' = .ok limit') :
    limit.value.toRat ≤ limit'.value.toRat := by
  have hnonneg' := TokenAmount.toRat_zero.le.trans (borrowLimit_le (hheadroom₀.trans hheadroom) h').1
  cases price? with
  | none =>
    cases h
    exact hnonneg'
  | some price =>
    cases hpositive : weight.isPositive with
    | false =>
      rw [borrowLimit, hpositive] at h
      cases h
      exact hnonneg'
    | true =>
      obtain ⟨hpos', price', hprice', hle⟩ := hcover price rfl (Decimal.isPositive_iff.1 hpositive)
      cases hprice'
      rw [borrowLimit_eq_within hweight hpositive h,
        borrowLimit_eq_within hweight' (Decimal.isPositive_iff.2 hpos') h']
      exact hle.within hheadroom

/-- The limits of a borrow are out of order: the second demand does not fit a decimal and the first
one does, or the inverse weights break a tie apart, or the limits do. -/
def BorrowApart (weights : NoteWeights) (available available' fraction fraction' : Decimal)
    (price? : Option Decimal) : Prop :=
  ∃ price ∈ price?,
    (borrowDivisor? weights fraction price ≠ none ∧ borrowDivisor? weights fraction' price = none) ∨
    (∃ weight ∈ weights.loan.mul? fraction, ∃ weight' ∈ weights.loan.mul? fraction',
      Risk.TiesApart .one weight' .one weight) ∨
    ∃ demand ∈ borrowDivisor? weights fraction price,
      ∃ demand' ∈ borrowDivisor? weights fraction' price,
        Risk.TiesApart available demand available' demand'

/-- A smaller weight of the loan takes more collateral for a token, ties apart. -/
theorem borrowDivisor?_anti (hweight : weights.loan.mul? fraction = some weight)
    (hweight' : weights.loan.mul? fraction' = some weight') (hpos : 0 < weight.toRat)
    (hle : weight.toRat ≤ weight'.toRat) (hprice : 0 ≤ price.toRat)
    (hties : ¬Risk.TiesApart .one weight' .one weight)
    (h : borrowDivisor? weights fraction price = some demand)
    (h' : borrowDivisor? weights fraction' price = some demand') :
    demand'.toRat ≤ demand.toRat := by
  obtain ⟨w, inverse, uncovered, factor, hw, hinverse, huncovered, hfactor, hmul⟩ :=
    borrowDivisor?_eq_some.1 h
  obtain ⟨w', inverse', uncovered', factor', hw', hinverse', huncovered', hfactor', hmul'⟩ :=
    borrowDivisor?_eq_some.1 h'
  obtain rfl := Option.some.inj (hw.symm.trans hweight)
  obtain rfl := Option.some.inj (hw'.symm.trans hweight')
  obtain rfl := Option.some.inj (huncovered.symm.trans huncovered')
  have hone : 0 ≤ Decimal.one.toRat := Decimal.isWeight_one.1
  have hinverse_le := (Risk.div?_le_div?_iff hone le_rfl hpos hle hinverse' hinverse).2 hties
  have hfactor_le := (Decimal.add?_roundsEven hfactor').mono (Decimal.add?_roundsEven hfactor)
    (add_le_add_right hinverse_le _)
  exact (Decimal.mul?_roundsEven hmul').mono (Decimal.mul?_roundsEven hmul)
    (mul_le_mul_of_nonneg_right hfactor_le hprice)

/-- The part of a borrowed token that does not count again as a deposit is not negative. -/
theorem uncovered_nonneg {uncovered : Decimal} (hdeposit : weights.deposit.toRat ≤ 1)
    (h : Decimal.one.sub? weights.deposit = some uncovered) : 0 ≤ uncovered.toRat := by
  refine (Decimal.sub?_roundsEven h).nonneg ?_
  rw [Decimal.toRat_one]
  exact sub_nonneg.2 hdeposit

/-- With a deposit weight of at most one a demand fits a decimal where a larger one does. -/
theorem exists_borrowDivisor? (hdeposit : weights.deposit.toRat ≤ 1)
    (hweight : weights.loan.mul? fraction = some weight)
    (hweight' : weights.loan.mul? fraction' = some weight') (hpos : 0 < weight.toRat)
    (hle : weight.toRat ≤ weight'.toRat) (hprice : 0 ≤ price.toRat)
    (hties : ¬Risk.TiesApart .one weight' .one weight)
    (h : borrowDivisor? weights fraction price = some demand) :
    ∃ demand', borrowDivisor? weights fraction' price = some demand' := by
  obtain ⟨w, inverse, uncovered, factor, hw, hinverse, huncovered, hfactor, hmul⟩ :=
    borrowDivisor?_eq_some.1 h
  obtain rfl := Option.some.inj (hw.symm.trans hweight)
  have hpos' := hpos.trans_le hle
  have hone : 0 ≤ Decimal.one.toRat := Decimal.isWeight_one.1
  have huncovered₀ := uncovered_nonneg hdeposit huncovered
  obtain ⟨inverse', hinverse'⟩ := Decimal.exists_div?_of_le hone hpos'
    (div_le_div_of_nonneg_left hone hpos hle) hinverse
  have hinverse_le := (Risk.div?_le_div?_iff hone le_rfl hpos hle hinverse' hinverse).2 hties
  have hinverse₀ : 0 ≤ inverse'.toRat :=
    (Decimal.div?_rounds hinverse').nonneg (div_nonneg hone hpos'.le)
  obtain ⟨factor', hfactor'⟩ := Decimal.exists_add?_of_le huncovered₀ hinverse₀
    (add_le_add_right hinverse_le _) hfactor
  have hfactor_le := (Decimal.add?_roundsEven hfactor').mono (Decimal.add?_roundsEven hfactor)
    (add_le_add_right hinverse_le _)
  have hfactor₀ : 0 ≤ factor'.toRat :=
    (Decimal.add?_roundsEven hfactor').nonneg (add_nonneg huncovered₀ hinverse₀)
  obtain ⟨demand', hmul'⟩ := Decimal.exists_mul?_of_le hfactor₀ hprice
    (mul_le_mul_of_nonneg_right hfactor_le hprice) hmul
  exact ⟨demand', borrowDivisor?_eq_some.2
    ⟨weight', inverse', uncovered, factor', hweight', hinverse', huncovered, hfactor', hmul'⟩⟩

/-- Where a loan weighs more, the collateral covers as much or more, unless something is apart. -/
theorem limitLe_of_weight_le (hweight : weights.loan.mul? fraction = some weight)
    (hweight' : weights.loan.mul? fraction' = some weight') (hpos : 0 < weight.toRat)
    (hle : weight.toRat ≤ weight'.toRat) (havailable : available.toRat ≤ available'.toRat)
    (hprice : 0 ≤ price.toRat)
    (hapart : ¬BorrowApart weights available available' fraction fraction' (some price)) :
    TokenAmount.LimitLe (borrowCover? weights fraction available price)
      (borrowCover? weights fraction' available' price) := by
  rw [borrowCover?]
  cases hdemand : borrowDivisor? weights fraction price with
  | none =>
    -- more is demanded of a token than can be expressed
    exact .zero fun _ ↦ borrowCover?_nonneg
  | some demand =>
    rw [borrowCover?]
    cases hdemand' : borrowDivisor? weights fraction' price with
    | none =>
      have hsome : borrowDivisor? weights fraction price ≠ none :=
        Option.ne_none_iff_exists'.2 ⟨demand, hdemand⟩
      exact absurd ⟨price, rfl, .inl ⟨hsome, hdemand'⟩⟩ hapart
    | some demand' =>
      have hdemand_le := borrowDivisor?_anti hweight hweight' hpos hle hprice
        (fun htie ↦ hapart ⟨price, rfl, .inr (.inl ⟨weight, hweight, weight', hweight', htie⟩)⟩)
        hdemand hdemand'
      exact collateralLimit?_mono havailable hdemand_le fun htie ↦
        hapart ⟨price, rfl, .inr (.inr ⟨demand, hdemand, demand', hdemand', htie⟩)⟩

theorem borrowLimit_mono (hheadroom : headroom.value.toRat ≤ headroom'.value.toRat)
    (hheadroom₀ : 0 ≤ headroom.value.toRat) (havailable : available.toRat ≤ available'.toRat)
    (hprice : ∀ price ∈ price?, 0 ≤ price.toRat) (hfraction₀ : 0 < fraction.toRat)
    (hfraction : fraction.toRat ≤ fraction'.toRat)
    (hweight : weights.loan.mul? fraction = some weight)
    (hweight' : weights.loan.mul? fraction' = some weight')
    (hapart : ¬BorrowApart weights available available' fraction fraction' price?)
    (h : borrowLimit headroom weights weight available price? = .ok limit)
    (h' : borrowLimit headroom' weights weight' available' price? = .ok limit') :
    limit.value.toRat ≤ limit'.value.toRat := by
  refine borrowLimit_le_of_limitLe hheadroom₀ hheadroom hweight hweight'
    (fun price hp hpos ↦ ?_) h h'
  have hround := Decimal.mul?_roundsEven hweight
  have hloan : 0 ≤ weights.loan.toRat := by
    by_contra hneg
    exact absurd hpos (not_lt.2 (hround.nonpos
      (mul_nonpos_of_nonpos_of_nonneg (not_le.1 hneg).le hfraction₀.le)))
  have hle := hround.mono (Decimal.mul?_roundsEven hweight')
    (mul_le_mul_of_nonneg_left hfraction hloan)
  refine ⟨hpos.trans_le hle, price, hp, ?_⟩
  exact limitLe_of_weight_le hweight hweight' hpos hle havailable (hprice price hp)
    fun ⟨price', hp', hbad⟩ ↦ hapart ⟨price, hp, Option.some.inj hp' ▸ hbad⟩

/-! ## The bounds of a pool -/

/-- The bounds that are not sized by the collateral. -/
def unsized (b : TradeBounds) : TradeBounds :=
  { b with withdraw := .zero, borrow := .zero, swap := .zero, transfer := .zero }

theorem rest_ofPool (h : ofPool pool balances weights surplus price? policy = .ok b) :
    ∃ wallet after, spendable pool balances.wallet policy = .ok wallet ∧
      balances.deposit.add b.borrow = .ok after ∧
      b.unsized = ⟨wallet, .zero, .zero, balances.loan.min wallet,
        balances.loan.min balances.deposit, .zero, .zero⟩ ∧
      b.swap = after.min pool.vaultLiquidity ∧ b.transfer = b.withdraw := by
  rw [ofPool, bind_eq_ok] at h
  obtain ⟨wallet, hwallet, h⟩ := h
  simp only [bind_eq_ok, pure_eq_ok] at h
  obtain ⟨headroom, -, setupWeight, -, limit, -, after, hafter, rfl⟩ := h
  exact ⟨wallet, after, hwallet, hafter, rfl, rfl, rfl⟩

/-- Policies that keep the same of the wallet back agree on what is not sized. -/
theorem ofPool_unsized (hbuffer : policy.feeBuffer = policy'.feeBuffer)
    (h : ofPool pool balances weights surplus price? policy = .ok b)
    (h' : ofPool pool balances weights surplus' price? policy' = .ok b') :
    b.unsized = b'.unsized := by
  obtain ⟨wallet, -, hwallet, -, hb, -⟩ := rest_ofPool h
  obtain ⟨wallet', -, hwallet', -, hb', -⟩ := rest_ofPool h'
  rw [spendable, hbuffer, ← spendable, hwallet', Except.ok.injEq] at hwallet
  rw [hb, hb', hwallet]

/-- Where the bounds of an action may be out of order. -/
def SizedApart (weights : NoteWeights) (available available' : Decimal) (price? : Option Decimal)
    (tight loose : Policy) : TradeAction → Prop
  | .withdraw | .transfer => WithdrawApart available available' weights.deposit price?
  | .borrow | .swap =>
    BorrowApart weights available available' tight.setupFraction loose.setupFraction price?
  | .deposit | .repay | .repayFromDeposit => False

theorem withdraw_eq_within (h : ofPool pool balances weights surplus price? policy = .ok b) :
    b.withdraw = ((balances.deposit.min pool.vaultLiquidity).within
      (withdrawLimit? surplus.value weights.deposit (price?.filter (·.isPositive)))).roundDown
        pool.decimals := by
  rw [withdraw_ofPool h]
  cases withdrawLimit? surplus.value weights.deposit (price?.filter (·.isPositive)) with
  | none => rw [TokenAmount.within_none]
  | some limit => rfl

/-- As much may be withdrawn where there is as much and the limit is as high. -/
theorem withdraw_le_of_limitLe (hdecimals : pool.decimals = pool'.decimals)
    (hvault : 0 ≤ pool.vaultLiquidity.value.toRat) (hheld : 0 ≤ balances.deposit.value.toRat)
    (hvault_le : pool.vaultLiquidity.value.toRat ≤ pool'.vaultLiquidity.value.toRat)
    (hheld_le : balances.deposit.value.toRat ≤ balances'.deposit.value.toRat)
    (hlimit : TokenAmount.LimitLe
      (withdrawLimit? surplus.value weights.deposit (price?.filter (·.isPositive)))
      (withdrawLimit? surplus'.value weights'.deposit (price?'.filter (·.isPositive))))
    (h : ofPool pool balances weights surplus price? policy = .ok b)
    (h' : ofPool pool' balances' weights' surplus' price?' policy' = .ok b') :
    b.withdraw.value.toRat ≤ b'.withdraw.value.toRat := by
  rw [withdraw_eq_within h, withdraw_eq_within h', hdecimals]
  refine Decimal.toRat_truncateTo_mono (TokenAmount.within_nonneg
    (TokenAmount.min_nonneg hheld hvault) fun limit hlimit ↦ withdrawLimit?_nonneg hlimit)
    (hlimit.within ?_) _
  rw [TokenAmount.toRat_min, TokenAmount.toRat_min]
  exact min_le_min hheld_le hvault_le

theorem withdraw_le_of_less (hvault : 0 ≤ pool.vaultLiquidity.value.toRat)
    (hheld : 0 ≤ balances.deposit.value.toRat)
    (havailable : surplus.value.toRat ≤ surplus'.value.toRat)
    (hapart : ¬WithdrawApart surplus.value surplus'.value weights.deposit
      (price?.filter (·.isPositive)))
    (h : ofPool pool balances weights surplus price? policy = .ok b)
    (h' : ofPool pool balances weights surplus' price? policy' = .ok b') :
    b.withdraw.value.toRat ≤ b'.withdraw.value.toRat := by
  exact withdraw_le_of_limitLe rfl hvault hheld le_rfl le_rfl (withdrawLimit?_mono havailable hapart)
    h h'

/-- As much may be swapped where there is as much and as much may be borrowed. -/
theorem swap_le_of_borrow_le
    (hvault_le : pool.vaultLiquidity.value.toRat ≤ pool'.vaultLiquidity.value.toRat)
    (hheld_le : balances.deposit.value.toRat ≤ balances'.deposit.value.toRat)
    (hborrow : b.borrow.value.toRat ≤ b'.borrow.value.toRat)
    (h : ofPool pool balances weights surplus price? policy = .ok b)
    (h' : ofPool pool' balances' weights' surplus' price?' policy' = .ok b') :
    b.swap.value.toRat ≤ b'.swap.value.toRat := by
  obtain ⟨-, after, -, hafter, -, hswap, -⟩ := rest_ofPool h
  obtain ⟨-, after', -, hafter', -, hswap', -⟩ := rest_ofPool h'
  rw [hswap, hswap', TokenAmount.toRat_min, TokenAmount.toRat_min]
  exact min_le_min (TokenAmount.add_mono hheld_le hborrow hafter hafter') hvault_le

theorem borrow_le_of_tighter (hvault : 0 ≤ pool.vaultLiquidity.value.toRat)
    (hborrowed : 0 ≤ pool.totalBorrowed.value.toRat) (htight : tight.check = .ok ())
    (htighter : tight.IsTighter loose) (havailable : surplus.value.toRat ≤ surplus'.value.toRat)
    (hapart : ¬BorrowApart weights surplus.value surplus'.value tight.setupFraction
      loose.setupFraction (price?.filter (·.isPositive)))
    (h : borrowBound pool weights surplus price? tight = .ok limit)
    (h' : borrowBound pool weights surplus' price? loose = .ok limit') :
    limit.value.toRat ≤ limit'.value.toRat := by
  simp only [borrowBound, bind_eq_ok, pure_eq_ok] at h h'
  obtain ⟨headroom, hheadroom, weight, hweight, uncut, huncut, rfl⟩ := h
  obtain ⟨headroom', hheadroom', weight', hweight', uncut', huncut', rfl⟩ := h'
  have hheadroom₀ := Pool.borrowHeadroom_nonneg hheadroom
  have hheadroom_le := Pool.borrowHeadroom_mono hvault hborrowed
    (Decimal.le_iff_toRat.1 htighter.utilizationCap) hheadroom hheadroom'
  have hprice : ∀ price ∈ price?.filter (·.isPositive), 0 ≤ price.toRat := fun price hprice ↦
    (Decimal.isPositive_iff.1 (Option.filter_eq_some_iff.1 hprice).2).le
  exact Decimal.toRat_truncateTo_mono (borrowLimit_le hheadroom₀ huncut).1
    (borrowLimit_mono hheadroom_le hheadroom₀ havailable hprice
      (Policy.setupFraction_of_check htight).1 (Decimal.le_iff_toRat.1 htighter.setupFraction)
      (Decimal.orFault_eq_ok.1 hweight) (Decimal.orFault_eq_ok.1 hweight') hapart huncut huncut') _

/-- Bounds are in order at checked weights, where no divisor has more than 64 bits. -/
theorem not_sizedApart (hdeposit : weights.deposit.IsWeight) (hloan : weights.loan.IsWeight)
    (htight : tight.check = .ok ()) (hloose : loose.check = .ok ())
    (hfraction : tight.setupFraction ≤ loose.setupFraction)
    (hprice : ∀ price ∈ price?, 0 ≤ price.toRat)
    (hwithdraw : ∀ price ∈ price?, ∀ demand ∈ weights.deposit.mul? price, demand.isLong = false)
    (hweight : ∀ weight ∈ weights.loan.mul? loose.setupFraction, weight.isLong = false)
    (hborrow : ∀ price ∈ price?, ∀ demand ∈ borrowDivisor? weights tight.setupFraction price,
      demand.isLong = false) (action : TradeAction) :
    ¬SizedApart weights available available' price? tight loose action := by
  have hshort {a w b w' : Decimal} (h : w.isLong = false) : ¬Risk.TiesApart a w b w' := fun htie ↦ by
    rw [htie.isLong] at h
    cases h
  have hnotWithdraw : ¬WithdrawApart available available' weights.deposit price? := by
    rintro ⟨price, hp, demand, hdemand, htie⟩
    exact hshort (hwithdraw price hp demand hdemand) htie
  have hnotBorrow : ¬BorrowApart weights available available' tight.setupFraction
      loose.setupFraction price? := by
    rintro ⟨price, hp, ⟨hsome, hnone⟩ | ⟨_, -, weight', hw', htie⟩ | ⟨demand, hd, _, -, htie⟩⟩
    · obtain ⟨demand, hdemand⟩ := Option.ne_none_iff_exists'.1 hsome
      obtain ⟨weight, _, _, _, hw, hinverse, -⟩ := borrowDivisor?_eq_some.1 hdemand
      obtain ⟨hfraction₀, hfraction₁⟩ := Policy.setupFraction_of_check hloose
      obtain ⟨weight', hw'⟩ := Decimal.exists_mul?_of_share hloan.1 hfraction₀.le hfraction₁
      have hround := Decimal.mul?_roundsEven hw
      have hne := Decimal.isZero_eq_false_iff.1 (Decimal.isZero_eq_false_of_div? hinverse)
      have hpos : 0 < weight.toRat := lt_of_le_of_ne
        (hround.nonneg (mul_nonneg hloan.1 (Policy.setupFraction_of_check htight).1.le)) hne.symm
      have hle := hround.mono (Decimal.mul?_roundsEven hw')
        (mul_le_mul_of_nonneg_left (Decimal.le_iff_toRat.1 hfraction) hloan.1)
      obtain ⟨demand', hdemand'⟩ := exists_borrowDivisor? hdeposit.2 hw hw' hpos hle (hprice price hp)
        (hshort (hweight weight' hw')) hdemand
      rw [hdemand'] at hnone
      cases hnone
    · exact hshort (hweight weight' hw') htie
    · exact hshort (hborrow price hp demand hd) htie
  cases action with
  | deposit | repay | repayFromDeposit => exact id
  | withdraw | transfer => exact hnotWithdraw
  | borrow | swap => exact hnotBorrow

/-- Under a tighter policy and with less collateral available no action is bounded by more. -/
theorem get_le_of_tighter (hvault : 0 ≤ pool.vaultLiquidity.value.toRat)
    (hborrowed : 0 ≤ pool.totalBorrowed.value.toRat) (hheld : 0 ≤ balances.deposit.value.toRat)
    (htight : tight.check = .ok ()) (htighter : tight.IsTighter loose)
    (havailable : surplus.value.toRat ≤ surplus'.value.toRat)
    (h : ofPool pool balances weights surplus price? tight = .ok b)
    (h' : ofPool pool balances weights surplus' price? loose = .ok b') (action : TradeAction)
    (hapart : ¬SizedApart weights surplus.value surplus'.value (price?.filter (·.isPositive)) tight
      loose action) : (b.get action).value ≤ (b'.get action).value := by
  have hunsized := ofPool_unsized htighter.feeBuffer h h'
  obtain ⟨-, -, -, -, -, -, htransfer⟩ := rest_ofPool h
  obtain ⟨-, -, -, -, -, -, htransfer'⟩ := rest_ofPool h'
  rw [Decimal.le_iff_toRat]
  cases action with
  | deposit => exact (congrArg (fun b : TradeBounds ↦ b.deposit.value.toRat) hunsized).le
  | repay => exact (congrArg (fun b : TradeBounds ↦ b.repay.value.toRat) hunsized).le
  | repayFromDeposit =>
    exact (congrArg (fun b : TradeBounds ↦ b.repayFromDeposit.value.toRat) hunsized).le
  | withdraw => exact withdraw_le_of_less hvault hheld havailable hapart h h'
  | transfer =>
    rw [get, get, htransfer, htransfer']
    exact withdraw_le_of_less hvault hheld havailable hapart h h'
  | borrow =>
    exact borrow_le_of_tighter hvault hborrowed htight htighter havailable hapart (borrow_ofPool h)
      (borrow_ofPool h')
  | swap =>
    exact swap_le_of_borrow_le le_rfl le_rfl (borrow_le_of_tighter hvault hborrowed htight htighter
      havailable hapart (borrow_ofPool h) (borrow_ofPool h')) h h'

end TradeBounds

end MarginAccount
