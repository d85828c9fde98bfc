import MarginAccount.Proofs.Decimal.Arithmetic
import MarginAccount.Proofs.Decimal.Quotient
import MarginAccount.Proofs.Fault
import MarginAccount.Trade.Bounds

/-! # What trade bounds cover

An amount below the collateral limit takes no more than the available collateral, up to the rounding
of the one quotient that the limit is (`limited_le`). A withdrawal is below its limit and below the
deposit; a borrow is below its limit, and there is none without a price.
-/

namespace MarginAccount

/-! ## Amounts -/

namespace Decimal

variable {a b d : Decimal} {n : ℕ}

theorem truncateTo_parts (h : ¬d.scale ≤ n) :
    (d.truncateTo n).negative =
        (d.negative && (d.mantissa / 10 ^ (d.scale - n) != 0 || d.isZero)) ∧
      (d.truncateTo n).mantissa = d.mantissa / 10 ^ (d.scale - n) ∧ (d.truncateTo n).scale = n := by
  rw [truncateTo, dif_neg h]
  exact ⟨rfl, rfl, rfl⟩

theorem toRat_truncateTo_nonneg (hd : 0 ≤ d.toRat) (n : ℕ) : 0 ≤ (d.truncateTo n).toRat := by
  by_cases h : d.scale ≤ n
  · rwa [truncateTo, dif_pos h]
  · obtain ⟨hneg, hm, -⟩ := truncateTo_parts h
    cases hsign : d.negative with
    | false =>
      rw [hsign, Bool.false_and] at hneg
      rw [toRat_of_not_negative hneg]
      positivity
    | true =>
      -- a minus sign stays only on a zero
      have hzero : d.mantissa = 0 := by
        rw [toRat_eq, hsign, if_pos rfl, Left.nonneg_neg_iff] at hd
        have hdiv : (d.mantissa : ℚ) / 10 ^ d.scale = 0 := le_antisymm hd (by positivity)
        simpa using hdiv
      rw [toRat_eq, hm, hzero, Nat.zero_div]
      simp

/-- Cutting places takes a number toward zero. -/
theorem toRat_truncateTo_le (d : Decimal) (n : ℕ) : (d.truncateTo n).toRat ≤ Max.max d.toRat 0 := by
  by_cases h : d.scale ≤ n
  · rw [truncateTo, dif_pos h]
    exact le_max_left ..
  · obtain ⟨hneg, hm, hs⟩ := truncateTo_parts h
    have hle : ((d.mantissa / 10 ^ (d.scale - n) : ℕ) : ℚ) / 10 ^ n ≤ d.mantissa / 10 ^ d.scale := by
      have hdiv : ((d.mantissa / 10 ^ (d.scale - n) : ℕ) : ℚ) ≤ d.mantissa / (10 ^ (d.scale - n) : ℕ) :=
        Nat.cast_div_le
      have hpow : (10 : ℚ) ^ d.scale = 10 ^ (d.scale - n) * 10 ^ n := by
        rw [← pow_add, Nat.sub_add_cancel (not_le.1 h).le]
      rw [hpow, ← div_div]
      push_cast at hdiv
      gcongr
    rw [toRat_eq (d.truncateTo n), hneg, hm, hs]
    cases hd : d.negative
    · rw [toRat_of_not_negative hd]
      exact hle.trans (le_max_left ..)
    · refine le_trans ?_ (le_max_right ..)
      rw [Bool.true_and]
      split
      · exact neg_nonpos.2 (by positivity)
      · rename_i hz
        simp only [Bool.or_eq_true, bne_iff_ne, not_or, not_not] at hz
        rw [hz.1]
        simp

/-- Cutting places rounds a number that is not negative down. -/
theorem toRat_truncateTo_of_nonneg (h : 0 ≤ d.toRat) (n : ℕ) :
    (d.truncateTo n).toRat = ⌊d.toRat * 10 ^ n⌋₊ / 10 ^ n := by
  by_cases hs : d.scale ≤ n
  · rw [truncateTo, dif_pos hs]
    have hval : d.toRat * 10 ^ n = (d.mantissa * 10 ^ (n - d.scale) : ℕ) := by
      rw [toRat_of_nonneg h, div_pow_mul_pow _ hs]
    rw [hval, Nat.floor_natCast, ← hval]
    field_simp
  · obtain ⟨-, hm, hn⟩ := truncateTo_parts hs
    have hpow : (10 : ℚ) ^ d.scale = 10 ^ (d.scale - n) * 10 ^ n := by
      rw [← pow_add, Nat.sub_add_cancel (not_le.1 hs).le]
    have hval : d.toRat * 10 ^ n = (d.mantissa : ℚ) / (10 ^ (d.scale - n) : ℕ) := by
      rw [toRat_of_nonneg h, hpow]
      push_cast
      field_simp
    rw [toRat_of_nonneg (toRat_truncateTo_nonneg h n), hm, hn, hval, Nat.floor_div_eq_div]

theorem toRat_truncateTo_mono (ha : 0 ≤ a.toRat) (hle : a.toRat ≤ b.toRat) (n : ℕ) :
    (a.truncateTo n).toRat ≤ (b.truncateTo n).toRat := by
  rw [toRat_truncateTo_of_nonneg ha, toRat_truncateTo_of_nonneg (ha.trans hle)]
  gcongr

end Decimal

namespace TokenAmount

@[simp] theorem toRat_zero : zero.value.toRat = 0 := Decimal.toRat_zero

theorem toRat_clamped (d : Decimal) : (clamped d).value.toRat = max d.toRat 0 := by
  rw [clamped, Decimal.toRat_max, Decimal.toRat_zero]

theorem clamped_nonneg (d : Decimal) : 0 ≤ (clamped d).value.toRat := by
  rw [toRat_clamped]
  exact le_max_right _ _

theorem clamped_of_nonneg {d : Decimal} (h : 0 ≤ d.toRat) : clamped d = ⟨d⟩ := by
  rw [clamped, Decimal.max, if_neg]
  rwa [Decimal.lt_iff_toRat, Decimal.toRat_zero, not_lt]

theorem toRat_min (a b : TokenAmount) :
    (a.min b).value.toRat = Min.min a.value.toRat b.value.toRat := by
  unfold min
  split
  · rename_i h
    exact (min_eq_right (Decimal.lt_iff_toRat.1 h).le).symm
  · rename_i h
    exact (min_eq_left (not_lt.1 (mt Decimal.lt_iff_toRat.2 h))).symm

theorem toRat_min_le_left (a b : TokenAmount) : (a.min b).value.toRat ≤ a.value.toRat := by
  rw [toRat_min]
  exact min_le_left ..

theorem toRat_min_le_right (a b : TokenAmount) : (a.min b).value.toRat ≤ b.value.toRat := by
  rw [toRat_min]
  exact min_le_right ..

theorem min_nonneg {a b : TokenAmount} (ha : 0 ≤ a.value.toRat) (hb : 0 ≤ b.value.toRat) :
    0 ≤ (a.min b).value.toRat := by
  rw [toRat_min]
  exact le_min ha hb

theorem roundDown_nonneg {a : TokenAmount} (h : 0 ≤ a.value.toRat) (n : ℕ) :
    0 ≤ (a.roundDown n).value.toRat :=
  Decimal.toRat_truncateTo_nonneg h n

/-- What is left after cutting places has been there before. -/
theorem roundDown_le {a : TokenAmount} {n : ℕ} (h : 0 < (a.roundDown n).value.toRat) :
    (a.roundDown n).value.toRat ≤ a.value.toRat :=
  (le_max_iff.1 (Decimal.toRat_truncateTo_le a.value n)).resolve_right (not_le.2 h)

theorem roundDown_le_of_nonneg {a : TokenAmount} (h : 0 ≤ a.value.toRat) (n : ℕ) :
    (a.roundDown n).value.toRat ≤ a.value.toRat :=
  (Decimal.toRat_truncateTo_le a.value n).trans_eq (max_eq_left h)

end TokenAmount

namespace TradeBounds

variable {available demand price x : Decimal} {weights : NoteWeights} {pool : Pool}
  {balances : PoolBalances} {surplus : Usd} {price? : Option Decimal} {policy : Policy}
  {b : TradeBounds}

/-! ## The collateral limit -/

/-- Nothing is covered without collateral. -/
theorem collateralLimit?_of_nonpos (h : available.toRat ≤ 0) :
    collateralLimit? available demand = some .zero := by
  rw [collateralLimit?, Decimal.isPositive_eq_false_iff.2 h]
  rfl

/-- A positive amount below the limit needs collateral to be available. -/
theorem available_pos_of_limit (hx : 0 < x.toRat)
    (hlimit : ∀ limit ∈ collateralLimit? available demand, x.toRat ≤ limit.value.toRat) :
    0 < available.toRat := by
  by_contra h
  have hle := hlimit .zero (collateralLimit?_of_nonpos (not_lt.1 h))
  exact absurd hx (not_lt.2 (hle.trans TokenAmount.toRat_zero.le))

/-- Where there is a demand, an amount below the limit is below the quotient. -/
theorem le_quotient_of_limit {q : Decimal} (hx : 0 < x.toRat) (hdemand : 0 < demand.toRat)
    (hlimit : ∀ limit ∈ collateralLimit? available demand, x.toRat ≤ limit.value.toRat)
    (hq : available.div? demand = some q) : x.toRat ≤ q.toRat := by
  have havail := available_pos_of_limit hx hlimit
  have hsome : collateralLimit? available demand = some (.clamped q) := by
    rw [collateralLimit?, Decimal.isPositive_iff.2 havail, Decimal.isPositive_iff.2 hdemand, hq]
    rfl
  have hle := hlimit _ hsome
  rw [TokenAmount.toRat_clamped] at hle
  exact (le_max_iff.1 hle).resolve_right (not_le.2 hx)

/-- A ratio past every decimal limits nothing. -/
theorem mul_le_of_div?_eq_none (havail : 0 < available.toRat) (hdemand : 0 < demand.toRat)
    (hq : available.div? demand = none) : x.toRat * demand.toRat ≤ available.toRat := by
  have hlt := (Decimal.div?_eq_none (Decimal.isZero_eq_false_iff.2 hdemand.ne') hq).abs_lt x
  rw [abs_of_pos (div_pos havail hdemand)] at hlt
  exact (le_div_iff₀ hdemand).1 ((le_abs_self _).trans hlt.le)

/-- An amount below the limit takes no more than is available, if the limit is not rounded. -/
theorem limited_le_of_exact (hx : 0 < x.toRat)
    (hlimit : ∀ limit ∈ collateralLimit? available demand, x.toRat ≤ limit.value.toRat)
    (hexact : available.DivExact demand) : x.toRat * demand.toRat ≤ available.toRat := by
  have havail := available_pos_of_limit hx hlimit
  rcases le_or_gt demand.toRat 0 with hdemand | hdemand
  · exact (mul_nonpos_of_nonneg_of_nonpos hx.le hdemand).trans havail.le
  · cases hq : available.div? demand with
    | none => exact mul_le_of_div?_eq_none havail hdemand hq
    | some q =>
      have hle := le_quotient_of_limit hx hdemand hlimit hq
      rw [hexact q hq] at hle
      exact (le_div_iff₀ hdemand).1 hle

/-- An amount below the limit takes no more than is available, up to one part in `10 ^ 28` of what
it takes, or of what one token takes. -/
theorem limited_le (hx : 0 < x.toRat)
    (hlimit : ∀ limit ∈ collateralLimit? available demand, x.toRat ≤ limit.value.toRat) :
    (x.toRat - 1 / 10 ^ 28 * max 1 x.toRat) * demand.toRat ≤ available.toRat := by
  have havail := available_pos_of_limit hx hlimit
  have hslack : 0 ≤ 1 / 10 ^ 28 * max 1 x.toRat := by positivity
  rcases le_or_gt demand.toRat 0 with hdemand | hdemand
  · -- the slack is not larger than the amount, which is a unit of the last place at least
    have hunit := Decimal.le_toRat_of_pos hx
    have hle : 1 / 10 ^ 28 * max 1 x.toRat ≤ x.toRat := by
      rcases le_total 1 x.toRat with h | h
      · rw [max_eq_right h]
        linarith
      · rwa [max_eq_left h, mul_one]
    exact (mul_nonpos_of_nonneg_of_nonpos (sub_nonneg.2 hle) hdemand).trans havail.le
  · cases hq : available.div? demand with
    | none =>
      refine le_trans ?_ (mul_le_of_div?_eq_none (x := x) havail hdemand hq)
      gcongr
      linarith
    | some q =>
      rw [← le_div_iff₀ hdemand]
      have hle := le_quotient_of_limit hx hdemand hlimit hq
      have herr := (abs_le.1 (Decimal.div?_rounds hq).error_le).2
      rw [abs_of_pos (div_pos havail hdemand)] at herr
      by_contra hlt
      rw [not_le] at hlt
      have hmax : max (1 / 2) (2 / 3 * (available.toRat / demand.toRat)) ≤ max 1 x.toRat := by
        refine max_le_max (by norm_num) ?_
        linarith
      have : 1 / 10 ^ 28 * max (1 / 2) (2 / 3 * (available.toRat / demand.toRat)) ≤
          1 / 10 ^ 28 * max 1 x.toRat := by gcongr
      linarith

/-! ## The limit of a withdrawal -/

/-- No operation rounds that sizes a withdrawal. -/
def WithdrawExact (available weight : Decimal) (price? : Option Decimal) : Prop :=
  ∀ price ∈ price?, weight.MulExact price ∧
    ∀ demand ∈ weight.mul? price, available.DivExact demand

instance (available weight : Decimal) (price? : Option Decimal) :
    Decidable (WithdrawExact available weight price?) :=
  inferInstanceAs (Decidable (∀ price ∈ _, _ ∧ ∀ demand ∈ _, _))

theorem available_pos_of_withdrawLimit {weight : Decimal} (hx : 0 < x.toRat)
    (hlimit : ∀ limit ∈ withdrawLimit? available weight price?, x.toRat ≤ limit.value.toRat) :
    0 < available.toRat := by
  have hzero : withdrawLimit? available weight price? ≠ some .zero := fun h ↦
    absurd hx (not_lt.2 ((hlimit .zero h).trans TokenAmount.toRat_zero.le))
  cases price? with
  | none =>
    by_contra h
    refine hzero ?_
    rw [withdrawLimit?, Decimal.isPositive_eq_false_iff.2 (not_lt.1 h)]
    rfl
  | some price =>
    rw [withdrawLimit?] at hlimit hzero
    cases hdemand : weight.mul? price with
    | none =>
      rw [hdemand] at hzero
      exact absurd rfl hzero
    | some demand =>
      rw [hdemand] at hlimit
      exact available_pos_of_limit hx hlimit

/-- An exactly sized withdrawal takes no more than is available at the price it is sized with. -/
theorem withdrawal_le {weight : Decimal} (hx : 0 < x.toRat)
    (hlimit : ∀ limit ∈ withdrawLimit? available weight (some price), x.toRat ≤ limit.value.toRat)
    (hexact : WithdrawExact available weight (some price)) :
    x.toRat * (weight.toRat * price.toRat) ≤ available.toRat := by
  obtain ⟨hmul, hdiv⟩ := hexact price rfl
  rw [withdrawLimit?] at hlimit
  cases hdemand : weight.mul? price with
  | none =>
    rw [hdemand] at hlimit
    exact absurd hx (not_lt.2 ((hlimit .zero rfl).trans TokenAmount.toRat_zero.le))
  | some demand =>
    rw [hdemand] at hlimit
    rw [← hmul demand hdemand]
    exact limited_le_of_exact hx hlimit (hdiv demand hdemand)

/-! ## The demand of a borrow -/

/-- The dollars of collateral that a borrowed token takes, where the weights and the price have
them. -/
def borrowDivisor? (weights : NoteWeights) (fraction price : Decimal) : Option Decimal :=
  (weights.loan.mul? fraction).bind fun setupWeight ↦
    (borrowDemand? weights setupWeight price).toOption.join

theorem borrowDivisor?_eq_some : borrowDivisor? weights fraction price = some demand ↔
    ∃ weight inverse uncovered factor, weights.loan.mul? fraction = some weight ∧
      Decimal.one.div? weight = some inverse ∧ Decimal.one.sub? weights.deposit = some uncovered ∧
      uncovered.add? inverse = some factor ∧ factor.mul? price = some demand := by
  rw [borrowDivisor?, Option.bind_eq_some_iff]
  refine exists_congr fun weight ↦ ?_
  rw [borrowDemand?]
  cases hinverse : Decimal.one.div? weight with
  | none => simp [pure, Except.pure, Except.toOption]
  | some inverse =>
    rw [Decimal.sub]
    cases Decimal.one.sub? weights.deposit with
    | none => simp [bind, Except.bind, Except.toOption]
    | some uncovered =>
      simp [bind, Except.bind, pure, Except.pure, Except.toOption, Option.bind_eq_some_iff]

/-- The same in exact numbers: the price, less the weight of the deposit, and the collateral that the
loan requires. -/
def exactDemand (weights : NoteWeights) (fraction price : ℚ) : ℚ :=
  price * (1 - weights.deposit.toRat + 1 / (weights.loan.toRat * fraction))

/-- No operation rounds that finds the demand of a borrow. -/
def BorrowExact (weights : NoteWeights) (fraction price : Decimal) : Prop :=
  weights.loan.MulExact fraction ∧ ∀ setupWeight ∈ weights.loan.mul? fraction,
    Decimal.one.DivExact setupWeight ∧ Decimal.one.SubExact weights.deposit ∧
      ∀ inverse ∈ Decimal.one.div? setupWeight, ∀ uncovered ∈ Decimal.one.sub? weights.deposit,
        uncovered.AddExact inverse ∧ ∀ factor ∈ uncovered.add? inverse, factor.MulExact price

instance (weights : NoteWeights) (fraction price : Decimal) :
    Decidable (BorrowExact weights fraction price) :=
  inferInstanceAs (Decidable (_ ∧ ∀ setupWeight ∈ _, _ ∧ _ ∧ ∀ inverse ∈ _, ∀ uncovered ∈ _,
    _ ∧ ∀ factor ∈ _, _))

theorem toRat_borrowDivisor? {fraction : Decimal}
    (h : borrowDivisor? weights fraction price = some demand)
    (hexact : BorrowExact weights fraction price) :
    demand.toRat = exactDemand weights fraction.toRat price.toRat := by
  obtain ⟨setupWeight, inverse, uncovered, factor, hweight, hinverse, huncovered, hfactor, hdemand⟩ :=
    borrowDivisor?_eq_some.1 h
  obtain ⟨hmul, hrest⟩ := hexact
  obtain ⟨hdiv, hsub, hrest⟩ := hrest setupWeight hweight
  obtain ⟨hadd, hprice⟩ := hrest inverse hinverse uncovered huncovered
  rw [hprice factor hfactor demand hdemand, hadd factor hfactor, hsub uncovered huncovered,
    hdiv inverse hinverse, hmul setupWeight hweight, Decimal.toRat_one, exactDemand]
  ring

/-! ## The bounds of a pool -/

theorem withdraw_ofPool (h : ofPool pool balances weights surplus price? policy = .ok b) :
    b.withdraw = (match withdrawLimit? surplus.value weights.deposit (price?.filter (·.isPositive)) with
      | some limit => (balances.deposit.min pool.vaultLiquidity).min limit
      | none => balances.deposit.min pool.vaultLiquidity).roundDown pool.decimals := by
  rw [ofPool, bind_eq_ok] at h
  obtain ⟨wallet, -, h⟩ := h
  simp only [bind_eq_ok, pure_eq_ok] at h
  obtain ⟨headroom, -, setupWeight, -, limit, -, afterBorrow, -, rfl⟩ := h
  rfl

/-- A withdrawal is at most the deposit and at most its limit. -/
theorem withdraw_le (h : ofPool pool balances weights surplus price? policy = .ok b)
    (hx : 0 < b.withdraw.value.toRat) :
    b.withdraw.value.toRat ≤ balances.deposit.value.toRat ∧
      ∀ limit ∈ withdrawLimit? surplus.value weights.deposit (price?.filter (·.isPositive)),
        b.withdraw.value.toRat ≤ limit.value.toRat := by
  rw [withdraw_ofPool h] at hx ⊢
  have hle := TokenAmount.roundDown_le hx
  cases hl : withdrawLimit? surplus.value weights.deposit (price?.filter (·.isPositive)) with
  | none =>
    rw [hl] at hle hx
    dsimp only at hle hx ⊢
    rw [TokenAmount.toRat_min] at hle
    exact ⟨hle.trans (min_le_left ..), by simp⟩
  | some limit =>
    rw [hl] at hle hx
    dsimp only at hle hx ⊢
    rw [TokenAmount.toRat_min, TokenAmount.toRat_min] at hle
    refine ⟨hle.trans ((min_le_left ..).trans (min_le_left ..)), ?_⟩
    rintro limit' ⟨⟩
    exact hle.trans (min_le_right ..)

/-- A borrow has a price and a demand for collateral, and is at most its limit. -/
theorem borrow_le (h : ofPool pool balances weights surplus price? policy = .ok b)
    (hx : 0 < b.borrow.value.toRat) :
    ∃ price demand, price? = some price ∧
      borrowDivisor? weights policy.setupFraction price = some demand ∧
      ∀ limit ∈ collateralLimit? surplus.value demand, b.borrow.value.toRat ≤ limit.value.toRat := by
  rw [ofPool, bind_eq_ok] at h
  obtain ⟨wallet, -, h⟩ := h
  simp only [bind_eq_ok, pure_eq_ok] at h
  obtain ⟨headroom, -, setupWeight, hweight, limit, hlimit, afterBorrow, -, rfl⟩ := h
  change 0 < (limit.roundDown pool.decimals).value.toRat at hx
  change ∃ price demand, _ ∧ _ ∧ ∀ limit' ∈ _,
    (limit.roundDown pool.decimals).value.toRat ≤ _
  have hle := TokenAmount.roundDown_le hx
  have hzero : ∀ l : TokenAmount, l.value.toRat ≤ 0 → limit ≠ l := by
    rintro l hl rfl
    linarith
  cases hp : price?.filter (·.isPositive) with
  | none =>
    rw [hp] at hlimit
    cases hlimit
    exact absurd rfl (hzero .zero Decimal.toRat_zero.le)
  | some price =>
    rw [hp, borrowLimit] at hlimit
    split at hlimit
    · rw [bind_eq_ok] at hlimit
      obtain ⟨demand?, hdemand, hlimit⟩ := hlimit
      cases demand? with
      | none =>
        cases hlimit
        refine absurd rfl (hzero (headroom.min .zero) ?_)
        rw [TokenAmount.toRat_min]
        exact (min_le_right ..).trans Decimal.toRat_zero.le
      | some demand =>
        cases hlimit
        refine ⟨price, demand, (Option.filter_eq_some_iff.1 hp).1, ?_, fun limit' hlimit' ↦ ?_⟩
        · rw [borrowDivisor?, Decimal.orFault_eq_ok.1 hweight, Option.bind_some, hdemand]
          rfl
        refine hle.trans ?_
        rw [TokenAmount.toRat_min, hlimit', Option.getD_some]
        exact min_le_right ..
    · cases hlimit
      exact absurd rfl (hzero .zero Decimal.toRat_zero.le)

end TradeBounds

end MarginAccount
