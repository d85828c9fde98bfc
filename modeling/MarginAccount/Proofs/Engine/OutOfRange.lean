import MarginAccount.Proofs.Engine.Refusal
import MarginAccount.Proofs.Trade.Notes

/-! # Balances that are out of range

An evaluation names a balance as out of range for one of two causes (`Engine.evaluate_outOfRange`).
Either it has no decimal, because of its count, its exponent or its amount. Or it is one of notes of a
pool whose rate does not convert them: their number times the underlying total is past the last decimal,
or what they are worth is no further below `2 ^ 96` than the rounding of the two operations reaches.
-/

namespace MarginAccount

open Decimal

variable {snapshot : Snapshot} {market : Market} {prices : PriceSource} {now : Timestamp}
  {policy : Policy} {positions : List Position} {p : Position} {pool : Pool} {token note : TokenId}
  {balance : Balance} {exponent : Int8} {available : Usd} {e : Engine} {rate : ExchangeRate}
  {notes : Decimal} {decimals : ℕ}

/-! ## Balances -/

namespace Position

/-- The balance has no decimal: its count, its exponent or its amount is out of range. -/
def IsOversized (p : Position) : Prop :=
  2 ^ 96 ≤ p.balance.units ∨ p.exponent.toInt < -56 ∨ 28 < p.exponent.toInt ∨ 2 ^ 96 ≤ p.amount

theorem amount_eq_zpow (p : Position) : p.amount = p.balance.units * 10 ^ p.exponent.toInt := by
  rw [amount]
  split
  · rename_i h
    obtain ⟨n, hn⟩ := Int.eq_ofNat_of_zero_le h
    rw [hn, Int.toNat_natCast, zpow_natCast]
  · rename_i h
    obtain ⟨n, hn⟩ := Int.eq_ofNat_of_zero_le (neg_nonneg.2 (not_le.1 h).le)
    rw [hn, Int.toNat_natCast, neg_eq_iff_eq_neg.1 hn, zpow_neg, zpow_natCast, div_eq_mul_inv]

theorem quantity?_eq_none_iff : p.quantity? = none ↔ p.IsOversized := by
  rw [quantity?, Decimal.ofFixedPoint?_eq_none_iff, IsOversized, amount_eq_zpow]

/-- Of what a position is not valued for, only a balance without a decimal is named. -/
theorem isOversized_of_value (h : p.value prices =
    .error (.refused (.balanceOutOfRange token balance exponent))) :
    p.IsOversized ∧ p.outOfRange = .balanceOutOfRange token balance exponent := by
  rcases value_eq_refused h with ⟨hquantity, hnamed⟩ | hother
  · exact ⟨quantity?_eq_none_iff.1 hquantity, hnamed.symm⟩
  · cases hother

end Position

/-- In a valuation a position is named, and no sum is. -/
theorem Valuation.exists_isOversized (h : ofPositions positions prices [] policy =
    .error (.refused (.balanceOutOfRange token balance exponent))) :
    ∃ p ∈ positions, p.IsOversized ∧ p.outOfRange = .balanceOutOfRange token balance exponent := by
  cases refuses_of_ofPositions h with
  | appraisal hmerge hp h =>
    rw [mergeChanges_nil, Except.ok.injEq] at hmerge
    rcases Position.appraise_eq_refused h with h | ⟨value, h⟩
    · exact ⟨_, hmerge ▸ hp, Position.isOversized_of_value h⟩
    · rcases Position.contribution_eq_error h with hother | ⟨-, -, hother⟩
      · cases hother
      · cases hother

/-! ## Notes -/

namespace ExchangeRate

/-- The underlying tokens that notes are worth, before rounding. -/
def exactUnderlying (rate : ExchangeRate) (notes : Decimal) : ℚ :=
  notes.toRat * rate.totalUnderlying.toRat / rate.totalNotes.toRat

/-- The notes times the underlying total is past the last decimal, or what they are worth is close
below `2 ^ 96` or above it. -/
def Overflows (rate : ExchangeRate) (notes : Decimal) : Prop :=
  TooLarge (notes.toRat * rate.totalUnderlying.toRat) ∨ 2 ^ 96 - 6 ≤ rate.exactUnderlying notes

/-- Where a quotient is past the last decimal its dividend is long, and rounding the dividend has added
less than `10 ^ -28` of it. -/
theorem le_ratio_of_rounds {x n : ℚ} {product : Decimal} (hx : 0 ≤ x) (hn : 1 / 10 ^ 28 ≤ n)
    (hproduct : Rounds x product) (hlarge : TooLarge (product.toRat / n)) : 2 ^ 96 - 6 ≤ x / n := by
  have hn₀ : 0 < n := lt_of_lt_of_le (by positivity) hn
  rw [TooLarge, abs_of_nonneg (div_nonneg (hproduct.nonneg hx) hn₀.le), le_div_iff₀ hn₀] at hlarge
  have herror := (abs_le.1 hproduct.error_le).2
  rw [abs_of_nonneg hx] at herror
  have hlong : 1 / 2 ≤ 2 / 3 * x := by
    by_contra hshort
    rw [max_eq_left (not_le.1 hshort).le] at herror
    norm_num at hn hlarge herror
    linarith
  rw [max_eq_right hlong] at herror
  rw [le_div_iff₀ hn₀]
  norm_num at hlarge herror ⊢
  linarith

theorem overflows_of_toUnderlying? (hrate : rate.IsNonneg) (hnotes : 0 ≤ notes.toRat)
    (h : rate.toUnderlying? notes = none) : rate.Overflows notes := by
  rw [toUnderlying?] at h
  split at h
  · cases h
  · rename_i hzero
    rw [Bool.not_eq_true] at hzero
    rw [Option.bind_eq_bind, Option.bind_eq_none_iff] at h
    cases hproduct : notes.mul? rate.totalUnderlying with
    | none => exact .inl (mul?_eq_none hproduct)
    | some product =>
      exact .inr (le_ratio_of_rounds (mul_nonneg hnotes hrate.underlying)
        (le_toRat_of_pos (hrate.notes_pos hzero)) (mul?_roundsEven hproduct).rounds
        (div?_eq_none hzero (h product hproduct)))

end ExchangeRate

/-- Notes of the pool are held that the pool's rate does not convert. -/
def Pool.Overflows (pool : Pool) (p : Position) : Prop :=
  ∃ notes, p.quantity? = some notes ∧
    (p.token = pool.depositNote ∧ pool.depositRate.Overflows notes ∨
      p.token = pool.loanNote ∧ pool.loanRate.Overflows notes)

theorem exists_of_noteBalance (hrate : rate.IsNonneg)
    (h : noteBalance (findPosition? positions note) rate decimals =
      .error (.balanceOutOfRange token balance exponent)) :
    ∃ p ∈ positions, p.token = note ∧ p.outOfRange = .balanceOutOfRange token balance exponent ∧
      (p.IsOversized ∨ ∃ notes, p.quantity? = some notes ∧ rate.Overflows notes) := by
  obtain ⟨p, hfound, hnone, hnamed⟩ := noteBalance_eq_error h
  refine ⟨p, List.mem_of_find?_eq_some hfound, Change.token_of_findPosition? hfound, hnamed.symm, ?_⟩
  cases hquantity : p.quantity? with
  | none => exact .inl (Position.quantity?_eq_none_iff.1 hquantity)
  | some notes =>
    rw [hquantity, Option.bind_some] at hnone
    exact .inr ⟨notes, rfl, ExchangeRate.overflows_of_toUnderlying? hrate
      (Position.quantity?_nonneg hquantity) hnone⟩

/-- The pool's rates are not negative. -/
def Pool.HasRates (pool : Pool) : Prop := pool.depositRate.IsNonneg ∧ pool.loanRate.IsNonneg

theorem Pool.exists_of_view (hrates : pool.HasRates)
    (h : pool.view token positions market prices available policy =
      .error (.refused (.balanceOutOfRange note balance exponent))) :
    ∃ p ∈ positions, p.outOfRange = .balanceOutOfRange note balance exponent ∧
      (p.IsOversized ∨ pool.Overflows p) := by
  rcases view_eq_refused h with h | h | ⟨held, h⟩
  · obtain ⟨p, hp, htoken, hnamed, hover⟩ := exists_of_noteBalance hrates.1 h
    exact ⟨p, hp, hnamed, hover.imp_right fun ⟨n, hn, hover⟩ ↦ ⟨n, hn, .inl ⟨htoken, hover⟩⟩⟩
  · obtain ⟨p, hp, htoken, hnamed, hover⟩ := exists_of_noteBalance hrates.2 h
    exact ⟨p, hp, hnamed, hover.imp_right fun ⟨n, hn, hover⟩ ↦ ⟨n, hn, .inr ⟨htoken, hover⟩⟩⟩
  · obtain ⟨p, hfound, h⟩ := noteValue_eq_refused h
    obtain ⟨hover, hnamed⟩ := Position.isOversized_of_value h
    exact ⟨p, List.mem_of_find?_eq_some hfound, hnamed, .inl hover⟩

/-! ## Reports

Concrete runs are about an account with one deposit, of notes of the pool where there is one.
-/

namespace Sample

def holding (p : Position) : Snapshot := ⟨.ofTag 99, .ofTag 50, [p], none, ⟨0⟩⟩

/-- The pool with other deposit notes. -/
def ratedMarket (rate : ExchangeRate) : Market :=
  (Market.ofTokens [Sample.pool.token]).setPool { Sample.pool with depositRate := rate }

theorem hasRates_ratedMarket (hrate : rate.IsNonneg) (token : TokenId) (other : Pool)
    (h : (ratedMarket rate).pools.get? token = some other) : other.HasRates := by
  rw [ratedMarket, Market.setPool, Registry.get?_insert] at h
  split at h
  · obtain rfl := Option.some.inj h
    exact ⟨hrate, ExchangeRate.isNonneg_one⟩
  · cases h

end Sample

namespace Engine

/-- An evaluation names a balance as out of range only if it has no decimal, or if it is one of notes
that the rate of a loaded pool does not convert. -/
theorem evaluate_outOfRange
    (hrates : ∀ token pool, market.pools.get? token = some pool → pool.HasRates)
    (h : e.evaluate snapshot market now =
      .error (.refused (.valuation (.balanceOutOfRange token balance exponent)))) :
    ∃ p ∈ snapshot.positions, p.token = token ∧ p.balance = balance ∧ p.exponent = exponent ∧
      (p.IsOversized ∨ ∃ underlying ∈ market.tokens, ∃ pool,
        market.pools.get? underlying = some pool ∧ pool.Overflows p) := by
  have hfields {p : Position} (h : p.outOfRange = .balanceOutOfRange token balance exponent) :
      p.token = token ∧ p.balance = balance ∧ p.exponent = exponent := by
    rwa [Position.outOfRange, ValuationError.balanceOutOfRange.injEq] at h
  rcases Report.ofSnapshot_eq_valuation h with h | ⟨merged, available, hmerge, h⟩
  · obtain ⟨p, hp, hover, hnamed⟩ := Valuation.exists_isOversized h
    obtain ⟨htoken, hbalance, hexponent⟩ := hfields hnamed
    exact ⟨p, hp, htoken, hbalance, hexponent, .inl hover⟩
  · rw [mergeChanges_nil, Except.ok.injEq] at hmerge
    obtain ⟨underlying, hunderlying, pool, hpool, h⟩ := PoolViews.exists_of_ofTokens_eq_error h
    obtain ⟨p, hp, hnamed, hover⟩ := Pool.exists_of_view (hrates _ _ hpool) h
    obtain ⟨htoken, hbalance, hexponent⟩ := hfields hnamed
    exact ⟨p, hmerge ▸ hp, htoken, hbalance, hexponent,
      hover.imp_right fun hover ↦ ⟨underlying, hunderlying, pool, hpool, hover⟩⟩

open Sample in
/-- Notes that have a decimal and are worth ten billion tokens each: the rate does not convert them. -/
theorem evaluate_outOfRange_of_rate :
    engine.evaluate (holding (noteDeposit (10 ^ 20) 0)) (ratedMarket ⟨.lit (10 ^ 5), .lit 1 5⟩) ⟨0⟩ =
        .error (.refused (.valuation (noteDeposit (10 ^ 20) 0).outOfRange)) ∧
      ∃ underlying ∈ [Sample.pool.token], ∃ pool,
        (ratedMarket ⟨.lit (10 ^ 5), .lit 1 5⟩).pools.get? underlying = some pool ∧
          pool.Overflows (noteDeposit (10 ^ 20) 0) := by
  have hevaluate : engine.evaluate (holding (noteDeposit (10 ^ 20) 0))
      (ratedMarket ⟨.lit (10 ^ 5), .lit 1 5⟩) ⟨0⟩ =
        .error (.refused (.valuation (noteDeposit (10 ^ 20) 0).outOfRange)) := by
    rw [evaluate, project, Report.ofSnapshot, Valuation.ofPositions_of_sorted rfl (by decide +kernel)]
    decide +kernel
  obtain ⟨p, hp, -, -, -, hover⟩ := evaluate_outOfRange
    (hasRates_ratedMarket ⟨by decide +kernel, by decide +kernel⟩) hevaluate
  obtain rfl := List.mem_singleton.1 hp
  refine ⟨hevaluate, hover.resolve_left ?_⟩
  rw [← Position.quantity?_eq_none_iff]
  decide +kernel

open Sample in
/-- Amounts below `2 ^ 96` are refused for the count of base units or for the exponent, and notes that
are worth less for the product on the way or for the rounding of the quotient. -/
theorem evaluate_refuses_amounts_in_range :
    (∀ p ∈ [noteDeposit (2 ^ 100) (-6), noteDeposit 1 (-57), noteDeposit 0 29],
      Snapshot.ofSlots (.ofTag 99) (.ofTag 50) [p] none ⟨0⟩ = .ok (holding p) ∧ p.amount < 2 ^ 96 ∧
        engine.evaluate (holding p) (Market.ofTokens []) ⟨0⟩ =
          .error (.refused (.valuation p.outOfRange))) ∧
    ∀ rate ∈ [(⟨.lit (10 ^ 15), .lit (10 ^ 15)⟩ : ExchangeRate),
        ⟨.lit 55459713759985036315480765235 15, .lit 7 1⟩],
      rate.IsNonneg ∧ rate.exactUnderlying (.lit (10 ^ 15)) < 2 ^ 96 ∧
        engine.evaluate (holding (noteDeposit (10 ^ 15) 0)) (ratedMarket rate) ⟨0⟩ =
          .error (.refused (.valuation (noteDeposit (10 ^ 15) 0).outOfRange)) := by
  refine ⟨by decide +kernel, ?_⟩
  rw [List.forall_mem_cons, List.forall_mem_singleton]
  refine ⟨⟨⟨by decide +kernel, by decide +kernel⟩, by decide +kernel, ?_⟩,
    ⟨⟨by decide +kernel, by decide +kernel⟩, by decide +kernel, ?_⟩⟩
  · rw [evaluate, project, Report.ofSnapshot, Valuation.ofPositions_of_sorted rfl (by decide +kernel)]
    decide +kernel
  · rw [evaluate, project, Report.ofSnapshot, Valuation.ofPositions_of_sorted rfl (by decide +kernel)]
    decide +kernel

end Engine

end MarginAccount
