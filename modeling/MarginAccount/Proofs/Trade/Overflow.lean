import MarginAccount.Proofs.Account.Appraisal
import MarginAccount.Proofs.Account.Change
import MarginAccount.Proofs.Time
import MarginAccount.Proofs.Trade.PoolView

/-! # The one sum that may overflow

A number that does not fit a decimal is a refusal nearly everywhere. What is left to fault in the
sizing of trades are shares of what there is and differences of what is not negative, which always
fit, and one sum: the most that may be swapped is the deposit and the bound of a borrow together, and
only then cut to the vault. A loaded pool with sound numbers has no view for an account exactly where
that sum is past the last decimal (`Pool.view_eq_fault`).
-/

namespace MarginAccount

variable {prices source : PriceSource} {policy : Policy} {p : Position} {f : Fault}
  {positions : List Position} {changes : List Change} {market : Market} {available : Usd}
  {token : TokenId} {pool : Pool}

/-! ## Prices that answer -/

namespace PriceSource

/-- Looking a token up never faults. -/
def IsTotal (source : PriceSource) : Prop := ∀ token, ∃ reading?, source token = .ok reading?

theorem isTotal_ofRegistry (readings : Registry OraclePrice) : (ofRegistry readings).IsTotal :=
  fun _ ↦ ⟨_, rfl⟩

/-- Readings answer as fresh or stale where their ages are durations. -/
theorem IsTotal.fresh {now : Timestamp} (h : source.IsTotal)
    (hage : ∀ token reading, source token = .ok (some reading) →
      Duration.inRange (now.milliseconds - reading.timestamp.milliseconds) = true) (maxAge : ℤ) :
    (source.fresh now maxAge).IsTotal := by
  intro token
  obtain ⟨reading?, hreading⟩ := h token
  rw [PriceSource.fresh, hreading]
  cases reading? with
  | none => exact ⟨none, rfl⟩
  | some reading =>
    have hsince : now.since reading.timestamp =
        .ok ⟨now.milliseconds - reading.timestamp.milliseconds⟩ :=
      Timestamp.since_eq_ok.2 ⟨hage token reading hreading, rfl⟩
    obtain ⟨stale, hstale⟩ : ∃ stale, reading.isStale now maxAge = .ok stale := by
      rw [OraclePrice.isStale, OraclePrice.ageSeconds, hsince]
      exact ⟨_, rfl⟩
    exact ⟨_, bind_eq_ok.2 ⟨_, rfl, bind_eq_ok.2 ⟨stale, hstale, rfl⟩⟩⟩

theorem IsTotal.usd?_eq (h : source.IsTotal) (token : TokenId) :
    source.usd? token = .ok (source.quote? token) := by
  obtain ⟨reading?, hreading⟩ := h token
  rw [quote?, usd?, hreading]
  rfl

end PriceSource

theorem Position.value_ne_fault (hprices : prices.IsTotal) : p.value prices ≠ .error (.fault f) := by
  intro h
  rw [value, hprices.usd?_eq] at h
  rcases bind_eq_error.1 h with h | ⟨quantity, -, h⟩
  · exact Outcome.ofOption_ne_fault _ _ h
  · rcases bind_eq_error.1 h with h | ⟨price?, -, h⟩
    · cases h
    · cases price? with
      | none => cases h
      | some price =>
        rcases bind_eq_error.1 h with h | ⟨_, -, h⟩
        · exact Outcome.ofOption_ne_fault _ _ h
        · cases h

theorem Position.appraise_ne_fault (hprices : prices.IsTotal) :
    p.appraise prices policy ≠ .error (.fault f) := by
  intro h
  rw [appraise] at h
  split at h
  · cases h
  · rcases bind_eq_error.1 h with h | ⟨usd?, -, h⟩
    · exact value_ne_fault hprices h
    · cases usd? with
      | none => cases h
      | some usd =>
        rcases bind_eq_error.1 h with h | ⟨_, -, h⟩
        · exact Outcome.ofRefusable_ne_fault _ h
        · cases h

/-- Positions are valued or refused. -/
theorem Valuation.ofPositions_ne_fault (hprices : prices.IsTotal) :
    ofPositions positions prices changes policy ≠ .error (.fault f) := by
  intro h
  rw [ofPositions] at h
  rcases bind_eq_error.1 h with h | ⟨merged, -, h⟩
  · exact Outcome.ofRefusable_ne_fault _ (Outcome.mapRefusal_eq_fault.1 h)
  · rcases bind_eq_error.1 h with h | ⟨appraisals, -, h⟩
    · obtain ⟨p, -, h⟩ := exists_of_mapM_eq_error h
      exact Position.appraise_ne_fault hprices h
    · rcases bind_eq_error.1 h with h | ⟨total, -, h⟩
      · exact Outcome.ofRefusable_ne_fault _ h
      · exact Outcome.ofRefusable_ne_fault _ h

theorem noteValue_ne_fault {p? : Option Position} (hprices : prices.IsTotal) :
    noteValue p? prices ≠ .error (.fault f) := by
  intro h
  cases p? with
  | none => cases h
  | some p =>
    rcases bind_eq_error.1 h with h | ⟨_, -, h⟩
    · exact Position.value_ne_fault hprices h
    · cases h

/-! ## Sound markets -/

/-- A weight lies between zero and one. -/
def Decimal.IsWeight (d : Decimal) : Prop := 0 ≤ d.toRat ∧ d.toRat ≤ 1

theorem Decimal.isWeight_one : one.IsWeight := ⟨toRat_one.ge.trans' zero_le_one, toRat_one.le⟩

structure Pool.IsSound (pool : Pool) : Prop where
  vaultLiquidity : 0 ≤ pool.vaultLiquidity.value.toRat
  totalBorrowed : 0 ≤ pool.totalBorrowed.value.toRat
  depositWeight : pool.depositWeight.IsWeight
  loanWeight : pool.loanWeight.IsWeight

structure Market.IsSound (market : Market) : Prop where
  pools : ∀ token pool, market.pools.get? token = some pool → pool.IsSound
  wallet : ∀ token amount, market.wallet.get? token = some amount → 0 ≤ amount.value.toRat

/-! Markets stay sound as they are put together. -/

theorem Market.isSound_ofTokens (tokens : List TokenId) : (ofTokens tokens).IsSound where
  pools _ _ h := by cases h
  wallet _ _ h := by cases h

theorem Market.IsSound.setPool (h : market.IsSound) (hpool : pool.IsSound) :
    (market.setPool pool).IsSound where
  pools token other hother := by
    rw [Market.setPool, Registry.get?_insert] at hother
    split at hother
    · cases hother
      exact hpool
    · exact h.pools token other hother
  wallet := h.wallet

theorem Market.IsSound.setPrice (h : market.IsSound) (token : TokenId) (reading : OraclePrice) :
    (market.setPrice token reading).IsSound :=
  ⟨h.pools, h.wallet⟩

theorem Market.IsSound.walletBalance_nonneg (h : market.IsSound) (token : TokenId) :
    0 ≤ (market.walletBalance token).value.toRat := by
  rw [walletBalance]
  cases hamount : market.wallet.get? token with
  | none => exact TokenAmount.toRat_zero.ge
  | some amount => exact h.wallet token amount hamount

/-- Notes that are held weigh what the account registered, others what the pool says. -/
theorem Pool.IsSound.weights (h : pool.IsSound) (hpositions : ∀ p ∈ positions, p.check = .ok ()) :
    let weights := pool.weights (findPosition? positions pool.depositNote)
      (findPosition? positions pool.loanNote)
    weights.deposit.IsWeight ∧ weights.loan.IsWeight := by
  have hheld : ∀ (note : TokenId) (fallback : Decimal), fallback.IsWeight →
      (((findPosition? positions note).map (·.modifier)).getD fallback).IsWeight := by
    intro note fallback hfallback
    cases hp : findPosition? positions note with
    | none => exact hfallback
    | some p =>
      obtain ⟨hnonneg, hone, -⟩ := checkModifier_eq_ok.1 (hpositions p (List.mem_of_find?_eq_some hp))
      exact ⟨hnonneg, hone⟩
  exact ⟨hheld _ _ h.depositWeight, hheld _ _ h.loanWeight⟩

/-! ## Sizing -/

theorem TokenAmount.add_eq_error {a b : TokenAmount} :
    a.add b = .error f ↔ f = .addition ∧ TooLarge (a.value.toRat + b.value.toRat) := by
  rw [← Decimal.add?_eq_none_iff, and_comm, ← Decimal.orFault_eq_error, ← Decimal.add, add]
  cases a.value.add b.value with
  | error f' => exact ⟨fun h ↦ (by cases h; rfl), fun h ↦ (by cases h; rfl)⟩
  | ok c => exact ⟨fun h ↦ (by cases h), fun h ↦ (by cases h)⟩

theorem TokenAmount.add_eq_ok {a b c : TokenAmount} :
    a.add b = .ok c ↔ ∃ sum, a.value.add? b.value = some sum ∧ c = ⟨sum⟩ := by
  rw [add, Decimal.add]
  cases a.value.add? b.value with
  | none => simp [Except.map]
  | some sum => simp [Except.map, eq_comm]

theorem TokenAmount.saturatingSub_eq_ok {a b c : TokenAmount} :
    a.saturatingSub b = .ok c ↔ ∃ rest, a.value.sub? b.value = some rest ∧ c = .clamped rest := by
  rw [saturatingSub, Decimal.sub]
  cases a.value.sub? b.value with
  | none => simp [Except.map]
  | some rest => simp [Except.map, eq_comm]

/-- What a number leaves of one is a share as well. -/
theorem Decimal.exists_one_sub {d : Decimal} (h : d.IsWeight) :
    ∃ c, Decimal.one.sub d = .ok c ∧ c.IsWeight := by
  obtain ⟨c, hc⟩ := exists_sub?_of_nonneg (toRat_one.ge.trans' zero_le_one) h.1
  have hround := sub?_roundsEven hc
  rw [toRat_one] at hround
  refine ⟨c, orFault_eq_ok.2 hc, hround.nonneg (sub_nonneg.2 h.2), ?_⟩
  rw [← toRat_one]
  exact hround.rounds.le_of_le (by rw [toRat_one]; exact sub_le_self _ h.1)

theorem Decimal.exists_mul_of_share {a b : Decimal} (ha : 0 ≤ a.toRat) (hb : b.IsWeight) :
    ∃ c, a.mul b = .ok c ∧ 0 ≤ c.toRat := by
  obtain ⟨c, hc⟩ := exists_mul?_of_share ha hb.1 hb.2
  exact ⟨c, orFault_eq_ok.2 hc, (mul?_share ha hb.1 hb.2 hc).1⟩

theorem Pool.exists_borrowHeadroom {cap : Decimal} (hpool : pool.IsSound) (hcap : cap.IsWeight) :
    ∃ headroom, pool.borrowHeadroom cap = .ok headroom := by
  obtain ⟨lendable, hlendable, hlendable₀⟩ := Decimal.exists_mul_of_share hpool.vaultLiquidity hcap
  obtain ⟨rest, hrest, hrest'⟩ := Decimal.exists_one_sub hcap
  obtain ⟨kept, hkept, hkept₀⟩ := Decimal.exists_mul_of_share hpool.totalBorrowed hrest'
  obtain ⟨room, hroom⟩ := Decimal.exists_sub?_of_nonneg hlendable₀ hkept₀
  have hsub : lendable.sub kept = .ok room := Decimal.orFault_eq_ok.2 hroom
  simp only [borrowHeadroom, hlendable, hrest, hkept, hsub, bind, Except.bind]
  exact ⟨_, rfl⟩

theorem Pool.borrowHeadroom_nonneg {cap : Decimal} {headroom : TokenAmount}
    (h : pool.borrowHeadroom cap = .ok headroom) : 0 ≤ headroom.value.toRat := by
  simp only [borrowHeadroom, bind_eq_ok, pure_eq_ok] at h
  obtain ⟨_, -, _, -, _, -, room, -, rfl⟩ := h
  exact TokenAmount.clamped_nonneg room

/-- A pool has no more room for borrows than there is in its vault. -/
theorem Pool.borrowHeadroom_le {cap : Decimal} {headroom : TokenAmount}
    (hvault : 0 ≤ pool.vaultLiquidity.value.toRat) (hborrowed : 0 ≤ pool.totalBorrowed.value.toRat)
    (hcap : cap.IsWeight) (h : pool.borrowHeadroom cap = .ok headroom) :
    headroom.value.toRat ≤ pool.vaultLiquidity.value.toRat := by
  simp only [borrowHeadroom, bind_eq_ok, pure_eq_ok] at h
  obtain ⟨lendable, hlendable, rest, hrest, kept, hkept, room, hroom, rfl⟩ := h
  obtain ⟨rest', hrest', hweight⟩ := Decimal.exists_one_sub hcap
  obtain rfl : rest' = rest := Except.ok.inj (hrest'.symm.trans hrest)
  have hlendable₁ := (Decimal.mul?_share hvault hcap.1 hcap.2 (Decimal.orFault_eq_ok.1 hlendable)).2
  have hkept₀ := (Decimal.mul?_share hborrowed hweight.1 hweight.2 (Decimal.orFault_eq_ok.1 hkept)).1
  have hroom₁ := (Decimal.sub?_roundsEven (Decimal.orFault_eq_ok.1 hroom)).rounds.le_of_le
    (sub_le_self _ hkept₀)
  rw [TokenAmount.toRat_clamped]
  exact max_le (hroom₁.trans hlendable₁) hvault

namespace TradeBounds

variable {weights : NoteWeights} {balances : PoolBalances} {price? : Option Decimal}

/-- The bound of a borrow on its own. -/
def borrowBound (pool : Pool) (weights : NoteWeights) (available : Usd) (price? : Option Decimal)
    (policy : Policy) : Except Fault TokenAmount := do
  let headroom ← pool.borrowHeadroom policy.utilizationCap
  let setupWeight ← weights.loan.mul policy.setupFraction
  let limit ← borrowLimit headroom weights setupWeight available.value
    (price?.filter (·.isPositive))
  pure (limit.roundDown pool.decimals)

/-- It is the bound that is offered. -/
theorem borrow_ofPool {b : TradeBounds}
    (h : ofPool pool balances weights available price? policy = .ok b) :
    borrowBound pool weights available price? policy = .ok b.borrow := by
  rw [ofPool, bind_eq_ok] at h
  obtain ⟨wallet, -, h⟩ := h
  simp only [bind_eq_ok, pure_eq_ok] at h
  obtain ⟨headroom, hheadroom, setupWeight, hweight, limit, hlimit, afterBorrow, -, rfl⟩ := h
  simp only [borrowBound, hheadroom, hweight, hlimit, bind, Except.bind]
  rfl

theorem exists_spendable {wallet : TokenAmount} (h : 0 ≤ wallet.value.toRat) (pool : Pool)
    (policy : Policy) : ∃ spent, spendable pool wallet policy = .ok spent := by
  rw [spendable]
  split
  · obtain ⟨rest, hrest⟩ := Decimal.exists_sub?_of_nonneg h
      (TokenAmount.clamped_nonneg policy.feeBuffer)
    have hsub : wallet.value.sub (TokenAmount.clamped policy.feeBuffer).value = .ok rest :=
      Decimal.orFault_eq_ok.2 hrest
    rw [TokenAmount.saturatingSub, hsub]
    exact ⟨_, rfl⟩
  · exact ⟨_, rfl⟩

theorem exists_borrowLimit (h : weights.deposit.IsWeight) (headroom : TokenAmount)
    (setupWeight surplus : Decimal) (price? : Option Decimal) :
    ∃ limit, borrowLimit headroom weights setupWeight surplus price? = .ok limit := by
  cases price? with
  | none => exact ⟨_, rfl⟩
  | some price =>
    obtain ⟨demand?, hdemand⟩ : ∃ demand?, borrowDemand? weights setupWeight price = .ok demand? := by
      obtain ⟨uncovered, huncovered, -⟩ := Decimal.exists_one_sub h
      rw [borrowDemand?]
      cases Decimal.one.div? setupWeight with
      | none => exact ⟨_, rfl⟩
      | some inverse =>
        rw [huncovered]
        exact ⟨_, rfl⟩
    rw [borrowLimit, hdemand]
    split
    · cases demand? with
      | none => exact ⟨_, rfl⟩
      | some demand => exact ⟨_, rfl⟩
    · exact ⟨_, rfl⟩

theorem collateralLimit?_nonneg {surplus demand : Decimal} {limit : TokenAmount}
    (h : collateralLimit? surplus demand = some limit) : 0 ≤ limit.value.toRat := by
  rw [collateralLimit?] at h
  split at h
  · cases h
    exact TokenAmount.toRat_zero.ge
  · split at h
    · cases h
    · obtain ⟨q, -, rfl⟩ := Option.map_eq_some_iff.1 h
      exact TokenAmount.clamped_nonneg q

theorem borrowLimit_le {headroom limit : TokenAmount} {setupWeight surplus : Decimal}
    (hheadroom : 0 ≤ headroom.value.toRat)
    (h : borrowLimit headroom weights setupWeight surplus price? = .ok limit) :
    0 ≤ limit.value.toRat ∧ limit.value.toRat ≤ headroom.value.toRat := by
  have hzero := TokenAmount.toRat_zero
  cases price? with
  | none =>
    cases h
    exact ⟨hzero.ge, hzero.le.trans hheadroom⟩
  | some price =>
    rw [borrowLimit] at h
    split at h
    · rw [bind_eq_ok] at h
      obtain ⟨demand?, -, h⟩ := h
      cases demand? with
      | none =>
        cases h
        rw [TokenAmount.toRat_min, hzero]
        exact ⟨le_min hheadroom le_rfl, min_le_left _ _⟩
      | some demand =>
        cases h
        rw [TokenAmount.toRat_min]
        refine ⟨le_min hheadroom ?_, min_le_left _ _⟩
        cases hlimit : collateralLimit? surplus demand with
        | none => exact hheadroom
        | some limit => exact collateralLimit?_nonneg hlimit
    · cases h
      exact ⟨hzero.ge, hzero.le.trans hheadroom⟩

/-- A borrow is bounded by the room in the pool. -/
theorem borrowBound_le_headroom {borrow : TokenAmount}
    (h : borrowBound pool weights available price? policy = .ok borrow) :
    0 ≤ borrow.value.toRat ∧ ∃ headroom,
      pool.borrowHeadroom policy.utilizationCap = .ok headroom ∧
        borrow.value.toRat ≤ headroom.value.toRat := by
  simp only [borrowBound, bind_eq_ok, pure_eq_ok] at h
  obtain ⟨headroom, hheadroom, _, -, limit, hlimit, rfl⟩ := h
  obtain ⟨hlimit₀, hlimit₁⟩ := borrowLimit_le (Pool.borrowHeadroom_nonneg hheadroom) hlimit
  exact ⟨TokenAmount.roundDown_nonneg hlimit₀ _, headroom, hheadroom,
    (TokenAmount.roundDown_le_of_nonneg hlimit₀ _).trans hlimit₁⟩

/-- A borrow is bounded by the vault. -/
theorem borrowBound_le {borrow : TokenAmount} (hpool : pool.IsSound)
    (hpolicy : policy.check = .ok ())
    (h : borrowBound pool weights available price? policy = .ok borrow) :
    0 ≤ borrow.value.toRat ∧ borrow.value.toRat ≤ pool.vaultLiquidity.value.toRat := by
  obtain ⟨hcap, hcap₁⟩ := Policy.utilizationCap_of_check hpolicy
  obtain ⟨hborrow₀, headroom, hheadroom, hle⟩ := borrowBound_le_headroom h
  exact ⟨hborrow₀, hle.trans (Pool.borrowHeadroom_le hpool.vaultLiquidity hpool.totalBorrowed
    ⟨hcap.le, hcap₁⟩ hheadroom)⟩

/-- A sound pool only lacks bounds where the deposit and the borrow bound do not add up. -/
theorem ofPool_eq_error (hpool : pool.IsSound) (hwallet : 0 ≤ balances.wallet.value.toRat)
    (hdeposit : weights.deposit.IsWeight) (hloan : weights.loan.IsWeight)
    (hpolicy : policy.check = .ok ()) :
    ofPool pool balances weights available price? policy = .error f ↔
      f = .addition ∧ ∃ borrow, borrowBound pool weights available price? policy = .ok borrow ∧
        TooLarge (balances.deposit.value.toRat + borrow.value.toRat) := by
  obtain ⟨hfraction, hfraction₁⟩ := Policy.setupFraction_of_check hpolicy
  obtain ⟨hcap, hcap₁⟩ := Policy.utilizationCap_of_check hpolicy
  obtain ⟨spent, hspent⟩ := exists_spendable hwallet pool policy
  obtain ⟨headroom, hheadroom⟩ := pool.exists_borrowHeadroom hpool ⟨hcap.le, hcap₁⟩
  obtain ⟨setupWeight, hweight, -⟩ := Decimal.exists_mul_of_share hloan.1 ⟨hfraction.le, hfraction₁⟩
  obtain ⟨limit, hlimit⟩ := exists_borrowLimit hdeposit headroom setupWeight available.value
    (price?.filter (·.isPositive))
  have hborrow : borrowBound pool weights available price? policy =
      .ok (limit.roundDown pool.decimals) := by
    simp only [borrowBound, hheadroom, hweight, hlimit, bind, Except.bind]
    rfl
  simp only [hborrow, Except.ok.injEq, exists_eq_left', ← TokenAmount.add_eq_error]
  simp only [ofPool, hspent, hheadroom, hweight, hlimit, bind, Except.bind]
  cases balances.deposit.add (limit.roundDown pool.decimals) with
  | error f' => exact ⟨fun h ↦ (by cases h; rfl), fun h ↦ (by cases h; rfl)⟩
  | ok sum => exact ⟨fun h ↦ (by cases h), fun h ↦ (by cases h)⟩

end TradeBounds

/-! ## Views -/

/-- The deposit of an account in a pool and the bound of its borrow there are past the last decimal
together. -/
def Pool.Overfills (pool : Pool) (positions : List Position) (prices : PriceSource)
    (available : Usd) (policy : Policy) : Prop :=
  let deposit? := findPosition? positions pool.depositNote
  let loan? := findPosition? positions pool.loanNote
  ∃ deposit loan borrow,
    noteBalance deposit? pool.depositRate pool.decimals = .ok deposit ∧
    noteBalance loan? pool.loanRate pool.decimals = .ok loan ∧
    TradeBounds.borrowBound pool (pool.weights deposit? loan?) available
      (prices.quote? pool.token) policy = .ok borrow ∧
    TooLarge (deposit.value.toRat + borrow.value.toRat)

theorem Pool.view_eq_fault (hprices : prices.IsTotal) (hmarket : market.IsSound)
    (hpool : market.pools.get? token = some pool) (hpositions : ∀ p ∈ positions, p.check = .ok ())
    (hpolicy : policy.check = .ok ()) :
    pool.view token positions market prices available policy = .error (.fault f) ↔
      f = .addition ∧ pool.Overfills positions prices available policy := by
  have hsound := hmarket.pools token pool hpool
  obtain ⟨hdeposit, hloan⟩ := hsound.weights hpositions
  have hbounds : ∀ deposit loan, TradeBounds.ofPool pool
      ⟨deposit, loan, market.walletBalance token⟩
      (pool.weights (findPosition? positions pool.depositNote)
        (findPosition? positions pool.loanNote))
      available (prices.quote? pool.token) policy = .error f ↔ _ := fun _ _ ↦
    TradeBounds.ofPool_eq_error hsound (hmarket.walletBalance_nonneg token) hdeposit hloan hpolicy
  simp only [view, hprices.usd?_eq, bind_eq_error, Outcome.ofRefusable_eq_ok,
    Outcome.ofFaultable_eq_ok, Outcome.ofFaultable_eq_fault, Except.ok.injEq, exists_eq_left',
    hbounds, Overfills]
  constructor
  · rintro (h | ⟨deposit, hd, h | ⟨loan, hl, h | h | ⟨_, -, h | ⟨_, -, h | ⟨_, -, h⟩⟩⟩⟩⟩)
    · exact absurd h (Outcome.ofRefusable_ne_fault _)
    · exact absurd h (Outcome.ofRefusable_ne_fault _)
    · cases h
    · obtain ⟨hf, borrow, hborrow, hlarge⟩ := h
      exact ⟨hf, deposit, loan, borrow, hd, hl, hborrow, hlarge⟩
    · exact absurd h (noteValue_ne_fault hprices)
    · exact absurd h (noteValue_ne_fault hprices)
    · cases h
  · rintro ⟨hf, deposit, loan, borrow, hd, hl, hborrow, hlarge⟩
    exact .inr ⟨deposit, hd, .inr ⟨loan, hl, .inr (.inl ⟨hf, borrow, hborrow, hlarge⟩)⟩⟩

/-- What notes are worth is never negative, and cut to the places of the token. -/
theorem exists_clamped_of_noteBalance {p? : Option Position} {rate : ExchangeRate} {decimals : ℕ}
    {b : TokenAmount} (h : noteBalance p? rate decimals = .ok b) :
    ∃ d, b = (TokenAmount.clamped d).roundDown decimals := by
  cases p? with
  | none =>
    cases h
    exact ⟨.zero, rfl⟩
  | some p =>
    obtain ⟨-, tokens, -, -, rfl⟩ := Position.underlying_eq_ok.1 h
    exact ⟨tokens, rfl⟩

theorem noteBalance_nonneg {p? : Option Position} {rate : ExchangeRate} {decimals : ℕ}
    {b : TokenAmount} (h : noteBalance p? rate decimals = .ok b) : 0 ≤ b.value.toRat := by
  obtain ⟨d, rfl⟩ := exists_clamped_of_noteBalance h
  exact TokenAmount.roundDown_nonneg (TokenAmount.clamped_nonneg d) _

theorem scale_le_of_noteBalance {p? : Option Position} {rate : ExchangeRate} {decimals : ℕ}
    {b : TokenAmount} (h : noteBalance p? rate decimals = .ok b) : b.value.scale ≤ decimals := by
  obtain ⟨d, rfl⟩ := exists_clamped_of_noteBalance h
  exact Decimal.truncateTo_scale_le _ _

/-- Nobody overfills a pool of which the vault and the deposit fit a decimal together. -/
theorem Pool.not_overfills (hpool : pool.IsSound) (hpolicy : policy.check = .ok ())
    (hfits : ∀ deposit, noteBalance (findPosition? positions pool.depositNote) pool.depositRate
      pool.decimals = .ok deposit →
      ¬TooLarge (deposit.value.toRat + pool.vaultLiquidity.value.toRat)) :
    ¬pool.Overfills positions prices available policy := by
  rintro ⟨deposit, loan, borrow, hdeposit, -, hborrow, hlarge⟩
  obtain ⟨hborrow₀, hle⟩ := TradeBounds.borrowBound_le hpool hpolicy hborrow
  have hdeposit₀ := noteBalance_nonneg hdeposit
  refine hfits deposit hdeposit (hlarge.mono ?_)
  rw [abs_of_nonneg (add_nonneg hdeposit₀ hborrow₀),
    abs_of_nonneg (add_nonneg hdeposit₀ hpool.vaultLiquidity)]
  gcongr

/-- The views end with the first pool that an account overfills, if those before it have one. -/
theorem PoolViews.ofTokens_eq_fault {tokens : List TokenId} (hprices : prices.IsTotal)
    (hmarket : market.IsSound) (hpositions : ∀ p ∈ positions, p.check = .ok ())
    (hpolicy : policy.check = .ok ()) :
    ofTokens tokens positions market prices available policy = .error (.fault f) ↔
      f = .addition ∧ ∃ before token after pool, tokens = before ++ token :: after ∧
        (∃ views, ofTokens before positions market prices available policy = .ok views) ∧
        market.pools.get? token = some pool ∧ pool.Overfills positions prices available policy := by
  induction tokens with
  | nil => simp [ofTokens, pure, Except.pure]
  | cons first rest ih =>
    rw [ofTokens_cons_eq_error, ih]
    constructor
    · rintro (⟨pool, hpool, hview⟩ |
        ⟨hfirst, hf, before, token, after, pool, rfl, hbefore, hpool, hover⟩)
      · obtain ⟨hf, hover⟩ := (pool.view_eq_fault hprices hmarket hpool hpositions hpolicy).1 hview
        exact ⟨hf, [], first, rest, pool, rfl, ⟨_, rfl⟩, hpool, hover⟩
      · exact ⟨hf, first :: before, token, after, pool, rfl,
          exists_ofTokens_cons.2 ⟨hfirst, hbefore⟩, hpool, hover⟩
    · rintro ⟨hf, before, token, after, pool, htokens, hbefore, hpool, hover⟩
      cases before with
      | nil =>
        obtain ⟨rfl, -⟩ := List.cons.inj htokens
        exact .inl ⟨pool, hpool,
          (pool.view_eq_fault hprices hmarket hpool hpositions hpolicy).2 ⟨hf, hover⟩⟩
      | cons first' before =>
        obtain ⟨rfl, rfl⟩ := List.cons.inj htokens
        obtain ⟨hfirst, hbefore⟩ := exists_ofTokens_cons.1 hbefore
        exact .inr ⟨hfirst, hf, before, token, after, pool, rfl, hbefore, hpool, hover⟩

end MarginAccount
