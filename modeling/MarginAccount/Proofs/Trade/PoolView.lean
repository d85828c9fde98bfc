import MarginAccount.Proofs.Account.Valuation
import MarginAccount.Proofs.Trade.Bounds
import MarginAccount.Trade.PoolView

/-! # What a pool view is made of

The configured tokens with a loaded pool are shown, in their order, and the others are skipped
(`PoolViews.ofTokens_eq_ok_iff`). The bounds of a view are those of the pool at the notes that the
account holds. Notes that are worth one token each are never worth more than there are.
-/

namespace MarginAccount

variable {prices : PriceSource} {policy : Policy} {positions : List Position} {market : Market}
  {available : Usd} {token : TokenId} {tokens : List TokenId} {pool : Pool} {view : PoolView}
  {views : PoolViews}

/-! ## Notes at par -/

/-- A note is worth one token. -/
def ExchangeRate.IsPar (rate : ExchangeRate) : Prop :=
  rate.totalNotes.isZero = true ∨ (rate.totalUnderlying.toRat = 1 ∧ rate.totalNotes.toRat = 1)

theorem ExchangeRate.isPar_one : one.IsPar := .inr ⟨Decimal.toRat_one, Decimal.toRat_one⟩

/-- Notes are worth themselves while none are outstanding, and a share of the underlying total after. -/
theorem ExchangeRate.toUnderlying?_eq_some {rate : ExchangeRate} {notes tokens : Decimal} :
    rate.toUnderlying? notes = some tokens ↔
      rate.totalNotes.isZero = true ∧ notes = tokens ∨
      rate.totalNotes.isZero = false ∧ ∃ product, notes.mul? rate.totalUnderlying = some product ∧
        product.div? rate.totalNotes = some tokens := by
  rw [toUnderlying?]
  cases rate.totalNotes.isZero with
  | true => simp
  | false => simp [Option.bind_eq_some_iff]

theorem ExchangeRate.IsPar.toUnderlying? {rate : ExchangeRate} {notes tokens : Decimal}
    (hrate : rate.IsPar) (h : rate.toUnderlying? notes = some tokens) :
    tokens.toRat = notes.toRat := by
  rcases ExchangeRate.toUnderlying?_eq_some.1 h with ⟨-, rfl⟩ | ⟨hz, product, hmul, hdiv⟩
  · rfl
  · obtain ⟨hu, hn⟩ := hrate.resolve_left (by rw [hz]; exact Bool.false_ne_true)
    have hproduct := (Decimal.mul?_roundsEven hmul).rounds
    have htokens := Decimal.div?_rounds hdiv
    rw [hu, mul_one] at hproduct
    rw [hn, div_one] at htokens
    rw [htokens.eq_of_fits, hproduct.eq_of_fits]

theorem Position.underlying_eq_ok {p : Position} {rate : ExchangeRate} {decimals : ℕ}
    {b : TokenAmount} : p.underlying rate decimals = .ok b ↔
      ∃ notes tokens, p.quantity? = some notes ∧ rate.toUnderlying? notes = some tokens ∧
        b = (TokenAmount.clamped tokens).roundDown decimals := by
  rw [underlying]
  constructor
  · intro h
    split at h
    · rename_i tokens hbind
      obtain ⟨notes, hnotes, htokens⟩ := Option.bind_eq_some_iff.1 hbind
      exact ⟨notes, tokens, hnotes, htokens, (Except.ok.inj h).symm⟩
    · cases h
  · rintro ⟨notes, tokens, hnotes, htokens, rfl⟩
    rw [hnotes, Option.bind_some, htokens]

/-- Notes at par are worth at most their quantity. -/
theorem Position.underlying_le {p : Position} {rate : ExchangeRate} {decimals : ℕ} {b : TokenAmount}
    (hrate : rate.IsPar) (h : p.underlying rate decimals = .ok b) :
    ∃ q, p.quantity? = some q ∧ b.value.toRat ≤ max q.toRat 0 := by
  obtain ⟨q, tokens, hq, htokens, rfl⟩ := underlying_eq_ok.1 h
  refine ⟨q, hq, ?_⟩
  have hle := Decimal.toRat_truncateTo_le (TokenAmount.clamped tokens).value decimals
  rw [TokenAmount.toRat_clamped, hrate.toUnderlying? htokens, max_assoc, max_self] at hle
  exact hle

/-! ## Views -/

/-- A view shows the first position of each note, and its bounds come from what it shows. -/
theorem Pool.view_eq_ok (h : pool.view token positions market prices available policy = .ok view) :
    view.token = token ∧ view.depositPosition = findPosition? positions pool.depositNote ∧
      view.loanPosition = findPosition? positions pool.loanNote ∧
      noteBalance view.depositPosition pool.depositRate pool.decimals = .ok view.depositBalance ∧
      TradeBounds.ofPool pool ⟨view.depositBalance, view.loanBalance, market.walletBalance token⟩
        (pool.weights view.depositPosition view.loanPosition) available (prices.quote? pool.token)
        policy = .ok view.bounds := by
  rw [Pool.view] at h
  simp only [bind_eq_ok, Outcome.ofRefusable_eq_ok, Outcome.ofFaultable_eq_ok, pure_eq_ok] at h
  obtain ⟨deposit, hdeposit, loan, hloan, price?, hprice, bounds, hbounds, depositValue, -,
    loanValue, -, rfl⟩ := h
  refine ⟨rfl, rfl, rfl, hdeposit, ?_⟩
  rw [PriceSource.quote?_of_ok hprice]
  exact hbounds

namespace Market

/-- The pool of the token is loaded, and the view is the account's view of it. -/
def Shows (market : Market) (positions : List Position) (prices : PriceSource) (available : Usd)
    (policy : Policy) (token : TokenId) (view : PoolView) : Prop :=
  ∃ pool, market.pools.get? token = some pool ∧
    pool.view token positions market prices available policy = .ok view

theorem Shows.token_eq (h : market.Shows positions prices available policy token view) :
    view.token = token := by
  obtain ⟨pool, -, hview⟩ := h
  exact (Pool.view_eq_ok hview).1

theorem shows_iff (hpool : market.pools.get? token = some pool) :
    market.Shows positions prices available policy token view ↔
      pool.view token positions market prices available policy = .ok view := by
  constructor
  · rintro ⟨_, hpool', hview⟩
    obtain rfl := Option.some.inj (hpool.symm.trans hpool')
    exact hview
  · exact fun hview ↦ ⟨pool, hpool, hview⟩

theorem rightUnique_shows :
    Relator.RightUnique (market.Shows positions prices available policy) := by
  rintro token view view' ⟨pool, hpool, hview⟩ hshows
  exact Except.ok.inj (hview.symm.trans ((shows_iff hpool).1 hshows))

end Market

/-- The views of some tokens are those of the first one, if its pool is loaded, and of the others. -/
theorem PoolViews.exists_ofTokens_cons {rest : List TokenId} :
    (∃ views, ofTokens (token :: rest) positions market prices available policy = .ok views) ↔
      (∀ pool, market.pools.get? token = some pool →
        ∃ view, pool.view token positions market prices available policy = .ok view) ∧
      ∃ views, ofTokens rest positions market prices available policy = .ok views := by
  rw [ofTokens]
  cases market.pools.get? token with
  | none =>
    simp only [bind_eq_ok, pure_eq_ok]
    constructor
    · rintro ⟨_, later, hlater, -⟩
      exact ⟨fun _ h ↦ (by cases h), later, hlater⟩
    · rintro ⟨-, later, hlater⟩
      exact ⟨_, later, hlater, rfl⟩
  | some pool =>
    simp only [bind_eq_ok, pure_eq_ok]
    constructor
    · rintro ⟨_, view, hview, later, hlater, -⟩
      exact ⟨fun _ h ↦ (by cases h; exact ⟨view, hview⟩), later, hlater⟩
    · rintro ⟨hview, later, hlater⟩
      obtain ⟨view, hview⟩ := hview pool rfl
      exact ⟨_, view, hview, later, hlater, rfl⟩

/-- They end with the first one, or after it. -/
theorem PoolViews.ofTokens_cons_eq_error {rest : List TokenId} {failure : Failure ValuationError} :
    ofTokens (token :: rest) positions market prices available policy = .error failure ↔
      (∃ pool, market.pools.get? token = some pool ∧
        pool.view token positions market prices available policy = .error failure) ∨
      (∀ pool, market.pools.get? token = some pool →
        ∃ view, pool.view token positions market prices available policy = .ok view) ∧
      ofTokens rest positions market prices available policy = .error failure := by
  rw [ofTokens]
  cases market.pools.get? token with
  | none =>
    rw [bind_eq_error]
    constructor
    · rintro (h | ⟨_, -, h⟩)
      · exact .inr ⟨fun _ h ↦ (by cases h), h⟩
      · cases h
    · rintro (⟨_, h, -⟩ | ⟨-, h⟩)
      · cases h
      · exact .inl h
  | some pool =>
    simp only [bind_eq_error]
    constructor
    · rintro (h | ⟨view, hview, h | ⟨_, -, h⟩⟩)
      · exact .inl ⟨pool, rfl, h⟩
      · exact .inr ⟨fun _ h ↦ (by cases h; exact ⟨view, hview⟩), h⟩
      · cases h
    · rintro (⟨_, hpool, h⟩ | ⟨hview, h⟩)
      · cases hpool
        exact .inl h
      · obtain ⟨view, hview⟩ := hview pool rfl
        exact .inr ⟨view, hview, .inl h⟩

/-- Views that end have a loaded pool of whose view they end. -/
theorem PoolViews.exists_of_ofTokens_eq_error {failure : Failure ValuationError}
    (h : ofTokens tokens positions market prices available policy = .error failure) :
    ∃ token ∈ tokens, ∃ pool, market.pools.get? token = some pool ∧
      pool.view token positions market prices available policy = .error failure := by
  induction tokens with
  | nil => cases h
  | cons token rest ih =>
    rcases ofTokens_cons_eq_error.1 h with ⟨pool, hpool, h⟩ | ⟨-, h⟩
    · exact ⟨token, List.mem_cons_self, pool, hpool, h⟩
    · obtain ⟨later, hlater, h⟩ := ih h
      exact ⟨later, List.mem_cons_of_mem _ hlater, h⟩

namespace PoolViews

/-- The views are those of the tokens with a pool, one by one, and the other tokens are skipped. -/
theorem ofTokens_eq_ok_iff :
    ofTokens tokens positions market prices available policy = .ok views ↔
      List.Forall₂ (market.Shows positions prices available policy)
        (tokens.filter market.pools.contains) views.views ∧
      views.skipped = tokens.filter (!market.pools.contains ·) := by
  obtain ⟨shown, skipped⟩ := views
  induction tokens generalizing shown skipped with
  | nil =>
    rw [ofTokens, pure_eq_ok, List.filter_nil, List.filter_nil, List.forall₂_nil_left_iff, empty,
      PoolViews.mk.injEq, eq_comm, eq_comm (a := skipped)]
  | cons token rest ih =>
    rw [ofTokens]
    cases hpool : market.pools.get? token with
    | none =>
      have hcontains : market.pools.contains token = false := by rw [Registry.contains, hpool]; rfl
      rw [List.filter_cons_of_neg (by rw [hcontains]; exact Bool.false_ne_true),
        List.filter_cons_of_pos (by rw [hcontains]; rfl)]
      simp only [bind_eq_ok, pure_eq_ok]
      constructor
      · rintro ⟨later, hlater, heq⟩
        obtain ⟨rfl, rfl⟩ := PoolViews.mk.inj heq
        obtain ⟨hshown, hskipped⟩ := (ih _ _).1 hlater
        exact ⟨hshown, congrArg (token :: ·) hskipped⟩
      · rintro ⟨hshown, rfl⟩
        exact ⟨⟨shown, _⟩, (ih _ _).2 ⟨hshown, rfl⟩, rfl⟩
    | some pool =>
      have hcontains : market.pools.contains token = true := by rw [Registry.contains, hpool]; rfl
      rw [List.filter_cons_of_pos hcontains,
        List.filter_cons_of_neg (by rw [hcontains]; exact Bool.false_ne_true),
        List.forall₂_cons_left_iff]
      simp only [bind_eq_ok, pure_eq_ok]
      constructor
      · rintro ⟨view, hview, later, hlater, heq⟩
        obtain ⟨rfl, rfl⟩ := PoolViews.mk.inj heq
        obtain ⟨hshown, hskipped⟩ := (ih _ _).1 hlater
        exact ⟨⟨view, _, ⟨pool, hpool, hview⟩, hshown, rfl⟩, hskipped⟩
      · rintro ⟨⟨view, later, hshows, hshown, rfl⟩, hskipped⟩
        exact ⟨view, (Market.shows_iff hpool).1 hshows, ⟨later, skipped⟩,
          (ih _ _).2 ⟨hshown, hskipped⟩, rfl⟩

/-- The tokens that are shown, in order. -/
theorem tokens_of_ofTokens (h : ofTokens tokens positions market prices available policy = .ok views) :
    views.views.map (·.token) = tokens.filter market.pools.contains := by
  have htokens := (ofTokens_eq_ok_iff.1 h).1.imp fun _ _ hshows ↦ hshows.token_eq.symm
  rw [← List.forall₂_map_right_iff (R := Eq), List.forall₂_eq_eq_eq] at htokens
  exact htokens.symm

/-- A listed view is the view of a loaded pool. -/
theorem view_of_mem (h : ofTokens tokens positions market prices available policy = .ok views)
    (hv : view ∈ views.views) :
    ∃ pool, market.pools.get? view.token = some pool ∧
      pool.view view.token positions market prices available policy = .ok view := by
  have hshows := (ofTokens_eq_ok_iff.1 h).1
  rw [← tokens_of_ofTokens h, List.forall₂_map_left_iff, List.forall₂_same] at hshows
  exact hshows view hv

end PoolViews

end MarginAccount
