import MarginAccount.Proofs.Engine.Report

/-! # The views partition the configured tokens

The tokens are shown or skipped in their order, and a token that is configured twice is shown or
skipped twice. What is shown of a token depends on its own pool and on no other one, even if they
share their notes: so another pool that is loaded shows its token at the places at which it was
skipped, and changes nothing else (`PoolViews.partition_of_ofMarket`).
-/

namespace MarginAccount

variable {positions : List Position} {market : Market} {prices : PriceSource} {available : Usd}
  {policy : Policy} {token : TokenId} {tokens : List TokenId} {pool : Pool} {view : PoolView}
  {views views' : PoolViews}

/-! ## What is shown of a token -/

namespace Market

/-- A pool that is loaded is shown under its own token. -/
theorem shows_setPool_self :
    (market.setPool pool).Shows positions prices available policy pool.token view ↔
      pool.view pool.token positions market prices available policy = .ok view := by
  rw [shows_iff (Registry.get?_insert_self ..)]
  rfl

/-- What is shown of the other tokens stays as it is. -/
theorem shows_setPool_of_ne (h : token ≠ pool.token) :
    (market.setPool pool).Shows positions prices available policy token view ↔
      market.Shows positions prices available policy token view := by
  rw [Shows, setPool, Registry.get?_insert, if_neg h]
  rfl

theorem contains_setPool (market : Market) (pool : Pool) (token : TokenId) :
    (market.setPool pool).pools.contains token =
      (decide (token = pool.token) || market.pools.contains token) := by
  rw [setPool, Registry.contains, Registry.get?_insert]
  split
  · rename_i h
    rw [decide_eq_true h]
    rfl
  · rename_i h
    rw [decide_eq_false h]
    rfl

end Market

/-! ## Shown and skipped tokens -/

namespace PoolViews

/-- There are views unless the view of some loaded pool cannot be made. -/
theorem exists_ofTokens_iff :
    (∃ views, ofTokens tokens positions market prices available policy = .ok views) ↔
      ∀ token ∈ tokens, market.pools.contains token = true →
        ∃ view, market.Shows positions prices available policy token view := by
  induction tokens with
  | nil => exact iff_of_true ⟨empty, rfl⟩ (by simp)
  | cons token rest ih =>
    rw [exists_ofTokens_cons, ih, List.forall_mem_cons]
    refine and_congr_left fun _ ↦ ?_
    rw [Registry.contains]
    cases hpool : market.pools.get? token with
    | none => simp
    | some pool => simp [Market.shows_iff hpool]

/-- The views of a choice of tokens are those of the chosen tokens. -/
theorem forall₂_filter_views (h : ofTokens tokens positions market prices available policy = .ok views)
    (p : TokenId → Bool) :
    List.Forall₂ (market.Shows positions prices available policy)
      ((tokens.filter market.pools.contains).filter p) (views.views.filter (p ·.token)) :=
  List.rel_filter (fun token view hshows ↦ by
    change p token = true ↔ p view.token = true
    rw [hshows.token_eq]) (ofTokens_eq_ok_iff.1 h).1

/-! ## One more pool -/

/-- Views that could be made still can be unless the view of the new pool cannot. -/
theorem exists_ofTokens_setPool_iff
    (h : ofTokens tokens positions market prices available policy = .ok views) :
    (∃ views', ofTokens tokens positions (market.setPool pool) prices available policy = .ok views') ↔
      (pool.token ∈ tokens →
        ∃ view, pool.view pool.token positions market prices available policy = .ok view) := by
  have hothers := exists_ofTokens_iff.1 ⟨views, h⟩
  rw [exists_ofTokens_iff]
  constructor
  · intro hall hmem
    obtain ⟨view, hview⟩ := hall pool.token hmem (by rw [Market.contains_setPool]; simp)
    exact ⟨view, Market.shows_setPool_self.1 hview⟩
  · intro hown token hmem hcontains
    by_cases htoken : token = pool.token
    · subst htoken
      obtain ⟨view, hview⟩ := hown hmem
      exact ⟨view, Market.shows_setPool_self.2 hview⟩
    · rw [Market.contains_setPool, decide_eq_false htoken, Bool.false_or] at hcontains
      obtain ⟨view, hview⟩ := hothers token hmem hcontains
      exact ⟨view, (Market.shows_setPool_of_ne htoken).2 hview⟩

/-- The views of the other pools stay as they are. -/
theorem filter_views_setPool (hunloaded : market.pools.contains pool.token = false)
    (h : ofTokens tokens positions market prices available policy = .ok views)
    (h' : ofTokens tokens positions (market.setPool pool) prices available policy = .ok views') :
    views'.views.filter (·.token ≠ pool.token) = views.views := by
  have hkept : (tokens.filter (market.setPool pool).pools.contains).filter (· ≠ pool.token) =
      tokens.filter market.pools.contains := by
    rw [List.filter_filter]
    refine List.filter_congr fun token _ ↦ ?_
    rw [Market.contains_setPool]
    by_cases htoken : token = pool.token
    · simp [htoken, hunloaded]
    · simp [htoken]
  have hviews' := forall₂_filter_views h' (· ≠ pool.token)
  have hothers : List.Forall₂ (market.Shows positions prices available policy)
      ((tokens.filter (market.setPool pool).pools.contains).filter (· ≠ pool.token))
      (views'.views.filter (·.token ≠ pool.token)) := by
    have hne := (List.forall₂_and_left (p := fun token ↦ token ≠ pool.token) _ _).2
      ⟨fun token hmem ↦ of_decide_eq_true (List.mem_filter.1 hmem).2, hviews'⟩
    exact hne.imp fun token view ⟨htoken, hshows⟩ ↦ (Market.shows_setPool_of_ne htoken).1 hshows
  rw [hkept] at hothers
  exact List.right_unique_forall₂' Market.rightUnique_shows hothers (ofTokens_eq_ok_iff.1 h).1

/-- The loaded pools are shown and the other tokens skipped, in the order of the configured tokens.
If one more pool is loaded, there are still views unless its own cannot be made. Then it is shown at
the places of its token, which is not skipped any more, and nothing else changes. -/
theorem partition_of_ofMarket (h : ofMarket positions market prices available policy = .ok views) :
    (views.views.map (·.token) = market.tokens.filter market.pools.contains ∧
      views.skipped = market.tokens.filter (!market.pools.contains ·)) ∧
    ∀ pool : Pool, market.pools.contains pool.token = false →
      ((∃ views', ofMarket positions (market.setPool pool) prices available policy = .ok views') ↔
        (pool.token ∈ market.tokens →
          ∃ view, pool.view pool.token positions market prices available policy = .ok view)) ∧
      ∀ views', ofMarket positions (market.setPool pool) prices available policy = .ok views' →
        views'.skipped = views.skipped.filter (· ≠ pool.token) ∧
        views'.views.map (·.token) =
          market.tokens.filter (fun token ↦ token = pool.token || market.pools.contains token) ∧
        views'.views.filter (·.token ≠ pool.token) = views.views ∧
        ∀ view ∈ views'.views, view.token = pool.token →
          pool.view pool.token positions market prices available policy = .ok view := by
  have hskipped := (ofTokens_eq_ok_iff.1 h).2
  refine ⟨⟨tokens_of_ofTokens h, hskipped⟩, fun pool hunloaded ↦
    ⟨exists_ofTokens_setPool_iff h, fun views' h' ↦
      ⟨?_, ?_, filter_views_setPool hunloaded h h', fun view hmem htoken ↦ ?_⟩⟩⟩
  · rw [(ofTokens_eq_ok_iff.1 h').2, hskipped, List.filter_filter]
    refine List.filter_congr fun token _ ↦ ?_
    rw [Market.contains_setPool]
    simp
  · rw [tokens_of_ofTokens h']
    exact List.filter_congr fun token _ ↦ Market.contains_setPool market pool token
  · have hshows : (market.setPool pool).Shows positions prices available policy view.token view :=
      view_of_mem h' hmem
    rw [htoken] at hshows
    exact Market.shows_setPool_self.1 hshows

/-- A second pool of the notes that the first one has. -/
def twinPool : Pool := { Sample.pool with token := .ofTag 4, symbol := "TWN" }

/-- Both tokens are listed twice, around one that has no pool. -/
def repeatingMarket : Market :=
  { Sample.pricedMarket with tokens := [.ofTag 1, .ofTag 4, .ofTag 5, .ofTag 1, .ofTag 4] }

/-- Once the second pool is loaded its views stand between and after those of the first one. -/
theorem partition_of_twinPool :
    ∃ views views',
      ofMarket Sample.account.positions repeatingMarket (.ofRegistry repeatingMarket.prices)
        ⟨.lit 70⟩ .standard = .ok views ∧
      ofMarket Sample.account.positions (repeatingMarket.setPool twinPool)
        (.ofRegistry repeatingMarket.prices) ⟨.lit 70⟩ .standard = .ok views' ∧
      views.views.map (·.token) = [.ofTag 1, .ofTag 1] ∧
        views.skipped = [.ofTag 4, .ofTag 5, .ofTag 4] ∧
      views'.views.map (·.token) = [.ofTag 1, .ofTag 4, .ofTag 1, .ofTag 4] ∧
        views'.skipped = [.ofTag 5] ∧
        views'.views.filter (·.token ≠ .ofTag 4) = views.views := by
  obtain ⟨views, h, -⟩ := exists_ok_of_any (P := fun _ ↦ true)
    (x := ofMarket Sample.account.positions repeatingMarket (.ofRegistry repeatingMarket.prices)
      ⟨.lit 70⟩ .standard) (by decide +kernel)
  obtain ⟨view, hview, -⟩ := exists_ok_of_any (P := fun _ ↦ true)
    (x := twinPool.view twinPool.token Sample.account.positions repeatingMarket
      (.ofRegistry repeatingMarket.prices) ⟨.lit 70⟩ .standard) (by decide +kernel)
  obtain ⟨⟨htokens, hskipped⟩, hmore⟩ := partition_of_ofMarket h
  obtain ⟨hexists, hloaded⟩ := hmore twinPool (by decide +kernel)
  obtain ⟨views', h'⟩ := hexists.2 fun _ ↦ ⟨view, hview⟩
  obtain ⟨hskipped', htokens', hothers, -⟩ := hloaded views' h'
  refine ⟨views, views', h, h', htokens, hskipped, htokens', ?_, hothers⟩
  rw [hskipped', hskipped]
  decide +kernel

end PoolViews

end MarginAccount
