import MarginAccount.Proofs.Account.Change
import MarginAccount.Proofs.Account.Valuation

/-! # What a change does to the collateral for setting up trades

A change that lands unclamped on a position of `n` places moves the exact sum of the shares by its
delta, in whole tokens, times the price and the factor of that position. Without a price it moves
nothing.
-/

namespace MarginAccount

variable {prices : PriceSource} {policy : Policy} {p : Position} {c : Change}
  {ps ps' : List Position} {q price : Decimal} {n : ℕ}

namespace Position

theorem amount_of_places (h : p.exponent.toInt = -(n : ℤ)) : p.amount = p.balance.units / 10 ^ n := by
  unfold amount
  split
  · rename_i h₀
    have hn : n = 0 := by omega
    rw [h, hn]
    simp
  · rw [h, neg_neg, Int.toNat_natCast]

/-- A quantity that fits a decimal has a balance that does. -/
theorem units_lt_of_quantity (h : p.quantity? = some q) : p.balance.units < 2 ^ 96 := by
  have hparts : ∀ {s : ℕ} {d : Decimal}, Decimal.ofParts? false p.balance.units s = some d →
      p.balance.units < 2 ^ 96 := by
    intro s d hd
    unfold Decimal.ofParts? at hd
    split at hd
    · rename_i hrange
      exact hrange.1
    · cases hd
  unfold quantity? Decimal.ofFixedPoint? at h
  split at h
  · rw [Option.bind_eq_bind, Option.bind_eq_some_iff] at h
    obtain ⟨base, hbase, -⟩ := h
    exact hparts hbase
  · split at h
    · exact hparts h
    · rw [Option.bind_eq_bind, Option.bind_eq_some_iff] at h
      obtain ⟨base, hbase, -⟩ := h
      exact hparts hbase

end Position

namespace Change

theorem setupShare_vacant (c : Change) (prices : PriceSource) (policy : Policy) :
    c.vacant.setupShare prices policy = 0 := by
  have hamount : c.vacant.amount = 0 := by
    unfold Position.amount
    split <;> simp [vacant, Balance.zero]
  cases h : prices.quote? c.vacant.token with
  | none => exact Position.setupShare_of_unpriced h
  | some price => rw [Position.setupShare_of_quote h, hamount, zero_mul, zero_mul]

/-- An increase that ends in a quantity has not been clamped. -/
theorem landed_units_of_quantity (hd : 0 ≤ c.delta.units) (h : (c.landed ps).quantity? = some q) :
    ((c.landed ps).balance.units : ℤ) = (c.target ps).balance.units + c.delta.units := by
  have hlt := Position.units_lt_of_quantity h
  exact Balance.move_units_of_lt hd (hlt.trans (by norm_num))

theorem sum_setupShare_land (policy : Policy) (h : c.land ps = .ok ps') (hprice : prices.quote? c.token = some price)
    (hn : (c.target ps).exponent.toInt = -(n : ℤ))
    (hmove : ((c.landed ps).balance.units : ℤ) = (c.target ps).balance.units + c.delta.units) :
    (ps'.map (·.setupShare prices policy)).sum = (ps.map (·.setupShare prices policy)).sum +
      c.delta.units / 10 ^ n * price.toRat * (c.target ps).setupFactor policy := by
  have htarget : prices.quote? (c.target ps).token = some price := by rw [target_token, hprice]
  have hmove' : ((c.landed ps).balance.units : ℚ) = (c.target ps).balance.units + c.delta.units := by
    exact_mod_cast hmove
  -- the landed position differs from its target in the balance alone
  have hshare : (c.landed ps).setupShare prices policy =
      (c.landed ps).balance.units / 10 ^ n * price.toRat * (c.target ps).setupFactor policy := by
    rw [Position.setupShare_of_quote (p := c.landed ps) htarget,
      Position.amount_of_places (p := c.landed ps) hn]
    rfl
  rw [sum_land _ (c.setupShare_vacant prices policy) h, hshare, Position.setupShare_of_quote htarget,
    Position.amount_of_places hn, hmove']
  ring

theorem sum_setupShare_land_of_unpriced (policy : Policy) (h : c.land ps = .ok ps')
    (hprice : prices.quote? c.token = none) :
    (ps'.map (·.setupShare prices policy)).sum = (ps.map (·.setupShare prices policy)).sum := by
  have htarget : prices.quote? (c.target ps).token = none := by rw [target_token, hprice]
  rw [sum_land _ (c.setupShare_vacant prices policy) h, Position.setupShare_of_unpriced htarget,
    Position.setupShare_of_unpriced (p := c.landed ps) htarget, sub_zero, add_zero]

end Change

end MarginAccount
