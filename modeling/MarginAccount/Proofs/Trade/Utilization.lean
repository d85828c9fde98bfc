import MarginAccount.Proofs.Trade.Response

/-! # Borrowing up to the cap

The room that a pool has for borrows is what takes it to the utilization that the policy allows: with
nothing rounded, `borrowed + room = cap · (vault + borrowed)`. A borrow within its bound therefore
leaves the pool at the cap or below (`TradeBounds.borrow_within_cap`), whatever limits the bound
further, and the pool then reports no more than the cap (`TradeBounds.utilization_after_borrow_le`).
Rounding takes it past the cap by two parts in `10 ^ 28` of the larger amount at most
(`TradeBounds.borrow_near_cap`).
-/

namespace MarginAccount

variable {pool pool' : Pool} {cap share : Decimal} {headroom : TokenAmount}

/-- What a share leaves of one needs no rounding. -/
theorem Decimal.toRat_one_sub {d c : Decimal} (hd : d.IsWeight) (h : one.sub? d = some c) :
    c.toRat = 1 - d.toRat := by
  have hround := (sub?_roundsEven h).rounds
  rw [toRat_one] at hround
  have hone : IsWholeAt 28 (1 : ℚ) := toRat_one ▸ one.isWholeAt_toRat
  refine Fits.toRat_eq (.of_isWholeAt (hone.sub d.isWholeAt_toRat) le_rfl ?_) hround
  rw [abs_of_nonneg (sub_nonneg.2 hd.2)]
  calc (1 - d.toRat) * 10 ^ 28 ≤ 1 * 10 ^ 28 := by gcongr; linarith [hd.1]
    _ < 2 ^ 96 := by norm_num

namespace Pool

/-- The room of a pool in exact numbers, where nothing stops it at zero. -/
def exactHeadroom (pool : Pool) (cap : ℚ) : ℚ :=
  pool.vaultLiquidity.value.toRat * cap - pool.totalBorrowed.value.toRat * (1 - cap)

/-- The exact room takes a pool to the cap. -/
theorem totalBorrowed_add_exactHeadroom (pool : Pool) (cap : ℚ) :
    pool.totalBorrowed.value.toRat + pool.exactHeadroom cap =
      cap * (pool.vaultLiquidity.value.toRat + pool.totalBorrowed.value.toRat) := by
  rw [exactHeadroom]
  ring

/-- The three operations that find the room. -/
theorem borrowHeadroom_eq_ok (hcap : cap.IsWeight) (h : pool.borrowHeadroom cap = .ok headroom) :
    ∃ lendable kept room, RoundsEven (pool.vaultLiquidity.value.toRat * cap.toRat) lendable ∧
      RoundsEven (pool.totalBorrowed.value.toRat * (1 - cap.toRat)) kept ∧
      RoundsEven (lendable.toRat - kept.toRat) room ∧ headroom = .clamped room := by
  simp only [borrowHeadroom, bind_eq_ok, pure_eq_ok] at h
  obtain ⟨lendable, hlendable, rest, hrest, kept, hkept, room, hroom, rfl⟩ := h
  have hkept' := Decimal.mul?_roundsEven (Decimal.orFault_eq_ok.1 hkept)
  rw [Decimal.toRat_one_sub hcap (Decimal.orFault_eq_ok.1 hrest)] at hkept'
  exact ⟨lendable, kept, room, Decimal.mul?_roundsEven (Decimal.orFault_eq_ok.1 hlendable), hkept',
    Decimal.sub?_roundsEven (Decimal.orFault_eq_ok.1 hroom), rfl⟩

/-- With nothing to round the room is the exact one, stopped at zero. -/
theorem toRat_borrowHeadroom (hcap : cap.IsWeight)
    (hlendable : Fits (pool.vaultLiquidity.value.toRat * cap.toRat))
    (hkept : Fits (pool.totalBorrowed.value.toRat * (1 - cap.toRat)))
    (hroom : Fits (pool.exactHeadroom cap.toRat)) (h : pool.borrowHeadroom cap = .ok headroom) :
    headroom.value.toRat = max (pool.exactHeadroom cap.toRat) 0 := by
  obtain ⟨lendable, kept, room, hlend, hkeep, hround, rfl⟩ := borrowHeadroom_eq_ok hcap h
  rw [hlendable.toRat_eq hlend.rounds, hkept.toRat_eq hkeep.rounds, ← exactHeadroom] at hround
  rw [TokenAmount.toRat_clamped, hroom.toRat_eq hround.rounds]

/-- The roundings of a positive room add up to two parts in `10 ^ 28` of the larger amount, or of one
token. -/
theorem borrowHeadroom_le_exact (hvault : 0 ≤ pool.vaultLiquidity.value.toRat)
    (hborrowed : 0 ≤ pool.totalBorrowed.value.toRat) (hcap : cap.IsWeight)
    (h : pool.borrowHeadroom cap = .ok headroom) (hpos : 0 < headroom.value.toRat) :
    headroom.value.toRat ≤ pool.exactHeadroom cap.toRat + 2 / 10 ^ 28 *
      max 1 (max pool.vaultLiquidity.value.toRat pool.totalBorrowed.value.toRat) := by
  obtain ⟨lendable, kept, room, hlend, hkeep, hround, rfl⟩ := borrowHeadroom_eq_ok hcap h
  set V := pool.vaultLiquidity.value.toRat
  set B := pool.totalBorrowed.value.toRat
  have hrest : 0 ≤ 1 - cap.toRat := sub_nonneg.2 hcap.2
  have hlend₁ : V * cap.toRat ≤ V := mul_le_of_le_one_right hvault hcap.2
  have hkeep₁ : B * (1 - cap.toRat) ≤ B :=
    mul_le_of_le_one_right hborrowed (sub_le_self _ hcap.1)
  have hkept₀ : 0 ≤ kept.toRat := hkeep.nonneg (mul_nonneg hborrowed hrest)
  rw [TokenAmount.toRat_clamped] at hpos ⊢
  have hroom₀ : 0 < room.toRat := (lt_max_iff.1 hpos).resolve_right (lt_irrefl 0)
  rw [max_eq_left hroom₀.le]
  have hdiff₀ : 0 ≤ lendable.toRat - kept.toRat := by
    by_contra hneg
    exact absurd hroom₀ (not_lt.2 (hround.nonpos (not_le.1 hneg).le))
  have hlendable : lendable.toRat ≤ V := hlend.rounds.le_of_le hlend₁
  -- each of the three exact results is at most one of the two amounts
  have hslack {x : ℚ} {d : Decimal} (hr : RoundsEven x d) (hx₀ : 0 ≤ x) (hx : x ≤ max V B) :
      |d.toRat - x| ≤ 2 / 3 / 10 ^ 28 * max 1 (max V B) := by
    refine hr.rounds.error_le.trans ?_
    have hmax : max (1 / 2) (2 / 3 * |x|) ≤ 2 / 3 * max 1 (max V B) := by
      rw [abs_of_nonneg hx₀]
      refine max_le ?_ (by gcongr; exact hx.trans (le_max_right ..))
      linarith [le_max_left 1 (max V B)]
    calc 1 / 10 ^ 28 * max (1 / 2) (2 / 3 * |x|) ≤ 1 / 10 ^ 28 * (2 / 3 * max 1 (max V B)) := by
          gcongr
      _ = 2 / 3 / 10 ^ 28 * max 1 (max V B) := by ring
  have h₁ := (abs_le.1 (hslack hlend (mul_nonneg hvault hcap.1)
    (hlend₁.trans (le_max_left ..)))).2
  have h₂ := (abs_le.1 (hslack hkeep (mul_nonneg hborrowed hrest)
    (hkeep₁.trans (le_max_right ..)))).1
  have h₃ := (abs_le.1 (hslack hround hdiff₀
    ((sub_le_self _ hkept₀).trans (hlendable.trans (le_max_left ..))))).2
  rw [exactHeadroom]
  linarith

/-- A pool that is exactly at the cap or below reports no more than the cap. -/
theorem utilization_le (hvault : 0 ≤ pool.vaultLiquidity.value.toRat)
    (hborrowed : 0 ≤ pool.totalBorrowed.value.toRat) (hcap : 0 ≤ cap.toRat)
    (htotal : Fits (pool.vaultLiquidity.value.toRat + pool.totalBorrowed.value.toRat))
    (hle : pool.totalBorrowed.value.toRat ≤
      cap.toRat * (pool.vaultLiquidity.value.toRat + pool.totalBorrowed.value.toRat))
    (h : pool.utilization = .ok share) : share ≤ cap := by
  rw [utilization, bind_eq_ok] at h
  obtain ⟨total, hsum, h⟩ := h
  have htotal_eq := htotal.toRat_eq (Decimal.add?_roundsEven (Decimal.orFault_eq_ok.1 hsum)).rounds
  rw [Decimal.le_iff_toRat]
  split at h
  · cases h
    rwa [Decimal.toRat_zero]
  · rename_i hzero
    rw [Decimal.div, if_neg hzero, Decimal.orFault_eq_ok] at h
    have hpos : 0 < total.toRat := by
      refine lt_of_le_of_ne (htotal_eq ▸ add_nonneg hvault hborrowed) (Ne.symm ?_)
      exact Decimal.isZero_eq_false_iff.1 (Bool.not_eq_true _ ▸ hzero)
    refine (Decimal.div?_rounds h).le_of_le ?_
    rwa [div_le_iff₀ hpos, htotal_eq]

end Pool

namespace TradeBounds

variable {balances : PoolBalances} {weights : NoteWeights} {surplus : Usd}
  {price? : Option Decimal} {policy : Policy} {b : TradeBounds}

theorem borrow_le_exactHeadroom (hpolicy : policy.check = .ok ())
    (hlendable : Fits (pool.vaultLiquidity.value.toRat * policy.utilizationCap.toRat))
    (hkept : Fits (pool.totalBorrowed.value.toRat * (1 - policy.utilizationCap.toRat)))
    (hroom : Fits (pool.exactHeadroom policy.utilizationCap.toRat))
    (h : ofPool pool balances weights surplus price? policy = .ok b)
    (hborrow : 0 < b.borrow.value.toRat) :
    b.borrow.value.toRat ≤ pool.exactHeadroom policy.utilizationCap.toRat := by
  obtain ⟨hcap, hcap₁⟩ := Policy.utilizationCap_of_check hpolicy
  obtain ⟨-, headroom, hheadroom, hle⟩ := borrowBound_le_headroom (borrow_ofPool h)
  rw [Pool.toRat_borrowHeadroom ⟨hcap.le, hcap₁⟩ hlendable hkept hroom hheadroom] at hle
  exact (le_max_iff.1 hle).resolve_right (not_le.2 hborrow)

/-- A pool is left at the cap or below by a borrow of the whole bound. -/
theorem borrow_within_cap (hpolicy : policy.check = .ok ())
    (hlendable : Fits (pool.vaultLiquidity.value.toRat * policy.utilizationCap.toRat))
    (hkept : Fits (pool.totalBorrowed.value.toRat * (1 - policy.utilizationCap.toRat)))
    (hroom : Fits (pool.vaultLiquidity.value.toRat * policy.utilizationCap.toRat -
      pool.totalBorrowed.value.toRat * (1 - policy.utilizationCap.toRat)))
    (h : ofPool pool balances weights surplus price? policy = .ok b)
    (hborrow : 0 < b.borrow.value.toRat) :
    pool.totalBorrowed.value.toRat + b.borrow.value.toRat ≤ policy.utilizationCap.toRat *
      (pool.vaultLiquidity.value.toRat + pool.totalBorrowed.value.toRat) := by
  rw [← pool.totalBorrowed_add_exactHeadroom]
  exact add_le_add_right (borrow_le_exactHeadroom hpolicy hlendable hkept hroom h hborrow) _

/-- With 900 of 1000 tokens borrowed and a cap of 95 percent, 50 more may be borrowed: all that is left
below the cap. -/
theorem borrow_to_the_cap :
    ∃ b, ofPool { Sample.pool with vaultLiquidity := ⟨.lit 100⟩, totalBorrowed := ⟨.lit 900⟩ }
        Sample.holdings ⟨.one, .one⟩ ⟨.lit 1000⟩ (some .one) .standard = .ok b ∧
      b.borrow.value.toRat = 50 ∧ 900 + b.borrow.value.toRat ≤ 95 / 100 * (100 + 900) := by
  obtain ⟨b, hb, hborrow⟩ : ∃ b, ofPool
      { Sample.pool with vaultLiquidity := ⟨.lit 100⟩, totalBorrowed := ⟨.lit 900⟩ }
      Sample.holdings ⟨.one, .one⟩ ⟨.lit 1000⟩ (some .one) .standard = .ok b ∧
        decide (b.borrow.value.toRat = 50) = true := by
    apply exists_ok_of_any
    decide +kernel
  have hborrow := of_decide_eq_true hborrow
  have hle := borrow_within_cap (by decide) ⟨.lit 95, by decide +kernel⟩ ⟨.lit 45, by decide +kernel⟩
    ⟨.lit 50, by decide +kernel⟩ hb (by rw [hborrow]; norm_num)
  have hvault : (Decimal.lit 100).toRat = 100 := by decide +kernel
  have hborrowed : (Decimal.lit 900).toRat = 900 := by decide +kernel
  have hcap : Policy.standard.utilizationCap.toRat = 95 / 100 := by decide +kernel
  rw [hvault, hborrowed, hcap] at hle
  exact ⟨b, hb, hborrow, hle⟩

/-- The pool that is left reports no more than the cap. -/
theorem utilization_after_borrow_le (hvault : 0 ≤ pool.vaultLiquidity.value.toRat)
    (hborrowed : 0 ≤ pool.totalBorrowed.value.toRat) (hpolicy : policy.check = .ok ())
    (hlendable : Fits (pool.vaultLiquidity.value.toRat * policy.utilizationCap.toRat))
    (hkept : Fits (pool.totalBorrowed.value.toRat * (1 - policy.utilizationCap.toRat)))
    (hroom : Fits (pool.exactHeadroom policy.utilizationCap.toRat))
    (htotal : Fits (pool.vaultLiquidity.value.toRat + pool.totalBorrowed.value.toRat))
    (h : ofPool pool balances weights surplus price? policy = .ok b)
    (hborrow : 0 < b.borrow.value.toRat)
    (hvault' : pool'.vaultLiquidity.value.toRat =
      pool.vaultLiquidity.value.toRat - b.borrow.value.toRat)
    (hborrowed' : pool'.totalBorrowed.value.toRat =
      pool.totalBorrowed.value.toRat + b.borrow.value.toRat)
    (hshare : pool'.utilization = .ok share) : share ≤ policy.utilizationCap := by
  obtain ⟨hcap, hcap₁⟩ := Policy.utilizationCap_of_check hpolicy
  have hle := borrow_le_exactHeadroom hpolicy hlendable hkept hroom h hborrow
  obtain ⟨-, headroom, hheadroom, hle_headroom⟩ := borrowBound_le_headroom (borrow_ofPool h)
  have hle_vault := hle_headroom.trans
    (Pool.borrowHeadroom_le hvault hborrowed ⟨hcap.le, hcap₁⟩ hheadroom)
  -- a borrow moves tokens, the total stays
  have htotal_eq : pool'.vaultLiquidity.value.toRat + pool'.totalBorrowed.value.toRat =
      pool.vaultLiquidity.value.toRat + pool.totalBorrowed.value.toRat := by
    rw [hvault', hborrowed']
    ring
  refine Pool.utilization_le ?_ ?_ hcap.le (htotal_eq ▸ htotal) ?_ hshare
  · rw [hvault']
    exact sub_nonneg.2 hle_vault
  · rw [hborrowed']
    exact add_nonneg hborrowed hborrow.le
  · rw [htotal_eq, hborrowed', ← pool.totalBorrowed_add_exactHeadroom]
    exact add_le_add_right hle _

/-- Where amounts are rounded, a borrow takes the pool past the cap by two parts in `10 ^ 28` of the
larger amount at most. -/
theorem borrow_near_cap (hvault : 0 ≤ pool.vaultLiquidity.value.toRat)
    (hborrowed : 0 ≤ pool.totalBorrowed.value.toRat) (hpolicy : policy.check = .ok ())
    (h : ofPool pool balances weights surplus price? policy = .ok b)
    (hborrow : 0 < b.borrow.value.toRat) :
    pool.totalBorrowed.value.toRat + b.borrow.value.toRat ≤ policy.utilizationCap.toRat *
      (pool.vaultLiquidity.value.toRat + pool.totalBorrowed.value.toRat) + 2 / 10 ^ 28 *
        max 1 (max pool.vaultLiquidity.value.toRat pool.totalBorrowed.value.toRat) := by
  obtain ⟨hcap, hcap₁⟩ := Policy.utilizationCap_of_check hpolicy
  obtain ⟨-, headroom, hheadroom, hle⟩ := borrowBound_le_headroom (borrow_ofPool h)
  have hexact := Pool.borrowHeadroom_le_exact hvault hborrowed ⟨hcap.le, hcap₁⟩ hheadroom
    (hborrow.trans_le hle)
  rw [← pool.totalBorrowed_add_exactHeadroom, add_assoc]
  exact add_le_add_right (hle.trans hexact) _

end TradeBounds

end MarginAccount
