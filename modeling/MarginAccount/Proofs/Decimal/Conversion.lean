import MarginAccount.Proofs.Decimal.FixedPoint

/-! # What a balance is converted to

Up to 28 places a balance keeps all its digits. With more of them it loses the last ones, and becomes
the nearest number of units of the 28th place, the even one of two that are equally near
(`ofFixedPoint?_spec`). The excess places are divided away, but this division never breaks a tie
upward: its digits are at the last place from the start, and none is expanded that would not fit
(`roundsTieUp_of_places`).
-/

namespace MarginAccount

/-- `n` is the whole number nearest to `x`, the even one of two that are equally near. -/
structure IsNearestEven (x : ℚ) (n : ℤ) : Prop where
  near : |n - x| ≤ 1 / 2
  even : |n - x| = 1 / 2 → Even n

variable {x : ℚ} {a b d : Decimal} {m n : ℤ} {units units' : ℕ} {e : ℤ}

/-- There is only one such number. -/
theorem IsNearestEven.unique (h : IsNearestEven x m) (h' : IsNearestEven x n) : m = n := by
  wlog hlt : m < n generalizing m n
  · rcases (not_lt.1 hlt).eq_or_lt with heq | hgt
    · exact heq.symm
    · exact (this h' h hgt).symm
  have hstep : (m : ℚ) + 1 ≤ n := by exact_mod_cast hlt
  have hbelow := abs_le.1 h.near
  have habove := abs_le.1 h'.near
  -- two numbers within half of `x` are its neighbours, and one of two neighbours is odd
  have hm : (m : ℚ) - x = -(1 / 2) := by linarith [hbelow.1, habove.2]
  have hn : (n : ℚ) - x = 1 / 2 := by linarith [hbelow.1, habove.2]
  have heven : Even m := h.even (by rw [hm, abs_neg]; norm_num)
  have heven' : Even n := h'.even (by rw [hn]; norm_num)
  have hnext : n = m + 1 := by
    have : (n : ℚ) = (m + 1 : ℤ) := by
      push_cast
      linarith
    exact_mod_cast this
  rw [hnext, Int.even_add_one] at heven'
  exact absurd heven heven'

/-- What is rounded to even at the last place there is has the nearest number of its units. -/
theorem RoundsEven.isNearestEven (h : RoundsEven x d) (h₀ : 0 ≤ x)
    (hlt : x * 10 ^ 28 < 2 ^ 96 - 1 / 2) : IsNearestEven (x * 10 ^ 28) d.units := by
  obtain ⟨t, m, hround, heven⟩ := h.magnitude
  rw [abs_of_nonneg h₀] at hround heven
  obtain rfl : t = 28 := hround.place.unique ⟨h₀, le_rfl, by linarith, .inl rfl⟩
  have hm : m < 2 ^ 96 := by
    have : (m : ℚ) < 2 ^ 96 := by linarith [hround.le_add_half]
    exact_mod_cast this
  have hunits : d.units = m := by
    have hvalue := hround.value
    rw [settled_of_lt hm, abs_of_nonneg (h.nonneg h₀)] at hvalue
    have : (d.units : ℚ) = m := by
      rw [Decimal.units_eq_toRat, hvalue]
      field_simp
    exact_mod_cast this
  rw [hunits]
  refine ⟨by exact_mod_cast hround.near, fun htie ↦ ?_⟩
  rw [Int.even_coe_nat]
  rw [Int.cast_natCast] at htie
  rcases eq_or_eq_neg_of_abs_eq htie with hup | hdown
  · exact heven (by linarith)
  · exact hround.even_of_down (by linarith)

namespace Decimal

/-- A number of 28 places over a whole number has its digits at once, and breaks its tie to even. -/
theorem roundsTieUp_of_places (ha : a.scale = 28) (hb : b.scale = 0) (hb₀ : b.isZero = false) :
    a.roundsTieUp b = false := by
  have hholds := expand_ratio_holds a hb₀
  unfold roundsTieUp
  cases he : expand a.mantissa b.mantissa (a.scale - b.scale) 0 with
  | crowded k =>
    rw [he] at hholds
    obtain ⟨-, hlt, -⟩ := hholds
    omega
  | exact k => rfl
  | inexact k => rfl
  | overflow => rfl

/-! ## Range and value -/

/-- A balance has a decimal if its count and its exponent are in range; only a power above one asks
for more. -/
theorem exists_ofFixedPoint?_iff : (∃ d, ofFixedPoint? units e = some d) ↔
    units < 2 ^ 96 ∧ (-56 ≤ e ∧ e ≤ 28) ∧ (0 < e → (units : ℚ) * 10 ^ e < 2 ^ 96) := by
  rw [← Option.ne_none_iff_exists', Ne, ofFixedPoint?_eq_none_iff]
  push Not
  refine and_congr_right fun hunits ↦ ?_
  rw [and_assoc]
  refine and_congr_right fun _ ↦ and_congr_right fun _ ↦ ⟨fun hlt _ ↦ hlt, fun hlt ↦ ?_⟩
  rcases lt_or_ge 0 e with hpos | hnonpos
  · exact hlt hpos
  · have hle : (units : ℚ) * 10 ^ e ≤ units :=
      mul_le_of_le_one_right (Nat.cast_nonneg _) (zpow_le_one_of_nonpos₀ (by norm_num) hnonpos)
    exact hle.trans_lt (by exact_mod_cast hunits)

/-- Fewer units convert where more do. -/
theorem exists_ofFixedPoint?_of_le {d' : Decimal} (hle : units ≤ units')
    (h' : ofFixedPoint? units' e = some d') : ∃ d, ofFixedPoint? units e = some d := by
  obtain ⟨hunits, hexponent, hamount⟩ := exists_ofFixedPoint?_iff.1 ⟨d', h'⟩
  have hle' : (units : ℚ) ≤ units' := by exact_mod_cast hle
  exact exists_ofFixedPoint?_iff.2 ⟨hle.trans_lt hunits, hexponent, fun hpos ↦
    (mul_le_mul_of_nonneg_right hle' (by positivity)).trans_lt (hamount hpos)⟩

/-- Up to 28 places nothing is lost. -/
theorem toRat_of_ofFixedPoint? (he : -28 ≤ e) (h : ofFixedPoint? units e = some d) :
    d.toRat = units * 10 ^ e := by
  obtain ⟨-, ⟨-, hmost⟩, hfits⟩ := exists_ofFixedPoint?_iff.1 ⟨d, h⟩
  rcases ofFixedPoint?_cases h with ⟨hpos, base, factor, hbase, hfactor, h⟩ | ⟨⟨-, hnonpos⟩, h⟩ |
    ⟨hlt, -⟩
  · obtain ⟨_, hpow, hvalue⟩ := exists_pow10? hpos.le hmost
    obtain rfl := Option.some.inj (hfactor.symm.trans hpow)
    have hproduct := (mul?_roundsEven h).rounds
    rw [toRat_of_ofParts? hbase, hvalue, pow_zero, div_one] at hproduct
    -- the product is a whole number
    refine Fits.toRat_eq (.of_isWholeAt (s := 0) ?_ (Nat.zero_le _) ?_) hproduct
    · obtain ⟨n, rfl⟩ := Int.eq_ofNat_of_zero_le hpos.le
      refine ⟨units * 10 ^ n, ?_⟩
      push_cast
      rw [zpow_natCast, pow_zero, div_one]
    · rw [pow_zero, mul_one, abs_of_nonneg (by positivity)]
      exact hfits hpos
  · obtain ⟨n, hn⟩ := Int.eq_ofNat_of_zero_le (neg_nonneg.2 hnonpos)
    rw [toRat_of_ofParts? h, hn, Int.toNat_natCast, ← neg_neg e, hn, zpow_neg, zpow_natCast,
      div_eq_mul_inv]
  · exact absurd he (not_le.2 hlt)

/-- With more places the last ones are rounded. -/
theorem isNearestEven_of_ofFixedPoint? (he : e < -28) (h : ofFixedPoint? units e = some d) :
    IsNearestEven (units * 10 ^ e * 10 ^ 28) d.units := by
  obtain ⟨hunits, ⟨hleast, -⟩, -⟩ := exists_ofFixedPoint?_iff.1 ⟨d, h⟩
  rcases ofFixedPoint?_cases h with ⟨hpos, -⟩ | ⟨⟨hge, -⟩, -⟩ | ⟨-, base, excess, hbase, hexcess, h⟩
  · omega
  · omega
  · obtain ⟨_, hpow, hvalue⟩ := exists_pow10? (e := -e - 28) (by omega) (by omega)
    obtain rfl := Option.some.inj (hexcess.symm.trans hpow)
    have hscale : excess.scale = 0 := by
      rw [pow10?, if_pos (by omega), if_pos (by omega)] at hexcess
      exact scale_of_ofParts? hexcess
    have hround := div?_roundsEven h
      (roundsTieUp_of_places (scale_of_ofParts? hbase) hscale (isZero_eq_false_of_div? h))
    have hratio : base.toRat / excess.toRat = units * 10 ^ e := by
      rw [toRat_of_ofParts? hbase, hvalue, div_div, ← zpow_natCast, ← zpow_add₀ (by norm_num),
        div_eq_mul_inv, ← zpow_neg]
      congr 2
      push_cast
      ring
    rw [hratio] at hround
    refine hround.isNearestEven (by positivity) ?_
    -- at least one digit is lost
    have hlost : (10 : ℚ) ^ e * 10 ^ 28 ≤ 1 / 2 := by
      rw [← zpow_natCast, ← zpow_add₀ (by norm_num)]
      calc (10 : ℚ) ^ (e + (28 : ℕ)) ≤ 10 ^ (-1 : ℤ) :=
            zpow_le_zpow_right₀ (by norm_num) (by push_cast; omega)
        _ ≤ 1 / 2 := by norm_num
    have hunits' : (units : ℚ) < 2 ^ 96 := by exact_mod_cast hunits
    calc (units : ℚ) * 10 ^ e * 10 ^ 28 = units * (10 ^ e * 10 ^ 28) := mul_assoc ..
      _ ≤ units * (1 / 2) := by gcongr
      _ < 2 ^ 96 - 1 / 2 := by linarith

/-- Conversion at one exponent. It succeeds exactly for counts below `2 ^ 96` at exponents from -56 to
28 whose amount, for a power above one, is below `2 ^ 96`. It is exact up to 28 places and rounds to
even past them; more units are worth as much or more, and convert only where fewer do. -/
theorem ofFixedPoint?_spec (e : ℤ) :
    (∀ units, (∃ d, ofFixedPoint? units e = some d) ↔
      units < 2 ^ 96 ∧ (-56 ≤ e ∧ e ≤ 28) ∧ (0 < e → (units : ℚ) * 10 ^ e < 2 ^ 96)) ∧
    (∀ units d, ofFixedPoint? units e = some d →
      (-28 ≤ e → d.toRat = units * 10 ^ e) ∧
      (e < -28 → ∀ n, IsNearestEven (units * 10 ^ e * 10 ^ 28) n ↔ n = d.units)) ∧
    ∀ units units' d', units ≤ units' → ofFixedPoint? units' e = some d' →
      ∃ d, ofFixedPoint? units e = some d ∧ d ≤ d' := by
  refine ⟨fun units ↦ exists_ofFixedPoint?_iff, fun units d h ↦
    ⟨fun he ↦ toRat_of_ofFixedPoint? he h, fun he n ↦ ?_⟩, fun units units' d' hle h' ↦ ?_⟩
  · have hnearest := isNearestEven_of_ofFixedPoint? he h
    exact ⟨fun hn ↦ hn.unique hnearest, fun hn ↦ hn ▸ hnearest⟩
  · obtain ⟨d, h⟩ := exists_ofFixedPoint?_of_le hle h'
    exact ⟨d, h, le_iff_toRat.2 (ofFixedPoint?_mono hle h h')⟩

/-- Two units and a half become two, three and a half become four. -/
example : ofFixedPoint? 25 (-29) = some (.lit 2 28) ∧ ofFixedPoint? 35 (-29) = some (.lit 4 28) := by
  decide +kernel

end Decimal

end MarginAccount
