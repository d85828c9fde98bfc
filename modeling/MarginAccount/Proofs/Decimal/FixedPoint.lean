import MarginAccount.Decimal.FixedPoint
import MarginAccount.Proofs.Decimal.Arithmetic
import MarginAccount.Proofs.Decimal.Quotient

/-! # Fixed-point balances in order

A balance has a decimal unless its count, its exponent or its amount is out of range
(`ofFixedPoint?_eq_none_iff`): neither the product with a power of ten nor the quotient by one asks for
more. More base units at one exponent are as much or more in whole tokens (`ofFixedPoint?_mono`), also
where the excess places are divided away: equal counts have one quotient, and different ones have
strictly ordered ratios.

Up to 28 places the scale of a quantity comes from its exponent alone. A product has as many places as
its factors together, or as many as fit (`IsFull`), so products of quantities at one exponent with one
price that have one value are one decimal.
-/

namespace MarginAccount.Decimal

variable {a b c d d' : Decimal} {negative : Bool} {m s units units' : ℕ} {e : ℤ}

/-! ## Signs -/

theorem toRat_nonneg_of_ofParts? (h : ofParts? false m s = some d) : 0 ≤ d.toRat := by
  unfold ofParts? at h
  split at h
  · cases h
    rw [toRat_of_not_negative rfl]
    positivity
  · cases h

theorem toRat_nonneg_of_pow10? (h : pow10? e = some d) : 0 ≤ d.toRat := by
  unfold pow10? at h
  split at h
  · split at h
    · exact toRat_nonneg_of_ofParts? h
    · cases h
  · split at h
    · rw [Option.bind_eq_bind, Option.bind_eq_some_iff] at h
      obtain ⟨power, hpower, h⟩ := h
      refine (div?_rounds h).nonneg ?_
      rw [toRat_one]
      exact div_nonneg zero_le_one (toRat_nonneg_of_ofParts? hpower)
    · cases h

/-- A balance is multiplied, takes its exponent as a scale, or has its excess places divided away. -/
theorem ofFixedPoint?_cases (h : ofFixedPoint? units e = some d) :
    (0 < e ∧ ∃ base factor, ofParts? false units 0 = some base ∧ pow10? e = some factor ∧
      base.mul? factor = some d) ∨
    ((-28 ≤ e ∧ e ≤ 0) ∧ ofParts? false units (-e).toNat = some d) ∨
    (e < -28 ∧ ∃ base excess, ofParts? false units 28 = some base ∧
      pow10? (-e - 28) = some excess ∧ base.div? excess = some d) := by
  unfold ofFixedPoint? at h
  split at h
  · rename_i hpos
    simp only [Option.bind_eq_bind, Option.bind_eq_some_iff] at h
    obtain ⟨base, hbase, factor, hfactor, h⟩ := h
    exact .inl ⟨hpos, base, factor, hbase, hfactor, h⟩
  · rename_i hpos
    split at h
    · rename_i hplaces
      exact .inr (.inl ⟨⟨hplaces, not_lt.1 hpos⟩, h⟩)
    · rename_i hplaces
      simp only [Option.bind_eq_bind, Option.bind_eq_some_iff] at h
      obtain ⟨base, hbase, excess, hexcess, h⟩ := h
      exact .inr (.inr ⟨not_le.1 hplaces, base, excess, hbase, hexcess, h⟩)

theorem toRat_nonneg_of_ofFixedPoint? (h : ofFixedPoint? units e = some d) : 0 ≤ d.toRat := by
  rcases ofFixedPoint?_cases h with ⟨-, base, factor, hbase, hfactor, h⟩ | ⟨-, h⟩ |
    ⟨-, base, excess, hbase, hexcess, h⟩
  · exact (mul?_roundsEven h).nonneg
      (mul_nonneg (toRat_nonneg_of_ofParts? hbase) (toRat_nonneg_of_pow10? hfactor))
  · exact toRat_nonneg_of_ofParts? h
  · exact (div?_rounds h).nonneg
      (div_nonneg (toRat_nonneg_of_ofParts? hbase) (toRat_nonneg_of_pow10? hexcess))

/-! ## Range -/

theorem ofParts?_eq_none_iff : ofParts? negative m s = none ↔ 2 ^ 96 ≤ m ∨ 28 < s := by
  rw [ofParts?]
  split
  · exact iff_of_false (fun h ↦ by cases h) (by omega)
  · exact iff_of_true rfl (by omega)

theorem exists_pow10? (h₀ : 0 ≤ e) (h : e ≤ 28) : ∃ d, pow10? e = some d ∧ d.toRat = 10 ^ e := by
  obtain ⟨n, rfl⟩ := Int.eq_ofNat_of_zero_le h₀
  have hpow : 10 ^ n < 2 ^ 96 :=
    lt_of_le_of_lt (Nat.pow_le_pow_right (by norm_num) (by omega : n ≤ 28)) (by norm_num)
  rw [pow10?, if_pos h₀, if_pos h, Int.toNat_natCast, ofParts?_eq_some hpow (Nat.zero_le _)]
  refine ⟨_, rfl, ?_⟩
  rw [toRat_of_not_negative rfl]
  simp

theorem pow10?_eq_none (h : 28 < e) : pow10? e = none := by
  rw [pow10?, if_pos (by omega), if_neg (not_le.2 h)]

theorem ofFixedPoint?_eq_none_of_units (h : 2 ^ 96 ≤ units) : ofFixedPoint? units e = none := by
  have hbase (s : ℕ) : ofParts? false units s = none := ofParts?_eq_none_iff.2 (.inl h)
  rw [ofFixedPoint?, hbase, hbase, hbase]
  split
  · rfl
  · split <;> rfl

theorem ofFixedPoint?_eq_none_of_exponent (h : e < -56 ∨ 28 < e) :
    ofFixedPoint? units e = none := by
  rw [ofFixedPoint?]
  rcases h with h | h
  · rw [if_neg (by omega), if_neg (by omega), pow10?_eq_none (by omega)]
    cases ofParts? false units 28 <;> rfl
  · rw [if_pos (by omega), pow10?_eq_none h]
    cases ofParts? false units 0 <;> rfl

/-- A power of ten above one multiplies, and the product is a whole number. -/
theorem ofFixedPoint?_eq_none_of_pos (hunits : units < 2 ^ 96) (h₀ : 0 < e) (h : e ≤ 28) :
    ofFixedPoint? units e = none ↔ (2 ^ 96 : ℚ) ≤ units * 10 ^ e := by
  obtain ⟨n, rfl⟩ := Int.eq_ofNat_of_zero_le h₀.le
  obtain ⟨factor, hfactor, hvalue⟩ := exists_pow10? h₀.le h
  rw [ofFixedPoint?, if_pos h₀, ofParts?_eq_some hunits (Nat.zero_le 28), hfactor]
  change mul? _ factor = none ↔ _
  rw [mul?_eq_none_iff, hvalue, toRat_of_not_negative rfl, pow_zero, div_one, zpow_natCast]
  exact_mod_cast tooLarge_natCast (n := units * 10 ^ n)

/-- With other powers a balance takes no more digits than it has. -/
theorem exists_ofFixedPoint?_of_nonpos (hunits : units < 2 ^ 96) (h₀ : e ≤ 0) (h : -56 ≤ e) :
    ∃ d, ofFixedPoint? units e = some d := by
  rw [ofFixedPoint?, if_neg (not_lt.2 h₀)]
  split
  · exact ⟨_, ofParts?_eq_some hunits (by omega)⟩
  · obtain ⟨excess, hexcess, hvalue⟩ := exists_pow10? (e := -e - 28) (by omega) (by omega)
    rw [ofParts?_eq_some hunits le_rfl, hexcess]
    change ∃ d, div? _ excess = some d
    have hexcess₁ : 1 ≤ excess.toRat := by
      rw [hvalue]
      exact one_le_zpow₀ (by norm_num) (by omega)
    have hexcess₀ : 0 < excess.toRat := zero_lt_one.trans_le hexcess₁
    rw [← Option.ne_none_iff_exists']
    intro hnone
    set base : Decimal := ⟨false, units, 28, hunits, le_rfl⟩
    have hbase₀ : 0 ≤ base.toRat := by
      rw [toRat_of_not_negative rfl]
      positivity
    have hlt := (div?_eq_none (isZero_eq_false_iff.2 hexcess₀.ne') hnone).abs_lt base
    rw [abs_of_nonneg hbase₀, abs_of_nonneg (by positivity)] at hlt
    exact absurd (div_le_self hbase₀ hexcess₁) (not_le.2 hlt)

/-- A balance has a decimal unless its count or its exponent is out of range, or its amount is. -/
theorem ofFixedPoint?_eq_none_iff :
    ofFixedPoint? units e = none ↔
      2 ^ 96 ≤ units ∨ e < -56 ∨ 28 < e ∨ (2 ^ 96 : ℚ) ≤ units * 10 ^ e := by
  rcases le_or_gt (2 ^ 96) units with hunits | hunits
  · exact iff_of_true (ofFixedPoint?_eq_none_of_units hunits) (.inl hunits)
  by_cases he : e < -56 ∨ 28 < e
  · exact iff_of_true (ofFixedPoint?_eq_none_of_exponent he) (by tauto)
  rw [not_or, not_lt, not_lt] at he
  rcases lt_or_ge 0 e with hpos | hnonpos
  · rw [ofFixedPoint?_eq_none_of_pos hunits hpos he.2]
    have := not_le.2 hunits
    have := not_lt.2 he.1
    have := not_lt.2 he.2
    tauto
  · obtain ⟨d, hd⟩ := exists_ofFixedPoint?_of_nonpos hunits hnonpos he.1
    have hsmall : (units : ℚ) * 10 ^ e < 2 ^ 96 := by
      have hle : (units : ℚ) * 10 ^ e ≤ units :=
        mul_le_of_le_one_right (Nat.cast_nonneg _) (zpow_le_one_of_nonpos₀ (by norm_num) hnonpos)
      exact hle.trans_lt (by exact_mod_cast hunits)
    refine iff_of_false (by rw [hd]; simp) ?_
    rintro (h | h | h | h)
    · omega
    · omega
    · omega
    · exact absurd h (not_le.2 hsmall)

/-! ## Order -/

theorem toRat_of_ofParts? (h : ofParts? false m s = some d) : d.toRat = m / 10 ^ s := by
  unfold ofParts? at h
  split at h
  · cases h
    exact toRat_of_not_negative rfl
  · cases h

theorem ofFixedPoint?_mono (hle : units ≤ units') (h : ofFixedPoint? units e = some d)
    (h' : ofFixedPoint? units' e = some d') : d.toRat ≤ d'.toRat := by
  rcases hle.eq_or_lt with rfl | hlt
  · rw [Option.some.inj (h.symm.trans h')]
  have hparts {s : ℕ} {base base' : Decimal} (hbase : ofParts? false units s = some base)
      (hbase' : ofParts? false units' s = some base') : base.toRat < base'.toRat := by
    rw [toRat_of_ofParts? hbase, toRat_of_ofParts? hbase']
    gcongr
  unfold ofFixedPoint? at h h'
  split at h
  · rename_i hpos
    rw [if_pos hpos] at h'
    simp only [Option.bind_eq_bind, Option.bind_eq_some_iff] at h h'
    obtain ⟨base, hbase, factor, hfactor, h⟩ := h
    obtain ⟨base', hbase', factor', hfactor', h'⟩ := h'
    obtain rfl := Option.some.inj (hfactor.symm.trans hfactor')
    exact (mul?_roundsEven h).mono (mul?_roundsEven h')
      (mul_le_mul_of_nonneg_right (hparts hbase hbase').le (toRat_nonneg_of_pow10? hfactor))
  · rename_i hpos
    rw [if_neg hpos] at h'
    split at h
    · rename_i hplaces
      rw [if_pos hplaces] at h'
      exact (hparts h h').le
    · rename_i hplaces
      rw [if_neg hplaces] at h'
      simp only [Option.bind_eq_bind, Option.bind_eq_some_iff] at h h'
      obtain ⟨base, hbase, excess, hexcess, h⟩ := h
      obtain ⟨base', hbase', excess', hexcess', h'⟩ := h'
      obtain rfl := Option.some.inj (hexcess.symm.trans hexcess')
      have hexcess_pos : 0 < excess.toRat :=
        lt_of_le_of_ne (toRat_nonneg_of_pow10? hexcess)
          (isZero_eq_false_iff.1 (isZero_eq_false_of_div? h)).symm
      exact (div?_rounds h).mono (div?_rounds h')
        (div_lt_div_of_pos_right (hparts hbase hbase') hexcess_pos)

theorem toRat_of_ofFixedPoint?_zero (h : ofFixedPoint? 0 e = some d) : d.toRat = 0 := by
  refine le_antisymm ?_ (toRat_nonneg_of_ofFixedPoint? h)
  rcases ofFixedPoint?_cases h with ⟨-, base, factor, hbase, -, h⟩ | ⟨-, h⟩ |
    ⟨-, base, excess, hbase, -, h⟩
  · refine (mul?_roundsEven h).nonpos ?_
    rw [toRat_of_ofParts? hbase, Nat.cast_zero, zero_div, zero_mul]
  · rw [toRat_of_ofParts? h, Nat.cast_zero, zero_div]
  · refine (div?_rounds h).nonpos ?_
    rw [toRat_of_ofParts? hbase, Nat.cast_zero, zero_div, zero_div]

/-! ## Scale -/

/-- The number has `s` places, or as many of them as fit a decimal. -/
structure IsFull (d : Decimal) (s : ℕ) : Prop where
  le : d.scale ≤ s
  full : d.scale = s ∨ d.scale = 28 ∨ 2 ^ 96 ≤ d.mantissa * 10

/-- Of two numbers of one value that are full of the same places, neither has more of them. -/
theorem IsFull.scale_le (h : d.IsFull s) (h' : d'.IsFull s) (hvalue : d.toRat = d'.toRat) :
    d'.scale ≤ d.scale := by
  by_contra hlt
  rw [not_le] at hlt
  -- one more place would have been too many for the first number
  have hlong : 2 ^ 96 ≤ d.mantissa * 10 := by
    have hle := h'.le
    have hle' := d'.scale_le
    rcases h.full with hs | hs | hlong
    · omega
    · omega
    · exact hlong
  have hmantissa : d.mantissa * 10 ^ (d'.scale - d.scale) = d'.mantissa := by
    have habs := congrArg (|·| * 10 ^ d'.scale) hvalue
    simp only [abs_toRat] at habs
    rw [div_pow_mul_pow _ hlt.le, div_pow_mul_pow _ le_rfl, Nat.sub_self, pow_zero, mul_one] at habs
    exact_mod_cast habs
  have hpow : 10 ^ 1 ≤ 10 ^ (d'.scale - d.scale) := Nat.pow_le_pow_right (by norm_num) (by omega)
  have hgrown : d.mantissa * 10 ≤ d'.mantissa := hmantissa ▸ Nat.mul_le_mul_left _ hpow
  exact absurd (hlong.trans hgrown) (not_le.2 d'.mantissa_lt)

/-- A number other than zero that is full of its places is known by its value. -/
theorem IsFull.eq_of_toRat (h : d.IsFull s) (h' : d'.IsFull s) (hvalue : d.toRat = d'.toRat)
    (hne : d.toRat ≠ 0) : d = d' := by
  have hscale : d.scale = d'.scale :=
    le_antisymm (h'.scale_le h hvalue.symm) (h.scale_le h' hvalue)
  have hmantissa : d.mantissa = d'.mantissa := by
    have habs := congrArg (|·|) hvalue
    simp only [abs_toRat, hscale] at habs
    rw [div_left_inj' (by positivity)] at habs
    exact_mod_cast habs
  have hsign : d.negative = d'.negative := by
    rw [toRat_eq, toRat_eq, hscale, hmantissa] at hvalue
    rw [toRat_eq, hscale, hmantissa] at hne
    generalize (d'.mantissa / 10 ^ d'.scale : ℚ) = x at hvalue hne
    cases hd : d.negative <;> cases hd' : d'.negative
    · rfl
    · rw [hd, hd'] at hvalue
      rw [hd] at hne
      simp only [if_true, Bool.false_eq_true, if_false] at hvalue hne
      exact absurd (by linarith) hne
    · rw [hd, hd'] at hvalue
      rw [hd] at hne
      simp only [if_true, Bool.false_eq_true, if_false] at hvalue hne
      exact absurd (by linarith) hne
    · rfl
  cases d
  cases d'
  simp only at hscale hmantissa hsign
  subst hscale hmantissa hsign
  rfl

/-- A mantissa that has lost a digit is within a digit of the end. -/
theorem le_halfEven_mul_ten {n k : ℕ} (h : 2 ^ 96 ≤ n / 10 ^ k) :
    2 ^ 96 ≤ halfEven n (10 ^ (k + 1)) * 10 := by
  have hn := (Nat.le_div_iff_mul_le (Nat.pow_pos (by norm_num))).1 h
  have hnear := (abs_le.1 (halfEven_near (n := n) (Nat.pow_pos (n := k + 1) (by norm_num : 0 < 10)))).1
  have hratio : (2 ^ 96 / 10 : ℚ) ≤ n / (10 ^ (k + 1) : ℕ) := by
    have hn' : (2 ^ 96 * 10 ^ k : ℚ) ≤ n := by exact_mod_cast hn
    calc (2 ^ 96 / 10 : ℚ) = 2 ^ 96 * 10 ^ k / (10 ^ (k + 1) : ℕ) := by
          push_cast
          field_simp
          ring
      _ ≤ _ := by gcongr
  have hlarge : (2 ^ 96 : ℚ) ≤ (halfEven n (10 ^ (k + 1)) * 10 + 5 : ℕ) := by
    push_cast at hnear hratio ⊢
    linarith
  have hlarge' : 2 ^ 96 ≤ halfEven n (10 ^ (k + 1)) * 10 + 5 := by exact_mod_cast hlarge
  omega

theorem fit?_isFull (h : fit? negative m s = some d) : d.IsFull s := by
  unfold fit? at h
  cases hk : droppedDigits? m s with
  | none =>
    rw [hk] at h
    cases h
  | some k =>
    obtain ⟨hks, hs, hlt, hmin⟩ := droppedDigits?_eq_some hk
    simp only [hk, Option.bind_eq_bind, Option.bind_some] at h
    split at h
    · rename_i hq
      rw [ofParts?_eq_some hq (by omega), Option.some.injEq] at h
      subst h
      refine ⟨Nat.sub_le _ _, ?_⟩
      cases k with
      | zero => exact .inl rfl
      | succ k =>
        by_cases h28 : s ≤ k + 28
        · exact .inr (.inr (le_halfEven_mul_ten (hmin k k.lt_succ_self h28)))
        · refine .inr (.inl ?_)
          dsimp only
          omega
    · split at h
      · cases h
      · rename_i hq hsk
        have hlimit : halfEven m (10 ^ k) = 2 ^ 96 := by
          have hle := halfEven_le_succ m (10 ^ k)
          omega
        rw [hlimit, show halfEven (2 ^ 96) 10 = 7922816251426433759354395034 by rfl,
          ofParts?_eq_some (by norm_num) (by omega), Option.some.injEq] at h
        subst h
        exact ⟨(Nat.sub_le _ _).trans (Nat.sub_le _ _), .inr (.inr (by norm_num))⟩

theorem mul?_isFull (h : a.mul? b = some c) (hne : c.toRat ≠ 0) :
    c.IsFull (a.scale + b.scale) := by
  unfold mul? at h
  split at h
  · cases h
    exact absurd toRat_zero hne
  · dsimp only at h
    split at h
    · cases h
      exact absurd toRat_zero hne
    · rw [Option.bind_eq_bind, Option.bind_eq_some_iff] at h
      obtain ⟨p, hp, hc⟩ := h
      rw [Option.pure_def, Option.some.injEq] at hc
      obtain ⟨hle, hfull⟩ := fit?_isFull hp
      rw [← hc]
      split
      · exact ⟨hle, hfull⟩
      · exact ⟨hle, hfull⟩

theorem scale_of_ofParts? (h : ofParts? negative m s = some d) : d.scale = s := by
  unfold ofParts? at h
  split at h
  · cases h
    rfl
  · cases h

/-- Up to 28 places a quantity has the places of its exponent. -/
theorem scale_of_ofFixedPoint? (he : -28 ≤ e) (h : ofFixedPoint? units e = some d)
    (hne : d.toRat ≠ 0) : d.scale = (-e).toNat := by
  rcases ofFixedPoint?_cases h with ⟨hpos, base, factor, hbase, hfactor, h⟩ | ⟨-, h⟩ | ⟨hlt, -⟩
  · rw [pow10?, if_pos hpos.le] at hfactor
    split at hfactor
    · have hle := (mul?_isFull h hne).le
      rw [scale_of_ofParts? hbase, scale_of_ofParts? hfactor] at hle
      omega
    · cases hfactor
  · exact scale_of_ofParts? h
  · omega

end MarginAccount.Decimal
