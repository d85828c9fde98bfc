import MarginAccount.Proofs.Decimal.Rounding

/-! # Sums and products round to even

A sum, a difference and a product are the exact result rounded with ties to even, and there is none
exactly where the exact result is past the last decimal.
-/

namespace MarginAccount.Decimal

variable {a b c d : Decimal} {negative : Bool} {m s : ℕ}

/-! ## A fitted mantissa with its sign -/

theorem toRat_eq_zero_of_roundsAt {t n : ℕ} (h : RoundsAt 0 t n |d.toRat|) : d.toRat = 0 := by
  have h' : RoundsAt ((0 : ℕ) / 10 ^ 0) t n |d.toRat| := by simpa using h
  have := h'.eq_of_fits (by norm_num) (by norm_num)
  simpa using this

theorem fit?_roundsEven (h : fit? negative m s = some d) :
    RoundsEven (if negative then -(m / 10 ^ s) else m / 10 ^ s) d := by
  obtain ⟨hneg, t, n, hr, he⟩ := fit?_rounds h
  rw [← abs_toRat] at hr
  have hx : (0 : ℚ) ≤ m / 10 ^ s := by positivity
  have habs : |if negative then -(m / 10 ^ s : ℚ) else m / 10 ^ s| = m / 10 ^ s := by
    split
    · rw [abs_neg, abs_of_nonneg hx]
    · exact abs_of_nonneg hx
  have hzero : (m / 10 ^ s : ℚ) = 0 → d.toRat = 0 := fun h₀ ↦
    toRat_eq_zero_of_roundsAt (h₀ ▸ hr)
  have hd : (0 : ℚ) ≤ d.mantissa / 10 ^ d.scale := by positivity
  refine ⟨⟨t, n, by rw [habs]; exact hr, by rw [habs]; exact he⟩, fun h₀ ↦ ?_, fun h₀ ↦ ?_⟩
  · cases negative
    · rwa [toRat_of_not_negative hneg]
    · rw [if_pos rfl] at h₀
      exact (hzero (by linarith)).ge
  · cases negative
    · rw [if_neg (by simp)] at h₀
      exact (hzero (by linarith)).le
    · rw [toRat_eq, hneg, if_pos rfl]
      linarith

/-! ## Sums -/

theorem mantissaAt_div (h : a.scale ≤ s) : (a.mantissaAt s : ℚ) / 10 ^ s = a.toRat := by
  have hpow : (10 : ℚ) ^ s = 10 ^ (s - a.scale) * 10 ^ a.scale := by
    rw [← pow_add, Nat.sub_add_cancel h]
  rw [mantissaAt, toRat_eq, hpow]
  split <;> · push_cast; field_simp

theorem add?_eq_fit? (ha : a.isZero = false) (hb : b.isZero = false) :
    ∃ (z : ℤ) (s : ℕ), a.add? b = fit? (z < 0) z.natAbs s ∧ (z / 10 ^ s : ℚ) = a.toRat + b.toRat := by
  refine ⟨a.mantissaAt (Nat.max a.scale b.scale) + b.mantissaAt (Nat.max a.scale b.scale),
    Nat.max a.scale b.scale, by simp [add?, ha, hb], ?_⟩
  rw [← mantissaAt_div (a := a) (Nat.le_max_left a.scale b.scale),
    ← mantissaAt_div (a := b) (Nat.le_max_right a.scale b.scale)]
  push_cast
  ring

theorem add?_roundsEven (h : a.add? b = some c) : RoundsEven (a.toRat + b.toRat) c := by
  cases ha : a.isZero
  · cases hb : b.isZero
    · obtain ⟨z, s, hfit, hz⟩ := add?_eq_fit? ha hb
      rw [← hz, ← signed_natAbs]
      exact fit?_roundsEven (hfit ▸ h)
    · rw [add?, ha, hb, if_neg Bool.false_ne_true, if_pos rfl, Option.some.injEq] at h
      rw [isZero_iff_toRat.1 hb, add_zero, h]
      exact .self c
  · rw [add?, ha, if_pos rfl, Option.some.injEq] at h
    rw [isZero_iff_toRat.1 ha, zero_add, h]
    exact .self c

theorem add?_eq_none (h : a.add? b = none) : TooLarge (a.toRat + b.toRat) := by
  cases ha : a.isZero
  · cases hb : b.isZero
    · obtain ⟨z, s, hfit, hz⟩ := add?_eq_fit? ha hb
      have hle := fit?_eq_none (hfit ▸ h)
      rwa [TooLarge, ← hz, abs_div, abs_of_pos (by positivity : (0 : ℚ) < 10 ^ s), ← Int.cast_abs,
        Int.abs_eq_natAbs, Int.cast_natCast]
    · simp [add?, ha, hb] at h
  · simp [add?, ha] at h

/-- There is no sum exactly where it is past the last decimal. -/
theorem add?_eq_none_iff : a.add? b = none ↔ TooLarge (a.toRat + b.toRat) := by
  refine ⟨add?_eq_none, fun h ↦ ?_⟩
  cases hsum : a.add? b with
  | none => rfl
  | some c => exact absurd h (add?_roundsEven hsum).rounds.not_tooLarge

theorem sub?_roundsEven (h : a.sub? b = some c) : RoundsEven (a.toRat - b.toRat) c := by
  have := add?_roundsEven h
  rwa [toRat_neg, ← sub_eq_add_neg] at this

theorem sub?_eq_none (h : a.sub? b = none) : TooLarge (a.toRat - b.toRat) := by
  have := add?_eq_none h
  rwa [toRat_neg, ← sub_eq_add_neg] at this

theorem exists_add?_of_fits (h : Fits (a.toRat + b.toRat)) :
    ∃ c, a.add? b = some c ∧ c.toRat = a.toRat + b.toRat :=
  h.exists_eq add?_eq_none fun _ hc ↦ (add?_roundsEven hc).rounds

theorem exists_sub?_of_fits (h : Fits (a.toRat - b.toRat)) :
    ∃ c, a.sub? b = some c ∧ c.toRat = a.toRat - b.toRat :=
  h.exists_eq sub?_eq_none fun _ hc ↦ (sub?_roundsEven hc).rounds

/-- A sum of two numbers that are not negative is off by less than seven parts in `10 ^ 29`. -/
theorem add?_error_le (ha : 0 ≤ a.toRat) (hb : 0 ≤ b.toRat) (h : a.add? b = some c) :
    |c.toRat - (a.toRat + b.toRat)| ≤ 2 / 3 / 10 ^ 28 * (a.toRat + b.toRat) := by
  have hround := (add?_roundsEven h).rounds
  have hsum := add_nonneg ha hb
  by_cases hlt : a.toRat + b.toRat < 1
  · -- there is nothing to round
    have hfits : Fits (a.toRat + b.toRat) := by
      refine .of_isWholeAt ((isWholeAt_toRat a).add (isWholeAt_toRat b)) le_rfl ?_
      rw [abs_of_nonneg hsum]
      linarith
    obtain ⟨d, hd⟩ := hfits
    rw [← hd] at hround hsum ⊢
    rw [hround.eq_of_fits, sub_self, abs_zero]
    positivity
  · have herr := hround.error_le
    rw [abs_of_nonneg hsum, max_eq_right (by linarith)] at herr
    linarith

/-- A sum that exceeds every decimal exceeds the collateral. -/
theorem lt_of_add?_eq_none (ha : 0 ≤ a.toRat) (hb : 0 ≤ b.toRat) (h : a.add? b = none)
    (w : Decimal) : w.toRat < a.toRat + b.toRat := by
  have hlt := (add?_eq_none h).abs_lt w
  rw [abs_of_nonneg (add_nonneg ha hb)] at hlt
  exact (le_abs_self _).trans_lt hlt

theorem add?_pos (ha : 0 ≤ a.toRat) (hb : 0 ≤ b.toRat) (h : a.add? b = some c)
    (hpos : 0 < a.toRat + b.toRat) : 0 < c.toRat := by
  have hround := (add?_roundsEven h).rounds
  have hca := hround.ge_of_ge (a := a) (by linarith)
  have hcb := hround.ge_of_ge (a := b) (by linarith)
  by_contra hc
  rw [not_lt] at hc
  linarith

/-- A sum of numbers that are not negative fits a decimal where a larger sum does. -/
theorem exists_add?_of_le {a' b' c' : Decimal} (ha : 0 ≤ a.toRat) (hb : 0 ≤ b.toRat)
    (hle : a.toRat + b.toRat ≤ a'.toRat + b'.toRat) (h : a'.add? b' = some c') :
    ∃ c, a.add? b = some c := by
  rw [← Option.ne_none_iff_exists']
  intro hnone
  have hsum := add_nonneg ha hb
  refine (add?_roundsEven h).rounds.not_tooLarge ((add?_eq_none hnone).mono ?_)
  rwa [abs_of_nonneg hsum, abs_of_nonneg (hsum.trans hle)]

/-- The difference of two numbers that are not negative is no farther from zero than one of them. -/
theorem exists_sub?_of_nonneg (ha : 0 ≤ a.toRat) (hb : 0 ≤ b.toRat) : ∃ c, a.sub? b = some c := by
  rw [← Option.ne_none_iff_exists']
  intro hnone
  have hlarge := sub?_eq_none hnone
  have ha' := hlarge.abs_lt a
  have hb' := hlarge.abs_lt b
  rw [abs_of_nonneg ha] at ha'
  rw [abs_of_nonneg hb] at hb'
  rcases abs_cases (a.toRat - b.toRat) with ⟨heq, -⟩ | ⟨heq, -⟩ <;> linarith

/-! ## Products -/

theorem toRat_mul (a b : Decimal) : a.toRat * b.toRat =
    if (a.negative != b.negative) = true then
      -((a.mantissa * b.mantissa : ℕ) / 10 ^ (a.scale + b.scale) : ℚ)
    else (a.mantissa * b.mantissa : ℕ) / 10 ^ (a.scale + b.scale) := by
  rw [toRat_eq, toRat_eq, pow_add]
  push_cast
  cases a.negative <;> cases b.negative <;> simp <;> field_simp

theorem abs_toRat_mul (a b : Decimal) :
    |a.toRat * b.toRat| = (a.mantissa * b.mantissa : ℕ) / 10 ^ (a.scale + b.scale) := by
  rw [abs_mul, abs_toRat, abs_toRat, pow_add]
  push_cast
  field_simp

/-- Two short factors with many places have a product below half of the last unit. -/
theorem roundsEven_zero_of_short (ha : a.isShort = true) (hb : b.isShort = true)
    (hs : 47 < a.scale + b.scale) : RoundsEven (a.toRat * b.toRat) zero := by
  have hm : ((a.mantissa * b.mantissa : ℕ) : ℚ) < 2 ^ 64 := by
    have : a.mantissa * b.mantissa < 2 ^ 32 * 2 ^ 32 :=
      Nat.mul_lt_mul'' (of_decide_eq_true ha) (of_decide_eq_true hb)
    exact_mod_cast this
  have hpow : (10 : ℚ) ^ 48 ≤ 10 ^ (a.scale + b.scale) := pow_le_pow_right₀ (by norm_num) hs
  have hlt : |a.toRat * b.toRat| * 10 ^ 28 ≤ 1 / 4 := by
    have : |a.toRat * b.toRat| ≤ 2 ^ 64 / 10 ^ 48 := by
      rw [abs_toRat_mul]
      gcongr
    calc |a.toRat * b.toRat| * 10 ^ 28 ≤ 2 ^ 64 / 10 ^ 48 * 10 ^ 28 := by gcongr
      _ ≤ 1 / 4 := by norm_num
  have hnn := abs_nonneg (a.toRat * b.toRat)
  refine ⟨⟨28, 0, ⟨⟨hnn, le_rfl, by linarith, .inl rfl⟩, ?_, fun _ ↦ Even.zero,
    .inr (by norm_num), ?_⟩, fun _ ↦ Even.zero⟩, fun _ ↦ ?_, fun _ ↦ ?_⟩
  · rw [Nat.cast_zero, zero_sub, abs_neg, abs_of_nonneg (by positivity)]
    linarith
  · rw [toRat_zero, settled_of_lt (by norm_num)]
    norm_num
  · rw [toRat_zero]
  · rw [toRat_zero]

theorem mul?_roundsEven (h : a.mul? b = some c) : RoundsEven (a.toRat * b.toRat) c := by
  unfold mul? at h
  split at h
  · rename_i hz
    rw [Option.some.injEq] at h
    subst h
    have : a.toRat * b.toRat = zero.toRat := by
      rw [Bool.or_eq_true, isZero_iff_toRat, isZero_iff_toRat] at hz
      rw [toRat_zero, mul_eq_zero]
      exact hz
    rw [this]
    exact .self _
  · dsimp only at h
    split at h
    · rename_i hs
      rw [Option.some.injEq] at h
      subst h
      rw [Bool.and_eq_true, Bool.and_eq_true, decide_eq_true_iff] at hs
      exact roundsEven_zero_of_short hs.1.1 hs.1.2 hs.2
    · rw [Option.bind_eq_bind, Option.bind_eq_some_iff] at h
      obtain ⟨p, hp, hc⟩ := h
      have hr := fit?_roundsEven hp
      rw [← toRat_mul] at hr
      rw [Option.pure_def, Option.some.injEq] at hc
      have hval : c.toRat = p.toRat := by
        rw [← hc]
        split
        · rename_i hz
          rw [Bool.and_eq_true] at hz
          rw [isZero_iff_toRat.1 hz.2]
          exact isZero_iff_toRat.1 hz.2
        · rfl
      exact ⟨by rw [hval]; exact hr.magnitude, fun hx ↦ hval ▸ hr.nonneg hx,
        fun hx ↦ hval ▸ hr.nonpos hx⟩

theorem mul?_eq_none (h : a.mul? b = none) : TooLarge (a.toRat * b.toRat) := by
  unfold mul? at h
  split at h
  · cases h
  · dsimp only at h
    split at h
    · cases h
    · rw [Option.bind_eq_bind, Option.bind_eq_none_iff] at h
      have hfit : fit? (a.negative != b.negative) (a.mantissa * b.mantissa) (a.scale + b.scale) =
          none := by
        rw [Option.eq_none_iff_forall_ne_some]
        intro p hp
        have := h p hp
        cases this
      rw [TooLarge, abs_toRat_mul]
      exact fit?_eq_none hfit

theorem mul?_eq_none_iff : a.mul? b = none ↔ TooLarge (a.toRat * b.toRat) := by
  refine ⟨mul?_eq_none, fun h ↦ ?_⟩
  cases hproduct : a.mul? b with
  | none => rfl
  | some c => exact absurd h (mul?_roundsEven hproduct).rounds.not_tooLarge

theorem exists_mul?_of_fits (h : Fits (a.toRat * b.toRat)) :
    ∃ c, a.mul? b = some c ∧ c.toRat = a.toRat * b.toRat :=
  h.exists_eq mul?_eq_none fun _ hc ↦ (mul?_roundsEven hc).rounds

/-- A share of a number that is not negative lies between zero and the number. -/
theorem mul?_share (ha : 0 ≤ a.toRat) (hb : 0 ≤ b.toRat) (hb₁ : b.toRat ≤ 1)
    (h : a.mul? b = some c) : 0 ≤ c.toRat ∧ c.toRat ≤ a.toRat := by
  have hround := mul?_roundsEven h
  exact ⟨hround.nonneg (mul_nonneg ha hb), hround.rounds.le_of_le (mul_le_of_le_one_right ha hb₁)⟩

theorem exists_mul?_of_share (ha : 0 ≤ a.toRat) (hb : 0 ≤ b.toRat) (hb₁ : b.toRat ≤ 1) :
    ∃ c, a.mul? b = some c := by
  rw [← Option.ne_none_iff_exists']
  intro hnone
  have hlt := (mul?_eq_none hnone).abs_lt a
  rw [abs_of_nonneg ha, abs_of_nonneg (mul_nonneg ha hb)] at hlt
  exact absurd (mul_le_of_le_one_right ha hb₁) (not_le.2 hlt)

/-- A product of numbers that are not negative fits a decimal where a larger product does. -/
theorem exists_mul?_of_le {c' a' b' : Decimal} (ha : 0 ≤ a.toRat) (hb : 0 ≤ b.toRat)
    (hle : a.toRat * b.toRat ≤ a'.toRat * b'.toRat) (h : a'.mul? b' = some c') :
    ∃ c, a.mul? b = some c := by
  rw [← Option.ne_none_iff_exists']
  intro hnone
  have hprod := mul_nonneg ha hb
  refine (mul?_roundsEven h).rounds.not_tooLarge ((mul?_eq_none hnone).mono ?_)
  rwa [abs_of_nonneg hprod, abs_of_nonneg (hprod.trans hle)]

/-! ## Faults -/

theorem orFault_eq_ok {f : Fault} {x : Option Decimal} : orFault f x = .ok d ↔ x = some d := by
  cases x with
  | none => exact ⟨fun h ↦ (by cases h), fun h ↦ (by cases h)⟩
  | some a => rw [orFault_some, Except.ok.injEq, Option.some.injEq]

theorem orFault_eq_error {f f' : Fault} {x : Option Decimal} :
    orFault f x = .error f' ↔ x = none ∧ f' = f := by
  cases x with
  | none => rw [orFault_none, Except.error.injEq, and_iff_right rfl, eq_comm]
  | some a => exact ⟨fun h ↦ (by cases h), fun h ↦ (by cases h.1)⟩

end MarginAccount.Decimal
