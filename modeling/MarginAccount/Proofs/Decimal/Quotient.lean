import MarginAccount.Proofs.Decimal.Rounding

/-! # Division rounds to a nearest decimal

The expansion of a quotient keeps to digits below `2 ^ 96` and to 28 places, and ends where the
quotient has its place: `expand_holds` is the invariant of the expansion. A quotient is therefore
the exact ratio rounded at that place. Ties go to even except where `roundsTieUp` says so, which is
a property of the two operands and not of the ratio: it depends on their scales.
-/

namespace MarginAccount.Decimal

variable {n d k p : ℕ} {s : ℤ}

/-! ## Digits up to a place -/

theorem quotientAt_mul_pow_le (n d k p : ℕ) :
    quotientAt n d k * 10 ^ p ≤ quotientAt n d (k + p) := by
  rw [quotientAt, quotientAt, pow_add, ← Nat.mul_assoc, Nat.mul_comm, Nat.mul_comm (n * 10 ^ k)]
  exact Nat.mul_div_le_mul_div_assoc ..

theorem quotientAt_lt (hd : 0 < d) (n k p : ℕ) :
    quotientAt n d (k + p) < (quotientAt n d k + 1) * 10 ^ p := by
  have hlt : n * 10 ^ k < d * (n * 10 ^ k / d + 1) := Nat.lt_mul_div_succ _ hd
  rw [quotientAt, quotientAt, Nat.div_lt_iff_lt_mul hd, pow_add, ← Nat.mul_assoc]
  calc n * 10 ^ k * 10 ^ p < d * (n * 10 ^ k / d + 1) * 10 ^ p :=
        Nat.mul_lt_mul_of_pos_right hlt (by positivity)
    _ = (n * 10 ^ k / d + 1) * 10 ^ p * d := by ring

/-- A run has the most places that fit, up to nine. -/
theorem placesLeft_spec (q : ℕ) (s : ℤ) (hs : s ≤ 28) (hq : q < 2 ^ 96) :
    placesLeft q s ≤ 9 ∧ s + placesLeft q s ≤ 28 ∧ q * 10 ^ placesLeft q s < 2 ^ 96 ∧
      (placesLeft q s < 9 → s + placesLeft q s = 28 ∨ 2 ^ 96 ≤ q * 10 ^ (placesLeft q s + 1)) := by
  unfold placesLeft
  cases hf : (List.range 10).reverse.find? fun p : Nat ↦ s + p ≤ 28 ∧ q * 10 ^ p < 2 ^ 96 with
  | none =>
    rw [List.find?_eq_none] at hf
    have := hf 0 (by decide)
    rw [decide_eq_true_iff] at this
    exact absurd ⟨by simpa using hs, by simpa using hq⟩ this
  | some p =>
    have hp := List.find?_some hf
    rw [decide_eq_true_iff] at hp
    obtain ⟨-, i, hi, rfl, hbefore⟩ := List.find?_eq_some_iff_getElem.1 hf
    rw [List.length_reverse, List.length_range] at hi
    simp only [List.getElem_reverse, List.getElem_range, List.length_range] at hp hbefore ⊢
    refine ⟨by rw [Option.getD_some]; omega, hp.1, hp.2, fun h9 ↦ ?_⟩
    rw [Option.getD_some] at h9 ⊢
    -- the run that is one place longer was tried before
    have hlonger := hbefore (i - 1) (by omega)
    rw [show 10 - 1 - (i - 1) = 10 - 1 - i + 1 by omega, Bool.not_eq_true',
      decide_eq_false_iff_not, not_and_or, not_lt] at hlonger
    exact hlonger.imp_left fun h ↦ by omega

/-! ## Where an expansion ends -/

/-- What an ending says about the digits of `n / d`, where place `k` has scale `s + k`. -/
def Ending.Holds (n d : ℕ) (s : ℤ) : Ending → Prop
  | .exact k => remainderAt n d k = 0 ∧ 0 ≤ s + k ∧ s + k ≤ 28 ∧ quotientAt n d k < 2 ^ 96
  | .inexact k => 0 ≤ s + k ∧ s + k ≤ 28 ∧ quotientAt n d k < 2 ^ 96 ∧
      (s + k = 28 ∨ 2 ^ 96 ≤ quotientAt n d (k + 1))
  | .crowded k => 0 ≤ s + k ∧ s + k < 28 ∧ quotientAt n d k * 10 < 2 ^ 96 + 10 ^ 9 ∧
      2 ^ 96 ≤ quotientAt n d (k + 1)
  | .overflow => ∃ k : ℕ, s + k ≤ 0 ∧ 2 ^ 96 ≤ quotientAt n d k

/-- An expansion never leaves the 28 places nor takes digits past `2 ^ 96`, and ends only where
there is nothing to expand or no further digit fits. -/
theorem expand_holds (hd : 0 < d) (hs : s + k ≤ 28) (hq : quotientAt n d k < 2 ^ 96) :
    (expand n d s k).Holds n d s := by
  fun_induction expand n d s k with
  | case1 k hr h0 => exact ⟨hr, h0, hs, hq⟩
  | case2 k hr h0 p hp ih => exact ih (by omega) hp
  | case3 k hr h0 p hp => exact ⟨k + p, by omega, not_lt.1 hp⟩
  | case4 k hr p hover =>
    obtain ⟨-, -, -, hnext⟩ := placesLeft_spec (quotientAt n d k) (s + k) hs hq
    have hge := (hnext hover.1).resolve_left (by have := hover.2; omega)
    exact ⟨k + (p + 1), by have := hover.2; omega, hge.trans (quotientAt_mul_pow_le ..)⟩
  | case5 k hr p hover hp =>
    obtain ⟨-, -, -, hnext⟩ := placesLeft_spec (quotientAt n d k) (s + k) hs hq
    change p < 9 → s + k + p = 28 ∨ 2 ^ 96 ≤ quotientAt n d k * 10 ^ (p + 1) at hnext
    rw [hp] at hnext hover
    refine ⟨by omega, hs, hq, ?_⟩
    exact (hnext (by norm_num)).imp (fun h ↦ by simpa using h) fun h ↦
      h.trans (quotientAt_mul_pow_le ..)
  | case6 k hr p hover hp hlt ih =>
    obtain ⟨-, h28, -, -⟩ := placesLeft_spec (quotientAt n d k) (s + k) hs hq
    exact ih (by push_cast; linarith) hlt
  | case7 k hr p hover hp hlt hone => exact ⟨k + p, by omega, not_lt.1 hlt⟩
  | case8 k hr p hover hp hlt hone =>
    obtain ⟨h9, h28, hfit, -⟩ := placesLeft_spec (quotientAt n d k) (s + k) hs hq
    change p ≤ 9 at h9
    change s + k + p ≤ 28 at h28
    change quotientAt n d k * 10 ^ p < 2 ^ 96 at hfit
    obtain ⟨j, hj⟩ := Nat.exists_eq_succ_of_ne_zero hp
    have hk : k + p - 1 = k + j := by omega
    rw [hk]
    refine ⟨by omega, by omega, ?_, ?_⟩
    · have hrun := quotientAt_lt hd n k j
      have hpow : 10 ^ p ≤ 10 ^ 9 := Nat.pow_le_pow_right (by norm_num) h9
      calc quotientAt n d (k + j) * 10 < (quotientAt n d k + 1) * 10 ^ j * 10 := by omega
        _ = quotientAt n d k * 10 ^ p + 10 ^ p := by rw [hj, Nat.pow_succ]; ring
        _ < 2 ^ 96 + 10 ^ 9 := by omega
    · rw [show k + j + 1 = k + p by omega]
      exact not_lt.1 hlt

/-! ## Zeros at the end -/

/-- `y` has the digits of `x` without some zeros at the end. -/
structure Trims (x y : ℕ × ℕ) : Prop where
  value : (y.1 / 10 ^ y.2 : ℚ) = x.1 / 10 ^ x.2
  le : y.1 ≤ x.1
  scale_le : y.2 ≤ x.2

theorem Trims.trans {x y z : ℕ × ℕ} (h : Trims x y) (h' : Trims y z) : Trims x z :=
  ⟨h'.value.trans h.value, h'.le.trans h.le, h'.scale_le.trans h.scale_le⟩

/-- Dividing out zeros that are there. -/
theorem Trims.of_dvd {m s z : ℕ} (h : m % 10 ^ z = 0) (hz : z ≤ s) :
    Trims (m, s) (m / 10 ^ z, s - z) := by
  refine ⟨?_, Nat.div_le_self .., Nat.sub_le ..⟩
  have hm : ((m / 10 ^ z : ℕ) : ℚ) = m / 10 ^ z := by
    rw [Nat.cast_div (Nat.dvd_of_mod_eq_zero h) (by positivity)]
    push_cast
    rfl
  have hs : (10 : ℚ) ^ s = 10 ^ (s - z) * 10 ^ z := by rw [← pow_add, Nat.sub_add_cancel hz]
  rw [hm, hs]
  field_simp

theorem trims_drop (z : ℕ) (x : ℕ × ℕ) : Trims x (dropZeros.drop z x) := by
  unfold dropZeros.drop
  split
  · rename_i h
    exact .of_dvd h.1 h.2
  · exact ⟨rfl, le_rfl, le_rfl⟩

theorem trims_dropZeros (m s : ℕ) : Trims (m, s) (dropZeros m s) := by
  fun_induction dropZeros m s with
  | case1 m s h ih => exact (Trims.of_dvd h.2.1 h.2.2).trans ih
  | case2 m s h => exact ((trims_drop 4 _).trans (trims_drop 2 _)).trans (trims_drop 1 _)

/-! ## The ratio and its place -/

/-- The quotient breaks a tie upward, to an odd digit. This takes a divisor of more than 64 bits
and an expansion that has gone one place too far. -/
def roundsTieUp (a b : Decimal) : Bool :=
  match expand a.mantissa b.mantissa (a.scale - b.scale) 0 with
  | .crowded k =>
    b.isLong && 2 * remainderAt a.mantissa b.mantissa k == b.mantissa &&
      quotientAt a.mantissa b.mantissa k % 2 == 0
  | _ => false

section Ratio

variable {a b c : Decimal} {t : ℕ}

theorem mantissa_pos (hb : b.isZero = false) : 0 < b.mantissa := by
  rw [isZero, beq_eq_false_iff_ne] at hb
  exact Nat.pos_of_ne_zero hb

/-- The exact ratio in units of a place of the expansion. -/
theorem ratio_mul_pow (hb : b.isZero = false) (ht : (t : ℤ) = a.scale - b.scale + k) :
    |a.toRat / b.toRat| * 10 ^ t = (a.mantissa * 10 ^ k : ℕ) / b.mantissa := by
  have hm : (b.mantissa : ℚ) ≠ 0 := by exact_mod_cast (mantissa_pos hb).ne'
  have hpow : (10 : ℚ) ^ t * 10 ^ b.scale = 10 ^ a.scale * 10 ^ k := by
    rw [← pow_add, ← pow_add]
    congr 1
    omega
  rw [abs_div, abs_toRat, abs_toRat]
  push_cast
  field_simp
  linear_combination (a.mantissa : ℚ) * hpow

theorem quotientAt_le_ratio (n d k : ℕ) : (quotientAt n d k : ℚ) ≤ (n * 10 ^ k : ℕ) / d :=
  Nat.cast_div_le

theorem ratio_lt_quotientAt (hd : 0 < d) (n k : ℕ) :
    ((n * 10 ^ k : ℕ) / d : ℚ) < quotientAt n d k + 1 := by
  have hd' : (0 : ℚ) < d := by exact_mod_cast hd
  have hlt := Nat.lt_mul_div_succ (n * 10 ^ k) hd
  rw [div_lt_iff₀ hd', quotientAt]
  have : ((n * 10 ^ k : ℕ) : ℚ) < d * ((n * 10 ^ k / d : ℕ) + 1) := by exact_mod_cast hlt
  linarith

/-- The place of the ratio is where the digits are below `2 ^ 96` and would not be one place on. -/
theorem isPlace_ratio (hb : b.isZero = false) (ht : (t : ℤ) = a.scale - b.scale + k) (h28 : t ≤ 28)
    (hq : quotientAt a.mantissa b.mantissa k < 2 ^ 96)
    (hlast : t = 28 ∨ 2 ^ 96 ≤ quotientAt a.mantissa b.mantissa (k + 1)) :
    IsPlace |a.toRat / b.toRat| t := by
  refine ⟨abs_nonneg _, h28, ?_, hlast.imp_right fun hge ↦ ?_⟩
  · rw [ratio_mul_pow hb ht]
    refine (ratio_lt_quotientAt (mantissa_pos hb) _ _).trans_le ?_
    exact_mod_cast hq
  · rw [ratio_mul_pow (k := k + 1) hb (by push_cast; omega)]
    refine le_trans ?_ (quotientAt_le_ratio ..)
    exact_mod_cast hge

/-! ## The digits of a quotient -/

/-- The mantissa and the scale of a quotient of two numbers that are not zero. -/
def quotientDigits? (a b : Decimal) : Option (ℕ × ℕ) :=
  let s : ℤ := a.scale - b.scale
  let n := a.mantissa
  let d := b.mantissa
  match expand n d s 0 with
  | .overflow => none
  | .exact k =>
    let m := quotientAt n d k
    if remainderAt n d 0 = 0 then some (m, (s + k).toNat) else some (dropZeros m (s + k).toNat)
  | .inexact k =>
    (settle (halfEven (n * 10 ^ k) d) (s + k).toNat).map fun (m, scale) ↦ dropZeros m scale
  | .crowded k =>
    let round := if b.isLong then halfUp else halfEven
    some (dropZeros (round (n * 10 ^ k) d) (s + k).toNat)

theorem div?_eq (ha : a.isZero = false) (hb : b.isZero = false) :
    a.div? b = (quotientDigits? a b).bind fun p ↦
      ofParts? (a.negative != b.negative && p.1 != 0) p.1 p.2 := by
  rw [div?, ha, hb, if_neg Bool.false_ne_true, if_neg Bool.false_ne_true]
  dsimp only [quotientDigits?]
  cases expand a.mantissa b.mantissa (a.scale - b.scale) 0 with
  | exact k =>
    dsimp only
    split <;> rfl
  | inexact k => rfl
  | crowded k => rfl
  | overflow => rfl

/-- Settled digits are worth the settled units of the place. -/
theorem settle_eq_some {m : ℕ} {p : ℕ × ℕ} (h : settle m t = some p) :
    p.1 < 2 ^ 96 ∧ p.2 ≤ t ∧ (p.1 / 10 ^ p.2 : ℚ) = settled m t ∧ (m < 2 ^ 96 ∨ 0 < t) := by
  unfold settle at h
  split at h
  · rename_i hm
    cases h
    exact ⟨hm, le_rfl, (settled_of_lt hm).symm, .inl hm⟩
  · rename_i hm
    split at h
    · cases h
    · rename_i ht
      cases h
      refine ⟨by norm_num, Nat.sub_le .., ?_, .inr (Nat.pos_of_ne_zero ht)⟩
      obtain ⟨u, rfl⟩ := Nat.exists_eq_succ_of_ne_zero ht
      rw [settled_of_not_lt hm, Nat.succ_sub_one, pow_succ (10 : ℚ)]
      field_simp
      norm_num

theorem settle_eq_none {m : ℕ} (h : settle m t = none) : 2 ^ 96 ≤ m ∧ t = 0 := by
  unfold settle at h
  split at h
  · cases h
  · rename_i hm
    split at h
    · rename_i ht
      exact ⟨not_lt.1 hm, ht⟩
    · cases h

/-- The expansion of a quotient starts within its bounds. -/
theorem expand_ratio_holds (a : Decimal) (hb : b.isZero = false) :
    (expand a.mantissa b.mantissa (a.scale - b.scale) 0).Holds a.mantissa b.mantissa
      (a.scale - b.scale) := by
  refine expand_holds (mantissa_pos hb) (by have := a.scale_le; omega) ?_
  rw [quotientAt, pow_zero, Nat.mul_one]
  exact (Nat.div_le_self ..).trans_lt a.mantissa_lt

/-- Rounding half up in the crowded case breaks a tie to even exactly where the digit was odd. -/
theorem evenUp_halfUp_iff {x : ℚ} (hd : 0 < d) (hx : x * 10 ^ t = n / d) :
    EvenUp x t (halfUp n d) ↔ ¬(2 * (n % d) = d ∧ n / d % 2 = 0) := by
  rw [EvenUp, hx, tie_up_iff hd]
  constructor
  · rintro heven ⟨hmod, hdiv⟩
    have hup := halfUp_of_tie hd hmod
    have := heven ⟨hup.symm, hmod⟩
    rw [hup, Nat.even_add_one, Nat.even_iff] at this
    exact this hdiv
  · rintro hodd ⟨hup, hmod⟩
    rw [← hup, Nat.even_add_one, Nat.even_iff]
    exact fun hdiv ↦ hodd ⟨hmod, hdiv⟩

theorem evenUp_of_halfEven {x : ℚ} {n d t : ℕ}
    (h : RoundsAt x t (halfEven n d) (settled (halfEven n d) t) ∧ EvenUp x t (halfEven n d))
    (hup : a.roundsTieUp b = false) :
    RoundsAt x t (halfEven n d) (settled (halfEven n d) t) ∧
      (EvenUp x t (halfEven n d) ↔ a.roundsTieUp b = false) :=
  ⟨h.1, fun _ ↦ hup, fun _ ↦ h.2⟩

/-- The digits of a quotient are the exact ratio rounded at its place. -/
theorem quotientDigits?_eq_some {p : ℕ × ℕ} (hb : b.isZero = false)
    (h : quotientDigits? a b = some p) :
    p.1 < 2 ^ 96 ∧ p.2 ≤ 28 ∧ ∃ t m, RoundsAt |a.toRat / b.toRat| t m (p.1 / 10 ^ p.2) ∧
      (EvenUp |a.toRat / b.toRat| t m ↔ a.roundsTieUp b = false) := by
  have hd := mantissa_pos hb
  have hholds := expand_ratio_holds a hb
  unfold quotientDigits? at h
  dsimp only at h
  cases he : expand a.mantissa b.mantissa (a.scale - b.scale) 0 with
  | overflow =>
    rw [he] at h
    cases h
  | exact k =>
    have hup : a.roundsTieUp b = false := by rw [roundsTieUp, he]
    rw [he] at h hholds
    obtain ⟨hr, h0, h28, hq⟩ := hholds
    obtain ⟨t, ht⟩ := Int.eq_ofNat_of_zero_le h0
    dsimp only at h
    rw [ht, Int.toNat_natCast] at h
    have htrims : Trims (quotientAt a.mantissa b.mantissa k, t) p := by
      split at h <;> rw [Option.some.injEq] at h <;> subst h
      · exact ⟨rfl, le_rfl, le_rfl⟩
      · exact trims_dropZeros ..
    have hx : |a.toRat / b.toRat| = quotientAt a.mantissa b.mantissa k / 10 ^ t := by
      have hdiv : ((a.mantissa * 10 ^ k : ℕ) / b.mantissa : ℚ) = quotientAt a.mantissa b.mantissa k :=
        (Nat.cast_div (Nat.dvd_of_mod_eq_zero hr) (by exact_mod_cast hd.ne')).symm
      rw [eq_div_iff (by positivity), ratio_mul_pow hb ht.symm, hdiv]
    obtain ⟨t', m', hround, heven⟩ := RoundsAt.of_fits (s := t) hq (by omega)
    refine ⟨htrims.le.trans_lt hq, htrims.scale_le.trans (by omega), t', m', ?_, ?_⟩
    · rw [htrims.value, hx]
      exact hround
    · rw [hx]
      exact ⟨fun _ ↦ hup, fun _ ↦ heven⟩
  | inexact k =>
    have hup : a.roundsTieUp b = false := by rw [roundsTieUp, he]
    rw [he] at h hholds
    obtain ⟨h0, h28, hq, hlast⟩ := hholds
    obtain ⟨t, ht⟩ := Int.eq_ofNat_of_zero_le h0
    dsimp only at h
    rw [ht, Int.toNat_natCast, Option.map_eq_some_iff] at h
    obtain ⟨q, hsettle, rfl⟩ := h
    obtain ⟨hlt, hle, hval, hfits⟩ := settle_eq_some hsettle
    have htrims := trims_dropZeros q.1 q.2
    have hplace := isPlace_ratio hb ht.symm (by omega) hq (hlast.imp_left fun h ↦ by omega)
    refine ⟨htrims.le.trans_lt hlt, (htrims.scale_le.trans hle).trans (by omega), t,
      halfEven (a.mantissa * 10 ^ k) b.mantissa, ?_⟩
    rw [htrims.value, hval]
    exact evenUp_of_halfEven (RoundsAt.of_halfEven hplace hd (ratio_mul_pow hb ht.symm) hfits) hup
  | crowded k =>
    rw [he] at h hholds
    obtain ⟨h0, h28, hq, hlast⟩ := hholds
    obtain ⟨t, ht⟩ := Int.eq_ofNat_of_zero_le h0
    dsimp only at h
    rw [ht, Int.toNat_natCast, Option.some.injEq] at h
    subst h
    have hplace := isPlace_ratio hb ht.symm (by omega) (by omega) (.inr hlast)
    have hx := ratio_mul_pow hb ht.symm
    -- the crowded digits have a place to spare, so either rounding leaves them below `2 ^ 96`
    cases hlong : b.isLong
    · have hfit : halfEven (a.mantissa * 10 ^ k) b.mantissa < 2 ^ 96 := by
        have := halfEven_le_succ (a.mantissa * 10 ^ k) b.mantissa
        unfold quotientAt at hq
        omega
      have htrims := trims_dropZeros (halfEven (a.mantissa * 10 ^ k) b.mantissa) t
      rw [if_neg Bool.false_ne_true]
      refine ⟨htrims.le.trans_lt hfit, htrims.scale_le.trans (by omega), t,
        halfEven (a.mantissa * 10 ^ k) b.mantissa, ?_⟩
      rw [htrims.value, ← settled_of_lt hfit]
      refine evenUp_of_halfEven (RoundsAt.of_halfEven hplace hd hx (.inl hfit)) ?_
      simp [roundsTieUp, he, hlong]
    · have hfit : halfUp (a.mantissa * 10 ^ k) b.mantissa < 2 ^ 96 := by
        have := halfUp_le_succ (a.mantissa * 10 ^ k) hd
        unfold quotientAt at hq
        omega
      have htrims := trims_dropZeros (halfUp (a.mantissa * 10 ^ k) b.mantissa) t
      rw [if_pos rfl]
      refine ⟨htrims.le.trans_lt hfit, htrims.scale_le.trans (by omega), t,
        halfUp (a.mantissa * 10 ^ k) b.mantissa, ?_⟩
      rw [htrims.value, ← settled_of_lt hfit]
      refine ⟨RoundsAt.of_halfUp hplace hd hx (.inl hfit), ?_⟩
      rw [evenUp_halfUp_iff hd hx, roundsTieUp, he]
      simp [hlong, remainderAt, quotientAt]

/-- There are no digits only where the ratio is past the last decimal. -/
theorem quotientDigits?_eq_none (hb : b.isZero = false) (h : quotientDigits? a b = none) :
    TooLarge (a.toRat / b.toRat) := by
  have hd := mantissa_pos hb
  have hholds := expand_ratio_holds a hb
  unfold quotientDigits? at h
  dsimp only at h
  cases he : expand a.mantissa b.mantissa (a.scale - b.scale) 0 with
  | overflow =>
    rw [he] at hholds
    obtain ⟨k, hk, hq⟩ := hholds
    -- the digits at a place no later than the units are already too many
    obtain ⟨j, hj⟩ := Int.eq_ofNat_of_zero_le (neg_nonneg.2 hk)
    have hx := ratio_mul_pow (a := a) (k := k + j) (t := 0) hb (by push_cast; omega)
    have hge : 2 ^ 96 ≤ quotientAt a.mantissa b.mantissa (k + j) :=
      hq.trans ((Nat.le_mul_of_pos_right _ (by positivity)).trans (quotientAt_mul_pow_le ..))
    have hge' : (2 ^ 96 : ℚ) ≤ quotientAt a.mantissa b.mantissa (k + j) := by exact_mod_cast hge
    have hle := hge'.trans (quotientAt_le_ratio ..)
    rw [pow_zero, mul_one] at hx
    rw [TooLarge, hx]
    linarith
  | exact k =>
    rw [he] at h
    dsimp only at h
    split at h <;> cases h
  | inexact k =>
    rw [he] at h hholds
    obtain ⟨h0, h28, hq, hlast⟩ := hholds
    obtain ⟨t, ht⟩ := Int.eq_ofNat_of_zero_le h0
    dsimp only at h
    rw [ht, Int.toNat_natCast, Option.map_eq_none_iff] at h
    obtain ⟨hge, rfl⟩ := settle_eq_none h
    have hx := ratio_mul_pow (a := a) hb ht.symm
    have hnear := (abs_le.1 (halfEven_near (n := a.mantissa * 10 ^ k) hd)).2
    have hge' : (2 ^ 96 : ℚ) ≤ halfEven (a.mantissa * 10 ^ k) b.mantissa := by exact_mod_cast hge
    rw [pow_zero, mul_one] at hx
    rw [TooLarge, hx]
    linarith
  | crowded k =>
    rw [he] at h
    cases h

/-! ## Quotients -/

theorem isZero_eq_false_of_div? (h : a.div? b = some c) : b.isZero = false := by
  cases hb : b.isZero
  · rfl
  · rw [div?, hb, if_pos rfl] at h
    cases h

/-- Only a quotient with digits left over breaks a tie. -/
theorem isZero_eq_false_of_roundsTieUp (h : a.roundsTieUp b = true) :
    a.isZero = false ∧ b.isZero = false := by
  unfold roundsTieUp at h
  split at h
  · rw [Bool.and_eq_true, Bool.and_eq_true, isLong, decide_eq_true_iff, beq_iff_eq] at h
    obtain ⟨⟨hlong, hrem⟩, -⟩ := h
    have hb : 0 < b.mantissa := lt_of_lt_of_le (by norm_num) hlong
    refine ⟨?_, by rw [isZero, beq_eq_false_iff_ne]; exact hb.ne'⟩
    rw [isZero, beq_eq_false_iff_ne]
    intro ha
    rw [ha, remainderAt, Nat.zero_mul, Nat.zero_mod] at hrem
    exact absurd hrem (by omega)
  · cases h

/-- Only a divisor of more than 64 bits breaks ties upward. -/
theorem isLong_of_roundsTieUp (h : a.roundsTieUp b = true) : b.isLong = true := by
  unfold roundsTieUp at h
  split at h
  · rw [Bool.and_eq_true, Bool.and_eq_true] at h
    exact h.1.1
  · cases h

/-- A quotient is the exact ratio rounded at its place. -/
theorem div?_roundsAt (h : a.div? b = some c) :
    ∃ t m, RoundsAt |a.toRat / b.toRat| t m |c.toRat| ∧
      (EvenUp |a.toRat / b.toRat| t m ↔ a.roundsTieUp b = false) := by
  have hb := isZero_eq_false_of_div? h
  cases ha : a.isZero
  · rw [div?_eq ha hb, Option.bind_eq_some_iff] at h
    obtain ⟨p, hp, hc⟩ := h
    obtain ⟨hm, hs, hround⟩ := quotientDigits?_eq_some hb hp
    rw [ofParts?_eq_some hm hs, Option.some.injEq] at hc
    subst hc
    rwa [abs_toRat]
  · have hup : a.roundsTieUp b = false := by
      rw [← Bool.not_eq_true]
      intro hup
      exact absurd (isZero_eq_false_of_roundsTieUp hup).1 (by simp [ha])
    rw [div?, hb, if_neg Bool.false_ne_true, ha, if_pos rfl, Option.some.injEq] at h
    rw [← h, isZero_iff_toRat.1 ha, zero_div, toRat_zero, abs_zero]
    obtain ⟨t, m, hround, heven⟩ :=
      RoundsAt.of_fits (show 0 < 2 ^ 96 by norm_num) (show 0 ≤ 28 by norm_num)
    rw [Nat.cast_zero, zero_div] at hround heven
    exact ⟨t, m, hround, fun _ ↦ hup, fun _ ↦ heven⟩

theorem toRat_div (a b : Decimal) : a.toRat / b.toRat =
    if (a.negative != b.negative) = true then -|a.toRat / b.toRat| else |a.toRat / b.toRat| := by
  rw [abs_div, abs_toRat, abs_toRat, toRat_eq a, toRat_eq b]
  cases a.negative <;> cases b.negative <;> simp [neg_div, div_neg]

/-- A quotient has the sign of the ratio, where it is not zero. -/
theorem div?_sign (h : a.div? b = some c) :
    (0 ≤ a.toRat / b.toRat → 0 ≤ c.toRat) ∧ (a.toRat / b.toRat ≤ 0 → c.toRat ≤ 0) := by
  have hb := isZero_eq_false_of_div? h
  cases ha : a.isZero
  · have hpos : 0 < |a.toRat / b.toRat| := by
      rw [abs_pos]
      exact div_ne_zero (isZero_eq_false_iff.1 ha) (isZero_eq_false_iff.1 hb)
    rw [div?_eq ha hb, Option.bind_eq_some_iff] at h
    obtain ⟨p, hp, hc⟩ := h
    obtain ⟨hm, hs, -⟩ := quotientDigits?_eq_some hb hp
    rw [ofParts?_eq_some hm hs, Option.some.injEq] at hc
    have hp₀ : (0 : ℚ) ≤ p.1 / 10 ^ p.2 := by positivity
    rw [toRat_div, ← hc, toRat_of_parts (a.negative != b.negative && p.1 != 0)]
    cases a.negative != b.negative
    · exact ⟨fun _ ↦ hp₀, fun h₀ ↦ absurd h₀ (not_le.2 hpos)⟩
    · refine ⟨fun h₀ ↦ absurd h₀ (not_le.2 (neg_neg_of_pos hpos)), fun _ ↦ ?_⟩
      cases hz : p.1 != 0
      · have : p.1 = 0 := by simpa using hz
        simp [this]
      · exact neg_nonpos.2 hp₀
  · rw [div?, hb, if_neg Bool.false_ne_true, ha, if_pos rfl, Option.some.injEq] at h
    rw [← h, toRat_zero]
    exact ⟨fun _ ↦ le_rfl, fun _ ↦ le_rfl⟩

theorem div?_rounds (h : a.div? b = some c) : Rounds (a.toRat / b.toRat) c where
  magnitude := let ⟨t, m, hm, _⟩ := div?_roundsAt h; ⟨t, m, hm⟩
  nonneg := (div?_sign h).1
  nonpos := (div?_sign h).2

/-- A number that is not negative is at most its quotient by a share. -/
theorem le_div?_share (ha : 0 ≤ a.toRat) (hb : 0 < b.toRat) (hb₁ : b.toRat ≤ 1)
    (h : a.div? b = some c) : a.toRat ≤ c.toRat :=
  (div?_rounds h).ge_of_ge ((le_div_iff₀ hb).2 (mul_le_of_le_one_right ha hb₁))

theorem div?_roundsEven (h : a.div? b = some c) (hup : a.roundsTieUp b = false) :
    RoundsEven (a.toRat / b.toRat) c where
  magnitude := let ⟨t, m, hm, he⟩ := div?_roundsAt h; ⟨t, m, hm, he.2 hup⟩
  nonneg := (div?_sign h).1
  nonpos := (div?_sign h).2

/-- Where there is a divisor, only a ratio past the last decimal has no quotient. -/
theorem div?_eq_none (hb : b.isZero = false) (h : a.div? b = none) :
    TooLarge (a.toRat / b.toRat) := by
  cases ha : a.isZero
  · rw [div?_eq ha hb] at h
    cases hp : quotientDigits? a b with
    | none => exact quotientDigits?_eq_none hb hp
    | some p =>
      obtain ⟨hm, hs, -⟩ := quotientDigits?_eq_some hb hp
      rw [hp, Option.bind_some, ofParts?_eq_some hm hs] at h
      cases h
  · rw [div?, hb, if_neg Bool.false_ne_true, ha, if_pos rfl] at h
    cases h

theorem exists_div?_of_fits (hb : b.toRat ≠ 0) (h : Fits (a.toRat / b.toRat)) :
    ∃ c, a.div? b = some c ∧ c.toRat = a.toRat / b.toRat :=
  h.exists_eq (div?_eq_none (isZero_eq_false_iff.2 hb)) fun _ hc ↦ div?_rounds hc

/-- A ratio of numbers that are not negative fits a decimal where a larger one does. -/
theorem exists_div?_of_le {a' b' c' : Decimal} (ha : 0 ≤ a.toRat) (hb : 0 < b.toRat)
    (hle : a.toRat / b.toRat ≤ a'.toRat / b'.toRat) (h : a'.div? b' = some c') :
    ∃ c, a.div? b = some c := by
  rw [← Option.ne_none_iff_exists']
  intro hnone
  have hratio := div_nonneg ha hb.le
  refine (div?_rounds h).not_tooLarge ((div?_eq_none (isZero_eq_false_iff.2 hb.ne') hnone).mono ?_)
  rwa [abs_of_nonneg hratio, abs_of_nonneg (hratio.trans hle)]

theorem exists_div?_of_roundsTieUp (hup : a.roundsTieUp b = true) : ∃ c, a.div? b = some c := by
  obtain ⟨ha, hb⟩ := isZero_eq_false_of_roundsTieUp hup
  obtain ⟨p, hp⟩ : ∃ p, quotientDigits? a b = some p := by
    unfold roundsTieUp at hup
    unfold quotientDigits?
    dsimp only
    cases he : expand a.mantissa b.mantissa (a.scale - b.scale) 0 <;> rw [he] at hup
    case crowded k => exact ⟨_, rfl⟩
    all_goals cases hup
  obtain ⟨hm, hs, -⟩ := quotientDigits?_eq_some hb hp
  exact ⟨_, by rw [div?_eq ha hb, hp, Option.bind_some, ofParts?_eq_some hm hs]⟩

/-- Two quotients of one ratio are out of order only if the first breaks its tie upward and the
second does not. -/
theorem div?_le_iff {a' b' c' : Decimal} (h : a.div? b = some c) (h' : a'.div? b' = some c')
    (heq : a.toRat / b.toRat = a'.toRat / b'.toRat) (hpos : 0 ≤ a.toRat / b.toRat) :
    c.toRat ≤ c'.toRat ↔ (a.roundsTieUp b = true → a'.roundsTieUp b' = true) := by
  obtain ⟨t, m, hm, he⟩ := div?_roundsAt h
  obtain ⟨t', m', hm', he'⟩ := div?_roundsAt h'
  rw [abs_of_nonneg ((div?_sign h).1 hpos)] at hm
  rw [abs_of_nonneg ((div?_sign h').1 (heq ▸ hpos))] at hm'
  rw [← heq] at hm' he'
  rw [hm.le_iff hm', he, he', ← not_imp_not, Bool.not_eq_false, Bool.not_eq_false]

/-- Where two quotients of one ratio break its tie apart, the upper one has an odd number of units of its
last place, and the other one has one of these units less. -/
theorem div?_of_ties {a' b' c' : Decimal} (h : a.div? b = some c) (h' : a'.div? b' = some c')
    (heq : a.toRat / b.toRat = a'.toRat / b'.toRat) (hpos : 0 ≤ a.toRat / b.toRat)
    (hup : a.roundsTieUp b = true) (hdown : a'.roundsTieUp b' = false) :
    ∃ m : ℕ, Even m ∧ c.toRat = (m + 1 : ℕ) / 10 ^ c.scale ∧ c'.toRat = m / 10 ^ c.scale := by
  obtain ⟨t, n, hn, he⟩ := div?_roundsAt h
  obtain ⟨t', m, hm, he'⟩ := div?_roundsAt h'
  have hc := (div?_sign h).1 hpos
  rw [abs_of_nonneg hc] at hn
  rw [abs_of_nonneg ((div?_sign h').1 (heq ▸ hpos))] at hm
  rw [← heq] at hm he'
  obtain ⟨heven, rfl, hlt, hle, hvalue, hvalue'⟩ :=
    hn.units_of_ties (fun h ↦ by rw [he.1 h] at hup; cases hup) hm (he'.2 hdown)
  have hdigits : (c.mantissa : ℚ) / 10 ^ c.scale = (m + 1 : ℕ) / 10 ^ t := by
    rw [← toRat_of_nonneg hc, hvalue]
  -- the place of the ratio is the last one of the quotient, whose digit there is odd
  have hplace : t = c.scale := by
    refine le_antisymm ?_ ?_
    · by_contra hshort
      rw [not_le] at hshort
      have hmantissa : c.mantissa * 10 ^ (t - c.scale) = m + 1 := by
        have hunits := div_pow_mul_pow c.mantissa hshort.le
        rw [hdigits, div_mul_cancel₀ _ (by positivity)] at hunits
        exact_mod_cast hunits.symm
      have hpow : Even (10 ^ (t - c.scale)) := by
        rw [Nat.even_pow' (by omega)]
        decide
      exact Nat.even_add_one.1 (hmantissa ▸ hpow.mul_left _) heven
    · have hlast : IsPlace (c.mantissa / 10 ^ c.scale) t := by
        rw [hdigits, ← hvalue]
        refine ⟨hc, hn.place.le, ?_, hn.place.last.imp_right fun h ↦ h.trans (by gcongr)⟩
        rw [hvalue, div_mul_cancel₀ _ (by positivity)]
        exact_mod_cast hlt
      exact hlast.le_of_fits c.mantissa_lt c.scale_le
  rw [hplace] at hvalue hvalue'
  exact ⟨m, heven, hvalue, hvalue'⟩

end Ratio

end MarginAccount.Decimal
