import Mathlib
import MarginAccount.Decimal.Reader

/-! # Decimals as text

What a decimal is written as reads back, with all places of its scale. Only a zero does not keep its
sign.
-/

namespace MarginAccount

/-! ## Digits -/

section Digits

variable {c : Char} {cs cs' : List Char} {n k : ℕ}

/-- All characters are decimal digits. -/
def AreDigits (cs : List Char) : Prop := ∀ c ∈ cs, c.isDigit = true

theorem digit?_of_isDigit (h : c.isDigit = true) : digit? c = some (c.toNat - '0'.toNat) := by
  rw [digit?, if_pos]
  simpa [Char.isDigit, Char.le_def] using h

theorem ne_of_isDigit {c' : Char} (h : c.isDigit = true) (h' : c'.isDigit = false) : c ≠ c' := by
  rintro rfl
  rw [h] at h'
  cases h'

theorem areDigits_toDigits (n : ℕ) : AreDigits (Nat.toDigits 10 n) := fun _ hc ↦
  Nat.isDigit_of_mem_toDigits (by decide) (by decide) hc

theorem areDigits_replicate (k : ℕ) : AreDigits (List.replicate k '0') := by
  intro c hc
  rw [List.eq_of_mem_replicate hc]
  rfl

theorem AreDigits.append (h : AreDigits cs) (h' : AreDigits cs') : AreDigits (cs ++ cs') := by
  intro c hc
  exact (List.mem_append.1 hc).elim (h c) (h' c)

/-- Digits that follow do not make a number smaller. -/
theorem le_ofDigitChars (cs : List Char) (n : ℕ) : n ≤ Nat.ofDigitChars 10 cs n := by
  induction cs generalizing n with
  | nil => exact le_rfl
  | cons c cs ih =>
    rw [Nat.ofDigitChars_cons]
    exact le_trans (by omega) (ih _)

end Digits

namespace Decimal

variable {c : Char} {cs rest : List Char} {n scale : ℕ} {started : Bool} {d : Decimal}

/-- The decimal with the same digits, unsigned if it is zero. -/
def plain (d : Decimal) : Decimal := { d with negative := d.negative && d.mantissa != 0 }

/-- No decimal is told from its plain form by its value. -/
@[simp] theorem units_plain (d : Decimal) : d.plain.units = d.units := by
  have hsize : d.plain.size = d.size := rfl
  rw [units, units, hsize]
  by_cases hm : d.mantissa = 0
  · have hzero : d.size = 0 := by rw [size, hm, Nat.zero_mul]
    simp [hzero]
  · simp [plain, hm]

@[simp] theorem toRat_plain (d : Decimal) : d.plain.toRat = d.toRat := by
  rw [toRat, units_plain, toRat]

theorem plain_of_ne_zero (hd : d.isZero = false) : d.plain = d := by
  have hmantissa : (d.mantissa != 0) = true := bne_iff_ne.2 (beq_eq_false_iff_ne.1 hd)
  simp only [plain, hmantissa, Bool.and_true]

/-! ## Scanning -/

/-- Digits before the point make up the whole number. -/
theorem scan_whole (hcs : AreDigits cs) (hlt : Nat.ofDigitChars 10 cs n < 2 ^ 96) :
    scan n 0 false started (cs ++ rest) =
      scan (Nat.ofDigitChars 10 cs n) 0 false (started || !cs.isEmpty) rest := by
  induction cs generalizing n started with
  | nil => rw [List.nil_append, List.isEmpty_nil, Bool.not_true, Bool.or_false]; rfl
  | cons c cs ih =>
    rw [AreDigits, List.forall_mem_cons] at hcs
    rw [Nat.ofDigitChars_cons] at hlt ⊢
    have hfits : ¬2 ^ 96 ≤ 10 * n + (c.toNat - '0'.toNat) :=
      not_le.2 ((le_ofDigitChars cs _).trans_lt hlt)
    rw [List.cons_append, scan, if_neg (ne_of_isDigit hcs.1 rfl), if_neg (ne_of_isDigit hcs.1 rfl),
      digit?_of_isDigit hcs.1]
    simp only [Option.bind_eq_bind, Option.bind_some, if_neg hfits, Bool.false_eq_true, false_and,
      if_false]
    rw [ih hcs.2 hlt]
    simp

/-- Digits after the point make up the places. -/
theorem scan_places (hcs : AreDigits cs) (hlt : Nat.ofDigitChars 10 cs n < 2 ^ 96)
    (hscale : scale + cs.length ≤ 28) :
    scan n scale true true cs = some (Nat.ofDigitChars 10 cs n, scale + cs.length) := by
  induction cs generalizing n scale with
  | nil => rfl
  | cons c cs ih =>
    rw [AreDigits, List.forall_mem_cons] at hcs
    rw [Nat.ofDigitChars_cons] at hlt ⊢
    rw [List.length_cons] at hscale ⊢
    have hfits : ¬2 ^ 96 ≤ 10 * n + (c.toNat - '0'.toNat) :=
      not_le.2 ((le_ofDigitChars cs _).trans_lt hlt)
    rw [scan, if_neg (ne_of_isDigit hcs.1 rfl), if_neg (ne_of_isDigit hcs.1 rfl),
      digit?_of_isDigit hcs.1]
    simp only [Option.bind_eq_bind, Option.bind_some, if_neg hfits, if_true, true_and]
    by_cases hlast : 28 ≤ scale + 1
    · -- the 28th place is the last one, so no digit is left to round by
      obtain rfl : cs = [] := List.eq_nil_of_length_eq_zero (by omega)
      rw [if_pos hlast]
      simp [roundingDigit?, roundUp?, Nat.ofDigitChars_nil]
    · rw [if_neg hlast, ih hcs.2 hlt (by omega)]
      congr 2
      omega

/-! ## Written decimals -/

theorem areDigits_digits (d : Decimal) : AreDigits d.digits :=
  (areDigits_replicate _).append (areDigits_toDigits _)

theorem ofDigitChars_digits (d : Decimal) : Nat.ofDigitChars 10 d.digits 0 = d.mantissa := by
  rw [digits, Nat.ofDigitChars_append, Nat.ofDigitChars_replicate_zero, Nat.mul_zero,
    Nat.ofDigitChars_ten_toDigits]

/-- There is a digit before the point. -/
theorem scale_lt_length_digits (d : Decimal) : d.scale < d.digits.length := by
  rw [digits, List.length_append, List.length_replicate]
  omega

/-- The digits before the point. -/
def wholeDigits (d : Decimal) : List Char := d.digits.take (d.digits.length - d.scale)

/-- The digits after the point. -/
def placeDigits (d : Decimal) : List Char := d.digits.drop (d.digits.length - d.scale)

theorem wholeDigits_append_placeDigits (d : Decimal) : d.wholeDigits ++ d.placeDigits = d.digits :=
  List.take_append_drop ..

theorem length_placeDigits (d : Decimal) : d.placeDigits.length = d.scale := by
  have hlt := d.scale_lt_length_digits
  rw [placeDigits, List.length_drop]
  omega

theorem exists_wholeDigits (d : Decimal) : ∃ c cs, d.wholeDigits = c :: cs := by
  have hlt := d.scale_lt_length_digits
  refine List.exists_cons_of_length_pos ?_
  rw [wholeDigits, List.length_take]
  omega

theorem areDigits_wholeDigits (d : Decimal) : AreDigits d.wholeDigits := fun c hc ↦
  d.areDigits_digits c (List.mem_of_mem_take hc)

theorem areDigits_placeDigits (d : Decimal) : AreDigits d.placeDigits := fun c hc ↦
  d.areDigits_digits c (List.mem_of_mem_drop hc)

theorem ofDigitChars_placeDigits (d : Decimal) :
    Nat.ofDigitChars 10 d.placeDigits (Nat.ofDigitChars 10 d.wholeDigits 0) = d.mantissa := by
  rw [← Nat.ofDigitChars_append, wholeDigits_append_placeDigits, ofDigitChars_digits]

theorem scan_digits (d : Decimal) :
    scan 0 0 false false (d.wholeDigits ++ if d.scale = 0 then [] else '.' :: d.placeDigits) =
      some (d.mantissa, d.scale) := by
  obtain ⟨c, cs, hwhole⟩ := d.exists_wholeDigits
  have hplaces := d.ofDigitChars_placeDigits
  have hlt : Nat.ofDigitChars 10 d.wholeDigits 0 < 2 ^ 96 :=
    (le_ofDigitChars d.placeDigits _).trans_lt (hplaces.trans_lt d.mantissa_lt)
  have hstarted : (false || !d.wholeDigits.isEmpty) = true := by rw [hwhole]; rfl
  rw [scan_whole d.areDigits_wholeDigits hlt, hstarted]
  by_cases hscale : d.scale = 0
  · have hnil : d.placeDigits = [] :=
      List.eq_nil_of_length_eq_zero (d.length_placeDigits.trans hscale)
    rw [hnil, Nat.ofDigitChars_nil] at hplaces
    rw [if_pos hscale, hplaces, hscale]
    rfl
  · rw [if_neg hscale, scan, if_pos rfl, if_neg Bool.false_ne_true,
      scan_places d.areDigits_placeDigits (hplaces.trans_lt d.mantissa_lt)
        (by rw [length_placeDigits, Nat.zero_add]; exact d.scale_le), hplaces, length_placeDigits,
      Nat.zero_add]

theorem readPlaces?_minus (text : List Char) : readPlaces? ('-' :: text) =
    (scan 0 0 false false text).bind fun x ↦ ofParts? (x.1 != 0) x.1 x.2 := by
  simp [readPlaces?, Option.bind_eq_bind]

theorem readPlaces?_of_isDigit (hc : c.isDigit = true) (text : List Char) :
    readPlaces? (c :: text) =
      (scan 0 0 false false (c :: text)).bind fun x ↦ ofParts? false x.1 x.2 := by
  rw [readPlaces?]
  · simp only [Option.bind_eq_bind, Bool.false_and]
  · exact fun _ h ↦ absurd (List.cons.inj h).1 (ne_of_isDigit hc rfl)
  · exact fun _ h ↦ absurd (List.cons.inj h).1 (ne_of_isDigit hc rfl)

/-- A written decimal is read with the scale it has. -/
theorem readPlaces?_toChars (d : Decimal) : readPlaces? d.toChars = some d.plain := by
  have hparts : ofParts? (d.negative && d.mantissa != 0) d.mantissa d.scale = some d.plain :=
    ofParts?_eq_some d.mantissa_lt d.scale_le
  have htext : d.toChars = (if d.negative then ['-'] else []) ++
      (d.wholeDigits ++ if d.scale = 0 then [] else '.' :: d.placeDigits) := by
    rw [← List.append_assoc]
    rfl
  have hscan := d.scan_digits
  rw [htext]
  cases hnegative : d.negative with
  | true =>
    rw [hnegative, Bool.true_and] at hparts
    rw [if_pos rfl, List.singleton_append, readPlaces?_minus, hscan, Option.bind_some, hparts]
  | false =>
    obtain ⟨c, cs, hwhole⟩ := d.exists_wholeDigits
    have hc : c.isDigit = true := d.areDigits_wholeDigits c (hwhole ▸ List.mem_cons_self)
    rw [hnegative, Bool.false_and] at hparts
    rw [hwhole, List.cons_append] at hscan ⊢
    rw [if_neg Bool.false_ne_true, List.nil_append, readPlaces?_of_isDigit hc, hscan,
      Option.bind_some, hparts]

/-- A written decimal reads back, but for the sign of a zero. -/
theorem read?_toChars (d : Decimal) : read? d.toChars = some d.plain := by
  rw [read?, readPlaces?_toChars, Option.some_or]

end Decimal

end MarginAccount
