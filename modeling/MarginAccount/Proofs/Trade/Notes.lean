import MarginAccount.Proofs.Decimal.Conversion
import MarginAccount.Proofs.Engine.Report
import MarginAccount.Proofs.Trade.Overflow

/-! # What notes are worth

More notes of one exponent are worth as much or more, and a balance converts where a larger one does.
There is one exception to the first: products of one value and different scales, of which only that of
the fewer notes has its quotient break a tie upward (`ExchangeRate.TiesApart`). It takes an exponent
below -28, a total of notes of more than 64 bits, and a pool that keeps the place of the tie.
-/

namespace MarginAccount

/-! ## Cut quotients -/

namespace Decimal

variable {a a' b c c' : Decimal} {m : ℕ}

/-- Of two neighbours the lower one is even. They are told apart only at the place of both. -/
theorem toRat_truncateTo_le_iff_of_even (hm : Even m) (hc : c.toRat = (m + 1 : ℕ) / 10 ^ c.scale)
    (hc' : c'.toRat = m / 10 ^ c.scale) (n : ℕ) :
    (c.truncateTo n).toRat ≤ (c'.truncateTo n).toRat ↔ n < c.scale := by
  rw [toRat_truncateTo_of_nonneg (hc ▸ by positivity), toRat_truncateTo_of_nonneg (hc' ▸ by positivity),
    div_le_div_iff_of_pos_right (by positivity), Nat.cast_le, hc, hc']
  by_cases hn : n < c.scale
  · refine iff_of_true ?_ hn
    obtain ⟨k, hk⟩ := Nat.exists_eq_add_of_lt hn
    have hcut (j : ℕ) : ⌊(j / 10 ^ c.scale : ℚ) * 10 ^ n⌋₊ = j / 10 ^ (k + 1) := by
      have hpow : (j / 10 ^ c.scale : ℚ) * 10 ^ n = j / (10 ^ (k + 1) : ℕ) := by
        rw [hk, add_assoc, pow_add]
        push_cast
        field_simp
      rw [hpow, Nat.floor_div_eq_div]
    have hodd : ¬10 ^ (k + 1) ∣ m + 1 := fun hdvd ↦ by
      have htwo : 2 ∣ m + 1 := (dvd_pow (by norm_num : 2 ∣ 10) k.succ_ne_zero).trans hdvd
      exact Nat.even_add_one.1 (even_iff_two_dvd.2 htwo) hm
    rw [hcut, hcut, Nat.succ_div_of_not_dvd hodd]
  · refine iff_of_false ?_ hn
    rw [div_pow_mul_pow _ (not_lt.1 hn), div_pow_mul_pow _ (not_lt.1 hn), Nat.floor_natCast,
      Nat.floor_natCast, not_le]
    gcongr
    omega

/-- Cut quotients by one divisor are in order unless a tie is broken apart at a place that is kept. -/
theorem toRat_truncateTo_div?_le_iff (ha : 0 ≤ a.toRat) (hle : a.toRat ≤ a'.toRat)
    (hb : 0 < b.toRat) (h : a.div? b = some c) (h' : a'.div? b = some c') (n : ℕ) :
    (c.truncateTo n).toRat ≤ (c'.truncateTo n).toRat ↔
      ¬(a.toRat = a'.toRat ∧ a.roundsTieUp b = true ∧ a'.roundsTieUp b = false ∧ c.scale ≤ n) := by
  have hc : 0 ≤ c.toRat := (div?_rounds h).nonneg (div_nonneg ha hb.le)
  rcases hle.eq_or_lt with heq | hlt
  · have hratio : a.toRat / b.toRat = a'.toRat / b.toRat := by rw [heq]
    by_cases hties : a.roundsTieUp b = true ∧ a'.roundsTieUp b = false
    · obtain ⟨m, hm, hvalue, hvalue'⟩ := div?_of_ties h h' hratio (div_nonneg ha hb.le) hties.1 hties.2
      rw [toRat_truncateTo_le_iff_of_even hm hvalue hvalue', ← not_le]
      exact not_congr ⟨fun hn ↦ ⟨heq, hties.1, hties.2, hn⟩, fun hn ↦ hn.2.2.2⟩
    · refine iff_of_true (toRat_truncateTo_mono hc ?_ n) fun hn ↦ hties ⟨hn.2.1, hn.2.2.1⟩
      rw [div?_le_iff h h' hratio (div_nonneg ha hb.le)]
      intro hup
      by_contra hnot
      exact hties ⟨hup, Bool.eq_false_iff.2 hnot⟩
  · refine iff_of_true (toRat_truncateTo_mono hc ?_ n) fun hn ↦ hlt.ne hn.1
    exact (div?_rounds h).mono (div?_rounds h') (div_lt_div_of_pos_right hlt hb)

end Decimal

/-! ## Rates -/

namespace ExchangeRate

variable {rate : ExchangeRate} {notes notes' tokens tokens' : Decimal} {decimals : ℕ}

structure IsNonneg (rate : ExchangeRate) : Prop where
  underlying : 0 ≤ rate.totalUnderlying.toRat
  notes : 0 ≤ rate.totalNotes.toRat

theorem isNonneg_one : one.IsNonneg := ⟨by decide +kernel, by decide +kernel⟩

theorem IsNonneg.notes_pos (h : rate.IsNonneg) (hzero : rate.totalNotes.isZero = false) :
    0 < rate.totalNotes.toRat :=
  h.notes.lt_of_ne (Decimal.isZero_eq_false_iff.1 hzero).symm

/-- Two numbers of notes have one product with the underlying total. The quotient of the first product
breaks a tie upward, at a place that is kept, and the quotient of the second one does not. -/
def TiesApart (rate : ExchangeRate) (decimals : ℕ) (notes notes' : Decimal) : Prop :=
  ∃ product product' tokens, notes.mul? rate.totalUnderlying = some product ∧
    notes'.mul? rate.totalUnderlying = some product' ∧ product.toRat = product'.toRat ∧
    product.roundsTieUp rate.totalNotes = true ∧ product'.roundsTieUp rate.totalNotes = false ∧
    product.div? rate.totalNotes = some tokens ∧ tokens.scale ≤ decimals

theorem toUnderlying?_nonneg (hrate : rate.IsNonneg) (hnotes : 0 ≤ notes.toRat)
    (h : rate.toUnderlying? notes = some tokens) : 0 ≤ tokens.toRat := by
  rcases toUnderlying?_eq_some.1 h with ⟨-, rfl⟩ | ⟨-, product, hmul, hdiv⟩
  · exact hnotes
  · have hproduct := (Decimal.mul?_roundsEven hmul).nonneg (mul_nonneg hnotes hrate.underlying)
    exact (Decimal.div?_rounds hdiv).nonneg (div_nonneg hproduct hrate.notes)

/-- Fewer notes convert where more do. -/
theorem exists_toUnderlying?_of_le (hrate : rate.IsNonneg) (hnotes : 0 ≤ notes.toRat)
    (hle : notes.toRat ≤ notes'.toRat) (h' : rate.toUnderlying? notes' = some tokens') :
    ∃ tokens, rate.toUnderlying? notes = some tokens := by
  simp only [toUnderlying?_eq_some] at h' ⊢
  rcases h' with ⟨hzero, -⟩ | ⟨hzero, product', hmul', hdiv'⟩
  · exact ⟨notes, .inl ⟨hzero, rfl⟩⟩
  · have hproducts : notes.toRat * rate.totalUnderlying.toRat ≤
        notes'.toRat * rate.totalUnderlying.toRat := mul_le_mul_of_nonneg_right hle hrate.underlying
    obtain ⟨product, hmul⟩ := Decimal.exists_mul?_of_le hnotes hrate.underlying hproducts hmul'
    have hround := Decimal.mul?_roundsEven hmul
    have hpos := hrate.notes_pos hzero
    obtain ⟨tokens, hdiv⟩ := Decimal.exists_div?_of_le
      (hround.nonneg (mul_nonneg hnotes hrate.underlying)) hpos
      (div_le_div_of_nonneg_right (hround.mono (Decimal.mul?_roundsEven hmul') hproducts) hpos.le) hdiv'
    exact ⟨tokens, .inr ⟨hzero, product, hmul, hdiv⟩⟩

/-- More notes are worth as much or more, ties apart. -/
theorem toRat_truncateTo_le_iff (hrate : rate.IsNonneg) (hnotes : 0 ≤ notes.toRat)
    (hle : notes.toRat ≤ notes'.toRat) (h : rate.toUnderlying? notes = some tokens)
    (h' : rate.toUnderlying? notes' = some tokens') :
    (tokens.truncateTo decimals).toRat ≤ (tokens'.truncateTo decimals).toRat ↔
      ¬rate.TiesApart decimals notes notes' := by
  rcases toUnderlying?_eq_some.1 h with ⟨hzero, rfl⟩ | ⟨hzero, product, hmul, hdiv⟩
  · rcases toUnderlying?_eq_some.1 h' with ⟨-, rfl⟩ | ⟨hnot, -⟩
    · refine iff_of_true (Decimal.toRat_truncateTo_mono hnotes hle _) ?_
      rintro ⟨product, -, -, -, -, -, hup, -⟩
      rw [(Decimal.isZero_eq_false_of_roundsTieUp hup).2] at hzero
      cases hzero
    · rw [hzero] at hnot
      cases hnot
  · rcases toUnderlying?_eq_some.1 h' with ⟨hnot, -⟩ | ⟨-, product', hmul', hdiv'⟩
    · rw [hzero] at hnot
      cases hnot
    · have hround := Decimal.mul?_roundsEven hmul
      rw [Decimal.toRat_truncateTo_div?_le_iff
        (hround.nonneg (mul_nonneg hnotes hrate.underlying))
        (hround.mono (Decimal.mul?_roundsEven hmul')
          (mul_le_mul_of_nonneg_right hle hrate.underlying)) (hrate.notes_pos hzero) hdiv hdiv']
      refine not_congr ⟨fun ⟨hvalue, hup, hdown, hkept⟩ ↦
        ⟨product, product', tokens, hmul, hmul', hvalue, hup, hdown, hdiv, hkept⟩, ?_⟩
      rintro ⟨_, _, _, hmul₁, hmul₁', hvalue, hup, hdown, hdiv₁, hkept⟩
      obtain rfl := Option.some.inj (hmul.symm.trans hmul₁)
      obtain rfl := Option.some.inj (hmul'.symm.trans hmul₁')
      obtain rfl := Option.some.inj (hdiv.symm.trans hdiv₁)
      exact ⟨hvalue, hup, hdown, hkept⟩

/-- Only a total of notes of more than 64 bits breaks ties apart. -/
theorem TiesApart.isLong (h : rate.TiesApart decimals notes notes') :
    rate.totalNotes.isLong = true := by
  obtain ⟨_, _, _, -, -, -, hup, -⟩ := h
  exact Decimal.isLong_of_roundsTieUp hup

/-- At rate one every number of notes converts, to itself. -/
theorem exists_toUnderlying?_one (notes : Decimal) :
    ∃ tokens, one.toUnderlying? notes = some tokens ∧ tokens.toRat = notes.toRat := by
  obtain ⟨product, hmul, hproduct⟩ := Decimal.exists_mul?_of_fits (a := notes) (b := .one)
    ⟨notes, by rw [Decimal.toRat_one, mul_one]⟩
  rw [Decimal.toRat_one, mul_one] at hproduct
  obtain ⟨tokens, hdiv, htokens⟩ := Decimal.exists_div?_of_fits (a := product) (b := .one)
    (by rw [Decimal.toRat_one]; exact one_ne_zero) ⟨product, by rw [Decimal.toRat_one, div_one]⟩
  rw [Decimal.toRat_one, div_one, hproduct] at htokens
  exact ⟨tokens, toUnderlying?_eq_some.2 (.inr ⟨rfl, product, hmul, hdiv⟩), htokens⟩

end ExchangeRate

/-! ## Balances -/

variable {rate : ExchangeRate} {p p' : Position} {decimals : ℕ} {a a' : TokenAmount}
  {notes notes' : Decimal}

namespace Position

/-- At a rate that is not negative nothing is clamped: the balance is converted and cut. -/
theorem underlying_eq_ok_of_nonneg (hrate : rate.IsNonneg) : p.underlying rate decimals = .ok a ↔
    ∃ notes tokens, p.quantity? = some notes ∧ rate.toUnderlying? notes = some tokens ∧
      a = ⟨tokens.truncateTo decimals⟩ := by
  rw [underlying_eq_ok]
  refine exists_congr fun notes ↦ exists_congr fun tokens ↦
    and_congr_right fun hnotes ↦ and_congr_right fun htokens ↦ ?_
  rw [TokenAmount.clamped_of_nonneg (rate.toUnderlying?_nonneg hrate (quantity?_nonneg hnotes) htokens),
    TokenAmount.roundDown]

/-- Up to 28 places the notes of two balances break no ties apart. -/
theorem not_tiesApart_of_places (hexponent : p.exponent = p'.exponent)
    (hplaces : -28 ≤ p.exponent.toInt) (hnotes : p.quantity? = some notes)
    (hnotes' : p'.quantity? = some notes') : ¬rate.TiesApart decimals notes notes' := by
  rintro ⟨product, product', _, hmul, hmul', hvalue, hup, hdown, -⟩
  have hne := Decimal.isZero_eq_false_iff.1 (Decimal.isZero_eq_false_of_roundsTieUp hup).1
  have hfull {q : Position} {n x : Decimal} (he : q.exponent = p.exponent)
      (hn : q.quantity? = some n) (hx : n.mul? rate.totalUnderlying = some x) (hx₀ : x.toRat ≠ 0) :
      x.IsFull ((-p.exponent.toInt).toNat + rate.totalUnderlying.scale) := by
    have hn₀ : n.toRat ≠ 0 := fun hzero ↦ by
      have hround := Decimal.mul?_roundsEven hx
      rw [hzero, zero_mul] at hround
      exact hx₀ hround.rounds.eq_zero
    rw [← he, ← Decimal.scale_of_ofFixedPoint? (he ▸ hplaces) hn hn₀]
    exact Decimal.mul?_isFull hx hx₀
  have heq := (hfull rfl hnotes hmul hne).eq_of_toRat
    (hfull hexponent.symm hnotes' hmul' (hvalue ▸ hne)) hvalue hne
  rw [heq, hdown] at hup
  cases hup

/-- More notes convert to as much or more, ties apart, and fewer notes convert where more do. -/
theorem exists_underlying_of_le (hrate : rate.IsNonneg) (hexponent : p.exponent = p'.exponent)
    (hle : p.balance.units ≤ p'.balance.units) (h' : p'.underlying rate decimals = .ok a') :
    ∃ a notes notes', p.underlying rate decimals = .ok a ∧ p.quantity? = some notes ∧
      p'.quantity? = some notes' ∧
      (a.value.toRat ≤ a'.value.toRat ↔ ¬rate.TiesApart decimals notes notes') := by
  obtain ⟨notes', tokens', hnotes', htokens', rfl⟩ := (underlying_eq_ok_of_nonneg hrate).1 h'
  rw [quantity?, ← hexponent] at hnotes'
  obtain ⟨notes, hnotes⟩ := Decimal.exists_ofFixedPoint?_of_le hle hnotes'
  have hnonneg : 0 ≤ notes.toRat := quantity?_nonneg hnotes
  have hmono := Decimal.ofFixedPoint?_mono hle hnotes hnotes'
  obtain ⟨tokens, htokens⟩ := rate.exists_toUnderlying?_of_le hrate hnonneg hmono htokens'
  refine ⟨_, notes, notes', (underlying_eq_ok_of_nonneg hrate).2 ⟨notes, tokens, hnotes, htokens, rfl⟩,
    hnotes, ?_, rate.toRat_truncateTo_le_iff hrate hnonneg hmono htokens htokens'⟩
  rw [quantity?, ← hexponent, hnotes']

end Position

/-- At rate one a balance is worth its quantity, cut to the places of the pool. -/
theorem noteBalance_one {x : ℚ} :
    (∃ a, noteBalance (some p) .one decimals = .ok a ∧ a.value.toRat = x) ↔
      ∃ notes, p.quantity? = some notes ∧ x = ⌊notes.toRat * 10 ^ decimals⌋₊ / 10 ^ decimals := by
  have hcut {notes tokens : Decimal} (hnotes : p.quantity? = some notes)
      (htokens : tokens.toRat = notes.toRat) : (tokens.truncateTo decimals).toRat =
        ⌊notes.toRat * 10 ^ decimals⌋₊ / 10 ^ decimals := by
    rw [Decimal.toRat_truncateTo_of_nonneg (htokens ▸ Position.quantity?_nonneg hnotes), htokens]
  simp only [noteBalance, Option.elim_some,
    Position.underlying_eq_ok_of_nonneg ExchangeRate.isNonneg_one]
  constructor
  · rintro ⟨_, ⟨notes, tokens, hnotes, htokens, rfl⟩, rfl⟩
    exact ⟨notes, hnotes, hcut hnotes (ExchangeRate.isPar_one.toUnderlying? htokens)⟩
  · rintro ⟨notes, hnotes, rfl⟩
    obtain ⟨tokens, htokens, hvalue⟩ := ExchangeRate.exists_toUnderlying?_one notes
    exact ⟨_, ⟨notes, tokens, hnotes, htokens, rfl⟩, hcut hnotes hvalue⟩

/-- Conversion at a rate that is not negative. Fewer notes of one exponent convert where more do, and
are worth no more exactly if they do not break a tie apart, as never at 28 places or fewer, or with a
total of at most 64 bits. What notes are worth is not negative and has the places of the pool at most;
at rate one it is their quantity, cut to these places. -/
theorem noteBalance_grows (hrate : rate.IsNonneg) (decimals : ℕ) :
    (∀ p p' a', p.exponent = p'.exponent → p.balance.units ≤ p'.balance.units →
      noteBalance (some p') rate decimals = .ok a' →
      ∃ a notes notes', noteBalance (some p) rate decimals = .ok a ∧ p.quantity? = some notes ∧
        p'.quantity? = some notes' ∧
        (a.value ≤ a'.value ↔ ¬rate.TiesApart decimals notes notes') ∧
        (-28 ≤ p.exponent.toInt ∨ rate.totalNotes.isLong = false → a.value ≤ a'.value)) ∧
    (∀ p? a, noteBalance p? rate decimals = .ok a → .zero ≤ a.value ∧ a.value.scale ≤ decimals) ∧
    (rate = .one → ∀ p x, (∃ a, noteBalance (some p) rate decimals = .ok a ∧ a.value.toRat = x) ↔
      ∃ notes, p.quantity? = some notes ∧ x = ⌊notes.toRat * 10 ^ decimals⌋₊ / 10 ^ decimals) := by
  refine ⟨fun p p' a' hexponent hle h' ↦ ?_, fun p? a h ↦ ⟨?_, scale_le_of_noteBalance h⟩, ?_⟩
  · obtain ⟨a, notes, notes', h, hnotes, hnotes', hiff⟩ :=
      Position.exists_underlying_of_le hrate hexponent hle h'
    rw [← Decimal.le_iff_toRat] at hiff
    refine ⟨a, notes, notes', h, hnotes, hnotes', hiff, fun hshallow ↦ hiff.2 fun htie ↦ ?_⟩
    rcases hshallow with hplaces | hshort
    · exact Position.not_tiesApart_of_places hexponent hplaces hnotes hnotes' htie
    · rw [htie.isLong] at hshort
      cases hshort
  · rw [Decimal.le_iff_toRat, Decimal.toRat_zero]
    exact noteBalance_nonneg h
  · rintro rfl p x
    exact noteBalance_one

namespace Sample

def noteDeposit (units : ℕ) (exponent : Int8) (h : units < 2 ^ 128 := by decide) : Position :=
  ⟨Sample.pool.depositNote, .ofTag 1, ⟨units, h⟩, exponent, .deposit, .one⟩

/-- A note is worth 62.5 tokens; the total is written with more digits than 64 bits hold. -/
def longRate : ExchangeRate := ⟨.lit 10, .lit (16 * 10 ^ 25) 27⟩

end Sample

open Sample in
/-- At three tokens for two notes one unit of notes is worth no more than a thousand are. -/
theorem noteBalance_grows_of_thousand :
    (⟨.lit 3, .lit 2⟩ : ExchangeRate).IsNonneg ∧
      ∃ a, noteBalance (some (noteDeposit 1 (-6))) ⟨.lit 3, .lit 2⟩ 6 = .ok a ∧
        a.value ≤ .lit 1500 6 := by
  have hrate : (⟨.lit 3, .lit 2⟩ : ExchangeRate).IsNonneg := ⟨by decide +kernel, by decide +kernel⟩
  obtain ⟨a, -, -, h, -, -, -, hle⟩ := (noteBalance_grows hrate 6).1 (noteDeposit 1 (-6))
    (noteDeposit 1000 (-6)) ⟨.lit 1500 6⟩ rfl (by decide) (by decide +kernel)
  exact ⟨hrate, a, h, hle (.inl (by decide))⟩

open Sample in
/-- At 28 places the two balances are the same number of notes. The greater one has been rounded to it
and has lost its last zero, so that only the quotient of the smaller one breaks the tie upward. -/
theorem fewer_notes_worth_more : longRate.IsNonneg ∧
    noteBalance (some (noteDeposit 12676506002282294014967032100 (-29))) longRate 28 =
      .ok ⟨.lit 7922816251426433759354395063 27⟩ ∧
    noteBalance (some (noteDeposit 12676506002282294014967032104 (-29))) longRate 28 =
      .ok ⟨.lit 7922816251426433759354395062 27⟩ :=
  ⟨⟨by decide +kernel, by decide +kernel⟩, by decide +kernel, by decide +kernel⟩

end MarginAccount
