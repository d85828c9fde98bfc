import MarginAccount.Proofs.Json.Codec
import MarginAccount.Proofs.Trade.Overflow

/-! # Amounts and zero

The constructors of an amount and the operations on amounts keep it from going below zero. Reading does
not: a number is read as an amount whatever its sign. So no amount is below zero exactly where no
negative number is read (`obtained_nonneg_iff`).
-/

namespace MarginAccount.TokenAmount

open Json

variable {Readable : Document → Prop} {a b c : TokenAmount}

/-- The amount comes about by constructors and operations, and by reading documents of a kind. -/
inductive Obtained (Readable : Document → Prop) : TokenAmount → Prop
  | ofDecimal {d : Decimal} {a : TokenAmount} (h : ofDecimal? d = some a) : Obtained Readable a
  | clamped (d : Decimal) : Obtained Readable (clamped d)
  | zero : Obtained Readable zero
  | default : Obtained Readable default
  | add {a b c : TokenAmount} (ha : Obtained Readable a) (hb : Obtained Readable b)
      (h : a.add b = .ok c) : Obtained Readable c
  | saturatingSub {a b c : TokenAmount} (ha : Obtained Readable a) (hb : Obtained Readable b)
      (h : a.saturatingSub b = .ok c) : Obtained Readable c
  | min {a b : TokenAmount} (ha : Obtained Readable a) (hb : Obtained Readable b) :
      Obtained Readable (a.min b)
  | roundDown {a : TokenAmount} (ha : Obtained Readable a) (places : ℕ) :
      Obtained Readable (a.roundDown places)
  | read {d : Document} {a : TokenAmount} (hd : Readable d) (h : decode d = .ok a) :
      Obtained Readable a

theorem nonneg_of_ofDecimal? {d : Decimal} (h : ofDecimal? d = some a) : 0 ≤ a.value.toRat := by
  rw [ofDecimal?, Option.ite_none_left_eq_some, Bool.not_eq_true,
    Decimal.isNegative_eq_false_iff] at h
  obtain ⟨hd, ha⟩ := h
  rwa [← Option.some.inj ha]

theorem nonneg_of_add (ha : 0 ≤ a.value.toRat) (hb : 0 ≤ b.value.toRat) (h : a.add b = .ok c) :
    0 ≤ c.value.toRat := by
  obtain ⟨sum, hsum, rfl⟩ := add_eq_ok.1 h
  exact (Decimal.add?_roundsEven hsum).nonneg (add_nonneg ha hb)

/-- A difference is not below zero, whatever it is taken of. -/
theorem nonneg_of_saturatingSub (h : a.saturatingSub b = .ok c) : 0 ≤ c.value.toRat := by
  obtain ⟨rest, -, rfl⟩ := saturatingSub_eq_ok.1 h
  exact clamped_nonneg rest

/-- An amount is read wherever its number is. -/
theorem decode_eq_ok {d : Document} : decode d = .ok a ↔ decode d = .ok a.value := by
  change (decode d >>= fun x : Decimal ↦ pure (⟨x⟩ : TokenAmount)) = .ok a ↔ _
  rw [bind_eq_ok]
  constructor
  · rintro ⟨x, hx, h⟩
    rwa [← pure_eq_ok.1 h]
  · exact fun h ↦ ⟨a.value, h, rfl⟩

theorem Obtained.nonneg (hread : ∀ d x, Readable d → decode d = .ok x → 0 ≤ Decimal.toRat x)
    (h : Obtained Readable a) : 0 ≤ a.value.toRat := by
  induction h with
  | ofDecimal h => exact nonneg_of_ofDecimal? h
  | clamped d => exact clamped_nonneg d
  | zero => exact toRat_zero.ge
  | default => exact toRat_zero.ge
  | add _ _ h iha ihb => exact nonneg_of_add iha ihb h
  | saturatingSub _ _ h => exact nonneg_of_saturatingSub h
  | min _ _ iha ihb => exact min_nonneg iha ihb
  | roundDown _ places ih => exact roundDown_nonneg ih places
  | read hd h => exact hread _ _ hd (decode_eq_ok.1 h)

/-- Whatever is done with amounts, none is below zero exactly where no negative number is read. -/
theorem obtained_nonneg_iff (Readable : Document → Prop) :
    (∀ a, Obtained Readable a → .zero ≤ a.value) ↔
      ∀ d x, Readable d → decode d = .ok x → Decimal.zero ≤ x := by
  constructor
  · exact fun h d x hd hx ↦ h ⟨x⟩ (.read hd (decode_eq_ok.2 hx))
  · intro h a ha
    simp only [Decimal.le_iff_toRat, Decimal.toRat_zero] at h ⊢
    exact ha.nonneg h

/-- A negative number is read as an amount, though no constructor makes one of it. -/
theorem negative_amount_is_read :
    readText "\"-1\"" = .ok (⟨.neg .one⟩ : TokenAmount) ∧ ofDecimal? (.neg .one) = none ∧
      ¬∀ a, Obtained (fun _ ↦ True) a → .zero ≤ a.value := by
  have hread : readText "\"-1\"" = .ok (⟨.neg .one⟩ : TokenAmount) := by decide +kernel
  obtain ⟨d, hd⟩ := exists_decode_of_readText hread
  refine ⟨hread, by decide +kernel, fun h ↦ ?_⟩
  exact absurd (h _ (.read trivial hd)) (by decide +kernel)

end MarginAccount.TokenAmount
