import MarginAccount.Proofs.Account.Order

/-! # What a snapshot admits

A position offends if its weight is not allowed, or else if its address is taken by a position before
it. The check goes through the positions once and stops at the first one that offends, with its
error (`checkPositions_eq_error`); if none does it returns (`checkPositions_eq_ok`). A snapshot is made
of the registered slots, counted first (`Snapshot.ofSlots_admission`).
-/

namespace MarginAccount

variable {p : Position} {positions : List Position} {seen seen' : List Address} {e : PositionError}

/-! ## Positions that offend -/

namespace Position

/-- The weight is between zero and one, and that of a claim is not zero. -/
structure HasAllowedWeight (p : Position) : Prop where
  nonneg : 0 ≤ p.modifier.toRat
  le_one : p.modifier.toRat ≤ 1
  ne_zero : p.kind = .claim → p.modifier.toRat ≠ 0

/-- What is wrong with a position after others at the addresses `seen`, its weight first. -/
inductive Offends (p : Position) (seen : List Address) : PositionError → Prop
  | outside (h : p.modifier.toRat < 0 ∨ 1 < p.modifier.toRat) :
    p.Offends seen (.invalidModifier p.token p.modifier)
  | weightless (hkind : p.kind = .claim) (hzero : p.modifier.toRat = 0) :
    p.Offends seen (.zeroClaimWeight p.token)
  | repeated (hweight : p.HasAllowedWeight) (hseen : p.address ∈ seen) :
    p.Offends seen (.duplicateAddress p.address)

theorem check_eq_ok : p.check = .ok () ↔ p.HasAllowedWeight := by
  rw [check, checkModifier_eq_ok]
  exact ⟨fun ⟨hnonneg, hone, hclaim⟩ ↦ ⟨hnonneg, hone, hclaim⟩,
    fun h ↦ ⟨h.nonneg, h.le_one, h.ne_zero⟩⟩

theorem check_eq_error : p.check = .error e ↔
    ((p.modifier.toRat < 0 ∨ 1 < p.modifier.toRat) ∧ e = .invalidModifier p.token p.modifier) ∨
    (p.kind = .claim ∧ p.modifier.toRat = 0) ∧ e = .zeroClaimWeight p.token := by
  rw [check, checkModifier]
  simp only [Decimal.lt_iff_toRat, Decimal.toRat_zero, Decimal.toRat_one, Decimal.isZero_iff_toRat]
  split
  · rename_i hrange
    rw [and_iff_right hrange, Except.error.injEq, eq_comm]
    refine (or_iff_left fun ⟨⟨_, hzero⟩, _⟩ ↦ ?_).symm
    rcases hrange with h | h <;> linarith
  · rename_i hrange
    rw [or_iff_right fun h ↦ hrange h.1]
    split
    · rename_i hzero
      rw [and_iff_right hzero, Except.error.injEq, eq_comm]
    · rename_i hzero
      exact iff_of_false (fun h ↦ by cases h) fun h ↦ hzero h.1

/-- A position offends that is refused for its weight, or repeats an address. -/
theorem offends_iff : p.Offends seen e ↔ p.check = .error e ∨
    p.check = .ok () ∧ p.address ∈ seen ∧ e = .duplicateAddress p.address := by
  rw [check_eq_error, check_eq_ok]
  constructor
  · rintro (h | ⟨hkind, hzero⟩ | ⟨hweight, hseen⟩)
    · exact .inl (.inl ⟨h, rfl⟩)
    · exact .inl (.inr ⟨⟨hkind, hzero⟩, rfl⟩)
    · exact .inr ⟨hweight, hseen, rfl⟩
  · rintro ((⟨h, rfl⟩ | ⟨⟨hkind, hzero⟩, rfl⟩) | ⟨hweight, hseen, rfl⟩)
    · exact .outside h
    · exact .weightless hkind hzero
    · exact .repeated hweight hseen

theorem offends_congr (h : ∀ address, address ∈ seen ↔ address ∈ seen') :
    p.Offends seen e ↔ p.Offends seen' e := by
  rw [offends_iff, offends_iff, h]

end Position

/-! ## The check -/

/-- The check stops at the first position if it offends, and else goes on with its address seen. -/
theorem checkPositions_cons_eq_error : checkPositions seen (p :: positions) = .error e ↔
    p.Offends seen e ∨ p.check = .ok () ∧ p.address ∉ seen ∧
      checkPositions (p.address :: seen) positions = .error e := by
  rw [checkPositions, bind_eq_error, Position.offends_iff, or_assoc]
  refine or_congr_right ?_
  constructor
  · rintro ⟨⟨⟩, hp, h⟩
    split at h
    · rename_i hseen
      exact .inl ⟨hp, hseen, (Except.error.inj h).symm⟩
    · rename_i hunseen
      exact .inr ⟨hp, hunseen, h⟩
  · rintro (⟨hp, hseen, rfl⟩ | ⟨hp, hunseen, h⟩)
    · exact ⟨(), hp, if_pos hseen⟩
    · exact ⟨(), hp, by rwa [if_neg hunseen]⟩

/-- The error is that of a position that offends, after some that pass. -/
theorem checkPositions_eq_error : checkPositions seen positions = .error e ↔
    ∃ before p after, positions = before ++ p :: after ∧ checkPositions seen before = .ok () ∧
      p.Offends (before.map (·.address) ++ seen) e := by
  induction positions generalizing seen with
  | nil => simp [checkPositions]
  | cons q ps ih =>
    rw [checkPositions_cons_eq_error, ih]
    -- the first position is seen before all others, and in the list it comes after them
    have hseen (before : List Position) (address : Address) :
        address ∈ before.map (·.address) ++ q.address :: seen ↔
          address ∈ (q :: before).map (·.address) ++ seen := by
      simp [or_left_comm]
    constructor
    · rintro (h | ⟨hq, hunseen, before, p, after, rfl, hbefore, hp⟩)
      · exact ⟨[], q, ps, rfl, rfl, h⟩
      · exact ⟨q :: before, p, after, rfl, checkPositions_cons_eq_ok.2 ⟨hq, hunseen, hbefore⟩,
          (Position.offends_congr (hseen before)).1 hp⟩
    · rintro ⟨before, p, after, hsplit, hbefore, hp⟩
      cases before with
      | nil =>
        obtain ⟨rfl, rfl⟩ := List.cons.inj hsplit
        exact .inl hp
      | cons q' before =>
        obtain ⟨rfl, rfl⟩ := List.cons.inj hsplit
        obtain ⟨hq, hunseen, hbefore⟩ := checkPositions_cons_eq_ok.1 hbefore
        exact .inr ⟨hq, hunseen, before, p, after, rfl, hbefore,
          (Position.offends_congr (hseen before)).2 hp⟩

/-! ## Snapshots -/

/-- The weights are allowed, and no two addresses are equal. -/
structure Admissible (positions : List Position) : Prop where
  weights : ∀ p ∈ positions, p.HasAllowedWeight
  addresses : (positions.map (·.address)).Nodup

theorem checkPositions_nil_eq_ok : checkPositions [] positions = .ok () ↔ Admissible positions := by
  rw [checkPositions_eq_ok]
  simp only [Position.check_eq_ok]
  exact ⟨fun ⟨hweights, hnodup, _⟩ ↦ ⟨hweights, hnodup⟩,
    fun h ↦ ⟨h.weights, h.addresses, fun _ _ ↦ List.not_mem_nil⟩⟩

namespace Snapshot

variable {account owner : Address} {slots : List Position} {liquidation : Option Liquidation}
  {fetchedAt : Timestamp}

theorem ofSlots_eq_error : ofSlots account owner slots liquidation fetchedAt = .error e ↔
    (maxPositions < (slots.filter (!·.address.isZero)).length ∧
      e = .tooManyPositions (slots.filter (!·.address.isZero)).length maxPositions) ∨
    (slots.filter (!·.address.isZero)).length ≤ maxPositions ∧
      checkPositions [] (slots.filter (!·.address.isZero)) = .error e := by
  unfold ofSlots
  dsimp only
  split
  · rename_i hmany
    rw [and_iff_right hmany, or_iff_left fun h ↦ (not_le.2 hmany) h.1, Except.error.injEq, eq_comm]
  · rename_i hfew
    rw [or_iff_right fun h ↦ hfew h.1, and_iff_right (not_lt.1 hfew)]
    cases checkPositions [] (slots.filter (!·.address.isZero)) with
    | ok => exact iff_of_false (fun h ↦ by cases h) fun h ↦ by cases h
    | error e' => exact ⟨fun h ↦ by cases h; rfl, fun h ↦ by cases h; rfl⟩

/-- A snapshot holds the slots that are not at the zero address, in their order, if there are at most
24 and all are admissible. Else it is refused for their number, or for the first one that offends. -/
theorem ofSlots_admission (account owner : Address) (slots : List Position)
    (liquidation : Option Liquidation) (fetchedAt : Timestamp) :
    let registered := slots.filter (!·.address.isZero)
    (∀ snapshot, ofSlots account owner slots liquidation fetchedAt = .ok snapshot ↔
      (registered.length ≤ 24 ∧ Admissible registered) ∧
        snapshot = ⟨account, owner, registered, liquidation, fetchedAt⟩) ∧
    ∀ e, ofSlots account owner slots liquidation fetchedAt = .error e ↔
      (24 < registered.length ∧ e = .tooManyPositions registered.length 24) ∨
      registered.length ≤ 24 ∧ ∃ before p after, registered = before ++ p :: after ∧
        Admissible before ∧ p.Offends (before.map (·.address)) e := by
  refine ⟨fun snapshot ↦ ?_, fun e ↦ ?_⟩
  · rw [ofSlots_eq_ok, checkPositions_nil_eq_ok, ← and_assoc]
    rfl
  · rw [ofSlots_eq_error, checkPositions_eq_error]
    simp only [checkPositions_nil_eq_ok, List.append_nil]
    rfl

/-- A repeated address with a weight that is not allowed is refused for its weight. -/
example : ofSlots .zero .zero [Sample.deposited 1 .zero 0,
      { Sample.deposited 1 .zero 0 with modifier := .lit 2 }] none ⟨0⟩ =
    .error (.invalidModifier (.ofTag 1) (.lit 2)) := by decide +kernel

end Snapshot

end MarginAccount
