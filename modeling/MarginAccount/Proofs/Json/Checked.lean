import MarginAccount.Proofs.Json.Account

/-! # Values that are read through a check

A position or a change is written whatever its weight is, and is read through the check of its
constructor. So it reads back if it is allowed and is refused for the constructor's reason if it is not,
and no document is read as one that is not allowed.
-/

namespace MarginAccount

/-- The same change, the weight unsigned if it is zero. -/
def Change.plain (c : Change) : Change := { c with modifier := c.modifier.plain }

theorem Position.checked_plain (p : Position) : p.plain.checked = p.checked.map plain := by
  rw [checked, checked, check_plain]
  cases p.check <;> rfl

theorem Change.checked_plain (c : Change) : c.plain.checked = c.checked.map plain := by
  have hcheck := checkModifier_plain c.token c.kind c.modifier
  change (checkModifier c.token c.kind c.modifier.plain).map _ = (Except.map _ _).map _
  rw [hcheck]
  cases checkModifier c.token c.kind c.modifier <;> rfl

namespace Json

open Document Record

/-! ## Changes -/

theorem readsAs_delta (d : Delta) : ReadsAs decode (encode d) True d := by
  refine .of_eq (isPlain_ofInt _) ?_
  change (bigInt (ofInt d.units) >>= fun n ↦ orUnreadable (Delta.ofInt? n)) = _
  rw [bigInt_ofInt]
  change orUnreadable (Delta.ofInt? d.units) = _
  rw [Delta.ofInt?, dif_pos ⟨d.neg_le, d.units_lt⟩]
  rfl

theorem readsAs_changeRecord (c : Change) :
    ReadsAs changeRecord.read (encode c) True c.plain ∧
      ReadsAs changeRecord.read (encode c).listed True c.plain := by
  have token := readsAs_token c.token
  have kind := readsAs_kind c.kind
  have exponent := readsAs_int8 c.exponent
  have modifier := readsAs_decimal c.modifier
  have delta := readsAs_delta c.delta
  exact (collects_first Change.mk token |>.member kind |>.member exponent |>.member modifier
    |>.member delta).readsAs_both
    ⟨rfl, token.isPlain, rfl, kind.isPlain, rfl, exponent.isPlain, rfl, modifier.isPlain, rfl,
      delta.isPlain, trivial⟩ (by simp)

/-! ## Records with a check -/

section

variable {α : Type} [Codec α] {checked : α → Except PositionError α} {plain : α → α}
  {record : Record α}

/-- The codec checks what it reads as the constructor does, and what it writes it does not. The values
`a` and `plain a` are the same but for the sign of a zero. Members may be written without their names,
and with them in any number of other ones, but none of them twice. -/
structure AppliesCheck (record : Record α) (checked : α → Except PositionError α) (plain : α → α) :
    Prop where
  reads_back_iff : ∀ a, (∃ b : α, readText (writeText a) = .ok b) ↔ ∃ b, checked a = .ok b
  reads_same : ∀ a b : α, readText (writeText a) = .ok b → b = plain a
  refuses : ∀ a reason, checked a = .error reason →
    (readText (writeText a) : Decoded α) = .error (.refused (.position reason))
  allows : ∀ d b, decode d = .ok b → checked b = .ok b
  reads_listed : ∀ a : α, (readText (encode a).listed.render : Decoded α) = readText (writeText a)
  written_once : ∀ members (b : α), decode (.object members) = .ok b → ∀ name ∈ record.names, ∀ i j,
    WrittenAt name members i → WrittenAt name members j → i = j

/-- A document that the record reads as `plain a` is checked as `a` is. -/
theorem readText_of_record {d : Document} {a : α}
    (hdecode : ∀ d, (decode d : Decoded α) = do orRefused (checked (← record.read d)))
    (hplain : ∀ a, checked (plain a) = (checked a).map plain)
    (h : ReadsAs record.read d True (plain a)) :
    (readText d.render : Decoded α) = orRefused ((checked a).map plain) := by
  rw [readText_render h.isPlain, hdecode, h.eq_ok trivial, ← hplain]
  rfl

/-- A record that is checked after it has been read, if the check returns what it is given and does not
look at the sign of a zero. -/
theorem AppliesCheck.of_record
    (hdecode : ∀ d, (decode d : Decoded α) = do orRefused (checked (← record.read d)))
    (hrecord : ∀ a, ReadsAs record.read (encode a) True (plain a) ∧
      ReadsAs record.read (encode a).listed True (plain a))
    (hplain : ∀ a, checked (plain a) = (checked a).map plain)
    (hchecked : ∀ a b, checked a = .ok b → b = a) : AppliesCheck record checked plain := by
  have hread (a : α) : (readText (writeText a) : Decoded α) = orRefused ((checked a).map plain) :=
    readText_of_record hdecode hplain (hrecord a).1
  constructor
  case reads_back_iff =>
    intro a
    simp only [hread, orRefused_eq_ok]
    cases checked a with
    | error reason => exact iff_of_false nofun nofun
    | ok b => exact iff_of_true ⟨plain b, rfl⟩ ⟨b, rfl⟩
  case reads_same =>
    intro a b h
    rw [hread, orRefused_eq_ok] at h
    cases hcheck : checked a with
    | error reason =>
      rw [hcheck] at h
      cases h
    | ok a' =>
      rw [hcheck] at h
      obtain rfl := hchecked a a' hcheck
      exact (Except.ok.inj h).symm
  case refuses =>
    intro a reason h
    rw [hread, h]
    rfl
  case allows =>
    intro d b h
    rw [hdecode] at h
    obtain ⟨a, -, h⟩ := bind_eq_ok.1 h
    obtain rfl := hchecked a b (orRefused_eq_ok.1 h)
    exact orRefused_eq_ok.1 h
  case reads_listed =>
    intro a
    rw [hread, readText_of_record hdecode hplain (hrecord a).2]
  case written_once =>
    intro members b h name hname i j
    rw [hdecode] at h
    obtain ⟨a, ha, -⟩ := bind_eq_ok.1 h
    exact eq_of_writtenAt ha hname

end

/-- Positions and changes with any weight are written. They are read back, with the numbers that they
had, exactly if their constructor allows the weight; what it allows is all that is ever read. Their
values alone, in a list, are read like the object, and an object with a name twice is not read. -/
theorem positions_and_changes_apply_checks :
    AppliesCheck positionRecord Position.checked Position.plain ∧
      AppliesCheck changeRecord Change.checked Change.plain ∧
      ∀ d : Decimal, d.plain.toRat = d.toRat ∧ d.plain.scale = d.scale :=
  ⟨.of_record (fun _ ↦ rfl) readsAs_positionRecord Position.checked_plain
      fun _ _ h ↦ (map_const_eq_ok.1 h).2,
    .of_record (fun _ ↦ rfl) readsAs_changeRecord Change.checked_plain
      fun _ _ h ↦ (map_const_eq_ok.1 h).2,
    fun d ↦ ⟨d.toRat_plain, rfl⟩⟩

end Json

end MarginAccount
