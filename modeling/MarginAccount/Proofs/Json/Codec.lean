import MarginAccount.Json.Codec
import MarginAccount.Proofs.Fault
import MarginAccount.Proofs.Json.Text

/-! # Values that read back

`ReadsAs` says of a document that it is written without loss and what it is read as, and under which
condition it is read at all. It is shown here for numbers, names, decimals, identifiers and lists;
records are put together from their members elsewhere.
-/

namespace MarginAccount

/-- The same figure, unsigned if it is zero. -/
def Usd.plain (u : Usd) : Usd := ⟨u.value.plain⟩

/-- The same quantity, unsigned if it is zero. -/
def TokenAmount.plain (t : TokenAmount) : TokenAmount := ⟨t.value.plain⟩

namespace Json

open Document

variable {α β : Type} {read : Document → Decoded α} {d : Document} {P Q : Prop} {a : α}

/-- The document has a text that reads back. It is read as `a` where `P` holds, and not at all where
it does not. -/
structure ReadsAs (read : Document → Decoded α) (d : Document) (P : Prop) (a : α) : Prop where
  isPlain : d.IsPlain
  read_eq_ok : ∀ b, read d = .ok b ↔ P ∧ b = a

namespace ReadsAs

theorem of_eq (hd : d.IsPlain) (h : read d = .ok a) : ReadsAs read d True a := by
  refine ⟨hd, fun b ↦ ?_⟩
  rw [h, Except.ok.injEq, true_and, eq_comm]

theorem eq_ok (h : ReadsAs read d P a) (hP : P) : read d = .ok a := (h.read_eq_ok a).2 ⟨hP, rfl⟩

theorem congr (h : ReadsAs read d P a) (hPQ : P ↔ Q) : ReadsAs read d Q a := by
  refine ⟨h.isPlain, fun b ↦ ?_⟩
  rw [h.read_eq_ok, hPQ]

/-- A value that is read can be wrapped. -/
theorem map (h : ReadsAs read d P a) (f : α → β) :
    ReadsAs (fun d ↦ do return f (← read d)) d P (f a) := by
  refine ⟨h.isPlain, fun b ↦ ?_⟩
  simp only [bind_eq_ok, h.read_eq_ok, pure_eq_ok]
  constructor
  · rintro ⟨_, ⟨hP, rfl⟩, rfl⟩
    exact ⟨hP, rfl⟩
  · rintro ⟨hP, rfl⟩
    exact ⟨a, ⟨hP, rfl⟩, rfl⟩

/-- What is read can be read on. -/
theorem bind (h : ReadsAs read d P a) {k : α → Decoded β} {b : β}
    (hk : ∀ b', k a = .ok b' ↔ Q ∧ b' = b) : ReadsAs (fun d ↦ read d >>= k) d (P ∧ Q) b := by
  refine ⟨h.isPlain, fun b' ↦ ?_⟩
  simp only [bind_eq_ok, h.read_eq_ok]
  constructor
  · rintro ⟨_, ⟨hP, rfl⟩, hb⟩
    exact ⟨⟨hP, ((hk b').1 hb).1⟩, ((hk b').1 hb).2⟩
  · rintro ⟨⟨hP, hQ⟩, rfl⟩
    exact ⟨a, ⟨hP, rfl⟩, (hk b').2 ⟨hQ, rfl⟩⟩

end ReadsAs

/-- The text of a plain document is read as the document. -/
theorem readText_render [Codec α] (h : d.IsPlain) : (readText d.render : Decoded α) = decode d := by
  rw [readText, Document.read_render h]
  exact bind_pure _

theorem ReadsAs.readText_eq_ok [Codec α] {b : α} (h : ReadsAs decode (encode a) P b) (b' : α) :
    readText (writeText a) = .ok b' ↔ P ∧ b' = b := by
  rw [writeText, readText_render h.isPlain, h.read_eq_ok]

/-- What a text is read as, it holds as a document. -/
theorem exists_decode_of_readText [Codec α] {text : String} (h : readText text = .ok a) :
    ∃ d, decode d = .ok a := by
  obtain ⟨value, hvalue, h⟩ := bind_eq_ok.1 h
  obtain ⟨-, rfl⟩ := ite_error_eq_ok.1 h
  exact ⟨_, hvalue⟩

/-! ## Numbers and names -/

theorem isPlain_ofInt (i : ℤ) : (ofInt i).IsPlain := ⟨i, rfl⟩

theorem word?_ofInt (i : ℤ) :
    (Numeral.ofInt i).word? = if -2 ^ 63 ≤ i ∧ i < 2 ^ 64 then some i else none := by
  have hsign : ((Numeral.ofInt i).negative && i == 0) = false := by
    by_cases hi : i = 0 <;> simp [Numeral.ofInt, hi]
  rw [Numeral.word?, Numeral.integer?_ofInt, Option.bind_eq_bind, Option.bind_some, hsign]
  simp only [Bool.not_false, and_true]

theorem readsAs_intBetween (low high : ℤ) (hlow : -2 ^ 63 ≤ low) (hhigh : high < 2 ^ 64) (i : ℤ) :
    ReadsAs (intBetween low high) (ofInt i) (low ≤ i ∧ i ≤ high) i := by
  refine ⟨isPlain_ofInt i, fun b ↦ ?_⟩
  rw [ofInt, intBetween, orUnreadable, Outcome.ofOption_eq_ok, word?_ofInt,
    Option.filter_eq_some_iff, Option.ite_none_right_eq_some, Bool.and_eq_true,
    decide_eq_true_iff, decide_eq_true_iff]
  constructor
  · rintro ⟨⟨-, hb⟩, hbounds⟩
    obtain rfl := Option.some.inj hb
    exact ⟨hbounds, rfl⟩
  · rintro ⟨hbounds, rfl⟩
    exact ⟨⟨by omega, rfl⟩, hbounds⟩

theorem readsAs_int64 (i : ℤ) : ReadsAs int64 (ofInt i) (FitsWord i) i :=
  (readsAs_intBetween _ _ (by decide) (by decide) i).congr (by rw [FitsWord]; omega)

theorem readsAs_natBits (bits : ℕ) (hbits : bits ≤ 64) (n : ℕ) :
    ReadsAs (natBits bits) (ofInt n) (n < 2 ^ bits) n := by
  have hpow : (2 : ℤ) ^ bits ≤ 2 ^ 64 := pow_le_pow_right₀ (by decide) hbits
  have h := (readsAs_intBetween 0 (2 ^ bits - 1) (by decide) (by omega) n).map Int.toNat
  rw [Int.toNat_natCast] at h
  refine h.congr ?_
  rw [and_iff_right (Int.natCast_nonneg n), Int.le_sub_one_iff]
  exact_mod_cast Iff.rfl

theorem bigInt_ofInt (i : ℤ) : bigInt (ofInt i) = .ok i := by
  rw [ofInt, bigInt, Numeral.integer?_ofInt]
  rfl

/-- A name is read as the first value that has it. -/
theorem readsAs_name {values : List α} {name : α → String}
    (h : values.find? (name · == name a) = some a) :
    ReadsAs (decodeName values name) (.string (name a)) True a := by
  refine .of_eq trivial ?_
  rw [decodeName, h]
  rfl

/-! ## Decimals -/

theorem readsAs_bool (b : Bool) : ReadsAs decode (encode b) True b := .of_eq trivial rfl

theorem readsAs_string (s : String) : ReadsAs decode (encode s) True s := .of_eq trivial rfl

theorem readsAs_decimal (d : Decimal) : ReadsAs decode (encode d) True d.plain := by
  refine .of_eq trivial ?_
  change orUnreadable (Decimal.read? (String.ofList d.toChars).toList) = _
  rw [String.toList_ofList, Decimal.read?_toChars]
  rfl

theorem readsAs_usd (u : Usd) : ReadsAs decode (encode u) True u.plain :=
  (readsAs_decimal u.value).map Usd.mk

theorem readsAs_tokenAmount (t : TokenAmount) : ReadsAs decode (encode t) True t.plain :=
  (readsAs_decimal t.value).map TokenAmount.mk

theorem readsAs_int8 (n : Int8) : ReadsAs decode (encode n) True n := by
  have h := (readsAs_intBetween (-128) 127 (by decide) (by decide) n.toInt).map Int8.ofInt
  rw [Int8.ofInt_toInt] at h
  refine h.congr (iff_true_intro ⟨?_, ?_⟩)
  · exact n.le_toInt
  · have hlt := n.toInt_lt
    omega

theorem readsAs_timestamp (t : Timestamp) :
    ReadsAs decode (encode t) (FitsWord t.milliseconds) t :=
  (readsAs_int64 t.milliseconds).map Timestamp.mk

/-! ## Lists -/

/-- What is written of the elements of a list is plain if it is for each of them. -/
theorem arePlain_map {write : β → Document} (h : ∀ b, (write b).IsPlain) (bs : List β) :
    ArePlain (bs.map write) := by
  refine arePlain_iff.2 fun d hd ↦ ?_
  obtain ⟨b, -, rfl⟩ := List.mem_map.1 hd
  exact h b

/-- What is written of the elements of a list is read if it is for each of them. -/
theorem mapM_map_eq_ok {write : β → Document} {R : β → Prop} {f : β → α}
    (h : ∀ b, ReadsAs read (write b) (R b) (f b)) (bs : List β) (as : List α) :
    (bs.map write).mapM read = .ok as ↔ (∀ b ∈ bs, R b) ∧ as = bs.map f := by
  induction bs generalizing as with
  | nil => simp [pure, Except.pure, eq_comm]
  | cons b bs ih =>
    simp only [List.map_cons, List.mapM_cons, bind_eq_ok, (h b).read_eq_ok, ih, pure_eq_ok,
      List.forall_mem_cons]
    constructor
    · rintro ⟨_, ⟨hb, rfl⟩, _, ⟨hbs, rfl⟩, rfl⟩
      exact ⟨⟨hb, hbs⟩, rfl⟩
    · rintro ⟨⟨hb, hbs⟩, rfl⟩
      exact ⟨_, ⟨hb, rfl⟩, _, ⟨hbs, rfl⟩, rfl⟩

variable [Codec α]

/-- A list is read if each of its elements is. -/
theorem readsAs_list {R : α → Prop} {f : α → α} (h : ∀ a, ReadsAs decode (encode a) (R a) (f a))
    (as : List α) : ReadsAs decode (encode as) (∀ a ∈ as, R a) (as.map f) :=
  ⟨arePlain_map (fun a ↦ (h a).isPlain) as, mapM_map_eq_ok h as⟩

/-- Each element of a list that is read was read. -/
theorem exists_decode_of_mem {as : List α} (h : decode d = .ok as) (ha : a ∈ as) :
    ∃ d', decode d' = .ok a := by
  cases d with
  | array items =>
    change items.mapM decode = .ok as at h
    rw [(mapM_eq_ok h).2, List.mem_filterMap] at ha
    obtain ⟨d', hmem, hd'⟩ := ha
    obtain ⟨b, hb⟩ := (mapM_eq_ok h).1 d' hmem
    rw [hb] at hd'
    obtain rfl := Option.some.inj hd'
    exact ⟨d', hb⟩
  | null | bool | number | string | garbled | object | broken => cases h

theorem decode_of_ne_null {d : Document} (h : d ≠ .null) :
    (decode d : Decoded (Option α)) = do return some (← decode d) := by
  cases d with
  | null => exact absurd rfl h
  | bool | number | string | garbled | array | object | broken => rfl

/-- A value that may be missing is read if it is. -/
theorem readsAs_option {R : α → Prop} {f : α → α} (h : ∀ a, ReadsAs decode (encode a) (R a) (f a))
    (hnull : ∀ a : α, encode a ≠ .null) (a? : Option α) :
    ReadsAs decode (encode a?) (∀ a ∈ a?, R a) (a?.map f) := by
  cases a? with
  | none =>
    have hread : ReadsAs (decode : Document → Decoded (Option α)) .null True none :=
      .of_eq trivial rfl
    exact hread.congr (iff_of_true trivial fun _ h ↦ (by cases h))
  | some a =>
    have hread := (h a).map some
    refine ⟨hread.isPlain, fun b ↦ ?_⟩
    have hdecode : (decode (encode (some a)) : Decoded (Option α)) = do
        return some (← decode (encode a)) := decode_of_ne_null (hnull a)
    rw [hdecode, hread.read_eq_ok]
    simp

/-! ## Identifiers -/

theorem foldl_bytes (id : Identifier) {k : ℕ} (hk : k ≤ 32) :
    ((List.range k).map fun i ↦ id.toNat / 256 ^ (31 - i) % 256).foldl (fun n b ↦ 256 * n + b) 0 =
      id.toNat / 256 ^ (32 - k) := by
  induction k with
  | zero => exact (Nat.div_eq_of_lt id.isLt).symm
  | succ k ih =>
    have hdiv : id.toNat / 256 ^ (32 - k) = id.toNat / 256 ^ (31 - k) / 256 := by
      rw [Nat.div_div_eq_div_mul, ← pow_succ]
      congr 2
      omega
    rw [List.range_succ, List.map_append, List.foldl_append, ih (by omega), List.map_singleton,
      List.foldl_cons, List.foldl_nil, hdiv, Nat.div_add_mod]
    congr 2
    omega

/-- An identifier is put together from its bytes. -/
theorem ofBytes?_bytes (id : Identifier) : Identifier.ofBytes? id.bytes = some id := by
  have hbytes : ∀ b ∈ id.bytes, b < 256 := fun b hb ↦ by
    obtain ⟨i, -, rfl⟩ := List.mem_map.1 hb
    exact Nat.mod_lt _ (by decide)
  have hfold : id.bytes.foldl (fun n b ↦ 256 * n + b) 0 = id.toNat := by
    rw [Identifier.bytes, foldl_bytes id le_rfl, Nat.sub_self, pow_zero, Nat.div_one]
  rw [Identifier.ofBytes?, if_pos ⟨by simp [Identifier.bytes], by simpa using hbytes⟩, hfold,
    BitVec.ofNat_toNat, BitVec.setWidth_eq]

theorem readsAs_identifier (id : Identifier) :
    ReadsAs decodeIdentifier (encodeIdentifier id) True id := by
  have hbytes : ∀ b ∈ id.bytes, b < 2 ^ 8 := fun b hb ↦ by
    obtain ⟨i, -, rfl⟩ := List.mem_map.1 hb
    exact Nat.mod_lt _ (by decide)
  have hread : (id.bytes.map fun b : ℕ ↦ ofInt b).mapM (natBits 8) = .ok id.bytes := by
    rw [mapM_map_eq_ok (readsAs_natBits 8 (by decide)), List.map_id']
    exact ⟨hbytes, rfl⟩
  refine .of_eq (arePlain_map (fun b : ℕ ↦ isPlain_ofInt b) id.bytes) ?_
  rw [encodeIdentifier, decodeIdentifier, hread]
  change orUnreadable (Identifier.ofBytes? id.bytes) = _
  rw [ofBytes?_bytes]
  rfl

theorem readsAs_token (t : TokenId) : ReadsAs decode (encode t) True t :=
  (readsAs_identifier t.id).map TokenId.mk

theorem readsAs_address (a : Address) : ReadsAs decode (encode a) True a :=
  (readsAs_identifier a.id).map Address.mk

end Json

end MarginAccount
