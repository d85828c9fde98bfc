import MarginAccount.Json.Reader
import MarginAccount.Proofs.Decimal.Text

/-! # Reading what was written

A document that has a text of its own is read back from it (`Document.read_render`). Numbers and
strings are shown first; documents follow by induction on the steps that reading may take, of which
two for each character of the text are enough.
-/

namespace MarginAccount.Json

variable {c : Char} {cs rest : List Char} {n fuel : ℕ} {negative : Bool}

/-! ## Numbers -/

/-- The text does not go on with a number. -/
def EndsNumber (rest : List Char) : Prop :=
  ∀ c ∈ rest.head?, c.isDigit = false ∧ c ≠ '.' ∧ c ≠ 'e' ∧ c ≠ 'E'

theorem endsNumber_nil : EndsNumber [] := fun _ h ↦ by cases h

theorem endsNumber_cons (h : c.isDigit = false ∧ c ≠ '.' ∧ c ≠ 'e' ∧ c ≠ 'E') :
    EndsNumber (c :: rest) := by
  rintro _ ⟨⟩
  exact h

theorem isSome_digit? (c : Char) : (digit? c).isSome = c.isDigit := by
  cases h : c.isDigit with
  | true => rw [digit?_of_isDigit h, Option.isSome_some]
  | false =>
    rw [digit?, if_neg]
    · rfl
    · simpa [Char.isDigit, Char.le_def] using h

theorem filterMap_digit? (hcs : AreDigits cs) :
    cs.filterMap digit? = cs.map fun c ↦ c.toNat - '0'.toNat := by
  induction cs with
  | nil => rfl
  | cons c cs ih =>
    rw [AreDigits, List.forall_mem_cons] at hcs
    rw [List.filterMap_cons, digit?_of_isDigit hcs.1, List.map_cons, ih hcs.2]

theorem spanDigits_append (hcs : AreDigits cs) (hrest : EndsNumber rest) :
    spanDigits (cs ++ rest) = (cs.map fun c ↦ c.toNat - '0'.toNat, rest) := by
  have hall : ∀ c ∈ cs, (digit? c).isSome = true := fun c hc ↦ by rw [isSome_digit?, hcs c hc]
  have htake : rest.takeWhile (digit? · |>.isSome) = [] := by
    cases rest with
    | nil => rfl
    | cons c rest => simp [isSome_digit?, (hrest c rfl).1]
  have hdrop : rest.dropWhile (digit? · |>.isSome) = rest := by
    cases rest with
    | nil => rfl
    | cons c rest => simp [isSome_digit?, (hrest c rfl).1]
  rw [spanDigits, List.takeWhile_append_of_pos hall, List.dropWhile_append_of_pos hall, htake, hdrop,
    List.append_nil, filterMap_digit? hcs]

theorem natOfDigits_map (cs : List Char) :
    natOfDigits (cs.map fun c ↦ c.toNat - '0'.toNat) = Nat.ofDigitChars 10 cs 0 := by
  rw [natOfDigits, List.foldl_map]
  rfl

/-- A number of more than one digit does not start with a zero. -/
theorem exists_toDigits (hn : 10 ≤ n) :
    ∃ c cs, Nat.toDigits 10 n = c :: cs ∧ c.toNat - '0'.toNat ≠ 0 := by
  induction n using Nat.strong_induction_on with
  | h n ih =>
    rw [Nat.toDigits_eq_if (by decide), if_neg (by omega)]
    by_cases hlast : n / 10 < 10
    · rw [Nat.toDigits_eq_if (by decide), if_pos hlast]
      refine ⟨_, _, rfl, ?_⟩
      rw [Nat.toNat_digitChar_of_lt_ten hlast]
      change 48 + n / 10 - 48 ≠ 0
      omega
    · obtain ⟨c, cs, hdigits, hc⟩ := ih (n / 10) (by omega) (by omega)
      exact ⟨c, cs ++ [_], by rw [hdigits]; rfl, hc⟩

theorem readPlaces?_of_endsNumber (h : EndsNumber rest) : readPlaces? rest = some (none, rest) := by
  cases rest with
  | nil => rfl
  | cons c rest =>
    rw [readPlaces?]
    exact fun _ hpoint ↦ (h c rfl).2.1 (List.cons.inj hpoint).1

theorem readExponent?_of_endsNumber (h : EndsNumber rest) :
    readExponent? rest = some (none, rest) := by
  cases rest with
  | nil => rfl
  | cons c rest =>
    rw [readExponent?, if_neg]
    exact fun hmark ↦ hmark.elim (h c rfl).2.2.1 (h c rfl).2.2.2

theorem readUnsigned?_toDigits (negative : Bool) (n : ℕ) (hrest : EndsNumber rest) :
    readUnsigned? negative (Nat.toDigits 10 n ++ rest) = some (⟨negative, n, none, none⟩, rest) := by
  have hne : (Nat.toDigits 10 n).map (fun c ↦ c.toNat - '0'.toNat) ≠ [] := by
    simp [Nat.toDigits_ne_nil]
  have hhead : ¬(((Nat.toDigits 10 n).map fun c ↦ c.toNat - '0'.toNat).head? = some 0 ∧
      1 < ((Nat.toDigits 10 n).map fun c ↦ c.toNat - '0'.toNat).length) := by
    rintro ⟨hzero, hlength⟩
    by_cases hn : 10 ≤ n
    · obtain ⟨c, cs, hdigits, hc⟩ := exists_toDigits hn
      rw [hdigits] at hzero
      exact hc (Option.some.inj hzero)
    · rw [Nat.toDigits_eq_if (by decide), if_pos (by omega)] at hlength
      exact absurd hlength (by simp)
  rw [readUnsigned?, spanDigits_append (areDigits_toDigits n) hrest]
  simp only [if_neg (not_or.2 ⟨hne, hhead⟩), readPlaces?_of_endsNumber hrest,
    readExponent?_of_endsNumber hrest, natOfDigits_map, Nat.ofDigitChars_ten_toDigits,
    Option.bind_eq_bind, Option.bind_some]

theorem Numeral.toList_toText_ofInt (i : ℤ) :
    (ofInt i).toText.toList = (if i < 0 then ['-'] else []) ++ Nat.toDigits 10 i.natAbs := by
  by_cases h : i < 0 <;> simp [toText, ofInt, h, Nat.toString_eq_repr]

/-- A number starts with a sign or a digit. -/
theorem Numeral.exists_toText (i : ℤ) :
    ∃ c cs, (ofInt i).toText.toList = c :: cs ∧ (c = '-' ∨ c.isDigit = true) := by
  rw [toList_toText_ofInt]
  split_ifs
  · exact ⟨'-', _, rfl, .inl rfl⟩
  · obtain ⟨c, cs, hdigits⟩ :=
      List.exists_cons_of_ne_nil (Nat.toDigits_ne_nil (n := i.natAbs) (b := 10))
    exact ⟨c, cs, hdigits, .inr (areDigits_toDigits _ c (hdigits ▸ List.mem_cons_self))⟩

theorem readNumeral?_toText (i : ℤ) (hrest : EndsNumber rest) :
    readNumeral? ((Numeral.ofInt i).toText.toList ++ rest) = some (.ofInt i, rest) := by
  rw [Numeral.toList_toText_ofInt]
  by_cases h : i < 0
  · rw [if_pos h, List.singleton_append, List.cons_append, readNumeral?,
      readUnsigned?_toDigits _ _ hrest, Numeral.ofInt, decide_eq_true h]
  · rw [if_neg h, List.nil_append, readNumeral?, readUnsigned?_toDigits _ _ hrest, Numeral.ofInt,
      decide_eq_false h]
    intro text hminus
    have hdigits := areDigits_toDigits i.natAbs
    cases htext : Nat.toDigits 10 i.natAbs with
    | nil => exact Nat.toDigits_ne_nil htext
    | cons c cs =>
      rw [htext, List.cons_append] at hminus
      exact ne_of_isDigit (hdigits c (htext ▸ List.mem_cons_self)) rfl (List.cons.inj hminus).1

/-! ## Strings -/

/-- The token of a character in a string: itself, or its number where it has no short escape. -/
def tokenOf (c : Char) : StringToken :=
  if c.toNat < 32 ∧ c ∉ ['\n', '\r', '\t', '\x08', '\x0c'] then .unit c.toNat else .char c

theorem hexDigit?_digitChar : ∀ d < 16, hexDigit? (Nat.digitChar d) = some d := by decide

theorem hexUnit?_of_lt (hn : n < 32) :
    hexUnit? '0' '0' (Nat.digitChar (n / 16)) (Nat.digitChar (n % 16)) = some n := by
  have hzero : hexDigit? '0' = some 0 := by decide
  rw [hexUnit?, hzero, hexDigit?_digitChar (n / 16) (by omega),
    hexDigit?_digitChar (n % 16) (by omega)]
  simp only [Option.bind_eq_bind, Option.bind_some, Option.pure_def, Option.some.injEq]
  omega

theorem stringTokens?_skip (skip : ℕ) (h : cs.length = skip) :
    stringTokens? skip (cs ++ rest) = stringTokens? 0 rest := by
  subst h
  induction cs with
  | nil => rfl
  | cons c cs ih => exact ih

/-- A token is read off, and reading goes on after it. -/
theorem stringTokens?_cons {token : StringToken} {text : List Char}
    (h : stringToken? (c :: cs ++ text) = some (token, cs.length + 1)) (htoken : token ≠ .close) :
    stringTokens? 0 (c :: cs ++ text) =
      (stringTokens? 0 text).map fun x ↦ (token :: x.1, x.2) := by
  rw [List.cons_append] at h ⊢
  rw [stringTokens?, h]
  cases token with
  | close => exact absurd rfl htoken
  | char | unit =>
    simp only [Nat.add_sub_cancel, stringTokens?_skip]
    cases stringTokens? 0 text <;> rfl

/-- A written character is one token. -/
theorem stringToken?_escape (c : Char) (text : List Char) :
    stringToken? (Document.escape c ++ text) = some (tokenOf c, (Document.escape c).length) := by
  unfold Document.escape
  -- the seven short escapes, then the control characters that have none
  split_ifs with h₁ h₂ h₃ h₄ h₅ h₆ h₇ hlow
  · subst h₁
    rfl
  · subst h₂
    rfl
  · subst h₃
    rfl
  · subst h₄
    rfl
  · subst h₅
    rfl
  · subst h₆
    rfl
  · subst h₇
    rfl
  · have hunit : tokenOf c = .unit c.toNat := by simp [tokenOf, *]
    rw [hunit]
    simp [stringToken?, hexUnit?_of_lt hlow]
  · have hchar : tokenOf c = .char c := by simp [tokenOf, hlow]
    rw [hchar]
    simp [stringToken?, h₁, h₂, hlow]

theorem exists_escape (c : Char) : ∃ c' cs, Document.escape c = c' :: cs := by
  unfold Document.escape
  split_ifs <;> exact ⟨_, _, rfl⟩

theorem tokenOf_ne_close (c : Char) : tokenOf c ≠ .close := by
  unfold tokenOf
  split_ifs <;> simp

theorem stringTokens?_escape (c : Char) (text : List Char) :
    stringTokens? 0 (Document.escape c ++ text) =
      (stringTokens? 0 text).map fun x ↦ (tokenOf c :: x.1, x.2) := by
  have htoken := stringToken?_escape c text
  obtain ⟨c', cs, hescape⟩ := exists_escape c
  rw [hescape] at htoken ⊢
  exact stringTokens?_cons htoken (tokenOf_ne_close c)

theorem stringTokens?_quoted (cs rest : List Char) :
    stringTokens? 0 (cs.flatMap Document.escape ++ '"' :: rest) = some (cs.map tokenOf, rest) := by
  induction cs with
  | nil => rfl
  | cons c cs ih =>
    rw [List.flatMap_cons, List.append_assoc, stringTokens?_escape, ih]
    rfl

theorem characters?_tokens (cs : List Char) : characters? (cs.map tokenOf) = some cs := by
  induction cs with
  | nil => rfl
  | cons c cs ih =>
    rw [List.map_cons, tokenOf]
    split_ifs with h
    · have hunit : c.toNat < 0xd800 ∨ 0xe000 ≤ c.toNat := .inl (h.1.trans (by decide))
      rw [characters?.eq_def]
      dsimp only
      rw [if_pos hunit, ih, Option.map_some, Char.ofNat_toNat]
    · rw [characters?, ih, Option.map_some]

/-- A string is read from behind its opening quote. -/
theorem readString?_quoted (s : String) (rest : List Char) :
    readString? (s.toList.flatMap Document.escape ++ '"' :: rest) = some (some s, rest) := by
  rw [readString?, stringTokens?_quoted, Option.map_some]
  dsimp only
  rw [characters?_tokens, Option.map_some, String.ofList_toList]

/-! ## Documents -/

namespace Document

mutual

/-- The document has a text of its own that reads back: nothing in it is missing, and its numbers are
integers. -/
def IsPlain : Document → Prop
  | .null | .bool _ | .string _ => True
  | .number n => ∃ i, n = .ofInt i
  | .array items => ArePlain items
  | .object members => MembersArePlain members
  | .garbled | .broken => False

def ArePlain : List Document → Prop
  | [] => True
  | item :: items => item.IsPlain ∧ ArePlain items

def MembersArePlain : List (Option String × Document) → Prop
  | [] => True
  | (name, value) :: members => name.isSome ∧ value.IsPlain ∧ MembersArePlain members

end

theorem arePlain_iff {items : List Document} : ArePlain items ↔ ∀ d ∈ items, d.IsPlain := by
  induction items with
  | nil => simp [ArePlain]
  | cons item items ih => simp [ArePlain, ih]

theorem membersArePlain_iff {members : List (Option String × Document)} :
    MembersArePlain members ↔ ∀ m ∈ members, m.1.isSome ∧ m.2.IsPlain := by
  induction members with
  | nil => simp [MembersArePlain]
  | cons m members ih =>
    obtain ⟨name, value⟩ := m
    simp [MembersArePlain, ih, and_assoc]

variable {d item : Document} {items : List Document} {name : String}
  {members : List (Option String × Document)} {text : List Char}

/-! ### Rendered text -/

theorem toList_render_bool (b : Bool) : (bool b).render.toList =
    if b then ['t', 'r', 'u', 'e'] else ['f', 'a', 'l', 's', 'e'] := by
  cases b <;> rfl

theorem toList_quote (s : String) :
    (quote s).toList = '"' :: (s.toList.flatMap escape ++ ['"']) := by
  simp [quote]

/-- The text between the brackets of an array. -/
def itemsText (items : List Document) : List Char := (",".intercalate (renderItems items)).toList

/-- The text between the braces of an object. -/
def membersText (members : List (Option String × Document)) : List Char :=
  (",".intercalate (renderMembers members)).toList

theorem toList_render_array (items : List Document) :
    (array items).render.toList = '[' :: (itemsText items ++ [']']) := by
  simp [render, itemsText]

theorem toList_render_object (members : List (Option String × Document)) :
    (object members).render.toList = '\x7b' :: (membersText members ++ ['\x7d']) := by
  simp [render, membersText]

theorem itemsText_singleton (d : Document) : itemsText [d] = d.render.toList := by
  simp [itemsText, renderItems]

theorem itemsText_cons (d d' : Document) (items : List Document) :
    itemsText (d :: d' :: items) = d.render.toList ++ ',' :: itemsText (d' :: items) := by
  simp [itemsText, renderItems, String.intercalate_cons_cons]

theorem membersText_singleton (name : String) (d : Document) :
    membersText [(some name, d)] =
      '"' :: (name.toList.flatMap escape ++ '"' :: ':' :: d.render.toList) := by
  simp [membersText, renderMembers, toList_quote]

theorem membersText_cons (name : String) (d : Document) (m : Option String × Document)
    (members : List (Option String × Document)) :
    membersText ((some name, d) :: m :: members) = '"' :: (name.toList.flatMap escape ++
      '"' :: ':' :: (d.render.toList ++ ',' :: membersText (m :: members))) := by
  obtain ⟨name', d'⟩ := m
  simp [membersText, renderMembers, String.intercalate_cons_cons, toList_quote]

/-- Text that is neither blank nor the end of an array. -/
def Opens (text : List Char) : Prop := ∃ c cs, text = c :: cs ∧ isBlank c = false ∧ c ≠ ']'

theorem Opens.append (h : Opens text) (rest : List Char) : Opens (text ++ rest) := by
  obtain ⟨c, cs, rfl, hc⟩ := h
  exact ⟨c, cs ++ rest, rfl, hc⟩

theorem opens_render (hd : d.IsPlain) : Opens d.render.toList := by
  cases d with
  | null => exact ⟨'n', _, rfl, by decide⟩
  | bool b =>
    rw [toList_render_bool]
    cases b
    · exact ⟨'f', _, rfl, by decide⟩
    · exact ⟨'t', _, rfl, by decide⟩
  | number n =>
    obtain ⟨i, rfl⟩ := hd
    obtain ⟨c, cs, htext, rfl | hc⟩ := Numeral.exists_toText i
    · exact ⟨'-', cs, htext, by decide⟩
    · refine ⟨c, cs, htext, ?_, ne_of_isDigit hc rfl⟩
      simp [isBlank, ne_of_isDigit hc (rfl : ' '.isDigit = false),
        ne_of_isDigit hc (rfl : '\n'.isDigit = false),
        ne_of_isDigit hc (rfl : '\t'.isDigit = false), ne_of_isDigit hc (rfl : '\r'.isDigit = false)]
  | string s => exact ⟨'"', _, by rw [render, toList_quote], by decide⟩
  | garbled | broken => cases hd
  | array items => exact ⟨'[', _, toList_render_array items, by decide⟩
  | object members => exact ⟨'\x7b', _, toList_render_object members, by decide⟩

theorem opens_itemsText (hplain : ArePlain (item :: items)) : Opens (itemsText (item :: items)) := by
  cases items with
  | nil =>
    rw [itemsText_singleton]
    exact opens_render hplain.1
  | cons item' items =>
    rw [itemsText_cons]
    exact (opens_render hplain.1).append _

theorem skipBlanks_cons (h : isBlank c = false) (cs : List Char) : skipBlanks (c :: cs) = c :: cs :=
  List.dropWhile_cons_of_neg (by simp [h])

theorem Opens.skipBlanks_eq (h : Opens text) : skipBlanks text = text := by
  obtain ⟨c, cs, rfl, hc, -⟩ := h
  exact skipBlanks_cons hc cs

/-! ### Reading rendered text -/

theorem readValue_null (fuel : ℕ) (rest : List Char) :
    readValue (fuel + 1) (null.render.toList ++ rest) = (.null, rest) := rfl

theorem readValue_bool (b : Bool) (fuel : ℕ) (rest : List Char) :
    readValue (fuel + 1) ((bool b).render.toList ++ rest) = (.bool b, rest) := by
  cases b <;> rfl

theorem readValue_string (s : String) (fuel : ℕ) (rest : List Char) :
    readValue (fuel + 1) ((string s).render.toList ++ rest) = (.string s, rest) := by
  rw [render, toList_quote, List.cons_append, List.append_assoc, readValue,
    skipBlanks_cons (by decide)]
  dsimp only
  rw [if_neg (by decide), if_neg (by decide), if_pos rfl, List.singleton_append, readString?_quoted]

theorem readValue_number (i : ℤ) (fuel : ℕ) (hrest : EndsNumber rest) :
    readValue (fuel + 1) ((ofInt i).render.toList ++ rest) = (ofInt i, rest) := by
  have hread := readNumeral?_toText i hrest
  have hblank := (opens_render (d := ofInt i) ⟨i, rfl⟩).append rest
  obtain ⟨c, cs, htext, hc⟩ := Numeral.exists_toText i
  -- none of the characters that open another value opens a number
  have hne : ∀ c', c' ≠ '-' → c'.isDigit = false → c ≠ c' := fun c' hminus hdigit ↦
    hc.elim (fun h ↦ h ▸ hminus.symm) fun h ↦ ne_of_isDigit h hdigit
  rw [readValue, hblank.skipBlanks_eq, ofInt, render]
  rw [htext, List.cons_append] at hread ⊢
  dsimp only
  rw [if_neg (hne _ (by decide) rfl), if_neg (hne _ (by decide) rfl), if_neg (hne _ (by decide) rfl),
    if_neg (hne _ (by decide) rfl), if_neg (hne _ (by decide) rfl), if_neg (hne _ (by decide) rfl),
    hread]

theorem readValue_array_nil (fuel : ℕ) (rest : List Char) :
    readValue (fuel + 1) ((array []).render.toList ++ rest) = (.array [], rest) := rfl

theorem readValue_object_nil (fuel : ℕ) (rest : List Char) :
    readValue (fuel + 1) ((object []).render.toList ++ rest) = (.object [], rest) := rfl

theorem readValue_array (hopens : Opens (itemsText items))
    (h : readItems fuel (itemsText items ++ ']' :: rest) = (items, rest)) :
    readValue (fuel + 1) ((array items).render.toList ++ rest) = (.array items, rest) := by
  have hskip := (hopens.append (']' :: rest)).skipBlanks_eq
  rw [toList_render_array, List.cons_append, List.append_assoc, List.singleton_append, readValue,
    skipBlanks_cons (by decide)]
  dsimp only
  rw [if_pos rfl, hskip]
  obtain ⟨c, cs, htext, -, hc⟩ := hopens
  rw [htext, List.cons_append] at h ⊢
  split
  · rename_i heq
    exact absurd (List.cons.inj heq).1 hc
  · rw [h]

theorem readValue_object {text : List Char} (hmembers : membersText members = '"' :: text)
    (h : readMembers fuel (membersText members ++ '\x7d' :: rest) = (members, rest)) :
    readValue (fuel + 1) ((object members).render.toList ++ rest) = (.object members, rest) := by
  rw [hmembers, List.cons_append] at h
  have hskip : skipBlanks ('"' :: (text ++ '\x7d' :: rest)) = '"' :: (text ++ '\x7d' :: rest) :=
    skipBlanks_cons (by decide) _
  rw [toList_render_object, List.cons_append, List.append_assoc, List.singleton_append, readValue,
    skipBlanks_cons (by decide), hmembers]
  simp [hskip, h]

/-- The last item. -/
theorem readItems_singleton
    (h : readValue fuel (d.render.toList ++ ']' :: rest) = (d, ']' :: rest)) :
    readItems (fuel + 1) (itemsText [d] ++ ']' :: rest) = ([d], rest) := by
  rw [itemsText_singleton, readItems, h]
  dsimp only
  rw [skipBlanks_cons (by decide)]
  rfl

/-- One item and more. -/
theorem readItems_cons {text : List Char}
    (h : readValue fuel (d.render.toList ++ ',' :: text) = (d, ',' :: text))
    (hitems : readItems fuel text = (items, rest)) :
    readItems (fuel + 1) (d.render.toList ++ ',' :: text) = (d :: items, rest) := by
  have hskip : skipBlanks (',' :: text) = ',' :: text := skipBlanks_cons (by decide) _
  simp [readItems, h, hskip, hitems]

/-- The last member. -/
theorem readMembers_singleton
    (h : readValue fuel (d.render.toList ++ '\x7d' :: rest) = (d, '\x7d' :: rest)) :
    readMembers (fuel + 1) (membersText [(some name, d)] ++ '\x7d' :: rest) =
      ([(some name, d)], rest) := by
  rw [membersText_singleton]
  simp only [List.cons_append, List.append_assoc]
  simp [readMembers, readString?_quoted, skipBlanks_cons, h, isBlank]

/-- One member and more. -/
theorem readMembers_cons {m : Option String × Document}
    (h : readValue fuel (d.render.toList ++ ',' :: (membersText (m :: members) ++ '\x7d' :: rest)) =
      (d, ',' :: (membersText (m :: members) ++ '\x7d' :: rest)))
    (hmembers : readMembers fuel (membersText (m :: members) ++ '\x7d' :: rest) =
      (m :: members, rest)) :
    readMembers (fuel + 1) (membersText ((some name, d) :: m :: members) ++ '\x7d' :: rest) =
      ((some name, d) :: m :: members, rest) := by
  rw [membersText_cons]
  simp only [List.cons_append, List.append_assoc]
  simp [readMembers, readString?_quoted, skipBlanks_cons, h, isBlank, hmembers]

theorem exists_membersText {m : Option String × Document} (hplain : MembersArePlain (m :: members)) :
    ∃ text, membersText (m :: members) = '"' :: text := by
  obtain ⟨_ | name, d⟩ := m
  · cases hplain.1
  · cases members with
    | nil => exact ⟨_, membersText_singleton name d⟩
    | cons m members => exact ⟨_, membersText_cons name d m members⟩

/-- With so much fuel, what has been rendered reads back: a value takes two steps for every character
and one more, items and members up to their closing character one more than that. -/
structure ReadsBack (fuel : ℕ) : Prop where
  value : ∀ (d : Document) (rest : List Char), d.IsPlain → 2 * d.render.toList.length + 1 ≤ fuel →
    EndsNumber rest → readValue fuel (d.render.toList ++ rest) = (d, rest)
  items : ∀ (item : Document) (items : List Document) (rest : List Char), ArePlain (item :: items) →
    2 * (itemsText (item :: items)).length + 2 ≤ fuel →
    readItems fuel (itemsText (item :: items) ++ ']' :: rest) = (item :: items, rest)
  members : ∀ (m : Option String × Document) (members : List (Option String × Document))
    (rest : List Char), MembersArePlain (m :: members) →
    2 * (membersText (m :: members)).length + 2 ≤ fuel →
    readMembers fuel (membersText (m :: members) ++ '\x7d' :: rest) = (m :: members, rest)

namespace ReadsBack

variable {m : Option String × Document}

theorem zero : ReadsBack 0 where
  value _ _ _ hfuel := absurd hfuel (Nat.not_succ_le_zero _)
  items _ _ _ _ hfuel := absurd hfuel (Nat.not_succ_le_zero _)
  members _ _ _ _ hfuel := absurd hfuel (Nat.not_succ_le_zero _)

theorem value_succ (h : ReadsBack fuel) (hd : d.IsPlain)
    (hfuel : 2 * d.render.toList.length + 1 ≤ fuel + 1) (hrest : EndsNumber rest) :
    readValue (fuel + 1) (d.render.toList ++ rest) = (d, rest) := by
  cases d with
  | null => exact readValue_null fuel rest
  | bool b => exact readValue_bool b fuel rest
  | number n =>
    obtain ⟨i, rfl⟩ := hd
    exact readValue_number i fuel hrest
  | string s => exact readValue_string s fuel rest
  | garbled | broken => cases hd
  | array items =>
    cases items with
    | nil => exact readValue_array_nil fuel rest
    | cons item items =>
      rw [toList_render_array, List.length_cons, List.length_append] at hfuel
      exact readValue_array (opens_itemsText hd) (h.items item items rest hd (by omega))
  | object members =>
    cases members with
    | nil => exact readValue_object_nil fuel rest
    | cons m members =>
      obtain ⟨text, htext⟩ := exists_membersText hd
      rw [toList_render_object, List.length_cons, List.length_append] at hfuel
      exact readValue_object htext (h.members m members rest hd (by omega))

theorem items_succ (h : ReadsBack fuel) (hplain : ArePlain (item :: items))
    (hfuel : 2 * (itemsText (item :: items)).length + 2 ≤ fuel + 1) :
    readItems (fuel + 1) (itemsText (item :: items) ++ ']' :: rest) = (item :: items, rest) := by
  cases items with
  | nil =>
    rw [itemsText_singleton] at hfuel
    exact readItems_singleton
      (h.value item (']' :: rest) hplain.1 (by omega) (endsNumber_cons (by decide)))
  | cons item' items =>
    rw [itemsText_cons, List.length_append, List.length_cons] at hfuel
    rw [itemsText_cons, List.append_assoc, List.cons_append]
    exact readItems_cons
      (h.value item (',' :: _) hplain.1 (by omega) (endsNumber_cons (by decide)))
      (h.items item' items rest hplain.2 (by omega))

theorem members_succ (h : ReadsBack fuel) (hplain : MembersArePlain (m :: members))
    (hfuel : 2 * (membersText (m :: members)).length + 2 ≤ fuel + 1) :
    readMembers (fuel + 1) (membersText (m :: members) ++ '\x7d' :: rest) =
      (m :: members, rest) := by
  obtain ⟨_ | name, d⟩ := m
  · cases hplain.1
  · cases members with
    | nil =>
      simp only [membersText_singleton, List.length_cons, List.length_append] at hfuel
      exact readMembers_singleton
        (h.value d ('\x7d' :: rest) hplain.2.1 (by omega) (endsNumber_cons (by decide)))
    | cons m members =>
      simp only [membersText_cons, List.length_cons, List.length_append] at hfuel
      exact readMembers_cons
        (h.value d (',' :: _) hplain.2.1 (by omega) (endsNumber_cons (by decide)))
        (h.members m members rest hplain.2.2 (by omega))

end ReadsBack

theorem readsBack (fuel : ℕ) : ReadsBack fuel := by
  induction fuel with
  | zero => exact .zero
  | succ fuel ih =>
    exact ⟨fun _ _ ↦ ih.value_succ, fun _ _ _ ↦ ih.items_succ, fun _ _ _ ↦ ih.members_succ⟩

/-- A document reads back from its text. -/
theorem read_render (hd : d.IsPlain) : read d.render.toList = (d, []) := by
  have h := (readsBack (2 * d.render.toList.length + 2)).value d [] hd (by omega) endsNumber_nil
  rwa [List.append_nil] at h

mutual

/-- Nothing goes wrong in a document that reads back. -/
theorem isWhole_of_isPlain : ∀ d : Document, d.IsPlain → d.isWhole = true
  | .null, _ | .bool _, _ | .number _, _ | .string _, _ => rfl
  | .array items, hd => areWhole_of_arePlain items hd
  | .object members, hd => membersAreWhole_of_membersArePlain members hd

theorem areWhole_of_arePlain : ∀ items : List Document, ArePlain items → areWhole items = true
  | [], _ => rfl
  | item :: items, hplain => by
    rw [areWhole, isWhole_of_isPlain item hplain.1, areWhole_of_arePlain items hplain.2,
      Bool.and_self]

theorem membersAreWhole_of_membersArePlain : ∀ members : List (Option String × Document),
    MembersArePlain members → membersAreWhole members = true
  | [], _ => rfl
  | (_, value) :: members, hplain => by
    rw [membersAreWhole, isWhole_of_isPlain value hplain.2.1,
      membersAreWhole_of_membersArePlain members hplain.2.2, Bool.and_self]

end

end Document

end MarginAccount.Json
