import MarginAccount.Json.Record
import MarginAccount.Proofs.Json.Codec

/-! # Records that read back

What a record collects from members that are written without loss, named in an object or alone in an
array. The places of the members only tell which of several failures is reported, so where a record is
read at all they do not matter. A name that is written twice is never read.
-/

namespace MarginAccount.Json

open Document

/-- The values of an object without their names. -/
def Document.listed : Document → Document
  | .object members => .array (members.map (·.2))
  | d => d

namespace Record

variable {α β : Type} {members : List (Option String × Document)} {items rest values : List Document}
  {name : String} {d : Document} {read : Document → Decoded α} {P Q : Prop} {a : α} {f : α → β}
  {r x : Record α} {g : Record (α → β)}

/-! ## Objects that are read -/

theorem combine_eq_ok {y : Except Misread (α → β)} {z : Except Misread α} {b : β} :
    combine y z = .ok b ↔ ∃ f a, y = .ok f ∧ z = .ok a ∧ f a = b := by
  cases y <;> cases z <;> simp [combine]

theorem run_seq_eq_ok {b : β} :
    (g <*> x).run members = .ok b ↔
      ∃ f a, g.run members = .ok f ∧ x.run members = .ok a ∧ f a = b :=
  combine_eq_ok

theorem run_map_eq_ok {b : β} :
    (f <$> x).run members = .ok b ↔ ∃ a, x.run members = .ok a ∧ f a = b := by
  change combine (.ok f) (x.run members) = .ok b ↔ _
  rw [combine_eq_ok]
  simp

theorem run_seqLeft_eq_ok {x : Record β} :
    (r <* x).run members = .ok a ↔ r.run members = .ok a ∧ ∃ b, x.run members = .ok b := by
  change (Function.const β <$> r <*> x).run members = .ok a ↔ _
  rw [run_seq_eq_ok]
  constructor
  · rintro ⟨_, b, hr, hx, rfl⟩
    obtain ⟨a, ha, rfl⟩ := run_map_eq_ok.1 hr
    exact ⟨ha, b, hx⟩
  · rintro ⟨hr, b, hx⟩
    exact ⟨_, b, run_map_eq_ok.2 ⟨a, hr, rfl⟩, hx, rfl⟩

theorem located_eq_ok {place : ℕ} {y : Decoded α} : located place y = .ok a ↔ y = .ok a := by
  cases y <;> simp [located]

/-- What the first member of a name holds. -/
def valueOf (name : String) (members : List (Option String × Document)) : Option Document :=
  members[placeOf name members]?.map (·.2)

theorem run_memberBy_eq_ok : (memberBy name read).run members = .ok a ↔
    ∃ d, valueOf name members = some d ∧ read d = .ok a := by
  change located _ ((valueOf name members).elim unreadable read) = .ok a ↔ _
  rw [located_eq_ok]
  cases valueOf name members with
  | none => simp [unreadable, Outcome.refuse]
  | some d => simp

theorem run_clean
    {wrong : List (Option String × Document) → (Option String × Document) × ℕ → Bool} :
    (clean wrong).run members = .ok () ↔ ∀ m ∈ members.zipIdx, wrong members m = false := by
  change (if members.zipIdx.findIdx (wrong members) < members.length then _ else _) = _ ↔ _
  have hle : members.zipIdx.findIdx (wrong members) ≤ members.zipIdx.length := List.findIdx_le_length
  rw [← List.findIdx_eq_length, List.length_zipIdx]
  rw [List.length_zipIdx] at hle
  split
  · rename_i hlt
    exact iff_of_false nofun hlt.ne
  · rename_i hge
    exact iff_of_true rfl (hle.antisymm (not_lt.1 hge))

theorem read_object_eq_ok : r.read (.object members) = .ok a ↔ r.run members = .ok a ∧
    (unrepeated r.names).run members = .ok () ∧ intact.run members = .ok () := by
  have hmatch : r.read (.object members) = .ok a ↔
      (r <* unrepeated r.names <* intact).run members = .ok a := by
    rw [Record.read]
    cases (r <* unrepeated r.names <* intact).run members <;> simp [pure, Except.pure]
  have hunit (check : Record Unit) : (∃ b, check.run members = .ok b) ↔ check.run members = .ok () :=
    ⟨fun ⟨⟨⟩, h⟩ ↦ h, fun h ↦ ⟨(), h⟩⟩
  rw [hmatch, run_seqLeft_eq_ok, run_seqLeft_eq_ok, hunit, hunit, and_assoc]

/-- Plain members all have names, and none of them goes wrong. -/
theorem run_intact (h : MembersArePlain members) : intact.run members = .ok () := by
  refine run_clean.2 fun m hm ↦ ?_
  obtain ⟨hname, hvalue⟩ := membersArePlain_iff.1 h m.1 (List.fst_mem_of_mem_zipIdx hm)
  change (m.1.1.isNone || !m.1.2.isWhole) = false
  rw [isWhole_of_isPlain _ hvalue, Option.isNone_eq_false_iff.2 hname]
  rfl

/-! ## Names that are written again -/

/-- The member at a place has the name. -/
def WrittenAt (name : String) (members : List (Option String × Document)) (place : ℕ) : Prop :=
  members[place]?.map (·.1) = some (some name)

theorem placeOf_le {place : ℕ} (h : WrittenAt name members place) : placeOf name members ≤ place := by
  obtain ⟨member, hmember, hname⟩ := Option.map_eq_some_iff.1 h
  obtain ⟨hlt, rfl⟩ := List.getElem?_eq_some_iff.1 hmember
  by_contra hbefore
  have hother := List.not_of_lt_findIdx (not_le.1 hbefore)
  simp [hname] at hother

/-- An object is not read if it holds a name of the record in two places. -/
theorem eq_of_writtenAt {i j : ℕ} (h : r.read (.object members) = .ok a) (hname : name ∈ r.names)
    (hi : WrittenAt name members i) (hj : WrittenAt name members j) : i = j := by
  obtain ⟨-, hunrepeated, -⟩ := read_object_eq_ok.1 h
  have hfirst {place : ℕ} (hplace : WrittenAt name members place) : place = placeOf name members := by
    obtain ⟨member, hmember, hwritten⟩ := Option.map_eq_some_iff.1 hplace
    have hclean := run_clean.1 hunrepeated (member, place) (List.mem_zipIdx_iff_getElem?.2 hmember)
    have hall := List.any_eq_false.1 hclean name hname
    simp only [hwritten, beq_self_eq_true, Bool.true_and, decide_eq_true_eq, not_lt] at hall
    exact hall.antisymm (placeOf_le hplace)
  exact (hfirst hi).trans (hfirst hj).symm

/-! ## Arrays that are read -/

theorem takeBy_eq_ok : takeBy read items = .ok (a, rest) ↔ ∃ d, items = d :: rest ∧ read d = .ok a := by
  cases items with
  | nil => simp [takeBy, unreadable, Outcome.refuse]
  | cons d items =>
    simp only [takeBy, bind_eq_ok, pure_eq_ok, Prod.mk.injEq, List.cons.injEq]
    constructor
    · rintro ⟨_, hread, rfl, rfl⟩
      exact ⟨d, ⟨rfl, rfl⟩, hread⟩
    · rintro ⟨_, ⟨rfl, rfl⟩, hread⟩
      exact ⟨a, hread, rfl, rfl⟩

theorem take_seq_eq_ok {b : β} : (g <*> x).take items = .ok (b, rest) ↔
    ∃ f a between, g.take items = .ok (f, between) ∧ x.take between = .ok (a, rest) ∧ f a = b := by
  change (g.take items >>= fun first ↦ x.take first.2 >>= fun second ↦
    pure (first.1 second.1, second.2)) = .ok (b, rest) ↔ _
  simp only [bind_eq_ok, pure_eq_ok, Prod.mk.injEq, Prod.exists]
  constructor
  · rintro ⟨f, between, hf, a, _, ha, rfl, rfl⟩
    exact ⟨f, a, between, hf, ha, rfl⟩
  · rintro ⟨f, a, between, hf, ha, rfl⟩
    exact ⟨f, between, hf, a, rest, ha, rfl, rfl⟩

theorem take_map_eq_ok {b : β} :
    (f <$> x).take items = .ok (b, rest) ↔ ∃ a, x.take items = .ok (a, rest) ∧ f a = b := by
  change ((pure f : Record (α → β)) <*> x).take items = .ok (b, rest) ↔ _
  rw [take_seq_eq_ok]
  constructor
  · rintro ⟨_, a, _, hf, ha, rfl⟩
    obtain ⟨rfl, rfl⟩ := Prod.mk.inj (Except.ok.inj hf)
    exact ⟨a, ha, rfl⟩
  · rintro ⟨a, ha, rfl⟩
    exact ⟨f, a, items, rfl, ha, rfl⟩

/-- An array is read where its items are taken and none is left. -/
theorem read_array_eq_ok : r.read (.array items) = .ok a ↔ r.take items = .ok (a, []) := by
  rw [Record.read, bind_eq_ok]
  constructor
  · rintro ⟨⟨a', rest⟩, htake, h⟩
    cases rest with
    | nil => rw [htake, pure_eq_ok.1 h]
    | cons d rest => cases h
  · exact fun h ↦ ⟨_, h, rfl⟩

/-! ## What is ensured -/

/-- Whatever the record is collected from, the value has the property. -/
structure Ensures (r : Record α) (p : α → Prop) : Prop where
  run : ∀ members a, r.run members = .ok a → p a
  take : ∀ items a rest, r.take items = .ok (a, rest) → p a

namespace Ensures

variable {p : α → Prop} {q : β → Prop}

theorem top (r : Record α) : r.Ensures fun _ ↦ True := ⟨fun _ _ _ ↦ trivial, fun _ _ _ _ ↦ trivial⟩

theorem memberBy (h : ∀ d a, read d = .ok a → p a) : (memberBy name read).Ensures p where
  run members a hrun := by
    obtain ⟨d, -, hread⟩ := run_memberBy_eq_ok.1 hrun
    exact h d a hread
  take items a rest htake := by
    obtain ⟨d, -, hread⟩ := takeBy_eq_ok.1 htake
    exact h d a hread

theorem map (h : x.Ensures p) (hf : ∀ a, p a → q (f a)) : (f <$> x).Ensures q where
  run members b hrun := by
    obtain ⟨a, ha, rfl⟩ := run_map_eq_ok.1 hrun
    exact hf a (h.run members a ha)
  take items b rest htake := by
    obtain ⟨a, ha, rfl⟩ := take_map_eq_ok.1 htake
    exact hf a (h.take items a rest ha)

theorem seq {p' : (α → β) → Prop} (hg : g.Ensures p') (hx : x.Ensures p)
    (h : ∀ f a, p' f → p a → q (f a)) : (g <*> x).Ensures q where
  run members b hrun := by
    obtain ⟨f, a, hf, ha, rfl⟩ := run_seq_eq_ok.1 hrun
    exact h f a (hg.run members f hf) (hx.run members a ha)
  take items b rest htake := by
    obtain ⟨f, a, between, hf, ha, rfl⟩ := take_seq_eq_ok.1 htake
    exact h f a (hg.take items f between hf) (hx.take between a rest ha)

theorem seq_left (hg : g.Ensures fun f ↦ ∀ a, q (f a)) : (g <*> x).Ensures q :=
  hg.seq (.top x) fun _ a hf _ ↦ hf a

theorem of_read (h : r.Ensures p) (hread : r.read d = .ok a) : p a := by
  cases d with
  | object members => exact h.run members a (read_object_eq_ok.1 hread).1
  | array items => exact h.take items a [] (read_array_eq_ok.1 hread)
  | null | bool | number | string | garbled | broken => cases hread

end Ensures

/-! ## Records of written members -/

/-- From these members, and from these values at the start of an array, the record collects `a` where
`P` holds, and nothing where it does not. -/
structure Collects (r : Record α) (members : List (Option String × Document)) (values : List Document)
    (P : Prop) (a : α) : Prop where
  run_eq_ok : ∀ b, r.run members = .ok b ↔ P ∧ b = a
  take_eq_ok : ∀ rest b, r.take (values ++ rest) = .ok b ↔ P ∧ b = (a, rest)

theorem takeBy_cons_eq_ok (h : ReadsAs read d P a) (rest : List Document) (b : α × List Document) :
    takeBy read ([d] ++ rest) = .ok b ↔ P ∧ b = (a, rest) := by
  obtain ⟨b, rest'⟩ := b
  rw [List.singleton_append, takeBy_eq_ok, Prod.mk.injEq]
  simp only [List.cons.injEq]
  constructor
  · rintro ⟨_, ⟨rfl, rfl⟩, hread⟩
    obtain ⟨hP, rfl⟩ := (h.read_eq_ok b).1 hread
    exact ⟨hP, rfl, rfl⟩
  · rintro ⟨hP, rfl, rfl⟩
    exact ⟨d, ⟨rfl, rfl⟩, h.eq_ok hP⟩

theorem collects_memberBy (hname : valueOf name members = some d) (h : ReadsAs read d P a) :
    (memberBy name read).Collects members [d] P a where
  run_eq_ok b := by
    rw [run_memberBy_eq_ok, hname]
    simp [h.read_eq_ok]
  take_eq_ok := takeBy_cons_eq_ok h

theorem collects_optional [Codec α] {a? : Option α} (hname : valueOf name members = some d)
    (h : ReadsAs decode d P a?) : (optional name : Record (Option α)).Collects members [d] P a? where
  run_eq_ok b := by
    change located _ ((valueOf name members).elim _ decode) = .ok b ↔ _
    rw [located_eq_ok, hname, Option.elim_some, h.read_eq_ok]
  take_eq_ok := takeBy_cons_eq_ok h

namespace Collects

variable {values' : List Document}

theorem map (h : x.Collects members values P a) (f : α → β) :
    (f <$> x).Collects members values P (f a) where
  run_eq_ok b := by
    rw [run_map_eq_ok]
    constructor
    · rintro ⟨a', ha', rfl⟩
      obtain ⟨hP, rfl⟩ := (h.run_eq_ok a').1 ha'
      exact ⟨hP, rfl⟩
    · rintro ⟨hP, rfl⟩
      exact ⟨a, (h.run_eq_ok a).2 ⟨hP, rfl⟩, rfl⟩
  take_eq_ok rest b := by
    obtain ⟨b, rest'⟩ := b
    rw [take_map_eq_ok, Prod.mk.injEq]
    constructor
    · rintro ⟨a', ha', rfl⟩
      obtain ⟨hP, heq⟩ := (h.take_eq_ok rest _).1 ha'
      obtain ⟨rfl, rfl⟩ := Prod.mk.inj heq
      exact ⟨hP, rfl, rfl⟩
    · rintro ⟨hP, rfl, rfl⟩
      exact ⟨a, (h.take_eq_ok rest' _).2 ⟨hP, rfl⟩, rfl⟩

theorem seq (hg : g.Collects members values P f) (hx : x.Collects members values' Q a) :
    (g <*> x).Collects members (values ++ values') (P ∧ Q) (f a) where
  run_eq_ok b := by
    rw [run_seq_eq_ok]
    constructor
    · rintro ⟨f', a', hf', ha', rfl⟩
      obtain ⟨hP, rfl⟩ := (hg.run_eq_ok f').1 hf'
      obtain ⟨hQ, rfl⟩ := (hx.run_eq_ok a').1 ha'
      exact ⟨⟨hP, hQ⟩, rfl⟩
    · rintro ⟨⟨hP, hQ⟩, rfl⟩
      exact ⟨f, a, (hg.run_eq_ok f).2 ⟨hP, rfl⟩, (hx.run_eq_ok a).2 ⟨hQ, rfl⟩, rfl⟩
  take_eq_ok rest b := by
    obtain ⟨b, rest'⟩ := b
    rw [List.append_assoc, take_seq_eq_ok, Prod.mk.injEq]
    constructor
    · rintro ⟨f', a', between, hf', ha', rfl⟩
      obtain ⟨hP, hf⟩ := (hg.take_eq_ok _ _).1 hf'
      obtain ⟨rfl, rfl⟩ := Prod.mk.inj hf
      obtain ⟨hQ, ha⟩ := (hx.take_eq_ok _ _).1 ha'
      obtain ⟨rfl, rfl⟩ := Prod.mk.inj ha
      exact ⟨⟨hP, hQ⟩, rfl, rfl⟩
    · rintro ⟨⟨hP, hQ⟩, rfl, rfl⟩
      exact ⟨f, a, _, (hg.take_eq_ok _ _).2 ⟨hP, rfl⟩, (hx.take_eq_ok _ _).2 ⟨hQ, rfl⟩, rfl⟩

/-- One member more. -/
theorem member (hg : g.Collects members values P f) (h : ReadsAs read d Q a)
    (hname : valueOf name members = some d := by rfl) :
    (g <*> memberBy name read).Collects members (values ++ [d]) (P ∧ Q) (f a) :=
  hg.seq (collects_memberBy hname h)

/-- One member more, which may be missing. -/
theorem optional [Codec α] {a? : Option α} {g : Record (Option α → β)} {f : Option α → β}
    (hg : g.Collects members values P f) (h : ReadsAs decode d Q a?)
    (hname : valueOf name members = some d := by rfl) :
    (g <*> .optional name).Collects members (values ++ [d]) (P ∧ Q) (f a?) :=
  hg.seq (collects_optional hname h)

/-- A record reads back from members that are plain, none of them written twice. -/
theorem readsAs (h : r.Collects members values P a) (hplain : MembersArePlain members) (hPQ : P ↔ Q)
    (hnames : (unrepeated r.names).run members = .ok () := by rfl) :
    ReadsAs r.read (.object members) Q a := by
  refine ReadsAs.congr ⟨hplain, fun b ↦ ?_⟩ hPQ
  rw [read_object_eq_ok, h.run_eq_ok]
  exact and_iff_left ⟨hnames, run_intact hplain⟩

/-- It reads back from them and from their values alone. -/
theorem readsAs_both (h : r.Collects members values P a) (hplain : MembersArePlain members)
    (hPQ : P ↔ Q) (hnames : (unrepeated r.names).run members = .ok () := by rfl)
    (hvalues : members.map (·.2) = values := by rfl) :
    ReadsAs r.read (.object members) Q a ∧ ReadsAs r.read (listed (.object members)) Q a := by
  refine ⟨h.readsAs hplain hPQ hnames, ?_⟩
  have hitems : IsPlain (.array (members.map (·.2))) := arePlain_iff.2 fun d hd ↦ by
    obtain ⟨m, hm, rfl⟩ := List.mem_map.1 hd
    exact (membersArePlain_iff.1 hplain m hm).2
  refine ReadsAs.congr ⟨hitems, fun b ↦ ?_⟩ hPQ
  rw [listed, read_array_eq_ok, hvalues, ← List.append_nil values, h.take_eq_ok, Prod.mk.injEq]
  simp

end Collects

/-- The first member. -/
theorem collects_first (f : α → β) (h : ReadsAs read d P a)
    (hname : valueOf name members = some d := by rfl) :
    (f <$> memberBy name read).Collects members [d] P (f a) :=
  (collects_memberBy hname h).map f

end Record

end MarginAccount.Json
