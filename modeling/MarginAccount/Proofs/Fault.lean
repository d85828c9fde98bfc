import Mathlib
import MarginAccount.Fault

/-! # Computations that return, and those that do not

What is known of the parts of a computation that returned a value, and where one stopped that did
not. Each combinator of `Outcome` has one inversion for either end, and a chain of steps is taken
apart with them instead of being unfolded.
-/

namespace MarginAccount

section Except

variable {ε α β : Type}

theorem bind_eq_ok {x : Except ε α} {f : α → Except ε β} {b : β} :
    (x >>= f) = .ok b ↔ ∃ a, x = .ok a ∧ f a = .ok b := by
  cases x with
  | error e => exact ⟨fun h ↦ (by cases h), fun ⟨_, h, _⟩ ↦ (by cases h)⟩
  | ok a => exact ⟨fun h ↦ ⟨a, rfl, h⟩, fun ⟨_, h, h'⟩ ↦ (by cases h; exact h')⟩

/-- A chain stops at its first step, or after it. -/
theorem bind_eq_error {x : Except ε α} {f : α → Except ε β} {e : ε} :
    (x >>= f) = .error e ↔ x = .error e ∨ ∃ a, x = .ok a ∧ f a = .error e := by
  cases x with
  | error e' =>
    constructor
    · intro h
      cases h
      exact .inl rfl
    · rintro (h | ⟨_, h, _⟩)
      · cases h
        rfl
      · cases h
  | ok a =>
    constructor
    · exact fun h ↦ .inr ⟨a, rfl, h⟩
    · rintro (h | ⟨_, h, h'⟩)
      · cases h
      · cases h
        exact h'

theorem pure_eq_ok {a b : α} : (pure a : Except ε α) = .ok b ↔ a = b := by
  exact Except.ok.injEq a b ▸ Iff.rfl

/-- What is only checked is returned as it is. -/
theorem map_const_eq_ok {x : Except ε Unit} {a b : α} :
    (x.map fun _ ↦ a) = .ok b ↔ x = .ok () ∧ b = a := by
  cases x with
  | error e => exact ⟨fun h ↦ (by cases h), fun h ↦ (by cases h.1)⟩
  | ok u => exact ⟨fun h ↦ ⟨rfl, (Except.ok.inj h).symm⟩, fun h ↦ congrArg _ h.2.symm⟩

theorem ite_error_eq_ok {c : Prop} [Decidable c] {e : ε} {a b : α} :
    (if c then .ok a else .error e : Except ε α) = .ok b ↔ c ∧ b = a := by
  split
  · rename_i h
    exact ⟨fun h' ↦ ⟨h, (Except.ok.inj h').symm⟩, fun h' ↦ congrArg _ h'.2.symm⟩
  · rename_i h
    exact ⟨fun h' ↦ (by cases h'), fun h' ↦ absurd h'.1 h⟩

theorem ite_error_eq_error {c : Prop} [Decidable c] {e e' : ε} {a : α} :
    (if c then .ok a else .error e : Except ε α) = .error e' ↔ ¬c ∧ e' = e := by
  split
  · rename_i h
    exact ⟨fun h' ↦ (by cases h'), fun h' ↦ absurd h h'.1⟩
  · rename_i h
    exact ⟨fun h' ↦ ⟨h, (Except.error.inj h').symm⟩, fun h' ↦ congrArg _ h'.2.symm⟩

theorem elim_error_eq_ok {e : ε} {x : Option α} {a : α} :
    x.elim (.error e) (.ok : α → Except ε α) = .ok a ↔ x = some a := by
  cases x with
  | none => exact ⟨fun h ↦ (by cases h), fun h ↦ (by cases h)⟩
  | some b => exact ⟨fun h ↦ (by cases h; rfl), fun h ↦ (by cases h; rfl)⟩

theorem elim_error_eq_error {e e' : ε} {x : Option α} :
    x.elim (.error e) (.ok : α → Except ε α) = .error e' ↔ x = none ∧ e' = e := by
  cases x with
  | none => exact ⟨fun h ↦ ⟨rfl, (Except.error.inj h).symm⟩, fun h ↦ congrArg _ h.2.symm⟩
  | some b => exact ⟨fun h ↦ (by cases h), fun h ↦ (by cases h.1)⟩

theorem exists_ok_of_any {x : Except ε α} {P : α → Bool} (h : x.toOption.any P = true) :
    ∃ a, x = .ok a ∧ P a = true := by
  cases x with
  | error e => cases h
  | ok a => exact ⟨a, rfl, h⟩

/-- A list is mapped only if each element is, and then it holds their results. -/
theorem mapM_eq_ok {f : α → Except ε β} {as : List α} {bs : List β} (h : as.mapM f = .ok bs) :
    (∀ a ∈ as, ∃ b, f a = .ok b) ∧ bs = as.filterMap fun a ↦ (f a).toOption := by
  induction as generalizing bs with
  | nil =>
    rw [List.mapM_nil, pure_eq_ok] at h
    exact ⟨by simp, h.symm⟩
  | cons a as ih =>
    rw [List.mapM_cons, bind_eq_ok] at h
    obtain ⟨b, hb, h⟩ := h
    rw [bind_eq_ok] at h
    obtain ⟨bs', hbs, h⟩ := h
    rw [pure_eq_ok] at h
    obtain ⟨hall, hmap⟩ := ih hbs
    refine ⟨List.forall_mem_cons.2 ⟨⟨b, hb⟩, hall⟩, ?_⟩
    rw [← h, List.filterMap_cons, hb, hmap]
    rfl

/-- A list is mapped if each element is. -/
theorem mapM_of_forall_ok {f : α → Except ε β} {as : List α} (h : ∀ a ∈ as, ∃ b, f a = .ok b) :
    as.mapM f = .ok (as.filterMap fun a ↦ (f a).toOption) := by
  induction as with
  | nil => rfl
  | cons a as ih =>
    rw [List.forall_mem_cons] at h
    obtain ⟨⟨b, hb⟩, hrest⟩ := h
    rw [List.mapM_cons, hb, ih hrest, List.filterMap_cons, hb]
    rfl

/-- A list that is not mapped has an element at which it stopped. -/
theorem exists_of_mapM_eq_error {f : α → Except ε β} {as : List α} {e : ε}
    (h : as.mapM f = .error e) : ∃ a ∈ as, f a = .error e := by
  induction as with
  | nil => cases h
  | cons a as ih =>
    rw [List.mapM_cons, bind_eq_error] at h
    rcases h with h | ⟨b, -, h⟩
    · exact ⟨a, List.mem_cons_self, h⟩
    · rcases bind_eq_error.1 h with h | ⟨_, -, h⟩
      · obtain ⟨a', ha', h'⟩ := ih h
        exact ⟨a', List.mem_cons_of_mem _ ha', h'⟩
      · cases h

/-- Elements that are mapped to nothing that is kept may be left out: the list stops at the same error,
or the same is kept. -/
theorem mapM_filter {γ : Type} {f : α → Except ε β} {g : β → Option γ} {p : α → Bool} {as : List α}
    (h : ∀ a ∈ as, p a = false → ∃ b, f a = .ok b ∧ g b = none) :
    (as.mapM f).map (List.filterMap g) = ((as.filter p).mapM f).map (List.filterMap g) := by
  have hcons (a : α) (as : List α) : ((a :: as).mapM f).map (List.filterMap g) = (do
      let b ← f a
      let cs ← (as.mapM f).map (List.filterMap g)
      pure ((g b).toList ++ cs)) := by
    rw [List.mapM_cons]
    cases f a with
    | error e => rfl
    | ok b =>
      cases hbs : as.mapM f with
      | error e => rfl
      | ok bs =>
        change Except.ok (List.filterMap g (b :: bs)) = .ok ((g b).toList ++ bs.filterMap g)
        cases hg : g b with
        | none => rw [List.filterMap_cons_none hg, Option.toList_none, List.nil_append]
        | some c => rw [List.filterMap_cons_some hg, Option.toList_some, List.singleton_append]
  induction as with
  | nil => rfl
  | cons a as ih =>
    rw [List.forall_mem_cons] at h
    have ih := ih h.2
    rw [hcons, ih]
    cases hp : p a with
    | true => rw [List.filter_cons_of_pos hp, hcons]
    | false =>
      obtain ⟨b, hb, hg⟩ := h.1 hp
      rw [List.filter_cons_of_neg (by rw [hp]; exact Bool.false_ne_true), hb]
      change ((as.filter p).mapM f).map (List.filterMap g) >>= (fun cs ↦ pure ((g b).toList ++ cs)) = _
      rw [hg, Option.toList_none]
      exact bind_pure _

end Except

namespace Outcome

variable {ε δ α : Type} {a : α} {e : ε} {d : δ} {f : Fault}

theorem ofFaultable_eq_ok {x : Except Fault α} : (ofFaultable x : Outcome ε α) = .ok a ↔ x = .ok a := by
  cases x <;> simp

theorem ofRefusable_eq_ok {x : Except ε α} : ofRefusable x = .ok a ↔ x = .ok a := by
  cases x <;> simp

theorem ofOption_eq_ok {reason : ε} {x : Option α} : ofOption reason x = .ok a ↔ x = some a := by
  cases x with
  | none => exact ⟨fun h ↦ (by cases h), fun h ↦ (by cases h)⟩
  | some b => simp

theorem mapRefusal_eq_ok {g : ε → δ} {x : Outcome ε α} : mapRefusal g x = .ok a ↔ x = .ok a := by
  rcases x with (_ | _) | _
  · exact ⟨fun h ↦ (by cases h), fun h ↦ (by cases h)⟩
  · exact ⟨fun h ↦ (by cases h), fun h ↦ (by cases h)⟩
  · simp

/-! ## Faults -/

theorem ofFaultable_eq_fault {x : Except Fault α} :
    (ofFaultable x : Outcome ε α) = .error (.fault f) ↔ x = .error f := by
  cases x <;> simp

theorem ofRefusable_ne_fault (x : Except ε α) : ofRefusable x ≠ .error (.fault f) := by
  cases x <;> simp

theorem ofOption_ne_fault (reason : ε) (x : Option α) : ofOption reason x ≠ .error (.fault f) := by
  cases x <;> simp [refuse]

theorem mapRefusal_eq_fault {g : ε → δ} {x : Outcome ε α} :
    mapRefusal g x = .error (.fault f) ↔ x = .error (.fault f) := by
  rcases x with (_ | _) | _ <;> simp [mapRefusal]

/-! ## Refusals -/

theorem ofFaultable_ne_refused (x : Except Fault α) :
    (ofFaultable x : Outcome ε α) ≠ .error (.refused e) := by
  cases x <;> simp

theorem ofRefusable_eq_refused {x : Except ε α} :
    ofRefusable x = .error (.refused e) ↔ x = .error e := by
  cases x <;> simp

theorem ofOption_eq_refused {reason : ε} {x : Option α} :
    ofOption reason x = .error (.refused e) ↔ x = none ∧ reason = e := by
  cases x <;> simp [refuse]

theorem mapRefusal_eq_refused {g : ε → δ} {x : Outcome ε α} :
    mapRefusal g x = .error (.refused d) ↔ ∃ e, x = .error (.refused e) ∧ g e = d := by
  rcases x with (_ | _) | _ <;> simp [mapRefusal]

/-! ## One computation that may stop where another goes on -/

/-- The first computation is the second one, unless it ends with a fault that has a cause. -/
def SameUnless (cause : Fault → Prop) (x y : Outcome ε α) : Prop :=
  x = y ∨ ∃ f, cause f ∧ x = .error (.fault f)

namespace SameUnless

variable {β : Type} {cause : Fault → Prop} {x y : Outcome ε α}

theorem refl (x : Outcome ε α) : x.SameUnless cause x := .inl rfl

/-- If the first steps go the same way, so do the steps after them. -/
theorem bind {k k' : α → Outcome ε β} (h : x.SameUnless cause y)
    (hk : ∀ a, (k a).SameUnless cause (k' a)) : (x >>= k).SameUnless cause (y >>= k') := by
  rcases h with rfl | ⟨f, hcause, rfl⟩
  · cases x with
    | error failure => exact .inl rfl
    | ok a => exact hk a
  · exact .inr ⟨f, hcause, rfl⟩

theorem mapM {g g' : β → Outcome ε α} {bs : List β}
    (h : ∀ b ∈ bs, (g b).SameUnless cause (g' b)) :
    SameUnless cause (bs.mapM g) (bs.mapM g') := by
  induction bs with
  | nil => exact .refl _
  | cons b bs ih =>
    rw [List.forall_mem_cons] at h
    rw [List.mapM_cons, List.mapM_cons]
    exact h.1.bind fun a ↦ (ih h.2).bind fun as ↦ .refl _

theorem mapRefusal {g : ε → δ} (h : x.SameUnless cause y) :
    (x.mapRefusal g).SameUnless cause (y.mapRefusal g) := by
  rcases h with rfl | ⟨f, hcause, rfl⟩
  · exact .refl _
  · exact .inr ⟨f, hcause, rfl⟩

end SameUnless

end Outcome

end MarginAccount
