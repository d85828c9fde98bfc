import MarginAccount.Proofs.Account.Rearrangement

/-! # What merging makes of positions

Changes land one after the other, each on what the ones before it left. What they make of the
positions can be said without that order: a token is registered under one kind, changes of another
kind are refused, and otherwise the first position of each token moves by all changes to the token,
and a token without a position gets one (`mergeChanges_spec`). Both sides follow the list of
positions: what holds of the first position is taken off together with the changes to its token.
-/

namespace MarginAccount

variable {c : Change} {cs : List Change} {p : Position} {ps ps' : List Position} {token : TokenId}

/-! ## Moving by several changes -/

/-- Base units after changes, one after the other, which each stop at zero and at the largest
balance. -/
def movedUnits (units : ℤ) (cs : List Change) : ℤ :=
  cs.foldl (fun n c ↦ max 0 (min (n + c.delta.units) (2 ^ 128 - 1))) units

theorem Balance.move_units_eq (b : Balance) (d : Delta) :
    ((b.move d).units : ℤ) = max 0 (min (b.units + d.units) (2 ^ 128 - 1)) := by
  change ((min (b.units + d.units).toNat (2 ^ 128 - 1) : ℕ) : ℤ) = _
  omega

theorem Balance.clamp_units (b : Balance) : clamp b.units = b := by
  obtain ⟨units, hlt⟩ := b
  have h : min (units : ℤ).toNat (2 ^ 128 - 1) = units := by omega
  simpa [clamp] using h

namespace Position

/-- A position moved by the changes to its token. -/
def moved (p : Position) (cs : List Change) : Position :=
  { p with balance := .clamp (movedUnits p.balance.units (ofKey Change.token p.token cs)) }

theorem moved_congr {cs' : List Change}
    (h : ofKey Change.token p.token cs = ofKey Change.token p.token cs') :
    p.moved cs = p.moved cs' := by
  rw [moved, moved, h]

theorem moved_of_untouched (h : ∀ c ∈ cs, c.token ≠ p.token) : p.moved cs = p := by
  have hnil : ofKey Change.token p.token cs = [] :=
    List.filter_eq_nil_iff.2 fun c hc ↦ by simpa using h c hc
  rw [moved, hnil, movedUnits, List.foldl_nil, Balance.clamp_units]

theorem moved_cons_of_ne (h : c.token ≠ p.token) : p.moved (c :: cs) = p.moved cs :=
  moved_congr (ofKey_cons_of_ne h)

theorem moved_cons_of_eq (h : c.token = p.token) :
    p.moved (c :: cs) = { p with balance := p.balance.move c.delta : Position }.moved cs := by
  rw [moved, ofKey_cons_of_eq h, moved, movedUnits, List.foldl_cons, Balance.move_units_eq, movedUnits]

end Position

/-! ## Changes to other tokens -/

/-- The changes to other tokens. -/
def otherThan (token : TokenId) (cs : List Change) : List Change := cs.filter fun c ↦ c.token ≠ token

theorem otherThan_cons_of_eq (h : c.token = token) : otherThan token (c :: cs) = otherThan token cs :=
  List.filter_cons_of_neg (by simpa using h)

theorem otherThan_cons_of_ne (h : c.token ≠ token) :
    otherThan token (c :: cs) = c :: otherThan token cs :=
  List.filter_cons_of_pos (by simpa using h)

theorem mem_otherThan : c ∈ otherThan token cs ↔ c ∈ cs ∧ c.token ≠ token := by
  rw [otherThan, List.mem_filter, decide_eq_true_eq]

theorem ofKey_otherThan {other : TokenId} (h : token ≠ other) (cs : List Change) :
    ofKey Change.token token (otherThan other cs) = ofKey Change.token token cs := by
  rw [ofKey, otherThan, List.filter_filter]
  refine List.filter_congr fun c _ ↦ ?_
  by_cases hc : c.token = token
  · simp [hc, h]
  · simp [hc]

namespace Position

theorem moved_otherThan (h : p.token ≠ token) (cs : List Change) :
    p.moved (otherThan token cs) = p.moved cs :=
  moved_congr (ofKey_otherThan h cs)

theorem moved_otherThan_self (cs : List Change) : p.moved (otherThan p.token cs) = p :=
  moved_of_untouched fun _ hc ↦ (mem_otherThan.1 hc).2

end Position

/-! ## Tokens that are new -/

/-- The first change to each token. -/
def firstMentions (cs : List Change) : List Change :=
  cs.eraseDupsBy fun c c' ↦ c.token == c'.token

theorem firstMentions_cons (c : Change) (cs : List Change) :
    firstMentions (c :: cs) = c :: firstMentions (otherThan c.token cs) := by
  rw [firstMentions, List.eraseDupsBy_cons, firstMentions, otherThan]
  congr 2
  exact List.filter_congr fun c' _ ↦ by simp

theorem mem_of_mem_firstMentions (h : c ∈ firstMentions cs) : c ∈ cs := by
  -- the changes that follow a mention are fewer, though not the tail of the list
  induction hn : cs.length using Nat.strong_induction_on generalizing cs with
  | _ n ih =>
    cases cs with
    | nil => exact h
    | cons c' cs =>
      rw [firstMentions_cons, List.mem_cons] at h
      rcases h with rfl | h
      · exact List.mem_cons_self
      · have hlt : (otherThan c'.token cs).length < n := by
          rw [← hn, List.length_cons]
          exact Nat.lt_succ_of_le (List.length_filter_le ..)
        exact List.mem_cons_of_mem _ (mem_otherThan.1 (ih _ hlt h rfl)).1

/-- The first change to each token that no position holds. -/
def newcomers (ps : List Position) (cs : List Change) : List Change :=
  firstMentions (cs.filter fun c ↦ c.token ∉ ps.map (·.token))

theorem mem_of_mem_newcomers (h : c ∈ newcomers ps cs) : c ∈ cs :=
  (List.mem_filter.1 (mem_of_mem_firstMentions h)).1

theorem newcomers_nil (cs : List Change) : newcomers [] cs = firstMentions cs := by
  rw [newcomers, List.filter_eq_self.2]
  simp

theorem newcomers_cons (p : Position) (ps : List Position) (cs : List Change) :
    newcomers (p :: ps) cs = newcomers ps (otherThan p.token cs) := by
  rw [newcomers, newcomers, otherThan, List.filter_filter]
  congr 1
  refine List.filter_congr fun c _ ↦ ?_
  rw [← Bool.decide_and, decide_eq_decide, List.map_cons, List.mem_cons, not_or]
  exact and_comm

/-- The positions that changes open do not see the changes to a token that is not among them. -/
theorem map_moved_newcomers (ps : List Position) (token : TokenId) (cs : List Change) :
    ((newcomers ps (otherThan token cs)).map fun c ↦ c.vacant.moved (otherThan token cs)) =
      (newcomers ps (otherThan token cs)).map fun c ↦ c.vacant.moved cs :=
  List.map_congr_left fun _ hc ↦
    Position.moved_otherThan (mem_otherThan.1 (mem_of_mem_newcomers hc)).2 cs

/-! ## All positions -/

/-- The positions after the changes: the first of each token is moved and the others stay, and then
come the tokens that are new. -/
def withChanges (ps : List Position) (cs : List Change) : List Position :=
  (ps.mapIdx fun i p ↦ if p.token ∈ (ps.take i).map (·.token) then p else p.moved cs) ++
    (newcomers ps cs).map fun c ↦ c.vacant.moved cs

/-- The first change to a token that nothing holds opens a position, which takes the others to it. -/
theorem withChanges_nil_cons (c : Change) (cs : List Change) :
    withChanges [] (c :: cs) = c.vacant.moved (c :: cs) :: withChanges [] (otherThan c.token cs) := by
  have hrest := map_moved_newcomers [] c.token (c :: cs)
  rw [otherThan_cons_of_eq rfl, newcomers_nil] at hrest
  rw [withChanges, withChanges, newcomers_nil, newcomers_nil, firstMentions_cons, List.map_cons, hrest]
  rfl

/-- The first position takes the changes to its token, and the others do not see those. -/
theorem withChanges_cons (p : Position) (ps : List Position) (cs : List Change) :
    withChanges (p :: ps) cs = p.moved cs :: withChanges ps (otherThan p.token cs) := by
  have hrest : (ps.mapIdx fun i q ↦
      if q.token ∈ ((p :: ps).take (i + 1)).map (·.token) then q else q.moved cs) =
      ps.mapIdx fun i q ↦
        if q.token ∈ (ps.take i).map (·.token) then q else q.moved (otherThan p.token cs) := by
    refine List.mapIdx_eq_mapIdx_iff.2 fun i hi ↦ ?_
    rw [List.take_succ_cons, List.map_cons]
    by_cases hp : ps[i].token = p.token
    · rw [if_pos (List.mem_cons.2 (.inl hp)), ← hp, Position.moved_otherThan_self, ite_self]
    · rw [Position.moved_otherThan hp]
      exact ite_cond_congr (by rw [List.mem_cons, or_iff_right hp])
  rw [withChanges, withChanges, List.mapIdx_cons, hrest, newcomers_cons, map_moved_newcomers]
  rfl

theorem withChanges_no_changes (ps : List Position) : withChanges ps [] = ps := by
  induction ps with
  | nil => rfl
  | cons p ps ih =>
    rw [withChanges_cons, Position.moved_of_untouched fun c hc ↦ absurd hc List.not_mem_nil]
    exact congrArg (p :: ·) ih

/-- Landing a change first comes to the same. -/
theorem withChanges_land (h : c.land ps = .ok ps') :
    withChanges ps' cs = withChanges ps (c :: cs) := by
  induction ps generalizing ps' cs with
  | nil =>
    cases h
    rw [withChanges_cons, withChanges_nil_cons, Position.moved_cons_of_eq rfl]
    rfl
  | cons p ps ih =>
    rcases Change.land_cons_eq_ok h with ⟨ht, -, rfl⟩ | ⟨ht, qs, hq, rfl⟩
    · rw [withChanges_cons, withChanges_cons, otherThan_cons_of_eq ht.symm, Change.landed,
        Change.target_cons_of_eq ht, Position.moved_cons_of_eq ht.symm]
    · rw [withChanges_cons, withChanges_cons, otherThan_cons_of_ne (Ne.symm ht), ih hq,
        Position.moved_cons_of_ne (Ne.symm ht)]

/-! ## Registered kinds -/

/-- The kind a token is registered under: that of the first position that holds it, or else of the
first change to it. -/
def registeredKind? (ps : List Position) (cs : List Change) (token : TokenId) :
    Option PositionKind :=
  ((findPosition? ps token).map (·.kind)).or
    ((cs.find? fun c ↦ c.token = token).map (·.kind))

namespace Change

/-- The next change lands on a position of the registered kind. -/
theorem registeredKind?_self (c : Change) (ps : List Position) (cs : List Change) :
    registeredKind? ps (c :: cs) c.token = some (c.target ps).kind := by
  rw [registeredKind?, List.find?_cons_of_pos (by simp), target]
  cases findPosition? ps c.token <;> rfl

/-- What a change lands on keeps the kinds that were registered. -/
theorem registeredKind?_land (h : c.land ps = .ok ps') (token : TokenId) :
    registeredKind? ps' cs token = registeredKind? ps (c :: cs) token := by
  by_cases ht : token = c.token
  · subst ht
    rw [registeredKind?_self, registeredKind?, findPosition?_land_self h]
    rfl
  · rw [registeredKind?, registeredKind?, findPosition?_land h ht,
      List.find?_cons_of_neg (by simpa using Ne.symm ht)]

theorem exists_land_of_kind (h : (c.target ps).kind = c.kind) : ∃ ps', c.land ps = .ok ps' := by
  induction ps with
  | nil => exact ⟨_, rfl⟩
  | cons p ps ih =>
    rw [land]
    by_cases ht : p.token = c.token
    · rw [target_cons_of_eq ht] at h
      exact ⟨_, by rw [if_pos ht, if_pos h]⟩
    · rw [target_cons_of_ne ht] at h
      obtain ⟨qs, hqs⟩ := ih h
      exact ⟨p :: qs, by rw [if_neg ht, hqs]; rfl⟩

theorem land_of_kind_ne (h : (c.target ps).kind ≠ c.kind) :
    c.land ps = .error (.kindMismatch c.token (c.target ps).kind c.kind) := by
  induction ps with
  | nil => exact absurd rfl h
  | cons p ps ih =>
    rw [land]
    by_cases ht : p.token = c.token
    · rw [target_cons_of_eq ht] at h ⊢
      rw [if_pos ht, if_neg h]
    · rw [target_cons_of_ne ht] at h ⊢
      rw [if_neg ht, ih h]
      rfl

end Change

/-! ## Merging -/

/-- The first change of another kind than its token is registered under. -/
def firstMismatch? (ps : List Position) (cs : List Change) : Option Change :=
  cs.find? fun c ↦ registeredKind? ps cs c.token ≠ some c.kind

theorem firstMismatch?_eq_none : firstMismatch? ps cs = none ↔
    ∀ c ∈ cs, registeredKind? ps cs c.token = some c.kind := by
  simp [firstMismatch?]

theorem firstMismatch?_cons_of_ne (h : (c.target ps).kind ≠ c.kind) :
    firstMismatch? ps (c :: cs) = some c := by
  rw [firstMismatch?, List.find?_cons_of_pos]
  rw [c.registeredKind?_self]
  simpa using h

theorem firstMismatch?_land (h : c.land ps = .ok ps') :
    firstMismatch? ps (c :: cs) = firstMismatch? ps' cs := by
  have hkind := Change.target_kind h
  rw [firstMismatch?, List.find?_cons_of_neg, firstMismatch?]
  · simp only [Change.registeredKind?_land h]
  · rw [c.registeredKind?_self, hkind]
    simp

theorem mergeChanges_of_not_mismatch (h : firstMismatch? ps cs = none) :
    mergeChanges ps cs = .ok (withChanges ps cs) := by
  induction cs generalizing ps with
  | nil => rw [mergeChanges_nil, withChanges_no_changes]
  | cons c cs ih =>
    by_cases hkind : (c.target ps).kind = c.kind
    · obtain ⟨ps', hland⟩ := Change.exists_land_of_kind hkind
      rw [firstMismatch?_land hland] at h
      rw [← withChanges_land hland]
      exact mergeChanges_cons_eq_ok.2 ⟨ps', hland, ih h⟩
    · rw [firstMismatch?_cons_of_ne hkind] at h
      cases h

theorem mergeChanges_of_mismatch (h : firstMismatch? ps cs = some c) :
    ∃ registered, registeredKind? ps cs c.token = some registered ∧
      mergeChanges ps cs = .error (.kindMismatch c.token registered c.kind) := by
  induction cs generalizing ps with
  | nil => cases h
  | cons c' cs ih =>
    by_cases hkind : (c'.target ps).kind = c'.kind
    · obtain ⟨ps', hland⟩ := Change.exists_land_of_kind hkind
      rw [firstMismatch?_land hland] at h
      obtain ⟨registered, hregistered, hmerge⟩ := ih h
      rw [Change.registeredKind?_land hland] at hregistered
      refine ⟨registered, hregistered, ?_⟩
      rw [mergeChanges_cons, hland]
      exact hmerge
    · rw [firstMismatch?_cons_of_ne hkind] at h
      cases h
      refine ⟨_, c.registeredKind?_self ps cs, ?_⟩
      rw [mergeChanges_cons, Change.land_of_kind_ne hkind]
      rfl

/-- Changes merge exactly if each is of the kind its token is registered under, and then into the
positions with the changes. Otherwise the first one that is not is named, with both kinds. -/
theorem mergeChanges_spec (ps : List Position) (cs : List Change) :
    (∀ merged, mergeChanges ps cs = .ok merged ↔
      (∀ c ∈ cs, registeredKind? ps cs c.token = some c.kind) ∧ merged = withChanges ps cs) ∧
    (∀ reason, mergeChanges ps cs = .error reason ↔ ∃ c registered,
      firstMismatch? ps cs = some c ∧ registeredKind? ps cs c.token = some registered ∧
        reason = .kindMismatch c.token registered c.kind) := by
  rw [← firstMismatch?_eq_none]
  cases hmismatch : firstMismatch? ps cs with
  | none =>
    rw [mergeChanges_of_not_mismatch hmismatch]
    refine ⟨fun merged ↦ ?_, fun reason ↦ iff_of_false (fun h ↦ by cases h) ?_⟩
    · rw [and_iff_right rfl, Except.ok.injEq, eq_comm]
    · rintro ⟨c, registered, ⟨⟩, -⟩
  | some c =>
    obtain ⟨registered, hregistered, hmerge⟩ := mergeChanges_of_mismatch hmismatch
    rw [hmerge]
    refine ⟨fun merged ↦ iff_of_false (fun h ↦ by cases h) fun h ↦ (by cases h.1), fun reason ↦ ?_⟩
    constructor
    · rintro ⟨⟩
      exact ⟨c, registered, rfl, hregistered, rfl⟩
    · rintro ⟨_, registered', ⟨⟩, hregistered', rfl⟩
      rw [hregistered, Option.some.injEq] at hregistered'
      rw [hregistered']

open Sample in
/-- The second deposit of a token stays, a token is new once, and what is taken beyond zero is not
missing afterwards. -/
example : (withChanges [deposited 1 { units := 5 } 0, deposited 1 { units := 9 } 0]
    [⟨.ofTag 1, .deposit, 0, .one, { units := -2 ^ 127 }⟩,
      ⟨.ofTag 2, .claim, 0, .one, { units := 4 }⟩, ⟨.ofTag 1, .deposit, 0, .one, { units := 10 }⟩,
      ⟨.ofTag 2, .claim, 0, .one, { units := -1 }⟩]).map (·.balance.units) = [10, 9, 3] := by
  decide

end MarginAccount
