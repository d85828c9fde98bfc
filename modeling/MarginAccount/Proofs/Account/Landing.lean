import MarginAccount.Proofs.Account.Change
import MarginAccount.Proofs.Account.Gains

/-! # What becomes of each position

Changes move balances and open positions at the end of the list. They drop nothing, and they keep the
order. So the positions after a merge are the ones before it, each with some balance, and the ones
that were opened (`exists_landings`). Where every change moves its kind of position to one side, so
does every balance, however many of the changes land on it and wherever it is cut off.
-/

namespace MarginAccount

/-- A position after changes have landed, with the balance that it had before, none if they opened
it. -/
structure Landing where
  before : Option Balance
  after : Position

namespace Landing

/-- The position before the changes. -/
def origin? (l : Landing) : Option Position := l.before.map fun b ↦ { l.after with balance := b }

/-- The base units before the changes. -/
def unitsBefore (l : Landing) : ℤ := l.before.elim 0 fun b ↦ b.units

/-- The units before and after are in a relation that may depend on the kind. -/
def Related (R : PositionKind → ℤ → ℤ → Prop) (l : Landing) : Prop :=
  R l.after.kind l.unitsBefore l.after.balance.units

end Landing

variable {R : PositionKind → ℤ → ℤ → Prop} {ps merged : List Position} {c : Change}
  {cs : List Change}

/-- One more change lands on one of the positions or opens one. -/
theorem Change.exists_landings {landings : List Landing}
    (hmove : ∀ (n : ℤ) (b : Balance), R c.kind n b.units → R c.kind n (b.move c.delta).units)
    (hopen : R c.kind 0 0) (hrelated : ∀ l ∈ landings, l.Related R)
    (h : c.land (landings.map (·.after)) = .ok ps) :
    ∃ landings' : List Landing, landings'.filterMap (·.origin?) = landings.filterMap (·.origin?) ∧
      landings'.map (·.after) = ps ∧ ∀ l ∈ landings', l.Related R := by
  induction landings generalizing ps with
  | nil =>
    cases h
    exact ⟨[⟨none, c.opened⟩], rfl, rfl, List.forall_mem_singleton.2 (hmove 0 .zero hopen)⟩
  | cons l landings ih =>
    rw [List.forall_mem_cons] at hrelated
    rcases land_cons_eq_ok h with ⟨htoken, hkind, rfl⟩ | ⟨-, qs, hland, rfl⟩
    · refine ⟨⟨l.before, { l.after with balance := l.after.balance.move c.delta }⟩ :: landings, rfl,
        ?_, List.forall_mem_cons.2 ⟨?_, hrelated.2⟩⟩
      · rw [landed, target_cons_of_eq htoken]
        rfl
      · have hl : R l.after.kind l.unitsBefore l.after.balance.units := hrelated.1
        rw [hkind] at hl
        show R l.after.kind l.unitsBefore _
        rw [hkind]
        exact hmove _ _ hl
    · obtain ⟨landings', horigin, rfl, hrelated'⟩ := ih hrelated.2 hland
      refine ⟨l :: landings', ?_, rfl, List.forall_mem_cons.2 ⟨hrelated.1, hrelated'⟩⟩
      rw [List.filterMap_cons, List.filterMap_cons, horigin]

/-- After a merge each position is one of the positions before it, or was opened, and its balance has
gone where the changes went. -/
theorem exists_landings (hrefl : ∀ k n, R k n n)
    (hmove : ∀ c ∈ cs, ∀ (n : ℤ) (b : Balance),
      R c.kind n b.units → R c.kind n (b.move c.delta).units)
    (h : mergeChanges ps cs = .ok merged) :
    ∃ landings : List Landing, landings.filterMap (·.origin?) = ps ∧
      landings.map (·.after) = merged ∧ ∀ l ∈ landings, l.Related R := by
  have hrun : ∀ (landings : List Landing), (∀ l ∈ landings, l.Related R) →
      mergeChanges (landings.map (·.after)) cs = .ok merged →
      ∃ landings' : List Landing, landings'.filterMap (·.origin?) = landings.filterMap (·.origin?) ∧
        landings'.map (·.after) = merged ∧ ∀ l ∈ landings', l.Related R := by
    clear h
    induction cs with
    | nil =>
      rintro landings hrelated ⟨⟩
      exact ⟨landings, rfl, rfl, hrelated⟩
    | cons c cs ih =>
      intro landings hrelated h
      rw [List.forall_mem_cons] at hmove
      obtain ⟨landed, hland, h⟩ := mergeChanges_cons_eq_ok.1 h
      obtain ⟨landings', horigin, rfl, hrelated'⟩ :=
        Change.exists_landings hmove.1 (hrefl _ _) hrelated hland
      obtain ⟨landings'', horigin', hafter, hrelated''⟩ := ih hmove.2 landings' hrelated' h
      exact ⟨landings'', horigin'.trans horigin, hafter, hrelated''⟩
  -- at first nothing has landed
  let start : List Landing := ps.map fun p ↦ ⟨some p.balance, p⟩
  have hafter : start.map (·.after) = ps := by
    rw [List.map_map]
    exact List.map_id ps
  have horigin : start.filterMap (·.origin?) = ps := by
    rw [List.filterMap_map]
    exact List.filterMap_some
  have hstart : ∀ l ∈ start, l.Related R := List.forall_mem_map.2 fun p _ ↦ hrefl _ _
  obtain ⟨landings, horigin', hmerged, hrelated⟩ := hrun start hstart (by rwa [hafter])
  exact ⟨landings, horigin'.trans horigin, hmerged, hrelated⟩

/-! ## Which way balances go -/

namespace Balance

variable {b : Balance} {d : Delta} {kind : PositionKind}

theorem le_units_move (hd : 0 ≤ d.units) : (b.units : ℤ) ≤ (b.move d).units := by
  have hlt := b.units_lt
  change (b.units : ℤ) ≤ (min (b.units + d.units).toNat (2 ^ 128 - 1) : ℕ)
  omega

theorem units_move_le (hd : d.units ≤ 0) : ((b.move d).units : ℤ) ≤ b.units := by
  change ((min (b.units + d.units).toNat (2 ^ 128 - 1) : ℕ) : ℤ) ≤ b.units
  omega

theorem favours_move (hd : kind.Favours 0 d.units) :
    kind.Favours (b.units : ℤ) (b.move d).units where
  deposit hk := le_units_move (hd.deposit hk)
  claim hk := units_move_le (hd.claim hk)

theorem move_favours (hd : kind.Favours d.units 0) :
    kind.Favours ((b.move d).units : ℤ) b.units where
  deposit hk := units_move_le (hd.deposit hk)
  claim hk := le_units_move (hd.claim hk)

end Balance

/-- Changes for the good of the account leave every balance for its good. -/
theorem exists_landings_of_favours (hcs : ∀ c ∈ cs, c.kind.Favours 0 c.delta.units)
    (h : mergeChanges ps cs = .ok merged) :
    ∃ landings : List Landing, landings.filterMap (·.origin?) = ps ∧
      landings.map (·.after) = merged ∧ ∀ l ∈ landings, l.Related fun k n n' ↦ k.Favours n n' :=
  exists_landings .refl (fun c hc _ _ hb ↦ hb.trans (Balance.favours_move (hcs c hc))) h

/-- Changes against the account leave every balance against it. -/
theorem exists_landings_of_burdens (hcs : ∀ c ∈ cs, c.kind.Favours c.delta.units 0)
    (h : mergeChanges ps cs = .ok merged) :
    ∃ landings : List Landing, landings.filterMap (·.origin?) = ps ∧
      landings.map (·.after) = merged ∧ ∀ l ∈ landings, l.Related fun k n n' ↦ k.Favours n' n :=
  exists_landings .refl (fun c hc _ _ hb ↦ (Balance.move_favours (hcs c hc)).trans hb) h

end MarginAccount
