import MarginAccount.Proofs.Fault
import MarginAccount.Account.Change
import MarginAccount.Trade.PoolView

/-! # Where a change lands

A change moves one position: the first that holds its token, or else a vacant one that it opens. Any
sum over the positions changes by what that one position adds before and after (`sum_land`), and
other tokens are found where they were.
-/

namespace MarginAccount

/-! ## Moved balances -/

theorem Balance.move_units {b : Balance} {d : Delta} (h₀ : 0 ≤ b.units + d.units)
    (hlt : b.units + d.units < 2 ^ 128) : ((b.move d).units : ℤ) = b.units + d.units := by
  change ((min (b.units + d.units).toNat (2 ^ 128 - 1) : ℕ) : ℤ) = _
  omega

/-- A balance that stays below the largest one has not been cut, and neither has one that grows. -/
theorem Balance.move_units_of_lt {b : Balance} {d : Delta} (hd : 0 ≤ d.units)
    (hlt : (b.move d).units < 2 ^ 128 - 1) : ((b.move d).units : ℤ) = b.units + d.units := by
  change min (b.units + d.units).toNat (2 ^ 128 - 1) < 2 ^ 128 - 1 at hlt
  change ((min (b.units + d.units).toNat (2 ^ 128 - 1) : ℕ) : ℤ) = _
  omega

/-- The position with nothing on it: what is left of it whatever its balance. -/
def Position.emptied (p : Position) : Position := { p with balance := .zero }

namespace Change

variable {c : Change} {p : Position} {ps ps' : List Position} {token : TokenId}

/-! ## The position that moves -/

/-- The position that a change opens, with nothing on it. -/
def vacant (c : Change) : Position where
  token := c.token
  address := .zero
  balance := .zero
  exponent := c.exponent
  kind := c.kind
  modifier := c.modifier

/-- The position that a change lands on. -/
def target (c : Change) (ps : List Position) : Position :=
  (findPosition? ps c.token).getD c.vacant

/-- The same position with its balance moved. -/
def landed (c : Change) (ps : List Position) : Position :=
  { c.target ps with balance := (c.target ps).balance.move c.delta }

theorem findPosition?_cons (p : Position) (ps : List Position) (token : TokenId) :
    findPosition? (p :: ps) token = if p.token = token then some p else findPosition? ps token := by
  rw [findPosition?, List.find?_cons]
  by_cases h : p.token = token
  · rw [beq_iff_eq.2 h, if_pos h]
  · rw [beq_eq_false_iff_ne.2 h, if_neg h]
    rfl

theorem token_of_findPosition? (h : findPosition? ps token = some p) : p.token = token :=
  beq_iff_eq.1 (List.find?_some (p := fun q : Position ↦ q.token == token) h)

theorem target_of_find (h : findPosition? ps c.token = some p) : c.target ps = p := by
  rw [target, h, Option.getD_some]

theorem target_of_not_find (h : findPosition? ps c.token = none) : c.target ps = c.vacant := by
  rw [target, h, Option.getD_none]

theorem target_cons_of_eq (h : p.token = c.token) : c.target (p :: ps) = p := by
  rw [target, findPosition?_cons, if_pos h, Option.getD_some]

theorem target_cons_of_ne (h : p.token ≠ c.token) : c.target (p :: ps) = c.target ps := by
  rw [target, findPosition?_cons, if_neg h, ← target]

theorem target_token (c : Change) (ps : List Position) : (c.target ps).token = c.token := by
  cases h : findPosition? ps c.token with
  | none =>
    rw [target_of_not_find h]
    rfl
  | some p =>
    rw [target_of_find h]
    exact token_of_findPosition? h

/-! ## What landing does -/

/-- Landing step by step: on the first position if it holds the token, else further on. -/
theorem land_cons_eq_ok (h : c.land (p :: ps) = .ok ps') :
    (p.token = c.token ∧ p.kind = c.kind ∧ ps' = c.landed (p :: ps) :: ps) ∨
      (p.token ≠ c.token ∧ ∃ qs, c.land ps = .ok qs ∧ ps' = p :: qs) := by
  rw [land] at h
  by_cases ht : p.token = c.token
  · rw [if_pos ht] at h
    by_cases hk : p.kind = c.kind
    · rw [if_pos hk, Except.ok.injEq] at h
      refine .inl ⟨ht, hk, ?_⟩
      rw [← h, landed, target_cons_of_eq ht]
    · rw [if_neg hk] at h
      cases h
  · rw [if_neg ht] at h
    cases hq : c.land ps with
    | error e =>
      rw [hq] at h
      cases h
    | ok qs =>
      rw [hq] at h
      cases h
      exact .inr ⟨ht, qs, rfl, rfl⟩

theorem landed_cons_of_ne (h : p.token ≠ c.token) : c.landed (p :: ps) = c.landed ps := by
  rw [landed, target_cons_of_ne h, ← landed]

/-- A change only lands on a position of its kind. -/
theorem target_kind (h : c.land ps = .ok ps') : (c.target ps).kind = c.kind := by
  induction ps generalizing ps' with
  | nil => rfl
  | cons p ps ih =>
    rcases land_cons_eq_ok h with ⟨ht, hk, -⟩ | ⟨ht, qs, hq, -⟩
    · rwa [target_cons_of_eq ht]
    · rw [target_cons_of_ne ht]
      exact ih hq

theorem landed_mem (h : c.land ps = .ok ps') : c.landed ps ∈ ps' := by
  induction ps generalizing ps' with
  | nil =>
    cases h
    exact List.mem_singleton_self _
  | cons p ps ih =>
    rcases land_cons_eq_ok h with ⟨ht, hk, rfl⟩ | ⟨ht, qs, hq, rfl⟩
    · exact List.mem_cons_self
    · rw [landed_cons_of_ne ht]
      exact List.mem_cons_of_mem _ (ih hq)

/-- A sum over the positions gains what the landed position adds beyond its target. A vacant
target adds nothing. -/
theorem sum_land (f : Position → ℚ) (hf : f c.vacant = 0) (h : c.land ps = .ok ps') :
    (ps'.map f).sum = (ps.map f).sum + (f (c.landed ps) - f (c.target ps)) := by
  induction ps generalizing ps' with
  | nil =>
    cases h
    change (List.map f [c.landed []]).sum = 0 + (f (c.landed []) - f c.vacant)
    rw [hf, List.map_singleton, List.sum_singleton]
    ring
  | cons p ps ih =>
    rcases land_cons_eq_ok h with ⟨ht, hk, rfl⟩ | ⟨ht, qs, hq, rfl⟩
    · rw [target_cons_of_eq ht, List.map_cons, List.map_cons, List.sum_cons, List.sum_cons]
      ring
    · rw [landed_cons_of_ne ht, target_cons_of_ne ht, List.map_cons, List.map_cons, List.sum_cons,
        List.sum_cons, ih hq]
      ring

/-- A change opens at most one position. -/
theorem length_land_le (h : c.land ps = .ok ps') : ps'.length ≤ ps.length + 1 := by
  induction ps generalizing ps' with
  | nil =>
    cases h
    exact le_rfl
  | cons p ps ih =>
    rcases land_cons_eq_ok h with ⟨ht, hk, rfl⟩ | ⟨ht, qs, hq, rfl⟩
    · exact Nat.le_succ _
    · exact Nat.succ_le_succ (ih hq)

/-- What does not depend on balances holds of all positions if it holds of the one that is opened. -/
theorem forall_land {P : Position → Prop} (hmove : ∀ p b, P p → P { p with balance := b })
    (hps : ∀ p ∈ ps, P p) (hc : P c.vacant) (h : c.land ps = .ok ps') : ∀ p ∈ ps', P p := by
  induction ps generalizing ps' with
  | nil =>
    cases h
    exact List.forall_mem_singleton.2 (hmove c.vacant _ hc)
  | cons p ps ih =>
    rw [List.forall_mem_cons] at hps
    rcases land_cons_eq_ok h with ⟨ht, hk, rfl⟩ | ⟨ht, qs, hq, rfl⟩
    · refine List.forall_mem_cons.2 ⟨?_, hps.2⟩
      rw [landed, target_cons_of_eq ht]
      exact hmove p _ hps.1
    · exact List.forall_mem_cons.2 ⟨hps.1, ih hps.2 hq⟩

/-- The other tokens are found where they were. -/
theorem findPosition?_land (h : c.land ps = .ok ps') (hne : token ≠ c.token) :
    findPosition? ps' token = findPosition? ps token := by
  induction ps generalizing ps' with
  | nil =>
    cases h
    rw [findPosition?_cons, if_neg (by exact hne.symm)]
  | cons p ps ih =>
    rcases land_cons_eq_ok h with ⟨ht, hk, rfl⟩ | ⟨ht, qs, hq, rfl⟩
    · have hlanded : (c.landed (p :: ps)).token = c.token := c.target_token (p :: ps)
      rw [findPosition?_cons, findPosition?_cons, if_neg (hlanded.trans_ne hne.symm),
        if_neg (ht.trans_ne hne.symm)]
    · rw [findPosition?_cons, findPosition?_cons, ih hq]

/-- The token itself is found where it has landed. -/
theorem findPosition?_land_self (h : c.land ps = .ok ps') :
    findPosition? ps' c.token = some (c.landed ps) := by
  induction ps generalizing ps' with
  | nil =>
    cases h
    rw [findPosition?_cons, if_pos (by rfl)]
    rfl
  | cons p ps ih =>
    rcases land_cons_eq_ok h with ⟨ht, hk, rfl⟩ | ⟨ht, qs, hq, rfl⟩
    · have hlanded : (c.landed (p :: ps)).token = c.token := c.target_token (p :: ps)
      rw [findPosition?_cons, if_pos hlanded]
    · rw [findPosition?_cons, if_neg ht, landed_cons_of_ne ht, ih hq]

/-- A change on a token that some position holds leaves everything of the positions but a balance. -/
theorem emptied_land (htoken : c.token ∈ ps.map (·.token)) (h : c.land ps = .ok ps') :
    ps'.map (·.emptied) = ps.map (·.emptied) := by
  induction ps generalizing ps' with
  | nil => cases htoken
  | cons p ps ih =>
    rcases land_cons_eq_ok h with ⟨ht, hk, rfl⟩ | ⟨ht, qs, hq, rfl⟩
    · rw [landed, target_cons_of_eq ht]
      rfl
    · have hrest := (List.mem_cons.1 htoken).resolve_left (Ne.symm ht)
      rw [List.map_cons, List.map_cons, ih hrest hq]

/-- A change only fails to land on a position of another kind. -/
theorem land_eq_error {reason : PositionError} (h : c.land ps = .error reason) :
    ∃ registered, registered ≠ c.kind ∧ reason = .kindMismatch c.token registered c.kind := by
  induction ps with
  | nil => cases h
  | cons p ps ih =>
    rw [land] at h
    split at h
    · split at h
      · cases h
      · rename_i hkind
        cases h
        exact ⟨p.kind, hkind, rfl⟩
    · cases hrest : c.land ps with
      | error reason' =>
        rw [hrest] at h
        cases h
        exact ih hrest
      | ok qs =>
        rw [hrest] at h
        cases h

end Change

/-! ## Merging -/

theorem mergeChanges_cons_eq_ok {c : Change} {cs : List Change} {ps merged : List Position} :
    mergeChanges ps (c :: cs) = .ok merged ↔
      ∃ landed, c.land ps = .ok landed ∧ mergeChanges landed cs = .ok merged := by
  rw [mergeChanges_cons]
  exact bind_eq_ok

theorem mergeChanges_singleton_eq_ok {c : Change} {ps merged : List Position} :
    mergeChanges ps [c] = .ok merged ↔ c.land ps = .ok merged := by
  rw [mergeChanges_cons_eq_ok]
  constructor
  · rintro ⟨landed, hland, ⟨⟩⟩
    exact hland
  · exact fun h ↦ ⟨merged, h, rfl⟩

theorem mergeChanges_eq_error {cs : List Change} {ps : List Position} {reason : PositionError}
    (h : mergeChanges ps cs = .error reason) : ∃ c ∈ cs, ∃ registered, registered ≠ c.kind ∧
      reason = .kindMismatch c.token registered c.kind := by
  induction cs generalizing ps with
  | nil => cases h
  | cons c cs ih =>
    rw [mergeChanges_cons] at h
    rcases bind_eq_error.1 h with h | ⟨landed, -, h⟩
    · exact ⟨c, List.mem_cons_self, Change.land_eq_error h⟩
    · obtain ⟨c', hc', hmismatch⟩ := ih h
      exact ⟨c', List.mem_cons_of_mem _ hc', hmismatch⟩

/-- Changes land one list after the other. -/
theorem mergeChanges_append {cs cs' : List Change} {ps merged : List Position}
    (h : mergeChanges ps cs = .ok merged) : mergeChanges ps (cs ++ cs') = mergeChanges merged cs' := by
  rw [mergeChanges, List.foldlM_append]
  change (mergeChanges ps cs).bind (mergeChanges · cs') = _
  rw [h]
  rfl

theorem map_eq_of_emptied {α : Type} {f : Position → α} (hf : ∀ p, f p.emptied = f p)
    {ps ps' : List Position} (h : ps'.map (·.emptied) = ps.map (·.emptied)) : ps'.map f = ps.map f := by
  have hmap : ∀ qs : List Position, qs.map f = (qs.map (·.emptied)).map f := fun qs ↦ by
    rw [List.map_map]
    exact List.map_congr_left fun p _ ↦ (hf p).symm
  rw [hmap, h, ← hmap]

/-- Changes on tokens that are all held leave everything of the positions but their balances. -/
theorem emptied_mergeChanges {cs : List Change} {ps merged : List Position}
    (htokens : ∀ c ∈ cs, c.token ∈ ps.map (·.token)) (h : mergeChanges ps cs = .ok merged) :
    merged.map (·.emptied) = ps.map (·.emptied) := by
  induction cs generalizing ps with
  | nil =>
    cases h
    rfl
  | cons c cs ih =>
    rw [List.forall_mem_cons] at htokens
    obtain ⟨landed, hland, h⟩ := mergeChanges_cons_eq_ok.1 h
    have hemptied := Change.emptied_land htokens.1 hland
    rw [← hemptied]
    refine ih ?_ h
    rw [map_eq_of_emptied (fun _ ↦ rfl) hemptied]
    exact htokens.2

theorem length_mergeChanges_le {cs : List Change} {ps merged : List Position}
    (h : mergeChanges ps cs = .ok merged) : merged.length ≤ ps.length + cs.length := by
  induction cs generalizing ps with
  | nil =>
    cases h
    exact le_rfl
  | cons c cs ih =>
    obtain ⟨landed, hland, h⟩ := mergeChanges_cons_eq_ok.1 h
    have hlanded := Change.length_land_le hland
    have hmerged := ih h
    rw [List.length_cons]
    omega

theorem forall_mergeChanges {P : Position → Prop} {cs : List Change} {ps merged : List Position}
    (hmove : ∀ p b, P p → P { p with balance := b }) (hps : ∀ p ∈ ps, P p)
    (hcs : ∀ c ∈ cs, P c.vacant) (h : mergeChanges ps cs = .ok merged) : ∀ p ∈ merged, P p := by
  induction cs generalizing ps with
  | nil =>
    cases h
    exact hps
  | cons c cs ih =>
    rw [List.forall_mem_cons] at hcs
    obtain ⟨landed, hland, h⟩ := mergeChanges_cons_eq_ok.1 h
    exact ih (Change.forall_land hmove hps hcs.1 hland) hcs.2 h

/-- Allowed weights stay allowed. -/
theorem check_of_mergeChanges {cs : List Change} {ps merged : List Position}
    (hps : ∀ p ∈ ps, p.check = .ok ())
    (hcs : ∀ c ∈ cs, checkModifier c.token c.kind c.modifier = .ok ())
    (h : mergeChanges ps cs = .ok merged) : ∀ p ∈ merged, p.check = .ok () :=
  forall_mergeChanges (fun _ _ hp ↦ hp) hps hcs h

end MarginAccount
