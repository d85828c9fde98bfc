import MarginAccount.Proofs.Account.Figures
import MarginAccount.Proofs.Engine.Report

/-! # Pool views against the valuation

The positions of an account are summed twice: once each for the valuation, and once by the notes of
the pools, where a look-up finds the first position of a token. The two sums agree on all that a
look-up finds (`Engine.pools_reconcile`). A position that stands behind another one of its token has
an address of its own, so a snapshot may hold it and the valuation counts it, and no pool shows it.
-/

namespace MarginAccount

section

variable {prices : PriceSource} {policy : Policy} {p : Position} {positions : List Position}
  {market : Market} {available : Usd} {pool : Pool} {token : TokenId} {view : PoolView}

/-! ## Notes of the market -/

namespace Market

/-- The pools of the listed tokens, as far as they are loaded. -/
def loaded (m : Market) : List Pool := m.tokens.filterMap m.pools.get?

def depositNotes (m : Market) : List TokenId := m.loaded.map (·.depositNote)

def loanNotes (m : Market) : List TokenId := m.loaded.map (·.loanNote)

/-- A position that a pool is behind: a deposit of deposit notes, or a claim for loan notes. -/
def Backs (m : Market) (p : Position) : Prop :=
  (p.kind = .deposit ∧ p.token ∈ m.depositNotes) ∨ (p.kind = .claim ∧ p.token ∈ m.loanNotes)

instance (m : Market) (p : Position) : Decidable (m.Backs p) := inferInstanceAs (Decidable (_ ∨ _))

variable {m : Market}

/-- Where no note is issued twice, the token of a position says what kind it is of. -/
theorem Backs.deposit_iff (h : m.Backs p) (hnotes : (m.depositNotes ++ m.loanNotes).Nodup) :
    p.kind = .deposit ↔ p.token ∈ m.depositNotes := by
  obtain ⟨-, -, hdisjoint⟩ := List.nodup_append.1 hnotes
  rcases h with ⟨hk, hmem⟩ | ⟨hk, hmem⟩
  · exact iff_of_true hk hmem
  · refine iff_of_false (by rw [hk]; decide) fun hmem' ↦ hdisjoint _ hmem' _ hmem rfl

theorem Backs.claim_iff (h : m.Backs p) (hnotes : (m.depositNotes ++ m.loanNotes).Nodup) :
    p.kind = .claim ↔ p.token ∈ m.loanNotes := by
  obtain ⟨-, -, hdisjoint⟩ := List.nodup_append.1 hnotes
  rcases h with ⟨hk, hmem⟩ | ⟨hk, hmem⟩
  · refine iff_of_false (by rw [hk]; decide) fun hmem' ↦ hdisjoint _ hmem _ hmem' rfl
  · exact iff_of_true hk hmem

end Market

/-! ## Positions that are found -/

namespace Position

/-- Another position of the same token stands before this one, and is found in its place. -/
def IsHidden (p : Position) (positions : List Position) : Prop :=
  findPosition? positions p.token ≠ some p

instance (p : Position) (positions : List Position) : Decidable (p.IsHidden positions) :=
  inferInstanceAs (Decidable (_ ≠ _))

/-- Among positions of distinct tokens none is hidden. -/
theorem not_isHidden (hp : p ∈ positions) (htokens : (positions.map (·.token)).Nodup) :
    ¬p.IsHidden positions := by
  rw [IsHidden, not_not]
  cases hfound : findPosition? positions p.token with
  | none =>
    have hnot := List.find?_eq_none.1 hfound p hp
    exact absurd (beq_iff_eq.2 rfl) hnot
  | some q =>
    have hq : q ∈ positions := List.mem_of_find?_eq_some hfound
    rw [List.inj_on_of_nodup_map htokens hq hp (Change.token_of_findPosition? hfound)]

end Position

/-! ## Sums of worth -/

/-- What positions are worth together. -/
def totalWorth (positions : List Position) (prices : PriceSource) : ℚ :=
  (positions.map fun p ↦ (p.worth prices).toRat).sum

/-- What the position is worth that a look-up finds. -/
def noteWorth (positions : List Position) (prices : PriceSource) (note : TokenId) : ℚ :=
  (findPosition? positions note).elim 0 fun p ↦ (p.worth prices).toRat

/-- What the positions of one kind are worth that no look-up finds. -/
def hiddenWorth (kind : PositionKind) (positions : List Position) (prices : PriceSource) : ℚ :=
  totalWorth (positions.filter fun p ↦ p.kind = kind ∧ p.IsHidden positions) prices

variable {kind : PositionKind} {notes : List TokenId}

/-- Distinct notes find the positions of these notes that are not hidden, each once. -/
theorem perm_found (hpositions : positions.Nodup) (hnotes : notes.Nodup)
    (hkind : ∀ p ∈ positions, p.kind = kind ↔ p.token ∈ notes) :
    (notes.filterMap (findPosition? positions)).Perm
      (positions.filter fun p ↦ p.kind = kind ∧ ¬p.IsHidden positions) := by
  refine (List.perm_ext_iff_of_nodup (hnotes.filterMap fun note note' p h h' ↦ ?_)
    (hpositions.filter _)).2 fun p ↦ ?_
  · exact (Change.token_of_findPosition? h).symm.trans (Change.token_of_findPosition? h')
  · rw [List.mem_filterMap, List.mem_filter, decide_eq_true_iff, Position.IsHidden, not_not]
    constructor
    · rintro ⟨note, hnote, hfound⟩
      obtain rfl := Change.token_of_findPosition? hfound
      have hp : p ∈ positions := List.mem_of_find?_eq_some hfound
      exact ⟨hp, (hkind p hp).2 hnote, hfound⟩
    · rintro ⟨hp, hk, hfound⟩
      exact ⟨p.token, (hkind p hp).1 hk, hfound⟩

theorem sum_noteWorth (notes : List TokenId) :
    (notes.map (noteWorth positions prices)).sum =
      totalWorth (notes.filterMap (findPosition? positions)) prices := by
  induction notes with
  | nil => rfl
  | cons note notes ih =>
    rw [List.map_cons, List.sum_cons, ih, List.filterMap_cons, noteWorth]
    cases findPosition? positions note with
    | none => rw [Option.elim_none, zero_add]
    | some p => rw [Option.elim_some, totalWorth, totalWorth, List.map_cons, List.sum_cons]

/-- The positions of one kind are worth what their notes find, and what no look-up finds. -/
theorem totalWorth_kind (hpositions : positions.Nodup) (hnotes : notes.Nodup)
    (hkind : ∀ p ∈ positions, p.kind = kind ↔ p.token ∈ notes) :
    totalWorth (positions.filter (·.kind = kind)) prices =
      (notes.map (noteWorth positions prices)).sum + hiddenWorth kind positions prices := by
  have hfound := ((perm_found hpositions hnotes hkind).map fun p ↦ (p.worth prices).toRat).sum_eq
  have hsplit := List.sum_map_ite (fun p : Position ↦ p.IsHidden positions)
    (fun p ↦ (p.worth prices).toRat) (fun p ↦ (p.worth prices).toRat)
    (positions.filter (·.kind = kind))
  simp only [ite_self, List.filter_filter] at hsplit
  rw [sum_noteWorth, totalWorth, totalWorth, hfound, hiddenWorth, totalWorth, hsplit, add_comm]
  simp only [Bool.decide_and, Bool.and_comm, decide_not]

/-- Nothing is missing from what is found exactly if all that is hidden is worth nothing. -/
theorem hiddenWorth_eq_zero_iff
    (hworth : ∀ p ∈ positions, p.kind ≠ .noValue → 0 ≤ (p.worth prices).toRat)
    (hkind : kind ≠ .noValue) :
    hiddenWorth kind positions prices = 0 ↔
      ∀ p ∈ positions, p.kind = kind → p.IsHidden positions → (p.worth prices).toRat = 0 := by
  rw [hiddenWorth, totalWorth]
  constructor
  · intro h p hp hk hhidden
    refine List.all_zero_of_le_zero_le_of_sum_eq_zero (fun x hx ↦ ?_) h
      (List.mem_map_of_mem (List.mem_filter.2 ⟨hp, decide_eq_true ⟨hk, hhidden⟩⟩))
    obtain ⟨q, hq, rfl⟩ := List.mem_map.1 hx
    obtain ⟨hmem, hq⟩ := List.mem_filter.1 hq
    exact hworth q hmem ((of_decide_eq_true hq).1.trans_ne hkind)
  · intro h
    refine List.sum_eq_zero fun x hx ↦ ?_
    obtain ⟨q, hq, rfl⟩ := List.mem_map.1 hx
    obtain ⟨hmem, hq⟩ := List.mem_filter.1 hq
    obtain ⟨hk, hhidden⟩ := of_decide_eq_true hq
    exact h q hmem hk hhidden

/-! ## What the valuation counts -/

/-- A deposit counts in the assets, a claim in the liabilities, both with what they are worth. -/
theorem Position.added_worth {a : Appraisal} (h : p.appraise prices policy = .ok a)
    (hp : p.check = .ok ()) :
    (p.added prices policy).assets.toRat =
        (if p.kind = .deposit then (p.worth prices).toRat else 0) ∧
      (p.added prices policy).liabilities.toRat =
        (if p.kind = .claim then (p.worth prices).toRat else 0) := by
  cases hk : p.kind with
  | noValue =>
    rw [added_of_noValue hk]
    exact ⟨Decimal.toRat_zero, Decimal.toRat_zero⟩
  | deposit =>
    obtain ⟨_, -, hadded⟩ := added_of_deposit h hk
    rw [hadded]
    exact ⟨rfl, Decimal.toRat_zero⟩
  | claim =>
    obtain ⟨_, _, -, -, -, hadded⟩ := added_of_claim h hk (modifier_pos hp hk).ne'
    rw [hadded]
    exact ⟨Decimal.toRat_zero, rfl⟩

theorem sum_kind (kind : PositionKind) (positions : List Position) :
    (positions.map fun p ↦ if p.kind = kind then (p.worth prices).toRat else 0).sum =
      totalWorth (positions.filter (·.kind = kind)) prices := by
  rw [List.sum_map_ite, List.map_const', List.sum_replicate, smul_zero, add_zero]
  rfl

namespace Valuation

variable {v : Valuation} {changes : List Change} {merged : List Position}

/-- Exact assets are what the deposits are worth, and exact liabilities what the claims are. -/
theorem totals_eq_totalWorth (h : ofPositions positions prices changes policy = .ok v)
    (hmerge : mergeChanges positions changes = .ok merged) (hexact : Exact merged prices policy)
    (hchecks : ∀ p ∈ merged, p.check = .ok ()) :
    v.assets.value.toRat = totalWorth (merged.filter (·.kind = .deposit)) prices ∧
      v.liabilities.value.toRat = totalWorth (merged.filter (·.kind = .claim)) prices := by
  have happraise := (ofPositions_eq_ok h hmerge).1
  have hassets := additive_sums Contribution.isAdditive_assets h hmerge hexact
  have hliabilities := additive_sums Contribution.isAdditive_liabilities h hmerge hexact
  rw [← sum_kind, ← sum_kind]
  constructor
  · refine hassets.trans (congrArg List.sum (List.map_congr_left fun p hp ↦ ?_))
    obtain ⟨a, ha⟩ := happraise p hp
    exact (Position.added_worth ha (hchecks p hp)).1
  · refine hliabilities.trans (congrArg List.sum (List.map_congr_left fun p hp ↦ ?_))
    obtain ⟨a, ha⟩ := happraise p hp
    exact (Position.added_worth ha (hchecks p hp)).2

end Valuation

/-! ## What the views show -/

theorem noteValue_eq_ok {p? : Option Position} {usd : Usd} (h : noteValue p? prices = .ok usd) :
    usd.value.toRat = p?.elim 0 fun p ↦ (p.worth prices).toRat := by
  cases p? with
  | none =>
    cases h
    exact Decimal.toRat_zero
  | some p =>
    simp only [noteValue, bind_eq_ok, pure_eq_ok] at h
    obtain ⟨usd?, hvalue, rfl⟩ := h
    rw [Option.elim_some, Position.worth_of_value hvalue]

/-- A view shows what the first positions of the notes are worth. -/
theorem Pool.view_values (h : pool.view token positions market prices available policy = .ok view) :
    view.depositValue.value.toRat = noteWorth positions prices pool.depositNote ∧
      view.loanValue.value.toRat = noteWorth positions prices pool.loanNote := by
  rw [Pool.view] at h
  simp only [bind_eq_ok, pure_eq_ok] at h
  obtain ⟨_, -, _, -, _, -, _, -, depositValue, hdeposit, loanValue, hloan, rfl⟩ := h
  exact ⟨noteValue_eq_ok hdeposit, noteValue_eq_ok hloan⟩

namespace PoolViews

variable {tokens : List TokenId} {views : PoolViews}

/-- The dollar value of the deposit notes that are shown. -/
def deposited (v : PoolViews) : ℚ := (v.views.map (·.depositValue.value.toRat)).sum

/-- The dollar value of the loan notes that are shown. -/
def lent (v : PoolViews) : ℚ := (v.views.map (·.loanValue.value.toRat)).sum

/-- What each view has of its pool, the views have of the loaded pools in order. -/
theorem map_views {α : Type} {f : PoolView → α} {g : Pool → α}
    (hfg : ∀ {pool token view},
      pool.view token positions market prices available policy = .ok view → f view = g pool)
    (h : ofTokens tokens positions market prices available policy = .ok views) :
    views.views.map f = (tokens.filterMap market.pools.get?).map g := by
  induction tokens generalizing views with
  | nil =>
    cases h
    rfl
  | cons token rest ih =>
    rw [ofTokens] at h
    cases hpool : market.pools.get? token with
    | none =>
      rw [hpool] at h
      simp only [bind_eq_ok, pure_eq_ok] at h
      obtain ⟨later, hlater, rfl⟩ := h
      rw [List.filterMap_cons_none hpool, ← ih hlater]
    | some pool =>
      rw [hpool] at h
      simp only [bind_eq_ok, pure_eq_ok] at h
      obtain ⟨first, hfirst, later, hlater, rfl⟩ := h
      rw [List.filterMap_cons_some hpool, List.map_cons, List.map_cons, hfg hfirst, ih hlater]

theorem deposited_eq_sum (h : ofMarket positions market prices available policy = .ok views) :
    views.deposited = (market.depositNotes.map (noteWorth positions prices)).sum := by
  rw [deposited, map_views (fun hview ↦ (Pool.view_values hview).1) h, Market.depositNotes,
    List.map_map]
  rfl

theorem lent_eq_sum (h : ofMarket positions market prices available policy = .ok views) :
    views.lent = (market.loanNotes.map (noteWorth positions prices)).sum := by
  rw [lent, map_views (fun hview ↦ (Pool.view_values hview).2) h, Market.loanNotes, List.map_map]
  rfl

end PoolViews

/-! ## Both sums -/

namespace Engine

variable {e : Engine} {snapshot : Snapshot} {now : Timestamp} {report : Report}
  {account owner : Address} {slots : List Position} {held : Option Liquidation}
  {fetchedAt : Timestamp}

/-- The pools of a report show what an exact valuation counts, but for the positions that stand
behind another one of their token. So the two agree exactly if those are worth nothing, and always
where each token is registered once. -/
theorem pools_reconcile (hslots : Snapshot.ofSlots account owner slots held fetchedAt = .ok snapshot)
    (hnotes : (market.depositNotes ++ market.loanNotes).Nodup)
    (hbacks : ∀ p ∈ snapshot.positions, market.Backs p)
    (h : e.evaluate snapshot market now = .ok report)
    (hexact : e.ValuationExact snapshot market [] now) :
    (report.valuation.assets.value.toRat = report.pools.deposited +
        hiddenWorth .deposit snapshot.positions (e.prices market now) ∧
      report.valuation.liabilities.value.toRat = report.pools.lent +
        hiddenWorth .claim snapshot.positions (e.prices market now)) ∧
    (report.pools.deposited = report.valuation.assets.value.toRat ↔
      ∀ p ∈ snapshot.positions, p.kind = .deposit → p.IsHidden snapshot.positions →
        (p.worth (e.prices market now)).toRat = 0) ∧
    (report.pools.lent = report.valuation.liabilities.value.toRat ↔
      ∀ p ∈ snapshot.positions, p.kind = .claim → p.IsHidden snapshot.positions →
        (p.worth (e.prices market now)).toRat = 0) ∧
    ((snapshot.positions.map (·.token)).Nodup →
      ∀ p ∈ snapshot.positions, ¬p.IsHidden snapshot.positions) := by
  obtain ⟨hvaluation, merged, hmerge, hpools⟩ := Report.ofSnapshot_eq_ok h
  have hself := mergeChanges_nil snapshot.positions
  obtain rfl := Except.ok.inj (hmerge.symm.trans hself)
  have hnodup := List.Nodup.of_map _ (Snapshot.nodup_of_ofSlots hslots)
  have hchecks := check_of_checkPositions (Snapshot.checkPositions_of_ofSlots hslots)
  have hexact := hexact _ hself
  obtain ⟨hassets, hliabilities⟩ :=
    Valuation.totals_eq_totalWorth hvaluation hself hexact hchecks
  obtain ⟨hdeposits, hloans, -⟩ := List.nodup_append.1 hnotes
  rw [totalWorth_kind hnodup hdeposits fun p hp ↦ (hbacks p hp).deposit_iff hnotes,
    ← PoolViews.deposited_eq_sum hpools] at hassets
  rw [totalWorth_kind hnodup hloans fun p hp ↦ (hbacks p hp).claim_iff hnotes,
    ← PoolViews.lent_eq_sum hpools] at hliabilities
  have hworth : ∀ p ∈ snapshot.positions, p.kind ≠ .noValue →
      0 ≤ (p.worth (e.prices market now)).toRat := fun p hp hk ↦ by
    obtain ⟨a, ha⟩ := (Valuation.ofPositions_eq_ok hvaluation hself).1 p hp
    exact Position.worth_nonneg ha hk
  refine ⟨⟨hassets, hliabilities⟩, ?_, ?_, fun htokens p hp ↦ Position.not_isHidden hp htokens⟩
  · rw [hassets, left_eq_add, hiddenWorth_eq_zero_iff hworth (by decide)]
  · rw [hliabilities, left_eq_add, hiddenWorth_eq_zero_iff hworth (by decide)]

end Engine

end

/-! ## Two addresses of one note -/

namespace Sample

/-- The pool of another token, with its own notes. -/
def otherPool : Pool :=
  { pool with
    token := .ofTag 11
    symbol := "ALT"
    depositNote := .ofTag 12
    loanNote := .ofTag 13 }

/-- Both pools, and a price of one dollar for each note. -/
def twoPools : Market :=
  { (market [pool.depositNote, pool.loanNote, otherPool.depositNote, otherPool.loanNote]).setPool
      otherPool with tokens := [pool.token, otherPool.token] }

/-- 50 more of the same deposit notes, at another address. -/
def secondDeposit : Position := { deposit with address := .ofTag 3, balance := { units := 50 } }

/-- Deposit notes at two addresses, loan notes, and deposit notes of the other pool. -/
def spread : Snapshot :=
  { account with
    positions := [deposit, loan, secondDeposit,
      { deposit with token := otherPool.depositNote, address := .ofTag 4 }] }

/-- Only deposit notes, at two addresses. -/
def split : Snapshot := { account with positions := [deposit, secondDeposit] }

end Sample

namespace Engine

open Sample

/-- Of 250 dollars of deposits the pools show 200, and the loan in full. -/
theorem pools_reconcile_of_spread : ∃ report,
    engine.evaluate spread twoPools ⟨0⟩ = .ok report ∧
      report.pools.deposited = 200 ∧ report.valuation.assets.value.toRat = 250 ∧
      hiddenWorth .deposit spread.positions (engine.prices twoPools ⟨0⟩) = 50 ∧
      report.pools.lent = report.valuation.liabilities.value.toRat := by
  obtain ⟨report, hreport, hshown⟩ : ∃ report, engine.evaluate spread twoPools ⟨0⟩ = .ok report ∧
      decide (report.pools.deposited = 200 ∧
        hiddenWorth .deposit spread.positions (engine.prices twoPools ⟨0⟩) = 50) = true := by
    apply exists_ok_of_any
    rw [Engine.evaluate, Engine.project, Report.ofSnapshot,
      Valuation.ofPositions_of_sorted rfl (by decide +kernel)]
    decide +kernel
  obtain ⟨hdeposited, hhidden⟩ := of_decide_eq_true hshown
  have hsnapshot : Snapshot.ofSlots spread.account spread.owner spread.positions none ⟨0⟩ =
      .ok spread := by decide +kernel
  have hexact : engine.ValuationExact spread twoPools [] ⟨0⟩ := by
    rintro merged ⟨⟩
    refine .of_sorted ?_ ?_ ?_ ?_ <;> decide +kernel
  obtain ⟨⟨hassets, -⟩, -, hlent, -⟩ := pools_reconcile hsnapshot (by decide +kernel)
    (by decide +kernel) hreport hexact
  refine ⟨report, hreport, hdeposited, ?_, hhidden, hlent.2 (by decide +kernel)⟩
  rw [hassets, hdeposited, hhidden]
  norm_num

/-- Deposit notes at two addresses are an accepted snapshot of distinct notes, nothing rounds, and
the pool shows 100 dollars of the 150 that the valuation counts. -/
theorem shown_falls_short_of_assets :
    Engine.start .standard = .ok engine ∧
      Snapshot.ofSlots split.account split.owner split.positions none ⟨0⟩ = .ok split ∧
      (notesMarket.depositNotes ++ notesMarket.loanNotes).Nodup ∧
      (∀ p ∈ split.positions, notesMarket.Backs p) ∧
      engine.ValuationExact split notesMarket [] ⟨0⟩ ∧
      ∃ report, engine.evaluate split notesMarket ⟨0⟩ = .ok report ∧
        report.pools.skipped = [] ∧ report.pools.deposited = 100 ∧
        report.valuation.assets.value.toRat = 150 := by
  refine ⟨by decide +kernel, by decide +kernel, by decide +kernel, by decide +kernel, ?_, ?_⟩
  · rintro merged ⟨⟩
    refine .of_sorted ?_ ?_ ?_ ?_ <;> decide +kernel
  · obtain ⟨report, hreport, hshown⟩ : ∃ report,
        engine.evaluate split notesMarket ⟨0⟩ = .ok report ∧
          decide (report.pools.skipped = [] ∧ report.pools.deposited = 100 ∧
            report.valuation.assets.value.toRat = 150) = true := by
      apply exists_ok_of_any
      rw [Engine.evaluate, Engine.project, Report.ofSnapshot,
        Valuation.ofPositions_of_sorted rfl (by decide +kernel)]
      decide +kernel
    exact ⟨report, hreport, of_decide_eq_true hshown⟩

end Engine

end MarginAccount
