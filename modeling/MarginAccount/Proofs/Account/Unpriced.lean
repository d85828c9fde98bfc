import MarginAccount.Proofs.Account.Repricing

/-! # Positions without a price

A position without a usable price takes no part in a valuation, and does not stop one either as long
as its balance fits a decimal. So the positions that count and have a price are valued on their own as
they are among the others: with the same figures, or with the same error. Those left out only show in
the count of unpriced positions (`Valuation.ofPositions_eq_of_quoted`).
-/

namespace MarginAccount

/-- The source answers that the token has no usable price. -/
def PriceSource.lacks (source : PriceSource) (token : TokenId) : Bool :=
  match source.usd? token with
  | .ok none => true
  | _ => false

theorem PriceSource.lacks_iff {source : PriceSource} {token : TokenId} :
    source.lacks token = true ↔ source.usd? token = .ok none := by
  rw [lacks]
  rcases source.usd? token with _ | _ | _ <;> simp

variable {prices : PriceSource} {policy : Policy} {p : Position} {positions : List Position}

/-! ## One position -/

namespace Position

variable {a : Appraisal}

/-- The position counts, and its token does not lack a price. -/
def isQuoted (p : Position) (prices : PriceSource) : Bool :=
  p.kind != .noValue && !prices.lacks p.token

/-- The position counts and holds something of a token that lacks a price. -/
def isUnpriced (p : Position) (prices : PriceSource) : Bool :=
  p.kind != .noValue && prices.lacks p.token && !p.isEmpty

theorem not_isUnpriced_of_isQuoted (h : p.isQuoted prices = true) : p.isUnpriced prices = false := by
  rw [isQuoted, Bool.and_eq_true, Bool.not_eq_true'] at h
  rw [isUnpriced, h.2, Bool.and_false, Bool.false_and]

/-- Positions without a dollar value are those whose balance fits a decimal and whose token lacks a
price. -/
theorem value_eq_none_iff :
    p.value prices = .ok none ↔ (∃ q, p.quantity? = some q) ∧ prices.lacks p.token = true := by
  rw [PriceSource.lacks_iff]
  constructor
  · intro h
    rw [value, bind_eq_ok] at h
    obtain ⟨q, hq, h⟩ := h
    rw [bind_eq_ok] at h
    obtain ⟨price?, hprice, h⟩ := h
    rw [Outcome.ofFaultable_eq_ok] at hprice
    cases price? with
    | none => exact ⟨⟨q, Outcome.ofOption_eq_ok.1 hq⟩, hprice⟩
    | some price =>
      obtain ⟨_, -, h⟩ := bind_eq_ok.1 h
      cases h
  · rintro ⟨⟨q, hq⟩, husd⟩
    rw [value, hq, husd]
    rfl

/-- A position that is not quoted is passed over, and counted if it is unpriced. -/
theorem appraise_of_not_isQuoted (hquantity : p.kind ≠ .noValue → ∃ q, p.quantity? = some q)
    (h : p.isQuoted prices = false) :
    p.appraise prices policy = .ok (if p.isUnpriced prices then .unpriced else .skipped) := by
  by_cases hk : p.kind = .noValue
  · have hnot : p.isUnpriced prices = false := by
      rw [isUnpriced, hk]
      rfl
    rw [appraise, if_pos hk, hnot]
    rfl
  · rw [isQuoted, bne_iff_ne.2 hk, Bool.true_and, Bool.not_eq_false'] at h
    rw [appraise, if_neg hk, value_eq_none_iff.2 ⟨hquantity hk, h⟩, isUnpriced, bne_iff_ne.2 hk, h]
    cases p.isEmpty <;> rfl

/-- What is counted are the unpriced positions. -/
theorem eq_unpriced_iff (h : p.appraise prices policy = .ok a) :
    a = .unpriced ↔ p.isUnpriced prices = true := by
  cases hquoted : p.isQuoted prices with
  | true =>
    obtain ⟨hk, hlacks⟩ : p.kind ≠ .noValue ∧ prices.lacks p.token = false := by
      simpa [isQuoted] using hquoted
    rw [not_isUnpriced_of_isQuoted hquoted]
    rw [appraise, if_neg hk, bind_eq_ok] at h
    obtain ⟨usd?, hvalue, h⟩ := h
    cases usd? with
    | none =>
      rw [(value_eq_none_iff.1 hvalue).2] at hlacks
      cases hlacks
    | some usd =>
      obtain ⟨_, -, h⟩ := bind_eq_ok.1 h
      cases h
      exact iff_of_false (fun h ↦ by cases h) Bool.false_ne_true
  | false =>
    have hquantity : p.kind ≠ .noValue → ∃ q, p.quantity? = some q := by
      intro hk
      rw [appraise, if_neg hk, bind_eq_ok] at h
      obtain ⟨usd?, hvalue, -⟩ := h
      obtain ⟨q, hq, -⟩ := value_eq_ok hvalue
      exact ⟨q, hq⟩
    rw [appraise_of_not_isQuoted hquantity hquoted] at h
    cases h
    cases p.isUnpriced prices <;> simp

end Position

/-! ## All positions -/

namespace Valuation

variable {v : Valuation} {appraisals xs ys : List Position.Appraisal}

/-- The count of unpriced positions stands beside the figures. -/
theorem ofTotal_eq_map (total : Contribution) (n m : ℕ) :
    ofTotal total n = (ofTotal total m).map fun v ↦ { v with unpriced := n } := by
  rw [ofTotal, ofTotal]
  cases total.weighted.sub? total.liabilities with
  | none => rfl
  | some effective =>
    dsimp only [Option.elim_some, bind, Except.bind]
    cases effective.sub? total.required with
    | none => rfl
    | some available =>
      dsimp only [Option.elim_some]
      cases effective.sub? total.requiredSetup <;> rfl

theorem count_unpriced (h : positions.mapM (·.appraise prices policy) = .ok appraisals) :
    appraisals.count .unpriced = positions.countP (·.isUnpriced prices) := by
  induction positions generalizing appraisals with
  | nil =>
    cases h
    rfl
  | cons p rest ih =>
    rw [List.mapM_cons] at h
    simp only [bind_eq_ok, pure_eq_ok] at h
    obtain ⟨a, ha, later, hlater, rfl⟩ := h
    rw [List.count_cons, List.countP_cons, ih hlater]
    congr 1
    refine if_congr ?_ rfl rfl
    rw [beq_iff_eq]
    exact Position.eq_unpriced_iff ha

/-- The valuation of appraised positions. -/
def ofAppraisals (xs : List Position.Appraisal) : Outcome ValuationError Valuation := do
  let total ← .ofRefusable (sumParts (xs.filterMap (·.part?)))
  .ofRefusable (ofTotal total (xs.count .unpriced))

theorem ofPositions_nil (positions : List Position) (prices : PriceSource) (policy : Policy) :
    ofPositions positions prices [] policy =
      positions.mapM (·.appraise prices policy) >>= ofAppraisals := by
  rw [ofPositions, mergeChanges_nil]
  rfl

/-- Appraisals with the same parts are summed to the same figures. -/
theorem ofAppraisals_eq_map (h : xs.filterMap (·.part?) = ys.filterMap (·.part?)) :
    ofAppraisals xs = (ofAppraisals ys).map fun v : Valuation ↦
      { v with unpriced := xs.count .unpriced } := by
  rw [ofAppraisals, ofAppraisals, h]
  cases sumParts (ys.filterMap (·.part?)) with
  | error e => rfl
  | ok total =>
    change Outcome.ofRefusable (ofTotal total _) = (Outcome.ofRefusable (ofTotal total _)).map _
    rw [ofTotal_eq_map total (xs.count .unpriced) (ys.count .unpriced)]
    cases ofTotal total (ys.count .unpriced) <;> rfl

theorem unpriced_of_ofAppraisals (h : ofAppraisals xs = .ok v) :
    v.unpriced = xs.count .unpriced := by
  obtain ⟨total, -, h⟩ := bind_eq_ok.1 h
  exact unpriced_of_ofTotal (Outcome.ofRefusable_eq_ok.1 h)

/-- Positions are valued as those that count and have a price are on their own, and the unpriced ones
are counted. -/
theorem ofPositions_eq_of_quoted
    (hquantity : ∀ p ∈ positions, p.kind ≠ .noValue → ∃ q, p.quantity? = some q) :
    ofPositions positions prices [] policy =
        (ofPositions (positions.filter (·.isQuoted prices)) prices [] policy).map (fun v ↦
          { v with unpriced := positions.countP (·.isUnpriced prices) }) ∧
      ∀ v, ofPositions (positions.filter (·.isQuoted prices)) prices [] policy = .ok v →
        v.unpriced = 0 := by
  have hparts := mapM_filter (f := fun p ↦ Position.appraise p prices policy)
    (g := Position.Appraisal.part?) (p := fun p ↦ Position.isQuoted p prices)
    fun p hp hkeep ↦ ⟨_, p.appraise_of_not_isQuoted (hquantity p hp) hkeep, by split <;> rfl⟩
  rw [ofPositions_nil, ofPositions_nil]
  cases hxs : positions.mapM (·.appraise prices policy) with
  | error e =>
    cases hys : (positions.filter (·.isQuoted prices)).mapM (·.appraise prices policy) with
    | error e' =>
      rw [hxs, hys] at hparts
      cases hparts
      exact ⟨rfl, fun _ h ↦ by cases h⟩
    | ok ys =>
      rw [hxs, hys] at hparts
      cases hparts
  | ok xs =>
    cases hys : (positions.filter (·.isQuoted prices)).mapM (·.appraise prices policy) with
    | error e' =>
      rw [hxs, hys] at hparts
      cases hparts
    | ok ys =>
      rw [hxs, hys] at hparts
      rw [← count_unpriced hxs]
      refine ⟨ofAppraisals_eq_map (Except.ok.inj hparts), fun v hv ↦ ?_⟩
      rw [unpriced_of_ofAppraisals hv, count_unpriced hys, List.countP_eq_zero]
      intro p hp
      rw [Position.not_isUnpriced_of_isQuoted (List.mem_filter.1 hp).2]
      exact Bool.false_ne_true

end Valuation

namespace Sample

/-- Beside the account that lends and borrows, a token that is registered but not held, and a position
that is only kept. -/
def mixed : List Position :=
  lent ++ [deposited 3 .zero 0, ⟨.ofTag 4, .ofTag 4, .clamp 5, 0, .noValue, .one⟩]

end Sample

namespace Valuation

open Sample

/-- Only the deposit has a price. The debt is counted as unpriced, and the empty position is not. -/
theorem ofPositions_mixed :
    mixed.filter (·.isQuoted (quoted .one .zero)) = [deposited 1 (.clamp 10) 0] ∧
      ∃ v, ofPositions [deposited 1 (.clamp 10) 0] (quoted .one .zero) [] .standard = .ok v ∧
        v.assets.value.toRat = 10 ∧ v.unpriced = 0 ∧
        ofPositions mixed (quoted .one .zero) [] .standard = .ok { v with unpriced := 1 } := by
  have hfilter : mixed.filter (·.isQuoted (quoted .one .zero)) = [deposited 1 (.clamp 10) 0] := by
    decide +kernel
  have hcount : mixed.countP (·.isUnpriced (quoted .one .zero)) = 1 := by decide +kernel
  have hquantity : ∀ p ∈ mixed, p.quantity?.isSome = true := by decide +kernel
  obtain ⟨heq, hnone⟩ := @ofPositions_eq_of_quoted (quoted .one .zero) .standard mixed
    fun p hp _ ↦ Option.isSome_iff_exists.1 (hquantity p hp)
  obtain ⟨v, hv, hassets⟩ : ∃ v, ofPositions [deposited 1 (.clamp 10) 0] (quoted .one .zero) []
      .standard = .ok v ∧ decide (v.assets.value.toRat = 10) = true := by
    apply exists_ok_of_any
    rw [ofPositions_of_sorted rfl (by decide +kernel)]
    decide +kernel
  rw [hfilter] at heq hnone
  rw [hv, hcount] at heq
  exact ⟨hfilter, v, hv, of_decide_eq_true hassets, hnone v hv, heq⟩

end Valuation

end MarginAccount
