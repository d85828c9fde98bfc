import MarginAccount.Proofs.Account.Change
import MarginAccount.Proofs.Account.Order
import MarginAccount.Proofs.Engine.Direction

/-! # Changes that have landed

A client projects changes before they land and evaluates the account once they have. Where every
change is on a registered token, the positions that it projects are those of the next snapshot, so
the two reports are one (`project_of_landed`), and so are the two of any changes that are still to
come.
-/

namespace MarginAccount

variable {account owner : Address} {slots merged : List Position} {held : Option Liquidation}
  {fetchedAt now : Timestamp} {snapshot landed : Snapshot} {changes later : List Change}
  {market : Market} {prices : PriceSource} {policy : Policy}

/-! ## The next snapshot -/

/-- What positions are checked for does not depend on their balances. -/
theorem checkPositions_emptied (seen : List Address) (positions : List Position) :
    checkPositions seen (positions.map (·.emptied)) = checkPositions seen positions := by
  induction positions generalizing seen with
  | nil => rfl
  | cons p ps ih =>
    rw [List.map_cons, checkPositions, checkPositions, ih]
    rfl

/-- Changes on registered tokens lead from a snapshot to a snapshot. -/
theorem Snapshot.ofSlots_mergeChanges
    (h : ofSlots account owner slots held fetchedAt = .ok snapshot)
    (htokens : ∀ c ∈ changes, c.token ∈ snapshot.positions.map (·.token))
    (hmerge : mergeChanges snapshot.positions changes = .ok merged) :
    ofSlots snapshot.account snapshot.owner merged snapshot.liquidation snapshot.fetchedAt =
      .ok { snapshot with positions := merged } := by
  obtain ⟨hlength, hcheck, rfl⟩ := ofSlots_eq_ok.1 h
  have hemptied := emptied_mergeChanges htokens hmerge
  have haddresses := map_eq_of_emptied (f := (·.address)) (fun _ ↦ rfl) hemptied
  -- nobody has moved to the zero address
  have hregistered : merged.filter (!·.address.isZero) = merged := by
    refine List.filter_eq_self.2 fun p hp ↦ ?_
    obtain ⟨q, hq, haddress⟩ := List.mem_map.1 (haddresses ▸ List.mem_map_of_mem hp)
    rw [← haddress]
    exact (List.mem_filter.1 hq).2
  rw [ofSlots_eq_ok, hregistered]
  refine ⟨?_, ?_, rfl⟩
  · rwa [← List.length_map, haddresses, List.length_map]
  · rwa [← checkPositions_emptied, hemptied, checkPositions_emptied]

/-! ## Reports before and after -/

theorem Valuation.ofPositions_append {positions : List Position}
    (hmerge : mergeChanges positions changes = .ok merged) :
    ofPositions positions prices (changes ++ later) policy =
      ofPositions merged prices later policy := by
  rw [ofPositions, mergeChanges_append hmerge, ← ofPositions]

/-- A report sees of positions and changes only where the changes leave the positions. -/
theorem Report.ofSnapshot_append (hmerge : mergeChanges snapshot.positions changes = .ok merged) :
    ofSnapshot snapshot market prices (changes ++ later) now policy =
      ofSnapshot { snapshot with positions := merged } market prices later now policy := by
  rw [ofSnapshot, ofSnapshot, Valuation.ofPositions_append hmerge, mergeChanges_append hmerge]
  rfl

namespace Engine

/-- Once changes on registered tokens can land, the account that they lead to is a snapshot, the same
but for its positions, and its report is the one that was projected: now, with further changes, at
any time, in any market and by any engine. -/
theorem project_of_landed
    (hsnapshot : Snapshot.ofSlots account owner slots held fetchedAt = .ok snapshot)
    (hregistered : ∀ c ∈ changes, ∃ p ∈ snapshot.positions, p.token = c.token)
    (hmerge : mergeChanges snapshot.positions changes = .ok merged) :
    ∃ landed : Snapshot,
      Snapshot.ofSlots snapshot.account snapshot.owner merged snapshot.liquidation
        snapshot.fetchedAt = .ok landed ∧
      landed = { snapshot with positions := merged } ∧
      (∀ (e : Engine) (market : Market) (later : List Change) (now : Timestamp),
        e.project snapshot market (changes ++ later) now = e.project landed market later now) ∧
      ∀ (e : Engine) (market : Market) (now : Timestamp),
        e.project snapshot market changes now = e.evaluate landed market now := by
  have htokens : ∀ c ∈ changes, c.token ∈ snapshot.positions.map (·.token) := fun c hc ↦
    List.mem_map.2 (hregistered c hc)
  have hproject : ∀ (e : Engine) (market : Market) (later : List Change) (now : Timestamp),
      e.project snapshot market (changes ++ later) now =
        e.project { snapshot with positions := merged } market later now := fun _ _ _ _ ↦
    Report.ofSnapshot_append hmerge
  refine ⟨_, Snapshot.ofSlots_mergeChanges hsnapshot htokens hmerge, rfl, hproject, ?_⟩
  intro e market now
  have hnone := hproject e market [] now
  rwa [List.append_nil] at hnone

open Sample in
/-- Once relief has landed, the burden is projected from the positions that it left, 120 deposited and
40 owed, as both were projected before. -/
theorem project_of_landed_relief :
    ∃ landed report, landed.positions.map (·.balance.units) = [120, 40] ∧
      Snapshot.ofSlots leveraged.account leveraged.owner landed.positions none ⟨0⟩ = .ok landed ∧
      engine.project leveraged (owing .one) (relief ++ burden) ⟨0⟩ = .ok report ∧
      engine.project landed (owing .one) burden ⟨0⟩ = .ok report ∧
      engine.project leveraged (owing .one) relief ⟨0⟩ =
        engine.evaluate landed (owing .one) ⟨0⟩ := by
  obtain ⟨merged, hmerge, hunits⟩ : ∃ merged, mergeChanges leveraged.positions relief = .ok merged ∧
      decide (merged.map (·.balance.units) = [120, 40]) = true := by
    apply exists_ok_of_any
    decide +kernel
  obtain ⟨report, hreport, -⟩ : ∃ report,
      engine.project leveraged (owing .one) (relief ++ burden) ⟨0⟩ = .ok report ∧ true = true := by
    apply exists_ok_of_any
    rw [Engine.project, Report.ofSnapshot, Valuation.ofPositions_of_sorted rfl (by decide +kernel)]
    decide +kernel
  have hsnapshot : Snapshot.ofSlots leveraged.account leveraged.owner leveraged.positions none ⟨0⟩ =
      .ok leveraged := by decide +kernel
  obtain ⟨landed, haccepted, rfl, hproject, hevaluate⟩ :=
    project_of_landed hsnapshot (by decide) hmerge
  refine ⟨_, report, of_decide_eq_true hunits, haccepted, hreport, ?_, hevaluate _ _ _⟩
  rw [← hproject]
  exact hreport

end Engine

end MarginAccount
