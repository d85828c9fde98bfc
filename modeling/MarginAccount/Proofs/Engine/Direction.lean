import MarginAccount.Proofs.Account.WhatIf
import MarginAccount.Proofs.Engine.Liquidation

/-! # The direction of a projection

A client asks for a projection to learn whether a change is good for the account. Deposits that only
grow and claims that only shrink are, whatever tokens they are of, and the other way round; changes
of no value do not matter. `project_follows_changes` says which figures of the report follow always,
and what it takes for the others: they only fail to where quotients break ties apart.
-/

namespace MarginAccount

variable {e : Engine} {snapshot : Snapshot} {market : Market} {now : Timestamp}
  {changes : List Change} {report report' : Report} {account owner : Address}
  {slots : List Position} {held : Option Liquidation} {fetchedAt : Timestamp}

namespace Engine

/-- A projection values the positions with the changes landed, at the risk of that valuation. -/
theorem project_eq_ok (h : e.project snapshot market changes now = .ok report) :
    Valuation.ofPositions snapshot.positions (e.prices market now) changes e.settings.policy =
      .ok report.valuation ∧ report.valuation.risk = .ok report.risk := by
  obtain ⟨hvaluation, hrisk, -⟩ := Report.ofSnapshot_eq_ok_iff.1 h
  exact ⟨hvaluation, hrisk⟩

/-- Changes for the good of the account project it no worse than it evaluates, and changes against it
no better, ties apart. -/
theorem project_follows_changes (hpolicy : e.settings.policy.check = .ok ())
    (hsnapshot : Snapshot.ofSlots account owner slots held fetchedAt = .ok snapshot)
    (hchanges : ∀ c ∈ changes, checkModifier c.token c.kind c.modifier = .ok ())
    (h : e.evaluate snapshot market now = .ok report)
    (h' : e.project snapshot market changes now = .ok report') :
    ((∀ c ∈ changes, c.kind.Favours 0 c.delta.units) →
      Valuation.Improves (AnyTiesApart (Lands snapshot.positions changes) (e.prices market now))
        (AnySetupTiesApart (Lands snapshot.positions changes) (e.prices market now)
          e.settings.policy)
        report.valuation report'.valuation report.risk report'.risk) ∧
    ((∀ c ∈ changes, c.kind.Favours c.delta.units 0) →
      Valuation.Improves
        (AnyTiesApart (flip (Lands snapshot.positions changes)) (e.prices market now))
        (AnySetupTiesApart (flip (Lands snapshot.positions changes)) (e.prices market now)
          e.settings.policy)
        report'.valuation report.valuation report'.risk report.risk) := by
  obtain ⟨hvaluation, hrisk⟩ := project_eq_ok h
  obtain ⟨hvaluation', hrisk'⟩ := project_eq_ok h'
  have hpositions := check_of_checkPositions (Snapshot.checkPositions_of_ofSlots hsnapshot)
  constructor
  · exact Valuation.improves_of_favours hpositions hchanges hpolicy hvaluation hvaluation' hrisk
      hrisk'
  · exact Valuation.improves_of_burdens hpositions hchanges hpolicy hvaluation hvaluation' hrisk
      hrisk'

end Engine

/-! ## A leveraged account -/

namespace Sample

/-- Half of the debt is paid back, and twenty tokens are put in. -/
def relief : List Change :=
  [⟨.ofTag 2, .claim, 0, .lit 50 2, { units := -40 }⟩, ⟨.ofTag 1, .deposit, 0, .one, { units := 20 }⟩]

/-- As much is borrowed again, and twenty tokens are taken out. -/
def burden : List Change :=
  [⟨.ofTag 2, .claim, 0, .lit 50 2, { units := 40 }⟩, ⟨.ofTag 1, .deposit, 0, .one, { units := -20 }⟩]

/-- Ten deposited tokens, and 0.1267… owed, all 29 places of them, at a weight of sixteen hundredths that
is written with 27 places. -/
def lentDeep : Snapshot :=
  ⟨.ofTag 99, .ofTag 50, [⟨.ofTag 1, .ofTag 1, .clamp 10, 0, .deposit, .one⟩,
    ⟨.ofTag 2, .ofTag 2, .clamp 12676506002282294014967032104, -29, .claim,
      .lit 160000000000000000000000000 27⟩], none, ⟨0⟩⟩

/-- Sixteen deposited tokens, 63.38… owed, and a token of 28 places that is registered and empty. -/
def underwater : Snapshot :=
  ⟨.ofTag 99, .ofTag 50, [⟨.ofTag 1, .ofTag 1, .clamp 16, 0, .deposit, .one⟩,
    ⟨.ofTag 2, .ofTag 2, .clamp 633825300114114700748351605, -25, .claim, .one⟩,
    ⟨.ofTag 3, .ofTag 3, .clamp 0, -28, .deposit, .one⟩], none, ⟨0⟩⟩

/-- The last four units of the claim are paid back. -/
def lastUnits : List Change :=
  [⟨.ofTag 2, .claim, -29, .lit 160000000000000000000000000 27, { units := -4 }⟩]

end Sample

namespace Engine

open Sample

/-- Relief lowers the risk of a leveraged account and frees collateral, and a burden does neither. -/
theorem project_leveraged :
    ∃ report relieved burdened, engine.evaluate leveraged (owing .one) ⟨0⟩ = .ok report ∧
      engine.project leveraged (owing .one) relief ⟨0⟩ = .ok relieved ∧
      engine.project leveraged (owing .one) burden ⟨0⟩ = .ok burdened ∧
      (relieved.risk ≤ report.risk ∧ report.risk ≤ burdened.risk) ∧
      (burdened.valuation.available.value ≤ report.valuation.available.value ∧
        report.valuation.available.value ≤ relieved.valuation.available.value) ∧
      burdened.valuation.availableSetup.value ≤ report.valuation.availableSetup.value ∧
        report.valuation.availableSetup.value ≤ relieved.valuation.availableSetup.value := by
  obtain ⟨report, hreport, hweighted⟩ : ∃ report,
      engine.evaluate leveraged (owing .one) ⟨0⟩ = .ok report ∧
        decide (report.valuation.weighted.value = .lit 100) = true := by
    apply exists_ok_of_any
    rw [Engine.evaluate, Engine.project, Report.ofSnapshot,
      Valuation.ofPositions_of_sorted rfl (by decide +kernel)]
    decide +kernel
  obtain ⟨relieved, hrelieved, hweighted'⟩ : ∃ report,
      engine.project leveraged (owing .one) relief ⟨0⟩ = .ok report ∧
        decide (report.valuation.weighted.value = .lit 120) = true := by
    apply exists_ok_of_any
    rw [Engine.project, Report.ofSnapshot, Valuation.ofPositions_of_sorted rfl (by decide +kernel)]
    decide +kernel
  obtain ⟨burdened, hburdened, -⟩ : ∃ report,
      engine.project leveraged (owing .one) burden ⟨0⟩ = .ok report ∧ true = true := by
    apply exists_ok_of_any
    rw [Engine.project, Report.ofSnapshot, Valuation.ofPositions_of_sorted rfl (by decide +kernel)]
    decide +kernel
  have hpolicy : engine.settings.policy.check = .ok () := by decide
  have hsnapshot : Snapshot.ofSlots leveraged.account leveraged.owner leveraged.positions none ⟨0⟩ =
      .ok leveraged := by decide +kernel
  have hplaces : ∀ p ∈ leveraged.positions, -28 ≤ p.exponent.toInt := by decide +kernel
  have hshallow : ∀ p ∈ leveraged.positions, ∀ weight, ¬p.IsDeepAt weight :=
    fun p hp _ hdeep ↦ not_lt.2 (hplaces p hp) hdeep.places
  obtain ⟨hrelief, -⟩ := project_follows_changes hpolicy hsnapshot (by decide) hreport hrelieved
  obtain ⟨-, hburden⟩ := project_follows_changes hpolicy hsnapshot (by decide) hreport hburdened
  have himproved := hrelief (by decide)
  have hworsened := hburden (by decide)
  obtain ⟨hties, -⟩ := not_anyTiesApart fun p hp ↦ hshallow p hp p.modifier
  obtain ⟨-, hties'⟩ := not_anyTiesApart fun p hp ↦ hshallow p hp p.modifier
  obtain ⟨hsetup, -⟩ := not_anySetupTiesApart fun p hp weight _ ↦ hshallow p hp weight
  obtain ⟨-, hsetup'⟩ := not_anySetupTiesApart fun p hp weight _ ↦ hshallow p hp weight
  refine ⟨report, relieved, burdened, hreport, hrelieved, hburdened, ⟨?_, ?_⟩,
    ⟨hworsened.available hties', himproved.available hties⟩, hworsened.availableSetup hsetup',
    himproved.availableSetup hsetup⟩
  · refine (himproved.risk hties).2 (Valuation.not_riskTiesApart ?_)
    rw [of_decide_eq_true hweighted']
    decide
  · refine (hworsened.risk hties').2 (Valuation.not_riskTiesApart ?_)
    rw [of_decide_eq_true hweighted]
    decide

/-- The last units of a claim are less than a decimal has places for. Once they are paid back, the claim
is worth the same number with one more place, and its quotient breaks the tie upward: more is required,
less is available, and risk rises. -/
theorem requirement_grows_as_debt_is_repaid :
    engine.settings.policy.check = .ok () ∧
      Snapshot.ofSlots lentDeep.account lentDeep.owner lentDeep.positions none ⟨0⟩ = .ok lentDeep ∧
      (∀ c ∈ lastUnits, checkModifier c.token c.kind c.modifier = .ok () ∧
        c.kind.Favours 0 c.delta.units) ∧
      ∃ report report', engine.evaluate lentDeep (owing (.lit 10)) ⟨0⟩ = .ok report ∧
        engine.project lentDeep (owing (.lit 10)) lastUnits ⟨0⟩ = .ok report' ∧
        ¬report'.risk ≤ report.risk ∧
        ¬report'.valuation.required.value ≤ report.valuation.required.value ∧
        ¬report.valuation.available.value ≤ report'.valuation.available.value := by
  obtain ⟨report, hreport, hfigures⟩ : ∃ report,
      engine.evaluate lentDeep (owing (.lit 10)) ⟨0⟩ = .ok report ∧
        decide (report.valuation.required.value = .lit 7922816251426433759354395062 27 ∧
          report.valuation.available.value = .lit 809533148345336839148901728 27 ∧
          report.risk = .finite (.lit 9190466851654663160851098272 28)) = true := by
    apply exists_ok_of_any
    rw [Engine.evaluate, Engine.project, Report.ofSnapshot,
      Valuation.ofPositions_of_sorted rfl (by decide +kernel)]
    decide +kernel
  obtain ⟨report', hreport', hfigures'⟩ : ∃ report,
      engine.project lentDeep (owing (.lit 10)) lastUnits ⟨0⟩ = .ok report ∧
        decide (report.valuation.required.value = .lit 7922816251426433759354395063 27 ∧
          report.valuation.available.value = .lit 809533148345336839148901727 27 ∧
          report.risk = .finite (.lit 9190466851654663160851098273 28)) = true := by
    apply exists_ok_of_any
    rw [Engine.project, Report.ofSnapshot, Valuation.ofPositions_of_sorted rfl (by decide +kernel)]
    decide +kernel
  obtain ⟨hrequired, havailable, hrisk⟩ := of_decide_eq_true hfigures
  obtain ⟨hrequired', havailable', hrisk'⟩ := of_decide_eq_true hfigures'
  refine ⟨by decide, by decide +kernel, by decide, report, report', hreport, hreport', ?_, ?_, ?_⟩
  · rw [hrisk, hrisk']
    decide
  · rw [hrequired, hrequired']
    decide
  · rw [havailable, havailable']
    decide

/-- Without any such claim risk may still rise alone: a deposit of the smallest unit leaves the
collateral the number it was, with 27 places, and the quotient by it breaks the tie upward. -/
theorem risk_rises_with_dust :
    (∀ p ∈ underwater.positions, ∀ weight, ¬p.IsDeepAt weight) ∧
      ∃ report report',
        engine.evaluate underwater ((owing .one).setPrice (.ofTag 3) ⟨.one, 0, ⟨0⟩⟩) ⟨0⟩ = .ok report ∧
        engine.project underwater ((owing .one).setPrice (.ofTag 3) ⟨.one, 0, ⟨0⟩⟩)
          [⟨.ofTag 3, .deposit, -28, .one, { units := 1 }⟩] ⟨0⟩ = .ok report' ∧
        ¬report'.risk ≤ report.risk := by
  obtain ⟨report, hreport, hrisk⟩ : ∃ report,
      engine.evaluate underwater ((owing .one).setPrice (.ofTag 3) ⟨.one, 0, ⟨0⟩⟩) ⟨0⟩ = .ok report ∧
        decide (report.risk = .finite (.lit 7922816251426433759354395062 27)) = true := by
    apply exists_ok_of_any
    rw [Engine.evaluate, Engine.project, Report.ofSnapshot,
      Valuation.ofPositions_of_sorted rfl (by decide +kernel)]
    decide +kernel
  obtain ⟨report', hreport', hrisk'⟩ : ∃ report,
      engine.project underwater ((owing .one).setPrice (.ofTag 3) ⟨.one, 0, ⟨0⟩⟩)
          [⟨.ofTag 3, .deposit, -28, .one, { units := 1 }⟩] ⟨0⟩ = .ok report ∧
        decide (report.risk = .finite (.lit 7922816251426433759354395063 27)) = true := by
    apply exists_ok_of_any
    rw [Engine.project, Report.ofSnapshot, Valuation.ofPositions_of_sorted rfl (by decide +kernel)]
    decide +kernel
  have hplaces : ∀ p ∈ underwater.positions, -28 ≤ p.exponent.toInt := by decide +kernel
  refine ⟨fun p hp _ hdeep ↦ not_lt.2 (hplaces p hp) hdeep.places, report, report', hreport, hreport',
    ?_⟩
  rw [of_decide_eq_true hrisk, of_decide_eq_true hrisk']
  decide

end Engine

end MarginAccount
