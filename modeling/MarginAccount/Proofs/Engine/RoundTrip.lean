import MarginAccount.Proofs.Account.Figures
import MarginAccount.Proofs.Json.Report

/-! # Reports that travel as text

A report that an engine returns is written as text and read by a client. What the client reads is
what the engine wrote, but for the part of a second that is left of a liquidation.
-/

namespace MarginAccount

/-! ## Whole seconds -/

namespace Duration

variable {d d' : Duration}

/-- The one duration is the other in whole seconds, off by less than one. -/
structure IsSecondsOf (d' d : Duration) : Prop where
  whole : 1000 ∣ d'.milliseconds
  near : (d'.milliseconds - d.milliseconds).natAbs < 1000

theorem isSecondsOf_wholeSeconds (d : Duration) : d.wholeSeconds.IsSecondsOf d where
  whole := Dvd.intro _ rfl
  near := by
    have hsplit := Int.mul_tdiv_add_tmod d.milliseconds 1000
    have hrest : (d.milliseconds.tmod 1000).natAbs < 1000 := by
      rw [Int.natAbs_tmod]
      exact Nat.mod_lt _ (by decide)
    change (1000 * d.milliseconds.tdiv 1000 - d.milliseconds).natAbs < 1000
    omega

namespace IsSecondsOf

/-- Nothing is lost of whole seconds. -/
theorem eq_of_dvd (h : d'.IsSecondsOf d) (hd : 1000 ∣ d.milliseconds) : d' = d := by
  have hwhole := h.whole
  have hnear := h.near
  cases d
  cases d'
  simp only [mk.injEq] at *
  omega

theorem neg_of_isNegative (h : d'.IsSecondsOf d) (hneg : d'.isNegative = true) :
    d.milliseconds < 0 := by
  have hwhole := h.whole
  have hnear := h.near
  simp only [isNegative, decide_eq_true_eq] at hneg
  omega

/-- A whole second past shows. -/
theorem isNegative_of_le (h : d'.IsSecondsOf d) (hd : d.milliseconds ≤ -1000) :
    d'.isNegative = true := by
  have hwhole := h.whole
  have hnear := h.near
  simp only [isNegative, decide_eq_true_eq]
  omega

end IsSecondsOf

end Duration

/-! ## What a report shows -/

section

variable {snapshot : Snapshot} {market : Market} {positions merged : List Position}
  {changes : List Change} {prices : PriceSource} {now : Timestamp} {policy : Policy}
  {report report' : Report} {e : Engine} {v : Valuation} {view : PoolView}

theorem Valuation.unpriced_le (h : ofPositions positions prices changes policy = .ok v)
    (hmerge : mergeChanges positions changes = .ok merged) : v.unpriced ≤ merged.length := by
  obtain ⟨appraisals, happraise, total, -, htotal⟩ := exists_appraisals h hmerge
  have hlength : appraisals.length ≤ merged.length := by
    rw [(mapM_eq_ok happraise).2]
    exact List.length_filterMap_le ..
  rw [unpriced_of_ofTotal htotal]
  exact List.count_le_length.trans hlength

/-- A view shows positions of the account. -/
theorem Pool.isAllowed_of_view {pool : Pool} {token : TokenId} {available : Usd}
    (hpositions : ∀ p ∈ positions, p.check = .ok ())
    (h : pool.view token positions market prices available policy = .ok view) : view.IsAllowed := by
  obtain ⟨-, hdeposit, hloan, -⟩ := Pool.view_eq_ok h
  constructor
  · intro p hp
    rw [hdeposit] at hp
    exact hpositions p (List.mem_of_find?_eq_some hp)
  · intro p hp
    rw [hloan] at hp
    exact hpositions p (List.mem_of_find?_eq_some hp)

namespace Engine

open Json

variable {l : Liquidation} {d : Duration}

theorem remaining_of_free (h : e.project snapshot market changes now = .ok report)
    (hfree : snapshot.liquidation = none) : report.remaining = none := by
  obtain ⟨-, -, -, -, hremaining, -⟩ := Report.ofSnapshot_eq_ok_iff.1 h
  rw [hfree, Option.mapM_none, pure_eq_ok] at hremaining
  exact hremaining.symm

theorem remaining_of_held (h : e.project snapshot market changes now = .ok report)
    (hl : snapshot.liquidation = some l) :
    ∃ d, l.remaining now = .ok d ∧ report.remaining = some d := by
  obtain ⟨-, -, -, -, hremaining, -⟩ := Report.ofSnapshot_eq_ok_iff.1 h
  rw [hl] at hremaining
  obtain ⟨d, hd, hsome⟩ := bind_eq_ok.1 hremaining
  exact ⟨d, hd, (pure_eq_ok.1 hsome).symm⟩

/-- What is left of a liquidation is a duration. -/
theorem remaining_inRange (h : e.project snapshot market changes now = .ok report)
    (hd : d ∈ report.remaining) : Duration.inRange d.milliseconds = true := by
  cases hl : snapshot.liquidation with
  | none =>
    rw [remaining_of_free h hl] at hd
    cases hd
  | some l =>
    obtain ⟨d', hd', hremaining⟩ := remaining_of_held h hl
    rw [hremaining, Option.mem_some_iff] at hd
    obtain ⟨hclock, rfl⟩ := Liquidation.remaining_eq_ok.1 hd'
    rw [← hd]
    exact hclock.left

/-- A report is read exactly if the positions that its pools show have allowed weights and the
unpriced ones can be counted with 32 bits. -/
theorem readText_eq_ok (h : e.project snapshot market changes now = .ok report) (report' : Report) :
    readText (writeText report) = .ok report' ↔
      (report.valuation.unpriced < 2 ^ 32 ∧ ∀ view ∈ report.pools.views, view.IsAllowed) ∧
        report' = report.written :=
  (readsAs_report fun _ hd ↦ remaining_inRange h hd).readText_eq_ok report'

/-- With allowed weights, in the account and in the changes, a report is read. -/
theorem exists_readText (h : e.project snapshot market changes now = .ok report)
    (hpositions : ∀ p ∈ snapshot.positions, p.check = .ok ())
    (hchanges : ∀ c ∈ changes, checkModifier c.token c.kind c.modifier = .ok ())
    (hfew : snapshot.positions.length + changes.length < 2 ^ 32) :
    ∃ report' : Report, readText (writeText report) = .ok report' := by
  obtain ⟨hvaluation, merged, hmerge, hpools⟩ := Report.ofSnapshot_eq_ok h
  have hchecks := check_of_mergeChanges hpositions hchanges hmerge
  have hunpriced : report.valuation.unpriced < 2 ^ 32 :=
    ((Valuation.unpriced_le hvaluation hmerge).trans (length_mergeChanges_le hmerge)).trans_lt hfew
  refine ⟨_, (readText_eq_ok h _).2 ⟨⟨hunpriced, fun view hview ↦ ?_⟩, rfl⟩⟩
  obtain ⟨pool, -, hpool⟩ := PoolViews.view_of_mem hpools hview
  exact Pool.isAllowed_of_view hchecks hpool

/-- A report whose unpriced positions can be counted with 32 bits reads back if the weights that it
shows are allowed. It reads back as it was, but for what is left of a liquidation: that comes back in
whole seconds. It is negative only if the liquidation had timed out, and is if that was a second
ago. -/
theorem report_reads_back (h : e.project snapshot market changes now = .ok report) :
    (report.valuation.unpriced < 2 ^ 32 →
      ((∃ report' : Report, readText (writeText report) = .ok report') ↔
        ∀ view ∈ report.pools.views, view.IsAllowed)) ∧
    ((∀ p ∈ snapshot.positions, p.check = .ok ()) →
      (∀ c ∈ changes, checkModifier c.token c.kind c.modifier = .ok ()) →
      snapshot.positions.length + changes.length < 2 ^ 32 →
      ∃ report' : Report, readText (writeText report) = .ok report') ∧
    ∀ report' : Report, readText (writeText report) = .ok report' →
      { report' with remaining := report.remaining } = report.plain ∧
      (snapshot.liquidation = none → report'.remaining = none) ∧
      ∀ l, snapshot.liquidation = some l → ∃ d d', report.remaining = some d ∧
        report'.remaining = some d' ∧ d'.IsSecondsOf d ∧
        (1000 ∣ d.milliseconds → d' = d) ∧
        (d'.isNegative = true → l.isTimedOut now = .ok true) ∧
        (d.milliseconds ≤ -1000 → d'.isNegative = true) := by
  refine ⟨fun hcount ↦ ?_, exists_readText h, fun report' hread ↦ ?_⟩
  · constructor
    · rintro ⟨report', hread⟩
      exact ((readText_eq_ok h report').1 hread).1.2
    · exact fun hshown ↦ ⟨_, (readText_eq_ok h _).2 ⟨⟨hcount, hshown⟩, rfl⟩⟩
  · obtain ⟨-, rfl⟩ := (readText_eq_ok h report').1 hread
    refine ⟨rfl, fun hfree ↦ ?_, fun l hl ↦ ?_⟩
    · rw [Report.written, remaining_of_free h hfree, Option.map_none]
    · obtain ⟨d, hd, hremaining⟩ := remaining_of_held h hl
      have hseconds := d.isSecondsOf_wholeSeconds
      refine ⟨d, d.wholeSeconds, hremaining, by rw [Report.written, hremaining, Option.map_some],
        hseconds, hseconds.eq_of_dvd, fun hneg ↦ ?_, hseconds.isNegative_of_le⟩
      rw [Liquidation.isTimedOut, hd]
      exact congrArg Except.ok (decide_eq_true (hseconds.neg_of_isNegative hneg))

end Engine

end

/-! ## A held account -/

namespace Sample

/-- The account with the pool, in the hands of the seventh address for the first minute. -/
def held : Snapshot := account.withLiquidation (some ⟨.ofTag 7, ⟨0⟩, 60⟩)

/-- A change made by hand, which opens a position with a weight of two. -/
def overweight : Change := ⟨pool.depositNote, .deposit, 0, .lit 2, { units := 100 }⟩

theorem evaluate_held (now : Timestamp)
    (hclock : (⟨.ofTag 7, ⟨0⟩, 60⟩ : Liquidation).HasClock now) :
    ∃ report, engine.evaluate held pricedMarket now = .ok report := by
  obtain ⟨report, hreport, -⟩ : ∃ report,
      engine.evaluate account pricedMarket ⟨0⟩ = .ok report ∧ true = true := by
    apply exists_ok_of_any
    rw [Engine.evaluate, Engine.project, Report.ofSnapshot,
      Valuation.ofPositions_of_sorted rfl (by decide +kernel)]
    decide +kernel
  exact (Engine.exists_evaluate_iff rfl).2
    ⟨⟨report, (Engine.evaluate_now rfl rfl).trans hreport⟩, hclock⟩

theorem project_overweight :
    ∃ report, engine.project unopened pricedMarket [overweight] ⟨0⟩ = .ok report ∧
      ∃ view ∈ report.pools.views, ¬view.IsAllowed := by
  obtain ⟨report, hreport, hshown⟩ : ∃ report,
      engine.project unopened pricedMarket [overweight] ⟨0⟩ = .ok report ∧
        decide (∃ view ∈ report.pools.views, ¬view.IsAllowed) = true := by
    apply exists_ok_of_any
    rw [Engine.project, Report.ofSnapshot,
      Valuation.ofPositions_of_sorted rfl (by decide +kernel)]
    decide +kernel
  exact ⟨report, hreport, of_decide_eq_true hshown⟩

end Sample

namespace Engine

open Json Sample

/-- After two seconds, whole seconds are left, and the report reads back as it was. -/
theorem report_of_held_reads_back :
    ∃ report report' : Report, engine.evaluate held pricedMarket ⟨2000⟩ = .ok report ∧
      readText (writeText report) = .ok report' ∧ report' = report.plain ∧
      report'.remaining = some ⟨58000⟩ := by
  obtain ⟨report, hreport⟩ := evaluate_held ⟨2000⟩ (by constructor <;> decide)
  obtain ⟨-, hallowed, hback⟩ := report_reads_back hreport
  obtain ⟨report', hread⟩ := hallowed (by decide +kernel) (by simp) (by decide +kernel)
  obtain ⟨hplain, -, hheld⟩ := hback report' hread
  obtain ⟨d, d', hremaining, hremaining', -, hwhole, -⟩ := hheld _ rfl
  obtain ⟨d₀, hd₀, hsome⟩ := remaining_of_held hreport rfl
  obtain rfl : d₀ = d := Option.some.inj (hsome.symm.trans hremaining)
  obtain ⟨-, rfl⟩ := Liquidation.remaining_eq_ok.1 hd₀
  obtain rfl := hwhole (by decide)
  refine ⟨report, report', hreport, hread, ?_, hremaining'⟩
  rw [← hplain, hremaining, ← hremaining']

/-- Half a second after the timeout nothing is left by what is read, and it is not the report that
was written. A report that shows a weight of two is not read at all. -/
theorem reports_change_or_fail :
    (Engine.start .standard = .ok engine ∧
      Snapshot.ofSlots held.account held.owner held.positions held.liquidation ⟨0⟩ = .ok held ∧
      ∃ report report' : Report, engine.evaluate held pricedMarket ⟨60500⟩ = .ok report ∧
        readText (writeText report) = .ok report' ∧ report' ≠ report ∧
        (∀ l ∈ held.liquidation, l.isTimedOut ⟨60500⟩ = .ok true) ∧
        ∀ d ∈ report'.remaining, d.isNegative = false) ∧
    ∃ report : Report, engine.project unopened pricedMarket [overweight] ⟨0⟩ = .ok report ∧
      ∀ report' : Report, readText (writeText report) ≠ .ok report' := by
  refine ⟨⟨by decide +kernel, by decide +kernel, ?_⟩, ?_⟩
  · obtain ⟨report, hreport⟩ := evaluate_held ⟨60500⟩ (by constructor <;> decide)
    obtain ⟨report', hread⟩ :=
      exists_readText hreport (by decide +kernel) (by simp) (by decide +kernel)
    obtain ⟨-, rfl⟩ := (readText_eq_ok hreport report').1 hread
    obtain ⟨d, hd, hremaining⟩ := remaining_of_held hreport rfl
    obtain ⟨-, rfl⟩ := Liquidation.remaining_eq_ok.1 hd
    have hwritten : report.written.remaining = some ⟨0⟩ := by
      change report.remaining.map (·.wholeSeconds) = _
      rw [hremaining]
      decide
    refine ⟨report, _, hreport, hread, fun heq ↦ ?_, by decide, ?_⟩
    · rw [heq, hremaining] at hwritten
      exact absurd hwritten (by decide)
    · rw [hwritten]
      decide
  · obtain ⟨report, hreport, view, hview, hweight⟩ := project_overweight
    refine ⟨report, hreport, fun report' hread ↦ hweight ?_⟩
    exact ((readText_eq_ok hreport report').1 hread).1.2 view hview

end Engine

end MarginAccount
