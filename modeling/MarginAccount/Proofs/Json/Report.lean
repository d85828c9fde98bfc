import MarginAccount.Json.Report
import MarginAccount.Proofs.Engine.Liquidation
import MarginAccount.Proofs.Json.Account

/-! # Reports that read back

A report is written as text and read back elsewhere. All of it comes back, the positions that a pool
shows through the same check as any position that is read, but what is left of a liquidation comes
back in whole seconds.
-/

namespace MarginAccount

/-! ## What is lost -/

/-- The duration without the part of a second. -/
def Duration.wholeSeconds (d : Duration) : Duration := ⟨1000 * d.seconds⟩

/-- The same limits, each unsigned if it is zero. -/
def TradeBounds.plain (b : TradeBounds) : TradeBounds where
  deposit := b.deposit.plain
  withdraw := b.withdraw.plain
  borrow := b.borrow.plain
  repay := b.repay.plain
  repayFromDeposit := b.repayFromDeposit.plain
  swap := b.swap.plain
  transfer := b.transfer.plain

/-- The same view, its numbers unsigned where they are zero. -/
def PoolView.plain (v : PoolView) : PoolView where
  token := v.token
  symbol := v.symbol
  depositPosition := v.depositPosition.map (·.plain)
  loanPosition := v.loanPosition.map (·.plain)
  depositBalance := v.depositBalance.plain
  depositValue := v.depositValue.plain
  loanBalance := v.loanBalance.plain
  loanValue := v.loanValue.plain
  bounds := v.bounds.plain

/-- The positions that a view shows have allowed weights. -/
@[mk_iff]
structure PoolView.IsAllowed (v : PoolView) : Prop where
  deposit : ∀ p ∈ v.depositPosition, p.check = .ok ()
  loan : ∀ p ∈ v.loanPosition, p.check = .ok ()

instance (v : PoolView) : Decidable v.IsAllowed :=
  decidable_of_iff' _ (PoolView.isAllowed_iff v)

/-- The same views, their numbers unsigned where they are zero. -/
def PoolViews.plain (v : PoolViews) : PoolViews := ⟨v.views.map (·.plain), v.skipped⟩

/-- The same report, its numbers unsigned where they are zero. -/
def Report.plain (r : Report) : Report where
  valuation := r.valuation.plain
  risk := r.risk.plain
  level := r.level
  summary := r.summary.plain
  pools := r.pools.plain
  isBeingLiquidated := r.isBeingLiquidated
  remaining := r.remaining
  phase := r.phase

/-- What a report reads back as: what is left of a liquidation is written in whole seconds. -/
def Report.written (r : Report) : Report :=
  { r.plain with remaining := r.remaining.map (·.wholeSeconds) }

namespace Json

open Document Record

/-! ## Parts of a report -/

theorem readsAs_bounds (b : TradeBounds) : ReadsAs decode (encode b) True b.plain := by
  have deposit := readsAs_tokenAmount b.deposit
  have withdraw := readsAs_tokenAmount b.withdraw
  have borrow := readsAs_tokenAmount b.borrow
  have repay := readsAs_tokenAmount b.repay
  have repayFromDeposit := readsAs_tokenAmount b.repayFromDeposit
  have swap := readsAs_tokenAmount b.swap
  have transfer := readsAs_tokenAmount b.transfer
  exact (collects_first TradeBounds.mk deposit |>.member withdraw |>.member borrow |>.member repay
    |>.member repayFromDeposit |>.member swap |>.member transfer).readsAs
    ⟨rfl, deposit.isPlain, rfl, withdraw.isPlain, rfl, borrow.isPlain, rfl, repay.isPlain, rfl,
      repayFromDeposit.isPlain, rfl, swap.isPlain, rfl, transfer.isPlain, trivial⟩ (by simp)

theorem readsAs_view (v : PoolView) : ReadsAs decode (encode v) v.IsAllowed v.plain := by
  have token := readsAs_token v.token
  have symbol := readsAs_string v.symbol
  have deposit := readsAs_option readsAs_position (fun _ ↦ nofun) v.depositPosition
  have loan := readsAs_option readsAs_position (fun _ ↦ nofun) v.loanPosition
  have depositBalance := readsAs_tokenAmount v.depositBalance
  have depositValue := readsAs_usd v.depositValue
  have loanBalance := readsAs_tokenAmount v.loanBalance
  have loanValue := readsAs_usd v.loanValue
  have bounds := readsAs_bounds v.bounds
  exact (collects_first PoolView.mk token |>.member symbol |>.optional deposit |>.optional loan
    |>.member depositBalance |>.member depositValue |>.member loanBalance |>.member loanValue
    |>.member bounds).readsAs
    ⟨rfl, token.isPlain, rfl, symbol.isPlain, rfl, deposit.isPlain, rfl, loan.isPlain, rfl,
      depositBalance.isPlain, rfl, depositValue.isPlain, rfl, loanBalance.isPlain, rfl,
      loanValue.isPlain, rfl, bounds.isPlain, trivial⟩
    (by simp [PoolView.isAllowed_iff])

theorem readsAs_views (v : PoolViews) :
    ReadsAs decode (encode v) (∀ view ∈ v.views, view.IsAllowed) v.plain := by
  have views := readsAs_list readsAs_view v.views
  have skipped := readsAs_list readsAs_token v.skipped
  rw [List.map_id'] at skipped
  exact (collects_first PoolViews.mk views |>.member skipped).readsAs
    ⟨rfl, views.isPlain, rfl, skipped.isPlain, trivial⟩ (by simp)

theorem readsAs_phase (p : LiquidationPhase) : ReadsAs decode (encode p) True p :=
  readsAs_name (by cases p <;> rfl)

/-- A duration in range is read in whole seconds. -/
theorem readsAs_seconds {d? : Option Duration}
    (h : ∀ d ∈ d?, Duration.inRange d.milliseconds = true) :
    ReadsAs decodeSeconds (encodeSeconds d?) True (d?.map (·.wholeSeconds)) := by
  cases d? with
  | none => exact .of_eq trivial rfl
  | some d =>
    have hd := h d rfl
    have hseconds : d.seconds.natAbs = d.milliseconds.natAbs / 1000 := Int.natAbs_tdiv ..
    have hrange : Duration.inRange (1000 * d.seconds) = true := by
      simp only [Duration.inRange, decide_eq_true_eq] at hd ⊢
      omega
    have hword : FitsWord d.seconds := by
      simp only [Duration.inRange, decide_eq_true_eq] at hd
      constructor <;> omega
    refine .of_eq (isPlain_ofInt _) ?_
    change (int64 (ofInt d.seconds) >>= fun seconds ↦
      Outcome.ofFaultable (Duration.ofSeconds seconds) >>= fun d ↦ pure (some d)) = _
    rw [(readsAs_int64 d.seconds).eq_ok hword]
    change (Outcome.ofFaultable (Duration.ofSeconds d.seconds) >>= fun d ↦ pure (some d)) = _
    rw [Duration.ofSeconds_eq_ok.2 ⟨hrange, rfl⟩]
    rfl

/-- A report reads back if the positions that it shows do, its unpriced positions can be counted with
32 bits and what it says is left of a liquidation is a duration. -/
theorem readsAs_report {r : Report}
    (h : ∀ d ∈ r.remaining, Duration.inRange d.milliseconds = true) :
    ReadsAs decode (encode r)
      (r.valuation.unpriced < 2 ^ 32 ∧ ∀ view ∈ r.pools.views, view.IsAllowed) r.written := by
  have valuation := readsAs_valuation r.valuation
  have risk := readsAs_risk r.risk
  have level := readsAs_level r.level
  have summary := readsAs_summary r.summary
  have pools := readsAs_views r.pools
  have held := readsAs_bool r.isBeingLiquidated
  have remaining := readsAs_seconds h
  have phase := readsAs_phase r.phase
  exact (collects_first Report.mk valuation |>.member risk |>.member level |>.member summary
    |>.member pools |>.member held |>.member remaining |>.member phase).readsAs
    ⟨rfl, valuation.isPlain, rfl, risk.isPlain, rfl, level.isPlain, rfl, summary.isPlain, rfl,
      pools.isPlain, rfl, held.isPlain, rfl, remaining.isPlain, rfl, phase.isPlain, trivial⟩
    (by simp)

end Json

end MarginAccount
