import MarginAccount.Json.Account
import MarginAccount.Proofs.Account.Appraisal
import MarginAccount.Proofs.Json.Record

/-! # Accounts that read back

A position reads back if its weight is allowed, and everything that holds a position reads back if
the positions in it do. Times are written as numbers of 64 bits, and so is a timeout.
-/

namespace MarginAccount

/-! ## Without signs on zeros -/

/-- The same position, the weight unsigned if it is zero. -/
def Position.plain (p : Position) : Position := { p with modifier := p.modifier.plain }

/-- The same figures, each unsigned if it is zero. -/
def Valuation.plain (v : Valuation) : Valuation where
  assets := v.assets.plain
  liabilities := v.liabilities.plain
  required := v.required.plain
  requiredSetup := v.requiredSetup.plain
  weighted := v.weighted.plain
  effective := v.effective.plain
  available := v.available.plain
  availableSetup := v.availableSetup.plain
  unpriced := v.unpriced

/-- The same figures, each unsigned if it is zero. -/
def Summary.plain (s : Summary) : Summary where
  deposited := s.deposited.plain
  borrowed := s.borrowed.plain
  balance := s.balance.plain
  available := s.available.plain
  leverage := s.leverage.plain

/-- The same risk, unsigned if it is zero. -/
def Risk.plain : Risk → Risk
  | .finite v => .finite v.plain
  | .unbounded => .unbounded

/-- The weight rules do not look at the sign of a zero, and never name a zero that they refuse. -/
theorem checkModifier_plain (token : TokenId) (kind : PositionKind) (modifier : Decimal) :
    checkModifier token kind modifier.plain = checkModifier token kind modifier := by
  cases hzero : modifier.isZero with
  | false => rw [Decimal.plain_of_ne_zero hzero]
  | true =>
    have hunits := modifier.isZero_iff.1 hzero
    have hrange {d : Decimal} (hd : d.units = 0) : ¬(d < .zero ∨ .one < d) := by
      rw [Decimal.lt_def, Decimal.lt_def, hd]
      decide
    rw [checkModifier, checkModifier, if_neg (hrange hunits),
      if_neg (hrange (modifier.units_plain.trans hunits))]
    rfl

theorem Position.check_plain (p : Position) : p.plain.check = p.check :=
  checkModifier_plain p.token p.kind p.modifier

/-- Start and timeout are integers of 64 bits. -/
structure Liquidation.FitsWords (l : Liquidation) : Prop where
  startTime : FitsWord l.startTime.milliseconds
  timeout : FitsWord l.timeout

/-- The same snapshot, the weights unsigned if they are zero. -/
def Snapshot.plain (s : Snapshot) : Snapshot := { s with positions := s.positions.map (·.plain) }

namespace Json

open Document Record

/-! ## Positions -/

theorem readsAs_balance (b : Balance) : ReadsAs decode (encode b) True b := by
  have hsign : instCodecBalance.writtenNegative (ofInt b.units) = false := by
    change decide ((b.units : ℤ) < 0) = false
    exact decide_eq_false (by omega)
  refine .of_eq (isPlain_ofInt _) ?_
  change (bigInt (ofInt b.units) >>= fun n ↦ orUnreadable (if instCodecBalance.writtenNegative
    (ofInt b.units) then none else Balance.ofNat? n.toNat)) = _
  rw [bigInt_ofInt, hsign]
  change orUnreadable (Balance.ofNat? (b.units : ℤ).toNat) = _
  rw [Int.toNat_natCast, Balance.ofNat?, dif_pos b.units_lt]
  rfl

theorem readsAs_kind (k : PositionKind) : ReadsAs decode (encode k) True k :=
  readsAs_name (by cases k <;> rfl)

theorem readsAs_positionRecord (p : Position) :
    ReadsAs positionRecord.read (encode p) True p.plain ∧
      ReadsAs positionRecord.read (encode p).listed True p.plain := by
  have token := readsAs_token p.token
  have address := readsAs_address p.address
  have balance := readsAs_balance p.balance
  have exponent := readsAs_int8 p.exponent
  have kind := readsAs_kind p.kind
  have modifier := readsAs_decimal p.modifier
  exact (collects_first Position.mk token |>.member address |>.member balance |>.member exponent
    |>.member kind |>.member modifier).readsAs_both
    ⟨rfl, token.isPlain, rfl, address.isPlain, rfl, balance.isPlain, rfl, exponent.isPlain, rfl,
      kind.isPlain, rfl, modifier.isPlain, trivial⟩ (by simp)

theorem orRefused_eq_ok {α : Type} {checked : Except PositionError α} {a : α} :
    orRefused checked = .ok a ↔ checked = .ok a := by
  rw [orRefused, Outcome.mapRefusal_eq_ok, Outcome.ofRefusable_eq_ok]

/-- A position reads back exactly if its weight is allowed. -/
theorem readsAs_position (p : Position) :
    ReadsAs decode (encode p) (p.check = .ok ()) p.plain := by
  refine ((readsAs_positionRecord p).1.bind fun q ↦
    orRefused_eq_ok.trans map_const_eq_ok).congr ?_
  rw [true_and, Position.check_plain]

/-- A position that is read has an allowed weight. -/
theorem check_of_decode {d : Document} {p : Position} (h : decode d = .ok p) :
    p.check = .ok () := by
  obtain ⟨q, -, h⟩ := bind_eq_ok.1 h
  obtain ⟨hq, rfl⟩ := map_const_eq_ok.1 (orRefused_eq_ok.1 h)
  exact hq

/-! ## Snapshots -/

theorem readsAs_liquidation (l : Liquidation) : ReadsAs decode (encode l) l.FitsWords l := by
  have liquidator := readsAs_address l.liquidator
  have startTime := readsAs_timestamp l.startTime
  have timeout := readsAs_int64 l.timeout
  exact (collects_first Liquidation.mk liquidator |>.member startTime |>.member timeout).readsAs
    ⟨rfl, liquidator.isPlain, rfl, startTime.isPlain, rfl, timeout.isPlain, trivial⟩
    ⟨fun h ↦ ⟨h.1.2, h.2⟩, fun h ↦ ⟨⟨trivial, h.startTime⟩, h.timeout⟩⟩

/-- A snapshot reads back if its positions do. Nothing else of them is looked at. -/
theorem readsAs_snapshot (s : Snapshot) :
    ReadsAs decode (encode s) ((∀ p ∈ s.positions, p.check = .ok ()) ∧
      (∀ l ∈ s.liquidation, l.FitsWords) ∧ FitsWord s.fetchedAt.milliseconds) s.plain := by
  have account := readsAs_address s.account
  have owner := readsAs_address s.owner
  have positions := readsAs_list readsAs_position s.positions
  have liquidation := readsAs_option readsAs_liquidation (fun _ ↦ nofun) s.liquidation
  have fetchedAt := readsAs_timestamp s.fetchedAt
  rw [Option.map_id'] at liquidation
  exact (collects_first Snapshot.mk account |>.member owner |>.member positions
    |>.optional liquidation |>.member fetchedAt).readsAs
    ⟨rfl, account.isPlain, rfl, owner.isPlain, rfl, positions.isPlain, rfl, liquidation.isPlain,
      rfl, fetchedAt.isPlain, trivial⟩ (by simp [and_assoc])

/-- The positions of a snapshot that is read have allowed weights. -/
theorem check_of_decode_snapshot {d : Document} {s : Snapshot} (h : decode d = .ok s) :
    ∀ p ∈ s.positions, p.check = .ok () := by
  have hpositions : (.member "positions" : Record (List Position)).Ensures
      fun positions ↦ ∀ p ∈ positions, p.check = .ok () := by
    refine .memberBy fun _ positions hdecode p hp ↦ ?_
    obtain ⟨_, hp'⟩ := exists_decode_of_mem hdecode hp
    exact check_of_decode hp'
  have haddresses : (Snapshot.mk <$> .member "account" <*> .member "owner" : Record _).Ensures
      fun f ↦ ∀ positions liquidation fetchedAt,
        (f positions liquidation fetchedAt).positions = positions :=
    .seq_left (.map (.top _) fun _ _ _ _ _ _ ↦ rfl)
  refine Ensures.of_read (p := fun s ↦ ∀ p ∈ s.positions, p.check = .ok ())
    (.seq_left (.seq_left (haddresses.seq hpositions ?_))) h
  intro f positions hf hallowed liquidation fetchedAt
  rwa [hf]

/-! ## Figures -/

theorem readsAs_valuation (v : Valuation) :
    ReadsAs decode (encode v) (v.unpriced < 2 ^ 32) v.plain := by
  have assets := readsAs_usd v.assets
  have liabilities := readsAs_usd v.liabilities
  have required := readsAs_usd v.required
  have requiredSetup := readsAs_usd v.requiredSetup
  have weighted := readsAs_usd v.weighted
  have effective := readsAs_usd v.effective
  have available := readsAs_usd v.available
  have availableSetup := readsAs_usd v.availableSetup
  have unpriced := readsAs_natBits 32 (by decide) v.unpriced
  exact (collects_first Valuation.mk assets |>.member liabilities |>.member required
    |>.member requiredSetup |>.member weighted |>.member effective |>.member available
    |>.member availableSetup |>.member unpriced).readsAs
    ⟨rfl, assets.isPlain, rfl, liabilities.isPlain, rfl, required.isPlain, rfl,
      requiredSetup.isPlain, rfl, weighted.isPlain, rfl, effective.isPlain, rfl, available.isPlain,
      rfl, availableSetup.isPlain, rfl, unpriced.isPlain, trivial⟩ (by simp)

theorem readsAs_summary (s : Summary) : ReadsAs decode (encode s) True s.plain := by
  have deposited := readsAs_usd s.deposited
  have borrowed := readsAs_usd s.borrowed
  have balance := readsAs_usd s.balance
  have available := readsAs_usd s.available
  have leverage := readsAs_decimal s.leverage
  exact (collects_first Summary.mk deposited |>.member borrowed |>.member balance
    |>.member available |>.member leverage).readsAs
    ⟨rfl, deposited.isPlain, rfl, borrowed.isPlain, rfl, balance.isPlain, rfl, available.isPlain,
      rfl, leverage.isPlain, trivial⟩ (by simp)

theorem readsAs_level (l : RiskLevel) : ReadsAs decode (encode l) True l :=
  readsAs_name (by cases l <;> rfl)

theorem readsAs_risk (r : Risk) : ReadsAs decode (encode r) True r.plain := by
  cases r with
  | finite v =>
    have value := (readsAs_decimal v).map Risk.finite
    exact ⟨⟨rfl, value.isPlain, trivial⟩, value.read_eq_ok⟩
  | unbounded => exact .of_eq trivial rfl

end Json

end MarginAccount
