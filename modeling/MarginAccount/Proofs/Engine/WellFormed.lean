import MarginAccount.Proofs.Account.Order
import MarginAccount.Proofs.Engine.Liquidation
import MarginAccount.Proofs.Json.Account

/-! # Well-formed snapshots

A snapshot is built from slots, is empty, or is read from a text. What is done with it afterwards
keeps its positions, so it is well formed if it was at first. Slots are tidied and checked. A text is
not tidied: `wellFormed_iff` says that what is read from it is well formed only if it was written so.
-/

namespace MarginAccount

open Json

/-- Not too many positions, at distinct addresses, and none in a slot that is not registered. -/
structure Snapshot.IsTidy (s : Snapshot) : Prop where
  few : s.positions.length ≤ maxPositions
  distinct : (s.positions.map (·.address)).Nodup
  registered : ∀ p ∈ s.positions, p.address.isZero = false

/-- Tidy, and with allowed weights only. -/
structure Snapshot.WellFormed (s : Snapshot) : Prop extends s.IsTidy where
  allowed : ∀ p ∈ s.positions, p.check = .ok ()

namespace Snapshot

variable {s s' s₀ : Snapshot} {account owner : Address} {slots : List Position}
  {liquidation : Option Liquidation} {fetchedAt : Timestamp}

/-- Only the addresses matter. -/
theorem IsTidy.of_addresses (hs : s.IsTidy)
    (h : s'.positions.map (·.address) = s.positions.map (·.address)) : s'.IsTidy where
  few := by
    have hlength : s'.positions.length = s.positions.length := by
      simpa using congrArg List.length h
    exact hlength.trans_le hs.few
  distinct := h ▸ hs.distinct
  registered p hp := by
    have haddress : p.address ∈ s.positions.map (·.address) := h ▸ List.mem_map_of_mem hp
    obtain ⟨q, hq, heq⟩ := List.mem_map.1 haddress
    exact heq ▸ hs.registered q hq

/-! ## Where snapshots come from -/

/-- What a snapshot is made from: slots, nothing, or a text. -/
inductive Source where
  | slots (account owner : Address) (slots : List Position) (liquidation : Option Liquidation)
      (fetchedAt : Timestamp)
  | nothing (account owner : Address) (fetchedAt : Timestamp)
  | text (written : String)

/-- The snapshot is what can be made from the source. -/
def Source.Gives : Source → Snapshot → Prop
  | .slots account owner slots liquidation fetchedAt, s =>
    ofSlots account owner slots liquidation fetchedAt = .ok s
  | .nothing account owner fetchedAt, s => s = empty account owner fetchedAt
  | .text written, s => readText written = .ok s

theorem wellFormed_of_ofSlots (h : ofSlots account owner slots liquidation fetchedAt = .ok s) :
    s.WellFormed := by
  have hcheck := checkPositions_of_ofSlots h
  obtain ⟨hfew, -, rfl⟩ := ofSlots_eq_ok.1 h
  refine ⟨⟨hfew, nodup_of_ofSlots h, fun p hp ↦ ?_⟩, check_of_checkPositions hcheck⟩
  simpa using (List.mem_filter.1 hp).2

theorem wellFormed_empty : (empty account owner fetchedAt).WellFormed :=
  ⟨⟨by simp [empty], by simp [empty], by simp [empty]⟩, by simp [empty]⟩

/-- A snapshot that is read has allowed weights. -/
theorem check_of_readText {written : String} (h : readText written = .ok s) :
    ∀ p ∈ s.positions, p.check = .ok () := by
  obtain ⟨d, hd⟩ := exists_decode_of_readText h
  exact check_of_decode_snapshot hd

namespace Source

variable {source : Source}

theorem Gives.allowed (h : source.Gives s) : ∀ p ∈ s.positions, p.check = .ok () := by
  cases source with
  | slots => exact (wellFormed_of_ofSlots h).allowed
  | nothing => exact h ▸ wellFormed_empty.allowed
  | text => exact check_of_readText h

/-- Whatever does not come from a text is tidy. -/
theorem Gives.isTidy_iff (h : source.Gives s) :
    s.IsTidy ↔ ∀ written, source = .text written → s.IsTidy := by
  cases source with
  | slots => exact iff_of_true (wellFormed_of_ofSlots h).toIsTidy nofun
  | nothing => exact iff_of_true (h ▸ wellFormed_empty.toIsTidy) nofun
  | text written => exact ⟨fun hs _ _ ↦ hs, fun hs ↦ hs written rfl⟩

/-- Any list of positions with allowed weights stands in some text. -/
theorem gives_plain (hpositions : ∀ p ∈ s.positions, p.check = .ok ())
    (hliquidation : ∀ l ∈ s.liquidation, l.FitsWords)
    (hfetched : FitsWord s.fetchedAt.milliseconds) :
    (text (writeText s)).Gives s.plain :=
  ((readsAs_snapshot s).readText_eq_ok _).2 ⟨⟨hpositions, hliquidation, hfetched⟩, rfl⟩

end Source

/-! ## What is done with snapshots -/

/-- One thing that is done with a snapshot: another liquidation is set, an engine answers a claim or
an exit, or it is written and read back. -/
inductive Step (s : Snapshot) : Snapshot → Prop
  | held (liquidation : Option Liquidation) : Step s (s.withLiquidation liquidation)
  | begun {e e' : Engine} {market : Market} {liquidator : Address} {now : Timestamp} {s' : Snapshot}
      (h : e.beginLiquidation s market liquidator now = (.ok s', e')) : Step s s'
  | ended {e e' : Engine} {market : Market} {requester : Address} {now : Timestamp}
      {release : Release} (h : e.endLiquidation s market requester now = (.ok release, e')) :
      Step s release.snapshot
  | restored {s' : Snapshot} (h : readText (writeText s) = .ok s') : Step s s'

namespace Step

/-- A position may lose the sign of a zero weight, and nothing else. -/
theorem positions_eq (h : s.Step s') :
    s'.positions = s.positions ∨ s'.positions = s.positions.map (·.plain) := by
  cases h with
  | held => exact .inl rfl
  | begun h =>
    obtain ⟨-, -, -, ⟨-, -, -, rfl, -⟩ | ⟨-, -, rfl, -⟩⟩ := Engine.beginLiquidation_eq_ok.1 h
    · exact .inl rfl
    · exact .inl rfl
  | ended h =>
    obtain ⟨-, -, -, -, -, -, rfl, -⟩ := Engine.endLiquidation_eq_ok.1 h
    exact .inl rfl
  | restored h =>
    obtain ⟨-, rfl⟩ := ((readsAs_snapshot s).readText_eq_ok s').1 h
    exact .inr rfl

theorem isTidy_iff (h : s.Step s') : s'.IsTidy ↔ s.IsTidy := by
  have haddresses : s'.positions.map (·.address) = s.positions.map (·.address) := by
    rcases h.positions_eq with hs | hs
    · rw [hs]
    · rw [hs, List.map_map]
      rfl
  exact ⟨fun hs ↦ hs.of_addresses haddresses.symm, fun hs ↦ hs.of_addresses haddresses⟩

theorem allowed_iff (h : s.Step s') :
    (∀ p ∈ s'.positions, p.check = .ok ()) ↔ ∀ p ∈ s.positions, p.check = .ok () := by
  rcases h.positions_eq with hs | hs
  · rw [hs]
  · simp only [hs, List.forall_mem_map, Position.check_plain]

end Step

/-- A snapshot stays as tidy as it was, and so do its weights. -/
theorem isTidy_and_allowed_iff_of_run (h : Relation.ReflTransGen Step s₀ s) :
    (s.IsTidy ↔ s₀.IsTidy) ∧
      ((∀ p ∈ s.positions, p.check = .ok ()) ↔ ∀ p ∈ s₀.positions, p.check = .ok ()) := by
  induction h with
  | refl => exact ⟨.rfl, .rfl⟩
  | tail _ hstep ih => exact ⟨hstep.isTidy_iff.trans ih.1, hstep.allowed_iff.trans ih.2⟩

/-- Weights are allowed in every snapshot. It is well formed if it was not read from a text, or if
what was read was tidy. -/
theorem wellFormed_iff {source : Source} (hsource : source.Gives s₀)
    (hrun : Relation.ReflTransGen Step s₀ s) :
    (∀ p ∈ s.positions, p.check = .ok ()) ∧
      (s.WellFormed ↔ ∀ written, source = .text written → s₀.IsTidy) := by
  obtain ⟨htidy, hallowed⟩ := isTidy_and_allowed_iff_of_run hrun
  have hs := hallowed.2 hsource.allowed
  rw [← hsource.isTidy_iff, ← htidy]
  exact ⟨hs, fun h ↦ h.toIsTidy, fun h ↦ ⟨h, hs⟩⟩

open Sample in
/-- The leveraged account is well formed, also after it has been claimed, written and read. -/
theorem wellFormed_seized : ∃ s : Snapshot, readText (writeText seized) = .ok s ∧ s.WellFormed := by
  have hslots : (Source.slots leveraged.account leveraged.owner leveraged.positions none ⟨0⟩).Gives
      leveraged := by
    change ofSlots .. = _
    decide +kernel
  obtain ⟨e, -, hbegin⟩ := beginLiquidation_leveraged
  have hwords : ∀ l ∈ seized.liquidation, l.FitsWords := by
    intro l hl
    obtain rfl := Option.mem_some_iff.1 hl
    constructor
    · decide +kernel
    · decide +kernel
  have hread : readText (writeText seized) = .ok seized.plain :=
    Source.gives_plain (by decide +kernel) hwords (by decide +kernel)
  refine ⟨_, hread, (wellFormed_iff hslots ?_).2.2 nofun⟩
  exact .tail (.single (.begun hbegin)) (.restored hread)

end Snapshot

/-! ## Untidy texts -/

namespace Sample

/-- An account with so many copies of one position. -/
def copies (n : Nat) (address : Address) : Snapshot :=
  ⟨.ofTag 99, .ofTag 50, .replicate n ⟨.ofTag 1, address, .clamp 100, 0, .deposit, .one⟩, none, ⟨0⟩⟩

theorem text_gives_copies (n : Nat) (address : Address) :
    (Snapshot.Source.text (writeText (copies n address))).Gives (copies n address) := by
  have hplain : (copies n address).plain = copies n address := by
    simp only [Snapshot.plain, copies, List.map_replicate]
    rfl
  have hcheck : ∀ p ∈ (copies n address).positions, p.check = .ok () := fun p hp ↦ by
    rw [(List.mem_replicate.1 hp).2]
    change checkModifier (.ofTag 1) .deposit .one = .ok ()
    decide +kernel
  have hread := Snapshot.Source.gives_plain hcheck (by simp [copies]) (by simp [copies, FitsWord])
  rwa [hplain] at hread

end Sample

namespace Snapshot

open Sample

/-- Two positions at one address are refused as slots, and read from a text. So are 25 positions
that are not registered. -/
theorem untidy_texts_are_read :
    (ofSlots (.ofTag 99) (.ofTag 50) (copies 2 (.ofTag 1)).positions none ⟨0⟩ =
        .error (.duplicateAddress (.ofTag 1)) ∧
      (Source.text (writeText (copies 2 (.ofTag 1)))).Gives (copies 2 (.ofTag 1)) ∧
      ¬ ((copies 2 (.ofTag 1)).positions.map (·.address)).Nodup) ∧
    ((Source.text (writeText (copies 25 .zero))).Gives (copies 25 .zero) ∧
      ¬ (copies 25 .zero).positions.length ≤ maxPositions ∧
      ¬ ∀ p ∈ (copies 25 .zero).positions, p.address.isZero = false) :=
  ⟨⟨by decide +kernel, text_gives_copies 2 _, by decide +kernel⟩,
    text_gives_copies 25 _, by decide +kernel, by decide +kernel⟩

end Snapshot

end MarginAccount
