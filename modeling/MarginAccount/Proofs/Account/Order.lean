import MarginAccount.Proofs.Account.Appraisal
import MarginAccount.Account.Snapshot

/-! # The order of a valuation

The parts of a valuation are summed in the order of their slots, an address and a token there. A slot
is known of every position, priced or not, so the parts in order are the parts of the positions in
order: `sumParts_parts`. Positions at distinct addresses have one order only, and the sums of rounded
numbers, which depend on it, then do not depend on the order in which the positions came.
-/

namespace MarginAccount

/-! ## Sorting and selecting -/

section Sorting

variable {α β : Type}

/-- A list is cut in one way only where a test turns true for good. -/
theorem append_inj_of_test {t : α → Bool} {l₁ l₂ l₁' l₂' : List α} (h : l₁ ++ l₂ = l₁' ++ l₂')
    (h₁ : ∀ a ∈ l₁, t a = false) (h₂ : ∀ a ∈ l₂, t a = true) (h₁' : ∀ a ∈ l₁', t a = false)
    (h₂' : ∀ a ∈ l₂', t a = true) : l₁ = l₁' ∧ l₂ = l₂' := by
  have hnil : ∀ {l : List α}, (∀ a ∈ l, t a = false) → l.filter t = [] := fun hl ↦
    List.filter_eq_nil_iff.2 fun a ha ↦ Bool.eq_false_iff.1 (hl a ha)
  have htest := congrArg (List.filter t) h
  rw [List.filter_append, List.filter_append, hnil h₁, hnil h₁', List.filter_eq_self.2 h₂,
    List.filter_eq_self.2 h₂'] at htest
  have hrest : l₂ = l₂' := htest
  subst hrest
  exact ⟨List.append_cancel_right h, rfl⟩

/-- A stable sort commutes with a selection that keeps the order. -/
theorem mergeSort_filterMap {le : α → α → Bool} {le' : β → β → Bool} {f : α → Option β}
    (trans : ∀ a b c, le a b → le b c → le a c) (total : ∀ a b, le a b || le b a)
    (trans' : ∀ a b c, le' a b → le' b c → le' a c) (total' : ∀ a b, le' a b || le' b a)
    (hle : ∀ a b x y, f a = some x → f b = some y → le' x y = le a b) (l : List α) :
    (l.filterMap f).mergeSort le' = (l.mergeSort le).filterMap f := by
  induction l with
  | nil => rw [List.filterMap_nil, List.mergeSort_nil, List.mergeSort_nil, List.filterMap_nil]
  | cons a l ih =>
    obtain ⟨l₁, l₂, hsort, hrest, hbefore⟩ := List.mergeSort_cons trans total a l
    rw [hrest, List.filterMap_append] at ih
    rw [hsort, List.filterMap_append, List.filterMap_cons, List.filterMap_cons]
    cases hf : f a with
    | none => exact ih
    | some x =>
      dsimp only
      obtain ⟨m₁, m₂, hsort', hrest', hbefore'⟩ :=
        List.mergeSort_cons trans' total' x (l.filterMap f)
      have hafter := List.pairwise_mergeSort trans total (a :: l)
      have hafter' := List.pairwise_mergeSort trans' total' (x :: l.filterMap f)
      rw [hsort, List.pairwise_append] at hafter
      rw [hsort', List.pairwise_append] at hafter'
      -- what stood before the new element is not above it, what stood after it is
      have hcut : m₁ = l₁.filterMap f ∧ m₂ = l₂.filterMap f := by
        refine append_inj_of_test (t := le' x) (hrest' ▸ ih) ?_ ?_ ?_ ?_
        · exact fun y hy ↦ by simpa using hbefore' y hy
        · exact fun y hy ↦ List.rel_of_pairwise_cons hafter'.2.1 hy
        · intro y hy
          obtain ⟨b, hb, hfb⟩ := List.mem_filterMap.1 hy
          rw [hle a b x y hf hfb]
          simpa using hbefore b hb
        · intro y hy
          obtain ⟨b, hb, hfb⟩ := List.mem_filterMap.1 hy
          rw [hle a b x y hf hfb]
          exact List.rel_of_pairwise_cons hafter.2.1 hb
      rw [hsort', hcut.1, hcut.2]

end Sorting

/-! ## Slots -/

namespace Part

variable {a b c : Part}

theorem le_iff : Part.le a b = true ↔
    a.address.id < b.address.id ∨ a.address = b.address ∧ a.token.id ≤ b.token.id := by
  rw [Part.le, Bool.or_eq_true, Bool.and_eq_true, decide_eq_true_iff, decide_eq_true_iff, beq_iff_eq]

theorem le_trans (a b c : Part) (h : Part.le a b) (h' : Part.le b c) : Part.le a c := by
  rw [le_iff] at h h' ⊢
  rcases h with h | ⟨heq, h⟩
  · rcases h' with h' | ⟨heq', -⟩
    · exact .inl (BitVec.lt_trans h h')
    · exact .inl (heq' ▸ h)
  · rcases h' with h' | ⟨heq', h'⟩
    · exact .inl (heq ▸ h')
    · exact .inr ⟨heq.trans heq', BitVec.le_trans h h'⟩

theorem le_total (a b : Part) : Part.le a b || Part.le b a := by
  rw [Bool.or_eq_true, le_iff, le_iff]
  rcases BitVec.lt_trichotomy a.address.id b.address.id with h | h | h
  · exact .inl (.inl h)
  · have haddress : a.address = b.address := congrArg Address.mk h
    exact (BitVec.le_total a.token.id b.token.id).imp (fun ht ↦ .inr ⟨haddress, ht⟩)
      fun ht ↦ .inr ⟨haddress.symm, ht⟩
  · exact .inr (.inl h)

theorem address_eq_of_le (h : Part.le a b) (h' : Part.le b a) : a.address = b.address := by
  rw [le_iff] at h h'
  rcases h with h | ⟨heq, -⟩
  · rcases h' with h' | ⟨heq', -⟩
    · exact absurd h' (BitVec.lt_asymm h)
    · exact heq'.symm
  · exact heq

end Part

namespace Position

/-- The order of positions, which is that of the parts they may add. -/
def le (p q : Position) : Bool := Part.le ⟨p.address, p.token, .zero⟩ ⟨q.address, q.token, .zero⟩

theorem le_trans (p q r : Position) : p.le q → q.le r → p.le r := Part.le_trans _ _ _

theorem le_total (p q : Position) : p.le q || q.le p := Part.le_total _ _

end Position

/-! ## Positions in order -/

/-- Positions in the order of their slots. -/
def inOrder (positions : List Position) : List Position := positions.mergeSort Position.le

theorem inOrder_perm (positions : List Position) : (inOrder positions).Perm positions :=
  List.mergeSort_perm ..

theorem mem_inOrder {positions : List Position} {p : Position} :
    p ∈ inOrder positions ↔ p ∈ positions :=
  (inOrder_perm positions).mem_iff

/-- At distinct addresses there is one order. -/
theorem inOrder_eq_of_perm {positions positions' : List Position} (h : positions.Perm positions')
    (hnodup : (positions.map (·.address)).Nodup) : inOrder positions = inOrder positions' := by
  have hsorted (ps : List Position) : (inOrder ps).Pairwise fun p q ↦ p.le q :=
    List.pairwise_mergeSort Position.le_trans Position.le_total ps
  refine List.Perm.eq_of_pairwise (fun p q hp hq hle hle' ↦ ?_) (hsorted _) (hsorted _)
    ((inOrder_perm positions).trans (h.trans (inOrder_perm positions').symm))
  rw [mem_inOrder] at hp hq
  exact List.inj_on_of_nodup_map hnodup hp (h.mem_iff.2 hq) (Part.address_eq_of_le hle hle')

/-! ## Addresses of a snapshot -/

section Addresses

variable {seen : List Address} {p : Position} {positions : List Position}

theorem checkPositions_cons_eq_ok : checkPositions seen (p :: positions) = .ok () ↔
    p.check = .ok () ∧ p.address ∉ seen ∧ checkPositions (p.address :: seen) positions = .ok () := by
  rw [checkPositions, bind_eq_ok]
  constructor
  · rintro ⟨⟨⟩, hp, h⟩
    split at h
    · cases h
    · rename_i hunseen
      exact ⟨hp, hunseen, h⟩
  · rintro ⟨hp, hunseen, h⟩
    exact ⟨(), hp, by rwa [if_neg hunseen]⟩

/-- Positions pass the check if their weights do, at distinct addresses that are new. -/
theorem checkPositions_eq_ok : checkPositions seen positions = .ok () ↔
    (∀ p ∈ positions, p.check = .ok ()) ∧ (positions.map (·.address)).Nodup ∧
      ∀ p ∈ positions, p.address ∉ seen := by
  induction positions generalizing seen with
  | nil => simp [checkPositions]
  | cons p ps ih =>
    rw [checkPositions_cons_eq_ok, ih, List.map_cons, List.nodup_cons, List.forall_mem_cons,
      List.forall_mem_cons]
    constructor
    · rintro ⟨hp, hunseen, hchecks, hnodup, hothers⟩
      refine ⟨⟨hp, hchecks⟩, ⟨fun hmem ↦ ?_, hnodup⟩, hunseen,
        fun q hq hmem ↦ hothers q hq (List.mem_cons_of_mem _ hmem)⟩
      obtain ⟨q, hq, heq⟩ := List.mem_map.1 hmem
      exact hothers q hq (heq ▸ List.mem_cons_self)
    · rintro ⟨⟨hp, hchecks⟩, ⟨hnew, hnodup⟩, hunseen, hothers⟩
      refine ⟨hp, hunseen, hchecks, hnodup, fun q hq hmem ↦ ?_⟩
      rcases List.mem_cons.1 hmem with heq | hmem
      · exact hnew (heq ▸ List.mem_map_of_mem hq)
      · exact hothers q hq hmem

theorem nodup_of_checkPositions (h : checkPositions seen positions = .ok ()) :
    (positions.map (·.address)).Nodup :=
  (checkPositions_eq_ok.1 h).2.1

theorem check_of_checkPositions (h : checkPositions seen positions = .ok ()) :
    ∀ p ∈ positions, p.check = .ok () :=
  (checkPositions_eq_ok.1 h).1

end Addresses

namespace Snapshot

variable {account owner : Address} {slots : List Position} {liquidation : Option Liquidation}
  {fetchedAt : Timestamp} {snapshot : Snapshot}

/-- A snapshot holds the registered slots, which are not too many and pass the check. -/
theorem ofSlots_eq_ok :
    ofSlots account owner slots liquidation fetchedAt = .ok snapshot ↔
      (slots.filter (!·.address.isZero)).length ≤ maxPositions ∧
      checkPositions [] (slots.filter (!·.address.isZero)) = .ok () ∧
      snapshot = ⟨account, owner, slots.filter (!·.address.isZero), liquidation, fetchedAt⟩ := by
  unfold ofSlots
  dsimp only
  split
  · rename_i hlt
    exact iff_of_false (fun h ↦ by cases h) fun h ↦ absurd hlt (not_lt.2 h.1)
  · rename_i hle
    rw [and_iff_right (not_lt.1 hle)]
    cases hcheck : checkPositions [] (slots.filter (!·.address.isZero)) with
    | error e => exact iff_of_false (fun h ↦ by cases h) fun h ↦ by cases h.1
    | ok =>
      rw [and_iff_right rfl]
      exact ⟨fun h ↦ (Except.ok.inj h).symm, fun h ↦ congrArg Except.ok h.symm⟩

/-- A snapshot has checked its positions. -/
theorem checkPositions_of_ofSlots
    (h : ofSlots account owner slots liquidation fetchedAt = .ok snapshot) :
    checkPositions [] snapshot.positions = .ok () := by
  obtain ⟨-, hcheck, rfl⟩ := ofSlots_eq_ok.1 h
  exact hcheck

/-- A snapshot has its positions at distinct addresses. -/
theorem nodup_of_ofSlots
    (h : ofSlots account owner slots liquidation fetchedAt = .ok snapshot) :
    (snapshot.positions.map (·.address)).Nodup :=
  nodup_of_checkPositions (checkPositions_of_ofSlots h)

end Snapshot

namespace Valuation

variable {positions positions' merged : List Position} {changes : List Change} {prices : PriceSource}
  {policy : Policy}

/-! ## Sums in order -/

/-- Parts that are selected by their slots are summed in the order of the slots. -/
theorem sumParts_filterMap {α : Type} (slot : α → Position) {part? : α → Option Part}
    (hslot : ∀ a, ∀ part ∈ part? a,
      part.address = (slot a).address ∧ part.token = (slot a).token) (l : List α) :
    sumParts (l.filterMap part?) =
      addParts .zero ((l.mergeSort fun a b ↦ (slot a).le (slot b)).filterMap part?) := by
  have hle : ∀ a b x y, part? a = some x → part? b = some y →
      Part.le x y = (slot a).le (slot b) := by
    intro a b x y hx hy
    obtain ⟨haddress, htoken⟩ := hslot a x hx
    obtain ⟨haddress', htoken'⟩ := hslot b y hy
    rw [Position.le, Part.le, Part.le, haddress, htoken, haddress', htoken']
  rw [sumParts, mergeSort_filterMap (fun a b c ↦ Position.le_trans (slot a) (slot b) (slot c))
    (fun a b ↦ Position.le_total (slot a) (slot b)) Part.le_trans Part.le_total hle, addParts]

/-- The parts in order are those of the positions in order. -/
theorem sumParts_parts (positions : List Position) (prices : PriceSource) (policy : Policy) :
    sumParts (parts positions prices policy) =
      addParts .zero (parts (inOrder positions) prices policy) :=
  sumParts_filterMap id (fun _ _ ↦ Position.part?_slot) positions

/-- The appraisals of positions, as far as there are any. -/
def appraisals (positions : List Position) (prices : PriceSource) (policy : Policy) :
    List Position.Appraisal :=
  positions.filterMap fun p ↦ (p.appraise prices policy).toOption

/-- The valuation of positions that can each be appraised. -/
theorem ofPositions_of_appraised (hmerge : mergeChanges positions changes = .ok merged)
    (happraise : ∀ p ∈ merged, ∃ a, p.appraise prices policy = .ok a) :
    ofPositions positions prices changes policy = (do
      let total ← .ofRefusable (addParts .zero (parts (inOrder merged) prices policy))
      .ofRefusable (ofTotal total ((appraisals merged prices policy).count .unpriced))) := by
  have hmap := mapM_of_forall_ok happraise
  rw [← sumParts_parts, ← filterMap_part?_eq_parts hmap, ofPositions, hmerge]
  change ((merged.mapM (fun p ↦ p.appraise prices policy) : Outcome ValuationError _) >>= _) = _
  rw [hmap]
  rfl

/-- Where each position can be appraised, even the failures of a sum do not depend on the order. -/
theorem ofPositions_eq_of_perm (hperm : positions.Perm positions')
    (hnodup : (positions.map (·.address)).Nodup)
    (happraise : ∀ p ∈ positions, ∃ a, p.appraise prices policy = .ok a) :
    ofPositions positions prices [] policy = ofPositions positions' prices [] policy := by
  have hcount : (appraisals positions prices policy).count .unpriced =
      (appraisals positions' prices policy).count .unpriced := (hperm.filterMap _).count_eq _
  rw [ofPositions_of_appraised (mergeChanges_nil _) happraise,
    ofPositions_of_appraised (mergeChanges_nil _) fun p hp ↦ happraise p (hperm.mem_iff.2 hp),
    inOrder_eq_of_perm hperm hnodup, hcount]

/-- Positions at distinct addresses have one valuation, or none, in whatever order they come. -/
theorem ofPositions_eq_ok_iff_of_perm (hperm : positions.Perm positions')
    (hnodup : (positions.map (·.address)).Nodup) (v : Valuation) :
    ofPositions positions prices [] policy = .ok v ↔
      ofPositions positions' prices [] policy = .ok v := by
  have hnodup' : (positions'.map (·.address)).Nodup := (hperm.map _).nodup_iff.1 hnodup
  constructor
  · intro h
    rw [← h, ofPositions_eq_of_perm hperm hnodup (ofPositions_eq_ok h (mergeChanges_nil _)).1]
  · intro h
    rw [← h, ofPositions_eq_of_perm hperm.symm hnodup' (ofPositions_eq_ok h (mergeChanges_nil _)).1]

end Valuation

/-! ## Deposits that overflow in another order -/

namespace Sample

/-- A deposit of a token that counts in full. -/
def deposited (tag : UInt8) (balance : Balance) (exponent : Int8) : Position :=
  ⟨.ofTag tag, .ofTag tag, balance, exponent, .deposit, .one⟩

/-- The largest decimal, and twice four tenths. -/
def crowded : List Position :=
  [deposited 1 { units := 2 ^ 96 - 1 } 0, deposited 2 { units := 4 } (-1),
    deposited 3 { units := 4 } (-1)]

/-- Every token costs one dollar. -/
def oneDollar : PriceSource := fun _ ↦ .ok (some ⟨.one, 0, ⟨0⟩⟩)

end Sample

namespace Valuation

open Sample

/-- Added in the order in which they come here, the small deposits would overflow the largest one. -/
theorem ofPositions_reverse_crowded :
    ∃ v, ofPositions crowded.reverse oneDollar [] .standard = .ok v ∧
      v.assets.value = .lit (2 ^ 96 - 1) ∧
      addParts .zero (parts crowded.reverse oneDollar .standard) =
        .error (.valueOverflow (.ofTag 1)) := by
  obtain ⟨v, hv, hassets⟩ : ∃ v, ofPositions crowded oneDollar [] .standard = .ok v ∧
      decide (v.assets.value = .lit (2 ^ 96 - 1)) = true := by
    apply exists_ok_of_any
    rw [ofPositions_of_sorted rfl (by decide +kernel)]
    decide +kernel
  have hslots : Snapshot.ofSlots .zero .zero crowded none ⟨0⟩ =
      .ok ⟨.zero, .zero, crowded, none, ⟨0⟩⟩ := by decide +kernel
  have hreverse : ofPositions crowded.reverse oneDollar [] .standard = .ok v :=
    (ofPositions_eq_ok_iff_of_perm (List.reverse_perm crowded).symm
      (Snapshot.nodup_of_ofSlots hslots) v).1 hv
  exact ⟨v, hreverse, of_decide_eq_true hassets, by decide +kernel⟩

end Valuation

end MarginAccount
