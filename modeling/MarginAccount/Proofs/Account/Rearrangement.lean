import MarginAccount.Proofs.Account.Change
import MarginAccount.Proofs.Account.Order

/-! # Changes in another order

Changes to different tokens do not meet: what merging makes of the positions of one token is up to
the changes to that token (`ofKey_mergeChanges`). Changes that come in another order, but in the same
order for each token, therefore merge into positions of which the same is true, and neither a
look-up nor a sum in the order of the slots sees more than that.
-/

namespace MarginAccount

/-! ## Lists that agree under each key -/

section Rearranging

variable {α κ : Type} [DecidableEq κ] {key : α → κ} {k : κ} {a : α} {xs ys : List α}

/-- The elements with a key, in their order. -/
def ofKey (key : α → κ) (k : κ) (xs : List α) : List α := xs.filter fun a ↦ key a = k

/-- The second list is the first one in another order, which is the same order for each key. -/
def Rearranged (key : α → κ) (xs ys : List α) : Prop := ∀ k, ofKey key k xs = ofKey key k ys

theorem ofKey_cons_of_eq (h : key a = k) : ofKey key k (a :: xs) = a :: ofKey key k xs :=
  List.filter_cons_of_pos (decide_eq_true h)

theorem ofKey_cons_of_ne (h : key a ≠ k) : ofKey key k (a :: xs) = ofKey key k xs :=
  List.filter_cons_of_neg (by simpa using h)

theorem mem_ofKey : a ∈ ofKey key k xs ↔ a ∈ xs ∧ key a = k := by
  rw [ofKey, List.mem_filter, decide_eq_true_eq]

namespace Rearranged

/-- Neighbours with different keys may change places. -/
theorem swap {b : α} (h : key a ≠ key b) (xs : List α) :
    Rearranged key (a :: b :: xs) (b :: a :: xs) := by
  intro k
  by_cases ha : key a = k
  · have hb : key b ≠ k := fun hb ↦ h (ha.trans hb.symm)
    rw [ofKey_cons_of_eq ha, ofKey_cons_of_ne hb, ofKey_cons_of_ne hb, ofKey_cons_of_eq ha]
  · by_cases hb : key b = k
    · rw [ofKey_cons_of_ne ha, ofKey_cons_of_eq hb, ofKey_cons_of_eq hb, ofKey_cons_of_ne ha]
    · rw [ofKey_cons_of_ne ha, ofKey_cons_of_ne hb, ofKey_cons_of_ne hb, ofKey_cons_of_ne ha]

theorem symm (h : Rearranged key xs ys) : Rearranged key ys xs := fun k ↦ (h k).symm

theorem mem_iff (h : Rearranged key xs ys) : a ∈ xs ↔ a ∈ ys := by
  have hk := h (key a)
  constructor
  · intro ha
    exact (mem_ofKey.1 (hk ▸ mem_ofKey.2 ⟨ha, rfl⟩)).1
  · intro ha
    exact (mem_ofKey.1 (hk ▸ mem_ofKey.2 ⟨ha, rfl⟩)).1

theorem perm [DecidableEq α] (h : Rearranged key xs ys) : xs.Perm ys := by
  have hcount : ∀ (zs : List α) (a : α), (ofKey key (key a) zs).count a = zs.count a :=
    fun zs a ↦ List.count_filter (decide_eq_true rfl)
  refine List.perm_iff_count.2 fun a ↦ ?_
  rw [← hcount xs, ← hcount ys, h (key a)]

/-- Lists that agree under each key are equal if both are in an order that tells the keys apart. -/
theorem eq_of_pairwise {le : α → α → Prop} (hle : ∀ a b, le a b → le b a → key a = key b)
    (h : Rearranged key xs ys) (hxs : xs.Pairwise le) (hys : ys.Pairwise le) : xs = ys := by
  induction xs generalizing ys with
  | nil =>
    cases ys with
    | nil => rfl
    | cons b ys => exact absurd (h.mem_iff.2 List.mem_cons_self) List.not_mem_nil
  | cons a xs ih =>
    cases ys with
    | nil => exact absurd (h.mem_iff.1 List.mem_cons_self) List.not_mem_nil
    | cons b ys =>
      -- were the first elements apart, each would stand after the other
      have hkey : key a = key b := by
        by_contra hne
        have hb : b ∈ xs := (List.mem_cons.1 (h.mem_iff.2 List.mem_cons_self)).resolve_left
          fun hab ↦ hne (congrArg key hab.symm)
        have ha : a ∈ ys := (List.mem_cons.1 (h.mem_iff.1 List.mem_cons_self)).resolve_left
          fun hab ↦ hne (congrArg key hab)
        exact hne (hle a b (List.rel_of_pairwise_cons hxs hb) (List.rel_of_pairwise_cons hys ha))
      have hfirst := h (key a)
      rw [ofKey_cons_of_eq rfl, ofKey_cons_of_eq hkey.symm, List.cons.injEq] at hfirst
      obtain ⟨rfl, -⟩ := hfirst
      rw [ih (fun k ↦ ?_) hxs.of_cons hys.of_cons]
      have hk := h k
      by_cases ha : key a = k
      · rw [ofKey_cons_of_eq ha, ofKey_cons_of_eq ha, List.cons.injEq] at hk
        exact hk.2
      · rwa [ofKey_cons_of_ne ha, ofKey_cons_of_ne ha] at hk

end Rearranged

end Rearranging

/-! ## One token -/

variable {c : Change} {cs cs' : List Change} {ps ps' merged : List Position} {token : TokenId}

/-- A change moves the positions of its token as if there were no others, and leaves those alone. -/
theorem Change.ofKey_land (h : c.land ps = .ok ps') :
    c.land (ofKey Position.token c.token ps) = .ok (ofKey Position.token c.token ps') ∧
      ∀ token, token ≠ c.token →
        ofKey Position.token token ps' = ofKey Position.token token ps := by
  induction ps generalizing ps' with
  | nil =>
    cases h
    exact ⟨by rw [ofKey_cons_of_eq (by rfl)]; rfl, fun token hne ↦ ofKey_cons_of_ne hne.symm⟩
  | cons p ps ih =>
    rcases land_cons_eq_ok h with ⟨ht, hk, rfl⟩ | ⟨ht, qs, hq, rfl⟩
    · have hlanded : (c.landed (p :: ps)).token = c.token := c.target_token (p :: ps)
      refine ⟨?_, fun token hne ↦ ?_⟩
      · rw [ofKey_cons_of_eq ht, ofKey_cons_of_eq hlanded, land, if_pos ht, if_pos hk, landed,
          target_cons_of_eq ht]
      · rw [ofKey_cons_of_ne (hlanded.trans_ne hne.symm), ofKey_cons_of_ne (ht.trans_ne hne.symm)]
    · obtain ⟨hself, hothers⟩ := ih hq
      refine ⟨?_, fun token hne ↦ ?_⟩
      · rw [ofKey_cons_of_ne ht, ofKey_cons_of_ne ht, hself]
      · by_cases hp : p.token = token
        · rw [ofKey_cons_of_eq hp, ofKey_cons_of_eq hp, hothers token hne]
        · rw [ofKey_cons_of_ne hp, ofKey_cons_of_ne hp, hothers token hne]

/-- A change that lands on the positions of its token lands on all of them. -/
theorem Change.exists_land (h : ∃ qs, c.land (ofKey Position.token c.token ps) = .ok qs) :
    ∃ ps', c.land ps = .ok ps' := by
  induction ps with
  | nil => exact ⟨_, rfl⟩
  | cons p ps ih =>
    obtain ⟨qs, hqs⟩ := h
    by_cases ht : p.token = c.token
    · rw [ofKey_cons_of_eq ht] at hqs
      obtain ⟨-, hk, -⟩ | ⟨hne, -⟩ := land_cons_eq_ok hqs
      · exact ⟨_, by rw [land, if_pos ht, if_pos hk]⟩
      · exact absurd ht hne
    · rw [ofKey_cons_of_ne ht] at hqs
      obtain ⟨ps', hps'⟩ := ih ⟨qs, hqs⟩
      exact ⟨p :: ps', by rw [land, if_neg ht, hps']; rfl⟩

/-- Merging does to the positions of a token what the changes to it do. -/
theorem ofKey_mergeChanges (h : mergeChanges ps cs = .ok merged) (token : TokenId) :
    mergeChanges (ofKey Position.token token ps) (ofKey Change.token token cs) =
      .ok (ofKey Position.token token merged) := by
  induction cs generalizing ps with
  | nil =>
    cases h
    rfl
  | cons c cs ih =>
    obtain ⟨landed, hland, h⟩ := mergeChanges_cons_eq_ok.1 h
    obtain ⟨hself, hothers⟩ := Change.ofKey_land hland
    by_cases ht : c.token = token
    · subst ht
      rw [ofKey_cons_of_eq rfl]
      exact mergeChanges_cons_eq_ok.2 ⟨_, hself, ih h⟩
    · rw [ofKey_cons_of_ne ht, ← hothers token (Ne.symm ht)]
      exact ih h

/-- Changes merge if those to each token do. -/
theorem exists_mergeChanges (h : ∀ token, ∃ qs,
    mergeChanges (ofKey Position.token token ps) (ofKey Change.token token cs) = .ok qs) :
    ∃ merged, mergeChanges ps cs = .ok merged := by
  induction cs generalizing ps with
  | nil => exact ⟨ps, rfl⟩
  | cons c cs ih =>
    obtain ⟨qs, hqs⟩ := h c.token
    rw [ofKey_cons_of_eq rfl] at hqs
    obtain ⟨landed, hlanded, hrest⟩ := mergeChanges_cons_eq_ok.1 hqs
    obtain ⟨ps', hland⟩ := Change.exists_land ⟨landed, hlanded⟩
    obtain ⟨hself, hothers⟩ := Change.ofKey_land hland
    have hland' : ∀ token, ∃ qs,
        mergeChanges (ofKey Position.token token ps') (ofKey Change.token token cs) = .ok qs := by
      intro token
      by_cases ht : token = c.token
      · subst ht
        rw [hlanded, Except.ok.injEq] at hself
        exact ⟨qs, hself ▸ hrest⟩
      · obtain ⟨qs', hqs'⟩ := h token
        rw [ofKey_cons_of_ne (Ne.symm ht)] at hqs'
        exact ⟨qs', (hothers token ht).symm ▸ hqs'⟩
    obtain ⟨merged, hmerged⟩ := ih hland'
    exact ⟨merged, mergeChanges_cons_eq_ok.2 ⟨ps', hland, hmerged⟩⟩

/-- Changes that come in another order merge into positions in another order. -/
theorem Rearranged.mergeChanges (h : Rearranged Change.token cs cs')
    (hmerge : mergeChanges ps cs = .ok merged) :
    ∃ merged', MarginAccount.mergeChanges ps cs' = .ok merged' ∧
      Rearranged Position.token merged merged' := by
  have htoken := ofKey_mergeChanges hmerge
  obtain ⟨merged', hmerge'⟩ : ∃ merged', MarginAccount.mergeChanges ps cs' = .ok merged' :=
    exists_mergeChanges fun token ↦ ⟨_, (h token).symm ▸ htoken token⟩
  refine ⟨merged', hmerge', fun token ↦ ?_⟩
  have htoken' := ofKey_mergeChanges hmerge' token
  rw [← h token, htoken token, Except.ok.injEq] at htoken'
  exact htoken'

/-! ## What does not see the order -/

/-- The first position with a token is the first of those with it. -/
theorem findPosition?_ofKey (ps : List Position) (token : TokenId) :
    findPosition? ps token = (ofKey Position.token token ps).head? := by
  rw [ofKey, List.head?_filter]
  rfl

theorem Rearranged.findPosition?_eq (h : Rearranged Position.token ps ps') (token : TokenId) :
    findPosition? ps token = findPosition? ps' token := by
  rw [findPosition?_ofKey, findPosition?_ofKey, h token]

/-- Sorting keeps the order of the positions of each token. -/
theorem ofKey_inOrder (ps : List Position) (token : TokenId) :
    ofKey Position.token token (inOrder ps) = inOrder (ofKey Position.token token ps) := by
  have hfilter : ∀ qs : List Position,
      ofKey Position.token token qs = qs.filterMap (Option.guard fun p ↦ p.token = token) :=
    fun qs ↦ congrFun (List.filterMap_eq_filter).symm qs
  rw [hfilter, hfilter, inOrder, inOrder]
  refine (mergeSort_filterMap Position.le_trans Position.le_total Position.le_trans
    Position.le_total ?_ ps).symm
  intro p q x y hx hy
  rw [Option.guard_eq_some_iff] at hx hy
  rw [hx.1, hy.1]

/-- Positions in one slot are of one token. -/
theorem Position.token_eq_of_le {p q : Position} (h : p.le q) (h' : q.le p) :
    p.token = q.token := by
  have haddress : p.address = q.address := Part.address_eq_of_le h h'
  have hnot : ¬p.address.id < p.address.id := BitVec.lt_irrefl _
  rw [Position.le, Part.le_iff, ← haddress] at h h'
  exact congrArg TokenId.mk (BitVec.le_antisymm (h.resolve_left hnot).2 (h'.resolve_left hnot).2)

theorem Rearranged.inOrder_eq (h : Rearranged Position.token ps ps') :
    inOrder ps = inOrder ps' := by
  have hsorted (qs : List Position) : (inOrder qs).Pairwise fun p q ↦ p.le q :=
    List.pairwise_mergeSort Position.le_trans Position.le_total qs
  have horder : Rearranged Position.token (inOrder ps) (inOrder ps') := fun token ↦ by
    rw [ofKey_inOrder, ofKey_inOrder, h token]
  refine horder.eq_of_pairwise (fun p q hle hle' ↦ ?_) (hsorted ps) (hsorted ps')
  exact Position.token_eq_of_le hle hle'

end MarginAccount
