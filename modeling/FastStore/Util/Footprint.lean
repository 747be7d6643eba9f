import FastStore.Util.Extent

/-!
# The positions under a chain

How many positions the extents of a laid chain lie over, and what carving a range out of the
chain and linking an extent into the gap do to that number.
-/

namespace FastStore.Util

namespace Extent

variable {α : Type} [Extent α] {chain : List α} {lo hi : Int}

/-- The positions that some extent of the chain lies over. -/
def footprint (chain : List α) : Set Int := { b | ∃ a ∈ chain, Over a b }

@[simp] theorem footprint_nil : footprint ([] : List α) = ∅ := by
  ext b
  simp [footprint]

theorem footprint_cons (a : α) (chain : List α) :
    footprint (a :: chain) = Set.Ico (start a) (stop a) ∪ footprint chain := by
  ext b
  simp [footprint, Over]

theorem footprint_finite (chain : List α) : (footprint chain).Finite := by
  induction chain with
  | nil => simp
  | cons a chain ih =>
      rw [footprint_cons]
      exact (Set.finite_Ico _ _).union ih

theorem ncard_Ico (lo hi : Int) : (Set.Ico lo hi).ncard = (hi - lo).toNat := by
  rw [← Finset.coe_Ico, Set.ncard_coe_finset, Int.card_Ico]

/-- No position is under two extents, so the lengths add up. -/
theorem ncard_footprint (laid : Laid chain) :
    ((footprint chain).ncard : Int) = (chain.map len).sum := by
  induction chain with
  | nil => simp
  | cons a chain ih =>
      obtain ⟨nonneg, across, tailLaid⟩ := Laid.cons_iff.mp laid
      have apart : Disjoint (Set.Ico (start a) (stop a)) (footprint chain) := by
        rw [Set.disjoint_left]
        rintro b ⟨_, high⟩ ⟨c, member, low, _⟩
        exact absurd (high.trans_le (across c member).2) (not_lt.mpr low)
      rw [footprint_cons, Set.ncard_union_eq apart (Set.finite_Ico _ _) (footprint_finite chain),
        ncard_Ico, Nat.cast_add, ih tailLaid, List.map_cons, List.sum_cons]
      unfold stop
      omega

/-- Carving takes the positions of the range away and no others. -/
theorem footprint_carve (laid : Laid chain) (order : lo ≤ hi) :
    footprint (carve lo hi chain) = footprint chain \ Set.Ico lo hi := by
  ext b
  constructor
  · rintro ⟨x, member, covers⟩
    refine ⟨?_, fun inRange => not_over_carve laid order member inRange covers⟩
    obtain ⟨a, inChain, piece⟩ := mem_carve.mp member
    have bounds := pieces_bounds order (laid.nonneg a inChain) piece
    exact ⟨a, inChain, bounds.1.trans covers.1, covers.2.trans_le bounds.2.1⟩
  · rintro ⟨⟨a, inChain, covers⟩, outside⟩
    obtain ⟨x, piece, found⟩ := exists_piece_over order covers outside
    exact ⟨x, mem_carve.mpr ⟨a, inChain, piece⟩, found⟩

/-- Carving takes away as many positions as are covered in the range. -/
theorem ncard_footprint_carve (laid : Laid chain) (order : lo ≤ hi) :
    ((footprint (carve lo hi chain)).ncard : Int) =
      (footprint chain).ncard - covered lo hi chain := by
  have inRange : (footprint chain ∩ Set.Ico lo hi).ncard =
      ((Finset.Ico lo hi).filter fun b => ∃ a ∈ chain, Over a b).card := by
    rw [← Set.ncard_coe_finset]
    congr 1
    ext b
    simp [footprint, and_comm]
  have split := Set.ncard_sdiff_add_ncard_of_subset
    (Set.inter_subset_left : footprint chain ∩ Set.Ico lo hi ⊆ footprint chain)
    (footprint_finite chain)
  rw [Set.sdiff_self_inter, inRange] at split
  rw [footprint_carve laid order, ← card_covered laid, ← split]
  push_cast
  omega

/-- An extent that lies in a gap adds its length. -/
theorem ncard_footprint_of_gap {a : α} {after : List α} (nonneg : 0 ≤ len a)
    (members : ∀ x, x ∈ after ↔ x = a ∨ x ∈ chain)
    (gap : ∀ b ∈ footprint chain, ¬ Over a b) :
    ((footprint after).ncard : Int) = (footprint chain).ncard + len a := by
  have union : footprint after = footprint (a :: chain) := by
    ext b
    simp [footprint, members]
  have apart : Disjoint (Set.Ico (start a) (stop a)) (footprint chain) := by
    rw [Set.disjoint_right]
    exact fun b inChain covers => gap b inChain covers
  rw [union, footprint_cons, Set.ncard_union_eq apart (Set.finite_Ico _ _)
    (footprint_finite chain), ncard_Ico, Nat.cast_add]
  unfold stop
  omega

end Extent

end FastStore.Util
