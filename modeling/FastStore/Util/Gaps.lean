import FastStore.Util.Extent

/-!
# The gaps of a chain

A walk over a chain that remembers where the last extent ended finds the gaps of the chain: the
ranges between two extents, and the one behind the last.  A range that lies in a gap is clear of
the chain; the only extents that can start in it are empty ones, and cutting it out leaves no
piece of them.
-/

namespace FastStore.Util

namespace Extent

variable {α : Type} [Extent α] {chain : List α} {lo hi : Int}

/-! ## Clear ranges -/

/-- No extent that holds a position reaches into the range. -/
def Clear (chain : List α) (lo hi : Int) : Prop :=
  ∀ a ∈ chain, 0 < len a → stop a ≤ lo ∨ hi ≤ start a

theorem Clear.within (clear : Clear chain lo hi) {low high : Int} (above : lo ≤ low)
    (below : high ≤ hi) : Clear chain low high := by
  intro a member positive
  cases clear a member positive with
  | inl before => exact Or.inl (before.trans above)
  | inr behind => exact Or.inr (below.trans behind)

theorem clear_of_not_over (order : lo < hi)
    (apart : ∀ b, lo ≤ b → b < hi → ∀ a ∈ chain, ¬Over a b) : Clear chain lo hi := by
  intro a member positive
  by_contra reaches
  apply apart (max lo (start a)) (le_max_left _ _) _ a member
  · simp only [Over, stop] at reaches ⊢
    omega
  · simp only [stop] at reaches
    omega

theorem Clear.not_over (clear : Clear chain lo hi) {a : α} (member : a ∈ chain) {b : Int}
    (low : lo ≤ b) (high : b < hi) : ¬Over a b := by
  intro covers
  have positive : 0 < len a := by
    simp only [Over, stop] at covers
    omega
  cases clear a member positive with
  | inl before => exact absurd (covers.2.trans_le before) (not_lt.mpr low)
  | inr behind => exact absurd (high.trans_le behind) (not_lt.mpr covers.1)

/-- An extent that is touched by a clear range is empty and leaves no piece. -/
theorem Clear.pieces_eq_nil (clear : Clear chain lo hi) (laid : Laid chain) (order : lo ≤ hi)
    {a : α} (member : a ∈ chain) (touched : Touched lo hi a) : pieces lo hi a = [] := by
  have nonneg := laid.nonneg a member
  have empty : ¬0 < len a := by
    intro positive
    have outside := clear a member positive
    simp only [Touched, stop] at touched outside
    omega
  have inside : lo ≤ start a ∧ start a < hi ∧ ¬hi < stop a := by
    simp only [Touched, stop] at touched ⊢
    omega
  rw [pieces_of_inside inside.1 inside.2.1, if_neg inside.2.2]

/-- Cutting out a clear range keeps the other ranges clear. -/
theorem Clear.carve (clear : Clear chain lo hi) (laid : Laid chain) {low high : Int}
    (order : low ≤ high) : Clear (Extent.carve low high chain) lo hi := by
  intro x member positive
  obtain ⟨a, inChain, piece⟩ := mem_carve.mp member
  have bounds := pieces_bounds order (laid.nonneg a inChain) piece
  have filled : 0 < len a := by
    simp only [stop] at bounds
    omega
  cases clear a inChain filled with
  | inl before => exact Or.inl (bounds.2.1.trans before)
  | inr behind => exact Or.inr (behind.trans bounds.1)

theorem Clear.insert {a : α} (clear : Clear chain lo hi) (apart : stop a ≤ lo ∨ hi ≤ start a) :
    Clear (Chain.insert start a chain) lo hi := by
  intro x member positive
  cases Chain.mem_insert.mp member with
  | inl same => exact same ▸ apart
  | inr inChain => exact clear x inChain positive

theorem valueAt_cons {β : Type} (image : α → Int → β) (a : α) (chain : List α) (b : Int) :
    valueAt image (a :: chain) b = if Over a b then some (image a b) else valueAt image chain b := by
  unfold valueAt
  split_ifs with covers
  · rw [List.find?_cons_of_pos (by simpa using covers), Option.map_some]
  · rw [List.find?_cons_of_neg (by simpa using covers)]

theorem exists_of_valueAt {β : Type} {image : α → Int → β} {b : Int} {value : β}
    (found : valueAt image chain b = some value) : ∃ a ∈ chain, Over a b ∧ image a b = value := by
  obtain ⟨a, lookup, equal⟩ := Option.map_eq_some_iff.mp found
  exact ⟨a, List.mem_of_find?_eq_some lookup, by simpa using List.find?_some lookup, equal⟩

/-! ## The walk -/

/-- The gaps from `offset` to `hi`, each as its two ends. -/
def gaps (hi : Int) : Int → List α → List (Int × Int)
  | offset, [] => if offset < hi then [(offset, hi)] else []
  | offset, a :: rest => (if offset < start a then [(offset, start a)] else []) ++
      gaps hi (stop a) rest

/-- The extents lie one behind the other between the two ends. -/
def Strip (hi : Int) : Int → List α → Prop
  | _, [] => True
  | offset, a :: rest => offset ≤ start a ∧ start a ≤ stop a ∧ stop a ≤ hi ∧ Strip hi (stop a) rest

theorem le_start_of_mem_strip {offset : Int} (strip : Strip hi offset chain) {a : α}
    (member : a ∈ chain) : offset ≤ start a := by
  induction chain generalizing offset with
  | nil => cases member
  | cons b rest ih =>
      obtain ⟨low, order, -, later⟩ := strip
      cases List.mem_cons.mp member with
      | inl same => exact same ▸ low
      | inr further => exact (low.trans order).trans (ih later further)

theorem bounds_of_mem_gaps {offset : Int} (strip : Strip hi offset chain) {gap : Int × Int}
    (member : gap ∈ gaps hi offset chain) : offset ≤ gap.1 ∧ gap.1 < gap.2 ∧ gap.2 ≤ hi := by
  induction chain generalizing offset with
  | nil =>
      rw [gaps] at member
      split_ifs at member with less
      · rw [List.mem_singleton.mp member]
        exact ⟨le_rfl, less, le_rfl⟩
      · cases member
  | cons a rest ih =>
      obtain ⟨low, order, high, later⟩ := strip
      rw [gaps] at member
      cases List.mem_append.mp member with
      | inl here =>
          split_ifs at here with less
          · rw [List.mem_singleton.mp here]
            exact ⟨le_rfl, less, order.trans high⟩
          · cases here
      | inr behind =>
          have bounds := ih later behind
          exact ⟨(low.trans order).trans bounds.1, bounds.2⟩

/-- The gaps lie one behind the other. -/
theorem pairwise_gaps {offset : Int} (strip : Strip hi offset chain) :
    (gaps hi offset chain).Pairwise fun left right => left.2 ≤ right.1 := by
  induction chain generalizing offset with
  | nil =>
      rw [gaps]
      split_ifs
      · exact List.pairwise_singleton _ _
      · exact List.Pairwise.nil
  | cons a rest ih =>
      obtain ⟨low, order, high, later⟩ := strip
      rw [gaps]
      split_ifs with less
      · refine List.pairwise_cons.mpr ⟨fun gap member => ?_, ih later⟩
        exact order.trans (bounds_of_mem_gaps later member).1
      · exact ih later

/-- The gaps hold exactly the positions that no extent lies over. -/
theorem exists_gap_iff {offset : Int} (strip : Strip hi offset chain) (b : Int) :
    (∃ gap ∈ gaps hi offset chain, gap.1 ≤ b ∧ b < gap.2) ↔
      offset ≤ b ∧ b < hi ∧ ∀ a ∈ chain, ¬Over a b := by
  induction chain generalizing offset with
  | nil =>
      rw [gaps]
      split_ifs with less
      · simp
      · simp only [List.not_mem_nil, false_and, exists_false, false_iff]
        omega
  | cons a rest ih =>
      obtain ⟨low, order, high, later⟩ := strip
      have behind := ih later
      constructor
      · rintro ⟨gap, member, above, below⟩
        rw [gaps] at member
        cases List.mem_append.mp member with
        | inl here =>
            split_ifs at here with less
            · rw [List.mem_singleton.mp here] at above below
              dsimp only at above below
              refine ⟨above, (below.trans_le order).trans_le high, fun x inside covers => ?_⟩
              cases List.mem_cons.mp inside with
              | inl same =>
                  rw [same] at covers
                  exact absurd below (not_lt.mpr covers.1)
              | inr further =>
                  have behind_le := le_start_of_mem_strip later further
                  exact absurd (below.trans_le order) (not_lt.mpr (behind_le.trans covers.1))
            · cases here
        | inr inRest =>
            obtain ⟨past, less, apart⟩ := behind.mp ⟨gap, inRest, above, below⟩
            refine ⟨(low.trans order).trans past, less, fun x inside covers => ?_⟩
            cases List.mem_cons.mp inside with
            | inl same =>
                rw [same] at covers
                exact absurd covers.2 (not_lt.mpr past)
            | inr further => exact apart x further covers
      · rintro ⟨above, below, apart⟩
        have here := apart a List.mem_cons_self
        have rest := fun x inside => apart x (List.mem_cons_of_mem _ inside)
        rw [gaps]
        by_cases past : stop a ≤ b
        · obtain ⟨gap, member, bounds⟩ := behind.mpr ⟨past, below, rest⟩
          exact ⟨gap, List.mem_append_right _ member, bounds⟩
        · have before : b < start a := not_le.mp fun low => here ⟨low, not_le.mp past⟩
          refine ⟨(offset, start a), List.mem_append_left _ ?_, above, before⟩
          rw [if_pos (above.trans_lt before)]
          exact List.mem_singleton_self _

end Extent

end FastStore.Util
