import FastStore.Util.UniqSkiplist

/-!
# Chains of extents as maps

An extent is a half-open range of positions that can be cut into sub-extents.  A
laid chain is a list of extents in ascending order that do not overlap; it
stands for the partial map that sends a position to what the extent over it says
about it.  Carving a range out of a chain removes the range from the map and
leaves everything else, and linking an extent into a chain carved at its range
overwrites the map there.
-/

namespace FastStore.Util

/-- Ranges that can be cut.  `sub a offset length` is the part of `a` from
`offset` on. -/
class Extent (α : Type) where
  start : α → Int
  len : α → Int
  sub : α → Int → Int → α
  start_sub : ∀ a offset length, start a ≤ offset → start (sub a offset length) = offset
  len_sub : ∀ a offset length, len (sub a offset length) = length

namespace Extent

variable {α β : Type} [Extent α]

/-- The end of the range. -/
def stop (a : α) : Int := start a + len a

/-- The extent lies over the position. -/
def Over (a : α) (b : Int) : Prop := start a ≤ b ∧ b < stop a

instance (a : α) (b : Int) : Decidable (Over a b) := inferInstanceAs (Decidable (_ ∧ _))

theorem stop_sub (a : α) {offset : Int} (length : Int) (inside : start a ≤ offset) :
    stop (sub a offset length) = offset + length := by
  rw [stop, start_sub a offset length inside, len_sub]

/-- Extents in ascending order, none reaching into the next. -/
structure Laid (chain : List α) : Prop where
  apart : chain.Pairwise fun left right => start left < start right ∧ stop left ≤ start right
  nonneg : ∀ a ∈ chain, 0 ≤ len a

namespace Laid

variable {chain left right : List α} {a : α}

theorem nil : Laid ([] : List α) := ⟨List.Pairwise.nil, by simp⟩

theorem ascending (laid : Laid chain) : Ascending start chain :=
  laid.apart.imp fun both => both.1

theorem cons_iff :
    Laid (a :: chain) ↔
      0 ≤ len a ∧ (∀ b ∈ chain, start a < start b ∧ stop a ≤ start b) ∧ Laid chain := by
  constructor
  · rintro ⟨apart, nonneg⟩
    obtain ⟨head, tail⟩ := List.pairwise_cons.mp apart
    exact ⟨nonneg a List.mem_cons_self, head, tail,
      fun b member => nonneg b (List.mem_cons_of_mem _ member)⟩
  · rintro ⟨headLen, head, tail, nonneg⟩
    refine ⟨List.pairwise_cons.mpr ⟨head, tail⟩, ?_⟩
    intro b member
    rcases List.mem_cons.mp member with rfl | inTail
    · exact headLen
    · exact nonneg b inTail

theorem append_iff :
    Laid (left ++ right) ↔
      Laid left ∧ Laid right ∧
        ∀ a ∈ left, ∀ b ∈ right, start a < start b ∧ stop a ≤ start b := by
  constructor
  · rintro ⟨apart, nonneg⟩
    obtain ⟨leftApart, rightApart, across⟩ := List.pairwise_append.mp apart
    exact ⟨⟨leftApart, fun a member => nonneg a (List.mem_append_left _ member)⟩,
      ⟨rightApart, fun a member => nonneg a (List.mem_append_right _ member)⟩, across⟩
  · rintro ⟨⟨leftApart, leftLen⟩, ⟨rightApart, rightLen⟩, across⟩
    refine ⟨List.pairwise_append.mpr ⟨leftApart, rightApart, across⟩, ?_⟩
    intro a member
    rcases List.mem_append.mp member with inLeft | inRight
    · exact leftLen a inLeft
    · exact rightLen a inRight

theorem sublist (laid : Laid chain) (sub : left.Sublist chain) : Laid left :=
  ⟨laid.apart.sublist sub, fun a member => laid.nonneg a (sub.subset member)⟩

/-- An ascending chain is laid as soon as its members pairwise keep apart. -/
theorem of_ascending (sorted : Ascending start chain) (nonneg : ∀ a ∈ chain, 0 ≤ len a)
    (apart : ∀ a ∈ chain, ∀ b ∈ chain, start a < start b → stop a ≤ start b) :
    Laid chain := by
  refine ⟨?_, nonneg⟩
  refine List.Pairwise.imp_of_mem ?_ sorted
  intro a b aMem bMem less
  exact ⟨less, apart a aMem b bMem less⟩

theorem stop_le_of_start_lt (laid : Laid chain) {b : α} (aMem : a ∈ chain) (bMem : b ∈ chain)
    (less : start a < start b) : stop a ≤ start b := by
  induction chain with
  | nil => cases aMem
  | cons head tail ih =>
      obtain ⟨_, across, tailLaid⟩ := cons_iff.mp laid
      rcases List.mem_cons.mp aMem with rfl | aTail
      · rcases List.mem_cons.mp bMem with rfl | bTail
        · exact absurd less (lt_irrefl _)
        · exact (across b bTail).2
      · rcases List.mem_cons.mp bMem with rfl | bTail
        · exact absurd less (lt_asymm (across a aTail).1)
        · exact ih tailLaid aTail bTail

/-- At most one member lies over a position. -/
theorem eq_of_over (laid : Laid chain) {b : α} (aMem : a ∈ chain) (bMem : b ∈ chain)
    {position : Int} (overA : Over a position) (overB : Over b position) : a = b := by
  rcases lt_trichotomy (start a) (start b) with less | equal | greater
  · have bound := laid.stop_le_of_start_lt aMem bMem less
    exact absurd (overA.2.trans_le bound) (not_lt.mpr overB.1)
  · exact laid.ascending.eq_of_key_eq aMem bMem equal
  · have bound := laid.stop_le_of_start_lt bMem aMem greater
    exact absurd (overB.2.trans_le bound) (not_lt.mpr overA.1)

end Laid

/-! ## The map of a chain -/

/-- What the chain says about a position: the extent over it, if there is one,
looked up by `image`. -/
def valueAt (image : α → Int → β) (chain : List α) (b : Int) : Option β :=
  (chain.find? fun a => Over a b).map fun a => image a b

variable {image : α → Int → β} {chain : List α}

theorem valueAt_eq_some_iff (laid : Laid chain) {b : Int} {value : β} :
    valueAt image chain b = some value ↔ ∃ a ∈ chain, Over a b ∧ image a b = value := by
  constructor
  · intro found
    obtain ⟨a, lookup, equal⟩ := Option.map_eq_some_iff.mp found
    exact ⟨a, List.mem_of_find?_eq_some lookup, by simpa using List.find?_some lookup, equal⟩
  · rintro ⟨a, member, covers, rfl⟩
    cases lookup : chain.find? fun a => decide (Over a b) with
    | none =>
        have absent := List.find?_eq_none.mp lookup a member
        exact absurd covers (by simpa using absent)
    | some other =>
        have otherOver : Over other b := by simpa using List.find?_some lookup
        have same := laid.eq_of_over (List.mem_of_find?_eq_some lookup) member otherOver covers
        rw [valueAt, lookup, Option.map_some, same]

theorem valueAt_eq_none_iff {b : Int} :
    valueAt image chain b = none ↔ ∀ a ∈ chain, ¬Over a b := by
  simp [valueAt, List.find?_eq_none]

/-- Two laid chains are the same map when the same values are found over every
position. -/
theorem valueAt_congr {other : List α} {b c : Int} (laid : Laid chain) (otherLaid : Laid other)
    (same : ∀ value, (∃ a ∈ chain, Over a b ∧ image a b = value) ↔
      ∃ a ∈ other, Over a c ∧ image a c = value) :
    valueAt image chain b = valueAt image other c := by
  apply Option.ext
  intro value
  rw [valueAt_eq_some_iff laid, valueAt_eq_some_iff otherLaid]
  exact same value

/-! ## Carving a range out of a chain -/

/-- What is left of an extent when `[lo, hi)` is taken out of it. -/
def pieces (lo hi : Int) (a : α) : List α :=
  if start a < lo then
    if stop a ≤ lo then [a]
    else sub a (start a) (lo - start a) ::
      if hi < stop a then [sub a hi (stop a - hi)] else []
  else if hi ≤ start a then [a]
  else if hi < stop a then [sub a hi (stop a - hi)] else []

/-- What is left of a chain when `[lo, hi)` is taken out of it. -/
def carve (lo hi : Int) (chain : List α) : List α :=
  chain.flatMap (pieces lo hi)

variable {lo hi : Int}

@[simp] theorem carve_nil : carve lo hi ([] : List α) = [] := rfl

@[simp] theorem carve_cons (a : α) (chain : List α) :
    carve lo hi (a :: chain) = pieces lo hi a ++ carve lo hi chain := by
  simp [carve]

theorem mem_carve {x : α} : x ∈ carve lo hi chain ↔ ∃ a ∈ chain, x ∈ pieces lo hi a := by
  simp [carve, List.mem_flatMap]

/-- The pieces of an extent, case by case. -/
theorem mem_pieces {a x : α} :
    x ∈ pieces lo hi a ↔
      (x = a ∧ (start a < lo ∧ stop a ≤ lo ∨ lo ≤ start a ∧ hi ≤ start a)) ∨
      (x = sub a (start a) (lo - start a) ∧ start a < lo ∧ lo < stop a) ∨
      (x = sub a hi (stop a - hi) ∧ hi < stop a ∧
        (start a < lo ∧ lo < stop a ∨ lo ≤ start a ∧ start a < hi)) := by
  unfold pieces
  split_ifs <;> simp only [List.mem_cons, List.not_mem_nil, or_false] <;> constructor <;> grind

/-- A piece lies inside the extent it was cut from and outside the carved range. -/
theorem pieces_bounds (order : lo ≤ hi) {a x : α} (nonneg : 0 ≤ len a)
    (member : x ∈ pieces lo hi a) :
    start a ≤ start x ∧ stop x ≤ stop a ∧ 0 ≤ len x ∧ (stop x ≤ lo ∨ hi ≤ start x) := by
  rcases mem_pieces.mp member with ⟨rfl, outside⟩ | ⟨rfl, below, above⟩ | ⟨rfl, above, below⟩
  · refine ⟨le_rfl, le_rfl, nonneg, ?_⟩
    omega
  · rw [stop_sub a _ le_rfl, start_sub a _ _ le_rfl, len_sub]
    omega
  · have inside : start a ≤ hi := by omega
    rw [stop_sub a _ inside, start_sub a _ _ inside, len_sub]
    omega

theorem pieces_laid (order : lo ≤ hi) {a : α} (nonneg : 0 ≤ len a) :
    Laid (pieces lo hi a) := by
  have bounds := fun x (member : x ∈ pieces lo hi a) => pieces_bounds order nonneg member
  refine ⟨?_, fun x member => (bounds x member).2.2.1⟩
  unfold pieces
  split_ifs with below apart above
  · exact List.pairwise_singleton _ _
  · have inside : start a ≤ hi := by omega
    refine List.pairwise_cons.mpr ⟨?_, List.pairwise_singleton _ _⟩
    intro x member
    rw [List.mem_singleton.mp member, stop_sub a _ le_rfl, start_sub a _ _ le_rfl,
      start_sub a _ _ inside]
    omega
  · exact List.pairwise_singleton _ _
  · exact List.pairwise_singleton _ _
  · exact List.pairwise_singleton _ _
  · exact List.Pairwise.nil

/-- Carving keeps a chain laid. -/
theorem Laid.carve (laid : Laid chain) (order : lo ≤ hi) : Laid (carve lo hi chain) := by
  induction chain with
  | nil => exact Laid.nil
  | cons a chain ih =>
      obtain ⟨nonneg, across, tailLaid⟩ := Laid.cons_iff.mp laid
      rw [carve_cons]
      refine Laid.append_iff.mpr ⟨pieces_laid order nonneg, ih tailLaid, ?_⟩
      intro x xMember y yMember
      obtain ⟨b, bMember, yPiece⟩ := mem_carve.mp yMember
      have xBounds := pieces_bounds order nonneg xMember
      have yBounds := pieces_bounds order (tailLaid.nonneg b bMember) yPiece
      have apart := across b bMember
      have xStop : start x ≤ stop x := by
        rw [stop]
        omega
      refine ⟨?_, by omega⟩
      rcases mem_pieces.mp xMember with ⟨rfl, _⟩ | ⟨rfl, _, _⟩ | ⟨rfl, above, below⟩
      · omega
      · rw [start_sub a _ _ le_rfl]
        omega
      · have inside : start a ≤ hi := by omega
        rw [start_sub a _ _ inside]
        omega

/-- A member clear of the range is kept as it is. -/
theorem mem_carve_of_outside {a : α} (member : a ∈ chain)
    (outside : stop a ≤ lo ∧ start a < lo ∨ hi ≤ start a ∧ lo ≤ start a) :
    a ∈ Extent.carve lo hi chain := by
  refine mem_carve.mpr ⟨a, member, mem_pieces.mpr (Or.inl ⟨rfl, ?_⟩)⟩
  omega

/-- Nothing is left over the carved range. -/
theorem not_over_carve (laid : Laid chain) (order : lo ≤ hi) {x : α}
    (member : x ∈ Extent.carve lo hi chain) {b : Int} (inRange : lo ≤ b ∧ b < hi) :
    ¬Over x b := by
  obtain ⟨a, aMember, piece⟩ := mem_carve.mp member
  have bounds := pieces_bounds order (laid.nonneg a aMember) piece
  rintro ⟨low, high⟩
  omega

/-- Over a position outside the range, the pieces of an extent are over it when
the extent is. -/
theorem exists_piece_over (order : lo ≤ hi) {a : α} {b : Int} (covers : Over a b)
    (outside : ¬(lo ≤ b ∧ b < hi)) : ∃ x ∈ pieces lo hi a, Over x b := by
  obtain ⟨low, high⟩ := covers
  by_cases below : start a < lo
  · by_cases apart : stop a ≤ lo
    · exact ⟨a, mem_pieces.mpr (Or.inl ⟨rfl, by omega⟩), low, high⟩
    · by_cases left : b < lo
      · refine ⟨_, mem_pieces.mpr (Or.inr (Or.inl ⟨rfl, below, by omega⟩)), ?_⟩
        rw [Over, start_sub a _ _ le_rfl, stop_sub a _ le_rfl]
        omega
      · have inside : start a ≤ hi := by omega
        refine ⟨_, mem_pieces.mpr (Or.inr (Or.inr ⟨rfl, by omega, by omega⟩)), ?_⟩
        rw [Over, start_sub a _ _ inside, stop_sub a _ inside]
        omega
  · by_cases apart : hi ≤ start a
    · exact ⟨a, mem_pieces.mpr (Or.inl ⟨rfl, by omega⟩), low, high⟩
    · have inside : start a ≤ hi := by omega
      refine ⟨_, mem_pieces.mpr (Or.inr (Or.inr ⟨rfl, by omega, by omega⟩)), ?_⟩
      rw [Over, start_sub a _ _ inside, stop_sub a _ inside]
      omega

/-- The image of a position does not depend on how its extent was cut. -/
def CutInvariant (image : α → Int → β) : Prop :=
  ∀ a offset length b, start a ≤ offset → image (sub a offset length) b = image a b

theorem image_piece (invariant : CutInvariant image) {a x : α} (order : lo ≤ hi)
    (member : x ∈ pieces lo hi a) (b : Int) : image x b = image a b := by
  rcases mem_pieces.mp member with ⟨rfl, _⟩ | ⟨rfl, _, _⟩ | ⟨rfl, _, _⟩
  · rfl
  · exact invariant a _ _ b le_rfl
  · exact invariant a _ _ b (by omega)

/-- Carving removes exactly the range from the map. -/
theorem valueAt_carve (invariant : CutInvariant image) (laid : Laid chain) (order : lo ≤ hi)
    (b : Int) :
    valueAt image (Extent.carve lo hi chain) b =
      if lo ≤ b ∧ b < hi then none else valueAt image chain b := by
  split_ifs with inRange
  · exact valueAt_eq_none_iff.mpr fun x member => not_over_carve laid order member inRange
  · apply valueAt_congr (laid.carve order) laid
    intro value
    constructor
    · rintro ⟨x, member, covers, equal⟩
      obtain ⟨a, aMember, piece⟩ := mem_carve.mp member
      have bounds := pieces_bounds order (laid.nonneg a aMember) piece
      refine ⟨a, aMember, ⟨bounds.1.trans covers.1, covers.2.trans_le bounds.2.1⟩, ?_⟩
      rw [← image_piece invariant order piece b, equal]
    · rintro ⟨a, member, covers, equal⟩
      obtain ⟨x, piece, xOver⟩ := exists_piece_over order covers inRange
      refine ⟨x, mem_carve.mpr ⟨a, member, piece⟩, xOver, ?_⟩
      rw [image_piece invariant order piece b, equal]

/-- The extent does not survive the carving of `[lo, hi)` as it is. -/
def Touched (lo hi : Int) (a : α) : Prop :=
  start a < lo ∧ lo < stop a ∨ lo ≤ start a ∧ start a < hi

instance (lo hi : Int) (a : α) : Decidable (Touched lo hi a) :=
  inferInstanceAs (Decidable (_ ∨ _))

theorem pieces_of_not_touched {a : α} (untouched : ¬Touched lo hi a) :
    pieces lo hi a = [a] := by
  unfold Touched at untouched
  unfold pieces
  split_ifs <;> first | rfl | omega

/-- An extent that starts below the range and reaches into it is cut in front,
and behind when it reaches past the range. -/
theorem pieces_of_below {a : α} (below : start a < lo) (reaches : lo < stop a) :
    pieces lo hi a = sub a (start a) (lo - start a) ::
      if hi < stop a then [sub a hi (stop a - hi)] else [] := by
  rw [pieces, if_pos below, if_neg (not_le.mpr reaches)]

/-- An extent that starts in the range is cut only behind. -/
theorem pieces_of_inside {a : α} (inRange : lo ≤ start a) (starts : start a < hi) :
    pieces lo hi a = if hi < stop a then [sub a hi (stop a - hi)] else [] := by
  rw [pieces, if_neg (not_lt.mpr inRange), if_neg (not_le.mpr starts)]

/-- The pieces of a touched extent are not empty and start inside it. -/
theorem piece_of_touched (order : lo ≤ hi) {a x : α} (nonneg : 0 ≤ len a)
    (touched : Touched lo hi a) (member : x ∈ pieces lo hi a) :
    0 < len x ∧ start a ≤ start x ∧ start x < stop a := by
  unfold Touched at touched
  rcases mem_pieces.mp member with ⟨rfl, outside⟩ | ⟨rfl, below, above⟩ | ⟨rfl, above, below⟩
  · omega
  · rw [len_sub, start_sub a _ _ le_rfl]
    omega
  · have inside : start a ≤ hi := by omega
    rw [len_sub, start_sub a _ _ inside]
    omega

/-- Carving leaves no empty extent behind when there was none. -/
theorem positive_of_mem_carve (order : lo ≤ hi) (positive : ∀ a ∈ chain, 0 < len a) {x : α}
    (member : x ∈ Extent.carve lo hi chain) : 0 < len x := by
  obtain ⟨a, aMember, piece⟩ := mem_carve.mp member
  by_cases touched : Touched lo hi a
  · exact (piece_of_touched order (positive a aMember).le touched piece).1
  · rw [pieces_of_not_touched touched, List.mem_singleton] at piece
    rw [piece]
    exact positive a aMember

theorem carve_eq_self (untouched : ∀ a ∈ chain, ¬Touched lo hi a) :
    Extent.carve lo hi chain = chain := by
  induction chain with
  | nil => rfl
  | cons a chain ih =>
      rw [carve_cons, pieces_of_not_touched (untouched a List.mem_cons_self),
        ih fun b member => untouched b (List.mem_cons_of_mem _ member)]
      rfl

/-- A piece of a touched extent has a start that no untouched member has. -/
theorem start_ne_of_touched (laid : Laid chain) (order : lo ≤ hi) {a u x : α}
    (aMember : a ∈ chain) (touched : Touched lo hi a) (piece : x ∈ pieces lo hi a)
    (uMember : u ∈ chain) (untouched : ¬Touched lo hi u) : start u ≠ start x := by
  obtain ⟨_, low, high⟩ :=
    piece_of_touched order (laid.nonneg a aMember) touched piece
  intro equal
  rcases lt_trichotomy (start a) (start u) with less | same | greater
  · have bound := laid.stop_le_of_start_lt aMember uMember less
    omega
  · rw [laid.ascending.eq_of_key_eq aMember uMember same] at touched
    exact untouched touched
  · omega

/-- Deleting the touched members and inserting some of their pieces leaves these pieces and the
members that are not touched. -/
theorem insertAll_deleteAll_spec (skiplist : UniqSkiplist (start : α → Int))
    (laid : Laid chain) (order : lo ≤ hi) {kept : List α}
    (sublist : kept.Sublist ((chain.filter fun a => Touched lo hi a).flatMap (pieces lo hi))) :
    Ascending start (skiplist.insertAll kept
        (skiplist.deleteAll ((chain.filter fun a => Touched lo hi a).map start) chain)) ∧
      ∀ x, x ∈ skiplist.insertAll kept
          (skiplist.deleteAll ((chain.filter fun a => Touched lo hi a).map start) chain) ↔
        x ∈ kept ∨ x ∈ chain ∧ ¬Touched lo hi x := by
  have carved := laid.carve order
  have keptIff : ∀ x, x ∈ skiplist.deleteAll
      ((chain.filter fun a => Touched lo hi a).map start) chain ↔
        x ∈ chain ∧ ¬Touched lo hi x := by
    intro x
    rw [skiplist.mem_deleteAll _ laid.ascending]
    constructor
    · rintro ⟨member, absent⟩
      refine ⟨member, fun touched => absent ?_⟩
      exact List.mem_map.mpr ⟨x, List.mem_filter.mpr ⟨member, by simpa using touched⟩, rfl⟩
    · rintro ⟨member, untouched⟩
      refine ⟨member, fun present => ?_⟩
      obtain ⟨a, aMember, equal⟩ := List.mem_map.mp present
      obtain ⟨aChain, touched⟩ := List.mem_filter.mp aMember
      rw [laid.ascending.eq_of_key_eq aChain member equal] at touched
      exact untouched (by simpa using touched)
  have addedSub : kept.Sublist (Extent.carve lo hi chain) :=
    sublist.trans (List.Sublist.flatMap List.filter_sublist _)
  have distinct : kept.Pairwise fun left right => start left ≠ start right :=
    (carved.ascending.sublist addedSub).imp fun less => less.ne
  have fresh : ∀ x ∈ kept,
      ∀ u ∈ skiplist.deleteAll ((chain.filter fun a => Touched lo hi a).map start) chain,
        start u ≠ start x := by
    intro x member u uMember
    obtain ⟨a, aMember, piece⟩ := List.mem_flatMap.mp (sublist.subset member)
    obtain ⟨aChain, touched⟩ := List.mem_filter.mp aMember
    obtain ⟨uChain, untouched⟩ := (keptIff u).mp uMember
    exact start_ne_of_touched laid order aChain (by simpa using touched) piece uChain untouched
  obtain ⟨sorted, members⟩ := skiplist.insertAll_spec _
    (skiplist.deleteAll_ascending _ laid.ascending) distinct fresh
  refine ⟨sorted, fun x => ?_⟩
  rw [members, keptIff]

/-- Deleting the touched members and inserting their pieces is carving. -/
theorem insertAll_deleteAll_eq_carve (skiplist : UniqSkiplist (start : α → Int))
    (laid : Laid chain) (order : lo ≤ hi) :
    skiplist.insertAll ((chain.filter fun a => Touched lo hi a).flatMap (pieces lo hi))
        (skiplist.deleteAll ((chain.filter fun a => Touched lo hi a).map start) chain) =
      Extent.carve lo hi chain := by
  obtain ⟨sorted, members⟩ :=
    insertAll_deleteAll_spec skiplist laid order (List.Sublist.refl _)
  apply sorted.eq_of_mem_iff (laid.carve order).ascending
  intro x
  rw [members, mem_carve, List.mem_flatMap]
  constructor
  · rintro (⟨a, aMember, piece⟩ | ⟨member, untouched⟩)
    · exact ⟨a, (List.mem_filter.mp aMember).1, piece⟩
    · exact ⟨x, member, by simp [pieces_of_not_touched untouched]⟩
  · rintro ⟨a, aMember, piece⟩
    by_cases touched : Touched lo hi a
    · exact Or.inl ⟨a, List.mem_filter.mpr ⟨aMember, by simpa using touched⟩, piece⟩
    · rw [pieces_of_not_touched touched, List.mem_singleton] at piece
      subst piece
      exact Or.inr ⟨aMember, touched⟩

/-! ## Overwriting -/

/-- Linking an extent into a chain that keeps clear of it keeps the chain laid. -/
theorem Laid.insert (laid : Laid chain) {a : α} (nonneg : 0 ≤ len a)
    (clear : ∀ x ∈ chain, start x < start a ∧ stop x ≤ start a ∨
      start a < start x ∧ stop a ≤ start x) :
    Laid (Chain.insert start a chain) := by
  have fresh : ∀ x ∈ chain, start x ≠ start a := by
    intro x member
    rcases clear x member with before | behind <;> omega
  apply Laid.of_ascending (Chain.ascending_insert laid.ascending fresh)
  · intro x member
    rcases Chain.mem_insert.mp member with rfl | inChain
    · exact nonneg
    · exact laid.nonneg x inChain
  · intro x xMember y yMember less
    rcases Chain.mem_insert.mp xMember with rfl | xChain
    · rcases Chain.mem_insert.mp yMember with rfl | yChain
      · exact absurd less (lt_irrefl _)
      · rcases clear y yChain with before | behind <;> omega
    · rcases Chain.mem_insert.mp yMember with rfl | yChain
      · rcases clear x xChain with before | behind <;> omega
      · exact laid.stop_le_of_start_lt xChain yChain less

/-- The extents left by carving keep clear of an extent over the carved range. -/
theorem clear_of_carve (laid : Laid chain) {a : α} (positive : 0 < len a) {x : α}
    (member : x ∈ Extent.carve (start a) (stop a) chain) :
    start x < start a ∧ stop x ≤ start a ∨ start a < start x ∧ stop a ≤ start x := by
  have order : start a ≤ stop a := by
    rw [stop]
    omega
  have strict : start a < stop a := by
    rw [stop]
    omega
  obtain ⟨b, bMember, piece⟩ := mem_carve.mp member
  have bounds := pieces_bounds order (laid.nonneg b bMember) piece
  rcases mem_pieces.mp piece with ⟨rfl, outside⟩ | ⟨rfl, below, above⟩ | ⟨rfl, above, below⟩
  · omega
  · rw [start_sub b _ _ le_rfl, stop_sub b _ le_rfl]
    omega
  · have inside : start b ≤ stop a := by omega
    rw [start_sub b _ _ inside, stop_sub b _ inside]
    omega

/-- Carve the range of an extent out of the chain and link the extent there. -/
def overwrite (a : α) (chain : List α) : List α :=
  Chain.insert start a (Extent.carve (start a) (stop a) chain)

theorem Laid.overwrite (laid : Laid chain) {a : α} (positive : 0 < len a) :
    Laid (overwrite a chain) := by
  have order : start a ≤ stop a := by
    rw [stop]
    omega
  exact (laid.carve order).insert positive.le fun x member => clear_of_carve laid positive member

/-- Overwriting sets the map on the range of the extent and nowhere else, also for an empty extent
that finds its place free. -/
theorem valueAt_overwrite_of_laid (invariant : CutInvariant image) (laid : Laid chain) {a : α}
    (nonneg : 0 ≤ len a) (linked : Laid (overwrite a chain)) (b : Int) :
    valueAt image (overwrite a chain) b =
      if Over a b then some (image a b) else valueAt image chain b := by
  have order : start a ≤ stop a := by
    rw [stop]
    omega
  have carved := valueAt_carve invariant laid order b
  by_cases covers : Over a b
  · rw [if_pos covers]
    exact (valueAt_eq_some_iff linked).mpr
      ⟨a, Chain.mem_insert.mpr (Or.inl rfl), covers, rfl⟩
  · rw [if_neg covers]
    rw [if_neg (show ¬(start a ≤ b ∧ b < stop a) from covers)] at carved
    rw [← carved]
    apply valueAt_congr linked (laid.carve order)
    intro value
    constructor
    · rintro ⟨x, member, xOver, equal⟩
      rcases Chain.mem_insert.mp member with rfl | inCarved
      · exact absurd xOver covers
      · exact ⟨x, inCarved, xOver, equal⟩
    · rintro ⟨x, member, xOver, equal⟩
      exact ⟨x, Chain.mem_insert.mpr (Or.inr member), xOver, equal⟩

theorem valueAt_overwrite (invariant : CutInvariant image) (laid : Laid chain) {a : α}
    (positive : 0 < len a) (b : Int) :
    valueAt image (overwrite a chain) b =
      if Over a b then some (image a b) else valueAt image chain b :=
  valueAt_overwrite_of_laid invariant laid positive.le (laid.overwrite positive) b

/-! ## Scanning a chain for a range

A walk over a chain for the range `[lo, hi)` looks at the last member below `lo`
and then at the members from `lo` on, up to the first that starts at or behind
`hi` or ends behind it. -/

/-- Below the range only the last member can reach into it. -/
theorem filter_touched_below (laid : Laid chain) (below : ∀ a ∈ chain, start a < lo) :
    (chain.filter fun a => Touched lo hi a) =
      (chain.getLast?.filter fun a => lo < stop a).toList := by
  induction chain with
  | nil => rfl
  | cons a chain ih =>
      obtain ⟨_, across, tailLaid⟩ := Laid.cons_iff.mp laid
      have headBelow := below a List.mem_cons_self
      have tail := ih tailLaid fun b member => below b (List.mem_cons_of_mem _ member)
      cases chain with
      | nil =>
          by_cases reaches : lo < stop a
          · have touched : Touched lo hi a := Or.inl ⟨headBelow, reaches⟩
            simp [touched, reaches, Option.filter]
          · have untouched : ¬Touched lo hi a := by
              unfold Touched
              omega
            simp [untouched, reaches, Option.filter]
      | cons next rest =>
          have nextBelow := below next (List.mem_cons_of_mem _ List.mem_cons_self)
          have apart := (across next List.mem_cons_self).2
          have untouched : ¬Touched lo hi a := by
            unfold Touched
            omega
          rw [List.getLast?_cons_cons, ← tail, List.filter_cons_of_neg (by simpa using untouched)]

/-- From the range on, nothing at or behind a member that starts behind it is
touched. -/
theorem filter_touched_behind {a : α} (laid : Laid (a :: chain)) (order : lo ≤ hi)
    (behind : hi ≤ start a) : ((a :: chain).filter fun b => Touched lo hi b) = [] := by
  obtain ⟨_, across, _⟩ := Laid.cons_iff.mp laid
  refine List.filter_eq_nil_iff.mpr ?_
  intro b member
  have startBound : start a ≤ start b := by
    rcases List.mem_cons.mp member with rfl | inTail
    · exact le_rfl
    · exact (across b inTail).1.le
  rw [decide_eq_true_eq, Touched]
  omega

/-- From the range on, nothing after a member that ends behind it is touched. -/
theorem filter_touched_last {a : α} (laid : Laid (a :: chain)) (inRange : lo ≤ start a)
    (starts : start a < hi) (ends : hi < stop a) :
    ((a :: chain).filter fun b => Touched lo hi b) = [a] := by
  obtain ⟨_, across, _⟩ := Laid.cons_iff.mp laid
  have touched : Touched lo hi a := Or.inr ⟨inRange, starts⟩
  have rest : (chain.filter fun b => Touched lo hi b) = [] := by
    refine List.filter_eq_nil_iff.mpr ?_
    intro b member
    have apart := across b member
    rw [decide_eq_true_eq, Touched]
    omega
  rw [List.filter_cons_of_pos (by simpa using touched), rest]

theorem filter_touched_cons {a : α} (inRange : lo ≤ start a) (starts : start a < hi) :
    ((a :: chain).filter fun b => Touched lo hi b) =
      a :: chain.filter fun b => Touched lo hi b := by
  have touched : Touched lo hi a := Or.inr ⟨inRange, starts⟩
  rw [List.filter_cons_of_pos (by simpa using touched)]

/-! ## How much of a range a chain covers -/

/-- The number of positions of `[lo, hi)` under an extent. -/
def overlap (lo hi : Int) (a : α) : Int :=
  max 0 (min hi (stop a) - max lo (start a))

/-- The number of positions of `[lo, hi)` under the extents of a chain. -/
def covered (lo hi : Int) (chain : List α) : Int :=
  (chain.map (overlap lo hi)).sum

theorem overlap_of_not_touched {a : α} (untouched : ¬Touched lo hi a) :
    overlap lo hi a = 0 := by
  unfold Touched at untouched
  unfold overlap
  omega

/-- Only touched members count. -/
theorem covered_eq_touched (lo hi : Int) (chain : List α) :
    covered lo hi chain = covered lo hi (chain.filter fun a => Touched lo hi a) := by
  induction chain with
  | nil => rfl
  | cons a chain ih =>
      by_cases touched : Touched lo hi a
      · rw [List.filter_cons_of_pos (by simpa using touched)]
        simp only [covered, List.map_cons, List.sum_cons] at ih ⊢
        rw [ih]
      · rw [List.filter_cons_of_neg (by simpa using touched), ← ih]
        simp only [covered, List.map_cons, List.sum_cons, overlap_of_not_touched touched, zero_add]

theorem card_over (a : α) :
    (((Finset.Ico lo hi).filter fun b => Over a b).card : Int) = overlap lo hi a := by
  have range : ((Finset.Ico lo hi).filter fun b => Over a b) =
      Finset.Ico (max lo (start a)) (min hi (stop a)) := by
    ext b
    rw [Finset.mem_filter, Finset.mem_Ico, Finset.mem_Ico, Over]
    omega
  rw [range, Int.card_Ico, overlap]
  omega

/-- `covered` counts the positions of the range that some member lies over. -/
theorem card_covered (laid : Laid chain) :
    (((Finset.Ico lo hi).filter fun b => ∃ a ∈ chain, Over a b).card : Int) =
      covered lo hi chain := by
  induction chain with
  | nil => simp [covered]
  | cons a chain ih =>
      obtain ⟨_, _, tailLaid⟩ := Laid.cons_iff.mp laid
      have split : ((Finset.Ico lo hi).filter fun b => ∃ c ∈ a :: chain, Over c b) =
          ((Finset.Ico lo hi).filter fun b => Over a b) ∪
            ((Finset.Ico lo hi).filter fun b => ∃ c ∈ chain, Over c b) := by
        ext b
        simp only [Finset.mem_filter, Finset.mem_union, List.mem_cons, exists_eq_or_imp]
        tauto
      have disjoint : Disjoint ((Finset.Ico lo hi).filter fun b => Over a b)
          ((Finset.Ico lo hi).filter fun b => ∃ c ∈ chain, Over c b) := by
        rw [Finset.disjoint_left]
        intro b inHead inTail
        obtain ⟨_, headOver⟩ := Finset.mem_filter.mp inHead
        obtain ⟨_, c, cMember, cOver⟩ := Finset.mem_filter.mp inTail
        obtain ⟨_, across, _⟩ := Laid.cons_iff.mp laid
        have apart := (across c cMember).2
        exact absurd (headOver.2.trans_le apart) (not_lt.mpr cOver.1)
      rw [split, Finset.card_union_of_disjoint disjoint, Nat.cast_add, ih tailLaid, card_over]
      simp [covered]

theorem covered_nonneg : 0 ≤ covered lo hi chain := by
  refine List.sum_nonneg ?_
  intro x member
  obtain ⟨a, _, rfl⟩ := List.mem_map.mp member
  exact le_max_left _ _

/-- The count is the length of the range exactly when the range is covered. -/
theorem covered_eq_length_iff (laid : Laid chain) (order : lo ≤ hi) :
    covered lo hi chain = hi - lo ↔ ∀ b, lo ≤ b → b < hi → ∃ a ∈ chain, Over a b := by
  have total : ((Finset.Ico lo hi).card : Int) = hi - lo := by
    rw [Int.card_Ico]
    omega
  rw [← card_covered laid, ← total, Nat.cast_inj, Finset.card_filter_eq_iff]
  simp only [Finset.mem_Ico, and_imp]

end Extent

end FastStore.Util
