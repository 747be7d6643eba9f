import FastStore.Storage.IndexTable

/-!
# The block index refines a byte map

What a block means to a reader is a map from its bytes to places in trunk files.
An add assigns the bytes of its slice, a delete unassigns the bytes of its range,
and the last call over a byte decides.  The index holds this map as laid chains
of slices; a get returns the part of it that lies in the requested range.
-/

namespace FastStore.Storage

open FastStore.Util FastStore.Util.Extent

/-! ## The abstract map -/

/-- Where a byte is stored and what kind of space it is. -/
structure TrunkByte where
  store : Nat
  idInfo : FSTrunkIdInfo
  offset : Int
  type : OBSliceType
  deriving DecidableEq, Repr

/-- The place a slice assigns to a byte of its block. -/
def OBSliceEntry.byteAt (slice : OBSliceEntry) (b : Int) : TrunkByte :=
  ⟨slice.space.store, slice.space.idInfo, slice.space.offset + (b - slice.ssize.offset),
    slice.type⟩

/-- `slice_dup` shifts the trunk offset so that every byte keeps its place. -/
theorem OBSliceEntry.byteAt_sliceDup (slice : OBSliceEntry) {offset : Int} (length b : Int)
    (inside : slice.ssize.offset ≤ offset) :
    (sliceDup slice offset length).byteAt b = slice.byteAt b := by
  rw [byteAt, byteAt, sliceDup_store, sliceDup_idInfo, sliceDup_type,
    sliceDup_space_offset slice length inside, sliceDup_offset slice length inside]
  congr 1
  omega

theorem OBSliceEntry.cutInvariant_byteAt : CutInvariant OBSliceEntry.byteAt := by
  intro slice offset length b inside
  exact slice.byteAt_sliceDup length b inside

/-- A call that changes the index; `withSn` says whether the caller asks for a
sequence number. -/
inductive IndexOp where
  | addSlice (withSn : Bool) (slice : OBSliceEntry)
  | deleteSlices (withSn : Bool) (bsKey : FSBlockSliceKeyInfo)
  | deleteBlock (withSn : Bool) (bkey : FSBlockKey)

namespace IndexOp

/-- The range of the call is not empty. -/
def Positive : IndexOp → Prop
  | addSlice _ slice => 0 < slice.ssize.length
  | deleteSlices _ bsKey => 0 < bsKey.slice.length
  | deleteBlock _ _ => True

instance : (op : IndexOp) → Decidable op.Positive
  | addSlice _ slice => inferInstanceAs (Decidable (0 < slice.ssize.length))
  | deleteSlices _ bsKey => inferInstanceAs (Decidable (0 < bsKey.slice.length))
  | deleteBlock _ _ => inferInstanceAs (Decidable True)

/-- What the call does to a byte of a block: nothing, or set it to a place or to
uncovered. -/
def effect (bkey : FSBlockKey) (b : Int) : IndexOp → Option (Option TrunkByte)
  | addSlice _ slice =>
      if slice.ob = bkey ∧ slice.ssize.offset ≤ b ∧ b < slice.sliceEnd then
        some (some (slice.byteAt b)) else none
  | deleteSlices _ bsKey =>
      if bsKey.block = bkey ∧ bsKey.slice.offset ≤ b ∧
        b < bsKey.slice.offset + bsKey.slice.length then some none else none
  | deleteBlock _ deleted => if deleted = bkey then some none else none

end IndexOp

/-- The byte map after a sequence of calls: the last call over the byte decides. -/
def byteMapOf (ops : List IndexOp) (bkey : FSBlockKey) (b : Int) : Option TrunkByte :=
  (ops.reverse.findSome? (IndexOp.effect bkey b)).join

theorem byteMapOf_concat (ops : List IndexOp) (op : IndexOp) (bkey : FSBlockKey) (b : Int) :
    byteMapOf (ops ++ [op]) bkey b = (op.effect bkey b).getD (byteMapOf ops bkey b) := by
  rw [byteMapOf, List.reverse_append, List.reverse_singleton, List.singleton_append,
    List.findSome?_cons]
  cases op.effect bkey b <;> rfl

/-! ## The index calls on the map of a block

The map may look at slices in any way that does not depend on how they are cut. -/

section Calls

variable (sl : UniqSkiplist OBSliceEntry.key) {state : IndexState} (withSn : Bool)
  {β : Type} {image : OBSliceEntry → Int → β}

theorem valueAt_allocAndAddSlice (invariant : CutInvariant image) (sound : state.htable.Sound)
    {slice : OBSliceEntry} (positive : 0 < slice.ssize.length) (bkey : FSBlockKey) (b : Int) :
    valueAt image ((allocAndAddSlice sl withSn slice state).2.2.htable.slicesOf bkey) b =
      if slice.ob = bkey ∧ slice.ssize.offset ≤ b ∧ b < slice.sliceEnd then some (image slice b)
      else valueAt image (state.htable.slicesOf bkey) b := by
  rw [slicesOf_allocAndAddSlice sl withSn sound positive]
  by_cases same : bkey = slice.ob
  · subst same
    rw [if_pos rfl, valueAt_overwrite invariant (sound.laid slice.ob) positive]
    exact if_congr (by simp [Over]) rfl rfl
  · rw [if_neg same, if_neg fun both => same both.1.symm]

theorem valueAt_obIndexDeleteSlicesEx (invariant : CutInvariant image)
    (sound : state.htable.Sound) {bsKey : FSBlockSliceKeyInfo}
    (nonneg : 0 ≤ bsKey.slice.length) (bkey : FSBlockKey) (b : Int) :
    valueAt image ((obIndexDeleteSlicesEx sl withSn bsKey state).2.2.htable.slicesOf bkey) b =
      if bsKey.block = bkey ∧ bsKey.slice.offset ≤ b ∧
        b < bsKey.slice.offset + bsKey.slice.length then none
      else valueAt image (state.htable.slicesOf bkey) b := by
  rw [slicesOf_obIndexDeleteSlicesEx sl withSn sound nonneg]
  by_cases same : bkey = bsKey.block
  · subst same
    rw [if_pos rfl, valueAt_carve invariant (sound.laid bsKey.block) (by omega)]
    simp
  · rw [if_neg same, if_neg fun both => same both.1.symm]

theorem valueAt_obIndexDeleteBlockEx (wf : state.htable.WellFormed) (deleted bkey : FSBlockKey)
    (b : Int) :
    valueAt image ((obIndexDeleteBlockEx withSn deleted state).2.2.htable.slicesOf bkey) b =
      if deleted = bkey then none else valueAt image (state.htable.slicesOf bkey) b := by
  rw [slicesOf_obIndexDeleteBlockEx withSn wf]
  by_cases same : bkey = deleted
  · rw [if_pos same, if_pos same.symm]
    rfl
  · rw [if_neg same, if_neg fun equal => same equal.symm]

end Calls

/-! ## Runs -/

section Runs

variable (sl : UniqSkiplist OBSliceEntry.key)

/-- One call. -/
def IndexOp.apply (state : IndexState) : IndexOp → IndexState
  | addSlice withSn slice => (allocAndAddSlice sl withSn slice state).2.2
  | deleteSlices withSn bsKey => (obIndexDeleteSlicesEx sl withSn bsKey state).2.2
  | deleteBlock withSn bkey => (obIndexDeleteBlockEx withSn bkey state).2.2

/-- A sequence of calls. -/
def runIndexOps (state : IndexState) (ops : List IndexOp) : IndexState :=
  ops.foldl (IndexOp.apply sl) state

/-- The index after the calls `ops` is a byte map in laid chains of non-empty
slices. -/
structure RefinesByteMap (ops : List IndexOp) (htable : OBHashtable) : Prop where
  sound : htable.Sound
  positive : ∀ bkey, ∀ slice ∈ htable.slicesOf bkey, 0 < slice.ssize.length
  value : ∀ bkey b, valueAt OBSliceEntry.byteAt (htable.slicesOf bkey) b = byteMapOf ops bkey b

/-- The index is empty before the first call. -/
theorem RefinesByteMap.empty {htable : OBHashtable} (empty : ∀ i, htable.buckets i = []) :
    RefinesByteMap [] htable := by
  have none : ∀ bkey, htable.slicesOf bkey = [] := by
    intro bkey
    simp [OBHashtable.slicesOf, OBHashtable.getObEntry, empty, getObEntryEx]
  have wf : htable.WellFormed := by
    constructor
    · intro i
      rw [empty]
      exact Ascending.nil _
    · intro i ob member
      rw [empty] at member
      cases member
  refine ⟨⟨wf, fun bkey => ?_⟩, fun bkey slice member => ?_, fun bkey b => ?_⟩
  · rw [none]
    exact Laid.nil
  · rw [none] at member
    cases member
  · rw [none]
    rfl

/-- Each call keeps the refinement. -/
theorem RefinesByteMap.step {ops : List IndexOp} {state : IndexState}
    (refines : RefinesByteMap ops state.htable) {op : IndexOp} (positive : op.Positive) :
    RefinesByteMap (ops ++ [op]) (op.apply sl state).htable := by
  cases op with
  | addSlice withSn slice =>
      have positive : 0 < slice.ssize.length := positive
      refine ⟨sound_allocAndAddSlice sl withSn refines.sound positive, ?_, ?_⟩
      · intro bkey other member
        simp only [IndexOp.apply] at member
        rw [slicesOf_allocAndAddSlice sl withSn refines.sound positive] at member
        split_ifs at member with same
        · rcases Chain.mem_insert.mp member with rfl | kept
          · exact positive
          · have order : slice.ssize.offset ≤ slice.sliceEnd :=
              le_add_of_nonneg_right positive.le
            exact positive_of_mem_carve order (refines.positive slice.ob) kept
        · exact refines.positive bkey other member
      · intro bkey b
        rw [byteMapOf_concat, ← refines.value]
        simp only [IndexOp.apply]
        rw [valueAt_allocAndAddSlice sl withSn OBSliceEntry.cutInvariant_byteAt refines.sound
          positive, IndexOp.effect]
        split_ifs <;> rfl
  | deleteSlices withSn bsKey =>
      have nonneg : 0 ≤ bsKey.slice.length := positive.le
      refine ⟨sound_obIndexDeleteSlicesEx sl withSn refines.sound nonneg, ?_, ?_⟩
      · intro bkey other member
        simp only [IndexOp.apply] at member
        rw [slicesOf_obIndexDeleteSlicesEx sl withSn refines.sound nonneg] at member
        split_ifs at member with same
        · exact positive_of_mem_carve (by omega) (refines.positive bsKey.block) member
        · exact refines.positive bkey other member
      · intro bkey b
        rw [byteMapOf_concat, ← refines.value]
        simp only [IndexOp.apply]
        rw [valueAt_obIndexDeleteSlicesEx sl withSn OBSliceEntry.cutInvariant_byteAt
          refines.sound nonneg, IndexOp.effect]
        split_ifs <;> rfl
  | deleteBlock withSn deleted =>
      refine ⟨sound_obIndexDeleteBlockEx withSn refines.sound deleted, ?_, ?_⟩
      · intro bkey other member
        simp only [IndexOp.apply] at member
        rw [slicesOf_obIndexDeleteBlockEx withSn refines.sound.wf] at member
        split_ifs at member with same
        · cases member
        · exact refines.positive bkey other member
      · intro bkey b
        rw [byteMapOf_concat, ← refines.value]
        simp only [IndexOp.apply]
        rw [valueAt_obIndexDeleteBlockEx withSn refines.sound.wf, IndexOp.effect]
        split_ifs <;> rfl

/-- Every sequence of calls keeps the refinement. -/
theorem RefinesByteMap.run {state : IndexState} (empty : ∀ i, state.htable.buckets i = [])
    {ops : List IndexOp} (positive : ∀ op ∈ ops, op.Positive) :
    RefinesByteMap ops (runIndexOps sl state ops).htable := by
  induction ops using List.reverseRecOn with
  | nil => exact RefinesByteMap.empty empty
  | append_singleton ops op ih =>
      have before := ih fun other member => positive other (List.mem_append_left _ member)
      have last := positive op (List.mem_append_right _ (List.mem_singleton_self op))
      rw [runIndexOps, List.foldl_append]
      exact before.step sl last

/-! ## Reading a range -/

/-- A touched slice of positive length has a non-empty part in the range. -/
theorem clipSlice_positive {lo hi : Int} {slice : OBSliceEntry} (order : lo < hi)
    (positive : 0 < slice.ssize.length) (touched : Touched lo hi slice) :
    0 < (clipSlice lo hi slice).ssize.length := by
  have low := clipSlice_offset lo hi slice
  have high := clipSlice_sliceEnd lo hi slice
  simp only [Touched, OBSliceEntry.start_eq, OBSliceEntry.stop_eq,
    OBSliceEntry.sliceEnd] at touched high
  omega

theorem byteAt_clipSlice {lo hi : Int} (slice : OBSliceEntry) (b : Int) :
    (clipSlice lo hi slice).byteAt b = slice.byteAt b := by
  unfold clipSlice
  split_ifs with below ends
  · exact slice.byteAt_sliceDup _ b below.le
  · exact slice.byteAt_sliceDup _ b le_rfl
  · rfl

/-- The slices that a get returns are laid out in ascending order. -/
theorem laid_getSlices {chain : List OBSliceEntry} (laid : Laid chain)
    (filled : ∀ slice ∈ chain, 0 < slice.ssize.length) {range : FSSliceSize}
    (positive : 0 < range.length) : Laid (getSlices sl chain range).2 := by
  have order : range.offset < range.offset + range.length := by omega
  rw [getSlices_snd sl laid positive.le]
  constructor
  · rw [List.pairwise_map]
    have apart := (laid.sublist List.filter_sublist :
      Laid (touchedSlices range.offset (range.offset + range.length) chain)).apart
    refine apart.imp_of_mem ?_
    intro left right leftMember rightMember both
    obtain ⟨leftChain, leftTouched⟩ := List.mem_filter.mp leftMember
    obtain ⟨rightChain, rightTouched⟩ := List.mem_filter.mp rightMember
    have leftTouched : Touched range.offset (range.offset + range.length) left := by
      simpa using leftTouched
    have rightTouched : Touched range.offset (range.offset + range.length) right := by
      simpa using rightTouched
    have leftFilled := filled left leftChain
    simp only [Touched, OBSliceEntry.start_eq, OBSliceEntry.stop_eq] at both leftTouched rightTouched ⊢
    rw [clipSlice_offset, clipSlice_offset, clipSlice_sliceEnd]
    simp only [OBSliceEntry.sliceEnd] at *
    omega
  · intro slice member
    obtain ⟨source, sourceMember, rfl⟩ := List.mem_map.mp member
    obtain ⟨sourceChain, touched⟩ := List.mem_filter.mp sourceMember
    exact (clipSlice_positive order (filled source sourceChain) (by simpa using touched)).le

/-- A get returns the restriction of the map to its range. -/
theorem valueAt_getSlices {chain : List OBSliceEntry} (laid : Laid chain)
    (filled : ∀ slice ∈ chain, 0 < slice.ssize.length) {range : FSSliceSize}
    (positive : 0 < range.length) (b : Int) :
    valueAt OBSliceEntry.byteAt (getSlices sl chain range).2 b =
      if range.offset ≤ b ∧ b < range.offset + range.length then
        valueAt OBSliceEntry.byteAt chain b
      else none := by
  have gotLaid := laid_getSlices sl laid filled positive
  have got := getSlices_snd sl laid positive.le
  split_ifs with inRange
  · apply valueAt_congr gotLaid laid
    intro value
    constructor
    · rintro ⟨slice, member, covers, equal⟩
      rw [got] at member
      obtain ⟨source, sourceMember, rfl⟩ := List.mem_map.mp member
      refine ⟨source, (List.mem_filter.mp sourceMember).1, ?_, ?_⟩
      · simp only [Over, OBSliceEntry.start_eq, OBSliceEntry.stop_eq, clipSlice_offset,
          clipSlice_sliceEnd] at covers ⊢
        omega
      · rw [← equal, byteAt_clipSlice]
    · rintro ⟨source, member, covers, equal⟩
      have touched : Touched range.offset (range.offset + range.length) source := by
        simp only [Over, Touched] at covers ⊢
        omega
      refine ⟨clipSlice range.offset (range.offset + range.length) source, ?_, ?_, ?_⟩
      · rw [got]
        exact List.mem_map_of_mem (List.mem_filter.mpr ⟨member, by simpa using touched⟩)
      · simp only [Over, OBSliceEntry.start_eq, OBSliceEntry.stop_eq, clipSlice_offset,
          clipSlice_sliceEnd] at covers ⊢
        omega
      · rw [byteAt_clipSlice, equal]
  · refine valueAt_eq_none_iff.mpr ?_
    intro slice member covers
    rw [got] at member
    obtain ⟨source, _, rfl⟩ := List.mem_map.mp member
    simp only [Over, OBSliceEntry.start_eq, OBSliceEntry.stop_eq, clipSlice_offset,
      clipSlice_sliceEnd] at covers
    omega

/-- A get fails exactly when no byte of its range is covered. -/
theorem getSlices_enoent_iff {chain : List OBSliceEntry} (laid : Laid chain)
    (filled : ∀ slice ∈ chain, 0 < slice.ssize.length) {range : FSSliceSize}
    (positive : 0 < range.length) :
    (getSlices sl chain range).1 = .enoent ↔
      ∀ b, range.offset ≤ b → b < range.offset + range.length →
        valueAt OBSliceEntry.byteAt chain b = none := by
  have order : range.offset < range.offset + range.length := by omega
  have restriction := valueAt_getSlices sl laid filled positive
  rw [getSlices_fst]
  constructor
  · intro failed b low high
    have empty : (getSlices sl chain range).2 = [] := by
      by_contra found
      rw [if_neg found] at failed
      cases failed
    have value := restriction b
    rw [empty, if_pos ⟨low, high⟩] at value
    exact value.symm
  · intro uncovered
    refine if_pos ?_
    rw [getSlices_snd sl laid positive.le, List.map_eq_nil_iff]
    refine List.filter_eq_nil_iff.mpr ?_
    intro slice member touched
    have touched : Touched range.offset (range.offset + range.length) slice := by
      simpa using touched
    have filledSlice := filled slice member
    have low := clipSlice_positive order filledSlice touched
    refine valueAt_eq_none_iff.mp (uncovered (max range.offset slice.ssize.offset) ?_ ?_)
      slice member ?_
    · omega
    · simp only [Touched, OBSliceEntry.start_eq, OBSliceEntry.stop_eq] at touched
      omega
    · simp only [Touched, Over, OBSliceEntry.start_eq, OBSliceEntry.stop_eq,
        OBSliceEntry.sliceEnd] at touched ⊢
      omega

end Runs

end FastStore.Storage
