import FastStore.Storage.ByteMap
import FastStore.Util.Footprint

/-!
# Space change reporting

An add reports how many bytes of its block are newly covered, a delete how many are no
longer covered.  Clients sum these numbers up to the size of a file, so they have to be the
change of the number of covered bytes, whatever the range overlaps.
-/

namespace FastStore.Storage

open FastStore.Util FastStore.Util.Extent

/-! ## The bytes of a block and of the index -/

/-- The number of bytes of a block that its slices cover. -/
noncomputable def OBHashtable.blockBytes (htable : OBHashtable) (bkey : FSBlockKey) : Int :=
  ({ b : Int | ∃ slice ∈ htable.slicesOf bkey, slice.ssize.offset ≤ b ∧ b < slice.sliceEnd }).ncard

/-- The covered bytes of all blocks. -/
def OBHashtable.coveredBytes (htable : OBHashtable) : Set (FSBlockKey × Int) :=
  { place | ∃ slice ∈ htable.slicesOf place.1,
      slice.ssize.offset ≤ place.2 ∧ place.2 < slice.sliceEnd }

theorem OBHashtable.blockBytes_eq (htable : OBHashtable) (bkey : FSBlockKey) :
    htable.blockBytes bkey = (footprint (htable.slicesOf bkey)).ncard := rfl

/-! ## `inc_alloc` -/

section Scan

variable {chain : List OBSliceEntry} {lo hi : Int}

/-- The end of the loop in `add_slice` counts the rest of the range. -/
def AddSliceScan.total (scan : AddSliceScan) (slice : OBSliceEntry) : Int :=
  if scan.newSpaceStart < slice.sliceEnd then
    scan.incAlloc + (slice.sliceEnd - scan.newSpaceStart) else scan.incAlloc

/-- Nothing of the range is covered when everything starts behind it. -/
theorem covered_behind (behind : ∀ curr ∈ chain, hi ≤ curr.ssize.offset) :
    covered lo hi chain = 0 := by
  unfold covered
  refine List.sum_eq_zero fun x member => ?_
  obtain ⟨curr, inChain, rfl⟩ := List.mem_map.mp member
  have start := behind curr inChain
  unfold overlap
  simp only [OBSliceEntry.start_eq]
  omega

theorem covered_cons (curr : OBSliceEntry) :
    covered lo hi (curr :: chain) = overlap lo hi curr + covered lo hi chain := by
  simp [covered]

/-- The loop counts the gaps: `newSpaceStart` is where the last slice ended. -/
theorem addSliceLoop_total (slice : OBSliceEntry) (laid : Laid chain) (scan : AddSliceScan)
    (begun : slice.ssize.offset ≤ scan.newSpaceStart)
    (behind : ∀ curr ∈ chain, scan.newSpaceStart ≤ curr.ssize.offset) :
    (addSliceLoop slice chain scan).total slice =
      scan.total slice - covered slice.ssize.offset slice.sliceEnd chain := by
  induction chain generalizing scan with
  | nil => simp [addSliceLoop, covered]
  | cons curr rest ih =>
      obtain ⟨nonneg, across, restLaid⟩ := Laid.cons_iff.mp laid
      have reached := behind curr List.mem_cons_self
      simp only [OBSliceEntry.len_eq] at nonneg
      have later : ∀ next ∈ rest, curr.sliceEnd ≤ next.ssize.offset := fun next member =>
        (across next member).2
      have sliceEnd : curr.sliceEnd = curr.ssize.offset + curr.ssize.length := rfl
      rw [addSliceLoop]
      by_cases outside : slice.sliceEnd ≤ curr.ssize.offset
      · have nothing : covered slice.ssize.offset slice.sliceEnd (curr :: rest) = 0 := by
          refine covered_behind fun next member => ?_
          rcases List.mem_cons.mp member with rfl | inRest
          · exact outside
          · have after := later next inRest
            omega
        rw [if_pos outside, nothing, Int.sub_zero]
      · rw [if_neg outside, covered_cons]
        have part : overlap slice.ssize.offset slice.sliceEnd curr =
            min slice.sliceEnd curr.sliceEnd - curr.ssize.offset := by
          unfold overlap
          simp only [OBSliceEntry.start_eq, OBSliceEntry.stop_eq]
          omega
        rw [part]
        by_cases ends : slice.sliceEnd < curr.sliceEnd
        · have nothing : covered slice.ssize.offset slice.sliceEnd rest = 0 := by
            refine covered_behind fun next member => ?_
            have after := later next member
            omega
          rw [if_pos ends, nothing]
          unfold AddSliceScan.total
          dsimp only
          split_ifs <;> omega
        · rw [if_neg ends, ih restLaid _ (by dsimp only; omega) later]
          unfold AddSliceScan.total
          dsimp only
          split_ifs <;> omega

variable (sl : UniqSkiplist OBSliceEntry.key)

/-- The look at the previous slice leaves out what it covers of the range. -/
theorem addSlicePrevious_total (slice : OBSliceEntry) (nonneg : 0 ≤ slice.ssize.length)
    (laid : Laid chain) (below : ∀ curr ∈ chain, curr.ssize.offset < slice.ssize.offset) :
    (addSlicePrevious slice chain.getLast?).total slice =
      slice.ssize.length - covered slice.ssize.offset slice.sliceEnd chain := by
  have sliceEnd : slice.sliceEnd = slice.ssize.offset + slice.ssize.length := rfl
  have count := covered_eq_touched slice.ssize.offset slice.sliceEnd chain
  rw [← touchedSlices, touchedSlices_below laid below] at count
  rw [count]
  cases last : chain.getLast? with
  | none =>
      simp only [addSlicePrevious, AddSliceScan.total, covered]
      split_ifs <;> simp <;> omega
  | some curr =>
      have currBelow := below curr (List.mem_of_getLast? last)
      unfold addSlicePrevious
      by_cases reaches : slice.ssize.offset < curr.sliceEnd
      · simp only [reaches, if_true, AddSliceScan.total, covered, List.map_cons, List.map_nil,
          List.sum_cons, List.sum_nil, overlap, OBSliceEntry.start_eq, OBSliceEntry.stop_eq]
        split_ifs <;> omega
      · simp only [reaches, if_false, AddSliceScan.total, covered, List.map_nil, List.sum_nil]
        split_ifs <;> omega

/-- Where the look at the previous slice leaves off. -/
theorem addSlicePrevious_start (slice : OBSliceEntry) (previous : Option OBSliceEntry) :
    slice.ssize.offset ≤ (addSlicePrevious slice previous).newSpaceStart ∧
      ∀ start, slice.ssize.offset ≤ start →
        (∀ curr, previous = some curr → curr.sliceEnd ≤ start) →
        (addSlicePrevious slice previous).newSpaceStart ≤ start := by
  cases previous with
  | none => exact ⟨le_rfl, fun start low _ => low⟩
  | some curr =>
      unfold addSlicePrevious
      by_cases reaches : slice.ssize.offset < curr.sliceEnd
      · simp only [reaches, if_true]
        exact ⟨reaches.le, fun start _ high => high curr rfl⟩
      · simp only [reaches, if_false]
        exact ⟨le_rfl, fun start low _ => low⟩

/-- `inc_alloc` is the number of uncovered bytes of the range. -/
theorem addSlice_incAlloc (htable : OBHashtable) (laid : Laid chain) {slice : OBSliceEntry}
    (nonneg : 0 ≤ slice.ssize.length) (sa : FSStorageAllocatorManager) :
    (addSlice sl htable chain slice sa).2.1 =
      slice.ssize.length - covered slice.ssize.offset slice.sliceEnd chain := by
  unfold addSlice
  split_ifs with empty
  · subst empty
    simp [covered]
  · obtain ⟨parts, below, behind⟩ := findGe_parts sl laid slice.key
    have bothLaid := laid
    rw [← parts] at bothLaid
    obtain ⟨belowLaid, behindLaid, across⟩ := Laid.append_iff.mp bothLaid
    obtain ⟨begun, reach⟩ := addSlicePrevious_start slice (sl.findGe chain slice.key).1.getLast?
    have loop := addSliceLoop_total slice behindLaid
      (addSlicePrevious slice (sl.findGe chain slice.key).1.getLast?) begun fun curr member => by
        refine reach _ (behind curr member) fun last found => ?_
        exact (across last (List.mem_of_getLast? found) curr member).2
    have previous := addSlicePrevious_total slice nonneg belowLaid below
    have whole : covered slice.ssize.offset slice.sliceEnd chain =
        covered slice.ssize.offset slice.sliceEnd (sl.findGe chain slice.key).1 +
          covered slice.ssize.offset slice.sliceEnd (sl.findGe chain slice.key).2 := by
      conv_lhs => rw [← parts]
      simp [covered]
    show (addSliceScan sl chain slice).total slice = _
    unfold addSliceScan
    rw [loop, previous, whole]
    omega

/-- Adding a slice changes the covered bytes of the chain by `inc_alloc`. -/
theorem ncard_addSlice (htable : OBHashtable) (laid : Laid chain) {slice : OBSliceEntry}
    (nonneg : 0 ≤ slice.ssize.length) (sa : FSStorageAllocatorManager) :
    ((footprint (addSlice sl htable chain slice sa).2.2.1).ncard : Int) =
      (footprint chain).ncard + (addSlice sl htable chain slice sa).2.1 := by
  have order : slice.ssize.offset ≤ slice.sliceEnd := le_add_of_nonneg_right nonneg
  have carved := laid.carve order
  rw [addSlice_incAlloc sl htable laid nonneg, addSlice_chain sl htable laid nonneg]
  by_cases present : ∃ other ∈ carve slice.ssize.offset slice.sliceEnd chain,
      other.key = slice.key
  · -- only an empty slice finds its offset taken
    have empty : slice.ssize.length = 0 := by
      by_contra filled
      obtain ⟨other, member, same⟩ := present
      exact fresh_of_carve laid (lt_of_le_of_ne nonneg (Ne.symm filled)) other member same
    have sliceEnd : slice.sliceEnd = slice.ssize.offset := by
      unfold OBSliceEntry.sliceEnd
      omega
    have nothing : covered slice.ssize.offset slice.sliceEnd chain = 0 := by
      rw [sliceEnd, ← card_covered laid, Finset.Ico_self, Finset.filter_empty, Finset.card_empty]
      rfl
    rw [sl.insert_exists _ slice carved.ascending present, ncard_footprint_carve laid order,
      nothing, empty]
    rfl
  · have fresh : ∀ other ∈ carve slice.ssize.offset slice.sliceEnd chain,
        other.key ≠ slice.key := fun other member equal => present ⟨other, member, equal⟩
    have gap : ∀ b ∈ footprint (carve slice.ssize.offset slice.sliceEnd chain), ¬ Over slice b := by
      rintro b ⟨other, member, covers⟩ inRange
      exact not_over_carve laid order member inRange covers
    rw [sl.insert_fresh _ slice carved.ascending fresh,
      ncard_footprint_of_gap (a := slice) nonneg (fun x => Chain.mem_insert) gap,
      ncard_footprint_carve laid order]
    simp only [OBSliceEntry.len_eq]
    omega

end Scan

/-! ## The calls -/

section Calls

variable (sl : UniqSkiplist OBSliceEntry.key) {state : IndexState} (withSn : Bool)

/-- What an add reports, also one that fails. -/
theorem incAlloc_obIndexAddSliceEx (sound : state.htable.Sound) {slice : OBSliceEntry}
    (nonneg : 0 ≤ slice.ssize.length) :
    (obIndexAddSliceEx sl withSn slice state).2.1 =
      (obIndexAddSliceEx sl withSn slice state).2.2.htable.blockBytes slice.ob -
        state.htable.blockBytes slice.ob := by
  cases present : state.htable.getObEntry slice.ob with
  | none =>
      simp only [obIndexAddSliceEx, present]
      exact (Int.sub_self _).symm
  | some ob =>
      have slices := OBHashtable.slicesOf_of_getObEntry present
      have changed := ncard_addSlice sl state.htable (sound.laid slice.ob) nonneg state.sallocator
      rw [OBHashtable.blockBytes_eq, OBHashtable.blockBytes_eq,
        slicesOf_obIndexAddSliceEx sl withSn sound present, if_pos rfl, changed, slices]
      simp only [obIndexAddSliceEx, present]
      omega

/-- What a delete reports. -/
theorem decAlloc_eq_blockBytes_sub (sound : state.htable.Sound) {bsKey : FSBlockSliceKeyInfo}
    (nonneg : 0 ≤ bsKey.slice.length) :
    (obIndexDeleteSlicesEx sl withSn bsKey state).2.1 =
      state.htable.blockBytes bsKey.block -
        (obIndexDeleteSlicesEx sl withSn bsKey state).2.2.htable.blockBytes bsKey.block := by
  have order : bsKey.slice.offset ≤ bsKey.slice.offset + bsKey.slice.length := by omega
  rw [OBHashtable.blockBytes_eq, OBHashtable.blockBytes_eq,
    slicesOf_obIndexDeleteSlicesEx sl withSn sound nonneg, if_pos rfl,
    ncard_footprint_carve (sound.laid bsKey.block) order,
    decAlloc_obIndexDeleteSlicesEx sl withSn sound nonneg]
  omega

/-- A delete that touches nothing reports nothing. -/
theorem decAlloc_of_enoent (sound : state.htable.Sound) {bsKey : FSBlockSliceKeyInfo}
    (nonneg : 0 ≤ bsKey.slice.length)
    (failed : (obIndexDeleteSlicesEx sl withSn bsKey state).1 = .enoent) :
    (obIndexDeleteSlicesEx sl withSn bsKey state).2.1 = 0 := by
  rw [result_obIndexDeleteSlicesEx sl withSn sound nonneg] at failed
  split_ifs at failed with untouched
  rw [decAlloc_obIndexDeleteSlicesEx sl withSn sound nonneg, covered_eq_touched, ← touchedSlices,
    untouched]
  rfl

/-- What the deletion of a block reports. -/
theorem decAlloc_obIndexDeleteBlockEx_eq (sound : state.htable.Sound) (bkey : FSBlockKey) :
    (obIndexDeleteBlockEx withSn bkey state).2.1 =
      state.htable.blockBytes bkey -
        (obIndexDeleteBlockEx withSn bkey state).2.2.htable.blockBytes bkey := by
  rw [OBHashtable.blockBytes_eq, OBHashtable.blockBytes_eq,
    slicesOf_obIndexDeleteBlockEx withSn sound.wf, if_pos rfl, footprint_nil, Set.ncard_empty,
    decAlloc_obIndexDeleteBlockEx, ncard_footprint (sound.laid bkey)]
  exact (Int.sub_zero _).symm

theorem decAlloc_of_block_enoent (sound : state.htable.Sound) {bkey : FSBlockKey}
    (failed : (obIndexDeleteBlockEx withSn bkey state).1 = .enoent) :
    (obIndexDeleteBlockEx withSn bkey state).2.1 = 0 := by
  rw [result_obIndexDeleteBlockEx] at failed
  split_ifs at failed with positive
  have nonneg : 0 ≤ ((state.htable.slicesOf bkey).map fun slice => slice.ssize.length).sum := by
    refine List.sum_nonneg fun x member => ?_
    obtain ⟨slice, inChain, rfl⟩ := List.mem_map.mp member
    exact (sound.laid bkey).nonneg slice inChain
  rw [decAlloc_obIndexDeleteBlockEx]
  omega

end Calls

/-! ## Runs -/

/-- A call of the index; a slice that is added was got from `ob_index_alloc_slice_ex`. -/
inductive SpaceOp where
  | allocSlice (bkey : FSBlockKey)
  | addSlice (withSn : Bool) (slice : OBSliceEntry)
  | deleteSlices (withSn : Bool) (bsKey : FSBlockSliceKeyInfo)
  | deleteBlock (withSn : Bool) (bkey : FSBlockKey)

namespace SpaceOp

/-- No range is shorter than empty. -/
def Nonneg : SpaceOp → Prop
  | addSlice _ slice => 0 ≤ slice.ssize.length
  | deleteSlices _ bsKey => 0 ≤ bsKey.slice.length
  | _ => True

instance : (op : SpaceOp) → Decidable op.Nonneg
  | allocSlice _ => inferInstanceAs (Decidable True)
  | addSlice _ slice => inferInstanceAs (Decidable (0 ≤ slice.ssize.length))
  | deleteSlices _ bsKey => inferInstanceAs (Decidable (0 ≤ bsKey.slice.length))
  | deleteBlock _ _ => inferInstanceAs (Decidable True)

/-- The block that the call can change. -/
def block : SpaceOp → FSBlockKey
  | allocSlice bkey => bkey
  | addSlice _ slice => slice.ob
  | deleteSlices _ bsKey => bsKey.block
  | deleteBlock _ bkey => bkey

variable (sl : UniqSkiplist OBSliceEntry.key)

/-- One call: `inc_alloc`, or minus `dec_alloc`, and the index afterwards. -/
def apply (state : IndexState) : SpaceOp → Int × IndexState
  | allocSlice bkey => (0, { state with htable := obIndexAllocSliceEx bkey state.htable })
  | addSlice withSn slice => (obIndexAddSliceEx sl withSn slice state).2
  | deleteSlices withSn bsKey =>
      (-(obIndexDeleteSlicesEx sl withSn bsKey state).2.1,
        (obIndexDeleteSlicesEx sl withSn bsKey state).2.2)
  | deleteBlock withSn bkey =>
      (-(obIndexDeleteBlockEx withSn bkey state).2.1, (obIndexDeleteBlockEx withSn bkey state).2.2)

/-- A sequence of calls: the sum of what they report, and the index afterwards. -/
def run (state : IndexState) : List SpaceOp → Int × IndexState
  | [] => (0, state)
  | op :: rest =>
      ((op.apply sl state).1 + (run (op.apply sl state).2 rest).1,
        (run (op.apply sl state).2 rest).2)

variable {state : IndexState}

theorem sound_apply (sound : state.htable.Sound) {op : SpaceOp} (nonneg : op.Nonneg) :
    (op.apply sl state).2.htable.Sound := by
  cases op with
  | allocSlice bkey => exact sound.alloc bkey
  | addSlice withSn slice =>
      cases present : state.htable.getObEntry slice.ob with
      | none =>
          simp only [apply, obIndexAddSliceEx, present]
          exact sound
      | some ob => exact sound_obIndexAddSliceEx sl withSn sound present nonneg
  | deleteSlices withSn bsKey => exact sound_obIndexDeleteSlicesEx sl withSn sound nonneg
  | deleteBlock withSn bkey => exact sound_obIndexDeleteBlockEx withSn sound bkey

/-- A call leaves the other blocks alone. -/
theorem slicesOf_apply (sound : state.htable.Sound) {op : SpaceOp} (nonneg : op.Nonneg)
    {other : FSBlockKey} (apart : other ≠ op.block) :
    (op.apply sl state).2.htable.slicesOf other = state.htable.slicesOf other := by
  cases op with
  | allocSlice bkey => exact OBHashtable.slicesOf_alloc sound.wf bkey other
  | addSlice withSn slice =>
      cases present : state.htable.getObEntry slice.ob with
      | none => simp only [apply, obIndexAddSliceEx, present]
      | some ob =>
          exact (slicesOf_obIndexAddSliceEx sl withSn sound present other).trans (if_neg apart)
  | deleteSlices withSn bsKey =>
      exact (slicesOf_obIndexDeleteSlicesEx sl withSn sound nonneg other).trans (if_neg apart)
  | deleteBlock withSn bkey =>
      exact (slicesOf_obIndexDeleteBlockEx withSn sound.wf bkey other).trans (if_neg apart)

/-- A call reports the change of its block. -/
theorem apply_change (sound : state.htable.Sound) {op : SpaceOp} (nonneg : op.Nonneg) :
    (op.apply sl state).1 =
      (op.apply sl state).2.htable.blockBytes op.block - state.htable.blockBytes op.block := by
  cases op with
  | allocSlice bkey =>
      have same : (obIndexAllocSliceEx bkey state.htable).blockBytes bkey =
          state.htable.blockBytes bkey := by
        rw [OBHashtable.blockBytes_eq, OBHashtable.blockBytes_eq,
          OBHashtable.slicesOf_alloc sound.wf]
      simp only [apply, block, same, Int.sub_self]
  | addSlice withSn slice => exact incAlloc_obIndexAddSliceEx sl withSn sound nonneg
  | deleteSlices withSn bsKey =>
      have reported := decAlloc_eq_blockBytes_sub sl withSn sound nonneg
      simp only [apply, block, reported]
      omega
  | deleteBlock withSn bkey =>
      have reported := decAlloc_obIndexDeleteBlockEx_eq withSn sound bkey
      simp only [apply, block, reported]
      omega

end SpaceOp

/-- The covered bytes of the index, split into those of one block and the others. -/
theorem OBHashtable.coveredBytes_split (htable : OBHashtable) (bkey : FSBlockKey) :
    htable.coveredBytes =
      (htable.coveredBytes ∩ { place | place.1 ≠ bkey }) ∪
        Prod.mk bkey '' footprint (htable.slicesOf bkey) := by
  ext place
  obtain ⟨block, b⟩ := place
  by_cases same : block = bkey
  · subst same
    simp [coveredBytes, footprint, Over]
  · simp [same, Ne.symm same]

/-- What a change of one block does to the number of covered bytes. -/
theorem OBHashtable.ncard_coveredBytes {before after : OBHashtable} {bkey : FSBlockKey}
    (finite : before.coveredBytes.Finite)
    (others : ∀ other, other ≠ bkey → after.slicesOf other = before.slicesOf other) :
    after.coveredBytes.Finite ∧
      (after.coveredBytes.ncard : Int) =
        before.coveredBytes.ncard + (after.blockBytes bkey - before.blockBytes bkey) := by
  have rest : after.coveredBytes ∩ { place | place.1 ≠ bkey } =
      before.coveredBytes ∩ { place | place.1 ≠ bkey } := by
    ext place
    constructor
    · rintro ⟨member, apart⟩
      refine ⟨?_, apart⟩
      unfold coveredBytes at member ⊢
      rw [Set.mem_ofPred_eq, ← others place.1 apart]
      exact member
    · rintro ⟨member, apart⟩
      refine ⟨?_, apart⟩
      unfold coveredBytes at member ⊢
      rw [Set.mem_ofPred_eq, others place.1 apart]
      exact member
  have restFinite := finite.inter_of_left { place : FSBlockKey × Int | place.1 ≠ bkey }
  have own : ∀ htable : OBHashtable,
      (Prod.mk bkey '' footprint (htable.slicesOf bkey)).Finite := fun htable =>
    (footprint_finite _).image _
  have apart : ∀ htable : OBHashtable,
      Disjoint (before.coveredBytes ∩ { place | place.1 ≠ bkey })
        (Prod.mk bkey '' footprint (htable.slicesOf bkey)) := by
    intro htable
    rw [Set.disjoint_left]
    rintro place ⟨_, other⟩ ⟨b, _, rfl⟩
    exact other rfl
  have count : ∀ htable : OBHashtable,
      (Prod.mk bkey '' footprint (htable.slicesOf bkey)).ncard =
        (footprint (htable.slicesOf bkey)).ncard := fun htable =>
    Set.ncard_image_of_injective _ (Prod.mk_right_injective bkey)
  have total : ∀ htable : OBHashtable,
      htable.coveredBytes ∩ { place | place.1 ≠ bkey } =
        before.coveredBytes ∩ { place | place.1 ≠ bkey } →
      htable.coveredBytes.ncard =
        (before.coveredBytes ∩ { place | place.1 ≠ bkey }).ncard +
          (footprint (htable.slicesOf bkey)).ncard := by
    intro htable same
    rw [htable.coveredBytes_split bkey, same, Set.ncard_union_eq (apart htable) restFinite
      (own htable), count]
  constructor
  · rw [after.coveredBytes_split bkey, rest]
    exact restFinite.union (own after)
  · rw [total after rest, total before rfl, blockBytes_eq, blockBytes_eq]
    omega

/-- The reports add up over a sequence of calls. -/
theorem SpaceOp.run_change (sl : UniqSkiplist OBSliceEntry.key) {state : IndexState}
    (sound : state.htable.Sound) (finite : state.htable.coveredBytes.Finite) {ops : List SpaceOp}
    (nonneg : ∀ op ∈ ops, op.Nonneg) :
    ((SpaceOp.run sl state ops).2.htable.coveredBytes.ncard : Int) =
      state.htable.coveredBytes.ncard + (SpaceOp.run sl state ops).1 := by
  induction ops generalizing state with
  | nil =>
      simp only [SpaceOp.run]
      omega
  | cons op rest ih =>
      have first := nonneg op List.mem_cons_self
      obtain ⟨stays, change⟩ := OBHashtable.ncard_coveredBytes finite
        fun other apart => SpaceOp.slicesOf_apply sl sound first apart
      have later := ih (SpaceOp.sound_apply sl sound first) stays
        fun other member => nonneg other (List.mem_cons_of_mem _ member)
      have reported := SpaceOp.apply_change sl sound first
      simp only [SpaceOp.run]
      omega

end FastStore.Storage
