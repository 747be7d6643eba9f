import FastStore.Storage.ObjectBlockIndex

/-!
# What the index calls do to the slices of a block

The walks of `add_slice`, `delete_slices` and `get_slices` all find the slices
touched by a range.  With the contract of the skiplist this gives each call a
closed form: an add overwrites the chain, a delete carves the range out of it,
and a get clips the touched slices to the range.
-/

namespace FastStore.Storage

open FastStore.Util FastStore.Util.Extent

variable {chain : List OBSliceEntry} {lo hi : Int}

/-- The slices of a chain that `[lo, hi)` touches. -/
def touchedSlices (lo hi : Int) (chain : List OBSliceEntry) : List OBSliceEntry :=
  chain.filter fun slice => Touched lo hi slice

/-- What is left of the touched slices. -/
def touchedPieces (lo hi : Int) (chain : List OBSliceEntry) : List OBSliceEntry :=
  (touchedSlices lo hi chain).flatMap (pieces lo hi)

theorem touchedSlices_append (left right : List OBSliceEntry) :
    touchedSlices lo hi (left ++ right) =
      touchedSlices lo hi left ++ touchedSlices lo hi right :=
  List.filter_append _ _

theorem touchedPieces_append (left right : List OBSliceEntry) :
    touchedPieces lo hi (left ++ right) =
      touchedPieces lo hi left ++ touchedPieces lo hi right := by
  simp [touchedPieces, touchedSlices_append]

/-! ## The walks -/

/-- The last slice below the range, if it reaches into it. -/
theorem touchedSlices_below (laid : Laid chain)
    (below : ∀ curr ∈ chain, curr.ssize.offset < lo) :
    touchedSlices lo hi chain =
      match chain.getLast? with
      | none => []
      | some curr => if lo < curr.sliceEnd then [curr] else [] := by
  rw [touchedSlices, filter_touched_below laid below]
  cases chain.getLast? with
  | none => rfl
  | some curr =>
      by_cases reaches : lo < curr.sliceEnd <;> simp [reaches, Option.filter]

theorem touchedPieces_below (laid : Laid chain)
    (below : ∀ curr ∈ chain, curr.ssize.offset < lo) :
    touchedPieces lo hi chain =
      match chain.getLast? with
      | none => []
      | some curr =>
          if lo < curr.sliceEnd then
            curr.fragment curr.ssize.offset (lo - curr.ssize.offset) ::
              if hi < curr.sliceEnd then [curr.fragment hi (curr.sliceEnd - hi)] else []
          else [] := by
  rw [touchedPieces, touchedSlices_below laid below]
  cases last : chain.getLast? with
  | none => rfl
  | some curr =>
      have currBelow := below curr (List.mem_of_getLast? last)
      by_cases reaches : lo < curr.sliceEnd
      · simp only [reaches, if_true, List.flatMap_cons, List.flatMap_nil, List.append_nil]
        exact pieces_of_below currBelow reaches
      · simp [reaches]

theorem addSlicePrevious_spec (slice : OBSliceEntry) (laid : Laid chain)
    (below : ∀ curr ∈ chain, curr.ssize.offset < slice.ssize.offset) :
    (addSlicePrevious slice chain.getLast?).delSliceArray =
        touchedSlices slice.ssize.offset slice.sliceEnd chain ∧
      (addSlicePrevious slice chain.getLast?).addSliceArray =
        touchedPieces slice.ssize.offset slice.sliceEnd chain := by
  rw [touchedSlices_below laid below, touchedPieces_below laid below]
  cases chain.getLast? with
  | none => exact ⟨rfl, rfl⟩
  | some curr =>
      by_cases reaches : slice.ssize.offset < curr.sliceEnd <;> simp [addSlicePrevious, reaches]

/-- One round of the loop on a slice that starts in the range and ends in it. -/
theorem touchedSlices_cons {curr : OBSliceEntry} (inRange : lo ≤ curr.ssize.offset)
    (starts : curr.ssize.offset < hi) :
    touchedSlices lo hi (curr :: chain) = curr :: touchedSlices lo hi chain :=
  filter_touched_cons inRange starts

theorem touchedPieces_cons {curr : OBSliceEntry} (inRange : lo ≤ curr.ssize.offset)
    (starts : curr.ssize.offset < hi) :
    touchedPieces lo hi (curr :: chain) =
      (if hi < curr.sliceEnd then [curr.fragment hi (curr.sliceEnd - hi)] else []) ++
        touchedPieces lo hi chain := by
  rw [touchedPieces, touchedSlices_cons inRange starts, List.flatMap_cons]
  congr 1
  exact pieces_of_inside inRange starts

theorem touchedSlices_behind {curr : OBSliceEntry} (laid : Laid (curr :: chain))
    (order : lo ≤ hi) (behind : hi ≤ curr.ssize.offset) :
    touchedSlices lo hi (curr :: chain) = [] :=
  filter_touched_behind laid order behind

theorem touchedSlices_last {curr : OBSliceEntry} (laid : Laid (curr :: chain))
    (inRange : lo ≤ curr.ssize.offset) (starts : curr.ssize.offset < hi)
    (ends : hi < curr.sliceEnd) : touchedSlices lo hi (curr :: chain) = [curr] :=
  filter_touched_last laid inRange starts ends

theorem touchedPieces_behind {curr : OBSliceEntry} (laid : Laid (curr :: chain))
    (order : lo ≤ hi) (behind : hi ≤ curr.ssize.offset) :
    touchedPieces lo hi (curr :: chain) = [] := by
  rw [touchedPieces, touchedSlices_behind laid order behind, List.flatMap_nil]

theorem touchedPieces_last {curr : OBSliceEntry} (laid : Laid (curr :: chain))
    (inRange : lo ≤ curr.ssize.offset) (starts : curr.ssize.offset < hi)
    (ends : hi < curr.sliceEnd) :
    touchedPieces lo hi (curr :: chain) = [curr.fragment hi (curr.sliceEnd - hi)] := by
  have cut : pieces lo hi curr = [curr.fragment hi (curr.sliceEnd - hi)] := by
    have inside := pieces_of_inside (a := curr) inRange starts
    rw [inside, if_pos (by simpa using ends)]
    rfl
  rw [touchedPieces, touchedSlices_last laid inRange starts ends, List.flatMap_singleton, cut]

theorem addSliceLoop_spec (slice : OBSliceEntry) (nonneg : 0 ≤ slice.ssize.length)
    (laid : Laid chain) (behind : ∀ curr ∈ chain, slice.ssize.offset ≤ curr.ssize.offset)
    (scan : AddSliceScan) :
    (addSliceLoop slice chain scan).delSliceArray =
        scan.delSliceArray ++ touchedSlices slice.ssize.offset slice.sliceEnd chain ∧
      (addSliceLoop slice chain scan).addSliceArray =
        scan.addSliceArray ++ touchedPieces slice.ssize.offset slice.sliceEnd chain := by
  have order : slice.ssize.offset ≤ slice.sliceEnd := le_add_of_nonneg_right nonneg
  induction chain generalizing scan with
  | nil => simp [addSliceLoop, touchedSlices, touchedPieces]
  | cons curr rest ih =>
      have inRange := behind curr List.mem_cons_self
      obtain ⟨_, _, restLaid⟩ := Laid.cons_iff.mp laid
      rw [addSliceLoop]
      by_cases outside : slice.sliceEnd ≤ curr.ssize.offset
      · rw [if_pos outside, touchedSlices_behind laid order outside,
          touchedPieces_behind laid order outside]
        simp
      · have starts := not_le.mp outside
        rw [if_neg outside]
        by_cases ends : slice.sliceEnd < curr.sliceEnd
        · rw [touchedSlices_last laid inRange starts ends,
            touchedPieces_last laid inRange starts ends]
          simp [ends]
        · have tail := ih restLaid (fun next member => behind next (List.mem_cons_of_mem _ member))
          rw [touchedSlices_cons inRange starts, touchedPieces_cons inRange starts]
          simp only [ends, if_false, List.nil_append]
          refine ⟨?_, ?_⟩
          · rw [(tail _).1, List.append_assoc, List.singleton_append]
          · rw [(tail _).2]

theorem deleteSlicesPrevious_spec (range : FSSliceSize) (nonneg : 0 ≤ range.length)
    (laid : Laid chain) (below : ∀ curr ∈ chain, curr.ssize.offset < range.offset) :
    deleteSlicesPrevious range chain.getLast? =
      ⟨touchedPieces range.offset (range.offset + range.length) chain,
        touchedSlices range.offset (range.offset + range.length) chain,
        covered range.offset (range.offset + range.length) chain⟩ := by
  have count := covered_eq_touched range.offset (range.offset + range.length) chain
  rw [← touchedSlices] at count
  rw [count, touchedSlices_below laid below, touchedPieces_below laid below]
  cases last : chain.getLast? with
  | none => rfl
  | some curr =>
      have currBelow := below curr (List.mem_of_getLast? last)
      unfold deleteSlicesPrevious
      by_cases reaches : range.offset < curr.sliceEnd
      · by_cases ends : range.offset + range.length < curr.sliceEnd
        · simp only [reaches, ends, if_true, covered, List.map_cons, List.map_nil, List.sum_cons,
            List.sum_nil, overlap, OBSliceEntry.start_eq, OBSliceEntry.stop_eq]
          congr 1
          omega
        · simp only [reaches, ends, if_true, if_false, covered, List.map_cons, List.map_nil,
            List.sum_cons, List.sum_nil, overlap, OBSliceEntry.start_eq, OBSliceEntry.stop_eq]
          congr 1
          omega
      · simp [reaches, covered]

theorem deleteSlicesLoop_spec (order : lo ≤ hi) (laid : Laid chain)
    (behind : ∀ curr ∈ chain, lo ≤ curr.ssize.offset) (scan : DeleteSlicesScan) :
    deleteSlicesLoop hi chain scan =
      ⟨scan.addSliceArray ++ touchedPieces lo hi chain,
        scan.delSliceArray ++ touchedSlices lo hi chain,
        scan.decAlloc + covered lo hi chain⟩ := by
  induction chain generalizing scan with
  | nil => simp [deleteSlicesLoop, touchedSlices, touchedPieces, covered]
  | cons curr rest ih =>
      have inRange := behind curr List.mem_cons_self
      obtain ⟨nonneg, _, restLaid⟩ := Laid.cons_iff.mp laid
      have count := covered_eq_touched lo hi (curr :: rest)
      rw [← touchedSlices] at count
      rw [deleteSlicesLoop]
      by_cases outside : hi ≤ curr.ssize.offset
      · rw [touchedSlices_behind laid order outside] at count
        rw [if_pos outside, touchedSlices_behind laid order outside,
          touchedPieces_behind laid order outside, count]
        simp [covered]
      · have starts := not_le.mp outside
        rw [if_neg outside]
        by_cases ends : hi < curr.sliceEnd
        · have size : overlap lo hi curr = hi - curr.ssize.offset := by
            simp only [overlap, OBSliceEntry.start_eq, OBSliceEntry.stop_eq]
            omega
          rw [touchedSlices_last laid inRange starts ends] at count
          rw [if_pos ends, touchedSlices_last laid inRange starts ends,
            touchedPieces_last laid inRange starts ends, count]
          simp [covered, size]
        · have size : overlap lo hi curr = curr.ssize.length := by
            simp only [OBSliceEntry.len_eq] at nonneg
            simp only [overlap, OBSliceEntry.start_eq, OBSliceEntry.stop_eq,
              OBSliceEntry.sliceEnd] at ends ⊢
            omega
          have tail := ih restLaid fun next member => behind next (List.mem_cons_of_mem _ member)
          rw [if_neg ends, tail, touchedSlices_cons inRange starts,
            touchedPieces_cons inRange starts, if_neg ends]
          simp [covered, size, add_assoc]

section Skiplist

variable (sl : UniqSkiplist OBSliceEntry.key)

/-- `find_ge` cuts a laid chain in two: what starts below the target, and the
rest. -/
theorem findGe_parts (laid : Laid chain) (target : Int) :
    (sl.findGe chain target).1 ++ (sl.findGe chain target).2 = chain ∧
      (∀ curr ∈ (sl.findGe chain target).1, curr.ssize.offset < target) ∧
      ∀ curr ∈ (sl.findGe chain target).2, target ≤ curr.ssize.offset := by
  rw [sl.findGe_spec chain target laid.ascending]
  refine ⟨Chain.splitAt_append _ target chain, ?_, ?_⟩
  · intro curr member
    have less : curr.key < target := Chain.key_lt_of_mem_splitAt_fst member
    exact less
  · intro curr member
    have le : target ≤ curr.key := Chain.le_key_of_mem_splitAt_snd laid.ascending member
    exact le

theorem addSliceScan_spec (laid : Laid chain) {slice : OBSliceEntry}
    (nonneg : 0 ≤ slice.ssize.length) :
    (addSliceScan sl chain slice).delSliceArray =
        touchedSlices slice.ssize.offset slice.sliceEnd chain ∧
      (addSliceScan sl chain slice).addSliceArray =
        touchedPieces slice.ssize.offset slice.sliceEnd chain := by
  obtain ⟨parts, below, behind⟩ := findGe_parts sl laid slice.key
  have bothLaid := laid
  rw [← parts] at bothLaid
  obtain ⟨belowLaid, behindLaid, _⟩ := Laid.append_iff.mp bothLaid
  have previous := addSlicePrevious_spec slice belowLaid below
  have loop := addSliceLoop_spec slice nonneg behindLaid behind
    (addSlicePrevious slice (sl.findGe chain slice.key).1.getLast?)
  refine ⟨?_, ?_⟩
  · conv_rhs => rw [← parts, touchedSlices_append, ← previous.1]
    exact loop.1
  · conv_rhs => rw [← parts, touchedPieces_append, ← previous.2]
    exact loop.2

theorem deleteSlicesScan_spec (laid : Laid chain) {range : FSSliceSize}
    (nonneg : 0 ≤ range.length) :
    deleteSlicesScan sl chain range =
      ⟨touchedPieces range.offset (range.offset + range.length) chain,
        touchedSlices range.offset (range.offset + range.length) chain,
        covered range.offset (range.offset + range.length) chain⟩ := by
  obtain ⟨parts, below, behind⟩ := findGe_parts sl laid range.offset
  have order : range.offset ≤ range.offset + range.length := by omega
  have bothLaid := laid
  rw [← parts] at bothLaid
  obtain ⟨belowLaid, behindLaid, _⟩ := Laid.append_iff.mp bothLaid
  rw [deleteSlicesScan, deleteSlicesPrevious_spec range nonneg belowLaid below,
    deleteSlicesLoop_spec order behindLaid behind]
  conv_rhs => rw [← parts, touchedPieces_append, touchedSlices_append]
  simp only [covered, ← List.sum_append, ← List.map_append, parts]

/-! ## The skiplist part of an update -/

@[simp] theorem doDeleteSlice_chain (htable : OBHashtable)
    (state : List OBSliceEntry × FSStorageAllocatorManager) (slice : OBSliceEntry) :
    (doDeleteSlice sl htable state slice).1 = (sl.delete state.1 slice.key).2 := rfl

@[simp] theorem doAddSlice_chain (htable : OBHashtable)
    (state : List OBSliceEntry × FSStorageAllocatorManager) (slice : OBSliceEntry) :
    (doAddSlice sl htable state slice).2.1 = (sl.insert state.1 slice).2 := by
  unfold doAddSlice
  split
  · rename_i chain inserted
    split_ifs <;> simp [inserted]
  · rename_i result chain _ inserted
    simp [inserted]

theorem foldl_doDeleteSlice_chain (htable : OBHashtable) (dels : List OBSliceEntry)
    (state : List OBSliceEntry × FSStorageAllocatorManager) :
    (dels.foldl (doDeleteSlice sl htable) state).1 =
      sl.deleteAll (dels.map OBSliceEntry.key) state.1 := by
  induction dels generalizing state with
  | nil => rfl
  | cons slice dels ih =>
      rw [List.foldl_cons, ih, doDeleteSlice_chain]
      rfl

theorem foldl_doAddSlice_chain (htable : OBHashtable) (adds : List OBSliceEntry)
    (state : List OBSliceEntry × FSStorageAllocatorManager) :
    (adds.foldl (fun state slice => (doAddSlice sl htable state slice).2) state).1 =
      sl.insertAll adds state.1 := by
  induction adds generalizing state with
  | nil => rfl
  | cons slice adds ih =>
      rw [List.foldl_cons, ih, doAddSlice_chain]
      rfl

/-- Deleting the touched slices and adding their pieces carves the range out. -/
theorem refilled_eq_carve (laid : Laid chain) (order : lo ≤ hi) :
    sl.insertAll (touchedPieces lo hi chain)
        (sl.deleteAll ((touchedSlices lo hi chain).map OBSliceEntry.key) chain) =
      carve lo hi chain :=
  insertAll_deleteAll_eq_carve sl laid order

/-! ## Closed forms -/

/-- `add_slice` carves the range of the slice out and inserts the slice. -/
theorem addSlice_chain (htable : OBHashtable) (laid : Laid chain) {slice : OBSliceEntry}
    (nonneg : 0 ≤ slice.ssize.length) (sa : FSStorageAllocatorManager) :
    (addSlice sl htable chain slice sa).2.2.1 =
      (sl.insert (carve slice.ssize.offset slice.sliceEnd chain) slice).2 := by
  have order : slice.ssize.offset ≤ slice.sliceEnd := le_add_of_nonneg_right nonneg
  unfold addSlice
  split_ifs with empty
  · subst empty
    simp
  · obtain ⟨dels, adds⟩ := addSliceScan_spec sl laid nonneg
    simp only [doAddSlice_chain, foldl_doAddSlice_chain, foldl_doDeleteSlice_chain, dels, adds]
    rw [refilled_eq_carve sl laid order]

theorem fresh_of_carve (laid : Laid chain) {slice : OBSliceEntry}
    (positive : 0 < slice.ssize.length) :
    ∀ other ∈ carve slice.ssize.offset slice.sliceEnd chain, other.key ≠ slice.key := by
  intro other member
  rcases clear_of_carve laid positive member with before | behind
  · exact before.1.ne
  · exact behind.1.ne'

/-- With a positive length the slice is always inserted. -/
theorem addSlice_chain_eq_overwrite (htable : OBHashtable) (laid : Laid chain)
    {slice : OBSliceEntry} (positive : 0 < slice.ssize.length)
    (sa : FSStorageAllocatorManager) :
    (addSlice sl htable chain slice sa).2.2.1 = overwrite slice chain := by
  have order : slice.ssize.offset ≤ slice.sliceEnd := le_add_of_nonneg_right positive.le
  rw [addSlice_chain sl htable laid positive.le,
    sl.insert_fresh _ slice (laid.carve order).ascending (fresh_of_carve laid positive)]
  rfl

/-- `delete_slices` finds nothing exactly when it touches nothing, and carves its
range out either way. -/
theorem deleteSlices_chain (htable : OBHashtable) (laid : Laid chain) {range : FSSliceSize}
    (nonneg : 0 ≤ range.length) (sa : FSStorageAllocatorManager) :
    (deleteSlices sl htable chain range sa).2.2.1 =
      carve range.offset (range.offset + range.length) chain := by
  have order : range.offset ≤ range.offset + range.length := by omega
  unfold deleteSlices
  split_ifs with empty
  · subst empty
    rfl
  · have scan := deleteSlicesScan_spec sl laid nonneg
    simp only [scan]
    split_ifs with untouched
    · refine (carve_eq_self ?_).symm
      intro slice member touched
      have found : slice ∈ touchedSlices range.offset (range.offset + range.length) chain :=
        List.mem_filter.mpr ⟨member, by simpa using touched⟩
      rw [untouched] at found
      cases found
    · simp only [foldl_doAddSlice_chain, foldl_doDeleteSlice_chain]
      exact refilled_eq_carve sl laid order

theorem deleteSlices_result (htable : OBHashtable) (laid : Laid chain) {range : FSSliceSize}
    (nonneg : 0 ≤ range.length) (sa : FSStorageAllocatorManager) :
    (deleteSlices sl htable chain range sa).1 =
      if touchedSlices range.offset (range.offset + range.length) chain = [] then .enoent
      else .ok := by
  unfold deleteSlices
  split_ifs with empty untouched untouched
  · rfl
  · subst empty
    exact absurd rfl untouched
  · simp only [deleteSlicesScan_spec sl laid nonneg, untouched, if_true]
  · simp only [deleteSlicesScan_spec sl laid nonneg, untouched, if_false]

/-- `dec_alloc` is the number of covered bytes of the range. -/
theorem deleteSlices_decAlloc (htable : OBHashtable) (laid : Laid chain) {range : FSSliceSize}
    (nonneg : 0 ≤ range.length) (sa : FSStorageAllocatorManager) :
    (deleteSlices sl htable chain range sa).2.1 =
      covered range.offset (range.offset + range.length) chain := by
  unfold deleteSlices
  split_ifs with empty
  · subst empty
    rfl
  · simp only [deleteSlicesScan_spec sl laid nonneg]
    split_ifs <;> rfl

/-- The chain stays laid, also when the slice is empty or already there. -/
theorem addSlice_laid (htable : OBHashtable) (laid : Laid chain) {slice : OBSliceEntry}
    (nonneg : 0 ≤ slice.ssize.length) (sa : FSStorageAllocatorManager) :
    Laid (addSlice sl htable chain slice sa).2.2.1 := by
  have order : slice.ssize.offset ≤ slice.sliceEnd := le_add_of_nonneg_right nonneg
  have carved := laid.carve order
  rw [addSlice_chain sl htable laid nonneg]
  by_cases present : ∃ other ∈ carve slice.ssize.offset slice.sliceEnd chain,
      other.key = slice.key
  · rw [sl.insert_exists _ slice carved.ascending present]
    exact carved
  · have fresh : ∀ other ∈ carve slice.ssize.offset slice.sliceEnd chain,
        other.key ≠ slice.key := fun other member equal => present ⟨other, member, equal⟩
    rw [sl.insert_fresh _ slice carved.ascending fresh]
    refine carved.insert nonneg fun other member => ?_
    obtain ⟨source, sourceMember, piece⟩ := mem_carve.mp member
    have bounds := pieces_bounds order (laid.nonneg source sourceMember) piece
    have distinct : other.ssize.offset ≠ slice.ssize.offset := fresh other member
    simp only [OBSliceEntry.start_eq, OBSliceEntry.stop_eq, OBSliceEntry.len_eq,
      OBSliceEntry.sliceEnd] at bounds order ⊢
    omega

theorem addSlice_result (htable : OBHashtable) (unaccounted : htable.modifySallocator = false)
    (laid : Laid chain) {slice : OBSliceEntry} (nonneg : 0 ≤ slice.ssize.length)
    (sa : FSStorageAllocatorManager) :
    (addSlice sl htable chain slice sa).1 =
      (sl.insert (carve slice.ssize.offset slice.sliceEnd chain) slice).1 := by
  have order : slice.ssize.offset ≤ slice.sliceEnd := le_add_of_nonneg_right nonneg
  have plain : ∀ state, (doAddSlice sl htable state slice).1 = (sl.insert state.1 slice).1 := by
    intro state
    unfold doAddSlice
    split
    · rename_i inserted
      simp [unaccounted, inserted]
    · rename_i inserted
      simp [inserted]
  unfold addSlice
  split_ifs with empty
  · subst empty
    simp [plain]
  · obtain ⟨dels, adds⟩ := addSliceScan_spec sl laid nonneg
    simp only [plain, foldl_doAddSlice_chain, foldl_doDeleteSlice_chain, dels, adds]
    rw [refilled_eq_carve sl laid order]

theorem addSlice_ok (htable : OBHashtable) (unaccounted : htable.modifySallocator = false)
    (laid : Laid chain) {slice : OBSliceEntry} (positive : 0 < slice.ssize.length)
    (sa : FSStorageAllocatorManager) : (addSlice sl htable chain slice sa).1 = .ok := by
  have order : slice.ssize.offset ≤ slice.sliceEnd := le_add_of_nonneg_right positive.le
  rw [addSlice_result sl htable unaccounted laid positive.le,
    sl.insert_fresh _ slice (laid.carve order).ascending (fresh_of_carve laid positive)]

/-! ## Reading -/

/-- A touched slice as `get_slices` returns it. -/
def clipSlice (lo hi : Int) (slice : OBSliceEntry) : OBSliceEntry :=
  if slice.ssize.offset < lo then sliceDup slice lo (min slice.sliceEnd hi - lo)
  else if hi < slice.sliceEnd then
    sliceDup slice slice.ssize.offset (hi - slice.ssize.offset)
  else slice

theorem getSlicesLoop_spec (order : lo ≤ hi) (laid : Laid chain)
    (behind : ∀ curr ∈ chain, lo ≤ curr.ssize.offset) :
    getSlicesLoop hi chain = (touchedSlices lo hi chain).map (clipSlice lo hi) := by
  induction chain with
  | nil => rfl
  | cons curr rest ih =>
      have inRange := behind curr List.mem_cons_self
      obtain ⟨_, _, restLaid⟩ := Laid.cons_iff.mp laid
      have tail := ih restLaid fun next member => behind next (List.mem_cons_of_mem _ member)
      rw [getSlicesLoop]
      by_cases outside : hi ≤ curr.ssize.offset
      · rw [if_pos outside, touchedSlices_behind laid order outside, List.map_nil]
      · rw [if_neg outside, touchedSlices_cons inRange (not_le.mp outside), List.map_cons,
          clipSlice, if_neg (not_lt.mpr inRange), tail]
        split_ifs <;> rfl

/-- `get_slices` clips the touched slices. -/
theorem getSlices_snd (laid : Laid chain) {range : FSSliceSize} (nonneg : 0 ≤ range.length) :
    (getSlices sl chain range).2 =
      (touchedSlices range.offset (range.offset + range.length) chain).map
        (clipSlice range.offset (range.offset + range.length)) := by
  obtain ⟨parts, below, behind⟩ := findGe_parts sl laid range.offset
  have order : range.offset ≤ range.offset + range.length := by omega
  have bothLaid := laid
  rw [← parts] at bothLaid
  obtain ⟨belowLaid, behindLaid, _⟩ := Laid.append_iff.mp bothLaid
  have previous : getSlicesPrevious range (sl.findGe chain range.offset).1.getLast? =
      (touchedSlices range.offset (range.offset + range.length)
        (sl.findGe chain range.offset).1).map
          (clipSlice range.offset (range.offset + range.length)) := by
    rw [touchedSlices_below belowLaid below]
    cases last : (sl.findGe chain range.offset).1.getLast? with
    | none => rfl
    | some curr =>
        have currBelow := below curr (List.mem_of_getLast? last)
        by_cases reaches : range.offset < curr.sliceEnd <;>
          simp [getSlicesPrevious, clipSlice, reaches, currBelow]
  rw [getSlices, previous, getSlicesLoop_spec order behindLaid behind, ← List.map_append,
    ← touchedSlices_append, parts]

theorem getSlices_fst (chain : List OBSliceEntry) (range : FSSliceSize) :
    (getSlices sl chain range).1 =
      if (getSlices sl chain range).2 = [] then .enoent else .ok := rfl

end Skiplist

theorem clipSlice_offset (lo hi : Int) (slice : OBSliceEntry) :
    (clipSlice lo hi slice).ssize.offset = max lo slice.ssize.offset := by
  unfold clipSlice
  split_ifs with below ends
  · rw [sliceDup_offset slice _ below.le]
    omega
  · rw [sliceDup_offset slice _ le_rfl]
    omega
  · omega

theorem clipSlice_sliceEnd (lo hi : Int) (slice : OBSliceEntry) :
    (clipSlice lo hi slice).sliceEnd = min hi slice.sliceEnd := by
  unfold clipSlice
  split_ifs with below ends
  · rw [OBSliceEntry.sliceEnd, sliceDup_offset slice _ below.le, sliceDup_length]
    omega
  · rw [OBSliceEntry.sliceEnd, sliceDup_offset slice _ le_rfl, sliceDup_length]
    omega
  · omega

end FastStore.Storage
