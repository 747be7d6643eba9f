import FastStore.Storage.AddSliceMemory
import FastStore.Storage.SpaceChange
import FastStore.Storage.SliceAlloc
import FastStore.Util.Gaps

/-!
# Allocating the holes of a range

`fs_slice_allocate` reads the slices of the range, stores the holes between them in an array of
fixed size or, where they are more, in one that it allocates and fills by a second scan, makes
slices for each hole and adds them all.  The holes are clear of what the block holds, so the adds
cut nothing, and what they report is the number of bytes that were uncovered.
-/

namespace FastStore.Storage

open FastStore.Util FastStore.Util.Extent

/-! ## The scans -/

/-- `FS_SLICE_HOLES_FIXED_COUNT`. -/
def fsSliceHolesFixedCount : Nat := 256

/-- `FS_SLICE_SN_PARRAY_INIT_ALLOC_COUNT`. -/
def fsSliceSnParrayInitAllocCount : Nat := 4

/-- The array of `get_slice_index_holes` and its `count`, which goes on counting when the array is
full. -/
structure HoleArray where
  ssizes : List FSSliceSize
  count : Nat

def HoleArray.add (maxSize : Nat) (array : HoleArray) (hole : FSSliceSize) : HoleArray :=
  ⟨if array.count < maxSize then array.ssizes ++ [hole] else array.ssizes, array.count + 1⟩

/-- The loop of `get_slice_index_holes`, and the hole behind the last slice. -/
def storeHoles (maxSize : Nat) (rangeEnd : Int) : Int → List OBSliceEntry → HoleArray → HoleArray
  | offset, [], array =>
      if offset < rangeEnd then array.add maxSize ⟨offset, rangeEnd - offset⟩ else array
  | offset, slice :: rest, array =>
      storeHoles maxSize rangeEnd slice.sliceEnd rest
        (if 0 < slice.ssize.offset - offset then
          array.add maxSize ⟨offset, slice.ssize.offset - offset⟩ else array)

section Scans

variable (sl : UniqSkiplist OBSliceEntry.key) (bsKey : FSBlockSliceKeyInfo) (htable : OBHashtable)

/-- `get_slice_index_holes` with an array of `maxSize` places; `granted` says whether
`ob_index_get_slices` gets the memory for its slices.  A full array is reported with `ENOSPC`. -/
def getSliceIndexHolesIn (maxSize : Nat) (granted : Bool) : Errno × HoleArray :=
  if granted then
    match obIndexGetSlicesEx sl bsKey htable with
    | (.ok, slices) =>
        let array := storeHoles maxSize (bsKey.slice.offset + bsKey.slice.length)
          bsKey.slice.offset slices ⟨[], 0⟩
        (if array.count ≤ maxSize then .ok else .enospc, array)
    | _ => (.ok, ⟨[bsKey.slice], 1⟩)
  else (.enomem, ⟨[], 0⟩)

/-- The answers to the requests for memory in one scan. -/
structure ScanMemory where
  array : Bool
  slices : Bool

/-- The loop of `fs_slice_allocate` that allocates an array for the number of holes counted so far
and scans again. -/
def growHoles (memory : Nat → ScanMemory) : Nat → Nat → Nat → Option (Errno × List FSSliceSize)
  | 0, _, _ => none
  | fuel + 1, scan, count =>
      if (memory scan).array then
        match getSliceIndexHolesIn sl bsKey htable (count + fsSliceSnParrayInitAllocCount)
            (memory scan).slices with
        | (.ok, array) => some (.ok, array.ssizes)
        | (.enospc, array) => growHoles memory fuel (scan + 1) array.count
        | (result, _) => some (result, [])
      else some (.enomem, [])

/-- The holes as `fs_slice_allocate` gets them. -/
def sliceIndexHoles (memory : Nat → ScanMemory) (fuel : Nat) : Option (Errno × List FSSliceSize) :=
  match getSliceIndexHolesIn sl bsKey htable fsSliceHolesFixedCount (memory 0).slices with
  | (.ok, array) => some (.ok, array.ssizes)
  | (.enospc, array) => growHoles sl bsKey htable memory fuel 1 array.count
  | (result, _) => some (result, [])

end Scans

/-! ## The call -/

section Call

variable (sl : UniqSkiplist OBSliceEntry.key)

/-- The loop of `fs_slice_allocate` over the slices, which sums up `inc_alloc`; `add_slice` counts
it before it needs a node. -/
def addSlicesCounting : List OBSliceEntry → IndexState → Memory → Errno × Int × IndexState
  | [], state, _ => (.ok, 0, state)
  | slice :: rest, state, memory =>
      match obIndexAddSliceWith sl slice state memory with
      | (.ok, added, left) =>
          let later := addSlicesCounting rest added left
          (later.1, (obIndexAddSliceEx sl true slice state).2.1 + later.2.1, later.2.2)
      | (result, failed, _) => (result, 0, failed)

/-- What a call of `fs_slice_allocate` meets: the memory for its scans, the size of the array of
slices and whether it can be enlarged, what `fs_slice_alloc` gives for a hole, and the memory for
the adds. -/
structure AllocateAround where
  scans : Nat → ScanMemory
  sarrayAlloc : Nat
  realloced : Bool
  alloc : FSSliceSize → Errno × List OBSliceEntry
  adds : Memory

/-- `fs_slice_allocate` behind the scans. -/
def fillHoles (bkey : FSBlockKey) (around : AllocateAround) (holes : List FSSliceSize)
    (state : IndexState) : Errno × Int × IndexState :=
  if around.sarrayAlloc < holes.length * 2 ∧ around.realloced = false then (.enomem, 0, state)
  else
    let made := allocHoles around.alloc holes
    if made.1 = .ok then addSlicesCounting sl made.2 (enterBlock bkey made.2 state) around.adds
    else (made.1, 0, enterBlock bkey made.2 state)

/-- `fs_slice_allocate`: the result, `space_changed` and the index; nothing when the loop of scans
takes more than `fuel` rounds. -/
def fsSliceAllocateIn (fuel : Nat) (bsKey : FSBlockSliceKeyInfo) (around : AllocateAround)
    (state : IndexState) : Option (Errno × Int × IndexState) :=
  (sliceIndexHoles sl bsKey state.htable around.scans fuel).map fun scanned =>
    if scanned.1 = .ok then fillHoles sl bsKey.block around scanned.2 state
    else (scanned.1, 0, state)

end Call

/-! ## The holes -/

/-- The array holds the first holes, and the count all of them. -/
theorem storeHoles_eq (maxSize : Nat) (rangeEnd offset : Int) (slices : List OBSliceEntry)
    (before : List FSSliceSize) :
    storeHoles maxSize rangeEnd offset slices ⟨before.take maxSize, before.length⟩ =
      ⟨(before ++ holesFrom rangeEnd offset slices).take maxSize,
        (before ++ holesFrom rangeEnd offset slices).length⟩ := by
  have add_eq (before : List FSSliceSize) (hole : FSSliceSize) :
      HoleArray.add maxSize ⟨before.take maxSize, before.length⟩ hole =
        ⟨(before ++ [hole]).take maxSize, (before ++ [hole]).length⟩ := by
    rw [HoleArray.add, List.length_append, List.length_singleton]
    dsimp only
    split_ifs with room
    · rw [List.take_of_length_le room.le, List.take_of_length_le]
      rw [List.length_append, List.length_singleton]
      exact room
    · rw [List.take_append_of_le_length (not_lt.mp room)]
  induction slices generalizing offset before with
  | nil =>
      rw [storeHoles, holesFrom]
      split_ifs
      · exact add_eq before _
      · rw [List.append_nil]
  | cons slice rest ih =>
      rw [storeHoles, holesFrom]
      split_ifs
      · rw [add_eq, ih, List.append_assoc]
      · rw [ih, List.nil_append]

section Holes

variable (sl : UniqSkiplist OBSliceEntry.key) (bsKey : FSBlockSliceKeyInfo) (htable : OBHashtable)

theorem getSliceIndexHolesIn_granted {maxSize : Nat} (room : 0 < maxSize) :
    getSliceIndexHolesIn sl bsKey htable maxSize true =
      (if (getSliceIndexHoles sl bsKey htable).length ≤ maxSize then .ok else .enospc,
        ⟨(getSliceIndexHoles sl bsKey htable).take maxSize,
          (getSliceIndexHoles sl bsKey htable).length⟩) := by
  rw [getSliceIndexHolesIn, if_pos rfl, getSliceIndexHoles]
  obtain ⟨result, slices⟩ := obIndexGetSlicesEx sl bsKey htable
  cases result with
  | ok =>
      have stored := storeHoles_eq maxSize (bsKey.slice.offset + bsKey.slice.length)
        bsKey.slice.offset slices []
      rw [List.take_nil, List.length_nil, List.nil_append] at stored
      dsimp only
      rw [stored]
  | _ =>
      have one : [bsKey.slice].length ≤ maxSize := room
      dsimp only
      rw [if_pos one, List.take_of_length_le one, List.length_singleton]

/-- One round of the loop is enough: the scans end with all holes, or because memory is
refused. -/
theorem sliceIndexHoles_cases (memory : Nat → ScanMemory) (fuel : Nat) :
    sliceIndexHoles sl bsKey htable memory (fuel + 1) =
        some (.ok, getSliceIndexHoles sl bsKey htable) ∨
      sliceIndexHoles sl bsKey htable memory (fuel + 1) = some (.enomem, []) := by
  cases first : (memory 0).slices with
  | false =>
      apply Or.inr
      rw [sliceIndexHoles, first]
      rfl
  | true =>
      rw [sliceIndexHoles, first, getSliceIndexHolesIn_granted sl bsKey htable (by decide)]
      split_ifs with room
      · apply Or.inl
        dsimp only
        rw [List.take_of_length_le room]
      · dsimp only
        rw [growHoles]
        cases array : (memory 1).array with
        | false => exact Or.inr rfl
        | true =>
            cases second : (memory 1).slices with
            | false => exact Or.inr rfl
            | true =>
                have enough : (getSliceIndexHoles sl bsKey htable).length ≤
                    (getSliceIndexHoles sl bsKey htable).length +
                      fsSliceSnParrayInitAllocCount := Nat.le_add_right _ _
                apply Or.inl
                rw [if_pos rfl, getSliceIndexHolesIn_granted sl bsKey htable
                  (Nat.add_pos_right _ (by decide)), if_pos enough, List.take_of_length_le enough]

end Holes

theorem holesFrom_eq (rangeEnd offset : Int) (slices : List OBSliceEntry) :
    holesFrom rangeEnd offset slices =
      (gaps rangeEnd offset slices).map fun gap => ⟨gap.1, gap.2 - gap.1⟩ := by
  induction slices generalizing offset with
  | nil =>
      rw [holesFrom, gaps]
      split_ifs <;> rfl
  | cons slice rest ih =>
      rw [holesFrom, gaps, ih, List.map_append]
      simp only [Int.sub_pos, OBSliceEntry.start_eq, OBSliceEntry.stop_eq]
      split_ifs <;> rfl

section Clipped

variable {chain : List OBSliceEntry} {lo hi : Int}

theorem strip_clipped (laid : Laid chain) (order : lo ≤ hi) {offset : Int}
    (above : ∀ slice ∈ chain, offset ≤ max lo slice.ssize.offset) :
    Strip hi offset ((touchedSlices lo hi chain).map (clipSlice lo hi)) := by
  induction chain generalizing offset with
  | nil => trivial
  | cons slice rest ih =>
      obtain ⟨nonneg, across, restLaid⟩ := Laid.cons_iff.mp laid
      rw [touchedSlices, List.filter_cons]
      split_ifs with touched
      · have meets : Touched lo hi slice := by simpa using touched
        have first := above slice List.mem_cons_self
        have sliceEnd : slice.sliceEnd = slice.ssize.offset + slice.ssize.length := rfl
        simp only [Touched, OBSliceEntry.start_eq, OBSliceEntry.stop_eq,
          OBSliceEntry.len_eq] at meets nonneg
        simp only [List.map_cons, Strip, OBSliceEntry.start_eq, OBSliceEntry.stop_eq,
          clipSlice_offset, clipSlice_sliceEnd]
        refine ⟨first, by omega, by omega, ih restLaid fun next member => ?_⟩
        have behind := (across next member).2
        simp only [OBSliceEntry.start_eq, OBSliceEntry.stop_eq] at behind
        omega
      · exact ih restLaid fun next member => above next (List.mem_cons_of_mem _ member)

/-- In the range the clipped slices lie over what the slices lie over. -/
theorem exists_clipped_over_iff {b : Int} (low : lo ≤ b) (high : b < hi) :
    (∃ slice ∈ (touchedSlices lo hi chain).map (clipSlice lo hi), Over slice b) ↔
      ∃ slice ∈ chain, Over slice b := by
  constructor
  · rintro ⟨slice, member, covers⟩
    obtain ⟨source, touched, rfl⟩ := List.mem_map.mp member
    refine ⟨source, (List.mem_filter.mp touched).1, ?_⟩
    simp only [Over, OBSliceEntry.start_eq, OBSliceEntry.stop_eq, clipSlice_offset,
      clipSlice_sliceEnd] at covers ⊢
    omega
  · rintro ⟨slice, member, covers⟩
    have touched : Touched lo hi slice := by
      simp only [Over, Touched] at covers ⊢
      omega
    refine ⟨clipSlice lo hi slice,
      List.mem_map_of_mem (List.mem_filter.mpr ⟨member, by simpa using touched⟩), ?_⟩
    simp only [Over, OBSliceEntry.start_eq, OBSliceEntry.stop_eq, clipSlice_offset,
      clipSlice_sliceEnd] at covers ⊢
    omega

end Clipped

/-- The byte is in one of the ranges. -/
def InRanges (ranges : List FSSliceSize) (b : Int) : Prop :=
  ∃ range ∈ ranges, range.offset ≤ b ∧ b < range.offset + range.length

/-- The holes of a range in a chain: they lie in the range one behind the other and hold the
uncovered bytes. -/
structure HolesOf (chain : List OBSliceEntry) (range : FSSliceSize) (holes : List FSSliceSize) :
    Prop where
  positive : ∀ hole ∈ holes, 0 < hole.length
  apart : holes.Pairwise fun left right => left.offset + left.length ≤ right.offset
  exact : ∀ b, InRanges holes b ↔
    range.offset ≤ b ∧ b < range.offset + range.length ∧ ∀ slice ∈ chain, ¬Over slice b

section Holes

variable (sl : UniqSkiplist OBSliceEntry.key) {bsKey : FSBlockSliceKeyInfo} {htable : OBHashtable}

theorem getSliceIndexHoles_eq (sound : htable.Sound) (positive : 0 < bsKey.slice.length) :
    getSliceIndexHoles sl bsKey htable =
      holesFrom (bsKey.slice.offset + bsKey.slice.length) bsKey.slice.offset
        ((touchedSlices bsKey.slice.offset (bsKey.slice.offset + bsKey.slice.length)
          (htable.slicesOf bsKey.block)).map
            (clipSlice bsKey.slice.offset (bsKey.slice.offset + bsKey.slice.length))) := by
  have read := getSlices_snd sl (sound.laid bsKey.block) positive.le
  have result := getSlices_fst sl (htable.slicesOf bsKey.block) bsKey.slice
  rw [getSliceIndexHoles, obIndexGetSlicesEx_eq]
  rcases got : getSlices sl (htable.slicesOf bsKey.block) bsKey.slice with ⟨outcome, slices⟩
  rw [got] at read result
  dsimp only at read result
  rw [← read]
  split_ifs at result with empty
  · rw [result, empty, holesFrom, if_pos (by omega), add_sub_cancel_left]
  · rw [result]

/-- The scan finds the holes. -/
theorem holesOf_getSliceIndexHoles (sound : htable.Sound) (positive : 0 < bsKey.slice.length) :
    HolesOf (htable.slicesOf bsKey.block) bsKey.slice (getSliceIndexHoles sl bsKey htable) := by
  have strip := strip_clipped (sound.laid bsKey.block)
    (Int.le_add_of_nonneg_right positive.le :
      bsKey.slice.offset ≤ bsKey.slice.offset + bsKey.slice.length)
    fun slice _ => le_max_left _ _
  rw [getSliceIndexHoles_eq sl sound positive, holesFrom_eq]
  constructor
  · intro hole member
    obtain ⟨gap, found, rfl⟩ := List.mem_map.mp member
    exact Int.sub_pos.mpr (bounds_of_mem_gaps strip found).2.1
  · rw [List.pairwise_map]
    refine (pairwise_gaps strip).imp fun behind => ?_
    dsimp only
    omega
  · intro b
    have found := exists_gap_iff strip b
    have inHole : InRanges ((gaps (bsKey.slice.offset + bsKey.slice.length) bsKey.slice.offset
        ((touchedSlices bsKey.slice.offset (bsKey.slice.offset + bsKey.slice.length)
          (htable.slicesOf bsKey.block)).map
            (clipSlice bsKey.slice.offset (bsKey.slice.offset + bsKey.slice.length)))).map
              fun gap => ⟨gap.1, gap.2 - gap.1⟩) b ↔
        ∃ gap ∈ gaps (bsKey.slice.offset + bsKey.slice.length) bsKey.slice.offset
          ((touchedSlices bsKey.slice.offset (bsKey.slice.offset + bsKey.slice.length)
            (htable.slicesOf bsKey.block)).map
              (clipSlice bsKey.slice.offset (bsKey.slice.offset + bsKey.slice.length))),
          gap.1 ≤ b ∧ b < gap.2 := by
      simp only [InRanges, List.mem_map, exists_exists_and_eq_and]
      refine exists_congr fun gap => and_congr_right fun _ => ?_
      omega
    rw [inHole, found]
    refine and_congr_right fun low => and_congr_right fun high => ?_
    simpa only [not_exists, not_and] using not_congr (exists_clipped_over_iff low high)

end Holes

/-! ## The slices of the holes -/

/-- Slices of the block and the type, one behind the other, that lie in the ranges and cover
them. -/
structure Lays (bkey : FSBlockKey) (type : OBSliceType) (ranges : List FSSliceSize)
    (slices : List OBSliceEntry) : Prop where
  ob : ∀ slice ∈ slices, slice.ob = bkey
  type : ∀ slice ∈ slices, slice.type = type
  nonneg : ∀ slice ∈ slices, 0 ≤ slice.ssize.length
  apart : slices.Pairwise fun left right => left.sliceEnd ≤ right.ssize.offset
  inside : ∀ slice ∈ slices, ∃ range ∈ ranges, range.offset ≤ slice.ssize.offset ∧
    slice.sliceEnd ≤ range.offset + range.length
  covers : ∀ b, (∃ slice ∈ slices, Over slice b) ↔ InRanges ranges b

namespace Lays

variable {bkey : FSBlockKey} {type : OBSliceType} {first rest ranges : List FSSliceSize}
  {slices later : List OBSliceEntry}

theorem nil : Lays bkey type [] [] :=
  ⟨nofun, nofun, nofun, List.Pairwise.nil, nofun, fun b => by simp [InRanges]⟩

theorem single (slice : OBSliceEntry) (ob : slice.ob = bkey) (isType : slice.type = type)
    (nonneg : 0 ≤ slice.ssize.length) : Lays bkey type [slice.ssize] [slice] := by
  refine ⟨fun other member => ?_, fun other member => ?_, fun other member => ?_,
    List.pairwise_singleton _ _, fun other member => ?_, fun b => ?_⟩
  · rwa [List.mem_singleton.mp member]
  · rwa [List.mem_singleton.mp member]
  · rwa [List.mem_singleton.mp member]
  · rw [List.mem_singleton.mp member]
    exact ⟨slice.ssize, List.mem_singleton_self _, le_rfl, le_rfl⟩
  · simp [InRanges, Over, OBSliceEntry.start_eq, OBSliceEntry.stop_eq, OBSliceEntry.sliceEnd]

theorem append (front : Lays bkey type first slices) (behind : Lays bkey type rest later)
    (across : ∀ left ∈ first, ∀ right ∈ rest, left.offset + left.length ≤ right.offset) :
    Lays bkey type (first ++ rest) (slices ++ later) := by
  refine ⟨fun slice member => ?_, fun slice member => ?_, fun slice member => ?_, ?_,
    fun slice member => ?_, fun b => ?_⟩
  · exact (List.mem_append.mp member).elim (front.ob slice) (behind.ob slice)
  · exact (List.mem_append.mp member).elim (front.type slice) (behind.type slice)
  · exact (List.mem_append.mp member).elim (front.nonneg slice) (behind.nonneg slice)
  · refine List.pairwise_append.mpr ⟨front.apart, behind.apart, fun left lMember right rMember => ?_⟩
    obtain ⟨lRange, lPlace, -, lHigh⟩ := front.inside left lMember
    obtain ⟨rRange, rPlace, rLow, -⟩ := behind.inside right rMember
    exact (lHigh.trans (across lRange lPlace rRange rPlace)).trans rLow
  · cases List.mem_append.mp member with
    | inl here =>
        obtain ⟨range, place, bounds⟩ := front.inside slice here
        exact ⟨range, List.mem_append_left _ place, bounds⟩
    | inr there =>
        obtain ⟨range, place, bounds⟩ := behind.inside slice there
        exact ⟨range, List.mem_append_right _ place, bounds⟩
  · have one := front.covers b
    have other := behind.covers b
    unfold InRanges at one other ⊢
    simp only [List.mem_append, or_and_right, exists_or, one, other]

/-- Two ranges that meet are one. -/
theorem merge {left right : FSSliceSize} (lays : Lays bkey type [left, right] slices)
    (leftNonneg : 0 ≤ left.length) (rightNonneg : 0 ≤ right.length)
    (meets : right.offset = left.offset + left.length) :
    Lays bkey type [⟨left.offset, left.length + right.length⟩] slices := by
  refine ⟨lays.ob, lays.type, lays.nonneg, lays.apart, fun slice member => ?_, fun b => ?_⟩
  · obtain ⟨range, place, low, high⟩ := lays.inside slice member
    refine ⟨_, List.mem_singleton_self _, ?_⟩
    dsimp only
    cases List.mem_pair.mp place with
    | inl same =>
        rw [same] at low high
        omega
    | inr same =>
        rw [same] at low high
        omega
  · rw [lays.covers]
    unfold InRanges
    simp only [List.mem_cons, List.not_mem_nil, or_false, exists_eq_or_imp, exists_eq_left]
    omega

end Lays

section Made

variable {bkey : FSBlockKey} {sliceType : OBSliceType}

/-- The slices that are cut of enough spaces cover the range. -/
theorem lays_cutSlices {spaces : List FSTrunkSpaceInfo} {offset remain : Int}
    (some : spaces ≠ []) (nonneg : 0 ≤ remain) (filled : ∀ space ∈ spaces, 0 ≤ space.size)
    (enough : remain ≤ (spaces.map (·.size)).sum) :
    Lays bkey sliceType [⟨offset, remain⟩] (cutSlices bkey sliceType offset remain spaces) := by
  induction spaces generalizing offset remain with
  | nil => exact absurd rfl some
  | cons space rest ih =>
      have first := filled space List.mem_cons_self
      rw [List.map_cons, List.sum_cons] at enough
      have front : Lays bkey sliceType [_] [_] :=
        Lays.single ⟨bkey, sliceType,
          ⟨offset, if space.size < remain then space.size else remain⟩, space⟩ rfl rfl
          (by dsimp only; split_ifs <;> omega)
      rw [cutSlices]
      dsimp only at front ⊢
      cases rest with
      | nil =>
          rw [List.map_nil, List.sum_nil] at enough
          have whole : ¬space.size < remain := by omega
          rw [if_neg whole] at front ⊢
          exact front
      | cons next rest =>
          have others := fun other member => filled other (List.mem_cons_of_mem _ member)
          have total : 0 ≤ ((next :: rest).map (·.size)).sum := by
            refine List.sum_nonneg fun size member => ?_
            obtain ⟨other, inRest, rfl⟩ := List.mem_map.mp member
            exact others other inRest
          have behind := @ih (offset + if space.size < remain then space.size else remain)
            (remain - if space.size < remain then space.size else remain)
            (List.cons_ne_nil _ _) (by split_ifs <;> omega) others (by split_ifs <;> omega)
          have both := (front.append behind fun left lMember right rMember => by
            rw [List.mem_singleton.mp lMember, List.mem_singleton.mp rMember]).merge
              (by dsimp only; split_ifs <;> omega) (by dsimp only; split_ifs <;> omega) rfl
          dsimp only at both
          rw [add_sub_cancel] at both
          exact both

theorem lays_initSlices {spaces : List FSTrunkSpaceInfo} {range : FSSliceSize}
    (some : spaces ≠ []) (nonneg : 0 ≤ range.length) (filled : ∀ space ∈ spaces, 0 ≤ space.size)
    (enough : range.length ≤ (spaces.map (·.size)).sum) :
    Lays bkey sliceType [range] (initSlices ⟨bkey, range⟩ sliceType spaces) := by
  unfold initSlices
  split
  · exact Lays.single ⟨bkey, sliceType, range, _⟩ rfl rfl nonneg
  · exact lays_cutSlices some nonneg filled enough

/-- The slices of an allocation cover the range, also where the last one is empty. -/
theorem lays_fsSliceAlloc {sa : FSStorageAllocatorManager} (sound : sa.ListsSound)
    {discardRemainSpaceSize : Int} {range : FSSliceSize} (positive : 0 < range.length)
    {isNormal : Bool} {type : FSTrunkFreelistType} {woken : Option FSStorageAllocatorManager}
    {slices : List OBSliceEntry}
    (done : fsSliceAlloc discardRemainSpaceSize ⟨bkey, range⟩ sliceType isNormal type sa woken =
      some slices) :
    Lays bkey sliceType [range] slices := by
  unfold fsSliceAlloc at done
  dsimp only at done
  cases result : trunkFreelistAllocSpace discardRemainSpaceSize isNormal type range.length sa
      woken with
  | aborts | eagain | noTrunk =>
      rw [result] at done
      cases done
  | ok spaces =>
      rw [result] at done
      cases done
      obtain ⟨alignedSize, given, first, last, half, -, ends⟩ := ok_of_alloc result
      obtain ⟨-, trunk, -, -, rfl⟩ := ok_of_allocLast ends
      obtain ⟨le, -⟩ := le_memAlignCeil range.length
      have fits : alignedSize + (given.map (·.size)).sum =
          memAlignCeil range.length fsSpaceAlignSize ∧ 0 ≤ alignedSize ∧
            ∀ space ∈ given, 0 ≤ space.size := by
        rcases allocRemain_cases sound half with
          ⟨rfl, rfl, -, -⟩ | ⟨key, head, -, room, less, rfl, rfl, -⟩
        · exact ⟨Int.add_zero _, positive.le.trans le, nofun⟩
        · refine ⟨?_, Int.sub_nonneg_of_le less.le, fun space member => ?_⟩
          · rw [List.map_singleton, List.sum_singleton, Int.sub_add_cancel]
          · rw [List.mem_singleton.mp member]
            exact room.le
      apply lays_initSlices
      · exact List.append_ne_nil_of_right_ne_nil _ (List.cons_ne_nil _ _)
      · exact positive.le
      · intro space member
        cases List.mem_append.mp member with
        | inl earlier => exact fits.2.2 space earlier
        | inr final =>
            rw [List.mem_singleton.mp final]
            exact fits.2.1
      · rw [List.map_append, List.sum_append, List.map_singleton, List.sum_singleton,
          Int.add_comm, fits.1]
        exact le

/-- The slices that are made for all holes cover them. -/
theorem lays_allocHoles {alloc : FSSliceSize → Errno × List OBSliceEntry}
    {holes : List FSSliceSize}
    (apart : holes.Pairwise fun left right => left.offset + left.length ≤ right.offset)
    (serves : ∀ hole ∈ holes, ∀ slices, alloc hole = (.ok, slices) →
      Lays bkey sliceType [hole] slices)
    (done : (allocHoles alloc holes).1 = .ok) :
    Lays bkey sliceType holes (allocHoles alloc holes).2 := by
  induction holes with
  | nil => exact Lays.nil
  | cons hole rest ih =>
      obtain ⟨across, restApart⟩ := List.pairwise_cons.mp apart
      rcases made : alloc hole with ⟨result, slices⟩
      cases result with
      | ok =>
          rw [allocHoles, made] at done ⊢
          refine (serves hole List.mem_cons_self slices made).append (ih restApart
            (fun other member => serves other (List.mem_cons_of_mem _ member)) done) ?_
          intro left lMember right rMember
          rw [List.mem_singleton.mp lMember]
          exact across right rMember
      | _ =>
          rw [allocHoles, made] at done
          cases done

end Made

/-! ## The adds -/

section Adds

variable (sl : UniqSkiplist OBSliceEntry.key) {state : IndexState} {slice : OBSliceEntry}
  {memory : Memory}

theorem insert_ok_of_doAddSlice {htable : OBHashtable}
    {before : List OBSliceEntry × FSStorageAllocatorManager}
    (done : (doAddSlice sl htable before slice).1 = .ok) : (sl.insert before.1 slice).1 = .ok := by
  unfold doAddSlice at done
  split at done
  · rename_i inserted
    rw [inserted]
  · rename_i inserted
    rw [inserted]
    exact done

/-- A slice that is added with success is linked over what is left of the chain. -/
theorem addSlice_chain_of_ok {htable : OBHashtable} {chain : List OBSliceEntry} (laid : Laid chain)
    (nonneg : 0 ≤ slice.ssize.length) {sa : FSStorageAllocatorManager}
    (done : (addSlice sl htable chain slice sa).1 = .ok) :
    (addSlice sl htable chain slice sa).2.2.1 = overwrite slice chain := by
  have order : slice.ssize.offset ≤ slice.sliceEnd := le_add_of_nonneg_right nonneg
  have inserted : (sl.insert (carve slice.ssize.offset slice.sliceEnd chain) slice).1 = .ok := by
    unfold addSlice at done
    split_ifs at done with empty
    · rw [empty] at done ⊢
      exact insert_ok_of_doAddSlice sl done
    · obtain ⟨dels, adds⟩ := addSliceScan_spec sl laid nonneg
      have last := insert_ok_of_doAddSlice sl done
      rwa [dels, adds, foldl_doAddSlice_chain, foldl_doDeleteSlice_chain,
        refilled_eq_carve sl laid order] at last
  have fresh : ∀ other ∈ carve slice.ssize.offset slice.sliceEnd chain,
      other.key ≠ slice.key := by
    intro other member same
    rw [sl.insert_exists _ slice (laid.carve order).ascending ⟨other, member, same⟩] at inserted
    cases inserted
  rw [addSlice_chain sl htable laid nonneg,
    sl.insert_fresh _ slice (laid.carve order).ascending fresh]
  rfl

/-- An add over a clear range needs no fragment, so one that succeeds has got all its memory. -/
theorem obIndexAddSliceWith_of_ok (sound : state.htable.Sound) (nonneg : 0 ≤ slice.ssize.length)
    (clear : Clear (state.htable.slicesOf slice.ob) slice.ssize.offset slice.sliceEnd)
    (done : (obIndexAddSliceWith sl slice state memory).1 = .ok) :
    (obIndexAddSliceEx sl true slice state).1 = .ok ∧
      (obIndexAddSliceWith sl slice state memory).2.1 =
        (obIndexAddSliceEx sl true slice state).2.2 := by
  cases present : state.htable.getObEntry slice.ob with
  | none =>
      simp only [obIndexAddSliceWith, present] at done
      cases done
  | some ob =>
      have order : slice.ssize.offset ≤ slice.sliceEnd := le_add_of_nonneg_right nonneg
      have laid := sound.laid slice.ob
      rw [OBHashtable.slicesOf_of_getObEntry present] at laid clear
      simp only [obIndexAddSliceWith, present] at done
      have noPieces : touchedPieces slice.ssize.offset slice.sliceEnd ob.slices = [] := by
        refine List.flatMap_eq_nil_iff.mpr fun other member => ?_
        obtain ⟨inChain, touched⟩ := List.mem_filter.mp member
        exact clear.pieces_eq_nil laid order inChain (by simpa using touched)
      have collects : ¬Refuses memory (collectRequests ob.slices slice) := by
        intro refuses
        unfold addSliceWith at done
        rw [(asks_collect sl laid nonneg).refused memory refuses] at done
        cases done
      have node : ¬Refuses (memory.drop (collectRequests ob.slices slice)) 1 := by
        intro refuses
        obtain ⟨begun, -, ran⟩ :=
          addSliceWith_begun sl state.htable state.sallocator laid nonneg collects
        rw [ran, noPieces, List.length_nil, List.drop_zero,
          doAddSliceWith_refused sl refuses] at done
        cases done
      have grants : ¬Refuses memory (addRequests ob.slices slice) := by
        rw [addRequests, noPieces, List.length_nil, Nat.zero_add, refuses_add]
        exact not_or.mpr ⟨collects, node⟩
      have added := addSliceWith_granted sl state.htable state.sallocator laid nonneg grants
      rw [added] at done
      dsimp only at done
      simp only [obIndexAddSliceWith, obIndexAddSliceEx, present, added, done, if_true, nextSn,
        and_self]

theorem slicesOf_of_ok (sound : state.htable.Sound) (nonneg : 0 ≤ slice.ssize.length)
    (done : (obIndexAddSliceEx sl true slice state).1 = .ok) :
    (obIndexAddSliceEx sl true slice state).2.2.htable.Sound ∧
      ∀ other, (obIndexAddSliceEx sl true slice state).2.2.htable.slicesOf other =
        if other = slice.ob then overwrite slice (state.htable.slicesOf slice.ob)
        else state.htable.slicesOf other := by
  cases present : state.htable.getObEntry slice.ob with
  | none =>
      simp only [obIndexAddSliceEx, present] at done
      cases done
  | some ob =>
      refine ⟨sound_obIndexAddSliceEx sl true sound present nonneg, fun other => ?_⟩
      have chain := OBHashtable.slicesOf_of_getObEntry present
      simp only [obIndexAddSliceEx, present] at done
      rw [slicesOf_obIndexAddSliceEx sl true sound present, chain,
        addSlice_chain_of_ok sl (chain ▸ sound.laid slice.ob) nonneg done]

/-- What the adds of an allocation come to: the block holds the slices over what it held, and the
reports add up to the change of its bytes. -/
structure Filling (bkey : FSBlockKey) (slices : List OBSliceEntry) (changed : Int)
    (before after : IndexState) : Prop where
  sound : after.htable.Sound
  byteMap : ∀ other b, after.byteMap other b =
    (if other = bkey then valueAt OBSliceEntry.byteAt slices b else none).or
      (before.byteMap other b)
  changed : changed = after.htable.blockBytes bkey - before.htable.blockBytes bkey

variable {bkey : FSBlockKey} {slices : List OBSliceEntry}

/-- Slices that lie one behind the other over clear ranges are all added, and stay. -/
theorem filling_of_ok (sound : state.htable.Sound) (ob : ∀ slice ∈ slices, slice.ob = bkey)
    (nonneg : ∀ slice ∈ slices, 0 ≤ slice.ssize.length)
    (apart : slices.Pairwise fun left right => left.sliceEnd ≤ right.ssize.offset)
    (clear : ∀ slice ∈ slices,
      Clear (state.htable.slicesOf bkey) slice.ssize.offset slice.sliceEnd)
    (done : (addSlicesCounting sl slices state memory).1 = .ok) :
    Filling bkey slices (addSlicesCounting sl slices state memory).2.1 state
      (addSlicesCounting sl slices state memory).2.2 := by
  induction slices generalizing state memory with
  | nil =>
      refine ⟨sound, fun other b => ?_, (Int.sub_self _).symm⟩
      rw [show valueAt OBSliceEntry.byteAt [] b = none from rfl, ite_self, Option.none_or]
      rfl
  | cons slice rest ih =>
      obtain ⟨across, restApart⟩ := List.pairwise_cons.mp apart
      have own := ob slice List.mem_cons_self
      have filled := nonneg slice List.mem_cons_self
      have order : slice.ssize.offset ≤ slice.sliceEnd := le_add_of_nonneg_right filled
      have later := fun other member => ob other (List.mem_cons_of_mem slice member)
      rcases first : obIndexAddSliceWith sl slice state memory with ⟨result, added, left⟩
      cases result with
      | ok =>
          obtain ⟨succeeds, same⟩ := obIndexAddSliceWith_of_ok sl sound filled
            (by rw [own]; exact clear slice List.mem_cons_self) (congrArg Prod.fst first)
          obtain ⟨stays, chains⟩ := slicesOf_of_ok sl sound filled succeeds
          have reported := incAlloc_obIndexAddSliceEx sl true sound filled
          rw [first] at same
          dsimp only at same
          rw [← same] at stays chains reported
          rw [own] at chains reported
          have laid := sound.laid bkey
          have linked : Laid (overwrite slice (state.htable.slicesOf bkey)) := by
            have after := stays.laid bkey
            rwa [chains, if_pos rfl] at after
          rw [addSlicesCounting, first] at done ⊢
          have goesOn := ih stays later
            (fun other member => nonneg other (List.mem_cons_of_mem _ member)) restApart
            (fun other member => by
              rw [chains, if_pos rfl]
              exact ((clear other (List.mem_cons_of_mem _ member)).carve laid order).insert
                (Or.inl (across other member))) done
          refine ⟨goesOn.sound, fun other b => ?_, ?_⟩
          · rw [goesOn.byteMap, IndexState.byteMap, chains]
            by_cases block : other = bkey
            · rw [if_pos block, if_pos block, if_pos block, block,
                valueAt_overwrite_of_laid OBSliceEntry.cutInvariant_byteAt laid filled linked]
              by_cases covers : Over slice b
              · have nothing : valueAt OBSliceEntry.byteAt rest b = none := by
                  refine valueAt_eq_none_iff.mpr fun next member also => ?_
                  exact absurd (covers.2.trans_le (across next member)) (not_lt.mpr also.1)
                rw [if_pos covers, nothing, valueAt_cons, if_pos covers]
                rfl
              · rw [if_neg covers, valueAt_cons, if_neg covers]
                rfl
            · rw [if_neg block, if_neg block, if_neg block]
              rfl
          · dsimp only
            have more := goesOn.changed
            omega
      | _ =>
          rw [addSlicesCounting, first] at done
          cases done

end Adds

/-! ## The allocation -/

/-- A successful allocation keeps what was covered, changes nothing outside its range, covers all
of the range, the new bytes by slices of type ALLOC, and reports how many these are. -/
structure FillsHoles (bsKey : FSBlockSliceKeyInfo) (before after : IndexState) (changed : Int) :
    Prop where
  kept : ∀ bkey b place, before.byteMap bkey b = some place → after.byteMap bkey b = some place
  outside : ∀ bkey b, ¬(bkey = bsKey.block ∧ bsKey.slice.offset ≤ b ∧
    b < bsKey.slice.offset + bsKey.slice.length) → after.byteMap bkey b = before.byteMap bkey b
  filled : ∀ b, bsKey.slice.offset ≤ b → b < bsKey.slice.offset + bsKey.slice.length →
    ∃ place, after.byteMap bsKey.block b = some place ∧
      (before.byteMap bsKey.block b = none → place.type = .alloc)
  changed : changed =
    ((Finset.Ico bsKey.slice.offset (bsKey.slice.offset + bsKey.slice.length)).filter
      fun b => before.byteMap bsKey.block b = none).card

/-- What is given for a hole is made by `fs_slice_alloc`, in some state that the trunks of a run
come to. -/
def ServedBy (bkey : FSBlockKey) (alloc : FSSliceSize → Errno × List OBSliceEntry) : Prop :=
  ∀ hole slices, alloc hole = (.ok, slices) →
    ∃ config s isNormal type woken, Reachable (FreelistStep config) FreelistInit s ∧
      fsSliceAlloc config.discardRemainSpaceSize ⟨bkey, hole⟩ .alloc isNormal type s.sallocator
        woken = some slices

section Allocation

variable (sl : UniqSkiplist OBSliceEntry.key) {state : IndexState} {bsKey : FSBlockSliceKeyInfo}

theorem byteMap_eq_none_iff {bkey : FSBlockKey} {b : Int} :
    state.byteMap bkey b = none ↔ ∀ slice ∈ state.htable.slicesOf bkey, ¬Over slice b :=
  valueAt_eq_none_iff

theorem enterBlock_spec (sound : state.htable.Sound) (bkey : FSBlockKey)
    (slices : List OBSliceEntry) :
    (enterBlock bkey slices state).htable.Sound ∧
      (enterBlock bkey slices state).htable.slicesOf = state.htable.slicesOf := by
  unfold enterBlock
  split_ifs
  · exact ⟨sound, rfl⟩
  · exact ⟨sound.alloc bkey, funext fun other => OBHashtable.slicesOf_alloc sound.wf bkey other⟩

/-- The slices of the holes, once they are added, fill the range. -/
theorem fillsHoles_of_filling {before after : IndexState} {holes : List FSSliceSize}
    {slices : List OBSliceEntry} {changed : Int}
    (are : HolesOf (before.htable.slicesOf bsKey.block) bsKey.slice holes)
    (lays : Lays bsKey.block .alloc holes slices)
    (filling : Filling bsKey.block slices changed before after) :
    FillsHoles bsKey before after changed := by
  have uncovered {b : Int} {place : TrunkByte}
      (found : valueAt OBSliceEntry.byteAt slices b = some place) :
      bsKey.slice.offset ≤ b ∧ b < bsKey.slice.offset + bsKey.slice.length ∧
        before.byteMap bsKey.block b = none ∧ place.type = .alloc := by
    obtain ⟨slice, member, covers, rfl⟩ := exists_of_valueAt found
    obtain ⟨low, high, apart⟩ := (are.exact b).mp ((lays.covers b).mp ⟨slice, member, covers⟩)
    exact ⟨low, high, byteMap_eq_none_iff.mpr apart, lays.type slice member⟩
  have found {b : Int} (low : bsKey.slice.offset ≤ b)
      (high : b < bsKey.slice.offset + bsKey.slice.length)
      (hole : before.byteMap bsKey.block b = none) :
      ∃ place, valueAt OBSliceEntry.byteAt slices b = some place := by
    obtain ⟨slice, member, covers⟩ :=
      (lays.covers b).mpr ((are.exact b).mpr ⟨low, high, byteMap_eq_none_iff.mp hole⟩)
    refine Option.ne_none_iff_exists'.mp fun absent => ?_
    exact valueAt_eq_none_iff.mp absent slice member covers
  have own (b : Int) := filling.byteMap bsKey.block b
  simp only [if_true] at own
  refine ⟨fun bkey b place held => ?_, fun bkey b apart => ?_, fun b low high => ?_, ?_⟩
  · rw [filling.byteMap]
    split_ifs with same
    · cases new : valueAt OBSliceEntry.byteAt slices b with
      | none => exact held
      | some _ =>
          rw [same, (uncovered new).2.2.1] at held
          cases held
    · exact held
  · rw [filling.byteMap]
    split_ifs with same
    · cases new : valueAt OBSliceEntry.byteAt slices b with
      | none => rfl
      | some _ => exact absurd ⟨same, (uncovered new).1, (uncovered new).2.1⟩ apart
    · rfl
  · cases held : before.byteMap bsKey.block b with
    | none =>
        obtain ⟨place, new⟩ := found low high held
        refine ⟨place, ?_, fun _ => (uncovered new).2.2.2⟩
        rw [own, new]
        rfl
    | some place =>
        refine ⟨place, ?_, nofun⟩
        cases new : valueAt OBSliceEntry.byteAt slices b with
        | none => rw [own, new, held, Option.none_or]
        | some _ =>
            rw [(uncovered new).2.2.1] at held
            cases held
  · have parts : footprint (after.htable.slicesOf bsKey.block) =
        footprint (before.htable.slicesOf bsKey.block) ∪
          ((Finset.Ico bsKey.slice.offset (bsKey.slice.offset + bsKey.slice.length)).filter
            fun b => before.byteMap bsKey.block b = none : Finset Int) := by
      ext b
      have covered (index : IndexState) :
          b ∈ footprint (index.htable.slicesOf bsKey.block) ↔
            index.byteMap bsKey.block b ≠ none := by
        rw [Ne, byteMap_eq_none_iff]
        simp [footprint]
      simp only [Set.mem_union, covered, own, Finset.coe_filter, Finset.mem_Ico, Set.mem_setOf_eq]
      cases held : before.byteMap bsKey.block b with
      | none =>
          simp only [Option.or_none, ne_eq, not_true_eq_false, false_or, and_true]
          constructor
          · intro new
            obtain ⟨place, new⟩ := Option.ne_none_iff_exists'.mp new
            exact ⟨(uncovered new).1, (uncovered new).2.1⟩
          · rintro ⟨low, high⟩ absent
            obtain ⟨place, new⟩ := found low high held
            rw [new] at absent
            cases absent
      | some place =>
          cases valueAt OBSliceEntry.byteAt slices b <;> simp
    have apart : Disjoint (footprint (before.htable.slicesOf bsKey.block))
        ((Finset.Ico bsKey.slice.offset (bsKey.slice.offset + bsKey.slice.length)).filter
          fun b => before.byteMap bsKey.block b = none : Finset Int) := by
      rw [Set.disjoint_left]
      rintro b ⟨slice, member, covers⟩ hole
      exact byteMap_eq_none_iff.mp (Finset.mem_filter.mp hole).2 slice member covers
    have count := filling.changed
    rw [OBHashtable.blockBytes_eq, OBHashtable.blockBytes_eq, parts,
      Set.ncard_union_eq apart (footprint_finite _) (Finset.finite_toSet _),
      Set.ncard_coe_finset] at count
    rw [count]
    omega

/-- Where the scan finds no hole, the call changes nothing. -/
theorem fsSliceAllocateIn_of_covered {around : AllocateAround}
    (none : getSliceIndexHoles sl bsKey state.htable = [])
    (granted : (around.scans 0).slices = true) (fuel : Nat) :
    fsSliceAllocateIn sl fuel bsKey around state = some (.ok, 0, state) := by
  rw [fsSliceAllocateIn, sliceIndexHoles, granted,
    getSliceIndexHolesIn_granted sl bsKey state.htable (by decide), none]
  rfl

/-- Behind the scans a call that succeeds has made all slices and added them. -/
theorem added_of_fillHoles {bkey : FSBlockKey} {around : AllocateAround}
    {holes : List FSSliceSize} {changed : Int} {after : IndexState}
    (done : fillHoles sl bkey around holes state = (.ok, changed, after)) :
    (allocHoles around.alloc holes).1 = .ok ∧
      addSlicesCounting sl (allocHoles around.alloc holes).2
        (enterBlock bkey (allocHoles around.alloc holes).2 state) around.adds =
          (.ok, changed, after) := by
  unfold fillHoles at done
  split at done
  · cases done
  · dsimp only at done
    split at done
    · rename_i made
      exact ⟨made, done⟩
    · rename_i failed
      exact absurd (congrArg Prod.fst done) failed

end Allocation

/-- A block that has two slices of 100 bytes. -/
def twoSlices : IndexState :=
  runIndexOps (UniqSkiplist.level0 OBSliceEntry.key)
    ⟨⟨1, fun _ => [], false, false⟩,
      ⟨fun _ => none, fun _ => ⟨[], ⟨[], 0, 0⟩, 0, [], 0, 0⟩, ⟨[], 0, 0⟩⟩, 0⟩
    [.addSlice true ⟨⟨7, 0⟩, .file, ⟨100, 100⟩, ⟨0, ⟨9, 0⟩, 0, 104⟩⟩,
      .addSlice true ⟨⟨7, 0⟩, .file, ⟨300, 100⟩, ⟨0, ⟨9, 0⟩, 104, 104⟩⟩]

/-- The spaces come from the trunks whose head has 257 bytes left. -/
def unevenAlloc (hole : FSSliceSize) : Errno × List OBSliceEntry :=
  match fsSliceAlloc 256 ⟨⟨7, 0⟩, hole⟩ .alloc true (.normal 0) unevenHead.sallocator none with
  | some slices => (.ok, slices)
  | none => (.eagain, [])

theorem servedBy_unevenAlloc : ServedBy ⟨7, 0⟩ unevenAlloc := by
  intro hole slices gives
  refine ⟨loadStorageConfig 0 256, unevenHead, true, .normal 0, none, reachable_unevenHead, ?_⟩
  unfold unevenAlloc at gives
  split at gives
  · rename_i made given
    cases gives
    exact given
  · cases gives

end FastStore.Storage
