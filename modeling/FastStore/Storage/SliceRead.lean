import FastStore.Storage.ByteMap
import FastStore.Util.Coverage

/-!
# What a server answers to a read

`fs_slice_read` puts the slices of the range one after another into the response, with
zeros for the holes between them and for reserved slices.  So the response reaches up
to the last covered byte of the range, and a range without a covered byte is answered
with `ENOENT`.
-/

namespace FastStore.Storage

open FastStore.Util FastStore.Util.Extent

/-- A block as a server stores it: the chain of its slices, and the bytes of the trunk
files. -/
structure StoredBlock where
  chain : List OBSliceEntry
  laid : Laid chain
  filled : ∀ slice ∈ chain, 0 < slice.ssize.length
  trunkByte : TrunkByte → UInt8

namespace StoredBlock

variable (block : StoredBlock)

/-- A byte of a slice as it is read: reserved space reads as zeros. -/
def readByte (place : TrunkByte) : UInt8 :=
  if place.type = .alloc then 0 else block.trunkByte place

/-- What the block holds at a position. -/
def content (b : Int) : Option UInt8 :=
  (valueAt OBSliceEntry.byteAt block.chain b).map block.readByte

/-- The bytes of a slice. -/
def sliceBytes (slice : OBSliceEntry) : List UInt8 :=
  (List.range slice.ssize.length.toNat).map fun i : Nat =>
    block.readByte (slice.byteAt (slice.ssize.offset + i))

/-- The loop of `fs_slice_read`: the buffers it makes, in order. -/
def sliceReadLoop : Int → List OBSliceEntry → List UInt8
  | _, [] => []
  | offset, slice :: rest =>
      let hole_len := slice.ssize.offset - offset
      List.replicate hole_len.toNat 0 ++ block.sliceBytes slice ++
        sliceReadLoop (slice.ssize.offset + slice.ssize.length) rest

variable (sl : UniqSkiplist OBSliceEntry.key)

/-- `fs_slice_read`. -/
def fs_slice_read (range : FSSliceSize) : Except Errno (List UInt8) :=
  let got := getSlices sl block.chain range
  if got.1 = .ok then .ok (block.sliceReadLoop range.offset got.2)
  else .error got.1

/-- `service_deal_slice_read` with the checks of `du_handler_parse_check_block_slice`.  A
client asks for no more than the buffer that the server announced. -/
def service_deal_slice_read (range : FSSliceSize) : Except Errno (List UInt8) :=
  if range.offset < 0 ∨ fsFileBlockSize ≤ range.offset then .error .einval
  else if range.length ≤ 0 ∨ fsFileBlockSize < range.offset + range.length then .error .einval
  else block.fs_slice_read sl range

variable {block}

theorem length_sliceBytes (slice : OBSliceEntry) :
    (block.sliceBytes slice).length = slice.ssize.length.toNat := by
  simp [sliceBytes]

/-- What a chain of slices says about a position, as it is read. -/
def held (block : StoredBlock) (slices : List OBSliceEntry) (b : Int) : Option UInt8 :=
  (valueAt OBSliceEntry.byteAt slices b).map block.readByte

variable {slices : List OBSliceEntry} {slice : OBSliceEntry}

theorem held_of_over (laid : Laid slices) (member : slice ∈ slices) {b : Int}
    (covers : Over slice b) : block.held slices b = some (block.readByte (slice.byteAt b)) := by
  have value : valueAt OBSliceEntry.byteAt slices b = some (slice.byteAt b) :=
    (valueAt_eq_some_iff laid).mpr ⟨slice, member, covers, rfl⟩
  rw [held, value, Option.map_some]

/-- The bytes of a slice are what its chain says at their positions. -/
theorem sliceBytes_eq (laid : Laid slices) (member : slice ∈ slices) :
    block.sliceBytes slice =
      filledValues (block.held slices) 0 slice.ssize.offset slice.ssize.length.toNat := by
  apply List.map_congr_left
  intro i inside
  have short : i < slice.ssize.length.toNat := List.mem_range.mp inside
  have covers : Over slice (slice.ssize.offset + i) := by
    simp only [Over, OBSliceEntry.start_eq, OBSliceEntry.stop_eq, OBSliceEntry.sliceEnd]
    omega
  rw [held_of_over laid member covers, Option.getD_some]

theorem held_below (laid : Laid (slice :: slices)) {b : Int} (below : b < slice.ssize.offset) :
    block.held (slice :: slices) b = none := by
  have none : valueAt OBSliceEntry.byteAt (slice :: slices) b = none := by
    refine valueAt_eq_none_iff.mpr fun other member covers => ?_
    have start : slice.ssize.offset ≤ other.ssize.offset := by
      cases List.mem_cons.mp member with
      | inl same => rw [same]
      | inr later => exact ((Laid.cons_iff.mp laid).2.1 other later).1.le
    exact absurd (start.trans covers.1) (not_le.mpr below)
  rw [held, none, Option.map_none]

theorem held_cons_of_le {b : Int} (beyond : slice.ssize.offset + slice.ssize.length ≤ b) :
    block.held (slice :: slices) b = block.held slices b := by
  have apart : ¬Over slice b := fun covers => absurd covers.2 (not_lt.mpr beyond)
  rw [held, held, valueAt, List.find?_cons_of_neg (by simpa using apart), valueAt]

/-- The loop makes the values of the range up to its last covered position. -/
theorem sliceReadLoop_eq (laid : Laid slices) (filled : ∀ slice ∈ slices, 0 < slice.ssize.length)
    {offset : Int} {n : Nat} (above : ∀ slice ∈ slices, offset ≤ slice.ssize.offset)
    (below : ∀ slice ∈ slices, slice.ssize.offset + slice.ssize.length ≤ offset + n) :
    block.sliceReadLoop offset slices =
      filledValues (block.held slices) 0 offset (coveredEnd (block.held slices) offset n) := by
  induction slices generalizing offset n with
  | nil =>
      have zero : coveredEnd (block.held []) offset n = 0 :=
        coveredEnd_eq_zero_iff.mpr fun _ _ => rfl
      rw [zero]
      rfl
  | cons slice rest ih =>
      have parts := Laid.cons_iff.mp laid
      have positive := filled slice List.mem_cons_self
      have start := above slice List.mem_cons_self
      have stop := below slice List.mem_cons_self
      obtain ⟨hole, holeEq⟩ := Int.eq_ofNat_of_zero_le (Int.sub_nonneg_of_le start)
      obtain ⟨length, lengthEq⟩ := Int.eq_ofNat_of_zero_le positive.le
      obtain ⟨extra, extraEq⟩ := Int.eq_ofNat_of_zero_le (Int.sub_nonneg_of_le stop)
      have whole : n = hole + length + extra := by omega
      have sliceStart : offset + (hole : Int) = slice.ssize.offset := by omega
      have restStart : offset + ((hole + length : Nat) : Int) =
          slice.ssize.offset + slice.ssize.length := by omega
      -- behind the slice the chain says what the rest says
      have same : ∀ i < extra, block.held (slice :: rest) (offset + (hole + length : Nat) + i) =
          block.held rest (slice.ssize.offset + slice.ssize.length + i) := by
        intro i _
        rw [restStart]
        exact held_cons_of_le (by omega)
      have restBelow : ∀ other ∈ rest, other.ssize.offset + other.ssize.length ≤
          slice.ssize.offset + slice.ssize.length + (extra : Int) := by
        intro other member
        have bound := below other (List.mem_cons_of_mem _ member)
        omega
      have tail : block.sliceReadLoop (slice.ssize.offset + slice.ssize.length) rest = _ :=
        ih parts.2.2 (fun other member => filled other (List.mem_cons_of_mem _ member))
          (fun other member => (parts.2.1 other member).2) restBelow
      have holeEmpty : ∀ i < hole, block.held (slice :: rest) (offset + i) = none :=
        fun i inside => held_below laid (by omega)
      -- the last byte of the slice is covered
      have toEnd : coveredEnd (block.held (slice :: rest)) offset (hole + length) =
          hole + length := by
        refine coveredEnd_eq le_rfl (fun i beyond inside => absurd inside (not_lt.mpr beyond)) ?_
        intro last ends
        have covers : Over slice (offset + last) := by
          simp only [Over, OBSliceEntry.start_eq, OBSliceEntry.stop_eq, OBSliceEntry.sliceEnd]
          omega
        rw [held_of_over laid List.mem_cons_self covers]
        rfl
      have ends : coveredEnd (block.held (slice :: rest)) offset n = hole + length +
          coveredEnd (block.held rest) (slice.ssize.offset + slice.ssize.length) extra := by
        rw [whole, coveredEnd_add, coveredEnd_congr same, toEnd]
        split
        · rename_i zero
          rw [zero, Nat.add_zero]
        · rfl
      have later : filledValues (block.held (slice :: rest)) 0 (offset + (hole + length : Nat))
          (coveredEnd (block.held rest) (slice.ssize.offset + slice.ssize.length) extra) =
          filledValues (block.held rest) 0 (slice.ssize.offset + slice.ssize.length)
            (coveredEnd (block.held rest) (slice.ssize.offset + slice.ssize.length) extra) :=
        filledValues_congr fun i inside => same i (inside.trans_le (coveredEnd_le extra))
      rw [sliceReadLoop, tail, ends, filledValues_add, filledValues_add,
        filledValues_of_none holeEmpty, sliceStart, sliceBytes_eq laid List.mem_cons_self, later]
      rw [holeEq, lengthEq, Int.toNat_natCast, Int.toNat_natCast]

/-- A slice that a get returns is not empty and lies in the range. -/
theorem bounds_of_mem_getSlices (block : StoredBlock) (sl : UniqSkiplist OBSliceEntry.key)
    {range : FSSliceSize} (positive : 0 < range.length)
    (member : slice ∈ (getSlices sl block.chain range).2) :
    0 < slice.ssize.length ∧ range.offset ≤ slice.ssize.offset ∧
      slice.ssize.offset + slice.ssize.length ≤ range.offset + range.length := by
  rw [getSlices_snd sl block.laid positive.le] at member
  obtain ⟨source, sourceMember, rfl⟩ := List.mem_map.mp member
  obtain ⟨stored, touched⟩ := List.mem_filter.mp sourceMember
  have order : range.offset < range.offset + range.length := by omega
  refine ⟨clipSlice_positive order (block.filled source stored) (by simpa using touched), ?_, ?_⟩
  · rw [clipSlice_offset]
    exact le_max_left _ _
  · have stop := clipSlice_sliceEnd range.offset (range.offset + range.length) source
    rw [OBSliceEntry.sliceEnd] at stop
    rw [stop]
    exact min_le_left _ _

/-- A read answers with the range up to its last covered byte, and fails where there is
none. -/
theorem fs_slice_read_eq (sl : UniqSkiplist OBSliceEntry.key) {offset : Int} {n : Nat}
    (positive : 0 < n) :
    block.fs_slice_read sl ⟨offset, n⟩ =
      if coveredEnd block.content offset n = 0 then .error .enoent
      else .ok (filledValues block.content 0 offset (coveredEnd block.content offset n)) := by
  have positive : 0 < (⟨offset, n⟩ : FSSliceSize).length := Int.natCast_pos.mpr positive
  have same : ∀ i < n, block.held (getSlices sl block.chain ⟨offset, n⟩).2 (offset + i) =
      block.content (offset + i) := by
    intro i inside
    have inRange : offset ≤ offset + (i : Int) ∧ offset + (i : Int) < offset + (n : Int) := by omega
    rw [held, valueAt_getSlices sl block.laid block.filled positive, if_pos inRange, content]
  have failed : (getSlices sl block.chain ⟨offset, n⟩).1 = .enoent ↔
      coveredEnd block.content offset n = 0 := by
    rw [getSlices_enoent_iff sl block.laid block.filled positive, coveredEnd_eq_zero_iff]
    constructor
    · intro empty i inside
      have high : offset + (i : Int) < offset + n := by omega
      rw [content, empty (offset + i) (Int.le_add_of_nonneg_right (Int.natCast_nonneg i)) high,
        Option.map_none]
    · intro empty b low high
      obtain ⟨i, rfl⟩ := Int.exists_add_of_le low
      have uncovered := empty i (by dsimp only at high; omega)
      exact Option.map_eq_none_iff.mp uncovered
  rw [fs_slice_read]
  dsimp only
  by_cases empty : (getSlices sl block.chain ⟨offset, n⟩).2 = []
  · have code : (getSlices sl block.chain ⟨offset, n⟩).1 = .enoent := by
      rw [getSlices_fst, if_pos empty]
    rw [code, if_neg nofun, if_pos (failed.mp code)]
  · have code : (getSlices sl block.chain ⟨offset, n⟩).1 = .ok := by
      rw [getSlices_fst, if_neg empty]
    have covered : ¬coveredEnd block.content offset n = 0 := by
      intro zero
      rw [failed.mpr zero] at code
      cases code
    rw [if_pos code, if_neg covered,
      sliceReadLoop_eq (laid_getSlices sl block.laid block.filled positive)
        (fun _ member => (block.bounds_of_mem_getSlices sl positive member).1)
        (fun _ member => (block.bounds_of_mem_getSlices sl positive member).2.1)
        (fun _ member => (block.bounds_of_mem_getSlices sl positive member).2.2),
      coveredEnd_congr same,
      filledValues_congr fun i inside => same i (inside.trans_le (coveredEnd_le n))]

/-- The same for a range that the server accepts. -/
theorem service_deal_slice_read_eq (sl : UniqSkiplist OBSliceEntry.key) {offset : Int} {n : Nat}
    (positive : 0 < n) (nonneg : 0 ≤ offset) (inBlock : offset + n ≤ fsFileBlockSize) :
    block.service_deal_slice_read sl ⟨offset, n⟩ =
      if coveredEnd block.content offset n = 0 then .error .enoent
      else .ok (filledValues block.content 0 offset (coveredEnd block.content offset n)) := by
  have offsetValid : ¬(offset < 0 ∨ fsFileBlockSize ≤ offset) := by omega
  have lengthValid : ¬((n : Int) ≤ 0 ∨ fsFileBlockSize < offset + (n : Int)) := by omega
  rw [service_deal_slice_read, if_neg offsetValid, if_neg lengthValid, fs_slice_read_eq sl positive]

end StoredBlock

end FastStore.Storage
