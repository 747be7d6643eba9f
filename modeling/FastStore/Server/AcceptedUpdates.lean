import FastStore.Binlog.LogLines
import FastStore.Server.DataUpdate
import FastStore.Storage.AddSliceMemory
import FastStore.Storage.SliceAlloc

/-!
# Updates that are logged

From the bytes of a request to the lines that its update leaves in the slice binlog and in the
replica binlog.  The checks of a request and the parsers of the logs have limits of their own;
the slices that are logged are cut from the spaces that the storage allocator gives.
-/

namespace FastStore.Server

open FastStore.Util FastStore.Util.Extent FastStore.Storage FastStore.Binlog

/-! ## Requests -/

/-- The body of a request: the block, and the range for the slice commands. -/
def requestAt (buff : Buffer) (cmd : UpdateCmd) (bodyLen : Int) (dataVersion : Nat) :
    FSProtoReplicaRPCReqBodyPart :=
  ⟨dataVersion, bodyLen, cmd, ⟨buff2int64 buff 0, buff2int64 buff 8⟩, buff2int buff 16,
    buff2int buff 20⟩

namespace FSProtoReplicaRPCReqBodyPart

variable (part : FSProtoReplicaRPCReqBodyPart)

/-- `op_ctx->info.bs_key`. -/
def bsKey : FSBlockSliceKeyInfo := ⟨part.bkey, ⟨part.sliceOffset, part.sliceLength⟩⟩

/-- The checks of the fields let the request pass. -/
def Accepted (groups : DataGroups) : Prop :=
  part.checkBlockKey groups = .ok ∧ part.checkSlice = .ok

instance (groups : DataGroups) : Decidable (part.Accepted groups) :=
  inferInstanceAs (Decidable (_ ∧ _))

/-- The limits of a request in exact arithmetic. -/
structure InBlock : Prop where
  oid : 1 ≤ part.bkey.oid
  offset : 0 ≤ part.bkey.offset
  aligned : part.bkey.offset % fsFileBlockSize = 0
  slice : part.cmd ≠ .blockDelete →
    0 ≤ part.sliceOffset ∧ 1 ≤ part.sliceLength ∧
      part.sliceOffset + part.sliceLength ≤ fsFileBlockSize

/-! ## Lines -/

section Lines

variable (sl : UniqSkiplist OBSliceEntry.key) (htable : OBHashtable)
  (given : FSSliceSize → List FSTrunkSpaceInfo) (head : LineHead)

/-- The ranges that `fs_slice_alloc` is asked for: the range of a write, the holes in the range
of an allocate. -/
def allocRanges : List FSSliceSize :=
  match part.cmd with
  | .sliceWrite => [part.bsKey.slice]
  | .sliceAllocate => getSliceIndexHoles sl part.bsKey htable
  | _ => []

/-- The slices of an update, with the spaces that are given for each range. -/
def addedSlices : List OBSliceEntry :=
  (part.allocRanges sl htable).flatMap fun range =>
    initSlices ⟨part.bkey, range⟩ (if part.cmd = .sliceWrite then .file else .alloc) (given range)

/-- The lines of `fs_log_slice_write`, `fs_log_slice_allocate`, `fs_log_delete_slices` and
`fs_log_delete_block` in the slice binlog. -/
def sliceLines : List (List Char) :=
  match part.cmd with
  | .sliceWrite | .sliceAllocate => (part.addedSlices sl htable given).map (addSliceLine head)
  | .sliceDelete => [sliceLine head .delSlice part.bsKey]
  | .blockDelete => [blockLine head .delBlock part.bkey]
  | .other _ => []

/-- Their line in the replica binlog. -/
def replicaLines : List (List Char) :=
  match part.cmd with
  | .sliceWrite => [sliceLine head .writeSlice part.bsKey]
  | .sliceAllocate => [sliceLine head .allocSlice part.bsKey]
  | .sliceDelete => [sliceLine head .delSlice part.bsKey]
  | .blockDelete => [blockLine head .delBlock part.bkey]
  | .other _ => []

/-- The parsers take every line of the update. -/
structure Reloads (paths : StorePaths) : Prop where
  slices : ∀ line ∈ part.sliceLines sl htable given head,
    (sliceParseLine paths line).isSome ∧ (binlogUnpackCommonFields line).isSome
  replica : ∀ line ∈ part.replicaLines head,
    (replicaBinlogRecordUnpack line).isSome ∧ (binlogUnpackCommonFields line).isSome

end Lines

end FSProtoReplicaRPCReqBodyPart

/-! ## Spaces -/

/-- The spaces hold the range, as the storage allocator gives them. -/
structure Covers (range : FSSliceSize) (spaces : List FSTrunkSpaceInfo) : Prop where
  some : spaces ≠ []
  filled : ∀ space ∈ spaces, 0 < space.size
  enough : range.length ≤ (spaces.map (·.size)).sum

/-- No space is given for nothing: the spaces before the last one do not hold the range yet. -/
def Needed (range : FSSliceSize) (spaces : List FSTrunkSpaceInfo) : Prop :=
  (spaces.dropLast.map (·.size)).sum < range.length

/-- A slice of the block in a range, on one of the spaces. -/
structure CutFrom (bkey : FSBlockKey) (range : FSSliceSize) (spaces : List FSTrunkSpaceInfo)
    (slice : OBSliceEntry) : Prop where
  ob : slice.ob = bkey
  low : range.offset ≤ slice.ssize.offset
  nonneg : 0 ≤ slice.ssize.length
  high : slice.ssize.offset + slice.ssize.length ≤ range.offset + range.length
  space : slice.space ∈ spaces

section Cut

variable {bkey : FSBlockKey} {sliceType : OBSliceType} {spaces : List FSTrunkSpaceInfo}

theorem mem_cutSlices {offset remain : Int} (nonneg : 0 ≤ remain)
    (filled : ∀ space ∈ spaces, 0 < space.size) {slice : OBSliceEntry}
    (member : slice ∈ cutSlices bkey sliceType offset remain spaces) :
    CutFrom bkey ⟨offset, remain⟩ spaces slice := by
  induction spaces generalizing offset remain with
  | nil => cases member
  | cons space rest ih =>
      have first := filled space List.mem_cons_self
      rw [cutSlices] at member
      rcases List.mem_cons.mp member with rfl | later
      · refine ⟨rfl, le_rfl, ?_, ?_, List.mem_cons_self⟩
        · show 0 ≤ if space.size < remain then space.size else remain
          split_ifs <;> omega
        · show offset + (if space.size < remain then space.size else remain) ≤ offset + remain
          split_ifs <;> omega
      · have cut := ih (by split_ifs <;> omega)
          (fun other inside => filled other (List.mem_cons_of_mem _ inside)) later
        have low := cut.low
        have high := cut.high
        dsimp only at low high
        refine ⟨cut.ob, ?_, cut.nonneg, ?_, List.mem_cons_of_mem _ cut.space⟩
        · dsimp only
          split_ifs at low <;> omega
        · dsimp only
          split_ifs at high <;> omega

/-- The slices that are cut are filled exactly when every space is needed. -/
theorem filled_cutSlices_iff (some : spaces ≠ []) {offset remain : Int} (nonneg : 0 ≤ remain)
    (filled : ∀ space ∈ spaces, 0 < space.size) :
    (∀ slice ∈ cutSlices bkey sliceType offset remain spaces, 1 ≤ slice.ssize.length) ↔
      (spaces.dropLast.map (·.size)).sum < remain := by
  induction spaces generalizing offset remain with
  | nil => exact absurd rfl some
  | cons space rest ih =>
      have first := filled space List.mem_cons_self
      rw [cutSlices, List.forall_mem_cons]
      dsimp only
      cases rest with
      | nil =>
          simp only [cutSlices, List.dropLast_singleton, List.map_nil, List.sum_nil]
          constructor
          · rintro ⟨least, -⟩
            split_ifs at least <;> omega
          · intro positive
            exact ⟨by split_ifs <;> omega, nofun⟩
      | cons next rest =>
          have others : ∀ other ∈ next :: rest, 0 < other.size :=
            fun other inside => filled other (List.mem_cons_of_mem _ inside)
          have total : 0 ≤ (((next :: rest).dropLast).map (·.size)).sum := by
            apply List.sum_nonneg
            intro size member
            obtain ⟨other, inside, rfl⟩ := List.mem_map.mp member
            exact (others other (List.mem_of_mem_dropLast inside)).le
          rw [ih (List.cons_ne_nil _ _) (by split_ifs <;> omega) others, List.dropLast_cons_cons,
            List.map_cons, List.sum_cons]
          split_ifs with less <;> omega

variable {range : FSSliceSize}

theorem mem_initSlices (covers : Covers range spaces) (positive : 1 ≤ range.length)
    {slice : OBSliceEntry} (member : slice ∈ initSlices ⟨bkey, range⟩ sliceType spaces) :
    CutFrom bkey range spaces slice := by
  unfold initSlices at member
  split at member
  · rw [List.mem_singleton.mp member]
    exact ⟨rfl, le_rfl, (Int.le_trans (by norm_num) positive), le_rfl, List.mem_singleton_self _⟩
  · exact mem_cutSlices (Int.le_trans (by norm_num) positive) covers.filled member

theorem filled_initSlices_iff (covers : Covers range spaces) (positive : 1 ≤ range.length) :
    (∀ slice ∈ initSlices ⟨bkey, range⟩ sliceType spaces, 1 ≤ slice.ssize.length) ↔
      Needed range spaces := by
  unfold initSlices
  split
  · rename_i space
    simp only [List.forall_mem_singleton, Needed, List.dropLast_singleton, List.map_nil,
      List.sum_nil]
    omega
  · exact filled_cutSlices_iff covers.some (Int.le_trans (by norm_num) positive) covers.filled

end Cut

section Holes

variable (sl : UniqSkiplist OBSliceEntry.key) {lo hi : Int}

theorem mem_holesFrom {offset : Int} {slices : List OBSliceEntry}
    (inside : ∀ slice ∈ slices, lo ≤ slice.ssize.offset ∧ slice.ssize.offset ≤ slice.sliceEnd ∧
      slice.sliceEnd ≤ hi) (start : lo ≤ offset) {hole : FSSliceSize}
    (member : hole ∈ holesFrom hi offset slices) :
    lo ≤ hole.offset ∧ 1 ≤ hole.length ∧ hole.offset + hole.length ≤ hi := by
  induction slices generalizing offset with
  | nil =>
      rw [holesFrom] at member
      split_ifs at member with less
      · rw [List.mem_singleton.mp member]
        dsimp only
        omega
      · cases member
  | cons slice rest ih =>
      have first := inside slice List.mem_cons_self
      rw [holesFrom] at member
      rcases List.mem_append.mp member with here | later
      · split_ifs at here with gap
        · rw [List.mem_singleton.mp here]
          dsimp only
          omega
        · cases here
      · exact ih (fun other further => inside other (List.mem_cons_of_mem _ further))
          (first.1.trans first.2.1) later

/-- The holes of a range lie in the range. -/
theorem mem_getSliceIndexHoles {htable : OBHashtable} (sound : htable.Sound)
    {bsKey : FSBlockSliceKeyInfo} (positive : 1 ≤ bsKey.slice.length) {hole : FSSliceSize}
    (member : hole ∈ getSliceIndexHoles sl bsKey htable) :
    bsKey.slice.offset ≤ hole.offset ∧ 1 ≤ hole.length ∧
      hole.offset + hole.length ≤ bsKey.slice.offset + bsKey.slice.length := by
  have laid := sound.laid bsKey.block
  rw [getSliceIndexHoles, obIndexGetSlicesEx_eq] at member
  split at member
  · rename_i slices got
    refine mem_holesFrom ?_ le_rfl member
    intro slice present
    have read := getSlices_snd sl laid (Int.le_trans (by norm_num) positive)
    rw [got] at read
    dsimp only at read
    rw [read] at present
    obtain ⟨source, touched, rfl⟩ := List.mem_map.mp present
    obtain ⟨inChain, meets⟩ := List.mem_filter.mp touched
    have meets : Touched bsKey.slice.offset (bsKey.slice.offset + bsKey.slice.length) source := by
      simpa using meets
    have nonneg := laid.nonneg source inChain
    simp only [Touched, OBSliceEntry.start_eq, OBSliceEntry.stop_eq, OBSliceEntry.len_eq,
      OBSliceEntry.sliceEnd] at meets nonneg
    rw [clipSlice_offset, clipSlice_sliceEnd, OBSliceEntry.sliceEnd]
    omega
  · rw [List.mem_singleton.mp member]
    exact ⟨le_rfl, positive, le_rfl⟩

end Holes

/-! ## Accepted requests -/

namespace FSProtoReplicaRPCReqBodyPart

variable {part : FSProtoReplicaRPCReqBodyPart} {groups : DataGroups}

theorem aligned_of_accepted (accepted : part.Accepted groups) :
    part.bodyLengthFits = true ∧ part.bkey.offset % fsFileBlockSize = 0 := by
  have block := accepted.1
  unfold checkBlockKey at block
  split_ifs at block with length aligned
  exact ⟨Bool.not_eq_false _ ▸ length, not_not.mp aligned⟩

theorem slice_of_accepted (accepted : part.Accepted groups) (isSlice : part.cmd ≠ .blockDelete) :
    0 ≤ part.sliceOffset ∧ part.sliceOffset < fsFileBlockSize ∧ 1 ≤ part.sliceLength ∧
      (part.sliceOffset + part.sliceLength).bmod (2 ^ 32) ≤ fsFileBlockSize := by
  have slice := accepted.2
  unfold checkSlice at slice
  rw [if_neg isSlice] at slice
  split_ifs at slice
  omega

/-- The request is in its block exactly when its numbers are not negative and the sum of its
range does not wrap. -/
theorem inBlock_iff_of_accepted (accepted : part.Accepted groups) :
    part.InBlock ↔ 1 ≤ part.bkey.oid ∧ 0 ≤ part.bkey.offset ∧
      (part.cmd ≠ .blockDelete → part.sliceOffset + part.sliceLength < 2 ^ 31) := by
  constructor
  · intro inBlock
    refine ⟨inBlock.oid, inBlock.offset, fun isSlice => ?_⟩
    exact lt_of_le_of_lt (inBlock.slice isSlice).2.2 (by norm_num [fsFileBlockSize])
  · rintro ⟨oid, offset, exact_⟩
    refine ⟨oid, offset, (aligned_of_accepted accepted).2, fun isSlice => ?_⟩
    obtain ⟨low, -, positive, most⟩ := slice_of_accepted accepted isSlice
    have small := exact_ isSlice
    have same : (part.sliceOffset + part.sliceLength).bmod (2 ^ 32) =
        part.sliceOffset + part.sliceLength :=
      toInt_of_lt (by omega) (by omega)
    rw [same] at most
    exact ⟨low, positive, most⟩

variable {sl : UniqSkiplist OBSliceEntry.key} {htable : OBHashtable}
  {given : FSSliceSize → List FSTrunkSpaceInfo} {head : LineHead} {paths : StorePaths}

/-- The ranges that are allocated lie in the range of the request. -/
theorem mem_allocRanges (sound : htable.Sound) (inBlock : part.InBlock) {range : FSSliceSize}
    (member : range ∈ part.allocRanges sl htable) :
    0 ≤ range.offset ∧ 1 ≤ range.length ∧ range.offset + range.length ≤ fsFileBlockSize := by
  have slice := inBlock.slice
  unfold allocRanges at member
  cases command : part.cmd with
  | sliceWrite =>
      rw [command] at member slice
      rw [List.mem_singleton.mp member]
      exact slice (fun same => nomatch same)
  | sliceAllocate =>
      rw [command] at member slice
      obtain ⟨low, positive, high⟩ := slice (fun same => nomatch same)
      have hole := mem_getSliceIndexHoles sl sound positive member
      exact ⟨low.trans hole.1, hole.2.1, hole.2.2.trans high⟩
  | sliceDelete | blockDelete | other code =>
      rw [command] at member
      cases member

/-- What is known of the slices of an update: they are of its block and in the range. -/
theorem mem_addedSlices (sound : htable.Sound) (inBlock : part.InBlock)
    (covers : ∀ range ∈ part.allocRanges sl htable, Covers range (given range))
    (held : ∀ range ∈ part.allocRanges sl htable, ∀ space ∈ given range, paths.Holds space)
    {slice : OBSliceEntry} (member : slice ∈ part.addedSlices sl htable given) :
    slice.ob = part.bkey ∧ 0 ≤ slice.ssize.offset ∧ SliceFits slice.ssize ∧
      paths.Holds slice.space := by
  obtain ⟨range, isRange, cut⟩ := List.mem_flatMap.mp member
  obtain ⟨low, positive, high⟩ := mem_allocRanges sound inBlock isRange
  have cutFrom := mem_initSlices (covers range isRange) positive cut
  have least := cutFrom.low
  have nonneg := cutFrom.nonneg
  have most := cutFrom.high
  rw [fsFileBlockSize] at high
  refine ⟨cutFrom.ob, low.trans least, ⟨⟨?_, ?_⟩, ⟨?_, ?_⟩⟩, held range isRange _ cutFrom.space⟩
  all_goals omega

theorem filled_addedSlices_iff (sound : htable.Sound) (inBlock : part.InBlock)
    (covers : ∀ range ∈ part.allocRanges sl htable, Covers range (given range)) :
    (∀ slice ∈ part.addedSlices sl htable given, 1 ≤ slice.ssize.length) ↔
      ∀ range ∈ part.allocRanges sl htable, Needed range (given range) := by
  simp only [addedSlices, List.forall_mem_flatMap]
  refine forall₂_congr fun range isRange => ?_
  exact filled_initSlices_iff (covers range isRange) (mem_allocRanges sound inBlock isRange).2.1

/-- The parsers take the lines of the added slices exactly when none of them is empty. -/
theorem addSliceLines_iff (fits : head.Fits) (block : BlockFits part.bkey) (sound : htable.Sound)
    (inBlock : part.InBlock)
    (covers : ∀ range ∈ part.allocRanges sl htable, Covers range (given range))
    (held : ∀ range ∈ part.allocRanges sl htable, ∀ space ∈ given range, paths.Holds space) :
    (∀ line ∈ (part.addedSlices sl htable given).map (addSliceLine head),
        (sliceParseLine paths line).isSome ∧ (binlogUnpackCommonFields line).isSome) ↔
      ∀ range ∈ part.allocRanges sl htable, Needed range (given range) := by
  rw [List.forall_mem_map, ← filled_addedSlices_iff sound inBlock covers]
  refine forall₂_congr fun slice member => ?_
  obtain ⟨ob, low, range, holds⟩ := mem_addedSlices sound inBlock covers held member
  have taken : BlockTaken slice.ob := by
    rw [ob]
    exact ⟨inBlock.oid, inBlock.offset⟩
  have own : BlockFits slice.ob := ob ▸ block
  have common : (binlogUnpackCommonFields (addSliceLine head slice)).isSome :=
    isSome_binlogUnpackCommonFields fits own taken _ (addSliceNumbers slice.ssize slice.space)
  rw [sliceParseLine_addSliceLine own range holds]
  simp only [common, and_true, taken, true_and]
  constructor
  · intro found
    by_contra empty
    rw [if_neg fun filled : SliceTaken slice.ssize => empty filled.2] at found
    cases found
  · intro filled
    rw [if_pos ⟨low, filled⟩]
    rfl

theorem sliceLine_taken (fits : head.Fits) (block : BlockFits part.bkey)
    (range : SliceFits part.bsKey.slice) (inBlock : part.InBlock)
    (isSlice : part.cmd ≠ .blockDelete) {opType : BinlogOpType}
    (kind : opType = .writeSlice ∨ opType = .allocSlice ∨ opType = .delSlice) :
    (replicaBinlogRecordUnpack (sliceLine head opType part.bsKey)).isSome ∧
      (binlogUnpackCommonFields (sliceLine head opType part.bsKey)).isSome := by
  obtain ⟨low, positive, -⟩ := inBlock.slice isSlice
  have taken : BlockTaken part.bsKey.block := ⟨inBlock.oid, inBlock.offset⟩
  constructor
  · rw [replicaBinlogRecordUnpack_sliceLine fits.dataVersion block range kind, if_pos ⟨taken, low, positive⟩]
    rfl
  · exact isSome_binlogUnpackCommonFields fits block taken opType
      [part.sliceOffset, part.sliceLength]

theorem blockLine_taken (fits : head.Fits) (block : BlockFits part.bkey)
    (inBlock : part.InBlock) :
    (replicaBinlogRecordUnpack (blockLine head .delBlock part.bkey)).isSome ∧
      (binlogUnpackCommonFields (blockLine head .delBlock part.bkey)).isSome := by
  have taken : BlockTaken part.bkey := ⟨inBlock.oid, inBlock.offset⟩
  constructor
  · rw [replicaBinlogRecordUnpack_blockLine fits.dataVersion block (Or.inl rfl), if_pos taken]
    rfl
  · exact isSome_binlogUnpackCommonFields fits block taken .delBlock []

theorem replicaLines_taken (fits : head.Fits) (block : BlockFits part.bkey)
    (range : SliceFits part.bsKey.slice) (inBlock : part.InBlock) :
    ∀ line ∈ part.replicaLines head,
      (replicaBinlogRecordUnpack line).isSome ∧ (binlogUnpackCommonFields line).isSome := by
  have slices := @sliceLine_taken part head fits block range inBlock
  unfold replicaLines
  cases command : part.cmd with
  | sliceWrite | sliceAllocate | sliceDelete =>
      rw [command] at slices
      rw [List.forall_mem_singleton]
      exact slices (fun same => nomatch same) (by simp)
  | blockDelete =>
      rw [List.forall_mem_singleton]
      exact blockLine_taken fits block inBlock
  | other code => nofun

theorem sliceLines_taken_iff (fits : head.Fits) (block : BlockFits part.bkey)
    (range : SliceFits part.bsKey.slice) (sound : htable.Sound) (inBlock : part.InBlock)
    (covers : ∀ range ∈ part.allocRanges sl htable, Covers range (given range))
    (held : ∀ range ∈ part.allocRanges sl htable, ∀ space ∈ given range, paths.Holds space) :
    (∀ line ∈ part.sliceLines sl htable given head,
        (sliceParseLine paths line).isSome ∧ (binlogUnpackCommonFields line).isSome) ↔
      ∀ range ∈ part.allocRanges sl htable, Needed range (given range) := by
  have added := addSliceLines_iff fits block sound inBlock covers held
  have taken : BlockTaken part.bkey := ⟨inBlock.oid, inBlock.offset⟩
  cases command : part.cmd with
  | sliceWrite | sliceAllocate => simpa only [sliceLines, command] using added
  | sliceDelete =>
      have slice := inBlock.slice (by rw [command]; exact fun same => nomatch same)
      simp only [sliceLines, allocRanges, command, List.forall_mem_singleton,
        sliceParseLine_sliceLine paths block range]
      refine iff_of_true ⟨?_, ?_⟩ (fun _ member => nomatch member)
      · rw [if_pos ⟨taken, slice.1, slice.2.1⟩]
        rfl
      · exact isSome_binlogUnpackCommonFields fits block taken .delSlice
          [part.sliceOffset, part.sliceLength]
  | blockDelete =>
      simp only [sliceLines, allocRanges, command, List.forall_mem_singleton,
        sliceParseLine_blockLine paths block]
      refine iff_of_true ⟨?_, ?_⟩ (fun _ member => nomatch member)
      · rw [if_pos taken]
        rfl
      · exact isSome_binlogUnpackCommonFields fits block taken .delBlock []
  | other code =>
      simp only [sliceLines, allocRanges, command]
      exact iff_of_true nofun nofun

/-- An accepted request is in its block and every line of its update is taken, exactly when its
numbers are not negative, its sum does not wrap and no space is given for nothing. -/
theorem accepted_updates_reload_iff (buff : Buffer) (cmd : UpdateCmd) (bodyLen : Int)
    (dataVersion : Nat) (fits : head.Fits) (sound : htable.Sound)
    (accepted : (requestAt buff cmd bodyLen dataVersion).Accepted groups)
    (covers : ∀ range ∈ (requestAt buff cmd bodyLen dataVersion).allocRanges sl htable,
      Covers range (given range))
    (held : ∀ range ∈ (requestAt buff cmd bodyLen dataVersion).allocRanges sl htable,
      ∀ space ∈ given range, paths.Holds space) :
    (requestAt buff cmd bodyLen dataVersion).InBlock ∧
        (requestAt buff cmd bodyLen dataVersion).Reloads sl htable given head paths ↔
      (1 ≤ buff2int64 buff 0 ∧ 0 ≤ buff2int64 buff 8 ∧
        (cmd ≠ .blockDelete → buff2int buff 16 + buff2int buff 20 < 2 ^ 31)) ∧
        ∀ range ∈ (requestAt buff cmd bodyLen dataVersion).allocRanges sl htable,
          Needed range (given range) := by
  have long (pos : Int) : IsLong (buff2int64 buff pos) := buff2int64_spec buff pos
  have block : BlockFits (requestAt buff cmd bodyLen dataVersion).bkey := by
    dsimp only [requestAt, BlockFits]
    exact ⟨long 0, long 8⟩
  have range : SliceFits (requestAt buff cmd bodyLen dataVersion).bsKey.slice := by
    dsimp only [requestAt, bsKey, SliceFits]
    exact ⟨buff2int_spec buff 16, buff2int_spec buff 20⟩
  have inside : (requestAt buff cmd bodyLen dataVersion).InBlock ↔
      1 ≤ buff2int64 buff 0 ∧ 0 ≤ buff2int64 buff 8 ∧
        (cmd ≠ .blockDelete → buff2int buff 16 + buff2int buff 20 < 2 ^ 31) := by
    have limits := inBlock_iff_of_accepted accepted
    simpa only [requestAt] using limits
  constructor
  · rintro ⟨inBlock, reloads⟩
    exact ⟨inside.mp inBlock,
      (sliceLines_taken_iff fits block range sound inBlock covers held).mp reloads.slices⟩
  · rintro ⟨limits, needed⟩
    have inBlock := inside.mpr limits
    exact ⟨inBlock,
      (sliceLines_taken_iff fits block range sound inBlock covers held).mpr needed,
      replicaLines_taken fits block range inBlock⟩

/-- One data group, one store path, an index without blocks, and a space of 8 bytes for every
range. -/
def oneGroup : DataGroups := ⟨1, fun _ => true⟩

def onePath : StorePaths := ⟨0, fun index => index = 0⟩

def firstHead : LineHead := ⟨0, 1, .rpcMaster⟩

def eightBytes : FSTrunkSpaceInfo := ⟨0, ⟨1, 1⟩, 0, 8⟩

theorem fits_firstHead : firstHead.Fits := by
  constructor <;> decide +kernel

theorem holds_eightBytes : onePath.Holds eightBytes := by
  constructor
  · exact ⟨le_rfl, by decide, by decide⟩
  · rfl
  all_goals decide +kernel

/-- A write of one byte to the first block of object 1. -/
def objectOne : Buffer := fun pos => if pos = 7 ∨ pos = 23 then 1 else 0

theorem accepted_updates_reload_one :
    (requestAt objectOne .sliceWrite 25 1).InBlock ∧
      (requestAt objectOne .sliceWrite 25 1).Reloads (UniqSkiplist.level0 OBSliceEntry.key)
        (obIndexInitHtableEx 1) (fun _ => [eightBytes]) firstHead onePath := by
  have bsKey : (requestAt objectOne .sliceWrite 25 1).bsKey = ⟨⟨1, 0⟩, ⟨0, 1⟩⟩ := by
    decide +kernel
  have sum : buff2int objectOne 16 + buff2int objectOne 20 < 2 ^ 31 := by decide +kernel
  apply (accepted_updates_reload_iff objectOne .sliceWrite 25 1 fits_firstHead
    (OBHashtable.Sound.init 1) (show Accepted _ oneGroup by decide +kernel) ?_ ?_).mpr
  · refine ⟨⟨by decide +kernel, by decide +kernel, fun _ => sum⟩, fun range member => ?_⟩
    rw [List.mem_singleton.mp member, bsKey]
    exact Int.zero_lt_one
  · intro range member
    rw [List.mem_singleton.mp member, bsKey]
    refine ⟨List.cons_ne_nil _ _, fun space given => ?_, by decide⟩
    rw [List.mem_singleton.mp given]
    decide
  · intro range _ space given
    rw [List.mem_singleton.mp given]
    exact holds_eightBytes

/-- The same write to object 0. -/
def objectZero : Buffer := fun pos => if pos = 23 then 1 else 0

/-- The write to object 0 is accepted, but the parsers refuse its lines. -/
theorem accepted_update_not_reloaded :
    (requestAt objectZero .sliceWrite 25 1).Accepted oneGroup ∧
      ¬(requestAt objectZero .sliceWrite 25 1).InBlock ∧
      ¬(requestAt objectZero .sliceWrite 25 1).Reloads (UniqSkiplist.level0 OBSliceEntry.key)
        (obIndexInitHtableEx 1) (fun _ => [eightBytes]) firstHead onePath := by
  have zero : (requestAt objectZero .sliceWrite 25 1).bkey = ⟨0, 0⟩ := by decide +kernel
  have range : (requestAt objectZero .sliceWrite 25 1).bsKey = ⟨⟨0, 0⟩, ⟨0, 1⟩⟩ := by
    decide +kernel
  refine ⟨by decide +kernel, fun inBlock => ?_, fun reloads => ?_⟩
  · have oid := inBlock.oid
    rw [zero] at oid
    exact absurd oid (by decide)
  · have line := (reloads.replica _ (List.mem_singleton_self _)).1
    rw [range, replicaBinlogRecordUnpack_sliceLine fits_firstHead.dataVersion
      ⟨by constructor <;> decide +kernel, by constructor <;> decide +kernel⟩
      ⟨by constructor <;> decide +kernel, by constructor <;> decide +kernel⟩ (Or.inl rfl),
      if_neg (by decide)] at line
    cases line

end FSProtoReplicaRPCReqBodyPart

end FastStore.Server
