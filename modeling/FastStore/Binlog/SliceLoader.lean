import FastStore.Binlog.Types
import FastStore.Storage.TrunkUsage

/-!
# Loading the slice binlog

The records that the live calls log, their replay into an index that keeps no
trunk account, and the dump that afterwards files all slices under their trunks.
A replayed record acts on the chain of its block alone, so a log can be replayed
block by block.
-/

namespace FastStore.Binlog

open FastStore.Util FastStore.Util.Extent FastStore.Storage

/-- `SliceBinlogRecord`; `sliceType` and `space` are set for an add only. -/
structure SliceBinlogRecord where
  opType : BinlogOpType
  sliceType : OBSliceType
  bsKey : FSBlockSliceKeyInfo
  space : FSTrunkSpaceInfo
  deriving DecidableEq, Repr

/-- What `slice_parse_line` leaves in the space of a record without one. -/
def unsetSpace : FSTrunkSpaceInfo := ⟨0, ⟨0, 0⟩, 0, 0⟩

/-- `slice_binlog_log_add_slice`, read back: the operation type names the slice
type. -/
def sliceBinlogLogAddSlice (slice : OBSliceEntry) : SliceBinlogRecord :=
  match slice.type with
  | .file => ⟨.writeSlice, .file, ⟨slice.ob, slice.ssize⟩, slice.space⟩
  | .alloc => ⟨.allocSlice, .alloc, ⟨slice.ob, slice.ssize⟩, slice.space⟩

/-- `slice_binlog_log_del_slice`. -/
def sliceBinlogLogDelSlice (bsKey : FSBlockSliceKeyInfo) : SliceBinlogRecord :=
  ⟨.delSlice, .file, bsKey, unsetSpace⟩

/-- `slice_binlog_log_del_block`. -/
def sliceBinlogLogDelBlock (bkey : FSBlockKey) : SliceBinlogRecord :=
  ⟨.delBlock, .file, ⟨bkey, ⟨0, 0⟩⟩, unsetSpace⟩

/-- The slice that a replayed add makes. -/
def SliceBinlogRecord.slice (record : SliceBinlogRecord) : OBSliceEntry :=
  ⟨record.bsKey.block, record.sliceType, record.bsKey.slice, record.space⟩

@[simp] theorem sliceBinlogLogAddSlice_slice (slice : OBSliceEntry) :
    (sliceBinlogLogAddSlice slice).slice = slice := by
  cases slice with
  | mk ob type ssize space => cases type <;> rfl

@[simp] theorem sliceBinlogLogAddSlice_bsKey (slice : OBSliceEntry) :
    (sliceBinlogLogAddSlice slice).bsKey = ⟨slice.ob, slice.ssize⟩ := by
  unfold sliceBinlogLogAddSlice
  cases slice.type <;> rfl

section Replay

variable (sl : UniqSkiplist OBSliceEntry.key)

/-- `slice_loader_deal_record`. -/
def sliceLoaderDealRecord (record : SliceBinlogRecord) (state : IndexState) :
    Errno × IndexState :=
  match record.opType with
  | .writeSlice | .allocSlice =>
      obIndexAddSliceByBinlog sl record.slice
        { state with htable := obIndexAllocSliceEx record.bsKey.block state.htable }
  | .delSlice =>
      ((obIndexDeleteSlicesEx sl false record.bsKey state).1,
        (obIndexDeleteSlicesEx sl false record.bsKey state).2.2)
  | .delBlock =>
      ((obIndexDeleteBlockEx false record.bsKey.block state).1,
        (obIndexDeleteBlockEx false record.bsKey.block state).2.2)
  | .noOp => (.ok, state)

/-- `deal_records`: the first error ends the load. -/
def dealRecords : List SliceBinlogRecord → IndexState → Errno × IndexState
  | [], state => (.ok, state)
  | record :: rest, state =>
      match sliceLoaderDealRecord sl record state with
      | (.ok, next) => dealRecords rest next
      | failed => failed

/-! ## Replay block by block -/

/-- What an add does to the chain of its block; `none` is an error. -/
def insertEffect (chain : List OBSliceEntry) (slice : OBSliceEntry) :
    Option (List OBSliceEntry) :=
  match sl.insert (carve slice.ssize.offset slice.sliceEnd chain) slice with
  | (.ok, next) => some next
  | _ => none

/-- What a record does to the chain of its block. -/
def chainEffect (chain : List OBSliceEntry) (record : SliceBinlogRecord) :
    Option (List OBSliceEntry) :=
  match record.opType with
  | .writeSlice | .allocSlice => insertEffect sl chain record.slice
  | .delSlice =>
      if touchedSlices record.bsKey.slice.offset
          (record.bsKey.slice.offset + record.bsKey.slice.length) chain = [] then none
      else some (carve record.bsKey.slice.offset
        (record.bsKey.slice.offset + record.bsKey.slice.length) chain)
  | .delBlock =>
      if 0 < (chain.map fun slice => slice.ssize.length).sum then some [] else none
  | .noOp => some chain

/-- The records of one block. -/
def recordsOf (bkey : FSBlockKey) (records : List SliceBinlogRecord) : List SliceBinlogRecord :=
  records.filter fun record => record.bsKey.block = bkey

@[simp] theorem recordsOf_append (bkey : FSBlockKey) (left right : List SliceBinlogRecord) :
    recordsOf bkey (left ++ right) = recordsOf bkey left ++ recordsOf bkey right :=
  List.filter_append left right

theorem recordsOf_cons (bkey : FSBlockKey) (record : SliceBinlogRecord)
    (rest : List SliceBinlogRecord) :
    recordsOf bkey (record :: rest) =
      if record.bsKey.block = bkey then record :: recordsOf bkey rest else recordsOf bkey rest := by
  rw [recordsOf, List.filter_cons]
  simp only [decide_eq_true_eq]
  rfl

variable {state : IndexState} {record : SliceBinlogRecord}

section Unaccounted

variable {htable : OBHashtable} (unaccounted : htable.modifySallocator = false)
include unaccounted

theorem foldl_doDeleteSlice_trunks (dels : List OBSliceEntry)
    (state : List OBSliceEntry × FSStorageAllocatorManager) :
    (dels.foldl (doDeleteSlice sl htable) state).2 = state.2 := by
  induction dels generalizing state with
  | nil => rfl
  | cons slice dels ih =>
      rw [List.foldl_cons, ih]
      simp [doDeleteSlice, unaccounted]

theorem doAddSlice_trunks (state : List OBSliceEntry × FSStorageAllocatorManager)
    (slice : OBSliceEntry) : (doAddSlice sl htable state slice).2.2 = state.2 := by
  unfold doAddSlice
  split
  · simp [unaccounted]
  · rfl

theorem foldl_doAddSlice_trunks (adds : List OBSliceEntry)
    (state : List OBSliceEntry × FSStorageAllocatorManager) :
    (adds.foldl (fun state slice => (doAddSlice sl htable state slice).2) state).2 = state.2 := by
  induction adds generalizing state with
  | nil => rfl
  | cons slice adds ih => rw [List.foldl_cons, ih, doAddSlice_trunks sl unaccounted]

theorem addSlice_trunks (chain : List OBSliceEntry) (slice : OBSliceEntry)
    (sa : FSStorageAllocatorManager) : (addSlice sl htable chain slice sa).2.2.2 = sa := by
  unfold addSlice
  split_ifs with empty
  · exact doAddSlice_trunks sl unaccounted (chain, sa) slice
  · simp only [doAddSlice_trunks sl unaccounted, foldl_doAddSlice_trunks sl unaccounted,
      foldl_doDeleteSlice_trunks sl unaccounted]

theorem deleteSlices_trunks (chain : List OBSliceEntry) (range : FSSliceSize)
    (sa : FSStorageAllocatorManager) : (deleteSlices sl htable chain range sa).2.2.2 = sa := by
  unfold deleteSlices
  split_ifs with empty
  · rfl
  · dsimp only
    split_ifs with untouched
    · rfl
    · rw [foldl_doAddSlice_trunks sl unaccounted, foldl_doDeleteSlice_trunks sl unaccounted]

end Unaccounted

/-- An index under load: nothing is counted in the trunks yet. -/
structure Loading (capacity : Nat) (sa : FSStorageAllocatorManager) (state : IndexState) :
    Prop where
  sound : state.htable.Sound
  unaccounted : state.htable.modifySallocator = false
  capacity : state.htable.capacity = capacity
  trunks : state.sallocator = sa

variable {capacity : Nat} {sa : FSStorageAllocatorManager}

theorem Loading.alloc (loading : Loading capacity sa state) (bkey : FSBlockKey) :
    Loading capacity sa { state with htable := obIndexAllocSliceEx bkey state.htable } :=
  ⟨loading.sound.alloc bkey, loading.unaccounted, loading.capacity, loading.trunks⟩

theorem Loading.of_sameShape {after : IndexState} (loading : Loading capacity sa state)
    (sound : after.htable.Sound) (shape : after.htable.SameShape state.htable)
    (trunks : after.sallocator = state.sallocator) : Loading capacity sa after :=
  ⟨sound, shape.modifySallocator.trans loading.unaccounted,
    shape.capacity.trans loading.capacity, trunks.trans loading.trunks⟩

theorem Loading.addSlice (loading : Loading capacity sa state) {slice : OBSliceEntry}
    {ob : OBEntry} (entry : state.htable.getObEntry slice.ob = some ob)
    (nonneg : 0 ≤ slice.ssize.length) :
    Loading capacity sa (obIndexAddSliceEx sl false slice state).2.2 := by
  refine loading.of_sameShape (sound_obIndexAddSliceEx sl false loading.sound entry nonneg)
    (sameShape_obIndexAddSliceEx sl false slice state) ?_
  simp only [obIndexAddSliceEx, entry]
  exact addSlice_trunks sl loading.unaccounted _ _ _

theorem Loading.deleteSlices (loading : Loading capacity sa state) {bsKey : FSBlockSliceKeyInfo}
    (nonneg : 0 ≤ bsKey.slice.length) :
    Loading capacity sa (obIndexDeleteSlicesEx sl false bsKey state).2.2 := by
  refine loading.of_sameShape (sound_obIndexDeleteSlicesEx sl false loading.sound nonneg)
    (sameShape_obIndexDeleteSlicesEx sl false bsKey state) ?_
  unfold obIndexDeleteSlicesEx
  cases state.htable.getObEntry bsKey.block with
  | none => rfl
  | some ob =>
      dsimp only
      split_ifs <;> exact deleteSlices_trunks sl loading.unaccounted _ _ _

theorem Loading.deleteBlock (loading : Loading capacity sa state) (bkey : FSBlockKey) :
    Loading capacity sa (obIndexDeleteBlockEx false bkey state).2.2 := by
  refine loading.of_sameShape (sound_obIndexDeleteBlockEx false loading.sound bkey)
    (sameShape_obIndexDeleteBlockEx false bkey state) ?_
  unfold obIndexDeleteBlockEx
  cases state.htable.getObEntry bkey with
  | none => rfl
  | some ob =>
      have skipped : deleteBlockSlices state.htable ob.slices state.sallocator =
          state.sallocator := by simp [deleteBlockSlices, loading.unaccounted]
      dsimp only
      split_ifs <;> exact skipped

theorem insertEffect_eq_some {chain next : List OBSliceEntry} {slice : OBSliceEntry} :
    insertEffect sl chain slice = some next ↔
      sl.insert (carve slice.ssize.offset slice.sliceEnd chain) slice = (.ok, next) := by
  unfold insertEffect
  split
  · rename_i taken
    simp [taken]
  · rename_i refused
    constructor
    · intro impossible
      cases impossible
    · intro taken
      exact absurd taken (refused next)

/-- A replayed add. -/
theorem obIndexAddSliceByBinlog_spec (loading : Loading capacity sa state) {slice : OBSliceEntry}
    (nonneg : 0 ≤ slice.ssize.length) {chain : List OBSliceEntry}
    (effect : insertEffect sl (state.htable.slicesOf slice.ob) slice = some chain) :
    let added := obIndexAddSliceByBinlog sl slice
      { state with htable := obIndexAllocSliceEx slice.ob state.htable }
    added.1 = .ok ∧ Loading capacity sa added.2 ∧ ∀ bkey, added.2.htable.slicesOf bkey =
      if bkey = slice.ob then chain else state.htable.slicesOf bkey := by
  have entered := (insertEffect_eq_some sl).mp effect
  have ready := loading.alloc slice.ob
  have entry := OBHashtable.getObEntry_alloc_self loading.sound.wf slice.ob
  have slices := OBHashtable.slicesOf_alloc loading.sound.wf slice.ob
  have laid := loading.sound.laid slice.ob
  have entrySlices := OBHashtable.slicesOf_of_getObEntry entry
  rw [slices] at entrySlices
  have result := addSlice_result sl (obIndexAllocSliceEx slice.ob state.htable)
    loading.unaccounted laid nonneg state.sallocator
  have changed := addSlice_chain sl (obIndexAllocSliceEx slice.ob state.htable)
    laid nonneg state.sallocator
  rw [entered] at result changed
  refine ⟨?_, ready.addSlice sl entry nonneg, ?_⟩
  · rw [entrySlices] at result
    simp only [obIndexAddSliceByBinlog, obIndexAddSliceEx, entry]
    exact result
  · intro bkey
    have after := slicesOf_obIndexAddSliceEx sl false ready.sound entry bkey
    simp only [slices, changed] at after
    exact after

/-- Where the chain of the block takes the record, the loader does, and leaves the
other blocks alone. -/
theorem sliceLoaderDealRecord_spec (loading : Loading capacity sa state)
    (nonneg : 0 ≤ record.bsKey.slice.length) {chain : List OBSliceEntry}
    (effect : chainEffect sl (state.htable.slicesOf record.bsKey.block) record = some chain) :
    (sliceLoaderDealRecord sl record state).1 = .ok ∧
      Loading capacity sa (sliceLoaderDealRecord sl record state).2 ∧
      ∀ bkey, (sliceLoaderDealRecord sl record state).2.htable.slicesOf bkey =
        if bkey = record.bsKey.block then chain else state.htable.slicesOf bkey := by
  unfold sliceLoaderDealRecord
  unfold chainEffect at effect
  cases op : record.opType with
  | writeSlice =>
      simp only [op] at effect
      exact obIndexAddSliceByBinlog_spec sl loading nonneg effect
  | allocSlice =>
      simp only [op] at effect
      exact obIndexAddSliceByBinlog_spec sl loading nonneg effect
  | delSlice =>
      simp only [op] at effect
      split_ifs at effect with untouched
      cases effect
      refine ⟨?_, loading.deleteSlices sl nonneg, ?_⟩
      · rw [result_obIndexDeleteSlicesEx sl false loading.sound nonneg, if_neg untouched]
      · exact slicesOf_obIndexDeleteSlicesEx sl false loading.sound nonneg
  | delBlock =>
      simp only [op] at effect
      split_ifs at effect with bytes
      cases effect
      refine ⟨?_, loading.deleteBlock record.bsKey.block, ?_⟩
      · rw [result_obIndexDeleteBlockEx false, if_pos bytes]
      · exact slicesOf_obIndexDeleteBlockEx false loading.sound.wf record.bsKey.block
  | noOp =>
      simp only [op] at effect
      cases effect
      refine ⟨rfl, loading, fun bkey => ?_⟩
      split_ifs with same
      · rw [same]
      · rfl

/-- A log whose records every block takes in turn is loaded without error, and
leaves each block with the slices of its own records. -/
theorem dealRecords_spec (records : List SliceBinlogRecord) (loading : Loading capacity sa state)
    (nonneg : ∀ record ∈ records, 0 ≤ record.bsKey.slice.length)
    {target : FSBlockKey → List OBSliceEntry}
    (effects : ∀ bkey, (recordsOf bkey records).foldlM (chainEffect sl)
      (state.htable.slicesOf bkey) = some (target bkey)) :
    (dealRecords sl records state).1 = .ok ∧ Loading capacity sa (dealRecords sl records state).2 ∧
      ∀ bkey, (dealRecords sl records state).2.htable.slicesOf bkey = target bkey := by
  induction records generalizing state with
  | nil =>
      refine ⟨rfl, loading, fun bkey => ?_⟩
      exact Option.some.inj (effects bkey)
  | cons record rest ih =>
      have own := effects record.bsKey.block
      rw [recordsOf_cons, if_pos rfl, List.foldlM_cons] at own
      obtain ⟨chain, effect, restEffect⟩ := Option.bind_eq_some_iff.mp own
      obtain ⟨done, next, changed⟩ := sliceLoaderDealRecord_spec sl loading
        (nonneg record List.mem_cons_self) effect
      have split : dealRecords sl (record :: rest) state =
          dealRecords sl rest (sliceLoaderDealRecord sl record state).2 := by
        rw [dealRecords]
        split
        · rename_i after dealt
          rw [dealt]
        · rename_i failed refused
          exact (refused _ (Prod.ext done rfl)).elim
      rw [split]
      refine ih next (fun other member => nonneg other (List.mem_cons_of_mem _ member)) ?_
      intro bkey
      rw [changed]
      by_cases same : bkey = record.bsKey.block
      · rw [if_pos same, same]
        exact restEffect
      · have others := effects bkey
        rw [recordsOf_cons, if_neg (Ne.symm same)] at others
        rw [if_neg same]
        exact others

end Replay

/-! ## Filing the slices under their trunks -/

/-- The loop body of `trunk_allocator_batch_add_slices`. -/
def batchAddSlice (trunk : FSTrunkFileInfo) (slice : OBSliceEntry) : FSTrunkFileInfo :=
  { trunk with
    freeStart := if trunk.freeStart < slice.space.offset + slice.space.size then
      slice.space.offset + slice.space.size else trunk.freeStart
    usedBytes := trunk.usedBytes + slice.space.size
    usedCount := trunk.usedCount + 1
    usedSlices := trunk.usedSlices ++ [slice] }

/-- `trunk_allocator_batch_add_slices`: the first slice names the trunk of all. -/
def trunkAllocatorBatchAddSlices (slices : List OBSliceEntry) (sa : FSStorageAllocatorManager) :
    Errno × FSStorageAllocatorManager :=
  match slices with
  | [] => (.ok, sa)
  | first :: rest =>
      match sa.trunks first.space.trunk with
      | none => (.enoent, sa)
      | some trunk =>
          (.ok, sa.setTrunk first.space.trunk ((first :: rest).foldl batchAddSlice trunk))

/-- `compare_slice_by_trunk_id`. -/
def compareSliceByTrunkId (slice1 slice2 : OBSliceEntry) : Ordering :=
  (compare slice1.space.store slice2.space.store).then
    (compare slice1.space.idInfo.id slice2.space.idInfo.id)

/-- The loop of `add_slices_to_trunk` with the run of slices since `first`. -/
def addSlicesLoop (first : OBSliceEntry) (run : List OBSliceEntry) :
    List OBSliceEntry → FSStorageAllocatorManager → Errno × FSStorageAllocatorManager
  | [], sa => trunkAllocatorBatchAddSlices run sa
  | slice :: rest, sa =>
      if compareSliceByTrunkId slice first = .eq then
        addSlicesLoop first (run ++ [slice]) rest sa
      else
        match trunkAllocatorBatchAddSlices run sa with
        | (.ok, next) => addSlicesLoop slice [slice] rest next
        | failed => failed

/-- `add_slices_to_trunk`.  Nothing depends on the order in which `qsort` leaves the
slices of one trunk. -/
def addSlicesToTrunk (slices : List OBSliceEntry) (sa : FSStorageAllocatorManager) :
    Errno × FSStorageAllocatorManager :=
  match slices.insertionSort fun slice1 slice2 => compareSliceByTrunkId slice1 slice2 ≠ .gt with
  | [] => (.ok, sa)
  | first :: rest => addSlicesLoop first [first] rest sa

/-- The walk of `ob_index_dump_slices_to_trunk_ex` over the buckets from `start` up to
`stop`. -/
def slicesInBuckets (htable : OBHashtable) (start stop : Nat) : List OBSliceEntry :=
  (List.range' start (stop - start)).flatMap fun i => (htable.buckets i).flatMap OBEntry.slices

/-- `ob_index_dump_slices_to_trunk_ex`. -/
def obIndexDumpSlicesToTrunkEx (htable : OBHashtable) (start stop : Nat)
    (sa : FSStorageAllocatorManager) : Errno × FSStorageAllocatorManager :=
  addSlicesToTrunk (slicesInBuckets htable start stop) sa

/-- `slice_dump_slices_to_trunk`: each dump thread takes a range of the buckets. -/
def sliceDumpSlicesToTrunk (htable : OBHashtable) :
    List (Nat × Nat) → FSStorageAllocatorManager → Errno × FSStorageAllocatorManager
  | [], sa => (.ok, sa)
  | range :: rest, sa =>
      match obIndexDumpSlicesToTrunkEx htable range.1 range.2 sa with
      | (.ok, next) => sliceDumpSlicesToTrunk htable rest next
      | failed => failed

/-- File one slice under its own trunk. -/
def fileSlice (sa : FSStorageAllocatorManager) (slice : OBSliceEntry) :
    FSStorageAllocatorManager :=
  match sa.trunks slice.space.trunk with
  | none => sa
  | some trunk => sa.setTrunk slice.space.trunk (batchAddSlice trunk slice)

theorem compareSliceByTrunkId_eq_iff {slice1 slice2 : OBSliceEntry} :
    compareSliceByTrunkId slice1 slice2 = .eq ↔ slice1.space.trunk = slice2.space.trunk := by
  simp [compareSliceByTrunkId, FSTrunkSpaceInfo.trunk, Ordering.then_eq_eq]

/-- Filing slices one by one gives each trunk its own slices, in order. -/
theorem foldl_fileSlice_trunks (slices : List OBSliceEntry) (sa : FSStorageAllocatorManager)
    (key : TrunkKey) :
    (slices.foldl fileSlice sa).trunks key = (sa.trunks key).map fun trunk =>
      (slices.filter fun slice => slice.space.trunk = key).foldl batchAddSlice trunk := by
  induction slices generalizing sa with
  | nil => simp
  | cons slice rest ih =>
      rw [List.foldl_cons, ih]
      by_cases place : slice.space.trunk = key
      · rw [List.filter_cons_of_pos (by simpa using place)]
        cases present : sa.trunks key with
        | none => simp [fileSlice, place, present]
        | some trunk => simp [fileSlice, place, present]
      · rw [List.filter_cons_of_neg (by simpa using place)]
        cases present : sa.trunks slice.space.trunk with
        | none => simp [fileSlice, present]
        | some trunk => simp [fileSlice, present, Function.update_of_ne (Ne.symm place)]

theorem isSome_foldl_fileSlice (slices : List OBSliceEntry) (sa : FSStorageAllocatorManager)
    (key : TrunkKey) :
    ((slices.foldl fileSlice sa).trunks key).isSome = (sa.trunks key).isSome := by
  rw [foldl_fileSlice_trunks, Option.isSome_map]

/-- Slices of one trunk change that trunk alone. -/
theorem foldl_fileSlice_alike {slices : List OBSliceEntry} {sa : FSStorageAllocatorManager}
    {key : TrunkKey} {trunk : FSTrunkFileInfo} (found : sa.trunks key = some trunk)
    (alike : ∀ slice ∈ slices, slice.space.trunk = key) (nonempty : slices ≠ []) :
    slices.foldl fileSlice sa = sa.setTrunk key (slices.foldl batchAddSlice trunk) := by
  induction slices generalizing sa trunk with
  | nil => exact absurd rfl nonempty
  | cons slice rest ih =>
      have place := alike slice List.mem_cons_self
      have restAlike : ∀ other ∈ rest, other.space.trunk = key :=
        fun other member => alike other (List.mem_cons_of_mem _ member)
      have filed : fileSlice sa slice = sa.setTrunk key (batchAddSlice trunk slice) := by
        simp [fileSlice, place, found]
      have stored : (sa.setTrunk key (batchAddSlice trunk slice)).trunks key =
          some (batchAddSlice trunk slice) := by simp
      rw [List.foldl_cons, List.foldl_cons, filed]
      cases rest with
      | nil => rfl
      | cons next others =>
          rw [ih stored restAlike (List.cons_ne_nil next others)]
          simp [FSStorageAllocatorManager.setTrunk]

/-- A batch for one trunk files its slices one by one. -/
theorem trunkAllocatorBatchAddSlices_eq {slices : List OBSliceEntry}
    {sa : FSStorageAllocatorManager} {key : TrunkKey} (present : (sa.trunks key).isSome)
    (alike : ∀ slice ∈ slices, slice.space.trunk = key) :
    trunkAllocatorBatchAddSlices slices sa = (.ok, slices.foldl fileSlice sa) := by
  cases slices with
  | nil => rfl
  | cons first rest =>
      obtain ⟨trunk, found⟩ := Option.isSome_iff_exists.mp present
      have place := alike first List.mem_cons_self
      rw [foldl_fileSlice_alike found alike (List.cons_ne_nil first rest)]
      simp only [trunkAllocatorBatchAddSlices, place, found]

theorem addSlicesLoop_eq (rest : List OBSliceEntry) {first : OBSliceEntry}
    {run : List OBSliceEntry} {sa : FSStorageAllocatorManager}
    (alike : ∀ slice ∈ run, slice.space.trunk = first.space.trunk)
    (present : (sa.trunks first.space.trunk).isSome)
    (homed : ∀ slice ∈ rest, (sa.trunks slice.space.trunk).isSome) :
    addSlicesLoop first run rest sa = (.ok, (run ++ rest).foldl fileSlice sa) := by
  induction rest generalizing first run sa with
  | nil =>
      rw [addSlicesLoop, List.append_nil]
      exact trunkAllocatorBatchAddSlices_eq present alike
  | cons slice rest ih =>
      have restHomed : ∀ other ∈ rest, (sa.trunks other.space.trunk).isSome :=
        fun other member => homed other (List.mem_cons_of_mem _ member)
      rw [addSlicesLoop]
      by_cases same : compareSliceByTrunkId slice first = .eq
      · rw [if_pos same]
        have joined : ∀ other ∈ run ++ [slice], other.space.trunk = first.space.trunk := by
          intro other member
          rcases List.mem_append.mp member with inRun | last
          · exact alike other inRun
          · rw [List.mem_singleton.mp last]
            exact compareSliceByTrunkId_eq_iff.mp same
        rw [ih joined present restHomed, List.append_assoc, List.singleton_append]
      · rw [if_neg same, trunkAllocatorBatchAddSlices_eq present alike]
        have still : ∀ key, ((run.foldl fileSlice sa).trunks key).isSome = (sa.trunks key).isSome :=
          isSome_foldl_fileSlice run sa
        simp only
        rw [ih (fun other member => by rw [List.mem_singleton.mp member])
          (by rw [still]; exact homed slice List.mem_cons_self)
          (fun other member => by rw [still]; exact restHomed other member)]
        rw [List.singleton_append, ← List.foldl_append]

/-- Filing a permutation of the slices whose trunks all exist. -/
theorem addSlicesToTrunk_eq {slices : List OBSliceEntry} {sa : FSStorageAllocatorManager}
    (homed : ∀ slice ∈ slices, (sa.trunks slice.space.trunk).isSome) :
    ∃ sorted : List OBSliceEntry, sorted.Perm slices ∧
      addSlicesToTrunk slices sa = (.ok, sorted.foldl fileSlice sa) := by
  refine ⟨slices.insertionSort fun slice1 slice2 => compareSliceByTrunkId slice1 slice2 ≠ .gt,
    List.perm_insertionSort _ slices, ?_⟩
  have members : ∀ slice ∈ slices.insertionSort fun slice1 slice2 =>
      compareSliceByTrunkId slice1 slice2 ≠ .gt, (sa.trunks slice.space.trunk).isSome :=
    fun slice member => homed slice ((List.perm_insertionSort _ slices).mem_iff.mp member)
  unfold addSlicesToTrunk
  cases sorted : slices.insertionSort fun slice1 slice2 =>
      compareSliceByTrunkId slice1 slice2 ≠ .gt with
  | nil => rfl
  | cons first rest =>
      rw [sorted] at members
      exact addSlicesLoop_eq rest (fun other member => by rw [List.mem_singleton.mp member])
        (members first List.mem_cons_self)
        fun other member => members other (List.mem_cons_of_mem _ member)

/-- The dump threads together file the slices of their ranges. -/
theorem sliceDumpSlicesToTrunk_eq {htable : OBHashtable} (ranges : List (Nat × Nat))
    {sa : FSStorageAllocatorManager}
    (homed : ∀ slice ∈ ranges.flatMap fun range => slicesInBuckets htable range.1 range.2,
      (sa.trunks slice.space.trunk).isSome) :
    ∃ filed : List OBSliceEntry,
      filed.Perm (ranges.flatMap fun range => slicesInBuckets htable range.1 range.2) ∧
      sliceDumpSlicesToTrunk htable ranges sa = (.ok, filed.foldl fileSlice sa) := by
  induction ranges generalizing sa with
  | nil => exact ⟨[], List.Perm.refl [], rfl⟩
  | cons range rest ih =>
      rw [List.flatMap_cons] at homed
      obtain ⟨front, frontPerm, dumped⟩ := addSlicesToTrunk_eq fun slice member =>
        homed slice (List.mem_append_left _ member)
      have restHomed : ∀ slice ∈ rest.flatMap fun range => slicesInBuckets htable range.1 range.2,
          ((front.foldl fileSlice sa).trunks slice.space.trunk).isSome := by
        intro slice member
        rw [isSome_foldl_fileSlice]
        exact homed slice (List.mem_append_right _ member)
      obtain ⟨back, backPerm, tail⟩ := ih restHomed
      refine ⟨front ++ back, ?_, ?_⟩
      · rw [List.flatMap_cons]
        exact frontPerm.append backPerm
      · simp only [sliceDumpSlicesToTrunk, obIndexDumpSlicesToTrunkEx, dumped, tail,
          List.foldl_append]

/-- What a batch adds to a trunk. -/
theorem foldl_batchAddSlice_spec (slices : List OBSliceEntry) (trunk : FSTrunkFileInfo) :
    (slices.foldl batchAddSlice trunk).usedBytes =
        trunk.usedBytes + (slices.map fun slice => slice.space.size).sum ∧
      (slices.foldl batchAddSlice trunk).usedCount = trunk.usedCount + slices.length ∧
      trunk.freeStart ≤ (slices.foldl batchAddSlice trunk).freeStart ∧
      ∀ slice ∈ slices, slice.space.offset + slice.space.size ≤
        (slices.foldl batchAddSlice trunk).freeStart := by
  induction slices generalizing trunk with
  | nil => simp
  | cons slice rest ih =>
      obtain ⟨bytes, count, grown, covers⟩ := ih (batchAddSlice trunk slice)
      have reaches : trunk.freeStart ≤ (batchAddSlice trunk slice).freeStart ∧
          slice.space.offset + slice.space.size ≤ (batchAddSlice trunk slice).freeStart := by
        simp only [batchAddSlice]
        split_ifs <;> omega
      refine ⟨?_, ?_, reaches.1.trans grown, ?_⟩
      · rw [List.foldl_cons, bytes]
        simp [batchAddSlice, add_assoc]
      · rw [List.foldl_cons, count]
        simp only [batchAddSlice, List.length_cons]
        push_cast
        omega
      · intro other member
        rcases List.mem_cons.mp member with rfl | inRest
        · exact reaches.2.trans grown
        · exact covers other inRest

/-- The walk over all buckets meets each slice of the index once. -/
theorem nodup_entries_slices {htable : OBHashtable} (sound : htable.Sound)
    (owned : htable.Owned) (capacity : 0 < htable.capacity) :
    (htable.entries.flatMap OBEntry.slices).Nodup := by
  have filed : ∀ ob ∈ htable.entries, ob.slices = htable.slicesOf ob.bkey := fun ob member =>
    (OBHashtable.slicesOf_of_getObEntry
      ((OBHashtable.mem_entries sound.wf capacity).mp member)).symm
  rw [List.Nodup, List.pairwise_flatMap]
  constructor
  · intro ob member
    rw [filed ob member]
    exact (sound.laid ob.bkey).ascending.nodup
  · refine List.Pairwise.imp_of_mem ?_ (OBHashtable.entries_pairwise sound.wf)
    intro left right leftMember rightMember distinct slice inLeft other inRight equal
    rw [filed left leftMember] at inLeft
    rw [filed right rightMember] at inRight
    apply distinct
    rw [← owned _ slice inLeft, equal, owned _ other inRight]

theorem mem_entries_slices {htable : OBHashtable} (sound : htable.Sound)
    (owned : htable.Owned) (capacity : 0 < htable.capacity) {slice : OBSliceEntry} :
    slice ∈ htable.entries.flatMap OBEntry.slices ↔ slice ∈ htable.slices := by
  rw [List.mem_flatMap]
  constructor
  · rintro ⟨ob, member, inSlices⟩
    have filed := OBHashtable.slicesOf_of_getObEntry
      ((OBHashtable.mem_entries sound.wf capacity).mp member)
    rw [← filed] at inSlices
    have own := owned ob.bkey slice inSlices
    rw [← own] at inSlices
    exact inSlices
  · intro member
    have inSlices : slice ∈ htable.slicesOf slice.ob := member
    cases found : htable.getObEntry slice.ob with
    | none =>
        rw [OBHashtable.slicesOf_of_absent found] at inSlices
        cases inSlices
    | some ob =>
        rw [OBHashtable.slicesOf_of_getObEntry found] at inSlices
        have name := OBHashtable.bkey_of_getObEntry sound.wf found
        exact ⟨ob, (OBHashtable.mem_entries sound.wf capacity).mpr (name.symm ▸ found), inSlices⟩

/-- Ranges that share out the buckets dump every slice of the index once. -/
theorem perm_slicesInBuckets (htable : OBHashtable) {ranges : List (Nat × Nat)}
    (shared : (ranges.flatMap fun range => List.range' range.1 (range.2 - range.1)).Perm
      (List.range htable.capacity)) :
    (ranges.flatMap fun range => slicesInBuckets htable range.1 range.2).Perm
      (htable.entries.flatMap OBEntry.slices) := by
  have regroup : (ranges.flatMap fun range => slicesInBuckets htable range.1 range.2) =
      (ranges.flatMap fun range => List.range' range.1 (range.2 - range.1)).flatMap
        fun i => (htable.buckets i).flatMap OBEntry.slices := by
    rw [List.flatMap_assoc]
    rfl
  have walk : htable.entries.flatMap OBEntry.slices =
      (List.range htable.capacity).flatMap fun i => (htable.buckets i).flatMap OBEntry.slices :=
    List.flatMap_assoc
  rw [regroup, walk]
  exact shared.flatMap_right _

end FastStore.Binlog
