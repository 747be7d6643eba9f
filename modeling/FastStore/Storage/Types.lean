import FastStore.Util.Extent
import FastStore.Util.UniqSkiplist

/-!
# Storage data types

Block keys, slices, trunk spaces, block entries and the block hashtable, with
the trunk bookkeeping that the index updates.  Pointers become keys: a slice
names its block entry by the block key, and a space names its trunk by store
path index and trunk id.  Reference counts and memory pools are left out.
-/

namespace FastStore.Storage

open FastStore.Util

/-- `FS_FILE_BLOCK_SIZE`. -/
def fsFileBlockSize : Int := 4 * 1024 * 1024

/-- `FS_SPACE_ALIGN_SIZE`. -/
def fsSpaceAlignSize : Int := 8

/-- A block of a file: the object and the offset of the block in it.  The hash
code of the source's key is a function of these two, see `fsCalcBlockHashcode`. -/
structure FSBlockKey where
  oid : Int
  offset : Int
  deriving DecidableEq, Repr

namespace FSBlockKey

/-- `fs_calc_block_hashcode`, in 64-bit unsigned arithmetic. -/
def fsCalcBlockHashcode (bkey : FSBlockKey) : Nat :=
  ((bkey.oid + bkey.offset + bkey.offset.tdiv fsFileBlockSize) % 2 ^ 64).toNat

/-- The lexicographic order that `ob_index_compare_block_key` computes. -/
def toLexPair (bkey : FSBlockKey) : Lex (Int × Int) := toLex (bkey.oid, bkey.offset)

theorem toLexPair_injective : Function.Injective toLexPair := by
  intro left right equal
  have pair : (left.oid, left.offset) = (right.oid, right.offset) := equal
  cases left
  cases right
  simp_all

instance : LinearOrder FSBlockKey := LinearOrder.lift' toLexPair toLexPair_injective

end FSBlockKey

/-- `ob_index_compare_block_key`: object ids first, then block offsets. -/
def obIndexCompareBlockKey (bkey1 bkey2 : FSBlockKey) : Ordering :=
  if bkey1.oid < bkey2.oid then .lt
  else if bkey2.oid < bkey1.oid then .gt
  else if bkey1.offset < bkey2.offset then .lt
  else if bkey2.offset < bkey1.offset then .gt
  else .eq

theorem obIndexCompareBlockKey_eq_iff {bkey1 bkey2 : FSBlockKey} :
    obIndexCompareBlockKey bkey1 bkey2 = .eq ↔ bkey1 = bkey2 := by
  cases bkey1
  cases bkey2
  unfold obIndexCompareBlockKey
  simp only [FSBlockKey.mk.injEq]
  split_ifs <;> grind

theorem obIndexCompareBlockKey_lt_iff {bkey1 bkey2 : FSBlockKey} :
    obIndexCompareBlockKey bkey1 bkey2 = .lt ↔ bkey1 < bkey2 := by
  have order : bkey1 < bkey2 ↔ bkey1.oid < bkey2.oid ∨
      bkey1.oid = bkey2.oid ∧ bkey1.offset < bkey2.offset :=
    Prod.Lex.toLex_lt_toLex
  rw [order]
  unfold obIndexCompareBlockKey
  split_ifs <;> grind

/-- A range inside a block. -/
structure FSSliceSize where
  offset : Int
  length : Int
  deriving DecidableEq, Repr

/-- A range of a named block. -/
structure FSBlockSliceKeyInfo where
  block : FSBlockKey
  slice : FSSliceSize
  deriving DecidableEq, Repr

/-- `OBSliceType`: written data, or space that is only reserved. -/
inductive OBSliceType where
  | file
  | alloc
  deriving DecidableEq, Repr

structure FSTrunkIdInfo where
  id : Int
  subdir : Int
  deriving DecidableEq, Repr

/-- A piece of a trunk file; `store` is the index of the store path. -/
structure FSTrunkSpaceInfo where
  store : Nat
  idInfo : FSTrunkIdInfo
  offset : Int
  size : Int
  deriving DecidableEq, Repr

/-- A slice of a block and the trunk space that holds it. -/
structure OBSliceEntry where
  ob : FSBlockKey
  type : OBSliceType
  ssize : FSSliceSize
  space : FSTrunkSpaceInfo
  deriving DecidableEq, Repr

/-- The key of the slice skiplist (`slice_compare`). -/
def OBSliceEntry.key (slice : OBSliceEntry) : Int := slice.ssize.offset

/-- The block entry of the hashtable; `slices` is the level-0 chain of its
skiplist. -/
structure OBEntry where
  bkey : FSBlockKey
  reclaimingCount : Nat
  slices : List OBSliceEntry
  deriving DecidableEq, Repr

/-- The hashtable: each bucket is a chain of entries in key order. -/
structure OBHashtable where
  capacity : Nat
  buckets : Nat → List OBEntry
  modifySallocator : Bool
  modifyUsedSpace : Bool

/-- A trunk file is named by its store path and id. -/
structure TrunkKey where
  store : Nat
  id : Int
  deriving DecidableEq, Repr

/-- The trunk a space lies in. -/
def FSTrunkSpaceInfo.trunk (space : FSTrunkSpaceInfo) : TrunkKey :=
  ⟨space.store, space.idInfo.id⟩

/-- `FS_TRUNK_STATUS_*`. -/
inductive FSTrunkStatus where
  | none
  | repush
  | allocing
  | reclaiming
  deriving DecidableEq, Repr

/-- `FS_TRUNK_UTIL_EVENT_*`. -/
inductive FSTrunkUtilEvent where
  | none
  | create
  | update
  deriving DecidableEq, Repr

/-- `FSTrunkFileInfo`; `usedSlices` is the list behind `used.slice_head`. -/
structure FSTrunkFileInfo where
  idInfo : FSTrunkIdInfo
  status : FSTrunkStatus
  usedCount : Int
  usedBytes : Int
  usedSlices : List OBSliceEntry
  size : Int
  freeStart : Int
  utilEvent : FSTrunkUtilEvent
  utilLastUsedBytes : Int
  deriving DecidableEq, Repr

/-- `FS_TRUNK_AVAIL_SPACE`. -/
def FSTrunkFileInfo.availSpace (trunk : FSTrunkFileInfo) : Int :=
  trunk.size - trunk.freeStart

/-- `FSTrunkFreelist`: the trunks from head to tail, and the counter beside them. -/
structure FSTrunkFreelist where
  trunks : List TrunkKey
  count : Int
  waterMarkTrunks : Int
  deriving DecidableEq, Repr

/-- The allocator of one store path. -/
structure FSTrunkAllocator where
  bySize : List TrunkKey
  freelist : FSTrunkFreelist
  currentVersion : Int
  reclaimQueue : List TrunkKey
  statAvail : Int
  statUsed : Int
  deriving DecidableEq, Repr

/-- `FSStorageAllocatorManager`: the trunks of all store paths (the `by_id`
skiplists), the allocator of each path and the freelist kept for reclaiming. -/
structure FSStorageAllocatorManager where
  trunks : TrunkKey → Option FSTrunkFileInfo
  allocators : Nat → FSTrunkAllocator
  reclaimFreelist : FSTrunkFreelist

/-- `slice_dup`: a copy that starts at `offset`, its trunk space shifted along.
The size of the space is the size of the source's space. -/
def sliceDup (src : OBSliceEntry) (offset length : Int) : OBSliceEntry :=
  if 0 < offset - src.ssize.offset then
    ⟨src.ob, src.type, ⟨offset, length⟩,
      ⟨src.space.store, src.space.idInfo,
        src.space.offset + (offset - src.ssize.offset), src.space.size⟩⟩
  else ⟨src.ob, src.type, ⟨src.ssize.offset, length⟩, src.space⟩

/-- The slice that `dup_slice_to_smart_array` queues: a copy whose space is as
large as the copy, "for calculating trunk used bytes correctly". -/
def OBSliceEntry.fragment (src : OBSliceEntry) (offset length : Int) : OBSliceEntry :=
  ⟨(sliceDup src offset length).ob, (sliceDup src offset length).type,
    (sliceDup src offset length).ssize,
    ⟨(sliceDup src offset length).space.store, (sliceDup src offset length).space.idInfo,
      (sliceDup src offset length).space.offset, length⟩⟩

section SliceDup

variable (src : OBSliceEntry) (offset length : Int)

@[simp] theorem sliceDup_ob : (sliceDup src offset length).ob = src.ob := by
  unfold sliceDup
  split_ifs <;> rfl

@[simp] theorem sliceDup_type : (sliceDup src offset length).type = src.type := by
  unfold sliceDup
  split_ifs <;> rfl

@[simp] theorem sliceDup_store :
    (sliceDup src offset length).space.store = src.space.store := by
  unfold sliceDup
  split_ifs <;> rfl

@[simp] theorem sliceDup_idInfo :
    (sliceDup src offset length).space.idInfo = src.space.idInfo := by
  unfold sliceDup
  split_ifs <;> rfl

@[simp] theorem sliceDup_length : (sliceDup src offset length).ssize.length = length := by
  unfold sliceDup
  split_ifs <;> rfl

theorem sliceDup_offset {offset : Int} (inside : src.ssize.offset ≤ offset) :
    (sliceDup src offset length).ssize.offset = offset := by
  unfold sliceDup
  split_ifs with shifted
  · rfl
  · dsimp only
    omega

/-- The trunk offset of a copy is shifted as far as its block offset. -/
theorem sliceDup_space_offset {offset : Int} (inside : src.ssize.offset ≤ offset) :
    (sliceDup src offset length).space.offset =
      src.space.offset + (offset - src.ssize.offset) := by
  unfold sliceDup
  split_ifs with shifted
  · rfl
  · dsimp only
    omega

end SliceDup

instance : Extent OBSliceEntry where
  start slice := slice.ssize.offset
  len slice := slice.ssize.length
  sub := OBSliceEntry.fragment
  start_sub slice _ length inside := sliceDup_offset slice length inside
  len_sub slice offset length := sliceDup_length slice offset length

/-- The end of a slice inside its block. -/
def OBSliceEntry.sliceEnd (slice : OBSliceEntry) : Int :=
  slice.ssize.offset + slice.ssize.length

@[simp] theorem OBSliceEntry.start_eq (slice : OBSliceEntry) :
    Extent.start slice = slice.ssize.offset := rfl

@[simp] theorem OBSliceEntry.len_eq (slice : OBSliceEntry) :
    Extent.len slice = slice.ssize.length := rfl

@[simp] theorem OBSliceEntry.stop_eq (slice : OBSliceEntry) :
    Extent.stop slice = slice.sliceEnd := rfl

@[simp] theorem OBSliceEntry.sub_eq (slice : OBSliceEntry) (offset length : Int) :
    Extent.sub slice offset length = slice.fragment offset length := rfl

namespace OBSliceEntry

variable (src : OBSliceEntry) (offset length : Int)

@[simp] theorem fragment_ob : (src.fragment offset length).ob = src.ob :=
  sliceDup_ob src offset length

@[simp] theorem fragment_type : (src.fragment offset length).type = src.type :=
  sliceDup_type src offset length

@[simp] theorem fragment_trunk :
    (src.fragment offset length).space.trunk = src.space.trunk := by
  simp [fragment, FSTrunkSpaceInfo.trunk]

@[simp] theorem fragment_size : (src.fragment offset length).space.size = length := rfl

@[simp] theorem fragment_length : (src.fragment offset length).ssize.length = length :=
  sliceDup_length src offset length

theorem fragment_offset {offset : Int} (inside : src.ssize.offset ≤ offset) :
    (src.fragment offset length).ssize.offset = offset :=
  sliceDup_offset src length inside

theorem fragment_space_offset {offset : Int} (inside : src.ssize.offset ≤ offset) :
    (src.fragment offset length).space.offset =
      src.space.offset + (offset - src.ssize.offset) :=
  sliceDup_space_offset src length inside

end OBSliceEntry

end FastStore.Storage
