import FastStore.Storage.TrunkAllocator

/-!
# Trunk freelists

Space is handed out from the trunk at the head of a freelist, from its `free_start` on.  A
trunk without enough room leaves the freelist, and an event tells the trunk maker to order
it in by its used bytes.  The freelist lock is held over each function here; only a caller
that waits for a trunk lets go of it, between the two halves of an allocation.
-/

namespace FastStore.Storage

open FastStore.Util

/-- `FS_TRUNK_FILE_MIN_SIZE`. -/
def fsTrunkFileMinSize : Int := 64 * 1024 * 1024

/-- `FS_TRUNK_FILE_MAX_SIZE`. -/
def fsTrunkFileMaxSize : Int := 4 * 1024 * 1024 * 1024

/-- The part of the storage configuration that allocating uses. -/
structure FSStorageConfig where
  trunkFileSize : Int
  discardRemainSpaceSize : Int
  min_le : fsTrunkFileMinSize ≤ trunkFileSize
  le_max : trunkFileSize ≤ fsTrunkFileMaxSize

/-- `load_global_items`: a trunk file size out of the bounds is set to the bound. -/
def loadStorageConfig (trunkFileSize discardRemainSpaceSize : Int) : FSStorageConfig where
  trunkFileSize := max fsTrunkFileMinSize (min trunkFileSize fsTrunkFileMaxSize)
  discardRemainSpaceSize := max 256 (min discardRemainSpaceSize (256 * 1024))
  min_le := le_max_left _ _
  le_max := max_le (by decide) (min_le_right _ _)

/-- `MEM_ALIGN_CEIL`. -/
def memAlignCeil (size align : Int) : Int := (size + (align - 1)) / align * align

/-- The freelist of a store path, or the one that is kept for reclaiming. -/
inductive FSTrunkFreelistType where
  | normal (store : Nat)
  | reclaim
  deriving DecidableEq, Repr

namespace FSStorageAllocatorManager

variable (sa : FSStorageAllocatorManager)

def freelist : FSTrunkFreelistType → FSTrunkFreelist
  | .normal store => (sa.allocators store).freelist
  | .reclaim => sa.reclaimFreelist

def setFreelist (freelist : FSTrunkFreelist) : FSTrunkFreelistType → FSStorageAllocatorManager
  | .normal store => sa.setAllocator store { sa.allocators store with freelist := freelist }
  | .reclaim => { sa with reclaimFreelist := freelist }

/-- The trunk at the head of a freelist. -/
def headTrunk (type : FSTrunkFreelistType) : Option (TrunkKey × FSTrunkFileInfo) :=
  match (sa.freelist type).trunks with
  | [] => none
  | key :: _ => (sa.trunks key).map fun trunk => (key, trunk)

/-- Push a trunk to the event queue of its path. -/
def pushReclaimQueue (key : TrunkKey) : FSStorageAllocatorManager :=
  sa.setAllocator key.store
    { sa.allocators key.store with
      reclaimQueue := (sa.allocators key.store).reclaimQueue ++ [key] }

/-- Add to the available space of a store path. -/
def addStatAvail (store : Nat) (bytes : Int) : FSStorageAllocatorManager :=
  sa.setAllocator store
    { sa.allocators store with statAvail := (sa.allocators store).statAvail + bytes }

end FSStorageAllocatorManager

/-! ## Allocating -/

/-- `TRUNK_ALLOC_SPACE`. -/
def trunkAllocSpace (key : TrunkKey) (trunk : FSTrunkFileInfo) (allocSize : Int)
    (sa : FSStorageAllocatorManager) : FSTrunkSpaceInfo × FSStorageAllocatorManager :=
  (⟨key.store, trunk.idInfo, trunk.freeStart, allocSize⟩,
    (sa.setTrunk key { trunk with freeStart := trunk.freeStart + allocSize }).setAllocator key.store
      { sa.allocators key.store with
        currentVersion := (sa.allocators key.store).currentVersion + 1
        statAvail := (sa.allocators key.store).statAvail - allocSize })

/-- `trunk_freelist_remove`: the head leaves the freelist, and the event of the trunk becomes
`CREATE`, whatever it was.  The status is `REPUSH` only while the event is set. -/
def trunkFreelistRemove (type : FSTrunkFreelistType) (sa : FSStorageAllocatorManager) :
    FSStorageAllocatorManager :=
  match (sa.freelist type).trunks with
  | [] => sa
  | key :: rest =>
      let popped := sa.setFreelist
        { sa.freelist type with
          trunks := rest
          count := (sa.freelist type).count - 1 } type
      match sa.trunks key with
      | none => popped
      | some trunk =>
          let freed := popped.setTrunk key { trunk with status := .none, utilEvent := .create }
          if trunk.utilEvent = .none then freed.pushReclaimQueue key else freed

/-- The first half of `trunk_freelist_alloc_space`: a head with too little room gives what it
has.  Returns what is still to allocate, or nothing on `EAGAIN` and where it aborts. -/
def allocRemain (isNormal : Bool) (type : FSTrunkFreelistType) (alignedSize : Int)
    (sa : FSStorageAllocatorManager) :
    Option (Int × List FSTrunkSpaceInfo × FSStorageAllocatorManager) :=
  match sa.headTrunk type with
  | none => some (alignedSize, [], sa)
  | some (key, trunk) =>
      -- an `int` in the source
      let remainBytes := trunk.availSpace.bmod (2 ^ 32)
      if remainBytes < alignedSize then
        if isNormal = false ∧ (sa.freelist type).count ≤ 1 then none
        else if remainBytes ≤ 0 then none
        else
          some (alignedSize - remainBytes, [(trunkAllocSpace key trunk remainBytes sa).1],
            trunkFreelistRemove type (trunkAllocSpace key trunk remainBytes sa).2)
      else some (alignedSize, [], sa)

/-- The second half: the head gives the rest, and leaves when little is left.  Nothing without
a head and on `EAGAIN`. -/
def allocRest (discardRemainSpaceSize : Int) (type : FSTrunkFreelistType) (alignedSize : Int)
    (sa : FSStorageAllocatorManager) : Option (FSTrunkSpaceInfo × FSStorageAllocatorManager) :=
  match sa.headTrunk type with
  | none => none
  | some (key, trunk) =>
      if trunk.availSpace < alignedSize then none
      else
        let taken := trunkAllocSpace key trunk alignedSize sa
        if trunk.availSpace - alignedSize < discardRemainSpaceSize then
          some (taken.1, (trunkFreelistRemove type taken.2).addStatAvail key.store
            (-(trunk.availSpace - alignedSize)))
        else some taken

/-- `trunk_freelist_alloc_space` for the reclaimer, which does not wait for a trunk. -/
def reclaimAllocSpace (discardRemainSpaceSize : Int) (type : FSTrunkFreelistType) (size : Int)
    (sa : FSStorageAllocatorManager) :
    Option (List FSTrunkSpaceInfo) × FSStorageAllocatorManager :=
  match allocRemain false type (memAlignCeil size fsSpaceAlignSize) sa with
  | none => (none, sa)
  | some (alignedSize, spaces, first) =>
      match allocRest discardRemainSpaceSize type alignedSize first with
      | none => (none, first)
      | some (space, second) => (some (spaces ++ [space]), second)

/-! ## Trunks come and go -/

/-- `trunk_allocator_add`. -/
def trunkAllocatorAdd (store : Nat) (idInfo : FSTrunkIdInfo) (size : Int)
    (sa : FSStorageAllocatorManager) : Errno × FSStorageAllocatorManager :=
  match sa.trunks ⟨store, idInfo.id⟩ with
  | some _ => (.eexist, sa)
  | none => (.ok, sa.setTrunk ⟨store, idInfo.id⟩ ⟨idInfo, .none, 0, 0, [], size, 0, .none, 0⟩)

/-- `trunk_freelist_add`. -/
def trunkFreelistAdd (type : FSTrunkFreelistType) (key : TrunkKey)
    (sa : FSStorageAllocatorManager) : FSStorageAllocatorManager :=
  match sa.trunks key with
  | none => sa
  | some trunk =>
      ((sa.setFreelist
          { sa.freelist type with
            trunks := (sa.freelist type).trunks ++ [key]
            count := (sa.freelist type).count + 1 } type).setTrunk key
        { trunk with status := .allocing }).addStatAvail key.store trunk.availSpace

/-- The freelist that `trunk_allocator_add_to_freelist` chooses. -/
def freelistToAdd (store : Nat) (sa : FSStorageAllocatorManager) : FSTrunkFreelistType :=
  if sa.reclaimFreelist.count < sa.reclaimFreelist.waterMarkTrunks then .reclaim
  else .normal store

/-- `trunk_allocator_add_to_freelist`. -/
def trunkAllocatorAddToFreelist (key : TrunkKey) (sa : FSStorageAllocatorManager) :
    FSStorageAllocatorManager :=
  trunkFreelistAdd (freelistToAdd key.store sa) key sa

/-- `prealloc_trunk_finish`. -/
def preallocTrunkFinish (config : FSStorageConfig) (store : Nat) (idInfo : FSTrunkIdInfo)
    (sa : FSStorageAllocatorManager) : Errno × FSStorageAllocatorManager :=
  match trunkAllocatorAdd store idInfo config.trunkFileSize sa with
  | (.ok, added) => (.ok, trunkAllocatorAddToFreelist ⟨store, idInfo.id⟩ added)
  | (result, same) => (result, same)

/-- The body of the loop in `trunk_allocator_deal_on_ready`.  `ratios` is what
`can_add_to_freelist` makes of the ratios for a trunk that is in use and has room. -/
def trunkAllocatorDealOnReady (key : TrunkKey) (ratios : Bool) (sa : FSStorageAllocatorManager) :
    FSStorageAllocatorManager :=
  match sa.trunks key with
  | none => sa
  | some trunk =>
      if trunk.freeStart = 0 then trunkAllocatorAddToFreelist key sa
      else if trunk.usedBytes = 0 then
        trunkAllocatorAddToFreelist key (sa.setTrunk key { trunk with freeStart := 0 })
      else if fsFileBlockSize ≤ trunk.availSpace ∧ ratios = true then
        trunkFreelistAdd (.normal key.store) key sa
      else pushTrunkUtilChangeEvent key .create sa

/-! ## The trunks by size -/

/-- `fs_compare_trunk_by_size_id`, less than. -/
def sizeIdLt (usedBytes1 id1 usedBytes2 id2 : Int) : Bool :=
  usedBytes1 < usedBytes2 ∨ usedBytes1 = usedBytes2 ∧ id1 < id2

/-- The used bytes by which a trunk is ordered. -/
def FSStorageAllocatorManager.lastUsedBytes (sa : FSStorageAllocatorManager) (key : TrunkKey) :
    Int :=
  match sa.trunks key with
  | some trunk => trunk.utilLastUsedBytes
  | none => 0

/-- `uniq_skiplist_insert` into `by_size`, for a trunk with the given used bytes. -/
def insertBySize (sa : FSStorageAllocatorManager) (usedBytes : Int) (key : TrunkKey) :
    List TrunkKey → List TrunkKey
  | [] => [key]
  | other :: rest =>
      if sizeIdLt (sa.lastUsedBytes other) other.id usedBytes key.id then
        other :: insertBySize sa usedBytes key rest
      else if sizeIdLt usedBytes key.id (sa.lastUsedBytes other) other.id then key :: other :: rest
      else other :: rest

/-- The trunk in front of another one in `by_size`; none for the first, and for a trunk that is
not there. -/
def previousBySize (key : TrunkKey) : List TrunkKey → Option TrunkKey
  | first :: second :: rest =>
      if second = key then some first else previousBySize key (second :: rest)
  | _ => none

/-- `uniq_skiplist_delete` from `by_size`. -/
def deleteBySize (key : TrunkKey) (bySize : List TrunkKey) : List TrunkKey :=
  bySize.filter fun other => other ≠ key

namespace FSStorageAllocatorManager

variable (sa : FSStorageAllocatorManager)

def setBySize (store : Nat) (bySize : List TrunkKey) : FSStorageAllocatorManager :=
  sa.setAllocator store { sa.allocators store with bySize := bySize }

/-- The trunk takes its used bytes over and is inserted into what is left of `by_size`. -/
def orderIn (store : Nat) (key : TrunkKey) (trunk : FSTrunkFileInfo) (bySize : List TrunkKey) :
    FSStorageAllocatorManager :=
  let counted := sa.setTrunk key
    { trunk with utilLastUsedBytes := trunk.usedBytes, utilEvent := .none }
  counted.setBySize store (insertBySize counted trunk.usedBytes key bySize)

end FSStorageAllocatorManager

/-- The event of a trunk that is in no freelist.  On `UPDATE` the place changes only when the
trunk has become smaller than the one in front of it. -/
def acceptTrunkUtilEvent (store : Nat) (key : TrunkKey) (trunk : FSTrunkFileInfo)
    (sa : FSStorageAllocatorManager) : FSStorageAllocatorManager :=
  let bySize := (sa.allocators store).bySize
  let done := sa.setTrunk key { trunk with utilEvent := .none }
  match trunk.utilEvent with
  | .create => sa.orderIn store key trunk bySize
  | .update =>
      match previousBySize key bySize with
      | some previous =>
          if sizeIdLt trunk.usedBytes key.id (sa.lastUsedBytes previous) previous.id then
            sa.orderIn store key trunk (deleteBySize key bySize)
          else done
      | none => done
  | .none => done

/-- `deal_trunk_util_change_event`. -/
def dealTrunkUtilChangeEvent (store : Nat) (key : TrunkKey) (sa : FSStorageAllocatorManager) :
    FSStorageAllocatorManager :=
  match sa.trunks key with
  | none => sa
  | some trunk =>
      match trunk.status with
      | .none => acceptTrunkUtilEvent store key trunk sa
      | .repush =>
          sa.setAllocator store
            { sa.allocators store with
              reclaimQueue := (sa.allocators store).reclaimQueue ++ [key] }
      | .allocing | .reclaiming => sa.setTrunk key { trunk with utilEvent := .none }

/-! ## Reclaiming -/

/-- The trunk that `do_reclaim_trunk` takes: the first by size, when it has the room of a block
and the ratio of its used bytes is below the threshold. -/
def reclaimCandidate (store : Nat) (below : Bool) (sa : FSStorageAllocatorManager) :
    Option (TrunkKey × FSTrunkFileInfo) :=
  match (sa.allocators store).bySize with
  | [] => none
  | key :: _ =>
      match sa.trunks key with
      | none => none
      | some trunk =>
          if trunk.size - trunk.usedBytes < fsFileBlockSize then none
          else if below = true then some (key, trunk)
          else none

/-- The end of `do_reclaim_trunk`: the trunk is empty, leaves `by_size` and goes to a freelist. -/
def putBackTrunk (key : TrunkKey) (sa : FSStorageAllocatorManager) : FSStorageAllocatorManager :=
  match sa.trunks key with
  | none => sa
  | some trunk =>
      trunkAllocatorAddToFreelist key
        ((sa.setTrunk key { trunk with freeStart := 0 }).setBySize key.store
          (deleteBySize key (sa.allocators key.store).bySize))

/-- `fs_set_trunk_status`. -/
def fsSetTrunkStatus (key : TrunkKey) (status : FSTrunkStatus) (sa : FSStorageAllocatorManager) :
    FSStorageAllocatorManager :=
  match sa.trunks key with
  | none => sa
  | some trunk => sa.setTrunk key { trunk with status := status }

end FastStore.Storage
