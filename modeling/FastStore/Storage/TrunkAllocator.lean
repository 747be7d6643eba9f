import FastStore.Storage.Types

/-!
# Trunk usage bookkeeping

Every slice that enters or leaves the index is counted in the trunk that holds
its space.  A delete also queues the trunk for the reclaimer, unless an event of
the trunk is queued already.
-/

namespace FastStore.Storage

open FastStore.Util

namespace FSStorageAllocatorManager

variable (sa : FSStorageAllocatorManager)

/-- Change one trunk in place. -/
def setTrunk (key : TrunkKey) (trunk : FSTrunkFileInfo) : FSStorageAllocatorManager :=
  { sa with trunks := Function.update sa.trunks key (some trunk) }

/-- Change the allocator of one store path in place. -/
def setAllocator (store : Nat) (allocator : FSTrunkAllocator) : FSStorageAllocatorManager :=
  { sa with allocators := Function.update sa.allocators store allocator }

@[simp] theorem setTrunk_trunks (key : TrunkKey) (trunk : FSTrunkFileInfo) :
    (sa.setTrunk key trunk).trunks = Function.update sa.trunks key (some trunk) := rfl

@[simp] theorem setTrunk_allocators (key : TrunkKey) (trunk : FSTrunkFileInfo) :
    (sa.setTrunk key trunk).allocators = sa.allocators := rfl

@[simp] theorem setTrunk_reclaimFreelist (key : TrunkKey) (trunk : FSTrunkFileInfo) :
    (sa.setTrunk key trunk).reclaimFreelist = sa.reclaimFreelist := rfl

@[simp] theorem setAllocator_trunks (store : Nat) (allocator : FSTrunkAllocator) :
    (sa.setAllocator store allocator).trunks = sa.trunks := rfl

@[simp] theorem setAllocator_allocators (store : Nat) (allocator : FSTrunkAllocator) :
    (sa.setAllocator store allocator).allocators =
      Function.update sa.allocators store allocator := rfl

@[simp] theorem setAllocator_reclaimFreelist (store : Nat) (allocator : FSTrunkAllocator) :
    (sa.setAllocator store allocator).reclaimFreelist = sa.reclaimFreelist := rfl

end FSStorageAllocatorManager

/-- `trunk_allocator_add_slice`. -/
def trunkAllocatorAddSlice (slice : OBSliceEntry) (sa : FSStorageAllocatorManager) :
    Errno × FSStorageAllocatorManager :=
  match sa.trunks slice.space.trunk with
  | none => (.enoent, sa)
  | some trunk =>
      (.ok, sa.setTrunk slice.space.trunk
        { trunk with
          usedBytes := trunk.usedBytes + slice.space.size
          usedCount := trunk.usedCount + 1
          usedSlices := trunk.usedSlices ++ [slice] })

/-- `push_trunk_util_change_event`. -/
def pushTrunkUtilChangeEvent (key : TrunkKey) (event : FSTrunkUtilEvent)
    (sa : FSStorageAllocatorManager) : FSStorageAllocatorManager :=
  match sa.trunks key with
  | none => sa
  | some trunk =>
      if trunk.utilEvent = .none then
        let allocator := sa.allocators key.store
        (sa.setTrunk key { trunk with utilEvent := event }).setAllocator key.store
          { allocator with reclaimQueue := allocator.reclaimQueue ++ [key] }
      else sa

/-- `trunk_allocator_delete_slice`. -/
def trunkAllocatorDeleteSlice (slice : OBSliceEntry) (sa : FSStorageAllocatorManager) :
    Errno × FSStorageAllocatorManager :=
  match sa.trunks slice.space.trunk with
  | none => (.enoent, sa)
  | some trunk =>
      (.ok, pushTrunkUtilChangeEvent slice.space.trunk .update
        (sa.setTrunk slice.space.trunk
          { trunk with
            usedBytes := trunk.usedBytes - slice.space.size
            usedCount := trunk.usedCount - 1
            usedSlices := trunk.usedSlices.erase slice }))

/-- Add to the used space of a store path. -/
def addStatUsed (store : Nat) (bytes : Int) (sa : FSStorageAllocatorManager) :
    FSStorageAllocatorManager :=
  sa.setAllocator store
    { sa.allocators store with statUsed := (sa.allocators store).statUsed + bytes }

/-- `storage_allocator_add_slice`. -/
def storageAllocatorAddSlice (slice : OBSliceEntry) (modifyUsedSpace : Bool)
    (sa : FSStorageAllocatorManager) : Errno × FSStorageAllocatorManager :=
  trunkAllocatorAddSlice slice
    (if modifyUsedSpace then addStatUsed slice.space.store slice.space.size sa else sa)

/-- `storage_allocator_delete_slice`. -/
def storageAllocatorDeleteSlice (slice : OBSliceEntry) (modifyUsedSpace : Bool)
    (sa : FSStorageAllocatorManager) : Errno × FSStorageAllocatorManager :=
  trunkAllocatorDeleteSlice slice
    (if modifyUsedSpace then addStatUsed slice.space.store (-slice.space.size) sa else sa)

end FastStore.Storage
