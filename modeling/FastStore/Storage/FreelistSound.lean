import FastStore.Storage.TrunkFreelist
import FastStore.Storage.TrunkUsage

/-!
# Where the trunks are

A trunk is in one freelist at most, and then its status says so; the trunks by size are in
none.  Taking space from a trunk, removing it from its freelist and ordering it in by size
keep this, and so does the bookkeeping of the index.
-/

namespace FastStore.Storage

open FastStore.Util

variable {sa : FSStorageAllocatorManager} {key : TrunkKey} {trunk updated : FSTrunkFileInfo}

/-- The trunk is in a freelist. -/
def FSStorageAllocatorManager.Free (sa : FSStorageAllocatorManager) (key : TrunkKey) : Prop :=
  ∃ type, key ∈ (sa.freelist type).trunks

/-- The trunk is ordered in by its used bytes. -/
def FSStorageAllocatorManager.InBySize (sa : FSStorageAllocatorManager) (key : TrunkKey) : Prop :=
  ∃ store, key ∈ (sa.allocators store).bySize

/-- The order of `by_size`: the used bytes when the trunk came in, then the id. -/
def FSStorageAllocatorManager.SizeIdLt (sa : FSStorageAllocatorManager) (key other : TrunkKey) :
    Prop :=
  sizeIdLt (sa.lastUsedBytes key) key.id (sa.lastUsedBytes other) other.id = true

/-- The free space lies inside of the trunk file, whose size is limited. -/
def FSTrunkFileInfo.Fits (trunk : FSTrunkFileInfo) : Prop :=
  0 ≤ trunk.freeStart ∧ trunk.freeStart ≤ trunk.size ∧ trunk.size ≤ fsTrunkFileMaxSize

/-- The trunks by id, the freelists, the trunks by size and the event queues fit together. -/
structure FSStorageAllocatorManager.ListsSound (sa : FSStorageAllocatorManager) : Prop where
  named : ∀ key trunk, sa.trunks key = some trunk → trunk.idInfo.id = key.id
  fits : ∀ key trunk, sa.trunks key = some trunk → trunk.Fits
  count : ∀ type, (sa.freelist type).count = (sa.freelist type).trunks.length
  nodup : ∀ type, (sa.freelist type).trunks.Nodup
  own : ∀ store, ∀ key ∈ (sa.freelist (.normal store)).trunks, key.store = store
  once : ∀ type other key, key ∈ (sa.freelist type).trunks → key ∈ (sa.freelist other).trunks →
    type = other
  allocing : ∀ key, sa.Free key → ∃ trunk, sa.trunks key = some trunk ∧ trunk.status = .allocing
  bySize : ∀ store, ∀ key ∈ (sa.allocators store).bySize,
    key.store = store ∧ ∃ trunk, sa.trunks key = some trunk ∧ trunk.status ≠ .allocing
  ordered : ∀ store, (sa.allocators store).bySize.Pairwise sa.SizeIdLt
  created : ∀ key trunk, sa.trunks key = some trunk → trunk.utilEvent = .create → ¬ sa.InBySize key
  queue : ∀ store, ∀ key ∈ (sa.allocators store).reclaimQueue, key.store = store

namespace FSStorageAllocatorManager

/-- The trunk that is found after one has changed. -/
theorem trunks_setTrunk_cases {other : TrunkKey} {found : FSTrunkFileInfo}
    (stored : (sa.setTrunk key updated).trunks other = some found) :
    other = key ∧ found = updated ∨ other ≠ key ∧ sa.trunks other = some found := by
  rw [setTrunk_trunks] at stored
  by_cases same : other = key
  · rw [same, Function.update_self] at stored
    exact Or.inl ⟨same, (Option.some.inj stored).symm⟩
  · rw [Function.update_of_ne same] at stored
    exact Or.inr ⟨same, stored⟩

theorem freelist_setAllocator {store : Nat} {allocator : FSTrunkAllocator}
    (freelist : allocator.freelist = (sa.allocators store).freelist) (type : FSTrunkFreelistType) :
    (sa.setAllocator store allocator).freelist type = sa.freelist type := by
  cases type with
  | reclaim => rfl
  | normal other =>
      unfold FSStorageAllocatorManager.freelist
      dsimp only
      rw [setAllocator_allocators]
      by_cases same : other = store
      · rw [same, Function.update_self, freelist]
      · rw [Function.update_of_ne same]

theorem freelist_setFreelist (freelist : FSTrunkFreelist) (type other : FSTrunkFreelistType) :
    (sa.setFreelist freelist type).freelist other =
      if other = type then freelist else sa.freelist other := by
  cases type with
  | reclaim =>
      cases other with
      | reclaim => rfl
      | normal store => rfl
  | normal store =>
      cases other with
      | reclaim => rfl
      | normal another =>
          unfold setFreelist FSStorageAllocatorManager.freelist
          dsimp only
          rw [setAllocator_allocators]
          by_cases same : another = store
          · subst same
            rw [Function.update_self, if_pos rfl]
          · rw [Function.update_of_ne same, if_neg]
            exact fun equal => same (FSTrunkFreelistType.normal.inj equal)

theorem trunks_setFreelist (freelist : FSTrunkFreelist) (type : FSTrunkFreelistType) :
    (sa.setFreelist freelist type).trunks = sa.trunks := by
  cases type <;> rfl

/-- A freelist is not part of what `by_size` and the queue are. -/
theorem allocators_setFreelist (freelist : FSTrunkFreelist) (type : FSTrunkFreelistType)
    (store : Nat) :
    ((sa.setFreelist freelist type).allocators store).bySize = (sa.allocators store).bySize ∧
      ((sa.setFreelist freelist type).allocators store).reclaimQueue =
        (sa.allocators store).reclaimQueue := by
  cases type with
  | reclaim => exact ⟨rfl, rfl⟩
  | normal other =>
      unfold setFreelist
      dsimp only
      rw [setAllocator_allocators]
      by_cases same : store = other
      · subst same
        rw [Function.update_self]
        exact ⟨rfl, rfl⟩
      · rw [Function.update_of_ne same]
        exact ⟨rfl, rfl⟩

namespace ListsSound

/-- A trunk is in a freelist or ordered in by size, not both. -/
theorem not_inBySize_of_free (sound : sa.ListsSound) (free : sa.Free key) : ¬ sa.InBySize key := by
  rintro ⟨store, member⟩
  obtain ⟨trunk, present, allocing⟩ := sound.allocing key free
  obtain ⟨_, found, stored, other⟩ := sound.bySize store key member
  cases present.symm.trans stored
  exact other allocing

/-- Changing one trunk, with a status, an event and used bytes that fit its place. -/
theorem setTrunk (sound : sa.ListsSound) (named : updated.idInfo.id = key.id)
    (fits : updated.Fits) (free : sa.Free key → updated.status = .allocing)
    (bySize : sa.InBySize key → updated.status ≠ .allocing ∧ updated.utilEvent ≠ .create ∧
      updated.utilLastUsedBytes = sa.lastUsedBytes key) :
    (sa.setTrunk key updated).ListsSound := by
  have used : ∀ store, ∀ other ∈ (sa.allocators store).bySize,
      (sa.setTrunk key updated).lastUsedBytes other = sa.lastUsedBytes other := by
    intro store other member
    by_cases same : other = key
    · subst same
      rw [← (bySize ⟨store, member⟩).2.2]
      simp [lastUsedBytes]
    · simp [lastUsedBytes, Function.update_of_ne same]
  refine ⟨fun other found stored => ?_, fun other found stored => ?_, sound.count, sound.nodup,
    sound.own, sound.once, fun other place => ?_, fun store other member => ?_, fun store => ?_,
    fun other found stored event => ?_, sound.queue⟩
  · rcases trunks_setTrunk_cases stored with ⟨rfl, rfl⟩ | ⟨_, before⟩
    · exact named
    · exact sound.named other found before
  · rcases trunks_setTrunk_cases stored with ⟨rfl, rfl⟩ | ⟨_, before⟩
    · exact fits
    · exact sound.fits other found before
  · rw [setTrunk_trunks]
    by_cases same : other = key
    · subst same
      rw [Function.update_self]
      exact ⟨updated, rfl, free place⟩
    · rw [Function.update_of_ne same]
      exact sound.allocing other place
  · obtain ⟨own, found⟩ := sound.bySize store other member
    refine ⟨own, ?_⟩
    rw [setTrunk_trunks]
    by_cases same : other = key
    · subst same
      rw [Function.update_self]
      exact ⟨updated, rfl, (bySize ⟨store, member⟩).1⟩
    · rw [Function.update_of_ne same]
      exact found
  · refine (sound.ordered store).imp_of_mem fun {first second} inFirst inSecond before => ?_
    unfold SizeIdLt
    rw [used store first inFirst, used store second inSecond]
    exact before
  · rcases trunks_setTrunk_cases stored with ⟨rfl, rfl⟩ | ⟨_, before⟩
    · exact fun place => (bySize place).2.1 event
    · exact sound.created other found before event

/-- The used bytes by which a stored trunk is ordered. -/
theorem lastUsedBytes_eq (present : sa.trunks key = some trunk) :
    sa.lastUsedBytes key = trunk.utilLastUsedBytes := by
  simp [lastUsedBytes, present]

/-- Changing a trunk that keeps its name, status and place in the order. -/
theorem setTrunk_same (sound : sa.ListsSound) (present : sa.trunks key = some trunk)
    (named : updated.idInfo = trunk.idInfo) (status : updated.status = trunk.status)
    (event : updated.utilEvent = .create → trunk.utilEvent = .create)
    (used : updated.utilLastUsedBytes = trunk.utilLastUsedBytes) (fits : updated.Fits) :
    (sa.setTrunk key updated).ListsSound := by
  refine sound.setTrunk ?_ fits (fun free => ?_) fun place => ⟨?_, ?_, ?_⟩
  · rw [named]
    exact sound.named key trunk present
  · obtain ⟨found, stored, allocing⟩ := sound.allocing key free
    cases present.symm.trans stored
    rw [status]
    exact allocing
  · obtain ⟨store, member⟩ := place
    obtain ⟨_, found, stored, other⟩ := sound.bySize store key member
    cases present.symm.trans stored
    rw [status]
    exact other
  · exact fun created => sound.created key trunk present (event created) place
  · rw [used, lastUsedBytes_eq present]

/-- Changing the allocator of a path. -/
theorem setAllocator (sound : sa.ListsSound) {store : Nat} {allocator : FSTrunkAllocator}
    (freelist : allocator.freelist = (sa.allocators store).freelist)
    (bySize : ∀ key ∈ allocator.bySize,
      key.store = store ∧ ∃ trunk, sa.trunks key = some trunk ∧ trunk.status ≠ .allocing ∧
        trunk.utilEvent ≠ .create)
    (ordered : allocator.bySize.Pairwise sa.SizeIdLt)
    (queue : ∀ key ∈ allocator.reclaimQueue, key.store = store) :
    (sa.setAllocator store allocator).ListsSound := by
  have lists := freelist_setAllocator freelist
  refine ⟨sound.named, sound.fits, fun type => ?_, fun type => ?_, fun other key member => ?_,
    fun type other key first second => ?_, fun key place => ?_, fun other => ?_, fun other => ?_,
    fun key trunk present event place => ?_, fun other => ?_⟩
  · rw [lists]
    exact sound.count type
  · rw [lists]
    exact sound.nodup type
  · rw [lists] at member
    exact sound.own other key member
  · rw [lists] at first second
    exact sound.once type other key first second
  · obtain ⟨type, member⟩ := place
    rw [lists] at member
    exact sound.allocing key ⟨type, member⟩
  · rw [setAllocator_allocators]
    by_cases same : other = store
    · subst same
      rw [Function.update_self]
      intro key member
      obtain ⟨own, trunk, present, status, _⟩ := bySize key member
      exact ⟨own, trunk, present, status⟩
    · rw [Function.update_of_ne same]
      exact sound.bySize other
  · rw [setAllocator_allocators]
    by_cases same : other = store
    · subst same
      rw [Function.update_self]
      exact ordered
    · rw [Function.update_of_ne same]
      exact sound.ordered other
  · obtain ⟨other, member⟩ := place
    rw [setAllocator_allocators] at member
    by_cases same : other = store
    · subst same
      rw [Function.update_self] at member
      obtain ⟨_, found, stored, _, absent⟩ := bySize key member
      cases present.symm.trans stored
      exact absent event
    · rw [Function.update_of_ne same] at member
      exact sound.created key trunk present event ⟨other, member⟩
  · rw [setAllocator_allocators]
    by_cases same : other = store
    · subst same
      rw [Function.update_self]
      exact queue
    · rw [Function.update_of_ne same]
      exact sound.queue other

/-- Changing the allocator of a path, but not its trunks by size. -/
theorem setAllocator_same (sound : sa.ListsSound) {store : Nat} {allocator : FSTrunkAllocator}
    (freelist : allocator.freelist = (sa.allocators store).freelist)
    (bySize : allocator.bySize = (sa.allocators store).bySize)
    (queue : ∀ key ∈ allocator.reclaimQueue, key.store = store) :
    (sa.setAllocator store allocator).ListsSound := by
  refine sound.setAllocator freelist ?_ ?_ queue
  · rw [bySize]
    intro key member
    obtain ⟨own, trunk, present, status⟩ := sound.bySize store key member
    refine ⟨own, trunk, present, status, fun event => ?_⟩
    exact sound.created key trunk present event ⟨store, member⟩
  · rw [bySize]
    exact sound.ordered store

theorem addStatAvail (sound : sa.ListsSound) (store : Nat) (bytes : Int) :
    (sa.addStatAvail store bytes).ListsSound :=
  sound.setAllocator_same rfl rfl (sound.queue store)

theorem addStatUsed (sound : sa.ListsSound) (store : Nat) (bytes : Int) :
    (addStatUsed store bytes sa).ListsSound :=
  sound.setAllocator_same rfl rfl (sound.queue store)

theorem pushReclaimQueue (sound : sa.ListsSound) (key : TrunkKey) :
    (sa.pushReclaimQueue key).ListsSound := by
  refine sound.setAllocator_same ?_ ?_ ?_
  · rfl
  · rfl
  intro other member
  rcases List.mem_append.mp member with before | new
  · exact sound.queue key.store other before
  · rw [List.mem_singleton.mp new]

/-! ## The bookkeeping of the index -/

theorem pushTrunkUtilChangeEvent (sound : sa.ListsSound) (key : TrunkKey)
    (event : FSTrunkUtilEvent) (outside : event = .create → ¬ sa.InBySize key) :
    (pushTrunkUtilChangeEvent key event sa).ListsSound := by
  unfold Storage.pushTrunkUtilChangeEvent
  cases present : sa.trunks key with
  | none => exact sound
  | some trunk =>
      dsimp only
      split_ifs
      · have changed : (sa.setTrunk key { trunk with utilEvent := event }).ListsSound := by
          refine sound.setTrunk (sound.named key trunk present) (sound.fits key trunk present)
            (fun free => ?_) fun place => ⟨?_, fun created => outside created place, ?_⟩
          · obtain ⟨found, stored, allocing⟩ := sound.allocing key free
            cases present.symm.trans stored
            exact allocing
          · obtain ⟨store, member⟩ := place
            obtain ⟨_, found, stored, status⟩ := sound.bySize store key member
            cases present.symm.trans stored
            exact status
          · rw [lastUsedBytes_eq present]
        exact changed.pushReclaimQueue key
      · exact sound

theorem storageAllocatorAddSlice (sound : sa.ListsSound) (slice : OBSliceEntry)
    (modifyUsedSpace : Bool) : (storageAllocatorAddSlice slice modifyUsedSpace sa).2.ListsSound := by
  have counted : (if modifyUsedSpace then Storage.addStatUsed slice.space.store slice.space.size sa
      else sa).ListsSound := by
    split_ifs
    · exact sound.addStatUsed slice.space.store slice.space.size
    · exact sound
  unfold Storage.storageAllocatorAddSlice trunkAllocatorAddSlice
  split
  · exact counted
  · rename_i trunk present
    exact counted.setTrunk_same present rfl rfl id rfl (counted.fits _ trunk present)

theorem storageAllocatorDeleteSlice (sound : sa.ListsSound) (slice : OBSliceEntry)
    (modifyUsedSpace : Bool) :
    (storageAllocatorDeleteSlice slice modifyUsedSpace sa).2.ListsSound := by
  have counted : (if modifyUsedSpace then
      Storage.addStatUsed slice.space.store (-slice.space.size) sa else sa).ListsSound := by
    split_ifs
    · exact sound.addStatUsed slice.space.store (-slice.space.size)
    · exact sound
  unfold Storage.storageAllocatorDeleteSlice trunkAllocatorDeleteSlice
  split
  · exact counted
  · rename_i trunk present
    refine ListsSound.pushTrunkUtilChangeEvent ?_ _ _ nofun
    exact counted.setTrunk_same present rfl rfl id rfl (counted.fits _ trunk present)

end ListsSound

end FSStorageAllocatorManager

end FastStore.Storage
