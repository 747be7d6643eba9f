import FastStore.Storage.SliceAlloc

/-!
# The room in the freelists

Trunks come to a freelist with the room of a block at least, and only the head is allocated
from.  So what the head lacks the next trunk has, and a head that has less than
`discard_remain_space_size` left is gone.  The remainder of the head is an `int`, though, which
does not hold every size of a trunk.
-/

namespace FastStore.Storage

open FastStore.Util FSStorageAllocatorManager

/-- What allocating looks at in a trunk. -/
def FSTrunkFileInfo.extent (trunk : FSTrunkFileInfo) : Int × Int := (trunk.freeStart, trunk.size)

namespace FSStorageAllocatorManager

variable {sa before middle after : FSStorageAllocatorManager} {key : TrunkKey}
  {trunk updated : FSTrunkFileInfo} {store : Nat} {type : FSTrunkFreelistType}

/-- The same freelists, of trunks with the same room. -/
structure SameRoom (before after : FSStorageAllocatorManager) : Prop where
  extent : ∀ key, (after.trunks key).map FSTrunkFileInfo.extent =
    (before.trunks key).map FSTrunkFileInfo.extent
  trunks : ∀ type, (after.freelist type).trunks = (before.freelist type).trunks

namespace SameRoom

theorem refl (sa : FSStorageAllocatorManager) : SameRoom sa sa := ⟨fun _ => rfl, fun _ => rfl⟩

theorem trans (first : SameRoom before middle) (second : SameRoom middle after) :
    SameRoom before after :=
  ⟨fun key => (second.extent key).trans (first.extent key),
    fun type => (second.trunks type).trans (first.trunks type)⟩

theorem setTrunk (present : sa.trunks key = some trunk) (extent : updated.extent = trunk.extent) :
    SameRoom sa (sa.setTrunk key updated) := by
  refine ⟨fun other => ?_, fun type => ?_⟩
  · rw [setTrunk_trunks]
    by_cases same : other = key
    · rw [same, Function.update_self, present, Option.map_some, Option.map_some, extent]
    · rw [Function.update_of_ne same]
  · cases type <;> rfl

theorem setAllocator {allocator : FSTrunkAllocator}
    (freelist : allocator.freelist = (sa.allocators store).freelist) :
    SameRoom sa (sa.setAllocator store allocator) := by
  refine ⟨fun _ => rfl, fun type => ?_⟩
  rw [freelist_setAllocator freelist]

theorem pushTrunkUtilChangeEvent (event : FSTrunkUtilEvent) :
    SameRoom sa (pushTrunkUtilChangeEvent key event sa) := by
  unfold Storage.pushTrunkUtilChangeEvent
  cases present : sa.trunks key with
  | none => exact refl sa
  | some trunk =>
      dsimp only
      split_ifs
      · have marked : SameRoom sa (sa.setTrunk key { trunk with utilEvent := event }) :=
          setTrunk present rfl
        refine marked.trans (setAllocator ?_)
        rfl
      · exact refl sa

theorem addStatUsed (bytes : Int) : SameRoom sa (addStatUsed store bytes sa) := by
  unfold Storage.addStatUsed
  refine setAllocator ?_
  rfl

theorem trunkAllocatorAddSlice (slice : OBSliceEntry) :
    SameRoom sa (trunkAllocatorAddSlice slice sa).2 := by
  unfold Storage.trunkAllocatorAddSlice
  cases present : sa.trunks slice.space.trunk with
  | none => exact refl sa
  | some trunk => exact setTrunk present rfl

theorem trunkAllocatorDeleteSlice (slice : OBSliceEntry) :
    SameRoom sa (trunkAllocatorDeleteSlice slice sa).2 := by
  unfold Storage.trunkAllocatorDeleteSlice
  cases present : sa.trunks slice.space.trunk with
  | none => exact refl sa
  | some trunk =>
      refine SameRoom.trans ?_ (pushTrunkUtilChangeEvent .update)
      exact setTrunk present rfl

theorem storageAllocatorAddSlice (slice : OBSliceEntry) (modifyUsedSpace : Bool) :
    SameRoom sa (storageAllocatorAddSlice slice modifyUsedSpace sa).2 := by
  unfold Storage.storageAllocatorAddSlice
  cases modifyUsedSpace with
  | true => exact (addStatUsed slice.space.size).trans (trunkAllocatorAddSlice slice)
  | false => exact trunkAllocatorAddSlice slice

theorem storageAllocatorDeleteSlice (slice : OBSliceEntry) (modifyUsedSpace : Bool) :
    SameRoom sa (storageAllocatorDeleteSlice slice modifyUsedSpace sa).2 := by
  unfold Storage.storageAllocatorDeleteSlice
  cases modifyUsedSpace with
  | true => exact (addStatUsed (-slice.space.size)).trans (trunkAllocatorDeleteSlice slice)
  | false => exact trunkAllocatorDeleteSlice slice

theorem orderIn (present : sa.trunks key = some trunk) (bySize : List TrunkKey) :
    SameRoom sa (sa.orderIn store key trunk bySize) := by
  unfold FSStorageAllocatorManager.orderIn
  have counted : SameRoom sa (sa.setTrunk key
      { trunk with utilLastUsedBytes := trunk.usedBytes, utilEvent := .none }) :=
    setTrunk present rfl
  refine counted.trans (setAllocator ?_)
  rfl

theorem acceptTrunkUtilEvent (present : sa.trunks key = some trunk) :
    SameRoom sa (acceptTrunkUtilEvent store key trunk sa) := by
  have done : SameRoom sa (sa.setTrunk key { trunk with utilEvent := .none }) :=
    setTrunk present rfl
  unfold Storage.acceptTrunkUtilEvent
  dsimp only
  split
  · exact orderIn present _
  · split
    · split_ifs
      · exact orderIn present _
      · exact done
    · exact done
  · exact done

theorem dealTrunkUtilChangeEvent : SameRoom sa (dealTrunkUtilChangeEvent store key sa) := by
  unfold Storage.dealTrunkUtilChangeEvent
  cases present : sa.trunks key with
  | none => exact refl sa
  | some trunk =>
      dsimp only
      cases trunk.status with
      | none => exact acceptTrunkUtilEvent present
      | repush =>
          refine setAllocator ?_
          rfl
      | allocing | reclaiming => exact setTrunk present rfl

theorem fsSetTrunkStatus (status : FSTrunkStatus) :
    SameRoom sa (fsSetTrunkStatus key status sa) := by
  unfold Storage.fsSetTrunkStatus
  cases present : sa.trunks key with
  | none => exact refl sa
  | some trunk => exact setTrunk present rfl

theorem pushReclaimQueue : SameRoom sa (sa.pushReclaimQueue key) := by
  refine setAllocator ?_
  rfl

theorem addStatAvail (bytes : Int) : SameRoom sa (sa.addStatAvail store bytes) := by
  refine setAllocator ?_
  rfl

theorem setBySize (bySize : List TrunkKey) : SameRoom sa (sa.setBySize store bySize) := by
  refine setAllocator ?_
  rfl

end SameRoom

/-- The same freelists but one, of trunks with the same room. -/
structure Relists (before after : FSStorageAllocatorManager) (type : FSTrunkFreelistType)
    (trunks : List TrunkKey) : Prop where
  extent : ∀ key, (after.trunks key).map FSTrunkFileInfo.extent =
    (before.trunks key).map FSTrunkFileInfo.extent
  here : (after.freelist type).trunks = trunks
  others : ∀ other, other ≠ type → (after.freelist other).trunks = (before.freelist other).trunks

theorem Relists.setFreelist (freelist : FSTrunkFreelist) :
    Relists sa (sa.setFreelist freelist type) type freelist.trunks := by
  refine ⟨fun key => ?_, ?_, fun other apart => ?_⟩
  · rw [trunks_setFreelist]
  · rw [freelist_setFreelist, if_pos rfl]
  · rw [freelist_setFreelist, if_neg apart]

theorem Relists.trans {trunks : List TrunkKey} (relists : Relists before middle type trunks)
    (same : SameRoom middle after) : Relists before after type trunks :=
  ⟨fun key => (same.extent key).trans (relists.extent key), (same.trunks type).trans relists.here,
    fun other apart => (same.trunks other).trans (relists.others other apart)⟩

theorem Relists.trunkFreelistRemove {rest : List TrunkKey}
    (list : (sa.freelist type).trunks = key :: rest) (present : sa.trunks key = some trunk) :
    Relists sa (trunkFreelistRemove type sa) type rest := by
  unfold Storage.trunkFreelistRemove
  rw [list]
  dsimp only
  rw [present]
  dsimp only
  have popped : Relists sa (sa.setFreelist { sa.freelist type with
      trunks := rest
      count := (sa.freelist type).count - 1 } type) type rest := Relists.setFreelist _
  have stored : (sa.setFreelist { sa.freelist type with
      trunks := rest
      count := (sa.freelist type).count - 1 } type).trunks key = some trunk := by
    rw [trunks_setFreelist]
    exact present
  have freed := popped.trans (SameRoom.setTrunk stored
    (rfl : { trunk with status := .none, utilEvent := .create }.extent = trunk.extent))
  split_ifs
  · exact freed.trans SameRoom.pushReclaimQueue
  · exact freed

/-- Only the trunk that leaves is changed. -/
theorem trunks_trunkFreelistRemove_of_ne {rest : List TrunkKey} {other : TrunkKey}
    (list : (sa.freelist type).trunks = key :: rest) (apart : other ≠ key) :
    (trunkFreelistRemove type sa).trunks other = sa.trunks other := by
  unfold Storage.trunkFreelistRemove
  rw [list]
  dsimp only
  cases sa.trunks key with
  | none => rw [trunks_setFreelist]
  | some trunk =>
      dsimp only
      split_ifs
      · unfold FSStorageAllocatorManager.pushReclaimQueue
        rw [setAllocator_trunks, setTrunk_trunks, Function.update_of_ne apart, trunks_setFreelist]
      · rw [setTrunk_trunks, Function.update_of_ne apart, trunks_setFreelist]

theorem Relists.trunkFreelistAdd (present : sa.trunks key = some trunk) :
    Relists sa (trunkFreelistAdd type key sa) type ((sa.freelist type).trunks ++ [key]) := by
  unfold Storage.trunkFreelistAdd
  rw [present]
  dsimp only
  have pushed : Relists sa (sa.setFreelist { sa.freelist type with
      trunks := (sa.freelist type).trunks ++ [key]
      count := (sa.freelist type).count + 1 } type) type
      ((sa.freelist type).trunks ++ [key]) := Relists.setFreelist _
  have stored : (sa.setFreelist { sa.freelist type with
      trunks := (sa.freelist type).trunks ++ [key]
      count := (sa.freelist type).count + 1 } type).trunks key = some trunk := by
    rw [trunks_setFreelist]
    exact present
  exact (pushed.trans (SameRoom.setTrunk stored
    (rfl : { trunk with status := .allocing }.extent = trunk.extent))).trans
      (SameRoom.addStatAvail _)

theorem availOf_of_extent
    (extent : (after.trunks key).map FSTrunkFileInfo.extent =
      (before.trunks key).map FSTrunkFileInfo.extent) :
    after.availOf key = before.availOf key := by
  unfold availOf
  cases here : before.trunks key with
  | none =>
      rw [here, Option.map_none, Option.map_eq_none_iff] at extent
      rw [extent]
  | some trunk =>
      rw [here, Option.map_some] at extent
      obtain ⟨found, there, equal⟩ := Option.map_eq_some_iff.mp extent
      rw [there]
      injection equal with start size
      show found.size - found.freeStart = trunk.size - trunk.freeStart
      rw [start, size]

theorem size_of_extent
    (extent : ∀ key, (after.trunks key).map FSTrunkFileInfo.extent =
      (before.trunks key).map FSTrunkFileInfo.extent)
    (found : after.trunks key = some trunk) :
    ∃ former, before.trunks key = some former ∧ former.size = trunk.size := by
  have mapped := extent key
  rw [found, Option.map_some] at mapped
  obtain ⟨former, there, equal⟩ := Option.map_eq_some_iff.mp mapped.symm
  injection equal with _ size
  exact ⟨former, there, size⟩

/-! ## The invariant -/

/-- Every trunk has the admitted size at least, and every one behind a head the room of a
block. -/
structure Stocked (sa : FSStorageAllocatorManager) : Prop where
  size : ∀ key trunk, sa.trunks key = some trunk → fsTrunkFileMinSize ≤ trunk.size
  tail : ∀ type, ∀ key ∈ (sa.freelist type).trunks.tail, fsFileBlockSize ≤ sa.availOf key

/-- The head of the freelist has some room. -/
def HeadRoom (sa : FSStorageAllocatorManager) (type : FSTrunkFreelistType) : Prop :=
  ∀ key ∈ (sa.freelist type).trunks.head?, 0 < sa.availOf key

/-- The invariant: a stock of trunks, and heads with room. -/
structure Roomy (sa : FSStorageAllocatorManager) : Prop extends Stocked sa where
  head : ∀ type, sa.HeadRoom type

theorem Roomy.of_same (roomy : before.Roomy) (same : SameRoom before after) : after.Roomy := by
  refine ⟨⟨fun key trunk found => ?_, fun type key member => ?_⟩, fun type key member => ?_⟩
  · obtain ⟨former, there, size⟩ := size_of_extent same.extent found
    exact size ▸ roomy.size key former there
  · rw [same.trunks type] at member
    rw [availOf_of_extent (same.extent key)]
    exact roomy.tail type key member
  · rw [same.trunks type] at member
    rw [availOf_of_extent (same.extent key)]
    exact roomy.head type key member

/-- One freelist changes. -/
theorem Stocked.relist {trunks : List TrunkKey} (stocked : before.Stocked)
    (relists : Relists before after type trunks)
    (tail : ∀ key ∈ trunks.tail, fsFileBlockSize ≤ before.availOf key)
    (head : ∀ key ∈ trunks.head?, 0 < before.availOf key)
    (others : ∀ other, other ≠ type → before.HeadRoom other) : after.Roomy := by
  refine ⟨⟨fun key trunk found => ?_, fun other key member => ?_⟩, fun other key member => ?_⟩
  · obtain ⟨former, there, size⟩ := size_of_extent relists.extent found
    exact size ▸ stocked.size key former there
  · rw [availOf_of_extent (relists.extent key)]
    by_cases same : other = type
    · rw [same, relists.here] at member
      exact tail key member
    · rw [relists.others other same] at member
      exact stocked.tail other key member
  · rw [availOf_of_extent (relists.extent key)]
    by_cases same : other = type
    · rw [same, relists.here] at member
      exact head key member
    · rw [relists.others other same] at member
      exact others other same key member

/-- The head leaves: the next trunk has the room of a block. -/
theorem Stocked.remove (stocked : sa.Stocked) (head : sa.headTrunk type = some (key, trunk))
    (others : ∀ other, other ≠ type → sa.HeadRoom other) : (trunkFreelistRemove type sa).Roomy := by
  obtain ⟨rest, list, present⟩ := cons_of_headTrunk head
  have tail : ∀ other ∈ rest, fsFileBlockSize ≤ sa.availOf other := by
    intro other member
    refine stocked.tail type other ?_
    rw [list]
    exact member
  refine stocked.relist (Relists.trunkFreelistRemove list present)
    (fun other member => tail other (List.mem_of_mem_tail member)) (fun other member => ?_) others
  exact lt_of_lt_of_le (by decide) (tail other (List.mem_of_mem_head? member))

/-- A trunk with the room of a block comes to a freelist. -/
theorem Roomy.add (roomy : sa.Roomy) (present : sa.trunks key = some trunk)
    (room : fsFileBlockSize ≤ trunk.availSpace) : (trunkFreelistAdd type key sa).Roomy := by
  have avail : fsFileBlockSize ≤ sa.availOf key := (availOf_eq present).symm ▸ room
  refine roomy.relist (Relists.trunkFreelistAdd present) (fun other member => ?_)
    (fun other member => ?_) fun other _ => roomy.head other
  · cases list : (sa.freelist type).trunks with
    | nil =>
        rw [list] at member
        cases member
    | cons first rest =>
        rw [list] at member
        rcases List.mem_append.mp member with old | new
        · refine roomy.tail type other ?_
          rw [list]
          exact old
        · rw [List.mem_singleton.mp new]
          exact avail
  · cases list : (sa.freelist type).trunks with
    | nil =>
        rw [list] at member
        cases member
        exact lt_of_lt_of_le (by decide) avail
    | cons first rest =>
        rw [list] at member
        refine roomy.head type other ?_
        rw [list]
        exact member

/-- Space is taken of the head, which may have nothing left. -/
theorem Stocked.allocSpace (stocked : sa.Stocked) (sound : sa.ListsSound)
    (head : sa.headTrunk type = some (key, trunk)) (allocSize : Int)
    (others : ∀ other, other ≠ type → sa.HeadRoom other) :
    (trunkAllocSpace key trunk allocSize sa).2.Stocked ∧
      ∀ other, other ≠ type → (trunkAllocSpace key trunk allocSize sa).2.HeadRoom other := by
  obtain ⟨rest, list, present⟩ := cons_of_headTrunk head
  have member : key ∈ (sa.freelist type).trunks := list ▸ List.mem_cons_self
  have lists : ∀ other, (trunkAllocSpace key trunk allocSize sa).2.freelist other =
      sa.freelist other := fun other => freelist_setAllocator (by rfl) other
  have avail : ∀ other, other ≠ key →
      (trunkAllocSpace key trunk allocSize sa).2.availOf other = sa.availOf other := by
    intro other apart
    exact availOf_setTrunk_of_ne apart
  refine ⟨⟨fun other found stored => ?_, fun other behind inTail => ?_⟩,
    fun other apart first isFirst => ?_⟩
  · rcases trunks_setTrunk_cases stored with ⟨-, rfl⟩ | ⟨-, before⟩
    · exact stocked.size key trunk present
    · exact stocked.size other found before
  · rw [lists other] at inTail
    -- the head is behind no head
    have apart : behind ≠ key := by
      rintro rfl
      have same : other = type :=
        sound.once other type behind (List.mem_of_mem_tail inTail) member
      rw [same, list] at inTail
      have nodup := sound.nodup type
      rw [list] at nodup
      exact (List.nodup_cons.mp nodup).1 inTail
    rw [avail behind apart]
    exact stocked.tail other behind inTail
  · rw [lists other] at isFirst
    have distinct : first ≠ key := by
      rintro rfl
      exact apart (sound.once other type first (List.mem_of_mem_head? isFirst) member)
    rw [avail first distinct]
    exact others other apart first isFirst

/-! ## The operations -/

theorem Roomy.allocRemain (roomy : sa.Roomy) (sound : sa.ListsSound) {isNormal : Bool}
    {size alignedSize : Int} {given : List FSTrunkSpaceInfo} {first : FSStorageAllocatorManager}
    (done : allocRemain isNormal type size sa = some (alignedSize, given, first)) :
    first.Roomy := by
  rcases allocRemain_cases sound done with
    ⟨-, -, rfl, -⟩ | ⟨key, trunk, head, -, -, -, -, rfl⟩
  · exact roomy
  · obtain ⟨stocked, others⟩ := roomy.toStocked.allocSpace sound head trunk.availSpace
      fun other _ => roomy.head other
    exact stocked.remove (headTrunk_trunkAllocSpace head trunk.availSpace) others

theorem Roomy.allocRest (roomy : sa.Roomy) (sound : sa.ListsSound)
    {discardRemainSpaceSize alignedSize : Int} (positive : 0 < discardRemainSpaceSize)
    {result : FSTrunkSpaceInfo × FSStorageAllocatorManager}
    (done : allocRest discardRemainSpaceSize type alignedSize sa = some result) :
    result.2.Roomy := by
  unfold Storage.allocRest at done
  cases head : sa.headTrunk type with
  | none =>
      rw [head] at done
      cases done
  | some found =>
      obtain ⟨key, trunk⟩ := found
      rw [head] at done
      dsimp only at done
      obtain ⟨stocked, others⟩ := roomy.toStocked.allocSpace sound head alignedSize
        fun other _ => roomy.head other
      split_ifs at done with less discarded
      · cases done
        refine Roomy.of_same ?_ (SameRoom.addStatAvail _)
        exact stocked.remove (headTrunk_trunkAllocSpace head alignedSize) others
      · cases done
        refine ⟨stocked, fun other first isFirst => ?_⟩
        by_cases same : other = type
        · subst same
          obtain ⟨rest, list, present⟩ := cons_of_headTrunk
            (headTrunk_trunkAllocSpace head alignedSize)
          rw [list] at isFirst
          cases isFirst
          rw [availOf_eq present]
          show 0 < trunk.size - (trunk.freeStart + alignedSize)
          unfold FSTrunkFileInfo.availSpace at discarded
          omega
        · exact others other same first isFirst

theorem Roomy.trunkAllocatorAddToFreelist (roomy : sa.Roomy) (present : sa.trunks key = some trunk)
    (room : fsFileBlockSize ≤ trunk.availSpace) : (trunkAllocatorAddToFreelist key sa).Roomy :=
  roomy.add present room

/-- A trunk that is in no freelist changes. -/
theorem Roomy.setTrunk (roomy : sa.Roomy) (notFree : ¬ sa.Free key)
    (size : fsTrunkFileMinSize ≤ updated.size) : (sa.setTrunk key updated).Roomy := by
  have avail : ∀ other type, other ∈ (sa.freelist type).trunks →
      (sa.setTrunk key updated).availOf other = sa.availOf other := by
    intro other type member
    refine availOf_setTrunk_of_ne ?_
    rintro rfl
    exact notFree ⟨type, member⟩
  have lists : ∀ type, (sa.setTrunk key updated).freelist type = sa.freelist type := by
    intro type
    cases type <;> rfl
  refine ⟨⟨fun other found stored => ?_, fun type other member => ?_⟩, fun type other member => ?_⟩
  · rcases trunks_setTrunk_cases stored with ⟨-, rfl⟩ | ⟨-, before⟩
    · exact size
    · exact roomy.size other found before
  · rw [lists type] at member
    rw [avail other type (List.mem_of_mem_tail member)]
    exact roomy.tail type other member
  · rw [lists type] at member
    rw [avail other type (List.mem_of_mem_head? member)]
    exact roomy.head type other member

theorem Roomy.preallocTrunkFinish (roomy : sa.Roomy) (sound : sa.ListsSound)
    (config : FSStorageConfig) (idInfo : FSTrunkIdInfo) :
    (preallocTrunkFinish config store idInfo sa).2.Roomy := by
  unfold Storage.preallocTrunkFinish trunkAllocatorAdd
  cases present : sa.trunks ⟨store, idInfo.id⟩ with
  | some trunk => exact roomy
  | none =>
      have notFree : ¬ sa.Free ⟨store, idInfo.id⟩ := by
        intro free
        obtain ⟨trunk, stored, -⟩ := sound.allocing _ free
        exact nomatch present.symm.trans stored
      refine (roomy.setTrunk notFree ?_).trunkAllocatorAddToFreelist (Function.update_self _ _ _) ?_
      · exact config.min_le
      · show fsFileBlockSize ≤ config.trunkFileSize - 0
        have least := config.min_le
        unfold fsTrunkFileMinSize at least
        unfold fsFileBlockSize
        omega

theorem Roomy.trunkAllocatorDealOnReady (roomy : sa.Roomy) (ratios : Bool)
    (notFree : ¬ sa.Free key) : (trunkAllocatorDealOnReady key ratios sa).Roomy := by
  unfold Storage.trunkAllocatorDealOnReady
  cases present : sa.trunks key with
  | none => exact roomy
  | some trunk =>
      have least := roomy.size key trunk present
      unfold fsTrunkFileMinSize at least
      dsimp only
      split_ifs with start unused room
      · refine roomy.trunkAllocatorAddToFreelist present ?_
        unfold FSTrunkFileInfo.availSpace fsFileBlockSize
        omega
      · have emptied := roomy.setTrunk notFree
          (least : fsTrunkFileMinSize ≤ { trunk with freeStart := 0 }.size)
        refine emptied.trunkAllocatorAddToFreelist (Function.update_self _ _ _) ?_
        show fsFileBlockSize ≤ trunk.size - 0
        unfold fsFileBlockSize
        omega
      · exact roomy.add present room.1
      · exact roomy.of_same (SameRoom.pushTrunkUtilChangeEvent .create)

theorem Roomy.putBackTrunk (roomy : sa.Roomy) (notFree : ¬ sa.Free key) :
    (putBackTrunk key sa).Roomy := by
  unfold Storage.putBackTrunk
  cases present : sa.trunks key with
  | none => exact roomy
  | some trunk =>
      have least := roomy.size key trunk present
      unfold fsTrunkFileMinSize at least
      have emptied := roomy.setTrunk notFree
        (least : fsTrunkFileMinSize ≤ { trunk with freeStart := 0 }.size)
      refine (emptied.of_same (SameRoom.setBySize _)).trunkAllocatorAddToFreelist
        (Function.update_self _ _ _) ?_
      show fsFileBlockSize ≤ trunk.size - 0
      unfold fsFileBlockSize
      omega

end FSStorageAllocatorManager

/-! ## The runs -/

/-- The loaded trunks were made with admitted sizes. -/
structure StockInit (s : FreelistState) : Prop extends FreelistInit s where
  size : ∀ key trunk, s.sallocator.trunks key = some trunk → fsTrunkFileMinSize ≤ trunk.size

namespace FreelistState

variable {trunkFileSize discardSize : Int} {s : FreelistState}

theorem discard_positive (trunkFileSize discardSize : Int) :
    0 < (loadStorageConfig trunkFileSize discardSize).discardRemainSpaceSize :=
  lt_of_lt_of_le (by decide) (le_max_left 256 _)

theorem roomy_allocRest {after : FSStorageAllocatorManager} (roomy : after.Roomy)
    (sound : after.ListsSound) (type : FSTrunkFreelistType) (alignedSize : Int) :
    (FreelistState.allocRest (loadStorageConfig trunkFileSize discardSize) type alignedSize
      after).Roomy := by
  unfold FreelistState.allocRest
  split
  · exact roomy
  · rename_i done
    exact roomy.allocRest sound (discard_positive _ _) done

theorem roomy_allocSpace (roomy : s.sallocator.Roomy) (sound : s.Sound) (store size : Nat) :
    (s.allocSpace (loadStorageConfig trunkFileSize discardSize) store size).sallocator.Roomy := by
  unfold FreelistState.allocSpace
  cases half : allocRemain true (.normal store) (memAlignCeil size fsSpaceAlignSize)
      s.sallocator with
  | none => exact roomy
  | some result =>
      obtain ⟨alignedSize, spaces, first⟩ := result
      have left := roomy.allocRemain sound.lists half
      dsimp only
      split_ifs
      · exact left
      · exact roomy_allocRest left (Keeps.allocRemain sound.lists half).1.sound _ _

theorem roomy_reclaimAlloc (roomy : s.sallocator.Roomy) (sound : s.Sound)
    (type : FSTrunkFreelistType) (size : Nat) :
    (reclaimAllocSpace (loadStorageConfig trunkFileSize discardSize).discardRemainSpaceSize type size
      s.sallocator).2.Roomy := by
  unfold reclaimAllocSpace
  cases half : allocRemain false type (memAlignCeil size fsSpaceAlignSize) s.sallocator with
  | none => exact roomy
  | some result =>
      obtain ⟨alignedSize, spaces, first⟩ := result
      have left := roomy.allocRemain sound.lists half
      dsimp only
      cases rest : Storage.allocRest
          (loadStorageConfig trunkFileSize discardSize).discardRemainSpaceSize type alignedSize
          first with
      | none => exact left
      | some given =>
          exact left.allocRest (Keeps.allocRemain sound.lists half).1.sound (discard_positive _ _) rest

theorem roomy_next (roomy : s.sallocator.Roomy) (sound : s.Sound) (action : FreelistAction)
    (enabled : s.Enabled action) :
    (s.next (loadStorageConfig trunkFileSize discardSize) action).sallocator.Roomy := by
  cases action with
  | prealloc store idInfo => exact roomy.preallocTrunkFinish sound.lists _ idInfo
  | ready key ratios =>
      refine roomy.trunkAllocatorDealOnReady ratios fun free => ?_
      exact enabled.1 (sound.lists.mem_freeTrunks_iff.mpr ⟨free, rfl⟩)
  | addSlice slice modifyUsedSpace =>
      exact roomy.of_same (SameRoom.storageAllocatorAddSlice slice modifyUsedSpace)
  | deleteSlice slice modifyUsedSpace =>
      exact roomy.of_same (SameRoom.storageAllocatorDeleteSlice slice modifyUsedSpace)
  | alloc store size => exact roomy_allocSpace roomy sound store size
  | wake store alignedSize ok =>
      cases ok with
      | true => exact roomy_allocRest roomy sound.lists (.normal store) alignedSize
      | false => exact roomy
  | reclaimAlloc type size => exact roomy_reclaimAlloc roomy sound type size
  | deal store =>
      show (s.dealEvent store).sallocator.Roomy
      unfold FreelistState.dealEvent
      split
      · exact roomy
      · refine (roomy.of_same (SameRoom.setAllocator ?_)).of_same SameRoom.dealTrunkUtilChangeEvent
        rfl
  | reclaim store below =>
      show (s.startReclaim store below).sallocator.Roomy
      unfold FreelistState.startReclaim
      cases found : reclaimCandidate store below s.sallocator with
      | none => exact roomy
      | some candidate =>
          obtain ⟨key, trunk⟩ := candidate
          dsimp only
          split_ifs
          · exact roomy.of_same (SameRoom.fsSetTrunkStatus .reclaiming)
          · refine roomy.putBackTrunk fun free => ?_
            exact sound.lists.not_inBySize_of_free free ⟨store, mem_of_reclaimCandidate found⟩
  | reclaimed store ok =>
      show (s.finishReclaim store ok).sallocator.Roomy
      unfold FreelistState.finishReclaim
      cases taken : s.reclaiming store with
      | none => exact roomy
      | some key =>
          cases ok with
          | true =>
              refine roomy.putBackTrunk fun free => ?_
              exact sound.lists.not_inBySize_of_free free ⟨store, sound.reclaiming store key taken⟩
          | false => exact roomy.of_same (SameRoom.fsSetTrunkStatus .none)

theorem roomy_of_init (start : StockInit s) : s.sallocator.Roomy := by
  refine ⟨⟨start.size, fun type key member => ?_⟩, fun type key member => ?_⟩
  · rw [(start.empty type).1] at member
    cases member
  · rw [(start.empty type).1] at member
    cases member

theorem roomy_of_reachable
    (reached : Reachable (FreelistStep (loadStorageConfig trunkFileSize discardSize)) StockInit s) :
    s.Sound ∧ s.sallocator.Roomy := by
  induction reached with
  | start first => exact ⟨Sound.init first.toFreelistInit, roomy_of_init first⟩
  | next action _ taken ih =>
      obtain ⟨enabled, rfl⟩ := taken
      exact ⟨ih.1.next action enabled, roomy_next ih.2 ih.1 action enabled⟩

end FreelistState

/-! ## A call -/

/-- The space lies inside of its trunk. -/
def FSStorageAllocatorManager.Inside (sa : FSStorageAllocatorManager) (space : FSTrunkSpaceInfo) :
    Prop :=
  ∃ trunk, sa.trunks space.trunk = some trunk ∧ 0 ≤ space.offset ∧ 0 < space.size ∧
    space.offset + space.size ≤ trunk.size

/-- What a call shall do: it uses no remainder but the true one, it does not abort, a client gets
no `EAGAIN`, and the spaces are one or two of the size rounded up, inside of their trunks. -/
structure AllocSafe (isNormal : Bool) (type : FSTrunkFreelistType) (size : Int)
    (sa : FSStorageAllocatorManager) (woken : Option FSStorageAllocatorManager)
    (result : AllocResult) : Prop where
  remain : ∀ key trunk, sa.headTrunk type = some (key, trunk) →
    trunk.availSpace.bmod (2 ^ 32) = trunk.availSpace
  runs : result ≠ .aborts
  normal : isNormal = true → result ≠ .eagain
  count : ∀ spaces, result = .ok spaces → spaces.length = 1 ∨ spaces.length = 2
  total : ∀ spaces, result = .ok spaces →
    (spaces.map fun space => space.size).sum = memAlignCeil size fsSpaceAlignSize
  inside : ∀ spaces, result = .ok spaces → ∀ space ∈ spaces,
    sa.Inside space ∨ ∃ later ∈ woken, later.Inside space

/-- What a client that waits has still to get. -/
def stillNeeded (type : FSTrunkFreelistType) (size : Int) (sa : FSStorageAllocatorManager) : Int :=
  match sa.headTrunk type with
  | none => memAlignCeil size fsSpaceAlignSize
  | some (_, trunk) => memAlignCeil size fsSpaceAlignSize - trunk.availSpace

/-- The freelist does not have enough: a client waits. -/
def Waits (type : FSTrunkFreelistType) (size : Int) (sa : FSStorageAllocatorManager) : Prop :=
  (sa.freelist type).trunks.length ≤ 1 ∧ ∀ key trunk, sa.headTrunk type = some (key, trunk) →
    trunk.availSpace < memAlignCeil size fsSpaceAlignSize

/-- The head has less than 2 GB left, and other clients have not used up the trunk that a client
has waited for. -/
structure AllocReady (isNormal : Bool) (type : FSTrunkFreelistType) (size : Int)
    (sa : FSStorageAllocatorManager) (woken : Option FSStorageAllocatorManager) : Prop where
  below : ∀ key trunk, sa.headTrunk type = some (key, trunk) → trunk.availSpace < 2 ^ 31
  found : isNormal = true → Waits type size sa → ∀ later ∈ woken, ∀ key trunk,
    later.headTrunk type = some (key, trunk) → stillNeeded type size sa ≤ trunk.availSpace

variable {sa : FSStorageAllocatorManager} {type : FSTrunkFreelistType} {isNormal : Bool}
  {discardRemainSpaceSize size alignedSize : Int} {woken : Option FSStorageAllocatorManager}
  {key : TrunkKey} {trunk : FSTrunkFileInfo}

theorem bmod_eq_self_iff {value : Int} (positive : 0 ≤ value) :
    value.bmod (2 ^ 32) = value ↔ value < 2 ^ 31 := by
  unfold Int.bmod
  norm_num
  split_ifs <;> omega

theorem allocLast_of_room {given : List FSTrunkSpaceInfo}
    (head : sa.headTrunk type = some (key, trunk)) (room : alignedSize ≤ trunk.availSpace) :
    allocLast discardRemainSpaceSize type alignedSize given sa =
      .ok (given ++ [⟨key.store, trunk.idInfo, trunk.freeStart, alignedSize⟩]) := by
  unfold allocLast allocRest
  rw [head]
  dsimp only
  rw [if_neg (Int.not_lt.mpr room)]
  split_ifs <;> rfl

theorem allocLast_of_less {given : List FSTrunkSpaceInfo}
    (head : sa.headTrunk type = some (key, trunk)) (less : trunk.availSpace < alignedSize) :
    allocLast discardRemainSpaceSize type alignedSize given sa = .eagain := by
  unfold allocLast allocRest
  rw [head]
  dsimp only
  rw [if_pos less]

theorem allocLast_of_none {given : List FSTrunkSpaceInfo} (head : sa.headTrunk type = none) :
    allocLast discardRemainSpaceSize type alignedSize given sa = .noTrunk := by
  unfold allocLast allocRest
  rw [head]

/-- Space from `free_start` on, as much as the trunk has. -/
theorem inside_of_head (sound : sa.ListsSound) (head : sa.headTrunk type = some (key, trunk))
    {allocSize : Int} (positive : 0 < allocSize) (room : allocSize ≤ trunk.availSpace) :
    sa.Inside ⟨key.store, trunk.idInfo, trunk.freeStart, allocSize⟩ := by
  obtain ⟨rest, list, present⟩ := cons_of_headTrunk head
  have fits := sound.fits key trunk present
  have named : (⟨key.store, trunk.idInfo.id⟩ : TrunkKey) = key := by
    rw [sound.named key trunk present]
  refine ⟨trunk, ?_, fits.1, positive, ?_⟩
  · unfold FSTrunkSpaceInfo.trunk
    dsimp only
    rw [named]
    exact present
  · unfold FSTrunkFileInfo.availSpace at room
    dsimp only
    omega

theorem trunks_of_headTrunk_none (sound : sa.ListsSound) (head : sa.headTrunk type = none) :
    (sa.freelist type).trunks = [] := by
  unfold headTrunk at head
  cases list : (sa.freelist type).trunks with
  | nil => rfl
  | cons first rest =>
      obtain ⟨trunk, present, -⟩ := sound.allocing first ⟨type, list ▸ List.mem_cons_self⟩
      rw [list] at head
      dsimp only at head
      rw [present] at head
      cases head

/-- Where a client waits, and what it has got by then. -/
structure WaitsWith (type : FSTrunkFreelistType) (size : Int) (sa : FSStorageAllocatorManager)
    (given : List FSTrunkSpaceInfo) : Prop where
  waits : Waits type size sa
  count : given.length = 0 ∨ given.length = 1
  total : (given.map fun space => space.size).sum + stillNeeded type size sa =
    memAlignCeil size fsSpaceAlignSize
  needed : 0 < stillNeeded type size sa
  inside : ∀ space ∈ given, sa.Inside space

/-- The spaces of a call that has not waited. -/
structure SpacesFit (size : Int) (sa : FSStorageAllocatorManager) (spaces : List FSTrunkSpaceInfo) :
    Prop where
  count : spaces.length = 1 ∨ spaces.length = 2
  total : (spaces.map fun space => space.size).sum = memAlignCeil size fsSpaceAlignSize
  inside : ∀ space ∈ spaces, sa.Inside space

/-- The call, by how it ends. -/
inductive AllocEnds (discardRemainSpaceSize : Int) (isNormal : Bool) (type : FSTrunkFreelistType)
    (size : Int) (sa : FSStorageAllocatorManager) (woken : Option FSStorageAllocatorManager) :
    AllocResult → Prop where
  | reclaimer (reclaims : isNormal = false) :
      AllocEnds discardRemainSpaceSize isNormal type size sa woken .eagain
  | served {spaces : List FSTrunkSpaceInfo} (fits : SpacesFit size sa spaces)
      (enough : ¬ Waits type size sa) :
      AllocEnds discardRemainSpaceSize isNormal type size sa woken (.ok spaces)
  | failed (normal : isNormal = true) (none : woken = none) :
      AllocEnds discardRemainSpaceSize isNormal type size sa woken .noTrunk
  | waited {given : List FSTrunkSpaceInfo} {later : FSStorageAllocatorManager}
      (normal : isNormal = true) (some : woken = some later)
      (waits : WaitsWith type size sa given) :
      AllocEnds discardRemainSpaceSize isNormal type size sa woken
        (allocLast discardRemainSpaceSize type (stillNeeded type size sa) given later)

/-- A client without enough trunks. -/
theorem ends_of_waits {given : List FSTrunkSpaceInfo} (waits : WaitsWith type size sa given)
    (rest : stillNeeded type size sa = alignedSize) :
    AllocEnds discardRemainSpaceSize isNormal type size sa woken
      (if isNormal = false then .eagain
      else
        match woken with
        | none => .noTrunk
        | some later => allocLast discardRemainSpaceSize type alignedSize given later) := by
  subst rest
  cases isNormal with
  | false => exact .reclaimer rfl
  | true =>
      cases woken with
      | none => exact .failed rfl rfl
      | some later => exact .waited rfl rfl waits

theorem memAlignCeil_le_block (limit : size ≤ fsFileBlockSize) :
    memAlignCeil size fsSpaceAlignSize ≤ fsFileBlockSize := by
  unfold memAlignCeil fsSpaceAlignSize fsFileBlockSize at *
  omega

theorem alloc_ends_of_none (sound : sa.ListsSound) (positive : 1 ≤ size)
    (head : sa.headTrunk type = none) :
    AllocEnds discardRemainSpaceSize isNormal type size sa woken
      (trunkFreelistAllocSpace discardRemainSpaceSize isNormal type size sa woken) := by
  have empty := trunks_of_headTrunk_none sound head
  have needed : stillNeeded type size sa = memAlignCeil size fsSpaceAlignSize := by
    unfold stillNeeded
    rw [head]
  have waits : WaitsWith type size sa [] := by
    refine ⟨⟨?_, fun key trunk found => ?_⟩, Or.inl rfl, ?_, ?_, nofun⟩
    · rw [empty]
      exact Nat.zero_le _
    · rw [head] at found
      cases found
    · exact (Int.zero_add _).trans needed
    · rw [needed]
      exact lt_of_lt_of_le (by omega) (le_memAlignCeil size).1
  unfold trunkFreelistAllocSpace allocRemain
  rw [head]
  dsimp only
  rw [if_pos empty]
  exact ends_of_waits waits needed

/-- The head has enough. -/
theorem alloc_ends_of_room (sound : sa.ListsSound) (positive : 1 ≤ size)
    (head : sa.headTrunk type = some (key, trunk)) (below : trunk.availSpace < 2 ^ 31)
    (room : memAlignCeil size fsSpaceAlignSize ≤ trunk.availSpace) :
    AllocEnds discardRemainSpaceSize isNormal type size sa woken
      (trunkFreelistAllocSpace discardRemainSpaceSize isNormal type size sa woken) := by
  obtain ⟨rest, list, present⟩ := cons_of_headTrunk head
  have fits := sound.fits key trunk present
  have whole : trunk.availSpace.bmod (2 ^ 32) = trunk.availSpace :=
    (bmod_eq_self_iff (Int.sub_nonneg_of_le fits.2.1)).mpr below
  have aligned : 0 < memAlignCeil size fsSpaceAlignSize :=
    lt_of_lt_of_le (by omega) (le_memAlignCeil size).1
  unfold trunkFreelistAllocSpace allocRemain
  rw [head]
  dsimp only
  rw [whole, if_neg (Int.not_lt.mpr room)]
  dsimp only
  rw [list, if_neg (List.cons_ne_nil _ _), allocLast_of_room head room]
  refine .served ⟨Or.inl rfl, Int.add_zero _, fun space member => ?_⟩ fun waits => ?_
  · rw [List.mem_singleton.mp member]
    exact inside_of_head sound head aligned room
  · exact absurd (waits.2 key trunk head) (Int.not_lt.mpr room)

/-- The head does not have enough, and the next trunk has. -/
theorem alloc_ends_of_less (sound : sa.ListsSound) (roomy : sa.Roomy) (limit : size ≤ fsFileBlockSize)
    (head : sa.headTrunk type = some (key, trunk)) (below : trunk.availSpace < 2 ^ 31)
    (less : trunk.availSpace < memAlignCeil size fsSpaceAlignSize) :
    AllocEnds discardRemainSpaceSize isNormal type size sa woken
      (trunkFreelistAllocSpace discardRemainSpaceSize isNormal type size sa woken) := by
  obtain ⟨rest, list, present⟩ := cons_of_headTrunk head
  have fits := sound.fits key trunk present
  have whole : trunk.availSpace.bmod (2 ^ 32) = trunk.availSpace :=
    (bmod_eq_self_iff (Int.sub_nonneg_of_le fits.2.1)).mpr below
  have some : 0 < trunk.availSpace := by
    rw [← availOf_eq present]
    refine roomy.head type key ?_
    rw [list]
    rfl
  have needed : stillNeeded type size sa =
      memAlignCeil size fsSpaceAlignSize - trunk.availSpace := by
    unfold stillNeeded
    rw [head]
  have half : allocRemain isNormal type (memAlignCeil size fsSpaceAlignSize) sa =
      if isNormal = false ∧ (sa.freelist type).count ≤ 1 then none
      else Option.some (memAlignCeil size fsSpaceAlignSize - trunk.availSpace,
        [⟨key.store, trunk.idInfo, trunk.freeStart, trunk.availSpace⟩],
        trunkFreelistRemove type (trunkAllocSpace key trunk trunk.availSpace sa).2) := by
    unfold allocRemain
    rw [head]
    dsimp only
    rw [whole, if_pos less, if_neg (Int.not_le.mpr some)]
    rfl
  unfold trunkFreelistAllocSpace
  rw [half]
  by_cases single : isNormal = false ∧ (sa.freelist type).count ≤ 1
  · rw [if_pos single]
    dsimp only
    rw [if_pos single]
    exact .reclaimer single.1
  · rw [if_neg single]
    dsimp only
    obtain ⟨others, taken, stored⟩ := cons_of_headTrunk
      (headTrunk_trunkAllocSpace head trunk.availSpace)
    have same : (trunkAllocSpace key trunk trunk.availSpace sa).2.freelist type =
        sa.freelist type := freelist_setAllocator (by rfl) type
    have tails : others = rest := by
      rw [same, list] at taken
      injection taken with _ equal
      exact equal.symm
    have relists := Relists.trunkFreelistRemove taken stored
    rw [relists.here, tails]
    have given : sa.Inside ⟨key.store, trunk.idInfo, trunk.freeStart, trunk.availSpace⟩ :=
      inside_of_head sound head some le_rfl
    cases rest with
    | nil =>
        rw [if_pos rfl]
        refine ends_of_waits ⟨⟨?_, fun other found isFound => ?_⟩, Or.inr rfl, ?_, ?_, ?_⟩ needed
        · rw [list]
          exact le_rfl
        · cases head.symm.trans isFound
          exact less
        · rw [needed]
          show trunk.availSpace + 0 + _ = _
          omega
        · rw [needed]
          omega
        · intro space member
          rw [List.mem_singleton.mp member]
          exact given
    | cons next behind =>
        rw [if_neg (List.cons_ne_nil _ _)]
        subst tails
        -- the next trunk is as it was, with the room of a block
        have apart : next ≠ key := by
          have nodup := sound.nodup type
          rw [list] at nodup
          rintro rfl
          exact (List.nodup_cons.mp nodup).1 List.mem_cons_self
        have free : sa.Free next := ⟨type, list ▸ List.mem_cons_of_mem _ List.mem_cons_self⟩
        obtain ⟨second, isSecond, -⟩ := sound.allocing next free
        have untouched : (trunkFreelistRemove type
            (trunkAllocSpace key trunk trunk.availSpace sa).2).headTrunk type =
              Option.some (next, second) := by
          unfold headTrunk
          rw [relists.here]
          dsimp only
          have here : (trunkAllocSpace key trunk trunk.availSpace sa).2.trunks next =
              Option.some second := by
            show Function.update sa.trunks key _ next = _
            rw [Function.update_of_ne apart]
            exact isSecond
          rw [trunks_trunkFreelistRemove_of_ne taken apart, here]
          rfl
        have room : fsFileBlockSize ≤ second.availSpace := by
          rw [← availOf_eq isSecond]
          refine roomy.tail type next ?_
          rw [list]
          exact List.mem_cons_self
        have enough : memAlignCeil size fsSpaceAlignSize - trunk.availSpace ≤ second.availSpace := by
          have aligned := memAlignCeil_le_block limit
          omega
        rw [allocLast_of_room untouched enough]
        have nextFits := sound.fits next second isSecond
        refine .served ⟨Or.inr rfl, ?_, fun space member => ?_⟩ fun waits => ?_
        · show trunk.availSpace + (memAlignCeil size fsSpaceAlignSize - trunk.availSpace + 0) = _
          omega
        · rcases List.mem_pair.mp member with rfl | rfl
          · exact given
          · refine ⟨second, ?_, nextFits.1, Int.sub_pos_of_lt less, ?_⟩
            · have named : (⟨next.store, second.idInfo.id⟩ : TrunkKey) = next := by
                rw [sound.named next second isSecond]
              unfold FSTrunkSpaceInfo.trunk
              dsimp only
              rw [named]
              exact isSecond
            · unfold FSTrunkFileInfo.availSpace at enough ⊢
              dsimp only
              omega
        · have few := waits.1
          rw [list] at few
          exact absurd few (by simp)

theorem alloc_ends (sound : sa.ListsSound) (roomy : sa.Roomy) (positive : 1 ≤ size)
    (limit : size ≤ fsFileBlockSize)
    (below : ∀ key trunk, sa.headTrunk type = some (key, trunk) → trunk.availSpace < 2 ^ 31) :
    AllocEnds discardRemainSpaceSize isNormal type size sa woken
      (trunkFreelistAllocSpace discardRemainSpaceSize isNormal type size sa woken) := by
  cases head : sa.headTrunk type with
  | none => exact alloc_ends_of_none sound positive head
  | some found =>
      obtain ⟨key, trunk⟩ := found
      rcases lt_or_ge trunk.availSpace (memAlignCeil size fsSpaceAlignSize) with less | room
      · exact alloc_ends_of_less sound roomy limit head (below key trunk head) less
      · exact alloc_ends_of_room sound positive head (below key trunk head) room

/-- The remainder of the head is exact when it is less than 2 GB. -/
theorem remain_iff_below (sound : sa.ListsSound) :
    (∀ key trunk, sa.headTrunk type = some (key, trunk) →
        trunk.availSpace.bmod (2 ^ 32) = trunk.availSpace) ↔
      ∀ key trunk, sa.headTrunk type = some (key, trunk) → trunk.availSpace < 2 ^ 31 := by
  refine forall₃_congr fun key trunk head => bmod_eq_self_iff ?_
  obtain ⟨rest, list, present⟩ := cons_of_headTrunk head
  exact Int.sub_nonneg_of_le (sound.fits key trunk present).2.1

theorem AllocEnds.safe {result : AllocResult} (sound : sa.ListsSound)
    (soundWoken : ∀ later ∈ woken, later.ListsSound) (ready : AllocReady isNormal type size sa woken)
    (ends : AllocEnds discardRemainSpaceSize isNormal type size sa woken result) :
    AllocSafe isNormal type size sa woken result := by
  have remain := (remain_iff_below sound).mpr ready.below
  cases ends with
  | reclaimer reclaims =>
      refine ⟨remain, nofun, fun normal => ?_, nofun, nofun, nofun⟩
      exact nomatch normal.symm.trans reclaims
  | served fits enough =>
      refine ⟨remain, nofun, nofun, ?_, ?_, ?_⟩
      · rintro _ ⟨⟩
        exact fits.count
      · rintro _ ⟨⟩
        exact fits.total
      · rintro _ ⟨⟩ space member
        exact Or.inl (fits.inside space member)
  | failed normal none => exact ⟨remain, nofun, nofun, nofun, nofun, nofun⟩
  | @waited given later normal some waits =>
      cases head : later.headTrunk type with
      | none =>
          rw [allocLast_of_none head]
          exact ⟨remain, nofun, nofun, nofun, nofun, nofun⟩
      | some found =>
          obtain ⟨key, trunk⟩ := found
          have room := ready.found normal waits.waits later some key trunk head
          rw [allocLast_of_room head room]
          refine ⟨remain, nofun, nofun, ?_, ?_, ?_⟩
          · rintro _ ⟨⟩
            rw [List.length_append, List.length_singleton]
            have count := waits.count
            omega
          · rintro _ ⟨⟩
            rw [List.map_append, List.sum_append, List.map_singleton, List.sum_singleton]
            exact waits.total
          · rintro _ ⟨⟩ space member
            rcases List.mem_append.mp member with before | last
            · exact Or.inl (waits.inside space before)
            · rw [List.mem_singleton.mp last]
              exact Or.inr ⟨later, some, inside_of_head (soundWoken later some) head waits.needed room⟩

theorem AllocEnds.found {result : AllocResult}
    (ends : AllocEnds discardRemainSpaceSize isNormal type size sa woken result)
    (normal : isNormal = true) (answers : result ≠ .eagain) (waits : Waits type size sa)
    {later : FSStorageAllocatorManager} (isWoken : woken = some later)
    (head : later.headTrunk type = some (key, trunk)) :
    stillNeeded type size sa ≤ trunk.availSpace := by
  cases ends with
  | reclaimer reclaims => exact nomatch normal.symm.trans reclaims
  | served fits enough => exact absurd waits enough
  | failed _ none => exact nomatch none.symm.trans isWoken
  | waited _ some _ =>
      cases some.symm.trans isWoken
      by_contra less
      exact answers (allocLast_of_less head (Int.not_le.mp less))

/-- In every state of a run an allocation does what it shall do exactly when the head has less
than 2 GB left and a client that has waited finds what it needs. -/
theorem alloc_space_safe_iff {trunkFileSize discardSize : Int} {s : FreelistState}
    (reached : Reachable (FreelistStep (loadStorageConfig trunkFileSize discardSize)) StockInit s)
    {isNormal : Bool} {type : FSTrunkFreelistType} {size : Int} (positive : 1 ≤ size)
    (limit : size ≤ fsFileBlockSize) {woken : Option FSStorageAllocatorManager}
    (later : ∀ sallocator ∈ woken, ∃ other : FreelistState, other.sallocator = sallocator ∧
      Reachable (FreelistStep (loadStorageConfig trunkFileSize discardSize)) StockInit other) :
    AllocSafe isNormal type size s.sallocator woken
        (trunkFreelistAllocSpace
          (loadStorageConfig trunkFileSize discardSize).discardRemainSpaceSize isNormal type size
          s.sallocator woken) ↔
      AllocReady isNormal type size s.sallocator woken := by
  obtain ⟨sound, roomy⟩ := FreelistState.roomy_of_reachable reached
  have soundWoken : ∀ sallocator ∈ woken, sallocator.ListsSound := by
    intro sallocator isWoken
    obtain ⟨other, rfl, reachedLater⟩ := later sallocator isWoken
    exact (FreelistState.roomy_of_reachable reachedLater).1.lists
  constructor
  · intro safe
    have below := (remain_iff_below sound.lists).mp safe.remain
    refine ⟨below, fun normal waits sallocator isWoken key trunk head => ?_⟩
    exact (alloc_ends sound.lists roomy positive limit below).found normal (safe.normal normal) waits
      isWoken head
  · intro ready
    exact (alloc_ends sound.lists roomy positive limit ready.below).safe sound.lists soundWoken ready

/-- Two loaded trunks without slices, of the same size. -/
def emptyTrunks (size : Int) : FreelistState :=
  ⟨⟨fun key =>
      if key = ⟨0, 1⟩ then some ⟨⟨1, 0⟩, .none, 0, 0, [], size, 0, .none, 0⟩
      else if key = ⟨0, 2⟩ then some ⟨⟨2, 0⟩, .none, 0, 0, [], size, 0, .none, 0⟩
      else none,
    fun _ => ⟨[], ⟨[], 0, 2⟩, 0, [], 0, 0⟩, ⟨[], 0, 0⟩⟩, [], fun _ => none⟩

theorem stockInit_emptyTrunks {size : Int} (least : fsTrunkFileMinSize ≤ size)
    (most : size ≤ fsTrunkFileMaxSize) : StockInit (emptyTrunks size) := by
  have cases_of {key : TrunkKey} {trunk : FSTrunkFileInfo}
      (found : (emptyTrunks size).sallocator.trunks key = some trunk) :
      trunk.idInfo.id = key.id ∧ trunk.Fits ∧ fsTrunkFileMinSize ≤ trunk.size := by
    simp only [emptyTrunks] at found
    split_ifs at found with first second
    · cases found
      rw [first]
      exact ⟨rfl, ⟨le_rfl, (by decide : (0 : Int) ≤ fsTrunkFileMinSize).trans least, most⟩, least⟩
    · cases found
      rw [second]
      exact ⟨rfl, ⟨le_rfl, (by decide : (0 : Int) ≤ fsTrunkFileMinSize).trans least, most⟩, least⟩
  refine ⟨⟨fun key trunk found => (cases_of found).1, fun key trunk found => (cases_of found).2.1,
    fun type => ?_, fun _ => rfl, fun _ => rfl, fun _ => rfl, rfl, fun _ => rfl⟩,
    fun key trunk found => (cases_of found).2.2⟩
  cases type <;> exact ⟨rfl, rfl⟩

/-- Both trunks are put in their places. -/
def stockedTrunks (size : Int) : FreelistState :=
  [FreelistAction.ready ⟨0, 1⟩ true, .ready ⟨0, 2⟩ true].foldl
    (FreelistState.next (loadStorageConfig size 4096)) (emptyTrunks size)

theorem alloc_space_safe_iff_small :
    trunkFreelistAllocSpace 4096 true (.normal 0) 100 (stockedTrunks (64 * 1024 * 1024)).sallocator
        none = .ok [⟨0, ⟨1, 0⟩, 0, 104⟩] ∧
      AllocSafe true (.normal 0) 100 (stockedTrunks (64 * 1024 * 1024)).sallocator none
        (.ok [⟨0, ⟨1, 0⟩, 0, 104⟩]) := by
  have start : Reachable (FreelistStep (loadStorageConfig (64 * 1024 * 1024) 4096)) StockInit
      (emptyTrunks (64 * 1024 * 1024)) := .start (stockInit_emptyTrunks (by decide) (by decide))
  have reached := start.follow [.ready ⟨0, 1⟩ true, .ready ⟨0, 2⟩ true] (by decide +kernel)
  have done : trunkFreelistAllocSpace 4096 true (.normal 0) 100
      (stockedTrunks (64 * 1024 * 1024)).sallocator none = .ok [⟨0, ⟨1, 0⟩, 0, 104⟩] := by
    decide +kernel
  have safe := (alloc_space_safe_iff reached (by decide : (1 : Int) ≤ 100) (by decide) nofun :
    AllocSafe true (.normal 0) 100 _ none _ ↔ _).mpr ⟨?_, nofun⟩
  · exact ⟨done, done ▸ safe⟩
  · intro key trunk head
    have avail : ((stockedTrunks (64 * 1024 * 1024)).sallocator.headTrunk (.normal 0)).map
        (fun found => found.2.availSpace) = some (64 * 1024 * 1024) := by decide +kernel
    rw [show (stockedTrunks (64 * 1024 * 1024)).sallocator.headTrunk (.normal 0) =
      some (key, trunk) from head] at avail
    have left : trunk.availSpace = 64 * 1024 * 1024 := Option.some.inj avail
    rw [left]
    decide

/-- With trunk files of 4 GB the remainder of an empty trunk is zero as an `int`: the first
allocation aborts. -/
theorem alloc_space_aborts :
    ¬ ∀ (trunkFileSize discardSize : Int) (s : FreelistState) (size : Int),
      Reachable (FreelistStep (loadStorageConfig trunkFileSize discardSize)) StockInit s →
      1 ≤ size → size ≤ fsFileBlockSize →
      AllocSafe true (.normal 0) size s.sallocator none
        (trunkFreelistAllocSpace
          (loadStorageConfig trunkFileSize discardSize).discardRemainSpaceSize true (.normal 0) size
          s.sallocator none) := by
  intro safe
  have start : Reachable (FreelistStep (loadStorageConfig (4 * 1024 * 1024 * 1024) 4096)) StockInit
      (emptyTrunks (4 * 1024 * 1024 * 1024)) := .start (stockInit_emptyTrunks (by decide) (by decide))
  have reached := start.follow [.ready ⟨0, 1⟩ true, .ready ⟨0, 2⟩ true] (by decide +kernel)
  exact (safe _ _ _ 100 reached (by decide) (by decide)).runs (by decide +kernel)

end FastStore.Storage
