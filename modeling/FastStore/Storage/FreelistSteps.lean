import FastStore.Storage.FreelistSpace

/-!
# What the freelist operations keep

Adding a trunk to a freelist, giving space out and removing a trunk each change the free
space of one trunk and `trunk_stat.avail` of its path.  Every operation keeps the lists sound
and the difference of the two.
-/

namespace FastStore.Storage

open FastStore.Util

namespace FSStorageAllocatorManager

variable {sa : FSStorageAllocatorManager} {key : TrunkKey} {trunk updated : FSTrunkFileInfo}
  {store : Nat} {type : FSTrunkFreelistType}

/-- What an operation keeps: the available space is as exact as before, and no trunk leaves the
trunks by size. -/
structure Keeps (before after : FSStorageAllocatorManager) : Prop where
  sound : after.ListsSound
  surplus : ∀ store, after.surplus store = before.surplus store
  bySize : ∀ store, ∀ key ∈ (before.allocators store).bySize, key ∈ (after.allocators store).bySize

namespace Keeps

variable {before middle after : FSStorageAllocatorManager}

theorem refl (sound : before.ListsSound) : Keeps before before :=
  ⟨sound, fun _ => rfl, fun _ _ member => member⟩

theorem trans (first : Keeps before middle) (second : Keeps middle after) : Keeps before after := by
  refine ⟨second.sound, fun store => ?_, fun store key member => ?_⟩
  · rw [second.surplus, first.surplus]
  · exact second.bySize store key (first.bySize store key member)

end Keeps

theorem cons_of_headTrunk (head : sa.headTrunk type = some (key, trunk)) :
    ∃ rest, (sa.freelist type).trunks = key :: rest ∧ sa.trunks key = some trunk := by
  unfold headTrunk at head
  cases list : (sa.freelist type).trunks with
  | nil =>
      rw [list] at head
      cases head
  | cons first rest =>
      rw [list] at head
      obtain ⟨found, present, same⟩ := Option.map_eq_some_iff.mp head
      cases same
      exact ⟨rest, rfl, present⟩

theorem setAllocator_bySize {other : Nat} {allocator : FSTrunkAllocator}
    (bySize : allocator.bySize = (sa.allocators other).bySize) (store : Nat) :
    ((sa.setAllocator other allocator).allocators store).bySize = (sa.allocators store).bySize := by
  rw [setAllocator_allocators]
  by_cases same : store = other
  · subst same
    rw [Function.update_self, bySize]
  · rw [Function.update_of_ne same]

theorem pushReclaimQueue_bySize (key : TrunkKey) (store : Nat) :
    ((sa.pushReclaimQueue key).allocators store).bySize = (sa.allocators store).bySize :=
  setAllocator_bySize (by rfl) store

theorem addStatAvail_bySize (other : Nat) (bytes : Int) (store : Nat) :
    ((sa.addStatAvail other bytes).allocators store).bySize = (sa.allocators store).bySize :=
  setAllocator_bySize (by rfl) store

/-! ## Slices come and go -/

theorem Keeps.pushReclaimQueue (sound : sa.ListsSound) (key : TrunkKey) :
    Keeps sa (sa.pushReclaimQueue key) := by
  refine ⟨sound.pushReclaimQueue key, fun store => surplus_pushReclaimQueue, ?_⟩
  intro store other member
  rw [pushReclaimQueue_bySize]
  exact member

/-- A trunk that keeps its name, status, place and free space. -/
theorem Keeps.setTrunk_same (sound : sa.ListsSound) (present : sa.trunks key = some trunk)
    (named : updated.idInfo = trunk.idInfo) (status : updated.status = trunk.status)
    (event : updated.utilEvent = .create → trunk.utilEvent = .create)
    (used : updated.utilLastUsedBytes = trunk.utilLastUsedBytes)
    (space : updated.freeStart = trunk.freeStart) (size : updated.size = trunk.size) :
    Keeps sa (sa.setTrunk key updated) := by
  refine ⟨?_, fun store => ?_, fun _ _ member => member⟩
  · refine sound.setTrunk_same present named status event used ?_
    have fits := sound.fits key trunk present
    unfold FSTrunkFileInfo.Fits at fits ⊢
    rw [space, size]
    exact fits
  · refine surplus_setTrunk_of_avail sound present ?_
    unfold FSTrunkFileInfo.availSpace
    rw [space, size]

theorem Keeps.addStatUsed (sound : sa.ListsSound) (store : Nat) (bytes : Int) :
    Keeps sa (addStatUsed store bytes sa) := by
  refine ⟨sound.addStatUsed store bytes, fun other => surplus_setAllocator_same rfl rfl, ?_⟩
  intro other key member
  unfold Storage.addStatUsed
  rw [setAllocator_bySize (by rfl)]
  exact member

theorem Keeps.pushTrunkUtilChangeEvent (sound : sa.ListsSound) (key : TrunkKey)
    (event : FSTrunkUtilEvent) (outside : event = .create → ¬ sa.InBySize key) :
    Keeps sa (pushTrunkUtilChangeEvent key event sa) := by
  have after := sound.pushTrunkUtilChangeEvent key event outside
  unfold Storage.pushTrunkUtilChangeEvent at after ⊢
  cases present : sa.trunks key with
  | none => exact Keeps.refl sound
  | some trunk =>
      rw [present] at after
      dsimp only at after ⊢
      split_ifs at after ⊢
      · refine ⟨after, fun store => ?_, fun store other member => ?_⟩
        · rw [surplus_setAllocator_same (by rfl) (by rfl)]
          exact surplus_setTrunk_of_avail sound present rfl
        · rw [setAllocator_bySize (by rfl)]
          exact member
      · exact Keeps.refl sound

theorem Keeps.trunkAllocatorAddSlice (sound : sa.ListsSound) (slice : OBSliceEntry) :
    Keeps sa (trunkAllocatorAddSlice slice sa).2 := by
  unfold Storage.trunkAllocatorAddSlice
  cases present : sa.trunks slice.space.trunk with
  | none => exact Keeps.refl sound
  | some trunk => exact Keeps.setTrunk_same sound present rfl rfl id rfl rfl rfl

theorem Keeps.trunkAllocatorDeleteSlice (sound : sa.ListsSound) (slice : OBSliceEntry) :
    Keeps sa (trunkAllocatorDeleteSlice slice sa).2 := by
  unfold Storage.trunkAllocatorDeleteSlice
  cases present : sa.trunks slice.space.trunk with
  | none => exact Keeps.refl sound
  | some trunk =>
      let left : FSTrunkFileInfo :=
        { trunk with
          usedBytes := trunk.usedBytes - slice.space.size
          usedCount := trunk.usedCount - 1
          usedSlices := trunk.usedSlices.erase slice }
      have freed : Keeps sa (sa.setTrunk slice.space.trunk left) :=
        Keeps.setTrunk_same sound present rfl rfl id rfl rfl rfl
      exact freed.trans (Keeps.pushTrunkUtilChangeEvent freed.sound _ _ nofun)

theorem Keeps.storageAllocatorAddSlice (sound : sa.ListsSound) (slice : OBSliceEntry)
    (modifyUsedSpace : Bool) : Keeps sa (storageAllocatorAddSlice slice modifyUsedSpace sa).2 := by
  unfold Storage.storageAllocatorAddSlice
  cases modifyUsedSpace with
  | false => exact Keeps.trunkAllocatorAddSlice sound slice
  | true =>
      have counted := Keeps.addStatUsed sound slice.space.store slice.space.size
      exact counted.trans (Keeps.trunkAllocatorAddSlice counted.sound slice)

theorem Keeps.storageAllocatorDeleteSlice (sound : sa.ListsSound) (slice : OBSliceEntry)
    (modifyUsedSpace : Bool) :
    Keeps sa (storageAllocatorDeleteSlice slice modifyUsedSpace sa).2 := by
  unfold Storage.storageAllocatorDeleteSlice
  cases modifyUsedSpace with
  | false => exact Keeps.trunkAllocatorDeleteSlice sound slice
  | true =>
      have counted := Keeps.addStatUsed sound slice.space.store (-slice.space.size)
      exact counted.trans (Keeps.trunkAllocatorDeleteSlice counted.sound slice)

/-! ## Into a freelist and out of it -/

/-- A freelist whose trunks are allocated from, and are in no other freelist. -/
theorem ListsSound.setFreelist (sound : sa.ListsSound) {freelist : FSTrunkFreelist}
    (count : freelist.count = freelist.trunks.length) (nodup : freelist.trunks.Nodup)
    (suits : ∀ key ∈ freelist.trunks, Suits key type)
    (once : ∀ key ∈ freelist.trunks, ∀ other, key ∈ (sa.freelist other).trunks → other = type)
    (allocing : ∀ key ∈ freelist.trunks,
      ∃ trunk, sa.trunks key = some trunk ∧ trunk.status = .allocing) :
    (sa.setFreelist freelist type).ListsSound := by
  have lists := @freelist_setFreelist sa freelist type
  have trunks : (sa.setFreelist freelist type).trunks = sa.trunks := trunks_setFreelist freelist type
  have bySize : ∀ store, ((sa.setFreelist freelist type).allocators store).bySize =
      (sa.allocators store).bySize := fun store => (allocators_setFreelist freelist type store).1
  refine ⟨?_, ?_, fun other => ?_, fun other => ?_, fun store key member => ?_,
    fun other another key first second => ?_, fun key place => ?_, fun store key member => ?_,
    fun store => ?_, fun key found stored event place => ?_, fun store => ?_⟩
  · rw [trunks]
    exact sound.named
  · rw [trunks]
    exact sound.fits
  · rw [lists]
    split_ifs
    · exact count
    · exact sound.count other
  · rw [lists]
    split_ifs
    · exact nodup
    · exact sound.nodup other
  · rw [lists] at member
    split_ifs at member with same
    · exact suits key member store same.symm
    · exact sound.own store key member
  · rw [lists] at first second
    split_ifs at first second with left right right
    · rw [left, right]
    · rw [left, once key first another second]
    · rw [right, once key second other first]
    · exact sound.once other another key first second
  · rw [trunks]
    obtain ⟨other, member⟩ := place
    rw [lists] at member
    split_ifs at member
    · exact allocing key member
    · exact sound.allocing key ⟨other, member⟩
  · rw [bySize] at member
    rw [trunks]
    exact sound.bySize store key member
  · rw [bySize]
    refine (sound.ordered store).imp fun {first second} before => ?_
    unfold SizeIdLt lastUsedBytes
    rw [trunks]
    exact before
  · rw [trunks] at stored
    obtain ⟨store, member⟩ := place
    rw [bySize] at member
    exact sound.created key found stored event ⟨store, member⟩
  · rw [(allocators_setFreelist freelist type store).2]
    exact sound.queue store

/-- `trunk_freelist_add`, for a trunk that is neither in a freelist nor ordered in by size. -/
theorem Keeps.trunkFreelistAdd (sound : sa.ListsSound) (suits : Suits key type)
    (notFree : ¬ sa.Free key) (outside : ¬ sa.InBySize key) :
    Keeps sa (trunkFreelistAdd type key sa) := by
  unfold Storage.trunkFreelistAdd
  cases present : sa.trunks key with
  | none => exact Keeps.refl sound
  | some trunk =>
      dsimp only
      let allocing : FSTrunkFileInfo := { trunk with status := .allocing }
      let longer : FSTrunkFreelist :=
        { sa.freelist type with
          trunks := (sa.freelist type).trunks ++ [key]
          count := (sa.freelist type).count + 1 }
      -- the order in which the status and the list change does not matter
      have swap : (sa.setFreelist longer type).setTrunk key allocing =
          (sa.setTrunk key allocing).setFreelist longer type := by
        cases type <;> rfl
      have marked : (sa.setTrunk key allocing).ListsSound :=
        sound.setTrunk (sound.named key trunk present) (sound.fits key trunk present)
          (fun _ => rfl) fun place => absurd place outside
      have stored : (sa.setTrunk key allocing).trunks key = some allocing := by
        simp
      have fresh : key ∉ (sa.freelist type).trunks := fun member => notFree ⟨type, member⟩
      have added : ((sa.setTrunk key allocing).setFreelist longer type).ListsSound := by
        refine marked.setFreelist ?_ ?_ (fun other member => ?_) (fun other member list inList => ?_)
          fun other member => ?_
        · show (sa.freelist type).count + 1 = _
          rw [sound.count type]
          simp [longer]
        · exact List.nodup_append_comm.mp (List.nodup_cons.mpr ⟨fresh, sound.nodup type⟩)
        · rcases List.mem_append.mp member with before | new
          · intro store normal
            subst normal
            exact sound.own store other before
          · rw [List.mem_singleton.mp new]
            exact suits
        · rcases List.mem_append.mp member with before | new
          · exact sound.once _ _ other inList before
          · rw [List.mem_singleton.mp new] at inList
            exact absurd ⟨list, inList⟩ notFree
        · rcases List.mem_append.mp member with before | new
          · exact marked.allocing other ⟨type, before⟩
          · rw [List.mem_singleton.mp new]
            exact ⟨allocing, stored, rfl⟩
      rw [swap]
      refine ⟨added.addStatAvail _ _, fun other => ?_, fun other member inList => ?_⟩
      · have perm : longer.trunks.Perm (key :: (sa.freelist type).trunks) :=
          List.perm_append_comm
        have counts : ((sa.setTrunk key allocing).setFreelist (sa.freelist type) type).surplus other =
            ((sa.setTrunk key allocing).setFreelist longer type).surplus other +
              if key.store = other then (sa.setTrunk key allocing).availOf key else 0 :=
          surplus_setFreelist suits perm
        have same : (sa.setTrunk key allocing).setFreelist (sa.freelist type) type =
            sa.setTrunk key allocing := by
          have again : (sa.setTrunk key allocing).setFreelist
              ((sa.setTrunk key allocing).freelist type) type = sa.setTrunk key allocing :=
            setFreelist_self
          cases type <;> exact again
        rw [same, availOf_eq stored] at counts
        rw [surplus_addStatAvail]
        have unchanged : (sa.setTrunk key allocing).surplus other = sa.surplus other :=
          surplus_setTrunk_of_avail sound present rfl
        have avail : allocing.availSpace = trunk.availSpace := rfl
        rw [avail] at counts
        omega
      · rw [addStatAvail_bySize, (allocators_setFreelist longer type other).1]
        exact inList

/-- The trunk that leaves a freelist takes its free space out of the sum. -/
theorem trunkFreelistRemove_spec (sound : sa.ListsSound)
    (head : sa.headTrunk type = some (key, trunk)) :
    (trunkFreelistRemove type sa).ListsSound ∧
      (∀ store, (trunkFreelistRemove type sa).surplus store =
        sa.surplus store + if key.store = store then trunk.availSpace else 0) ∧
      ∀ store, ((trunkFreelistRemove type sa).allocators store).bySize =
        (sa.allocators store).bySize := by
  obtain ⟨rest, list, present⟩ := cons_of_headTrunk head
  have member : key ∈ (sa.freelist type).trunks := list ▸ List.mem_cons_self
  have nodup : (key :: rest).Nodup := list ▸ sound.nodup type
  have fresh : key ∉ rest := (List.nodup_cons.mp nodup).1
  let shorter : FSTrunkFreelist :=
    { sa.freelist type with
      trunks := rest
      count := (sa.freelist type).count - 1 }
  let removed : FSTrunkFileInfo := { trunk with status := .none, utilEvent := .create }
  have suits : Suits key type := fun store normal => sound.own store key (normal ▸ member)
  have popped : (sa.setFreelist shorter type).ListsSound := by
    have inside : ∀ other ∈ rest, other ∈ (sa.freelist type).trunks := by
      intro other later
      rw [list]
      exact List.mem_cons_of_mem _ later
    refine sound.setFreelist ?_ (List.nodup_cons.mp nodup).2 (fun other later store normal => ?_)
      (fun other later _ inList => sound.once _ _ other inList (inside other later))
      fun other later => sound.allocing other ⟨type, inside other later⟩
    · show (sa.freelist type).count - 1 = _
      rw [sound.count type, list]
      simp [shorter]
    · subst normal
      exact sound.own store other (inside other later)
  have notFree : ¬ (sa.setFreelist shorter type).Free key := by
    rintro ⟨other, inList⟩
    rw [freelist_setFreelist] at inList
    split_ifs at inList with same
    · exact fresh inList
    · exact same (sound.once _ _ key inList member)
  have stored : (sa.setFreelist shorter type).trunks key = some trunk := by
    rw [trunks_setFreelist]
    exact present
  have outside : ¬ (sa.setFreelist shorter type).InBySize key := by
    rintro ⟨store, inOrder⟩
    rw [(allocators_setFreelist shorter type store).1] at inOrder
    exact sound.not_inBySize_of_free ⟨type, member⟩ ⟨store, inOrder⟩
  have freed : ((sa.setFreelist shorter type).setTrunk key removed).ListsSound :=
    popped.setTrunk (sound.named key trunk present) (sound.fits key trunk present)
      (fun free => absurd free notFree) fun place => absurd place outside
  have counts : ∀ store, ((sa.setFreelist shorter type).setTrunk key removed).surplus store =
      sa.surplus store + if key.store = store then trunk.availSpace else 0 := by
    intro store
    have taken : (sa.setFreelist shorter type).surplus store =
        (sa.setFreelist (sa.freelist type) type).surplus store +
          if key.store = store then sa.availOf key else 0 :=
      surplus_setFreelist suits (List.Perm.of_eq list)
    rw [setFreelist_self, availOf_eq present] at taken
    rw [surplus_setTrunk_same popped fun free => absurd free notFree]
    exact taken
  have bySize : ∀ store, (((sa.setFreelist shorter type).setTrunk key removed).allocators
      store).bySize = (sa.allocators store).bySize :=
    fun store => (allocators_setFreelist shorter type store).1
  unfold trunkFreelistRemove
  rw [list]
  dsimp only
  rw [present]
  dsimp only
  split_ifs
  · refine ⟨freed.pushReclaimQueue key, fun store => ?_, fun store => ?_⟩
    · rw [surplus_pushReclaimQueue]
      exact counts store
    · rw [pushReclaimQueue_bySize]
      exact bySize store
  · exact ⟨freed, counts, bySize⟩

/-- A piece of a trunk in a freelist is given out: `trunk_stat.avail` and the free space of the
trunk shrink alike. -/
theorem Keeps.trunkAllocSpace (sound : sa.ListsSound) (free : sa.Free key)
    (present : sa.trunks key = some trunk) {allocSize : Int} (positive : 0 ≤ allocSize)
    (room : allocSize ≤ trunk.availSpace) :
    Keeps sa (trunkAllocSpace key trunk allocSize sa).2 := by
  have fits := sound.fits key trunk present
  have taken : (sa.setTrunk key
      { trunk with freeStart := trunk.freeStart + allocSize }).ListsSound := by
    refine sound.setTrunk_same present rfl rfl id rfl ?_
    unfold FSTrunkFileInfo.Fits FSTrunkFileInfo.availSpace at *
    dsimp only
    omega
  unfold Storage.trunkAllocSpace
  refine ⟨?_, fun store => ?_, fun store other member => ?_⟩
  · exact taken.setAllocator_same rfl rfl (sound.queue key.store)
  · unfold FSStorageAllocatorManager.surplus
    rw [freeBytes_setAllocator (by rfl), freeBytes_setTrunk sound free, setAllocator_allocators,
      availOf_eq present]
    by_cases same : store = key.store
    · subst same
      rw [Function.update_self, if_pos rfl]
      unfold FSTrunkFileInfo.availSpace
      dsimp only
      omega
    · rw [Function.update_of_ne same, if_neg fun equal => same equal.symm, setTrunk_allocators]
      omega
  · dsimp only
    rw [setAllocator_bySize (by rfl)]
    exact member

/-- The trunk a piece was taken of is still the head. -/
theorem headTrunk_trunkAllocSpace (head : sa.headTrunk type = some (key, trunk)) (allocSize : Int) :
    (trunkAllocSpace key trunk allocSize sa).2.headTrunk type =
      some (key, { trunk with freeStart := trunk.freeStart + allocSize }) := by
  obtain ⟨rest, list, present⟩ := cons_of_headTrunk head
  have same : (trunkAllocSpace key trunk allocSize sa).2.freelist type = sa.freelist type :=
    freelist_setAllocator (by rfl) type
  unfold FSStorageAllocatorManager.headTrunk
  rw [same, list]
  simp [trunkAllocSpace]

/-! ## Allocating -/

/-- An `int` that is made of a size up to 4 GB is exact when it is positive. -/
theorem bmod_eq_of_pos {size : Int} (positive : 0 ≤ size) (limit : size ≤ fsTrunkFileMaxSize)
    (remain : 0 < size.bmod (2 ^ 32)) : size.bmod (2 ^ 32) = size := by
  unfold fsTrunkFileMaxSize at limit
  unfold Int.bmod at remain ⊢
  norm_num at remain ⊢
  split_ifs at remain ⊢ <;> omega

/-- A head with too little room gives all of it and leaves. -/
theorem Keeps.allocRemain (sound : sa.ListsSound) {isNormal : Bool} {alignedSize : Int}
    {result : Int × List FSTrunkSpaceInfo × FSStorageAllocatorManager}
    (done : allocRemain isNormal type alignedSize sa = some result) :
    Keeps sa result.2.2 ∧ (0 ≤ alignedSize → 0 ≤ result.1) := by
  unfold Storage.allocRemain at done
  cases head : sa.headTrunk type with
  | none =>
      rw [head] at done
      cases done
      exact ⟨Keeps.refl sound, id⟩
  | some found =>
      obtain ⟨key, trunk⟩ := found
      rw [head] at done
      dsimp only at done
      split_ifs at done with less _ empty
      · cases done
        obtain ⟨rest, list, present⟩ := cons_of_headTrunk head
        have free : sa.Free key := ⟨type, list ▸ List.mem_cons_self⟩
        have fits := sound.fits key trunk present
        have whole : trunk.availSpace.bmod (2 ^ 32) = trunk.availSpace := by
          unfold FSTrunkFileInfo.Fits at fits
          refine bmod_eq_of_pos ?_ ?_ (Int.not_le.mp empty)
          · exact Int.sub_nonneg_of_le fits.2.1
          · exact (Int.sub_le_self _ fits.1).trans fits.2.2
        rw [whole] at empty less ⊢
        have taken := Keeps.trunkAllocSpace sound free present (Int.not_le.mp empty).le le_rfl
        have removed := trunkFreelistRemove_spec taken.sound
          (headTrunk_trunkAllocSpace head trunk.availSpace)
        refine ⟨⟨removed.1, fun store => ?_, fun store other member => ?_⟩, fun _ => ?_⟩
        · rw [removed.2.1 store, taken.surplus store]
          unfold FSTrunkFileInfo.availSpace
          dsimp only
          split_ifs <;> omega
        · rw [removed.2.2 store]
          exact taken.bySize store other member
        · dsimp only
          omega
      · cases done
        exact ⟨Keeps.refl sound, id⟩

/-- The rest is given out, and what is discarded with a trunk is subtracted. -/
theorem Keeps.allocRest (sound : sa.ListsSound) {discardRemainSpaceSize alignedSize : Int}
    (positive : 0 ≤ alignedSize) {result : FSTrunkSpaceInfo × FSStorageAllocatorManager}
    (done : allocRest discardRemainSpaceSize type alignedSize sa = some result) :
    Keeps sa result.2 := by
  unfold Storage.allocRest at done
  cases head : sa.headTrunk type with
  | none =>
      rw [head] at done
      cases done
  | some found =>
      obtain ⟨key, trunk⟩ := found
      rw [head] at done
      dsimp only at done
      split_ifs at done with less discarded
      · cases done
        obtain ⟨rest, list, present⟩ := cons_of_headTrunk head
        have free : sa.Free key := ⟨type, list ▸ List.mem_cons_self⟩
        have taken := Keeps.trunkAllocSpace sound free present positive (Int.not_lt.mp less)
        have removed := trunkFreelistRemove_spec taken.sound
          (headTrunk_trunkAllocSpace head alignedSize)
        refine ⟨removed.1.addStatAvail _ _, fun store => ?_, fun store other member => ?_⟩
        · rw [surplus_addStatAvail, removed.2.1 store, taken.surplus store]
          unfold FSTrunkFileInfo.availSpace
          dsimp only
          split_ifs <;> omega
        · rw [addStatAvail_bySize, removed.2.2 store]
          exact taken.bySize store other member
      · cases done
        obtain ⟨rest, list, present⟩ := cons_of_headTrunk head
        have free : sa.Free key := ⟨type, list ▸ List.mem_cons_self⟩
        exact Keeps.trunkAllocSpace sound free present positive (Int.not_lt.mp less)

end FSStorageAllocatorManager

end FastStore.Storage
