import FastStore.Storage.TrunkUsage

/-!
# Usage over a sequence of index calls

A store path counts the bytes used in all its trunks.  The path's counter and the
counters of the trunks are changed by separate statements, with the same size, so
the difference between the counter of a path and the sum over its trunks never
moves.  Together with the account of each trunk this makes the usage exact after
every sequence of adds, overwrites, slice deletes and block deletes.
-/

namespace FastStore.Storage

open FastStore.Util FastStore.Util.Extent

namespace FSStorageAllocatorManager

/-- The used bytes of a trunk; a trunk that does not exist uses none. -/
def usedBytesOf (sa : FSStorageAllocatorManager) (key : TrunkKey) : Int :=
  match sa.trunks key with
  | some trunk => trunk.usedBytes
  | none => 0

/-- The used bytes of the trunks of one store path. -/
def pathUsedBytes (keys : Finset TrunkKey) (sa : FSStorageAllocatorManager) (store : Nat) : Int :=
  ∑ key ∈ keys with key.store = store, sa.usedBytesOf key

/-- The trunks that exist. -/
def Holds (keys : Finset TrunkKey) (sa : FSStorageAllocatorManager) : Prop :=
  ∀ key, key ∈ keys ↔ (sa.trunks key).isSome

end FSStorageAllocatorManager

open FSStorageAllocatorManager

/-- The counters of the paths are as far from the sums over the trunks in both. -/
def SameDrift (keys : Finset TrunkKey) (left right : FSStorageAllocatorManager) : Prop :=
  ∀ store, (left.allocators store).statUsed - pathUsedBytes keys left store =
    (right.allocators store).statUsed - pathUsedBytes keys right store

section Drift

variable {keys : Finset TrunkKey} {left middle right sa : FSStorageAllocatorManager}
  {slice : OBSliceEntry}

theorem SameDrift.refl (sa : FSStorageAllocatorManager) : SameDrift keys sa sa := fun _ => rfl

theorem SameDrift.trans (first : SameDrift keys left middle)
    (second : SameDrift keys middle right) : SameDrift keys left right :=
  fun store => (first store).trans (second store)

theorem FSStorageAllocatorManager.Holds.of_sameSpace (holds : Holds keys right) (same : SameSpace left right) :
    Holds keys left := by
  intro key
  rw [same.isSome_eq]
  exact holds key

/-- A path sum follows the one trunk that changes. -/
theorem pathUsedBytes_update {key : TrunkKey} {bytes : Int} (member : key ∈ keys)
    (changed : left.usedBytesOf = Function.update right.usedBytesOf key
      (right.usedBytesOf key + bytes)) (store : Nat) :
    pathUsedBytes keys left store =
      pathUsedBytes keys right store + if key.store = store then bytes else 0 := by
  unfold pathUsedBytes
  rw [changed]
  by_cases own : key.store = store
  · have inside : key ∈ keys.filter fun key => key.store = store :=
      Finset.mem_filter.mpr ⟨member, own⟩
    have split := Finset.add_sum_erase _ right.usedBytesOf inside
    rw [if_pos own, Finset.sum_update_of_mem inside, Finset.sdiff_singleton_eq_erase, ← split]
    ring
  · have outside : key ∉ keys.filter fun key => key.store = store :=
      fun inside => own (Finset.mem_filter.mp inside).2
    rw [if_neg own, Finset.sum_update_of_notMem outside, add_zero]

theorem usedBytesOf_trunkAllocatorAddSlice
    (present : (sa.trunks slice.space.trunk).isSome) :
    (trunkAllocatorAddSlice slice sa).2.usedBytesOf =
      Function.update sa.usedBytesOf slice.space.trunk
        (sa.usedBytesOf slice.space.trunk + slice.space.size) := by
  obtain ⟨trunk, found⟩ := Option.isSome_iff_exists.mp present
  funext key
  by_cases same : key = slice.space.trunk
  · simp [trunkAllocatorAddSlice, usedBytesOf, found, same]
  · simp [trunkAllocatorAddSlice, usedBytesOf, found, same]

theorem usedBytesOf_pushTrunkUtilChangeEvent (key : TrunkKey) (event : FSTrunkUtilEvent)
    (sa : FSStorageAllocatorManager) :
    (pushTrunkUtilChangeEvent key event sa).usedBytesOf = sa.usedBytesOf := by
  unfold pushTrunkUtilChangeEvent
  cases found : sa.trunks key with
  | none => rfl
  | some trunk =>
      dsimp only
      split_ifs
      · funext other
        by_cases same : other = key
        · simp [usedBytesOf, found, same]
        · simp [usedBytesOf, same]
      · rfl

theorem usedBytesOf_trunkAllocatorDeleteSlice
    (present : (sa.trunks slice.space.trunk).isSome) :
    (trunkAllocatorDeleteSlice slice sa).2.usedBytesOf =
      Function.update sa.usedBytesOf slice.space.trunk
        (sa.usedBytesOf slice.space.trunk + -slice.space.size) := by
  obtain ⟨trunk, found⟩ := Option.isSome_iff_exists.mp present
  simp only [trunkAllocatorDeleteSlice, found, usedBytesOf_pushTrunkUtilChangeEvent]
  funext key
  by_cases same : key = slice.space.trunk
  · simp [usedBytesOf, found, same, sub_eq_add_neg]
  · simp [usedBytesOf, same]

theorem statUsed_trunkAllocatorAddSlice (slice : OBSliceEntry) (sa : FSStorageAllocatorManager) :
    (trunkAllocatorAddSlice slice sa).2.allocators = sa.allocators := by
  unfold trunkAllocatorAddSlice
  cases sa.trunks slice.space.trunk <;> rfl

theorem statUsed_pushTrunkUtilChangeEvent (key : TrunkKey) (event : FSTrunkUtilEvent)
    (sa : FSStorageAllocatorManager) (store : Nat) :
    ((pushTrunkUtilChangeEvent key event sa).allocators store).statUsed =
      (sa.allocators store).statUsed := by
  unfold pushTrunkUtilChangeEvent
  cases sa.trunks key with
  | none => rfl
  | some trunk =>
      dsimp only
      split_ifs
      · by_cases same : store = key.store
        · simp [same]
        · simp [same]
      · rfl

theorem statUsed_trunkAllocatorDeleteSlice (slice : OBSliceEntry)
    (sa : FSStorageAllocatorManager) (store : Nat) :
    ((trunkAllocatorDeleteSlice slice sa).2.allocators store).statUsed =
      (sa.allocators store).statUsed := by
  unfold trunkAllocatorDeleteSlice
  cases sa.trunks slice.space.trunk with
  | none => rfl
  | some trunk => exact statUsed_pushTrunkUtilChangeEvent _ _ _ store

theorem statUsed_addStatUsed (path : Nat) (bytes : Int) (sa : FSStorageAllocatorManager)
    (store : Nat) :
    ((addStatUsed path bytes sa).allocators store).statUsed =
      (sa.allocators store).statUsed + if path = store then bytes else 0 := by
  by_cases same : store = path
  · simp [addStatUsed, same]
  · simp [addStatUsed, same, Ne.symm same]

/-- Counting a slice in its path and in its trunk leaves the drift alone. -/
theorem sameDrift_storageAllocatorAddSlice (holds : Holds keys sa)
    (present : (sa.trunks slice.space.trunk).isSome) :
    SameDrift keys (storageAllocatorAddSlice slice true sa).2 sa := by
  intro store
  have trunks := pathUsedBytes_update ((holds slice.space.trunk).mpr present)
    (@usedBytesOf_trunkAllocatorAddSlice
      (addStatUsed slice.space.store slice.space.size sa) slice present) store
  have path := statUsed_addStatUsed slice.space.store slice.space.size sa store
  have counted : pathUsedBytes keys (addStatUsed slice.space.store slice.space.size sa) store =
      pathUsedBytes keys sa store := rfl
  have sameStore : slice.space.trunk.store = slice.space.store := rfl
  simp only [storageAllocatorAddSlice, if_true, statUsed_trunkAllocatorAddSlice, path, trunks,
    counted, sameStore]
  ring

theorem sameDrift_storageAllocatorDeleteSlice (holds : Holds keys sa)
    (present : (sa.trunks slice.space.trunk).isSome) :
    SameDrift keys (storageAllocatorDeleteSlice slice true sa).2 sa := by
  intro store
  have trunks := pathUsedBytes_update ((holds slice.space.trunk).mpr present)
    (@usedBytesOf_trunkAllocatorDeleteSlice
      (addStatUsed slice.space.store (-slice.space.size) sa) slice present) store
  have path := statUsed_addStatUsed slice.space.store (-slice.space.size) sa store
  have counted : pathUsedBytes keys (addStatUsed slice.space.store (-slice.space.size) sa) store =
      pathUsedBytes keys sa store := rfl
  have sameStore : slice.space.trunk.store = slice.space.store := rfl
  simp only [storageAllocatorDeleteSlice, if_true, statUsed_trunkAllocatorDeleteSlice, path,
    trunks, counted, sameStore]
  ring

end Drift

/-! ## The slices of one block -/

section Chain

variable (sl : UniqSkiplist OBSliceEntry.key) {htable : OBHashtable} {keys : Finset TrunkKey}
  {chain : List OBSliceEntry} {sa : FSStorageAllocatorManager}

theorem sameDrift_doDeleteSlice (used : htable.modifyUsedSpace = true)
    {state : List OBSliceEntry × FSStorageAllocatorManager} (holds : Holds keys state.2)
    {slice : OBSliceEntry} (present : (state.2.trunks slice.space.trunk).isSome) :
    SameDrift keys (doDeleteSlice sl htable state slice).2 state.2 := by
  unfold doDeleteSlice
  cases htable.modifySallocator with
  | false => exact SameDrift.refl state.2
  | true =>
      rw [used]
      exact sameDrift_storageAllocatorDeleteSlice holds present

theorem sameDrift_doAddSlice (used : htable.modifyUsedSpace = true)
    {state : List OBSliceEntry × FSStorageAllocatorManager} (holds : Holds keys state.2)
    {slice : OBSliceEntry} (present : (state.2.trunks slice.space.trunk).isSome) :
    SameDrift keys (doAddSlice sl htable state slice).2.2 state.2 := by
  unfold doAddSlice
  split
  · cases htable.modifySallocator with
    | false => exact SameDrift.refl state.2
    | true =>
        rw [used]
        exact sameDrift_storageAllocatorAddSlice holds present
  · exact SameDrift.refl state.2

theorem sameDrift_foldl_doDeleteSlice (used : htable.modifyUsedSpace = true)
    (dels : List OBSliceEntry) {state : List OBSliceEntry × FSStorageAllocatorManager}
    (holds : Holds keys state.2)
    (present : ∀ slice ∈ dels, (state.2.trunks slice.space.trunk).isSome) :
    SameDrift keys (dels.foldl (doDeleteSlice sl htable) state).2 state.2 := by
  induction dels generalizing state with
  | nil => exact SameDrift.refl state.2
  | cons slice dels ih =>
      have same := sameSpace_doDeleteSlice sl htable state slice
      have rest := ih (holds.of_sameSpace same) fun other member => by
        rw [same.isSome_eq]
        exact present other (List.mem_cons_of_mem _ member)
      exact rest.trans
        (sameDrift_doDeleteSlice sl used holds (present slice List.mem_cons_self))

theorem sameDrift_foldl_doAddSlice (used : htable.modifyUsedSpace = true)
    (adds : List OBSliceEntry) {state : List OBSliceEntry × FSStorageAllocatorManager}
    (holds : Holds keys state.2)
    (present : ∀ slice ∈ adds, (state.2.trunks slice.space.trunk).isSome) :
    SameDrift keys
      (adds.foldl (fun state slice => (doAddSlice sl htable state slice).2) state).2
      state.2 := by
  induction adds generalizing state with
  | nil => exact SameDrift.refl state.2
  | cons slice adds ih =>
      have same := sameSpace_doAddSlice sl htable state slice
      have rest := ih (holds.of_sameSpace same) fun other member => by
        rw [same.isSome_eq]
        exact present other (List.mem_cons_of_mem _ member)
      exact rest.trans (sameDrift_doAddSlice sl used holds (present slice List.mem_cons_self))

/-- The two passes of `add_slice` and `delete_slices`. -/
theorem sameDrift_refill (used : htable.modifyUsedSpace = true) (holds : Holds keys sa)
    (homed : ∀ slice ∈ chain, (sa.trunks slice.space.trunk).isSome) (lo hi : Int) :
    SameDrift keys
      ((touchedPieces lo hi chain).foldl (fun state slice => (doAddSlice sl htable state slice).2)
        ((touchedSlices lo hi chain).foldl (doDeleteSlice sl htable) (chain, sa))).2 sa := by
  have same := sameSpace_foldl_doDeleteSlice sl htable (touchedSlices lo hi chain) (chain, sa)
  have deleted : SameDrift keys
      ((touchedSlices lo hi chain).foldl (doDeleteSlice sl htable) (chain, sa)).2 sa :=
    sameDrift_foldl_doDeleteSlice sl used (touchedSlices lo hi chain) holds fun slice member =>
      homed slice (List.mem_filter.mp member).1
  refine SameDrift.trans ?_ deleted
  refine sameDrift_foldl_doAddSlice sl used _ (holds.of_sameSpace same) ?_
  intro piece member
  obtain ⟨slice, inChain, _, place⟩ := source_of_mem_touchedPieces member
  rw [same.isSome_eq, place]
  exact homed slice inChain

theorem sameDrift_addSlice (used : htable.modifyUsedSpace = true) (holds : Holds keys sa)
    (homed : ∀ slice ∈ chain, (sa.trunks slice.space.trunk).isSome) (laid : Laid chain)
    {slice : OBSliceEntry} (nonneg : 0 ≤ slice.ssize.length)
    (present : (sa.trunks slice.space.trunk).isSome) :
    SameDrift keys (addSlice sl htable chain slice sa).2.2.2 sa := by
  unfold Storage.addSlice
  split_ifs with empty
  · exact sameDrift_doAddSlice sl used holds present
  · obtain ⟨dels, adds⟩ := addSliceScan_spec sl laid nonneg
    simp only [dels, adds]
    have same := (sameSpace_foldl_doAddSlice sl htable
      (touchedPieces slice.ssize.offset slice.sliceEnd chain) _).trans
      (sameSpace_foldl_doDeleteSlice sl htable
        (touchedSlices slice.ssize.offset slice.sliceEnd chain) (chain, sa))
    refine SameDrift.trans ?_
      (sameDrift_refill sl used holds homed slice.ssize.offset slice.sliceEnd)
    refine sameDrift_doAddSlice sl used (holds.of_sameSpace same) ?_
    rw [same.isSome_eq]
    exact present

theorem sameDrift_deleteSlices (used : htable.modifyUsedSpace = true) (holds : Holds keys sa)
    (homed : ∀ slice ∈ chain, (sa.trunks slice.space.trunk).isSome) (laid : Laid chain)
    {range : FSSliceSize} (nonneg : 0 ≤ range.length) :
    SameDrift keys (deleteSlices sl htable chain range sa).2.2.2 sa := by
  unfold Storage.deleteSlices
  split_ifs with empty
  · exact SameDrift.refl sa
  · simp only [deleteSlicesScan_spec sl laid nonneg]
    split_ifs with untouched
    · exact SameDrift.refl sa
    · exact sameDrift_refill sl used holds homed _ _

theorem sameDrift_deleteBlockSlices (used : htable.modifyUsedSpace = true)
    (holds : Holds keys sa)
    (homed : ∀ slice ∈ chain, (sa.trunks slice.space.trunk).isSome) :
    SameDrift keys (deleteBlockSlices htable chain sa) sa := by
  unfold deleteBlockSlices
  cases htable.modifySallocator with
  | false => exact SameDrift.refl sa
  | true =>
      simp only [if_true, used]
      induction chain generalizing sa with
      | nil => exact SameDrift.refl sa
      | cons slice rest ih =>
          have same := sameSpace_storageAllocatorDeleteSlice slice true sa
          have later := ih (holds.of_sameSpace same) fun other member => by
            rw [same.isSome_eq]
            exact homed other (List.mem_cons_of_mem _ member)
          exact later.trans
            (sameDrift_storageAllocatorDeleteSlice holds (homed slice List.mem_cons_self))

end Chain

/-! ## The whole index -/

/-- The slices of the index whose space lies in one trunk. -/
def OBHashtable.slicesIn (htable : OBHashtable) (key : TrunkKey) : Set OBSliceEntry :=
  {slice | slice ∈ htable.slices ∧ slice.space.trunk = key}

/-- The counters and lists of the trunks and the counters of the paths are those of
the slices in the index. -/
structure IndexState.UsageExact (keys : Finset TrunkKey) (state : IndexState) : Prop where
  used : ∀ key ∈ keys, ∃ trunk, state.sallocator.trunks key = some trunk ∧
    trunk.usedSlices.Nodup ∧ {slice | slice ∈ trunk.usedSlices} = state.htable.slicesIn key ∧
    trunk.usedBytes = ∑ᶠ slice ∈ state.htable.slicesIn key, slice.space.size ∧
    trunk.usedCount = (state.htable.slicesIn key).ncard
  homed : ∀ slice ∈ state.htable.slices, slice.space.trunk ∈ keys
  stat : ∀ store, (state.sallocator.allocators store).statUsed =
    pathUsedBytes keys state.sallocator store

/-- An index in service: both flags are on, the trunks account for its slices and the
paths for their trunks. -/
structure IndexState.Counted (keys : Finset TrunkKey) (state : IndexState) : Prop where
  accounted : state.Accounted
  used : state.htable.modifyUsedSpace = true
  holds : Holds keys state.sallocator
  stat : ∀ store, (state.sallocator.allocators store).statUsed =
    pathUsedBytes keys state.sallocator store

/-- The operations that change the index. -/
inductive IndexOperation where
  | addSlice (withSn : Bool) (slice : OBSliceEntry)
  | deleteSlices (withSn : Bool) (bsKey : FSBlockSliceKeyInfo)
  | deleteBlock (withSn : Bool) (bkey : FSBlockKey)

namespace IndexOperation

/-- The state after an operation, whether it succeeded or not. -/
def run (sl : UniqSkiplist OBSliceEntry.key) (state : IndexState) : IndexOperation → IndexState
  | addSlice withSn slice => (allocAndAddSlice sl withSn slice state).2.2
  | deleteSlices withSn bsKey => (obIndexDeleteSlicesEx sl withSn bsKey state).2.2
  | deleteBlock withSn bkey => (obIndexDeleteBlockEx withSn bkey state).2.2

/-- Ranges have no negative length, and slices lie in existing trunks. -/
def Valid (keys : Finset TrunkKey) : IndexOperation → Prop
  | addSlice _ slice => 0 ≤ slice.ssize.length ∧ slice.space.trunk ∈ keys
  | deleteSlices _ bsKey => 0 ≤ bsKey.slice.length
  | deleteBlock _ _ => True

end IndexOperation

namespace IndexState.Counted

variable (sl : UniqSkiplist OBSliceEntry.key) {keys : Finset TrunkKey} {state : IndexState}

theorem homed (before : state.Counted keys) (bkey : FSBlockKey) :
    ∀ slice ∈ state.htable.slicesOf bkey,
      (state.sallocator.trunks slice.space.trunk).isSome := by
  intro slice member
  refine before.accounted.usage.homed slice ?_
  have own := before.accounted.owned bkey slice member
  change slice ∈ state.htable.slicesOf slice.ob
  rw [own]
  exact member

/-- What a call has to keep besides the account of the trunks. -/
theorem of_sameDrift {after : IndexState} (before : state.Counted keys)
    (accounted : after.Accounted)
    (flag : after.htable.modifyUsedSpace = state.htable.modifyUsedSpace)
    (space : SameSpace after.sallocator state.sallocator)
    (drift : SameDrift keys after.sallocator state.sallocator) : after.Counted keys := by
  constructor
  · exact accounted
  · rw [flag, before.used]
  · exact before.holds.of_sameSpace space
  · intro store
    have level := drift store
    rw [before.stat store, sub_self] at level
    exact sub_eq_zero.mp level

theorem alloc (before : state.Counted keys) (bkey : FSBlockKey) :
    IndexState.Counted keys { state with htable := obIndexAllocSliceEx bkey state.htable } :=
  before.of_sameDrift (before.accounted.alloc bkey)
    (sameShape_obIndexAllocSliceEx bkey state.htable).modifyUsedSpace (SameSpace.refl _)
    (SameDrift.refl _)

theorem addSliceEx (before : state.Counted keys) (withSn : Bool) {slice : OBSliceEntry}
    {ob : OBEntry} (entry : state.htable.getObEntry slice.ob = some ob)
    (nonneg : 0 ≤ slice.ssize.length) (known : slice.space.trunk ∈ keys) :
    (obIndexAddSliceEx sl withSn slice state).2.2.Counted keys := by
  have present := (before.holds slice.space.trunk).mp known
  have trunks := sallocator_obIndexAddSliceEx sl withSn entry
  apply before.of_sameDrift
  · exact before.accounted.addSliceEx sl withSn entry nonneg present
  · exact (sameShape_obIndexAddSliceEx sl withSn slice state).modifyUsedSpace
  · rw [trunks]
    exact sameSpace_addSlice sl state.htable _ slice state.sallocator
  · rw [trunks]
    exact sameDrift_addSlice sl before.used before.holds (before.homed slice.ob)
      (before.accounted.sound.laid slice.ob) nonneg present

theorem deleteSlicesEx (before : state.Counted keys) (withSn : Bool)
    {bsKey : FSBlockSliceKeyInfo} (nonneg : 0 ≤ bsKey.slice.length) :
    (obIndexDeleteSlicesEx sl withSn bsKey state).2.2.Counted keys := by
  have trunks := sallocator_obIndexDeleteSlicesEx sl withSn state bsKey
  apply before.of_sameDrift
  · exact before.accounted.deleteSlicesEx sl withSn nonneg
  · exact (sameShape_obIndexDeleteSlicesEx sl withSn bsKey state).modifyUsedSpace
  · rw [trunks]
    exact sameSpace_deleteSlices sl state.htable _ bsKey.slice state.sallocator
  · rw [trunks]
    exact sameDrift_deleteSlices sl before.used before.holds (before.homed bsKey.block)
      (before.accounted.sound.laid bsKey.block) nonneg

theorem deleteBlockEx (before : state.Counted keys) (withSn : Bool) (bkey : FSBlockKey) :
    (obIndexDeleteBlockEx withSn bkey state).2.2.Counted keys := by
  have trunks := sallocator_obIndexDeleteBlockEx withSn state bkey
  apply before.of_sameDrift
  · exact before.accounted.deleteBlockEx withSn bkey
  · exact (sameShape_obIndexDeleteBlockEx withSn bkey state).modifyUsedSpace
  · rw [trunks]
    exact sameSpace_deleteBlockSlices state.htable _ state.sallocator
  · rw [trunks]
    exact sameDrift_deleteBlockSlices before.used before.holds (before.homed bkey)

/-- One operation. -/
theorem operation (before : state.Counted keys) {operation : IndexOperation}
    (valid : operation.Valid keys) : (operation.run sl state).Counted keys := by
  cases operation with
  | addSlice withSn slice =>
      have entry := OBHashtable.getObEntry_alloc_self before.accounted.sound.wf slice.ob
      exact (before.alloc slice.ob).addSliceEx sl withSn entry valid.1 valid.2
  | deleteSlices withSn bsKey => exact before.deleteSlicesEx sl withSn valid
  | deleteBlock withSn bkey => exact before.deleteBlockEx withSn bkey

theorem usageExact (counted : state.Counted keys) : state.UsageExact keys := by
  have usage := counted.accounted.usage
  constructor
  · intro key member
    obtain ⟨trunk, found⟩ := Option.isSome_iff_exists.mp ((counted.holds key).mp member)
    have nodup := usage.nodup key trunk found
    have members : {slice | slice ∈ trunk.usedSlices} = state.htable.slicesIn key := by
      ext slice
      exact usage.used key trunk found slice
    have finite : state.htable.slicesIn key = ↑trunk.usedSlices.toFinset := by
      rw [← members, List.coe_toFinset]
    refine ⟨trunk, found, nodup, members, ?_, ?_⟩
    · rw [finite, finsum_mem_coe_finset, List.sum_toFinset _ nodup]
      exact usage.bytes key trunk found
    · rw [finite, Set.ncard_coe_finset, List.toFinset_card_of_nodup nodup]
      exact usage.count key trunk found
  · intro slice member
    exact (counted.holds _).mpr (usage.homed slice member)
  · exact counted.stat

end IndexState.Counted

/-- An index without slices, over trunks that nothing is in yet. -/
structure IndexState.Fresh (keys : Finset TrunkKey) (state : IndexState) : Prop where
  sound : state.htable.Sound
  flags : state.htable.modifySallocator = true ∧ state.htable.modifyUsedSpace = true
  empty : ∀ bkey, state.htable.slicesOf bkey = []
  holds : Holds keys state.sallocator
  unused : ∀ key trunk, state.sallocator.trunks key = some trunk →
    trunk.usedSlices = [] ∧ trunk.usedBytes = 0 ∧ trunk.usedCount = 0
  stat : ∀ store, (state.sallocator.allocators store).statUsed = 0

theorem IndexState.Fresh.counted {keys : Finset TrunkKey} {state : IndexState}
    (fresh : state.Fresh keys) : state.Counted keys := by
  have none : state.htable.slices = ∅ := by
    ext slice
    simp [OBHashtable.slices, fresh.empty]
  have usage : UsageMatches state.htable.slices state.sallocator := by
    rw [none]
    constructor
    · intro slice member
      cases member
    · intro key trunk found
      rw [(fresh.unused key trunk found).1]
      exact List.nodup_nil
    · intro key trunk found slice
      simp [(fresh.unused key trunk found).1]
    · intro key trunk found
      simp [fresh.unused key trunk found]
    · intro key trunk found
      simp [fresh.unused key trunk found]
  have owned : state.htable.Owned := by
    intro bkey slice member
    rw [fresh.empty] at member
    cases member
  constructor
  · exact ⟨fresh.sound, owned, fresh.flags.1, usage⟩
  · exact fresh.flags.2
  · exact fresh.holds
  · intro store
    rw [fresh.stat store]
    refine (Finset.sum_eq_zero fun key _ => ?_).symm
    unfold usedBytesOf
    cases found : state.sallocator.trunks key with
    | none => rfl
    | some trunk => exact (fresh.unused key trunk found).2.1

/-- A store with one path, one trunk and an empty index. -/
def oneTrunkStore : IndexState :=
  ⟨⟨1, fun _ => [], true, true⟩,
    ⟨fun key => if key = ⟨0, 1⟩ then
        some ⟨⟨1, 1⟩, .none, 0, 0, [], 1024, 0, .none, 0⟩ else none,
      fun _ => ⟨[], ⟨[⟨0, 1⟩], 1, 1⟩, 0, [], 0, 0⟩, ⟨[], 0, 0⟩⟩, 0⟩

theorem fresh_oneTrunkStore : oneTrunkStore.Fresh {⟨0, 1⟩} := by
  have only : ∀ key trunk, oneTrunkStore.sallocator.trunks key = some trunk →
      trunk = ⟨⟨1, 1⟩, .none, 0, 0, [], 1024, 0, .none, 0⟩ := by
    intro key trunk found
    simp only [oneTrunkStore] at found
    split_ifs at found
    exact (Option.some.inj found).symm
  constructor
  · exact ⟨⟨fun _ => Ascending.nil _, nofun⟩, fun _ => Laid.nil⟩
  · exact ⟨rfl, rfl⟩
  · exact fun _ => rfl
  · intro key
    by_cases same : key = ⟨0, 1⟩
    · simp [oneTrunkStore, same]
    · simp [oneTrunkStore, same]
  · intro key trunk found
    rw [only key trunk found]
    exact ⟨rfl, rfl, rfl⟩
  · exact fun _ => rfl

/-- Five bytes in a space of eight, two of them overwritten, the first one deleted. -/
def cutOperations : List IndexOperation :=
  [.addSlice true ⟨⟨1, 0⟩, .file, ⟨0, 5⟩, ⟨0, ⟨1, 1⟩, 0, 8⟩⟩,
    .addSlice true ⟨⟨1, 0⟩, .file, ⟨2, 2⟩, ⟨0, ⟨1, 1⟩, 8, 8⟩⟩,
    .deleteSlices true ⟨⟨1, 0⟩, ⟨0, 1⟩⟩]

end FastStore.Storage
