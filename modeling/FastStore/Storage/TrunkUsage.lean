import FastStore.Storage.IndexTable

/-!
# Trunk usage follows the index

The trunks count the slices that lie in them.  Every index update enters and leaves
slices one by one, and the trunk bookkeeping with them, so that at any time the used
bytes, the used count and the slice list of a trunk are those of the slices of the
index in that trunk.
-/

namespace FastStore.Storage

open FastStore.Util FastStore.Util.Extent

/-- The trunks account for exactly the given slices. -/
structure UsageMatches (slices : Set OBSliceEntry) (sa : FSStorageAllocatorManager) :
    Prop where
  homed : ∀ slice ∈ slices, (sa.trunks slice.space.trunk).isSome
  nodup : ∀ key trunk, sa.trunks key = some trunk → trunk.usedSlices.Nodup
  used : ∀ key trunk, sa.trunks key = some trunk → ∀ slice,
    slice ∈ trunk.usedSlices ↔ slice ∈ slices ∧ slice.space.trunk = key
  bytes : ∀ key trunk, sa.trunks key = some trunk →
    trunk.usedBytes = (trunk.usedSlices.map fun slice => slice.space.size).sum
  count : ∀ key trunk, sa.trunks key = some trunk →
    trunk.usedCount = trunk.usedSlices.length

/-- What index updates leave alone in a trunk. -/
def FSTrunkFileInfo.layout (trunk : FSTrunkFileInfo) : FSTrunkStatus × Int × Int :=
  (trunk.status, trunk.size, trunk.freeStart)

/-- The same trunks with the same free space, in the same lists. -/
structure SameSpace (left right : FSStorageAllocatorManager) : Prop where
  layout : ∀ key, (left.trunks key).map FSTrunkFileInfo.layout =
    (right.trunks key).map FSTrunkFileInfo.layout
  bySize : ∀ store, (left.allocators store).bySize = (right.allocators store).bySize
  freelist : ∀ store, (left.allocators store).freelist = (right.allocators store).freelist
  reclaimFreelist : left.reclaimFreelist = right.reclaimFreelist

namespace SameSpace

variable {left middle right : FSStorageAllocatorManager}

theorem refl (sa : FSStorageAllocatorManager) : SameSpace sa sa :=
  ⟨fun _ => rfl, fun _ => rfl, fun _ => rfl, rfl⟩

theorem trans (first : SameSpace left middle) (second : SameSpace middle right) :
    SameSpace left right := by
  constructor
  · exact fun key => (first.layout key).trans (second.layout key)
  · exact fun store => (first.bySize store).trans (second.bySize store)
  · exact fun store => (first.freelist store).trans (second.freelist store)
  · exact first.reclaimFreelist.trans second.reclaimFreelist

theorem isSome_eq (same : SameSpace left right) (key : TrunkKey) :
    (left.trunks key).isSome = (right.trunks key).isSome := by
  have mapped := congrArg Option.isSome (same.layout key)
  rw [Option.isSome_map, Option.isSome_map] at mapped
  exact mapped

theorem setTrunk {sa : FSStorageAllocatorManager} {key : TrunkKey}
    {trunk updated : FSTrunkFileInfo} (present : sa.trunks key = some trunk)
    (layout : updated.layout = trunk.layout) : SameSpace (sa.setTrunk key updated) sa := by
  constructor
  · intro other
    rw [FSStorageAllocatorManager.setTrunk_trunks]
    by_cases same : other = key
    · rw [same, Function.update_self, present, Option.map_some, Option.map_some, layout]
    · rw [Function.update_of_ne same]
  · exact fun _ => rfl
  · exact fun _ => rfl
  · rfl

theorem setAllocator {sa : FSStorageAllocatorManager} {store : Nat}
    {allocator : FSTrunkAllocator} (bySize : allocator.bySize = (sa.allocators store).bySize)
    (freelist : allocator.freelist = (sa.allocators store).freelist) :
    SameSpace (sa.setAllocator store allocator) sa := by
  constructor
  · exact fun _ => rfl
  · intro other
    rw [FSStorageAllocatorManager.setAllocator_allocators]
    by_cases same : other = store
    · rw [same, Function.update_self, bySize]
    · rw [Function.update_of_ne same]
  · intro other
    rw [FSStorageAllocatorManager.setAllocator_allocators]
    by_cases same : other = store
    · rw [same, Function.update_self, freelist]
    · rw [Function.update_of_ne same]
  · rfl

end SameSpace

/-! ## Single slices -/

namespace UsageMatches

variable {slices : Set OBSliceEntry} {sa : FSStorageAllocatorManager}
  {slice : OBSliceEntry} {trunk : FSTrunkFileInfo} {key : TrunkKey}

/-- Usage depends on the trunks alone. -/
theorem of_trunks_eq {other : FSStorageAllocatorManager} (usage : UsageMatches slices sa)
    (same : other.trunks = sa.trunks) : UsageMatches slices other := by
  constructor
  · rw [same]
    exact usage.homed
  · rw [same]
    exact usage.nodup
  · rw [same]
    exact usage.used
  · rw [same]
    exact usage.bytes
  · rw [same]
    exact usage.count

/-- Changing one trunk changes the account of that trunk alone. -/
theorem setTrunk {updated : FSTrunkFileInfo} {after : Set OBSliceEntry}
    (usage : UsageMatches slices sa)
    (apart : ∀ other : OBSliceEntry, other.space.trunk ≠ key → (other ∈ after ↔ other ∈ slices))
    (nodup : updated.usedSlices.Nodup)
    (used : ∀ other, other ∈ updated.usedSlices ↔ other ∈ after ∧ other.space.trunk = key)
    (bytes : updated.usedBytes = (updated.usedSlices.map fun slice => slice.space.size).sum)
    (count : updated.usedCount = updated.usedSlices.length) :
    UsageMatches after (sa.setTrunk key updated) := by
  have lookup : ∀ at' found, (sa.setTrunk key updated).trunks at' = some found →
      (at' = key ∧ found = updated) ∨ (at' ≠ key ∧ sa.trunks at' = some found) := by
    intro at' found stored
    rw [FSStorageAllocatorManager.setTrunk_trunks] at stored
    by_cases same : at' = key
    · rw [same, Function.update_self] at stored
      exact Or.inl ⟨same, (Option.some.inj stored).symm⟩
    · rw [Function.update_of_ne same] at stored
      exact Or.inr ⟨same, stored⟩
  constructor
  · intro other member
    rw [FSStorageAllocatorManager.setTrunk_trunks]
    by_cases same : other.space.trunk = key
    · rw [same, Function.update_self]
      rfl
    · rw [Function.update_of_ne same]
      exact usage.homed other ((apart other same).mp member)
  · intro at' found stored
    rcases lookup at' found stored with ⟨_, rfl⟩ | ⟨_, before⟩
    · exact nodup
    · exact usage.nodup at' found before
  · intro at' found stored other
    rcases lookup at' found stored with ⟨rfl, rfl⟩ | ⟨distinct, before⟩
    · exact used other
    · rw [usage.used at' found before]
      constructor
      · rintro ⟨member, rfl⟩
        exact ⟨(apart other distinct).mpr member, rfl⟩
      · rintro ⟨member, rfl⟩
        exact ⟨(apart other distinct).mp member, rfl⟩
  · intro at' found stored
    rcases lookup at' found stored with ⟨_, rfl⟩ | ⟨_, before⟩
    · exact bytes
    · exact usage.bytes at' found before
  · intro at' found stored
    rcases lookup at' found stored with ⟨_, rfl⟩ | ⟨_, before⟩
    · exact count
    · exact usage.count at' found before

/-- A change that keeps the account of a trunk. -/
theorem setTrunk_same {updated : FSTrunkFileInfo} (usage : UsageMatches slices sa)
    (present : sa.trunks key = some trunk)
    (same : (updated.usedSlices, updated.usedBytes, updated.usedCount) =
      (trunk.usedSlices, trunk.usedBytes, trunk.usedCount)) :
    UsageMatches slices (sa.setTrunk key updated) := by
  obtain ⟨list, bytes, count⟩ : updated.usedSlices = trunk.usedSlices ∧
      updated.usedBytes = trunk.usedBytes ∧ updated.usedCount = trunk.usedCount := by
    simpa using same
  apply usage.setTrunk
  · exact fun _ _ => Iff.rfl
  · rw [list]
    exact usage.nodup key trunk present
  · rw [list]
    exact usage.used key trunk present
  · rw [list, bytes]
    exact usage.bytes key trunk present
  · rw [list, count]
    exact usage.count key trunk present

theorem pushEvent (usage : UsageMatches slices sa) (event : FSTrunkUtilEvent) :
    UsageMatches slices (pushTrunkUtilChangeEvent key event sa) := by
  unfold pushTrunkUtilChangeEvent
  cases present : sa.trunks key with
  | none => exact usage
  | some trunk =>
      dsimp only
      split_ifs
      · have changed : UsageMatches slices (sa.setTrunk key { trunk with utilEvent := event }) :=
          usage.setTrunk_same present rfl
        exact changed.of_trunks_eq rfl
      · exact usage

/-- Entering a slice of an existing trunk succeeds and is counted there. -/
theorem add (usage : UsageMatches slices sa) (fresh : slice ∉ slices)
    (present : sa.trunks slice.space.trunk = some trunk) :
    UsageMatches (insert slice slices) (trunkAllocatorAddSlice slice sa).2 := by
  have own := usage.used _ trunk present
  simp only [trunkAllocatorAddSlice, present]
  apply usage.setTrunk
  · intro other elsewhere
    have distinct : other ≠ slice := by
      rintro rfl
      exact elsewhere rfl
    simp [distinct]
  · refine List.Nodup.append (usage.nodup _ trunk present) (List.nodup_singleton slice) ?_
    rw [List.disjoint_singleton, own]
    exact fun member => fresh member.1
  · intro other
    rw [List.mem_append, List.mem_singleton, own, Set.mem_insert_iff]
    constructor
    · rintro (⟨member, place⟩ | rfl)
      · exact ⟨Or.inr member, place⟩
      · exact ⟨Or.inl rfl, rfl⟩
    · rintro ⟨rfl | member, place⟩
      · exact Or.inr rfl
      · exact Or.inl ⟨member, place⟩
  · simp [usage.bytes _ trunk present]
  · simp [usage.count _ trunk present]

/-- Leaving is counted too. -/
theorem delete (usage : UsageMatches slices sa) (member : slice ∈ slices) :
    UsageMatches (slices \ {slice}) (trunkAllocatorDeleteSlice slice sa).2 := by
  obtain ⟨trunk, present⟩ := Option.isSome_iff_exists.mp (usage.homed slice member)
  have own := usage.used _ trunk present
  have nodup := usage.nodup _ trunk present
  have listed : slice ∈ trunk.usedSlices := (own slice).mpr ⟨member, rfl⟩
  simp only [trunkAllocatorDeleteSlice, present]
  apply pushEvent
  apply usage.setTrunk
  · intro other elsewhere
    have distinct : other ≠ slice := by
      rintro rfl
      exact elsewhere rfl
    simp [distinct]
  · exact nodup.erase slice
  · intro other
    rw [nodup.mem_erase_iff, own, Set.mem_sdiff, Set.mem_singleton_iff]
    exact ⟨fun both => ⟨⟨both.2.1, both.1⟩, both.2.2⟩, fun both => ⟨both.1.2, both.1.1, both.2⟩⟩
  · have split := List.sum_map_erase (fun slice : OBSliceEntry => slice.space.size) listed
    rw [usage.bytes _ trunk present, ← split]
    simp
  · have length := List.length_erase_of_mem listed
    have positive := List.length_pos_of_mem listed
    simp only [usage.count _ trunk present, length]
    omega

end UsageMatches

section Single

variable {slices : Set OBSliceEntry} {sa : FSStorageAllocatorManager} {slice : OBSliceEntry}

theorem sameSpace_addStatUsed (store : Nat) (bytes : Int) (sa : FSStorageAllocatorManager) :
    SameSpace (addStatUsed store bytes sa) sa :=
  SameSpace.setAllocator rfl rfl

theorem sameSpace_pushTrunkUtilChangeEvent (key : TrunkKey) (event : FSTrunkUtilEvent)
    (sa : FSStorageAllocatorManager) :
    SameSpace (pushTrunkUtilChangeEvent key event sa) sa := by
  unfold pushTrunkUtilChangeEvent
  cases present : sa.trunks key with
  | none => exact SameSpace.refl sa
  | some trunk =>
      dsimp only
      split_ifs
      · have changed : SameSpace (sa.setTrunk key { trunk with utilEvent := event }) sa :=
          SameSpace.setTrunk present rfl
        refine SameSpace.trans (SameSpace.setAllocator ?_ ?_) changed
        · rfl
        · rfl
      · exact SameSpace.refl sa

theorem sameSpace_trunkAllocatorAddSlice (slice : OBSliceEntry) (sa : FSStorageAllocatorManager) :
    SameSpace (trunkAllocatorAddSlice slice sa).2 sa := by
  unfold trunkAllocatorAddSlice
  cases present : sa.trunks slice.space.trunk with
  | none => exact SameSpace.refl sa
  | some trunk => exact SameSpace.setTrunk present rfl

theorem sameSpace_trunkAllocatorDeleteSlice (slice : OBSliceEntry)
    (sa : FSStorageAllocatorManager) :
    SameSpace (trunkAllocatorDeleteSlice slice sa).2 sa := by
  unfold trunkAllocatorDeleteSlice
  cases present : sa.trunks slice.space.trunk with
  | none => exact SameSpace.refl sa
  | some trunk =>
      exact (sameSpace_pushTrunkUtilChangeEvent _ _ _).trans (SameSpace.setTrunk present rfl)

theorem sameSpace_storageAllocatorAddSlice (slice : OBSliceEntry) (modifyUsedSpace : Bool)
    (sa : FSStorageAllocatorManager) :
    SameSpace (storageAllocatorAddSlice slice modifyUsedSpace sa).2 sa := by
  refine (sameSpace_trunkAllocatorAddSlice slice _).trans ?_
  cases modifyUsedSpace with
  | false => exact SameSpace.refl sa
  | true => exact sameSpace_addStatUsed _ _ sa

theorem sameSpace_storageAllocatorDeleteSlice (slice : OBSliceEntry) (modifyUsedSpace : Bool)
    (sa : FSStorageAllocatorManager) :
    SameSpace (storageAllocatorDeleteSlice slice modifyUsedSpace sa).2 sa := by
  refine (sameSpace_trunkAllocatorDeleteSlice slice _).trans ?_
  cases modifyUsedSpace with
  | false => exact SameSpace.refl sa
  | true => exact sameSpace_addStatUsed _ _ sa

theorem UsageMatches.storageAdd (usage : UsageMatches slices sa) (fresh : slice ∉ slices)
    (present : (sa.trunks slice.space.trunk).isSome) (modifyUsedSpace : Bool) :
    UsageMatches (insert slice slices)
      (storageAllocatorAddSlice slice modifyUsedSpace sa).2 := by
  obtain ⟨trunk, found⟩ := Option.isSome_iff_exists.mp present
  cases modifyUsedSpace with
  | false => exact usage.add fresh found
  | true =>
      have counted : UsageMatches slices (addStatUsed slice.space.store slice.space.size sa) :=
        usage.of_trunks_eq rfl
      exact counted.add fresh found

theorem UsageMatches.storageDelete (usage : UsageMatches slices sa) (member : slice ∈ slices)
    (modifyUsedSpace : Bool) :
    UsageMatches (slices \ {slice})
      (storageAllocatorDeleteSlice slice modifyUsedSpace sa).2 := by
  cases modifyUsedSpace with
  | false => exact usage.delete member
  | true =>
      have counted : UsageMatches slices (addStatUsed slice.space.store (-slice.space.size) sa) :=
        usage.of_trunks_eq rfl
      exact counted.delete member

end Single

/-! ## The slices of one block -/

/-- The given slices and those of a chain. -/
def withChain (others : Set OBSliceEntry) (chain : List OBSliceEntry) : Set OBSliceEntry :=
  others ∪ {slice | slice ∈ chain}

@[simp] theorem mem_withChain {others : Set OBSliceEntry} {chain : List OBSliceEntry}
    {slice : OBSliceEntry} : slice ∈ withChain others chain ↔ slice ∈ others ∨ slice ∈ chain :=
  Iff.rfl

section Chain

variable (sl : UniqSkiplist OBSliceEntry.key) (htable : OBHashtable)
  {bkey : FSBlockKey} {others : Set OBSliceEntry} {chain : List OBSliceEntry}
  {sa : FSStorageAllocatorManager}

/-- The account of a block under update: its chain, and the slices of other blocks. -/
structure ChainUsage (bkey : FSBlockKey) (others : Set OBSliceEntry)
    (state : List OBSliceEntry × FSStorageAllocatorManager) : Prop where
  sorted : Ascending OBSliceEntry.key state.1
  owned : ∀ slice ∈ state.1, slice.ob = bkey
  apart : ∀ slice ∈ others, slice.ob ≠ bkey
  usage : UsageMatches (withChain others state.1) state.2

theorem ChainUsage.doDelete (accounted : htable.modifySallocator = true)
    {state : List OBSliceEntry × FSStorageAllocatorManager}
    (before : ChainUsage bkey others state) {slice : OBSliceEntry} (member : slice ∈ state.1) :
    ChainUsage bkey others (doDeleteSlice sl htable state slice) := by
  have erased : (doDeleteSlice sl htable state slice).1 =
      Chain.erase OBSliceEntry.key slice.key state.1 := sl.delete_snd before.sorted slice.key
  constructor
  · rw [erased]
    exact Chain.ascending_erase before.sorted slice.key
  · rw [erased]
    intro other kept
    exact before.owned other (Chain.mem_erase.mp kept).1
  · exact before.apart
  · have left : withChain others (Chain.erase OBSliceEntry.key slice.key state.1) =
        withChain others state.1 \ {slice} := by
      ext other
      rw [mem_withChain, Chain.mem_erase, Set.mem_sdiff, mem_withChain, Set.mem_singleton_iff]
      constructor
      · rintro (other_mem | ⟨kept, distinct⟩)
        · refine ⟨Or.inl other_mem, ?_⟩
          rintro rfl
          exact before.apart other other_mem (before.owned other member)
        · refine ⟨Or.inr kept, ?_⟩
          rintro rfl
          exact distinct rfl
      · rintro ⟨other_mem | kept, distinct⟩
        · exact Or.inl other_mem
        · refine Or.inr ⟨kept, fun sameKey => distinct ?_⟩
          exact before.sorted.eq_of_key_eq kept member sameKey
    rw [erased, left]
    simp only [doDeleteSlice, accounted, if_true]
    exact before.usage.storageDelete (mem_withChain.mpr (Or.inr member)) htable.modifyUsedSpace

theorem ChainUsage.doAdd (accounted : htable.modifySallocator = true)
    {state : List OBSliceEntry × FSStorageAllocatorManager}
    (before : ChainUsage bkey others state) {slice : OBSliceEntry} (own : slice.ob = bkey)
    (present : (state.2.trunks slice.space.trunk).isSome) :
    ChainUsage bkey others (doAddSlice sl htable state slice).2 := by
  by_cases taken : ∃ other ∈ state.1, other.key = slice.key
  · have refused := sl.insert_exists state.1 slice before.sorted taken
    simp only [doAddSlice, refused]
    exact before
  · have fresh : ∀ other ∈ state.1, other.key ≠ slice.key :=
      fun other member equal => taken ⟨other, member, equal⟩
    have inserted := sl.insert_fresh state.1 slice before.sorted fresh
    have absent : slice ∉ withChain others state.1 := by
      rintro (other | member)
      · exact before.apart slice other own
      · exact fresh slice member rfl
    simp only [doAddSlice, inserted, accounted, if_true]
    constructor
    · exact Chain.ascending_insert before.sorted fresh
    · intro other member
      rcases Chain.mem_insert.mp member with rfl | kept
      · exact own
      · exact before.owned other kept
    · exact before.apart
    · have entered : withChain others (Chain.insert OBSliceEntry.key slice state.1) =
          insert slice (withChain others state.1) := by
        ext other
        simp only [mem_withChain, Chain.mem_insert, Set.mem_insert_iff]
        exact or_left_comm
      rw [entered]
      exact before.usage.storageAdd absent present htable.modifyUsedSpace

theorem sameSpace_doDeleteSlice (state : List OBSliceEntry × FSStorageAllocatorManager)
    (slice : OBSliceEntry) : SameSpace (doDeleteSlice sl htable state slice).2 state.2 := by
  unfold doDeleteSlice
  cases htable.modifySallocator with
  | false => exact SameSpace.refl _
  | true => exact sameSpace_storageAllocatorDeleteSlice slice _ _

theorem sameSpace_doAddSlice (state : List OBSliceEntry × FSStorageAllocatorManager)
    (slice : OBSliceEntry) : SameSpace (doAddSlice sl htable state slice).2.2 state.2 := by
  unfold doAddSlice
  split
  · cases htable.modifySallocator with
    | false => exact SameSpace.refl _
    | true => exact sameSpace_storageAllocatorAddSlice slice _ _
  · exact SameSpace.refl _

theorem sameSpace_foldl_doDeleteSlice (dels : List OBSliceEntry)
    (state : List OBSliceEntry × FSStorageAllocatorManager) :
    SameSpace (dels.foldl (doDeleteSlice sl htable) state).2 state.2 := by
  induction dels generalizing state with
  | nil => exact SameSpace.refl _
  | cons slice dels ih => exact (ih _).trans (sameSpace_doDeleteSlice sl htable state slice)

theorem sameSpace_foldl_doAddSlice (adds : List OBSliceEntry)
    (state : List OBSliceEntry × FSStorageAllocatorManager) :
    SameSpace (adds.foldl (fun state slice => (doAddSlice sl htable state slice).2) state).2
      state.2 := by
  induction adds generalizing state with
  | nil => exact SameSpace.refl _
  | cons slice adds ih => exact (ih _).trans (sameSpace_doAddSlice sl htable state slice)

/-- Deleting several slices of the chain, each once. -/
theorem ChainUsage.foldl_doDelete (accounted : htable.modifySallocator = true)
    (dels : List OBSliceEntry) {state : List OBSliceEntry × FSStorageAllocatorManager}
    (before : ChainUsage bkey others state) (members : ∀ slice ∈ dels, slice ∈ state.1)
    (distinct : Ascending OBSliceEntry.key dels) :
    ChainUsage bkey others (dels.foldl (doDeleteSlice sl htable) state) := by
  induction dels generalizing state with
  | nil => exact before
  | cons slice dels ih =>
      obtain ⟨below, restDistinct⟩ := Ascending.cons_iff.mp distinct
      have deleted := before.doDelete sl htable accounted (members slice List.mem_cons_self)
      refine ih deleted ?_ restDistinct
      intro other member
      rw [doDeleteSlice_chain, sl.delete_snd before.sorted]
      exact Chain.mem_erase.mpr
        ⟨members other (List.mem_cons_of_mem _ member), (below other member).ne'⟩

/-- Adding several slices whose trunks exist. -/
theorem ChainUsage.foldl_doAdd (accounted : htable.modifySallocator = true)
    (adds : List OBSliceEntry) {state : List OBSliceEntry × FSStorageAllocatorManager}
    (before : ChainUsage bkey others state)
    (own : ∀ slice ∈ adds, slice.ob = bkey)
    (present : ∀ slice ∈ adds, (state.2.trunks slice.space.trunk).isSome) :
    ChainUsage bkey others
      (adds.foldl (fun state slice => (doAddSlice sl htable state slice).2) state) := by
  induction adds generalizing state with
  | nil => exact before
  | cons slice adds ih =>
      have added := before.doAdd sl htable accounted (own slice List.mem_cons_self)
        (present slice List.mem_cons_self)
      refine ih added ?_ ?_
      · exact fun other member => own other (List.mem_cons_of_mem _ member)
      · intro other member
        rw [(sameSpace_doAddSlice sl htable state slice).isSome_eq]
        exact present other (List.mem_cons_of_mem _ member)

/-- A fragment lies in the block and the trunk of the slice it is cut from. -/
theorem source_of_mem_touchedPieces {lo hi : Int} {piece : OBSliceEntry}
    (member : piece ∈ touchedPieces lo hi chain) :
    ∃ slice ∈ chain, piece.ob = slice.ob ∧ piece.space.trunk = slice.space.trunk := by
  obtain ⟨slice, touched, cut⟩ := List.mem_flatMap.mp member
  refine ⟨slice, (List.mem_filter.mp touched).1, ?_⟩
  rcases mem_pieces.mp cut with ⟨rfl, _⟩ | ⟨rfl, _⟩ | ⟨rfl, _⟩
  · exact ⟨rfl, rfl⟩
  · exact ⟨OBSliceEntry.fragment_ob _ _ _, OBSliceEntry.fragment_trunk _ _ _⟩
  · exact ⟨OBSliceEntry.fragment_ob _ _ _, OBSliceEntry.fragment_trunk _ _ _⟩

/-- The common part of `add_slice` and `delete_slices`: the touched slices leave and
their pieces come back. -/
theorem ChainUsage.refill (accounted : htable.modifySallocator = true)
    (before : ChainUsage bkey others (chain, sa)) (lo hi : Int) :
    ChainUsage bkey others
      ((touchedPieces lo hi chain).foldl (fun state slice => (doAddSlice sl htable state slice).2)
        ((touchedSlices lo hi chain).foldl (doDeleteSlice sl htable) (chain, sa))) := by
  have deleted := before.foldl_doDelete sl htable accounted (touchedSlices lo hi chain)
    (fun slice member => (List.mem_filter.mp member).1)
    (before.sorted.sublist List.filter_sublist)
  refine deleted.foldl_doAdd sl htable accounted _ ?_ ?_
  · intro piece member
    obtain ⟨slice, inChain, own, _⟩ := source_of_mem_touchedPieces member
    exact own.trans (before.owned slice inChain)
  · intro piece member
    obtain ⟨slice, inChain, _, place⟩ := source_of_mem_touchedPieces member
    rw [(sameSpace_foldl_doDeleteSlice sl htable _ _).isSome_eq, place]
    exact before.usage.homed slice (mem_withChain.mpr (Or.inr inChain))

theorem ChainUsage.addSlice (accounted : htable.modifySallocator = true)
    (before : ChainUsage bkey others (chain, sa)) (laid : Laid chain) {slice : OBSliceEntry}
    (nonneg : 0 ≤ slice.ssize.length) (own : slice.ob = bkey)
    (present : (sa.trunks slice.space.trunk).isSome) :
    ChainUsage bkey others (addSlice sl htable chain slice sa).2.2 := by
  unfold Storage.addSlice
  split_ifs with empty
  · exact before.doAdd sl htable accounted own present
  · obtain ⟨dels, adds⟩ := addSliceScan_spec sl laid nonneg
    simp only [dels, adds]
    refine (before.refill sl htable accounted _ _).doAdd sl htable accounted own ?_
    rw [(sameSpace_foldl_doAddSlice sl htable _ _).isSome_eq,
      (sameSpace_foldl_doDeleteSlice sl htable _ _).isSome_eq]
    exact present

theorem ChainUsage.deleteSlices (accounted : htable.modifySallocator = true)
    (before : ChainUsage bkey others (chain, sa)) (laid : Laid chain) {range : FSSliceSize}
    (nonneg : 0 ≤ range.length) :
    ChainUsage bkey others (deleteSlices sl htable chain range sa).2.2 := by
  unfold Storage.deleteSlices
  split_ifs with empty
  · exact before
  · simp only [deleteSlicesScan_spec sl laid nonneg]
    split_ifs with untouched
    · exact before
    · exact before.refill sl htable accounted _ _

theorem sameSpace_addSlice (chain : List OBSliceEntry) (slice : OBSliceEntry)
    (sa : FSStorageAllocatorManager) :
    SameSpace (addSlice sl htable chain slice sa).2.2.2 sa := by
  unfold Storage.addSlice
  split_ifs with empty
  · exact sameSpace_doAddSlice sl htable (chain, sa) slice
  · refine (sameSpace_doAddSlice sl htable _ slice).trans ?_
    exact (sameSpace_foldl_doAddSlice sl htable _ _).trans
      (sameSpace_foldl_doDeleteSlice sl htable _ (chain, sa))

theorem sameSpace_deleteSlices (chain : List OBSliceEntry) (range : FSSliceSize)
    (sa : FSStorageAllocatorManager) :
    SameSpace (deleteSlices sl htable chain range sa).2.2.2 sa := by
  unfold Storage.deleteSlices
  split_ifs with empty
  · exact SameSpace.refl sa
  · dsimp only
    split_ifs with untouched
    · exact SameSpace.refl sa
    · exact (sameSpace_foldl_doAddSlice sl htable _ _).trans
        (sameSpace_foldl_doDeleteSlice sl htable _ (chain, sa))

theorem isSome_of_storageAllocatorAddSlice {slice : OBSliceEntry} {modifyUsedSpace : Bool}
    (done : (storageAllocatorAddSlice slice modifyUsedSpace sa).1 = .ok) :
    (sa.trunks slice.space.trunk).isSome := by
  have found : ∀ sa : FSStorageAllocatorManager,
      (trunkAllocatorAddSlice slice sa).1 = .ok → (sa.trunks slice.space.trunk).isSome := by
    intro sa entered
    unfold trunkAllocatorAddSlice at entered
    cases present : sa.trunks slice.space.trunk with
    | none => simp [present] at entered
    | some trunk => rfl
  cases modifyUsedSpace with
  | false => exact found sa done
  | true => exact found (addStatUsed slice.space.store slice.space.size sa) done

/-- An accounted add succeeds only for a new key and an existing trunk. -/
theorem doAddSlice_ok (accounted : htable.modifySallocator = true)
    {state : List OBSliceEntry × FSStorageAllocatorManager} {slice : OBSliceEntry}
    (done : (doAddSlice sl htable state slice).1 = .ok) :
    (sl.insert state.1 slice).1 = .ok ∧ (state.2.trunks slice.space.trunk).isSome := by
  unfold doAddSlice at done
  split at done
  · rename_i inserted
    simp only [accounted, if_true] at done
    exact ⟨by rw [inserted], isSome_of_storageAllocatorAddSlice done⟩
  · rename_i result chain refused inserted
    exact (refused done).elim

theorem ok_of_addSlice (accounted : htable.modifySallocator = true) (laid : Laid chain)
    {slice : OBSliceEntry} (nonneg : 0 ≤ slice.ssize.length)
    (done : (addSlice sl htable chain slice sa).1 = .ok) :
    (sl.insert (carve slice.ssize.offset slice.sliceEnd chain) slice).1 = .ok ∧
      (sa.trunks slice.space.trunk).isSome := by
  have order : slice.ssize.offset ≤ slice.sliceEnd := le_add_of_nonneg_right nonneg
  unfold Storage.addSlice at done
  split_ifs at done with empty
  · rw [empty, carve_nil]
    obtain ⟨inserted, present⟩ := doAddSlice_ok sl htable accounted done
    rw [empty] at inserted
    exact ⟨inserted, present⟩
  · obtain ⟨dels, adds⟩ := addSliceScan_spec sl laid nonneg
    simp only [dels, adds] at done
    obtain ⟨inserted, present⟩ := doAddSlice_ok sl htable accounted done
    rw [foldl_doAddSlice_chain, foldl_doDeleteSlice_chain, refilled_eq_carve sl laid order]
      at inserted
    rw [(sameSpace_foldl_doAddSlice sl htable _ _).isSome_eq,
      (sameSpace_foldl_doDeleteSlice sl htable _ _).isSome_eq] at present
    exact ⟨inserted, present⟩

/-- The loop of a block delete takes every slice of the chain out. -/
theorem usage_deleteBlockSlices (accounted : htable.modifySallocator = true)
    (owned : ∀ slice ∈ chain, slice.ob = bkey) (apart : ∀ slice ∈ others, slice.ob ≠ bkey)
    (nodup : chain.Nodup) (usage : UsageMatches (withChain others chain) sa) :
    UsageMatches others (deleteBlockSlices htable chain sa) := by
  simp only [deleteBlockSlices, accounted, if_true]
  induction chain generalizing sa with
  | nil =>
      have same : withChain others [] = others := by
        ext slice
        simp
      rw [same] at usage
      exact usage
  | cons slice rest ih =>
      obtain ⟨absent, restNodup⟩ := List.nodup_cons.mp nodup
      have left : withChain others (slice :: rest) \ {slice} = withChain others rest := by
        ext other
        simp only [Set.mem_sdiff, mem_withChain, List.mem_cons, Set.mem_singleton_iff]
        constructor
        · rintro ⟨outside | rfl | inRest, distinct⟩
          · exact Or.inl outside
          · exact absurd rfl distinct
          · exact Or.inr inRest
        · rintro (outside | inRest)
          · refine ⟨Or.inl outside, ?_⟩
            rintro rfl
            exact apart other outside (owned other List.mem_cons_self)
          · refine ⟨Or.inr (Or.inr inRest), ?_⟩
            rintro rfl
            exact absent inRest
      have deleted := usage.storageDelete
        (mem_withChain.mpr (Or.inr List.mem_cons_self)) htable.modifyUsedSpace
      rw [left] at deleted
      exact ih (fun other member => owned other (List.mem_cons_of_mem _ member)) restNodup deleted

theorem sameSpace_deleteBlockSlices (chain : List OBSliceEntry) (sa : FSStorageAllocatorManager) :
    SameSpace (deleteBlockSlices htable chain sa) sa := by
  unfold deleteBlockSlices
  cases htable.modifySallocator with
  | false => exact SameSpace.refl sa
  | true =>
      simp only [if_true]
      induction chain generalizing sa with
      | nil => exact SameSpace.refl sa
      | cons slice rest ih => exact (ih _).trans (sameSpace_storageAllocatorDeleteSlice slice _ sa)

end Chain

/-! ## The whole index -/

namespace OBHashtable

/-- The slices of all blocks. -/
def slices (htable : OBHashtable) : Set OBSliceEntry := {slice | slice ∈ htable.slicesOf slice.ob}

/-- Every slice points to the block it is filed under. -/
def Owned (htable : OBHashtable) : Prop :=
  ∀ bkey, ∀ slice ∈ htable.slicesOf bkey, slice.ob = bkey

/-- The slices of the other blocks. -/
def slicesBut (htable : OBHashtable) (bkey : FSBlockKey) : Set OBSliceEntry :=
  {slice | slice ∈ htable.slices ∧ slice.ob ≠ bkey}

variable {htable : OBHashtable} {bkey : FSBlockKey}

/-- The chain of one block and the other blocks make up the index. -/
theorem slices_eq_withChain {after : OBHashtable} {chain : List OBSliceEntry}
    (owned : ∀ slice ∈ chain, slice.ob = bkey) (self : after.slicesOf bkey = chain)
    (others : ∀ other, other ≠ bkey → after.slicesOf other = htable.slicesOf other) :
    after.slices = withChain (htable.slicesBut bkey) chain := by
  ext slice
  rw [mem_withChain]
  by_cases same : slice.ob = bkey
  · simp only [slices, slicesBut, Set.mem_ofPred_eq, same, self, ne_eq, not_true_eq_false, and_false,
      false_or]
  · have elsewhere : slice ∉ chain := fun member => same (owned slice member)
    simp [slices, slicesBut, same, elsewhere, others slice.ob same]

theorem Owned.of_slicesOf {after : OBHashtable} {chain : List OBSliceEntry}
    (owned : htable.Owned) (chainOwned : ∀ slice ∈ chain, slice.ob = bkey)
    (changed : ∀ other, after.slicesOf other = if other = bkey then chain else htable.slicesOf other) :
    after.Owned := by
  intro other slice member
  rw [changed] at member
  by_cases same : other = bkey
  · rw [if_pos same] at member
    exact (chainOwned slice member).trans same.symm
  · rw [if_neg same] at member
    exact owned other slice member

end OBHashtable

section Calls

variable (sl : UniqSkiplist OBSliceEntry.key) (withSn : Bool) (state : IndexState)

/-- The trunks after an index call are those the update of the block's chain leaves. -/
theorem sallocator_obIndexAddSliceEx {state : IndexState} {slice : OBSliceEntry} {ob : OBEntry}
    (entry : state.htable.getObEntry slice.ob = some ob) :
    (obIndexAddSliceEx sl withSn slice state).2.2.sallocator =
      (addSlice sl state.htable (state.htable.slicesOf slice.ob) slice
        state.sallocator).2.2.2 := by
  rw [OBHashtable.slicesOf_of_getObEntry entry]
  simp only [obIndexAddSliceEx, entry]

theorem sallocator_obIndexDeleteSlicesEx (bsKey : FSBlockSliceKeyInfo) :
    (obIndexDeleteSlicesEx sl withSn bsKey state).2.2.sallocator =
      (deleteSlices sl state.htable (state.htable.slicesOf bsKey.block) bsKey.slice
        state.sallocator).2.2.2 := by
  unfold obIndexDeleteSlicesEx
  cases entry : state.htable.getObEntry bsKey.block with
  | none =>
      rw [OBHashtable.slicesOf_of_absent entry]
      rfl
  | some ob =>
      rw [OBHashtable.slicesOf_of_getObEntry entry]
      dsimp only
      split_ifs <;> rfl

theorem sallocator_obIndexDeleteBlockEx (bkey : FSBlockKey) :
    (obIndexDeleteBlockEx withSn bkey state).2.2.sallocator =
      deleteBlockSlices state.htable (state.htable.slicesOf bkey) state.sallocator := by
  unfold obIndexDeleteBlockEx
  cases entry : state.htable.getObEntry bkey with
  | none =>
      rw [OBHashtable.slicesOf_of_absent entry]
      simp [deleteBlockSlices]
  | some ob =>
      rw [OBHashtable.slicesOf_of_getObEntry entry]
      dsimp only
      split_ifs <;> rfl

end Calls

/-- An index whose trunks account for its slices. -/
structure IndexState.Accounted (state : IndexState) : Prop where
  sound : state.htable.Sound
  owned : state.htable.Owned
  accounted : state.htable.modifySallocator = true
  usage : UsageMatches state.htable.slices state.sallocator

namespace IndexState.Accounted

variable (sl : UniqSkiplist OBSliceEntry.key) {state : IndexState} (withSn : Bool)
  {bkey : FSBlockKey}

/-- The account of one block of the index. -/
theorem chainUsage (before : state.Accounted) (bkey : FSBlockKey) :
    ChainUsage bkey (state.htable.slicesBut bkey)
      (state.htable.slicesOf bkey, state.sallocator) := by
  have all : state.htable.slices =
      withChain (state.htable.slicesBut bkey) (state.htable.slicesOf bkey) :=
    OBHashtable.slices_eq_withChain (before.owned bkey) rfl fun _ _ => rfl
  constructor
  · exact (before.sound.laid bkey).ascending
  · exact before.owned bkey
  · exact fun slice member => member.2
  · exact all ▸ before.usage

/-- An index call that changes the chain of one block, and the trunks with it. -/
theorem of_chain {after : IndexState} {chain : List OBSliceEntry} (before : state.Accounted)
    (sound : after.htable.Sound)
    (flag : after.htable.modifySallocator = state.htable.modifySallocator)
    (changed : ∀ other, after.htable.slicesOf other =
      if other = bkey then chain else state.htable.slicesOf other)
    (owned : ∀ slice ∈ chain, slice.ob = bkey)
    (usage : UsageMatches (withChain (state.htable.slicesBut bkey) chain) after.sallocator) :
    after.Accounted := by
  have all : after.htable.slices = withChain (state.htable.slicesBut bkey) chain := by
    apply OBHashtable.slices_eq_withChain owned
    · rw [changed, if_pos rfl]
    · intro other distinct
      rw [changed, if_neg distinct]
  constructor
  · exact sound
  · exact before.owned.of_slicesOf owned changed
  · rw [flag, before.accounted]
  · rw [all]
    exact usage

theorem alloc (before : state.Accounted) (bkey : FSBlockKey) :
    IndexState.Accounted { state with htable := obIndexAllocSliceEx bkey state.htable } := by
  have slices := OBHashtable.slicesOf_alloc before.sound.wf bkey
  constructor
  · exact before.sound.alloc bkey
  · intro other slice member
    rw [slices] at member
    exact before.owned other slice member
  · exact before.accounted
  · have all : (obIndexAllocSliceEx bkey state.htable).slices = state.htable.slices := by
      ext slice
      simp only [OBHashtable.slices, Set.mem_ofPred_eq, slices]
    rw [all]
    exact before.usage

theorem addSliceEx (before : state.Accounted) {slice : OBSliceEntry} {ob : OBEntry}
    (entry : state.htable.getObEntry slice.ob = some ob) (nonneg : 0 ≤ slice.ssize.length)
    (present : (state.sallocator.trunks slice.space.trunk).isSome) :
    (obIndexAddSliceEx sl withSn slice state).2.2.Accounted := by
  have added := (before.chainUsage slice.ob).addSlice sl state.htable before.accounted
    (before.sound.laid slice.ob) nonneg rfl present
  refine before.of_chain (sound_obIndexAddSliceEx sl withSn before.sound entry nonneg)
    (sameShape_obIndexAddSliceEx sl withSn slice state).modifySallocator
    (slicesOf_obIndexAddSliceEx sl withSn before.sound entry) added.owned ?_
  rw [sallocator_obIndexAddSliceEx sl withSn entry]
  exact added.usage

theorem deleteSlicesEx (before : state.Accounted) {bsKey : FSBlockSliceKeyInfo}
    (nonneg : 0 ≤ bsKey.slice.length) :
    (obIndexDeleteSlicesEx sl withSn bsKey state).2.2.Accounted := by
  have laid := before.sound.laid bsKey.block
  have deleted := (before.chainUsage bsKey.block).deleteSlices sl state.htable before.accounted
    laid nonneg
  have chain := deleteSlices_chain sl state.htable laid nonneg state.sallocator
  refine before.of_chain (sound_obIndexDeleteSlicesEx sl withSn before.sound nonneg)
    (sameShape_obIndexDeleteSlicesEx sl withSn bsKey state).modifySallocator
    (slicesOf_obIndexDeleteSlicesEx sl withSn before.sound nonneg) ?_ ?_
  · rw [← chain]
    exact deleted.owned
  · rw [sallocator_obIndexDeleteSlicesEx, ← chain]
    exact deleted.usage

theorem deleteBlockEx (before : state.Accounted) (bkey : FSBlockKey) :
    (obIndexDeleteBlockEx withSn bkey state).2.2.Accounted := by
  have usage := before.chainUsage bkey
  have deleted := usage_deleteBlockSlices state.htable before.accounted usage.owned usage.apart
    usage.sorted.nodup usage.usage
  have none : withChain (state.htable.slicesBut bkey) [] = state.htable.slicesBut bkey := by
    ext slice
    simp
  refine before.of_chain (sound_obIndexDeleteBlockEx withSn before.sound bkey)
    (sameShape_obIndexDeleteBlockEx withSn bkey state).modifySallocator
    (slicesOf_obIndexDeleteBlockEx withSn before.sound.wf bkey) ?_ ?_
  · intro slice member
    cases member
  · rw [none, sallocator_obIndexDeleteBlockEx]
    exact deleted

end IndexState.Accounted

end FastStore.Storage
