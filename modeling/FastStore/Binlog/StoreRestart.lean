import FastStore.Binlog.SliceLoader
import FastStore.Util.System

/-!
# A restart rebuilds the store

The live store as a step relation: index calls change the chain of a block under the
lock of that block, take a sequence number before the lock is given back, and log one
record under it.  Calls on different blocks interleave freely, so the numbers of a
log need not follow the order of the changes; they do for each block.  Loading the
log in number order therefore ends with the chains of the live index, and the dump
with its accounts.
-/

namespace FastStore.Binlog

open FastStore.Util FastStore.Util.Extent FastStore.Storage

/-- The live index, the record of the call that holds the lock of a block and has
still to take its number, and the numbered records. -/
structure StoreState where
  index : IndexState
  holding : FSBlockKey → Option SliceBinlogRecord
  binlog : List (Nat × SliceBinlogRecord)

/-- The actions of data threads, reclaimers and the trunk maker. -/
inductive StoreAction where
  | allocSlice (bkey : FSBlockKey)
  | addSlice (slice : OBSliceEntry)
  | deleteSlices (bsKey : FSBlockSliceKeyInfo)
  | deleteBlock (bkey : FSBlockKey)
  | takeSn (bkey : FSBlockKey)
  | changeSpace (sallocator : FSStorageAllocatorManager)

/-- The trunk maker may change anything but the accounts: a new trunk is unused, and
no trunk goes away. -/
structure KeepsAccounts (before after : FSStorageAllocatorManager) : Prop where
  kept : ∀ key trunk, before.trunks key = some trunk → ∃ changed, after.trunks key = some changed ∧
    changed.usedSlices = trunk.usedSlices ∧ changed.usedBytes = trunk.usedBytes ∧
    changed.usedCount = trunk.usedCount
  unused : ∀ key trunk, before.trunks key = none → after.trunks key = some trunk →
    trunk.usedSlices = [] ∧ trunk.usedBytes = 0 ∧ trunk.usedCount = 0

theorem KeepsAccounts.usage {slices : Set OBSliceEntry}
    {before after : FSStorageAllocatorManager} (keeps : KeepsAccounts before after)
    (usage : UsageMatches slices before) : UsageMatches slices after := by
  have homed : ∀ slice ∈ slices, (after.trunks slice.space.trunk).isSome := by
    intro slice member
    obtain ⟨trunk, found⟩ := Option.isSome_iff_exists.mp (usage.homed slice member)
    obtain ⟨changed, stored, _⟩ := keeps.kept _ trunk found
    rw [stored]
    rfl
  have traced : ∀ key trunk, after.trunks key = some trunk →
      (∃ old, before.trunks key = some old ∧ trunk.usedSlices = old.usedSlices ∧
        trunk.usedBytes = old.usedBytes ∧ trunk.usedCount = old.usedCount) ∨
      (before.trunks key = none ∧ trunk.usedSlices = [] ∧ trunk.usedBytes = 0 ∧
        trunk.usedCount = 0) := by
    intro key trunk stored
    cases found : before.trunks key with
    | none => exact Or.inr ⟨rfl, keeps.unused key trunk found stored⟩
    | some old =>
        obtain ⟨changed, again, same⟩ := keeps.kept key old found
        rw [stored] at again
        cases again
        exact Or.inl ⟨old, rfl, same⟩
  constructor
  · exact homed
  · intro key trunk stored
    rcases traced key trunk stored with ⟨old, found, list, _⟩ | ⟨_, list, _⟩
    · rw [list]
      exact usage.nodup key old found
    · rw [list]
      exact List.nodup_nil
  · intro key trunk stored slice
    rcases traced key trunk stored with ⟨old, found, list, _⟩ | ⟨absent, list, _⟩
    · rw [list]
      exact usage.used key old found slice
    · rw [list]
      constructor
      · intro member
        cases member
      · rintro ⟨member, rfl⟩
        have present := usage.homed slice member
        rw [absent] at present
        cases present
  · intro key trunk stored
    rcases traced key trunk stored with ⟨old, found, list, bytes, _⟩ | ⟨_, list, bytes, _⟩
    · rw [list, bytes]
      exact usage.bytes key old found
    · rw [list, bytes]
      rfl
  · intro key trunk stored
    rcases traced key trunk stored with ⟨old, found, list, _, count⟩ | ⟨_, list, _, count⟩
    · rw [list, count]
      exact usage.count key old found
    · rw [list, count]
      rfl

namespace StoreState

/-- The state after a call on a block: a call that succeeds keeps the lock until its
record is numbered. -/
def called (s : StoreState) (bkey : FSBlockKey) (record : SliceBinlogRecord) (result : Errno)
    (index : IndexState) : StoreState :=
  { s with
    index := index
    holding := if result = .ok then Function.update s.holding bkey (some record) else s.holding }

end StoreState

section System

variable (sl : UniqSkiplist OBSliceEntry.key)

/-- When an action can be taken as a part of a run of successful updates. -/
def StoreState.Enabled (s : StoreState) : StoreAction → Prop
  | .allocSlice _ => True
  | .addSlice slice =>
      s.holding slice.ob = none ∧ 0 ≤ slice.ssize.length ∧
        (obIndexAddSliceEx sl false slice s.index).1 = .ok
  | .deleteSlices bsKey => s.holding bsKey.block = none ∧ 0 ≤ bsKey.slice.length
  | .deleteBlock bkey =>
      -- a delete that finds no bytes is no update, but would still unlink empty slices
      s.holding bkey = none ∧
        ((obIndexDeleteBlockEx false bkey s.index).1 = .ok ∨ s.index.htable.slicesOf bkey = [])
  | .takeSn bkey => (s.holding bkey).isSome
  | .changeSpace sallocator => KeepsAccounts s.index.sallocator sallocator

/-- The state after an action.  `ob_index_add_slice_ex` and the deletes take the number
as the last part of their critical section, which is the action `takeSn`. -/
def StoreState.next (s : StoreState) : StoreAction → StoreState
  | .allocSlice bkey =>
      { s with index := { s.index with htable := obIndexAllocSliceEx bkey s.index.htable } }
  | .addSlice slice =>
      s.called slice.ob (sliceBinlogLogAddSlice slice)
        (obIndexAddSliceEx sl false slice s.index).1
        (obIndexAddSliceEx sl false slice s.index).2.2
  | .deleteSlices bsKey =>
      s.called bsKey.block (sliceBinlogLogDelSlice bsKey)
        (obIndexDeleteSlicesEx sl false bsKey s.index).1
        (obIndexDeleteSlicesEx sl false bsKey s.index).2.2
  | .deleteBlock bkey =>
      s.called bkey (sliceBinlogLogDelBlock bkey)
        (obIndexDeleteBlockEx false bkey s.index).1
        (obIndexDeleteBlockEx false bkey s.index).2.2
  | .takeSn bkey =>
      match s.holding bkey with
      | some record =>
          ⟨{ s.index with sliceBinlogSn := s.index.sliceBinlogSn + 1 },
            Function.update s.holding bkey none,
            s.binlog ++ [(s.index.sliceBinlogSn + 1, record)]⟩
      | none => s
  | .changeSpace sallocator => { s with index := { s.index with sallocator := sallocator } }

/-- The steps of the store. -/
def StoreStep : StepRel StoreState StoreAction :=
  StepRel.ofNext (StoreState.Enabled sl) (StoreState.next sl)

/-- An empty store: no slices, no used trunks, an empty log. -/
def StoreInit (s : StoreState) : Prop :=
  (∃ capacity modifyUsedSpace, s.index.htable =
    ⟨capacity, fun _ => [], true, modifyUsedSpace⟩) ∧
  KeepsAccounts ⟨fun _ => none, s.index.sallocator.allocators,
    s.index.sallocator.reclaimFreelist⟩ s.index.sallocator ∧
  (∀ bkey, s.holding bkey = none) ∧ s.binlog = []

/-- What holds between the live index and its log. -/
structure StoreInvariant (s : StoreState) : Prop where
  accounted : s.index.Accounted
  own : ∀ bkey record, s.holding bkey = some record →
    record.bsKey.block = bkey ∧ 0 ≤ record.bsKey.slice.length
  nonneg : ∀ entry ∈ s.binlog, 0 ≤ entry.2.bsKey.slice.length
  ordered : Ascending Prod.fst s.binlog
  numbered : ∀ entry ∈ s.binlog, entry.1 ≤ s.index.sliceBinlogSn
  effects : ∀ bkey,
    (recordsOf bkey (s.binlog.map Prod.snd) ++ (s.holding bkey).toList).foldlM
      (chainEffect sl) [] = some (s.index.htable.slicesOf bkey)

variable {sl} {s : StoreState}

/-- A change of the index that no block sees. -/
theorem StoreInvariant.of_slicesOf (before : StoreInvariant sl s) {index : IndexState}
    (accounted : index.Accounted) (sn : index.sliceBinlogSn = s.index.sliceBinlogSn)
    (same : ∀ bkey, index.htable.slicesOf bkey = s.index.htable.slicesOf bkey) :
    StoreInvariant sl { s with index := index } := by
  constructor
  · exact accounted
  · exact before.own
  · exact before.nonneg
  · exact before.ordered
  · intro entry member
    rw [sn]
    exact before.numbered entry member
  · intro bkey
    rw [same]
    exact before.effects bkey

/-- A successful call on a block whose lock is free. -/
theorem StoreInvariant.called (before : StoreInvariant sl s) (record : SliceBinlogRecord)
    {index : IndexState} {chain : List OBSliceEntry}
    (free : s.holding record.bsKey.block = none) (nonneg : 0 ≤ record.bsKey.slice.length)
    (accounted : index.Accounted) (sn : index.sliceBinlogSn = s.index.sliceBinlogSn)
    (effect : chainEffect sl (s.index.htable.slicesOf record.bsKey.block) record = some chain)
    (changed : ∀ bkey, index.htable.slicesOf bkey =
      if bkey = record.bsKey.block then chain else s.index.htable.slicesOf bkey) :
    StoreInvariant sl (s.called record.bsKey.block record .ok index) := by
  constructor
  · exact accounted
  · intro bkey other held
    simp only [StoreState.called, if_true] at held
    by_cases same : bkey = record.bsKey.block
    · rw [same, Function.update_self] at held
      rw [← Option.some.inj held]
      exact ⟨same.symm, nonneg⟩
    · rw [Function.update_of_ne same] at held
      exact before.own bkey other held
  · exact before.nonneg
  · exact before.ordered
  · intro entry member
    simp only [StoreState.called, sn]
    exact before.numbered entry member
  · intro bkey
    simp only [StoreState.called, if_true]
    rw [changed]
    by_cases same : bkey = record.bsKey.block
    · have earlier := before.effects bkey
      rw [same, free, Option.toList_none, List.append_nil] at earlier
      rw [if_pos same, same, Function.update_self, Option.toList_some, List.foldlM_append, earlier]
      simp [effect]
    · rw [if_neg same, Function.update_of_ne same]
      exact before.effects bkey

/-- A call that fails and changes no block. -/
theorem StoreInvariant.refused (before : StoreInvariant sl s) {index : IndexState}
    {bkey : FSBlockKey} {record : SliceBinlogRecord} {result : Errno} (failed : result ≠ .ok)
    (accounted : index.Accounted) (sn : index.sliceBinlogSn = s.index.sliceBinlogSn)
    (same : ∀ bkey, index.htable.slicesOf bkey = s.index.htable.slicesOf bkey) :
    StoreInvariant sl (s.called bkey record result index) := by
  have unlocked : s.called bkey record result index = { s with index := index } := by
    simp [StoreState.called, failed]
  rw [unlocked]
  exact before.of_slicesOf accounted sn same

/-! ## The steps -/

variable (sl) in
theorem sliceBinlogSn_obIndexAddSliceEx (slice : OBSliceEntry) (index : IndexState) :
    (obIndexAddSliceEx sl false slice index).2.2.sliceBinlogSn = index.sliceBinlogSn := by
  unfold obIndexAddSliceEx
  cases index.htable.getObEntry slice.ob with
  | none => rfl
  | some ob => exact ite_self _

variable (sl) in
theorem sliceBinlogSn_obIndexDeleteSlicesEx (bsKey : FSBlockSliceKeyInfo) (index : IndexState) :
    (obIndexDeleteSlicesEx sl false bsKey index).2.2.sliceBinlogSn = index.sliceBinlogSn := by
  unfold obIndexDeleteSlicesEx
  cases index.htable.getObEntry bsKey.block with
  | none => rfl
  | some ob =>
      dsimp only
      split_ifs <;> rfl

theorem sliceBinlogSn_obIndexDeleteBlockEx (bkey : FSBlockKey) (index : IndexState) :
    (obIndexDeleteBlockEx false bkey index).2.2.sliceBinlogSn = index.sliceBinlogSn := by
  unfold obIndexDeleteBlockEx
  cases index.htable.getObEntry bkey with
  | none => rfl
  | some ob =>
      dsimp only
      split_ifs <;> rfl

theorem StoreInvariant.addSlice (before : StoreInvariant sl s) {slice : OBSliceEntry}
    (free : s.holding slice.ob = none) (nonneg : 0 ≤ slice.ssize.length)
    (done : (obIndexAddSliceEx sl false slice s.index).1 = .ok) :
    StoreInvariant sl (s.called slice.ob (sliceBinlogLogAddSlice slice) .ok
      (obIndexAddSliceEx sl false slice s.index).2.2) := by
  cases entry : s.index.htable.getObEntry slice.ob with
  | none => simp [obIndexAddSliceEx, entry] at done
  | some ob =>
      have laid := before.accounted.sound.laid slice.ob
      have added : (Storage.addSlice sl s.index.htable (s.index.htable.slicesOf slice.ob) slice
          s.index.sallocator).1 = .ok := by
        rw [OBHashtable.slicesOf_of_getObEntry entry]
        simpa [obIndexAddSliceEx, entry] using done
      obtain ⟨inserted, present⟩ :=
        ok_of_addSlice sl s.index.htable before.accounted.accounted laid nonneg added
      have chain := addSlice_chain sl s.index.htable laid nonneg s.index.sallocator
      have effect : insertEffect sl (s.index.htable.slicesOf slice.ob) slice =
          some (Storage.addSlice sl s.index.htable (s.index.htable.slicesOf slice.ob) slice
            s.index.sallocator).2.2.1 := by
        rw [insertEffect_eq_some, chain]
        exact Prod.ext inserted rfl
      have logged : chainEffect sl (s.index.htable.slicesOf slice.ob)
          (sliceBinlogLogAddSlice slice) = insertEffect sl (s.index.htable.slicesOf slice.ob) slice := by
        cases slice with
        | mk ob type ssize space => cases type <;> rfl
      have invariant := before.called (sliceBinlogLogAddSlice slice)
        (by simpa using free) (by simpa using nonneg)
        (before.accounted.addSliceEx sl false entry nonneg present)
        (sliceBinlogSn_obIndexAddSliceEx sl slice s.index)
        (by simpa [logged] using effect)
        (by simpa using slicesOf_obIndexAddSliceEx sl false before.accounted.sound entry)
      simpa using invariant

theorem StoreInvariant.deleteSlices (before : StoreInvariant sl s) {bsKey : FSBlockSliceKeyInfo}
    (free : s.holding bsKey.block = none) (nonneg : 0 ≤ bsKey.slice.length) :
    StoreInvariant sl (s.called bsKey.block (sliceBinlogLogDelSlice bsKey)
      (obIndexDeleteSlicesEx sl false bsKey s.index).1
      (obIndexDeleteSlicesEx sl false bsKey s.index).2.2) := by
  have sound := before.accounted.sound
  have accounted := before.accounted.deleteSlicesEx sl false nonneg
  have sn := sliceBinlogSn_obIndexDeleteSlicesEx sl bsKey s.index
  have changed := slicesOf_obIndexDeleteSlicesEx sl false sound nonneg
  have result := result_obIndexDeleteSlicesEx sl false sound nonneg
  by_cases untouched : touchedSlices bsKey.slice.offset (bsKey.slice.offset + bsKey.slice.length)
      (s.index.htable.slicesOf bsKey.block) = []
  · rw [if_pos untouched] at result
    refine before.refused (by rw [result]; decide) accounted sn fun bkey => ?_
    rw [changed]
    split_ifs with same
    · rw [same]
      refine carve_eq_self fun slice member touched => ?_
      have found : slice ∈ touchedSlices bsKey.slice.offset
          (bsKey.slice.offset + bsKey.slice.length) (s.index.htable.slicesOf bsKey.block) :=
        List.mem_filter.mpr ⟨member, by simpa using touched⟩
      rw [untouched] at found
      cases found
    · rfl
  · rw [if_neg untouched] at result
    rw [result]
    refine before.called (sliceBinlogLogDelSlice bsKey) free nonneg accounted sn ?_ changed
    exact if_neg untouched

theorem StoreInvariant.deleteBlock (before : StoreInvariant sl s) {bkey : FSBlockKey}
    (free : s.holding bkey = none)
    (update : (obIndexDeleteBlockEx false bkey s.index).1 = .ok ∨
      s.index.htable.slicesOf bkey = []) :
    StoreInvariant sl (s.called bkey (sliceBinlogLogDelBlock bkey)
      (obIndexDeleteBlockEx false bkey s.index).1
      (obIndexDeleteBlockEx false bkey s.index).2.2) := by
  have accounted := before.accounted.deleteBlockEx false bkey
  have sn := sliceBinlogSn_obIndexDeleteBlockEx bkey s.index
  have changed := slicesOf_obIndexDeleteBlockEx false before.accounted.sound.wf bkey
  have result := result_obIndexDeleteBlockEx false bkey s.index
  by_cases bytes : 0 < ((s.index.htable.slicesOf bkey).map fun slice => slice.ssize.length).sum
  · rw [if_pos bytes] at result
    rw [result]
    refine before.called (sliceBinlogLogDelBlock bkey) free le_rfl accounted sn ?_ changed
    exact if_pos bytes
  · rw [if_neg bytes] at result
    have empty : s.index.htable.slicesOf bkey = [] := by
      rcases update with done | empty
      · rw [result] at done
        cases done
      · exact empty
    refine before.refused (by rw [result]; decide) accounted sn fun other => ?_
    rw [changed]
    split_ifs with same
    · rw [same, empty]
    · rfl

theorem StoreInvariant.takeSn (before : StoreInvariant sl s) {bkey : FSBlockKey}
    {record : SliceBinlogRecord} (held : s.holding bkey = some record) :
    StoreInvariant sl ⟨{ s.index with sliceBinlogSn := s.index.sliceBinlogSn + 1 },
      Function.update s.holding bkey none,
      s.binlog ++ [(s.index.sliceBinlogSn + 1, record)]⟩ := by
  obtain ⟨block, nonneg⟩ := before.own bkey record held
  constructor
  · exact ⟨before.accounted.sound, before.accounted.owned, before.accounted.accounted,
      before.accounted.usage⟩
  · intro other later lock
    by_cases same : other = bkey
    · rw [same] at lock
      simp at lock
    · simp only [Function.update_of_ne same] at lock
      exact before.own other later lock
  · intro entry member
    rcases List.mem_append.mp member with old | new
    · exact before.nonneg entry old
    · rw [List.mem_singleton.mp new]
      exact nonneg
  · refine Ascending.append_iff.mpr ⟨before.ordered, List.pairwise_singleton _ _, ?_⟩
    intro entry member last lastMember
    rw [List.mem_singleton.mp lastMember]
    exact Nat.lt_succ_of_le (before.numbered entry member)
  · intro entry member
    rcases List.mem_append.mp member with old | new
    · exact (before.numbered entry old).trans (Nat.le_succ _)
    · rw [List.mem_singleton.mp new]
  · -- the record of the block moves from the lock to the log
    intro other
    have earlier := before.effects other
    dsimp only
    rw [List.map_append, recordsOf_append, List.map_singleton, recordsOf_cons]
    by_cases same : other = bkey
    · rw [same, held] at earlier
      rw [same, if_pos block, Function.update_self, Option.toList_none, List.append_nil]
      exact earlier
    · have elsewhere : record.bsKey.block ≠ other := by
        rw [block]
        exact Ne.symm same
      rw [if_neg elsewhere, Function.update_of_ne same]
      simpa [recordsOf] using earlier

theorem StoreInvariant.init (start : StoreInit s) : StoreInvariant sl s := by
  obtain ⟨⟨capacity, modifyUsedSpace, table⟩, unused, free, noLog⟩ := start
  have empty : ∀ bkey, s.index.htable.slicesOf bkey = [] := by
    intro bkey
    rw [table]
    rfl
  have none : UsageMatches s.index.htable.slices
      ⟨fun _ => none, s.index.sallocator.allocators, s.index.sallocator.reclaimFreelist⟩ := by
    constructor
    · intro slice member
      have filed : slice ∈ s.index.htable.slicesOf slice.ob := member
      rw [empty] at filed
      cases filed
    all_goals
      intro key trunk found
      cases found
  constructor
  · constructor
    · rw [table]
      have sound := OBHashtable.Sound.init capacity
      exact ⟨⟨sound.wf.ascending, sound.wf.home⟩, sound.laid⟩
    · intro bkey slice member
      rw [empty] at member
      cases member
    · rw [table]
    · exact unused.usage none
  · intro bkey record held
    rw [free] at held
    cases held
  · rw [noLog]
    intro entry member
    cases member
  · rw [noLog]
    exact Ascending.nil _
  · rw [noLog]
    intro entry member
    cases member
  · intro bkey
    rw [noLog, free, empty]
    rfl

/-- The log explains the index in every reachable state. -/
theorem storeInvariant_of_reachable (reached : Reachable (StoreStep sl) StoreInit s) :
    StoreInvariant sl s := by
  refine reached.invariant (fun s start => StoreInvariant.init start) ?_
  rintro s action _ before ⟨enabled, rfl⟩
  cases action with
  | allocSlice bkey =>
      refine before.of_slicesOf (before.accounted.alloc bkey) rfl ?_
      exact OBHashtable.slicesOf_alloc before.accounted.sound.wf bkey
  | addSlice slice =>
      obtain ⟨free, nonneg, done⟩ := enabled
      have added := before.addSlice free nonneg done
      simp only [StoreState.next, done]
      exact added
  | deleteSlices bsKey => exact before.deleteSlices enabled.1 enabled.2
  | deleteBlock bkey => exact before.deleteBlock enabled.1 enabled.2
  | takeSn bkey =>
      obtain ⟨record, held⟩ := Option.isSome_iff_exists.mp enabled
      have taken := before.takeSn held
      simp only [StoreState.next, held]
      exact taken
  | changeSpace sallocator =>
      refine before.of_slicesOf ?_ rfl fun _ => rfl
      exact ⟨before.accounted.sound, before.accounted.owned, before.accounted.accounted,
        enabled.usage before.accounted.usage⟩

/-! ## The restart -/

/-- `trunk_allocator_add`: a trunk as the trunk binlog brings it back. -/
def trunkAllocatorAdd (idInfo : FSTrunkIdInfo) (size : Int) : FSTrunkFileInfo :=
  ⟨idInfo, .none, 0, 0, [], size, 0, .none, 0⟩

/-- The trunks of the live store after a restart, before any slice is filed. -/
def reloadTrunks (live : FSStorageAllocatorManager) : FSStorageAllocatorManager :=
  { live with
    trunks := fun key => (live.trunks key).map fun trunk => trunkAllocatorAdd trunk.idInfo trunk.size }

/-- The dump of a loaded index with the slices of the live one restores the accounts of
the live trunks, and no free space begins before the end of a slice. -/
theorem dump_restores_accounts {index : IndexState} (live : index.Accounted)
    {htable : OBHashtable} (sound : htable.Sound) (capacity : 0 < htable.capacity)
    (same : ∀ bkey, htable.slicesOf bkey = index.htable.slicesOf bkey)
    {ranges : List (Nat × Nat)}
    (shared : (ranges.flatMap fun range => List.range' range.1 (range.2 - range.1)).Perm
      (List.range htable.capacity)) :
    (sliceDumpSlicesToTrunk htable ranges (reloadTrunks index.sallocator)).1 = .ok ∧
      ∀ key trunk, index.sallocator.trunks key = some trunk → ∃ dumped,
        (sliceDumpSlicesToTrunk htable ranges (reloadTrunks index.sallocator)).2.trunks key =
            some dumped ∧
          dumped.usedBytes = trunk.usedBytes ∧ dumped.usedCount = trunk.usedCount ∧
          ∀ slice ∈ index.htable.slices, slice.space.trunk = key →
            slice.space.offset + slice.space.size ≤ dumped.freeStart := by
  have owned : htable.Owned := by
    intro bkey slice member
    rw [same] at member
    exact live.owned bkey slice member
  have slices : htable.slices = index.htable.slices := by
    ext slice
    simp only [OBHashtable.slices, Set.mem_ofPred_eq, same]
  have walk := perm_slicesInBuckets htable shared
  have members : ∀ slice, slice ∈ (ranges.flatMap fun range =>
      slicesInBuckets htable range.1 range.2) ↔ slice ∈ index.htable.slices := by
    intro slice
    rw [walk.mem_iff, mem_entries_slices sound owned capacity, slices]
  have homed : ∀ slice ∈ ranges.flatMap fun range => slicesInBuckets htable range.1 range.2,
      ((reloadTrunks index.sallocator).trunks slice.space.trunk).isSome := by
    intro slice member
    rw [reloadTrunks, Option.isSome_map]
    exact live.usage.homed slice ((members slice).mp member)
  obtain ⟨filed, filedPerm, dump⟩ := sliceDumpSlicesToTrunk_eq ranges homed
  rw [dump]
  refine ⟨rfl, fun key trunk found => ?_⟩
  have stored : (filed.foldl fileSlice (reloadTrunks index.sallocator)).trunks key =
      some ((filed.filter fun slice => slice.space.trunk = key).foldl batchAddSlice
        (trunkAllocatorAdd trunk.idInfo trunk.size)) := by
    rw [foldl_fileSlice_trunks]
    simp [reloadTrunks, found]
  obtain ⟨bytes, count, _, covers⟩ := foldl_batchAddSlice_spec
    (filed.filter fun slice => slice.space.trunk = key) (trunkAllocatorAdd trunk.idInfo trunk.size)
  have inFiled : ∀ slice, slice ∈ filed ↔ slice ∈ index.htable.slices := fun slice =>
    filedPerm.mem_iff.trans (members slice)
  -- both lists hold the slices of the index in this trunk, each once
  have perm : (filed.filter fun slice => slice.space.trunk = key).Perm trunk.usedSlices := by
    have nodup : filed.Nodup :=
      filedPerm.nodup_iff.mpr (walk.nodup_iff.mpr (nodup_entries_slices sound owned capacity))
    refine (List.perm_ext_iff_of_nodup (nodup.filter _) (live.usage.nodup key trunk found)).mpr ?_
    intro slice
    rw [List.mem_filter, inFiled, live.usage.used key trunk found]
    simp
  refine ⟨_, stored, ?_, ?_, ?_⟩
  · rw [bytes, live.usage.bytes key trunk found, (perm.map _).sum_eq]
    exact zero_add _
  · rw [count, live.usage.count key trunk found, perm.length_eq]
    exact zero_add _
  · intro slice member place
    exact covers slice (List.mem_filter.mpr ⟨(inFiled slice).mpr member, by simpa using place⟩)

/-- The block whose lock an action takes or gives back. -/
def StoreAction.block : StoreAction → Option FSBlockKey
  | .allocSlice _ | .changeSpace _ => none
  | .addSlice slice => some slice.ob
  | .deleteSlices bsKey => some bsKey.block
  | .deleteBlock bkey | .takeSn bkey => some bkey

/-- The locks of other blocks stay as they are. -/
theorem StoreState.holding_next (s : StoreState) (action : StoreAction) {bkey : FSBlockKey}
    (apart : action.block ≠ some bkey) : (s.next sl action).holding bkey = s.holding bkey := by
  have called : ∀ block record result index, some block ≠ some bkey →
      (s.called block record result index).holding bkey = s.holding bkey := by
    intro block record result index distinct
    unfold StoreState.called
    split_ifs
    · exact Function.update_of_ne (fun same => distinct (congrArg some same.symm)) _ _
    · rfl
  cases action with
  | allocSlice _ | changeSpace _ => rfl
  | addSlice slice => exact called _ _ _ _ apart
  | deleteSlices bsKey => exact called _ _ _ _ apart
  | deleteBlock block => exact called _ _ _ _ apart
  | takeSn block =>
      cases held : s.holding block with
      | none => simp only [StoreState.next, held]
      | some record =>
          simp only [StoreState.next, held]
          exact Function.update_of_ne (fun same => apart (congrArg some same.symm)) _ _

end System

end FastStore.Binlog
