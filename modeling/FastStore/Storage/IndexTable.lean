import FastStore.Storage.IndexChain

/-!
# The hashtable as a map from blocks to slice chains

In a well-formed table every bucket is in key order and holds only the blocks
that hash to it.  Then looking up, creating, changing and deleting an entry act
on that entry alone, and the slices of a block after an index call are given by
the closed forms of the chain.
-/

namespace FastStore.Storage

open FastStore.Util FastStore.Util.Extent

/-! ## Buckets -/

section Bucket

variable {bucket : List OBEntry} {bkey : FSBlockKey}

theorem obIndexCompareBlockKey_gt_iff {bkey1 bkey2 : FSBlockKey} :
    obIndexCompareBlockKey bkey1 bkey2 = .gt ↔ bkey2 < bkey1 := by
  have equal : obIndexCompareBlockKey bkey1 bkey2 = .eq ↔ bkey1 = bkey2 :=
    obIndexCompareBlockKey_eq_iff
  have less : obIndexCompareBlockKey bkey1 bkey2 = .lt ↔ bkey1 < bkey2 :=
    obIndexCompareBlockKey_lt_iff
  cases order : obIndexCompareBlockKey bkey1 bkey2 with
  | lt => simpa using (less.mp order).le
  | eq => simpa using (equal.mp order).le
  | gt =>
      rw [order] at equal less
      simp only [reduceCtorEq, false_iff, not_lt] at less equal
      simpa using lt_of_le_of_ne less (Ne.symm equal)

/-- A search without creating is a lookup. -/
theorem getObEntryEx_false (sorted : Ascending OBEntry.bkey bucket) :
    getObEntryEx bkey false bucket = (Chain.find? OBEntry.bkey bkey bucket, bucket) := by
  induction bucket with
  | nil => rfl
  | cons ob rest ih =>
      obtain ⟨below, restSorted⟩ := Ascending.cons_iff.mp sorted
      rw [getObEntryEx]
      cases order : obIndexCompareBlockKey bkey ob.bkey with
      | eq =>
          have same := obIndexCompareBlockKey_eq_iff.mp order
          simp [Chain.find?, same]
      | lt =>
          have less := obIndexCompareBlockKey_lt_iff.mp order
          have absent : Chain.find? OBEntry.bkey bkey (ob :: rest) = none := by
            refine Chain.find?_eq_none_iff.mpr fun other member => ?_
            rcases List.mem_cons.mp member with rfl | inRest
            · exact less.ne'
            · exact (less.trans (below other inRest)).ne'
          simp [absent]
      | gt =>
          have greater := obIndexCompareBlockKey_gt_iff.mp order
          simp [ih restSorted, Chain.find?, greater.ne]

/-- A search that may create links a new entry where it belongs. -/
theorem getObEntryEx_true (sorted : Ascending OBEntry.bkey bucket) :
    (getObEntryEx bkey true bucket).2 =
      match Chain.find? OBEntry.bkey bkey bucket with
      | some _ => bucket
      | none => Chain.insert OBEntry.bkey ⟨bkey, 0, []⟩ bucket := by
  induction bucket with
  | nil => rfl
  | cons ob rest ih =>
      obtain ⟨below, restSorted⟩ := Ascending.cons_iff.mp sorted
      rw [getObEntryEx]
      cases order : obIndexCompareBlockKey bkey ob.bkey with
      | eq =>
          have same := obIndexCompareBlockKey_eq_iff.mp order
          simp [Chain.find?, same]
      | lt =>
          have less := obIndexCompareBlockKey_lt_iff.mp order
          have absent : Chain.find? OBEntry.bkey bkey (ob :: rest) = none := by
            refine Chain.find?_eq_none_iff.mpr fun other member => ?_
            rcases List.mem_cons.mp member with rfl | inRest
            · exact less.ne'
            · exact (less.trans (below other inRest)).ne'
          simp [absent, Chain.insert, Chain.splitAt, less.le]
      | gt =>
          have greater := obIndexCompareBlockKey_gt_iff.mp order
          have same : Chain.find? OBEntry.bkey bkey (ob :: rest) =
              Chain.find? OBEntry.bkey bkey rest := by
            simp [Chain.find?, greater.ne]
          rw [same]
          simp only [ih restSorted]
          cases Chain.find? OBEntry.bkey bkey rest with
          | none => simp [Chain.insert, Chain.splitAt, greater]
          | some other => rfl

end Bucket

/-! ## Entries -/

namespace OBHashtable

/-- Every bucket is in key order and holds the blocks that hash to it. -/
structure WellFormed (htable : OBHashtable) : Prop where
  ascending : ∀ i, Ascending OBEntry.bkey (htable.buckets i)
  home : ∀ i, ∀ ob ∈ htable.buckets i, htable.bucketIndex ob.bkey = i

variable {htable : OBHashtable}

/-- The bucket of a block. -/
def bucketOf (htable : OBHashtable) (bkey : FSBlockKey) : List OBEntry :=
  htable.buckets (htable.bucketIndex bkey)

theorem getObEntry_eq_some_iff (wf : htable.WellFormed) {bkey : FSBlockKey} {ob : OBEntry} :
    htable.getObEntry bkey = some ob ↔ ob ∈ htable.bucketOf bkey ∧ ob.bkey = bkey := by
  have sorted := wf.ascending (htable.bucketIndex bkey)
  rw [getObEntry, getObEntryEx_false sorted]
  exact Chain.find?_eq_some_iff sorted

theorem getObEntry_eq_none_iff (wf : htable.WellFormed) {bkey : FSBlockKey} :
    htable.getObEntry bkey = none ↔ ∀ ob ∈ htable.bucketOf bkey, ob.bkey ≠ bkey := by
  have sorted := wf.ascending (htable.bucketIndex bkey)
  rw [getObEntry, getObEntryEx_false sorted]
  exact Chain.find?_eq_none_iff

theorem bkey_of_getObEntry (wf : htable.WellFormed) {bkey : FSBlockKey} {ob : OBEntry}
    (found : htable.getObEntry bkey = some ob) : ob.bkey = bkey :=
  ((getObEntry_eq_some_iff wf).mp found).2

/-- Two well-formed tables agree on a block when their buckets for it hold the same
entries of that block. -/
theorem getObEntry_congr {other : OBHashtable} (wf : htable.WellFormed)
    (otherWf : other.WellFormed) {bkey : FSBlockKey}
    (same : ∀ ob : OBEntry, ob.bkey = bkey → (ob ∈ htable.bucketOf bkey ↔ ob ∈ other.bucketOf bkey)) :
    htable.getObEntry bkey = other.getObEntry bkey := by
  apply Option.ext
  intro ob
  rw [getObEntry_eq_some_iff wf, getObEntry_eq_some_iff otherWf]
  constructor
  · rintro ⟨member, equal⟩
    exact ⟨(same ob equal).mp member, equal⟩
  · rintro ⟨member, equal⟩
    exact ⟨(same ob equal).mpr member, equal⟩

@[simp] theorem bucketIndex_setBucket (bkey other : FSBlockKey) (bucket : List OBEntry) :
    (htable.setBucket bkey bucket).bucketIndex other = htable.bucketIndex other := rfl

theorem bucketOf_setBucket (bkey other : FSBlockKey) (bucket : List OBEntry) :
    (htable.setBucket bkey bucket).bucketOf other =
      if htable.bucketIndex other = htable.bucketIndex bkey then bucket
      else htable.bucketOf other := by
  rw [bucketOf, bucketIndex_setBucket]
  by_cases same : htable.bucketIndex other = htable.bucketIndex bkey
  · simp [setBucket, same]
  · simp [setBucket, same, bucketOf]

/-- Replacing a bucket by an ascending one of the same home keeps the table
well-formed. -/
theorem WellFormed.setBucket (wf : htable.WellFormed) {bkey : FSBlockKey}
    {bucket : List OBEntry} (sorted : Ascending OBEntry.bkey bucket)
    (home : ∀ ob ∈ bucket, htable.bucketIndex ob.bkey = htable.bucketIndex bkey) :
    (htable.setBucket bkey bucket).WellFormed := by
  constructor
  · intro i
    by_cases same : i = htable.bucketIndex bkey
    · simpa [OBHashtable.setBucket, same] using sorted
    · simpa [OBHashtable.setBucket, same] using wf.ascending i
  · intro i ob member
    rw [bucketIndex_setBucket]
    by_cases same : i = htable.bucketIndex bkey
    · rw [same]
      exact home ob (by simpa [OBHashtable.setBucket, same] using member)
    · exact wf.home i ob (by simpa [OBHashtable.setBucket, same] using member)

theorem WellFormed.init (capacity : Nat) : (obIndexInitHtableEx capacity).WellFormed := by
  constructor
  · intro i
    exact Ascending.nil _
  · intro i ob member
    cases member

variable {bkey : FSBlockKey}

/-! ### Creating an entry -/

theorem mem_bucketOf_alloc (wf : htable.WellFormed) {other : FSBlockKey} {ob : OBEntry} :
    ob ∈ (obIndexAllocSliceEx bkey htable).bucketOf other ↔
      ob ∈ htable.bucketOf other ∨
        (ob = ⟨bkey, 0, []⟩ ∧ htable.getObEntry bkey = none ∧
          htable.bucketIndex other = htable.bucketIndex bkey) := by
  have sorted := wf.ascending (htable.bucketIndex bkey)
  have lookup : htable.getObEntry bkey =
      Chain.find? OBEntry.bkey bkey (htable.buckets (htable.bucketIndex bkey)) := by
    rw [getObEntry, getObEntryEx_false sorted]
  rw [obIndexAllocSliceEx, bucketOf_setBucket, getObEntryEx_true sorted, ← lookup]
  cases found : htable.getObEntry bkey with
  | some old =>
      by_cases same : htable.bucketIndex other = htable.bucketIndex bkey
      · simp [same, bucketOf]
      · simp [same]
  | none =>
      by_cases same : htable.bucketIndex other = htable.bucketIndex bkey
      · simp only [same, if_true, Chain.mem_insert, bucketOf, and_true]
        exact or_comm
      · simp [same]

theorem WellFormed.alloc (wf : htable.WellFormed) (bkey : FSBlockKey) :
    (obIndexAllocSliceEx bkey htable).WellFormed := by
  have sorted := wf.ascending (htable.bucketIndex bkey)
  have home := wf.home (htable.bucketIndex bkey)
  rw [obIndexAllocSliceEx, getObEntryEx_true sorted]
  cases found : Chain.find? OBEntry.bkey bkey (htable.buckets (htable.bucketIndex bkey)) with
  | some old => exact wf.setBucket sorted home
  | none =>
      refine wf.setBucket (Chain.ascending_insert sorted ?_) ?_
      · exact Chain.find?_eq_none_iff.mp found
      · intro ob member
        rcases Chain.mem_insert.mp member with rfl | inBucket
        · rfl
        · exact home ob inBucket

theorem getObEntry_alloc_self (wf : htable.WellFormed) (bkey : FSBlockKey) :
    (obIndexAllocSliceEx bkey htable).getObEntry bkey =
      some ((htable.getObEntry bkey).getD ⟨bkey, 0, []⟩) := by
  rw [getObEntry_eq_some_iff (wf.alloc bkey), mem_bucketOf_alloc wf]
  cases found : htable.getObEntry bkey with
  | some old =>
      obtain ⟨member, equal⟩ := (getObEntry_eq_some_iff wf).mp found
      exact ⟨Or.inl member, equal⟩
  | none => exact ⟨Or.inr ⟨rfl, rfl, rfl⟩, rfl⟩

theorem getObEntry_alloc_of_ne (wf : htable.WellFormed) {other : FSBlockKey}
    (distinct : other ≠ bkey) :
    (obIndexAllocSliceEx bkey htable).getObEntry other = htable.getObEntry other := by
  apply getObEntry_congr (wf.alloc bkey) wf
  intro ob equal
  rw [mem_bucketOf_alloc wf]
  constructor
  · rintro (member | ⟨rfl, _⟩)
    · exact member
    · exact absurd equal.symm distinct
  · exact Or.inl

/-- Creating an entry does not change the slices of any block. -/
@[simp] theorem slicesOf_alloc (wf : htable.WellFormed) (bkey other : FSBlockKey) :
    (obIndexAllocSliceEx bkey htable).slicesOf other = htable.slicesOf other := by
  by_cases same : other = bkey
  · subst same
    rw [slicesOf, slicesOf, getObEntry_alloc_self wf]
    cases htable.getObEntry other <;> rfl
  · rw [slicesOf, slicesOf, getObEntry_alloc_of_ne wf same]

/-! ### Changing an entry -/

theorem mem_bucketOf_set {ob entry : OBEntry} {other : FSBlockKey} :
    entry ∈ (htable.setObEntry ob).bucketOf other ↔
      (entry ∈ htable.bucketOf other ∧
        ¬(entry.bkey = ob.bkey ∧ htable.bucketIndex other = htable.bucketIndex ob.bkey)) ∨
      (entry = ob ∧ htable.bucketIndex other = htable.bucketIndex ob.bkey ∧
        ∃ old ∈ htable.bucketOf ob.bkey, old.bkey = ob.bkey) := by
  rw [setObEntry, bucketOf_setBucket]
  by_cases same : htable.bucketIndex other = htable.bucketIndex ob.bkey
  · have bucket : htable.bucketOf other = htable.bucketOf ob.bkey := by
      rw [bucketOf, bucketOf, same]
    simp only [same, if_true, List.mem_map, and_true, true_and, bucket]
    constructor
    · rintro ⟨old, member, rfl⟩
      split_ifs with equal
      · exact Or.inr ⟨rfl, old, member, equal⟩
      · exact Or.inl ⟨member, equal⟩
    · rintro (⟨member, distinct⟩ | ⟨rfl, old, member, equal⟩)
      · exact ⟨entry, member, if_neg distinct⟩
      · exact ⟨old, member, if_pos equal⟩
  · simp [same]

theorem WellFormed.set (wf : htable.WellFormed) (ob : OBEntry) :
    (htable.setObEntry ob).WellFormed := by
  have sorted := wf.ascending (htable.bucketIndex ob.bkey)
  have keys : ∀ entry : OBEntry,
      (if entry.bkey = ob.bkey then ob else entry).bkey = entry.bkey := by
    intro entry
    split_ifs with equal
    · exact equal.symm
    · rfl
  refine wf.setBucket ?_ ?_
  · rw [Ascending, List.pairwise_map]
    refine sorted.imp fun less => ?_
    rw [keys, keys]
    exact less
  · intro entry member
    obtain ⟨old, oldMember, rfl⟩ := List.mem_map.mp member
    rw [keys]
    exact wf.home _ old oldMember

theorem getObEntry_set_self (wf : htable.WellFormed) {ob old : OBEntry}
    (present : htable.getObEntry ob.bkey = some old) :
    (htable.setObEntry ob).getObEntry ob.bkey = some ob := by
  obtain ⟨member, equal⟩ := (getObEntry_eq_some_iff wf).mp present
  rw [getObEntry_eq_some_iff (wf.set ob), mem_bucketOf_set]
  exact ⟨Or.inr ⟨rfl, rfl, old, member, equal⟩, rfl⟩

theorem getObEntry_set_of_ne (wf : htable.WellFormed) {ob : OBEntry} {other : FSBlockKey}
    (distinct : other ≠ ob.bkey) :
    (htable.setObEntry ob).getObEntry other = htable.getObEntry other := by
  apply getObEntry_congr (wf.set ob) wf
  intro entry equal
  rw [mem_bucketOf_set]
  subst equal
  constructor
  · rintro (⟨member, _⟩ | ⟨rfl, _⟩)
    · exact member
    · exact absurd rfl distinct
  · intro member
    exact Or.inl ⟨member, fun both => distinct both.1⟩

theorem slicesOf_set (wf : htable.WellFormed) (ob : OBEntry) {old : OBEntry}
    (present : htable.getObEntry ob.bkey = some old) (other : FSBlockKey) :
    (htable.setObEntry ob).slicesOf other =
      if other = ob.bkey then ob.slices else htable.slicesOf other := by
  split_ifs with same
  · rw [slicesOf, same, getObEntry_set_self wf present]
  · rw [slicesOf, slicesOf, getObEntry_set_of_ne wf same]

/-! ### Deleting an entry -/

theorem mem_bucketOf_delete {entry : OBEntry} {other : FSBlockKey} :
    entry ∈ (htable.deleteObEntry bkey).bucketOf other ↔
      entry ∈ htable.bucketOf other ∧
        ¬(entry.bkey = bkey ∧ htable.bucketIndex other = htable.bucketIndex bkey) := by
  rw [deleteObEntry, bucketOf_setBucket]
  by_cases same : htable.bucketIndex other = htable.bucketIndex bkey
  · simp [same, bucketOf]
  · simp [same]

theorem WellFormed.delete (wf : htable.WellFormed) (bkey : FSBlockKey) :
    (htable.deleteObEntry bkey).WellFormed := by
  refine wf.setBucket ((wf.ascending _).sublist List.filter_sublist) ?_
  intro entry member
  exact wf.home _ entry (List.mem_filter.mp member).1

theorem getObEntry_delete_self (wf : htable.WellFormed) (bkey : FSBlockKey) :
    (htable.deleteObEntry bkey).getObEntry bkey = none := by
  rw [getObEntry_eq_none_iff (wf.delete bkey)]
  intro entry member equal
  exact (mem_bucketOf_delete.mp member).2 ⟨equal, rfl⟩

theorem getObEntry_delete_of_ne (wf : htable.WellFormed) {other : FSBlockKey}
    (distinct : other ≠ bkey) :
    (htable.deleteObEntry bkey).getObEntry other = htable.getObEntry other := by
  apply getObEntry_congr (wf.delete bkey) wf
  intro entry equal
  rw [mem_bucketOf_delete]
  constructor
  · exact fun both => both.1
  · intro member
    exact ⟨member, fun both => distinct (equal.symm.trans both.1)⟩

theorem slicesOf_delete (wf : htable.WellFormed) (bkey other : FSBlockKey) :
    (htable.deleteObEntry bkey).slicesOf other =
      if other = bkey then [] else htable.slicesOf other := by
  split_ifs with same
  · rw [slicesOf, same, getObEntry_delete_self wf]
  · rw [slicesOf, slicesOf, getObEntry_delete_of_ne wf same]

theorem slicesOf_of_getObEntry {ob : OBEntry} (found : htable.getObEntry bkey = some ob) :
    htable.slicesOf bkey = ob.slices := by
  rw [slicesOf, found]

theorem slicesOf_of_absent (absent : htable.getObEntry bkey = none) :
    htable.slicesOf bkey = [] := by
  rw [slicesOf, absent]

/-! ### Walking the table -/

/-- The walk meets exactly the entries that a lookup finds. -/
theorem mem_entries (wf : htable.WellFormed) (capacity : 0 < htable.capacity) {ob : OBEntry} :
    ob ∈ htable.entries ↔ htable.getObEntry ob.bkey = some ob := by
  rw [getObEntry_eq_some_iff wf, entries, List.mem_flatMap]
  constructor
  · rintro ⟨i, _, member⟩
    have home := wf.home i ob member
    refine ⟨?_, rfl⟩
    rw [bucketOf, home]
    exact member
  · rintro ⟨member, _⟩
    exact ⟨htable.bucketIndex ob.bkey, List.mem_range.mpr (Nat.mod_lt _ capacity), member⟩

/-- The walk meets every block once. -/
theorem entries_pairwise (wf : htable.WellFormed) :
    htable.entries.Pairwise fun left right => left.bkey ≠ right.bkey := by
  rw [entries, List.pairwise_flatMap]
  constructor
  · intro i _
    exact (wf.ascending i).imp fun less => less.ne
  · refine List.nodup_range.imp ?_
    intro i j distinct left leftMember right rightMember equal
    have leftHome := wf.home i left leftMember
    rw [equal, wf.home j right rightMember] at leftHome
    exact distinct leftHome.symm

/-- A well-formed table whose blocks all have laid slice chains. -/
structure Sound (htable : OBHashtable) : Prop where
  wf : htable.WellFormed
  laid : ∀ bkey, Laid (htable.slicesOf bkey)

theorem Sound.init (capacity : Nat) : (obIndexInitHtableEx capacity).Sound := by
  refine ⟨WellFormed.init capacity, fun bkey => ?_⟩
  exact Laid.nil

theorem Sound.alloc (sound : htable.Sound) (bkey : FSBlockKey) :
    (obIndexAllocSliceEx bkey htable).Sound := by
  refine ⟨sound.wf.alloc bkey, fun other => ?_⟩
  rw [slicesOf_alloc sound.wf]
  exact sound.laid other

end OBHashtable

/-! ## Index calls -/

section Calls

variable (sl : UniqSkiplist OBSliceEntry.key) {state : IndexState} (withSn : Bool)

/-- Two tables with the same capacity and flags. -/
structure OBHashtable.SameShape (left right : OBHashtable) : Prop where
  capacity : left.capacity = right.capacity
  modifySallocator : left.modifySallocator = right.modifySallocator
  modifyUsedSpace : left.modifyUsedSpace = right.modifyUsedSpace

theorem sameShape_obIndexAllocSliceEx (bkey : FSBlockKey) (htable : OBHashtable) :
    (obIndexAllocSliceEx bkey htable).SameShape htable := ⟨rfl, rfl, rfl⟩

theorem sameShape_obIndexAddSliceEx (slice : OBSliceEntry) (state : IndexState) :
    (obIndexAddSliceEx sl withSn slice state).2.2.htable.SameShape state.htable := by
  unfold obIndexAddSliceEx
  cases state.htable.getObEntry slice.ob <;> exact ⟨rfl, rfl, rfl⟩

theorem sameShape_obIndexDeleteSlicesEx (bsKey : FSBlockSliceKeyInfo) (state : IndexState) :
    (obIndexDeleteSlicesEx sl withSn bsKey state).2.2.htable.SameShape state.htable := by
  unfold obIndexDeleteSlicesEx
  cases state.htable.getObEntry bsKey.block with
  | none => exact ⟨rfl, rfl, rfl⟩
  | some ob =>
      dsimp only
      split_ifs <;> exact ⟨rfl, rfl, rfl⟩

theorem sameShape_obIndexDeleteBlockEx (bkey : FSBlockKey) (state : IndexState) :
    (obIndexDeleteBlockEx withSn bkey state).2.2.htable.SameShape state.htable := by
  unfold obIndexDeleteBlockEx
  cases state.htable.getObEntry bkey with
  | none => exact ⟨rfl, rfl, rfl⟩
  | some ob =>
      dsimp only
      split_ifs <;> exact ⟨rfl, rfl, rfl⟩

/-- In a table that keeps no trunk account, adding a non-empty slice succeeds. -/
theorem obIndexAddSliceEx_ok (sound : state.htable.Sound)
    (unaccounted : state.htable.modifySallocator = false) {slice : OBSliceEntry} {ob : OBEntry}
    (present : state.htable.getObEntry slice.ob = some ob) (positive : 0 < slice.ssize.length) :
    (obIndexAddSliceEx sl withSn slice state).1 = .ok := by
  have laid : Laid ob.slices :=
    OBHashtable.slicesOf_of_getObEntry present ▸ sound.laid slice.ob
  simp only [obIndexAddSliceEx, present]
  exact addSlice_ok sl state.htable unaccounted laid positive state.sallocator

/-- An add to a block with an entry changes the chain of that block alone. -/
theorem slicesOf_obIndexAddSliceEx (sound : state.htable.Sound) {slice : OBSliceEntry}
    {ob : OBEntry} (present : state.htable.getObEntry slice.ob = some ob) (other : FSBlockKey) :
    (obIndexAddSliceEx sl withSn slice state).2.2.htable.slicesOf other =
      if other = slice.ob then
        (addSlice sl state.htable (state.htable.slicesOf slice.ob) slice state.sallocator).2.2.1
      else state.htable.slicesOf other := by
  have name := OBHashtable.bkey_of_getObEntry sound.wf present
  rw [OBHashtable.slicesOf_of_getObEntry present]
  simp only [obIndexAddSliceEx, present]
  have changed := OBHashtable.slicesOf_set sound.wf
    ⟨ob.bkey, ob.reclaimingCount,
      (addSlice sl state.htable ob.slices slice state.sallocator).2.2.1⟩
    (by rw [name]; exact present) other
  rw [changed, name]

theorem sound_obIndexAddSliceEx (sound : state.htable.Sound) {slice : OBSliceEntry}
    {ob : OBEntry} (present : state.htable.getObEntry slice.ob = some ob)
    (nonneg : 0 ≤ slice.ssize.length) :
    (obIndexAddSliceEx sl withSn slice state).2.2.htable.Sound := by
  constructor
  · simp only [obIndexAddSliceEx, present]
    exact sound.wf.set _
  · intro other
    rw [slicesOf_obIndexAddSliceEx sl withSn sound present]
    split_ifs with same
    · exact addSlice_laid sl _ (sound.laid slice.ob) nonneg _
    · exact sound.laid other

/-- Getting a slice and adding it overwrites the chain of its block. -/
theorem slicesOf_allocAndAddSlice (sound : state.htable.Sound) {slice : OBSliceEntry}
    (positive : 0 < slice.ssize.length) (other : FSBlockKey) :
    (allocAndAddSlice sl withSn slice state).2.2.htable.slicesOf other =
      if other = slice.ob then overwrite slice (state.htable.slicesOf slice.ob)
      else state.htable.slicesOf other := by
  have present := OBHashtable.getObEntry_alloc_self sound.wf slice.ob
  have laid := sound.laid slice.ob
  rw [allocAndAddSlice, slicesOf_obIndexAddSliceEx sl withSn (sound.alloc slice.ob) present]
  simp only [OBHashtable.slicesOf_alloc sound.wf]
  rw [addSlice_chain_eq_overwrite sl _ laid positive]

theorem sound_allocAndAddSlice (sound : state.htable.Sound) {slice : OBSliceEntry}
    (positive : 0 < slice.ssize.length) :
    (allocAndAddSlice sl withSn slice state).2.2.htable.Sound :=
  sound_obIndexAddSliceEx sl withSn (sound.alloc slice.ob)
    (OBHashtable.getObEntry_alloc_self sound.wf slice.ob) positive.le

theorem sameShape_allocAndAddSlice (slice : OBSliceEntry) (state : IndexState) :
    (allocAndAddSlice sl withSn slice state).2.2.htable.SameShape state.htable := by
  have added := sameShape_obIndexAddSliceEx sl withSn slice
    { state with htable := obIndexAllocSliceEx slice.ob state.htable }
  exact ⟨added.capacity, added.modifySallocator, added.modifyUsedSpace⟩

theorem allocAndAddSlice_ok (sound : state.htable.Sound)
    (unaccounted : state.htable.modifySallocator = false) {slice : OBSliceEntry}
    (positive : 0 < slice.ssize.length) :
    (allocAndAddSlice sl withSn slice state).1 = .ok := by
  have present := OBHashtable.getObEntry_alloc_self sound.wf slice.ob
  refine obIndexAddSliceEx_ok sl withSn ?_ ?_ present positive
  · exact sound.alloc slice.ob
  · exact unaccounted

/-- A delete carves its range out of the chain of the block. -/
theorem slicesOf_obIndexDeleteSlicesEx (sound : state.htable.Sound)
    {bsKey : FSBlockSliceKeyInfo} (nonneg : 0 ≤ bsKey.slice.length) (other : FSBlockKey) :
    (obIndexDeleteSlicesEx sl withSn bsKey state).2.2.htable.slicesOf other =
      if other = bsKey.block then
        carve bsKey.slice.offset (bsKey.slice.offset + bsKey.slice.length)
          (state.htable.slicesOf bsKey.block)
      else state.htable.slicesOf other := by
  unfold obIndexDeleteSlicesEx
  cases present : state.htable.getObEntry bsKey.block with
  | none =>
      dsimp only
      split_ifs with same
      · rw [same, OBHashtable.slicesOf_of_absent present, carve_nil]
      · rfl
  | some ob =>
      have name := OBHashtable.bkey_of_getObEntry sound.wf present
      have slices := OBHashtable.slicesOf_of_getObEntry present
      have laid : Laid ob.slices := slices ▸ sound.laid bsKey.block
      have chain := deleteSlices_chain sl state.htable laid nonneg state.sallocator
      have setSlices := fun slices => OBHashtable.slicesOf_set sound.wf
        ⟨ob.bkey, ob.reclaimingCount, slices⟩ (by rw [name]; exact present) other
      rw [slices, ← chain]
      dsimp only
      split_ifs with done empty same same same
      · rw [OBHashtable.slicesOf_delete (sound.wf.set _), if_pos same, empty]
      · rw [OBHashtable.slicesOf_delete (sound.wf.set _), if_neg same, setSlices, name, if_neg same]
      · rw [setSlices, name, if_pos same]
      · rw [setSlices, name, if_neg same]
      · rw [setSlices, name, if_pos same]
      · rw [setSlices, name, if_neg same]

/-- A delete fails exactly when its range touches no slice of the block. -/
theorem result_obIndexDeleteSlicesEx (sound : state.htable.Sound)
    {bsKey : FSBlockSliceKeyInfo} (nonneg : 0 ≤ bsKey.slice.length) :
    (obIndexDeleteSlicesEx sl withSn bsKey state).1 =
      if touchedSlices bsKey.slice.offset (bsKey.slice.offset + bsKey.slice.length)
        (state.htable.slicesOf bsKey.block) = [] then .enoent else .ok := by
  unfold obIndexDeleteSlicesEx
  cases present : state.htable.getObEntry bsKey.block with
  | none =>
      rw [OBHashtable.slicesOf_of_absent present]
      rfl
  | some ob =>
      have slices := OBHashtable.slicesOf_of_getObEntry present
      have laid : Laid ob.slices := slices ▸ sound.laid bsKey.block
      have result := deleteSlices_result sl state.htable laid nonneg state.sallocator
      rw [slices, ← result]
      dsimp only
      split_ifs with done
      · exact done.symm
      · exact done.symm
      · rfl

/-- `dec_alloc` of a delete counts the covered bytes of its range. -/
theorem decAlloc_obIndexDeleteSlicesEx (sound : state.htable.Sound)
    {bsKey : FSBlockSliceKeyInfo} (nonneg : 0 ≤ bsKey.slice.length) :
    (obIndexDeleteSlicesEx sl withSn bsKey state).2.1 =
      covered bsKey.slice.offset (bsKey.slice.offset + bsKey.slice.length)
        (state.htable.slicesOf bsKey.block) := by
  unfold obIndexDeleteSlicesEx
  cases present : state.htable.getObEntry bsKey.block with
  | none =>
      rw [OBHashtable.slicesOf_of_absent present]
      rfl
  | some ob =>
      have slices := OBHashtable.slicesOf_of_getObEntry present
      have laid : Laid ob.slices := slices ▸ sound.laid bsKey.block
      have count := deleteSlices_decAlloc sl state.htable laid nonneg state.sallocator
      rw [slices]
      dsimp only
      split_ifs <;> exact count

theorem sound_obIndexDeleteSlicesEx (sound : state.htable.Sound)
    {bsKey : FSBlockSliceKeyInfo} (nonneg : 0 ≤ bsKey.slice.length) :
    (obIndexDeleteSlicesEx sl withSn bsKey state).2.2.htable.Sound := by
  constructor
  · unfold obIndexDeleteSlicesEx
    cases present : state.htable.getObEntry bsKey.block with
    | none => exact sound.wf
    | some ob =>
        dsimp only
        split_ifs
        · exact (sound.wf.set _).delete _
        · exact sound.wf.set _
        · exact sound.wf.set _
  · intro other
    rw [slicesOf_obIndexDeleteSlicesEx sl withSn sound nonneg]
    split_ifs with same
    · exact (sound.laid bsKey.block).carve (by omega)
    · exact sound.laid other

/-- Deleting a block leaves it without slices. -/
theorem slicesOf_obIndexDeleteBlockEx (wf : state.htable.WellFormed) (bkey other : FSBlockKey) :
    (obIndexDeleteBlockEx withSn bkey state).2.2.htable.slicesOf other =
      if other = bkey then [] else state.htable.slicesOf other := by
  unfold obIndexDeleteBlockEx
  cases present : state.htable.getObEntry bkey with
  | none =>
      dsimp only
      split_ifs with same
      · rw [same, OBHashtable.slicesOf_of_absent present]
      · rfl
  | some ob =>
      dsimp only
      split_ifs with some same same
      · rw [OBHashtable.slicesOf_delete wf, if_pos same]
      · rw [OBHashtable.slicesOf_delete wf, if_neg same]
      · rw [OBHashtable.slicesOf_delete wf, if_pos (by assumption)]
      · rw [OBHashtable.slicesOf_delete wf, if_neg (by assumption)]

/-- Deleting a block fails exactly when it has no bytes. -/
theorem result_obIndexDeleteBlockEx (bkey : FSBlockKey) (state : IndexState) :
    (obIndexDeleteBlockEx withSn bkey state).1 =
      if 0 < ((state.htable.slicesOf bkey).map fun slice => slice.ssize.length).sum then .ok
      else .enoent := by
  unfold obIndexDeleteBlockEx
  cases present : state.htable.getObEntry bkey with
  | none =>
      rw [OBHashtable.slicesOf_of_absent present]
      rfl
  | some ob =>
      rw [OBHashtable.slicesOf_of_getObEntry present]
      dsimp only
      split_ifs <;> rfl

theorem decAlloc_obIndexDeleteBlockEx (bkey : FSBlockKey) (state : IndexState) :
    (obIndexDeleteBlockEx withSn bkey state).2.1 =
      ((state.htable.slicesOf bkey).map fun slice => slice.ssize.length).sum := by
  unfold obIndexDeleteBlockEx
  cases present : state.htable.getObEntry bkey with
  | none =>
      rw [OBHashtable.slicesOf_of_absent present]
      rfl
  | some ob =>
      rw [OBHashtable.slicesOf_of_getObEntry present]
      dsimp only
      split_ifs <;> rfl

theorem sound_obIndexDeleteBlockEx (sound : state.htable.Sound) (bkey : FSBlockKey) :
    (obIndexDeleteBlockEx withSn bkey state).2.2.htable.Sound := by
  constructor
  · unfold obIndexDeleteBlockEx
    cases present : state.htable.getObEntry bkey with
    | none => exact sound.wf
    | some ob =>
        dsimp only
        split_ifs
        · exact sound.wf.delete _
        · exact sound.wf.delete _
  · intro other
    rw [slicesOf_obIndexDeleteBlockEx withSn sound.wf]
    split_ifs with same
    · exact Laid.nil
    · exact sound.laid other

/-- A get reads the chain of the block. -/
theorem obIndexGetSlicesEx_eq (bsKey : FSBlockSliceKeyInfo) (htable : OBHashtable) :
    obIndexGetSlicesEx sl bsKey htable =
      getSlices sl (htable.slicesOf bsKey.block) bsKey.slice := by
  unfold obIndexGetSlicesEx
  cases present : htable.getObEntry bsKey.block with
  | some ob => rw [OBHashtable.slicesOf_of_getObEntry present]
  | none =>
      rw [OBHashtable.slicesOf_of_absent present, getSlices,
        sl.findGe_spec [] _ (Ascending.nil _)]
      rfl

end Calls

end FastStore.Storage
