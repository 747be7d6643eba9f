import FastStore.Binlog.SliceLoader

/-!
# The order of a load

A replayed record acts on the chain of its block alone.  Two logs with the same records of every
block are therefore both loaded or both refused, and leave the same index, however the records of
different blocks are mixed.
-/

namespace FastStore.Storage.OBHashtable

open FastStore.Util

/-! ## Tables that are known by their slices -/

variable {htable other : OBHashtable}

/-- Every entry has slices and no reclaimer. -/
def Settled (htable : OBHashtable) : Prop :=
  ∀ bkey ob, htable.getObEntry bkey = some ob → ob.reclaimingCount = 0 ∧ ob.slices ≠ []

theorem Settled.init (capacity : Nat) : Settled (obIndexInitHtableEx capacity) := by
  intro bkey ob found
  cases found

theorem Settled.getObEntry_eq (settled : Settled htable) (wf : htable.WellFormed)
    (bkey : FSBlockKey) : htable.getObEntry bkey =
      if htable.slicesOf bkey = [] then none else some ⟨bkey, 0, htable.slicesOf bkey⟩ := by
  cases found : htable.getObEntry bkey with
  | none =>
      rw [OBHashtable.slicesOf_of_absent found]
      exact (if_pos rfl).symm
  | some ob =>
      obtain ⟨unreclaimed, nonempty⟩ := settled bkey ob found
      have name := OBHashtable.bkey_of_getObEntry wf found
      rw [OBHashtable.slicesOf_of_getObEntry found, if_neg nonempty]
      cases ob with
      | mk block count slices => rw [show block = bkey from name, show count = 0 from unreclaimed]

/-- Membership of a bucket by lookup. -/
theorem mem_buckets_iff (wf : htable.WellFormed) {i : Nat} {ob : OBEntry} :
    ob ∈ htable.buckets i ↔
      htable.bucketIndex ob.bkey = i ∧ htable.getObEntry ob.bkey = some ob := by
  rw [OBHashtable.getObEntry_eq_some_iff wf, OBHashtable.bucketOf]
  constructor
  · intro member
    have place := wf.home i ob member
    rw [place]
    exact ⟨rfl, member, rfl⟩
  · rintro ⟨place, member, -⟩
    rw [← place]
    exact member

/-- Settled tables of one shape with the same slices are the same. -/
theorem Settled.eq_of_slicesOf (settled : Settled htable) (otherSettled : Settled other)
    (wf : htable.WellFormed) (otherWf : other.WellFormed) (shape : htable.SameShape other)
    (same : ∀ bkey, htable.slicesOf bkey = other.slicesOf bkey) : htable = other := by
  have index (bkey : FSBlockKey) : htable.bucketIndex bkey = other.bucketIndex bkey := by
    rw [OBHashtable.bucketIndex, OBHashtable.bucketIndex, shape.capacity]
  have buckets : htable.buckets = other.buckets := by
    funext i
    apply Ascending.eq_of_mem_iff (wf.ascending i) (otherWf.ascending i)
    intro ob
    rw [mem_buckets_iff wf, mem_buckets_iff otherWf, index, settled.getObEntry_eq wf,
      otherSettled.getObEntry_eq otherWf, same]
  obtain ⟨capacity, sallocator, usedSpace⟩ := shape
  cases htable
  cases other
  cases buckets
  cases capacity
  cases sallocator
  cases usedSpace
  rfl

theorem SameShape.symm (shape : htable.SameShape other) : other.SameShape htable :=
  ⟨shape.capacity.symm, shape.modifySallocator.symm, shape.modifyUsedSpace.symm⟩

theorem SameShape.trans {third : OBHashtable} (shape : htable.SameShape other)
    (later : other.SameShape third) : htable.SameShape third :=
  ⟨shape.capacity.trans later.capacity, shape.modifySallocator.trans later.modifySallocator,
    shape.modifyUsedSpace.trans later.modifyUsedSpace⟩

/-- An entry that is unlinked. -/
theorem Settled.delete (settled : Settled htable) (wf : htable.WellFormed) (bkey : FSBlockKey) :
    Settled (htable.deleteObEntry bkey) := by
  intro block ob found
  by_cases same : block = bkey
  · rw [same, getObEntry_delete_self wf] at found
    cases found
  · rw [getObEntry_delete_of_ne wf same] at found
    exact settled block ob found

/-- An entry that is settled now, in a table that was settled beside it. -/
theorem settled_set (wf : htable.WellFormed) {ob old : OBEntry}
    (beside : ∀ block entry, block ≠ ob.bkey → htable.getObEntry block = some entry →
      entry.reclaimingCount = 0 ∧ entry.slices ≠ [])
    (present : htable.getObEntry ob.bkey = some old) (unreclaimed : ob.reclaimingCount = 0)
    (nonempty : ob.slices ≠ []) : Settled (htable.setObEntry ob) := by
  intro block entry found
  by_cases same : block = ob.bkey
  · rw [same, getObEntry_set_self wf present] at found
    rw [← Option.some.inj found]
    exact ⟨unreclaimed, nonempty⟩
  · rw [getObEntry_set_of_ne wf same] at found
    exact beside block entry same found

end FastStore.Storage.OBHashtable

namespace FastStore.Binlog

open FastStore.Util FastStore.Util.Extent FastStore.Storage

section Order

variable (sl : UniqSkiplist OBSliceEntry.key) {state : IndexState} {record : SliceBinlogRecord}
  {capacity : Nat} {sa : FSStorageAllocatorManager}

/-! ## Records that are taken -/

/-- A record is taken when the chain of its block takes it. -/
theorem sliceLoaderDealRecord_ok_iff (loading : Loading capacity sa state)
    (nonneg : 0 ≤ record.bsKey.slice.length) :
    (sliceLoaderDealRecord sl record state).1 = .ok ↔
      (chainEffect sl (state.htable.slicesOf record.bsKey.block) record).isSome := by
  constructor
  · intro done
    have added (slice : OBSliceEntry) (own : slice = record.slice)
        (taken : (obIndexAddSliceByBinlog sl slice
          { state with htable := obIndexAllocSliceEx record.bsKey.block state.htable }).1 = .ok) :
        (insertEffect sl (state.htable.slicesOf record.bsKey.block) slice).isSome := by
      subst own
      have entry := OBHashtable.getObEntry_alloc_self loading.sound.wf record.bsKey.block
      have slices := OBHashtable.slicesOf_alloc loading.sound.wf record.bsKey.block
        record.bsKey.block
      rw [OBHashtable.slicesOf_of_getObEntry entry] at slices
      have lookup : (obIndexAllocSliceEx record.bsKey.block state.htable).getObEntry
          record.slice.ob = _ := entry
      have length : 0 ≤ record.slice.ssize.length := nonneg
      have result := addSlice_result sl (obIndexAllocSliceEx record.bsKey.block state.htable)
        loading.unaccounted (loading.sound.laid record.bsKey.block) length state.sallocator
      simp only [obIndexAddSliceByBinlog, obIndexAddSliceEx, lookup] at taken
      rw [slices] at taken
      have inserted := result.symm.trans taken
      exact Option.isSome_iff_exists.mpr ⟨_, (insertEffect_eq_some sl).mpr (Prod.ext inserted rfl)⟩
    unfold sliceLoaderDealRecord at done
    unfold chainEffect
    cases op : record.opType with
    | writeSlice =>
        simp only [op] at done
        exact added record.slice rfl done
    | allocSlice =>
        simp only [op] at done
        exact added record.slice rfl done
    | delSlice =>
        simp only [op] at done
        rw [result_obIndexDeleteSlicesEx sl false loading.sound nonneg] at done
        dsimp only
        split_ifs at done ⊢ with untouched
        rfl
    | delBlock =>
        simp only [op] at done
        rw [result_obIndexDeleteBlockEx false] at done
        dsimp only
        split_ifs at done ⊢ with bytes
        rfl
    | noOp => rfl
  · intro taken
    obtain ⟨chain, effect⟩ := Option.isSome_iff_exists.mp taken
    exact (sliceLoaderDealRecord_spec sl loading nonneg effect).1

theorem dealRecords_append (first second : List SliceBinlogRecord) (state : IndexState) :
    dealRecords sl (first ++ second) state =
      match dealRecords sl first state with
      | (.ok, next) => dealRecords sl second next
      | failed => failed := by
  induction first generalizing state with
  | nil => rfl
  | cons record rest ih =>
      rw [List.cons_append, dealRecords, dealRecords]
      cases dealt : sliceLoaderDealRecord sl record state with
      | mk result next =>
          cases result with
          | ok => exact ih next
          | _ => rfl

/-- One more record. -/
theorem dealRecords_concat {records : List SliceBinlogRecord} {next : IndexState}
    (loaded : dealRecords sl records state = (.ok, next)) (record : SliceBinlogRecord) :
    dealRecords sl (records ++ [record]) state = sliceLoaderDealRecord sl record next := by
  rw [dealRecords_append, loaded]
  dsimp only
  rw [dealRecords]
  cases dealt : sliceLoaderDealRecord sl record next with
  | mk result after =>
      cases result with
      | ok => rfl
      | _ => rfl

/-- A log is loaded when the chain of every block takes the records of the block. -/
theorem dealRecords_ok_iff (records : List SliceBinlogRecord) (loading : Loading capacity sa state)
    (nonneg : ∀ record ∈ records, 0 ≤ record.bsKey.slice.length) :
    (dealRecords sl records state).1 = .ok ↔ ∀ bkey, ((recordsOf bkey records).foldlM
      (chainEffect sl) (state.htable.slicesOf bkey)).isSome := by
  induction records generalizing state with
  | nil => exact ⟨fun _ _ => rfl, fun _ => rfl⟩
  | cons record rest ih =>
      have own := nonneg record List.mem_cons_self
      have later : ∀ other ∈ rest, 0 ≤ other.bsKey.slice.length :=
        fun other member => nonneg other (List.mem_cons_of_mem _ member)
      have ok := sliceLoaderDealRecord_ok_iff sl loading own
      rw [← List.singleton_append, dealRecords_append]
      cases effect : chainEffect sl (state.htable.slicesOf record.bsKey.block) record with
      | none =>
          rw [effect] at ok
          have refused : (sliceLoaderDealRecord sl record state).1 ≠ .ok := fun done =>
            Bool.false_ne_true (ok.mp done)
          constructor
          · intro done
            rw [dealRecords] at done
            cases dealt : sliceLoaderDealRecord sl record state with
            | mk result next =>
                rw [dealt] at done refused
                cases result with
                | ok => exact absurd rfl refused
                | _ => cases done
          · intro all
            have blocked := all record.bsKey.block
            rw [List.singleton_append, recordsOf_cons, if_pos rfl, List.foldlM_cons, effect]
              at blocked
            cases blocked
      | some chain =>
          obtain ⟨done, next, changed⟩ := sliceLoaderDealRecord_spec sl loading own effect
          have first : dealRecords sl [record] state =
              (.ok, (sliceLoaderDealRecord sl record state).2) := by
            rw [← List.nil_append [record], dealRecords_concat sl rfl]
            exact Prod.ext done rfl
          rw [first]
          dsimp only
          rw [ih next later]
          refine forall_congr' fun bkey => ?_
          rw [changed, List.singleton_append, recordsOf_cons]
          by_cases same : record.bsKey.block = bkey
          · subst same
            rw [if_pos rfl, if_pos rfl, List.foldlM_cons, effect]
            rfl
          · rw [if_neg same, if_neg (Ne.symm same)]

/-! ## The index after a load -/

theorem sliceLoaderDealRecord_sn (record : SliceBinlogRecord) (state : IndexState) :
    (sliceLoaderDealRecord sl record state).2.sliceBinlogSn = state.sliceBinlogSn := by
  have added (slice : OBSliceEntry) (state : IndexState) :
      (obIndexAddSliceByBinlog sl slice state).2.sliceBinlogSn = state.sliceBinlogSn := by
    unfold obIndexAddSliceByBinlog obIndexAddSliceEx
    cases state.htable.getObEntry slice.ob with
    | none => rfl
    | some ob =>
        dsimp only
        split_ifs <;> rfl
  unfold sliceLoaderDealRecord
  cases record.opType with
  | writeSlice => exact added _ _
  | allocSlice => exact added _ _
  | delSlice =>
      unfold obIndexDeleteSlicesEx
      cases state.htable.getObEntry record.bsKey.block with
      | none => rfl
      | some ob =>
          dsimp only
          split_ifs <;> rfl
  | delBlock =>
      unfold obIndexDeleteBlockEx
      cases state.htable.getObEntry record.bsKey.block with
      | none => rfl
      | some ob =>
          dsimp only
          split_ifs <;> rfl
  | noOp => rfl

theorem sameShape_sliceLoaderDealRecord (record : SliceBinlogRecord) (state : IndexState) :
    (sliceLoaderDealRecord sl record state).2.htable.SameShape state.htable := by
  unfold sliceLoaderDealRecord
  cases record.opType with
  | writeSlice => exact sameShape_allocAndAddSlice sl false record.slice state
  | allocSlice => exact sameShape_allocAndAddSlice sl false record.slice state
  | delSlice => exact sameShape_obIndexDeleteSlicesEx sl false record.bsKey state
  | delBlock => exact sameShape_obIndexDeleteBlockEx false record.bsKey.block state
  | noOp => exact ⟨rfl, rfl, rfl⟩

/-- What was inserted is in the chain. -/
theorem insertEffect_ne_nil {chain next : List OBSliceEntry} {slice : OBSliceEntry}
    (laid : Laid chain) (nonneg : 0 ≤ slice.ssize.length)
    (effect : insertEffect sl chain slice = some next) : next ≠ [] := by
  have order : slice.ssize.offset ≤ slice.sliceEnd := le_add_of_nonneg_right nonneg
  have sorted := (laid.carve order).ascending
  have inserted := (insertEffect_eq_some sl).mp effect
  by_cases present : ∃ other ∈ carve slice.ssize.offset slice.sliceEnd chain,
      other.key = slice.key
  · rw [sl.insert_exists _ slice sorted present] at inserted
    cases inserted
  · have fresh : ∀ other ∈ carve slice.ssize.offset slice.sliceEnd chain,
        other.key ≠ slice.key := fun other member equal => present ⟨other, member, equal⟩
    rw [sl.insert_fresh _ slice sorted fresh] at inserted
    have member : slice ∈ next := by
      rw [← (Prod.mk.inj inserted).2]
      exact Chain.mem_insert.mpr (Or.inl rfl)
    exact List.ne_nil_of_mem member

/-- A replayed add leaves its block with the slice. -/
theorem settled_obIndexAddSliceByBinlog (loading : Loading capacity sa state)
    (settled : state.htable.Settled) {slice : OBSliceEntry}
    (nonneg : 0 ≤ slice.ssize.length) {chain : List OBSliceEntry}
    (effect : insertEffect sl (state.htable.slicesOf slice.ob) slice = some chain) :
    OBHashtable.Settled (obIndexAddSliceByBinlog sl slice
      { state with htable := obIndexAllocSliceEx slice.ob state.htable }).2.htable := by
  have wf := loading.sound.wf
  have ready := wf.alloc slice.ob
  have entry := OBHashtable.getObEntry_alloc_self wf slice.ob
  have name := OBHashtable.bkey_of_getObEntry ready entry
  obtain ⟨-, -, slices⟩ := obIndexAddSliceByBinlog_spec sl loading nonneg effect
  have own := slices slice.ob
  rw [if_pos rfl] at own
  have unreclaimed : ((state.htable.getObEntry slice.ob).getD ⟨slice.ob, 0, []⟩).reclaimingCount
      = 0 := by
    cases found : state.htable.getObEntry slice.ob with
    | none => rfl
    | some ob => exact (settled slice.ob ob found).1
  simp only [obIndexAddSliceByBinlog, obIndexAddSliceEx, entry] at own ⊢
  rw [OBHashtable.slicesOf_set ready _ (by dsimp only; rw [name]; exact entry), if_pos name.symm]
    at own
  apply OBHashtable.settled_set ready
  · intro block other distinct found
    have apart : block ≠ slice.ob := fun same => distinct (same.trans name.symm)
    rw [OBHashtable.getObEntry_alloc_of_ne wf apart] at found
    exact settled block other found
  · dsimp only
    rw [name]
    exact entry
  · exact unreclaimed
  · dsimp only at own ⊢
    rw [own]
    exact insertEffect_ne_nil sl (loading.sound.laid slice.ob) nonneg effect

/-- A replayed delete of a range unlinks the entry with its last slice. -/
theorem settled_obIndexDeleteSlicesEx (loading : Loading capacity sa state)
    (settled : state.htable.Settled) (bsKey : FSBlockSliceKeyInfo)
    (done : (obIndexDeleteSlicesEx sl false bsKey state).1 = .ok) :
    (obIndexDeleteSlicesEx sl false bsKey state).2.2.htable.Settled := by
  have wf := loading.sound.wf
  unfold obIndexDeleteSlicesEx at done ⊢
  cases found : state.htable.getObEntry bsKey.block with
  | none => exact settled
  | some ob =>
      have name := OBHashtable.bkey_of_getObEntry wf found
      have unreclaimed := (settled bsKey.block ob found).1
      have present : state.htable.getObEntry ob.bkey = some ob := by
        rw [name]
        exact found
      simp only [found] at done
      dsimp only at done ⊢
      split_ifs at done ⊢ with deleted empty
      · intro block entry stored
        by_cases same : block = bsKey.block
        · rw [same, OBHashtable.getObEntry_delete_self (wf.set _)] at stored
          cases stored
        · rw [OBHashtable.getObEntry_delete_of_ne (wf.set _) same,
            OBHashtable.getObEntry_set_of_ne wf (by dsimp only; rw [name]; exact same)] at stored
          exact settled block entry stored
      · exact OBHashtable.settled_set wf (fun block entry _ stored => settled block entry stored)
          present unreclaimed empty
      · exact absurd done deleted

/-- A replayed delete of a block unlinks its entry. -/
theorem settled_obIndexDeleteBlockEx (loading : Loading capacity sa state)
    (settled : state.htable.Settled) (bkey : FSBlockKey) :
    (obIndexDeleteBlockEx false bkey state).2.2.htable.Settled := by
  have wf := loading.sound.wf
  have unlinked := settled.delete wf bkey
  unfold obIndexDeleteBlockEx
  cases state.htable.getObEntry bkey with
  | none => exact settled
  | some ob =>
      dsimp only
      split_ifs <;> exact unlinked

theorem settled_sliceLoaderDealRecord (loading : Loading capacity sa state)
    (settled : state.htable.Settled) (nonneg : 0 ≤ record.bsKey.slice.length)
    (done : (sliceLoaderDealRecord sl record state).1 = .ok) :
    (sliceLoaderDealRecord sl record state).2.htable.Settled := by
  have taken := (sliceLoaderDealRecord_ok_iff sl loading nonneg).mp done
  obtain ⟨chain, effect⟩ := Option.isSome_iff_exists.mp taken
  have length : 0 ≤ record.slice.ssize.length := nonneg
  unfold sliceLoaderDealRecord at done ⊢
  unfold chainEffect at effect
  cases op : record.opType with
  | writeSlice =>
      simp only [op] at effect
      exact settled_obIndexAddSliceByBinlog sl loading settled length effect
  | allocSlice =>
      simp only [op] at effect
      exact settled_obIndexAddSliceByBinlog sl loading settled length effect
  | delSlice =>
      simp only [op] at done
      exact settled_obIndexDeleteSlicesEx sl loading settled record.bsKey done
  | delBlock => exact settled_obIndexDeleteBlockEx loading settled record.bsKey.block
  | noOp => exact settled

theorem settled_dealRecords (records : List SliceBinlogRecord) (loading : Loading capacity sa state)
    (settled : state.htable.Settled) (nonneg : ∀ record ∈ records, 0 ≤ record.bsKey.slice.length)
    {next : IndexState} (loaded : dealRecords sl records state = (.ok, next)) :
    Loading capacity sa next ∧ next.htable.Settled ∧ next.htable.SameShape state.htable ∧
      next.sliceBinlogSn = state.sliceBinlogSn := by
  induction records generalizing state with
  | nil =>
      obtain rfl : state = next := (Prod.mk.inj loaded).2
      exact ⟨loading, settled, ⟨rfl, rfl, rfl⟩, rfl⟩
  | cons record rest ih =>
      have own := nonneg record List.mem_cons_self
      have later : ∀ other ∈ rest, 0 ≤ other.bsKey.slice.length :=
        fun other member => nonneg other (List.mem_cons_of_mem _ member)
      rw [dealRecords] at loaded
      have sn := sliceLoaderDealRecord_sn sl record state
      have shape := sameShape_sliceLoaderDealRecord sl record state
      have ok := sliceLoaderDealRecord_ok_iff sl loading own
      have kept := settled_sliceLoaderDealRecord sl loading settled own
      cases dealt : sliceLoaderDealRecord sl record state with
      | mk result after =>
          rw [dealt] at loaded sn shape ok kept
          cases result with
          | ok =>
              obtain ⟨chain, effect⟩ := Option.isSome_iff_exists.mp (ok.mp rfl)
              have ready := (sliceLoaderDealRecord_spec sl loading own effect).2.1
              rw [dealt] at ready
              obtain ⟨nextLoading, nextSettled, nextShape, nextSn⟩ :=
                ih ready (kept rfl) later loaded
              exact ⟨nextLoading, nextSettled, nextShape.trans shape, nextSn.trans sn⟩
          | _ => cases loaded

/-- Logs with the same records of every block leave the same index. -/
theorem dealRecords_eq_of_recordsOf {first second : List SliceBinlogRecord}
    (loading : Loading capacity sa state) (settled : state.htable.Settled)
    (nonneg : ∀ record ∈ first, 0 ≤ record.bsKey.slice.length)
    (same : ∀ bkey, recordsOf bkey second = recordsOf bkey first) {next : IndexState}
    (loaded : dealRecords sl first state = (.ok, next)) :
    dealRecords sl second state = (.ok, next) := by
  have secondNonneg : ∀ record ∈ second, 0 ≤ record.bsKey.slice.length := by
    intro record member
    have own : record ∈ recordsOf record.bsKey.block second :=
      List.mem_filter.mpr ⟨member, decide_eq_true rfl⟩
    rw [same] at own
    exact nonneg record (List.mem_filter.mp own).1
  have takes := (dealRecords_ok_iff sl first loading nonneg).mp (by rw [loaded])
  have done : (dealRecords sl second state).1 = .ok := by
    rw [dealRecords_ok_iff sl second loading secondNonneg]
    intro bkey
    rw [same]
    exact takes bkey
  have other : dealRecords sl second state = (.ok, (dealRecords sl second state).2) :=
    Prod.ext done rfl
  have effects : ∀ bkey, (recordsOf bkey first).foldlM (chainEffect sl)
      (state.htable.slicesOf bkey) = some (((recordsOf bkey first).foldlM (chainEffect sl)
        (state.htable.slicesOf bkey)).get (takes bkey)) := fun bkey => (Option.some_get _).symm
  obtain ⟨-, -, firstSlices⟩ := dealRecords_spec sl first loading nonneg effects
  obtain ⟨-, -, secondSlices⟩ := dealRecords_spec sl second loading secondNonneg
    (fun bkey => (congrArg _ (same bkey)).trans (effects bkey))
  obtain ⟨firstLoading, firstSettled, firstShape, firstSn⟩ :=
    settled_dealRecords sl first loading settled nonneg loaded
  obtain ⟨secondLoading, secondSettled, secondShape, secondSn⟩ :=
    settled_dealRecords sl second loading settled secondNonneg other
  rw [loaded] at firstSlices
  have tables : (dealRecords sl second state).2.htable = next.htable :=
    secondSettled.eq_of_slicesOf firstSettled secondLoading.sound.wf firstLoading.sound.wf
      (secondShape.trans firstShape.symm)
      fun bkey => (secondSlices bkey).trans (firstSlices bkey).symm
  have trunks := secondLoading.trunks.trans firstLoading.trunks.symm
  have sn := secondSn.trans firstSn.symm
  refine Prod.ext done ?_
  cases second' : (dealRecords sl second state).2 with
  | mk htable sallocator sliceBinlogSn =>
      rw [second'] at tables trunks sn
      cases tables
      cases trunks
      cases sn
      rfl

end Order

end FastStore.Binlog
