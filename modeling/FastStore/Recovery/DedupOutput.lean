import FastStore.Recovery.DedupTables

/-!
# The records that the dedup writes

The output deletes the bytes that the remove table holds and the create table does
not, and creates the bytes of the create table.  Each record is a maximal run of
bytes of one kind, so the records are counted by the bytes where a run starts.
-/

namespace FastStore.Recovery

open FastStore.Util FastStore.Util.Extent FastStore.Storage FastStore.Binlog

section ReverseRemove

variable (sl : UniqSkiplist OBSliceEntry.key) {remove : OBHashtable}

/-! ## Subtracting the creates -/

theorem foldl_delete_spec {bkey : FSBlockKey} {slices : List OBSliceEntry}
    (owned : ∀ slice ∈ slices, slice.ob = bkey)
    (filled : ∀ slice ∈ slices, 0 < slice.ssize.length) (plain : PlainTable remove) :
    let result := slices.foldl (fun remove slice =>
      (obIndexDeleteSlicesEx sl false ⟨slice.ob, slice.ssize⟩
        (tableState remove)).2.2.htable) remove
    PlainTable result ∧ ∀ k b, valueAt typeAt (result.slicesOf k) b =
      if k = bkey ∧ ∃ slice ∈ slices, Over slice b then none
      else valueAt typeAt (remove.slicesOf k) b := by
  induction slices generalizing remove with
  | nil => exact ⟨plain, fun k b => by simp⟩
  | cons slice slices ih =>
      have positive := filled slice List.mem_cons_self
      have owner := owned slice List.mem_cons_self
      have sound : (tableState remove).htable.Sound := plain.sound
      obtain ⟨resultPlain, value⟩ := ih
        (fun other member => owned other (List.mem_cons_of_mem _ member))
        (fun other member => filled other (List.mem_cons_of_mem _ member))
        (plain.deleteSlices sl ⟨slice.ob, slice.ssize⟩ positive)
      refine ⟨resultPlain, fun k b => ?_⟩
      have nonneg : 0 ≤ (⟨slice.ob, slice.ssize⟩ : FSBlockSliceKeyInfo).slice.length := positive.le
      rw [List.foldl_cons, value,
        valueAt_obIndexDeleteSlicesEx sl false cutInvariant_typeAt sound nonneg]
      simp only [List.mem_cons, exists_eq_or_imp, owner, tableState_htable]
      by_cases same : k = bkey
      · by_cases covers : Over slice b
        · have inRange : slice.ssize.offset ≤ b ∧ b < slice.ssize.offset + slice.ssize.length :=
            covers
          simp [same, covers, inRange]
        · have outside : ¬(slice.ssize.offset ≤ b ∧ b < slice.ssize.offset + slice.ssize.length) :=
            covers
          simp [same, covers, outside]
      · have other : bkey ≠ k := fun equal => same equal.symm
        simp [same, other]

theorem reverseRemoveEntry_spec {ob : OBEntry} (owned : ∀ slice ∈ ob.slices, slice.ob = ob.bkey)
    (filled : ∀ slice ∈ ob.slices, 0 < slice.ssize.length) (plain : PlainTable remove) :
    PlainTable (reverseRemoveEntry sl remove ob) ∧
      ∀ k b, valueAt typeAt ((reverseRemoveEntry sl remove ob).slicesOf k) b =
        if k = ob.bkey ∧ ∃ slice ∈ ob.slices, Over slice b then none
        else valueAt typeAt (remove.slicesOf k) b := by
  unfold reverseRemoveEntry
  split_ifs with empty
  · exact ⟨plain, fun k b => by simp [empty]⟩
  · cases present : remove.getObEntry ob.bkey with
    | some entry => exact foldl_delete_spec sl owned filled plain
    | none =>
        refine ⟨plain, fun k b => ?_⟩
        dsimp only
        split_ifs with covers
        · rw [covers.1, OBHashtable.slicesOf_of_absent present]
          rfl
        · rfl

theorem foldl_reverseRemoveEntry_spec {obs : List OBEntry}
    (owned : ∀ ob ∈ obs, ∀ slice ∈ ob.slices, slice.ob = ob.bkey)
    (filled : ∀ ob ∈ obs, ∀ slice ∈ ob.slices, 0 < slice.ssize.length)
    (plain : PlainTable remove) :
    PlainTable (obs.foldl (reverseRemoveEntry sl) remove) ∧
      ∀ k b, valueAt typeAt ((obs.foldl (reverseRemoveEntry sl) remove).slicesOf k) b =
        if ∃ ob ∈ obs, k = ob.bkey ∧ ∃ slice ∈ ob.slices, Over slice b then none
        else valueAt typeAt (remove.slicesOf k) b := by
  induction obs generalizing remove with
  | nil => exact ⟨plain, fun k b => by simp⟩
  | cons ob obs ih =>
      obtain ⟨headPlain, headValue⟩ := reverseRemoveEntry_spec sl
        (owned ob List.mem_cons_self) (filled ob List.mem_cons_self) plain
      obtain ⟨resultPlain, value⟩ := ih
        (fun other member => owned other (List.mem_cons_of_mem _ member))
        (fun other member => filled other (List.mem_cons_of_mem _ member)) headPlain
      refine ⟨resultPlain, fun k b => ?_⟩
      rw [List.foldl_cons, value, headValue]
      simp only [List.mem_cons, exists_eq_or_imp]
      by_cases later : ∃ other ∈ obs, k = other.bkey ∧ ∃ slice ∈ other.slices, Over slice b
      · simp [later]
      · simp [later]

end ReverseRemove

/-- A slice of a plain table is met on the walk over the table. -/
theorem PlainTable.exists_entry_iff {htable : OBHashtable} (plain : PlainTable htable)
    (bkey : FSBlockKey) (holds : OBSliceEntry → Prop) :
    (∃ ob ∈ htable.entries, bkey = ob.bkey ∧ ∃ slice ∈ ob.slices, holds slice) ↔
      ∃ slice ∈ htable.slicesOf bkey, holds slice := by
  constructor
  · rintro ⟨ob, member, rfl, slice, sliceMember, property⟩
    have found := (OBHashtable.mem_entries plain.sound.wf plain.capacity).mp member
    refine ⟨slice, ?_, property⟩
    rw [OBHashtable.slicesOf_of_getObEntry found]
    exact sliceMember
  · rintro ⟨slice, member, property⟩
    cases present : htable.getObEntry bkey with
    | none =>
        rw [OBHashtable.slicesOf_of_absent present] at member
        cases member
    | some ob =>
        have name := OBHashtable.bkey_of_getObEntry plain.sound.wf present
        rw [OBHashtable.slicesOf_of_getObEntry present] at member
        refine ⟨ob, ?_, name.symm, slice, member, property⟩
        rw [OBHashtable.mem_entries plain.sound.wf plain.capacity, name]
        exact present

theorem PlainTable.slices_of_entry {htable : OBHashtable} (plain : PlainTable htable)
    {ob : OBEntry} (member : ob ∈ htable.entries) : htable.slicesOf ob.bkey = ob.slices :=
  OBHashtable.slicesOf_of_getObEntry
    ((OBHashtable.mem_entries plain.sound.wf plain.capacity).mp member)

/-- After `htable_reverse_remove` the remove table holds what it held and the
create table does not. -/
theorem htableReverseRemove_spec (sl : UniqSkiplist OBSliceEntry.key)
    {htables : BinlogHashtables} (create : PlainTable htables.create)
    (remove : PlainTable htables.remove) :
    PlainTable (htableReverseRemove sl htables).remove ∧
      ∀ k b stype, valueAt typeAt ((htableReverseRemove sl htables).remove.slicesOf k) b =
          some stype ↔
        valueAt typeAt (htables.remove.slicesOf k) b = some stype ∧
          valueAt typeAt (htables.create.slicesOf k) b = none := by
  have slices := fun ob (member : ob ∈ htables.create.entries) => create.slices_of_entry member
  obtain ⟨plain, value⟩ := foldl_reverseRemoveEntry_spec sl
    (fun ob member slice sliceMember =>
      create.owned ob.bkey slice ((slices ob member).symm ▸ sliceMember))
    (fun ob member slice sliceMember =>
      (create.inBlock ob.bkey slice ((slices ob member).symm ▸ sliceMember)).2.1) remove
  refine ⟨plain, fun k b stype => ?_⟩
  have walk := create.exists_entry_iff k fun slice => Over slice b
  simp only [htableReverseRemove, value, valueAt_eq_none_iff]
  split_ifs with covers
  · constructor
    · intro found
      cases found
    · rintro ⟨_, uncovered⟩
      obtain ⟨slice, member, overByte⟩ := walk.mp covers
      exact absurd overByte (uncovered slice member)
  · constructor
    · intro found
      exact ⟨found, fun slice member overByte => covers (walk.mpr ⟨slice, member, overByte⟩)⟩
    · exact fun both => both.1

/-! ## Merging neighbours -/

section Dump

variable {first previous : OBSliceEntry} {rest : List OBSliceEntry}

/-- The slices written for a chain cover the bytes of the chain, type by type.  The
run from `first` to `previous` is open when the loop starts. -/
theorem dumpLoop_covers (sameType : first.type = previous.type)
    (filled : ∀ slice ∈ rest, 0 < slice.ssize.length)
    (ordered : first.ssize.offset ≤ previous.sliceEnd) (laid : Laid (previous :: rest))
    (b : Int) (stype : OBSliceType) :
    (∃ slice ∈ dumpLoop first previous rest, Over slice b ∧ slice.type = stype) ↔
      (first.ssize.offset ≤ b ∧ b < previous.sliceEnd ∧ first.type = stype) ∨
        ∃ slice ∈ rest, Over slice b ∧ slice.type = stype := by
  induction rest generalizing first previous with
  | nil =>
      simp only [dumpLoop, List.mem_singleton, exists_eq_left, List.not_mem_nil, false_and,
        exists_false, or_false, addToSarray, Over, OBSliceEntry.start_eq, OBSliceEntry.stop_eq,
        OBSliceEntry.sliceEnd, and_assoc]
      constructor
      · rintro ⟨low, high, equal⟩
        exact ⟨low, by omega, equal⟩
      · rintro ⟨low, high, equal⟩
        exact ⟨low, by omega, equal⟩
  | cons slice rest ih =>
      obtain ⟨_, across, restLaid⟩ := Laid.cons_iff.mp laid
      have positive := filled slice List.mem_cons_self
      have restFilled := fun other (member : other ∈ rest) =>
        filled other (List.mem_cons_of_mem _ member)
      have apart := (across slice List.mem_cons_self).2
      simp only [OBSliceEntry.start_eq, OBSliceEntry.stop_eq] at apart
      have ownEnd : slice.ssize.offset ≤ slice.sliceEnd := le_add_of_nonneg_right positive.le
      rw [dumpLoop]
      simp only [List.mem_cons, exists_eq_or_imp]
      split_ifs with merges
      · rw [ih (sameType.trans merges.2) restFilled (by omega) restLaid]
        simp only [Over, OBSliceEntry.start_eq, OBSliceEntry.stop_eq]
        have types : first.type = slice.type := sameType.trans merges.2
        constructor
        · rintro (⟨low, high, equal⟩ | later)
          · by_cases inFirst : b < previous.sliceEnd
            · exact Or.inl ⟨low, inFirst, equal⟩
            · exact Or.inr (Or.inl ⟨⟨by omega, high⟩, types ▸ equal⟩)
          · exact Or.inr (Or.inr later)
        · rintro (⟨low, high, equal⟩ | ⟨⟨low, high⟩, equal⟩ | later)
          · exact Or.inl ⟨low, by omega, equal⟩
          · exact Or.inl ⟨by omega, high, types.trans equal⟩
          · exact Or.inr later
      · simp only [List.mem_cons, exists_eq_or_imp]
        rw [ih rfl restFilled ownEnd restLaid]
        simp only [addToSarray, Over, OBSliceEntry.start_eq, OBSliceEntry.stop_eq,
          OBSliceEntry.sliceEnd]
        constructor
        · rintro (⟨⟨low, high⟩, equal⟩ | ⟨low, high, equal⟩ | later)
          · exact Or.inl ⟨low, by omega, equal⟩
          · exact Or.inr (Or.inl ⟨⟨low, high⟩, equal⟩)
          · exact Or.inr (Or.inr later)
        · rintro (⟨low, high, equal⟩ | ⟨⟨low, high⟩, equal⟩ | later)
          · exact Or.inl ⟨⟨low, by omega⟩, equal⟩
          · exact Or.inr (Or.inl ⟨low, high, equal⟩)
          · exact Or.inr (Or.inr later)

/-- Each slice written starts where a slice of the chain starts, in the same order. -/
theorem dumpLoop_offsets (first previous : OBSliceEntry) (rest : List OBSliceEntry) :
    ((dumpLoop first previous rest).map fun slice => slice.ssize.offset).Sublist
      (first.ssize.offset :: rest.map fun slice => slice.ssize.offset) := by
  induction rest generalizing first previous with
  | nil => exact List.Sublist.refl _
  | cons slice rest ih =>
      rw [dumpLoop]
      split_ifs with merges
      · refine (ih first slice).trans ?_
        exact List.Sublist.cons_cons _ (List.sublist_cons_self _ _)
      · exact List.Sublist.cons_cons _ (ih slice slice)

theorem dumpLoop_ob {bkey : FSBlockKey} (firstOwned : first.ob = bkey)
    (owned : ∀ slice ∈ rest, slice.ob = bkey) :
    ∀ slice ∈ dumpLoop first previous rest, slice.ob = bkey := by
  induction rest generalizing first previous with
  | nil =>
      intro slice member
      rw [List.mem_singleton.mp member]
      exact firstOwned
  | cons slice rest ih =>
      have headOwned := owned slice List.mem_cons_self
      have restOwned := fun other (member : other ∈ rest) =>
        owned other (List.mem_cons_of_mem _ member)
      rw [dumpLoop]
      split_ifs with merges
      · exact ih firstOwned restOwned
      · intro other member
        rcases List.mem_cons.mp member with rfl | later
        · exact firstOwned
        · exact ih headOwned restOwned other later

/-- A slice of the chain starts a run when no slice of its type ends there. -/
theorem dumpLoop_starts (sameType : first.type = previous.type)
    (filled : ∀ slice ∈ previous :: rest, 0 < slice.ssize.length)
    (laid : Laid (previous :: rest)) (b : Int) :
    (∃ slice ∈ dumpLoop first previous rest, slice.ssize.offset = b) ↔
      b = first.ssize.offset ∨ ∃ slice ∈ rest, slice.ssize.offset = b ∧
        ∀ before ∈ previous :: rest, before.sliceEnd = b → before.type ≠ slice.type := by
  induction rest generalizing first previous with
  | nil => simp [dumpLoop, addToSarray, eq_comm]
  | cons slice rest ih =>
      obtain ⟨_, across, restLaid⟩ := Laid.cons_iff.mp laid
      obtain ⟨_, later, _⟩ := Laid.cons_iff.mp restLaid
      have restFilled := fun other (member : other ∈ slice :: rest) =>
        filled other (List.mem_cons_of_mem _ member)
      have apart := (across slice List.mem_cons_self).2
      simp only [OBSliceEntry.start_eq, OBSliceEntry.stop_eq] at apart across later
      rw [dumpLoop]
      split_ifs with merges
      · rw [ih (sameType.trans merges.2) restFilled restLaid]
        constructor
        · rintro (equal | ⟨other, member, equal, isStart⟩)
          · exact Or.inl equal
          · refine Or.inr ⟨other, List.mem_cons_of_mem _ member, equal, ?_⟩
            intro before beforeMember ends
            rcases List.mem_cons.mp beforeMember with rfl | inRest
            · have behind := (later other member).1
              omega
            · exact isStart before inRest ends
        · rintro (equal | ⟨other, member, equal, isStart⟩)
          · exact Or.inl equal
          · rcases List.mem_cons.mp member with rfl | inRest
            · exact absurd merges.2
                (isStart previous List.mem_cons_self (merges.1.trans equal))
            · refine Or.inr ⟨other, inRest, equal, fun before beforeMember => ?_⟩
              exact isStart before (List.mem_cons_of_mem _ beforeMember)
      · simp only [List.mem_cons, exists_eq_or_imp]
        rw [ih rfl restFilled restLaid]
        constructor
        · rintro (equal | equal | ⟨other, member, equal, isStart⟩)
          · exact Or.inl equal.symm
          · refine Or.inr (Or.inl ⟨equal.symm, ?_⟩)
            intro before beforeMember ends
            rcases beforeMember with rfl | inRest
            · exact fun same => merges ⟨ends.trans equal, same⟩
            · have positive := filled before (List.mem_cons_of_mem _ (List.mem_cons.mpr inRest))
              have low : slice.ssize.offset ≤ before.ssize.offset := by
                rcases inRest with rfl | inRest
                · exact le_rfl
                · exact (later before inRest).1.le
              simp only [OBSliceEntry.sliceEnd] at ends
              omega
          · refine Or.inr (Or.inr ⟨other, member, equal, ?_⟩)
            intro before beforeMember ends
            rcases beforeMember with rfl | inRest
            · have behind := (later other member).1
              omega
            · exact isStart before (List.mem_cons.mpr inRest) ends
        · rintro (equal | ⟨equal, _⟩ | ⟨other, member, equal, isStart⟩)
          · exact Or.inl equal.symm
          · exact Or.inr (Or.inl equal.symm)
          · refine Or.inr (Or.inr ⟨other, member, equal, fun before beforeMember => ?_⟩)
            exact isStart before (Or.inr (List.mem_cons.mp beforeMember))

variable {ob : OBEntry}

theorem dumpToArray_covers (ob : OBEntry) (filled : ∀ slice ∈ ob.slices, 0 < slice.ssize.length)
    (laid : Laid ob.slices) (b : Int) (stype : OBSliceType) :
    (∃ slice ∈ dumpToArray ob, Over slice b ∧ slice.type = stype) ↔
      valueAt typeAt ob.slices b = some stype := by
  rw [valueAt_eq_some_iff laid, dumpToArray]
  cases chain : ob.slices with
  | nil => simp
  | cons first rest =>
      rw [chain] at filled laid
      have positive := filled first List.mem_cons_self
      have nonempty : first.ssize.offset ≤ first.sliceEnd := le_add_of_nonneg_right positive.le
      have loop := dumpLoop_covers rfl
        (fun slice member => filled slice (List.mem_cons_of_mem _ member)) nonempty laid b stype
      rw [loop]
      simp only [List.mem_cons, exists_eq_or_imp, typeAt, Over, OBSliceEntry.start_eq,
        OBSliceEntry.stop_eq, and_assoc]

theorem dumpToArray_ob (owned : ∀ slice ∈ ob.slices, slice.ob = ob.bkey) :
    ∀ slice ∈ dumpToArray ob, slice.ob = ob.bkey := by
  unfold dumpToArray
  cases chain : ob.slices with
  | nil => simp
  | cons first rest =>
      rw [chain] at owned
      exact dumpLoop_ob (owned first List.mem_cons_self)
        fun slice member => owned slice (List.mem_cons_of_mem _ member)

theorem dumpToArray_pairwise (laid : Laid ob.slices) :
    (dumpToArray ob).Pairwise fun left right => left.ssize.offset < right.ssize.offset := by
  unfold dumpToArray
  cases chain : ob.slices with
  | nil => exact List.Pairwise.nil
  | cons first rest =>
      rw [chain] at laid
      have offsets := laid.ascending
      rw [Ascending, ← List.pairwise_map (f := Extent.start)] at offsets
      exact List.pairwise_map.mp (offsets.sublist (dumpLoop_offsets first first rest))

/-- A slice is written from each byte where the type of the chain changes. -/
theorem dumpToArray_starts (ob : OBEntry) (filled : ∀ slice ∈ ob.slices, 0 < slice.ssize.length)
    (laid : Laid ob.slices) (b : Int) :
    (∃ slice ∈ dumpToArray ob, slice.ssize.offset = b) ↔
      ∃ stype, valueAt typeAt ob.slices b = some stype ∧
        valueAt typeAt ob.slices (b - 1) ≠ some stype := by
  have starts : (∃ slice ∈ dumpToArray ob, slice.ssize.offset = b) ↔
      ∃ slice ∈ ob.slices, slice.ssize.offset = b ∧
        ∀ before ∈ ob.slices, before.sliceEnd = b → before.type ≠ slice.type := by
    unfold dumpToArray
    cases chain : ob.slices with
    | nil => simp
    | cons first rest =>
        rw [chain] at filled laid
        obtain ⟨_, across, _⟩ := Laid.cons_iff.mp laid
        rw [dumpLoop_starts rfl filled laid b]
        simp only [List.mem_cons, exists_eq_or_imp]
        constructor
        · rintro (equal | later)
          · refine Or.inl ⟨equal.symm, fun before beforeMember ends => ?_⟩
            have positive := filled before (List.mem_cons.mpr beforeMember)
            have low : first.ssize.offset ≤ before.ssize.offset := by
              rcases beforeMember with rfl | inRest
              · exact le_rfl
              · exact (across before inRest).1.le
            simp only [OBSliceEntry.sliceEnd] at ends
            omega
          · exact Or.inr later
        · rintro (⟨equal, _⟩ | later)
          · exact Or.inl equal.symm
          · exact Or.inr later
  rw [starts]
  constructor
  · rintro ⟨slice, member, equal, isStart⟩
    have positive := filled slice member
    have covers : Over slice b := by
      simp only [Over, OBSliceEntry.start_eq, OBSliceEntry.stop_eq, OBSliceEntry.sliceEnd]
      omega
    refine ⟨slice.type, (valueAt_eq_some_iff laid).mpr ⟨slice, member, covers, rfl⟩, ?_⟩
    intro same
    obtain ⟨before, beforeMember, overBefore, sameType⟩ := (valueAt_eq_some_iff laid).mp same
    have ends : before.sliceEnd = b := by
      by_contra different
      have overSelf : Over before b := by
        simp only [Over, OBSliceEntry.start_eq, OBSliceEntry.stop_eq] at overBefore ⊢
        omega
      rw [laid.eq_of_over beforeMember member overSelf covers] at overBefore
      simp only [Over, OBSliceEntry.start_eq] at overBefore
      omega
    exact isStart before beforeMember ends sameType
  · rintro ⟨stype, found, different⟩
    obtain ⟨slice, member, covers, rfl⟩ := (valueAt_eq_some_iff laid).mp found
    refine ⟨slice, member, ?_, ?_⟩
    · by_contra later
      refine different ((valueAt_eq_some_iff laid).mpr ⟨slice, member, ?_, rfl⟩)
      simp only [Over, OBSliceEntry.start_eq, OBSliceEntry.stop_eq] at covers ⊢
      omega
    · intro before beforeMember ends sameType
      have positive := filled before beforeMember
      refine different ((valueAt_eq_some_iff laid).mpr ⟨before, beforeMember, ?_, sameType⟩)
      simp only [Over, OBSliceEntry.start_eq, OBSliceEntry.stop_eq, OBSliceEntry.sliceEnd] at ends ⊢
      omega

end Dump

/-! ## Dumping a table -/

section TableDump

variable {htable : OBHashtable}

theorem mem_htableDump {slice : OBSliceEntry} :
    slice ∈ htableDump htable ↔ ∃ ob ∈ htable.entries, slice ∈ dumpToArray ob := by
  rw [htableDump, List.mem_insertionSort, List.mem_flatMap]

/-- What is dumped for a block is what the block holds. -/
theorem exists_htableDump_iff (plain : PlainTable htable) (bkey : FSBlockKey)
    (holds : OBSliceEntry → Prop) :
    (∃ slice ∈ htableDump htable, slice.ob = bkey ∧ holds slice) ↔
      ∃ slice ∈ dumpToArray ⟨bkey, 0, htable.slicesOf bkey⟩, holds slice := by
  have sameDump : ∀ ob ∈ htable.entries,
      dumpToArray ob = dumpToArray ⟨ob.bkey, 0, htable.slicesOf ob.bkey⟩ := by
    intro ob member
    rw [dumpToArray, dumpToArray, plain.slices_of_entry member]
  have owner : ∀ ob ∈ htable.entries, ∀ slice ∈ dumpToArray ob, slice.ob = ob.bkey := by
    intro ob member
    apply dumpToArray_ob
    intro slice sliceMember
    exact plain.owned ob.bkey slice (by rwa [plain.slices_of_entry member])
  constructor
  · rintro ⟨slice, member, rfl, property⟩
    obtain ⟨ob, obMember, inDump⟩ := mem_htableDump.mp member
    have name := owner ob obMember slice inDump
    rw [sameDump ob obMember, ← name] at inDump
    exact ⟨slice, inDump, property⟩
  · rintro ⟨slice, member, property⟩
    cases present : htable.getObEntry bkey with
    | none =>
        rw [OBHashtable.slicesOf_of_absent present] at member
        cases member
    | some ob =>
        have name := OBHashtable.bkey_of_getObEntry plain.sound.wf present
        have obMember : ob ∈ htable.entries := by
          rw [OBHashtable.mem_entries plain.sound.wf plain.capacity, name]
          exact present
        have inDump : slice ∈ dumpToArray ob := by
          rw [sameDump ob obMember, name]
          exact member
        exact ⟨slice, mem_htableDump.mpr ⟨ob, obMember, inDump⟩,
          (owner ob obMember slice inDump).trans name, property⟩

theorem htableDump_covers (plain : PlainTable htable) (bkey : FSBlockKey) (b : Int)
    (stype : OBSliceType) :
    (∃ slice ∈ htableDump htable, slice.ob = bkey ∧ Over slice b ∧ slice.type = stype) ↔
      valueAt typeAt (htable.slicesOf bkey) b = some stype := by
  rw [exists_htableDump_iff plain bkey fun slice => Over slice b ∧ slice.type = stype]
  exact dumpToArray_covers ⟨bkey, 0, htable.slicesOf bkey⟩
    (fun slice member => (plain.inBlock bkey slice member).2.1) (plain.sound.laid bkey) b stype

theorem htableDump_starts (plain : PlainTable htable) (bkey : FSBlockKey) (b : Int) :
    (∃ slice ∈ htableDump htable, slice.ob = bkey ∧ slice.ssize.offset = b) ↔
      ∃ stype, valueAt typeAt (htable.slicesOf bkey) b = some stype ∧
        valueAt typeAt (htable.slicesOf bkey) (b - 1) ≠ some stype := by
  rw [exists_htableDump_iff plain bkey fun slice => slice.ssize.offset = b]
  exact dumpToArray_starts ⟨bkey, 0, htable.slicesOf bkey⟩
    (fun slice member => (plain.inBlock bkey slice member).2.1) (plain.sound.laid bkey) b

/-- No two dumped slices start at the same byte of the same block. -/
theorem htableDump_nodup (plain : PlainTable htable) :
    ((htableDump htable).map fun slice => (slice.ob, slice.ssize.offset)).Nodup := by
  have perm : (htableDump htable).Perm (htable.entries.flatMap dumpToArray) :=
    List.perm_insertionSort _ _
  rw [(perm.map _).nodup_iff, List.Nodup, List.pairwise_map, List.pairwise_flatMap]
  have owner : ∀ ob ∈ htable.entries, ∀ slice ∈ dumpToArray ob, slice.ob = ob.bkey := by
    intro ob member
    apply dumpToArray_ob
    intro slice sliceMember
    exact plain.owned ob.bkey slice (by rwa [plain.slices_of_entry member])
  constructor
  · intro ob member
    have laid : Laid ob.slices := plain.slices_of_entry member ▸ plain.sound.laid ob.bkey
    refine (dumpToArray_pairwise laid).imp ?_
    intro left right less equal
    exact absurd (congrArg Prod.snd equal) less.ne
  · refine (OBHashtable.entries_pairwise plain.sound.wf).imp_of_mem ?_
    intro left right leftMember rightMember distinct s sMember t tMember equal
    have sameBlock := congrArg Prod.fst equal
    simp only [owner left leftMember s sMember, owner right rightMember t tMember] at sameBlock
    exact distinct sameBlock

/-- An empty table is dumped to nothing. -/
theorem htableDump_of_empty (plain : PlainTable htable)
    (empty : ∀ bkey, htable.slicesOf bkey = []) : htableDump htable = [] := by
  refine List.eq_nil_iff_forall_not_mem.mpr fun slice member => ?_
  obtain ⟨ob, obMember, inDump⟩ := mem_htableDump.mp member
  rw [dumpToArray, ← plain.slices_of_entry obMember, empty] at inDump
  cases inDump

end TableDump

/-! ## The output as records -/

section Output

variable (sl : UniqSkiplist OBSliceEntry.key)

theorem PlainTable.slices_eq_nil {htable : OBHashtable} (plain : PlainTable htable)
    {bkey : FSBlockKey} (uncovered : ∀ b, valueAt typeAt (htable.slicesOf bkey) b = none) :
    htable.slicesOf bkey = [] := by
  refine List.eq_nil_iff_forall_not_mem.mpr fun slice member => ?_
  have positive := (plain.inBlock bkey slice member).2.1
  refine valueAt_eq_none_iff.mp (uncovered slice.ssize.offset) slice member ?_
  simp only [Over, OBSliceEntry.start_eq, OBSliceEntry.stop_eq, OBSliceEntry.sliceEnd]
  omega

/-- With no creates there is nothing to subtract. -/
theorem htableReverseRemove_of_empty {htables : BinlogHashtables}
    (create : PlainTable htables.create)
    (empty : ∀ bkey, htables.create.slicesOf bkey = []) :
    (htableReverseRemove sl htables).remove = htables.remove := by
  have nothing : ∀ obs : List OBEntry, (∀ ob ∈ obs, ob.slices = []) →
      obs.foldl (reverseRemoveEntry sl) htables.remove = htables.remove := by
    intro obs
    induction obs with
    | nil => exact fun _ => rfl
    | cons ob obs ih =>
        intro none
        rw [List.foldl_cons, reverseRemoveEntry, if_pos (none ob List.mem_cons_self)]
        exact ih fun other member => none other (List.mem_cons_of_mem _ member)
  apply nothing
  intro ob member
  rw [← create.slices_of_entry member, empty]

variable {records : List ReplicaBinlogRecord} {ctx : BinlogDedupContext}

/-- The branches of `dedup_binlog` that skip an empty table do not change the
output. -/
theorem dedupOutput_eq (inv : DedupInvariant records ctx) (currentVersion : Nat) :
    dedupOutput sl currentVersion ctx =
      sliceArrayToFile .delSlice currentVersion
          (htableDump (htableReverseRemove sl ctx.htables).remove) ++
        sliceArrayToFile .writeSlice
          (currentVersion + (sliceArrayToFile .delSlice currentVersion
            (htableDump (htableReverseRemove sl ctx.htables).remove)).length)
          (htableDump ctx.htables.create) := by
  obtain ⟨plain, value⟩ := htableReverseRemove_spec sl inv.create inv.remove
  have creates : ctx.createStat.success = 0 → htableDump ctx.htables.create = [] :=
    fun none => htableDump_of_empty inv.create (inv.noCreate none)
  have same : ctx.createStat.success = 0 →
      (htableReverseRemove sl ctx.htables).remove = ctx.htables.remove :=
    fun none => htableReverseRemove_of_empty sl inv.create (inv.noCreate none)
  have removes : ctx.partialDeletes = 0 →
      htableDump (htableReverseRemove sl ctx.htables).remove = [] := by
    intro none
    refine htableDump_of_empty plain fun bkey => plain.slices_eq_nil fun b => ?_
    rw [Option.eq_none_iff_forall_ne_some]
    intro stype found
    have before := ((value bkey b stype).mp found).1
    rw [inv.noRemove none] at before
    cases before
  unfold dedupOutput
  rcases Nat.eq_zero_or_pos ctx.createStat.success with noCreate | someCreate
  · rcases Nat.eq_zero_or_pos ctx.partialDeletes with noRemove | someRemove
    · simp [noCreate, noRemove, creates, removes, sliceArrayToFile]
    · simp [noCreate, someRemove, someRemove.ne', creates, same, sliceArrayToFile]
  · rcases Nat.eq_zero_or_pos ctx.partialDeletes with noRemove | someRemove
    · simp [someCreate, someCreate.ne', noRemove, removes, sliceArrayToFile]
    · simp [someCreate, someCreate.ne', someRemove]

theorem mem_sliceArrayToFile {opType : BinlogOpType} {version : Nat}
    {sarray : List OBSliceEntry} {bsKey : FSBlockSliceKeyInfo} {kind : BinlogOpType} :
    (∃ record ∈ sliceArrayToFile opType version sarray,
        record.opType = kind ∧ record.bsKey = bsKey) ↔
      ∃ slice ∈ sarray, outputOpType opType slice = kind ∧ ⟨slice.ob, slice.ssize⟩ = bsKey := by
  induction sarray generalizing version with
  | nil => simp [sliceArrayToFile]
  | cons slice rest ih => simp only [sliceArrayToFile, List.mem_cons, exists_eq_or_imp, ih]

@[simp] theorem length_sliceArrayToFile (opType : BinlogOpType) (version : Nat)
    (sarray : List OBSliceEntry) :
    (sliceArrayToFile opType version sarray).length = sarray.length := by
  induction sarray generalizing version with
  | nil => rfl
  | cons slice rest ih => simp [sliceArrayToFile, ih]

theorem dataVersion_sliceArrayToFile (opType : BinlogOpType) (version : Nat)
    (sarray : List OBSliceEntry) :
    (sliceArrayToFile opType version sarray).map ReplicaBinlogRecord.dataVersion =
      List.range' (version + 1) sarray.length := by
  induction sarray generalizing version with
  | nil => rfl
  | cons slice rest ih => simp [sliceArrayToFile, ih, List.range'_succ]

end Output

end FastStore.Recovery
