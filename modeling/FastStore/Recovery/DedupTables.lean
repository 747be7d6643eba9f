import FastStore.Recovery.BinlogDedup

/-!
# What the dedup tables hold

The last record over a byte decides what the create table says about it.  The
remove table holds the bytes of every delete that did not find its whole range in
the create table.  Subtracting the creates from it and merging neighbours does not
change which bytes the two tables speak about.
-/

namespace FastStore.Recovery

open FastStore.Util FastStore.Util.Extent FastStore.Storage FastStore.Binlog

/-! ## Records over bytes -/

/-- The range a record is about: a block delete takes the whole block. -/
def targetOf (record : ReplicaBinlogRecord) : FSSliceSize :=
  match record.opType with
  | .delBlock => ⟨0, fsFileBlockSize⟩
  | _ => record.bsKey.slice

/-- The record is about this byte of the block. -/
def Covers (record : ReplicaBinlogRecord) (bkey : FSBlockKey) (b : Int) : Prop :=
  record.opType ≠ .noOp ∧ record.bsKey.block = bkey ∧
    (targetOf record).offset ≤ b ∧ b < (targetOf record).offset + (targetOf record).length

instance (record : ReplicaBinlogRecord) (bkey : FSBlockKey) (b : Int) :
    Decidable (Covers record bkey b) := inferInstanceAs (Decidable (_ ∧ _))

/-- Delete of a slice or of a block. -/
def IsDelete (record : ReplicaBinlogRecord) : Prop :=
  record.opType = .delSlice ∨ record.opType = .delBlock

instance (record : ReplicaBinlogRecord) : Decidable (IsDelete record) :=
  inferInstanceAs (Decidable (_ ∨ _))

/-- What a record leaves of the bytes it covers. -/
def createdType (record : ReplicaBinlogRecord) : Option OBSliceType :=
  match record.opType with
  | .writeSlice => some .file
  | .allocSlice => some .alloc
  | _ => none

/-- What the record does to a byte: nothing, or make it created or deleted. -/
def recordEffect (bkey : FSBlockKey) (b : Int) (record : ReplicaBinlogRecord) :
    Option (Option OBSliceType) :=
  if Covers record bkey b then some (createdType record) else none

/-- The effect of the last record over a byte, if there is one. -/
def lastEffect (records : List ReplicaBinlogRecord) (bkey : FSBlockKey) (b : Int) :
    Option (Option OBSliceType) :=
  records.reverse.findSome? (recordEffect bkey b)

/-- What the records alone leave of a byte, starting from nothing. -/
def createdAt (records : List ReplicaBinlogRecord) (bkey : FSBlockKey) (b : Int) :
    Option OBSliceType :=
  (lastEffect records bkey b).join

/-- Some byte of the range of the record is not created by the records before it. -/
def Incomplete (before : List ReplicaBinlogRecord) (record : ReplicaBinlogRecord) : Prop :=
  ∃ c, (targetOf record).offset ≤ c ∧
    c < (targetOf record).offset + (targetOf record).length ∧
    createdAt before record.bsKey.block c = none

/-- Some delete over the byte was incomplete when it was dealt with. -/
def KeptDelete (records : List ReplicaBinlogRecord) (bkey : FSBlockKey) (b : Int) : Prop :=
  ∃ before record, before ++ [record] <+: records ∧ IsDelete record ∧
    Covers record bkey b ∧ Incomplete before record

theorem lastEffect_concat (records : List ReplicaBinlogRecord) (record : ReplicaBinlogRecord)
    (bkey : FSBlockKey) (b : Int) :
    lastEffect (records ++ [record]) bkey b =
      (recordEffect bkey b record).or (lastEffect records bkey b) := by
  rw [lastEffect, List.reverse_append, List.reverse_singleton, List.singleton_append,
    List.findSome?_cons]
  cases recordEffect bkey b record <;> rfl

theorem createdAt_concat (records : List ReplicaBinlogRecord) (record : ReplicaBinlogRecord)
    (bkey : FSBlockKey) (b : Int) :
    createdAt (records ++ [record]) bkey b =
      if Covers record bkey b then createdType record else createdAt records bkey b := by
  rw [createdAt, lastEffect_concat, recordEffect]
  split_ifs <;> rfl

theorem keptDelete_concat (records : List ReplicaBinlogRecord) (record : ReplicaBinlogRecord)
    (bkey : FSBlockKey) (b : Int) :
    KeptDelete (records ++ [record]) bkey b ↔
      KeptDelete records bkey b ∨
        (IsDelete record ∧ Covers record bkey b ∧ Incomplete records record) := by
  constructor
  · rintro ⟨before, last, isPrefix, holds⟩
    rcases List.prefix_concat_iff.mp isPrefix with whole | shorter
    · obtain ⟨rfl, same⟩ := List.append_inj' whole rfl
      rw [List.singleton_inj.mp same] at holds
      exact Or.inr holds
    · exact Or.inl ⟨before, last, shorter, holds⟩
  · rintro (⟨before, last, isPrefix, holds⟩ | holds)
    · exact ⟨before, last, isPrefix.trans (List.prefix_append _ _), holds⟩
    · exact ⟨records, record, List.prefix_rfl, holds⟩

/-! ## Tables of their own -/

/-- The type of a slice, the same for each of its bytes. -/
def typeAt (slice : OBSliceEntry) (_ : Int) : OBSliceType := slice.type

theorem cutInvariant_typeAt : CutInvariant typeAt := by
  intro slice offset length b _
  exact slice.fragment_type offset length

/-- A table that keeps no trunk account and whose slices are non-empty, lie in
their blocks and belong to them. -/
structure PlainTable (htable : OBHashtable) : Prop where
  sound : htable.Sound
  unaccounted : htable.modifySallocator = false
  capacity : 0 < htable.capacity
  inBlock : ∀ bkey, ∀ slice ∈ htable.slicesOf bkey,
    0 ≤ slice.ssize.offset ∧ 0 < slice.ssize.length ∧ slice.sliceEnd ≤ fsFileBlockSize
  owned : ∀ bkey, ∀ slice ∈ htable.slicesOf bkey, slice.ob = bkey

namespace PlainTable

variable {htable : OBHashtable}

theorem init {capacity : Nat} (positive : 0 < capacity) :
    PlainTable (obIndexInitHtableEx capacity) := by
  refine ⟨OBHashtable.Sound.init capacity, rfl, positive, ?_, ?_⟩ <;>
    · intro bkey slice member
      cases member

/-- What is true of the whole slice, in its block and of its owner, is true of the
pieces that are left of it. -/
theorem piece_inBlock {lo hi : Int} (order : lo ≤ hi) (plain : PlainTable htable)
    {bkey : FSBlockKey} {slice : OBSliceEntry}
    (member : slice ∈ carve lo hi (htable.slicesOf bkey)) :
    (0 ≤ slice.ssize.offset ∧ 0 < slice.ssize.length ∧ slice.sliceEnd ≤ fsFileBlockSize) ∧
      slice.ob = bkey := by
  obtain ⟨source, sourceMember, piece⟩ := mem_carve.mp member
  obtain ⟨low, positive, high⟩ := plain.inBlock bkey source sourceMember
  have owner := plain.owned bkey source sourceMember
  have length := positive_of_mem_carve order
    (fun other otherMember => (plain.inBlock bkey other otherMember).2.1) member
  have bounds := pieces_bounds order positive.le piece
  simp only [OBSliceEntry.start_eq, OBSliceEntry.stop_eq, OBSliceEntry.len_eq] at bounds length
  refine ⟨⟨low.trans bounds.1, length, bounds.2.1.trans high⟩, ?_⟩
  rcases mem_pieces.mp piece with ⟨rfl, _⟩ | ⟨rfl, _⟩ | ⟨rfl, _⟩
  · exact owner
  · rw [OBSliceEntry.sub_eq, OBSliceEntry.fragment_ob]
    exact owner
  · rw [OBSliceEntry.sub_eq, OBSliceEntry.fragment_ob]
    exact owner

end PlainTable

section Calls

variable (sl : UniqSkiplist OBSliceEntry.key) {htable : OBHashtable}
  {bsKey : FSBlockSliceKeyInfo} (stype : OBSliceType)

/-- The range lies inside its block and is not empty. -/
def RangeInBlock (range : FSSliceSize) : Prop :=
  0 ≤ range.offset ∧ 0 < range.length ∧ range.offset + range.length ≤ fsFileBlockSize

theorem dedupAddSlice_ok (plain : PlainTable htable) (range : RangeInBlock bsKey.slice) :
    (dedupAddSlice sl htable bsKey stype).1 = .ok := by
  have sound : (tableState htable).htable.Sound := plain.sound
  exact allocAndAddSlice_ok sl false sound plain.unaccounted range.2.1

theorem slicesOf_dedupAddSlice (plain : PlainTable htable) (range : RangeInBlock bsKey.slice)
    (bkey : FSBlockKey) :
    (dedupAddSlice sl htable bsKey stype).2.slicesOf bkey =
      if bkey = bsKey.block then overwrite (recordSlice bsKey stype) (htable.slicesOf bsKey.block)
      else htable.slicesOf bkey := by
  have sound : (tableState htable).htable.Sound := plain.sound
  have positive : 0 < (recordSlice bsKey stype).ssize.length := range.2.1
  exact slicesOf_allocAndAddSlice sl false sound positive bkey

theorem valueAt_dedupAddSlice (plain : PlainTable htable) (range : RangeInBlock bsKey.slice)
    (bkey : FSBlockKey) (b : Int) :
    valueAt typeAt ((dedupAddSlice sl htable bsKey stype).2.slicesOf bkey) b =
      if bsKey.block = bkey ∧ bsKey.slice.offset ≤ b ∧
        b < bsKey.slice.offset + bsKey.slice.length then some stype
      else valueAt typeAt (htable.slicesOf bkey) b := by
  have sound : (tableState htable).htable.Sound := plain.sound
  have positive : 0 < (recordSlice bsKey stype).ssize.length := range.2.1
  exact valueAt_allocAndAddSlice sl false cutInvariant_typeAt sound positive bkey b

namespace PlainTable

theorem add (plain : PlainTable htable) (range : RangeInBlock bsKey.slice) :
    PlainTable (dedupAddSlice sl htable bsKey stype).2 := by
  have sound : (tableState htable).htable.Sound := plain.sound
  have positive : 0 < (recordSlice bsKey stype).ssize.length := range.2.1
  have shape := sameShape_allocAndAddSlice sl false (recordSlice bsKey stype) (tableState htable)
  have members : ∀ bkey, ∀ slice ∈ (dedupAddSlice sl htable bsKey stype).2.slicesOf bkey,
      (0 ≤ slice.ssize.offset ∧ 0 < slice.ssize.length ∧ slice.sliceEnd ≤ fsFileBlockSize) ∧
        slice.ob = bkey := by
    intro bkey slice member
    rw [slicesOf_dedupAddSlice sl stype plain range] at member
    split_ifs at member with same
    · rcases Chain.mem_insert.mp member with rfl | kept
      · exact ⟨range, same.symm⟩
      · rw [same]
        exact plain.piece_inBlock (le_add_of_nonneg_right positive.le) kept
    · exact ⟨plain.inBlock bkey slice member, plain.owned bkey slice member⟩
  exact ⟨sound_allocAndAddSlice sl false sound positive,
    shape.modifySallocator.trans plain.unaccounted, shape.capacity ▸ plain.capacity,
    fun bkey slice member => (members bkey slice member).1,
    fun bkey slice member => (members bkey slice member).2⟩

theorem deleteSlices (plain : PlainTable htable) (bsKey : FSBlockSliceKeyInfo)
    (positive : 0 < bsKey.slice.length) :
    PlainTable (obIndexDeleteSlicesEx sl false bsKey (tableState htable)).2.2.htable := by
  have sound : (tableState htable).htable.Sound := plain.sound
  have shape := sameShape_obIndexDeleteSlicesEx sl false bsKey (tableState htable)
  have members : ∀ bkey, ∀ slice ∈
      (obIndexDeleteSlicesEx sl false bsKey (tableState htable)).2.2.htable.slicesOf bkey,
      (0 ≤ slice.ssize.offset ∧ 0 < slice.ssize.length ∧ slice.sliceEnd ≤ fsFileBlockSize) ∧
        slice.ob = bkey := by
    intro bkey slice member
    rw [slicesOf_obIndexDeleteSlicesEx sl false sound positive.le] at member
    split_ifs at member with same
    · rw [same]
      exact plain.piece_inBlock (le_add_of_nonneg_right positive.le) member
    · exact ⟨plain.inBlock bkey slice member, plain.owned bkey slice member⟩
  exact ⟨sound_obIndexDeleteSlicesEx sl false sound positive.le,
    shape.modifySallocator.trans plain.unaccounted, shape.capacity ▸ plain.capacity,
    fun bkey slice member => (members bkey slice member).1,
    fun bkey slice member => (members bkey slice member).2⟩

theorem deleteBlock (plain : PlainTable htable) (deleted : FSBlockKey) :
    PlainTable (obIndexDeleteBlockEx false deleted (tableState htable)).2.2.htable := by
  have sound : (tableState htable).htable.Sound := plain.sound
  have shape := sameShape_obIndexDeleteBlockEx false deleted (tableState htable)
  have members : ∀ bkey, ∀ slice ∈
      (obIndexDeleteBlockEx false deleted (tableState htable)).2.2.htable.slicesOf bkey,
      slice ∈ htable.slicesOf bkey := by
    intro bkey slice member
    rw [slicesOf_obIndexDeleteBlockEx false sound.wf] at member
    split_ifs at member
    · cases member
    · exact member
  exact ⟨sound_obIndexDeleteBlockEx false sound deleted,
    shape.modifySallocator.trans plain.unaccounted, shape.capacity ▸ plain.capacity,
    fun bkey slice member => plain.inBlock bkey slice (members bkey slice member),
    fun bkey slice member => plain.owned bkey slice (members bkey slice member)⟩

/-- The count of a delete falls short of its range exactly when some byte of the
range has no slice. -/
theorem covered_ne_iff (plain : PlainTable htable) (bkey : FSBlockKey) {range : FSSliceSize}
    (nonneg : 0 ≤ range.length) :
    covered range.offset (range.offset + range.length) (htable.slicesOf bkey) ≠ range.length ↔
      ∃ c, range.offset ≤ c ∧ c < range.offset + range.length ∧
        valueAt typeAt (htable.slicesOf bkey) c = none := by
  have length : range.length = range.offset + range.length - range.offset := by omega
  have order : range.offset ≤ range.offset + range.length := by omega
  have full := covered_eq_length_iff (plain.sound.laid bkey) order
  rw [← length] at full
  rw [ne_eq, full]
  simp only [not_forall, valueAt_eq_none_iff, not_exists, not_and, exists_prop]

/-- All slices lie in the block, so deleting the block counts the covered bytes of
the whole block. -/
theorem sum_length_eq_covered (plain : PlainTable htable) (bkey : FSBlockKey) :
    ((htable.slicesOf bkey).map fun slice => slice.ssize.length).sum =
      covered 0 fsFileBlockSize (htable.slicesOf bkey) := by
  rw [covered]
  congr 1
  refine List.map_congr_left ?_
  intro slice member
  have bounds := plain.inBlock bkey slice member
  simp only [overlap, OBSliceEntry.start_eq, OBSliceEntry.stop_eq, OBSliceEntry.sliceEnd] at *
  omega

end PlainTable

end Calls

/-! ## Filling the tables -/

section Filling

variable (sl : UniqSkiplist OBSliceEntry.key)

/-- What the two tables hold after some records. -/
structure DedupInvariant (records : List ReplicaBinlogRecord) (ctx : BinlogDedupContext) :
    Prop where
  create : PlainTable ctx.htables.create
  remove : PlainTable ctx.htables.remove
  created : ∀ bkey b,
    valueAt typeAt (ctx.htables.create.slicesOf bkey) b = createdAt records bkey b
  removed : ∀ bkey b stype,
    valueAt typeAt (ctx.htables.remove.slicesOf bkey) b = some stype ↔
      stype = .file ∧ KeptDelete records bkey b
  noCreate : ctx.createStat.success = 0 → ∀ bkey, ctx.htables.create.slicesOf bkey = []
  noRemove : ctx.partialDeletes = 0 → ∀ bkey, ctx.htables.remove.slicesOf bkey = []

theorem DedupInvariant.init {htables : BinlogHashtables} (create : PlainTable htables.create)
    (remove : PlainTable htables.remove) (noCreate : ∀ bkey, htables.create.slicesOf bkey = [])
    (noRemove : ∀ bkey, htables.remove.slicesOf bkey = []) :
    DedupInvariant [] ⟨htables, ⟨0, 0, 0⟩, ⟨0, 0, 0⟩, 0⟩ := by
  refine ⟨create, remove, fun bkey b => ?_, fun bkey b stype => ?_, fun _ => noCreate,
    fun _ => noRemove⟩
  · rw [noCreate]
    rfl
  · rw [noRemove]
    constructor
    · intro found
      cases found
    · rintro ⟨_, before, record, isPrefix, _⟩
      exact absurd (List.prefix_nil.mp isPrefix) (by simp)

variable {records : List ReplicaBinlogRecord} {ctx : BinlogDedupContext}
  {record : ReplicaBinlogRecord}

/-- A create record: the byte map of the create table follows the record, the
remove table stays. -/
theorem dealCreate_spec (inv : DedupInvariant records ctx) {stype : OBSliceType}
    (notDelete : ¬IsDelete record) (notNoOp : record.opType ≠ .noOp)
    (created : createdType record = some stype) (range : RangeInBlock record.bsKey.slice) :
    (dealCreate sl ctx record stype).1 = .ok ∧
      DedupInvariant (records ++ [record]) (dealCreate sl ctx record stype).2 := by
  have done := dedupAddSlice_ok sl stype inv.create range
  have target : targetOf record = record.bsKey.slice := by
    unfold targetOf
    split
    · rename_i isBlock
      exact absurd (Or.inr isBlock) notDelete
    · rfl
  refine ⟨done, inv.create.add sl stype range, inv.remove, fun bkey b => ?_, fun bkey b other => ?_,
    fun none => ?_, inv.noRemove⟩
  · have value := valueAt_dedupAddSlice sl stype inv.create range bkey b
    rw [createdAt_concat, ← inv.created, created]
    simp only [Covers, target, notNoOp, ne_eq, not_false_eq_true, true_and]
    exact value
  · rw [keptDelete_concat]
    simp only [notDelete, false_and, or_false]
    exact inv.removed bkey b other
  · simp [dealCreate, done] at none

/-- The part after the delete from the create table: the range goes to the remove
table exactly when the count fell short. -/
theorem dealRemove_spec (ctx : BinlogDedupContext) (bsKey : FSBlockSliceKeyInfo)
    {result : Errno} (decAlloc : Int) (remove : PlainTable ctx.htables.remove)
    (range : RangeInBlock bsKey.slice)
    (result_cases : result = .ok ∨ result = .enoent)
    (noRemove : ctx.partialDeletes = 0 → ∀ bkey, ctx.htables.remove.slicesOf bkey = []) :
    let dealt := dealRemove sl ctx bsKey result decAlloc bsKey.slice.length
    dealt.1 = .ok ∧ PlainTable dealt.2.htables.remove ∧
      dealt.2.htables.create = ctx.htables.create ∧ dealt.2.createStat = ctx.createStat ∧
      (∀ bkey b, valueAt typeAt (dealt.2.htables.remove.slicesOf bkey) b =
        if decAlloc ≠ bsKey.slice.length ∧ bsKey.block = bkey ∧ bsKey.slice.offset ≤ b ∧
          b < bsKey.slice.offset + bsKey.slice.length then some .file
        else valueAt typeAt (ctx.htables.remove.slicesOf bkey) b) ∧
      (dealt.2.partialDeletes = 0 → ∀ bkey, dealt.2.htables.remove.slicesOf bkey = []) := by
  have done := dedupAddSlice_ok sl .file remove range
  have settled : (if result = .enoent then Errno.ok else result) = .ok := by
    rcases result_cases with rfl | rfl <;> rfl
  by_cases short : decAlloc = bsKey.slice.length
  · simp only [dealRemove, ne_eq, short, not_true_eq_false, if_false, false_and]
    exact ⟨settled, remove, trivial, trivial, fun _ _ => trivial, noRemove⟩
  · simp only [dealRemove, ne_eq, short, not_false_eq_true, if_true, done, true_and]
    refine ⟨settled, remove.add sl .file range, ?_, ?_⟩
    · exact fun bkey b => valueAt_dedupAddSlice sl .file remove range bkey b
    · intro none
      exact absurd none (Nat.succ_ne_zero _)

/-- A delete record, put together: `create` is the create table after the delete
and `decAlloc` the count of what it found. -/
theorem dealRemove_inv (inv : DedupInvariant records ctx) (isDelete : IsDelete record)
    {create : OBHashtable} (plain : PlainTable create) (result : Errno) (decAlloc : Int)
    (range : RangeInBlock (targetOf record))
    (result_cases : result = .ok ∨ result = .enoent)
    (found : decAlloc = covered (targetOf record).offset
      ((targetOf record).offset + (targetOf record).length)
      (ctx.htables.create.slicesOf record.bsKey.block))
    (created : ∀ bkey b, valueAt typeAt (create.slicesOf bkey) b =
      if Covers record bkey b then none
      else valueAt typeAt (ctx.htables.create.slicesOf bkey) b)
    (noCreate : (∀ bkey, ctx.htables.create.slicesOf bkey = []) →
      ∀ bkey, create.slicesOf bkey = []) :
    let dealt := dealRemove sl { ctx with htables := { ctx.htables with create := create } }
      ⟨record.bsKey.block, targetOf record⟩ result decAlloc (targetOf record).length
    dealt.1 = .ok ∧ DedupInvariant (records ++ [record]) dealt.2 := by
  have notNoOp : record.opType ≠ .noOp := by
    rcases isDelete with isSlice | isBlock
    · simp [isSlice]
    · simp [isBlock]
  have gone : createdType record = none := by
    rcases isDelete with isSlice | isBlock
    · simp [createdType, isSlice]
    · simp [createdType, isBlock]
  have short : decAlloc ≠ (targetOf record).length ↔ Incomplete records record := by
    rw [found, inv.create.covered_ne_iff record.bsKey.block range.2.1.le]
    simp only [inv.created]
    rfl
  intro dealt
  obtain ⟨done, removePlain, sameCreate, sameStat, value, noRemove⟩ := dealRemove_spec sl
    { ctx with htables := { ctx.htables with create := create } }
    ⟨record.bsKey.block, targetOf record⟩ decAlloc inv.remove
    range result_cases inv.noRemove
  refine ⟨done, ?_, removePlain, fun bkey b => ?_, fun bkey b stype => ?_, ?_, noRemove⟩
  · rw [sameCreate]
    exact plain
  · rw [sameCreate, created, createdAt_concat, gone, inv.created]
  · have before := inv.removed bkey b stype
    rw [value, keptDelete_concat]
    simp only [isDelete, true_and, Covers, notNoOp, ne_eq, not_false_eq_true, ← short]
    split_ifs with added
    · constructor
      · intro equal
        exact ⟨(Option.some.inj equal).symm, Or.inr ⟨added.2, added.1⟩⟩
      · rintro ⟨rfl, _⟩
        rfl
    · constructor
      · intro found
        exact ⟨(before.mp found).1, Or.inl (before.mp found).2⟩
      · rintro ⟨isFile, kept | ⟨covers, incomplete⟩⟩
        · exact before.mpr ⟨isFile, kept⟩
        · exact absurd ⟨incomplete, covers⟩ added
  · intro none
    rw [sameCreate]
    exact noCreate (inv.noCreate (sameStat ▸ none))

theorem targetOf_inBlock (inBlock : record.InBlock) (notNoOp : record.opType ≠ .noOp) :
    RangeInBlock (targetOf record) := by
  cases opType : record.opType with
  | noOp => exact absurd opType notNoOp
  | delBlock =>
      simp only [targetOf, opType, RangeInBlock]
      decide
  | writeSlice => simpa [targetOf, opType, RangeInBlock, ReplicaBinlogRecord.InBlock] using inBlock
  | allocSlice => simpa [targetOf, opType, RangeInBlock, ReplicaBinlogRecord.InBlock] using inBlock
  | delSlice => simpa [targetOf, opType, RangeInBlock, ReplicaBinlogRecord.InBlock] using inBlock

/-- One record keeps the tables in step with the records. -/
theorem dealRecord_inv (inv : DedupInvariant records ctx) (inBlock : record.InBlock) :
    (dealRecord sl ctx record).1 = .ok ∧
      DedupInvariant (records ++ [record]) (dealRecord sl ctx record).2 := by
  have sound : (tableState ctx.htables.create).htable.Sound := inv.create.sound
  cases opType : record.opType with
  | writeSlice =>
      have range := targetOf_inBlock inBlock (by simp [opType])
      simp only [targetOf, opType] at range
      simp only [dealRecord, opType]
      exact dealCreate_spec sl inv (by simp [IsDelete, opType]) (by simp [opType])
        (by simp [createdType, opType]) range
  | allocSlice =>
      have range := targetOf_inBlock inBlock (by simp [opType])
      simp only [targetOf, opType] at range
      simp only [dealRecord, opType]
      exact dealCreate_spec sl inv (by simp [IsDelete, opType]) (by simp [opType])
        (by simp [createdType, opType]) range
  | delSlice =>
      have range := targetOf_inBlock inBlock (by simp [opType])
      have target : targetOf record = record.bsKey.slice := by simp [targetOf, opType]
      have length : 0 < record.bsKey.slice.length := target ▸ range.2.1
      have results : (obIndexDeleteSlicesEx sl false record.bsKey
          (tableState ctx.htables.create)).1 = .ok ∨
          (obIndexDeleteSlicesEx sl false record.bsKey
            (tableState ctx.htables.create)).1 = .enoent := by
        rw [result_obIndexDeleteSlicesEx sl false sound length.le]
        split_ifs
        · exact Or.inr rfl
        · exact Or.inl rfl
      have found := decAlloc_obIndexDeleteSlicesEx sl false sound length.le
      rw [← target] at found
      have dealt := dealRemove_inv sl inv (Or.inl opType)
        (inv.create.deleteSlices sl record.bsKey length) _ _ range results found ?_ ?_
      · simp only [dealRecord, opType]
        rw [target] at dealt
        exact dealt
      · intro bkey b
        rw [valueAt_obIndexDeleteSlicesEx sl false cutInvariant_typeAt sound length.le]
        refine if_congr ?_ rfl rfl
        simp [Covers, target, opType]
      · intro empty bkey
        rw [slicesOf_obIndexDeleteSlicesEx sl false sound length.le]
        split_ifs <;> simp [empty]
  | delBlock =>
      have range := targetOf_inBlock inBlock (by simp [opType])
      have target : targetOf record = ⟨0, fsFileBlockSize⟩ := by simp [targetOf, opType]
      have results : (obIndexDeleteBlockEx false record.bsKey.block
          (tableState ctx.htables.create)).1 = .ok ∨
          (obIndexDeleteBlockEx false record.bsKey.block
            (tableState ctx.htables.create)).1 = .enoent := by
        rw [result_obIndexDeleteBlockEx]
        split_ifs
        · exact Or.inl rfl
        · exact Or.inr rfl
      have found := decAlloc_obIndexDeleteBlockEx false record.bsKey.block
        (tableState ctx.htables.create)
      have whole : covered (targetOf record).offset
          ((targetOf record).offset + (targetOf record).length)
          (ctx.htables.create.slicesOf record.bsKey.block) =
          covered 0 fsFileBlockSize (ctx.htables.create.slicesOf record.bsKey.block) := by
        rw [target, zero_add]
      rw [tableState_htable, inv.create.sum_length_eq_covered, ← whole] at found
      have dealt := dealRemove_inv sl inv (Or.inr opType)
        (inv.create.deleteBlock record.bsKey.block) _ _ range results found ?_ ?_
      · simp only [dealRecord, opType]
        rw [target] at dealt
        exact dealt
      · intro bkey b
        rw [valueAt_obIndexDeleteBlockEx false sound.wf]
        by_cases same : record.bsKey.block = bkey
        · rw [if_pos same]
          split_ifs with covers
          · rfl
          · symm
            refine valueAt_eq_none_iff.mpr fun slice member overByte => covers ?_
            have bounds := inv.create.inBlock bkey slice member
            simp only [Over, OBSliceEntry.start_eq, OBSliceEntry.stop_eq] at overByte
            simp only [Covers, target, opType, same]
            refine ⟨by simp, trivial, ?_, ?_⟩ <;> omega
        · rw [if_neg same, if_neg fun covers => same covers.2.1]
          rfl
      · intro empty bkey
        rw [slicesOf_obIndexDeleteBlockEx false sound.wf]
        split_ifs <;> simp [empty]
  | noOp =>
      simp only [dealRecord, opType]
      have nothing : ∀ bkey b, ¬Covers record bkey b := fun bkey b covers => covers.1 opType
      refine ⟨trivial, inv.create, inv.remove, fun bkey b => ?_, fun bkey b stype => ?_,
        inv.noCreate, inv.noRemove⟩
      · rw [createdAt_concat, if_neg (nothing bkey b), inv.created]
      · rw [keptDelete_concat, inv.removed]
        simp [nothing]

/-- A whole list of records is dealt with without error. -/
theorem dealBinlogBuffer_inv {rest : List ReplicaBinlogRecord}
    (inv : DedupInvariant records ctx) (inBlock : ∀ record ∈ rest, record.InBlock) :
    (dealBinlogBuffer sl rest ctx).1 = .ok ∧
      DedupInvariant (records ++ rest) (dealBinlogBuffer sl rest ctx).2 := by
  induction rest generalizing records ctx with
  | nil => exact ⟨rfl, by simpa [dealBinlogBuffer] using inv⟩
  | cons record rest ih =>
      obtain ⟨done, next⟩ := dealRecord_inv sl inv (inBlock record List.mem_cons_self)
      have tail := ih next fun other member => inBlock other (List.mem_cons_of_mem _ member)
      rw [List.append_assoc, List.singleton_append] at tail
      rw [dealBinlogBuffer, if_pos done]
      exact tail

end Filling

end FastStore.Recovery
