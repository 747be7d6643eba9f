import FastStore.Recovery.DedupOutput

/-!
# Replaying the dedup output

What the output does to a byte is what the records alone leave there, or a delete
if one was kept.  Replaying it on a store that the dedup never saw gives the same
bytes as the records exactly when every delete that mattered was kept, and the
same contents exactly when no alloc stands for older data.
-/

namespace FastStore.Recovery

open FastStore.Util FastStore.Util.Extent FastStore.Storage FastStore.Binlog

/-! ## The last record over a byte -/

theorem lastEffect_append (left right : List ReplicaBinlogRecord) (bkey : FSBlockKey) (b : Int) :
    lastEffect (left ++ right) bkey b = (lastEffect right bkey b).or (lastEffect left bkey b) := by
  rw [lastEffect, List.reverse_append, List.findSome?_append]
  rfl

theorem lastEffect_eq_none_iff {records : List ReplicaBinlogRecord} {bkey : FSBlockKey}
    {b : Int} : lastEffect records bkey b = none ↔ ∀ record ∈ records, ¬Covers record bkey b := by
  simp [lastEffect, List.findSome?_eq_none_iff, recordEffect]

theorem exists_of_lastEffect {records : List ReplicaBinlogRecord} {bkey : FSBlockKey} {b : Int}
    {left : Option OBSliceType} (found : lastEffect records bkey b = some left) :
    ∃ record ∈ records, Covers record bkey b ∧ createdType record = left := by
  obtain ⟨record, member, effect⟩ := List.exists_of_findSome?_eq_some found
  rw [recordEffect] at effect
  split_ifs at effect with covers
  exact ⟨record, List.mem_reverse.mp member, covers, Option.some.inj effect⟩

/-- When all records over a byte leave the same, so does the last one. -/
theorem lastEffect_eq_some_iff {records : List ReplicaBinlogRecord} {bkey : FSBlockKey} {b : Int}
    {left : Option OBSliceType}
    (agree : ∀ record ∈ records, Covers record bkey b → createdType record = left) :
    lastEffect records bkey b = some left ↔ ∃ record ∈ records, Covers record bkey b := by
  constructor
  · intro found
    obtain ⟨record, member, covers, _⟩ := exists_of_lastEffect found
    exact ⟨record, member, covers⟩
  · rintro ⟨record, member, covers⟩
    cases last : lastEffect records bkey b with
    | none => exact absurd covers (lastEffect_eq_none_iff.mp last record member)
    | some other =>
        obtain ⟨lastRecord, lastMember, lastCovers, rfl⟩ := exists_of_lastEffect last
        rw [agree lastRecord lastMember lastCovers]

/-! ## The effect of the output -/

/-- A record written for a slice is about the bytes of the slice. -/
theorem covers_written {kind : BinlogOpType} (notNoOp : kind ≠ .noOp) (notBlock : kind ≠ .delBlock)
    (slice : OBSliceEntry) (version : Nat) (bkey : FSBlockKey) (b : Int) :
    Covers ⟨kind, .replay, ⟨slice.ob, slice.ssize⟩, version⟩ bkey b ↔
      slice.ob = bkey ∧ Over slice b := by
  have target : targetOf ⟨kind, .replay, ⟨slice.ob, slice.ssize⟩, version⟩ = slice.ssize := by
    cases kind with
    | delBlock => exact absurd rfl notBlock
    | writeSlice | allocSlice | delSlice | noOp => rfl
  rw [Covers, target]
  simp only [ne_eq, notNoOp, not_false_eq_true, true_and]
  rfl

theorem outputOpType_del (slice : OBSliceEntry) : outputOpType .delSlice slice = .delSlice := rfl

theorem outputOpType_write (slice : OBSliceEntry) :
    outputOpType .writeSlice slice = if slice.type = .file then .writeSlice else .allocSlice := rfl

/-- The delete records cover the dumped bytes and leave nothing there. -/
theorem exists_covers_del {version : Nat} {sarray : List OBSliceEntry} {bkey : FSBlockKey}
    {b : Int} :
    (∃ record ∈ sliceArrayToFile .delSlice version sarray, Covers record bkey b) ↔
      ∃ slice ∈ sarray, slice.ob = bkey ∧ Over slice b := by
  induction sarray generalizing version with
  | nil => simp [sliceArrayToFile]
  | cons slice rest ih =>
      simp only [sliceArrayToFile, List.mem_cons, exists_eq_or_imp, ih, outputOpType_del]
      rw [covers_written (by decide) (by decide)]

theorem createdType_del {version : Nat} {sarray : List OBSliceEntry} :
    ∀ record ∈ sliceArrayToFile .delSlice version sarray, createdType record = none := by
  induction sarray generalizing version with
  | nil => simp [sliceArrayToFile]
  | cons slice rest ih =>
      intro record member
      rcases List.mem_cons.mp member with rfl | later
      · rfl
      · exact ih record later

/-- The create records cover the dumped bytes and leave the type of the slice. -/
theorem exists_covers_create {version : Nat} {sarray : List OBSliceEntry} {bkey : FSBlockKey}
    {b : Int} {left : Option OBSliceType} :
    (∃ record ∈ sliceArrayToFile .writeSlice version sarray,
        Covers record bkey b ∧ createdType record = left) ↔
      ∃ slice ∈ sarray, slice.ob = bkey ∧ Over slice b ∧ some slice.type = left := by
  induction sarray generalizing version with
  | nil => simp [sliceArrayToFile]
  | cons slice rest ih =>
      simp only [sliceArrayToFile, List.mem_cons, exists_eq_or_imp, ih, outputOpType_write]
      cases stype : slice.type with
      | file =>
          simp only [if_true]
          rw [covers_written (by decide) (by decide)]
          simp only [createdType, and_assoc]
      | alloc =>
          simp only [reduceCtorEq, if_false]
          rw [covers_written (by decide) (by decide)]
          simp only [createdType, and_assoc]

open Classical in
/-- What the dedup makes of a byte: what the records create there, else a delete if
one was kept. -/
noncomputable def dedupOutcome (records : List ReplicaBinlogRecord) (bkey : FSBlockKey)
    (b : Int) : Option (Option OBSliceType) :=
  match createdAt records bkey b with
  | some stype => some (some stype)
  | none => if KeptDelete records bkey b then some none else none

theorem dedupOutcome_of_created {records : List ReplicaBinlogRecord} {bkey : FSBlockKey} {b : Int}
    {stype : OBSliceType} (created : createdAt records bkey b = some stype) :
    dedupOutcome records bkey b = some (some stype) := by
  simp [dedupOutcome, created]

theorem dedupOutcome_of_kept {records : List ReplicaBinlogRecord} {bkey : FSBlockKey} {b : Int}
    (created : createdAt records bkey b = none) (kept : KeptDelete records bkey b) :
    dedupOutcome records bkey b = some none := by
  simp [dedupOutcome, created, kept]

theorem dedupOutcome_of_not_kept {records : List ReplicaBinlogRecord} {bkey : FSBlockKey} {b : Int}
    (created : createdAt records bkey b = none) (notKept : ¬KeptDelete records bkey b) :
    dedupOutcome records bkey b = none := by
  simp [dedupOutcome, created, notKept]

theorem not_kept_of_untouched {records : List ReplicaBinlogRecord} {bkey : FSBlockKey} {b : Int}
    (untouched : lastEffect records bkey b = none) : ¬KeptDelete records bkey b := by
  rintro ⟨before, record, isPrefix, _, covers, _⟩
  have member : record ∈ records := isPrefix.subset (by simp)
  exact lastEffect_eq_none_iff.mp untouched record member covers

section Output

variable (sl : UniqSkiplist OBSliceEntry.key) {records : List ReplicaBinlogRecord}

theorem plainTables_initHtables (prime : CeilPrime)
    (hashtableCapacity masterVersion myVersion : Nat) :
    DedupInvariant []
      ⟨initHtables prime hashtableCapacity masterVersion myVersion, ⟨0, 0, 0⟩, ⟨0, 0, 0⟩, 0⟩ :=
  DedupInvariant.init (PlainTable.init (prime.ceil_pos _)) (PlainTable.init (prime.ceil_pos _))
    (fun _ => rfl) (fun _ => rfl)

variable (prime : CeilPrime) (hashtableCapacity masterVersion myVersion : Nat)

/-- The dedup succeeds, and its output comes from two tables that hold what the
records left. -/
theorem dataRecoveryDedupBinlog_eq (inBlock : ∀ record ∈ records, record.InBlock) :
    ∃ ctx, DedupInvariant records ctx ∧
      dataRecoveryDedupBinlog sl prime hashtableCapacity masterVersion myVersion records =
        (.ok, sliceArrayToFile .delSlice myVersion
            (htableDump (htableReverseRemove sl ctx.htables).remove) ++
          sliceArrayToFile .writeSlice
            (myVersion + (htableDump (htableReverseRemove sl ctx.htables).remove).length)
            (htableDump ctx.htables.create)) := by
  obtain ⟨done, inv⟩ := dealBinlogBuffer_inv sl
    (plainTables_initHtables prime hashtableCapacity masterVersion myVersion) inBlock
  rw [List.nil_append] at inv
  refine ⟨_, inv, ?_⟩
  rw [dataRecoveryDedupBinlog]
  simp only [done, if_true, dedupOutput_eq sl inv, length_sliceArrayToFile]

/-- Every record of the output over a byte does what the outcome says. -/
theorem dedup_agrees (inBlock : ∀ record ∈ records, record.InBlock) {record : ReplicaBinlogRecord}
    (member : record ∈
      (dataRecoveryDedupBinlog sl prime hashtableCapacity masterVersion myVersion records).2)
    {bkey : FSBlockKey} {b : Int} (covers : Covers record bkey b) :
    dedupOutcome records bkey b = some (createdType record) := by
  obtain ⟨ctx, inv, output⟩ := dataRecoveryDedupBinlog_eq sl prime hashtableCapacity
    masterVersion myVersion inBlock
  obtain ⟨plain, rest⟩ := htableReverseRemove_spec sl inv.create inv.remove
  rw [output] at member
  rcases List.mem_append.mp member with deleted | created
  · obtain ⟨slice, sliceMember, owner, overByte⟩ := exists_covers_del.mp ⟨record, deleted, covers⟩
    have held := (htableDump_covers plain bkey b slice.type).mp
      ⟨slice, sliceMember, owner, overByte, rfl⟩
    obtain ⟨removed, notCreated⟩ := (rest bkey b slice.type).mp held
    rw [inv.created] at notCreated
    rw [createdType_del record deleted,
      dedupOutcome_of_kept notCreated ((inv.removed bkey b slice.type).mp removed).2]
  · obtain ⟨slice, sliceMember, owner, overByte, left⟩ :=
      exists_covers_create.mp ⟨record, created, covers, rfl⟩
    have held := (htableDump_covers inv.create bkey b slice.type).mp
      ⟨slice, sliceMember, owner, overByte, rfl⟩
    rw [inv.created] at held
    rw [← left, dedupOutcome_of_created held]

/-- Whatever the outcome says of a byte, some record of the output is over it. -/
theorem exists_dedup_of_outcome (inBlock : ∀ record ∈ records, record.InBlock) {bkey : FSBlockKey}
    {b : Int} {left : Option OBSliceType} (outcome : dedupOutcome records bkey b = some left) :
    ∃ record ∈
      (dataRecoveryDedupBinlog sl prime hashtableCapacity masterVersion myVersion records).2,
      Covers record bkey b := by
  obtain ⟨ctx, inv, output⟩ := dataRecoveryDedupBinlog_eq sl prime hashtableCapacity
    masterVersion myVersion inBlock
  obtain ⟨plain, rest⟩ := htableReverseRemove_spec sl inv.create inv.remove
  rw [output]
  cases created : createdAt records bkey b with
  | some stype =>
      have held := (inv.created bkey b).trans created
      obtain ⟨slice, member, owner, overByte, _⟩ :=
        (htableDump_covers inv.create bkey b stype).mpr held
      obtain ⟨record, recordMember, covers, _⟩ :=
        exists_covers_create.mpr ⟨slice, member, owner, overByte, rfl⟩
      exact ⟨record, List.mem_append_right _ recordMember, covers⟩
  | none =>
      by_cases kept : KeptDelete records bkey b
      · have held := (rest bkey b .file).mpr
          ⟨(inv.removed bkey b .file).mpr ⟨rfl, kept⟩, (inv.created bkey b).trans created⟩
        obtain ⟨slice, member, owner, overByte, _⟩ := (htableDump_covers plain bkey b .file).mpr held
        obtain ⟨record, recordMember, covers⟩ :=
          exists_covers_del.mpr ⟨slice, member, owner, overByte⟩
        exact ⟨record, List.mem_append_left _ recordMember, covers⟩
      · rw [dedupOutcome_of_not_kept created kept] at outcome
        cases outcome

/-- The last record of the output over a byte is the outcome of the dedup. -/
theorem lastEffect_dedup (inBlock : ∀ record ∈ records, record.InBlock) (bkey : FSBlockKey)
    (b : Int) :
    lastEffect
        (dataRecoveryDedupBinlog sl prime hashtableCapacity masterVersion myVersion records).2
        bkey b = dedupOutcome records bkey b := by
  cases outcome : dedupOutcome records bkey b with
  | none =>
      refine lastEffect_eq_none_iff.mpr fun record member covers => ?_
      rw [dedup_agrees sl prime hashtableCapacity masterVersion myVersion inBlock member
        covers] at outcome
      cases outcome
  | some left =>
      refine (lastEffect_eq_some_iff fun record member covers => ?_).mpr
        (exists_dedup_of_outcome sl prime hashtableCapacity masterVersion myVersion inBlock outcome)
      have agrees := dedup_agrees sl prime hashtableCapacity masterVersion myVersion inBlock member
        covers
      rw [outcome] at agrees
      exact (Option.some.inj agrees).symm

/-! ## Which bytes are covered -/

/-- A store that only knows which bytes are covered, after one record. -/
def applyCoverage (store : FSBlockKey → Int → Bool) (record : ReplicaBinlogRecord) :
    FSBlockKey → Int → Bool :=
  fun bkey b => if Covers record bkey b then (createdType record).isSome else store bkey b

/-- The covered bytes after a list of records. -/
def coverageAfter (store : FSBlockKey → Int → Bool) (records : List ReplicaBinlogRecord) :
    FSBlockKey → Int → Bool :=
  records.foldl applyCoverage store

/-- The last record over a byte decides whether it is covered. -/
theorem coverageAfter_eq (store : FSBlockKey → Int → Bool) (records : List ReplicaBinlogRecord)
    (bkey : FSBlockKey) (b : Int) :
    coverageAfter store records bkey b =
      match lastEffect records bkey b with
      | some left => left.isSome
      | none => store bkey b := by
  induction records using List.reverseRecOn with
  | nil => rfl
  | append_singleton records record ih =>
      rw [coverageAfter, List.foldl_append, List.foldl_cons, List.foldl_nil, ← coverageAfter,
        applyCoverage, lastEffect_concat, recordEffect]
      split_ifs with covers
      · rfl
      · rw [ih, Option.none_or]

end Output

section Contents

variable {α : Type} [Zero α]

/-- An update on the master: its record and, for a write, the bytes written. -/
structure LoggedUpdate (α : Type) where
  record : ReplicaBinlogRecord
  content : Int → α

/-- The master after an update. -/
def applyUpdate (store : FSBlockKey → Int → Option α) (update : LoggedUpdate α) :
    FSBlockKey → Int → Option α :=
  fun bkey b =>
    if Covers update.record bkey b then
      match createdType update.record with
      | some .file => some (update.content b)
      | some .alloc => some ((store bkey b).getD 0)
      | none => none
    else store bkey b

/-- The master after a list of updates. -/
def masterAfter (store : FSBlockKey → Int → Option α) (updates : List (LoggedUpdate α)) :
    FSBlockKey → Int → Option α :=
  updates.foldl applyUpdate store

/-- What a byte holds after the replay of a record over it. -/
def replayedByte (onMaster before : Option α) : Option OBSliceType → Option α
  | some .file => some (onMaster.getD 0)
  | some .alloc => some (before.getD 0)
  | none => none

/-- The slave after it replayed one record: the bytes of a write are read from the
master as it is now. -/
def applyReplayed (master store : FSBlockKey → Int → Option α) (record : ReplicaBinlogRecord) :
    FSBlockKey → Int → Option α :=
  fun bkey b =>
    if Covers record bkey b then
      replayedByte (master bkey b) (store bkey b) (createdType record)
    else store bkey b

/-- The slave after it replayed a list of records. -/
def slaveAfter (master store : FSBlockKey → Int → Option α)
    (records : List ReplicaBinlogRecord) : FSBlockKey → Int → Option α :=
  records.foldl (applyReplayed master) store

/-- The last write or delete over a byte. -/
def lastSolid (updates : List (LoggedUpdate α)) (bkey : FSBlockKey) (b : Int) :
    Option (LoggedUpdate α) :=
  updates.reverse.find? fun update =>
    Covers update.record bkey b ∧ createdType update.record ≠ some .alloc

/-- What a byte holds when the allocs are left out. -/
def solidAt (store : FSBlockKey → Int → Option α) (updates : List (LoggedUpdate α))
    (bkey : FSBlockKey) (b : Int) : Option α :=
  match lastSolid updates bkey b with
  | none => store bkey b
  | some update =>
      if createdType update.record = some .file then some (update.content b) else none

omit [Zero α] in
theorem lastSolid_concat (updates : List (LoggedUpdate α)) (update : LoggedUpdate α)
    (bkey : FSBlockKey) (b : Int) :
    lastSolid (updates ++ [update]) bkey b =
      if Covers update.record bkey b ∧ createdType update.record ≠ some .alloc then some update
      else lastSolid updates bkey b := by
  rw [lastSolid, List.reverse_append, List.reverse_singleton, List.singleton_append,
    List.find?_cons]
  by_cases solid : Covers update.record bkey b ∧ createdType update.record ≠ some .alloc
  · simp [solid]
  · simp only [solid, decide_false, if_false]
    rfl

omit [Zero α] in
theorem solidAt_concat (store : FSBlockKey → Int → Option α) (updates : List (LoggedUpdate α))
    (update : LoggedUpdate α) (bkey : FSBlockKey) (b : Int) :
    solidAt store (updates ++ [update]) bkey b =
      if Covers update.record bkey b ∧ createdType update.record ≠ some .alloc then
        if createdType update.record = some .file then some (update.content b) else none
      else solidAt store updates bkey b := by
  rw [solidAt, lastSolid_concat]
  by_cases solid : Covers update.record bkey b ∧ createdType update.record ≠ some .alloc
  · rw [if_pos solid, if_pos solid]
  · rw [if_neg solid, if_neg solid, solidAt]

/-- The master holds what the last write or delete left, and zero where an alloc
came last and found nothing. -/
theorem masterAfter_eq (store : FSBlockKey → Int → Option α) (updates : List (LoggedUpdate α))
    (bkey : FSBlockKey) (b : Int) :
    masterAfter store updates bkey b =
      if lastEffect (updates.map LoggedUpdate.record) bkey b = some (some .alloc) then
        some ((solidAt store updates bkey b).getD 0)
      else solidAt store updates bkey b := by
  induction updates using List.reverseRecOn with
  | nil => rfl
  | append_singleton updates update ih =>
      rw [masterAfter, List.foldl_append, List.foldl_cons, List.foldl_nil, ← masterAfter,
        applyUpdate, List.map_append, List.map_singleton, lastEffect_concat, recordEffect,
        solidAt_concat]
      by_cases covers : Covers update.record bkey b
      · cases left : createdType update.record with
        | none => simp [covers]
        | some stype =>
            cases stype with
            | file => simp [covers]
            | alloc =>
                simp only [covers, if_true, Option.some_or, true_and, ne_eq, not_true_eq_false,
                  if_false, ih]
                split_ifs <;> rfl
      · simp only [covers, if_false, false_and, Option.none_or, ih]

/-- When all records over a byte do the same, the slave holds what they do. -/
theorem slaveAfter_eq {master store : FSBlockKey → Int → Option α}
    {records : List ReplicaBinlogRecord} {bkey : FSBlockKey} {b : Int}
    {left : Option OBSliceType}
    (agree : ∀ record ∈ records, Covers record bkey b → createdType record = left) :
    slaveAfter master store records bkey b =
      if ∃ record ∈ records, Covers record bkey b then
        replayedByte (master bkey b) (store bkey b) left
      else store bkey b := by
  induction records using List.reverseRecOn with
  | nil => simp [slaveAfter]
  | append_singleton records record ih =>
      have before := ih fun other member covers =>
        agree other (List.mem_append_left _ member) covers
      rw [slaveAfter, List.foldl_append, List.foldl_cons, List.foldl_nil, ← slaveAfter,
        applyReplayed]
      by_cases covers : Covers record bkey b
      · have same := agree record (by simp) covers
        have present : ∃ other ∈ records ++ [record], Covers other bkey b :=
          ⟨record, by simp, covers⟩
        rw [if_pos covers, if_pos present, same, before]
        cases left with
        | none => rfl
        | some stype =>
            cases stype with
            | file => rfl
            | alloc => split_ifs <;> rfl
      · have sameCover : (∃ other ∈ records ++ [record], Covers other bkey b) ↔
            ∃ other ∈ records, Covers other bkey b := by
          simp [covers, or_and_right, exists_or]
        rw [if_neg covers, before]
        exact (if_congr sameCover rfl rfl).symm

omit [Zero α] in
/-- A byte that no record is over holds what the store held. -/
theorem solidAt_of_untouched {store : FSBlockKey → Int → Option α}
    {updates : List (LoggedUpdate α)} {bkey : FSBlockKey} {b : Int}
    (untouched : lastEffect (updates.map LoggedUpdate.record) bkey b = none) :
    solidAt store updates bkey b = store bkey b := by
  have absent : lastSolid updates bkey b = none := by
    refine List.find?_eq_none.mpr fun update member solid => ?_
    have covers := (of_decide_eq_true solid).1
    exact lastEffect_eq_none_iff.mp untouched update.record
      (List.mem_map_of_mem (List.mem_reverse.mp member)) covers
  rw [solidAt, absent]

omit [Zero α] in
/-- A byte that was deleted last holds nothing. -/
theorem solidAt_of_deleted {store : FSBlockKey → Int → Option α}
    {updates : List (LoggedUpdate α)} {bkey : FSBlockKey} {b : Int}
    (deleted : lastEffect (updates.map LoggedUpdate.record) bkey b = some none) :
    solidAt store updates bkey b = none := by
  induction updates using List.reverseRecOn with
  | nil => cases deleted
  | append_singleton updates update ih =>
      rw [List.map_append, List.map_singleton, lastEffect_concat, recordEffect] at deleted
      rw [solidAt_concat]
      by_cases covers : Covers update.record bkey b
      · rw [if_pos covers, Option.some_or, Option.some.injEq] at deleted
        simp [covers, deleted]
      · rw [if_neg covers, Option.none_or] at deleted
        rw [if_neg fun solid => covers solid.1]
        exact ih deleted

variable (sl : UniqSkiplist OBSliceEntry.key) (prime : CeilPrime)
  (hashtableCapacity masterVersion myVersion : Nat)

/-- What the slave holds at a byte after it replayed the dedup output. -/
theorem slaveAfter_dedup {records : List ReplicaBinlogRecord}
    (inBlock : ∀ record ∈ records, record.InBlock)
    (master store : FSBlockKey → Int → Option α) (bkey : FSBlockKey) (b : Int) :
    slaveAfter master store
        (dataRecoveryDedupBinlog sl prime hashtableCapacity masterVersion myVersion records).2
        bkey b =
      match dedupOutcome records bkey b with
      | some left => replayedByte (master bkey b) (store bkey b) left
      | none => store bkey b := by
  have agrees := fun record member (covers : Covers record bkey b) =>
    dedup_agrees sl prime hashtableCapacity masterVersion myVersion inBlock member covers
  cases outcome : dedupOutcome records bkey b with
  | none =>
      have absent : ¬∃ record ∈ (dataRecoveryDedupBinlog sl prime hashtableCapacity masterVersion
          myVersion records).2, Covers record bkey b := by
        rintro ⟨record, member, covers⟩
        have agreed := agrees record member covers
        rw [outcome] at agreed
        cases agreed
      have agree : ∀ record ∈ (dataRecoveryDedupBinlog sl prime hashtableCapacity masterVersion
          myVersion records).2, Covers record bkey b → createdType record = none :=
        fun record member covers => absurd ⟨record, member, covers⟩ absent
      rw [slaveAfter_eq agree, if_neg absent]
  | some left =>
      have present := exists_dedup_of_outcome sl prime hashtableCapacity masterVersion myVersion
        inBlock outcome
      rw [slaveAfter_eq fun record member covers => ?_, if_pos present]
      have agreed := agrees record member covers
      rw [outcome] at agreed
      exact (Option.some.inj agreed).symm

end Contents

end FastStore.Recovery
