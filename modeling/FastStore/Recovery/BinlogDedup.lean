import FastStore.Binlog.Types
import FastStore.Storage.ByteMap

/-!
# Deduplicating a fetched binlog

Before a slave replays what it fetched from the master it reduces the records:
creates go into one table, deletes that the creates do not account for go into
another.  The remove table, less what the create table covers, becomes the delete
records of the output and the create table its write and alloc records.  Both
tables are block indexes of their own, not tied to any trunk.
-/

namespace FastStore.Recovery

open FastStore.Util FastStore.Storage FastStore.Binlog

/-- `BinlogHashtables`. -/
structure BinlogHashtables where
  create : OBHashtable
  remove : OBHashtable

/-- `FSCounterTripple`. -/
structure FSCounterTripple where
  total : Nat
  success : Nat
  ignore : Nat
  deriving DecidableEq, Repr

/-- The tables and the record counters of `BinlogDedupContext`. -/
structure BinlogDedupContext where
  htables : BinlogHashtables
  createStat : FSCounterTripple
  removeStat : FSCounterTripple
  partialDeletes : Nat

/-- `fc_ceil_prime` of the support library: some prime not below its argument. -/
structure CeilPrime where
  ceil : Nat → Nat
  ceil_pos : ∀ n, 0 < ceil n

/-- The least prime not below the argument, found by trial division. -/
def CeilPrime.trial : CeilPrime where
  ceil n := ((List.range (2 * n + 3)).find? fun p =>
    n ≤ p ∧ 2 ≤ p ∧ ∀ d ∈ List.range p, 2 ≤ d → p % d ≠ 0).getD (2 * n + 3)
  ceil_pos n := by
    cases found : (List.range (2 * n + 3)).find? fun p =>
        n ≤ p ∧ 2 ≤ p ∧ ∀ d ∈ List.range p, 2 ≤ d → p % d ≠ 0 with
    | none => simp
    | some p =>
        have prime := List.find?_some found
        simp only [decide_eq_true_eq] at prime
        simp only [Option.getD_some]
        omega

/-- An index call on a table with `modify_sallocator` off reads and changes no
trunk, so any bookkeeping may stand beside the table. -/
def tableState (htable : OBHashtable) : IndexState :=
  ⟨htable, ⟨fun _ => none, fun _ => ⟨[], ⟨[], 0, 0⟩, 0, [], 0, 0⟩, ⟨[], 0, 0⟩⟩, 0⟩

@[simp] theorem tableState_htable (htable : OBHashtable) :
    (tableState htable).htable = htable := rfl

/-- `init_htables`. -/
def initHtables (prime : CeilPrime) (hashtableCapacity masterVersion myVersion : Nat) :
    BinlogHashtables :=
  let sliceCapacity :=
    if masterVersion - myVersion < 256 then 256
    else if hashtableCapacity < masterVersion - myVersion then hashtableCapacity
    else masterVersion - myVersion
  let deletedCapacity := if 10240 < sliceCapacity / 4 then 10240 else sliceCapacity / 4
  ⟨obIndexInitHtableEx (prime.ceil sliceCapacity),
    obIndexInitHtableEx (prime.ceil deletedCapacity)⟩

section Dedup

variable (sl : UniqSkiplist OBSliceEntry.key)

/-! ## Filling the tables -/

/-- The slice of a record; its space is not set and never read. -/
def recordSlice (bsKey : FSBlockSliceKeyInfo) (stype : OBSliceType) : OBSliceEntry :=
  ⟨bsKey.block, stype, bsKey.slice, ⟨0, ⟨0, 0⟩, 0, 0⟩⟩

/-- `add_slice` of the dedup. -/
def dedupAddSlice (htable : OBHashtable) (bsKey : FSBlockSliceKeyInfo) (stype : OBSliceType) :
    Errno × OBHashtable :=
  let added := allocAndAddSlice sl false (recordSlice bsKey stype) (tableState htable)
  (added.1, added.2.2.htable)

/-- The create branch of `deal_binlog_buffer`. -/
def dealCreate (ctx : BinlogDedupContext) (record : ReplicaBinlogRecord)
    (stype : OBSliceType) : Errno × BinlogDedupContext :=
  let added := dedupAddSlice sl ctx.htables.create record.bsKey stype
  (added.1,
    { ctx with
      htables := { ctx.htables with create := added.2 }
      createStat := { ctx.createStat with
        total := ctx.createStat.total + 1
        success := if added.1 = .ok then ctx.createStat.success + 1
          else ctx.createStat.success } })

/-- The end of the remove branch of `deal_binlog_buffer`, after the range was
deleted from the create table with `result` and `decAlloc`: a delete that found
less than its whole range there is kept in the remove table. -/
def dealRemove (ctx : BinlogDedupContext) (bsKey : FSBlockSliceKeyInfo) (result : Errno)
    (decAlloc targetLen : Int) : Errno × BinlogDedupContext :=
  let kept :=
    if decAlloc ≠ targetLen then
      let added := dedupAddSlice sl ctx.htables.remove bsKey .file
      if added.1 = .ok then (result, added.2, ctx.partialDeletes + 1)
      else (added.1, added.2, ctx.partialDeletes)
    else (result, ctx.htables.remove, ctx.partialDeletes)
  (if kept.1 = .enoent then .ok else kept.1,
    { ctx with
      htables := { ctx.htables with remove := kept.2.1 }
      partialDeletes := kept.2.2
      removeStat :=
        ⟨ctx.removeStat.total + 1,
          if kept.1 = .ok then ctx.removeStat.success + 1 else ctx.removeStat.success,
          if kept.1 = .enoent then ctx.removeStat.ignore + 1 else ctx.removeStat.ignore⟩ })

/-- One record in `deal_binlog_buffer`. -/
def dealRecord (ctx : BinlogDedupContext) (record : ReplicaBinlogRecord) :
    Errno × BinlogDedupContext :=
  match record.opType with
  | .writeSlice => dealCreate sl ctx record .file
  | .allocSlice => dealCreate sl ctx record .alloc
  | .delSlice =>
      let deleted := obIndexDeleteSlicesEx sl false record.bsKey (tableState ctx.htables.create)
      dealRemove sl { ctx with htables := { ctx.htables with create := deleted.2.2.htable } }
        record.bsKey deleted.1 deleted.2.1 record.bsKey.slice.length
  | .delBlock =>
      let deleted := obIndexDeleteBlockEx false record.bsKey.block
        (tableState ctx.htables.create)
      dealRemove sl { ctx with htables := { ctx.htables with create := deleted.2.2.htable } }
        ⟨record.bsKey.block, ⟨0, fsFileBlockSize⟩⟩ deleted.1 deleted.2.1 fsFileBlockSize
  | .noOp => (.ok, ctx)

/-- `deal_binlog_buffer` over all records: it stops at the first error. -/
def dealBinlogBuffer : List ReplicaBinlogRecord → BinlogDedupContext →
    Errno × BinlogDedupContext
  | [], ctx => (.ok, ctx)
  | record :: rest, ctx =>
      if (dealRecord sl ctx record).1 = .ok then
        dealBinlogBuffer rest (dealRecord sl ctx record).2
      else dealRecord sl ctx record

/-! ## Writing the output -/

/-- One entry of the create table in `htable_reverse_remove`. -/
def reverseRemoveEntry (remove : OBHashtable) (ob : OBEntry) : OBHashtable :=
  if ob.slices = [] then remove
  else
    match remove.getObEntry ob.bkey with
    | none => remove
    | some _ =>
        ob.slices.foldl (fun remove slice =>
          (obIndexDeleteSlicesEx sl false ⟨slice.ob, slice.ssize⟩
            (tableState remove)).2.2.htable) remove

/-- `htable_reverse_remove`: what the creates cover need not be deleted. -/
def htableReverseRemove (htables : BinlogHashtables) : BinlogHashtables :=
  { htables with remove := htables.create.entries.foldl (reverseRemoveEntry sl) htables.remove }

/-- `add_to_sarray`: the run from `first` to `last` as one slice. -/
def addToSarray (first last : OBSliceEntry) : OBSliceEntry :=
  { first with
    ssize := ⟨first.ssize.offset,
      (last.ssize.offset - first.ssize.offset) + last.ssize.length⟩ }

/-- The loop of `dump_to_array`. -/
def dumpLoop (first previous : OBSliceEntry) : List OBSliceEntry → List OBSliceEntry
  | [] => [addToSarray first previous]
  | slice :: rest =>
      if previous.sliceEnd = slice.ssize.offset ∧ previous.type = slice.type then
        dumpLoop first slice rest
      else addToSarray first previous :: dumpLoop slice slice rest

/-- `dump_to_array`: adjacent slices of one type are merged. -/
def dumpToArray (ob : OBEntry) : List OBSliceEntry :=
  match ob.slices with
  | [] => []
  | first :: rest => dumpLoop first first rest

/-- `compare_slice`. -/
def compareSlice (s1 s2 : OBSliceEntry) : Ordering :=
  (compare s1.ob.oid s2.ob.oid).then
    ((compare s1.ob.offset s2.ob.offset).then (compare s1.ssize.offset s2.ssize.offset))

/-- The array of `htable_dump` after its `qsort`. -/
def htableDump (htable : OBHashtable) : List OBSliceEntry :=
  (htable.entries.flatMap dumpToArray).insertionSort fun s1 s2 => (compareSlice s1 s2).isLE

/-- The operation type that `slice_array_to_file` gives a slice. -/
def outputOpType (currentOpType : BinlogOpType) (slice : OBSliceEntry) : BinlogOpType :=
  if currentOpType = .delSlice then .delSlice
  else if slice.type = .file then .writeSlice
  else .allocSlice

/-- `slice_array_to_file`: the records take the data versions after
`currentVersion`. -/
def sliceArrayToFile (currentOpType : BinlogOpType) :
    Nat → List OBSliceEntry → List ReplicaBinlogRecord
  | _, [] => []
  | currentVersion, slice :: rest =>
      ⟨outputOpType currentOpType slice, .replay, ⟨slice.ob, slice.ssize⟩,
          currentVersion + 1⟩ ::
        sliceArrayToFile currentOpType (currentVersion + 1) rest

/-- The output part of `dedup_binlog`: the delete records, then the creates. -/
def dedupOutput (currentVersion : Nat) (ctx : BinlogDedupContext) : List ReplicaBinlogRecord :=
  if ctx.createStat.success = 0 ∧ ctx.partialDeletes = 0 then []
  else
    let remove :=
      if 0 < ctx.createStat.success then (htableReverseRemove sl ctx.htables).remove
      else ctx.htables.remove
    let removes :=
      if 0 < ctx.partialDeletes then
        sliceArrayToFile .delSlice currentVersion (htableDump remove)
      else []
    let creates :=
      if 0 < ctx.createStat.success then
        sliceArrayToFile .writeSlice (currentVersion + removes.length)
          (htableDump ctx.htables.create)
      else []
    removes ++ creates

/-- `data_recovery_dedup_binlog` on the fetched records. -/
def dataRecoveryDedupBinlog (prime : CeilPrime) (hashtableCapacity masterVersion myVersion : Nat)
    (records : List ReplicaBinlogRecord) : Errno × List ReplicaBinlogRecord :=
  let dealt := dealBinlogBuffer sl records
    ⟨initHtables prime hashtableCapacity masterVersion myVersion, ⟨0, 0, 0⟩, ⟨0, 0, 0⟩, 0⟩
  if dealt.1 = .ok then (.ok, dedupOutput sl myVersion dealt.2) else (dealt.1, [])

end Dedup

end FastStore.Recovery
