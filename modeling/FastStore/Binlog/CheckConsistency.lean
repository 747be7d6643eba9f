import FastStore.Binlog.ReplicaPosition
import Mathlib.Order.Bounds.Basic

/-!
# The log of a slave against the log of its master

A slave sends the last records of its log, and the master reads its own log from the first of
their versions on: what stands in one file, in a buffer of so many bytes, and no more rows than
the slave may send.  Both are merged by their versions, and two records of one version that came
by RPC have to be the same update.
-/

namespace FastStore.Binlog

open FastStore.Util FastStore.Storage

/-! ## The comparison -/

/-- `FS_IS_BINLOG_SOURCE_RPC`. -/
def fsIsBinlogSourceRpc (source : Char) : Prop :=
  source = BinlogSource.rpcMaster.char ∨ source = BinlogSource.rpcSlave.char

instance (source : Char) : Decidable (fsIsBinlogSourceRpc source) :=
  inferInstanceAs (Decidable (_ ∨ _))

/-- `fc_compare_int64`. -/
def fcCompareInt64 (first second : Int) : Int :=
  if first < second then -1 else if first = second then 0 else 1

/-- `compare_record`. -/
def compareRecord (r1 r2 : ReplicaLine) : Int :=
  if (r1.opType.toNat : Int) - r2.opType.toNat ≠ 0 then r1.opType.toNat - r2.opType.toNat
  else if fcCompareInt64 r1.bsKey.block.oid r2.bsKey.block.oid ≠ 0 then
    fcCompareInt64 r1.bsKey.block.oid r2.bsKey.block.oid
  else if fcCompareInt64 r1.bsKey.block.offset r2.bsKey.block.offset ≠ 0 then
    fcCompareInt64 r1.bsKey.block.offset r2.bsKey.block.offset
  else if r1.opType = BinlogOpType.delBlock.char ∨ r1.opType = BinlogOpType.noOp.char then 0
  else if r1.bsKey.slice.offset - r2.bsKey.slice.offset ≠ 0 then
    r1.bsKey.slice.offset - r2.bsKey.slice.offset
  else r1.bsKey.slice.length - r2.bsKey.slice.length

/-- `check_records_consistency`: the first unmatched version. -/
def checkRecordsConsistency : List ReplicaLine → List ReplicaLine → Option Int
  | [], _ => none
  | _ :: _, [] => none
  | sr :: srest, mr :: mrest =>
      if sr.dataVersion < mr.dataVersion then checkRecordsConsistency srest (mr :: mrest)
      else if sr.dataVersion = mr.dataVersion then
        if (fsIsBinlogSourceRpc sr.source ∧ fsIsBinlogSourceRpc mr.source) ∧
            compareRecord sr mr ≠ 0 then some sr.dataVersion
        else checkRecordsConsistency srest mrest
      else checkRecordsConsistency (sr :: srest) mrest
termination_by srecords mrecords => srecords.length + mrecords.length

/-! ## Reading the window -/

/-- `FS_MAX_SLAVE_BINLOG_CHECK_LAST_ROWS`. -/
def maxCheckRows : Nat := 128

section Window

variable (content : Nat → List Char) (currentWriteIndex : Nat)

/-- `do_read_to_buffer`. -/
def doReadToBuffer (size : Nat) (reader : ServerBinlogReader) :
    Except Errno (List Char × ServerBinlogReader) :=
  let bytes := ((content reader.index).drop reader.offset).take size
  if bytes = [] then .error .enoent
  else .ok (bytes, ⟨reader.index, reader.offset + bytes.length, reader.buffer⟩)

/-- `binlog_read_to_buffer`. -/
def binlogReadToBuffer (size : Nat) (reader : ServerBinlogReader) :
    Except Errno (List Char × ServerBinlogReader) :=
  match doReadToBuffer content size reader with
  | .error .enoent =>
      if reader.index < currentWriteIndex then
        doReadToBuffer content size (openReadableBinlog content (reader.index + 1) 0)
      else .error .enoent
  | read => read

/-- A text up to its last line end, which `fc_memrchr` finds. -/
def completeLines : List Char → List Char
  | [] => []
  | char :: rest => if '\n' ∈ char :: rest then char :: completeLines rest else []

/-- `binlog_reader_integral_read`; the reader is not used afterwards. -/
def binlogReaderIntegralRead (size : Nat) (reader : ServerBinlogReader) :
    Except Errno (List Char) :=
  match binlogReadToBuffer content currentWriteIndex size reader with
  | .error result => .error result
  | .ok (bytes, _) => if '\n' ∈ bytes then .ok (completeLines bytes) else .error .eagain

variable (lines : LineFunctions) (size : Nat) (memory : SFBinlogFilePosition → List Char)
variable (fuel : Nat)

/-- `replica_binlog_reader_init`. -/
def replicaBinlogReaderInit (lastDataVersion : Nat) : Except Errno ServerBinlogReader :=
  if lastDataVersion = 0 then .ok (openReadableBinlog content 0 0)
  else
    match replicaBinlogGetPositionByDv lines content currentWriteIndex size memory
        lastDataVersion false fuel with
    | .error result => .error result
    | .ok position => .ok (openReadableBinlog content position.index position.offset)

/-- What the check returns. -/
inductive ConsistencyResult where
  | ok
  | error (result : Errno)
  | inconsistent (firstUnmatchedDv : Int)
  deriving DecidableEq, Repr

/-- `replica_binlog_check_consistency`; `sbeyond` and `mbeyond` are the memory behind the two
buffers. -/
def replicaBinlogCheckConsistency (sbeyond mbeyond sbuffer : List Char) : ConsistencyResult :=
  if sbuffer = [] then .ok
  else
    let slave := replicaBinlogUnpackRecords sbeyond sbuffer maxCheckRows
    if slave.result ≠ .ok then .error slave.result
    else
      match replicaBinlogReaderInit content currentWriteIndex lines size memory fuel
          ((slave.records.head?.elim 0 fun record => record.dataVersion) - 1).toNat with
      | .error result => .error result
      | .ok reader =>
          match binlogReaderIntegralRead content currentWriteIndex
              (maxCheckRows * ReplicaLogEntry.maxRecordSize) reader with
          -- `ENOENT` and `EAGAIN`; after any other error the buffer has no rows
          | .error _ => .ok
          | .ok mbuffer =>
              let master := replicaBinlogUnpackRecords mbeyond mbuffer maxCheckRows
              if master.result ≠ .ok then .error master.result
              else
                match checkRecordsConsistency slave.records master.records with
                | none => .ok
                | some firstUnmatchedDv => .inconsistent firstUnmatchedDv

end Window

/-! ## The merge -/

/-- Two records that came by RPC and are not the same update. -/
def Unmatched (r1 r2 : ReplicaLine) : Prop :=
  (fsIsBinlogSourceRpc r1.source ∧ fsIsBinlogSourceRpc r2.source) ∧ compareRecord r1 r2 ≠ 0

instance (r1 r2 : ReplicaLine) : Decidable (Unmatched r1 r2) := inferInstanceAs (Decidable (_ ∧ _))

/-- The version has unmatched records. -/
def UnmatchedAt (srecords mrecords : List ReplicaLine) (dv : Int) : Prop :=
  ∃ sr ∈ srecords, ∃ mr ∈ mrecords,
    sr.dataVersion = dv ∧ mr.dataVersion = dv ∧ Unmatched sr mr

/-- Records with increasing versions. -/
def Increasing (records : List ReplicaLine) : Prop :=
  records.Pairwise fun first second => first.dataVersion < second.dataVersion

section Merge

variable {sr mr : ReplicaLine} {srest mrest : List ReplicaLine}

theorem Increasing.tail (sorted : Increasing (sr :: srest)) : Increasing srest :=
  (List.pairwise_cons.mp sorted).2

theorem Increasing.le (sorted : Increasing (sr :: srest)) :
    ∀ record ∈ sr :: srest, sr.dataVersion ≤ record.dataVersion := by
  intro record member
  rcases List.mem_cons.mp member with rfl | later
  · exact le_rfl
  · exact le_of_lt ((List.pairwise_cons.mp sorted).1 record later)

theorem unmatchedAt_of_tail {dv : Int} (unmatched : UnmatchedAt srest mrest dv) :
    UnmatchedAt (sr :: srest) (mr :: mrest) dv := by
  obtain ⟨first, inSlave, second, inMaster, rest⟩ := unmatched
  exact ⟨first, List.mem_cons_of_mem _ inSlave, second, List.mem_cons_of_mem _ inMaster, rest⟩

/-- A record of the slave before all versions of the master has no partner. -/
theorem unmatchedAt_slave_iff (sorted : Increasing (mr :: mrest))
    (less : sr.dataVersion < mr.dataVersion) (dv : Int) :
    UnmatchedAt (sr :: srest) (mr :: mrest) dv ↔ UnmatchedAt srest (mr :: mrest) dv := by
  constructor
  · rintro ⟨first, inSlave, second, inMaster, same, version, unmatched⟩
    rcases List.mem_cons.mp inSlave with rfl | later
    · have least := sorted.le second inMaster
      omega
    · exact ⟨first, later, second, inMaster, same, version, unmatched⟩
  · rintro ⟨first, inSlave, rest⟩
    exact ⟨first, List.mem_cons_of_mem _ inSlave, rest⟩

theorem unmatchedAt_master_iff (sorted : Increasing (sr :: srest))
    (less : mr.dataVersion < sr.dataVersion) (dv : Int) :
    UnmatchedAt (sr :: srest) (mr :: mrest) dv ↔ UnmatchedAt (sr :: srest) mrest dv := by
  constructor
  · rintro ⟨first, inSlave, second, inMaster, same, version, unmatched⟩
    rcases List.mem_cons.mp inMaster with rfl | later
    · have least := sorted.le first inSlave
      omega
    · exact ⟨first, inSlave, second, later, same, version, unmatched⟩
  · rintro ⟨first, inSlave, second, inMaster, rest⟩
    exact ⟨first, inSlave, second, List.mem_cons_of_mem _ inMaster, rest⟩

/-- Two records of one version that match are done with together. -/
theorem unmatchedAt_both_iff (slave : Increasing (sr :: srest)) (master : Increasing (mr :: mrest))
    (same : sr.dataVersion = mr.dataVersion) (matched : ¬Unmatched sr mr) (dv : Int) :
    UnmatchedAt (sr :: srest) (mr :: mrest) dv ↔ UnmatchedAt srest mrest dv := by
  refine ⟨?_, unmatchedAt_of_tail⟩
  rintro ⟨first, inSlave, second, inMaster, version, versions, unmatched⟩
  rcases List.mem_cons.mp inSlave with rfl | laterSlave
  · rcases List.mem_cons.mp inMaster with rfl | laterMaster
    · exact absurd unmatched matched
    · have behind := (List.pairwise_cons.mp master).1 second laterMaster
      omega
  · rcases List.mem_cons.mp inMaster with rfl | laterMaster
    · have behind := (List.pairwise_cons.mp slave).1 first laterSlave
      omega
    · exact ⟨first, laterSlave, second, laterMaster, version, versions, unmatched⟩

/-- The merge finds the least version with unmatched records. -/
def Least (srecords mrecords : List ReplicaLine) : Option Int → Prop
  | none => ∀ dv, ¬UnmatchedAt srecords mrecords dv
  | some dv => IsLeast {dv | UnmatchedAt srecords mrecords dv} dv

theorem Least.congr {srecords mrecords slater mlater : List ReplicaLine} {result : Option Int}
    (same : ∀ dv, UnmatchedAt srecords mrecords dv ↔ UnmatchedAt slater mlater dv)
    (least : Least slater mlater result) : Least srecords mrecords result := by
  cases result with
  | none => exact fun dv unmatched => least dv ((same dv).mp unmatched)
  | some dv =>
      have sets : {dv | UnmatchedAt srecords mrecords dv} = {dv | UnmatchedAt slater mlater dv} :=
        Set.ext same
      rw [Least, sets]
      exact least

theorem checkRecordsConsistency_least {srecords mrecords : List ReplicaLine}
    (slave : Increasing srecords) (master : Increasing mrecords) :
    Least srecords mrecords (checkRecordsConsistency srecords mrecords) := by
  fun_induction checkRecordsConsistency srecords mrecords with
  | case1 mrecords => exact fun dv unmatched => nomatch unmatched.choose_spec.1
  | case2 sr srest =>
      rintro dv ⟨first, -, second, inMaster, -⟩
      cases inMaster
  | case3 sr srest mr mrest less ih =>
      exact (ih slave.tail master).congr (unmatchedAt_slave_iff master less)
  | case4 sr srest mr mrest notLess same unmatched =>
      refine ⟨⟨sr, List.mem_cons_self, mr, List.mem_cons_self, rfl, same.symm, unmatched⟩, ?_⟩
      rintro dv ⟨first, inSlave, second, inMaster, version, -⟩
      exact version ▸ slave.le first inSlave
  | case5 sr srest mr mrest notLess same matched ih =>
      exact (ih slave.tail master.tail).congr (unmatchedAt_both_iff slave master same matched)
  | case6 sr srest mr mrest notLess other ih =>
      have less : mr.dataVersion < sr.dataVersion := by omega
      exact (ih slave master.tail).congr (unmatchedAt_master_iff slave less)

end Merge

/-! ## Updates that differ -/

theorem fcCompareInt64_eq_zero_iff (first second : Int) :
    fcCompareInt64 first second = 0 ↔ first = second := by
  rw [fcCompareInt64]
  split_ifs with less same
  · exact iff_of_false (by norm_num) less.ne
  · exact iff_of_true rfl same
  · exact iff_of_false (by norm_num) same

/-- The records agree in what the comparison looks at. -/
theorem compareRecord_eq_zero_iff (r1 r2 : ReplicaLine) :
    compareRecord r1 r2 = 0 ↔ r1.opType = r2.opType ∧ r1.bsKey.block = r2.bsKey.block ∧
      ((r1.opType = BinlogOpType.delBlock.char ∨ r1.opType = BinlogOpType.noOp.char) ∨
        r1.bsKey.slice = r2.bsKey.slice) := by
  have op : (r1.opType.toNat : Int) - r2.opType.toNat = 0 ↔ r1.opType = r2.opType := by
    rw [Int.sub_eq_zero, Nat.cast_inj]
    exact ⟨fun same => Char.toNat_inj.mp same, congrArg Char.toNat⟩
  have block : r1.bsKey.block = r2.bsKey.block ↔
      r1.bsKey.block.oid = r2.bsKey.block.oid ∧ r1.bsKey.block.offset = r2.bsKey.block.offset := by
    cases r1.bsKey.block
    cases r2.bsKey.block
    exact FSBlockKey.mk.injEq _ _ _ _ ▸ Iff.rfl
  have slice : r1.bsKey.slice = r2.bsKey.slice ↔
      r1.bsKey.slice.offset - r2.bsKey.slice.offset = 0 ∧
        r1.bsKey.slice.length - r2.bsKey.slice.length = 0 := by
    rw [Int.sub_eq_zero, Int.sub_eq_zero]
    cases r1.bsKey.slice
    cases r2.bsKey.slice
    exact FSSliceSize.mk.injEq _ _ _ _ ▸ Iff.rfl
  rw [compareRecord, block, slice, ← op, ← fcCompareInt64_eq_zero_iff r1.bsKey.block.oid,
    ← fcCompareInt64_eq_zero_iff r1.bsKey.block.offset]
  split_ifs with otherOp otherOid otherOffset isBlock otherStart
  · exact iff_of_false otherOp fun both => otherOp both.1
  · exact iff_of_false otherOid fun both => otherOid both.2.1.1
  · exact iff_of_false otherOffset fun both => otherOffset both.2.1.2
  · exact iff_of_true rfl
      ⟨not_not.mp otherOp, ⟨not_not.mp otherOid, not_not.mp otherOffset⟩, Or.inl isBlock⟩
  · exact iff_of_false otherStart fun both => otherStart (both.2.2.resolve_left isBlock).1
  · constructor
    · intro length
      exact ⟨not_not.mp otherOp, ⟨not_not.mp otherOid, not_not.mp otherOffset⟩,
        Or.inr ⟨not_not.mp otherStart, length⟩⟩
    · exact fun both => (both.2.2.resolve_left isBlock).2

theorem char_injective {first second : BinlogOpType} :
    first.char = second.char ↔ first = second := by
  cases first <;> cases second <;> decide

/-- The update is another one: by its operation, its block, or the range of its slice. -/
def ReplicaLogEntry.Differs (first second : ReplicaLogEntry) : Prop :=
  first.opType ≠ second.opType ∨ first.bkey ≠ second.bkey ∨ first.numbers ≠ second.numbers

/-- `FS_IS_BINLOG_SOURCE_RPC` of an entry. -/
def ReplicaLogEntry.IsRpc (entry : ReplicaLogEntry) : Prop :=
  entry.head.source = .rpcMaster ∨ entry.head.source = .rpcSlave

theorem fsIsBinlogSourceRpc_record (entry : ReplicaLogEntry) :
    fsIsBinlogSourceRpc entry.record.source ↔ entry.IsRpc := by
  have source : entry.record.source = entry.head.source.char := by
    cases entry with
    | slice head opType bsKey => rfl
    | block head opType bkey => rfl
  rw [fsIsBinlogSourceRpc, source, ReplicaLogEntry.IsRpc]
  cases entry.head.source <;> decide

/-- With one operation the slices of two records are compared exactly when they have one. -/
theorem slice_or_block_iff {first second : ReplicaLogEntry} (fits : first.Fits)
    (others : second.Fits) (same : first.opType = second.opType) :
    ((first.record.opType = BinlogOpType.delBlock.char ∨
        first.record.opType = BinlogOpType.noOp.char) ∨
      first.record.bsKey.slice = second.record.bsKey.slice) ↔ first.numbers = second.numbers := by
  cases fits with
  | @slice head opType bsKey _ kind _ _ =>
      cases others with
      | @slice _ _ bsKey' _ _ _ _ =>
          have noBlock : ¬(opType.char = BinlogOpType.delBlock.char ∨
              opType.char = BinlogOpType.noOp.char) := by
            rcases kind with rfl | rfl | rfl <;> decide
          refine (or_iff_right noBlock).trans ?_
          cases bsKey with | mk block slice =>
          cases bsKey' with | mk block' slice' =>
          cases slice
          cases slice'
          simp [ReplicaLogEntry.numbers, ReplicaLogEntry.record]
      | block _ kind' _ =>
          change opType = _ at same
          rcases kind with rfl | rfl | rfl <;> rcases kind' with rfl | rfl <;> cases same
  | @block head opType bkey _ kind _ =>
      cases others with
      | slice _ kind' _ _ =>
          change opType = _ at same
          rcases kind with rfl | rfl <;> rcases kind' with rfl | rfl | rfl <;> cases same
      | block _ _ _ =>
          refine iff_of_true (Or.inl ?_) rfl
          rcases kind with rfl | rfl
          · exact Or.inl rfl
          · exact Or.inr rfl

theorem compareRecord_record {first second : ReplicaLogEntry} (fits : first.Fits)
    (others : second.Fits) :
    compareRecord first.record second.record = 0 ↔ ¬first.Differs second := by
  have op (entry : ReplicaLogEntry) : entry.record.opType = entry.opType.char := by
    cases entry <;> rfl
  have block (entry : ReplicaLogEntry) : entry.record.bsKey.block = entry.bkey := by
    cases entry <;> rfl
  rw [compareRecord_eq_zero_iff, ReplicaLogEntry.Differs, not_or, not_or, not_not, not_not, not_not]
  by_cases same : first.opType = second.opType
  · rw [slice_or_block_iff fits others same, op, op, char_injective, block, block]
  · rw [op, op, char_injective]
    exact iff_of_false (fun both => same both.1) fun both => same both.1

/-! ## The window of the master -/

/-- The first records of a file whose lines fit in so many bytes. -/
def fitting : Nat → List ReplicaLogEntry → List ReplicaLogEntry
  | _, [] => []
  | bytes, entry :: file =>
      if entry.line.length ≤ bytes then entry :: fitting (bytes - entry.line.length) file else []

theorem fitting_take (bytes : Nat) (file : List ReplicaLogEntry) : fitting bytes file <+: file := by
  induction file generalizing bytes with
  | nil => exact List.nil_prefix
  | cons entry file ih =>
      rw [fitting]
      split_ifs
      · exact List.cons_prefix_cons.mpr ⟨rfl, ih _⟩
      · exact List.nil_prefix

/-- What the master compares with: the records behind a version in the file that has the first of
them, as far as they fit in the buffer and in the rows. -/
def ReplicaLog.windowAfter (log : ReplicaLog) (lastDataVersion : Nat) : List ReplicaLogEntry :=
  match log.files.find? fun file =>
      file.any fun entry => decide ((lastDataVersion : Int) < entry.version) with
  | none => []
  | some file =>
      (fitting (maxCheckRows * ReplicaLogEntry.maxRecordSize)
        (file.dropWhile fun entry => decide (entry.version ≤ (lastDataVersion : Int)))).take maxCheckRows

theorem completeLines_of_not_mem {text : List Char} (noEnd : '\n' ∉ text) :
    completeLines text = [] := by
  cases text with
  | nil => rfl
  | cons char rest => rw [completeLines, if_neg noEnd]

theorem completeLines_line (line rest : List Char) :
    completeLines (line ++ '\n' :: rest) = line ++ '\n' :: completeLines rest := by
  induction line with
  | nil => rw [List.nil_append, completeLines, if_pos List.mem_cons_self, List.nil_append]
  | cons char line ih =>
      have ends : '\n' ∈ char :: (line ++ '\n' :: rest) :=
        List.mem_cons_of_mem _ (List.mem_append_right _ List.mem_cons_self)
      rw [List.cons_append, completeLines, if_pos ends, ih, List.cons_append]

theorem length_line_eq (entry : ReplicaLogEntry) :
    entry.line.length = (lineBody entry.fields).length + 1 := by
  rw [ReplicaLogEntry.line_eq, lineOf_eq, List.length_append]
  rfl

/-- A buffer is cut to the records that fit in it. -/
theorem completeLines_take (bytes : Nat) (file : List ReplicaLogEntry) :
    completeLines ((binlogText file).take bytes) = binlogText (fitting bytes file) := by
  induction file generalizing bytes with
  | nil =>
      rw [binlogText_nil, List.take_nil]
      rfl
  | cons entry file ih =>
      have length := length_line_eq entry
      rw [fitting, binlogText_cons]
      split_ifs with fits
      · obtain ⟨more, rfl⟩ := Nat.exists_eq_add_of_le fits
        have taken : (lineBody entry.fields ++ '\n' :: binlogText file).take
            (entry.line.length + more) =
            lineBody entry.fields ++ '\n' :: (binlogText file).take more := by
          rw [length, Nat.add_assoc, List.take_length_add_append, Nat.add_comm 1,
            List.take_succ_cons]
        rw [taken, completeLines_line, ih, Nat.add_sub_cancel_left, binlogText_cons]
      · have inside : bytes ≤ (lineBody entry.fields).length := by omega
        rw [List.take_append_of_le_length inside]
        apply completeLines_of_not_mem
        exact fun member => entry.noEnd_lineBody (List.mem_of_mem_take member)

section Read

variable {log : ReplicaLog} {lastDataVersion : Nat}

/-- A buffer that a record fits in has the end of its line. -/
theorem newline_mem_take {record : ReplicaLogEntry} (fits : record.Fits)
    (later : List ReplicaLogEntry) {size : Nat} (room : ReplicaLogEntry.maxRecordSize ≤ size) :
    '\n' ∈ (binlogText (record :: later)).take size := by
  have short := length_lineBody_lt fits
  obtain ⟨more, rfl⟩ := Nat.exists_eq_add_of_lt (short.trans_le room)
  rw [binlogText_cons, Nat.add_assoc, Nat.add_assoc, List.take_length_add_append, Nat.add_comm 1,
    List.take_succ_cons]
  exact List.mem_append_right _ List.mem_cons_self

/-- The window that is read at the position of the first record behind the version. -/
theorem integralRead_of_first {pos : SFBinlogFilePosition}
    (first : log.FirstAfter lastDataVersion pos) {size : Nat}
    (room : ReplicaLogEntry.maxRecordSize ≤ size) :
    ∃ (file : List ReplicaLogEntry) (record : ReplicaLogEntry) (later : List ReplicaLogEntry),
      binlogReaderIntegralRead log.content log.currentWriteIndex size
          (openReadableBinlog log.content pos.index pos.offset) =
        .ok (binlogText (fitting size (record :: later))) ∧
      record :: later <:+ file ∧ file ∈ log.files ∧
      (log.files.find? fun file =>
        file.any fun entry => decide ((lastDataVersion : Int) < entry.version)) = some file ∧
      (file.dropWhile fun entry => decide (entry.version ≤ (lastDataVersion : Int))) = record :: later := by
  obtain ⟨before, older, record, later, after, split, passed, above, rfl⟩ := first
  have text := ReplicaLog.content_of_split split
  have passedOlder : Passed lastDataVersion older := fun entry member =>
    passed entry (List.mem_append_right _ member)
  have bytes : ((log.content before.length).drop (binlogText older).length).take size =
      (binlogText (record :: later)).take size := by
    rw [text, binlogText_append, List.drop_left]
  have ends : '\n' ∈ (binlogText (record :: later)).take size :=
    newline_mem_take (ReplicaLog.fits_of_mem split record
      (List.mem_append_right _ List.mem_cons_self)) later room
  refine ⟨older ++ record :: later, record, later, ?_, List.suffix_append _ _, ?_, ?_, ?_⟩
  · rw [binlogReaderIntegralRead, binlogReadToBuffer, doReadToBuffer,
      ReplicaLog.openReadableBinlog_split split]
    dsimp only
    rw [bytes, if_neg (List.ne_nil_of_mem ends)]
    dsimp only
    rw [if_pos ends, completeLines_take]
  · rw [split]
    exact List.mem_append_right _ List.mem_cons_self
  · rw [split, List.find?_append, List.find?_eq_none.mpr]
    · rw [Option.none_or, List.find?_cons_of_pos]
      exact List.any_eq_true.mpr
        ⟨record, List.mem_append_right _ List.mem_cons_self, decide_eq_true above⟩
    · intro file member any
      obtain ⟨entry, inFile, behind⟩ := List.any_eq_true.mp any
      have before := passed entry (List.mem_append_left _ (List.mem_flatten_of_mem member inFile))
      exact absurd (of_decide_eq_true behind) (not_lt.mpr before)
  · rw [List.dropWhile_append_of_pos fun entry member => decide_eq_true (passedOlder entry member),
      List.dropWhile_cons_of_neg]
    simpa using above

/-- The rows that are read for the window. -/
theorem window_of_first {pos : SFBinlogFilePosition}
    (first : log.FirstAfter lastDataVersion pos) :
    ∃ whole, binlogReaderIntegralRead log.content log.currentWriteIndex
          (maxCheckRows * ReplicaLogEntry.maxRecordSize)
          (openReadableBinlog log.content pos.index pos.offset) = .ok (binlogText whole) ∧
      log.windowAfter lastDataVersion = whole.take maxCheckRows ∧
      whole.Sublist log.records := by
  obtain ⟨file, record, later, read, suffix, inLog, found, rest⟩ := integralRead_of_first first
    (by decide : ReplicaLogEntry.maxRecordSize ≤ maxCheckRows * ReplicaLogEntry.maxRecordSize)
  refine ⟨_, read, ?_, ?_⟩
  · rw [ReplicaLog.windowAfter, found]
    dsimp only
    rw [rest]
  · apply (fitting_take _ _).sublist.trans
    exact suffix.sublist.trans (List.sublist_flatten_of_mem inLog)

/-- Behind the last record nothing is read. -/
theorem integralRead_at_end (size : Nat) :
    binlogReaderIntegralRead log.content log.currentWriteIndex size
      (openReadableBinlog log.content log.endPosition.index log.endPosition.offset) =
        .error .enoent := by
  have text : log.content log.currentWriteIndex = binlogText log.current :=
    @ReplicaLog.content_of_split log log.closed [] log.current rfl
  have bytes : ((log.content log.currentWriteIndex).drop (binlogText log.current).length).take size =
      [] := by
    rw [text, List.drop_length, List.take_nil]
  rw [binlogReaderIntegralRead, binlogReadToBuffer, doReadToBuffer,
    ReplicaLog.openReadableBinlog_end]
  dsimp only
  rw [bytes, if_pos rfl]
  dsimp only
  rw [if_neg (lt_irrefl _)]

theorem windowAfter_of_passed (passed : Passed lastDataVersion log.records) :
    log.windowAfter lastDataVersion = [] := by
  rw [ReplicaLog.windowAfter, List.find?_eq_none.mpr]
  intro file member any
  obtain ⟨entry, inFile, behind⟩ := List.any_eq_true.mp any
  have before := passed entry (List.mem_flatten_of_mem member inFile)
  exact absurd (of_decide_eq_true behind) (not_lt.mpr before)

end Read

/-! ## The check -/

/-- The version has an update in the tail of the slave and another one in the window of the
master, both by RPC. -/
def UnmatchedUpdate (tail window : List ReplicaLogEntry) (dv : Int) : Prop :=
  ∃ first ∈ tail, ∃ second ∈ window, first.version = dv ∧ second.version = dv ∧
    (first.IsRpc ∧ second.IsRpc) ∧ first.Differs second

/-- The two records are of one update. -/
def SameUpdate (first second : ReplicaLogEntry) : Prop :=
  first.version = second.version ∧ ¬first.Differs second

/-- The version before the first of the tail. -/
def versionBefore (tail : List ReplicaLogEntry) : Nat :=
  ((tail.head?.elim 0 fun entry => entry.version) - 1).toNat

section Check

variable {tail window : List ReplicaLogEntry}

theorem increasing_records
    (sorted : tail.Pairwise fun first second => first.version < second.version) :
    Increasing (tail.map ReplicaLogEntry.record) := by
  rw [Increasing, List.pairwise_map]
  exact sorted.imp fun less => by rwa [record_dataVersion, record_dataVersion]

theorem unmatchedAt_records (fits : ∀ entry ∈ tail, entry.Fits)
    (others : ∀ entry ∈ window, entry.Fits) (dv : Int) :
    UnmatchedAt (tail.map ReplicaLogEntry.record) (window.map ReplicaLogEntry.record) dv ↔
      UnmatchedUpdate tail window dv := by
  have same {first second : ReplicaLogEntry} (inTail : first ∈ tail) (inWindow : second ∈ window) :
      Unmatched first.record second.record ↔
        (first.IsRpc ∧ second.IsRpc) ∧ first.Differs second := by
    rw [Unmatched, fsIsBinlogSourceRpc_record, fsIsBinlogSourceRpc_record, ne_eq,
      compareRecord_record (fits first inTail) (others second inWindow), not_not]
  constructor
  · rintro ⟨_, inSlave, _, inMaster, version, versions, unmatched⟩
    obtain ⟨first, inTail, rfl⟩ := List.mem_map.mp inSlave
    obtain ⟨second, inWindow, rfl⟩ := List.mem_map.mp inMaster
    rw [record_dataVersion] at version versions
    exact ⟨first, inTail, second, inWindow, version, versions, (same inTail inWindow).mp unmatched⟩
  · rintro ⟨first, inTail, second, inWindow, version, versions, unmatched⟩
    refine ⟨_, List.mem_map_of_mem inTail, _, List.mem_map_of_mem inWindow, ?_, ?_,
      (same inTail inWindow).mpr unmatched⟩
    · rwa [record_dataVersion]
    · rwa [record_dataVersion]

variable {log : ReplicaLog} {lines : LineFunctions} {size : Nat}
variable {memory : SFBinlogFilePosition → List Char} {fuel : Nat}

theorem version_pos {entry : ReplicaLogEntry} (fits : entry.Fits) : 0 < entry.version := by
  cases fits with
  | slice fits kind block range => exact lt_of_lt_of_le (by norm_num) fits.dataVersion.1
  | block fits kind block => exact lt_of_lt_of_le (by norm_num) fits.dataVersion.1

/-- The reader starts where the search for the version ends. -/
theorem readerInit_located (documented : lines.Documented)
    (room : ReplicaLogEntry.maxRecordSize < size)
    (enough : ∀ file ∈ log.files, (binlogText file).length < fuel) (lastDataVersion : Nat) :
    ∃ result, log.Located lastDataVersion false result ∧
      replicaBinlogReaderInit log.content log.currentWriteIndex lines size memory fuel
          lastDataVersion =
        result.map fun pos => openReadableBinlog log.content pos.index pos.offset := by
  rw [replicaBinlogReaderInit]
  split_ifs with none
  · refine ⟨.ok ⟨0, 0⟩, ?_, rfl⟩
    obtain ⟨file, after, split⟩ : ∃ file after, log.files = file :: after :=
      List.exists_cons_of_ne_nil (List.append_ne_nil_of_right_ne_nil _ (List.cons_ne_nil _ _))
    rw [none]
    apply @ReplicaLog.located_at_start log [] after file 0 false split (List.forall_mem_nil _)
    intro entry member
    exact version_pos (@ReplicaLog.fits_of_mem log [] after file split entry member)
  · have length : log.files.length = log.currentWriteIndex + 1 := by
      rw [ReplicaLog.files, List.length_append]
      rfl
    have located := @ReplicaLog.positionBefore_located log log.files [] lines size memory
      lastDataVersion false fuel documented room enough _ (List.append_nil _).symm length
      (List.forall_mem_nil _)
    refine ⟨_, located, ?_⟩
    rw [← replicaBinlogGetPositionByDv]
    cases replicaBinlogGetPositionByDv lines log.content log.currentWriteIndex size memory
      lastDataVersion false fuel with
    | error result => rfl
    | ok pos => rfl

theorem windowAfter_sublist (log : ReplicaLog) (lastDataVersion : Nat) :
    (log.windowAfter lastDataVersion).Sublist log.records := by
  rw [ReplicaLog.windowAfter]
  split
  · exact List.nil_sublist _
  · rename_i file found
    have inLog : file.Sublist log.records :=
      List.sublist_flatten_of_mem (List.mem_of_find?_eq_some found)
    apply (List.take_sublist _ _).trans
    apply (fitting_take _ _).sublist.trans
    exact (List.dropWhile_sublist _).trans inLog

theorem fits_of_mem_window {lastDataVersion : Nat} :
    ∀ entry ∈ log.windowAfter lastDataVersion, entry.Fits :=
  fun entry member => log.fits entry ((windowAfter_sublist log lastDataVersion).subset member)

/-- The rows of a buffer with these records. -/
theorem unpackRecords_binlogText {file : List ReplicaLogEntry} (fits : ∀ entry ∈ file, entry.Fits)
    (beyond : List Char) :
    (replicaBinlogUnpackRecords beyond (binlogText file) maxCheckRows).result = .ok ∧
      (replicaBinlogUnpackRecords beyond (binlogText file) maxCheckRows).records =
        (file.take maxCheckRows).map ReplicaLogEntry.record :=
  ReplicaLogEntry.unpackLines_entries fits beyond (by decide : 0 < maxCheckRows)

/-- With a reader the check is the merge of the tail and the window. -/
theorem check_of_reader (documented : lines.Documented)
    (room : ReplicaLogEntry.maxRecordSize < size)
    (enough : ∀ file ∈ log.files, (binlogText file).length < fuel)
    (fits : ∀ entry ∈ tail, entry.Fits) (rows : tail.length ≤ maxCheckRows)
    {reader : ServerBinlogReader}
    (started : replicaBinlogReaderInit log.content log.currentWriteIndex lines size memory fuel
      (versionBefore tail) = .ok reader) (sbeyond mbeyond : List Char) :
    replicaBinlogCheckConsistency log.content log.currentWriteIndex lines size memory fuel sbeyond
        mbeyond (binlogText tail) =
      match checkRecordsConsistency (tail.map ReplicaLogEntry.record)
        ((log.windowAfter (versionBefore tail)).map ReplicaLogEntry.record) with
      | none => .ok
      | some firstUnmatchedDv => .inconsistent firstUnmatchedDv := by
  cases tail with
  | nil =>
      rw [binlogText_nil, replicaBinlogCheckConsistency, if_pos rfl, List.map_nil,
        checkRecordsConsistency]
  | cons first others =>
      have text : binlogText (first :: others) ≠ [] :=
        List.ne_nil_of_mem (newline_mem_binlogText first others)
      obtain ⟨unpacked, records⟩ := unpackRecords_binlogText fits sbeyond
      rw [List.take_of_length_le rows] at records
      have version : (((first :: others).map ReplicaLogEntry.record).head?.elim 0 fun record =>
          record.dataVersion) = (first :: others).head?.elim 0 fun entry => entry.version :=
        record_dataVersion first
      rw [replicaBinlogCheckConsistency, if_neg text]
      dsimp only
      rw [unpacked, records, if_neg (not_not.mpr rfl), version]
      change (match replicaBinlogReaderInit log.content log.currentWriteIndex lines size memory fuel
        (versionBefore (first :: others)) with
        | .error result => ConsistencyResult.error result
        | .ok reader => _) = _
      rw [started]
      dsimp only
      obtain ⟨result, located, init⟩ := readerInit_located documented room enough
        (versionBefore (first :: others))
      rw [started] at init
      cases result with
      | error result => cases init
      | ok pos =>
          cases init
          by_cases behind : ∃ record ∈ log.records,
              ((versionBefore (first :: others) : Nat) : Int) < record.version
          · obtain ⟨other, position, same⟩ := located.found behind
            cases same
            obtain ⟨whole, read, window, inLog⟩ := window_of_first position
            obtain ⟨complete, rows⟩ := unpackRecords_binlogText
              (fun entry member => log.fits entry (inLog.subset member)) mbeyond
            rw [read, window]
            dsimp only
            rw [complete, rows, if_neg (not_not.mpr rfl)]
          · have passed : Passed (versionBefore (first :: others)) log.records := by
              intro record member
              by_contra above
              exact behind ⟨record, member, not_le.mp above⟩
            have isEnd : pos = log.endPosition := by
              have ends := located.none passed
              by_cases overflow : log.current = [] ∨ false = true ∨
                  log.records.getLast?.map ReplicaLogEntry.version =
                    some ((versionBefore (first :: others) : Nat) : Int)
              · rw [if_pos overflow] at ends
                cases ends
                rfl
              · rw [if_neg overflow] at ends
                cases ends
            rw [isEnd]
            dsimp only
            rw [integralRead_at_end, windowAfter_of_passed passed, List.map_cons, List.map_nil,
              checkRecordsConsistency]

/-- What the merge says of the updates. -/
theorem least_updates {lastDataVersion : Nat} (fits : ∀ entry ∈ tail, entry.Fits)
    (sorted : tail.Pairwise fun first second => first.version < second.version) :
    match checkRecordsConsistency (tail.map ReplicaLogEntry.record)
      ((log.windowAfter lastDataVersion).map ReplicaLogEntry.record) with
    | none => ∀ dv, ¬UnmatchedUpdate tail (log.windowAfter lastDataVersion) dv
    | some dv => IsLeast {dv | UnmatchedUpdate tail (log.windowAfter lastDataVersion) dv} dv := by
  have master : Increasing ((log.windowAfter lastDataVersion).map ReplicaLogEntry.record) :=
    increasing_records (log.increasing.sublist (windowAfter_sublist log lastDataVersion))
  have least := checkRecordsConsistency_least (increasing_records sorted) master
  have same := @unmatchedAt_records tail (log.windowAfter lastDataVersion) fits fits_of_mem_window
  generalize checkRecordsConsistency _ _ = result at least ⊢
  cases result with
  | none => exact fun dv unmatched => least dv ((same dv).mpr unmatched)
  | some dv =>
      have sets : {dv | UnmatchedAt (tail.map ReplicaLogEntry.record)
          ((log.windowAfter lastDataVersion).map ReplicaLogEntry.record) dv} =
            {dv | UnmatchedUpdate tail (log.windowAfter lastDataVersion) dv} := Set.ext same
      rw [Least, sets] at least
      exact least

theorem eq_of_version_eq {first second : ReplicaLogEntry} (inLog : first ∈ log.records)
    (other : second ∈ log.records) (same : first.version = second.version) : first = second := by
  have distinct : (log.records.map ReplicaLogEntry.version).Nodup := by
    rw [List.Nodup, List.pairwise_map]
    exact log.increasing.imp fun less => less.ne
  exact List.inj_on_of_nodup_map distinct inLog other same

/-- Records that the master holds, too, match in every window. -/
theorem no_unmatched_of_same {older newest : List ReplicaLogEntry}
    (split : log.records = older ++ newest) (same : List.Forall₂ SameUpdate tail newest)
    (lastDataVersion : Nat) (dv : Int) :
    ¬UnmatchedUpdate tail (log.windowAfter lastDataVersion) dv := by
  rintro ⟨first, inTail, second, inWindow, version, versions, -, differs⟩
  obtain ⟨index, inside, rfl⟩ := List.getElem_of_mem inTail
  have partners := (List.forall₂_iff_get.mp same)
  have within : index < newest.length := partners.1 ▸ inside
  have agree : SameUpdate tail[index] newest[index] := partners.2 index inside within
  have inLog : newest[index] ∈ log.records :=
    split ▸ List.mem_append_right _ (List.getElem_mem within)
  have equal : second = newest[index] := by
    apply eq_of_version_eq ((windowAfter_sublist log lastDataVersion).subset inWindow) inLog
    rw [versions, ← version, agree.1]
  exact agree.2 (equal ▸ differs)

end Check

/-- The check of a tail of the slave's log against the log of the master: with a reader for the
window it finds the least version that is not matched, if there is one; and a slave whose last
records the master holds passes. -/
theorem replica_binlog_check_exact (log : ReplicaLog) {lines : LineFunctions}
    (documented : lines.Documented) {size : Nat} (room : ReplicaLogEntry.maxRecordSize < size)
    (memory : SFBinlogFilePosition → List Char) {fuel : Nat}
    (enough : ∀ file ∈ log.files, (binlogText file).length < fuel) {tail : List ReplicaLogEntry}
    (fits : ∀ entry ∈ tail, entry.Fits) (rows : tail.length ≤ maxCheckRows)
    (sorted : tail.Pairwise fun first second => first.version < second.version)
    (sbeyond mbeyond : List Char) (result : ConsistencyResult)
    (check : replicaBinlogCheckConsistency log.content log.currentWriteIndex lines size memory fuel
      sbeyond mbeyond (binlogText tail) = result) :
    ((∃ reader, replicaBinlogReaderInit log.content log.currentWriteIndex lines size memory fuel
          (versionBefore tail) = .ok reader) →
        ((∃ dv, result = .inconsistent dv) ↔
          ∃ dv, UnmatchedUpdate tail (log.windowAfter (versionBefore tail)) dv) ∧
        (∀ dv, result = .inconsistent dv →
          IsLeast {dv | UnmatchedUpdate tail (log.windowAfter (versionBefore tail)) dv} dv) ∧
        ((∀ dv, ¬UnmatchedUpdate tail (log.windowAfter (versionBefore tail)) dv) →
          result = .ok)) ∧
      ∀ older newest, log.records = older ++ newest → List.Forall₂ SameUpdate tail newest →
        result = .ok := by
  have exact_of_reader (reader : ServerBinlogReader)
      (started : replicaBinlogReaderInit log.content log.currentWriteIndex lines size memory fuel
        (versionBefore tail) = .ok reader) :
      (result = .ok ∧ ∀ dv, ¬UnmatchedUpdate tail (log.windowAfter (versionBefore tail)) dv) ∨
        ∃ dv, result = .inconsistent dv ∧
          IsLeast {dv | UnmatchedUpdate tail (log.windowAfter (versionBefore tail)) dv} dv := by
    have least := @least_updates tail log (versionBefore tail) fits sorted
    rw [check_of_reader documented room enough fits rows started] at check
    generalize checkRecordsConsistency _ _ = merged at least check
    cases merged with
    | none => exact Or.inl ⟨check.symm, least⟩
    | some dv => exact Or.inr ⟨dv, check.symm, least⟩
  constructor
  · rintro ⟨reader, started⟩
    rcases exact_of_reader reader started with ⟨rfl, none⟩ | ⟨dv, rfl, least⟩
    · refine ⟨iff_of_false nofun fun some => none _ some.choose_spec, nofun, fun _ => rfl⟩
    · refine ⟨iff_of_true ⟨dv, rfl⟩ ⟨dv, least.1⟩, ?_, fun none => absurd least.1 (none dv)⟩
      rintro other same
      cases same
      exact least
  · intro older newest split same
    have none := @no_unmatched_of_same tail log older newest split same (versionBefore tail)
    cases same with
    | nil =>
        rw [binlogText_nil, replicaBinlogCheckConsistency, if_pos rfl] at check
        exact check.symm
    | @cons first second others newest agree rest =>
        obtain ⟨position, located, init⟩ := @readerInit_located log lines size memory fuel
          documented room enough (versionBefore (first :: others))
        have inLog : second ∈ log.records := split ▸ List.mem_append_right _ List.mem_cons_self
        have behind : ((versionBefore (first :: others) : Nat) : Int) < second.version := by
          have positive := version_pos (fits first List.mem_cons_self)
          have version : versionBefore (first :: others) = (first.version - 1).toNat := rfl
          rw [← agree.1, version]
          omega
        obtain ⟨pos, -, rfl⟩ := located.found ⟨second, inLog, behind⟩
        rcases exact_of_reader _ init with ⟨passes, -⟩ | ⟨dv, -, least⟩
        · exact passes
        · exact absurd least.1 (none dv)

/-- A tail with another update than the last one of the two files. -/
def otherTail : List ReplicaLogEntry :=
  [.slice ⟨1700000000, 6, .rpcSlave⟩ .writeSlice ⟨⟨7, 0⟩, ⟨0, 8192⟩⟩]

theorem otherTail_fits : ∀ entry ∈ otherTail, entry.Fits := by
  refine List.forall_mem_singleton.mpr (.slice ?_ (Or.inl rfl) ?_ ?_)
  all_goals
    constructor
    all_goals norm_num [BlockFits, BlockTaken, SliceFits, SliceTaken, IsLong, IsInt]

theorem replica_binlog_check_exact_two_files :
    (∃ dv, replicaBinlogCheckConsistency twoFiles.content twoFiles.currentWriteIndex wholeLines 129
        (fun _ => []) 1000 [] [] (binlogText otherTail) = .inconsistent dv) ∧
      replicaBinlogCheckConsistency twoFiles.content twoFiles.currentWriteIndex wholeLines 129
        (fun _ => []) 1000 [] [] (binlogText [writeEntry 6]) = .ok := by
  have enough : ∀ file ∈ twoFiles.files, (binlogText file).length < 1000 := by decide +kernel
  have started : (replicaBinlogReaderInit twoFiles.content twoFiles.currentWriteIndex wholeLines 129
      (fun _ => []) 1000 5).toOption = some ⟨1, 0, []⟩ := by decide +kernel
  constructor
  · apply ((replica_binlog_check_exact twoFiles wholeLines_documented (by decide) (fun _ => [])
      enough otherTail_fits (by decide) (by decide) [] [] _ rfl).1 ?_).1.mpr
    · refine ⟨6, _, List.mem_singleton_self _, writeEntry 6, ?_, rfl, rfl,
        ⟨Or.inr rfl, Or.inl rfl⟩, Or.inr (Or.inr (by decide))⟩
      decide +kernel
    · change ∃ reader, replicaBinlogReaderInit _ _ _ _ _ _ 5 = .ok reader
      cases init : replicaBinlogReaderInit twoFiles.content twoFiles.currentWriteIndex wholeLines
        129 (fun _ => []) 1000 5 with
      | error result =>
          rw [init] at started
          cases started
      | ok reader => exact ⟨reader, rfl⟩
  · apply (replica_binlog_check_exact twoFiles wholeLines_documented (by decide) (fun _ => [])
      enough _ (by decide) (by decide) [] [] _ rfl).2 [writeEntry 1, writeEntry 3] [writeEntry 6]
      rfl
    · exact .cons ⟨rfl, by rintro (op | block | numbers) <;> contradiction⟩ .nil
    · exact List.forall_mem_singleton.mpr (writeEntry_fits (by norm_num) (by norm_num))

end FastStore.Binlog
