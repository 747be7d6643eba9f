import FastStore.Binlog.BinlogFunc
import FastStore.Binlog.ReplicaLines

/-!
# The position of a data version in a replica binlog

`replica_binlog_get_position_by_dv` goes back over the files of a replica binlog to one that does
not begin behind the version, compares its last record, and else reads the file from its start.
The reader fills a buffer that ends in the middle of a line as a rule, so a position is counted
from the bytes that were read and the bytes of the buffer that were not looked at yet.
-/

namespace FastStore.Binlog

open FastStore.Util FastStore.Storage

/-! ## Files of records -/

def ReplicaLogEntry.version (entry : ReplicaLogEntry) : Int := entry.head.dataVersion

/-- The text of a file with these records. -/
def binlogText (file : List ReplicaLogEntry) : List Char := file.flatMap ReplicaLogEntry.line

@[simp] theorem binlogText_nil : binlogText [] = [] := rfl

@[simp] theorem binlogText_append (first second : List ReplicaLogEntry) :
    binlogText (first ++ second) = binlogText first ++ binlogText second :=
  List.flatMap_append

theorem binlogText_cons (entry : ReplicaLogEntry) (file : List ReplicaLogEntry) :
    binlogText (entry :: file) = lineBody entry.fields ++ '\n' :: binlogText file := by
  rw [binlogText, List.flatMap_cons, ReplicaLogEntry.line_eq, lineOf_eq, List.append_assoc]
  rfl

/-- The files of one replica binlog in index order. -/
structure ReplicaLog where
  /-- The files before the current write file. -/
  closed : List (List ReplicaLogEntry)
  /-- The file at the current write index. -/
  current : List ReplicaLogEntry
  /-- The writer goes to the next file when a record does not fit any more. -/
  closed_ne_nil : ∀ file ∈ closed, file ≠ []
  fits : ∀ entry ∈ (closed ++ [current]).flatten, entry.Fits
  increasing : (closed ++ [current]).flatten.Pairwise fun first second =>
    first.version < second.version

namespace ReplicaLog

def files (log : ReplicaLog) : List (List ReplicaLogEntry) := log.closed ++ [log.current]

def records (log : ReplicaLog) : List ReplicaLogEntry := log.files.flatten

/-- `sf_binlog_get_current_write_index`. -/
def currentWriteIndex (log : ReplicaLog) : Nat := log.closed.length

/-- What is in the file with an index. -/
def content (log : ReplicaLog) (index : Nat) : List Char := binlogText (log.files.getD index [])

end ReplicaLog

/-! ## The reader -/

/-- `ServerBinlogReader`: its position, and its buffer from `current` to `end`. -/
structure ServerBinlogReader where
  index : Nat
  offset : Nat
  buffer : List Char
  deriving DecidableEq, Repr

section Reader

variable (content : Nat → List Char) (currentWriteIndex size : Nat)

/-- `open_readable_binlog`. -/
def openReadableBinlog (index offset : Nat) : ServerBinlogReader :=
  ⟨index, min offset (content index).length, []⟩

/-- `do_binlog_read`; the rest of the buffer is moved to its start before. -/
def doBinlogRead (reader : ServerBinlogReader) : Errno × ServerBinlogReader :=
  if size - reader.buffer.length = 0 then (.enospc, reader)
  else
    let bytes := ((content reader.index).drop reader.offset).take (size - reader.buffer.length)
    if bytes = [] then (.enoent, reader)
    else (.ok, ⟨reader.index, reader.offset + bytes.length, reader.buffer ++ bytes⟩)

/-- `binlog_reader_read`. -/
def binlogReaderRead (reader : ServerBinlogReader) : Errno × ServerBinlogReader :=
  match doBinlogRead content size reader with
  | (.enoent, reader) =>
      if reader.index < currentWriteIndex then
        doBinlogRead content size (openReadableBinlog content (reader.index + 1) 0)
      else (.enoent, reader)
  | read => read

variable (memory : SFBinlogFilePosition → List Char) (lastDataVersion : Nat)

/-- The loop of `find_position_by_buffer` over the lines of a text, with the memory behind it; the
text is left from the line on that was found, or that is cut off. -/
def findLine (beyond : List Char) : List Char → List (List Char × List Char) → Errno × List Char
  | text, [] => (.eagain, text)
  | text, (line, rest) :: later =>
      match replicaUnpackCols (splitLine line (rest ++ beyond) 8) with
      | none => (.einval, text)
      | some record =>
          if (lastDataVersion : Int) < record.dataVersion then (.ok, text)
          else findLine beyond rest later

/-- `find_position_by_buffer`. -/
def findPositionByBuffer (reader : ServerBinlogReader) : Errno × ServerBinlogReader :=
  let found := findLine lastDataVersion (memory ⟨reader.index, reader.offset⟩) reader.buffer
    (bufferLines reader.buffer)
  (found.1, ⟨reader.index, reader.offset, found.2⟩)

/-- `find_position_by_reader`; every round reads some bytes of the files. -/
def findPositionByReader : Nat → ServerBinlogReader → Except Errno SFBinlogFilePosition
  | 0, _ => .error .eagain
  | fuel + 1, reader =>
      match binlogReaderRead content currentWriteIndex size reader with
      | (.ok, reader) =>
          match findPositionByBuffer memory lastDataVersion reader with
          | (.eagain, reader) => findPositionByReader fuel reader
          | (.ok, reader) => .ok ⟨reader.index, reader.offset - reader.buffer.length⟩
          | (result, _) => .error result
      | (result, _) => .error result

end Reader

/-! ## The search -/

/-- `fc_get_first_line` and `fc_get_last_line` of a file with this content and a buffer of this
size: the line with what is behind it in the buffer, and the size of the file. -/
structure LineFunctions where
  fcGetFirstLine : List Char → Nat → Except Errno (List Char × List Char)
  fcGetLastLine : List Char → Nat → Except Errno (List Char × List Char × Nat)

/-- The lines that the two give when these fit in the buffer; an empty file has none. -/
structure LineFunctions.Documented (lines : LineFunctions) : Prop where
  empty : ∀ size, lines.fcGetFirstLine [] size = .error .enoent
  first : ∀ {content line rest : List Char} {size : Nat},
    (bufferLines content).head? = some (line, rest) → line.length + 1 < size →
      ∃ behind, lines.fcGetFirstLine content size = .ok (line, behind)
  last : ∀ {content line : List Char} {size : Nat},
    (bufferLines content).getLast? = some (line, []) → line.length + 1 < size →
      ∃ behind, lines.fcGetLastLine content size = .ok (line, behind, content.length)

section Search

variable (lines : LineFunctions)

/-- `replica_binlog_get_first_data_version`. -/
def replicaBinlogGetFirstDataVersion (content : List Char) : Except Errno Int :=
  match lines.fcGetFirstLine content ReplicaLogEntry.maxRecordSize with
  | .error result => .error result
  | .ok (line, behind) =>
      match replicaUnpackCols (splitLine line behind 8) with
      | none => .error .einval
      | some record => .ok record.dataVersion

/-- `replica_binlog_get_last_data_version_ex`: the version, the offset of the record and its
length. -/
def replicaBinlogGetLastDataVersionEx (content : List Char) : Except Errno (Int × Nat × Nat) :=
  match lines.fcGetLastLine content ReplicaLogEntry.maxRecordSize with
  | .error result => .error result
  | .ok (line, behind, fileSize) =>
      match replicaUnpackCols (splitLine line behind 8) with
      | none => .error .einval
      | some record => .ok (record.dataVersion, fileSize - (line.length + 1), line.length + 1)

variable (content : Nat → List Char) (currentWriteIndex size : Nat)
variable (memory : SFBinlogFilePosition → List Char) (lastDataVersion : Nat)
variable (ignoreDvOverflow : Bool) (fuel : Nat)

/-- `find_position` in the file with this index. -/
def findPosition (index : Nat) : Except Errno SFBinlogFilePosition :=
  match replicaBinlogGetLastDataVersionEx lines (content index) with
  | .error result => .error result
  | .ok (dataVersion, offset, recordLen) =>
      if (lastDataVersion : Int) = dataVersion then
        if index < currentWriteIndex then .ok ⟨index + 1, 0⟩
        else .ok ⟨index, offset + recordLen⟩
      else if dataVersion < lastDataVersion then
        if index < currentWriteIndex then .ok ⟨index + 1, 0⟩
        else if ignoreDvOverflow then .ok ⟨index, offset + recordLen⟩
        else .error .eoverflow
      else
        findPositionByReader content currentWriteIndex size memory lastDataVersion fuel
          (openReadableBinlog content index 0)

/-- The loop of `replica_binlog_get_position_by_dv` over the files before this index. -/
def positionBefore : Nat → Except Errno SFBinlogFilePosition
  | 0 => .ok ⟨0, 0⟩
  | index + 1 =>
      match replicaBinlogGetFirstDataVersion lines (content index) with
      | .error .enoent => positionBefore index
      | .error result => .error result
      | .ok firstDataVersion =>
          if firstDataVersion ≤ lastDataVersion then
            findPosition lines content currentWriteIndex size memory lastDataVersion
              ignoreDvOverflow fuel index
          else positionBefore index

/-- `replica_binlog_get_position_by_dv`. -/
def replicaBinlogGetPositionByDv : Except Errno SFBinlogFilePosition :=
  positionBefore lines content currentWriteIndex size memory lastDataVersion ignoreDvOverflow fuel
    (currentWriteIndex + 1)

end Search

/-! ## Reading lines that are cut anywhere -/

section Scan

/-- A record of a log is unpacked as it was written, whatever stands behind its line. -/
theorem replicaUnpackCols_fields {entry : ReplicaLogEntry} (fits : entry.Fits) (rest : List Char) :
    replicaUnpackCols (splitLine (lineBody entry.fields) rest 8) = some entry.record := by
  rw [← @value_of_all_closed _ (entry.closed_splitLine rest) []]
  exact ReplicaLogEntry.tracedRecordUnpack_fields fits [] rest

theorem record_dataVersion (entry : ReplicaLogEntry) : entry.record.dataVersion = entry.version := by
  cases entry with
  | slice head opType bsKey => rfl
  | block head opType bkey => rfl

theorem length_lineBody_lt {entry : ReplicaLogEntry} (fits : entry.Fits) :
    (lineBody entry.fields).length + 1 < ReplicaLogEntry.maxRecordSize := by
  have line := ReplicaLogEntry.length_line fits
  rw [ReplicaLogEntry.line_eq, lineOf_eq, List.length_append] at line
  exact line

theorem bufferLines_of_not_mem {text : List Char} (noEnd : '\n' ∉ text) : bufferLines text = [] := by
  induction text with
  | nil => rfl
  | cons char text ih =>
      have other : char ≠ '\n' := fun same => noEnd (same ▸ List.mem_cons_self)
      rw [bufferLines, if_neg other, ih fun member => noEnd (List.mem_cons_of_mem _ member)]

/-- A part of the lines of a file ends in its first line, or has the first line and a part of the
others. -/
theorem cut_cases {entry : ReplicaLogEntry} {file : List ReplicaLogEntry} {text : List Char}
    (cut : text <+: binlogText (entry :: file)) :
    '\n' ∉ text ∨ ∃ left, text = lineBody entry.fields ++ '\n' :: left ∧ left <+: binlogText file := by
  rw [binlogText_cons] at cut
  rcases List.prefix_or_prefix_of_prefix cut (List.prefix_append _ _) with inside | ⟨left, rfl⟩
  · exact Or.inl fun member => entry.noEnd_lineBody (inside.subset member)
  · rcases List.prefix_cons_iff.mp ((List.prefix_append_right_inj _).mp cut) with
      rfl | ⟨left, rfl, later⟩
    · rw [List.append_nil]
      exact Or.inl entry.noEnd_lineBody
    · exact Or.inr ⟨left, rfl, later⟩

variable {lastDataVersion : Nat}

/-- Records before which a reader for the version does not stop. -/
def Passed (lastDataVersion : Nat) (file : List ReplicaLogEntry) : Prop :=
  ∀ entry ∈ file, entry.version ≤ lastDataVersion

theorem Passed.append {first second : List ReplicaLogEntry}
    (passed : Passed lastDataVersion first) (later : Passed lastDataVersion second) :
    Passed lastDataVersion (first ++ second) :=
  List.forall_mem_append.mpr ⟨passed, later⟩

/-- The lines of a buffer are passed up to the first record behind the version, or up to the line
that is cut off. -/
theorem findLine_spec {file : List ReplicaLogEntry} (fits : ∀ entry ∈ file, entry.Fits)
    (beyond : List Char) {text : List Char} (cut : text <+: binlogText file) :
    (∃ older record later left, file = older ++ record :: later ∧ Passed lastDataVersion older ∧
        (lastDataVersion : Int) < record.version ∧ text = binlogText older ++ left ∧
        findLine lastDataVersion beyond text (bufferLines text) = (.ok, left)) ∨
      ∃ older later left, file = older ++ later ∧ Passed lastDataVersion older ∧
        text = binlogText older ++ left ∧ '\n' ∉ left ∧ left <+: binlogText later ∧
        findLine lastDataVersion beyond text (bufferLines text) = (.eagain, left) := by
  induction file generalizing text with
  | nil =>
      have empty := List.prefix_nil.mp cut
      subst empty
      exact Or.inr ⟨[], [], [], rfl, List.forall_mem_nil _, rfl, List.not_mem_nil,
        List.nil_prefix, rfl⟩
  | cons entry file ih =>
      rcases cut_cases cut with noEnd | ⟨left, rfl, later⟩
      · refine Or.inr ⟨[], entry :: file, text, rfl, List.forall_mem_nil _, rfl, noEnd, cut, ?_⟩
        rw [bufferLines_of_not_mem noEnd, findLine]
      · rw [bufferLines_line entry.noEnd_lineBody, findLine,
          replicaUnpackCols_fields (fits entry List.mem_cons_self)]
        dsimp only
        rw [record_dataVersion]
        by_cases found : (lastDataVersion : Int) < entry.version
        · rw [if_pos found]
          exact Or.inl ⟨[], entry, file, _, rfl, List.forall_mem_nil _, found, rfl, rfl⟩
        · rw [if_neg found]
          have passed : Passed lastDataVersion [entry] :=
            List.forall_mem_singleton.mpr (not_lt.mp found)
          rcases ih (fun other member => fits other (List.mem_cons_of_mem _ member)) later with
            ⟨older, record, rest, left, rfl, past, behind, rfl, result⟩ |
            ⟨older, rest, left, rfl, past, rfl, noEnd, part, result⟩
          · refine Or.inl ⟨entry :: older, record, rest, left, rfl, passed.append past, behind, ?_,
              result⟩
            rw [binlogText_cons, List.append_assoc]
            rfl
          · refine Or.inr ⟨entry :: older, rest, left, rfl, passed.append past, ?_, noEnd, part,
              result⟩
            rw [binlogText_cons, List.append_assoc]
            rfl

/-- A line that is cut off is shorter than a record. -/
theorem length_lt_of_cut {entry : ReplicaLogEntry} (fits : entry.Fits)
    {file : List ReplicaLogEntry} {text : List Char} (cut : text <+: binlogText (entry :: file))
    (noEnd : '\n' ∉ text) : text.length < ReplicaLogEntry.maxRecordSize := by
  have short := length_lineBody_lt fits
  rw [binlogText_cons] at cut
  rcases List.prefix_or_prefix_of_prefix cut (List.prefix_append _ _) with inside | ⟨left, rfl⟩
  · have within := inside.length_le
    omega
  · rcases List.prefix_cons_iff.mp ((List.prefix_append_right_inj _).mp cut) with
      rfl | ⟨left, rfl, -⟩
    · rw [List.append_nil]
      omega
    · exact absurd (List.mem_append_right _ List.mem_cons_self) noEnd

theorem newline_mem_binlogText (entry : ReplicaLogEntry) (file : List ReplicaLogEntry) :
    '\n' ∈ binlogText (entry :: file) := by
  rw [binlogText_cons]
  exact List.mem_append_right _ List.mem_cons_self

variable {content : Nat → List Char} {size index : Nat}

/-- A reader in front of a line gets more of it. -/
theorem doBinlogRead_spec {done todo : List ReplicaLogEntry} {buffer : List Char}
    (text : content index = binlogText (done ++ todo)) (some : todo ≠ [])
    (fits : ∀ entry ∈ todo, entry.Fits) (room : ReplicaLogEntry.maxRecordSize < size)
    (noEnd : '\n' ∉ buffer) (cut : buffer <+: binlogText todo) :
    ∃ bytes, bytes ≠ [] ∧ buffer ++ bytes <+: binlogText todo ∧
      doBinlogRead content size ⟨index, (binlogText done).length + buffer.length, buffer⟩ =
        (.ok, ⟨index, (binlogText done).length + buffer.length + bytes.length,
          buffer ++ bytes⟩) := by
  obtain ⟨entry, file, rfl⟩ := List.exists_cons_of_ne_nil some
  have short := length_lt_of_cut (fits entry List.mem_cons_self) cut noEnd
  obtain ⟨rest, whole⟩ := cut
  have left : (content index).drop ((binlogText done).length + buffer.length) = rest := by
    rw [text, binlogText_append, ← whole, ← List.append_assoc, ← List.length_append,
      List.drop_left]
  have more : rest ≠ [] := by
    rintro rfl
    rw [List.append_nil] at whole
    exact noEnd (whole ▸ newline_mem_binlogText entry file)
  have bytes : rest.take (size - buffer.length) ≠ [] := by
    rw [ne_eq, List.take_eq_nil_iff]
    rintro (none | none)
    · omega
    · exact more none
  refine ⟨rest.take (size - buffer.length), bytes, ?_, ?_⟩
  · rw [← whole]
    exact (List.prefix_append_right_inj _).mpr (List.take_prefix _ _)
  · rw [doBinlogRead]
    dsimp only
    rw [left, if_neg (by omega), if_neg bytes]

variable {memory : SFBinlogFilePosition → List Char} {currentWriteIndex : Nat}

/-- A file with a record behind the version is read up to that record. -/
theorem findPositionByReader_spec {file : List ReplicaLogEntry}
    (text : content index = binlogText file) (fits : ∀ entry ∈ file, entry.Fits)
    (room : ReplicaLogEntry.maxRecordSize < size) {fuel : Nat}
    {done todo : List ReplicaLogEntry} {buffer : List Char} (split : file = done ++ todo)
    (passed : Passed lastDataVersion done)
    (behind : ∃ entry ∈ todo, (lastDataVersion : Int) < entry.version)
    (noEnd : '\n' ∉ buffer) (cut : buffer <+: binlogText todo)
    (enough : (binlogText file).length < fuel + (binlogText done).length + buffer.length) :
    ∃ older record later, file = older ++ record :: later ∧ Passed lastDataVersion older ∧
      (lastDataVersion : Int) < record.version ∧
      findPositionByReader content currentWriteIndex size memory lastDataVersion fuel
          ⟨index, (binlogText done).length + buffer.length, buffer⟩ =
        .ok ⟨index, (binlogText older).length⟩ := by
  induction fuel generalizing done todo buffer with
  | zero =>
      have within := cut.length_le
      rw [split, binlogText_append, List.length_append] at enough
      omega
  | succ fuel ih =>
      have fitsTodo : ∀ entry ∈ todo, entry.Fits := fun entry member =>
        fits entry (split ▸ List.mem_append_right _ member)
      have some : todo ≠ [] := by
        obtain ⟨entry, member, -⟩ := behind
        exact List.ne_nil_of_mem member
      obtain ⟨bytes, more, longer, read⟩ :=
        doBinlogRead_spec (text.trans (congrArg binlogText split)) some fitsTodo room noEnd cut
      have grows := List.length_pos_of_ne_nil more
      rw [findPositionByReader, binlogReaderRead, read]
      dsimp only
      rw [findPositionByBuffer]
      dsimp only
      rcases findLine_spec fitsTodo (memory ⟨index, (binlogText done).length + buffer.length +
          bytes.length⟩) longer with
        ⟨older, record, later, left, rfl, past, above, parts, result⟩ |
        ⟨older, later, left, rfl, past, parts, cutOff, part, result⟩
      · rw [result]
        dsimp only
        refine ⟨done ++ older, record, later, by rw [split, List.append_assoc],
          passed.append past, above, ?_⟩
        have lengths := congrArg List.length parts
        rw [List.length_append, List.length_append] at lengths
        rw [binlogText_append, List.length_append]
        congr 2
        omega
      · rw [result]
        dsimp only
        have lengths := congrArg List.length parts
        rw [List.length_append, List.length_append] at lengths
        have offset : (binlogText done).length + buffer.length + bytes.length =
            (binlogText (done ++ older)).length + left.length := by
          rw [binlogText_append, List.length_append]
          omega
        rw [offset]
        apply ih (by rw [split, List.append_assoc]) (passed.append past) _ cutOff part
        · omega
        · obtain ⟨entry, member, above⟩ := behind
          rcases List.mem_append.mp member with inOlder | inLater
          · exact absurd (past entry inOlder) (not_le.mpr above)
          · exact ⟨entry, inLater, above⟩

end Scan

/-! ## The first and the last record of a file -/

section Ends

variable {lines : LineFunctions} (documented : lines.Documented)
include documented

theorem firstDataVersion_nil : replicaBinlogGetFirstDataVersion lines [] = .error .enoent := by
  rw [replicaBinlogGetFirstDataVersion, documented.empty]

theorem firstDataVersion_cons {entry : ReplicaLogEntry} (fits : entry.Fits)
    (file : List ReplicaLogEntry) :
    replicaBinlogGetFirstDataVersion lines (binlogText (entry :: file)) = .ok entry.version := by
  have first : (bufferLines (binlogText (entry :: file))).head? =
      some (lineBody entry.fields, binlogText file) := by
    rw [binlogText_cons, bufferLines_line entry.noEnd_lineBody]
    rfl
  obtain ⟨behind, read⟩ := documented.first first (length_lineBody_lt fits)
  rw [replicaBinlogGetFirstDataVersion, read]
  dsimp only
  rw [replicaUnpackCols_fields fits]
  dsimp only
  rw [record_dataVersion]

omit documented in
theorem getLast_bufferLines (file : List ReplicaLogEntry) (entry : ReplicaLogEntry) :
    (bufferLines (binlogText (file ++ [entry]))).getLast? = some (lineBody entry.fields, []) := by
  induction file with
  | nil =>
      rw [List.nil_append, binlogText_cons, bufferLines_line entry.noEnd_lineBody]
      rfl
  | cons first file ih =>
      rw [List.cons_append, binlogText_cons, bufferLines_line first.noEnd_lineBody,
        List.getLast?_cons, ih]
      rfl

theorem lastDataVersion_append {entry : ReplicaLogEntry} (fits : entry.Fits)
    (file : List ReplicaLogEntry) :
    ∃ offset recordLen, offset + recordLen = (binlogText (file ++ [entry])).length ∧
      replicaBinlogGetLastDataVersionEx lines (binlogText (file ++ [entry])) =
        .ok (entry.version, offset, recordLen) := by
  obtain ⟨behind, read⟩ := documented.last (getLast_bufferLines file entry)
    (length_lineBody_lt fits)
  refine ⟨(binlogText (file ++ [entry])).length - ((lineBody entry.fields).length + 1),
    (lineBody entry.fields).length + 1, ?_, ?_⟩
  · rw [binlogText_append, binlogText_cons, List.length_append, List.length_append,
      List.length_cons]
    omega
  · rw [replicaBinlogGetLastDataVersionEx, read]
    dsimp only
    rw [replicaUnpackCols_fields fits]
    dsimp only
    rw [record_dataVersion]

end Ends

/-! ## The position -/

namespace ReplicaLog

variable (log : ReplicaLog)

/-- The position of the first record behind a version. -/
def FirstAfter (lastDataVersion : Nat) (pos : SFBinlogFilePosition) : Prop :=
  ∃ before older record later after, log.files = before ++ (older ++ record :: later) :: after ∧
    Passed lastDataVersion (before.flatten ++ older) ∧
    (lastDataVersion : Int) < record.version ∧
    pos = ⟨before.length, (binlogText older).length⟩

/-- The end of the current write file. -/
def endPosition : SFBinlogFilePosition :=
  ⟨log.currentWriteIndex, (binlogText log.current).length⟩

/-- What the search is to give for a version. -/
structure Located (lastDataVersion : Nat) (ignoreDvOverflow : Bool)
    (result : Except Errno SFBinlogFilePosition) : Prop where
  found : (∃ record ∈ log.records, (lastDataVersion : Int) < record.version) →
    ∃ pos, log.FirstAfter lastDataVersion pos ∧ result = .ok pos
  none : Passed lastDataVersion log.records →
    result =
      if log.current = [] ∨ ignoreDvOverflow = true ∨
          log.records.getLast?.map ReplicaLogEntry.version = some (lastDataVersion : Int) then
        .ok log.endPosition
      else .error .eoverflow

variable {log} {before after : List (List ReplicaLogEntry)} {file : List ReplicaLogEntry}

theorem records_eq (split : log.files = before ++ file :: after) :
    log.records = before.flatten ++ (file ++ after.flatten) := by
  rw [records, split, List.flatten_append, List.flatten_cons]

/-- The last file is the current one, and the files before it are closed. -/
theorem files_cases (split : log.files = before ++ file :: after) :
    (after = [] ∧ log.closed = before ∧ log.current = file) ∨
      ∃ more, after = more ++ [log.current] ∧ log.closed = before ++ file :: more := by
  rcases List.eq_nil_or_concat' after with rfl | ⟨more, last, rfl⟩
  · obtain ⟨closed, current⟩ := List.append_inj' split rfl
    exact Or.inl ⟨rfl, closed, (List.cons.inj current).1⟩
  · rw [files, ← List.cons_append, ← List.append_assoc] at split
    obtain ⟨closed, current⟩ := List.append_inj' split rfl
    rw [(List.cons.inj current).1]
    exact Or.inr ⟨more, rfl, closed⟩

theorem fits_of_mem (split : log.files = before ++ file :: after) :
    ∀ entry ∈ file, entry.Fits := by
  intro entry member
  apply log.fits
  rw [← files, split]
  exact List.mem_flatten_of_mem (List.mem_append_right _ List.mem_cons_self) member

theorem increasing_file (split : log.files = before ++ file :: after) :
    file.Pairwise fun first second => first.version < second.version := by
  have increasing := log.increasing
  rw [← files, ← records, records_eq split] at increasing
  exact (List.pairwise_append.mp (List.pairwise_append.mp increasing).2.1).1

theorem before_lt (split : log.files = before ++ file :: after) :
    ∀ entry ∈ before.flatten, ∀ other ∈ file, entry.version < other.version := by
  have increasing := log.increasing
  rw [← files, ← records, records_eq split] at increasing
  intro entry member other inFile
  exact (List.pairwise_append.mp increasing).2.2 entry member other (List.mem_append_left _ inFile)

theorem located_of_first {lastDataVersion : Nat} {ignoreDvOverflow : Bool}
    {pos : SFBinlogFilePosition} (first : log.FirstAfter lastDataVersion pos) :
    log.Located lastDataVersion ignoreDvOverflow (.ok pos) := by
  refine ⟨fun _ => ⟨pos, first, rfl⟩, fun passed => ?_⟩
  obtain ⟨before, older, record, later, after, split, -, above, -⟩ := first
  have member : record ∈ log.records := by
    rw [records_eq split]
    exact List.mem_append_right _ (List.mem_append_left _ (List.mem_append_right _
      List.mem_cons_self))
  exact absurd (passed record member) (not_le.mpr above)

theorem content_of_split (split : log.files = before ++ file :: after) :
    log.content before.length = binlogText file := by
  rw [content, split, List.getD_eq_getElem?_getD, List.getElem?_append_right le_rfl,
    Nat.sub_self]
  rfl

/-- A reader is opened at any place between two records. -/
theorem openReadableBinlog_split {older newer : List ReplicaLogEntry}
    (split : log.files = before ++ (older ++ newer) :: after) :
    openReadableBinlog log.content before.length (binlogText older).length =
      ⟨before.length, (binlogText older).length, []⟩ := by
  rw [openReadableBinlog, content_of_split split, binlogText_append, List.length_append,
    Nat.min_eq_left (Nat.le_add_right _ _)]

theorem openReadableBinlog_end :
    openReadableBinlog log.content log.endPosition.index log.endPosition.offset =
      ⟨log.currentWriteIndex, (binlogText log.current).length, []⟩ := by
  have whole : log.files = log.closed ++ (log.current ++ []) :: [] := by
    rw [List.append_nil]
    rfl
  exact openReadableBinlog_split whole

section Search

variable {lines : LineFunctions} {size : Nat} {memory : SFBinlogFilePosition → List Char}
variable {lastDataVersion : Nat} {ignoreDvOverflow : Bool} {fuel : Nat}

/-- A file that ends behind the version is read from its start. -/
theorem located_of_read (split : log.files = before ++ file :: after)
    (room : ReplicaLogEntry.maxRecordSize < size) (enough : (binlogText file).length < fuel)
    (passed : Passed lastDataVersion before.flatten)
    (behind : ∃ entry ∈ file, (lastDataVersion : Int) < entry.version) :
    log.Located lastDataVersion ignoreDvOverflow
      (findPositionByReader log.content log.currentWriteIndex size memory lastDataVersion fuel
        (openReadableBinlog log.content before.length 0)) := by
  have opened : openReadableBinlog log.content before.length 0 =
      ⟨before.length, (binlogText []).length + ([] : List Char).length, []⟩ := by
    rw [openReadableBinlog, Nat.zero_min]
    rfl
  obtain ⟨older, record, later, parts, past, above, result⟩ :=
    @findPositionByReader_spec lastDataVersion log.content size before.length memory
      log.currentWriteIndex file (content_of_split split) (fits_of_mem split) room fuel [] file []
      rfl (List.forall_mem_nil _) behind List.not_mem_nil List.nil_prefix enough
  rw [opened, result]
  apply located_of_first
  exact ⟨before, older, record, later, after, by rw [split, parts], passed.append past, above, rfl⟩

/-- Behind files whose records are all passed the position is the start of the next file, which is
the end of the log when nothing was written to that file yet. -/
theorem located_at_start (split : log.files = before ++ file :: after)
    (passed : Passed lastDataVersion before.flatten)
    (above : ∀ entry ∈ file, (lastDataVersion : Int) < entry.version) :
    log.Located lastDataVersion ignoreDvOverflow (.ok ⟨before.length, 0⟩) := by
  cases file with
  | cons record rest =>
      apply located_of_first
      refine ⟨before, [], record, rest, after, split, ?_, above record List.mem_cons_self, rfl⟩
      rwa [List.append_nil]
  | nil =>
      rcases files_cases split with ⟨rfl, closed, current⟩ | ⟨others, -, closed⟩
      · constructor
        · rintro ⟨record, member, behind⟩
          rw [records_eq split, List.flatten_nil, List.append_nil, List.append_nil] at member
          exact absurd (passed record member) (not_le.mpr behind)
        · intro _
          rw [if_pos (Or.inl current), endPosition, current, currentWriteIndex, closed]
          rfl
      · exact absurd rfl (log.closed_ne_nil [] (closed ▸ by simp))

/-- The search in the last file that does not begin behind the version. -/
theorem findPosition_located {older : List ReplicaLogEntry} {last : ReplicaLogEntry}
    (documented : lines.Documented) (room : ReplicaLogEntry.maxRecordSize < size)
    (split : log.files = before ++ (older ++ [last]) :: after)
    (enough : (binlogText (older ++ [last])).length < fuel)
    (passed : Passed lastDataVersion before.flatten)
    (above : ∀ entry ∈ after.flatten, (lastDataVersion : Int) < entry.version) :
    log.Located lastDataVersion ignoreDvOverflow
      (findPosition lines log.content log.currentWriteIndex size memory lastDataVersion
        ignoreDvOverflow fuel before.length) := by
  have inFile : last ∈ older ++ [last] := List.mem_append_right _ (List.mem_singleton_self _)
  obtain ⟨offset, recordLen, total, version⟩ :=
    lastDataVersion_append documented (fits_of_mem split last inFile) older
  have whole (least : last.version ≤ lastDataVersion) :
      Passed lastDataVersion (before.flatten ++ (older ++ [last])) := by
    have sorted := (List.pairwise_append.mp (increasing_file split)).2.2
    apply passed.append
    apply Passed.append
    · intro entry member
      have less := sorted entry member last (List.mem_singleton_self _)
      exact le_trans (le_of_lt less) least
    · exact List.forall_mem_singleton.mpr least
  have result : findPosition lines log.content log.currentWriteIndex size memory lastDataVersion
      ignoreDvOverflow fuel before.length =
      if last.version ≤ lastDataVersion then
        if before.length < log.currentWriteIndex then .ok ⟨before.length + 1, 0⟩
        else if (lastDataVersion : Int) = last.version ∨ ignoreDvOverflow = true then
          .ok ⟨before.length, (binlogText (older ++ [last])).length⟩
        else .error .eoverflow
      else findPositionByReader log.content log.currentWriteIndex size memory lastDataVersion fuel
        (openReadableBinlog log.content before.length 0) := by
    rw [findPosition, content_of_split split, version]
    dsimp only
    rw [total]
    rcases lt_trichotomy (lastDataVersion : Int) last.version with less | same | more
    · rw [if_neg less.ne, if_neg less.le.not_gt, if_neg (not_le.mpr less)]
    · rw [if_pos same, if_pos same.ge, if_pos (Or.inl same)]
    · rw [if_neg more.ne', if_pos more, if_pos more.le]
      simp only [more.ne', false_or]
  rw [result]
  by_cases least : last.version ≤ lastDataVersion
  · rw [if_pos least]
    rcases files_cases split with ⟨rfl, closed, current⟩ | ⟨others, rfl, closed⟩
    · have isLast : ¬before.length < log.currentWriteIndex := by
        rw [currentWriteIndex, closed]
        exact lt_irrefl _
      rw [if_neg isLast]
      constructor
      · rintro ⟨record, member, behind⟩
        rw [records_eq split, List.flatten_nil, List.append_nil] at member
        exact absurd (whole least record member) (not_le.mpr behind)
      · intro _
        have ends : log.records.getLast?.map ReplicaLogEntry.version = some last.version := by
          rw [records_eq split, List.flatten_nil, List.append_nil, ← List.append_assoc,
            List.getLast?_concat]
          rfl
        have notEmpty : older ++ [last] ≠ [] := List.ne_nil_of_mem inFile
        rw [ends, endPosition, current, currentWriteIndex, closed]
        apply if_congr _ rfl rfl
        rw [Option.some_inj, or_iff_right notEmpty]
        exact or_comm.trans (or_congr_right eq_comm)
    · have notLast : before.length < log.currentWriteIndex := by
        rw [currentWriteIndex, closed, List.length_append, List.length_cons]
        omega
      rw [if_pos notLast]
      obtain ⟨next, more, rest⟩ : ∃ next more, others ++ [log.current] = next :: more :=
        List.exists_cons_of_ne_nil (List.append_ne_nil_of_right_ne_nil _ (List.cons_ne_nil _ _))
      have length : before.length + 1 = (before ++ [older ++ [last]]).length := by
        rw [List.length_append]
        rfl
      rw [rest] at split above
      rw [length]
      apply located_at_start (split.trans (List.append_cons _ _ _))
      · rw [List.flatten_append, List.flatten_singleton]
        exact whole least
      · intro entry member
        exact above entry (List.mem_flatten_of_mem List.mem_cons_self member)
  · rw [if_neg least]
    exact located_of_read split room enough passed ⟨last, inFile, not_le.mp least⟩

/-- The search over the files before an index, when the ones behind it begin behind the version. -/
theorem positionBefore_located (documented : lines.Documented)
    (room : ReplicaLogEntry.maxRecordSize < size)
    (enough : ∀ file ∈ log.files, (binlogText file).length < fuel) {index : Nat}
    (split : log.files = before ++ after) (length : before.length = index)
    (above : ∀ entry ∈ after.flatten, (lastDataVersion : Int) < entry.version) :
    log.Located lastDataVersion ignoreDvOverflow
      (positionBefore lines log.content log.currentWriteIndex size memory lastDataVersion
        ignoreDvOverflow fuel index) := by
  induction index generalizing before after with
  | zero =>
      have none := List.eq_nil_of_length_eq_zero length
      subst none
      obtain ⟨file, others, rfl⟩ : ∃ file others, after = file :: others := by
        apply List.exists_cons_of_ne_nil
        rintro rfl
        exact absurd split (List.append_ne_nil_of_right_ne_nil _ (List.cons_ne_nil _ _))
      rw [positionBefore]
      apply located_at_start split (List.forall_mem_nil _)
      intro entry member
      exact above entry (List.mem_flatten_of_mem List.mem_cons_self member)
  | succ index ih =>
      obtain ⟨before, file, rfl⟩ := (List.eq_nil_or_concat' before).resolve_left
        (List.ne_nil_of_length_pos (by omega))
      rw [List.length_append] at length
      have shorter : before.length = index := Nat.succ.inj length
      rw [List.append_assoc, List.singleton_append] at split
      rw [positionBefore, ← shorter, content_of_split split]
      cases file with
      | nil =>
          rw [binlogText_nil, firstDataVersion_nil documented]
          dsimp only
          rw [shorter]
          exact ih split shorter above
      | cons first others =>
          rw [firstDataVersion_cons documented (fits_of_mem split first List.mem_cons_self)]
          dsimp only
          by_cases begins : first.version ≤ lastDataVersion
          · rw [if_pos begins]
            have passed : Passed lastDataVersion before.flatten := by
              intro entry member
              have less := before_lt split entry member first List.mem_cons_self
              exact le_trans (le_of_lt less) begins
            have member := enough (first :: others)
              (split ▸ List.mem_append_right _ List.mem_cons_self)
            obtain ⟨older, last, ends⟩ :=
              (List.eq_nil_or_concat' (first :: others)).resolve_left (List.cons_ne_nil _ _)
            rw [ends] at split member
            exact findPosition_located documented room split member passed above
          · rw [if_neg begins, shorter]
            apply ih split shorter
            intro entry member
            rcases List.mem_append.mp (List.flatten_cons ▸ member) with inFile | later
            · rcases List.mem_cons.mp inFile with rfl | behind
              · exact not_le.mp begins
              · have less := (List.pairwise_cons.mp (increasing_file split)).1 entry behind
                exact (not_le.mp begins).trans less
            · exact above entry later

end Search

end ReplicaLog

/-- The position of a data version in a replica binlog, for any buffer that holds a record, and
with enough rounds to read a file. -/
theorem replica_binlog_position_exact (log : ReplicaLog) {lines : LineFunctions}
    (documented : lines.Documented) {size : Nat} (room : ReplicaLogEntry.maxRecordSize < size)
    (memory : SFBinlogFilePosition → List Char) (lastDataVersion : Nat) (ignoreDvOverflow : Bool)
    {fuel : Nat} (enough : ∀ file ∈ log.files, (binlogText file).length < fuel) :
    ((∃ record ∈ log.records, (lastDataVersion : Int) < record.version) →
        ∃ pos, log.FirstAfter lastDataVersion pos ∧
          replicaBinlogGetPositionByDv lines log.content log.currentWriteIndex size memory
            lastDataVersion ignoreDvOverflow fuel = .ok pos) ∧
      ((∀ record ∈ log.records, record.version ≤ lastDataVersion) →
        replicaBinlogGetPositionByDv lines log.content log.currentWriteIndex size memory
            lastDataVersion ignoreDvOverflow fuel =
          if log.current = [] ∨ ignoreDvOverflow = true ∨
              log.records.getLast?.map ReplicaLogEntry.version = some (lastDataVersion : Int) then
            .ok log.endPosition
          else .error .eoverflow) := by
  have length : log.files.length = log.currentWriteIndex + 1 := by
    rw [ReplicaLog.files, List.length_append]
    rfl
  obtain ⟨found, none⟩ := @ReplicaLog.positionBefore_located log log.files [] lines size memory
    lastDataVersion ignoreDvOverflow fuel documented room enough _
    (List.append_nil _).symm length (List.forall_mem_nil _)
  exact ⟨found, none⟩

/-- The two functions on files whose lines all fit in the buffer. -/
def wholeLines : LineFunctions where
  fcGetFirstLine content _ :=
    match (bufferLines content).head? with
    | some line => .ok line
    | none => .error .enoent
  fcGetLastLine content _ :=
    match (bufferLines content).getLast? with
    | some line => .ok (line.1, line.2, content.length)
    | none => .error .enoent

theorem wholeLines_documented : wholeLines.Documented where
  empty _ := rfl
  first := by
    intro content line rest size first _
    refine ⟨rest, ?_⟩
    rw [wholeLines]
    dsimp only
    rw [first]
  last := by
    intro content line size last _
    refine ⟨[], ?_⟩
    rw [wholeLines]
    dsimp only
    rw [last]

/-- A write of a block of its own. -/
def writeEntry (version : Nat) : ReplicaLogEntry :=
  .slice ⟨1700000000, version, .rpcMaster⟩ .writeSlice ⟨⟨7, 0⟩, ⟨0, 4096⟩⟩

theorem writeEntry_fits {version : Nat} (some : 1 ≤ version) (small : version < 2 ^ 63) :
    (writeEntry version).Fits := by
  have range : (1 : Int) ≤ version ∧ (version : Int) < 2 ^ 63 := by
    constructor
    · exact_mod_cast some
    · exact_mod_cast small
  refine .slice ⟨?_, range⟩ (Or.inl rfl) ?_ ?_
  all_goals
    constructor
    all_goals norm_num [BlockFits, BlockTaken, SliceFits, SliceTaken, IsLong, IsInt]

/-- Two files with a gap between their versions. -/
def twoFiles : ReplicaLog where
  closed := [[writeEntry 1, writeEntry 3]]
  current := [writeEntry 6]
  closed_ne_nil := by decide
  fits := by
    simp only [List.cons_append, List.nil_append, List.flatten_cons, List.flatten_nil,
      List.append_nil, List.forall_mem_cons]
    exact ⟨writeEntry_fits (by norm_num) (by norm_num), writeEntry_fits (by norm_num) (by norm_num),
      writeEntry_fits (by norm_num) (by norm_num), List.forall_mem_nil _⟩
  increasing := by decide

theorem replica_binlog_position_exact_two_files :
    (∃ pos, twoFiles.FirstAfter 2 pos ∧
        replicaBinlogGetPositionByDv wholeLines twoFiles.content twoFiles.currentWriteIndex 129
          (fun _ => []) 2 false 1000 = .ok pos) ∧
      replicaBinlogGetPositionByDv wholeLines twoFiles.content twoFiles.currentWriteIndex 129
        (fun _ => []) 7 false 1000 = .error .eoverflow := by
  have enough : ∀ file ∈ twoFiles.files, (binlogText file).length < 1000 := by decide +kernel
  constructor
  · apply (replica_binlog_position_exact twoFiles wholeLines_documented (by decide) (fun _ => []) 2
      false enough).1
    exact ⟨writeEntry 3, by decide, by decide⟩
  · refine ((replica_binlog_position_exact twoFiles wholeLines_documented (by decide) (fun _ => [])
      7 false enough).2 (by decide)).trans (if_neg (by decide))

end FastStore.Binlog
