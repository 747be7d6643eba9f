import FastStore.Binlog.Types
import FastStore.Util.Window

/-!
# Log files and the position of a timestamp

A log is a sequence of files that the writer fills one after another, and only the
file it writes now can be empty.  A reader starts at a position and goes from one
file to the next until it meets the end of the current write file.

`binlog_get_position_by_timestamp` walks back from the current write file to a
file that begins with an older record, and from there forward to the first record
that is not older.  What a reader at that position sees is the window of the log.

A position counts the records of its file, where the source counts bytes: the
readers only ever stop at line ends.
-/

namespace FastStore.Binlog

open FastStore.Util
open FastStore.Storage

/-- The fields that the records of the slice and the replica binlog share. -/
structure BinlogCommonFields where
  timestamp : Int
  source : BinlogSource
  opType : BinlogOpType
  bkey : FSBlockKey
  dataVersion : Nat
  deriving DecidableEq, Repr

namespace BinlogCommonFields

/-- `BINLOG_IS_INTERNAL_RECORD` of a record. -/
def isInternal (fields : BinlogCommonFields) : Bool :=
  binlogIsInternalRecord fields.opType fields.dataVersion

end BinlogCommonFields

/-- The files of one log in index order. -/
structure BinlogFiles where
  /-- The files before the current write file. -/
  closed : List (List BinlogCommonFields)
  /-- The file at the current write index. -/
  current : List BinlogCommonFields
  /-- The writer goes to the next file when a record does not fit any more. -/
  closed_ne_nil : ∀ file ∈ closed, file ≠ []

namespace BinlogFiles

def files (log : BinlogFiles) : List (List BinlogCommonFields) :=
  log.closed ++ [log.current]

/-- `sf_binlog_get_current_write_index`. -/
def currentWriteIndex (log : BinlogFiles) : Nat :=
  log.closed.length

def records (log : BinlogFiles) : List BinlogCommonFields :=
  log.files.flatten

end BinlogFiles

/-- `SFBinlogFilePosition`. -/
structure SFBinlogFilePosition where
  index : Nat
  offset : Nat
  deriving DecidableEq, Repr

/-- `binlog_get_first_timestamp`, `none` for the `ENOENT` of an empty file. -/
def binlogGetFirstTimestamp (file : List BinlogCommonFields) : Option Int :=
  file.head?.map (·.timestamp)

/-- `binlog_get_last_timestamp`, `none` for the `ENOENT` of an empty file. -/
def binlogGetLastTimestamp (file : List BinlogCommonFields) : Option Int :=
  file.getLast?.map (·.timestamp)

/-- The file begins with a record older than the timestamp. -/
def beginsOlder (fromTimestamp : Int) (file : List BinlogCommonFields) : Bool :=
  match binlogGetFirstTimestamp file with
  | some timestamp => timestamp < fromTimestamp
  | none => false

/-- `get_start_binlog_index_by_timestamp`, from the given index down. -/
def getStartBinlogIndexByTimestamp (files : List (List BinlogCommonFields))
    (fromTimestamp : Int) : Nat → Nat
  | 0 => 0
  | index + 1 =>
      if beginsOlder fromTimestamp (files.getD (index + 1) []) then index + 1
      else getStartBinlogIndexByTimestamp files fromTimestamp index

/-- What repeated `binlog_reader_integral_read` returns from a position: the rest
of its file and the files behind it.  A reader that has just opened a file without
a record stops there. -/
def readFrom (files : List (List BinlogCommonFields)) (pos : SFBinlogFilePosition) :
    List BinlogCommonFields :=
  match files.drop pos.index with
  | [] => []
  | file :: later => file.drop pos.offset ++ (later.takeWhile fun next => !next.isEmpty).flatten

/-- The reading loop of `binlog_get_position_by_timestamp` with `find_timestamp`,
in the file at `index` with the files `later` behind it. -/
def findTimestamp (fromTimestamp : Int) :
    Nat → List BinlogCommonFields → List (List BinlogCommonFields) → SFBinlogFilePosition
  | index, file, later =>
      match file.findIdx? fun fields => fromTimestamp ≤ fields.timestamp with
      | some offset => ⟨index, offset⟩
      | none =>
          match later with
          | [] => ⟨index, file.length⟩
          | next :: rest =>
              if next.isEmpty then ⟨index + 1, 0⟩
              else findTimestamp fromTimestamp (index + 1) next rest

/-- `binlog_get_position_by_timestamp`. -/
def binlogGetPositionByTimestamp (log : BinlogFiles) (fromTimestamp : Int) :
    SFBinlogFilePosition :=
  let start := getStartBinlogIndexByTimestamp log.files fromTimestamp log.currentWriteIndex
  match log.files.drop start with
  | [] => ⟨start, 0⟩
  | file :: later => findTimestamp fromTimestamp start file later

/-- The record is older than the timestamp. -/
def olderThan (fromTimestamp : Int) (fields : BinlogCommonFields) : Bool :=
  fields.timestamp < fromTimestamp

/-- Where the search for a timestamp starts: the log falls into the files `before`
and the files `rest`, which begin with the last file that begins with an older
record, or with the first file when no file does. -/
structure StartsAt (fromTimestamp : Int) (files before rest : List (List BinlogCommonFields)) :
    Prop where
  split : files = before ++ rest
  nonempty : rest ≠ []
  older : before = [] ∨ ∃ file later, rest = file :: later ∧ beginsOlder fromTimestamp file
  last : ∀ file ∈ rest.tail, beginsOlder fromTimestamp file = false

theorem startsAt_getStartBinlogIndexByTimestamp {files : List (List BinlogCommonFields)}
    {fromTimestamp : Int} {index : Nat} (inBounds : index < files.length)
    (newer : ∀ file ∈ files.drop (index + 1), beginsOlder fromTimestamp file = false) :
    StartsAt fromTimestamp files
      (files.take (getStartBinlogIndexByTimestamp files fromTimestamp index))
      (files.drop (getStartBinlogIndexByTimestamp files fromTimestamp index)) := by
  induction index with
  | zero =>
      refine ⟨by simp [getStartBinlogIndexByTimestamp], ?_, .inl rfl, ?_⟩
      · simpa [getStartBinlogIndexByTimestamp] using List.length_pos_iff.mp inBounds
      · simpa [getStartBinlogIndexByTimestamp] using newer
  | succ index ih =>
      have file : files.drop (index + 1) = files[index + 1] :: files.drop (index + 2) :=
        List.drop_eq_getElem_cons inBounds
      simp only [getStartBinlogIndexByTimestamp, List.getD_eq_getElem _ _ inBounds]
      cases older : beginsOlder fromTimestamp files[index + 1] with
      | true =>
          rw [if_pos rfl]
          refine ⟨(List.take_append_drop _ _).symm, List.ne_nil_of_length_pos ?_,
            .inr ⟨_, _, file, older⟩, ?_⟩
          · simpa using inBounds
          · simpa using newer
      | false =>
          rw [if_neg (by simp)]
          refine ih (Nat.lt_of_succ_lt inBounds) ?_
          intro next member
          rw [file] at member
          cases member with
          | head => exact older
          | tail _ member => exact newer next member

theorem BinlogFiles.startsAt (log : BinlogFiles) (fromTimestamp : Int) :
    ∃ start, start = getStartBinlogIndexByTimestamp log.files fromTimestamp
        log.currentWriteIndex ∧
      StartsAt fromTimestamp log.files (log.files.take start) (log.files.drop start) := by
  refine ⟨_, rfl, startsAt_getStartBinlogIndexByTimestamp ?_ ?_⟩
  · simp [BinlogFiles.files, BinlogFiles.currentWriteIndex]
  · simp [BinlogFiles.files, BinlogFiles.currentWriteIndex]

/-- Two places to start at are not behind one another. -/
theorem StartsAt.not_behind {fromTimestamp : Int}
    {files before between rest rest' : List (List BinlogCommonFields)}
    (start : StartsAt fromTimestamp files (before ++ between) rest)
    (start' : StartsAt fromTimestamp files before rest')
    (parts : rest' = between ++ rest) : between = [] := by
  cases between with
  | nil => rfl
  | cons file between =>
      obtain empty | ⟨first, later, begins, older⟩ := start.older
      · simp at empty
      · have behind : first ∈ rest'.tail := by simp [parts, begins]
        rw [start'.last first behind] at older
        cases older

/-- The search has one place to start at. -/
theorem StartsAt.unique {fromTimestamp : Int}
    {files before rest before' rest' : List (List BinlogCommonFields)}
    (start : StartsAt fromTimestamp files before rest)
    (start' : StartsAt fromTimestamp files before' rest') :
    before = before' ∧ rest = rest' := by
  have same : before ++ rest = before' ++ rest' := start.split.symm.trans start'.split
  obtain ⟨between, longer, parts⟩ | ⟨between, longer, parts⟩ :=
    List.append_eq_append_iff.mp same
  · subst longer
    have := StartsAt.not_behind start' start parts
    simp_all
  · subst longer
    have := StartsAt.not_behind start start' parts
    simp_all

section Window

variable {fromTimestamp : Int}

/-- A record is found where the older ones of the file end. -/
theorem dropWhile_olderThan_of_findIdx? {file : List BinlogCommonFields} {offset : Nat}
    (found : file.findIdx? (fun fields => decide (fromTimestamp ≤ fields.timestamp)) =
      some offset) (later : List BinlogCommonFields) :
    (file ++ later).dropWhile (olderThan fromTimestamp) = file.drop offset ++ later := by
  induction file generalizing offset with
  | nil => cases found
  | cons fields file ih =>
      rw [List.findIdx?_cons] at found
      by_cases older : fields.timestamp < fromTimestamp
      · rw [if_neg (by simpa using older)] at found
        obtain ⟨rest, located, rfl⟩ := Option.map_eq_some_iff.mp found
        simpa [olderThan, older] using ih located
      · rw [if_pos (by simpa using older)] at found
        cases found
        simp [olderThan, older]

theorem dropWhile_olderThan_of_findIdx?_none {file : List BinlogCommonFields}
    (absent : file.findIdx? (fun fields => decide (fromTimestamp ≤ fields.timestamp)) = none)
    (later : List BinlogCommonFields) :
    (file ++ later).dropWhile (olderThan fromTimestamp) =
      later.dropWhile (olderThan fromTimestamp) := by
  have older : ∀ fields ∈ file, olderThan fromTimestamp fields = true := by
    simpa [olderThan] using List.findIdx?_eq_none_iff.mp absent
  induction file with
  | nil => rfl
  | cons fields file ih =>
      rw [List.cons_append, List.dropWhile_cons_of_pos (older fields List.mem_cons_self)]
      simp only [List.findIdx?_eq_none_iff, List.mem_cons, forall_eq_or_imp] at absent ih
      exact ih absent.2 fun other member => older other (List.mem_cons_of_mem _ member)

/-- Only the last file can be empty. -/
def Filled (files : List (List BinlogCommonFields)) : Prop :=
  ∀ file ∈ files.dropLast, file ≠ []

theorem Filled.tail {file : List BinlogCommonFields} {later : List (List BinlogCommonFields)}
    (filled : Filled (file :: later)) : Filled later := by
  cases later with
  | nil => simp [Filled]
  | cons next rest => exact fun other member => filled other (List.mem_cons_of_mem _ member)

theorem Filled.eq_nil_of_empty {later : List (List BinlogCommonFields)}
    (filled : Filled ([] :: later)) : later = [] := by
  cases later with
  | nil => rfl
  | cons next rest => exact absurd rfl (filled [] List.mem_cons_self)

theorem Filled.drop {files : List (List BinlogCommonFields)} (filled : Filled files)
    (count : Nat) : Filled (files.drop count) := by
  intro file member
  rw [List.dropLast_drop_eq_drop_dropLast] at member
  exact filled file (List.mem_of_mem_drop member)

/-- A reader reads the files behind its own to the end. -/
theorem flatten_takeWhile_nonempty {later : List (List BinlogCommonFields)}
    (filled : Filled later) :
    (later.takeWhile fun next => !next.isEmpty).flatten = later.flatten := by
  induction later with
  | nil => rfl
  | cons next rest ih =>
      cases next with
      | nil => simp [filled.eq_nil_of_empty]
      | cons fields next => simpa using ih filled.tail

theorem readFrom_append (before : List (List BinlogCommonFields))
    {file : List BinlogCommonFields} {later : List (List BinlogCommonFields)}
    (filled : Filled later) (offset : Nat) :
    readFrom (before ++ file :: later) ⟨before.length, offset⟩ =
      file.drop offset ++ later.flatten := by
  simp [readFrom, flatten_takeWhile_nonempty filled]

/-- What stands before a position and what is read from it make up the log. -/
theorem take_append_readFrom {files : List (List BinlogCommonFields)} (filled : Filled files)
    (pos : SFBinlogFilePosition) :
    (files.take pos.index).flatten ++ (files.getD pos.index []).take pos.offset ++
      readFrom files pos = files.flatten := by
  by_cases inBounds : pos.index < files.length
  · have parts : files.drop pos.index = files[pos.index] :: files.drop (pos.index + 1) :=
      List.drop_eq_getElem_cons inBounds
    have later : Filled (files.drop (pos.index + 1)) := filled.drop _
    calc (files.take pos.index).flatten ++ (files.getD pos.index []).take pos.offset ++
          readFrom files pos
        _ = (files.take pos.index).flatten ++
              (files[pos.index] :: files.drop (pos.index + 1)).flatten := by
          simp only [readFrom, parts, List.getD_eq_getElem _ _ inBounds,
            flatten_takeWhile_nonempty later, List.flatten_cons, List.append_assoc]
          rw [← List.append_assoc (List.take _ _), List.take_append_drop]
        _ = files.flatten := by
          rw [← parts, ← List.flatten_append, List.take_append_drop]
  · have outside : files.length ≤ pos.index := not_lt.mp inBounds
    simp [readFrom, List.take_of_length_le outside, List.drop_of_length_le outside,
      List.getElem?_eq_none outside]

/-- The reading loop stops at the first record that is not older. -/
theorem readFrom_findTimestamp (before : List (List BinlogCommonFields))
    {file : List BinlogCommonFields} {later : List (List BinlogCommonFields)}
    (filled : Filled (file :: later)) :
    readFrom (before ++ file :: later)
        (findTimestamp fromTimestamp before.length file later) =
      (file :: later).flatten.dropWhile (olderThan fromTimestamp) := by
  induction later generalizing before file with
  | nil =>
      unfold findTimestamp
      cases located : file.findIdx? fun fields => decide (fromTimestamp ≤ fields.timestamp) with
      | some offset =>
          rw [readFrom_append before filled.tail]
          exact (dropWhile_olderThan_of_findIdx? located _).symm
      | none =>
          rw [readFrom_append before filled.tail]
          simpa using (dropWhile_olderThan_of_findIdx?_none located []).symm
  | cons next rest ih =>
      unfold findTimestamp
      cases located : file.findIdx? fun fields => decide (fromTimestamp ≤ fields.timestamp) with
      | some offset =>
          rw [readFrom_append before filled.tail]
          exact (dropWhile_olderThan_of_findIdx? located _).symm
      | none =>
          rw [List.flatten_cons, dropWhile_olderThan_of_findIdx?_none located]
          cases next with
          | nil =>
              cases filled.tail.eq_nil_of_empty
              simpa using readFrom_append (before ++ [file]) filled.tail.tail 0
          | cons fields next =>
              simpa using ih (before ++ [file]) filled.tail

end Window

namespace BinlogFiles

theorem filled (log : BinlogFiles) : Filled log.files := by
  intro file member
  exact log.closed_ne_nil file (by simpa [files] using member)

/-- What is read from the position of a timestamp: the records from the file the
search starts at, less the older ones in front. -/
def window (log : BinlogFiles) (fromTimestamp : Int) : List BinlogCommonFields :=
  readFrom log.files (binlogGetPositionByTimestamp log fromTimestamp)

theorem window_eq {log : BinlogFiles} {fromTimestamp : Int}
    {before rest : List (List BinlogCommonFields)}
    (start : StartsAt fromTimestamp log.files before rest) :
    log.window fromTimestamp = rest.flatten.dropWhile (olderThan fromTimestamp) := by
  obtain ⟨index, located, startsThere⟩ := log.startsAt fromTimestamp
  obtain ⟨rfl, rfl⟩ := start.unique startsThere
  have inBounds : index < log.files.length := by
    simpa using startsThere.nonempty
  have filled : Filled (log.files.drop index) := log.filled.drop index
  unfold window binlogGetPositionByTimestamp
  rw [← located]
  cases parts : log.files.drop index with
  | nil => exact absurd parts startsThere.nonempty
  | cons file later =>
      rw [parts] at filled
      have counted : (log.files.take index).length = index := by
        simpa using inBounds.le
      simp only [parts]
      calc readFrom log.files (findTimestamp fromTimestamp index file later)
          _ = readFrom (log.files.take index ++ file :: later)
                (findTimestamp fromTimestamp (log.files.take index).length file later) := by
            rw [counted, ← parts, List.take_append_drop]
          _ = (file :: later).flatten.dropWhile (olderThan fromTimestamp) :=
            readFrom_findTimestamp _ filled

/-- In a log whose timestamps never go back, no file before the one the search
starts at holds a record that is not older. -/
theorem older_of_mem_before {log : BinlogFiles} {fromTimestamp : Int}
    {before rest : List (List BinlogCommonFields)}
    (ordered : log.records.Pairwise fun earlier later => earlier.timestamp ≤ later.timestamp)
    (start : StartsAt fromTimestamp log.files before rest)
    {fields : BinlogCommonFields} (member : fields ∈ before.flatten) :
    fields.timestamp < fromTimestamp := by
  obtain rfl | ⟨file, later, rfl, older⟩ := start.older
  · simp at member
  · cases file with
    | nil => simp [beginsOlder, binlogGetFirstTimestamp] at older
    | cons first file =>
        have first_older : first.timestamp < fromTimestamp := by
          simpa [beginsOlder, binlogGetFirstTimestamp] using older
        rw [records, start.split, List.flatten_append, List.pairwise_append] at ordered
        have := ordered.2.2 fields member first (by simp)
        omega

/-- In a log whose timestamps never go back the window holds the records that are
not older, of all files. -/
theorem mem_window_iff {log : BinlogFiles} {fromTimestamp : Int} {fields : BinlogCommonFields}
    (ordered : log.records.Pairwise fun earlier later => earlier.timestamp ≤ later.timestamp) :
    fields ∈ log.window fromTimestamp ↔
      fields ∈ log.records ∧ fromTimestamp ≤ fields.timestamp := by
  obtain ⟨index, -, start⟩ := log.startsAt fromTimestamp
  have parts : log.records =
      (log.files.take index).flatten ++ (log.files.drop index).flatten := by
    rw [records, ← List.flatten_append, ← start.split]
  have ordered_rest := ordered
  rw [parts, List.pairwise_append] at ordered_rest
  rw [window_eq start, mem_dropWhile_iff]
  · simp only [parts, List.mem_append, olderThan, decide_eq_false_iff_not, not_lt]
    constructor
    · rintro ⟨member, newer⟩
      exact ⟨.inr member, newer⟩
    · rintro ⟨member | member, newer⟩
      · exact absurd (older_of_mem_before ordered start member) (not_lt.mpr newer)
      · exact ⟨member, newer⟩
  · refine ordered_rest.2.1.imp ?_
    intro earlier later monotone newer
    simp only [olderThan, decide_eq_false_iff_not, not_lt] at newer ⊢
    exact newer.trans monotone

end BinlogFiles

end FastStore.Binlog
