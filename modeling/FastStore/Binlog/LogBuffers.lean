import FastStore.Binlog.LogLines
import FastStore.Util.LineBuffers

/-!
# The slice binlog in a buffer

The load of the slice binlog parses the lines of a buffer where they stand, so the number of a
column is read with the rest of the buffer behind it.  The lines that are logged are read again
from the buffer as they were written, by the load and by the reader of the common fields.
-/

namespace FastStore.Binlog

open FastStore.Util FastStore.Storage

/-! ## Parsing in a buffer -/

/-- `split_string_ex` of a line with the end of the line and more text behind it. -/
def splitLine (line rest : List Char) (maxCount : Nat) : List (List Char) :=
  (behind (columns line) ('\n' :: rest)).take maxCount

/-- `slice_parse_line` of a line that ends before the text `rest`. -/
def sliceParseLineIn (paths : StorePaths) (line rest : List Char) : Option SliceBinlogRecord :=
  sliceParseCols paths (splitLine line rest 16)

/-- `parse_buffer` of the slice loader, `none` for an error; `beyond` is the memory behind the
buffer. -/
def parseBuffer (paths : StorePaths) (beyond buffer : List Char) :
    Option (List SliceBinlogRecord) :=
  (bufferLines buffer).mapM fun line => sliceParseLineIn paths line.1 (line.2 ++ beyond)

/-- `binlog_unpack_common_fields` of a line that ends before the text `rest`. -/
def binlogUnpackCommonFieldsIn (line rest : List Char) : Option CommonLine :=
  commonUnpackCols (splitLine line rest 16)

/-- The common fields of the lines of a buffer. -/
def unpackCommonLines (beyond buffer : List Char) : Option (List CommonLine) :=
  (bufferLines buffer).mapM fun line => binlogUnpackCommonFieldsIn line.1 (line.2 ++ beyond)

/-! ## Columns with text behind the line -/

section Behind

variable {cols : List (List Char)} {index : Nat} {rest : List Char}

theorem parseInt_behind (solid : ∀ column ∈ cols, Solid column) (inside : index < cols.length)
    {ends : List Char} (spaces : ∀ endChr ∈ ends, isSpace endChr = true) (cast : Int → Int)
    (minVal : Int) :
    Below (parseInt cast ends minVal (col cols index))
      (parseInt cast ends minVal (col (behind cols rest) index)) := by
  have column : col cols index = cols[index] := List.getD_eq_getElem cols [] inside
  have later : col (behind cols rest) index = cols[index] ++ rest := by
    rw [col, col_behind_getD inside, ← col, column]
  rw [column, later]
  exact parseInt_append (solid _ (List.getElem_mem inside)) spaces rest

theorem colChar_behind (solid : ∀ column ∈ cols, Solid column) (inside : index < cols.length) :
    colChar (behind cols rest) index = colChar cols index := by
  have column : col cols index = cols[index] := List.getD_eq_getElem cols [] inside
  obtain ⟨char, first, -⟩ := solid _ (List.getElem_mem inside)
  rw [colChar, col, col_behind_getD inside, colChar, ← col, column]
  cases text : cols[index] with
  | nil =>
      rw [text] at first
      cases first
  | cons head text => rfl

theorem space_isSpace : ∀ endChr ∈ [' '], isSpace endChr = true :=
  List.forall_mem_singleton.mpr rfl

theorem newline_isSpace : ∀ endChr ∈ ['\n'], isSpace endChr = true :=
  List.forall_mem_singleton.mpr rfl

theorem ends_isSpace : ∀ endChr ∈ [' ', '\n'], isSpace endChr = true :=
  List.forall_mem_cons.mpr ⟨rfl, newline_isSpace⟩

theorem addSliceSetFields_behind (solid : ∀ column ∈ cols, Solid column) (paths : StorePaths)
    (opType : BinlogOpType) (sliceType : OBSliceType) (bkey : FSBlockKey) :
    Below (addSliceSetFields paths opType sliceType bkey cols)
      (addSliceSetFields paths opType sliceType bkey (behind cols rest)) := by
  unfold addSliceSetFields
  rw [length_behind]
  by_cases count : cols.length ≠ 13
  · rw [if_pos count]
    exact nofun
  · have all : cols.length = 13 := not_not.mp count
    have space {index : Nat} (inside : index < 13) :=
      @parseInt_behind cols index rest solid (by omega) [' '] space_isSpace
    rw [if_neg count, if_neg count]
    apply (space (by norm_num) toInt 0).bind
    intro offset
    apply (space (by norm_num) toInt 1).bind
    intro length
    apply (space (by norm_num) toInt 0).bind
    intro pathIndex
    apply Below.ite
    apply (space (by norm_num) id 1).bind
    intro trunkId
    apply (space (by norm_num) id 1).bind
    intro subdir
    apply (space (by norm_num) id 0).bind
    intro spaceOffset
    apply (parseInt_behind solid (by omega) newline_isSpace id 0).bind
    intro size
    exact Below.rfl _

theorem delSliceSetFields_behind (solid : ∀ column ∈ cols, Solid column) (bkey : FSBlockKey) :
    Below (delSliceSetFields bkey cols) (delSliceSetFields bkey (behind cols rest)) := by
  unfold delSliceSetFields
  rw [length_behind]
  by_cases count : cols.length ≠ 8
  · rw [if_pos count]
    exact nofun
  · rw [if_neg count, if_neg count]
    apply (parseInt_behind solid (by omega) space_isSpace toInt 0).bind
    intro offset
    apply (parseInt_behind solid (by omega) newline_isSpace toInt 1).bind
    intro length
    exact Below.rfl _

theorem delBlockSetFields_behind (bkey : FSBlockKey) :
    delBlockSetFields bkey (behind cols rest) = delBlockSetFields bkey cols := by
  rw [delBlockSetFields, length_behind, delBlockSetFields]

/-- What the load takes from a line does not depend on what stands behind the line. -/
theorem sliceParseCols_behind (solid : ∀ column ∈ cols, Solid column) (paths : StorePaths) :
    Below (sliceParseCols paths cols) (sliceParseCols paths (behind cols rest)) := by
  unfold sliceParseCols
  rw [length_behind]
  by_cases count : cols.length < 6
  · rw [if_pos count]
    exact nofun
  · rw [if_neg count, if_neg count, colChar_behind solid (by omega)]
    apply (parseInt_behind solid (by omega) space_isSpace id 1).bind
    intro oid
    apply (parseInt_behind solid (by omega) _ id 0).bind
    · intro offset
      split
      · exact addSliceSetFields_behind solid paths _ _ _
      · exact addSliceSetFields_behind solid paths _ _ _
      · exact delSliceSetFields_behind solid _
      · rw [delBlockSetFields_behind]
        exact Below.rfl _
      · exact Below.rfl none
    · split_ifs
      · exact newline_isSpace
      · exact space_isSpace

theorem commonUnpackCols_behind (solid : ∀ column ∈ cols, Solid column) :
    Below (commonUnpackCols cols) (commonUnpackCols (behind cols rest)) := by
  unfold commonUnpackCols
  rw [length_behind]
  by_cases count : cols.length < 6
  · rw [if_pos count]
    exact nofun
  · rw [if_neg count, if_neg count, colChar_behind solid (by omega),
      colChar_behind solid (by omega)]
    apply (parseInt_behind solid (by omega) space_isSpace id 0).bind
    intro timestamp
    apply (parseInt_behind solid (by omega) space_isSpace id 0).bind
    intro dataVersion
    apply (parseInt_behind solid (by omega) space_isSpace id 1).bind
    intro oid
    apply (parseInt_behind solid (by omega) ends_isSpace id 0).bind
    intro offset
    exact Below.rfl _

end Behind

/-! ### The fields of a line -/

section Fields

variable (head : LineHead) (opType : BinlogOpType) (bkey : FSBlockKey) (numbers : List Int)

/-- A property of the numbers, the sources and the operations is one of every field. -/
theorem forall_mem_fields {property : List Char → Prop}
    (number : ∀ number, property (decimal number))
    (source : ∀ source : BinlogSource, property [source.char])
    (op : ∀ opType : BinlogOpType, property [opType.char]) :
    ∀ field ∈ headFields head opType bkey ++ numbers.map decimal, property field := by
  have first : ∀ field ∈ headFields head opType bkey, property field := by
    simp only [headFields, List.forall_mem_cons]
    exact ⟨number _, number _, source _, op _, number _, number _, List.forall_mem_nil _⟩
  intro field member
  rcases List.mem_append.mp member with left | later
  · exact first field left
  · obtain ⟨value, -, rfl⟩ := List.mem_map.mp later
    exact number value

theorem solid_fields :
    ∀ field ∈ headFields head opType bkey ++ numbers.map decimal, Solid field := by
  apply forall_mem_fields head opType bkey numbers solid_decimal
  · intro source
    cases source <;> exact ⟨_, rfl, rfl⟩
  · intro opType
    cases opType <;> exact ⟨_, rfl, rfl⟩

theorem noEnd_fields :
    ∀ field ∈ headFields head opType bkey ++ numbers.map decimal, '\n' ∉ field := by
  have noDigit (number : Int) : '\n' ∉ decimal number := not_mem_decimal rfl (by decide)
  apply @forall_mem_fields head opType bkey numbers (fun field => '\n' ∉ field) noDigit
  · intro source
    cases source <;> decide
  · intro opType
    cases opType <;> decide

/-- The columns of a line in a buffer are those of the line with the text behind it. -/
theorem splitLine_lineBody (fields : List (List Char)) (rest : List Char) (maxCount : Nat) :
    splitLine (lineBody fields) rest maxCount =
      behind ((columns (lineOf fields)).take maxCount) rest := by
  have blank : ' ' ∉ ['\n'] := by decide
  rw [lineOf_eq, columns_behind blank, ← take_behind, splitLine]
  congr 1
  rw [behind, behind, behind, List.map_map]
  apply List.map_congr_left
  intro column _
  rw [Function.comp_apply, List.append_assoc]
  rfl

theorem solid_splitLine (maxCount : Nat) :
    ∀ column ∈ (columns (lineOf (headFields head opType bkey ++ numbers.map decimal))).take
      maxCount, Solid column := by
  intro column member
  apply solid_columns (List.cons_ne_nil _ _) (noBlank_line head opType bkey numbers)
    (solid_fields head opType bkey numbers)
  exact List.mem_of_mem_take member

end Fields

/-! ## Logs -/

/-- What is logged by `slice_binlog_log_add_slice`, `slice_binlog_log_del_slice` and
`slice_binlog_log_del_block`. -/
inductive SliceLogEntry where
  | addSlice (head : LineHead) (slice : OBSliceEntry)
  | delSlice (head : LineHead) (bsKey : FSBlockSliceKeyInfo)
  | delBlock (head : LineHead) (bkey : FSBlockKey)
  deriving DecidableEq, Repr

namespace SliceLogEntry

def head : SliceLogEntry → LineHead
  | addSlice head _ | delSlice head _ | delBlock head _ => head

def opType : SliceLogEntry → BinlogOpType
  | addSlice _ slice => match slice.type with | .file => .writeSlice | .alloc => .allocSlice
  | delSlice _ _ => .delSlice
  | delBlock _ _ => .delBlock

def bkey : SliceLogEntry → FSBlockKey
  | addSlice _ slice => slice.ob
  | delSlice _ bsKey => bsKey.block
  | delBlock _ bkey => bkey

/-- The numbers behind the block. -/
def numbers : SliceLogEntry → List Int
  | addSlice _ slice => addSliceNumbers slice.ssize slice.space
  | delSlice _ bsKey => [bsKey.slice.offset, bsKey.slice.length]
  | delBlock _ _ => []

/-- The line that is written. -/
def line : SliceLogEntry → List Char
  | addSlice head slice => addSliceLine head slice
  | delSlice head bsKey => sliceLine head .delSlice bsKey
  | delBlock head bkey => blockLine head .delBlock bkey

/-- The record that is loaded. -/
def record : SliceLogEntry → SliceBinlogRecord
  | addSlice _ slice => sliceBinlogLogAddSlice slice
  | delSlice _ bsKey => sliceBinlogLogDelSlice bsKey
  | delBlock _ bkey => sliceBinlogLogDelBlock bkey

/-- The fields that both logs share. -/
def common (entry : SliceLogEntry) : CommonLine :=
  ⟨entry.head.currentTime, entry.head.dataVersion, entry.head.source.char, entry.opType.char,
    entry.bkey⟩

/-- The fields of an entry are in their ranges, with a store path that is configured. -/
inductive Fits (paths : StorePaths) : SliceLogEntry → Prop where
  | addSlice {head : LineHead} {slice : OBSliceEntry} (read : head.Read)
      (block : BlockFits slice.ob ∧ BlockTaken slice.ob)
      (range : SliceFits slice.ssize ∧ SliceTaken slice.ssize) (held : paths.Holds slice.space) :
      Fits paths (.addSlice head slice)
  | delSlice {head : LineHead} {bsKey : FSBlockSliceKeyInfo} (read : head.Read)
      (block : BlockFits bsKey.block ∧ BlockTaken bsKey.block)
      (range : SliceFits bsKey.slice ∧ SliceTaken bsKey.slice) :
      Fits paths (.delSlice head bsKey)
  | delBlock {head : LineHead} {bkey : FSBlockKey} (read : head.Read)
      (block : BlockFits bkey ∧ BlockTaken bkey) : Fits paths (.delBlock head bkey)

variable {paths : StorePaths} {entry : SliceLogEntry}

theorem Fits.read (fits : entry.Fits paths) : entry.head.Read := by
  cases fits with
  | addSlice read block range held => exact read
  | delSlice read block range => exact read
  | delBlock read block => exact read

theorem Fits.block (fits : entry.Fits paths) : BlockFits entry.bkey ∧ BlockTaken entry.bkey := by
  cases fits with
  | addSlice read block range held => exact block
  | delSlice read block range => exact block
  | delBlock read block => exact block

/-- The fields of the line. -/
def fields (entry : SliceLogEntry) : List (List Char) :=
  headFields entry.head entry.opType entry.bkey ++ entry.numbers.map decimal

theorem line_eq (entry : SliceLogEntry) : entry.line = lineOf entry.fields := by
  cases entry with
  | addSlice head slice => rfl
  | delSlice head bsKey => rfl
  | delBlock head bkey => rfl

theorem sliceParseLine_line (fits : entry.Fits paths) :
    sliceParseLine paths entry.line = some entry.record := by
  cases fits with
  | addSlice read block range held =>
      rw [line, sliceParseLine_addSliceLine block.1 range.1 held, if_pos ⟨block.2, range.2⟩]
      rfl
  | delSlice read block range =>
      rw [line, sliceParseLine_sliceLine paths block.1 range.1, if_pos ⟨block.2, range.2⟩]
      rfl
  | delBlock read block =>
      rw [line, sliceParseLine_blockLine paths block.1, if_pos block.2]
      rfl

theorem binlogUnpackCommonFields_line (fits : entry.Fits paths) :
    binlogUnpackCommonFields entry.line = some entry.common := by
  rw [line_eq, fields, binlogUnpackCommonFields_eq fits.read fits.block.1, if_pos fits.block.2]
  rfl

theorem sliceParseLineIn_fields (fits : entry.Fits paths) (rest : List Char) :
    sliceParseLineIn paths (lineBody entry.fields) rest = some entry.record := by
  have parsed := sliceParseLine_line fits
  rw [line_eq, sliceParseLine] at parsed
  rw [sliceParseLineIn, splitLine_lineBody]
  exact sliceParseCols_behind (solid_splitLine _ _ _ _ 16) paths _ parsed

theorem binlogUnpackCommonFieldsIn_fields (fits : entry.Fits paths) (rest : List Char) :
    binlogUnpackCommonFieldsIn (lineBody entry.fields) rest = some entry.common := by
  have unpacked := binlogUnpackCommonFields_line fits
  rw [line_eq, binlogUnpackCommonFields] at unpacked
  rw [binlogUnpackCommonFieldsIn, splitLine_lineBody]
  exact commonUnpackCols_behind (solid_splitLine _ _ _ _ 16) _ unpacked

theorem noEnd_lineBody (entry : SliceLogEntry) : '\n' ∉ lineBody entry.fields :=
  not_mem_lineBody (by decide) (noEnd_fields _ _ _ _)

/-! ### The length of a line -/

theorem length_decimal_of_long {number : Int} (least : 0 ≤ number) (most : number < 2 ^ 63) :
    (decimal number).length ≤ 19 :=
  length_decimal_le least (most.trans (by norm_num))

theorem length_headFields (read : entry.head.Read)
    (block : BlockFits entry.bkey ∧ BlockTaken entry.bkey) :
    ((headFields entry.head entry.opType entry.bkey).map List.length).sum ≤ 78 := by
  have time := length_decimal_of_long read.currentTime.1 read.currentTime.2
  have version := length_decimal_of_long read.dataVersion.1 read.dataVersion.2
  have oid := length_decimal_of_long (le_trans (by norm_num) block.2.1) block.1.1.2
  have offset := length_decimal_of_long block.2.2 block.1.2.2
  simp only [headFields, List.map_cons, List.map_nil, List.sum_cons, List.sum_nil,
    List.length_cons, List.length_nil]
  omega

theorem length_numbers (fits : entry.Fits paths) :
    (entry.numbers.map fun number => (decimal number).length).sum ≤ 106 ∧
      entry.numbers.length ≤ 7 := by
  have int {number : Int} (least : 0 ≤ number) (most : number < 2147483648) :
      (decimal number).length ≤ 10 :=
    length_decimal_le least (most.trans (by norm_num))
  cases fits with
  | addSlice read block range held =>
      have start := int range.2.1 range.1.1.2
      have length := int (le_trans (by norm_num) range.2.2) range.1.2.2
      have store := int (Int.natCast_nonneg _) held.store.2.2
      have trunk := length_decimal_of_long (le_trans (by norm_num) held.id.1) held.id.2
      have subdir := length_decimal_of_long (le_trans (by norm_num) held.subdir.1) held.subdir.2
      have offset := length_decimal_of_long held.offset.1 held.offset.2
      have size := length_decimal_of_long held.size.1 held.size.2
      simp only [numbers, addSliceNumbers, List.map_cons, List.map_nil, List.sum_cons,
        List.sum_nil, List.length_cons, List.length_nil]
      omega
  | delSlice read block range =>
      have start := int range.2.1 range.1.1.2
      have length := int (le_trans (by norm_num) range.2.2) range.1.2.2
      simp only [numbers, List.map_cons, List.map_nil, List.sum_cons, List.sum_nil,
        List.length_cons, List.length_nil]
      omega
  | delBlock read block => exact ⟨Nat.zero_le _, Nat.zero_le _⟩

/-- `FS_SLICE_BINLOG_MAX_RECORD_SIZE`. -/
def maxRecordSize : Nat := 256

/-- The line fits in the buffer of a record with the zero that `sprintf` puts behind it. -/
theorem length_line (fits : entry.Fits paths) : entry.line.length < maxRecordSize := by
  have first := length_headFields fits.read fits.block
  obtain ⟨later, count⟩ := length_numbers fits
  have some : entry.fields ≠ [] := List.cons_ne_nil _ _
  have head : (headFields entry.head entry.opType entry.bkey).length = 6 := rfl
  rw [line_eq, length_lineOf some, fields, List.map_append, List.sum_append, List.map_map,
    List.length_append, List.length_map, head]
  change (entry.numbers.map (List.length ∘ decimal)).sum ≤ 106 at later
  rw [maxRecordSize]
  omega

end SliceLogEntry

/-- A log that is written line by line is loaded as it was written, and so are the common fields
of its lines, whatever the memory behind the buffer holds. -/
theorem slice_binlog_round_trip (paths : StorePaths) (entries : List SliceLogEntry)
    (fits : ∀ entry ∈ entries, entry.Fits paths) (beyond : List Char) :
    (∀ entry ∈ entries, entry.line.length < SliceLogEntry.maxRecordSize) ∧
      parseBuffer paths beyond (entries.flatMap SliceLogEntry.line) =
        some (entries.map SliceLogEntry.record) ∧
      unpackCommonLines beyond (entries.flatMap SliceLogEntry.line) =
        some (entries.map SliceLogEntry.common) := by
  refine ⟨fun entry member => SliceLogEntry.length_line (fits entry member), ?_, ?_⟩
  · apply mapM_bufferLines
    intro entry member
    refine ⟨lineBody entry.fields, ?_, entry.noEnd_lineBody, fun rest => ?_⟩
    · rw [SliceLogEntry.line_eq, lineOf_eq]
    · exact SliceLogEntry.sliceParseLineIn_fields (fits entry member) _
  · apply mapM_bufferLines
    intro entry member
    refine ⟨lineBody entry.fields, ?_, entry.noEnd_lineBody, fun rest => ?_⟩
    · rw [SliceLogEntry.line_eq, lineOf_eq]
    · exact SliceLogEntry.binlogUnpackCommonFieldsIn_fields (fits entry member) _

/-- A server with one store path. -/
def oneStorePath : StorePaths := ⟨0, fun index => index == 0⟩

/-- A log with an entry of each kind. -/
def eachKind : List SliceLogEntry :=
  [.addSlice ⟨1700000000, 1, .rpcMaster⟩
      ⟨⟨9223372036854775807, 4194304⟩, .file, ⟨0, 2147483647⟩, ⟨0, ⟨1, 1⟩, 0, 4096⟩⟩,
    .delSlice ⟨1700000000, 2, .rpcSlave⟩ ⟨⟨7, 0⟩, ⟨16, 8⟩⟩,
    .delBlock ⟨1700000001, 0, .reclaim⟩ ⟨7, 0⟩]

theorem slice_binlog_round_trip_each_kind :
    (∀ entry ∈ eachKind, entry.line.length < SliceLogEntry.maxRecordSize) ∧
      parseBuffer oneStorePath ['7'] (eachKind.flatMap SliceLogEntry.line) =
        some (eachKind.map SliceLogEntry.record) ∧
      unpackCommonLines ['7'] (eachKind.flatMap SliceLogEntry.line) =
        some (eachKind.map SliceLogEntry.common) := by
  apply slice_binlog_round_trip
  have held : oneStorePath.Holds ⟨0, ⟨1, 1⟩, 0, 4096⟩ :=
    ⟨⟨le_rfl, by decide, by decide⟩, rfl, by decide, by decide, by decide, by decide⟩
  simp only [eachKind, List.forall_mem_cons]
  refine ⟨.addSlice ?_ ?_ ?_ held, .delSlice ?_ ?_ ?_, .delBlock ?_ ?_, List.forall_mem_nil _⟩
  any_goals
    constructor
    all_goals norm_num [BlockFits, BlockTaken, SliceFits, SliceTaken, IsLong, IsInt]

end FastStore.Binlog
