import FastStore.Binlog.SliceLoader
import FastStore.Util.Decimal
import FastStore.Util.Wire

/-!
# The lines of the logs

The lines that the slice binlog and the replica binlog write for an update, and the three parsers
that read them again: one for the load of the slice binlog, one for the replica binlog, and one
for the fields that both share.  Each parser has limits of its own for the numbers of a line.
-/

namespace FastStore.Binlog

open FastStore.Util FastStore.Storage

/-! ## Writing -/

/-- `BINLOG_OP_TYPE_*` as it is written. -/
def BinlogOpType.char : BinlogOpType → Char
  | .writeSlice => 'w'
  | .allocSlice => 'a'
  | .delSlice => 'd'
  | .delBlock => 'D'
  | .noOp => 'N'

/-- `BINLOG_SOURCE_*` as it is written. -/
def BinlogSource.char : BinlogSource → Char
  | .reclaim => 'M'
  | .rpcMaster => 'C'
  | .rpcSlave => 'c'
  | .replay => 'r'

/-- What every line begins with. -/
structure LineHead where
  currentTime : Int
  dataVersion : Int
  source : BinlogSource
  deriving DecidableEq, Repr

section Lines

variable (head : LineHead)

/-- The fields up to the block. -/
def headFields (opType : BinlogOpType) (bkey : FSBlockKey) : List (List Char) :=
  [decimal head.currentTime, decimal head.dataVersion, [head.source.char], [opType.char],
    decimal bkey.oid, decimal bkey.offset]

/-- The line of `slice_binlog_log_add_slice`. -/
def addSliceLine (slice : OBSliceEntry) : List Char :=
  lineOf (headFields head (match slice.type with | .file => .writeSlice | .alloc => .allocSlice)
      slice.ob ++
    [decimal slice.ssize.offset, decimal slice.ssize.length, decimal slice.space.store,
      decimal slice.space.idInfo.id, decimal slice.space.idInfo.subdir,
      decimal slice.space.offset, decimal slice.space.size])

/-- The line of `slice_binlog_log_del_slice` and `replica_binlog_log_slice`. -/
def sliceLine (opType : BinlogOpType) (bsKey : FSBlockSliceKeyInfo) : List Char :=
  lineOf (headFields head opType bsKey.block ++
    [decimal bsKey.slice.offset, decimal bsKey.slice.length])

/-- The line of `slice_binlog_log_del_block` and `replica_binlog_log_block`. -/
def blockLine (opType : BinlogOpType) (bkey : FSBlockKey) : List Char :=
  lineOf (headFields head opType bkey)

end Lines

/-! ## Parsing -/

/-- `STORAGE_CFG.max_store_path_index` and the entries of `PATHS_BY_INDEX_PPTR`. -/
structure StorePaths where
  maxStorePathIndex : Int
  present : Nat → Bool

section Parsers

/-- The column of an index, and its first character. -/
def col (cols : List (List Char)) (index : Nat) : List Char := cols.getD index []

def colChar (cols : List (List Char)) (index : Nat) : Char := (col cols index).headD '\n'

/-- `add_slice_set_fields`; the offset and the length of a slice and the index of a path are
`int`s. -/
def addSliceSetFields (paths : StorePaths) (opType : BinlogOpType) (sliceType : OBSliceType)
    (bkey : FSBlockKey) (cols : List (List Char)) : Option SliceBinlogRecord :=
  if cols.length ≠ 13 then none
  else do
    let offset ← parseInt toInt [' '] 0 (col cols 6)
    let length ← parseInt toInt [' '] 1 (col cols 7)
    let pathIndex ← parseInt toInt [' '] 0 (col cols 8)
    if paths.maxStorePathIndex < pathIndex ∨ paths.present pathIndex.toNat = false then none
    else
      let trunkId ← parseInt id [' '] 1 (col cols 9)
      let subdir ← parseInt id [' '] 1 (col cols 10)
      let spaceOffset ← parseInt id [' '] 0 (col cols 11)
      let size ← parseInt id ['\n'] 0 (col cols 12)
      some ⟨opType, sliceType, ⟨bkey, ⟨offset, length⟩⟩,
        ⟨pathIndex.toNat, ⟨trunkId, subdir⟩, spaceOffset, size⟩⟩

/-- `del_slice_set_fields`. -/
def delSliceSetFields (bkey : FSBlockKey) (cols : List (List Char)) : Option SliceBinlogRecord :=
  if cols.length ≠ 8 then none
  else do
    let offset ← parseInt toInt [' '] 0 (col cols 6)
    let length ← parseInt toInt ['\n'] 1 (col cols 7)
    some (sliceBinlogLogDelSlice ⟨bkey, ⟨offset, length⟩⟩)

/-- `del_block_set_fields`. -/
def delBlockSetFields (bkey : FSBlockKey) (cols : List (List Char)) : Option SliceBinlogRecord :=
  if cols.length ≠ 6 then none else some (sliceBinlogLogDelBlock bkey)

/-- `slice_parse_line` once the line is split, `none` for an error. -/
def sliceParseCols (paths : StorePaths) (cols : List (List Char)) : Option SliceBinlogRecord :=
  if cols.length < 6 then none
  else do
    let oid ← parseInt id [' '] 1 (col cols 4)
    let offset ← parseInt id [if colChar cols 3 = 'D' then '\n' else ' '] 0 (col cols 5)
    match colChar cols 3 with
    | 'w' => addSliceSetFields paths .writeSlice .file ⟨oid, offset⟩ cols
    | 'a' => addSliceSetFields paths .allocSlice .alloc ⟨oid, offset⟩ cols
    | 'd' => delSliceSetFields ⟨oid, offset⟩ cols
    | 'D' => delBlockSetFields ⟨oid, offset⟩ cols
    | _ => none

/-- `slice_parse_line` of a line with nothing behind it. -/
def sliceParseLine (paths : StorePaths) (line : List Char) : Option SliceBinlogRecord :=
  sliceParseCols paths ((columns line).take 16)

/-- `ReplicaBinlogRecord` as the parser fills it. -/
structure ReplicaLine where
  opType : Char
  source : Char
  bsKey : FSBlockSliceKeyInfo
  dataVersion : Int
  deriving DecidableEq, Repr

/-- `unpack_slice_record`. -/
def unpackSliceRecord (cols : List (List Char)) : Option FSBlockSliceKeyInfo :=
  if cols.length ≠ 8 then none
  else do
    let oid ← parseInt id [' '] 1 (col cols 4)
    let offset ← parseInt id [' '] 0 (col cols 5)
    let sliceOffset ← parseInt toInt [' '] 0 (col cols 6)
    let sliceLength ← parseInt toInt ['\n'] 1 (col cols 7)
    some ⟨⟨oid, offset⟩, ⟨sliceOffset, sliceLength⟩⟩

/-- `unpack_block_record`, which leaves the slice unset. -/
def unpackBlockRecord (cols : List (List Char)) : Option FSBlockSliceKeyInfo :=
  if cols.length ≠ 6 then none
  else do
    let oid ← parseInt id [' '] 1 (col cols 4)
    let offset ← parseInt id ['\n'] 0 (col cols 5)
    some ⟨⟨oid, offset⟩, ⟨0, 0⟩⟩

/-- `replica_binlog_record_unpack` once the line is split, `none` for an error. -/
def replicaUnpackCols (cols : List (List Char)) : Option ReplicaLine :=
  if cols.length < 6 then none
  else do
    let dataVersion ← parseInt id [' '] 1 (col cols 1)
    let bsKey ← match colChar cols 3 with
      | 'w' | 'a' | 'd' => unpackSliceRecord cols
      | 'D' | 'N' => unpackBlockRecord cols
      | _ => none
    some ⟨colChar cols 3, colChar cols 2, bsKey, dataVersion⟩

/-- `replica_binlog_record_unpack` of a line with nothing behind it. -/
def replicaBinlogRecordUnpack (line : List Char) : Option ReplicaLine :=
  replicaUnpackCols ((columns line).take 8)

/-- `BinlogCommonFields` as the parser fills it. -/
structure CommonLine where
  timestamp : Int
  dataVersion : Int
  source : Char
  opType : Char
  bkey : FSBlockKey
  deriving DecidableEq, Repr

/-- `binlog_unpack_common_fields` once the line is split, `none` for an error. -/
def commonUnpackCols (cols : List (List Char)) : Option CommonLine :=
  if cols.length < 6 then none
  else do
    let timestamp ← parseInt id [' '] 0 (col cols 0)
    let dataVersion ← parseInt id [' '] 0 (col cols 1)
    let oid ← parseInt id [' '] 1 (col cols 4)
    let offset ← parseInt id [' ', '\n'] 0 (col cols 5)
    some ⟨timestamp, dataVersion, colChar cols 2, colChar cols 3, ⟨oid, offset⟩⟩

/-- `binlog_unpack_common_fields` of a line with nothing behind it. -/
def binlogUnpackCommonFields (line : List Char) : Option CommonLine :=
  commonUnpackCols ((columns line).take 16)

end Parsers

/-! ## What the parsers accept -/

section Columns

variable {fields : List (List Char)} {count index : Nat} {rest : List (List Char)}

theorem length_columns (some : fields ≠ []) (noBlank : ∀ field ∈ fields, ' ' ∉ field) :
    ((columns (lineOf fields)).take count).length = min count fields.length := by
  rw [columns_lineOf some noBlank, List.length_take, List.length_map, List.length_range]

theorem col_lineOf (noBlank : ∀ field ∈ fields, ' ' ∉ field) (inside : index < count)
    {field : List Char} (found : fields.drop index = field :: rest) :
    col ((columns (lineOf fields)).take count) index = lineOf (field :: rest) := by
  have within : index < fields.length := by
    by_contra behind
    rw [List.drop_eq_nil_of_le (Nat.not_lt.mp behind)] at found
    cases found
  have some : fields ≠ [] := List.ne_nil_of_length_pos (Nat.zero_lt_of_lt within)
  rw [col, List.getD_eq_getElem?_getD, List.getElem?_take_of_lt inside,
    columns_lineOf some noBlank, List.getElem?_map, List.getElem?_range within, ← found]
  rfl

theorem colChar_lineOf (noBlank : ∀ field ∈ fields, ' ' ∉ field) (inside : index < count)
    {char : Char} (found : fields.drop index = [char] :: rest) :
    colChar ((columns (lineOf fields)).take count) index = char := by
  rw [colChar, col_lineOf noBlank inside found]
  rfl

theorem parseInt_col (noBlank : ∀ field ∈ fields, ' ' ∉ field) (inside : index < count)
    {number : Int} (found : fields.drop index = decimal number :: rest)
    {cast : Int → Int} (low : -(2 ^ 63) ≤ number) (high : number < 2 ^ 63)
    (kept : cast number = number) {ends : List Char} (ended : endOf rest ∈ ends) (minVal : Int) :
    parseInt cast ends minVal (col ((columns (lineOf fields)).take count) index) =
      if minVal ≤ number then some number else none := by
  rw [col_lineOf noBlank inside found]
  exact parseInt_lineOf low high kept ended minVal

end Columns

/-! ### Numbers that fit in their variables -/

/-- The number fits in an `int`. -/
def IsInt (number : Int) : Prop := -2147483648 ≤ number ∧ number < 2147483648

/-- The number fits in an `int64_t`. -/
def IsLong (number : Int) : Prop := -(2 ^ 63) ≤ number ∧ number < 2 ^ 63

theorem IsInt.isLong {number : Int} (isInt : IsInt number) : IsLong number :=
  ⟨le_trans (by norm_num) isInt.1, isInt.2.trans (by norm_num)⟩

/-- The time and the version of a line that is written. -/
structure LineHead.Fits (head : LineHead) : Prop where
  currentTime : 0 ≤ head.currentTime ∧ head.currentTime < 2 ^ 63
  dataVersion : 1 ≤ head.dataVersion ∧ head.dataVersion < 2 ^ 63

/-- A time and a version that can be read back; internal records have the version zero. -/
structure LineHead.Read (head : LineHead) : Prop where
  currentTime : 0 ≤ head.currentTime ∧ head.currentTime < 2 ^ 63
  dataVersion : 0 ≤ head.dataVersion ∧ head.dataVersion < 2 ^ 63

theorem LineHead.Fits.read {head : LineHead} (fits : head.Fits) : head.Read :=
  ⟨fits.currentTime, le_trans (by norm_num) fits.dataVersion.1, fits.dataVersion.2⟩

def BlockFits (bkey : FSBlockKey) : Prop := IsLong bkey.oid ∧ IsLong bkey.offset

def SliceFits (ssize : FSSliceSize) : Prop := IsInt ssize.offset ∧ IsInt ssize.length

/-- A space on a store path of the server, in a trunk file of its own. -/
structure StorePaths.Holds (paths : StorePaths) (space : FSTrunkSpaceInfo) : Prop where
  store : (space.store : Int) ≤ paths.maxStorePathIndex ∧ IsInt space.store
  present : paths.present space.store = true
  id : 1 ≤ space.idInfo.id ∧ space.idInfo.id < 2 ^ 63
  subdir : 1 ≤ space.idInfo.subdir ∧ space.idInfo.subdir < 2 ^ 63
  offset : 0 ≤ space.offset ∧ space.offset < 2 ^ 63
  size : 0 ≤ space.size ∧ space.size < 2 ^ 63

/-- The numbers of a block that the parsers take. -/
def BlockTaken (bkey : FSBlockKey) : Prop := 1 ≤ bkey.oid ∧ 0 ≤ bkey.offset

/-- The numbers of a slice that the parsers take. -/
def SliceTaken (ssize : FSSliceSize) : Prop := 0 ≤ ssize.offset ∧ 1 ≤ ssize.length

instance (bkey : FSBlockKey) : Decidable (BlockTaken bkey) :=
  inferInstanceAs (Decidable (_ ∧ _))

instance (ssize : FSSliceSize) : Decidable (SliceTaken ssize) :=
  inferInstanceAs (Decidable (_ ∧ _))

theorem noBlank_singleton {char : Char} (other : char ≠ ' ') : ' ' ∉ [char] := by
  intro member
  exact other (List.mem_singleton.mp member).symm

theorem noBlank_decimal (number : Int) : ' ' ∉ decimal number :=
  not_mem_decimal (by decide) (by decide)

theorem noBlank_headFields (head : LineHead) (opType : BinlogOpType) (bkey : FSBlockKey) :
    ∀ field ∈ headFields head opType bkey, ' ' ∉ field := by
  have source : ' ' ∉ [head.source.char] := by
    apply noBlank_singleton
    cases head.source <;> decide
  have op : ' ' ∉ [opType.char] := by
    apply noBlank_singleton
    cases opType <;> decide
  simp only [headFields, List.forall_mem_cons]
  exact ⟨noBlank_decimal _, noBlank_decimal _, source, op, noBlank_decimal _, noBlank_decimal _,
    nofun⟩

theorem noBlank_line (head : LineHead) (opType : BinlogOpType) (bkey : FSBlockKey)
    (numbers : List Int) :
    ∀ field ∈ headFields head opType bkey ++ numbers.map decimal, ' ' ∉ field := by
  intro field member
  rcases List.mem_append.mp member with first | later
  · exact noBlank_headFields head opType bkey field first
  · obtain ⟨number, -, rfl⟩ := List.mem_map.mp later
    exact noBlank_decimal number

theorem ite_bind {α β : Type} (p : Prop) [Decidable p] (value : α) (next : α → Option β) :
    ((if p then some value else none) >>= next) = if p then next value else none := by
  split_ifs <;> rfl

section Lines

variable {head : LineHead} {opType : BinlogOpType} {bkey : FSBlockKey} {numbers : List Int}

/-- The columns of the line with these numbers behind its block. -/
def lineColumns (head : LineHead) (opType : BinlogOpType) (bkey : FSBlockKey)
    (numbers : List Int) (count : Nat) : List (List Char) :=
  (columns (lineOf (headFields head opType bkey ++ numbers.map decimal))).take count

theorem length_lineColumns (count : Nat) :
    (lineColumns head opType bkey numbers count).length = min count (6 + numbers.length) := by
  have some : headFields head opType bkey ++ numbers.map decimal ≠ [] := List.cons_ne_nil _ _
  rw [lineColumns, length_columns some (noBlank_line head opType bkey numbers),
    List.length_append, List.length_map]
  rfl

theorem source_lineColumns {count : Nat} (inside : 2 < count) :
    colChar (lineColumns head opType bkey numbers count) 2 = head.source.char :=
  colChar_lineOf (noBlank_line head opType bkey numbers) inside rfl

theorem op_lineColumns {count : Nat} (inside : 3 < count) :
    colChar (lineColumns head opType bkey numbers count) 3 = opType.char :=
  colChar_lineOf (noBlank_line head opType bkey numbers) inside rfl

theorem currentTime_lineColumns (fits : head.Read) {count : Nat} (inside : 0 < count) :
    parseInt id [' '] 0 (col (lineColumns head opType bkey numbers count) 0) =
      some head.currentTime := by
  calc
    _ = if 0 ≤ head.currentTime then some head.currentTime else none :=
        parseInt_col (noBlank_line head opType bkey numbers) inside rfl
          (le_trans (by norm_num) fits.currentTime.1) fits.currentTime.2 rfl
          (List.mem_singleton_self ' ') 0
    _ = some head.currentTime := if_pos fits.currentTime.1

theorem dataVersion_lineColumns (range : 0 ≤ head.dataVersion ∧ head.dataVersion < 2 ^ 63)
    {count : Nat} (inside : 1 < count) {minVal : Int} (least : minVal ≤ head.dataVersion) :
    parseInt id [' '] minVal (col (lineColumns head opType bkey numbers count) 1) =
      some head.dataVersion := by
  calc
    _ = if minVal ≤ head.dataVersion then some head.dataVersion else none :=
        parseInt_col (noBlank_line head opType bkey numbers) inside rfl
          (le_trans (by norm_num) range.1) range.2 rfl (List.mem_singleton_self ' ') minVal
    _ = some head.dataVersion := if_pos least

theorem oid_lineColumns (fits : BlockFits bkey) {count : Nat} (inside : 4 < count) :
    parseInt id [' '] 1 (col (lineColumns head opType bkey numbers count) 4) =
      if 1 ≤ bkey.oid then some bkey.oid else none :=
  parseInt_col (noBlank_line head opType bkey numbers) inside rfl fits.1.1 fits.1.2 rfl
    (List.mem_singleton_self ' ') 1

theorem offset_lineColumns (fits : BlockFits bkey) {count : Nat} (inside : 5 < count)
    {ends : List Char} (ended : endOf (numbers.map decimal) ∈ ends) :
    parseInt id ends 0 (col (lineColumns head opType bkey numbers count) 5) =
      if 0 ≤ bkey.offset then some bkey.offset else none :=
  parseInt_col (noBlank_line head opType bkey numbers) inside rfl fits.2.1 fits.2.2 rfl ended 0

/-- A number behind the block. -/
theorem number_lineColumns {count index : Nat} {number : Int} {rest : List Int}
    (found : numbers.drop index = number :: rest) (inside : 6 + index < count)
    (isLong : IsLong number) {cast : Int → Int} (kept : cast number = number)
    {ends : List Char} (ended : endOf (rest.map decimal) ∈ ends) (minVal : Int) :
    parseInt cast ends minVal (col (lineColumns head opType bkey numbers count) (6 + index)) =
      if minVal ≤ number then some number else none := by
  apply parseInt_col (noBlank_line head opType bkey numbers) inside _ isLong.1 isLong.2 kept ended
  have behind : (headFields head opType bkey).length = 6 := rfl
  rw [← behind, List.drop_length_add_append, ← List.map_drop, found, List.map_cons]

/-- The slice behind the block. -/
theorem slice_lineColumns {ssize : FSSliceSize} {rest : List Int} (fits : SliceFits ssize)
    {count : Nat} (inside : 7 < count) {ends : List Char}
    (ended : endOf (rest.map decimal) ∈ ends) :
    parseInt toInt [' '] 0
        (col (lineColumns head opType bkey (ssize.offset :: ssize.length :: rest) count) 6) =
        (if 0 ≤ ssize.offset then some ssize.offset else none) ∧
      parseInt toInt ends 1
        (col (lineColumns head opType bkey (ssize.offset :: ssize.length :: rest) count) 7) =
        if 1 ≤ ssize.length then some ssize.length else none :=
  ⟨@number_lineColumns head opType bkey _ count 0 _ _ rfl (by omega) fits.1.isLong
      _ (toInt_of_lt fits.1.1 fits.1.2) _ (List.mem_singleton_self ' ') 0,
    @number_lineColumns head opType bkey _ count 1 _ _ rfl (by omega) fits.2.isLong
      _ (toInt_of_lt fits.2.1 fits.2.2) _ ended 1⟩

/-! ### Lines that are taken -/

/-- The parser of the slice binlog up to the fields that depend on the operation. -/
theorem sliceParseLine_eq (paths : StorePaths) (block : BlockFits bkey)
    (ended : endOf (numbers.map decimal) = if opType = .delBlock then '\n' else ' ') :
    sliceParseLine paths (lineOf (headFields head opType bkey ++ numbers.map decimal)) =
      if BlockTaken bkey then
        match opType with
        | .writeSlice => addSliceSetFields paths .writeSlice .file bkey
            (lineColumns head .writeSlice bkey numbers 16)
        | .allocSlice => addSliceSetFields paths .allocSlice .alloc bkey
            (lineColumns head .allocSlice bkey numbers 16)
        | .delSlice => delSliceSetFields bkey (lineColumns head .delSlice bkey numbers 16)
        | .delBlock => delBlockSetFields bkey (lineColumns head .delBlock bkey numbers 16)
        | .noOp => none
      else none := by
  have line : (columns (lineOf (headFields head opType bkey ++ numbers.map decimal))).take 16 =
    lineColumns head opType bkey numbers 16 := rfl
  have ends : endOf (numbers.map decimal) ∈ [if opType.char = 'D' then '\n' else ' '] := by
    rw [ended, List.mem_singleton]
    cases opType <;> rfl
  rw [sliceParseLine, line, sliceParseCols, length_lineColumns, if_neg (by omega),
    op_lineColumns (by norm_num), oid_lineColumns block (by norm_num), offset_lineColumns block (by norm_num) ends, ite_bind,
    ite_bind, ← ite_and]
  apply if_congr Iff.rfl _ rfl
  cases opType <;> rfl

/-- The numbers of a slice that is added. -/
def addSliceNumbers (ssize : FSSliceSize) (space : FSTrunkSpaceInfo) : List Int :=
  [ssize.offset, ssize.length, space.store, space.idInfo.id, space.idInfo.subdir, space.offset,
    space.size]

theorem addSliceSetFields_eq {paths : StorePaths} {ssize : FSSliceSize} {space : FSTrunkSpaceInfo}
    (range : SliceFits ssize) (held : paths.Holds space) (sliceType : OBSliceType) :
    addSliceSetFields paths opType sliceType bkey
        (lineColumns head opType bkey (addSliceNumbers ssize space) 16) =
      if SliceTaken ssize then some ⟨opType, sliceType, ⟨bkey, ssize⟩, space⟩ else none := by
  obtain ⟨offset, length⟩ := @slice_lineColumns head opType bkey ssize
    [space.store, space.idInfo.id, space.idInfo.subdir, space.offset, space.size] range 16
    (by norm_num) [' '] (List.mem_singleton_self _)
  have long {number : Int} (least : 0 ≤ number) (most : number < 2 ^ 63) : IsLong number :=
    ⟨le_trans (by norm_num) least, most⟩
  have store := @number_lineColumns head opType bkey (addSliceNumbers ssize space) 16 2 _ _ rfl
    (by norm_num) held.store.2.isLong _ (toInt_of_lt held.store.2.1 held.store.2.2) _
    (List.mem_singleton_self ' ') 0
  have trunk := @number_lineColumns head opType bkey (addSliceNumbers ssize space) 16 3 _ _ rfl
    (by norm_num) (long (by have := held.id.1; omega) held.id.2) id rfl _
    (List.mem_singleton_self ' ') 1
  have subdir := @number_lineColumns head opType bkey (addSliceNumbers ssize space) 16 4 _ _ rfl
    (by norm_num) (long (by have := held.subdir.1; omega) held.subdir.2) id rfl _
    (List.mem_singleton_self ' ') 1
  have start := @number_lineColumns head opType bkey (addSliceNumbers ssize space) 16 5 _ _ rfl
    (by norm_num) (long held.offset.1 held.offset.2) id rfl _ (List.mem_singleton_self ' ') 0
  have size := @number_lineColumns head opType bkey (addSliceNumbers ssize space) 16 6 _ _ rfl
    (by norm_num) (long held.size.1 held.size.2) id rfl _ (List.mem_singleton_self '\n') 0
  have known : ¬(paths.maxStorePathIndex < (space.store : Int) ∨
      paths.present (space.store : Int).toNat = false) := by
    rw [Int.toNat_natCast, held.present]
    rintro (above | absent)
    · exact absurd held.store.1 (not_le.mpr above)
    · cases absent
  rw [if_pos (Int.natCast_nonneg _)] at store
  rw [if_pos held.id.1] at trunk
  rw [if_pos held.subdir.1] at subdir
  rw [if_pos held.offset.1] at start
  rw [if_pos held.size.1] at size
  rw [addSliceSetFields, length_lineColumns, if_neg (by simp [addSliceNumbers])]
  rw [addSliceNumbers] at store trunk subdir start size ⊢
  rw [offset, length, store, trunk, subdir, start, size, ite_bind, ite_bind, ← ite_and]
  apply if_congr Iff.rfl _ rfl
  rw [Option.bind_eq_bind, Option.bind_some, if_neg known]
  rfl

theorem sliceParseLine_addSliceLine {paths : StorePaths} {slice : OBSliceEntry}
    (block : BlockFits slice.ob) (range : SliceFits slice.ssize) (held : paths.Holds slice.space) :
    sliceParseLine paths (addSliceLine head slice) =
      if BlockTaken slice.ob ∧ SliceTaken slice.ssize then some (sliceBinlogLogAddSlice slice)
      else none := by
  cases slice with
  | mk ob type ssize space =>
      cases type with
      | file =>
          have parsed := @sliceParseLine_eq head .writeSlice ob (addSliceNumbers ssize space) paths
            block rfl
          rw [ite_and]
          exact parsed.trans (if_congr Iff.rfl (addSliceSetFields_eq range held .file) rfl)
      | alloc =>
          have parsed := @sliceParseLine_eq head .allocSlice ob (addSliceNumbers ssize space) paths
            block rfl
          rw [ite_and]
          exact parsed.trans (if_congr Iff.rfl (addSliceSetFields_eq range held .alloc) rfl)

theorem sliceParseLine_sliceLine (paths : StorePaths) {bsKey : FSBlockSliceKeyInfo}
    (block : BlockFits bsKey.block) (range : SliceFits bsKey.slice) :
    sliceParseLine paths (sliceLine head .delSlice bsKey) =
      if BlockTaken bsKey.block ∧ SliceTaken bsKey.slice then some (sliceBinlogLogDelSlice bsKey)
      else none := by
  have parsed := @sliceParseLine_eq head .delSlice bsKey.block
    [bsKey.slice.offset, bsKey.slice.length] paths block rfl
  obtain ⟨offset, length⟩ := @slice_lineColumns head .delSlice bsKey.block bsKey.slice [] range 16
    (by norm_num) ['\n'] (List.mem_singleton_self _)
  have fields : delSliceSetFields bsKey.block
      (lineColumns head .delSlice bsKey.block [bsKey.slice.offset, bsKey.slice.length] 16) =
      if SliceTaken bsKey.slice then some (sliceBinlogLogDelSlice bsKey) else none := by
    rw [delSliceSetFields, length_lineColumns, if_neg (by simp), offset, length, ite_bind,
      ite_bind, ← ite_and]
    rfl
  rw [ite_and, ← fields]
  exact parsed

theorem sliceParseLine_blockLine (paths : StorePaths) (block : BlockFits bkey) :
    sliceParseLine paths (blockLine head .delBlock bkey) =
      if BlockTaken bkey then some (sliceBinlogLogDelBlock bkey) else none := by
  have parsed := @sliceParseLine_eq head .delBlock bkey [] paths block rfl
  have fields : delBlockSetFields bkey (lineColumns head .delBlock bkey [] 16) =
      some (sliceBinlogLogDelBlock bkey) := by
    rw [delBlockSetFields, length_lineColumns, if_neg (by simp)]
  rw [← fields]
  exact parsed

theorem replicaBinlogRecordUnpack_sliceLine
    (version : 1 ≤ head.dataVersion ∧ head.dataVersion < 2 ^ 63) {bsKey : FSBlockSliceKeyInfo}
    (block : BlockFits bsKey.block) (range : SliceFits bsKey.slice)
    (isSlice : opType = .writeSlice ∨ opType = .allocSlice ∨ opType = .delSlice) :
    replicaBinlogRecordUnpack (sliceLine head opType bsKey) =
      if BlockTaken bsKey.block ∧ SliceTaken bsKey.slice then
        some ⟨opType.char, head.source.char, bsKey, head.dataVersion⟩
      else none := by
  have line : (columns (sliceLine head opType bsKey)).take 8 =
    lineColumns head opType bsKey.block [bsKey.slice.offset, bsKey.slice.length] 8 := rfl
  obtain ⟨offset, length⟩ := @slice_lineColumns head opType bsKey.block bsKey.slice [] range 8
    (by norm_num) ['\n'] (List.mem_singleton_self _)
  have start := @offset_lineColumns head opType bsKey.block
    [bsKey.slice.offset, bsKey.slice.length] block 8 (by norm_num) [' '] (List.mem_singleton_self _)
  have key : unpackSliceRecord
      (lineColumns head opType bsKey.block [bsKey.slice.offset, bsKey.slice.length] 8) =
      if BlockTaken bsKey.block ∧ SliceTaken bsKey.slice then some bsKey else none := by
    rw [unpackSliceRecord, length_lineColumns, if_neg (by simp), offset, length,
      oid_lineColumns block (by norm_num), start, ite_bind, ite_bind, ite_bind, ite_bind, ← ite_and,
      ← ite_and, ← ite_and]
    exact if_congr and_assoc rfl rfl
  rw [replicaBinlogRecordUnpack, line, replicaUnpackCols, length_lineColumns, if_neg (by simp),
    dataVersion_lineColumns ⟨le_trans (by norm_num) version.1, version.2⟩ (by norm_num) version.1,
    op_lineColumns (by norm_num),
    source_lineColumns (by norm_num)]
  rcases isSlice with rfl | rfl | rfl
  all_goals
    show unpackSliceRecord _ >>= _ = _
    rw [key, ite_bind]

theorem replicaBinlogRecordUnpack_blockLine
    (version : 1 ≤ head.dataVersion ∧ head.dataVersion < 2 ^ 63) (block : BlockFits bkey)
    (isBlock : opType = .delBlock ∨ opType = .noOp) :
    replicaBinlogRecordUnpack (blockLine head opType bkey) =
      if BlockTaken bkey then
        some ⟨opType.char, head.source.char, ⟨bkey, ⟨0, 0⟩⟩, head.dataVersion⟩
      else none := by
  have line : (columns (blockLine head opType bkey)).take 8 = lineColumns head opType bkey [] 8 :=
    rfl
  have start := @offset_lineColumns head opType bkey [] block 8 (by norm_num) ['\n']
    (List.mem_singleton_self _)
  have key : unpackBlockRecord (lineColumns head opType bkey [] 8) =
      if BlockTaken bkey then some ⟨bkey, ⟨0, 0⟩⟩ else none := by
    rw [unpackBlockRecord, length_lineColumns, if_neg (by simp), oid_lineColumns block (by norm_num),
      start, ite_bind, ite_bind, ← ite_and]
    rfl
  rw [replicaBinlogRecordUnpack, line, replicaUnpackCols, length_lineColumns, if_neg (by simp),
    dataVersion_lineColumns ⟨le_trans (by norm_num) version.1, version.2⟩ (by norm_num) version.1,
    op_lineColumns (by norm_num),
    source_lineColumns (by norm_num)]
  rcases isBlock with rfl | rfl
  all_goals
    show unpackBlockRecord _ >>= _ = _
    rw [key, ite_bind]

/-- The parser of the common fields looks at the block only. -/
theorem binlogUnpackCommonFields_eq (fits : head.Read) (block : BlockFits bkey) :
    binlogUnpackCommonFields (lineOf (headFields head opType bkey ++ numbers.map decimal)) =
      if BlockTaken bkey then
        some ⟨head.currentTime, head.dataVersion, head.source.char, opType.char, bkey⟩
      else none := by
  have line : (columns (lineOf (headFields head opType bkey ++ numbers.map decimal))).take 16 =
    lineColumns head opType bkey numbers 16 := rfl
  have ends : endOf (numbers.map decimal) ∈ [' ', '\n'] := by
    rw [endOf]
    split_ifs <;> simp
  rw [binlogUnpackCommonFields, line, commonUnpackCols, length_lineColumns, if_neg (by omega),
    currentTime_lineColumns fits (by norm_num),
    dataVersion_lineColumns fits.dataVersion (by norm_num) fits.dataVersion.1, op_lineColumns (by norm_num),
    source_lineColumns (by norm_num), oid_lineColumns block (by norm_num),
    offset_lineColumns block (by norm_num) ends]
  show ((if 1 ≤ bkey.oid then some bkey.oid else none) >>= _) = _
  rw [ite_bind, ite_bind, ← ite_and]
  rfl

theorem isSome_binlogUnpackCommonFields (fits : head.Fits) (block : BlockFits bkey)
    (taken : BlockTaken bkey) (opType : BinlogOpType) (numbers : List Int) :
    (binlogUnpackCommonFields
      (lineOf (headFields head opType bkey ++ numbers.map decimal))).isSome := by
  rw [binlogUnpackCommonFields_eq fits.read block, if_pos taken]
  rfl

end Lines

end FastStore.Binlog
