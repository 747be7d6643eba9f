import FastStore.Binlog.LogBuffers

/-!
# The replica binlog in a buffer

`replica_binlog_unpack_records` reads the records of a buffer that a peer may have sent.  Every
number is handed to `strtol` with the rest of the buffer behind it, so the decoder is followed
with the columns it hands over: a column that is blank up to the end of its line sends `strtol`
on into the lines behind, and behind the buffer when nothing stops it there.
-/

namespace FastStore.Binlog

open FastStore.Util FastStore.Storage

/-! ## The decoder with what it reads -/

/-- The variables that the numbers of a line are kept in. -/
inductive NumberType where
  | int
  | long
  deriving DecidableEq, Repr

/-- What a variable keeps of a `long`. -/
def NumberType.cast : NumberType → Int → Int
  | int => toInt
  | long => id

/-- The numbers that a variable can hold. -/
def NumberType.Holds : NumberType → Int → Prop
  | int => IsInt
  | long => IsLong

instance (type : NumberType) (number : Int) : Decidable (type.Holds number) :=
  match type with
  | .int => inferInstanceAs (Decidable (_ ∧ _))
  | .long => inferInstanceAs (Decidable (_ ∧ _))

/-- A column that is handed to `strtol`, up to the end of the buffer. -/
structure NumberRead where
  type : NumberType
  column : List Char
  deriving DecidableEq, Repr

/-- A result, `none` for an error, and the numbers that were read for it. -/
structure Traced (α : Type) where
  value : Option α
  reads : List NumberRead

namespace Traced

variable {α β : Type}

/-- An error. -/
def fail : Traced α := ⟨none, []⟩

instance : Monad Traced where
  pure value := ⟨some value, []⟩
  bind first next :=
    match first.value with
    | none => ⟨none, first.reads⟩
    | some value => ⟨(next value).value, first.reads ++ (next value).reads⟩

/-- What holds of every number that was read. -/
def All (property : NumberRead → Prop) (traced : Traced α) : Prop :=
  ∀ read ∈ traced.reads, property read

instance (property : NumberRead → Prop) [DecidablePred property] (traced : Traced α) :
    Decidable (traced.All property) :=
  inferInstanceAs (Decidable (∀ read ∈ traced.reads, property read))

@[simp] theorem all_pure (property : NumberRead → Prop) (value : α) :
    (pure value : Traced α).All property ↔ True :=
  iff_true_intro (List.forall_mem_nil _)

@[simp] theorem all_fail (property : NumberRead → Prop) :
    (fail : Traced α).All property ↔ True :=
  iff_true_intro (List.forall_mem_nil _)

theorem value_bind (first : Traced α) (next : α → Traced β) :
    (first >>= next).value = first.value.bind fun value => (next value).value := by
  change (match first.value with
    | none => (⟨none, first.reads⟩ : Traced β)
    | some value => ⟨(next value).value, first.reads ++ (next value).reads⟩).value = _
  cases first.value with
  | none => rfl
  | some value => rfl

theorem all_bind (property : NumberRead → Prop) (first : Traced α) (next : α → Traced β) :
    (first >>= next).All property ↔
      first.All property ∧ ∀ value ∈ first.value, (next value).All property := by
  change (∀ read ∈ (match first.value with
    | none => (⟨none, first.reads⟩ : Traced β)
    | some value => ⟨(next value).value, first.reads ++ (next value).reads⟩).reads, _) ↔ _
  cases first.value with
  | none => exact (and_iff_left (by simp)).symm
  | some value =>
      simp only [List.forall_mem_append, Option.mem_some_iff, forall_eq']
      rfl

end Traced

/-- `BINLOG_PARSE_INT_SILENCE` of a column before the memory `beyond`. -/
def binlogParseInt (beyond : List Char) (type : NumberType) (ends : List Char) (minVal : Int)
    (column : List Char) : Traced Int :=
  ⟨parseInt type.cast ends minVal (column ++ beyond), [⟨type, column⟩]⟩

section Decoder

variable (beyond : List Char)

/-- `unpack_slice_record`. -/
def tracedSliceRecord (cols : List (List Char)) : Traced FSBlockSliceKeyInfo :=
  if cols.length ≠ 8 then .fail
  else do
    let oid ← binlogParseInt beyond .long [' '] 1 (col cols 4)
    let offset ← binlogParseInt beyond .long [' '] 0 (col cols 5)
    let sliceOffset ← binlogParseInt beyond .int [' '] 0 (col cols 6)
    let sliceLength ← binlogParseInt beyond .int ['\n'] 1 (col cols 7)
    pure ⟨⟨oid, offset⟩, ⟨sliceOffset, sliceLength⟩⟩

/-- `unpack_block_record`. -/
def tracedBlockRecord (cols : List (List Char)) : Traced FSBlockSliceKeyInfo :=
  if cols.length ≠ 6 then .fail
  else do
    let oid ← binlogParseInt beyond .long [' '] 1 (col cols 4)
    let offset ← binlogParseInt beyond .long ['\n'] 0 (col cols 5)
    pure ⟨⟨oid, offset⟩, ⟨0, 0⟩⟩

/-- The fields of the block and the slice by the operation of the line. -/
def tracedKey (cols : List (List Char)) : Traced FSBlockSliceKeyInfo :=
  match colChar cols 3 with
  | 'w' | 'a' | 'd' => tracedSliceRecord beyond cols
  | 'D' | 'N' => tracedBlockRecord beyond cols
  | _ => .fail

/-- `replica_binlog_record_unpack` of the columns of a line. -/
def tracedRecordUnpack (cols : List (List Char)) : Traced ReplicaLine :=
  if cols.length < 6 then .fail
  else do
    let dataVersion ← binlogParseInt beyond .long [' '] 1 (col cols 1)
    let bsKey ← tracedKey beyond cols
    pure ⟨colChar cols 3, colChar cols 2, bsKey, dataVersion⟩

/-- What the decoder does with a line: the entry of `records` it is given, its columns, and the
record that is unpacked from them. -/
structure Visit where
  index : Nat
  cols : List (List Char)
  traced : Traced ReplicaLine

/-- The entry is written as soon as the columns of the line are counted. -/
def Visit.Writes (visit : Visit) : Prop := 6 ≤ visit.cols.length

instance (visit : Visit) : Decidable visit.Writes := inferInstanceAs (Decidable (6 ≤ _))

/-- The result of `replica_binlog_unpack_records`, with the lines it looked at. -/
structure UnpackRun where
  result : Errno
  records : List ReplicaLine
  visits : List Visit

/-- The loop of `replica_binlog_unpack_records` from the text `text` on, which has these lines. -/
def unpackLines (size : Int) : Nat → List Char → List (List Char × List Char) → UnpackRun
  | _, text, [] => ⟨if text = [] then .ok else .einval, [], []⟩
  | count, _, (line, rest) :: later =>
      let visit : Visit := ⟨count, splitLine line rest 8,
        tracedRecordUnpack beyond (splitLine line rest 8)⟩
      match visit.traced.value with
      | none => ⟨.einval, [], [visit]⟩
      | some record =>
          if ((count + 1 : Nat) : Int) = size then ⟨.ok, [record], [visit]⟩
          else
            let run := unpackLines size (count + 1) rest later
            ⟨run.result, record :: run.records, visit :: run.visits⟩

/-- `replica_binlog_unpack_records`. -/
def replicaBinlogUnpackRecords (buffer : List Char) (size : Int) : UnpackRun :=
  unpackLines beyond size 0 buffer (bufferLines buffer)

end Decoder

/-- What is asked of the decoder at a buffer: it never looks behind the buffer, it writes entries
of `records` only, and it takes no line with a number that its variable cannot hold. -/
structure DecodesRight (beyond buffer : List Char) (size : Int) : Prop where
  inside : ∀ visit ∈ (replicaBinlogUnpackRecords beyond buffer size).visits,
    visit.traced.All fun read => strtolReach (read.column ++ beyond) ≤ read.column.length
  room : ∀ visit ∈ (replicaBinlogUnpackRecords beyond buffer size).visits,
    visit.Writes → (visit.index : Int) < size
  ranges : ∀ visit ∈ (replicaBinlogUnpackRecords beyond buffer size).visits,
    visit.traced.value ≠ none →
      visit.traced.All fun read => read.type.Holds (strtol (read.column ++ beyond)).1

/-! ## Buffers that are decoded right -/

/-- A number of a line, as its column is read. -/
structure NumberField where
  index : Nat
  type : NumberType
  endChr : Char
  minVal : Int
  deriving DecidableEq, Repr

/-- The number is taken from its column. -/
def NumberField.Taken (cols : List (List Char)) (field : NumberField) : Prop :=
  (parseInt field.type.cast [field.endChr] field.minVal (col cols field.index)).isSome = true

def versionField : NumberField := ⟨1, .long, ' ', 1⟩

def sliceFields : List NumberField :=
  [⟨4, .long, ' ', 1⟩, ⟨5, .long, ' ', 0⟩, ⟨6, .int, ' ', 0⟩, ⟨7, .int, '\n', 1⟩]

def blockFields : List NumberField := [⟨4, .long, ' ', 1⟩, ⟨5, .long, '\n', 0⟩]

/-- The line is one of a slice, or of a block, by its operation and the count of its columns. -/
def IsSliceLine (cols : List (List Char)) : Prop :=
  cols.length = 8 ∧ colChar cols 3 ∈ ['w', 'a', 'd']

def IsBlockLine (cols : List (List Char)) : Prop :=
  cols.length = 6 ∧ colChar cols 3 ∈ ['D', 'N']

instance (cols : List (List Char)) : Decidable (IsSliceLine cols) :=
  inferInstanceAs (Decidable (_ ∧ _))

instance (cols : List (List Char)) : Decidable (IsBlockLine cols) :=
  inferInstanceAs (Decidable (_ ∧ _))

/-- The numbers behind the version in the order in which they are read. -/
def laterFields (cols : List (List Char)) : List NumberField :=
  if IsSliceLine cols then sliceFields else if IsBlockLine cols then blockFields else []

/-- No column up to the first whose number is not taken is blank to the end of its line with
nothing but white space, a sign and digits behind. -/
def Closed (cols : List (List Char)) : List NumberField → Prop
  | [] => True
  | field :: rest =>
      ¬OpenEnded (col cols field.index) ∧ (field.Taken cols → Closed cols rest)

/-- The line of a slice whose numbers are well written, with an offset or a length of more than
31 bits that is taken for a number of its low bits. -/
structure Wraps (cols : List (List Char)) : Prop where
  slice : IsSliceLine cols
  version : versionField.Taken cols
  oid : NumberField.Taken cols ⟨4, .long, ' ', 1⟩
  offset : NumberField.Taken cols ⟨5, .long, ' ', 0⟩
  ends : (strtol (col cols 6)).2.head? = some ' ' ∧ (strtol (col cols 7)).2.head? = some '\n'
  low : (strtol (col cols 6)).1 % 4294967296 < 2147483648 ∧
    1 ≤ (strtol (col cols 7)).1 % 4294967296 ∧ (strtol (col cols 7)).1 % 4294967296 < 2147483648
  wide : (strtol (col cols 6)).1 ∉ Set.Ico 0 2147483648 ∨
    (strtol (col cols 7)).1 ∉ Set.Ico 1 2147483648

/-- The line is taken, whatever stands behind the buffer. -/
def LineTaken (line : List Char × List Char) : Prop :=
  (replicaUnpackCols (splitLine line.1 line.2 8)).isSome = true

instance (line : List Char × List Char) : Decidable (LineTaken line) :=
  inferInstanceAs (Decidable (_ = true))

/-- The lines that the decoder comes to: each up to the first that is not taken, and no more than
there is room for. -/
def reachedLines (size : Int) : Nat → List (List Char × List Char) → List (List Char × List Char)
  | _, [] => []
  | count, line :: later =>
      line :: if LineTaken line ∧ ((count + 1 : Nat) : Int) ≠ size then
        reachedLines size (count + 1) later else []

/-- The buffers that are decoded right. -/
structure Decodable (buffer : List Char) (size : Int) : Prop where
  room : 1 ≤ size ∨ ∀ line ∈ (bufferLines buffer).head?, (splitLine line.1 line.2 8).length < 6
  closed : ∀ line ∈ reachedLines size 0 (bufferLines buffer),
    6 ≤ (splitLine line.1 line.2 8).length →
      Closed (splitLine line.1 line.2 8) (versionField :: laterFields (splitLine line.1 line.2 8))
  narrow : ∀ line ∈ reachedLines size 0 (bufferLines buffer), ¬Wraps (splitLine line.1 line.2 8)

/-! ### One line -/

section Line

variable {beyond : List Char} {cols : List (List Char)}

/-- The number does not look behind the buffer. -/
def NumberRead.Inside (beyond : List Char) (read : NumberRead) : Prop :=
  strtolReach (read.column ++ beyond) ≤ read.column.length

/-- The number fits in its variable. -/
def NumberRead.InRange (beyond : List Char) (read : NumberRead) : Prop :=
  read.type.Holds (strtol (read.column ++ beyond)).1

theorem all_parse_bind {α : Type} (property : NumberRead → Prop) (field : NumberField)
    (next : Int → Traced α) :
    (binlogParseInt beyond field.type [field.endChr] field.minVal (col cols field.index) >>=
        next).All property ↔
      property ⟨field.type, col cols field.index⟩ ∧
        ∀ value ∈ parseInt field.type.cast [field.endChr] field.minVal
          (col cols field.index ++ beyond), (next value).All property := by
  rw [Traced.all_bind]
  exact and_congr_left' (List.forall_mem_singleton)

/-- The numbers that are read up to one and behind it stay inside the buffer. -/
theorem inside_parse_bind {α : Type} (field : NumberField) {next : Int → Traced α} {later : Prop}
    (rest : ∀ value, (next value).All (NumberRead.Inside beyond) ↔ later) :
    (binlogParseInt beyond field.type [field.endChr] field.minVal (col cols field.index) >>=
        next).All (NumberRead.Inside beyond) ↔
      ¬OpenEnded (col cols field.index) ∧ (field.Taken cols → later) := by
  rw [all_parse_bind, NumberRead.Inside, strtolReach_append_le_iff]
  apply and_congr_right
  intro closed
  rw [parseInt_closed closed, NumberField.Taken]
  cases parseInt field.type.cast [field.endChr] field.minVal (col cols field.index) with
  | none => exact iff_of_true nofun nofun
  | some value =>
      constructor
      · exact fun all _ => (rest value).mp (all value rfl)
      · exact fun holds other _ => (rest other).mpr (holds rfl)

theorem value_parse_bind {α : Type} (field : NumberField)
    (closed : ¬OpenEnded (col cols field.index)) (next : Int → Traced α) :
    (binlogParseInt beyond field.type [field.endChr] field.minVal (col cols field.index) >>=
        next).value =
      (parseInt field.type.cast [field.endChr] field.minVal (col cols field.index)).bind
        fun value => (next value).value := by
  rw [Traced.value_bind, binlogParseInt, parseInt_closed closed]

theorem inside_tracedSliceRecord (count : cols.length = 8) :
    (tracedSliceRecord beyond cols).All (NumberRead.Inside beyond) ↔ Closed cols sliceFields := by
  rw [tracedSliceRecord, if_neg (not_not.mpr count)]
  apply inside_parse_bind ⟨4, .long, ' ', 1⟩
  intro oid
  apply inside_parse_bind ⟨5, .long, ' ', 0⟩
  intro offset
  apply inside_parse_bind ⟨6, .int, ' ', 0⟩
  intro sliceOffset
  apply inside_parse_bind ⟨7, .int, '\n', 1⟩
  intro sliceLength
  exact Traced.all_pure _ _

theorem inside_tracedBlockRecord (count : cols.length = 6) :
    (tracedBlockRecord beyond cols).All (NumberRead.Inside beyond) ↔ Closed cols blockFields := by
  rw [tracedBlockRecord, if_neg (not_not.mpr count)]
  apply inside_parse_bind ⟨4, .long, ' ', 1⟩
  intro oid
  apply inside_parse_bind ⟨5, .long, '\n', 0⟩
  intro offset
  exact Traced.all_pure _ _

theorem tracedKey_slice (slice : IsSliceLine cols) :
    tracedKey beyond cols = tracedSliceRecord beyond cols := by
  obtain ⟨-, op⟩ := slice
  simp only [List.mem_cons, List.not_mem_nil, or_false] at op
  rcases op with op | op | op
  all_goals
    rw [tracedKey, op]
    rfl

theorem tracedKey_block (block : IsBlockLine cols) :
    tracedKey beyond cols = tracedBlockRecord beyond cols := by
  obtain ⟨-, op⟩ := block
  simp only [List.mem_cons, List.not_mem_nil, or_false] at op
  rcases op with op | op
  all_goals
    rw [tracedKey, op]
    rfl

theorem tracedKey_other (noSlice : ¬IsSliceLine cols) (noBlock : ¬IsBlockLine cols) :
    tracedKey beyond cols = .fail := by
  have slice (op : colChar cols 3 ∈ ['w', 'a', 'd']) : tracedSliceRecord beyond cols = .fail :=
    if_pos fun count => noSlice ⟨count, op⟩
  have block (op : colChar cols 3 ∈ ['D', 'N']) : tracedBlockRecord beyond cols = .fail :=
    if_pos fun count => noBlock ⟨count, op⟩
  rw [tracedKey]
  split
  · rename_i op
    exact slice (by simp [op])
  · rename_i op
    exact slice (by simp [op])
  · rename_i op
    exact slice (by simp [op])
  · rename_i op
    exact block (by simp [op])
  · rename_i op
    exact block (by simp [op])
  · rfl

theorem not_isBlockLine (slice : IsSliceLine cols) : ¬IsBlockLine cols := by
  intro block
  have counts := slice.1.symm.trans block.1
  omega

theorem inside_tracedKey :
    (tracedKey beyond cols).All (NumberRead.Inside beyond) ↔ Closed cols (laterFields cols) := by
  rw [laterFields]
  by_cases slice : IsSliceLine cols
  · rw [tracedKey_slice slice, if_pos slice, inside_tracedSliceRecord slice.1]
  · rw [if_neg slice]
    by_cases block : IsBlockLine cols
    · rw [tracedKey_block block, if_pos block, inside_tracedBlockRecord block.1]
    · rw [tracedKey_other slice block, if_neg block]
      exact Traced.all_fail _

/-- The decoder stays inside the buffer with a line exactly when its columns are closed. -/
theorem inside_tracedRecordUnpack :
    (tracedRecordUnpack beyond cols).All (NumberRead.Inside beyond) ↔
      (6 ≤ cols.length → Closed cols (versionField :: laterFields cols)) := by
  rw [tracedRecordUnpack]
  by_cases count : cols.length < 6
  · rw [if_pos count]
    exact iff_of_true ((Traced.all_fail _).mpr trivial) fun enough => absurd enough (by omega)
  · rw [if_neg count, forall_prop_of_true (not_lt.mp count)]
    apply inside_parse_bind versionField
    intro dataVersion
    rw [Traced.all_bind, inside_tracedKey]
    exact and_iff_left fun _ _ => (Traced.all_pure _ _).mpr trivial

/-! ### What is taken -/

theorem bind_of_closed {α : Type} {field : NumberField} {rest : List NumberField}
    (closed : Closed cols (field :: rest)) {next : Int → Traced α} {result : Int → Option α}
    (same : Closed cols rest → ∀ value, (next value).value = result value) :
    (binlogParseInt beyond field.type [field.endChr] field.minVal (col cols field.index) >>=
        next).value =
      parseInt field.type.cast [field.endChr] field.minVal (col cols field.index) >>= result := by
  rw [value_parse_bind field closed.1]
  cases taken : parseInt field.type.cast [field.endChr] field.minVal (col cols field.index) with
  | none => rfl
  | some value =>
      apply same (closed.2 _)
      rw [NumberField.Taken, taken]
      rfl

theorem value_tracedSliceRecord (closed : cols.length = 8 → Closed cols sliceFields) :
    (tracedSliceRecord beyond cols).value = unpackSliceRecord cols := by
  rw [tracedSliceRecord, unpackSliceRecord]
  by_cases count : cols.length = 8
  · rw [if_neg (not_not.mpr count), if_neg (not_not.mpr count)]
    apply bind_of_closed (closed count)
    intro closed oid
    apply bind_of_closed closed
    intro closed offset
    apply bind_of_closed closed
    intro closed sliceOffset
    apply bind_of_closed closed
    intro closed sliceLength
    rfl
  · rw [if_pos count, if_pos count]
    rfl

theorem value_tracedBlockRecord (closed : cols.length = 6 → Closed cols blockFields) :
    (tracedBlockRecord beyond cols).value = unpackBlockRecord cols := by
  rw [tracedBlockRecord, unpackBlockRecord]
  by_cases count : cols.length = 6
  · rw [if_neg (not_not.mpr count), if_neg (not_not.mpr count)]
    apply bind_of_closed (closed count)
    intro closed oid
    apply bind_of_closed closed
    intro closed offset
    rfl
  · rw [if_pos count, if_pos count]
    rfl

theorem closed_slice (closed : Closed cols (laterFields cols))
    (op : colChar cols 3 ∈ ['w', 'a', 'd']) (count : cols.length = 8) :
    Closed cols sliceFields := by
  have slice : IsSliceLine cols := ⟨count, op⟩
  rwa [laterFields, if_pos slice] at closed

theorem closed_block (closed : Closed cols (laterFields cols))
    (op : colChar cols 3 ∈ ['D', 'N']) (count : cols.length = 6) :
    Closed cols blockFields := by
  have block : IsBlockLine cols := ⟨count, op⟩
  have noSlice : ¬IsSliceLine cols := fun slice => not_isBlockLine slice block
  rwa [laterFields, if_neg noSlice, if_pos block] at closed

/-- With closed columns a line is unpacked alike whatever stands behind the buffer. -/
theorem value_tracedRecordUnpack
    (closed : 6 ≤ cols.length → Closed cols (versionField :: laterFields cols)) :
    (tracedRecordUnpack beyond cols).value = replicaUnpackCols cols := by
  rw [tracedRecordUnpack, replicaUnpackCols]
  by_cases count : cols.length < 6
  · rw [if_pos count, if_pos count]
    rfl
  · rw [if_neg count, if_neg count]
    apply bind_of_closed (closed (not_lt.mp count))
    intro closed dataVersion
    rw [Traced.value_bind, tracedKey]
    have slice (op : colChar cols 3 ∈ ['w', 'a', 'd']) :=
      @value_tracedSliceRecord beyond cols (closed_slice closed op)
    have block (op : colChar cols 3 ∈ ['D', 'N']) :=
      @value_tracedBlockRecord beyond cols (closed_block closed op)
    generalize colChar cols 3 = op at slice block
    split
    · rw [slice (by decide)]
      rfl
    · rw [slice (by decide)]
      rfl
    · rw [slice (by decide)]
      rfl
    · rw [block (by decide)]
      rfl
    · rw [block (by decide)]
      rfl
    · simp [Traced.fail]

theorem taken_iff (field : NumberField) :
    field.Taken cols ↔ (strtol (col cols field.index)).2.head? = some field.endChr ∧
      field.minVal ≤ field.type.cast (strtol (col cols field.index)).1 := by
  rw [NumberField.Taken, parseInt]
  cases (strtol (col cols field.index)).2 with
  | nil => exact iff_of_false (by simp) (by simp)
  | cons endChr left =>
      rw [List.head?_cons, Option.some_inj]
      dsimp only
      split_ifs with taken
      · exact iff_of_true rfl ⟨List.mem_singleton.mp taken.1, taken.2⟩
      · exact iff_of_false (by simp) fun both => taken ⟨List.mem_singleton.mpr both.1, both.2⟩

theorem isSome_parse_bind {α : Type} (field : NumberField) {next : Int → Option α} {later : Prop}
    (rest : ∀ value, (next value).isSome = true ↔ later) :
    (parseInt field.type.cast [field.endChr] field.minVal (col cols field.index) >>=
        next).isSome = true ↔ field.Taken cols ∧ later := by
  rw [NumberField.Taken]
  cases parseInt field.type.cast [field.endChr] field.minVal (col cols field.index) with
  | none => exact iff_of_false nofun fun both => nomatch both.1
  | some value => exact (rest value).trans (iff_and_self.mpr fun _ => rfl)

/-- The line of a slice is taken when all its numbers are. -/
theorem isSome_replicaUnpackCols (slice : IsSliceLine cols) :
    (replicaUnpackCols cols).isSome = true ↔
      versionField.Taken cols ∧ NumberField.Taken cols ⟨4, .long, ' ', 1⟩ ∧
        NumberField.Taken cols ⟨5, .long, ' ', 0⟩ ∧ NumberField.Taken cols ⟨6, .int, ' ', 0⟩ ∧
          NumberField.Taken cols ⟨7, .int, '\n', 1⟩ := by
  obtain ⟨count, op⟩ := slice
  have key : (unpackSliceRecord cols).isSome = true ↔
      NumberField.Taken cols ⟨4, .long, ' ', 1⟩ ∧ NumberField.Taken cols ⟨5, .long, ' ', 0⟩ ∧
        NumberField.Taken cols ⟨6, .int, ' ', 0⟩ ∧ NumberField.Taken cols ⟨7, .int, '\n', 1⟩ := by
    rw [unpackSliceRecord, if_neg (not_not.mpr count)]
    apply isSome_parse_bind ⟨4, .long, ' ', 1⟩
    intro oid
    apply isSome_parse_bind ⟨5, .long, ' ', 0⟩
    intro offset
    apply isSome_parse_bind ⟨6, .int, ' ', 0⟩
    intro sliceOffset
    have last := @isSome_parse_bind cols FSBlockSliceKeyInfo ⟨7, .int, '\n', 1⟩
      (fun sliceLength => some ⟨⟨oid, offset⟩, ⟨sliceOffset, sliceLength⟩⟩) True
      fun _ => iff_of_true rfl trivial
    exact last.trans (and_iff_left trivial)
  rw [replicaUnpackCols, if_neg (by omega)]
  apply isSome_parse_bind versionField
  intro dataVersion
  rw [← key]
  simp only [List.mem_cons, List.not_mem_nil, or_false] at op
  rcases op with op | op | op
  all_goals
    rw [op]
    cases unpackSliceRecord cols <;> rfl

/-! ### What is in range -/

theorem inRange_bind_of_taken {α : Type} (field : NumberField)
    (closed : ¬OpenEnded (col cols field.index)) (taken : field.Taken cols)
    {next : Int → Traced α} {later : Prop}
    (rest : ∀ value, (next value).All (NumberRead.InRange beyond) ↔ later) :
    (binlogParseInt beyond field.type [field.endChr] field.minVal (col cols field.index) >>=
        next).All (NumberRead.InRange beyond) ↔
      field.type.Holds (strtol (col cols field.index)).1 ∧ later := by
  rw [all_parse_bind, NumberRead.InRange, strtol_append closed, parseInt_closed closed]
  apply and_congr_right'
  rw [NumberField.Taken] at taken
  obtain ⟨value, read⟩ := Option.isSome_iff_exists.mp taken
  rw [read]
  constructor
  · exact fun all => (rest value).mp (all value rfl)
  · exact fun holds other _ => (rest other).mpr holds

theorem inRange_long_bind {α : Type} (endChr : Char) (minVal : Int) (column : List Char)
    {next : Int → Traced α} (rest : ∀ value, (next value).All (NumberRead.InRange beyond)) :
    (binlogParseInt beyond .long [endChr] minVal column >>=
      next).All (NumberRead.InRange beyond) := by
  rw [Traced.all_bind]
  refine ⟨?_, fun value _ => rest value⟩
  exact List.forall_mem_singleton.mpr (isLong_strtol _)

theorem inRange_tracedBlockRecord :
    (tracedBlockRecord beyond cols).All (NumberRead.InRange beyond) := by
  rw [tracedBlockRecord]
  split_ifs
  · exact (Traced.all_fail _).mpr trivial
  · apply inRange_long_bind
    intro oid
    apply inRange_long_bind
    intro offset
    exact (Traced.all_pure _ _).mpr trivial

/-- The numbers of the slice of a line that is taken are the ones that may not fit. -/
theorem inRange_tracedRecordUnpack (slice : IsSliceLine cols)
    (closed : Closed cols (versionField :: laterFields cols))
    (taken : (replicaUnpackCols cols).isSome = true) :
    (tracedRecordUnpack beyond cols).All (NumberRead.InRange beyond) ↔
      IsInt (strtol (col cols 6)).1 ∧ IsInt (strtol (col cols 7)).1 := by
  obtain ⟨version, oid, offset, sliceOffset, sliceLength⟩ := (isSome_replicaUnpackCols slice).mp taken
  have later := closed.2 version
  rw [laterFields, if_pos slice] at later
  have count : ¬cols.length < 6 := by
    have := slice.1
    omega
  rw [tracedRecordUnpack, if_neg count]
  refine (inRange_bind_of_taken versionField closed.1 version fun _ => ?_).trans
    (and_iff_right (isLong_strtol _))
  rw [Traced.all_bind, tracedKey_slice slice]
  refine (and_iff_left fun _ _ => (Traced.all_pure _ _).mpr trivial).trans ?_
  rw [tracedSliceRecord, if_neg (not_not.mpr slice.1)]
  refine (inRange_bind_of_taken ⟨4, .long, ' ', 1⟩ later.1 oid fun _ => ?_).trans
    (and_iff_right (isLong_strtol _))
  have later := later.2 oid
  refine (inRange_bind_of_taken ⟨5, .long, ' ', 0⟩ later.1 offset fun _ => ?_).trans
    (and_iff_right (isLong_strtol _))
  have later := later.2 offset
  apply inRange_bind_of_taken ⟨6, .int, ' ', 0⟩ later.1 sliceOffset
  intro _
  have later := later.2 sliceOffset
  refine (inRange_bind_of_taken ⟨7, .int, '\n', 1⟩ later.1 sliceLength fun _ => ?_).trans
    (and_iff_left trivial)
  exact Traced.all_pure _ _

theorem inRange_of_not_slice (noSlice : ¬IsSliceLine cols) :
    (tracedRecordUnpack beyond cols).All (NumberRead.InRange beyond) := by
  rw [tracedRecordUnpack]
  split_ifs
  · exact (Traced.all_fail _).mpr trivial
  · apply inRange_long_bind
    intro dataVersion
    rw [Traced.all_bind]
    refine ⟨?_, fun _ _ => (Traced.all_pure _ _).mpr trivial⟩
    by_cases block : IsBlockLine cols
    · rw [tracedKey_block block]
      exact inRange_tracedBlockRecord
    · rw [tracedKey_other noSlice block]
      exact (Traced.all_fail _).mpr trivial

/-- What `int`s keep of two numbers passes for an offset and a length when the low bits do. -/
theorem toInt_least_iff (number least : Int) (small : 0 ≤ least ∧ least ≤ 1) :
    least ≤ toInt number ↔
      least ≤ number % 4294967296 ∧ number % 4294967296 < 2147483648 := by
  have spec := toInt_spec number
  constructor
  · intro passes
    omega
  · intro low
    omega

/-- A line that is taken has a number out of range exactly when it wraps. -/
theorem wraps_iff (slice : IsSliceLine cols) :
    Wraps cols ↔ (replicaUnpackCols cols).isSome = true ∧
      ¬(IsInt (strtol (col cols 6)).1 ∧ IsInt (strtol (col cols 7)).1) := by
  rw [isSome_replicaUnpackCols slice, taken_iff ⟨6, .int, ' ', 0⟩, taken_iff ⟨7, .int, '\n', 1⟩]
  change _ ↔ (_ ∧ _ ∧ _ ∧ (_ ∧ 0 ≤ toInt _) ∧ _ ∧ 1 ≤ toInt _) ∧ _
  rw [toInt_least_iff _ 0 ⟨le_rfl, by norm_num⟩, toInt_least_iff _ 1 ⟨by norm_num, le_rfl⟩]
  constructor
  · rintro ⟨_, version, oid, offset, ends, low, wide⟩
    refine ⟨⟨version, oid, offset, ⟨ends.1, by omega, low.1⟩, ends.2, low.2⟩, ?_⟩
    simp only [Set.mem_Ico, IsInt] at wide ⊢
    omega
  · rintro ⟨⟨version, oid, offset, ⟨first, _, low⟩, second, lows⟩, wide⟩
    refine ⟨slice, version, oid, offset, ⟨first, second⟩, ⟨low, lows⟩, ?_⟩
    simp only [Set.mem_Ico, IsInt] at wide ⊢
    omega

/-- The decoder does right by a line exactly when its columns are closed and it does not wrap. -/
theorem line_right_iff :
    ((tracedRecordUnpack beyond cols).All (NumberRead.Inside beyond) ∧
        ((tracedRecordUnpack beyond cols).value ≠ none →
          (tracedRecordUnpack beyond cols).All (NumberRead.InRange beyond))) ↔
      (6 ≤ cols.length → Closed cols (versionField :: laterFields cols)) ∧ ¬Wraps cols := by
  rw [inside_tracedRecordUnpack]
  apply and_congr_right
  intro closed
  rw [value_tracedRecordUnpack closed, Option.ne_none_iff_isSome]
  by_cases slice : IsSliceLine cols
  · rw [wraps_iff slice, not_and, not_not]
    apply forall_congr'
    intro taken
    have enough : 6 ≤ cols.length := by
      have := slice.1
      omega
    exact inRange_tracedRecordUnpack slice (closed enough) taken
  · exact iff_of_true (fun _ => inRange_of_not_slice slice) fun wraps => slice wraps.slice

end Line

/-! ### The lines of a buffer -/

section Lines

variable {beyond : List Char} {size : Int}

theorem unpackLines_visits_of_none {count : Nat} {text line rest : List Char}
    {later : List (List Char × List Char)}
    (failed : (tracedRecordUnpack beyond (splitLine line rest 8)).value = none) :
    (unpackLines beyond size count text ((line, rest) :: later)).visits =
      [⟨count, splitLine line rest 8, tracedRecordUnpack beyond (splitLine line rest 8)⟩] := by
  rw [unpackLines]
  dsimp only
  rw [failed]

theorem unpackLines_visits_of_some {count : Nat} {text line rest : List Char}
    {later : List (List Char × List Char)} {record : ReplicaLine}
    (taken : (tracedRecordUnpack beyond (splitLine line rest 8)).value = some record) :
    (unpackLines beyond size count text ((line, rest) :: later)).visits =
      ⟨count, splitLine line rest 8, tracedRecordUnpack beyond (splitLine line rest 8)⟩ ::
        if ((count + 1 : Nat) : Int) ≠ size then
          (unpackLines beyond size (count + 1) rest later).visits else [] := by
  rw [unpackLines]
  dsimp only
  rw [taken]
  dsimp only
  by_cases full : ((count + 1 : Nat) : Int) = size
  · rw [if_pos full, if_neg (not_not.mpr full)]
  · rw [if_neg full, if_pos full]

/-- A line is always looked at, also when it is not taken. -/
theorem mem_unpackLines_visits (count : Nat) (text line rest : List Char)
    (later : List (List Char × List Char)) :
    (⟨count, splitLine line rest 8, tracedRecordUnpack beyond (splitLine line rest 8)⟩ : Visit) ∈
      (unpackLines beyond size count text ((line, rest) :: later)).visits := by
  cases taken : (tracedRecordUnpack beyond (splitLine line rest 8)).value with
  | none =>
      rw [unpackLines_visits_of_none taken]
      exact List.mem_singleton_self _
  | some record =>
      rw [unpackLines_visits_of_some taken]
      exact List.mem_cons_self

/-- The decoder does right by every line that it comes to. -/
theorem visits_right_iff (count : Nat) (text : List Char)
    (lines : List (List Char × List Char)) :
    (∀ visit ∈ (unpackLines beyond size count text lines).visits,
        visit.traced.All (NumberRead.Inside beyond) ∧
          (visit.traced.value ≠ none → visit.traced.All (NumberRead.InRange beyond))) ↔
      ∀ line ∈ reachedLines size count lines,
        (6 ≤ (splitLine line.1 line.2 8).length →
          Closed (splitLine line.1 line.2 8)
            (versionField :: laterFields (splitLine line.1 line.2 8))) ∧
          ¬Wraps (splitLine line.1 line.2 8) := by
  induction lines generalizing count text with
  | nil => exact iff_of_true (List.forall_mem_nil _) (List.forall_mem_nil _)
  | cons line later ih =>
      obtain ⟨line, rest⟩ := line
      rw [reachedLines, List.forall_mem_cons, ← @line_right_iff beyond (splitLine line rest 8)]
      constructor
      · intro every
        have right := every _ (mem_unpackLines_visits count text line rest later)
        have closed := (line_right_iff.mp right).1
        refine ⟨right, ?_⟩
        split_ifs with goesOn
        · obtain ⟨taken, room⟩ := goesOn
          rw [LineTaken, ← value_tracedRecordUnpack closed] at taken
          obtain ⟨record, read⟩ := Option.isSome_iff_exists.mp taken
          rw [unpackLines_visits_of_some read, if_pos room] at every
          exact (ih (count + 1) rest).mp (List.forall_mem_cons.mp every).2
        · exact List.forall_mem_nil _
      · rintro ⟨right, others⟩
        have closed := (line_right_iff.mp right).1
        cases read : (tracedRecordUnpack beyond (splitLine line rest 8)).value with
        | none =>
            rw [unpackLines_visits_of_none read]
            exact List.forall_mem_singleton.mpr right
        | some record =>
            rw [unpackLines_visits_of_some read]
            refine List.forall_mem_cons.mpr ⟨right, ?_⟩
            split_ifs with room
            · have taken : LineTaken (line, rest) := by
                rw [LineTaken, ← @value_tracedRecordUnpack beyond _ closed, read]
                rfl
              rw [if_pos ⟨taken, room⟩] at others
              exact (ih (count + 1) rest).mpr others
            · exact List.forall_mem_nil _

theorem index_lt_of_room {count : Nat} (room : (count : Int) < size) (text : List Char)
    (lines : List (List Char × List Char)) :
    ∀ visit ∈ (unpackLines beyond size count text lines).visits, (visit.index : Int) < size := by
  induction lines generalizing count text with
  | nil => exact List.forall_mem_nil _
  | cons line later ih =>
      obtain ⟨line, rest⟩ := line
      cases read : (tracedRecordUnpack beyond (splitLine line rest 8)).value with
      | none =>
          rw [unpackLines_visits_of_none read]
          exact List.forall_mem_singleton.mpr room
      | some record =>
          rw [unpackLines_visits_of_some read]
          refine List.forall_mem_cons.mpr ⟨room, ?_⟩
          split_ifs with more
          · exact ih (by omega) rest
          · exact List.forall_mem_nil _

/-- Entries of `records` are written exactly when there is one, or no line has enough columns to
be written. -/
theorem writes_room_iff (text : List Char) (lines : List (List Char × List Char)) :
    (∀ visit ∈ (unpackLines beyond size 0 text lines).visits,
        visit.Writes → (visit.index : Int) < size) ↔
      (1 ≤ size ∨ ∀ line ∈ lines.head?, (splitLine line.1 line.2 8).length < 6) := by
  by_cases positive : 1 ≤ size
  · apply iff_of_true _ (Or.inl positive)
    intro visit member _
    exact index_lt_of_room (by omega) text lines visit member
  · rw [or_iff_right positive]
    cases lines with
    | nil => exact iff_of_true (List.forall_mem_nil _) nofun
    | cons line later =>
        obtain ⟨line, rest⟩ := line
        rw [List.head?_cons]
        constructor
        · rintro every _ ⟨⟩
          by_contra wide
          have below := every _ (mem_unpackLines_visits 0 text line rest later) (not_lt.mp wide)
          exact positive (by exact_mod_cast below)
        · intro narrow
          have short := narrow _ rfl
          have failed : (tracedRecordUnpack beyond (splitLine line rest 8)).value = none := by
            rw [tracedRecordUnpack, if_pos short]
            rfl
          rw [unpackLines_visits_of_none failed]
          intro visit member enough
          rw [List.mem_singleton.mp member] at enough
          exact absurd enough (not_le.mpr short)

theorem decodesRight_iff (beyond buffer : List Char) (size : Int) :
    DecodesRight beyond buffer size ↔ Decodable buffer size := by
  have lines := @visits_right_iff beyond size 0 buffer (bufferLines buffer)
  have room := @writes_room_iff beyond size buffer (bufferLines buffer)
  constructor
  · intro right
    have every := lines.mp fun visit member => ⟨right.inside visit member, right.ranges visit member⟩
    exact ⟨room.mp right.room, fun line member => (every line member).1,
      fun line member => (every line member).2⟩
  · intro fine
    have every := lines.mpr fun line member => ⟨fine.closed line member, fine.narrow line member⟩
    exact ⟨fun visit member => (every visit member).1, room.mpr fine.room,
      fun visit member => (every visit member).2⟩

end Lines

/-! ## Logs -/

/-- What is logged by `replica_binlog_log_slice` and `replica_binlog_log_block`. -/
inductive ReplicaLogEntry where
  | slice (head : LineHead) (opType : BinlogOpType) (bsKey : FSBlockSliceKeyInfo)
  | block (head : LineHead) (opType : BinlogOpType) (bkey : FSBlockKey)
  deriving DecidableEq, Repr

namespace ReplicaLogEntry

def head : ReplicaLogEntry → LineHead
  | slice head _ _ | block head _ _ => head

def opType : ReplicaLogEntry → BinlogOpType
  | slice _ opType _ | block _ opType _ => opType

def bkey : ReplicaLogEntry → FSBlockKey
  | slice _ _ bsKey => bsKey.block
  | block _ _ bkey => bkey

/-- The numbers behind the block. -/
def numbers : ReplicaLogEntry → List Int
  | slice _ _ bsKey => [bsKey.slice.offset, bsKey.slice.length]
  | block _ _ _ => []

/-- The line that is written. -/
def line : ReplicaLogEntry → List Char
  | slice head opType bsKey => sliceLine head opType bsKey
  | block head opType bkey => blockLine head opType bkey

/-- The record; that of a block has no slice. -/
def record : ReplicaLogEntry → ReplicaLine
  | slice head opType bsKey => ⟨opType.char, head.source.char, bsKey, head.dataVersion⟩
  | block head opType bkey => ⟨opType.char, head.source.char, ⟨bkey, ⟨0, 0⟩⟩, head.dataVersion⟩

/-- The time and the version of an entry are `int64_t`s, and there is a version. -/
structure HeadFits (head : LineHead) : Prop where
  currentTime : IsLong head.currentTime
  dataVersion : 1 ≤ head.dataVersion ∧ head.dataVersion < 2 ^ 63

/-- The fields of an entry are in their ranges, and its operation is one of its kind. -/
inductive Fits : ReplicaLogEntry → Prop where
  | slice {head : LineHead} {opType : BinlogOpType} {bsKey : FSBlockSliceKeyInfo}
      (fits : HeadFits head)
      (kind : opType = .writeSlice ∨ opType = .allocSlice ∨ opType = .delSlice)
      (block : BlockFits bsKey.block ∧ BlockTaken bsKey.block)
      (range : SliceFits bsKey.slice ∧ SliceTaken bsKey.slice) : Fits (.slice head opType bsKey)
  | block {head : LineHead} {opType : BinlogOpType} {bkey : FSBlockKey} (fits : HeadFits head)
      (kind : opType = .delBlock ∨ opType = .noOp) (block : BlockFits bkey ∧ BlockTaken bkey) :
      Fits (.block head opType bkey)

variable {entry : ReplicaLogEntry}

/-- The fields of the line. -/
def fields (entry : ReplicaLogEntry) : List (List Char) :=
  headFields entry.head entry.opType entry.bkey ++ entry.numbers.map decimal

theorem line_eq (entry : ReplicaLogEntry) : entry.line = lineOf entry.fields := by
  cases entry with
  | slice head opType bsKey => rfl
  | block head opType bkey => rfl

theorem replicaBinlogRecordUnpack_line (fits : entry.Fits) :
    replicaBinlogRecordUnpack entry.line = some entry.record := by
  cases fits with
  | slice fits kind block range =>
      rw [line, replicaBinlogRecordUnpack_sliceLine fits.dataVersion block.1 range.1 kind,
        if_pos ⟨block.2, range.2⟩]
      rfl
  | block fits kind block =>
      rw [line, replicaBinlogRecordUnpack_blockLine fits.dataVersion block.1 kind, if_pos block.2]
      rfl

theorem noEnd_lineBody (entry : ReplicaLogEntry) : '\n' ∉ lineBody entry.fields :=
  not_mem_lineBody (by decide) (noEnd_fields _ _ _ _)

/-- The numbers of a line that is written end in the line. -/
theorem closed_splitLine (entry : ReplicaLogEntry) (rest : List Char) :
    ∀ column ∈ splitLine (lineBody entry.fields) rest 8, ¬OpenEnded column := by
  intro column member
  rw [splitLine_lineBody] at member
  obtain ⟨column, within, rfl⟩ := List.mem_map.mp member
  have solid := solid_splitLine _ _ _ _ 8 column within
  have ends := newline_mem_columns (List.cons_ne_nil _ _) (noBlank_line _ _ _ _) column
    (List.mem_of_mem_take within)
  exact not_openEnded_of_solid (solid.append rest) (List.mem_append_left rest ends)

end ReplicaLogEntry

section Written

variable {cols : List (List Char)}

theorem closed_of_all (all : ∀ column ∈ cols, ¬OpenEnded column) {fields : List NumberField}
    (inside : ∀ field ∈ fields, field.index < cols.length) : Closed cols fields := by
  induction fields with
  | nil => trivial
  | cons field rest ih =>
      have first := inside field List.mem_cons_self
      refine ⟨?_, fun _ => ih fun other member => inside other (List.mem_cons_of_mem _ member)⟩
      rw [col, List.getD_eq_getElem cols [] first]
      exact all _ (List.getElem_mem first)

theorem laterFields_inside : ∀ field ∈ laterFields cols, field.index < cols.length := by
  rw [laterFields]
  split_ifs with slice block
  · rw [slice.1]
    decide
  · rw [block.1]
    decide
  · exact List.forall_mem_nil _

theorem value_of_all_closed (all : ∀ column ∈ cols, ¬OpenEnded column) (beyond : List Char) :
    (tracedRecordUnpack beyond cols).value = replicaUnpackCols cols := by
  apply value_tracedRecordUnpack
  intro enough
  apply closed_of_all all
  intro field member
  rcases List.mem_cons.mp member with rfl | later
  · exact lt_of_lt_of_le (by decide : versionField.index < 6) enough
  · exact laterFields_inside field later

theorem unpackSliceRecord_behind (solid : ∀ column ∈ cols, Solid column) (rest : List Char) :
    Below (unpackSliceRecord cols) (unpackSliceRecord (behind cols rest)) := by
  unfold unpackSliceRecord
  rw [length_behind]
  by_cases count : cols.length ≠ 8
  · rw [if_pos count]
    exact nofun
  · rw [if_neg count, if_neg count]
    apply (parseInt_behind solid (by omega) space_isSpace id 1).bind
    intro oid
    apply (parseInt_behind solid (by omega) space_isSpace id 0).bind
    intro offset
    apply (parseInt_behind solid (by omega) space_isSpace toInt 0).bind
    intro sliceOffset
    apply (parseInt_behind solid (by omega) newline_isSpace toInt 1).bind
    intro sliceLength
    exact Below.rfl _

theorem unpackBlockRecord_behind (solid : ∀ column ∈ cols, Solid column) (rest : List Char) :
    Below (unpackBlockRecord cols) (unpackBlockRecord (behind cols rest)) := by
  unfold unpackBlockRecord
  rw [length_behind]
  by_cases count : cols.length ≠ 6
  · rw [if_pos count]
    exact nofun
  · rw [if_neg count, if_neg count]
    apply (parseInt_behind solid (by omega) space_isSpace id 1).bind
    intro oid
    apply (parseInt_behind solid (by omega) newline_isSpace id 0).bind
    intro offset
    exact Below.rfl _

theorem replicaUnpackCols_behind (solid : ∀ column ∈ cols, Solid column) (rest : List Char) :
    Below (replicaUnpackCols cols) (replicaUnpackCols (behind cols rest)) := by
  unfold replicaUnpackCols
  rw [length_behind]
  by_cases count : cols.length < 6
  · rw [if_pos count]
    exact nofun
  · rw [if_neg count, if_neg count, colChar_behind solid (by omega),
      colChar_behind solid (by omega)]
    apply (parseInt_behind solid (by omega) space_isSpace id 1).bind
    intro dataVersion
    dsimp only
    split
    · exact (unpackSliceRecord_behind solid rest).bind fun _ => Below.rfl _
    · exact (unpackSliceRecord_behind solid rest).bind fun _ => Below.rfl _
    · exact (unpackSliceRecord_behind solid rest).bind fun _ => Below.rfl _
    · exact (unpackBlockRecord_behind solid rest).bind fun _ => Below.rfl _
    · exact (unpackBlockRecord_behind solid rest).bind fun _ => Below.rfl _
    · exact Below.rfl _

end Written

namespace ReplicaLogEntry

variable {entry : ReplicaLogEntry}

/-- A line that is written is unpacked in a buffer as it was written. -/
theorem tracedRecordUnpack_fields (fits : entry.Fits) (beyond rest : List Char) :
    (tracedRecordUnpack beyond (splitLine (lineBody entry.fields) rest 8)).value =
      some entry.record := by
  have unpacked := replicaBinlogRecordUnpack_line fits
  rw [line_eq, replicaBinlogRecordUnpack] at unpacked
  rw [value_of_all_closed (entry.closed_splitLine rest), splitLine_lineBody]
  exact replicaUnpackCols_behind (solid_splitLine _ _ _ _ 8) rest _ unpacked

/-- The lines that are written are unpacked up to the size of `records`. -/
theorem unpackLines_entries {entries : List ReplicaLogEntry}
    (fits : ∀ entry ∈ entries, entry.Fits) (beyond : List Char) {size count : Nat}
    (room : count < size) :
    (unpackLines beyond size count (entries.flatMap line)
        (bufferLines (entries.flatMap line))).result = .ok ∧
      (unpackLines beyond size count (entries.flatMap line)
        (bufferLines (entries.flatMap line))).records =
          (entries.take (size - count)).map record := by
  induction entries generalizing count with
  | nil =>
      rw [List.take_nil]
      exact ⟨rfl, rfl⟩
  | cons entry entries ih =>
      have read := tracedRecordUnpack_fields (fits entry List.mem_cons_self) beyond
        (entries.flatMap line)
      have text : (entry :: entries).flatMap line =
          lineBody entry.fields ++ '\n' :: entries.flatMap line := by
        rw [List.flatMap_cons, line_eq, lineOf_eq, List.append_assoc]
        rfl
      have more : size - count = (size - (count + 1)) + 1 := by omega
      rw [text, bufferLines_line entry.noEnd_lineBody, unpackLines]
      dsimp only
      rw [read, more, List.take_succ_cons, List.map_cons]
      dsimp only
      split_ifs with full
      · have last : size - (count + 1) = 0 := by omega
        rw [last]
        exact ⟨rfl, rfl⟩
      · obtain ⟨done, records⟩ := @ih
          (fun other member => fits other (List.mem_cons_of_mem _ member)) (count + 1) (by omega)
        exact ⟨done, congrArg (entry.record :: ·) records⟩

/-- `FS_REPLICA_BINLOG_MAX_RECORD_SIZE`. -/
def maxRecordSize : Nat := 128

theorem length_line (fits : entry.Fits) : entry.line.length < maxRecordSize := by
  have some : entry.fields ≠ [] := List.cons_ne_nil _ _
  have number {number : Int} (least : 0 ≤ number) (most : number < 2 ^ 63) :
      (decimal number).length ≤ 19 :=
    length_decimal_le least (most.trans (by norm_num))
  have int {number : Int} (least : 0 ≤ number) (most : number < 2147483648) :
      (decimal number).length ≤ 10 :=
    length_decimal_le least (most.trans (by norm_num))
  rw [line_eq, length_lineOf some, fields, maxRecordSize]
  cases fits with
  | slice fits kind block range =>
      have time := length_decimal_le_of_long fits.currentTime.1 fits.currentTime.2
      have version := number (le_trans (by norm_num) fits.dataVersion.1) fits.dataVersion.2
      have oid := number (le_trans (by norm_num) block.2.1) block.1.1.2
      have offset := number block.2.2 block.1.2.2
      have start := int range.2.1 range.1.1.2
      have length := int (le_trans (by norm_num) range.2.2) range.1.2.2
      simp only [headFields, head, opType, bkey, numbers, List.map_cons, List.map_nil,
        List.cons_append, List.nil_append, List.sum_cons, List.sum_nil, List.length_cons,
        List.length_nil]
      omega
  | block fits kind block =>
      have time := length_decimal_le_of_long fits.currentTime.1 fits.currentTime.2
      have version := number (le_trans (by norm_num) fits.dataVersion.1) fits.dataVersion.2
      have oid := number (le_trans (by norm_num) block.2.1) block.1.1.2
      have offset := number block.2.2 block.1.2.2
      simp only [headFields, head, opType, bkey, numbers, List.map_cons, List.map_nil,
        List.cons_append, List.nil_append, List.sum_cons, List.sum_nil, List.length_cons,
        List.length_nil]
      omega

end ReplicaLogEntry

/-- A log that is written is decoded as it was written, with lines that fit in the buffer of a
record; and any buffer is decoded right exactly when it is `Decodable`. -/
theorem replica_binlog_decode_right_iff (beyond : List Char) (size : Int) :
    (∀ entries : List ReplicaLogEntry, (∀ entry ∈ entries, entry.Fits) →
      entries.length ≤ size →
        (∀ entry ∈ entries, entry.line.length < ReplicaLogEntry.maxRecordSize) ∧
          (replicaBinlogUnpackRecords beyond (entries.flatMap ReplicaLogEntry.line) size).result =
            .ok ∧
          (replicaBinlogUnpackRecords beyond (entries.flatMap ReplicaLogEntry.line) size).records =
            entries.map ReplicaLogEntry.record) ∧
      ∀ buffer : List Char, DecodesRight beyond buffer size ↔ Decodable buffer size := by
  refine ⟨?_, fun buffer => decodesRight_iff beyond buffer size⟩
  intro entries fits room
  refine ⟨fun entry member => ReplicaLogEntry.length_line (fits entry member), ?_⟩
  cases entries with
  | nil => exact ⟨rfl, rfl⟩
  | cons entry entries =>
      have positive : 0 < size.toNat := by
        rw [List.length_cons] at room
        omega
      have whole := ReplicaLogEntry.unpackLines_entries fits beyond positive
      rw [Int.toNat_of_nonneg (by omega), Nat.sub_zero, List.take_of_length_le (by omega)] at whole
      exact whole

/-- A log with an entry of each kind. -/
def eachReplicaKind : List ReplicaLogEntry :=
  [.slice ⟨1700000000, 1, .rpcMaster⟩ .writeSlice ⟨⟨9223372036854775807, 4194304⟩, ⟨0, 2147483647⟩⟩,
    .slice ⟨-1, 2, .rpcSlave⟩ .allocSlice ⟨⟨7, 0⟩, ⟨16, 8⟩⟩,
    .slice ⟨1700000000, 3, .reclaim⟩ .delSlice ⟨⟨7, 0⟩, ⟨16, 8⟩⟩,
    .block ⟨1700000000, 4, .replay⟩ .delBlock ⟨7, 0⟩,
    .block ⟨1700000001, 5, .replay⟩ .noOp ⟨1, 0⟩]

theorem replica_binlog_decode_right_each_kind :
    ((∀ entry ∈ eachReplicaKind, entry.line.length < ReplicaLogEntry.maxRecordSize) ∧
        (replicaBinlogUnpackRecords ['7'] (eachReplicaKind.flatMap ReplicaLogEntry.line) 5).result =
          .ok ∧
        (replicaBinlogUnpackRecords ['7'] (eachReplicaKind.flatMap ReplicaLogEntry.line) 5).records =
          eachReplicaKind.map ReplicaLogEntry.record) ∧
      DecodesRight ['7'] [] 5 := by
  have right := replica_binlog_decode_right_iff ['7'] 5
  refine ⟨right.1 eachReplicaKind ?_ (by decide), (right.2 []).mpr
      ⟨Or.inl (by decide), List.forall_mem_nil _, List.forall_mem_nil _⟩⟩
  simp only [eachReplicaKind, List.forall_mem_cons]
  refine ⟨.slice ?_ (Or.inl rfl) ?_ ?_, .slice ?_ (Or.inr (Or.inl rfl)) ?_ ?_,
    .slice ?_ (Or.inr (Or.inr rfl)) ?_ ?_, .block ?_ (Or.inl rfl) ?_, .block ?_ (Or.inr rfl) ?_,
    List.forall_mem_nil _⟩
  all_goals
    constructor
    all_goals norm_num [BlockFits, BlockTaken, SliceFits, SliceTaken, IsLong, IsInt]

/-- A write whose slice has an offset of 33 bits. -/
def wideOffset : List Char := "1 1 C w 1 0 4294967297 1\n".toList

/-- A block that is deleted, without its offset. -/
def blankOffset : List Char := "1 1 c D 1 \n".toList

/-- The offset of 33 bits is taken for one, and the blank offset is looked for behind the buffer;
a buffer without records is written to. -/
theorem replica_binlog_takes_wide_offset :
    (replicaBinlogUnpackRecords [] wideOffset 1).records =
        [⟨'w', 'C', ⟨⟨1, 0⟩, ⟨1, 1⟩⟩, 1⟩] ∧
      ¬DecodesRight [] wideOffset 1 ∧ ¬DecodesRight [] blankOffset 1 ∧
        ¬DecodesRight [] wideOffset 0 := by
  refine ⟨by decide +kernel, fun right => ?_, fun right => ?_, fun right => ?_⟩
  · exact absurd right.ranges (by decide +kernel)
  · exact absurd right.inside (by decide +kernel)
  · exact absurd right.room (by decide +kernel)

end FastStore.Binlog
