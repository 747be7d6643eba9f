import FastStore.Recovery.BinlogFetch

/-!
# Runs of a binlog fetch

The reader of the master stands behind a first part of the records of the log, whatever is added
to the log.  An answer has the records that come next, and is the last one only behind everything
that the log had.  So the fetched file holds the records behind the version of the slave up to
where the fetch is, each once and in order, also over fetches that were given up.
-/

namespace FastStore.Recovery

open FastStore.Util FastStore.Storage FastStore.Binlog

variable {log later : ReplicaLog} {reader : ServerBinlogReader}
  {done todo batch file : List ReplicaLogEntry}

/-! ### The place of the reader -/

/-- The reader stands behind these records. -/
def ReaderAt (log : ReplicaLog) (reader : ServerBinlogReader) (done : List ReplicaLogEntry) :
    Prop :=
  ∃ before older newer after, log.files = before ++ (older ++ newer) :: after ∧
    done = before.flatten ++ older ∧
    reader.index = before.length ∧ reader.offset = (binlogText older).length

theorem Grows.records (grows : Grows log later) :
    ∃ more, later.records = log.records ++ more := by
  obtain ⟨more, rest, files⟩ := grows
  refine ⟨more ++ rest.flatten, ?_⟩
  rw [ReplicaLog.records_eq files, ReplicaLog.records, ReplicaLog.files, List.flatten_append,
    List.flatten_singleton, List.append_assoc, List.append_assoc]

theorem Grows.currentWriteIndex_le (grows : Grows log later) :
    log.currentWriteIndex ≤ later.currentWriteIndex := by
  obtain ⟨more, rest, files⟩ := grows
  have lengths := congrArg List.length files
  rw [ReplicaLog.files, List.length_append, List.length_append, List.length_singleton,
    List.length_cons] at lengths
  rw [ReplicaLog.currentWriteIndex, ReplicaLog.currentWriteIndex]
  omega

namespace ReaderAt

theorem isPrefix (stands : ReaderAt log reader done) : done <+: log.records := by
  obtain ⟨before, older, newer, after, files, rfl, -, -⟩ := stands
  refine ⟨newer ++ after.flatten, ?_⟩
  rw [ReplicaLog.records_eq files, List.append_assoc, List.append_assoc]

theorem index_le (stands : ReaderAt log reader done) : reader.index ≤ log.currentWriteIndex := by
  obtain ⟨before, older, newer, after, files, -, index, -⟩ := stands
  have lengths := congrArg List.length files
  rw [ReplicaLog.files, List.length_append, List.length_append, List.length_singleton,
    List.length_cons] at lengths
  rw [ReplicaLog.currentWriteIndex, index]
  omega

theorem grows (stands : ReaderAt log reader done) (more : Grows log later) :
    ReaderAt later reader done := by
  obtain ⟨before, older, newer, after, files, parts, index, offset⟩ := stands
  obtain ⟨added, rest, laterFiles⟩ := more
  rcases ReplicaLog.files_cases files with ⟨rfl, closed, current⟩ | ⟨others, rfl, closed⟩
  · refine ⟨before, older, newer ++ added, rest, ?_, parts, index, offset⟩
    rw [laterFiles, closed, current, List.append_assoc]
  · refine ⟨before, older, newer, others ++ (log.current ++ added) :: rest, ?_, parts, index,
      offset⟩
    rw [laterFiles, closed, List.append_assoc, List.cons_append]

end ReaderAt

/-! ### One read -/

/-- What follows the records that fit does not fit. -/
theorem fitting_cut (bytes : Nat) (file : List ReplicaLogEntry) :
    ∃ rest, file = fitting bytes file ++ rest ∧
      (binlogText (fitting bytes file)).length ≤ bytes ∧
      ∀ entry ∈ rest.head?,
        bytes < (binlogText (fitting bytes file)).length + entry.line.length := by
  induction file generalizing bytes with
  | nil =>
      refine ⟨[], rfl, Nat.zero_le _, ?_⟩
      rintro entry ⟨⟩
  | cons entry file ih =>
      rw [fitting]
      split_ifs with fits
      · obtain ⟨rest, split, within, cut⟩ := ih (bytes - entry.line.length)
        have length : (binlogText (entry :: fitting (bytes - entry.line.length) file)).length =
            entry.line.length + (binlogText (fitting (bytes - entry.line.length) file)).length := by
          rw [binlogText, List.flatMap_cons, List.length_append]
          rfl
        refine ⟨rest, ?_, ?_, ?_⟩
        · rw [List.cons_append, ← split]
        · rw [length]
          omega
        · intro other first
          have more := cut other first
          rw [length]
          omega
      · refine ⟨entry :: file, rfl, Nat.zero_le _, ?_⟩
        intro other first
        obtain rfl := Option.some_inj.mp first
        rw [binlogText_nil, List.length_nil, Nat.zero_add]
        exact not_le.mp fits

theorem length_line_le {entry : ReplicaLogEntry} (fits : entry.Fits) :
    entry.line.length ≤ ReplicaLogEntry.maxRecordSize := by
  have short := length_lineBody_lt fits
  rw [length_line_eq]
  omega

/-- A read in front of a record gives the records that fit in the buffer. -/
theorem cutToLines_file {older newer : List ReplicaLogEntry} {index size : Nat}
    (text : log.content index = binlogText (older ++ newer)) (some : newer ≠ [])
    (fits : ∀ entry ∈ newer, entry.Fits) (room : ReplicaLogEntry.maxRecordSize ≤ size)
    (buffer : List Char) :
    ∃ read, doReadToBuffer log.content size ⟨index, (binlogText older).length, buffer⟩ = .ok read ∧
      cutToLines read.1 read.2 =
        (.ok, binlogText (fitting size newer),
          ⟨index, (binlogText (older ++ fitting size newer)).length, buffer⟩) := by
  obtain ⟨entry, others, rfl⟩ := List.exists_cons_of_ne_nil some
  have ends : '\n' ∈ (binlogText (entry :: others)).take size :=
    newline_mem_take (fits entry List.mem_cons_self) others room
  have left :
      (log.content index).drop (binlogText older).length = binlogText (entry :: others) := by
    rw [text, binlogText_append, List.drop_left]
  have within : (binlogText (fitting size (entry :: others))).length ≤
      ((binlogText (entry :: others)).take size).length := by
    obtain ⟨rest, split, least, -⟩ := fitting_cut size (entry :: others)
    have lengths := congrArg (fun file => (binlogText file).length) split
    simp only [binlogText_append, List.length_append] at lengths
    rw [List.length_take]
    omega
  refine ⟨((binlogText (entry :: others)).take size, ⟨index, (binlogText older).length +
    ((binlogText (entry :: others)).take size).length, buffer⟩), ?_, ?_⟩
  · rw [doReadToBuffer]
    dsimp only
    rw [left, if_neg (List.ne_nil_of_mem ends)]
  · rw [cutToLines, if_pos ends, completeLines_take, binlogText_append, List.length_append]
    dsimp only
    congr 3
    omega

/-- At the end of a file nothing is read. -/
theorem doReadToBuffer_end {index size : Nat} (text : log.content index = binlogText file)
    (buffer : List Char) :
    doReadToBuffer log.content size ⟨index, (binlogText file).length, buffer⟩ = .error .enoent := by
  rw [doReadToBuffer]
  dsimp only
  rw [text, List.drop_length, List.take_nil, if_pos rfl]

/-- What a read is to give: the records that come next, and with room left in the answer for
another record and the reader in the last file, all of them. -/
structure ReadNext (log : ReplicaLog) (size : Nat) (done : List ReplicaLogEntry)
    (result : Errno × List Char × ServerBinlogReader) (batch : List ReplicaLogEntry) : Prop where
  errno : result.1 = if batch = [] then .enoent else .ok
  ends : batch = [] → done = log.records
  text : result.2.1 = binlogText batch
  stands : ReaderAt log result.2.2 (done ++ batch)
  last : ReplicaLogEntry.maxRecordSize ≤ size - result.2.1.length →
    result.2.2.index = log.currentWriteIndex → done ++ batch = log.records

variable {size : Nat}

theorem ReadNext.taken {result : Errno × List Char × ServerBinlogReader}
    (next : ReadNext log size done result batch) : result.1 = .ok ∨ result.1 = .enoent := by
  rw [next.errno]
  split_ifs
  · exact Or.inr rfl
  · exact Or.inl rfl

theorem readNext_file {before : List (List ReplicaLogEntry)} {older newer : List ReplicaLogEntry}
    {after : List (List ReplicaLogEntry)}
    (files : log.files = before ++ (older ++ newer) :: after) (some : newer ≠ [])
    (room : ReplicaLogEntry.maxRecordSize ≤ size) (buffer : List Char) :
    ReadNext log size (before.flatten ++ older)
      (.ok, binlogText (fitting size newer),
        ⟨before.length, (binlogText (older ++ fitting size newer)).length, buffer⟩)
      (fitting size newer) := by
  obtain ⟨rest, split, within, cut⟩ := fitting_cut size newer
  have filled : fitting size newer ≠ [] := by
    obtain ⟨entry, others, rfl⟩ := List.exists_cons_of_ne_nil some
    have inFile : entry ∈ older ++ entry :: others := List.mem_append_right _ List.mem_cons_self
    have least := length_line_le (ReplicaLog.fits_of_mem files entry inFile)
    rw [fitting, if_pos (least.trans room)]
    exact List.cons_ne_nil _ _
  constructor
  · rw [if_neg filled]
  · exact fun none => absurd none filled
  · rfl
  · refine ⟨before, older ++ fitting size newer, rest, after, ?_, ?_, rfl, rfl⟩
    · rw [files, List.append_assoc, ← split]
    · rw [List.append_assoc]
  · intro left isLast
    have whole : after = [] := by
      rcases ReplicaLog.files_cases files with ⟨none, -, -⟩ | ⟨others, -, closed⟩
      · exact none
      · rw [ReplicaLog.currentWriteIndex, closed, List.length_append, List.length_cons] at isLast
        dsimp only at isLast
        omega
    have all : rest = [] := by
      cases rest with
      | nil => rfl
      | cons entry others =>
          have inFile : entry ∈ older ++ newer := by
            rw [split]
            exact List.mem_append_right _ (List.mem_append_right _ List.mem_cons_self)
          have least := length_line_le (ReplicaLog.fits_of_mem files entry inFile)
          have more := cut entry rfl
          dsimp only at left
          omega
    rw [all, List.append_nil] at split
    rw [ReplicaLog.records_eq files, whole, List.flatten_nil, List.append_nil, ← split,
      List.append_assoc]

/-- Behind the last record of the current file nothing comes. -/
theorem readNext_end {before : List (List ReplicaLogEntry)} {older : List ReplicaLogEntry}
    (files : log.files = before ++ [older]) (buffer : List Char) :
    ReadNext log size (before.flatten ++ older)
      (.enoent, [], ⟨before.length, (binlogText older).length, buffer⟩) [] := by
  have whole : before.flatten ++ older = log.records := by
    rw [ReplicaLog.records_eq files, List.flatten_nil, List.append_nil]
  constructor
  · rfl
  · exact fun _ => whole
  · rfl
  · refine ⟨before, older, [], [], ?_, List.append_nil _, rfl, rfl⟩
    rw [files, List.append_nil]
  · intro _ _
    rw [List.append_nil, whole]

/-- The next file is read from its start. -/
theorem readNext_nextFile {before : List (List ReplicaLogEntry)} {older : List ReplicaLogEntry}
    {others : List (List ReplicaLogEntry)} (closed : log.closed = before ++ older :: others)
    (room : ReplicaLogEntry.maxRecordSize ≤ size) :
    ∃ batch, ReadNext log size (before.flatten ++ older)
      (match doReadToBuffer log.content size
          (openReadableBinlog log.content (before.length + 1) 0) with
        | .ok read => cutToLines read.1 read.2
        | .error result =>
            (result, [], openReadableBinlog log.content (before.length + 1) 0)) batch := by
  have flat : (before ++ [older]).flatten = before.flatten ++ older := by
    rw [List.flatten_append, List.flatten_singleton]
  have length : (before ++ [older]).length = before.length + 1 := by
    rw [List.length_append]
    rfl
  obtain ⟨next, behind, split⟩ : ∃ next behind, others ++ [log.current] = next :: behind :=
    List.exists_cons_of_ne_nil (List.append_ne_nil_of_right_ne_nil _ (List.cons_ne_nil _ _))
  have files : log.files = (before ++ [older]) ++ ([] ++ next) :: behind := by
    rw [ReplicaLog.files, closed, List.nil_append, ← split, List.append_assoc, List.append_assoc]
    rfl
  have text := ReplicaLog.content_of_split files
  have opened := ReplicaLog.openReadableBinlog_split files
  rw [length, binlogText_nil, List.length_nil] at opened
  rw [opened]
  cases next with
  | cons entry rest =>
      obtain ⟨read, bytes, result⟩ := @cutToLines_file log [] (entry :: rest) _ size text
        (List.cons_ne_nil _ _) (ReplicaLog.fits_of_mem files) room []
      have reads := @readNext_file log size (before ++ [older]) [] (entry :: rest) behind
        files (List.cons_ne_nil _ _) room []
      rw [flat, List.append_nil] at reads
      refine ⟨fitting size (entry :: rest), ?_⟩
      rw [length, binlogText_nil, List.length_nil] at bytes
      rw [bytes]
      dsimp only
      rw [result]
      exact reads
  | nil =>
      -- only the current file may be empty, so there is no other one
      have last : behind = [] := by
        rcases ReplicaLog.files_cases files with ⟨none, -, -⟩ | ⟨more, -, closedNext⟩
        · exact none
        · exact absurd rfl (log.closed_ne_nil []
            (closedNext ▸ List.mem_append_right _ List.mem_cons_self))
      have reads := @readNext_end log size (before ++ [older]) [] (last ▸ files) []
      rw [flat, List.append_nil, length] at reads
      have ended := @doReadToBuffer_end log [] _ size text []
      rw [length, binlogText_nil, List.length_nil] at ended
      refine ⟨[], ?_⟩
      rw [ended]
      exact reads

/-- `binlog_reader_integral_read` behind some records. -/
theorem integralRead_spec (stands : ReaderAt log reader done)
    (room : ReplicaLogEntry.maxRecordSize ≤ size) :
    ∃ batch, ReadNext log size done (integralRead log size reader) batch := by
  obtain ⟨before, older, newer, after, files, rfl, index, offset⟩ := stands
  obtain ⟨at', offset', buffer⟩ := reader
  dsimp only at index offset
  subst index offset
  have text := ReplicaLog.content_of_split files
  have fits := ReplicaLog.fits_of_mem files
  cases newer with
  | cons entry others =>
      obtain ⟨read, bytes, result⟩ := cutToLines_file text (List.cons_ne_nil _ _)
        (fun other member => fits other (List.mem_append_right _ member)) room buffer
      refine ⟨fitting size (entry :: others), ?_⟩
      rw [integralRead, bytes]
      dsimp only
      rw [result]
      exact readNext_file files (List.cons_ne_nil _ _) room buffer
  | nil =>
      rw [List.append_nil] at files text
      rw [integralRead, doReadToBuffer_end text]
      dsimp only
      rcases ReplicaLog.files_cases files with ⟨rfl, closed, -⟩ | ⟨others, rfl, closed⟩
      · have isLast : ¬before.length < log.currentWriteIndex := by
          rw [ReplicaLog.currentWriteIndex, closed]
          exact lt_irrefl _
        rw [if_neg isLast]
        exact ⟨[], readNext_end files buffer⟩
      · have notLast : before.length < log.currentWriteIndex := by
          rw [ReplicaLog.currentWriteIndex, closed, List.length_append, List.length_cons]
          omega
        rw [if_pos notLast]
        exact readNext_nextFile closed room

/-! ### One cut -/

/-- The text of some records, as they are read off its lines. -/
theorem replicaBinlogRecordUnpack_lineBody {entry : ReplicaLogEntry} (fits : entry.Fits) :
    replicaBinlogRecordUnpack (lineBody entry.fields ++ ['\n']) = some entry.record := by
  have unpacked := ReplicaLogEntry.replicaBinlogRecordUnpack_line fits
  rw [ReplicaLogEntry.line_eq, lineOf_eq] at unpacked
  exact unpacked

theorem rtakeWhile_binlogText (file : List ReplicaLogEntry) (entry : ReplicaLogEntry) :
    (binlogText file ++ lineBody entry.fields).rtakeWhile (fun char => char ≠ '\n') =
      lineBody entry.fields := by
  have solid : ∀ char ∈ (lineBody entry.fields).reverse, decide (char ≠ '\n') = true := by
    intro char member
    apply decide_eq_true
    rintro rfl
    exact entry.noEnd_lineBody (List.mem_reverse.mp member)
  rw [List.rtakeWhile, List.reverse_append, List.takeWhile_append_of_pos solid,
    List.reverse_append, List.reverse_reverse]
  have stops : (binlogText file).reverse.takeWhile (fun char => decide (char ≠ '\n')) = [] := by
    rcases List.eq_nil_or_concat' file with rfl | ⟨front, last, rfl⟩
    · rfl
    · rw [binlogText_append, binlogText_cons, binlogText_nil, List.reverse_append,
        List.reverse_append]
      rfl
  rw [stops]
  rfl

theorem getLastDataVersion_binlogText {entry : ReplicaLogEntry} (fits : entry.Fits)
    (file : List ReplicaLogEntry) :
    getLastDataVersion (binlogText (file ++ [entry])) = some entry.version := by
  have text : binlogText (file ++ [entry]) =
      (binlogText file ++ lineBody entry.fields) ++ ['\n'] := by
    rw [binlogText_append, binlogText_cons, List.append_assoc]
    rfl
  have last : ((binlogText file ++ lineBody entry.fields) ++ ['\n']).drop
      (((binlogText file ++ lineBody entry.fields) ++ ['\n']).length - 1) = ['\n'] := by
    rw [List.length_append, List.length_singleton, Nat.add_sub_cancel, List.drop_left]
  rw [getLastDataVersion, text, last, List.dropLast_concat, rtakeWhile_binlogText,
    replicaBinlogRecordUnpack_lineBody fits, Option.map_some, record_dataVersion]

/-- Records are cut behind the version. -/
theorem cutBinlog_binlogText (fits : ∀ entry ∈ file, entry.Fits)
    (increasing : file.Pairwise fun first second => first.version < second.version)
    (untilVersion : Nat) :
    cutBinlog untilVersion (binlogText file) (bufferLines (binlogText file)) =
      .ok (binlogText (file.takeWhile fun entry => entry.version ≤ (untilVersion : Int))) := by
  induction file with
  | nil => rfl
  | cons entry file ih =>
      obtain ⟨first, sorted⟩ := List.pairwise_cons.mp increasing
      have rest := ih (fun other member => fits other (List.mem_cons_of_mem _ member)) sorted
      rw [binlogText_cons, bufferLines_line entry.noEnd_lineBody, cutBinlog,
        replicaBinlogRecordUnpack_lineBody (fits entry List.mem_cons_self)]
      dsimp only
      rw [record_dataVersion, rest]
      dsimp only
      rcases lt_trichotomy entry.version (untilVersion : Int) with less | same | more
      · rw [if_neg less.ne, if_neg less.le.not_gt,
          @List.takeWhile_cons_of_pos _ _ entry _ (decide_eq_true less.le), binlogText_cons]
      · have stops : file.takeWhile (fun entry => decide (entry.version ≤ (untilVersion : Int))) =
            [] := by
          cases file with
          | nil => rfl
          | cons second others =>
              apply List.takeWhile_cons_of_neg
              have above := first second List.mem_cons_self
              rw [decide_eq_true_iff]
              omega
        rw [if_pos same, @List.takeWhile_cons_of_pos _ _ entry _ (decide_eq_true same.le), stops,
          binlogText_cons, binlogText_nil]
      · rw [if_neg more.ne', if_pos more, List.takeWhile_cons_of_neg, binlogText_nil]
        rw [decide_eq_true_iff]
        exact not_le.mpr more

/-! ### Records and versions -/

/-- The records behind a version. -/
def newerThan (version : Nat) (records : List ReplicaLogEntry) : List ReplicaLogEntry :=
  records.filter fun entry => decide ((version : Int) < entry.version)

/-- The records behind one version, up to another one. -/
def between (records : List ReplicaLogEntry) (low high : Nat) : List ReplicaLogEntry :=
  records.filter fun entry => decide ((low : Int) < entry.version ∧ entry.version ≤ high)

section Versions

variable {records behind : List ReplicaLogEntry} {low high version : Nat}

theorem newerThan_append (first second : List ReplicaLogEntry) :
    newerThan version (first ++ second) = newerThan version first ++ newerThan version second :=
  List.filter_append _ _

theorem newerThan_of_forall (all : ∀ entry ∈ records, (version : Int) < entry.version) :
    newerThan version records = records := by
  apply List.filter_eq_self.mpr
  intro entry member
  exact decide_eq_true (all entry member)

theorem between_append
    (upTo : ∀ entry ∈ done, (low : Int) < entry.version → entry.version ≤ (high : Int))
    (above : ∀ entry ∈ behind, (high : Int) < entry.version) :
    between (done ++ behind) low high = newerThan low done := by
  have none : behind.filter (fun entry =>
      decide ((low : Int) < entry.version ∧ entry.version ≤ (high : Int))) = [] := by
    apply List.filter_eq_nil_iff.mpr
    intro entry member within
    exact absurd (of_decide_eq_true within).2 (not_le.mpr (above entry member))
  rw [between, List.filter_append, none, List.append_nil, newerThan]
  apply List.filter_congr
  intro entry member
  apply decide_eq_decide.mpr
  exact and_iff_left_of_imp (upTo entry member)

theorem between_self : between records version version = [] := by
  apply List.filter_eq_nil_iff.mpr
  intro entry _ within
  obtain ⟨low, high⟩ := of_decide_eq_true within
  exact absurd low (not_lt.mpr high)

/-- The last record has the highest version. -/
theorem version_le_last {front : List ReplicaLogEntry} {last : ReplicaLogEntry}
    (increasing : (front ++ [last]).Pairwise fun first second => first.version < second.version) :
    ∀ entry ∈ front ++ [last], entry.version ≤ last.version := by
  intro entry member
  rcases List.mem_append.mp member with inFront | isLast
  · exact le_of_lt ((List.pairwise_append.mp increasing).2.2 entry inFront last
      (List.mem_singleton_self _))
  · exact List.mem_singleton.mp isLast ▸ le_rfl

/-- Up to the last record behind a version, nothing else of the log is behind it. -/
theorem between_of_last {front : List ReplicaLogEntry} {last : ReplicaLogEntry}
    (increasing : (done ++ behind).Pairwise fun first second => first.version < second.version)
    (ends : newerThan low done = front ++ [last]) (same : (high : Int) = last.version) :
    (low : Int) < last.version ∧ between (done ++ behind) low high = front ++ [last] := by
  obtain ⟨inDone, -, apart⟩ := List.pairwise_append.mp increasing
  have member : last ∈ newerThan low done :=
    ends ▸ List.mem_append_right _ (List.mem_singleton_self _)
  obtain ⟨lastDone, newer⟩ := List.mem_filter.mp member
  have most : ∀ entry ∈ newerThan low done, entry.version ≤ last.version := by
    have sorted : (newerThan low done).Pairwise fun first second =>
      first.version < second.version := inDone.sublist List.filter_sublist
    rw [ends] at sorted ⊢
    exact version_le_last sorted
  refine ⟨of_decide_eq_true newer, ?_⟩
  rw [← ends]
  apply between_append
  · intro entry inside above
    rw [same]
    exact most entry (List.mem_filter.mpr ⟨inside, decide_eq_true above⟩)
  · intro entry inside
    rw [same]
    exact apart last lastDone entry inside

theorem forall_mem_takeWhile (version : Nat) (records : List ReplicaLogEntry) :
    ∀ entry ∈ records.takeWhile (fun entry => entry.version ≤ (version : Int)),
      entry.version ≤ version :=
  fun entry member => of_decide_eq_true
    (@List.mem_takeWhile_imp _ (fun entry => decide (entry.version ≤ (version : Int))) _ entry
      member)

theorem forall_mem_dropWhile
    (increasing : records.Pairwise fun first second => first.version < second.version)
    (version : Nat) :
    ∀ entry ∈ records.dropWhile (fun entry => entry.version ≤ (version : Int)),
      (version : Int) < entry.version := by
  induction records with
  | nil => exact List.forall_mem_nil _
  | cons first records ih =>
      obtain ⟨least, sorted⟩ := List.pairwise_cons.mp increasing
      by_cases passed : first.version ≤ version
      · rw [@List.dropWhile_cons_of_pos _ _ first _ (decide_eq_true passed)]
        exact ih sorted
      · have stops : ¬decide (first.version ≤ (version : Int)) = true := by
          rwa [decide_eq_true_iff]
        rw [@List.dropWhile_cons_of_neg _ _ first _ stops]
        intro entry member
        rcases List.mem_cons.mp member with rfl | later
        · exact not_le.mp passed
        · exact (not_le.mp passed).trans (least entry later)

/-- What follows these records in a log is behind the version, also when the log grows. -/
structure Behind (records done : List ReplicaLogEntry) (version : Nat) : Prop where
  reached : version = 0 ∨ ∃ entry ∈ records, (version : Int) ≤ entry.version
  above : ∀ behind, records = done ++ behind → ∀ entry ∈ behind, (version : Int) < entry.version

theorem Behind.append (follows : Behind records done version) (batch : List ReplicaLogEntry) :
    Behind records (done ++ batch) version where
  reached := follows.reached
  above := by
    intro behind same entry member
    rw [List.append_assoc] at same
    exact follows.above _ same entry (List.mem_append_right _ member)

/-- A version that is reached is not in what the log gets later. -/
theorem above_of_reached
    (reached : version = 0 ∨ ∃ entry ∈ log.records, (version : Int) ≤ entry.version)
    {more : List ReplicaLogEntry} (whole : later.records = log.records ++ more) :
    ∀ entry ∈ more, (version : Int) < entry.version := by
  intro entry member
  have inLater : entry ∈ later.records := whole ▸ List.mem_append_right _ member
  rcases reached with rfl | ⟨other, inLog, least⟩
  · exact version_pos (later.fits entry inLater)
  · have increasing : later.records.Pairwise fun first second => first.version < second.version :=
      later.increasing
    rw [whole] at increasing
    exact least.trans_lt ((List.pairwise_append.mp increasing).2.2 other inLog entry member)

theorem Behind.grows (follows : Behind log.records done version) (start : done <+: log.records)
    (more : Grows log later) : Behind later.records done version := by
  obtain ⟨added, whole⟩ := more.records
  obtain ⟨rest, split⟩ := start
  constructor
  · rcases follows.reached with none | ⟨entry, member, least⟩
    · exact Or.inl none
    · exact Or.inr ⟨entry, whole ▸ List.mem_append_left _ member, least⟩
  · intro behind same
    have parts : behind = rest ++ added := by
      rw [whole, ← split, List.append_assoc] at same
      exact (List.append_cancel_left same).symm
    intro entry member
    rcases List.mem_append.mp (parts ▸ member) with inRest | inAdded
    · exact follows.above rest split.symm entry inRest
    · exact above_of_reached follows.reached whole entry inAdded

end Versions

/-- What `find_binlog_length` keeps of an answer. -/
theorem findBinlogLength_spec {lastDataVersion untilVersion waitCount : Nat}
    (fits : ∀ entry ∈ batch, entry.Fits)
    (increasing : batch.Pairwise fun first second => first.version < second.version)
    (least : lastDataVersion ≤ untilVersion) {found : List Char × Bool × Nat}
    (result : findBinlogLength lastDataVersion untilVersion waitCount (binlogText batch) =
      .ok found) :
    ∃ kept rest, batch = kept ++ rest ∧ found.1 = binlogText kept ∧
      (∀ entry ∈ kept, entry.version ≤ untilVersion) ∧
      (∀ entry ∈ rest, (untilVersion : Int) < entry.version) ∧
      (found.2.1 = false → rest = []) ∧
      (found.2.1 = true → lastDataVersion = untilVersion ∧ batch = [] ∨
        ∃ entry ∈ batch, (untilVersion : Int) ≤ entry.version) := by
  rcases List.eq_nil_or_concat' batch with rfl | ⟨front, last, rfl⟩
  · rw [findBinlogLength, binlogText_nil, if_pos rfl] at result
    dsimp only at result
    rw [if_pos rfl] at result
    refine ⟨[], [], rfl, ?_⟩
    by_cases same : lastDataVersion = untilVersion
    · rw [if_pos (Nat.cast_inj.mpr same)] at result
      obtain rfl := Except.ok.inj result
      exact ⟨rfl, List.forall_mem_nil _, List.forall_mem_nil _, fun _ => rfl,
        fun _ => Or.inl ⟨same, rfl⟩⟩
    · have less : (lastDataVersion : Int) < untilVersion :=
        Nat.cast_lt.mpr (lt_of_le_of_ne least same)
      rw [if_neg less.ne, if_pos less] at result
      split_ifs at result with timeout
      obtain rfl := Except.ok.inj result
      exact ⟨rfl, List.forall_mem_nil _, List.forall_mem_nil _, fun _ => rfl, nofun⟩
  · have inBatch : last ∈ front ++ [last] := List.mem_append_right _ (List.mem_singleton_self _)
    have some : binlogText (front ++ [last]) ≠ [] := by
      rw [binlogText_append]
      exact List.append_ne_nil_of_right_ne_nil _
        (List.ne_nil_of_mem (newline_mem_binlogText last []))
    have most := version_le_last increasing
    rw [findBinlogLength, if_neg some, getLastDataVersion_binlogText (fits last inBatch)] at result
    dsimp only at result
    rw [if_neg some] at result
    rcases lt_trichotomy last.version (untilVersion : Int) with less | same | more
    · rw [if_neg less.ne, if_pos less] at result
      obtain rfl := Except.ok.inj result
      refine ⟨front ++ [last], [], (List.append_nil _).symm, rfl, ?_, List.forall_mem_nil _,
        fun _ => rfl, nofun⟩
      exact fun entry member => (most entry member).trans less.le
    · rw [if_pos same] at result
      obtain rfl := Except.ok.inj result
      refine ⟨front ++ [last], [], (List.append_nil _).symm, rfl, ?_, List.forall_mem_nil _,
        fun _ => rfl, fun _ => Or.inr ⟨last, inBatch, same.ge⟩⟩
      exact fun entry member => (most entry member).trans same.le
    · rw [if_neg more.ne', if_neg more.le.not_gt, cutBinlog_binlogText fits increasing] at result
      obtain rfl := Except.ok.inj result
      refine ⟨_, _, List.takeWhile_append_dropWhile.symm, rfl, forall_mem_takeWhile _ _,
        forall_mem_dropWhile increasing _, nofun, fun _ => Or.inr ⟨last, inBatch, more.le⟩⟩

/-! ### The invariant -/

namespace FetchState

variable {cfg : FetchConfig} {s : FetchState}

/-- The fetched file has what is behind the version of the slave in the first part of the log. -/
def Has (cfg : FetchConfig) (s : FetchState) (done : List ReplicaLogEntry) : Prop :=
  done <+: s.log.records ∧ s.fetched = binlogText (newerThan cfg.dataVersion done)

/-- The slave asks for what is behind the last record of its file. -/
structure Asked (cfg : FetchConfig) (s : FetchState) : Prop where
  least : cfg.dataVersion ≤ s.lastDataVersion
  fetched : s.fetched = binlogText (between s.log.records cfg.dataVersion s.lastDataVersion)
  last : s.lastDataVersion = cfg.dataVersion ∨
    ∃ entry ∈ s.log.records, entry.version = s.lastDataVersion

/-- The slave has the first records, the reader stands behind the batch that is on its way. -/
structure Reads (cfg : FetchConfig) (s : FetchState) (done batch : List ReplicaLogEntry) :
    Prop where
  stands : ReaderAt s.log s.reader (done ++ batch)
  fetched : s.fetched = binlogText (newerThan cfg.dataVersion done)
  least : cfg.dataVersion ≤ s.lastDataVersion
  follows : Behind s.log.records done s.lastDataVersion

/-- `until_version` was read. -/
structure Marked (cfg : FetchConfig) (s : FetchState) (done : List ReplicaLogEntry) : Prop where
  known : s.known <+: s.log.records
  least : cfg.isOnline = true → s.lastDataVersion ≤ s.untilVersion
  upTo : cfg.isOnline = true → ∀ entry ∈ s.known, entry.version ≤ s.untilVersion
  passed : cfg.isOnline = true → ∀ entry ∈ done, entry.version ≤ s.untilVersion

/-- The fetch is over: all that was known is there, and online nothing else is up to
`until_version`. -/
structure Complete (cfg : FetchConfig) (s : FetchState) (done : List ReplicaLogEntry) : Prop where
  has : s.Has cfg done
  known : s.known <+: done
  passed : cfg.isOnline = true → ∀ entry ∈ done, entry.version ≤ s.untilVersion
  follows : cfg.isOnline = true → Behind s.log.records done s.untilVersion

def PointFits (cfg : FetchConfig) (s : FetchState) : FetchPoint → Prop
  | .idle => ∃ done, s.Has cfg done
  | .asked => s.Asked cfg
  | .located => ∃ done, s.Reads cfg done [] ∧ s.lastDataVersion ≤ s.dataVersion ∧
      ∀ entry ∈ done, entry.version ≤ s.lastDataVersion
  | .reading _ => ∃ done, s.Reads cfg done [] ∧ s.Marked cfg done
  | .read binlog left => ∃ done batch, s.Reads cfg done batch ∧ s.Marked cfg done ∧
      binlog = binlogText batch ∧
      (ReplicaLogEntry.maxRecordSize ≤ left → s.reader.index = s.log.currentWriteIndex →
        s.known <+: done ++ batch)
  | .answered binlog isLast => ∃ done batch, s.Reads cfg done batch ∧ s.Marked cfg done ∧
      binlog = binlogText batch ∧ (isLast = true → s.known <+: done ++ batch)
  | .finished => ∃ done, s.Complete cfg done

structure Sound (cfg : FetchConfig) (s : FetchState) : Prop where
  logged : ∀ entry ∈ s.log.records, entry.version ≤ s.dataVersion
  point : s.PointFits cfg s.point

theorem increasing (s : FetchState) :
    s.log.records.Pairwise fun first second => first.version < second.version :=
  s.log.increasing

theorem Reads.has (reads : s.Reads cfg done batch) : s.Has cfg done :=
  ⟨(List.prefix_append _ _).trans reads.stands.isPrefix, reads.fetched⟩

/-- The versions, and the place of the fetch, are not looked at. -/
theorem Reads.moved (reads : s.Reads cfg done batch) {dataVersion untilVersion : Nat}
    {known : List ReplicaLogEntry} {point : FetchPoint} :
    ({ s with
      dataVersion := dataVersion
      untilVersion := untilVersion
      known := known
      point := point } : FetchState).Reads cfg done batch where
  stands := reads.stands
  fetched := reads.fetched
  least := reads.least
  follows := reads.follows

theorem Marked.moved (marked : s.Marked cfg done) {dataVersion : Nat}
    {reader : ServerBinlogReader} {point : FetchPoint} :
    ({ s with
      dataVersion := dataVersion
      reader := reader
      point := point } : FetchState).Marked cfg done where
  known := marked.known
  least := marked.least
  upTo := marked.upTo
  passed := marked.passed

/-- What was known is in any first part of the log that nothing up to `until_version` follows. -/
theorem Marked.known_isPrefix (marked : s.Marked cfg done) (online : cfg.isOnline = true)
    {first : List ReplicaLogEntry} (start : first <+: s.log.records)
    (follows : Behind s.log.records first s.untilVersion) : s.known <+: first := by
  rcases List.prefix_or_prefix_of_prefix marked.known start with within | ⟨others, longer⟩
  · exact within
  · have none : others = [] := by
      apply List.eq_nil_iff_forall_not_mem.mpr
      intro entry member
      obtain ⟨later, parts⟩ := marked.known
      rw [← longer, List.append_assoc] at parts
      have behind := follows.above _ parts.symm entry (List.mem_append_left _ member)
      have before := marked.upTo online entry (longer ▸ List.mem_append_right _ member)
      exact absurd behind (not_lt.mpr before)
    rw [← longer, none, List.append_nil]

theorem Asked.has (asked : s.Asked cfg) : ∃ done, s.Has cfg done := by
  have split : s.log.records.takeWhile (fun entry => entry.version ≤ (s.lastDataVersion : Int)) ++
      s.log.records.dropWhile (fun entry => entry.version ≤ (s.lastDataVersion : Int)) =
      s.log.records := List.takeWhile_append_dropWhile
  refine ⟨s.log.records.takeWhile (fun entry => entry.version ≤ (s.lastDataVersion : Int)),
    List.takeWhile_prefix _, ?_⟩
  have whole := @between_append _ _ cfg.dataVersion s.lastDataVersion
    (fun entry member _ => forall_mem_takeWhile s.lastDataVersion s.log.records entry member)
    (forall_mem_dropWhile s.increasing s.lastDataVersion)
  rw [asked.fetched, ← whole, split]

/-- The reader is put between what the slave has and the rest. -/
theorem Asked.reads (asked : s.Asked cfg) {rest : List ReplicaLogEntry}
    (whole : s.log.records = done ++ rest) (stands : ReaderAt s.log reader done)
    (passed : Passed s.lastDataVersion done)
    (newer : ∀ entry ∈ rest, (s.lastDataVersion : Int) < entry.version)
    (reached : s.lastDataVersion = 0 ∨
      ∃ entry ∈ s.log.records, (s.lastDataVersion : Int) ≤ entry.version) :
    ({ s with reader := reader, point := .located } : FetchState).Reads cfg done [] where
  stands := by
    rw [List.append_nil]
    exact stands
  fetched := by
    dsimp only
    rw [asked.fetched, whole, between_append (fun entry member _ => passed entry member) newer]
  least := asked.least
  follows := by
    refine ⟨reached, ?_⟩
    intro behind same
    rw [whole] at same
    exact List.append_cancel_left same ▸ newer

/-- At any point the file can be gone on with. -/
theorem PointFits.has {point : FetchPoint} (fits : s.PointFits cfg point) :
    ∃ done, s.Has cfg done := by
  cases point with
  | idle => exact fits
  | asked => exact Asked.has fits
  | located =>
      obtain ⟨done, reads, -⟩ := fits
      exact ⟨done, reads.has⟩
  | reading first =>
      obtain ⟨done, reads, -⟩ := fits
      exact ⟨done, reads.has⟩
  | read binlog left =>
      obtain ⟨done, batch, reads, -⟩ := fits
      exact ⟨done, reads.has⟩
  | answered binlog isLast =>
      obtain ⟨done, batch, reads, -⟩ := fits
      exact ⟨done, reads.has⟩
  | finished =>
      obtain ⟨done, complete⟩ := fits
      exact ⟨done, complete.has⟩

/-! ### The log grows -/

section Grows

variable (more : Grows s.log later)
include more

theorem Has.grows (has : s.Has cfg done) : ({ s with log := later } : FetchState).Has cfg done := by
  obtain ⟨added, whole⟩ := more.records
  refine ⟨has.1.trans ?_, has.2⟩
  exact whole ▸ List.prefix_append _ _

theorem Asked.grows (asked : s.Asked cfg) : ({ s with log := later } : FetchState).Asked cfg := by
  obtain ⟨added, whole⟩ := more.records
  have none : between added cfg.dataVersion s.lastDataVersion = [] := by
    apply List.filter_eq_nil_iff.mpr
    intro entry member within
    obtain ⟨low, high⟩ := of_decide_eq_true within
    rcases asked.last with same | ⟨last, inLog, version⟩
    · rw [same] at high
      exact absurd low (not_lt.mpr high)
    · have above := above_of_reached (Or.inr ⟨last, inLog, version.ge⟩) whole entry member
      exact absurd high (not_le.mpr above)
  constructor
  · exact asked.least
  · rw [whole, between, List.filter_append, ← between, ← between, none, List.append_nil]
    exact asked.fetched
  · rcases asked.last with same | ⟨last, inLog, version⟩
    · exact Or.inl same
    · exact Or.inr ⟨last, whole ▸ List.mem_append_left _ inLog, version⟩

theorem Reads.grows (reads : s.Reads cfg done batch) :
    ({ s with log := later } : FetchState).Reads cfg done batch where
  stands := reads.stands.grows more
  fetched := reads.fetched
  least := reads.least
  follows := reads.follows.grows reads.has.1 more

theorem Marked.grows (marked : s.Marked cfg done) :
    ({ s with log := later } : FetchState).Marked cfg done := by
  obtain ⟨added, whole⟩ := more.records
  exact ⟨marked.known.trans (whole ▸ List.prefix_append _ _), marked.least, marked.upTo,
    marked.passed⟩

theorem Complete.grows (complete : s.Complete cfg done) :
    ({ s with log := later } : FetchState).Complete cfg done where
  has := complete.has.grows more
  known := complete.known
  passed := complete.passed
  follows online := (complete.follows online).grows complete.has.1 more

theorem PointFits.grows {point : FetchPoint} (fits : s.PointFits cfg point) :
    ({ s with log := later } : FetchState).PointFits cfg point := by
  cases point with
  | idle =>
      obtain ⟨done, has⟩ := fits
      exact ⟨done, has.grows more⟩
  | asked => exact Asked.grows more fits
  | located =>
      obtain ⟨done, reads, rest⟩ := fits
      exact ⟨done, reads.grows more, rest⟩
  | reading first =>
      obtain ⟨done, reads, marked⟩ := fits
      exact ⟨done, reads.grows more, marked.grows more⟩
  | read binlog left =>
      obtain ⟨done, batch, reads, marked, text, last⟩ := fits
      refine ⟨done, batch, reads.grows more, marked.grows more, text, ?_⟩
      intro room isLast
      have before := reads.stands.index_le
      have after := more.currentWriteIndex_le
      have same : s.reader.index = later.currentWriteIndex := isLast
      exact last room (by omega)
  | answered binlog isLast =>
      obtain ⟨done, batch, reads, marked, rest⟩ := fits
      exact ⟨done, batch, reads.grows more, marked.grows more, rest⟩
  | finished =>
      obtain ⟨done, complete⟩ := fits
      exact ⟨done, complete.grows more⟩

end Grows

/-! ### The steps -/

namespace Sound

variable (sound : s.Sound cfg)
include sound

theorem append (more : Grows s.log later)
    (logged : ∀ entry ∈ later.records, entry.version ≤ s.dataVersion) :
    ({ s with log := later } : FetchState).Sound cfg :=
  ⟨logged, sound.point.grows more⟩

theorem update : ({ s with dataVersion := s.dataVersion + 1 } : FetchState).Sound cfg := by
  constructor
  · intro entry member
    have within := sound.logged entry member
    push_cast
    omega
  · have fits := sound.point
    dsimp only
    cases point : s.point with
    | located =>
        rw [point] at fits
        obtain ⟨done, reads, within, passed⟩ := fits
        exact ⟨done, reads.moved, Nat.le_succ_of_le within, passed⟩
    | asked =>
        rw [point] at fits
        exact ⟨fits.least, fits.fetched, fits.last⟩
    | idle =>
        rw [point] at fits
        exact fits
    | reading first =>
        rw [point] at fits
        obtain ⟨done, reads, marked⟩ := fits
        exact ⟨done, reads.moved, marked.moved⟩
    | read binlog left =>
        rw [point] at fits
        obtain ⟨done, batch, reads, marked, rest⟩ := fits
        exact ⟨done, batch, reads.moved, marked.moved, rest⟩
    | answered binlog isLast =>
        rw [point] at fits
        obtain ⟨done, batch, reads, marked, rest⟩ := fits
        exact ⟨done, batch, reads.moved, marked.moved, rest⟩
    | finished =>
        rw [point] at fits
        obtain ⟨done, complete⟩ := fits
        exact ⟨done, complete.has, complete.known, complete.passed, complete.follows⟩

theorem giveUp : ({ s with point := .idle } : FetchState).Sound cfg :=
  ⟨sound.logged, sound.point.has⟩

theorem askAgain : (s.ask cfg.dataVersion []).Sound cfg :=
  ⟨sound.logged, le_rfl, (congrArg binlogText between_self).symm, Or.inl rfl⟩

/-- A file that was begun is gone on with behind its last record. -/
theorem checkAndOpen (idle : s.point = .idle) (old : Bool) :
    (s.checkAndOpen cfg old).Sound cfg := by
  have fits := sound.point
  rw [idle] at fits
  obtain ⟨done, ⟨rest, split⟩, fetched⟩ := fits
  rw [FetchState.checkAndOpen]
  split_ifs with empty isOld
  · exact sound.askAgain
  · exact sound.askAgain
  · rcases List.eq_nil_or_concat' (newerThan cfg.dataVersion done) with none | ⟨front, last, ends⟩
    · rw [none] at fetched
      exact absurd fetched empty
    · have inNewer : last ∈ newerThan cfg.dataVersion done :=
        ends ▸ List.mem_append_right _ (List.mem_singleton_self _)
      have inLog : last ∈ s.log.records :=
        split ▸ List.mem_append_left _ (List.mem_of_mem_filter inNewer)
      have pos : (last.version.toNat : Int) = last.version :=
        Int.toNat_of_nonneg (version_pos (s.log.fits last inLog)).le
      have sorted := s.increasing
      rw [← split] at sorted
      obtain ⟨newer, whole⟩ := between_of_last sorted ends pos
      rw [split] at whole
      obtain ⟨offset, recordLen, -, version⟩ :=
        lastDataVersion_append cfg.documented (s.log.fits last inLog) front
      rw [fetched, ends, version]
      dsimp only
      rw [if_neg (not_le.mpr newer)]
      have least : (cfg.dataVersion : Int) ≤ last.version.toNat := pos.symm ▸ newer.le
      exact ⟨sound.logged, Nat.cast_le.mp least, congrArg binlogText whole.symm,
        Or.inr ⟨last, inLog, pos.symm⟩⟩

/-- The reader is put behind what the slave has. -/
theorem locate (asked : s.point = .asked) (reaches : s.LogReaches .locate) :
    (s.locate cfg).Sound cfg := by
  have fits := sound.point
  rw [asked] at fits
  rw [FetchState.locate]
  split_ifs with less
  · exact sound.giveUp
  have enough : ∀ file ∈ s.log.files,
      (binlogText file).length < (binlogText s.log.records).length + 1 := by
    intro file member
    obtain ⟨before, after, files⟩ := List.append_of_mem member
    rw [ReplicaLog.records_eq files, binlogText_append, binlogText_append, List.length_append,
      List.length_append]
    omega
  obtain ⟨result, located, init⟩ := @readerInit_located s.log cfg.lines cfg.bufferSize cfg.memory _
    cfg.documented cfg.bufferRoom enough s.lastDataVersion
  rw [init]
  by_cases behind : ∃ record ∈ s.log.records, (s.lastDataVersion : Int) < record.version
  · obtain ⟨pos, ⟨before, older, record, later, after, files, passed, above, rfl⟩, rfl⟩ :=
      located.found behind
    have whole :
        s.log.records = (before.flatten ++ older) ++ (record :: later ++ after.flatten) := by
      rw [ReplicaLog.records_eq files, List.append_assoc, List.append_assoc]
    have newer : ∀ entry ∈ record :: later ++ after.flatten,
        (s.lastDataVersion : Int) < entry.version := by
      have sorted := s.increasing
      rw [whole] at sorted
      have rest := (List.pairwise_append.mp sorted).2.1
      rw [List.cons_append] at rest ⊢
      intro entry member
      rcases List.mem_cons.mp member with rfl | others
      · exact above
      · exact above.trans ((List.pairwise_cons.mp rest).1 entry others)
    rw [Except.map, ReplicaLog.openReadableBinlog_split files]
    dsimp only
    have stands : ReaderAt s.log ⟨before.length, (binlogText older).length, []⟩
        (before.flatten ++ older) := ⟨before, older, record :: later, after, files, rfl, rfl, rfl⟩
    have reached := behind.imp fun record found => And.intro found.1 found.2.le
    exact ⟨sound.logged, before.flatten ++ older,
      fits.reads whole stands passed newer (Or.inr reached), not_lt.mp less, passed⟩
  · have passed : Passed s.lastDataVersion s.log.records := by
      intro record member
      by_contra above
      exact behind ⟨record, member, not_le.mp above⟩
    rw [located.none passed]
    by_cases found : s.log.current = [] ∨ false = true ∨
        s.log.records.getLast?.map ReplicaLogEntry.version = some (s.lastDataVersion : Int)
    · rw [if_pos found]
      have stands : ReaderAt s.log
          ⟨s.log.currentWriteIndex, (binlogText s.log.current).length, []⟩ s.log.records := by
        refine ⟨s.log.closed, s.log.current, [], [], ?_, ?_, rfl, rfl⟩
        · rw [List.append_nil]
          rfl
        · rw [ReplicaLog.records, ReplicaLog.files, List.flatten_append, List.flatten_singleton]
      have reached : s.lastDataVersion = 0 ∨
          ∃ entry ∈ s.log.records, (s.lastDataVersion : Int) ≤ entry.version := by
        rcases found with empty | never | last
        · exact reaches empty
        · cases never
        · obtain ⟨entry, ends, version⟩ := Option.map_eq_some_iff.mp last
          exact Or.inr ⟨entry, List.mem_of_getLast? ends, version.ge⟩
      rw [Except.map, ReplicaLog.openReadableBinlog_end]
      dsimp only
      exact ⟨sound.logged, s.log.records,
        fits.reads (List.append_nil _).symm stands passed (List.forall_mem_nil _) reached,
        not_lt.mp less, passed⟩
    · rw [if_neg found]
      exact sound.giveUp

theorem mark (located : s.point = .located) : (s.mark cfg).Sound cfg := by
  have fits := sound.point
  rw [located] at fits
  obtain ⟨done, reads, within, passed⟩ := fits
  refine ⟨sound.logged, done, reads.moved, List.prefix_refl _, ?_, ?_, ?_⟩
  · intro online
    rw [FetchState.mark, if_pos online]
    exact within
  · intro online
    rw [FetchState.mark, if_pos online]
    exact sound.logged
  · intro online entry member
    rw [FetchState.mark, if_pos online]
    exact (passed entry member).trans (Nat.cast_le.mpr within)

theorem readBinlog {first : Bool} (reading : s.point = .reading first) {size : Nat}
    (room : ReplicaLogEntry.maxRecordSize ≤ size) : (s.readBinlog size).Sound cfg := by
  have fits := sound.point
  rw [reading] at fits
  obtain ⟨done, reads, marked⟩ := fits
  have stands := reads.stands
  rw [List.append_nil] at stands
  obtain ⟨batch, next⟩ := integralRead_spec stands room
  rw [FetchState.readBinlog, if_pos next.taken]
  refine ⟨sound.logged, done, batch, ⟨next.stands, reads.fetched, reads.least, reads.follows⟩,
    marked.moved, next.text, ?_⟩
  intro left isLast
  rw [next.last left isLast]
  exact marked.known

theorem answer {binlog : List Char} {left : Nat} (read : s.point = .read binlog left) :
    ({ s with point := .answered binlog (s.isLast left) } : FetchState).Sound cfg := by
  have fits := sound.point
  rw [read] at fits
  obtain ⟨done, batch, reads, marked, text, last⟩ := fits
  refine ⟨sound.logged, done, batch, reads.moved, marked.moved, text, ?_⟩
  intro isLast
  rw [FetchState.isLast] at isLast
  split_ifs at isLast with less
  exact last (not_lt.mp less) (of_decide_eq_true isLast)

/-- The slave has written the first part of an answer. -/
theorem keep {done kept rest : List ReplicaLogEntry} {waitCount : Nat} {isLast : Bool}
    (reads : s.Reads cfg done (kept ++ rest)) (marked : s.Marked cfg done)
    (upTo : cfg.isOnline = true → ∀ entry ∈ kept, entry.version ≤ s.untilVersion)
    (goesOn : isLast = false → rest = [])
    (known : isLast = true → s.known <+: done ++ kept)
    (follows : isLast = true → cfg.isOnline = true →
      Behind s.log.records (done ++ kept) s.untilVersion) :
    (s.keep (binlogText kept) isLast waitCount).Sound cfg := by
  have start : done ++ kept <+: s.log.records := by
    apply List.IsPrefix.trans _ reads.stands.isPrefix
    rw [← List.append_assoc]
    exact List.prefix_append _ _
  have newer : ∀ entry ∈ kept, (cfg.dataVersion : Int) < entry.version := by
    obtain ⟨others, split⟩ := start
    rw [List.append_assoc] at split
    intro entry member
    have above := reads.follows.above _ split.symm entry (List.mem_append_left _ member)
    exact lt_of_le_of_lt (Nat.cast_le.mpr reads.least) above
  have fetched : s.fetched ++ binlogText kept =
      binlogText (newerThan cfg.dataVersion (done ++ kept)) := by
    rw [newerThan_append, newerThan_of_forall newer, binlogText_append, reads.fetched]
  have passed (online : cfg.isOnline = true) :
      ∀ entry ∈ done ++ kept, entry.version ≤ s.untilVersion := by
    intro entry member
    exact (List.mem_append.mp member).elim (marked.passed online entry) (upTo online entry)
  cases isLast with
  | true =>
      exact ⟨sound.logged, done ++ kept, ⟨start, fetched⟩, known rfl, passed, follows rfl⟩
  | false =>
      refine ⟨sound.logged, done ++ kept, ⟨?_, fetched, reads.least, reads.follows.append kept⟩,
        marked.known, marked.least, marked.upTo, passed⟩
      have stands := reads.stands
      rw [goesOn rfl, List.append_nil] at stands
      rw [List.append_nil]
      exact stands

theorem fetchBinlogToLocal {binlog : List Char} {isLast : Bool}
    (answered : s.point = .answered binlog isLast) :
    (s.fetchBinlogToLocal cfg binlog isLast).Sound cfg := by
  have fits := sound.point
  rw [answered] at fits
  obtain ⟨done, batch, reads, marked, rfl, known⟩ := fits
  rw [FetchState.fetchBinlogToLocal]
  by_cases online : cfg.isOnline = true
  · rw [if_pos online]
    have least := marked.least online
    obtain ⟨todo, split⟩ := reads.stands.isPrefix
    have sorted := s.increasing
    rw [← split] at sorted
    have inLog : ∀ entry ∈ batch, entry ∈ s.log.records := fun entry member =>
      split ▸ List.mem_append_left _ (List.mem_append_right _ member)
    have increasing := (List.pairwise_append.mp (List.pairwise_append.mp sorted).1).2.1
    cases found : findBinlogLength s.lastDataVersion s.untilVersion s.waitCount
        (binlogText batch) with
    | error result => exact sound.giveUp
    | ok answer =>
        obtain ⟨kept, rest, rfl, text, upTo, above, goesOn, ends⟩ :=
          findBinlogLength_spec (fun entry member => s.log.fits entry (inLog entry member))
            increasing least found
        dsimp only
        rw [text]
        -- the answer that is cut, or ends at the version, leaves nothing up to it behind
        have follows (isLast : answer.2.1 = true) :
            Behind s.log.records (done ++ kept) s.untilVersion := by
          have whole : s.log.records = (done ++ kept) ++ (rest ++ todo) := by
            rw [← split, List.append_assoc, List.append_assoc, List.append_assoc]
          rcases ends isLast with ⟨same, none⟩ | ⟨last, inBatch, reached⟩
          · rw [← same]
            exact reads.follows.append kept
          · refine ⟨Or.inr ⟨last, inLog last inBatch, reached⟩, ?_⟩
            intro behind parts entry member
            rw [List.append_cancel_left (parts.symm.trans whole)] at member
            rcases List.mem_append.mp member with inRest | inTodo
            · exact above entry inRest
            · exact reached.trans_lt ((List.pairwise_append.mp sorted).2.2 last
                (List.mem_append_right _ inBatch) entry inTodo)
        apply sound.keep reads marked (fun _ => upTo) goesOn
        · intro isLast
          have start : done ++ kept <+: s.log.records := by
            refine ⟨rest ++ todo, ?_⟩
            rw [← split, List.append_assoc, List.append_assoc, List.append_assoc]
          exact marked.known_isPrefix online start (follows isLast)
        · exact fun isLast _ => follows isLast
  · rw [if_neg online]
    have stands : s.Reads cfg done (batch ++ []) := by rwa [List.append_nil]
    exact sound.keep stands marked (fun isOn => absurd isOn online) (fun _ => rfl) known
      fun _ isOn => absurd isOn online

theorem next {action : FetchAction} (enabled : s.Enabled action) (reaches : s.LogReaches action) :
    (s.next cfg action).Sound cfg := by
  cases action with
  | append later => exact sound.append enabled.1 enabled.2
  | update => exact sound.update
  | start old => exact sound.checkAndOpen enabled old
  | locate => exact sound.locate enabled reaches
  | mark => exact sound.mark enabled
  | read =>
      obtain ⟨first, reading⟩ := enabled
      rw [FetchState.next, reading]
      apply sound.readBinlog reading
      cases first with
      | true => exact cfg.firstRoom
      | false => exact cfg.nextRoom
  | answer =>
      obtain ⟨binlog, left, read⟩ := enabled
      rw [FetchState.next, read]
      exact sound.answer read
  | deal =>
      obtain ⟨binlog, isLast, answered⟩ := enabled
      rw [FetchState.next, answered]
      exact sound.fetchBinlogToLocal answered
  | stop => exact sound.giveUp

end Sound

theorem Start.sound (start : s.Start) : s.Sound cfg := by
  refine ⟨start.logged, ?_⟩
  rw [start.idle]
  exact ⟨[], List.nil_prefix, start.fetched⟩

/-- Steps at which the log reaches the version that the slave has, or its current file has a
record. -/
theorem sound_of_reachable (reached : Reachable ((FetchStep cfg).guarded LogReaches) Start s) :
    s.Sound cfg := by
  induction reached with
  | start first => exact first.sound
  | next action _ taken ih =>
      obtain ⟨reaches, enabled, rfl⟩ := taken
      exact ih.next enabled reaches

section Example

theorem fits_entries (versions : List Nat)
    (small : ∀ version ∈ versions, 1 ≤ version ∧ version < 10) :
    ∀ entry ∈ versions.map writeEntry, entry.Fits := by
  intro entry member
  obtain ⟨version, inside, rfl⟩ := List.mem_map.mp member
  obtain ⟨positive, below⟩ := small version inside
  exact writeEntry_fits positive (below.trans (by norm_num))

theorem fits_first : ∀ entry ∈ ([] ++ [[1, 3].map writeEntry]).flatten, entry.Fits :=
  fits_entries [1, 3] (by decide)

theorem increasing_first :
    ([] ++ [[1, 3].map writeEntry]).flatten.Pairwise fun (first second : ReplicaLogEntry) =>
      first.version < second.version := by
  decide

theorem fits_second :
    ∀ entry ∈ ([[1, 3].map writeEntry] ++ [[6, 8].map writeEntry]).flatten, entry.Fits :=
  fits_entries [1, 3, 6, 8] (by decide)

theorem increasing_second :
    ([[1, 3].map writeEntry] ++ [[6, 8].map writeEntry]).flatten.Pairwise
      fun (first second : ReplicaLogEntry) => first.version < second.version := by
  decide

theorem noFile : ∀ file ∈ ([] : List (List ReplicaLogEntry)), file ≠ [] := by
  intro file member
  cases member

theorem oneFile : ∀ file ∈ [[1, 3].map writeEntry], file ≠ [] := by
  decide

def firstLog : ReplicaLog := ⟨[], [1, 3].map writeEntry, noFile, fits_first, increasing_first⟩

/-- The writer went to the next file. -/
def secondLog : ReplicaLog :=
  ⟨[[1, 3].map writeEntry], [6, 8].map writeEntry, oneFile, fits_second, increasing_second⟩

theorem exactRoom : ReplicaLogEntry.maxRecordSize ≤ ReplicaLogEntry.maxRecordSize := le_rfl

theorem moreRoom : ReplicaLogEntry.maxRecordSize < 2 * ReplicaLogEntry.maxRecordSize := by
  decide

def lastBatch : FetchConfig where
  dataVersion := 1
  isOnline := true
  lines := wholeLines
  memory _ := []
  bufferSize := 2 * ReplicaLogEntry.maxRecordSize
  firstSize := ReplicaLogEntry.maxRecordSize
  nextSize := 2 * ReplicaLogEntry.maxRecordSize
  documented := wholeLines_documented
  bufferRoom := moreRoom
  firstRoom := exactRoom
  nextRoom := moreRoom.le

/-- The master has given out versions that are not in its log yet. -/
def notFetched : FetchState := ⟨firstLog, 6, ⟨0, 0, []⟩, 0, 0, 0, [], .idle, []⟩

theorem start_notFetched : notFetched.Start :=
  ⟨rfl, rfl, by decide⟩

theorem locate_log (s : FetchState) : (s.locate lastBatch).log = s.log := by
  rw [FetchState.locate]
  split_ifs
  · rfl
  · split
    · rfl
    · rfl

/-- The log goes on behind `until_version` while the first answer is read. -/
def fetchedTwo : FetchState :=
  [FetchAction.start false, .locate, .mark, .update, .update, .append secondLog, .read, .answer,
    .deal, .read, .answer, .deal].foldl (next lastBatch) notFetched

theorem reached_fetchedTwo :
    Reachable ((FetchStep lastBatch).guarded LogReaches) Start fetchedTwo := by
  have start : Reachable ((FetchStep lastBatch).guarded LogReaches) Start notFetched :=
    .start start_notFetched
  have asked := start.actGuarded (.start false) trivial rfl
  have located := asked.actGuarded .locate (fun empty => absurd empty (List.cons_ne_nil _ _)) rfl
  have isLocated :
      ((notFetched.next lastBatch (.start false)).locate lastBatch).point = .located := by
    decide +kernel
  have marked := located.actGuarded .mark trivial isLocated
  have updated := (marked.actGuarded .update trivial trivial).actGuarded .update trivial trivial
  have grown := updated.actGuarded (.append secondLog) trivial
    ⟨(locate_log _).symm ▸ ⟨[], [[6, 8].map writeEntry], rfl⟩, by decide +kernel⟩
  have read := grown.actGuarded .read trivial ⟨true, by decide +kernel⟩
  have answered := read.actGuarded .answer trivial
    ⟨binlogText [writeEntry 3], 128 - (binlogText [writeEntry 3]).length, by decide +kernel⟩
  have dealt := answered.actGuarded .deal trivial
    ⟨binlogText [writeEntry 3], false, by decide +kernel⟩
  have again := dealt.actGuarded .read trivial ⟨false, by decide +kernel⟩
  have more := again.actGuarded .answer trivial
    ⟨binlogText ([6, 8].map writeEntry), 256 - (binlogText ([6, 8].map writeEntry)).length,
      by decide +kernel⟩
  exact more.actGuarded .deal trivial
    ⟨binlogText ([6, 8].map writeEntry), true, by decide +kernel⟩

end Example

end FetchState

end FastStore.Recovery
