import FastStore.Recovery.DataRecovery

/-!
# A recovery resumes where it was interrupted

Whatever stops a recovery, the files that are left say how far it came: the replica
binlog ends with the records of a part of the replay file, and the replay goes on
behind it.  This holds in every run in which no batch leaves more runs of bytes than
it has data versions for, and in which the stage data is removed only when the
records logged for the batch are in the replica binlog.
-/

namespace FastStore.Recovery

open FastStore.Util FastStore.Storage FastStore.Binlog

/-! ## Consecutive data versions -/

section Consecutive

variable {version : Nat} {front rest records : List ReplicaBinlogRecord}

theorem consecutive_append_iff :
    Consecutive version (front ++ rest) ↔
      Consecutive version front ∧ Consecutive (version + front.length) rest := by
  have behind : version + front.length + 1 = version + 1 + front.length := by omega
  simp only [Consecutive, List.map_append, List.length_append, behind]
  rw [← List.range'_append_1]
  constructor
  · intro equal
    exact List.append_inj equal (by simp)
  · rintro ⟨ofFront, ofRest⟩
    rw [ofFront, ofRest]

theorem version_of_mem_consecutive (consecutive : Consecutive version records)
    {record : ReplicaBinlogRecord} (member : record ∈ records) :
    version < record.dataVersion ∧ record.dataVersion ≤ version + records.length := by
  have inRange : record.dataVersion ∈ records.map ReplicaBinlogRecord.dataVersion :=
    List.mem_map_of_mem member
  rw [consecutive, List.mem_range'_1] at inRange
  omega

theorem ascending_of_consecutive (consecutive : Consecutive version records) :
    records.Pairwise fun earlier later => earlier.dataVersion < later.dataVersion := by
  have versions : (records.map ReplicaBinlogRecord.dataVersion).Pairwise (· < ·) := by
    rw [consecutive]
    exact List.pairwise_lt_range'
  exact List.pairwise_map.mp versions

/-- Consecutive records behind a log end at their own number. -/
theorem lastVersion_append_of_consecutive {before : List ReplicaBinlogRecord}
    (consecutive : Consecutive (lastVersion before) records) :
    lastVersion (before ++ records) = lastVersion before + records.length := by
  rw [← fetchLastDataVersion_of_consecutive consecutive, fetchLastDataVersion]
  cases last : records.getLast? with
  | none => simp [List.getLast?_eq_none_iff.mp last]
  | some record =>
      have nonempty : records ≠ [] := by
        intro empty
        simp [empty] at last
      rw [lastVersion, lastKey_append_of_ne_nil _ nonempty, lastKey, last]
      rfl

theorem recordsAfter_consecutive (consecutive : Consecutive version (front ++ rest)) :
    recordsAfter (version + front.length) (front ++ rest) = rest := by
  obtain ⟨ofFront, ofRest⟩ := consecutive_append_iff.mp consecutive
  refine resumeAfter_append (fun record member => ?_) fun record member => ?_
  · exact (version_of_mem_consecutive ofFront member).2
  · exact (version_of_mem_consecutive ofRest member).1

end Consecutive

/-! ## What a task logs -/

/-- The record is logged for the task. -/
def Logs (task record : ReplicaBinlogRecord) : Prop :=
  ∃ result, dealTask task result = some record

theorem Logs.dataVersion {task record : ReplicaBinlogRecord} (logs : Logs task record) :
    record.dataVersion = task.dataVersion := by
  obtain ⟨result, dealt⟩ := logs
  unfold dealTask at dealt
  split at dealt <;> cases dealt <;> rfl

/-- The records logged for consecutive tasks are consecutive. -/
theorem consecutive_of_logs {version : Nat} {tasks records : List ReplicaBinlogRecord}
    (logs : List.Forall₂ Logs tasks records) (consecutive : Consecutive version tasks) :
    Consecutive version records := by
  have versions : records.map ReplicaBinlogRecord.dataVersion =
      tasks.map ReplicaBinlogRecord.dataVersion := by
    clear consecutive
    induction logs with
    | nil => rfl
    | cons logged _ ih => rw [List.map_cons, List.map_cons, logged.dataVersion, ih]
  rw [Consecutive, versions, ← logs.length_eq]
  exact consecutive

/-! ## How far a batch has come -/

/-- The records `entries` logged for a batch and the records `todo` of its replay file
still to replay, when the slave was at `base` before. -/
inductive Progress (base : Nat) (replay : List ReplicaBinlogRecord)
    (padding : ReplicaBinlogRecord) :
    List ReplicaBinlogRecord → List ReplicaBinlogRecord → Prop where
  /-- The records of a part of the replay file are logged, each for its task. -/
  | replayed {done todo entries : List ReplicaBinlogRecord} :
      replay = done ++ todo → List.Forall₂ Logs done entries →
        Progress base replay padding todo entries
  /-- So are all of them, and the padding. -/
  | padded {entries : List ReplicaBinlogRecord} :
      base + replay.length < padding.dataVersion → List.Forall₂ Logs replay entries →
        Progress base replay padding [] (entries ++ [padding])

namespace Progress

variable {base : Nat} {replay todo entries : List ReplicaBinlogRecord}
  {padding : ReplicaBinlogRecord}

/-- A part of what is logged is progress, too. -/
theorem of_prefix (progress : Progress base replay padding todo entries)
    {kept : List ReplicaBinlogRecord} (part : kept <+: entries) :
    ∃ todo, Progress base replay padding todo kept := by
  have ofReplayed : ∀ {done todo entries : List ReplicaBinlogRecord}, replay = done ++ todo →
      List.Forall₂ Logs done entries → kept <+: entries →
        ∃ todo, Progress base replay padding todo kept := by
    intro done todo entries parts logs part
    have cut := List.forall₂_take kept.length logs
    rw [← List.prefix_iff_eq_take.mp part] at cut
    refine ⟨done.drop kept.length ++ todo, .replayed ?_ cut⟩
    rw [← List.append_assoc, List.take_append_drop, parts]
  cases progress with
  | replayed parts logs => exact ofReplayed parts logs part
  | padded below logs =>
      obtain whole | shorter := List.prefix_concat_iff.mp part
      · exact ⟨[], whole ▸ .padded below logs⟩
      · exact ofReplayed (List.append_nil _).symm logs shorter

/-- The data version of a slave that has come so far. -/
theorem version_cases {before : List ReplicaBinlogRecord}
    (progress : Progress (lastVersion before) replay padding todo entries)
    (consecutive : Consecutive (lastVersion before) replay) :
    (∃ done, replay = done ++ todo ∧ List.Forall₂ Logs done entries ∧
        lastVersion (before ++ entries) = lastVersion before + done.length) ∨
      (todo = [] ∧ lastVersion before + replay.length < padding.dataVersion ∧
        lastVersion (before ++ entries) = padding.dataVersion) := by
  cases progress with
  | replayed parts logs =>
      rw [parts] at consecutive
      have ofDone := (consecutive_append_iff.mp consecutive).1
      refine .inl ⟨_, parts, logs, ?_⟩
      rw [lastVersion_append_of_consecutive (consecutive_of_logs logs ofDone), logs.length_eq]
  | padded below logs =>
      refine .inr ⟨rfl, below, ?_⟩
      rw [← List.append_assoc, lastVersion, lastKey_concat]

/-- The replay goes on behind the data version. -/
theorem todo_eq {before : List ReplicaBinlogRecord}
    (progress : Progress (lastVersion before) replay padding todo entries)
    (consecutive : Consecutive (lastVersion before) replay) :
    recordsAfter (lastVersion (before ++ entries)) replay = todo := by
  obtain ⟨done, parts, -, version⟩ | ⟨rfl, below, version⟩ := progress.version_cases consecutive
  · rw [version, parts]
    exact recordsAfter_consecutive (parts ▸ consecutive)
  · rw [version, ← List.append_nil replay]
    refine resumeAfter_append (fun record member => ?_) (by simp)
    have := (version_of_mem_consecutive consecutive member).2
    omega

end Progress

namespace RecoveryState

variable {setting : RecoverySetting} {s : RecoveryState}

/-- The steps after which an interruption can be resumed.  The batch leaves no more
runs of bytes than there are data versions up to the last fetched one, and the stage
data goes only when what was logged is written. -/
def Undisturbed (s : RecoveryState) : RecoveryAction → Prop
  | .dedupEnd => s.dataVersion + (runStarts s.fetched).ncard ≤ lastVersion s.fetched
  | .unlinkSys => s.writing = []
  | _ => True

/-! ## Fetching -/

/-- The records that `fetched` would go on with are the master's. -/
theorem fetched_inBlock {version : Nat} {fetched : List ReplicaBinlogRecord}
    (part : fetched <+: recordsAfter version setting.master) :
    ∀ record ∈ fetched, record.InBlock := by
  intro record member
  exact setting.inBlock record ((resumeAfter_suffix _ _).subset (part.subset member))

theorem consecutive_output {version : Nat} {fetched : List ReplicaBinlogRecord}
    (part : fetched <+: recordsAfter version setting.master) (base : Nat) :
    Consecutive base (output setting base fetched) :=
  dataVersion_dedup _ _ _ _ _ (fetched_inBlock part)

theorem length_output {version : Nat} {fetched : List ReplicaBinlogRecord}
    (part : fetched <+: recordsAfter version setting.master) (base : Nat) :
    (output setting base fetched).length = (runStarts fetched).ncard :=
  length_dedup _ _ _ _ _ (fetched_inBlock part)

/-- A fetch goes on behind the last fetched record. -/
theorem fetched_append {version : Nat} {fetched : List ReplicaBinlogRecord}
    (part : fetched <+: recordsAfter version setting.master) (nonempty : fetched ≠ [])
    (count : Nat) :
    fetched ++ (recordsAfter (lastVersion fetched) setting.master).take count <+:
      recordsAfter version setting.master := by
  obtain ⟨rest, parts⟩ := part
  have suffix : recordsAfter version setting.master <:+ setting.master := resumeAfter_suffix _ _
  obtain ⟨passed, whole⟩ := suffix
  have master : setting.master = (passed ++ fetched) ++ rest := by
    rw [List.append_assoc, parts, whole]
  have reached : lastVersion fetched = lastVersion (passed ++ fetched) :=
    (lastKey_append_of_ne_nil _ nonempty).symm
  have behind : recordsAfter (lastVersion fetched) setting.master = rest := by
    rw [reached, master]
    exact resumeAfter_lastKey (master ▸ setting.ascending) (by simp [nonempty])
  rw [behind, ← parts]
  exact List.prefix_append_right_inj fetched |>.mpr (List.take_prefix _ _)

/-! ## The invariant -/

/-- Where a recovery can stand that has saved no stage but the fetch. -/
def FetchPoint (setting : RecoverySetting) (s : RecoveryState) : RecoveryPoint → Prop
  | .stopped | .enter .fetch | .unlinkingReplay | .unlinkingFetched => True
  | .fetching => s.fetched <+: recordsAfter s.dataVersion setting.master ∧
      (s.fetched = [] → s.fetch.lastDataVersion = s.dataVersion)
  | .finished => s.fetched = []
  | _ => False

/-- No stage but the fetch is saved.  What has been fetched is the master's next
records, or it was replayed before. -/
structure Fetching (setting : RecoverySetting) (s : RecoveryState) : Prop where
  sysData : ∀ sysData, s.sysData = some sysData → sysData.stage = .fetch
  writing : s.writing = []
  fetched : lastVersion s.fetched ≤ s.dataVersion ∨
    s.fetched <+: recordsAfter s.dataVersion setting.master
  point : FetchPoint setting s s.point

/-- How far the batch of the fetched records has come, with `before` logged before. -/
abbrev BatchProgress (setting : RecoverySetting) (last : RecoveryFetch)
    (before fetched todo entries : List ReplicaBinlogRecord) : Prop :=
  Progress (lastVersion before) (output setting (lastVersion before) fetched)
    (noOpRecord last.lastDataVersion last.lastBkey) todo entries

/-- What the saved stage of a batch says with `entries` logged. -/
def BatchSaved (setting : RecoverySetting) (s : RecoveryState) (last : RecoveryFetch)
    (before entries : List ReplicaBinlogRecord) : RecoveryStage → Prop
  | .fetch => False
  | .dedup => entries = [] ∨ output setting (lastVersion before) s.fetched = []
  | .replay => s.replay = some (output setting (lastVersion before) s.fetched) ∧
      lastVersion before + (output setting (lastVersion before) s.fetched).length ≤
        last.lastDataVersion

/-- Where a batch can stand with `entries` logged. -/
def BatchPoint (setting : RecoverySetting) (s : RecoveryState) (stage : RecoveryStage)
    (last : RecoveryFetch) (before entries : List ReplicaBinlogRecord) : RecoveryPoint → Prop
  | .stopped => True
  | .enter entered => entered = stage
  | .deduping => stage = .dedup
  | .replaying todo =>
      stage = .replay ∧ BatchProgress setting last before s.fetched todo entries
  | .waitingReplay => stage = .replay ∧ BatchProgress setting last before s.fetched [] entries
  | .waitingPadding | .finished => s.dataVersion = last.lastDataVersion ∧
      BatchProgress setting last before s.fetched [] entries
  | .fetching | .unlinkingReplay | .unlinkingFetched => False

/-- A batch is in its dedup or replay stage: `before` was logged before it and is
written, `entries` is logged for it. -/
structure Batch (setting : RecoverySetting) (s : RecoveryState) (stage : RecoveryStage)
    (last : RecoveryFetch) (before entries : List ReplicaBinlogRecord) : Prop where
  sysData : s.sysData = some ⟨stage, last⟩
  fetch : s.point ≠ .stopped → s.fetch = last
  lastRecord : ∃ record, s.fetched.getLast? = some record ∧
    last = ⟨record.dataVersion, record.bsKey.block⟩
  fetched : s.fetched <+: recordsAfter (lastVersion before) setting.master
  written : ∃ front, s.binlog = before ++ front ∧ front ++ s.writing = entries
  progress : ∃ todo, BatchProgress setting last before s.fetched todo entries
  saved : BatchSaved setting s last before entries stage
  point : BatchPoint setting s stage last before entries s.point

structure Invariant (setting : RecoverySetting) (s : RecoveryState) : Prop where
  ascending : s.logged.Pairwise fun earlier later => earlier.dataVersion < later.dataVersion
  dataVersion : s.dataVersion = lastVersion s.logged
  phase : Fetching setting s ∨ ∃ stage last before entries,
    Batch setting s stage last before entries

namespace Batch

variable {stage : RecoveryStage} {last : RecoveryFetch}
  {before entries : List ReplicaBinlogRecord}

theorem logged (batch : Batch setting s stage last before entries) :
    s.logged = before ++ entries := by
  obtain ⟨front, binlog, rest⟩ := batch.written
  rw [RecoveryState.logged, binlog, List.append_assoc, rest]

theorem lastVersion_fetched (batch : Batch setting s stage last before entries) :
    lastVersion s.fetched = last.lastDataVersion := by
  obtain ⟨record, found, rfl⟩ := batch.lastRecord
  simp [lastVersion, lastKey, found]

/-- The slave was behind the last fetched record. -/
theorem before_lt_last (batch : Batch setting s stage last before entries) :
    lastVersion before < last.lastDataVersion := by
  obtain ⟨record, found, rfl⟩ := batch.lastRecord
  have member : record ∈ s.fetched := List.mem_of_getLast? found
  exact lt_of_mem_resumeAfter setting.ascending (batch.fetched.subset member)

theorem consecutive (batch : Batch setting s stage last before entries) :
    Consecutive (lastVersion before) (output setting (lastVersion before) s.fetched) :=
  consecutive_output batch.fetched _

/-- The recovery goes to another point of the batch. -/
theorem move (batch : Batch setting s stage last before entries) (running : s.point ≠ .stopped)
    {point : RecoveryPoint} (here : BatchPoint setting s stage last before entries point) :
    Batch setting { s with point } stage last before entries where
  sysData := batch.sysData
  fetch := fun _ => batch.fetch running
  lastRecord := batch.lastRecord
  fetched := batch.fetched
  written := batch.written
  progress := batch.progress
  saved := batch.saved
  point := by cases point <;> exact here

end Batch

/-! ## The steps -/

/-- A step that logs nothing has the phase to keep. -/
theorem Invariant.of_phase {s' : RecoveryState} (inv : Invariant setting s)
    (logged : s'.logged = s.logged) (dataVersion : s'.dataVersion = s.dataVersion)
    (phase : Fetching setting s' ∨ ∃ stage last before entries,
      Batch setting s' stage last before entries) : Invariant setting s' where
  ascending := logged ▸ inv.ascending
  dataVersion := by rw [dataVersion, logged, inv.dataVersion]
  phase := phase

/-- A step that logs the next record. -/
theorem Invariant.of_logged {s' : RecoveryState} (inv : Invariant setting s)
    {record : ReplicaBinlogRecord} (logged : s'.logged = s.logged ++ [record])
    (above : s.dataVersion < record.dataVersion) (dataVersion : s'.dataVersion = record.dataVersion)
    (phase : Fetching setting s' ∨ ∃ stage last before entries,
      Batch setting s' stage last before entries) : Invariant setting s' where
  ascending := by
    rw [logged, List.pairwise_append]
    refine ⟨inv.ascending, List.pairwise_singleton _ _, ?_⟩
    intro earlier member later isLast
    rw [List.mem_singleton.mp isLast]
    rw [inv.dataVersion] at above
    exact (le_lastKey inv.ascending member).trans_lt above
  dataVersion := by rw [dataVersion, logged, lastVersion, lastKey_concat]
  phase := phase

theorem Invariant.start (inv : Invariant setting s) : Invariant setting s.start := by
  obtain fetching | ⟨stage, last, before, entries, batch⟩ := inv.phase
  · unfold RecoveryState.start
    cases saved : s.sysData with
    | none => exact inv.of_phase rfl rfl (.inl ⟨by simp, fetching.writing, fetching.fetched, trivial⟩)
    | some sysData =>
        have isFetch := fetching.sysData sysData saved
        refine inv.of_phase rfl rfl (.inl ⟨?_, fetching.writing, fetching.fetched, ?_⟩)
        · simpa [saved] using isFetch
        · simp only [isFetch, FetchPoint]
  · refine inv.of_phase ?_ ?_ (.inr ⟨stage, last, before, entries, ?_⟩)
    · simp only [RecoveryState.start, batch.sysData, RecoveryState.logged]
    · simp only [RecoveryState.start, batch.sysData]
    · simp only [RecoveryState.start, batch.sysData]
      exact {
        sysData := rfl
        fetch := fun _ => rfl
        lastRecord := batch.lastRecord
        fetched := batch.fetched
        written := batch.written
        progress := batch.progress
        saved := batch.saved
        point := rfl }

theorem Invariant.checkAndOpenBinlogFile (inv : Invariant setting s) (stale : Bool)
    (possible : s.point = .enter .fetch) :
    Invariant setting (s.checkAndOpenBinlogFile stale) := by
  obtain fetching | ⟨stage, last, before, entries, batch⟩ := inv.phase
  · unfold RecoveryState.checkAndOpenBinlogFile
    by_cases empty : s.fetched = []
    · simp only [empty, if_true]
      refine inv.of_phase rfl rfl (.inl ⟨fetching.sysData, fetching.writing, ?_, ?_⟩)
      · simp
      · simp [FetchPoint]
    · simp only [empty, if_false]
      split_ifs with old
      · refine inv.of_phase rfl rfl (.inl ⟨fetching.sysData, fetching.writing, ?_, ?_⟩)
        · simp
        · simp [FetchPoint]
      · have next : s.fetched <+: recordsAfter s.dataVersion setting.master := by
          refine fetching.fetched.resolve_left fun reached => old ?_
          simp [reached]
        exact inv.of_phase rfl rfl (.inl ⟨fetching.sysData, fetching.writing, .inr next,
          next, fun none => absurd none empty⟩)
  · have saved := batch.saved
    have entered : RecoveryStage.fetch = stage := by
      simpa [possible, BatchPoint] using batch.point
    subst entered
    exact saved.elim

theorem Invariant.fetchBinlogToLocal (inv : Invariant setting s) (count : Nat)
    (possible : s.point = .fetching) : Invariant setting (s.fetchBinlogToLocal setting count) := by
  obtain fetching | ⟨stage, last, before, entries, batch⟩ := inv.phase
  · have here := fetching.point
    rw [possible] at here
    obtain ⟨next, atVersion⟩ := here
    have longer : (s.fetchBinlogToLocal setting count).fetched <+:
        recordsAfter s.dataVersion setting.master := by
      unfold RecoveryState.fetchBinlogToLocal
      by_cases empty : s.fetched = []
      · simp only [empty, if_true, atVersion empty, List.nil_append]
        exact List.take_prefix _ _
      · simp only [empty, if_false]
        exact fetched_append next empty count
    refine inv.of_phase rfl rfl (.inl ⟨fetching.sysData, fetching.writing, .inr longer, ?_⟩)
    have fetchingStill : (s.fetchBinlogToLocal setting count).point = .fetching := possible
    rw [fetchingStill]
    refine ⟨longer, fun empty => atVersion ?_⟩
    exact (List.append_eq_nil_iff.mp empty).1
  · have never := batch.point
    rw [possible] at never
    exact never.elim

theorem Invariant.fetchEnd (inv : Invariant setting s) (possible : s.point = .fetching) :
    Invariant setting s.fetchEnd := by
  obtain fetching | ⟨stage, last, before, entries, batch⟩ := inv.phase
  · have here := fetching.point
    rw [possible] at here
    have logged : s.logged = s.binlog := by rw [RecoveryState.logged, fetching.writing,
      List.append_nil]
    have version : s.dataVersion = lastVersion s.binlog := by rw [inv.dataVersion, logged]
    unfold RecoveryState.fetchEnd
    cases found : s.fetched.getLast? with
    | none =>
        have empty := List.getLast?_eq_none_iff.mp found
        exact inv.of_phase rfl rfl (.inl ⟨fetching.sysData, fetching.writing, fetching.fetched,
          empty⟩)
    | some record =>
        refine inv.of_phase rfl rfl (.inr ⟨.dedup, ⟨record.dataVersion, record.bsKey.block⟩,
          s.binlog, [], ?_⟩)
        exact {
          sysData := rfl
          fetch := fun _ => rfl
          lastRecord := ⟨record, found, rfl⟩
          fetched := version ▸ here.1
          written := ⟨[], (List.append_nil _).symm, fetching.writing⟩
          progress := ⟨_, .replayed (List.nil_append _).symm .nil⟩
          saved := .inl rfl
          point := rfl }
  · have never := batch.point
    rw [possible] at never
    exact never.elim

/-- At these points a batch is on its way. -/
theorem Invariant.exists_batch (inv : Invariant setting s) {point : RecoveryPoint}
    (here : s.point = point) (away : ¬ FetchPoint setting s point) :
    ∃ stage last before entries, Batch setting s stage last before entries ∧
      BatchPoint setting s stage last before entries point := by
  obtain fetching | ⟨stage, last, before, entries, batch⟩ := inv.phase
  · exact absurd (here ▸ fetching.point) away
  · exact ⟨stage, last, before, entries, batch, here ▸ batch.point⟩

theorem Invariant.dedup_batch (inv : Invariant setting s)
    (possible : s.point = .enter .dedup ∨ s.point = .deduping) :
    ∃ last before entries, Batch setting s .dedup last before entries := by
  obtain here | here := possible
  · obtain ⟨stage, last, before, entries, batch, entered⟩ := inv.exists_batch here id
    cases entered
    exact ⟨last, before, entries, batch⟩
  · obtain ⟨stage, last, before, entries, batch, dedup⟩ := inv.exists_batch here id
    cases dedup
    exact ⟨last, before, entries, batch⟩

theorem Invariant.dedupWrite (inv : Invariant setting s) (count : Nat)
    (possible : s.point = .enter .dedup ∨ s.point = .deduping) :
    Invariant setting (s.dedupWrite setting count) := by
  obtain ⟨last, before, entries, batch⟩ := inv.dedup_batch possible
  have running : s.point ≠ .stopped := by
    obtain here | here := possible <;> simp [here]
  refine inv.of_phase rfl rfl (.inr ⟨.dedup, last, before, entries, ?_⟩)
  exact {
    sysData := batch.sysData
    fetch := fun _ => batch.fetch running
    lastRecord := batch.lastRecord
    fetched := batch.fetched
    written := batch.written
    progress := batch.progress
    saved := batch.saved
    point := rfl }

/-- The padding, or none, once everything is replayed. -/
theorem Invariant.logPadding (inv : Invariant setting s) {stage : RecoveryStage}
    {last : RecoveryFetch} {before entries : List ReplicaBinlogRecord}
    (batch : Batch setting s stage last before entries) (running : s.point ≠ .stopped)
    (replayed : BatchProgress setting last before s.fetched [] entries)
    (within : lastVersion before + (output setting (lastVersion before) s.fetched).length ≤
      last.lastDataVersion)
    (saved : ∀ entries, BatchSaved setting s last before entries stage) :
    Invariant setting s.logPadding := by
  have version : s.dataVersion = lastVersion (before ++ entries) := by
    rw [inv.dataVersion, batch.logged]
  have atLast := batch.fetch running
  unfold RecoveryState.logPadding
  obtain ⟨done, parts, logs, reached⟩ | ⟨-, -, reached⟩ :=
    replayed.version_cases batch.consecutive
  · rw [List.append_nil] at parts
    subst parts
    split_ifs with behind
    · have below : lastVersion before + (output setting (lastVersion before) s.fetched).length <
          last.lastDataVersion := by
        rw [← reached, ← version, ← atLast]
        exact behind
      have restored : s.fetch.lastDataVersion - 1 + 1 = last.lastDataVersion := by
        rw [← atLast]
        omega
      refine inv.of_logged (List.append_assoc _ _ _).symm behind ?_ (.inr ⟨stage, last, before,
        entries ++ [noOpRecord last.lastDataVersion last.lastBkey], ?_⟩)
      · rw [restored, ← atLast]
        rfl
      obtain ⟨front, binlog, rest⟩ := batch.written
      exact {
        sysData := batch.sysData
        fetch := fun _ => atLast
        lastRecord := batch.lastRecord
        fetched := batch.fetched
        written := ⟨front, binlog, by rw [← rest, List.append_assoc, atLast]⟩
        progress := ⟨[], .padded below logs⟩
        saved := saved _
        point := ⟨restored, .padded below logs⟩ }
    · have arrived : s.dataVersion = last.lastDataVersion := by
        rw [atLast] at behind
        omega
      exact inv.of_phase rfl rfl (.inr ⟨stage, last, before, entries,
        batch.move running ⟨arrived, replayed⟩⟩)
  · have arrived : s.dataVersion = last.lastDataVersion := version.trans reached
    rw [if_neg (by rw [atLast]; exact arrived.not_lt)]
    exact inv.of_phase rfl rfl (.inr ⟨stage, last, before, entries,
      batch.move running ⟨arrived, replayed⟩⟩)

theorem Invariant.dedupEnd (inv : Invariant setting s)
    (possible : s.point = .enter .dedup ∨ s.point = .deduping)
    (enough : s.dataVersion + (runStarts s.fetched).ncard ≤ lastVersion s.fetched) :
    Invariant setting (s.dedupEnd setting) := by
  obtain ⟨last, before, entries, batch⟩ := inv.dedup_batch possible
  have running : s.point ≠ .stopped := by
    obtain here | here := possible <;> simp [here]
  have version : s.dataVersion = lastVersion (before ++ entries) := by
    rw [inv.dataVersion, batch.logged]
  unfold RecoveryState.dedupEnd
  by_cases empty : output setting (lastVersion before) s.fetched = []
  · -- the batch leaves nothing whatever the data version has become since
    have none : output setting s.dataVersion s.fetched = [] := by
      rw [← List.length_eq_zero_iff, length_output batch.fetched,
        ← length_output batch.fetched (lastVersion before), empty, List.length_nil]
    rw [if_pos none]
    obtain ⟨todo, progress⟩ := batch.progress
    have replayed : todo = [] := by
      cases progress with
      | replayed parts logs => exact (List.append_eq_nil_iff.mp (parts.symm.trans empty)).2
      | padded below logs => rfl
    subst replayed
    refine inv.logPadding batch running progress ?_ fun _ => .inr empty
    rw [empty, List.length_nil]
    exact batch.before_lt_last.le
  · have nothing : entries = [] := batch.saved.resolve_right empty
    subst nothing
    rw [List.append_nil] at version
    rw [version] at enough ⊢
    rw [if_neg empty]
    refine inv.of_phase rfl version.symm (.inr ⟨.replay, last, before, [], ?_⟩)
    exact {
      sysData := by rw [batch.fetch running]
      fetch := fun _ => batch.fetch running
      lastRecord := batch.lastRecord
      fetched := batch.fetched
      written := batch.written
      progress := batch.progress
      saved := by
        refine ⟨rfl, ?_⟩
        rw [length_output batch.fetched, ← batch.lastVersion_fetched]
        exact enough
      point := rfl }

theorem Invariant.replayStart (inv : Invariant setting s) (possible : s.point = .enter .replay) :
    Invariant setting s.replayStart := by
  obtain ⟨stage, last, before, entries, batch, entered⟩ := inv.exists_batch possible id
  cases entered
  obtain ⟨file, -⟩ := batch.saved
  obtain ⟨todo, progress⟩ := batch.progress
  have resumed : recordsAfter s.dataVersion (output setting (lastVersion before) s.fetched) =
      todo := by
    rw [inv.dataVersion, batch.logged]
    exact progress.todo_eq batch.consecutive
  have here : BatchPoint setting s .replay last before entries (.replaying todo) :=
    ⟨rfl, progress⟩
  unfold RecoveryState.replayStart
  split
  · next missing =>
      rw [missing] at file
      cases file
  · next replay found =>
      cases found.symm.trans file
      rw [resumed]
      exact inv.of_phase rfl rfl (.inr ⟨.replay, last, before, entries,
        batch.move (by simp [possible]) here⟩)

theorem Invariant.replayTask (inv : Invariant setting s) (result : ReplayResult)
    (possible : ∃ task todo, s.point = .replaying (task :: todo)) :
    Invariant setting (s.replayTask result) := by
  obtain ⟨task, todo, here⟩ := possible
  have running : s.point ≠ .stopped := by simp [here]
  obtain ⟨stage, last, before, entries, batch, isReplay, progress⟩ := inv.exists_batch here id
  subst isReplay
  have version : s.dataVersion = lastVersion (before ++ entries) := by
    rw [inv.dataVersion, batch.logged]
  unfold RecoveryState.replayTask
  rw [here]
  dsimp only
  cases dealt : dealTask task result with
  | none =>
      exact inv.of_phase rfl rfl (.inr ⟨.replay, last, before, entries, batch.move running trivial⟩)
  | some record =>
      obtain ⟨done, parts, logs, reached⟩ | ⟨none, -⟩ := progress.version_cases batch.consecutive
      · have logged : Logs task record := ⟨result, dealt⟩
        have consecutive := batch.consecutive
        rw [parts] at consecutive
        have ofRest := (consecutive_append_iff.mp consecutive).2
        have above : s.dataVersion < record.dataVersion := by
          rw [version, reached, logged.dataVersion]
          exact (version_of_mem_consecutive ofRest List.mem_cons_self).1
        have further : BatchProgress setting last before s.fetched todo (entries ++ [record]) := by
          refine .replayed ?_ (List.rel_append logs (.cons logged .nil))
          rw [parts, List.append_assoc, List.singleton_append]
        refine inv.of_logged (List.append_assoc _ _ _).symm above ?_
          (.inr ⟨.replay, last, before, entries ++ [record], ?_⟩)
        · dsimp only
          rw [max_eq_right above.le, ite_self]
        · obtain ⟨front, binlog, rest⟩ := batch.written
          exact {
            sysData := batch.sysData
            fetch := fun _ => batch.fetch running
            lastRecord := batch.lastRecord
            fetched := batch.fetched
            written := ⟨front, binlog, by rw [← rest, List.append_assoc]⟩
            progress := ⟨todo, further⟩
            saved := batch.saved
            point := ⟨rfl, further⟩ }
      · cases none

theorem Invariant.replayEnd (inv : Invariant setting s) (possible : s.point = .replaying []) :
    Invariant setting { s with point := .waitingReplay } := by
  obtain ⟨stage, last, before, entries, batch, here⟩ := inv.exists_batch possible id
  exact inv.of_phase rfl rfl (.inr ⟨stage, last, before, entries,
    batch.move (by simp [possible]) here⟩)

theorem Invariant.replayWritten (inv : Invariant setting s) (possible : s.point = .waitingReplay) :
    Invariant setting s.logPadding := by
  obtain ⟨stage, last, before, entries, batch, isReplay, replayed⟩ := inv.exists_batch possible id
  subst isReplay
  exact inv.logPadding batch (by simp [possible]) replayed batch.saved.2 fun _ => batch.saved

theorem Invariant.paddingWritten (inv : Invariant setting s)
    (possible : s.point = .waitingPadding) : Invariant setting { s with point := .finished } := by
  obtain ⟨stage, last, before, entries, batch, here⟩ := inv.exists_batch possible id
  exact inv.of_phase rfl rfl (.inr ⟨stage, last, before, entries,
    batch.move (by simp [possible]) here⟩)

theorem Invariant.giveUp (inv : Invariant setting s) (possible : s.point ≠ .stopped) :
    Invariant setting { s with point := .stopped } := by
  obtain fetching | ⟨stage, last, before, entries, batch⟩ := inv.phase
  · exact inv.of_phase rfl rfl (.inl ⟨fetching.sysData, fetching.writing, fetching.fetched,
      trivial⟩)
  · exact inv.of_phase rfl rfl (.inr ⟨stage, last, before, entries, batch.move possible trivial⟩)

theorem Invariant.unlinkSys (inv : Invariant setting s) (possible : s.point = .finished)
    (written : s.writing = []) :
    Invariant setting { s with sysData := none, point := .unlinkingReplay } := by
  refine inv.of_phase rfl rfl (.inl ⟨by simp, written, ?_, trivial⟩)
  obtain fetching | ⟨stage, last, before, entries, batch⟩ := inv.phase
  · exact fetching.fetched
  · have here := batch.point
    rw [possible] at here
    refine .inl ?_
    rw [batch.lastVersion_fetched, here.1]

/-- While files are removed no batch is on its way. -/
theorem Invariant.fetching_of_unlinking (inv : Invariant setting s)
    (possible : s.point = .unlinkingReplay ∨ s.point = .unlinkingFetched) :
    Fetching setting s := by
  obtain fetching | ⟨stage, last, before, entries, batch⟩ := inv.phase
  · exact fetching
  · have never := batch.point
    obtain here | here := possible
    · rw [here] at never
      exact never.elim
    · rw [here] at never
      exact never.elim

theorem Invariant.write (inv : Invariant setting s) (possible : s.writing ≠ []) :
    Invariant setting s.write := by
  unfold RecoveryState.write
  cases queued : s.writing with
  | nil => exact absurd queued possible
  | cons record writing =>
      have logged : s.binlog ++ [record] ++ writing = s.logged := by
        rw [RecoveryState.logged, queued, List.append_assoc, List.singleton_append]
      refine inv.of_phase logged rfl ?_
      obtain fetching | ⟨stage, last, before, entries, batch⟩ := inv.phase
      · exact absurd fetching.writing possible
      · obtain ⟨front, binlog, rest⟩ := batch.written
        refine .inr ⟨stage, last, before, entries, ?_⟩
        exact {
          sysData := batch.sysData
          fetch := batch.fetch
          lastRecord := batch.lastRecord
          fetched := batch.fetched
          written := by
            refine ⟨front ++ [record], ?_, ?_⟩
            · dsimp only
              rw [binlog, List.append_assoc]
            · rw [← rest, queued, List.append_assoc, List.singleton_append]
          progress := batch.progress
          saved := by cases stage <;> exact batch.saved
          point := batch.point }

theorem Invariant.crash (inv : Invariant setting s) : Invariant setting s.crash := by
  have part : s.binlog <+: s.logged := List.prefix_append _ _
  have logged : s.crash.logged = s.binlog := List.append_nil _
  refine ⟨?_, ?_, ?_⟩
  · rw [logged]
    exact inv.ascending.sublist part.sublist
  · rw [logged]
    rfl
  obtain fetching | ⟨stage, last, before, entries, batch⟩ := inv.phase
  · have version : lastVersion s.binlog = s.dataVersion := by
      rw [inv.dataVersion, RecoveryState.logged, fetching.writing, List.append_nil]
    refine .inl ⟨fetching.sysData, rfl, ?_, trivial⟩
    have same : s.crash.dataVersion = s.dataVersion := version
    rw [same]
    exact fetching.fetched
  · obtain ⟨front, binlog, rest⟩ := batch.written
    obtain ⟨todo, progress⟩ := batch.progress
    have kept : front <+: entries := ⟨s.writing, rest⟩
    refine .inr ⟨stage, last, before, front, ?_⟩
    exact {
      sysData := batch.sysData
      fetch := fun running => absurd rfl running
      lastRecord := batch.lastRecord
      fetched := batch.fetched
      written := ⟨front, binlog, List.append_nil _⟩
      progress := progress.of_prefix kept
      saved := by
        cases stage with
        | fetch => exact batch.saved
        | dedup =>
            refine batch.saved.imp_left fun nothing => ?_
            rw [nothing] at kept
            exact List.prefix_nil.mp kept
        | replay => exact batch.saved
      point := trivial }

theorem Invariant.next (inv : Invariant setting s) {action : RecoveryAction}
    (possible : s.Enabled action) (meets : s.Undisturbed action) :
    Invariant setting (s.next setting action) := by
  cases action with
  | start => exact inv.start
  | openFetched stale => exact inv.checkAndOpenBinlogFile stale possible
  | fetch count => exact inv.fetchBinlogToLocal count possible
  | fetchEnd => exact inv.fetchEnd possible
  | dedupWrite count => exact inv.dedupWrite count possible
  | dedupEnd => exact inv.dedupEnd possible meets
  | replayStart => exact inv.replayStart possible
  | replayTask result => exact inv.replayTask result possible
  | replayEnd => exact inv.replayEnd possible
  | replayWritten => exact inv.replayWritten possible.1
  | paddingWritten => exact inv.paddingWritten possible.1
  | giveUp => exact inv.giveUp possible
  | unlinkSys => exact inv.unlinkSys possible meets
  | unlinkReplay =>
      have fetching := inv.fetching_of_unlinking (.inl possible)
      exact inv.of_phase rfl rfl (.inl ⟨fetching.sysData, fetching.writing, fetching.fetched,
        trivial⟩)
  | unlinkFetched =>
      have fetching := inv.fetching_of_unlinking (.inr possible)
      exact inv.of_phase rfl rfl (.inl ⟨fetching.sysData, fetching.writing,
        .inl (Nat.zero_le _), trivial⟩)
  | write => exact inv.write possible
  | crash => exact inv.crash

theorem Invariant.init (init : Init s) : Invariant setting s := by
  have logged : s.logged = s.binlog := by rw [RecoveryState.logged, init.writing, List.append_nil]
  refine ⟨logged ▸ init.ascending, logged ▸ init.dataVersion, .inl ⟨?_, init.writing, ?_, ?_⟩⟩
  · simp [init.sysData]
  · simp [init.fetched]
  · simp [init.point, FetchPoint]

theorem Invariant.of_reachable
    (reached : Reachable ((Step setting).guarded Undisturbed) Init s) : Invariant setting s := by
  refine Reachable.invariant ?_ ?_ reached
  · intro s init
    exact .init init
  · rintro s action s' inv ⟨meets, possible, rfl⟩
    exact inv.next possible meets

/-! ## What an interrupted recovery comes to -/

/-- Nothing is logged twice or out of order.  While a batch is replayed, the replica
records of a part of its replay file are logged, each for its own task and version, and
the rest is what is still to do.  When the batch is finished, all of them are logged and
the slave is at the last fetched data version. -/
structure Resumes (setting : RecoverySetting) (s : RecoveryState) : Prop where
  ascending : s.logged.Pairwise fun earlier later => earlier.dataVersion < later.dataVersion
  replaying : ∀ last, s.sysData = some ⟨.replay, last⟩ → ∃ before todo entries,
    s.logged = before ++ entries ∧
      s.fetched <+: recordsAfter (lastVersion before) setting.master ∧
      s.replay = some (output setting (lastVersion before) s.fetched) ∧
      BatchProgress setting last before s.fetched todo entries ∧
      recordsAfter s.dataVersion (output setting (lastVersion before) s.fetched) = todo
  finished : s.point = .finished → s.fetched ≠ [] → ∃ before records padding,
    s.logged = before ++ records ++ padding ∧
      s.fetched <+: recordsAfter (lastVersion before) setting.master ∧
      List.Forall₂ Logs (output setting (lastVersion before) s.fetched) records ∧
      (padding = [] ∨ padding = [noOpRecord s.fetch.lastDataVersion s.fetch.lastBkey]) ∧
      s.dataVersion = lastVersion s.fetched ∧ lastVersion s.logged = lastVersion s.fetched

/-- A master that has logged two records behind version 6. -/
def twoRecords (opType : BinlogOpType) (slice : FSSliceSize) (inBlock : ReplicaBinlogRecord.InBlock
    ⟨opType, .rpcMaster, ⟨⟨1, 0⟩, slice⟩, 7⟩) : RecoverySetting where
  sl := UniqSkiplist.level0 OBSliceEntry.key
  prime := CeilPrime.trial
  hashtableCapacity := 1403641
  masterVersion := 8
  master := [⟨opType, .rpcMaster, ⟨⟨1, 0⟩, slice⟩, 7⟩,
    ⟨.writeSlice, .rpcMaster, ⟨⟨1, 0⟩, ⟨8, 8⟩⟩, 8⟩]
  ascending := by simp
  inBlock := by
    intro record member
    rw [List.mem_pair] at member
    obtain rfl | rfl := member
    · exact inBlock
    · decide

def deleteThenWrite : RecoverySetting :=
  twoRecords .delBlock ⟨0, 0⟩ trivial

def writeTwice : RecoverySetting :=
  twoRecords .writeSlice ⟨8, 8⟩ (by decide)

/-- A slave at version 6. -/
def atSix : RecoveryState where
  sysData := none
  fetched := []
  replay := none
  binlog := [noOpRecord 6 ⟨1, 0⟩]
  writing := []
  dataVersion := 6
  fetch := ⟨0, ⟨0, 0⟩⟩
  point := .stopped

theorem init_atSix : Init atSix := by
  refine ⟨rfl, rfl, rfl, rfl, ?_, rfl, rfl⟩
  simp [atSix]

end RecoveryState

end FastStore.Recovery
