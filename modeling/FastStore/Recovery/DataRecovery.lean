import FastStore.Recovery.DedupVersions
import FastStore.Util.System
import FastStore.Util.Window

/-!
# The stages of a data recovery

`data_recovery_start` brings a slave up to its master in batches.  A batch fetches
the master's replica records behind the slave's data version, dedups them to a
replay file and replays that.  The stage is saved in `data_recovery.dat` before the
next one begins, and the files of a batch are removed one after another at its end.

The replay hands the replica records to the writer thread of the binlog; they are
in the file some time later.  When the server stops, the four files are what is
left: the operations whose replica record is not in the file are undone with it.

Failures of memory allocation and of the file system are not modelled.
-/

namespace FastStore.Recovery

open FastStore.Util FastStore.Storage FastStore.Binlog

/-- `DATA_RECOVERY_STAGE_*`. -/
inductive RecoveryStage where
  | fetch
  | dedup
  | replay
  deriving DecidableEq, Repr

/-- The `fetch` part of `DataRecoveryContext`. -/
structure RecoveryFetch where
  lastDataVersion : Nat
  lastBkey : FSBlockKey
  deriving DecidableEq, Repr

/-- The contents of `data_recovery.dat`. -/
structure RecoverySysData where
  stage : RecoveryStage
  fetch : RecoveryFetch
  deriving DecidableEq, Repr

/-- Where `data_recovery_start` stands. -/
inductive RecoveryPoint where
  /-- It does not run. -/
  | stopped
  /-- The `switch` of `do_data_recovery`. -/
  | enter (stage : RecoveryStage)
  | fetching
  | deduping
  /-- `do_replay_binlog` with the records still to replay. -/
  | replaying (todo : List ReplicaBinlogRecord)
  /-- `waiting_replay_binlog_write_done`. -/
  | waitingReplay
  /-- `waiting_binlog_write_done` of `replica_binlog_log_padding`. -/
  | waitingPadding
  /-- The stages have returned zero. -/
  | finished
  | unlinkingReplay
  | unlinkingFetched
  deriving DecidableEq, Repr

/-- What the slave recovers from: its master's log, which does not change. -/
structure RecoverySetting where
  sl : UniqSkiplist OBSliceEntry.key
  prime : CeilPrime
  hashtableCapacity : Nat
  masterVersion : Nat
  master : List ReplicaBinlogRecord
  ascending : master.Pairwise fun earlier later => earlier.dataVersion < later.dataVersion
  inBlock : ∀ record ∈ master, record.InBlock

/-- The slave. -/
structure RecoveryState where
  sysData : Option RecoverySysData
  /-- The fetched binlog, empty when there is no file. -/
  fetched : List ReplicaBinlogRecord
  /-- The replay file. -/
  replay : Option (List ReplicaBinlogRecord)
  /-- The replica binlog. -/
  binlog : List ReplicaBinlogRecord
  /-- The records that the writer thread of the binlog has not written yet. -/
  writing : List ReplicaBinlogRecord
  /-- `data.version`. -/
  dataVersion : Nat
  /-- `ctx.fetch`. -/
  fetch : RecoveryFetch
  point : RecoveryPoint
  deriving DecidableEq, Repr

/-- The data version of the last record. -/
abbrev lastVersion (records : List ReplicaBinlogRecord) : Nat :=
  lastKey ReplicaBinlogRecord.dataVersion records

/-- The records behind a data version (`replica_binlog_get_position_by_dv`). -/
abbrev recordsAfter (version : Nat) (records : List ReplicaBinlogRecord) :
    List ReplicaBinlogRecord :=
  resumeAfter ReplicaBinlogRecord.dataVersion version records

/-- The record of `replica_binlog_log_no_op`. -/
def noOpRecord (dataVersion : Nat) (bkey : FSBlockKey) : ReplicaBinlogRecord :=
  ⟨.noOp, .replay, ⟨bkey, ⟨0, 0⟩⟩, dataVersion⟩

/-- How a replay task ends. -/
inductive ReplayResult where
  /-- It is done; a write has the bytes that the master returned. -/
  | done (readBytes : Int)
  /-- The master has no data to write any more, or there is nothing to delete. -/
  | absent
  | failed
  deriving DecidableEq, Repr

/-- `deal_task`: the replica record that is logged, `none` for a failure. -/
def dealTask (task : ReplicaBinlogRecord) (result : ReplayResult) : Option ReplicaBinlogRecord :=
  match task.opType, result with
  | .writeSlice, .done readBytes =>
      some { task with
        source := .replay
        bsKey := { task.bsKey with slice := { task.bsKey.slice with length := readBytes } } }
  | .allocSlice, .done _ | .delSlice, .done _ => some { task with source := .replay }
  | .writeSlice, .absent | .delSlice, .absent =>
      some (noOpRecord task.dataVersion task.bsKey.block)
  | _, _ => none

namespace RecoveryState

/-- The replica records logged so far. -/
def logged (s : RecoveryState) : List ReplicaBinlogRecord :=
  s.binlog ++ s.writing

/-- The replay file that `data_recovery_dedup_binlog` writes for the fetched records
at a data version. -/
def output (setting : RecoverySetting) (version : Nat) (fetched : List ReplicaBinlogRecord) :
    List ReplicaBinlogRecord :=
  (dataRecoveryDedupBinlog setting.sl setting.prime setting.hashtableCapacity
    setting.masterVersion version fetched).2

/-- The start of `data_recovery_start`, with `data_recovery_load_sys_data`. -/
def start (s : RecoveryState) : RecoveryState :=
  match s.sysData with
  | none =>
      let fetch : RecoveryFetch := ⟨0, ⟨0, 0⟩⟩
      { s with sysData := some ⟨.fetch, fetch⟩, fetch, point := .enter .fetch }
  | some sysData => { s with fetch := sysData.fetch, point := .enter sysData.stage }

/-- `check_and_open_binlog_file`.  A file that is too old or cannot be read is `stale`. -/
def checkAndOpenBinlogFile (stale : Bool) (s : RecoveryState) : RecoveryState :=
  let s := { s with point := .fetching }
  if s.fetched = [] then { s with fetch := { s.fetch with lastDataVersion := s.dataVersion } }
  else if stale || lastVersion s.fetched ≤ s.dataVersion then
    { s with fetched := [], fetch := { s.fetch with lastDataVersion := s.dataVersion } }
  else { s with fetch := { s.fetch with lastDataVersion := lastVersion s.fetched } }

/-- `fetch_binlog_to_local`: the next records of the master go to the fetched file. -/
def fetchBinlogToLocal (setting : RecoverySetting) (count : Nat) (s : RecoveryState) :
    RecoveryState :=
  let reached := if s.fetched = [] then s.fetch.lastDataVersion else lastVersion s.fetched
  { s with fetched := s.fetched ++ (recordsAfter reached setting.master).take count }

/-- The end of `data_recovery_fetch_binlog` and of the fetch stage. -/
def fetchEnd (s : RecoveryState) : RecoveryState :=
  match s.fetched.getLast? with
  | none => { s with point := .finished }
  | some record =>
      let fetch : RecoveryFetch := ⟨record.dataVersion, record.bsKey.block⟩
      { s with sysData := some ⟨.dedup, fetch⟩, fetch, point := .enter .dedup }

/-- `replica_binlog_log_padding`. -/
def logPadding (s : RecoveryState) : RecoveryState :=
  if s.dataVersion < s.fetch.lastDataVersion then
    { s with
      writing := s.writing ++ [noOpRecord s.fetch.lastDataVersion s.fetch.lastBkey]
      dataVersion := (s.fetch.lastDataVersion - 1) + 1
      point := .waitingPadding }
  else { s with point := .finished }

/-- `open_output_files` and the first records of the replay file. -/
def dedupWrite (setting : RecoverySetting) (count : Nat) (s : RecoveryState) : RecoveryState :=
  { s with
    replay := some ((output setting s.dataVersion s.fetched).take count)
    point := .deduping }

/-- The end of `data_recovery_dedup_binlog` and of the dedup stage. -/
def dedupEnd (setting : RecoverySetting) (s : RecoveryState) : RecoveryState :=
  if output setting s.dataVersion s.fetched = [] then s.logPadding
  else
    { s with
      replay := some (output setting s.dataVersion s.fetched)
      sysData := some ⟨.replay, s.fetch⟩
      point := .enter .replay }

/-- The start of `do_replay_binlog`. -/
def replayStart (s : RecoveryState) : RecoveryState :=
  match s.replay with
  | none => { s with sysData := none, point := .stopped }
  | some replay => { s with point := .replaying (recordsAfter s.dataVersion replay) }

/-- The replay thread deals one task.  An operation raises the data version
(`set_data_version`), a no-op sets it. -/
def replayTask (result : ReplayResult) (s : RecoveryState) : RecoveryState :=
  match s.point with
  | .replaying (task :: todo) =>
      match dealTask task result with
      | some record =>
          { s with
            writing := s.writing ++ [record]
            dataVersion :=
              if record.opType = .noOp then record.dataVersion
              else max s.dataVersion record.dataVersion
            point := .replaying todo }
      | none => { s with point := .stopped }
  | _ => s

/-- The writer thread of the binlog writes a record. -/
def write (s : RecoveryState) : RecoveryState :=
  match s.writing with
  | [] => s
  | record :: writing => { s with binlog := s.binlog ++ [record], writing }

/-- The server stops and starts again (`replica_binlog_init`). -/
def crash (s : RecoveryState) : RecoveryState :=
  { s with writing := [], dataVersion := lastVersion s.binlog, point := .stopped }

end RecoveryState

inductive RecoveryAction where
  | start
  | openFetched (stale : Bool)
  | fetch (count : Nat)
  | fetchEnd
  | dedupWrite (count : Nat)
  | dedupEnd
  | replayStart
  | replayTask (result : ReplayResult)
  | replayEnd
  | replayWritten
  | paddingWritten
  /-- A stage fails or gives up waiting: `data_recovery_start` returns. -/
  | giveUp
  | unlinkSys
  | unlinkReplay
  | unlinkFetched
  | write
  | crash
  deriving DecidableEq, Repr

namespace RecoveryState

/-- When a step can be taken. -/
def Enabled (s : RecoveryState) : RecoveryAction → Prop
  | .start => s.point = .stopped
  | .openFetched _ => s.point = .enter .fetch
  | .fetch _ | .fetchEnd => s.point = .fetching
  | .dedupWrite _ | .dedupEnd => s.point = .enter .dedup ∨ s.point = .deduping
  | .replayStart => s.point = .enter .replay
  | .replayTask _ => ∃ task todo, s.point = .replaying (task :: todo)
  | .replayEnd => s.point = .replaying []
  | .replayWritten =>
      s.point = .waitingReplay ∧ lastVersion (s.replay.getD []) ≤ lastVersion s.binlog
  | .paddingWritten =>
      s.point = .waitingPadding ∧ s.fetch.lastDataVersion ≤ lastVersion s.binlog
  | .giveUp => s.point ≠ .stopped
  | .unlinkSys => s.point = .finished
  | .unlinkReplay => s.point = .unlinkingReplay
  | .unlinkFetched => s.point = .unlinkingFetched
  | .write => s.writing ≠ []
  | .crash => True

instance (s : RecoveryState) : (action : RecoveryAction) → Decidable (s.Enabled action)
  | .start | .openFetched _ | .fetch _ | .fetchEnd | .replayStart | .replayEnd | .unlinkSys
  | .unlinkReplay | .unlinkFetched => inferInstanceAs (Decidable (_ = _))
  | .dedupWrite _ | .dedupEnd => inferInstanceAs (Decidable (_ ∨ _))
  | .replayTask _ =>
      match here : s.point with
      | .replaying (task :: todo) => .isTrue ⟨task, todo, here⟩
      | .replaying [] | .stopped | .enter _ | .fetching | .deduping | .waitingReplay
      | .waitingPadding | .finished | .unlinkingReplay | .unlinkingFetched =>
          .isFalse (by rintro ⟨task, todo, there⟩; simp [here] at there)
  | .replayWritten | .paddingWritten => inferInstanceAs (Decidable (_ ∧ _))
  | .giveUp | .write => inferInstanceAs (Decidable (_ ≠ _))
  | .crash => .isTrue trivial

/-- Where a step leads. -/
def next (setting : RecoverySetting) (s : RecoveryState) : RecoveryAction → RecoveryState
  | .start => s.start
  | .openFetched stale => s.checkAndOpenBinlogFile stale
  | .fetch count => s.fetchBinlogToLocal setting count
  | .fetchEnd => s.fetchEnd
  | .dedupWrite count => s.dedupWrite setting count
  | .dedupEnd => s.dedupEnd setting
  | .replayStart => s.replayStart
  | .replayTask result => s.replayTask result
  | .replayEnd => { s with point := .waitingReplay }
  | .replayWritten => s.logPadding
  | .paddingWritten => { s with point := .finished }
  | .giveUp => { s with point := .stopped }
  | .unlinkSys => { s with sysData := none, point := .unlinkingReplay }
  | .unlinkReplay => { s with replay := none, point := .unlinkingFetched }
  | .unlinkFetched => { s with fetched := [], point := .enter .fetch }
  | .write => s.write
  | .crash => s.crash

/-- The recovery of a slave, with any interruptions. -/
def Step (setting : RecoverySetting) : StepRel RecoveryState RecoveryAction :=
  StepRel.ofNext Enabled (next setting)

/-- A slave that has not begun a recovery and whose replica binlog is written. -/
structure Init (s : RecoveryState) : Prop where
  sysData : s.sysData = none
  fetched : s.fetched = []
  replay : s.replay = none
  writing : s.writing = []
  ascending : s.binlog.Pairwise fun earlier later => earlier.dataVersion < later.dataVersion
  dataVersion : s.dataVersion = lastVersion s.binlog
  point : s.point = .stopped

end RecoveryState

end FastStore.Recovery
