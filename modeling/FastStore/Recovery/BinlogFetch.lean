import FastStore.Util.System
import FastStore.Binlog.CheckConsistency

/-!
# Fetching the binlog of the master

A slave that recovers fetches the replica binlog of its master from its own data version on, into
a file of its own.  The master reads on where the last answer ended while its writer thread adds
records and goes on to new files; online the slave keeps what is up to the version that the master
had when the slave came online.  A fetch that was given up goes on behind the last record of the
file.
-/

namespace FastStore.Recovery

open FastStore.Util FastStore.Storage FastStore.Binlog

/-! ## The answers of the master -/

/-- `binlog_reader_integral_read` behind a read that gave some bytes: what is behind the last line
end is read again the next time. -/
def cutToLines (bytes : List Char) (reader : ServerBinlogReader) :
    Errno × List Char × ServerBinlogReader :=
  if '\n' ∈ bytes then
    (.ok, completeLines bytes,
      { reader with offset := reader.offset - (bytes.length - (completeLines bytes).length) })
  else (.eagain, [], reader)

/-- `binlog_reader_integral_read`, with the reader behind it. -/
def integralRead (log : ReplicaLog) (size : Nat) (reader : ServerBinlogReader) :
    Errno × List Char × ServerBinlogReader :=
  match doReadToBuffer log.content size reader with
  | .ok read => cutToLines read.1 read.2
  | .error result =>
      if reader.index < log.currentWriteIndex then
        match doReadToBuffer log.content size
            (openReadableBinlog log.content (reader.index + 1) 0) with
        | .ok read => cutToLines read.1 read.2
        | .error result =>
            (result, [], openReadableBinlog log.content (reader.index + 1) 0)
      else (result, [], reader)

/-- The binlog writer has added records: to the current file, and to files behind it. -/
def Grows (log later : ReplicaLog) : Prop :=
  ∃ more rest, later.files = log.closed ++ (log.current ++ more) :: rest

/-! ## What the slave keeps -/

/-- `get_last_data_version`; the search for the last line starts before the last character. -/
def getLastDataVersion (binlog : List Char) : Option Int :=
  (replicaBinlogRecordUnpack
    (binlog.dropLast.rtakeWhile (fun char => char ≠ '\n') ++
      binlog.drop (binlog.length - 1))).map ReplicaLine.dataVersion

/-- The loop of `find_binlog_length` over the lines of a text: the part of the text that is up to
the version. -/
def cutBinlog (untilVersion : Nat) :
    List Char → List (List Char × List Char) → Except Errno (List Char)
  | text, [] => if text = [] then .ok [] else .error .einval
  | _, (line, rest) :: later =>
      match replicaBinlogRecordUnpack (line ++ ['\n']) with
      | none => .error .einval
      | some record =>
          if record.dataVersion = untilVersion then .ok (line ++ ['\n'])
          else if (untilVersion : Int) < record.dataVersion then .ok []
          else
            match cutBinlog untilVersion rest later with
            | .error result => .error result
            | .ok kept => .ok (line ++ '\n' :: kept)

/-- `find_binlog_length`: the binlog that is kept, `is_last`, and `wait_count`. -/
def findBinlogLength (lastDataVersion untilVersion waitCount : Nat) (binlog : List Char) :
    Except Errno (List Char × Bool × Nat) :=
  match if binlog = [] then some (lastDataVersion : Int) else getLastDataVersion binlog with
  | none => .error .einval
  | some version =>
      if version = untilVersion then .ok (binlog, true, waitCount)
      else if version < untilVersion then
        if binlog = [] then
          if 5 ≤ waitCount + 1 then .error .etimedout else .ok (binlog, false, waitCount + 1)
        else .ok (binlog, false, 0)
      else
        match cutBinlog untilVersion binlog (bufferLines binlog) with
        | .error result => .error result
        | .ok kept => .ok (kept, true, waitCount)

/-! ## Master and slave -/

/-- The settings of a fetch. -/
structure FetchConfig where
  /-- `ds->data.version` of the slave. -/
  dataVersion : Nat
  /-- `is_online`: this is the last batch. -/
  isOnline : Bool
  lines : LineFunctions
  memory : SFBinlogFilePosition → List Char
  /-- The buffer of the search for the position. -/
  bufferSize : Nat
  /-- The room for binlog in the answer to the first request and to the others. -/
  firstSize : Nat
  nextSize : Nat
  documented : lines.Documented
  bufferRoom : ReplicaLogEntry.maxRecordSize < bufferSize
  firstRoom : ReplicaLogEntry.maxRecordSize ≤ firstSize
  nextRoom : ReplicaLogEntry.maxRecordSize ≤ nextSize

inductive FetchPoint where
  | idle
  /-- The first request is on its way. -/
  | asked
  /-- `replica_binlog_reader_init` is done. -/
  | located
  /-- The master is to read for the first request, or for one of the others. -/
  | reading (first : Bool)
  /-- It has read, with so many bytes left in the answer. -/
  | read (binlog : List Char) (left : Nat)
  | answered (binlog : List Char) (isLast : Bool)
  | finished
  deriving DecidableEq

structure FetchState where
  log : ReplicaLog
  /-- `data.version` of the master. -/
  dataVersion : Nat
  /-- `REPLICA_READER`. -/
  reader : ServerBinlogReader
  /-- `fetch.last_data_version`. -/
  lastDataVersion : Nat
  untilVersion : Nat
  waitCount : Nat
  /-- The fetched file of the slave. -/
  fetched : List Char
  point : FetchPoint
  /-- What the log had when the master read `until_version`; no step looks at it. -/
  known : List ReplicaLogEntry

inductive FetchAction where
  | append (later : ReplicaLog)
  /-- The data thread of the master takes a data version. -/
  | update
  /-- `check_and_open_binlog_file`; the file may be too old. -/
  | start (old : Bool)
  /-- `replica_deal_fetch_binlog_first` up to the reader. -/
  | locate
  /-- It reads `until_version`. -/
  | mark
  /-- `fetch_binlog_output` up to the read. -/
  | read
  /-- It looks whether the reader is in the last file. -/
  | answer
  /-- `fetch_binlog_to_local` with the answer. -/
  | deal
  /-- The fetch is given up, with any error, or the slave goes down. -/
  | stop

namespace FetchState

section Steps

variable (cfg : FetchConfig) (s : FetchState)

def Enabled : FetchAction → Prop
  | .append later =>
      Grows s.log later ∧ ∀ entry ∈ later.records, entry.version ≤ s.dataVersion
  | .update => True
  | .start _ => s.point = .idle
  | .locate => s.point = .asked
  | .mark => s.point = .located
  | .read => ∃ first, s.point = .reading first
  | .answer => ∃ binlog left, s.point = .read binlog left
  | .deal => ∃ binlog isLast, s.point = .answered binlog isLast
  | .stop => s.point ≠ .idle

/-- The slave asks for what is behind a version. -/
def ask (lastDataVersion : Nat) (fetched : List Char) : FetchState :=
  { s with
    lastDataVersion := lastDataVersion
    untilVersion := 0
    waitCount := 0
    fetched := fetched
    point := .asked }

/-- `check_and_open_binlog_file`: a file that cannot be gone on with is unlinked. -/
def checkAndOpen (old : Bool) : FetchState :=
  if s.fetched = [] then s.ask cfg.dataVersion []
  else if old then s.ask cfg.dataVersion []
  else
    match replicaBinlogGetLastDataVersionEx cfg.lines s.fetched with
    | .error _ => s.ask cfg.dataVersion []
    | .ok last =>
        if last.1 ≤ cfg.dataVersion then s.ask cfg.dataVersion []
        else s.ask last.1.toNat s.fetched

/-- The reader of the master for the version of the slave. -/
def locate : FetchState :=
  if s.dataVersion < s.lastDataVersion then { s with point := .idle }
  else
    match replicaBinlogReaderInit s.log.content s.log.currentWriteIndex cfg.lines cfg.bufferSize
        cfg.memory ((binlogText s.log.records).length + 1) s.lastDataVersion with
    | .error _ => { s with point := .idle }
    | .ok reader => { s with
        reader := reader
        point := .located }

def mark : FetchState :=
  { s with
    untilVersion := if cfg.isOnline then s.dataVersion else 0
    known := s.log.records
    point := .reading true }

/-- `fetch_binlog_output` up to the read, with this room in the answer. -/
def readBinlog (size : Nat) : FetchState :=
  let result := integralRead s.log size s.reader
  if result.1 = .ok ∨ result.1 = .enoent then
    { s with
      reader := result.2.2
      point := .read result.2.1 (size - result.2.1.length) }
  else { s with point := .idle }

/-- The end of `fetch_binlog_output`. -/
def isLast (left : Nat) : Bool :=
  if left < ReplicaLogEntry.maxRecordSize then false
  else decide (s.reader.index = s.log.currentWriteIndex)

/-- The write to the fetched file. -/
def keep (binlog : List Char) (isLast : Bool) (waitCount : Nat) : FetchState :=
  { s with
    waitCount := waitCount
    fetched := s.fetched ++ binlog
    point := if isLast then .finished else .reading false }

/-- `fetch_binlog_to_local` with an answer. -/
def fetchBinlogToLocal (binlog : List Char) (isLast : Bool) : FetchState :=
  if cfg.isOnline then
    match findBinlogLength s.lastDataVersion s.untilVersion s.waitCount binlog with
    | .error _ => { s with point := .idle }
    | .ok found => s.keep found.1 found.2.1 found.2.2
  else s.keep binlog isLast s.waitCount

def next : FetchAction → FetchState
  | .append later => { s with log := later }
  | .update => { s with dataVersion := s.dataVersion + 1 }
  | .start old => s.checkAndOpen cfg old
  | .locate => s.locate cfg
  | .mark => s.mark cfg
  | .read =>
      match s.point with
      | .reading first => s.readBinlog (if first then cfg.firstSize else cfg.nextSize)
      | _ => s
  | .answer =>
      match s.point with
      | .read binlog left => { s with point := .answered binlog (s.isLast left) }
      | _ => s
  | .deal =>
      match s.point with
      | .answered binlog isLast => s.fetchBinlogToLocal cfg binlog isLast
      | _ => s
  | .stop => { s with point := .idle }

end Steps

/-- No file was fetched yet, and every record of the log has its version from the master. -/
structure Start (s : FetchState) : Prop where
  idle : s.point = .idle
  fetched : s.fetched = []
  logged : ∀ entry ∈ s.log.records, entry.version ≤ s.dataVersion

/-- In front of an empty file the search gives the end of the log for every version behind the
log, also when the records up to it are not written yet. -/
def LogReaches (s : FetchState) : FetchAction → Prop
  | .locate => s.log.current = [] → s.lastDataVersion = 0 ∨
      ∃ entry ∈ s.log.records, (s.lastDataVersion : Int) ≤ entry.version
  | _ => True

end FetchState

def FetchStep (cfg : FetchConfig) : StepRel FetchState FetchAction :=
  StepRel.ofNext FetchState.Enabled (FetchState.next cfg)

end FastStore.Recovery
