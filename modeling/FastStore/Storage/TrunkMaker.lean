import FastStore.Util.System
import FastStore.Binlog.TrunkBinlog

/-!
# The trunk makers

The trunk makers create new trunk files.  A maker takes the next trunk id and a subdir with room,
hands the creation to the write thread of the store path, waits for the answer, and only then
counts the file and files the trunk.  No lock is held from the choice of the subdir to the count:
what keeps a subdir from being overfull is that a store path belongs to one maker.

The log of the created trunks runs ahead of the tables by the answers that makers have not taken
yet, and a start brings the tables back from as much of the log as has reached the disk.
-/

namespace FastStore.Storage

open FastStore.Util FastStore.Dio FastStore.Binlog

/-! ## Makers -/

/-- Where a maker is: waiting for its next task, for the write thread, or with the answer. -/
inductive MakerPhase where
  | idle
  | waiting (space : FSTrunkSpaceInfo)
  | answered (space : FSTrunkSpaceInfo) (result : Errno)

/-- The settings as they are after the load of the configuration. -/
structure TrunkMakerConfig extends TrunkConfig where
  skiplists : SubdirSkiplists
  /-- `trunk_prealloc_threads`. -/
  threadCount : Nat
  trunkFileSize : Int
  someThread : 0 < threadCount
  someFile : 0 < maxTrunkFilesPerSubdir
  sizeTaken : fsTrunkFileMinSize ≤ trunkFileSize ∧ trunkFileSize ≤ fsTrunkFileMaxSize
  indexes : ∀ path, present path = true → (path : Int) ≤ maxStorePathIndex ∧ IsInt path

/-- The counters and the tables, the makers by index, the trunk files of each store path and
the trunk binlog. -/
structure TrunkMakers where
  ids : TrunkIdInfoContext
  tables : TrunkTables
  threads : Nat → MakerPhase
  disk : Nat → TrunkDisk
  binlog : List TrunkLogLine

inductive TrunkMakerAction where
  /-- `do_prealloc_trunk` for a store path, up to the push to the write thread. -/
  | generate (path : Nat) (pushed : Bool)
  /-- The write thread creates the trunk file of a maker and notifies it. -/
  | create (thread : Nat) (outcome : TrunkOutcome) (currentTime : Int)
  /-- The maker goes on with the answer. -/
  | finish (thread : Nat)
  /-- The server stops at any point and starts again with this `.trunk_id.dat` and these buffers
  of the trunk binlog. -/
  | restart (file : Option TrunkIdFile) (buffers : List (List TrunkLogLine × List Char))

/-- The maker of a store path, as `trunk_maker_allocate_ex` picks it. -/
def TrunkMakerConfig.maker (cfg : TrunkMakerConfig) (path : Nat) : Nat := path % cfg.threadCount

namespace TrunkMakers

variable (cfg : TrunkMakerConfig) (s : TrunkMakers)

/-- A write thread of the store path with nothing else to do. -/
def writeThread (path : Nat) : TrunkWriteThreadContext :=
  ⟨.popping, [], [], [], [], 0, none, s.disk path, [], [], []⟩

/-- The subdir that `trunk_id_info_generate` finds in the freelist. -/
def freeSubdir (path : Nat) : Option Int :=
  (s.tables.subdirs path).bind fun subdirs => subdirs.freelist.head?

/-- The space that `do_prealloc_trunk` asks for. -/
def newSpace (path : Nat) : FSTrunkSpaceInfo :=
  ⟨path, (trunkIdInfoGenerate (s.freeSubdir path) s.ids).2, 0, cfg.trunkFileSize⟩

/-- When a step can be taken.  A start finds counters in `.trunk_id.dat` that are not behind the
trunk files. -/
def Enabled : TrunkMakerAction → Prop
  | .generate path _ => cfg.present path = true ∧ s.threads (cfg.maker path) = .idle ∧
      s.ids.currentTrunkId + 1 < 2 ^ 63 ∧ s.ids.currentSubdirId + 1 < 2147483648
  | .create thread _ currentTime => (∃ space, s.threads thread = .waiting space) ∧
      IsInt currentTime
  | .finish thread => ∃ space result, s.threads thread = .answered space result
  | .restart file buffers => buffers.flatMap Prod.fst <+: s.binlog ∧
      0 ≤ (trunkIdInfoInit file).currentTrunkId ∧ 0 ≤ (trunkIdInfoInit file).currentSubdirId ∧
      (trunkIdInfoInit file).currentSubdirId < 2147483648 ∧
      ∀ path idInfo, (s.disk path).inode idInfo ≠ none →
        idInfo.id ≤ (trunkIdInfoInit file).currentTrunkId ∧
          idInfo.subdir ≤ (trunkIdInfoInit file).currentSubdirId

/-- The step of the write thread. -/
def created (thread : Nat) (space : FSTrunkSpaceInfo) (outcome : TrunkOutcome)
    (currentTime : Int) : TrunkMakers :=
  let done := (s.writeThread space.store).doCreateTrunk outcome space
  { s with
    threads := Function.update s.threads thread (.answered space done.1)
    disk := Function.update s.disk space.store done.2.disk
    binlog := s.binlog ++ done.2.binlog.map fun entry => ⟨currentTime, entry⟩ }

/-- `prealloc_trunk_finish`, or nothing after an error. -/
def finished (thread : Nat) (space : FSTrunkSpaceInfo) (result : Errno) : TrunkMakers :=
  { s with
    threads := Function.update s.threads thread .idle
    tables :=
      if result = .ok then
        (storageAllocatorAddTrunk cfg.skiplists cfg.toTrunkConfig s.tables space.store space.idInfo
          space.size).2
      else s.tables }

/-- Where a step leads; a start whose load fails leaves the server down. -/
def next : TrunkMakerAction → TrunkMakers
  | .generate path pushed =>
      { s with
        ids := (trunkIdInfoGenerate (s.freeSubdir path) s.ids).1
        threads := Function.update s.threads (cfg.maker path)
          (if pushed then .waiting (s.newSpace cfg path) else .idle) }
  | .create thread outcome currentTime =>
      match s.threads thread with
      | .waiting space => s.created thread space outcome currentTime
      | _ => s
  | .finish thread =>
      match s.threads thread with
      | .answered space result => s.finished cfg thread space result
      | _ => s
  | .restart file buffers =>
      match trunkBinlogInit cfg.skiplists cfg.toTrunkConfig (TrunkTables.empty cfg.toTrunkConfig)
          (buffers.map fun buffer => (buffer.1.flatMap TrunkLogLine.text, buffer.2)) with
      | some tables =>
          { s with
            ids := trunkIdInfoInit file
            tables := tables
            threads := fun _ => .idle
            binlog := buffers.flatMap Prod.fst }
      | none => s

def Step : StepRel TrunkMakers TrunkMakerAction := StepRel.ofNext (Enabled cfg) (next cfg)

/-- The first start, with no trunk yet. -/
structure Start : Prop where
  tables : s.tables = TrunkTables.empty cfg.toTrunkConfig
  threads : ∀ thread, s.threads thread = .idle
  disk : ∀ path idInfo, (s.disk path).inode idInfo = none
  binlog : s.binlog = []
  trunkId : 0 ≤ s.ids.currentTrunkId
  subdirId : 0 ≤ s.ids.currentSubdirId ∧ s.ids.currentSubdirId < 2147483648

/-! ## What the makers keep -/

/-- The entries of the trunk binlog. -/
def log : List TrunkLogEntry := s.binlog.map TrunkLogLine.entry

/-- The maker has asked for the trunk and has not finished it. -/
def Pending (thread : Nat) (space : FSTrunkSpaceInfo) : Prop :=
  s.threads thread = .waiting space ∨ ∃ result, s.threads thread = .answered space result

/-- The trunk file is on the disk. -/
def OnDisk (space : FSTrunkSpaceInfo) : Prop := (s.disk space.store).inode space.idInfo ≠ none

/-- What holds of a trunk that a maker has asked for. -/
structure Asked (thread : Nat) (space : FSTrunkSpaceInfo) : Prop where
  own : cfg.maker space.store = thread
  takes : cfg.Takes space
  id : space.idInfo.id ≤ s.ids.currentTrunkId
  subdir : space.idInfo.subdir ≤ s.ids.currentSubdirId

/-- The tables hold `held`, the log holds the answered trunks besides, and no subdir is overfull
even with the trunks that are still to be created. -/
structure Sound (held : List FSTrunkSpaceInfo) (cameUp : Nat → Int → Prop) : Prop where
  trunkId : 0 ≤ s.ids.currentTrunkId
  subdirId : 0 ≤ s.ids.currentSubdirId ∧ s.ids.currentSubdirId < 2147483648
  loads : cfg.Loads s.log
  creates : ∀ entry ∈ s.log, entry.create = true ∧ s.OnDisk entry.space
  times : ∀ line ∈ s.binlog, IsInt line.currentTime
  disk : ∀ path idInfo, (s.disk path).inode idInfo ≠ none →
    idInfo.id ≤ s.ids.currentTrunkId ∧ idInfo.subdir ≤ s.ids.currentSubdirId
  within : ∀ path subdir, (filesIn (liveTrunks s.log) path subdir : Int) ≤
    cfg.maxTrunkFilesPerSubdir
  hold : s.tables.Hold cfg.toTrunkConfig held cameUp
  distinct : held.Pairwise fun left right => left.trunk ≠ right.trunk
  single : ∀ space ∈ liveTrunks s.log, ∀ other ∈ liveTrunks s.log,
    space.idInfo.id = other.idInfo.id → space = other
  live : ∀ space, space ∈ liveTrunks s.log ↔
    space ∈ held ∨ ∃ thread, s.threads thread = .answered space .ok
  came : ∀ path subdir, CameUp s.log path subdir ↔ cameUp path subdir ∨
    ∃ thread space, s.threads thread = .answered space .ok ∧ space.store = path ∧
      subdirOf space = subdir
  asked : ∀ thread space, s.Pending thread space → s.Asked cfg thread space
  apart : ∀ thread space, s.Pending thread space → ∀ other ∈ held,
    other.idInfo.id ≠ space.idInfo.id
  pendingApart : ∀ thread space, s.Pending thread space → ∀ other otherSpace,
    s.Pending other otherSpace → otherSpace.idInfo.id = space.idInfo.id → other = thread
  fresh : ∀ thread space, s.threads thread = .waiting space → ¬s.OnDisk space
  room : ∀ thread space, s.threads thread = .waiting space →
    (filesIn (liveTrunks s.log) space.store (subdirOf space) : Int) < cfg.maxTrunkFilesPerSubdir

end TrunkMakers

end FastStore.Storage
