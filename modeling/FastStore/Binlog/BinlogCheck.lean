import FastStore.Binlog.BinlogFunc

/-!
# The startup consistency check of the local logs

At startup the server compares the last seconds of its slice binlog with those of
its replica binlogs.  The data versions of the two windows are sorted and merged;
a version that only one side has makes that side dirty, and the repair of a dirty
log drops the records of the window whose version the other window does not have.

The window of a replica binlog holds every record from the timestamp on, since the
operations of one data group are logged in time order.  The slice binlog mixes the
data groups, so its window can also hold older records behind its first one, and it
can miss newer ones in the files before the one its search starts at.
-/

namespace FastStore.Binlog

open FastStore.Util
open FastStore.Storage

/-- A data version of a data group. -/
structure BinlogDataGroupVersion where
  dataGroupId : Nat
  dataVersion : Nat
  deriving DecidableEq, Repr

namespace BinlogDataGroupVersion

def toLexPair (version : BinlogDataGroupVersion) : Lex (Nat × Nat) :=
  toLex (version.dataGroupId, version.dataVersion)

theorem toLexPair_injective : Function.Injective toLexPair := by
  intro left right equal
  have pair : (left.dataGroupId, left.dataVersion) = (right.dataGroupId, right.dataVersion) :=
    equal
  cases left
  cases right
  simp_all

instance : LinearOrder BinlogDataGroupVersion :=
  LinearOrder.lift' toLexPair toLexPair_injective

end BinlogDataGroupVersion

/-- `binlog_compare_dg_version`. -/
def binlogCompareDgVersion (p1 p2 : BinlogDataGroupVersion) : Ordering :=
  if p1.dataGroupId < p2.dataGroupId then .lt
  else if p2.dataGroupId < p1.dataGroupId then .gt
  else compare p1.dataVersion p2.dataVersion

theorem binlogCompareDgVersion_lt_iff {p1 p2 : BinlogDataGroupVersion} :
    binlogCompareDgVersion p1 p2 = .lt ↔ p1 < p2 := by
  have order : p1 < p2 ↔ p1.dataGroupId < p2.dataGroupId ∨
      p1.dataGroupId = p2.dataGroupId ∧ p1.dataVersion < p2.dataVersion :=
    Prod.Lex.toLex_lt_toLex
  rw [order]
  unfold binlogCompareDgVersion
  split_ifs <;> grind [Nat.compare_eq_lt]

theorem binlogCompareDgVersion_eq_iff {p1 p2 : BinlogDataGroupVersion} :
    binlogCompareDgVersion p1 p2 = .eq ↔ p1 = p2 := by
  cases p1
  cases p2
  unfold binlogCompareDgVersion
  simp only [BinlogDataGroupVersion.mk.injEq]
  split_ifs <;> grind [Nat.compare_eq_eq]

theorem binlogCompareDgVersion_gt_iff {p1 p2 : BinlogDataGroupVersion} :
    binlogCompareDgVersion p1 p2 = .gt ↔ p2 < p1 := by
  have order : p2 < p1 ↔ p2.dataGroupId < p1.dataGroupId ∨
      p2.dataGroupId = p1.dataGroupId ∧ p2.dataVersion < p1.dataVersion :=
    Prod.Lex.toLex_lt_toLex
  rw [order]
  unfold binlogCompareDgVersion
  split_ifs <;> grind [Nat.compare_eq_gt]

/-- The logs of one server: its slice binlog and the replica binlog of each data
group from `baseDgId` on. -/
structure LocalBinlogs where
  baseDgId : Nat
  slice : BinlogFiles
  replicas : List BinlogFiles

/-- `BinlogConsistencyContext`, with the sorted version arrays. -/
structure BinlogConsistencyContext where
  replicaVersions : List BinlogDataGroupVersion
  sliceVersions : List BinlogDataGroupVersion
  replicaPositions : List SFBinlogFilePosition
  slicePosition : SFBinlogFilePosition
  deriving DecidableEq, Repr

/-- `BINLOG_CHECK_RESULT_REPLICA_DIRTY`. -/
def binlogCheckResultReplicaDirty : Nat := 1

/-- `BINLOG_CHECK_RESULT_SLICE_DIRTY`. -/
def binlogCheckResultSliceDirty : Nat := 2

/-- `BINLOG_CHECK_RESULT_ALL_DIRTY`. -/
def binlogCheckResultAllDirty : Nat :=
  binlogCheckResultReplicaDirty ||| binlogCheckResultSliceDirty

/-- `get_last_timestamp`: zero for a current write file without a record. -/
def getLastTimestamp (log : BinlogFiles) : Int :=
  (binlogGetLastTimestamp log.current).getD 0

/-- `binlog_check_get_last_timestamp` with `get_replica_last_timestamp`. -/
def binlogCheckGetLastTimestamp (logs : LocalBinlogs) : Int :=
  logs.replicas.foldl (fun last log => max last (getLastTimestamp log))
    (max 0 (getLastTimestamp logs.slice))

section Check

-- `FS_DATA_GROUP_COUNT`
variable (dataGroupCount : Nat)

/-- `FS_DATA_GROUP_ID`. -/
def fsDataGroupId (bkey : FSBlockKey) : Nat :=
  bkey.fsCalcBlockHashcode % dataGroupCount + 1

/-- The version that `binlog_parse_buffer` and `binlog_filter_buffer` build from a
record. -/
def dgVersion (fields : BinlogCommonFields) : BinlogDataGroupVersion :=
  ⟨fsDataGroupId dataGroupCount fields.bkey, fields.dataVersion⟩

/-- `binlog_parse_buffer` over all that is read: the versions of the records that
are not internal. -/
def binlogParseBuffer (read : List BinlogCommonFields) : List BinlogDataGroupVersion :=
  (read.filter fun fields => !fields.isInternal).map (dgVersion dataGroupCount)

/-- `sort_version_array`. -/
def sortVersionArray (versions : List BinlogDataGroupVersion) : List BinlogDataGroupVersion :=
  versions.insertionSort (· ≤ ·)

/-- `binlog_load_data_versions` with `do_load_data_versions`. -/
def binlogLoadDataVersions (logs : LocalBinlogs) (fromTimestamp : Int) :
    BinlogConsistencyContext where
  replicaVersions := sortVersionArray
    (logs.replicas.flatMap fun log => binlogParseBuffer dataGroupCount (log.window fromTimestamp))
  sliceVersions := sortVersionArray
    (binlogParseBuffer dataGroupCount (logs.slice.window fromTimestamp))
  replicaPositions := logs.replicas.map (binlogGetPositionByTimestamp · fromTimestamp)
  slicePosition := binlogGetPositionByTimestamp logs.slice fromTimestamp

/-- The merge loop of `binlog_check`, with `SET_BINLOG_CHECK_FLAGS`. -/
def compareVersionArrays (flags : Nat) :
    List BinlogDataGroupVersion → List BinlogDataGroupVersion → Nat
  | [], [] => flags
  | [], _ :: _ => flags ||| binlogCheckResultSliceDirty
  | _ :: _, [] => flags ||| binlogCheckResultReplicaDirty
  | rv :: replica, sv :: slice =>
      match binlogCompareDgVersion rv sv with
      | .lt =>
          let flags := flags ||| binlogCheckResultReplicaDirty
          if flags = binlogCheckResultAllDirty then flags
          else compareVersionArrays flags replica (sv :: slice)
      | .eq =>
          -- both sides may hold a version more than once
          compareVersionArrays flags (replica.dropWhile (· == rv)) (slice.dropWhile (· == rv))
      | .gt =>
          let flags := flags ||| binlogCheckResultSliceDirty
          if flags = binlogCheckResultAllDirty then flags
          else compareVersionArrays flags (rv :: replica) slice
termination_by replica slice => replica.length + slice.length
decreasing_by
  all_goals simp only [List.length_cons]
  · omega
  · have := (List.dropWhile_sublist (l := replica) (· == rv)).length_le
    have := (List.dropWhile_sublist (l := slice) (· == rv)).length_le
    omega
  · omega

/-- `binlog_consistency_check`.  Without a timestamp nothing is loaded. -/
def binlogConsistencyCheck (logs : LocalBinlogs) (lastSeconds : Int) :
    BinlogConsistencyContext × Nat :=
  let lastTimestamp := binlogCheckGetLastTimestamp logs
  if lastTimestamp ≤ 0 then (⟨[], [], logs.replicas.map fun _ => ⟨0, 0⟩, ⟨0, 0⟩⟩, 0)
  else
    let ctx := binlogLoadDataVersions dataGroupCount logs (lastTimestamp - lastSeconds + 1)
    (ctx, compareVersionArrays 0 ctx.replicaVersions ctx.sliceVersions)

/-- The test of `binlog_filter_buffer`: `BINLOG_REPAIR_KEEP_RECORD`, or `bsearch`
finds the version. -/
def binlogFilterKeep (versions : List BinlogDataGroupVersion) (fields : BinlogCommonFields) :
    Bool :=
  fields.isInternal || versions.contains (dgVersion dataGroupCount fields)

/-- `binlog_repair`: the records of a log after `filter_to_files`.  The files before
the position and the front part of its own file stay. -/
def binlogRepair (versions : List BinlogDataGroupVersion) (log : BinlogFiles)
    (pos : SFBinlogFilePosition) : List BinlogCommonFields :=
  (log.files.take pos.index).flatten ++ (log.files.getD pos.index []).take pos.offset ++
    (readFrom log.files pos).filter (binlogFilterKeep dataGroupCount versions)

/-- `binlog_consistency_repair_slice`. -/
def binlogConsistencyRepairSlice (ctx : BinlogConsistencyContext) (logs : LocalBinlogs) :
    List BinlogCommonFields :=
  binlogRepair dataGroupCount ctx.replicaVersions logs.slice ctx.slicePosition

/-- `binlog_consistency_repair_replica`. -/
def binlogConsistencyRepairReplica (ctx : BinlogConsistencyContext) (logs : LocalBinlogs) :
    List (List BinlogCommonFields) :=
  List.zipWith (binlogRepair dataGroupCount ctx.sliceVersions) logs.replicas
    ctx.replicaPositions

/-- `do_binlog_check`: the records of the slice binlog and of the replica binlogs
after the check and the repairs it calls for. -/
def doBinlogCheck (logs : LocalBinlogs) (lastSeconds : Int) :
    List BinlogCommonFields × List (List BinlogCommonFields) :=
  if lastSeconds ≤ 0 then (logs.slice.records, logs.replicas.map BinlogFiles.records)
  else
    let (ctx, flags) := binlogConsistencyCheck dataGroupCount logs lastSeconds
    (if flags &&& binlogCheckResultSliceDirty = 0 then logs.slice.records
      else binlogConsistencyRepairSlice dataGroupCount ctx logs,
    if flags &&& binlogCheckResultReplicaDirty = 0 then logs.replicas.map BinlogFiles.records
      else binlogConsistencyRepairReplica dataGroupCount ctx logs)

end Check

section Merge

/-- A raised flag stays. -/
theorem or_ne_zero_of_right {flags flag : Nat} (raised : flag ≠ 0) : flags ||| flag ≠ 0 := by
  intro zero
  exact raised (Nat.or_eq_zero_iff.mp zero).2

/-- A version below the first of an ascending array is not in it. -/
theorem not_mem_of_lt_head {version head : BinlogDataGroupVersion}
    {versions : List BinlogDataGroupVersion} (below : version < head)
    (ascending : (head :: versions).Pairwise (· ≤ ·)) : version ∉ head :: versions := by
  intro member
  cases member with
  | head => exact lt_irrefl _ below
  | tail _ member =>
      exact lt_irrefl _ (below.trans_le ((List.pairwise_cons.mp ascending).1 _ member))

/-- The merge of two ascending arrays leaves the flags clear exactly when both hold
the same versions. -/
theorem compareVersionArrays_eq_zero_iff {flags : Nat}
    {replica slice : List BinlogDataGroupVersion} (replicaAscending : replica.Pairwise (· ≤ ·))
    (sliceAscending : slice.Pairwise (· ≤ ·)) :
    compareVersionArrays flags replica slice = 0 ↔
      flags = 0 ∧ ∀ version, version ∈ replica ↔ version ∈ slice := by
  fun_induction compareVersionArrays flags replica slice with
  | case1 flags => simp
  | case2 flags sv slice =>
      refine iff_of_false (or_ne_zero_of_right (by decide)) ?_
      rintro ⟨-, same⟩
      simpa using (same sv).mpr List.mem_cons_self
  | case3 flags rv replica =>
      refine iff_of_false (or_ne_zero_of_right (by decide)) ?_
      rintro ⟨-, same⟩
      simpa using (same rv).mp List.mem_cons_self
  | case4 flags rv replica sv slice order flags' all =>
      have below := binlogCompareDgVersion_lt_iff.mp order
      refine iff_of_false (or_ne_zero_of_right (by decide)) ?_
      rintro ⟨-, same⟩
      exact not_mem_of_lt_head below sliceAscending ((same rv).mp List.mem_cons_self)
  | case5 flags rv replica sv slice order flags' all ih =>
      have below := binlogCompareDgVersion_lt_iff.mp order
      rw [ih (List.pairwise_cons.mp replicaAscending).2 sliceAscending]
      refine iff_of_false ?_ ?_
      · rintro ⟨clear, -⟩
        exact or_ne_zero_of_right (by decide) clear
      · rintro ⟨-, same⟩
        exact not_mem_of_lt_head below sliceAscending ((same rv).mp List.mem_cons_self)
  | case6 flags rv replica sv slice order ih =>
      cases binlogCompareDgVersion_eq_iff.mp order
      have replicaRest := (List.pairwise_cons.mp replicaAscending).2
      have sliceRest := (List.pairwise_cons.mp sliceAscending).2
      rw [ih (replicaRest.sublist (List.dropWhile_sublist _))
        (sliceRest.sublist (List.dropWhile_sublist _))]
      simp only [mem_dropWhile_eq_iff replicaAscending, mem_dropWhile_eq_iff sliceAscending,
        List.mem_cons]
      refine and_congr_right fun _ => forall_congr' fun version => ?_
      by_cases copy : version = rv <;> simp [copy]
  | case7 flags rv replica sv slice order flags' all =>
      have below := binlogCompareDgVersion_gt_iff.mp order
      refine iff_of_false (or_ne_zero_of_right (by decide)) ?_
      rintro ⟨-, same⟩
      exact not_mem_of_lt_head below replicaAscending ((same sv).mpr List.mem_cons_self)
  | case8 flags rv replica sv slice order flags' all ih =>
      have below := binlogCompareDgVersion_gt_iff.mp order
      rw [ih replicaAscending (List.pairwise_cons.mp sliceAscending).2]
      refine iff_of_false ?_ ?_
      · rintro ⟨clear, -⟩
        exact or_ne_zero_of_right (by decide) clear
      · rintro ⟨-, same⟩
        exact not_mem_of_lt_head below replicaAscending ((same sv).mpr List.mem_cons_self)

end Merge

section Windows

variable {dataGroupCount : Nat}

@[simp] theorem mem_sortVersionArray {version : BinlogDataGroupVersion}
    {versions : List BinlogDataGroupVersion} :
    version ∈ sortVersionArray versions ↔ version ∈ versions :=
  List.mem_insertionSort _

theorem sortVersionArray_ascending (versions : List BinlogDataGroupVersion) :
    (sortVersionArray versions).Pairwise (· ≤ ·) :=
  List.pairwise_insertionSort _ _

theorem mem_binlogParseBuffer {version : BinlogDataGroupVersion}
    {read : List BinlogCommonFields} :
    version ∈ binlogParseBuffer dataGroupCount read ↔
      ∃ fields ∈ read, fields.isInternal = false ∧ dgVersion dataGroupCount fields = version := by
  simp [binlogParseBuffer, and_assoc]

theorem mem_replicaVersions {logs : LocalBinlogs} {fromTimestamp : Int}
    {version : BinlogDataGroupVersion} :
    version ∈ (binlogLoadDataVersions dataGroupCount logs fromTimestamp).replicaVersions ↔
      ∃ log ∈ logs.replicas, ∃ fields ∈ log.window fromTimestamp,
        fields.isInternal = false ∧ dgVersion dataGroupCount fields = version := by
  simp [binlogLoadDataVersions, mem_binlogParseBuffer]

theorem mem_sliceVersions {logs : LocalBinlogs} {fromTimestamp : Int}
    {version : BinlogDataGroupVersion} :
    version ∈ (binlogLoadDataVersions dataGroupCount logs fromTimestamp).sliceVersions ↔
      ∃ fields ∈ logs.slice.window fromTimestamp,
        fields.isInternal = false ∧ dgVersion dataGroupCount fields = version := by
  simp [binlogLoadDataVersions, mem_binlogParseBuffer]

end Windows

section Together

variable {dataGroupCount : Nat} {logs : LocalBinlogs}

/-- The logs of a run in which every operation logged its slice records and its
replica record with one timestamp, and no record is missing.  The operations of one
data group are logged in data version order with timestamps that do not go back;
the slice binlog mixes the data groups in any order. -/
structure LoggedTogether (dataGroupCount : Nat) (logs : LocalBinlogs) : Prop where
  own : ∀ index log, logs.replicas[index]? = some log → ∀ fields ∈ log.records,
    fields.isInternal = false →
      fsDataGroupId dataGroupCount fields.bkey = logs.baseDgId + index
  replicaOrder : ∀ log ∈ logs.replicas, log.records.Pairwise fun earlier later =>
    earlier.dataVersion < later.dataVersion ∧ earlier.timestamp ≤ later.timestamp
  sliceOrder : logs.slice.records.Pairwise fun earlier later =>
    earlier.isInternal = false → later.isInternal = false →
      fsDataGroupId dataGroupCount earlier.bkey = fsDataGroupId dataGroupCount later.bkey →
        earlier.dataVersion ≤ later.dataVersion ∧ earlier.timestamp ≤ later.timestamp
  replicaLogged : ∀ fields ∈ logs.slice.records, fields.isInternal = false →
    ∃ log ∈ logs.replicas, ∃ replica ∈ log.records, replica.isInternal = false ∧
      dgVersion dataGroupCount replica = dgVersion dataGroupCount fields ∧
      replica.timestamp = fields.timestamp
  sliceLogged : ∀ log ∈ logs.replicas, ∀ fields ∈ log.records, fields.isInternal = false →
    ∃ slice ∈ logs.slice.records, slice.isInternal = false ∧
      dgVersion dataGroupCount slice = dgVersion dataGroupCount fields ∧
      slice.timestamp = fields.timestamp

namespace LoggedTogether

/-- A data version has one replica record, hence one timestamp. -/
theorem replica_unique (together : LoggedTogether dataGroupCount logs)
    {log log' : BinlogFiles} (here : log ∈ logs.replicas) (here' : log' ∈ logs.replicas)
    {fields fields' : BinlogCommonFields} (member : fields ∈ log.records)
    (member' : fields' ∈ log'.records) (operation : fields.isInternal = false)
    (operation' : fields'.isInternal = false)
    (same : dgVersion dataGroupCount fields = dgVersion dataGroupCount fields') :
    fields = fields' := by
  obtain ⟨index, located⟩ := List.getElem?_of_mem here
  obtain ⟨index', located'⟩ := List.getElem?_of_mem here'
  have group := together.own index log located fields member operation
  have group' := together.own index' log' located' fields' member' operation'
  simp only [dgVersion, BinlogDataGroupVersion.mk.injEq] at same
  have index_eq : index = index' := by omega
  subst index_eq
  cases located.symm.trans located'
  have distinct : (log.records.map (·.dataVersion)).Nodup := by
    rw [List.Nodup, List.pairwise_map]
    exact (together.replicaOrder log here).imp fun ordered => ordered.1.ne
  exact List.inj_on_of_nodup_map distinct member member' same.2

/-- The slice records of one data version have one timestamp. -/
theorem timestamp_eq (together : LoggedTogether dataGroupCount logs)
    {fields fields' : BinlogCommonFields} (member : fields ∈ logs.slice.records)
    (member' : fields' ∈ logs.slice.records) (operation : fields.isInternal = false)
    (operation' : fields'.isInternal = false)
    (same : dgVersion dataGroupCount fields = dgVersion dataGroupCount fields') :
    fields.timestamp = fields'.timestamp := by
  obtain ⟨log, here, replica, logged, isOperation, version, time⟩ :=
    together.replicaLogged fields member operation
  obtain ⟨log', here', replica', logged', isOperation', version', time'⟩ :=
    together.replicaLogged fields' member' operation'
  have equal := together.replica_unique here here' logged logged' isOperation isOperation'
    (version.trans (same.trans version'.symm))
  rw [← time, ← time', equal]

/-- The replica windows hold the versions of all slice records that are not older. -/
theorem mem_replicaVersions_iff (together : LoggedTogether dataGroupCount logs)
    {fromTimestamp : Int} {version : BinlogDataGroupVersion} :
    version ∈ (binlogLoadDataVersions dataGroupCount logs fromTimestamp).replicaVersions ↔
      ∃ fields ∈ logs.slice.records, fields.isInternal = false ∧
        fromTimestamp ≤ fields.timestamp ∧ dgVersion dataGroupCount fields = version := by
  have ordered : ∀ log ∈ logs.replicas, log.records.Pairwise fun earlier later =>
      earlier.timestamp ≤ later.timestamp :=
    fun log here => (together.replicaOrder log here).imp fun order => order.2
  rw [mem_replicaVersions]
  constructor
  · rintro ⟨log, here, replica, inWindow, operation, rfl⟩
    obtain ⟨logged, newer⟩ := (BinlogFiles.mem_window_iff (ordered log here)).mp inWindow
    obtain ⟨fields, member, isOperation, version, time⟩ :=
      together.sliceLogged log here replica logged operation
    exact ⟨fields, member, isOperation, time ▸ newer, version⟩
  · rintro ⟨fields, member, operation, newer, rfl⟩
    obtain ⟨log, here, replica, logged, isOperation, version, time⟩ :=
      together.replicaLogged fields member operation
    have inWindow : replica ∈ log.window fromTimestamp :=
      (BinlogFiles.mem_window_iff (ordered log here)).mpr ⟨logged, time ▸ newer⟩
    exact ⟨log, here, replica, inWindow, isOperation, version⟩

end LoggedTogether

/-- The slice binlog keeps the time of its operations around a timestamp, with the
search for it starting at the files `rest`: from there on no older record of an
operation comes behind a record that is not older, and an operation from the
timestamp on with a record in the files `before` has another one in `rest`. -/
structure KeepsTime (dataGroupCount : Nat) (fromTimestamp : Int)
    (before rest : List (List BinlogCommonFields)) : Prop where
  ordered : rest.flatten.Pairwise fun earlier later =>
    fromTimestamp ≤ earlier.timestamp → later.isInternal = false →
      fromTimestamp ≤ later.timestamp
  repeated : ∀ fields ∈ before.flatten, fields.isInternal = false →
    fromTimestamp ≤ fields.timestamp →
      ∃ again ∈ rest.flatten, again.isInternal = false ∧
        dgVersion dataGroupCount again = dgVersion dataGroupCount fields

/-- No operation of the slice window is older. -/
theorem newer_of_mem_window {log : BinlogFiles} {fromTimestamp : Int}
    {before rest : List (List BinlogCommonFields)}
    (start : StartsAt fromTimestamp log.files before rest) :
    (∀ fields ∈ log.window fromTimestamp, fields.isInternal = false →
        fromTimestamp ≤ fields.timestamp) ↔
      rest.flatten.Pairwise fun earlier later =>
        fromTimestamp ≤ earlier.timestamp → later.isInternal = false →
          fromTimestamp ≤ later.timestamp := by
  rw [BinlogFiles.window_eq start]
  have windowed : (∀ fields ∈ rest.flatten.dropWhile (olderThan fromTimestamp),
      fields.isInternal = false → olderThan fromTimestamp fields = false) ↔ _ :=
    forall_dropWhile_iff
  simpa [olderThan] using windowed

/-- The two windows hold the same versions exactly when the slice binlog keeps time
around the timestamp. -/
theorem LoggedTogether.same_versions_iff (together : LoggedTogether dataGroupCount logs)
    {fromTimestamp : Int} {before rest : List (List BinlogCommonFields)}
    (start : StartsAt fromTimestamp logs.slice.files before rest) :
    (∀ version,
      version ∈ (binlogLoadDataVersions dataGroupCount logs fromTimestamp).replicaVersions ↔
        version ∈ (binlogLoadDataVersions dataGroupCount logs fromTimestamp).sliceVersions) ↔
      KeepsTime dataGroupCount fromTimestamp before rest := by
  have parts : logs.slice.records = before.flatten ++ rest.flatten := by
    rw [BinlogFiles.records, start.split, List.flatten_append]
  have windowed := BinlogFiles.window_eq start
  have inRest : ∀ fields ∈ logs.slice.window fromTimestamp, fields ∈ rest.flatten := by
    intro fields inWindow
    rw [windowed] at inWindow
    exact (List.dropWhile_sublist _).subset inWindow
  simp only [together.mem_replicaVersions_iff, mem_sliceVersions]
  constructor
  · intro same
    refine ⟨(newer_of_mem_window start).mp ?_, ?_⟩
    · intro fields inWindow operation
      obtain ⟨other, member, isOperation, newer, version⟩ :=
        (same _).mpr ⟨fields, inWindow, operation, rfl⟩
      have logged : fields ∈ logs.slice.records := by
        rw [parts]
        exact List.mem_append_right _ (inRest fields inWindow)
      rwa [← together.timestamp_eq member logged isOperation operation version]
    · intro fields member operation newer
      have logged : fields ∈ logs.slice.records := by
        rw [parts]
        exact List.mem_append_left _ member
      obtain ⟨again, inWindow, isOperation, version⟩ :=
        (same _).mp ⟨fields, logged, operation, newer, rfl⟩
      exact ⟨again, inRest again inWindow, isOperation, version⟩
  · intro keeps version
    have newerInWindow : ∀ fields ∈ rest.flatten, fromTimestamp ≤ fields.timestamp →
        fields ∈ logs.slice.window fromTimestamp := by
      intro fields member newer
      rw [windowed]
      exact mem_dropWhile_of_fails member (by simpa [olderThan] using newer)
    constructor
    · rintro ⟨fields, member, operation, newer, rfl⟩
      rw [parts, List.mem_append] at member
      obtain inBefore | inside := member
      · obtain ⟨again, inside, isOperation, version⟩ :=
          keeps.repeated fields inBefore operation newer
        have logged : again ∈ logs.slice.records := parts ▸ List.mem_append_right _ inside
        have time := together.timestamp_eq logged
          (parts ▸ List.mem_append_left _ inBefore) isOperation operation version
        exact ⟨again, newerInWindow again inside (time ▸ newer), isOperation, version⟩
      · exact ⟨fields, newerInWindow fields inside newer, operation, rfl⟩
    · rintro ⟨fields, inWindow, operation, rfl⟩
      have newer := (newer_of_mem_window start).mpr keeps.ordered fields inWindow operation
      exact ⟨fields, parts ▸ List.mem_append_right _ (inRest fields inWindow), operation,
        newer, rfl⟩

end Together

section Repair

variable {dataGroupCount : Nat}

/-- A repair whose versions cover the operations of the window drops nothing. -/
theorem binlogRepair_eq_records {versions : List BinlogDataGroupVersion} {log : BinlogFiles}
    {pos : SFBinlogFilePosition}
    (covered : ∀ fields ∈ readFrom log.files pos, fields.isInternal = false →
      dgVersion dataGroupCount fields ∈ versions) :
    binlogRepair dataGroupCount versions log pos = log.records := by
  have kept : (readFrom log.files pos).filter (binlogFilterKeep dataGroupCount versions) =
      readFrom log.files pos := by
    rw [List.filter_eq_self]
    intro fields member
    cases internal : fields.isInternal with
    | true => simp [binlogFilterKeep, internal]
    | false => simp [binlogFilterKeep, covered fields member internal]
  rw [binlogRepair, kept]
  exact take_append_readFrom log.filled pos

/-- The check raises no alarm: the flags stay clear, the server starts with both logs
as they were, and neither repair would drop a record of the windows it loaded. -/
structure NoAlarm (dataGroupCount : Nat) (logs : LocalBinlogs) (lastSeconds : Int) : Prop where
  flags : (binlogConsistencyCheck dataGroupCount logs lastSeconds).2 = 0
  kept : doBinlogCheck dataGroupCount logs lastSeconds =
    (logs.slice.records, logs.replicas.map BinlogFiles.records)
  repairSlice : 0 < binlogCheckGetLastTimestamp logs →
    binlogConsistencyRepairSlice dataGroupCount
      (binlogConsistencyCheck dataGroupCount logs lastSeconds).1 logs = logs.slice.records
  repairReplica : 0 < binlogCheckGetLastTimestamp logs →
    binlogConsistencyRepairReplica dataGroupCount
      (binlogConsistencyCheck dataGroupCount logs lastSeconds).1 logs =
        logs.replicas.map BinlogFiles.records

theorem binlogConsistencyCheck_of_pos (dataGroupCount : Nat) {logs : LocalBinlogs}
    (lastSeconds : Int) (positive : 0 < binlogCheckGetLastTimestamp logs) :
    (binlogConsistencyCheck dataGroupCount logs lastSeconds).1 =
        binlogLoadDataVersions dataGroupCount logs
          (binlogCheckGetLastTimestamp logs - lastSeconds + 1) ∧
      ((binlogConsistencyCheck dataGroupCount logs lastSeconds).2 = 0 ↔
        ∀ version, version ∈ (binlogLoadDataVersions dataGroupCount logs
            (binlogCheckGetLastTimestamp logs - lastSeconds + 1)).replicaVersions ↔
          version ∈ (binlogLoadDataVersions dataGroupCount logs
            (binlogCheckGetLastTimestamp logs - lastSeconds + 1)).sliceVersions) := by
  have loads : ¬ binlogCheckGetLastTimestamp logs ≤ 0 := not_le.mpr positive
  simp only [binlogConsistencyCheck, if_neg loads, true_and]
  refine Iff.trans (compareVersionArrays_eq_zero_iff ?_ ?_) (and_iff_right rfl)
  · exact sortVersionArray_ascending _
  · exact sortVersionArray_ascending _

/-- Where the two windows hold the same versions, neither repair drops a record. -/
theorem repairs_eq_records {logs : LocalBinlogs} {fromTimestamp : Int}
    (same : ∀ version,
      version ∈ (binlogLoadDataVersions dataGroupCount logs fromTimestamp).replicaVersions ↔
        version ∈ (binlogLoadDataVersions dataGroupCount logs fromTimestamp).sliceVersions) :
    binlogConsistencyRepairSlice dataGroupCount
        (binlogLoadDataVersions dataGroupCount logs fromTimestamp) logs = logs.slice.records ∧
      binlogConsistencyRepairReplica dataGroupCount
        (binlogLoadDataVersions dataGroupCount logs fromTimestamp) logs =
          logs.replicas.map BinlogFiles.records := by
  constructor
  · refine binlogRepair_eq_records fun fields inWindow operation => ?_
    exact (same _).mpr (mem_sliceVersions.mpr ⟨fields, inWindow, operation, rfl⟩)
  · have positions : (binlogLoadDataVersions dataGroupCount logs fromTimestamp).replicaPositions =
        logs.replicas.map (binlogGetPositionByTimestamp · fromTimestamp) := rfl
    rw [binlogConsistencyRepairReplica, positions, List.zipWith_map_right, List.zipWith_self]
    refine List.map_congr_left fun log here => ?_
    refine binlogRepair_eq_records fun fields inWindow operation => ?_
    exact (same _).mp (mem_replicaVersions.mpr ⟨log, here, fields, inWindow, operation, rfl⟩)

/-- Clear flags are enough. -/
theorem NoAlarm.of_flags {logs : LocalBinlogs} {lastSeconds : Int}
    (flags : (binlogConsistencyCheck dataGroupCount logs lastSeconds).2 = 0) :
    NoAlarm dataGroupCount logs lastSeconds := by
  have repairs (positive : 0 < binlogCheckGetLastTimestamp logs) :=
    repairs_eq_records ((binlogConsistencyCheck_of_pos _ _ positive).2.mp flags)
  refine ⟨flags, ?_, fun positive => ?_, fun positive => ?_⟩
  · simp [doBinlogCheck, flags]
  · rw [(binlogConsistencyCheck_of_pos _ _ positive).1]
    exact (repairs positive).1
  · rw [(binlogConsistencyCheck_of_pos _ _ positive).1]
    exact (repairs positive).2

/-- The check raises no alarm over logs without a missing record exactly when it loads
nothing or the slice binlog keeps time around the timestamp it starts from. -/
theorem no_alarm_iff_slice_log_keeps_time {logs : LocalBinlogs}
    (together : LoggedTogether dataGroupCount logs) (lastSeconds : Int) :
    NoAlarm dataGroupCount logs lastSeconds ↔
      binlogCheckGetLastTimestamp logs ≤ 0 ∨
        ∀ before rest, StartsAt (binlogCheckGetLastTimestamp logs - lastSeconds + 1)
            logs.slice.files before rest →
          KeepsTime dataGroupCount (binlogCheckGetLastTimestamp logs - lastSeconds + 1)
            before rest := by
  by_cases loads : binlogCheckGetLastTimestamp logs ≤ 0
  · refine iff_of_true (.of_flags ?_) (.inl loads)
    simp [binlogConsistencyCheck, loads]
  · have checked := (binlogConsistencyCheck_of_pos dataGroupCount lastSeconds
      (not_le.mp loads)).2
    obtain ⟨index, -, start⟩ := logs.slice.startsAt
      (binlogCheckGetLastTimestamp logs - lastSeconds + 1)
    constructor
    · intro noAlarm
      refine .inr fun before rest starts => ?_
      exact (together.same_versions_iff starts).mp (checked.mp noAlarm.flags)
    · rintro (nothing | keeps)
      · exact absurd nothing loads
      · exact .of_flags (checked.mpr ((together.same_versions_iff start).mpr (keeps _ _ start)))

end Repair

section Reordered

/-- A write of the block `oid` under data version 1. -/
def writeAt (timestamp oid : Int) : BinlogCommonFields :=
  ⟨timestamp, .rpcMaster, .writeSlice, ⟨oid, 0⟩, 1⟩

/-- A log of one file. -/
def oneFile (records : List BinlogCommonFields) : BinlogFiles :=
  ⟨[], records, by simp⟩

/-- Two data groups with one write each, and the slice binlog in the given order. -/
def twoGroups (slice : List BinlogCommonFields) : LocalBinlogs :=
  ⟨1, oneFile slice, [oneFile [writeAt 10 2], oneFile [writeAt 5 3]]⟩

theorem twoGroups_together {slice : List BinlogCommonFields}
    (both : slice = [writeAt 10 2, writeAt 5 3] ∨ slice = [writeAt 5 3, writeAt 10 2]) :
    LoggedTogether 2 (twoGroups slice) where
  own := by
    intro index log located fields member _
    match index with
    | 0 | 1 =>
        cases located
        simp only [BinlogFiles.records, BinlogFiles.files, oneFile, List.nil_append,
          List.flatten_cons, List.flatten_nil, List.append_nil, List.mem_singleton] at member
        subst member
        rfl
    | _ + 2 => cases located
  replicaOrder := by
    simp [twoGroups, oneFile, BinlogFiles.records, BinlogFiles.files]
  sliceOrder := by
    obtain rfl | rfl := both <;> decide
  replicaLogged := by
    obtain rfl | rfl := both <;> decide
  sliceLogged := by
    obtain rfl | rfl := both <;> decide

theorem no_alarm_in_time_order :
    LoggedTogether 2 (twoGroups [writeAt 5 3, writeAt 10 2]) ∧
      NoAlarm 2 (twoGroups [writeAt 5 3, writeAt 10 2]) 3 := by
  have together : LoggedTogether 2 (twoGroups [writeAt 5 3, writeAt 10 2]) :=
    twoGroups_together (.inr rfl)
  refine ⟨together, (no_alarm_iff_slice_log_keeps_time together 3).mpr (.inr ?_)⟩
  intro before rest start
  have files : before ++ rest = [[writeAt 5 3, writeAt 10 2]] := start.split.symm
  obtain ⟨rfl, rfl⟩ | ⟨rfl, rfl⟩ := List.append_eq_singleton_iff.mp files
  · constructor
    · decide
    · simp
  · exact absurd rfl start.nonempty

/-- The write of group 2 is dropped from the slice binlog although its replica record
is there. -/
theorem reordered_write_is_dropped :
    LoggedTogether 2 (twoGroups [writeAt 10 2, writeAt 5 3]) ∧
      ¬ NoAlarm 2 (twoGroups [writeAt 10 2, writeAt 5 3]) 3 ∧
      (binlogConsistencyCheck 2 (twoGroups [writeAt 10 2, writeAt 5 3]) 3).2 =
        binlogCheckResultSliceDirty ∧
      (doBinlogCheck 2 (twoGroups [writeAt 10 2, writeAt 5 3]) 3).1 = [writeAt 10 2] := by
  have loaded : binlogLoadDataVersions 2 (twoGroups [writeAt 10 2, writeAt 5 3]) 8 =
      ⟨[⟨1, 1⟩], [⟨1, 1⟩, ⟨2, 1⟩], [⟨0, 0⟩, ⟨0, 1⟩], ⟨0, 0⟩⟩ := by
    decide +kernel
  have checked : binlogConsistencyCheck 2 (twoGroups [writeAt 10 2, writeAt 5 3]) 3 =
      (⟨[⟨1, 1⟩], [⟨1, 1⟩, ⟨2, 1⟩], [⟨0, 0⟩, ⟨0, 1⟩], ⟨0, 0⟩⟩,
        binlogCheckResultSliceDirty) := by
    have last : binlogCheckGetLastTimestamp (twoGroups [writeAt 10 2, writeAt 5 3]) = 10 := by
      decide
    simp [binlogConsistencyCheck, last, loaded, compareVersionArrays, binlogCompareDgVersion]
  have dropped : (doBinlogCheck 2 (twoGroups [writeAt 10 2, writeAt 5 3]) 3).1 =
      [writeAt 10 2] := by
    simp only [doBinlogCheck, checked]
    decide
  refine ⟨twoGroups_together (.inl rfl), ?_, by rw [checked], dropped⟩
  intro noAlarm
  have flags := noAlarm.flags
  rw [checked] at flags
  cases flags

end Reordered

end FastStore.Binlog
