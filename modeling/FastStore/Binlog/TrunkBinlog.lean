import FastStore.Storage.TrunkFreelist
import FastStore.Storage.SortedSubdirs
import FastStore.Dio.TrunkWriteThread
import FastStore.Binlog.StoreRestart
import FastStore.Binlog.LogBuffers

/-!
# The trunk binlog

Every trunk file that is created or deleted is a line of the trunk binlog.  A start reads the log
line by line and brings the trunks of the store paths and the counts of their subdirs back.  The
log of trunks that were created under fresh ids, in subdirs that are not overfull, is loaded
without an error, and the tables hold exactly what is left of it.
-/

namespace FastStore.Binlog

open FastStore.Util FastStore.Storage FastStore.Dio

/-! ## The tables -/

/-- What is configured: `STORAGE_CFG` and the store paths that are in use. -/
structure TrunkConfig where
  maxStorePathIndex : Int
  maxTrunkFilesPerSubdir : Int
  present : Nat → Bool

/-- The subdirs by store path index, and the `by_id` skiplists of the allocators. -/
structure TrunkTables where
  subdirs : Nat → Option SortedSubdirs
  trunks : TrunkKey → Option FSTrunkFileInfo

/-- `trunk_id_info_init` and `storage_allocator_init` before the load. -/
def TrunkTables.empty (cfg : TrunkConfig) : TrunkTables :=
  ⟨fun path => if cfg.present path then some ⟨[], []⟩ else none, fun _ => none⟩

section Model

variable (skiplists : SubdirSkiplists) (cfg : TrunkConfig) (tables : TrunkTables)

/-- `storage_allocator_add_trunk`. -/
def storageAllocatorAddTrunk (pathIndex : Nat) (idInfo : FSTrunkIdInfo) (size : Int) :
    Errno × TrunkTables :=
  match tables.subdirs pathIndex with
  | none => (.enoent, tables)
  | some subdirs =>
      let added := SortedSubdirs.trunkIdInfoAdd skiplists cfg.maxTrunkFilesPerSubdir subdirs idInfo
      let counted := { tables with
        subdirs := Function.update tables.subdirs pathIndex (some added.2) }
      if added.1 ≠ .ok then (added.1, counted)
      else if (tables.trunks ⟨pathIndex, idInfo.id⟩).isSome then (.eexist, counted)
      else (.ok, { counted with
        trunks := Function.update tables.trunks ⟨pathIndex, idInfo.id⟩
          (some (trunkAllocatorAdd idInfo size)) })

/-- `storage_allocator_delete_trunk`. -/
def storageAllocatorDeleteTrunk (pathIndex : Nat) (idInfo : FSTrunkIdInfo) :
    Errno × TrunkTables :=
  match tables.subdirs pathIndex with
  | none => (.enoent, tables)
  | some subdirs =>
      let deleted :=
        SortedSubdirs.trunkIdInfoDelete skiplists cfg.maxTrunkFilesPerSubdir subdirs idInfo
      let counted := { tables with
        subdirs := Function.update tables.subdirs pathIndex (some deleted.2) }
      if deleted.1 ≠ .ok then (deleted.1, counted)
      else if (tables.trunks ⟨pathIndex, idInfo.id⟩).isNone then (.enoent, counted)
      else (.ok, { counted with
        trunks := Function.update tables.trunks ⟨pathIndex, idInfo.id⟩ none })

/-! ## Lines -/

/-- `FS_IO_TYPE_CREATE_TRUNK` and `FS_IO_TYPE_DELETE_TRUNK`. -/
def trunkOpType (create : Bool) : Char := if create then 'C' else 'D'

/-- What a line of the trunk binlog says. -/
structure TrunkRecord where
  opType : Char
  pathIndex : Nat
  idInfo : FSTrunkIdInfo
  size : Int
  deriving DecidableEq, Repr

/-- `trunk_parse_line` up to the operation, once the line is split. -/
def trunkParseCols (cols : List (List Char)) : Option TrunkRecord :=
  if cols.length < 6 then none
  else do
    let pathIndex ← parseInt toInt [' '] 0 (col cols 2)
    if cfg.maxStorePathIndex < pathIndex then none
    else
      let trunkId ← parseInt id [' '] 1 (col cols 3)
      let subdir ← parseInt id [' '] 1 (col cols 4)
      let trunkSize ← parseInt id ['\n'] fsTrunkFileMinSize (col cols 5)
      if fsTrunkFileMaxSize < trunkSize then none
      else some ⟨colChar cols 1, pathIndex.toNat, ⟨trunkId, subdir⟩, trunkSize⟩

/-- The operation of a line. -/
def dealTrunkRecord (record : TrunkRecord) : Errno × TrunkTables :=
  if record.opType = trunkOpType true then
    storageAllocatorAddTrunk skiplists cfg tables record.pathIndex record.idInfo record.size
  else if record.opType = trunkOpType false then
    storageAllocatorDeleteTrunk skiplists cfg tables record.pathIndex record.idInfo
  else (.einval, tables)

/-- `trunk_parse_line` of a line that ends before the text `rest`, `none` for an error. -/
def trunkParseLine (line rest : List Char) : Option TrunkTables := do
  let record ← trunkParseCols cfg (splitLine line rest 8)
  let dealt := dealTrunkRecord skiplists cfg tables record
  if dealt.1 = .ok then some dealt.2 else none

/-- `parse_buffer` of the loader; `beyond` is the memory behind the buffer. -/
def parseTrunkBuffer (beyond buffer : List Char) : Option TrunkTables :=
  (bufferLines buffer).foldlM
    (fun tables line => trunkParseLine skiplists cfg tables line.1 (line.2 ++ beyond)) tables

/-- `trunk_binlog_init`: the buffers of the log one after another, each with the memory behind
it. -/
def trunkBinlogInit (buffers : List (List Char × List Char)) : Option TrunkTables :=
  buffers.foldlM
    (fun tables buffer => parseTrunkBuffer skiplists cfg tables buffer.2 buffer.1) tables

end Model

/-- A line of the log with the time it was written at. -/
structure TrunkLogLine where
  currentTime : Int
  entry : TrunkLogEntry

namespace TrunkLogLine

/-- The fields of `trunk_binlog_write`. -/
def fields (line : TrunkLogLine) : List (List Char) :=
  [decimal line.currentTime, [trunkOpType line.entry.create], decimal line.entry.space.store,
    decimal line.entry.space.idInfo.id, decimal line.entry.space.idInfo.subdir,
    decimal line.entry.space.size]

/-- `trunk_binlog_write`. -/
def text (line : TrunkLogLine) : List Char := lineOf line.fields

/-- `FS_TRUNK_BINLOG_MAX_RECORD_SIZE`. -/
def maxRecordSize : Nat := 128

end TrunkLogLine

/-! ## What a log leaves -/

/-- A trunk file of a configured store path, with an id, a subdir and a size that the log takes. -/
structure TrunkConfig.Takes (cfg : TrunkConfig) (space : FSTrunkSpaceInfo) : Prop where
  store : (space.store : Int) ≤ cfg.maxStorePathIndex ∧ IsInt space.store
  present : cfg.present space.store = true
  id : 1 ≤ space.idInfo.id ∧ space.idInfo.id < 2 ^ 63
  subdir : 1 ≤ space.idInfo.subdir ∧ space.idInfo.subdir < 2 ^ 63
  size : fsTrunkFileMinSize ≤ space.size ∧ space.size ≤ fsTrunkFileMaxSize

/-- The subdir in which the file of a trunk is counted. -/
def subdirOf (space : FSTrunkSpaceInfo) : Int := toInt space.idInfo.subdir

/-- The trunk files that were created and not deleted again, the last one first. -/
def liveTrunks (log : List TrunkLogEntry) : List FSTrunkSpaceInfo :=
  log.foldl (fun live entry =>
    if entry.create then entry.space :: live
    else live.filter fun other => other.trunk ≠ entry.space.trunk) []

/-- The number of files in a subdir of a store path. -/
def filesIn (live : List FSTrunkSpaceInfo) (path : Nat) (subdir : Int) : Nat :=
  live.countP fun space => space.store = path ∧ subdirOf space = subdir

/-- A file was created in the subdir at some time. -/
def CameUp (log : List TrunkLogEntry) (path : Nat) (subdir : Int) : Prop :=
  ∃ entry ∈ log, entry.create = true ∧ entry.space.store = path ∧ subdirOf entry.space = subdir

/-- A log that can be loaded: ids are fresh, what is deleted is there, and no subdir is overfull
when a file of it is deleted. -/
inductive TrunkConfig.Loads (cfg : TrunkConfig) : List TrunkLogEntry → Prop where
  | nil : Loads cfg []
  | create {log : List TrunkLogEntry} {space : FSTrunkSpaceInfo} (before : Loads cfg log)
      (takes : cfg.Takes space) (fresh : ∀ other ∈ liveTrunks log, other.trunk ≠ space.trunk) :
      Loads cfg (log ++ [⟨true, space⟩])
  | delete {log : List TrunkLogEntry} {space : FSTrunkSpaceInfo} (before : Loads cfg log)
      (present : space ∈ liveTrunks log)
      (within : (filesIn (liveTrunks log) space.store (subdirOf space) : Int) ≤
        cfg.maxTrunkFilesPerSubdir) : Loads cfg (log ++ [⟨false, space⟩])

/-- The tables hold these trunk files, each unused, and count the files of these subdirs. -/
structure TrunkTables.Hold (cfg : TrunkConfig) (tables : TrunkTables)
    (live : List FSTrunkSpaceInfo) (cameUp : Nat → Int → Prop) : Prop where
  trunks : ∀ key trunk, tables.trunks key = some trunk ↔
    ∃ space ∈ live, space.trunk = key ∧ trunk = trunkAllocatorAdd space.idInfo space.size
  subdirs : ∀ path, cfg.present path = true → ∃ subdirs, tables.subdirs path = some subdirs ∧
    subdirs.Counts cfg.maxTrunkFilesPerSubdir (filesIn live path) (cameUp path)

/-! ### Log entries -/

theorem liveTrunks_create (log : List TrunkLogEntry) (space : FSTrunkSpaceInfo) :
    liveTrunks (log ++ [⟨true, space⟩]) = space :: liveTrunks log := by
  rw [liveTrunks, List.foldl_append]
  rfl

theorem liveTrunks_delete (log : List TrunkLogEntry) (space : FSTrunkSpaceInfo) :
    liveTrunks (log ++ [⟨false, space⟩]) =
      (liveTrunks log).filter fun other => other.trunk ≠ space.trunk := by
  rw [liveTrunks, List.foldl_append]
  rfl

theorem cameUp_create (log : List TrunkLogEntry) (space : FSTrunkSpaceInfo) (path : Nat)
    (subdir : Int) : CameUp (log ++ [⟨true, space⟩]) path subdir ↔
      CameUp log path subdir ∨ space.store = path ∧ subdirOf space = subdir := by
  simp [CameUp, or_and_right, exists_or]

theorem cameUp_delete (log : List TrunkLogEntry) (space : FSTrunkSpaceInfo) (path : Nat)
    (subdir : Int) : CameUp (log ++ [⟨false, space⟩]) path subdir ↔ CameUp log path subdir := by
  simp [CameUp, or_and_right, exists_or]

theorem filesIn_cons (space : FSTrunkSpaceInfo) (live : List FSTrunkSpaceInfo) (path : Nat) :
    filesIn (space :: live) path =
      if space.store = path then
        Function.update (filesIn live path) (subdirOf space)
          (filesIn live path (subdirOf space) + 1)
      else filesIn live path := by
  funext subdir
  rw [filesIn, List.countP_cons]
  split_ifs with counted here here
  · rw [decide_eq_true_eq] at counted
    rw [← counted.2, Function.update_self]
    rfl
  · rw [decide_eq_true_eq] at counted
    exact absurd counted.1 here
  · rw [decide_eq_true_eq] at counted
    rw [Function.update_of_ne fun same => counted ⟨here, same.symm⟩]
    rfl
  · rfl

theorem filesIn_perm {live other : List FSTrunkSpaceInfo} (perm : live.Perm other) :
    filesIn live = filesIn other := by
  funext path subdir
  exact perm.countP_eq _

/-- The files of a subdir depend on the files of the store path only. -/
theorem filesIn_congr {live other : List FSTrunkSpaceInfo} (nodup : live.Nodup)
    (otherNodup : other.Nodup) {path : Nat}
    (same : ∀ space : FSTrunkSpaceInfo, space.store = path → (space ∈ live ↔ space ∈ other))
    (subdir : Int) : filesIn live path subdir = filesIn other path subdir := by
  rw [filesIn, filesIn, List.countP_eq_length_filter, List.countP_eq_length_filter]
  apply List.Perm.length_eq
  apply (List.perm_ext_iff_of_nodup (nodup.filter _) (otherNodup.filter _)).mpr
  intro space
  rw [List.mem_filter, List.mem_filter, decide_eq_true_eq]
  constructor
  · rintro ⟨member, here⟩
    exact ⟨(same space here.1).mp member, here⟩
  · rintro ⟨member, here⟩
    exact ⟨(same space here.1).mpr member, here⟩

theorem filesIn_le {live other : List FSTrunkSpaceInfo} (nodup : other.Nodup)
    (inside : ∀ space ∈ other, space ∈ live) (path : Nat) (subdir : Int) :
    filesIn other path subdir ≤ filesIn live path subdir :=
  (nodup.subperm inside).countP_le _

/-- Without a file there the count is zero. -/
theorem filesIn_eq_zero {live : List FSTrunkSpaceInfo} {path : Nat} {subdir : Int}
    (absent : ∀ space ∈ live, space.store = path → subdirOf space ≠ subdir) :
    filesIn live path subdir = 0 := by
  apply List.countP_eq_zero.mpr
  intro space member here
  rw [decide_eq_true_eq] at here
  exact absent space member here.1 here.2

/-- A log of created trunks only leaves them all. -/
theorem liveTrunks_of_creates {log : List TrunkLogEntry}
    (creates : ∀ entry ∈ log, entry.create = true) :
    liveTrunks log = (log.map TrunkLogEntry.space).reverse := by
  induction log using List.reverseRecOn with
  | nil => rfl
  | append_singleton log entry ih =>
      obtain ⟨create, space⟩ := entry
      obtain ⟨earlier, own⟩ := List.forall_mem_append.mp creates
      obtain rfl : create = true := own _ (List.mem_singleton_self _)
      rw [liveTrunks_create, ih earlier, List.map_append, List.reverse_append]
      rfl

/-- The trunks of a log that loads have keys of their own and can be taken. -/
theorem TrunkConfig.Loads.live {cfg : TrunkConfig} {log : List TrunkLogEntry}
    (loads : cfg.Loads log) :
    (liveTrunks log).Pairwise (fun left right => left.trunk ≠ right.trunk) ∧
      ∀ space ∈ liveTrunks log, cfg.Takes space := by
  induction loads with
  | nil => exact ⟨.nil, List.forall_mem_nil _⟩
  | create before takes fresh ih =>
      rw [liveTrunks_create]
      refine ⟨List.pairwise_cons.mpr ⟨?_, ih.1⟩, List.forall_mem_cons.mpr ⟨takes, ih.2⟩⟩
      intro other member same
      exact fresh other member same.symm
  | delete before present within ih =>
      rw [liveTrunks_delete]
      refine ⟨ih.1.filter _, fun other member => ?_⟩
      exact ih.2 other (List.mem_of_mem_filter member)

/-- A log that is cut off loads, too. -/
theorem TrunkConfig.Loads.of_prefix {cfg : TrunkConfig} {log kept : List TrunkLogEntry}
    (loads : cfg.Loads log) (cut : kept <+: log) : cfg.Loads kept := by
  induction loads with
  | nil =>
      rw [List.prefix_nil.mp cut]
      exact .nil
  | create before takes fresh ih =>
      rcases List.prefix_concat_iff.mp cut with rfl | shorter
      · exact .create before takes fresh
      · exact ih shorter
  | delete before present within ih =>
      rcases List.prefix_concat_iff.mp cut with rfl | shorter
      · exact .delete before present within
      · exact ih shorter

/-- A key names at most one of the trunks. -/
theorem eq_of_trunk_eq {live : List FSTrunkSpaceInfo}
    (distinct : live.Pairwise fun left right => left.trunk ≠ right.trunk)
    {space other : FSTrunkSpaceInfo} (first : space ∈ live) (second : other ∈ live)
    (same : space.trunk = other.trunk) : space = other := by
  induction live with
  | nil => cases first
  | cons head tail ih =>
      obtain ⟨apart, distinct⟩ := List.pairwise_cons.mp distinct
      rcases List.mem_cons.mp first with rfl | firstBehind
      · rcases List.mem_cons.mp second with rfl | behind
        · rfl
        · exact absurd same (apart other behind)
      · rcases List.mem_cons.mp second with rfl | behind
        · exact absurd same.symm (apart space firstBehind)
        · exact ih distinct firstBehind behind

/-! ### Tables -/

namespace TrunkTables.Hold

variable {cfg : TrunkConfig} {tables : TrunkTables} {live : List FSTrunkSpaceInfo}
  {cameUp : Nat → Int → Prop} {skiplists : SubdirSkiplists} {space : FSTrunkSpaceInfo}

theorem empty (cfg : TrunkConfig) :
    (TrunkTables.empty cfg).Hold cfg [] (fun _ _ => False) where
  trunks key trunk := by simp [TrunkTables.empty]
  subdirs path present := by
    refine ⟨⟨[], []⟩, ?_, SortedSubdirs.counts_nil _⟩
    rw [TrunkTables.empty]
    exact if_pos present

theorem of_perm (hold : tables.Hold cfg live cameUp) {other : List FSTrunkSpaceInfo}
    (perm : live.Perm other) : tables.Hold cfg other cameUp where
  trunks key trunk := by
    rw [hold.trunks]
    simp only [perm.mem_iff]
  subdirs path present := by
    rw [← filesIn_perm perm]
    exact hold.subdirs path present

theorem congr (hold : tables.Hold cfg live cameUp) {later : Nat → Int → Prop}
    (same : ∀ path subdir, later path subdir ↔ cameUp path subdir) :
    tables.Hold cfg live later := by
  obtain rfl : later = cameUp := by
    funext path subdir
    exact propext (same path subdir)
  exact hold

/-- The trunk is in the table exactly when its file is among those held. -/
theorem isSome_iff (hold : tables.Hold cfg live cameUp) (key : TrunkKey) :
    (tables.trunks key).isSome ↔ ∃ space ∈ live, space.trunk = key := by
  rw [Option.isSome_iff_exists]
  constructor
  · rintro ⟨trunk, found⟩
    obtain ⟨space, member, same, -⟩ := (hold.trunks key trunk).mp found
    exact ⟨space, member, same⟩
  · rintro ⟨space, member, same⟩
    exact ⟨_, (hold.trunks key _).mpr ⟨space, member, same, rfl⟩⟩

/-- `storage_allocator_add_trunk` under a fresh id. -/
theorem add (hold : tables.Hold cfg live cameUp) (present : cfg.present space.store = true)
    (fresh : ∀ other ∈ live, other.trunk ≠ space.trunk) :
    ∃ later, storageAllocatorAddTrunk skiplists cfg tables space.store space.idInfo space.size =
        (.ok, later) ∧
      later.Hold cfg (space :: live) fun path subdir =>
        cameUp path subdir ∨ space.store = path ∧ subdirOf space = subdir := by
  obtain ⟨subdirs, found, counts⟩ := hold.subdirs space.store present
  obtain ⟨counted, added, counts⟩ :=
    @SortedSubdirs.Counts.add _ _ _ _ skiplists space.idInfo counts (subdirOf space) rfl
  have unknown : (tables.trunks ⟨space.store, space.idInfo.id⟩).isSome = false := by
    rw [← Bool.not_eq_true, hold.isSome_iff]
    rintro ⟨other, member, same⟩
    exact fresh other member same
  refine ⟨⟨Function.update tables.subdirs space.store (some counted),
    Function.update tables.trunks space.trunk
      (some (trunkAllocatorAdd space.idInfo space.size))⟩, ?_, ?_, ?_⟩
  · rw [storageAllocatorAddTrunk, found]
    dsimp only
    rw [added, if_neg (by simp), unknown, if_neg (by simp)]
    rfl
  · intro key trunk
    dsimp only
    simp only [List.mem_cons, exists_eq_or_imp]
    by_cases same : key = space.trunk
    · subst same
      rw [Function.update_self, Option.some_inj]
      constructor
      · intro equal
        exact .inl ⟨rfl, equal.symm⟩
      · rintro (⟨-, equal⟩ | ⟨other, member, same, -⟩)
        · exact equal.symm
        · exact absurd same (fresh other member)
    · rw [Function.update_of_ne same, hold.trunks]
      exact (or_iff_right fun equal => same equal.1.symm).symm
  · intro path configured
    dsimp only
    rw [filesIn_cons]
    by_cases same : space.store = path
    · subst same
      refine ⟨counted, Function.update_self .., ?_⟩
      rw [if_pos rfl]
      apply counts.congr (fun _ => rfl)
      intro subdir
      rw [eq_self_iff_true, true_and, eq_comm]
    · obtain ⟨others, stored, counts⟩ := hold.subdirs path configured
      refine ⟨others, ?_, ?_⟩
      · rw [Function.update_of_ne (Ne.symm same), stored]
      · rw [if_neg same]
        apply counts.congr (fun _ => rfl)
        intro subdir
        exact or_iff_left fun equal => same equal.1

/-- `storage_allocator_delete_trunk` of a trunk that is held, in a subdir that is not overfull. -/
theorem delete (hold : tables.Hold cfg live cameUp) (configured : cfg.present space.store = true)
    (distinct : live.Pairwise fun left right => left.trunk ≠ right.trunk) (present : space ∈ live)
    (within : (filesIn live space.store (subdirOf space) : Int) ≤ cfg.maxTrunkFilesPerSubdir) :
    ∃ later, storageAllocatorDeleteTrunk skiplists cfg tables space.store space.idInfo =
        (.ok, later) ∧
      later.Hold cfg (live.filter fun other => other.trunk ≠ space.trunk) cameUp := by
  obtain ⟨subdirs, found, counts⟩ := hold.subdirs space.store configured
  have perm : live.Perm (space :: live.filter fun other => other.trunk ≠ space.trunk) := by
    apply (List.perm_ext_iff_of_nodup (distinct.imp fun apart => ne_of_apply_ne _ apart) _).mpr
    · intro other
      rw [List.mem_cons, List.mem_filter, decide_eq_true_eq]
      constructor
      · intro member
        by_cases same : other.trunk = space.trunk
        · exact .inl (eq_of_trunk_eq distinct member present same)
        · exact .inr ⟨member, same⟩
      · rintro (rfl | ⟨member, -⟩)
        · exact present
        · exact member
    · refine List.nodup_cons.mpr ⟨?_, ?_⟩
      · intro member
        simp at member
      · exact (distinct.imp fun apart => ne_of_apply_ne _ apart).filter _
  have count : filesIn live = filesIn (space :: live.filter fun other =>
    other.trunk ≠ space.trunk) := filesIn_perm perm
  have own : filesIn live space.store (subdirOf space) =
      filesIn (live.filter fun other => other.trunk ≠ space.trunk) space.store
        (subdirOf space) + 1 := by
    rw [count, filesIn_cons, if_pos rfl, Function.update_self]
  obtain ⟨counted, deleted, counts⟩ := @SortedSubdirs.Counts.delete _ _ _ _ skiplists space.idInfo
    counts (subdirOf space) rfl (by omega) within
  have known : (tables.trunks ⟨space.store, space.idInfo.id⟩).isNone = false := by
    rw [Option.isNone_eq_false_iff, hold.isSome_iff]
    exact ⟨space, present, rfl⟩
  refine ⟨⟨Function.update tables.subdirs space.store (some counted),
      Function.update tables.trunks space.trunk none⟩, ?_, ?_, ?_⟩
  · rw [storageAllocatorDeleteTrunk, found]
    dsimp only
    rw [deleted, if_neg (by simp), known, if_neg (by simp)]
    rfl
  · intro key trunk
    dsimp only
    simp only [List.mem_filter, decide_eq_true_eq]
    by_cases same : key = space.trunk
    · subst same
      rw [Function.update_self]
      constructor
      · intro equal
        cases equal
      · rintro ⟨other, ⟨-, apart⟩, same, -⟩
        exact absurd same apart
    · rw [Function.update_of_ne same, hold.trunks]
      constructor
      · rintro ⟨other, member, rfl, equal⟩
        exact ⟨other, ⟨member, same⟩, rfl, equal⟩
      · rintro ⟨other, ⟨member, -⟩, equal⟩
        exact ⟨other, member, equal⟩
  · intro path configured
    dsimp only
    by_cases same : space.store = path
    · subst same
      refine ⟨counted, Function.update_self .., counts.congr ?_ fun _ => Iff.rfl⟩
      intro subdir
      rw [count, filesIn_cons, if_pos rfl]
      by_cases here : subdir = subdirOf space
      · rw [here, Function.update_self, Function.update_self, Nat.add_sub_cancel]
      · rw [Function.update_of_ne here, Function.update_of_ne here]
    · obtain ⟨others, stored, counts⟩ := hold.subdirs path configured
      refine ⟨others, ?_, counts.congr ?_ fun _ => Iff.rfl⟩
      · rw [Function.update_of_ne (Ne.symm same), stored]
      · intro subdir
        rw [count, filesIn_cons, if_neg same]

end TrunkTables.Hold

/-! ### The load -/

/-- The record of a log entry. -/
def trunkRecord (entry : TrunkLogEntry) : TrunkRecord :=
  ⟨trunkOpType entry.create, entry.space.store, entry.space.idInfo, entry.space.size⟩

/-- A record of the log on the tables, `none` for an error. -/
def loadEntry (skiplists : SubdirSkiplists) (cfg : TrunkConfig) (tables : TrunkTables)
    (entry : TrunkLogEntry) : Option TrunkTables :=
  let dealt := dealTrunkRecord skiplists cfg tables (trunkRecord entry)
  if dealt.1 = .ok then some dealt.2 else none

variable {cfg : TrunkConfig} {skiplists : SubdirSkiplists}

theorem loadEntry_create {tables later : TrunkTables} {space : FSTrunkSpaceInfo}
    (added : storageAllocatorAddTrunk skiplists cfg tables space.store space.idInfo space.size =
      (.ok, later)) : loadEntry skiplists cfg tables ⟨true, space⟩ = some later := by
  rw [loadEntry, dealTrunkRecord, trunkRecord, if_pos rfl, added]
  rfl

theorem loadEntry_delete {tables later : TrunkTables} {space : FSTrunkSpaceInfo}
    (deleted : storageAllocatorDeleteTrunk skiplists cfg tables space.store space.idInfo =
      (.ok, later)) : loadEntry skiplists cfg tables ⟨false, space⟩ = some later := by
  have other : trunkOpType false ≠ trunkOpType true := by decide
  rw [loadEntry, dealTrunkRecord, trunkRecord, if_neg other, if_pos rfl, deleted]
  rfl

/-- Loading the entries one by one ends with what the log leaves. -/
theorem TrunkConfig.Loads.load {log : List TrunkLogEntry} (loads : cfg.Loads log) :
    ∃ tables, log.foldlM (loadEntry skiplists cfg) (TrunkTables.empty cfg) = some tables ∧
      tables.Hold cfg (liveTrunks log) (CameUp log) := by
  induction loads with
  | nil =>
      refine ⟨_, rfl, (TrunkTables.Hold.empty cfg).congr fun path subdir => ?_⟩
      simp [CameUp]
  | @create log space before takes fresh ih =>
      obtain ⟨tables, loaded, hold⟩ := ih
      obtain ⟨later, added, hold⟩ :=
        @TrunkTables.Hold.add _ _ _ _ skiplists space hold takes.present fresh
      refine ⟨later, ?_, ?_⟩
      · rw [List.foldlM_append, loaded, Option.bind_eq_bind, Option.bind_some, List.foldlM_cons,
          loadEntry_create added]
        rfl
      · rw [liveTrunks_create]
        exact hold.congr (cameUp_create log space)
  | @delete log space before present within ih =>
      obtain ⟨tables, loaded, hold⟩ := ih
      obtain ⟨distinct, takes⟩ := before.live
      obtain ⟨later, deleted, hold⟩ := @TrunkTables.Hold.delete _ _ _ _ skiplists space hold
        (takes space present).present distinct present within
      refine ⟨later, ?_, ?_⟩
      · rw [List.foldlM_append, loaded, Option.bind_eq_bind, Option.bind_some, List.foldlM_cons,
          loadEntry_delete deleted]
        rfl
      · rw [liveTrunks_delete]
        exact hold.congr (cameUp_delete log space)

/-! ### The text of the log -/

namespace TrunkLogLine

variable (line : TrunkLogLine)

theorem forall_mem_fields {property : List Char → Prop}
    (numbers : ∀ number, property (decimal number)) (letters : ∀ create, property [trunkOpType create]) :
    ∀ field ∈ line.fields, property field := by
  simp only [fields, List.forall_mem_cons]
  exact ⟨numbers _, letters _, numbers _, numbers _, numbers _, numbers _, List.forall_mem_nil _⟩

theorem noBlank : ∀ field ∈ line.fields, ' ' ∉ field := by
  apply @forall_mem_fields line (fun field => ' ' ∉ field) noBlank_decimal
  intro create
  cases create <;> decide

theorem noEnd : ∀ field ∈ line.fields, '\n' ∉ field := by
  apply @forall_mem_fields line (fun field => '\n' ∉ field)
  · intro number
    exact not_mem_decimal rfl (by decide)
  · intro create
    cases create <;> decide

theorem solid : ∀ field ∈ line.fields, Solid field := by
  apply line.forall_mem_fields solid_decimal
  intro create
  cases create <;> exact ⟨_, rfl, rfl⟩

variable {line}

/-- The columns of the line are read as they were written. -/
theorem trunkParseCols_text (takes : cfg.Takes line.entry.space) :
    trunkParseCols cfg ((columns line.text).take 8) = some (trunkRecord line.entry) := by
  have count : ((columns line.text).take 8).length = 6 := by
    exact @length_columns line.fields 8 (List.cons_ne_nil _ _) line.noBlank
  have store := @parseInt_col line.fields 8 2 _ line.noBlank (by norm_num) _ rfl toInt
    takes.store.2.isLong.1 takes.store.2.isLong.2
    (toInt_of_lt takes.store.2.1 takes.store.2.2) [' '] (List.mem_singleton_self _) 0
  have trunk := @parseInt_col line.fields 8 3 _ line.noBlank (by norm_num) _ rfl id
    (le_trans (by norm_num) takes.id.1) takes.id.2 rfl [' '] (List.mem_singleton_self _) 1
  have subdir := @parseInt_col line.fields 8 4 _ line.noBlank (by norm_num) _ rfl id
    (le_trans (by norm_num) takes.subdir.1) takes.subdir.2 rfl [' '] (List.mem_singleton_self _) 1
  have size := @parseInt_col line.fields 8 5 _ line.noBlank (by norm_num) _ rfl id
    (le_trans (by norm_num [fsTrunkFileMinSize]) takes.size.1)
    (lt_of_le_of_lt takes.size.2 (by norm_num [fsTrunkFileMaxSize])) rfl ['\n']
    (List.mem_singleton_self _) fsTrunkFileMinSize
  have op := @colChar_lineOf line.fields 8 1 _ line.noBlank (by norm_num) _ rfl
  rw [if_pos (Int.natCast_nonneg _)] at store
  rw [if_pos takes.id.1] at trunk
  rw [if_pos takes.subdir.1] at subdir
  rw [if_pos takes.size.1] at size
  rw [trunkParseCols, count, if_neg (by norm_num), text, store, trunk, subdir, size, op]
  simp only [Option.bind_eq_bind, Option.bind_some]
  rw [if_neg (not_lt.mpr takes.store.1), if_neg (not_lt.mpr takes.size.2), Int.toNat_natCast]
  rfl

/-- What stands behind the line does not change what is read. -/
theorem trunkParseCols_behind {cols : List (List Char)} (solid : ∀ column ∈ cols, Solid column)
    (rest : List Char) :
    Below (trunkParseCols cfg cols) (trunkParseCols cfg (behind cols rest)) := by
  rw [trunkParseCols, trunkParseCols, length_behind]
  by_cases short : cols.length < 6
  · rw [if_pos short, if_pos short]
    exact Below.rfl none
  · have space {index : Nat} (inside : index < 6) :=
      @parseInt_behind cols index rest solid (by omega) [' '] space_isSpace
    rw [if_neg short, if_neg short]
    apply (space (by norm_num) toInt 0).bind
    intro pathIndex
    apply Below.ite
    apply (space (by norm_num) id 1).bind
    intro trunkId
    apply (space (by norm_num) id 1).bind
    intro subdir
    apply (parseInt_behind solid (by omega) newline_isSpace id fsTrunkFileMinSize).bind
    intro size
    apply Below.ite
    rw [colChar_behind solid (by omega)]
    exact Below.rfl _

theorem trunkParseLine_text (takes : cfg.Takes line.entry.space) (rest : List Char)
    (tables : TrunkTables) :
    trunkParseLine skiplists cfg tables (lineBody line.fields) rest =
      loadEntry skiplists cfg tables line.entry := by
  have solid : ∀ column ∈ (columns line.text).take 8, Solid column := by
    intro column member
    exact solid_columns (List.cons_ne_nil _ _) line.noBlank line.solid column
      (List.mem_of_mem_take member)
  have parsed := trunkParseCols_behind solid rest _ (trunkParseCols_text takes)
  rw [trunkParseLine, splitLine_lineBody, ← text, parsed]
  rfl

/-- A line is at most this long. -/
theorem length_text (takes : cfg.Takes line.entry.space) (time : IsInt line.currentTime) :
    line.text.length < maxRecordSize := by
  have currentTime := length_decimal_le_of_long time.isLong.1 time.isLong.2
  have store := @length_decimal_le line.entry.space.store 9 (Int.natCast_nonneg _)
    (takes.store.2.2.trans (by norm_num))
  have trunk := SliceLogEntry.length_decimal_of_long (le_trans (by norm_num) takes.id.1) takes.id.2
  have subdir := SliceLogEntry.length_decimal_of_long (le_trans (by norm_num) takes.subdir.1)
    takes.subdir.2
  have size := @length_decimal_le line.entry.space.size 9
    (le_trans (by norm_num [fsTrunkFileMinSize]) takes.size.1)
    (lt_of_le_of_lt takes.size.2 (by norm_num [fsTrunkFileMaxSize]))
  have some : line.fields ≠ [] := List.cons_ne_nil _ _
  rw [text, length_lineOf some, maxRecordSize]
  simp only [fields, List.map_cons, List.map_nil, List.sum_cons, List.sum_nil, List.length_cons,
    List.length_nil]
  omega

end TrunkLogLine

/-- A buffer of whole lines is loaded as the entries of its lines. -/
theorem parseTrunkBuffer_text {lines : List TrunkLogLine}
    (takes : ∀ line ∈ lines, cfg.Takes line.entry.space) (beyond : List Char)
    (tables : TrunkTables) :
    parseTrunkBuffer skiplists cfg tables beyond (lines.flatMap TrunkLogLine.text) =
      (lines.map TrunkLogLine.entry).foldlM (loadEntry skiplists cfg) tables := by
  rw [parseTrunkBuffer, List.foldlM_map]
  apply foldlM_bufferLines
  intro line member
  refine ⟨lineBody line.fields, lineOf_eq _, not_mem_lineBody (by decide) line.noEnd, ?_⟩
  intro rest tables
  exact TrunkLogLine.trunkParseLine_text (takes line member) _ _

/-- Every entry of a log that loads is about a trunk that the log takes. -/
theorem TrunkConfig.Loads.takes {log : List TrunkLogEntry} (loads : cfg.Loads log) :
    ∀ entry ∈ log, cfg.Takes entry.space := by
  induction loads with
  | nil => exact List.forall_mem_nil _
  | create before takes fresh ih =>
      exact List.forall_mem_append.mpr ⟨ih, List.forall_mem_singleton.mpr takes⟩
  | delete before present within ih =>
      refine List.forall_mem_append.mpr ⟨ih, List.forall_mem_singleton.mpr ?_⟩
      exact before.live.2 _ present

/-- The log is loaded from its text, wherever the buffers end between two lines, whatever the
memory behind a buffer holds and whenever the lines were written. -/
theorem trunkBinlogInit_text {buffers : List (List TrunkLogLine × List Char)}
    (loads : cfg.Loads ((buffers.flatMap Prod.fst).map TrunkLogLine.entry)) :
    ∃ tables, trunkBinlogInit skiplists cfg (TrunkTables.empty cfg)
        (buffers.map fun buffer => (buffer.1.flatMap TrunkLogLine.text, buffer.2)) = some tables ∧
      tables.Hold cfg (liveTrunks ((buffers.flatMap Prod.fst).map TrunkLogLine.entry))
        (CameUp ((buffers.flatMap Prod.fst).map TrunkLogLine.entry)) := by
  have takes := loads.takes
  obtain ⟨tables, loaded, hold⟩ := @TrunkConfig.Loads.load cfg skiplists _ loads
  refine ⟨tables, ?_, hold⟩
  rw [← loaded]
  clear loaded hold loads tables
  generalize TrunkTables.empty cfg = tables
  induction buffers generalizing tables with
  | nil => rfl
  | cons buffer buffers ih =>
      rw [List.flatMap_cons, List.map_append, List.forall_mem_append] at takes
      have first : ∀ line ∈ buffer.1, cfg.Takes line.entry.space := by
        intro line member
        exact takes.1 _ (List.mem_map_of_mem member)
      rw [trunkBinlogInit, List.map_cons, List.foldlM_cons, parseTrunkBuffer_text first,
        List.flatMap_cons, List.map_append, List.foldlM_append]
      exact congrArg _ (funext (ih takes.2))

end FastStore.Binlog
