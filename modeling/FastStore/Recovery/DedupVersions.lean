import FastStore.Recovery.DedupCoverage

/-!
# Data versions of the dedup output

The output records take the data versions after the slave's own.  There is one for
each byte at which a run of bytes of one outcome starts, and nothing bounds their
number by the number of records fetched.
-/

namespace FastStore.Recovery

open FastStore.Util FastStore.Util.Extent FastStore.Storage FastStore.Binlog

/-! ## Runs of bytes -/

/-- The outcome of the batch changes at this byte. -/
def RunStart (records : List ReplicaBinlogRecord) (bkey : FSBlockKey) (b : Int) : Prop :=
  dedupOutcome records bkey b ≠ none ∧
    dedupOutcome records bkey (b - 1) ≠ dedupOutcome records bkey b

/-- The bytes at which a run of written, of allocated or of deleted bytes starts. -/
def runStarts (records : List ReplicaBinlogRecord) : Set (FSBlockKey × Int) :=
  {place | RunStart records place.1 place.2}

section Outcome

variable {records : List ReplicaBinlogRecord} {bkey : FSBlockKey} {b : Int}

theorem dedupOutcome_eq_created_iff {stype : OBSliceType} :
    dedupOutcome records bkey b = some (some stype) ↔ createdAt records bkey b = some stype := by
  constructor
  · intro outcome
    cases created : createdAt records bkey b with
    | some other =>
        rw [dedupOutcome_of_created created] at outcome
        exact Option.some.inj outcome
    | none =>
        by_cases kept : KeptDelete records bkey b
        · rw [dedupOutcome_of_kept created kept] at outcome
          cases outcome
        · rw [dedupOutcome_of_not_kept created kept] at outcome
          cases outcome
  · exact dedupOutcome_of_created

theorem dedupOutcome_eq_deleted_iff :
    dedupOutcome records bkey b = some none ↔
      createdAt records bkey b = none ∧ KeptDelete records bkey b := by
  constructor
  · intro outcome
    cases created : createdAt records bkey b with
    | some other =>
        rw [dedupOutcome_of_created created] at outcome
        cases outcome
    | none =>
        by_cases kept : KeptDelete records bkey b
        · exact ⟨rfl, kept⟩
        · rw [dedupOutcome_of_not_kept created kept] at outcome
          cases outcome
  · rintro ⟨created, kept⟩
    exact dedupOutcome_of_kept created kept

end Outcome

section Output

variable (sl : UniqSkiplist OBSliceEntry.key) {records : List ReplicaBinlogRecord}

/-- The dumped slices of the two tables start at the run starts, each at its own. -/
theorem dump_starts_eq {ctx : BinlogDedupContext} (inv : DedupInvariant records ctx) :
    let starts := (htableDump (htableReverseRemove sl ctx.htables).remove ++
      htableDump ctx.htables.create).map fun slice => (slice.ob, slice.ssize.offset)
    starts.Nodup ∧ ∀ place, place ∈ starts ↔ place ∈ runStarts records := by
  obtain ⟨plain, rest⟩ := htableReverseRemove_spec sl inv.create inv.remove
  have held : ∀ bkey b stype,
      valueAt typeAt ((htableReverseRemove sl ctx.htables).remove.slicesOf bkey) b = some stype ↔
        stype = .file ∧ dedupOutcome records bkey b = some none := by
    intro bkey b stype
    rw [rest, inv.removed, inv.created, dedupOutcome_eq_deleted_iff]
    tauto
  have created : ∀ bkey b stype,
      valueAt typeAt (ctx.htables.create.slicesOf bkey) b = some stype ↔
        dedupOutcome records bkey b = some (some stype) := by
    intro bkey b stype
    rw [inv.created, dedupOutcome_eq_created_iff]
  have removeStarts : ∀ bkey b,
      (∃ slice ∈ htableDump (htableReverseRemove sl ctx.htables).remove,
        slice.ob = bkey ∧ slice.ssize.offset = b) ↔
      dedupOutcome records bkey b = some none ∧ dedupOutcome records bkey (b - 1) ≠ some none := by
    intro bkey b
    rw [htableDump_starts plain]
    simp only [ne_eq, held]
    constructor
    · rintro ⟨stype, ⟨isFile, here⟩, notBefore⟩
      exact ⟨here, fun before => notBefore ⟨isFile, before⟩⟩
    · rintro ⟨here, notBefore⟩
      exact ⟨.file, ⟨rfl, here⟩, fun before => notBefore before.2⟩
  have createStarts : ∀ bkey b,
      (∃ slice ∈ htableDump ctx.htables.create, slice.ob = bkey ∧ slice.ssize.offset = b) ↔
      ∃ stype, dedupOutcome records bkey b = some (some stype) ∧
        dedupOutcome records bkey (b - 1) ≠ some (some stype) := by
    intro bkey b
    rw [htableDump_starts inv.create]
    simp only [ne_eq, created]
  have inMap : ∀ (sarray : List OBSliceEntry) (place : FSBlockKey × Int),
      place ∈ sarray.map (fun slice => (slice.ob, slice.ssize.offset)) ↔
        ∃ slice ∈ sarray, slice.ob = place.1 ∧ slice.ssize.offset = place.2 := by
    intro sarray place
    simp only [List.mem_map, Prod.ext_iff]
  intro starts
  constructor
  · simp only [starts, List.map_append]
    refine List.nodup_append.mpr ⟨htableDump_nodup plain, htableDump_nodup inv.create, ?_⟩
    rintro left inRemove right inCreate rfl
    obtain ⟨stype, written, _⟩ := (createStarts left.1 left.2).mp ((inMap _ left).mp inCreate)
    have deleted := ((removeStarts left.1 left.2).mp ((inMap _ left).mp inRemove)).1
    rw [written] at deleted
    cases deleted
  · rintro ⟨bkey, b⟩
    simp only [starts, List.map_append, List.mem_append, inMap, removeStarts, createStarts,
      runStarts, Set.mem_ofPred_eq, RunStart]
    cases outcome : dedupOutcome records bkey b with
    | none => simp
    | some left =>
        cases left with
        | none => simp
        | some stype => simp

variable (prime : CeilPrime) (hashtableCapacity masterVersion myVersion : Nat)

/-- The dedup writes one record for each run. -/
theorem length_dedup (inBlock : ∀ record ∈ records, record.InBlock) :
    (dataRecoveryDedupBinlog sl prime hashtableCapacity masterVersion myVersion
      records).2.length = (runStarts records).ncard := by
  obtain ⟨ctx, inv, output⟩ := dataRecoveryDedupBinlog_eq sl prime hashtableCapacity
    masterVersion myVersion inBlock
  obtain ⟨nodup, places⟩ := dump_starts_eq sl inv
  have sameSet : runStarts records = ↑(((htableDump (htableReverseRemove sl ctx.htables).remove ++
      htableDump ctx.htables.create).map fun slice => (slice.ob, slice.ssize.offset)).toFinset) := by
    ext place
    rw [Finset.mem_coe, List.mem_toFinset, places]
  rw [sameSet, Set.ncard_coe_finset, List.toFinset_card_of_nodup nodup, output]
  simp

/-- The output records take consecutive data versions after the slave's own. -/
theorem dataVersion_dedup (inBlock : ∀ record ∈ records, record.InBlock) :
    (dataRecoveryDedupBinlog sl prime hashtableCapacity masterVersion myVersion records).2.map
        ReplicaBinlogRecord.dataVersion =
      List.range' (myVersion + 1) (dataRecoveryDedupBinlog sl prime hashtableCapacity masterVersion
        myVersion records).2.length := by
  obtain ⟨ctx, _, output⟩ := dataRecoveryDedupBinlog_eq sl prime hashtableCapacity
    masterVersion myVersion inBlock
  rw [output]
  simp only [List.map_append, dataVersion_sliceArrayToFile, List.length_append,
    length_sliceArrayToFile]
  rw [← List.range'_append_1]
  congr 2
  omega

/-! ## The data version after the replay -/

/-- The slave's data version after a replay: each record raises it to its own
(`set_data_version`, and the no-op of `deal_task`). -/
def replayedVersion (myVersion : Nat) (records : List ReplicaBinlogRecord) : Nat :=
  records.foldl (fun version record => max version record.dataVersion) myVersion

/-- `replica_binlog_log_padding`: a no-op record brings the slave up to the last
fetched version. -/
def replicaBinlogLogPadding (lastDataVersion currentVersion : Nat) : Nat :=
  if currentVersion < lastDataVersion then (lastDataVersion - 1) + 1 else currentVersion

/-- `fetch.last_data_version` for the fetched records. -/
def fetchLastDataVersion (myVersion : Nat) (records : List ReplicaBinlogRecord) : Nat :=
  match records.getLast? with
  | some record => record.dataVersion
  | none => myVersion

/-- The fetched records follow the slave's data version one by one. -/
def Consecutive (myVersion : Nat) (records : List ReplicaBinlogRecord) : Prop :=
  records.map ReplicaBinlogRecord.dataVersion = List.range' (myVersion + 1) records.length

theorem replayedVersion_of_consecutive {version : Nat} {written : List ReplicaBinlogRecord}
    (consecutive : Consecutive version written) :
    replayedVersion version written = version + written.length := by
  induction written generalizing version with
  | nil => rfl
  | cons record rest ih =>
      simp only [Consecutive, List.map_cons, List.length_cons, List.range'_succ,
        List.cons.injEq] at consecutive
      rw [replayedVersion, List.foldl_cons, consecutive.1, max_eq_right (Nat.le_succ _),
        ← replayedVersion, ih consecutive.2, List.length_cons]
      omega

theorem fetchLastDataVersion_of_consecutive {version : Nat}
    (consecutive : Consecutive version records) :
    fetchLastDataVersion version records = version + records.length := by
  cases last : records.getLast? with
  | none =>
      rw [List.getLast?_eq_none_iff.mp last]
      rfl
  | some record =>
      have versions := congrArg List.getLast? consecutive
      rw [List.getLast?_map, last, List.getLast?_range'] at versions
      have nonempty : records.length ≠ 0 := by
        intro empty
        rw [List.length_eq_zero_iff.mp empty] at last
        cases last
      simp only [nonempty, if_false, Option.map_some, Option.some.injEq] at versions
      rw [fetchLastDataVersion, last]
      dsimp only
      omega

theorem mem_of_consecutive {version : Nat} {written : List ReplicaBinlogRecord}
    (consecutive : Consecutive version written) (bound : Nat) :
    (∀ record ∈ written, record.dataVersion ≤ version + bound) ↔ written.length ≤ bound := by
  have versions : (∀ record ∈ written, record.dataVersion ≤ version + bound) ↔
      ∀ v ∈ written.map ReplicaBinlogRecord.dataVersion, v ≤ version + bound := by
    simp
  rw [versions, consecutive]
  simp only [List.mem_range'_1]
  constructor
  · intro bounded
    by_contra larger
    have last := bounded (version + written.length) ⟨by omega, by omega⟩
    omega
  · rintro small v ⟨_, upper⟩
    omega

end Output

end FastStore.Recovery
