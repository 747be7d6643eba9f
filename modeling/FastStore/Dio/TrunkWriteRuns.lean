import FastStore.Dio.TrunkWriteBatch

/-!
# Batched writing is writing one by one

In every run of the write thread the trunk files and the trunk binlog are what the plain
writer leaves that executes the requests in the order of their notifications, with the same
results.  Every request is notified once.
-/

namespace FastStore.Dio

open FastStore.Util FastStore.Storage

namespace TrunkWriteThreadContext

variable {config : TrunkWriteConfig} {ctx ctx' : TrunkWriteThreadContext}

/-- The requests that are not notified yet. -/
def outstanding (ctx : TrunkWriteThreadContext) : List TrunkWriteIOBuffer :=
  ctx.queue ++ ctx.skiplist ++ ctx.iobs

/-- What the callers of `trunk_write_thread_push` see to: a slice has room in its space, the
versions differ, a trunk id has one subdirectory, and the deletion of a trunk is the last
request for it and comes when the others are through. -/
structure MayPush (ctx : TrunkWriteThreadContext) (iob : TrunkWriteIOBuffer) : Prop where
  fits : iob.io.Fits
  fresh : ∀ other ∈ ctx.pushed, other.version ≠ iob.version
  named : ∀ other ∈ ctx.pushed, other.io.space.idInfo.id = iob.io.space.idInfo.id →
    other.io.space.idInfo = iob.io.space.idInfo
  alive : ∀ other ∈ ctx.pushed, other.io.isDelete = true →
    other.io.space.idInfo ≠ iob.io.space.idInfo
  last : iob.io.isDelete = true → ∀ other ∈ ctx.pushed,
    other.io.space.idInfo = iob.io.space.idInfo → other ∈ ctx.notified.map Prod.fst

def Allowed (ctx : TrunkWriteThreadContext) : TrunkWriteAction → Prop
  | .push iob => ctx.MayPush iob
  | .turn _ => True

/-- What holds in every run of a thread that started with the given files and binlog. -/
structure Sound (disk : TrunkDisk) (binlog : List TrunkLogEntry)
    (ctx : TrunkWriteThreadContext) : Prop where
  accounted : ctx.pushed.Perm (ctx.outstanding ++ ctx.notified.map Prod.fst)
  versions : (ctx.pushed.map TrunkWriteIOBuffer.version).Nodup
  fits : ∀ iob ∈ ctx.pushed, iob.io.Fits
  named : ∀ one ∈ ctx.pushed, ∀ other ∈ ctx.pushed,
    one.io.space.idInfo.id = other.io.space.idInfo.id → one.io.space.idInfo = other.io.space.idInfo
  settled : ∀ gone ∈ ctx.pushed, gone.io.isDelete = true → ∀ other ∈ ctx.pushed,
    other.io.space.idInfo = gone.io.space.idInfo →
      other = gone ∨ other ∈ ctx.notified.map Prod.fst
  sorted : Ascending TrunkWriteIOBuffer.version ctx.skiplist
  gathered : ∃ idInfo, ctx.Gathered idInfo
  handle : ∀ handle ∈ ctx.fileHandle, handle.position = handle.offset ∧
    ∃ iob ∈ ctx.pushed, iob.io.space.idInfo.id = handle.trunk_id ∧
      (ctx.disk.inode iob.io.space.idInfo = some handle.inode ∨
        ∃ gone ∈ ctx.pushed, gone.io.isDelete = true ∧
          gone.io.space.idInfo = iob.io.space.idInfo)
  executed : ∃ run : List Executed, run.map Executed.notice = ctx.notified ∧
    Plain disk run ctx.disk ∧ ctx.binlog = binlog ++ run.flatMap Executed.logged

namespace Sound

variable {disk : TrunkDisk} {binlog : List TrunkLogEntry}

theorem mem_pushed (sound : Sound disk binlog ctx) {iob : TrunkWriteIOBuffer}
    (waits : iob ∈ ctx.outstanding) : iob ∈ ctx.pushed :=
  sound.accounted.mem_iff.mpr (List.mem_append_left _ waits)

theorem nodup (sound : Sound disk binlog ctx) :
    (ctx.outstanding ++ ctx.notified.map Prod.fst).Nodup :=
  sound.accounted.nodup_iff.mp (List.Nodup.of_map _ sound.versions)

/-- A request that is not notified is for a trunk that stays. -/
theorem stays (sound : Sound disk binlog ctx) {iob : TrunkWriteIOBuffer}
    (waits : iob ∈ ctx.outstanding) (keeps : iob.io.isDelete = false)
    {gone : TrunkWriteIOBuffer} (pushed : gone ∈ ctx.pushed) (deletes : gone.io.isDelete = true) :
    gone.io.space.idInfo ≠ iob.io.space.idInfo := by
  intro same
  cases sound.settled gone pushed deletes iob (sound.mem_pushed waits) same.symm with
  | inl equal =>
      rw [equal, deletes] at keeps
      cases keeps
  | inr notified => exact (List.nodup_append.mp sound.nodup).2.2 _ waits _ notified rfl

theorem isDelete_of_slice {io : TrunkWriteRequest} (write : io.slice?.isSome = true) :
    io.isDelete = false := by
  cases io with
  | createTrunk space | deleteTrunk space => cases write
  | writeSliceByBuff slice buff | writeSliceByIovec slice iovs => rfl

/-- The open file serves a slice that waits. -/
theorem placed (sound : Sound disk binlog ctx) {iob : TrunkWriteIOBuffer}
    (waits : iob ∈ ctx.outstanding) (write : iob.io.slice?.isSome = true) :
    ctx.Placed iob.io.space.idInfo := by
  intro handle held
  obtain ⟨known, opened, pushed, id, linked⟩ := sound.handle handle held
  refine ⟨known, fun same => ?_⟩
  have trunk := sound.named opened pushed iob (sound.mem_pushed waits) (id.trans same)
  rw [trunk] at linked
  cases linked with
  | inl linked => exact linked
  | inr deleted =>
      obtain ⟨gone, member, deletes, same⟩ := deleted
      exact absurd same (sound.stays waits (isDelete_of_slice write) member deletes)

/-- The trunk of the batch, when there is one. -/
theorem gathered_of_mem (sound : Sound disk binlog ctx) {first : TrunkWriteIOBuffer}
    (inBatch : first ∈ ctx.iobs) : ctx.Gathered first.io.space.idInfo := by
  obtain ⟨idInfo, gathered⟩ := sound.gathered
  rw [(gathered.gathers first inBatch).trunk]
  exact gathered

theorem iovecs_eq_nil_iff (sound : Sound disk binlog ctx) : ctx.iovecs = [] ↔ ctx.iobs = [] := by
  obtain ⟨idInfo, gathered⟩ := sound.gathered
  rw [gathered.iovecs]
  constructor
  · intro none
    cases batch : ctx.iobs with
    | nil => rfl
    | cons first rest =>
        have gathers := gathered.gathers first (batch ▸ List.mem_cons_self)
        obtain ⟨slice, write⟩ := Option.isSome_iff_exists.mp gathers.write
        rw [batch] at none
        exact absurd (List.append_eq_nil_iff.mp none).1
          (TrunkWriteRequest.iovecs_ne_nil gathers.fits write)
  · intro none
    rw [none, List.flatMap_nil]

/-- Writing the batch. -/
theorem batchWrite (sound : Sound disk binlog ctx) (nonempty : ctx.iobs ≠ [])
    {outcome : BatchOutcome} (wrote : ctx.batchWrite config outcome = some ctx') :
    Sound disk binlog ctx' ∧ ctx'.iobs = [] ∧ ctx'.iovecs = [] ∧ ctx'.queue = ctx.queue ∧
      ctx'.skiplist = ctx.skiplist ∧ ctx'.phase = ctx.phase ∧ ctx'.pushed = ctx.pushed := by
  obtain ⟨first, inBatch⟩ := List.exists_mem_of_ne_nil _ nonempty
  have waits : first ∈ ctx.outstanding := List.mem_append_right _ inBatch
  have gathered := sound.gathered_of_mem inBatch
  have write := (gathered.gathers first inBatch).write
  obtain ⟨result, written⟩ := batchWrite_spec gathered (sound.placed waits write) wrote
  obtain ⟨run, notices, plain⟩ := written.plain
  obtain ⟨before, noticed, ran, log⟩ := sound.executed
  have moved : (ctx.notified ++ ctx.iobs.map (·, result)).map Prod.fst =
      ctx.notified.map Prod.fst ++ ctx.iobs := by
    rw [List.map_append, List.map_map]
    congr 1
    exact List.map_id _
  have logged := logged_of_writes (fun iob member => (gathered.gathers iob member).write) notices
  have inode := written.inode
  have handle := written.handle
  rw [written.ctx_eq]
  refine ⟨⟨?_, sound.versions, sound.fits, sound.named, ?_, sound.sorted, ?_, ?_, ?_⟩,
    rfl, rfl, rfl, rfl, rfl, rfl⟩
  · refine sound.accounted.trans ?_
    dsimp only [outstanding]
    rw [moved, List.append_nil, List.append_assoc (ctx.queue ++ ctx.skiplist)]
    exact List.perm_append_comm.append_left _
  · intro gone member deletes other pushed same
    rw [moved]
    exact (sound.settled gone member deletes other pushed same).imp_right
      (List.mem_append_left _)
  · exact ⟨first.io.space.idInfo, ⟨by simp, List.IsChain.nil, rfl, rfl⟩⟩
  · intro opened held
    dsimp only at held ⊢
    rw [inode]
    rcases handle with same | closed | ⟨new, is, named, known, linked⟩
    · exact sound.handle opened (same ▸ held)
    · rw [closed] at held
      cases held
    · rw [is] at held
      cases held
      exact ⟨known, first, sound.mem_pushed waits, named.symm, .inl linked⟩
  · refine ⟨before ++ run, ?_, ran.append plain, ?_⟩
    · rw [List.map_append, noticed, notices]
    · dsimp only
      rw [log, List.flatMap_append, logged, List.append_nil]

/-- Writing the batch when it has to be written. -/
theorem flush (sound : Sound disk binlog ctx) {outcome : BatchOutcome} {ioCount : Nat}
    {writes : Prop} [Decidable writes] (nonempty : writes → ctx.iobs ≠ [])
    {flushed : TrunkWriteThreadContext × Nat}
    (ran : ctx.flush config outcome ioCount writes = some flushed) :
    Sound disk binlog flushed.1 ∧ (writes → flushed.1.iobs = []) ∧
      (¬writes → flushed.1 = ctx) ∧ flushed.1.queue = ctx.queue ∧
        flushed.1.skiplist = ctx.skiplist ∧ flushed.1.phase = ctx.phase ∧
          flushed.1.pushed = ctx.pushed := by
  rw [TrunkWriteThreadContext.flush] at ran
  split at ran
  · next full =>
      obtain ⟨written, wrote, rfl⟩ := Option.map_eq_some_iff.mp ran
      obtain ⟨kept, empty, -, queue, skiplist, phase, pushed⟩ :=
        sound.batchWrite (nonempty full) wrote
      exact ⟨kept, fun _ => empty, fun none => absurd full none, queue, skiplist, phase, pushed⟩
  · next none =>
      cases ran
      exact ⟨sound, fun full => absurd full none, fun _ => rfl, rfl, rfl, rfl, rfl⟩

end Sound

/-- The first request leaves the skiplist. -/
theorem leave_eq {iob : TrunkWriteIOBuffer} {rest : List TrunkWriteIOBuffer}
    (sorted : Ascending TrunkWriteIOBuffer.version ctx.skiplist)
    (first : ctx.skiplist = iob :: rest) (ioCount : Nat) :
    ctx.leave config iob ioCount = { ctx with
      skiplist := rest
      phase := .dealing ioCount } := by
  have member : ∃ other ∈ ctx.skiplist, other.version = iob.version :=
    ⟨iob, first ▸ List.mem_cons_self, rfl⟩
  have erased : Chain.erase TrunkWriteIOBuffer.version iob.version ctx.skiplist = rest := by
    rw [first] at sorted ⊢
    exact @Chain.erase_middle _ _ _ TrunkWriteIOBuffer.version [] rest iob sorted
  rw [leave, config.skiplist.delete_member _ _ sorted member, erased]

/-- A trunk file that was created or deleted, or not. -/
structure TrunkDone (iob : TrunkWriteIOBuffer) (ctx : TrunkWriteThreadContext) (result : Errno)
    (ctx' : TrunkWriteThreadContext) : Prop where
  ctx_eq : ctx' = { ctx with
    disk := ctx'.disk
    binlog := ctx.binlog ++ (Executed.mk iob result 0).logged }
  executes : Executes ctx.disk ⟨iob, result, 0⟩ ctx'.disk
  inode : ∀ idInfo inode, ctx.disk.inode idInfo = some inode →
    ctx'.disk.inode idInfo = some inode ∨
      iob.io.isDelete = true ∧ iob.io.space.idInfo = idInfo

theorem inode_link {disk : TrunkDisk} {idInfo other : FSTrunkIdInfo} {inode : Nat}
    (linked : disk.inode other = some inode) : (disk.link idInfo).inode other = some inode := by
  rw [TrunkDisk.link]
  cases before : disk.inode idInfo with
  | some _ => exact linked
  | none =>
      have different : other ≠ idInfo := by
        rintro rfl
        rw [before] at linked
        cases linked
      exact (Function.update_of_ne different _ _).trans linked

theorem logged_of_failed {done : Executed} (real : done.result ≠ .ok) : done.logged = [] := by
  obtain ⟨⟨version, io⟩, result, count⟩ := done
  cases result with
  | ok => exact absurd rfl real
  | _ => cases io <;> rfl

theorem trunkDone_failed (iob : TrunkWriteIOBuffer) (result : Failure) :
    TrunkDone iob ctx result.1 ctx where
  ctx_eq := by rw [logged_of_failed result.2, List.append_nil]
  executes := .inl ⟨result.2, rfl⟩
  inode := fun _ _ linked => .inl linked

theorem doCreateTrunk_spec {iob : TrunkWriteIOBuffer} {space : FSTrunkSpaceInfo}
    (create : iob.io = .createTrunk space) (outcome : TrunkOutcome) :
    TrunkDone iob ctx (ctx.doCreateTrunk outcome space).1 (ctx.doCreateTrunk outcome space).2 := by
  have linked {result : Errno} {binlog : List TrunkLogEntry}
      (log : binlog = ctx.binlog ++ (Executed.mk iob result 0).logged) :
      TrunkDone iob ctx result { ctx with
        disk := ctx.disk.link space.idInfo
        binlog := binlog } := by
    refine ⟨by rw [log], .inr ?_, fun _ _ linked => .inl (inode_link linked)⟩
    dsimp only
    rw [create]
  have quiet (result : Failure) : ctx.binlog =
      ctx.binlog ++ (Executed.mk iob result.1 0).logged := by
    rw [logged_of_failed result.2, List.append_nil]
  rw [doCreateTrunk]
  dsimp only
  split
  · next result _ => exact trunkDone_failed iob result
  · split
    · next result _ => exact linked (quiet result)
    · split
      · next result _ => exact linked (quiet result)
      · apply linked
        rw [Executed.logged, create]

theorem doDeleteTrunk_spec {iob : TrunkWriteIOBuffer} {space : FSTrunkSpaceInfo}
    (delete : iob.io = .deleteTrunk space) (outcome : TrunkOutcome) :
    TrunkDone iob ctx (ctx.doDeleteTrunk outcome space).1 (ctx.doDeleteTrunk outcome space).2 := by
  have unlinked {result : Errno} {binlog : List TrunkLogEntry}
      (named : ctx.disk.inode space.idInfo ≠ none)
      (log : binlog = ctx.binlog ++ (Executed.mk iob result 0).logged) :
      TrunkDone iob ctx result { ctx with
        disk := ctx.disk.unlink space.idInfo
        binlog := binlog } := by
    refine ⟨by rw [log], .inr ?_, fun idInfo inode linked => ?_⟩
    · dsimp only
      rw [delete]
      exact ⟨named, rfl⟩
    · by_cases same : idInfo = space.idInfo
      · refine .inr ⟨by rw [delete]; rfl, ?_⟩
        rw [delete]
        exact same.symm
      · exact .inl ((Function.update_of_ne same _ _).trans linked)
  rw [doDeleteTrunk]
  split
  · exact trunkDone_failed iob ⟨.enoent, by decide⟩
  · next result _ _ => exact trunkDone_failed iob result
  · next inode linked _ =>
      have named : ctx.disk.inode space.idInfo ≠ none := by
        rw [linked]
        exact Option.some_ne_none inode
      dsimp only
      split
      · next result _ =>
          apply unlinked named
          rw [logged_of_failed result.2, List.append_nil]
      · apply unlinked named
        rw [Executed.logged, delete]

namespace Sound

variable {disk : TrunkDisk} {binlog : List TrunkLogEntry}

/-- Where the thread goes on does not matter. -/
theorem setPhase (sound : Sound disk binlog ctx) (phase : TrunkWritePhase) :
    Sound disk binlog { ctx with phase := phase } :=
  ⟨sound.accounted, sound.versions, sound.fits, sound.named, sound.settled, sound.sorted,
    sound.gathered.imp fun _ gathered => ⟨gathered.gathers, gathered.successive,
      gathered.iovecs, gathered.iovecBytes⟩, sound.handle, sound.executed⟩

/-- A slice goes from the skiplist to the batch, which is empty or ends where it begins. -/
theorem gather (sound : Sound disk binlog ctx) {iob : TrunkWriteIOBuffer}
    {rest : List TrunkWriteIOBuffer} (first : ctx.skiplist = iob :: rest)
    (write : iob.io.slice?.isSome = true)
    (joins : ∀ last ∈ ctx.iobs.getLast?, isSuccessive last.io.space iob.io.space) :
    Sound disk binlog { ctx with
      skiplist := rest
      iobs := ctx.iobs ++ [iob]
      iovecs := ctx.iovecs ++ iob.io.iovecs
      iovecBytes := ctx.iovecBytes + iob.io.space.size } := by
  have waits : iob ∈ ctx.outstanding := by
    rw [outstanding, first]
    simp
  have pushed := sound.mem_pushed waits
  have fits := sound.fits iob pushed
  have sorted := sound.sorted
  rw [first] at sorted
  refine ⟨?_, sound.versions, sound.fits, sound.named, sound.settled,
    (Ascending.cons_iff.mp sorted).2, ?_, sound.handle, sound.executed⟩
  · have moved : (ctx.queue ++ iob :: rest ++ ctx.iobs).Perm
        (ctx.queue ++ rest ++ (ctx.iobs ++ [iob])) := by
      rw [List.append_assoc, List.append_assoc, List.cons_append, ← List.append_assoc rest]
      exact (List.perm_append_singleton iob (rest ++ ctx.iobs)).symm.append_left ctx.queue
    refine sound.accounted.trans ?_
    rw [outstanding, first]
    exact moved.append_right _
  · obtain ⟨idInfo, gathered⟩ := sound.gathered
    have same : ∀ other ∈ ctx.iobs, other.io.space.idInfo = iob.io.space.idInfo := by
      intro other member
      obtain ⟨last, isLast⟩ := Option.isSome_iff_exists.mp
        (List.getLast?_isSome.mpr (List.ne_nil_of_mem member))
      have lastMember := List.mem_of_getLast? isLast
      have lastPushed := sound.mem_pushed (List.mem_append_right _ lastMember)
      have trunk := sound.named iob pushed last lastPushed (joins last isLast).1
      rw [trunk, (gathered.gathers other member).trunk, (gathered.gathers last lastMember).trunk]
    refine ⟨iob.io.space.idInfo, ⟨?_, ?_, ?_, ?_⟩⟩
    · intro other member
      cases List.mem_append.mp member with
      | inl before =>
          have gathers := gathered.gathers other before
          exact ⟨gathers.write, gathers.fits, same other before⟩
      | inr new =>
          rw [List.mem_singleton.mp new]
          exact ⟨write, fits, rfl⟩
    · refine List.isChain_append.mpr ⟨gathered.successive, List.isChain_singleton _, ?_⟩
      intro last isLast head isHead
      cases isHead
      exact (joins last isLast).2
    · dsimp only
      rw [gathered.iovecs, List.flatMap_append, List.flatMap_singleton]
    · dsimp only
      rw [gathered.iovecBytes, List.map_append, List.sum_append, List.map_singleton,
        List.sum_singleton]

/-- What `dealTrunk` does to a trunk file. -/
theorem trunkOp_spec {iob : TrunkWriteIOBuffer} (noWrite : ¬iob.io.slice?.isSome = true)
    (outcome : TrunkOutcome) {done : Errno × TrunkWriteThreadContext}
    (op : (if iob.io.isDelete = true then ctx.doDeleteTrunk outcome iob.io.space
      else ctx.doCreateTrunk outcome iob.io.space) = done) : TrunkDone iob ctx done.1 done.2 := by
  rw [← op]
  cases io : iob.io with
  | createTrunk space => exact doCreateTrunk_spec io outcome
  | deleteTrunk space => exact doDeleteTrunk_spec io outcome
  | writeSliceByBuff slice buff | writeSliceByIovec slice iovs =>
      rw [io] at noWrite
      exact absurd rfl noWrite

/-- A trunk file is created or deleted, and the request is notified. -/
theorem trunkDone (sound : Sound disk binlog ctx) {iob : TrunkWriteIOBuffer}
    {rest : List TrunkWriteIOBuffer} (first : ctx.skiplist = iob :: rest) {result : Errno}
    (done : TrunkDone iob ctx result ctx') :
    Sound disk binlog { ctx' with
      notified := ctx'.notified ++ [(iob, result)]
      skiplist := rest } := by
  obtain ⟨run, notices, ran, log⟩ := sound.executed
  have executes := done.executes
  have inode := done.inode
  have sorted := sound.sorted
  have pushed : iob ∈ ctx.pushed := by
    apply sound.mem_pushed
    rw [outstanding, first]
    simp
  rw [first] at sorted
  rw [done.ctx_eq]
  refine ⟨?_, sound.versions, sound.fits, sound.named, ?_, (Ascending.cons_iff.mp sorted).2,
    sound.gathered.imp fun _ gathered => ⟨gathered.gathers, gathered.successive,
      gathered.iovecs, gathered.iovecBytes⟩, ?_, ?_⟩
  · refine sound.accounted.trans ?_
    dsimp only [outstanding]
    rw [first, List.map_append, List.map_singleton, ← List.append_assoc]
    refine List.Perm.trans ?_ (List.perm_append_singleton iob _).symm
    rw [List.append_assoc, List.append_assoc, List.append_assoc, List.append_assoc]
    exact List.perm_middle
  · intro gone member deletes other inPushed same
    rw [List.map_append]
    exact (sound.settled gone member deletes other inPushed same).imp_right
      (List.mem_append_left _)
  · intro handle held
    obtain ⟨known, opened, member, named, linked⟩ := sound.handle handle held
    refine ⟨known, opened, member, named, ?_⟩
    cases linked with
    | inr deleted => exact .inr deleted
    | inl linked =>
        exact (inode _ _ linked).imp_right fun deleted => ⟨iob, pushed, deleted⟩
  · refine ⟨run ++ [⟨iob, result, 0⟩], ?_, .execute _ ran executes, ?_⟩
    · rw [List.map_append, notices]
      rfl
    · dsimp only
      rw [log, List.flatMap_append, List.flatMap_singleton, List.append_assoc]

theorem dealSlice (sound : Sound disk binlog ctx) {outcome : IOOutcome} {ioCount : Nat}
    {iob : TrunkWriteIOBuffer} {rest : List TrunkWriteIOBuffer}
    (first : ctx.skiplist = iob :: rest) (write : iob.io.slice?.isSome = true)
    (ran : ctx.dealSlice config outcome ioCount iob = some ctx') : Sound disk binlog ctx' := by
  obtain ⟨flushed, wrote, ended⟩ := Option.map_eq_some_iff.mp ran
  obtain ⟨kept, empty, same, queue, skiplist, phase, pushed⟩ :=
    sound.flush (fun full => full.1) wrote
  have first' : flushed.1.skiplist = iob :: rest := skiplist.trans first
  have joins : ∀ last ∈ flushed.1.iobs.getLast?, isSuccessive last.io.space iob.io.space := by
    by_cases full : ctx.iobs ≠ [] ∧ ¬ctx.Joins config iob
    · rw [empty full]
      intro last none
      cases none
    · rw [same full]
      intro last isLast
      have nonempty : ctx.iobs ≠ [] := by
        intro none
        rw [none] at isLast
        cases isLast
      have joined : ctx.Joins config iob := by
        by_contra noJoin
        exact full ⟨nonempty, noJoin⟩
      exact (joined last isLast).1
  split at ended
  · dsimp only at ended
    rw [leave_eq (by exact kept.sorted) (by exact first')] at ended
    rw [← ended]
    exact (kept.gather first' write joins).setPhase _
  · rw [← ended]
    exact kept.setPhase _

theorem dealTrunk (sound : Sound disk binlog ctx) {outcome : IOOutcome} {ioCount : Nat}
    {iob : TrunkWriteIOBuffer} {rest : List TrunkWriteIOBuffer}
    (first : ctx.skiplist = iob :: rest) (noWrite : ¬iob.io.slice?.isSome = true)
    (ran : ctx.dealTrunk config outcome ioCount iob = some ctx') : Sound disk binlog ctx' := by
  obtain ⟨flushed, wrote, ended⟩ := Option.map_eq_some_iff.mp ran
  obtain ⟨kept, _, _, queue, skiplist, phase, pushed⟩ :=
    sound.flush (fun full => (not_congr sound.iovecs_eq_nil_iff).mp full) wrote
  have first' : flushed.1.skiplist = iob :: rest := skiplist.trans first
  dsimp only at ended
  generalize op : (if iob.io.isDelete = true
    then flushed.1.doDeleteTrunk outcome.trunk iob.io.space
    else flushed.1.doCreateTrunk outcome.trunk iob.io.space) = done at ended
  have spec := trunkOp_spec noWrite outcome.trunk op
  have list : done.2.skiplist = flushed.1.skiplist := by rw [spec.ctx_eq]
  rw [leave_eq (by exact list ▸ kept.sorted) (by exact list.trans first')] at ended
  rw [← ended]
  exact (kept.trunkDone first' spec).setPhase _

theorem deal (sound : Sound disk binlog ctx) {outcome : IOOutcome} {ioCount : Nat}
    (ran : ctx.deal config outcome ioCount = some ctx') : Sound disk binlog ctx' := by
  rw [TrunkWriteThreadContext.deal] at ran
  cases first : ctx.skiplist with
  | nil =>
      rw [first] at ran
      obtain ⟨flushed, wrote, rfl⟩ := Option.map_eq_some_iff.mp ran
      obtain ⟨kept, -⟩ := sound.flush
        (fun full => (not_congr sound.iovecs_eq_nil_iff).mp full.1) wrote
      exact kept.setPhase _
  | cons iob rest =>
      rw [first] at ran
      dsimp only [List.head?_cons] at ran
      split at ran
      · next write => exact sound.dealSlice first write ran
      · next noWrite => exact sound.dealTrunk first noWrite ran

/-- The requests that are popped find their places in the skiplist. -/
theorem insertRequests_spec {popped skiplist : List TrunkWriteIOBuffer}
    (sorted : Ascending TrunkWriteIOBuffer.version skiplist)
    (distinct : ((popped ++ skiplist).map TrunkWriteIOBuffer.version).Nodup) :
    ∃ inserted, insertRequests config popped skiplist = (.ok, inserted) ∧
      Ascending TrunkWriteIOBuffer.version inserted ∧ inserted.Perm (popped ++ skiplist) := by
  induction popped generalizing skiplist with
  | nil => exact ⟨skiplist, rfl, sorted, List.Perm.refl _⟩
  | cons head rest ih =>
      rw [List.cons_append, List.map_cons, List.nodup_cons] at distinct
      have fresh : ∀ other ∈ skiplist, other.version ≠ head.version := by
        intro other member same
        apply distinct.1
        rw [← same]
        exact List.mem_map_of_mem (List.mem_append_right _ member)
      have perm := Chain.insert_perm TrunkWriteIOBuffer.version head skiplist
      have moved : (rest ++ Chain.insert TrunkWriteIOBuffer.version head skiplist).Perm
          (head :: (rest ++ skiplist)) :=
        (perm.append_left rest).trans List.perm_middle
      have later : ((rest ++ Chain.insert TrunkWriteIOBuffer.version head skiplist).map
          TrunkWriteIOBuffer.version).Nodup := by
        rw [(moved.map TrunkWriteIOBuffer.version).nodup_iff, List.map_cons, List.nodup_cons]
        exact distinct
      obtain ⟨inserted, ran, ascending, same⟩ := ih (Chain.ascending_insert sorted fresh) later
      refine ⟨inserted, ?_, ascending, same.trans moved⟩
      rw [insertRequests, config.skiplist.insert_fresh _ _ sorted fresh]
      exact ran

/-- What is popped goes to the skiplist. -/
theorem pop_eq (sound : Sound disk binlog ctx) (waiting : ctx.queue ≠ []) (outcome : IOOutcome) :
    ∃ inserted, ctx.pop config outcome = some { ctx with
        queue := []
        skiplist := inserted
        phase := .dealing 0 } ∧
      Ascending TrunkWriteIOBuffer.version inserted ∧
        inserted.Perm (ctx.queue ++ ctx.skiplist) := by
  have all : (ctx.queue ++ ctx.skiplist ++ (ctx.iobs ++ ctx.notified.map Prod.fst)).Perm
      ctx.pushed := by
    rw [← List.append_assoc]
    exact sound.accounted.symm
  have versions := (all.map TrunkWriteIOBuffer.version).nodup_iff.mpr sound.versions
  rw [List.map_append] at versions
  obtain ⟨inserted, ran, ascending, same⟩ :=
    @insertRequests_spec config ctx.queue ctx.skiplist sound.sorted versions.of_append_left
  refine ⟨inserted, ?_, ascending, same⟩
  rw [TrunkWriteThreadContext.pop, if_neg waiting, ran]

theorem pop (sound : Sound disk binlog ctx) {outcome : IOOutcome}
    (ran : ctx.pop config outcome = some ctx') : Sound disk binlog ctx' := by
  by_cases waiting : ctx.queue = []
  · rw [TrunkWriteThreadContext.pop, if_pos waiting] at ran
    split at ran
    · cases ran
    · next full => exact (sound.batchWrite ((not_congr sound.iovecs_eq_nil_iff).mp full) ran).1
  · obtain ⟨inserted, popped, ascending, same⟩ := sound.pop_eq waiting outcome
    cases popped.symm.trans ran
    refine ⟨?_, sound.versions, sound.fits, sound.named, sound.settled, ascending,
      sound.gathered.imp fun _ gathered => ⟨gathered.gathers, gathered.successive,
        gathered.iovecs, gathered.iovecBytes⟩, sound.handle, sound.executed⟩
    exact sound.accounted.trans ((same.symm.append_right _).append_right _)

theorem turn (sound : Sound disk binlog ctx) {outcome : IOOutcome}
    (ran : ctx.turn config outcome = some ctx') : Sound disk binlog ctx' := by
  rw [TrunkWriteThreadContext.turn] at ran
  split at ran
  · exact sound.pop ran
  · exact sound.deal ran
  · cases ran

theorem push (sound : Sound disk binlog ctx) {iob : TrunkWriteIOBuffer}
    (may : ctx.MayPush iob) : Sound disk binlog (ctx.push iob) := by
  have cases_pushed {other : TrunkWriteIOBuffer} (member : other ∈ ctx.pushed ++ [iob]) :
      other ∈ ctx.pushed ∨ other = iob :=
    (List.mem_append.mp member).imp_right List.mem_singleton.mp
  refine ⟨?_, ?_, ?_, ?_, ?_, sound.sorted, sound.gathered.imp fun _ gathered =>
    ⟨gathered.gathers, gathered.successive, gathered.iovecs, gathered.iovecBytes⟩, ?_,
    sound.executed⟩
  · have moved : (ctx.outstanding ++ ctx.notified.map Prod.fst ++ [iob]).Perm
        (ctx.queue ++ [iob] ++ ctx.skiplist ++ ctx.iobs ++ ctx.notified.map Prod.fst) := by
      rw [outstanding, List.append_assoc, List.append_assoc, List.append_assoc,
        List.append_assoc, List.append_assoc, List.append_assoc]
      refine List.Perm.append_left _ ?_
      rw [← List.append_assoc, ← List.append_assoc]
      refine List.perm_append_comm.trans ?_
      rw [List.append_assoc]
    exact (sound.accounted.append_right [iob]).trans moved
  · rw [TrunkWriteThreadContext.push, List.map_append, List.map_singleton]
    refine List.nodup_append.mpr ⟨sound.versions, List.nodup_singleton _, ?_⟩
    intro version before other new
    obtain ⟨old, member, rfl⟩ := List.mem_map.mp before
    rw [List.mem_singleton.mp new]
    exact may.fresh old member
  · intro other member
    rcases cases_pushed member with old | rfl
    · exact sound.fits other old
    · exact may.fits
  · intro one oneMember other otherMember same
    rcases cases_pushed oneMember with oneOld | rfl
    · rcases cases_pushed otherMember with otherOld | rfl
      · exact sound.named one oneOld other otherOld same
      · exact may.named one oneOld same
    · rcases cases_pushed otherMember with otherOld | rfl
      · exact (may.named other otherOld same.symm).symm
      · rfl
  · intro gone goneMember deletes other otherMember same
    rcases cases_pushed goneMember with goneOld | rfl
    · rcases cases_pushed otherMember with otherOld | rfl
      · exact sound.settled gone goneOld deletes other otherOld same
      · exact absurd same.symm (may.alive gone goneOld deletes)
    · rcases cases_pushed otherMember with otherOld | rfl
      · exact .inr (may.last deletes other otherOld same)
      · exact .inl rfl
  · intro handle held
    obtain ⟨known, opened, member, id, linked⟩ := sound.handle handle held
    refine ⟨known, opened, List.mem_append_left _ member, id, linked.imp_right ?_⟩
    rintro ⟨gone, goneMember, deleted⟩
    exact ⟨gone, List.mem_append_left _ goneMember, deleted⟩

theorem start (started : TrunkWriteStart disk binlog ctx) : Sound disk binlog ctx where
  accounted := by
    rw [outstanding, started.pushed, started.queue, started.skiplist, started.iobs,
      started.notified]
    exact List.Perm.refl _
  versions := by
    rw [started.pushed]
    exact List.nodup_nil
  fits := by
    rw [started.pushed]
    exact List.forall_mem_nil _
  named := by
    rw [started.pushed]
    exact List.forall_mem_nil _
  settled := by
    rw [started.pushed]
    exact List.forall_mem_nil _
  sorted := by
    rw [started.skiplist]
    exact Ascending.nil _
  gathered := by
    refine ⟨⟨0, 0⟩, ⟨?_, ?_, ?_, ?_⟩⟩
    · rw [started.iobs]
      exact List.forall_mem_nil _
    · rw [started.iobs]
      exact List.IsChain.nil
    · rw [started.iobs, started.iovecs]
      rfl
    · rw [started.iobs, started.iovecBytes]
      rfl
  handle := by
    rw [started.fileHandle]
    intro handle held
    cases held
  executed := by
    refine ⟨[], ?_, ?_, ?_⟩
    · rw [started.notified]
      rfl
    · rw [started.disk]
      exact .start
    · rw [started.binlog, List.flatMap_nil, List.append_nil]

theorem of_reachable (reached : Reachable ((trunkWriteStep config).guarded Allowed)
    (TrunkWriteStart disk binlog) ctx) : Sound disk binlog ctx := by
  apply reached.invariant
  · exact fun _ started => start started
  · intro before action behind sound step
    obtain ⟨allowed, ran⟩ := step
    cases action with
    | push iob =>
        cases ran
        exact sound.push allowed
    | turn outcome => exact sound.turn ran

end Sound

/-- A trunk whose file exists. -/
def oneTrunkDisk : TrunkDisk where
  inode idInfo := if idInfo = ⟨1, 1⟩ then some 0 else none
  bytes _ _ := 0
  fresh := 1

/-- Five bytes in two pieces, for a space of eight. -/
def fiveBytes : TrunkWriteIOBuffer where
  version := 7
  io := .writeSliceByIovec ⟨⟨1, 0⟩, .file, ⟨0, 5⟩, ⟨0, ⟨1, 1⟩, 16, 8⟩⟩
    [⟨fun i => UInt8.ofNat i.toNat, 1, 3⟩, ⟨fun _ => 9, 0, 2⟩]

/-- No call fails, and `writev` takes three bytes at most. -/
def threeBytesOutcome : IOOutcome where
  batch :=
    { openFails := none
      lseekFails := none
      writev := threeAtMost
      fuel := 8
      bounded := by
        intro call offered bytes wrote
        cases wrote
        exact min_le_right _ _
      failed := by
        intro call offered result failed
        cases failed }
  trunk := ⟨none, none, none, none, none, none⟩
  memory := true

def smallConfig : TrunkWriteConfig where
  iovMax := 2
  positive := Nat.two_pos
  iobAlloc := 1
  bytesMax := 64
  skiplist := .level0 TrunkWriteIOBuffer.version

def started (disk : TrunkDisk) : TrunkWriteThreadContext :=
  ⟨.popping, [], [], [], [], 0, none, disk, [], [], []⟩

theorem mayPush_fiveBytes : (started oneTrunkDisk).MayPush fiveBytes where
  fits := by
    refine ⟨List.cons_ne_nil _ _, ?_, by decide, by decide⟩
    intro iov member
    simp only [List.mem_cons, List.not_mem_nil, or_false] at member
    rcases member with rfl | rfl <;> decide
  fresh := List.forall_mem_nil _
  named := List.forall_mem_nil _
  alive := List.forall_mem_nil _
  last := fun _ => List.forall_mem_nil _

/-- The request is pushed, popped, gathered and written. -/
theorem reached_fiveBytes (allowed : TrunkWriteThreadContext → TrunkWriteAction → Prop)
    (push : allowed (started oneTrunkDisk) (.push fiveBytes))
    (turn : ∀ ctx, allowed ctx (.turn threeBytesOutcome)) :
    ∃ ctx, Reachable ((trunkWriteStep smallConfig).guarded allowed)
        (TrunkWriteStart oneTrunkDisk []) ctx ∧
      ctx.notified = [(fiveBytes, .ok)] ∧ ctx.phase = .popping ∧ ctx.queue = [] ∧
        ctx.iovecs = [] := by
  have start : TrunkWriteStart oneTrunkDisk [] (started oneTrunkDisk) :=
    ⟨rfl, rfl, rfl, rfl, rfl, rfl, rfl, rfl, rfl, rfl, rfl⟩
  let popped : TrunkWriteThreadContext :=
    { (started oneTrunkDisk).push fiveBytes with
      queue := []
      skiplist := [fiveBytes]
      phase := .dealing 0 }
  let gathered : TrunkWriteThreadContext :=
    { popped with
      skiplist := []
      iobs := [fiveBytes]
      iovecs := fiveBytes.io.iovecs
      iovecBytes := 8 }
  let written : TrunkWriteThreadContext :=
    { started (oneTrunkDisk.write 0 16 fiveBytes.io.bytes) with
      fileHandle := some ⟨1, 0, 24, 24⟩
      pushed := [fiveBytes]
      notified := [(fiveBytes, .ok)] }
  have pop : trunkWriteStep smallConfig ((started oneTrunkDisk).push fiveBytes)
      (.turn threeBytesOutcome) popped := rfl
  have gather : trunkWriteStep smallConfig popped (.turn threeBytesOutcome) gathered := rfl
  have write : trunkWriteStep smallConfig gathered (.turn threeBytesOutcome) written := rfl
  exact ⟨written, (((Reachable.start start).next _ ⟨push, rfl⟩).next _ ⟨turn _, pop⟩).next _
    ⟨turn _, gather⟩ |>.next _ ⟨turn _, write⟩, rfl, rfl, rfl, rfl⟩

end TrunkWriteThreadContext

end FastStore.Dio
