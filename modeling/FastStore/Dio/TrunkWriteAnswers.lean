import FastStore.Dio.TrunkWriteRuns

/-!
# What the trunk write thread has answered

A slice that is notified with success is on the disk, in the file of its trunk, and no request
is left behind when the thread waits for new ones.
-/

namespace FastStore.Dio

open FastStore.Util FastStore.Storage

/-! ## What is on the disk -/

/-- Different names are linked to different inodes, and none to an unused one. -/
structure TrunkDisk.Linked (disk : TrunkDisk) : Prop where
  once : ∀ one other inode, disk.inode one = some inode → disk.inode other = some inode →
    one = other
  used : ∀ idInfo inode, disk.inode idInfo = some inode → inode < disk.fresh

theorem TrunkDisk.Linked.link {disk : TrunkDisk} (linked : disk.Linked) (idInfo : FSTrunkIdInfo) :
    (disk.link idInfo).Linked := by
  rw [TrunkDisk.link]
  cases before : disk.inode idInfo with
  | some inode => exact linked
  | none =>
      have cases_inode {other : FSTrunkIdInfo} {inode : Nat}
          (is : Function.update disk.inode idInfo (some disk.fresh) other = some inode) :
          other = idInfo ∧ inode = disk.fresh ∨ disk.inode other = some inode := by
        rw [Function.update_apply] at is
        split at is
        · next same =>
            cases is
            exact .inl ⟨same, rfl⟩
        · exact .inr is
      constructor
      · intro one other inode oneIs otherIs
        rcases cases_inode oneIs with ⟨rfl, rfl⟩ | oneOld
        · rcases cases_inode otherIs with ⟨rfl, -⟩ | otherOld
          · rfl
          · exact absurd (linked.used _ _ otherOld) (lt_irrefl _)
        · rcases cases_inode otherIs with ⟨rfl, rfl⟩ | otherOld
          · exact absurd (linked.used _ _ oneOld) (lt_irrefl _)
          · exact linked.once one other inode oneOld otherOld
      · intro other inode is
        rcases cases_inode is with ⟨-, rfl⟩ | old
        · exact Nat.lt_succ_self _
        · exact Nat.lt_succ_of_lt (linked.used other inode old)

theorem TrunkDisk.Linked.unlink {disk : TrunkDisk} (linked : disk.Linked)
    (idInfo : FSTrunkIdInfo) : (disk.unlink idInfo).Linked := by
  have old {other : FSTrunkIdInfo} {inode : Nat}
      (is : Function.update disk.inode idInfo none other = some inode) :
      disk.inode other = some inode := by
    rw [Function.update_apply] at is
    split at is
    · cases is
    · exact is
  exact ⟨fun one other inode oneIs otherIs => linked.once one other inode (old oneIs) (old otherIs),
    fun other inode is => linked.used other inode (old is)⟩

theorem Executes.linked {disk disk' : TrunkDisk} {done : Executed}
    (executes : Executes disk done disk') (linked : disk.Linked) : disk'.Linked := by
  rcases executes with ⟨-, rfl⟩ | effect
  · exact linked
  · cases io : done.iob.io with
    | createTrunk space =>
        rw [io] at effect
        rw [effect]
        exact linked.link _
    | deleteTrunk space =>
        rw [io] at effect
        rw [effect.2]
        exact linked.unlink _
    | writeSliceByBuff slice buff | writeSliceByIovec slice iovs =>
        rw [io] at effect
        obtain ⟨-, -, inode, -, rfl⟩ := effect
        exact ⟨linked.once, linked.used⟩

theorem Plain.linked {disk disk' : TrunkDisk} {run : List Executed} (plain : Plain disk run disk')
    (linked : disk.Linked) : disk'.Linked := by
  induction plain with
  | start => exact linked
  | execute done _ executes ih => exact executes.linked ih

/-- The run before a request, the request, and the run behind it. -/
theorem Plain.parts {disk disk' : TrunkDisk} {run before after : List Executed} {done : Executed}
    (plain : Plain disk run disk') (split : run = before ++ done :: after) :
    ∃ mid mid', Plain disk before mid ∧ Executes mid done mid' ∧ Plain mid' after disk' := by
  induction plain generalizing after with
  | start => exact absurd split.symm (by simp)
  | @execute run mid disk' executed ran executes ih =>
      cases last : after.reverse with
      | nil =>
          have none : after = [] := List.reverse_eq_nil_iff.mp last
          subst none
          obtain ⟨rfl, equal⟩ := List.append_inj' split rfl
          cases equal
          exact ⟨mid, disk', ran, executes, .start⟩
      | cons later rest =>
          have shape : after = rest.reverse ++ [later] := by
            rw [← List.reverse_reverse after, last, List.reverse_cons]
          subst shape
          rw [← List.cons_append, ← List.append_assoc] at split
          obtain ⟨same, equal⟩ := List.append_inj' split rfl
          cases equal
          obtain ⟨first, second, beforeRan, own, behind⟩ := ih same
          exact ⟨first, second, beforeRan, own, .execute _ behind executes⟩

/-- The data of a slice are in the file of its trunk, at their place. -/
def TrunkDisk.Stores (disk : TrunkDisk) (io : TrunkWriteRequest) : Prop :=
  ∃ inode, disk.inode io.space.idInfo = some inode ∧
    (disk.bytes inode).bytesAt io.space.offset io.payload.length = io.payload

/-- A later request leaves the space of an earlier one alone. -/
def TrunkWriteRequest.Spares (later io : TrunkWriteRequest) : Prop :=
  match later with
  | .createTrunk _ => True
  | .deleteTrunk space => space.idInfo ≠ io.space.idInfo
  | write => write.space.idInfo ≠ io.space.idInfo ∨
      write.space.offset + write.space.size ≤ io.space.offset ∨
        io.space.offset + io.space.size ≤ write.space.offset

/-- A slice that was written with success is stored. -/
theorem Executes.stores {disk disk' : TrunkDisk} {done : Executed} {slice : OBSliceEntry}
    (executes : Executes disk done disk') (write : done.iob.io.slice? = some slice)
    (fits : done.iob.io.Fits) (ok : done.result = .ok) : disk'.Stores done.iob.io := by
  rcases executes with ⟨real, -⟩ | effect
  · exact absurd ok real
  · obtain ⟨-, behind, bytes, -⟩ := TrunkWriteRequest.bytes_eq fits write
    have written : ∃ inode, disk.inode done.iob.io.space.idInfo = some inode ∧
        disk' = disk.write inode done.iob.io.space.offset done.iob.io.bytes := by
      cases io : done.iob.io with
      | createTrunk space | deleteTrunk space =>
          rw [io] at write
          cases write
      | writeSliceByBuff written buff | writeSliceByIovec written iovs =>
          rw [io] at effect
          obtain ⟨-, whole, inode, linked, rfl⟩ := effect
          refine ⟨inode, linked, ?_⟩
          rw [whole ok, List.take_length]
    obtain ⟨inode, linked, rfl⟩ := written
    refine ⟨inode, linked, ?_⟩
    dsimp only [TrunkDisk.write]
    rw [Function.update_self, bytes, Buffer.put_append, Buffer.bytesAt_put_of_apart _ _ (.inl le_rfl)]
    exact Buffer.bytesAt_put_self _ _ _

/-- What is stored stays stored while its space is left alone. -/
theorem Executes.keeps {disk disk' : TrunkDisk} {done : Executed} {io : TrunkWriteRequest}
    {slice : OBSliceEntry} (executes : Executes disk done disk') (linked : disk.Linked)
    (write : io.slice? = some slice) (fits : io.Fits) (fitsLater : done.iob.io.Fits)
    (spares : done.iob.io.Spares io) (stores : disk.Stores io) : disk'.Stores io := by
  obtain ⟨inode, own, data⟩ := stores
  rcases executes with ⟨-, rfl⟩ | effect
  · exact ⟨inode, own, data⟩
  · have room : (io.payload.length : Int) ≤ io.space.size := by
      obtain ⟨-, behind, bytes, length⟩ := TrunkWriteRequest.bytes_eq fits write
      rw [bytes, List.length_append] at length
      omega
    have written {later : TrunkWriteRequest} {count : Nat} {laterSlice : OBSliceEntry}
        (laterWrite : later.slice? = some laterSlice) (laterFits : later.Fits)
        (apart : later.space.idInfo ≠ io.space.idInfo ∨
          later.space.offset + later.space.size ≤ io.space.offset ∨
            io.space.offset + io.space.size ≤ later.space.offset)
        {other : Nat} (otherLinked : disk.inode later.space.idInfo = some other) :
        (disk.write other later.space.offset (later.bytes.take count)).Stores io := by
      refine ⟨inode, own, ?_⟩
      dsimp only [TrunkDisk.write]
      rw [Function.update_apply]
      split
      · next same =>
          have trunk := linked.once _ _ _ otherLinked (same ▸ own)
          obtain ⟨-, behind, bytes, length⟩ := TrunkWriteRequest.bytes_eq laterFits laterWrite
          have short : ((later.bytes.take count).length : Int) ≤ later.space.size := by
            rw [← length, List.length_take]
            exact_mod_cast min_le_right _ _
          rw [Buffer.bytesAt_put_of_apart, ← same]
          · exact data
          · have places := apart.resolve_left (not_not.mpr trunk)
            omega
      · exact data
    cases later : done.iob.io with
    | createTrunk space =>
        rw [later] at effect
        refine ⟨inode, ?_, ?_⟩
        · rw [effect]
          exact TrunkWriteThreadContext.inode_link own
        · have same : (disk.link space.idInfo).bytes = disk.bytes := by
            rw [TrunkDisk.link]
            split <;> rfl
          rw [effect, same]
          exact data
    | deleteTrunk space =>
        rw [later] at effect spares
        refine ⟨inode, ?_, ?_⟩
        · rw [effect.2]
          exact (Function.update_of_ne (Ne.symm spares) _ _).trans own
        · rw [effect.2]
          exact data
    | writeSliceByBuff laterSlice buff | writeSliceByIovec laterSlice iovs =>
        rw [later] at effect spares fitsLater
        obtain ⟨-, -, other, otherLinked, rfl⟩ := effect
        exact written rfl fitsLater spares otherLinked

theorem Plain.keeps {disk disk' : TrunkDisk} {run : List Executed} {io : TrunkWriteRequest}
    {slice : OBSliceEntry} (plain : Plain disk run disk') (linked : disk.Linked)
    (write : io.slice? = some slice) (fits : io.Fits)
    (fitsLater : ∀ done ∈ run, done.iob.io.Fits) (spares : ∀ done ∈ run, done.iob.io.Spares io)
    (stores : disk.Stores io) : disk'.Stores io := by
  induction plain with
  | start => exact stores
  | @execute run mid disk' done ran executes ih =>
      have last : done ∈ run ++ [done] := List.mem_append_right _ (List.mem_singleton_self _)
      have before := ih (fun other member => fitsLater other (List.mem_append_left _ member))
        fun other member => spares other (List.mem_append_left _ member)
      exact executes.keeps (ran.linked linked) write fits (fitsLater done last)
        (spares done last) before

namespace TrunkWriteThreadContext

variable {config : TrunkWriteConfig} {ctx ctx' : TrunkWriteThreadContext}

/-- The thread has no batch and waits for requests. -/
structure Waits (ctx : TrunkWriteThreadContext) : Prop where
  phase : ctx.phase = .popping
  queue : ctx.queue = []
  iovecs : ctx.iovecs = []

/-- The callers see to what they have to, and there is memory for the vector. -/
def AllowedWithMemory (ctx : TrunkWriteThreadContext) : TrunkWriteAction → Prop
  | .push iob => ctx.MayPush iob
  | .turn outcome => outcome.memory = true

/-- What is left to do, as a number of turns that is large enough. -/
def toDo (ctx : TrunkWriteThreadContext) : Nat :=
  4 * ctx.queue.length + 2 * ctx.skiplist.length + ctx.iobs.length +
    if ctx.phase = .popping then 0 else 1

section Progress

variable {disk : TrunkDisk} {binlog : List TrunkLogEntry} {outcome : IOOutcome} {ioCount : Nat}
  {iob : TrunkWriteIOBuffer} {rest : List TrunkWriteIOBuffer}

theorem length_flushed (sound : Sound disk binlog ctx) {batch : BatchOutcome} {writes : Prop}
    [Decidable writes] (nonempty : writes → ctx.iobs ≠ [])
    {flushed : TrunkWriteThreadContext × Nat}
    (ran : ctx.flush config batch ioCount writes = some flushed) :
    flushed.1.iobs.length ≤ ctx.iobs.length := by
  obtain ⟨-, empty, same, -⟩ := sound.flush nonempty ran
  by_cases full : writes
  · rw [empty full]
    exact Nat.zero_le _
  · rw [same full]

theorem dealSlice_progress (sound : Sound disk binlog ctx) (memory : outcome.memory = true)
    (first : ctx.skiplist = iob :: rest)
    (ran : ctx.dealSlice config outcome ioCount iob = some ctx') :
    (∃ ioCount', ctx'.phase = .dealing ioCount') ∧ ctx'.queue = ctx.queue ∧
      ctx'.skiplist = rest ∧ ctx'.iobs.length ≤ ctx.iobs.length + 1 := by
  obtain ⟨flushed, wrote, ended⟩ := Option.map_eq_some_iff.mp ran
  obtain ⟨kept, -, -, queue, skiplist, -⟩ := sound.flush (fun full => full.1) wrote
  have fewer := length_flushed sound (fun full => full.1) wrote
  rw [if_pos memory] at ended
  dsimp only at ended
  rw [leave_eq (by exact kept.sorted) (by exact skiplist.trans first)] at ended
  rw [← ended]
  refine ⟨⟨_, rfl⟩, queue, rfl, ?_⟩
  rw [List.length_append, List.length_singleton]
  exact Nat.add_le_add_right fewer 1

theorem dealTrunk_progress (sound : Sound disk binlog ctx) (first : ctx.skiplist = iob :: rest)
    (noWrite : ¬iob.io.slice?.isSome = true)
    (ran : ctx.dealTrunk config outcome ioCount iob = some ctx') :
    (∃ ioCount', ctx'.phase = .dealing ioCount') ∧ ctx'.queue = ctx.queue ∧
      ctx'.skiplist = rest ∧ ctx'.iobs.length ≤ ctx.iobs.length := by
  obtain ⟨flushed, wrote, ended⟩ := Option.map_eq_some_iff.mp ran
  obtain ⟨kept, -, -, queue, skiplist, -⟩ :=
    sound.flush (fun full => (not_congr sound.iovecs_eq_nil_iff).mp full) wrote
  have fewer := length_flushed sound
    (fun full => (not_congr sound.iovecs_eq_nil_iff).mp full) wrote
  dsimp only at ended
  generalize op : (if iob.io.isDelete = true
    then flushed.1.doDeleteTrunk outcome.trunk iob.io.space
    else flushed.1.doCreateTrunk outcome.trunk iob.io.space) = done at ended
  have spec := Sound.trunkOp_spec noWrite outcome.trunk op
  have list : done.2.skiplist = flushed.1.skiplist := by rw [spec.ctx_eq]
  have batch : done.2.iobs = flushed.1.iobs := by rw [spec.ctx_eq]
  have waiting : done.2.queue = flushed.1.queue := by rw [spec.ctx_eq]
  rw [leave_eq (by exact list ▸ kept.sorted) (by exact list.trans (skiplist.trans first))] at ended
  rw [← ended]
  refine ⟨⟨_, rfl⟩, waiting.trans queue, rfl, ?_⟩
  dsimp only
  rw [batch]
  exact fewer

/-- Without new requests every turn brings the thread nearer to its end. -/
theorem turn_progress (sound : Sound disk binlog ctx) (memory : outcome.memory = true)
    (idle : ctx.phase = .popping → ctx.skiplist = []) (ran : ctx.turn config outcome = some ctx') :
    ctx'.phase ≠ .terminated ∧ (ctx'.phase = .popping → ctx'.skiplist = []) ∧
      ctx'.toDo < ctx.toDo := by
  rw [turn] at ran
  cases phase : ctx.phase with
  | terminated =>
      rw [phase] at ran
      cases ran
  | popping =>
      rw [phase] at ran
      dsimp only at ran
      by_cases waiting : ctx.queue = []
      · rw [pop, if_pos waiting] at ran
        split at ran
        · cases ran
        · next full =>
            have nonempty := (not_congr sound.iovecs_eq_nil_iff).mp full
            obtain ⟨-, iobs, -, queue, skiplist, phase', -⟩ := sound.batchWrite nonempty ran
            have positive := List.length_pos_of_ne_nil nonempty
            rw [phase', skiplist, phase]
            refine ⟨by decide, fun _ => idle phase, ?_⟩
            rw [toDo, toDo, phase', phase, queue, skiplist, iobs, List.length_nil]
            omega
      · obtain ⟨inserted, popped, -, same⟩ := @Sound.pop_eq config ctx _ _ sound waiting outcome
        cases popped.symm.trans ran
        have positive := List.length_pos_of_ne_nil waiting
        have length := same.length_eq
        rw [List.length_append] at length
        refine ⟨TrunkWritePhase.noConfusion, fun none => TrunkWritePhase.noConfusion none, ?_⟩
        simp only [toDo, phase, length, List.length_nil, if_true, reduceCtorEq, if_false]
        omega
  | dealing ioCount =>
      rw [phase] at ran
      dsimp only at ran
      rw [deal] at ran
      cases first : ctx.skiplist with
      | nil =>
          rw [first] at ran
          obtain ⟨flushed, wrote, rfl⟩ := Option.map_eq_some_iff.mp ran
          have nonempty (full : ctx.iovecs ≠ [] ∧ ioCount = 0) : ctx.iobs ≠ [] :=
            (not_congr sound.iovecs_eq_nil_iff).mp full.1
          obtain ⟨-, -, -, queue, skiplist, -⟩ := sound.flush nonempty wrote
          have fewer := length_flushed sound nonempty wrote
          refine ⟨TrunkWritePhase.noConfusion, fun _ => skiplist.trans first, ?_⟩
          simp only [toDo, phase, queue, skiplist, if_true, reduceCtorEq, if_false]
          omega
      | cons iob rest =>
          rw [first] at ran
          dsimp only [List.head?_cons] at ran
          split at ran
          · obtain ⟨⟨next, phase'⟩, queue, skiplist, more⟩ :=
              dealSlice_progress sound memory first ran
            rw [phase']
            refine ⟨TrunkWritePhase.noConfusion, fun none => TrunkWritePhase.noConfusion none, ?_⟩
            simp only [toDo, phase, phase', queue, skiplist, first, List.length_cons,
              reduceCtorEq, if_false]
            omega
          · next noWrite =>
              obtain ⟨⟨next, phase'⟩, queue, skiplist, fewer⟩ :=
                dealTrunk_progress sound first noWrite ran
              rw [phase']
              refine ⟨TrunkWritePhase.noConfusion,
                fun none => TrunkWritePhase.noConfusion none, ?_⟩
              simp only [toDo, phase, phase', queue, skiplist, first, List.length_cons,
                reduceCtorEq, if_false]
              omega

end Progress

theorem idle_of_reachable {disk : TrunkDisk} {binlog : List TrunkLogEntry}
    (reached : Reachable ((trunkWriteStep config).guarded AllowedWithMemory)
      (TrunkWriteStart disk binlog) ctx) :
    Sound disk binlog ctx ∧ ctx.phase ≠ .terminated ∧
      (ctx.phase = .popping → ctx.skiplist = []) := by
  apply reached.invariant
  · intro first started
    refine ⟨.start started, ?_, fun _ => started.skiplist⟩
    rw [started.phase]
    decide
  · rintro before action behind ⟨sound, alive, idle⟩ ⟨allowed, ran⟩
    cases action with
    | push iob =>
        cases ran
        exact ⟨sound.push allowed, alive, idle⟩
    | turn outcome =>
        obtain ⟨alive', idle', -⟩ := turn_progress sound allowed idle ran
        exact ⟨sound.turn ran, alive', idle'⟩

end TrunkWriteThreadContext

end FastStore.Dio
