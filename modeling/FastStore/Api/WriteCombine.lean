import FastStore.Api.Types
import FastStore.Util.System

/-!
# Write combining

A write that continues the last write of its thread is put into a pending slice of
the block, which the combine handler sends later; every other call first has the
pending slices in its way sent and waits for them.  A slice entry is named by a
number that is given once; the stage of the entry is kept beside its other fields.
The block entry lists its slices in order, the entry of an object and a thread
points to the thread's last slice, and a slice that is pushed is first in the queue
and then in the hands of a thread of the pool.  The timer is the action `expire`,
which may come at any moment.  One call runs at a time: it runs through, or up to
a wait.  The version test of `check_combine_slice` always succeeds then.
-/

namespace FastStore.Api

open FastStore.Storage FastStore.Util

/-- The settings of section `write-combine` that the functions read. -/
structure WriteCombineConfig where
  enabled : Bool
  bufferSize : Int
  skipCombineOnSliceSize : Int
  skipCombineOnLastMergedSlices : Int

/-- `FS_API_COMBINED_WRITER_STAGE_*`. -/
inductive CombineStage where
  | none
  | merging
  | processing
  | cleanup
  deriving DecidableEq, Repr

/-- The slice is in its block's list. -/
def CombineStage.Pending (stage : CombineStage) : Prop := stage = .merging ∨ stage = .processing

instance (stage : CombineStage) : Decidable stage.Pending := inferInstanceAs (Decidable (_ ∨ _))

/-- The key of the table of objects and threads. -/
structure OTIDKey where
  oid : Int
  tid : Nat
  deriving DecidableEq, Repr

structure FSAPISliceEntry where
  otid : OTIDKey
  mergedSlices : Int
  bsKey : FSBlockSliceKeyInfo
  buff : Int → UInt8

structure FSWCombineOTIDEntry where
  successiveCount : Nat
  lastWriteOffset : Int
  slice : Option Nat
  deriving DecidableEq, Repr

/-- How far a thread of the pool is with a slice: before the server write, before
the entry of the thread lets go of it, before it is taken out of its block. -/
inductive RunPoint where
  | writing
  | written
  | detached
  deriving DecidableEq, Repr

/-- Where the call in progress stands: it waits for the slices in its way, or, for
flow control, for the thread's last slice. -/
inductive CallPoint where
  | idle
  | conflictWait (call : ApiCall) (waitings : List Nat)
  | flowWait (call : ApiCall) (count : Nat) (waiting : Option Nat)

namespace CallPoint

/-- No call is in progress. -/
def Idle : CallPoint → Prop
  | idle => True
  | _ => False

/-- The call in progress has nothing left to wait for. -/
def Notified : CallPoint → Prop
  | idle => False
  | conflictWait _ waitings => waitings = []
  | flowWait _ _ waiting => waiting = none

/-- No call is in the loop that holds on to its entry of the table of threads. -/
def EntryFree : CallPoint → Prop
  | flowWait _ _ _ => False
  | _ => True

/-- `fs_api_notify_waiting_tasks`. -/
def notify (id : Nat) : CallPoint → CallPoint
  | idle => idle
  | conflictWait call waitings => conflictWait call (waitings.filter (· ≠ id))
  | flowWait call count waiting => flowWait call count (waiting.filter (· ≠ id))

instance : (point : CallPoint) → Decidable point.Idle
  | idle => .isTrue trivial
  | conflictWait _ _ => .isFalse nofun
  | flowWait _ _ _ => .isFalse nofun

instance : (point : CallPoint) → Decidable point.Notified
  | idle => .isFalse nofun
  | conflictWait _ waitings => inferInstanceAs (Decidable (waitings = []))
  | flowWait _ _ waiting => inferInstanceAs (Decidable (waiting = none))

instance : (point : CallPoint) → Decidable point.EntryFree
  | idle => .isTrue trivial
  | conflictWait _ _ => .isTrue trivial
  | flowWait _ _ _ => .isFalse nofun

end CallPoint

structure CombineState where
  server : Cells
  slice : Nat → FSAPISliceEntry
  stage : Nat → CombineStage
  slices : FSBlockKey → List Nat
  otids : OTIDKey → Option FSWCombineOTIDEntry
  queue : List Nat
  running : List (Nat × RunPoint)
  nextId : Nat
  call : CallPoint
  log : List Finished

/-- The key of the entry for the call's object and thread. -/
def ApiCall.otidKey (call : ApiCall) : OTIDKey := ⟨call.bsKey.block.oid, call.tid⟩

/-- `IF_COMBINE_BY_SLICE_SIZE`. -/
def ifCombineBySliceSize (cfg : WriteCombineConfig) (call : ApiCall) : Prop :=
  call.bsKey.slice.length < cfg.skipCombineOnSliceSize

instance (cfg : WriteCombineConfig) (call : ApiCall) : Decidable (ifCombineBySliceSize cfg call) :=
  inferInstanceAs (Decidable (_ < _))

/-- The slice entry after `memcpy` and the update of its length. -/
def FSAPISliceEntry.append (slice : FSAPISliceEntry) (length : Int) (buff : Int → UInt8) :
    FSAPISliceEntry :=
  { slice with
    mergedSlices := slice.mergedSlices + 1
    bsKey := ⟨slice.bsKey.block,
      ⟨slice.bsKey.slice.offset, slice.bsKey.slice.length + length⟩⟩
    buff := fun i =>
      if slice.bsKey.slice.length ≤ i ∧ i < slice.bsKey.slice.length + length then
        buff (i - slice.bsKey.slice.length)
      else slice.buff i }

/-- What one look at the thread's last slice comes to. -/
inductive CombineResult where
  | notCombined
  | combined
  | waiting (slice : Nat)
  deriving DecidableEq, Repr

/-- `try_combine_slice` comes to a result, or goes on to a new slice with
`wbuffer->combined` set or not. -/
inductive TryCombine where
  | settled (result : CombineResult)
  | newSlice (combined : Bool)
  deriving DecidableEq, Repr

namespace CombineState

/-- Nothing is pending. -/
def initial (origin : Cells) : CombineState where
  server := origin
  slice := fun _ => ⟨⟨0, 0⟩, 0, ⟨⟨0, 0⟩, ⟨0, 0⟩⟩, fun _ => 0⟩
  stage := fun _ => .none
  slices := fun _ => []
  otids := fun _ => none
  queue := []
  running := []
  nextId := 0
  call := .idle
  log := []

/-- `waiting_slice_count`. -/
def waitingSliceCount (s : CombineState) : Nat := s.queue.length

/-- `otid.entry->slice`. -/
def otidSlice (s : CombineState) (key : OTIDKey) : Option Nat := (s.otids key).bind (·.slice)

/-- The call is carried out by the low-level client and returns. -/
def serverCall (call : ApiCall) (s : CombineState) : CombineState :=
  { s with
    server := call.apply s.server
    call := .idle
    log := ⟨call, call.answer s.server⟩ :: s.log }

/-- The write returns with the data in a pending slice. -/
def combinedCall (call : ApiCall) (s : CombineState) : CombineState :=
  { s with
    call := .idle
    log := ⟨call, []⟩ :: s.log }

/-- `combine_handler_push_within_lock`. -/
def combineHandlerPushWithinLock (id : Nat) (s : CombineState) : CombineState :=
  { s with
    stage := Function.update s.stage id .processing
    queue := s.queue ++ [id] }

/-- `combine_handler_push`, with `fs_api_swap_slice_stage`. -/
def combineHandlerPush (id : Nat) (s : CombineState) : CombineState :=
  if s.stage id = .merging then s.combineHandlerPushWithinLock id else s

/-- `do_combine_slice`. -/
def doCombineSlice (cfg : WriteCombineConfig) (id : Nat) (call : ApiCall) (buff : Int → UInt8)
    (s : CombineState) : CombineState × CombineResult :=
  if ¬ifCombineBySliceSize cfg call then (s.combineHandlerPushWithinLock id, .notCombined)
  else
    let slice := (s.slice id).append call.bsKey.slice.length buff
    let appended := { s with slice := Function.update s.slice id slice }
    if cfg.bufferSize - slice.bsKey.slice.length < 4096 then
      (appended.combineHandlerPushWithinLock id, .combined)
    else (appended, .combined)

/-- The second part of `try_combine_slice`, for a write that was not put into the
thread's last slice. -/
def tryNewSlice (cfg : WriteCombineConfig) (id : Nat) (call : ApiCall) (isJump : Bool)
    (s : CombineState) : TryCombine :=
  if ¬ifCombineBySliceSize cfg call then .settled .notCombined
  else
    let combined :=
      isJump || decide (cfg.skipCombineOnLastMergedSlices < (s.slice id).mergedSlices)
    if combined ∧ s.stage id = .processing ∧ 0 < s.waitingSliceCount then .settled (.waiting id)
    else .newSlice combined

/-- `try_combine_slice`. -/
def tryCombineSlice (cfg : WriteCombineConfig) (id : Nat) (call : ApiCall) (buff : Int → UInt8)
    (s : CombineState) : CombineState × TryCombine :=
  let bsKey := (s.slice id).bsKey
  if call.bsKey.block.oid ≠ bsKey.block.oid then (s, .settled .notCombined)
  else if call.bsKey.block.offset = bsKey.block.offset ∧
      call.bsKey.slice.offset = sliceEnd bsKey.slice then
    if s.stage id = .merging then
      if cfg.bufferSize < bsKey.slice.length + call.bsKey.slice.length then
        -- buffer full, should start new combine
        let pushed := s.combineHandlerPushWithinLock id
        (pushed, tryNewSlice cfg id call false pushed)
      else
        let done := doCombineSlice cfg id call buff s
        (done.1, .settled done.2)
    else (s, tryNewSlice cfg id call false s)
  else
    let pushed := if s.stage id = .merging then s.combineHandlerPushWithinLock id else s
    (pushed, tryNewSlice cfg id call true pushed)

/-- `obid_htable_find_position`: the slices up to `previous` and the others, or
`none` for `EEXIST`. -/
def obidHtableFindPosition (slice : Nat → FSAPISliceEntry) (ssize : FSSliceSize) :
    List Nat → Option (List Nat × List Nat)
  | [] => some ([], [])
  | id :: rest =>
      if sliceEnd ssize ≤ (slice id).bsKey.slice.offset then some ([], id :: rest)
      else if fsSliceIsOverlap ssize (slice id).bsKey.slice then none
      else (obidHtableFindPosition slice ssize rest).map fun found => (id :: found.1, found.2)

/-- `obid_htable_insert_callback` once the position is known: the new slice is put
into the list and becomes the thread's last slice, unless that changed meanwhile. -/
def obidHtableInsertCallback (call : ApiCall) (buff : Int → UInt8) (oldSlice : Option Nat)
    (position : List Nat × List Nat) (s : CombineState) : CombineState :=
  let id := s.nextId
  let inserted :=
    { s with
      slice := Function.update s.slice id ⟨call.otidKey, 1, call.bsKey, buff⟩
      stage := Function.update s.stage id .merging
      slices := Function.update s.slices call.bsKey.block (position.1 ++ id :: position.2)
      nextId := id + 1 }
  if s.otidSlice call.otidKey = oldSlice then
    { inserted with
      otids := Function.update s.otids call.otidKey
        ((s.otids call.otidKey).map fun entry => { entry with slice := some id }) }
  else inserted.combineHandlerPushWithinLock id

/-- `create_slice`. -/
def createSlice (cfg : WriteCombineConfig) (call : ApiCall) (buff : Int → UInt8)
    (oldSlice : Option Nat) (s : CombineState) : CombineState × CombineResult :=
  if cfg.bufferSize ≤ call.bsKey.slice.length + 4096 then (s, .notCombined)
  else if fsFileBlockSize - sliceEnd call.bsKey.slice < 4096 then (s, .notCombined)
  else
    match obidHtableFindPosition s.slice call.bsKey.slice (s.slices call.bsKey.block) with
    | none => (s, .notCombined)
    | some position => (s.obidHtableInsertCallback call buff oldSlice position, .combined)

/-- `check_combine_slice`. -/
def checkCombineSlice (cfg : WriteCombineConfig) (call : ApiCall) (buff : Int → UInt8)
    (s : CombineState) : CombineState × CombineResult :=
  match s.otidSlice call.otidKey with
  | none =>
      if ifCombineBySliceSize cfg call then createSlice cfg call buff none s
      else (s, .notCombined)
  | some id =>
      match tryCombineSlice cfg id call buff s with
      | (tried, .settled result) => (tried, result)
      | (tried, .newSlice true) => createSlice cfg call buff (some id) tried
      | (tried, .newSlice false) => (tried, .notCombined)

/-- One round of the loop of `wcombine_obid_htable_check_combine_slice`, up to the
return of the write or to the wait; `count` is the counter of the loop. -/
def checkCombineRound (cfg : WriteCombineConfig) (call : ApiCall) (buff : Int → UInt8)
    (count : Nat) (s : CombineState) : CombineState :=
  match checkCombineSlice cfg call buff s with
  | (checked, .notCombined) => checked.serverCall call
  | (checked, .combined) => checked.combinedCall call
  | (checked, .waiting id) =>
      { checked with
        call := .flowWait call count (some id) }

/-- `otid_htable_insert_callback`. -/
def otidHtableInsertCallback (call : ApiCall) (old : Option FSWCombineOTIDEntry) :
    FSWCombineOTIDEntry :=
  let offset := call.bsKey.block.offset + call.bsKey.slice.offset
  match old with
  | none => ⟨0, offset + call.bsKey.slice.length, none⟩
  | some entry =>
      { entry with
        successiveCount := if offset = entry.lastWriteOffset then entry.successiveCount + 1 else 0
        lastWriteOffset := offset + call.bsKey.slice.length }

/-- `wcombine_otid_htable_insert`, and the rest of the write. -/
def wcombineOtidHtableInsert (cfg : WriteCombineConfig) (call : ApiCall) (buff : Int → UInt8)
    (s : CombineState) : CombineState :=
  let entry := otidHtableInsertCallback call (s.otids call.otidKey)
  let inserted :=
    { s with
      otids := Function.update s.otids call.otidKey (some entry) }
  if 0 < entry.successiveCount then inserted.checkCombineRound cfg call buff 0
  else inserted.serverCall call

/-- The walk of `obid_htable_find_callback` over the slices of the block; the second
component lists the slices to wait for. -/
def obidHtableFindCallback (ssize : FSSliceSize) :
    List Nat → CombineState → CombineState × List Nat
  | [], s => (s, [])
  | id :: rest, s =>
      if sliceEnd ssize ≤ (s.slice id).bsKey.slice.offset then (s, [])
      else if fsSliceIsOverlap ssize (s.slice id).bsKey.slice ∧ (s.stage id).Pending then
        let found := obidHtableFindCallback ssize rest
          (if s.stage id = .merging then s.combineHandlerPushWithinLock id else s)
        (found.1, id :: found.2)
      else obidHtableFindCallback ssize rest s

/-- `wcombine_obid_htable_check_conflict_and_wait` up to the wait. -/
def checkConflict (call : ApiCall) (s : CombineState) : CombineState × List Nat :=
  obidHtableFindCallback call.bsKey.slice (s.slices call.bsKey.block) s

/-- The call behind the conflict check when there was no conflict. -/
def afterCheck (cfg : WriteCombineConfig) (call : ApiCall) (s : CombineState) : CombineState :=
  match call.op with
  | .write buff => s.wcombineOtidHtableInsert cfg call buff
  | _ => s.serverCall call

/-- `fs_api_slice_write`, `fs_api_slice_read`, `fs_api_slice_allocate_ex`,
`fs_api_slice_delete_ex` and `fs_api_block_delete_ex`, up to the first wait. -/
def fsApiCall (cfg : WriteCombineConfig) (call : ApiCall) (s : CombineState) : CombineState :=
  if cfg.enabled then
    match s.checkConflict call with
    | (checked, []) => checked.afterCheck cfg call
    | (checked, waitings) =>
        { checked with
          call := .conflictWait call waitings }
  else s.serverCall call

/-- The call goes on after its wait: a conflict makes a write go to the server, and
the flow control gives up after the third repetition. -/
def resume (cfg : WriteCombineConfig) (s : CombineState) : CombineState :=
  match s.call with
  | .idle => s
  | .conflictWait call _ => s.serverCall call
  | .flowWait call count _ =>
      match call.op with
      | .write buff =>
          if count < 3 then s.checkCombineRound cfg call buff (count + 1) else s.serverCall call
      | _ => s.serverCall call

/-- The thread of the pool gets on with the slice to the given point. -/
def setRunPoint (id : Nat) (point : RunPoint) (s : CombineState) : List (Nat × RunPoint) :=
  s.running.map fun run => if run.1 = id then (id, point) else run

/-- The server write of `combine_handler_run`. -/
def combineHandlerRun (id : Nat) (s : CombineState) : CombineState :=
  { s with
    server := fsClientSliceWrite (s.slice id).bsKey (s.slice id).buff s.server
    running := s.setRunPoint id .written }

/-- `notify_and_release_slice`: the entry of the thread lets go of the slice. -/
def releaseOtid (id : Nat) (s : CombineState) : CombineState :=
  let key := (s.slice id).otid
  { s with
    otids := if s.otidSlice key = some id then
        Function.update s.otids key ((s.otids key).map fun entry => { entry with slice := none })
      else s.otids
    running := s.setRunPoint id .detached }

/-- `notify_and_release_slice`: the waiting call is notified and the slice taken out
of its block. -/
def releaseSlice (id : Nat) (s : CombineState) : CombineState :=
  let block := (s.slice id).bsKey.block
  { s with
    stage := Function.update s.stage id .cleanup
    slices := Function.update s.slices block ((s.slices block).filter (· ≠ id))
    running := s.running.filter (·.1 ≠ id)
    call := s.call.notify id }

/-- `deal_slices` hands the first slice of the queue to the pool. -/
def dealSlices (s : CombineState) : CombineState :=
  { s with
    queue := s.queue.tail
    running := s.running ++ (s.queue.head?.map fun id => (id, RunPoint.writing)).toList }

/-- The table of objects and threads drops an entry. -/
def reclaimOtid (key : OTIDKey) (s : CombineState) : CombineState :=
  { s with
    otids := Function.update s.otids key none }

end CombineState

/-- What happens next: a call is made or goes on, the timer expires for a slice, the
combine handler gets on with a slice, or a table entry is dropped. -/
inductive CombineAction where
  | start (call : ApiCall)
  | resume
  | expire (id : Nat)
  | deal
  | run (id : Nat)
  | releaseOtid (id : Nat)
  | releaseSlice (id : Nat)
  | reclaim (key : OTIDKey)

namespace CombineState

/-- When an action can happen; `otid_htable_accept_reclaim_callback` guards the
last. -/
def Enabled (s : CombineState) : CombineAction → Prop
  | .start call => s.call.Idle ∧ call.Valid
  | .resume => s.call.Notified
  | .expire _ => True
  | .deal => s.queue ≠ []
  | .run id => (id, .writing) ∈ s.running
  | .releaseOtid id => (id, .written) ∈ s.running
  | .releaseSlice id => (id, .detached) ∈ s.running
  | .reclaim key => s.otidSlice key = none ∧ s.call.EntryFree

instance (s : CombineState) : (action : CombineAction) → Decidable (s.Enabled action)
  | .start call => inferInstanceAs (Decidable (s.call.Idle ∧ call.Valid))
  | .resume => inferInstanceAs (Decidable s.call.Notified)
  | .expire _ => inferInstanceAs (Decidable True)
  | .deal => inferInstanceAs (Decidable (s.queue ≠ []))
  | .run id => inferInstanceAs (Decidable ((id, RunPoint.writing) ∈ s.running))
  | .releaseOtid id => inferInstanceAs (Decidable ((id, RunPoint.written) ∈ s.running))
  | .releaseSlice id => inferInstanceAs (Decidable ((id, RunPoint.detached) ∈ s.running))
  | .reclaim key => inferInstanceAs (Decidable (s.otidSlice key = none ∧ s.call.EntryFree))

def act (cfg : WriteCombineConfig) (s : CombineState) : CombineAction → CombineState
  | .start call => s.fsApiCall cfg call
  | .resume => s.resume cfg
  | .expire id => s.combineHandlerPush id
  | .deal => s.dealSlices
  | .run id => s.combineHandlerRun id
  | .releaseOtid id => s.releaseOtid id
  | .releaseSlice id => s.releaseSlice id
  | .reclaim key => s.reclaimOtid key

/-- The client with write combining. -/
def step (cfg : WriteCombineConfig) : StepRel CombineState CombineAction :=
  StepRel.ofNext Enabled (act cfg)

end CombineState

end FastStore.Api
