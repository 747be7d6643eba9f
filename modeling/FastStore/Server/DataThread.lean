import FastStore.Storage.SliceIo

/-!
# The data thread

One data thread deals its operations one after another.  A read or write hands its
slices to the trunk threads and waits for the completion callback, an update of a
master then waits for the replies of the slaves, and both waits use the one flag
`notify_done` of the thread.  The thread is a step relation: its own steps follow
`deal_one_operation`, and completions, replies and the shutdown come at any time.
-/

namespace FastStore.Server

open FastStore.Util FastStore.Storage

/-- `DATA_OPERATION_*`. -/
inductive DataOperation where
  | none
  | sliceRead
  | sliceWrite
  | sliceAllocate
  | sliceDelete
  | blockDelete
  deriving DecidableEq, Repr

/-- `DATA_SOURCE_*`. -/
inductive DataSource where
  | masterService
  | slaveReplica
  | slaveRecovery
  deriving DecidableEq, Repr

/-- `FSDataOperation`; `ctx` names the operation context. -/
structure FSDataOperation where
  operation : DataOperation
  source : DataSource
  ctx : Nat
  deriving DecidableEq, Repr

/-- `is_update` in `deal_one_operation`. -/
def FSDataOperation.isUpdate (op : FSDataOperation) : Bool :=
  match op.operation with
  | .none | .sliceRead => false
  | .sliceWrite | .sliceAllocate | .sliceDelete | .blockDelete => true

/-- Where the thread is in `deal_one_operation`. -/
inductive Phase where
  | idle
  | start (op : FSDataOperation)
  /-- In the push loop of `fs_slice_read` or `fs_slice_write`, before slice `slice`. -/
  | pushing (op : FSDataOperation) (slice : Nat) (rest : List OBSliceType)
  /-- In `DATA_THREAD_COND_WAIT` for a read or write. -/
  | waitRw (op : FSDataOperation)
  /-- In the loop of `fs_write_finish`, before slice `slice`. -/
  | writeFinish (op : FSDataOperation) (slice : Nat)
  | finish (op : FSDataOperation)
  /-- In the loop of `push_to_slave_queues`. -/
  | pushRpc (op : FSDataOperation) (rest : List Bool) (inactive : Nat)
  /-- In `DATA_THREAD_COND_WAIT` for the slaves. -/
  | waitRpc (op : FSDataOperation)
  | respond (op : FSDataOperation)
  deriving DecidableEq, Repr

/-- A data thread with the I/O of its operations and the RPCs to the slaves.  `calls`
numbers the operations; `called`, `waited` and `indexed` are history: the operations
whose completion callback ran, those whose wait returned, and the slices that
`fs_write_finish` added to the index. -/
structure DataThread where
  notifyDone : Bool
  continueFlag : Bool
  phase : Phase
  calls : Nat
  io : SliceIo
  waitingRpcCount : Nat → Int
  rpcs : List Nat
  called : List Nat
  waited : List Nat
  indexed : List (Nat × Nat)

/-- The steps of the thread and of its surroundings, with what the called functions
return. -/
inductive DataAction where
  | start (op : FSDataOperation)
  | getSlices (result : Errno) (types : List OBSliceType)
  | sliceAlloc (result : Errno) (count : Nat)
  | update (result : Errno)
  | push (result : Errno)
  | requestDone (request : TrunkIO) (result : Errno)
  | waitRwReturn
  | addSlice (result : Errno)
  | writeFinished
  | finish (slaves : List Bool)
  | pushSlave
  | slavesPushed
  | rpcDone (ctx : Nat)
  | waitRpcReturn
  | respond
  | stop

namespace DataThread

variable (s : DataThread)

/-- `op->ctx->result = result`. -/
def setResult (ctx : Nat) (result : Errno) : DataThread :=
  { s with io := s.io.setCtx ctx { s.io.ctxs ctx with result := result } }

/-- The completion callback of a read or write: `data_thread_notify`. -/
def rwDoneCallback (call : Nat) : DataThread :=
  { s with notifyDone := true, called := call :: s.called }

/-- Take over the I/O state, and run the callback if the counter came to zero. -/
def withIo (ctx : Nat) (done : Bool × SliceIo) : DataThread :=
  if done.1 then rwDoneCallback { s with io := done.2 } (done.2.ctxs ctx).call
  else { s with io := done.2 }

/-- The end of `DATA_THREAD_COND_WAIT`: on shutdown the operation is given up. -/
def condWaitReturn (next : Phase) : DataThread :=
  { s with notifyDone := false, phase := if s.continueFlag then next else .idle }

/-- When an action can be taken. -/
def Enabled : DataAction → Prop
  | .start _ => s.phase = .idle
  | .getSlices result types => ∃ op, s.phase = .start op ∧ op.operation = .sliceRead ∧
      (result = .ok → types ≠ [])
  | .sliceAlloc result count => ∃ op, s.phase = .start op ∧ op.operation = .sliceWrite ∧
      (result = .ok → count = 1 ∨ count = 2)
  | .update _ => ∃ op, s.phase = .start op ∧ op.operation ≠ .sliceRead ∧
      op.operation ≠ .sliceWrite
  | .push _ => ∃ op slice type rest, s.phase = .pushing op slice (type :: rest)
  | .requestDone request _ => request ∈ s.io.inFlight
  | .waitRwReturn => (∃ op, s.phase = .waitRw op) ∧ (s.notifyDone = true ∨ s.continueFlag = false)
  | .addSlice _ => ∃ op slice, s.phase = .writeFinish op slice ∧
      (s.io.ctxs op.ctx).result = .ok ∧ slice < (s.io.ctxs op.ctx).sliceCount
  | .writeFinished => ∃ op slice, s.phase = .writeFinish op slice ∧
      ((s.io.ctxs op.ctx).result ≠ .ok ∨ (s.io.ctxs op.ctx).sliceCount ≤ slice)
  | .finish _ => ∃ op, s.phase = .finish op
  | .pushSlave => ∃ op active rest inactive, s.phase = .pushRpc op (active :: rest) inactive
  | .slavesPushed => ∃ op inactive, s.phase = .pushRpc op [] inactive
  | .rpcDone ctx => ctx ∈ s.rpcs
  | .waitRpcReturn => (∃ op, s.phase = .waitRpc op) ∧ (s.notifyDone = true ∨ s.continueFlag = false)
  | .respond => ∃ op, s.phase = .respond op
  | .stop => True

/-- Hand a slice to its trunk thread; a reserved slice of a read is done at once. -/
def pushed (op : FSDataOperation) (slice : Nat) (type : OBSliceType) : DataThread :=
  if op.operation = .sliceRead ∧ type = .alloc then
    s.withIo op.ctx (s.io.skipSlice op.ctx s.calls slice)
  else { s with io := s.io.push ⟨op.ctx, s.calls, slice⟩ }

/-- One round of a push loop.  A slice that cannot be pushed ends the call with an
error. -/
def pushSlice (op : FSDataOperation) (slice : Nat) (type : OBSliceType) (rest : List OBSliceType)
    (result : Errno) : DataThread :=
  if result = .ok then
    match rest with
    | [] =>
        -- a read assigns the result of `fs_slice_read` to the context
        { (if op.operation = .sliceRead then (s.pushed op slice type).setResult op.ctx .ok
            else s.pushed op slice type) with
          phase := .waitRw op }
    | next :: others =>
        { s.pushed op slice type with phase := .pushing op (slice + 1) (next :: others) }
  else { s.setResult op.ctx result with phase := .finish op }

/-- `deal_operation_finish` up to the push to the slaves; `slaves` tells which of them
take the RPC, and is empty when the call fails or there is none. -/
def operationFinish (op : FSDataOperation) (slaves : List Bool) : DataThread :=
  if (s.io.ctxs op.ctx).result ≠ .ok then
    { s with
      phase := .respond op
      continueFlag := if op.isUpdate ∧ op.source = .slaveReplica then false else s.continueFlag }
  else if op.isUpdate ∧ op.source = .masterService ∧ slaves ≠ [] then
    { s with
      phase := .pushRpc op slaves 0
      waitingRpcCount := Function.update s.waitingRpcCount op.ctx
        (s.waitingRpcCount op.ctx + slaves.length) }
  else { s with phase := .respond op }

/-- The end of `push_to_slave_queues`. -/
def slavesPushed (op : FSDataOperation) (inactive : Nat) : DataThread :=
  if 0 < inactive then
    { s with
      waitingRpcCount := Function.update s.waitingRpcCount op.ctx
        (s.waitingRpcCount op.ctx - inactive)
      phase := if s.waitingRpcCount op.ctx - inactive = 0 then .respond op else .waitRpc op }
  else { s with phase := .waitRpc op }

/-- A slave has answered an RPC, or its connection is given up. -/
def rpcDone (ctx : Nat) : DataThread :=
  { s with
    rpcs := s.rpcs.erase ctx
    waitingRpcCount := Function.update s.waitingRpcCount ctx (s.waitingRpcCount ctx - 1)
    notifyDone := if s.waitingRpcCount ctx - 1 = 0 then true else s.notifyDone }

/-- The state after an action. -/
def next (action : DataAction) : DataThread :=
  match action, s.phase with
  | .start op, .idle => { s with phase := .start op, calls := s.calls + 1 }
  | .getSlices .ok types, .start op =>
      { s with
        io := s.io.beginCall op.ctx s.calls types.length
        phase := .pushing op 0 types }
  | .getSlices result _, .start op => { s.setResult op.ctx result with phase := .finish op }
  | .sliceAlloc .ok count, .start op =>
      { s with
        io := s.io.beginCall op.ctx s.calls count
        phase := .pushing op 0 (List.replicate count .file) }
  | .sliceAlloc result _, .start op =>
      -- `fs_slice_write` runs the callback itself, and its caller does not wait
      { (s.setResult op.ctx result).rwDoneCallback s.calls with phase := .finish op }
  | .update result, .start op => { s.setResult op.ctx result with phase := .finish op }
  | .push result, .pushing op slice (type :: rest) => s.pushSlice op slice type rest result
  | .requestDone request result, _ => s.withIo request.ctx (s.io.requestDone request result)
  | .waitRwReturn, .waitRw op =>
      { s.condWaitReturn (if op.operation = .sliceWrite then .writeFinish op 0 else .finish op) with
        waited := s.calls :: s.waited }
  | .addSlice .ok, .writeFinish op slice =>
      { s with
        indexed := (s.calls, slice) :: s.indexed
        phase := .writeFinish op (slice + 1) }
  | .addSlice result, .writeFinish op _ => { s.setResult op.ctx result with phase := .finish op }
  | .writeFinished, .writeFinish op _ => { s with phase := .finish op }
  | .finish slaves, .finish op => s.operationFinish op slaves
  | .pushSlave, .pushRpc op (true :: rest) inactive =>
      { s with rpcs := op.ctx :: s.rpcs, phase := .pushRpc op rest inactive }
  | .pushSlave, .pushRpc op (false :: rest) inactive =>
      { s with phase := .pushRpc op rest (inactive + 1) }
  | .slavesPushed, .pushRpc op [] inactive => s.slavesPushed op inactive
  | .rpcDone ctx, _ => s.rpcDone ctx
  | .waitRpcReturn, .waitRpc op => s.condWaitReturn (.respond op)
  | .respond, .respond _ => { s with phase := .idle }
  | .stop, _ => { s with continueFlag := false }
  | _, _ => s

end DataThread

/-- The steps of a data thread. -/
def DataThreadStep : StepRel DataThread DataAction :=
  StepRel.ofNext DataThread.Enabled DataThread.next

/-- A data thread as `init_data_thread_array` makes it. -/
def DataThreadInit (s : DataThread) : Prop :=
  s.notifyDone = false ∧ s.continueFlag = true ∧ s.phase = .idle ∧ s.io.inFlight = [] ∧
    (∀ ctx, s.waitingRpcCount ctx = 0) ∧ s.rpcs = [] ∧ s.waited = [] ∧ s.indexed = []

/-- A thread before its first operation, with unused contexts. -/
def newDataThread : DataThread :=
  ⟨false, true, .idle, 0, ⟨fun _ => ⟨0, .ok, 0, 0⟩, [], []⟩, fun _ => 0, [], [], [], []⟩

theorem newDataThread_init : DataThreadInit newDataThread :=
  ⟨rfl, rfl, rfl, rfl, fun _ => rfl, rfl, rfl, rfl⟩

end FastStore.Server
