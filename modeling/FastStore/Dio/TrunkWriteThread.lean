import FastStore.Util.Wire
import FastStore.Storage.Types
import FastStore.Dio.WriteIovec

/-!
# The trunk write thread

A write thread of a store path takes the requests from its queue, sorts what it has taken by
version, and gathers slices that lie behind each other in a trunk into one `writev`.  The
file of the last trunk stays open, and the file offset is remembered, so that the next batch
may go without `open` and `lseek`.  Trunk files are created and deleted between the batches.

What the system calls return is left open.  A failure is an `errno` that is not zero.
-/

namespace FastStore.Dio

open FastStore.Util FastStore.Storage

/-- What a system call that fails returns. -/
abbrev Failure := { result : Errno // result ≠ .ok }

/-! ## Requests -/

/-- A request by its type, `FS_IO_TYPE_CREATE_TRUNK` and so on.  The memory behind the data
of a slice is what happens to be there. -/
inductive TrunkWriteRequest where
  | createTrunk (space : FSTrunkSpaceInfo)
  | deleteTrunk (space : FSTrunkSpaceInfo)
  | writeSliceByBuff (slice : OBSliceEntry) (buff : Buffer)
  | writeSliceByIovec (slice : OBSliceEntry) (iovec_array : List Iovec)

namespace TrunkWriteRequest

/-- `space`, or the space of `slice`. -/
def space : TrunkWriteRequest → FSTrunkSpaceInfo
  | .createTrunk space | .deleteTrunk space => space
  | .writeSliceByBuff slice _ | .writeSliceByIovec slice _ => slice.space

/-- The slice of a write. -/
def slice? : TrunkWriteRequest → Option OBSliceEntry
  | .createTrunk _ | .deleteTrunk _ => none
  | .writeSliceByBuff slice _ | .writeSliceByIovec slice _ => some slice

def isDelete : TrunkWriteRequest → Bool
  | .deleteTrunk _ => true
  | _ => false

end TrunkWriteRequest

structure TrunkWriteIOBuffer where
  version : Int
  io : TrunkWriteRequest

/-- The last entry is made longer by `padding`. -/
def padLast (padding : Int) : List Iovec → List Iovec
  | [] => []
  | [iov] => [{ iov with len := if 0 < padding then iov.len + padding else iov.len }]
  | iov :: next :: rest => iov :: padLast padding (next :: rest)

/-- The entries that `deal_request_skiplist` adds to the vector of the batch. -/
def TrunkWriteRequest.iovecs : TrunkWriteRequest → List Iovec
  | .createTrunk _ | .deleteTrunk _ => []
  | .writeSliceByBuff slice buff => [⟨buff, 0, slice.space.size⟩]
  | .writeSliceByIovec slice [iov] => [{ iov with len := slice.space.size }]
  | .writeSliceByIovec slice iovs => padLast (slice.space.size - (iovs.map Iovec.len).sum) iovs

/-! ## The files -/

/-- The trunk files of a store path: the inode that a name is linked to, and the bytes of the
inodes.  Numbers from `fresh` on are not used yet. -/
structure TrunkDisk where
  inode : FSTrunkIdInfo → Option Nat
  bytes : Nat → Buffer
  fresh : Nat

namespace TrunkDisk

variable (disk : TrunkDisk)

/-- `open` with `O_CREAT`. -/
def link (idInfo : FSTrunkIdInfo) : TrunkDisk :=
  match disk.inode idInfo with
  | some _ => disk
  | none =>
      { disk with
        inode := Function.update disk.inode idInfo (some disk.fresh)
        fresh := disk.fresh + 1 }

def unlink (idInfo : FSTrunkIdInfo) : TrunkDisk :=
  { disk with inode := Function.update disk.inode idInfo none }

/-- The bytes are written into an inode. -/
def write (inode : Nat) (offset : Int) (bytes : List UInt8) : TrunkDisk :=
  { disk with bytes := Function.update disk.bytes inode ((disk.bytes inode).put offset bytes) }

end TrunkDisk

/-- `WriteFileHandle` while a file is open: the inode behind the descriptor, the file position
of the kernel, and `offset`, where the thread expects it. -/
structure WriteFileHandle where
  trunk_id : Int
  inode : Nat
  position : Int
  offset : Int

/-- What `trunk_binlog_write` logs. -/
structure TrunkLogEntry where
  create : Bool
  space : FSTrunkSpaceInfo
  deriving DecidableEq

/-! ## The thread -/

/-- What the system calls of a batch return.  The calls of `writev` are bounded by a fuel. -/
structure BatchOutcome where
  openFails : Option Failure
  lseekFails : Option Failure
  writev : Nat → Nat → WritevResult
  fuel : Nat
  bounded : ∀ call offered bytes, writev call offered = .wrote bytes → bytes ≤ offered
  failed : ∀ call offered result, writev call offered = .failed result → result ≠ .ok

/-- What the calls for a trunk file return. -/
structure TrunkOutcome where
  openFails : Option Failure
  mkdirFails : Option Failure
  reopenFails : Option Failure
  fallocateFails : Option Failure
  unlinkFails : Option Failure
  binlogFails : Option Failure

structure IOOutcome where
  batch : BatchOutcome
  trunk : TrunkOutcome
  /-- `fc_check_realloc_iovec_array` gets the memory it needs. -/
  memory : Bool

/-- Where the thread is: at `pop_to_request_skiplist`, in the loop of `deal_request_skiplist`
with its `io_count`, or stopped by `sf_terminate_myself`. -/
inductive TrunkWritePhase where
  | popping
  | dealing (ioCount : Nat)
  | terminated
  deriving DecidableEq, Repr

/-- The constants of the thread. -/
structure TrunkWriteConfig where
  iovMax : Nat
  positive : 0 < iovMax
  /-- `iob_array.alloc`. -/
  iobAlloc : Nat
  /-- `IO_THREAD_BYTES_MAX`. -/
  bytesMax : Int
  skiplist : UniqSkiplist TrunkWriteIOBuffer.version

/-- `TrunkWriteThreadContext`, with the trunk files and the trunk binlog, and the histories of
what was pushed and of the notifications. -/
structure TrunkWriteThreadContext where
  phase : TrunkWritePhase
  queue : List TrunkWriteIOBuffer
  skiplist : List TrunkWriteIOBuffer
  iobs : List TrunkWriteIOBuffer
  iovecs : List Iovec
  iovecBytes : Int
  fileHandle : Option WriteFileHandle
  disk : TrunkDisk
  binlog : List TrunkLogEntry
  pushed : List TrunkWriteIOBuffer
  notified : List (TrunkWriteIOBuffer × Errno)

namespace TrunkWriteThreadContext

variable (config : TrunkWriteConfig) (ctx : TrunkWriteThreadContext)

/-- `get_write_fd`. -/
def getWriteFd (outcome : BatchOutcome) (space : FSTrunkSpaceInfo) :
    Except Failure WriteFileHandle :=
  let reopen : Except Failure WriteFileHandle :=
    match ctx.disk.inode space.idInfo, outcome.openFails with
    | none, _ => .error ⟨.enoent, by decide⟩
    | some _, some result => .error result
    | some inode, none => .ok ⟨space.idInfo.id, inode, 0, 0⟩
  match ctx.fileHandle with
  | some handle => if space.idInfo.id = handle.trunk_id then .ok handle else reopen
  | none => reopen

/-- The file position before the `writev`: `lseek` is called when the remembered offset is not
the one of the slice. -/
def seek (handle : WriteFileHandle) (outcome : BatchOutcome) (offset : Int) :
    Except Failure Int :=
  if handle.offset = offset then .ok handle.position
  else
    match outcome.lseekFails with
    | some result => .error result
    | none => .ok offset

/-- `do_write_slices`: its result, `iob_array.success`, and the thread behind it. -/
def doWriteSlices (outcome : BatchOutcome) : Option (Errno × Nat × TrunkWriteThreadContext) :=
  match ctx.iobs with
  | [] => none
  | first :: _ =>
      match ctx.getWriteFd outcome first.io.space with
      | .error result => some (result.1, 0, ctx)
      | .ok handle =>
          match seek handle outcome first.io.space.offset with
          | .error result => some (result.1, 0, { ctx with fileHandle := none })
          | .ok position =>
              match do_write_slices outcome.writev config.iovMax config.positive outcome.fuel
                  ctx.iovecs ctx.iovecBytes with
              | none => none
              | some (result, progress) =>
                  let disk := ctx.disk.write handle.inode position progress.written
                  if result ≠ .ok then
                    some (result, 0, { ctx with disk := disk, fileHandle := none })
                  else
                    let moved : WriteFileHandle :=
                      { handle with
                        position := position + progress.written.length
                        offset := first.io.space.offset + ctx.iovecBytes }
                    some (.ok, ctx.iobs.length,
                      { ctx with disk := disk, fileHandle := some moved })

/-- `batch_write`: the requests that succeeded are notified, then the others. -/
def batchWrite (outcome : BatchOutcome) : Option TrunkWriteThreadContext :=
  match ctx.doWriteSlices config outcome with
  | none => none
  | some (result, success, written) =>
      let failed := if result ≠ .ok then (ctx.iobs.drop success).map (·, result) else []
      some { written with
        notified := ctx.notified ++ (ctx.iobs.take success).map (·, .ok) ++ failed
        iobs := []
        iovecs := []
        iovecBytes := 0 }

/-- `do_create_trunk`. -/
def doCreateTrunk (outcome : TrunkOutcome) (space : FSTrunkSpaceInfo) :
    Errno × TrunkWriteThreadContext :=
  let openFails : Option Failure :=
    match outcome.openFails with
    | none => none
    | some result =>
        if result.1 = .enoent then
          match outcome.mkdirFails with
          | some result => some result
          | none => outcome.reopenFails
        else some result
  match openFails with
  | some result => (result.1, ctx)
  | none =>
      let linked := { ctx with disk := ctx.disk.link space.idInfo }
      match outcome.fallocateFails with
      | some result => (result.1, linked)
      | none =>
          match outcome.binlogFails with
          | some result => (result.1, linked)
          | none => (.ok, { linked with binlog := ctx.binlog ++ [⟨true, space⟩] })

/-- `do_delete_trunk`. -/
def doDeleteTrunk (outcome : TrunkOutcome) (space : FSTrunkSpaceInfo) :
    Errno × TrunkWriteThreadContext :=
  match ctx.disk.inode space.idInfo, outcome.unlinkFails with
  | none, _ => (.enoent, ctx)
  | some _, some result => (result.1, ctx)
  | some _, none =>
      let unlinked := { ctx with disk := ctx.disk.unlink space.idInfo }
      match outcome.binlogFails with
      | some result => (result.1, unlinked)
      | none => (.ok, { unlinked with binlog := ctx.binlog ++ [⟨false, space⟩] })

/-- `IOB_IS_SUCCESSIVE`. -/
def isSuccessive (last current : FSTrunkSpaceInfo) : Prop :=
  current.idInfo.id = last.idInfo.id ∧ last.offset + last.size = current.offset

instance (last current : FSTrunkSpaceInfo) : Decidable (isSuccessive last current) :=
  inferInstanceAs (Decidable (_ ∧ _))

/-- The request goes to the batch that has been gathered. -/
def Joins (iob : TrunkWriteIOBuffer) : Prop :=
  ∀ last ∈ ctx.iobs.getLast?, isSuccessive last.io.space iob.io.space ∧
    ctx.iobs.length < config.iobAlloc ∧ ctx.iovecs.length < config.iovMax ∧
      ctx.iovecBytes < config.bytesMax

instance (iob : TrunkWriteIOBuffer) : Decidable (ctx.Joins config iob) :=
  inferInstanceAs (Decidable (∀ last ∈ ctx.iobs.getLast?, _))

/-- The request leaves the skiplist. -/
def leave (iob : TrunkWriteIOBuffer) (ioCount : Nat) : TrunkWriteThreadContext :=
  match config.skiplist.delete ctx.skiplist iob.version with
  | (.ok, rest) => { ctx with skiplist := rest, phase := .dealing ioCount }
  | (_, rest) => { ctx with skiplist := rest, phase := .terminated }

/-- A batch is written if there is one. -/
def flush (outcome : BatchOutcome) (ioCount : Nat) (writes : Prop) [Decidable writes] :
    Option (TrunkWriteThreadContext × Nat) :=
  if writes then (ctx.batchWrite config outcome).map fun written => (written, ioCount + 1)
  else some (ctx, ioCount)

/-- The branch of a trunk file in the loop of `deal_request_skiplist`. -/
def dealTrunk (outcome : IOOutcome) (ioCount : Nat) (iob : TrunkWriteIOBuffer) :
    Option TrunkWriteThreadContext :=
  (ctx.flush config outcome.batch ioCount (ctx.iovecs ≠ [])).map fun flushed =>
    let done :=
      if iob.io.isDelete then flushed.1.doDeleteTrunk outcome.trunk iob.io.space
      else flushed.1.doCreateTrunk outcome.trunk iob.io.space
    let notified := { done.2 with notified := done.2.notified ++ [(iob, done.1)] }
    notified.leave config iob (flushed.2 + 1)

/-- The branch of a slice. -/
def dealSlice (outcome : IOOutcome) (ioCount : Nat) (iob : TrunkWriteIOBuffer) :
    Option TrunkWriteThreadContext :=
  (ctx.flush config outcome.batch ioCount (ctx.iobs ≠ [] ∧ ¬ctx.Joins config iob)).map
    fun flushed =>
      if outcome.memory then
        let gathered :=
          { flushed.1 with
            iobs := flushed.1.iobs ++ [iob]
            iovecs := flushed.1.iovecs ++ iob.io.iovecs
            iovecBytes := flushed.1.iovecBytes + iob.io.space.size }
        gathered.leave config iob flushed.2
      else { flushed.1 with phase := .popping }

/-- One turn of the loop of `deal_request_skiplist`, or its end. -/
def deal (outcome : IOOutcome) (ioCount : Nat) : Option TrunkWriteThreadContext :=
  match ctx.skiplist.head? with
  | some iob =>
      if iob.io.slice?.isSome then ctx.dealSlice config outcome ioCount iob
      else ctx.dealTrunk config outcome ioCount iob
  | none =>
      (ctx.flush config outcome.batch ioCount (ctx.iovecs ≠ [] ∧ ioCount = 0)).map
        fun flushed => { flushed.1 with phase := .popping }

/-- The loop of `pop_to_request_skiplist`. -/
def insertRequests : List TrunkWriteIOBuffer → List TrunkWriteIOBuffer →
    Errno × List TrunkWriteIOBuffer
  | [], skiplist => (.ok, skiplist)
  | head :: rest, skiplist =>
      match config.skiplist.insert skiplist head with
      | (.ok, inserted) => insertRequests rest inserted
      | stopped => stopped

/-- `pop_to_request_skiplist`, and what follows when nothing was popped.  Without a batch the
thread waits. -/
def pop (outcome : IOOutcome) : Option TrunkWriteThreadContext :=
  if ctx.queue = [] then
    if ctx.iovecs = [] then none else ctx.batchWrite config outcome.batch
  else
    match insertRequests config ctx.queue ctx.skiplist with
    | (.ok, skiplist) => some { ctx with
        queue := []
        skiplist := skiplist
        phase := .dealing 0 }
    | (_, skiplist) => some { ctx with
        queue := []
        skiplist := skiplist
        phase := .terminated }

/-- A turn of the loops of `trunk_write_thread_func` and `deal_request_skiplist`. -/
def turn (outcome : IOOutcome) : Option TrunkWriteThreadContext :=
  match ctx.phase with
  | .popping => ctx.pop config outcome
  | .dealing ioCount => ctx.deal config outcome ioCount
  | .terminated => none

/-- `trunk_write_thread_push`. -/
def push (iob : TrunkWriteIOBuffer) : TrunkWriteThreadContext :=
  { ctx with
    queue := ctx.queue ++ [iob]
    pushed := ctx.pushed ++ [iob] }

end TrunkWriteThreadContext

/-- Another thread pushes a request, or the write thread does a turn. -/
inductive TrunkWriteAction where
  | push (iob : TrunkWriteIOBuffer)
  | turn (outcome : IOOutcome)

def TrunkWriteThreadContext.after (config : TrunkWriteConfig) (ctx : TrunkWriteThreadContext) :
    TrunkWriteAction → Option TrunkWriteThreadContext
  | .push iob => some (ctx.push iob)
  | .turn outcome => ctx.turn config outcome

/-- The steps of a write thread and of the threads that push to it. -/
def trunkWriteStep (config : TrunkWriteConfig) :
    StepRel TrunkWriteThreadContext TrunkWriteAction :=
  fun ctx action ctx' => ctx.after config action = some ctx'

/-- A thread that has been started, on any trunk files. -/
structure TrunkWriteStart (disk : TrunkDisk) (binlog : List TrunkLogEntry)
    (ctx : TrunkWriteThreadContext) : Prop where
  phase : ctx.phase = .popping
  queue : ctx.queue = []
  skiplist : ctx.skiplist = []
  iobs : ctx.iobs = []
  iovecs : ctx.iovecs = []
  iovecBytes : ctx.iovecBytes = 0
  fileHandle : ctx.fileHandle = none
  disk : ctx.disk = disk
  binlog : ctx.binlog = binlog
  pushed : ctx.pushed = []
  notified : ctx.notified = []

end FastStore.Dio
