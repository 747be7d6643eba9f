import FastStore.Cluster.Types
import FastStore.Storage.Types

/-!
# Data updates of a slave

How a slave checks an update that the master has sent: the fields of the request, its own
status, whether the recovery deals with the update, and the data version.  The status, the
words of the recovery and the last version are read without a lock while the recovery thread
changes them, so each read is a step of its own.
-/

namespace FastStore.Server

open FastStore.Storage FastStore.Cluster

/-- The words of the own data server that other threads change. -/
structure DataServerWords where
  status : FSDataServerStatus
  /-- `recovery.in_progress`. -/
  inProgress : Bool
  /-- `recovery.until_version`. -/
  untilVersion : Nat
  /-- `replica.rpc_last_version`. -/
  rpcLastVersion : Nat
  deriving DecidableEq, Repr

/-- What the functions return, with zero as `ok`. -/
inductive UpdateResult where
  | ok
  | taskStatusContinue
  | einval
  | enoent
  | enomem
  | notActive
  deriving DecidableEq, Repr

/-! ## `parse_check_block_key_ex` -/

/-- Where a thread is in the loop over the status, with `wait_recovery_done`. -/
inductive CheckPoint where
  /-- The status is to be read. -/
  | readStatus
  /-- The head of the loop, with the status that was read. -/
  | loop (status : FSDataServerStatus)
  /-- The status was `ONLINE`; `in_progress` is to be read. -/
  | online
  /-- No recovery is in progress; the status is to be read again. -/
  | reread
  /-- `wait_recovery_done`: `until_version` is to be read. -/
  | readUntil (round : Nat)
  /-- `wait_recovery_done`: wait until the status is no longer `ONLINE`. -/
  | waiting (round : Nat) (checked : Bool)
  /-- The loop has been left. -/
  | left (status : FSDataServerStatus) (dealDone : Bool)
  deriving DecidableEq, Repr

namespace CheckPoint

variable (words : DataServerWords) (continueFlag : Bool) (dataVersion : Nat)

/-- The thread waits. -/
def Blocked : CheckPoint → Prop
  | .waiting _ _ => words.status = .online ∧ continueFlag = true
  | _ => False

instance (point : CheckPoint) : Decidable (point.Blocked words continueFlag) := by
  cases point <;> unfold Blocked <;> infer_instance

/-- One step of the loop, for a thread that does not wait. -/
def next : CheckPoint → CheckPoint
  | .readStatus => .loop words.status
  | .loop status =>
      if continueFlag = true ∧ status = .online then .online else .left status false
  | .online => if words.inProgress then .readUntil 0 else .reread
  | .reread => .left words.status false
  | .readUntil round =>
      if words.untilVersion ≠ 0 ∧ dataVersion ≤ words.untilVersion then .left .online true
      else .waiting round (words.untilVersion ≠ 0)
  | .waiting round checked =>
      if checked = true ∨ 2 ≤ round then .readStatus else .readUntil (round + 1)
  | .left status dealDone => .left status dealDone

end CheckPoint

/-! ## The fields of a request -/

/-- The commands of the parts of a request. -/
inductive UpdateCmd where
  | sliceWrite
  | sliceAllocate
  | sliceDelete
  | blockDelete
  | other (code : Nat)
  deriving DecidableEq, Repr

/-- A part of an RPC request, `FSProtoReplicaRPCReqBodyPart`, with the fields of its body. -/
structure FSProtoReplicaRPCReqBodyPart where
  dataVersion : Nat
  bodyLen : Int
  cmd : UpdateCmd
  bkey : FSBlockKey
  sliceOffset : Int
  sliceLength : Int
  deriving DecidableEq, Repr

/-- The data groups of the cluster, and those that have this server. -/
structure DataGroups where
  count : Nat
  mine : Nat → Bool

/-- `FS_DATA_GROUP_ID`. -/
def DataGroups.dataGroupId (groups : DataGroups) (bkey : FSBlockKey) : Nat :=
  bkey.fsCalcBlockHashcode % groups.count + 1

namespace FSProtoReplicaRPCReqBodyPart

variable (part : FSProtoReplicaRPCReqBodyPart)

/-- The length of the body that the command requires: `sizeof` of its request, exactly or at
least. -/
def bodyLengthFits : Bool :=
  match part.cmd with
  | .sliceWrite => 24 ≤ part.bodyLen
  | .sliceAllocate | .sliceDelete => part.bodyLen = 24
  | .blockDelete => part.bodyLen = 16
  | .other _ => false

/-- The checks of `du_handler_deal_*` and `parse_check_block_key_ex` before the status. -/
def checkBlockKey (groups : DataGroups) : UpdateResult :=
  if part.bodyLengthFits = false then .einval
  else if part.bkey.offset % fsFileBlockSize ≠ 0 then .einval
  else if groups.mine (groups.dataGroupId part.bkey) = false then .enoent
  else .ok

/-- The checks of `du_handler_parse_check_block_slice` and `du_handler_deal_slice_write` behind
the status; the sum is one of 32-bit numbers. -/
def checkSlice : UpdateResult :=
  if part.cmd = .blockDelete then .ok
  else if part.sliceOffset < 0 ∨ fsFileBlockSize ≤ part.sliceOffset then .einval
  else if part.sliceLength ≤ 0 ∨
      fsFileBlockSize < (part.sliceOffset + part.sliceLength).bmod (2 ^ 32) then .einval
  else if part.cmd = .sliceWrite ∧ 24 + part.sliceLength ≠ part.bodyLen then .einval
  else .ok

end FSProtoReplicaRPCReqBodyPart

/-! ## `du_push_to_data_queue` -/

/-- Where a thread is with one update. -/
inductive UpdatePoint where
  | check (point : CheckPoint)
  /-- `du_slave_check_data_version`: `rpc_last_version` is to be read. -/
  | version
  /-- `du_slave_check_data_version`: `rpc_last_version` is to be increased. -/
  | accept
  /-- The update is to be pushed to the queue of a data thread. -/
  | push
  | returned (result : UpdateResult) (dealDone : Bool)
  deriving DecidableEq, Repr

namespace UpdatePoint

variable (words : DataServerWords) (continueFlag : Bool) (part : FSProtoReplicaRPCReqBodyPart)

/-- The update has been applied before: `du_slave_check_data_version` skips it. -/
def Skips : UpdatePoint → Prop
  | .version => part.dataVersion ≤ words.rpcLastVersion
  | _ => False

instance (point : UpdatePoint) : Decidable (point.Skips words part) := by
  cases point <;> unfold Skips <;> infer_instance

def Blocked : UpdatePoint → Prop
  | .check point => point.Blocked words continueFlag
  | _ => False

instance (point : UpdatePoint) : Decidable (point.Blocked words continueFlag) := by
  cases point <;> unfold Blocked <;> infer_instance

/-- What follows the loop over the status. -/
def afterCheck (status : FSDataServerStatus) (dealDone : Bool) : UpdatePoint :=
  if ¬ (status = .active ∨ dealDone = true) then .returned .notActive dealDone
  else if part.checkSlice ≠ .ok then .returned part.checkSlice dealDone
  else if dealDone then .returned .ok true
  else .version

/-- One step of an update; the data thread takes the update when it is pushed. -/
def next : UpdatePoint → UpdatePoint
  | .check (.left status dealDone) => afterCheck part status dealDone
  | .check point => .check (point.next words continueFlag part.dataVersion)
  | .version =>
      if part.dataVersion ≠ words.rpcLastVersion + 1 then
        if part.dataVersion ≤ words.rpcLastVersion then .returned .ok false
        else .returned .einval false
      else .accept
  | .accept => .push
  | .push => .returned .taskStatusContinue false
  | .returned result dealDone => .returned result dealDone

/-- The update is in the queue of a data thread, or it was skipped. -/
def Settled : UpdatePoint → Prop
  | .returned .taskStatusContinue _ | .returned .ok false => True
  | _ => False

/-- The words after the step. -/
def nextWords : UpdatePoint → DataServerWords
  | .accept => { words with rpcLastVersion := words.rpcLastVersion + 1 }
  | _ => words

variable {words continueFlag part} {point : UpdatePoint}

theorem checkSlice_cases (part : FSProtoReplicaRPCReqBodyPart) :
    part.checkSlice = .ok ∨ part.checkSlice = .einval := by
  unfold FSProtoReplicaRPCReqBodyPart.checkSlice
  split_ifs <;> simp

theorem not_settled_afterCheck (status : FSDataServerStatus) (dealDone : Bool) :
    ¬ (afterCheck part status dealDone).Settled := by
  unfold afterCheck
  by_cases ready : status = .active ∨ dealDone = true
  · rw [if_neg (not_not.mpr ready)]
    rcases checkSlice_cases part with valid | invalid
    · rw [if_neg (not_not.mpr valid)]
      cases dealDone <;> exact id
    · rw [if_pos (by rw [invalid]; nofun), invalid]
      exact id
  · rw [if_pos ready]
    exact id

/-- What a step does: it hands the update to the data thread, or skips it, or settles
nothing. -/
theorem next_cases (running : ∀ result dealDone, point ≠ .returned result dealDone) :
    point = .push ∧ ¬ point.Skips words part ∧ (point.next words continueFlag part).Settled ∨
      point ≠ .push ∧ point.Skips words part ∧ (point.next words continueFlag part).Settled ∨
      point ≠ .push ∧ ¬ point.Skips words part ∧
        ¬ (point.next words continueFlag part).Settled := by
  cases point with
  | check loop =>
      refine Or.inr (Or.inr ⟨nofun, id, ?_⟩)
      cases loop with
      | left status dealDone => exact not_settled_afterCheck status dealDone
      | readStatus | loop | online | reread | readUntil | waiting => exact id
  | version =>
      by_cases passed : part.dataVersion ≤ words.rpcLastVersion
      · refine Or.inr (Or.inl ⟨nofun, passed, ?_⟩)
        have apart : part.dataVersion ≠ words.rpcLastVersion + 1 := by omega
        simp only [next, if_pos apart, if_pos passed]
        trivial
      · refine Or.inr (Or.inr ⟨nofun, passed, ?_⟩)
        simp only [next, if_neg passed]
        split_ifs <;> exact id
  | accept => exact Or.inr (Or.inr ⟨nofun, id, id⟩)
  | push => exact Or.inl ⟨rfl, id, trivial⟩
  | returned result dealDone => exact absurd rfl (running result dealDone)

end UpdatePoint

end FastStore.Server
