import FastStore.Util.Threads
import FastStore.Cluster.Types

/-!
# The recovery thread

A data server that is not up to date recovers from the master of its group.  Whoever
changes its status or the master pushes it to the recovery queue, the dispatcher hands it
to a thread pool, and a task of the pool runs the recovery.  The tasks are kept apart by a
flag, and a task that cannot run drops the request.  All this happens without locks: an
entry of a stack below is one atomic operation on the shared words.
-/

namespace FastStore.Recovery

open FastStore.Util FastStore.Cluster

/-- The words shared by the threads of one server, for one of its data groups: the status of
its own data server, the master of the group with the flags of its members, how often the
data server stands in the recovery queue and in the queue of the thread pool, and whether a
recovery is in progress. -/
structure RecoveryShared where
  status : FSDataServerStatus
  master : Option Nat
  isMaster : Nat → Bool
  queue : Nat
  pool : Nat
  inProgress : Bool

/-- What a thread has still to do. -/
inductive RecoveryFrame where
  -- `cluster_relationship_set_ds_status_ex`, and `cluster_relationship_swap_report_ds_status`
  | setStatus (old new : FSDataServerStatus) (report : Bool)
  | onStatusChange (new : FSDataServerStatus)
  | report (old new : FSDataServerStatus)
  -- `recovery_thread_push_to_queue` and `recovery_thread_check_push_to_queue`
  | push
  | checkStatus
  | checkMaster
  -- `cluster_process_push_entry` and `cluster_relationship_on_master_change`
  | pushEntry (server : Nat) (status : FSDataServerStatus) (isMaster : Bool)
  | pushStatus (server : Nat) (status : FSDataServerStatus) (isMaster : Bool)
  | pushMaster (server : Nat) (isMaster : Bool)
  | pushFlag (server : Nat) (old : Option Nat)
  | changeMaster (old new : Option Nat)
  | onMasterChange (old new : Option Nat)
  -- the master changes of a leader
  | electMaster (server : Nat)
  | offlineMaster (server : Nat)
  | unsetAllMasters
  | unsetMaster (server : Nat) (flagged : Bool)
  | setIsMaster (server : Nat) (value : Bool)
  -- `recovery_thread_entrance` and `recovery_thread_deal`
  | entrance
  | deal
  | poolRun
  -- a thread of the pool, `recovery_thread_run_task` and `data_recovery_do`
  | worker
  | taskStatus
  | taskMaster (old : FSDataServerStatus)
  | taskAcquire (old : FSDataServerStatus)
  | taskSwap (old : FSDataServerStatus)
  | dataRecoveryStart (old : FSDataServerStatus)
  | taskDone (old : FSDataServerStatus) (result : Errno)
  | release (check : Bool)
  deriving DecidableEq

/-- What the model leaves open: whether this server is the leader, whether the allocators or
the pool have something available, and how a recovery ends. -/
structure RecoveryChoice where
  isLeader : Bool
  available : Bool
  result : Errno
  deriving DecidableEq

/-- The statuses from which a recovery starts. -/
def Waits : FSDataServerStatus → Prop
  | .init | .offline => True
  | _ => False

instance (status : FSDataServerStatus) : Decidable (Waits status) := by
  cases status <;> unfold Waits <;> infer_instance

/-- The statuses that a failed recovery rolls back. -/
def Recovers : FSDataServerStatus → Prop
  | .rebuilding | .recovering | .online => True
  | _ => False

instance (status : FSDataServerStatus) : Decidable (Recovers status) := by
  cases status <;> unfold Recovers <;> infer_instance

/-- The status with which a recovery starts. -/
def recoveryStatus (old : FSDataServerStatus) : FSDataServerStatus :=
  if old = .init then .rebuilding else .recovering

namespace RecoveryShared

variable (myself : Nat) (s : RecoveryShared)

/-- The master is another server. -/
def MasterElsewhere : Prop := s.master ≠ none ∧ s.master ≠ some myself

instance : Decidable (s.MasterElsewhere myself) := by
  unfold MasterElsewhere
  infer_instance

/-- `cluster_relationship_on_master_change`. -/
def onMasterChange (old new : Option Nat) : List RecoveryFrame :=
  if new = old then []
  else
    (if new = some myself then [.setStatus s.status .active true]
      else if old = some myself ∧ s.status = .active then [.setStatus .active .offline true]
      else []) ++
    if new ≠ none ∧ new ≠ some myself then [.checkStatus] else []

/-- One atomic operation, and what follows it. -/
def exec (choice : RecoveryChoice) : RecoveryFrame → RecoveryShared × List RecoveryFrame
  | .setStatus old new report =>
      if new = old then (s, [])
      else if s.status = old then
        ({ s with status := new },
          .onStatusChange new :: if report = true then [.report old new] else [])
      else (s, [])
  | .onStatusChange new =>
      (s, if Waits new ∧ s.MasterElsewhere myself then [.push] else [])
  -- the leader swaps the status a second time
  | .report old new =>
      if choice.isLeader = true ∧ new ≠ old ∧ s.status = old then ({ s with status := new }, [])
      else (s, [])
  | .push => ({ s with queue := s.queue + 1 }, [])
  | .checkStatus => (s, if Waits s.status then [.checkMaster] else [])
  | .checkMaster => (s, if s.master = none then [] else [.push])
  | .pushEntry server status isMaster =>
      (s, .pushStatus server status isMaster ::
        if s.isMaster server = isMaster then [] else [.pushMaster server isMaster])
  | .pushStatus server status isMaster =>
      (s, if server = myself ∧ status = .offline ∧ s.status = .active ∧ isMaster = false then
        [.setStatus .active .offline false] else [])
  | .pushMaster server isMaster =>
      (s, [.setIsMaster server isMaster, .pushFlag server s.master])
  | .pushFlag server old =>
      (s,
        if s.isMaster server = true then
          if old = some server then []
          else
            (match old with
              | some other => [.setIsMaster other false]
              | none => []) ++ [.changeMaster old (some server)]
        else if old = some server then [.changeMaster old none]
        else [])
  | .changeMaster old new =>
      ({ s with master := if s.master = old then new else s.master }, [.onMasterChange old new])
  | .onMasterChange old new => (s, s.onMasterChange myself old new)
  | .electMaster server =>
      if s.master = none then
        ({ s with master := some server },
          [.setIsMaster server true, .onMasterChange none (some server)])
      else (s, [])
  | .offlineMaster server =>
      (s, if s.isMaster server = true then [.setIsMaster server false, .unsetMaster server false]
        else [])
  | .unsetAllMasters =>
      (s,
        match s.master with
        | some server => [.unsetMaster server true]
        | none => [])
  | .unsetMaster server flagged =>
      if s.master = some server then
        ({ s with master := none },
          (if flagged = true then [.setIsMaster server false] else []) ++
            [.onMasterChange (some server) none])
      else (s, [])
  | .setIsMaster server value =>
      ({ s with isMaster := Function.update s.isMaster server value }, [])
  | .entrance => ({ s with queue := s.queue - 1 }, [.deal, .entrance])
  | .deal =>
      (s,
        match s.status with
        | .init => if choice.available = true then [.poolRun] else [.push]
        | .offline => [.poolRun]
        | .rebuilding | .recovering | .online | .active => [])
  | .poolRun => ({ s with pool := s.pool + 1 }, [])
  | .worker => ({ s with pool := s.pool - 1 }, [.taskStatus, .worker])
  -- without an allocator available the task sleeps and reads the status again
  | .taskStatus =>
      (s,
        if Waits s.status then
          if choice.available = true then [.taskMaster s.status] else [.taskStatus]
        else [])
  | .taskMaster old => (s, if s.MasterElsewhere myself then [.taskAcquire old] else [])
  | .taskAcquire old =>
      if s.inProgress = true then (s, []) else ({ s with inProgress := true }, [.taskSwap old])
  | .taskSwap old =>
      if s.status = old then
        ({ s with status := recoveryStatus old },
          [.onStatusChange (recoveryStatus old), .report old (recoveryStatus old),
            .dataRecoveryStart old])
      else (s, [.release false])
  | .dataRecoveryStart old => (s, [.taskDone old choice.result])
  | .taskDone old result =>
      (s, (if result ≠ .ok ∧ Recovers s.status then [.setStatus s.status old true] else []) ++
        [.release true])
  | .release check =>
      ({ s with inProgress := false }, if check = true then [.checkStatus] else [])

/-- The dispatcher waits for the queue and the threads of the pool for a task. -/
def Enabled : RecoveryFrame → Prop
  | .entrance => 0 < s.queue
  | .worker => 0 < s.pool
  | _ => True

instance (frame : RecoveryFrame) : Decidable (s.Enabled frame) := by
  unfold Enabled
  split <;> infer_instance

end RecoveryShared

/-- The calls that threads start with: any change of my status, an entry pushed by the leader,
a master change as leader, and a new thread of the pool. -/
def RecoveryStarts : List RecoveryFrame → Prop
  | [.setStatus _ _ _] | [.pushEntry _ _ _] | [.electMaster _] | [.offlineMaster _]
  | [.unsetAllMasters] | [.worker] => True
  | _ => False

instance : DecidablePred RecoveryStarts := by
  intro stack
  unfold RecoveryStarts
  split <;> infer_instance

/-- The program of the server with the given number. -/
def recoveryProgram (myself : Nat) : Program RecoveryShared RecoveryFrame RecoveryChoice where
  Starts := RecoveryStarts
  Enabled := fun s frame _ => s.Enabled frame
  exec := fun s frame choice => s.exec myself choice frame

instance (myself : Nat) : DecidablePred (recoveryProgram myself).Starts :=
  inferInstanceAs (DecidablePred RecoveryStarts)

instance (myself : Nat) (s : RecoveryShared) (frame : RecoveryFrame) (choice : RecoveryChoice) :
    Decidable ((recoveryProgram myself).Enabled s frame choice) :=
  inferInstanceAs (Decidable (s.Enabled frame))

end FastStore.Recovery
