import FastStore.Util.System

/-!
# Cluster data types

A server of the cluster is offline, online or active for the leader; a data server
(the part of a server in one data group) has a status of its own, from its first
start to active.
-/

namespace FastStore.Cluster

open FastStore.Util

/-- `FS_SERVER_STATUS_*`, in the order of its values. -/
inductive FSServerStatus where
  | offline
  | online
  | active
  deriving DecidableEq, Repr, Inhabited

/-- The value of a status. -/
def FSServerStatus.value : FSServerStatus → Nat
  | .offline => 0
  | .online => 1
  | .active => 2

theorem FSServerStatus.value_le_active (status : FSServerStatus) :
    status.value ≤ FSServerStatus.active.value := by
  cases status <;> decide

theorem FSServerStatus.eq_active_of_value_le {status : FSServerStatus}
    (le : FSServerStatus.active.value ≤ status.value) : status = .active := by
  cases status with
  | active => rfl
  | offline | online => exact absurd le (by decide)

/-- `FS_DS_STATUS_*`, in the order of its values. -/
inductive FSDataServerStatus where
  | init
  | rebuilding
  | offline
  | recovering
  | online
  | active
  deriving DecidableEq, Repr, Inhabited

/-- `FS_MASTER_ELECTION_POLICY_*`. -/
inductive MasterElectionPolicy where
  | strict
  | timeout
  deriving DecidableEq, Repr

end FastStore.Cluster
