import FastStore.Cluster.Types

/-!
# Withdrawing an active slave

A slave that has missed an update must not count as active.  The master takes it out of its
own copy when it skips an update, and reports it to the leader; when the master dies the
leader takes all slaves out.  The leader pushes the status it holds when it sends, to the
master and to the slave, and the slave leaves active when it hears of it.  The slave itself
tells the leader its status in every ping: a ping that was packed before the slave heard of
the change says active, and the leader takes it over.
-/

namespace FastStore.Cluster

open FastStore.Util

/-- What has become of the slave since the leader last took it out: nothing to wait for, it
is still active itself, or it has left active and has not recovered yet. -/
inductive Withdrawal where
  | none
  | pending
  | left
  deriving DecidableEq, Repr

/-- A data group with its leader, its master and one slave: the status of the slave as each
of them has it, and the messages on their way.  The last two fields record what has happened;
no party reads them. -/
structure WithdrawState where
  slave : FSDataServerStatus
  leader : FSDataServerStatus
  master : FSDataServerStatus
  pings : List FSDataServerStatus
  selfReports : List FSDataServerStatus
  masterReports : Nat
  masterEvent : Bool
  slaveEvent : Bool
  masterPush : List FSDataServerStatus
  slavePush : List FSDataServerStatus
  withdrawal : Withdrawal
  masterLeft : Bool
  deriving DecidableEq

inductive WithdrawAction where
  /-- The slave changes its status on its own and reports it. -/
  | slaveSwap (new : FSDataServerStatus)
  /-- The slave packs its status into a ping. -/
  | ping
  | slaveReceive
  /-- The leader handles a message of the slave; its swap fails when another thread has
  changed the status since it was read. -/
  | dealPing (swapped : Bool)
  | dealSelfReport (status : FSDataServerStatus) (swapped : Bool)
  /-- The leader handles a report of the master, or refuses it because it is not the master. -/
  | dealMasterReport (isMaster : Bool)
  /-- The master dies. -/
  | downgrade
  /-- Something else about the slave has changed, or one of them has joined again. -/
  | notify (toMaster toSlave : Bool)
  | pushMaster
  | pushSlave
  /-- The master skips an update because the channel to the slave is not ready. -/
  | skipRPC
  /-- The master lets the recovering slave fetch the last binlog. -/
  | setOnline
  | masterReceive
  deriving DecidableEq

/-- How a slave changes its own status: a recovery in its steps, its rollback, and the way
out of active. -/
def SlaveMoves : FSDataServerStatus → FSDataServerStatus → Prop
  | .init, .rebuilding | .offline, .recovering => True
  | .rebuilding, .online | .recovering, .online | .online, .active => True
  | .rebuilding, .init | .recovering, .offline | .online, .init | .online, .offline => True
  | .active, .offline => True
  | _, _ => False

instance (old new : FSDataServerStatus) : Decidable (SlaveMoves old new) := by
  unfold SlaveMoves
  split <;> infer_instance

namespace WithdrawState

variable (s : WithdrawState)

/-- The slave gets a status: it leaves active, or it has recovered. -/
def setSlave (new : FSDataServerStatus) : WithdrawState :=
  { s with
    slave := new
    withdrawal :=
      if new = .active then (if s.withdrawal = .left then .none else s.withdrawal)
      else if s.withdrawal = .pending then .left else s.withdrawal }

/-- The master's copy gets a status. -/
def setMasterCopy (new : FSDataServerStatus) : WithdrawState :=
  { s with master := new, masterLeft := s.masterLeft || new ≠ .active }

/-- `set_ds_status_and_data_version` and the self report in `cluster_deal_report_ds_status`:
the leader takes over what the slave says, and tells the others but not the slave. -/
def setLeaderCopy (new : FSDataServerStatus) (swapped : Bool) : WithdrawState :=
  if swapped = true ∧ new ≠ s.leader then { s with leader := new, masterEvent := true } else s

/-- The leader takes the slave out: from `cluster_deal_report_ds_status` for a report of the
master, and from `downgrade_data_server_status`.  Only an active slave is taken out. -/
def withdraw : WithdrawState :=
  if s.leader = .active then
    { s with
      leader := .offline
      masterEvent := true
      slaveEvent := true
      withdrawal := if s.slave = .active then .pending else .left
      masterLeft := s.master ≠ .active }
  else s

/-- `cluster_process_push_entry` for its own data server: only active to offline is accepted. -/
def receiveOwn (status : FSDataServerStatus) : WithdrawState :=
  if status = .offline ∧ s.slave = .active then s.setSlave .offline else s

/-- When a step can be taken. -/
def Enabled : WithdrawAction → Prop
  | .slaveSwap new => SlaveMoves s.slave new
  | .ping | .downgrade | .notify _ _ => True
  | .slaveReceive => s.slavePush ≠ []
  | .dealPing _ => s.pings ≠ []
  | .dealSelfReport status _ => status ∈ s.selfReports
  | .dealMasterReport _ => 0 < s.masterReports
  | .pushMaster => s.masterEvent = true
  | .pushSlave => s.slaveEvent = true
  | .skipRPC => s.master = .active
  | .setOnline => s.master = .rebuilding ∨ s.master = .recovering
  | .masterReceive => s.masterPush ≠ []

instance (action : WithdrawAction) : Decidable (s.Enabled action) := by
  unfold Enabled
  split <;> infer_instance

/-- The state after a step. -/
def next : WithdrawAction → WithdrawState
  | .slaveSwap new => { s.setSlave new with selfReports := s.selfReports ++ [new] }
  | .ping => { s with pings := s.pings ++ [s.slave] }
  | .slaveReceive =>
      match s.slavePush with
      | [] => s
      | status :: rest => { s.receiveOwn status with slavePush := rest }
  | .dealPing swapped =>
      match s.pings with
      | [] => s
      | status :: rest => { s.setLeaderCopy status swapped with pings := rest }
  | .dealSelfReport status swapped =>
      { s.setLeaderCopy status swapped with selfReports := s.selfReports.erase status }
  | .dealMasterReport isMaster =>
      { (if isMaster = true then s.withdraw else s) with masterReports := s.masterReports - 1 }
  | .downgrade => s.withdraw
  | .notify toMaster toSlave =>
      { s with
        masterEvent := s.masterEvent || toMaster
        slaveEvent := s.slaveEvent || toSlave }
  -- an event is sent with the status at that time
  | .pushMaster => { s with masterEvent := false, masterPush := s.masterPush ++ [s.leader] }
  | .pushSlave => { s with slaveEvent := false, slavePush := s.slavePush ++ [s.leader] }
  | .skipRPC => { s.setMasterCopy .offline with masterReports := s.masterReports + 1 }
  | .setOnline => s.setMasterCopy .online
  | .masterReceive =>
      match s.masterPush with
      | [] => s
      | status :: rest => { s.setMasterCopy status with masterPush := rest }

end WithdrawState

/-- The steps of leader, master and slave. -/
def WithdrawStep : StepRel WithdrawState WithdrawAction :=
  StepRel.ofNext WithdrawState.Enabled WithdrawState.next

/-! ## Nothing on its way says active -/

/-- Once not active, not active again. -/
def Fading (statuses : List FSDataServerStatus) : Prop :=
  statuses.IsChain fun before after => after = .active → before = .active

instance : DecidablePred Fading := by
  intro statuses
  unfold Fading
  infer_instance

theorem Fading.append {statuses : List FSDataServerStatus} {status : FSDataServerStatus}
    (fading : Fading statuses) (inactive : status ≠ .active) : Fading (statuses ++ [status]) := by
  refine List.isChain_append.mpr ⟨fading, List.isChain_singleton status, ?_⟩
  rintro before _ after same isActive
  rw [List.head?_cons, Option.mem_some_iff] at same
  exact absurd (same.trans isActive) inactive

/-- A first status that is not active can be replaced by another one that is not. -/
theorem Fading.replace {before after : FSDataServerStatus} {statuses : List FSDataServerStatus}
    (fading : Fading (before :: statuses)) (inactive : before ≠ .active) :
    Fading (after :: statuses) := by
  obtain ⟨first, rest⟩ := List.isChain_cons.mp fading
  exact List.isChain_cons.mpr
    ⟨fun status isFirst isActive => absurd (first status isFirst isActive) inactive, rest⟩

namespace WithdrawState

/-- When the leader takes the slave out no message that says active is on its way to it, and
none that would set the master's copy back; the master skips no update while one of the
latter is on its way; and the slave does not ping between being taken out and hearing of
it. -/
def Heard (s : WithdrawState) : WithdrawAction → Prop
  | .dealMasterReport _ | .downgrade => s.leader = .active →
      .active ∉ s.pings ∧ .active ∉ s.selfReports ∧ Fading (s.master :: s.masterPush)
  | .skipRPC => s.withdrawal ≠ .none → .active ∉ s.masterPush
  | .ping => s.withdrawal ≠ .pending
  | _ => True

instance (s : WithdrawState) (action : WithdrawAction) : Decidable (s.Heard action) := by
  unfold Heard
  split <;> infer_instance

/-- The slave does not count as active until it has recovered. -/
structure StaysOut (s : WithdrawState) : Prop where
  leader : s.withdrawal ≠ .none → s.leader ≠ .active
  master : s.withdrawal ≠ .none → s.masterLeft = true → s.master ≠ .active

/-- While the slave is out, nothing that says active is on its way. -/
structure WithdrawInvariant (s : WithdrawState) : Prop where
  pending : s.withdrawal = .pending → s.slave = .active
  left : s.withdrawal = .left → s.slave ≠ .active
  leader : s.withdrawal ≠ .none → s.leader ≠ .active
  pings : s.withdrawal ≠ .none → .active ∉ s.pings
  selfReports : s.withdrawal ≠ .none → .active ∉ s.selfReports
  fading : s.withdrawal ≠ .none → Fading (s.master :: s.masterPush)
  master : s.withdrawal ≠ .none → s.masterLeft = true → s.master ≠ .active

namespace WithdrawInvariant

variable {s : WithdrawState}

theorem notMem_append {statuses : List FSDataServerStatus} {status : FSDataServerStatus}
    (absent : .active ∉ statuses) (inactive : status ≠ .active) : .active ∉ statuses ++ [status] := by
  rw [List.mem_append, List.mem_singleton]
  rintro (member | same)
  · exact absent member
  · exact inactive same.symm

/-- A slave that becomes active has recovered. -/
theorem setSlave_active (inv : s.WithdrawInvariant) (moves : s.slave ≠ .active) :
    (s.setSlave .active).withdrawal = .none := by
  unfold WithdrawState.setSlave
  simp only [if_true]
  cases found : s.withdrawal with
  | none => rfl
  | pending => exact absurd (inv.pending found) moves
  | left => rfl

/-- A slave that is not active has left. -/
theorem setSlave (inv : s.WithdrawInvariant) {new : FSDataServerStatus}
    (moves : new = .active → s.slave ≠ .active) : (s.setSlave new).WithdrawInvariant := by
  by_cases isActive : new = .active
  · subst isActive
    have none := inv.setSlave_active (moves rfl)
    exact ⟨fun found => absurd (none.symm.trans found) nofun,
      fun found => absurd (none.symm.trans found) nofun, fun out => absurd none out,
      fun out => absurd none out, fun out => absurd none out, fun out => absurd none out,
      fun out => absurd none out⟩
  · unfold WithdrawState.setSlave
    have out : (if s.withdrawal = .pending then Withdrawal.left else s.withdrawal) ≠ .none →
        s.withdrawal ≠ .none := by
      intro later before
      rw [before] at later
      exact later rfl
    simp only [isActive, if_false]
    refine ⟨fun found => ?_, fun _ => isActive, fun later => inv.leader (out later),
      fun later => inv.pings (out later), fun later => inv.selfReports (out later),
      fun later => inv.fading (out later), fun later => inv.master (out later)⟩
    split_ifs at found with waits
    exact absurd found waits

/-- The leader takes over what the slave says. -/
theorem setLeaderCopy (inv : s.WithdrawInvariant) {status : FSDataServerStatus} {swapped : Bool}
    (inactive : s.withdrawal ≠ .none → status ≠ .active) :
    (s.setLeaderCopy status swapped).WithdrawInvariant := by
  unfold WithdrawState.setLeaderCopy
  split_ifs
  · exact ⟨inv.pending, inv.left, inactive, inv.pings, inv.selfReports, inv.fading, inv.master⟩
  · exact inv

/-- The leader takes the slave out. -/
theorem withdraw (inv : s.WithdrawInvariant)
    (heard : s.leader = .active →
      .active ∉ s.pings ∧ .active ∉ s.selfReports ∧ Fading (s.master :: s.masterPush)) :
    s.withdraw.WithdrawInvariant := by
  unfold WithdrawState.withdraw
  split_ifs with isActive slave
  · obtain ⟨pings, selfReports, fading⟩ := heard isActive
    exact ⟨fun _ => slave, nofun, fun _ => nofun, fun _ => pings, fun _ => selfReports,
      fun _ => fading, fun _ isLeft => of_decide_eq_true isLeft⟩
  · obtain ⟨pings, selfReports, fading⟩ := heard isActive
    exact ⟨nofun, fun _ => slave, fun _ => nofun, fun _ => pings, fun _ => selfReports,
      fun _ => fading, fun _ isLeft => of_decide_eq_true isLeft⟩
  · exact inv

/-- The master's copy gets a status that is not active again. -/
theorem setMasterCopy (inv : s.WithdrawInvariant) {status : FSDataServerStatus}
    {push : List FSDataServerStatus}
    (fading : s.withdrawal ≠ .none → Fading (status :: push))
    (again : s.withdrawal ≠ .none → status = .active → s.master = .active) :
    WithdrawInvariant { s.setMasterCopy status with masterPush := push } := by
  refine ⟨inv.pending, inv.left, inv.leader, inv.pings, inv.selfReports, fading, ?_⟩
  intro out isLeft isActive
  have before : s.masterLeft = true := by
    simpa [WithdrawState.setMasterCopy, show status = .active from isActive] using isLeft
  exact inv.master out before (again out isActive)

/-- Every step keeps the invariant. -/
theorem next (inv : s.WithdrawInvariant) {action : WithdrawAction} (heard : s.Heard action)
    (enabled : s.Enabled action) : (s.next action).WithdrawInvariant := by
  cases action with
  | slaveSwap new =>
      have moves : new = .active → s.slave ≠ .active := by
        rintro rfl same
        simp only [WithdrawState.Enabled, same] at enabled
        exact enabled
      have after := inv.setSlave moves
      refine ⟨after.pending, after.left, after.leader, after.pings, fun out => ?_, after.fading,
        after.master⟩
      refine notMem_append (after.selfReports out) ?_
      rintro rfl
      exact out (inv.setSlave_active (moves rfl))
  | ping =>
      refine ⟨inv.pending, inv.left, inv.leader, fun out => ?_, inv.selfReports, inv.fading,
        inv.master⟩
      refine notMem_append (inv.pings out) ?_
      cases found : s.withdrawal with
      | none => exact absurd found out
      | pending => exact absurd found heard
      | left => exact inv.left found
  | slaveReceive =>
      unfold WithdrawState.next
      dsimp only
      cases s.slavePush with
      | nil => exact inv
      | cons status rest =>
          have after : (s.receiveOwn status).WithdrawInvariant := by
            unfold WithdrawState.receiveOwn
            split_ifs
            · exact inv.setSlave nofun
            · exact inv
          exact ⟨after.pending, after.left, after.leader, after.pings, after.selfReports,
            after.fading, after.master⟩
  | dealPing swapped =>
      unfold WithdrawState.next
      dsimp only
      cases queued : s.pings with
      | nil => exact inv
      | cons status rest =>
          have after : (s.setLeaderCopy status swapped).WithdrawInvariant := by
            refine inv.setLeaderCopy fun out same => ?_
            have absent := inv.pings out
            rw [queued, same] at absent
            exact absent List.mem_cons_self
          refine ⟨after.pending, after.left, after.leader, fun out => ?_, after.selfReports,
            after.fading, after.master⟩
          have absent := after.pings out
          have same : (s.setLeaderCopy status swapped).pings = status :: rest := by
            unfold WithdrawState.setLeaderCopy
            split_ifs
            · exact queued
            · exact queued
          rw [same] at absent
          exact fun member => absent (List.mem_cons_of_mem status member)
  | dealSelfReport status swapped =>
      have after : (s.setLeaderCopy status swapped).WithdrawInvariant := by
        refine inv.setLeaderCopy fun out same => ?_
        have member : status ∈ s.selfReports := enabled
        rw [same] at member
        exact inv.selfReports out member
      refine ⟨after.pending, after.left, after.leader, after.pings, fun out => ?_, after.fading,
        after.master⟩
      have same : (s.setLeaderCopy status swapped).selfReports = s.selfReports := by
        unfold WithdrawState.setLeaderCopy
        split_ifs
        · rfl
        · rfl
      have absent := after.selfReports out
      rw [same] at absent
      exact fun member => absent (List.mem_of_mem_erase member)
  | dealMasterReport isMaster =>
      have after : (if isMaster = true then s.withdraw else s).WithdrawInvariant := by
        split_ifs
        · exact inv.withdraw heard
        · exact inv
      exact ⟨after.pending, after.left, after.leader, after.pings, after.selfReports, after.fading,
        after.master⟩
  | downgrade => exact inv.withdraw heard
  | notify toMaster toSlave =>
      exact ⟨inv.pending, inv.left, inv.leader, inv.pings, inv.selfReports, inv.fading, inv.master⟩
  | pushMaster =>
      exact ⟨inv.pending, inv.left, inv.leader, inv.pings, inv.selfReports,
        fun out => (inv.fading out).append (inv.leader out), inv.master⟩
  | pushSlave =>
      exact ⟨inv.pending, inv.left, inv.leader, inv.pings, inv.selfReports, inv.fading, inv.master⟩
  | skipRPC =>
      have after : WithdrawInvariant { s.setMasterCopy .offline with masterPush := s.masterPush } := by
        refine inv.setMasterCopy (fun out => ?_) nofun
        refine List.isChain_cons.mpr ⟨?_, (inv.fading out).tail⟩
        rintro _ first rfl
        exact absurd (List.mem_of_mem_head? first) (heard out)
      exact ⟨after.pending, after.left, after.leader, after.pings, after.selfReports, after.fading,
        after.master⟩
  | setOnline =>
      refine inv.setMasterCopy (fun out => (inv.fading out).replace ?_) nofun
      rcases (show s.master = .rebuilding ∨ s.master = .recovering from enabled) with found | found
      · rw [found]
        exact nofun
      · rw [found]
        exact nofun
  | masterReceive =>
      unfold WithdrawState.next
      dsimp only
      cases queued : s.masterPush with
      | nil => exact inv
      | cons status rest =>
          refine inv.setMasterCopy (fun out => ?_) fun out => ?_
          · have fading := (inv.fading out).tail
            rw [queued] at fading
            exact fading
          · have fading := inv.fading out
            rw [queued] at fading
            exact (List.isChain_cons_cons.mp fading).1

end WithdrawInvariant

end WithdrawState

/-- The slave was never taken out. -/
structure NeverWithdrawn (s : WithdrawState) : Prop where
  withdrawal : s.withdrawal = .none

/-- All three have the slave as active, and nothing is on its way. -/
def allActive : WithdrawState :=
  ⟨.active, .active, .active, [], [], 0, false, false, [], [], .none, false⟩

end FastStore.Cluster
