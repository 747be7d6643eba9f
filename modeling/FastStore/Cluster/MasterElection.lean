import FastStore.Cluster.Types

/-!
# Electing masters

On the leader three kinds of threads work on the masters of the data groups: the
election thread takes groups from the election queue, the relationship thread moves
delayed groups back to it (and unsets all masters when this server becomes leader), and
the network threads activate and deactivate servers.  They share flags and pointers
that are changed by compare-and-swap.  A step is one such change, one push, one pop or
one decision on values read; between two steps any other thread can run.
-/

namespace FastStore.Cluster

open FastStore.Util

/-- The data groups by number, and the groups each server has a data server in. -/
structure ElectionConfig where
  groupCount : Nat
  isSingle : Nat → Bool
  groupsOf : Nat → List Nat

/-- The two queues with the flags of the groups in them. -/
structure ElectionQueues where
  inQueue : Nat → Bool
  inDelayQueue : Nat → Bool
  queue : List Nat
  delayQueue : List Nat
  waitingCount : Int

/-- The points inside `master_election_queue_push` and `master_election_push_to_delay_queue`:
before the swap of the flag, before the push and, for the former, before the count. -/
inductive QueueCall where
  | queueTest (group : Nat)
  | queuePush (group : Nat)
  | queueCount
  | delayTest (group : Nat)
  | delayPush (group : Nat)
  deriving DecidableEq

namespace ElectionQueues

variable (queues : ElectionQueues)

/-- One step of a queue call, and where it stands afterwards. -/
def advance : QueueCall → ElectionQueues × Option QueueCall
  | .queueTest group =>
      if queues.inQueue group = true then (queues, none)
      else ({ queues with inQueue := Function.update queues.inQueue group true },
        some (.queuePush group))
  | .queuePush group => ({ queues with queue := queues.queue ++ [group] }, some .queueCount)
  | .queueCount => ({ queues with waitingCount := queues.waitingCount + 1 }, none)
  | .delayTest group =>
      if queues.inDelayQueue group = true then (queues, none)
      else ({ queues with inDelayQueue := Function.update queues.inDelayQueue group true },
        some (.delayPush group))
  | .delayPush group => ({ queues with delayQueue := queues.delayQueue ++ [group] }, none)

end ElectionQueues

/-- The points of `select_master_thread_run` and `master_election_select_master`. -/
inductive SelectPoint where
  | stopped
  | waiting
  | popped (group : Nat)
  | counted (group : Nat)
  | check (group : Nat)
  | select (group : Nat)
  | chosen (group server : Nat)
  | installed (group server : Nat)
  deriving DecidableEq

/-- The points of `master_election_deal_delay_queue` and
`master_election_unset_all_masters`. -/
inductive RelationshipPoint where
  | idle
  | deal (todo : List Nat)
  | clear (group : Nat) (rest : List Nat)
  | unset (group : Nat)
  | unsetMaster (group server : Nat)
  | unsetFlag (group server : Nat)
  deriving DecidableEq

/-- The points of `cluster_topology_activate_server` and
`cluster_topology_deactivate_server`. -/
inductive TopologyPoint where
  | activate (server : Nat) (todo : List Nat)
  | offline (server : Nat) (todo : List Nat)
  | offlineFlag (server group : Nat) (rest : List Nat)
  | offlineMaster (server group : Nat) (rest : List Nat)
  deriving DecidableEq

/-- A thread: the queue call it is in, if any, and where it goes on behind it. -/
structure Actor (π : Type) where
  call : Option QueueCall
  point : π
  deriving DecidableEq

/-- What `select_master` returns: a server, the wish for another try, or an error. -/
inductive SelectOutcome where
  | elected (server : Nat)
  | again
  | failed
  deriving DecidableEq

/-- The leader's view of servers and masters. -/
structure MasterState where
  status : Nat → FSServerStatus
  master : Nat → Option Nat
  isMaster : Nat → Nat → Bool
  queues : ElectionQueues
  select : Actor SelectPoint
  relationship : Actor RelationshipPoint
  topology : List (Actor TopologyPoint)

inductive MasterAction where
  | threadStart
  | threadStop
  | select (outcome : SelectOutcome)
  | dealDelayQueue
  | unsetAllMasters
  | relationship
  | activateServer (server : Nat)
  | deactivateServer (server : Nat)
  | topology (actor : Actor TopologyPoint)
  deriving DecidableEq

namespace MasterState

variable (config : ElectionConfig) (s : MasterState)

def setMaster (group : Nat) (master : Option Nat) : MasterState :=
  { s with master := Function.update s.master group master }

@[simp] theorem setMaster_master (group : Nat) (master : Option Nat) :
    (s.setMaster group master).master = Function.update s.master group master := rfl

def setIsMaster (group server : Nat) (value : Bool) : MasterState :=
  { s with
    isMaster := Function.update s.isMaster group
      (Function.update (s.isMaster group) server value) }

def setStatus (server : Nat) (status : FSServerStatus) : MasterState :=
  { s with status := Function.update s.status server status }

/-- The next step of the election thread. -/
def advanceSelect (outcome : SelectOutcome) : MasterState :=
  match s.select.call with
  | some call =>
      let (queues, call) := s.queues.advance call
      { s with queues := queues, select := ⟨call, s.select.point⟩ }
  | none =>
      match s.select.point with
      | .stopped => s
      | .waiting =>
          match s.queues.queue with
          | [] => s
          | group :: rest =>
              { s with queues := { s.queues with queue := rest }, select := ⟨none, .popped group⟩ }
      | .popped group =>
          { s with
            queues := { s.queues with waitingCount := s.queues.waitingCount - 1 }
            select := ⟨none, .counted group⟩ }
      | .counted group =>
          { s with
            queues := { s.queues with inQueue := Function.update s.queues.inQueue group false }
            select := ⟨none, .check group⟩ }
      | .check group =>
          { s with select := ⟨none, if s.master group = none then .select group else .waiting⟩ }
      | .select group =>
          match outcome with
          | .elected server => { s with select := ⟨none, .chosen group server⟩ }
          | .again => { s with select := ⟨some (.delayTest group), .waiting⟩ }
          | .failed => { s with select := ⟨none, .waiting⟩ }
      | .chosen group server =>
          if s.master group = none then
            { s.setMaster group (some server) with select := ⟨none, .installed group server⟩ }
          else { s with select := ⟨none, .waiting⟩ }
      | .installed group server =>
          { s.setIsMaster group server true with select := ⟨none, .waiting⟩ }

/-- The push at the end of the loop of `master_election_unset_all_masters`. -/
def pushUnset (group : Nat) : MasterState :=
  { s with
    relationship :=
      ⟨some (if config.isSingle group = true then .queueTest group else .delayTest group),
        .unset (group + 1)⟩ }

/-- The next step of the relationship thread. -/
def advanceRelationship : MasterState :=
  match s.relationship.call with
  | some call =>
      let (queues, call) := s.queues.advance call
      { s with queues := queues, relationship := ⟨call, s.relationship.point⟩ }
  | none =>
      match s.relationship.point with
      | .idle => s
      | .deal [] => { s with relationship := ⟨none, .idle⟩ }
      | .deal (group :: rest) =>
          { s with
            relationship := ⟨if s.master group = none then some (.queueTest group) else none,
              .clear group rest⟩ }
      | .clear group rest =>
          { s with
            queues := { s.queues with
              inDelayQueue := Function.update s.queues.inDelayQueue group false }
            relationship := ⟨none, .deal rest⟩ }
      | .unset group =>
          if group < config.groupCount then
            match s.master group with
            | none => s.pushUnset config group
            | some server => { s with relationship := ⟨none, .unsetMaster group server⟩ }
          else { s with relationship := ⟨none, .idle⟩ }
      | .unsetMaster group server =>
          if s.master group = some server then
            { s.setMaster group none with relationship := ⟨none, .unsetFlag group server⟩ }
          else s.pushUnset config group
      | .unsetFlag group server => (s.setIsMaster group server false).pushUnset config group

/-- The next step of a network thread; `none` when its call returns. -/
def advanceTopology (actor : Actor TopologyPoint) : MasterState × Option (Actor TopologyPoint) :=
  match actor.call with
  | some call =>
      let (queues, call) := s.queues.advance call
      ({ s with queues := queues }, some ⟨call, actor.point⟩)
  | none =>
      match actor.point with
      | .activate _ [] => (s, none)
      | .activate server (group :: rest) =>
          (s, some ⟨if s.master group = none then some (.queueTest group) else none,
            .activate server rest⟩)
      | .offline _ [] => (s, none)
      | .offline server (group :: rest) =>
          (s, some ⟨none, if s.isMaster group server = true then .offlineFlag server group rest
            else .offline server rest⟩)
      | .offlineFlag server group rest =>
          (s.setIsMaster group server false, some ⟨none, .offlineMaster server group rest⟩)
      | .offlineMaster server group rest =>
          if s.master group = some server then
            (s.setMaster group none, some ⟨some (.queueTest group), .offline server rest⟩)
          else (s, some ⟨none, .offline server rest⟩)

/-- `select_master` returns only servers of the group that are active. -/
def MayReturn : SelectPoint → SelectOutcome → Prop
  | .select group, .elected server =>
      s.status server = .active ∧ group ∈ config.groupsOf server
  | _, _ => True

instance (point : SelectPoint) (outcome : SelectOutcome) :
    Decidable (s.MayReturn config point outcome) := by
  unfold MayReturn
  split <;> infer_instance

/-- When a step can be taken. -/
def Enabled : MasterAction → Prop
  | .threadStart => s.select = ⟨none, .stopped⟩
  | .threadStop => s.select = ⟨none, .waiting⟩ ∧ s.queues.queue = []
  | .select outcome => s.select ≠ ⟨none, .stopped⟩ ∧
      (s.select = ⟨none, .waiting⟩ → s.queues.queue ≠ []) ∧
      s.MayReturn config s.select.point outcome
  | .dealDelayQueue | .unsetAllMasters => s.relationship = ⟨none, .idle⟩
  | .relationship => s.relationship ≠ ⟨none, .idle⟩
  | .activateServer _ | .deactivateServer _ => True
  | .topology actor => actor ∈ s.topology

instance (action : MasterAction) : Decidable (s.Enabled config action) := by
  unfold Enabled
  cases action <;> infer_instance

/-- The state after a step. -/
def next : MasterAction → MasterState
  | .threadStart => { s with select := ⟨none, .waiting⟩ }
  | .threadStop => { s with select := ⟨none, .stopped⟩ }
  | .select outcome => s.advanceSelect outcome
  -- `common_blocked_queue_try_pop_all_nodes`
  | .dealDelayQueue =>
      { s with
        queues := { s.queues with delayQueue := [] }
        relationship := ⟨none, .deal s.queues.delayQueue⟩ }
  | .unsetAllMasters => { s with relationship := ⟨none, .unset 0⟩ }
  | .relationship => s.advanceRelationship config
  | .activateServer server =>
      { s.setStatus server .active with
        topology := ⟨none, .activate server (config.groupsOf server)⟩ :: s.topology }
  | .deactivateServer server =>
      if s.status server = .active then
        { s.setStatus server .offline with
          topology := ⟨none, .offline server (config.groupsOf server)⟩ :: s.topology }
      else s
  | .topology actor =>
      { (s.advanceTopology actor).1 with
        topology := (s.advanceTopology actor).2.toList ++ s.topology.erase actor }

/-- No thread is in the middle of a call. -/
structure Quiet : Prop where
  select : s.select = ⟨none, .stopped⟩ ∨ s.select = ⟨none, .waiting⟩
  relationship : s.relationship = ⟨none, .idle⟩
  topology : s.topology = []

end MasterState

/-- The steps of the leader's threads. -/
def MasterStep (config : ElectionConfig) : StepRel MasterState MasterAction :=
  StepRel.ofNext (MasterState.Enabled config) (MasterState.next config)

end FastStore.Cluster
