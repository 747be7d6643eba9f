import FastStore.Util.Threads
import FastStore.Cluster.Types

/-!
# Topology events

The leader tells its followers what changes about the data servers.  Whoever changes a data
server queues an event for it, once: a flag says that the event is in the queue, and the
values are read when the event is sent, after the flag has been released.  Followers that
are not active get no events; a follower that joins gets one for every data server.  The
follower takes the parts of a package over one after another, and keeps at most one master
for each group.

One follower is looked at.  The network thread that serves it does one thing at a time, its
point is part of the state; the threads that change data servers come and go.
-/

namespace FastStore.Cluster

open FastStore.Util

/-- The data servers with the groups and servers they belong to, the follower, and
`max_events_per_pkg`. -/
structure TopologyConfig (δ : Type) where
  dataServers : List δ
  complete : ∀ ds, ds ∈ dataServers
  groupOf : δ → Nat
  serverOf : δ → Nat
  follower : Nat
  maxEvents : Nat

/-- The masters of the groups with the flags of the data servers. -/
structure MasterWords (δ : Type) where
  isMaster : δ → Bool
  master : Nat → Option δ

/-- What a server knows about the data servers. -/
structure TopologyWords (δ : Type) where
  status : δ → FSDataServerStatus
  version : δ → Nat
  masters : MasterWords δ

/-- `FSProtoPushDataServerStatusBodyPart`. -/
structure PushBodyPart (δ : Type) where
  ds : δ
  isMaster : Bool
  status : FSDataServerStatus
  version : Nat
  deriving DecidableEq

variable {δ : Type} [DecidableEq δ]

/-! ## The follower -/

namespace MasterWords

variable (config : TopologyConfig δ) (words : MasterWords δ)

/-- The second half of `cluster_process_push_entry`: the flag of the data server, the flag of
the old master and the master of the group. -/
def pushMaster (ds : δ) (isMaster : Bool) : MasterWords δ :=
  if words.isMaster ds = isMaster then words
  else
    let flags := Function.update words.isMaster ds isMaster
    match isMaster, words.master (config.groupOf ds) with
    | true, some old =>
        if old = ds then { words with isMaster := flags }
        else
          ⟨Function.update flags old false,
            Function.update words.master (config.groupOf ds) (some ds)⟩
    | true, none => ⟨flags, Function.update words.master (config.groupOf ds) (some ds)⟩
    | false, some old =>
        if old = ds then ⟨flags, Function.update words.master (config.groupOf ds) none⟩
        else { words with isMaster := flags }
    | false, none => { words with isMaster := flags }

/-- The flag is set for the master of the group and for no other. -/
structure Agree (words : MasterWords δ) : Prop where
  flagged : ∀ ds, words.isMaster ds = true ↔ words.master (config.groupOf ds) = some ds
  member : ∀ group ds, words.master group = some ds → config.groupOf ds = group

end MasterWords

namespace TopologyWords

variable (config : TopologyConfig δ) (words : TopologyWords δ)

/-- The data server of the follower itself in a group. -/
def myself (group : Nat) : Option δ :=
  config.dataServers.find? fun ds => config.serverOf ds = config.follower ∧ config.groupOf ds = group

/-- `cluster_relationship_on_master_change`: only the status of its own data server changes. -/
def onMasterChange (group : Nat) (old new : Option δ) : TopologyWords δ :=
  match myself config group with
  | none => words
  | some own =>
      if new = old then words
      else if new = some own then { words with status := Function.update words.status own .active }
      else if old = some own ∧ words.status own = .active then
        { words with status := Function.update words.status own .offline }
      else words

/-- The first half of `cluster_process_push_entry`: status and version, but for its own data
server only active to offline. -/
def pushStatus (part : PushBodyPart δ) : TopologyWords δ :=
  if config.serverOf part.ds = config.follower then
    if part.status = .offline ∧ words.status part.ds = .active ∧ part.isMaster = false then
      { words with status := Function.update words.status part.ds .offline }
    else words
  else
    { words with
      status := Function.update words.status part.ds part.status
      version := Function.update words.version part.ds part.version }

/-- `cluster_process_push_entry`. -/
def pushEntry (part : PushBodyPart δ) : TopologyWords δ :=
  let group := config.groupOf part.ds
  let masters := words.masters.pushMaster config part.ds part.isMaster
  let old := words.masters.master group
  if masters.master group = old then { words.pushStatus config part with masters := masters }
  else onMasterChange config { words.pushStatus config part with masters := masters } group old
    (masters.master group)

/-- `cluster_process_leader_push`. -/
def leaderPush (parts : List (PushBodyPart δ)) : TopologyWords δ :=
  parts.foldl (fun words part => words.pushEntry config part) words

end TopologyWords

/-! ## The leader -/

/-- The points of the network thread: in `cluster_deal_join_leader` with
`cluster_topology_sync_all_data_servers`, in `cluster_task_finish_cleanup`, and in
`process_notify_events` with the events still to send and the package so far. -/
inductive NetworkPoint (δ : Type) where
  | idle
  | joinStatus
  | sync (todo : List δ)
  | syncPush (ds : δ) (todo : List δ)
  | leaveStatus
  | leaveTask
  | release (ds : δ) (rest : List δ) (package : List (PushBodyPart δ))
  | readIsMaster (ds : δ) (rest : List δ) (package : List (PushBodyPart δ))
  | readStatus (ds : δ) (isMaster : Bool) (rest : List δ) (package : List (PushBodyPart δ))
  | readVersion (ds : δ) (isMaster : Bool) (status : FSDataServerStatus) (rest : List δ)
      (package : List (PushBodyPart δ))
  | pushBack (rest : List δ) (package : List (PushBodyPart δ))
  | flush (package : List (PushBodyPart δ))
  deriving DecidableEq

/-- What the network thread does next when it is idle. -/
inductive NetworkEvent where
  | join
  | leave
  | activate
  | processNotifyEvents
  deriving DecidableEq

/-- The leader with what it keeps for the follower (its server status, whether it has joined,
its events), the packages on their way, and the follower. -/
structure TopologyShared (δ : Type) where
  leader : TopologyWords δ
  follower : TopologyWords δ
  serverStatus : FSServerStatus
  joined : Bool
  inQueue : δ → Bool
  queue : List δ
  packages : List (List (PushBodyPart δ))
  network : NetworkPoint δ

/-- A change of one word of a data server, or a swap of the master of its group. -/
inductive DataServerChange (δ : Type) where
  | status (value : FSDataServerStatus)
  | version (value : Nat)
  | isMaster (value : Bool)
  | swapMaster (old new : Option δ)
  deriving DecidableEq

/-- What a thread has still to do. -/
inductive TopologyFrame (δ : Type) where
  /-- Swap the master of the group of the data server, return when that fails. -/
  | trySwapMaster (ds : δ) (old new : Option δ) (changes : List (DataServerChange δ))
  /-- Change a data server, then notify. -/
  | change (ds : δ) (changes : List (DataServerChange δ))
  -- `cluster_topology_data_server_chg_notify`
  | notifyStatus (ds : δ)
  | notifyTask (ds : δ)
  | notifyFlag (ds : δ)
  | notifyPush (ds : δ)
  -- the network thread, and the thread of the follower
  | network
  | receive
  deriving DecidableEq

namespace TopologyShared

variable (config : TopologyConfig δ) (s : TopologyShared δ)

def setLeader (leader : TopologyWords δ) : TopologyShared δ :=
  { s with leader := leader }

/-- The swap of the master of a group of the leader. -/
def swapMaster (group : Nat) (old new : Option δ) : TopologyShared δ :=
  if s.leader.masters.master group = old then
    s.setLeader { s.leader with
      masters := { s.leader.masters with
        master := Function.update s.leader.masters.master group new } }
  else s

/-- One change of the leader's words. -/
def applyChange (ds : δ) : DataServerChange δ → TopologyShared δ
  | .status value =>
      s.setLeader { s.leader with status := Function.update s.leader.status ds value }
  | .version value =>
      s.setLeader { s.leader with version := Function.update s.leader.version ds value }
  | .isMaster value =>
      s.setLeader { s.leader with
        masters := { s.leader.masters with
          isMaster := Function.update s.leader.masters.isMaster ds value } }
  | .swapMaster old new => s.swapMaster (config.groupOf ds) old new

/-- The loop of `process_notify_events` behind a finished part: the package is sent when all
events are in it or it is full. -/
def sendNext (rest : List δ) (package : List (PushBodyPart δ)) : NetworkPoint δ :=
  match rest with
  | [] => .flush package
  | ds :: later =>
      if package.length = config.maxEvents then .pushBack rest package
      else .release ds later package

/-- The next step of the network thread. -/
def advanceNetwork (event : NetworkEvent) : TopologyShared δ :=
  match s.network with
  | .idle =>
      match event with
      -- packages of an earlier connection are lost by now
      | .join => { s with joined := true, packages := [], network := .joinStatus }
      | .leave => { s with network := .leaveStatus }
      | .activate => { s with serverStatus := .active }
      | .processNotifyEvents =>
          match s.queue with
          | [] => s
          | ds :: rest => { s with queue := [], network := .release ds rest [] }
  | .joinStatus =>
      { s with
        serverStatus := if s.serverStatus = .active then .offline else s.serverStatus
        network := .sync config.dataServers }
  | .sync [] => { s with network := .idle }
  | .sync (ds :: todo) =>
      if s.inQueue ds = true then { s with network := .sync todo }
      else
        { s with
          inQueue := Function.update s.inQueue ds true
          network := .syncPush ds todo }
  | .syncPush ds todo => { s with queue := s.queue ++ [ds], network := .sync todo }
  | .leaveStatus =>
      { s with
        serverStatus := if s.serverStatus = .active then .offline else s.serverStatus
        network := .leaveTask }
  | .leaveTask => { s with joined := false, network := .idle }
  | .release ds rest package =>
      { s with
        inQueue := Function.update s.inQueue ds false
        network := .readIsMaster ds rest package }
  | .readIsMaster ds rest package =>
      { s with network := .readStatus ds (s.leader.masters.isMaster ds) rest package }
  | .readStatus ds isMaster rest package =>
      { s with network := .readVersion ds isMaster (s.leader.status ds) rest package }
  | .readVersion ds isMaster status rest package =>
      { s with
        network := sendNext config rest
          (package ++ [⟨ds, isMaster, status, s.leader.version ds⟩]) }
  | .pushBack rest package =>
      { s with queue := rest ++ s.queue, network := .flush package }
  | .flush package => { s with packages := s.packages ++ [package], network := .idle }

/-- The follower takes over the next package. -/
def receive : TopologyShared δ :=
  match s.packages with
  | [] => s
  | package :: later =>
      { s with follower := s.follower.leaderPush config package, packages := later }

/-- One atomic operation, and what follows it. -/
def exec (event : NetworkEvent) : TopologyFrame δ → TopologyShared δ × List (TopologyFrame δ)
  | .trySwapMaster ds old new changes =>
      if s.leader.masters.master (config.groupOf ds) = old then
        (s.swapMaster (config.groupOf ds) old new, [.change ds changes])
      else (s, [])
  | .change ds [] => (s, [.notifyStatus ds])
  | .change ds (change :: changes) => (s.applyChange config ds change, [.change ds changes])
  | .notifyStatus ds => (s, if s.serverStatus = .active then [.notifyTask ds] else [])
  | .notifyTask ds => (s, if s.joined = true then [.notifyFlag ds] else [])
  | .notifyFlag ds =>
      if s.inQueue ds = true then (s, [])
      else ({ s with inQueue := Function.update s.inQueue ds true }, [.notifyPush ds])
  | .notifyPush ds => ({ s with queue := s.queue ++ [ds] }, [])
  | .network => (s.advanceNetwork config event, [.network])
  | .receive => (s.receive config, [.receive])

/-- When an operation can be executed. -/
def Enabled (event : NetworkEvent) : TopologyFrame δ → Prop
  | .network =>
      s.network = .idle →
        match event with
        | .join => s.joined = false
        | .leave | .activate => s.joined = true
        | .processNotifyEvents => s.joined = true ∧ s.serverStatus = .active
  | .receive => s.packages ≠ []
  | _ => True

instance (event : NetworkEvent) (frame : TopologyFrame δ) : Decidable (s.Enabled event frame) := by
  unfold Enabled
  split
  · cases event <;> infer_instance
  · infer_instance
  · infer_instance

end TopologyShared

/-- A thread that changes a data server and notifies. -/
def TopologyStarts : List (TopologyFrame δ) → Prop
  | [.trySwapMaster _ _ _ _] | [.change _ _] => True
  | _ => False

instance : DecidablePred (TopologyStarts (δ := δ)) := by
  intro stack
  unfold TopologyStarts
  split <;> infer_instance

/-- The program of the leader and one follower. -/
def topologyProgram (config : TopologyConfig δ) :
    Program (TopologyShared δ) (TopologyFrame δ) NetworkEvent where
  Starts := TopologyStarts
  Enabled := fun s frame event => s.Enabled event frame
  exec := fun s frame event => s.exec config event frame

instance (config : TopologyConfig δ) : DecidablePred (topologyProgram config).Starts :=
  inferInstanceAs (DecidablePred TopologyStarts)

instance (config : TopologyConfig δ) (s : TopologyShared δ) (frame : TopologyFrame δ)
    (event : NetworkEvent) : Decidable ((topologyProgram config).Enabled s frame event) :=
  inferInstanceAs (Decidable (s.Enabled event frame))

end FastStore.Cluster
