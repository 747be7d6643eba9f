import FastStore.Server.DataUpdate
import FastStore.Util.System

/-!
# Going online

A slave that recovers catches up with the log of its master, goes online, replays the log up
to the data version that the master had then, and becomes active; from there on it gets the
updates by RPC.  The master pushes RPCs as soon as it sees the slave online, so they reach the
slave before it is active, and wait there.  `data_recovery_start` sets `rpc_last_version` only
after the slave has become active.
-/

namespace FastStore.Replication

open FastStore.Util FastStore.Cluster FastStore.Server

/-- The update of each data version, as the master has accepted it from a client. -/
structure UpdateLog where
  part : Nat → FSProtoReplicaRPCReqBodyPart
  dataVersion : ∀ version, (part version).dataVersion = version
  wellFormed : ∀ version, (part version).checkSlice = .ok

/-- Where the data thread of the master is. -/
inductive MasterPoint where
  | idle
  /-- The update has its data version. -/
  | assigned
  /-- The slave has been visited by `push_to_slave_queues`. -/
  | visited
  deriving DecidableEq, Repr

/-- How far the recovery is. -/
inductive HandoffPoint where
  /-- The slave follows the log and is not online yet. -/
  | catchingUp
  /-- `check_online_me` has cleared `until_version`. -/
  | cleared
  /-- The slave is online and asks the master for the last batch. -/
  | asking
  /-- `replica_deal_fetch_binlog_first` has seen or set the slave online. -/
  | seen
  /-- It has read `until_version`. -/
  | answered (untilVersion : Nat)
  /-- The slave knows `until_version` and replays. -/
  | replaying (untilVersion : Nat)
  /-- `active_me` has made the slave active. -/
  | activated (untilVersion : Nat)
  /-- `data_recovery_start` has set `rpc_last_version`. -/
  | stored
  /-- `in_progress` is down. -/
  | finished
  deriving DecidableEq, Repr

/-- How an update has come to the slave. -/
inductive AppliedBy where
  | replay
  | rpc
  deriving DecidableEq, Repr

/-- Master and slave of one data group. -/
structure HandoffState where
  /-- `data.version` of the master. -/
  version : Nat
  /-- The last data version in the log of the master. -/
  logged : Nat
  /-- The status of the slave, as the master knows it. -/
  view : FSDataServerStatus
  master : MasterPoint
  /-- The RPCs on their way, in order. -/
  channel : List Nat
  words : DataServerWords
  recovery : HandoffPoint
  /-- The RPC that the slave deals with. -/
  current : Option (Nat × UpdatePoint)
  /-- The updates replayed or accepted since the start of the recovery, in order. -/
  applied : List (Nat × AppliedBy)
  /-- The RPCs that were answered with an error. -/
  rejected : List Nat
  deriving DecidableEq, Repr

inductive HandoffAction where
  | assign
  | log
  | visit
  | finish
  /-- The leader tells the master that the slave is online or active. -/
  | report (status : FSDataServerStatus)
  /-- The next step of the recovery, with the two of the master in between. -/
  | recover
  /-- The recovery applies the next record of the log. -/
  | replay
  /-- The slave takes the next RPC from the connection. -/
  | receive
  /-- The next step for the RPC that the slave deals with. -/
  | handle
  deriving DecidableEq, Repr

/-- The master pushes RPCs to the slave. -/
def Pushes (status : FSDataServerStatus) : Prop := status = .online ∨ status = .active

instance (status : FSDataServerStatus) : Decidable (Pushes status) :=
  inferInstanceAs (Decidable (_ ∨ _))

namespace HandoffState

variable (log : UpdateLog) (base : Nat) (s : HandoffState)

/-- The last data version that the slave has. -/
def progress : Nat := base + s.applied.length

/-- `push_to_slave_queues` for the one slave; an online slave has the update logged first. -/
def visit : HandoffState :=
  { s with
    master := .visited
    logged := if s.view = .online then s.version else s.logged
    channel := if Pushes s.view then s.channel ++ [s.version] else s.channel }

/-- The steps of the recovery. -/
def recover : HandoffState :=
  match s.recovery with
  | .catchingUp =>
      { s with
        words := { s.words with untilVersion := 0 }
        recovery := .cleared }
  | .cleared =>
      { s with
        words := { s.words with status := .online }
        recovery := .asking }
  | .asking =>
      { s with
        view := if Pushes s.view then s.view else .online
        recovery := .seen }
  | .seen => { s with recovery := .answered s.version }
  | .answered untilVersion =>
      { s with
        words := { s.words with untilVersion := untilVersion }
        recovery := .replaying untilVersion }
  | .replaying untilVersion =>
      { s with
        words := { s.words with status := .active }
        recovery := .activated untilVersion }
  | .activated untilVersion =>
      { s with
        words := { s.words with rpcLastVersion := untilVersion }
        recovery := .stored }
  | .stored =>
      { s with
        words := { s.words with inProgress := false }
        recovery := .finished }
  | .finished => s

/-- A step for the RPC that the slave deals with; it has accepted the update when it increases
`rpc_last_version`. -/
def handle : HandoffState :=
  match s.current with
  | none => s
  | some (_, .returned .ok _) | some (_, .returned .taskStatusContinue _) =>
      { s with current := none }
  | some (version, .returned _ _) =>
      { s with
        current := none
        rejected := version :: s.rejected }
  | some (version, point) =>
      { s with
        words := point.nextWords s.words
        current := some (version, point.next s.words true (log.part version))
        applied := if point = .accept then s.applied ++ [(version, .rpc)] else s.applied }

/-- The recovery has a record to apply. -/
def Replays : HandoffPoint → Prop
  | .catchingUp => s.progress base < s.logged
  | .replaying untilVersion => s.progress base < untilVersion ∧ s.progress base < s.logged
  | _ => False

instance (point : HandoffPoint) : Decidable (s.Replays base point) := by
  cases point <;> unfold Replays <;> infer_instance

/-- The recovery has a step to make. -/
def Recovers : HandoffPoint → Prop
  | .replaying untilVersion => s.progress base = untilVersion
  | .finished => False
  | _ => True

instance (point : HandoffPoint) : Decidable (s.Recovers base point) := by
  cases point <;> unfold Recovers <;> infer_instance

/-- The slave deals with an RPC, which does not wait. -/
def Handles : Option (Nat × UpdatePoint) → Prop
  | none => False
  | some (_, point) => ¬ point.Blocked s.words true

instance (current : Option (Nat × UpdatePoint)) : Decidable (s.Handles current) := by
  cases current <;> unfold Handles <;> infer_instance

def Enabled : HandoffAction → Prop
  | .assign => s.master = .idle
  | .log => s.logged < s.version
  | .visit => s.master = .assigned
  | .finish => s.master = .visited
  | .report status =>
      status = .online ∧ (s.words.status = .online ∨ s.words.status = .active) ∨
        status = .active ∧ s.words.status = .active
  | .recover => s.Recovers base s.recovery
  | .replay => s.Replays base s.recovery
  | .receive => s.current = none ∧ s.channel ≠ []
  | .handle => s.Handles s.current

instance (action : HandoffAction) : Decidable (s.Enabled base action) := by
  cases action <;> unfold Enabled <;> infer_instance

def next : HandoffAction → HandoffState
  | .assign =>
      { s with
        version := s.version + 1
        master := .assigned }
  | .log => { s with logged := s.version }
  | .visit => s.visit
  | .finish =>
      { s with
        master := .idle
        logged := s.version }
  | .report status => { s with view := status }
  | .recover => s.recover
  | .replay => { s with applied := s.applied ++ [(s.progress base + 1, .replay)] }
  | .receive =>
      { s with
        current := s.channel.head?.map fun version => (version, .check .readStatus)
        channel := s.channel.tail }
  | .handle => s.handle log

/-- The master has no update under way, and nothing is on its way to the slave. -/
def Drained : Prop :=
  s.master = .idle ∧ s.channel = [] ∧ s.current = none ∧ s.recovery = .finished

instance : Decidable s.Drained :=
  inferInstanceAs (Decidable (_ ∧ _ ∧ _ ∧ _))

/-- The slave knows up to which data version it replays. -/
def UntilKnown : HandoffPoint → Prop
  | .replaying _ | .activated _ | .stored | .finished => True
  | _ => False

instance (point : HandoffPoint) : Decidable (UntilKnown point) := by
  cases point <;> unfold UntilKnown <;> infer_instance

/-- The slave is active and its `rpc_last_version` is still that of the time before. -/
def InWindow : HandoffPoint → Prop
  | .activated _ => True
  | _ => False

instance (point : HandoffPoint) : Decidable (InWindow point) := by
  cases point <;> unfold InWindow <;> infer_instance

/-- Every update behind `base` has come to the slave once and in order, by replay up to
`until_version` and by RPC behind it, and none was rejected. -/
structure HandedOff : Prop where
  applied : s.applied.map Prod.fst = List.range' (base + 1) s.applied.length
  bySource : UntilKnown s.recovery → ∀ update ∈ s.applied,
    (update.2 = .replay ↔ update.1 ≤ s.words.untilVersion)
  rejected : s.rejected = []
  complete : s.Drained → s.progress base = s.version
  moves : ¬ s.Drained → ∃ action ∈ [HandoffAction.log, .visit, .finish, .recover, .replay, .receive,
    .handle], s.Enabled base action
  versionKept : s.words.status = .active → ¬ InWindow s.recovery →
    s.words.rpcLastVersion = s.progress base

/-- `rpc_last_version` is the number of the last update while the slave is active. -/
def VersionKept : Prop :=
  s.words.status = .active → s.words.rpcLastVersion = s.progress base

/-- No RPC reads `rpc_last_version` between the moment the slave becomes active and the one at
which `data_recovery_start` sets it. -/
def Regular : HandoffAction → Prop
  | .handle => s.current.map Prod.snd = some .version → ¬ InWindow s.recovery
  | _ => True

instance (action : HandoffAction) : Decidable (s.Regular action) := by
  cases action <;> unfold Regular <;> infer_instance

/-- The slave does not become active, or `rpc_last_version` is right already. -/
def Ready : HandoffPoint → Prop
  | .replaying untilVersion => s.words.rpcLastVersion = untilVersion
  | _ => True

instance (point : HandoffPoint) : Decidable (s.Ready point) := by
  cases point <;> unfold Ready <;> infer_instance

/-- A regular step; and the slave becomes active only when `rpc_last_version` is right
already. -/
def Prepared (action : HandoffAction) : Prop :=
  s.Regular action ∧ (action = .recover → s.Ready s.recovery)

instance (action : HandoffAction) : Decidable (s.Prepared action) :=
  inferInstanceAs (Decidable (_ ∧ (_ → _)))

/-- What the data thread of the master has logged. -/
def MasterFits : MasterPoint → Prop
  | .idle => s.logged = s.version
  | .assigned | .visited => s.logged ≤ s.version ∧ s.version ≤ s.logged + 1 ∧ 0 < s.version

end HandoffState

/-- A slave with the data version `base` starts to recover. -/
structure HandoffInit (base : Nat) (s : HandoffState) : Prop where
  base : base ≤ s.version
  master : s.MasterFits s.master
  view : ¬ Pushes s.view
  status : ¬ Pushes s.words.status
  inProgress : s.words.inProgress = true
  recovery : s.recovery = .catchingUp
  empty : s.channel = [] ∧ s.current = none ∧ s.applied = [] ∧ s.rejected = []

def HandoffStep (log : UpdateLog) (base : Nat) : StepRel HandoffState HandoffAction :=
  StepRel.ofNext (HandoffState.Enabled base) (HandoffState.next log base)

/-! ## The invariant -/

namespace HandoffState

variable {log : UpdateLog} {base : Nat} {s : HandoffState}

/-- The last update for which the slave has been visited. -/
def visitedUpTo (s : HandoffState) : Nat :=
  if s.master = .assigned then s.version - 1 else s.version

/-- The RPCs that the slave has not finished. -/
def inFlight (s : HandoffState) : List Nat :=
  (s.current.map Prod.fst).toList ++ s.channel

/-- `active_me` is done. -/
def IsActive : HandoffPoint → Prop
  | .activated _ | .stored | .finished => True
  | _ => False

/-- `rpc_last_version` is set. -/
def IsStored : HandoffPoint → Prop
  | .stored | .finished => True
  | _ => False

/-- Which RPC the slave finishes next, at most. -/
def FirstFits (base : Nat) (s : HandoffState) (first : Nat) : HandoffPoint → Prop
  | .catchingUp | .cleared => s.inFlight = []
  | .asking | .seen => True
  | .answered untilVersion | .replaying untilVersion | .activated untilVersion =>
      first ≤ untilVersion + 1
  | .stored | .finished => first ≤ s.progress base + 1

/-- The RPCs in flight are those from `first` up to the last for which the slave was visited. -/
structure Flight (base : Nat) (s : HandoffState) (first : Nat) : Prop where
  consecutive : s.inFlight = List.range' first s.inFlight.length
  last : first + s.inFlight.length = s.visitedUpTo + 1
  silent : ¬ Pushes s.view → s.inFlight = []
  first : s.FirstFits base first s.recovery

/-- The words and the progress of the slave at each point of the recovery. -/
def StageFits (base : Nat) (s : HandoffState) : HandoffPoint → Prop
  | .catchingUp =>
      ¬ Pushes s.words.status ∧ s.words.inProgress = true ∧ s.progress base ≤ s.version ∧
        ¬ Pushes s.view
  | .cleared =>
      ¬ Pushes s.words.status ∧ s.words.inProgress = true ∧ s.progress base ≤ s.version ∧
        ¬ Pushes s.view ∧ s.words.untilVersion = 0
  | .asking =>
      s.words.status = .online ∧ s.words.inProgress = true ∧ s.progress base ≤ s.version ∧
        s.words.untilVersion = 0
  | .seen =>
      s.words.status = .online ∧ s.words.inProgress = true ∧ s.progress base ≤ s.version ∧
        s.words.untilVersion = 0 ∧ Pushes s.view
  | .answered untilVersion =>
      s.words.status = .online ∧ s.words.inProgress = true ∧ s.progress base ≤ untilVersion ∧
        untilVersion ≤ s.version ∧ s.words.untilVersion = 0 ∧ Pushes s.view
  | .replaying untilVersion =>
      s.words.status = .online ∧ s.words.inProgress = true ∧ s.progress base ≤ untilVersion ∧
        untilVersion ≤ s.version ∧ s.words.untilVersion = untilVersion ∧ Pushes s.view
  | .activated untilVersion =>
      s.words.status = .active ∧ s.words.inProgress = true ∧ s.progress base = untilVersion ∧
        untilVersion ≤ s.version ∧ s.words.untilVersion = untilVersion ∧ Pushes s.view
  | .stored =>
      s.words.status = .active ∧ s.words.inProgress = true ∧
        s.words.rpcLastVersion = s.progress base ∧ s.progress base ≤ s.version ∧
        s.words.untilVersion ≤ s.progress base ∧ Pushes s.view
  | .finished =>
      s.words.status = .active ∧ s.words.inProgress = false ∧
        s.words.rpcLastVersion = s.progress base ∧ s.progress base ≤ s.version ∧
        s.words.untilVersion ≤ s.progress base ∧ Pushes s.view

/-- Where the slave can be with an RPC. -/
def PointFits (base : Nat) (s : HandoffState) (version : Nat) : UpdatePoint → Prop
  | .check (.loop status) => status = .online ∨ status = .active ∧ IsActive s.recovery
  | .check .reread => s.recovery = .finished
  | .check (.left status dealDone) =>
      status = .active ∧ dealDone = false ∧ IsActive s.recovery ∨
        status = .online ∧ dealDone = true ∧ UntilKnown s.recovery ∧
          version ≤ s.words.untilVersion
  | .check _ => True
  | .version => IsActive s.recovery
  | .accept => IsStored s.recovery ∧ version = s.progress base + 1
  | .push => IsStored s.recovery ∧ version = s.progress base
  | .returned .ok true => UntilKnown s.recovery ∧ version ≤ s.words.untilVersion
  | .returned .ok false => IsStored s.recovery ∧ version ≤ s.progress base
  | .returned .taskStatusContinue _ => IsStored s.recovery ∧ version = s.progress base
  | .returned _ _ => False

structure Sound (base : Nat) (s : HandoffState) : Prop where
  applied : s.applied.map Prod.fst = List.range' (base + 1) s.applied.length
  bySource : UntilKnown s.recovery → ∀ update ∈ s.applied,
    (update.2 = .replay ↔ update.1 ≤ s.words.untilVersion)
  unaccepted : ¬ UntilKnown s.recovery → ∀ update ∈ s.applied, update.2 = .replay
  rejected : s.rejected = []
  master : s.MasterFits s.master
  flight : ∃ first, s.Flight base first
  stage : s.StageFits base s.recovery
  point : ∀ version point, s.current = some (version, point) → s.PointFits base version point

theorem sound_of_init (init : HandoffInit base s) : s.Sound base := by
  obtain ⟨channel, current, applied, rejected⟩ := init.empty
  have none : s.inFlight = [] := by
    rw [inFlight, current, channel]
    rfl
  have start : s.progress base = base := by
    rw [progress, applied]
    rfl
  refine ⟨?_, ?_, ?_, rejected, init.master, ⟨s.visitedUpTo + 1, ?_, ?_, fun _ => none, ?_⟩, ?_, ?_⟩
  · rw [applied]
    rfl
  · rw [applied]
    nofun
  · rw [applied]
    nofun
  · rw [none]
    rfl
  · rw [none]
    rfl
  · rw [init.recovery]
    exact none
  · rw [init.recovery]
    exact ⟨init.status, init.inProgress, start.symm ▸ init.base, init.view⟩
  · intro version point isCurrent
    rw [current] at isCurrent
    cases isCurrent

/-! ## The master -/

/-- The stage of the recovery does not look at the log, and allows new updates. -/
theorem StageFits.of_master {after : HandoffState} {point : HandoffPoint}
    (fits : s.StageFits base point) (words : after.words = s.words)
    (applied : after.applied = s.applied) (grows : s.version ≤ after.version)
    (view : Pushes after.view ↔ Pushes s.view) : after.StageFits base point := by
  have progress : after.progress base = s.progress base := by
    rw [HandoffState.progress, HandoffState.progress, applied]
  cases point with
  | catchingUp | cleared | asking | seen | answered | replaying | activated | stored | finished =>
      unfold StageFits at fits ⊢
      rw [words, progress, view]
      grind

theorem pointFits_congr {after : HandoffState} {version : Nat} {point : UpdatePoint}
    (recovery : after.recovery = s.recovery) (words : after.words = s.words)
    (applied : after.applied = s.applied) :
    after.PointFits base version point ↔ s.PointFits base version point := by
  obtain ⟨_, _, _, _, _, _, _, _, _, _⟩ := s
  obtain ⟨_, _, _, _, _, _, _, _, _, _⟩ := after
  cases recovery
  cases words
  cases applied
  exact Iff.rfl

/-- A step of the master: the slave is as it was. -/
theorem Sound.of_master (sound : s.Sound base) {after : HandoffState}
    (words : after.words = s.words) (recovery : after.recovery = s.recovery)
    (current : after.current = s.current) (applied : after.applied = s.applied)
    (rejected : after.rejected = s.rejected) (grows : s.version ≤ after.version)
    (view : Pushes after.view ↔ Pushes s.view) (master : after.MasterFits after.master)
    (flight : ∃ first, after.Flight base first) : after.Sound base := by
  refine ⟨?_, ?_, ?_, rejected.trans sound.rejected, master, flight, ?_, ?_⟩
  · rw [applied]
    exact sound.applied
  · rw [recovery, applied, words]
    exact sound.bySource
  · rw [recovery, applied]
    exact sound.unaccepted
  · rw [recovery]
    exact sound.stage.of_master words applied grows view
  · intro version point isCurrent
    rw [current] at isCurrent
    exact (pointFits_congr recovery words applied).mpr (sound.point version point isCurrent)

/-- The same RPCs are in flight. -/
theorem Flight.congr {first : Nat} (flight : s.Flight base first) {after : HandoffState}
    (inFlight : after.inFlight = s.inFlight) (visited : after.visitedUpTo = s.visitedUpTo)
    (view : Pushes s.view → Pushes after.view) (applied : after.applied = s.applied)
    (recovery : after.recovery = s.recovery) : after.Flight base first := by
  refine ⟨?_, ?_, ?_, ?_⟩
  · rw [inFlight]
    exact flight.consecutive
  · rw [inFlight, visited]
    exact flight.last
  · intro silent
    rw [inFlight]
    exact flight.silent (mt view silent)
  · have fits := flight.first
    rw [recovery]
    unfold FirstFits progress at fits ⊢
    rw [inFlight, applied]
    exact fits

theorem Sound.assign (sound : s.Sound base) (enabled : s.Enabled base .assign) :
    (s.next log base .assign).Sound base := by
  have idle : s.master = .idle := enabled
  have logged : s.logged = s.version := by
    have master := sound.master
    rwa [idle] at master
  obtain ⟨first, flight⟩ := sound.flight
  refine sound.of_master rfl rfl rfl rfl rfl (Nat.le_succ _) Iff.rfl ?_
    ⟨first, flight.congr rfl ?_ id rfl rfl⟩
  · show s.logged ≤ s.version + 1 ∧ s.version + 1 ≤ s.logged + 1 ∧ 0 < s.version + 1
    omega
  · unfold visitedUpTo
    rw [idle]
    rfl

theorem Sound.writeLog (sound : s.Sound base) (enabled : s.Enabled base .log) :
    (s.next log base .log).Sound base := by
  have behind : s.logged < s.version := enabled
  obtain ⟨first, flight⟩ := sound.flight
  refine sound.of_master rfl rfl rfl rfl rfl le_rfl Iff.rfl ?_ ⟨first, flight.congr rfl rfl id rfl rfl⟩
  show MasterFits _ s.master
  cases s.master with
  | idle => exact rfl
  | assigned | visited =>
      show s.version ≤ s.version ∧ s.version ≤ s.version + 1 ∧ 0 < s.version
      omega

theorem Sound.finish (sound : s.Sound base) (enabled : s.Enabled base .finish) :
    (s.next log base .finish).Sound base := by
  have visited : s.master = .visited := enabled
  obtain ⟨first, flight⟩ := sound.flight
  refine sound.of_master rfl rfl rfl rfl rfl le_rfl Iff.rfl rfl ⟨first, flight.congr rfl ?_ id rfl rfl⟩
  unfold visitedUpTo
  rw [visited]
  rfl

/-- The RPC for the update is the next one, when the master pushes. -/
theorem Sound.visit (sound : s.Sound base) (enabled : s.Enabled base .visit) :
    (s.next log base .visit).Sound base := by
  have assigned : s.master = .assigned := enabled
  obtain ⟨first, flight⟩ := sound.flight
  obtain ⟨behind, near, positive⟩ : s.logged ≤ s.version ∧ s.version ≤ s.logged + 1 ∧
      0 < s.version := by
    have master := sound.master
    rwa [assigned] at master
  have visitedBefore : s.visitedUpTo = s.version - 1 := if_pos assigned
  have last := flight.last
  have master : (s.next log base .visit).MasterFits .visited := by
    show (if s.view = .online then s.version else s.logged) ≤ s.version ∧
      s.version ≤ (if s.view = .online then s.version else s.logged) + 1 ∧ 0 < s.version
    split_ifs <;> omega
  by_cases pushes : Pushes s.view
  · have inFlight : (s.next log base .visit).inFlight = s.inFlight ++ [s.version] := by
      show (s.current.map Prod.fst).toList ++ (if Pushes s.view then _ else _) = _
      rw [if_pos pushes, HandoffState.inFlight, List.append_assoc]
    have pushed : first + s.inFlight.length = s.version := by omega
    refine sound.of_master rfl rfl rfl rfl rfl le_rfl Iff.rfl master ⟨first, ?_, ?_,
      fun silent => absurd pushes silent, ?_⟩
    · rw [inFlight, List.length_append, List.length_singleton, List.range'_concat, Nat.one_mul,
        pushed, ← flight.consecutive]
    · rw [inFlight, List.length_append, List.length_singleton]
      show first + (s.inFlight.length + 1) = s.version + 1
      omega
    · have fits := flight.first
      have stage := sound.stage
      show FirstFits base _ first s.recovery
      cases recovery : s.recovery with
      | catchingUp =>
          rw [recovery] at stage
          exact absurd pushes stage.2.2.2
      | cleared =>
          rw [recovery] at stage
          exact absurd pushes stage.2.2.2.1
      | asking | seen => trivial
      | answered | replaying | activated | stored | finished =>
          rw [recovery] at fits
          exact fits
  · have empty := flight.silent pushes
    have inFlight : (s.next log base .visit).inFlight = [] := by
      show (s.current.map Prod.fst).toList ++ (if Pushes s.view then _ else _) = _
      rw [if_neg pushes]
      exact empty
    refine sound.of_master rfl rfl rfl rfl rfl le_rfl Iff.rfl master ⟨s.version + 1, ?_, ?_,
      fun _ => inFlight, ?_⟩
    · rw [inFlight]
      rfl
    · rw [inFlight]
      rfl
    · have stage := sound.stage
      show FirstFits base _ (s.version + 1) s.recovery
      cases recovery : s.recovery with
      | catchingUp | cleared => exact inFlight
      | asking => trivial
      | seen =>
          rw [recovery] at stage
          exact absurd stage.2.2.2.2 pushes
      | answered | replaying | activated | stored | finished =>
          rw [recovery] at stage
          exact absurd stage.2.2.2.2.2 pushes

theorem Sound.report (sound : s.Sound base) {status : FSDataServerStatus}
    (enabled : s.Enabled base (.report status)) : (s.next log base (.report status)).Sound base := by
  have pushes : Pushes status := by
    rcases enabled with ⟨online, -⟩ | ⟨active, -⟩
    · exact Or.inl online
    · exact Or.inr active
  have visible : Pushes s.words.status := by
    rcases enabled with ⟨-, visible⟩ | ⟨-, active⟩
    · exact visible
    · exact Or.inr active
  obtain ⟨first, flight⟩ := sound.flight
  refine ⟨sound.applied, sound.bySource, sound.unaccepted, sound.rejected, sound.master,
    ⟨first, flight.consecutive, flight.last, fun silent => absurd pushes silent, flight.first⟩, ?_,
    sound.point⟩
  have stage := sound.stage
  show StageFits base _ s.recovery
  cases recovery : s.recovery with
  | catchingUp | cleared =>
      rw [recovery] at stage
      exact absurd visible stage.1
  | asking =>
      rw [recovery] at stage
      exact stage
  | seen =>
      rw [recovery] at stage
      exact ⟨stage.1, stage.2.1, stage.2.2.1, stage.2.2.2.1, pushes⟩
  | answered | replaying | activated | stored | finished =>
      rw [recovery] at stage
      exact ⟨stage.1, stage.2.1, stage.2.2.1, stage.2.2.2.1, stage.2.2.2.2.1, pushes⟩

/-! ## The recovery -/

/-- A later point of the recovery. -/
structure Advances (before after : HandoffPoint) : Prop where
  active : IsActive before → IsActive after
  stored : IsStored before → IsStored after
  known : UntilKnown before → UntilKnown after
  finished : before ≠ .finished

/-- The RPC of the slave stays where it is while the recovery goes on. -/
theorem PointFits.advance {after : HandoffState} {version : Nat} {point : UpdatePoint}
    (fits : s.PointFits base version point) (advances : Advances s.recovery after.recovery)
    (applied : after.applied = s.applied)
    (untilVersion : UntilKnown s.recovery → after.words.untilVersion = s.words.untilVersion) :
    after.PointFits base version point := by
  have progress : after.progress base = s.progress base := by
    rw [HandoffState.progress, HandoffState.progress, applied]
  cases point with
  | check inner =>
      cases inner with
      | loop status =>
          rcases fits with online | ⟨active, isActive⟩
          · exact Or.inl online
          · exact Or.inr ⟨active, advances.active isActive⟩
      | reread => exact absurd fits advances.finished
      | left status dealDone =>
          rcases fits with ⟨active, undone, isActive⟩ | ⟨online, done, known, le⟩
          · exact Or.inl ⟨active, undone, advances.active isActive⟩
          · exact Or.inr ⟨online, done, advances.known known, (untilVersion known).symm ▸ le⟩
      | readStatus | online | readUntil | waiting => trivial
  | version => exact advances.active fits
  | accept => exact ⟨advances.stored fits.1, progress.symm ▸ fits.2⟩
  | push => exact ⟨advances.stored fits.1, progress.symm ▸ fits.2⟩
  | returned result dealDone =>
      cases result with
      | ok =>
          cases dealDone with
          | true => exact ⟨advances.known fits.1, (untilVersion fits.1).symm ▸ fits.2⟩
          | false => exact ⟨advances.stored fits.1, progress.symm ▸ fits.2⟩
      | taskStatusContinue => exact ⟨advances.stored fits.1, progress.symm ▸ fits.2⟩
      | einval | enoent | enomem | notActive => exact fits

/-- A step of the recovery that replays nothing. -/
theorem Sound.of_recovery (sound : s.Sound base) {after : HandoffState}
    (advances : Advances s.recovery after.recovery)
    (untilVersion : UntilKnown s.recovery → after.words.untilVersion = s.words.untilVersion)
    (learns : UntilKnown after.recovery → ¬ UntilKnown s.recovery →
      s.progress base ≤ after.words.untilVersion)
    (version : after.version = s.version) (logged : after.logged = s.logged)
    (master : after.master = s.master) (channel : after.channel = s.channel)
    (current : after.current = s.current) (applied : after.applied = s.applied)
    (rejected : after.rejected = s.rejected) (view : Pushes s.view → Pushes after.view)
    (first : ∀ first, s.Flight base first → after.FirstFits base first after.recovery)
    (stage : after.StageFits base after.recovery) : after.Sound base := by
  have inFlight : after.inFlight = s.inFlight := by
    rw [HandoffState.inFlight, HandoffState.inFlight, current, channel]
  have visited : after.visitedUpTo = s.visitedUpTo := by
    rw [visitedUpTo, visitedUpTo, master, version]
  refine ⟨?_, ?_, ?_, rejected.trans sound.rejected, ?_, ?_, stage, ?_⟩
  · rw [applied]
    exact sound.applied
  · intro known update member
    rw [applied] at member
    by_cases before : UntilKnown s.recovery
    · rw [untilVersion before]
      exact sound.bySource before update member
    · have small : update.1 ≤ s.progress base := by
        have inRange : update.1 ∈ s.applied.map Prod.fst := List.mem_map_of_mem member
        rw [sound.applied, List.mem_range'_1] at inRange
        unfold HandoffState.progress
        omega
      exact ⟨fun _ => small.trans (learns known before), fun _ => sound.unaccepted before update member⟩
  · intro unknown
    rw [applied]
    exact sound.unaccepted fun known => unknown (advances.known known)
  · have fits := sound.master
    unfold MasterFits at fits ⊢
    rw [master, logged, version]
    exact fits
  · obtain ⟨begins, flight⟩ := sound.flight
    refine ⟨begins, ?_, ?_, ?_, first begins flight⟩
    · rw [inFlight]
      exact flight.consecutive
    · rw [inFlight, visited]
      exact flight.last
    · intro silent
      rw [inFlight]
      exact flight.silent (mt view silent)
  · intro version point isCurrent
    rw [current] at isCurrent
    exact (sound.point version point isCurrent).advance advances applied untilVersion

theorem Sound.recover (sound : s.Sound base) (enabled : s.Enabled base .recover) :
    (s.next log base .recover).Sound base := by
  have stage := sound.stage
  have can : s.Recovers base s.recovery := enabled
  show s.recover.Sound base
  unfold HandoffState.recover
  cases recovery : s.recovery with
  | catchingUp =>
      rw [recovery] at stage
      refine sound.of_recovery ?_ ?_ nofun rfl rfl rfl rfl rfl rfl rfl id ?_ ?_
      · rw [recovery]
        exact ⟨nofun, nofun, nofun, nofun⟩
      · rw [recovery]
        nofun
      · intro first flight
        have fits := flight.first
        rw [recovery] at fits
        exact fits
      · exact ⟨stage.1, stage.2.1, stage.2.2.1, stage.2.2.2, rfl⟩
  | cleared =>
      rw [recovery] at stage
      refine sound.of_recovery ?_ ?_ nofun rfl rfl rfl rfl rfl rfl rfl id (fun _ _ => trivial) ?_
      · rw [recovery]
        exact ⟨nofun, nofun, nofun, nofun⟩
      · rw [recovery]
        nofun
      · exact ⟨rfl, stage.2.1, stage.2.2.1, stage.2.2.2.2⟩
  | asking =>
      rw [recovery] at stage
      have pushes : Pushes (if Pushes s.view then s.view else .online) := by
        split_ifs with already
        · exact already
        · exact Or.inl rfl
      refine sound.of_recovery ?_ ?_ nofun rfl rfl rfl rfl rfl rfl rfl (fun _ => pushes)
        (fun _ _ => trivial) ?_
      · rw [recovery]
        exact ⟨nofun, nofun, nofun, nofun⟩
      · rw [recovery]
        nofun
      · exact ⟨stage.1, stage.2.1, stage.2.2.1, stage.2.2.2, pushes⟩
  | seen =>
      rw [recovery] at stage
      refine sound.of_recovery ?_ ?_ nofun rfl rfl rfl rfl rfl rfl rfl id ?_ ?_
      · rw [recovery]
        exact ⟨nofun, nofun, nofun, nofun⟩
      · rw [recovery]
        nofun
      · intro first flight
        -- every later update sees the slave online
        have last := flight.last
        have visited : s.visitedUpTo ≤ s.version := by
          unfold visitedUpTo
          split_ifs <;> omega
        show first ≤ s.version + 1
        omega
      · exact ⟨stage.1, stage.2.1, stage.2.2.1, le_rfl, stage.2.2.2.1, stage.2.2.2.2⟩
  | answered untilVersion =>
      rw [recovery] at stage
      refine sound.of_recovery ?_ ?_ (fun _ _ => stage.2.2.1) rfl rfl rfl rfl rfl rfl rfl id ?_ ?_
      · rw [recovery]
        exact ⟨nofun, nofun, nofun, nofun⟩
      · rw [recovery]
        nofun
      · intro first flight
        have fits := flight.first
        rw [recovery] at fits
        exact fits
      · exact ⟨stage.1, stage.2.1, stage.2.2.1, stage.2.2.2.1, rfl, stage.2.2.2.2.2⟩
  | replaying untilVersion =>
      rw [recovery] at stage can
      refine sound.of_recovery ?_ (fun _ => rfl) ?_ rfl rfl rfl rfl rfl rfl rfl id ?_ ?_
      · rw [recovery]
        exact ⟨nofun, nofun, fun _ => trivial, nofun⟩
      · intro _ unknown
        rw [recovery] at unknown
        exact absurd trivial unknown
      · intro first flight
        have fits := flight.first
        rw [recovery] at fits
        exact fits
      · exact ⟨rfl, stage.2.1, can, stage.2.2.2.1, stage.2.2.2.2.1, stage.2.2.2.2.2⟩
  | activated untilVersion =>
      rw [recovery] at stage
      have reached : s.progress base = untilVersion := stage.2.2.1
      refine sound.of_recovery ?_ (fun _ => rfl) ?_ rfl rfl rfl rfl rfl rfl rfl id ?_ ?_
      · rw [recovery]
        exact ⟨fun _ => trivial, nofun, fun _ => trivial, nofun⟩
      · intro _ unknown
        rw [recovery] at unknown
        exact absurd trivial unknown
      · intro first flight
        have fits := flight.first
        rw [recovery] at fits
        exact reached.symm ▸ fits
      · exact ⟨stage.1, stage.2.1, reached.symm, reached.symm ▸ stage.2.2.2.1,
          reached.symm ▸ stage.2.2.2.2.1.le, stage.2.2.2.2.2⟩
  | stored =>
      rw [recovery] at stage
      refine sound.of_recovery ?_ (fun _ => rfl) ?_ rfl rfl rfl rfl rfl rfl rfl id ?_ ?_
      · rw [recovery]
        exact ⟨fun _ => trivial, fun _ => trivial, fun _ => trivial, nofun⟩
      · intro _ unknown
        rw [recovery] at unknown
        exact absurd trivial unknown
      · intro first flight
        have fits := flight.first
        rw [recovery] at fits
        exact fits
      · exact ⟨stage.1, rfl, stage.2.2.1, stage.2.2.2.1, stage.2.2.2.2.1, stage.2.2.2.2.2⟩
  | finished =>
      rw [recovery] at can
      exact can.elim

/-- Before `rpc_last_version` is set no RPC has been accepted, and the progress does not
matter. -/
theorem PointFits.of_unstored {after : HandoffState} {version : Nat} {point : UpdatePoint}
    (fits : s.PointFits base version point) (unstored : ¬ IsStored s.recovery)
    (recovery : after.recovery = s.recovery) (words : after.words = s.words) :
    after.PointFits base version point := by
  cases point with
  | check inner =>
      cases inner with
      | loop status =>
          unfold PointFits at fits ⊢
          rw [recovery]
          exact fits
      | reread => exact recovery.trans fits
      | left status dealDone =>
          unfold PointFits at fits ⊢
          rw [recovery, words]
          exact fits
      | readStatus | online | readUntil | waiting => trivial
  | version =>
      unfold PointFits at fits ⊢
      rw [recovery]
      exact fits
  | accept | push => exact absurd fits.1 unstored
  | returned result dealDone =>
      cases result with
      | ok =>
          cases dealDone with
          | true =>
              unfold PointFits at fits ⊢
              rw [recovery, words]
              exact fits
          | false => exact absurd fits.1 unstored
      | taskStatusContinue => exact absurd fits.1 unstored
      | einval | enoent | enomem | notActive => exact fits.elim

theorem Sound.logged_le (sound : s.Sound base) : s.logged ≤ s.version := by
  have master := sound.master
  cases point : s.master with
  | idle =>
      rw [point] at master
      exact (show s.logged = s.version from master).le
  | assigned | visited =>
      rw [point] at master
      exact master.1

/-- The next update is appended. -/
theorem Sound.applied_concat (sound : s.Sound base) (source : AppliedBy) :
    (s.applied ++ [(s.progress base + 1, source)]).map Prod.fst =
      List.range' (base + 1) (s.applied ++ [(s.progress base + 1, source)]).length := by
  rw [List.map_append, sound.applied, List.length_append, List.length_singleton,
    List.range'_concat, Nat.one_mul]
  have next : base + 1 + s.applied.length = s.progress base + 1 := by
    unfold progress
    omega
  rw [next]
  rfl

theorem Sound.replay (sound : s.Sound base) (enabled : s.Enabled base .replay) :
    (s.next log base .replay).Sound base := by
  have stage := sound.stage
  have can : s.Replays base s.recovery := enabled
  have logged := sound.logged_le
  obtain ⟨first, flight⟩ := sound.flight
  have advanced : (s.next log base .replay).progress base = s.progress base + 1 := by
    show base + (s.applied ++ [_]).length = base + s.applied.length + 1
    rw [List.length_append, List.length_singleton]
    rfl
  have unstored : ¬ IsStored s.recovery := by
    intro stored
    cases recovery : s.recovery <;> rw [recovery] at stored can
    all_goals first | exact stored | exact can
  refine ⟨sound.applied_concat .replay, ?_, ?_, sound.rejected, sound.master, ⟨first,
    flight.consecutive, flight.last, flight.silent, ?_⟩, ?_, ?_⟩
  · intro known update member
    change update ∈ s.applied ++ [_] at member
    rcases List.mem_append.mp member with old | new
    · exact sound.bySource known update old
    · rw [List.mem_singleton.mp new]
      refine ⟨fun _ => ?_, fun _ => rfl⟩
      show s.progress base + 1 ≤ s.words.untilVersion
      change UntilKnown s.recovery at known
      cases recovery : s.recovery <;> rw [recovery] at known can stage
      case replaying untilVersion => exact stage.2.2.2.2.1.symm ▸ can.1
      all_goals first | exact known.elim | exact can.elim
  · intro unknown update member
    change update ∈ s.applied ++ [_] at member
    rcases List.mem_append.mp member with old | new
    · exact sound.unaccepted unknown update old
    · rw [List.mem_singleton.mp new]
  · have fits := flight.first
    show FirstFits base _ first s.recovery
    cases recovery : s.recovery <;> rw [recovery] at fits can
    case stored => exact can.elim
    case finished => exact can.elim
    all_goals exact fits
  · show StageFits base _ s.recovery
    cases recovery : s.recovery <;> rw [recovery] at stage can
    case catchingUp =>
      refine ⟨stage.1, stage.2.1, ?_, stage.2.2.2⟩
      rw [advanced]
      exact (Nat.succ_le_of_lt can).trans logged
    case replaying untilVersion =>
      refine ⟨stage.1, stage.2.1, ?_, stage.2.2.2⟩
      rw [advanced]
      exact can.1
    all_goals exact can.elim
  · intro version point isCurrent
    exact (sound.point version point isCurrent).of_unstored unstored rfl rfl

/-! ## The RPCs of the slave -/

theorem Sound.receive (sound : s.Sound base) (enabled : s.Enabled base .receive) :
    (s.next log base .receive).Sound base := by
  obtain ⟨idle, some⟩ := enabled
  obtain ⟨first, flight⟩ := sound.flight
  have inFlight : (s.next log base .receive).inFlight = s.inFlight := by
    unfold HandoffState.inFlight next
    dsimp only
    rw [idle]
    cases channel : s.channel with
    | nil => exact absurd channel some
    | cons version rest => rfl
  refine ⟨sound.applied, sound.bySource, sound.unaccepted, sound.rejected, sound.master,
    ⟨first, flight.congr inFlight rfl id rfl rfl⟩, sound.stage, ?_⟩
  intro version point isCurrent
  change s.channel.head?.map _ = Option.some (version, point) at isCurrent
  obtain ⟨head, -, same⟩ := Option.map_eq_some_iff.mp isCurrent
  cases same
  trivial

/-- The RPC that the slave deals with is the first in flight. -/
theorem Flight.current_eq {first version : Nat} {point : UpdatePoint} (flight : s.Flight base first)
    (current : s.current = some (version, point)) :
    version = first ∧ version ≤ s.visitedUpTo ∧ s.channel = List.range' (first + 1) s.channel.length ∧
      first + 1 + s.channel.length = s.visitedUpTo + 1 := by
  have inFlight : s.inFlight = version :: s.channel := by
    rw [HandoffState.inFlight, current]
    rfl
  have consecutive := flight.consecutive
  have last := flight.last
  rw [inFlight, List.length_cons] at consecutive last
  rw [List.range'_succ] at consecutive
  injection consecutive with same rest
  refine ⟨same, by omega, rest, by omega⟩

/-- An RPC comes to the slave only after it has gone online. -/
theorem Sound.status_of_current (sound : s.Sound base) {version : Nat} {point : UpdatePoint}
    (current : s.current = some (version, point)) :
    s.words.status = .online ∧ ¬ IsActive s.recovery ∨
      s.words.status = .active ∧ IsActive s.recovery := by
  obtain ⟨first, flight⟩ := sound.flight
  have stage := sound.stage
  have fits := flight.first
  have some : s.inFlight ≠ [] := by
    rw [HandoffState.inFlight, current]
    nofun
  cases recovery : s.recovery with
  | catchingUp | cleared =>
      rw [recovery] at fits
      exact absurd fits some
  | asking | seen | answered | replaying =>
      rw [recovery] at stage
      exact Or.inl ⟨stage.1, id⟩
  | activated | stored | finished =>
      rw [recovery] at stage
      exact Or.inr ⟨stage.1, trivial⟩

/-- `until_version` is set only when the slave knows it. -/
theorem Sound.known_of_until (sound : s.Sound base) {version : Nat} {point : UpdatePoint}
    (current : s.current = some (version, point)) (nonzero : s.words.untilVersion ≠ 0) :
    UntilKnown s.recovery := by
  obtain ⟨first, flight⟩ := sound.flight
  have stage := sound.stage
  have fits := flight.first
  have some : s.inFlight ≠ [] := by
    rw [HandoffState.inFlight, current]
    nofun
  cases recovery : s.recovery with
  | catchingUp | cleared =>
      rw [recovery] at fits
      exact absurd fits some
  | asking =>
      rw [recovery] at stage
      exact absurd stage.2.2.2 nonzero
  | seen =>
      rw [recovery] at stage
      exact absurd stage.2.2.2.1 nonzero
  | answered =>
      rw [recovery] at stage
      exact absurd stage.2.2.2.2.1 nonzero
  | replaying | activated | stored | finished => trivial

theorem Sound.stored_words (sound : s.Sound base) (stored : IsStored s.recovery) :
    s.words.rpcLastVersion = s.progress base ∧ s.words.untilVersion ≤ s.progress base := by
  have stage := sound.stage
  cases recovery : s.recovery with
  | stored | finished =>
      rw [recovery] at stage
      exact ⟨stage.2.2.1, stage.2.2.2.2.1⟩
  | catchingUp | cleared | asking | seen | answered | replaying | activated =>
      rw [recovery] at stored
      exact stored.elim

/-- A step of the loop over the status. -/
theorem Sound.check_next (sound : s.Sound base) {version : Nat} {point : CheckPoint}
    (current : s.current = some (version, .check point))
    (running : ∀ status dealDone, point ≠ .left status dealDone)
    (unblocked : ¬ point.Blocked s.words true) :
    s.PointFits base version (.check (point.next s.words true (log.part version).dataVersion)) := by
  have fits := sound.point version _ current
  have status := sound.status_of_current current
  cases point with
  | readStatus =>
      rcases status with ⟨online, -⟩ | ⟨active, isActive⟩
      · exact Or.inl online
      · exact Or.inr ⟨active, isActive⟩
  | loop read =>
      rcases fits with rfl | ⟨rfl, isActive⟩
      · trivial
      · exact Or.inl ⟨rfl, rfl, isActive⟩
  | online =>
      show s.PointFits base version (.check (if s.words.inProgress = true then _ else _))
      split_ifs with inProgress
      · trivial
      · have stage := sound.stage
        show s.recovery = .finished
        cases recovery : s.recovery with
        | finished => rfl
        | catchingUp | cleared | asking | seen | answered | replaying | activated | stored =>
            rw [recovery] at stage
            exact absurd stage.2.1 inProgress
  | reread =>
      have finished : s.recovery = .finished := fits
      refine Or.inl ⟨?_, rfl, finished ▸ trivial⟩
      rcases status with ⟨-, inactive⟩ | ⟨active, -⟩
      · rw [finished] at inactive
        exact absurd trivial inactive
      · exact active
  | readUntil round =>
      show s.PointFits base version (.check (if _ then _ else _))
      split_ifs with passed
      · refine Or.inr ⟨rfl, rfl, sound.known_of_until current passed.1, ?_⟩
        exact log.dataVersion version ▸ passed.2
      · trivial
  | waiting round checked =>
      show s.PointFits base version (.check (if _ then _ else _))
      split_ifs <;> trivial
  | left status dealDone => exact absurd rfl (running status dealDone)

/-- The RPC moves on, and nothing else changes. -/
theorem Sound.of_point (sound : s.Sound base) {version : Nat} {point next : UpdatePoint}
    (current : s.current = some (version, point)) (fits : s.PointFits base version next) :
    Sound base { s with current := some (version, next) } := by
  obtain ⟨first, flight⟩ := sound.flight
  refine ⟨sound.applied, sound.bySource, sound.unaccepted, sound.rejected, sound.master,
    ⟨first, flight.congr ?_ rfl id rfl rfl⟩, sound.stage, ?_⟩
  · unfold inFlight
    rw [current]
    rfl
  · intro other otherPoint isCurrent
    cases isCurrent
    exact (pointFits_congr rfl rfl rfl).mpr fits

/-- What follows the loop over the status: the recovery has the update, or its data version is
checked. -/
theorem PointFits.afterCheck {version : Nat} {status : FSDataServerStatus} {dealDone : Bool}
    (fits : s.PointFits base version (.check (.left status dealDone))) :
    s.PointFits base version (UpdatePoint.afterCheck (log.part version) status dealDone) := by
  rcases fits with ⟨rfl, rfl, isActive⟩ | ⟨rfl, rfl, known, le⟩
  · have next : UpdatePoint.afterCheck (log.part version) .active false = .version := by
      unfold UpdatePoint.afterCheck
      rw [if_neg (not_not.mpr (Or.inl rfl)), if_neg (not_not.mpr (log.wellFormed version))]
      rfl
    rw [next]
    exact isActive
  · have next : UpdatePoint.afterCheck (log.part version) .online true = .returned .ok true := by
      unfold UpdatePoint.afterCheck
      rw [if_neg (not_not.mpr (Or.inr rfl)), if_neg (not_not.mpr (log.wellFormed version))]
      rfl
    rw [next]
    exact ⟨known, le⟩

theorem isStored_of_isActive {point : HandoffPoint} (isActive : IsActive point)
    (outside : ¬ InWindow point) : IsStored point := by
  cases point with
  | stored | finished => trivial
  | activated => exact absurd trivial outside
  | catchingUp | cleared | asking | seen | answered | replaying => exact isActive.elim

/-- An update is finished before the next one is due. -/
theorem Flight.first_le {first : Nat} (flight : s.Flight base first)
    (stored : IsStored s.recovery) : first ≤ s.progress base + 1 := by
  have fits := flight.first
  cases recovery : s.recovery with
  | stored | finished =>
      rw [recovery] at fits
      exact fits
  | catchingUp | cleared | asking | seen | answered | replaying | activated =>
      rw [recovery] at stored
      exact stored.elim

/-- Once `rpc_last_version` is set, an RPC has the next data version or an earlier one. -/
theorem Sound.version_next (sound : s.Sound base) {version : Nat}
    (current : s.current = some (version, .version)) (outside : ¬ InWindow s.recovery) :
    s.PointFits base version (UpdatePoint.version.next s.words true (log.part version)) := by
  obtain ⟨first, flight⟩ := sound.flight
  have stored := isStored_of_isActive (sound.point version _ current) outside
  have last := (sound.stored_words stored).1
  have le : version ≤ s.progress base + 1 :=
    (flight.current_eq current).1 ▸ flight.first_le stored
  simp only [UpdatePoint.next, log.dataVersion, last]
  by_cases due : version = s.progress base + 1
  · rw [if_neg (not_not.mpr due)]
    exact ⟨stored, due⟩
  · have passed : version ≤ s.progress base := by omega
    rw [if_pos due, if_pos passed]
    exact ⟨stored, passed⟩

/-- The slave is done with an RPC, whose update it has. -/
theorem Sound.done (sound : s.Sound base) {version : Nat} {point : UpdatePoint}
    (current : s.current = some (version, point))
    (has : UntilKnown s.recovery ∧ version ≤ s.words.untilVersion ∨
      IsStored s.recovery ∧ version ≤ s.progress base) :
    Sound base { s with current := none } := by
  obtain ⟨first, flight⟩ := sound.flight
  obtain ⟨same, -, channel, last⟩ := flight.current_eq current
  have stage := sound.stage
  refine ⟨sound.applied, sound.bySource, sound.unaccepted, sound.rejected, sound.master,
    ⟨first + 1, channel, last, ?_, ?_⟩, sound.stage, nofun⟩
  · intro silent
    have none := flight.silent silent
    rw [inFlight, current] at none
    cases none
  · rw [same] at has
    show FirstFits base _ (first + 1) s.recovery
    cases recovery : s.recovery with
    | catchingUp | cleared | asking | seen | answered =>
        rw [recovery] at has
        rcases has with ⟨known, -⟩ | ⟨stored, -⟩
        · exact known.elim
        · exact stored.elim
    | replaying | activated =>
        rw [recovery] at has stage
        rcases has with ⟨-, le⟩ | ⟨stored, -⟩
        · exact Nat.succ_le_succ (stage.2.2.2.2.1 ▸ le)
        · exact stored.elim
    | stored | finished =>
        rw [recovery] at has stage
        rcases has with ⟨-, le⟩ | ⟨-, le⟩
        · exact Nat.succ_le_succ (le.trans stage.2.2.2.2.1)
        · exact Nat.succ_le_succ le

/-- `rpc_last_version` and the updates of the slave grow by the same one. -/
theorem Sound.accept (sound : s.Sound base) {version : Nat}
    (current : s.current = some (version, .accept)) :
    Sound base
      { s with
        words := { s.words with rpcLastVersion := s.words.rpcLastVersion + 1 }
        current := some (version, .push)
        applied := s.applied ++ [(version, .rpc)] } := by
  obtain ⟨first, flight⟩ := sound.flight
  obtain ⟨stored, due⟩ : IsStored s.recovery ∧ version = s.progress base + 1 :=
    sound.point version _ current
  obtain ⟨same, visited, -, -⟩ := flight.current_eq current
  obtain ⟨last, le⟩ := sound.stored_words stored
  have inRange : s.progress base + 1 ≤ s.version := by
    have upTo : s.visitedUpTo ≤ s.version := by
      unfold visitedUpTo
      split_ifs <;> omega
    omega
  have stage := sound.stage
  subst due
  have advanced : base + (s.applied ++ [(s.progress base + 1, AppliedBy.rpc)]).length =
      s.progress base + 1 := by
    rw [List.length_append, List.length_singleton]
    rfl
  refine ⟨sound.applied_concat .rpc, ?_, ?_, sound.rejected, sound.master, ⟨first, ?_, ?_, ?_, ?_⟩,
    ?_, ?_⟩
  · intro known update member
    rcases List.mem_append.mp member with old | new
    · exact sound.bySource known update old
    · rw [List.mem_singleton.mp new]
      refine ⟨nofun, fun behind => ?_⟩
      change s.progress base + 1 ≤ s.words.untilVersion at behind
      omega
  · intro unknown
    change ¬ UntilKnown s.recovery at unknown
    cases recovery : s.recovery <;> rw [recovery] at unknown stored
    case stored => exact absurd trivial unknown
    case finished => exact absurd trivial unknown
    all_goals exact stored.elim
  · exact (flight.congr (by unfold inFlight; rw [current]; rfl) rfl id rfl rfl :
      Flight base { s with current := some (s.progress base + 1, .push) } first).consecutive
  · exact (flight.congr (by unfold inFlight; rw [current]; rfl) rfl id rfl rfl :
      Flight base { s with current := some (s.progress base + 1, .push) } first).last
  · intro silent
    have none := flight.silent silent
    rw [inFlight, current] at none
    cases none
  · show FirstFits base _ first s.recovery
    cases recovery : s.recovery <;> rw [recovery] at stored
    case stored =>
      show first ≤ base + (s.applied ++ [_]).length + 1
      omega
    case finished =>
      show first ≤ base + (s.applied ++ [_]).length + 1
      omega
    all_goals exact stored.elim
  · show StageFits base _ s.recovery
    cases recovery : s.recovery <;> rw [recovery] at stored stage
    case stored =>
      refine ⟨stage.1, stage.2.1, ?_, ?_, ?_, stage.2.2.2.2.2⟩
      · show s.words.rpcLastVersion + 1 = base + (s.applied ++ [_]).length
        omega
      · show base + (s.applied ++ [_]).length ≤ s.version
        omega
      · show s.words.untilVersion ≤ base + (s.applied ++ [_]).length
        omega
    case finished =>
      refine ⟨stage.1, stage.2.1, ?_, ?_, ?_, stage.2.2.2.2.2⟩
      · show s.words.rpcLastVersion + 1 = base + (s.applied ++ [_]).length
        omega
      · show base + (s.applied ++ [_]).length ≤ s.version
        omega
      · show s.words.untilVersion ≤ base + (s.applied ++ [_]).length
        omega
    all_goals exact stored.elim
  · intro other otherPoint isCurrent
    cases isCurrent
    exact ⟨stored, advanced.symm⟩

/-- A step before the update is accepted: only the point of the RPC changes. -/
theorem handle_of_waiting {version : Nat} {point : UpdatePoint}
    (current : s.current = some (version, point))
    (running : ∀ result dealDone, point ≠ .returned result dealDone) (unaccepted : point ≠ .accept) :
    s.handle log =
      { s with current := some (version, point.next s.words true (log.part version)) } := by
  obtain ⟨_, _, _, _, _, _, _, _, _, _⟩ := s
  obtain rfl : _ = some (version, point) := current
  cases point with
  | check | version | push => rfl
  | accept => exact absurd rfl unaccepted
  | returned result dealDone => exact absurd rfl (running result dealDone)

theorem Sound.handle (sound : s.Sound base) (enabled : s.Enabled base .handle)
    (regular : s.Regular .handle) : (s.next log base .handle).Sound base := by
  show (s.handle log).Sound base
  have handles : s.Handles s.current := enabled
  cases current : s.current with
  | none =>
      rw [current] at handles
      exact handles.elim
  | some rpc =>
      obtain ⟨version, point⟩ := rpc
      have fits := sound.point version point current
      cases point with
      | check loop =>
          rw [current] at handles
          rw [handle_of_waiting current nofun nofun]
          refine sound.of_point current ?_
          cases loop with
          | left status dealDone => exact fits.afterCheck
          | readStatus | loop | online | reread | readUntil | waiting =>
              exact sound.check_next current nofun handles
      | version =>
          rw [handle_of_waiting current nofun nofun]
          refine sound.of_point current (sound.version_next current (regular ?_))
          rw [current]
          rfl
      | accept =>
          have accepted := sound.accept current
          have step : s.handle log =
              { s with
                words := { s.words with rpcLastVersion := s.words.rpcLastVersion + 1 }
                current := some (version, .push)
                applied := s.applied ++ [(version, .rpc)] } := by
            unfold HandoffState.handle
            rw [current]
            rfl
          rw [step]
          exact accepted
      | push =>
          rw [handle_of_waiting current nofun nofun]
          exact sound.of_point current fits
      | returned result dealDone =>
          have returned (passes : result = .ok ∨ result = .taskStatusContinue) :
              s.handle log = { s with current := none } := by
            unfold HandoffState.handle
            rw [current]
            rcases passes with rfl | rfl <;> rfl
          cases result with
          | ok =>
              rw [returned (Or.inl rfl)]
              refine sound.done current ?_
              cases dealDone with
              | true => exact Or.inl fits
              | false => exact Or.inr fits
          | taskStatusContinue =>
              rw [returned (Or.inr rfl)]
              exact sound.done current (Or.inr ⟨fits.1, fits.2.le⟩)
          | einval | enoent | enomem | notActive => exact fits.elim

theorem Sound.next (sound : s.Sound base) {action : HandoffAction} (regular : s.Regular action)
    (enabled : s.Enabled base action) : (s.next log base action).Sound base := by
  cases action with
  | assign => exact sound.assign enabled
  | log => exact sound.writeLog enabled
  | visit => exact sound.visit enabled
  | finish => exact sound.finish enabled
  | report => exact sound.report enabled
  | recover => exact sound.recover enabled
  | replay => exact sound.replay enabled
  | receive => exact sound.receive enabled
  | handle => exact sound.handle enabled regular

theorem sound_of_reachable
    (reached : Reachable ((HandoffStep log base).guarded Regular) (HandoffInit base) s) :
    s.Sound base := by
  refine reached.invariant (fun _ => sound_of_init) ?_
  rintro s action _ sound ⟨regular, enabled, rfl⟩
  exact sound.next regular enabled

/-! ## What the invariant says -/

/-- With nothing in flight, the slave has every update of the master. -/
theorem Sound.progress_of_drained (sound : s.Sound base) (drained : s.Drained) :
    s.progress base = s.version := by
  obtain ⟨idle, channel, current, finished⟩ := drained
  obtain ⟨first, flight⟩ := sound.flight
  have stage := sound.stage
  rw [finished] at stage
  have due := flight.first_le (finished ▸ trivial)
  have last := flight.last
  have none : s.inFlight = [] := by
    rw [inFlight, current, channel]
    rfl
  have visited : s.visitedUpTo = s.version := if_neg (idle ▸ nofun)
  rw [none, visited] at last
  have le := stage.2.2.2.1
  change first + 0 = _ at last
  omega

/-- The recovery can go on until it is finished, unless the update of `until_version` is still
to be logged. -/
theorem Sound.recovery_moves (sound : s.Sound base) (unfinished : s.recovery ≠ .finished) :
    s.Enabled base .recover ∨ s.Enabled base .replay ∨ s.logged < s.version := by
  have stage := sound.stage
  show s.Recovers base s.recovery ∨ s.Replays base s.recovery ∨ _
  cases recovery : s.recovery with
  | catchingUp | cleared | asking | seen | answered | activated | stored => exact Or.inl trivial
  | replaying untilVersion =>
      rw [recovery] at stage
      have le : s.progress base ≤ untilVersion := stage.2.2.1
      have inRange : untilVersion ≤ s.version := stage.2.2.2.1
      rcases le.eq_or_lt with reached | behind
      · exact Or.inl reached
      · rcases lt_or_ge (s.progress base) s.logged with logged | unlogged
        · exact Or.inr (Or.inl ⟨behind, logged⟩)
        · exact Or.inr (Or.inr (unlogged.trans_lt (behind.trans_le inRange)))
  | finished => exact absurd recovery unfinished

/-- An RPC waits only for the recovery. -/
theorem Sound.handles_of_finished (sound : s.Sound base) (finished : s.recovery = .finished)
    {version : Nat} {point : UpdatePoint} (current : s.current = some (version, point)) :
    s.Enabled base .handle := by
  have stage := sound.stage
  rw [finished] at stage
  have active : s.words.status = .active := stage.1
  show s.Handles s.current
  rw [current]
  intro blocked
  cases point with
  | check loop =>
      cases loop with
      | waiting =>
          have online : s.words.status = .online := blocked.1
          rw [active] at online
          cases online
      | readStatus | loop | online | reread | readUntil | left => exact blocked
  | version | accept | push | returned => exact blocked

theorem Sound.moves (sound : s.Sound base) (undrained : ¬ s.Drained) :
    ∃ action ∈ [HandoffAction.log, .visit, .finish, .recover, .replay, .receive, .handle],
      s.Enabled base action := by
  by_cases finished : s.recovery = .finished
  · cases master : s.master with
    | assigned => exact ⟨.visit, by decide, master⟩
    | visited => exact ⟨.finish, by decide, master⟩
    | idle =>
        cases current : s.current with
        | some rpc => exact ⟨.handle, by decide, sound.handles_of_finished finished current⟩
        | none =>
            refine ⟨.receive, by decide, current, fun empty => ?_⟩
            exact undrained ⟨master, empty, current, finished⟩
  · rcases sound.recovery_moves finished with recovers | replays | behind
    · exact ⟨.recover, by decide, recovers⟩
    · exact ⟨.replay, by decide, replays⟩
    · exact ⟨.log, by decide, behind⟩

theorem Sound.active_iff (sound : s.Sound base) :
    s.words.status = .active ↔ IsActive s.recovery := by
  have stage := sound.stage
  cases recovery : s.recovery with
  | catchingUp | cleared =>
      rw [recovery] at stage
      exact ⟨fun active => stage.1 (Or.inr active), False.elim⟩
  | asking | seen | answered | replaying =>
      rw [recovery] at stage
      rw [stage.1]
      exact ⟨nofun, False.elim⟩
  | activated | stored | finished =>
      rw [recovery] at stage
      exact ⟨fun _ => trivial, fun _ => stage.1⟩

theorem Sound.handedOff (sound : s.Sound base) : s.HandedOff base where
  applied := sound.applied
  bySource := sound.bySource
  rejected := sound.rejected
  complete := sound.progress_of_drained
  moves := sound.moves
  versionKept := by
    intro active outside
    exact (sound.stored_words (isStored_of_isActive (sound.active_iff.mp active) outside)).1

/-! ## A slave whose `rpc_last_version` is right already -/

/-- `rpc_last_version` is right before `data_recovery_start` sets it. -/
def Anticipated (s : HandoffState) : Prop :=
  ∀ untilVersion, s.recovery = .activated untilVersion → s.words.rpcLastVersion = untilVersion

theorem anticipated_recover (ready : s.Ready s.recovery) : s.recover.Anticipated := by
  intro untilVersion activated
  unfold HandoffState.recover at activated ⊢
  cases recovery : s.recovery <;> rw [recovery] at activated ready
  case replaying known =>
    injection activated with same
    exact same ▸ ready
  case finished =>
    rw [show s.recovery = _ from activated] at recovery
    cases recovery
  all_goals cases activated

/-- An RPC changes `rpc_last_version` only after it was set. -/
theorem Anticipated.handle (anticipated : s.Anticipated) (sound : s.Sound base) :
    (s.handle log).Anticipated := by
  intro untilVersion activated
  have before : s.recovery = .activated untilVersion := by
    unfold HandoffState.handle at activated
    split at activated <;> exact activated
  have kept : (s.handle log).words = s.words := by
    cases current : s.current with
    | none =>
        unfold HandoffState.handle
        rw [current]
    | some rpc =>
        obtain ⟨version, point⟩ := rpc
        have fits := sound.point version point current
        unfold HandoffState.handle
        rw [current]
        cases point with
        | check | version | push => rfl
        | accept =>
            have stored : IsStored s.recovery := fits.1
            rw [before] at stored
            exact stored.elim
        | returned result dealDone => cases result <;> rfl
  rw [kept]
  exact anticipated untilVersion before

theorem anticipated_of_reachable
    (reached : Reachable ((HandoffStep log base).guarded Prepared) (HandoffInit base) s) :
    s.Sound base ∧ s.Anticipated := by
  refine @Reachable.invariant _ _ _ _ (fun s => s.Sound base ∧ s.Anticipated) ?_ ?_ _ reached
  · intro s init
    refine ⟨sound_of_init init, fun untilVersion activated => ?_⟩
    rw [init.recovery] at activated
    cases activated
  · rintro s action _ ⟨sound, anticipated⟩ ⟨⟨regular, ready⟩, enabled, rfl⟩
    refine ⟨sound.next regular enabled, ?_⟩
    cases action with
    | recover => exact anticipated_recover (ready rfl)
    | handle => exact anticipated.handle sound
    | assign | log | visit | finish | report | replay | receive => exact anticipated

theorem Sound.versionKept (sound : s.Sound base) (anticipated : s.Anticipated) :
    s.VersionKept base := by
  intro active
  have isActive := sound.active_iff.mp active
  have stage := sound.stage
  cases recovery : s.recovery with
  | activated untilVersion =>
      rw [recovery] at stage
      exact (anticipated untilVersion recovery).trans stage.2.2.1.symm
  | stored | finished => exact (sound.stored_words (recovery ▸ trivial)).1
  | catchingUp | cleared | asking | seen | answered | replaying =>
      rw [recovery] at isActive
      exact isActive.elim

end HandoffState

/-- In every run in which no RPC reads `rpc_last_version` between the slave's becoming active
and the moment it is set, every update comes to the slave once and in order, and none is
rejected; if moreover `rpc_last_version` is right when the slave becomes active, it is right as
long as the slave is active. -/
theorem online_handoff (log : UpdateLog) (base : Nat) (s : HandoffState) :
    (Reachable ((HandoffStep log base).guarded HandoffState.Regular) (HandoffInit base) s →
        s.HandedOff base) ∧
      (Reachable ((HandoffStep log base).guarded HandoffState.Prepared) (HandoffInit base) s →
        s.HandedOff base ∧ s.VersionKept base) := by
  constructor
  · intro reached
    exact (HandoffState.sound_of_reachable reached).handedOff
  · intro reached
    obtain ⟨sound, anticipated⟩ := HandoffState.anticipated_of_reachable reached
    exact ⟨sound.handedOff, sound.versionKept anticipated⟩

/-- Every update allocates the same slice. -/
def allocateLog : UpdateLog where
  part version := ⟨version, 24, .sliceAllocate, ⟨1, 0⟩, 0, 4096⟩
  dataVersion _ := rfl
  wellFormed _ := rfl

/-- A slave without data, whose `rpc_last_version` is as given, behind a master with one
update. -/
def handoffExample (rpcLastVersion : Nat) : HandoffState :=
  ⟨1, 1, .init, .idle, [], ⟨.rebuilding, true, 0, rpcLastVersion⟩, .catchingUp, none, [], []⟩

theorem handoffInit_example (rpcLastVersion : Nat) : HandoffInit 0 (handoffExample rpcLastVersion) :=
  ⟨Nat.zero_le _, rfl, nofun, nofun, rfl, rfl, rfl, rfl, rfl, rfl⟩

/-- The slave goes online, and the master pushes update 2; the slave replays update 1 and becomes
active. -/
def handoffOnline : List HandoffAction :=
  [.recover, .recover, .recover, .recover, .recover, .assign, .visit, .finish, .replay, .recover]

/-- `rpc_last_version` is set, and update 2 is accepted. -/
def handoffAccept : List HandoffAction :=
  [.recover, .receive, .handle, .handle, .handle, .handle, .handle, .handle, .handle, .recover]

theorem online_handoff_example :
    ((handoffOnline ++ handoffAccept).foldl (HandoffState.next allocateLog 0)
        (handoffExample 1)).applied = [(1, .replay), (2, .rpc)] ∧
      HandoffState.Drained ((handoffOnline ++ handoffAccept).foldl
        (HandoffState.next allocateLog 0) (handoffExample 1)) ∧
      HandoffState.HandedOff 0 ((handoffOnline ++ handoffAccept).foldl
        (HandoffState.next allocateLog 0) (handoffExample 0)) ∧
      HandoffState.HandedOff 0 ((handoffOnline ++ handoffAccept).foldl
        (HandoffState.next allocateLog 0) (handoffExample 1)) ∧
      HandoffState.VersionKept 0 ((handoffOnline ++ handoffAccept).foldl
        (HandoffState.next allocateLog 0) (handoffExample 1)) := by
  have regularStart : Reachable ((HandoffStep allocateLog 0).guarded HandoffState.Regular)
      (HandoffInit 0) (handoffExample 0) := .start (handoffInit_example 0)
  have preparedStart : Reachable ((HandoffStep allocateLog 0).guarded HandoffState.Prepared)
      (HandoffInit 0) (handoffExample 1) := .start (handoffInit_example 1)
  have regular := regularStart.followMeeting (handoffOnline ++ handoffAccept) (by decide +kernel)
  have prepared := preparedStart.followMeeting (handoffOnline ++ handoffAccept) (by decide +kernel)
  exact ⟨by decide +kernel, by decide +kernel, (online_handoff allocateLog 0 _).1 regular,
    (online_handoff allocateLog 0 _).2 prepared⟩

/-- Update 2 is dealt with before `rpc_last_version` is set: the slave is active, compares it
with 0 and rejects it. -/
theorem online_handoff_rejects :
    ¬ ∀ s, Reachable (HandoffStep allocateLog 0) (HandoffInit 0) s →
      s.HandedOff 0 ∧ s.VersionKept 0 := by
  intro kept
  have start : Reachable (HandoffStep allocateLog 0) (HandoffInit 0) (handoffExample 0) :=
    .start (handoffInit_example 0)
  have reached := start.follow
    (handoffOnline ++ [.receive, .handle, .handle, .handle, .handle, .handle]) (by decide +kernel)
  have rejected := (kept _ reached).1.rejected
  exact absurd rejected (by decide +kernel)

end FastStore.Replication
