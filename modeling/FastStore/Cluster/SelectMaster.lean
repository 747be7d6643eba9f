import FastStore.Cluster.Types
import FastStore.Util.QSort

/-!
# The choice of a master

The leader chooses the master of a data group from what the servers last told it:
their status, the time of their last ping and their data versions.  A group holds its
data servers twice: in the order of the configuration, and as pointers that an
election sorts by data version.  A pointer is the position in the former.
-/

namespace FastStore.Cluster

open FastStore.Util

/-- A data server with what the election reads of its server (`cs`).  A data version
counts updates and stays far below `2^63`. -/
structure ElectionServer where
  status : FSServerStatus
  lastPingTime : Int
  statusChangedTime : Int
  isPreseted : Bool
  isMaster : Bool
  dataVersion : Nat
  deriving DecidableEq, Repr, Inhabited

/-- The part of `FSClusterDataGroupInfo` that the election uses.  The pointer array holds
each data server once. -/
structure ElectionGroup where
  hashCode : Nat
  startTimeMs : Int
  retryCount : Int
  servers : List ElectionServer
  dsPtrArray : List Nat
  myself : Option Nat
  pointers : dsPtrArray.Perm (List.range servers.length)

/-- The configuration and the clocks at the time of an election. -/
structure ElectionEnv where
  failover : Bool
  policy : MasterElectionPolicy
  timeouts : Int
  isLeader : Bool
  currentTime : Int
  currentTimeMs : Int
  deriving DecidableEq, Repr

/-- `OFFLINE_WAIT_TIMEOUT`. -/
def offlineWaitTimeout : Int := 5

/-- `ONLINE_WAIT_TIMEOUT`. -/
def onlineWaitTimeout : Int := 30

/-- `compare_ds_by_data_version`. -/
def compareDsByDataVersion (ds1 ds2 : ElectionServer) : Int :=
  if ds1.dataVersion ≠ ds2.dataVersion then
    if ds1.dataVersion < ds2.dataVersion then -1 else 1
  else if ds1.status ≠ ds2.status then (ds1.status.value : Int) - ds2.status.value
  else if ds1.isPreseted ≠ ds2.isPreseted then
    (ds1.isPreseted.toNat : Int) - ds2.isPreseted.toNat
  else (ds1.isMaster.toNat : Int) - ds2.isMaster.toNat

namespace ElectionGroup

variable (group : ElectionGroup)

/-- The data server a pointer points to. -/
def server (ds : Nat) : ElectionServer := group.servers.getD ds default

/-- The leader counts as having reported, when it is in the group. -/
def reportMyself (env : ElectionEnv) : List ElectionServer :=
  match env.isLeader, group.myself with
  | true, some ds => group.servers.modify ds fun server =>
      { server with lastPingTime := env.currentTime + 1 }
  | _, _ => group.servers

theorem length_reportMyself (env : ElectionEnv) :
    (group.reportMyself env).length = group.servers.length := by
  unfold reportMyself
  split
  · exact List.length_modify ..
  · rfl

/-- The start of `select_master`: the first round of an election takes the time. -/
def beginRound (env : ElectionEnv) : ElectionGroup :=
  if group.startTimeMs = 0 then
    { group with
      startTimeMs := env.currentTimeMs
      retryCount := 1
      servers := group.reportMyself env
      pointers := by
        rw [group.length_reportMyself env]
        exact group.pointers }
  else { group with retryCount := group.retryCount + 1 }

/-- The end of a round without result. -/
def resetElection : ElectionGroup := { group with startTimeMs := 0, retryCount := 0 }

/-- `get_preseted_master`; the first data server when none is preset. -/
def getPresetedMaster : Nat :=
  (group.servers.findIdx? fun ds => ds.isPreseted).getD 0

/-- The comparison of the sort, on pointers. -/
def comparePointers (ds1 ds2 : Nat) : Int :=
  compareDsByDataVersion (group.server ds1) (group.server ds2)

/-- The sort of `select_master`. -/
def sortPointers (qsort : QSort Nat) : ElectionGroup :=
  if 1 < group.dsPtrArray.length then
    { group with
      dsPtrArray := qsort.sort group.comparePointers group.dsPtrArray
      pointers := (qsort.perm _ _).trans group.pointers }
  else group

end ElectionGroup

/-- `IS_SERVER_TIMEDOUT`. -/
def IsServerTimedout (env : ElectionEnv) (electionStartTime : Int) (ds : ElectionServer)
    (timeout : Int) : Prop :=
  timeout ≤ env.currentTime -
    (if 0 < ds.statusChangedTime then min ds.statusChangedTime electionStartTime
      else electionStartTime)

instance (env : ElectionEnv) (electionStartTime : Int) (ds : ElectionServer) (timeout : Int) :
    Decidable (IsServerTimedout env electionStartTime ds timeout) :=
  inferInstanceAs (Decidable (_ ≤ _))

/-- The counters of the first loop of `select_master`, and the last value of `timeout`. -/
structure ElectionCounts where
  active : Nat
  waitingReport : Nat
  waitingOnline : Nat
  waitingOffline : Nat
  timeout : Int
  deriving DecidableEq, Repr

/-- One round of the first loop for a server that is not active. -/
def ElectionCounts.countInactive (env : ElectionEnv) (electionStartTime : Int)
    (ds : ElectionServer) (counts : ElectionCounts) : ElectionCounts :=
  if ds.status = .online then
    { counts with
      timeout := onlineWaitTimeout
      waitingOnline := if IsServerTimedout env electionStartTime ds onlineWaitTimeout then
        counts.waitingOnline else counts.waitingOnline + 1 }
  else
    { counts with
      timeout := offlineWaitTimeout
      waitingOffline := if IsServerTimedout env electionStartTime ds offlineWaitTimeout then
        counts.waitingOffline else counts.waitingOffline + 1 }

/-- The first loop of `select_master`; it gives up at an active server whose report is
overdue. -/
def countServers (env : ElectionEnv) (electionStartTime : Int) :
    List ElectionServer → ElectionCounts → Option ElectionCounts
  | [], counts => some counts
  | ds :: rest, counts =>
      if ds.status = .active then
        if electionStartTime ≤ ds.lastPingTime then
          countServers env electionStartTime rest { counts with active := counts.active + 1 }
        else if env.currentTime - ds.lastPingTime ≤ onlineWaitTimeout + 5 then
          countServers env electionStartTime rest
            { counts with waitingReport := counts.waitingReport + 1 }
        else none
      else countServers env electionStartTime rest (counts.countInactive env electionStartTime ds)

/-- The second loop: from a data server down to the first one of the array, until an
active one. -/
def activeDownFrom (servers : List ElectionServer) : Nat → Option ElectionServer
  | 0 => servers[0]?.filter fun ds => ds.status = .active
  | ds + 1 =>
      match servers[ds + 1]?.filter fun ds => ds.status = .active with
      | some found => some found
      | none => activeDownFrom servers ds

/-- The third loop: the active servers that are at least as new. -/
def onlineDataServers (group : ElectionGroup) (maxDataVersion : Nat) : List Nat :=
  (List.range group.servers.length).filter fun ds =>
    (group.server ds).status = .active ∧ maxDataVersion ≤ (group.server ds).dataVersion

/-- The end of `select_master`: one of the candidates, by the hash code of the group. -/
def pickOnline (group : ElectionGroup) (last maxDataVersion : Nat) : Errno × Option Nat :=
  let online := onlineDataServers group maxDataVersion
  if online.length = 0 then (.enoent, none)
  else if online.length = group.servers.length then (.ok, some last)
  else
    match online[group.hashCode % online.length]? with
    | some ds => if (group.server ds).status = .active then (.ok, some ds) else (.eagain, none)
    | none => (.eagain, none)

/-- `select_master` behind the sort: the result and the master. -/
def chooseMaster (env : ElectionEnv) (electionStartTime : Int) (counts : ElectionCounts)
    (group : ElectionGroup) (last : Nat) : Errno × Option Nat :=
  let newest := group.server last
  if newest.status = .active ∧
      (newest.isPreseted = true ∨ counts.active = group.dsPtrArray.length) then
    (.ok, some last)
  else
    let timeout := match newest.status with
      | .active => counts.timeout
      | .online => onlineWaitTimeout * 3
      | .offline => offlineWaitTimeout * 3
    if ¬ IsServerTimedout env electionStartTime newest timeout then (.eagain, none)
    else
      match activeDownFrom group.servers last with
      | none => (.enoent, none)
      | some found =>
          if found.dataVersion < newest.dataVersion ∧ (env.policy = .strict ∨
              ¬ IsServerTimedout env electionStartTime newest env.timeouts) then
            (.eagain, none)
          else pickOnline group last found.dataVersion

/-- `select_master`. -/
def selectMaster (qsort : QSort Nat) (env : ElectionEnv) (start : ElectionGroup) :
    (Errno × Option Nat) × ElectionGroup :=
  let group := start.beginRound env
  let electionStartTime := group.startTimeMs.tdiv 1000
  if env.failover = false then
    if (group.server group.getPresetedMaster).status = .active then
      ((.ok, some group.getPresetedMaster), group)
    else ((.eagain, none), group)
  else
    match countServers env electionStartTime group.servers ⟨0, 0, 0, 0, 0⟩ with
    | none => ((.eagain, none), group.resetElection)
    | some counts =>
        if counts.active = 0 ∨
            0 < counts.waitingReport + counts.waitingOnline + counts.waitingOffline then
          ((.eagain, none), group)
        else
          let sorted := group.sortPointers qsort
          match sorted.dsPtrArray.getLast? with
          | some last => (chooseMaster env electionStartTime counts sorted last, sorted)
          | none => ((.eagain, none), sorted)

/-! ## The newest server -/

/-- The order of the sort: data version, then status, then the preset and the present
master. -/
def ElectionServer.rank (ds : ElectionServer) : Nat ×ₗ Nat ×ₗ Nat ×ₗ Nat :=
  toLex (ds.dataVersion, toLex (ds.status.value, toLex (ds.isPreseted.toNat, ds.isMaster.toNat)))

theorem FSServerStatus.value_inj {left right : FSServerStatus} :
    left.value = right.value ↔ left = right := by
  cases left <;> cases right <;> decide

theorem compareDsByDataVersion_le_iff (ds1 ds2 : ElectionServer) :
    compareDsByDataVersion ds1 ds2 ≤ 0 ↔ ds1.rank ≤ ds2.rank := by
  have preset : ds1.isPreseted.toNat = ds2.isPreseted.toNat ↔ ds1.isPreseted = ds2.isPreseted := by
    cases ds1.isPreseted <;> cases ds2.isPreseted <;> decide
  simp only [ElectionServer.rank, Prod.Lex.toLex_le_toLex, compareDsByDataVersion]
  split_ifs with version versionLt statusNe presetNe
  · simp [versionLt]
  · simp [version, versionLt]
  · have values : ds1.status.value ≠ ds2.status.value :=
      fun same => statusNe (FSServerStatus.value_inj.mp same)
    omega
  · have values := FSServerStatus.value_inj.mpr (not_not.mp statusNe)
    have presets : ds1.isPreseted.toNat ≠ ds2.isPreseted.toNat :=
      fun same => presetNe (preset.mp same)
    omega
  · have values := FSServerStatus.value_inj.mpr (not_not.mp statusNe)
    have presets := preset.mpr (not_not.mp presetNe)
    omega

theorem orders_comparePointers (group : ElectionGroup) : Orders group.comparePointers :=
  Orders.of_key (fun ds => (group.server ds).rank) fun _ _ => compareDsByDataVersion_le_iff _ _

/-- No server has more data than the last one of the sort, and among those of its data
version none has a higher status. -/
structure ElectionGroup.IsLast (group : ElectionGroup) (last : Nat) : Prop where
  bound : last < group.servers.length
  version : ∀ ds ∈ group.servers, ds.dataVersion ≤ (group.server last).dataVersion
  status : ∀ ds ∈ group.servers, ds.dataVersion = (group.server last).dataVersion →
    ds.status.value ≤ (group.server last).status.value

section Last

variable {group : ElectionGroup} {qsort : QSort Nat} {last : Nat}

@[simp] theorem sortPointers_servers (group : ElectionGroup) (qsort : QSort Nat) :
    (group.sortPointers qsort).servers = group.servers := by
  unfold ElectionGroup.sortPointers
  split_ifs <;> rfl

@[simp] theorem sortPointers_startTimeMs (group : ElectionGroup) (qsort : QSort Nat) :
    (group.sortPointers qsort).startTimeMs = group.startTimeMs := by
  unfold ElectionGroup.sortPointers
  split_ifs <;> rfl

@[simp] theorem sortPointers_server (group : ElectionGroup) (qsort : QSort Nat) :
    (group.sortPointers qsort).server = group.server := by
  funext ds
  simp [ElectionGroup.server]

/-- Pointers and servers correspond. -/
theorem exists_pointer {ds : ElectionServer} (member : ds ∈ group.servers) :
    ∃ pointer ∈ group.dsPtrArray, group.server pointer = ds := by
  obtain ⟨pointer, bound, rfl⟩ := List.getElem_of_mem member
  refine ⟨pointer, group.pointers.mem_iff.mpr (List.mem_range.mpr bound), ?_⟩
  simp [ElectionGroup.server, bound]

theorem lt_length_of_mem_dsPtrArray (member : last ∈ group.dsPtrArray) :
    last < group.servers.length :=
  List.mem_range.mp (group.pointers.mem_iff.mp member)

theorem isLast_of_sortPointers (isLast : (group.sortPointers qsort).dsPtrArray.getLast? = some last) :
    (group.sortPointers qsort).IsLast last := by
  have largest : last ∈ group.dsPtrArray ∧
      ∀ ds ∈ group.dsPtrArray, group.comparePointers ds last ≤ 0 := by
    unfold ElectionGroup.sortPointers at isLast
    split_ifs at isLast with several
    · exact ⟨qsort.getLast_mem isLast, fun ds member =>
        qsort.le_getLast (orders_comparePointers group) isLast member⟩
    · obtain ⟨front, split⟩ := List.getLast?_eq_some_iff.mp isLast
      have single : front = [] := by
        rw [split, List.length_append] at several
        exact List.eq_nil_of_length_eq_zero (by simpa using several)
      rw [single, List.nil_append] at split
      refine ⟨by simp [split], fun ds member => ?_⟩
      rw [split, List.mem_singleton] at member
      rw [member]
      exact ((orders_comparePointers group).total last last).elim id id
  have ranked : ∀ ds ∈ group.servers, ds.rank ≤ (group.server last).rank := by
    intro ds member
    obtain ⟨pointer, listed, rfl⟩ := exists_pointer member
    exact (compareDsByDataVersion_le_iff _ _).mp (largest.2 pointer listed)
  constructor
  all_goals simp only [sortPointers_servers, sortPointers_server]
  · exact lt_length_of_mem_dsPtrArray largest.1
  · intro ds member
    have order := ranked ds member
    simp only [ElectionServer.rank, Prod.Lex.toLex_le_toLex] at order
    omega
  · intro ds member same
    have order := ranked ds member
    simp only [ElectionServer.rank, Prod.Lex.toLex_le_toLex] at order
    omega

/-- When the last one is not active, the active ones have less data. -/
theorem ElectionGroup.IsLast.lt_of_active (isLast : group.IsLast last)
    (inactive : (group.server last).status ≠ .active) {ds : ElectionServer}
    (member : ds ∈ group.servers) (active : ds.status = .active) :
    ds.dataVersion < (group.server last).dataVersion := by
  refine lt_of_le_of_ne (isLast.version ds member) fun same => inactive ?_
  have order := isLast.status ds member same
  rw [active] at order
  exact FSServerStatus.eq_active_of_value_le order

theorem server_mem {ds : Nat} (bound : ds < group.servers.length) :
    group.server ds ∈ group.servers := by
  simp [ElectionGroup.server, bound]

end Last

/-! ## Who is waited for -/

/-- How long a server that is not active is waited for. -/
def waitTimeout (status : FSServerStatus) : Int :=
  if status = .online then onlineWaitTimeout else offlineWaitTimeout

/-- Nobody is waited for any more: the active servers have pinged since the election
began, and the others have timed out. -/
def Settled (env : ElectionEnv) (electionStartTime : Int) (ds : ElectionServer) : Prop :=
  if ds.status = .active then electionStartTime ≤ ds.lastPingTime
  else IsServerTimedout env electionStartTime ds (waitTimeout ds.status)

/-- The counters that hold a round up. -/
def ElectionCounts.waiting (counts : ElectionCounts) : Nat :=
  counts.waitingReport + counts.waitingOnline + counts.waitingOffline

section Counting

variable {env : ElectionEnv} {electionStartTime : Int} {ds : ElectionServer}
  {counts after : ElectionCounts} {servers : List ElectionServer}

theorem countInactive_spec (env : ElectionEnv) (electionStartTime : Int)
    (counts : ElectionCounts) (inactive : ds.status ≠ .active) :
    (counts.countInactive env electionStartTime ds).active = counts.active ∧
      counts.waiting ≤ (counts.countInactive env electionStartTime ds).waiting ∧
      ((counts.countInactive env electionStartTime ds).waiting = counts.waiting ↔
        Settled env electionStartTime ds) := by
  unfold ElectionCounts.countInactive Settled waitTimeout ElectionCounts.waiting
  rw [if_neg inactive]
  split_ifs with online timedout timedout
  · simp [timedout]
  · simp [timedout]
  · simp [timedout]
  · simp [timedout]

/-- The first loop counts the active servers that have reported, and holds the round up
unless all servers have settled. -/
theorem countServers_spec
    (counted : countServers env electionStartTime servers counts = some after) :
    after.active = counts.active + servers.countP (fun ds => ds.status = .active ∧
        electionStartTime ≤ ds.lastPingTime) ∧
      counts.waiting ≤ after.waiting ∧
      (after.waiting = counts.waiting ↔ ∀ ds ∈ servers, Settled env electionStartTime ds) := by
  induction servers generalizing counts with
  | nil =>
      obtain rfl : counts = after := Option.some.inj counted
      simp
  | cons ds rest ih =>
      rw [countServers] at counted
      rw [List.countP_cons, List.forall_mem_cons]
      split_ifs at counted with active reported recent
      · obtain ⟨actives, grows, settled⟩ := ih counted
        have own : Settled env electionStartTime ds := by
          rw [Settled, if_pos active]
          exact reported
        have same : ElectionCounts.waiting { counts with active := counts.active + 1 } =
            counts.waiting := rfl
        rw [same] at grows settled
        refine ⟨?_, grows, ?_⟩
        · simp only [actives, active, reported, and_self, decide_true, if_true]
          omega
        · rw [settled]
          exact ⟨fun others => ⟨own, others⟩, fun both => both.2⟩
      · obtain ⟨actives, grows, _⟩ := ih counted
        have own : ¬ Settled env electionStartTime ds := by
          rw [Settled, if_pos active]
          exact reported
        have more : ElectionCounts.waiting
            { counts with waitingReport := counts.waitingReport + 1 } = counts.waiting + 1 := by
          simp only [ElectionCounts.waiting]
          omega
        rw [more] at grows
        refine ⟨?_, by omega, ?_⟩
        · simp [actives, reported]
        · exact ⟨fun same => by omega, fun both => absurd both.1 own⟩
      · obtain ⟨actives, grows, settled⟩ := ih counted
        obtain ⟨sameActive, notLess, own⟩ :=
          countInactive_spec env electionStartTime counts active
        refine ⟨?_, notLess.trans grows, ?_⟩
        · simp [actives, sameActive, active]
        · rw [← own, ← settled]
          omega

/-- The first loop gives up only at a server that has not settled. -/
theorem not_settled_of_countServers
    (gaveUp : countServers env electionStartTime servers counts = none) :
    ∃ ds ∈ servers, ¬ Settled env electionStartTime ds := by
  induction servers generalizing counts with
  | nil => cases gaveUp
  | cons ds rest ih =>
      rw [countServers] at gaveUp
      split_ifs at gaveUp with active reported recent
      · obtain ⟨other, member, waits⟩ := ih gaveUp
        exact ⟨other, List.mem_cons_of_mem _ member, waits⟩
      · obtain ⟨other, member, waits⟩ := ih gaveUp
        exact ⟨other, List.mem_cons_of_mem _ member, waits⟩
      · refine ⟨ds, List.mem_cons_self, ?_⟩
        rw [Settled, if_pos active]
        exact reported
      · obtain ⟨other, member, waits⟩ := ih gaveUp
        exact ⟨other, List.mem_cons_of_mem _ member, waits⟩

/-- A round goes on to the choice exactly when all servers have settled and one is
active. -/
theorem goesOn_iff (counted : countServers env electionStartTime servers ⟨0, 0, 0, 0, 0⟩ = some after) :
    ¬ (after.active = 0 ∨
        0 < after.waitingReport + after.waitingOnline + after.waitingOffline) ↔
      (∃ ds ∈ servers, ds.status = .active) ∧ ∀ ds ∈ servers, Settled env electionStartTime ds := by
  obtain ⟨actives, _, settled⟩ := countServers_spec counted
  have start : ElectionCounts.waiting ⟨0, 0, 0, 0, 0⟩ = 0 := rfl
  have sum : after.waiting =
      after.waitingReport + after.waitingOnline + after.waitingOffline := rfl
  rw [start] at settled
  rw [not_or, not_lt, Nat.le_zero, ← sum, settled, and_congr_left_iff]
  intro all
  rw [actives, Nat.zero_add, ← ne_eq, ← Nat.pos_iff_ne_zero, List.countP_pos_iff]
  refine exists_congr fun ds => and_congr_right fun member => ?_
  have own := all ds member
  rw [decide_eq_true_eq]
  constructor
  · exact fun both => both.1
  · intro active
    rw [Settled, if_pos active] at own
    exact ⟨active, own⟩

end Counting

/-! ## Where the choice falls -/

/-- The nearest active server at or before a position of the storage array. -/
structure NearestActive (group : ElectionGroup) (last nearest : Nat) : Prop where
  le : nearest ≤ last
  active : (group.server nearest).status = .active
  between : ∀ ds, nearest < ds → ds ≤ last → (group.server ds).status ≠ .active

section Choice

variable {group : ElectionGroup} {last nearest : Nat}

theorem NearestActive.unique {other : Nat} (left : NearestActive group last nearest)
    (right : NearestActive group last other) : nearest = other := by
  rcases lt_trichotomy nearest other with less | same | greater
  · exact absurd right.active (left.between other less right.le)
  · exact same
  · exact absurd left.active (right.between nearest greater left.le)

theorem getElem?_filter_active {ds : Nat} (bound : ds < group.servers.length) :
    (group.servers[ds]?.filter fun ds => ds.status = .active) =
      if (group.server ds).status = .active then some (group.server ds) else none := by
  have found : group.servers[ds]? = some (group.server ds) := by
    simp [ElectionGroup.server, bound]
  rw [found]
  split_ifs with active
  · simp [active]
  · simp [active]

/-- The second loop finds the nearest active server at or before the last one of the
sort. -/
theorem activeDownFrom_spec (bound : last < group.servers.length) :
    match activeDownFrom group.servers last with
    | some found => ∃ nearest, NearestActive group last nearest ∧ found = group.server nearest
    | none => ∀ ds ≤ last, (group.server ds).status ≠ .active := by
  induction last with
  | zero =>
      rw [activeDownFrom, getElem?_filter_active bound]
      split_ifs with active
      · refine ⟨0, ⟨le_rfl, active, fun ds above below => ?_⟩, rfl⟩
        omega
      · intro ds first
        obtain rfl := Nat.le_zero.mp first
        exact active
  | succ last ih =>
      have earlier := ih (Nat.lt_of_succ_lt bound)
      rw [activeDownFrom, getElem?_filter_active bound]
      by_cases active : (group.server (last + 1)).status = .active
      · rw [if_pos active]
        refine ⟨last + 1, ⟨le_rfl, active, fun ds above below => ?_⟩, rfl⟩
        omega
      · rw [if_neg active]
        dsimp only
        cases walked : activeDownFrom group.servers last with
        | none =>
            rw [walked] at earlier
            intro ds below
            rcases Nat.le_succ_iff.mp below with before | rfl
            · exact earlier ds before
            · exact active
        | some found =>
            rw [walked] at earlier
            obtain ⟨nearest, near, same⟩ := earlier
            refine ⟨nearest, ⟨near.le.trans (Nat.le_succ last), near.active, ?_⟩, same⟩
            intro ds above below
            rcases Nat.le_succ_iff.mp below with before | rfl
            · exact near.between ds above before
            · exact active

theorem mem_onlineDataServers {version ds : Nat} :
    ds ∈ onlineDataServers group version ↔ ds < group.servers.length ∧
      (group.server ds).status = .active ∧ version ≤ (group.server ds).dataVersion := by
  simp [onlineDataServers]

/-- A server that is not active leaves fewer candidates than servers. -/
theorem length_onlineDataServers_lt (bound : last < group.servers.length)
    (inactive : (group.server last).status ≠ .active) (version : Nat) :
    (onlineDataServers group version).length < group.servers.length := by
  have fewer : (onlineDataServers group version).length < (List.range group.servers.length).length := by
    refine List.length_filter_lt_length_iff_exists.mpr ⟨last, List.mem_range.mpr bound, ?_⟩
    simp [inactive]
  rwa [List.length_range] at fewer

end Choice

/-- No active server of the group has more data. -/
def Newest (group : ElectionGroup) (ds : Nat) : Prop :=
  ∀ other < group.servers.length, (group.server other).status = .active →
    (group.server other).dataVersion ≤ (group.server ds).dataVersion

/-- What an election promises: the master is active and a newest one, with the strict
policy no server at all has more data; and a round without master is retried while a
server is active. -/
structure ElectsNewest (env : ElectionEnv) (group : ElectionGroup)
    (outcome : Errno × Option Nat) : Prop where
  active : ∀ ds ∈ outcome.2, ds < group.servers.length ∧ (group.server ds).status = .active
  newest : ∀ ds ∈ outcome.2, Newest group ds
  strict : env.policy = .strict → ∀ ds ∈ outcome.2, ∀ other < group.servers.length,
    (group.server other).dataVersion ≤ (group.server ds).dataVersion
  retried : outcome.2 = none →
    (∃ ds < group.servers.length, (group.server ds).status = .active) → outcome.1 = .eagain

/-- The hash code of the group falls on a newest server, among the active ones that have
at least the data of the given one. -/
def HashPicksNewest (group : ElectionGroup) (nearest : Nat) : Prop :=
  let online := onlineDataServers group (group.server nearest).dataVersion
  ∀ ds ∈ online[group.hashCode % online.length]?, Newest group ds

/-- When all servers have settled and the one with most data is not active and has timed
out: an active server stands before it in the storage array, and once the policy allows
less data than that, the hash code falls on a newest active server. -/
def ReachesNewest (qsort : QSort Nat) (env : ElectionEnv) (start : ElectionGroup) : Prop :=
  let group := (start.beginRound env).sortPointers qsort
  let electionStartTime := group.startTimeMs.tdiv 1000
  ∀ last ∈ group.dsPtrArray.getLast?,
    (∃ ds ∈ group.servers, ds.status = .active) →
    (∀ ds ∈ group.servers, Settled env electionStartTime ds) →
    (group.server last).status ≠ .active →
    IsServerTimedout env electionStartTime (group.server last)
      (waitTimeout (group.server last).status * 3) →
    ∃ nearest, NearestActive group last nearest ∧
      (env.policy = .timeout →
        IsServerTimedout env electionStartTime (group.server last) env.timeouts →
        HashPicksNewest group nearest)

section Outcome

variable {env : ElectionEnv} {group : ElectionGroup} {electionStartTime : Int}
  {counts : ElectionCounts} {last : Nat}

theorem electsNewest_eagain (env : ElectionEnv) (group : ElectionGroup) :
    ElectsNewest env group (.eagain, none) :=
  ⟨nofun, nofun, fun _ => nofun, fun _ _ => rfl⟩

theorem ElectionGroup.IsLast.newest (isLast : group.IsLast last) : Newest group last :=
  fun _ bound _ => isLast.version _ (server_mem bound)

/-- The last one of the sort is a good choice when it is active, and so is every active
server with as much data. -/
theorem electsNewest_ok (isLast : group.IsLast last) {ds : Nat}
    (bound : ds < group.servers.length) (active : (group.server ds).status = .active)
    (most : (group.server last).dataVersion ≤ (group.server ds).dataVersion) :
    ElectsNewest env group (.ok, some ds) := by
  have all : ∀ other < group.servers.length,
      (group.server other).dataVersion ≤ (group.server ds).dataVersion :=
    fun other otherBound => (isLast.version _ (server_mem otherBound)).trans most
  constructor
  · rintro _ ⟨⟩
    exact ⟨bound, active⟩
  · rintro _ ⟨⟩ other otherBound _
    exact all other otherBound
  · rintro _ _ ⟨⟩
    exact all
  · exact nofun

/-- With a candidate there is a choice. -/
theorem pickOnline_eq (last : Nat) {version candidate : Nat}
    (member : candidate ∈ onlineDataServers group version) :
    ∃ ds ∈ onlineDataServers group version,
      (onlineDataServers group version)[group.hashCode %
        (onlineDataServers group version).length]? = some ds ∧
      pickOnline group last version =
        if (onlineDataServers group version).length = group.servers.length then (.ok, some last)
        else (.ok, some ds) := by
  have positive := List.length_pos_of_mem member
  have bound : group.hashCode % (onlineDataServers group version).length <
      (onlineDataServers group version).length := Nat.mod_lt _ positive
  have picked := List.getElem?_eq_getElem bound
  have inside := List.getElem_mem bound
  refine ⟨_, inside, picked, ?_⟩
  simp only [pickOnline, positive.ne', if_false, picked, (mem_onlineDataServers.mp inside).2.1,
    if_true]

/-- An active last server ends well on every branch. -/
theorem chooseMaster_of_active (isLast : group.IsLast last)
    (active : (group.server last).status = .active) :
    ElectsNewest env group (chooseMaster env electionStartTime counts group last) := by
  have found := activeDownFrom_spec isLast.bound
  have own : ElectsNewest env group (.ok, some last) :=
    electsNewest_ok isLast isLast.bound active le_rfl
  unfold chooseMaster
  dsimp only
  split_ifs with direct waits
  · exact own
  · cases walked : activeDownFrom group.servers last with
    | none =>
        rw [walked] at found
        exact absurd active (found last le_rfl)
    | some server =>
        rw [walked] at found
        obtain ⟨nearest, near, rfl⟩ := found
        -- the walk stops at once, at the last server itself
        obtain rfl : nearest = last := by
          by_contra distinct
          exact near.between last (lt_of_le_of_ne near.le distinct) le_rfl active
        have member : nearest ∈ onlineDataServers group (group.server nearest).dataVersion :=
          mem_onlineDataServers.mpr ⟨isLast.bound, active, le_rfl⟩
        obtain ⟨ds, candidate, _, picked⟩ := pickOnline_eq nearest member
        obtain ⟨bound, dsActive, most⟩ := mem_onlineDataServers.mp candidate
        simp only [lt_irrefl, false_and, if_false, picked]
        split_ifs with all
        · exact own
        · exact electsNewest_ok isLast bound dsActive most
  · exact electsNewest_eagain env group

/-- With an inactive last server the choice falls on a newest one exactly when the second
loop finds an active server and the hash code is lucky enough. -/
theorem chooseMaster_of_inactive (isLast : group.IsLast last)
    (inactive : (group.server last).status ≠ .active)
    (some_active : ∃ ds < group.servers.length, (group.server ds).status = .active) :
    ElectsNewest env group (chooseMaster env electionStartTime counts group last) ↔
      (IsServerTimedout env electionStartTime (group.server last)
        (waitTimeout (group.server last).status * 3) →
      ∃ nearest, NearestActive group last nearest ∧
        (env.policy = .timeout →
          IsServerTimedout env electionStartTime (group.server last) env.timeouts →
          HashPicksNewest group nearest)) := by
  have found := activeDownFrom_spec isLast.bound
  have timeout : (match (group.server last).status with
      | .active => counts.timeout
      | .online => onlineWaitTimeout * 3
      | .offline => offlineWaitTimeout * 3) = waitTimeout (group.server last).status * 3 := by
    cases status : (group.server last).status with
    | active => exact absurd status inactive
    | online => rfl
    | offline => rfl
  unfold chooseMaster
  simp only [inactive, false_and, if_false, timeout]
  by_cases waits : IsServerTimedout env electionStartTime (group.server last)
      (waitTimeout (group.server last).status * 3)
  · simp only [waits, not_true_eq_false, if_false, forall_const]
    cases walked : activeDownFrom group.servers last with
    | none =>
        rw [walked] at found
        constructor
        · intro elects
          have again : Errno.enoent = .eagain := elects.retried rfl some_active
          cases again
        · rintro ⟨nearest, near, _⟩
          exact absurd near.active (found nearest near.le)
    | some server =>
        rw [walked] at found
        obtain ⟨nearest, near, rfl⟩ := found
        have nearestBound := near.le.trans_lt isLast.bound
        have less := isLast.lt_of_active inactive (server_mem nearestBound) near.active
        have fewer := length_onlineDataServers_lt isLast.bound inactive
          (group.server nearest).dataVersion
        have member : nearest ∈ onlineDataServers group (group.server nearest).dataVersion :=
          mem_onlineDataServers.mpr ⟨nearestBound, near.active, le_rfl⟩
        obtain ⟨ds, candidate, chosen, picked⟩ := pickOnline_eq last member
        obtain ⟨bound, active, _⟩ := mem_onlineDataServers.mp candidate
        simp only [less, true_and, picked, fewer.ne, if_false]
        have only : (∃ nearest, NearestActive group last nearest ∧
            (env.policy = .timeout →
              IsServerTimedout env electionStartTime (group.server last) env.timeouts →
              HashPicksNewest group nearest)) ↔
            (env.policy = .timeout →
              IsServerTimedout env electionStartTime (group.server last) env.timeouts →
              Newest group ds) := by
          have pick : HashPicksNewest group nearest ↔ Newest group ds := by
            simp only [HashPicksNewest, chosen, Option.mem_def, Option.some.injEq, forall_eq']
          rw [← pick]
          constructor
          · rintro ⟨other, otherNear, picks⟩
            rw [near.unique otherNear]
            exact picks
          · exact fun picks => ⟨nearest, near, picks⟩
        rw [only]
        split_ifs with held
        · refine iff_of_true (electsNewest_eagain env group) fun policy expired => ?_
          rcases held with strict | waiting
          · rw [policy] at strict
            cases strict
          · exact absurd expired waiting
        · obtain ⟨lenient, expired⟩ := not_or.mp held
          have policy : env.policy = .timeout := by
            cases chosen : env.policy with
            | strict => exact absurd chosen lenient
            | timeout => rfl
          constructor
          · exact fun elects _ _ => elects.newest ds rfl
          · intro newest
            have isNewest := newest policy (not_not.mp expired)
            constructor
            · rintro _ ⟨⟩
              exact ⟨bound, active⟩
            · rintro _ ⟨⟩
              exact isNewest
            · exact fun strict => absurd strict lenient
            · exact nofun
  · simp only [waits, not_false_eq_true, if_true, false_imp_iff, iff_true]
    exact electsNewest_eagain env group

end Outcome

section Round

variable (start : ElectionGroup) (env : ElectionEnv)

/-- A round begins without touching what is elected by. -/
theorem length_beginRound : (start.beginRound env).servers.length = start.servers.length := by
  unfold ElectionGroup.beginRound
  split_ifs
  · exact start.length_reportMyself env
  · rfl

theorem server_reportMyself (ds : Nat) :
    ((start.reportMyself env).getD ds default).status = (start.server ds).status ∧
      ((start.reportMyself env).getD ds default).dataVersion = (start.server ds).dataVersion := by
  unfold ElectionGroup.reportMyself ElectionGroup.server
  split
  · rename_i myself _ _
    rw [List.getD_eq_getElem?_getD, List.getD_eq_getElem?_getD, List.getElem?_modify]
    cases start.servers[ds]? with
    | none => exact ⟨rfl, rfl⟩
    | some server =>
        by_cases same : myself = ds
        · simp [same]
        · simp [same]
  · exact ⟨rfl, rfl⟩

theorem server_beginRound (ds : Nat) :
    ((start.beginRound env).server ds).status = (start.server ds).status ∧
      ((start.beginRound env).server ds).dataVersion = (start.server ds).dataVersion := by
  unfold ElectionGroup.beginRound
  split_ifs
  · exact server_reportMyself start env ds
  · exact ⟨rfl, rfl⟩

/-- The promise is about statuses and data versions only. -/
theorem electsNewest_congr {group other : ElectionGroup}
    (length : group.servers.length = other.servers.length)
    (status : ∀ ds, (group.server ds).status = (other.server ds).status)
    (version : ∀ ds, (group.server ds).dataVersion = (other.server ds).dataVersion)
    {outcome : Errno × Option Nat} (elects : ElectsNewest env group outcome) :
    ElectsNewest env other outcome := by
  obtain ⟨active, newest, strict, retried⟩ := elects
  simp only [Newest, length, status, version] at active newest strict retried
  exact ⟨active, newest, strict, retried⟩

theorem electsNewest_sorted_iff (qsort : QSort Nat) (outcome : Errno × Option Nat) :
    ElectsNewest env ((start.beginRound env).sortPointers qsort) outcome ↔
      ElectsNewest env start outcome := by
  have length : ((start.beginRound env).sortPointers qsort).servers.length =
      start.servers.length := by
    rw [sortPointers_servers, length_beginRound]
  have status : ∀ ds, (((start.beginRound env).sortPointers qsort).server ds).status =
      (start.server ds).status := by
    intro ds
    rw [sortPointers_server]
    exact (server_beginRound start env ds).1
  have version : ∀ ds, (((start.beginRound env).sortPointers qsort).server ds).dataVersion =
      (start.server ds).dataVersion := by
    intro ds
    rw [sortPointers_server]
    exact (server_beginRound start env ds).2
  constructor
  · exact electsNewest_congr env length status version
  · exact electsNewest_congr env length.symm (fun ds => (status ds).symm)
      fun ds => (version ds).symm

end Round

/-- With failover, an election keeps its promise exactly when the walk from the server
with most data and the hash code lead to a newest active one. -/
theorem selectMaster_elects_newest_iff (qsort : QSort Nat) (env : ElectionEnv)
    (start : ElectionGroup) (failover : env.failover = true) :
    ElectsNewest env start (selectMaster qsort env start).1 ↔ ReachesNewest qsort env start := by
  have servers : ((start.beginRound env).sortPointers qsort).servers =
      (start.beginRound env).servers := sortPointers_servers _ _
  have time : ((start.beginRound env).sortPointers qsort).startTimeMs =
      (start.beginRound env).startTimeMs := sortPointers_startTimeMs _ _
  unfold selectMaster ReachesNewest
  simp only [failover, Bool.true_eq_false, if_false, servers, time]
  cases counted : countServers env ((start.beginRound env).startTimeMs.tdiv 1000)
      (start.beginRound env).servers ⟨0, 0, 0, 0, 0⟩ with
  | none =>
      obtain ⟨ds, member, waits⟩ := not_settled_of_countServers counted
      refine iff_of_true (electsNewest_eagain env start) fun last _ _ settled => ?_
      exact absurd (settled ds member) waits
  | some counts =>
      dsimp only
      have goesOn := goesOn_iff counted
      split_ifs with held
      · refine iff_of_true (electsNewest_eagain env start) fun last _ active settled => ?_
        exact absurd held (goesOn.mpr ⟨active, settled⟩)
      · obtain ⟨someActive, settled⟩ := goesOn.mp held
        rw [← servers] at someActive
        have index : ∃ ds < ((start.beginRound env).sortPointers qsort).servers.length,
            (((start.beginRound env).sortPointers qsort).server ds).status = .active := by
          obtain ⟨_, member, active⟩ := someActive
          obtain ⟨pointer, listed, rfl⟩ := exists_pointer member
          exact ⟨pointer, lt_length_of_mem_dsPtrArray listed, active⟩
        cases isLast : ((start.beginRound env).sortPointers qsort).dsPtrArray.getLast? with
        | none =>
            obtain ⟨_, member, _⟩ := someActive
            obtain ⟨pointer, listed, _⟩ := exists_pointer member
            rw [List.getLast?_eq_none_iff.mp isLast] at listed
            cases listed
        | some last =>
            have largest := isLast_of_sortPointers isLast
            rw [servers] at someActive
            simp only [Option.mem_def, Option.some.injEq, forall_eq', someActive, true_imp_iff]
            rw [← electsNewest_sorted_iff start env qsort]
            by_cases active :
                (((start.beginRound env).sortPointers qsort).server last).status = .active
            · refine iff_of_true (chooseMaster_of_active largest active) fun _ inactive => ?_
              exact absurd active inactive
            · rw [chooseMaster_of_inactive largest active index]
              constructor
              · exact fun picks _ _ => picks
              · exact fun picks => picks settled active

/-- Four servers, the third with most data and offline for long. -/
def groupOfFour (first second fourth : Nat) : ElectionGroup where
  hashCode := 1
  startTimeMs := 1000000
  retryCount := 3
  servers := [⟨.active, 2000, 0, false, false, first⟩, ⟨.active, 2000, 0, false, false, second⟩,
    ⟨.offline, 0, 900, false, false, 9⟩, ⟨.active, 2000, 0, true, false, fourth⟩]
  dsPtrArray := [0, 1, 2, 3]
  myself := some 0
  pointers := List.Perm.refl _

/-- Failover with less data after ten minutes. -/
def timeoutPolicy : ElectionEnv := ⟨true, .timeout, 600, true, 2000, 2000000⟩

/-- The newest active server stands right before the offline one. -/
theorem selectMaster_elects_second :
    timeoutPolicy.failover = true ∧
      (selectMaster (QSort.insertion Nat) timeoutPolicy (groupOfFour 4 5 3)).1 = (.ok, some 1) ∧
      ReachesNewest (QSort.insertion Nat) timeoutPolicy (groupOfFour 4 5 3) := by
  have result : (selectMaster (QSort.insertion Nat) timeoutPolicy (groupOfFour 4 5 3)).1 =
      (.ok, some 1) := by decide +kernel
  refine ⟨rfl, result, (selectMaster_elects_newest_iff _ _ _ rfl).mp ?_⟩
  rw [result]
  constructor
  · rintro _ ⟨⟩
    exact ⟨by decide, rfl⟩
  · rintro _ ⟨⟩
    unfold Newest
    decide
  · exact nofun
  · exact nofun

/-- The newest active server stands behind the offline one, an older one is elected. -/
theorem selectMaster_elects_older :
    ¬ ∀ (qsort : QSort Nat) (env : ElectionEnv) (start : ElectionGroup), env.failover = true →
      ElectsNewest env start (selectMaster qsort env start).1 := by
  intro claimed
  have elects := claimed (QSort.insertion Nat) timeoutPolicy (groupOfFour 5 4 7) rfl
  have result : (selectMaster (QSort.insertion Nat) timeoutPolicy (groupOfFour 5 4 7)).1 =
      (.ok, some 1) := by decide +kernel
  rw [result] at elects
  exact absurd (elects.newest 1 rfl 3 (by decide) rfl) (by decide)

end FastStore.Cluster
