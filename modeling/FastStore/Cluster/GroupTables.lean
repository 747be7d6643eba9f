import FastStore.Cluster.ClusterCfg
import Mathlib.Order.Interval.Finset.Basic
import Mathlib.Data.Int.Interval

/-!
# Tables with an entry for each data group

Three tables of a server have one entry for each of its data groups and are indexed by the
difference to a base id: `CLUSTER_DATA_RGOUP_ARRAY.groups`, the writers of the replica binlogs and
the instances of an RPC result ring.  The first one is made for the data groups of an associated
server, the one with the most; the ring has as many instances as the server has data groups.
-/

namespace FastStore.Cluster

/-! ## Servers of a group -/

/-- Where `fs_cluster_cfg_add_one_server` puts a server: the array is in the order of the ids. -/
def insertServer (svr : Int) : List Int → List Int
  | [] => [svr]
  | first :: rest =>
      if first = svr then first :: rest
      else if svr < first then svr :: first :: rest
      else first :: insertServer svr rest

/-- `fs_cluster_cfg_add_servers`, `none` if the array has not that size. -/
def addServers (size : Nat) : List Int → List Int → Option (List Int)
  | [], servers => some servers
  | svr :: rest, servers =>
      if size < (insertServer svr servers).length then none
      else addServers size rest (insertServer svr servers)

/-- The loop of `get_unique_servers`: a server group that is the one before is skipped. -/
def addGroups (size : Nat) :
    Option FSServerGroup → List FSServerGroup → List Int → Option (List Int)
  | _, [], servers => some servers
  | last, group :: rest, servers =>
      if last = some group then addGroups size (some group) rest servers
      else do
        let added ← addServers size group.serverArray servers
        addGroups size (some group) rest added

/-- `get_unique_servers`. -/
def getUniqueServers (size : Nat) (groups : List FSServerGroup) : Option (List Int) :=
  if groups = [] then none
  else
    addGroups size none
      (groups.insertionSort fun left right => left.serverGroupId ≤ right.serverGroupId) []

namespace FSClusterConfig

variable (cfg : FSClusterConfig)

/-- `fs_cluster_cfg_get_my_group_servers`. -/
def getMyGroupServers (serverId : Int) : Option (List Int) := do
  let ids ← cfg.serverData serverId
  getUniqueServers fsMaxGroupServers (ids.filterMap cfg.serverGroup)

/-- The loop of `fs_cluster_cfg_get_assoc_data_group_ids`. -/
def maxGidArray : Option (List Int) → List Int → Option (List Int)
  | best, [] => best
  | best, serverId :: rest =>
      match best, cfg.serverData serverId with
      | none, idArray => maxGidArray idArray rest
      | some ids, none => maxGidArray (some ids) rest
      | some ids, some others =>
          maxGidArray (some (if ids.length < others.length then others else ids)) rest

/-- `fs_cluster_cfg_get_assoc_data_group_ids`. -/
def getAssocDataGroupIds (serverId : Int) : Option (List Int) := do
  let servers ← cfg.getMyGroupServers serverId
  cfg.maxGidArray none servers

/-- `fs_cluster_cfg_get_assoc_group_info`: the associated data groups and their servers. -/
def getAssocGroupInfo (serverId : Int) : Option (List Int × List Int) := do
  let ids ← cfg.getAssocDataGroupIds serverId
  if fsMaxDataGroupsPerServer < ids.length then none
  else
    let servers ← getUniqueServers fsMaxGroupServers (ids.filterMap cfg.serverGroup)
    some (ids, servers)

/-- `init_cluster_server_array` up to the data groups: the server and its partners are among the
servers of the cluster.  The result is the associated data groups. -/
def initClusterServerArray (serverId : Int) : Option (List Int) := do
  let info ← cfg.getAssocGroupInfo serverId
  if serverId ∉ info.2 then none
  else
    let partners ← cfg.getMyGroupServers serverId
    if ∀ partner ∈ partners, partner ∈ info.2 then some info.1 else none

end FSClusterConfig

/-! ## Tables -/

/-- A table that is indexed by the difference to a base id, with the data group that each entry is
of. -/
structure GroupTable where
  baseId : Int
  entries : List (Option Int)
  deriving DecidableEq, Repr

/-- The table of this base and size with the entries of these data groups set. -/
def GroupTable.set (baseId : Int) (count : Nat) (ids : List Int) : GroupTable :=
  ⟨baseId, ids.foldl (fun entries id => entries.set (id - baseId).toNat (some id))
    (List.replicate count none)⟩

/-- The index lies in the table, and the entry there is the one of the data group. -/
def GroupTable.Reaches (table : GroupTable) (id : Int) : Prop :=
  0 ≤ id - table.baseId ∧ table.entries[(id - table.baseId).toNat]? = some (some id)

instance (table : GroupTable) (id : Int) : Decidable (table.Reaches id) :=
  inferInstanceAs (Decidable (_ ∧ _))

/-- `fs_cluster_cfg_get_min_data_group_id` and `fs_cluster_cfg_get_max_data_group_id`. -/
def minDataGroupId (ids : List Int) : Int := ids.headD (-1)

def maxDataGroupId (ids : List Int) : Int := ids.getLastD (-1)

/-- `init_cluster_data_group_array`. -/
def initClusterDataGroupArray (assocGidArray : List Int) : Option GroupTable :=
  if minDataGroupId assocGidArray ≤ 0 ∨ maxDataGroupId assocGidArray ≤ 0 then none
  else
    some (GroupTable.set (minDataGroupId assocGidArray)
      (maxDataGroupId assocGidArray - minDataGroupId assocGidArray + 1).toNat assocGidArray)

/-- `replica_binlog_init`, with the count of `CLUSTER_DATA_RGOUP_ARRAY`. -/
def replicaBinlogInit (groupCount : Nat) (idArray : List Int) : Option GroupTable :=
  if minDataGroupId idArray ≤ 0 then none
  else some (GroupTable.set (minDataGroupId idArray) groupCount idArray)

/-- `rpc_result_ring_check_init`: the instances are numbered from the base on. -/
def rpcResultRingCheckInit (idArray : List Int) : GroupTable :=
  ⟨minDataGroupId idArray,
    (List.range idArray.length).map fun i : Nat => some (minDataGroupId idArray + i)⟩

/-- The tables of a server. -/
structure GroupTables where
  groups : GroupTable
  writers : GroupTable
  instances : GroupTable
  deriving DecidableEq, Repr

/-- The tables as a server makes them, nothing if it does not come to them. -/
def FSClusterConfig.groupTables (cfg : FSClusterConfig) (serverId : Int) :
    Option GroupTables := do
  let assocGidArray ← cfg.initClusterServerArray serverId
  let groups ← initClusterDataGroupArray assocGidArray
  let idArray ← cfg.serverData serverId
  let writers ← replicaBinlogInit groups.entries.length idArray
  some ⟨groups, writers, rpcResultRingCheckInit idArray⟩

/-- Every access for a data group of the server is inside its table and finds its entry. -/
def GroupTables.Cover (tables : GroupTables) (ids : List Int) : Prop :=
  ∀ id ∈ ids, tables.groups.Reaches id ∧ tables.writers.Reaches id ∧ tables.instances.Reaches id

instance (tables : GroupTables) (ids : List Int) : Decidable (tables.Cover ids) :=
  inferInstanceAs (Decidable (∀ id ∈ ids, _))

/-! ## The conditions -/

/-- No id between two of the ids is left out. -/
def Contiguous (ids : List Int) : Prop :=
  ∀ low ∈ ids, ∀ high ∈ ids, ∀ id, low ≤ id → id ≤ high → id ∈ ids

namespace FSClusterConfig

variable (cfg : FSClusterConfig)

/-- The data groups of a server. -/
def idsOf (serverId : Int) : List Int := (cfg.serverData serverId).getD []

/-- The servers have a data group in common. -/
def Associated (serverId peer : Int) : Prop := ∃ id ∈ cfg.idsOf serverId, id ∈ cfg.idsOf peer

/-- The associated server with the most data groups, the first of them by id. -/
structure Widest (serverId peer : Int) : Prop where
  associated : cfg.Associated serverId peer
  most : ∀ other, cfg.Associated serverId other →
    (cfg.idsOf other).length ≤ (cfg.idsOf peer).length
  first : ∀ other, cfg.Associated serverId other → other < peer →
    (cfg.idsOf other).length < (cfg.idsOf peer).length

end FSClusterConfig

/-! ## What the tables reach -/

namespace GroupTable

variable {baseId id : Int} {count : Nat} {ids : List Int}

theorem getElem?_set (least : ∀ id ∈ ids, baseId ≤ id) (entries : List (Option Int)) (k : Nat) :
    (ids.foldl (fun entries id => entries.set (id - baseId).toNat (some id)) entries)[k]? =
      if baseId + k ∈ ids ∧ k < entries.length then some (some (baseId + k)) else entries[k]? := by
  induction ids generalizing entries with
  | nil => exact (if_neg fun both => absurd both.1 List.not_mem_nil).symm
  | cons first rest ih =>
      have lowest := least first List.mem_cons_self
      rw [List.foldl_cons, ih fun id member => least id (List.mem_cons_of_mem _ member),
        List.length_set, List.getElem?_set]
      by_cases isFirst : baseId + k = first
      · have index : (first - baseId).toNat = k := by omega
        simp only [isFirst, List.mem_cons_self, true_and, index, if_true]
        by_cases inside : k < entries.length
        · simp only [inside, and_true, if_true, ite_self]
        · simp only [inside, and_false, if_false]
          exact (List.getElem?_eq_none (not_lt.mp inside)).symm
      · have other : (first - baseId).toNat ≠ k := by omega
        simp only [List.mem_cons, isFirst, false_or, other, if_false]

theorem reaches_set_iff (least : ∀ id ∈ ids, baseId ≤ id) :
    (GroupTable.set baseId count ids).Reaches id ↔
      baseId ≤ id ∧ id - baseId < count ∧ id ∈ ids := by
  unfold Reaches set
  dsimp only
  rw [getElem?_set least, List.length_replicate]
  constructor
  · rintro ⟨nonneg, found⟩
    have same : baseId + ((id - baseId).toNat : Int) = id := by omega
    rw [same] at found
    split_ifs at found with both
    · exact ⟨by omega, by omega, both.1⟩
    · rw [List.getElem?_replicate] at found
      split_ifs at found
      cases found
  · rintro ⟨low, inside, member⟩
    have same : baseId + ((id - baseId).toNat : Int) = id := by omega
    rw [same, if_pos ⟨member, by omega⟩]
    exact ⟨by omega, rfl⟩

@[simp] theorem length_entries_set : (GroupTable.set baseId count ids).entries.length = count := by
  have kept : ∀ entries : List (Option Int),
      (ids.foldl (fun entries id => entries.set (id - baseId).toNat (some id)) entries).length =
        entries.length := by
    induction ids with
    | nil => exact fun _ => rfl
    | cons first rest ih =>
        intro entries
        rw [List.foldl_cons, ih, List.length_set]
  rw [set, kept, List.length_replicate]

end GroupTable

section Ascending

variable {ids : List Int}

theorem minDataGroupId_le (ascending : ids.Pairwise (· < ·)) {id : Int} (member : id ∈ ids) :
    minDataGroupId ids ≤ id := by
  cases ids with
  | nil => cases member
  | cons first rest =>
      rcases List.mem_cons.mp member with rfl | behind
      · exact le_rfl
      · exact ((List.pairwise_cons.mp ascending).1 id behind).le

theorem le_maxDataGroupId (ascending : ids.Pairwise (· < ·)) {id : Int} (member : id ∈ ids) :
    id ≤ maxDataGroupId ids := by
  have some : ids ≠ [] := List.ne_nil_of_mem member
  have last : maxDataGroupId ids = ids.getLast some := by
    rw [maxDataGroupId, List.getLastD_eq_getLast?, List.getLast?_eq_getLast_of_ne_nil some]
    rfl
  rw [last]
  rw [← List.dropLast_append_getLast some] at ascending member
  rcases List.mem_append.mp member with front | isLast
  · exact ((List.pairwise_append.mp ascending).2.2 id front _ (List.mem_singleton_self _)).le
  · exact (List.mem_singleton.mp isLast).le

theorem minDataGroupId_mem (some : ids ≠ []) : minDataGroupId ids ∈ ids := by
  cases ids with
  | nil => exact absurd rfl some
  | cons first rest => exact List.mem_cons_self

/-- The ids are contiguous exactly when none of them is as far from the first one as there are
ids. -/
theorem contiguous_iff (ascending : ids.Pairwise (· < ·)) :
    Contiguous ids ↔ ∀ id ∈ ids, id - minDataGroupId ids < ids.length := by
  have distinct : ids.Nodup := ascending.imp ne_of_lt
  have card : ids.toFinset.card = ids.length := List.toFinset_card_of_nodup distinct
  constructor
  · intro contiguous id member
    have some : ids ≠ [] := List.ne_nil_of_mem member
    have between : Finset.Icc (minDataGroupId ids) id ⊆ ids.toFinset := by
      intro other inside
      obtain ⟨low, high⟩ := Finset.mem_Icc.mp inside
      exact List.mem_toFinset.mpr
        (contiguous _ (minDataGroupId_mem some) id member other low high)
    have fits := Finset.card_le_card between
    rw [card, Int.card_Icc] at fits
    omega
  · intro short low isLow high isHigh id least most
    have inside : ids.toFinset ⊆
        Finset.Ico (minDataGroupId ids) (minDataGroupId ids + ids.length) := by
      intro other member
      have listed := List.mem_toFinset.mp member
      have lower := minDataGroupId_le ascending listed
      have upper := short other listed
      exact Finset.mem_Ico.mpr ⟨lower, by omega⟩
    have all : ids.toFinset =
        Finset.Ico (minDataGroupId ids) (minDataGroupId ids + ids.length) := by
      apply Finset.eq_of_subset_of_card_le inside
      rw [card, Int.card_Ico]
      omega
    have lower := minDataGroupId_le ascending isLow
    have upper := short high isHigh
    exact List.mem_toFinset.mp (all ▸ Finset.mem_Ico.mpr ⟨by omega, by omega⟩)

end Ascending

/-! ## Associated servers -/

theorem insertServer_spec (svr : Int) {servers : List Int} (ascending : servers.Pairwise (· < ·)) :
    (insertServer svr servers).Pairwise (· < ·) ∧
      ∀ other, other ∈ insertServer svr servers ↔ other = svr ∨ other ∈ servers := by
  induction servers with
  | nil => exact ⟨List.pairwise_singleton _ _, fun other => by simp [insertServer]⟩
  | cons first rest ih =>
      obtain ⟨above, later⟩ := List.pairwise_cons.mp ascending
      obtain ⟨tail, members⟩ := ih later
      rw [insertServer]
      split_ifs with same less
      · refine ⟨ascending, fun other => ?_⟩
        rw [← same, List.mem_cons, ← or_assoc, or_self]
      · refine ⟨List.pairwise_cons.mpr ⟨fun other member => ?_, ascending⟩, fun other => ?_⟩
        · rcases List.mem_cons.mp member with rfl | behind
          · exact less
          · exact less.trans (above other behind)
        · rw [List.mem_cons]
      · refine ⟨List.pairwise_cons.mpr ⟨fun other member => ?_, tail⟩, fun other => ?_⟩
        · rcases (members other).mp member with rfl | behind
          · omega
          · exact above other behind
        · rw [List.mem_cons, members, List.mem_cons, or_left_comm]

theorem addServers_spec {size : Nat} {group servers added : List Int}
    (ascending : servers.Pairwise (· < ·)) (done : addServers size group servers = some added) :
    added.Pairwise (· < ·) ∧ ∀ other, other ∈ added ↔ other ∈ group ∨ other ∈ servers := by
  induction group generalizing servers with
  | nil =>
      cases done
      exact ⟨ascending, fun other => (or_iff_right List.not_mem_nil).symm⟩
  | cons svr rest ih =>
      rw [addServers] at done
      split_ifs at done
      obtain ⟨sorted, members⟩ := insertServer_spec svr ascending
      obtain ⟨addedSorted, addedMembers⟩ := ih sorted done
      refine ⟨addedSorted, fun other => ?_⟩
      rw [addedMembers, members, List.mem_cons, or_left_comm, or_assoc]

theorem addGroups_spec {size : Nat} {last : Option FSServerGroup} {groups : List FSServerGroup}
    {servers added : List Int} (ascending : servers.Pairwise (· < ·))
    (before : ∀ group, last = some group → ∀ svr ∈ group.serverArray, svr ∈ servers)
    (done : addGroups size last groups servers = some added) :
    added.Pairwise (· < ·) ∧
      ∀ other, other ∈ added ↔ (∃ group ∈ groups, other ∈ group.serverArray) ∨ other ∈ servers := by
  induction groups generalizing last servers with
  | nil =>
      cases done
      exact ⟨ascending, fun other => by simp⟩
  | cons group rest ih =>
      rw [addGroups] at done
      split_ifs at done with same
      · obtain ⟨sorted, members⟩ := ih ascending (fun other isOther => by
          cases isOther
          exact before group same) done
        refine ⟨sorted, fun other => ?_⟩
        rw [members, List.exists_mem_cons_iff, or_assoc]
        constructor
        · exact Or.inr
        · rintro (here | found)
          · exact Or.inr (before group same other here)
          · exact found
      · obtain ⟨next, isNext, later⟩ := Option.bind_eq_some_iff.mp done
        obtain ⟨nextSorted, nextMembers⟩ := addServers_spec ascending isNext
        obtain ⟨sorted, members⟩ := ih nextSorted (fun other isOther svr here => by
          cases isOther
          exact (nextMembers svr).mpr (Or.inl here)) later
        refine ⟨sorted, fun other => ?_⟩
        rw [members, nextMembers, List.exists_mem_cons_iff, or_left_comm, or_assoc]

/-- The servers of some server groups, each once. -/
theorem getUniqueServers_spec {size : Nat} {groups : List FSServerGroup} {servers : List Int}
    (done : getUniqueServers size groups = some servers) :
    groups ≠ [] ∧ servers.Pairwise (· < ·) ∧
      ∀ other, other ∈ servers ↔ ∃ group ∈ groups, other ∈ group.serverArray := by
  rw [getUniqueServers] at done
  split_ifs at done with empty
  obtain ⟨sorted, members⟩ :=
    addGroups_spec List.Pairwise.nil (fun group same => by cases same) done
  refine ⟨empty, sorted, fun other => ?_⟩
  rw [members, or_iff_left List.not_mem_nil]
  simp only [List.mem_insertionSort]

namespace FSClusterConfig

variable {cfg : FSClusterConfig} {serverId : Int}

theorem mem_idsOf_iff (sound : cfg.Sound) {id : Int} :
    id ∈ cfg.idsOf serverId ↔
      ∃ group, cfg.serverGroup id = some group ∧ serverId ∈ group.serverArray := by
  rw [idsOf]
  cases found : cfg.serverData serverId with
  | some ids => exact sound.member serverId ids found id
  | none =>
      refine iff_of_false List.not_mem_nil ?_
      rintro ⟨group, isGroup, inGroup⟩
      have known := sound.known id group isGroup serverId inGroup
      rw [found] at known
      cases known

/-- The servers of the server groups of a server are those that share a data group with it. -/
theorem getMyGroupServers_spec (sound : cfg.Sound) {servers : List Int}
    (done : cfg.getMyGroupServers serverId = some servers) :
    servers ≠ [] ∧ servers.Pairwise (· < ·) ∧
      ∀ peer, peer ∈ servers ↔ cfg.Associated serverId peer := by
  obtain ⟨ids, isIds, unique⟩ := Option.bind_eq_some_iff.mp done
  obtain ⟨some, sorted, members⟩ := getUniqueServers_spec unique
  have own : cfg.idsOf serverId = ids := by
    rw [idsOf, isIds]
    rfl
  have associated : ∀ peer, peer ∈ servers ↔ cfg.Associated serverId peer := by
    intro peer
    rw [members, Associated, own]
    constructor
    · rintro ⟨group, inGroups, inGroup⟩
      obtain ⟨id, listed, isGroup⟩ := List.mem_filterMap.mp inGroups
      exact ⟨id, listed, (mem_idsOf_iff sound).mpr ⟨group, isGroup, inGroup⟩⟩
    · rintro ⟨id, listed, ofPeer⟩
      obtain ⟨group, isGroup, inGroup⟩ := (mem_idsOf_iff sound).mp ofPeer
      exact ⟨group, List.mem_filterMap.mpr ⟨id, listed, isGroup⟩, inGroup⟩
  refine ⟨?_, sorted, associated⟩
  obtain ⟨group, rest, groups⟩ := List.exists_cons_of_ne_nil some
  obtain ⟨id, listed, isGroup⟩ := List.mem_filterMap.mp (groups ▸ List.mem_cons_self)
  have ofServer : id ∈ cfg.idsOf serverId := own ▸ listed
  exact List.ne_nil_of_mem ((associated serverId).mpr ⟨id, ofServer, ofServer⟩)

/-- The loop keeps the data groups of the first server with the most of them. -/
theorem maxGidArray_spec {best : Int} {ids result : List Int} {servers : List Int}
    (isBest : cfg.serverData best = some ids)
    (known : ∀ serverId ∈ servers, (cfg.serverData serverId).isSome)
    (done : cfg.maxGidArray (some ids) servers = some result)
    (ascending : (best :: servers).Pairwise (· < ·)) :
    ∃ peer ∈ best :: servers, cfg.serverData peer = some result ∧
      ∀ other ∈ best :: servers, (cfg.idsOf other).length ≤ result.length ∧
        (other < peer → (cfg.idsOf other).length < result.length) := by
  have own {svr : Int} {found : List Int} (isFound : cfg.serverData svr = some found) :
      cfg.idsOf svr = found := by
    rw [idsOf, isFound]
    rfl
  induction servers generalizing best ids with
  | nil =>
      cases done
      refine ⟨best, List.mem_cons_self, isBest, fun other member => ?_⟩
      rw [List.mem_singleton.mp member, own isBest]
      exact ⟨le_rfl, fun less => absurd less (lt_irrefl best)⟩
  | cons next rest ih =>
      obtain ⟨others, isNext⟩ := Option.isSome_iff_exists.mp (known next List.mem_cons_self)
      have later := fun svr member => known svr (List.mem_cons_of_mem next member)
      obtain ⟨above, tail⟩ := List.pairwise_cons.mp ascending
      simp only [maxGidArray, isNext] at done
      by_cases more : ids.length < others.length
      · rw [if_pos more] at done
        obtain ⟨peer, isPeer, found, most⟩ := ih isNext later done tail
        refine ⟨peer, List.mem_cons_of_mem _ isPeer, found, fun other member => ?_⟩
        rcases List.mem_cons.mp member with rfl | behind
        · have least := (most next List.mem_cons_self).1
          rw [own isNext] at least
          rw [own isBest]
          exact ⟨(more.trans_le least).le, fun _ => more.trans_le least⟩
        · exact most other behind
      · rw [if_neg more] at done
        have skipped : (best :: rest).Pairwise (· < ·) :=
          List.pairwise_cons.mpr ⟨fun svr member => above svr (List.mem_cons_of_mem _ member),
            (List.pairwise_cons.mp tail).2⟩
        obtain ⟨peer, isPeer, found, most⟩ := ih isBest later done skipped
        have first := most best List.mem_cons_self
        rw [own isBest] at first
        refine ⟨peer, ?_, found, fun other member => ?_⟩
        · rcases List.mem_cons.mp isPeer with rfl | behind
          · exact List.mem_cons_self
          · exact List.mem_cons_of_mem _ (List.mem_cons_of_mem _ behind)
        · rcases List.mem_cons.mp member with rfl | behind
          · exact most other List.mem_cons_self
          · rcases List.mem_cons.mp behind with rfl | further
            · rw [own isNext]
              refine ⟨(not_lt.mp more).trans first.1, fun less => ?_⟩
              have before : best < peer := (above other List.mem_cons_self).trans less
              exact (not_lt.mp more).trans_lt (first.2 before)
            · exact most other (List.mem_cons_of_mem _ further)

theorem Widest.unique {first second : Int} (left : cfg.Widest serverId first)
    (right : cfg.Widest serverId second) : first = second := by
  rcases lt_trichotomy first second with less | same | less
  · exact absurd (left.most second right.associated)
      (not_le.mpr (right.first first left.associated less))
  · exact same
  · exact absurd (right.most first left.associated)
      (not_le.mpr (left.first second right.associated less))

/-- The associated data groups are those of the widest associated server. -/
theorem widest_of_getAssocDataGroupIds (sound : cfg.Sound) {ids : List Int}
    (done : cfg.getAssocDataGroupIds serverId = some ids) :
    ∃ peer, cfg.Widest serverId peer ∧ cfg.serverData peer = some ids := by
  obtain ⟨servers, isServers, kept⟩ := Option.bind_eq_some_iff.mp done
  obtain ⟨some, ascending, members⟩ := getMyGroupServers_spec sound isServers
  obtain ⟨first, rest, rfl⟩ := List.exists_cons_of_ne_nil some
  have known : ∀ svr ∈ first :: rest, (cfg.serverData svr).isSome := by
    intro svr member
    obtain ⟨id, -, ofPeer⟩ := (members svr).mp member
    obtain ⟨group, isGroup, inGroup⟩ := (mem_idsOf_iff sound).mp ofPeer
    exact sound.known id group isGroup svr inGroup
  obtain ⟨firstIds, isFirst⟩ := Option.isSome_iff_exists.mp (known first List.mem_cons_self)
  simp only [maxGidArray, isFirst] at kept
  obtain ⟨peer, isPeer, found, most⟩ := maxGidArray_spec isFirst
    (fun svr member => known svr (List.mem_cons_of_mem _ member)) kept ascending
  have own : cfg.idsOf peer = ids := by
    rw [idsOf, found]
    rfl
  refine ⟨peer, ⟨(members peer).mp isPeer, fun other shares => ?_, fun other shares => ?_⟩, found⟩
  · rw [own]
    exact (most other ((members other).mpr shares)).1
  · rw [own]
    exact (most other ((members other).mpr shares)).2

end FSClusterConfig

/-! ## The tables of a server -/

section Tables

variable {cfg : FSClusterConfig} {serverId : Int} {tables : GroupTables}

/-- How the tables are made. -/
theorem groupTables_cases (made : cfg.groupTables serverId = some tables) :
    ∃ assocGidArray idArray, cfg.getAssocDataGroupIds serverId = some assocGidArray ∧
      cfg.serverData serverId = some idArray ∧
      initClusterDataGroupArray assocGidArray = some tables.groups ∧
      replicaBinlogInit tables.groups.entries.length idArray = some tables.writers ∧
      tables.instances = rpcResultRingCheckInit idArray := by
  obtain ⟨assocGidArray, isAssoc, rest⟩ := Option.bind_eq_some_iff.mp made
  obtain ⟨groups, isGroups, rest⟩ := Option.bind_eq_some_iff.mp rest
  obtain ⟨idArray, isIds, rest⟩ := Option.bind_eq_some_iff.mp rest
  obtain ⟨writers, isWriters, same⟩ := Option.bind_eq_some_iff.mp rest
  cases same
  obtain ⟨info, isInfo, rest⟩ := Option.bind_eq_some_iff.mp isAssoc
  split_ifs at rest with inside
  obtain ⟨partners, -, rest⟩ := Option.bind_eq_some_iff.mp rest
  split_ifs at rest
  cases rest
  obtain ⟨ids, associated, rest⟩ := Option.bind_eq_some_iff.mp isInfo
  split_ifs at rest
  obtain ⟨servers, -, same⟩ := Option.bind_eq_some_iff.mp rest
  cases same
  exact ⟨ids, idArray, associated, isIds, isGroups, isWriters, rfl⟩

/-- The table of the data groups reaches those that it is made for. -/
theorem reaches_groups_iff {assocGidArray : List Int} {groups : GroupTable}
    (ascending : assocGidArray.Pairwise (· < ·))
    (made : initClusterDataGroupArray assocGidArray = some groups) (id : Int) :
    groups.Reaches id ↔ id ∈ assocGidArray := by
  rw [initClusterDataGroupArray] at made
  split_ifs at made
  cases made
  rw [GroupTable.reaches_set_iff fun other member => minDataGroupId_le ascending member]
  constructor
  · exact fun reached => reached.2.2
  · intro member
    have low := minDataGroupId_le ascending member
    have high := le_maxDataGroupId ascending member
    exact ⟨low, by omega, member⟩

theorem length_groups {assocGidArray : List Int} {groups : GroupTable}
    (made : initClusterDataGroupArray assocGidArray = some groups) :
    groups.entries.length =
      (maxDataGroupId assocGidArray - minDataGroupId assocGidArray + 1).toNat := by
  rw [initClusterDataGroupArray] at made
  split_ifs at made
  cases made
  exact GroupTable.length_entries_set

theorem reaches_writers_iff {groupCount : Nat} {idArray : List Int} {writers : GroupTable}
    (ascending : idArray.Pairwise (· < ·))
    (made : replicaBinlogInit groupCount idArray = some writers) {id : Int}
    (member : id ∈ idArray) :
    writers.Reaches id ↔ id - minDataGroupId idArray < groupCount := by
  rw [replicaBinlogInit] at made
  split_ifs at made
  cases made
  rw [GroupTable.reaches_set_iff fun other listed => minDataGroupId_le ascending listed]
  exact ⟨fun reached => reached.2.1,
    fun inside => ⟨minDataGroupId_le ascending member, inside, member⟩⟩

theorem reaches_instances_iff {idArray : List Int} (ascending : idArray.Pairwise (· < ·)) {id : Int}
    (member : id ∈ idArray) :
    (rpcResultRingCheckInit idArray).Reaches id ↔
      id - minDataGroupId idArray < idArray.length := by
  have low := minDataGroupId_le ascending member
  unfold GroupTable.Reaches rpcResultRingCheckInit
  dsimp only
  rw [List.getElem?_map]
  constructor
  · rintro ⟨nonneg, found⟩
    obtain ⟨k, isK, -⟩ := Option.map_eq_some_iff.mp found
    have inside := (List.getElem?_eq_some_iff.mp isK).1
    rw [List.length_range] at inside
    omega
  · intro inside
    have within : (id - minDataGroupId idArray).toNat < idArray.length := by omega
    have same : minDataGroupId idArray + ((id - minDataGroupId idArray).toNat : Int) = id := by
      omega
    rw [List.getElem?_range within, Option.map_some, same]
    exact ⟨by omega, rfl⟩

end Tables

/-- Two servers that share four data groups. -/
def pairFile : ClusterFile := ⟨[1, 2], 4, [⟨[.values [1, 2]], [.range 1 4]⟩]⟩

def pairCfg : FSClusterConfig := (fsClusterCfgLoad pairFile).get (by decide +kernel)

def pairTables : GroupTables := (pairCfg.groupTables 1).get (by decide +kernel)

/-- Two servers with two data groups each, in turn. -/
def turnsFile : ClusterFile :=
  ⟨[1, 2], 4, [⟨[.values [1]], [.values [1, 3]]⟩, ⟨[.values [2]], [.values [2, 4]]⟩]⟩

def turnsCfg : FSClusterConfig := (fsClusterCfgLoad turnsFile).get (by decide +kernel)

def turnsTables : GroupTables := (turnsCfg.groupTables 1).get (by decide +kernel)

end FastStore.Cluster
