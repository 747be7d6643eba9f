import FastStore.Cluster.Types
import Mathlib.Data.List.Sort
import Mathlib.Order.Basic

/-!
# The cluster configuration

The server groups of a cluster, as `fs_cluster_cfg_load` reads and checks them: which data groups
and which servers a server group has, and from that the data groups of each server.
-/

namespace FastStore.Cluster

def fsMaxDataGroupsPerServer : Nat := 1024

def fsMaxGroupServers : Nat := 128

/-! ## Ids in the file -/

/-- An item of ids, with the numbers that `strtol` has read from it. -/
inductive IdItem where
  | range (startId endId : Int)
  | values (ids : List Int)
  deriving DecidableEq, Repr

/-- `parse_range` and `parse_value`. -/
def parseIds : IdItem → Option (List Int)
  | .range startId endId =>
      if startId ≤ 0 ∨ endId < startId then none
      else some ((List.range (endId - startId + 1).toNat).map fun i : Nat => startId + i)
  | .values ids => if ∀ id ∈ ids, 0 < id then some ids else none

/-- The loop of `get_ids` over the items. -/
def collectIds : List IdItem → Option (List Int)
  | [] => some []
  | item :: rest => do
      let ids ← parseIds item
      let others ← collectIds rest
      some (ids ++ others)

/-- Two neighbours of a sorted array are the same. -/
def hasDuplicate : List Int → Bool
  | first :: second :: rest => first == second || hasDuplicate (second :: rest)
  | _ => false

/-- `get_ids`. -/
def getIds (items : List IdItem) : Option (List Int) :=
  if items = [] then none
  else do
    let ids ← collectIds items
    if hasDuplicate (ids.insertionSort (· ≤ ·)) then none
    else some (ids.insertionSort (· ≤ ·))

/-! ## Server groups -/

/-- `FSServerGroup`, with the ids of its servers. -/
structure FSServerGroup where
  serverGroupId : Nat
  serverArray : List Int
  dataGroup : List Int
  deriving DecidableEq, Repr

/-- `FSClusterConfig`: the server group of a data group, in `data_groups.mappings`, and the data
groups of a server, in `server_data_mappings`. -/
structure FSClusterConfig where
  dataGroupCount : Int
  serverGroup : Int → Option FSServerGroup
  serverData : Int → Option (List Int)

/-- What the file says of one server group. -/
structure ServerGroupSection where
  serverIds : List IdItem
  dataGroupIds : List IdItem
  deriving DecidableEq, Repr

/-- What the file says: the ids of the servers, as the server configuration has them, and the
items of the groups. -/
structure ClusterFile where
  servers : List Int
  dataGroupCount : Int
  sections : List ServerGroupSection
  deriving DecidableEq, Repr

namespace FSClusterConfig

variable (cfg : FSClusterConfig)

/-- `set_data_group`. -/
def setDataGroup (group : FSServerGroup) : List Int → FSClusterConfig → Option FSClusterConfig
  | [], cfg => some cfg
  | id :: rest, cfg =>
      if cfg.dataGroupCount < id then none
      else
        match cfg.serverGroup id with
        | some _ => none
        | none =>
            setDataGroup group rest
              { cfg with serverGroup := fun other =>
                  if other = id then some group else cfg.serverGroup other }

/-- `set_server_data_mappings`. -/
def setServerDataMappings (group : FSServerGroup) :
    List Int → FSClusterConfig → Option FSClusterConfig
  | [], cfg => some cfg
  | serverId :: rest, cfg =>
      match cfg.serverData serverId with
      | none => none
      | some ids =>
          let merged := (ids ++ group.dataGroup).insertionSort (· ≤ ·)
          if fsMaxDataGroupsPerServer < merged.length then none
          else
            setServerDataMappings group rest
              { cfg with serverData := fun other =>
                  if other = serverId then some merged else cfg.serverData other }

/-- `load_one_server_group`. -/
def loadOneServerGroup (serverGroupId : Nat) (part : ServerGroupSection) :
    Option FSClusterConfig := do
  let serverIds ← getIds part.serverIds
  let dataGroupIds ← getIds part.dataGroupIds
  if fsMaxDataGroupsPerServer < dataGroupIds.length then none
  else if ∀ serverId ∈ serverIds, (cfg.serverData serverId).isSome then
    let group : FSServerGroup := ⟨serverGroupId, serverIds, dataGroupIds⟩
    let grouped ← setDataGroup group dataGroupIds cfg
    setServerDataMappings group serverIds grouped
  else none

/-- The loop of `load_groups`. -/
def loadSections : Nat → List ServerGroupSection → FSClusterConfig → Option FSClusterConfig
  | _, [], cfg => some cfg
  | serverGroupId, part :: rest, cfg => do
      let loaded ← cfg.loadOneServerGroup serverGroupId part
      loadSections (serverGroupId + 1) rest loaded

/-- `check_data_groups`. -/
def checkDataGroups : Bool :=
  (List.range cfg.dataGroupCount.toNat).all fun i => (cfg.serverGroup (i + 1)).isSome

end FSClusterConfig

/-- The configuration before the server groups are loaded: every server without data groups. -/
def ClusterFile.unloaded (file : ClusterFile) : FSClusterConfig :=
  ⟨file.dataGroupCount, fun _ => none,
    fun serverId => if serverId ∈ file.servers then some [] else none⟩

/-- `fs_cluster_cfg_load`, `none` for an error. -/
def fsClusterCfgLoad (file : ClusterFile) : Option FSClusterConfig :=
  if file.sections = [] ∨ file.dataGroupCount ≤ 0 then none
  else do
    let cfg ← FSClusterConfig.loadSections 1 file.sections file.unloaded
    if cfg.checkDataGroups then some cfg else none

/-! ## What a loaded configuration satisfies -/

theorem pairwise_lt_of_hasDuplicate {ids : List Int} (sorted : ids.Pairwise (· ≤ ·))
    (distinct : hasDuplicate ids = false) : ids.Pairwise (· < ·) := by
  induction ids with
  | nil => exact List.Pairwise.nil
  | cons first rest ih =>
      obtain ⟨least, later⟩ := List.pairwise_cons.mp sorted
      cases rest with
      | nil => exact List.pairwise_singleton _ _
      | cons second rest =>
          rw [hasDuplicate, Bool.or_eq_false_iff, beq_eq_false_iff_ne] at distinct
          have tail := ih later distinct.2
          have less : first < second :=
            lt_of_le_of_ne (least second List.mem_cons_self) distinct.1
          refine List.pairwise_cons.mpr ⟨fun id member => ?_, tail⟩
          rcases List.mem_cons.mp member with rfl | behind
          · exact less
          · exact less.trans ((List.pairwise_cons.mp tail).1 id behind)

theorem positive_of_parseIds {item : IdItem} {ids : List Int} (parsed : parseIds item = some ids) :
    ∀ id ∈ ids, 1 ≤ id := by
  cases item with
  | range startId endId =>
      rw [parseIds] at parsed
      split_ifs at parsed with bad
      cases parsed
      intro id member
      obtain ⟨i, -, rfl⟩ := List.mem_map.mp member
      omega
  | values given =>
      rw [parseIds] at parsed
      split_ifs at parsed with positive
      cases parsed
      exact positive

theorem positive_of_collectIds {items : List IdItem} {ids : List Int}
    (collected : collectIds items = some ids) : ∀ id ∈ ids, 1 ≤ id := by
  induction items generalizing ids with
  | nil =>
      cases collected
      nofun
  | cons item rest ih =>
      obtain ⟨first, parsed, others, later, rfl⟩ : ∃ first, parseIds item = some first ∧
          ∃ others, collectIds rest = some others ∧ first ++ others = ids := by
        simpa [collectIds, Option.bind_eq_some_iff] using collected
      intro id member
      rcases List.mem_append.mp member with here | behind
      · exact positive_of_parseIds parsed id here
      · exact ih later id behind

/-- The ids of an item are ascending and positive. -/
theorem getIds_spec {items : List IdItem} {ids : List Int} (got : getIds items = some ids) :
    ids.Pairwise (· < ·) ∧ ∀ id ∈ ids, 1 ≤ id := by
  rw [getIds] at got
  split_ifs at got
  obtain ⟨collected, isCollected, rest⟩ := Option.bind_eq_some_iff.mp got
  split_ifs at rest with duplicate
  cases rest
  refine ⟨pairwise_lt_of_hasDuplicate (List.pairwise_insertionSort _ _)
    (Bool.not_eq_true _ ▸ duplicate), fun id member => ?_⟩
  exact positive_of_collectIds isCollected id ((List.mem_insertionSort _).mp member)

namespace FSClusterConfig

variable {cfg loaded : FSClusterConfig} {group : FSServerGroup}

/-- The data groups of a server are those of its server groups, in ascending order. -/
structure Sound (cfg : FSClusterConfig) : Prop where
  ascending : ∀ serverId ids, cfg.serverData serverId = some ids → ids.Pairwise (· < ·)
  member : ∀ serverId ids, cfg.serverData serverId = some ids → ∀ id,
    id ∈ ids ↔ ∃ group, cfg.serverGroup id = some group ∧ serverId ∈ group.serverArray
  known : ∀ id group, cfg.serverGroup id = some group → ∀ serverId ∈ group.serverArray,
    (cfg.serverData serverId).isSome
  positive : ∀ id group, cfg.serverGroup id = some group → 1 ≤ id

/-- The data groups of a server group were free, and are the only ones that change. -/
theorem setDataGroup_spec {ids : List Int} (distinct : ids.Pairwise (· < ·))
    (done : setDataGroup group ids cfg = some loaded) :
    loaded.serverData = cfg.serverData ∧
      (∀ id, loaded.serverGroup id = if id ∈ ids then some group else cfg.serverGroup id) ∧
      ∀ id ∈ ids, cfg.serverGroup id = none := by
  induction ids generalizing cfg with
  | nil =>
      cases done
      exact ⟨rfl, fun id => (if_neg (List.not_mem_nil)).symm, nofun⟩
  | cons first rest ih =>
      obtain ⟨above, later⟩ := List.pairwise_cons.mp distinct
      rw [setDataGroup] at done
      split_ifs at done
      cases free : cfg.serverGroup first with
      | some other =>
          rw [free] at done
          cases done
      | none =>
          rw [free] at done
          obtain ⟨sameData, groups, empty⟩ := ih later done
          refine ⟨sameData, fun id => ?_, fun id member => ?_⟩
          · rw [groups id]
            dsimp only
            by_cases isFirst : id = first
            · rw [if_pos isFirst, ite_self, if_pos (isFirst ▸ List.mem_cons_self)]
            · simp only [isFirst, List.mem_cons, false_or, if_false]
          · rcases List.mem_cons.mp member with rfl | behind
            · exact free
            · have others := empty id behind
              dsimp only at others
              rwa [if_neg (above id behind).ne'] at others

/-- The servers of a server group get its data groups, and no other server changes. -/
theorem setServerDataMappings_spec {servers : List Int} (distinct : servers.Pairwise (· < ·))
    (done : setServerDataMappings group servers cfg = some loaded) :
    loaded.serverGroup = cfg.serverGroup ∧
      ∀ serverId, loaded.serverData serverId =
        if serverId ∈ servers then
          (cfg.serverData serverId).map fun ids =>
            (ids ++ group.dataGroup).insertionSort (· ≤ ·)
        else cfg.serverData serverId := by
  induction servers generalizing cfg with
  | nil =>
      cases done
      exact ⟨rfl, fun serverId => (if_neg (List.not_mem_nil)).symm⟩
  | cons first rest ih =>
      obtain ⟨above, later⟩ := List.pairwise_cons.mp distinct
      rw [setServerDataMappings] at done
      cases known : cfg.serverData first with
      | none =>
          rw [known] at done
          cases done
      | some ids =>
          rw [known] at done
          dsimp only at done
          split_ifs at done
          obtain ⟨sameGroups, data⟩ := ih later done
          refine ⟨sameGroups, fun serverId => ?_⟩
          rw [data serverId]
          dsimp only
          by_cases isFirst : serverId = first
          · have outside : serverId ∉ rest := fun behind => by
              have less := above serverId behind
              omega
            rw [if_neg outside, if_pos isFirst, if_pos (isFirst ▸ List.mem_cons_self), isFirst,
              known, Option.map_some]
          · simp only [isFirst, List.mem_cons, false_or, if_false]

theorem pairwise_lt_insertionSort {ids : List Int} (distinct : ids.Nodup) :
    (ids.insertionSort (· ≤ ·)).Pairwise (· < ·) := by
  have sorted : (ids.insertionSort (· ≤ ·)).Pairwise (· ≤ ·) := List.pairwise_insertionSort _ _
  have apart : (ids.insertionSort (· ≤ ·)).Pairwise (· ≠ ·) :=
    (List.perm_insertionSort _ ids).nodup_iff.mpr distinct
  exact (sorted.and apart).imp fun both => lt_of_le_of_ne both.1 both.2

theorem Sound.loadOneServerGroup (sound : cfg.Sound) {serverGroupId : Nat}
    {part : ServerGroupSection}
    (done : cfg.loadOneServerGroup serverGroupId part = some loaded) : loaded.Sound := by
  obtain ⟨servers, gotServers, dataGroups, gotGroups, rest⟩ : ∃ servers,
      getIds part.serverIds = some servers ∧ ∃ dataGroups,
        getIds part.dataGroupIds = some dataGroups ∧
        (if fsMaxDataGroupsPerServer < dataGroups.length then none
          else if ∀ serverId ∈ servers, (cfg.serverData serverId).isSome then
            (setDataGroup ⟨serverGroupId, servers, dataGroups⟩ dataGroups cfg).bind
              (setServerDataMappings ⟨serverGroupId, servers, dataGroups⟩ servers)
          else none) = some loaded := by
    obtain ⟨servers, gotServers, rest⟩ := Option.bind_eq_some_iff.mp done
    obtain ⟨dataGroups, gotGroups, rest⟩ := Option.bind_eq_some_iff.mp rest
    exact ⟨servers, gotServers, dataGroups, gotGroups, rest⟩
  split_ifs at rest with _ allKnown
  obtain ⟨grouped, isGrouped, mapped⟩ := Option.bind_eq_some_iff.mp rest
  obtain ⟨serversAscend, -⟩ := getIds_spec gotServers
  obtain ⟨groupsAscend, groupsPositive⟩ := getIds_spec gotGroups
  obtain ⟨sameData, groups, free⟩ := setDataGroup_spec groupsAscend isGrouped
  obtain ⟨sameGroups, data⟩ := setServerDataMappings_spec serversAscend mapped
  rw [sameData] at data
  simp only [← sameGroups] at groups
  -- the ids of the new group are free, so none of them is listed for a server yet
  have apart {serverId : Int} {ids : List Int} (old : cfg.serverData serverId = some ids) :
      ∀ id ∈ ids, id ∉ dataGroups := by
    intro id listed inGroup
    obtain ⟨group, isGroup, -⟩ := (sound.member serverId ids old id).mp listed
    rw [free id inGroup] at isGroup
    cases isGroup
  constructor
  · intro serverId ids found
    rw [data serverId] at found
    split_ifs at found
    · obtain ⟨old, isOld, rfl⟩ := Option.map_eq_some_iff.mp found
      apply pairwise_lt_insertionSort
      rw [List.nodup_append]
      refine ⟨(sound.ascending serverId old isOld).imp ne_of_lt, groupsAscend.imp ne_of_lt, ?_⟩
      intro id listed other inGroup same
      exact apart isOld id listed (same ▸ inGroup)
    · exact sound.ascending serverId ids found
  · intro serverId ids found id
    rw [groups id]
    rw [data serverId] at found
    by_cases inGroup : id ∈ dataGroups
    · rw [if_pos inGroup]
      split_ifs at found with isServer
      · obtain ⟨old, isOld, rfl⟩ := Option.map_eq_some_iff.mp found
        rw [List.mem_insertionSort, List.mem_append]
        exact iff_of_true (Or.inr inGroup) ⟨_, rfl, isServer⟩
      · refine iff_of_false (fun listed => apart found id listed inGroup) ?_
        rintro ⟨group, isGroup, isServer'⟩
        cases isGroup
        exact isServer isServer'
    · rw [if_neg inGroup]
      split_ifs at found with isServer
      · obtain ⟨old, isOld, rfl⟩ := Option.map_eq_some_iff.mp found
        rw [List.mem_insertionSort, List.mem_append, or_iff_left inGroup]
        exact sound.member serverId old isOld id
      · exact sound.member serverId ids found id
  · intro id group isGroup serverId isServer
    rw [groups id] at isGroup
    rw [data serverId]
    have old : (cfg.serverData serverId).isSome := by
      split_ifs at isGroup
      · cases isGroup
        exact allKnown serverId isServer
      · exact sound.known id group isGroup serverId isServer
    split_ifs
    · rw [Option.isSome_map]
      exact old
    · exact old
  · intro id group isGroup
    rw [groups id] at isGroup
    split_ifs at isGroup with inGroup
    · exact groupsPositive id inGroup
    · exact sound.positive id group isGroup

theorem Sound.loadSections {sections : List ServerGroupSection} {serverGroupId : Nat}
    (sound : cfg.Sound) (done : loadSections serverGroupId sections cfg = some loaded) :
    loaded.Sound := by
  induction sections generalizing cfg serverGroupId with
  | nil =>
      cases done
      exact sound
  | cons part rest ih =>
      obtain ⟨next, isNext, later⟩ := Option.bind_eq_some_iff.mp done
      exact ih (sound.loadOneServerGroup isNext) later

end FSClusterConfig

theorem ClusterFile.sound_unloaded (file : ClusterFile) : file.unloaded.Sound := by
  constructor
  · intro serverId ids found
    dsimp only [unloaded] at found
    split_ifs at found
    cases found
    exact List.Pairwise.nil
  · intro serverId ids found id
    dsimp only [unloaded] at found
    split_ifs at found
    cases found
    exact iff_of_false (List.not_mem_nil) (fun ⟨_, isGroup, _⟩ => nomatch isGroup)
  · intro id group isGroup
    cases isGroup
  · intro id group isGroup
    cases isGroup

theorem sound_of_load {file : ClusterFile} {cfg : FSClusterConfig}
    (loaded : fsClusterCfgLoad file = some cfg) : cfg.Sound := by
  rw [fsClusterCfgLoad] at loaded
  split_ifs at loaded
  obtain ⟨found, isFound, rest⟩ := Option.bind_eq_some_iff.mp loaded
  split_ifs at rest
  cases rest
  exact file.sound_unloaded.loadSections isFound

end FastStore.Cluster
