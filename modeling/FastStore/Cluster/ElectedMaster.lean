import FastStore.Cluster.MasterElection

/-!
# Masters are active servers

The status of a server, the master of a group and the flag of the master are three words
that are read and written one at a time.  Each thread that leaves one of them behind the
others is known by the point it is at, so that for every group the three words agree but
for what a thread at such a point is about to do.  What a thread has read can be outdated
when it acts on it: then a server that has gone away is installed, or a flag is set or
cleared for a master that has changed.
-/

namespace FastStore.Cluster

open FastStore.Util

/-! ## What the threads are about to do -/

/-- The call takes the server out of the group later. -/
def TopologyPoint.Offlines (group server : Nat) : TopologyPoint → Prop
  | .activate _ _ => False
  | .offline other todo => other = server ∧ group ∈ todo
  | .offlineFlag other current rest | .offlineMaster other current rest =>
      other = server ∧ group ∈ current :: rest

/-- The call is about to clear the flag. -/
def TopologyPoint.AtFlag (group server : Nat) : TopologyPoint → Prop
  | .offlineFlag other current _ => other = server ∧ current = group
  | _ => False

/-- The call is about to take the server out of the group. -/
def TopologyPoint.AtMaster (group server : Nat) : TopologyPoint → Prop
  | .offlineFlag other current _ | .offlineMaster other current _ =>
      other = server ∧ current = group
  | _ => False

/-- The loop of `master_election_unset_all_masters` unsets the master later. -/
def RelationshipPoint.Unsets (group server : Nat) : RelationshipPoint → Prop
  | .unset current => current ≤ group
  | .unsetMaster current other => current < group ∨ current = group ∧ other = server
  | .unsetFlag current _ => current < group
  | _ => False

section Points

variable (group server : Nat)

instance (point : TopologyPoint) : Decidable (point.Offlines group server) := by
  cases point <;> unfold TopologyPoint.Offlines <;> infer_instance

instance (point : TopologyPoint) : Decidable (point.AtFlag group server) := by
  cases point <;> unfold TopologyPoint.AtFlag <;> infer_instance

instance (point : TopologyPoint) : Decidable (point.AtMaster group server) := by
  cases point <;> unfold TopologyPoint.AtMaster <;> infer_instance

instance (point : RelationshipPoint) : Decidable (point.Unsets group server) := by
  cases point <;> unfold RelationshipPoint.Unsets <;> infer_instance

variable {group server}

theorem TopologyPoint.AtFlag.atMaster {point : TopologyPoint}
    (atFlag : point.AtFlag group server) : point.AtMaster group server := by
  cases point with
  | offlineFlag other current rest => exact atFlag
  | activate other todo => cases atFlag
  | offline other todo => cases atFlag
  | offlineMaster other current rest => cases atFlag

theorem TopologyPoint.AtMaster.offlines {point : TopologyPoint}
    (atMaster : point.AtMaster group server) : point.Offlines group server := by
  cases point with
  | activate other todo => cases atMaster
  | offline other todo => cases atMaster
  | offlineFlag other current rest | offlineMaster other current rest =>
      exact ⟨atMaster.1, List.mem_cons.mpr (Or.inl atMaster.2.symm)⟩

end Points

namespace MasterState

variable (config : ElectionConfig) (s : MasterState) (group server : Nat)

/-- The server is going to be taken out of the group. -/
def Offlining : Prop :=
  s.relationship.point.Unsets group server ∨
    ∃ actor ∈ s.topology, actor.point.Offlines group server

/-- The flag is going to be cleared. -/
def Clearing : Prop :=
  s.relationship.point = .unsetFlag group server ∨
    ∃ actor ∈ s.topology, actor.point.AtFlag group server

/-- The flag is going to be set, or its server to be taken out. -/
def Changing : Prop :=
  s.select.point = .installed group server ∨
    ∃ actor ∈ s.topology, actor.point.AtMaster group server

instance : Decidable (s.Offlining group server) := by
  unfold Offlining
  infer_instance

instance : Decidable (s.Clearing group server) := by
  unfold Clearing
  infer_instance

instance : Decidable (s.Changing group server) := by
  unfold Changing
  infer_instance

/-- A thread acts on what it has read only while that still holds: a server that is
installed is active or will be taken out again, its flag is not read before it is set, and
the flag is set and cleared for the master it was meant for. -/
def Current : MasterAction → Prop
  | .select _ =>
      match s.select with
      | ⟨none, .chosen group server⟩ =>
          s.master group = none → s.status server = .active ∨ s.Offlining group server
      | ⟨none, .installed group server⟩ =>
          s.master group = some server ∨ s.Clearing group server
      | _ => True
  | .relationship =>
      match s.relationship with
      | ⟨none, .unsetFlag group server⟩ =>
          s.master group = some server → s.Changing group server
      | _ => True
  | .topology actor =>
      match actor with
      | ⟨none, .offline server (group :: _)⟩ =>
          s.isMaster group server = false → s.master group = some server →
            s.status server = .active ∨ s.relationship.point.Unsets group server ∨
              ∃ other ∈ s.topology.erase actor, other.point.Offlines group server
      | ⟨none, .offlineMaster server group _⟩ =>
          s.master group = some server →
            s.isMaster group server = false ∨ s.Clearing group server
      | _ => True
  | _ => True

instance (action : MasterAction) : Decidable (s.Current action) := by
  induction action using MasterAction.casesOn with
  | select =>
      dsimp only [Current]
      generalize s.select = actor
      induction actor using Actor.casesOn with | mk call point => ?_
      induction call using Option.casesOn with
      | none =>
          induction point using SelectPoint.casesOn with
          | chosen | installed => dsimp only; infer_instance
          | _ => exact isTrue trivial
      | some => exact isTrue trivial
  | relationship =>
      dsimp only [Current]
      generalize s.relationship = actor
      induction actor using Actor.casesOn with | mk call point => ?_
      induction call using Option.casesOn with
      | none =>
          induction point using RelationshipPoint.casesOn with
          | unsetFlag => dsimp only; infer_instance
          | _ => exact isTrue trivial
      | some => exact isTrue trivial
  | topology actor =>
      dsimp only [Current]
      induction actor using Actor.casesOn with | mk call point => ?_
      induction call using Option.casesOn with
      | none =>
          induction point using TopologyPoint.casesOn with
          | offline server groups =>
              induction groups using List.casesOn with
              | nil => exact isTrue trivial
              | cons group groups => dsimp only; infer_instance
          | offlineMaster => dsimp only; infer_instance
          | _ => exact isTrue trivial
      | some => exact isTrue trivial
  | _ => exact isTrue trivial

/-- What holds of a group and a server at any time. -/
structure Agreed : Prop where
  flagged : s.isMaster group server = true → s.master group = some server ∨ s.Clearing group server
  flag : s.master group = some server → s.isMaster group server = true ∨ s.Changing group server
  active : s.master group = some server →
    s.status server = .active ∨ s.Offlining group server
  member : s.master group = some server → group ∈ config.groupsOf server

/-- The three words agree for all groups, and a chosen server is a member of its group. -/
structure MasterInvariant : Prop where
  agreed : ∀ group < config.groupCount, ∀ server, s.Agreed config group server
  chosen : ∀ group server, s.select.point = .chosen group server →
    group ∈ config.groupsOf server

variable {config s group server} {s' : MasterState}

/-- A step that leaves the words of this group and server alone, and no thread drops what
it was about to do. -/
theorem Agreed.keep (agreed : s.Agreed config group server)
    (status : s.status server = .active → s'.status server = .active)
    (master : s'.master group = s.master group)
    (flag : s'.isMaster group server = s.isMaster group server)
    (clearing : s.Clearing group server → s'.Clearing group server)
    (changing : s.master group = some server → s.Changing group server → s'.Changing group server)
    (offlining : s.master group = some server → s.Offlining group server →
      s'.Offlining group server) : s'.Agreed config group server := by
  constructor
  · intro flagged
    rw [flag] at flagged
    rw [master]
    exact (agreed.flagged flagged).imp_right clearing
  · intro isMaster
    rw [master] at isMaster
    rw [flag]
    exact (agreed.flag isMaster).imp_right (changing isMaster)
  · intro isMaster
    rw [master] at isMaster
    exact (agreed.active isMaster).imp status (offlining isMaster)
  · intro isMaster
    rw [master] at isMaster
    exact agreed.member isMaster

/-- A group that has lost its master. -/
theorem Agreed.of_unset (without : s'.master group = none)
    (flagged : s'.isMaster group server = true → s'.Clearing group server) :
    s'.Agreed config group server := by
  have contra : s'.master group ≠ some server := by
    rw [without]
    exact nofun
  exact ⟨fun flag => Or.inr (flagged flag), fun isMaster => absurd isMaster contra,
    fun isMaster => absurd isMaster contra, fun isMaster => absurd isMaster contra⟩

theorem setIsMaster_self (value : Bool) :
    (s.setIsMaster group server value).isMaster group server = value := by
  simp [setIsMaster]

theorem setIsMaster_of_ne {other peer : Nat} (value : Bool)
    (different : ¬(other = group ∧ peer = server)) :
    (s.setIsMaster group server value).isMaster other peer = s.isMaster other peer := by
  by_cases same : other = group
  · subst same
    simp [setIsMaster, show peer ≠ server from fun equal => different ⟨rfl, equal⟩]
  · simp [setIsMaster, same]

namespace MasterInvariant

/-! ## The election thread -/

/-- The election thread moves on without a change of the three words. -/
theorem movedSelect {queues : ElectionQueues} {select : Actor SelectPoint}
    (inv : s.MasterInvariant config)
    (held : ∀ group server, s.select.point = .installed group server →
      select.point = .installed group server)
    (chosen : ∀ group server, select.point = .chosen group server →
      group ∈ config.groupsOf server) :
    MasterInvariant config { s with queues := queues, select := select } := by
  refine ⟨fun group bound server => ?_, chosen⟩
  exact (inv.agreed group bound server).keep id rfl rfl id
    (fun _ changing => changing.imp_left (held group server)) fun _ => id

/-- The election thread installs the server it has chosen. -/
theorem installed {group server : Nat} (inv : s.MasterInvariant config)
    (point : s.select.point = .chosen group server) (without : s.master group = none)
    (current : s.status server = .active ∨ s.Offlining group server) :
    MasterInvariant config
      { s.setMaster group (some server) with select := ⟨none, .installed group server⟩ } := by
  refine ⟨fun other bound peer => ?_, nofun⟩
  have agreed := inv.agreed other bound peer
  by_cases same : other = group
  · subst same
    have new : (s.setMaster other (some server)).master other = some server := by simp
    by_cases self : peer = server
    · subst self
      exact ⟨fun _ => Or.inl new, fun _ => Or.inr (Or.inl rfl), fun _ => current,
        fun _ => inv.chosen other peer point⟩
    · have contra : (s.setMaster other (some server)).master other ≠ some peer := by
        rw [new]
        exact fun equal => self (Option.some.inj equal).symm
      refine ⟨fun flagged => ?_, fun isMaster => absurd isMaster contra,
        fun isMaster => absurd isMaster contra, fun isMaster => absurd isMaster contra⟩
      rcases agreed.flagged flagged with isMaster | clearing
      · rw [without] at isMaster
        cases isMaster
      · exact Or.inr clearing
  · refine agreed.keep id (Function.update_of_ne same _ _) rfl id (fun _ changing => ?_) fun _ => id
    rcases changing with selecting | offline
    · rw [point] at selecting
      cases selecting
    · exact Or.inr offline

/-- The election thread sets the flag of the master. -/
theorem flagSet {group server : Nat} (inv : s.MasterInvariant config)
    (point : s.select.point = .installed group server)
    (current : s.master group = some server ∨ s.Clearing group server) :
    MasterInvariant config { s.setIsMaster group server true with select := ⟨none, .waiting⟩ } := by
  refine ⟨fun other bound peer => ?_, nofun⟩
  have agreed := inv.agreed other bound peer
  by_cases same : other = group ∧ peer = server
  · obtain ⟨rfl, rfl⟩ := same
    exact ⟨fun _ => current, fun _ => Or.inl (setIsMaster_self true), agreed.active,
      agreed.member⟩
  · refine agreed.keep id rfl (setIsMaster_of_ne true same) id (fun _ changing => ?_) fun _ => id
    rcases changing with selecting | offline
    · rw [point] at selecting
      cases selecting
      exact absurd ⟨rfl, rfl⟩ same
    · exact Or.inr offline

/-- Every step of the election thread. -/
theorem advanceSelect {outcome : SelectOutcome} (inv : s.MasterInvariant config)
    (current : s.Current (.select outcome))
    (returned : s.MayReturn config s.select.point outcome) :
    (s.advanceSelect outcome).MasterInvariant config := by
  unfold MasterState.advanceSelect
  cases actor : s.select with
  | mk call point =>
      have at' : s.select.point = point := by rw [actor]
      simp only [Current, actor] at current
      rw [at'] at returned
      cases call with
      | some call =>
          refine inv.movedSelect (fun _ _ => ?_) fun group server isChosen => ?_
          · rw [at']
            exact id
          · exact inv.chosen group server (at'.trans isChosen)
      | none =>
          cases point with
          | stopped => exact inv
          | waiting =>
              cases queue : s.queues.queue with
              | nil => exact inv
              | cons group rest =>
                  refine inv.movedSelect (fun _ _ => ?_) nofun
                  rw [at']
                  exact nofun
          | popped group | counted group =>
              refine inv.movedSelect (fun _ _ => ?_) nofun
              rw [at']
              exact nofun
          | check group =>
              refine inv.movedSelect (fun _ _ => ?_) ?_
              · rw [at']
                exact nofun
              · intro other server
                dsimp only
                split_ifs
                · exact nofun
                · exact nofun
          | select group =>
              have none : ∀ other peer, s.select.point ≠ .installed other peer := by
                rw [at']
                exact fun _ _ => nofun
              cases outcome with
              | elected server =>
                  refine inv.movedSelect (fun _ _ point => absurd point (none _ _)) ?_
                  rintro _ _ ⟨⟩
                  exact returned.2
              | again => exact inv.movedSelect (fun _ _ point => absurd point (none _ _)) nofun
              | failed => exact inv.movedSelect (fun _ _ point => absurd point (none _ _)) nofun
          | chosen group server =>
              dsimp only
              split_ifs with without
              · exact inv.installed at' without (current without)
              · refine inv.movedSelect (fun _ _ => ?_) nofun
                rw [at']
                exact nofun
          | installed group server => exact inv.flagSet at' current

/-! ## The relationship thread -/

/-- The relationship thread moves on without a change of the three words. -/
theorem movedRelationship {queues : ElectionQueues} {relationship : Actor RelationshipPoint}
    (inv : s.MasterInvariant config)
    (flag : ∀ group server, s.relationship.point = .unsetFlag group server →
      relationship.point = .unsetFlag group server)
    (unsets : ∀ group < config.groupCount, ∀ server, s.master group = some server →
      s.relationship.point.Unsets group server → relationship.point.Unsets group server) :
    MasterInvariant config { s with queues := queues, relationship := relationship } := by
  refine ⟨fun group bound server => ?_, inv.chosen⟩
  exact (inv.agreed group bound server).keep id rfl rfl
    (fun clearing => clearing.imp_left (flag group server)) (fun _ => id)
    fun isMaster offlining => offlining.imp_left (unsets group bound server isMaster)

/-- The loop unsets a master. -/
theorem masterUnset {group server : Nat} (inv : s.MasterInvariant config)
    (point : s.relationship.point = .unsetMaster group server)
    (isMaster : s.master group = some server) :
    MasterInvariant config
      { s.setMaster group none with relationship := ⟨none, .unsetFlag group server⟩ } := by
  refine ⟨fun other bound peer => ?_, inv.chosen⟩
  have agreed := inv.agreed other bound peer
  have clearing : s.Clearing other peer →
      Clearing { s with relationship := ⟨none, .unsetFlag group server⟩ } other peer := by
    rintro (related | offline)
    · rw [point] at related
      cases related
    · exact Or.inr offline
  by_cases same : other = group
  · subst same
    refine .of_unset (Function.update_self _ _ _) fun flagged => ?_
    rcases agreed.flagged flagged with old | cleared
    · rw [isMaster] at old
      cases old
      exact Or.inl rfl
    · exact clearing cleared
  · refine agreed.keep id (Function.update_of_ne same _ _) rfl clearing (fun _ => id) ?_
    intro _ offlining
    refine offlining.imp_left fun unsets => ?_
    rw [point] at unsets
    exact unsets.resolve_right fun own => same own.1.symm

/-- The loop clears the flag of the master it has unset, and goes on to the next group. -/
theorem flagUnset {group server : Nat} {call : Option QueueCall} (inv : s.MasterInvariant config)
    (point : s.relationship.point = .unsetFlag group server)
    (current : s.master group = some server → s.Changing group server) :
    MasterInvariant config
      { s.setIsMaster group server false with relationship := ⟨call, .unset (group + 1)⟩ } := by
  refine ⟨fun other bound peer => ?_, inv.chosen⟩
  have agreed := inv.agreed other bound peer
  have offlining : s.Offlining other peer →
      Offlining { s with relationship := ⟨call, .unset (group + 1)⟩ } other peer := by
    refine Or.imp_left fun unsets => ?_
    rw [point] at unsets
    exact unsets
  by_cases same : other = group ∧ peer = server
  · obtain ⟨rfl, rfl⟩ := same
    refine ⟨fun flagged => ?_, fun isMaster => Or.inr (current isMaster),
      fun isMaster => (agreed.active isMaster).imp_right offlining, agreed.member⟩
    have cleared : (s.setIsMaster other peer false).isMaster other peer = true := flagged
    rw [setIsMaster_self] at cleared
    cases cleared
  · refine agreed.keep id rfl (setIsMaster_of_ne false same) ?_ (fun _ => id) fun _ => offlining
    rintro (related | offline)
    · rw [point] at related
      cases related
      exact absurd ⟨rfl, rfl⟩ same
    · exact Or.inr offline

/-- The loop goes on to the next group when this one has no master it has to unset. -/
theorem pushedUnset {group : Nat} (inv : s.MasterInvariant config)
    (flag : ∀ other server, s.relationship.point ≠ .unsetFlag other server)
    (unsets : ∀ other server, s.master other = some server →
      s.relationship.point.Unsets other server → group + 1 ≤ other) :
    (s.pushUnset config group).MasterInvariant config :=
  inv.movedRelationship (fun other server point => absurd point (flag other server))
    fun other _ server => unsets other server

/-- Every step of the relationship thread. -/
theorem advanceRelationship (inv : s.MasterInvariant config)
    (current : s.Current .relationship) : (s.advanceRelationship config).MasterInvariant config := by
  unfold MasterState.advanceRelationship
  cases actor : s.relationship with
  | mk call point =>
      have at' : s.relationship.point = point := by rw [actor]
      simp only [Current, actor] at current
      cases call with
      | some call =>
          refine inv.movedRelationship (fun _ _ => ?_) fun _ _ _ _ => ?_
          · rw [at']
            exact id
          · rw [at']
            exact id
      | none =>
          cases point with
          | idle => exact inv
          | deal todo =>
              cases todo with
              | nil | cons group rest =>
                  refine inv.movedRelationship (fun _ _ => ?_) fun _ _ _ _ => ?_
                  · rw [at']
                    exact nofun
                  · rw [at']
                    exact False.elim
          | clear group rest =>
              refine inv.movedRelationship (fun _ _ => ?_) fun _ _ _ _ => ?_
              · rw [at']
                exact nofun
              · rw [at']
                exact False.elim
          | unset group =>
              have flag : ∀ other server, s.relationship.point ≠ .unsetFlag other server := by
                rw [at']
                exact fun _ _ => nofun
              dsimp only
              split_ifs with bound
              · cases isMaster : s.master group with
                | none =>
                    refine inv.pushedUnset flag fun other server isOther unsets => ?_
                    rw [at'] at unsets
                    refine lt_of_le_of_ne unsets fun same => ?_
                    rw [same, isOther] at isMaster
                    cases isMaster
                | some server =>
                    refine inv.movedRelationship (fun _ _ point => absurd point (flag _ _)) ?_
                    intro other _ peer isOther unsets
                    rw [at'] at unsets
                    rcases lt_or_eq_of_le unsets with before | same
                    · exact Or.inl before
                    · rw [same, isOther] at isMaster
                      exact Or.inr ⟨same, (Option.some.inj isMaster).symm⟩
              · refine inv.movedRelationship (fun _ _ point => absurd point (flag _ _)) ?_
                intro other otherBound peer _ unsets
                rw [at'] at unsets
                exact absurd (lt_of_le_of_lt unsets otherBound) bound
          | unsetMaster group server =>
              dsimp only
              split_ifs with isMaster
              · exact inv.masterUnset at' isMaster
              · refine inv.pushedUnset ?_ fun other peer isOther unsets => ?_
                · rw [at']
                  exact fun _ _ => nofun
                · rw [at'] at unsets
                  rcases unsets with before | ⟨rfl, rfl⟩
                  · exact before
                  · exact absurd isOther isMaster
          | unsetFlag group server => exact inv.flagUnset at' current

/-! ## The network threads -/

/-- A thread that is not the one that moves stays where it is. -/
theorem exists_moved {P : TopologyPoint → Prop} {actor : Actor TopologyPoint}
    {next : Option (Actor TopologyPoint)} {topology : List (Actor TopologyPoint)}
    (kept : P actor.point → ∃ later ∈ next, P later.point)
    (found : ∃ other ∈ topology, P other.point) :
    ∃ other ∈ next.toList ++ topology.erase actor, P other.point := by
  obtain ⟨other, member, holds⟩ := found
  by_cases same : other = actor
  · subst same
    obtain ⟨later, isNext, still⟩ := kept holds
    exact ⟨later, List.mem_append_left _ (Option.mem_toList.mpr isNext), still⟩
  · exact ⟨other, List.mem_append_right _ ((List.mem_erase_of_ne same).mpr member), holds⟩

/-- A network thread moves on without a change of the three words. -/
theorem movedTopology {queues : ElectionQueues} {actor : Actor TopologyPoint}
    {next : Option (Actor TopologyPoint)} (inv : s.MasterInvariant config)
    (flag : ∀ group server, actor.point.AtFlag group server →
      ∃ later ∈ next, later.point.AtFlag group server)
    (master : ∀ group server, s.master group = some server → actor.point.AtMaster group server →
      ∃ later ∈ next, later.point.AtMaster group server)
    (offlines : ∀ group server, s.master group = some server → s.Offlining group server →
      s.status server = .active ∨ s.relationship.point.Unsets group server ∨
        ∃ other ∈ next.toList ++ s.topology.erase actor, other.point.Offlines group server) :
    MasterInvariant config
      { s with queues := queues, topology := next.toList ++ s.topology.erase actor } := by
  refine ⟨fun group bound server => ?_, inv.chosen⟩
  have agreed := inv.agreed group bound server
  constructor
  · intro flagged
    refine (agreed.flagged flagged).imp_right fun clearing => ?_
    exact clearing.imp_right (exists_moved (flag group server))
  · intro isMaster
    refine (agreed.flag isMaster).imp_right fun changing => ?_
    exact changing.imp_right (exists_moved (master group server isMaster))
  · intro isMaster
    rcases agreed.active isMaster with active | offlining
    · exact Or.inl active
    · exact offlines group server isMaster offlining
  · exact agreed.member

/-- The usual case: what the thread was about to do it still is. -/
theorem movedTopology_of_offlines {queues : ElectionQueues} {actor : Actor TopologyPoint}
    {next : Option (Actor TopologyPoint)} (inv : s.MasterInvariant config)
    (flag : ∀ group server, actor.point.AtFlag group server →
      ∃ later ∈ next, later.point.AtFlag group server)
    (master : ∀ group server, s.master group = some server → actor.point.AtMaster group server →
      ∃ later ∈ next, later.point.AtMaster group server)
    (offlines : ∀ group server, s.master group = some server →
      actor.point.Offlines group server → ∃ later ∈ next, later.point.Offlines group server) :
    MasterInvariant config
      { s with queues := queues, topology := next.toList ++ s.topology.erase actor } :=
  inv.movedTopology flag master fun group server isMaster offlining =>
    Or.inr (offlining.imp_right (exists_moved (offlines group server isMaster)))

/-- A network thread clears the flag of the server it takes out. -/
theorem flagCleared {server group : Nat} {rest : List Nat} (inv : s.MasterInvariant config) :
    MasterInvariant config { s.setIsMaster group server false with
      topology := ⟨none, .offlineMaster server group rest⟩ ::
        s.topology.erase ⟨none, .offlineFlag server group rest⟩ } := by
  have offline : ∀ {P : TopologyPoint → Prop},
      (P (.offlineFlag server group rest) → P (.offlineMaster server group rest)) →
      (∃ other ∈ s.topology, P other.point) →
      ∃ other ∈ ⟨none, .offlineMaster server group rest⟩ ::
        s.topology.erase ⟨none, .offlineFlag server group rest⟩, P other.point :=
    fun kept found => @exists_moved _ _ (some ⟨none, .offlineMaster server group rest⟩) _
      (fun holds => ⟨_, rfl, kept holds⟩) found
  refine ⟨fun other bound peer => ?_, inv.chosen⟩
  have agreed := inv.agreed other bound peer
  by_cases same : other = group ∧ peer = server
  · obtain ⟨rfl, rfl⟩ := same
    constructor
    · intro flagged
      have cleared : (s.setIsMaster other peer false).isMaster other peer = true := flagged
      rw [setIsMaster_self] at cleared
      cases cleared
    · exact fun _ => Or.inr (Or.inr ⟨_, List.mem_cons_self, rfl, rfl⟩)
    · intro isMaster
      exact (agreed.active isMaster).imp_right (Or.imp_right (offline id))
    · exact agreed.member
  · refine agreed.keep id rfl (setIsMaster_of_ne false same) (Or.imp_right ?_)
      (fun _ => Or.imp_right (offline id)) fun _ => Or.imp_right (offline id)
    exact offline fun own => absurd ⟨own.2.symm, own.1.symm⟩ same

/-- A network thread takes the server out of the group. -/
theorem masterOffline {server group : Nat} {rest : List Nat} {call : Option QueueCall}
    (inv : s.MasterInvariant config) (isMaster : s.master group = some server)
    (current : s.isMaster group server = false ∨ s.Clearing group server) :
    MasterInvariant config { s.setMaster group none with
      topology := ⟨call, .offline server rest⟩ ::
        s.topology.erase ⟨none, .offlineMaster server group rest⟩ } := by
  have offline : ∀ {P : TopologyPoint → Prop},
      (P (.offlineMaster server group rest) → P (.offline server rest)) →
      (∃ other ∈ s.topology, P other.point) →
      ∃ other ∈ ⟨call, .offline server rest⟩ ::
        s.topology.erase ⟨none, .offlineMaster server group rest⟩, P other.point :=
    fun kept found => @exists_moved _ _ (some ⟨call, .offline server rest⟩) _
      (fun holds => ⟨_, rfl, kept holds⟩) found
  refine ⟨fun other bound peer => ?_, inv.chosen⟩
  have agreed := inv.agreed other bound peer
  by_cases same : other = group
  · subst same
    refine .of_unset (Function.update_self _ _ _) fun flagged => ?_
    have clearing : s.Clearing other peer := by
      rcases agreed.flagged flagged with old | clearing
      · rw [isMaster] at old
        cases old
        exact current.resolve_left fun cleared => by
          rw [show s.isMaster other server = true from flagged] at cleared
          cases cleared
      · exact clearing
    exact clearing.imp_right (offline False.elim)
  · refine agreed.keep id (Function.update_of_ne same _ _) rfl
      (Or.imp_right (offline False.elim)) (fun _ => Or.imp_right (offline ?_))
      fun _ => Or.imp_right (offline ?_)
    · exact fun own => absurd own.2.symm same
    · exact fun own => ⟨own.1, (List.mem_cons.mp own.2).resolve_left same⟩

/-- Every step of a network thread. -/
theorem advanceTopology {actor : Actor TopologyPoint} (inv : s.MasterInvariant config)
    (current : s.Current (.topology actor)) :
    (s.next config (.topology actor)).MasterInvariant config := by
  unfold MasterState.next MasterState.advanceTopology
  obtain ⟨call, point⟩ := actor
  cases call with
  | some call =>
      exact inv.movedTopology_of_offlines (fun _ _ holds => ⟨_, rfl, holds⟩)
        (fun _ _ _ holds => ⟨_, rfl, holds⟩) fun _ _ _ holds => ⟨_, rfl, holds⟩
  | none =>
      cases point with
      | activate server todo =>
          cases todo with
          | nil | cons group rest =>
              exact inv.movedTopology_of_offlines nofun (fun _ _ _ => nofun) fun _ _ _ => nofun
      | offline server todo =>
          cases todo with
          | nil =>
              refine inv.movedTopology_of_offlines nofun (fun _ _ _ => nofun) fun _ _ _ holds => ?_
              cases holds.2
          | cons group rest =>
              dsimp only
              split_ifs with flagged
              · exact inv.movedTopology_of_offlines nofun (fun _ _ _ => nofun)
                  fun _ _ _ holds => ⟨_, rfl, holds⟩
              · refine inv.movedTopology nofun (fun _ _ _ => nofun) ?_
                intro other peer isMaster offlining
                by_cases own : other = group ∧ peer = server
                · obtain ⟨rfl, rfl⟩ := own
                  rcases current (by simpa using flagged) isMaster with active | unsets | found
                  · exact Or.inl active
                  · exact Or.inr (Or.inl unsets)
                  · obtain ⟨thread, member, holds⟩ := found
                    exact Or.inr (Or.inr ⟨thread, List.mem_append_right _ member, holds⟩)
                · refine Or.inr (offlining.imp_right (exists_moved fun holds => ⟨_, rfl, ?_⟩))
                  refine ⟨holds.1, (List.mem_cons.mp holds.2).resolve_left fun same => ?_⟩
                  exact own ⟨same, holds.1.symm⟩
      | offlineFlag server group rest => exact inv.flagCleared
      | offlineMaster server group rest =>
          dsimp only
          split_ifs with isMaster
          · exact inv.masterOffline isMaster (current isMaster)
          · refine inv.movedTopology_of_offlines nofun ?_ ?_
            · rintro other peer isOther ⟨rfl, rfl⟩
              exact absurd isOther isMaster
            · rintro other peer isOther ⟨rfl, member⟩
              rcases List.mem_cons.mp member with rfl | behind
              · exact absurd isOther isMaster
              · exact ⟨_, rfl, rfl, behind⟩

/-! ## All steps -/

/-- A network thread begins a call for a server whose status has changed. -/
theorem begun {status : Nat → FSServerStatus} {actor : Actor TopologyPoint}
    (inv : s.MasterInvariant config)
    (active : ∀ group server, group ∈ config.groupsOf server → s.status server = .active →
      status server = .active ∨ actor.point.Offlines group server) :
    MasterInvariant config { s with status := status, topology := actor :: s.topology } := by
  have more : ∀ {P : TopologyPoint → Prop}, (∃ other ∈ s.topology, P other.point) →
      ∃ other ∈ actor :: s.topology, P other.point := by
    rintro P ⟨other, member, holds⟩
    exact ⟨other, List.mem_cons_of_mem _ member, holds⟩
  refine ⟨fun group bound server => ?_, inv.chosen⟩
  have agreed := inv.agreed group bound server
  constructor
  · exact fun flagged => (agreed.flagged flagged).imp_right (Or.imp_right more)
  · exact fun isMaster => (agreed.flag isMaster).imp_right (Or.imp_right more)
  · intro isMaster
    rcases agreed.active isMaster with before | offlining
    · refine (active group server (agreed.member isMaster) before).imp_right fun offlines => ?_
      exact Or.inr ⟨actor, List.mem_cons_self, offlines⟩
    · exact Or.inr (offlining.imp_right more)
  · exact agreed.member

theorem next {action : MasterAction} (inv : s.MasterInvariant config)
    (current : s.Current action) (enabled : s.Enabled config action) :
    (s.next config action).MasterInvariant config := by
  cases action with
  | threadStart =>
      refine inv.movedSelect (fun _ _ => ?_) nofun
      rw [show s.select = ⟨none, .stopped⟩ from enabled]
      exact nofun
  | threadStop =>
      refine inv.movedSelect (fun _ _ => ?_) nofun
      rw [show s.select = ⟨none, .waiting⟩ from enabled.1]
      exact nofun
  | select outcome => exact inv.advanceSelect current enabled.2.2
  | dealDelayQueue | unsetAllMasters =>
      have idle : s.relationship = ⟨none, .idle⟩ := enabled
      refine inv.movedRelationship (fun _ _ => ?_) fun _ _ _ _ => ?_
      · rw [idle]
        exact nofun
      · rw [idle]
        exact False.elim
  | relationship => exact inv.advanceRelationship current
  | activateServer server =>
      refine inv.begun fun group peer _ active => Or.inl ?_
      by_cases same : peer = server
      · subst same
        exact Function.update_self _ _ _
      · exact (Function.update_of_ne same _ _).trans active
  | deactivateServer server =>
      unfold MasterState.next
      dsimp only
      split_ifs
      · refine inv.begun fun group peer member active => ?_
        by_cases same : peer = server
        · subst same
          exact Or.inr ⟨rfl, member⟩
        · exact Or.inl ((Function.update_of_ne same _ _).trans active)
      · exact inv
  | topology actor => exact inv.advanceTopology current

end MasterInvariant

/-- The masters are active servers, and their flags are the ones that are set. -/
structure MastersActive (config : ElectionConfig) (s : MasterState) : Prop where
  active : ∀ group < config.groupCount, ∀ server, s.master group = some server →
    s.status server = .active
  flagged : ∀ group < config.groupCount, ∀ server,
    s.isMaster group server = true ↔ s.master group = some server
  unique : ∀ group < config.groupCount, ∀ server other,
    s.isMaster group server = true → s.isMaster group other = true → server = other

/-- With no thread in the middle of a call nothing is left to do. -/
theorem MasterInvariant.mastersActive (inv : s.MasterInvariant config) (quiet : s.Quiet) :
    s.MastersActive config := by
  have offlining : ∀ group server, ¬s.Offlining group server := by
    simp [Offlining, quiet.relationship, quiet.topology, RelationshipPoint.Unsets]
  have clearing : ∀ group server, ¬s.Clearing group server := by
    simp [Clearing, quiet.relationship, quiet.topology]
  have changing : ∀ group server, ¬s.Changing group server := by
    rcases quiet.select with stopped | waiting
    · simp [Changing, stopped, quiet.topology]
    · simp [Changing, waiting, quiet.topology]
  have flagged : ∀ group < config.groupCount, ∀ server,
      s.isMaster group server = true ↔ s.master group = some server := by
    intro group bound server
    have agreed := inv.agreed group bound server
    exact ⟨fun flag => (agreed.flagged flag).resolve_right (clearing group server),
      fun isMaster => (agreed.flag isMaster).resolve_right (changing group server)⟩
  constructor
  · intro group bound server isMaster
    exact ((inv.agreed group bound server).active isMaster).resolve_right (offlining group server)
  · exact flagged
  · intro group bound server other first second
    rw [flagged group bound] at first second
    exact Option.some.inj (first.symm.trans second)

end MasterState

/-- A server that has just become leader and is about to unset the masters it knew before,
whatever has become of their servers. -/
structure MastersKnown (config : ElectionConfig) (s : MasterState) : Prop where
  select : s.select = ⟨none, .stopped⟩ ∨ s.select = ⟨none, .waiting⟩
  relationship : s.relationship = ⟨none, .unset 0⟩
  topology : s.topology = []
  flagged : ∀ group server, s.isMaster group server = true ↔ s.master group = some server
  member : ∀ group server, s.master group = some server → group ∈ config.groupsOf server

theorem MastersKnown.masterInvariant {config : ElectionConfig} {s : MasterState}
    (known : MastersKnown config s) : s.MasterInvariant config := by
  constructor
  · intro group _ server
    have flagged := known.flagged group server
    refine ⟨fun flag => Or.inl (flagged.mp flag), fun isMaster => Or.inl (flagged.mpr isMaster),
      fun _ => Or.inr (Or.inl ?_), known.member group server⟩
    rw [known.relationship]
    exact Nat.zero_le group
  · intro group server point
    rcases known.select with stopped | waiting
    · rw [stopped] at point
      cases point
    · rw [waiting] at point
      cases point

/-- In every run in which the threads act only on what still holds, the masters are active
servers whenever no thread is in the middle of a call. -/
theorem masters_active {config : ElectionConfig} {s : MasterState}
    (reached : Reachable ((MasterStep config).guarded MasterState.Current) (MastersKnown config) s)
    (quiet : s.Quiet) : s.MastersActive config := by
  have invariant : s.MasterInvariant config := by
    refine Reachable.invariant ?_ ?_ reached
    · exact fun s known => known.masterInvariant
    · rintro s action _ inv ⟨current, enabled, rfl⟩
      exact inv.next current enabled
  exact invariant.mastersActive quiet

/-- One group with two servers, both away. -/
def pairOfServers : ElectionConfig := ⟨1, fun _ => false, fun _ => [0]⟩

/-- A new leader that knew no master. -/
def leaderOfPair : MasterState :=
  ⟨fun _ => .offline, fun _ => none, fun _ _ => false,
    ⟨fun _ => false, fun _ => false, [], [], 0⟩, ⟨none, .stopped⟩, ⟨none, .unset 0⟩, []⟩

theorem mastersKnown_leaderOfPair : MastersKnown pairOfServers leaderOfPair :=
  ⟨Or.inl rfl, rfl, rfl, fun _ _ => ⟨nofun, nofun⟩, nofun⟩

/-- The first server comes and is chosen as master. -/
def chooseFirst : List MasterAction :=
  [.relationship, .relationship, .relationship, .relationship, .threadStart, .activateServer 0,
    .topology ⟨none, .activate 0 [0]⟩, .topology ⟨some (.queueTest 0), .activate 0 []⟩,
    .topology ⟨some (.queuePush 0), .activate 0 []⟩, .topology ⟨some .queueCount, .activate 0 []⟩,
    .topology ⟨none, .activate 0 []⟩, .select .again, .select .again, .select .again,
    .select .again, .select (.elected 0)]

/-- The first server is installed as master and stays. -/
theorem masters_active_first :
    ∃ s : MasterState,
      Reachable ((MasterStep pairOfServers).guarded MasterState.Current)
        (MastersKnown pairOfServers) s ∧
        s.Quiet ∧ s.master 0 = some 0 ∧ s.MastersActive pairOfServers := by
  have initial : Reachable ((MasterStep pairOfServers).guarded MasterState.Current)
      (MastersKnown pairOfServers) leaderOfPair := .start mastersKnown_leaderOfPair
  have run := initial.followMeeting (chooseFirst ++ [.select .again, .select .again])
    (by decide +kernel)
  exact ⟨_, run, ⟨Or.inr rfl, rfl, rfl⟩, by decide +kernel,
    masters_active run ⟨Or.inr rfl, rfl, rfl⟩⟩

/-- The first server goes away after it was chosen and before it is installed. -/
theorem dead_master_installed :
    ¬ ∀ (config : ElectionConfig) (s : MasterState),
      Reachable (MasterStep config) (MastersKnown config) s → s.Quiet → s.MastersActive config := by
  intro claimed
  have initial : Reachable (MasterStep pairOfServers) (MastersKnown pairOfServers) leaderOfPair :=
    .start mastersKnown_leaderOfPair
  have run := initial.follow (chooseFirst ++ [.deactivateServer 0,
    .topology ⟨none, .offline 0 [0]⟩, .topology ⟨none, .offline 0 []⟩, .select .again,
    .select .again]) (by decide +kernel)
  have active := (claimed pairOfServers _ run ⟨Or.inr rfl, rfl, rfl⟩).active 0 (by decide) 0
    (by decide +kernel)
  exact absurd active (by decide +kernel)

end FastStore.Cluster
