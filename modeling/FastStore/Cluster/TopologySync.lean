import FastStore.Cluster.TopologyPush

/-!
# No topology change is lost

What the follower will have when everything on its way has arrived differs from what the
leader has only for data servers whose event is still to be read: it is queued, or the
network thread has taken it from the queue, or a thread is about to queue it.  Events are
dropped only for a follower that is not active, and then every data server is queued
already.

The flags of the masters need more: a part that says master takes the flag of another data
server of the group away at the follower, so another flag that is set at that time has to
be read again.
-/

namespace FastStore.Cluster

open FastStore.Util

variable {δ : Type} [DecidableEq δ]

/-! ## Events still to be read -/

namespace NetworkPoint

/-- The event is out of the queue with its flag still set. -/
def Holds (ds : δ) : NetworkPoint δ → Prop
  | .syncPush current _ => current = ds
  | .release current rest _ => ds ∈ current :: rest
  | .readIsMaster _ rest _ | .readStatus _ _ rest _ | .readVersion _ _ _ rest _
  | .pushBack rest _ => ds ∈ rest
  | _ => False

/-- The network thread reads all words of the data server later. -/
def Reads (ds : δ) : NetworkPoint δ → Prop
  | .joinStatus => True
  | .sync todo => ds ∈ todo
  | .syncPush current todo => ds ∈ current :: todo
  | .release current rest _ | .readIsMaster current rest _ => ds ∈ current :: rest
  | .readStatus _ _ rest _ | .readVersion _ _ _ rest _ | .pushBack rest _ => ds ∈ rest
  | _ => False

/-- The join will queue the data server. -/
def Syncs (ds : δ) : NetworkPoint δ → Prop
  | .joinStatus => True
  | .sync todo | .syncPush _ todo => ds ∈ todo
  | _ => False

/-- The network thread is about to read the status. -/
def AtStatus (ds : δ) : NetworkPoint δ → Prop
  | .readStatus current _ _ _ => current = ds
  | _ => False

/-- The network thread is about to read the version. -/
def AtVersion (ds : δ) : NetworkPoint δ → Prop
  | .readStatus current _ _ _ | .readVersion current _ _ _ _ => current = ds
  | _ => False

/-- The follower is leaving. -/
def Leaves : NetworkPoint δ → Prop
  | .leaveStatus | .leaveTask => True
  | _ => False

/-- A package is being made. -/
def Sends : NetworkPoint δ → Prop
  | .release _ _ _ | .readIsMaster _ _ _ | .readStatus _ _ _ _ | .readVersion _ _ _ _ _
  | .pushBack _ _ | .flush _ => True
  | _ => False

/-- The package so far. -/
def package : NetworkPoint δ → List (PushBodyPart δ)
  | .release _ _ package | .readIsMaster _ _ package | .readStatus _ _ _ package
  | .readVersion _ _ _ _ package | .pushBack _ package | .flush package => package
  | _ => []

/-- The flag that has been read and is not in the package yet. -/
def masterRead : NetworkPoint δ → List (δ × Bool)
  | .readStatus ds isMaster _ _ | .readVersion ds isMaster _ _ _ => [(ds, isMaster)]
  | _ => []

/-- The status that has been read and is not in the package yet. -/
def statusRead : NetworkPoint δ → List (δ × FSDataServerStatus)
  | .readVersion ds _ status _ _ => [(ds, status)]
  | _ => []

omit [DecidableEq δ] in
theorem Holds.reads {ds : δ} {point : NetworkPoint δ} (holds : point.Holds ds) : point.Reads ds := by
  cases point with
  | syncPush current todo => exact List.mem_cons.mpr (Or.inl (Eq.symm holds))
  | release current rest package => exact holds
  | readIsMaster current rest package => exact List.mem_cons_of_mem _ holds
  | readStatus current isMaster rest package => exact holds
  | readVersion current isMaster status rest package => exact holds
  | pushBack rest package => exact holds
  | idle | joinStatus | sync | leaveStatus | leaveTask | flush => cases holds

omit [DecidableEq δ] in
theorem Syncs.reads {ds : δ} {point : NetworkPoint δ} (syncs : point.Syncs ds) : point.Reads ds := by
  cases point with
  | joinStatus => trivial
  | sync todo => exact syncs
  | syncPush current todo => exact List.mem_cons_of_mem _ syncs
  | _ => cases syncs

instance (ds : δ) (point : NetworkPoint δ) : Decidable (point.Reads ds) := by
  unfold Reads
  split <;> infer_instance

end NetworkPoint

/-- The thread queues an event for the data server later. -/
def TopologyFrame.Reads (ds : δ) : TopologyFrame δ → Prop
  | .change current _ | .notifyStatus current | .notifyTask current | .notifyFlag current
  | .notifyPush current => current = ds
  | _ => False

instance (ds : δ) (frame : TopologyFrame δ) : Decidable (frame.Reads ds) := by
  induction frame using TopologyFrame.casesOn with
  | change current _ | notifyStatus current | notifyTask current | notifyFlag current
  | notifyPush current => exact inferInstanceAs (Decidable (current = ds))
  | _ => exact isFalse id

namespace TopologyShared

variable (config : TopologyConfig δ) (s : TopologyShared δ) (frames : Multiset (TopologyFrame δ))

/-- The words of the data server are read again. -/
def Reads (ds : δ) : Prop :=
  ds ∈ s.queue ∨ s.network.Reads ds ∨ ∃ frame ∈ frames, frame.Reads ds

instance (ds : δ) : Decidable (s.Reads frames ds) :=
  have : Decidable (∃ frame ∈ frames, TopologyFrame.Reads ds frame) :=
    Multiset.decidableExistsMultiset
  inferInstanceAs (Decidable (ds ∈ s.queue ∨ s.network.Reads ds ∨ _))

/-- The parts that have been read and have not arrived. -/
def sent : List (PushBodyPart δ) := s.packages.flatten ++ s.network.package

/-- The follower's words when everything on its way has arrived. -/
def eventualStatus : δ → FSDataServerStatus :=
  written s.follower.status
    ((s.sent.map fun part => (part.ds, part.status)) ++ s.network.statusRead)

def eventualVersion : δ → Nat :=
  written s.follower.version (s.sent.map fun part => (part.ds, part.version))

def eventualMasters : MasterWords δ :=
  s.follower.masters.pushed config
    ((s.sent.map fun part => (part.ds, part.isMaster)) ++ s.network.masterRead)

/-- The follower will have the leader's words of the data server, or they are read again. -/
structure Fresh (ds : δ) : Prop where
  status : config.serverOf ds ≠ config.follower → s.Reads frames ds ∨ s.network.AtStatus ds ∨
    s.eventualStatus ds = s.leader.status ds
  version : config.serverOf ds ≠ config.follower → s.Reads frames ds ∨ s.network.AtVersion ds ∨
    s.eventualVersion ds = s.leader.version ds
  isMaster : s.Reads frames ds ∨
    (s.eventualMasters config).isMaster ds = s.leader.masters.isMaster ds

/-- What holds at any time. -/
structure TopologyInvariant : Prop where
  follower : s.follower.masters.Agree config
  flagged : ∀ ds, s.inQueue ds = true →
    ds ∈ s.queue ∨ s.network.Holds ds ∨ TopologyFrame.notifyPush ds ∈ frames
  waiting : s.joined = true → ¬s.network.Leaves → s.serverStatus ≠ .active →
    ∀ ds, s.inQueue ds = true ∨ s.network.Syncs ds
  sending : s.network.Sends → s.serverStatus = .active
  fresh : s.joined = true → ¬s.network.Leaves → ∀ ds, s.Fresh config frames ds

/-- When the flag of a data server is read and set, every other data server of the group with
its flag set is read again. -/
def OneFlag : TopologyFrame δ → NetworkEvent → Prop
  | .network, _ =>
      match s.network with
      | .readIsMaster ds _ _ =>
          s.leader.masters.isMaster ds = true → ∀ other ∈ config.dataServers,
            config.groupOf other = config.groupOf ds → other ≠ ds →
            s.leader.masters.isMaster other = true → s.Reads frames other
      | _ => True
  | _, _ => True

instance (frame : TopologyFrame δ) (event : NetworkEvent) :
    Decidable (s.OneFlag config frames frame event) := by
  induction frame using TopologyFrame.casesOn with
  | network =>
      dsimp only [OneFlag]
      generalize s.network = point
      induction point using NetworkPoint.casesOn with
      | readIsMaster => dsimp only; infer_instance
      | _ => exact isTrue trivial
  | _ => exact isTrue trivial

variable {config s frames} {s' : TopologyShared δ} {frames' : Multiset (TopologyFrame δ)} {ds : δ}

theorem Fresh.of_reads (reads : s.Reads frames ds) : s.Fresh config frames ds :=
  ⟨fun _ => Or.inl reads, fun _ => Or.inl reads, Or.inl reads⟩

/-- A step that changes nothing about the data server and on its way to the follower. -/
theorem Fresh.keep (fresh : s.Fresh config frames ds)
    (status : s'.leader.status ds = s.leader.status ds)
    (version : s'.leader.version ds = s.leader.version ds)
    (isMaster : s'.leader.masters.isMaster ds = s.leader.masters.isMaster ds)
    (eventualStatus : config.serverOf ds ≠ config.follower →
      s'.eventualStatus ds = s.eventualStatus ds)
    (eventualVersion : config.serverOf ds ≠ config.follower →
      s'.eventualVersion ds = s.eventualVersion ds)
    (eventualMasters : s'.eventualMasters config = s.eventualMasters config)
    (reads : s.Reads frames ds → s'.Reads frames' ds)
    (atStatus : s.network.AtStatus ds → s'.network.AtStatus ds)
    (atVersion : s.network.AtVersion ds → s'.network.AtVersion ds) :
    s'.Fresh config frames' ds := by
  constructor
  · intro other
    rw [status, eventualStatus other]
    exact (fresh.status other).imp reads (Or.imp_left atStatus)
  · intro other
    rw [version, eventualVersion other]
    exact (fresh.version other).imp reads (Or.imp_left atVersion)
  · rw [isMaster, eventualMasters]
    exact fresh.isMaster.imp_left reads

/-- The same for a step after which the same parts are on their way. -/
theorem Fresh.keep_of_sent (fresh : s.Fresh config frames ds) (leader : s'.leader = s.leader)
    (follower : s'.follower = s.follower) (sent : s'.sent = s.sent)
    (masterRead : s'.network.masterRead = s.network.masterRead)
    (statusRead : s'.network.statusRead = s.network.statusRead)
    (reads : s.Reads frames ds → s'.Reads frames' ds)
    (atStatus : s.network.AtStatus ds → s'.network.AtStatus ds)
    (atVersion : s.network.AtVersion ds → s'.network.AtVersion ds) :
    s'.Fresh config frames' ds := by
  refine fresh.keep (by rw [leader]) (by rw [leader]) (by rw [leader]) (fun _ => ?_) (fun _ => ?_)
    ?_ reads atStatus atVersion
  · unfold eventualStatus
    rw [follower, sent, statusRead]
  · unfold eventualVersion
    rw [follower, sent]
  · unfold eventualMasters
    rw [follower, sent, masterRead]

namespace TopologyInvariant

/-! ## The network thread -/

section Moves

variable {point next : NetworkPoint δ} {inQueue : δ → Bool} {queue : List δ}
  {packages : List (List (PushBodyPart δ))}

/-- The network thread moves on with the same parts on their way. -/
theorem freshMoved (here : s.network = point) (fresh : s.Fresh config frames ds)
    (sent : packages.flatten ++ next.package = s.packages.flatten ++ point.package)
    (masterRead : next.masterRead = point.masterRead)
    (statusRead : next.statusRead = point.statusRead)
    (reads : ds ∈ s.queue ∨ point.Reads ds →
      Reads { s with inQueue := inQueue, queue := queue, packages := packages, network := next }
        frames ds)
    (atStatus : point.AtStatus ds → next.AtStatus ds)
    (atVersion : point.AtVersion ds → next.AtVersion ds) :
    Fresh config { s with
      inQueue := inQueue
      queue := queue
      packages := packages
      network := next } frames ds := by
  subst here
  refine fresh.keep_of_sent rfl rfl sent masterRead statusRead ?_ atStatus atVersion
  rintro (queued | held | found)
  · exact reads (Or.inl queued)
  · exact reads (Or.inr held)
  · exact Or.inr (Or.inr found)

/-- The network thread moves on while the follower stays. -/
theorem moved (inv : s.TopologyInvariant config frames) (here : s.network = point)
    (stays : ¬point.Leaves) (sending : next.Sends → point.Sends ∨ s.serverStatus = .active)
    (flagged : ∀ ds, inQueue ds = true →
      (s.inQueue ds = true →
        ds ∈ s.queue ∨ point.Holds ds ∨ TopologyFrame.notifyPush ds ∈ frames) →
      ds ∈ queue ∨ next.Holds ds ∨ TopologyFrame.notifyPush ds ∈ frames)
    (waiting : s.serverStatus ≠ .active → ∀ ds, s.inQueue ds = true ∨ point.Syncs ds →
      inQueue ds = true ∨ next.Syncs ds)
    (fresh : ∀ ds, s.Fresh config frames ds → Fresh config { s with
      inQueue := inQueue
      queue := queue
      packages := packages
      network := next } frames ds) :
    TopologyInvariant config { s with
      inQueue := inQueue
      queue := queue
      packages := packages
      network := next } frames := by
  subst here
  refine ⟨inv.follower, fun ds flag => flagged ds flag (inv.flagged ds), ?_, fun sends => ?_, ?_⟩
  · exact fun joined _ inactive ds => waiting inactive ds (inv.waiting joined stays inactive ds)
  · exact (sending sends).elim inv.sending id
  · exact fun joined _ ds => fresh ds (inv.fresh joined stays ds)

end Moves

/-- The network thread is idle. -/
theorem advanceIdle (inv : s.TopologyInvariant config frames) {event : NetworkEvent}
    (idle : s.network = .idle) (enabled : s.Enabled event .network) :
    (s.advanceNetwork config event).TopologyInvariant config frames := by
  have possible := enabled idle
  have flagged : ∀ ds, s.inQueue ds = true →
      ds ∈ s.queue ∨ TopologyFrame.notifyPush ds ∈ frames := by
    intro ds flag
    rcases inv.flagged ds flag with queued | held | pushing
    · exact Or.inl queued
    · rw [idle] at held
      cases held
    · exact Or.inr pushing
  cases event with
  | join =>
      simp only [advanceNetwork, idle]
      exact ⟨inv.follower, fun ds flag => (flagged ds flag).imp_right Or.inr,
        fun _ _ _ _ => Or.inr trivial, nofun, fun _ _ ds => .of_reads (Or.inr (Or.inl trivial))⟩
  | leave =>
      simp only [advanceNetwork, idle]
      exact ⟨inv.follower, fun ds flag => (flagged ds flag).imp_right Or.inr,
        fun _ staying => absurd trivial staying, nofun, fun _ staying => absurd trivial staying⟩
  | activate =>
      have same : s.advanceNetwork config .activate = { s with serverStatus := .active } := by
        simp only [advanceNetwork, idle]
      rw [same]
      refine ⟨inv.follower, inv.flagged, fun _ _ inactive => absurd rfl inactive, fun _ => rfl, ?_⟩
      intro joined staying ds
      exact (inv.fresh joined staying ds).keep_of_sent rfl rfl rfl rfl rfl id id id
  | processNotifyEvents =>
      cases queue : s.queue with
      | nil =>
          have same : s.advanceNetwork config .processNotifyEvents = s := by
            simp only [advanceNetwork, idle, queue]
          rw [same]
          exact inv
      | cons first rest =>
          simp only [advanceNetwork, idle, queue]
          refine inv.moved idle id (fun _ => Or.inr possible.2) ?_ ?_ ?_
          · intro ds flag _
            rw [queue] at flagged
            exact Or.inr (flagged ds flag)
          · exact fun inactive => absurd possible.2 inactive
          · intro ds fresh
            refine freshMoved idle fresh rfl rfl rfl ?_ id id
            rintro (queued | reads)
            · rw [queue] at queued
              exact Or.inr (Or.inl queued)
            · cases reads

/-- The follower joins. -/
theorem advanceJoinStatus (inv : s.TopologyInvariant config frames) {event : NetworkEvent}
    (here : s.network = .joinStatus) :
    (s.advanceNetwork config event).TopologyInvariant config frames := by
  simp only [advanceNetwork, here]
  refine ⟨inv.follower, fun ds flag => ?_, fun _ _ _ ds => Or.inr (config.complete ds), nofun,
    fun _ _ ds => .of_reads (Or.inr (Or.inl (config.complete ds)))⟩
  rcases inv.flagged ds flag with queued | held | pushing
  · exact Or.inl queued
  · rw [here] at held
    cases held
  · exact Or.inr (Or.inr pushing)

/-- The loop of `cluster_topology_sync_all_data_servers`. -/
theorem advanceSync (inv : s.TopologyInvariant config frames) {event : NetworkEvent}
    {todo : List δ} (here : s.network = .sync todo) :
    (s.advanceNetwork config event).TopologyInvariant config frames := by
  cases todo with
  | nil =>
      simp only [advanceNetwork, here]
      refine inv.moved here id nofun ?_ ?_ ?_
      · exact fun ds flag before => before flag
      · exact fun _ ds before => before.imp_right fun syncs => absurd syncs List.not_mem_nil
      · intro ds fresh
        refine freshMoved here fresh rfl rfl rfl ?_ id id
        rintro (queued | reads)
        · exact Or.inl queued
        · exact absurd reads List.not_mem_nil
  | cons current todo =>
      simp only [advanceNetwork, here]
      split_ifs with flag
      · refine inv.moved here id nofun (fun ds set before => before set) ?_ ?_
        · rintro _ ds (set | syncs)
          · exact Or.inl set
          · rcases List.mem_cons.mp syncs with rfl | behind
            · exact Or.inl flag
            · exact Or.inr behind
        · intro ds fresh
          refine freshMoved here fresh rfl rfl rfl ?_ id id
          rintro (queued | reads)
          · exact Or.inl queued
          · rcases List.mem_cons.mp reads with rfl | behind
            · -- the event stands in the queue or is about to be pushed
              rcases inv.flagged ds flag with queued | held | pushing
              · exact Or.inl queued
              · rw [here] at held
                cases held
              · exact Or.inr (Or.inr ⟨_, pushing, rfl⟩)
            · exact Or.inr (Or.inl behind)
      · refine inv.moved here id nofun ?_ ?_ ?_
        · intro ds set before
          by_cases own : ds = current
          · exact Or.inr (Or.inl own.symm)
          · rw [Function.update_of_ne own] at set
            rcases before set with queued | held | pushing
            · exact Or.inl queued
            · cases held
            · exact Or.inr (Or.inr pushing)
        · intro _ ds before
          by_cases own : ds = current
          · rw [own, Function.update_self]
            exact Or.inl rfl
          · rw [Function.update_of_ne own]
            exact before.imp_right fun syncs => (List.mem_cons.mp syncs).resolve_left own
        · intro ds fresh
          refine freshMoved here fresh rfl rfl rfl ?_ id id
          rintro (queued | reads)
          · exact Or.inl queued
          · exact Or.inr (Or.inl reads)

/-- The push of a joined follower's event. -/
theorem advanceSyncPush (inv : s.TopologyInvariant config frames) {event : NetworkEvent}
    {current : δ} {todo : List δ} (here : s.network = .syncPush current todo) :
    (s.advanceNetwork config event).TopologyInvariant config frames := by
  simp only [advanceNetwork, here]
  refine inv.moved here id nofun ?_ (fun _ _ before => before) ?_
  · intro ds set before
    rcases before set with queued | held | pushing
    · exact Or.inl (List.mem_append_left _ queued)
    · exact Or.inl (List.mem_append_right _ (List.mem_singleton.mpr (Eq.symm held)))
    · exact Or.inr (Or.inr pushing)
  · intro ds fresh
    refine freshMoved here fresh rfl rfl rfl ?_ id id
    rintro (queued | reads)
    · exact Or.inl (List.mem_append_left _ queued)
    · rcases List.mem_cons.mp reads with same | behind
      · exact Or.inl (List.mem_append_right _ (List.mem_singleton.mpr same))
      · exact Or.inr (Or.inl behind)

/-- The follower leaves: nothing is promised until it joins again. -/
theorem advanceLeave (inv : s.TopologyInvariant config frames) {event : NetworkEvent}
    (here : s.network = .leaveStatus ∨ s.network = .leaveTask) :
    (s.advanceNetwork config event).TopologyInvariant config frames := by
  have flagged : ∀ ds, s.inQueue ds = true →
      ds ∈ s.queue ∨ False ∨ TopologyFrame.notifyPush ds ∈ frames := by
    intro ds flag
    rcases inv.flagged ds flag with queued | held | pushing
    · exact Or.inl queued
    · rcases here with here | here
      · rw [here] at held
        cases held
      · rw [here] at held
        cases held
    · exact Or.inr (Or.inr pushing)
  rcases here with here | here
  · simp only [advanceNetwork, here]
    exact ⟨inv.follower, flagged, fun _ staying => absurd trivial staying, nofun,
      fun _ staying => absurd trivial staying⟩
  · simp only [advanceNetwork, here]
    exact ⟨inv.follower, flagged, nofun, nofun, nofun⟩

/-- The flag of the event is released before its words are read. -/
theorem advanceRelease (inv : s.TopologyInvariant config frames) {event : NetworkEvent}
    {current : δ} {rest : List δ} {package : List (PushBodyPart δ)}
    (here : s.network = .release current rest package) :
    (s.advanceNetwork config event).TopologyInvariant config frames := by
  have active : s.serverStatus = .active := inv.sending (by rw [here]; trivial)
  simp only [advanceNetwork, here]
  refine inv.moved here id (fun _ => Or.inr active) ?_ (fun inactive => absurd active inactive) ?_
  · intro ds set before
    by_cases own : ds = current
    · rw [own, Function.update_self] at set
      cases set
    · rw [Function.update_of_ne own] at set
      rcases before set with queued | held | pushing
      · exact Or.inl queued
      · exact Or.inr (Or.inl ((List.mem_cons.mp held).resolve_left own))
      · exact Or.inr (Or.inr pushing)
  · intro ds fresh
    refine freshMoved here fresh rfl rfl rfl ?_ id id
    rintro (queued | reads)
    · exact Or.inl queued
    · exact Or.inr (Or.inl reads)

/-- The rest of the events goes back to the head of the queue. -/
theorem advancePushBack (inv : s.TopologyInvariant config frames) {event : NetworkEvent}
    {rest : List δ} {package : List (PushBodyPart δ)} (here : s.network = .pushBack rest package) :
    (s.advanceNetwork config event).TopologyInvariant config frames := by
  have active : s.serverStatus = .active := inv.sending (by rw [here]; trivial)
  simp only [advanceNetwork, here]
  refine inv.moved here id (fun _ => Or.inr active) ?_ (fun inactive => absurd active inactive) ?_
  · intro ds set before
    rcases before set with queued | held | pushing
    · exact Or.inl (List.mem_append_right _ queued)
    · exact Or.inl (List.mem_append_left _ held)
    · exact Or.inr (Or.inr pushing)
  · intro ds fresh
    refine freshMoved here fresh rfl rfl rfl ?_ id id
    rintro (queued | reads)
    · exact Or.inl (List.mem_append_right _ queued)
    · exact Or.inl (List.mem_append_left _ reads)

/-- The package is sent. -/
theorem advanceFlush (inv : s.TopologyInvariant config frames) {event : NetworkEvent}
    {package : List (PushBodyPart δ)} (here : s.network = .flush package) :
    (s.advanceNetwork config event).TopologyInvariant config frames := by
  have active : s.serverStatus = .active := inv.sending (by rw [here]; trivial)
  simp only [advanceNetwork, here]
  refine inv.moved here id (fun _ => Or.inr active) (fun ds set before => before set)
    (fun inactive => absurd active inactive) ?_
  intro ds fresh
  refine freshMoved here fresh ?_ rfl rfl ?_ id id
  · simp [NetworkPoint.package]
  · rintro (queued | reads)
    · exact Or.inl queued
    · cases reads

/-- The flag is read: the others of the group that are set are read again. -/
theorem advanceReadIsMaster (inv : s.TopologyInvariant config frames) {event : NetworkEvent}
    {current : δ} {rest : List δ} {package : List (PushBodyPart δ)}
    (here : s.network = .readIsMaster current rest package)
    (oneFlag : s.OneFlag config frames .network event) :
    (s.advanceNetwork config event).TopologyInvariant config frames := by
  have active : s.serverStatus = .active := inv.sending (by rw [here]; trivial)
  simp only [OneFlag, here] at oneFlag
  simp only [advanceNetwork, here]
  refine inv.moved here id (fun _ => Or.inr active) (fun ds set before => before set)
    (fun inactive => absurd active inactive) ?_
  intro ds fresh
  have eventual : eventualMasters config { s with
      network := .readStatus current (s.leader.masters.isMaster current) rest package } =
      (s.eventualMasters config).pushMaster config current (s.leader.masters.isMaster current) := by
    simp only [eventualMasters, sent, here, NetworkPoint.package, NetworkPoint.masterRead,
      List.append_nil]
    exact MasterWords.pushed_append _ _ _ _
  by_cases own : ds = current
  · subst own
    refine ⟨fun _ => Or.inr (Or.inl rfl), fun _ => Or.inr (Or.inl rfl), Or.inr ?_⟩
    rw [eventual]
    exact MasterWords.pushMaster_self ds _
  · have reads : s.Reads frames ds → Reads { s with
        network := .readStatus current (s.leader.masters.isMaster current) rest package } frames ds := by
      rintro (queued | held | found)
      · exact Or.inl queued
      · rw [here] at held
        exact Or.inr (Or.inl ((List.mem_cons.mp held).resolve_left own))
      · exact Or.inr (Or.inr found)
    have status := fresh.status
    have version := fresh.version
    simp only [eventualStatus, eventualVersion, sent, here, NetworkPoint.package,
      NetworkPoint.statusRead] at status version
    refine ⟨fun other => ?_, fun other => ?_, ?_⟩
    · exact (status other).imp reads (Or.imp_left False.elim)
    · exact (version other).imp reads (Or.imp_left False.elim)
    · rw [eventual]
      cases flag : s.leader.masters.isMaster current with
      | false =>
          rw [MasterWords.pushMaster_false own]
          rw [flag] at reads
          exact fresh.isMaster.imp_left reads
      | true =>
          rw [flag] at reads
          have agree : (s.eventualMasters config).Agree config := inv.follower.pushed _
          rcases MasterWords.pushMaster_true agree own with same | group
          · rw [same]
            exact fresh.isMaster.imp_left reads
          · cases set : s.leader.masters.isMaster ds with
            | true =>
                exact Or.inl (reads (oneFlag flag ds (config.complete ds) group own set))
            | false =>
                refine Or.inr (Bool.eq_false_iff.mpr fun still => own ?_)
                exact (agree.pushMaster current true).unique group
                  (MasterWords.pushMaster_self current true) still

/-- The status is read. -/
theorem advanceReadStatus (inv : s.TopologyInvariant config frames) {event : NetworkEvent}
    {current : δ} {isMaster : Bool} {rest : List δ} {package : List (PushBodyPart δ)}
    (here : s.network = .readStatus current isMaster rest package) :
    (s.advanceNetwork config event).TopologyInvariant config frames := by
  have active : s.serverStatus = .active := inv.sending (by rw [here]; trivial)
  simp only [advanceNetwork, here]
  refine inv.moved here id (fun _ => Or.inr active) (fun ds set before => before set)
    (fun inactive => absurd active inactive) ?_
  intro ds fresh
  have reads : s.Reads frames ds → Reads { s with
      network := .readVersion current isMaster (s.leader.status current) rest package } frames ds := by
    rintro (queued | held | found)
    · exact Or.inl queued
    · rw [here] at held
      exact Or.inr (Or.inl held)
    · exact Or.inr (Or.inr found)
  have eventual : eventualStatus { s with
      network := .readVersion current isMaster (s.leader.status current) rest package } =
      Function.update s.eventualStatus current (s.leader.status current) := by
    simp only [eventualStatus, sent, here, NetworkPoint.package, NetworkPoint.statusRead,
      List.append_nil]
    exact written_append _ _ _
  have status := fresh.status
  have version := fresh.version
  have masters := fresh.isMaster
  simp only [eventualVersion, eventualMasters, sent, here, NetworkPoint.package,
    NetworkPoint.masterRead] at version masters
  refine ⟨fun other => ?_, fun other => (version other).imp_left reads, masters.imp_left reads⟩
  rw [eventual]
  by_cases own : ds = current
  · subst own
    exact Or.inr (Or.inr (Function.update_self _ _ _))
  · rw [Function.update_of_ne own]
    refine (status other).imp reads (Or.imp_left fun reading => ?_)
    rw [here] at reading
    exact absurd (Eq.symm reading) own

omit [DecidableEq δ] in
/-- What the loop goes on with behind a part. -/
theorem sendNext_spec (config : TopologyConfig δ) (rest : List δ)
    (package : List (PushBodyPart δ)) :
    (sendNext config rest package).package = package ∧
      (sendNext config rest package).masterRead = [] ∧
      (sendNext config rest package).statusRead = [] ∧
      (∀ ds, ds ∈ rest → (sendNext config rest package).Holds ds) := by
  unfold sendNext
  split
  · exact ⟨rfl, rfl, rfl, fun ds member => absurd member List.not_mem_nil⟩
  · split_ifs
    · exact ⟨rfl, rfl, rfl, fun ds member => member⟩
    · exact ⟨rfl, rfl, rfl, fun ds member => member⟩

/-- The version is read, and the part is complete. -/
theorem advanceReadVersion (inv : s.TopologyInvariant config frames) {event : NetworkEvent}
    {current : δ} {isMaster : Bool} {status : FSDataServerStatus} {rest : List δ}
    {package : List (PushBodyPart δ)}
    (here : s.network = .readVersion current isMaster status rest package) :
    (s.advanceNetwork config event).TopologyInvariant config frames := by
  have active : s.serverStatus = .active := inv.sending (by rw [here]; trivial)
  simp only [advanceNetwork, here]
  obtain ⟨sentPackage, masterRead, statusRead, holds⟩ := sendNext_spec config rest
    (package ++ [⟨current, isMaster, status, s.leader.version current⟩])
  refine inv.moved here id (fun _ => Or.inr active) ?_ (fun inactive => absurd active inactive) ?_
  · intro ds set before
    exact (before set).imp_right (Or.imp_left (holds ds))
  · intro ds fresh
    have reads : s.Reads frames ds → Reads { s with
        network := sendNext config rest
          (package ++ [⟨current, isMaster, status, s.leader.version current⟩]) } frames ds := by
      rintro (queued | held | found)
      · exact Or.inl queued
      · rw [here] at held
        exact Or.inr (Or.inl (holds ds held).reads)
      · exact Or.inr (Or.inr found)
    have eventual : eventualVersion { s with
        network := sendNext config rest
          (package ++ [⟨current, isMaster, status, s.leader.version current⟩]) } =
        Function.update s.eventualVersion current (s.leader.version current) := by
      simp only [eventualVersion, sent, here, sentPackage]
      rw [← List.append_assoc, List.map_append]
      exact written_append _ _ _
    have statusSame : eventualStatus { s with
        network := sendNext config rest
          (package ++ [⟨current, isMaster, status, s.leader.version current⟩]) } =
        s.eventualStatus := by
      simp only [eventualStatus, sent, here, sentPackage, statusRead]
      simp [NetworkPoint.package, NetworkPoint.statusRead]
    have mastersSame : eventualMasters config { s with
        network := sendNext config rest
          (package ++ [⟨current, isMaster, status, s.leader.version current⟩]) } =
        s.eventualMasters config := by
      simp only [eventualMasters, sent, here, sentPackage, masterRead]
      simp [NetworkPoint.package, NetworkPoint.masterRead]
    have statusFresh := fresh.status
    have versionFresh := fresh.version
    refine ⟨fun other => ?_, fun other => ?_, ?_⟩
    · rw [statusSame]
      refine (statusFresh other).imp reads (Or.imp_left fun reading => ?_)
      rw [here] at reading
      cases reading
    · rw [eventual]
      by_cases own : ds = current
      · subst own
        exact Or.inr (Or.inr (Function.update_self _ _ _))
      · rw [Function.update_of_ne own]
        refine (versionFresh other).imp reads (Or.imp_left fun reading => ?_)
        rw [here] at reading
        exact absurd (Eq.symm reading) own
    · rw [mastersSame]
      exact fresh.isMaster.imp_left reads

/-- Every step of the network thread. -/
theorem advanceNetwork (inv : s.TopologyInvariant config frames) {event : NetworkEvent}
    (enabled : s.Enabled event .network) (oneFlag : s.OneFlag config frames .network event) :
    (s.advanceNetwork config event).TopologyInvariant config frames := by
  cases here : s.network with
  | idle => exact inv.advanceIdle here enabled
  | joinStatus => exact inv.advanceJoinStatus here
  | sync todo => exact inv.advanceSync here
  | syncPush current todo => exact inv.advanceSyncPush here
  | leaveStatus => exact inv.advanceLeave (Or.inl here)
  | leaveTask => exact inv.advanceLeave (Or.inr here)
  | release current rest package => exact inv.advanceRelease here
  | readIsMaster current rest package => exact inv.advanceReadIsMaster here oneFlag
  | readStatus current isMaster rest package => exact inv.advanceReadStatus here
  | readVersion current isMaster status rest package => exact inv.advanceReadVersion here
  | pushBack rest package => exact inv.advancePushBack here
  | flush package => exact inv.advanceFlush here

/-- The follower takes over a package. -/
theorem receive (inv : s.TopologyInvariant config frames) :
    (s.receive config).TopologyInvariant config frames := by
  unfold TopologyShared.receive
  cases packages : s.packages with
  | nil => exact inv
  | cons package later =>
      have masters := s.follower.leaderPush_masters config package
      refine ⟨?_, inv.flagged, inv.waiting, inv.sending, fun joined stays ds => ?_⟩
      · dsimp only
        rw [masters]
        exact inv.follower.pushed _
      · refine (inv.fresh joined stays ds).keep rfl rfl rfl (fun other => ?_) (fun other => ?_) ?_
          id id id
        · simp only [eventualStatus, sent, packages, List.flatten_cons, List.append_assoc,
            List.map_append]
          rw [written_append s.follower.status]
          exact written_congr (s.follower.leaderPush_status config other package) _
        · simp only [eventualVersion, sent, packages, List.flatten_cons, List.append_assoc,
            List.map_append]
          rw [written_append s.follower.version]
          exact written_congr (s.follower.leaderPush_version config other package) _
        · simp only [eventualMasters, sent, packages, List.flatten_cons, List.append_assoc,
            List.map_append]
          rw [masters, MasterWords.pushed_append config s.follower.masters]

/-! ## The threads that change data servers -/

section Callers

variable {frame : TopologyFrame δ} {others : Multiset (TopologyFrame δ)}
  {later : List (TopologyFrame δ)}

omit [DecidableEq δ] in
/-- A data server is still read when the executed entry was not about it, or the new entries
are. -/
theorem reads_others (reads : s.Reads (frame ::ₘ others) ds)
    (kept : frame.Reads ds → s.Reads ((later : Multiset (TopologyFrame δ)) + others) ds) :
    s.Reads ((later : Multiset (TopologyFrame δ)) + others) ds := by
  rcases reads with queued | held | ⟨found, member, about⟩
  · exact Or.inl queued
  · exact Or.inr (Or.inl held)
  · rcases Multiset.mem_cons.mp member with rfl | other
    · exact kept about
    · exact Or.inr (Or.inr ⟨found, Multiset.mem_add.mpr (Or.inr other), about⟩)

omit [DecidableEq δ] in
theorem reads_later {new : TopologyFrame δ} (member : new ∈ later) (about : new.Reads ds) :
    s.Reads ((later : Multiset (TopologyFrame δ)) + others) ds :=
  Or.inr (Or.inr ⟨new, Multiset.mem_add.mpr (Or.inl (Multiset.mem_coe.mpr member)), about⟩)

omit [DecidableEq δ] in
/-- An operation that does not push leaves the pushes of the others. -/
theorem pushing_others (ne : ∀ ds, frame ≠ .notifyPush ds)
    (pushing : TopologyFrame.notifyPush ds ∈ frame ::ₘ others) :
    TopologyFrame.notifyPush ds ∈ (later : Multiset (TopologyFrame δ)) + others := by
  rcases Multiset.mem_cons.mp pushing with same | other
  · exact absurd same.symm (ne ds)
  · exact Multiset.mem_add.mpr (Or.inr other)

/-- A data server whose flag is set is read again, whoever goes on. -/
theorem reads_of_inQueue (inv : s.TopologyInvariant config (frame ::ₘ others))
    (ne : ∀ ds, frame ≠ .notifyPush ds) (flag : s.inQueue ds = true) :
    s.Reads ((later : Multiset (TopologyFrame δ)) + others) ds := by
  rcases inv.flagged ds flag with queued | held | pushing
  · exact Or.inl queued
  · exact Or.inr (Or.inl held.reads)
  · exact Or.inr (Or.inr ⟨_, pushing_others ne pushing, rfl⟩)

/-- An operation that changes the leader's words of one data server at most, which is read
again. -/
theorem changed (inv : s.TopologyInvariant config (frame ::ₘ others)) {leader : TopologyWords δ}
    (ne : ∀ ds, frame ≠ .notifyPush ds)
    (kept : ∀ ds, frame.Reads ds → s.joined = true → ¬s.network.Leaves →
      s.Reads ((later : Multiset (TopologyFrame δ)) + others) ds)
    (words : ∀ ds, s.Reads ((later : Multiset (TopologyFrame δ)) + others) ds ∨
      leader.status ds = s.leader.status ds ∧ leader.version ds = s.leader.version ds ∧
        leader.masters.isMaster ds = s.leader.masters.isMaster ds) :
    TopologyInvariant config (s.setLeader leader) ((later : Multiset (TopologyFrame δ)) + others) := by
  refine ⟨inv.follower, fun ds flag => ?_, inv.waiting, inv.sending, fun joined stays ds => ?_⟩
  · exact (inv.flagged ds flag).imp_right (Or.imp_right (pushing_others ne))
  · rcases words ds with reads | ⟨status, version, isMaster⟩
    · exact .of_reads reads
    · refine (inv.fresh joined stays ds).keep status version isMaster (fun _ => rfl)
        (fun _ => rfl) rfl (fun reads => ?_) id id
      exact reads_others reads fun about => kept ds about joined stays

/-- The same without a change. -/
theorem unchanged (inv : s.TopologyInvariant config (frame ::ₘ others))
    (ne : ∀ ds, frame ≠ .notifyPush ds)
    (kept : ∀ ds, frame.Reads ds → s.joined = true → ¬s.network.Leaves →
      s.Reads ((later : Multiset (TopologyFrame δ)) + others) ds) :
    TopologyInvariant config s ((later : Multiset (TopologyFrame δ)) + others) :=
  inv.changed ne kept fun _ => Or.inr ⟨rfl, rfl, rfl⟩

/-- A swap of a master is no word of a data server. -/
theorem swapMaster (inv : s.TopologyInvariant config (frame ::ₘ others)) (group : Nat)
    (old new : Option δ) (ne : ∀ ds, frame ≠ .notifyPush ds)
    (kept : ∀ ds, frame.Reads ds → s.joined = true → ¬s.network.Leaves →
      s.Reads ((later : Multiset (TopologyFrame δ)) + others) ds) :
    (s.swapMaster group old new).TopologyInvariant config
      ((later : Multiset (TopologyFrame δ)) + others) := by
  unfold TopologyShared.swapMaster
  split_ifs
  · exact inv.changed ne kept fun _ => Or.inr ⟨rfl, rfl, rfl⟩
  · exact inv.unchanged ne kept

/-- A change of a data server, which will be notified. -/
theorem applyChange {current : δ} {change : DataServerChange δ}
    {changes : List (DataServerChange δ)}
    (inv : s.TopologyInvariant config (.change current (change :: changes) ::ₘ others)) :
    (s.applyChange config current change).TopologyInvariant config
      (([.change current changes] : List (TopologyFrame δ)) + others) := by
  have again : ∀ ds, ds = current →
      s.Reads (([.change current changes] : List (TopologyFrame δ)) + others) ds :=
    fun ds same => reads_later (List.mem_singleton_self _) same.symm
  have kept : ∀ ds, (TopologyFrame.change current (change :: changes)).Reads ds →
      s.joined = true → ¬s.network.Leaves →
      s.Reads (([.change current changes] : List (TopologyFrame δ)) + others) ds :=
    fun ds about _ _ => again ds (Eq.symm about)
  cases change with
  | status value =>
      refine inv.changed nofun kept fun ds => ?_
      by_cases own : ds = current
      · exact Or.inl (again ds own)
      · exact Or.inr ⟨Function.update_of_ne own _ _, rfl, rfl⟩
  | version value =>
      refine inv.changed nofun kept fun ds => ?_
      by_cases own : ds = current
      · exact Or.inl (again ds own)
      · exact Or.inr ⟨rfl, Function.update_of_ne own _ _, rfl⟩
  | isMaster value =>
      refine inv.changed nofun kept fun ds => ?_
      by_cases own : ds = current
      · exact Or.inl (again ds own)
      · exact Or.inr ⟨rfl, rfl, Function.update_of_ne own _ _⟩
  | swapMaster old new => exact inv.swapMaster _ old new nofun kept

/-- The flag of an event is set. -/
theorem flagSet {current : δ} (inv : s.TopologyInvariant config (.notifyFlag current ::ₘ others)) :
    TopologyInvariant config { s with inQueue := Function.update s.inQueue current true }
      (([.notifyPush current] : List (TopologyFrame δ)) + others) := by
  have ne : ∀ ds, TopologyFrame.notifyFlag current ≠ .notifyPush ds := nofun
  refine ⟨inv.follower, fun ds flag => ?_, fun joined stays inactive ds => ?_, inv.sending,
    fun joined stays ds => ?_⟩
  · by_cases own : ds = current
    · subst own
      exact Or.inr (Or.inr (Multiset.mem_add.mpr (Or.inl (Multiset.mem_coe.mpr
        (List.mem_singleton_self _)))))
    · dsimp only at flag
      rw [Function.update_of_ne own] at flag
      exact (inv.flagged ds flag).imp_right (Or.imp_right (pushing_others ne))
  · refine (inv.waiting joined stays inactive ds).imp_left fun flag => ?_
    by_cases own : ds = current
    · subst own
      exact Function.update_self _ _ _
    · exact (Function.update_of_ne own _ _).trans flag
  · refine (inv.fresh joined stays ds).keep rfl rfl rfl (fun _ => rfl) (fun _ => rfl) rfl
      (fun reads => ?_) id id
    exact reads_others reads fun about => reads_later (List.mem_singleton_self _) about

/-- An event is pushed. -/
theorem pushed {current : δ} (inv : s.TopologyInvariant config (.notifyPush current ::ₘ others)) :
    TopologyInvariant config { s with queue := s.queue ++ [current] }
      (([] : List (TopologyFrame δ)) + others) := by
  have inside : current ∈ s.queue ++ [current] :=
    List.mem_append_right _ (List.mem_singleton_self _)
  refine ⟨inv.follower, fun ds flag => ?_, inv.waiting, inv.sending, fun joined stays ds => ?_⟩
  · rcases inv.flagged ds flag with queued | held | pushing
    · exact Or.inl (List.mem_append_left _ queued)
    · exact Or.inr (Or.inl held)
    · rcases Multiset.mem_cons.mp pushing with same | other
      · cases same
        exact Or.inl inside
      · exact Or.inr (Or.inr (Multiset.mem_add.mpr (Or.inr other)))
  · refine (inv.fresh joined stays ds).keep rfl rfl rfl (fun _ => rfl) (fun _ => rfl) rfl
      ?_ id id
    rintro (queued | held | ⟨found, member, about⟩)
    · exact Or.inl (List.mem_append_left _ queued)
    · exact Or.inr (Or.inl held)
    · rcases Multiset.mem_cons.mp member with rfl | other
      · cases about
        exact Or.inl inside
      · exact Or.inr (Or.inr ⟨found, Multiset.mem_add.mpr (Or.inr other), about⟩)

/-- Every operation keeps the invariant. -/
theorem exec {event : NetworkEvent} (inv : s.TopologyInvariant config (frame ::ₘ others))
    (oneFlag : s.OneFlag config (frame ::ₘ others) frame event) (enabled : s.Enabled event frame) :
    (s.exec config event frame).1.TopologyInvariant config
      (((s.exec config event frame).2 : Multiset (TopologyFrame δ)) + others) := by
  cases frame with
  | trySwapMaster current old new changes =>
      unfold TopologyShared.exec
      dsimp only
      split_ifs
      · exact inv.swapMaster _ old new nofun fun _ about => False.elim about
      · exact inv.unchanged nofun fun _ about => False.elim about
  | change current changes =>
      cases changes with
      | nil =>
          exact inv.unchanged nofun fun ds about _ _ => reads_later (List.mem_singleton_self _) about
      | cons change changes => exact inv.applyChange
  | notifyStatus current =>
      unfold TopologyShared.exec
      dsimp only
      split_ifs with active
      · exact inv.unchanged nofun fun ds about _ _ => reads_later (List.mem_singleton_self _) about
      · -- a follower that is not active has the event already
        refine inv.unchanged nofun fun ds about joined stays => ?_
        rcases inv.waiting joined stays active ds with flag | syncs
        · exact inv.reads_of_inQueue nofun flag
        · exact Or.inr (Or.inl syncs.reads)
  | notifyTask current =>
      unfold TopologyShared.exec
      dsimp only
      split_ifs with isJoined
      · exact inv.unchanged nofun fun ds about _ _ => reads_later (List.mem_singleton_self _) about
      · exact inv.unchanged nofun fun ds about joined _ => absurd joined isJoined
  | notifyFlag current =>
      unfold TopologyShared.exec
      dsimp only
      split_ifs with flag
      · refine inv.unchanged nofun fun ds about _ _ => inv.reads_of_inQueue nofun ?_
        rw [← show current = ds from about]
        exact flag
      · exact inv.flagSet
  | notifyPush current => exact inv.pushed
  | network => exact inv.advanceNetwork enabled oneFlag
  | receive => exact inv.receive

end Callers

end TopologyInvariant

/-! ## Settled states -/

/-- The follower is counted active only while it is joined. -/
structure Connected (s : TopologyShared δ) : Prop where
  active : s.serverStatus = .active → s.joined = true
  leaveTask : s.network = .leaveTask → s.serverStatus ≠ .active

omit [DecidableEq δ] in
theorem Connected.downgraded (s : TopologyShared δ) :
    (if s.serverStatus = .active then FSServerStatus.offline else s.serverStatus) ≠ .active := by
  split_ifs with active
  · exact nofun
  · exact active

theorem Connected.advanceNetwork {event : NetworkEvent} (connected : s.Connected)
    (enabled : s.Enabled event .network) : (s.advanceNetwork config event).Connected := by
  cases here : s.network with
  | idle =>
      have possible := enabled here
      cases event with
      | join =>
          simp only [TopologyShared.advanceNetwork, here]
          exact ⟨fun _ => rfl, nofun⟩
      | leave =>
          simp only [TopologyShared.advanceNetwork, here]
          exact ⟨connected.active, nofun⟩
      | activate =>
          simp only [TopologyShared.advanceNetwork, here]
          exact ⟨fun _ => possible, nofun⟩
      | processNotifyEvents =>
          simp only [TopologyShared.advanceNetwork, here]
          split
          · exact connected
          · exact ⟨connected.active, nofun⟩
  | joinStatus | leaveStatus =>
      simp only [TopologyShared.advanceNetwork, here]
      exact ⟨fun active => absurd active (downgraded s), fun _ => downgraded s⟩
  | sync todo =>
      cases todo with
      | nil =>
          simp only [TopologyShared.advanceNetwork, here]
          exact ⟨connected.active, nofun⟩
      | cons ds todo =>
          simp only [TopologyShared.advanceNetwork, here]
          split_ifs
          · exact ⟨connected.active, nofun⟩
          · exact ⟨connected.active, nofun⟩
  | leaveTask =>
      simp only [TopologyShared.advanceNetwork, here]
      exact ⟨fun active => absurd active (connected.leaveTask here), nofun⟩
  | readVersion ds isMaster status rest package =>
      simp only [TopologyShared.advanceNetwork, here]
      refine ⟨connected.active, fun leaving => ?_⟩
      dsimp only [sendNext] at leaving
      split at leaving
      · cases leaving
      · split_ifs at leaving
  | syncPush | release | readIsMaster | readStatus | pushBack | flush =>
      simp only [TopologyShared.advanceNetwork, here]
      exact ⟨connected.active, nofun⟩

theorem Connected.swapMaster (connected : s.Connected) (group : Nat) (old new : Option δ) :
    (s.swapMaster group old new).Connected := by
  unfold TopologyShared.swapMaster
  split_ifs
  · exact ⟨connected.active, connected.leaveTask⟩
  · exact connected

theorem Connected.exec {event : NetworkEvent} {frame : TopologyFrame δ} (connected : s.Connected)
    (enabled : s.Enabled event frame) : (s.exec config event frame).1.Connected := by
  cases frame with
  | trySwapMaster ds old new changes =>
      dsimp only [TopologyShared.exec]
      split_ifs
      · exact connected.swapMaster _ old new
      · exact connected
  | change ds changes =>
      cases changes with
      | nil => exact connected
      | cons change changes =>
          cases change with
          | status | version | isMaster => exact ⟨connected.active, connected.leaveTask⟩
          | swapMaster old new => exact connected.swapMaster _ old new
  | notifyStatus | notifyTask => exact connected
  | notifyFlag ds =>
      dsimp only [TopologyShared.exec]
      split_ifs
      · exact connected
      · exact ⟨connected.active, connected.leaveTask⟩
  | notifyPush => exact ⟨connected.active, connected.leaveTask⟩
  | network => exact connected.advanceNetwork enabled
  | receive =>
      dsimp only [TopologyShared.exec, TopologyShared.receive]
      split
      · exact connected
      · exact ⟨connected.active, connected.leaveTask⟩

/-- A thread more that changes a data server. -/
theorem TopologyInvariant.start (inv : s.TopologyInvariant config frames)
    (more : Multiset (TopologyFrame δ)) : s.TopologyInvariant config (more + frames) := by
  refine ⟨inv.follower, fun ds flag => ?_, inv.waiting, inv.sending, fun joined stays ds => ?_⟩
  · refine (inv.flagged ds flag).imp_right (Or.imp_right fun pushing => ?_)
    exact Multiset.mem_add.mpr (Or.inr pushing)
  · refine (inv.fresh joined stays ds).keep_of_sent rfl rfl rfl rfl rfl (fun reads => ?_) id id
    refine reads.imp_right (Or.imp_right fun ⟨frame, member, about⟩ => ?_)
    exact ⟨frame, Multiset.mem_add.mpr (Or.inr member), about⟩

/-- The follower's copy is the leader's, but for the data servers of the follower itself. -/
structure WordsSynced (config : TopologyConfig δ) (s : TopologyShared δ) : Prop where
  status : ∀ ds, config.serverOf ds ≠ config.follower → s.follower.status ds = s.leader.status ds
  version : ∀ ds, config.serverOf ds ≠ config.follower →
    s.follower.version ds = s.leader.version ds
  isMaster : ∀ ds, s.follower.masters.isMaster ds = s.leader.masters.isMaster ds

/-- The same with the masters of the groups. -/
structure Synced (config : TopologyConfig δ) (s : TopologyShared δ) : Prop extends
    WordsSynced config s where
  master : ∀ group, s.follower.masters.master group = s.leader.masters.master group

/-- When nothing is read again and nothing is on its way, the follower has the leader's words. -/
theorem TopologyInvariant.synced (inv : s.TopologyInvariant config frames)
    (joined : s.joined = true) (idle : s.network = .idle) (packages : s.packages = [])
    (reads : ∀ ds, ¬s.Reads frames ds) : WordsSynced config s := by
  have stays : ¬s.network.Leaves := by
    rw [idle]
    exact id
  have sent : s.sent = [] := by
    unfold TopologyShared.sent
    rw [packages, idle]
    rfl
  refine ⟨fun ds other => ?_, fun ds other => ?_, fun ds => ?_⟩
  · have fresh := (inv.fresh joined stays ds).status other
    rw [eventualStatus, sent, idle] at fresh
    exact (fresh.resolve_left (reads ds)).resolve_left id
  · have fresh := (inv.fresh joined stays ds).version other
    rw [eventualVersion, sent, idle] at fresh
    exact (fresh.resolve_left (reads ds)).resolve_left id
  · have fresh := (inv.fresh joined stays ds).isMaster
    rw [eventualMasters, sent, idle] at fresh
    exact fresh.resolve_left (reads ds)

end TopologyShared

/-- Nobody has joined, nothing is queued or on its way. -/
structure TopologyInit (config : TopologyConfig δ)
    (s : Threads (TopologyShared δ) (TopologyFrame δ)) : Prop where
  serverStatus : s.shared.serverStatus ≠ .active
  joined : s.shared.joined = false
  inQueue : ∀ ds, s.shared.inQueue ds = false
  network : s.shared.network = .idle
  masters : s.shared.follower.masters.Agree config
  calls : s.calls = [[.network], [.receive]]

/-- The follower is active, its queue is empty, no thread is on its way to notify it, and all
packages have arrived. -/
structure TopologySettled (s : Threads (TopologyShared δ) (TopologyFrame δ)) : Prop where
  active : s.shared.serverStatus = .active
  network : s.shared.network = .idle
  queue : s.shared.queue = []
  packages : s.shared.packages = []
  calls : ∀ frame ∈ s.calls.flatten, frame = .network ∨ frame = .receive

omit [DecidableEq δ] in
theorem TopologySettled.not_reads {s : Threads (TopologyShared δ) (TopologyFrame δ)}
    (settled : TopologySettled s) (ds : δ) : ¬s.shared.Reads s.frames ds := by
  rintro (queued | held | ⟨frame, member, about⟩)
  · rw [settled.queue] at queued
    exact absurd queued List.not_mem_nil
  · rw [settled.network] at held
    exact held
  · rcases settled.calls frame (Multiset.mem_coe.mp member) with rfl | rfl
    · exact about
    · exact about

/-- The steps of leader and follower in which a flag is read only when the other flags of the
group that are set are read again. -/
def OneFlagStep (config : TopologyConfig δ) :
    StepRel (Threads (TopologyShared δ) (TopologyFrame δ))
      (ThreadAction (TopologyFrame δ) NetworkEvent) :=
  (Threads.Step (topologyProgram config)).guarded
    (Threads.Meets fun s frames frame event => s.OneFlag config frames frame event)

/-- In every run in which the flag of a master is read only when every other flag of its group
that is set is read again, a settled follower has the leader's words, and it has the leader's
masters when these agree with the flags. -/
theorem topology_changes_arrive (config : TopologyConfig δ)
    {s : Threads (TopologyShared δ) (TopologyFrame δ)}
    (reached : Reachable (OneFlagStep config) (TopologyInit config) s)
    (settled : TopologySettled s) :
    s.shared.WordsSynced config ∧
      (s.shared.Synced config ↔ s.shared.leader.masters.Agree config) := by
  have inv : s.shared.TopologyInvariant config s.frames ∧ s.shared.Connected := by
    refine @Threads.invariant _ _ _ _ _
      (fun shared frames => shared.TopologyInvariant config frames ∧ shared.Connected) _ _
      ?_ ?_ ?_ _ reached
    · intro s init
      have unjoined : ∀ {p : Prop}, s.shared.joined = true → p :=
        fun joined => absurd (init.joined.symm.trans joined) nofun
      refine ⟨⟨init.masters, fun ds flag => ?_, fun joined => unjoined joined, fun sends => ?_,
        fun joined => unjoined joined⟩, fun active => absurd active init.serverStatus,
        fun leaving => absurd (init.network.symm.trans leaving) nofun⟩
      · exact absurd ((init.inQueue ds).symm.trans flag) nofun
      · rw [init.network] at sends
        cases sends
    · intro shared frames stack holds _
      exact ⟨holds.1.start _, holds.2⟩
    · intro shared frame others event holds oneFlag enabled
      exact ⟨holds.1.exec oneFlag enabled, holds.2.exec enabled⟩
  have words := inv.1.synced (inv.2.active settled.active) settled.network settled.packages
    settled.not_reads
  have masters := inv.1.follower.masters_eq_iff words.isMaster
  exact ⟨words, fun synced => masters.mp synced.master, fun agree => ⟨words, masters.mpr agree⟩⟩

/-! ## Two data servers of one group -/

/-- Two data servers, and a follower that has none. -/
def twoDataServers : TopologyConfig Bool where
  dataServers := [false, true]
  complete := by decide
  groupOf := fun _ => 0
  serverOf := fun ds => if ds then 1 else 0
  follower := 2
  maxEvents := 8

/-- The first one is the master, which the follower does not know yet. -/
def firstMaster : Threads (TopologyShared Bool) (TopologyFrame Bool) :=
  ⟨⟨⟨fun _ => .active, fun _ => 5, fun ds => !ds, fun group => if group = 0 then some false else none⟩,
    ⟨fun _ => .init, fun _ => 0, fun _ => false, fun _ => none⟩,
    .offline, false, fun _ => false, [], [], .idle⟩, [[.network], [.receive]]⟩

/-- The steps of the network thread of which none leaves a choice. -/
def networkSteps (count : Nat) : List (ThreadAction (TopologyFrame Bool) NetworkEvent) :=
  List.replicate count (.run [.network] .join)

/-- The follower joins, becomes active and receives both data servers. -/
def joinAndReceive : List (ThreadAction (TopologyFrame Bool) NetworkEvent) :=
  networkSteps 7 ++ [.run [.network] .activate, .run [.network] .processNotifyEvents] ++
    networkSteps 9 ++ [.run [.receive] .join]

theorem firstMaster_init : TopologyInit twoDataServers firstMaster := by
  refine ⟨by decide, rfl, fun _ => rfl, rfl, ⟨fun ds => ?_, fun group ds found => ?_⟩, rfl⟩
  · exact ⟨nofun, nofun⟩
  · cases found

/-- The follower has joined and has received the master. -/
theorem topology_changes_arrive_joined :
    ∃ s, Reachable (OneFlagStep twoDataServers) (TopologyInit twoDataServers) s ∧
      TopologySettled s ∧ s.shared.follower.masters.master 0 = some false ∧
      s.shared.WordsSynced twoDataServers ∧
      (s.shared.Synced twoDataServers ↔ s.shared.leader.masters.Agree twoDataServers) := by
  have initial : Reachable (OneFlagStep twoDataServers) (TopologyInit twoDataServers) firstMaster :=
    .start firstMaster_init
  have run := initial.followMeeting joinAndReceive (by decide +kernel)
  have settled : TopologySettled (joinAndReceive.foldl
      (Threads.next (topologyProgram twoDataServers)) firstMaster) := by
    exact ⟨by decide +kernel, by decide +kernel, by decide +kernel, by decide +kernel,
      by decide +kernel⟩
  exact ⟨_, run, settled, by decide +kernel, topology_changes_arrive twoDataServers run settled⟩

/-- The master is taken out and another one elected, while the flag of the old one is still
set: `master_election_unset_all_masters` and `master_election_select_master`.  An event of the
old one is sent with that flag, and the follower drops the new master. -/
def swapDuringPush : List (ThreadAction (TopologyFrame Bool) NetworkEvent) :=
  joinAndReceive ++
    [.start [.trySwapMaster false (some false) none [.isMaster false]],
      .run [.trySwapMaster false (some false) none [.isMaster false]] .join,
      .start [.trySwapMaster true none (some true) [.isMaster true]],
      .run [.trySwapMaster true none (some true) [.isMaster true]] .join,
      .run [.change true [.isMaster true]] .join] ++
    notified true ++ [.start [.change false [.version 7]], .run [.change false [.version 7]] .join] ++
    notified false ++ [.run [.change false [.isMaster false]] .join] ++ notified false
where
  /-- The event is queued, sent and received. -/
  notified (ds : Bool) : List (ThreadAction (TopologyFrame Bool) NetworkEvent) :=
    [.run [.change ds []] .join, .run [.notifyStatus ds] .join, .run [.notifyTask ds] .join,
      .run [.notifyFlag ds] .join, .run [.notifyPush ds] .join,
      .run [.network] .processNotifyEvents] ++ networkSteps 5 ++ [.run [.receive] .join]

/-- The follower has lost the master. -/
theorem topology_master_lost :
    ∃ s, Reachable (Threads.Step (topologyProgram twoDataServers)) (TopologyInit twoDataServers) s ∧
      TopologySettled s ∧ s.shared.leader.masters.master 0 = some true ∧
      s.shared.leader.masters.isMaster true = true ∧ ¬s.shared.Synced twoDataServers := by
  have initial : Reachable (Threads.Step (topologyProgram twoDataServers))
      (TopologyInit twoDataServers) firstMaster := .start firstMaster_init
  have run := initial.follow swapDuringPush (by decide +kernel)
  refine ⟨_, run, ⟨by decide +kernel, by decide +kernel, by decide +kernel, by decide +kernel,
    by decide +kernel⟩, by decide +kernel, by decide +kernel, fun synced => ?_⟩
  exact absurd (synced.master 0) (by decide +kernel)

end FastStore.Cluster
