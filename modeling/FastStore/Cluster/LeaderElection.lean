import FastStore.Util.System

/-!
# Electing the leader

A server that finds itself the best candidate announces itself in two passes over all
servers in the order of their numbers: first it pre-sets itself as next leader, then it
commits.  A server has one slot for the next leader and no term numbers: a conflicting
announcement clears the slot, a commit clears it too, and a leader that is contacted by
another candidate steps down.  The first refusal ends the announcement.

Of two candidates the one with the higher number commits at the other before it commits at
itself, and the one with the lower number pre-sets itself at the other before it commits at
all.  Both cannot succeed: each of these contacts takes the slot or the leadership away
from the server that is contacted.
-/

namespace FastStore.Cluster

open FastStore.Util

/-! ## One server -/

/-- `LEADER_ELECTION.next_leader` and `CLUSTER_LEADER_PTR` of a server. -/
structure LeaderNode where
  nextLeader : Option Nat
  leader : Option Nat
  deriving DecidableEq, Repr

/-- `FS_CLUSTER_PROTO_PRE_SET_NEXT_LEADER` and `FS_CLUSTER_PROTO_COMMIT_NEXT_LEADER`. -/
inductive NextLeaderCmd where
  | preSet
  | commit
  deriving DecidableEq, Repr

namespace LeaderNode

variable (node : LeaderNode)

/-- `cluster_relationship_pre_set_leader`. -/
def preSetLeader (leader : Nat) : Errno × LeaderNode :=
  match node.nextLeader with
  | none => (.ok, { node with nextLeader := some leader })
  | some next =>
      if next ≠ leader then (.eexist, { node with nextLeader := none }) else (.ok, node)

/-- `cluster_relationship_set_leader`, as far as the pointer is concerned. -/
def setLeader (leader : Nat) : LeaderNode :=
  { node with leader := some leader }

/-- `cluster_relationship_commit_leader`. -/
def commitLeader (leader : Nat) : Errno × LeaderNode :=
  match node.nextLeader with
  | none => (.ebusy, node)
  | some next =>
      if next ≠ leader then (.ebusy, { node with nextLeader := none })
      else (.ok, { node.setLeader leader with nextLeader := none })

/-- `cluster_unset_leader`. -/
def unsetLeader : LeaderNode :=
  { node with leader := none }

/-- The two functions by their command. -/
def announce : NextLeaderCmd → Nat → Errno × LeaderNode
  | .preSet, leader => node.preSetLeader leader
  | .commit, leader => node.commitLeader leader

/-- `cluster_deal_next_leader`: a leader that is contacted steps down. -/
def dealNextLeader (count myself : Nat) (cmd : NextLeaderCmd) (leader : Nat) :
    Errno × LeaderNode :=
  if node.leader = some myself then (.eexist, node.unsetLeader)
  else if count ≤ leader then (.enoent, node)
  else node.announce cmd leader

/-- A server that is contacted by another one is not the leader afterwards. -/
theorem dealNextLeader_leader {count myself leader : Nat} (cmd : NextLeaderCmd)
    (other : leader ≠ myself) :
    (node.dealNextLeader count myself cmd leader).2.leader ≠ some myself := by
  unfold dealNextLeader
  split_ifs with isLeader beyond
  · exact nofun
  · exact isLeader
  · cases cmd with
    | preSet =>
        simp only [announce, preSetLeader]
        split
        · exact isLeader
        · split_ifs
          · exact isLeader
          · exact isLeader
    | commit =>
        simp only [announce, commitLeader]
        split
        · exact isLeader
        · split_ifs
          · exact isLeader
          · exact fun equal => other (Option.some.inj equal)

/-- Its slot is its own afterwards only when it was before and the contact is refused. -/
theorem dealNextLeader_nextLeader {count myself leader : Nat} {cmd : NextLeaderCmd}
    (other : leader ≠ myself)
    (own : (node.dealNextLeader count myself cmd leader).2.nextLeader = some myself) :
    node.nextLeader = some myself ∧ (node.dealNextLeader count myself cmd leader).1 ≠ .ok := by
  unfold dealNextLeader at own ⊢
  split_ifs at own ⊢ with isLeader beyond
  · exact ⟨own, nofun⟩
  · exact ⟨own, nofun⟩
  · cases cmd with
    | preSet =>
        simp only [announce, preSetLeader] at own ⊢
        split at own
        · exact absurd (Option.some.inj own) other
        · rename_i next found
          split_ifs at own with same
          exact absurd ((Option.some.inj (own.symm.trans found)).trans (not_not.mp same)).symm other
    | commit =>
        simp only [announce, commitLeader] at own ⊢
        split at own
        · rename_i found
          exact absurd (own.symm.trans found) nofun
        · split_ifs at own

/-- A server becomes leader by its own commit only, with its own slot. -/
theorem announce_leader {cmd : NextLeaderCmd} {leader : Nat}
    (isLeader : (node.announce cmd leader).2.leader = some leader) :
    node.leader = some leader ∨ cmd = .commit ∧ node.nextLeader = some leader := by
  cases cmd with
  | preSet =>
      simp only [announce, preSetLeader] at isLeader
      split at isLeader
      · exact Or.inl isLeader
      · split_ifs at isLeader
        · exact Or.inl isLeader
        · exact Or.inl isLeader
  | commit =>
      simp only [announce, commitLeader] at isLeader
      split at isLeader
      · exact Or.inl isLeader
      · rename_i next found
        split_ifs at isLeader with same
        · exact Or.inl isLeader
        · exact Or.inr ⟨rfl, found.trans (congrArg some (not_not.mp same))⟩

/-- No commit leaves the slot set. -/
theorem announce_commit_nextLeader (leader : Nat) :
    (node.announce .commit leader).2.nextLeader = none := by
  simp only [announce, commitLeader]
  split
  · assumption
  · split_ifs
    · rfl
    · rfl

end LeaderNode

/-! ## The servers and their announcements -/

/-- Where a server stands in `cluster_notify_leader_changed`: at no announcement, or about
to contact a server with a command. -/
inductive ElectionPhase where
  | idle
  | announcing (cmd : NextLeaderCmd) (target : Nat)
  deriving DecidableEq, Repr

/-- The phase after the target has accepted. -/
def ElectionPhase.accepted (count : Nat) (cmd : NextLeaderCmd) (target : Nat) : ElectionPhase :=
  if target + 1 < count then .announcing cmd (target + 1)
  else
    match cmd with
    | .preSet => .announcing .commit 0
    | .commit => .idle

/-- A request whose sender no longer waits for the answer. -/
structure NextLeaderRequest where
  cmd : NextLeaderCmd
  target : Nat
  leader : Nat
  deriving DecidableEq, Repr

/-- All servers, and the requests on their way whose sender has given up. -/
structure LeaderState where
  nodes : Nat → LeaderNode
  phase : Nat → ElectionPhase
  requests : List NextLeaderRequest

inductive LeaderAction where
  /-- A server finds itself the best candidate, from whatever view it has. -/
  | selectLeader (server : Nat)
  /-- It contacts its next target and gets the answer. -/
  | notify (server : Nat)
  /-- It gets no answer; the request may still arrive. -/
  | timeout (server : Nat)
  | deliver (request : NextLeaderRequest)
  /-- It adopts a leader it was told of. -/
  | adopt (server leader : Nat)
  /-- It gives its leader up. -/
  | unset (server : Nat)
  deriving DecidableEq

namespace LeaderState

variable (count : Nat) (s : LeaderState)

def setNode (server : Nat) (node : LeaderNode) : LeaderState :=
  { s with nodes := Function.update s.nodes server node }

def setPhase (server : Nat) (phase : ElectionPhase) : LeaderState :=
  { s with phase := Function.update s.phase server phase }

/-- `cluster_notify_next_leader` and `cluster_commit_next_leader`: the server calls its own
functions without the check of the handler. -/
def answer (server : Nat) (cmd : NextLeaderCmd) (target : Nat) : Errno × LeaderNode :=
  if target = server then (s.nodes target).announce cmd server
  else (s.nodes target).dealNextLeader count target cmd server

/-- One contact of `cluster_notify_leader_changed`. -/
def notify (server : Nat) (cmd : NextLeaderCmd) (target : Nat) : LeaderState :=
  (s.setNode target (s.answer count server cmd target).2).setPhase server
    (if (s.answer count server cmd target).1 = .ok then .accepted count cmd target else .idle)

/-- When a step can be taken. -/
def Enabled : LeaderAction → Prop
  | .selectLeader server => server < count ∧ s.phase server = .idle
  | .notify server => s.phase server ≠ .idle
  | .timeout server =>
      match s.phase server with
      | .announcing _ target => target ≠ server
      | .idle => False
  | .deliver request => request ∈ s.requests
  | .adopt server leader => leader ≠ server
  | .unset _ => True

instance (action : LeaderAction) : Decidable (s.Enabled count action) := by
  unfold Enabled
  split <;> (try split) <;> infer_instance

/-- The state after a step. -/
def next : LeaderAction → LeaderState
  | .selectLeader server => s.setPhase server (.announcing .preSet 0)
  | .notify server =>
      match s.phase server with
      | .announcing cmd target => s.notify count server cmd target
      | .idle => s
  | .timeout server =>
      match s.phase server with
      | .announcing cmd target =>
          { s.setPhase server .idle with requests := ⟨cmd, target, server⟩ :: s.requests }
      | .idle => s
  | .deliver request =>
      { s.setNode request.target ((s.nodes request.target).dealNextLeader count request.target
          request.cmd request.leader).2 with
        requests := s.requests.erase request }
  | .adopt server leader => s.setNode server ((s.nodes server).setLeader leader)
  | .unset server => s.setNode server (s.nodes server).unsetLeader

end LeaderState

/-- The steps of the servers. -/
def LeaderStep (count : Nat) : StepRel LeaderState LeaderAction :=
  StepRel.ofNext (LeaderState.Enabled count) (LeaderState.next count)

/-- All servers have just started. -/
structure LeaderInit (s : LeaderState) : Prop where
  nodes : ∀ server, s.nodes server = ⟨none, none⟩
  phase : ∀ server, s.phase server = .idle
  requests : s.requests = []

/-! ## Two candidates exclude each other -/

/-- A candidate that has pre-set itself at a server behind it. -/
def ElectionPhase.PreSetAt (self other : Nat) : ElectionPhase → Prop
  | .announcing .preSet target => other < target
  | .announcing .commit target => target ≤ self
  | .idle => False

/-- A candidate that has committed at a server before it, and not at itself yet. -/
def ElectionPhase.CommittedAt (self other : Nat) : ElectionPhase → Prop
  | .announcing .commit target => other < target ∧ target ≤ self
  | _ => False

theorem ElectionPhase.preSetAt_of_accepted {count self other target : Nat} {cmd : NextLeaderCmd}
    (bound : other < count) (ne : target ≠ other)
    (later : (accepted count cmd target).PreSetAt self other) :
    (announcing cmd target).PreSetAt self other := by
  unfold accepted at later
  split_ifs at later with inside
  · cases cmd with
    | preSet => exact lt_of_le_of_ne (Nat.le_of_lt_succ later) ne.symm
    | commit => exact Nat.le_of_succ_le later
  · cases cmd with
    | preSet =>
        have last : other ≤ target := Nat.le_of_lt_succ (lt_of_lt_of_le bound (not_lt.mp inside))
        exact lt_of_le_of_ne last ne.symm
    | commit => cases later

theorem ElectionPhase.committedAt_of_accepted {count self other target : Nat} {cmd : NextLeaderCmd}
    (ne : target ≠ other) (later : (accepted count cmd target).CommittedAt self other) :
    (announcing cmd target).CommittedAt self other := by
  unfold accepted at later
  split_ifs at later with inside
  · cases cmd with
    | preSet => cases later
    | commit =>
        exact ⟨lt_of_le_of_ne (Nat.le_of_lt_succ later.1) ne.symm, Nat.le_of_succ_le later.2⟩
  · cases cmd with
    | preSet => exact absurd later.1 (Nat.not_lt_zero other)
    | commit => cases later

namespace LeaderState

variable {count : Nat} {s s' : LeaderState}

/-- The first server is the leader, or can become it without contacting the second. -/
def Leads (s : LeaderState) (first second : Nat) : Prop :=
  (s.nodes first).leader = some first ∨
    (s.nodes first).nextLeader = some first ∧ (s.phase first).PreSetAt first second

/-- The second server is the leader, or can become it without contacting the first. -/
def Follows (s : LeaderState) (first second : Nat) : Prop :=
  (s.nodes second).leader = some second ∨
    (s.nodes second).nextLeader = some second ∧ (s.phase second).CommittedAt second first

/-- Of two servers one at most is the leader or past the other. -/
structure Exclusive (count : Nat) (s : LeaderState) : Prop where
  pairs : ∀ first second, first < second → second < count →
    ¬(s.Leads first second ∧ s.Follows first second)
  requests : ∀ request ∈ s.requests, request.target ≠ request.leader

namespace Exclusive

/-- What holds of the words of a server that is contacted by another one, or gives up. -/
structure Weakened (before after : LeaderNode) (server : Nat) : Prop where
  leader : after.leader = some server → before.leader = some server
  nextLeader : after.nextLeader = some server → before.nextLeader = some server

theorem weakened_deal (node : LeaderNode) {count server leader : Nat} (cmd : NextLeaderCmd)
    (other : leader ≠ server) :
    Weakened node (node.dealNextLeader count server cmd leader).2 server :=
  ⟨fun isLeader => absurd isLeader (node.dealNextLeader_leader cmd other),
    fun own => (node.dealNextLeader_nextLeader other own).1⟩

theorem leads_of_weakened {first second : Nat} (later : s'.Leads first second)
    (node : Weakened (s.nodes first) (s'.nodes first) first)
    (phase : (s'.phase first).PreSetAt first second → (s.phase first).PreSetAt first second) :
    s.Leads first second :=
  later.imp node.leader fun waits => ⟨node.nextLeader waits.1, phase waits.2⟩

theorem follows_of_weakened {first second : Nat} (later : s'.Follows first second)
    (node : Weakened (s.nodes second) (s'.nodes second) second)
    (phase : (s'.phase second).CommittedAt second first →
      (s.phase second).CommittedAt second first) :
    s.Follows first second :=
  later.imp node.leader fun waits => ⟨node.nextLeader waits.1, phase waits.2⟩

/-- A step after which no server has come closer to be the leader. -/
theorem weaken (exclusive : s.Exclusive count)
    (node : ∀ server, Weakened (s.nodes server) (s'.nodes server) server)
    (preSet : ∀ first second, (s'.phase first).PreSetAt first second →
      (s.phase first).PreSetAt first second)
    (committed : ∀ first second, (s'.phase second).CommittedAt second first →
      (s.phase second).CommittedAt second first)
    (requests : ∀ request ∈ s'.requests, request.target ≠ request.leader) :
    s'.Exclusive count := by
  refine ⟨fun first second order bound both => ?_, requests⟩
  exact exclusive.pairs first second order bound
    ⟨leads_of_weakened both.1 (node first) (preSet first second),
      follows_of_weakened both.2 (node second) (committed first second)⟩

theorem weakened_update {server : Nat} {node : LeaderNode}
    (weakened : Weakened (s.nodes server) node server) (other : Nat) :
    Weakened (s.nodes other) ((s.setNode server node).nodes other) other := by
  by_cases same : other = server
  · subst same
    simpa [setNode] using weakened
  · simp only [setNode, Function.update_of_ne same]
    exact ⟨id, id⟩

/-- A contact of another server: it succeeds only when that server loses what it had. -/
theorem notifyOther (exclusive : s.Exclusive count) {server target : Nat} {cmd : NextLeaderCmd}
    (phase : s.phase server = .announcing cmd target) (other : target ≠ server) :
    (s.notify count server cmd target).Exclusive count := by
  have answer : s.answer count server cmd target =
      (s.nodes target).dealNextLeader count target cmd server := if_neg other
  unfold LeaderState.notify
  rw [answer]
  have node : ∀ peer, Weakened (s.nodes peer) ((s.setNode target
      ((s.nodes target).dealNextLeader count target cmd server).2).nodes peer) peer :=
    weakened_update (weakened_deal (s.nodes target) cmd other.symm)
  have contacted : (Function.update s.nodes target
      ((s.nodes target).dealNextLeader count target cmd server).2) target =
      ((s.nodes target).dealNextLeader count target cmd server).2 := Function.update_self _ _ _
  refine ⟨fun first second order bound both => ?_, exclusive.requests⟩
  obtain ⟨leads, follows⟩ := both
  by_cases ok : ((s.nodes target).dealNextLeader count target cmd server).1 = .ok
  · rw [if_pos ok] at leads follows
    have lost : ∀ P : Prop, ¬(((s.nodes target).dealNextLeader count target cmd server).2.leader =
        some target ∨ ((s.nodes target).dealNextLeader count target cmd server).2.nextLeader =
        some target ∧ P) := by
      rintro P (isLeader | ⟨own, _⟩)
      · exact (s.nodes target).dealNextLeader_leader cmd other.symm isLeader
      · exact ((s.nodes target).dealNextLeader_nextLeader other.symm own).2 ok
    -- the contacted server has lost its slot and its leadership
    by_cases isSecond : target = second
    · subst isSecond
      simp only [Follows, setNode, setPhase, contacted] at follows
      exact lost _ follows
    by_cases isFirst : target = first
    · subst isFirst
      simp only [Leads, setNode, setPhase, contacted] at leads
      exact lost _ leads
    refine exclusive.pairs first second order bound ⟨leads_of_weakened leads (node first) ?_,
      follows_of_weakened follows (node second) ?_⟩
    · intro later
      by_cases own : first = server
      · subst own
        simp only [setNode, setPhase, Function.update_self] at later
        rw [phase]
        exact ElectionPhase.preSetAt_of_accepted bound isSecond later
      · simpa [setNode, setPhase, Function.update_of_ne own] using later
    · intro later
      by_cases own : second = server
      · subst own
        simp only [setNode, setPhase, Function.update_self] at later
        rw [phase]
        exact ElectionPhase.committedAt_of_accepted isFirst later
      · simpa [setNode, setPhase, Function.update_of_ne own] using later
  · rw [if_neg ok] at leads follows
    refine exclusive.pairs first second order bound ⟨leads_of_weakened leads (node first) ?_,
      follows_of_weakened follows (node second) ?_⟩
    · intro later
      by_cases own : first = server
      · subst own
        simp only [setNode, setPhase, Function.update_self] at later
        cases later
      · simpa [setNode, setPhase, Function.update_of_ne own] using later
    · intro later
      by_cases own : second = server
      · subst own
        simp only [setNode, setPhase, Function.update_self] at later
        cases later
      · simpa [setNode, setPhase, Function.update_of_ne own] using later

/-- The phase of a candidate after its own answer, when it still waits in its own slot. -/
theorem phase_of_own {server : Nat} {cmd : NextLeaderCmd} {phase : ElectionPhase → Prop}
    (idle : ¬phase .idle)
    (own : ((s.nodes server).announce cmd server).2.nextLeader = some server)
    (later : phase (if ((s.nodes server).announce cmd server).1 = .ok then
      .accepted count cmd server else .idle)) :
    cmd = .preSet ∧ phase (.accepted count cmd server) := by
  split_ifs at later
  · refine ⟨?_, later⟩
    cases cmd with
    | preSet => rfl
    | commit =>
        rw [LeaderNode.announce_commit_nextLeader] at own
        cases own
  · exact absurd later idle

/-- A contact of itself: it is past the others already when it commits. -/
theorem notifySelf (exclusive : s.Exclusive count) {server : Nat} {cmd : NextLeaderCmd}
    (phase : s.phase server = .announcing cmd server) :
    (s.notify count server cmd server).Exclusive count := by
  have answer : s.answer count server cmd server = (s.nodes server).announce cmd server := if_pos rfl
  unfold LeaderState.notify
  rw [answer]
  refine ⟨fun first second order bound both => ?_, exclusive.requests⟩
  obtain ⟨leads, follows⟩ := both
  refine exclusive.pairs first second order bound ⟨?_, ?_⟩
  · by_cases own : first = server
    · subst own
      simp only [Leads, setNode, setPhase, Function.update_self] at leads
      rcases leads with isLeader | ⟨waits, later⟩
      · rcases (s.nodes first).announce_leader isLeader with before | ⟨rfl, slot⟩
        · exact Or.inl before
        · refine Or.inr ⟨slot, ?_⟩
          rw [phase]
          exact Nat.le_refl first
      · obtain ⟨rfl, past⟩ := phase_of_own id waits later
        have before := ElectionPhase.preSetAt_of_accepted bound order.ne past
        exact absurd order (Nat.lt_asymm before)
    · simpa [Leads, setNode, setPhase, Function.update_of_ne own] using leads
  · by_cases own : second = server
    · subst own
      simp only [Follows, setNode, setPhase, Function.update_self] at follows
      rcases follows with isLeader | ⟨waits, later⟩
      · rcases (s.nodes second).announce_leader isLeader with before | ⟨rfl, slot⟩
        · exact Or.inl before
        · refine Or.inr ⟨slot, ?_⟩
          rw [phase]
          exact ⟨order, Nat.le_refl second⟩
      · obtain ⟨rfl, past⟩ := phase_of_own id waits later
        have before := ElectionPhase.committedAt_of_accepted order.ne' past
        cases before
    · simpa [Follows, setNode, setPhase, Function.update_of_ne own] using follows

/-- Every step keeps the invariant. -/
theorem next (exclusive : s.Exclusive count) {action : LeaderAction}
    (enabled : s.Enabled count action) : (s.next count action).Exclusive count := by
  have same : ∀ server, Weakened (s.nodes server) (s.nodes server) server := fun _ => ⟨id, id⟩
  have idle : ∀ {server : Nat} {phase : ElectionPhase} {P : ElectionPhase → Prop} (other : Nat),
      ¬P phase → P ((s.setPhase server phase).phase other) → P (s.phase other) := by
    intro server phase P other never later
    by_cases own : other = server
    · subst own
      exact absurd (by simpa [setPhase] using later) never
    · simpa [setPhase, Function.update_of_ne own] using later
  cases action with
  | selectLeader server =>
      exact exclusive.weaken same (fun first second => idle first (Nat.not_lt_zero second))
        (fun first second => idle second id) exclusive.requests
  | notify server =>
      unfold LeaderState.next
      dsimp only
      cases phase : s.phase server with
      | idle => exact exclusive
      | announcing cmd target =>
          by_cases self : target = server
          · subst self
            exact exclusive.notifySelf phase
          · exact exclusive.notifyOther phase self
  | timeout server =>
      unfold LeaderState.next
      dsimp only
      cases phase : s.phase server with
      | idle => exact exclusive
      | announcing cmd target =>
          simp only [LeaderState.Enabled, phase] at enabled
          refine exclusive.weaken same (fun first second => idle first id)
            (fun first second => idle second id) fun request member => ?_
          rcases List.mem_cons.mp member with rfl | earlier
          · exact enabled
          · exact exclusive.requests request earlier
  | deliver request =>
      refine exclusive.weaken (weakened_update (weakened_deal _ request.cmd ?_)) (fun _ _ => id)
        (fun _ _ => id) fun other member => ?_
      · exact (exclusive.requests request enabled).symm
      · exact exclusive.requests other (List.mem_of_mem_erase member)
  | adopt server leader =>
      refine exclusive.weaken (weakened_update ⟨fun isLeader => ?_, id⟩) (fun _ _ => id)
        (fun _ _ => id) exclusive.requests
      exact absurd (Option.some.inj isLeader) enabled
  | unset server =>
      exact exclusive.weaken (weakened_update ⟨nofun, id⟩) (fun _ _ => id) (fun _ _ => id)
        exclusive.requests

end Exclusive

end LeaderState

theorem LeaderInit.exclusive {count : Nat} {s : LeaderState} (init : LeaderInit s) :
    s.Exclusive count := by
  constructor
  · rintro first second _ _ ⟨isLeader | ⟨waits, _⟩, _⟩
    · rw [init.nodes first] at isLeader
      cases isLeader
    · rw [init.nodes first] at waits
      cases waits
  · rw [init.requests]
    exact nofun

/-- One server at most takes itself for the leader. -/
def OneLeader (count : Nat) (s : LeaderState) : Prop :=
  ∀ first < count, ∀ second < count, (s.nodes first).leader = some first →
    (s.nodes second).leader = some second → first = second

/-- In every run, for any number of servers and any order of their elections, there are never
two leaders. -/
theorem one_leader {count : Nat} {s : LeaderState}
    (reached : Reachable (LeaderStep count) LeaderInit s) : OneLeader count s := by
  have exclusive : s.Exclusive count := by
    refine Reachable.invariant ?_ ?_ reached
    · exact fun s init => init.exclusive
    · rintro s action _ inv ⟨enabled, rfl⟩
      exact inv.next enabled
  intro first firstBound second secondBound isFirst isSecond
  rcases lt_trichotomy first second with before | same | behind
  · exact absurd ⟨Or.inl isFirst, Or.inl isSecond⟩
      (exclusive.pairs first second before secondBound)
  · exact same
  · exact absurd ⟨Or.inl isSecond, Or.inl isFirst⟩
      (exclusive.pairs second first behind firstBound)

/-- Two servers that have just started. -/
def twoServers : LeaderState := ⟨fun _ => ⟨none, none⟩, fun _ => .idle, []⟩

/-- Both servers announce themselves; the second is refused and clears the slot of the first,
whose own commit is then refused, and which is elected in a second try. -/
theorem one_leader_of_two :
    ∃ s : LeaderState, Reachable (LeaderStep 2) LeaderInit s ∧ (s.nodes 0).leader = some 0 ∧
      (s.nodes 1).leader = some 0 ∧ OneLeader 2 s := by
  have initial : Reachable (LeaderStep 2) LeaderInit twoServers :=
    .start ⟨fun _ => rfl, fun _ => rfl, rfl⟩
  have run := initial.follow [.selectLeader 0, .selectLeader 1, .notify 0, .notify 1, .notify 0,
    .notify 0, .selectLeader 0, .notify 0, .notify 0, .notify 0, .notify 0] (by decide +kernel)
  exact ⟨_, run, by decide +kernel, by decide +kernel, one_leader run⟩

end FastStore.Cluster
