import FastStore.Replication.RpcResultRing

/-!
# Runs of the RPC result ring

The ring and its queue against the set of updates that have been added and have not been
removed, timed out or cleared.  The ring keeps exactly these when no clear of the timeouts
finds an expired update in the queue behind one that has not expired, and no answer names
the data version that marks an empty slot.
-/

namespace FastStore.Replication

open FastStore.Util

/-- The instance of one data group with the clock, and what has been done to it. -/
structure RpcResultState where
  ring : FSReplicaRPCResultInstance
  /-- `g_current_time`. -/
  currentTime : Nat
  lastCheckTimeoutTime : Nat
  /-- The updates added and not yet removed, expired or cleared. -/
  pending : List FSReplicaRPCResultEntry
  /-- The updates that have been added, with their tasks. -/
  added : List (Nat × Nat)
  /-- The calls that have decreased the counter of a task. -/
  decremented : List (Nat × Nat)

inductive RpcResultAction where
  | add (dataVersion task : Nat)
  | remove (dataVersion : Nat)
  | clearTimeouts
  | clearAll
  | tick (seconds : Nat)
  deriving DecidableEq, Repr

namespace RpcResultState

variable (networkTimeout : Nat) (s : RpcResultState)

/-- `rpc_result_ring_clear_timeouts` does nothing twice in a second. -/
def clearTimeouts : FSReplicaRPCResultInstance × List (Nat × Nat) :=
  if s.lastCheckTimeoutTime = s.currentTime then (s.ring, [])
  else s.ring.rpcResultInstanceClearTimeouts s.currentTime

/-- Data versions are positive and no two updates have the same. -/
def Enabled : RpcResultAction → Prop
  | .add dataVersion _ => 0 < dataVersion ∧ dataVersion ∉ s.added.map Prod.fst
  | _ => True

instance (action : RpcResultAction) : Decidable (s.Enabled action) := by
  cases action <;> unfold Enabled <;> infer_instance

def next : RpcResultAction → RpcResultState
  | .add dataVersion task =>
      let entry := ⟨dataVersion, some task, s.currentTime + networkTimeout⟩
      { s with
        ring := s.ring.rpcResultRingAdd entry
        pending := entry :: s.pending
        added := (dataVersion, task) :: s.added }
  | .remove dataVersion =>
      { s with
        ring := (s.ring.rpcResultRingRemove dataVersion).2.1
        pending := s.pending.filter fun entry => entry.dataVersion ≠ dataVersion
        decremented := (s.ring.rpcResultRingRemove dataVersion).2.2 ++ s.decremented }
  | .clearTimeouts =>
      { s with
        ring := s.clearTimeouts.1
        lastCheckTimeoutTime := s.currentTime
        pending := s.pending.filter fun entry => s.currentTime ≤ entry.expires
        decremented := s.clearTimeouts.2 ++ s.decremented }
  | .clearAll =>
      { s with
        ring := s.ring.rpcResultInstanceClearAll.1
        pending := []
        decremented := s.ring.rpcResultInstanceClearAll.2 ++ s.decremented }
  | .tick seconds => { s with currentTime := s.currentTime + seconds }

/-- The ring and the queue hold exactly the pending updates, each once and with its task, the
queue is strictly sorted up to its tail, and the counter of a task has been decreased once for
each update that has left. -/
structure PendingExact : Prop where
  held : s.ring.held.Perm s.pending
  once : (s.ring.held.map FSReplicaRPCResultEntry.dataVersion).Nodup
  sorted : s.ring.queue.Pairwise fun left right => left.dataVersion < right.dataVersion
  tail : s.ring.tail = s.ring.queue.getLast?
  decremented : s.added.Perm (s.pending.flatMap descTaskWaitingRpcCount ++ s.decremented)

/-- An answer is taken exactly when its update is pending; else nothing changes. -/
def RemoveExact (dataVersion : Nat) : Prop :=
  ((s.ring.rpcResultRingRemove dataVersion).1 = .ok ↔
      ∃ entry ∈ s.pending, entry.dataVersion = dataVersion) ∧
    ((s.ring.rpcResultRingRemove dataVersion).1 ≠ .ok →
      (s.ring.rpcResultRingRemove dataVersion).2 = (s.ring, []))

/-- No answer names the data version of an empty slot, and no clear of the timeouts finds an
expired update in the queue behind one that has not expired. -/
def Regular : RpcResultAction → Prop
  | .remove dataVersion =>
      dataVersion ≠ 0 ∨ s.ring.stop = s.ring.start ∨ (s.ring.entries 0).dataVersion ≠ 0
  | .clearTimeouts =>
      s.lastCheckTimeoutTime ≠ s.currentTime →
        ∀ entry ∈ s.ring.queue.dropWhile (fun entry => entry.expires < s.currentTime),
          s.currentTime ≤ entry.expires
  | _ => True

instance (action : RpcResultAction) : Decidable (s.Regular action) := by
  cases action <;> unfold Regular <;> infer_instance

/-- The steps of the thread that owns the ring, and the clock. -/
def Step : StepRel RpcResultState RpcResultAction :=
  StepRel.ofNext Enabled (next networkTimeout)

/-- A ring of the given size with nothing added. -/
def Init (allocSize : Nat) (s : RpcResultState) : Prop :=
  ∃ currentTime, s = ⟨initRpcResultInstance allocSize, currentTime, 0, [], [], []⟩

/-! ## The invariant -/

/-- What is pending, taken against the entries and the calls so far. -/
structure Sound : Prop where
  ring : s.ring.Sound (s.currentTime + networkTimeout)
  held : s.ring.held.Perm s.pending
  ledger : s.added.Perm (s.pending.flatMap descTaskWaitingRpcCount ++ s.decremented)
  distinct : (s.added.map Prod.fst).Nodup
  checked : s.lastCheckTimeoutTime ≤ s.currentTime
  unexpired : s.lastCheckTimeoutTime = s.currentTime →
    ∀ entry ∈ s.pending, s.currentTime ≤ entry.expires

variable {networkTimeout : Nat} {s : RpcResultState}

theorem sound_of_init {allocSize : Nat} (large : 2 ≤ allocSize) (init : Init allocSize s) :
    s.Sound networkTimeout := by
  obtain ⟨currentTime, rfl⟩ := init
  have empty : (initRpcResultInstance allocSize).held = [] := by
    rw [FSReplicaRPCResultInstance.held, FSReplicaRPCResultInstance.occupied_of_empty rfl]
    rfl
  have slots : (initRpcResultInstance allocSize).slots = [] :=
    FSReplicaRPCResultInstance.slots_of_empty rfl
  have positive : 0 < allocSize := by omega
  refine ⟨⟨⟨large, positive, positive, fun _ _ => rfl, fun _ used => absurd rfl used,
    fun _ _ => rfl, ?_, ?_⟩, ⟨Ascending.nil _, rfl⟩, ?_, ?_, ?_⟩, ?_, ?_, ?_, Nat.zero_le _, ?_⟩
  · rw [slots]
    exact List.Pairwise.nil
  · rw [slots]
    exact List.forall_mem_nil _
  · rw [empty]
    exact List.nodup_nil
  · rw [empty]
    exact List.forall_mem_nil _
  · rw [empty]
    exact List.forall_mem_nil _
  · exact List.Perm.of_eq empty
  · exact List.Perm.refl _
  · exact List.nodup_nil
  · exact fun _ => List.forall_mem_nil _

/-- A pending update has been added. -/
theorem Sound.mem_added (sound : s.Sound networkTimeout) {entry : FSReplicaRPCResultEntry}
    (member : entry ∈ s.pending) : entry.dataVersion ∈ s.added.map Prod.fst := by
  obtain ⟨task, tasked⟩ := sound.ring.tasked entry (sound.held.mem_iff.mpr member)
  have logged : (entry.dataVersion, task) ∈ s.pending.flatMap descTaskWaitingRpcCount := by
    refine List.mem_flatMap.mpr ⟨entry, member, ?_⟩
    rw [descTaskWaitingRpcCount, tasked]
    exact List.mem_singleton_self _
  have added := sound.ledger.mem_iff.mpr (List.mem_append_left s.decremented logged)
  exact List.mem_map_of_mem added

theorem Sound.pending_nodup (sound : s.Sound networkTimeout) :
    (s.pending.map FSReplicaRPCResultEntry.dataVersion).Nodup :=
  (sound.held.map _).nodup_iff.mp sound.ring.once

/-- Taking off the update of a key from a list that has it once. -/
theorem perm_cons_filter {pending : List FSReplicaRPCResultEntry} {entry : FSReplicaRPCResultEntry}
    (once : (pending.map FSReplicaRPCResultEntry.dataVersion).Nodup) (member : entry ∈ pending) :
    pending.Perm (entry :: pending.filter fun other => other.dataVersion ≠ entry.dataVersion) := by
  obtain ⟨before, behind, rfl⟩ := List.append_of_mem member
  rw [List.map_append, List.map_cons, List.nodup_append] at once
  obtain ⟨-, behindOnce, across⟩ := once
  have beforeApart : ∀ other ∈ before, other.dataVersion ≠ entry.dataVersion :=
    fun other otherMember => across _ (List.mem_map_of_mem otherMember) _ List.mem_cons_self
  have behindApart : ∀ other ∈ behind, other.dataVersion ≠ entry.dataVersion := by
    intro other otherMember same
    exact (List.nodup_cons.mp behindOnce).1 (same ▸ List.mem_map_of_mem otherMember)
  rw [List.filter_append, List.filter_cons_of_neg (by simp),
    FSReplicaRPCResultInstance.filter_eq_self_of_apart beforeApart,
    FSReplicaRPCResultInstance.filter_eq_self_of_apart behindApart]
  exact List.perm_middle

theorem Sound.add (sound : s.Sound networkTimeout) {dataVersion task : Nat}
    (enabled : s.Enabled (.add dataVersion task)) :
    (s.next networkTimeout (.add dataVersion task)).Sound networkTimeout := by
  obtain ⟨positive, fresh⟩ := enabled
  have absent : ∀ other ∈ s.ring.held, other.dataVersion ≠ dataVersion := by
    intro other member same
    exact fresh (same ▸ sound.mem_added (sound.held.mem_iff.mp member))
  obtain ⟨ring, held⟩ := @FSReplicaRPCResultInstance.Sound.add s.ring _
    sound.ring ⟨dataVersion, some task, s.currentTime + networkTimeout⟩ task positive.ne' rfl
    le_rfl absent
  refine ⟨ring, held.trans (sound.held.cons _), sound.ledger.cons _, ?_, sound.checked, ?_⟩
  · exact List.nodup_cons.mpr ⟨fresh, sound.distinct⟩
  · intro now other member
    rcases List.mem_cons.mp member with rfl | old
    · exact Nat.le_add_right _ _
    · exact sound.unexpired now other old

theorem Sound.remove (sound : s.Sound networkTimeout) {dataVersion : Nat}
    (regular : s.Regular (.remove dataVersion)) :
    (s.next networkTimeout (.remove dataVersion)).Sound networkTimeout := by
  by_cases pending : ∃ entry ∈ s.pending, entry.dataVersion = dataVersion
  · obtain ⟨entry, member, rfl⟩ := pending
    obtain ⟨after, result, ring, held⟩ :=
      sound.ring.remove_of_mem (sound.held.mem_iff.mpr member)
    have off := perm_cons_filter sound.pending_nodup member
    refine ⟨?_, ?_, ?_, sound.distinct, sound.checked, ?_⟩
    · show (s.ring.rpcResultRingRemove entry.dataVersion).2.1.Sound _
      rw [result]
      exact ring
    · show (s.ring.rpcResultRingRemove entry.dataVersion).2.1.held.Perm _
      rw [result]
      show after.held.Perm _
      rw [held]
      exact sound.held.filter _
    · show s.added.Perm (_ ++ ((s.ring.rpcResultRingRemove entry.dataVersion).2.2 ++ _))
      rw [result]
      refine sound.ledger.trans ?_
      have logs := off.flatMap_right descTaskWaitingRpcCount
      rw [List.flatMap_cons] at logs
      refine (logs.append_right _).trans ?_
      rw [List.append_assoc]
      exact List.perm_append_comm_assoc _ _ _
    · intro now other otherMember
      exact sound.unexpired now other (List.mem_of_mem_filter otherMember)
  · have absent : ∀ other ∈ s.pending, other.dataVersion ≠ dataVersion :=
      fun other member same => pending ⟨other, member, same⟩
    have result := sound.ring.remove_of_absent
      (fun entry member => absent entry (sound.held.mem_iff.mp member)) regular
    have same : s.next networkTimeout (.remove dataVersion) = s := by
      unfold next
      dsimp only
      rw [result, FSReplicaRPCResultInstance.filter_eq_self_of_apart absent]
      rfl
    rw [same]
    exact sound

/-- What a clear of the timeouts leaves, when it looks. -/
theorem Sound.clear_looks (sound : s.Sound networkTimeout)
    (looks : s.lastCheckTimeoutTime ≠ s.currentTime) :
    ∃ taken, s.pending.Perm (taken ++ s.clearTimeouts.1.held) ∧
      s.clearTimeouts.2 = taken.flatMap descTaskWaitingRpcCount ∧
      (∀ entry ∈ taken, entry.expires < s.currentTime) ∧
      s.clearTimeouts.1.Sound (s.currentTime + networkTimeout) ∧
      (∀ entry ∈ s.clearTimeouts.1.occupied, s.currentTime ≤ entry.expires) ∧
      s.clearTimeouts.1.queue =
        s.ring.queue.dropWhile fun entry => entry.expires < s.currentTime := by
  obtain ⟨taken, held, rest⟩ := sound.ring.clearTimeouts s.currentTime
  have result : s.clearTimeouts = s.ring.rpcResultInstanceClearTimeouts s.currentTime :=
    if_neg looks
  rw [result]
  exact ⟨taken, sound.held.symm.trans held, rest⟩

theorem Sound.clearTimeouts (sound : s.Sound networkTimeout) (regular : s.Regular .clearTimeouts) :
    (s.next networkTimeout .clearTimeouts).Sound networkTimeout := by
  have unexpired : ∀ entry ∈ s.pending.filter fun entry => s.currentTime ≤ entry.expires,
      s.currentTime ≤ entry.expires := by
    intro entry member
    simpa using List.of_mem_filter member
  by_cases same : s.lastCheckTimeoutTime = s.currentTime
  · have all : s.pending.filter (fun entry => s.currentTime ≤ entry.expires) = s.pending := by
      rw [List.filter_eq_self]
      intro entry member
      exact decide_eq_true (sound.unexpired same entry member)
    have result : s.clearTimeouts = (s.ring, []) := if_pos same
    refine ⟨?_, ?_, ?_, sound.distinct, le_rfl, fun _ => unexpired⟩
    · show s.clearTimeouts.1.Sound _
      rw [result]
      exact sound.ring
    · show s.clearTimeouts.1.held.Perm (s.pending.filter _)
      rw [result, all]
      exact sound.held
    · show s.added.Perm ((s.pending.filter _).flatMap _ ++ (s.clearTimeouts.2 ++ s.decremented))
      rw [result, all]
      exact sound.ledger
  · obtain ⟨taken, held, log, expired, ring, ringLeft, queueLeft⟩ := sound.clear_looks same
    have left : ∀ entry ∈ s.clearTimeouts.1.held, s.currentTime ≤ entry.expires := by
      intro entry member
      rcases List.mem_append.mp member with inRing | inQueue
      · exact ringLeft entry inRing
      · rw [queueLeft] at inQueue
        exact regular same entry inQueue
    have remaining : (s.pending.filter fun entry => s.currentTime ≤ entry.expires).Perm
        s.clearTimeouts.1.held := by
      have filtered := held.filter fun entry => decide (s.currentTime ≤ entry.expires)
      have gone : taken.filter (fun entry => s.currentTime ≤ entry.expires) = [] := by
        rw [List.filter_eq_nil_iff]
        intro entry member
        simpa using expired entry member
      have stays : s.clearTimeouts.1.held.filter (fun entry => s.currentTime ≤ entry.expires) =
          s.clearTimeouts.1.held := by
        rw [List.filter_eq_self]
        intro entry member
        exact decide_eq_true (left entry member)
      rwa [List.filter_append, gone, stays, List.nil_append] at filtered
    refine ⟨ring, remaining.symm, ?_, sound.distinct, le_rfl, fun _ => unexpired⟩
    show s.added.Perm ((s.pending.filter _).flatMap _ ++ (s.clearTimeouts.2 ++ s.decremented))
    have logs := held.flatMap_right descTaskWaitingRpcCount
    rw [List.flatMap_append, ← log] at logs
    refine sound.ledger.trans ((logs.append_right s.decremented).trans ?_)
    rw [List.append_assoc]
    refine (List.perm_append_comm_assoc _ _ _).trans ?_
    exact (remaining.symm.flatMap_right descTaskWaitingRpcCount).append_right _

theorem Sound.clearAll (sound : s.Sound networkTimeout) :
    (s.next networkTimeout .clearAll).Sound networkTimeout := by
  obtain ⟨held, log, ring⟩ := sound.ring.clearAll
  refine ⟨ring, List.Perm.of_eq held, ?_, sound.distinct, sound.checked, nofun⟩
  show s.added.Perm ([] ++ (s.ring.rpcResultInstanceClearAll.2 ++ s.decremented))
  rw [log, List.nil_append]
  exact sound.ledger.trans
    ((sound.held.symm.flatMap_right descTaskWaitingRpcCount).append_right s.decremented)

theorem Sound.tick (sound : s.Sound networkTimeout) (seconds : Nat) :
    (s.next networkTimeout (.tick seconds)).Sound networkTimeout := by
  have checked := sound.checked
  refine ⟨sound.ring.mono ?_, sound.held, sound.ledger, sound.distinct, ?_, ?_⟩
  · show s.currentTime + networkTimeout ≤ s.currentTime + seconds + networkTimeout
    omega
  · exact checked.trans (Nat.le_add_right _ _)
  · intro now entry member
    -- the clock that was looked at last is the present one, so it has not moved
    change s.lastCheckTimeoutTime = s.currentTime + seconds at now
    have still : seconds = 0 := by omega
    show s.currentTime + seconds ≤ entry.expires
    rw [still] at now ⊢
    exact sound.unexpired now entry member

/-- The run lemma. -/
theorem sound_of_reachable {allocSize : Nat} (large : 2 ≤ allocSize)
    (reached : Reachable ((Step networkTimeout).guarded Regular) (Init allocSize) s) :
    s.Sound networkTimeout := by
  refine reached.invariant (fun s init => sound_of_init large init) ?_
  rintro s action _ sound ⟨regular, enabled, rfl⟩
  cases action with
  | add dataVersion task => exact sound.add enabled
  | remove dataVersion => exact sound.remove regular
  | clearTimeouts => exact sound.clearTimeouts regular
  | clearAll => exact sound.clearAll
  | tick seconds => exact sound.tick seconds

theorem Sound.exact (sound : s.Sound networkTimeout) : s.PendingExact :=
  ⟨sound.held, sound.ring.once, sound.ring.queue.ascending, sound.ring.queue.tail, sound.ledger⟩

/-- A data version that marks an empty slot of the ring is taken for an answer. -/
theorem Sound.removeExact_iff (sound : s.Sound networkTimeout) (dataVersion : Nat) :
    s.RemoveExact dataVersion ↔ s.Regular (.remove dataVersion) := by
  constructor
  · intro exactly
    by_contra irregular
    obtain ⟨zero, apart, empty⟩ : dataVersion = 0 ∧ s.ring.stop ≠ s.ring.start ∧
        (s.ring.entries 0).dataVersion = 0 := by
      simpa [Regular] using irregular
    subst zero
    have taken : (s.ring.rpcResultRingRemove 0).1 = .ok := by
      unfold FSReplicaRPCResultInstance.rpcResultRingRemove
      rw [if_pos (by rw [Nat.zero_mod]; exact ⟨apart, empty⟩)]
    obtain ⟨entry, member, isZero⟩ := exactly.1.mp taken
    exact sound.ring.positive entry (sound.held.mem_iff.mpr member) isZero
  · intro regular
    by_cases pending : ∃ entry ∈ s.pending, entry.dataVersion = dataVersion
    · obtain ⟨entry, member, rfl⟩ := pending
      obtain ⟨after, result, -⟩ := sound.ring.remove_of_mem (sound.held.mem_iff.mpr member)
      refine ⟨?_, ?_⟩
      · rw [result]
        exact ⟨fun _ => ⟨entry, member, rfl⟩, fun _ => rfl⟩
      · rw [result]
        exact fun refused => absurd rfl refused
    · have absent : ∀ entry ∈ s.ring.held, entry.dataVersion ≠ dataVersion :=
        fun entry member same => pending ⟨entry, sound.held.mem_iff.mp member, same⟩
      have result := sound.ring.remove_of_absent absent regular
      refine ⟨?_, ?_⟩
      · rw [result]
        exact ⟨fun accepted => absurd accepted nofun, fun held => absurd held pending⟩
      · rw [result]
        exact fun _ => rfl

/-- An expired update behind one that has not expired stays in the queue. -/
theorem Sound.clearExact_iff (sound : s.Sound networkTimeout) :
    (s.next networkTimeout .clearTimeouts).PendingExact ↔ s.Regular .clearTimeouts := by
  constructor
  · intro exactly looks entry member
    obtain ⟨taken, -, -, -, -, -, queueLeft⟩ := sound.clear_looks looks
    rw [← queueLeft] at member
    have kept : entry ∈ s.pending.filter fun entry => s.currentTime ≤ entry.expires :=
      exactly.held.mem_iff.mp (List.mem_append_right _ member)
    simpa using List.of_mem_filter kept
  · intro regular
    exact (sound.clearTimeouts regular).exact

end RpcResultState

open RpcResultState in
/-- In every run whose steps are regular the ring is an exact pending set; and in every state
of such a run the two conditions are needed. -/
theorem rpc_result_ring_exact {networkTimeout allocSize : Nat} (large : 2 ≤ allocSize)
    {s : RpcResultState}
    (reached : Reachable ((Step networkTimeout).guarded Regular) (Init allocSize) s) :
    s.PendingExact ∧ (∀ dataVersion, s.RemoveExact dataVersion ↔ s.Regular (.remove dataVersion)) ∧
      ((s.next networkTimeout .clearTimeouts).PendingExact ↔ s.Regular .clearTimeouts) := by
  have sound := sound_of_reachable large reached
  exact ⟨sound.exact, sound.removeExact_iff, sound.clearExact_iff⟩

/-- Updates out of order, an answer inside the ring and one from the queue, and a timeout. -/
def rpcResultActions : List RpcResultAction :=
  [.add 5 1, .add 6 2, .add 9 3, .add 8 4, .remove 6, .add 7 5, .remove 8, .tick 31, .clearTimeouts]

open RpcResultState in
theorem rpc_result_ring_exact_out_of_order :
    (rpcResultActions.foldl (next 30) ⟨initRpcResultInstance 4, 100, 0, [], [], []⟩).PendingExact := by
  have start : Reachable ((Step 30).guarded Regular) (Init 4)
      ⟨initRpcResultInstance 4, 100, 0, [], [], []⟩ := .start ⟨100, rfl⟩
  exact (rpc_result_ring_exact (by decide)
    (start.followMeeting rpcResultActions (by decide +kernel))).1

open RpcResultState in
/-- Update 10 expires first and stays behind update 5; and in a ring that has one update in
slot 1 an answer for data version 0 is taken. -/
theorem rpc_result_ring_inexact :
    (¬ ∀ s, Reachable (Step 30) (Init 2) s → s.PendingExact) ∧
      ¬ ∀ s, Reachable (Step 30) (Init 2) s → ∀ dataVersion, s.RemoveExact dataVersion := by
  have start : Reachable (Step 30) (Init 2) ⟨initRpcResultInstance 2, 0, 0, [], [], []⟩ :=
    .start ⟨0, rfl⟩
  constructor
  · intro exactly
    have reached := start.follow
      [.add 1 1, .add 10 2, .tick 20, .add 5 3, .tick 20, .clearTimeouts] (by decide +kernel)
    exact absurd (exactly _ reached).held.length_eq (by decide +kernel)
  · intro exactly
    have reached := start.follow [.add 1 1] (by decide +kernel)
    have found := (exactly _ reached 0).1.mp (by decide +kernel)
    exact absurd found (by decide +kernel)

end FastStore.Replication
