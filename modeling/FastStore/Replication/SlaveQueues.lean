import FastStore.Cluster.Types
import FastStore.Util.System

/-!
# Pushing an update to the slaves

`push_to_slave_queues` raises two counters for all slaves of the group, pushes the entry to
the queue of each slave that it finds ready, and lowers the counters for the others at the
end.  The threads of the slaves take the entry from their queues meanwhile: one sends it and
counts it off when the answer comes, the wait times out or the connection breaks; or it
discards the entry unsent.  Each step below is one atomic operation of the source; what is
written to the log and reported on the way does not touch the counters.
-/

namespace FastStore.Replication

open FastStore.Util FastStore.Cluster

/-- What `push_to_slave_queues` returns. -/
inductive PushResult where
  /-- Zero: nobody will notify the data thread. -/
  | finished
  | taskStatusContinue
  deriving DecidableEq, Repr

/-- How far the data thread is in `replication_caller_push_to_slave_queues`. -/
inductive PushPoint where
  | call
  /-- The entry is allocated; `reffer_count` is to be raised. -/
  | allocated
  /-- `waiting_rpc_count` is to be raised. -/
  | referred
  /-- The loop is at the slave `index`. -/
  | visiting (index inactiveCount : Nat)
  /-- `waiting_rpc_count` is to be lowered. -/
  | lowering (inactiveCount : Nat)
  /-- `reffer_count` is to be lowered. -/
  | releasing (inactiveCount : Nat) (result : PushResult)
  | returned (result : PushResult)
  deriving DecidableEq, Repr

/-- The data thread is at a visit of one of the slaves. -/
def PushPoint.Visits (count : Nat) : PushPoint → Prop
  | .visiting index _ => index < count
  | _ => False

/-- The data thread has a step to make that is not a visit. -/
def PushPoint.Steps (count : Nat) : PushPoint → Prop
  | .visiting index _ => count ≤ index
  | .returned _ => False
  | _ => True

instance (count : Nat) (point : PushPoint) : Decidable (point.Visits count) := by
  cases point <;> unfold PushPoint.Visits <;> infer_instance

instance (count : Nat) (point : PushPoint) : Decidable (point.Steps count) := by
  cases point <;> unfold PushPoint.Steps <;> infer_instance

/-- Where the entry is for one slave. -/
inductive SlavePoint where
  | unvisited
  /-- The slave was not ready. -/
  | inactive
  | queued
  /-- The entry is in the result ring, and its reference is to be released. -/
  | added
  /-- The answer is awaited. -/
  | sent
  /-- `discard_queue` has counted the entry off, and is to release it. -/
  | discarded
  | done
  deriving DecidableEq, Repr

/-- One update and the slaves of its group. -/
structure RpcEntryState where
  pusher : PushPoint
  slaves : List SlavePoint
  waitingRpcCount : Int
  refferCount : Int
  /-- How often the entry has been allocated, freed, and its data thread notified. -/
  allocated : Nat
  freed : Nat
  notified : Nat
  deriving DecidableEq, Repr

inductive RpcEntryAction where
  /-- The next step of the data thread. -/
  | push
  /-- The data thread finds the slave in this status, and its channel ready or not. -/
  | visit (status : FSDataServerStatus) (ready : Bool)
  /-- `rpc_result_ring_add` for the entry. -/
  | add (slave : Nat)
  /-- `replication_caller_release_rpc_entry`. -/
  | release (slave : Nat)
  /-- `desc_task_waiting_rpc_count`: the entry leaves the result ring. -/
  | answer (slave : Nat)
  /-- `decrease_task_waiting_rpc_count` in `discard_queue`. -/
  | discard (slave : Nat)
  deriving DecidableEq, Repr

/-- Where the entry is after the visit. -/
def SlavePoint.visited (status : FSDataServerStatus) (ready : Bool) : SlavePoint :=
  if (status = .online ∨ status = .active) ∧ ready = true then .queued else .inactive

/-- `added` and `discarded` are the two places from which the reference is released. -/
def SlavePoint.released : SlavePoint → SlavePoint
  | .added => .sent
  | _ => .done

namespace RpcEntryState

variable (s : RpcEntryState)

/-- Lower `waiting_rpc_count` by one, and notify the data thread when it is zero then. -/
def decreaseTaskWaitingRpcCount : RpcEntryState :=
  { s with
    waitingRpcCount := s.waitingRpcCount - 1
    notified := if s.waitingRpcCount - 1 = 0 then s.notified + 1 else s.notified }

/-- Lower `reffer_count`, and free the entry when it is zero then. -/
def releaseRpcEntry (count : Nat) : RpcEntryState :=
  { s with
    refferCount := s.refferCount - count
    freed := if s.refferCount - count = 0 then s.freed + 1 else s.freed }

def setSlave (slave : Nat) (point : SlavePoint) : RpcEntryState :=
  { s with slaves := s.slaves.set slave point }

/-- The steps of the data thread between the visits. -/
def pushStep : RpcEntryState :=
  match s.pusher with
  | .call =>
      if s.slaves.length = 0 then { s with pusher := .returned .finished }
      else
        { s with
          pusher := .allocated
          allocated := s.allocated + 1 }
  | .allocated =>
      { s with
        pusher := .referred
        refferCount := s.refferCount + s.slaves.length }
  | .referred =>
      { s with
        pusher := .visiting 0 0
        waitingRpcCount := s.waitingRpcCount + s.slaves.length }
  | .visiting _ inactiveCount =>
      { s with
        pusher := if 0 < inactiveCount then .lowering inactiveCount
          else .returned .taskStatusContinue }
  | .lowering inactiveCount =>
      { s with
        pusher := .releasing inactiveCount
          (if s.waitingRpcCount - inactiveCount = 0 then .finished else .taskStatusContinue)
        waitingRpcCount := s.waitingRpcCount - inactiveCount }
  | .releasing inactiveCount result =>
      { s.releaseRpcEntry inactiveCount with pusher := .returned result }
  | .returned _ => s

def visit (status : FSDataServerStatus) (ready : Bool) : RpcEntryState :=
  match s.pusher with
  | .visiting index inactiveCount =>
      { s.setSlave index (.visited status ready) with
        pusher := .visiting (index + 1)
          (if SlavePoint.visited status ready = .inactive then inactiveCount + 1
            else inactiveCount) }
  | _ => s

def Enabled : RpcEntryAction → Prop
  | .push => s.pusher.Steps s.slaves.length
  | .visit _ _ => s.pusher.Visits s.slaves.length
  | .add slave => s.slaves[slave]? = some .queued
  | .release slave => s.slaves[slave]? = some .added ∨ s.slaves[slave]? = some .discarded
  | .answer slave => s.slaves[slave]? = some .sent
  | .discard slave => s.slaves[slave]? = some .queued

instance (action : RpcEntryAction) : Decidable (s.Enabled action) := by
  cases action <;> unfold Enabled <;> infer_instance

def next : RpcEntryAction → RpcEntryState
  | .push => s.pushStep
  | .visit status ready => s.visit status ready
  | .add slave => s.setSlave slave .added
  | .release slave =>
      (s.releaseRpcEntry 1).setSlave slave ((s.slaves.getD slave .done).released)
  | .answer slave => s.decreaseTaskWaitingRpcCount.setSlave slave .done
  | .discard slave => s.decreaseTaskWaitingRpcCount.setSlave slave .discarded

end RpcEntryState

/-- An update of a group with any slaves, before the push. -/
def RpcEntryInit (s : RpcEntryState) : Prop :=
  ∃ slaves : List SlavePoint, (∀ point ∈ slaves, point = .unvisited) ∧
    s = ⟨.call, slaves, 0, 0, 0, 0, 0⟩

/-- The data thread and the threads of the slaves, in any order. -/
def RpcEntryStep : StepRel RpcEntryState RpcEntryAction :=
  StepRel.ofNext RpcEntryState.Enabled RpcEntryState.next

/-! ## What each slave has of the counters -/

/-- The sum of what the slaves have of a counter. -/
def total (share : SlavePoint → Nat) (slaves : List SlavePoint) : Nat :=
  (slaves.map share).sum

section Total

variable {share : SlavePoint → Nat} {slaves : List SlavePoint} {slave : Nat}
  {old new : SlavePoint}

/-- One slave moves on. -/
theorem total_set (found : slaves[slave]? = some old) :
    total share (slaves.set slave new) + share old = total share slaves + share new := by
  induction slaves generalizing slave with
  | nil => cases found
  | cons head rest ih =>
      cases slave with
      | zero =>
          cases found
          simp only [total, List.set_cons_zero, List.map_cons, List.sum_cons]
          omega
      | succ slave =>
          have tail := ih found
          simp only [total, List.set_cons_succ, List.map_cons, List.sum_cons] at tail ⊢
          omega

theorem share_le_total (found : slaves[slave]? = some old) : share old ≤ total share slaves :=
  List.le_sum_of_mem (List.mem_map_of_mem (List.mem_of_getElem? found))

theorem total_congr {other : SlavePoint → Nat} (same : ∀ point ∈ slaves, share point = other point) :
    total share slaves = total other slaves := by
  unfold total
  rw [List.map_congr_left same]

theorem total_add (first second : SlavePoint → Nat) (slaves : List SlavePoint) :
    total (fun point => first point + second point) slaves =
      total first slaves + total second slaves :=
  List.sum_map_add

theorem total_const (count : Nat) (same : ∀ point ∈ slaves, share point = count) :
    total share slaves = slaves.length * count := by
  rw [total_congr same, total, List.map_const', List.sum_replicate, smul_eq_mul]

theorem total_eq_zero (none : ∀ point ∈ slaves, share point = 0) : total share slaves = 0 := by
  rw [total_const 0 none, Nat.mul_zero]

end Total

/-- The slave has still to be counted off. -/
def SlavePoint.waits : SlavePoint → Nat
  | .unvisited | .queued | .added | .sent => 1
  | .inactive | .discarded | .done => 0

/-- The slave has still to release the entry. -/
def SlavePoint.refers : SlavePoint → Nat
  | .unvisited | .queued | .added | .discarded => 1
  | .inactive | .sent | .done => 0

/-- The data thread counts the slave off at the end. -/
def SlavePoint.counts : SlavePoint → Nat
  | .inactive => 1
  | _ => 0

namespace PushPoint

/-- What a slave has of `waiting_rpc_count`. -/
def waitShare : PushPoint → SlavePoint → Nat
  | .call, _ | .allocated, _ | .referred, _ => 0
  | .visiting _ _, point | .lowering _, point => point.waits + point.counts
  | .releasing _ _, point | .returned _, point => point.waits

/-- What a slave has of `reffer_count`. -/
def refferShare : PushPoint → SlavePoint → Nat
  | .call, _ | .allocated, _ => 0
  | .referred, point | .visiting _ _, point | .lowering _, point
  | .releasing _ _, point => point.refers + point.counts
  | .returned _, point => point.refers

/-- The first slave that is not visited yet. -/
def nextSlave (count : Nat) : PushPoint → Nat
  | .call | .allocated | .referred => 0
  | .visiting index _ => index
  | .lowering _ | .releasing _ _ | .returned _ => count

/-- The counters have been raised. -/
def Raised : PushPoint → Prop
  | .call | .allocated | .referred => False
  | _ => True

/-- The entry has been referred to. -/
def Referred : PushPoint → Prop
  | .call | .allocated => False
  | _ => True

/-- It is a slave that takes `waiting_rpc_count` to zero. -/
def Notifies : PushPoint → Prop
  | .visiting _ _ | .lowering _ => True
  | .releasing _ result | .returned result => result = .taskStatusContinue
  | _ => False

/-- The inactive slaves that are to be counted off are those that were visited. -/
def InactiveCounted (slaves : List SlavePoint) : PushPoint → Prop
  | .visiting _ inactiveCount => inactiveCount = total SlavePoint.counts slaves
  | .lowering inactiveCount | .releasing inactiveCount _ =>
      inactiveCount = total SlavePoint.counts slaves ∧ 0 < inactiveCount
  | _ => True

instance (point : PushPoint) : Decidable point.Referred := by
  cases point <;> unfold Referred <;> infer_instance

instance (point : PushPoint) : Decidable point.Notifies := by
  cases point <;> unfold Notifies <;> infer_instance

variable {point : PushPoint} {slave : SlavePoint}

theorem waitShare_of_raised (raised : point.Raised) (active : slave.counts = 0) :
    point.waitShare slave = slave.waits := by
  cases point with
  | call | allocated | referred => exact absurd raised nofun
  | visiting | lowering => rw [waitShare, active, Nat.add_zero]
  | releasing | returned => rfl

theorem refferShare_of_raised (raised : point.Raised) (active : slave.counts = 0) :
    point.refferShare slave = slave.refers := by
  cases point with
  | call | allocated | referred => exact absurd raised nofun
  | visiting | lowering | releasing => rw [refferShare, active, Nat.add_zero]
  | returned => rfl

end PushPoint

namespace RpcEntryState

/-- Each counter is the sum of what the slaves have of it; it has been taken to zero once when
it is zero. -/
structure Sound (s : RpcEntryState) : Prop where
  waiting : s.waitingRpcCount = total s.pusher.waitShare s.slaves
  reffer : s.refferCount = total s.pusher.refferShare s.slaves
  notified : s.notified = if s.waitingRpcCount = 0 ∧ s.pusher.Notifies then 1 else 0
  freed : s.freed = if s.refferCount = 0 ∧ s.pusher.Referred then s.allocated else 0
  finished : s.pusher.Raised → ¬ s.pusher.Notifies → s.waitingRpcCount = 0
  inactive : s.pusher.InactiveCounted s.slaves
  visited : ∀ slave point, s.slaves[slave]? = some point →
    (point = .unvisited ↔ s.pusher.nextSlave s.slaves.length ≤ slave)
  allocated : s.allocated = if s.pusher = .call ∨ s.slaves = [] then 0 else 1
  nonempty : s.slaves = [] → s.pusher = .call ∨ s.pusher = .returned .finished

variable {s : RpcEntryState}

theorem sound_of_init (init : RpcEntryInit s) : s.Sound := by
  obtain ⟨slaves, unvisited, rfl⟩ := init
  have waiting : total (PushPoint.waitShare .call) slaves = 0 := total_eq_zero fun _ _ => rfl
  have reffer : total (PushPoint.refferShare .call) slaves = 0 := total_eq_zero fun _ _ => rfl
  refine ⟨?_, ?_, rfl, rfl, nofun, trivial, ?_, rfl, fun _ => Or.inl rfl⟩
  · show 0 = (total (PushPoint.waitShare .call) slaves : Int)
    rw [waiting]
    rfl
  · show 0 = (total (PushPoint.refferShare .call) slaves : Int)
    rw [reffer]
    rfl
  · intro slave point found
    exact ⟨fun _ => Nat.zero_le _, fun _ => unvisited point (List.mem_of_getElem? found)⟩

theorem Sound.allocated_once (sound : s.Sound) (called : s.pusher ≠ .call) (some : s.slaves ≠ []) :
    s.allocated = 1 := by
  rw [sound.allocated, if_neg]
  rintro (isCall | empty)
  · exact called isCall
  · exact some empty

theorem allocated_of_once (once : s.allocated = 1) (called : s.pusher ≠ .call)
    (some : s.slaves ≠ []) : s.allocated = if s.pusher = .call ∨ s.slaves = [] then 0 else 1 := by
  rw [once, if_neg]
  rintro (isCall | empty)
  · exact called isCall
  · exact some empty

/-! ## The threads of the slaves -/

/-- A slave that has been visited is one for which the counters have been raised. -/
theorem Sound.raised (sound : s.Sound) {slave : Nat} {point : SlavePoint}
    (found : s.slaves[slave]? = some point) (visited : point ≠ .unvisited) : s.pusher.Raised := by
  have before := mt (sound.visited slave point found).mpr visited
  unfold PushPoint.nextSlave at before
  unfold PushPoint.Raised
  cases pusher : s.pusher with
  | call | allocated | referred =>
      rw [pusher] at before
      exact absurd (Nat.zero_le slave) before
  | visiting | lowering | releasing | returned => trivial

/-- A slave moves on: the data thread stays where it is, and the counters and what follows
from them are as the move requires. -/
theorem Sound.move (sound : s.Sound) {slave : Nat} {old new : SlavePoint}
    (found : s.slaves[slave]? = some old) (oldVisited : old ≠ .unvisited)
    (newVisited : new ≠ .unvisited) (oldActive : old.counts = 0) (newActive : new.counts = 0)
    {after : RpcEntryState} (pusher : after.pusher = s.pusher)
    (slaves : after.slaves = s.slaves.set slave new) (allocated : after.allocated = s.allocated)
    (waiting : after.waitingRpcCount + old.waits = s.waitingRpcCount + new.waits)
    (reffer : after.refferCount + old.refers = s.refferCount + new.refers)
    (notified : after.notified = if after.waitingRpcCount = 0 ∧ s.pusher.Notifies then 1 else 0)
    (freed : after.freed = if after.refferCount = 0 ∧ s.pusher.Referred then s.allocated else 0)
    (finished : ¬ s.pusher.Notifies → after.waitingRpcCount = 0) : after.Sound := by
  have raised := sound.raised found oldVisited
  have some : s.slaves ≠ [] := by
    intro empty
    rw [empty] at found
    cases found
  have waits := @total_set s.pusher.waitShare s.slaves slave old new found
  rw [PushPoint.waitShare_of_raised raised oldActive,
    PushPoint.waitShare_of_raised raised newActive] at waits
  have refers := @total_set s.pusher.refferShare s.slaves slave old new found
  rw [PushPoint.refferShare_of_raised raised oldActive,
    PushPoint.refferShare_of_raised raised newActive] at refers
  have counts := @total_set SlavePoint.counts s.slaves slave old new found
  rw [oldActive, newActive, Nat.add_zero, Nat.add_zero] at counts
  have soundWaiting := sound.waiting
  have soundReffer := sound.reffer
  constructor
  · rw [pusher, slaves]
    omega
  · rw [pusher, slaves]
    omega
  · rw [pusher]
    exact notified
  · rw [pusher, allocated]
    exact freed
  · rw [pusher]
    exact fun _ => finished
  · have inactive := sound.inactive
    rw [pusher, slaves]
    unfold PushPoint.InactiveCounted at inactive ⊢
    rw [counts]
    exact inactive
  · intro other point otherFound
    rw [slaves] at otherFound
    rw [pusher, slaves, List.length_set]
    by_cases same : slave = other
    · subst same
      have inside := (List.getElem?_eq_some_iff.mp found).1
      rw [List.getElem?_set_self inside] at otherFound
      cases otherFound
      exact ⟨fun isNew => absurd isNew newVisited,
        fun le => absurd ((sound.visited slave old found).mpr le) oldVisited⟩
    · rw [List.getElem?_set_ne same] at otherFound
      exact sound.visited other point otherFound
  · rw [allocated, sound.allocated, pusher, slaves]
    simp [some]
  · intro empty
    rw [slaves] at empty
    exact absurd ((List.set_eq_nil_iff _ _).mp empty) some

theorem Sound.add (sound : s.Sound) {slave : Nat} (enabled : s.Enabled (.add slave)) :
    (s.next (.add slave)).Sound :=
  @Sound.move s sound slave .queued .added enabled nofun nofun rfl rfl _ rfl rfl rfl rfl rfl
    sound.notified sound.freed (sound.finished (sound.raised enabled nofun))

/-- A slave that waits is one of those that `waiting_rpc_count` counts. -/
theorem Sound.waiting_pos (sound : s.Sound) {slave : Nat} {point : SlavePoint}
    (found : s.slaves[slave]? = some point) (visited : point ≠ .unvisited)
    (active : point.counts = 0) (waits : point.waits = 1) : 0 < s.waitingRpcCount := by
  have share := @share_le_total s.pusher.waitShare s.slaves slave point found
  rw [PushPoint.waitShare_of_raised (sound.raised found visited) active, waits] at share
  rw [sound.waiting]
  omega

theorem Sound.reffer_pos (sound : s.Sound) {slave : Nat} {point : SlavePoint}
    (found : s.slaves[slave]? = some point) (visited : point ≠ .unvisited)
    (active : point.counts = 0) (refers : point.refers = 1) : 0 < s.refferCount := by
  have share := @share_le_total s.pusher.refferShare s.slaves slave point found
  rw [PushPoint.refferShare_of_raised (sound.raised found visited) active, refers] at share
  rw [sound.reffer]
  omega

/-- A slave counts the update off; the last one notifies the data thread. -/
theorem Sound.countOff (sound : s.Sound) {slave : Nat} {old new : SlavePoint}
    (found : s.slaves[slave]? = some old) (oldVisited : old ≠ .unvisited)
    (newVisited : new ≠ .unvisited) (oldActive : old.counts = 0) (newActive : new.counts = 0)
    (oldWaits : old.waits = 1) (newWaits : new.waits = 0) (refers : old.refers = new.refers) :
    (s.decreaseTaskWaitingRpcCount.setSlave slave new).Sound := by
  have positive := sound.waiting_pos found oldVisited oldActive oldWaits
  have notifies : s.pusher.Notifies := by
    by_contra finishes
    have zero := sound.finished (sound.raised found oldVisited) finishes
    omega
  have before : s.notified = 0 := by
    rw [sound.notified, if_neg fun both => by omega]
  refine sound.move found oldVisited newVisited oldActive newActive rfl rfl rfl ?_ ?_ ?_ sound.freed
    fun finishes => absurd notifies finishes
  · show s.waitingRpcCount - 1 + old.waits = s.waitingRpcCount + new.waits
    rw [oldWaits, newWaits]
    omega
  · rw [refers]
    rfl
  · show (if s.waitingRpcCount - 1 = 0 then s.notified + 1 else s.notified) =
      if s.waitingRpcCount - 1 = 0 ∧ s.pusher.Notifies then 1 else 0
    rw [before]
    simp only [notifies, and_true]

/-- A slave releases the entry; the last one frees it. -/
theorem Sound.release (sound : s.Sound) {slave : Nat} (enabled : s.Enabled (.release slave)) :
    (s.next (.release slave)).Sound := by
  obtain ⟨old, found, oldVisited, oldActive, refers, newRefers, waits, newVisited, newActive⟩ :
      ∃ old, s.slaves[slave]? = some old ∧ old ≠ .unvisited ∧ old.counts = 0 ∧ old.refers = 1 ∧
        old.released.refers = 0 ∧ old.released.waits = old.waits ∧ old.released ≠ .unvisited ∧
        old.released.counts = 0 := by
    rcases enabled with added | discarded
    · exact ⟨.added, added, by decide⟩
    · exact ⟨.discarded, discarded, by decide⟩
  have positive := sound.reffer_pos found oldVisited oldActive refers
  have raised := sound.raised found oldVisited
  have referred : s.pusher.Referred := by
    cases pusher : s.pusher with
    | call | allocated | referred => rw [pusher] at raised; exact absurd raised nofun
    | visiting | lowering | releasing | returned => trivial
  have before : s.freed = 0 := by
    rw [sound.freed, if_neg fun both => by omega]
  have one : s.allocated = 1 := by
    refine sound.allocated_once (fun isCall => ?_) fun empty => ?_
    · rw [isCall] at raised
      exact raised
    · rw [empty] at found
      cases found
  have target : s.slaves.getD slave .done = old := by
    rw [List.getD_eq_getElem?_getD, found]
    rfl
  show ((s.releaseRpcEntry 1).setSlave slave ((s.slaves.getD slave .done).released)).Sound
  rw [target]
  refine sound.move found oldVisited newVisited oldActive newActive rfl rfl rfl ?_ ?_ sound.notified
    ?_ (sound.finished raised)
  · rw [waits]
    rfl
  · show s.refferCount - (1 : Nat) + old.refers = s.refferCount + old.released.refers
    rw [refers, newRefers]
    omega
  · show (if s.refferCount - (1 : Nat) = 0 then s.freed + 1 else s.freed) =
      if s.refferCount - (1 : Nat) = 0 ∧ s.pusher.Referred then s.allocated else 0
    rw [before, one]
    simp only [referred, and_true]

/-! ## The data thread -/

/-- Before the loop every slave has one of a counter that has been raised. -/
theorem Sound.total_unvisited (sound : s.Sound) (start : s.pusher.nextSlave s.slaves.length = 0)
    {share : SlavePoint → Nat} {count : Nat} (one : share .unvisited = count) :
    total share s.slaves = s.slaves.length * count := by
  refine total_const count ?_
  intro point member
  obtain ⟨slave, found⟩ := List.mem_iff_getElem?.mp member
  rw [(sound.visited slave point found).mpr (start ▸ Nat.zero_le _)]
  exact one

theorem Sound.push_call (sound : s.Sound) (pusher : s.pusher = .call) : s.pushStep.Sound := by
  obtain ⟨point, slaves, waitingRpcCount, refferCount, allocated, freed, notified⟩ := s
  obtain rfl : point = .call := pusher
  have none : allocated = 0 := sound.allocated
  have waiting : waitingRpcCount = 0 := by
    have shares := sound.waiting
    rwa [sound.total_unvisited rfl rfl] at shares
  have reffer : refferCount = 0 := by
    have shares := sound.reffer
    rwa [sound.total_unvisited rfl rfl] at shares
  have notNotified : notified = 0 := by
    have notified := sound.notified
    simpa [PushPoint.Notifies] using notified
  have notFreed : freed = 0 := by
    have freed := sound.freed
    simpa [PushPoint.Referred] using freed
  subst none waiting reffer notNotified notFreed
  unfold pushStep
  by_cases empty : slaves.length = 0
  · obtain rfl : slaves = [] := List.length_eq_zero_iff.mp empty
    exact ⟨rfl, rfl, rfl, rfl, fun _ _ => rfl, trivial, nofun, rfl, fun _ => Or.inr rfl⟩
  · have some : slaves ≠ [] := fun nil => empty (nil ▸ rfl)
    simp only [if_neg empty]
    refine ⟨sound.waiting, sound.reffer, rfl, rfl, nofun, trivial, sound.visited, ?_,
      fun nil => absurd nil some⟩
    simp [some]

/-- Once the entry is allocated there are slaves. -/
theorem Sound.some_slaves (sound : s.Sound) (called : s.pusher ≠ .call)
    (unfinished : s.pusher ≠ .returned .finished) : s.slaves ≠ [] := by
  intro empty
  rcases sound.nonempty empty with isCall | isReturned
  · exact called isCall
  · exact unfinished isReturned

theorem Sound.push_allocated (sound : s.Sound) (pusher : s.pusher = .allocated) :
    s.pushStep.Sound := by
  obtain ⟨point, slaves, waitingRpcCount, refferCount, allocated, freed, notified⟩ := s
  obtain rfl : point = .allocated := pusher
  have some : slaves ≠ [] := sound.some_slaves nofun nofun
  have reffer : refferCount = 0 := by
    have shares := sound.reffer
    rwa [sound.total_unvisited rfl rfl] at shares
  have notFreed : freed = 0 := by
    have freed := sound.freed
    simpa [PushPoint.Referred] using freed
  have all : total (PushPoint.refferShare .referred) slaves = slaves.length * 1 :=
    sound.total_unvisited rfl rfl
  have positive : slaves.length ≠ 0 := fun zero => some (List.length_eq_zero_iff.mp zero)
  subst reffer notFreed
  refine ⟨sound.waiting, ?_, sound.notified, ?_, nofun, trivial, sound.visited, ?_,
    fun nil => absurd nil some⟩
  · show (0 : Int) + slaves.length = total (PushPoint.refferShare .referred) slaves
    rw [all]
    omega
  · refine (if_neg ?_).symm
    rintro ⟨zero, -⟩
    change (0 : Int) + slaves.length = 0 at zero
    omega
  · exact allocated_of_once (sound.allocated_once nofun some) (by nofun) some

theorem Sound.push_referred (sound : s.Sound) (pusher : s.pusher = .referred) :
    s.pushStep.Sound := by
  obtain ⟨point, slaves, waitingRpcCount, refferCount, allocated, freed, notified⟩ := s
  obtain rfl : point = .referred := pusher
  have some : slaves ≠ [] := sound.some_slaves nofun nofun
  have waiting : waitingRpcCount = 0 := by
    have shares := sound.waiting
    rwa [sound.total_unvisited rfl rfl] at shares
  have notNotified : notified = 0 := by
    have notified := sound.notified
    simpa [PushPoint.Notifies] using notified
  have all : total (PushPoint.waitShare (.visiting 0 0)) slaves = slaves.length * 1 :=
    sound.total_unvisited rfl rfl
  have positive : slaves.length ≠ 0 := fun zero => some (List.length_eq_zero_iff.mp zero)
  subst waiting notNotified
  refine ⟨?_, sound.reffer, ?_, sound.freed, fun _ silent => absurd trivial silent, ?_,
    sound.visited, ?_, fun nil => absurd nil some⟩
  · show (0 : Int) + slaves.length = total (PushPoint.waitShare (.visiting 0 0)) slaves
    rw [all]
    omega
  · refine (if_neg ?_).symm
    rintro ⟨zero, -⟩
    change (0 : Int) + slaves.length = 0 at zero
    omega
  · show 0 = total SlavePoint.counts slaves
    have none : total SlavePoint.counts slaves = slaves.length * 0 := sound.total_unvisited rfl rfl
    rw [none, Nat.mul_zero]
  · exact allocated_of_once (sound.allocated_once nofun some) (by nofun) some

/-- When the loop has ended every slave has been visited. -/
theorem Sound.visited_all (sound : s.Sound) (ended : s.pusher.nextSlave s.slaves.length ≥ s.slaves.length)
    (slave : Nat) (point : SlavePoint) (found : s.slaves[slave]? = some point) :
    point = .unvisited ↔ s.slaves.length ≤ slave := by
  have inside := (List.getElem?_eq_some_iff.mp found).1
  refine ⟨fun unvisited => ?_, fun outside => absurd inside (not_lt.mpr outside)⟩
  exact ended.le.trans ((sound.visited slave point found).mp unvisited)

theorem Sound.push_visiting (sound : s.Sound) {index inactiveCount : Nat}
    (pusher : s.pusher = .visiting index inactiveCount) (ended : s.slaves.length ≤ index) :
    s.pushStep.Sound := by
  obtain ⟨point, slaves, waitingRpcCount, refferCount, allocated, freed, notified⟩ := s
  obtain rfl : point = .visiting index inactiveCount := pusher
  have some : slaves ≠ [] := sound.some_slaves nofun nofun
  have inactive : inactiveCount = total SlavePoint.counts slaves := sound.inactive
  have one : allocated = 1 := sound.allocated_once nofun some
  have visited := sound.visited_all ended
  unfold pushStep
  by_cases positive : 0 < inactiveCount
  · simp only [if_pos positive]
    refine ⟨sound.waiting, sound.reffer, sound.notified, sound.freed,
      fun _ silent => absurd trivial silent, ⟨inactive, positive⟩, visited, ?_,
      fun nil => absurd nil some⟩
    exact allocated_of_once one (by nofun) some
  · -- no slave is inactive, so nothing is left to lower
    have none : ∀ point ∈ slaves, point.counts = 0 := by
      intro point member
      obtain ⟨slave, found⟩ := List.mem_iff_getElem?.mp member
      have share := @share_le_total SlavePoint.counts slaves slave point found
      omega
    simp only [if_neg positive]
    refine ⟨?_, ?_, ?_, sound.freed, fun _ silent => absurd rfl silent, trivial, visited, ?_,
      fun nil => absurd nil some⟩
    · refine sound.waiting.trans (congrArg Nat.cast (total_congr ?_))
      intro point member
      exact PushPoint.waitShare_of_raised trivial (none point member)
    · refine sound.reffer.trans (congrArg Nat.cast (total_congr ?_))
      intro point member
      exact PushPoint.refferShare_of_raised trivial (none point member)
    · have notified := sound.notified
      simpa [PushPoint.Notifies] using notified
    · exact allocated_of_once one (by nofun) some

theorem Sound.push_lowering (sound : s.Sound) {inactiveCount : Nat}
    (pusher : s.pusher = .lowering inactiveCount) : s.pushStep.Sound := by
  obtain ⟨point, slaves, waitingRpcCount, refferCount, allocated, freed, notified⟩ := s
  obtain rfl : point = .lowering inactiveCount := pusher
  have some : slaves ≠ [] := sound.some_slaves nofun nofun
  obtain ⟨inactive, positive⟩ : inactiveCount = total SlavePoint.counts slaves ∧ 0 < inactiveCount :=
    sound.inactive
  have waiting : waitingRpcCount =
      ((total SlavePoint.waits slaves + total SlavePoint.counts slaves : Nat) : Int) := by
    rw [← total_add]
    exact sound.waiting
  have notNotified : notified = 0 := by
    have notified := sound.notified
    have more : waitingRpcCount ≠ 0 := by omega
    simpa [more] using notified
  have one : allocated = 1 := sound.allocated_once nofun some
  subst notNotified
  have lowered : waitingRpcCount - inactiveCount = total SlavePoint.waits slaves := by omega
  unfold pushStep
  dsimp only
  rw [lowered]
  refine ⟨rfl, sound.reffer, ?_, sound.freed, ?_, ⟨inactive, positive⟩, sound.visited, ?_,
    fun nil => absurd nil some⟩
  · refine (if_neg ?_).symm
    rintro ⟨zero, notifies⟩
    change (if (total SlavePoint.waits slaves : Int) = 0 then _ else _) =
      PushResult.taskStatusContinue at notifies
    rw [if_pos zero] at notifies
    cases notifies
  · intro _ silent
    by_contra rest
    exact silent (if_neg rest)
  · exact allocated_of_once one (by nofun) some

theorem Sound.push_releasing (sound : s.Sound) {inactiveCount : Nat} {result : PushResult}
    (pusher : s.pusher = .releasing inactiveCount result) : s.pushStep.Sound := by
  obtain ⟨point, slaves, waitingRpcCount, refferCount, allocated, freed, notified⟩ := s
  obtain rfl : point = .releasing inactiveCount result := pusher
  have some : slaves ≠ [] := sound.some_slaves nofun nofun
  obtain ⟨inactive, positive⟩ : inactiveCount = total SlavePoint.counts slaves ∧ 0 < inactiveCount :=
    sound.inactive
  have reffer : refferCount =
      ((total SlavePoint.refers slaves + total SlavePoint.counts slaves : Nat) : Int) := by
    rw [← total_add]
    exact sound.reffer
  have notFreed : freed = 0 := by
    have freed := sound.freed
    have more : refferCount ≠ 0 := by omega
    simpa [more] using freed
  have one : allocated = 1 := sound.allocated_once nofun some
  subst notFreed one
  have lowered : refferCount - inactiveCount = total SlavePoint.refers slaves := by omega
  unfold pushStep releaseRpcEntry
  dsimp only
  rw [lowered]
  refine ⟨sound.waiting, rfl, sound.notified, ?_, sound.finished, trivial, sound.visited, ?_,
    fun nil => absurd nil some⟩
  · simp [PushPoint.Referred]
  · simp [some]

theorem Sound.push (sound : s.Sound) (enabled : s.Enabled .push) : (s.next .push).Sound := by
  show s.pushStep.Sound
  unfold Enabled at enabled
  cases pusher : s.pusher with
  | call => exact sound.push_call pusher
  | allocated => exact sound.push_allocated pusher
  | referred => exact sound.push_referred pusher
  | visiting index inactiveCount =>
      rw [pusher] at enabled
      exact sound.push_visiting pusher enabled
  | lowering inactiveCount => exact sound.push_lowering pusher
  | releasing inactiveCount result => exact sound.push_releasing pusher
  | returned result =>
      rw [pusher] at enabled
      exact enabled.elim

/-- The data thread pushes the entry to a slave or leaves the slave out. -/
theorem Sound.visit (sound : s.Sound) {status : FSDataServerStatus} {ready : Bool}
    (enabled : s.Enabled (.visit status ready)) : (s.next (.visit status ready)).Sound := by
  obtain ⟨point, slaves, waitingRpcCount, refferCount, allocated, freed, notified⟩ := s
  cases point with
  | call | allocated | referred | lowering | releasing | returned => exact absurd enabled nofun
  | visiting index inactiveCount =>
      have inside : index < slaves.length := enabled
      have nonempty : slaves ≠ [] := sound.some_slaves nofun nofun
      have inactive : inactiveCount = total SlavePoint.counts slaves := sound.inactive
      have found : slaves[index]? = some SlavePoint.unvisited := by
        have here := List.getElem?_eq_getElem inside
        rwa [(sound.visited index _ here).mpr le_rfl] at here
      have shape : SlavePoint.visited status ready = .queued ∨
          SlavePoint.visited status ready = .inactive := by
        unfold SlavePoint.visited
        split_ifs
        · exact Or.inl rfl
        · exact Or.inr rfl
      unfold next RpcEntryState.visit setSlave
      dsimp only
      generalize SlavePoint.visited status ready = new at shape
      have waits := @total_set (fun point => point.waits + point.counts) slaves index _ new found
      have refers := @total_set (fun point => point.refers + point.counts) slaves index _ new found
      have counts := @total_set SlavePoint.counts slaves index _ new found
      have one : new.waits + new.counts = 1 ∧ new.refers + new.counts = 1 ∧ new ≠ .unvisited := by
        rcases shape with rfl | rfl <;> decide
      have sameWaits : total (fun point => point.waits + point.counts) (slaves.set index new) =
          total (fun point => point.waits + point.counts) slaves := by
        rw [one.1] at waits
        exact Nat.add_right_cancel waits
      have sameRefers : total (fun point => point.refers + point.counts) (slaves.set index new) =
          total (fun point => point.refers + point.counts) slaves := by
        rw [one.2.1] at refers
        exact Nat.add_right_cancel refers
      have still : slaves.set index new ≠ [] :=
        fun empty => nonempty ((List.set_eq_nil_iff _ _).mp empty)
      refine ⟨sound.waiting.trans (congrArg Nat.cast sameWaits.symm),
        sound.reffer.trans (congrArg Nat.cast sameRefers.symm), sound.notified, sound.freed,
        fun _ silent => absurd trivial silent, ?_, ?_, ?_, fun empty => absurd empty still⟩
      · show (if new = .inactive then inactiveCount + 1 else inactiveCount) =
          total SlavePoint.counts (slaves.set index new)
        rcases shape with rfl | rfl
        · rw [if_neg nofun, inactive]
          exact counts.symm
        · rw [if_pos rfl, inactive]
          exact counts.symm
      · intro slave point slaveFound
        dsimp only at slaveFound
        show point = .unvisited ↔ index + 1 ≤ slave
        by_cases same : index = slave
        · subst same
          rw [List.getElem?_set_self inside] at slaveFound
          cases slaveFound
          exact ⟨fun unvisited => absurd unvisited one.2.2, fun le => absurd le (by omega)⟩
        · rw [List.getElem?_set_ne same] at slaveFound
          rw [sound.visited slave point slaveFound]
          show index ≤ slave ↔ index + 1 ≤ slave
          omega
      · exact allocated_of_once (sound.allocated_once nofun nonempty) (by nofun) still

/-- The run lemma. -/
theorem sound_of_reachable (reached : Reachable RpcEntryStep RpcEntryInit s) : s.Sound := by
  refine reached.invariant (fun s init => sound_of_init init) ?_
  rintro s action _ sound ⟨enabled, rfl⟩
  cases action with
  | push => exact sound.push enabled
  | visit status ready => exact sound.visit enabled
  | add slave => exact sound.add enabled
  | release slave => exact sound.release enabled
  | answer slave => exact sound.countOff enabled nofun nofun rfl rfl rfl rfl rfl
  | discard slave => exact sound.countOff enabled nofun nofun rfl rfl rfl rfl rfl

/-! ## The end of a run -/

end RpcEntryState

/-- The steps that a slave has still before it. -/
def SlavePoint.remaining : SlavePoint → Nat
  | .unvisited => 4
  | .queued => 3
  | .added => 2
  | .sent | .discarded => 1
  | .inactive | .done => 0

/-- The phases that the data thread has still before it. -/
def PushPoint.remaining : PushPoint → Nat
  | .call => 6
  | .allocated => 5
  | .referred => 4
  | .visiting _ _ => 3
  | .lowering _ => 2
  | .releasing _ _ => 1
  | .returned _ => 0

namespace RpcEntryState

/-- A bound on the steps that are left. -/
def remaining (s : RpcEntryState) : Nat :=
  total SlavePoint.remaining s.slaves + s.pusher.remaining

variable {s : RpcEntryState}

theorem remaining_move {slave : Nat} {old : SlavePoint} (new : SlavePoint)
    (found : s.slaves[slave]? = some old) (less : new.remaining < old.remaining) {after : RpcEntryState}
    (pusher : after.pusher = s.pusher) (slaves : after.slaves = s.slaves.set slave new) :
    after.remaining < s.remaining := by
  have moved := @total_set SlavePoint.remaining s.slaves slave old new found
  unfold remaining
  rw [pusher, slaves]
  omega

theorem remaining_push (enabled : s.Enabled .push) : s.pushStep.remaining < s.remaining := by
  obtain ⟨point, slaves, waitingRpcCount, refferCount, allocated, freed, notified⟩ := s
  have phase : ∀ after : RpcEntryState, after.slaves = slaves →
      after.pusher.remaining < point.remaining →
      after.remaining < remaining ⟨point, slaves, waitingRpcCount, refferCount, allocated, freed,
        notified⟩ := by
    intro after same less
    unfold remaining
    rw [same]
    exact Nat.add_lt_add_left less _
  cases point with
  | call =>
      unfold pushStep
      by_cases empty : slaves.length = 0
      · simp only [if_pos empty]
        exact phase _ rfl (by decide : 0 < 6)
      · simp only [if_neg empty]
        exact phase _ rfl (by decide : 5 < 6)
  | allocated => exact phase _ rfl (by decide : 4 < 5)
  | referred => exact phase _ rfl (by decide : 3 < 4)
  | visiting index inactiveCount =>
      unfold pushStep
      by_cases positive : 0 < inactiveCount
      · simp only [if_pos positive]
        exact phase _ rfl (by decide : 2 < 3)
      · simp only [if_neg positive]
        exact phase _ rfl (by decide : 0 < 3)
  | lowering inactiveCount => exact phase _ rfl (by decide : 1 < 2)
  | releasing inactiveCount result => exact phase _ rfl (by decide : 0 < 1)
  | returned result => exact absurd enabled nofun

/-- Every step leaves fewer. -/
theorem Sound.remaining_next (sound : s.Sound) {action : RpcEntryAction}
    (enabled : s.Enabled action) : (s.next action).remaining < s.remaining := by
  cases action with
  | push => exact remaining_push enabled
  | visit status ready =>
      obtain ⟨point, slaves, waitingRpcCount, refferCount, allocated, freed, notified⟩ := s
      cases point with
      | call | allocated | referred | lowering | releasing | returned => exact absurd enabled nofun
      | visiting index inactiveCount =>
          have inside : index < slaves.length := enabled
          have found : slaves[index]? = some SlavePoint.unvisited := by
            have here := List.getElem?_eq_getElem inside
            rwa [(sound.visited index _ here).mpr le_rfl] at here
          have moved := @total_set SlavePoint.remaining slaves index _
            (SlavePoint.visited status ready) found
          have less : (SlavePoint.visited status ready).remaining < 4 := by
            unfold SlavePoint.visited
            split_ifs <;> decide
          show total SlavePoint.remaining (slaves.set index (.visited status ready)) + 3 <
            total SlavePoint.remaining slaves + 3
          change _ + 4 = _ at moved
          omega
  | add slave => exact remaining_move .added enabled (by decide) rfl rfl
  | release slave =>
      rcases enabled with added | discarded
      · refine remaining_move .sent added (by decide) rfl ?_
        show s.slaves.set slave (s.slaves.getD slave .done).released = _
        rw [List.getD_eq_getElem?_getD, added]
        rfl
      · refine remaining_move .done discarded (by decide) rfl ?_
        show s.slaves.set slave (s.slaves.getD slave .done).released = _
        rw [List.getD_eq_getElem?_getD, discarded]
        rfl
  | answer slave => exact remaining_move .done enabled (by decide) rfl rfl
  | discard slave => exact remaining_move .discarded enabled (by decide) rfl rfl

/-- Where no step can be made the data thread has returned, and every slave is done or was
left out. -/
theorem Sound.ended (sound : s.Sound) (stuck : ∀ action, ¬ s.Enabled action) :
    (∃ result, s.pusher = .returned result) ∧
      ∀ point ∈ s.slaves, point.waits = 0 ∧ point.refers = 0 := by
  have returned : ∃ result, s.pusher = .returned result := by
    have noPush := stuck .push
    have noVisit := stuck (.visit .active true)
    unfold Enabled at noPush noVisit
    cases pusher : s.pusher with
    | returned result => exact ⟨result, rfl⟩
    | call | allocated | referred | lowering | releasing =>
        rw [pusher] at noPush
        exact absurd trivial noPush
    | visiting index inactiveCount =>
        rw [pusher] at noPush noVisit
        exact absurd (not_le.mp noPush) noVisit
  refine ⟨returned, ?_⟩
  intro point member
  obtain ⟨slave, found⟩ := List.mem_iff_getElem?.mp member
  obtain ⟨result, pusher⟩ := returned
  cases point with
  | unvisited =>
      have outside := (sound.visited slave _ found).mp rfl
      rw [pusher] at outside
      exact absurd (List.getElem?_eq_some_iff.mp found).1 (not_lt.mpr outside)
  | inactive | done => exact ⟨rfl, rfl⟩
  | queued => exact absurd found (stuck (.add slave))
  | added => exact absurd (Or.inl found) (stuck (.release slave))
  | sent => exact absurd found (stuck (.answer slave))
  | discarded => exact absurd (Or.inr found) (stuck (.release slave))

/-- The counters are at zero, the entry is freed, and the data thread has been notified when it
was told to wait. -/
theorem Sound.settled (sound : s.Sound) (stuck : ∀ action, ¬ s.Enabled action) :
    s.waitingRpcCount = 0 ∧ s.refferCount = 0 ∧ (s.slaves ≠ [] → s.freed = 1) ∧
      ∃ result, s.pusher = .returned result ∧
        s.notified = if result = .taskStatusContinue then 1 else 0 := by
  obtain ⟨⟨result, pusher⟩, left⟩ := sound.ended stuck
  have waiting : s.waitingRpcCount = 0 := by
    have none : total SlavePoint.waits s.slaves = 0 :=
      total_eq_zero fun point member => (left point member).1
    rw [sound.waiting, pusher]
    exact congrArg Nat.cast none
  have reffer : s.refferCount = 0 := by
    have none : total SlavePoint.refers s.slaves = 0 :=
      total_eq_zero fun point member => (left point member).2
    rw [sound.reffer, pusher]
    exact congrArg Nat.cast none
  refine ⟨waiting, reffer, fun some => ?_, result, pusher, ?_⟩
  · have referred : s.pusher.Referred := pusher ▸ trivial
    rw [sound.freed, if_pos ⟨reffer, referred⟩]
    exact sound.allocated_once (pusher ▸ nofun) some
  · rw [sound.notified, pusher]
    simp only [waiting, true_and, PushPoint.Notifies]

/-- The data thread waits for the slaves of an update exactly once: neither counter goes below
zero; a run ends, with both at zero, the entry freed, and one notification if the data thread was
told to wait and none otherwise. -/
structure WaitedOnce (s : RpcEntryState) : Prop where
  waiting : 0 ≤ s.waitingRpcCount
  reffer : 0 ≤ s.refferCount
  freed : s.freed ≤ 1
  notified : s.notified ≤ 1
  silent : s.pusher = .returned .finished → s.notified = 0
  ends : ∀ action, s.Enabled action → (s.next action).remaining < s.remaining
  settled : (∀ action, ¬ s.Enabled action) →
    s.waitingRpcCount = 0 ∧ s.refferCount = 0 ∧ (s.slaves ≠ [] → s.freed = 1) ∧
      ∃ result, s.pusher = .returned result ∧
        s.notified = if result = .taskStatusContinue then 1 else 0

theorem Sound.waitedOnce (sound : s.Sound) : s.WaitedOnce := by
  refine ⟨?_, ?_, ?_, ?_, ?_, fun _ => sound.remaining_next, sound.settled⟩
  · rw [sound.waiting]
    exact Int.natCast_nonneg _
  · rw [sound.reffer]
    exact Int.natCast_nonneg _
  · rw [sound.freed, sound.allocated]
    split_ifs <;> decide
  · rw [sound.notified]
    split_ifs <;> decide
  · intro pusher
    rw [sound.notified, pusher]
    simp [PushPoint.Notifies]

end RpcEntryState

theorem slaves_waited_once {s : RpcEntryState} (reached : Reachable RpcEntryStep RpcEntryInit s) :
    s.WaitedOnce :=
  (RpcEntryState.sound_of_reachable reached).waitedOnce

/-- One slave answers and one discards the entry before the data thread, who found the third
offline, lowers the counters. -/
theorem slaves_waited_once_early_answers :
    RpcEntryState.WaitedOnce
      ⟨.returned .finished, [.done, .inactive, .done], 0, 0, 1, 1, 0⟩ := by
  have start : Reachable RpcEntryStep RpcEntryInit
      ⟨.call, [.unvisited, .unvisited, .unvisited], 0, 0, 0, 0, 0⟩ :=
    .start ⟨_, by decide, rfl⟩
  have reached := start.follow
    [.push, .push, .push, .visit .active true, .add 0, .release 0, .visit .offline true,
      .answer 0, .visit .online true, .discard 2, .release 2, .push, .push, .push] (by decide)
  exact slaves_waited_once reached

end FastStore.Replication
