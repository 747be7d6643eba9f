import FastStore.Util.Chain
import FastStore.Util.Ring
import FastStore.Util.System

/-!
# The RPC result ring

The master keeps, for each data group and slave, the updates that it has sent and that the
slave has not answered.  An update goes into the slot of its data version when it continues
the ring, and into a queue ordered by data version when it does not.  A slot is empty when
its data version is zero.
-/

namespace FastStore.Replication

open FastStore.Util

structure FSReplicaRPCResultEntry where
  dataVersion : Nat
  waitingTask : Option Nat
  expires : Nat
  deriving DecidableEq, Repr

/-- An entry as `memset` leaves it. -/
def FSReplicaRPCResultEntry.blank : FSReplicaRPCResultEntry := ⟨0, none, 0⟩

/-- An answered entry of the ring keeps its expiry. -/
def FSReplicaRPCResultEntry.vacate (entry : FSReplicaRPCResultEntry) : FSReplicaRPCResultEntry :=
  { entry with
    dataVersion := 0
    waitingTask := none }

/-- `ring` and `queue` of one data group.  The queue is the list of its entries from the head
on, which their data versions tell apart; `tail` is what the tail pointer points to. -/
structure FSReplicaRPCResultInstance where
  entries : Nat → FSReplicaRPCResultEntry
  start : Nat
  stop : Nat
  size : Nat
  queue : List FSReplicaRPCResultEntry
  tail : Option FSReplicaRPCResultEntry

def initRpcResultInstance (allocSize : Nat) : FSReplicaRPCResultInstance :=
  ⟨fun _ => .blank, 0, 0, allocSize, [], none⟩

/-- `desc_task_waiting_rpc_count`, as the update and the task whose counter it decreases; it
only logs a warning when there is no task. -/
def descTaskWaitingRpcCount (entry : FSReplicaRPCResultEntry) : List (Nat × Nat) :=
  match entry.waitingTask with
  | none => []
  | some task => [(entry.dataVersion, task)]

/-- Link an entry behind the one that the tail pointer points to. -/
def linkBehind (tail entry : FSReplicaRPCResultEntry) :
    List FSReplicaRPCResultEntry → List FSReplicaRPCResultEntry
  | [] => []
  | current :: rest =>
      if current = tail then [current, entry] else current :: linkBehind tail entry rest

namespace FSReplicaRPCResultInstance

variable (s : FSReplicaRPCResultInstance)

/-- `rpc_result_instance_clear_queue_all`. -/
def rpcResultInstanceClearQueueAll : FSReplicaRPCResultInstance × List (Nat × Nat) :=
  ({ s with
     queue := []
     tail := none }, s.queue.flatMap descTaskWaitingRpcCount)

/-- Empty the slot at the start of the ring and move the start on. -/
def dropStart : FSReplicaRPCResultInstance :=
  { s with
    entries := Function.update s.entries s.start (s.entries s.start).vacate
    start := Ring.next s.size s.start }

/-- The loop that empties slots from the start of the ring on, while the test holds. -/
def clearSlots (test : FSReplicaRPCResultEntry → Bool) :
    Nat → FSReplicaRPCResultInstance → FSReplicaRPCResultInstance × List (Nat × Nat)
  | 0, s => (s, [])
  | fuel + 1, s =>
      if s.start ≠ s.stop ∧ test (s.entries s.start) = true then
        let rest := clearSlots test fuel s.dropStart
        (rest.1, descTaskWaitingRpcCount (s.entries s.start) ++ rest.2)
      else (s, [])

/-- `rpc_result_instance_clear_all`. -/
def rpcResultInstanceClearAll : FSReplicaRPCResultInstance × List (Nat × Nat) :=
  if s.start = s.stop then s.rpcResultInstanceClearQueueAll
  else
    let ring := clearSlots (fun _ => true) s.size s
    let queue := ring.1.rpcResultInstanceClearQueueAll
    (queue.1, ring.2 ++ queue.2)

/-- `rpc_result_instance_clear_queue_timeouts`: from the head on, as long as the entries have
expired. -/
def rpcResultInstanceClearQueueTimeouts (currentTime : Nat) :
    FSReplicaRPCResultInstance × List (Nat × Nat) :=
  let left := s.queue.dropWhile fun entry => entry.expires < currentTime
  ({ s with
     queue := left
     tail := if left.isEmpty then none else s.tail },
    (s.queue.takeWhile fun entry => entry.expires < currentTime).flatMap descTaskWaitingRpcCount)

/-- `rpc_result_instance_clear_timeouts`. -/
def rpcResultInstanceClearTimeouts (currentTime : Nat) :
    FSReplicaRPCResultInstance × List (Nat × Nat) :=
  let ring := clearSlots (fun entry => entry.expires < currentTime) s.size s
  let queue := ring.1.rpcResultInstanceClearQueueTimeouts currentTime
  (queue.1, ring.2 ++ queue.2)

def addToQueue (entry : FSReplicaRPCResultEntry) : FSReplicaRPCResultInstance :=
  match s.tail with
  | none =>
      { s with
        queue := [entry]
        tail := some entry }
  | some tail =>
      if tail.dataVersion < entry.dataVersion then
        { s with
          queue := linkBehind tail entry s.queue
          tail := some entry }
      else
        match s.queue with
        | [] => s
        | head :: rest =>
            if entry.dataVersion < head.dataVersion then
              { s with queue := entry :: head :: rest }
            else
              { s with
                queue := head ::
                  (rest.takeWhile (fun current => current.dataVersion < entry.dataVersion) ++ entry ::
                    rest.dropWhile (fun current => current.dataVersion < entry.dataVersion)) }

/-- The update continues the ring: the ring is empty, or its end is the slot of the update,
the slot behind it is free and the update before it is in the slot before it. -/
def matched (dataVersion : Nat) : Bool :=
  let index := dataVersion % s.size
  s.stop = s.start ∨
    index = s.stop ∧ Ring.next s.size index ≠ s.start ∧
      dataVersion = (s.entries ((index + s.size - 1) % s.size)).dataVersion + 1

/-- `rpc_result_ring_add`. -/
def rpcResultRingAdd (entry : FSReplicaRPCResultEntry) : FSReplicaRPCResultInstance :=
  let index := entry.dataVersion % s.size
  if s.matched entry.dataVersion then
    { s with
      entries := Function.update s.entries index entry
      start := if s.stop = s.start then index else s.start
      stop := Ring.next s.size index }
  else s.addToQueue entry

def removeFromQueue (dataVersion : Nat) :
    Errno × FSReplicaRPCResultInstance × List (Nat × Nat) :=
  match s.queue with
  | [] => (.enoent, s, [])
  | head :: rest =>
      if dataVersion = head.dataVersion then
        (.ok,
          { s with
            queue := rest
            tail := if rest.isEmpty then none else s.tail },
          descTaskWaitingRpcCount head)
      else
        let before := rest.takeWhile fun current => current.dataVersion < dataVersion
        match rest.dropWhile fun current => current.dataVersion < dataVersion with
        | [] => (.enoent, s, [])
        | current :: behind =>
            if dataVersion ≠ current.dataVersion then (.enoent, s, [])
            else
              (.ok,
                { s with
                  queue := head :: (before ++ behind)
                  tail := if s.tail = some current then some (before.getLastD head) else s.tail },
                descTaskWaitingRpcCount current)

/-- The loop that moves the start on over empty slots. -/
def skipHoles : Nat → Nat → Nat
  | 0, start => start
  | fuel + 1, start =>
      if start ≠ s.stop ∧ (s.entries start).dataVersion = 0 then
        skipHoles fuel (Ring.next s.size start)
      else start

/-- `rpc_result_ring_remove`. -/
def rpcResultRingRemove (dataVersion : Nat) :
    Errno × FSReplicaRPCResultInstance × List (Nat × Nat) :=
  let index := dataVersion % s.size
  let entry := s.entries index
  if s.stop ≠ s.start ∧ entry.dataVersion = dataVersion then
    (.ok,
      { s with
        entries := Function.update s.entries index entry.vacate
        start := if s.start = index then s.skipHoles s.size (Ring.next s.size index) else s.start },
      descTaskWaitingRpcCount entry)
  else s.removeFromQueue dataVersion

/-- The slots from the start to the end of the ring. -/
def slots : List Nat := Ring.slots s.size s.start s.stop

/-- The entries of the ring that wait for an answer. -/
def occupied : List FSReplicaRPCResultEntry :=
  (s.slots.map s.entries).filter fun entry => entry.dataVersion ≠ 0

/-- What the ring and the queue hold. -/
def held : List FSReplicaRPCResultEntry := s.occupied ++ s.queue

/-! ## The queue -/

/-- The queue ascends in its data versions and the tail pointer is at its end. -/
structure QueueSound (s : FSReplicaRPCResultInstance) : Prop where
  ascending : Ascending FSReplicaRPCResultEntry.dataVersion s.queue
  tail : s.tail = s.queue.getLast?

variable {s : FSReplicaRPCResultInstance}

theorem linkBehind_concat {front : List FSReplicaRPCResultEntry} {tail : FSReplicaRPCResultEntry}
    (fresh : tail ∉ front) (entry : FSReplicaRPCResultEntry) :
    linkBehind tail entry (front ++ [tail]) = front ++ [tail, entry] := by
  induction front with
  | nil => simp [linkBehind]
  | cons head rest ih =>
      have apart : head ≠ tail := fun same => fresh (same ▸ List.mem_cons_self)
      have absent : tail ∉ rest := fun member => fresh (List.mem_cons_of_mem _ member)
      simp only [List.cons_append, linkBehind, if_neg apart, ih absent]

/-- The entry is linked in at its place, and the tail pointer stays at the end. -/
theorem QueueSound.addToQueue_eq (sound : s.QueueSound) {entry : FSReplicaRPCResultEntry}
    (fresh : ∀ other ∈ s.queue, other.dataVersion ≠ entry.dataVersion) :
    s.addToQueue entry =
      { s with
        queue := Chain.insert FSReplicaRPCResultEntry.dataVersion entry s.queue
        tail := (Chain.insert FSReplicaRPCResultEntry.dataVersion entry s.queue).getLast? } := by
  unfold addToQueue
  rw [sound.tail]
  rcases List.eq_nil_or_concat s.queue with empty | ⟨front, last, queue⟩
  · rw [empty]
    rfl
  · rw [List.concat_eq_append] at queue
    have ascending := sound.ascending
    rw [queue] at ascending fresh ⊢
    rw [List.getLast?_concat]
    obtain ⟨-, -, below⟩ := Ascending.append_iff.mp ascending
    dsimp only
    by_cases above : last.dataVersion < entry.dataVersion
    · have absent : last ∉ front := fun member =>
        absurd (below last member last List.mem_cons_self) (lt_irrefl _)
      have all : ∀ other ∈ front ++ [last], other.dataVersion < entry.dataVersion := by
        intro other member
        rcases List.mem_append.mp member with inFront | isLast
        · exact (below other inFront last List.mem_cons_self).trans above
        · rwa [List.mem_singleton.mp isLast]
      rw [if_pos above, Chain.insert_of_forall_lt all, linkBehind_concat absent,
        List.getLast?_concat, List.append_assoc]
      rfl
    · have isLast : (front ++ [last]).getLast? = some last := List.getLast?_concat
      rw [if_neg above, Chain.getLast?_insert_of_le isLast (not_lt.mp above)]
      cases shape : front ++ [last] with
      | nil => simp at shape
      | cons head rest =>
          have apart : head.dataVersion ≠ entry.dataVersion :=
            fresh head (shape ▸ List.mem_cons_self)
          dsimp only
          by_cases first : entry.dataVersion < head.dataVersion
          · rw [if_pos first, Chain.insert_cons_of_le first.le]
          · rw [if_neg first, Chain.insert_cons_of_lt (lt_of_le_of_ne (not_lt.mp first) apart)]
            rfl

theorem QueueSound.removeFromQueue_of_mem (sound : s.QueueSound) {entry : FSReplicaRPCResultEntry}
    (member : entry ∈ s.queue) :
    s.removeFromQueue entry.dataVersion =
      (.ok,
        { s with
          queue := Chain.erase FSReplicaRPCResultEntry.dataVersion entry.dataVersion s.queue
          tail := (Chain.erase FSReplicaRPCResultEntry.dataVersion entry.dataVersion
            s.queue).getLast? },
        descTaskWaitingRpcCount entry) := by
  obtain ⟨front, behind, queue⟩ := List.append_of_mem member
  have ascending := sound.ascending
  unfold removeFromQueue
  rw [sound.tail]
  rw [queue] at ascending ⊢
  rw [Chain.erase_middle ascending]
  cases front with
  | nil =>
      simp only [List.nil_append, if_true]
      cases behind with
      | nil => rfl
      | cons next rest => rfl
  | cons head before =>
      obtain ⟨below, restAscending⟩ := Ascending.cons_iff.mp ascending
      obtain ⟨-, behindAscending, across⟩ := Ascending.append_iff.mp restAscending
      have apart : entry.dataVersion ≠ head.dataVersion :=
        (below entry (List.mem_append_right _ List.mem_cons_self)).ne'
      have passed : ∀ other ∈ before, decide (other.dataVersion < entry.dataVersion) = true := by
        intro other member
        exact decide_eq_true (across other member entry List.mem_cons_self)
      have taken : (before ++ entry :: behind).takeWhile
          (fun current => current.dataVersion < entry.dataVersion) = before := by
        rw [List.takeWhile_append_of_pos passed]
        simp
      have dropped : (before ++ entry :: behind).dropWhile
          (fun current => current.dataVersion < entry.dataVersion) = entry :: behind := by
        rw [List.dropWhile_append_of_pos passed]
        simp
      simp only [List.cons_append, if_neg apart, taken, dropped]
      rw [if_neg (not_not.mpr rfl)]
      congr 3
      rw [← List.cons_append, List.getLast?_append_of_ne_nil _ (List.cons_ne_nil _ _)]
      cases behind with
      | nil => simp [List.getLast?_cons, List.getLastD_eq_getLast?]
      | cons next rest =>
          obtain ⟨above, -⟩ := Ascending.cons_iff.mp behindAscending
          have same : (entry :: next :: rest).getLast? = (next :: rest).getLast? := rfl
          have other : (next :: rest).getLast? ≠ some entry := by
            intro isLast
            exact absurd (above entry (List.mem_of_getLast? isLast)) (lt_irrefl _)
          rw [same, if_neg other, ← List.cons_append,
            List.getLast?_append_of_ne_nil _ (List.cons_ne_nil _ _)]

theorem removeFromQueue_of_absent {dataVersion : Nat}
    (absent : ∀ other ∈ s.queue, other.dataVersion ≠ dataVersion) :
    s.removeFromQueue dataVersion = (.enoent, s, []) := by
  unfold removeFromQueue
  cases shape : s.queue with
  | nil => rfl
  | cons head rest =>
      rw [shape] at absent
      dsimp only
      rw [if_neg (absent head List.mem_cons_self).symm]
      cases dropped : rest.dropWhile fun current => current.dataVersion < dataVersion with
      | nil => rfl
      | cons current behind =>
          have member : current ∈ rest :=
            (List.dropWhile_suffix _).subset (dropped ▸ List.mem_cons_self)
          dsimp only
          rw [if_pos (absent current (List.mem_cons_of_mem _ member)).symm]

/-- The entries of the queue that a clear leaves end where the queue ended. -/
theorem QueueSound.clearQueueTimeouts (sound : s.QueueSound) (currentTime : Nat) :
    (s.rpcResultInstanceClearQueueTimeouts currentTime).1.QueueSound := by
  have parts := @List.takeWhile_append_dropWhile _
    (fun entry : FSReplicaRPCResultEntry => decide (entry.expires < currentTime)) s.queue
  refine ⟨sound.ascending.sublist (List.dropWhile_sublist _), ?_⟩
  unfold rpcResultInstanceClearQueueTimeouts
  cases left : s.queue.dropWhile (fun entry => decide (entry.expires < currentTime)) with
  | nil => rfl
  | cons entry rest =>
      show s.tail = (entry :: rest).getLast?
      rw [sound.tail, ← parts, left]
      exact List.getLast?_append_of_ne_nil _ (List.cons_ne_nil _ _)

/-! ## The ring -/

/-- The slots of the ring are in the order of their expiry, also those that are empty again,
every update is in the slot of its data version, and no slot outside is in use. -/
structure RingSound (s : FSReplicaRPCResultInstance) (latest : Nat) : Prop where
  size : 2 ≤ s.size
  start : s.start < s.size
  stop : s.stop < s.size
  vacant : ∀ slot, slot ∉ s.slots → (s.entries slot).dataVersion = 0
  home : ∀ slot, (s.entries slot).dataVersion ≠ 0 → (s.entries slot).dataVersion % s.size = slot
  blank : ∀ slot, (s.entries slot).dataVersion = 0 → (s.entries slot).waitingTask = none
  ordered : s.slots.Pairwise fun left right => (s.entries left).expires ≤ (s.entries right).expires
  recent : ∀ slot ∈ s.slots, (s.entries slot).expires ≤ latest

variable {latest : Nat}

theorem slots_of_empty (empty : s.start = s.stop) : s.slots = [] := by
  rw [slots, empty]
  exact Ring.slots_self

theorem RingSound.nodup (sound : s.RingSound latest) : s.slots.Nodup :=
  Ring.nodup_slots sound.start sound.stop

theorem RingSound.slots_cons (sound : s.RingSound latest) (apart : s.start ≠ s.stop) :
    s.slots = s.start :: s.dropStart.slots :=
  Ring.slots_cons sound.start sound.stop apart

theorem mem_occupied {entry : FSReplicaRPCResultEntry} :
    entry ∈ s.occupied ↔ (∃ slot ∈ s.slots, s.entries slot = entry) ∧ entry.dataVersion ≠ 0 := by
  simp [occupied]

/-- The same instance with other slots empty: a slot that is still in use is as it was. -/
theorem RingSound.shrink (sound : s.RingSound latest) {after : FSReplicaRPCResultInstance}
    (size : after.size = s.size) (start : after.start < s.size) (stop : after.stop = s.stop)
    (slots : after.slots.Sublist s.slots)
    (entries : ∀ slot, after.entries slot = s.entries slot ∨
      after.entries slot = (s.entries slot).vacate)
    (left : ∀ slot ∈ s.slots, slot ∉ after.slots → (after.entries slot).dataVersion = 0) :
    after.RingSound latest := by
  have expires : ∀ slot, (after.entries slot).expires = (s.entries slot).expires := by
    intro slot
    rcases entries slot with same | vacated
    · rw [same]
    · rw [vacated]
      rfl
  refine ⟨size ▸ sound.size, size ▸ start, by rw [stop, size]; exact sound.stop, ?_, ?_, ?_, ?_, ?_⟩
  · intro slot outside
    by_cases member : slot ∈ s.slots
    · exact left slot member outside
    · rcases entries slot with same | vacated
      · rw [same]
        exact sound.vacant slot member
      · rw [vacated]
        rfl
  · intro slot used
    rcases entries slot with same | vacated
    · rw [same] at used ⊢
      rw [size]
      exact sound.home slot used
    · rw [vacated] at used
      exact absurd rfl used
  · intro slot empty
    rcases entries slot with same | vacated
    · rw [same] at empty ⊢
      exact sound.blank slot empty
    · rw [vacated]
      rfl
  · refine (sound.ordered.sublist slots).imp ?_
    intro first second le
    rwa [expires, expires]
  · intro slot member
    rw [expires]
    exact sound.recent slot (slots.subset member)

/-- Emptying the first slot. -/
theorem RingSound.dropStart (sound : s.RingSound latest) (apart : s.start ≠ s.stop) :
    s.dropStart.RingSound latest := by
  have cons := sound.slots_cons apart
  refine sound.shrink rfl (Ring.next_lt (by have := sound.size; omega)) rfl ?_ ?_ ?_
  · rw [cons]
    exact List.sublist_cons_self _ _
  · intro slot
    by_cases same : slot = s.start
    · right
      rw [same]
      exact Function.update_self _ _ _
    · left
      exact Function.update_of_ne same _ _
  · intro slot member outside
    rw [cons] at member
    rcases List.mem_cons.mp member with rfl | inside
    · show (Function.update s.entries s.start (s.entries s.start).vacate s.start).dataVersion = 0
      rw [Function.update_self]
      rfl
    · exact absurd inside outside

/-- The first slot, when it is in use, and the entries of the others. -/
theorem RingSound.occupied_dropStart (sound : s.RingSound latest) (apart : s.start ≠ s.stop) :
    s.occupied =
      [s.entries s.start].filter (fun entry => entry.dataVersion ≠ 0) ++ s.dropStart.occupied := by
  have cons := sound.slots_cons apart
  have fresh : s.start ∉ s.dropStart.slots := by
    have nodup := sound.nodup
    rw [cons] at nodup
    exact (List.nodup_cons.mp nodup).1
  have entries : s.dropStart.slots.map s.dropStart.entries = s.dropStart.slots.map s.entries := by
    apply List.map_congr_left
    intro slot member
    have other : slot ≠ s.start := fun same => fresh (same ▸ member)
    exact Function.update_of_ne other _ _
  rw [occupied, occupied, cons, entries, ← List.filter_append]
  rfl

/-- What a loop over the first slots has done: it has taken the entries of these off the ring
and decreased their tasks, and it has stopped at the end or where the test fails. -/
structure ClearedFrom (s : FSReplicaRPCResultInstance) (latest : Nat)
    (test : FSReplicaRPCResultEntry → Bool) (taken : List FSReplicaRPCResultEntry)
    (result : FSReplicaRPCResultInstance × List (Nat × Nat)) : Prop where
  sound : result.1.RingSound latest
  size : result.1.size = s.size
  queue : result.1.queue = s.queue
  tail : result.1.tail = s.tail
  occupied : s.occupied = taken ++ result.1.occupied
  tested : ∀ entry ∈ taken, test entry = true
  log : result.2 = taken.flatMap descTaskWaitingRpcCount
  stopped : result.1.start ≠ result.1.stop → test (result.1.entries result.1.start) = false

theorem clearSlots_cleared {test : FSReplicaRPCResultEntry → Bool} {fuel : Nat}
    (sound : s.RingSound latest) (enough : Ring.distance s.size s.start s.stop ≤ fuel) :
    ∃ taken, s.ClearedFrom latest test taken (clearSlots test fuel s) := by
  induction fuel generalizing s with
  | zero =>
      refine ⟨[], sound, rfl, rfl, rfl, rfl, nofun, rfl, fun apart => ?_⟩
      have more := Ring.distance_next sound.start sound.stop apart
      omega
  | succ fuel ih =>
      unfold clearSlots
      by_cases goes : s.start ≠ s.stop ∧ test (s.entries s.start) = true
      · obtain ⟨apart, passes⟩ := goes
        have shorter : Ring.distance s.dropStart.size s.dropStart.start s.dropStart.stop ≤ fuel := by
          have more := Ring.distance_next sound.start sound.stop apart
          show Ring.distance s.size (Ring.next s.size s.start) s.stop ≤ fuel
          omega
        obtain ⟨taken, cleared⟩ := ih (sound.dropStart apart) shorter
        rw [if_pos ⟨apart, passes⟩]
        refine ⟨[s.entries s.start].filter (fun entry => entry.dataVersion ≠ 0) ++ taken,
          cleared.sound, cleared.size, cleared.queue, cleared.tail, ?_, ?_, ?_, cleared.stopped⟩
        · rw [sound.occupied_dropStart apart, cleared.occupied, List.append_assoc]
        · intro entry member
          rcases List.mem_append.mp member with first | later
          · rwa [List.mem_singleton.mp (List.mem_of_mem_filter first)]
          · exact cleared.tested entry later
        · -- an empty slot has no task
          show descTaskWaitingRpcCount (s.entries s.start) ++ _ = _
          rw [cleared.log, List.flatMap_append]
          congr 1
          by_cases empty : (s.entries s.start).dataVersion = 0
          · simp [empty, descTaskWaitingRpcCount, sound.blank s.start empty]
          · simp [empty]
      · rw [if_neg goes]
        refine ⟨[], sound, rfl, rfl, rfl, rfl, nofun, rfl, fun apart => ?_⟩
        simpa [apart] using goes

/-- Behind a slot that has not expired no slot has. -/
theorem RingSound.expires_le (sound : s.RingSound latest) {bound : Nat}
    (first : s.start ≠ s.stop → bound ≤ (s.entries s.start).expires) :
    ∀ entry ∈ s.occupied, bound ≤ entry.expires := by
  intro entry member
  obtain ⟨⟨slot, inside, rfl⟩, -⟩ := mem_occupied.mp member
  by_cases apart : s.start ≠ s.stop
  · have ordered := sound.ordered
    rw [sound.slots_cons apart] at ordered inside
    rcases List.mem_cons.mp inside with rfl | behind
    · exact first apart
    · exact (first apart).trans ((List.pairwise_cons.mp ordered).1 slot behind)
  · rw [slots_of_empty (not_not.mp apart)] at inside
    exact absurd inside List.not_mem_nil

/-- The start moves on over empty slots only, up to the end or to a slot in use. -/
theorem skipHoles_spec {fuel start : Nat} (startLt : start < s.size) (stopLt : s.stop < s.size)
    (enough : Ring.distance s.size start s.stop ≤ fuel) :
    s.skipHoles fuel start < s.size ∧
      (∃ holes, Ring.slots s.size start s.stop =
          holes ++ Ring.slots s.size (s.skipHoles fuel start) s.stop ∧
        ∀ slot ∈ holes, (s.entries slot).dataVersion = 0) ∧
      (s.skipHoles fuel start ≠ s.stop → (s.entries (s.skipHoles fuel start)).dataVersion ≠ 0) := by
  induction fuel generalizing start with
  | zero =>
      refine ⟨startLt, ⟨[], rfl, nofun⟩, fun apart => ?_⟩
      have more := Ring.distance_next startLt stopLt apart
      omega
  | succ fuel ih =>
      unfold skipHoles
      by_cases goes : start ≠ s.stop ∧ (s.entries start).dataVersion = 0
      · obtain ⟨apart, empty⟩ := goes
        have more := Ring.distance_next startLt stopLt apart
        have inside : Ring.next s.size start < s.size := Ring.next_lt (by omega)
        obtain ⟨bounded, ⟨holes, walk, empties⟩, stopped⟩ := ih inside (by omega)
        rw [if_pos ⟨apart, empty⟩]
        refine ⟨bounded, ⟨start :: holes, ?_, ?_⟩, stopped⟩
        · rw [Ring.slots_cons startLt stopLt apart, walk, List.cons_append]
        · intro slot member
          rcases List.mem_cons.mp member with rfl | later
          · exact empty
          · exact empties slot later
      · rw [if_neg goes]
        refine ⟨startLt, ⟨[], rfl, nofun⟩, fun apart empty => goes ⟨apart, empty⟩⟩

/-- An answered update is no longer among the entries of the slots. -/
theorem RingSound.filter_vacate (sound : s.RingSound latest) {index : Nat}
    (used : (s.entries index).dataVersion ≠ 0) (slots : List Nat) :
    (slots.map (Function.update s.entries index (s.entries index).vacate)).filter
        (fun entry => entry.dataVersion ≠ 0) =
      ((slots.map s.entries).filter fun entry => entry.dataVersion ≠ 0).filter
        fun entry => entry.dataVersion ≠ (s.entries index).dataVersion := by
  induction slots with
  | nil => rfl
  | cons slot rest ih =>
      rw [List.map_cons, List.map_cons]
      by_cases same : slot = index
      · subst same
        have empty : (s.entries slot).vacate.dataVersion = 0 := rfl
        rw [Function.update_self, List.filter_cons_of_neg (by simp [empty]),
          List.filter_cons_of_pos (by simp [used]), List.filter_cons_of_neg (by simp), ih]
      · rw [Function.update_of_ne same]
        by_cases empty : (s.entries slot).dataVersion = 0
        · rw [List.filter_cons_of_neg (by simp [empty]), List.filter_cons_of_neg (by simp [empty]),
            ih]
        · have other : (s.entries slot).dataVersion ≠ (s.entries index).dataVersion := by
            intro equal
            have home := sound.home index used
            rw [← equal, sound.home slot empty] at home
            exact same home
          rw [List.filter_cons_of_pos (by simp [empty]), List.filter_cons_of_pos (by simp [empty]),
            List.filter_cons_of_pos (by simp [other]), ih]

/-- What the ring becomes when an update of it is answered. -/
def answered (s : FSReplicaRPCResultInstance) (index : Nat) : FSReplicaRPCResultInstance :=
  { s with
    entries := Function.update s.entries index (s.entries index).vacate
    start := if s.start = index then s.skipHoles s.size (Ring.next s.size index) else s.start }

/-- The slots that the start has moved over are empty. -/
theorem RingSound.slots_answered (sound : s.RingSound latest) {index : Nat}
    (used : (s.entries index).dataVersion ≠ 0) :
    (s.answered index).start < s.size ∧
      ∃ passed, s.slots = passed ++ (s.answered index).slots ∧
        ∀ slot ∈ passed, ((s.answered index).entries slot).dataVersion = 0 := by
  by_cases first : s.start = index
  · have inside : index ∈ s.slots := not_imp_comm.mp (sound.vacant index) used
    have apart : s.start ≠ s.stop := by
      intro same
      rw [slots_of_empty same] at inside
      exact absurd inside List.not_mem_nil
    have nextLt : Ring.next s.size index < s.size :=
      Ring.next_lt (by have := sound.size; omega)
    obtain ⟨bounded, ⟨holes, walk, empties⟩, -⟩ :=
      skipHoles_spec nextLt sound.stop (Ring.distance_lt nextLt sound.stop).le
    have start : (s.answered index).start = s.skipHoles s.size (Ring.next s.size index) :=
      if_pos first
    refine ⟨start ▸ bounded, index :: holes, ?_, ?_⟩
    · have cons := Ring.slots_cons sound.start sound.stop apart
      rw [first, walk, ← start] at cons
      rw [slots, first]
      exact cons
    · intro slot member
      show (Function.update s.entries index (s.entries index).vacate slot).dataVersion = 0
      by_cases same : slot = index
      · rw [same, Function.update_self]
        rfl
      · rw [Function.update_of_ne same]
        exact empties slot ((List.mem_cons.mp member).resolve_left same)
  · have start : (s.answered index).start = s.start := if_neg first
    refine ⟨start ▸ sound.start, [], ?_, nofun⟩
    rw [slots, slots, start]
    rfl

theorem RingSound.answered (sound : s.RingSound latest) {index : Nat}
    (used : (s.entries index).dataVersion ≠ 0) : (s.answered index).RingSound latest := by
  obtain ⟨bounded, passed, walk, empties⟩ := sound.slots_answered used
  refine sound.shrink rfl bounded rfl ?_ ?_ ?_
  · rw [walk]
    exact List.sublist_append_right _ _
  · intro slot
    by_cases same : slot = index
    · right
      rw [same]
      exact Function.update_self _ _ _
    · left
      exact Function.update_of_ne same _ _
  · intro slot member outside
    rw [walk] at member
    rcases List.mem_append.mp member with inPassed | inside
    · exact empties slot inPassed
    · exact absurd inside outside

theorem RingSound.occupied_answered (sound : s.RingSound latest) {index : Nat}
    (used : (s.entries index).dataVersion ≠ 0) :
    (s.answered index).occupied =
      s.occupied.filter fun entry => entry.dataVersion ≠ (s.entries index).dataVersion := by
  obtain ⟨-, passed, walk, empties⟩ := sound.slots_answered used
  have gone : (passed.map (s.answered index).entries).filter
      (fun entry => entry.dataVersion ≠ 0) = [] := by
    rw [List.filter_eq_nil_iff]
    intro entry member
    obtain ⟨slot, inPassed, rfl⟩ := List.mem_map.mp member
    simp [empties slot inPassed]
  have all := sound.filter_vacate used s.slots
  change (s.slots.map (s.answered index).entries).filter _ = _ at all
  rw [walk, List.map_append, List.filter_append, gone, List.nil_append, ← walk] at all
  exact all

/-- What the ring becomes when an update continues it. -/
def appended (s : FSReplicaRPCResultInstance) (entry : FSReplicaRPCResultEntry) :
    FSReplicaRPCResultInstance :=
  { s with
    entries := Function.update s.entries (entry.dataVersion % s.size) entry
    start := if s.stop = s.start then entry.dataVersion % s.size else s.start
    stop := Ring.next s.size (entry.dataVersion % s.size) }

/-- The slot of the update follows the last one, and is free. -/
theorem RingSound.slots_appended (sound : s.RingSound latest) {entry : FSReplicaRPCResultEntry}
    (matched : s.matched entry.dataVersion = true) :
    (s.appended entry).start < s.size ∧ entry.dataVersion % s.size ∉ s.slots ∧
      (s.appended entry).slots = s.slots ++ [entry.dataVersion % s.size] := by
  have large := sound.size
  have indexLt : entry.dataVersion % s.size < s.size := Nat.mod_lt _ (by omega)
  by_cases empty : s.stop = s.start
  · have start : (s.appended entry).start = entry.dataVersion % s.size := if_pos empty
    have apart : entry.dataVersion % s.size ≠ Ring.next s.size (entry.dataVersion % s.size) := by
      rw [Ring.next_eq indexLt]
      split_ifs <;> omega
    rw [slots_of_empty empty.symm]
    refine ⟨start ▸ indexLt, List.not_mem_nil, ?_⟩
    show Ring.slots s.size (s.appended entry).start (Ring.next s.size (entry.dataVersion % s.size)) = _
    rw [start, Ring.slots_cons indexLt (Ring.next_lt (by omega)) apart, Ring.slots_self]
    rfl
  · have start : (s.appended entry).start = s.start := if_neg empty
    obtain ⟨isStop, free, -⟩ := (of_decide_eq_true matched).resolve_left empty
    rw [isStop] at free ⊢
    refine ⟨start ▸ sound.start, Ring.stop_notMem_slots sound.start sound.stop, ?_⟩
    show Ring.slots s.size (s.appended entry).start (Ring.next s.size (entry.dataVersion % s.size)) = _
    rw [start, isStop]
    exact Ring.slots_concat sound.start sound.stop free

/-- An update that continues the ring goes behind its last slot. -/
theorem RingSound.appended (sound : s.RingSound latest) {entry : FSReplicaRPCResultEntry}
    (positive : entry.dataVersion ≠ 0) (later : latest ≤ entry.expires)
    (matched : s.matched entry.dataVersion = true) :
    (s.appended entry).RingSound entry.expires := by
  obtain ⟨bounded, free, concat⟩ := sound.slots_appended matched
  have self : (s.appended entry).entries (entry.dataVersion % s.size) = entry :=
    Function.update_self _ _ _
  have others : ∀ slot, slot ≠ entry.dataVersion % s.size →
      (s.appended entry).entries slot = s.entries slot :=
    fun slot other => Function.update_of_ne other _ _
  have inside : ∀ slot ∈ s.slots, (s.appended entry).entries slot = s.entries slot := by
    intro slot member
    exact others slot fun same => free (same ▸ member)
  refine ⟨sound.size, bounded, Ring.next_lt (by have := sound.size; omega), ?_, ?_, ?_, ?_, ?_⟩
  · intro slot outside
    rw [concat] at outside
    have other : slot ≠ entry.dataVersion % s.size := by
      intro same
      exact outside (List.mem_append_right _ (List.mem_singleton.mpr same))
    rw [others slot other]
    exact sound.vacant slot fun member => outside (List.mem_append_left _ member)
  · intro slot used
    by_cases same : slot = entry.dataVersion % s.size
    · rw [same, self]
      rfl
    · rw [others slot same] at used ⊢
      exact sound.home slot used
  · intro slot empty
    by_cases same : slot = entry.dataVersion % s.size
    · rw [same, self] at empty
      exact absurd empty positive
    · rw [others slot same] at empty ⊢
      exact sound.blank slot empty
  · rw [concat, List.pairwise_append]
    refine ⟨?_, List.pairwise_singleton _ _, ?_⟩
    · refine sound.ordered.imp_of_mem ?_
      intro left right leftMember rightMember le
      rwa [inside left leftMember, inside right rightMember]
    · intro slot member last isLast
      rw [List.mem_singleton.mp isLast, self, inside slot member]
      exact (sound.recent slot member).trans later
  · intro slot member
    rw [concat] at member
    rcases List.mem_append.mp member with before | isLast
    · rw [inside slot before]
      exact (sound.recent slot before).trans later
    · rw [List.mem_singleton.mp isLast, self]

theorem RingSound.occupied_appended (sound : s.RingSound latest) {entry : FSReplicaRPCResultEntry}
    (positive : entry.dataVersion ≠ 0) (matched : s.matched entry.dataVersion = true) :
    (s.appended entry).occupied = s.occupied ++ [entry] := by
  obtain ⟨-, free, concat⟩ := sound.slots_appended matched
  have inside : s.slots.map (s.appended entry).entries = s.slots.map s.entries := by
    apply List.map_congr_left
    intro slot member
    have other : slot ≠ entry.dataVersion % s.size := fun same => free (same ▸ member)
    exact Function.update_of_ne other _ _
  have self : (s.appended entry).entries (entry.dataVersion % s.size) = entry :=
    Function.update_self _ _ _
  rw [occupied, occupied, concat, List.map_append, inside, List.filter_append, List.map_singleton,
    self, List.filter_cons_of_pos (by simp [positive]), List.filter_nil]

/-! ## The ring and the queue together -/

/-- The invariant of an instance: no update is held twice, and every update has a task. -/
structure Sound (s : FSReplicaRPCResultInstance) (latest : Nat) : Prop where
  ring : s.RingSound latest
  queue : s.QueueSound
  once : (s.held.map FSReplicaRPCResultEntry.dataVersion).Nodup
  positive : ∀ entry ∈ s.held, entry.dataVersion ≠ 0
  tasked : ∀ entry ∈ s.held, ∃ task, entry.waitingTask = some task

theorem RingSound.mono (sound : s.RingSound latest) {later : Nat} (le : latest ≤ later) :
    s.RingSound later :=
  { sound with recent := fun slot member => (sound.recent slot member).trans le }

theorem Sound.mono (sound : s.Sound latest) {later : Nat} (le : latest ≤ later) : s.Sound later :=
  { sound with ring := sound.ring.mono le }

/-- Fewer entries, each as it was. -/
theorem Sound.of_sublist (sound : s.Sound latest) {after : FSReplicaRPCResultInstance}
    (ring : after.RingSound latest) (queue : after.QueueSound)
    (fewer : after.held.Sublist s.held) : after.Sound latest :=
  ⟨ring, queue, sound.once.sublist (fewer.map _),
    fun entry member => sound.positive entry (fewer.subset member),
    fun entry member => sound.tasked entry (fewer.subset member)⟩

/-- The two places have no update in common. -/
theorem Sound.apart (sound : s.Sound latest) {left right : FSReplicaRPCResultEntry}
    (leftMember : left ∈ s.occupied) (rightMember : right ∈ s.queue) :
    left.dataVersion ≠ right.dataVersion := by
  have once := sound.once
  rw [held, List.map_append, List.nodup_append] at once
  exact once.2.2 _ (List.mem_map_of_mem leftMember) _ (List.mem_map_of_mem rightMember)

theorem filter_eq_self_of_apart {entries : List FSReplicaRPCResultEntry} {dataVersion : Nat}
    (apart : ∀ entry ∈ entries, entry.dataVersion ≠ dataVersion) :
    entries.filter (fun entry => entry.dataVersion ≠ dataVersion) = entries := by
  rw [List.filter_eq_self]
  intro entry member
  exact decide_eq_true (apart entry member)

/-- An update is added to the ring or to the queue. -/
theorem Sound.add (sound : s.Sound latest) {entry : FSReplicaRPCResultEntry} {task : Nat}
    (positive : entry.dataVersion ≠ 0) (tasked : entry.waitingTask = some task)
    (later : latest ≤ entry.expires)
    (fresh : ∀ other ∈ s.held, other.dataVersion ≠ entry.dataVersion) :
    (s.rpcResultRingAdd entry).Sound entry.expires ∧
      (s.rpcResultRingAdd entry).held.Perm (entry :: s.held) := by
  -- which of the two places it is decides the order of the entries only
  have parts : (s.rpcResultRingAdd entry).RingSound entry.expires ∧
      (s.rpcResultRingAdd entry).QueueSound ∧
      (s.rpcResultRingAdd entry).held.Perm (entry :: s.held) := by
    unfold rpcResultRingAdd
    by_cases matched : s.matched entry.dataVersion = true
    · rw [if_pos matched]
      refine ⟨sound.ring.appended positive later matched, { sound.queue with }, ?_⟩
      show ((s.appended entry).occupied ++ s.queue).Perm _
      rw [sound.ring.occupied_appended positive matched, List.append_assoc]
      exact List.perm_middle
    · have freshQueue : ∀ other ∈ s.queue, other.dataVersion ≠ entry.dataVersion :=
        fun other member => fresh other (List.mem_append_right _ member)
      rw [if_neg matched, sound.queue.addToQueue_eq freshQueue]
      refine ⟨{ sound.ring.mono later with },
        ⟨Chain.ascending_insert sound.queue.ascending freshQueue, rfl⟩, ?_⟩
      exact ((Chain.insert_perm _ entry s.queue).append_left s.occupied).trans List.perm_middle
  obtain ⟨ring, queue, perm⟩ := parts
  refine ⟨⟨ring, queue, ?_, ?_, ?_⟩, perm⟩
  · rw [(perm.map FSReplicaRPCResultEntry.dataVersion).nodup_iff, List.map_cons, List.nodup_cons]
    refine ⟨fun member => ?_, sound.once⟩
    obtain ⟨other, otherMember, same⟩ := List.mem_map.mp member
    exact fresh other otherMember same
  · intro other member
    rcases List.mem_cons.mp (perm.mem_iff.mp member) with rfl | old
    · exact positive
    · exact sound.positive other old
  · intro other member
    rcases List.mem_cons.mp (perm.mem_iff.mp member) with rfl | old
    · exact ⟨task, tasked⟩
    · exact sound.tasked other old

/-- An update is held in the slot of its data version when that slot has it. -/
theorem Sound.mem_occupied_home (sound : s.Sound latest) {dataVersion : Nat}
    (positive : dataVersion ≠ 0)
    (there : (s.entries (dataVersion % s.size)).dataVersion = dataVersion) :
    s.entries (dataVersion % s.size) ∈ s.occupied := by
  have used : (s.entries (dataVersion % s.size)).dataVersion ≠ 0 := there.symm ▸ positive
  exact mem_occupied.mpr ⟨⟨_, not_imp_comm.mp (sound.ring.vacant _) used, rfl⟩, used⟩

/-- The answer to an update that is held takes it off and decreases its task. -/
theorem Sound.remove_of_mem (sound : s.Sound latest) {entry : FSReplicaRPCResultEntry}
    (member : entry ∈ s.held) :
    ∃ after, s.rpcResultRingRemove entry.dataVersion = (.ok, after, descTaskWaitingRpcCount entry) ∧
      after.Sound latest ∧
      after.held = s.held.filter fun other => other.dataVersion ≠ entry.dataVersion := by
  have positive := sound.positive entry member
  unfold rpcResultRingRemove
  rcases List.mem_append.mp member with inRing | inQueue
  · obtain ⟨⟨slot, inside, found⟩, used⟩ := mem_occupied.mp inRing
    subst found
    have home := sound.ring.home slot used
    have apart : s.stop ≠ s.start := by
      intro same
      rw [slots_of_empty same.symm] at inside
      exact absurd inside List.not_mem_nil
    have others : ∀ other ∈ s.queue, other.dataVersion ≠ (s.entries slot).dataVersion :=
      fun other otherMember => (sound.apart inRing otherMember).symm
    have held : (s.answered slot).held =
        s.held.filter fun other => other.dataVersion ≠ (s.entries slot).dataVersion := by
      show (s.answered slot).occupied ++ s.queue = (s.occupied ++ s.queue).filter _
      rw [List.filter_append, filter_eq_self_of_apart others, sound.ring.occupied_answered used]
    rw [home, if_pos ⟨apart, rfl⟩]
    refine ⟨s.answered slot, rfl, ?_, held⟩
    exact sound.of_sublist (sound.ring.answered used) { sound.queue with }
      (held ▸ List.filter_sublist)
  · have others : ∀ other ∈ s.occupied, other.dataVersion ≠ entry.dataVersion :=
      fun other otherMember => sound.apart otherMember inQueue
    have absent : ¬ (s.stop ≠ s.start ∧
        (s.entries (entry.dataVersion % s.size)).dataVersion = entry.dataVersion) :=
      fun there => others _ (sound.mem_occupied_home positive there.2) there.2
    rw [if_neg absent, sound.queue.removeFromQueue_of_mem inQueue]
    refine ⟨_, rfl, ?_, ?_⟩
    · refine sound.of_sublist { sound.ring with }
        ⟨Chain.ascending_erase sound.queue.ascending _, rfl⟩ ?_
      exact List.Sublist.append_left List.filter_sublist _
    · show s.occupied ++ _ = (s.occupied ++ s.queue).filter _
      rw [List.filter_append, filter_eq_self_of_apart others]
      rfl

/-- An answer to an update that is not held is refused. -/
theorem Sound.remove_of_absent (sound : s.Sound latest) {dataVersion : Nat}
    (absent : ∀ entry ∈ s.held, entry.dataVersion ≠ dataVersion)
    (named : dataVersion ≠ 0 ∨ s.stop = s.start ∨ (s.entries 0).dataVersion ≠ 0) :
    s.rpcResultRingRemove dataVersion = (.enoent, s, []) := by
  have elsewhere : ¬ (s.stop ≠ s.start ∧
      (s.entries (dataVersion % s.size)).dataVersion = dataVersion) := by
    rintro ⟨apart, there⟩
    by_cases zero : dataVersion = 0
    · rw [zero, Nat.zero_mod] at there
      rcases named with positive | empty | used
      · exact positive zero
      · exact apart empty
      · exact used there
    · exact absent _ (List.mem_append_left _ (sound.mem_occupied_home zero there)) there
  unfold rpcResultRingRemove
  rw [if_neg elsewhere]
  exact removeFromQueue_of_absent fun entry member => absent entry (List.mem_append_right _ member)

theorem Sound.enough (sound : s.Sound latest) : Ring.distance s.size s.start s.stop ≤ s.size :=
  (Ring.distance_lt sound.ring.start sound.ring.stop).le

/-- Clearing the timeouts takes off updates that have expired: all of the ring, and those of
the queue up to the first that has not. -/
theorem Sound.clearTimeouts (sound : s.Sound latest) (currentTime : Nat) :
    ∃ taken, s.held.Perm (taken ++ (s.rpcResultInstanceClearTimeouts currentTime).1.held) ∧
      (s.rpcResultInstanceClearTimeouts currentTime).2 = taken.flatMap descTaskWaitingRpcCount ∧
      (∀ entry ∈ taken, entry.expires < currentTime) ∧
      (s.rpcResultInstanceClearTimeouts currentTime).1.Sound latest ∧
      (∀ entry ∈ (s.rpcResultInstanceClearTimeouts currentTime).1.occupied,
        currentTime ≤ entry.expires) ∧
      (s.rpcResultInstanceClearTimeouts currentTime).1.queue =
        s.queue.dropWhile fun entry => entry.expires < currentTime := by
  obtain ⟨taken, cleared⟩ := @clearSlots_cleared s latest
    (fun entry => decide (entry.expires < currentTime)) s.size sound.ring sound.enough
  unfold rpcResultInstanceClearTimeouts
  generalize clearSlots (fun entry => decide (entry.expires < currentTime)) s.size s = cleaned at *
  have parts := @List.takeWhile_append_dropWhile _
    (fun entry : FSReplicaRPCResultEntry => decide (entry.expires < currentTime)) s.queue
  have queueSound : cleaned.1.QueueSound := by
    refine ⟨?_, ?_⟩
    · rw [cleared.queue]
      exact sound.queue.ascending
    · rw [cleared.queue, cleared.tail]
      exact sound.queue.tail
  have left : (cleaned.1.rpcResultInstanceClearQueueTimeouts currentTime).1.held =
      cleaned.1.occupied ++ s.queue.dropWhile fun entry => entry.expires < currentTime := by
    show cleaned.1.occupied ++ cleaned.1.queue.dropWhile _ = _
    rw [cleared.queue]
  refine ⟨taken ++ s.queue.takeWhile fun entry => entry.expires < currentTime, ?_, ?_, ?_, ?_, ?_, ?_⟩
  · rw [left, held, cleared.occupied]
    have moved := List.perm_append_comm_assoc cleaned.1.occupied
      (s.queue.takeWhile fun entry => entry.expires < currentTime)
      (s.queue.dropWhile fun entry => entry.expires < currentTime)
    rw [parts] at moved
    rw [List.append_assoc, List.append_assoc]
    exact moved.append_left taken
  · show cleaned.2 ++ (cleaned.1.queue.takeWhile _).flatMap _ = _
    rw [cleared.log, cleared.queue, List.flatMap_append]
  · intro entry member
    rcases List.mem_append.mp member with inRing | inQueue
    · exact of_decide_eq_true (cleared.tested entry inRing)
    · have expired := List.mem_takeWhile_imp inQueue
      simpa using expired
  · refine sound.of_sublist { cleared.sound with } (queueSound.clearQueueTimeouts currentTime) ?_
    rw [left, held, cleared.occupied]
    exact (List.sublist_append_right _ _).append (List.dropWhile_sublist _)
  · refine cleared.sound.expires_le ?_
    intro apart
    simpa using cleared.stopped apart
  · show cleaned.1.queue.dropWhile _ = _
    rw [cleared.queue]

theorem occupied_of_empty (empty : s.start = s.stop) : s.occupied = [] := by
  rw [occupied, slots_of_empty empty]
  rfl

/-- Clearing all takes off what is held. -/
theorem Sound.clearAll (sound : s.Sound latest) :
    s.rpcResultInstanceClearAll.1.held = [] ∧
      s.rpcResultInstanceClearAll.2 = s.held.flatMap descTaskWaitingRpcCount ∧
      s.rpcResultInstanceClearAll.1.Sound latest := by
  have cleared : ∃ after : FSReplicaRPCResultInstance, after.RingSound latest ∧
      after.start = after.stop ∧ s.rpcResultInstanceClearAll.1 = { after with
        queue := []
        tail := none } ∧
      s.rpcResultInstanceClearAll.2 = s.held.flatMap descTaskWaitingRpcCount := by
    unfold rpcResultInstanceClearAll
    by_cases empty : s.start = s.stop
    · rw [if_pos empty]
      refine ⟨s, sound.ring, empty, rfl, ?_⟩
      rw [held, occupied_of_empty empty]
      rfl
    · obtain ⟨taken, cleared⟩ := @clearSlots_cleared s latest (fun _ => true) s.size sound.ring
        sound.enough
      have stopped : (clearSlots (fun _ => true) s.size s).1.start =
          (clearSlots (fun _ => true) s.size s).1.stop := by
        by_contra apart
        exact absurd (cleared.stopped apart) nofun
      rw [if_neg empty]
      refine ⟨_, cleared.sound, stopped, rfl, ?_⟩
      show _ ++ (clearSlots (fun _ => true) s.size s).1.queue.flatMap _ = _
      rw [held, cleared.occupied, occupied_of_empty stopped, List.append_nil, List.flatMap_append,
        cleared.log, cleared.queue]
  obtain ⟨after, ringSound, stopped, result, log⟩ := cleared
  have none : s.rpcResultInstanceClearAll.1.held = [] := by
    rw [result]
    show after.occupied ++ [] = []
    rw [occupied_of_empty stopped]
    rfl
  refine ⟨none, log, sound.of_sublist ?_ ?_ (none ▸ List.nil_sublist _)⟩
  · rw [result]
    exact { ringSound with }
  · rw [result]
    exact ⟨Ascending.nil _, rfl⟩

end FSReplicaRPCResultInstance

end FastStore.Replication
