import FastStore.Storage.BucketMemory

/-!
# No block entry is lost from its bucket

A waiting delete unlinks its entry behind the predecessor it looked up before the
wait.  As long as that predecessor is still in front of the entry when the entry is
removed, every bucket stays a sorted list of exactly the entries in use.
-/

namespace FastStore.Storage

open FastStore.Util

namespace BucketMemory

variable (sl : UniqSkiplist OBSliceEntry.key) (s : BucketMemory)

/-- The recorded predecessor of a waiting delete is still the entry in front of its
entry; without a predecessor the entry is still the first of its bucket. -/
def InFront (call : WaitingDelete) : Prop :=
  match call.previous with
  | none => s.buckets (s.bucketIndex call.bkey) = some call.ob
  | some previous => s.InUse previous ∧ s.next previous = some call.ob

instance (call : WaitingDelete) : Decidable (s.InFront call) := by
  unfold InFront
  cases call.previous <;> infer_instance

/-- A delete that removes its entry after a wait finds its predecessor unchanged. -/
def Undisturbed : BucketAction → Prop
  | .resume call => s.Removes sl call.ob call.range → s.InFront call
  | _ => True

/-- The buckets are in shape, and each waiting delete is about an entry in use. -/
structure Invariant (chains : Nat → List Nat) : Prop where
  shape : s.Shape chains
  bounded : ∀ ob ∈ s.freed, ob < s.count
  waits : ∀ call ∈ s.waiting, s.InUse call.ob ∧ s.key call.ob = call.bkey
  apart : (s.waiting.map WaitingDelete.bkey).Nodup

namespace Invariant

variable {sl s} {chains : Nat → List Nat} {bkey : FSBlockKey} {ob : Nat}

/-- Steps that leave the lists and the calls alone. -/
theorem of_same {after : BucketMemory} (before : s.Invariant chains)
    (shape : after.Shape chains) (key : after.key = s.key) (count : after.count = s.count)
    (freed : after.freed = s.freed) (waiting : after.waiting = s.waiting) :
    after.Invariant chains := by
  constructor
  · exact shape
  · rw [freed, count]
    exact before.bounded
  · rw [waiting, key]
    simp only [InUse, count, freed]
    exact before.waits
  · rw [waiting]
    exact before.apart

theorem setEntry_key (reclaimingCount : Nat) (slices : List OBSliceEntry) :
    (s.setEntry ob reclaimingCount slices).key = s.key := by
  funext other
  by_cases same : other = ob
  · simp [setEntry, key, same]
  · simp [setEntry, key, same]

theorem setEntry (before : s.Invariant chains) (ob reclaimingCount : Nat)
    (slices : List OBSliceEntry) (sallocator : FSStorageAllocatorManager) :
    Invariant { s.setEntry ob reclaimingCount slices with sallocator := sallocator } chains := by
  have key : BucketMemory.key { s.setEntry ob reclaimingCount slices with
      sallocator := sallocator } = s.key := setEntry_key reclaimingCount slices
  exact before.of_same (before.shape.of_same rfl rfl key rfl rfl rfl) key rfl rfl rfl

theorem create (before : s.Invariant chains) {previous : Option Nat} {object : Nat}
    (absent : located s.key bkey (chains (s.bucketIndex bkey)) = (none, previous))
    (fresh : object ∈ s.freed ∨ object = s.count) :
    ∃ chains, (s.createObEntry bkey previous object).Invariant chains := by
  obtain ⟨above, last⟩ := absent_of_located (before.shape.ascending _) absent
  have whole := Chain.splitAt_append s.key bkey (chains (s.bucketIndex bkey))
  have below : ∀ ob ∈ (Chain.splitAt s.key bkey (chains (s.bucketIndex bkey))).1,
      s.key ob < bkey := fun ob member => Chain.key_lt_of_mem_splitAt_fst member
  have inUse : ∀ ob, (s.createObEntry bkey previous object).InUse ob ↔ ob = object ∨ s.InUse ob :=
    fun ob => createObEntry_inUse fresh before.bounded previous
  have shape := before.shape.createObEntry whole.symm below above fresh before.bounded
  rw [← last] at shape
  refine ⟨_, shape, ?_, ?_, ?_⟩
  · exact createObEntry_bounded before.bounded previous
  · rw [createObEntry_waiting]
    intro call member
    obtain ⟨used, same⟩ := before.waits call member
    have distinct : call.ob ≠ object := by
      rintro rfl
      rcases fresh with free | new
      · exact used.2 free
      · exact absurd used.1 (new ▸ lt_irrefl _)
    refine ⟨(inUse call.ob).mpr (Or.inr used), ?_⟩
    rw [createObEntry_key, Function.update_of_ne distinct]
    exact same
  · rw [createObEntry_waiting]
    exact before.apart

theorem deleteContents (before : s.Invariant chains) (ob : Nat) (range : DeleteRange) :
    (s.deleteContents sl ob range).Invariant chains := by
  cases range with
  | slices range => exact before.setEntry ob _ _ _
  | block => exact before.of_same (before.shape.of_same rfl rfl rfl rfl rfl rfl) rfl rfl rfl rfl

/-- Removing an entry that only one of the waiting calls is about, if any. -/
theorem deleteObEntry {front behind : List Nat} {waiting : List WaitingDelete}
    (before : s.Invariant chains)
    (split : chains (s.bucketIndex bkey) = front ++ ob :: behind)
    (others : ∀ call ∈ waiting, call ∈ s.waiting ∧ call.ob ≠ ob)
    (apart : (waiting.map WaitingDelete.bkey).Nodup) :
    ∃ chains, Invariant { s.deleteObEntry bkey ob front.getLast? with waiting := waiting }
      chains := by
  have shape := before.shape.deleteObEntry split
  have used : s.InUse ob := (before.shape.inUse ob).mp
    ⟨s.bucketIndex bkey, split ▸ List.mem_append_right _ List.mem_cons_self⟩
  have key : (s.deleteObEntry bkey ob front.getLast?).key = s.key := by
    cases front.getLast? <;> rfl
  have count : (s.deleteObEntry bkey ob front.getLast?).count = s.count := by
    cases front.getLast? <;> rfl
  have freed : (s.deleteObEntry bkey ob front.getLast?).freed = ob :: s.freed := by
    cases front.getLast? <;> rfl
  refine ⟨_, shape.of_same rfl rfl rfl rfl rfl rfl, ?_, ?_, apart⟩
  · intro other member
    simp only [freed, count] at member ⊢
    rcases List.mem_cons.mp member with rfl | earlier
    · exact used.1
    · exact before.bounded other earlier
  · intro call member
    obtain ⟨waits, distinct⟩ := others call member
    obtain ⟨callUsed, same⟩ := before.waits call waits
    refine ⟨⟨?_, ?_⟩, (congrFun key call.ob).trans same⟩
    · simp only [count]
      exact callUsed.1
    · simp only [freed, List.mem_cons, not_or]
      exact ⟨distinct, callUsed.2⟩

theorem finishDelete {previous : Option Nat} {range : DeleteRange} {waiting : List WaitingDelete}
    (before : s.Invariant chains)
    (place : s.Removes sl ob range → ∃ front behind,
      chains (s.bucketIndex bkey) = front ++ ob :: behind ∧ previous = front.getLast?)
    (others : ∀ call ∈ waiting, call ∈ s.waiting ∧ call.ob ≠ ob)
    (apart : (waiting.map WaitingDelete.bkey).Nodup) :
    ∃ chains, Invariant { s.finishDelete sl bkey ob previous range with waiting := waiting }
      chains := by
  have emptied : (s.deleteContents sl ob range).Invariant chains := before.deleteContents ob range
  have waitingSame : (s.deleteContents sl ob range).waiting = s.waiting := by
    cases range <;> rfl
  have bucketSame : (s.deleteContents sl ob range).bucketIndex bkey = s.bucketIndex bkey := by
    cases range <;> rfl
  unfold BucketMemory.finishDelete
  split_ifs with removes
  · obtain ⟨front, behind, split, rfl⟩ := place removes
    rw [← bucketSame] at split
    rw [← waitingSame] at others
    exact emptied.deleteObEntry split others apart
  · refine ⟨chains, emptied.shape.of_same rfl rfl rfl rfl rfl rfl, emptied.bounded, ?_, apart⟩
    intro call member
    refine emptied.waits call ?_
    rw [waitingSame]
    exact (others call member).1

/-- A search finds an entry of the bucket. -/
theorem split_of_getObEntry {previous : Option Nat} (before : s.Invariant chains)
    (found : s.getObEntry bkey = some (some ob, previous)) :
    ∃ front behind, chains (s.bucketIndex bkey) = front ++ ob :: behind ∧
      previous = front.getLast? ∧ s.key ob = bkey := by
  rw [before.shape.getObEntry_eq] at found
  exact split_of_located (Option.some.inj found)

theorem inUse_of_getObEntry {previous : Option Nat} (before : s.Invariant chains)
    (found : s.getObEntry bkey = some (some ob, previous)) : s.InUse ob ∧ s.key ob = bkey := by
  obtain ⟨front, behind, split, _, same⟩ := before.split_of_getObEntry found
  refine ⟨(before.shape.inUse ob).mp ⟨s.bucketIndex bkey, ?_⟩, same⟩
  rw [split]
  exact List.mem_append_right _ List.mem_cons_self

/-- The place of a waiting delete, read off the unchanged predecessor. -/
theorem split_of_inFront {call : WaitingDelete} (before : s.Invariant chains)
    (waits : call ∈ s.waiting) (inFront : s.InFront call) :
    ∃ front behind, chains (s.bucketIndex call.bkey) = front ++ call.ob :: behind ∧
      call.previous = front.getLast? := by
  obtain ⟨used, same⟩ := before.waits call waits
  have home : ∀ i, call.ob ∈ chains i → s.bucketIndex call.bkey = i := by
    intro i member
    rw [← same]
    exact before.shape.home i call.ob member
  unfold InFront at inFront
  cases recorded : call.previous with
  | none =>
      rw [recorded] at inFront
      have first := (before.shape.linked (s.bucketIndex call.bkey)).head_eq
      rw [inFront] at first
      obtain ⟨behind, split⟩ := List.head?_eq_some_iff.mp first.symm
      exact ⟨[], behind, split, rfl⟩
  | some previous =>
      rw [recorded] at inFront
      obtain ⟨previousUsed, points⟩ := inFront
      obtain ⟨i, member⟩ := (before.shape.inUse previous).mpr previousUsed
      obtain ⟨front, behind, split⟩ := (before.shape.linked i).split_of_next member points
      have here : call.ob ∈ chains i := by
        rw [split]
        exact List.mem_append_right _ (List.mem_cons_of_mem _ List.mem_cons_self)
      refine ⟨front ++ [previous], behind, ?_, List.getLast?_concat.symm⟩
      rw [home i here, split, List.append_assoc]
      rfl

theorem delete (before : s.Invariant chains) (isReclaim : Bool) (range : DeleteRange)
    (enabled : s.Enabled (.delete isReclaim bkey range)) :
    ∃ chains, (s.after sl (.delete isReclaim bkey range)).Invariant chains := by
  have alone := enabled.2
  simp only [after]
  split
  · rename_i ob previous found
    obtain ⟨used, same⟩ := before.inUse_of_getObEntry found
    split_ifs with waits
    · refine ⟨chains, before.shape.of_same rfl rfl rfl rfl rfl rfl, before.bounded, ?_, ?_⟩
      · intro call member
        rcases List.mem_cons.mp member with rfl | earlier
        · exact ⟨used, same⟩
        · exact before.waits call earlier
      · refine List.nodup_cons.mpr ⟨fun listed => ?_, before.apart⟩
        obtain ⟨call, member, equal⟩ := List.mem_map.mp listed
        exact alone call member equal
    · have finished : ∃ chains, Invariant { s.finishDelete sl bkey ob previous range with
          waiting := s.waiting } chains := by
        apply before.finishDelete
        · intro _
          obtain ⟨front, behind, split, last, _⟩ := before.split_of_getObEntry found
          exact ⟨front, behind, split, last⟩
        · intro call member
          refine ⟨member, fun equal => alone call member ?_⟩
          rw [← (before.waits call member).2, equal, same]
        · exact before.apart
      have waitingSame : (s.finishDelete sl bkey ob previous range).waiting = s.waiting := by
        unfold BucketMemory.finishDelete
        split_ifs <;> cases range <;> cases previous <;> rfl
      rw [← waitingSame] at finished
      exact finished
  · exact ⟨chains, before⟩

theorem resume (before : s.Invariant chains) {call : WaitingDelete} (waits : call ∈ s.waiting)
    (inFront : s.Removes sl call.ob call.range → s.InFront call) :
    ∃ chains, (s.after sl (.resume call)).Invariant chains := by
  have nodup : s.waiting.Nodup := List.Nodup.of_map _ before.apart
  apply before.finishDelete
  · exact fun removes => before.split_of_inFront waits (inFront removes)
  · intro other member
    obtain ⟨distinct, waiting⟩ := nodup.mem_erase_iff.mp member
    refine ⟨waiting, fun equal => distinct ?_⟩
    have sameKey : other.bkey = call.bkey := by
      rw [← (before.waits other waiting).2, ← (before.waits call waits).2, equal]
    exact List.inj_on_of_nodup_map before.apart waiting waits sameKey
  · exact before.apart.sublist (List.erase_sublist.map _)

theorem after (before : s.Invariant chains) {action : BucketAction}
    (undisturbed : s.Undisturbed sl action) (enabled : s.Enabled action) :
    ∃ chains, (s.after sl action).Invariant chains := by
  cases action with
  | allocSlice bkey object =>
      simp only [BucketMemory.after]
      split
      · rename_i previous object found
        rw [before.shape.getObEntry_eq] at found
        exact before.create (Option.some.inj found) (enabled.2 object rfl)
      · exact ⟨chains, before⟩
  | addSlice isReclaim ob slice => exact ⟨chains, before.setEntry ob _ _ _⟩
  | reclaimLock bkey =>
      simp only [BucketMemory.after]
      split
      · rename_i ob previous found
        exact ⟨chains, before.setEntry ob _ _ s.sallocator⟩
      · exact ⟨chains, before⟩
  | reclaimUnlock ob => exact ⟨chains, before.setEntry ob _ _ s.sallocator⟩
  | delete isReclaim bkey range => exact before.delete isReclaim range enabled
  | resume call => exact before.resume enabled.1 undisturbed

end Invariant

end BucketMemory

/-- The steps of the callers of the index. -/
def BucketStep (sl : UniqSkiplist OBSliceEntry.key) : StepRel BucketMemory BucketAction :=
  StepRel.ofNext BucketMemory.Enabled fun s action => s.after sl action

/-- A table after `ob_index_init_htable_ex`. -/
structure BucketInit (s : BucketMemory) : Prop where
  buckets : ∀ i, s.buckets i = none
  count : s.count = 0
  freed : s.freed = []
  waiting : s.waiting = []

theorem BucketInit.invariant {s : BucketMemory} (init : BucketInit s) :
    s.Invariant fun _ => [] := by
  constructor
  · constructor
    · exact init.buckets
    · exact fun _ => Ascending.nil _
    · intro i ob member
      cases member
    · intro ob
      simp [BucketMemory.InUse, init.count]
  · simp [init.freed]
  · simp [init.waiting]
  · simp [init.waiting]

/-- In every run in which a delete that removes its entry after a wait finds its
predecessor unchanged, each bucket is a list in strict key order that holds exactly the
entries created and not removed. -/
theorem buckets_hold_entries_in_use (sl : UniqSkiplist OBSliceEntry.key) {s : BucketMemory}
    (reached : Reachable ((BucketStep sl).guarded (BucketMemory.Undisturbed sl)) BucketInit s) :
    ∃ chains, s.Shape chains := by
  suffices invariant : ∃ chains, s.Invariant chains by
    obtain ⟨chains, invariant⟩ := invariant
    exact ⟨chains, invariant.shape⟩
  induction reached with
  | start init => exact ⟨_, init.invariant⟩
  | next action _ taken ih =>
      obtain ⟨chains, before⟩ := ih
      obtain ⟨undisturbed, enabled, rfl⟩ := taken
      exact before.after undisturbed enabled

/-- An empty table of one bucket, over one trunk. -/
def emptyBucket : BucketMemory :=
  ⟨1, true, true, fun _ => none, fun _ => ⟨⟨0, 0⟩, 0, []⟩, fun _ => none, 0, [],
    ⟨fun key => if key = ⟨0, 1⟩ then
        some ⟨⟨1, 1⟩, .none, 0, 0, [], 1024, 0, .none, 0⟩ else none,
      fun _ => ⟨[], ⟨[⟨0, 1⟩], 1, 1⟩, 0, [], 0, 0⟩, ⟨[], 0, 0⟩⟩, []⟩

theorem bucketInit_emptyBucket : BucketInit emptyBucket := ⟨fun _ => rfl, rfl, rfl, rfl⟩

/-- The delete that waits for the reclaimer of block 3, with block 1 in front of it. -/
def waitingForReclaim : WaitingDelete := ⟨⟨3, 0⟩, .block, 1, some 0⟩

/-- Blocks 1 and 3 are written, block 3 is being reclaimed and its delete waits. -/
def waitForReclaim : List BucketAction :=
  [.allocSlice ⟨1, 0⟩ (some 0), .allocSlice ⟨3, 0⟩ (some 1),
    .addSlice false 1 ⟨⟨3, 0⟩, .file, ⟨0, 8⟩, ⟨0, ⟨1, 1⟩, 0, 8⟩⟩,
    .reclaimLock ⟨3, 0⟩, .delete false ⟨3, 0⟩ .block]

/-- Block 4 is created during the wait, behind block 3. -/
theorem buckets_hold_entries_in_use_after_wait :
    ∃ s : BucketMemory,
      Reachable ((BucketStep (UniqSkiplist.level0 OBSliceEntry.key)).guarded
        (BucketMemory.Undisturbed (UniqSkiplist.level0 OBSliceEntry.key))) BucketInit s ∧
        s.freed = [1] ∧ s.count = 3 ∧ Linked s.next (s.buckets 0) [0, 2] ∧
        ∃ chains, s.Shape chains := by
  have initial : Reachable ((BucketStep (UniqSkiplist.level0 OBSliceEntry.key)).guarded
      (BucketMemory.Undisturbed (UniqSkiplist.level0 OBSliceEntry.key))) BucketInit emptyBucket :=
    .start bucketInit_emptyBucket
  have waiting := initial.followGuarded
    (waitForReclaim ++ [.allocSlice ⟨4, 0⟩ (some 2), .reclaimUnlock 1]) (by decide +kernel)
    (by simp [waitForReclaim, BucketMemory.Undisturbed])
  have resumed := waiting.actGuarded (.resume waitingForReclaim) (fun _ => by decide +kernel)
    (by decide +kernel)
  exact ⟨_, resumed, rfl, rfl, ⟨rfl, rfl, rfl⟩, buckets_hold_entries_in_use _ resumed⟩

/-- Block 2 is created during the wait, in front of block 3: the delete of block 3 takes
it out of the bucket too. -/
theorem entry_lost_behind_stale_predecessor :
    ¬ ∀ (sl : UniqSkiplist OBSliceEntry.key) (s : BucketMemory),
      Reachable (BucketStep sl) BucketInit s → ∃ chains, s.Shape chains := by
  intro claimed
  have initial : Reachable (BucketStep (UniqSkiplist.level0 OBSliceEntry.key)) BucketInit
      emptyBucket := .start bucketInit_emptyBucket
  have run := initial.follow
    (waitForReclaim ++ [.allocSlice ⟨2, 0⟩ (some 2), .reclaimUnlock 1,
      .resume waitingForReclaim]) (by decide +kernel)
  obtain ⟨chains, shape⟩ := claimed (UniqSkiplist.level0 OBSliceEntry.key) _ run
  have walked : chains 0 = [0] := (shape.linked 0).eq_of_linked ⟨rfl, rfl⟩
  obtain ⟨i, kept⟩ := (shape.inUse 2).mpr (by decide +kernel)
  obtain rfl : 0 = i := shape.home i 2 kept
  rw [walked] at kept
  exact absurd kept (by decide)

end FastStore.Storage
