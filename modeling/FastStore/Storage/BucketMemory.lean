import FastStore.Storage.IndexTable
import FastStore.Util.Linked
import FastStore.Util.System

/-!
# Hash buckets in memory

The buckets of the index are singly linked lists of block entries.  A delete looks
the entry and its predecessor up; when the entry is being reclaimed it waits, which
gives the lock up, and later unlinks the entry behind the predecessor of its lookup.
This module models the pointers, the pool of entry objects and the calls as atomic
steps between two points where a call holds the lock.
-/

namespace FastStore.Storage

open FastStore.Util

/-- What a delete call takes away from its block. -/
inductive DeleteRange where
  | slices (range : FSSliceSize)
  | block
  deriving DecidableEq

/-- A delete inside `pthread_cond_wait`, with the pointers of its lookup. -/
structure WaitingDelete where
  bkey : FSBlockKey
  range : DeleteRange
  ob : Nat
  previous : Option Nat
  deriving DecidableEq

/-- The table as it lies in memory.  An entry object is a number; `entries` and `next`
are its fields.  The pool has handed out the objects below `count`, those in `freed`
were given back and keep their last contents. -/
structure BucketMemory where
  capacity : Nat
  modifySallocator : Bool
  modifyUsedSpace : Bool
  buckets : Nat → Option Nat
  entries : Nat → OBEntry
  next : Nat → Option Nat
  count : Nat
  freed : List Nat
  sallocator : FSStorageAllocatorManager
  waiting : List WaitingDelete

/-- The steps of the callers.  The pool chooses the object of a new entry, or has none. -/
inductive BucketAction where
  | allocSlice (bkey : FSBlockKey) (object : Option Nat)
  | addSlice (isReclaim : Bool) (ob : Nat) (slice : OBSliceEntry)
  | reclaimLock (bkey : FSBlockKey)
  | reclaimUnlock (ob : Nat)
  | delete (isReclaim : Bool) (bkey : FSBlockKey) (range : DeleteRange)
  | resume (call : WaitingDelete)
  deriving DecidableEq

namespace BucketMemory

variable (s : BucketMemory)

def key (ob : Nat) : FSBlockKey := (s.entries ob).bkey

/-- `OB_INDEX_SET_BUCKET_AND_LOCK`. -/
def bucketIndex (bkey : FSBlockKey) : Nat := bkey.fsCalcBlockHashcode % s.capacity

/-- An entry that was created and not removed. -/
def InUse (ob : Nat) : Prop := ob < s.count ∧ ob ∉ s.freed

instance (ob : Nat) : Decidable (s.InUse ob) :=
  inferInstanceAs (Decidable (ob < s.count ∧ ob ∉ s.freed))

/-- The options of the table, for the functions that work on one block. -/
def options : OBHashtable := ⟨s.capacity, fun _ => [], s.modifySallocator, s.modifyUsedSpace⟩

/-- The loop of `get_ob_entry_ex`: the entry of the key and the predecessor.  A walk
over more entries than there are objects never ends. -/
def walk (bkey : FSBlockKey) : Nat → Nat → Option (Option Nat × Option Nat)
  | 0, _ => none
  | fuel + 1, previous =>
      match s.next previous with
      | none => some (none, some previous)
      | some ob =>
          match obIndexCompareBlockKey bkey (s.key ob) with
          | .eq => some (some ob, some previous)
          | .lt => some (none, some previous)
          | .gt => walk bkey fuel ob

/-- The search of `get_ob_entry_ex`. -/
def getObEntry (bkey : FSBlockKey) : Option (Option Nat × Option Nat) :=
  match s.buckets (s.bucketIndex bkey) with
  | none => some (none, none)
  | some first =>
      match obIndexCompareBlockKey bkey (s.key first) with
      | .eq => some (some first, none)
      | .lt => some (none, none)
      | .gt => s.walk bkey s.count first

/-- The second part of `get_ob_entry_ex`: a new entry behind `previous`.  Nothing sets
its `reclaiming_count`. -/
def createObEntry (bkey : FSBlockKey) (previous : Option Nat) (object : Nat) : BucketMemory :=
  let created := { s with
    entries := Function.update s.entries object { s.entries object with bkey := bkey, slices := [] }
    count := max s.count (object + 1)
    freed := s.freed.filter fun other => other ≠ object }
  match previous with
  | none =>
      { created with
        next := Function.update s.next object (s.buckets (s.bucketIndex bkey))
        buckets := Function.update s.buckets (s.bucketIndex bkey) (some object) }
  | some previous =>
      { created with
        next := Function.update (Function.update s.next object (s.next previous)) previous
          (some object) }

/-- `OB_INDEX_DELETE_OB_ENTRY`, for the bucket of `bkey`. -/
def deleteObEntry (bkey : FSBlockKey) (ob : Nat) (previous : Option Nat) : BucketMemory :=
  match previous with
  | none =>
      { s with
        buckets := Function.update s.buckets (s.bucketIndex bkey) (s.next ob)
        freed := ob :: s.freed }
  | some previous =>
      { s with
        next := Function.update s.next previous (s.next ob)
        freed := ob :: s.freed }

/-- Change the fields of an entry that are not about the list. -/
def setEntry (ob : Nat) (reclaimingCount : Nat) (slices : List OBSliceEntry) : BucketMemory :=
  { s with entries := Function.update s.entries ob ⟨s.key ob, reclaimingCount, slices⟩ }

variable (sl : UniqSkiplist OBSliceEntry.key)

/-- The slices left in an entry and the trunk bookkeeping after `delete_slices`. -/
def deleteRange (ob : Nat) (range : FSSliceSize) :
    Errno × Int × List OBSliceEntry × FSStorageAllocatorManager :=
  deleteSlices sl s.options (s.entries ob).slices range s.sallocator

/-- Whether a delete removes the entry too: always that of a block, else when no slice
is left. -/
def Removes (ob : Nat) : DeleteRange → Prop
  | .block => True
  | .slices range =>
      (s.deleteRange sl ob range).1 = .ok ∧ (s.deleteRange sl ob range).2.2.1 = []

instance (ob : Nat) (range : DeleteRange) : Decidable (s.Removes sl ob range) :=
  match range with
  | .block => .isTrue trivial
  | .slices range => inferInstanceAs (Decidable
      ((s.deleteRange sl ob range).1 = .ok ∧ (s.deleteRange sl ob range).2.2.1 = []))

/-- The slices of an entry leave the index and the trunks. -/
def deleteContents (ob : Nat) : DeleteRange → BucketMemory
  | .slices range =>
      { s.setEntry ob (s.entries ob).reclaimingCount (s.deleteRange sl ob range).2.2.1 with
        sallocator := (s.deleteRange sl ob range).2.2.2 }
  | .block =>
      { s with sallocator := deleteBlockSlices s.options (s.entries ob).slices s.sallocator }

/-- The delete calls behind `CHECK_AND_WAIT_RECLAIM_DONE`. -/
def finishDelete (bkey : FSBlockKey) (ob : Nat) (previous : Option Nat) (range : DeleteRange) :
    BucketMemory :=
  if s.Removes sl ob range then (s.deleteContents sl ob range).deleteObEntry bkey ob previous
  else s.deleteContents sl ob range

/-- When a step can be taken.  All operations on a block run in the data thread of the
block, so that no delete of a block begins while another one waits. -/
def Enabled : BucketAction → Prop
  | .allocSlice bkey object =>
      (s.getObEntry bkey).isSome ∧ ∀ ob ∈ object, ob ∈ s.freed ∨ ob = s.count
  | .addSlice isReclaim ob _ => isReclaim = true ∨ (s.entries ob).reclaimingCount = 0
  | .reclaimLock bkey => (s.getObEntry bkey).isSome
  | .reclaimUnlock ob => 0 < (s.entries ob).reclaimingCount
  | .delete _ bkey _ => (s.getObEntry bkey).isSome ∧ ∀ call ∈ s.waiting, call.bkey ≠ bkey
  | .resume call => call ∈ s.waiting ∧ (s.entries call.ob).reclaimingCount = 0

instance (action : BucketAction) : Decidable (s.Enabled action) :=
  match action with
  | .allocSlice bkey object => inferInstanceAs (Decidable
      ((s.getObEntry bkey).isSome ∧ ∀ ob ∈ object, ob ∈ s.freed ∨ ob = s.count))
  | .addSlice isReclaim ob _ => inferInstanceAs (Decidable
      (isReclaim = true ∨ (s.entries ob).reclaimingCount = 0))
  | .reclaimLock bkey => inferInstanceAs (Decidable ((s.getObEntry bkey).isSome = true))
  | .reclaimUnlock ob => inferInstanceAs (Decidable (0 < (s.entries ob).reclaimingCount))
  | .delete _ bkey _ => inferInstanceAs (Decidable
      ((s.getObEntry bkey).isSome ∧ ∀ call ∈ s.waiting, call.bkey ≠ bkey))
  | .resume call => inferInstanceAs (Decidable
      (call ∈ s.waiting ∧ (s.entries call.ob).reclaimingCount = 0))

/-- The memory after a step. -/
def after : BucketAction → BucketMemory
  -- `ob_index_alloc_slice_ex`
  | .allocSlice bkey object =>
      match s.getObEntry bkey, object with
      | some (none, previous), some object => s.createObEntry bkey previous object
      | _, _ => s
  -- `ob_index_add_slice_ex`
  | .addSlice _ ob slice =>
      let added := addSlice sl s.options (s.entries ob).slices slice s.sallocator
      { s.setEntry ob (s.entries ob).reclaimingCount added.2.2.1 with sallocator := added.2.2.2 }
  -- `ob_index_reclaim_lock`
  | .reclaimLock bkey =>
      match s.getObEntry bkey with
      | some (some ob, _) => s.setEntry ob ((s.entries ob).reclaimingCount + 1) (s.entries ob).slices
      | _ => s
  -- `ob_index_reclaim_unlock`
  | .reclaimUnlock ob =>
      s.setEntry ob ((s.entries ob).reclaimingCount - 1) (s.entries ob).slices
  -- `ob_index_delete_slices_ex` and `ob_index_delete_block_ex` up to the wait
  | .delete isReclaim bkey range =>
      match s.getObEntry bkey with
      | some (some ob, previous) =>
          if isReclaim = false ∧ 0 < (s.entries ob).reclaimingCount then
            { s with waiting := ⟨bkey, range, ob, previous⟩ :: s.waiting }
          else s.finishDelete sl bkey ob previous range
      | _ => s
  | .resume call =>
      let finished := s.finishDelete sl call.bkey call.ob call.previous call.range
      { finished with waiting := s.waiting.erase call }

/-! ## The shape of the buckets -/

/-- The nodes of each bucket: in strict key order, in the bucket they hash to, and
exactly the entries in use. -/
structure Shape (chains : Nat → List Nat) : Prop where
  linked : ∀ i, Linked s.next (s.buckets i) (chains i)
  ascending : ∀ i, Ascending s.key (chains i)
  home : ∀ i, ∀ ob ∈ chains i, s.bucketIndex (s.key ob) = i
  inUse : ∀ ob, (∃ i, ob ∈ chains i) ↔ s.InUse ob

/-- What a search for a key finds in a chain: the entry of the key, and the last entry in
front of its place. -/
def located (key : Nat → FSBlockKey) (bkey : FSBlockKey) (chain : List Nat) :
    Option Nat × Option Nat :=
  ((Chain.splitAt key bkey chain).2.head?.filter fun ob => key ob = bkey,
    (Chain.splitAt key bkey chain).1.getLast?)

section Search

variable {s} {bkey : FSBlockKey} {key : Nat → FSBlockKey} {first ob : Nat} {chain : List Nat}

theorem located_first_eq (same : key first = bkey) :
    located key bkey (first :: chain) = (some first, none) := by
  simp [located, Chain.splitAt, same]

theorem located_first_lt (above : bkey < key first) :
    located key bkey (first :: chain) = (none, none) := by
  simp [located, Chain.splitAt, above.not_gt, above.ne']

theorem located_second_eq (less : key first < bkey) (same : key ob = bkey) :
    located key bkey (first :: ob :: chain) = (some ob, some first) := by
  simp [located, Chain.splitAt, less, same]

theorem located_second_lt (less : key first < bkey) (above : bkey < key ob) :
    located key bkey (first :: ob :: chain) = (none, some first) := by
  simp [located, Chain.splitAt, less, above.not_gt, above.ne']

/-- An entry below the key that is followed by another one does not matter. -/
theorem located_cons_cons (less : key first < bkey) (further : key ob < bkey) :
    located key bkey (first :: ob :: chain) = located key bkey (ob :: chain) := by
  simp [located, Chain.splitAt, less, further]

/-- The loop ends and finds the place. -/
theorem walk_spec {fuel : Nat} (linked : Linked s.next (s.next first) chain)
    (less : s.key first < bkey) (enough : chain.length < fuel) :
    s.walk bkey fuel first = some (located s.key bkey (first :: chain)) := by
  induction chain generalizing fuel first with
  | nil =>
      cases fuel with
      | zero => cases enough
      | succ fuel =>
          have last : s.next first = none := linked
          simp [walk, last, located, Chain.splitAt, less]
  | cons ob rest ih =>
      cases fuel with
      | zero => cases enough
      | succ fuel =>
          have successor : s.next first = some ob := linked.1
          cases order : obIndexCompareBlockKey bkey (s.key ob) with
          | eq =>
              have same := obIndexCompareBlockKey_eq_iff.mp order
              rw [located_second_eq less same.symm]
              simp only [walk, successor, order]
          | lt =>
              have above := obIndexCompareBlockKey_lt_iff.mp order
              rw [located_second_lt less above]
              simp only [walk, successor, order]
          | gt =>
              have further := obIndexCompareBlockKey_gt_iff.mp order
              rw [located_cons_cons less further]
              simp only [walk, successor, order]
              exact ih linked.2 further (Nat.lt_of_succ_lt_succ enough)

/-- An entry that is found is the one of the key, behind its predecessor. -/
theorem split_of_located {previous : Option Nat}
    (result : located key bkey chain = (some ob, previous)) :
    ∃ before behind, chain = before ++ ob :: behind ∧ previous = before.getLast? ∧
      key ob = bkey := by
  obtain ⟨entry, last⟩ := Prod.mk.inj result
  obtain ⟨first, same⟩ := Option.filter_eq_some_iff.mp entry
  obtain ⟨behind, split⟩ := List.head?_eq_some_iff.mp first
  refine ⟨_, behind, ?_, last.symm, by simpa using same⟩
  rw [← split]
  exact (Chain.splitAt_append key bkey chain).symm

/-- A key that is not found is in no entry. -/
theorem absent_of_located {previous : Option Nat} (sorted : Ascending key chain)
    (result : located key bkey chain = (none, previous)) :
    (∀ ob ∈ (Chain.splitAt key bkey chain).2, bkey < key ob) ∧
      previous = (Chain.splitAt key bkey chain).1.getLast? := by
  obtain ⟨entry, last⟩ := Prod.mk.inj result
  refine ⟨?_, last.symm⟩
  have behindSorted : Ascending key (Chain.splitAt key bkey chain).2 :=
    sorted.sublist (List.dropWhile_sublist _)
  intro ob member
  have atLeast := Chain.le_key_of_mem_splitAt_snd sorted member
  refine lt_of_le_of_ne atLeast fun same => ?_
  cases split : (Chain.splitAt key bkey chain).2 with
  | nil =>
      rw [split] at member
      cases member
  | cons first rest =>
      rw [split] at entry member behindSorted
      have distinct : key first ≠ bkey := by simpa using entry
      have firstLe := Chain.le_key_of_mem_splitAt_snd sorted (split ▸ List.mem_cons_self)
      rcases List.mem_cons.mp member with rfl | later
      · exact distinct same.symm
      · have less := (Ascending.cons_iff.mp behindSorted).1 ob later
        exact absurd (same ▸ less) (not_lt.mpr firstLe)

end Search

namespace Shape

variable {s} {chains : Nat → List Nat} {bkey : FSBlockKey} {ob : Nat}

theorem mem_iff (shape : s.Shape chains) :
    ob ∈ chains (s.bucketIndex (s.key ob)) ↔ s.InUse ob := by
  rw [← shape.inUse ob]
  constructor
  · exact fun member => ⟨_, member⟩
  · rintro ⟨i, member⟩
    rw [shape.home i ob member]
    exact member

/-- A chain is no longer than the number of objects. -/
theorem length_le (shape : s.Shape chains) (i : Nat) : (chains i).length ≤ s.count := by
  have nodup := (shape.ascending i).nodup
  have inside : (chains i).toFinset ⊆ Finset.range s.count := by
    intro ob member
    rw [List.mem_toFinset] at member
    exact Finset.mem_range.mpr ((shape.inUse ob).mp ⟨i, member⟩).1
  have card := Finset.card_le_card inside
  rwa [List.toFinset_card_of_nodup nodup, Finset.card_range] at card

/-- A search ends and finds the place in the bucket. -/
theorem getObEntry_eq (shape : s.Shape chains) (bkey : FSBlockKey) :
    s.getObEntry bkey = some (located s.key bkey (chains (s.bucketIndex bkey))) := by
  have linked := shape.linked (s.bucketIndex bkey)
  have length := shape.length_le (s.bucketIndex bkey)
  unfold getObEntry
  cases chain : chains (s.bucketIndex bkey) with
  | nil =>
      rw [chain] at linked
      have empty : s.buckets (s.bucketIndex bkey) = none := linked
      rw [empty]
      rfl
  | cons first rest =>
      rw [chain] at linked length
      rw [linked.1]
      dsimp only
      cases order : obIndexCompareBlockKey bkey (s.key first) with
      | eq => rw [located_first_eq (obIndexCompareBlockKey_eq_iff.mp order).symm]
      | lt => rw [located_first_lt (obIndexCompareBlockKey_lt_iff.mp order)]
      | gt => exact walk_spec linked.2 (obIndexCompareBlockKey_gt_iff.mp order) length

/-- Fields that are not about the lists can change. -/
theorem of_same {after : BucketMemory} (shape : s.Shape chains) (next : after.next = s.next)
    (buckets : after.buckets = s.buckets) (key : after.key = s.key)
    (capacity : after.capacity = s.capacity) (count : after.count = s.count)
    (freed : after.freed = s.freed) : after.Shape chains := by
  constructor
  · rw [next, buckets]
    exact shape.linked
  · rw [key]
    exact shape.ascending
  · rw [key]
    simp only [bucketIndex, capacity]
    exact shape.home
  · simp only [InUse, count, freed]
    exact shape.inUse

/-- Nodes of different buckets differ. -/
theorem ne_of_bucket {i j : Nat} {other : Nat} (shape : s.Shape chains) (member : ob ∈ chains i)
    (elsewhere : other ∈ chains j) (distinct : j ≠ i) : other ≠ ob := by
  rintro rfl
  exact distinct ((shape.home j other elsewhere).symm.trans (shape.home i other member))

/-- Replacing the chain of one bucket. -/
theorem update {after : BucketMemory} {i : Nat} {chain : List Nat} (shape : s.Shape chains)
    (capacity : after.capacity = s.capacity)
    (key : ∀ ob, s.InUse ob → after.key ob = s.key ob)
    (buckets : ∀ j, j ≠ i → after.buckets j = s.buckets j)
    (next : ∀ j, j ≠ i → ∀ ob ∈ chains j, after.next ob = s.next ob)
    (linked : Linked after.next (after.buckets i) chain)
    (ascending : Ascending after.key chain)
    (home : ∀ ob ∈ chain, s.bucketIndex (after.key ob) = i)
    (inUse : ∀ ob, after.InUse ob ↔ ob ∈ chain ∨ s.InUse ob ∧ ob ∉ chains i) :
    after.Shape (Function.update chains i chain) := by
  have same : ∀ j, ∀ ob ∈ chains j, after.key ob = s.key ob := fun j ob member =>
    key ob ((shape.inUse ob).mp ⟨j, member⟩)
  constructor
  · intro j
    by_cases here : j = i
    · rw [here, Function.update_self]
      exact linked
    · rw [Function.update_of_ne here, buckets j here]
      exact (shape.linked j).congr (next j here)
  · intro j
    by_cases here : j = i
    · rw [here, Function.update_self]
      exact ascending
    · rw [Function.update_of_ne here]
      refine List.Pairwise.imp_of_mem (fun left right less => ?_) (shape.ascending j)
      rw [same j _ left, same j _ right]
      exact less
  · intro j ob member
    simp only [bucketIndex, capacity]
    by_cases here : j = i
    · rw [here, Function.update_self] at member
      rw [here]
      exact home ob member
    · rw [Function.update_of_ne here] at member
      rw [same j ob member]
      exact shape.home j ob member
  · intro ob
    rw [inUse ob, ← shape.inUse ob]
    constructor
    · rintro ⟨j, member⟩
      by_cases here : j = i
      · rw [here, Function.update_self] at member
        exact Or.inl member
      · rw [Function.update_of_ne here] at member
        refine Or.inr ⟨⟨j, member⟩, fun inBucket => ?_⟩
        exact shape.ne_of_bucket inBucket member here rfl
    · rintro (member | ⟨⟨j, member⟩, outside⟩)
      · refine ⟨i, ?_⟩
        rw [Function.update_self]
        exact member
      · have here : j ≠ i := by
          rintro rfl
          exact outside member
        refine ⟨j, ?_⟩
        rw [Function.update_of_ne here]
        exact member

end Shape

/-! ## Creating and removing entries -/

section Entries

variable {s} {chains : Nat → List Nat} {bkey : FSBlockKey} {ob object : Nat}
  {before behind : List Nat}

@[simp] theorem createObEntry_capacity (previous : Option Nat) :
    (s.createObEntry bkey previous object).capacity = s.capacity := by
  cases previous <;> rfl

@[simp] theorem createObEntry_waiting (previous : Option Nat) :
    (s.createObEntry bkey previous object).waiting = s.waiting := by
  cases previous <;> rfl

theorem createObEntry_key (previous : Option Nat) :
    (s.createObEntry bkey previous object).key = Function.update s.key object bkey := by
  funext ob
  by_cases same : ob = object
  · cases previous <;> simp [createObEntry, key, same]
  · cases previous <;> simp [createObEntry, key, same]

theorem createObEntry_inUse (fresh : object ∈ s.freed ∨ object = s.count)
    (bounded : ∀ ob ∈ s.freed, ob < s.count) (previous : Option Nat) :
    (s.createObEntry bkey previous object).InUse ob ↔ ob = object ∨ s.InUse ob := by
  have count : (s.createObEntry bkey previous object).count = max s.count (object + 1) := by
    cases previous <;> rfl
  have freed : (s.createObEntry bkey previous object).freed =
      s.freed.filter fun other => other ≠ object := by
    cases previous <;> rfl
  simp only [InUse, count, freed, List.mem_filter, decide_eq_true_eq, not_and, not_not]
  by_cases same : ob = object
  · simp [same]
  · have bound : ob < max s.count (object + 1) ↔ ob < s.count := by
      rcases fresh with used | new
      · have := bounded object used
        omega
      · omega
    simp [same, bound]

theorem createObEntry_bounded (bounded : ∀ ob ∈ s.freed, ob < s.count) (previous : Option Nat) :
    ∀ ob ∈ (s.createObEntry bkey previous object).freed,
      ob < (s.createObEntry bkey previous object).count := by
  intro ob member
  have kept : ob ∈ s.freed := by
    cases previous <;> exact (List.mem_filter.mp member).1
  have count : (s.createObEntry bkey previous object).count = max s.count (object + 1) := by
    cases previous <;> rfl
  rw [count]
  exact lt_max_of_lt_left (bounded ob kept)

/-- The chain of the bucket with the new entry in it. -/
theorem linked_createObEntry (linked : Linked s.next (s.buckets (s.bucketIndex bkey))
      (before ++ behind)) (nodup : (before ++ behind).Nodup) (fresh : object ∉ before ++ behind) :
    Linked (s.createObEntry bkey before.getLast? object).next
      ((s.createObEntry bkey before.getLast? object).buckets (s.bucketIndex bkey))
      (before ++ object :: behind) := by
  rcases List.eq_nil_or_concat' before with rfl | ⟨front, previous, rfl⟩
  · simp only [createObEntry, List.getLast?_nil, Function.update_self]
    exact linked.link_first fresh
  · rw [List.append_assoc] at linked nodup fresh ⊢
    simp only [createObEntry, List.getLast?_concat]
    exact linked.link_behind nodup fresh

/-- Creating an entry where it belongs. -/
theorem Shape.createObEntry (shape : s.Shape chains)
    (split : chains (s.bucketIndex bkey) = before ++ behind)
    (below : ∀ ob ∈ before, s.key ob < bkey) (above : ∀ ob ∈ behind, bkey < s.key ob)
    (fresh : object ∈ s.freed ∨ object = s.count) (bounded : ∀ ob ∈ s.freed, ob < s.count) :
    (s.createObEntry bkey before.getLast? object).Shape
      (Function.update chains (s.bucketIndex bkey) (before ++ object :: behind)) := by
  have unused : ¬ s.InUse object := by
    rintro ⟨bound, kept⟩
    rcases fresh with used | rfl
    · exact kept used
    · exact lt_irrefl _ bound
  have outside : ∀ i, object ∉ chains i := fun i member =>
    unused ((shape.inUse object).mp ⟨i, member⟩)
  have key : ∀ ob, ob ≠ object →
      (s.createObEntry bkey before.getLast? object).key ob = s.key ob := by
    intro ob distinct
    rw [createObEntry_key, Function.update_of_ne distinct]
  have own : (s.createObEntry bkey before.getLast? object).key object = bkey := by
    rw [createObEntry_key, Function.update_self]
  have linked := shape.linked (s.bucketIndex bkey)
  have ascending := shape.ascending (s.bucketIndex bkey)
  have home := shape.home (s.bucketIndex bkey)
  have absent := outside (s.bucketIndex bkey)
  rw [split] at linked ascending home absent
  apply shape.update
  · exact createObEntry_capacity _
  · intro ob used
    exact key ob fun same => unused (same ▸ used)
  · intro j elsewhere
    cases before.getLast? with
    | none => exact Function.update_of_ne elsewhere _ _
    | some previous => rfl
  · intro j elsewhere ob member
    have notObject : ob ≠ object := fun same => outside j (same ▸ member)
    cases last : before.getLast? with
    | none => exact Function.update_of_ne notObject _ _
    | some previous =>
        have inFront : previous ∈ chains (s.bucketIndex bkey) :=
          split ▸ List.mem_append_left _ (List.mem_of_getLast? last)
        have notPrevious := shape.ne_of_bucket inFront member elsewhere
        change Function.update (Function.update s.next object (s.next previous)) previous
          (some object) ob = s.next ob
        rw [Function.update_of_ne notPrevious, Function.update_of_ne notObject]
  · exact linked_createObEntry linked ascending.nodup absent
  · have same : ∀ ob ∈ before ++ behind,
        (s.createObEntry bkey before.getLast? object).key ob = s.key ob :=
      fun ob member => key ob fun equal => absent (equal ▸ member)
    have kept : Ascending (s.createObEntry bkey before.getLast? object).key (before ++ behind) := by
      refine List.Pairwise.imp_of_mem (fun left right less => ?_) ascending
      rw [same _ left, same _ right]
      exact less
    obtain ⟨front, back, across⟩ := Ascending.append_iff.mp kept
    refine Ascending.append_iff.mpr ⟨front, Ascending.cons_iff.mpr ⟨?_, back⟩, ?_⟩
    · intro ob member
      rw [own, same ob (List.mem_append_right _ member)]
      exact above ob member
    · intro ob member later laterMember
      rcases List.mem_cons.mp laterMember with rfl | inBehind
      · rw [own, same ob (List.mem_append_left _ member)]
        exact below ob member
      · exact across ob member later inBehind
  · intro ob member
    have cases : ob = object ∨ ob ∈ before ++ behind := by
      simpa [or_left_comm] using member
    rcases cases with rfl | kept
    · rw [own]
    · rw [key ob fun equal => absent (equal ▸ kept)]
      exact home ob kept
  · intro ob
    have inside : ob ∈ before ++ behind → s.InUse ob := fun member =>
      (shape.inUse ob).mp ⟨s.bucketIndex bkey, split ▸ member⟩
    rw [createObEntry_inUse fresh bounded, split]
    simp only [List.mem_append, List.mem_cons] at inside ⊢
    tauto

/-- Removing an entry behind the one in front of it. -/
theorem Shape.deleteObEntry (shape : s.Shape chains)
    (split : chains (s.bucketIndex bkey) = before ++ ob :: behind) :
    (s.deleteObEntry bkey ob before.getLast?).Shape
      (Function.update chains (s.bucketIndex bkey) (before ++ behind)) := by
  have linked := shape.linked (s.bucketIndex bkey)
  have ascending := shape.ascending (s.bucketIndex bkey)
  have home := shape.home (s.bucketIndex bkey)
  rw [split] at linked ascending home
  have rest : (before ++ behind).Sublist (before ++ ob :: behind) :=
    List.Sublist.append_left (List.sublist_cons_self ob behind) before
  have key : (s.deleteObEntry bkey ob before.getLast?).key = s.key := by
    cases before.getLast? <;> rfl
  apply shape.update
  · cases before.getLast? <;> rfl
  · exact fun other _ => congrFun key other
  · intro j elsewhere
    cases before.getLast? with
    | none => exact Function.update_of_ne elsewhere _ _
    | some previous => rfl
  · intro j elsewhere other member
    cases last : before.getLast? with
    | none => rfl
    | some previous =>
        have inFront : previous ∈ chains (s.bucketIndex bkey) :=
          split ▸ List.mem_append_left _ (List.mem_of_getLast? last)
        exact Function.update_of_ne (shape.ne_of_bucket inFront member elsewhere) _ _
  · rcases List.eq_nil_or_concat' before with rfl | ⟨front, previous, rfl⟩
    · simp only [BucketMemory.deleteObEntry, List.getLast?_nil, Function.update_self]
      exact linked.2
    · rw [List.append_assoc] at linked ⊢
      have nodup := ascending.nodup
      rw [List.append_assoc] at nodup
      simp only [BucketMemory.deleteObEntry, List.getLast?_concat]
      exact linked.unlink_behind nodup
  · rw [key]
    exact ascending.sublist rest
  · intro other member
    rw [key]
    exact home other (rest.subset member)
  · intro other
    have count : (s.deleteObEntry bkey ob before.getLast?).count = s.count := by
      cases before.getLast? <;> rfl
    have freed : (s.deleteObEntry bkey ob before.getLast?).freed = ob :: s.freed := by
      cases before.getLast? <;> rfl
    have inside : other ∈ before ++ ob :: behind → s.InUse other := fun member =>
      (shape.inUse other).mp ⟨s.bucketIndex bkey, split ▸ member⟩
    have once : other ∈ before ++ behind → other ≠ ob := by
      rintro member rfl
      have nodup := ascending.nodup
      exact (List.nodup_middle.mp nodup).notMem member
    rw [split]
    simp only [InUse, count, freed, List.mem_append, List.mem_cons] at inside once ⊢
    tauto

end Entries

end BucketMemory

end FastStore.Storage
