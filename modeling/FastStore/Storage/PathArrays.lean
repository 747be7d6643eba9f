import FastStore.Util.BinarySearch
import FastStore.Storage.StorePathIndex

/-!
# The full and the available store paths

The allocators of the store paths stand in two arrays sorted by path index.  A move
between them is made on copies, and publishes the shortened source before the
allocator goes into the destination.  The arrays know an allocator by the index of its
path only, so they are a partition of the allocators as long as no two allocators
share a path.
-/

namespace FastStore.Storage

open FastStore.Util

/-- A pointer to an allocator: where it lies, and `path_info->store.index`. -/
structure TrunkAllocatorPtr where
  address : Nat
  index : Int
  deriving DecidableEq, Repr

/-- A `FSTrunkAllocatorPtrArray` up to its count. -/
abbrev FSTrunkAllocatorPtrArray := List TrunkAllocatorPtr

section Arrays

/-- The walk of `add_to_aptr_array`: the array before and from the place of the index,
or none where the index is there already. -/
def addPosition (index : Int) :
    FSTrunkAllocatorPtrArray → Option (FSTrunkAllocatorPtrArray × FSTrunkAllocatorPtrArray)
  | [] => some ([], [])
  | item :: rest =>
      if index < item.index then some ([], item :: rest)
      else if index = item.index then none
      else (addPosition index rest).map fun split => (item :: split.1, split.2)

/-- `add_to_aptr_array` on an array with room for `alloc` pointers. -/
def add_to_aptr_array (alloc : Nat) (aptr_array : FSTrunkAllocatorPtrArray)
    (allocator : TrunkAllocatorPtr) : Except Errno FSTrunkAllocatorPtrArray :=
  match addPosition allocator.index aptr_array with
  | none => .error .eexist
  | some split =>
      if alloc ≤ aptr_array.length then .error .enospc
      else .ok (split.1 ++ allocator :: split.2)

/-- `remove_from_aptr_array`. -/
def remove_from_aptr_array (aptr_array : FSTrunkAllocatorPtrArray)
    (allocator : TrunkAllocatorPtr) : Except Errno FSTrunkAllocatorPtrArray :=
  if aptr_array.any fun item => item.index = allocator.index then
    .ok (aptr_array.eraseP fun item => item.index = allocator.index)
  else .error .enoent

/-- `fs_move_allocator_ptr_array`: the source, the destination and the result.
`sourceCopy` and `destCopy` say whether there is memory for the copies. -/
def fs_move_allocator_ptr_array (alloc : Nat) (sourceCopy destCopy : Bool)
    (src_array dest_array : FSTrunkAllocatorPtrArray) (allocator : TrunkAllocatorPtr) :
    FSTrunkAllocatorPtrArray × FSTrunkAllocatorPtrArray × Errno :=
  if bsearch TrunkAllocatorPtr.index allocator.index src_array = none then
    (src_array, dest_array, .enoent)
  else if !sourceCopy then (src_array, dest_array, .enomem)
  else if !destCopy then (src_array, dest_array, .enomem)
  else
    match remove_from_aptr_array src_array allocator with
    | .error result => (src_array, dest_array, result)
    | .ok new_sarray =>
        -- the source is published before the destination is known to take the allocator
        match add_to_aptr_array alloc dest_array allocator with
        | .error result => (new_sarray, dest_array, result)
        | .ok new_darray => (new_sarray, new_darray, .ok)

/-- The two arrays of a context. -/
structure FSStorageAllocatorContext where
  full : FSTrunkAllocatorPtrArray
  avail : FSTrunkAllocatorPtrArray
  deriving DecidableEq

namespace FSStorageAllocatorContext

/-- One round of the loop of `init_allocator_ptr_array`; what `add_to_aptr_array` returns
is ignored. -/
def initOne (alloc : Nat) (available : TrunkAllocatorPtr → Bool)
    (ctx : FSStorageAllocatorContext) (allocator : TrunkAllocatorPtr) :
    FSStorageAllocatorContext :=
  if available allocator then
    match add_to_aptr_array alloc ctx.avail allocator with
    | .ok avail => { ctx with avail := avail }
    | .error _ => ctx
  else
    match add_to_aptr_array alloc ctx.full allocator with
    | .ok full => { ctx with full := full }
    | .error _ => ctx

/-- `init_allocator_ptr_array`, none where there is no memory for an array: then the
server does not start. -/
def init_allocator_ptr_array (alloc : Nat) (fullMemory availMemory : Bool)
    (available : TrunkAllocatorPtr → Bool) (all : List TrunkAllocatorPtr) :
    Option FSStorageAllocatorContext :=
  if !fullMemory then none
  else if !availMemory then none
  else some (all.foldl (initOne alloc available) ⟨[], []⟩)

/-- `fs_add_to_avail_aptr_array`. -/
def fs_add_to_avail_aptr_array (alloc : Nat) (sourceCopy destCopy : Bool)
    (ctx : FSStorageAllocatorContext) (allocator : TrunkAllocatorPtr) :
    FSStorageAllocatorContext × Errno :=
  let moved := fs_move_allocator_ptr_array alloc sourceCopy destCopy ctx.full ctx.avail allocator
  (⟨moved.1, moved.2.1⟩, moved.2.2)

/-- `fs_remove_from_avail_aptr_array`. -/
def fs_remove_from_avail_aptr_array (alloc : Nat) (sourceCopy destCopy : Bool)
    (ctx : FSStorageAllocatorContext) (allocator : TrunkAllocatorPtr) :
    FSStorageAllocatorContext × Errno :=
  let moved := fs_move_allocator_ptr_array alloc sourceCopy destCopy ctx.avail ctx.full allocator
  (⟨moved.2.1, moved.1⟩, moved.2.2)

/-- Both arrays are strictly sorted by path index, and every one of the allocators is in
exactly one of them. -/
structure Partition (all : List TrunkAllocatorPtr) (ctx : FSStorageAllocatorContext) : Prop where
  fullSorted : Ascending TrunkAllocatorPtr.index ctx.full
  availSorted : Ascending TrunkAllocatorPtr.index ctx.avail
  disjoint : ctx.full.Disjoint ctx.avail
  union : ∀ allocator, allocator ∈ ctx.full ∨ allocator ∈ ctx.avail ↔ allocator ∈ all

end FSStorageAllocatorContext

end Arrays

/-- The allocators of a server: those of the write cache paths and those of the store
paths.  The arrays of both contexts come from one pool. -/
structure StorageAllocators where
  write_cache : List TrunkAllocatorPtr
  store_path : List TrunkAllocatorPtr

namespace StorageAllocators

/-- The room of an array of the pool. -/
def alloc (allocators : StorageAllocators) : Nat :=
  max allocators.write_cache.length allocators.store_path.length

/-- `init_allocator_context`: an allocator for each path, one after another in the memory
from `base` on. -/
def init_allocator_context (base : Nat) (indexes : List Int) : List TrunkAllocatorPtr :=
  (indexes.zipIdx base).map fun entry => ⟨entry.2, entry.1⟩

/-- The part of `storage_allocator_init` that makes the allocators. -/
def storage_allocator_init (indexes : List Int × List Int) : StorageAllocators where
  write_cache := init_allocator_context 0 indexes.1
  store_path := init_allocator_context indexes.1.length indexes.2

/-- A call on the store path context. -/
inductive PathArrayCall where
  | init (fullMemory availMemory : Bool) (available : TrunkAllocatorPtr → Bool)
  | addToAvail (sourceCopy destCopy : Bool) (allocator : TrunkAllocatorPtr)
  | removeFromAvail (sourceCopy destCopy : Bool) (allocator : TrunkAllocatorPtr)

/-- The allocator of a move is one of the server's; there is no move before the arrays
are initialized. -/
def Enabled (allocators : StorageAllocators) (ctx : Option FSStorageAllocatorContext) :
    PathArrayCall → Prop
  | .init _ _ _ => True
  | .addToAvail _ _ allocator =>
      ctx.isSome ∧ allocator ∈ allocators.write_cache ++ allocators.store_path
  | .removeFromAvail _ _ allocator =>
      ctx.isSome ∧ allocator ∈ allocators.write_cache ++ allocators.store_path

instance (allocators : StorageAllocators) :
    ∀ ctx call, Decidable (allocators.Enabled ctx call)
  | _, .init _ _ _ => .isTrue trivial
  | ctx, .addToAvail _ _ allocator => inferInstanceAs (Decidable
      (ctx.isSome ∧ allocator ∈ allocators.write_cache ++ allocators.store_path))
  | ctx, .removeFromAvail _ _ allocator => inferInstanceAs (Decidable
      (ctx.isSome ∧ allocator ∈ allocators.write_cache ++ allocators.store_path))

/-- What a call leaves. -/
def next (allocators : StorageAllocators) (ctx : Option FSStorageAllocatorContext) :
    PathArrayCall → Option FSStorageAllocatorContext
  | .init fullMemory availMemory available =>
      FSStorageAllocatorContext.init_allocator_ptr_array allocators.alloc fullMemory availMemory
        available allocators.store_path
  | .addToAvail sourceCopy destCopy allocator =>
      ctx.map fun ctx =>
        (ctx.fs_add_to_avail_aptr_array allocators.alloc sourceCopy destCopy allocator).1
  | .removeFromAvail sourceCopy destCopy allocator =>
      ctx.map fun ctx =>
        (ctx.fs_remove_from_avail_aptr_array allocators.alloc sourceCopy destCopy allocator).1

/-- The calls on the store path context, in any order. -/
def step (allocators : StorageAllocators) :
    StepRel (Option FSStorageAllocatorContext) PathArrayCall :=
  .ofNext allocators.Enabled allocators.next

/-- The context after some calls, the first of which was a successful
`init_allocator_ptr_array`. -/
def Reached (allocators : StorageAllocators) (ctx : FSStorageAllocatorContext) : Prop :=
  Reachable allocators.step (fun state => state = none) (some ctx)

/-- A move that fails for any reason other than memory leaves both arrays. -/
def FailedMoveKeeps (allocators : StorageAllocators) (ctx : FSStorageAllocatorContext) : Prop :=
  ∀ sourceCopy destCopy, ∀ allocator ∈ allocators.write_cache ++ allocators.store_path,
    ∀ moved ∈ [ctx.fs_add_to_avail_aptr_array allocators.alloc sourceCopy destCopy allocator,
      ctx.fs_remove_from_avail_aptr_array allocators.alloc sourceCopy destCopy allocator],
    moved.2 ≠ .ok → moved.2 ≠ .enomem → moved.1 = ctx

end StorageAllocators

section Arrays

variable {alloc : Nat} {array : FSTrunkAllocatorPtrArray} {allocator : TrunkAllocatorPtr}

/-- The walk stops at the place of the index, or at the index itself. -/
theorem addPosition_spec {index : Int} (sorted : Ascending TrunkAllocatorPtr.index array) :
    addPosition index array =
      if array.any fun item => item.index = index then none
      else some (Chain.splitAt TrunkAllocatorPtr.index index array) := by
  induction array with
  | nil => rfl
  | cons head tail ih =>
      have parts := Ascending.cons_iff.mp sorted
      rw [addPosition]
      split
      · rename_i below
        have apart : ∀ item ∈ head :: tail, ¬ item.index = index := by
          intro item member same
          cases List.mem_cons.mp member with
          | inl first => exact absurd (first ▸ same) below.ne'
          | inr later => exact absurd same (below.trans (parts.1 item later)).ne'
        rw [if_neg (by simpa using apart)]
        simp [Chain.splitAt, below.le]
      · split
        · rename_i same
          simp [same]
        · rename_i notBelow notSame
          have above : head.index < index := by omega
          rw [ih parts.2]
          by_cases present : tail.any fun item => item.index = index
          · simp [present]
          · simp [present, above.ne, Chain.splitAt, above]

theorem add_to_aptr_array_of_mem (sorted : Ascending TrunkAllocatorPtr.index array)
    {item : TrunkAllocatorPtr} (member : item ∈ array) (same : item.index = allocator.index) :
    add_to_aptr_array alloc array allocator = .error .eexist := by
  have present : array.any fun item => item.index = allocator.index := by
    simpa using ⟨item, member, same⟩
  rw [add_to_aptr_array, addPosition_spec sorted, if_pos present]

theorem add_to_aptr_array_of_fresh (sorted : Ascending TrunkAllocatorPtr.index array)
    (fresh : ∀ item ∈ array, item.index ≠ allocator.index) (room : array.length < alloc) :
    add_to_aptr_array alloc array allocator =
      .ok (Chain.insert TrunkAllocatorPtr.index allocator array) := by
  rw [add_to_aptr_array, addPosition_spec sorted, if_neg (by simpa using fresh)]
  exact if_neg (not_le.mpr room)

theorem remove_from_aptr_array_of_mem (sorted : Ascending TrunkAllocatorPtr.index array)
    {item : TrunkAllocatorPtr} (member : item ∈ array) (same : item.index = allocator.index) :
    remove_from_aptr_array array allocator =
      .ok (Chain.erase TrunkAllocatorPtr.index allocator.index array) := by
  obtain ⟨before, behind, rfl⟩ := List.append_of_mem member
  have present : (before ++ item :: behind).any fun item => item.index = allocator.index := by
    simpa using Or.inr (Or.inl same)
  have apart : ∀ other ∈ before, ¬ other.index = allocator.index := by
    intro other earlier
    rw [← same]
    exact ((Ascending.append_iff.mp sorted).2.2 other earlier item List.mem_cons_self).ne
  rw [remove_from_aptr_array, if_pos present, ← same, Chain.erase_middle sorted, same,
    List.eraseP_append_right _ (by simpa using apart),
    List.eraseP_cons_of_pos (by simpa using same)]

/-- A move between sorted arrays: it takes the allocator over, or it leaves both arrays,
provided the source has no other allocator of that path and the destination has none. -/
theorem fs_move_allocator_ptr_array_spec {src dest : FSTrunkAllocatorPtrArray}
    (srcSorted : Ascending TrunkAllocatorPtr.index src)
    (destSorted : Ascending TrunkAllocatorPtr.index dest)
    (own : ∀ item ∈ src, item.index = allocator.index → item = allocator)
    (fresh : allocator ∈ src → ∀ item ∈ dest, item.index ≠ allocator.index)
    (room : allocator ∈ src → dest.length < alloc) (sourceCopy destCopy : Bool) :
    (allocator ∈ src ∧
      fs_move_allocator_ptr_array alloc sourceCopy destCopy src dest allocator =
        (Chain.erase TrunkAllocatorPtr.index allocator.index src,
          Chain.insert TrunkAllocatorPtr.index allocator dest, .ok)) ∨
      ∃ result, result ≠ .ok ∧
        fs_move_allocator_ptr_array alloc sourceCopy destCopy src dest allocator =
          (src, dest, result) := by
  cases found : bsearch TrunkAllocatorPtr.index allocator.index src with
  | none => exact .inr ⟨.enoent, nofun, if_pos found⟩
  | some item =>
      have some : (bsearch TrunkAllocatorPtr.index allocator.index src).isSome := by
        rw [found]
        rfl
      obtain ⟨item, member, same⟩ := (bsearch_isSome_iff srcSorted).mp some
      obtain rfl := own item member same
      rw [fs_move_allocator_ptr_array, if_neg (by rw [found]; exact nofun)]
      cases sourceCopy with
      | false => exact .inr ⟨.enomem, nofun, rfl⟩
      | true =>
          cases destCopy with
          | false => exact .inr ⟨.enomem, nofun, rfl⟩
          | true =>
              refine .inl ⟨member, ?_⟩
              rw [remove_from_aptr_array_of_mem srcSorted member rfl,
                add_to_aptr_array_of_fresh destSorted (fresh member) (room member)]
              rfl

namespace FSStorageAllocatorContext

variable {all : List TrunkAllocatorPtr} {ctx : FSStorageAllocatorContext}

/-- The roles of the two arrays can be exchanged. -/
theorem Partition.swap (parts : ctx.Partition all) :
    Partition all ⟨ctx.avail, ctx.full⟩ where
  fullSorted := parts.availSorted
  availSorted := parts.fullSorted
  disjoint := parts.disjoint.symm
  union := fun allocator => or_comm.trans (parts.union allocator)

theorem Partition.avail_length_lt (parts : ctx.Partition all) (member : allocator ∈ ctx.full) :
    ctx.avail.length < all.length := by
  have nodup : (allocator :: ctx.avail).Nodup :=
    List.nodup_cons.mpr ⟨parts.disjoint member, parts.availSorted.nodup⟩
  have subset : allocator :: ctx.avail ⊆ all := by
    intro item listed
    apply (parts.union item).mp
    cases List.mem_cons.mp listed with
    | inl same => exact .inl (same ▸ member)
    | inr later => exact .inr later
  exact (nodup.subperm subset).length_le

/-- Taking an allocator from the full array to the other. -/
theorem Partition.moved (parts : ctx.Partition all) (member : allocator ∈ ctx.full)
    (fresh : ∀ item ∈ ctx.avail, item.index ≠ allocator.index) :
    Partition all ⟨Chain.erase TrunkAllocatorPtr.index allocator.index ctx.full,
      Chain.insert TrunkAllocatorPtr.index allocator ctx.avail⟩ where
  fullSorted := Chain.ascending_erase parts.fullSorted _
  availSorted := Chain.ascending_insert parts.availSorted fresh
  disjoint := by
    intro item inFull inAvail
    have kept := Chain.mem_erase.mp inFull
    cases Chain.mem_insert.mp inAvail with
    | inl same => exact kept.2 (by rw [same])
    | inr stayed => exact parts.disjoint kept.1 stayed
  union := by
    intro item
    rw [← parts.union item, Chain.mem_erase, Chain.mem_insert]
    constructor
    · rintro (kept | same | stayed)
      · exact .inl kept.1
      · exact .inl (same ▸ member)
      · exact .inr stayed
    · rintro (listed | listed)
      · by_cases same : item.index = allocator.index
        · exact .inr (.inl (parts.fullSorted.eq_of_key_eq listed member same))
        · exact .inl ⟨listed, same⟩
      · exact .inr (.inr listed)

/-- A new allocator goes into the full array. -/
theorem Partition.added (parts : ctx.Partition all)
    (fresh : ∀ item ∈ all, item.index ≠ allocator.index) :
    Partition (all ++ [allocator])
      { ctx with full := Chain.insert TrunkAllocatorPtr.index allocator ctx.full } where
  fullSorted := Chain.ascending_insert parts.fullSorted fun item member =>
    fresh item ((parts.union item).mp (.inl member))
  availSorted := parts.availSorted
  disjoint := by
    intro item inFull inAvail
    cases Chain.mem_insert.mp inFull with
    | inl same => exact fresh item ((parts.union item).mp (.inr inAvail)) (by rw [same])
    | inr stayed => exact parts.disjoint stayed inAvail
  union := by
    intro item
    have known := parts.union item
    rw [Chain.mem_insert, List.mem_append, List.mem_singleton, ← known]
    tauto

/-- The three ways a call can end: as it began, or with an allocator moved one way or the
other. -/
theorem Partition.addToAvail (parts : ctx.Partition all) (room : all.length ≤ alloc)
    (alone : ∀ item ∈ all, item.index = allocator.index → item = allocator)
    (sourceCopy destCopy : Bool) :
    let moved := ctx.fs_add_to_avail_aptr_array alloc sourceCopy destCopy allocator
    moved.1.Partition all ∧ (moved.2 ≠ .ok → moved.1 = ctx) := by
  have own : ∀ item ∈ ctx.full, item.index = allocator.index → item = allocator :=
    fun item member => alone item ((parts.union item).mp (.inl member))
  have fresh : allocator ∈ ctx.full → ∀ item ∈ ctx.avail, item.index ≠ allocator.index := by
    intro member item listed same
    have equal := alone item ((parts.union item).mp (.inr listed)) same
    exact parts.disjoint member (equal ▸ listed)
  have enough : allocator ∈ ctx.full → ctx.avail.length < alloc :=
    fun member => (parts.avail_length_lt member).trans_le room
  have spec := fs_move_allocator_ptr_array_spec parts.fullSorted parts.availSorted own fresh
    enough sourceCopy destCopy
  dsimp only [fs_add_to_avail_aptr_array]
  rcases spec with ⟨member, moved⟩ | ⟨result, failed, moved⟩
  · rw [moved]
    exact ⟨parts.moved member (fresh member), fun failed => absurd rfl failed⟩
  · rw [moved]
    exact ⟨parts, fun _ => rfl⟩

theorem Partition.removeFromAvail (parts : ctx.Partition all) (room : all.length ≤ alloc)
    (alone : ∀ item ∈ all, item.index = allocator.index → item = allocator)
    (sourceCopy destCopy : Bool) :
    let moved := ctx.fs_remove_from_avail_aptr_array alloc sourceCopy destCopy allocator
    moved.1.Partition all ∧ (moved.2 ≠ .ok → moved.1 = ctx) := by
  have swapped := parts.swap.addToAvail room alone sourceCopy destCopy
  refine ⟨swapped.1.swap, fun failed => ?_⟩
  have same := swapped.2 failed
  exact congrArg (fun other : FSStorageAllocatorContext =>
    (⟨other.avail, other.full⟩ : FSStorageAllocatorContext)) same

theorem Partition.initOne (parts : ctx.Partition all) (room : all.length < alloc)
    (fresh : ∀ item ∈ all, item.index ≠ allocator.index)
    (available : TrunkAllocatorPtr → Bool) :
    (ctx.initOne alloc available allocator).Partition (all ++ [allocator]) := by
  have fullNodup := parts.fullSorted.nodup
  rw [FSStorageAllocatorContext.initOne]
  split
  · have freshAvail : ∀ item ∈ ctx.avail, item.index ≠ allocator.index :=
      fun item member => fresh item ((parts.union item).mp (.inr member))
    have short : ctx.avail.length < alloc :=
      (parts.availSorted.nodup.subperm fun item member =>
        (parts.union item).mp (.inr member)).length_le.trans_lt room
    rw [add_to_aptr_array_of_fresh parts.availSorted freshAvail short]
    exact (parts.swap.added fresh).swap
  · have freshFull : ∀ item ∈ ctx.full, item.index ≠ allocator.index :=
      fun item member => fresh item ((parts.union item).mp (.inl member))
    have short : ctx.full.length < alloc :=
      (fullNodup.subperm fun item member =>
        (parts.union item).mp (.inl member)).length_le.trans_lt room
    rw [add_to_aptr_array_of_fresh parts.fullSorted freshFull short]
    exact parts.added fresh

/-- The loop of the initialization, from the allocators that are placed already. -/
theorem Partition.init {placed rest : List TrunkAllocatorPtr} (parts : ctx.Partition placed)
    (room : (placed ++ rest).length ≤ alloc)
    (apart : ((placed ++ rest).map TrunkAllocatorPtr.index).Nodup)
    (available : TrunkAllocatorPtr → Bool) :
    (rest.foldl (FSStorageAllocatorContext.initOne alloc available) ctx).Partition
      (placed ++ rest) := by
  induction rest generalizing placed ctx with
  | nil => simpa using parts
  | cons head tail ih =>
      have split : placed ++ head :: tail = (placed ++ [head]) ++ tail := by simp
      have short : placed.length < alloc := by
        rw [List.length_append, List.length_cons] at room
        omega
      have fresh : ∀ item ∈ placed, item.index ≠ head.index := by
        intro item member same
        rw [List.map_append, List.map_cons, List.nodup_append] at apart
        exact apart.2.2 item.index (List.mem_map_of_mem member) head.index
          List.mem_cons_self same
      rw [split] at room apart ⊢
      exact ih (parts.initOne short fresh available) room apart

theorem Partition.empty : Partition [] ⟨[], []⟩ where
  fullSorted := .nil _
  availSorted := .nil _
  disjoint := List.disjoint_nil_left _
  union := by simp

/-- Where every allocator is available, none is put into the full array. -/
theorem foldl_initOne_full (rest : List TrunkAllocatorPtr) :
    (rest.foldl (FSStorageAllocatorContext.initOne alloc fun _ => true) ctx).full = ctx.full := by
  induction rest generalizing ctx with
  | nil => rfl
  | cons head tail ih =>
      rw [List.foldl_cons, ih, FSStorageAllocatorContext.initOne, if_pos rfl]
      split <;> rfl

end FSStorageAllocatorContext

end Arrays

namespace StorageAllocators

variable {allocators : StorageAllocators} {ctx : FSStorageAllocatorContext}

/-- No two store paths share an index, and no write cache path has the index of a store
path. -/
structure Distinct (allocators : StorageAllocators) : Prop where
  store_path : (allocators.store_path.map TrunkAllocatorPtr.index).Nodup
  write_cache : ∀ item ∈ allocators.write_cache, ∀ other ∈ allocators.store_path,
    item.index ≠ other.index

theorem length_le_alloc (allocators : StorageAllocators) :
    allocators.store_path.length ≤ allocators.alloc :=
  le_max_right _ _

theorem Distinct.alone (distinct : allocators.Distinct) {allocator : TrunkAllocatorPtr}
    (known : allocator ∈ allocators.write_cache ++ allocators.store_path) :
    ∀ item ∈ allocators.store_path, item.index = allocator.index → item = allocator := by
  intro item member same
  cases List.mem_append.mp known with
  | inl cache => exact absurd same.symm (distinct.write_cache allocator cache item member)
  | inr store => exact List.inj_on_of_nodup_map distinct.store_path member store same

theorem Distinct.init (distinct : allocators.Distinct) {fullMemory availMemory : Bool}
    {available : TrunkAllocatorPtr → Bool}
    (started : FSStorageAllocatorContext.init_allocator_ptr_array allocators.alloc fullMemory
      availMemory available allocators.store_path = some ctx) :
    ctx.Partition allocators.store_path := by
  cases fullMemory with
  | false => cases started
  | true =>
      cases availMemory with
      | false => cases started
      | true =>
          obtain rfl := Option.some.inj started
          exact FSStorageAllocatorContext.Partition.empty.init
            allocators.length_le_alloc distinct.store_path available

/-- One call keeps the partition. -/
theorem Distinct.step (distinct : allocators.Distinct)
    {state after : Option FSStorageAllocatorContext} {call : PathArrayCall}
    (kept : ∀ ctx, state = some ctx → ctx.Partition allocators.store_path)
    (taken : allocators.step state call after) :
    ∀ ctx, after = some ctx → ctx.Partition allocators.store_path := by
  obtain ⟨possible, rfl⟩ := taken
  intro ctx result
  cases call with
  | init fullMemory availMemory available => exact distinct.init result
  | addToAvail sourceCopy destCopy allocator =>
      obtain ⟨before, read, rfl⟩ := Option.map_eq_some_iff.mp result
      exact ((kept before read).addToAvail allocators.length_le_alloc
        (distinct.alone possible.2) sourceCopy destCopy).1
  | removeFromAvail sourceCopy destCopy allocator =>
      obtain ⟨before, read, rfl⟩ := Option.map_eq_some_iff.mp result
      exact ((kept before read).removeFromAvail allocators.length_le_alloc
        (distinct.alone possible.2) sourceCopy destCopy).1

theorem Distinct.partition (distinct : allocators.Distinct) (reached : allocators.Reached ctx) :
    ctx.Partition allocators.store_path :=
  @Reachable.invariant _ _ allocators.step (fun state => state = none)
    (fun state => ∀ ctx, state = some ctx → ctx.Partition allocators.store_path)
    (fun _ start _ isSome => absurd (start.symm.trans isSome) nofun)
    (fun _ _ _ kept taken => distinct.step kept taken) _ reached ctx rfl

theorem Distinct.failedMoveKeeps (distinct : allocators.Distinct)
    (reached : allocators.Reached ctx) : allocators.FailedMoveKeeps ctx := by
  have parts := distinct.partition reached
  intro sourceCopy destCopy allocator known moved listed failed _
  have alone := distinct.alone known
  cases List.mem_cons.mp listed with
  | inl added =>
      subst added
      exact (parts.addToAvail allocators.length_le_alloc alone sourceCopy destCopy).2 failed
  | inr removed =>
      obtain rfl := List.mem_singleton.mp removed
      exact (parts.removeFromAvail allocators.length_le_alloc alone sourceCopy destCopy).2 failed

/-- The context after an initialization that finds every path available. -/
def allAvailable (allocators : StorageAllocators) : FSStorageAllocatorContext :=
  allocators.store_path.foldl
    (FSStorageAllocatorContext.initOne allocators.alloc fun _ => true) ⟨[], []⟩

theorem allAvailable_reached (allocators : StorageAllocators) :
    allocators.Reached allocators.allAvailable := by
  have start : Reachable allocators.step (fun state => state = none) none := .start rfl
  exact start.act (.init true true fun _ => true) trivial

theorem mem_avail_allAvailable (parts : allocators.allAvailable.Partition allocators.store_path)
    {allocator : TrunkAllocatorPtr} (member : allocator ∈ allocators.store_path) :
    allocator ∈ allocators.allAvailable.avail := by
  have empty : allocators.allAvailable.full = [] :=
    FSStorageAllocatorContext.foldl_initOne_full _
  cases (parts.union allocator).mpr member with
  | inl full =>
      rw [empty] at full
      cases full
  | inr avail => exact avail

/-- Two allocators of one index have no place in a sorted array. -/
theorem inj_of_partition (parts : allocators.allAvailable.Partition allocators.store_path)
    {item other : TrunkAllocatorPtr} (member : item ∈ allocators.store_path)
    (otherMember : other ∈ allocators.store_path) (same : item.index = other.index) :
    item = other :=
  parts.availSorted.eq_of_key_eq (mem_avail_allAvailable parts member)
    (mem_avail_allAvailable parts otherMember) same

/-- A move for an allocator of the index of another takes the other out and puts itself
in its place. -/
theorem replaced_of_same_index
    (parts : allocators.allAvailable.Partition allocators.store_path)
    {item other : TrunkAllocatorPtr} (otherMember : other ∈ allocators.store_path)
    (same : item.index = other.index) :
    item ∈ (allocators.allAvailable.fs_remove_from_avail_aptr_array allocators.alloc true true
      item).1.full := by
  have empty : allocators.allAvailable.full = [] :=
    FSStorageAllocatorContext.foldl_initOne_full _
  have listed := mem_avail_allAvailable parts otherMember
  have found := (bsearch_isSome_iff parts.availSorted).mpr ⟨other, listed, same.symm⟩
  have room : ([] : FSTrunkAllocatorPtrArray).length < allocators.alloc :=
    (List.length_pos_of_mem otherMember).trans_le allocators.length_le_alloc
  rw [FSStorageAllocatorContext.fs_remove_from_avail_aptr_array, fs_move_allocator_ptr_array,
    if_neg (Option.isSome_iff_ne_none.mp found),
    remove_from_aptr_array_of_mem parts.availSorted listed same.symm, empty,
    add_to_aptr_array_of_fresh (.nil _) (fun _ member => absurd member List.not_mem_nil) room]
  exact Chain.mem_insert.mpr (.inl rfl)

end StorageAllocators

section Started

open StorageAllocators

variable {indexes : List Int × List Int}

theorem mem_init_allocator_context {base : Nat} {list : List Int} {allocator : TrunkAllocatorPtr} :
    allocator ∈ init_allocator_context base list ↔
      base ≤ allocator.address ∧ list[allocator.address - base]? = some allocator.index := by
  rw [init_allocator_context, List.mem_map]
  constructor
  · rintro ⟨entry, member, rfl⟩
    exact List.mk_mem_zipIdx_iff_le_and_getElem?_sub.mp member
  · intro placed
    exact ⟨(allocator.index, allocator.address),
      List.mk_mem_zipIdx_iff_le_and_getElem?_sub.mpr placed, rfl⟩

theorem map_index_init_allocator_context (base : Nat) (list : List Int) :
    (init_allocator_context base list).map TrunkAllocatorPtr.index = list := by
  rw [init_allocator_context, List.map_map]
  exact List.zipIdx_map_fst base list

theorem mem_iff_exists_allocator {base : Nat} {list : List Int} {index : Int} :
    index ∈ list ↔ ∃ allocator ∈ init_allocator_context base list, allocator.index = index := by
  conv_lhs => rw [← map_index_init_allocator_context base list]
  exact List.mem_map

/-- The pointers differ, so equal pointers for equal indexes means no index repeats. -/
theorem nodup_of_inj {base : Nat} {list : List Int}
    (inj : ∀ item ∈ init_allocator_context base list, ∀ other ∈ init_allocator_context base list,
      item.index = other.index → item = other) : list.Nodup := by
  refine List.nodup_iff_getElem?_ne_getElem?.mpr fun i j before inside same => ?_
  have equal := inj ⟨base + i, list[i]⟩
    (mem_init_allocator_context.mpr ⟨Nat.le_add_right _ _, by simp⟩)
    ⟨base + j, list[i]⟩
    (mem_init_allocator_context.mpr ⟨Nat.le_add_right _ _, by simp [← same]⟩) rfl
  have addresses := congrArg TrunkAllocatorPtr.address equal
  dsimp only at addresses
  omega

theorem distinct_iff : (storage_allocator_init indexes).Distinct ↔
    indexes.2.Nodup ∧ ∀ index ∈ indexes.1, index ∉ indexes.2 := by
  have storeIndexes : (storage_allocator_init indexes).store_path.map TrunkAllocatorPtr.index =
      indexes.2 := map_index_init_allocator_context _ _
  constructor
  · intro distinct
    refine ⟨storeIndexes ▸ distinct.store_path, ?_⟩
    intro index cached stored
    have inCache : ∃ item ∈ (storage_allocator_init indexes).write_cache, item.index = index :=
      mem_iff_exists_allocator.mp cached
    have inStore : ∃ item ∈ (storage_allocator_init indexes).store_path, item.index = index :=
      mem_iff_exists_allocator.mp stored
    obtain ⟨item, itemMember, itemIndex⟩ := inCache
    obtain ⟨other, otherMember, otherIndex⟩ := inStore
    exact distinct.write_cache item itemMember other otherMember
      (itemIndex.trans otherIndex.symm)
  · rintro ⟨nodup, apart⟩
    refine ⟨storeIndexes.symm ▸ nodup, ?_⟩
    intro item itemMember other otherMember same
    exact apart item.index (mem_iff_exists_allocator.mpr ⟨item, itemMember, rfl⟩)
      (mem_iff_exists_allocator.mpr ⟨other, otherMember, same.symm⟩)

/-- An allocator of the write cache is not one of the store paths, whatever its index. -/
theorem not_mem_store_path_of_mem_write_cache {item : TrunkAllocatorPtr}
    (cached : item ∈ (storage_allocator_init indexes).write_cache) :
    item ∉ (storage_allocator_init indexes).store_path := by
  intro stored
  have above := (mem_init_allocator_context.mp stored).1
  have read := (mem_init_allocator_context.mp cached).2
  have below := (List.getElem?_eq_some_iff.mp read).1
  omega

/-- What all runs keep, exactly when the paths that matter have indexes of their own. -/
theorem partition_iff_distinct :
    (∀ ctx, (storage_allocator_init indexes).Reached ctx →
      ctx.Partition (storage_allocator_init indexes).store_path ∧
        (storage_allocator_init indexes).FailedMoveKeeps ctx) ↔
      (storage_allocator_init indexes).Distinct := by
  constructor
  · intro kept
    have parts := (kept _ (allAvailable_reached _)).1
    refine distinct_iff.mpr ⟨nodup_of_inj fun item member other otherMember same =>
      inj_of_partition parts member otherMember same, ?_⟩
    intro index cached stored
    have inCache : ∃ item ∈ (storage_allocator_init indexes).write_cache, item.index = index :=
      mem_iff_exists_allocator.mp cached
    have inStore : ∃ item ∈ (storage_allocator_init indexes).store_path, item.index = index :=
      mem_iff_exists_allocator.mp stored
    obtain ⟨item, itemMember, itemIndex⟩ := inCache
    obtain ⟨other, otherMember, otherIndex⟩ := inStore
    have known : item ∈ (storage_allocator_init indexes).write_cache ++
        (storage_allocator_init indexes).store_path := List.mem_append_left _ itemMember
    have moved := (allAvailable_reached (storage_allocator_init indexes)).act
      (.removeFromAvail true true item) ⟨rfl, known⟩
    have listed := replaced_of_same_index parts otherMember (itemIndex.trans otherIndex.symm)
    exact not_mem_store_path_of_mem_write_cache itemMember
      (((kept _ moved).1.union item).mp (.inl listed))
  · intro distinct ctx reached
    exact ⟨distinct.partition reached, distinct.failedMoveKeeps reached⟩

/-- The arrays stay a partition of the allocators of the store paths, and a failed move
leaves them, exactly when no store path is configured twice or for the write cache
too. -/
theorem aptr_arrays_partition_iff (marks : StorePathMarks) (table : StorePathArray)
    (config : StoragePaths)
    (loaded : load_store_path_indexes marks table config = .ok indexes) :
    (∀ ctx, (storage_allocator_init indexes).Reached ctx →
      ctx.Partition (storage_allocator_init indexes).store_path ∧
        (storage_allocator_init indexes).FailedMoveKeeps ctx) ↔
      config.store_path.Nodup ∧ ∀ path ∈ config.write_cache, path ∉ config.store_path := by
  obtain ⟨later, cacheGiven, storeGiven⟩ := load_store_path_indexes_spec loaded
  rw [partition_iff_distinct, distinct_iff, nodup_iff_of_gives storeGiven]
  exact and_congr_right fun _ => (disjoint_iff_of_gives cacheGiven storeGiven).symm

/-- Three paths with indexes of their own. -/
theorem aptr_arrays_partition_iff_three :
    (∀ ctx, (storage_allocator_init ([0], [1, 2])).Reached ctx →
      ctx.Partition (storage_allocator_init ([0], [1, 2])).store_path ∧
        (storage_allocator_init ([0], [1, 2])).FailedMoveKeeps ctx) ↔
      ["/data1", "/data2"].Nodup ∧ ∀ path ∈ ["/cache"], path ∉ ["/data1", "/data2"] :=
  aptr_arrays_partition_iff ⟨fun _ => .ok, fun _ _ => .ok⟩ .empty ⟨["/cache"], ["/data1", "/data2"]⟩
    rfl

/-- A path that is configured twice: one of its two allocators is full, the other is
available.  When the first gets space, its move fails after it was taken out of the full
array. -/
theorem aptr_arrays_partition_counterexample :
    ∃ (marks : StorePathMarks) (indexes : List Int × List Int),
      load_store_path_indexes marks .empty ⟨[], ["/data", "/data"]⟩ = .ok indexes ∧
      ¬ ∀ ctx, (storage_allocator_init indexes).Reached ctx →
        ctx.Partition (storage_allocator_init indexes).store_path ∧
          (storage_allocator_init indexes).FailedMoveKeeps ctx := by
  refine ⟨⟨fun _ => .ok, fun _ _ => .ok⟩, ([], [0, 0]), rfl, fun kept => ?_⟩
  have start : Reachable (storage_allocator_init ([], [0, 0])).step
    (fun state => state = none) none := .start rfl
  have reached : (storage_allocator_init ([], [0, 0])).Reached ⟨[⟨0, 0⟩], [⟨1, 0⟩]⟩ :=
    start.act (.init true true fun allocator => allocator.address = 1) trivial
  have failing : (FSStorageAllocatorContext.mk [⟨0, 0⟩] [⟨1, 0⟩]).fs_add_to_avail_aptr_array
      2 true true ⟨0, 0⟩ = (⟨[], [⟨1, 0⟩]⟩, .eexist) := by decide
  have unchanged := (kept _ reached).2 true true ⟨0, 0⟩ (by decide) _ List.mem_cons_self
  rw [show (storage_allocator_init ([], [0, 0])).alloc = 2 from rfl, failing] at unchanged
  exact absurd (unchanged nofun nofun) (by decide)

end Started

end FastStore.Storage
