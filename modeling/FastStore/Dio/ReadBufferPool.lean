import FastStore.Storage.Types

/-!
# The pool of read buffers

Buffers come in classes of growing size.  A buffer that is given back waits on the freelist
of its class, the one given back last in front.  When memory runs short, idle buffers are
freed from the back of the lists, either as many as a number of bytes asks for, or those
that were idle too long.

The lists are walked with `fc_list_for_each_prev`, which goes on from the node it has just
visited, although that node is unlinked by then and linked to itself.
-/

namespace FastStore.Dio

open FastStore.Util FastStore.Storage

/-- `AlignedReadBuffer` without its bytes; `id` names the object. -/
structure PoolBuffer where
  id : Nat
  allocator : Nat
  size : Int
  last_access_time : Int
  deriving DecidableEq, Repr

/-- The configuration of a pool. -/
structure PoolConfig where
  block_size : Int
  max_idle_time : Int
  low : Int
  high : Int
  positive : 0 < block_size
  highNonneg : 0 ≤ high

/-- A pool, with the buffers that are handed out, those that were freed, one entry for each
time, and the number of buffers made so far.  In a pool that hangs a reclaim pass never
ends. -/
structure ReadBufferPool where
  freelists : Nat → List PoolBuffer
  alloc : Int
  used : Int
  inUse : List PoolBuffer
  freed : List PoolBuffer
  created : Nat
  hung : Bool

/-! ## The classes -/

/-- The loop of `init_allocators` that counts the classes. -/
def doublings : Nat → Int → Nat
  | 0, _ => 0
  | fuel + 1, size => if size ≤ fsFileBlockSize then doublings fuel (size * 2) + 1 else 0

namespace PoolConfig

variable (config : PoolConfig)

/-- `mpool.count`; after 23 doublings a size is above the block size. -/
def count : Nat := doublings 23 config.block_size + 1

/-- The size of the class with the given index. -/
def classSize : Nat → Int
  | 0 => config.block_size
  | i + 1 =>
      2 ^ i * config.block_size +
        if i + 2 < config.count then config.block_size else 2 * config.block_size

/-- The index of `mpool.middle`. -/
def middle : Nat := config.count / 2

/-- `get_allocator`. -/
def get_allocator (size : Int) : Option Nat :=
  if size < config.classSize config.middle then
    (List.range (config.middle + 1)).find? fun i => size ≤ config.classSize i
  else if config.classSize config.middle < size then
    (List.range' (config.middle + 1) (config.count - (config.middle + 1))).find? fun i =>
      size ≤ config.classSize i
  else some config.middle

theorem classSize_pos (i : Nat) : 0 < config.classSize i := by
  have positive := config.positive
  cases i with
  | zero => exact positive
  | succ i =>
      have power : 0 ≤ 2 ^ i * config.block_size := by positivity
      rw [classSize]
      split <;> omega

theorem middle_lt_count : config.middle < config.count := by
  rw [middle, count]
  omega

theorem lt_count_of_get_allocator {size : Int} {i : Nat} (found : config.get_allocator size = some i) :
    i < config.count := by
  have middle := config.middle_lt_count
  rw [get_allocator] at found
  split at found
  · have inside := List.mem_range.mp (List.mem_of_find?_eq_some found)
    omega
  · split at found
    · have inside := List.mem_range'_1.mp (List.mem_of_find?_eq_some found)
      omega
    · cases found
      exact middle

end PoolConfig

/-! ## Walking a freelist -/

/-- `pos->prev`: the node before a linked one, and the node itself once it is unlinked.
`none` is the head of the list. -/
def prevNode (freelist : List PoolBuffer) (pos : PoolBuffer) : Option PoolBuffer :=
  if pos ∈ freelist then (freelist.takeWhile (· ≠ pos)).getLast? else some pos

/-- What a pass over a list leaves, and what it freed, in order. -/
structure ReclaimedList where
  freelist : List PoolBuffer
  freed : List PoolBuffer
  deriving DecidableEq, Repr

/-- `free_aligned_buffer`, as far as the list goes. -/
def ReclaimedList.free (list : ReclaimedList) (pos : PoolBuffer) : ReclaimedList :=
  ⟨list.freelist.erase pos, list.freed ++ [pos]⟩

/-- The loop of `reclaim_allocator_by_size` from a node on.  The fuel bounds the nodes it
visits, and `none` means that it is used up. -/
def reclaim_allocator_by_size (target_size : Int) :
    Nat → ReclaimedList → Int → Option PoolBuffer → Option (Errno × Int × ReclaimedList)
  | _, list, reclaim_bytes, none => some (.eagain, reclaim_bytes, list)
  | 0, _, _, some _ => none
  | fuel + 1, list, reclaim_bytes, some pos =>
      let reclaim_bytes := reclaim_bytes + pos.size
      if target_size ≤ reclaim_bytes then some (.ok, reclaim_bytes, list.free pos)
      else reclaim_allocator_by_size target_size fuel (list.free pos) reclaim_bytes
        (prevNode (list.free pos).freelist pos)

/-- The loop of `reclaim_allocator_by_ttl` from a node on. -/
def reclaim_allocator_by_ttl (max_idle_time now : Int) :
    Nat → ReclaimedList → Option PoolBuffer → Option ReclaimedList
  | _, list, none => some list
  | 0, _, some _ => none
  | fuel + 1, list, some pos =>
      if now - pos.last_access_time ≤ max_idle_time then some list
      else reclaim_allocator_by_ttl max_idle_time now fuel (list.free pos)
        (prevNode (list.free pos).freelist pos)

theorem prevNode_free {list : ReclaimedList} {pos : PoolBuffer} (nodup : list.freelist.Nodup) :
    prevNode (list.free pos).freelist pos = some pos :=
  if_neg nodup.not_mem_erase

theorem prevNode_of_not_mem {freelist : List PoolBuffer} {pos : PoolBuffer}
    (unlinked : pos ∉ freelist) : prevNode freelist pos = some pos := if_neg unlinked

/-- A node that is unlinked stays the next one: a pass by age that frees a buffer comes to
the same buffer again, for ever. -/
theorem reclaim_allocator_by_ttl_never_ends {max_idle_time now : Int} {pos : PoolBuffer}
    (idle : max_idle_time < now - pos.last_access_time) (fuel : Nat) {list : ReclaimedList}
    (nodup : list.freelist.Nodup) :
    reclaim_allocator_by_ttl max_idle_time now fuel list (some pos) = none := by
  induction fuel generalizing list with
  | zero => rfl
  | succ fuel ih =>
      have next : (list.free pos).freelist.Nodup := nodup.erase pos
      rw [reclaim_allocator_by_ttl, if_neg (not_le.mpr idle), prevNode_free nodup]
      exact ih next

/-- A pass by size that is not satisfied by the first buffer frees it again. -/
theorem reclaim_allocator_by_size_frees_again {target_size reclaim_bytes : Int} {pos : PoolBuffer}
    (short : reclaim_bytes + pos.size < target_size) {fuel : Nat} {list : ReclaimedList}
    (nodup : list.freelist.Nodup) :
    reclaim_allocator_by_size target_size (fuel + 1) list reclaim_bytes (some pos) =
      reclaim_allocator_by_size target_size fuel (list.free pos) (reclaim_bytes + pos.size)
        (some pos) := by
  rw [reclaim_allocator_by_size, if_neg (not_le.mpr short), prevNode_free nodup]

/-! ## The pool -/

namespace ReadBufferPool

variable (config : PoolConfig) (pool : ReadBufferPool)

/-- A pool at the start. -/
def init : ReadBufferPool := ⟨fun _ => [], 0, 0, [], [], 0, false⟩

def sizeSum (buffers : List PoolBuffer) : Int := (buffers.map (·.size)).sum

/-- Put back what a pass leaves of a list. -/
def afterPass (i : Nat) (list : ReclaimedList) : ReadBufferPool :=
  { pool with
    freelists := Function.update pool.freelists i list.freelist
    freed := pool.freed ++ list.freed
    alloc := pool.alloc - sizeSum list.freed }

/-- The loops of `reclaim` over some classes. -/
def reclaimClasses (target_size : Int) : List Nat → Int → ReadBufferPool →
    Option (Int × ReadBufferPool)
  | [], reclaim_bytes, pool => some (reclaim_bytes, pool)
  | i :: rest, reclaim_bytes, pool =>
      match reclaim_allocator_by_size target_size (target_size.toNat + 1)
          ⟨pool.freelists i, []⟩ reclaim_bytes (pool.freelists i).getLast? with
      | none => none
      | some (.ok, reclaim_bytes, list) => some (reclaim_bytes, pool.afterPass i list)
      | some (_, reclaim_bytes, list) =>
          reclaimClasses target_size rest reclaim_bytes (pool.afterPass i list)

/-- `reclaim`: the classes above the middle, then those from the middle down. -/
def reclaim (target_size : Int) : Option (Int × ReadBufferPool) :=
  reclaimClasses target_size (List.range' (config.middle + 1) (config.count - (config.middle + 1)) ++
    (List.range (config.middle + 1)).reverse) 0 pool

/-- The loop of `pool_reclaim` over some classes. -/
def reclaimIdle (now : Int) : List Nat → ReadBufferPool → Option ReadBufferPool
  | [], pool => some pool
  | i :: rest, pool =>
      match reclaim_allocator_by_ttl config.max_idle_time now ((pool.freelists i).length + 1)
          ⟨pool.freelists i, []⟩ (pool.freelists i).getLast? with
      | none => none
      | some list => reclaimIdle now rest (pool.afterPass i list)

/-- `pool_reclaim`. -/
def pool_reclaim (now : Int) : Option ReadBufferPool :=
  if pool.alloc ≤ config.low then some pool
  else reclaimIdle config now (List.range config.count) pool

/-- `do_aligned_alloc` with the end of `read_buffer_pool_alloc`. -/
def do_aligned_alloc (i : Nat) : ReadBufferPool :=
  { pool with
    inUse := ⟨pool.created, i, config.classSize i, 0⟩ :: pool.inUse
    used := pool.used + config.classSize i
    created := pool.created + 1 }

/-- A pass that does not end leaves the pool to itself. -/
def orHung (result : Option ReadBufferPool) : ReadBufferPool :=
  result.getD { pool with hung := true }

/-- The memory limit of `read_buffer_pool_alloc`, before a buffer of a class is made. -/
def checkLimit (i : Nat) : ReadBufferPool :=
  if config.high < pool.alloc + config.classSize i ∧ fsFileBlockSize < pool.alloc - pool.used then
    pool.orHung ((reclaim config pool fsFileBlockSize).map (·.2))
  else pool

/-- `read_buffer_pool_alloc`; `memory` says whether the system has memory for a buffer. -/
def read_buffer_pool_alloc (size : Int) (memory : Bool) : ReadBufferPool :=
  match config.get_allocator (size + fsSpaceAlignSize) with
  | none => pool
  | some i =>
      match pool.freelists i with
      | buffer :: rest =>
          { pool with
            freelists := Function.update pool.freelists i rest
            inUse := buffer :: pool.inUse
            used := pool.used + buffer.size }
      | [] =>
          let checked := checkLimit config pool i
          if checked.hung then checked
          else if memory then do_aligned_alloc config checked i
          else checked

/-- `read_buffer_pool_free` of a buffer in use. -/
def read_buffer_pool_free (buffer : PoolBuffer) (now : Int) : ReadBufferPool :=
  { pool with
    freelists := Function.update pool.freelists buffer.allocator
      ({ buffer with last_access_time := now } :: pool.freelists buffer.allocator)
    inUse := pool.inUse.erase buffer
    used := pool.used - config.classSize buffer.allocator }

end ReadBufferPool

/-- The operations of a pool; `free` names the buffer by its place among those in use. -/
inductive PoolOp where
  | alloc (size : Int) (memory : Bool)
  | free (place : Nat) (now : Int)
  | reclaim (target_size : Int)
  | poolReclaim (now : Int)
  deriving DecidableEq, Repr

namespace ReadBufferPool

variable (config : PoolConfig) (pool : ReadBufferPool)

def next : PoolOp → ReadBufferPool
  | .alloc size memory => if pool.hung then pool else read_buffer_pool_alloc config pool size memory
  | .free place now =>
      if pool.hung then pool
      else (pool.inUse[place]?.map fun buffer =>
        read_buffer_pool_free config pool buffer now).getD pool
  | .reclaim target_size =>
      if pool.hung then pool else pool.orHung ((reclaim config pool target_size).map (·.2))
  | .poolReclaim now => if pool.hung then pool else pool.orHung (pool_reclaim config pool now)

/-- All buffers there are. -/
def existing : List PoolBuffer := pool.inUse ++ (List.range config.count).flatMap pool.freelists

/-- The accounts are right: `alloc` is the size of all buffers, `used` of those handed out,
every buffer is in use or once on the list of its class, no buffer was freed twice or
while it exists, and no pass hangs. -/
structure Exact (config : PoolConfig) (pool : ReadBufferPool) : Prop where
  ends : pool.hung = false
  alloc : pool.alloc = sizeSum (existing config pool)
  used : pool.used = sizeSum pool.inUse
  placed : ∀ i, ∀ buffer ∈ pool.freelists i, i < config.count ∧ buffer.allocator = i ∧
    buffer.size = config.classSize i
  once : ((existing config pool ++ pool.freed).map (·.id)).Nodup

/-- Before a buffer is made over the limit while more than a block's size is idle, idle
buffers are freed. -/
def FreesFirst (config : PoolConfig) (pool : ReadBufferPool) : PoolOp → Prop
  | .alloc size memory => ∀ i, config.get_allocator (size + fsSpaceAlignSize) = some i →
      pool.freelists i = [] → memory = true →
      config.high < sizeSum (existing config pool) + config.classSize i →
      fsFileBlockSize < sizeSum (existing config pool) - sizeSum pool.inUse →
      pool.freed.length < (next config pool (.alloc size memory)).freed.length
  | _ => True

/-- The accounts are right all along a run. -/
def RunRight (config : PoolConfig) : ReadBufferPool → List PoolOp → Prop
  | pool, [] => Exact config pool
  | pool, op :: rest => Exact config pool ∧ FreesFirst config pool op ∧
      RunRight config (next config pool op) rest

/-- The operation makes a buffer where none is idle. -/
def Creates (config : PoolConfig) : PoolOp → Prop
  | .alloc size memory =>
      (config.get_allocator (size + fsSpaceAlignSize)).isSome = true ∧ memory = true
  | _ => False

/-! ## Runs without a buffer -/

variable {config}

theorem afterPass_init (i : Nat) : init.afterPass i ⟨[], []⟩ = init := by
  simp [afterPass, init, sizeSum]

theorem reclaimClasses_init (target_size : Int) (classes : List Nat) (reclaim_bytes : Int) :
    reclaimClasses target_size classes reclaim_bytes init = some (reclaim_bytes, init) := by
  induction classes with
  | nil => rfl
  | cons i rest ih =>
      have passed : reclaimClasses target_size rest reclaim_bytes (init.afterPass i ⟨[], []⟩) =
          some (reclaim_bytes, init) := by
        rw [afterPass_init]
        exact ih
      exact passed

theorem reclaimIdle_init (now : Int) (classes : List Nat) :
    reclaimIdle config now classes init = some init := by
  induction classes with
  | nil => rfl
  | cons i rest ih =>
      have passed : reclaimIdle config now rest (init.afterPass i ⟨[], []⟩) = some init := by
        rw [afterPass_init]
        exact ih
      exact passed

theorem checkLimit_init (i : Nat) : checkLimit config init i = init := by
  have idle : ¬(config.high < init.alloc + config.classSize i ∧
      fsFileBlockSize < init.alloc - init.used) := fun both => absurd both.2 (by decide)
  rw [checkLimit, if_neg idle]

theorem read_buffer_pool_alloc_init {size : Int} {i : Nat}
    (found : config.get_allocator (size + fsSpaceAlignSize) = some i) (memory : Bool) :
    read_buffer_pool_alloc config init size memory =
      if memory then do_aligned_alloc config init i else init := by
  have checked : read_buffer_pool_alloc config init size memory =
      if (checkLimit config init i).hung then checkLimit config init i
      else if memory then do_aligned_alloc config (checkLimit config init i) i
      else checkLimit config init i := by
    rw [read_buffer_pool_alloc, found]
    rfl
  rw [checked, checkLimit_init]
  rfl

/-- Where no buffer is made, the pool stays as it was. -/
theorem next_init {op : PoolOp} (none : ¬Creates config op) : next config init op = init := by
  cases op with
  | alloc size memory =>
      show read_buffer_pool_alloc config init size memory = init
      cases found : config.get_allocator (size + fsSpaceAlignSize) with
      | none => rw [read_buffer_pool_alloc, found]
      | some i =>
          have noMemory : memory = false := by
            rw [← Bool.not_eq_true]
            intro memory
            exact none ⟨by rw [found]; rfl, memory⟩
          rw [read_buffer_pool_alloc_init found, noMemory]
          rfl
  | free place now => rfl
  | reclaim target_size =>
      show init.orHung _ = init
      rw [reclaim, reclaimClasses_init]
      rfl
  | poolReclaim now =>
      show init.orHung _ = init
      rw [pool_reclaim]
      split
      · rfl
      · rw [reclaimIdle_init]
        rfl

theorem existing_init : existing config init = [] := by
  simp [existing, init]

theorem exact_init : Exact config init where
  ends := rfl
  alloc := by
    rw [existing_init]
    rfl
  used := rfl
  placed i buffer impossible := nomatch impossible
  once := by
    rw [existing_init]
    exact List.nodup_nil

theorem freesFirst_init {op : PoolOp} (none : ¬Creates config op) :
    FreesFirst config init op := by
  cases op with
  | alloc size memory =>
      intro i found _ memory
      exact absurd ⟨by rw [found]; rfl, memory⟩ none
  | free place now => trivial
  | reclaim target_size => trivial
  | poolReclaim now => trivial

/-- The first buffer that is made is not counted. -/
theorem not_exact_of_creates {op : PoolOp} (creates : Creates config op) :
    ¬Exact config (next config init op) := by
  cases op with
  | alloc size memory =>
      obtain ⟨some, rfl⟩ := creates
      obtain ⟨i, found⟩ := Option.isSome_iff_exists.mp some
      have made : next config init (.alloc size true) = do_aligned_alloc config init i :=
        read_buffer_pool_alloc_init found true
      rw [made]
      intro exact
      have counted := exact.alloc
      have positive := config.classSize_pos i
      have size : sizeSum (existing config (do_aligned_alloc config init i)) = config.classSize i := by
        have all : existing config (do_aligned_alloc config init i) =
            ⟨0, i, config.classSize i, 0⟩ :: existing config init := rfl
        rw [all, existing_init]
        exact add_zero _
      rw [size] at counted
      have zero : (do_aligned_alloc config init i).alloc = 0 := rfl
      omega
  | free place now => exact creates.elim
  | reclaim target_size => exact creates.elim
  | poolReclaim now => exact creates.elim

/-- `memory.alloc` is never increased: the accounts of a pool are right exactly in the runs
that make no buffer. -/
theorem read_buffer_pool_right_iff (config : PoolConfig) (ops : List PoolOp) :
    RunRight config init ops ↔ ∀ op ∈ ops, ¬Creates config op := by
  induction ops with
  | nil => exact ⟨fun _ => List.forall_mem_nil _, fun _ => exact_init⟩
  | cons op rest ih =>
      rw [RunRight, List.forall_mem_cons]
      constructor
      · rintro ⟨_, _, right⟩
        have none : ¬Creates config op := by
          intro creates
          apply not_exact_of_creates creates
          cases rest with
          | nil => exact right
          | cons second later => exact right.1
        rw [next_init none] at right
        exact ⟨none, ih.mp right⟩
      · rintro ⟨none, later⟩
        refine ⟨exact_init, freesFirst_init none, ?_⟩
        rw [next_init none]
        exact ih.mpr later

/-- A pool with blocks of half a kilobyte. -/
def smallBlocks : PoolConfig := ⟨512, 60, 0, 1048576, by decide, by decide⟩

/-- One buffer is handed out, and `memory.alloc` says that there is none. -/
theorem read_buffer_pool_alloc_uncounted :
    ¬RunRight smallBlocks init [.alloc 100 true] ∧
      (next smallBlocks init (.alloc 100 true)).alloc = 0 ∧
      sizeSum (existing smallBlocks (next smallBlocks init (.alloc 100 true))) = 512 := by
  have creates : Creates smallBlocks (.alloc 100 true) := by
    constructor <;> decide
  refine ⟨fun right => ?_, by decide +kernel, by decide +kernel⟩
  exact not_exact_of_creates creates right.2.2

/-! ## Runs whose passes find nothing

Apart from `memory.alloc`, the accounts stay right as long as no pass chooses a buffer. -/

/-- What holds in a run whose passes choose no buffer. -/
structure Sound (config : PoolConfig) (pool : ReadBufferPool) : Prop where
  ends : pool.hung = false
  uncounted : pool.alloc = 0
  used : pool.used = sizeSum pool.inUse
  held : ∀ buffer ∈ pool.inUse, buffer.allocator < config.count ∧
    buffer.size = config.classSize buffer.allocator
  placed : ∀ i, ∀ buffer ∈ pool.freelists i, i < config.count ∧ buffer.allocator = i ∧
    buffer.size = config.classSize i
  once : ((existing config pool).map (·.id)).Nodup
  fresh : ∀ buffer ∈ existing config pool, buffer.id < pool.created
  kept : pool.freed = []

/-- The operation is no pass that chooses a buffer. -/
def FindsNothing (config : PoolConfig) (pool : ReadBufferPool) : PoolOp → Prop
  | .reclaim _ => ∀ i, pool.freelists i = []
  | .poolReclaim now => ∀ i last, (pool.freelists i).getLast? = some last →
      now - last.last_access_time ≤ config.max_idle_time
  | _ => True

/-- The buffers of a list and those of the others. -/
theorem flatMap_update_perm {freelists : Nat → List PoolBuffer} {i count : Nat}
    (inside : i < count) (list : List PoolBuffer) :
    ((List.range count).flatMap (Function.update freelists i list)).Perm
      (list ++ ((List.range count).erase i).flatMap freelists) := by
  have split := List.perm_cons_erase (List.mem_range.mpr inside)
  have moved := split.flatMap_right (Function.update freelists i list)
  have others : ((List.range count).erase i).flatMap (Function.update freelists i list) =
      ((List.range count).erase i).flatMap freelists := by
    refine List.flatMap_congr fun other member => ?_
    exact Function.update_of_ne (List.nodup_range.mem_erase_iff.mp member).1 _ _
  rw [List.flatMap_cons, Function.update_self, others] at moved
  exact moved

theorem flatMap_perm {freelists : Nat → List PoolBuffer} {i count : Nat} (inside : i < count) :
    ((List.range count).flatMap freelists).Perm
      (freelists i ++ ((List.range count).erase i).flatMap freelists) := by
  have whole := @flatMap_update_perm freelists i count inside (freelists i)
  rwa [Function.update_eq_self] at whole

variable {pool : ReadBufferPool}

theorem Sound.init : Sound config init where
  ends := rfl
  uncounted := rfl
  used := rfl
  held := List.forall_mem_nil _
  placed i buffer impossible := nomatch impossible
  once := by
    rw [existing_init]
    exact List.nodup_nil
  fresh := by
    rw [existing_init]
    exact List.forall_mem_nil _
  kept := rfl

theorem Sound.checkLimit (sound : Sound config pool) (i : Nat) :
    checkLimit config pool i = pool := by
  have nonneg : 0 ≤ pool.used := by
    rw [sound.used, sizeSum]
    refine List.sum_nonneg fun size member => ?_
    obtain ⟨buffer, bufferMember, rfl⟩ := List.mem_map.mp member
    rw [(sound.held buffer bufferMember).2]
    exact (config.classSize_pos _).le
  have idle : ¬(config.high < pool.alloc + config.classSize i ∧
      fsFileBlockSize < pool.alloc - pool.used) := by
    rintro ⟨_, above⟩
    rw [sound.uncounted, fsFileBlockSize] at above
    omega
  rw [ReadBufferPool.checkLimit, if_neg idle]

theorem Sound.alloc (sound : Sound config pool) (size : Int) (memory : Bool) :
    Sound config (read_buffer_pool_alloc config pool size memory) := by
  cases found : config.get_allocator (size + fsSpaceAlignSize) with
  | none =>
      rw [read_buffer_pool_alloc, found]
      exact sound
  | some i =>
      have inside := config.lt_count_of_get_allocator found
      have split := @flatMap_perm pool.freelists i config.count inside
      rw [read_buffer_pool_alloc, found]
      dsimp only
      cases list : pool.freelists i with
      | cons buffer rest =>
          have place := sound.placed i buffer (list ▸ List.mem_cons_self)
          have moved := @flatMap_update_perm pool.freelists i config.count inside rest
          rw [list] at split
          have perm : ((buffer :: pool.inUse) ++
              (List.range config.count).flatMap (Function.update pool.freelists i rest)).Perm
              (existing config pool) := by
            refine ((moved.append_left _).trans ?_).trans (split.append_left pool.inUse).symm
            exact List.perm_middle.symm
          exact
            { ends := sound.ends
              uncounted := sound.uncounted
              used := by
                dsimp only
                rw [sound.used, sizeSum, sizeSum, List.map_cons, List.sum_cons, add_comm]
              held := List.forall_mem_cons.mpr ⟨by
                rw [place.2.1]
                exact ⟨place.1, place.2.2⟩, sound.held⟩
              placed := by
                intro j other member
                dsimp only at member
                by_cases same : j = i
                · rw [same, Function.update_self] at member
                  rw [same]
                  exact sound.placed i other (list ▸ List.mem_cons_of_mem _ member)
                · rw [Function.update_of_ne same] at member
                  exact sound.placed j other member
              once := (perm.map _).nodup_iff.mpr sound.once
              fresh := fun other member => sound.fresh other (perm.mem_iff.mp member)
              kept := sound.kept }
      | nil =>
          dsimp only
          rw [sound.checkLimit, if_neg (Bool.eq_false_iff.mp sound.ends)]
          split
          · exact
              { ends := sound.ends
                uncounted := sound.uncounted
                used := by
                  rw [do_aligned_alloc, sizeSum, List.map_cons, List.sum_cons, ← sizeSum,
                    ← sound.used, add_comm]
                held := List.forall_mem_cons.mpr ⟨⟨inside, rfl⟩, sound.held⟩
                placed := sound.placed
                once := by
                  have all : existing config (do_aligned_alloc config pool i) =
                      ⟨pool.created, i, config.classSize i, 0⟩ :: existing config pool := rfl
                  rw [all, List.map_cons, List.nodup_cons]
                  refine ⟨fun member => ?_, sound.once⟩
                  obtain ⟨other, otherMember, same⟩ := List.mem_map.mp member
                  exact absurd (sound.fresh other otherMember) (not_lt.mpr same.ge)
                fresh := List.forall_mem_cons.mpr ⟨Nat.lt_succ_self _, fun other member =>
                  (sound.fresh other member).trans (Nat.lt_succ_self _)⟩
                kept := sound.kept }
          · exact sound

theorem Sound.free (sound : Sound config pool) {buffer : PoolBuffer}
    (member : buffer ∈ pool.inUse) (now : Int) :
    Sound config (read_buffer_pool_free config pool buffer now) := by
  obtain ⟨inside, size⟩ := sound.held buffer member
  have erased := List.perm_cons_erase member
  have split := @flatMap_perm pool.freelists buffer.allocator config.count inside
  have moved := @flatMap_update_perm pool.freelists buffer.allocator config.count inside
    ({ buffer with last_access_time := now } :: pool.freelists buffer.allocator)
  -- the object is the same, only its time is new
  have ids : ((existing config (read_buffer_pool_free config pool buffer now)).map (·.id)).Perm
      ((existing config pool).map (·.id)) := by
    have after := (moved.append_left (pool.inUse.erase buffer)).map (·.id)
    have before := (erased.append split).map (·.id)
    refine after.trans (List.Perm.trans ?_ before.symm)
    simp only [List.map_append, List.map_cons, List.cons_append]
    exact List.perm_middle
  exact
    { ends := sound.ends
      uncounted := sound.uncounted
      used := by
        have sum := (erased.map (·.size)).sum_eq
        rw [List.map_cons, List.sum_cons] at sum
        have whole := sound.used
        rw [sizeSum, sum, size] at whole
        show pool.used - config.classSize buffer.allocator = sizeSum (pool.inUse.erase buffer)
        rw [sizeSum]
        omega
      held := fun other otherMember => sound.held other (List.mem_of_mem_erase otherMember)
      placed := by
        intro j other otherMember
        rw [read_buffer_pool_free] at otherMember
        dsimp only at otherMember
        by_cases same : j = buffer.allocator
        · rw [same, Function.update_self] at otherMember
          rw [same]
          cases List.mem_cons.mp otherMember with
          | inl given =>
              rw [given]
              exact ⟨inside, rfl, size⟩
          | inr idle => exact sound.placed _ other idle
        · rw [Function.update_of_ne same] at otherMember
          exact sound.placed j other otherMember
      once := ids.nodup_iff.mpr sound.once
      fresh := by
        intro other otherMember
        have known := ids.mem_iff.mp (List.mem_map_of_mem otherMember)
        obtain ⟨old, oldMember, same⟩ := List.mem_map.mp known
        have bound := sound.fresh old oldMember
        rw [same] at bound
        exact bound
      kept := sound.kept }

theorem afterPass_nothing (pool : ReadBufferPool) (i : Nat) :
    pool.afterPass i ⟨pool.freelists i, []⟩ = pool := by
  simp [afterPass, sizeSum]

theorem reclaimIdle_of_young {now : Int} (young : FindsNothing config pool (.poolReclaim now))
    (classes : List Nat) : reclaimIdle config now classes pool = some pool := by
  induction classes with
  | nil => rfl
  | cons i rest ih =>
      have passed : reclaim_allocator_by_ttl config.max_idle_time now
          ((pool.freelists i).length + 1) ⟨pool.freelists i, []⟩ (pool.freelists i).getLast? =
          some ⟨pool.freelists i, []⟩ := by
        cases back : (pool.freelists i).getLast? with
        | none => rw [reclaim_allocator_by_ttl]
        | some last => rw [reclaim_allocator_by_ttl, if_pos (young i last back)]
      rw [reclaimIdle, passed]
      dsimp only
      rw [afterPass_nothing]
      exact ih

theorem reclaimClasses_of_empty (target_size : Int) (empty : ∀ i, pool.freelists i = [])
    (classes : List Nat) (reclaim_bytes : Int) :
    reclaimClasses target_size classes reclaim_bytes pool = some (reclaim_bytes, pool) := by
  induction classes with
  | nil => rfl
  | cons i rest ih =>
      have same := afterPass_nothing pool i
      rw [empty i] at same
      rw [reclaimClasses, empty i, List.getLast?_nil, reclaim_allocator_by_size]
      dsimp only
      rw [same]
      exact ih

theorem Sound.next (sound : Sound config pool) {op : PoolOp} (finds : FindsNothing config pool op) :
    Sound config (next config pool op) := by
  have alive : ¬pool.hung = true := Bool.eq_false_iff.mp sound.ends
  cases op with
  | alloc size memory =>
      rw [ReadBufferPool.next, if_neg alive]
      exact sound.alloc size memory
  | free place now =>
      rw [ReadBufferPool.next, if_neg alive]
      cases found : pool.inUse[place]? with
      | none => exact sound
      | some buffer => exact sound.free (List.mem_of_getElem? found) now
  | reclaim target_size =>
      rw [ReadBufferPool.next, if_neg alive, reclaim, reclaimClasses_of_empty target_size finds]
      exact sound
  | poolReclaim now =>
      rw [ReadBufferPool.next, if_neg alive, pool_reclaim]
      split
      · exact sound
      · rw [reclaimIdle_of_young finds]
        exact sound

/-- In every run whose passes choose no buffer, `used` is the size of the buffers handed
out, and every buffer is in use or once on the list of its class. -/
theorem sound_of_reachable
    (reached : Reachable ((StepRel.ofNext (fun _ _ => True) (ReadBufferPool.next config)).guarded
      (FindsNothing config)) (· = init) pool) : Sound config pool := by
  refine reached.invariant ?_ ?_
  · rintro _ rfl
    exact Sound.init
  · rintro before op _ sound ⟨finds, _, rfl⟩
    exact sound.next finds

end ReadBufferPool

end FastStore.Dio
