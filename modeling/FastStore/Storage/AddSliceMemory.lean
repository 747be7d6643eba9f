import FastStore.Storage.ByteMap
import FastStore.Storage.TrunkUsage

/-!
# Adding slices when memory runs out

`add_slice` collects the slices it will delete and the fragments it will add before it changes
anything, and gives up when memory for that is refused.  The nodes of the skiplist are allocated
later, while it links the fragments and the slice; there a refusal loses a fragment, or leaves
the block without the slice and without what it has deleted.
-/

namespace FastStore.Storage

open FastStore.Util FastStore.Util.Extent

/-- The answers to the next requests for memory, true where it is granted; every later request
is granted. -/
abbrev Memory := List Bool

/-- A computation that gives up when memory is refused. -/
abbrev Allocating := StateT Memory Option

def allocate : Allocating Unit
  | [] => some ((), [])
  | true :: rest => some ((), rest)
  | false :: _ => none

/-- `OBSlicePtrSmartArray`, without its fixed part. -/
structure OBSlicePtrSmartArray where
  alloc : Nat
  slices : List OBSliceEntry

/-- `INIT_SLICE_PTR_ARRAY`, with `SLICE_ARRAY_FIXED_COUNT` places. -/
def initSlicePtrArray : OBSlicePtrSmartArray := ⟨64, []⟩

/-- `add_to_slice_ptr_smart_array`. -/
def addToSlicePtrSmartArray (array : OBSlicePtrSmartArray) (slice : OBSliceEntry) :
    Allocating OBSlicePtrSmartArray :=
  if array.alloc ≤ array.slices.length then
    allocate >>= fun _ => pure ⟨array.alloc * 2, array.slices ++ [slice]⟩
  else pure ⟨array.alloc, array.slices ++ [slice]⟩

/-- `dup_slice_to_smart_array`. -/
def dupSliceToSmartArray (src : OBSliceEntry) (offset length : Int) (array : OBSlicePtrSmartArray) :
    Allocating OBSlicePtrSmartArray :=
  allocate >>= fun _ => addToSlicePtrSmartArray array (src.fragment offset length)

/-- The two arrays of `add_slice`. -/
structure AddSliceArrays where
  addSliceArray : OBSlicePtrSmartArray
  delSliceArray : OBSlicePtrSmartArray

section Skiplist

variable (sl : UniqSkiplist OBSliceEntry.key)

/-- The look at the previous node in `add_slice`. -/
def collectPrevious (slice : OBSliceEntry) : Option OBSliceEntry → Allocating AddSliceArrays
  | none => pure ⟨initSlicePtrArray, initSlicePtrArray⟩
  | some curr =>
      if slice.ssize.offset < curr.sliceEnd then
        addToSlicePtrSmartArray initSlicePtrArray curr >>= fun dels =>
        dupSliceToSmartArray curr curr.ssize.offset (slice.ssize.offset - curr.ssize.offset)
          initSlicePtrArray >>= fun adds =>
        if slice.sliceEnd < curr.sliceEnd then
          dupSliceToSmartArray curr slice.sliceEnd (curr.sliceEnd - slice.sliceEnd) adds >>=
            fun adds => pure ⟨adds, dels⟩
        else pure ⟨adds, dels⟩
      else pure ⟨initSlicePtrArray, initSlicePtrArray⟩

/-- The loop over the following nodes in `add_slice`. -/
def collectLoop (slice : OBSliceEntry) :
    List OBSliceEntry → AddSliceArrays → Allocating AddSliceArrays
  | [], arrays => pure arrays
  | curr :: rest, arrays =>
      if slice.sliceEnd ≤ curr.ssize.offset then pure arrays
      else
        addToSlicePtrSmartArray arrays.delSliceArray curr >>= fun dels =>
        if slice.sliceEnd < curr.sliceEnd then
          dupSliceToSmartArray curr slice.sliceEnd (curr.sliceEnd - slice.sliceEnd)
            arrays.addSliceArray >>= fun adds => pure ⟨adds, dels⟩
        else collectLoop slice rest ⟨arrays.addSliceArray, dels⟩

/-- The part of `add_slice` before it changes anything; a block without slices has nothing to
collect. -/
def collect (chain : List OBSliceEntry) (slice : OBSliceEntry) : Allocating AddSliceArrays :=
  if chain = [] then pure ⟨initSlicePtrArray, initSlicePtrArray⟩
  else
    collectPrevious slice (sl.findGe chain slice.key).1.getLast? >>=
      collectLoop slice (sl.findGe chain slice.key).2

/-- `do_add_slice`, where `uniq_skiplist_insert` allocates the node. -/
def doAddSliceWith (htable : OBHashtable) (slice : OBSliceEntry)
    (state : List OBSliceEntry × FSStorageAllocatorManager) :
    Memory → Errno × List OBSliceEntry × FSStorageAllocatorManager
  | false :: _ => (.enomem, state)
  | _ => doAddSlice sl htable state slice

/-- The loop that adds the fragments, whatever comes of it. -/
def refillWith (htable : OBHashtable) :
    List OBSliceEntry → List OBSliceEntry × FSStorageAllocatorManager → Memory →
      List OBSliceEntry × FSStorageAllocatorManager
  | [], state, _ => state
  | fragment :: rest, state, memory =>
      refillWith htable rest (doAddSliceWith sl htable fragment state memory).2 memory.tail

/-- What `add_slice` does with the two arrays. -/
def applyArrays (htable : OBHashtable) (chain : List OBSliceEntry) (slice : OBSliceEntry)
    (sa : FSStorageAllocatorManager) (adds dels : List OBSliceEntry) (memory : Memory) :
    Errno × List OBSliceEntry × FSStorageAllocatorManager :=
  doAddSliceWith sl htable slice
    (refillWith sl htable adds (dels.foldl (doDeleteSlice sl htable) (chain, sa)) memory)
    (memory.drop adds.length)

/-- `add_slice` and the memory that is left; `inc_alloc` is as in `addSlice`. -/
def addSliceWith (htable : OBHashtable) (chain : List OBSliceEntry) (slice : OBSliceEntry)
    (sa : FSStorageAllocatorManager) (memory : Memory) :
    (Errno × List OBSliceEntry × FSStorageAllocatorManager) × Memory :=
  match collect sl chain slice memory with
  | none => ((.enomem, chain, sa), memory)
  | some (arrays, rest) =>
      (applyArrays sl htable chain slice sa arrays.addSliceArray.slices arrays.delSliceArray.slices
        rest, rest.drop (arrays.addSliceArray.slices.length + 1))

/-- `ob_index_add_slice_ex` for a caller that asks for a sequence number. -/
def obIndexAddSliceWith (slice : OBSliceEntry) (state : IndexState) (memory : Memory) :
    Errno × IndexState × Memory :=
  match state.htable.getObEntry slice.ob with
  | none => (.enoent, state, memory)
  | some ob =>
      let added := addSliceWith sl state.htable ob.slices slice state.sallocator memory
      (added.1.1,
        ⟨state.htable.setObEntry { ob with slices := added.1.2.1 }, added.1.2.2,
          if added.1.1 = .ok then state.sliceBinlogSn + 1 else state.sliceBinlogSn⟩, added.2)

/-- The loop over the slices of an update. -/
def addSlicesWith : List OBSliceEntry → IndexState → Memory → Errno × IndexState
  | [], state, _ => (.ok, state)
  | slice :: rest, state, memory =>
      match obIndexAddSliceWith sl slice state memory with
      | (.ok, added, left) => addSlicesWith rest added left
      | (result, failed, _) => (result, failed)

/-- `fs_write_finish`; `opResult` is the result of the write so far. -/
def fsWriteFinish (opResult : Errno) (slices : List OBSliceEntry) (state : IndexState)
    (memory : Memory) : Errno × IndexState :=
  if opResult = .ok then addSlicesWith sl slices state memory else (opResult, state)

/-- The loop of `get_slice_index_holes` over the slices of the range. -/
def holesFrom (rangeEnd : Int) : Int → List OBSliceEntry → List FSSliceSize
  | offset, [] => if offset < rangeEnd then [⟨offset, rangeEnd - offset⟩] else []
  | offset, slice :: rest =>
      (if 0 < slice.ssize.offset - offset then [⟨offset, slice.ssize.offset - offset⟩] else []) ++
        holesFrom rangeEnd slice.sliceEnd rest

/-- `get_slice_index_holes`. -/
def getSliceIndexHoles (bsKey : FSBlockSliceKeyInfo) (htable : OBHashtable) : List FSSliceSize :=
  match obIndexGetSlicesEx sl bsKey htable with
  | (.ok, slices) =>
      holesFrom (bsKey.slice.offset + bsKey.slice.length) bsKey.slice.offset slices
  | _ => [bsKey.slice]

/-- The loop of `fs_slice_allocate` over the holes, with what `fs_slice_alloc` gives for each: its
result and the slices it has made, also where it fails. -/
def allocHoles (alloc : FSSliceSize → Errno × List OBSliceEntry) :
    List FSSliceSize → Errno × List OBSliceEntry
  | [] => (.ok, [])
  | hole :: rest =>
      match alloc hole with
      | (.ok, slices) => ((allocHoles alloc rest).1, slices ++ (allocHoles alloc rest).2)
      | (result, slices) => (result, slices)

/-- The index when the slices have been made: the block has an entry. -/
def enterBlock (bkey : FSBlockKey) (slices : List OBSliceEntry) (state : IndexState) :
    IndexState :=
  if slices = [] then state
  else { state with htable := obIndexAllocSliceEx bkey state.htable }

/-- `fs_slice_allocate`; `prepared` is the result of the arrays for the slices and the holes. -/
def fsSliceAllocate (bsKey : FSBlockSliceKeyInfo) (prepared : Errno)
    (alloc : FSSliceSize → Errno × List OBSliceEntry) (state : IndexState) (memory : Memory) :
    Errno × IndexState :=
  if prepared = .ok then
    let made := allocHoles alloc (getSliceIndexHoles sl bsKey state.htable)
    if made.1 = .ok then addSlicesWith sl made.2 (enterBlock bsKey.block made.2 state) memory
    else (made.1, enterBlock bsKey.block made.2 state)
  else (prepared, state)

end Skiplist

/-! ## The requests for memory -/

/-- One of the next `count` requests is refused. -/
def Refuses (memory : Memory) (count : Nat) : Prop := false ∈ memory.take count

instance (memory : Memory) (count : Nat) : Decidable (Refuses memory count) :=
  inferInstanceAs (Decidable (false ∈ memory.take count))

theorem refuses_add (memory : Memory) (count more : Nat) :
    Refuses memory (count + more) ↔ Refuses memory count ∨ Refuses (memory.drop count) more := by
  rw [Refuses, List.take_add, List.mem_append, Refuses, Refuses]

theorem not_refuses_zero (memory : Memory) : ¬Refuses memory 0 := by
  simp [Refuses]

/-- The computation makes `count` requests: it gives up if one of them is refused, and else ends
with a result of which `post` holds. -/
structure Asks {α : Type} (computation : Allocating α) (count : Nat) (post : α → Prop) : Prop where
  refused : ∀ memory, Refuses memory count → computation memory = none
  granted : ∀ memory, ¬Refuses memory count →
    ∃ result, computation memory = some (result, memory.drop count) ∧ post result

namespace Asks

variable {α β : Type}

theorem pure {post : α → Prop} {result : α} (holds : post result) :
    Asks (Pure.pure result) 0 post :=
  ⟨fun memory refuses => absurd refuses (not_refuses_zero memory),
    fun _ _ => ⟨result, rfl, holds⟩⟩

theorem bind {post : α → Prop} {next : β → Prop} {count more : Nat} {first : Allocating α}
    {second : α → Allocating β} (begins : Asks first count post)
    (goesOn : ∀ result, post result → Asks (second result) more next) :
    Asks (first >>= second) (count + more) next := by
  have ran : ∀ memory, (first >>= second) memory =
      (first memory).bind fun p => second p.1 p.2 := fun _ => rfl
  constructor
  · intro memory refuses
    rw [ran]
    by_cases early : Refuses memory count
    · rw [begins.refused memory early, Option.bind_none]
    · have late := ((refuses_add memory count more).mp refuses).resolve_left early
      obtain ⟨middle, done, holds⟩ := begins.granted memory early
      rw [done, Option.bind_some]
      exact (goesOn middle holds).refused _ late
  · intro memory grants
    obtain ⟨early, late⟩ := not_or.mp (mt (refuses_add memory count more).mpr grants)
    obtain ⟨middle, done, holds⟩ := begins.granted memory early
    obtain ⟨result, ended, after⟩ := (goesOn middle holds).granted _ late
    refine ⟨result, ?_, after⟩
    rw [ran, done, Option.bind_some, ended, List.drop_drop]

theorem allocate : Asks allocate 1 fun _ => True := by
  constructor
  · intro memory refuses
    match memory with
    | false :: rest => rfl
    | [] => simp [Refuses] at refuses
    | true :: rest => simp [Refuses] at refuses
  · intro memory grants
    match memory with
    | [] => exact ⟨(), rfl, trivial⟩
    | true :: rest => exact ⟨(), rfl, trivial⟩
    | false :: rest => exact absurd List.mem_cons_self grants

end Asks

/-- How often an array with `alloc` places and `count` slices grows while `more` are added. -/
def growths : Nat → Nat → Nat → Nat
  | _, _, 0 => 0
  | alloc, count, more + 1 =>
      if alloc ≤ count then 1 + growths (alloc * 2) (count + 1) more
      else growths alloc (count + 1) more

theorem growths_succ (alloc count more : Nat) :
    growths alloc count (more + 1) = growths alloc count 1 +
      growths (if alloc ≤ count then alloc * 2 else alloc) (count + 1) more := by
  simp only [growths]
  split_ifs with full
  · rfl
  · rw [Nat.zero_add]

/-- The place of a first slice needs no growth. -/
theorem growths_first {first : Nat} (one : first ≤ 1) (more : Nat) :
    growths initSlicePtrArray.alloc 0 (first + more) =
      growths initSlicePtrArray.alloc first more := by
  match first, one with
  | 0, _ => rw [Nat.zero_add]
  | 1, _ => rw [Nat.add_comm, growths, if_neg (by decide)]

/-- The requests of `add_slice` while it collects. -/
def collectRequests (chain : List OBSliceEntry) (slice : OBSliceEntry) : Nat :=
  growths initSlicePtrArray.alloc 0 (touchedSlices slice.ssize.offset slice.sliceEnd chain).length +
    (touchedPieces slice.ssize.offset slice.sliceEnd chain).length

/-- The requests of `add_slice` before it changes anything: where it overlaps nothing, also the
one for the node of the slice. -/
def safeRequests (chain : List OBSliceEntry) (slice : OBSliceEntry) : Nat :=
  collectRequests chain slice +
    if touchedSlices slice.ssize.offset slice.sliceEnd chain = [] then 1 else 0

/-- All requests of `add_slice`. -/
def addRequests (chain : List OBSliceEntry) (slice : OBSliceEntry) : Nat :=
  collectRequests chain slice +
    ((touchedPieces slice.ssize.offset slice.sliceEnd chain).length + 1)

theorem asks_addToSlicePtrSmartArray (array : OBSlicePtrSmartArray) (slice : OBSliceEntry) :
    Asks (addToSlicePtrSmartArray array slice) (growths array.alloc array.slices.length 1)
      fun result => result = ⟨if array.alloc ≤ array.slices.length then array.alloc * 2
        else array.alloc, array.slices ++ [slice]⟩ := by
  unfold addToSlicePtrSmartArray
  simp only [growths]
  split_ifs with full
  · exact Asks.allocate.bind fun _ _ => Asks.pure rfl
  · exact Asks.pure rfl

theorem asks_dupSliceToSmartArray (src : OBSliceEntry) (offset length : Int)
    {array : OBSlicePtrSmartArray} (room : array.slices.length < array.alloc) :
    Asks (dupSliceToSmartArray src offset length array) 1 fun result =>
      result = ⟨array.alloc, array.slices ++ [src.fragment offset length]⟩ := by
  have added := asks_addToSlicePtrSmartArray array (src.fragment offset length)
  simp only [growths, if_neg (not_le.mpr room)] at added
  exact Asks.allocate.bind fun _ _ => added

/-- The look at the previous node asks for its fragments alone. -/
theorem asks_collectPrevious (slice : OBSliceEntry) {below : List OBSliceEntry}
    (laid : Laid below) (starts : ∀ curr ∈ below, curr.ssize.offset < slice.ssize.offset) :
    Asks (collectPrevious slice below.getLast?)
      (touchedPieces slice.ssize.offset slice.sliceEnd below).length fun arrays =>
        arrays = ⟨⟨64, touchedPieces slice.ssize.offset slice.sliceEnd below⟩,
          ⟨64, touchedSlices slice.ssize.offset slice.sliceEnd below⟩⟩ := by
  rw [touchedSlices_below laid starts, touchedPieces_below laid starts]
  cases below.getLast? with
  | none => exact Asks.pure rfl
  | some curr =>
      have deleted : Asks (addToSlicePtrSmartArray initSlicePtrArray curr) 0
          fun result => result = ⟨64, [curr]⟩ := Asks.pure rfl
      have front := asks_dupSliceToSmartArray curr curr.ssize.offset
        (slice.ssize.offset - curr.ssize.offset) (show initSlicePtrArray.slices.length < 64 by decide)
      unfold collectPrevious
      dsimp only
      split_ifs with overlaps behind
      · change Asks _ (0 + (1 + (1 + 0))) _
        refine deleted.bind fun dels isDels => front.bind fun adds isAdds => ?_
        subst isDels isAdds
        refine (asks_dupSliceToSmartArray curr slice.sliceEnd _ ?_).bind fun adds isAdds =>
          Asks.pure ?_
        · simp [initSlicePtrArray]
        · subst isAdds
          rfl
      · change Asks _ (0 + (1 + 0)) _
        refine deleted.bind fun dels isDels => front.bind fun adds isAdds => Asks.pure ?_
        subst isDels isAdds
        rfl
      · exact Asks.pure rfl

theorem length_touchedSlices_below {lo hi : Int} {below : List OBSliceEntry} (laid : Laid below)
    (starts : ∀ curr ∈ below, curr.ssize.offset < lo) : (touchedSlices lo hi below).length ≤ 1 := by
  rw [touchedSlices_below laid starts]
  cases below.getLast? with
  | none => exact Nat.zero_le 1
  | some curr =>
      dsimp only
      split_ifs <;> simp

/-- The previous node leaves two fragments at most, so `add_slice_array` never grows. -/
theorem length_touchedPieces_below {lo hi : Int} {below : List OBSliceEntry} (laid : Laid below)
    (starts : ∀ curr ∈ below, curr.ssize.offset < lo) : (touchedPieces lo hi below).length ≤ 2 := by
  rw [touchedPieces_below laid starts]
  cases below.getLast? with
  | none => exact Nat.zero_le 2
  | some curr =>
      dsimp only
      split_ifs <;> simp

/-- The loop asks for the places of what it deletes and for its fragment. -/
theorem asks_collectLoop (slice : OBSliceEntry) (nonneg : 0 ≤ slice.ssize.length)
    {chain : List OBSliceEntry} (laid : Laid chain)
    (starts : ∀ curr ∈ chain, slice.ssize.offset ≤ curr.ssize.offset) (arrays : AddSliceArrays)
    (room : arrays.addSliceArray.slices.length < arrays.addSliceArray.alloc) :
    Asks (collectLoop slice chain arrays)
      (growths arrays.delSliceArray.alloc arrays.delSliceArray.slices.length
          (touchedSlices slice.ssize.offset slice.sliceEnd chain).length +
        (touchedPieces slice.ssize.offset slice.sliceEnd chain).length)
      fun result =>
        result.delSliceArray.slices = arrays.delSliceArray.slices ++
            touchedSlices slice.ssize.offset slice.sliceEnd chain ∧
          result.addSliceArray.slices = arrays.addSliceArray.slices ++
            touchedPieces slice.ssize.offset slice.sliceEnd chain := by
  have order : slice.ssize.offset ≤ slice.sliceEnd := le_add_of_nonneg_right nonneg
  induction chain generalizing arrays with
  | nil => exact Asks.pure ⟨(List.append_nil _).symm, (List.append_nil _).symm⟩
  | cons curr rest ih =>
      have inRange := starts curr List.mem_cons_self
      obtain ⟨_, _, restLaid⟩ := Laid.cons_iff.mp laid
      have deleted := asks_addToSlicePtrSmartArray arrays.delSliceArray curr
      rw [collectLoop]
      by_cases outside : slice.sliceEnd ≤ curr.ssize.offset
      · rw [if_pos outside, touchedSlices_behind laid order outside,
          touchedPieces_behind laid order outside]
        exact Asks.pure ⟨(List.append_nil _).symm, (List.append_nil _).symm⟩
      · have begins := not_le.mp outside
        rw [if_neg outside]
        by_cases behind : slice.sliceEnd < curr.sliceEnd
        · rw [touchedSlices_last laid inRange begins behind,
            touchedPieces_last laid inRange begins behind]
          simp only [if_pos behind]
          refine deleted.bind fun dels isDels => ?_
          subst isDels
          refine (asks_dupSliceToSmartArray curr _ _ room).bind fun adds isAdds => Asks.pure ?_
          subst isAdds
          exact ⟨rfl, rfl⟩
        · rw [touchedSlices_cons inRange begins, touchedPieces_cons inRange begins]
          simp only [if_neg behind, List.nil_append, List.length_cons]
          rw [growths_succ, Nat.add_assoc]
          refine deleted.bind fun dels isDels => ?_
          have tail := ih restLaid (fun next member => starts next (List.mem_cons_of_mem _ member))
            ⟨arrays.addSliceArray, dels⟩ room
          rw [isDels] at tail ⊢
          simpa using tail

section Skiplist

variable (sl : UniqSkiplist OBSliceEntry.key) {chain : List OBSliceEntry} {slice : OBSliceEntry}

/-- The collected arrays: the touched slices and what is left of them. -/
theorem asks_collect (laid : Laid chain) (nonneg : 0 ≤ slice.ssize.length) :
    Asks (collect sl chain slice) (collectRequests chain slice) fun arrays =>
      arrays.delSliceArray.slices = touchedSlices slice.ssize.offset slice.sliceEnd chain ∧
        arrays.addSliceArray.slices =
          touchedPieces slice.ssize.offset slice.sliceEnd chain := by
  have split := findGe_parts sl laid slice.key
  unfold collect
  generalize sl.findGe chain slice.key = found at split
  obtain ⟨left, right⟩ := found
  obtain ⟨parts, below, behind⟩ := split
  dsimp only at parts below behind
  subst parts
  obtain ⟨leftLaid, rightLaid, _⟩ := Laid.append_iff.mp laid
  split_ifs with empty
  · rw [empty]
    exact Asks.pure ⟨rfl, rfl⟩
  · have fragments : (touchedPieces slice.ssize.offset slice.sliceEnd left).length ≤ 2 :=
      length_touchedPieces_below leftLaid below
    have first : (touchedSlices slice.ssize.offset slice.sliceEnd left).length ≤ 1 :=
      length_touchedSlices_below leftLaid below
    have loop := asks_collectLoop slice nonneg rightLaid behind
      ⟨⟨64, touchedPieces slice.ssize.offset slice.sliceEnd left⟩,
        ⟨64, touchedSlices slice.ssize.offset slice.sliceEnd left⟩⟩ (by dsimp only; omega)
    rw [collectRequests, touchedSlices_append, touchedPieces_append, List.length_append,
      List.length_append, growths_first first, Nat.add_left_comm]
    refine (asks_collectPrevious slice leftLaid below).bind fun arrays isArrays => ?_
    rw [isArrays]
    exact loop

/-! ## One add -/

theorem doAddSliceWith_granted {htable : OBHashtable} {memory : Memory}
    (grants : ¬Refuses memory 1) (state : List OBSliceEntry × FSStorageAllocatorManager) :
    doAddSliceWith sl htable slice state memory = doAddSlice sl htable state slice := by
  match memory with
  | [] => rfl
  | true :: rest => rfl
  | false :: rest => exact absurd List.mem_cons_self grants

theorem doAddSliceWith_refused {htable : OBHashtable} {memory : Memory}
    (refuses : Refuses memory 1) (state : List OBSliceEntry × FSStorageAllocatorManager) :
    doAddSliceWith sl htable slice state memory = (.enomem, state) := by
  match memory with
  | [] => simp [Refuses] at refuses
  | true :: rest => simp [Refuses] at refuses
  | false :: rest => rfl

/-- The fragments whose nodes are granted. -/
def granted : List OBSliceEntry → Memory → List OBSliceEntry
  | [], _ => []
  | fragment :: rest, memory =>
      if Refuses memory 1 then granted rest memory.tail
      else fragment :: granted rest memory.tail

theorem granted_sublist (items : List OBSliceEntry) (memory : Memory) :
    (granted items memory).Sublist items := by
  induction items generalizing memory with
  | nil => exact List.Sublist.refl []
  | cons item rest ih =>
      rw [granted]
      split_ifs
      · exact (ih memory.tail).cons item
      · exact (ih memory.tail).cons_cons item

theorem granted_of_not_refuses {items : List OBSliceEntry} {memory : Memory}
    (grants : ¬Refuses memory items.length) : granted items memory = items := by
  induction items generalizing memory with
  | nil => rfl
  | cons item rest ih =>
      rw [List.length_cons, Nat.add_comm, refuses_add, not_or, List.drop_one] at grants
      rw [granted, if_neg grants.1, ih grants.2]

/-- A refused node loses its fragment. -/
theorem exists_not_mem_granted {items : List OBSliceEntry} (nodup : items.Nodup) {memory : Memory}
    (refuses : Refuses memory items.length) : ∃ item ∈ items, item ∉ granted items memory := by
  induction items generalizing memory with
  | nil => exact absurd refuses (not_refuses_zero memory)
  | cons item rest ih =>
      obtain ⟨fresh, restNodup⟩ := List.nodup_cons.mp nodup
      rw [List.length_cons, Nat.add_comm, refuses_add, List.drop_one] at refuses
      rw [granted]
      split_ifs with first
      · exact ⟨item, List.mem_cons_self,
          fun member => fresh ((granted_sublist rest _).subset member)⟩
      · obtain ⟨lost, member, absent⟩ := ih restNodup (refuses.resolve_left first)
        refine ⟨lost, List.mem_cons_of_mem _ member, ?_⟩
        intro present
        rcases List.mem_cons.mp present with rfl | later
        · exact fresh member
        · exact absent later

theorem refillWith_chain (htable : OBHashtable) (items : List OBSliceEntry)
    (state : List OBSliceEntry × FSStorageAllocatorManager) (memory : Memory) :
    (refillWith sl htable items state memory).1 = sl.insertAll (granted items memory) state.1 := by
  induction items generalizing state memory with
  | nil => rfl
  | cons item rest ih =>
      rw [refillWith, ih, granted]
      split_ifs with refuses
      · rw [doAddSliceWith_refused sl refuses]
      · rw [doAddSliceWith_granted sl refuses, doAddSlice_chain]
        rfl

theorem refillWith_granted (htable : OBHashtable) {items : List OBSliceEntry}
    (state : List OBSliceEntry × FSStorageAllocatorManager) {memory : Memory}
    (grants : ¬Refuses memory items.length) :
    refillWith sl htable items state memory =
      items.foldl (fun state slice => (doAddSlice sl htable state slice).2) state := by
  induction items generalizing state memory with
  | nil => rfl
  | cons item rest ih =>
      rw [List.length_cons, Nat.add_comm, refuses_add, not_or, List.drop_one] at grants
      rw [refillWith, doAddSliceWith_granted sl grants.1, ih _ grants.2, List.foldl_cons]

variable (htable : OBHashtable) (sa : FSStorageAllocatorManager) {memory : Memory}

/-- With all memory granted, `add_slice` is as without failures. -/
theorem addSliceWith_granted (laid : Laid chain) (nonneg : 0 ≤ slice.ssize.length)
    (grants : ¬Refuses memory (addRequests chain slice)) :
    addSliceWith sl htable chain slice sa memory =
      (((addSlice sl htable chain slice sa).1, (addSlice sl htable chain slice sa).2.2),
        memory.drop (addRequests chain slice)) := by
  rw [addRequests, refuses_add, refuses_add, not_or, not_or] at grants
  obtain ⟨arrays, collected, isDels, isAdds⟩ :=
    (asks_collect sl laid nonneg).granted memory grants.1
  unfold addSliceWith applyArrays
  rw [collected]
  dsimp only
  rw [isDels, isAdds, refillWith_granted sl htable _ grants.2.1,
    doAddSliceWith_granted sl grants.2.2, List.drop_drop, addRequests]
  unfold addSlice
  split_ifs with empty
  · subst empty
    rfl
  · obtain ⟨dels, adds⟩ := addSliceScan_spec sl laid nonneg
    simp only [dels, adds]

/-- Refused before it changes anything, `add_slice` leaves the block as it was. -/
theorem addSliceWith_safe (laid : Laid chain) (nonneg : 0 ≤ slice.ssize.length)
    (refuses : Refuses memory (safeRequests chain slice)) :
    (addSliceWith sl htable chain slice sa memory).1 = (.enomem, chain, sa) := by
  by_cases early : Refuses memory (collectRequests chain slice)
  · unfold addSliceWith
    rw [(asks_collect sl laid nonneg).refused memory early]
  · have late := ((refuses_add _ _ _).mp refuses).resolve_left early
    split_ifs at late with untouched
    · obtain ⟨arrays, collected, isDels, isAdds⟩ :=
        (asks_collect sl laid nonneg).granted memory early
      have noPieces : touchedPieces slice.ssize.offset slice.sliceEnd chain = [] := by
        rw [touchedPieces, untouched, List.flatMap_nil]
      unfold addSliceWith applyArrays
      rw [collected]
      dsimp only
      rw [isDels, isAdds, untouched, noPieces, List.length_nil, List.drop_zero,
        doAddSliceWith_refused sl late]
      rfl
    · exact absurd late (not_refuses_zero _)

section Torn

variable {lo hi : Int} {x : OBSliceEntry}

/-- The chain when the touched slices are deleted and the granted fragments are added. -/
def tornChain (lo hi : Int) (chain : List OBSliceEntry) (memory : Memory) : List OBSliceEntry :=
  sl.insertAll (granted (touchedPieces lo hi chain) memory)
    (sl.deleteAll ((touchedSlices lo hi chain).map OBSliceEntry.key) chain)

theorem ascending_tornChain (laid : Laid chain) (order : lo ≤ hi) (memory : Memory) :
    Ascending OBSliceEntry.key (tornChain sl lo hi chain memory) :=
  (insertAll_deleteAll_spec sl laid order (granted_sublist _ memory)).1

theorem mem_carve_of_tornChain (laid : Laid chain) (order : lo ≤ hi)
    (member : x ∈ tornChain sl lo hi chain memory) : x ∈ carve lo hi chain := by
  have members := (insertAll_deleteAll_spec sl laid order (granted_sublist _ memory)).2 x
  rcases members.mp member with kept | ⟨inChain, untouched⟩
  · obtain ⟨source, touched, piece⟩ :=
      List.mem_flatMap.mp ((granted_sublist _ memory).subset kept)
    exact mem_carve.mpr ⟨source, (List.mem_filter.mp touched).1, piece⟩
  · exact mem_carve.mpr ⟨x, inChain, by simp [pieces_of_not_touched untouched]⟩

theorem mem_carve_of_touchedPieces (member : x ∈ touchedPieces lo hi chain) :
    x ∈ carve lo hi chain := by
  obtain ⟨source, touched, piece⟩ := List.mem_flatMap.mp member
  exact mem_carve.mpr ⟨source, (List.mem_filter.mp touched).1, piece⟩

/-- A fragment that was refused is not in the chain. -/
theorem not_mem_tornChain (laid : Laid chain) (order : lo ≤ hi)
    (piece : x ∈ touchedPieces lo hi chain)
    (lost : x ∉ granted (touchedPieces lo hi chain) memory) :
    x ∉ tornChain sl lo hi chain memory := by
  intro member
  have members := (insertAll_deleteAll_spec sl laid order (granted_sublist _ memory)).2 x
  rcases members.mp member with kept | ⟨inChain, untouched⟩
  · exact lost kept
  · obtain ⟨source, touched, cut⟩ := List.mem_flatMap.mp piece
    obtain ⟨sourceMember, touched⟩ := List.mem_filter.mp touched
    exact start_ne_of_touched laid order sourceMember (by simpa using touched) cut inChain untouched
      rfl

/-- Nothing of the chain lies over the bytes of a lost fragment. -/
theorem not_over_tornChain (laid : Laid chain) (order : lo ≤ hi)
    (piece : x ∈ touchedPieces lo hi chain)
    (lost : x ∉ granted (touchedPieces lo hi chain) memory) {y : OBSliceEntry}
    (member : y ∈ tornChain sl lo hi chain memory) {b : Int} (covers : Over x b) : ¬Over y b := by
  intro also
  have same := (laid.carve order).eq_of_over (mem_carve_of_touchedPieces piece)
    (mem_carve_of_tornChain sl laid order member) covers also
  rw [← same] at member
  exact not_mem_tornChain sl laid order piece lost member

end Torn

theorem addSliceWith_begun (laid : Laid chain) (nonneg : 0 ≤ slice.ssize.length)
    (collects : ¬Refuses memory (collectRequests chain slice)) :
    ∃ state, state.1 = tornChain sl slice.ssize.offset slice.sliceEnd chain
        (memory.drop (collectRequests chain slice)) ∧
      (addSliceWith sl htable chain slice sa memory).1 =
        doAddSliceWith sl htable slice state
          ((memory.drop (collectRequests chain slice)).drop
            (touchedPieces slice.ssize.offset slice.sliceEnd chain).length) := by
  obtain ⟨arrays, collected, isDels, isAdds⟩ :=
    (asks_collect sl laid nonneg).granted memory collects
  refine ⟨refillWith sl htable (touchedPieces slice.ssize.offset slice.sliceEnd chain)
    ((touchedSlices slice.ssize.offset slice.sliceEnd chain).foldl (doDeleteSlice sl htable)
      (chain, sa)) (memory.drop (collectRequests chain slice)), ?_, ?_⟩
  · rw [refillWith_chain, foldl_doDeleteSlice_chain]
    rfl
  · unfold addSliceWith applyArrays
    rw [collected]
    dsimp only
    rw [isDels, isAdds]

/-- Where a range touches a slice, the slice has a byte in the range. -/
theorem exists_over_of_touched {lo hi : Int} (order : lo < hi) {other : OBSliceEntry}
    (filled : 0 < other.ssize.length) (touched : Touched lo hi other) :
    ∃ b, Over other b ∧ lo ≤ b ∧ b < hi := by
  refine ⟨max lo other.ssize.offset, ?_⟩
  simp only [Touched, Over, OBSliceEntry.start_eq, OBSliceEntry.stop_eq,
    OBSliceEntry.sliceEnd] at touched ⊢
  omega

/-- Refused after it has begun to change the block, `add_slice` either loses a fragment and
succeeds, or fails and leaves a hole. -/
theorem addSliceWith_torn (laid : Laid chain) (filled : ∀ other ∈ chain, 0 < other.ssize.length)
    (positive : 0 < slice.ssize.length) (begun : ¬Refuses memory (safeRequests chain slice))
    (refuses : Refuses memory (addRequests chain slice)) {β : Type}
    (image : OBSliceEntry → Int → β) :
    ∃ b, valueAt image (addSliceWith sl htable chain slice sa memory).1.2.1 b = none ∧
      valueAt image chain b ≠ none ∧
      ((addSliceWith sl htable chain slice sa memory).1.1 = .ok →
        ¬(slice.ssize.offset ≤ b ∧ b < slice.sliceEnd)) := by
  have order : slice.ssize.offset ≤ slice.sliceEnd := le_add_of_nonneg_right positive.le
  have strict : slice.ssize.offset < slice.sliceEnd := lt_add_of_pos_right _ positive
  rw [safeRequests, refuses_add, not_or] at begun
  rw [addRequests, refuses_add, refuses_add] at refuses
  have later := refuses.resolve_left begun.1
  obtain ⟨state, torn, ran⟩ := addSliceWith_begun sl htable sa laid positive.le begun.1
  rw [ran]
  by_cases node : Refuses ((memory.drop (collectRequests chain slice)).drop
      (touchedPieces slice.ssize.offset slice.sliceEnd chain).length) 1
  · -- the slice is refused: what it overlaps is gone
    have touches : touchedSlices slice.ssize.offset slice.sliceEnd chain ≠ [] := by
      intro untouched
      have noPieces : touchedPieces slice.ssize.offset slice.sliceEnd chain = [] := by
        rw [touchedPieces, untouched, List.flatMap_nil]
      rw [noPieces] at node
      rw [if_pos untouched] at begun
      exact begun.2 node
    obtain ⟨other, member⟩ := List.exists_mem_of_ne_nil _ touches
    obtain ⟨inChain, touched⟩ := List.mem_filter.mp member
    obtain ⟨b, covers, inRange⟩ :=
      exists_over_of_touched strict (filled other inChain) (by simpa using touched)
    rw [doAddSliceWith_refused sl node, torn]
    refine ⟨b, ?_, ?_, fun done => absurd done (by simp)⟩
    · refine valueAt_eq_none_iff.mpr fun y yMember => ?_
      exact not_over_carve laid order (mem_carve_of_tornChain sl laid order yMember) inRange
    · exact fun absent => valueAt_eq_none_iff.mp absent other inChain covers
  · -- a fragment is refused and the slice is not
    have nodup : (touchedPieces slice.ssize.offset slice.sliceEnd chain).Nodup := by
      have sub : (touchedPieces slice.ssize.offset slice.sliceEnd chain).Sublist
          (carve slice.ssize.offset slice.sliceEnd chain) :=
        List.Sublist.flatMap List.filter_sublist _
      exact ((laid.carve order).ascending.sublist sub).imp fun less same => by
        rw [same] at less
        exact lt_irrefl _ less
    obtain ⟨x, piece, lost⟩ := exists_not_mem_granted nodup (later.resolve_right node)
    have carved := mem_carve_of_touchedPieces piece
    obtain ⟨source, member, cut⟩ := List.mem_flatMap.mp piece
    obtain ⟨inChain, touched⟩ := List.mem_filter.mp member
    obtain ⟨filledPiece, low, high⟩ := piece_of_touched order (filled source inChain).le
      (by simpa using touched) cut
    have covers : Over x (Extent.start x) := by
      rw [Over, stop]
      omega
    have fresh : ∀ other ∈ state.1, other.key ≠ slice.key := by
      intro other otherMember
      rw [torn] at otherMember
      exact fresh_of_carve laid positive other (mem_carve_of_tornChain sl laid order otherMember)
    have sorted : Ascending OBSliceEntry.key state.1 := by
      rw [torn]
      exact ascending_tornChain sl laid order _
    rw [doAddSliceWith_granted sl node, doAddSlice_chain, sl.insert_fresh _ _ sorted fresh, torn]
    have outside : ¬(slice.ssize.offset ≤ Extent.start x ∧ Extent.start x < slice.sliceEnd) :=
      fun inRange => not_over_carve laid order carved inRange covers
    refine ⟨Extent.start x, ?_, ?_, fun _ => outside⟩
    · refine valueAt_eq_none_iff.mpr fun y yMember => ?_
      rcases Chain.mem_insert.mp yMember with rfl | inTorn
      · exact outside
      · exact not_over_tornChain sl laid order piece lost inTorn covers
    · exact fun absent => valueAt_eq_none_iff.mp absent source inChain ⟨low, high⟩

end Skiplist

/-! ## One call on the index -/

namespace IndexState

/-- Where the bytes of the blocks are. -/
def byteMap (state : IndexState) (bkey : FSBlockKey) (b : Int) : Option TrunkByte :=
  valueAt OBSliceEntry.byteAt (state.htable.slicesOf bkey) b

/-- The byte map of every block is the same and no sequence number is taken. -/
structure Unchanged (before after : IndexState) : Prop where
  byteMap : after.byteMap = before.byteMap
  sliceBinlogSn : after.sliceBinlogSn = before.sliceBinlogSn

/-- The byte map is the full result of adding the slice. -/
def FullAdd (before : IndexState) (slice : OBSliceEntry) (after : IndexState) : Prop :=
  ∀ bkey b, after.byteMap bkey b =
    ((IndexOp.addSlice true slice).effect bkey b).getD (before.byteMap bkey b)

/-- The index is sound without empty slices, and the slices to add are not empty, have their
block entry and, where the trunks are accounted, a trunk. -/
structure Serves (state : IndexState) (slices : List OBSliceEntry) : Prop where
  sound : state.htable.Sound
  filled : ∀ bkey, ∀ slice ∈ state.htable.slicesOf bkey, 0 < slice.ssize.length
  positive : ∀ slice ∈ slices, 0 < slice.ssize.length
  entered : ∀ slice ∈ slices, (state.htable.getObEntry slice.ob).isSome
  known : state.htable.modifySallocator = true →
    ∀ slice ∈ slices, (state.sallocator.trunks slice.space.trunk).isSome

end IndexState

section Calls

variable (sl : UniqSkiplist OBSliceEntry.key) {state : IndexState} {slice : OBSliceEntry}
  {rest : List OBSliceEntry} {memory : Memory}

theorem storageAllocatorAddSlice_ok {sa : FSStorageAllocatorManager}
    (known : (sa.trunks slice.space.trunk).isSome) (modifyUsedSpace : Bool) :
    (storageAllocatorAddSlice slice modifyUsedSpace sa).1 = .ok := by
  have found : ∀ sa : FSStorageAllocatorManager, (sa.trunks slice.space.trunk).isSome →
      (trunkAllocatorAddSlice slice sa).1 = .ok := by
    intro sa known
    obtain ⟨trunk, present⟩ := Option.isSome_iff_exists.mp known
    simp only [trunkAllocatorAddSlice, present]
  cases modifyUsedSpace with
  | false => exact found sa known
  | true => exact found (addStatUsed slice.space.store slice.space.size sa) known

theorem doAddSlice_ok_of_known {htable : OBHashtable}
    {before : List OBSliceEntry × FSStorageAllocatorManager}
    (inserted : (sl.insert before.1 slice).1 = .ok)
    (known : htable.modifySallocator = true → (before.2.trunks slice.space.trunk).isSome) :
    (doAddSlice sl htable before slice).1 = .ok := by
  unfold doAddSlice
  split
  · split_ifs with accounted
    · exact storageAllocatorAddSlice_ok (known accounted) _
    · rfl
  · rename_i result chain refused outcome
    rw [outcome] at inserted
    exact (refused inserted).elim

/-- Adding a non-empty slice on a known trunk succeeds when nothing is refused. -/
theorem addSlice_ok_of_known {htable : OBHashtable} {chain : List OBSliceEntry} (laid : Laid chain)
    (positive : 0 < slice.ssize.length) {sa : FSStorageAllocatorManager}
    (known : htable.modifySallocator = true → (sa.trunks slice.space.trunk).isSome) :
    (addSlice sl htable chain slice sa).1 = .ok := by
  have order : slice.ssize.offset ≤ slice.sliceEnd := le_add_of_nonneg_right positive.le
  unfold Storage.addSlice
  split_ifs with empty
  · subst empty
    refine doAddSlice_ok_of_known sl ?_ known
    rw [sl.insert_fresh [] slice (Ascending.nil _) (by simp)]
  · obtain ⟨dels, adds⟩ := addSliceScan_spec sl laid positive.le
    simp only [dels, adds]
    apply doAddSlice_ok_of_known sl
    · rw [foldl_doAddSlice_chain, foldl_doDeleteSlice_chain, refilled_eq_carve sl laid order,
        sl.insert_fresh _ slice (laid.carve order).ascending (fresh_of_carve laid positive)]
    · intro accounted
      rw [(sameSpace_foldl_doAddSlice sl htable _ _).isSome_eq,
        (sameSpace_foldl_doDeleteSlice sl htable _ _).isSome_eq]
      exact known accounted

/-- A call changes the chain of its block alone. -/
theorem slicesOf_obIndexAddSliceWith (serves : state.Serves (slice :: rest)) (other : FSBlockKey) :
    (obIndexAddSliceWith sl slice state memory).2.1.htable.slicesOf other =
      if other = slice.ob then
        (addSliceWith sl state.htable (state.htable.slicesOf slice.ob) slice state.sallocator
          memory).1.2.1
      else state.htable.slicesOf other := by
  obtain ⟨ob, present⟩ := Option.isSome_iff_exists.mp (serves.entered slice List.mem_cons_self)
  have name := OBHashtable.bkey_of_getObEntry serves.sound.wf present
  rw [OBHashtable.slicesOf_of_getObEntry present]
  simp only [obIndexAddSliceWith, present]
  have changed := OBHashtable.slicesOf_set serves.sound.wf
    ⟨ob.bkey, ob.reclaimingCount,
      (addSliceWith sl state.htable ob.slices slice state.sallocator memory).1.2.1⟩
    (by rw [name]; exact present) other
  rw [changed, name]

/-- The result and the number of a call are those of `add_slice` on the chain of its block. -/
theorem obIndexAddSliceWith_result (serves : state.Serves (slice :: rest)) (memory : Memory) :
    (obIndexAddSliceWith sl slice state memory).1 =
        (addSliceWith sl state.htable (state.htable.slicesOf slice.ob) slice state.sallocator
          memory).1.1 ∧
      (obIndexAddSliceWith sl slice state memory).2.1.sliceBinlogSn =
        if (obIndexAddSliceWith sl slice state memory).1 = .ok then state.sliceBinlogSn + 1
        else state.sliceBinlogSn := by
  obtain ⟨ob, present⟩ := Option.isSome_iff_exists.mp (serves.entered slice List.mem_cons_self)
  rw [OBHashtable.slicesOf_of_getObEntry present]
  simp only [obIndexAddSliceWith, present, and_self]

/-- With all memory granted, a call is as without failures and succeeds. -/
theorem obIndexAddSliceWith_granted (serves : state.Serves (slice :: rest))
    (grants : ¬Refuses memory (addRequests (state.htable.slicesOf slice.ob) slice)) :
    obIndexAddSliceWith sl slice state memory =
      (.ok, (obIndexAddSliceEx sl true slice state).2.2,
        memory.drop (addRequests (state.htable.slicesOf slice.ob) slice)) := by
  have positive := serves.positive slice List.mem_cons_self
  have laid := serves.sound.laid slice.ob
  obtain ⟨ob, present⟩ := Option.isSome_iff_exists.mp (serves.entered slice List.mem_cons_self)
  have done := addSlice_ok_of_known sl laid positive fun accounted =>
    serves.known accounted slice List.mem_cons_self
  rw [OBHashtable.slicesOf_of_getObEntry present] at laid grants done ⊢
  have added := addSliceWith_granted sl state.htable state.sallocator laid positive.le grants
  simp only [obIndexAddSliceWith, obIndexAddSliceEx, present, added, done, if_true, nextSn]

theorem slicesOf_obIndexAddSliceEx_of_serves (serves : state.Serves (slice :: rest))
    (other : FSBlockKey) :
    (obIndexAddSliceEx sl true slice state).2.2.htable.slicesOf other =
      if other = slice.ob then overwrite slice (state.htable.slicesOf slice.ob)
      else state.htable.slicesOf other := by
  obtain ⟨ob, present⟩ := Option.isSome_iff_exists.mp (serves.entered slice List.mem_cons_self)
  rw [slicesOf_obIndexAddSliceEx sl true serves.sound present,
    addSlice_chain_eq_overwrite sl _ (serves.sound.laid slice.ob)
      (serves.positive slice List.mem_cons_self)]

/-- A call without failures has its full result. -/
theorem fullAdd_obIndexAddSliceEx (serves : state.Serves (slice :: rest)) :
    state.FullAdd slice (obIndexAddSliceEx sl true slice state).2.2 := by
  intro bkey b
  have positive := serves.positive slice List.mem_cons_self
  rw [IndexState.byteMap, slicesOf_obIndexAddSliceEx_of_serves sl serves, IndexOp.effect]
  by_cases same : bkey = slice.ob
  · subst same
    rw [if_pos rfl, valueAt_overwrite OBSliceEntry.cutInvariant_byteAt
      (serves.sound.laid slice.ob) positive]
    by_cases covers : Over slice b
    · rw [if_pos covers, if_pos ⟨rfl, covers⟩]
      rfl
    · rw [if_neg covers, if_neg fun both => covers both.2]
      rfl
  · rw [if_neg same, if_neg fun both => same both.1.symm]
    rfl

theorem isSome_getObEntry_set {htable : OBHashtable} (wf : htable.WellFormed) {ob old : OBEntry}
    (present : htable.getObEntry ob.bkey = some old) {other : FSBlockKey}
    (entered : (htable.getObEntry other).isSome) :
    ((htable.setObEntry ob).getObEntry other).isSome := by
  by_cases same : other = ob.bkey
  · rw [same, OBHashtable.getObEntry_set_self wf present]
    rfl
  · rw [OBHashtable.getObEntry_set_of_ne wf same]
    exact entered

/-- After a call without failures the next slices can be added. -/
theorem serves_obIndexAddSliceEx (serves : state.Serves (slice :: rest)) :
    (obIndexAddSliceEx sl true slice state).2.2.Serves rest := by
  have positive := serves.positive slice List.mem_cons_self
  have order : slice.ssize.offset ≤ slice.sliceEnd := le_add_of_nonneg_right positive.le
  obtain ⟨ob, present⟩ := Option.isSome_iff_exists.mp (serves.entered slice List.mem_cons_self)
  constructor
  · exact sound_obIndexAddSliceEx sl true serves.sound present positive.le
  · intro bkey other member
    rw [slicesOf_obIndexAddSliceEx_of_serves sl serves] at member
    split_ifs at member with same
    · rcases Chain.mem_insert.mp member with rfl | kept
      · exact positive
      · exact positive_of_mem_carve order (serves.filled slice.ob) kept
    · exact serves.filled bkey other member
  · exact fun other member => serves.positive other (List.mem_cons_of_mem _ member)
  · intro other member
    have entered := serves.entered other (List.mem_cons_of_mem _ member)
    have name := OBHashtable.bkey_of_getObEntry serves.sound.wf present
    simp only [obIndexAddSliceEx, present]
    exact isSome_getObEntry_set serves.sound.wf (by rw [name]; exact present) entered
  · intro accounted other member
    have known := serves.known
      ((sameShape_obIndexAddSliceEx sl true slice state).modifySallocator ▸ accounted) other
      (List.mem_cons_of_mem _ member)
    rw [sallocator_obIndexAddSliceEx sl true present, (sameSpace_addSlice sl _ _ _ _).isSome_eq]
    exact known

/-- A call that is refused before it changes anything leaves the index unchanged. -/
theorem obIndexAddSliceWith_safe (serves : state.Serves (slice :: rest))
    (refuses : Refuses memory (safeRequests (state.htable.slicesOf slice.ob) slice)) :
    (obIndexAddSliceWith sl slice state memory).1 = .enomem ∧
      state.Unchanged (obIndexAddSliceWith sl slice state memory).2.1 := by
  have positive := serves.positive slice List.mem_cons_self
  have failed := addSliceWith_safe sl state.htable state.sallocator (serves.sound.laid slice.ob)
    positive.le refuses
  obtain ⟨result, number⟩ := obIndexAddSliceWith_result sl serves memory
  rw [failed] at result
  refine ⟨result, ?_, ?_⟩
  · funext bkey b
    rw [IndexState.byteMap, slicesOf_obIndexAddSliceWith sl serves, failed]
    split_ifs with same
    · rw [same]
      rfl
    · rfl
  · rw [number, result, if_neg fun done => nomatch done]

/-- A call that is refused later loses bytes, whether it succeeds or not. -/
theorem obIndexAddSliceWith_torn (serves : state.Serves (slice :: rest))
    (begun : ¬Refuses memory (safeRequests (state.htable.slicesOf slice.ob) slice))
    (refuses : Refuses memory (addRequests (state.htable.slicesOf slice.ob) slice)) :
    ((obIndexAddSliceWith sl slice state memory).1 = .ok →
        ¬state.FullAdd slice (obIndexAddSliceWith sl slice state memory).2.1) ∧
      ¬state.Unchanged (obIndexAddSliceWith sl slice state memory).2.1 := by
  obtain ⟨b, lost, present, outside⟩ := addSliceWith_torn sl state.htable state.sallocator
    (serves.sound.laid slice.ob) (serves.filled slice.ob)
    (serves.positive slice List.mem_cons_self) begun refuses OBSliceEntry.byteAt
  have after : (obIndexAddSliceWith sl slice state memory).2.1.byteMap slice.ob b = none := by
    rw [IndexState.byteMap, slicesOf_obIndexAddSliceWith sl serves, if_pos rfl]
    exact lost
  constructor
  · intro done full
    rw [(obIndexAddSliceWith_result sl serves memory).1] at done
    have value := full slice.ob b
    rw [after, IndexOp.effect, if_neg fun both => outside done both.2, Option.getD_none] at value
    exact present value.symm
  · intro unchanged
    rw [unchanged.byteMap] at after
    exact present after

end Calls

/-! ## Updates -/

section Updates

variable (sl : UniqSkiplist OBSliceEntry.key)

/-- Each call of the loop that returns 0 has its full result. -/
def CallsFull : List OBSliceEntry → IndexState → Memory → Prop
  | [], _, _ => True
  | slice :: rest, state, memory =>
      (obIndexAddSliceWith sl slice state memory).1 = .ok →
        state.FullAdd slice (obIndexAddSliceWith sl slice state memory).2.1 ∧
          CallsFull rest (obIndexAddSliceWith sl slice state memory).2.1
            (obIndexAddSliceWith sl slice state memory).2.2

/-- All requests of the loop, on the chains of the blocks. -/
def updateRequests : List OBSliceEntry → (FSBlockKey → List OBSliceEntry) → Nat
  | [], _ => 0
  | slice :: rest, chains =>
      addRequests (chains slice.ob) slice +
        updateRequests rest fun bkey =>
          if bkey = slice.ob then overwrite slice (chains slice.ob) else chains bkey

/-- No request of the update is refused, or one is that its first add makes before it changes
anything. -/
def Spared (slices : List OBSliceEntry) (chains : FSBlockKey → List OBSliceEntry)
    (memory : Memory) : Prop :=
  ¬Refuses memory (updateRequests slices chains) ∨
    ∃ slice ∈ slices.head?, Refuses memory (safeRequests (chains slice.ob) slice)

variable {state : IndexState} {slice : OBSliceEntry} {slices rest : List OBSliceEntry}
  {memory : Memory}

theorem updateRequests_cons (serves : state.Serves (slice :: rest)) :
    updateRequests (slice :: rest) state.htable.slicesOf =
      addRequests (state.htable.slicesOf slice.ob) slice +
        updateRequests rest (obIndexAddSliceEx sl true slice state).2.2.htable.slicesOf := by
  have chains : (obIndexAddSliceEx sl true slice state).2.2.htable.slicesOf = fun bkey =>
      if bkey = slice.ob then overwrite slice (state.htable.slicesOf slice.ob)
      else state.htable.slicesOf bkey := by
    funext bkey
    exact slicesOf_obIndexAddSliceEx_of_serves sl serves bkey
  rw [chains, updateRequests]

theorem addSlicesWith_cons (done : (obIndexAddSliceWith sl slice state memory).1 = .ok) :
    addSlicesWith sl (slice :: rest) state memory =
      addSlicesWith sl rest (obIndexAddSliceWith sl slice state memory).2.1
        (obIndexAddSliceWith sl slice state memory).2.2 := by
  rw [addSlicesWith]
  split
  · rename_i added left outcome
    rw [outcome]
  · rename_i result failed left refused outcome
    rw [outcome] at done
    exact (refused done).elim

theorem addSlicesWith_cons_failed (failed : (obIndexAddSliceWith sl slice state memory).1 ≠ .ok) :
    addSlicesWith sl (slice :: rest) state memory =
      ((obIndexAddSliceWith sl slice state memory).1,
        (obIndexAddSliceWith sl slice state memory).2.1) := by
  rw [addSlicesWith]
  split
  · rename_i added left outcome
    rw [outcome] at failed
    exact absurd rfl failed
  · rename_i result state left refused outcome
    rw [outcome]

/-- With all memory granted, every add of the loop has its full result. -/
theorem addSlicesWith_granted (serves : state.Serves slices)
    (grants : ¬Refuses memory (updateRequests slices state.htable.slicesOf)) :
    (addSlicesWith sl slices state memory).1 = .ok ∧ CallsFull sl slices state memory := by
  induction slices generalizing state memory with
  | nil => exact ⟨rfl, trivial⟩
  | cons slice rest ih =>
      rw [updateRequests_cons sl serves, refuses_add, not_or] at grants
      have first := obIndexAddSliceWith_granted sl serves grants.1
      have later := ih (serves_obIndexAddSliceEx sl serves) grants.2
      rw [addSlicesWith_cons sl (by rw [first]), CallsFull, first]
      exact ⟨later.1, fun _ => ⟨fullAdd_obIndexAddSliceEx sl serves, later.2⟩⟩

/-- Where every add that succeeds has its full result, a refusal makes the loop fail. -/
theorem addSlicesWith_fails (serves : state.Serves slices)
    (refuses : Refuses memory (updateRequests slices state.htable.slicesOf))
    (full : CallsFull sl slices state memory) : (addSlicesWith sl slices state memory).1 ≠ .ok := by
  induction slices generalizing state memory with
  | nil => exact absurd refuses (not_refuses_zero memory)
  | cons slice rest ih =>
      by_cases grants : Refuses memory (addRequests (state.htable.slicesOf slice.ob) slice)
      · have failed : (obIndexAddSliceWith sl slice state memory).1 ≠ .ok := by
          intro done
          by_cases safe : Refuses memory (safeRequests (state.htable.slicesOf slice.ob) slice)
          · rw [(obIndexAddSliceWith_safe sl serves safe).1] at done
            cases done
          · exact (obIndexAddSliceWith_torn sl serves safe grants).1 done (full done).1
        rw [addSlicesWith_cons_failed sl failed]
        exact failed
      · have first := obIndexAddSliceWith_granted sl serves grants
        rw [updateRequests_cons sl serves, refuses_add] at refuses
        have rest := (full (by rw [first])).2
        rw [addSlicesWith_cons sl (by rw [first])]
        rw [first] at rest ⊢
        exact ih (serves_obIndexAddSliceEx sl serves) (refuses.resolve_left grants) rest

theorem sliceBinlogSn_le_obIndexAddSliceWith (slice : OBSliceEntry) (state : IndexState)
    (memory : Memory) :
    state.sliceBinlogSn ≤ (obIndexAddSliceWith sl slice state memory).2.1.sliceBinlogSn := by
  unfold obIndexAddSliceWith
  cases state.htable.getObEntry slice.ob with
  | none => exact le_rfl
  | some ob =>
      dsimp only
      split_ifs
      · exact Nat.le_succ _
      · exact le_rfl

/-- The loop never takes a number back. -/
theorem sliceBinlogSn_le_addSlicesWith (slices : List OBSliceEntry) (state : IndexState)
    (memory : Memory) :
    state.sliceBinlogSn ≤ (addSlicesWith sl slices state memory).2.sliceBinlogSn := by
  induction slices generalizing state memory with
  | nil => exact le_rfl
  | cons slice rest ih =>
      have one := sliceBinlogSn_le_obIndexAddSliceWith sl slice state memory
      by_cases done : (obIndexAddSliceWith sl slice state memory).1 = .ok
      · rw [addSlicesWith_cons sl done]
        exact one.trans (ih _ _)
      · rw [addSlicesWith_cons_failed sl done]
        exact one

/-- The loop of an update keeps its promises exactly when it is spared. -/
theorem addSlicesWith_keeps_iff (serves : state.Serves slices) (memory : Memory) :
    ((addSlicesWith sl slices state memory).1 ≠ .ok →
        state.Unchanged (addSlicesWith sl slices state memory).2) ∧
      CallsFull sl slices state memory ↔ Spared slices state.htable.slicesOf memory := by
  by_cases refuses : Refuses memory (updateRequests slices state.htable.slicesOf)
  · cases slices with
    | nil => exact absurd refuses (not_refuses_zero memory)
    | cons slice rest =>
        have spared : Spared (slice :: rest) state.htable.slicesOf memory ↔
            Refuses memory (safeRequests (state.htable.slicesOf slice.ob) slice) := by
          simp [Spared, refuses]
        rw [spared]
        constructor
        · rintro ⟨unchanged, full⟩
          have changed := unchanged (addSlicesWith_fails sl serves refuses full)
          by_contra begun
          by_cases grants : Refuses memory (addRequests (state.htable.slicesOf slice.ob) slice)
          · have torn := obIndexAddSliceWith_torn sl serves begun grants
            have failed : (obIndexAddSliceWith sl slice state memory).1 ≠ .ok :=
              fun done => torn.1 done (full done).1
            rw [addSlicesWith_cons_failed sl failed] at changed
            exact torn.2 changed
          · -- the first add has taken a number that the failed update never gives back
            have first := obIndexAddSliceWith_granted sl serves grants
            have taken := (obIndexAddSliceWith_result sl serves memory).2
            rw [first, if_pos rfl] at taken
            have kept := sliceBinlogSn_le_addSlicesWith sl rest
              (obIndexAddSliceWith sl slice state memory).2.1
              (obIndexAddSliceWith sl slice state memory).2.2
            rw [← addSlicesWith_cons sl (by rw [first]), changed.sliceBinlogSn, first] at kept
            omega
        · intro safe
          obtain ⟨result, unchanged⟩ := obIndexAddSliceWith_safe sl serves safe
          have failed : (obIndexAddSliceWith sl slice state memory).1 ≠ .ok := by
            rw [result]
            exact fun done => nomatch done
          refine ⟨fun _ => ?_, fun done => absurd done failed⟩
          rw [addSlicesWith_cons_failed sl failed]
          exact unchanged
  · obtain ⟨done, full⟩ := addSlicesWith_granted sl serves refuses
    exact ⟨fun _ => Or.inl refuses, fun _ => ⟨fun failed => absurd done failed, full⟩⟩

/-- An update of the index by `fs_write_finish` or `fs_slice_allocate`. -/
inductive SliceUpdate where
  | write (opResult : Errno) (slices : List OBSliceEntry)
  | allocate (bsKey : FSBlockSliceKeyInfo) (prepared : Errno)
      (alloc : FSSliceSize → Errno × List OBSliceEntry)

namespace SliceUpdate

def run (state : IndexState) (memory : Memory) : SliceUpdate → Errno × IndexState
  | write opResult slices => fsWriteFinish sl opResult slices state memory
  | allocate bsKey prepared alloc => fsSliceAllocate sl bsKey prepared alloc state memory

/-- The slices of an allocate and its result up to the loop that adds them. -/
def made (bsKey : FSBlockSliceKeyInfo) (prepared : Errno)
    (alloc : FSSliceSize → Errno × List OBSliceEntry) (state : IndexState) :
    Errno × List OBSliceEntry :=
  if prepared = .ok then allocHoles alloc (getSliceIndexHoles sl bsKey state.htable)
  else (prepared, [])

/-- The slices that the update adds. -/
def toAdd (state : IndexState) : SliceUpdate → List OBSliceEntry
  | write opResult slices => if opResult = .ok then slices else []
  | allocate bsKey prepared alloc =>
      if (made sl bsKey prepared alloc state).1 = .ok then (made sl bsKey prepared alloc state).2
      else []

/-- The index before the first add. -/
def entered (state : IndexState) : SliceUpdate → IndexState
  | write _ _ => state
  | allocate bsKey prepared alloc =>
      enterBlock bsKey.block (made sl bsKey prepared alloc state).2 state

/-- The result when the loop of adds is not reached. -/
def early (state : IndexState) : SliceUpdate → Errno
  | write opResult _ => opResult
  | allocate bsKey prepared alloc => (made sl bsKey prepared alloc state).1

/-- The slices are of blocks that have an entry: `fs_slice_alloc` gives slices of the block it is
asked for, and has entered it. -/
def Placed (state : IndexState) (update : SliceUpdate) : Prop :=
  match update with
  | write _ slices => ∀ slice ∈ slices, (state.htable.getObEntry slice.ob).isSome
  | allocate bsKey _ alloc => ∀ hole, ∀ slice ∈ (alloc hole).2, slice.ob = bsKey.block

/-- What an update finds: a sound index without empty slices, and slices of its own that are not
empty and lie on known trunks. -/
structure Ready (state : IndexState) (update : SliceUpdate) : Prop where
  sound : state.htable.Sound
  filled : ∀ bkey, ∀ slice ∈ state.htable.slicesOf bkey, 0 < slice.ssize.length
  placed : update.Placed state
  positive : ∀ slice ∈ update.toAdd sl state, 0 < slice.ssize.length
  known : state.htable.modifySallocator = true →
    ∀ slice ∈ update.toAdd sl state, (state.sallocator.trunks slice.space.trunk).isSome

variable {sl} {update : SliceUpdate}

theorem slicesOf_entered (ready : update.Ready sl state) :
    (update.entered sl state).htable.slicesOf = state.htable.slicesOf := by
  cases update with
  | write opResult slices => rfl
  | allocate bsKey prepared alloc =>
      funext bkey
      rw [entered, enterBlock]
      split_ifs
      · rfl
      · exact OBHashtable.slicesOf_alloc ready.sound.wf bsKey.block bkey

theorem unchanged_entered (ready : update.Ready sl state) (after : IndexState) :
    (update.entered sl state).Unchanged after ↔ state.Unchanged after := by
  have maps : (update.entered sl state).byteMap = state.byteMap := by
    funext bkey b
    rw [IndexState.byteMap, slicesOf_entered ready]
    rfl
  have number : (update.entered sl state).sliceBinlogSn = state.sliceBinlogSn := by
    cases update with
    | write opResult slices => rfl
    | allocate bsKey prepared alloc =>
        rw [entered, enterBlock]
        split_ifs <;> rfl
  constructor
  · rintro ⟨map, sn⟩
    exact ⟨map.trans maps, sn.trans number⟩
  · rintro ⟨map, sn⟩
    exact ⟨map.trans maps.symm, sn.trans number.symm⟩

theorem run_eq (state : IndexState) (memory : Memory) (update : SliceUpdate) :
    update.run sl state memory =
      if update.early sl state = .ok then
        addSlicesWith sl (update.toAdd sl state) (update.entered sl state) memory
      else (update.early sl state, update.entered sl state) := by
  cases update with
  | write opResult slices =>
      simp only [run, fsWriteFinish, early, toAdd, entered]
      split_ifs <;> rfl
  | allocate bsKey prepared alloc =>
      simp only [run, fsSliceAllocate, early, toAdd, entered, made]
      split_ifs with ready done
      · rfl
      · rfl
      · rfl

theorem mem_allocHoles {alloc : FSSliceSize → Errno × List OBSliceEntry} {holes : List FSSliceSize}
    {slice : OBSliceEntry} (member : slice ∈ (allocHoles alloc holes).2) :
    ∃ hole, slice ∈ (alloc hole).2 := by
  induction holes with
  | nil => cases member
  | cons hole rest ih =>
      rw [allocHoles] at member
      split at member
      · rename_i slices outcome
        rcases List.mem_append.mp member with here | later
        · exact ⟨hole, by rw [outcome]; exact here⟩
        · exact ih later
      · rename_i result slices _ outcome
        exact ⟨hole, by rw [outcome]; exact member⟩

theorem sound_entered (ready : update.Ready sl state) :
    (update.entered sl state).htable.Sound := by
  cases update with
  | write opResult slices => exact ready.sound
  | allocate bsKey prepared alloc =>
      rw [entered, enterBlock]
      split_ifs
      · exact ready.sound
      · exact ready.sound.alloc bsKey.block

/-- The trunks and the flags of the index are not touched by entering the block. -/
theorem sallocator_entered (sl : UniqSkiplist OBSliceEntry.key) (state : IndexState)
    (update : SliceUpdate) :
    (update.entered sl state).sallocator = state.sallocator ∧
      (update.entered sl state).htable.modifySallocator = state.htable.modifySallocator := by
  cases update with
  | write opResult slices => exact ⟨rfl, rfl⟩
  | allocate bsKey prepared alloc =>
      rw [entered, enterBlock]
      split_ifs <;> exact ⟨rfl, rfl⟩

theorem isSome_entered (ready : update.Ready sl state) {slice : OBSliceEntry}
    (member : slice ∈ update.toAdd sl state) :
    ((update.entered sl state).htable.getObEntry slice.ob).isSome := by
  have placed := ready.placed
  cases update with
  | write opResult slices =>
      rw [toAdd] at member
      split_ifs at member
      · exact placed slice member
      · cases member
  | allocate bsKey prepared alloc =>
      rw [toAdd] at member
      split_ifs at member with done
      · have present : (made sl bsKey prepared alloc state).2 ≠ [] := List.ne_nil_of_mem member
        have own : slice.ob = bsKey.block := by
          rw [made] at member
          split_ifs at member
          · obtain ⟨hole, given⟩ := mem_allocHoles member
            exact placed hole slice given
          · cases member
        rw [entered, enterBlock, if_neg present, own,
          OBHashtable.getObEntry_alloc_self ready.sound.wf]
        rfl
      · cases member

theorem serves (ready : update.Ready sl state) :
    (update.entered sl state).Serves (update.toAdd sl state) := by
  obtain ⟨trunks, flag⟩ := sallocator_entered sl state update
  refine ⟨sound_entered ready, ?_, ready.positive, fun slice member => isSome_entered ready member,
    ?_⟩
  · rw [slicesOf_entered ready]
    exact ready.filled
  · rw [trunks, flag]
    exact ready.known

end SliceUpdate

end Updates

/-- A block of 100 bytes on the only trunk. -/
def blockOps : List IndexOp :=
  [.addSlice true ⟨⟨7, 0⟩, .file, ⟨0, 100⟩, ⟨0, ⟨1, 0⟩, 0, 104⟩⟩]

def blockState : IndexState :=
  runIndexOps (UniqSkiplist.level0 OBSliceEntry.key)
    ⟨⟨1, fun _ => [], true, true⟩,
      ⟨fun key => if key = ⟨0, 1⟩ then some ⟨⟨1, 0⟩, .none, 0, 0, [], 1000, 128, .none, 0⟩ else none,
        fun _ => ⟨[], ⟨[], 0, 0⟩, 0, [], 0, 0⟩, ⟨[], 0, 0⟩⟩, 0⟩ blockOps

/-- A write of 20 bytes into the middle of the block. -/
def middleWrite : SliceUpdate :=
  .write .ok [⟨⟨7, 0⟩, .file, ⟨40, 20⟩, ⟨0, ⟨1, 0⟩, 104, 24⟩⟩]

theorem ready_middleWrite : middleWrite.Ready (UniqSkiplist.level0 OBSliceEntry.key) blockState := by
  have refines : RefinesByteMap blockOps blockState.htable :=
    RefinesByteMap.run _ (fun _ => rfl) (by decide)
  constructor
  · exact refines.sound
  · exact refines.positive
  · intro slice member
    rw [List.mem_singleton.mp member]
    decide +kernel
  · decide +kernel
  · decide +kernel

end FastStore.Storage
