import FastStore.Storage.SliceIo
import FastStore.Storage.SliceRead

/-!
# Assembling a read from its slices

`fs_slice_read` makes a zero buffer for each hole and each reserved slice, and hands
the written slices to the trunk read threads, which fill their buffers later.  Every
slice counts itself done: the thread that pushes does it for the reserved ones, the
read threads for the others, all on the same operation context.  The count goes down
atomically, but `done_bytes` is increased by a plain load and store on both sides.
-/

namespace FastStore.Storage

open FastStore.Util FastStore.Util.Extent

/-- Where an execution of `do_read_done` stands: before it loads `done_bytes`, before
it stores the sum, and before it counts the slice down. -/
inductive DonePoint where
  | load
  | store (loaded : Int)
  | count
  deriving DecidableEq, Repr

/-- A slice with a trunk read thread: the buffer it fills, and `done` from the moment
the data is there. -/
structure ReadRequest where
  slot : Nat
  slice : OBSliceEntry
  done : Option DonePoint
  deriving DecidableEq, Repr

/-- Where `fs_slice_read` stands: at the head of its loop, at the sum of the hole it has
made a buffer for, before the slice itself, and in `do_read_done` of a reserved slice. -/
inductive PushPoint where
  | head
  | hole (length : Int) (loaded : Option Int)
  | deal
  | alloc (slice : OBSliceEntry) (point : DonePoint)
  | returned (result : Errno)
  deriving DecidableEq, Repr

/-- The operation context during a read, with the locals of `fs_slice_read`.  A buffer
is `none` until its read thread has filled it; `alloc` is the room for buffers. -/
structure SliceReadCall where
  slices : List OBSliceEntry
  offset : Int
  point : PushPoint
  alloc : Nat
  buffers : List (Option (List UInt8))
  requests : List ReadRequest
  result : Errno
  doneBytes : Int
  counter : Int
  callbacks : Nat
  deriving DecidableEq, Repr

/-- Who takes a step: `fs_slice_read`, with the result of an allocation or a push if it
makes one, or a read thread that ends a read or goes on in `do_read_done`. -/
inductive SliceReadLabel where
  | push (result : Errno)
  | complete (request : ReadRequest) (result : Errno)
  | done (request : ReadRequest)
  deriving DecidableEq, Repr

/-- The doubling loop of `check_realloc_buffer_ptr_array`. -/
def doubleUpTo (target : Nat) (alloc : Nat) (positive : 0 < alloc) : Nat :=
  if target ≤ alloc then alloc else doubleUpTo target (alloc * 2) (by omega)
termination_by target - alloc

/-- `check_realloc_buffer_ptr_array`: the new `alloc`. -/
def check_realloc_buffer_ptr_array (alloc target_size : Nat) : Nat :=
  if target_size ≤ alloc then alloc
  else if empty : alloc = 0 then doubleUpTo target_size 256 (by omega)
  else doubleUpTo target_size (alloc * 2) (by omega)

theorem le_doubleUpTo (target alloc : Nat) (positive : 0 < alloc) :
    target ≤ doubleUpTo target alloc positive := by
  induction alloc, positive using doubleUpTo.induct target with
  | case1 alloc positive enough =>
      rw [doubleUpTo, if_pos enough]
      exact enough
  | case2 alloc positive short ih =>
      rw [doubleUpTo, if_neg short]
      exact ih

theorem le_check_realloc_buffer_ptr_array (alloc target_size : Nat) :
    target_size ≤ check_realloc_buffer_ptr_array alloc target_size := by
  rw [check_realloc_buffer_ptr_array]
  split
  · assumption
  · split
    · exact le_doubleUpTo _ _ _
    · exact le_doubleUpTo _ _ _

/-- The value that was loaded and not yet stored back. -/
def DonePoint.loaded : DonePoint → Option Int
  | .store loaded => some loaded
  | _ => none

/-- The bytes still to add to `done_bytes`. -/
def DonePoint.owed (slice : OBSliceEntry) : DonePoint → Int
  | .count => 0
  | _ => slice.ssize.length

def DonePoint.rank : DonePoint → Nat
  | .load => 3
  | .store _ => 2
  | .count => 1

namespace ReadRequest

variable (request : ReadRequest)

def loaded : Option Int := request.done.bind DonePoint.loaded

def owed : Int := (request.done.map (DonePoint.owed request.slice)).getD request.slice.ssize.length

def rank : Nat := (request.done.map DonePoint.rank).getD 4

/-- The request when its thread has reached `point`. -/
def moveTo (point : DonePoint) : ReadRequest := { request with done := some point }

end ReadRequest

namespace PushPoint

def loaded : PushPoint → Option Int
  | .hole _ loaded => loaded
  | .alloc _ point => point.loaded
  | _ => none

def owed : PushPoint → Int
  | .hole length _ => length
  | .alloc slice point => point.owed slice
  | _ => 0

/-- A reserved slice that is not counted down yet. -/
def uncounted : PushPoint → Nat
  | .alloc _ _ => 1
  | _ => 0

/-- The next step loads `done_bytes`. -/
def loads : PushPoint → Bool
  | .hole _ none => true
  | .alloc _ .load => true
  | _ => false

theorem loads_of_loaded {point : PushPoint} {value : Int} (storing : point.loaded = some value) :
    point.loads = false := by
  cases point with
  | head => rfl
  | hole length loaded =>
      cases loaded with
      | none => cases storing
      | some loaded => rfl
  | deal => rfl
  | alloc slice point =>
      cases point with
      | load => cases storing
      | store loaded => rfl
      | count => rfl
  | returned result => rfl

def rank : PushPoint → Nat
  | .returned _ => 0
  | .deal => 1
  | .hole _ (some _) => 2
  | .hole _ none => 3
  | .head => 4
  | .alloc _ point => 4 + point.rank

end PushPoint

namespace SliceReadCall

/-- `fs_slice_read` before its loop, on a context whose array has room for `alloc`
buffers. -/
def start (slices : List OBSliceEntry) (offset : Int) (alloc : Nat) : SliceReadCall where
  slices := slices
  offset := offset
  point := .head
  alloc := check_realloc_buffer_ptr_array alloc (slices.length * 2)
  buffers := []
  requests := []
  result := .ok
  doneBytes := 0
  counter := toShort slices.length
  callbacks := 0

variable (s : SliceReadCall)

/-- `add_zero_aligned_buffer`. -/
def add_zero_aligned_buffer (length : Int) : SliceReadCall :=
  { s with buffers := s.buffers ++ [some (List.replicate length.toNat 0)] }

/-- The next step of `do_read_done` after a successful read: the state, and where the
execution stands then, `none` at its end. -/
def do_read_done (slice : OBSliceEntry) : DonePoint → Option DonePoint × SliceReadCall
  | .load => (some (.store s.doneBytes), s)
  | .store loaded => (some .count, { s with doneBytes := loaded + slice.ssize.length })
  | .count =>
      let counter := toShort (s.counter - 1)
      (none,
        { s with
          counter := counter
          callbacks := s.callbacks + if counter = 0 then 1 else 0 })

/-- The next step of `fs_slice_read`.  The slice that is dealt with is copied before its
completion frees it, so `slices` and `offset` move on at once. -/
def fs_slice_read (result : Errno) : SliceReadCall :=
  match s.point with
  | .head =>
      match s.slices with
      | [] => { s with point := .returned .ok }
      | slice :: _ =>
          let hole_len := slice.ssize.offset - s.offset
          if 0 < hole_len then
            if result = .ok then
              { s.add_zero_aligned_buffer hole_len with point := .hole hole_len none }
            else { s with point := .returned result }
          else { s with point := .deal }
  | .hole length none => { s with point := .hole length (some s.doneBytes) }
  | .hole length (some loaded) =>
      { s with
        doneBytes := loaded + length
        point := .deal }
  | .deal =>
      match s.slices with
      | [] => { s with point := .returned .ok }
      | slice :: rest =>
          let next := slice.ssize.offset + slice.ssize.length
          if slice.type = .alloc then
            if result = .ok then
              { s.add_zero_aligned_buffer slice.ssize.length with
                slices := rest
                offset := next
                point := .alloc slice .load }
            else { s with point := .returned result }
          else if result = .ok then
            { s with
              slices := rest
              offset := next
              buffers := s.buffers ++ [none]
              requests := ⟨s.buffers.length, slice, none⟩ :: s.requests
              point := .head }
          else
            { s with
              buffers := s.buffers ++ [none]
              point := .returned result }
  | .alloc slice point =>
      let did := s.do_read_done slice point
      { did.2 with point := (did.1.map (PushPoint.alloc slice)).getD .head }
  | .returned result => { s with point := .returned result }

variable (block : StoredBlock)

/-- A read thread ends a read: the buffer is filled, or the context gets the error. -/
def slice_read_done (request : ReadRequest) (result : Errno) : SliceReadCall :=
  if result = .ok then
    { s with
      buffers := s.buffers.set request.slot (some (block.sliceBytes request.slice))
      requests := request.moveTo .load :: s.requests.erase request }
  else
    { s with
      result := result
      requests := request.moveTo .count :: s.requests.erase request }

/-- A read thread takes the next step of `do_read_done`. -/
def requestStep (request : ReadRequest) (point : DonePoint) : SliceReadCall :=
  let did := s.do_read_done request.slice point
  { did.2 with
    requests := (did.1.map request.moveTo).toList ++ s.requests.erase request }

def next : SliceReadLabel → SliceReadCall
  | .push result => s.fs_slice_read result
  | .complete request result => s.slice_read_done block request result
  | .done request =>
      match request.done with
      | none => s
      | some point => s.requestStep request point

/-- A step can be taken while its thread is not through. -/
def Enabled : SliceReadLabel → Prop
  | .push _ => ∀ result, s.point ≠ .returned result
  | .complete request _ => request ∈ s.requests ∧ request.done = none
  | .done request => request ∈ s.requests ∧ request.done ≠ none

/-- The values of `done_bytes` that are loaded and not stored back. -/
def loaded : List Int := s.point.loaded.toList ++ s.requests.filterMap ReadRequest.loaded

/-- The step loads `done_bytes`. -/
def Loads : SliceReadLabel → Prop
  | .push _ => s.point.loads = true
  | .complete _ _ => False
  | .done request => request.done = some .load

/-- Nothing fails. -/
def Succeeds : SliceReadLabel → Prop
  | .push result => result = .ok
  | .complete _ result => result = .ok
  | .done _ => True

/-- Running is decided by looking at where the loop stands. -/
instance decidableEnabled : ∀ (s : SliceReadCall) (label : SliceReadLabel),
    Decidable (s.Enabled label)
  | s, .push _ =>
      match point : s.point with
      | .returned result => .isFalse fun running => running result point
      | .head => .isTrue fun _ returned => nomatch point.symm.trans returned
      | .hole _ _ => .isTrue fun _ returned => nomatch point.symm.trans returned
      | .deal => .isTrue fun _ returned => nomatch point.symm.trans returned
      | .alloc _ _ => .isTrue fun _ returned => nomatch point.symm.trans returned
  | s, .complete request _ =>
      inferInstanceAs (Decidable (request ∈ s.requests ∧ request.done = none))
  | s, .done request => inferInstanceAs (Decidable (request ∈ s.requests ∧ request.done ≠ none))

instance decidableLoads : ∀ (s : SliceReadCall) (label : SliceReadLabel),
    Decidable (s.Loads label)
  | s, .push _ => inferInstanceAs (Decidable (s.point.loads = true))
  | _, .complete _ _ => inferInstanceAs (Decidable False)
  | _, .done request => inferInstanceAs (Decidable (request.done = some .load))

instance decidableSucceeds : ∀ label : SliceReadLabel, Decidable (Succeeds label)
  | .push result => inferInstanceAs (Decidable (result = .ok))
  | .complete _ result => inferInstanceAs (Decidable (result = .ok))
  | .done _ => inferInstanceAs (Decidable True)

/-- Nothing fails, and `done_bytes` is loaded only while nobody is about to store it. -/
def Undisturbed (label : SliceReadLabel) : Prop :=
  Succeeds label ∧ (s.Loads label → s.loaded = [])

instance decidableUndisturbed (label : SliceReadLabel) : Decidable (s.Undisturbed label) :=
  inferInstanceAs (Decidable (Succeeds label ∧ (s.Loads label → s.loaded = [])))

/-! ## Counting down -/

/-- The slices that are not counted down yet. -/
def left : Nat := s.slices.length + s.point.uncounted + s.requests.length

/-- The loop ends behind the last slice, and is at no slice's hole there. -/
def PointFits : PushPoint → List OBSliceEntry → Prop
  | .returned _, slices => slices = []
  | .hole _ _, slices => slices ≠ []
  | .deal, slices => slices ≠ []
  | .head, _ => True
  | .alloc _ _, _ => True

/-- The counter stands for the slices that are left, and the callback has run exactly
when none is. -/
structure Counts : Prop where
  bound : s.left ≤ 65536
  counter : s.counter % 65536 = (s.left : Int) % 65536
  callbacks : s.callbacks = if s.left = 0 then 1 else 0
  fits : PointFits s.point s.slices

variable {s}

theorem counts_start {slices : List OBSliceEntry} (some : slices ≠ [])
    (bound : slices.length ≤ 65536) (offset : Int) (alloc : Nat) :
    (start slices offset alloc).Counts where
  bound := bound
  counter := toShort_emod _
  callbacks := by
    have positive : (start slices offset alloc).left ≠ 0 := by
      have length := List.length_pos_of_ne_nil some
      exact Nat.ne_of_gt length
    rw [if_neg positive]
    rfl
  fits := trivial

/-- Only what is left counts. -/
theorem Counts.of_left_eq {t : SliceReadCall} (counts : s.Counts) (left : t.left = s.left)
    (counter : t.counter = s.counter) (callbacks : t.callbacks = s.callbacks)
    (fits : PointFits t.point t.slices) : t.Counts where
  bound := left ▸ counts.bound
  counter := by rw [left, counter, counts.counter]
  callbacks := by rw [left, callbacks, counts.callbacks]
  fits := fits

/-- The last step of `do_read_done`: one slice less is left. -/
theorem Counts.of_count {t : SliceReadCall} (counts : s.Counts) (left : t.left + 1 = s.left)
    (counter : t.counter = toShort (s.counter - 1))
    (callbacks : t.callbacks = s.callbacks + if toShort (s.counter - 1) = 0 then 1 else 0)
    (fits : PointFits t.point t.slices) : t.Counts := by
  have bound := counts.bound
  have value := counts.counter
  have reduced := toShort_emod (s.counter - 1)
  have before : s.callbacks = 0 := by
    rw [counts.callbacks, if_neg (by omega)]
  have last : toShort (s.counter - 1) = 0 ↔ t.left = 0 := by
    rw [toShort_eq_zero_iff]
    omega
  exact
    { bound := by omega
      counter := by
        rw [counter]
        omega
      callbacks := by
        rw [callbacks, before, Nat.zero_add]
        simp only [last]
      fits := fits }

/-- A step of `fs_slice_read`. -/
theorem Counts.push (counts : s.Counts) (running : ∀ result, s.point ≠ .returned result) :
    (s.fs_slice_read .ok).Counts := by
  rcases s with ⟨slices, offset, point, alloc, buffers, requests, result, doneBytes, counter, callbacks⟩
  cases point with
  | head =>
      cases slices with
      | nil => exact counts.of_left_eq rfl rfl rfl rfl
      | cons slice rest =>
          rw [fs_slice_read]
          dsimp only
          split
          · exact counts.of_left_eq rfl rfl rfl (List.cons_ne_nil _ _)
          · exact counts.of_left_eq rfl rfl rfl (List.cons_ne_nil _ _)
  | hole length loaded =>
      cases loaded with
      | none => exact counts.of_left_eq rfl rfl rfl counts.fits
      | some loaded => exact counts.of_left_eq rfl rfl rfl counts.fits
  | deal =>
      cases slices with
      | nil => exact absurd rfl counts.fits
      | cons slice rest =>
          rw [fs_slice_read]
          dsimp only
          split
          · rw [if_pos rfl]
            refine counts.of_left_eq ?_ rfl rfl trivial
            simp only [left, PushPoint.uncounted, List.length_cons, add_zero_aligned_buffer]
          · rw [if_pos rfl]
            refine counts.of_left_eq ?_ rfl rfl trivial
            simp only [left, PushPoint.uncounted, List.length_cons]
            omega
  | alloc slice point =>
      cases point with
      | load => exact counts.of_left_eq rfl rfl rfl trivial
      | store loaded => exact counts.of_left_eq rfl rfl rfl trivial
      | count =>
          refine counts.of_count ?_ rfl rfl trivial
          simp only [left, fs_slice_read, do_read_done, PushPoint.uncounted, Option.map_none,
            Option.getD_none]
          omega
  | returned result => exact absurd rfl (running result)

theorem length_erase_add_one {request : ReadRequest} (member : request ∈ s.requests) :
    (s.requests.erase request).length + 1 = s.requests.length := by
  rw [List.length_erase_of_mem member]
  exact Nat.succ_pred_eq_of_pos (List.length_pos_of_mem member)

/-- The end of a read, good or bad. -/
theorem Counts.slice_read_done (counts : s.Counts) {request : ReadRequest}
    (member : request ∈ s.requests) (block : StoredBlock) (result : Errno) :
    (s.slice_read_done block request result).Counts := by
  have length := length_erase_add_one member
  rw [SliceReadCall.slice_read_done]
  split
  · refine counts.of_left_eq ?_ rfl rfl counts.fits
    simp only [left, List.length_cons, length]
  · refine counts.of_left_eq ?_ rfl rfl counts.fits
    simp only [left, List.length_cons, length]

/-- A step of a read thread in `do_read_done`. -/
theorem Counts.requestStep (counts : s.Counts) {request : ReadRequest}
    (member : request ∈ s.requests) (point : DonePoint) :
    (s.requestStep request point).Counts := by
  have length := length_erase_add_one member
  cases point with
  | load =>
      refine counts.of_left_eq ?_ rfl rfl counts.fits
      simp only [left, SliceReadCall.requestStep, do_read_done, Option.map_some,
        Option.toList_some, List.length_append, List.length_singleton]
      omega
  | store loaded =>
      refine counts.of_left_eq ?_ rfl rfl counts.fits
      simp only [left, SliceReadCall.requestStep, do_read_done, Option.map_some,
        Option.toList_some, List.length_append, List.length_singleton]
      omega
  | count =>
      refine counts.of_count ?_ rfl rfl counts.fits
      simp only [left, SliceReadCall.requestStep, do_read_done, Option.map_none,
        Option.toList_none, List.nil_append]
      omega

/-! ## Summing up -/

/-- The bytes of the slices from `offset` on, with the holes between them. -/
def bytesFrom : Int → List OBSliceEntry → Int
  | _, [] => 0
  | offset, slice :: rest =>
      ((slice.ssize.offset - offset).toNat : Int) + slice.ssize.length +
        bytesFrom (slice.ssize.offset + slice.ssize.length) rest

/-- The offset up to which buffers are made: behind the hole, once it has its buffer. -/
def reachedOffset (s : SliceReadCall) : Int :=
  match s.point, s.slices with
  | .hole _ _, slice :: _ => slice.ssize.offset
  | .deal, slice :: _ => slice.ssize.offset
  | _, _ => s.offset

/-- The bytes that have a buffer and are not in `done_bytes` yet. -/
def owed (s : SliceReadCall) : Int := s.point.owed + (s.requests.map ReadRequest.owed).sum

/-- `done_bytes` and what is still to add make the whole, and at most one thread has
loaded it, which still has the right value. -/
structure Sums (total : Int) (s : SliceReadCall) : Prop where
  whole : s.doneBytes + s.owed + bytesFrom s.reachedOffset s.slices = total
  loaded : s.loaded = [] ∨ s.loaded = [s.doneBytes]

theorem sums_start (slices : List OBSliceEntry) (offset : Int) (alloc : Nat) :
    Sums (bytesFrom offset slices) (start slices offset alloc) where
  whole := by
    have reached : (start slices offset alloc).reachedOffset = offset := by
      cases slices with
      | nil => rfl
      | cons slice rest => rfl
    have owed : (start slices offset alloc).owed = 0 := rfl
    rw [reached, owed]
    exact Int.zero_add _
  loaded := .inl rfl

theorem owed_erase {request : ReadRequest} (member : request ∈ s.requests) :
    s.owed = s.point.owed + request.owed + ((s.requests.erase request).map ReadRequest.owed).sum := by
  have perm := (List.perm_cons_erase member).map ReadRequest.owed
  rw [owed, perm.sum_eq, List.map_cons, List.sum_cons, add_assoc]

theorem loaded_perm {request : ReadRequest} (member : request ∈ s.requests) :
    s.loaded.Perm (request.loaded.toList ++ (s.point.loaded.toList ++
      (s.requests.erase request).filterMap ReadRequest.loaded)) := by
  have perm := (List.perm_cons_erase member).filterMap ReadRequest.loaded
  have split : (request :: s.requests.erase request).filterMap ReadRequest.loaded =
      request.loaded.toList ++ (s.requests.erase request).filterMap ReadRequest.loaded := by
    rw [List.filterMap_cons]
    cases request.loaded with
    | none => rfl
    | some value => rfl
  rw [split] at perm
  exact (perm.append_left s.point.loaded.toList).trans (List.perm_append_comm_assoc _ _ _)

theorem Sums.loaded_of_perm {total : Int} (sums : Sums total s) {values : List Int}
    (perm : s.loaded.Perm values) : values = [] ∨ values = [s.doneBytes] := by
  cases sums.loaded with
  | inl none => exact Or.inl (none ▸ perm).nil_eq.symm
  | inr one => exact Or.inr (one ▸ perm).singleton_eq.symm

/-- Whoever stores has loaded the present value, and nobody else has loaded it. -/
theorem Sums.storing {total : Int} (sums : Sums total s) {value : Int} {others : List Int}
    (perm : s.loaded.Perm (value :: others)) : value = s.doneBytes ∧ others = [] := by
  cases sums.loaded_of_perm perm with
  | inl none => cases none
  | inr one => exact List.cons_eq_cons.mp one

/-- A step that neither loads nor stores. -/
theorem Sums.of_eq {total : Int} {t : SliceReadCall} (sums : Sums total s)
    (bytes : t.doneBytes = s.doneBytes)
    (owed : t.owed + bytesFrom t.reachedOffset t.slices =
      s.owed + bytesFrom s.reachedOffset s.slices)
    (loaded : s.loaded.Perm t.loaded) : Sums total t where
  whole := by rw [← sums.whole, bytes, add_assoc, owed, add_assoc]
  loaded := by
    rw [bytes]
    exact sums.loaded_of_perm loaded

/-- A step of `fs_slice_read`. -/
theorem Sums.push {total : Int} (sums : Sums total s)
    (running : ∀ result, s.point ≠ .returned result)
    (alone : s.Loads (.push .ok) → s.loaded = []) : Sums total (s.fs_slice_read .ok) := by
  rcases s with ⟨slices, offset, point, alloc, buffers, requests, result, doneBytes, counter, callbacks⟩
  cases point with
  | head =>
      cases slices with
      | nil => exact sums.of_eq rfl rfl .rfl
      | cons slice rest =>
          rw [fs_slice_read]
          dsimp only
          split
          · rename_i hole
            rw [if_pos rfl]
            refine sums.of_eq rfl ?_ .rfl
            simp only [owed, PushPoint.owed, reachedOffset, bytesFrom, add_zero_aligned_buffer]
            omega
          · refine sums.of_eq rfl ?_ .rfl
            simp only [owed, PushPoint.owed, reachedOffset, bytesFrom]
            omega
  | hole length loaded =>
      cases loaded with
      | none =>
          have none := alone rfl
          constructor
          · rw [← sums.whole]
            cases slices with
            | nil => rfl
            | cons slice rest => rfl
          · exact Or.inr (congrArg (doneBytes :: ·) none)
      | some loaded =>
          obtain ⟨same, others⟩ := sums.storing (.refl (loaded :: requests.filterMap ReadRequest.loaded))
          constructor
          · rw [← sums.whole]
            cases slices with
            | nil => 
                simp only [fs_slice_read, owed, PushPoint.owed, reachedOffset, bytesFrom] at same ⊢
                omega
            | cons slice rest =>
                simp only [fs_slice_read, owed, PushPoint.owed, reachedOffset, bytesFrom] at same ⊢
                omega
          · exact Or.inl others
  | deal =>
      cases slices with
      | nil => exact sums.of_eq rfl rfl .rfl
      | cons slice rest =>
          rw [fs_slice_read]
          dsimp only
          split
          · rw [if_pos rfl]
            refine sums.of_eq rfl ?_ .rfl
            simp only [owed, PushPoint.owed, DonePoint.owed, reachedOffset, bytesFrom,
              add_zero_aligned_buffer]
            omega
          · rw [if_pos rfl]
            refine sums.of_eq rfl ?_ .rfl
            simp only [owed, PushPoint.owed, ReadRequest.owed, reachedOffset, bytesFrom,
              List.map_cons, List.sum_cons, Option.map_none, Option.getD_none]
            omega
  | alloc slice point =>
      cases point with
      | load =>
          have none := alone rfl
          exact ⟨sums.whole, Or.inr (congrArg (doneBytes :: ·) none)⟩
      | store loaded =>
          obtain ⟨same, others⟩ := sums.storing (.refl (loaded :: requests.filterMap ReadRequest.loaded))
          constructor
          · rw [← sums.whole]
            simp only [fs_slice_read, do_read_done, owed, PushPoint.owed, DonePoint.owed,
              reachedOffset, Option.map_some, Option.getD_some] at same ⊢
            omega
          · exact Or.inl others
      | count => exact sums.of_eq rfl rfl .rfl
  | returned result => exact absurd rfl (running result)

/-- The end of a good read. -/
theorem Sums.slice_read_done {total : Int} (sums : Sums total s) {request : ReadRequest}
    (member : request ∈ s.requests) (reading : request.done = none) (block : StoredBlock) :
    Sums total (s.slice_read_done block request .ok) := by
  have perm := loaded_perm member
  have owed := owed_erase member
  have unloaded : request.loaded = none := by rw [ReadRequest.loaded, reading, Option.bind_none]
  have whole : request.owed = request.slice.ssize.length := by
    rw [ReadRequest.owed, reading, Option.map_none, Option.getD_none]
  rw [unloaded, Option.toList_none, List.nil_append] at perm
  rw [SliceReadCall.slice_read_done, if_pos rfl]
  refine sums.of_eq rfl ?_ perm
  rw [owed, whole, SliceReadCall.owed, List.map_cons, List.sum_cons, ← add_assoc]
  rfl

/-- A step of a read thread in `do_read_done`. -/
theorem Sums.requestStep {total : Int} (sums : Sums total s) {request : ReadRequest}
    (member : request ∈ s.requests) {point : DonePoint} (standing : request.done = some point)
    (alone : s.Loads (.done request) → s.loaded = []) : Sums total (s.requestStep request point) := by
  have perm := loaded_perm member
  have split := owed_erase member
  have loaded : request.loaded = point.loaded := by
    rw [ReadRequest.loaded, standing, Option.bind_some]
  have owes : request.owed = point.owed request.slice := by
    rw [ReadRequest.owed, standing, Option.map_some, Option.getD_some]
  rw [loaded] at perm
  rw [owes] at split
  cases point with
  | load =>
      have none := alone standing
      rw [none] at perm
      have apart := (List.append_eq_nil_iff.mp perm.nil_eq.symm).2
      obtain ⟨own, others⟩ := List.append_eq_nil_iff.mp apart
      constructor
      · rw [← sums.whole, split]
        simp only [SliceReadCall.requestStep, do_read_done, SliceReadCall.owed, DonePoint.owed,
          Option.map_some, Option.toList_some, List.singleton_append, List.map_cons, List.sum_cons,
          ReadRequest.owed, ReadRequest.moveTo, Option.getD_some, reachedOffset]
        omega
      · have values : (s.requestStep request .load).loaded = s.point.loaded.toList ++
            s.doneBytes :: (s.requests.erase request).filterMap ReadRequest.loaded := rfl
        rw [values, own, others]
        exact Or.inr rfl
  | store value =>
      obtain ⟨same, others⟩ := sums.storing perm
      constructor
      · rw [← sums.whole, split, ← same]
        simp only [SliceReadCall.requestStep, do_read_done, SliceReadCall.owed, DonePoint.owed,
          Option.map_some, Option.toList_some, List.singleton_append, List.map_cons, List.sum_cons,
          ReadRequest.owed, ReadRequest.moveTo, Option.getD_some, reachedOffset]
        omega
      · exact Or.inl others
  | count =>
      refine sums.of_eq rfl ?_ perm
      rw [split]
      simp only [SliceReadCall.requestStep, do_read_done, SliceReadCall.owed, DonePoint.owed,
        Option.map_none, Option.toList_none, List.nil_append, reachedOffset]
      omega

/-! ## Filling the buffers -/

end SliceReadCall

namespace StoredBlock

variable (block : StoredBlock)

/-- The buffers of a slice and the slices behind it, without the hole before it. -/
def expectedBuffers : Int → List OBSliceEntry → List (List UInt8)
  | _, [] => []
  | offset, slice :: rest =>
      let hole_len := slice.ssize.offset - offset
      (if 0 < hole_len then [List.replicate hole_len.toNat 0] else []) ++
        block.sliceBytes slice ::
          expectedBuffers (slice.ssize.offset + slice.ssize.length) rest

/-- Behind its hole a slice is the next. -/
theorem expectedBuffers_cons (slice : OBSliceEntry) (rest : List OBSliceEntry) :
    block.expectedBuffers slice.ssize.offset (slice :: rest) = block.sliceBytes slice ::
      block.expectedBuffers (slice.ssize.offset + slice.ssize.length) rest := by
  rw [expectedBuffers, sub_self, if_neg (lt_irrefl _), List.nil_append]

theorem expectedBuffers_flatten (offset : Int) (slices : List OBSliceEntry) :
    (block.expectedBuffers offset slices).flatten = block.sliceReadLoop offset slices := by
  induction slices generalizing offset with
  | nil => rfl
  | cons slice rest ih =>
      rw [expectedBuffers, sliceReadLoop, List.flatten_append, List.flatten_cons, ih,
        List.append_assoc]
      split
      · rw [List.flatten_singleton]
      · rename_i none
        rw [Int.toNat_of_nonpos (not_lt.mp none), List.flatten_nil, List.replicate_zero]

/-- A hole and a slice make two buffers at most. -/
theorem length_expectedBuffers_le (offset : Int) (slices : List OBSliceEntry) :
    (block.expectedBuffers offset slices).length ≤ slices.length * 2 := by
  induction slices generalizing offset with
  | nil => exact le_rfl
  | cons slice rest ih =>
      have later := ih (slice.ssize.offset + slice.ssize.length)
      rw [expectedBuffers, List.length_append, List.length_cons, List.length_cons]
      split
      · rw [List.length_singleton]
        omega
      · rw [List.length_nil]
        omega

/-- Reserved space is read as zeros. -/
theorem sliceBytes_of_alloc {slice : OBSliceEntry} (reserved : slice.type = .alloc) :
    block.sliceBytes slice = List.replicate slice.ssize.length.toNat 0 := by
  have zero : ∀ b, block.readByte (slice.byteAt b) = 0 := fun _ => if_pos reserved
  simp only [sliceBytes, zero]
  rw [List.map_const', List.length_range]

end StoredBlock

namespace SliceReadCall

variable {block : StoredBlock} {full : List (List UInt8)} {s : SliceReadCall}

/-- The buffers of the whole read are `full`: those that are made are filled right or
have a read thread at work on them, and the others are still to come. -/
structure Filled (block : StoredBlock) (full : List (List UInt8)) (s : SliceReadCall) : Prop where
  within : s.buffers.length ≤ full.length
  toCome : full.drop s.buffers.length = block.expectedBuffers s.reachedOffset s.slices
  filled : ∀ (i : Nat) bytes, s.buffers[i]? = some (some bytes) → full[i]? = some bytes
  reading : ∀ request ∈ s.requests, request.done = none →
    full[request.slot]? = some (block.sliceBytes request.slice)
  pending : ∀ i : Nat, s.buffers[i]? = some none →
    ∃ request ∈ s.requests, request.slot = i ∧ request.done = none

theorem filled_start (slices : List OBSliceEntry) (offset : Int) (alloc : Nat) :
    Filled block (block.expectedBuffers offset slices) (start slices offset alloc) where
  within := Nat.zero_le _
  toCome := by
    cases slices with
    | nil => rfl
    | cons slice rest => rfl
  filled i bytes impossible := by cases impossible
  reading request impossible := by cases impossible
  pending i impossible := by cases impossible

theorem getElem?_append_singleton_cases {β : Type} {values : List β} {last found : β} {i : Nat}
    (at_index : (values ++ [last])[i]? = some found) :
    values[i]? = some found ∨ i = values.length ∧ last = found := by
  rw [List.getElem?_append] at at_index
  split at at_index
  · exact Or.inl at_index
  · rename_i beyond
    have zero : i - values.length = 0 := by
      have inside := (List.getElem?_eq_some_iff.mp at_index).choose
      exact Nat.lt_one_iff.mp inside
    rw [zero] at at_index
    exact Or.inr ⟨by omega, Option.some.inj at_index⟩

/-- A step that leaves the buffers and the reads alone. -/
theorem Filled.of_eq {t : SliceReadCall} (filled : Filled block full s)
    (buffers : t.buffers = s.buffers)
    (toCome : block.expectedBuffers t.reachedOffset t.slices =
      block.expectedBuffers s.reachedOffset s.slices)
    (reading : ∀ request, request.done = none → (request ∈ t.requests ↔ request ∈ s.requests)) :
    Filled block full t where
  within := buffers ▸ filled.within
  toCome := by rw [buffers, toCome, filled.toCome]
  filled := buffers ▸ filled.filled
  reading request member still := filled.reading request ((reading request still).mp member) still
  pending i unfilled := by
    rw [buffers] at unfilled
    obtain ⟨request, member, slot, still⟩ := filled.pending i unfilled
    exact ⟨request, (reading request still).mpr member, slot, still⟩

/-- The next buffer is made. -/
theorem Filled.append {t : SliceReadCall} (filled : Filled block full s)
    {buffer : Option (List UInt8)} {bytes : List UInt8} (buffers : t.buffers = s.buffers ++ [buffer])
    (toCome : block.expectedBuffers s.reachedOffset s.slices =
      bytes :: block.expectedBuffers t.reachedOffset t.slices)
    (right : ∀ content, buffer = some content → content = bytes)
    (kept : ∀ request ∈ s.requests, request ∈ t.requests)
    (reading : ∀ request ∈ t.requests, request ∈ s.requests ∨
      request.slot = s.buffers.length ∧ block.sliceBytes request.slice = bytes)
    (pending : buffer = none →
      ∃ request ∈ t.requests, request.slot = s.buffers.length ∧ request.done = none) :
    Filled block full t := by
  have drop := filled.toCome.trans toCome
  have next : full[s.buffers.length]? = some bytes := by
    rw [← List.head?_drop, drop, List.head?_cons]
  have inside : s.buffers.length < full.length := (List.getElem?_eq_some_iff.mp next).choose
  have length : t.buffers.length = s.buffers.length + 1 := by
    rw [buffers, List.length_append, List.length_singleton]
  exact
    { within := by
        rw [length]
        exact inside
      toCome := by
        rw [length, ← List.tail_drop, drop, List.tail_cons]
      filled := by
        intro i content made
        rw [buffers] at made
        cases getElem?_append_singleton_cases made with
        | inl before => exact filled.filled i content before
        | inr last =>
            obtain ⟨rfl, same⟩ := last
            rw [next, right content same]
      reading := by
        intro request member still
        cases reading request member with
        | inl known => exact filled.reading request known still
        | inr new => rw [new.1, new.2, next]
      pending := by
        intro i unfilled
        rw [buffers] at unfilled
        cases getElem?_append_singleton_cases unfilled with
        | inl before =>
            obtain ⟨request, member, found⟩ := filled.pending i before
            exact ⟨request, kept request member, found⟩
        | inr last =>
            obtain ⟨rfl, none⟩ := last
            exact pending none }

/-- A step of `fs_slice_read`. -/
theorem Filled.push (filled : Filled block full s)
    (running : ∀ result, s.point ≠ .returned result) : Filled block full (s.fs_slice_read .ok) := by
  rcases s with ⟨slices, offset, point, alloc, buffers, requests, result, doneBytes, counter, callbacks⟩
  cases point with
  | head =>
      cases slices with
      | nil => exact filled.of_eq rfl rfl fun _ _ => .rfl
      | cons slice rest =>
          rw [fs_slice_read]
          dsimp only
          split
          · rename_i hole
            rw [if_pos rfl]
            refine filled.append rfl ?_ (fun _ same => (Option.some.inj same).symm)
              (fun _ member => member) (fun _ member => .inl member) nofun
            simp only [reachedOffset, add_zero_aligned_buffer]
            rw [StoredBlock.expectedBuffers_cons, StoredBlock.expectedBuffers, if_pos hole,
              List.singleton_append]
          · rename_i none
            refine filled.of_eq rfl ?_ fun _ _ => .rfl
            simp only [reachedOffset]
            rw [StoredBlock.expectedBuffers_cons, StoredBlock.expectedBuffers, if_neg none,
              List.nil_append]
  | hole length loaded =>
      cases loaded with
      | none =>
          refine filled.of_eq rfl ?_ fun _ _ => .rfl
          cases slices with
          | nil => rfl
          | cons slice rest => rfl
      | some loaded =>
          refine filled.of_eq rfl ?_ fun _ _ => .rfl
          cases slices with
          | nil => rfl
          | cons slice rest => rfl
  | deal =>
      cases slices with
      | nil => exact filled.of_eq rfl rfl fun _ _ => .rfl
      | cons slice rest =>
          rw [fs_slice_read]
          dsimp only
          split
          · rename_i reserved
            rw [if_pos rfl]
            refine filled.append rfl (block.expectedBuffers_cons slice rest) ?_
              (fun _ member => member) (fun _ member => .inl member) nofun
            intro content same
            rw [block.sliceBytes_of_alloc reserved]
            exact (Option.some.inj same).symm
          · rw [if_pos rfl]
            refine filled.append rfl (block.expectedBuffers_cons slice rest) nofun
              (fun _ member => List.mem_cons_of_mem _ member) ?_
              fun _ => ⟨_, List.mem_cons_self, rfl, rfl⟩
            intro request member
            cases List.mem_cons.mp member with
            | inl new =>
                rw [new]
                exact Or.inr ⟨rfl, rfl⟩
            | inr known => exact Or.inl known
  | alloc slice point =>
      cases point with
      | load => exact filled.of_eq rfl rfl fun _ _ => .rfl
      | store loaded => exact filled.of_eq rfl rfl fun _ _ => .rfl
      | count => exact filled.of_eq rfl rfl fun _ _ => .rfl
  | returned result => exact absurd rfl (running result)

theorem mem_requests_iff_of_ne {request other : ReadRequest} (distinct : other ≠ request) :
    other ∈ s.requests.erase request ↔ other ∈ s.requests := List.mem_erase_of_ne distinct

/-- The end of a good read. -/
theorem Filled.slice_read_done (filled : Filled block full s) {request : ReadRequest}
    (member : request ∈ s.requests) (still : request.done = none) :
    Filled block full (s.slice_read_done block request .ok) := by
  have right := filled.reading request member still
  rw [SliceReadCall.slice_read_done, if_pos rfl]
  exact
    { within := by
        rw [List.length_set]
        exact filled.within
      toCome := by
        rw [List.length_set]
        exact filled.toCome
      filled := by
        intro i bytes made
        by_cases same : request.slot = i
        · rw [← same] at made ⊢
          have inside : request.slot < s.buffers.length := by
            have bound := (List.getElem?_eq_some_iff.mp made).choose
            rwa [List.length_set] at bound
          rw [List.getElem?_set_self inside] at made
          rw [right, Option.some.inj (Option.some.inj made)]
        · rw [List.getElem?_set_ne same] at made
          exact filled.filled i bytes made
      reading := by
        intro other otherMember reading
        cases List.mem_cons.mp otherMember with
        | inl new =>
            rw [new] at reading
            cases reading
        | inr known => exact filled.reading other (List.mem_of_mem_erase known) reading
      pending := by
        intro i unfilled
        have apart : request.slot ≠ i := by
          intro same
          rw [← same] at unfilled
          have bound := (List.getElem?_eq_some_iff.mp unfilled).choose
          rw [List.length_set] at bound
          rw [List.getElem?_set_self bound] at unfilled
          cases unfilled
        rw [List.getElem?_set_ne apart] at unfilled
        obtain ⟨other, otherMember, slot, reading⟩ := filled.pending i unfilled
        have distinct : other ≠ request := by
          intro same
          rw [same] at slot
          exact apart slot
        exact ⟨other, List.mem_cons_of_mem _ ((mem_requests_iff_of_ne distinct).mpr otherMember),
          slot, reading⟩ }

/-- A step of a read thread in `do_read_done`. -/
theorem Filled.requestStep (filled : Filled block full s) {request : ReadRequest}
    {point : DonePoint} (standing : request.done = some point) :
    Filled block full (s.requestStep request point) := by
  have distinct : ∀ other : ReadRequest, other.done = none → other ≠ request := by
    intro other reading same
    rw [same, standing] at reading
    cases reading
  have moved : ∀ (other : ReadRequest) (reached : DonePoint), other.done = none →
      (other ∈ request.moveTo reached :: s.requests.erase request ↔ other ∈ s.requests) := by
    intro other reached reading
    rw [List.mem_cons, mem_requests_iff_of_ne (distinct other reading)]
    refine or_iff_right fun same => ?_
    rw [same] at reading
    cases reading
  cases point with
  | load => exact filled.of_eq rfl rfl fun other reading => moved other _ reading
  | store loaded => exact filled.of_eq rfl rfl fun other reading => moved other _ reading
  | count =>
      exact filled.of_eq rfl rfl fun other reading =>
        mem_requests_iff_of_ne (distinct other reading)

/-! ## Every run comes to its end -/

/-- An upper bound on the steps to come. -/
def rank (s : SliceReadCall) : Nat :=
  8 * s.slices.length + s.point.rank + (s.requests.map ReadRequest.rank).sum

theorem rank_erase {request : ReadRequest} (member : request ∈ s.requests) :
    s.rank = 8 * s.slices.length + s.point.rank +
      (request.rank + ((s.requests.erase request).map ReadRequest.rank).sum) := by
  have perm := (List.perm_cons_erase member).map ReadRequest.rank
  rw [rank, perm.sum_eq, List.map_cons, List.sum_cons]

theorem rank_push_lt (running : ∀ result, s.point ≠ .returned result) (result : Errno) :
    (s.fs_slice_read result).rank < s.rank := by
  rcases s with ⟨slices, offset, point, alloc, buffers, requests, _, doneBytes, counter, callbacks⟩
  cases point with
  | head =>
      cases slices with
      | nil =>
          simp only [fs_slice_read, rank, PushPoint.rank]
          omega
      | cons slice rest =>
          rw [fs_slice_read]
          dsimp only
          split_ifs <;> simp only [rank, PushPoint.rank, add_zero_aligned_buffer] <;> omega
  | hole length loaded =>
      cases loaded with
      | none =>
          simp only [fs_slice_read, rank, PushPoint.rank]
          omega
      | some loaded =>
          simp only [fs_slice_read, rank, PushPoint.rank]
          omega
  | deal =>
      cases slices with
      | nil =>
          simp only [fs_slice_read, rank, PushPoint.rank]
          omega
      | cons slice rest =>
          have fresh : ReadRequest.rank ⟨buffers.length, slice, none⟩ = 4 := rfl
          rw [fs_slice_read]
          dsimp only
          split_ifs <;> simp only [rank, PushPoint.rank, DonePoint.rank, add_zero_aligned_buffer,
            List.length_cons, List.map_cons, List.sum_cons, fresh] <;> omega
  | alloc slice point =>
      cases point with
      | load =>
          simp only [fs_slice_read, do_read_done, rank, PushPoint.rank, DonePoint.rank,
            Option.map_some, Option.getD_some]
          omega
      | store loaded =>
          simp only [fs_slice_read, do_read_done, rank, PushPoint.rank, DonePoint.rank,
            Option.map_some, Option.getD_some]
          omega
      | count =>
          simp only [fs_slice_read, do_read_done, rank, PushPoint.rank, DonePoint.rank,
            Option.map_none, Option.getD_none]
          omega
  | returned result => exact absurd rfl (running result)

/-- Every step brings the end of the run nearer, also where something fails. -/
theorem rank_next_lt {label : SliceReadLabel} (enabled : s.Enabled label) :
    (s.next block label).rank < s.rank := by
  cases label with
  | push result => exact rank_push_lt enabled result
  | complete request result =>
      have before := rank_erase enabled.1
      have full : request.rank = 4 := by
        rw [ReadRequest.rank, enabled.2, Option.map_none, Option.getD_none]
      have load : (request.moveTo .load).rank = 3 := rfl
      have count : (request.moveTo .count).rank = 1 := rfl
      rw [before, full, next, SliceReadCall.slice_read_done]
      split
      · simp only [rank, List.map_cons, List.sum_cons, load]
        omega
      · simp only [rank, List.map_cons, List.sum_cons, count]
        omega
  | done request =>
      have before := rank_erase enabled.1
      obtain ⟨point, standing⟩ := Option.ne_none_iff_exists'.mp enabled.2
      have own : request.rank = point.rank := by
        rw [ReadRequest.rank, standing, Option.map_some, Option.getD_some]
      have moved : ∀ reached : DonePoint, (request.moveTo reached).rank = reached.rank := fun _ => rfl
      rw [before, own, next, standing]
      cases point with
      | load =>
          simp only [SliceReadCall.requestStep, do_read_done, rank, Option.map_some,
            Option.toList_some, List.singleton_append, List.map_cons, List.sum_cons, moved,
            DonePoint.rank]
          omega
      | store loaded =>
          simp only [SliceReadCall.requestStep, do_read_done, rank, Option.map_some,
            Option.toList_some, List.singleton_append, List.map_cons, List.sum_cons, moved,
            DonePoint.rank]
          omega
      | count =>
          simp only [SliceReadCall.requestStep, do_read_done, rank, Option.map_none,
            Option.toList_none, List.nil_append, DonePoint.rank]
          omega

theorem not_loads_of_loaded {request : ReadRequest} {value : Int}
    (storing : request.loaded = some value) : request.done ≠ none ∧ request.done ≠ some .load := by
  rw [ReadRequest.loaded] at storing
  constructor
  · intro reading
    rw [reading] at storing
    cases storing
  · intro loading
    rw [loading] at storing
    cases storing

/-- Until the callback has run, some thread can go on undisturbed: one that is about to
store, or any where none is. -/
theorem Counts.goes_on (counts : s.Counts) (early : s.callbacks = 0) :
    ∃ label, s.Undisturbed label ∧ s.Enabled label := by
  have left : s.left ≠ 0 := by
    intro none
    rw [counts.callbacks, if_pos none] at early
    cases early
  have running : s.requests = [] → ∀ result, s.point ≠ .returned result := by
    intro quiet result returned
    apply left
    have fits := counts.fits
    rw [returned] at fits
    rw [SliceReadCall.left, fits, returned, quiet]
    rfl
  cases values : s.loaded with
  | nil =>
      have alone : ∀ label, s.Loads label → s.loaded = [] := fun _ _ => values
      cases waiting : s.requests with
      | nil => exact ⟨.push .ok, ⟨rfl, alone _⟩, running waiting⟩
      | cons request rest =>
          have member : request ∈ s.requests := waiting ▸ List.mem_cons_self
          cases standing : request.done with
          | none => exact ⟨.complete request .ok, ⟨rfl, alone _⟩, member, standing⟩
          | some point =>
              refine ⟨.done request, ⟨trivial, alone _⟩, member, ?_⟩
              rw [standing]
              exact Option.some_ne_none point
  | cons value others =>
      have member : value ∈ s.loaded := values ▸ List.mem_cons_self
      cases List.mem_append.mp member with
      | inl pusher =>
          have storing := Option.mem_toList.mp pusher
          refine ⟨.push .ok, ⟨rfl, fun loads => ?_⟩, fun result returned => ?_⟩
          · exact absurd loads (Bool.eq_false_iff.mp (PushPoint.loads_of_loaded storing))
          · rw [returned] at storing
            cases storing
      | inr reader =>
          obtain ⟨request, waiting, storing⟩ := List.mem_filterMap.mp reader
          obtain ⟨started, notLoading⟩ := not_loads_of_loaded storing
          exact ⟨.done request, ⟨trivial, fun loads => absurd loads notLoading⟩, waiting, started⟩

/-! ## The whole read -/

/-- The steps of a read of `slices` from `offset` on. -/
def Step (block : StoredBlock) : StepRel SliceReadCall SliceReadLabel :=
  StepRel.ofNext Enabled fun s label => s.next block label

variable {slices : List OBSliceEntry} {offset : Int}

theorem bytesFrom_eq (laid : Laid slices) (above : ∀ slice ∈ slices, offset ≤ slice.ssize.offset)
    {last : OBSliceEntry} (ends : slices.getLast? = some last) :
    bytesFrom offset slices = last.ssize.offset + last.ssize.length - offset := by
  induction slices generalizing offset with
  | nil => cases ends
  | cons slice rest ih =>
      have parts := Laid.cons_iff.mp laid
      have start := above slice List.mem_cons_self
      rw [bytesFrom]
      cases rest with
      | nil =>
          have same : slice = last := Option.some.inj ends
          rw [bytesFrom, ← same]
          omega
      | cons second later =>
          rw [List.getLast?_cons_cons] at ends
          have tail : bytesFrom (slice.ssize.offset + slice.ssize.length) (second :: later) = _ :=
            ih parts.2.2 (fun other member => (parts.2.1 other member).2) ends
          rw [tail]
          omega

theorem length_expectedBuffers_flatten (filled : ∀ slice ∈ slices, 0 < slice.ssize.length) :
    ((block.expectedBuffers offset slices).flatten.length : Int) = bytesFrom offset slices := by
  rw [block.expectedBuffers_flatten]
  induction slices generalizing offset with
  | nil => rfl
  | cons slice rest ih =>
      have positive := filled slice List.mem_cons_self
      have later := @ih (slice.ssize.offset + slice.ssize.length) fun other member =>
        filled other (List.mem_cons_of_mem _ member)
      rw [StoredBlock.sliceReadLoop, bytesFrom, List.length_append, List.length_append,
        List.length_replicate, StoredBlock.length_sliceBytes]
      omega

/-- What holds in every run without failures and without a disturbed sum. -/
structure Sound (block : StoredBlock) (slices : List OBSliceEntry) (offset : Int)
    (s : SliceReadCall) : Prop where
  counts : s.Counts
  sums : Sums (bytesFrom offset slices) s
  filled : Filled block (block.expectedBuffers offset slices) s
  room : slices.length * 2 ≤ s.alloc

theorem alloc_fs_slice_read (s : SliceReadCall) : (s.fs_slice_read .ok).alloc = s.alloc := by
  rcases s with ⟨slices, offset, point, alloc, buffers, requests, result, doneBytes, counter, callbacks⟩
  cases point with
  | head =>
      cases slices with
      | nil => rfl
      | cons slice rest =>
          rw [fs_slice_read]
          dsimp only
          split <;> rfl
  | hole length loaded => cases loaded <;> rfl
  | deal =>
      cases slices with
      | nil => rfl
      | cons slice rest =>
          rw [fs_slice_read]
          dsimp only
          split <;> rfl
  | alloc slice point => cases point <;> rfl
  | returned result => rfl

theorem Sound.next (sound : Sound block slices offset s) {label : SliceReadLabel}
    (undisturbed : s.Undisturbed label) (enabled : s.Enabled label) :
    Sound block slices offset (s.next block label) := by
  obtain ⟨succeeds, alone⟩ := undisturbed
  cases label with
  | push result =>
      cases succeeds
      have room := s.alloc_fs_slice_read
      exact ⟨sound.counts.push enabled, sound.sums.push enabled alone, sound.filled.push enabled,
        room ▸ sound.room⟩
  | complete request result =>
      cases succeeds
      exact ⟨sound.counts.slice_read_done enabled.1 block .ok,
        sound.sums.slice_read_done enabled.1 enabled.2 block,
        sound.filled.slice_read_done enabled.1 enabled.2, sound.room⟩
  | done request =>
      obtain ⟨point, standing⟩ := Option.ne_none_iff_exists'.mp enabled.2
      rw [SliceReadCall.next, standing]
      have room : (s.requestStep request point).alloc = s.alloc := by
        cases point <;> rfl
      exact ⟨sound.counts.requestStep enabled.1 point,
        sound.sums.requestStep enabled.1 standing alone, sound.filled.requestStep standing,
        room ▸ sound.room⟩

/-- Once the callback has run, every buffer is filled and `done_bytes` is the whole. -/
theorem Sound.answer (sound : Sound block slices offset s) (called : s.callbacks = 1) :
    s.buffers = (block.expectedBuffers offset slices).map some ∧
      s.doneBytes = bytesFrom offset slices := by
  have none : s.left = 0 := by
    by_contra some
    rw [sound.counts.callbacks, if_neg some] at called
    cases called
  rw [left] at none
  have noSlices : s.slices = [] := List.length_eq_zero_iff.mp (by omega)
  have noRequests : s.requests = [] := List.length_eq_zero_iff.mp (by omega)
  have noAlloc : s.point.uncounted = 0 := by omega
  have through : s.point.owed = 0 := by
    have fits := sound.counts.fits
    cases point : s.point with
    | head => rfl
    | hole length loaded =>
        rw [point] at fits
        exact absurd noSlices fits
    | deal => rfl
    | alloc slice reached =>
        rw [point] at noAlloc
        cases noAlloc
    | returned result => rfl
  constructor
  · have enough : (block.expectedBuffers offset slices).length ≤ s.buffers.length := by
      have toCome := sound.filled.toCome
      rw [noSlices, StoredBlock.expectedBuffers] at toCome
      exact List.drop_eq_nil_iff.mp toCome
    apply List.ext_getElem?
    intro i
    rw [List.getElem?_map]
    cases made : s.buffers[i]? with
    | none =>
        have beyond := List.getElem?_eq_none_iff.mp made
        rw [List.getElem?_eq_none (enough.trans beyond), Option.map_none]
    | some buffer =>
        cases buffer with
        | none =>
            obtain ⟨request, member, _⟩ := sound.filled.pending i made
            rw [noRequests] at member
            cases member
        | some bytes => rw [sound.filled.filled i bytes made, Option.map_some]
  · have whole := sound.sums.whole
    rw [owed, through, noRequests, noSlices] at whole
    simpa [bytesFrom] using whole

theorem sound_of_reachable (some : slices ≠ []) (few : slices.length ≤ 65536) (alloc : Nat)
    (reached : Reachable ((Step block).guarded Undisturbed) (· = start slices offset alloc) s) :
    Sound block slices offset s := by
  refine reached.invariant ?_ ?_
  · rintro _ rfl
    exact ⟨counts_start some few offset alloc, sums_start slices offset alloc,
      filled_start slices offset alloc, le_check_realloc_buffer_ptr_array alloc _⟩
  · rintro before label _ sound ⟨undisturbed, enabled, rfl⟩
    exact sound.next undisturbed enabled

/-- Four bytes are written, and four more are reserved behind a hole. -/
def mixedBlock : StoredBlock where
  chain :=
    [⟨⟨1, 0⟩, .file, ⟨0, 4⟩, ⟨0, ⟨1, 1⟩, 0, 8⟩⟩, ⟨⟨1, 0⟩, .alloc, ⟨8, 4⟩, ⟨0, ⟨1, 1⟩, 8, 8⟩⟩]
  laid := by
    constructor <;> decide
  filled := by decide
  trunkByte := fun _ => 7

/-- The request for the written slice. -/
def mixedRequest (done : Option DonePoint) : ReadRequest :=
  ⟨0, ⟨⟨1, 0⟩, .file, ⟨0, 4⟩, ⟨0, ⟨1, 1⟩, 0, 8⟩⟩, done⟩

end SliceReadCall

end FastStore.Storage
