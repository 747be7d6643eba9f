import FastStore.Storage.Types

/-!
# Slice reads and writes in flight

`fs_slice_read` and `fs_slice_write` set the counter of an operation context to the
number of slices and hand each slice to a trunk I/O thread.  Every completion counts
the counter down, and the one that brings it to zero runs the callback of the
context.  The counter is a C `short`, and the context may be used again while I/O of
an earlier call is still in flight, so the callback is the completion of the call
only under conditions, which this module states once for all users.
-/

namespace FastStore.Storage

open FastStore.Util

/-- The part of `FSSliceOpContext` that I/O completions change.  `call` numbers the
reads and writes made with the context. -/
structure FSSliceOpContext where
  call : Nat
  result : Errno
  counter : Int
  sliceCount : Nat
  deriving DecidableEq, Repr

/-- An I/O request of a trunk thread: the context it completes, and the slice of the
call it was pushed for. -/
structure TrunkIO where
  ctx : Nat
  call : Nat
  slice : Nat
  deriving DecidableEq, Repr

/-- The operation contexts, the requests in flight and, as history, the slices whose
request succeeded. -/
structure SliceIo where
  ctxs : Nat → FSSliceOpContext
  inFlight : List TrunkIO
  completed : List (Nat × Nat)

/-- The value of an integer stored in a C `short`. -/
def toShort (value : Int) : Int := (value + 32768) % 65536 - 32768

theorem toShort_eq_zero_iff (value : Int) : toShort value = 0 ↔ value % 65536 = 0 := by
  unfold toShort
  omega

theorem toShort_emod (value : Int) : toShort value % 65536 = value % 65536 := by
  unfold toShort
  omega

namespace SliceIo

variable (io : SliceIo)

def setCtx (ctx : Nat) (context : FSSliceOpContext) : SliceIo :=
  { io with ctxs := Function.update io.ctxs ctx context }

/-- The head of `fs_slice_read` and `fs_slice_write` once the slices are known. -/
def beginCall (ctx call count : Nat) : SliceIo :=
  io.setCtx ctx ⟨call, .ok, toShort count, count⟩

/-- `trunk_read_thread_push` or `trunk_write_thread_push`. -/
def push (request : TrunkIO) : SliceIo :=
  { io with inFlight := io.inFlight ++ [request] }

/-- The common part of `do_read_done` and `slice_write_done`: the callback runs when
the counter comes down to zero. -/
def partDone (ctx : Nat) (result : Errno) : Bool × SliceIo :=
  let context := io.ctxs ctx
  let counter := toShort (context.counter - 1)
  (counter = 0,
    io.setCtx ctx
      { context with
        counter := counter
        result := if result = .ok then context.result else result })

/-- A reserved slice is read as zeros, without a request. -/
def skipSlice (ctx call slice : Nat) : Bool × SliceIo :=
  partDone { io with completed := (call, slice) :: io.completed } ctx .ok

/-- A trunk thread completes a request. -/
def requestDone (request : TrunkIO) (result : Errno) : Bool × SliceIo :=
  partDone
    { io with
      inFlight := io.inFlight.erase request
      completed := if result = .ok then (request.call, request.slice) :: io.completed
        else io.completed }
    request.ctx result

/-- The number of requests in flight for a context. -/
def pending (ctx : Nat) : Nat := io.inFlight.countP fun request => request.ctx = ctx

@[simp] theorem setCtx_inFlight (ctx : Nat) (context : FSSliceOpContext) :
    (io.setCtx ctx context).inFlight = io.inFlight := rfl

@[simp] theorem setCtx_completed (ctx : Nat) (context : FSSliceOpContext) :
    (io.setCtx ctx context).completed = io.completed := rfl

@[simp] theorem setCtx_self (ctx : Nat) (context : FSSliceOpContext) :
    (io.setCtx ctx context).ctxs ctx = context := by
  simp [setCtx]

theorem setCtx_of_ne {ctx other : Nat} (context : FSSliceOpContext) (distinct : other ≠ ctx) :
    (io.setCtx ctx context).ctxs other = io.ctxs other := Function.update_of_ne distinct _ _

@[simp] theorem pending_setCtx (ctx other : Nat) (context : FSSliceOpContext) :
    (io.setCtx ctx context).pending other = io.pending other := rfl

theorem pending_push (request : TrunkIO) (ctx : Nat) :
    (io.push request).pending ctx = io.pending ctx + if request.ctx = ctx then 1 else 0 := by
  simp only [pending, push, List.countP_append]
  by_cases same : request.ctx = ctx <;> simp [same]

variable {io}

theorem pending_erase {request : TrunkIO} (member : request ∈ io.inFlight) (ctx : Nat) :
    (io.inFlight.erase request).countP (fun request => request.ctx = ctx) +
      (if request.ctx = ctx then 1 else 0) = io.pending ctx := by
  have perm := List.perm_cons_erase member
  rw [pending, perm.countP_eq, List.countP_cons]
  simp

theorem pending_eq_zero_iff {ctx : Nat} :
    io.pending ctx = 0 ↔ ∀ request ∈ io.inFlight, request.ctx ≠ ctx := by
  simp [pending, List.countP_eq_zero]

/-! ## What completions leave alone -/

theorem partDone_call (io : SliceIo) (ctx other : Nat) (result : Errno) :
    ((io.partDone ctx result).2.ctxs other).call = (io.ctxs other).call ∧
      ((io.partDone ctx result).2.ctxs other).sliceCount = (io.ctxs other).sliceCount := by
  by_cases same : other = ctx
  · simp [partDone, same]
  · simp only [partDone]
    rw [setCtx_of_ne io _ same]
    exact ⟨rfl, rfl⟩

theorem skipSlice_call (io : SliceIo) (ctx call slice other : Nat) :
    ((io.skipSlice ctx call slice).2.ctxs other).call = (io.ctxs other).call ∧
      ((io.skipSlice ctx call slice).2.ctxs other).sliceCount = (io.ctxs other).sliceCount :=
  partDone_call _ ctx other .ok

theorem requestDone_call (io : SliceIo) (request : TrunkIO) (result : Errno) (other : Nat) :
    ((io.requestDone request result).2.ctxs other).call = (io.ctxs other).call ∧
      ((io.requestDone request result).2.ctxs other).sliceCount = (io.ctxs other).sliceCount :=
  partDone_call _ request.ctx other result

theorem requestDone_ctxs_of_ne (request : TrunkIO) (result : Errno) {other : Nat}
    (distinct : other ≠ request.ctx) :
    (io.requestDone request result).2.ctxs other = io.ctxs other :=
  setCtx_of_ne _ _ distinct

theorem pending_requestDone_of_ne {request : TrunkIO} (member : request ∈ io.inFlight)
    (result : Errno) {other : Nat} (distinct : request.ctx ≠ other) :
    (io.requestDone request result).2.pending other = io.pending other := by
  have fewer := pending_erase member other
  rw [if_neg distinct, add_zero] at fewer
  exact fewer

theorem pending_pos {request : TrunkIO} (member : request ∈ io.inFlight) :
    0 < io.pending request.ctx := by
  have fewer := pending_erase member request.ctx
  rw [if_pos rfl] at fewer
  omega

/-! ## Counting down -/

/-- The counter of a context stands for `left` completions. -/
def CountsTo (io : SliceIo) (ctx left : Nat) : Prop :=
  left ≤ 65536 ∧ (io.ctxs ctx).counter % 65536 = (left : Int) % 65536

/-- The counters of all contexts.  The call that is being pushed or awaited counts the
requests in flight and the slices still to push; any other context has nothing in
flight, or has lost a slice for good and never comes down to zero. -/
structure Counting (opened : Option (Nat × Nat)) (io : SliceIo) : Prop where
  current : ∀ ctx unpushed, opened = some (ctx, unpushed) →
    io.CountsTo ctx (io.pending ctx + unpushed)
  others : ∀ ctx, (∀ unpushed, opened ≠ some (ctx, unpushed)) →
    io.pending ctx = 0 ∨ ∃ lost, 0 < lost ∧ io.CountsTo ctx (io.pending ctx + lost)

/-- One completion: the counter comes down by one, and to zero with the last only. -/
theorem CountsTo.partDone {ctx left : Nat} (counts : io.CountsTo ctx (left + 1))
    (result : Errno) :
    ((io.partDone ctx result).1 = true ↔ left = 0) ∧
      (io.partDone ctx result).2.CountsTo ctx left := by
  obtain ⟨bound, value⟩ := counts
  have reduced := toShort_emod ((io.ctxs ctx).counter - 1)
  constructor
  · simp only [SliceIo.partDone, decide_eq_true_eq, toShort_eq_zero_iff]
    omega
  · constructor
    · omega
    · simp only [SliceIo.partDone, setCtx_self]
      omega

theorem CountsTo.of_counter_eq {other : SliceIo} {ctx left : Nat} (counts : io.CountsTo ctx left)
    (same : (other.ctxs ctx).counter = (io.ctxs ctx).counter) : other.CountsTo ctx left :=
  ⟨counts.1, by rw [same]; exact counts.2⟩

namespace Counting

variable {opened : Option (Nat × Nat)} {ctx unpushed : Nat}

/-- A call begins on a context with nothing in flight. -/
theorem beginCall (counting : Counting none io) (quiet : io.pending ctx = 0) {call count : Nat}
    (bound : count ≤ 65536) :
    Counting (some (ctx, count)) (io.beginCall ctx call count) := by
  constructor
  · rintro _ _ ⟨⟩
    have pending : (io.beginCall ctx call count).pending ctx = 0 := quiet
    rw [pending, zero_add]
    refine ⟨bound, ?_⟩
    simp [SliceIo.beginCall, toShort_emod]
  · intro other distinct
    have apart : other ≠ ctx := by
      rintro rfl
      exact distinct count rfl
    have same : ((io.beginCall ctx call count).ctxs other).counter =
        (io.ctxs other).counter := by rw [SliceIo.beginCall, setCtx_of_ne io _ apart]
    rcases counting.others other (fun _ => (Option.some_ne_none _).symm) with idle | ⟨lost, positive, counts⟩
    · exact Or.inl idle
    · exact Or.inr ⟨lost, positive, counts.of_counter_eq same⟩

/-- A slice is handed to its trunk thread. -/
theorem push (counting : Counting (some (ctx, unpushed + 1)) io) (call slice : Nat) :
    Counting (some (ctx, unpushed)) (io.push ⟨ctx, call, slice⟩) := by
  constructor
  · rintro _ _ ⟨⟩
    have counts := counting.current ctx (unpushed + 1) rfl
    rw [pending_push, if_pos rfl, add_assoc, add_comm 1]
    exact counts
  · intro other distinct
    have apart : ctx ≠ other := by
      rintro rfl
      exact distinct unpushed rfl
    rw [pending_push, if_neg apart, add_zero]
    exact counting.others other fun count same => apart (congrArg Prod.fst (Option.some.inj same))

/-- A slice that needs no request completes at once. -/
theorem skipSlice (counting : Counting (some (ctx, unpushed + 1)) io) (call slice : Nat) :
    ((io.skipSlice ctx call slice).1 = true ↔ io.pending ctx + unpushed = 0) ∧
      Counting (some (ctx, unpushed)) (io.skipSlice ctx call slice).2 := by
  have counts := counting.current ctx (unpushed + 1) rfl
  rw [← add_assoc] at counts
  have marked : (⟨io.ctxs, io.inFlight, (call, slice) :: io.completed⟩ : SliceIo).CountsTo ctx
      (io.pending ctx + unpushed + 1) := counts.of_counter_eq rfl
  obtain ⟨last, down⟩ := marked.partDone .ok
  refine ⟨last, ?_, ?_⟩
  · rintro _ _ ⟨⟩
    exact down
  · intro other distinct
    have apart : other ≠ ctx := by
      rintro rfl
      exact distinct unpushed rfl
    have same : ((io.skipSlice ctx call slice).2.ctxs other).counter =
        (io.ctxs other).counter := by
      rw [SliceIo.skipSlice, partDone, setCtx_of_ne _ _ apart]
    rcases counting.others other (fun count equal => apart
      (congrArg Prod.fst (Option.some.inj equal)).symm) with idle | ⟨lost, positive, otherCounts⟩
    · exact Or.inl idle
    · exact Or.inr ⟨lost, positive, otherCounts.of_counter_eq same⟩

/-- A call that fails with slices unpushed is given up: its counter stays above zero. -/
theorem abandon (counting : Counting (some (ctx, unpushed + 1)) io) : Counting none io := by
  constructor
  · intro _ _ impossible
    cases impossible
  · intro other _
    by_cases same : other = ctx
    · rw [same]
      exact Or.inr ⟨unpushed + 1, Nat.succ_pos unpushed, counting.current ctx _ rfl⟩
    · exact counting.others other fun count equal => same
        (congrArg Prod.fst (Option.some.inj equal)).symm

/-- A call whose requests are all done is over. -/
theorem close (counting : Counting (some (ctx, 0)) io) (quiet : io.pending ctx = 0) :
    Counting none io := by
  constructor
  · intro _ _ impossible
    cases impossible
  · intro other _
    by_cases same : other = ctx
    · rw [same]
      exact Or.inl quiet
    · exact counting.others other fun count equal => same
        (congrArg Prod.fst (Option.some.inj equal)).symm

/-- A request completes: the callback runs exactly when it is the last of the current
call. -/
theorem requestDone (counting : Counting opened io) {request : TrunkIO}
    (member : request ∈ io.inFlight) (result : Errno) :
    ((io.requestDone request result).1 = true ↔
        opened = some (request.ctx, 0) ∧
          (io.requestDone request result).2.pending request.ctx = 0) ∧
      Counting opened (io.requestDone request result).2 := by
  have fewer : ∀ ctx, (io.requestDone request result).2.pending ctx +
      (if request.ctx = ctx then 1 else 0) = io.pending ctx := pending_erase member
  have own := fewer request.ctx
  rw [if_pos rfl] at own
  have step : ∀ left, io.CountsTo request.ctx (left + 1) →
      ((io.requestDone request result).1 = true ↔ left = 0) ∧
        (io.requestDone request result).2.CountsTo request.ctx left := by
    intro left counts
    have erased : (⟨io.ctxs, io.inFlight.erase request, if result = .ok then
        (request.call, request.slice) :: io.completed else io.completed⟩ : SliceIo).CountsTo
          request.ctx (left + 1) := counts.of_counter_eq rfl
    exact erased.partDone result
  have apart : ∀ ctx, ctx ≠ request.ctx →
      ((io.requestDone request result).2.ctxs ctx).counter = (io.ctxs ctx).counter ∧
        (io.requestDone request result).2.pending ctx = io.pending ctx := by
    intro ctx distinct
    constructor
    · rw [SliceIo.requestDone, partDone, setCtx_of_ne _ _ distinct]
    · have same := fewer ctx
      rw [if_neg (Ne.symm distinct), add_zero] at same
      exact same
  by_cases current : ∃ count, opened = some (request.ctx, count)
  · obtain ⟨count, rfl⟩ := current
    have counts := counting.current request.ctx count rfl
    rw [← own, add_right_comm] at counts
    obtain ⟨last, down⟩ := step _ counts
    refine ⟨?_, ?_, ?_⟩
    · rw [last, Option.some.injEq, Prod.mk.injEq]
      omega
    · rintro _ _ ⟨⟩
      exact down
    · intro other distinct
      have elsewhere : other ≠ request.ctx := by
        rintro rfl
        exact distinct count rfl
      obtain ⟨counter, pending⟩ := apart other elsewhere
      rw [pending]
      rcases counting.others other distinct with idle | ⟨lost, positive, otherCounts⟩
      · exact Or.inl idle
      · exact Or.inr ⟨lost, positive, otherCounts.of_counter_eq counter⟩
  · have stale : ∀ count, opened ≠ some (request.ctx, count) :=
      fun count equal => current ⟨count, equal⟩
    obtain ⟨lost, positive, counts⟩ : ∃ lost, 0 < lost ∧
        io.CountsTo request.ctx (io.pending request.ctx + lost) := by
      rcases counting.others request.ctx stale with idle | found
      · omega
      · exact found
    rw [← own, add_right_comm] at counts
    obtain ⟨last, down⟩ := step _ counts
    refine ⟨?_, ?_, ?_⟩
    · constructor
      · intro ran
        have none := last.mp ran
        omega
      · intro both
        exact absurd both.1 (stale 0)
    · intro ctx count equal
      have elsewhere : ctx ≠ request.ctx := by
        rintro rfl
        exact stale count equal
      obtain ⟨counter, pending⟩ := apart ctx elsewhere
      rw [pending]
      exact (counting.current ctx count equal).of_counter_eq counter
    · intro other distinct
      by_cases same : other = request.ctx
      · rw [same]
        exact Or.inr ⟨lost, positive, down⟩
      · obtain ⟨counter, pending⟩ := apart other same
        rw [pending]
        rcases counting.others other distinct with idle | ⟨left, some, otherCounts⟩
        · exact Or.inl idle
        · exact Or.inr ⟨left, some, otherCounts.of_counter_eq counter⟩

end Counting

/-! ## What a call has completed -/

/-- Each of the first `count` slices of a call is in flight, done, or failed. -/
def Accounts (io : SliceIo) (ctx call count : Nat) : Prop :=
  ∀ slice < count, ⟨ctx, call, slice⟩ ∈ io.inFlight ∨ (call, slice) ∈ io.completed ∨
    (io.ctxs ctx).result ≠ .ok

namespace Accounts

variable {ctx call count : Nat}

theorem push (accounts : io.Accounts ctx call count) :
    (io.push ⟨ctx, call, count⟩).Accounts ctx call (count + 1) := by
  intro slice below
  by_cases last : slice = count
  · rw [last]
    exact Or.inl (List.mem_append_right _ List.mem_cons_self)
  · rcases accounts slice (by omega) with flying | rest
    · exact Or.inl (List.mem_append_left _ flying)
    · exact Or.inr rest

theorem skipSlice (accounts : io.Accounts ctx call count) :
    (io.skipSlice ctx call count).2.Accounts ctx call (count + 1) := by
  intro slice below
  by_cases last : slice = count
  · rw [last]
    exact Or.inr (Or.inl List.mem_cons_self)
  · rcases accounts slice (by omega) with flying | done | failed
    · exact Or.inl flying
    · exact Or.inr (Or.inl (List.mem_cons_of_mem _ done))
    · refine Or.inr (Or.inr ?_)
      simpa [SliceIo.skipSlice, partDone] using failed

theorem requestDone (accounts : io.Accounts ctx call count) (request : TrunkIO) (result : Errno) :
    (io.requestDone request result).2.Accounts ctx call count := by
  intro slice below
  rcases accounts slice below with flying | done | failed
  · by_cases same : (⟨ctx, call, slice⟩ : TrunkIO) = request
    · by_cases succeeds : result = .ok
      · refine Or.inr (Or.inl ?_)
        simp [SliceIo.requestDone, partDone, succeeds, ← same]
      · refine Or.inr (Or.inr ?_)
        simp [SliceIo.requestDone, partDone, succeeds, ← same]
    · exact Or.inl ((List.mem_erase_of_ne same).mpr flying)
  · refine Or.inr (Or.inl ?_)
    simp only [SliceIo.requestDone, partDone, setCtx_completed]
    split_ifs
    · exact List.mem_cons_of_mem _ done
    · exact done
  · refine Or.inr (Or.inr ?_)
    by_cases same : ctx = request.ctx
    · simp only [SliceIo.requestDone, partDone, ← same, setCtx_self]
      split_ifs with succeeds
      · exact failed
      · exact succeeds
    · simp only [SliceIo.requestDone, partDone]
      rw [setCtx_of_ne _ _ same]
      exact failed

/-- When nothing is in flight any more and no request failed, every slice is done. -/
theorem completed (accounts : io.Accounts ctx call count) (quiet : io.pending ctx = 0)
    (succeeded : (io.ctxs ctx).result = .ok) :
    ∀ slice < count, (call, slice) ∈ io.completed := by
  intro slice below
  rcases accounts slice below with flying | done | failed
  · exact absurd rfl (pending_eq_zero_iff.mp quiet _ flying)
  · exact done
  · exact absurd succeeded failed

end Accounts

theorem mem_completed_requestDone {entry : Nat × Nat} (member : entry ∈ io.completed)
    (request : TrunkIO) (result : Errno) :
    entry ∈ (io.requestDone request result).2.completed := by
  simp only [requestDone, partDone, setCtx_completed]
  split_ifs
  · exact List.mem_cons_of_mem _ member
  · exact member

end SliceIo

end FastStore.Storage
