import FastStore.Storage.SliceIo

/-!
# Migrating slices out of a trunk

A trunk maker thread reclaims trunks with one reclaim context: for every range it
reads the slices, waits for `notify.finished`, writes the buffers to new space and
waits for the flag again.  The flag is set by the callback of either call, and by
`fs_slice_write` itself when it gets no space, so a run has to keep it paired with
the waits.
-/

namespace FastStore.Storage

open FastStore.Util

/-- Where the thread is in `migrate_one_slice`; `idle` is between two calls of it, of one
or of different reclaims. -/
inductive MigratePhase where
  | idle
  | read
  /-- In the push loop of `fs_slice_read`, before slice `slice`. -/
  | reading (slice : Nat) (rest : List OBSliceType)
  | waitRead
  | write
  /-- In the push loop of `fs_slice_write`, with `rest` slices to push. -/
  | writing (slice rest : Nat)
  | waitWrite
  | writeFinish
  /-- A wait was cut short by the shutdown: the thread takes no further task. -/
  | ended
  deriving DecidableEq, Repr

/-- The reclaim context of a thread with the I/O of its one operation context, which
has number 0.  `calls` numbers the reads and writes; `writes` is history: for each
call of `fs_slice_write`, the read before it and the number of its buffers. -/
structure TrunkReclaimContext where
  finished : Bool
  continueFlag : Bool
  phase : MigratePhase
  calls : Nat
  io : SliceIo
  writes : List (Nat × Nat)

/-- The steps of the thread and its surroundings, with what the called functions
return. -/
inductive MigrateAction where
  | prepare (result : Errno)
  | getSlices (result : Errno) (types : List OBSliceType)
  | push (result : Errno)
  | requestDone (request : TrunkIO) (result : Errno)
  | waitReadReturn
  | sliceAlloc (result : Errno) (count : Nat)
  | waitWriteReturn
  | writeFinish
  | stop

namespace TrunkReclaimContext

variable (s : TrunkReclaimContext)

/-- `rctx->op_ctx.result = result`. -/
def setResult (result : Errno) : TrunkReclaimContext :=
  { s with io := s.io.setCtx 0 { s.io.ctxs 0 with result := result } }

/-- Take over the I/O state; `reclaim_slice_rw_done_callback` runs if the counter came to
zero. -/
def withIo (done : Bool × SliceIo) : TrunkReclaimContext :=
  { s with io := done.2, finished := s.finished || done.1 }

/-- When an action can be taken. -/
def Enabled : MigrateAction → Prop
  | .prepare _ => s.phase = .idle
  | .getSlices result types => s.phase = .read ∧ (result = .ok → types ≠ [])
  | .push _ => (∃ slice type rest, s.phase = .reading slice (type :: rest)) ∨
      ∃ slice rest, s.phase = .writing slice (rest + 1)
  | .requestDone request _ => request ∈ s.io.inFlight
  | .waitReadReturn => s.phase = .waitRead ∧ (s.finished = true ∨ s.continueFlag = false)
  | .sliceAlloc result count => s.phase = .write ∧ (result = .ok → count = 1 ∨ count = 2)
  | .waitWriteReturn => s.phase = .waitWrite ∧ (s.finished = true ∨ s.continueFlag = false)
  | .writeFinish => s.phase = .writeFinish
  | .stop => True

/-- A slice of a read: a reserved one is done at once. -/
def readPart (slice : Nat) (type : OBSliceType) : Bool × SliceIo :=
  if type = .alloc then s.io.skipSlice 0 s.calls slice
  else (false, s.io.push ⟨0, s.calls, slice⟩)

/-- One round of the push loop of `fs_slice_read`. -/
def pushRead (slice : Nat) (type : OBSliceType) (rest : List OBSliceType) (result : Errno) :
    TrunkReclaimContext :=
  if result = .ok then
    { s.withIo (s.readPart slice type) with
      phase := if rest = [] then .waitRead else .reading (slice + 1) rest }
  else { s with phase := .idle }

/-- One round of the push loop of `fs_slice_write`. -/
def pushWrite (slice rest : Nat) (result : Errno) : TrunkReclaimContext :=
  if result = .ok then
    { s with
      io := s.io.push ⟨0, s.calls, slice⟩
      phase := if rest = 0 then .waitWrite else .writing (slice + 1) rest }
  else { s.setResult result with phase := .idle }

/-- The end of the wait for the read: a good read goes on to `fs_slice_write`. -/
def readReturn : TrunkReclaimContext :=
  { s with
    finished := false
    phase := if s.finished then
        if (s.io.ctxs 0).result = .ok then .write else .idle
      else .ended
    writes := if s.finished ∧ (s.io.ctxs 0).result = .ok then
        (s.calls, (s.io.ctxs 0).sliceCount) :: s.writes
      else s.writes }

/-- The end of the wait for the write. -/
def writeReturn : TrunkReclaimContext :=
  if s.finished then { s with finished := false, phase := .writeFinish }
  else { s.setResult .eintr with phase := .ended }

/-- The state after an action. -/
def next (action : MigrateAction) : TrunkReclaimContext :=
  match action, s.phase with
  | .prepare .ok, .idle => { s with phase := .read, calls := s.calls + 1 }
  | .prepare _, .idle => s
  | .getSlices .ok types, .read =>
      { s with io := s.io.beginCall 0 s.calls types.length, phase := .reading 0 types }
  | .getSlices _ _, .read => { s with phase := .idle }
  | .push result, .reading slice (type :: rest) => s.pushRead slice type rest result
  | .push result, .writing slice (rest + 1) => s.pushWrite slice rest result
  | .requestDone request result, _ => s.withIo (s.io.requestDone request result)
  | .waitReadReturn, .waitRead => s.readReturn
  | .sliceAlloc .ok count, .write =>
      { s with
        calls := s.calls + 1
        io := s.io.beginCall 0 (s.calls + 1) count
        phase := .writing 0 count }
  | .sliceAlloc result _, .write =>
      -- `fs_slice_write` runs the callback itself, and its caller does not wait
      { s.setResult result with finished := true, phase := .idle }
  | .waitWriteReturn, .waitWrite => s.writeReturn
  | .writeFinish, .writeFinish => { s with phase := .idle }
  | .stop, _ => { s with continueFlag := false }
  | _, _ => s

/-! ## The condition and the invariant -/

/-- The steps after which the flag still means what the next wait takes it for. -/
def Undisturbed : MigrateAction → Prop
  | .getSlices result types => result = .ok → types.length ≤ 65536 ∧ s.io.pending 0 = 0
  | .sliceAlloc result _ => result = .ok
  | _ => True

/-- The read or write that counts completions, with the slices still to push. -/
def openCall : MigratePhase → Option (Nat × Nat)
  | .reading _ rest => some (0, rest.length)
  | .writing _ rest => some (0, rest)
  | .waitRead | .waitWrite => some (0, 0)
  | _ => none

/-- What holds in each phase. -/
def PhaseInvariant : Prop :=
  match s.phase with
  | .idle | .read | .writeFinish => s.finished = false
  | .write => s.finished = false ∧ s.io.pending 0 = 0
  | .reading slice rest =>
      s.finished = false ∧ rest ≠ [] ∧ s.io.Accounts 0 s.calls slice ∧
        slice + rest.length = (s.io.ctxs 0).sliceCount
  | .waitRead =>
      (s.finished = true ↔ s.io.pending 0 = 0) ∧
        s.io.Accounts 0 s.calls (s.io.ctxs 0).sliceCount
  | .writing _ rest => s.finished = false ∧ rest ≠ 0
  | .waitWrite => s.finished = true ↔ s.io.pending 0 = 0
  | .ended => True

structure Invariant : Prop where
  counting : s.phase ≠ .ended → SliceIo.Counting (openCall s.phase) s.io
  phase : s.PhaseInvariant
  writes : ∀ write ∈ s.writes, ∀ slice < write.2, (write.1, slice) ∈ s.io.completed

variable {s}

theorem Invariant.init (finished : s.finished = false) (phase : s.phase = .idle)
    (inFlight : s.io.inFlight = []) (writes : s.writes = []) : s.Invariant := by
  constructor
  · intro _
    constructor
    · intro ctx unpushed current
      rw [phase] at current
      cases current
    · intro ctx _
      refine Or.inl ?_
      rw [SliceIo.pending, inFlight]
      rfl
  · rw [PhaseInvariant, phase]
    exact finished
  · rw [writes]
    intro write member
    cases member

/-! ## Pushing -/

/-- One slice of a read: the callback runs with the last slice if nothing is in
flight. -/
theorem readPart_spec {slice unpushed : Nat} (type : OBSliceType)
    (counting : SliceIo.Counting (some (0, unpushed + 1)) s.io)
    (accounts : s.io.Accounts 0 s.calls slice) :
    ((s.readPart slice type).1 = true ↔ (s.readPart slice type).2.pending 0 + unpushed = 0) ∧
      SliceIo.Counting (some (0, unpushed)) (s.readPart slice type).2 ∧
      (s.readPart slice type).2.Accounts 0 s.calls (slice + 1) ∧
      ((s.readPart slice type).2.ctxs 0).sliceCount = (s.io.ctxs 0).sliceCount ∧
      ∀ entry ∈ s.io.completed, entry ∈ (s.readPart slice type).2.completed := by
  unfold readPart
  split_ifs with reserved
  · obtain ⟨last, counts⟩ := counting.skipSlice s.calls slice
    exact ⟨last, counts, accounts.skipSlice, (SliceIo.skipSlice_call s.io 0 s.calls slice 0).2,
      fun _ member => List.mem_cons_of_mem _ member⟩
  · have one := SliceIo.pending_push s.io ⟨0, s.calls, slice⟩ 0
    rw [if_pos rfl] at one
    refine ⟨?_, counting.push s.calls slice, accounts.push, rfl, fun _ member => member⟩
    rw [one]
    simp

/-- A call given up in the middle of its push loop. -/
theorem Invariant.abandon {after : TrunkReclaimContext} (before : s.Invariant) (unpushed : Nat)
    (phase : openCall s.phase = some (0, unpushed + 1)) (active : s.phase ≠ .ended)
    (down : after.finished = false) (idle : after.phase = .idle)
    (inFlight : after.io.inFlight = s.io.inFlight)
    (counters : ∀ ctx, (after.io.ctxs ctx).counter = (s.io.ctxs ctx).counter)
    (completed : after.io.completed = s.io.completed) (writes : after.writes = s.writes) :
    after.Invariant := by
  have counting := before.counting active
  rw [phase] at counting
  constructor
  · intro _
    rw [idle]
    constructor
    · intro ctx count current
      cases current
    · intro ctx _
      have pending : after.io.pending ctx = s.io.pending ctx := by
        rw [SliceIo.pending, inFlight, ← SliceIo.pending]
      rw [pending]
      rcases counting.abandon.others ctx (fun _ => (Option.some_ne_none _).symm) with
        none | ⟨lost, positive, counts⟩
      · exact Or.inl none
      · exact Or.inr ⟨lost, positive, counts.of_counter_eq (counters ctx)⟩
  · rw [PhaseInvariant, idle]
    exact down
  · rw [writes, completed]
    exact before.writes

theorem setResult_counter (s : TrunkReclaimContext) (result : Errno) (ctx : Nat) :
    ((s.setResult result).io.ctxs ctx).counter = (s.io.ctxs ctx).counter := by
  by_cases same : ctx = 0
  · simp [setResult, same]
  · simp only [setResult]
    rw [SliceIo.setCtx_of_ne _ _ same]

theorem Invariant.pushRead (before : s.Invariant) {slice : Nat} {type : OBSliceType}
    {rest : List OBSliceType} (phase : s.phase = .reading slice (type :: rest)) (result : Errno) :
    (s.pushRead slice type rest result).Invariant := by
  have active : s.phase ≠ .ended := by simp [phase]
  have counting := before.counting active
  have facts := before.phase
  rw [phase] at counting
  rw [PhaseInvariant, phase] at facts
  obtain ⟨down, _, accounts, total⟩ := facts
  unfold TrunkReclaimContext.pushRead
  by_cases succeeds : result = .ok
  · rw [if_pos succeeds]
    obtain ⟨last, counts, accounted, count, completed⟩ := readPart_spec type counting accounts
    have flag : (s.withIo (s.readPart slice type)).finished = (s.readPart slice type).1 := by
      simp [withIo, down]
    have history : ∀ write ∈ s.writes, ∀ slice' < write.2,
        (write.1, slice') ∈ (s.readPart slice type).2.completed := fun write member slice' below =>
      completed _ (before.writes write member slice' below)
    cases rest with
    | nil =>
        refine ⟨fun _ => counts, ⟨?_, ?_⟩, history⟩
        · dsimp only
          rw [flag]
          exact last
        · have full : slice + 1 = ((s.readPart slice type).2.ctxs 0).sliceCount := by
            rw [count, ← total]
            rfl
          simp only [withIo]
          rw [← full]
          exact accounted
    | cons next others =>
        refine ⟨fun _ => counts, ⟨?_, List.cons_ne_nil _ _, accounted, ?_⟩, history⟩
        · dsimp only
          rw [flag]
          exact Bool.eq_false_iff.mpr fun ran => by simpa using last.mp ran
        · simp only [withIo, count, ← total, List.length_cons]
          omega
  · rw [if_neg succeeds]
    exact before.abandon rest.length (by rw [phase]; rfl) active down rfl rfl
      (fun _ => rfl) rfl rfl

theorem Invariant.pushWrite (before : s.Invariant) {slice rest : Nat}
    (phase : s.phase = .writing slice (rest + 1)) (result : Errno) :
    (s.pushWrite slice rest result).Invariant := by
  have active : s.phase ≠ .ended := by simp [phase]
  have counting := before.counting active
  have facts := before.phase
  rw [phase] at counting
  rw [PhaseInvariant, phase] at facts
  unfold TrunkReclaimContext.pushWrite
  by_cases succeeds : result = .ok
  · rw [if_pos succeeds]
    have counts := counting.push s.calls slice
    have one := SliceIo.pending_push s.io ⟨0, s.calls, slice⟩ 0
    rw [if_pos rfl] at one
    cases rest with
    | zero =>
        refine ⟨fun _ => counts, ?_, before.writes⟩
        show s.finished = true ↔ (s.io.push ⟨0, s.calls, slice⟩).pending 0 = 0
        rw [facts.1, one]
        simp
    | succ others =>
        exact ⟨fun _ => counts, ⟨facts.1, Nat.succ_ne_zero others⟩, before.writes⟩
  · rw [if_neg succeeds]
    exact before.abandon rest (by rw [phase]; rfl) active facts.1 rfl rfl
      (setResult_counter s result) rfl rfl

/-! ## Completions -/

/-- In a wait the flag goes up with the last completion. -/
theorem finished_requestDone {request : TrunkIO} (member : request ∈ s.io.inFlight)
    {result : Errno} (flag : s.finished = true ↔ s.io.pending 0 = 0)
    (last : (s.io.requestDone request result).1 = true ↔ some (0, 0) = some (request.ctx, 0) ∧
      (s.io.requestDone request result).2.pending request.ctx = 0) :
    (s.withIo (s.io.requestDone request result)).finished = true ↔
      (s.io.requestDone request result).2.pending 0 = 0 := by
  by_cases own : request.ctx = 0
  · have flying := SliceIo.pending_pos member
    rw [own] at last flying
    have down : s.finished = false := Bool.eq_false_iff.mpr fun up => by
      have none := flag.mp up
      omega
    simp only [withIo, down, Bool.false_or, last, true_and]
  · have silent : (s.io.requestDone request result).1 = false := Bool.eq_false_iff.mpr fun ran => by
      have same := (last.mp ran).1
      rw [Option.some.injEq, Prod.mk.injEq] at same
      exact own same.1.symm
    rw [SliceIo.pending_requestDone_of_ne member result own]
    simp only [withIo, silent, Bool.or_false, flag]

theorem Invariant.requestDone (before : s.Invariant) {request : TrunkIO}
    (member : request ∈ s.io.inFlight) (result : Errno) :
    (s.withIo (s.io.requestDone request result)).Invariant := by
  have history : ∀ write ∈ s.writes, ∀ slice < write.2,
      (write.1, slice) ∈ (s.io.requestDone request result).2.completed :=
    fun write found slice below => SliceIo.mem_completed_requestDone
      (before.writes write found slice below) request result
  have count := (SliceIo.requestDone_call s.io request result 0).2
  have facts := before.phase
  by_cases ended : s.phase = .ended
  · refine ⟨fun active => absurd ended active, ?_, history⟩
    rw [PhaseInvariant, show (s.withIo _).phase = s.phase from rfl, ended]
    trivial
  · obtain ⟨last, counting⟩ := (before.counting ended).requestDone member result
    -- outside a wait no completion runs the callback
    have silent : (∀ ctx, openCall s.phase ≠ some (ctx, 0)) → s.finished = false →
        (s.withIo (s.io.requestDone request result)).finished = false := by
      intro unawaited down
      have quiet : (s.io.requestDone request result).1 = false :=
        Bool.eq_false_iff.mpr fun ran => unawaited _ (last.mp ran).1
      simp [withIo, down, quiet]
    refine ⟨fun _ => counting, ?_, history⟩
    unfold PhaseInvariant at facts ⊢
    rw [show (s.withIo _).phase = s.phase from rfl]
    cases phase : s.phase with
    | idle | read | writeFinish =>
        simp only [phase] at facts silent ⊢
        exact silent (fun _ => (Option.some_ne_none _).symm) facts
    | write =>
        simp only [phase] at facts silent ⊢
        have apart : request.ctx ≠ 0 := fun own => by
          have flying := SliceIo.pending_pos member
          rw [own, facts.2] at flying
          exact lt_irrefl 0 flying
        refine ⟨silent (fun _ => (Option.some_ne_none _).symm) facts.1, ?_⟩
        exact (SliceIo.pending_requestDone_of_ne member result apart).trans facts.2
    | reading slice rest =>
        simp only [phase] at facts silent ⊢
        obtain ⟨down, nonempty, accounts, total⟩ := facts
        refine ⟨silent ?_ down, nonempty, accounts.requestDone request result,
          total.trans count.symm⟩
        intro ctx awaited
        rw [openCall, Option.some.injEq, Prod.mk.injEq] at awaited
        exact nonempty (List.length_eq_zero_iff.mp awaited.2)
    | writing slice rest =>
        simp only [phase] at facts silent ⊢
        refine ⟨silent ?_ facts.1, facts.2⟩
        intro ctx awaited
        rw [openCall, Option.some.injEq, Prod.mk.injEq] at awaited
        exact facts.2 awaited.2
    | waitRead =>
        rw [phase] at last
        simp only [phase] at facts ⊢
        refine ⟨finished_requestDone member facts.1 last, ?_⟩
        simp only [withIo, count]
        exact facts.2.requestDone request result
    | waitWrite =>
        rw [phase] at last
        simp only [phase] at facts ⊢
        exact finished_requestDone member facts last
    | ended => exact absurd phase ended

/-! ## Waiting -/

/-- Between phases that do not count completions. -/
theorem Invariant.rephase {after : TrunkReclaimContext} (before : s.Invariant)
    (active : s.phase ≠ .ended) (wasClosed : openCall s.phase = none)
    (closed : openCall after.phase = none) (io : after.io = s.io) (writes : after.writes = s.writes)
    (phase : after.PhaseInvariant) : after.Invariant := by
  refine ⟨fun _ => ?_, phase, ?_⟩
  · rw [closed, io, ← wasClosed]
    exact before.counting active
  · rw [writes, io]
    exact before.writes

theorem Invariant.readReturn (before : s.Invariant) (phase : s.phase = .waitRead) :
    s.readReturn.Invariant := by
  have counting := before.counting (by simp [phase])
  have facts := before.phase
  rw [phase] at counting
  rw [PhaseInvariant, phase] at facts
  obtain ⟨flag, accounts⟩ := facts
  unfold TrunkReclaimContext.readReturn
  by_cases notified : s.finished = true
  · have quiet := flag.mp notified
    have closed := counting.close quiet
    by_cases succeeded : (s.io.ctxs 0).result = .ok
    · simp only [notified, succeeded, if_true, true_and]
      refine ⟨fun _ => closed, ⟨rfl, quiet⟩, ?_⟩
      intro write member slice below
      rcases List.mem_cons.mp member with rfl | old
      · exact accounts.completed quiet succeeded slice below
      · exact before.writes write old slice below
    · simp only [notified, succeeded, if_true, if_false, and_false]
      exact ⟨fun _ => closed, rfl, before.writes⟩
  · simp only [notified, if_false, false_and, Bool.false_eq_true]
    exact ⟨fun active => absurd rfl active, trivial, before.writes⟩

theorem Invariant.writeReturn (before : s.Invariant) (phase : s.phase = .waitWrite) :
    s.writeReturn.Invariant := by
  have counting := before.counting (by simp [phase])
  have facts := before.phase
  rw [phase] at counting
  rw [PhaseInvariant, phase] at facts
  unfold TrunkReclaimContext.writeReturn
  split_ifs with notified
  · exact ⟨fun _ => counting.close (facts.mp notified), rfl, before.writes⟩
  · exact ⟨fun active => absurd rfl active, trivial, before.writes⟩

theorem Invariant.stop (before : s.Invariant) : Invariant { s with continueFlag := false } := by
  refine ⟨before.counting, ?_, before.writes⟩
  have facts := before.phase
  unfold PhaseInvariant at facts ⊢
  exact facts

theorem Invariant.next (before : s.Invariant) {action : MigrateAction}
    (undisturbed : s.Undisturbed action) (enabled : s.Enabled action) :
    (s.next action).Invariant := by
  have facts := before.phase
  rw [PhaseInvariant] at facts
  cases action with
  | prepare result =>
      have phase : s.phase = .idle := enabled
      rw [phase] at facts
      cases result with
      | ok =>
          simp only [TrunkReclaimContext.next, phase]
          exact before.rephase (by simp [phase]) (by rw [phase]; rfl) rfl rfl rfl facts
      | _ =>
          simp only [TrunkReclaimContext.next, phase]
          exact before
  | getSlices result types =>
      obtain ⟨phase, nonempty⟩ := enabled
      have counting := before.counting (by simp [phase])
      rw [phase] at facts counting
      cases result with
      | ok =>
          obtain ⟨bound, quiet⟩ := undisturbed rfl
          simp only [TrunkReclaimContext.next, phase]
          refine ⟨fun _ => counting.beginCall quiet bound, ⟨facts, nonempty rfl, ?_, ?_⟩,
            before.writes⟩
          · intro slice below
            omega
          · simp [SliceIo.beginCall]
      | _ =>
          simp only [TrunkReclaimContext.next, phase]
          exact before.rephase (by simp [phase]) (by rw [phase]; rfl) rfl rfl rfl facts
  | push result =>
      rcases enabled with ⟨slice, type, rest, phase⟩ | ⟨slice, rest, phase⟩
      · simp only [TrunkReclaimContext.next, phase]
        exact before.pushRead phase result
      · simp only [TrunkReclaimContext.next, phase]
        exact before.pushWrite phase result
  | requestDone request result =>
      have member : request ∈ s.io.inFlight := enabled
      simp only [TrunkReclaimContext.next]
      exact before.requestDone member result
  | waitReadReturn =>
      obtain ⟨phase, _⟩ := enabled
      simp only [TrunkReclaimContext.next, phase]
      exact before.readReturn phase
  | sliceAlloc result count =>
      obtain ⟨phase, counts⟩ := enabled
      have counting := before.counting (by simp [phase])
      rw [phase] at facts counting
      have succeeds : result = .ok := undisturbed
      have one := counts succeeds
      simp only [TrunkReclaimContext.next, phase, succeeds]
      exact ⟨fun _ => counting.beginCall facts.2 (by omega), ⟨facts.1, by omega⟩, before.writes⟩
  | waitWriteReturn =>
      obtain ⟨phase, _⟩ := enabled
      simp only [TrunkReclaimContext.next, phase]
      exact before.writeReturn phase
  | writeFinish =>
      have phase : s.phase = .writeFinish := enabled
      rw [phase] at facts
      simp only [TrunkReclaimContext.next, phase]
      exact before.rephase (by simp [phase]) (by rw [phase]; rfl) rfl rfl rfl facts
  | stop =>
      simp only [TrunkReclaimContext.next]
      exact before.stop

end TrunkReclaimContext

/-- The steps of a trunk maker thread that reclaims. -/
def MigrateStep : StepRel TrunkReclaimContext MigrateAction :=
  StepRel.ofNext TrunkReclaimContext.Enabled TrunkReclaimContext.next

/-- A context as `trunk_reclaim_init_ctx` makes it. -/
def MigrateInit (s : TrunkReclaimContext) : Prop :=
  s.finished = false ∧ s.continueFlag = true ∧ s.phase = .idle ∧ s.io.inFlight = [] ∧ s.writes = []

/-- In a run whose writes all get their space, whose reads begin with nothing in flight
and find no more slices than a `short` counts, the flag is down whenever
`migrate_one_slice` starts, and `fs_slice_write` is called only with buffers that the
read before it has filled. -/
theorem migrate_writes_filled_buffers {s : TrunkReclaimContext}
    (reached : Reachable (MigrateStep.guarded TrunkReclaimContext.Undisturbed) MigrateInit s) :
    (∀ result, s.Enabled (.prepare result) → s.finished = false) ∧
      ∀ write ∈ s.writes, ∀ slice < write.2, (write.1, slice) ∈ s.io.completed := by
  have invariant : s.Invariant := by
    refine reached.invariant ?_ ?_
    · rintro s ⟨finished, _, phase, inFlight, writes⟩
      exact TrunkReclaimContext.Invariant.init finished phase inFlight writes
    · rintro s action _ before ⟨undisturbed, enabled, rfl⟩
      exact before.next undisturbed enabled
  refine ⟨?_, invariant.writes⟩
  intro result enabled
  have phase : s.phase = .idle := enabled
  have quiet := invariant.phase
  rw [TrunkReclaimContext.PhaseInvariant, phase] at quiet
  exact quiet

/-- A new context. -/
def newReclaimContext : TrunkReclaimContext :=
  ⟨false, true, .idle, 0, ⟨fun _ => ⟨0, .ok, 0, 0⟩, [], []⟩, []⟩

/-- A range of two slices, one of them reserved, is read and written. -/
theorem migrate_writes_filled_buffers_two :
    ∃ s : TrunkReclaimContext,
      Reachable (MigrateStep.guarded TrunkReclaimContext.Undisturbed) MigrateInit s ∧
        s.writes = [(1, 2)] ∧ ∀ slice < 2, (1, slice) ∈ s.io.completed := by
  have initial : Reachable (MigrateStep.guarded TrunkReclaimContext.Undisturbed) MigrateInit
      newReclaimContext := .start ⟨rfl, rfl, rfl, rfl, rfl⟩
  have prepared := initial.actGuarded (.prepare .ok) trivial rfl
  have found := prepared.actGuarded (.getSlices .ok [.file, .alloc]) (fun _ => ⟨by decide, rfl⟩)
    ⟨rfl, fun _ => List.cons_ne_nil _ _⟩
  have pushed := found.actGuarded (.push .ok) trivial (Or.inl ⟨0, .file, [.alloc], rfl⟩)
  have skipped := pushed.actGuarded (.push .ok) trivial (Or.inl ⟨1, .alloc, [], rfl⟩)
  have filled := skipped.actGuarded (.requestDone ⟨0, 1, 0⟩ .ok) trivial List.mem_cons_self
  have waited := filled.actGuarded .waitReadReturn trivial ⟨rfl, Or.inl rfl⟩
  exact ⟨_, waited, rfl, (migrate_writes_filled_buffers waited).2 (1, 2) List.mem_cons_self⟩

/-- A write that gets no space leaves the flag up: the next migration writes buffers
whose read is still in flight. -/
theorem failed_alloc_migrates_unread_buffers :
    ¬ ∀ s : TrunkReclaimContext, Reachable MigrateStep MigrateInit s →
      (∀ result, s.Enabled (.prepare result) → s.finished = false) ∧
        ∀ write ∈ s.writes, ∀ slice < write.2, (write.1, slice) ∈ s.io.completed := by
  intro claimed
  have initial : Reachable MigrateStep MigrateInit newReclaimContext :=
    .start ⟨rfl, rfl, rfl, rfl, rfl⟩
  have prepared := initial.act (.prepare .ok) rfl
  have found := prepared.act (.getSlices .ok [.file]) ⟨rfl, fun _ => List.cons_ne_nil _ _⟩
  have pushed := found.act (.push .ok) (Or.inl ⟨0, .file, [], rfl⟩)
  have filled := pushed.act (.requestDone ⟨0, 1, 0⟩ .ok) List.mem_cons_self
  have waited := filled.act .waitReadReturn ⟨rfl, Or.inl rfl⟩
  have failed := waited.act (.sliceAlloc .eagain 0) ⟨rfl, nofun⟩
  have again := failed.act (.prepare .ok) rfl
  have foundAgain := again.act (.getSlices .ok [.file]) ⟨rfl, fun _ => List.cons_ne_nil _ _⟩
  have pushedAgain := foundAgain.act (.push .ok) (Or.inl ⟨0, .file, [], rfl⟩)
  have woken := pushedAgain.act .waitReadReturn ⟨rfl, Or.inl rfl⟩
  have read := (claimed _ woken).2 (2, 1) List.mem_cons_self 0 Nat.zero_lt_one
  have stale : (2, 0) ∉ [(1, 0)] := by decide
  exact stale read

end FastStore.Storage
