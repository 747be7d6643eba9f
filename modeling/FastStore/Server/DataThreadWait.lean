import FastStore.Server.DataThread

/-!
# A data thread waits for its own I/O

`notify_done` is down between operations and goes up in a wait only when the callback
of that wait has run, as long as no run takes one of these turns: a write whose space
cannot be allocated, whose callback nobody waits for; a read or write on a context
that still has requests of an earlier call in flight; a read of more slices than a
`short` counts; and a wait cut short by the shutdown.
-/

namespace FastStore.Server

open FastStore.Util FastStore.Storage

namespace DataThread

/-- The steps after which the flag still means what the next wait takes it for. -/
def Undisturbed (s : DataThread) : DataAction → Prop
  | .getSlices result types => result = .ok →
      types.length ≤ 65536 ∧ ∀ op, s.phase = .start op → s.io.pending op.ctx = 0
  | .sliceAlloc result _ =>
      result = .ok ∧ ∀ op, s.phase = .start op → s.io.pending op.ctx = 0
  | .waitRwReturn | .waitRpcReturn => s.notifyDone = true
  | _ => True

/-- The read or write that counts completions, with the slices still to push. -/
def openCall : Phase → Option (Nat × Nat)
  | .pushing op _ rest => some (op.ctx, rest.length)
  | .waitRw op => some (op.ctx, 0)
  | _ => none

/-- No wait is prepared or due. -/
structure Quiet (s : DataThread) : Prop where
  notifyDone : s.notifyDone = false
  rpcs : s.rpcs = []
  waitingRpcCount : ∀ ctx, s.waitingRpcCount ctx = 0

/-- The slaves of one operation are being called: `unpushed` of them are not counted
off yet. -/
structure CallsSlaves (s : DataThread) (ctx unpushed : Nat) : Prop where
  rpcs : ∀ other ∈ s.rpcs, other = ctx
  waitingRpcCount : s.waitingRpcCount ctx = s.rpcs.length + unpushed
  others : ∀ other, other ≠ ctx → s.waitingRpcCount other = 0
  notifyDone : s.notifyDone = true ↔ s.waitingRpcCount ctx = 0

/-- What holds in each phase. -/
def PhaseInvariant (s : DataThread) : Prop :=
  match s.phase with
  | .idle | .start _ | .finish _ | .respond _ => s.Quiet
  | .pushing op slice rest =>
      s.Quiet ∧ rest ≠ [] ∧ (s.io.ctxs op.ctx).call = s.calls ∧
        s.io.Accounts op.ctx s.calls slice ∧
        slice + rest.length = (s.io.ctxs op.ctx).sliceCount
  | .waitRw op =>
      (s.notifyDone = true ↔ s.io.pending op.ctx = 0) ∧ s.rpcs = [] ∧
        (∀ ctx, s.waitingRpcCount ctx = 0) ∧ (s.io.ctxs op.ctx).call = s.calls ∧
        (s.notifyDone = true → s.calls ∈ s.called) ∧
        (op.operation = .sliceWrite →
          s.io.Accounts op.ctx s.calls (s.io.ctxs op.ctx).sliceCount)
  | .writeFinish op _ =>
      s.Quiet ∧ s.io.pending op.ctx = 0 ∧
        ((s.io.ctxs op.ctx).result = .ok →
          ∀ slice < (s.io.ctxs op.ctx).sliceCount, (s.calls, slice) ∈ s.io.completed)
  | .pushRpc op rest inactive => s.CallsSlaves op.ctx (rest.length + inactive)
  | .waitRpc op => s.CallsSlaves op.ctx 0

structure Invariant (s : DataThread) : Prop where
  counting : SliceIo.Counting (openCall s.phase) s.io
  phase : s.PhaseInvariant
  waited : ∀ call ∈ s.waited, call ∈ s.called
  indexed : ∀ slice ∈ s.indexed, slice ∈ s.io.completed

variable {s : DataThread}

theorem Invariant.init (start : DataThreadInit s) : s.Invariant := by
  obtain ⟨flag, _, phase, inFlight, waiting, rpcs, waited, indexed⟩ := start
  constructor
  · constructor
    · intro ctx unpushed current
      rw [phase] at current
      cases current
    · intro ctx _
      refine Or.inl ?_
      rw [SliceIo.pending, inFlight]
      rfl
  · rw [PhaseInvariant, phase]
    exact ⟨flag, rpcs, waiting⟩
  · rw [waited]
    intro call member
    cases member
  · rw [indexed]
    intro slice member
    cases member

/-- A step of the thread that leaves the flag, the RPCs, the counters and the history
alone, between two phases that wait for nothing. -/
theorem Invariant.quiet {after : DataThread} (before : s.Invariant) (quiet : s.Quiet)
    (wasClosed : openCall s.phase = none) (closed : openCall after.phase = none)
    (inFlight : after.io.inFlight = s.io.inFlight)
    (counters : ∀ ctx, (after.io.ctxs ctx).counter = (s.io.ctxs ctx).counter)
    (completed : after.io.completed = s.io.completed)
    (phase : after.Quiet → after.PhaseInvariant)
    (notifyDone : after.notifyDone = s.notifyDone) (rpcs : after.rpcs = s.rpcs)
    (waiting : after.waitingRpcCount = s.waitingRpcCount) (called : after.called = s.called)
    (waited : after.waited = s.waited)
    (indexed : ∀ slice ∈ after.indexed, slice ∈ s.indexed ∨ slice ∈ s.io.completed) :
    after.Invariant := by
  have pending : ∀ ctx, after.io.pending ctx = s.io.pending ctx := by
    intro ctx
    rw [SliceIo.pending, inFlight, ← SliceIo.pending]
  have counting := before.counting
  rw [wasClosed] at counting
  constructor
  · rw [closed]
    constructor
    · intro ctx unpushed current
      cases current
    · intro ctx _
      rw [pending]
      rcases counting.others ctx (fun _ => (Option.some_ne_none _).symm) with
        idle | ⟨lost, positive, counts⟩
      · exact Or.inl idle
      · exact Or.inr ⟨lost, positive, counts.of_counter_eq (counters ctx)⟩
  · refine phase ⟨notifyDone.trans quiet.notifyDone, rpcs.trans quiet.rpcs, ?_⟩
    rw [waiting]
    exact quiet.waitingRpcCount
  · rw [waited, called]
    exact before.waited
  · intro slice member
    rw [completed]
    rcases indexed slice member with old | done
    · exact before.indexed slice old
    · exact done

theorem setResult_counter (s : DataThread) (ctx other : Nat) (result : Errno) :
    ((s.setResult ctx result).io.ctxs other).counter = (s.io.ctxs other).counter := by
  by_cases same : other = ctx
  · simp [setResult, same]
  · simp only [setResult]
    rw [SliceIo.setCtx_of_ne _ _ same]

/-- A call that returns with its result, and nothing to wait for. -/
theorem Invariant.returned (before : s.Invariant) (quiet : s.Quiet)
    (wasClosed : openCall s.phase = none) (op : FSDataOperation) (result : Errno) :
    Invariant { s.setResult op.ctx result with phase := .finish op } :=
  before.quiet quiet wasClosed rfl rfl (setResult_counter s op.ctx · result) rfl
    (fun after => after) rfl rfl rfl rfl rfl fun _ member => Or.inl member

/-- A read or write finds its slices and begins to push them. -/
theorem Invariant.begins (before : s.Invariant) {op : FSDataOperation}
    (phase : s.phase = .start op) (pending : s.io.pending op.ctx = 0)
    {types : List OBSliceType} (nonempty : types ≠ []) (bound : types.length ≤ 65536) :
    Invariant { s with
      io := s.io.beginCall op.ctx s.calls types.length
      phase := .pushing op 0 types } := by
  have counting := before.counting
  have quiet := before.phase
  rw [phase] at counting
  rw [PhaseInvariant, phase] at quiet
  constructor
  · exact counting.beginCall pending bound
  · refine ⟨⟨quiet.notifyDone, quiet.rpcs, quiet.waitingRpcCount⟩, nonempty, ?_, ?_, ?_⟩
    · simp [SliceIo.beginCall]
    · intro slice below
      omega
    · simp [SliceIo.beginCall]
  · exact before.waited
  · exact before.indexed

/-! ## Pushing -/

theorem withIo_of_false {ctx : Nat} {done : Bool × SliceIo} (silent : done.1 = false) :
    s.withIo ctx done = { s with io := done.2 } := by
  simp [withIo, silent]

theorem withIo_of_true {ctx : Nat} {done : Bool × SliceIo} (ran : done.1 = true) :
    s.withIo ctx done = rwDoneCallback { s with io := done.2 } (done.2.ctxs ctx).call := by
  simp [withIo, ran]

/-- What the round leaves: the counters of the rest, and the flag up only after the last
slice, when nothing is in flight. -/
theorem pushed_spec (before : s.Invariant) {op : FSDataOperation} {slice : Nat}
    {type : OBSliceType} {rest : List OBSliceType}
    (phase : s.phase = .pushing op slice (type :: rest)) :
    SliceIo.Counting (some (op.ctx, rest.length)) (s.pushed op slice type).io ∧
      ((s.pushed op slice type).notifyDone = true ↔
        (s.pushed op slice type).io.pending op.ctx + rest.length = 0) ∧
      ((s.pushed op slice type).notifyDone = true → s.calls ∈ (s.pushed op slice type).called) ∧
      ((s.pushed op slice type).io.ctxs op.ctx).call = s.calls ∧
      ((s.pushed op slice type).io.ctxs op.ctx).sliceCount =
        (s.io.ctxs op.ctx).sliceCount ∧
      (s.pushed op slice type).io.Accounts op.ctx s.calls (slice + 1) ∧
      (∀ call ∈ s.called, call ∈ (s.pushed op slice type).called) ∧
      (∀ done ∈ s.io.completed, done ∈ (s.pushed op slice type).io.completed) := by
  have counting := before.counting
  have facts := before.phase
  rw [phase] at counting
  rw [PhaseInvariant, phase] at facts
  obtain ⟨quiet, _, call, accounts, _⟩ := facts
  by_cases skipped : op.operation = .sliceRead ∧ type = .alloc
  · have same : s.pushed op slice type =
        s.withIo op.ctx (s.io.skipSlice op.ctx s.calls slice) := by
      rw [pushed, if_pos skipped]
    obtain ⟨last, counts⟩ := counting.skipSlice s.calls slice
    obtain ⟨keptCall, keptCount⟩ := SliceIo.skipSlice_call s.io op.ctx s.calls slice op.ctx
    rw [same]
    cases ran : (s.io.skipSlice op.ctx s.calls slice).1 with
    | false =>
        rw [ran] at last
        rw [withIo_of_false ran]
        refine ⟨counts, ?_, ?_, keptCall.trans call, keptCount, accounts.skipSlice, ?_, ?_⟩
        · rw [quiet.notifyDone]
          exact last
        · intro up
          rw [quiet.notifyDone] at up
          cases up
        · exact fun _ member => member
        · exact fun _ member => List.mem_cons_of_mem _ member
    | true =>
        rw [ran] at last
        rw [withIo_of_true ran]
        refine ⟨counts, ?_, ?_, keptCall.trans call, keptCount, accounts.skipSlice, ?_, ?_⟩
        · exact last
        · intro _
          have own := keptCall.trans call
          exact List.mem_cons.mpr (Or.inl own.symm)
        · exact fun _ member => List.mem_cons_of_mem _ member
        · exact fun _ member => List.mem_cons_of_mem _ member
  · have same : s.pushed op slice type = { s with io := s.io.push ⟨op.ctx, s.calls, slice⟩ } := by
      rw [pushed, if_neg skipped]
    rw [same]
    refine ⟨counting.push s.calls slice, ?_, ?_, call, rfl, accounts.push, ?_, ?_⟩
    · have one := SliceIo.pending_push s.io ⟨op.ctx, s.calls, slice⟩ op.ctx
      rw [if_pos rfl] at one
      rw [quiet.notifyDone, one]
      simp
    · intro up
      rw [quiet.notifyDone] at up
      cases up
    · exact fun _ member => member
    · exact fun _ member => member

/-- I/O never touches the RPCs, the numbering or what the thread has recorded. -/
theorem withIo_frame (ctx : Nat) (done : Bool × SliceIo) :
    (s.withIo ctx done).phase = s.phase ∧ (s.withIo ctx done).rpcs = s.rpcs ∧
      (s.withIo ctx done).waitingRpcCount = s.waitingRpcCount ∧
      (s.withIo ctx done).calls = s.calls ∧ (s.withIo ctx done).waited = s.waited ∧
      (s.withIo ctx done).indexed = s.indexed ∧ (s.withIo ctx done).io = done.2 := by
  unfold withIo
  cases done.1 <;> exact ⟨rfl, rfl, rfl, rfl, rfl, rfl, rfl⟩

theorem pushed_frame (op : FSDataOperation) (slice : Nat) (type : OBSliceType) :
    (s.pushed op slice type).rpcs = s.rpcs ∧
      (s.pushed op slice type).waitingRpcCount = s.waitingRpcCount ∧
      (s.pushed op slice type).calls = s.calls ∧ (s.pushed op slice type).waited = s.waited ∧
      (s.pushed op slice type).indexed = s.indexed := by
  unfold pushed
  split_ifs
  · obtain ⟨_, rpcs, waiting, calls, waited, indexed, _⟩ :=
      withIo_frame (s := s) op.ctx (s.io.skipSlice op.ctx s.calls slice)
    exact ⟨rpcs, waiting, calls, waited, indexed⟩
  · exact ⟨rfl, rfl, rfl, rfl, rfl⟩

theorem Invariant.pushSlice (before : s.Invariant) {op : FSDataOperation} {slice : Nat}
    {type : OBSliceType} {rest : List OBSliceType}
    (phase : s.phase = .pushing op slice (type :: rest)) (result : Errno) :
    (s.pushSlice op slice type rest result).Invariant := by
  have facts := before.phase
  rw [PhaseInvariant, phase] at facts
  obtain ⟨quiet, _, _, _, total⟩ := facts
  obtain ⟨counting, flag, called, call, count, accounts, callbacks, completed⟩ :=
    pushed_spec before phase
  obtain ⟨rpcs, waiting, calls, waited, indexed⟩ := pushed_frame (s := s) op slice type
  have history : (∀ call ∈ (s.pushed op slice type).waited,
      call ∈ (s.pushed op slice type).called) ∧
      ∀ done ∈ (s.pushed op slice type).indexed,
        done ∈ (s.pushed op slice type).io.completed := by
    rw [waited, indexed]
    exact ⟨fun _ member => callbacks _ (before.waited _ member),
      fun _ member => completed _ (before.indexed _ member)⟩
  unfold DataThread.pushSlice
  by_cases succeeds : result = .ok
  · rw [if_pos succeeds]
    cases rest with
    | cons next others =>
        constructor
        · exact counting
        · refine ⟨⟨?_, rpcs.trans quiet.rpcs, ?_⟩, List.cons_ne_nil _ _, call.trans calls.symm,
            calls.symm ▸ accounts, ?_⟩
          · exact Bool.eq_false_iff.mpr fun up => by simpa using flag.mp up
          · intro ctx
            exact (congrFun waiting ctx).trans (quiet.waitingRpcCount ctx)
          · simp only [count, ← total, List.length_cons]
            omega
        · exact history.1
        · exact history.2
    | nil =>
        dsimp only
        split_ifs with isRead
        · -- the result of a read is assigned, everything else is as pushed
          constructor
          · constructor
            · rintro _ _ ⟨⟩
              exact (counting.current op.ctx 0 rfl).of_counter_eq
                (setResult_counter _ op.ctx op.ctx .ok)
            · intro other distinct
              rcases counting.others other distinct with idle | ⟨lost, positive, counts⟩
              · exact Or.inl idle
              · exact Or.inr ⟨lost, positive, counts.of_counter_eq
                  (setResult_counter _ op.ctx other .ok)⟩
          · refine ⟨flag, rpcs.trans quiet.rpcs, ?_, ?_, ?_, ?_⟩
            · intro ctx
              exact (congrFun waiting ctx).trans (quiet.waitingRpcCount ctx)
            · simp only [setResult, SliceIo.setCtx_self]
              exact call.trans calls.symm
            · intro up
              exact calls.symm ▸ called up
            · intro isWrite
              rw [isRead] at isWrite
              cases isWrite
          · exact history.1
          · exact history.2
        · constructor
          · exact counting
          · refine ⟨flag, rpcs.trans quiet.rpcs, ?_, call.trans calls.symm, ?_, ?_⟩
            · intro ctx
              exact (congrFun waiting ctx).trans (quiet.waitingRpcCount ctx)
            · intro up
              exact calls.symm ▸ called up
            · intro _
              have full : slice + 1 = ((s.pushed op slice type).io.ctxs op.ctx).sliceCount := by
                rw [count, ← total]
                rfl
              dsimp only
              rw [← full]
              exact calls.symm ▸ accounts
          · exact history.1
          · exact history.2
  · -- the slices not pushed keep the counter of the context above zero
    have abandoned := before.counting
    rw [phase] at abandoned
    rw [if_neg succeeds]
    constructor
    · constructor
      · intro ctx unpushed current
        cases current
      · intro other _
        rcases abandoned.abandon.others other (fun _ => (Option.some_ne_none _).symm) with
          idle | ⟨lost, positive, counts⟩
        · exact Or.inl idle
        · exact Or.inr ⟨lost, positive, counts.of_counter_eq
            (setResult_counter s op.ctx other result)⟩
    · exact ⟨quiet.notifyDone, quiet.rpcs, quiet.waitingRpcCount⟩
    · exact before.waited
    · exact before.indexed

/-! ## Completions -/

theorem Quiet.of_eq {after : DataThread} (quiet : s.Quiet)
    (notifyDone : after.notifyDone = s.notifyDone) (rpcs : after.rpcs = s.rpcs)
    (waiting : after.waitingRpcCount = s.waitingRpcCount) : after.Quiet := by
  refine ⟨notifyDone.trans quiet.notifyDone, rpcs.trans quiet.rpcs, fun ctx => ?_⟩
  rw [waiting]
  exact quiet.waitingRpcCount ctx

/-- A completion that does not run the callback leaves the facts of the phase. -/
theorem phase_requestDone (before : s.Invariant) {request : TrunkIO}
    (member : request ∈ s.io.inFlight) (result : Errno)
    (silent : (s.io.requestDone request result).1 = false) :
    PhaseInvariant { s with io := (s.io.requestDone request result).2 } := by
  have facts := before.phase
  have kept := SliceIo.requestDone_call s.io request result
  unfold PhaseInvariant at facts ⊢
  cases phase : s.phase with
  | idle | start _ | finish _ | respond _ =>
      simp only [phase] at facts ⊢
      exact facts.of_eq rfl rfl rfl
  | pushing op slice rest =>
      simp only [phase] at facts ⊢
      obtain ⟨quiet, nonempty, call, accounts, total⟩ := facts
      exact ⟨quiet.of_eq rfl rfl rfl, nonempty, (kept op.ctx).1.trans call,
        accounts.requestDone request result, total.trans (kept op.ctx).2.symm⟩
  | waitRw op =>
      have last := (before.counting.requestDone member result).1
      simp only [phase] at facts ⊢
      obtain ⟨flag, rpcs, waiting, call, called, accounts⟩ := facts
      refine ⟨?_, rpcs, waiting, (kept op.ctx).1.trans call, called, ?_⟩
      · by_cases own : request.ctx = op.ctx
        · have flying := SliceIo.pending_pos member
          rw [own] at flying
          rw [silent, phase] at last
          rw [flag]
          simp only [openCall, own, true_and, Bool.false_eq_true, false_iff] at last ⊢
          omega
        · rw [flag, SliceIo.pending_requestDone_of_ne member result own]
      · intro isWrite
        rw [(kept op.ctx).2]
        exact (accounts isWrite).requestDone request result
  | writeFinish op slice =>
      simp only [phase] at facts ⊢
      obtain ⟨quiet, pending, completed⟩ := facts
      have apart : request.ctx ≠ op.ctx := fun own => by
        have some := SliceIo.pending_pos member
        rw [own, pending] at some
        exact lt_irrefl 0 some
      refine ⟨quiet.of_eq rfl rfl rfl, ?_, ?_⟩
      · rw [SliceIo.pending_requestDone_of_ne member result apart, pending]
      · rw [SliceIo.requestDone_ctxs_of_ne request result (Ne.symm apart)]
        intro succeeded slice below
        exact SliceIo.mem_completed_requestDone (completed succeeded slice below) request result
  | pushRpc op rest inactive | waitRpc op =>
      simp only [phase] at facts ⊢
      exact ⟨facts.rpcs, facts.waitingRpcCount, facts.others, facts.notifyDone⟩

theorem Invariant.requestDone (before : s.Invariant) {request : TrunkIO}
    (member : request ∈ s.io.inFlight) (result : Errno) :
    (s.withIo request.ctx (s.io.requestDone request result)).Invariant := by
  obtain ⟨last, counting⟩ := before.counting.requestDone member result
  cases ran : (s.io.requestDone request result).1 with
  | false =>
      rw [withIo_of_false ran]
      exact ⟨counting, phase_requestDone before member result ran, before.waited,
        fun _ done => SliceIo.mem_completed_requestDone (before.indexed _ done) request result⟩
  | true =>
      obtain ⟨current, quiet⟩ := last.mp ran
      rw [withIo_of_true ran]
      have call := (SliceIo.requestDone_call s.io request result request.ctx).1
      refine ⟨counting, ?_, ?_, ?_⟩
      · -- only the awaited call has its counter at the requests in flight
        have facts := before.phase
        unfold PhaseInvariant at facts ⊢
        cases phase : s.phase with
        | waitRw op =>
            rw [phase, openCall, Option.some.injEq, Prod.mk.injEq] at current
            simp only [phase, rwDoneCallback] at facts ⊢
            obtain ⟨_, rpcs, waiting, own, _, accounts⟩ := facts
            have kept := SliceIo.requestDone_call s.io request result op.ctx
            rw [← current.1] at quiet call ⊢
            refine ⟨⟨fun _ => quiet, fun _ => trivial⟩, rpcs, waiting, call.trans own, ?_, ?_⟩
            · intro _
              exact List.mem_cons.mpr (Or.inl (call.trans own).symm)
            · intro isWrite
              rw [kept.2]
              exact (accounts isWrite).requestDone request result
        | pushing op slice rest =>
            simp only [phase] at facts
            rw [phase, openCall, Option.some.injEq, Prod.mk.injEq] at current
            exact absurd (List.length_eq_zero_iff.mp current.2) facts.2.1
        | idle | start _ | finish _ | respond _ | writeFinish _ _ | pushRpc _ _ _ | waitRpc _ =>
            rw [phase] at current
            cases current
      · exact fun _ waited => List.mem_cons_of_mem _ (before.waited _ waited)
      · exact fun _ done => SliceIo.mem_completed_requestDone (before.indexed _ done) request result

/-! ## Waiting and finishing -/

theorem Invariant.waitRwReturn (before : s.Invariant) {op : FSDataOperation}
    (phase : s.phase = .waitRw op) (notified : s.notifyDone = true) :
    Invariant
      { s.condWaitReturn (if op.operation = .sliceWrite then .writeFinish op 0 else .finish op) with
        waited := s.calls :: s.waited } := by
  have counting := before.counting
  have facts := before.phase
  rw [phase] at counting
  rw [PhaseInvariant, phase] at facts
  obtain ⟨flag, rpcs, waiting, _, called, accounts⟩ := facts
  have closed := counting.close (flag.mp notified)
  have recorded : ∀ call ∈ s.calls :: s.waited, call ∈ s.called := by
    intro call member
    rcases List.mem_cons.mp member with rfl | old
    · exact called notified
    · exact before.waited call old
  unfold condWaitReturn
  split_ifs with running isWrite
  · refine ⟨closed, ⟨⟨rfl, rpcs, waiting⟩, flag.mp notified, ?_⟩, recorded, before.indexed⟩
    exact (accounts isWrite).completed (flag.mp notified)
  · exact ⟨closed, ⟨rfl, rpcs, waiting⟩, recorded, before.indexed⟩
  · exact ⟨closed, ⟨rfl, rpcs, waiting⟩, recorded, before.indexed⟩

theorem Invariant.addSlice (before : s.Invariant) {op : FSDataOperation} {slice : Nat}
    (phase : s.phase = .writeFinish op slice) (succeeded : (s.io.ctxs op.ctx).result = .ok)
    (below : slice < (s.io.ctxs op.ctx).sliceCount) :
    Invariant { s with
      indexed := (s.calls, slice) :: s.indexed
      phase := .writeFinish op (slice + 1) } := by
  have counting := before.counting
  have facts := before.phase
  rw [phase] at counting
  rw [PhaseInvariant, phase] at facts
  obtain ⟨quiet, pending, completed⟩ := facts
  refine ⟨counting, ⟨quiet.of_eq rfl rfl rfl, pending, completed⟩, before.waited, ?_⟩
  intro entry member
  rcases List.mem_cons.mp member with rfl | old
  · exact completed succeeded slice below
  · exact before.indexed entry old

/-- Between phases that do not count completions, an invariant phase is all there is to
show. -/
theorem Invariant.rephase {after : DataThread} (before : s.Invariant)
    (wasClosed : openCall s.phase = none) (closed : openCall after.phase = none)
    (io : after.io = s.io) (called : after.called = s.called) (waited : after.waited = s.waited)
    (indexed : after.indexed = s.indexed) (phase : after.PhaseInvariant) : after.Invariant := by
  constructor
  · rw [closed, io, ← wasClosed]
    exact before.counting
  · exact phase
  · rw [waited, called]
    exact before.waited
  · rw [indexed, io]
    exact before.indexed

theorem Invariant.operationFinish (before : s.Invariant) {op : FSDataOperation}
    (phase : s.phase = .finish op) (slaves : List Bool) :
    (s.operationFinish op slaves).Invariant := by
  have quiet := before.phase
  have wasClosed : openCall s.phase = none := by rw [phase]; rfl
  rw [PhaseInvariant, phase] at quiet
  unfold DataThread.operationFinish
  split_ifs with failed replica replicates
  · exact before.rephase wasClosed rfl rfl rfl rfl rfl (quiet.of_eq rfl rfl rfl)
  · exact before.rephase wasClosed rfl rfl rfl rfl rfl (quiet.of_eq rfl rfl rfl)
  · refine before.rephase wasClosed rfl rfl rfl rfl rfl ⟨?_, ?_, ?_, ?_⟩
    · intro other member
      rw [quiet.rpcs] at member
      cases member
    · simp [quiet.rpcs, quiet.waitingRpcCount]
    · intro other distinct
      simp only [Function.update_of_ne distinct]
      exact quiet.waitingRpcCount other
    · have some := List.length_pos_of_ne_nil replicates.2.2
      simp only [quiet.notifyDone, quiet.waitingRpcCount, Function.update_self]
      constructor
      · intro impossible
        cases impossible
      · intro zero
        omega
  · exact before.rephase wasClosed rfl rfl rfl rfl rfl (quiet.of_eq rfl rfl rfl)

theorem Invariant.pushSlave (before : s.Invariant) {op : FSDataOperation} {active : Bool}
    {rest : List Bool} {inactive : Nat} (phase : s.phase = .pushRpc op (active :: rest) inactive) :
    (s.next .pushSlave).Invariant := by
  have calls := before.phase
  have wasClosed : openCall s.phase = none := by rw [phase]; rfl
  rw [PhaseInvariant, phase] at calls
  have waiting := calls.waitingRpcCount
  cases active with
  | true =>
      simp only [next, phase]
      refine before.rephase wasClosed rfl rfl rfl rfl rfl ⟨?_, ?_, calls.others, calls.notifyDone⟩
      · intro other member
        rcases List.mem_cons.mp member with rfl | old
        · rfl
        · exact calls.rpcs other old
      · simp only [List.length_cons] at waiting ⊢
        omega
  | false =>
      simp only [next, phase]
      refine before.rephase wasClosed rfl rfl rfl rfl rfl
        ⟨calls.rpcs, ?_, calls.others, calls.notifyDone⟩
      simp only [List.length_cons] at waiting ⊢
      omega

/-- The counter of the waiting RPCs comes to zero once, here or with the last reply. -/
theorem Invariant.slavesPushed (before : s.Invariant) {op : FSDataOperation} {inactive : Nat}
    (phase : s.phase = .pushRpc op [] inactive) : (s.slavesPushed op inactive).Invariant := by
  have calls := before.phase
  have wasClosed : openCall s.phase = none := by rw [phase]; rfl
  rw [PhaseInvariant, phase] at calls
  have waiting := calls.waitingRpcCount
  simp only [List.length_nil, zero_add] at waiting
  unfold DataThread.slavesPushed
  split_ifs with some finished
  · have down : s.notifyDone = false := Bool.eq_false_iff.mpr fun up => by
      have zero := calls.notifyDone.mp up
      omega
    have none : s.rpcs = [] := List.length_eq_zero_iff.mp (by omega)
    refine before.rephase wasClosed rfl rfl rfl rfl rfl ⟨down, none, fun ctx => ?_⟩
    by_cases own : ctx = op.ctx
    · rw [own]
      simpa using finished
    · simp only [Function.update_of_ne own]
      exact calls.others ctx own
  · have down : s.notifyDone = false := Bool.eq_false_iff.mpr fun up => by
      have zero := calls.notifyDone.mp up
      omega
    refine before.rephase wasClosed rfl rfl rfl rfl rfl ⟨calls.rpcs, ?_, ?_, ?_⟩
    · simp only [Function.update_self]
      omega
    · intro other distinct
      simp only [Function.update_of_ne distinct]
      exact calls.others other distinct
    · simp only [Function.update_self, down, finished]
      simp
  · refine before.rephase wasClosed rfl rfl rfl rfl rfl
      ⟨calls.rpcs, ?_, calls.others, calls.notifyDone⟩
    simp only
    omega

theorem CallsSlaves.rpcDone {ctx unpushed : Nat} (calls : s.CallsSlaves ctx unpushed)
    (member : ctx ∈ s.rpcs) : (s.rpcDone ctx).CallsSlaves ctx unpushed := by
  have waiting := calls.waitingRpcCount
  have length := List.length_erase_of_mem member
  have positive := List.length_pos_of_mem member
  constructor
  · intro other still
    exact calls.rpcs other (List.mem_of_mem_erase still)
  · simp only [DataThread.rpcDone, Function.update_self, length]
    omega
  · intro other distinct
    simp only [DataThread.rpcDone, Function.update_of_ne distinct]
    exact calls.others other distinct
  · simp only [DataThread.rpcDone, Function.update_self]
    split_ifs with last
    · simp [last]
    · rw [calls.notifyDone]
      constructor
      · intro zero
        omega
      · intro zero
        exact absurd zero last

theorem Invariant.rpcDone (before : s.Invariant) {ctx : Nat} (member : ctx ∈ s.rpcs) :
    (s.rpcDone ctx).Invariant := by
  have facts := before.phase
  refine ⟨before.counting, ?_, before.waited, before.indexed⟩
  have none : s.rpcs ≠ [] := List.ne_nil_of_mem member
  unfold PhaseInvariant at facts ⊢
  have same : (s.rpcDone ctx).phase = s.phase := rfl
  rw [same]
  cases phase : s.phase with
  | idle | start _ | finish _ | respond _ =>
      simp only [phase] at facts
      exact absurd facts.rpcs none
  | pushing op slice rest =>
      simp only [phase] at facts
      exact absurd facts.1.rpcs none
  | waitRw op =>
      simp only [phase] at facts
      exact absurd facts.2.1 none
  | writeFinish op slice =>
      simp only [phase] at facts
      exact absurd facts.1.rpcs none
  | pushRpc op rest inactive | waitRpc op =>
      simp only [phase] at facts ⊢
      have own := facts.rpcs ctx member
      exact own ▸ facts.rpcDone (own ▸ member)

theorem Invariant.waitRpcReturn (before : s.Invariant) {op : FSDataOperation}
    (phase : s.phase = .waitRpc op) (notified : s.notifyDone = true) :
    (s.condWaitReturn (.respond op)).Invariant := by
  have calls := before.phase
  have wasClosed : openCall s.phase = none := by rw [phase]; rfl
  rw [PhaseInvariant, phase] at calls
  have zero := calls.notifyDone.mp notified
  have waiting := calls.waitingRpcCount
  have none : s.rpcs = [] := List.length_eq_zero_iff.mp (by omega)
  have quiet : ∀ ctx, s.waitingRpcCount ctx = 0 := by
    intro ctx
    by_cases own : ctx = op.ctx
    · rw [own]
      exact zero
    · exact calls.others ctx own
  unfold condWaitReturn
  split_ifs
  · exact before.rephase wasClosed rfl rfl rfl rfl rfl ⟨rfl, none, quiet⟩
  · exact before.rephase wasClosed rfl rfl rfl rfl rfl ⟨rfl, none, quiet⟩

/-- The shutdown by itself changes nothing that a phase relies on. -/
theorem Invariant.stop (before : s.Invariant) :
    Invariant { s with continueFlag := false } := by
  refine ⟨before.counting, ?_, before.waited, before.indexed⟩
  have facts := before.phase
  unfold PhaseInvariant at facts ⊢
  cases phase : s.phase with
  | idle | start _ | finish _ | respond _ =>
      simp only [phase] at facts ⊢
      exact facts.of_eq rfl rfl rfl
  | pushing op slice rest =>
      simp only [phase] at facts ⊢
      exact ⟨facts.1.of_eq rfl rfl rfl, facts.2⟩
  | waitRw op =>
      simp only [phase] at facts ⊢
      exact facts
  | writeFinish op slice =>
      simp only [phase] at facts ⊢
      exact ⟨facts.1.of_eq rfl rfl rfl, facts.2⟩
  | pushRpc op rest inactive | waitRpc op =>
      simp only [phase] at facts ⊢
      exact ⟨facts.rpcs, facts.waitingRpcCount, facts.others, facts.notifyDone⟩

theorem Invariant.next (before : s.Invariant) {action : DataAction}
    (undisturbed : s.Undisturbed action) (enabled : s.Enabled action) :
    (s.next action).Invariant := by
  have facts := before.phase
  rw [PhaseInvariant] at facts
  cases action with
  | start op =>
      have phase : s.phase = .idle := enabled
      rw [phase] at facts
      simp only [DataThread.next, phase]
      exact before.rephase (by rw [phase]; rfl) rfl rfl rfl rfl rfl (facts.of_eq rfl rfl rfl)
  | getSlices result types =>
      obtain ⟨op, phase, _, nonempty⟩ := enabled
      rw [phase] at facts
      by_cases succeeds : result = .ok
      · obtain ⟨bound, pending⟩ := undisturbed succeeds
        simp only [DataThread.next, phase, succeeds]
        exact before.begins phase (pending op phase) (nonempty succeeds) bound
      · have returned := before.returned facts (by rw [phase]; rfl) op result
        cases result with
        | ok => exact absurd rfl succeeds
        | _ =>
            simp only [DataThread.next, phase]
            exact returned
  | sliceAlloc result count =>
      obtain ⟨op, phase, _, counts⟩ := enabled
      obtain ⟨succeeds, pending⟩ := undisturbed
      have positive : List.replicate count OBSliceType.file ≠ [] := by
        rcases counts succeeds with rfl | rfl <;> decide
      have bound : count ≤ 65536 := by
        rcases counts succeeds with rfl | rfl <;> decide
      have begun := before.begins phase (pending op phase) positive
        (by rw [List.length_replicate]; exact bound)
      rw [List.length_replicate] at begun
      simp only [DataThread.next, phase, succeeds]
      exact begun
  | update result =>
      obtain ⟨op, phase, _⟩ := enabled
      rw [phase] at facts
      simp only [DataThread.next, phase]
      exact before.returned facts (by rw [phase]; rfl) op result
  | push result =>
      obtain ⟨op, slice, type, rest, phase⟩ := enabled
      simp only [DataThread.next, phase]
      exact before.pushSlice phase result
  | requestDone request result =>
      have member : request ∈ s.io.inFlight := enabled
      simp only [DataThread.next]
      exact before.requestDone member result
  | waitRwReturn =>
      obtain ⟨⟨op, phase⟩, _⟩ := enabled
      simp only [DataThread.next, phase]
      exact before.waitRwReturn phase undisturbed
  | addSlice result =>
      obtain ⟨op, slice, phase, succeeded, below⟩ := enabled
      rw [phase] at facts
      have returned := before.returned facts.1 (by rw [phase]; rfl) op result
      cases result with
      | ok =>
          simp only [DataThread.next, phase]
          exact before.addSlice phase succeeded below
      | _ =>
          simp only [DataThread.next, phase]
          exact returned
  | writeFinished =>
      obtain ⟨op, slice, phase, _⟩ := enabled
      rw [phase] at facts
      simp only [DataThread.next, phase]
      exact before.rephase (by rw [phase]; rfl) rfl rfl rfl rfl rfl (facts.1.of_eq rfl rfl rfl)
  | finish slaves =>
      obtain ⟨op, phase⟩ := enabled
      simp only [DataThread.next, phase]
      exact before.operationFinish phase slaves
  | pushSlave =>
      obtain ⟨op, active, rest, inactive, phase⟩ := enabled
      exact before.pushSlave phase
  | slavesPushed =>
      obtain ⟨op, inactive, phase⟩ := enabled
      simp only [DataThread.next, phase]
      exact before.slavesPushed phase
  | rpcDone ctx =>
      have member : ctx ∈ s.rpcs := enabled
      simp only [DataThread.next]
      exact before.rpcDone member
  | waitRpcReturn =>
      obtain ⟨⟨op, phase⟩, _⟩ := enabled
      simp only [DataThread.next, phase]
      exact before.waitRpcReturn phase undisturbed
  | respond =>
      obtain ⟨op, phase⟩ := enabled
      rw [phase] at facts
      simp only [DataThread.next, phase]
      exact before.rephase (by rw [phase]; rfl) rfl rfl rfl rfl rfl (facts.of_eq rfl rfl rfl)
  | stop =>
      simp only [DataThread.next]
      exact before.stop

end DataThread

/-- In a run without those turns the flag is down whenever an operation starts, every
wait for a read or write returns after the callback of that operation, and only
slices whose trunk write has completed are added to the index. -/
theorem data_thread_waits_for_own_io {s : DataThread}
    (reached : Reachable (DataThreadStep.guarded DataThread.Undisturbed) DataThreadInit s) :
    (∀ op, s.Enabled (.start op) → s.notifyDone = false) ∧
      (∀ call ∈ s.waited, call ∈ s.called) ∧
      ∀ slice ∈ s.indexed, slice ∈ s.io.completed := by
  have invariant : s.Invariant := by
    refine reached.invariant (fun s start => DataThread.Invariant.init start) ?_
    rintro s action _ before ⟨undisturbed, enabled, rfl⟩
    exact before.next undisturbed enabled
  refine ⟨?_, invariant.waited, invariant.indexed⟩
  intro op enabled
  have phase : s.phase = .idle := enabled
  have quiet := invariant.phase
  rw [DataThread.PhaseInvariant, phase] at quiet
  exact quiet.notifyDone

/-- A write of one slice, from its start to its entry in the index. -/
theorem data_thread_waits_for_own_io_write :
    ∃ s : DataThread, Reachable (DataThreadStep.guarded DataThread.Undisturbed) DataThreadInit s ∧
      s.indexed = [(1, 0)] ∧ ∀ slice ∈ s.indexed, slice ∈ s.io.completed := by
  let op : FSDataOperation := ⟨.sliceWrite, .slaveRecovery, 0⟩
  have initial : Reachable (DataThreadStep.guarded DataThread.Undisturbed) DataThreadInit
      newDataThread := .start newDataThread_init
  have started := initial.actGuarded (.start op) trivial rfl
  have allocated := started.actGuarded (.sliceAlloc .ok 1) ⟨rfl, fun _ _ => rfl⟩
    ⟨op, rfl, rfl, fun _ => Or.inl rfl⟩
  have pushed := allocated.actGuarded (.push .ok) trivial ⟨op, 0, .file, [], rfl⟩
  have written := pushed.actGuarded (.requestDone ⟨0, 1, 0⟩ .ok) trivial List.mem_cons_self
  have waited := written.actGuarded .waitRwReturn rfl ⟨⟨op, rfl⟩, Or.inl rfl⟩
  have added := waited.actGuarded (.addSlice .ok) trivial ⟨op, 0, rfl, rfl, Nat.zero_lt_one⟩
  exact ⟨_, added, rfl, (data_thread_waits_for_own_io added).2.2⟩

/-- The callback of a write without space is taken by the next write, which adds its
slice to the index while the slice is still in flight. -/
theorem failed_alloc_wakes_next_write :
    ¬ ∀ s : DataThread, Reachable DataThreadStep DataThreadInit s →
      (∀ op, s.Enabled (.start op) → s.notifyDone = false) ∧
        (∀ call ∈ s.waited, call ∈ s.called) ∧
        ∀ slice ∈ s.indexed, slice ∈ s.io.completed := by
  intro claimed
  let op : FSDataOperation := ⟨.sliceWrite, .slaveRecovery, 0⟩
  have initial : Reachable DataThreadStep DataThreadInit newDataThread := .start newDataThread_init
  have started := initial.act (.start op) rfl
  have failed := started.act (.sliceAlloc .enospc 0) ⟨op, rfl, rfl, nofun⟩
  have finished := failed.act (.finish []) ⟨op, rfl⟩
  have answered := finished.act .respond ⟨op, rfl⟩
  have again := answered.act (.start op) rfl
  have allocated := again.act (.sliceAlloc .ok 1) ⟨op, rfl, rfl, fun _ => Or.inl rfl⟩
  have pushed := allocated.act (.push .ok) ⟨op, 0, .file, [], rfl⟩
  have waited := pushed.act .waitRwReturn ⟨⟨op, rfl⟩, Or.inl rfl⟩
  have added := waited.act (.addSlice .ok) ⟨op, 0, rfl, rfl, Nat.zero_lt_one⟩
  have written := (claimed _ added).2.2 (2, 0) List.mem_cons_self
  cases written

end FastStore.Server
