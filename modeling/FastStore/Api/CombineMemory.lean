import FastStore.Api.CombineSound

/-!
# A combined write where memory is short

A write with combining enabled allocates on its way: waiting tasks for the slices it
conflicts with, its entry of the table of threads, a waiting task for flow control, a
slice, a block entry and the argument of the callback.  Here every allocation may fail,
and the call is taken apart into the sections it runs under a lock: between two of them
the other threads, the timer and the combine handler do what they like.  What counts is
what each section does to the pending slices.
-/

namespace FastStore.Api

open FastStore.Storage FastStore.Util

/-- What the allocators give to one call: how many slices the conflict check can register
for, the entry of the table of threads, and for each round of the loop the waiting task of
the flow control and the three allocations of a new slice. -/
structure WriteMemory where
  waitings : Nat
  otidEntry : Bool
  waitingTask : Nat → Bool
  slice : Nat → Bool
  blockEntry : Nat → Bool
  callbackArg : Nat → Bool

/-- The moments at which others come in: before the entry of the thread is looked up, in
each round before its slice pointer is loaded, between the load and the lock, and before a
new slice is made, and before the write to the server. -/
inductive WriteMoment where
  | insert
  | load (count : Nat)
  | look (count : Nat)
  | create (count : Nat)
  | write
  deriving DecidableEq, Repr

/-- The surroundings of a call: its memory, and what others do. -/
structure WriteAround where
  memory : WriteMemory
  others : WriteMoment → CombineState → CombineState

/-- A section of the call: the state before and after. -/
abbrev WriteSection := CombineState × CombineState

/-- What the call reports, and its sections in their order. -/
structure WriteOutcome where
  combined : Bool
  sections : List WriteSection

namespace CombineState

instance (s : CombineState) (id : Nat) : Decidable (s.Pends id) :=
  inferInstanceAs (Decidable (s.stage id).Pending)

/-! ## The functions with their allocations -/

/-- `obid_htable_find_callback` with `deal_confilct_slice`: the state, `conflict_count` and
the slices to wait for; the walk ends where there is no memory to register. -/
def findConflicts (ssize : FSSliceSize) :
    Nat → List Nat → CombineState → CombineState × Nat × List Nat
  | _, [], s => (s, 0, [])
  | waitings, id :: rest, s =>
      if sliceEnd ssize ≤ (s.slice id).bsKey.slice.offset then (s, 0, [])
      else if fsSliceIsOverlap ssize (s.slice id).bsKey.slice ∧ (s.stage id).Pending then
        let pushed := if s.stage id = .merging then s.combineHandlerPushWithinLock id else s
        match waitings with
        | 0 => (pushed, 1, [])
        | waitings + 1 =>
            let found := findConflicts ssize waitings rest pushed
            (found.1, found.2.1 + 1, id :: found.2.2)
      else findConflicts ssize waitings rest s

/-- `create_slice`, with `obid_htable_insert` and the callback argument of
`obid_htable_insert_callback`. -/
def createSliceIn (cfg : WriteCombineConfig) (call : ApiCall) (buff : Int → UInt8)
    (memory : WriteMemory) (count : Nat) (oldSlice : Option Nat) (s : CombineState) :
    CombineState × CombineResult :=
  if cfg.bufferSize ≤ call.bsKey.slice.length + 4096 then (s, .notCombined)
  else if fsFileBlockSize - sliceEnd call.bsKey.slice < 4096 then (s, .notCombined)
  else if memory.slice count = false then (s, .notCombined)
  else if memory.blockEntry count = false then (s, .notCombined)
  else
    match obidHtableFindPosition s.slice call.bsKey.slice (s.slices call.bsKey.block) with
    | none => (s, .notCombined)
    | some position =>
        if memory.callbackArg count = false then (s, .notCombined)
        else (s.obidHtableInsertCallback call buff oldSlice position, .combined)

/-- The first part of `check_combine_slice`, with `add_to_slice_waiting_list`: without a
waiting task the flow control leaves `wbuffer->combined` set. -/
def lookAtSlice (cfg : WriteCombineConfig) (call : ApiCall) (buff : Int → UInt8)
    (waitingTask : Bool) (oldSlice : Option Nat) (s : CombineState) : CombineState × TryCombine :=
  match oldSlice with
  | none => (s, .newSlice (decide (ifCombineBySliceSize cfg call)))
  | some id =>
      match tryCombineSlice cfg id call buff s with
      | (tried, .settled (.waiting waiting)) =>
          (tried, .settled (if waitingTask then .waiting waiting else .combined))
      | (tried, result) => (tried, result)

/-- The end of `fs_api_slice_write` where the write was not combined. -/
def directWrite (call : ApiCall) (buff : Int → UInt8) (around : WriteAround)
    (sections : List WriteSection) (s : CombineState) : WriteOutcome :=
  let before := around.others .write s
  let written := { before with server := fsClientSliceWrite call.bsKey buff before.server }
  ⟨false, sections ++ [(before, written)]⟩

/-- One round of `wcombine_obid_htable_check_combine_slice`: the call returns, or the flow
control made it wait. -/
def roundIn (cfg : WriteCombineConfig) (call : ApiCall) (buff : Int → UInt8)
    (around : WriteAround) (count : Nat) (sections : List WriteSection) (s : CombineState) :
    WriteOutcome ⊕ (List WriteSection × CombineState) :=
  let loaded := around.others (.load count) s
  let oldSlice := loaded.otidSlice call.otidKey
  let before := around.others (.look count) loaded
  let looked := lookAtSlice cfg call buff (around.memory.waitingTask count) oldSlice before
  let sections := sections ++ [(before, looked.1)]
  match looked.2 with
  | .settled .notCombined => .inl (directWrite call buff around sections looked.1)
  | .settled .combined => .inl ⟨true, sections⟩
  | .settled (.waiting _) => .inr (sections, looked.1)
  | .newSlice false => .inl (directWrite call buff around sections looked.1)
  | .newSlice true =>
      let before := around.others (.create count) looked.1
      let created := createSliceIn cfg call buff around.memory count oldSlice before
      let sections := sections ++ [(before, created.1)]
      match created.2 with
      | .combined => .inl ⟨true, sections⟩
      | _ => .inl (directWrite call buff around sections created.1)

/-- The loop; after the wait of the last round `wbuffer->combined` is not set. -/
def roundsIn (cfg : WriteCombineConfig) (call : ApiCall) (buff : Int → UInt8)
    (around : WriteAround) :
    Nat → Nat → List WriteSection → CombineState → WriteOutcome
  | 0, count, sections, s =>
      match roundIn cfg call buff around count sections s with
      | .inl outcome => outcome
      | .inr (sections, s) => directWrite call buff around sections s
  | remaining + 1, count, sections, s =>
      match roundIn cfg call buff around count sections s with
      | .inl outcome => outcome
      | .inr (sections, s) => roundsIn cfg call buff around remaining (count + 1) sections s

/-- `wcombine_otid_htable_insert`, and the rest of the write. -/
def insertIn (cfg : WriteCombineConfig) (call : ApiCall) (buff : Int → UInt8)
    (around : WriteAround) (sections : List WriteSection) (s : CombineState) : WriteOutcome :=
  let before := around.others .insert s
  if around.memory.otidEntry then
    let entry := otidHtableInsertCallback call (before.otids call.otidKey)
    let inserted :=
      { before with
        otids := Function.update before.otids call.otidKey (some entry) }
    let sections := sections ++ [(before, inserted)]
    if 0 < entry.successiveCount then roundsIn cfg call buff around 3 0 sections inserted
    else directWrite call buff around sections inserted
  else directWrite call buff around sections before

/-- `fs_api_slice_write`. -/
def fsApiSliceWriteIn (cfg : WriteCombineConfig) (call : ApiCall) (buff : Int → UInt8)
    (around : WriteAround) (s : CombineState) : WriteOutcome :=
  if cfg.enabled then
    let checked :=
      findConflicts call.bsKey.slice around.memory.waitings (s.slices call.bsKey.block) s
    let sections := [(s, checked.1)]
    if 0 < checked.2.1 then directWrite call buff around sections checked.1
    else insertIn cfg call buff around sections checked.1
  else directWrite call buff around [] s

/-! ## What a section may do -/

/-- The section leaves the server and the pending slices with their data alone; it may push
slices. -/
structure Quiet (s s' : CombineState) : Prop where
  server : s'.server = s.server
  slice : s'.slice = s.slice
  pends : ∀ id, s'.Pends id ↔ s.Pends id
  nextId : s'.nextId = s.nextId

/-- The section copies the write into a pending slice, a new one or one that was merging,
and leaves the other pending slices alone. -/
structure BufferedIn (call : ApiCall) (buff : Int → UInt8) (s s' : CombineState) (id : Nat) :
    Prop where
  server : s'.server = s.server
  pending : s'.stage id = .merging ∨ s'.stage id = .processing ∧ id ∈ s'.queue
  bytes : ∀ q, Covers call.bsKey q →
    s'.patch id q = some (.byte (buff (q.2 - call.bsKey.slice.offset)))
  rest : ∀ q, ¬Covers call.bsKey q → s'.patch id q = if s.Pends id then s.patch id q else none
  counted : ¬s.Pends id ∧ (s'.slice id).mergedSlices = 1 ∨
    s.Pends id ∧ (s'.slice id).mergedSlices = (s.slice id).mergedSlices + 1
  others : ∀ other, other ≠ id →
    (s'.Pends other ↔ s.Pends other) ∧ s'.slice other = s.slice other

/-- The section writes the data to the server, and does nothing else. -/
def Direct (call : ApiCall) (buff : Int → UInt8) (s s' : CombineState) : Prop :=
  s' = { s with server := fsClientSliceWrite call.bsKey buff s.server }

/-- A new slice has a number that no pending slice has, and lengths are not negative. -/
structure Healthy (s : CombineState) : Prop where
  fresh : ¬s.Pends s.nextId
  length : ∀ id, s.Pends id → 0 ≤ (s.slice id).bsKey.slice.length

variable {cfg : WriteCombineConfig} {call : ApiCall} {buff : Int → UInt8} {s s' s'' : CombineState}
  {id : Nat}

namespace Quiet

theorem refl (s : CombineState) : Quiet s s := ⟨rfl, rfl, fun _ => .rfl, rfl⟩

theorem of_pushed (pushed : Pushed s s') : Quiet s s' :=
  ⟨pushed.server, pushed.slice, pushed.pends, pushed.nextId⟩

theorem trans (first : Quiet s s') (second : Quiet s' s'') : Quiet s s'' where
  server := second.server.trans first.server
  slice := second.slice.trans first.slice
  pends id := (second.pends id).trans (first.pends id)
  nextId := second.nextId.trans first.nextId

theorem pushIf (s : CombineState) (id : Nat) :
    Quiet s (if s.stage id = .merging then s.combineHandlerPushWithinLock id else s) := by
  split
  · next merging => exact .of_pushed (pushed_push merging)
  · exact .refl s

theorem healthy (quiet : Quiet s s') (healthy : s.Healthy) : s'.Healthy where
  fresh := by
    rw [quiet.nextId, quiet.pends]
    exact healthy.fresh
  length id pends := by
    rw [quiet.slice]
    exact healthy.length id ((quiet.pends id).mp pends)

/-- A section that buffers the write is not quiet. -/
theorem not_buffered (quiet : Quiet s s') : ¬BufferedIn call buff s s' id := by
  intro buffered
  have pends : s.Pends id := by
    refine (quiet.pends id).mp ?_
    cases buffered.pending with
    | inl merging => exact pends_of_merging merging
    | inr processing => exact pends_of_processing processing.1
  cases buffered.counted with
  | inl new => exact new.1 pends
  | inr grown =>
      have counted := grown.2
      rw [quiet.slice] at counted
      omega

end Quiet

/-! ## The sections -/

/-- The conflict check pushes slices at most. -/
theorem findConflicts_quiet (ssize : FSSliceSize) (waitings : Nat) (ids : List Nat)
    (s : CombineState) : Quiet s (findConflicts ssize waitings ids s).1 := by
  induction ids generalizing waitings s with
  | nil => exact .refl s
  | cons id rest ih =>
      rw [findConflicts]
      split
      · exact .refl s
      · split
        · cases waitings with
          | zero => exact .pushIf s id
          | succ waitings => exact (Quiet.pushIf s id).trans (ih waitings _)
        · exact ih waitings s

/-- A pushed slice is still buffered. -/
theorem BufferedIn.push (buffered : BufferedIn call buff s s' id)
    (merging : s'.stage id = .merging) :
    BufferedIn call buff s (s'.combineHandlerPushWithinLock id) id where
  server := buffered.server
  pending := .inr ⟨Function.update_self _ _ _, List.mem_append_right _ List.mem_cons_self⟩
  bytes := buffered.bytes
  rest := buffered.rest
  counted := buffered.counted
  others other different := by
    obtain ⟨pends, slice⟩ := buffered.others other different
    exact ⟨((pushed_push merging).pends other).trans pends, slice⟩

/-- The write goes behind the data of a slice that is merging. -/
theorem buffered_appended (healthy : s.Healthy) (valid : call.Valid)
    (merging : s.stage id = .merging) (block : call.bsKey.block = (s.slice id).bsKey.block)
    (follows : call.bsKey.slice.offset = sliceEnd (s.slice id).bsKey.slice) :
    BufferedIn call buff s (s.appended id call buff) id := by
  have pends := pends_of_merging merging
  have grown : (s.appended id call buff).slice id =
      (s.slice id).append call.bsKey.slice.length buff := Function.update_self _ _ _
  have patch : ∀ q, (s.appended id call buff).patch id q =
      (writtenTo call.bsKey buff q).or (s.patch id q) := by
    intro q
    rw [CombineState.patch, grown]
    exact writtenTo_append block follows ⟨healthy.length id pends, valid.2.1⟩ buff q
  constructor
  · rfl
  · exact .inl merging
  · intro q covered
    rw [patch q, writtenTo_of_covers covered, Option.some_or]
  · intro q outside
    rw [patch q, writtenTo_eq_none_iff.mpr outside, Option.none_or, if_pos pends]
  · rw [grown]
    exact .inr ⟨pends, rfl⟩
  · exact fun other different => ⟨.rfl, Function.update_of_ne different _ _⟩

/-- A new slice holds the write and nothing else. -/
theorem buffered_inserted (healthy : s.Healthy) (oldSlice : Option Nat)
    (position : List Nat × List Nat) :
    BufferedIn call buff s (s.obidHtableInsertCallback call buff oldSlice position) s.nextId := by
  have new : BufferedIn call buff s (s.inserted call buff position) s.nextId := by
    have slice : (s.inserted call buff position).slice s.nextId =
        ⟨call.otidKey, 1, call.bsKey, buff⟩ := Function.update_self _ _ _
    constructor
    · rfl
    · exact .inl (Function.update_self _ _ _)
    · intro q covered
      rw [CombineState.patch, slice]
      exact writtenTo_of_covers covered buff
    · intro q outside
      rw [CombineState.patch, slice, if_neg healthy.fresh]
      exact writtenTo_eq_none_iff.mpr outside
    · rw [slice]
      exact .inl ⟨healthy.fresh, rfl⟩
    · intro other different
      refine ⟨?_, Function.update_of_ne different _ _⟩
      have stage : (s.inserted call buff position).stage other = s.stage other :=
        Function.update_of_ne different _ _
      rw [Pends, stage]
      rfl
  rw [obidHtableInsertCallback]
  split
  · exact ⟨new.server, new.pending, new.bytes, new.rest, new.counted, new.others⟩
  · exact new.push (Function.update_self _ _ _)

theorem createSliceIn_spec (healthy : s.Healthy) (memory : WriteMemory) (count : Nat)
    (oldSlice : Option Nat) :
    ((createSliceIn cfg call buff memory count oldSlice s).2 = .combined ∧
      ∃ id, BufferedIn call buff s (createSliceIn cfg call buff memory count oldSlice s).1 id) ∨
    createSliceIn cfg call buff memory count oldSlice s = (s, .notCombined) := by
  rw [createSliceIn]
  split
  · exact .inr rfl
  · split
    · exact .inr rfl
    · split
      · exact .inr rfl
      · split
        · exact .inr rfl
        · split
          · exact .inr rfl
          · split
            · exact .inr rfl
            · exact .inl ⟨rfl, s.nextId, buffered_inserted healthy oldSlice _⟩

/-! ## The look at the thread's last slice -/

/-- The write is to wait for the slice: it is not put into the slice, it would start a new
one, and the slice is on its way with others waiting in the queue. -/
def FlowControl (cfg : WriteCombineConfig) (call : ApiCall) (id : Nat) (s : CombineState) : Prop :=
  call.bsKey.block.oid = (s.slice id).bsKey.block.oid ∧ ifCombineBySliceSize cfg call ∧
    (call.bsKey.block.offset = (s.slice id).bsKey.block.offset ∧
        call.bsKey.slice.offset = sliceEnd (s.slice id).bsKey.slice →
      (s.stage id = .merging →
        cfg.bufferSize < (s.slice id).bsKey.slice.length + call.bsKey.slice.length) ∧
      cfg.skipCombineOnLastMergedSlices < (s.slice id).mergedSlices) ∧
    (s.stage id = .merging ∨ s.stage id = .processing ∧ 0 < s.waitingSliceCount)

/-- What the look leaves and comes to. -/
structure Looked (call : ApiCall) (buff : Int → UInt8) (flow : Prop) (s s' : CombineState)
    (result : TryCombine) : Prop where
  combined : result = .settled .combined → ∃ id, BufferedIn call buff s s' id
  quiet : result ≠ .settled .combined → Quiet s s'
  waiting : (∃ id, result = .settled (.waiting id)) ↔ flow

theorem tryNewSlice_spec_waiting (isJump : Bool) (s : CombineState) :
    tryNewSlice cfg id call isJump s ≠ .settled .combined ∧
      ((∃ waiting, tryNewSlice cfg id call isJump s = .settled (.waiting waiting)) ↔
        ifCombineBySliceSize cfg call ∧
          (isJump = true ∨ cfg.skipCombineOnLastMergedSlices < (s.slice id).mergedSlices) ∧
          s.stage id = .processing ∧ 0 < s.waitingSliceCount) := by
  rw [tryNewSlice]
  by_cases size : ifCombineBySliceSize cfg call
  · rw [if_neg (not_not.mpr size)]
    dsimp only
    split
    · next both =>
        have combined := (Bool.or_eq_true _ _).mp both.1
        exact ⟨(by simp), iff_of_true ⟨id, rfl⟩
          ⟨size, combined.imp_right of_decide_eq_true, both.2⟩⟩
    · next other =>
        refine ⟨(by simp), iff_of_false (by rintro ⟨_, ⟨⟩⟩) fun all => ?_⟩
        exact other ⟨(Bool.or_eq_true _ _).mpr (all.2.1.imp_right decide_eq_true), all.2.2⟩
  · rw [if_pos size]
    exact ⟨(by simp), iff_of_false (by rintro ⟨_, ⟨⟩⟩) fun all => size all.1⟩

theorem pushed_processing (s : CombineState) (id : Nat) :
    (s.combineHandlerPushWithinLock id).stage id = .processing ∧
      0 < (s.combineHandlerPushWithinLock id).waitingSliceCount := by
  refine ⟨Function.update_self _ _ _, ?_⟩
  rw [waitingSliceCount, combineHandlerPushWithinLock, List.length_append]
  exact Nat.succ_pos _

theorem doCombineSlice_looked (healthy : s.Healthy) (valid : call.Valid)
    (merging : s.stage id = .merging) (block : call.bsKey.block = (s.slice id).bsKey.block)
    (follows : call.bsKey.slice.offset = sliceEnd (s.slice id).bsKey.slice) {flow : Prop}
    (room : ¬flow) :
    Looked call buff flow s (doCombineSlice cfg id call buff s).1
      (.settled (doCombineSlice cfg id call buff s).2) := by
  have grown : BufferedIn call buff s (s.appended id call buff) id :=
    buffered_appended healthy valid merging block follows
  rw [doCombineSlice]
  split
  · exact ⟨(by simp), fun _ => .of_pushed (pushed_push merging),
      iff_of_false (by rintro ⟨_, ⟨⟩⟩) room⟩
  · dsimp only
    split
    · exact ⟨fun _ => ⟨id, grown.push merging⟩, fun other => absurd rfl other,
        iff_of_false (by rintro ⟨_, ⟨⟩⟩) room⟩
    · exact ⟨fun _ => ⟨id, grown⟩, fun other => absurd rfl other,
        iff_of_false (by rintro ⟨_, ⟨⟩⟩) room⟩

theorem tryCombineSlice_looked (healthy : s.Healthy) (valid : call.Valid) :
    Looked call buff (FlowControl cfg call id s) s (tryCombineSlice cfg id call buff s).1
      (tryCombineSlice cfg id call buff s).2 := by
  rw [tryCombineSlice]
  dsimp only
  by_cases otherOid : call.bsKey.block.oid ≠ (s.slice id).bsKey.block.oid
  · rw [if_pos otherOid]
    exact ⟨(by simp), fun _ => .refl s, iff_of_false (by rintro ⟨_, ⟨⟩⟩)
      fun flow => otherOid flow.1⟩
  · rw [if_neg otherOid]
    have oid := not_not.mp otherOid
    by_cases successive : call.bsKey.block.offset = (s.slice id).bsKey.block.offset ∧
        call.bsKey.slice.offset = sliceEnd (s.slice id).bsKey.slice
    · rw [if_pos successive]
      by_cases merging : s.stage id = .merging
      · rw [if_pos merging]
        split
        · next full =>
            have pushed := pushed_processing s id
            obtain ⟨notCombined, waiting⟩ := @tryNewSlice_spec_waiting cfg call id false
              (s.combineHandlerPushWithinLock id)
            refine ⟨fun same => absurd same notCombined, fun _ => .of_pushed (pushed_push merging),
              waiting.trans ?_⟩
            constructor
            · intro all
              exact ⟨oid, all.1, fun _ => ⟨fun _ => full, all.2.1.resolve_left (by simp)⟩, .inl merging⟩
            · intro flow
              exact ⟨flow.2.1, .inr (flow.2.2.1 successive).2, pushed⟩
        · next room =>
            have block : call.bsKey.block = (s.slice id).bsKey.block := by
              cases left : call.bsKey.block
              cases right : (s.slice id).bsKey.block
              simp_all
            exact doCombineSlice_looked healthy valid merging block successive.2 fun flow =>
              room ((flow.2.2.1 successive).1 merging)
      · rw [if_neg merging]
        obtain ⟨notCombined, waiting⟩ := @tryNewSlice_spec_waiting cfg call id false s
        refine ⟨fun same => absurd same notCombined, fun _ => .refl s, waiting.trans ?_⟩
        constructor
        · intro all
          exact ⟨oid, all.1, fun _ => ⟨fun same => absurd same merging,
            all.2.1.resolve_left (by simp)⟩, .inr all.2.2⟩
        · intro flow
          exact ⟨flow.2.1, .inr (flow.2.2.1 successive).2, flow.2.2.2.resolve_left merging⟩
    · rw [if_neg successive]
      obtain ⟨notCombined, waiting⟩ := @tryNewSlice_spec_waiting cfg call id true
        (if s.stage id = .merging then s.combineHandlerPushWithinLock id else s)
      refine ⟨fun same => absurd same notCombined, fun _ => .pushIf s id, waiting.trans ?_⟩
      by_cases merging : s.stage id = .merging
      · rw [if_pos merging]
        have pushed := pushed_processing s id
        constructor
        · intro all
          exact ⟨oid, all.1, fun same => absurd same successive, .inl merging⟩
        · intro flow
          exact ⟨flow.2.1, .inl rfl, pushed⟩
      · rw [if_neg merging]
        constructor
        · intro all
          exact ⟨oid, all.1, fun same => absurd same successive, .inr all.2.2⟩
        · intro flow
          exact ⟨flow.2.1, .inl rfl, flow.2.2.2.resolve_left merging⟩

/-- A look that ends in a wait for flow control has pushed the slice, if it was merging. -/
theorem tryCombineSlice_flow (flow : FlowControl cfg call id s) :
    (tryCombineSlice cfg id call buff s).1 =
      if s.stage id = .merging then s.combineHandlerPushWithinLock id else s := by
  rw [tryCombineSlice]
  dsimp only
  rw [if_neg (not_not.mpr flow.1)]
  by_cases successive : call.bsKey.block.offset = (s.slice id).bsKey.block.offset ∧
      call.bsKey.slice.offset = sliceEnd (s.slice id).bsKey.slice
  · rw [if_pos successive]
    by_cases merging : s.stage id = .merging
    · rw [if_pos merging, if_pos ((flow.2.2.1 successive).1 merging), if_pos merging]
    · rw [if_neg merging, if_neg merging]
  · rw [if_neg successive]

/-- How a look ends: with the write buffered, with the write still to be done, in a wait,
or, without a waiting task, with nothing done and `wbuffer->combined` set. -/
inductive LookEnd (call : ApiCall) (buff : Int → UInt8) (flow : Prop) (waitingTask : Bool)
    (s s' : CombineState) : TryCombine → Prop where
  | buffered (free : ¬flow) (id : Nat) (done : BufferedIn call buff s s' id) :
      LookEnd call buff flow waitingTask s s' (.settled .combined)
  | notCombined (free : ¬flow) (quiet : Quiet s s') :
      LookEnd call buff flow waitingTask s s' (.settled .notCombined)
  | newSlice (free : ¬flow) (quiet : Quiet s s') (combined : Bool) :
      LookEnd call buff flow waitingTask s s' (.newSlice combined)
  | waiting (flows : flow) (task : waitingTask = true) (quiet : Quiet s s') (id : Nat) :
      LookEnd call buff flow waitingTask s s' (.settled (.waiting id))
  | lost (flows : flow) (task : waitingTask = false) (quiet : Quiet s s') :
      LookEnd call buff flow waitingTask s s' (.settled .combined)

theorem lookAtSlice_end (healthy : s.Healthy) (valid : call.Valid) (waitingTask : Bool)
    (oldSlice : Option Nat) :
    LookEnd call buff (∃ id, oldSlice = some id ∧ FlowControl cfg call id s) waitingTask s
      (lookAtSlice cfg call buff waitingTask oldSlice s).1
      (lookAtSlice cfg call buff waitingTask oldSlice s).2 := by
  cases oldSlice with
  | none => exact .newSlice (fun ⟨_, same, _⟩ => nomatch same) (.refl s) _
  | some id =>
      have looked := @tryCombineSlice_looked cfg call buff s id healthy valid
      have flow : (∃ other, some id = some other ∧ FlowControl cfg call other s) ↔
          FlowControl cfg call id s :=
        ⟨fun ⟨_, same, flow⟩ => Option.some.inj same ▸ flow, fun flow => ⟨id, rfl, flow⟩⟩
      have waiting := looked.waiting
      rw [lookAtSlice, flow]
      cases outcome : tryCombineSlice cfg id call buff s with
      | mk tried result =>
          rw [outcome] at looked waiting
          cases result with
          | newSlice combined =>
              exact .newSlice (fun flow => nomatch waiting.mpr flow) (looked.quiet nofun) combined
          | settled result =>
              cases result with
              | notCombined =>
                  exact .notCombined (fun flow => nomatch waiting.mpr flow) (looked.quiet nofun)
              | combined =>
                  obtain ⟨other, done⟩ := looked.combined rfl
                  exact .buffered (fun flow => nomatch waiting.mpr flow) other done
              | waiting other =>
                  have flows := waiting.mp ⟨other, rfl⟩
                  have quiet := looked.quiet nofun
                  cases waitingTask with
                  | true => exact .waiting flows rfl quiet other
                  | false => exact .lost flows rfl quiet

theorem lookAtSlice_flow (flow : FlowControl cfg call id s) (waitingTask : Bool) :
    (lookAtSlice cfg call buff waitingTask (some id) s).1 =
      if s.stage id = .merging then s.combineHandlerPushWithinLock id else s := by
  rw [← @tryCombineSlice_flow cfg call buff s id flow, lookAtSlice]
  cases tryCombineSlice cfg id call buff s with
  | mk tried result =>
      cases result with
      | newSlice combined => rfl
      | settled result => cases result <;> rfl

/-! ## The whole call -/

/-- The write is where the call says it is: all sections but the last leave the pending
slices alone, and the last buffers the write if it is reported as combined and writes it
to the server otherwise. -/
def WriteRight (call : ApiCall) (buff : Int → UInt8) (outcome : WriteOutcome) : Prop :=
  ∃ front s s', outcome.sections = front ++ [(s, s')] ∧
    (∀ section' ∈ front, Quiet section'.1 section'.2) ∧
    if outcome.combined then ∃ id, BufferedIn call buff s s' id else Direct call buff s s'

/-- The flow control wants to wait in the round. -/
def RoundWaits (cfg : WriteCombineConfig) (call : ApiCall) (around : WriteAround) (count : Nat)
    (s : CombineState) (id : Nat) : Prop :=
  (around.others (.load count) s).otidSlice call.otidKey = some id ∧
    FlowControl cfg call id (around.others (.look count) (around.others (.load count) s))

/-- The state that a round leaves when it waits. -/
def afterWait (around : WriteAround) (count : Nat) (s : CombineState) (id : Nat) : CombineState :=
  let before := around.others (.look count) (around.others (.load count) s)
  if before.stage id = .merging then before.combineHandlerPushWithinLock id else before

/-- In a round of the loop the flow control wants to wait, and there is no waiting task. -/
def LacksTask (cfg : WriteCombineConfig) (call : ApiCall) (around : WriteAround) :
    Nat → Nat → CombineState → Prop
  | 0, count, s =>
      ∃ id, RoundWaits cfg call around count s id ∧ around.memory.waitingTask count = false
  | remaining + 1, count, s =>
      ∃ id, RoundWaits cfg call around count s id ∧
        (around.memory.waitingTask count = false ∨
          LacksTask cfg call around remaining (count + 1) (afterWait around count s id))

variable {around : WriteAround} {sections : List WriteSection}

theorem directWrite_right (quiet : ∀ section' ∈ sections, Quiet section'.1 section'.2) :
    WriteRight call buff (directWrite call buff around sections s) :=
  ⟨sections, _, _, rfl, quiet, rfl⟩

/-- A call that reports the write as combined after a quiet section lost it. -/
theorem not_right_of_quiet {before after : CombineState} (last : Quiet before after) :
    ¬WriteRight call buff ⟨true, sections ++ [(before, after)]⟩ := by
  rintro ⟨front, s, s', split, -, buffered⟩
  obtain ⟨-, same⟩ := List.append_inj' split rfl
  obtain ⟨rfl, rfl⟩ := Prod.mk.inj (List.cons.inj same).1
  obtain ⟨id, buffered⟩ : ∃ id, BufferedIn call buff before after id := buffered
  exact last.not_buffered buffered

theorem quiet_concat {before after : CombineState}
    (quiet : ∀ section' ∈ sections, Quiet section'.1 section'.2) (last : Quiet before after) :
    ∀ section' ∈ sections ++ [(before, after)], Quiet section'.1 section'.2 := by
  intro section' member
  cases List.mem_append.mp member with
  | inl earlier => exact quiet section' earlier
  | inr final =>
      obtain rfl := List.mem_singleton.mp final
      exact last

section Rounds

variable (valid : call.Valid)
  (healthyOthers : ∀ moment s, s.Healthy → (around.others moment s).Healthy)
  (healthy : s.Healthy) (quiet : ∀ section' ∈ sections, Quiet section'.1 section'.2)

include valid healthyOthers healthy quiet

theorem roundIn_free (count : Nat) (free : ∀ id, ¬RoundWaits cfg call around count s id) :
    ∃ outcome, roundIn cfg call buff around count sections s = .inl outcome ∧
      WriteRight call buff outcome := by
  have healthyLook := healthyOthers (.look count) _ (healthyOthers (.load count) s healthy)
  have ends := @lookAtSlice_end cfg call buff _ healthyLook valid
    (around.memory.waitingTask count) ((around.others (.load count) s).otidSlice call.otidKey)
  have noFlow : ¬∃ id, (around.others (.load count) s).otidSlice call.otidKey = some id ∧
      FlowControl cfg call id (around.others (.look count) (around.others (.load count) s)) :=
    fun ⟨id, waits⟩ => free id waits
  rw [roundIn]
  dsimp only
  generalize lookAtSlice cfg call buff (around.memory.waitingTask count)
    ((around.others (.load count) s).otidSlice call.otidKey)
    (around.others (.look count) (around.others (.load count) s)) = looked at ends ⊢
  obtain ⟨after, result⟩ := looked
  dsimp only at ends ⊢
  cases ends with
  | buffered free id done => exact ⟨_, rfl, sections, _, _, rfl, quiet, id, done⟩
  | notCombined free last => exact ⟨_, rfl, directWrite_right (quiet_concat quiet last)⟩
  | waiting flows task last id => exact absurd flows noFlow
  | lost flows task last => exact absurd flows noFlow
  | newSlice free last combined =>
      have quiet := quiet_concat quiet last
      cases combined with
      | false => exact ⟨_, rfl, directWrite_right quiet⟩
      | true =>
          have healthyCreate := healthyOthers (.create count) after (last.healthy healthyLook)
          have created := @createSliceIn_spec cfg call buff _ healthyCreate around.memory count
            ((around.others (.load count) s).otidSlice call.otidKey)
          dsimp only
          generalize createSliceIn cfg call buff around.memory count
            ((around.others (.load count) s).otidSlice call.otidKey)
            (around.others (.create count) after) = made at created ⊢
          obtain ⟨state, result⟩ := made
          cases created with
          | inl done =>
              obtain ⟨rfl, id, done⟩ := done
              exact ⟨_, rfl, _, _, _, rfl, quiet, id, done⟩
          | inr same =>
              obtain ⟨rfl, rfl⟩ := Prod.mk.inj same
              exact ⟨_, rfl, directWrite_right (quiet_concat quiet (.refl _))⟩

omit quiet in
theorem roundIn_lost (count : Nat) {id : Nat} (waits : RoundWaits cfg call around count s id)
    (lacks : around.memory.waitingTask count = false) :
    ∃ outcome, roundIn cfg call buff around count sections s = .inl outcome ∧
      ¬WriteRight call buff outcome := by
  have healthyLook := healthyOthers (.look count) _ (healthyOthers (.load count) s healthy)
  have ends := @lookAtSlice_end cfg call buff _ healthyLook valid
    (around.memory.waitingTask count) ((around.others (.load count) s).otidSlice call.otidKey)
  rw [roundIn]
  dsimp only
  generalize lookAtSlice cfg call buff (around.memory.waitingTask count)
    ((around.others (.load count) s).otidSlice call.otidKey)
    (around.others (.look count) (around.others (.load count) s)) = looked at ends ⊢
  obtain ⟨after, result⟩ := looked
  dsimp only at ends ⊢
  cases ends with
  | buffered free other done => exact absurd ⟨id, waits⟩ free
  | notCombined free last => exact absurd ⟨id, waits⟩ free
  | newSlice free last combined => exact absurd ⟨id, waits⟩ free
  | waiting flows task last other => exact absurd (lacks.symm.trans task) nofun
  | lost flows task last => exact ⟨_, rfl, not_right_of_quiet last⟩

theorem roundIn_waits (count : Nat) {id : Nat} (waits : RoundWaits cfg call around count s id)
    (task : around.memory.waitingTask count = true) :
    ∃ sections', roundIn cfg call buff around count sections s =
        .inr (sections', afterWait around count s id) ∧
      (∀ section' ∈ sections', Quiet section'.1 section'.2) ∧
      (afterWait around count s id).Healthy := by
  have healthyLook := healthyOthers (.look count) _ (healthyOthers (.load count) s healthy)
  have ends := @lookAtSlice_end cfg call buff _ healthyLook valid
    (around.memory.waitingTask count) ((around.others (.load count) s).otidSlice call.otidKey)
  have state := @lookAtSlice_flow cfg call buff _ id waits.2 (around.memory.waitingTask count)
  rw [roundIn]
  dsimp only
  rw [← waits.1] at state
  generalize lookAtSlice cfg call buff (around.memory.waitingTask count)
    ((around.others (.load count) s).otidSlice call.otidKey)
    (around.others (.look count) (around.others (.load count) s)) = looked at ends state ⊢
  obtain ⟨after, result⟩ := looked
  dsimp only at ends state ⊢
  cases ends with
  | buffered free other done => exact absurd ⟨id, waits⟩ free
  | notCombined free last => exact absurd ⟨id, waits⟩ free
  | newSlice free last combined => exact absurd ⟨id, waits⟩ free
  | lost flows lacks last => exact absurd (lacks.symm.trans task) nofun
  | waiting flows task last other =>
      have same : afterWait around count s id = after := state.symm
      exact ⟨_, by rw [same], quiet_concat quiet last, same ▸ last.healthy healthyLook⟩

end Rounds

/-- The call is right exactly where no round lacks its waiting task. -/
theorem roundsIn_right_iff (valid : call.Valid)
    (healthyOthers : ∀ moment s, s.Healthy → (around.others moment s).Healthy)
    (healthy : s.Healthy) (quiet : ∀ section' ∈ sections, Quiet section'.1 section'.2)
    (remaining count : Nat) :
    WriteRight call buff (roundsIn cfg call buff around remaining count sections s) ↔
      ¬LacksTask cfg call around remaining count s := by
  have sameId : ∀ {s : CombineState} {count : Nat} {id other : Nat},
      RoundWaits cfg call around count s id → RoundWaits cfg call around count s other →
        id = other := fun waits also => Option.some.inj (waits.1.symm.trans also.1)
  induction remaining generalizing count sections s with
  | zero =>
      rw [roundsIn, LacksTask]
      by_cases free : ∀ id, ¬RoundWaits cfg call around count s id
      · obtain ⟨outcome, ends, right⟩ := @roundIn_free cfg _ buff _ _ _ valid healthyOthers healthy
          quiet count free
        rw [ends]
        exact iff_of_true right fun ⟨id, waits, _⟩ => free id waits
      · obtain ⟨id, waits⟩ := not_forall_not.mp free
        cases task : around.memory.waitingTask count with
        | false =>
            obtain ⟨outcome, ends, wrong⟩ := @roundIn_lost cfg _ buff _ _ sections valid
              healthyOthers healthy count id waits task
            rw [ends]
            exact iff_of_false wrong fun right => right ⟨id, waits, rfl⟩
        | true =>
            obtain ⟨sections', ends, quiet', -⟩ := @roundIn_waits cfg _ buff _ _ _ valid
              healthyOthers healthy quiet count id waits task
            rw [ends]
            exact iff_of_true (directWrite_right quiet') fun ⟨_, _, lacks⟩ => nomatch lacks
  | succ remaining ih =>
      rw [roundsIn, LacksTask]
      by_cases free : ∀ id, ¬RoundWaits cfg call around count s id
      · obtain ⟨outcome, ends, right⟩ := @roundIn_free cfg _ buff _ _ _ valid healthyOthers healthy
          quiet count free
        rw [ends]
        exact iff_of_true right fun ⟨id, waits, _⟩ => free id waits
      · obtain ⟨id, waits⟩ := not_forall_not.mp free
        cases task : around.memory.waitingTask count with
        | false =>
            obtain ⟨outcome, ends, wrong⟩ := @roundIn_lost cfg _ buff _ _ sections valid
              healthyOthers healthy count id waits task
            rw [ends]
            exact iff_of_false wrong fun right => right ⟨id, waits, .inl rfl⟩
        | true =>
            obtain ⟨sections', ends, quiet', healthy'⟩ := @roundIn_waits cfg _ buff _ _ _ valid
              healthyOthers healthy quiet count id waits task
            rw [ends]
            refine (ih healthy' quiet' (count + 1)).trans (not_congr ?_)
            constructor
            · exact fun lacks => ⟨id, waits, .inr lacks⟩
            · rintro ⟨other, also, lacks⟩
              obtain rfl := sameId waits also
              exact lacks.resolve_left nofun

/-! ## The claim of the call -/

/-- No slice of the block that the conflict check looks at is in the way of the call. -/
def Unhindered (call : ApiCall) (s : CombineState) : Prop :=
  ∀ id ∈ (s.slices call.bsKey.block).takeWhile fun id =>
      (s.slice id).bsKey.slice.offset < sliceEnd call.bsKey.slice,
    ¬(fsSliceIsOverlap call.bsKey.slice (s.slice id).bsKey.slice ∧ s.Pends id)

theorem findConflicts_unhindered (ssize : FSSliceSize) (waitings : Nat) (ids : List Nat)
    (s : CombineState) :
    ((findConflicts ssize waitings ids s).2.1 = 0 ↔
      ∀ id ∈ ids.takeWhile fun id => (s.slice id).bsKey.slice.offset < sliceEnd ssize,
        ¬(fsSliceIsOverlap ssize (s.slice id).bsKey.slice ∧ s.Pends id)) ∧
      ((findConflicts ssize waitings ids s).2.1 = 0 → (findConflicts ssize waitings ids s).1 = s) := by
  induction ids generalizing waitings with
  | nil => exact ⟨iff_of_true rfl nofun, fun _ => rfl⟩
  | cons id rest ih =>
      rw [findConflicts]
      by_cases past : sliceEnd ssize ≤ (s.slice id).bsKey.slice.offset
      · rw [if_pos past, List.takeWhile_cons_of_neg (by simpa using past)]
        exact ⟨iff_of_true rfl nofun, fun _ => rfl⟩
      · rw [if_neg past, List.takeWhile_cons_of_pos (by simpa using past)]
        by_cases conflict : fsSliceIsOverlap ssize (s.slice id).bsKey.slice ∧ (s.stage id).Pending
        · rw [if_pos conflict]
          have found : ¬∀ other ∈ id :: rest.takeWhile fun id =>
              (s.slice id).bsKey.slice.offset < sliceEnd ssize,
              ¬(fsSliceIsOverlap ssize (s.slice other).bsKey.slice ∧ s.Pends other) :=
            fun all => all id List.mem_cons_self conflict
          cases waitings with
          | zero => exact ⟨iff_of_false nofun found, nofun⟩
          | succ waitings => exact ⟨iff_of_false (Nat.succ_ne_zero _) found, fun none => nomatch none⟩
        · rw [if_neg conflict]
          refine ⟨(ih waitings).1.trans ?_, (ih waitings).2⟩
          rw [List.forall_mem_cons]
          exact (and_iff_right conflict).symm

/-- The write continues the last one of its thread. -/
def Successive (call : ApiCall) (s : CombineState) : Prop :=
  ∃ entry, s.otids call.otidKey = some entry ∧
    call.bsKey.block.offset + call.bsKey.slice.offset = entry.lastWriteOffset

theorem successive_iff (call : ApiCall) (s : CombineState) :
    0 < (otidHtableInsertCallback call (s.otids call.otidKey)).successiveCount ↔
      Successive call s := by
  rw [Successive]
  cases s.otids call.otidKey with
  | none => exact iff_of_false (lt_irrefl 0) fun ⟨_, same, _⟩ => nomatch same
  | some entry =>
      rw [otidHtableInsertCallback]
      dsimp only
      split
      · next follows => exact iff_of_true (Nat.succ_pos _) ⟨entry, rfl, follows⟩
      · next jumps =>
          refine iff_of_false (lt_irrefl 0) fun ⟨_, same, follows⟩ => ?_
          obtain rfl := Option.some.inj same
          exact jumps follows

/-- The state after the thread's entry was updated for the write. -/
def withEntry (call : ApiCall) (s : CombineState) : CombineState :=
  { s with
    otids := Function.update s.otids call.otidKey
      (some (otidHtableInsertCallback call (s.otids call.otidKey))) }

/-- The write comes to the loop, and there to a round without memory for the waiting task of
the flow control. -/
structure LosesWrite (cfg : WriteCombineConfig) (call : ApiCall) (around : WriteAround)
    (s : CombineState) : Prop where
  enabled : cfg.enabled = true
  unhindered : Unhindered call s
  otidEntry : around.memory.otidEntry = true
  successive : Successive call (around.others .insert s)
  lacksTask : LacksTask cfg call around 3 0 (withEntry call (around.others .insert s))

theorem insertIn_right_iff (valid : call.Valid)
    (healthyOthers : ∀ moment s, s.Healthy → (around.others moment s).Healthy)
    (healthy : s.Healthy) (quiet : ∀ section' ∈ sections, Quiet section'.1 section'.2) :
    WriteRight call buff (insertIn cfg call buff around sections s) ↔
      ¬(around.memory.otidEntry = true ∧ Successive call (around.others .insert s) ∧
        LacksTask cfg call around 3 0 (withEntry call (around.others .insert s))) := by
  have healthyInsert := healthyOthers .insert s healthy
  have entered : Quiet (around.others .insert s) (withEntry call (around.others .insert s)) :=
    ⟨rfl, rfl, fun _ => .rfl, rfl⟩
  have quiet' := quiet_concat quiet entered
  rw [insertIn]
  split
  · next memory =>
      dsimp only
      split
      · next positive =>
          have successive := (successive_iff call (around.others .insert s)).mp positive
          refine (roundsIn_right_iff valid healthyOthers (entered.healthy healthyInsert) quiet'
            3 0).trans (not_congr ?_)
          exact ⟨fun lacks => ⟨memory, successive, lacks⟩, fun all => all.2.2⟩
      · next zero =>
          exact iff_of_true (directWrite_right quiet') fun all =>
            zero ((successive_iff call (around.others .insert s)).mpr all.2.1)
  · next memory => exact iff_of_true (directWrite_right quiet) fun all => memory all.1

theorem fsApiSliceWriteIn_right_iff (valid : call.Valid)
    (healthyOthers : ∀ moment s, s.Healthy → (around.others moment s).Healthy)
    (healthy : s.Healthy) :
    WriteRight call buff (fsApiSliceWriteIn cfg call buff around s) ↔
      ¬LosesWrite cfg call around s := by
  rw [fsApiSliceWriteIn]
  split
  · next enabled =>
      obtain ⟨clear, same⟩ := findConflicts_unhindered call.bsKey.slice around.memory.waitings
        (s.slices call.bsKey.block) s
      have checked := findConflicts_quiet call.bsKey.slice around.memory.waitings
        (s.slices call.bsKey.block) s
      have quiet : ∀ section' ∈ [(s, (findConflicts call.bsKey.slice around.memory.waitings
          (s.slices call.bsKey.block) s).1)], Quiet section'.1 section'.2 := by
        intro section' member
        obtain rfl := List.mem_singleton.mp member
        exact checked
      dsimp only
      split
      · next hindered =>
          exact iff_of_true (directWrite_right quiet) fun loses =>
            absurd (clear.mpr loses.unhindered) hindered.ne'
      · next free =>
          have none := Nat.eq_zero_of_not_pos free
          have unchanged := same none
          rw [unchanged] at quiet ⊢
          refine (insertIn_right_iff valid healthyOthers healthy quiet).trans (not_congr ?_)
          constructor
          · exact fun all => ⟨enabled, clear.mp none, all.1, all.2.1, all.2.2⟩
          · exact fun loses => ⟨loses.otidEntry, loses.successive, loses.lacksTask⟩
  · next disabled =>
      exact iff_of_true (directWrite_right (List.forall_mem_nil _)) fun loses => disabled loses.enabled

/-! ## Pending slices are written -/

/-- Actions of the timer and the combine handler. -/
def Handles : CombineAction → Prop
  | .expire _ => True
  | .deal => True
  | .run _ => True
  | _ => False

/-- The handler can bring the data of the slice to the server. -/
def CanBeWritten (cfg : WriteCombineConfig) (id : Nat) (s : CombineState) : Prop :=
  ∃ actions, (∀ action ∈ actions, Handles action) ∧ StepRel.Follows Enabled (act cfg) s actions ∧
    ∀ q cell, s.patch id q = some cell → (actions.foldl (act cfg) s).server q = cell

theorem canBeWritten_of_queued {before behind : List Nat} {s : CombineState}
    (queued : s.queue = before ++ id :: behind) : CanBeWritten cfg id s := by
  induction before generalizing s with
  | nil =>
      refine ⟨[.deal, .run id], ?_, ⟨?_, ?_, trivial⟩, fun q cell held => ?_⟩
      · intro action member
        cases List.mem_cons.mp member with
        | inl same => exact same ▸ trivial
        | inr later => exact List.mem_singleton.mp later ▸ trivial
      · rw [Enabled, queued]
        exact List.cons_ne_nil _ _
      · have dealt : (s.dealSlices).running = s.running ++ [(id, .writing)] := by
          rw [dealSlices, queued]
          rfl
        have running : (id, RunPoint.writing) ∈ s.dealSlices.running := by
          rw [dealt]
          exact List.mem_append_right _ List.mem_cons_self
        exact running
      · exact overwrite_of_some held _
  | cons first before ih =>
      have dealt : s.dealSlices.queue = before ++ id :: behind := by
        rw [dealSlices, queued]
        rfl
      obtain ⟨actions, handles, follows, written⟩ := ih dealt
      refine ⟨.deal :: actions, List.forall_mem_cons.mpr ⟨trivial, handles⟩, ⟨?_, follows⟩,
        written⟩
      rw [Enabled, queued]
      exact List.cons_ne_nil _ _

theorem canBeWritten_of_pending {s : CombineState}
    (pending : s.stage id = .merging ∨ s.stage id = .processing ∧ id ∈ s.queue) :
    CanBeWritten cfg id s := by
  cases pending with
  | inl merging =>
      have queued : (s.combineHandlerPushWithinLock id).queue = s.queue ++ id :: [] := rfl
      obtain ⟨actions, handles, follows, written⟩ :=
        @canBeWritten_of_queued cfg id s.queue [] (s.combineHandlerPushWithinLock id) queued
      have expired : act cfg s (.expire id) = s.combineHandlerPushWithinLock id := if_pos merging
      refine ⟨.expire id :: actions, List.forall_mem_cons.mpr ⟨trivial, handles⟩,
        ⟨trivial, ?_⟩, ?_⟩
      · rw [expired]
        exact follows
      · rw [List.foldl_cons, expired]
        exact written
  | inr processing =>
      obtain ⟨before, behind, queued⟩ := List.append_of_mem processing.2
      exact canBeWritten_of_queued queued

/-- A write is where its call says it is exactly where the flow control does not lack a
waiting task: reported as combined it was copied once into a pending slice, which the
handler can bring to the server, and otherwise it was written to the server and is in no
pending slice. -/
theorem slice_write_right_iff (cfg : WriteCombineConfig) (call : ApiCall) (buff : Int → UInt8) :
    (∀ (around : WriteAround) (s : CombineState), call.Valid →
      (∀ moment s, s.Healthy → (around.others moment s).Healthy) → s.Healthy →
      (WriteRight call buff (fsApiSliceWriteIn cfg call buff around s) ↔
        ¬LosesWrite cfg call around s)) ∧
    ∀ (s s' : CombineState) (id : Nat), BufferedIn call buff s s' id → CanBeWritten cfg id s' := by
  constructor
  · intro around s valid healthyOthers healthy
    exact fsApiSliceWriteIn_right_iff valid healthyOthers healthy
  · intro s s' id buffered
    exact canBeWritten_of_pending buffered.pending

/-- In a run the lengths and the numbers of the slices are as they are to be. -/
theorem healthy_of_reachable {origin : Cells} {s : CombineState}
    (reached : Reachable (step cfg) (fun s => s = initial origin) s) : s.Healthy := by
  have sound := (kept_of_reachable cfg origin reached).sound
  constructor
  · intro pends
    exact absurd (sound.id_lt pends) (lt_irrefl _)
  · exact fun id pends => (sound.fits id pends).length

/-- A write of thread 1 to a block. -/
def threadWrite (offset : Int) : ApiCall :=
  ⟨1, ⟨⟨1, 0⟩, ⟨offset, 100⟩⟩, .write fun _ => 1⟩

/-- A thread writes three times in a row; the last two writes are in one slice. -/
def threeWrites : CombineState :=
  [CombineAction.start (threadWrite 0), .start (threadWrite 100), .start (threadWrite 200)].foldl
    (act combineConfig) (initial fun _ => .hole)

/-- The slice is pushed by the timer, and waits in the queue. -/
def slicePushed : CombineState := act combineConfig threeWrites (.expire 0)

/-- Nobody else does anything. -/
def undisturbed (task : Bool) : WriteAround where
  memory := ⟨1, true, fun _ => task, fun _ => true, fun _ => true, fun _ => true⟩
  others := fun _ s => s

theorem threeWrites_reachable :
    Reachable (step combineConfig) (fun s => s = initial fun _ => .hole) threeWrites := by
  have start : Reachable (step combineConfig) (fun s => s = initial fun _ => .hole)
      (initial fun _ => .hole) := .start rfl
  exact start.follow [.start (threadWrite 0), .start (threadWrite 100), .start (threadWrite 200)]
    (by decide +kernel)

theorem slice_write_right_joined :
    WriteRight (threadWrite 300) (fun _ => 1)
      (fsApiSliceWriteIn combineConfig (threadWrite 300) (fun _ => 1) (undisturbed false)
        threeWrites) := by
  refine ((slice_write_right_iff _ _ _).1 _ _ (by decide) (fun _ _ healthy => healthy)
    (healthy_of_reachable threeWrites_reachable)).mpr fun loses => ?_
  obtain ⟨id, waits, -⟩ := loses.lacksTask
  have last : (withEntry (threadWrite 300) threeWrites).otidSlice (threadWrite 300).otidKey =
      some 0 := by decide +kernel
  have free : ¬FlowControl combineConfig (threadWrite 300) 0
      (withEntry (threadWrite 300) threeWrites) := by
    rw [FlowControl]
    decide +kernel
  obtain rfl : 0 = id := Option.some.inj (last.symm.trans waits.1)
  exact free waits.2

/-- With the slice on its way and no memory for the waiting task the write is lost. -/
theorem slice_write_lost :
    ¬∀ (cfg : WriteCombineConfig) (call : ApiCall) (buff : Int → UInt8) (around : WriteAround)
      (s : CombineState), Reachable (step cfg) (fun s => s = initial fun _ => .hole) s →
      call.Valid → (∀ moment s, s.Healthy → (around.others moment s).Healthy) →
      WriteRight call buff (fsApiSliceWriteIn cfg call buff around s) := by
  intro claim
  have reached : Reachable (step combineConfig) (fun s => s = initial fun _ => .hole) slicePushed :=
    threeWrites_reachable.act (.expire 0) trivial
  have right := claim combineConfig (threadWrite 300) (fun _ => 1) (undisturbed false) slicePushed
    reached (by decide) fun _ _ healthy => healthy
  refine (fsApiSliceWriteIn_right_iff (by decide) (fun _ _ healthy => healthy)
    (healthy_of_reachable reached)).mp right ⟨rfl, ?_, rfl, ?_, ?_⟩
  · rw [Unhindered]
    decide +kernel
  · exact ⟨⟨2, 300, some 0⟩, by decide +kernel, by decide +kernel⟩
  · refine ⟨0, ⟨by decide +kernel, ?_⟩, .inl rfl⟩
    rw [FlowControl]
    decide +kernel

end CombineState

end FastStore.Api
