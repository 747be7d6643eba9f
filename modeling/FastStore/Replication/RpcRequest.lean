import FastStore.Server.DataUpdate
import FastStore.Util.System

/-!
# Answering the RPC requests of the master

A request has several parts, one for each update.  `handle_rpc_req` deals with the parts one
after another; a part is answered by an entry in the RPC result queue, either at once or when
the data thread has dealt with it.  The words of the data servers are changed by other threads
at any time and in any way.
-/

namespace FastStore.Replication

open FastStore.Util FastStore.Storage FastStore.Cluster FastStore.Server

/-- `ReplicationRPCResult`, with the part of the request that it answers. -/
structure ReplicationRPCResult where
  part : Nat
  dataGroupId : Nat
  dataVersion : Nat
  errNo : UpdateResult
  deriving DecidableEq, Repr

/-- Where the thread is in `handle_rpc_req`. -/
inductive HandlePoint where
  /-- At the head of the loop. -/
  | loop
  | update (point : UpdatePoint)
  | returned (result : UpdateResult)
  deriving DecidableEq, Repr

structure RpcReqState where
  /-- `REQUEST.header.body_len`. -/
  bodyLen : Int
  parts : List FSProtoReplicaRPCReqBodyPart
  words : Nat → DataServerWords
  continueFlag : Bool
  index : Nat
  currentLen : Int
  point : HandlePoint
  /-- The parts that the data threads have to deal with. -/
  queue : List Nat
  results : List ReplicationRPCResult
  /-- The parts that were skipped for their data version. -/
  skipped : List Nat

inductive RpcReqAction where
  /-- The next step of `handle_rpc_req`. -/
  | handle
  /-- `push_to_data_thread_queue` fails. -/
  | pushFails
  /-- `slave_data_update_done_notify` for a part. -/
  | done (part : Nat) (result : UpdateResult)
  /-- Other threads change the words of a data server. -/
  | change (dataGroupId : Nat) (words : DataServerWords)
  /-- `SF_G_CONTINUE_FLAG` goes down. -/
  | terminate
  deriving DecidableEq, Repr

namespace RpcReqState

variable (groups : DataGroups) (s : RpcReqState)

/-- The length of the request up to the end of a part, as a 32-bit number. -/
def lengthThrough (part : FSProtoReplicaRPCReqBodyPart) : Int :=
  (s.currentLen + 16 + part.bodyLen).bmod (2 ^ 32)

/-- The checks before the update of a part. -/
def checkPart (part : FSProtoReplicaRPCReqBodyPart) : UpdateResult :=
  if part.bodyLen ≤ 0 then .einval
  else if s.index + 1 < s.parts.length ∧ s.bodyLen < s.lengthThrough part then .einval
  else if s.index + 1 = s.parts.length ∧ s.bodyLen ≠ s.lengthThrough part then .einval
  else if part.dataVersion = 0 then .einval
  else part.checkBlockKey groups

def setWords (dataGroupId : Nat) (words : DataServerWords) : RpcReqState :=
  { s with words := Function.update s.words dataGroupId words }

/-- The head of the loop. -/
def startPart : RpcReqState :=
  match s.parts[s.index]? with
  | none => { s with point := .returned .ok }
  | some part =>
      if s.checkPart groups part = .ok then
        { s with
          currentLen := s.lengthThrough part
          point := .update (.check .readStatus) }
      else { s with point := .returned (s.checkPart groups part) }

/-- The end of the loop body: the part is answered when the recovery deals with it. -/
def endPart (part : FSProtoReplicaRPCReqBodyPart) (result : UpdateResult) (dealDone : Bool) :
    RpcReqState :=
  if result = .taskStatusContinue then
    { s with
      index := s.index + 1
      point := .loop }
  else if result = .ok then
    { s with
      index := s.index + 1
      point := .loop
      results := if dealDone then
          ⟨s.index, groups.dataGroupId part.bkey, part.dataVersion, .ok⟩ :: s.results
        else s.results }
  else { s with point := .returned result }

/-- A step of the update of a part. -/
def updatePart (part : FSProtoReplicaRPCReqBodyPart) (point : UpdatePoint) : RpcReqState :=
  let dataGroupId := groups.dataGroupId part.bkey
  let words := s.words dataGroupId
  { s with
    words := Function.update s.words dataGroupId (point.nextWords words)
    point := .update (point.next words s.continueFlag part)
    queue := if point = .push then s.index :: s.queue else s.queue
    skipped := if point.Skips words part then s.index :: s.skipped else s.skipped }

def handle : RpcReqState :=
  match s.point with
  | .loop => s.startPart groups
  | .update point =>
      match s.parts[s.index]? with
      | none => s
      | some part =>
          match point with
          | .returned result dealDone => s.endPart groups part result dealDone
          | point => s.updatePart groups part point
  | .returned _ => s

/-- The thread waits for the end of the recovery. -/
def Blocked : Prop :=
  match s.point, s.parts[s.index]? with
  | .update point, some part =>
      point.Blocked (s.words (groups.dataGroupId part.bkey)) s.continueFlag
  | _, _ => False

def Returned : HandlePoint → Prop
  | .returned _ => True
  | _ => False

instance (point : HandlePoint) : Decidable (Returned point) := by
  cases point <;> unfold Returned <;> infer_instance

instance : Decidable (s.Blocked groups) := by
  unfold Blocked
  split <;> infer_instance

def Enabled : RpcReqAction → Prop
  | .handle => ¬ Returned s.point ∧ ¬ s.Blocked groups
  | .pushFails => s.point = .update .push
  | .done part _ => part ∈ s.queue
  | .change _ _ | .terminate => True

instance (action : RpcReqAction) : Decidable (s.Enabled groups action) := by
  cases action <;> unfold Enabled <;> infer_instance

/-- The entry for a part that the data thread has dealt with. -/
def resultOf (part : Nat) (result : UpdateResult) : List ReplicationRPCResult :=
  match s.parts[part]? with
  | none => []
  | some body => [⟨part, groups.dataGroupId body.bkey, body.dataVersion, result⟩]

def next : RpcReqAction → RpcReqState
  | .handle => s.handle groups
  | .pushFails => { s with point := .update (.returned .enomem false) }
  | .done part result =>
      { s with
        queue := s.queue.erase part
        results := s.resultOf groups part result ++ s.results }
  | .change dataGroupId words => s.setWords dataGroupId words
  | .terminate => { s with continueFlag := false }

/-- How often a part has been answered. -/
def answers (part : Nat) : Nat := (s.results.map ReplicationRPCResult.part).count part

/-- No part is answered twice, every answer is that of its part, and when the request has been
handled without an error every part is answered or will be. -/
structure AnsweredOnce : Prop where
  once : ∀ part, s.answers part ≤ 1
  own : ∀ result ∈ s.results, ∃ part, s.parts[result.part]? = some part ∧
    result.dataGroupId = groups.dataGroupId part.bkey ∧ result.dataVersion = part.dataVersion
  handled : s.point = .returned .ok → ∀ part < s.parts.length,
    s.answers part + s.queue.count part = 1
  waits : ¬ Returned s.point → s.Enabled groups .handle ∨ s.Blocked groups

/-- The check of a part does not find its data version passed. -/
def Regular : RpcReqAction → Prop
  | .handle =>
      match s.point, s.parts[s.index]? with
      | .update point, some part => ¬ point.Skips (s.words (groups.dataGroupId part.bkey)) part
      | _, _ => True
  | _ => True

instance (action : RpcReqAction) : Decidable (s.Regular groups action) := by
  unfold Regular
  split
  · split <;> infer_instance
  · infer_instance

end RpcReqState

/-- A request has come, whatever it contains, and whatever the state of the data servers is. -/
def RpcReqInit (s : RpcReqState) : Prop :=
  s.index = 0 ∧ s.currentLen = 8 ∧ s.point = .loop ∧ s.queue = [] ∧ s.results = [] ∧ s.skipped = []

def RpcReqStep (groups : DataGroups) : StepRel RpcReqState RpcReqAction :=
  StepRel.ofNext (RpcReqState.Enabled groups) (RpcReqState.next groups)

/-! ## Where each part is -/

namespace RpcReqState

/-- The part at `index` is in the queue of a data thread, or it was skipped. -/
def Settled : HandlePoint → Prop
  | .update point => point.Settled
  | _ => False

/-- How far the thread is. -/
def InRange (s : RpcReqState) : HandlePoint → Prop
  | .loop => s.index ≤ s.parts.length
  | .update _ => s.index < s.parts.length
  | .returned result => s.index ≤ s.parts.length ∧ (result = .ok → s.index = s.parts.length)

/-- The part has been dealt with. -/
def Dealt (s : RpcReqState) (part : Nat) : Prop :=
  part < s.index ∨ part = s.index ∧ Settled s.point

/-- In how many places a part is: answered, in the hands of a data thread, or skipped. -/
def places (s : RpcReqState) (part : Nat) : Nat :=
  s.answers part + s.queue.count part + s.skipped.count part

/-- Each part that has been dealt with is in one place, and no other part is. -/
structure Accounted (groups : DataGroups) (s : RpcReqState) : Prop where
  dealt : ∀ part, s.Dealt part → s.places part = 1
  undealt : ∀ part, ¬ s.Dealt part → s.places part = 0
  inRange : s.InRange s.point
  own : ∀ result ∈ s.results, ∃ part, s.parts[result.part]? = some part ∧
    result.dataGroupId = groups.dataGroupId part.bkey ∧ result.dataVersion = part.dataVersion

variable {groups : DataGroups} {s : RpcReqState}

theorem accounted_of_init (init : RpcReqInit s) : s.Accounted groups := by
  obtain ⟨index, -, point, queue, results, skipped⟩ := init
  refine ⟨?_, ?_, ?_, ?_⟩
  · intro part dealt
    unfold Dealt at dealt
    rw [index, point] at dealt
    rcases dealt with before | ⟨-, settled⟩
    · exact absurd before (Nat.not_lt_zero _)
    · exact settled.elim
  · intro part _
    rw [places, answers, queue, results, skipped]
    rfl
  · rw [point]
    show s.index ≤ s.parts.length
    rw [index]
    exact Nat.zero_le _
  · rw [results]
    nofun

/-- A step that moves no part. -/
theorem Accounted.stay (accounted : s.Accounted groups) {after : RpcReqState}
    (parts : after.parts = s.parts) (results : after.results = s.results)
    (places : ∀ part, after.places part = s.places part)
    (dealt : ∀ part, after.Dealt part ↔ s.Dealt part) (inRange : after.InRange after.point) :
    after.Accounted groups := by
  refine ⟨?_, ?_, inRange, ?_⟩
  · intro part isDealt
    rw [places]
    exact accounted.dealt part ((dealt part).mp isDealt)
  · intro part notDealt
    rw [places]
    exact accounted.undealt part (mt (dealt part).mpr notDealt)
  · rw [results, parts]
    exact accounted.own

/-- A step that deals with the part at `index`, which had no place, and gives it one. -/
theorem Accounted.place (accounted : s.Accounted groups) {after : RpcReqState}
    (before : ¬ Settled s.point)
    (other : ∀ part, part ≠ s.index → after.places part = s.places part)
    (placed : after.places s.index = s.places s.index + 1)
    (dealt : ∀ part, after.Dealt part ↔ s.Dealt part ∨ part = s.index)
    (inRange : after.InRange after.point)
    (own : ∀ result ∈ after.results, ∃ part, after.parts[result.part]? = some part ∧
      result.dataGroupId = groups.dataGroupId part.bkey ∧ result.dataVersion = part.dataVersion) :
    after.Accounted groups := by
  have undealt : ¬ s.Dealt s.index := by
    rintro (less | ⟨-, settled⟩)
    · exact absurd less (lt_irrefl _)
    · exact before settled
  refine ⟨?_, ?_, inRange, own⟩
  · intro part isDealt
    by_cases same : part = s.index
    · rw [same, placed, accounted.undealt _ undealt]
    · rw [other part same]
      exact accounted.dealt part (((dealt part).mp isDealt).resolve_right same)
  · intro part notDealt
    have same : part ≠ s.index := fun same => notDealt ((dealt part).mpr (Or.inr same))
    rw [other part same]
    exact accounted.undealt part fun isDealt => notDealt ((dealt part).mpr (Or.inl isDealt))

/-- Between two points of a part that settle nothing. -/
theorem dealt_iff_of_unsettled {after : RpcReqState} (index : after.index = s.index)
    (before : ¬ Settled s.point) (behind : ¬ Settled after.point) (part : Nat) :
    after.Dealt part ↔ s.Dealt part := by
  unfold Dealt
  rw [index]
  simp only [before, behind, and_false]

theorem Accounted.startPart (accounted : s.Accounted groups) (point : s.point = .loop) :
    (s.startPart groups).Accounted groups := by
  have before : ¬ Settled s.point := by
    rw [point]
    exact id
  have bound : s.index ≤ s.parts.length := by
    have inRange := accounted.inRange
    rwa [point] at inRange
  unfold RpcReqState.startPart
  cases found : s.parts[s.index]? with
  | none =>
      refine accounted.stay rfl rfl (fun _ => rfl) (dealt_iff_of_unsettled rfl before id) ?_
      exact ⟨bound, fun _ => le_antisymm bound (List.getElem?_eq_none_iff.mp found)⟩
  | some part =>
      have inside := (List.getElem?_eq_some_iff.mp found).1
      dsimp only
      split_ifs with valid
      · exact accounted.stay rfl rfl (fun _ => rfl) (dealt_iff_of_unsettled rfl before id) inside
      · refine accounted.stay rfl rfl (fun _ => rfl) (dealt_iff_of_unsettled rfl before id) ?_
        exact ⟨bound, fun isOk => absurd isOk valid⟩

/-- The loop goes on behind a part. -/
theorem dealt_iff_of_loop {after : RpcReqState} (index : after.index = s.index + 1)
    (point : after.point = .loop) (part : Nat) :
    after.Dealt part ↔ part < s.index ∨ part = s.index := by
  unfold Dealt
  rw [index, point]
  constructor
  · rintro (less | ⟨-, settled⟩)
    · omega
    · exact settled.elim
  · intro before
    exact Or.inl (by omega)

theorem Accounted.endPart (accounted : s.Accounted groups) {part : FSProtoReplicaRPCReqBodyPart}
    {result : UpdateResult} {dealDone : Bool} (point : s.point = .update (.returned result dealDone))
    (found : s.parts[s.index]? = some part) :
    (s.endPart groups part result dealDone).Accounted groups := by
  have inside := (List.getElem?_eq_some_iff.mp found).1
  have settled : Settled s.point = UpdatePoint.Settled (.returned result dealDone) := by
    rw [point]
    rfl
  -- a part that is settled keeps its place
  have keeps : Settled s.point → ∀ after : RpcReqState, after.index = s.index + 1 →
      after.point = .loop → ∀ other, after.Dealt other ↔ s.Dealt other := by
    intro isSettled after index loop other
    rw [dealt_iff_of_loop index loop]
    unfold Dealt
    simp only [isSettled, and_true]
  unfold RpcReqState.endPart
  cases result with
  | taskStatusContinue =>
      rw [if_pos rfl]
      exact accounted.stay rfl rfl (fun _ => rfl) (keeps (settled ▸ trivial) _ rfl rfl) inside
  | ok =>
      rw [if_neg nofun, if_pos rfl]
      cases dealDone with
      | false =>
          exact accounted.stay rfl rfl (fun _ => rfl) (keeps (settled ▸ trivial) _ rfl rfl) inside
      | true =>
          refine accounted.place (settled ▸ id) ?_ ?_ ?_ inside ?_
          · intro other apart
            have elsewhere : (s.index == other) = false := by simpa using apart.symm
            simp [places, answers, List.count_cons, elsewhere]
          · simp only [places, answers, if_true, List.map_cons, List.count_cons_self]
            omega
          · intro other
            rw [dealt_iff_of_loop rfl rfl]
            unfold Dealt
            rw [settled]
            simp [UpdatePoint.Settled]
          · intro answer member
            rcases List.mem_cons.mp member with rfl | old
            · exact ⟨part, found, rfl, rfl⟩
            · exact accounted.own answer old
  | einval | enoent | enomem | notActive =>
      rw [if_neg nofun, if_neg nofun]
      refine accounted.stay rfl rfl (fun _ => rfl) (dealt_iff_of_unsettled rfl ?_ id) ?_
      · rw [settled]
        exact id
      · exact ⟨inside.le, nofun⟩

/-- One part goes to one place. -/
theorem Accounted.updatePart (accounted : s.Accounted groups) {part : FSProtoReplicaRPCReqBodyPart}
    {point : UpdatePoint} (isPoint : s.point = .update point)
    (found : s.parts[s.index]? = some part)
    (running : ∀ result dealDone, point ≠ .returned result dealDone) :
    (s.updatePart groups part point).Accounted groups := by
  have inside := (List.getElem?_eq_some_iff.mp found).1
  have before : ¬ Settled s.point := by
    rw [isPoint]
    cases point with
    | returned result dealDone => exact absurd rfl (running result dealDone)
    | check | version | accept | push => exact id
  have dealt : UpdatePoint.Settled (point.next (s.words (groups.dataGroupId part.bkey))
      s.continueFlag part) → ∀ other, (s.updatePart groups part point).Dealt other ↔
        s.Dealt other ∨ other = s.index := by
    intro isSettled other
    show other < s.index ∨ other = s.index ∧ UpdatePoint.Settled _ ↔ _
    unfold Dealt
    simp only [isSettled, before, and_true, and_false, or_false]
  rcases @UpdatePoint.next_cases (s.words (groups.dataGroupId part.bkey)) s.continueFlag part point
    running with ⟨pushes, keeps, isSettled⟩ | ⟨keeps, skips, isSettled⟩ | ⟨keeps, reads, unsettled⟩
  · refine accounted.place before ?_ ?_ (dealt isSettled) inside accounted.own
    · intro other apart
      have elsewhere : (s.index == other) = false := by simpa using apart.symm
      simp [places, answers, RpcReqState.updatePart, pushes, UpdatePoint.Skips, List.count_cons,
        elsewhere]
    · simp only [places, answers, RpcReqState.updatePart, if_pos pushes, if_neg keeps,
        List.count_cons_self]
      omega
  · refine accounted.place before ?_ ?_ (dealt isSettled) inside accounted.own
    · intro other apart
      have elsewhere : (s.index == other) = false := by simpa using apart.symm
      simp [places, answers, RpcReqState.updatePart, keeps, skips, List.count_cons, elsewhere]
    · simp only [places, answers, RpcReqState.updatePart, if_neg keeps, if_pos skips,
        List.count_cons_self]
      omega
  · refine accounted.stay rfl rfl ?_ (dealt_iff_of_unsettled rfl before unsettled) inside
    intro other
    simp only [places, answers, RpcReqState.updatePart, if_neg keeps, if_neg reads]

theorem Accounted.handle (accounted : s.Accounted groups) : (s.handle groups).Accounted groups := by
  unfold RpcReqState.handle
  cases point : s.point with
  | loop => exact accounted.startPart point
  | returned result => exact accounted
  | update inner =>
      cases found : s.parts[s.index]? with
      | none => exact accounted
      | some part =>
          cases inner with
          | returned result dealDone => exact accounted.endPart point found
          | check loop => exact accounted.updatePart point found nofun
          | version => exact accounted.updatePart point found nofun
          | accept => exact accounted.updatePart point found nofun
          | push => exact accounted.updatePart point found nofun

theorem Accounted.pushFails (accounted : s.Accounted groups)
    (enabled : s.Enabled groups .pushFails) : (s.next groups .pushFails).Accounted groups := by
  have point : s.point = .update .push := enabled
  have inRange := accounted.inRange
  rw [point] at inRange
  refine accounted.stay rfl rfl (fun _ => rfl) (dealt_iff_of_unsettled rfl ?_ id) inRange
  rw [point]
  exact id

/-- A part in the queue of a data thread is one of the request. -/
theorem Accounted.lt_length (accounted : s.Accounted groups) {part : Nat} (member : part ∈ s.queue) :
    part < s.parts.length := by
  have inRange := accounted.inRange
  have isDealt : s.Dealt part := by
    by_contra undealt
    have none := accounted.undealt part undealt
    have some := List.count_pos_iff.mpr member
    unfold places at none
    omega
  rcases isDealt with before | ⟨same, settled⟩
  · cases point : s.point with
    | loop =>
        rw [point] at inRange
        exact lt_of_lt_of_le before inRange
    | update inner =>
        rw [point] at inRange
        exact before.trans inRange
    | returned result =>
        rw [point] at inRange
        exact lt_of_lt_of_le before inRange.1
  · cases point : s.point with
    | loop | returned =>
        rw [point] at settled
        exact settled.elim
    | update inner =>
        rw [point] at inRange
        exact same ▸ inRange

theorem Accounted.done (accounted : s.Accounted groups) {part : Nat} {result : UpdateResult}
    (enabled : s.Enabled groups (.done part result)) :
    (s.next groups (.done part result)).Accounted groups := by
  have member : part ∈ s.queue := enabled
  obtain ⟨body, found⟩ : ∃ body, s.parts[part]? = some body :=
    ⟨_, List.getElem?_eq_getElem (accounted.lt_length member)⟩
  have entry : s.resultOf groups part result =
      [⟨part, groups.dataGroupId body.bkey, body.dataVersion, result⟩] := by
    unfold resultOf
    rw [found]
  have same : ∀ other, (s.next groups (.done part result)).places other = s.places other := by
    intro other
    unfold places answers next
    dsimp only
    rw [entry]
    by_cases isPart : other = part
    · subst isPart
      have positive := List.count_pos_iff.mpr member
      rw [List.count_erase_self, List.map_append, List.count_append]
      simp only [List.map_cons, List.map_nil, List.count_cons_self, List.count_nil]
      omega
    · have apart : (part == other) = false := by simpa using Ne.symm isPart
      rw [List.count_erase_of_ne isPart, List.map_append, List.count_append]
      simp [List.count_cons, apart]
  refine ⟨?_, ?_, accounted.inRange, ?_⟩
  · intro other isDealt
    rw [same]
    exact accounted.dealt other isDealt
  · intro other notDealt
    rw [same]
    exact accounted.undealt other notDealt
  · intro answer isAnswer
    change answer ∈ s.resultOf groups part result ++ s.results at isAnswer
    rw [entry] at isAnswer
    rcases List.mem_cons.mp isAnswer with rfl | old
    · exact ⟨body, found, rfl, rfl⟩
    · exact accounted.own answer old

/-- The run lemma. -/
theorem accounted_of_reachable (reached : Reachable (RpcReqStep groups) RpcReqInit s) :
    s.Accounted groups := by
  refine reached.invariant (fun s init => accounted_of_init init) ?_
  rintro s action _ accounted ⟨enabled, rfl⟩
  cases action with
  | handle => exact accounted.handle
  | pushFails => exact accounted.pushFails enabled
  | done part result => exact accounted.done enabled
  | change dataGroupId words =>
      exact ⟨accounted.dealt, accounted.undealt, accounted.inRange, accounted.own⟩
  | terminate => exact ⟨accounted.dealt, accounted.undealt, accounted.inRange, accounted.own⟩

/-- A regular step skips nothing. -/
theorem skipped_handle (regular : s.Regular groups .handle) :
    (s.handle groups).skipped = s.skipped := by
  unfold Regular at regular
  unfold RpcReqState.handle
  cases point : s.point with
  | returned result => rfl
  | loop =>
      unfold RpcReqState.startPart
      dsimp only
      split
      · rfl
      · split_ifs <;> rfl
  | update inner =>
      rw [point] at regular
      cases found : s.parts[s.index]? with
      | none => rfl
      | some part =>
          rw [found] at regular
          cases inner with
          | returned result dealDone =>
              dsimp only
              unfold RpcReqState.endPart
              split_ifs <;> rfl
          | check | accept | push => rfl
          | version => exact if_neg regular

theorem skipped_of_reachable
    (reached : Reachable ((RpcReqStep groups).guarded (Regular groups)) RpcReqInit s) :
    s.skipped = [] := by
  refine reached.invariant (fun s init => init.2.2.2.2.2) ?_
  rintro s action _ none ⟨regular, enabled, rfl⟩
  cases action with
  | handle => exact (skipped_handle regular).trans none
  | pushFails | done | change | terminate => exact none

theorem Accounted.answeredOnce (accounted : s.Accounted groups) (none : s.skipped = []) :
    s.AnsweredOnce groups := by
  refine ⟨?_, accounted.own, ?_, ?_⟩
  · intro part
    have le : s.answers part ≤ s.places part :=
      (Nat.le_add_right _ _).trans (Nat.le_add_right _ _)
    by_cases dealt : s.Dealt part
    · exact le.trans (accounted.dealt part dealt).le
    · exact le.trans ((accounted.undealt part dealt).le.trans (Nat.zero_le _))
  · intro point part inside
    have inRange := accounted.inRange
    rw [point] at inRange
    have dealt := accounted.dealt part (Or.inl ((inRange.2 rfl).symm ▸ inside))
    unfold places at dealt
    rw [none] at dealt
    exact dealt
  · intro running
    by_cases blocked : s.Blocked groups
    · exact Or.inr blocked
    · exact Or.inl ⟨running, blocked⟩

/-- Every part is answered exactly when none was skipped. -/
theorem Accounted.answered_iff (accounted : s.Accounted groups) (point : s.point = .returned .ok)
    (idle : s.queue = []) :
    (∀ part < s.parts.length, s.answers part = 1) ↔ s.skipped = [] := by
  have inRange := accounted.inRange
  rw [point] at inRange
  have index := inRange.2 rfl
  constructor
  · intro answered
    by_contra some
    obtain ⟨part, member⟩ := List.exists_mem_of_ne_nil _ some
    have positive := List.count_pos_iff.mpr member
    have dealt : s.Dealt part := by
      by_contra undealt
      have none := accounted.undealt part undealt
      unfold places at none
      omega
    have inside : part < s.parts.length := by
      rcases dealt with before | ⟨-, settled⟩
      · exact index ▸ before
      · rw [point] at settled
        exact settled.elim
    have one := accounted.dealt part dealt
    have isAnswered := answered part inside
    unfold places at one
    omega
  · intro none part inside
    have one := accounted.dealt part (Or.inl (index.symm ▸ inside))
    unfold places at one
    rw [idle, none] at one
    exact one

end RpcReqState

/-- In every run in which no part is skipped for its data version the slave answers each part
once; and in every run each part is answered only if none was skipped. -/
theorem slave_answers_once {groups : DataGroups} {s : RpcReqState}
    (reached : Reachable (RpcReqStep groups) RpcReqInit s) :
    (Reachable ((RpcReqStep groups).guarded (RpcReqState.Regular groups)) RpcReqInit s →
        s.AnsweredOnce groups) ∧
      (s.point = .returned .ok → s.queue = [] →
        ((∀ part < s.parts.length, s.answers part = 1) ↔ s.skipped = [])) := by
  have accounted := RpcReqState.accounted_of_reachable reached
  exact ⟨fun regular => accounted.answeredOnce (RpcReqState.skipped_of_reachable regular),
    accounted.answered_iff⟩

/-- A request with updates 5 and 6 of one block, while the words of the slave are as given. -/
def rpcReqExample (words : DataServerWords) : RpcReqState :=
  ⟨88, [⟨5, 24, .sliceAllocate, ⟨1, 0⟩, 0, 4096⟩, ⟨6, 24, .sliceDelete, ⟨1, 0⟩, 0, 4096⟩],
    fun _ => words, true, 0, 8, .loop, [], [], []⟩

/-- One group, which this server belongs to. -/
def rpcReqGroups : DataGroups := ⟨1, fun _ => true⟩

/-- The recovery deals with update 5; update 6 waits for its end, and a data thread deals with
it. -/
def rpcReqActions : List RpcReqAction :=
  [.handle, .handle, .handle, .handle, .handle, .handle, .handle,
    .handle, .handle, .handle, .handle, .handle,
    .change 1 ⟨.active, false, 5, 5⟩, .handle, .handle, .handle, .handle, .handle, .handle, .handle,
    .done 1 .ok, .handle, .handle]

theorem slave_answers_once_online :
    (rpcReqActions.foldl (RpcReqState.next rpcReqGroups)
        (rpcReqExample ⟨.online, true, 5, 0⟩)).point = .returned .ok ∧
      RpcReqState.AnsweredOnce rpcReqGroups
        (rpcReqActions.foldl (RpcReqState.next rpcReqGroups)
          (rpcReqExample ⟨.online, true, 5, 0⟩)) := by
  have start : Reachable ((RpcReqStep rpcReqGroups).guarded (RpcReqState.Regular rpcReqGroups))
      RpcReqInit (rpcReqExample ⟨.online, true, 5, 0⟩) := .start ⟨rfl, rfl, rfl, rfl, rfl, rfl⟩
  have regular := start.followMeeting rpcReqActions (by decide +kernel)
  exact ⟨by decide +kernel, (slave_answers_once regular.of_guarded).1 regular⟩

/-- The slave is active and has got as far as update 7: the parts with updates 5 and 6 are
skipped, the request is handled without an error, and neither is answered. -/
theorem slave_answer_missing :
    ¬ ∀ s, Reachable (RpcReqStep rpcReqGroups) RpcReqInit s → s.AnsweredOnce rpcReqGroups := by
  intro answered
  have start : Reachable (RpcReqStep rpcReqGroups) RpcReqInit
      (rpcReqExample ⟨.active, false, 0, 7⟩) := .start ⟨rfl, rfl, rfl, rfl, rfl, rfl⟩
  have reached := start.follow (List.replicate 13 .handle) (by decide +kernel)
  have handled := (answered _ reached).handled (by decide +kernel) 0 (by decide +kernel)
  exact absurd handled (by decide +kernel)

end FastStore.Replication
