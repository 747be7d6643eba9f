import FastStore.Binlog.SliceDispatch

/-!
# A parallel load equals a sequential one

Every record is at one place at a time: free, in the chain of its parse thread, in the chain or
the queue of its data thread, among the records that a data thread still has to deal with, or
among those it has still to give back.  The chains of these places run through one pointer, and a
step of any thread writes a pointer of its own chain only.  In file order the records are those
that were dispatched and then those in the chains and the buffers of the parse threads and in the
buffers that were not given out; each data thread has its share of the dispatched ones.
-/

namespace FastStore.Binlog

open FastStore.Util FastStore.Storage

/-- Where a record can be. -/
inductive LoadPlace where
  | free (i : Nat)
  | parsed (i : Nat)
  | chained (j : Nat)
  | queued (j : Nat)
  | dealing (j : Nat)
  | freeing (j : Nat)
  deriving DecidableEq

variable {ν : Type}

namespace LoadPhase

/-- The pointer of the walk over the chain of this parse thread. -/
def walked : LoadPhase ν → Nat → Option (Option ν)
  | .walking k record, i => if i = k then some record else none
  | _, _ => none

/-- The first parse thread whose records are not dispatched. -/
def first (dealingThreads : Nat) : LoadPhase ν → Nat
  | .reading => 0
  | .waiting i | .walking i _ => i
  | .pushing _ | .closing | .finished => dealingThreads

end LoadPhase

/-! ## Lines and their records -/

/-- A line that is parsed the same way whatever stands behind it. -/
def ValidLine (paths : StorePaths) (line : List Char) : Prop :=
  ∃ record, ∀ rest, sliceParseLineIn paths line rest = some record

/-- The records of lines. -/
def recordsOfLines (paths : StorePaths) (lines : List (List Char)) : List SliceBinlogRecord :=
  lines.filterMap fun line => sliceParseLineIn paths line []

/-- The records of a buffer. -/
def recordsOfBuffer (paths : StorePaths) (buffer : List Char) : List SliceBinlogRecord :=
  recordsOfLines paths ((bufferLines buffer).map Prod.fst)

namespace ParseWork

/-- The lines a parse thread has still to parse. -/
def lines : ParseWork → List (List Char)
  | .given buffer => (bufferLines buffer).map Prod.fst
  | .parsing lines => lines.map Prod.fst
  | .idle | .stopped => []

end ParseWork

/-! ## Shapes -/

/-- The chain of a parse thread, as far as it was not walked over. -/
def ParserShape (next : ν → Option ν) (walked : Option (Option ν))
    (thread : SliceParseThreadContext ν) (nodes : List ν) : Prop :=
  match walked, thread.work with
  | some record, .idle => Linked next record nodes
  | none, .idle => Linked next thread.slices.head nodes
  | none, .given _ => nodes = []
  | none, .parsing _ => Strung next thread.slices nodes
  | _, _ => False

/-- The records that a data thread has still to deal with. -/
def DealShape (next : ν → Option ν) : DealWork ν → List ν → Prop
  | .waiting, nodes => nodes = []
  | .entered head, nodes => Linked next (some head) nodes
  | .dealing record, nodes => Linked next record nodes
  | .stopped, _ => True

/-- The chains of a data thread. -/
structure DataShape (loader : SliceLoader ν) (next : ν → Option ν)
    (thread : SliceDataThreadContext ν loader.fcQueue.Queue) (chained queued dealing : List ν) :
    Prop where
  chained : Strung next thread.slices chained
  queued : loader.fcQueue.Holds next thread.queue queued
  dealing : DealShape next thread.work dealing
  unchained : (thread.work = .waiting ∨ ∃ head, thread.work = .entered head) → thread.chain = []
  homed : ∀ node ∈ thread.chain, loader.allocator node = thread.prevAllocator

section Congr

variable {next other : ν → Option ν} {loader : SliceLoader ν} {nodes chained queued dealing : List ν}

theorem ParserShape.congr {walked : Option (Option ν)} {thread : SliceParseThreadContext ν}
    (shape : ParserShape next walked thread nodes)
    (agree : ∀ node ∈ nodes, other node = next node) : ParserShape other walked thread nodes := by
  unfold ParserShape at shape ⊢
  cases walked with
  | none =>
      cases work : thread.work with
      | idle =>
          rw [work] at shape
          exact shape.congr agree
      | given buffer =>
          rw [work] at shape
          exact shape
      | parsing lines =>
          rw [work] at shape
          exact shape.congr agree
      | stopped =>
          rw [work] at shape
          exact shape
  | some record =>
      cases work : thread.work with
      | idle =>
          rw [work] at shape
          exact shape.congr agree
      | _ =>
          rw [work] at shape
          exact shape

theorem DealShape.congr {work : DealWork ν} (shape : DealShape next work nodes)
    (agree : ∀ node ∈ nodes, other node = next node) : DealShape other work nodes := by
  cases work with
  | waiting => exact shape
  | entered head => exact Linked.congr shape agree
  | dealing record => exact Linked.congr shape agree
  | stopped => trivial

theorem DataShape.congr {thread : SliceDataThreadContext ν loader.fcQueue.Queue}
    (shape : DataShape loader next thread chained queued dealing)
    (inChain : ∀ node ∈ chained, other node = next node)
    (inQueue : ∀ node ∈ queued, other node = next node)
    (inDealing : ∀ node ∈ dealing, other node = next node) :
    DataShape loader other thread chained queued dealing :=
  ⟨shape.chained.congr inChain, loader.fcQueue.holds_congr _ _ _ _ shape.queued inQueue,
    shape.dealing.congr inDealing, shape.unchained, shape.homed⟩

end Congr

variable {loader : SliceLoader ν}

/-- Every record is at its place, and the chains of the places are those of the threads. -/
structure Shapes (loader : SliceLoader ν) (next : ν → Option ν) (free : Nat → List ν)
    (phase : LoadPhase ν) (parseThread : Nat → SliceParseThreadContext ν)
    (dataThread : Nat → SliceDataThreadContext ν loader.fcQueue.Queue)
    (layout : LoadPlace → List ν) : Prop where
  disjointed : Disjointed layout
  free : ∀ i, layout (.free i) = free i
  freeing : ∀ j, layout (.freeing j) = (dataThread j).chain
  parser : ∀ i, ParserShape next (phase.walked i) (parseThread i) (layout (.parsed i))
  data : ∀ j, DataShape loader next (dataThread j) (layout (.chained j)) (layout (.queued j))
    (layout (.dealing j))

/-! ## Control -/

/-- What each phase of the main thread has finished. -/
def PhaseSound (readEnded : Bool) (dealingThreads : Nat) (chained : Nat → List ν) :
    LoadPhase ν → Prop
  | .reading => readEnded = false ∧ ∀ j, chained j = []
  | .waiting _ => True
  | .walking i _ => i < dealingThreads
  | .pushing k => ∀ j < k, chained j = []
  | .closing | .finished => readEnded = true ∧ dealingThreads = 0 ∧ ∀ j, chained j = []

/-- The parse threads that have nothing, and what the others have. -/
structure Control (loader : SliceLoader ν) (phase : LoadPhase ν) (readEnded : Bool)
    (dealingThreads : Nat) (input : List (List Char))
    (parseThread : Nat → SliceParseThreadContext ν) (layout : LoadPlace → List ν) : Prop where
  outside : ∀ i, i < phase.first dealingThreads ∨ dealingThreads ≤ i →
    (parseThread i).work = .idle ∧ layout (.parsed i) = []
  parseDone : ∀ i, (parseThread i).parseDone = true → (parseThread i).work = .idle
  valid : ∀ i, ∀ line ∈ (parseThread i).work.lines, ValidLine loader.paths line
  inputValid : ∀ buffer ∈ input, ∀ line ∈ bufferLines buffer, ValidLine loader.paths line.1
  phaseSound : PhaseSound readEnded dealingThreads (fun j => layout (.chained j)) phase
  readEnded : readEnded = true → input = []

/-! ## Accounts -/

/-- What a parse thread has parsed and what it has still to parse. -/
def parserRecords (paths : StorePaths) (content : ν → SliceBinlogRecord)
    (parseThread : Nat → SliceParseThreadContext ν) (layout : LoadPlace → List ν) (i : Nat) :
    List SliceBinlogRecord :=
  (layout (.parsed i)).map content ++ recordsOfLines paths (parseThread i).work.lines

/-- The records that were not dispatched, in file order. -/
def pendingRecords (paths : StorePaths) (content : ν → SliceBinlogRecord) (first dealing : Nat)
    (parseThread : Nat → SliceParseThreadContext ν) (input : List (List Char))
    (layout : LoadPlace → List ν) : List SliceBinlogRecord :=
  (List.range' first (dealing - first)).flatMap
    (parserRecords paths content parseThread layout) ++ input.flatMap (recordsOfBuffer paths)

/-- The records a data thread dealt with, in this order. -/
def dealtBy (dealt : List (Nat × ν × SliceBinlogRecord)) (j : Nat) :
    List (ν × SliceBinlogRecord) :=
  (dealt.filter fun call => call.1 = j).map Prod.snd

/-- The records of a data thread among these. -/
def shareOf (loader : SliceLoader ν) (j : Nat) (records : List SliceBinlogRecord) :
    List SliceBinlogRecord :=
  records.filter fun record => LoadState.owner loader record = j

/-- Each data thread has its share of the records that were dispatched. -/
structure Shares (loader : SliceLoader ν) (content : ν → SliceBinlogRecord)
    (dataThread : Nat → SliceDataThreadContext ν loader.fcQueue.Queue)
    (dealt : List (Nat × ν × SliceBinlogRecord)) (layout : LoadPlace → List ν)
    (dispatched : List SliceBinlogRecord) : Prop where
  share : ∀ j, (dealtBy dealt j).map Prod.snd ++
    (layout (.dealing j) ++ layout (.queued j) ++ layout (.chained j)).map content =
      shareOf loader j dispatched
  total : ∀ j, (dataThread j).totalCount = (shareOf loader j dispatched).length
  done : ∀ j, (dataThread j).work ≠ .stopped → (dataThread j).doneCount = (dealtBy dealt j).length

/-! ## The allocators -/

/-- A data thread has given back the records it dealt with up to those of its chain; after an error
the last record is lost. -/
def GivesBack (returned : Nat → List (Nat × ν)) (dealt : List (Nat × ν × SliceBinlogRecord))
    {Queue : Type} (j : Nat) (thread : SliceDataThreadContext ν Queue) : Prop :=
  (returned j).map Prod.snd ++ thread.chain <+: (dealtBy dealt j).map Prod.fst ∧
    (thread.work ≠ .stopped →
      (returned j).map Prod.snd ++ thread.chain = (dealtBy dealt j).map Prod.fst)

theorem GivesBack.of_eq {returned : Nat → List (Nat × ν)}
    {dealt : List (Nat × ν × SliceBinlogRecord)} {Queue : Type} {j : Nat}
    {thread : SliceDataThreadContext ν Queue}
    (equal : (returned j).map Prod.snd ++ thread.chain = (dealtBy dealt j).map Prod.fst) :
    GivesBack returned dealt j thread :=
  ⟨equal ▸ List.prefix_rfl, fun _ => equal⟩

/-- What was given back went to its own allocator, and unless a load failed no record is lost. -/
structure Ledger (loader : SliceLoader ν) (free : Nat → List ν) (continueFlag : Bool)
    (dataThread : Nat → SliceDataThreadContext ν loader.fcQueue.Queue)
    (dealt : List (Nat × ν × SliceBinlogRecord)) (returned : Nat → List (Nat × ν))
    (layout : LoadPlace → List ν) : Prop where
  named : ∀ j, ∀ entry ∈ returned j, entry.1 = loader.allocator entry.2
  givesBack : ∀ j, GivesBack returned dealt j (dataThread j)
  homed : ∀ i, ∀ node ∈ free i, loader.allocator node = i
  kept : continueFlag = true →
    ∀ node, (∃ place, node ∈ layout place) ↔ node ∈ loader.elements (loader.allocator node)

/-! ## The index -/

/-- The index is that of the records dealt with so far, and no load fails that does not fail
sequentially. -/
structure Outcome (loader : SliceLoader ν) (all : List SliceBinlogRecord) (empty : IndexState)
    (continueFlag : Bool) (index : IndexState) (dealt : List (Nat × ν × SliceBinlogRecord)) :
    Prop where
  loaded : continueFlag = true →
    dealRecords loader.skiplist (dealt.map fun call => call.2.2) empty = (.ok, index)
  goesOn : (dealRecords loader.skiplist all empty).1 = .ok → continueFlag = true

/-- What holds of every state of a load. -/
structure LoadInvariant (loader : SliceLoader ν) (all : List SliceBinlogRecord)
    (empty : IndexState) (s : LoadState loader) (layout : LoadPlace → List ν)
    (dispatched : List SliceBinlogRecord) : Prop where
  shapes : Shapes loader s.next s.free s.phase s.parseThread s.dataThread layout
  control : Control loader s.phase s.readEnded s.dealingThreads s.input s.parseThread layout
  split : all = dispatched ++ pendingRecords loader.paths s.content
    (s.phase.first s.dealingThreads) s.dealingThreads s.parseThread s.input layout
  shares : Shares loader s.content s.dataThread s.dealt layout dispatched
  ledger : Ledger loader s.free s.continueFlag s.dataThread s.dealt s.returned layout
  outcome : Outcome loader all empty s.continueFlag s.index s.dealt

/-! ## Sums over the threads -/

section Records

variable {paths : StorePaths} {content : ν → SliceBinlogRecord} {first dealing : Nat}
  {parseThread : Nat → SliceParseThreadContext ν} {input : List (List Char)}
  {layout : LoadPlace → List ν}

/-- The records of the first parse thread come first. -/
theorem pendingRecords_cons (inside : first < dealing) :
    pendingRecords paths content first dealing parseThread input layout =
      parserRecords paths content parseThread layout first ++
        pendingRecords paths content (first + 1) dealing parseThread input layout := by
  have count : dealing - first = dealing - (first + 1) + 1 := by omega
  rw [pendingRecords, count, List.range'_succ, List.flatMap_cons, List.append_assoc]
  rfl

theorem pendingRecords_nil (outside : dealing ≤ first) :
    pendingRecords paths content first dealing parseThread input layout =
      input.flatMap (recordsOfBuffer paths) := by
  rw [pendingRecords, Nat.sub_eq_zero_of_le outside]
  rfl

/-- Only the records of the parse threads in the round matter. -/
theorem pendingRecords_congr {content' : ν → SliceBinlogRecord}
    {parseThread' : Nat → SliceParseThreadContext ν} {layout' : LoadPlace → List ν}
    (same : ∀ i, first ≤ i → parserRecords paths content' parseThread' layout' i =
      parserRecords paths content parseThread layout i) :
    pendingRecords paths content' first dealing parseThread' input layout' =
      pendingRecords paths content first dealing parseThread input layout := by
  rw [pendingRecords, pendingRecords]
  congr 1
  apply List.flatMap_congr
  intro i member
  exact same i (List.mem_range'_1.mp member).1

@[simp] theorem shareOf_append (j : Nat) (left right : List SliceBinlogRecord) :
    shareOf loader j (left ++ right) = shareOf loader j left ++ shareOf loader j right :=
  List.filter_append left right

theorem shareOf_singleton (j : Nat) (record : SliceBinlogRecord) :
    shareOf loader j [record] = if LoadState.owner loader record = j then [record] else [] := by
  by_cases same : LoadState.owner loader record = j
  · simp [shareOf, same]
  · simp [shareOf, same]

@[simp] theorem dealtBy_concat (dealt : List (Nat × ν × SliceBinlogRecord)) (k j : Nat)
    (call : ν × SliceBinlogRecord) :
    dealtBy (dealt ++ [(k, call)]) j = dealtBy dealt j ++ if k = j then [call] else [] := by
  rw [dealtBy, List.filter_append, List.map_append, List.filter_singleton, dealtBy]
  by_cases same : k = j
  · simp [same]
  · simp [same]

theorem owner_lt (record : SliceBinlogRecord) : LoadState.owner loader record < loader.dataThreads :=
  Nat.mod_lt _ loader.dataThreads_pos

end Records

/-! ## The main thread -/

namespace LoadInvariant

variable {all : List SliceBinlogRecord} {empty : IndexState} {s : LoadState loader}
  {layout : LoadPlace → List ν} {dispatched : List SliceBinlogRecord}

/-- A buffer for the next parse thread. -/
theorem giveBuffer (inv : LoadInvariant loader all empty s layout dispatched)
    (phase : s.phase = .reading) {buffer : List Char} {rest : List (List Char)}
    (input : s.input = buffer :: rest) :
    LoadInvariant loader all empty (s.giveBuffer buffer rest) layout dispatched := by
  obtain ⟨idle, none⟩ := inv.control.outside s.dealingThreads (Or.inr le_rfl)
  have sound := inv.control.phaseSound
  have unread : s.readEnded ≠ true := by
    rw [phase] at sound
    rw [sound.1]
    exact Bool.false_ne_true
  have walked (i : Nat) : (s.giveBuffer buffer rest).phase.walked i = .none ∧
      s.phase.walked i = .none := by
    rw [phase]
    refine ⟨?_, rfl⟩
    dsimp only [LoadState.giveBuffer]
    split_ifs <;> rfl
  have first : (s.giveBuffer buffer rest).phase.first (s.giveBuffer buffer rest).dealingThreads
      = 0 := by
    dsimp only [LoadState.giveBuffer]
    split_ifs <;> rfl
  have thread (i : Nat) : (s.giveBuffer buffer rest).parseThread i =
      if i = s.dealingThreads then
        { s.parseThread s.dealingThreads with work := .given buffer, parseDone := false }
      else s.parseThread i := Function.update_apply _ _ _ _
  refine ⟨⟨inv.shapes.disjointed, inv.shapes.free, inv.shapes.freeing, ?_, inv.shapes.data⟩,
    ⟨?_, ?_, ?_, ?_, ?_, ?_⟩, ?_, inv.shares, inv.ledger, inv.outcome⟩
  · intro i
    have shape := inv.shapes.parser i
    rw [(walked i).2] at shape
    rw [(walked i).1, thread]
    split_ifs with same
    · rw [same]
      exact none
    · exact shape
  · intro i outside
    have behind : s.dealingThreads < i := by
      rw [first] at outside
      exact outside.resolve_left (Nat.not_lt_zero i)
    rw [thread, if_neg behind.ne']
    exact inv.control.outside i (Or.inr behind.le)
  · intro i
    rw [thread]
    split_ifs with same
    · intro impossible
      cases impossible
    · exact inv.control.parseDone i
  · intro i
    rw [thread]
    split_ifs with same
    · intro line member
      obtain ⟨pair, inside, rfl⟩ := List.mem_map.mp member
      exact inv.control.inputValid buffer (input ▸ List.mem_cons_self) pair inside
    · exact inv.control.valid i
  · intro other member
    exact inv.control.inputValid other (input ▸ List.mem_cons_of_mem _ member)
  · dsimp only [LoadState.giveBuffer]
    rw [phase] at sound
    split_ifs
    · trivial
    · exact sound
  · exact fun ended => absurd ended unread
  · have split := inv.split
    rw [phase, input] at split
    rw [split, first]
    congr 1
    have others : ∀ i ∈ List.range' 0 s.dealingThreads,
        parserRecords loader.paths s.content (s.giveBuffer buffer rest).parseThread layout i =
          parserRecords loader.paths s.content s.parseThread layout i := by
      intro i member
      have before : i ≠ s.dealingThreads := by
        have bound := (List.mem_range'_1.mp member).2
        omega
      rw [parserRecords, thread, if_neg before]
      rfl
    have last : parserRecords loader.paths s.content (s.giveBuffer buffer rest).parseThread layout
        s.dealingThreads = recordsOfBuffer loader.paths buffer := by
      rw [parserRecords, thread, if_pos rfl, none]
      rfl
    dsimp only [LoadState.giveBuffer, LoadPhase.first, pendingRecords] at others last ⊢
    rw [Nat.sub_zero, Nat.sub_zero, List.range'_concat, List.flatMap_append,
      List.flatMap_congr others, List.flatMap_cons, List.append_assoc]
    simp only [Nat.zero_add, Nat.one_mul, List.flatMap_singleton, last]

/-- The end of the log. -/
theorem readDone (inv : LoadInvariant loader all empty s layout dispatched)
    (phase : s.phase = .reading) (input : s.input = []) :
    LoadInvariant loader all empty { s with
      readEnded := true
      phase := if 0 < s.dealingThreads then .waiting 0 else .closing } layout dispatched := by
  have sound := inv.control.phaseSound
  rw [phase] at sound
  have outside := inv.control.outside
  have split := inv.split
  rw [phase] at outside split
  have first : ∀ ended : LoadPhase ν, ended =
      (if 0 < s.dealingThreads then .waiting 0 else .closing) →
        ended.first s.dealingThreads = 0 ∧ ∀ i, ended.walked i = none := by
    rintro ended rfl
    split_ifs with some
    · exact ⟨rfl, fun _ => rfl⟩
    · exact ⟨Nat.eq_zero_of_not_pos some, fun _ => rfl⟩
  obtain ⟨zero, walked⟩ := first _ rfl
  refine ⟨⟨inv.shapes.disjointed, inv.shapes.free, inv.shapes.freeing, ?_, inv.shapes.data⟩,
    ⟨?_, inv.control.parseDone, inv.control.valid, inv.control.inputValid, ?_, fun _ => input⟩,
    ?_, inv.shares, inv.ledger, inv.outcome⟩
  · intro i
    have shape := inv.shapes.parser i
    rw [phase] at shape
    rw [walked i]
    exact shape
  · intro i given
    rw [zero] at given
    exact outside i given
  · dsimp only
    split_ifs with some
    · trivial
    · exact ⟨rfl, Nat.eq_zero_of_not_pos some, sound.2⟩
  · rw [zero]
    exact split

/-- The chain of a parse thread that is done is walked from its head. -/
theorem startWalk (inv : LoadInvariant loader all empty s layout dispatched) {i : Nat}
    (phase : s.phase = .waiting i) (inside : i < s.dealingThreads)
    (done : (s.parseThread i).parseDone = true) :
    LoadInvariant loader all empty { s with
      phase := .walking i (s.parseThread i).slices.head } layout dispatched := by
  have outside := inv.control.outside
  have split := inv.split
  rw [phase] at outside split
  refine ⟨⟨inv.shapes.disjointed, inv.shapes.free, inv.shapes.freeing, ?_, inv.shapes.data⟩,
    ⟨outside, inv.control.parseDone, inv.control.valid, inv.control.inputValid, inside,
      inv.control.readEnded⟩, split, inv.shares, inv.ledger, inv.outcome⟩
  intro k
  have shape := inv.shapes.parser k
  rw [phase] at shape
  dsimp only [LoadPhase.walked] at shape ⊢
  split_ifs with same
  · rw [same] at shape ⊢
    have idle := inv.control.parseDone i done
    simp only [ParserShape, idle] at shape ⊢
    exact shape
  · exact shape

/-- All parse threads of the round are done. -/
theorem startPush (inv : LoadInvariant loader all empty s layout dispatched) {i : Nat}
    (phase : s.phase = .waiting i) (outside : s.dealingThreads ≤ i) :
    LoadInvariant loader all empty { s with phase := .pushing 0 } layout dispatched := by
  have idle := inv.control.outside
  have split := inv.split
  rw [phase] at idle split
  refine ⟨⟨inv.shapes.disjointed, inv.shapes.free, inv.shapes.freeing, ?_, inv.shapes.data⟩,
    ⟨?_, inv.control.parseDone, inv.control.valid, inv.control.inputValid,
      fun j impossible => absurd impossible (Nat.not_lt_zero j), inv.control.readEnded⟩, ?_,
    inv.shares, inv.ledger, inv.outcome⟩
  · intro k
    have shape := inv.shapes.parser k
    rw [phase] at shape
    exact shape
  · intro k _
    exact idle k (Or.symm ((Nat.lt_or_ge k i).symm.imp_left outside.trans))
  · dsimp only [LoadPhase.first] at split ⊢
    rw [pendingRecords_nil le_rfl]
    rw [pendingRecords_nil outside] at split
    exact split

/-- The chain of a parse thread was walked over. -/
theorem walkEnd [DecidableEq ν] (inv : LoadInvariant loader all empty s layout dispatched) {i : Nat}
    (phase : s.phase = .walking i none) :
    LoadInvariant loader all empty (s.walkStep i none) layout dispatched := by
  have sound := inv.control.phaseSound
  have outside := inv.control.outside
  have split := inv.split
  rw [phase] at sound outside split
  have own := inv.shapes.parser i
  rw [phase] at own
  simp only [LoadPhase.walked, if_pos] at own
  obtain ⟨idle, none⟩ : (s.parseThread i).work = .idle ∧ layout (.parsed i) = [] := by
    unfold ParserShape at own
    cases work : (s.parseThread i).work with
    | idle =>
        rw [work] at own
        cases nodes : layout (.parsed i) with
        | nil => exact ⟨rfl, rfl⟩
        | cons node rest =>
            rw [nodes] at own
            cases own.1
    | _ =>
        rw [work] at own
        exact own.elim
  have thread (k : Nat) : (s.walkStep i .none).parseThread k =
      if k = i then { s.parseThread i with slices := Ends.empty } else s.parseThread k :=
    Function.update_apply _ _ _ _
  have work (k : Nat) : ((s.walkStep i .none).parseThread k).work = (s.parseThread k).work ∧
      ((s.walkStep i .none).parseThread k).parseDone = (s.parseThread k).parseDone := by
    rw [thread]
    split_ifs with same
    · rw [same]
      exact ⟨rfl, rfl⟩
    · exact ⟨rfl, rfl⟩
  refine ⟨⟨inv.shapes.disjointed, inv.shapes.free, inv.shapes.freeing, ?_, inv.shapes.data⟩,
    ⟨?_, ?_, ?_, inv.control.inputValid, trivial, inv.control.readEnded⟩, ?_, inv.shares,
    inv.ledger, inv.outcome⟩
  · intro k
    have shape := inv.shapes.parser k
    rw [phase] at shape
    rw [thread]
    dsimp only [LoadPhase.walked, LoadState.walkStep] at shape ⊢
    split_ifs at shape ⊢ with same
    · rw [same, none]
      simp only [ParserShape, idle]
      rfl
    · exact shape
  · intro k given
    rw [(work k).1]
    by_cases same : k = i
    · rw [same]
      exact ⟨idle, none⟩
    · apply outside k
      dsimp only [LoadState.walkStep, LoadPhase.first] at given ⊢
      omega
  · intro k
    rw [(work k).1, (work k).2]
    exact inv.control.parseDone k
  · intro k
    rw [(work k).1]
    exact inv.control.valid k
  · have nothing : parserRecords loader.paths s.content s.parseThread layout i = [] := by
      rw [parserRecords, none, idle]
      rfl
    rw [LoadPhase.first, pendingRecords_cons sound, nothing, List.nil_append] at split
    rw [split]
    congr 1
    refine (pendingRecords_congr fun k _ => ?_).symm
    rw [parserRecords, (work k).1]
    rfl

/-- A round of the push loop for a data thread without a chain. -/
theorem pushNothing (inv : LoadInvariant loader all empty s layout dispatched) {j : Nat}
    (phase : s.phase = .pushing j) (none : layout (.chained j) = []) :
    LoadInvariant loader all empty { s with phase := .pushing (j + 1) } layout dispatched := by
  have sound := inv.control.phaseSound
  have outside := inv.control.outside
  have split := inv.split
  rw [phase] at sound outside split
  refine ⟨⟨inv.shapes.disjointed, inv.shapes.free, inv.shapes.freeing, ?_, inv.shapes.data⟩,
    ⟨outside, inv.control.parseDone, inv.control.valid, inv.control.inputValid, ?_,
      inv.control.readEnded⟩, split, inv.shares, inv.ledger, inv.outcome⟩
  · intro i
    have shape := inv.shapes.parser i
    rw [phase] at shape
    exact shape
  · intro k before
    rcases Nat.lt_succ_iff_lt_or_eq.mp before with earlier | same
    · exact sound k earlier
    · rw [same]
      exact none

/-- A data thread that does not exist has no share. -/
theorem chained_eq_nil (inv : LoadInvariant loader all empty s layout dispatched) {j : Nat}
    (absent : loader.dataThreads ≤ j) : layout (.chained j) = [] := by
  have share := inv.shares.share j
  have nothing : shareOf loader j dispatched = [] := by
    refine List.filter_eq_nil_iff.mpr fun record _ own => ?_
    have bound := @owner_lt ν loader record
    rw [of_decide_eq_true own] at bound
    omega
  rw [nothing] at share
  have nodes := List.map_eq_nil_iff.mp (List.append_eq_nil_iff.mp share).2
  exact (List.append_eq_nil_iff.mp nodes).2

/-- The end of a round. -/
theorem pushEnd (inv : LoadInvariant loader all empty s layout dispatched) {j : Nat}
    (phase : s.phase = .pushing j) (last : loader.dataThreads ≤ j) :
    LoadInvariant loader all empty { s with
      dealingThreads := 0
      phase := if s.readEnded then .closing else .reading } layout dispatched := by
  have sound := inv.control.phaseSound
  have outside := inv.control.outside
  have split := inv.split
  rw [phase] at sound outside split
  have idle (i : Nat) : (s.parseThread i).work = .idle ∧ layout (.parsed i) = [] :=
    outside i (Nat.lt_or_ge i s.dealingThreads)
  have unchained (k : Nat) : layout (.chained k) = [] := by
    rcases Nat.lt_or_ge k j with before | behind
    · exact sound k before
    · exact inv.chained_eq_nil (last.trans behind)
  have walked (i : Nat) : (if s.readEnded then LoadPhase.closing else .reading :
      LoadPhase ν).walked i = none := by
    split_ifs <;> rfl
  have first : (if s.readEnded then LoadPhase.closing else .reading : LoadPhase ν).first 0 = 0 := by
    split_ifs <;> rfl
  refine ⟨⟨inv.shapes.disjointed, inv.shapes.free, inv.shapes.freeing, ?_, inv.shapes.data⟩,
    ⟨fun i _ => idle i, inv.control.parseDone, inv.control.valid, inv.control.inputValid, ?_,
      inv.control.readEnded⟩, ?_, inv.shares, inv.ledger, inv.outcome⟩
  · intro i
    have shape := inv.shapes.parser i
    rw [phase] at shape
    rw [walked]
    exact shape
  · dsimp only
    split_ifs with ended
    · exact ⟨ended, rfl, unchained⟩
    · exact ⟨Bool.eq_false_iff.mpr ended, unchained⟩
  · dsimp only [LoadPhase.first] at split
    dsimp only
    rw [pendingRecords_nil le_rfl] at split
    rw [first, pendingRecords_nil le_rfl]
    exact split

/-- All data threads are done. -/
theorem finish (inv : LoadInvariant loader all empty s layout dispatched)
    (phase : s.phase = .closing) :
    LoadInvariant loader all empty { s with phase := .finished } layout dispatched := by
  have sound := inv.control.phaseSound
  have outside := inv.control.outside
  have split := inv.split
  rw [phase] at sound outside split
  refine ⟨⟨inv.shapes.disjointed, inv.shapes.free, inv.shapes.freeing, ?_, inv.shapes.data⟩,
    ⟨outside, inv.control.parseDone, inv.control.valid, inv.control.inputValid, sound,
      inv.control.readEnded⟩, split, inv.shares, inv.ledger, inv.outcome⟩
  intro i
  have shape := inv.shapes.parser i
  rw [phase] at shape
  exact shape

/-! ### Records that change places -/

variable [DecidableEq ν]

/-- A record of a parse thread goes behind the chain of its data thread. -/
theorem walkRecord (inv : LoadInvariant loader all empty s layout dispatched) {i : Nat} {node : ν}
    (phase : s.phase = .walking i (some node)) :
    ∃ rest, LoadInvariant loader all empty (s.walkStep i (some node))
      (handOn layout (.parsed i) rest (.chained (LoadState.owner loader (s.content node))) [node])
      (dispatched ++ [s.content node]) := by
  have sound := inv.control.phaseSound
  have outside := inv.control.outside
  have split := inv.split
  rw [phase] at sound outside split
  have disjointed := inv.shapes.disjointed
  have own := inv.shapes.parser i
  rw [phase] at own
  simp only [LoadPhase.walked, if_pos] at own
  obtain ⟨idle, rest, nodes, linked⟩ : (s.parseThread i).work = .idle ∧
      ∃ rest, layout (.parsed i) = node :: rest ∧ Linked s.next (s.next node) rest := by
    unfold ParserShape at own
    cases work : (s.parseThread i).work with
    | idle =>
        rw [work] at own
        cases nodes : layout (.parsed i) with
        | nil =>
            rw [nodes] at own
            cases own
        | cons first rest =>
            rw [nodes] at own
            obtain rfl := Option.some.inj own.1
            exact ⟨rfl, rest, rfl, own.2⟩
    | _ =>
        rw [work] at own
        exact own.elim
  refine ⟨rest, ?_⟩
  generalize thread : LoadState.owner loader (s.content node) = j
  have chain := (inv.shapes.data j).chained
  have here : node ∈ layout (.parsed i) := nodes ▸ List.mem_cons_self
  have fresh : node ∉ layout (.chained j) := disjointed.apart (.parsed i) (.chained j) nofun node here
  have moved : (layout (.parsed i)).Perm ([node] ++ rest) := nodes ▸ List.Perm.refl _
  have distinct : LoadPlace.parsed i ≠ .chained j := nofun
  have agree : ∀ place, place ≠ .chained j → ∀ other ∈ layout place,
      (s.dataThread j).slices.addNext s.next node other = s.next other := fun place distinct =>
    disjointed.agree (fun other absent => chain.addNext_of_notMem absent) distinct
  have kept (place : LoadPlace) (notParsed : place ≠ .parsed i) (notChained : place ≠ .chained j) :
      handOn layout (.parsed i) rest (.chained j) [node] place = layout place :=
    handOn_of_ne notParsed notChained
  have source : handOn layout (.parsed i) rest (.chained j) [node] (.parsed i) = rest :=
    handOn_source nofun
  have target : handOn layout (.parsed i) rest (.chained j) [node] (.chained j) =
      layout (.chained j) ++ [node] := handOn_target
  have data (k : Nat) : (s.walkStep i (some node)).dataThread k =
      if k = j then
        { s.dataThread j with
          slices := (s.dataThread j).slices.add node
          totalCount := (s.dataThread j).totalCount + 1 }
      else s.dataThread k := by
    rw [← thread]
    exact Function.update_apply _ _ _ _
  have next : (s.walkStep i (some node)).next = (s.dataThread j).slices.addNext s.next node := by
    rw [← thread]
    rfl
  have pointer : (s.walkStep i (some node)).phase = .walking i (s.next node) := by
    have same := agree (.parsed i) nofun node here
    rw [← thread] at same
    exact congrArg (LoadPhase.walking i) same
  constructor
  · constructor
    · exact disjointed.handOn moved distinct
    · intro k
      rw [kept (.free k) nofun nofun]
      exact inv.shapes.free k
    · intro k
      rw [kept (.freeing k) nofun nofun, data]
      split_ifs with same
      · rw [same]
        exact inv.shapes.freeing j
      · exact inv.shapes.freeing k
    · intro k
      rw [pointer, next]
      have shape := inv.shapes.parser k
      rw [phase] at shape
      by_cases same : k = i
      · subst same
        rw [source]
        simp only [LoadPhase.walked, if_pos, ParserShape, LoadState.walkStep,
          LoadState.addToDataThread, idle]
        refine linked.congr fun other member => agree (.parsed k) nofun other ?_
        exact nodes ▸ List.mem_cons_of_mem _ member
      · have apart : LoadPlace.parsed k ≠ .parsed i := fun equal => same (LoadPlace.parsed.inj equal)
        rw [kept _ apart nofun]
        simp only [LoadPhase.walked, if_neg same] at shape ⊢
        exact shape.congr (agree _ nofun)
    · intro k
      have shape := inv.shapes.data k
      rw [next, kept (.queued k) nofun nofun, kept (.dealing k) nofun nofun, data]
      split_ifs with same
      · subst same
        rw [target]
        exact ⟨chain.add (disjointed.nodup _) fresh,
          loader.fcQueue.holds_congr _ _ _ _ shape.queued (agree _ nofun),
          shape.dealing.congr (agree _ nofun), shape.unchained, shape.homed⟩
      · have apart : LoadPlace.chained k ≠ .chained j :=
          fun equal => same (LoadPlace.chained.inj equal)
        rw [kept (.chained k) nofun apart]
        exact shape.congr (agree _ apart) (agree _ nofun) (agree _ nofun)
  · refine ⟨?_, inv.control.parseDone, inv.control.valid, inv.control.inputValid, ?_,
      inv.control.readEnded⟩
    · intro k given
      rw [pointer] at given
      obtain ⟨free, none⟩ := outside k given
      refine ⟨free, ?_⟩
      by_cases same : k = i
      · rw [same, nodes] at none
        cases none
      · rw [kept _ (fun equal => same (LoadPlace.parsed.inj equal)) nofun]
        exact none
    · rw [pointer]
      exact sound
  · rw [pointer]
    have head : parserRecords loader.paths s.content s.parseThread layout i =
        s.content node :: rest.map s.content := by
      rw [parserRecords, nodes, idle]
      exact List.append_nil _
    have tail : parserRecords loader.paths s.content s.parseThread
        (handOn layout (.parsed i) rest (.chained j) [node]) i = rest.map s.content := by
      rw [parserRecords, source, idle]
      exact List.append_nil _
    have later : pendingRecords loader.paths s.content (i + 1) s.dealingThreads s.parseThread
        s.input (handOn layout (.parsed i) rest (.chained j) [node]) =
          pendingRecords loader.paths s.content (i + 1) s.dealingThreads s.parseThread s.input
            layout := by
      apply pendingRecords_congr
      intro k behind
      have apart : LoadPlace.parsed k ≠ .parsed i := by
        intro equal
        rw [LoadPlace.parsed.inj equal] at behind
        omega
      rw [parserRecords, kept _ apart nofun]
      rfl
    dsimp only [LoadPhase.first] at split ⊢
    rw [pendingRecords_cons sound, head] at split
    rw [show (s.walkStep i (some node)).dealingThreads = s.dealingThreads from rfl,
      pendingRecords_cons sound]
    change all = dispatched ++ [s.content node] ++
      (parserRecords loader.paths s.content s.parseThread _ i ++
        pendingRecords loader.paths s.content (i + 1) s.dealingThreads s.parseThread s.input _)
    rw [tail, later, split]
    simp only [List.append_assoc, List.cons_append, List.nil_append]
  · refine ⟨?_, ?_, ?_⟩
    · intro k
      have share := inv.shares.share k
      rw [kept (.dealing k) nofun nofun, kept (.queued k) nofun nofun, shareOf_append, shareOf_singleton, ← share, thread]
      by_cases same : k = j
      · subst same
        rw [target, if_pos rfl]
        simp only [List.map_append, List.append_assoc]
        rfl
      · rw [kept (.chained k) nofun fun equal => same (LoadPlace.chained.inj equal), if_neg (Ne.symm same),
          List.append_nil]
        rfl
    · intro k
      rw [data, shareOf_append, shareOf_singleton, thread, List.length_append]
      by_cases same : k = j
      · subst same
        rw [if_pos rfl, if_pos rfl, ← inv.shares.total k]
        rfl
      · rw [if_neg same, if_neg (Ne.symm same), ← inv.shares.total k]
        rfl
    · intro k
      rw [data]
      split_ifs with same
      · rw [same]
        exact inv.shares.done j
      · exact inv.shares.done k
  · refine ⟨inv.ledger.named, ?_, inv.ledger.homed, ?_⟩
    · intro k
      rw [data]
      split_ifs with same
      · rw [same]
        exact inv.ledger.givesBack j
      · exact inv.ledger.givesBack k
    · intro goes other
      rw [exists_mem_handOn_iff moved distinct]
      exact inv.ledger.kept goes other
  · exact inv.outcome

omit [DecidableEq ν] in
/-- The counters of a data thread do not depend on where its records are. -/
theorem data_of_update {dataThread : Nat → SliceDataThreadContext ν loader.fcQueue.Queue} {j : Nat}
    {changed : SliceDataThreadContext ν loader.fcQueue.Queue}
    (property : Nat → SliceDataThreadContext ν loader.fcQueue.Queue → Prop)
    (own : property j changed) (others : ∀ k, k ≠ j → property k (dataThread k)) (k : Nat) :
    property k (Function.update dataThread j changed k) := by
  rw [Function.update_apply]
  split_ifs with same
  · rw [same]
    exact own
  · exact others k same

/-- The chain of a data thread goes to its queue. -/
theorem pushRecords (inv : LoadInvariant loader all empty s layout dispatched) {j : Nat}
    (phase : s.phase = .pushing j) (some : (s.dataThread j).slices.head ≠ none) :
    LoadInvariant loader all empty { s.pushChain j with phase := .pushing (j + 1) }
      (handOn layout (.chained j) [] (.queued j) (layout (.chained j))) dispatched := by
  have sound := inv.control.phaseSound
  have outside := inv.control.outside
  have split := inv.split
  rw [phase] at sound outside split
  have disjointed := inv.shapes.disjointed
  have shape := inv.shapes.data j
  have moved : (layout (.chained j)).Perm (layout (.chained j) ++ []) := by
    rw [List.append_nil]
  have distinct : LoadPlace.chained j ≠ .queued j := nofun
  have kept (place : LoadPlace) (notChained : place ≠ .chained j) (notQueued : place ≠ .queued j) :
      handOn layout (.chained j) [] (.queued j) (layout (.chained j)) place = layout place :=
    handOn_of_ne notChained notQueued
  have source : handOn layout (.chained j) [] (.queued j) (layout (.chained j)) (.chained j) = [] :=
    handOn_source distinct
  have target : handOn layout (.chained j) [] (.queued j) (layout (.chained j)) (.queued j) =
      layout (.queued j) ++ layout (.chained j) := handOn_target
  have nodup : (layout (.queued j) ++ layout (.chained j)).Nodup := by
    rw [← target]
    exact (disjointed.handOn moved distinct).nodup (.queued j)
  have nonempty : layout (.chained j) ≠ [] := fun none =>
    some (shape.chained.head_eq_none_iff.mpr none)
  -- the chain is closed, then linked behind the queue
  have closed := shape.chained.close (disjointed.nodup (.chained j))
  have closing : ∀ place, place ≠ .chained j → ∀ node ∈ layout place,
      (s.dataThread j).slices.setTail s.next none node = s.next node := fun place apart =>
    disjointed.agree (fun node absent => shape.chained.setTail_of_notMem none absent) apart
  have queue := loader.fcQueue.holds_congr _ _ _ _ shape.queued (closing (.queued j) nofun)
  have holds := loader.fcQueue.holds_push _ _ _ _ _ queue closed shape.chained.tail nonempty nodup
  have outsideQueue := loader.fcQueue.push_outside _ _ _ _ _ queue closed shape.chained.tail
    nonempty nodup
  have agree (place : LoadPlace) (notChained : place ≠ .chained j) (notQueued : place ≠ .queued j) :
      ∀ node ∈ layout place, (loader.fcQueue.pushQueueToTail
        ((s.dataThread j).slices.setTail s.next none) (s.dataThread j).queue
        (s.dataThread j).slices).1 node = s.next node := by
    intro node member
    rw [outsideQueue, closing place notChained node member]
    intro inside
    rcases List.mem_append.mp inside with inQueue | inChain
    · exact notQueued (disjointed.eq_of_mem member inQueue)
    · exact notChained (disjointed.eq_of_mem member inChain)
  rw [LoadState.pushChain, if_neg some]
  dsimp only
  constructor
  · constructor
    · exact disjointed.handOn moved distinct
    · intro k
      rw [kept (.free k) nofun nofun]
      exact inv.shapes.free k
    · intro k
      rw [kept (.freeing k) nofun nofun]
      refine data_of_update (fun k thread => layout (.freeing k) = thread.chain) ?_ ?_ k
      · exact inv.shapes.freeing j
      · exact fun k _ => inv.shapes.freeing k
    · intro k
      have parser := inv.shapes.parser k
      rw [phase] at parser
      rw [kept (.parsed k) nofun nofun]
      exact parser.congr (agree _ nofun nofun)
    · intro k
      dsimp only
      rw [kept (.dealing k) nofun nofun, Function.update_apply]
      split_ifs with same
      · subst same
        rw [source, target]
        exact ⟨Strung.nil _, holds, shape.dealing.congr (agree _ nofun nofun), shape.unchained,
          shape.homed⟩
      · have notChained : LoadPlace.chained k ≠ .chained j :=
          fun equal => same (LoadPlace.chained.inj equal)
        have notQueued : LoadPlace.queued k ≠ .queued j :=
          fun equal => same (LoadPlace.queued.inj equal)
        rw [kept (.chained k) notChained nofun, kept (.queued k) nofun notQueued]
        exact (inv.shapes.data k).congr (agree _ notChained nofun) (agree _ nofun notQueued)
          (agree _ nofun nofun)
  · refine ⟨?_, inv.control.parseDone, inv.control.valid, inv.control.inputValid, ?_,
      inv.control.readEnded⟩
    · intro k given
      rw [kept (.parsed k) nofun nofun]
      exact outside k given
    · intro k before
      dsimp only
      rcases Nat.lt_succ_iff_lt_or_eq.mp before with earlier | same
      · rw [kept (.chained k) (fun equal => earlier.ne (LoadPlace.chained.inj equal)) nofun]
        exact sound k earlier
      · rw [same]
        exact source
  · rw [split]
    refine congrArg (dispatched ++ ·) (pendingRecords_congr fun k _ => ?_).symm
    rw [parserRecords, kept (.parsed k) nofun nofun]
    rfl
  · refine ⟨?_, ?_, ?_⟩
    · intro k
      have share := inv.shares.share k
      rw [kept (.dealing k) nofun nofun, ← share]
      by_cases same : k = j
      · subst same
        rw [source, target, List.append_nil, List.append_assoc]
      · rw [kept (.chained k) (fun equal => same (LoadPlace.chained.inj equal)) nofun,
          kept (.queued k) nofun fun equal => same (LoadPlace.queued.inj equal)]
    · refine data_of_update
        (fun k thread => thread.totalCount = (shareOf loader k dispatched).length) ?_ ?_
      · exact inv.shares.total j
      · exact fun k _ => inv.shares.total k
    · refine data_of_update (fun k thread => thread.work ≠ .stopped →
        thread.doneCount = (dealtBy s.dealt k).length) ?_ ?_
      · exact inv.shares.done j
      · exact fun k _ => inv.shares.done k
  · refine ⟨inv.ledger.named, ?_, inv.ledger.homed, ?_⟩
    · refine data_of_update (GivesBack s.returned s.dealt) ?_ ?_
      · exact inv.ledger.givesBack j
      · exact fun k _ => inv.ledger.givesBack k
    · intro goes node
      rw [exists_mem_handOn_iff moved distinct]
      exact inv.ledger.kept goes node
  · exact inv.outcome

/-! ## The parse threads -/

omit [DecidableEq ν] in
/-- `parse_buffer` up to its loop. -/
theorem beginParse (inv : LoadInvariant loader all empty s layout dispatched) {i : Nat}
    {buffer : List Char} (work : (s.parseThread i).work = .given buffer) :
    LoadInvariant loader all empty { s with
      parseThread := Function.update s.parseThread i
        { s.parseThread i with slices := Ends.empty, work := .parsing (bufferLines buffer) } }
      layout dispatched := by
  have thread (k : Nat) : Function.update s.parseThread i
      { s.parseThread i with slices := Ends.empty, work := .parsing (bufferLines buffer) } k =
      if k = i then { s.parseThread i with
        slices := Ends.empty, work := .parsing (bufferLines buffer) } else s.parseThread k :=
    Function.update_apply _ _ _ _
  refine ⟨⟨inv.shapes.disjointed, inv.shapes.free, inv.shapes.freeing, ?_, inv.shapes.data⟩,
    ⟨?_, ?_, ?_, inv.control.inputValid, inv.control.phaseSound, inv.control.readEnded⟩, ?_,
    inv.shares, inv.ledger, inv.outcome⟩
  · intro k
    have shape := inv.shapes.parser k
    dsimp only
    rw [thread]
    split_ifs with same
    · subst same
      unfold ParserShape at shape ⊢
      rw [work] at shape
      cases walked : s.phase.walked k with
      | none =>
          rw [walked] at shape
          rw [show layout (.parsed k) = [] from shape]
          exact Strung.nil s.next
      | some record =>
          rw [walked] at shape
          exact shape
    · exact shape
  · intro k given
    obtain ⟨idle, none⟩ := inv.control.outside k given
    dsimp only
    rw [thread]
    split_ifs with same
    · rw [same, work] at idle
      cases idle
    · exact ⟨idle, none⟩
  · intro k
    have idle := inv.control.parseDone k
    dsimp only
    rw [thread]
    split_ifs with same
    · intro done
      rw [same, work] at idle
      cases idle done
    · exact idle
  · intro k
    have valid := inv.control.valid k
    dsimp only
    rw [thread]
    split_ifs with same
    · rw [same, work] at valid
      exact valid
    · exact valid
  · rw [inv.split]
    congr 1
    refine (pendingRecords_congr fun k _ => ?_).symm
    dsimp only [parserRecords]
    rw [thread]
    split_ifs with same
    · rw [same, work]
      rfl
    · rfl

/-- The shape of a parse thread with lines: its chain is open, and no walk is in it. -/
theorem strung_of_parsing (inv : LoadInvariant loader all empty s layout dispatched) {i : Nat}
    {lines : List (List Char × List Char)} (work : (s.parseThread i).work = .parsing lines) :
    s.phase.walked i = none ∧
      Strung s.next (s.parseThread i).slices (layout (.parsed i)) := by
  have shape := inv.shapes.parser i
  unfold ParserShape at shape
  rw [work] at shape
  cases walked : s.phase.walked i with
  | none =>
      rw [walked] at shape
      exact ⟨rfl, shape⟩
  | some record =>
      rw [walked] at shape
      exact shape.elim

/-- The end of `parse_buffer`. -/
theorem endParse (inv : LoadInvariant loader all empty s layout dispatched) {i : Nat}
    (work : (s.parseThread i).work = .parsing []) :
    LoadInvariant loader all empty (s.endParse i) layout dispatched := by
  obtain ⟨unwalked, chain⟩ := inv.strung_of_parsing work
  have disjointed := inv.shapes.disjointed
  have agree : ∀ place, place ≠ .parsed i → ∀ node ∈ layout place,
      (s.parseThread i).slices.setTail s.next none node = s.next node := fun place apart =>
    disjointed.agree (fun node absent => chain.setTail_of_notMem none absent) apart
  have thread (k : Nat) : (s.endParse i).parseThread k =
      if k = i then { s.parseThread i with work := .idle, parseDone := true }
      else s.parseThread k := Function.update_apply _ _ _ _
  refine ⟨⟨disjointed, inv.shapes.free, inv.shapes.freeing, ?_, ?_⟩,
    ⟨?_, ?_, ?_, inv.control.inputValid, inv.control.phaseSound, inv.control.readEnded⟩, ?_,
    inv.shares, inv.ledger, inv.outcome⟩
  · intro k
    have shape := inv.shapes.parser k
    rw [thread]
    split_ifs with same
    · rw [same]
      change ParserShape _ (s.phase.walked i) _ _
      rw [unwalked]
      exact chain.close (disjointed.nodup (.parsed i))
    · exact shape.congr (agree (.parsed k) fun equal => same (LoadPlace.parsed.inj equal))
  · intro k
    exact (inv.shapes.data k).congr (agree (.chained k) nofun) (agree (.queued k) nofun)
      (agree (.dealing k) nofun)
  · intro k given
    obtain ⟨idle, none⟩ := inv.control.outside k given
    rw [thread]
    split_ifs with same
    · exact ⟨rfl, none⟩
    · exact ⟨idle, none⟩
  · intro k
    rw [thread]
    split_ifs with same
    · exact fun _ => rfl
    · exact inv.control.parseDone k
  · intro k
    rw [thread]
    split_ifs with same
    · exact List.forall_mem_nil _
    · exact inv.control.valid k
  · rw [inv.split]
    refine congrArg (dispatched ++ ·) (pendingRecords_congr fun k _ => ?_).symm
    rw [parserRecords, thread]
    split_ifs with same
    · rw [same, parserRecords, work]
      rfl
    · rfl

/-- A line of `parse_buffer`. -/
theorem parseLine (inv : LoadInvariant loader all empty s layout dispatched) {i : Nat} {node : ν}
    (taken : node ∈ s.free i) {line : List Char × List Char} {rest : List (List Char × List Char)}
    (work : (s.parseThread i).work = .parsing (line :: rest)) (beyond : List Char) :
    LoadInvariant loader all empty (s.parseStep i node beyond line rest)
      (handOn layout (.free i) ((s.free i).erase node) (.parsed i) [node]) dispatched := by
  obtain ⟨unwalked, chain⟩ := inv.strung_of_parsing work
  have disjointed := inv.shapes.disjointed
  have valid := inv.control.valid i
  rw [work] at valid
  obtain ⟨record, parsed⟩ := valid line.1 List.mem_cons_self
  have here : node ∈ layout (.free i) := by
    rw [inv.shapes.free]
    exact taken
  have moved : (layout (.free i)).Perm ([node] ++ (s.free i).erase node) := by
    rw [inv.shapes.free]
    exact List.perm_cons_erase taken
  have distinct : LoadPlace.free i ≠ .parsed i := nofun
  have fresh : node ∉ layout (.parsed i) := disjointed.apart (.free i) (.parsed i) distinct node here
  have agree : ∀ place, place ≠ .parsed i → ∀ other ∈ layout place,
      (s.parseThread i).slices.addNext s.next node other = s.next other := fun place apart =>
    disjointed.agree (fun other absent => chain.addNext_of_notMem absent) apart
  have kept (place : LoadPlace) (notFree : place ≠ .free i) (notParsed : place ≠ .parsed i) :
      handOn layout (.free i) ((s.free i).erase node) (.parsed i) [node] place = layout place :=
    handOn_of_ne notFree notParsed
  have source : handOn layout (.free i) ((s.free i).erase node) (.parsed i) [node] (.free i) =
      (s.free i).erase node := handOn_source distinct
  have target : handOn layout (.free i) ((s.free i).erase node) (.parsed i) [node] (.parsed i) =
      layout (.parsed i) ++ [node] := handOn_target
  -- the new record is written where no chain is
  have unread (place : LoadPlace) (notFree : place ≠ .free i) : (layout place).map
      (Function.update s.content node record) = (layout place).map s.content := by
    apply List.map_congr_left
    intro other member
    refine Function.update_of_ne ?_ _ _
    rintro rfl
    exact notFree (disjointed.eq_of_mem member here)
  have step : s.parseStep i node beyond line rest =
      { s with
        next := (s.parseThread i).slices.addNext s.next node
        content := Function.update s.content node record
        free := Function.update s.free i ((s.free i).erase node)
        parseThread := Function.update s.parseThread i
          { s.parseThread i with
            slices := (s.parseThread i).slices.add node
            totalCount := (s.parseThread i).totalCount + 1
            work := .parsing rest } } := by
    rw [LoadState.parseStep, parsed (line.2 ++ beyond)]
    simp only [LoadState.addToParseThread, LoadState.setParseWork, Function.update_idem,
      Function.update_self]
  have thread (k : Nat) : (s.parseStep i node beyond line rest).parseThread k =
      if k = i then { s.parseThread i with
        slices := (s.parseThread i).slices.add node
        totalCount := (s.parseThread i).totalCount + 1
        work := .parsing rest } else s.parseThread k := by
    rw [step]
    exact Function.update_apply _ _ _ _
  have free (k : Nat) : (s.parseStep i node beyond line rest).free k =
      if k = i then (s.free i).erase node else s.free k := by
    rw [step]
    exact Function.update_apply _ _ _ _
  have next : (s.parseStep i node beyond line rest).next =
      (s.parseThread i).slices.addNext s.next node := by rw [step]
  have content : (s.parseStep i node beyond line rest).content =
      Function.update s.content node record := by rw [step]
  have same : (s.parseStep i node beyond line rest).phase = s.phase ∧
      (s.parseStep i node beyond line rest).readEnded = s.readEnded ∧
      (s.parseStep i node beyond line rest).dealingThreads = s.dealingThreads ∧
      (s.parseStep i node beyond line rest).input = s.input ∧
      (s.parseStep i node beyond line rest).dataThread = s.dataThread ∧
      (s.parseStep i node beyond line rest).dealt = s.dealt ∧
      (s.parseStep i node beyond line rest).returned = s.returned ∧
      (s.parseStep i node beyond line rest).continueFlag = s.continueFlag ∧
      (s.parseStep i node beyond line rest).index = s.index := by
    rw [step]
    exact ⟨rfl, rfl, rfl, rfl, rfl, rfl, rfl, rfl, rfl⟩
  obtain ⟨phase, readEnded, dealingThreads, input, dataThread, dealt, returned, continueFlag,
    index⟩ := same
  constructor
  · rw [phase, dataThread, next]
    constructor
    · exact disjointed.handOn moved distinct
    · intro k
      rw [free]
      by_cases own : k = i
      · rw [own, if_pos rfl]
        exact source
      · rw [if_neg own, kept (.free k) (fun equal => own (LoadPlace.free.inj equal)) nofun]
        exact inv.shapes.free k
    · intro k
      rw [kept (.freeing k) nofun nofun]
      exact inv.shapes.freeing k
    · intro k
      rw [thread]
      by_cases own : k = i
      · subst own
        rw [if_pos rfl, target, unwalked]
        exact chain.add (disjointed.nodup (.parsed k)) fresh
      · have apart : LoadPlace.parsed k ≠ .parsed i := fun equal => own (LoadPlace.parsed.inj equal)
        rw [if_neg own, kept (.parsed k) nofun apart]
        exact (inv.shapes.parser k).congr (agree (.parsed k) apart)
    · intro k
      rw [kept (.chained k) nofun nofun, kept (.queued k) nofun nofun,
        kept (.dealing k) nofun nofun]
      exact (inv.shapes.data k).congr (agree (.chained k) nofun) (agree (.queued k) nofun)
        (agree (.dealing k) nofun)
  · rw [phase, readEnded, dealingThreads, input]
    refine ⟨?_, ?_, ?_, inv.control.inputValid, ?_, inv.control.readEnded⟩
    · intro k given
      obtain ⟨idle, none⟩ := inv.control.outside k given
      have own : k ≠ i := by
        rintro rfl
        rw [work] at idle
        cases idle
      rw [thread, if_neg own, kept (.parsed k) nofun fun equal => own (LoadPlace.parsed.inj equal)]
      exact ⟨idle, none⟩
    · intro k
      have done := inv.control.parseDone k
      rw [thread]
      split_ifs with own
      · intro ended
        rw [own, work] at done
        cases done ended
      · exact done
    · intro k
      rw [thread]
      split_ifs with own
      · exact fun other member => valid other (List.mem_cons_of_mem _ member)
      · exact inv.control.valid k
    · have chained : (fun j => handOn layout (.free i) ((s.free i).erase node) (.parsed i) [node]
          (.chained j)) = fun j => layout (.chained j) := by
        funext j
        exact kept (.chained j) nofun nofun
      rw [chained]
      exact inv.control.phaseSound
  · rw [phase, dealingThreads, input, content, inv.split]
    refine congrArg (dispatched ++ ·) (pendingRecords_congr fun k _ => ?_).symm
    rw [parserRecords, thread]
    by_cases own : k = i
    · subst own
      rw [if_pos rfl, target, List.map_append, unread (.parsed k) nofun, parserRecords, work,
        List.append_assoc]
      simp only [ParseWork.lines, recordsOfLines, List.map_cons, List.filterMap_cons,
        parsed [], List.map_nil, Function.update_self, List.cons_append, List.nil_append]
    · rw [if_neg own, kept (.parsed k) nofun fun equal => own (LoadPlace.parsed.inj equal),
        unread (.parsed k) nofun]
      rfl
  · rw [content, dataThread, dealt]
    refine ⟨?_, inv.shares.total, inv.shares.done⟩
    intro k
    have share := inv.shares.share k
    rw [kept (.dealing k) nofun nofun, kept (.queued k) nofun nofun, kept (.chained k) nofun nofun,
      ← share]
    simp only [List.map_append]
    rw [unread (.dealing k) nofun, unread (.queued k) nofun, unread (.chained k) nofun]
  · rw [continueFlag, dataThread, dealt, returned]
    refine ⟨inv.ledger.named, inv.ledger.givesBack, ?_, ?_⟩
    · intro k
      rw [free]
      split_ifs with own
      · intro other member
        rw [own]
        exact inv.ledger.homed i other (List.mem_of_mem_erase member)
      · exact inv.ledger.homed k
    · intro goes other
      rw [exists_mem_handOn_iff moved distinct]
      exact inv.ledger.kept goes other
  · rw [continueFlag, index, dealt]
    exact inv.outcome

end LoadInvariant

end FastStore.Binlog
