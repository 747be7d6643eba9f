import FastStore.Util.MemoryChains
import FastStore.Binlog.LoadOrder
import FastStore.Binlog.LogBuffers

/-!
# The threads of the slice loader

The main thread gives each read buffer to a parse thread.  A parse thread puts the records of its
buffer into a chain of its own.  When all parse threads have a buffer, or the log is at its end,
the main thread waits for them one after another, moves their records into the chains of the data
threads and pushes these to the queues.  A data thread pops all of its queue, deals with the
records and gives them back to the allocators of the parse threads.  All of these chains run
through the one pointer of the records.
-/

namespace FastStore.Binlog

open FastStore.Util FastStore.Storage

/-- What stays as it is during a load. -/
structure SliceLoader (ν : Type) where
  paths : StorePaths
  /-- `SYSTEM_CPU_COUNT / 4`, at least one. -/
  parseThreads : Nat
  dataThreads : Nat
  parseThreads_pos : 0 < parseThreads
  dataThreads_pos : 0 < dataThreads
  /-- `allocator` of a record, set when the record is made: the parse thread it belongs to. -/
  allocator : ν → Nat
  /-- The records of each allocator. -/
  elements : Nat → List ν
  elements_nodup : ∀ i, (elements i).Nodup
  elements_allocator : ∀ i, ∀ node ∈ elements i, allocator node = i
  fcQueue : FcQueue ν
  skiplist : UniqSkiplist OBSliceEntry.key

/-- Where a parse thread is: without a buffer, before `parse_buffer`, in its loop with the lines
that are left, or after an error. -/
inductive ParseWork where
  | idle
  | given (buffer : List Char)
  | parsing (lines : List (List Char × List Char))
  | stopped
  deriving DecidableEq, Repr

structure SliceParseThreadContext (ν : Type) where
  totalCount : Nat
  parseDone : Bool
  slices : Ends ν
  work : ParseWork

/-- Where a data thread is: at its queue, before the first record of `deal_records`, in the loop,
or after an error. -/
inductive DealWork (ν : Type) where
  | waiting
  | entered (head : ν)
  | dealing (record : Option ν)
  | stopped
  deriving DecidableEq, Repr

/-- `chain`, `prevAllocator` and `count` are the variables of `deal_records`. -/
structure SliceDataThreadContext (ν Queue : Type) where
  totalCount : Nat
  doneCount : Nat
  slices : Ends ν
  queue : Queue
  work : DealWork ν
  chain : List ν
  prevAllocator : Nat
  count : Nat

/-- Where the main thread is: in the loop of `binlog_loader_load_ex`, before the wait for a parse
thread, in the walk over its chain, before the push for a data thread, waiting for the data
threads at the end, or behind that. -/
inductive LoadPhase (ν : Type) where
  | reading
  | waiting (i : Nat)
  | walking (i : Nat) (record : Option ν)
  | pushing (j : Nat)
  | closing
  | finished
  deriving DecidableEq, Repr

/-- The loader and the index.  `free` are the records that an allocator or its parse thread can
give out.  `dealt` are the calls of `slice_loader_deal_record` and `returned` the records each
data thread gave to `fast_mblock_batch_free`, with the allocator it named. -/
structure LoadState {ν : Type} (loader : SliceLoader ν) where
  next : ν → Option ν
  content : ν → SliceBinlogRecord
  free : Nat → List ν
  input : List (List Char)
  phase : LoadPhase ν
  readEnded : Bool
  dealingThreads : Nat
  parseThread : Nat → SliceParseThreadContext ν
  dataThread : Nat → SliceDataThreadContext ν loader.fcQueue.Queue
  continueFlag : Bool
  index : IndexState
  dealt : List (Nat × ν × SliceBinlogRecord)
  returned : Nat → List (Nat × ν)

/-- The steps of the main thread, of the parse threads and of the data threads.  A parse thread
takes some free record of its own; `beyond` is the memory behind its buffer. -/
inductive LoadAction (ν : Type) where
  /-- `slice_parse_buffer`. -/
  | parseBuffer
  /-- `slice_binlog_read_done`. -/
  | readDone
  /-- The wait in `waiting_and_process_parse_result`. -/
  | collect
  /-- The loop of `waiting_and_process_parse_result`. -/
  | walk
  /-- The push loop of `waiting_and_process_parse_outputs`. -/
  | push
  /-- `waiting_data_threads_finish`. -/
  | finish
  /-- `parse_buffer` up to its loop, a line of it, and what is behind the loop. -/
  | beginParse (i : Nat)
  | parseLine (i : Nat) (node : ν) (beyond : List Char)
  | endParse (i : Nat)
  /-- `fc_queue_pop_all` of a data thread that finds records. -/
  | popAll (j : Nat)
  /-- A record of `deal_records`, or its end. -/
  | deal (j : Nat)

variable {ν : Type} [DecidableEq ν] {loader : SliceLoader ν}

namespace LoadState

/-- When an action can be taken. -/
def Enabled (s : LoadState loader) : LoadAction ν → Prop
  | .parseBuffer => s.phase = .reading ∧ s.input ≠ []
  | .readDone => s.phase = .reading ∧ s.input = []
  | .collect =>
      match s.phase with
      | .waiting i => i < s.dealingThreads → (s.parseThread i).parseDone = true
      | _ => False
  | .walk =>
      match s.phase with
      | .walking _ _ => True
      | _ => False
  | .push =>
      match s.phase with
      | .pushing _ => True
      | _ => False
  | .finish =>
      s.phase = .closing ∧ ∀ j < loader.dataThreads,
        (s.dataThread j).totalCount ≤ (s.dataThread j).doneCount ∧
          (s.dataThread j).work = .waiting
  | .beginParse i =>
      i < loader.parseThreads ∧
        match (s.parseThread i).work with
        | .given _ => True
        | _ => False
  | .parseLine i node _ =>
      i < loader.parseThreads ∧ node ∈ s.free i ∧
        match (s.parseThread i).work with
        | .parsing (_ :: _) => True
        | _ => False
  | .endParse i => i < loader.parseThreads ∧ (s.parseThread i).work = .parsing []
  | .popAll j =>
      j < loader.dataThreads ∧ (s.dataThread j).work = .waiting ∧
        (loader.fcQueue.popAll (s.dataThread j).queue).1 ≠ none
  | .deal j =>
      j < loader.dataThreads ∧
        match (s.dataThread j).work with
        | .entered _ => True
        | .dealing _ => True
        | _ => False

instance (s : LoadState loader) : DecidablePred s.Enabled
  | .parseBuffer => inferInstanceAs (Decidable (_ ∧ _))
  | .readDone => inferInstanceAs (Decidable (_ ∧ _))
  | .collect => by
      dsimp only [Enabled]
      split <;> infer_instance
  | .walk => by
      dsimp only [Enabled]
      split <;> infer_instance
  | .push => by
      dsimp only [Enabled]
      split <;> infer_instance
  | .finish => inferInstanceAs (Decidable (_ ∧ _))
  | .beginParse i => by
      dsimp only [Enabled]
      split <;> infer_instance
  | .parseLine i node _ => by
      dsimp only [Enabled]
      split <;> infer_instance
  | .endParse i => inferInstanceAs (Decidable (_ ∧ _))
  | .popAll j => inferInstanceAs (Decidable (_ ∧ _ ∧ _))
  | .deal j => by
      dsimp only [Enabled]
      split <;> infer_instance

/-- The data thread of a record: `hash_code % data_thread_array.count`. -/
def owner (loader : SliceLoader ν) (record : SliceBinlogRecord) : Nat :=
  record.bsKey.block.fsCalcBlockHashcode % loader.dataThreads

/-- `SLICE_ADD_TO_CHAIN` for a parse thread. -/
def addToParseThread (s : LoadState loader) (i : Nat) (node : ν) : LoadState loader :=
  { s with
    next := (s.parseThread i).slices.addNext s.next node
    parseThread := Function.update s.parseThread i
      { s.parseThread i with
        slices := (s.parseThread i).slices.add node
        totalCount := (s.parseThread i).totalCount + 1 } }

/-- `SLICE_ADD_TO_CHAIN` for a data thread. -/
def addToDataThread (s : LoadState loader) (j : Nat) (node : ν) : LoadState loader :=
  { s with
    next := (s.dataThread j).slices.addNext s.next node
    dataThread := Function.update s.dataThread j
      { s.dataThread j with
        slices := (s.dataThread j).slices.add node
        totalCount := (s.dataThread j).totalCount + 1 } }

def setParseWork (s : LoadState loader) (i : Nat) (work : ParseWork) : LoadState loader :=
  { s with
    parseThread := Function.update s.parseThread i { s.parseThread i with work := work } }

def setDataThread (s : LoadState loader) (j : Nat)
    (thread : SliceDataThreadContext ν loader.fcQueue.Queue) : LoadState loader :=
  { s with dataThread := Function.update s.dataThread j thread }

/-- `fast_mblock_batch_free(prev_allocator, &chain)` of a data thread. -/
def batchFree (s : LoadState loader) (j : Nat) : LoadState loader :=
  { s with
    free := Function.update s.free (s.dataThread j).prevAllocator
      (s.free (s.dataThread j).prevAllocator ++ (s.dataThread j).chain)
    returned := Function.update s.returned j (s.returned j ++
      (s.dataThread j).chain.map fun node => ((s.dataThread j).prevAllocator, node)) }

/-- The call of `slice_loader_deal_record`, and what a data thread does after an error. -/
def dealRecord (s : LoadState loader) (j : Nat) (node : ν) : LoadState loader :=
  { s with
    index := (sliceLoaderDealRecord loader.skiplist (s.content node) s.index).2
    dealt := s.dealt ++ [(j, node, s.content node)]
    continueFlag := s.continueFlag &&
      (sliceLoaderDealRecord loader.skiplist (s.content node) s.index).1 = .ok }

/-- The first record of `deal_records`. -/
def dealFirst (s : LoadState loader) (j : Nat) (head : ν) : LoadState loader :=
  if (sliceLoaderDealRecord loader.skiplist (s.content head) s.index).1 = .ok then
    (s.dealRecord j head).setDataThread j
      { s.dataThread j with
        chain := [head]
        prevAllocator := loader.allocator head
        count := 1
        doneCount := (s.dataThread j).doneCount + 1
        work := .dealing (s.next head) }
  else (s.dealRecord j head).setDataThread j { s.dataThread j with work := .stopped }

/-- `MBLOCK_BATCH_ALLOC_SIZE`. -/
def mblockBatchAllocSize : Nat := 1024

/-- A later record of `deal_records`. -/
def dealNext (s : LoadState loader) (j : Nat) (record : ν) : LoadState loader :=
  if (sliceLoaderDealRecord loader.skiplist (s.content record) s.index).1 = .ok then
    if loader.allocator record ≠ (s.dataThread j).prevAllocator ∨
        (s.dataThread j).count + 1 = mblockBatchAllocSize then
      ((s.dealRecord j record).batchFree j).setDataThread j
        { s.dataThread j with
          chain := [record]
          prevAllocator := loader.allocator record
          count := 1
          doneCount := (s.dataThread j).doneCount + 1
          work := .dealing (s.next record) }
    else
      (s.dealRecord j record).setDataThread j
        { s.dataThread j with
          chain := (s.dataThread j).chain ++ [record]
          count := (s.dataThread j).count + 1
          doneCount := (s.dataThread j).doneCount + 1
          work := .dealing (s.next record) }
  else (s.dealRecord j record).setDataThread j { s.dataThread j with work := .stopped }

/-- The end of `deal_records`. -/
def dealEnd (s : LoadState loader) (j : Nat) : LoadState loader :=
  (s.batchFree j).setDataThread j { s.dataThread j with chain := [], work := .waiting }

/-- The next buffer goes to the parse thread after the last one that has a buffer. -/
def giveBuffer (s : LoadState loader) (buffer : List Char) (rest : List (List Char)) :
    LoadState loader :=
  { s with
    input := rest
    parseThread := Function.update s.parseThread s.dealingThreads
      { s.parseThread s.dealingThreads with work := .given buffer, parseDone := false }
    dealingThreads := s.dealingThreads + 1
    phase := if s.dealingThreads + 1 = loader.parseThreads then .waiting 0 else .reading }

/-- A step of the walk over the chain of a parse thread. -/
def walkStep (s : LoadState loader) (i : Nat) : Option ν → LoadState loader
  | some node =>
      { s.addToDataThread (owner loader (s.content node)) node with
        phase := .walking i
          ((s.addToDataThread (owner loader (s.content node)) node).next node) }
  | none =>
      { s with
        parseThread := Function.update s.parseThread i
          { s.parseThread i with slices := Ends.empty }
        phase := .waiting (i + 1) }

/-- The push of the chain of a data thread, if there is one. -/
def pushChain (s : LoadState loader) (j : Nat) : LoadState loader :=
  if (s.dataThread j).slices.head = none then s
  else
    let pushed := loader.fcQueue.pushQueueToTail ((s.dataThread j).slices.setTail s.next none)
      (s.dataThread j).queue (s.dataThread j).slices
    { s with
      next := pushed.1
      dataThread := Function.update s.dataThread j
        { s.dataThread j with
          queue := pushed.2
          slices := Ends.empty } }

/-- A round of the push loop. -/
def pushStep (s : LoadState loader) (j : Nat) : LoadState loader :=
  if j < loader.dataThreads then { s.pushChain j with phase := .pushing (j + 1) }
  else { s with dealingThreads := 0, phase := if s.readEnded then .closing else .reading }

/-- A line of `parse_buffer`, on the record `node`. -/
def parseStep (s : LoadState loader) (i : Nat) (node : ν) (beyond : List Char)
    (line : List Char × List Char) (rest : List (List Char × List Char)) : LoadState loader :=
  let taken : LoadState loader :=
    { s with free := Function.update s.free i ((s.free i).erase node) }
  match sliceParseLineIn loader.paths line.1 (line.2 ++ beyond) with
  | some record =>
      (({ taken with content := Function.update s.content node record } :
        LoadState loader).addToParseThread i node).setParseWork i (.parsing rest)
  | none => { taken.setParseWork i .stopped with continueFlag := false }

/-- A parse thread changes neither the phase nor a data thread. -/
theorem parseStep_kept (s : LoadState loader) (i : Nat) (node : ν) (beyond : List Char)
    (line : List Char × List Char) (rest : List (List Char × List Char)) :
    (s.parseStep i node beyond line rest).phase = s.phase ∧
      (s.parseStep i node beyond line rest).dataThread = s.dataThread := by
  unfold parseStep
  dsimp only
  split <;> exact ⟨rfl, rfl⟩

/-- The end of `parse_buffer` and the report to the main thread. -/
def endParse (s : LoadState loader) (i : Nat) : LoadState loader :=
  { s with
    next := (s.parseThread i).slices.setTail s.next none
    parseThread := Function.update s.parseThread i
      { s.parseThread i with work := .idle, parseDone := true } }

/-- The state after an action. -/
def after (s : LoadState loader) : LoadAction ν → LoadState loader
  | .parseBuffer =>
      match s.input with
      | buffer :: rest => s.giveBuffer buffer rest
      | [] => s
  | .readDone =>
      { s with
        readEnded := true
        phase := if 0 < s.dealingThreads then .waiting 0 else .closing }
  | .collect =>
      match s.phase with
      | .waiting i =>
          if i < s.dealingThreads then
            { s with phase := .walking i (s.parseThread i).slices.head }
          else { s with phase := .pushing 0 }
      | _ => s
  | .walk =>
      match s.phase with
      | .walking i record => s.walkStep i record
      | _ => s
  | .push =>
      match s.phase with
      | .pushing j => s.pushStep j
      | _ => s
  | .finish => { s with phase := .finished }
  | .beginParse i =>
      match (s.parseThread i).work with
      | .given buffer =>
          { s with
            parseThread := Function.update s.parseThread i
              { s.parseThread i with slices := Ends.empty, work := .parsing (bufferLines buffer) } }
      | _ => s
  | .parseLine i node beyond =>
      match (s.parseThread i).work with
      | .parsing (line :: rest) => s.parseStep i node beyond line rest
      | _ => s
  | .endParse i => s.endParse i
  | .popAll j =>
      match loader.fcQueue.popAll (s.dataThread j).queue with
      | (some head, queue) =>
          s.setDataThread j { s.dataThread j with queue := queue, work := .entered head }
      | (none, _) => s
  | .deal j =>
      match (s.dataThread j).work with
      | .entered head => s.dealFirst j head
      | .dealing (some record) => s.dealNext j record
      | .dealing none => s.dealEnd j
      | _ => s

/-- The loader with its buffers before the first one is given out. -/
def start (loader : SliceLoader ν) (buffers : List (List Char)) (next : ν → Option ν)
    (content : ν → SliceBinlogRecord) (index : IndexState) : LoadState loader where
  next := next
  content := content
  free := loader.elements
  input := buffers
  phase := .reading
  readEnded := false
  dealingThreads := 0
  parseThread _ := ⟨0, false, Ends.empty, .idle⟩
  dataThread _ := ⟨0, 0, Ends.empty, loader.fcQueue.init, .waiting, [], 0, 0⟩
  continueFlag := true
  index := index
  dealt := []
  returned _ := []

/-- The steps of all threads. -/
def Step : StepRel (LoadState loader) (LoadAction ν) := StepRel.ofNext Enabled after

end LoadState

end FastStore.Binlog
