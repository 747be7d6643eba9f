import FastStore.Recovery.FetchRuns

/-!
# The binlog read thread

A thread of its own reads a binlog ahead, into results that go round between two queues: the read
thread takes a result from `waiting`, fills it and puts it in `done`, the thread that deals with
the records takes it from there line by line and gives it back.  No lock is held over a result, it
belongs to the thread that has taken it.  So the records are dealt with in the order of the log,
each once, and the first result that says `ENOENT` comes behind all of them.
-/

namespace FastStore.Recovery

open FastStore.Util FastStore.Storage FastStore.Binlog

/-! ## The two threads -/

/-- Where `binlog_read_thread_func` is. -/
inductive ReadPoint where
  | waiting
  | popped (r : Nat)
  /-- The result is filled, and goes to `done` next. -/
  | filled (r : Nat)
  deriving DecidableEq

/-- Where the other thread is. -/
inductive DealPoint where
  | fetching
  /-- In front of the line at this place of the buffer. -/
  | dealing (r : Nat) (place : Nat)
  | stopped (result : Errno)
  deriving DecidableEq

/-- `BinlogReadThreadContext`; a result has its `err_no` and what is in its buffer. -/
structure ReadThread where
  reader : ServerBinlogReader
  results : Nat → Errno × List Char
  waiting : List Nat
  done : List Nat
  point : ReadPoint
  dealer : DealPoint
  /-- The records that were dealt with, and what came of each. -/
  dealt : List (ReplicaLine × Errno)

inductive ReadThreadAction where
  /-- The read thread takes a result. -/
  | pop
  /-- `binlog_reader_integral_read` into its buffer. -/
  | fill
  | push
  /-- `binlog_read_thread_fetch_result`. -/
  | fetch
  /-- One round of the loop over the lines of a buffer; the record is dealt with this way. -/
  | deal (answer : Errno)

namespace ReadThread

section Steps

variable (log : ReplicaLog) (size : Nat) (s : ReadThread)

def Enabled : ReadThreadAction → Prop
  | .pop => s.point = .waiting ∧ s.waiting ≠ []
  | .fill => ∃ r, s.point = .popped r
  | .push => ∃ r, s.point = .filled r
  | .fetch => s.dealer = .fetching ∧ s.done ≠ []
  | .deal _ => ∃ r place, s.dealer = .dealing r place

/-- The reader fills the buffer of a result. -/
def fill (r : Nat) : ReadThread :=
  let read := integralRead log size s.reader
  { s with
    reader := read.2.2
    results := Function.update s.results r (read.1, read.2.1)
    point := .filled r }

/-- A result that comes out of `done`. -/
def fetch (r : Nat) (rest : List Nat) : ReadThread :=
  { s with
    done := rest
    dealer :=
      if (s.results r).1 = .enoent then .stopped .ok
      else if (s.results r).1 ≠ .ok then .stopped (s.results r).1
      else .dealing r 0 }

/-- One round over the lines; behind the last one the result is given back. -/
def deal (r place : Nat) (answer : Errno) : ReadThread :=
  let text := (s.results r).2.drop place
  if text = [] then
    { s with
      waiting := s.waiting ++ [r]
      dealer := .fetching }
  else
    match bufferLines text with
    | [] => { s with dealer := .stopped .einval }
    | (line, rest) :: _ =>
        match replicaBinlogRecordUnpack (line ++ ['\n']) with
        | none => { s with dealer := .stopped .einval }
        | some record => { s with
            dealt := s.dealt ++ [(record, answer)]
            dealer :=
              if answer ≠ .ok then .stopped answer
              else .dealing r ((s.results r).2.length - rest.length) }

def next : ReadThreadAction → ReadThread
  | .pop =>
      match s.waiting with
      | r :: rest => { s with
          waiting := rest
          point := .popped r }
      | [] => s
  | .fill =>
      match s.point with
      | .popped r => s.fill log size r
      | _ => s
  | .push =>
      match s.point with
      | .filled r => { s with
          done := s.done ++ [r]
          point := .waiting }
      | _ => s
  | .fetch =>
      match s.done with
      | r :: rest => s.fetch r rest
      | [] => s
  | .deal answer =>
      match s.dealer with
      | .dealing r place => s.deal r place answer
      | _ => s

end Steps

/-- `binlog_read_thread_init_ex` with so many results. -/
structure Start (bufferCount : Nat) (log : ReplicaLog) (s : ReadThread) : Prop where
  reader : s.reader = openReadableBinlog log.content 0 0
  waiting : s.waiting = List.range bufferCount
  done : s.done = []
  point : s.point = .waiting
  dealer : s.dealer = .fetching
  dealt : s.dealt = []

/-- Every record is dealt with, and the thread has come to the end of the log. -/
def WholeLog (log : ReplicaLog) (s : ReadThread) : Prop :=
  s.dealt = log.records.map fun entry => (entry.record, Errno.ok)

/-- The result that the read thread has taken. -/
def readerHolds (s : ReadThread) : List Nat :=
  match s.point with
  | .waiting => []
  | .popped r | .filled r => [r]

/-- The result that the other thread deals with. -/
def dealerHolds (s : ReadThread) : List Nat :=
  match s.dealer with
  | .dealing r _ => [r]
  | .fetching | .stopped _ => []

end ReadThread

def ReadThreadStep (log : ReplicaLog) (size : Nat) : StepRel ReadThread ReadThreadAction :=
  StepRel.ofNext ReadThread.Enabled (ReadThread.next log size)

end FastStore.Recovery
