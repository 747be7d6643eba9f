import FastStore.Recovery.ReadThread

/-!
# Runs of the binlog read thread

The records that were dealt with, the ones left in the buffer that is dealt with, and the ones in
the results on their way, in this order, are the first records of the log up to the reader.
-/

namespace FastStore.Recovery

open FastStore.Util FastStore.Storage FastStore.Binlog

variable {log : ReplicaLog} {size bufferCount : Nat}

/-! ### Batches -/

/-- The results have these batches; one without records says `ENOENT`. -/
def HoldBatches (results : Nat → Errno × List Char) (ids : List Nat)
    (batches : List (List ReplicaLogEntry)) : Prop :=
  List.Forall₂ (fun r batch =>
    results r = (if batch = [] then .enoent else .ok, binlogText batch)) ids batches

theorem HoldBatches.update {results : Nat → Errno × List Char} {ids : List Nat}
    {batches : List (List ReplicaLogEntry)} (hold : HoldBatches results ids batches) {r : Nat}
    (other : r ∉ ids) (result : Errno × List Char) :
    HoldBatches (Function.update results r result) ids batches := by
  induction hold with
  | nil => exact .nil
  | @cons id batch ids batches here rest ih =>
      have differs : id ≠ r := fun same => other (same ▸ List.mem_cons_self)
      refine .cons ?_ (ih fun member => other (List.mem_cons_of_mem _ member))
      rw [Function.update_of_ne differs]
      exact here

theorem HoldBatches.concat {results : Nat → Errno × List Char} {ids : List Nat}
    {batches : List (List ReplicaLogEntry)} (hold : HoldBatches results ids batches) {r : Nat}
    {batch : List ReplicaLogEntry}
    (last : results r = (if batch = [] then .enoent else .ok, binlogText batch)) :
    HoldBatches results (ids ++ [r]) (batches ++ [batch]) := by
  induction hold with
  | nil => exact .cons last .nil
  | cons here rest ih => exact .cons here ih

/-! ### The invariant -/

namespace ReadThread

variable {s : ReadThread}

/-- The result that is filled and not in `done` yet. -/
def filledResult (s : ReadThread) : List Nat :=
  match s.point with
  | .filled r => [r]
  | .waiting | .popped _ => []

/-- All results, but the one that the other thread has stopped with. -/
def held (s : ReadThread) : List Nat :=
  s.waiting ++ (s.readerHolds ++ (s.done ++ s.dealerHolds))

/-- What was dealt with of these records. -/
def allDealt (records : List ReplicaLogEntry) : List (ReplicaLine × Errno) :=
  records.map fun entry => (entry.record, Errno.ok)

def DealerFits (log : ReplicaLog) (s : ReadThread) (passed newer : List ReplicaLogEntry) :
    DealPoint → Prop
  | .fetching => newer = [] ∧ s.dealt = allDealt passed
  | .dealing r place => s.dealt = allDealt passed ∧
      ∃ older, s.results r = (.ok, binlogText (older ++ newer)) ∧
        place = (binlogText older).length
  | .stopped result =>
      (result = .ok → s.dealt = allDealt log.records) ∧
      (result ≠ .ok → ∃ older entry behind, log.records = older ++ entry :: behind ∧
        s.dealt = allDealt older ++ [(entry.record, result)])

/-- The records between the dealt ones and the reader. -/
structure Flow (log : ReplicaLog) (s : ReadThread) (passed newer : List ReplicaLogEntry)
    (batches : List (List ReplicaLogEntry)) : Prop where
  hold : HoldBatches s.results (s.done ++ s.filledResult) batches
  stands : ReaderAt log s.reader (passed ++ newer ++ batches.flatten)
  order : batches.Pairwise fun first second => first = [] → second = []
  ends : [] ∈ batches → passed ++ newer ++ batches.flatten = log.records
  dealer : s.DealerFits log passed newer s.dealer

structure Sound (bufferCount : Nat) (log : ReplicaLog) (s : ReadThread) : Prop where
  distinct : s.held.Nodup
  counted : (∀ result, s.dealer ≠ .stopped result) → s.held.length = bufferCount
  flow : ∃ passed newer batches, s.Flow log passed newer batches

/-- What the other thread takes is put in front. -/
theorem held_fetching {r : Nat} {rest : List Nat} (fetching : s.dealer = .fetching)
    (head : s.done = r :: rest) :
    s.held.Perm (r :: (s.waiting ++ (s.readerHolds ++ (rest ++ [])))) := by
  rw [held, dealerHolds, fetching, head, List.cons_append]
  exact (List.perm_middle.append_left _).trans List.perm_middle

theorem held_dealing {r place : Nat} (dealing : s.dealer = .dealing r place) :
    s.held.Perm (r :: (s.waiting ++ (s.readerHolds ++ (s.done ++ [])))) := by
  rw [held, dealerHolds, dealing, List.append_nil, ← List.append_assoc, ← List.append_assoc]
  exact (List.perm_append_singleton _ _).trans (List.Perm.of_eq (by rw [List.append_assoc]))

/-- A round over the line of a record. -/
theorem deal_record {r place : Nat} {older others : List ReplicaLogEntry} {entry : ReplicaLogEntry}
    (fits : entry.Fits) (result : s.results r = (.ok, binlogText (older ++ entry :: others)))
    (begins : place = (binlogText older).length) (answer : Errno) :
    s.deal r place answer =
      { s with
        dealt := s.dealt ++ [(entry.record, answer)]
        dealer :=
          if answer ≠ .ok then .stopped answer
          else .dealing r (binlogText (older ++ [entry])).length } := by
  have text : (s.results r).2.drop place = binlogText (entry :: others) := by
    rw [result, begins]
    dsimp only
    rw [binlogText_append, List.drop_left]
  have some : binlogText (entry :: others) ≠ [] :=
    List.ne_nil_of_mem (newline_mem_binlogText entry others)
  have place' : (s.results r).2.length - (binlogText others).length =
      (binlogText (older ++ [entry])).length := by
    rw [result]
    dsimp only
    rw [List.append_cons, binlogText_append, List.length_append, Nat.add_sub_cancel]
  rw [ReadThread.deal, text]
  rw [if_neg some, binlogText_cons, bufferLines_line entry.noEnd_lineBody]
  dsimp only
  rw [replicaBinlogRecordUnpack_lineBody fits]
  dsimp only
  rw [place']

namespace Sound

variable (sound : s.Sound bufferCount log)
include sound

/-- A step that moves a result from one place to another. -/
theorem moved {t : ReadThread} (perm : t.held.Perm s.held)
    (goesOn : (∀ result, t.dealer ≠ .stopped result) → ∀ result, s.dealer ≠ .stopped result)
    (flow : ∃ passed newer batches, t.Flow log passed newer batches) : t.Sound bufferCount log where
  distinct := perm.nodup_iff.mpr sound.distinct
  counted runs := perm.length_eq.trans (sound.counted (goesOn runs))
  flow := flow

/-- The other thread stops with a result. -/
theorem stops {t : ReadThread} {r : Nat} {result : Errno} (perm : s.held.Perm (r :: t.held))
    (stopped : t.dealer = .stopped result)
    (flow : ∃ passed newer batches, t.Flow log passed newer batches) : t.Sound bufferCount log where
  distinct := (List.nodup_cons.mp (perm.nodup_iff.mp sound.distinct)).2
  counted runs := absurd stopped (runs result)
  flow := flow

theorem pop {r : Nat} {rest : List Nat} (waits : s.point = .waiting)
    (head : s.waiting = r :: rest) :
    ({ s with waiting := rest, point := .popped r } : ReadThread).Sound bufferCount log := by
  obtain ⟨passed, newer, batches, flow⟩ := sound.flow
  have hold := flow.hold
  rw [filledResult, waits] at hold
  apply sound.moved
  · rw [held, held, readerHolds, readerHolds, dealerHolds, dealerHolds, waits, head]
    apply List.perm_middle
  · exact id
  · exact ⟨passed, newer, batches, hold, flow.stands, flow.order, flow.ends, flow.dealer⟩

theorem push {r : Nat} (filled : s.point = .filled r) :
    ({ s with done := s.done ++ [r], point := .waiting } : ReadThread).Sound bufferCount log := by
  obtain ⟨passed, newer, batches, flow⟩ := sound.flow
  have hold := flow.hold
  rw [filledResult, filled] at hold
  apply sound.moved
  · rw [held, held, readerHolds, readerHolds, dealerHolds, dealerHolds, filled]
    apply List.Perm.append_left
    dsimp only
    rw [List.nil_append, List.append_assoc, List.singleton_append]
    exact List.perm_middle
  · exact id
  · refine ⟨passed, newer, batches, ?_, flow.stands, flow.order, flow.ends, flow.dealer⟩
    rw [filledResult, List.append_nil]
    exact hold

/-- The read thread fills a result that nobody else has. -/
theorem fill {r : Nat} (popped : s.point = .popped r)
    (room : ReplicaLogEntry.maxRecordSize ≤ size) :
    (s.fill log size r).Sound bufferCount log := by
  obtain ⟨passed, newer, batches, flow⟩ := sound.flow
  have hold := flow.hold
  rw [filledResult, popped, List.append_nil] at hold
  have distinct := sound.distinct
  rw [held, readerHolds, popped] at distinct
  have own : (r :: (s.done ++ s.dealerHolds)).Nodup := (List.nodup_append.mp distinct).2.1
  have apart := (List.nodup_cons.mp own).1
  have notDone : r ∉ s.done := fun member => apart (List.mem_append_left _ member)
  have notDealt : r ∉ s.dealerHolds := fun member => apart (List.mem_append_right _ member)
  obtain ⟨batch, next⟩ := integralRead_spec flow.stands room
  have nothing (inside : [] ∈ batches) : batch = [] := by
    obtain ⟨behind, split⟩ := next.stands.isPrefix
    have whole := flow.ends inside
    rw [whole, List.append_assoc] at split
    exact (List.append_eq_nil_iff.mp (List.append_right_eq_self.mp split)).1
  apply sound.moved
  · rw [held, held, readerHolds, readerHolds, dealerHolds, dealerHolds, popped]
    exact List.Perm.refl _
  · exact id
  · refine ⟨passed, newer, batches ++ [batch], ?_, ?_, ?_, ?_, ?_⟩
    · apply (hold.update notDone _).concat
      rw [Function.update_self, next.errno, next.text]
    · rw [List.flatten_append, List.flatten_singleton, ← List.append_assoc]
      exact next.stands
    · apply List.pairwise_append.mpr
      refine ⟨flow.order, List.pairwise_singleton _ _, ?_⟩
      intro first inside last isLast none
      rw [List.mem_singleton.mp isLast]
      exact nothing (none ▸ inside)
    · intro inside
      rw [List.flatten_append, List.flatten_singleton, ← List.append_assoc]
      rcases List.mem_append.mp inside with before | isLast
      · rw [nothing before, List.append_nil]
        exact flow.ends before
      · have none : batch = [] := (List.mem_singleton.mp isLast).symm
        rw [none, List.append_nil]
        exact next.ends none
    · have dealer := flow.dealer
      rw [ReadThread.fill]
      dsimp only
      cases point : s.dealer with
      | dealing other place =>
          rw [point] at dealer
          rw [dealerHolds, point] at notDealt
          obtain ⟨dealt, older, result, begins⟩ := dealer
          have differs : other ≠ r := fun same => notDealt (same ▸ List.mem_singleton_self _)
          refine ⟨dealt, older, ?_, begins⟩
          dsimp only
          rw [Function.update_of_ne differs]
          exact result
      | fetching =>
          rw [point] at dealer
          exact dealer
      | stopped result =>
          rw [point] at dealer
          exact dealer

theorem fetch {r : Nat} {rest : List Nat} (fetching : s.dealer = .fetching)
    (head : s.done = r :: rest) : (s.fetch r rest).Sound bufferCount log := by
  obtain ⟨passed, newer, batches, flow⟩ := sound.flow
  have dealer := flow.dealer
  rw [fetching] at dealer
  obtain ⟨rfl, dealt⟩ := dealer
  have hold := flow.hold
  rw [head, List.cons_append] at hold
  have taken := held_fetching fetching head
  cases batches with
  | nil => cases hold
  | cons batch batches =>
      obtain ⟨here, others⟩ := List.forall₂_cons.mp hold
      obtain ⟨after, order⟩ := List.pairwise_cons.mp flow.order
      have stands := flow.stands
      rw [List.append_nil, List.flatten_cons] at stands
      by_cases none : batch = []
      · have all : batches.flatten = [] := by
          apply List.flatten_eq_nil_iff.mpr
          intro later member
          exact after later member none
        have whole := flow.ends (none ▸ List.mem_cons_self)
        rw [none, List.flatten_cons, all, List.append_nil, List.append_nil, List.append_nil]
          at whole
        rw [if_pos none] at here
        have stop : s.fetch r rest = { s with done := rest, dealer := .stopped .ok } := by
          rw [ReadThread.fetch, here, if_pos rfl]
        rw [stop]
        refine sound.stops taken rfl ⟨passed, [], batches, others, ?_, order, ?_, ?_⟩
        · rw [none, List.nil_append] at stands
          rwa [List.append_nil]
        · intro _
          rw [all, List.append_nil, List.append_nil, whole]
        · exact ⟨fun _ => whole ▸ dealt, fun other => absurd rfl other⟩
      · rw [if_neg none] at here
        have begins : s.fetch r rest = { s with done := rest, dealer := .dealing r 0 } := by
          have goesOn : Errno.ok ≠ Errno.enoent := by decide
          rw [ReadThread.fetch, here, if_neg goesOn, if_neg (not_not.mpr rfl)]
        rw [begins]
        apply sound.moved
        · exact (held_dealing rfl).trans taken.symm
        · intro _ result
          rw [fetching]
          exact nofun
        · refine ⟨passed, batch, batches, others, ?_, order, ?_, dealt, [], here, rfl⟩
          · rw [List.append_assoc]
            exact stands
          · intro inside
            have whole := flow.ends (List.mem_cons_of_mem _ inside)
            rw [List.append_nil, List.flatten_cons, ← List.append_assoc] at whole
            exact whole

/-- A round over the lines of a buffer. -/
theorem deal {r place : Nat} (dealing : s.dealer = .dealing r place) (answer : Errno) :
    (s.deal r place answer).Sound bufferCount log := by
  obtain ⟨passed, newer, batches, flow⟩ := sound.flow
  have dealer := flow.dealer
  rw [dealing] at dealer
  obtain ⟨dealt, older, result, begins⟩ := dealer
  have runs : ∀ result, s.dealer ≠ .stopped result := by
    intro result
    rw [dealing]
    exact nofun
  cases newer with
  | nil =>
      have ended : (s.results r).2.drop place = [] := by
        rw [result, begins]
        dsimp only
        rw [List.append_nil, List.drop_length]
      rw [ReadThread.deal, ended]
      rw [if_pos rfl]
      apply sound.moved
      · rw [held, held, readerHolds, readerHolds, dealerHolds, dealerHolds, dealing]
        dsimp only
        rw [List.append_nil, List.append_assoc]
        apply List.Perm.append_left
        rw [List.singleton_append, ← List.append_assoc]
        exact (List.perm_append_singleton _ _).symm
      · exact fun _ => runs
      · exact ⟨passed, [], batches, flow.hold, flow.stands, flow.order, flow.ends, rfl, dealt⟩
  | cons entry others =>
      obtain ⟨behind, split⟩ := flow.stands.isPrefix
      have whole : log.records = passed ++ entry :: (others ++ (batches.flatten ++ behind)) := by
        rw [← split, List.append_assoc, List.append_assoc, List.cons_append]
      have fits : entry.Fits :=
        log.fits entry (whole ▸ List.mem_append_right _ List.mem_cons_self :
          entry ∈ log.records)
      rw [deal_record fits result begins]
      by_cases accepted : answer = .ok
      · rw [if_neg (not_not.mpr accepted), accepted]
        apply sound.moved
        · rw [held, held, readerHolds, readerHolds, dealerHolds, dealerHolds, dealing]
        · exact fun _ => runs
        · have same : passed ++ entry :: others = (passed ++ [entry]) ++ others :=
            List.append_cons _ _ _
          refine ⟨passed ++ [entry], others, batches, flow.hold, ?_, flow.order, ?_, ?_,
            older ++ [entry], ?_, rfl⟩
          · exact same ▸ flow.stands
          · exact same ▸ flow.ends
          · dsimp only
            rw [dealt, allDealt, allDealt, List.map_append]
            rfl
          · dsimp only
            rw [result, ← List.append_cons]
      · rw [if_pos accepted]
        refine sound.stops (held_dealing dealing) rfl
          ⟨passed, entry :: others, batches, flow.hold, flow.stands, flow.order, flow.ends, ?_⟩
        refine ⟨fun isOk => absurd isOk accepted, fun _ => ?_⟩
        refine ⟨passed, entry, _, whole, ?_⟩
        dsimp only
        rw [dealt]

theorem next {action : ReadThreadAction} (enabled : s.Enabled action)
    (room : ReplicaLogEntry.maxRecordSize ≤ size) :
    (s.next log size action).Sound bufferCount log := by
  cases action with
  | pop =>
      obtain ⟨waits, some⟩ := enabled
      obtain ⟨r, rest, head⟩ := List.exists_cons_of_ne_nil some
      rw [ReadThread.next, head]
      exact sound.pop waits head
  | fill =>
      obtain ⟨r, popped⟩ := enabled
      rw [ReadThread.next, popped]
      exact sound.fill popped room
  | push =>
      obtain ⟨r, filled⟩ := enabled
      rw [ReadThread.next, filled]
      exact sound.push filled
  | fetch =>
      obtain ⟨fetching, some⟩ := enabled
      obtain ⟨r, rest, head⟩ := List.exists_cons_of_ne_nil some
      rw [ReadThread.next, head]
      exact sound.fetch fetching head
  | deal answer =>
      obtain ⟨r, place, dealing⟩ := enabled
      rw [ReadThread.next, dealing]
      exact sound.deal dealing answer

/-- The thread that deals with the records never waits for good. -/
theorem goes_on (some : 0 < bufferCount) (runs : ∀ result, s.dealer ≠ .stopped result) :
    ∃ action, s.Enabled action := by
  cases dealer : s.dealer with
  | stopped result => exact absurd dealer (runs result)
  | dealing r place => exact ⟨.deal .ok, r, place, dealer⟩
  | fetching =>
      cases point : s.point with
      | popped r => exact ⟨.fill, r, point⟩
      | filled r => exact ⟨.push, r, point⟩
      | waiting =>
          by_cases ready : s.done = []
          · refine ⟨.pop, point, ?_⟩
            intro none
            have counted := sound.counted runs
            rw [held, readerHolds, dealerHolds, point, dealer, ready, none] at counted
            exact some.ne counted
          · exact ⟨.fetch, dealer, ready⟩

/-- What the read thread fills is in no other place. -/
theorem apart {r place : Nat} (dealing : s.dealer = .dealing r place) :
    s.point ≠ .popped r ∧ s.point ≠ .filled r ∧ r ∉ s.waiting ∧ r ∉ s.done := by
  have distinct := sound.distinct
  rw [held, dealerHolds, dealing] at distinct
  obtain ⟨-, inner, outer⟩ := List.nodup_append.mp distinct
  obtain ⟨-, least, middle⟩ := List.nodup_append.mp inner
  have own : r ∈ [r] := List.mem_singleton_self r
  refine ⟨?_, ?_, ?_, ?_⟩
  · intro popped
    rw [readerHolds, popped] at middle
    exact middle r own r (List.mem_append_right _ own) rfl
  · intro filled
    rw [readerHolds, filled] at middle
    exact middle r own r (List.mem_append_right _ own) rfl
  · intro member
    exact outer r member r (List.mem_append_right _ (List.mem_append_right _ own)) rfl
  · intro member
    exact (List.nodup_append.mp least).2.2 r member r own rfl

/-- The records that were dealt with are the first ones of the log. -/
theorem dealt : ∃ older behind, log.records = older ++ behind ∧
    s.dealt.map Prod.fst = older.map ReplicaLogEntry.record := by
  have firsts (records : List ReplicaLogEntry) :
      (allDealt records).map Prod.fst = records.map ReplicaLogEntry.record := by
    rw [allDealt, List.map_map]
    rfl
  obtain ⟨passed, newer, batches, flow⟩ := sound.flow
  obtain ⟨behind, split⟩ := flow.stands.isPrefix
  have whole : log.records = passed ++ (newer ++ (batches.flatten ++ behind)) := by
    rw [← split, List.append_assoc, List.append_assoc]
  have dealer := flow.dealer
  cases point : s.dealer with
  | fetching =>
      rw [point] at dealer
      exact ⟨passed, _, whole, dealer.2 ▸ firsts passed⟩
  | dealing r place =>
      rw [point] at dealer
      exact ⟨passed, _, whole, dealer.1 ▸ firsts passed⟩
  | stopped result =>
      rw [point] at dealer
      by_cases isOk : result = .ok
      · exact ⟨log.records, [], (List.append_nil _).symm, dealer.1 isOk ▸ firsts log.records⟩
      · obtain ⟨older, entry, rest, parts, deals⟩ := dealer.2 isOk
        refine ⟨older ++ [entry], rest, ?_, ?_⟩
        · rw [parts, List.append_assoc, List.singleton_append]
        · rw [deals, List.map_append, firsts, List.map_append]
          rfl

end Sound

theorem Start.sound (start : s.Start bufferCount log) : s.Sound bufferCount log := by
  have whole : s.held = List.range bufferCount := by
    rw [held, readerHolds, dealerHolds, start.waiting, start.point, start.done, start.dealer]
    exact List.append_nil _
  obtain ⟨file, after, files⟩ : ∃ file after, log.files = file :: after :=
    List.exists_cons_of_ne_nil (List.append_ne_nil_of_right_ne_nil _ (List.cons_ne_nil _ _))
  constructor
  · rw [whole]
    exact List.nodup_range
  · intro _
    rw [whole, List.length_range]
  · refine ⟨[], [], [], ?_, ⟨[], [], file, after, files, rfl, ?_, ?_⟩, .nil, nofun, ?_⟩
    · rw [filledResult, start.done, start.point]
      exact .nil
    · rw [start.reader]
      rfl
    · rw [start.reader, openReadableBinlog, Nat.zero_min]
      rfl
    · rw [start.dealer]
      exact ⟨rfl, start.dealt⟩

theorem sound_of_reachable (room : ReplicaLogEntry.maxRecordSize ≤ size)
    (reached : Reachable (ReadThreadStep log size) (Start bufferCount log) s) :
    s.Sound bufferCount log := by
  induction reached with
  | start first => exact first.sound
  | next action _ taken ih =>
      obtain ⟨enabled, rfl⟩ := taken
      exact ih.next enabled room

/-- Whatever the order of the steps of the two threads, the records are dealt with as they are in
the log, in its order and each once; the thread that deals with them stops at the end of the log,
or with the error of a record, and can go on until then.  The buffer it is in is not read into,
and waits in no queue. -/
theorem read_thread_deals_in_order (room : ReplicaLogEntry.maxRecordSize ≤ size)
    (some : 0 < bufferCount)
    (reached : Reachable (ReadThreadStep log size) (Start bufferCount log) s) :
    (∃ older behind, log.records = older ++ behind ∧
      s.dealt.map Prod.fst = older.map ReplicaLogEntry.record) ∧
    (s.dealer = .stopped .ok → s.WholeLog log) ∧
    (∀ result, s.dealer = .stopped result → result ≠ .ok →
      ∃ before record, s.dealt = before ++ [(record, result)]) ∧
    ((∀ result, s.dealer ≠ .stopped result) → ∃ action, s.Enabled action) ∧
    ∀ r place, s.dealer = .dealing r place →
      s.point ≠ .popped r ∧ s.point ≠ .filled r ∧ r ∉ s.waiting ∧ r ∉ s.done := by
  have sound := sound_of_reachable room reached
  obtain ⟨passed, newer, batches, flow⟩ := sound.flow
  have dealer := flow.dealer
  refine ⟨sound.dealt, ?_, ?_, sound.goes_on some, fun r place => sound.apart⟩
  · intro stopped
    rw [stopped] at dealer
    exact dealer.1 rfl
  · intro result stopped failed
    rw [stopped] at dealer
    obtain ⟨older, entry, behind, -, deals⟩ := dealer.2 failed
    exact ⟨allDealt older, entry.record, deals⟩

/-! ### A log of two records -/

section Example

/-- Nothing is read yet. -/
def notRead : ReadThread :=
  ⟨openReadableBinlog FetchState.firstLog.content 0 0, fun _ => (.ok, []), List.range 2, [],
    .waiting, .fetching, []⟩

theorem start_notRead : notRead.Start 2 FetchState.firstLog := ⟨rfl, rfl, rfl, rfl, rfl, rfl⟩

/-- The end of the log is read while the first buffer is dealt with. -/
def readTwo : ReadThread :=
  [ReadThreadAction.pop, .fill, .push, .fetch, .pop, .fill, .deal .ok, .deal .ok, .deal .ok, .push,
    .fetch].foldl (next FetchState.firstLog 128) notRead

theorem reached_readTwo :
    Reachable (ReadThreadStep FetchState.firstLog 128) (Start 2 FetchState.firstLog) readTwo := by
  have start : Reachable (ReadThreadStep FetchState.firstLog 128) (Start 2 FetchState.firstLog)
      notRead := .start start_notRead
  have popped := start.act .pop ⟨rfl, by decide⟩
  have filled := popped.act .fill ⟨0, by decide +kernel⟩
  have pushed := filled.act .push ⟨0, by decide +kernel⟩
  have fetched := pushed.act .fetch ⟨by decide +kernel, by decide +kernel⟩
  have again := fetched.act .pop ⟨by decide +kernel, by decide +kernel⟩
  have ended := again.act .fill ⟨1, by decide +kernel⟩
  have first := ended.act (.deal .ok) ⟨0, 0, by decide +kernel⟩
  have second := first.act (.deal .ok) ⟨0, (writeEntry 1).line.length, by decide +kernel⟩
  have back := second.act (.deal .ok)
    ⟨0, (binlogText ([1, 3].map writeEntry)).length, by decide +kernel⟩
  have last := back.act .push ⟨1, by decide +kernel⟩
  exact last.act .fetch ⟨by decide +kernel, by decide +kernel⟩

end Example

theorem read_thread_deals_in_order_two :
    readTwo.dealer = .stopped .ok ∧ readTwo.WholeLog FetchState.firstLog := by
  have stopped : readTwo.dealer = .stopped .ok := by decide +kernel
  exact ⟨stopped, (read_thread_deals_in_order FetchState.exactRoom Nat.two_pos
    reached_readTwo).2.1 stopped⟩

end ReadThread

end FastStore.Recovery
