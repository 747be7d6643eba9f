import FastStore.Storage.SliceRead

/-!
# The client's read with retries

A read of a range goes to the server in chunks of the size of its buffer.  A chunk in
which nothing is covered is skipped, and is filled with zeros only when a later chunk
brings data.  When the network fails, the bytes that are complete count as read, and the
read goes on behind them on another connection.
-/

namespace FastStore.Client

open FastStore.Util FastStore.Storage

/-- The user's buffer, from the start of the whole request. -/
abbrev ReadBuffer := Nat → UInt8

/-- Bytes received to `place`. -/
def ReadBuffer.store (buff : ReadBuffer) (place : Nat) (bytes : List UInt8) : ReadBuffer :=
  fun i => if place ≤ i then bytes[i - place]?.getD (buff i) else buff i

/-- `memset` to zero. -/
def ReadBuffer.zero (buff : ReadBuffer) (place len : Nat) : ReadBuffer :=
  fun i => if place ≤ i ∧ i < place + len then 0 else buff i

/-- A network failure in a chunk: the bytes of its data that were received before, none
where the failure comes before the data, and the error. -/
structure ChunkFault where
  received : Option Nat
  result : Errno

/-- The parameters of a connection: the buffer size of its server. -/
structure ReadConnection where
  buffer_size : Nat
  positive : 0 < buffer_size

/-- What the network does to one attempt: the number of the chunk that fails and its
failure. -/
structure ReadAttempt extends ReadConnection where
  fault : Option (Nat × ChunkFault)

/-- An attempt without a failure. -/
def ReadConnection.quiet (connection : ReadConnection) : ReadAttempt := ⟨connection, none⟩

namespace ReadAttempt

/-- The failure of the chunk with the given number. -/
def faultAt (attempt : ReadAttempt) (chunk : Nat) : Option ChunkFault :=
  match attempt.fault with
  | some (number, fault) => if number = chunk then some fault else none
  | none => none

/-- Where the failure strikes a request of `length` bytes: the start of its chunk and the
error. -/
def strikes (attempt : ReadAttempt) (length : Nat) : Option (Nat × Errno) :=
  match attempt.fault with
  | some (number, fault) =>
      if number * attempt.buffer_size < length then
        some (number * attempt.buffer_size, fault.result)
      else none
  | none => none

end ReadAttempt

/-- The buffer and `hole_start`: the bytes that are complete. -/
structure ReadProgress where
  buff : ReadBuffer
  hole_start : Nat

namespace ReadProgress

/-- The data of a chunk was received: the hole before it becomes zeros. -/
def receive (progress : ReadProgress) (base buff_offset : Nat) (bytes : List UInt8) :
    ReadProgress where
  buff := (progress.buff.store (base + buff_offset) bytes).zero (base + progress.hole_start)
    (buff_offset - progress.hole_start)
  hole_start := buff_offset + bytes.length

/-- The data that came before a failure. -/
def receivePart (progress : ReadProgress) (place : Nat) (fault : ChunkFault)
    (response : Except Errno (List UInt8)) : ReadProgress :=
  match fault.received, response with
  | some received, .ok bytes =>
      { progress with buff := progress.buff.store place (bytes.take received) }
  | _, _ => progress

end ReadProgress

section Read

-- The answers of the server to the chunks.
variable (server : FSSliceSize → Except Errno (List UInt8))

/-- The loop of `fs_client_proto_slice_read_ex`; `base` is where the attempt starts in the
buffer, and `fuel` is at least `remain`. -/
def sliceReadLoop (attempt : ReadAttempt) (base : Nat) (offset : Int) :
    Nat → Nat → Nat → Nat → ReadProgress → Errno × ReadProgress
  | 0, _, _, _, progress => (.ok, progress)
  | fuel + 1, chunk, buff_offset, remain, progress =>
      if remain = 0 then (.ok, progress)
      else
        let curr_len := min remain attempt.buffer_size
        let response := server ⟨offset + buff_offset, curr_len⟩
        match attempt.faultAt chunk with
        | some fault =>
            (fault.result, progress.receivePart (base + buff_offset) fault response)
        | none =>
            match response with
            | .error result =>
                if result = .enoent then
                  sliceReadLoop attempt base offset fuel (chunk + 1) (buff_offset + curr_len)
                    (remain - curr_len) progress
                else (result, progress)
            | .ok bytes =>
                if curr_len < bytes.length then (.einval, progress)
                else
                  sliceReadLoop attempt base offset fuel (chunk + 1) (buff_offset + curr_len)
                    (remain - curr_len) (progress.receive base buff_offset bytes)

/-- `fs_client_proto_slice_read_ex`: the result and the progress, whose `hole_start` goes
into `*read_bytes`. -/
def fs_client_proto_slice_read_ex (attempt : ReadAttempt) (base : Nat) (offset : Int)
    (length : Nat) (buff : ReadBuffer) : Errno × ReadProgress :=
  let read := sliceReadLoop server attempt base offset length 0 0 length ⟨buff, 0⟩
  (if read.1 = .ok then if 0 < read.2.hole_start then .ok else .enodata else read.1, read.2)

/-- `SF_NET_RETRY_CHECK_AND_SLEEP`: which errors are retriable, and the limit. -/
structure NetRetry where
  times : Nat
  retriable : Errno → Bool
  retriable_ok : retriable .ok = false
  retriable_enodata : retriable .enodata = false

/-- The loop goes on after its failure number `i`. -/
def NetRetry.goesOn (retry : NetRetry) (i : Nat) (result : Errno) : Bool :=
  decide (i ≤ retry.times) && retry.retriable result

/-- The loop of `fs_client_slice_read_ex` over the attempts that the network troubles and
the one after them: the last result, and the progress with `*read_bytes`. -/
def sliceReadRetry (retry : NetRetry) (last : ReadConnection) (offset : Int) :
    List ReadAttempt → Nat → Errno → Nat → ReadProgress → Errno × ReadProgress
  | [], _, result, remain, progress =>
      if remain = 0 then (result, progress)
      else
        let read := fs_client_proto_slice_read_ex server last.quiet progress.hole_start
          (offset + progress.hole_start) remain progress.buff
        if read.1 = .ok then (.ok, ⟨read.2.buff, progress.hole_start + read.2.hole_start⟩)
        else (read.1, ⟨read.2.buff, progress.hole_start⟩)
  | attempt :: rest, i, result, remain, progress =>
      if remain = 0 then (result, progress)
      else
        let read := fs_client_proto_slice_read_ex server attempt progress.hole_start
          (offset + progress.hole_start) remain progress.buff
        if read.1 = .ok then (.ok, ⟨read.2.buff, progress.hole_start + read.2.hole_start⟩)
        else if retry.goesOn (i + 1) read.1 then
          sliceReadRetry retry last offset rest (i + 1) read.1 (remain - read.2.hole_start)
            ⟨read.2.buff, progress.hole_start + read.2.hole_start⟩
        else (read.1, ⟨read.2.buff, progress.hole_start⟩)

/-- What the caller gets: the code, `*read_bytes` and the bytes up to there. -/
structure ReadOutcome where
  result : Errno
  read_bytes : Nat
  bytes : List UInt8
  deriving DecidableEq

/-- `fs_client_slice_read_ex`, with a connection for every attempt. -/
def fs_client_slice_read_ex (retry : NetRetry) (attempts : List ReadAttempt)
    (last : ReadConnection) (offset : Int) (length : Nat) (buff : ReadBuffer) : ReadOutcome :=
  let read := sliceReadRetry server retry last offset attempts 0 .ok length ⟨buff, 0⟩
  ⟨if read.1 = .ok then if 0 < read.2.hole_start then .ok else .enodata else read.1,
    read.2.hole_start, (List.range read.2.hole_start).map read.2.buff⟩

end Read

section Attempt

variable {block : StoredBlock} {sl : UniqSkiplist OBSliceEntry.key}

/-- The bytes that count as complete have the content of the block. -/
def ReadProgress.Complete (progress : ReadProgress) (content : Int → Option UInt8) (base : Nat)
    (offset : Int) : Prop :=
  ∀ i < progress.hole_start, progress.buff (base + i) = (content (offset + i)).getD 0

/-- The bytes before `base` are as they were. -/
def ReadProgress.Keeps (progress : ReadProgress) (base : Nat) (buff : ReadBuffer) : Prop :=
  ∀ i < base, progress.buff i = buff i

theorem ReadBuffer.store_of_lt {buff : ReadBuffer} {place i : Nat} {bytes : List UInt8}
    (before : i < place) : buff.store place bytes i = buff i :=
  if_neg (not_le.mpr before)

theorem ReadBuffer.store_add {buff : ReadBuffer} {place i : Nat} {bytes : List UInt8}
    {byte : UInt8} (read : bytes[i]? = some byte) : buff.store place bytes (place + i) = byte := by
  rw [ReadBuffer.store, if_pos (Nat.le_add_right place i), Nat.add_sub_cancel_left, read,
    Option.getD_some]

theorem ReadBuffer.zero_of_mem {buff : ReadBuffer} {place len i : Nat} (above : place ≤ i)
    (below : i < place + len) : buff.zero place len i = 0 := if_pos ⟨above, below⟩

theorem ReadBuffer.zero_of_not_mem {buff : ReadBuffer} {place len i : Nat}
    (outside : ¬(place ≤ i ∧ i < place + len)) : buff.zero place len i = buff i := if_neg outside

namespace ReadProgress

variable {progress : ReadProgress} {base buff_offset : Nat} {offset : Int} {buff : ReadBuffer}

/-- Part of a chunk only changes the buffer from the chunk on. -/
theorem receivePart_spec (place : Nat) (fault : ChunkFault)
    (response : Except Errno (List UInt8)) :
    (progress.receivePart place fault response).hole_start = progress.hole_start ∧
      ∀ i < place, (progress.receivePart place fault response).buff i = progress.buff i := by
  cases fault with
  | mk received result =>
      cases received with
      | none => exact ⟨rfl, fun _ _ => rfl⟩
      | some received =>
          cases response with
          | error code => exact ⟨rfl, fun _ _ => rfl⟩
          | ok bytes => exact ⟨rfl, fun i before => ReadBuffer.store_of_lt before⟩

theorem Keeps.receivePart (keeps : progress.Keeps base buff) (fault : ChunkFault)
    (response : Except Errno (List UInt8)) :
    (progress.receivePart (base + buff_offset) fault response).Keeps base buff := by
  intro i before
  rw [(receivePart_spec (base + buff_offset) fault response).2 i (by omega), keeps i before]

theorem Complete.receivePart {content : Int → Option UInt8}
    (complete : progress.Complete content base offset)
    (behind : progress.hole_start ≤ buff_offset) (fault : ChunkFault)
    (response : Except Errno (List UInt8)) :
    (progress.receivePart (base + buff_offset) fault response).Complete content base offset := by
  have spec := @receivePart_spec progress (base + buff_offset) fault response
  intro i inside
  rw [spec.1] at inside
  rw [spec.2 (base + i) (by omega), complete i inside]

theorem Keeps.receive (keeps : progress.Keeps base buff) (bytes : List UInt8) :
    (progress.receive base buff_offset bytes).Keeps base buff := by
  intro i before
  have outside : ¬(base + progress.hole_start ≤ i ∧
      i < base + progress.hole_start + (buff_offset - progress.hole_start)) := by omega
  dsimp only [ReadProgress.receive]
  rw [ReadBuffer.zero_of_not_mem outside, ReadBuffer.store_of_lt (by omega), keeps i before]

/-- The data of a chunk up to its last covered byte completes the range up to there. -/
theorem Complete.receive {content : Int → Option UInt8}
    (complete : progress.Complete content base offset)
    (holeStart : progress.hole_start = coveredEnd content offset buff_offset) (n : Nat) :
    (progress.receive base buff_offset (filledValues content 0 (offset + buff_offset) n)).Complete
      content base offset := by
  have behind : progress.hole_start ≤ buff_offset := holeStart ▸ coveredEnd_le buff_offset
  intro i inside
  have short : i < buff_offset + n := by
    rw [ReadProgress.receive, length_filledValues] at inside
    exact inside
  dsimp only [ReadProgress.receive]
  by_cases inHole : progress.hole_start ≤ i ∧ i < buff_offset
  · have empty : content (offset + i) = none :=
      eq_none_of_coveredEnd_le (holeStart ▸ inHole.1) inHole.2
    rw [empty, Option.getD_none]
    exact ReadBuffer.zero_of_mem (by omega) (by omega)
  · rw [ReadBuffer.zero_of_not_mem (by omega)]
    by_cases before : i < progress.hole_start
    · rw [ReadBuffer.store_of_lt (by omega), complete i before]
    · obtain ⟨rest, rfl⟩ := Nat.exists_eq_add_of_le (by omega : buff_offset ≤ i)
      have read : (filledValues content 0 (offset + buff_offset) n)[rest]? = some _ :=
        getElem?_filledValues (by omega)
      rw [← Nat.add_assoc, ReadBuffer.store_add read, Nat.cast_add, Int.add_assoc]

end ReadProgress

theorem ReadAttempt.strikes_of_faultAt {attempt : ReadAttempt} {chunk length : Nat}
    {fault : ChunkFault} (found : attempt.faultAt chunk = some fault)
    (inside : chunk * attempt.buffer_size < length) :
    attempt.strikes length = some (chunk * attempt.buffer_size, fault.result) := by
  rw [ReadAttempt.faultAt] at found
  rw [ReadAttempt.strikes]
  cases planned : attempt.fault with
  | none =>
      rw [planned] at found
      cases found
  | some plan =>
      rw [planned] at found
      dsimp only at found ⊢
      split at found
      · rename_i same
        rw [← Option.some.inj found, same, if_pos inside]
      · cases found

/-- No chunk of a request of `length` bytes from `chunk` on fails. -/
theorem ReadAttempt.strikes_eq_none {attempt : ReadAttempt} {chunk length : Nat}
    (passed : ∀ number fault, attempt.fault = some (number, fault) → chunk ≤ number)
    (done : length ≤ chunk * attempt.buffer_size) : attempt.strikes length = none := by
  rw [ReadAttempt.strikes]
  cases planned : attempt.fault with
  | none => rfl
  | some plan =>
      have later := Nat.mul_le_mul_right attempt.buffer_size (passed plan.1 plan.2 planned)
      exact if_neg (not_lt.mpr (done.trans later))

/-- How far an attempt gets on a request of `length` bytes: to the end, or to the chunk
that fails. -/
def ReadAttempt.reach (attempt : ReadAttempt) (length : Nat) : Nat × Errno :=
  (attempt.strikes length).getD (length, .ok)

theorem ReadAttempt.reach_of_end {attempt : ReadAttempt} {chunk length buff_offset : Nat}
    (passed : ∀ number fault, attempt.fault = some (number, fault) → chunk ≤ number)
    (aligned : length ≤ chunk * attempt.buffer_size ∨ buff_offset = chunk * attempt.buffer_size)
    (ended : buff_offset = length) : attempt.reach length = (length, .ok) := by
  have done : length ≤ chunk * attempt.buffer_size := by
    cases aligned with
    | inl finished => exact finished
    | inr place => exact (ended.symm.trans place).le
  rw [ReadAttempt.reach, ReadAttempt.strikes_eq_none passed done, Option.getD_none]

/-- The loop from any chunk on. -/
theorem sliceReadLoop_spec {attempt : ReadAttempt} {base length fuel chunk buff_offset remain : Nat}
    {offset : Int} {progress : ReadProgress} {buff : ReadBuffer}
    (nonneg : 0 ≤ offset) (inBlock : offset + length ≤ fsFileBlockSize)
    (total : buff_offset + remain = length)
    (aligned : remain = 0 ∧ length ≤ chunk * attempt.buffer_size ∨
      buff_offset = chunk * attempt.buffer_size)
    (passed : ∀ number fault, attempt.fault = some (number, fault) → chunk ≤ number)
    (holeStart : progress.hole_start = coveredEnd block.content offset buff_offset)
    (complete : progress.Complete block.content base offset) (keeps : progress.Keeps base buff)
    (enough : remain ≤ fuel) :
    let read := sliceReadLoop (block.service_deal_slice_read sl) attempt base offset fuel chunk
      buff_offset remain progress
    read.1 = (attempt.reach length).2 ∧
      read.2.hole_start = coveredEnd block.content offset (attempt.reach length).1 ∧
      read.2.Complete block.content base offset ∧ read.2.Keeps base buff := by
  induction fuel generalizing chunk buff_offset remain progress with
  | zero =>
      have ended : buff_offset = length := by omega
      rw [ReadAttempt.reach_of_end passed (aligned.imp_left And.right) ended, sliceReadLoop]
      exact ⟨rfl, ended ▸ holeStart, complete, keeps⟩
  | succ fuel ih =>
      rw [sliceReadLoop]
      by_cases zero : remain = 0
      · have ended : buff_offset = length := by omega
        rw [if_pos zero, ReadAttempt.reach_of_end passed (aligned.imp_left And.right) ended]
        exact ⟨rfl, ended ▸ holeStart, complete, keeps⟩
      · have place : buff_offset = chunk * attempt.buffer_size := by
          cases aligned with
          | inl finished => exact absurd finished.1 zero
          | inr place => exact place
        have size := attempt.positive
        rw [if_neg zero]
        dsimp only
        obtain ⟨curr_len, currEq⟩ : ∃ curr_len, curr_len = min remain attempt.buffer_size :=
          ⟨_, rfl⟩
        rw [← currEq]
        cases found : attempt.faultAt chunk with
        | some fault =>
            have strikes := ReadAttempt.strikes_of_faultAt found (by omega : _ < length)
            have reach : attempt.reach length = (chunk * attempt.buffer_size, fault.result) := by
              rw [ReadAttempt.reach, strikes, Option.getD_some]
            dsimp only
            rw [reach, (ReadProgress.receivePart_spec _ fault _).1, ← place]
            exact ⟨rfl, holeStart,
              complete.receivePart (holeStart ▸ coveredEnd_le buff_offset) fault _,
              keeps.receivePart fault _⟩
        | none =>
            have nextPassed : ∀ number fault, attempt.fault = some (number, fault) →
                chunk + 1 ≤ number := by
              intro number fault planned
              have order := passed number fault planned
              refine Nat.lt_of_le_of_ne order fun same => ?_
              rw [ReadAttempt.faultAt, planned] at found
              dsimp only at found
              rw [if_pos same.symm] at found
              cases found
            have nextAligned : remain - curr_len = 0 ∧
                length ≤ (chunk + 1) * attempt.buffer_size ∨
                buff_offset + curr_len = (chunk + 1) * attempt.buffer_size := by
              rw [Nat.add_mul, Nat.one_mul, ← place]
              omega
            have nextTotal : buff_offset + curr_len + (remain - curr_len) = length := by omega
            have nextEnough : remain - curr_len ≤ fuel := by omega
            have positive : 0 < curr_len := by omega
            have answer := @StoredBlock.service_deal_slice_read_eq block sl _ _ positive
              (by omega : 0 ≤ offset + (buff_offset : Int))
              (by omega : offset + (buff_offset : Int) + curr_len ≤ fsFileBlockSize)
            have ends := @coveredEnd_add _ block.content offset buff_offset curr_len
            rw [answer]
            by_cases empty : coveredEnd block.content (offset + buff_offset) curr_len = 0
            · rw [if_pos empty] at ends ⊢
              dsimp only
              rw [if_pos rfl]
              exact ih nextTotal nextAligned nextPassed (holeStart.trans ends.symm) complete keeps
                nextEnough
            · rw [if_neg empty] at ends ⊢
              dsimp only
              have short : ¬curr_len < (filledValues block.content 0 (offset + buff_offset)
                  (coveredEnd block.content (offset + buff_offset) curr_len)).length := by
                rw [length_filledValues]
                exact not_lt.mpr (coveredEnd_le curr_len)
              have nextStart : (progress.receive base buff_offset
                  (filledValues block.content 0 (offset + buff_offset)
                    (coveredEnd block.content (offset + buff_offset) curr_len))).hole_start =
                  coveredEnd block.content offset (buff_offset + curr_len) := by
                rw [ends, ReadProgress.receive, length_filledValues]
              rw [if_neg short]
              exact ih nextTotal nextAligned nextPassed nextStart
                (complete.receive holeStart _) (keeps.receive _) nextEnough

/-- One attempt behind what is complete already. -/
theorem fs_client_proto_slice_read_ex_spec {attempt : ReadAttempt} {base length : Nat}
    {offset : Int} {buff : ReadBuffer} (nonneg : 0 ≤ offset)
    (inBlock : offset + length ≤ fsFileBlockSize) :
    let read := fs_client_proto_slice_read_ex (block.service_deal_slice_read sl) attempt base offset
      length buff
    read.1 = (if (attempt.reach length).2 = .ok then
        if 0 < coveredEnd block.content offset (attempt.reach length).1 then .ok else .enodata
      else (attempt.reach length).2) ∧
      read.2.hole_start = coveredEnd block.content offset (attempt.reach length).1 ∧
      read.2.Complete block.content base offset ∧ read.2.Keeps base buff := by
  have spec := @sliceReadLoop_spec block sl attempt base length length 0 0 length offset ⟨buff, 0⟩
    buff nonneg inBlock (Nat.zero_add length) (.inr (Nat.zero_mul _).symm)
    (fun _ _ _ => Nat.zero_le _) rfl (fun _ inside => absurd inside (Nat.not_lt_zero _))
    (fun _ _ => rfl) le_rfl
  dsimp only at spec ⊢
  rw [fs_client_proto_slice_read_ex]
  dsimp only
  rw [spec.1, spec.2.1]
  exact ⟨rfl, rfl, spec.2.2⟩

/-- What an attempt completed joins what was complete before. -/
theorem ReadProgress.Complete.join {content : Int → Option UInt8} {offset : Int}
    {progress read : ReadProgress} (complete : progress.Complete content 0 offset)
    (more : read.Complete content progress.hole_start (offset + progress.hole_start))
    (keeps : read.Keeps progress.hole_start progress.buff) :
    (ReadProgress.mk read.buff (progress.hole_start + read.hole_start)).Complete content 0
      offset := by
  intro i inside
  rw [Nat.zero_add]
  by_cases before : i < progress.hole_start
  · have old := complete i before
    rw [Nat.zero_add] at old
    rw [keeps i before, old]
  · obtain ⟨rest, rfl⟩ := Nat.exists_eq_add_of_le (not_lt.mp before)
    have fresh := more rest (by dsimp only at inside; omega)
    rw [Nat.cast_add, ← Int.add_assoc]
    exact fresh

end Attempt

section Retry

variable {block : StoredBlock} {sl : UniqSkiplist OBSliceEntry.key} {retry : NetRetry}
  {attempts : List ReadAttempt} {last : ReadConnection} {offset : Int} {length : Nat}

/-- The failures are transient: the errors are retriable, and there are no more of them
than retries. -/
structure Transient (retry : NetRetry) (attempts : List ReadAttempt) : Prop where
  times : attempts.length ≤ retry.times
  retriable : ∀ attempt ∈ attempts, ∀ number fault, attempt.fault = some (number, fault) →
    retry.retriable fault.result

/-- Every failure strikes a chunk that starts before the end of what is covered.  `done`
is what is complete before the first of the attempts. -/
def StrikesBeforeEnd (content : Int → Option UInt8) (offset : Int) (length : Nat) :
    Nat → List ReadAttempt → Prop
  | _, [] => True
  | done, attempt :: rest =>
      match attempt.strikes (length - done) with
      | none => True
      | some (place, _) =>
          done + place < coveredEnd content offset length ∧
            StrikesBeforeEnd content offset length (coveredEnd content offset (done + place)) rest

/-- The state of the retry loop: the bytes up to `hole_start` are complete, and it is the
end of what is covered among them. -/
structure RetryState (content : Int → Option UInt8) (offset : Int) (length remain : Nat)
    (progress : ReadProgress) : Prop where
  total : progress.hole_start + remain = length
  ended : coveredEnd content offset progress.hole_start = progress.hole_start
  complete : progress.Complete content 0 offset

namespace RetryState

variable {remain : Nat} {progress : ReadProgress} {content : Int → Option UInt8}

theorem hole_start_le (state : RetryState content offset length remain progress) :
    progress.hole_start ≤ coveredEnd content offset length := by
  have bound := @coveredEnd_mono _ content offset _ _
    (state.total ▸ Nat.le_add_right progress.hole_start remain)
  rw [state.ended] at bound
  exact bound

/-- The covered end of a longer part of the request, seen from what is complete. -/
theorem coveredEnd_add (state : RetryState content offset length remain progress) (place : Nat) :
    coveredEnd content offset (progress.hole_start + place) =
      progress.hole_start + coveredEnd content (offset + progress.hole_start) place := by
  rw [FastStore.Util.coveredEnd_add, state.ended]
  split
  · rename_i zero
    rw [zero, Nat.add_zero]
  · rfl

/-- An attempt that runs to the end of the request. -/
theorem finish (state : RetryState block.content offset length remain progress)
    (nonneg : 0 ≤ offset) (inBlock : offset + length ≤ fsFileBlockSize)
    {attempt : ReadAttempt} (quiet : attempt.strikes remain = none) :
    let read := fs_client_proto_slice_read_ex (block.service_deal_slice_read sl) attempt
      progress.hole_start (offset + progress.hole_start) remain progress.buff
    read.1 = (if progress.hole_start < coveredEnd block.content offset length then .ok
      else .enodata) ∧
      progress.hole_start + read.2.hole_start = coveredEnd block.content offset length ∧
      (ReadProgress.mk read.2.buff (progress.hole_start + read.2.hole_start)).Complete
        block.content 0 offset := by
  have total := state.total
  have reach : attempt.reach remain = (remain, .ok) := by
    rw [ReadAttempt.reach, quiet, Option.getD_none]
  have spec := @fs_client_proto_slice_read_ex_spec block sl attempt progress.hole_start remain
    (offset + progress.hole_start) progress.buff (by omega) (by omega)
  have ends := state.coveredEnd_add remain
  rw [state.total] at ends
  dsimp only at spec ⊢
  rw [reach] at spec
  dsimp only at spec
  refine ⟨?_, ?_, state.complete.join spec.2.2.1 spec.2.2.2⟩
  · rw [spec.1, if_pos rfl, ends]
    exact if_congr (by omega) rfl rfl
  · rw [spec.2.1, ends]

/-- An attempt that fails on the way. -/
theorem struck (state : RetryState block.content offset length remain progress)
    (nonneg : 0 ≤ offset) (inBlock : offset + length ≤ fsFileBlockSize)
    {attempt : ReadAttempt} {place : Nat} {result : Errno}
    (strikes : attempt.strikes remain = some (place, result)) (inside : place < remain)
    (failed : result ≠ .ok) :
    let read := fs_client_proto_slice_read_ex (block.service_deal_slice_read sl) attempt
      progress.hole_start (offset + progress.hole_start) remain progress.buff
    read.1 = result ∧
      progress.hole_start + read.2.hole_start =
        coveredEnd block.content offset (progress.hole_start + place) ∧
      RetryState block.content offset length (remain - read.2.hole_start)
        ⟨read.2.buff, progress.hole_start + read.2.hole_start⟩ := by
  have total := state.total
  have reach : attempt.reach remain = (place, result) := by
    rw [ReadAttempt.reach, strikes, Option.getD_some]
  have spec := @fs_client_proto_slice_read_ex_spec block sl attempt progress.hole_start remain
    (offset + progress.hole_start) progress.buff (by omega) (by omega)
  have ends := state.coveredEnd_add place
  dsimp only at spec ⊢
  rw [reach] at spec
  have bound := @coveredEnd_le _ block.content (offset + progress.hole_start) place
  have got : progress.hole_start + (fs_client_proto_slice_read_ex
      (block.service_deal_slice_read sl) attempt progress.hole_start
      (offset + progress.hole_start) remain progress.buff).2.hole_start =
      coveredEnd block.content offset (progress.hole_start + place) := by
    rw [spec.2.1, ends]
  refine ⟨?_, got, ?_, ?_, state.complete.join spec.2.2.1 spec.2.2.2⟩
  · rw [spec.1, if_neg failed]
  · dsimp only
    rw [spec.2.1]
    omega
  · dsimp only
    rw [got, coveredEnd_coveredEnd]

end RetryState

theorem ReadAttempt.strikes_spec {attempt : ReadAttempt} {place : Nat} {result : Errno}
    (strikes : attempt.strikes length = some (place, result)) :
    place < length ∧ ∃ number fault, attempt.fault = some (number, fault) ∧
      fault.result = result := by
  rw [ReadAttempt.strikes] at strikes
  cases planned : attempt.fault with
  | none =>
      rw [planned] at strikes
      cases strikes
  | some plan =>
      rw [planned] at strikes
      dsimp only at strikes
      split at strikes
      · rename_i inside
        cases strikes
        exact ⟨inside, plan.1, plan.2, rfl, rfl⟩
      · cases strikes

/-- How the retry loop ends: with everything that is covered, and without an error exactly
if `good` holds. -/
structure RetryResult (content : Int → Option UInt8) (offset : Int) (length : Nat)
    (good : Prop) (read : Errno × ReadProgress) : Prop where
  all : read.2.hole_start = coveredEnd content offset length
  complete : read.2.Complete content 0 offset
  result : read.1 = .ok ∨ read.1 = .enodata
  ok_iff : read.1 = .ok ↔ good

/-- The end of the loop in an attempt that does not fail: nothing to read is an error. -/
theorem RetryState.result {remain : Nat} {progress : ReadProgress}
    (state : RetryState block.content offset length remain progress)
    (nonneg : 0 ≤ offset) (inBlock : offset + length ≤ fsFileBlockSize)
    {attempt : ReadAttempt} (quiet : attempt.strikes remain = none) :
    let read := fs_client_proto_slice_read_ex (block.service_deal_slice_read sl) attempt
      progress.hole_start (offset + progress.hole_start) remain progress.buff
    read.1 = .ok ∧ RetryResult block.content offset length
        (progress.hole_start < coveredEnd block.content offset length)
        (.ok, ⟨read.2.buff, progress.hole_start + read.2.hole_start⟩) ∨
      read.1 = .enodata ∧ RetryResult block.content offset length
        (progress.hole_start < coveredEnd block.content offset length)
        (.enodata, ⟨read.2.buff, progress.hole_start⟩) := by
  have finished := @RetryState.finish block sl offset length remain progress state nonneg inBlock
    attempt quiet
  have bound := state.hole_start_le
  dsimp only at finished ⊢
  by_cases more : progress.hole_start < coveredEnd block.content offset length
  · rw [if_pos more] at finished
    exact .inl ⟨finished.1, finished.2.1, finished.2.2, .inl rfl, iff_of_true rfl more⟩
  · rw [if_neg more] at finished
    have all : progress.hole_start = coveredEnd block.content offset length := by omega
    have complete := finished.2.2
    rw [finished.2.1, ← all] at complete
    exact .inr ⟨finished.1, all, complete, .inr rfl, iff_of_false nofun more⟩

/-- The loop ends with everything that is covered.  Its result is right if the last
attempt had something to read. -/
theorem sliceReadRetry_spec (result : Errno) {remain i : Nat} {progress : ReadProgress}
    (nonneg : 0 ≤ offset) (inBlock : offset + length ≤ fsFileBlockSize)
    (state : RetryState block.content offset length remain progress) (positive : 0 < remain)
    (times : i + attempts.length ≤ retry.times)
    (retriable : ∀ attempt ∈ attempts, ∀ number fault, attempt.fault = some (number, fault) →
      retry.retriable fault.result) :
    RetryResult block.content offset length
      (progress.hole_start < coveredEnd block.content offset length ∧
        StrikesBeforeEnd block.content offset length progress.hole_start attempts)
      (sliceReadRetry (block.service_deal_slice_read sl) retry last offset attempts i result
        remain progress) := by
  induction attempts generalizing i result remain progress with
  | nil =>
      have ended := @RetryState.result block sl offset length remain progress state nonneg inBlock
        last.quiet rfl
      dsimp only at ended
      rw [sliceReadRetry, if_neg positive.ne', StrikesBeforeEnd, and_true]
      dsimp only
      rcases ended with ⟨code, all⟩ | ⟨code, all⟩
      · rw [code, if_pos rfl]
        exact all
      · rw [code, if_neg nofun]
        exact all
  | cons attempt rest ih =>
      have remainEq : remain = length - progress.hole_start := by
        have total := state.total
        omega
      rw [sliceReadRetry, if_neg positive.ne', StrikesBeforeEnd, ← remainEq]
      dsimp only
      cases struck : attempt.strikes remain with
      | none =>
          have ended := @RetryState.result block sl offset length remain progress state nonneg
            inBlock attempt struck
          dsimp only at ended ⊢
          rw [and_true]
          rcases ended with ⟨code, all⟩ | ⟨code, all⟩
          · rw [code, if_pos rfl]
            exact all
          · -- there is no retry after `ENODATA`
            have stops : retry.goesOn (i + 1) .enodata = false := by
              rw [NetRetry.goesOn, retry.retriable_enodata, Bool.and_false]
            rw [code, if_neg nofun, stops, if_neg nofun]
            exact all
      | some strike =>
          obtain ⟨place, code⟩ := strike
          obtain ⟨inside, number, fault, planned, codeEq⟩ := ReadAttempt.strikes_spec struck
          have transient : retry.retriable code := by
            rw [← codeEq]
            exact retriable attempt List.mem_cons_self number fault planned
          have failed : code ≠ .ok := by
            intro same
            rw [same, retry.retriable_ok] at transient
            cases transient
          have next := @RetryState.struck block sl offset length remain progress state nonneg
            inBlock attempt place code struck inside failed
          dsimp only at next ⊢
          have limit : i + 1 + rest.length ≤ retry.times := by
            rw [List.length_cons] at times
            omega
          have goesOn : retry.goesOn (i + 1) code = true := by
            rw [NetRetry.goesOn, transient, Bool.and_true]
            exact decide_eq_true (by omega)
          rw [next.1, if_neg failed, if_pos goesOn]
          have left : 0 < remain - (fs_client_proto_slice_read_ex
              (block.service_deal_slice_read sl) attempt progress.hole_start
              (offset + progress.hole_start) remain progress.buff).2.hole_start := by
            have bound := @coveredEnd_le _ block.content offset (progress.hole_start + place)
            have got := next.2.1
            omega
          have later := ih code next.2.2 left limit
            (fun other member => retriable other (List.mem_cons_of_mem _ member))
          refine ⟨later.all, later.complete, later.result, later.ok_iff.trans ?_⟩
          dsimp only
          rw [next.2.1, coveredEnd_lt_iff (by have total := state.total; omega)]
          constructor
          · rintro ⟨before, strikes⟩
            exact ⟨(Nat.le_add_right _ _).trans_lt before, before, strikes⟩
          · rintro ⟨-, before, strikes⟩
            exact ⟨before, strikes⟩

/-- What the caller gets without failures: the covered part of the range, or `ENODATA`
where nothing is covered. -/
def expectedOutcome (content : Int → Option UInt8) (offset : Int) (length : Nat) : ReadOutcome :=
  ⟨if coveredEnd content offset length = 0 then .enodata else .ok,
    coveredEnd content offset length,
    filledValues content 0 offset (coveredEnd content offset length)⟩

theorem ReadOutcome.eq_expected {content : Int → Option UInt8} {outcome : ReadOutcome}
    (read_bytes : outcome.read_bytes = coveredEnd content offset length)
    (bytes : outcome.bytes = filledValues content 0 offset (coveredEnd content offset length))
    (result : outcome.result = .ok ∨ outcome.result = .enodata)
    (ok_iff : outcome.result = .ok ↔ 0 < coveredEnd content offset length) :
    outcome = expectedOutcome content offset length := by
  have code : outcome.result =
      if coveredEnd content offset length = 0 then .enodata else .ok := by
    split
    · rename_i zero
      cases result with
      | inl ok => exact absurd zero (ok_iff.mp ok).ne'
      | inr nodata => exact nodata
    · rename_i some
      exact ok_iff.mpr (Nat.pos_of_ne_zero some)
  cases outcome
  simp only at read_bytes bytes code
  rw [expectedOutcome, read_bytes, bytes, code]

theorem fs_client_slice_read_ex_spec (nonneg : 0 ≤ offset)
    (inBlock : offset + length ≤ fsFileBlockSize) (transient : Transient retry attempts)
    (buff : ReadBuffer) :
    let read := fs_client_slice_read_ex (block.service_deal_slice_read sl) retry attempts last
      offset length buff
    read.read_bytes = coveredEnd block.content offset length ∧
      read.bytes = filledValues block.content 0 offset (coveredEnd block.content offset length) ∧
      (read.result = .ok ∨ read.result = .enodata) ∧
      (read.result = .ok ↔ 0 < coveredEnd block.content offset length ∧
        StrikesBeforeEnd block.content offset length 0 attempts) := by
  by_cases zero : length = 0
  · subst zero
    have empty : sliceReadRetry (block.service_deal_slice_read sl) retry last offset attempts 0 .ok
        0 ⟨buff, 0⟩ = (.ok, ⟨buff, 0⟩) := by
      cases attempts <;> rfl
    dsimp only [fs_client_slice_read_ex]
    rw [empty]
    exact ⟨rfl, rfl, .inr rfl, iff_of_false nofun fun both => absurd both.1 (lt_irrefl 0)⟩
  · have state : RetryState block.content offset length length ⟨buff, 0⟩ :=
      ⟨Nat.zero_add length, rfl, fun _ inside => absurd inside (Nat.not_lt_zero _)⟩
    have times : 0 + attempts.length ≤ retry.times := by
      rw [Nat.zero_add]
      exact transient.times
    have spec := @sliceReadRetry_spec block sl retry attempts last offset length .ok length 0
      ⟨buff, 0⟩ nonneg inBlock state (Nat.pos_of_ne_zero zero) times transient.retriable
    dsimp only [fs_client_slice_read_ex]
    refine ⟨spec.all, ?_, ?_, ?_⟩
    · rw [spec.all]
      apply List.map_congr_left
      intro i inside
      have complete := spec.complete i (by rw [spec.all]; exact List.mem_range.mp inside)
      rw [Nat.zero_add] at complete
      exact complete
    · cases spec.result with
      | inl code =>
          rw [code, if_pos rfl]
          exact ite_eq_or_eq _ _ _
      | inr code =>
          rw [code, if_neg nofun]
          exact .inr rfl
    · rw [← spec.ok_iff, spec.all]
      cases spec.result with
      | inl code =>
          have some := (spec.ok_iff.mp code).1
          rw [code, if_pos rfl, if_pos some]
      | inr code => rw [code, if_neg nofun]

/-- The read gives what it would give without failures, which is the covered part of the
range, exactly when nothing is covered or every failure comes before the end of what is
covered is received. -/
theorem slice_read_hides_failures_iff (block : StoredBlock) (sl : UniqSkiplist OBSliceEntry.key)
    (retry : NetRetry) (attempts : List ReadAttempt) (last cleanLast : ReadConnection)
    (offset : Int) (length : Nat) (buff cleanBuff : ReadBuffer) (nonneg : 0 ≤ offset)
    (inBlock : offset + length ≤ fsFileBlockSize) (transient : Transient retry attempts) :
    let clean := fs_client_slice_read_ex (block.service_deal_slice_read sl) retry [] cleanLast
      offset length cleanBuff
    clean = expectedOutcome block.content offset length ∧
      (fs_client_slice_read_ex (block.service_deal_slice_read sl) retry attempts last offset length
          buff = clean ↔
        (∀ i < length, block.content (offset + i) = none) ∨
          StrikesBeforeEnd block.content offset length 0 attempts) := by
  have quiet : Transient retry [] := ⟨Nat.zero_le _, fun _ member => absurd member List.not_mem_nil⟩
  have cleanSpec := @fs_client_slice_read_ex_spec block sl retry [] cleanLast offset length nonneg
    inBlock quiet cleanBuff
  have spec := @fs_client_slice_read_ex_spec block sl retry attempts last offset length nonneg
    inBlock transient buff
  have clean := ReadOutcome.eq_expected cleanSpec.1 cleanSpec.2.1 cleanSpec.2.2.1
    (cleanSpec.2.2.2.trans (and_iff_left trivial))
  refine ⟨clean, ?_⟩
  rw [clean, ← coveredEnd_eq_zero_iff]
  constructor
  · intro same
    by_cases zero : coveredEnd block.content offset length = 0
    · exact .inl zero
    · have code := congrArg ReadOutcome.result same
      rw [expectedOutcome, if_neg zero] at code
      exact .inr (spec.2.2.2.mp code).2
  · intro condition
    refine ReadOutcome.eq_expected spec.1 spec.2.1 spec.2.2.1 (spec.2.2.2.trans ?_)
    constructor
    · exact fun both => both.1
    · intro some
      cases condition with
      | inl zero => exact absurd zero some.ne'
      | inr strikes => exact ⟨some, strikes⟩

/-- Four written bytes. -/
def headSlice : OBSliceEntry where
  ob := ⟨1, 0⟩
  type := .file
  ssize := ⟨0, 4⟩
  space := ⟨0, ⟨1, 1⟩, 0, 4⟩

/-- A block of which the first four bytes are written. -/
def headBlock : StoredBlock where
  chain := [headSlice]
  laid := ⟨List.pairwise_singleton _ _, by decide⟩
  filled := by decide
  trunkByte := fun _ => 7

/-- One retry, for a timeout. -/
def oneRetry : NetRetry where
  times := 1
  retriable := fun result => result = .etimedout
  retriable_ok := rfl
  retriable_enodata := rfl

/-- An attempt that times out in the chunk with the given number. -/
def timeoutIn (chunk : Nat) (received : Option Nat) : ReadAttempt :=
  ⟨⟨4, by decide⟩, some (chunk, ⟨received, .etimedout⟩)⟩

theorem transient_timeoutIn (chunk : Nat) (received : Option Nat) :
    Transient oneRetry [timeoutIn chunk received] where
  times := le_rfl
  retriable := by
    intro attempt member number fault planned
    obtain rfl := List.mem_singleton.mp member
    cases planned
    rfl

/-- A failure in the first chunk does no harm. -/
theorem slice_read_hides_failures_first_chunk :
    let server := headBlock.service_deal_slice_read (.level0 _)
    let clean := fs_client_slice_read_ex server oneRetry [] ⟨4, by decide⟩ 0 8 fun _ => 0
    clean = expectedOutcome headBlock.content 0 8 ∧
      (fs_client_slice_read_ex server oneRetry [timeoutIn 0 (some 2)] ⟨4, by decide⟩ 0 8
          (fun _ => 0) = clean ↔
        (∀ i < 8, headBlock.content (0 + (i : Nat)) = none) ∨
          StrikesBeforeEnd headBlock.content 0 8 0 [timeoutIn 0 (some 2)]) :=
  slice_read_hides_failures_iff headBlock (.level0 _) oneRetry _ ⟨4, by decide⟩ ⟨4, by decide⟩ 0 8
    (fun _ => 0) (fun _ => 0) le_rfl (by decide) (transient_timeoutIn 0 (some 2))

/-- The first chunk brings everything there is, and the second fails: the caller gets
`ENODATA` although four bytes were read. -/
theorem slice_read_hides_failures_counterexample :
    let server := headBlock.service_deal_slice_read (.level0 _)
    Transient oneRetry [timeoutIn 1 none] ∧
      fs_client_slice_read_ex server oneRetry [] ⟨4, by decide⟩ 0 8 (fun _ => 0) =
        ⟨.ok, 4, [7, 7, 7, 7]⟩ ∧
      fs_client_slice_read_ex server oneRetry [timeoutIn 1 none] ⟨4, by decide⟩ 0 8 (fun _ => 0) =
        ⟨.enodata, 4, [7, 7, 7, 7]⟩ :=
  ⟨transient_timeoutIn 1 none, by decide +kernel, by decide +kernel⟩

end Retry

end FastStore.Client
