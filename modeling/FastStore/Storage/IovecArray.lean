import FastStore.Util.System

/-!
# Scattering read buffers over slices

A reclaim writes what it has read without copying: the buffers that the read filled
are cut into one vector of memory pieces for each slice of the write.  A buffer over
the border of two slices is cut by moving its start, so the rest of it is the first
piece of the next slice.  The running totals stay below the size of a block, to
which the range of the operation belongs.
-/

namespace FastStore.Storage

open FastStore.Util

/-- A buffer of the read pool: the memory from its pointer on, and where its data
lies in it. -/
structure AlignedReadBuffer where
  buff : Int → UInt8
  offset : Int
  length : Int

/-- `struct iovec`: `len` bytes of a memory from `base` on. -/
structure Iovec where
  memory : Int → UInt8
  base : Int
  len : Int

/-- The bytes the entry names. -/
def Iovec.bytes (iov : Iovec) : List UInt8 :=
  (List.range iov.len.toNat).map fun i : Nat => iov.memory (iov.base + i)

namespace AlignedReadBuffer

/-- `FC_SET_IOVEC` with the first `len` bytes of the buffer's data. -/
def iovec (buffer : AlignedReadBuffer) (len : Int) : Iovec := ⟨buffer.buff, buffer.offset, len⟩

/-- The data of the buffer. -/
def bytes (buffer : AlignedReadBuffer) : List UInt8 := (buffer.iovec buffer.length).bytes

/-- The buffer after its first `len` bytes were given away. -/
def cut (buffer : AlignedReadBuffer) (len remain : Int) : AlignedReadBuffer :=
  { buffer with
    offset := buffer.offset + len
    length := remain }

end AlignedReadBuffer

/-- The inner loop of `write_iovec_array`: the entries for the current slice, the
buffers that are left, and `buffer_total_length`. -/
def scatterSlice (sliceTotal : Int) :
    Int → List AlignedReadBuffer → List Iovec × List AlignedReadBuffer × Int
  | bufferTotal, [] => ([], [], bufferTotal)
  | bufferTotal, buffer :: rest =>
      let total := bufferTotal + buffer.length
      if total ≤ sliceTotal then
        if total = sliceTotal then ([buffer.iovec buffer.length], rest, total)
        else
          let later := scatterSlice sliceTotal total rest
          (buffer.iovec buffer.length :: later.1, later.2)
      else
        -- the buffer reaches into the next slice
        let remain := total - sliceTotal
        let len := buffer.length - remain
        ([buffer.iovec len], buffer.cut len remain :: rest, sliceTotal)

/-- The loop over the slices; `push` is what `trunk_write_thread_push_slice_by_iovec`
returns for the slice with the given number.  The result lists the vectors it was
called with. -/
def scatterSlices (push : Nat → Errno) :
    Nat → Int → Int → List AlignedReadBuffer → List Int → List (List Iovec) × Errno
  | _, _, _, _, [] => ([], .ok)
  | i, sliceTotal, bufferTotal, buffers, length :: rest =>
      let scattered := scatterSlice (sliceTotal + length) bufferTotal buffers
      if push i = .ok then
        let later := scatterSlices push (i + 1) (sliceTotal + length) scattered.2.2
          scattered.2.1 rest
        (scattered.1 :: later.1, later.2)
      else ([scattered.1], push i)

/-- `write_iovec_array`; `realloc` is what `fc_check_realloc_iovec_array` returns. -/
def writeIovecArray (realloc : Errno) (push : Nat → Errno) (buffers : List AlignedReadBuffer)
    (slices : List Int) : List (List Iovec) × Errno :=
  if realloc ≠ .ok then ([], realloc)
  else if slices.length = 1 then
    ([buffers.map fun buffer => buffer.iovec buffer.length], push 0)
  else scatterSlices push 0 0 0 buffers slices

/-! ## Bytes -/

/-- The bytes of a vector, one entry behind the other. -/
def iovecBytes (iovs : List Iovec) : List UInt8 := iovs.flatMap Iovec.bytes

/-- The data of the buffers, one behind the other. -/
def bufferBytes (buffers : List AlignedReadBuffer) : List UInt8 :=
  buffers.flatMap AlignedReadBuffer.bytes

@[simp] theorem length_bytes (iov : Iovec) : iov.bytes.length = iov.len.toNat := by
  simp [Iovec.bytes]

theorem iovecBytes_whole (buffers : List AlignedReadBuffer) :
    iovecBytes (buffers.map fun buffer => buffer.iovec buffer.length) = bufferBytes buffers := by
  rw [iovecBytes, bufferBytes, List.flatMap_map]
  rfl

/-- A buffer is its first bytes and the rest. -/
theorem bytes_cut (buffer : AlignedReadBuffer) {len remain : Int} (lenNonneg : 0 ≤ len)
    (remainNonneg : 0 ≤ remain) (whole : buffer.length = len + remain) :
    buffer.bytes = (buffer.iovec len).bytes ++ (buffer.cut len remain).bytes := by
  have split : (len + remain).toNat = len.toNat + remain.toNat :=
    Int.toNat_add lenNonneg remainNonneg
  simp only [AlignedReadBuffer.bytes, AlignedReadBuffer.iovec, AlignedReadBuffer.cut,
    Iovec.bytes, whole, split, List.range_add, List.map_append, List.map_map]
  congr 1
  refine List.map_congr_left fun i _ => ?_
  have place : buffer.offset + ((len.toNat + i : Nat) : Int) = buffer.offset + len + i := by
    omega
  simp only [Function.comp, place]

/-- The lengths of the buffers are sizes, and their sum is the given one. -/
def Total (buffers : List AlignedReadBuffer) (total : Int) : Prop :=
  (∀ buffer ∈ buffers, 0 ≤ buffer.length) ∧ (buffers.map (·.length)).sum = total

theorem Total.nonneg {buffers : List AlignedReadBuffer} {total : Int}
    (sums : Total buffers total) : 0 ≤ total := by
  rw [← sums.2]
  refine List.sum_nonneg ?_
  intro n member
  obtain ⟨buffer, inBuffers, rfl⟩ := List.mem_map.mp member
  exact sums.1 buffer inBuffers

theorem Total.tail {buffer : AlignedReadBuffer} {rest : List AlignedReadBuffer} {total : Int}
    (sums : Total (buffer :: rest) total) :
    0 ≤ buffer.length ∧ Total rest (total - buffer.length) := by
  refine ⟨sums.1 buffer List.mem_cons_self, ?_, ?_⟩
  · intro other member
    exact sums.1 other (List.mem_cons_of_mem _ member)
  · have whole := sums.2
    rw [List.map_cons, List.sum_cons] at whole
    omega

/-- One slice takes the bytes it needs off the front of the data, and at most one
buffer is cut for it. -/
theorem scatterSlice_spec {sliceTotal bufferTotal total : Int} {buffers : List AlignedReadBuffer}
    (sums : Total buffers total) (needs : bufferTotal < sliceTotal)
    (enough : sliceTotal - bufferTotal ≤ total) :
    let scattered := scatterSlice sliceTotal bufferTotal buffers
    (iovecBytes scattered.1).length = (sliceTotal - bufferTotal).toNat ∧
      bufferBytes buffers = iovecBytes scattered.1 ++ bufferBytes scattered.2.1 ∧
      Total scattered.2.1 (total - (sliceTotal - bufferTotal)) ∧
      scattered.2.2 = sliceTotal ∧
      scattered.1.length + scattered.2.1.length ≤ buffers.length + 1 := by
  induction buffers generalizing bufferTotal total with
  | nil =>
      have none : (0 : Int) = total := sums.2
      omega
  | cons buffer rest ih =>
      obtain ⟨nonneg, restSums⟩ := sums.tail
      dsimp only
      rw [scatterSlice]
      dsimp only
      by_cases fits : bufferTotal + buffer.length ≤ sliceTotal
      · rw [if_pos fits]
        by_cases exact : bufferTotal + buffer.length = sliceTotal
        · rw [if_pos exact]
          have same : total - (sliceTotal - bufferTotal) = total - buffer.length := by omega
          refine ⟨?_, ?_, ?_, exact, ?_⟩
          · have length : sliceTotal - bufferTotal = buffer.length := by omega
            simp [iovecBytes, AlignedReadBuffer.iovec, length]
          · simp [iovecBytes, bufferBytes, AlignedReadBuffer.bytes]
          · rw [same]
            exact restSums
          · simp only [List.length_cons, List.length_nil]
            omega
        · rw [if_neg exact]
          have later := ih restSums (by omega : bufferTotal + buffer.length < sliceTotal)
            (by omega)
          dsimp only at later
          obtain ⟨lengths, bytes, laterSums, laterTotal, count⟩ := later
          refine ⟨?_, ?_, ?_, laterTotal, ?_⟩
          · simp only [iovecBytes, List.flatMap_cons, List.length_append] at lengths ⊢
            rw [lengths, length_bytes, AlignedReadBuffer.iovec]
            dsimp only
            omega
          · simp only [bufferBytes, iovecBytes, List.flatMap_cons, List.append_assoc] at bytes ⊢
            rw [bytes]
            rfl
          · have same : total - (sliceTotal - bufferTotal) =
                total - buffer.length - (sliceTotal - (bufferTotal + buffer.length)) := by omega
            rw [same]
            exact laterSums
          · simp only [List.length_cons] at count ⊢
            omega
      · rw [if_neg fits]
        have lenNonneg :
            0 ≤ buffer.length - (bufferTotal + buffer.length - sliceTotal) := by omega
        have remainNonneg : 0 ≤ bufferTotal + buffer.length - sliceTotal := by omega
        have parts := bytes_cut buffer lenNonneg remainNonneg (by omega)
        refine ⟨?_, ?_, ⟨?_, ?_⟩, rfl, ?_⟩
        · simp only [iovecBytes, List.flatMap_cons, List.flatMap_nil, List.append_nil,
            length_bytes, AlignedReadBuffer.iovec]
          omega
        · simp only [bufferBytes, iovecBytes, List.flatMap_cons, List.flatMap_nil,
            List.append_nil]
          rw [parts, List.append_assoc]
        · intro other member
          cases List.mem_cons.mp member with
          | inl same => exact same ▸ remainNonneg
          | inr inRest => exact restSums.1 other inRest
        · rw [List.map_cons, List.sum_cons, restSums.2, AlignedReadBuffer.cut]
          dsimp only
          omega
        · simp only [List.length_cons, List.length_nil]
          omega

/-- The slices take the data part by part. -/
theorem scatterSlices_spec (push : Nat → Errno) {i : Nat} {bufferTotal : Int}
    {buffers : List AlignedReadBuffer} {slices : List Int} (sums : Total buffers slices.sum)
    (positive : ∀ length ∈ slices, 0 < length) :
    let pushed := (scatterSlices push i bufferTotal bufferTotal buffers slices).1
    pushed.map iovecBytes =
        ((slices.map Int.toNat).splitLengths (bufferBytes buffers)).take pushed.length ∧
      ((∀ j, push j = .ok) → pushed.length = slices.length) ∧
      (pushed.map List.length).sum ≤ buffers.length + slices.length := by
  induction slices generalizing i bufferTotal buffers with
  | nil => simp [scatterSlices]
  | cons length rest ih =>
      have long := positive length List.mem_cons_self
      have restPositive : ∀ other ∈ rest, 0 < other :=
        fun other member => positive other (List.mem_cons_of_mem _ member)
      have restNonneg : 0 ≤ rest.sum :=
        List.sum_nonneg fun other member => (restPositive other member).le
      rw [List.sum_cons] at sums
      have first := scatterSlice_spec sums (by omega : bufferTotal < bufferTotal + length)
        (by omega)
      dsimp only at first ⊢
      obtain ⟨lengths, bytes, restSums, total, count⟩ := first
      have taken : bufferTotal + length - bufferTotal = length := by omega
      rw [taken] at lengths restSums
      rw [add_sub_cancel_left] at restSums
      rw [scatterSlices]
      dsimp only
      have part : (bufferBytes buffers).take length.toNat =
          iovecBytes (scatterSlice (bufferTotal + length) bufferTotal buffers).1 := by
        rw [bytes, ← lengths, List.take_left]
      have others : (bufferBytes buffers).drop length.toNat =
          bufferBytes (scatterSlice (bufferTotal + length) bufferTotal buffers).2.1 := by
        rw [bytes, ← lengths, List.drop_left]
      split
      · rw [total]
        have later := @ih (i + 1) (bufferTotal + length) _ restSums restPositive
        dsimp only at later
        obtain ⟨laterBytes, laterAll, laterCount⟩ := later
        refine ⟨?_, ?_, ?_⟩
        · simp only [List.map_cons, List.splitLengths_cons, List.length_cons,
            List.take_succ_cons, part, others, laterBytes]
        · intro succeeds
          rw [List.length_cons, List.length_cons, laterAll succeeds]
        · simp only [List.map_cons, List.sum_cons, List.length_cons] at laterCount ⊢
          omega
      · rename_i fails
        refine ⟨?_, fun succeeds => absurd (succeeds i) fails, ?_⟩
        · simp [List.splitLengths_cons, part]
        · simp only [List.map_cons, List.map_nil, List.sum_cons, List.sum_nil, List.length_cons]
          omega

theorem Total.length_bufferBytes {buffers : List AlignedReadBuffer} {total : Int}
    (sums : Total buffers total) : (bufferBytes buffers).length = total.toNat := by
  induction buffers generalizing total with
  | nil =>
      have none : (0 : Int) = total := sums.2
      rw [← none]
      rfl
  | cons buffer rest ih =>
      obtain ⟨nonneg, restSums⟩ := sums.tail
      have restLength := ih restSums
      have restNonneg := restSums.nonneg
      simp only [bufferBytes, List.flatMap_cons, List.length_append] at restLength ⊢
      rw [restLength, AlignedReadBuffer.bytes, length_bytes, AlignedReadBuffer.iovec]
      dsimp only
      omega

/-- Each slice is pushed with its part of the data, cut from the buffers with at most
one entry more than buffers for each slice; every slice is pushed unless a call
fails. -/
theorem write_iovec_array_parts (realloc : Errno) (push : Nat → Errno)
    (buffers : List AlignedReadBuffer) (slices : List Int)
    (nonneg : ∀ buffer ∈ buffers, 0 ≤ buffer.length) (positive : ∀ length ∈ slices, 0 < length)
    (sum : slices.sum = (buffers.map (·.length)).sum) :
    let pushed := (writeIovecArray realloc push buffers slices).1
    pushed.map iovecBytes =
        ((slices.map Int.toNat).splitLengths (bufferBytes buffers)).take pushed.length ∧
      (realloc = .ok → (∀ i, push i = .ok) → pushed.length = slices.length) ∧
      (pushed.map List.length).sum ≤ buffers.length + slices.length := by
  have sums : Total buffers slices.sum := ⟨nonneg, sum.symm⟩
  dsimp only
  rw [writeIovecArray]
  split
  · rename_i fails
    exact ⟨rfl, fun succeeds => absurd succeeds fails, Nat.zero_le _⟩
  · split
    · rename_i single
      obtain ⟨length, rfl⟩ := List.length_eq_one_iff.mp single
      have whole := sums.length_bufferBytes
      rw [List.sum_singleton] at whole
      refine ⟨?_, fun _ _ => single.symm, ?_⟩
      · simp only [List.map_cons, List.map_nil, iovecBytes_whole, List.splitLengths_cons,
          List.splitLengths_nil, List.length_cons, List.length_nil, List.take_succ_cons,
          List.take_nil, ← whole, List.take_length]
      · simp only [List.map_cons, List.map_nil, List.length_map, List.sum_singleton]
        omega
    · have parts := @scatterSlices_spec push 0 0 buffers slices sums positive
      exact ⟨parts.1, fun _ => parts.2.1, parts.2.2⟩

/-- Three buffers for two slices, the second buffer over the border. -/
theorem write_iovec_array_parts_pair :
    let buffers : List AlignedReadBuffer := [⟨fun i => UInt8.ofNat i.toNat, 2, 4⟩,
      ⟨fun i => UInt8.ofNat i.toNat, 0, 5⟩, ⟨fun _ => 9, 1, 3⟩]
    let pushed := (writeIovecArray .ok (fun _ => .ok) buffers [6, 6]).1
    pushed.map iovecBytes =
        ((([6, 6] : List Int).map Int.toNat).splitLengths (bufferBytes buffers)).take
          pushed.length ∧
      pushed.length = 2 ∧ pushed.map iovecBytes = [[2, 3, 4, 5, 0, 1], [2, 3, 4, 9, 9, 9]] := by
  have parts := write_iovec_array_parts .ok (fun _ => .ok)
    [⟨fun i => UInt8.ofNat i.toNat, 2, 4⟩, ⟨fun i => UInt8.ofNat i.toNat, 0, 5⟩,
      ⟨fun _ => 9, 1, 3⟩] [6, 6] (by decide) (by decide) (by decide)
  exact ⟨parts.1, parts.2.1 rfl fun _ => rfl, by decide⟩

end FastStore.Storage
