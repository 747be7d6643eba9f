import FastStore.Storage.IovecArray

/-!
# Writing a vector of memory pieces

A trunk write thread writes the pieces of a batch with `writev`, at most `IOV_MAX` of them
in one call.  The kernel may write less than it is offered, so the vector is moved past
what is written and the rest is offered again.
-/

namespace FastStore.Dio

open FastStore.Util FastStore.Storage

/-- What a call of `writev` returns: the number of bytes, or `errno`. -/
inductive WritevResult where
  | wrote (bytes : Nat)
  | failed (result : Errno)
  deriving DecidableEq, Repr

/-- What is written so far, the bytes of the batch that are not, and the number of calls
that were made. -/
structure WriteProgress where
  written : List UInt8
  remain_bytes : Int
  calls : Nat
  deriving DecidableEq, Repr

/-- The loop behind a short write: the entries that are left, the first one moved to its
first byte that is not written. -/
def skipWritten (write_bytes : Int) : Int → List Iovec → List Iovec
  | _, [] => []
  | iov_sum, iov :: rest =>
      let iov_remain := iov_sum + iov.len - write_bytes
      if iov_remain = 0 then rest
      else if 0 < iov_remain then
        { iov with
          base := iov.base + (iov.len - iov_remain)
          len := iov_remain } :: rest
      else skipWritten write_bytes (iov_sum + iov.len) rest

section Writing

variable (writev : Nat → Nat → WritevResult)

/-- `write_iovec`; `writev` says what each call returns when that many bytes are offered.
The fuel bounds the number of calls, and `none` means that it is used up. -/
def write_iovec : Nat → WriteProgress → List Iovec → Option (Errno × WriteProgress)
  | _, progress, [] => some (.ok, progress)
  | 0, _, _ :: _ => none
  | fuel + 1, progress, iov :: rest =>
      let calls := progress.calls + 1
      match writev progress.calls (iovecBytes (iov :: rest)).length with
      | .failed result =>
          if result = .eintr then write_iovec fuel { progress with calls := calls } (iov :: rest)
          else some (result, { progress with calls := calls })
      | .wrote write_bytes =>
          let progress := ⟨progress.written ++ (iovecBytes (iov :: rest)).take write_bytes,
            progress.remain_bytes - write_bytes, calls⟩
          if progress.remain_bytes = 0 then some (.ok, progress)
          else write_iovec fuel progress (skipWritten write_bytes 0 (iov :: rest))

/-- The loop of `do_write_slices` over the groups of entries. -/
def writeGroups (fuel : Nat) :
    WriteProgress → List (List Iovec) → Option (Errno × WriteProgress)
  | progress, [] => some (.ok, progress)
  | progress, group :: rest =>
      match write_iovec writev fuel progress group with
      | some (.ok, next) => writeGroups fuel next rest
      | stopped => stopped

/-- Groups of `IOV_MAX` entries, and what is left. -/
def iovecGroups (iovMax : Nat) (positive : 0 < iovMax) : List Iovec → List (List Iovec)
  | [] => []
  | iov :: rest =>
      ((iov :: rest).take iovMax) :: iovecGroups iovMax positive ((iov :: rest).drop iovMax)
termination_by iovs => iovs.length
decreasing_by
  rw [List.length_drop, List.length_cons]
  omega

/-- The writes of `do_write_slices`, for the vector of a batch and `iovec_bytes`. -/
def do_write_slices (iovMax : Nat) (positive : 0 < iovMax) (fuel : Nat) (iovs : List Iovec)
    (iovec_bytes : Int) : Option (Errno × WriteProgress) :=
  if iovs.length ≤ iovMax then write_iovec writev fuel ⟨[], iovec_bytes, 0⟩ iovs
  else writeGroups writev fuel ⟨[], iovec_bytes, 0⟩ (iovecGroups iovMax positive iovs)

end Writing

/-- Every call writes something, and no more than it is offered. -/
def WritesSome (writev : Nat → Nat → WritevResult) : Prop :=
  ∀ call offered, 0 < offered →
    ∃ bytes, writev call offered = .wrote bytes ∧ 0 < bytes ∧ bytes ≤ offered

/-! ## Moving past what is written -/

/-- An entry is its first bytes and the rest. -/
theorem bytes_moved (iov : Iovec) {before remain : Int} (beforeNonneg : 0 ≤ before)
    (remainNonneg : 0 ≤ remain) (whole : iov.len = before + remain) :
    iov.bytes.drop before.toNat = (Iovec.mk iov.memory (iov.base + before) remain).bytes := by
  have split : iov.bytes = (Iovec.mk iov.memory iov.base before).bytes ++
      (Iovec.mk iov.memory (iov.base + before) remain).bytes := by
    have count : iov.len.toNat = before.toNat + remain.toNat := by
      rw [whole, Int.toNat_add beforeNonneg remainNonneg]
    simp only [Iovec.bytes, count, List.range_add, List.map_append, List.map_map]
    congr 1
    refine List.map_congr_left fun i _ => ?_
    have place : iov.base + ((before.toNat + i : Nat) : Int) = iov.base + before + i := by omega
    simp only [Function.comp, place]
  rw [split]
  exact List.drop_left' (length_bytes _)

theorem iovecBytes_cons (iov : Iovec) (rest : List Iovec) :
    iovecBytes (iov :: rest) = iov.bytes ++ iovecBytes rest := rfl

theorem length_iovecBytes_cons (iov : Iovec) (rest : List Iovec) :
    (iovecBytes (iov :: rest)).length = iov.len.toNat + (iovecBytes rest).length := by
  rw [iovecBytes_cons, List.length_append, length_bytes]

/-- What is left is the rest of the bytes, in entries that are not empty. -/
theorem skipWritten_spec {iovs : List Iovec} (filled : ∀ iov ∈ iovs, 0 < iov.len)
    {iov_sum : Int} {bytes : Nat} (behind : 0 < bytes)
    (inside : bytes ≤ (iovecBytes iovs).length) :
    iovecBytes (skipWritten (iov_sum + bytes) iov_sum iovs) = (iovecBytes iovs).drop bytes ∧
      ∀ iov ∈ skipWritten (iov_sum + bytes) iov_sum iovs, 0 < iov.len := by
  induction iovs generalizing iov_sum bytes with
  | nil => exact absurd inside (not_le.mpr behind)
  | cons iov rest ih =>
      have positive := filled iov List.mem_cons_self
      have later : ∀ other ∈ rest, 0 < other.len :=
        fun other member => filled other (List.mem_cons_of_mem _ member)
      have length := length_iovecBytes_cons iov rest
      rw [skipWritten, iovecBytes_cons]
      split
      · rename_i ends
        have whole : iov.bytes.length = bytes := by
          rw [length_bytes]
          omega
        exact ⟨(List.drop_left' whole).symm, later⟩
      · rename_i notEnds
        split
        · rename_i within
          have before : (iov.len - (iov_sum + iov.len - (iov_sum + bytes))) = bytes := by omega
          have moved := @bytes_moved iov bytes (iov_sum + iov.len - (iov_sum + bytes))
            (Int.natCast_nonneg bytes) within.le (by omega)
          have short : bytes ≤ iov.bytes.length := by
            rw [length_bytes]
            omega
          rw [Int.toNat_natCast] at moved
          refine ⟨?_, ?_⟩
          · rw [List.drop_append_of_le_length short, moved, before, iovecBytes_cons]
          · intro other member
            cases List.mem_cons.mp member with
            | inl first =>
                rw [first]
                exact within
            | inr behindFirst => exact later other behindFirst
        · obtain ⟨more, moreEq⟩ : ∃ more : Nat, (bytes : Int) = iov.len + more :=
            ⟨(bytes - iov.len).toNat, by omega⟩
          have sum : iov_sum + (bytes : Int) = iov_sum + iov.len + more := by omega
          have rest := @ih later (iov_sum + iov.len) more (by omega) (by omega)
          have long : iov.bytes.length ≤ bytes := by
            rw [length_bytes]
            omega
          have drop : bytes - iov.bytes.length = more := by
            rw [length_bytes]
            omega
          rw [sum, List.drop_append, List.drop_eq_nil_of_le long, List.nil_append, drop]
          exact rest

/-! ## Whole vectors -/

section Whole

variable {writev : Nat → Nat → WritevResult}

/-- A group is written whole, whatever the kernel takes at a time. -/
theorem write_iovec_spec (kernel : WritesSome writev) {iovs : List Iovec}
    (filled : ∀ iov ∈ iovs, 0 < iov.len) {fuel : Nat} (enough : (iovecBytes iovs).length ≤ fuel)
    {progress : WriteProgress} (room : ((iovecBytes iovs).length : Int) ≤ progress.remain_bytes) :
    ∃ calls, write_iovec writev fuel progress iovs = some (.ok,
      ⟨progress.written ++ iovecBytes iovs, progress.remain_bytes - (iovecBytes iovs).length,
        calls⟩) := by
  induction fuel generalizing iovs progress with
  | zero =>
      cases iovs with
      | nil =>
          refine ⟨progress.calls, ?_⟩
          rw [write_iovec]
          simp [iovecBytes]
      | cons iov rest =>
          have positive := filled iov List.mem_cons_self
          have length := length_iovecBytes_cons iov rest
          omega
  | succ fuel ih =>
      cases iovs with
      | nil =>
          refine ⟨progress.calls, ?_⟩
          rw [write_iovec]
          simp [iovecBytes]
      | cons iov rest =>
          have positive := filled iov List.mem_cons_self
          have length := length_iovecBytes_cons iov rest
          obtain ⟨bytes, returned, some, bounded⟩ := kernel progress.calls
            (iovecBytes (iov :: rest)).length (by omega)
          have skipped := @skipWritten_spec (iov :: rest) filled 0 bytes some bounded
          rw [zero_add] at skipped
          have parts := List.take_append_drop bytes (iovecBytes (iov :: rest))
          rw [write_iovec, returned]
          dsimp only
          split
          · rename_i done
            have all : bytes = (iovecBytes (iov :: rest)).length := by omega
            refine ⟨progress.calls + 1, ?_⟩
            rw [all, List.take_length]
          · have left : (iovecBytes (skipWritten bytes 0 (iov :: rest))).length =
                (iovecBytes (iov :: rest)).length - bytes := by
              rw [skipped.1, List.length_drop]
            obtain ⟨calls, rest⟩ := @ih _ skipped.2 (by omega)
              ⟨progress.written ++ (iovecBytes (iov :: rest)).take bytes,
                progress.remain_bytes - bytes, progress.calls + 1⟩ (by
                  dsimp only
                  omega)
            refine ⟨calls, rest.trans ?_⟩
            dsimp only
            rw [skipped.1, List.append_assoc, parts, List.length_drop]
            congr 3
            omega

theorem writeGroups_spec (kernel : WritesSome writev) {groups : List (List Iovec)}
    (filled : ∀ iov ∈ groups.flatten, 0 < iov.len) {fuel : Nat}
    (enough : (iovecBytes groups.flatten).length ≤ fuel) {progress : WriteProgress}
    (room : ((iovecBytes groups.flatten).length : Int) ≤ progress.remain_bytes) :
    ∃ calls, writeGroups writev fuel progress groups = some (.ok,
      ⟨progress.written ++ iovecBytes groups.flatten,
        progress.remain_bytes - (iovecBytes groups.flatten).length, calls⟩) := by
  induction groups generalizing progress with
  | nil =>
      refine ⟨progress.calls, ?_⟩
      rw [writeGroups]
      simp [iovecBytes]
  | cons group rest ih =>
      have bytes : iovecBytes (group :: rest).flatten =
          iovecBytes group ++ iovecBytes rest.flatten := by
        rw [List.flatten_cons]
        exact List.flatMap_append
      rw [bytes, List.length_append] at enough room
      obtain ⟨calls, first⟩ := @write_iovec_spec _ kernel group
        (fun iov member => filled iov (List.mem_append_left _ member)) fuel (by omega) progress
        (by omega)
      obtain ⟨last, later⟩ := @ih
        (fun iov member => filled iov (List.mem_append_right _ member)) (by omega)
        ⟨progress.written ++ iovecBytes group,
          progress.remain_bytes - (iovecBytes group).length, calls⟩ (by
            dsimp only
            omega)
      refine ⟨last, ?_⟩
      have remain : progress.remain_bytes - ((iovecBytes group).length : Int) -
          (iovecBytes rest.flatten).length =
            progress.remain_bytes - (iovecBytes (group :: rest).flatten).length := by
        rw [bytes, List.length_append]
        omega
      rw [writeGroups, first]
      dsimp only
      rw [later]
      dsimp only
      rw [remain, bytes, List.append_assoc]

end Whole

theorem iovecGroups_flatten (iovMax : Nat) (positive : 0 < iovMax) (iovs : List Iovec) :
    (iovecGroups iovMax positive iovs).flatten = iovs ∧
      ∀ group ∈ iovecGroups iovMax positive iovs, group.length ≤ iovMax := by
  induction iovs using iovecGroups.induct iovMax positive with
  | case1 =>
      rw [iovecGroups]
      exact ⟨rfl, fun group member => nomatch member⟩
  | case2 iov rest ih =>
      rw [iovecGroups, List.flatten_cons, ih.1]
      refine ⟨List.take_append_drop iovMax (iov :: rest), ?_⟩
      intro group member
      cases List.mem_cons.mp member with
      | inl first =>
          rw [first]
          exact List.length_take_le _ _
      | inr later => exact ih.2 group later

/-- However the pieces of a batch are grouped, and however little each call writes, the
bytes of the batch are written once and in order, and nothing remains. -/
theorem writes_whole_batch (writev : Nat → Nat → WritevResult) (kernel : WritesSome writev)
    (iovs : List Iovec) (filled : ∀ iov ∈ iovs, 0 < iov.len) :
    (∀ groups : List (List Iovec), groups.flatten = iovs →
      ∀ fuel, (iovecBytes iovs).length ≤ fuel →
        ∃ calls, writeGroups writev fuel ⟨[], (iovecBytes iovs).length, 0⟩ groups =
          some (.ok, ⟨iovecBytes iovs, 0, calls⟩)) ∧
      ∀ (iovMax : Nat) (positive : 0 < iovMax),
        (∀ group ∈ iovecGroups iovMax positive iovs, group.length ≤ iovMax) ∧
          ∀ fuel, (iovecBytes iovs).length ≤ fuel →
            ∃ calls, do_write_slices writev iovMax positive fuel iovs (iovecBytes iovs).length =
              some (.ok, ⟨iovecBytes iovs, 0, calls⟩) := by
  have grouped : ∀ (groups : List (List Iovec)), groups.flatten = iovs → ∀ fuel,
      (iovecBytes iovs).length ≤ fuel →
        ∃ calls, writeGroups writev fuel ⟨[], (iovecBytes iovs).length, 0⟩ groups =
          some (.ok, ⟨iovecBytes iovs, 0, calls⟩) := by
    rintro groups rfl fuel enough
    obtain ⟨calls, done⟩ := @writeGroups_spec _ kernel groups filled fuel enough
      ⟨[], (iovecBytes groups.flatten).length, 0⟩ le_rfl
    rw [sub_self] at done
    exact ⟨calls, done⟩
  refine ⟨grouped, fun iovMax positive => ?_⟩
  obtain ⟨whole, short⟩ := iovecGroups_flatten iovMax positive iovs
  refine ⟨short, fun fuel enough => ?_⟩
  rw [do_write_slices]
  split
  · obtain ⟨calls, done⟩ := @write_iovec_spec _ kernel iovs filled fuel enough
      ⟨[], (iovecBytes iovs).length, 0⟩ le_rfl
    rw [sub_self] at done
    exact ⟨calls, done⟩
  · exact grouped _ whole fuel enough

/-- A kernel that takes three bytes at most. -/
def threeAtMost (_ offered : Nat) : WritevResult := .wrote (min 3 offered)

theorem writesSome_threeAtMost : WritesSome threeAtMost := by
  intro call offered some
  exact ⟨min 3 offered, rfl, by omega, min_le_right _ _⟩

/-- Two pieces, in groups of one. -/
theorem writes_whole_batch_pieces :
    let iovs : List Iovec := [⟨fun i => UInt8.ofNat i.toNat, 1, 5⟩, ⟨fun _ => 9, 0, 2⟩]
    ∃ calls, do_write_slices threeAtMost 1 Nat.one_pos 7 iovs (iovecBytes iovs).length =
      some (.ok, ⟨iovecBytes iovs, 0, calls⟩) :=
  ((writes_whole_batch threeAtMost writesSome_threeAtMost
    [⟨fun i => UInt8.ofNat i.toNat, 1, 5⟩, ⟨fun _ => 9, 0, 2⟩] (by
      intro iov member
      simp only [List.mem_cons, List.not_mem_nil, or_false] at member
      rcases member with rfl | rfl <;> decide)).2 1 Nat.one_pos).2 7 (by decide)

end FastStore.Dio
