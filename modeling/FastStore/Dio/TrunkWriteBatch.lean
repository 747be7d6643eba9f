import FastStore.Dio.TrunkWriteThread

/-!
# A batch of the trunk write thread

The plain writer opens the file of each request, writes its bytes at the place of its space,
and closes the file.  A batch is written with one `writev` that may stop anywhere, and leaves
the files as the plain writer does that executes the slices of the batch one by one.
-/

namespace FastStore.Dio

open FastStore.Util FastStore.Storage

/-! ## The bytes of a request -/

namespace TrunkWriteRequest

/-- What goes to the space of a slice: its data, and what lies behind it in the memory. -/
def bytes (io : TrunkWriteRequest) : List UInt8 := iovecBytes io.iovecs

/-- The data of a slice. -/
def payload : TrunkWriteRequest → List UInt8
  | .createTrunk _ | .deleteTrunk _ => []
  | .writeSliceByBuff slice buff => buff.bytesAt 0 slice.ssize.length.toNat
  | .writeSliceByIovec _ iovs => iovecBytes iovs

/-- The space of a slice has room for it, and a vector has its data and no empty entry. -/
def Fits : TrunkWriteRequest → Prop
  | .createTrunk _ | .deleteTrunk _ => True
  | .writeSliceByBuff slice _ =>
      0 < slice.ssize.length ∧ slice.ssize.length ≤ slice.space.size
  | .writeSliceByIovec slice iovs =>
      iovs ≠ [] ∧ (∀ iov ∈ iovs, 0 < iov.len) ∧ (iovs.map Iovec.len).sum = slice.ssize.length ∧
        slice.ssize.length ≤ slice.space.size

end TrunkWriteRequest

theorem bytes_extend (iov : Iovec) {more : Int} (filled : 0 ≤ iov.len) (nonneg : 0 ≤ more) :
    ({ iov with len := iov.len + more } : Iovec).bytes =
      iov.bytes ++ (Iovec.mk iov.memory (iov.base + iov.len) more).bytes :=
  bytes_cut ⟨iov.memory, iov.base, iov.len + more⟩ filled nonneg rfl

theorem iovecBytes_padLast {padding : Int} (nonneg : 0 ≤ padding) {iovs : List Iovec}
    (some : iovs ≠ []) (filled : ∀ iov ∈ iovs, 0 < iov.len) :
    ∃ behind : List UInt8, behind.length = padding.toNat ∧
      iovecBytes (padLast padding iovs) = iovecBytes iovs ++ behind := by
  induction iovs using padLast.induct with
  | case1 => exact absurd rfl some
  | case2 iov =>
      have positive := filled iov List.mem_cons_self
      refine ⟨(Iovec.mk iov.memory (iov.base + iov.len) padding).bytes, length_bytes _, ?_⟩
      have entry : padLast padding [iov] = [{ iov with len := iov.len + padding }] := by
        rw [padLast]
        split
        · rfl
        · next noPadding =>
            have zero : padding = 0 := le_antisymm (not_lt.mp noPadding) nonneg
            rw [zero, add_zero]
      rw [entry, iovecBytes_cons, bytes_extend iov positive.le nonneg, iovecBytes_cons]
      simp [iovecBytes]
  | case3 iov next rest ih =>
      obtain ⟨behind, count, same⟩ := ih (List.cons_ne_nil _ _)
        fun other member => filled other (List.mem_cons_of_mem _ member)
      refine ⟨behind, count, ?_⟩
      rw [padLast, iovecBytes_cons, same, iovecBytes_cons iov (next :: rest), List.append_assoc]

theorem padLast_filled {padding : Int} {iovs : List Iovec}
    (filled : ∀ iov ∈ iovs, 0 < iov.len) : ∀ iov ∈ padLast padding iovs, 0 < iov.len := by
  induction iovs using padLast.induct with
  | case1 => exact filled
  | case2 iov =>
      have positive := filled iov List.mem_cons_self
      rw [padLast]
      intro other member
      rw [List.mem_singleton.mp member]
      dsimp only
      split
      · next padded => exact add_pos positive padded
      · exact positive
  | case3 iov next rest ih =>
      rw [padLast]
      intro other member
      cases List.mem_cons.mp member with
      | inl first =>
          rw [first]
          exact filled iov List.mem_cons_self
      | inr later =>
          exact ih (fun other member => filled other (List.mem_cons_of_mem _ member)) other later

theorem length_iovecBytes {iovs : List Iovec} (filled : ∀ iov ∈ iovs, 0 < iov.len) :
    ((iovecBytes iovs).length : Int) = (iovs.map Iovec.len).sum := by
  induction iovs with
  | nil => rfl
  | cons iov rest ih =>
      have positive := filled iov List.mem_cons_self
      have later := ih fun other member => filled other (List.mem_cons_of_mem _ member)
      rw [length_iovecBytes_cons, List.map_cons, List.sum_cons, ← later]
      omega

/-- The vector of one entry is made as long as the space. -/
theorem iovecs_eq_padLast {slice : OBSliceEntry} {iovs : List Iovec}
    (fits : (TrunkWriteRequest.writeSliceByIovec slice iovs).Fits) :
    (TrunkWriteRequest.writeSliceByIovec slice iovs).iovecs =
      padLast (slice.space.size - (iovs.map Iovec.len).sum) iovs := by
  obtain ⟨some, filled, sum, room⟩ := fits
  cases iovs with
  | nil => exact absurd rfl some
  | cons iov rest =>
      cases rest with
      | cons next rest => rfl
      | nil =>
          rw [TrunkWriteRequest.iovecs, padLast]
          rw [List.map_singleton, List.sum_singleton] at sum ⊢
          split
          · congr 2
            omega
          · congr 2
            omega

theorem length_bytesAt_range (buff : Buffer) (pos : Int) (len : Nat) :
    buff.bytesAt pos len = (List.range len).map fun i : Nat => buff (pos + i) := by
  rw [Buffer.bytesAt_eq_ofFn, List.ofFn_eq_map]
  apply List.ext_getElem
  · simp
  · intro i left right
    simp

namespace TrunkWriteRequest

variable {io : TrunkWriteRequest}

theorem filled_iovecs (fits : io.Fits) : ∀ iov ∈ io.iovecs, 0 < iov.len := by
  cases io with
  | createTrunk space | deleteTrunk space =>
      intro iov member
      cases member
  | writeSliceByBuff slice buff =>
      intro iov member
      rw [List.mem_singleton.mp member]
      exact lt_of_lt_of_le fits.1 fits.2
  | writeSliceByIovec slice iovs =>
      rw [iovecs_eq_padLast fits]
      exact padLast_filled fits.2.1

/-- The bytes of a slice are its data and what fills its space. -/
theorem bytes_eq {slice : OBSliceEntry} (fits : io.Fits) (write : io.slice? = some slice) :
    io.payload.length = slice.ssize.length.toNat ∧
      ∃ behind : List UInt8, io.bytes = io.payload ++ behind ∧
        (io.bytes.length : Int) = io.space.size := by
  cases io with
  | createTrunk space | deleteTrunk space => cases write
  | writeSliceByBuff written buff =>
      cases write
      obtain ⟨positive, room⟩ := fits
      refine ⟨Buffer.length_bytesAt _ _ _,
        (Iovec.mk buff slice.ssize.length (slice.space.size - slice.ssize.length)).bytes, ?_, ?_⟩
      · have whole := bytes_extend ⟨buff, 0, slice.ssize.length⟩ positive.le
          (sub_nonneg.mpr room)
        rw [zero_add, add_sub_cancel] at whole
        rw [bytes, iovecs, iovecBytes, List.flatMap_singleton, whole, payload,
          length_bytesAt_range]
        simp only [Iovec.bytes]
      · rw [bytes, iovecs, iovecBytes, List.flatMap_singleton, length_bytes]
        exact Int.toNat_of_nonneg (positive.le.trans room)
  | writeSliceByIovec written iovs =>
      cases write
      obtain ⟨some, filled, sum, room⟩ := fits
      have total := length_iovecBytes filled
      obtain ⟨behind, count, same⟩ := iovecBytes_padLast
        (sub_nonneg.mpr (sum.le.trans room)) some filled
      refine ⟨?_, behind, ?_, ?_⟩
      · rw [payload]
        omega
      · rw [bytes, iovecs_eq_padLast ⟨some, filled, sum, room⟩, same, payload]
      · rw [bytes, iovecs_eq_padLast ⟨some, filled, sum, room⟩, same, List.length_append, count]
        dsimp only [space]
        push_cast
        omega

theorem iovecs_ne_nil {slice : OBSliceEntry} (fits : io.Fits) (write : io.slice? = some slice) :
    io.iovecs ≠ [] := by
  intro none
  obtain ⟨_, behind, same, length⟩ := bytes_eq fits write
  have size : 0 < io.space.size := by
    cases io with
    | createTrunk space | deleteTrunk space => cases write
    | writeSliceByBuff written buff => exact lt_of_lt_of_le fits.1 fits.2
    | writeSliceByIovec written iovs =>
        have total := length_iovecBytes fits.2.1
        obtain ⟨some, filled, sum, room⟩ := fits
        cases iovs with
        | nil => exact absurd rfl some
        | cons iov rest =>
            have first := filled iov List.mem_cons_self
            have count := length_iovecBytes_cons iov rest
            dsimp only [space]
            omega
  rw [bytes, none, iovecBytes, List.flatMap_nil, List.length_nil] at length
  exact size.ne length

end TrunkWriteRequest

/-! ## What reaches the file -/

/-- An empty write leaves the entries as they are. -/
theorem skipWritten_zero {iov : Iovec} (positive : 0 < iov.len) (rest : List Iovec) :
    skipWritten 0 0 (iov :: rest) = iov :: rest := by
  rw [skipWritten]
  simp [positive, positive.ne']

/-- Some first bytes of `bytes` were written, all of them when the result is zero. -/
def WrotePrefix (bytes : List UInt8) (before : WriteProgress) (result : Errno)
    (progress : WriteProgress) : Prop :=
  ∃ count ≤ bytes.length, progress.written = before.written ++ bytes.take count ∧
    progress.remain_bytes = before.remain_bytes - count ∧ (result = .ok → count = bytes.length)

section Outcome

variable (outcome : BatchOutcome)

theorem write_iovec_prefix {fuel : Nat} {iovs : List Iovec} (filled : ∀ iov ∈ iovs, 0 < iov.len)
    {before progress : WriteProgress} {result : Errno}
    (ran : write_iovec outcome.writev fuel before iovs = some (result, progress)) :
    WrotePrefix (iovecBytes iovs) before result progress ∨
      result = .ok ∧ progress.remain_bytes = 0 ∧ ∃ count ≤ (iovecBytes iovs).length,
        progress.written = before.written ++ (iovecBytes iovs).take count ∧
          progress.remain_bytes = before.remain_bytes - count := by
  induction fuel generalizing iovs before with
  | zero =>
      cases iovs with
      | nil =>
          rw [write_iovec] at ran
          cases ran
          exact .inl ⟨0, le_rfl, by simp [iovecBytes], by simp, fun _ => rfl⟩
      | cons iov rest =>
          rw [write_iovec] at ran
          cases ran
  | succ fuel ih =>
      cases iovs with
      | nil =>
          rw [write_iovec] at ran
          cases ran
          exact .inl ⟨0, le_rfl, by simp [iovecBytes], by simp, fun _ => rfl⟩
      | cons iov rest =>
          rw [write_iovec] at ran
          cases returned : outcome.writev before.calls (iovecBytes (iov :: rest)).length with
          | failed errno =>
              rw [returned] at ran
              dsimp only at ran
              split at ran
              · -- `EINTR`: the call is made again
                have again := ih filled ran
                exact again
              · cases ran
                have real := outcome.failed _ _ _ returned
                exact .inl ⟨0, Nat.zero_le _, by simp, by simp, fun ok => absurd ok real⟩
          | wrote bytes =>
              rw [returned] at ran
              dsimp only at ran
              have most := outcome.bounded _ _ _ returned
              split at ran
              · next done =>
                  cases ran
                  exact .inr ⟨rfl, done, bytes, most, rfl, rfl⟩
              · have positive := filled iov List.mem_cons_self
                have skipped : iovecBytes (skipWritten bytes 0 (iov :: rest)) =
                    (iovecBytes (iov :: rest)).drop bytes ∧
                      ∀ other ∈ skipWritten bytes 0 (iov :: rest), 0 < other.len := by
                  cases Nat.eq_zero_or_pos bytes with
                  | inl zero =>
                      rw [zero, Nat.cast_zero, skipWritten_zero positive, List.drop_zero]
                      exact ⟨rfl, filled⟩
                  | inr some =>
                      have spec := @skipWritten_spec (iov :: rest) filled 0 bytes some most
                      rw [zero_add] at spec
                      exact spec
                have parts (count : Nat) : (iovecBytes (iov :: rest)).take bytes ++
                    ((iovecBytes (iov :: rest)).drop bytes).take count =
                      (iovecBytes (iov :: rest)).take (bytes + count) := List.take_add.symm
                have later := ih skipped.2 ran
                rw [skipped.1, WrotePrefix, List.length_drop] at later
                cases later with
                | inl wrote =>
                    obtain ⟨count, room, written, remain, whole⟩ := wrote
                    refine .inl ⟨bytes + count, by omega, ?_, ?_, ?_⟩
                    · rw [written, List.append_assoc, parts]
                    · rw [remain]
                      push_cast
                      ring
                    · intro ok
                      have all := whole ok
                      omega
                | inr wrote =>
                    obtain ⟨ok, none, count, room, written, remain⟩ := wrote
                    refine .inr ⟨ok, none, bytes + count, by omega, ?_, ?_⟩
                    · rw [written, List.append_assoc, parts]
                    · rw [remain]
                      push_cast
                      ring

/-- With as many bytes to go as the entries have, and perhaps more, a result of zero means
that the entries were written. -/
theorem write_iovec_wrote {fuel : Nat} {iovs : List Iovec}
    (filled : ∀ iov ∈ iovs, 0 < iov.len) {before progress : WriteProgress} {result : Errno}
    (remain : ((iovecBytes iovs).length : Int) ≤ before.remain_bytes)
    (ran : write_iovec outcome.writev fuel before iovs = some (result, progress)) :
    WrotePrefix (iovecBytes iovs) before result progress := by
  cases write_iovec_prefix outcome filled ran with
  | inl wrote => exact wrote
  | inr wrote =>
      obtain ⟨ok, none, count, room, written, left⟩ := wrote
      exact ⟨count, room, written, left, fun _ => by omega⟩

theorem writeGroups_wrote {fuel : Nat} {groups : List (List Iovec)}
    (filled : ∀ iov ∈ groups.flatten, 0 < iov.len) {before progress : WriteProgress}
    {result : Errno}
    (remain : ((iovecBytes groups.flatten).length : Int) ≤ before.remain_bytes)
    (ran : writeGroups outcome.writev fuel before groups = some (result, progress)) :
    WrotePrefix (iovecBytes groups.flatten) before result progress := by
  induction groups generalizing before with
  | nil =>
      rw [writeGroups] at ran
      cases ran
      exact ⟨0, le_rfl, by simp [iovecBytes], by simp, fun _ => rfl⟩
  | cons group rest ih =>
      have bytes : iovecBytes (group :: rest).flatten =
          iovecBytes group ++ iovecBytes rest.flatten := by
        rw [List.flatten_cons]
        exact List.flatMap_append
      rw [bytes, List.length_append] at remain
      rw [bytes]
      have first : ∀ iov ∈ group, 0 < iov.len :=
        fun iov member => filled iov (List.mem_append_left _ member)
      have later : ∀ iov ∈ rest.flatten, 0 < iov.len :=
        fun iov member => filled iov (List.mem_append_right _ member)
      rw [writeGroups] at ran
      cases wrote : write_iovec outcome.writev fuel before group with
      | none =>
          rw [wrote] at ran
          cases ran
      | some stopped =>
          obtain ⟨stop, next⟩ := stopped
          obtain ⟨count, room, written, left, whole⟩ := write_iovec_wrote outcome first
            (by push_cast at remain; omega) wrote
          rw [wrote] at ran
          by_cases ok : stop = .ok
          · subst ok
            have all := whole rfl
            obtain ⟨more, moreRoom, moreWritten, moreLeft, moreWhole⟩ := ih later
              (by push_cast at remain; omega) ran
            refine ⟨count + more, by rw [List.length_append]; omega, ?_, ?_, ?_⟩
            · rw [moreWritten, written, all, List.take_length, List.append_assoc,
                List.take_length_add_append]
            · rw [moreLeft, left]
              push_cast
              ring
            · intro done
              rw [List.length_append, all, moreWhole done]
          · have same : (stop, next) = (result, progress) := by
              cases stop with
              | ok => exact absurd rfl ok
              | _ =>
                  dsimp only at ran
                  exact Option.some.inj ran
            cases same
            refine ⟨count, by rw [List.length_append]; omega, ?_, left,
              fun done => absurd done ok⟩
            rw [List.take_append_of_le_length room]
            exact written

theorem do_write_slices_wrote (config : TrunkWriteConfig) {iovs : List Iovec}
    (filled : ∀ iov ∈ iovs, 0 < iov.len) {progress : WriteProgress} {result : Errno}
    (ran : do_write_slices outcome.writev config.iovMax config.positive outcome.fuel iovs
      (iovecBytes iovs).length = some (result, progress)) :
    ∃ count ≤ (iovecBytes iovs).length, progress.written = (iovecBytes iovs).take count ∧
      (result = .ok → count = (iovecBytes iovs).length) := by
  have wrote : WrotePrefix (iovecBytes iovs) ⟨[], (iovecBytes iovs).length, 0⟩ result
      progress := by
    rw [do_write_slices] at ran
    split at ran
    · exact write_iovec_wrote outcome filled le_rfl ran
    · obtain ⟨whole, _⟩ := iovecGroups_flatten config.iovMax config.positive iovs
      have groups := @writeGroups_wrote outcome outcome.fuel
        (iovecGroups config.iovMax config.positive iovs) (by rwa [whole])
        ⟨[], (iovecBytes iovs).length, 0⟩ progress result (by rw [whole]) ran
      rwa [whole] at groups
  obtain ⟨count, room, written, _, whole⟩ := wrote
  exact ⟨count, room, written, whole⟩

end Outcome

/-! ## The plain writer -/

namespace TrunkDisk

variable (disk : TrunkDisk)

@[simp] theorem inode_write (inode : Nat) (offset : Int) (bytes : List UInt8) :
    (disk.write inode offset bytes).inode = disk.inode := rfl

@[simp] theorem write_nil (inode : Nat) (offset : Int) : disk.write inode offset [] = disk := by
  rw [write, Buffer.put_nil, Function.update_eq_self]

theorem write_append (inode : Nat) (offset : Int) (left right : List UInt8) :
    disk.write inode offset (left ++ right) =
      (disk.write inode offset left).write inode (offset + left.length) right := by
  simp only [write, Function.update_self, Function.update_idem, Buffer.put_append]

end TrunkDisk

/-- A request, how it ended, and how many of its bytes went to the file. -/
structure Executed where
  iob : TrunkWriteIOBuffer
  result : Errno
  count : Nat

namespace Executed

/-- The request and the result, as they are notified. -/
def notice (done : Executed) : TrunkWriteIOBuffer × Errno := (done.iob, done.result)

/-- What the trunk binlog gets. -/
def logged (done : Executed) : List TrunkLogEntry :=
  match done.iob.io, done.result with
  | .createTrunk space, .ok => [⟨true, space⟩]
  | .deleteTrunk space, .ok => [⟨false, space⟩]
  | _, _ => []

end Executed

/-- The plain writer executes a request: the files before and after.  A request that fails
may have had its effect, or the first part of it. -/
def Executes (disk : TrunkDisk) (done : Executed) (disk' : TrunkDisk) : Prop :=
  (done.result ≠ .ok ∧ disk' = disk) ∨
    match done.iob.io with
    | .createTrunk space => disk' = disk.link space.idInfo
    | .deleteTrunk space =>
        disk.inode space.idInfo ≠ none ∧ disk' = disk.unlink space.idInfo
    | io =>
        done.count ≤ io.bytes.length ∧ (done.result = .ok → done.count = io.bytes.length) ∧
          ∃ inode, disk.inode io.space.idInfo = some inode ∧
            disk' = disk.write inode io.space.offset (io.bytes.take done.count)

/-- A run of the plain writer. -/
inductive Plain (disk : TrunkDisk) : List Executed → TrunkDisk → Prop where
  | start : Plain disk [] disk
  | execute {run : List Executed} {mid disk' : TrunkDisk} (done : Executed) :
      Plain disk run mid → Executes mid done disk' → Plain disk (run ++ [done]) disk'

namespace Plain

variable {disk mid disk' : TrunkDisk} {run later : List Executed}

theorem single {done : Executed} (executes : Executes disk done disk') :
    Plain disk [done] disk' :=
  execute done start executes

theorem append (first : Plain disk run mid) (second : Plain mid later disk') :
    Plain disk (run ++ later) disk' := by
  induction second with
  | start =>
      rw [List.append_nil]
      exact first
  | execute done _ executes ih =>
      rw [← List.append_assoc]
      exact execute done ih executes

/-- Requests that fail without an effect. -/
theorem failed (iobs : List TrunkWriteIOBuffer) {result : Errno} (real : result ≠ .ok) :
    Plain disk (iobs.map fun iob => ⟨iob, result, 0⟩) disk := by
  induction iobs with
  | nil => exact start
  | cons iob rest ih =>
      rw [List.map_cons]
      exact append (single (.inl ⟨real, rfl⟩)) ih

end Plain

/-! ## A batch -/

/-- The bytes of a batch, one slice behind the other. -/
def batchBytes (iobs : List TrunkWriteIOBuffer) : List UInt8 :=
  iobs.flatMap fun iob => iob.io.bytes

/-- The first `count` bytes of a batch, by request. -/
def shares (result : Errno) : Nat → List TrunkWriteIOBuffer → List Executed
  | _, [] => []
  | count, iob :: rest =>
      ⟨iob, result, min count iob.io.bytes.length⟩ ::
        shares result (count - iob.io.bytes.length) rest

theorem notice_shares (result : Errno) (count : Nat) (iobs : List TrunkWriteIOBuffer) :
    (shares result count iobs).map Executed.notice = iobs.map (·, result) := by
  induction iobs generalizing count with
  | nil => rfl
  | cons iob rest ih =>
      rw [shares, List.map_cons, List.map_cons, ih]
      rfl

/-- A slice that fits, written to the trunk of the batch. -/
structure Gathers (idInfo : FSTrunkIdInfo) (iob : TrunkWriteIOBuffer) : Prop where
  write : iob.io.slice?.isSome = true
  fits : iob.io.Fits
  trunk : iob.io.space.idInfo = idInfo

theorem Gathers.length_bytes {idInfo : FSTrunkIdInfo} {iob : TrunkWriteIOBuffer}
    (gathers : Gathers idInfo iob) : (iob.io.bytes.length : Int) = iob.io.space.size := by
  obtain ⟨slice, write⟩ := Option.isSome_iff_exists.mp gathers.write
  obtain ⟨_, _, _, length⟩ := TrunkWriteRequest.bytes_eq gathers.fits write
  exact length

/-- A slice that is written is executed by itself. -/
theorem Gathers.executes {idInfo : FSTrunkIdInfo} {iob : TrunkWriteIOBuffer}
    (gathers : Gathers idInfo iob) {disk : TrunkDisk} {inode : Nat}
    (linked : disk.inode idInfo = some inode) {result : Errno} {count : Nat}
    (whole : result = .ok → iob.io.bytes.length ≤ count) :
    Executes disk ⟨iob, result, min count iob.io.bytes.length⟩
      (disk.write inode iob.io.space.offset (iob.io.bytes.take count)) := by
  have effect : min count iob.io.bytes.length ≤ iob.io.bytes.length ∧
      (result = .ok → min count iob.io.bytes.length = iob.io.bytes.length) ∧
        ∃ inode, disk.inode iob.io.space.idInfo = some inode ∧
          disk.write inode iob.io.space.offset (iob.io.bytes.take count) =
            disk.write inode iob.io.space.offset
              (iob.io.bytes.take (min count iob.io.bytes.length)) := by
    refine ⟨min_le_right _ _, fun ok => min_eq_right (whole ok), inode, ?_, ?_⟩
    · rw [gathers.trunk]
      exact linked
    · rw [← List.take_eq_take_min]
  obtain ⟨room, all, inode', linked', same⟩ := effect
  cases linked.symm.trans (gathers.trunk ▸ linked')
  refine .inr ?_
  obtain ⟨slice, write⟩ := Option.isSome_iff_exists.mp gathers.write
  cases io : iob.io with
  | createTrunk space | deleteTrunk space =>
      rw [io] at write
      cases write
  | writeSliceByBuff written buff | writeSliceByIovec written iovs =>
      rw [io] at room all linked' same
      exact ⟨room, all, inode, linked', same⟩

/-- Writing the first bytes of a batch at the place of its first slice is writing the slices
one by one. -/
theorem plain_batch {idInfo : FSTrunkIdInfo} {iobs : List TrunkWriteIOBuffer}
    (gathers : ∀ iob ∈ iobs, Gathers idInfo iob)
    (successive : iobs.IsChain fun last current =>
      last.io.space.offset + last.io.space.size = current.io.space.offset)
    {disk : TrunkDisk} {inode : Nat} (linked : disk.inode idInfo = some inode)
    {offset : Int} (starts : ∀ first ∈ iobs.head?, first.io.space.offset = offset)
    {result : Errno} {count : Nat} (whole : result = .ok → (batchBytes iobs).length ≤ count) :
    Plain disk (shares result count iobs)
      (disk.write inode offset ((batchBytes iobs).take count)) := by
  induction iobs generalizing disk offset count with
  | nil =>
      rw [batchBytes, List.flatMap_nil, List.take_nil, TrunkDisk.write_nil]
      exact .start
  | cons iob rest ih =>
      have first := gathers iob List.mem_cons_self
      have length := first.length_bytes
      have place := starts iob rfl
      have bytes : batchBytes (iob :: rest) = iob.io.bytes ++ batchBytes rest := rfl
      rw [bytes, List.length_append] at whole
      have executed : Plain disk [⟨iob, result, min count iob.io.bytes.length⟩]
          (disk.write inode offset (iob.io.bytes.take count)) := by
        rw [← place]
        exact .single (first.executes linked fun ok => by
          have all := whole ok
          omega)
      have later : Plain (disk.write inode offset (iob.io.bytes.take count))
          (shares result (count - iob.io.bytes.length) rest)
          ((disk.write inode offset (iob.io.bytes.take count)).write inode
            (offset + iob.io.bytes.length)
              ((batchBytes rest).take (count - iob.io.bytes.length))) := by
        apply ih (fun other member => gathers other (List.mem_cons_of_mem _ member))
          successive.tail (by rw [TrunkDisk.inode_write]; exact linked)
        · intro next isNext
          cases rest with
          | nil => cases isNext
          | cons head tail =>
              cases isNext
              have follows := (List.isChain_cons_cons.mp successive).1
              omega
        · intro ok
          have all := whole ok
          omega
      have joined : disk.write inode offset ((iob.io.bytes ++ batchBytes rest).take count) =
          (disk.write inode offset (iob.io.bytes.take count)).write inode
            (offset + iob.io.bytes.length)
              ((batchBytes rest).take (count - iob.io.bytes.length)) := by
        rw [List.take_append, TrunkDisk.write_append]
        cases le_total iob.io.bytes.length count with
        | inl full => rw [List.length_take, min_eq_right full]
        | inr short =>
            rw [Nat.sub_eq_zero_of_le short, List.take_zero, TrunkDisk.write_nil,
              TrunkDisk.write_nil]
      rw [shares, bytes, joined]
      exact executed.append later

theorem logged_of_write {done : Executed} (write : done.iob.io.slice?.isSome = true) :
    done.logged = [] := by
  obtain ⟨⟨version, io⟩, result, count⟩ := done
  cases io with
  | createTrunk space | deleteTrunk space => cases write
  | writeSliceByBuff slice buff | writeSliceByIovec slice iovs => rfl

/-- Slices are not logged. -/
theorem logged_of_writes {run : List Executed} {result : Errno} {iobs : List TrunkWriteIOBuffer}
    (writes : ∀ iob ∈ iobs, iob.io.slice?.isSome = true)
    (notices : run.map Executed.notice = iobs.map (·, result)) : run.flatMap Executed.logged = [] := by
  rw [List.flatMap_eq_nil_iff]
  intro done member
  have noticed : done.notice ∈ iobs.map (·, result) := by
    rw [← notices]
    exact List.mem_map_of_mem member
  obtain ⟨iob, inBatch, same⟩ := List.mem_map.mp noticed
  apply logged_of_write
  have request : iob = done.iob := congrArg Prod.fst same
  exact request ▸ writes iob inBatch

theorem iovecBytes_batch (iobs : List TrunkWriteIOBuffer) :
    iovecBytes (iobs.flatMap fun iob => iob.io.iovecs) = batchBytes iobs :=
  List.flatMap_assoc

theorem length_batchBytes {idInfo : FSTrunkIdInfo} {iobs : List TrunkWriteIOBuffer}
    (gathers : ∀ iob ∈ iobs, Gathers idInfo iob) :
    ((batchBytes iobs).length : Int) = (iobs.map fun iob => iob.io.space.size).sum := by
  induction iobs with
  | nil => rfl
  | cons iob rest ih =>
      have first := (gathers iob List.mem_cons_self).length_bytes
      have later := ih fun other member => gathers other (List.mem_cons_of_mem _ member)
      have bytes : batchBytes (iob :: rest) = iob.io.bytes ++ batchBytes rest := rfl
      rw [bytes, List.length_append, List.map_cons, List.sum_cons, ← later, ← first]
      push_cast
      rfl

namespace TrunkWriteThreadContext

variable {config : TrunkWriteConfig} {ctx ctx' : TrunkWriteThreadContext}

/-- The batch: slices that fit, of one trunk and behind each other, and their entries. -/
structure Gathered (idInfo : FSTrunkIdInfo) (ctx : TrunkWriteThreadContext) : Prop where
  gathers : ∀ iob ∈ ctx.iobs, Gathers idInfo iob
  successive : ctx.iobs.IsChain fun last current =>
    last.io.space.offset + last.io.space.size = current.io.space.offset
  iovecs : ctx.iovecs = ctx.iobs.flatMap fun iob => iob.io.iovecs
  iovecBytes : ctx.iovecBytes = (ctx.iobs.map fun iob => iob.io.space.size).sum

/-- The open file is the one of the trunk when it has its id, and its position is known. -/
def Placed (idInfo : FSTrunkIdInfo) (ctx : TrunkWriteThreadContext) : Prop :=
  ∀ handle ∈ ctx.fileHandle, handle.position = handle.offset ∧
    (handle.trunk_id = idInfo.id → ctx.disk.inode idInfo = some handle.inode)

theorem getWriteFd_spec {space : FSTrunkSpaceInfo} (placed : ctx.Placed space.idInfo)
    {outcome : BatchOutcome} {handle : WriteFileHandle}
    (opened : ctx.getWriteFd outcome space = .ok handle) :
    handle.trunk_id = space.idInfo.id ∧ handle.position = handle.offset ∧
      ctx.disk.inode space.idInfo = some handle.inode := by
  rw [getWriteFd] at opened
  cases held : ctx.fileHandle with
  | none =>
      rw [held] at opened
      dsimp only at opened
      split at opened
      · cases opened
      · cases opened
      · next linked _ =>
          cases opened
          exact ⟨rfl, rfl, linked⟩
  | some cached =>
      rw [held] at opened
      dsimp only at opened
      by_cases same : space.idInfo.id = cached.trunk_id
      · rw [if_pos same] at opened
        cases opened
        obtain ⟨position, linked⟩ := placed handle held
        exact ⟨same.symm, position, linked same.symm⟩
      · rw [if_neg same] at opened
        split at opened
        · cases opened
        · cases opened
        · next linked _ =>
            cases opened
            exact ⟨rfl, rfl, linked⟩

theorem seek_spec {handle : WriteFileHandle} (known : handle.position = handle.offset)
    {outcome : BatchOutcome} {offset position : Int}
    (sought : seek handle outcome offset = .ok position) : position = offset := by
  rw [seek] at sought
  split at sought
  · next same =>
      cases sought
      exact known.trans same
  · cases fails : outcome.lseekFails with
    | none =>
        rw [fails] at sought
        cases sought
        rfl
    | some result =>
        rw [fails] at sought
        cases sought

/-- A batch that has been written: the requests are notified with one result, the files are as
the plain writer leaves them, and the open file is the one of the batch. -/
structure BatchWritten (idInfo : FSTrunkIdInfo) (ctx ctx' : TrunkWriteThreadContext)
    (result : Errno) : Prop where
  ctx_eq : ctx' = { ctx with
    disk := ctx'.disk
    fileHandle := ctx'.fileHandle
    notified := ctx.notified ++ ctx.iobs.map (·, result)
    iobs := []
    iovecs := []
    iovecBytes := 0 }
  plain : ∃ run : List Executed, run.map Executed.notice = ctx.iobs.map (·, result) ∧
    Plain ctx.disk run ctx'.disk
  inode : ctx'.disk.inode = ctx.disk.inode
  handle : ctx'.fileHandle = ctx.fileHandle ∨ ctx'.fileHandle = none ∨
    ∃ handle, ctx'.fileHandle = some handle ∧ handle.trunk_id = idInfo.id ∧
      handle.position = handle.offset ∧ ctx.disk.inode idInfo = some handle.inode

theorem batchWrite_spec {idInfo : FSTrunkIdInfo} (gathered : ctx.Gathered idInfo)
    (placed : ctx.Placed idInfo) {outcome : BatchOutcome}
    (wrote : ctx.batchWrite config outcome = some ctx') :
    ∃ result, BatchWritten idInfo ctx ctx' result := by
  have failing {result : Errno} (real : result ≠ .ok) :
      ∃ run : List Executed, run.map Executed.notice = ctx.iobs.map (·, result) ∧
        Plain ctx.disk run ctx.disk := by
    refine ⟨_, ?_, Plain.failed ctx.iobs real⟩
    rw [List.map_map]
    rfl
  rw [batchWrite, doWriteSlices] at wrote
  cases batch : ctx.iobs with
  | nil =>
      rw [batch] at wrote
      cases wrote
  | cons first rest =>
      have trunk := (gathered.gathers first (batch ▸ List.mem_cons_self)).trunk
      rw [batch] at wrote
      dsimp only at wrote
      cases opened : ctx.getWriteFd outcome first.io.space with
      | error result =>
          rw [opened] at wrote
          dsimp only at wrote
          rw [if_pos result.2, List.take_zero, List.drop_zero, ← batch] at wrote
          cases wrote
          refine ⟨result.1, ?_, failing result.2, rfl, .inl rfl⟩
          simp
      | ok handle =>
          obtain ⟨named, known, linked⟩ := getWriteFd_spec (trunk.symm ▸ placed) opened
          rw [trunk] at named linked
          rw [opened] at wrote
          dsimp only at wrote
          cases sought : seek handle outcome first.io.space.offset with
          | error result =>
              rw [sought] at wrote
              dsimp only at wrote
              rw [if_pos result.2, List.take_zero, List.drop_zero, ← batch] at wrote
              cases wrote
              refine ⟨result.1, ?_, failing result.2, rfl, .inr (.inl rfl)⟩
              simp
          | ok position =>
              have place := seek_spec known sought
              have bytes : FastStore.Storage.iovecBytes ctx.iovecs = batchBytes ctx.iobs := by
                rw [gathered.iovecs, iovecBytes_batch]
              have length : ctx.iovecBytes = (FastStore.Storage.iovecBytes ctx.iovecs).length := by
                rw [bytes, length_batchBytes gathered.gathers, gathered.iovecBytes]
              have filled : ∀ iov ∈ ctx.iovecs, 0 < iov.len := by
                intro iov member
                rw [gathered.iovecs] at member
                obtain ⟨iob, inBatch, entry⟩ := List.mem_flatMap.mp member
                exact TrunkWriteRequest.filled_iovecs (gathered.gathers iob inBatch).fits iov entry
              rw [sought] at wrote
              dsimp only at wrote
              cases written : do_write_slices outcome.writev config.iovMax config.positive
                  outcome.fuel ctx.iovecs ctx.iovecBytes with
              | none =>
                  rw [written] at wrote
                  cases wrote
              | some ended =>
                  obtain ⟨result, progress⟩ := ended
                  have ran := written
                  rw [length] at ran
                  obtain ⟨count, room, taken, whole⟩ :=
                    do_write_slices_wrote outcome config filled ran
                  rw [bytes] at room taken whole
                  have plain : Plain ctx.disk (shares result count ctx.iobs)
                      (ctx.disk.write handle.inode position progress.written) := by
                    rw [taken, place]
                    apply plain_batch gathered.gathers gathered.successive linked
                    · intro head isHead
                      rw [batch] at isHead
                      cases isHead
                      rfl
                    · intro ok
                      exact (whole ok).ge
                  rw [written] at wrote
                  dsimp only at wrote
                  by_cases ok : result = .ok
                  · subst ok
                    rw [if_neg (not_not.mpr rfl)] at wrote
                    dsimp only at wrote
                    rw [if_neg (not_not.mpr rfl), ← batch, List.take_length,
                      List.append_nil] at wrote
                    cases wrote
                    refine ⟨.ok, rfl, ⟨_, notice_shares _ _ _, plain⟩, rfl,
                      .inr (.inr ⟨_, rfl, named, ?_, linked⟩)⟩
                    dsimp only
                    rw [place, taken, whole rfl, List.take_length, length, bytes]
                  · rw [if_pos ok] at wrote
                    dsimp only at wrote
                    rw [if_pos ok, List.take_zero, List.drop_zero, ← batch] at wrote
                    cases wrote
                    refine ⟨result, ?_, ⟨_, notice_shares _ _ _, plain⟩, rfl, .inr (.inl rfl)⟩
                    simp

end TrunkWriteThreadContext

end FastStore.Dio
