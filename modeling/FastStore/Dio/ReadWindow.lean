import FastStore.Storage.TrunkFreelist

/-!
# The window of a direct read

A trunk file is read with direct I/O: the offset and the length of a read are multiples
of the block size of the device.  The read of a slice is widened to whole blocks, and goes
to a buffer of the smallest class that is large enough.  The window of a slice at the end
of a trunk lies in the file only if the file has the whole last block.
-/

namespace FastStore.Dio

open FastStore.Util FastStore.Storage

/-- `MEM_ALIGN_FLOOR`. -/
def memAlignFloor (size align : Int) : Int := size / align * align

/-- The block size of a device: a power of two, at most the size of a file block. -/
structure DeviceBlock where
  bits : Nat
  bits_le : bits ≤ 22

namespace DeviceBlock

variable (device : DeviceBlock)

def block_size : Int := 2 ^ device.bits

theorem block_size_pos : 0 < device.block_size := Int.pow_pos (by decide)

/-! ## The buffer classes -/

/-- The loop of `init_allocators` that counts the classes after the first. -/
def countLoop : Nat → Int → Nat
  | 0, _ => 0
  | fuel + 1, size => if size ≤ fsFileBlockSize then countLoop fuel (size * 2) + 1 else 0

/-- `mpool.count`; the size is above the file block size after 23 rounds at most. -/
def count : Nat := 1 + countLoop 23 device.block_size

/-- The loop of `init_allocators` that sets the sizes, for the remaining classes. -/
def sizesLoop : Nat → Int → List Int
  | 0, _ => []
  | remaining + 1, size =>
      if size = 0 then device.block_size :: sizesLoop remaining device.block_size
      else
        (if remaining = 0 then size + 2 * device.block_size else size + device.block_size) ::
          sizesLoop remaining (size * 2)

/-- The sizes of the classes after `init_allocators`. -/
def allocators : List Int := device.sizesLoop device.count 0

/-- The walk of `get_allocator` over a part of the classes. -/
def firstFit (sizes : List Int) (size : Int) : Option Int := sizes.find? fun fit => size ≤ fit

/-- `get_allocator`: the size of the class. -/
def get_allocator (size : Int) : Option Int :=
  match device.allocators[device.count / 2]? with
  | none => none
  | some middle =>
      if size < middle then firstFit (device.allocators.take (device.count / 2 + 1)) size
      else if middle < size then firstFit (device.allocators.drop (device.count / 2 + 1)) size
      else some middle

end DeviceBlock

/-! ## The window -/

/-- What is read for a slice: from `new_offset` of the file, with the slice at `offset` of
the buffer. -/
structure ReadWindow where
  new_offset : Int
  offset : Int
  read_bytes : Int
  deriving DecidableEq, Repr

/-- The window that `prepare_read_slice` computes. -/
def readWindow (block_size : Int) (slice : OBSliceEntry) : ReadWindow :=
  let new_offset := memAlignFloor slice.space.offset block_size
  let read_bytes := memAlignCeil slice.ssize.length block_size
  let offset := slice.space.offset - new_offset
  if 0 < offset then
    if new_offset + read_bytes < slice.space.offset + slice.ssize.length then
      ⟨new_offset, offset, read_bytes + block_size⟩
    else ⟨new_offset, offset, read_bytes⟩
  else ⟨new_offset, offset, read_bytes⟩

/-- `prepare_read_slice` with `read_buffer_pool_alloc`, where memory is available and the
file can be opened: the window and the size of its buffer, none for `ENOMEM`. -/
def prepare_read_slice (device : DeviceBlock) (slice : OBSliceEntry) : Option (ReadWindow × Int) :=
  let window := readWindow device.block_size slice
  (device.get_allocator (window.read_bytes + fsSpaceAlignSize)).map fun size => (window, size)

/-- What a read without an error returns: the bytes up to the end of the file. -/
def pread (file_size offset read_bytes : Int) : Int := min read_bytes (max 0 (file_size - offset))

/-- The result of `process_aio` for an event. -/
def process_aio (read_bytes : Int) : Except Errno Int → Errno
  | .error result => result
  | .ok res => if res = read_bytes then .ok else .ebusy

/-- The read that is prepared for a slice is the right one for a trunk of the given size. -/
structure ReadRight (device : DeviceBlock) (trunk_size : Int) (slice : OBSliceEntry)
    (window : ReadWindow) (size : Int) : Prop where
  prepared : prepare_read_slice device slice = some (window, size)
  offset_aligned : device.block_size ∣ window.new_offset
  length_aligned : device.block_size ∣ window.read_bytes
  start : window.new_offset + window.offset = slice.space.offset
  covered : 0 ≤ window.offset ∧ window.offset + slice.ssize.length ≤ window.read_bytes
  fits : window.read_bytes ≤ size
  smallest : ∀ other ∈ device.allocators, window.read_bytes + fsSpaceAlignSize ≤ other →
    size ≤ other
  inside : window.new_offset + window.read_bytes ≤ trunk_size
  complete : process_aio window.read_bytes
    (.ok (pread trunk_size window.new_offset window.read_bytes)) = .ok

/-! ## Rounding -/

theorem memAlignFloor_spec {align : Int} (positive : 0 < align) (size : Int) :
    align ∣ memAlignFloor size align ∧ memAlignFloor size align ≤ size ∧
      size < memAlignFloor size align + align := by
  have parts := Int.emod_add_mul_ediv size align
  have low := Int.emod_nonneg size positive.ne'
  have high := Int.emod_lt_of_pos size positive
  rw [memAlignFloor, Int.mul_comm]
  exact ⟨Int.dvd_mul_right _ _, by omega, by omega⟩

theorem memAlignCeil_spec {align : Int} (positive : 0 < align) (size : Int) :
    align ∣ memAlignCeil size align ∧ size ≤ memAlignCeil size align ∧
      memAlignCeil size align < size + align := by
  have floor := memAlignFloor_spec positive (size + (align - 1))
  exact ⟨floor.1, by rw [memAlignFloor] at floor; rw [memAlignCeil]; omega,
    by rw [memAlignFloor] at floor; rw [memAlignCeil]; omega⟩

/-- A multiple less than one step above a position is the position rounded up. -/
theorem eq_memAlignCeil {align size bound : Int} (positive : 0 < align) (aligned : align ∣ bound)
    (low : size ≤ bound) (high : bound < size + align) : bound = memAlignCeil size align := by
  have ceil := memAlignCeil_spec positive size
  have apart : |bound - memAlignCeil size align| < align := abs_lt.mpr ⟨by omega, by omega⟩
  have zero := Int.eq_zero_of_abs_lt_dvd (Int.dvd_sub aligned ceil.1) apart
  omega

/-- The window of a slice: from its start rounded down to its end rounded up. -/
theorem readWindow_spec {block_size : Int} (positive : 0 < block_size) (slice : OBSliceEntry) :
    let window := readWindow block_size slice
    window.new_offset = memAlignFloor slice.space.offset block_size ∧
      window.offset = slice.space.offset - memAlignFloor slice.space.offset block_size ∧
      block_size ∣ window.read_bytes ∧
      window.new_offset + window.read_bytes =
        memAlignCeil (slice.space.offset + slice.ssize.length) block_size := by
  have floor := memAlignFloor_spec positive slice.space.offset
  have ceil := memAlignCeil_spec positive slice.ssize.length
  dsimp only [readWindow]
  split
  · split
    · rename_i inner short
      have aligned := Int.dvd_add ceil.1 (Int.dvd_refl block_size)
      refine ⟨rfl, rfl, aligned, ?_⟩
      exact eq_memAlignCeil positive (Int.dvd_add floor.1 aligned) (by dsimp only; omega)
        (by dsimp only; omega)
    · refine ⟨rfl, rfl, ceil.1, ?_⟩
      exact eq_memAlignCeil positive (Int.dvd_add floor.1 ceil.1) (by dsimp only; omega)
        (by dsimp only; omega)
  · refine ⟨rfl, rfl, ceil.1, ?_⟩
    exact eq_memAlignCeil positive (Int.dvd_add floor.1 ceil.1) (by dsimp only; omega)
      (by dsimp only; omega)

/-! ## The classes ascend -/

namespace DeviceBlock

variable {device : DeviceBlock}

theorem countLoop_pow {fuel bits : Nat} (enough : 23 ≤ bits + fuel) :
    countLoop fuel (2 ^ bits) = 23 - bits := by
  induction fuel generalizing bits with
  | zero =>
      rw [countLoop]
      omega
  | succ fuel ih =>
      have limit : fsFileBlockSize = 2 ^ 22 := rfl
      rw [countLoop, limit]
      by_cases small : bits ≤ 22
      · have below : (2 : Int) ^ bits ≤ 2 ^ 22 := pow_le_pow_right₀ (by decide) small
        rw [if_pos below, ← Int.pow_succ, ih (by omega)]
        omega
      · have above : ¬(2 : Int) ^ bits ≤ 2 ^ 22 :=
          not_le.mpr (pow_lt_pow_right₀ (by decide) (by omega))
        rw [if_neg above]
        omega

theorem count_eq (device : DeviceBlock) : device.count = 24 - device.bits := by
  have small := device.bits_le
  rw [count, block_size, countLoop_pow (by omega)]
  omega

/-- The classes after the first: above the running size, ascending, and the last one has
two blocks more than the file block size. -/
theorem sizesLoop_spec {remaining : Nat} {size : Int} (positive : 0 < size) :
    (∀ fit ∈ device.sizesLoop remaining size, size + device.block_size ≤ fit) ∧
      (device.sizesLoop remaining size).Pairwise (· < ·) ∧
      (device.sizesLoop remaining size).length = remaining ∧
      ∀ more, remaining = more + 1 →
        (device.sizesLoop remaining size).getLast? = some (size * 2 ^ more + 2 * device.block_size) := by
  have block := device.block_size_pos
  induction remaining generalizing size with
  | zero => exact ⟨fun _ member => absurd member List.not_mem_nil, .nil, rfl, nofun⟩
  | succ remaining ih =>
      have later := ih (by omega : 0 < size * 2)
      rw [sizesLoop, if_neg positive.ne']
      refine ⟨?_, ?_, ?_, ?_⟩
      · intro fit member
        cases List.mem_cons.mp member with
        | inl first =>
            rw [first]
            split <;> omega
        | inr rest =>
            have bound := later.1 fit rest
            omega
      · refine List.pairwise_cons.mpr ⟨fun fit member => ?_, later.2.1⟩
        have bound := later.1 fit member
        split
        · rename_i zero
          rw [zero] at member
          cases member
        · omega
      · rw [List.length_cons, later.2.2.1]
      · intro more same
        obtain rfl : remaining = more := Nat.succ.inj same
        cases remaining with
        | zero =>
            rw [if_pos rfl, pow_zero, Int.mul_one]
            rfl
        | succ remaining =>
            have last := later.2.2.2 remaining rfl
            have ne : device.sizesLoop (remaining + 1) (size * 2) ≠ [] := by
              intro empty
              rw [empty] at last
              cases last
            rw [List.getLast?_cons_of_ne_nil ne, last, pow_succ']
            congr 2
            rw [Int.mul_assoc]

theorem allocators_eq (device : DeviceBlock) :
    device.allocators = device.block_size :: device.sizesLoop (23 - device.bits) device.block_size := by
  have small := device.bits_le
  have more : device.count = (23 - device.bits) + 1 := by
    rw [count_eq]
    omega
  rw [allocators, more, sizesLoop, if_pos rfl]

theorem length_allocators (device : DeviceBlock) : device.allocators.length = device.count := by
  have small := device.bits_le
  rw [allocators_eq, List.length_cons, (sizesLoop_spec device.block_size_pos).2.2.1, count_eq]
  omega

theorem allocators_ascending (device : DeviceBlock) : device.allocators.Pairwise (· < ·) := by
  have spec := @sizesLoop_spec device (23 - device.bits) device.block_size device.block_size_pos
  have positive := device.block_size_pos
  rw [allocators_eq]
  refine List.pairwise_cons.mpr ⟨fun fit member => ?_, spec.2.1⟩
  have bound := spec.1 fit member
  omega

/-- The largest class. -/
theorem getLast?_allocators (device : DeviceBlock) :
    device.allocators.getLast? = some (fsFileBlockSize + 2 * device.block_size) := by
  have small := device.bits_le
  obtain ⟨more, moreEq⟩ : ∃ more, 23 - device.bits = more + 1 := ⟨22 - device.bits, by omega⟩
  have last := (@sizesLoop_spec device (23 - device.bits) device.block_size
    device.block_size_pos).2.2.2 more moreEq
  have ne : device.sizesLoop (23 - device.bits) device.block_size ≠ [] := by
    intro empty
    rw [empty] at last
    cases last
  have power : device.block_size * 2 ^ more = fsFileBlockSize := by
    rw [block_size, ← pow_add, show device.bits + more = 22 by omega]
    rfl
  rw [allocators_eq, List.getLast?_cons_of_ne_nil ne, last, power]

/-- In ascending sizes the search on one side of a middle class finds the first class of
all that is large enough. -/
theorem firstFit_middle {before behind : List Int} {middle : Int}
    (ascending : (before ++ middle :: behind).Pairwise (· < ·)) (size : Int) :
    (if size < middle then firstFit ((before ++ middle :: behind).take (before.length + 1)) size
      else if middle < size then
        firstFit ((before ++ middle :: behind).drop (before.length + 1)) size
      else some middle) = firstFit (before ++ middle :: behind) size := by
  have parts := List.pairwise_append.mp ascending
  have taken : (before ++ middle :: behind).take (before.length + 1) = before ++ [middle] := by
    simp [List.take_append]
  have dropped : (before ++ middle :: behind).drop (before.length + 1) = behind := by
    simp [List.drop_append]
  have tooSmall : middle ≤ size → before.find? (fun fit => size ≤ fit) = none := by
    intro above
    refine List.find?_eq_none.mpr fun fit member => ?_
    have less := parts.2.2 fit member middle List.mem_cons_self
    simpa using less.trans_le above
  rw [taken, dropped]
  split
  · rename_i below
    rw [firstFit, firstFit, List.find?_append, List.find?_append,
      List.find?_cons_of_pos (by simpa using below.le),
      List.find?_cons_of_pos (by simpa using below.le)]
  · split
    · rename_i above
      rw [firstFit, firstFit, List.find?_append, tooSmall above.le, Option.none_or,
        List.find?_cons_of_neg (by simpa using above)]
    · rename_i notBelow notAbove
      rw [firstFit, List.find?_append, tooSmall (not_lt.mp notBelow), Option.none_or,
        List.find?_cons_of_pos (by simpa using not_lt.mp notAbove)]

/-- The search from the middle finds the first class that is large enough. -/
theorem get_allocator_eq (device : DeviceBlock) (size : Int) :
    device.get_allocator size = firstFit device.allocators size := by
  have half : device.count / 2 < device.allocators.length := by
    have small := device.bits_le
    rw [length_allocators, count_eq]
    omega
  have split := List.take_append_drop (device.count / 2) device.allocators
  rw [List.drop_eq_getElem_cons half] at split
  have short : (device.allocators.take (device.count / 2)).length = device.count / 2 :=
    List.length_take_of_le half.le
  have ascending := device.allocators_ascending
  rw [get_allocator, List.getElem?_eq_getElem half]
  dsimp only
  have search := firstFit_middle (split ▸ ascending) size
  rw [split, short] at search
  exact search

/-- What the search finds is the smallest class that is large enough. -/
theorem firstFit_spec {sizes : List Int} (ascending : sizes.Pairwise (· < ·)) {size fit : Int}
    (found : firstFit sizes size = some fit) :
    size ≤ fit ∧ ∀ other ∈ sizes, size ≤ other → fit ≤ other := by
  rw [firstFit] at found
  have large : size ≤ fit := of_decide_eq_true (@List.find?_some _ (fun fit => size ≤ fit) _ _ found)
  obtain ⟨_, before, behind, rfl, small⟩ := List.find?_eq_some_iff_append.mp found
  refine ⟨large, fun other member enough => ?_⟩
  cases List.mem_append.mp member with
  | inl earlier =>
      have tooSmall := small other earlier
      exact absurd enough (by simpa using tooSmall)
  | inr later =>
      cases List.mem_cons.mp later with
      | inl same => exact same.ge
      | inr above =>
          have order := (List.pairwise_append.mp ascending).2.1
          exact ((List.pairwise_cons.mp order).1 other above).le

/-- There is a class for every size up to the largest. -/
theorem exists_get_allocator_iff (device : DeviceBlock) (size : Int) :
    (∃ fit, device.get_allocator size = some fit) ↔
      size ≤ fsFileBlockSize + 2 * device.block_size := by
  have last := device.getLast?_allocators
  obtain ⟨before, split⟩ := List.getLast?_eq_some_iff.mp last
  have ascending := device.allocators_ascending
  rw [get_allocator_eq]
  constructor
  · rintro ⟨fit, found⟩
    have spec := firstFit_spec ascending found
    have member := List.mem_of_find?_eq_some found
    rw [split] at member ascending
    cases List.mem_append.mp member with
    | inl earlier =>
        have less := (List.pairwise_append.mp ascending).2.2 fit earlier _ List.mem_cons_self
        exact spec.1.trans less.le
    | inr final => exact spec.1.trans (List.mem_singleton.mp final).le
  · intro small
    apply Option.isSome_iff_exists.mp
    refine List.find?_isSome.mpr ⟨_, List.mem_of_getLast? last, decide_eq_true small⟩

end DeviceBlock

variable {device : DeviceBlock} {trunk_size : Int} {slice : OBSliceEntry}

/-- What the window of a slice has to fit into: the trunk, and the largest class. -/
theorem exists_readRight_iff :
    (∃ window size, ReadRight device trunk_size slice window size) ↔
      memAlignCeil (slice.space.offset + slice.ssize.length) device.block_size ≤ trunk_size ∧
        memAlignCeil (slice.space.offset + slice.ssize.length) device.block_size -
          memAlignFloor slice.space.offset device.block_size + fsSpaceAlignSize ≤
          fsFileBlockSize + 2 * device.block_size := by
  have positive := device.block_size_pos
  have floor := memAlignFloor_spec positive slice.space.offset
  have ceil := memAlignCeil_spec positive (slice.space.offset + slice.ssize.length)
  have spec := readWindow_spec positive slice
  dsimp only at spec
  have bytes : (readWindow device.block_size slice).read_bytes =
      memAlignCeil (slice.space.offset + slice.ssize.length) device.block_size -
        memAlignFloor slice.space.offset device.block_size := by
    have total := spec.2.2.2
    rw [spec.1] at total
    omega
  have prepared : ∀ size, prepare_read_slice device slice =
      some (readWindow device.block_size slice, size) ↔
      device.get_allocator ((readWindow device.block_size slice).read_bytes + fsSpaceAlignSize) =
        some size := by
    intro size
    simp [prepare_read_slice]
  rw [← bytes, ← device.exists_get_allocator_iff]
  constructor
  · rintro ⟨window, size, right⟩
    have same : window = readWindow device.block_size slice := by
      obtain ⟨_, _, pair⟩ := Option.map_eq_some_iff.mp right.prepared
      exact (congrArg Prod.fst pair).symm
    rw [same] at right
    exact ⟨spec.2.2.2 ▸ right.inside, size, (prepared size).mp right.prepared⟩
  · rintro ⟨inside, size, found⟩
    have fit := DeviceBlock.firstFit_spec device.allocators_ascending
      (device.get_allocator_eq _ ▸ found)
    have align : (0 : Int) ≤ fsSpaceAlignSize := by decide
    refine ⟨readWindow device.block_size slice, size, (prepared size).mpr found, ?_, spec.2.2.1,
      ?_, ?_, ?_, fit.2, ?_, ?_⟩
    · exact spec.1 ▸ floor.1
    · omega
    · omega
    · omega
    · rw [spec.2.2.2]
      exact inside
    · have window : (readWindow device.block_size slice).read_bytes ≤
          trunk_size - (readWindow device.block_size slice).new_offset := by omega
      rw [process_aio, pread, min_eq_left (window.trans (le_max_right _ _)), if_pos rfl]

/-- Two blocks more than a file block leave room for every window, and one block of that
is never needed. -/
theorem window_length_le (short : slice.ssize.length ≤ fsFileBlockSize) :
    memAlignCeil (slice.space.offset + slice.ssize.length) device.block_size -
      memAlignFloor slice.space.offset device.block_size ≤
      fsFileBlockSize + device.block_size := by
  have positive := device.block_size_pos
  have floor := memAlignFloor_spec positive slice.space.offset
  have ceil := memAlignCeil_spec positive (slice.space.offset + slice.ssize.length)
  have whole : device.block_size ∣ fsFileBlockSize := by
    have power : fsFileBlockSize = 2 ^ 22 := rfl
    rw [power, DeviceBlock.block_size]
    exact pow_dvd_pow 2 device.bits_le
  have slack : device.block_size ∣ fsFileBlockSize + 2 * device.block_size -
      (memAlignCeil (slice.space.offset + slice.ssize.length) device.block_size -
        memAlignFloor slice.space.offset device.block_size) :=
    Int.dvd_sub (Int.dvd_add whole (Int.dvd_mul_left _ _)) (Int.dvd_sub ceil.1 floor.1)
  have least := Int.le_of_dvd (by omega) slack
  omega

/-- A slice of 5000 bytes in a trunk of 256 MB. -/
def innerSlice : OBSliceEntry where
  ob := ⟨1, 0⟩
  type := .file
  ssize := ⟨0, 5000⟩
  space := ⟨0, ⟨1, 1⟩, 104, 5000⟩

/-- The last 4 MB of a trunk whose size is eight bytes over 64 MB. -/
def lastSlice : OBSliceEntry where
  ob := ⟨1, 0⟩
  type := .file
  ssize := ⟨0, 4 * 1024 * 1024⟩
  space := ⟨0, ⟨1, 1⟩, 60 * 1024 * 1024 + 8, 4 * 1024 * 1024⟩

end FastStore.Dio
