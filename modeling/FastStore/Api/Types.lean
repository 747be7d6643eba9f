import FastStore.Storage.Types
import FastStore.Util.Overlay

/-!
# The calls of the client API and the content of the server

The server holds for every byte of a block whether nothing is stored there, space
is reserved, or a value was written.  The calls of the low-level client change this
content or look at a range of it; a client without write combining and read-ahead
is the low-level client and nothing else.
-/

namespace FastStore.Api

open FastStore.Storage FastStore.Util

/-- A byte of a block. -/
abbrev BlockByte := FSBlockKey × Int

/-- What the server holds for a byte: a hole, reserved space, or a value. -/
inductive Cell where
  | hole
  | allocated
  | byte (value : UInt8)
  deriving DecidableEq, Repr

/-- What a read yields for the byte; holes and reserved space are zero. -/
def Cell.value : Cell → UInt8
  | hole => 0
  | allocated => 0
  | byte value => value

/-- The content of the server. -/
abbrev Cells := BlockByte → Cell

/-- The end of a range. -/
def sliceEnd (ssize : FSSliceSize) : Int := ssize.offset + ssize.length

/-- The byte is in the range. -/
def Covers (bsKey : FSBlockSliceKeyInfo) (q : BlockByte) : Prop :=
  q.1 = bsKey.block ∧ bsKey.slice.offset ≤ q.2 ∧ q.2 < sliceEnd bsKey.slice

instance (bsKey : FSBlockSliceKeyInfo) (q : BlockByte) : Decidable (Covers bsKey q) :=
  inferInstanceAs (Decidable (_ ∧ _ ∧ _))

/-- `fs_slice_is_overlap`. -/
def fsSliceIsOverlap (s1 s2 : FSSliceSize) : Bool :=
  if s1.offset < s2.offset then s2.offset < s1.offset + s1.length
  else s1.offset < s2.offset + s2.length

/-- Ranges that the test keeps apart, or that lie in this order, share no byte. -/
theorem not_covers_of_apart {left right : FSBlockSliceKeyInfo} {q : BlockByte}
    (apart : fsSliceIsOverlap left.slice right.slice = false ∨
      sliceEnd left.slice ≤ right.slice.offset)
    (covered : Covers left q) : ¬Covers right q := by
  intro other
  cases apart with
  | inl free =>
      have leftBelow := covered.2
      have rightBelow := other.2
      simp only [sliceEnd] at leftBelow rightBelow
      unfold fsSliceIsOverlap at free
      split at free
      · have order := of_decide_eq_false free
        omega
      · have order := of_decide_eq_false free
        omega
  | inr order => exact absurd (covered.2.2.trans_le order) (not_lt.mpr other.2.1)

/-! ## The low-level client -/

/-- The values a write of `buff` to the range puts down. -/
def writtenTo (bsKey : FSBlockSliceKeyInfo) (buff : Int → UInt8) (q : BlockByte) : Option Cell :=
  if Covers bsKey q then some (.byte (buff (q.2 - bsKey.slice.offset))) else none

theorem writtenTo_eq_none_iff {bsKey : FSBlockSliceKeyInfo} {buff : Int → UInt8} {q : BlockByte} :
    writtenTo bsKey buff q = none ↔ ¬Covers bsKey q := by
  unfold writtenTo
  split <;> simp_all

theorem writtenTo_of_covers {bsKey : FSBlockSliceKeyInfo} {q : BlockByte} (covered : Covers bsKey q)
    (buff : Int → UInt8) :
    writtenTo bsKey buff q = some (.byte (buff (q.2 - bsKey.slice.offset))) :=
  if_pos covered

/-- `fs_client_slice_write`. -/
def fsClientSliceWrite (bsKey : FSBlockSliceKeyInfo) (buff : Int → UInt8) (cells : Cells) : Cells :=
  overwrite (writtenTo bsKey buff) cells

/-- `fs_client_slice_allocate_ex`: the holes of the range become reserved space. -/
def fsClientSliceAllocate (bsKey : FSBlockSliceKeyInfo) (cells : Cells) : Cells :=
  fun q => if Covers bsKey q ∧ cells q = .hole then .allocated else cells q

/-- `fs_client_slice_delete_ex`. -/
def fsClientSliceDelete (bsKey : FSBlockSliceKeyInfo) (cells : Cells) : Cells :=
  fun q => if Covers bsKey q then .hole else cells q

/-- `fs_client_block_delete_ex`. -/
def fsClientBlockDelete (bkey : FSBlockKey) (cells : Cells) : Cells :=
  fun q => if q.1 = bkey then .hole else cells q

/-- What the server finds for `fs_client_slice_read`, byte by byte. -/
def fsClientSliceRead (bsKey : FSBlockSliceKeyInfo) (cells : Cells) : List Cell :=
  (List.range bsKey.slice.length.toNat).map fun i : Nat =>
    cells (bsKey.block, bsKey.slice.offset + i)

/-! ## Calls -/

/-- The five calls of the API; the buffer of a write is the memory from its pointer
on. -/
inductive ApiOp where
  | write (buff : Int → UInt8)
  | read
  | allocate
  | delete
  | blockDelete

/-- A call with the thread that makes it. -/
structure ApiCall where
  tid : Nat
  bsKey : FSBlockSliceKeyInfo
  op : ApiOp

namespace ApiCall

/-- The offsets and lengths lie inside the block, and a block delete names the
whole block. -/
def Valid (call : ApiCall) : Prop :=
  0 ≤ call.bsKey.slice.offset ∧ 0 ≤ call.bsKey.slice.length ∧
    sliceEnd call.bsKey.slice ≤ fsFileBlockSize ∧
    (match call.op with
      | .blockDelete => call.bsKey.slice = ⟨0, fsFileBlockSize⟩
      | _ => True)

instance (call : ApiCall) : Decidable call.Valid := by
  unfold Valid
  cases call.op <;> exact inferInstanceAs (Decidable (_ ∧ _ ∧ _ ∧ _))

/-- What the call does to the content when the low-level client carries it out. -/
def apply (call : ApiCall) (cells : Cells) : Cells :=
  match call.op with
  | .write buff => fsClientSliceWrite call.bsKey buff cells
  | .read => cells
  | .allocate => fsClientSliceAllocate call.bsKey cells
  | .delete => fsClientSliceDelete call.bsKey cells
  | .blockDelete => fsClientBlockDelete call.bsKey.block cells

/-- What the call returns when the low-level client carries it out. -/
def answer (call : ApiCall) (cells : Cells) : List Cell :=
  match call.op with
  | .read => fsClientSliceRead call.bsKey cells
  | _ => []

/-- Every call acts on each byte by itself. -/
theorem pointwise_apply (call : ApiCall) : Pointwise call.apply := by
  intro m m' q same
  unfold apply
  cases call.op with
  | write buff => simp only [fsClientSliceWrite, overwrite, same]
  | read => exact same
  | allocate => simp only [fsClientSliceAllocate, same]
  | delete => simp only [fsClientSliceDelete, same]
  | blockDelete => simp only [fsClientBlockDelete, same]

/-- A byte outside the range is left alone; for a block delete this needs a byte
inside the block. -/
theorem apply_outside {call : ApiCall} (valid : call.Valid) {q : BlockByte}
    (inside : 0 ≤ q.2 ∧ q.2 < fsFileBlockSize) (outside : ¬Covers call.bsKey q) (cells : Cells) :
    call.apply cells q = cells q := by
  unfold apply
  cases kind : call.op with
  | write buff => exact overwrite_of_none (writtenTo_eq_none_iff.mpr outside) cells
  | read => rfl
  | allocate => exact if_neg fun both => outside both.1
  | delete => exact if_neg outside
  | blockDelete =>
      have whole := valid.2.2.2
      rw [kind] at whole
      apply if_neg
      intro sameBlock
      apply outside
      refine ⟨sameBlock, ?_, ?_⟩
      · rw [whole]
        exact inside.1
      · rw [whole, sliceEnd, zero_add]
        exact inside.2

end ApiCall

/-- A finished call with what it returned. -/
structure Finished where
  call : ApiCall
  answer : List Cell

/-- The content after the calls when the low-level client carries them out one
after another; the last call comes first. -/
def plainContent (origin : Cells) : List Finished → Cells
  | [] => origin
  | finished :: earlier => finished.call.apply (plainContent origin earlier)

/-- Every call returned what the low-level client would have returned. -/
def PlainAnswers (origin : Cells) : List Finished → Prop
  | [] => True
  | finished :: earlier =>
      finished.answer = finished.call.answer (plainContent origin earlier) ∧
        PlainAnswers origin earlier

end FastStore.Api
