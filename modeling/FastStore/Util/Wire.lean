import Mathlib.Data.List.Basic
import Mathlib.Tactic.Ring
import Mathlib.Order.Basic

/-!
# Messages in memory

A buffer is memory seen from the start of a message: every position has a byte, also those
behind the message, which hold what was there before.  Numbers are stored with the high byte
first.  A reader is judged by the spans of the buffer that it looks at.
-/

namespace FastStore.Util

/-- The bytes at and around a message. -/
abbrev Buffer := Int → UInt8

namespace Buffer

variable (buff : Buffer) (pos : Int)

/-- The bytes from a position on. -/
def bytesAt (pos : Int) : Nat → List UInt8
  | 0 => []
  | len + 1 => buff pos :: bytesAt (pos + 1) len

/-- `memcpy` into the buffer. -/
def put (bytes : List UInt8) : Buffer := fun i =>
  if pos ≤ i ∧ i < pos + bytes.length then (bytes[(i - pos).toNat]?).getD 0 else buff i

@[simp] theorem length_bytesAt (len : Nat) : (buff.bytesAt pos len).length = len := by
  induction len generalizing pos with
  | zero => rfl
  | succ len ih => rw [bytesAt, List.length_cons, ih]

theorem bytesAt_congr {buff other : Buffer} {pos : Int} {len : Nat}
    (agree : ∀ i, pos ≤ i → i < pos + len → other i = buff i) :
    other.bytesAt pos len = buff.bytesAt pos len := by
  induction len generalizing pos with
  | zero => rfl
  | succ len ih =>
      have tail : other.bytesAt (pos + 1) len = buff.bytesAt (pos + 1) len := by
        apply ih
        intro i low high
        apply agree i
        · omega
        · push_cast
          omega
      rw [bytesAt, bytesAt, agree pos le_rfl (by push_cast; omega), tail]

theorem bytesAt_put_of_apart {bytes : List UInt8} {at_ : Int} {len : Nat}
    (apart : at_ + len ≤ pos ∨ pos + bytes.length ≤ at_) :
    (buff.put pos bytes).bytesAt at_ len = buff.bytesAt at_ len := by
  apply bytesAt_congr
  intro i low high
  rw [put, if_neg]
  omega

theorem put_of_inside {bytes : List UInt8} {i : Nat} (inside : i < bytes.length) :
    buff.put pos bytes (pos + i) = bytes[i] := by
  rw [put, if_pos ⟨by omega, by omega⟩, show (pos + (i : Int) - pos).toNat = i by omega,
    List.getElem?_eq_getElem inside, Option.getD_some]

theorem bytesAt_eq_ofFn (len : Nat) :
    buff.bytesAt pos len = List.ofFn fun i : Fin len => buff (pos + i) := by
  induction len generalizing pos with
  | zero => rfl
  | succ len ih =>
      rw [bytesAt, ih, List.ofFn_succ]
      congr 1
      · simp
      · congr 1
        funext i
        congr 1
        simp
        ring

/-- What was copied is found. -/
theorem bytesAt_put_self (bytes : List UInt8) :
    (buff.put pos bytes).bytesAt pos bytes.length = bytes := by
  rw [bytesAt_eq_ofFn]
  apply List.ext_getElem
  · simp
  · intro i left right
    rw [List.getElem_ofFn]
    exact put_of_inside buff pos right

@[simp] theorem put_nil : buff.put pos [] = buff := by
  funext i
  rw [put, if_neg]
  intro inside
  exact absurd inside.2 (by simpa using inside.1)

/-- Copying two pieces, one behind the other. -/
theorem put_append (left right : List UInt8) :
    buff.put pos (left ++ right) = (buff.put pos left).put (pos + left.length) right := by
  funext i
  simp only [put, List.length_append, Nat.cast_add]
  by_cases inRight : pos + left.length ≤ i ∧ i < pos + left.length + right.length
  · rw [if_pos (by omega), if_pos inRight, List.getElem?_append_right (by omega)]
    congr 2
    omega
  · rw [if_neg inRight]
    by_cases inLeft : pos ≤ i ∧ i < pos + left.length
    · rw [if_pos (by omega), if_pos inLeft, List.getElem?_append_left (by omega)]
    · rw [if_neg (by omega), if_neg inLeft]

end Buffer

/-! ## Numbers -/

/-- The number of some bytes, the high byte first. -/
def natOf (bytes : List UInt8) : Nat := bytes.foldl (fun number byte => number * 256 + byte.toNat) 0

/-- The low `width` bytes of a number, the high byte first. -/
def toBytes : Nat → Nat → List UInt8
  | 0, _ => []
  | width + 1, number => toBytes width (number / 256) ++ [UInt8.ofNat number]

@[simp] theorem length_toBytes (width number : Nat) : (toBytes width number).length = width := by
  induction width generalizing number with
  | zero => rfl
  | succ width ih => simp [toBytes, ih]

theorem natOf_append_singleton (bytes : List UInt8) (byte : UInt8) :
    natOf (bytes ++ [byte]) = natOf bytes * 256 + byte.toNat := by
  simp [natOf]

theorem natOf_toBytes (width number : Nat) :
    natOf (toBytes width number) = number % 256 ^ width := by
  induction width generalizing number with
  | zero => simp [natOf, toBytes, Nat.mod_one]
  | succ width ih =>
      have low : number % 256 ^ (width + 1) =
          number % 256 + 256 * (number / 256 % 256 ^ width) := by
        rw [Nat.pow_succ', Nat.mod_mul]
      rw [toBytes, natOf_append_singleton, ih, UInt8.toNat_ofNat', low]
      omega

/-- An `int` takes the low 32 bits of what is assigned to it. -/
def toInt (number : Int) : Int := number.bmod (2 ^ 32)

/-- It is the number in the range of an `int` that differs from it by a multiple of 2^32. -/
theorem toInt_spec (number : Int) :
    -2147483648 ≤ toInt number ∧ toInt number < 2147483648 ∧
      toInt number % 4294967296 = number % 4294967296 := by
  have size : ((2 ^ 32 : Nat) : Int) = 4294967296 := by norm_num
  rw [toInt, Int.bmod, size]
  split_ifs <;> omega

theorem toInt_of_lt {number : Int} (low : -2147483648 ≤ number) (high : number < 2147483648) :
    toInt number = number := by
  have spec := toInt_spec number
  omega

/-- `buff2int`. -/
def buff2int (buff : Buffer) (pos : Int) : Int := toInt (natOf (buff.bytesAt pos 4))

/-- `int2buff`. -/
def int2buff (number : Int) : List UInt8 := toBytes 4 (number % 2 ^ 32).toNat

/-- `buff2long`, as the `uint64_t` that it is assigned to. -/
def buff2long (buff : Buffer) (pos : Int) : Nat := natOf (buff.bytesAt pos 8)

/-- `buff2long`, as the `int64_t` that it is assigned to. -/
def buff2int64 (buff : Buffer) (pos : Int) : Int := (natOf (buff.bytesAt pos 8) : Int).bmod (2 ^ 64)

theorem buff2int64_spec (buff : Buffer) (pos : Int) :
    -(2 ^ 63) ≤ buff2int64 buff pos ∧ buff2int64 buff pos < 2 ^ 63 := by
  have low := @Int.le_bmod (natOf (buff.bytesAt pos 8)) (2 ^ 64) (Nat.two_pow_pos 64)
  have high := @Int.bmod_lt (natOf (buff.bytesAt pos 8)) (2 ^ 64) (Nat.two_pow_pos 64)
  exact ⟨low, high⟩

/-- `buff2short`. -/
def buff2short (buff : Buffer) (pos : Int) : Int := (natOf (buff.bytesAt pos 2) : Int).bmod (2 ^ 16)

/-- `long2buff`. -/
def long2buff (number : Nat) : List UInt8 := toBytes 8 number

theorem buff2int_spec (buff : Buffer) (pos : Int) :
    -2147483648 ≤ buff2int buff pos ∧ buff2int buff pos < 2147483648 :=
  ⟨(toInt_spec _).1, (toInt_spec _).2.1⟩

@[simp] theorem length_int2buff (number : Int) : (int2buff number).length = 4 := length_toBytes 4 _

@[simp] theorem length_long2buff (number : Nat) : (long2buff number).length = 8 :=
  length_toBytes 8 _

theorem buff2int_of_bytesAt {buff : Buffer} {pos number : Int} (low : -2147483648 ≤ number)
    (high : number < 2147483648) (found : buff.bytesAt pos 4 = int2buff number) :
    buff2int buff pos = number := by
  have value := toInt_spec (natOf (int2buff number))
  have stored : natOf (int2buff number) = (number % 2 ^ 32).toNat % 256 ^ 4 :=
    natOf_toBytes 4 _
  rw [buff2int, found]
  omega

theorem buff2long_of_bytesAt {buff : Buffer} {pos : Int} {number : Nat} (high : number < 2 ^ 64)
    (found : buff.bytesAt pos 8 = long2buff number) : buff2long buff pos = number := by
  have stored : natOf (long2buff number) = number % 256 ^ 8 := natOf_toBytes 8 number
  rw [buff2long, found, stored]
  omega

/-! ## Spans -/

/-- A part of a message that is looked at. -/
structure Span where
  pos : Int
  len : Int
  deriving DecidableEq, Repr

/-- The span lies in a message of the length. -/
def Span.Within (length : Int) (span : Span) : Prop := 0 ≤ span.pos ∧ span.pos + span.len ≤ length

instance (length : Int) (span : Span) : Decidable (span.Within length) :=
  inferInstanceAs (Decidable (_ ∧ _))

end FastStore.Util
