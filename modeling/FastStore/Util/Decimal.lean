import Mathlib.Data.List.TakeWhile
import Mathlib.Data.Nat.Digits.Defs
import Mathlib.Tactic.IntervalCases

/-!
# Lines of decimal numbers

Numbers as `printf` writes them and `strtol` reads them, and lines whose fields are separated by
blanks.  A column of a line is what `strtol` is given: the text from the start of the field to
the end of the line.
-/

namespace FastStore.Util

/-! ## Numbers -/

/-- The character of a digit. -/
def digitChar (digit : Nat) : Char := Char.ofNat (48 + digit)

/-- The digit of a character. -/
def digitValue (char : Char) : Nat := char.toNat - 48

/-- The digits of a number, the highest first. -/
def decimalNat (number : Nat) : List Char :=
  if number < 10 then [digitChar number] else decimalNat (number / 10) ++ [digitChar (number % 10)]

/-- `%d` and `%"PRId64"`. -/
def decimal : Int → List Char
  | .ofNat number => decimalNat number
  | .negSucc number => '-' :: decimalNat (number + 1)

/-- The number of some digits, the highest first. -/
def natOfDigits (digits : List Char) : Nat :=
  digits.foldl (fun number char => number * 10 + digitValue char) 0

/-- The range of a `long`. -/
def clampLong (number : Int) : Int := max (-(2 ^ 63)) (min (2 ^ 63 - 1) number)

/-- `isspace`. -/
def isSpace (char : Char) : Bool := char.toNat == 32 || 9 ≤ char.toNat && char.toNat ≤ 13

/-- What follows the sign in `strtol`: the number and the text behind it. -/
def strtolDigits (sign : Int) (text whole : List Char) : Int × List Char :=
  if text.takeWhile Char.isDigit = [] then (0, whole)
  else (clampLong (sign * natOfDigits (text.takeWhile Char.isDigit)), text.dropWhile Char.isDigit)

/-- `strtol` to the base ten: the number and where it ends. -/
def strtol (text : List Char) : Int × List Char :=
  match text.dropWhile isSpace with
  | '-' :: rest => strtolDigits (-1) rest text
  | '+' :: rest => strtolDigits 1 rest text
  | rest => strtolDigits 1 rest text

theorem isDigit_digitChar {digit : Nat} (small : digit < 10) :
    (digitChar digit).isDigit = true := by
  interval_cases digit <;> decide

theorem digitValue_digitChar {digit : Nat} (small : digit < 10) :
    digitValue (digitChar digit) = digit := by
  interval_cases digit <;> decide

theorem isDigit_of_mem_decimalNat {number : Nat} {char : Char}
    (member : char ∈ decimalNat number) : char.isDigit = true := by
  induction number using Nat.strongRecOn with
  | ind number ih =>
      rw [decimalNat] at member
      split_ifs at member with small
      · rw [List.mem_singleton.mp member]
        exact isDigit_digitChar small
      · rcases List.mem_append.mp member with high | low
        · exact ih (number / 10) (by omega) high
        · rw [List.mem_singleton.mp low]
          exact isDigit_digitChar (by omega)

theorem decimalNat_ne_nil (number : Nat) : decimalNat number ≠ [] := by
  rw [decimalNat]
  split_ifs
  · exact List.cons_ne_nil _ _
  · exact List.append_ne_nil_of_right_ne_nil _ (List.cons_ne_nil _ _)

theorem natOfDigits_decimalNat (number : Nat) : natOfDigits (decimalNat number) = number := by
  induction number using Nat.strongRecOn with
  | ind number ih =>
      rw [decimalNat]
      split_ifs with small
      · simp [natOfDigits, digitValue_digitChar small]
      · have high := ih (number / 10) (by omega)
        rw [natOfDigits] at high
        rw [natOfDigits, List.foldl_append, high, List.foldl_cons, List.foldl_nil,
          digitValue_digitChar (by omega)]
        omega

/-- The digits of a number end where no digit follows. -/
theorem strtolDigits_decimalNat (sign : Int) (number : Nat) {rest : List Char}
    (ends : ∀ char ∈ rest.head?, char.isDigit = false) (whole : List Char) :
    strtolDigits sign (decimalNat number ++ rest) whole = (clampLong (sign * number), rest) := by
  have digits : ∀ char ∈ decimalNat number, char.isDigit = true :=
    fun _ member => isDigit_of_mem_decimalNat member
  have none : rest.takeWhile Char.isDigit = [] ∧ rest.dropWhile Char.isDigit = rest := by
    cases rest with
    | nil => exact ⟨rfl, rfl⟩
    | cons char rest =>
        have other := ends char rfl
        exact ⟨List.takeWhile_cons_of_neg (by simp [other]),
          List.dropWhile_cons_of_neg (by simp [other])⟩
  have taken : (decimalNat number ++ rest).takeWhile Char.isDigit = decimalNat number := by
    rw [List.takeWhile_append_of_pos digits, none.1, List.append_nil]
  rw [strtolDigits, taken, if_neg (decimalNat_ne_nil number), natOfDigits_decimalNat,
    List.dropWhile_append_of_pos digits, none.2]

theorem clampLong_of_lt {number : Int} (low : -(2 ^ 63) ≤ number) (high : number < 2 ^ 63) :
    clampLong number = number := by
  unfold clampLong
  omega

theorem toNat_of_isDigit {char : Char} (digit : char.isDigit = true) :
    48 ≤ char.toNat ∧ char.toNat ≤ 57 := by
  simp only [Char.isDigit, Bool.and_eq_true, decide_eq_true_eq, ge_iff_le] at digit
  exact ⟨digit.1, digit.2⟩

/-- A number that was printed is read back. -/
theorem strtol_decimal {number : Int} (low : -(2 ^ 63) ≤ number) (high : number < 2 ^ 63)
    {rest : List Char} (ends : ∀ char ∈ rest.head?, char.isDigit = false) :
    strtol (decimal number ++ rest) = (number, rest) := by
  cases number with
  | ofNat number =>
      obtain ⟨first, others, split⟩ := List.exists_cons_of_ne_nil (decimalNat_ne_nil number)
      have range := toNat_of_isDigit (isDigit_of_mem_decimalNat (split ▸ List.mem_cons_self))
      have noBlank : isSpace first = false := by
        simp only [isSpace, Bool.or_eq_false_iff, Bool.and_eq_false_iff, beq_eq_false_iff_ne,
          decide_eq_false_iff_not]
        omega
      have noMinus : first ≠ '-' := by
        rintro rfl
        exact absurd range (by decide)
      have noPlus : first ≠ '+' := by
        rintro rfl
        exact absurd range (by decide)
      have read := strtolDigits_decimalNat 1 number ends (decimalNat number ++ rest)
      have value : clampLong (number : Int) = Int.ofNat number := clampLong_of_lt low high
      rw [one_mul, value] at read
      have start : (decimalNat number ++ rest).dropWhile isSpace = decimalNat number ++ rest := by
        rw [split, List.cons_append, List.dropWhile_cons_of_neg (by simp [noBlank])]
      rw [decimal, strtol, start]
      rw [split, List.cons_append] at read ⊢
      split
      · rename_i same
        exact absurd (List.cons.inj same).1 noMinus
      · rename_i same
        exact absurd (List.cons.inj same).1 noPlus
      · exact read
  | negSucc number =>
      have read := strtolDigits_decimalNat (-1) (number + 1) ends
        ('-' :: decimalNat (number + 1) ++ rest)
      have value : (-1 : Int) * ((number + 1 : Nat) : Int) = Int.negSucc number := by
        rw [Int.negSucc_eq]
        push_cast
        ring
      rw [value, clampLong_of_lt low high] at read
      exact read

/-! ## Lines -/

/-- The texts behind the blanks of a text. -/
def laterColumns : List Char → List (List Char)
  | [] => []
  | char :: rest => if char = ' ' then rest :: laterColumns rest else laterColumns rest

/-- The columns of a line that is split at its blanks. -/
def columns (line : List Char) : List (List Char) := line :: laterColumns line

/-- Fields with blanks between them, and the end of the line. -/
def lineOf : List (List Char) → List Char
  | [] => ['\n']
  | field :: rest => field ++ if rest = [] then ['\n'] else ' ' :: lineOf rest

theorem laterColumns_append {field : List Char} (noBlank : ' ' ∉ field) (rest : List Char) :
    laterColumns (field ++ rest) = laterColumns rest := by
  induction field with
  | nil => rfl
  | cons char field ih =>
      have other : char ≠ ' ' := fun same => noBlank (same ▸ List.mem_cons_self)
      rw [List.cons_append, laterColumns, if_neg other,
        ih fun member => noBlank (List.mem_cons_of_mem _ member)]

/-- The columns of a line are what is left of it from each of its fields on. -/
theorem columns_lineOf {fields : List (List Char)} (some : fields ≠ [])
    (noBlank : ∀ field ∈ fields, ' ' ∉ field) :
    columns (lineOf fields) = (List.range fields.length).map fun i => lineOf (fields.drop i) := by
  induction fields with
  | nil => exact absurd rfl some
  | cons field rest ih =>
      have first := noBlank field List.mem_cons_self
      rw [columns, List.length_cons, List.range_succ_eq_map, List.map_cons, List.drop_zero,
        List.map_map]
      congr 1
      rw [lineOf, laterColumns_append first]
      by_cases last : rest = []
      · rw [if_pos last, last]
        rfl
      · rw [if_neg last, laterColumns, if_pos rfl]
        exact ih last fun other member => noBlank other (List.mem_cons_of_mem _ member)

/-- The number at the start of a column, kept in a variable by `cast`, unless it is less than the
minimum or is not followed by one of the end characters. -/
def parseInt (cast : Int → Int) (ends : List Char) (minVal : Int) (column : List Char) :
    Option Int :=
  match (strtol column).2 with
  | [] => none
  | endChr :: _ =>
      if endChr ∈ ends ∧ minVal ≤ cast (strtol column).1 then some (cast (strtol column).1)
      else none

/-- The end character of a field with these fields behind it. -/
def endOf (rest : List (List Char)) : Char := if rest = [] then '\n' else ' '

/-- A number that a variable can hold is read from its field exactly when it is not below the
minimum. -/
theorem parseInt_lineOf {cast : Int → Int} {number : Int} (low : -(2 ^ 63) ≤ number)
    (high : number < 2 ^ 63) (kept : cast number = number) {ends : List Char}
    {rest : List (List Char)} (ended : endOf rest ∈ ends) (minVal : Int) :
    parseInt cast ends minVal (lineOf (decimal number :: rest)) =
      if minVal ≤ number then some number else none := by
  have tail : lineOf (decimal number :: rest) =
      decimal number ++ endOf rest :: if rest = [] then [] else lineOf rest := by
    rw [lineOf, endOf]
    split_ifs <;> rfl
  have digits : ∀ char ∈ (endOf rest :: if rest = [] then [] else lineOf rest).head?,
      char.isDigit = false := by
    intro char first
    rw [List.head?_cons, Option.mem_some_iff] at first
    rw [← first, endOf]
    split_ifs <;> decide
  rw [parseInt, tail, strtol_decimal low high digits]
  dsimp only
  rw [kept]
  exact if_congr (and_iff_right ended) rfl rfl

theorem not_mem_decimal {number : Int} {char : Char} (noDigit : char.isDigit = false)
    (noMinus : char ≠ '-') : char ∉ decimal number := by
  have digits : ∀ number, char ∉ decimalNat number := by
    intro number member
    rw [isDigit_of_mem_decimalNat member] at noDigit
    cases noDigit
  cases number with
  | ofNat number => exact digits number
  | negSucc number =>
      intro member
      rcases List.mem_cons.mp member with minus | digit
      · exact noMinus minus
      · exact digits _ digit

end FastStore.Util
