import FastStore.Util.Decimal

/-!
# Lines in a buffer

The lines of a buffer stand one behind the other, and the number at the start of a column is
found by its text, not by the end of its line.  A column that does not start with white space is
read alike whatever stands behind its line, so lines that are written one by one are read again
from the buffer.
-/

namespace FastStore.Util

/-! ## Columns with text behind them -/

/-- The second computation gives every result of the first. -/
def Below {α : Type} (first second : Option α) : Prop :=
  ∀ value, first = some value → second = some value

namespace Below

variable {α β : Type} {first second : Option α}

theorem rfl (first : Option α) : Below first first := fun _ given => given

theorem bind {next later : α → Option β} (below : Below first second)
    (rest : ∀ value, Below (next value) (later value)) :
    Below (first >>= next) (second >>= later) := by
  intro result given
  cases read : first with
  | none =>
      rw [read] at given
      cases given
  | some value =>
      rw [read] at given
      rw [below value read]
      exact rest value result given

theorem ite {p : Prop} [Decidable p] (below : Below first second) :
    Below (if p then none else first) (if p then none else second) := by
  by_cases holds : p
  · rw [if_pos holds, if_pos holds]
    exact rfl none
  · rw [if_neg holds, if_neg holds]
    exact below

end Below

/-- The columns of a line with the text behind the line. -/
def behind (cols : List (List Char)) (rest : List Char) : List (List Char) :=
  cols.map fun column => column ++ rest

theorem laterColumns_behind {rest : List Char} (noBlank : ' ' ∉ rest) (line : List Char) :
    laterColumns (line ++ rest) = behind (laterColumns line) rest := by
  induction line with
  | nil =>
      have kept := laterColumns_append noBlank []
      rw [List.append_nil] at kept
      exact kept
  | cons char line ih =>
      rw [List.cons_append, laterColumns, laterColumns, ih]
      split_ifs
      · rfl
      · rfl

theorem columns_behind {rest : List Char} (noBlank : ' ' ∉ rest) (line : List Char) :
    columns (line ++ rest) = behind (columns line) rest := by
  rw [columns, laterColumns_behind noBlank]
  rfl

/-- The text starts with a character that `strtol` does not skip. -/
def Solid (text : List Char) : Prop := ∃ char ∈ text.head?, isSpace char = false

theorem Solid.append {text : List Char} (solid : Solid text) (rest : List Char) :
    Solid (text ++ rest) := by
  cases text with
  | nil =>
      obtain ⟨char, first, -⟩ := solid
      cases first
  | cons char text => exact solid

theorem dropWhile_solid {text : List Char} (solid : Solid text) :
    text.dropWhile isSpace = text := by
  obtain ⟨char, first, noSpace⟩ := solid
  cases text with
  | nil => rfl
  | cons head text =>
      cases first
      exact List.dropWhile_cons_of_neg (by simp [noSpace])

/-- The sign of a number and what stands behind it. -/
def signOf : List Char → Int × List Char
  | '-' :: rest => (-1, rest)
  | '+' :: rest => (1, rest)
  | rest => (1, rest)

theorem strtol_eq (text : List Char) :
    strtol text = strtolDigits (signOf (text.dropWhile isSpace)).1
      (signOf (text.dropWhile isSpace)).2 text := by
  rw [strtol]
  generalize text.dropWhile isSpace = start
  fun_cases signOf start with
  | case1 rest => rfl
  | case2 rest => rfl
  | case3 start noMinus noPlus =>
      split
      · exact absurd rfl (noMinus _)
      · exact absurd rfl (noPlus _)
      · rfl

theorem signOf_append {text : List Char} (some : text ≠ []) (rest : List Char) :
    signOf (text ++ rest) = ((signOf text).1, (signOf text).2 ++ rest) := by
  cases text with
  | nil => exact absurd rfl some
  | cons char text =>
      unfold signOf
      by_cases minus : char = '-'
      · subst minus
        rfl
      · by_cases plus : char = '+'
        · subst plus
          rfl
        · simp [minus, plus]

/-- The digits of a number end before the text behind its line. -/
theorem digits_append {text left : List Char} {endChr : Char}
    (ended : text.dropWhile Char.isDigit = endChr :: left) (rest : List Char) :
    (text ++ rest).takeWhile Char.isDigit = text.takeWhile Char.isDigit ∧
      (text ++ rest).dropWhile Char.isDigit = endChr :: (left ++ rest) := by
  have shorter : (text.takeWhile Char.isDigit).length ≠ text.length := by
    have parts := congrArg List.length (@List.takeWhile_append_dropWhile _ Char.isDigit text)
    rw [ended, List.length_append, List.length_cons] at parts
    omega
  constructor
  · rw [List.takeWhile_append, if_neg shorter]
  · rw [List.dropWhile_append, ended]
    rfl

/-- A column that starts with its number gives the same with text behind its line. -/
theorem parseInt_append {cast : Int → Int} {ends : List Char} {minVal : Int} {column : List Char}
    (solid : Solid column) (spaces : ∀ endChr ∈ ends, isSpace endChr = true) (rest : List Char) :
    Below (parseInt cast ends minVal column) (parseInt cast ends minVal (column ++ rest)) := by
  intro number given
  have some : column ≠ [] := by
    rintro rfl
    obtain ⟨char, first, -⟩ := solid
    cases first
  have digits : (signOf column).2.takeWhile Char.isDigit ≠ [] := by
    intro empty
    obtain ⟨char, first, noSpace⟩ := solid
    rw [parseInt, strtol_eq, dropWhile_solid ⟨char, first, noSpace⟩, strtolDigits, if_pos empty]
      at given
    cases column with
    | nil => exact some rfl
    | cons head column =>
        cases first
        dsimp only at given
        split_ifs at given with accepted
        rw [spaces char accepted.1] at noSpace
        cases noSpace
  rw [parseInt, strtol_eq, dropWhile_solid solid, strtolDigits, if_neg digits] at given
  rw [parseInt, strtol_eq, dropWhile_solid (solid.append rest), signOf_append some, strtolDigits]
  dsimp only at given ⊢
  cases ended : (signOf column).2.dropWhile Char.isDigit with
  | nil =>
      rw [ended] at given
      cases given
  | cons endChr left =>
      obtain ⟨taken, dropped⟩ := digits_append ended rest
      rw [taken, dropped, if_neg digits]
      rw [ended] at given
      exact given

theorem col_behind_getD {cols : List (List Char)} {index : Nat} (inside : index < cols.length)
    (rest : List Char) : (behind cols rest).getD index [] = cols.getD index [] ++ rest := by
  rw [behind, List.getD_eq_getElem?_getD, List.getD_eq_getElem?_getD, List.getElem?_map,
    List.getElem?_eq_getElem inside]
  rfl

theorem take_behind (cols : List (List Char)) (rest : List Char) (count : Nat) :
    (behind cols rest).take count = behind (cols.take count) rest :=
  List.map_take.symm

@[simp] theorem length_behind (cols : List (List Char)) (rest : List Char) :
    (behind cols rest).length = cols.length :=
  List.length_map _

/-! ## How far a number is read -/

/-- What follows the white space and the sign of a number. -/
def unsignedText (text : List Char) : List Char := (signOf (text.dropWhile isSpace)).2

/-- The characters that `strtol` looks at: the white space, the sign, the digits and the character
behind them. -/
def strtolReach (text : List Char) : Nat :=
  text.length - (unsignedText text).length + ((unsignedText text).takeWhile Char.isDigit).length + 1

/-- Behind the white space and the sign of the text there are digits only. -/
def OpenEnded (text : List Char) : Prop := ∀ char ∈ unsignedText text, char.isDigit = true

instance (text : List Char) : Decidable (OpenEnded text) :=
  inferInstanceAs (Decidable (∀ char ∈ unsignedText text, char.isDigit = true))

theorem length_unsignedText (text : List Char) : (unsignedText text).length ≤ text.length := by
  have dropped : (text.dropWhile isSpace).length ≤ text.length := List.length_dropWhile_le isSpace text
  rw [unsignedText]
  generalize text.dropWhile isSpace = start at dropped
  fun_cases signOf start with
  | case1 rest => exact (Nat.le_succ _).trans dropped
  | case2 rest => exact (Nat.le_succ _).trans dropped
  | case3 start noMinus noPlus => exact dropped

theorem length_takeWhile_eq_iff {p : Char → Bool} (text : List Char) :
    (text.takeWhile p).length = text.length ↔ ∀ char ∈ text, p char = true := by
  rw [← List.takeWhile_eq_self_iff]
  constructor
  · exact (List.takeWhile_prefix p).eq_of_length
  · exact congrArg List.length

/-- A number is read beyond its text exactly when nothing in the text ends it. -/
theorem length_lt_strtolReach_iff (text : List Char) :
    text.length < strtolReach text ↔ OpenEnded text := by
  have within := length_unsignedText text
  have digits : ((unsignedText text).takeWhile Char.isDigit).length ≤ (unsignedText text).length :=
    (List.takeWhile_prefix _).length_le
  rw [OpenEnded, ← length_takeWhile_eq_iff, strtolReach]
  omega

/-- A number that ends in its text is read alike with more text behind. -/
theorem strtol_append {text : List Char} (closed : ¬OpenEnded text) (rest : List Char) :
    strtol (text ++ rest) = ((strtol text).1, (strtol text).2 ++ rest) := by
  have started : text.dropWhile isSpace ≠ [] := by
    intro none
    apply closed
    rw [OpenEnded, unsignedText, none]
    exact List.forall_mem_nil _
  have dropped : (text ++ rest).dropWhile isSpace = text.dropWhile isSpace ++ rest := by
    rw [List.dropWhile_append, if_neg (by rwa [List.isEmpty_iff])]
  cases ended : (unsignedText text).dropWhile Char.isDigit with
  | nil => exact absurd (List.dropWhile_eq_nil_iff.mp ended) closed
  | cons endChr left =>
      obtain ⟨taken, later⟩ := digits_append ended rest
      rw [strtol_eq, strtol_eq, dropped, signOf_append started, strtolDigits, strtolDigits]
      rw [unsignedText] at taken later ended
      rw [taken, later, ended]
      split_ifs
      · rfl
      · rfl

/-- The number of a text never ends behind the whole text unless nothing ends it. -/
theorem strtol_ne_nil {text : List Char} (closed : ¬OpenEnded text) : (strtol text).2 ≠ [] := by
  intro none
  rw [strtol_eq, strtolDigits] at none
  split_ifs at none with digits
  · apply closed
    rw [show text = [] from none]
    exact List.forall_mem_nil _
  · exact closed (List.dropWhile_eq_nil_iff.mp none)

theorem unsignedText_append {text : List Char} (started : text.dropWhile isSpace ≠ [])
    (rest : List Char) : unsignedText (text ++ rest) = unsignedText text ++ rest := by
  have dropped : (text ++ rest).dropWhile isSpace = text.dropWhile isSpace ++ rest := by
    rw [List.dropWhile_append, if_neg (by rwa [List.isEmpty_iff])]
  rw [unsignedText, dropped, signOf_append started, unsignedText]

/-- `strtol` looks behind a text exactly when nothing in the text ends the number. -/
theorem strtolReach_append_le_iff (text rest : List Char) :
    strtolReach (text ++ rest) ≤ text.length ↔ ¬OpenEnded text := by
  by_cases started : text.dropWhile isSpace = []
  · have openEnded : OpenEnded text := by
      rw [OpenEnded, unsignedText, started]
      exact List.forall_mem_nil _
    have dropped : unsignedText (text ++ rest) = unsignedText rest := by
      rw [unsignedText, List.dropWhile_append, started]
      rfl
    have within := length_unsignedText rest
    rw [strtolReach, dropped, List.length_append]
    exact iff_of_false (by omega) (not_not.mpr openEnded)
  · have within := length_unsignedText text
    have digits := (List.takeWhile_prefix (p := Char.isDigit) (l := unsignedText text)).length_le
    rw [← length_lt_strtolReach_iff, strtolReach, strtolReach, unsignedText_append started,
      List.takeWhile_append]
    simp only [List.length_append]
    split_ifs with all
    · rw [List.length_append]
      omega
    · omega

theorem parseInt_closed {text : List Char} (closed : ¬OpenEnded text) (cast : Int → Int)
    (ends : List Char) (minVal : Int) (rest : List Char) :
    parseInt cast ends minVal (text ++ rest) = parseInt cast ends minVal text := by
  cases ended : (strtol text).2 with
  | nil => exact absurd ended (strtol_ne_nil closed)
  | cons endChr left =>
      rw [parseInt, strtol_append closed, parseInt, ended]
      rfl

theorem mem_signOf {text : List Char} (ends : '\n' ∈ text) : '\n' ∈ (signOf text).2 := by
  fun_cases signOf text with
  | case1 rest => exact (List.mem_cons.mp ends).resolve_left (by decide)
  | case2 rest => exact (List.mem_cons.mp ends).resolve_left (by decide)
  | case3 text noMinus noPlus => exact ends

/-- A number with the end of its line behind it ends there at the latest. -/
theorem not_openEnded_of_solid {text : List Char} (solid : Solid text) (ends : '\n' ∈ text) :
    ¬OpenEnded text := by
  intro openEnded
  have digit := openEnded '\n'
  rw [unsignedText, dropWhile_solid solid] at digit
  exact absurd (digit (mem_signOf ends)) (by decide)

theorem isLong_strtol (text : List Char) :
    -(2 ^ 63) ≤ (strtol text).1 ∧ (strtol text).1 < 2 ^ 63 := by
  rw [strtol_eq, strtolDigits, clampLong]
  split_ifs
  · norm_num
  · omega

/-! ## The lines of a buffer -/

/-- The complete lines of a buffer, each with the text behind its end. -/
def bufferLines : List Char → List (List Char × List Char)
  | [] => []
  | char :: rest =>
      if char = '\n' then ([], rest) :: bufferLines rest
      else
        match bufferLines rest with
        | [] => []
        | (line, left) :: later => (char :: line, left) :: later

theorem bufferLines_line {line : List Char} (noEnd : '\n' ∉ line) (rest : List Char) :
    bufferLines (line ++ '\n' :: rest) = (line, rest) :: bufferLines rest := by
  induction line with
  | nil => rfl
  | cons char line ih =>
      have other : char ≠ '\n' := fun same => noEnd (same ▸ List.mem_cons_self)
      rw [List.cons_append, bufferLines, if_neg other,
        ih fun member => noEnd (List.mem_cons_of_mem _ member)]

/-- Lines that are read one by one are read from the buffer that holds them all. -/
theorem mapM_bufferLines {α β : Type} {line : α → List Char}
    {read : List Char × List Char → Option β} {value : α → β} {entries : List α}
    (lines : ∀ entry ∈ entries, ∃ body, line entry = body ++ ['\n'] ∧ '\n' ∉ body ∧
      ∀ rest, read (body, rest) = some (value entry)) :
    (bufferLines (entries.flatMap line)).mapM read = some (entries.map value) := by
  induction entries with
  | nil => rfl
  | cons entry entries ih =>
      obtain ⟨body, text, noEnd, taken⟩ := lines entry List.mem_cons_self
      have later := ih fun other member => lines other (List.mem_cons_of_mem _ member)
      rw [List.flatMap_cons, text, List.append_assoc, List.singleton_append, bufferLines_line noEnd,
        List.mapM_cons, taken, later]
      rfl

/-- Lines that are dealt with one by one are dealt with in order from the buffer. -/
theorem foldlM_bufferLines {α σ : Type} {line : α → List Char}
    {deal : σ → List Char × List Char → Option σ} {step : σ → α → Option σ} {entries : List α}
    (lines : ∀ entry ∈ entries, ∃ body, line entry = body ++ ['\n'] ∧ '\n' ∉ body ∧
      ∀ rest state, deal state (body, rest) = step state entry) (state : σ) :
    (bufferLines (entries.flatMap line)).foldlM deal state = entries.foldlM step state := by
  induction entries generalizing state with
  | nil => rfl
  | cons entry entries ih =>
      obtain ⟨body, text, noEnd, dealt⟩ := lines entry List.mem_cons_self
      have later := ih fun other member => lines other (List.mem_cons_of_mem _ member)
      rw [List.flatMap_cons, text, List.append_assoc, List.singleton_append, bufferLines_line noEnd,
        List.foldlM_cons, List.foldlM_cons, dealt]
      exact congrArg _ (funext later)

/-- The fields of a line with blanks between them, without the end of the line. -/
def lineBody : List (List Char) → List Char
  | [] => []
  | field :: rest => field ++ if rest = [] then [] else ' ' :: lineBody rest

theorem lineOf_eq (fields : List (List Char)) : lineOf fields = lineBody fields ++ ['\n'] := by
  induction fields with
  | nil => rfl
  | cons field rest ih =>
      rw [lineOf, lineBody, ih, List.append_assoc]
      split_ifs
      · rfl
      · rfl

theorem not_mem_lineBody {fields : List (List Char)} {char : Char} (other : char ≠ ' ')
    (absent : ∀ field ∈ fields, char ∉ field) : char ∉ lineBody fields := by
  induction fields with
  | nil => exact List.not_mem_nil
  | cons field rest ih =>
      have first := absent field List.mem_cons_self
      have later := ih fun field member => absent field (List.mem_cons_of_mem _ member)
      rw [lineBody]
      split_ifs
      · rwa [List.append_nil]
      · simp [first, later, other]

/-- Every column of a line whose fields start with no white space starts so, too. -/
theorem solid_columns {fields : List (List Char)} (some : fields ≠ [])
    (noBlank : ∀ field ∈ fields, ' ' ∉ field) (solid : ∀ field ∈ fields, Solid field) :
    ∀ column ∈ columns (lineOf fields), Solid column := by
  intro column member
  rw [columns_lineOf some noBlank] at member
  obtain ⟨index, inside, rfl⟩ := List.mem_map.mp member
  have within := List.mem_range.mp inside
  rw [List.drop_eq_getElem_cons within, lineOf]
  exact (solid _ (List.getElem_mem within)).append _

theorem newline_mem_columns {fields : List (List Char)} (some : fields ≠ [])
    (noBlank : ∀ field ∈ fields, ' ' ∉ field) :
    ∀ column ∈ columns (lineOf fields), '\n' ∈ column := by
  intro column member
  rw [columns_lineOf some noBlank] at member
  obtain ⟨index, -, rfl⟩ := List.mem_map.mp member
  rw [lineOf_eq]
  exact List.mem_append_right _ (List.mem_singleton_self _)

theorem solid_decimal (number : Int) : Solid (decimal number) := by
  cases number with
  | ofNat number =>
      obtain ⟨first, others, split⟩ := List.exists_cons_of_ne_nil (decimalNat_ne_nil number)
      have range := toNat_of_isDigit (isDigit_of_mem_decimalNat (split ▸ List.mem_cons_self))
      refine ⟨first, ?_, ?_⟩
      · rw [decimal, split]
        rfl
      · simp only [isSpace, Bool.or_eq_false_iff, Bool.and_eq_false_iff, beq_eq_false_iff_ne,
          decide_eq_false_iff_not]
        omega
  | negSucc number => exact ⟨'-', rfl, rfl⟩

/-! ## The lengths of lines -/

theorem length_decimalNat_le {number count : Nat} (small : number < 10 ^ (count + 1)) :
    (decimalNat number).length ≤ count + 1 := by
  induction count generalizing number with
  | zero =>
      have digit : number < 10 := small
      rw [decimalNat, if_pos digit]
      exact le_rfl
  | succ count ih =>
      rw [decimalNat]
      split_ifs
      · exact Nat.le_add_left 1 (count + 1)
      · have high := ih (Nat.div_lt_of_lt_mul (by rwa [← pow_succ']) : number / 10 < 10 ^ (count + 1))
        rw [List.length_append]
        exact Nat.succ_le_succ high

/-- A number that is not negative takes no more characters than the bound has zeros. -/
theorem length_decimal_le {number : Int} {count : Nat} (least : 0 ≤ number)
    (most : number < 10 ^ (count + 1)) : (decimal number).length ≤ count + 1 := by
  lift number to Nat using least
  exact length_decimalNat_le (by exact_mod_cast most)

theorem length_decimal_le_of_long {number : Int} (low : -(2 ^ 63) ≤ number)
    (high : number < 2 ^ 63) : (decimal number).length ≤ 20 := by
  cases number with
  | ofNat number =>
      have most : number < 10 ^ (18 + 1) := by
        have bound : (number : Int) < 2 ^ 63 := high
        norm_num at bound ⊢
        omega
      exact (length_decimalNat_le most).trans (by norm_num)
  | negSucc number =>
      have most : number + 1 < 10 ^ (18 + 1) := by
        rw [Int.negSucc_eq] at low
        norm_num at low ⊢
        omega
      exact Nat.succ_le_succ (length_decimalNat_le most)

theorem length_lineOf {fields : List (List Char)} (some : fields ≠ []) :
    (lineOf fields).length = (fields.map List.length).sum + fields.length := by
  induction fields with
  | nil => exact absurd rfl some
  | cons field rest ih =>
      rw [lineOf, List.map_cons, List.sum_cons, List.length_append, List.length_cons]
      split_ifs with last
      · rw [last]
        rfl
      · rw [List.length_cons, ih last]
        omega

end FastStore.Util
