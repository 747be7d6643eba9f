import Mathlib

/-!
# Tables of descriptors

A table gives every open file a small number.  Opening takes the lowest number that is
free, and closing frees a number, so that the next open may return it again.
-/

namespace FastStore.Util

/-- The places of a table; the numbers behind the list are free. -/
abbrev Descriptors (α : Type) := List (Option α)

namespace Descriptors

variable {α : Type} (table : Descriptors α)

/-- What is open under a number. -/
def file (n : Nat) : Option α := (table[n]?).join

/-- The number that the next open returns. -/
def lowestFree : Nat := table.findIdx Option.isNone

def openFile (file : α) : Descriptors α :=
  if table.lowestFree < table.length then table.set table.lowestFree (some file)
  else table ++ [some file]

def closeFile (n : Nat) : Descriptors α := table.set n none

variable {table}

theorem file_lowestFree : table.file table.lowestFree = none := by
  rw [file, lowestFree]
  by_cases inside : table.findIdx Option.isNone < table.length
  · have free := List.findIdx_getElem (w := inside)
    rw [List.getElem?_eq_getElem inside, Option.isNone_iff_eq_none.mp free]
    rfl
  · rw [List.getElem?_eq_none (not_lt.mp inside)]
    rfl

/-- No lower number is free. -/
theorem file_of_lt {n : Nat} (below : n < table.lowestFree) : table.file n ≠ none := by
  have inside : n < table.length := below.trans_le List.findIdx_le_length
  have used := List.not_of_lt_findIdx below
  rw [file, List.getElem?_eq_getElem inside]
  cases place : table[n] with
  | none =>
      rw [place] at used
      cases used
  | some other => exact nofun

theorem file_openFile (new : α) (n : Nat) :
    (table.openFile new).file n = if n = table.lowestFree then some new else table.file n := by
  rw [openFile]
  split
  · next inside =>
      rw [file, List.getElem?_set]
      split
      · next same =>
          rw [if_pos same.symm]
          rfl
      · next other =>
          rw [if_neg fun same => other same.symm]
          rfl
  · next full =>
      have last : table.lowestFree = table.length :=
        le_antisymm List.findIdx_le_length (not_lt.mp full)
      rw [last, file, file, List.getElem?_append]
      split
      · next below => rw [if_neg below.ne]
      · next above =>
          by_cases same : n = table.length
          · rw [if_pos same, same, Nat.sub_self]
            rfl
          · have behind : 0 < n - table.length := by omega
            rw [if_neg same, List.getElem?_eq_none (not_lt.mp above),
              List.getElem?_eq_none (Nat.succ_le_of_lt behind)]

theorem file_closeFile (n m : Nat) :
    (table.closeFile n).file m = if m = n then none else table.file m := by
  rw [closeFile, file, List.getElem?_set]
  split
  · next same =>
      rw [if_pos same.symm]
      split
      · rfl
      · rfl
  · next other =>
      rw [if_neg fun same => other same.symm]
      rfl

end Descriptors

end FastStore.Util
