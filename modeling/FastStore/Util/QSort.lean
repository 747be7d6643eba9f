import Mathlib

/-!
# The C library sort

`qsort` orders an array by a comparison function.  It promises a permutation in
ascending order and nothing about members that compare equal, so a development
takes it as a parameter with these two laws.
-/

namespace FastStore.Util

/-- A comparison function that orders its arguments: total and transitive. -/
structure Orders {α : Type} (compare : α → α → Int) : Prop where
  total : ∀ a b, compare a b ≤ 0 ∨ compare b a ≤ 0
  trans : ∀ a b c, compare a b ≤ 0 → compare b c ≤ 0 → compare a c ≤ 0

/-- Comparing by a key of a linear order. -/
theorem Orders.of_key {α κ : Type} [LinearOrder κ] {compare : α → α → Int} (key : α → κ)
    (agrees : ∀ a b, compare a b ≤ 0 ↔ key a ≤ key b) : Orders compare := by
  constructor
  · intro a b
    rw [agrees, agrees]
    exact le_total _ _
  · intro a b c first second
    rw [agrees] at first second ⊢
    exact first.trans second

/-- `qsort`. -/
structure QSort (α : Type) where
  sort : (α → α → Int) → List α → List α
  perm : ∀ compare items, (sort compare items).Perm items
  sorted : ∀ compare items, Orders compare →
    (sort compare items).Pairwise fun a b => compare a b ≤ 0

namespace QSort

variable {α : Type}

/-- A sort that exists: insertion. -/
def insertion (α : Type) : QSort α where
  sort compare items := items.insertionSort fun a b => compare a b ≤ 0
  perm _ items := List.perm_insertionSort _ items
  sorted compare items orders :=
    haveI : Std.Total fun a b => compare a b ≤ 0 := ⟨orders.total⟩
    haveI : IsTrans α fun a b => compare a b ≤ 0 := ⟨orders.trans⟩
    List.pairwise_insertionSort _ items

/-- The last member is a largest one. -/
theorem le_getLast (qsort : QSort α) {compare : α → α → Int} (orders : Orders compare)
    {items : List α} {last : α} (isLast : (qsort.sort compare items).getLast? = some last)
    {item : α} (member : item ∈ items) : compare item last ≤ 0 := by
  have sorted := qsort.sorted compare items orders
  have inside := (qsort.perm compare items).mem_iff.mpr member
  obtain ⟨front, split⟩ := List.getLast?_eq_some_iff.mp isLast
  rw [split] at sorted inside
  rcases List.mem_append.mp inside with earlier | same
  · exact (List.pairwise_append.mp sorted).2.2 item earlier last (List.mem_singleton_self last)
  · rw [List.mem_singleton.mp same]
    exact (orders.total last last).elim id id

theorem getLast_mem (qsort : QSort α) {compare : α → α → Int} {items : List α} {last : α}
    (isLast : (qsort.sort compare items).getLast? = some last) : last ∈ items :=
  (qsort.perm compare items).mem_iff.mp (List.mem_of_getLast? isLast)

end QSort

end FastStore.Util
