import FastStore.Util.Chain

/-!
# Binary search in an array

`bsearch` of the C library on an array of items that are compared by a key.  On a
strictly ascending array it finds an item exactly when one has the key.
-/

namespace FastStore.Util

variable {α κ : Type} [LinearOrder κ]

/-- The loop of `bsearch` over the half-open interval `[l, u)`; `fuel` bounds the
number of rounds. -/
def bsearchLoop (key : α → κ) (target : κ) (array : List α) : Nat → Nat → Nat → Option α
  | 0, _, _ => none
  | fuel + 1, l, u =>
      if l < u then
        let idx := (l + u) / 2
        match array[idx]? with
        | none => none
        | some item =>
            if target < key item then bsearchLoop key target array fuel l idx
            else if key item < target then bsearchLoop key target array fuel (idx + 1) u
            else some item
      else none

/-- `bsearch`. -/
def bsearch (key : α → κ) (target : κ) (array : List α) : Option α :=
  bsearchLoop key target array array.length 0 array.length

variable {key : α → κ} {target : κ} {array : List α}

theorem bsearchLoop_mem {fuel l u : Nat} {item : α}
    (found : bsearchLoop key target array fuel l u = some item) :
    item ∈ array ∧ key item = target := by
  induction fuel generalizing l u with
  | zero => exact absurd found nofun
  | succ fuel ih =>
      rw [bsearchLoop] at found
      by_cases active : l < u
      · rw [if_pos active] at found
        dsimp only at found
        cases read : array[(l + u) / 2]? with
        | none =>
            rw [read] at found
            exact absurd found nofun
        | some middle =>
            rw [read] at found
            dsimp only at found
            split at found
            · exact ih found
            · split at found
              · exact ih found
              · rename_i notLess notGreater
                obtain rfl := Option.some.inj found
                exact ⟨List.mem_of_getElem? read,
                  le_antisymm (not_lt.mp notLess) (not_lt.mp notGreater)⟩
      · rw [if_neg active] at found
        exact absurd found nofun

/-- The interval always holds the place of the key, and shrinks in each round. -/
theorem bsearchLoop_isSome (sorted : Ascending key array) {fuel l u place : Nat} {item : α}
    (read : array[place]? = some item) (hit : key item = target) (above : l ≤ place)
    (below : place < u) (inside : u ≤ array.length) (enough : u - l ≤ fuel) :
    (bsearchLoop key target array fuel l u).isSome := by
  induction fuel generalizing l u with
  | zero => omega
  | succ fuel ih =>
      have active : l < u := above.trans_lt below
      have midLt : (l + u) / 2 < array.length := by omega
      rw [bsearchLoop, if_pos active]
      dsimp only
      rw [List.getElem?_eq_getElem midLt]
      dsimp only
      have placeLt : place < array.length := below.trans_le inside
      have itemEq : array[place] = item := by
        rw [List.getElem?_eq_getElem placeLt] at read
        exact Option.some.inj read
      have ordered : ∀ {i j : Nat} (hi : i < array.length) (hj : j < array.length), i < j →
          key array[i] < key array[j] :=
        fun hi hj less => List.pairwise_iff_getElem.mp sorted _ _ hi hj less
      split
      · rename_i less
        refine ih above ?_ (by omega) (by omega)
        by_contra beyond
        have between : (l + u) / 2 ≤ place := not_lt.mp beyond
        cases between.lt_or_eq with
        | inl before =>
            have keys := ordered midLt placeLt before
            rw [itemEq, hit] at keys
            exact absurd keys (lt_asymm less)
        | inr same =>
            simp only [same, itemEq, hit] at less
            exact absurd less (lt_irrefl _)
      · split
        · rename_i greater
          refine ih ?_ below inside (by omega)
          by_contra beyond
          have between : place ≤ (l + u) / 2 := by omega
          cases between.lt_or_eq with
          | inl before =>
              have keys := ordered placeLt midLt before
              rw [itemEq, hit] at keys
              exact absurd keys (lt_asymm greater)
          | inr same =>
              simp only [← same, itemEq, hit] at greater
              exact absurd greater (lt_irrefl _)
        · rfl

/-- On an ascending array the search succeeds exactly when an item has the key. -/
theorem bsearch_isSome_iff (sorted : Ascending key array) :
    (bsearch key target array).isSome ↔ ∃ item ∈ array, key item = target := by
  constructor
  · intro some
    obtain ⟨item, found⟩ := Option.isSome_iff_exists.mp some
    have hit := bsearchLoop_mem found
    exact ⟨item, hit.1, hit.2⟩
  · rintro ⟨item, member, hit⟩
    obtain ⟨place, read⟩ := List.getElem?_of_mem member
    have below : place < array.length := (List.getElem?_eq_some_iff.mp read).1
    exact bsearchLoop_isSome sorted read hit (Nat.zero_le _) below le_rfl le_rfl

end FastStore.Util
