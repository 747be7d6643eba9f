import Mathlib

/-!
# Partial maps read over ranges

A partial map from positions to values, read over a range: how far the range is
covered, and the values up to there with a default in the holes.
-/

namespace FastStore.Util

variable {β : Type} (content : Int → Option β)

/-- The length of the range from `start` up to its last covered position, zero where no
position is covered. -/
def coveredEnd (start : Int) : Nat → Nat
  | 0 => 0
  | n + 1 => if (content (start + n)).isSome then n + 1 else coveredEnd start n

/-- The first `n` values from `start` on, with a default in the holes. -/
def filledValues (default : β) (start : Int) (n : Nat) : List β :=
  (List.range n).map fun i : Nat => (content (start + i)).getD default

variable {content} {start : Int}

theorem coveredEnd_le (n : Nat) : coveredEnd content start n ≤ n := by
  induction n with
  | zero => exact le_rfl
  | succ n ih =>
      rw [coveredEnd]
      split
      · exact le_rfl
      · exact ih.trans (Nat.le_succ n)

theorem eq_none_of_coveredEnd_le {n i : Nat} (beyond : coveredEnd content start n ≤ i)
    (inside : i < n) : content (start + i) = none := by
  induction n with
  | zero => cases inside
  | succ n ih =>
      rw [coveredEnd] at beyond
      split at beyond
      · omega
      · rename_i last
        cases Nat.lt_succ_iff_lt_or_eq.mp inside with
        | inl before => exact ih beyond before
        | inr same =>
            rw [same]
            exact Option.not_isSome_iff_eq_none.mp last

theorem isSome_of_coveredEnd {n last : Nat} (ends : coveredEnd content start n = last + 1) :
    (content (start + last)).isSome := by
  induction n with
  | zero => cases ends
  | succ n ih =>
      rw [coveredEnd] at ends
      split at ends
      · rename_i covered
        rw [← Nat.succ.inj ends]
        exact covered
      · exact ih ends

/-- The end is known by what it says: covered before it, nothing covered behind it. -/
theorem coveredEnd_eq {n bound : Nat} (inside : bound ≤ n)
    (empty : ∀ i, bound ≤ i → i < n → content (start + i) = none)
    (covered : ∀ last, bound = last + 1 → (content (start + last)).isSome) :
    coveredEnd content start n = bound := by
  apply Nat.le_antisymm
  · by_contra longer
    obtain ⟨last, ends⟩ := Nat.exists_eq_succ_of_ne_zero
      (Nat.ne_zero_of_lt (not_le.mp longer))
    have isSome := isSome_of_coveredEnd ends
    have bounded := @coveredEnd_le _ content start n
    rw [empty last (by omega) (by omega)] at isSome
    cases isSome
  · by_contra shorter
    obtain ⟨last, ends⟩ := Nat.exists_eq_succ_of_ne_zero
      (Nat.ne_zero_of_lt (not_le.mp shorter))
    have isSome := covered last ends
    have empty : content (start + last) = none :=
      eq_none_of_coveredEnd_le (by omega) (by omega : last < n)
    rw [empty] at isSome
    cases isSome

theorem coveredEnd_eq_zero_iff {n : Nat} :
    coveredEnd content start n = 0 ↔ ∀ i < n, content (start + i) = none := by
  constructor
  · intro zero i inside
    exact eq_none_of_coveredEnd_le (zero ▸ Nat.zero_le i) inside
  · intro empty
    exact coveredEnd_eq (Nat.zero_le n) (fun i _ inside => empty i inside) nofun

/-- Appending a range: the end lies in the new part if that covers anything. -/
theorem coveredEnd_add (n extra : Nat) :
    coveredEnd content start (n + extra) =
      if coveredEnd content (start + n) extra = 0 then coveredEnd content start n
      else n + coveredEnd content (start + n) extra := by
  have moved : ∀ i : Nat, content (start + (n + i : Nat)) = content (start + n + i) :=
    fun i => by rw [Nat.cast_add, Int.add_assoc]
  split
  · rename_i zero
    have empty := coveredEnd_eq_zero_iff.mp zero
    refine coveredEnd_eq ((coveredEnd_le n).trans (Nat.le_add_right n extra)) ?_
      (fun last ends => isSome_of_coveredEnd ends)
    intro i beyond inside
    by_cases before : i < n
    · exact eq_none_of_coveredEnd_le beyond before
    · obtain ⟨rest, rfl⟩ := Nat.exists_eq_add_of_le (not_lt.mp before)
      rw [moved]
      exact empty rest (by omega)
  · rename_i positive
    obtain ⟨last, ends⟩ := Nat.exists_eq_succ_of_ne_zero positive
    refine coveredEnd_eq (Nat.add_le_add_left (coveredEnd_le extra) n) ?_ ?_
    · intro i beyond inside
      obtain ⟨rest, rfl⟩ := Nat.exists_eq_add_of_le ((Nat.le_add_right n _).trans beyond)
      rw [moved]
      have inRest : rest < extra := by omega
      exact eq_none_of_coveredEnd_le (by omega) inRest
    · intro final same
      have isSome := isSome_of_coveredEnd ends
      have place : final = n + last := by omega
      rw [place, moved]
      exact isSome

theorem coveredEnd_mono {n m : Nat} (order : n ≤ m) :
    coveredEnd content start n ≤ coveredEnd content start m := by
  obtain ⟨extra, rfl⟩ := Nat.exists_eq_add_of_le order
  rw [coveredEnd_add]
  split
  · exact le_rfl
  · exact (coveredEnd_le n).trans (Nat.le_add_right n _)

/-- The range up to its end has the same end. -/
theorem coveredEnd_coveredEnd (n : Nat) :
    coveredEnd content start (coveredEnd content start n) = coveredEnd content start n :=
  coveredEnd_eq le_rfl (fun _ beyond inside => absurd inside (not_lt.mpr beyond))
    fun _ ends => isSome_of_coveredEnd ends

/-- The end of a longer range that does not reach over `n`. -/
theorem coveredEnd_of_le {n m : Nat} (order : n ≤ m)
    (short : coveredEnd content start m ≤ n) :
    coveredEnd content start n = coveredEnd content start m :=
  coveredEnd_eq short
    (fun _ beyond inside => eq_none_of_coveredEnd_le beyond (inside.trans_le order))
    fun _ ends => isSome_of_coveredEnd ends

/-- A shorter range ends before the end of a longer one exactly if it does not hold it. -/
theorem coveredEnd_lt_iff {n m : Nat} (order : n ≤ m) :
    coveredEnd content start n < coveredEnd content start m ↔ n < coveredEnd content start m := by
  constructor
  · intro shorter
    by_contra holds
    rw [coveredEnd_of_le order (not_lt.mp holds)] at shorter
    exact lt_irrefl _ shorter
  · exact (coveredEnd_le n).trans_lt

/-- The end depends on the positions of the range only. -/
theorem coveredEnd_congr {other : Int → Option β} {otherStart : Int} {n : Nat}
    (same : ∀ i < n, content (start + i) = other (otherStart + i)) :
    coveredEnd content start n = coveredEnd other otherStart n := by
  induction n with
  | zero => rfl
  | succ n ih =>
      rw [coveredEnd, coveredEnd, same n (Nat.lt_succ_self n),
        ih fun i inside => same i (inside.trans (Nat.lt_succ_self n))]

variable {default : β}

@[simp] theorem length_filledValues (n : Nat) :
    (filledValues content default start n).length = n := by
  simp [filledValues]

theorem getElem?_filledValues {n i : Nat} (inside : i < n) :
    (filledValues content default start n)[i]? = some ((content (start + i)).getD default) := by
  simp [filledValues, inside]

theorem filledValues_add (n extra : Nat) :
    filledValues content default start (n + extra) =
      filledValues content default start n ++ filledValues content default (start + n) extra := by
  rw [filledValues, filledValues, filledValues, List.range_add, List.map_append, List.map_map]
  congr 1
  apply List.map_congr_left
  intro i _
  dsimp only [Function.comp_apply]
  rw [Nat.cast_add, Int.add_assoc]

theorem filledValues_congr {other : Int → Option β} {otherStart : Int} {n : Nat}
    (same : ∀ i < n, content (start + i) = other (otherStart + i)) :
    filledValues content default start n = filledValues other default otherStart n := by
  apply List.map_congr_left
  intro i inside
  rw [same i (List.mem_range.mp inside)]

theorem filledValues_of_none {n : Nat} (empty : ∀ i < n, content (start + i) = none) :
    filledValues content default start n = List.replicate n default := by
  refine List.eq_replicate_iff.mpr ⟨length_filledValues n, ?_⟩
  intro value member
  obtain ⟨i, inside, rfl⟩ := List.mem_map.mp member
  rw [empty i (List.mem_range.mp inside), Option.getD_none]

end FastStore.Util
