import Mathlib

/-!
# Ascending chains

A linked list kept in strictly ascending order of a key is the level-0 chain of
a skiplist and also a hash bucket that is walked in key order.  This module
states what such a chain is and how the three operations on it act on its
members.  The key may be any linear order.
-/

namespace FastStore.Util

variable {α κ : Type} [LinearOrder κ]

/-- The chain is strictly ascending in its key. -/
def Ascending (key : α → κ) (chain : List α) : Prop :=
  chain.Pairwise fun left right => key left < key right

namespace Ascending

variable {key : α → κ} {chain left right : List α}

@[simp] theorem nil (key : α → κ) : Ascending key [] := List.Pairwise.nil

theorem cons_iff {head : α} :
    Ascending key (head :: chain) ↔
      (∀ item ∈ chain, key head < key item) ∧ Ascending key chain :=
  List.pairwise_cons

theorem append_iff :
    Ascending key (left ++ right) ↔
      Ascending key left ∧ Ascending key right ∧
        ∀ a ∈ left, ∀ b ∈ right, key a < key b :=
  List.pairwise_append

theorem sublist (sorted : Ascending key chain) (sub : left.Sublist chain) :
    Ascending key left :=
  List.Pairwise.sublist sub sorted

/-- A key names at most one member. -/
theorem eq_of_key_eq (sorted : Ascending key chain) {a b : α}
    (aMem : a ∈ chain) (bMem : b ∈ chain) (equal : key a = key b) : a = b := by
  induction chain with
  | nil => cases aMem
  | cons head tail ih =>
      obtain ⟨below, tailSorted⟩ := cons_iff.mp sorted
      rcases List.mem_cons.mp aMem with rfl | aTail
      · rcases List.mem_cons.mp bMem with rfl | bTail
        · rfl
        · exact absurd equal (below b bTail).ne
      · rcases List.mem_cons.mp bMem with rfl | bTail
        · exact absurd equal (below a aTail).ne'
        · exact ih tailSorted aTail bTail

theorem nodup (sorted : Ascending key chain) : chain.Nodup :=
  List.Pairwise.imp (fun less equal => by subst equal; exact lt_irrefl _ less) sorted

/-- An ascending chain is determined by its members. -/
theorem eq_of_mem_iff (leftSorted : Ascending key left) (rightSorted : Ascending key right)
    (same : ∀ item, item ∈ left ↔ item ∈ right) : left = right := by
  have perm : left.Perm right :=
    (List.perm_ext_iff_of_nodup leftSorted.nodup rightSorted.nodup).mpr same
  refine perm.eq_of_pairwise ?_ leftSorted rightSorted
  intro a b _ _ forward backward
  exact absurd forward (lt_asymm backward)

end Ascending

namespace Chain

/-- The position before which an element of key `target` belongs: the members
below it, and the first member not below it with everything after. -/
def splitAt (key : α → κ) (target : κ) (chain : List α) : List α × List α :=
  (chain.takeWhile fun item => key item < target, chain.dropWhile fun item => key item < target)

/-- The member with the given key. -/
def find? (key : α → κ) (target : κ) (chain : List α) : Option α :=
  chain.find? fun item => key item = target

/-- Link a new element at its position. -/
def insert (key : α → κ) (item : α) (chain : List α) : List α :=
  (splitAt key (key item) chain).1 ++ item :: (splitAt key (key item) chain).2

/-- Unlink the member with the given key. -/
def erase (key : α → κ) (target : κ) (chain : List α) : List α :=
  chain.filter fun item => key item ≠ target

variable {key : α → κ} {chain : List α}

theorem splitAt_append (key : α → κ) (target : κ) (chain : List α) :
    (splitAt key target chain).1 ++ (splitAt key target chain).2 = chain :=
  List.takeWhile_append_dropWhile

theorem key_lt_of_mem_splitAt_fst {target : κ} {item : α}
    (member : item ∈ (splitAt key target chain).1) : key item < target := by
  simpa using List.mem_takeWhile_imp member

/-- In an ascending chain nothing behind the split lies below the target. -/
theorem le_key_of_mem_splitAt_snd (sorted : Ascending key chain) {target : κ} {item : α}
    (member : item ∈ (splitAt key target chain).2) : target ≤ key item := by
  induction chain with
  | nil => simp [splitAt] at member
  | cons head tail ih =>
      obtain ⟨below, tailSorted⟩ := Ascending.cons_iff.mp sorted
      by_cases less : key head < target
      · apply ih tailSorted
        simpa [splitAt, less] using member
      · have headMember : item ∈ head :: tail := by simpa [splitAt, less] using member
        rcases List.mem_cons.mp headMember with rfl | tailMember
        · exact not_lt.mp less
        · exact (not_lt.mp less).trans (below item tailMember).le

theorem mem_splitAt_fst_iff (sorted : Ascending key chain) {target : κ} {item : α} :
    item ∈ (splitAt key target chain).1 ↔ item ∈ chain ∧ key item < target := by
  constructor
  · intro member
    exact ⟨(splitAt_append key target chain) ▸ List.mem_append_left _ member,
      key_lt_of_mem_splitAt_fst member⟩
  · rintro ⟨member, less⟩
    rw [← splitAt_append key target chain, List.mem_append] at member
    rcases member with before | behind
    · exact before
    · exact absurd less (not_lt.mpr (le_key_of_mem_splitAt_snd sorted behind))

theorem mem_splitAt_snd_iff (sorted : Ascending key chain) {target : κ} {item : α} :
    item ∈ (splitAt key target chain).2 ↔ item ∈ chain ∧ target ≤ key item := by
  constructor
  · intro member
    exact ⟨(splitAt_append key target chain) ▸ List.mem_append_right _ member,
      le_key_of_mem_splitAt_snd sorted member⟩
  · rintro ⟨member, le⟩
    rw [← splitAt_append key target chain, List.mem_append] at member
    rcases member with before | behind
    · exact absurd (key_lt_of_mem_splitAt_fst before) (not_lt.mpr le)
    · exact behind

@[simp] theorem mem_insert {item other : α} :
    other ∈ insert key item chain ↔ other = item ∨ other ∈ chain := by
  have member := splitAt_append key (key item) chain
  rw [insert, List.mem_append, List.mem_cons]
  conv_rhs => rw [← member, List.mem_append]
  tauto

/-- An element above the whole chain becomes its last. -/
theorem insert_of_forall_lt {item : α} (above : ∀ other ∈ chain, key other < key item) :
    insert key item chain = chain ++ [item] := by
  have all : ∀ other ∈ chain, decide (key other < key item) = true := by simpa using above
  simp only [insert, splitAt, List.takeWhile_eq_self_iff.mpr all, List.dropWhile_eq_nil_iff.mpr all]

/-- An element that is not above the first of the chain comes before it. -/
theorem insert_cons_of_le {item head : α} {rest : List α} (below : key item ≤ key head) :
    insert key item (head :: rest) = item :: head :: rest := by
  simp [insert, splitAt, not_lt.mpr below]

theorem insert_cons_of_lt {item head : α} {rest : List α} (above : key head < key item) :
    insert key item (head :: rest) = head :: insert key item rest := by
  simp [insert, splitAt, above]

theorem insert_perm (key : α → κ) (item : α) (chain : List α) :
    (insert key item chain).Perm (item :: chain) := by
  have middle := @List.perm_middle α item (splitAt key (key item) chain).1
    (splitAt key (key item) chain).2
  rw [splitAt_append] at middle
  exact middle

/-- An element that is not above the last of the chain leaves it the last. -/
theorem getLast?_insert_of_le {item last : α} (isLast : chain.getLast? = some last)
    (below : key item ≤ key last) : (insert key item chain).getLast? = some last := by
  have parts := splitAt_append key (key item) chain
  have nonempty : (splitAt key (key item) chain).2 ≠ [] := by
    intro empty
    rw [empty, List.append_nil] at parts
    have member : last ∈ (splitAt key (key item) chain).1 := by
      rw [parts]
      exact List.mem_of_getLast? isLast
    exact absurd (key_lt_of_mem_splitAt_fst member) (not_lt.mpr below)
  rw [← parts, List.getLast?_append_of_ne_nil _ nonempty] at isLast
  rw [insert, List.getLast?_append_of_ne_nil _ (List.cons_ne_nil _ _)]
  exact (List.getLast?_append_of_ne_nil [item] nonempty).trans isLast

/-- Linking an element of a fresh key keeps the chain ascending. -/
theorem ascending_insert (sorted : Ascending key chain) {item : α}
    (fresh : ∀ other ∈ chain, key other ≠ key item) :
    Ascending key (insert key item chain) := by
  have parts := sorted
  rw [← splitAt_append key (key item) chain, Ascending.append_iff] at parts
  obtain ⟨before, behind, across⟩ := parts
  refine Ascending.append_iff.mpr ⟨before, Ascending.cons_iff.mpr ⟨?_, behind⟩, ?_⟩
  · intro other member
    have inChain := (mem_splitAt_snd_iff sorted).mp member
    exact lt_of_le_of_ne inChain.2 fun equal => fresh other inChain.1 equal.symm
  · intro other member last lastMember
    rcases List.mem_cons.mp lastMember with rfl | lastBehind
    · exact key_lt_of_mem_splitAt_fst member
    · exact across other member last lastBehind

@[simp] theorem mem_erase {target : κ} {item : α} :
    item ∈ erase key target chain ↔ item ∈ chain ∧ key item ≠ target := by
  simp [erase]

/-- Unlinking a member leaves what is before it and what is behind it. -/
theorem erase_middle {before behind : List α} {item : α}
    (sorted : Ascending key (before ++ item :: behind)) :
    erase key (key item) (before ++ item :: behind) = before ++ behind := by
  obtain ⟨-, behindSorted, across⟩ := Ascending.append_iff.mp sorted
  obtain ⟨above, -⟩ := Ascending.cons_iff.mp behindSorted
  have beforeApart : ∀ other ∈ before, decide (key other ≠ key item) = true := by
    intro other member
    exact decide_eq_true (across other member item List.mem_cons_self).ne
  have behindApart : ∀ other ∈ behind, decide (key other ≠ key item) = true := by
    intro other member
    exact decide_eq_true (above other member).ne'
  rw [erase, List.filter_append, List.filter_eq_self.mpr beforeApart, List.filter_cons_of_neg (by simp),
    List.filter_eq_self.mpr behindApart]

theorem ascending_erase (sorted : Ascending key chain) (target : κ) :
    Ascending key (erase key target chain) :=
  sorted.sublist List.filter_sublist

theorem find?_eq_some_iff (sorted : Ascending key chain) {target : κ} {item : α} :
    find? key target chain = some item ↔ item ∈ chain ∧ key item = target := by
  constructor
  · intro found
    exact ⟨List.mem_of_find?_eq_some found, by simpa using List.find?_some found⟩
  · rintro ⟨member, equal⟩
    cases found : find? key target chain with
    | none =>
        have absent := List.find?_eq_none.mp found item member
        exact absurd equal (by simpa using absent)
    | some other =>
        have otherMember := List.mem_of_find?_eq_some found
        have otherKey : key other = target := by simpa using List.find?_some found
        rw [sorted.eq_of_key_eq otherMember member (otherKey.trans equal.symm)]

theorem find?_eq_none_iff {target : κ} :
    find? key target chain = none ↔ ∀ item ∈ chain, key item ≠ target := by
  simp [find?, List.find?_eq_none]

end Chain

end FastStore.Util
