import Mathlib

/-!
# The tail of a list from the first element that passes a test

`List.dropWhile` starts a window at the first element that fails a test.  These
are the facts that relate the window to the filter that keeps every failing
element: the two agree exactly when no passing element follows a failing one.

A log with ascending keys is resumed behind a key: what has a larger key is the
rest of the log behind the part that ends with the key.
-/

namespace FastStore.Util

variable {α : Type} {test : α → Bool}

/-- The window holds every element that fails the test. -/
theorem mem_dropWhile_of_fails {values : List α} {value : α} (member : value ∈ values)
    (fails : test value = false) : value ∈ values.dropWhile test := by
  induction values with
  | nil => cases member
  | cons head tail ih =>
      cases passes : test head with
      | true =>
          cases member with
          | head => simp [fails] at passes
          | tail _ member =>
              rw [List.dropWhile_cons_of_pos passes]
              exact ih member
      | false =>
          rw [List.dropWhile_cons_of_neg (by simp [passes])]
          exact member

/-- The elements of the window that matter all fail the test exactly when none of
them that passes it stands behind one that fails it. -/
theorem forall_dropWhile_iff {relevant : α → Prop} {values : List α} :
    (∀ value ∈ values.dropWhile test, relevant value → test value = false) ↔
      values.Pairwise fun earlier later =>
        test earlier = false → relevant later → test later = false := by
  induction values with
  | nil => simp
  | cons head tail ih =>
      rw [List.pairwise_cons]
      cases passes : test head with
      | true =>
          rw [List.dropWhile_cons_of_pos passes, ih]
          simp
      | false =>
          rw [List.dropWhile_cons_of_neg (by simp [passes])]
          constructor
          · intro every
            have behind : ∀ value ∈ tail, relevant value → test value = false :=
              fun value member => every value (List.mem_cons_of_mem _ member)
            refine ⟨fun value member _ => behind value member, ih.mp ?_⟩
            intro value member
            exact behind value ((List.dropWhile_sublist test).subset member)
          · rintro ⟨behind, _⟩ value member matters
            cases member with
            | head => exact passes
            | tail _ member => exact behind value member rfl matters

/-- Where no passing element follows a failing one, the window is the filter. -/
theorem mem_dropWhile_iff {values : List α} {value : α}
    (ordered : values.Pairwise fun earlier later => test earlier = false → test later = false) :
    value ∈ values.dropWhile test ↔ value ∈ values ∧ test value = false := by
  constructor
  · intro member
    have fails : ∀ value ∈ values.dropWhile test, True → test value = false :=
      forall_dropWhile_iff.mpr (by simpa using ordered)
    exact ⟨(List.dropWhile_sublist test).subset member, fails value member trivial⟩
  · rintro ⟨member, fails⟩
    exact mem_dropWhile_of_fails member fails

/-- Skipping the copies of its least element leaves an ascending list with the
other elements. -/
theorem mem_dropWhile_eq_iff [LinearOrder α] [BEq α] [LawfulBEq α] {least value : α} {values : List α}
    (ascending : (least :: values).Pairwise (· ≤ ·)) :
    value ∈ values.dropWhile (fun other => other == least) ↔
      value ∈ values ∧ value ≠ least := by
  have bounded := List.pairwise_cons.mp ascending
  rw [mem_dropWhile_iff]
  · simp
  · refine bounded.2.imp_of_mem ?_
    intro earlier later earlierMem laterMem ordered differs
    have above : least ≤ earlier := bounded.1 earlier earlierMem
    have apart : earlier ≠ least := by simpa using differs
    have : least < later := lt_of_lt_of_le (lt_of_le_of_ne above apart.symm) ordered
    simpa using this.ne'

section Resume

variable {key : α → Nat}

/-- The key of the last element, zero for none. -/
def lastKey (key : α → Nat) (values : List α) : Nat :=
  (values.getLast?.map key).getD 0

/-- The part of a log behind a key. -/
def resumeAfter (key : α → Nat) (reached : Nat) (values : List α) : List α :=
  values.dropWhile fun value => key value ≤ reached

@[simp] theorem lastKey_nil : lastKey key [] = 0 := rfl

@[simp] theorem lastKey_concat (values : List α) (value : α) :
    lastKey key (values ++ [value]) = key value := by
  simp [lastKey]

theorem lastKey_append_of_ne_nil (front : List α) {rest : List α} (nonempty : rest ≠ []) :
    lastKey key (front ++ rest) = lastKey key rest := by
  simp [lastKey, List.getLast?_append_of_ne_nil _ nonempty]

theorem le_lastKey {values : List α}
    (ascending : values.Pairwise fun earlier later => key earlier < key later)
    {value : α} (member : value ∈ values) : key value ≤ lastKey key values := by
  induction values using List.reverseRecOn with
  | nil => cases member
  | append_singleton front last _ =>
      rw [lastKey_concat]
      obtain inFront | isLast := List.mem_append.mp member
      · exact ((List.pairwise_append.mp ascending).2.2 value inFront last (by simp)).le
      · rw [List.mem_singleton.mp isLast]

theorem resumeAfter_append {front rest : List α} {reached : Nat}
    (passed : ∀ value ∈ front, key value ≤ reached) (beyond : ∀ value ∈ rest, reached < key value) :
    resumeAfter key reached (front ++ rest) = rest := by
  rw [resumeAfter, List.dropWhile_append_of_pos (by simpa using passed)]
  cases rest with
  | nil => rfl
  | cons next rest =>
      exact List.dropWhile_cons_of_neg (by simpa using beyond next List.mem_cons_self)

/-- Behind the last key of a part of the log comes the rest. -/
theorem resumeAfter_lastKey {front rest : List α}
    (ascending : (front ++ rest).Pairwise fun earlier later => key earlier < key later)
    (nonempty : front ≠ []) : resumeAfter key (lastKey key front) (front ++ rest) = rest := by
  obtain ⟨ascendingFront, -, ordered⟩ := List.pairwise_append.mp ascending
  refine resumeAfter_append (fun value member => le_lastKey ascendingFront member) ?_
  intro value member
  induction front using List.reverseRecOn with
  | nil => exact absurd rfl nonempty
  | append_singleton front last _ =>
      rw [lastKey_concat]
      exact ordered last (by simp) value member

theorem resumeAfter_suffix (reached : Nat) (values : List α) :
    resumeAfter key reached values <:+ values :=
  List.dropWhile_suffix _

/-- Everything behind a key has a larger one. -/
theorem lt_of_mem_resumeAfter {reached : Nat} {values : List α}
    (ascending : values.Pairwise fun earlier later => key earlier < key later)
    {value : α} (member : value ∈ resumeAfter key reached values) : reached < key value := by
  have beyond := (mem_dropWhile_iff (ascending.imp ?_)).mp member
  · simpa using beyond.2
  · intro earlier later ordered fails
    simp only [decide_eq_false_iff_not, not_le] at fails ⊢
    exact fails.trans ordered

end Resume

end FastStore.Util
