import Mathlib

/-!
# Slots of a ring

The slots of an array of fixed size from a start up to an end that is not included, in the
order in which a walk meets them that goes back to slot zero behind the last one.  Start and
end are the same slot when the ring is empty, so one slot always stays free.
-/

namespace FastStore.Util.Ring

variable {size start stop slot offset : Nat}

/-- The slot behind the given one. -/
def next (size slot : Nat) : Nat := (slot + 1) % size

/-- How many slots the walk meets. -/
def distance (size start stop : Nat) : Nat :=
  if start ≤ stop then stop - start else stop + size - start

/-- The slots of the walk. -/
def slots (size start stop : Nat) : List Nat :=
  (List.range (distance size start stop)).map fun offset => (start + offset) % size

theorem next_lt (positive : 0 < size) : next size slot < size :=
  Nat.mod_lt _ positive

theorem next_eq (bounded : slot < size) :
    next size slot = if slot + 1 < size then slot + 1 else 0 := by
  unfold next
  split_ifs with inside
  · exact Nat.mod_eq_of_lt inside
  · have wraps : slot + 1 = size := by omega
    rw [wraps, Nat.mod_self]

/-- A walk of less than the whole ring wraps at most once. -/
theorem add_mod_eq (bounded : start < size) (short : offset < size) :
    (start + offset) % size =
      if start + offset < size then start + offset else start + offset - size := by
  split_ifs with inside
  · exact Nat.mod_eq_of_lt inside
  · rw [Nat.mod_eq_sub_mod (not_lt.mp inside)]
    exact Nat.mod_eq_of_lt (by omega)

theorem distance_lt (startLt : start < size) (stopLt : stop < size) :
    distance size start stop < size := by
  unfold distance
  split_ifs <;> omega

theorem distance_next (startLt : start < size) (stopLt : stop < size) (apart : start ≠ stop) :
    distance size start stop = distance size (next size start) stop + 1 := by
  rw [next_eq startLt]
  unfold distance
  split_ifs <;> omega

theorem distance_stop (startLt : start < size) (stopLt : stop < size)
    (free : next size stop ≠ start) :
    distance size start (next size stop) = distance size start stop + 1 := by
  rw [next_eq stopLt] at free ⊢
  unfold distance
  split_ifs at free ⊢ <;> omega

@[simp] theorem slots_self : slots size start start = [] := by
  simp [slots, distance]

/-- The walk from a slot meets it first. -/
theorem slots_cons (startLt : start < size) (stopLt : stop < size) (apart : start ≠ stop) :
    slots size start stop = start :: slots size (next size start) stop := by
  have short := distance_lt startLt stopLt
  unfold slots
  rw [distance_next startLt stopLt apart] at short ⊢
  rw [List.range_succ_eq_map, List.map_cons, List.map_map]
  congr 1
  · exact Nat.mod_eq_of_lt startLt
  · apply List.map_congr_left
    intro offset member
    have bound := List.mem_range.mp member
    show (start + (offset + 1)) % size = (next size start + offset) % size
    rw [next, Nat.mod_add_mod]
    congr 1
    omega

/-- Moving the end on by one slot takes that slot in. -/
theorem slots_concat (startLt : start < size) (stopLt : stop < size)
    (free : next size stop ≠ start) :
    slots size start (next size stop) = slots size start stop ++ [stop] := by
  unfold slots
  rw [distance_stop startLt stopLt free, List.range_succ, List.map_append]
  congr 1
  have short := distance_lt startLt stopLt
  simp only [List.map_cons, List.map_nil, List.cons.injEq, and_true]
  rw [add_mod_eq startLt short]
  unfold distance at short ⊢
  split_ifs at short ⊢ <;> omega

theorem lt_of_mem_slots (startLt : start < size) (member : slot ∈ slots size start stop) :
    slot < size := by
  obtain ⟨offset, -, rfl⟩ := List.mem_map.mp member
  exact Nat.mod_lt _ (by omega)

/-- The walk meets no slot twice. -/
theorem nodup_slots (startLt : start < size) (stopLt : stop < size) :
    (slots size start stop).Nodup := by
  have short := distance_lt startLt stopLt
  refine List.Nodup.map_on ?_ List.nodup_range
  intro left leftMember right rightMember same
  have leftLt := List.mem_range.mp leftMember
  have rightLt := List.mem_range.mp rightMember
  rw [add_mod_eq startLt (by omega), add_mod_eq startLt (by omega)] at same
  split_ifs at same <;> omega

theorem stop_notMem_slots (startLt : start < size) (stopLt : stop < size) :
    stop ∉ slots size start stop := by
  intro member
  have short := distance_lt startLt stopLt
  obtain ⟨offset, offsetMember, same⟩ := List.mem_map.mp member
  have offsetLt := List.mem_range.mp offsetMember
  have wraps := add_mod_eq startLt (offsetLt.trans short)
  have equal : (start + offset) % size = stop := same
  rw [wraps] at equal
  unfold distance at offsetLt
  split_ifs at equal offsetLt <;> omega

end FastStore.Util.Ring
