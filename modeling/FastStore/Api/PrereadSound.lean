import FastStore.Api.PrereadTable

/-!
# What an invalidation removes

The table holds lists of entries that share no node, and every allocated entry is in one
of them or was taken out and is about to be freed.  An invalidation removes the
conflicting entries and no others exactly when no two of them are neighbours.
-/

namespace FastStore.Api

open FastStore.Storage FastStore.Util

namespace PrereadTable

variable {t : PrereadTable} {lists : SFTwoIdsHashKey → List Nat} {loose : Finset Nat}
  {key : SFTwoIdsHashKey}

/-- The table holds the lists, and the allocated entries are those of the lists and the
loose ones. -/
structure Holds (t : PrereadTable) (lists : SFTwoIdsHashKey → List Nat) (loose : Finset Nat) :
    Prop where
  linked : ∀ key, Linked t.next (t.head key) (lists key)
  block : ∀ key, (t.blocks key).isSome ↔ lists key ≠ []
  live : ∀ n, n ∈ t.live ↔ (∃ key, n ∈ lists key) ∨ n ∈ loose
  nodup : ∀ key, (lists key).Nodup
  apart : ∀ key other, key ≠ other → ∀ n ∈ lists key, n ∉ lists other
  loose_apart : ∀ key, ∀ n ∈ lists key, n ∉ loose

namespace Holds

theorem mem_live (holds : t.Holds lists loose) {n : Nat} (member : n ∈ lists key) : n ∈ t.live :=
  (holds.live n).mpr (.inl ⟨key, member⟩)

theorem length_le (holds : t.Holds lists loose) (key : SFTwoIdsHashKey) :
    (lists key).length ≤ t.live.card := by
  have subset : (lists key).toFinset ⊆ t.live := fun n member =>
    holds.mem_live (List.mem_toFinset.mp member)
  rw [← List.toFinset_card_of_nodup (holds.nodup key)]
  exact Finset.card_le_card subset

theorem entries_eq (holds : t.Holds lists loose) (key : SFTwoIdsHashKey) :
    t.entries key = lists key :=
  walk_eq (holds.linked key) (holds.length_le key)

end Holds

/-! ## Freeing -/

/-- The entries of a list are freed one after another. -/
def freeAll (removed : List Nat) (set_conflict : Bool) (t : PrereadTable) : PrereadTable :=
  removed.foldl (fun t n => t.obid_htable_free_slice n set_conflict) t

/-- The loop of the invalidation frees the list of removed entries. -/
theorem freeLoop_eq {removed : List Nat} {fuel count : Nat} {slices : Option Nat}
    (linked : Linked t.next slices removed) (enough : removed.length ≤ fuel) :
    freeLoop fuel count slices t = (count + removed.length, t.freeAll removed true) := by
  induction removed generalizing t fuel count slices with
  | nil =>
      obtain rfl : slices = none := linked
      cases fuel <;> rfl
  | cons n rest ih =>
      obtain rfl := linked.1
      cases fuel with
      | zero => cases enough
      | succ fuel =>
          have later : Linked (t.obid_htable_free_slice n true).next (t.next n) rest := linked.2
          rw [freeLoop, ih later (Nat.le_of_succ_le_succ enough), List.length_cons]
          congr 1
          omega

/-- Freeing an entry and then asking for the flag of the others. -/
theorem free_conflict (n : Nat) (rest : List Nat) (set_conflict : Bool) (t : PrereadTable) (b : Nat) :
    ((t.obid_htable_free_slice n set_conflict).conflict b ||
        (set_conflict && !t.deleted b && rest.any fun n => (t.slice n).buffer = b)) =
      (t.conflict b || (set_conflict && !t.deleted b &&
        (decide ((t.slice n).buffer = b) || rest.any fun n => (t.slice n).buffer = b))) := by
  dsimp only [obid_htable_free_slice]
  cases set_conflict with
  | false => rfl
  | true =>
      by_cases same : (t.slice n).buffer = b
      · subst same
        cases t.deleted (t.slice n).buffer <;> simp
      · cases t.deleted (t.slice n).buffer <;> simp [same, Function.update_of_ne (Ne.symm same)]

theorem free_released (n : Nat) (rest : List Nat) (set_conflict : Bool) (t : PrereadTable) (b : Nat) :
    ((t.obid_htable_free_slice n set_conflict).released b +
        rest.countP fun n => (t.slice n).buffer = b) =
      t.released b + (n :: rest).countP fun n => (t.slice n).buffer = b := by
  rw [List.countP_cons]
  dsimp only [obid_htable_free_slice]
  by_cases same : (t.slice n).buffer = b
  · subst same
    rw [Function.update_self, if_pos (decide_eq_true rfl)]
    ring
  · rw [Function.update_of_ne (Ne.symm same), if_neg (by simpa using same), Nat.add_zero]

/-- What freeing changes: the allocated entries, the flags and the counts. -/
theorem freeAll_spec (removed : List Nat) (set_conflict : Bool) (t : PrereadTable) :
    (t.freeAll removed set_conflict).next = t.next ∧
      (t.freeAll removed set_conflict).blocks = t.blocks ∧
      (t.freeAll removed set_conflict).slice = t.slice ∧
      (t.freeAll removed set_conflict).deleted = t.deleted ∧
      (t.freeAll removed set_conflict).live = t.live \ removed.toFinset ∧
      (∀ b, (t.freeAll removed set_conflict).conflict b =
        (t.conflict b || (set_conflict && !t.deleted b &&
          removed.any fun n => (t.slice n).buffer = b))) ∧
      ∀ b, (t.freeAll removed set_conflict).released b =
        t.released b + removed.countP fun n => (t.slice n).buffer = b := by
  induction removed generalizing t with
  | nil => exact ⟨rfl, rfl, rfl, rfl, by simp [freeAll], by simp [freeAll], by simp [freeAll]⟩
  | cons n rest ih =>
      have step : t.freeAll (n :: rest) set_conflict =
          (t.obid_htable_free_slice n set_conflict).freeAll rest set_conflict := rfl
      obtain ⟨next, blocks, slice, deleted, live, conflict, released⟩ :=
        ih (t.obid_htable_free_slice n set_conflict)
      rw [step]
      refine ⟨next, blocks, slice, deleted, ?_, fun b => ?_, fun b => ?_⟩
      · rw [live, obid_htable_free_slice, List.toFinset_cons, Finset.erase_sdiff_comm,
          Finset.sdiff_insert]
      · rw [conflict b, List.any_cons]
        exact free_conflict n rest set_conflict t b
      · rw [released b]
        exact free_released n rest set_conflict t b

/-! ## The pass over the list -/

@[simp]
theorem setHead_head (t : PrereadTable) (key : SFTwoIdsHashKey) (head : Option Nat) :
    (t.setHead key head).head key = head :=
  congrArg (·.bind FSPrereadBlockHEntry.head) (Function.update_self key (some ⟨head⟩) t.blocks)

theorem setHead_isSome (t : PrereadTable) (key : SFTwoIdsHashKey) (head : Option Nat) :
    ((t.setHead key head).blocks key).isSome := by
  have set : (t.setHead key head).blocks key = some ⟨head⟩ := Function.update_self _ _ _
  rw [set]
  rfl

theorem check_remove_block_head (t : PrereadTable) (key : SFTwoIdsHashKey) :
    (t.check_remove_block key).head key = t.head key := by
  rw [check_remove_block]
  split
  · next empty =>
      rw [empty]
      exact congrArg (·.bind FSPrereadBlockHEntry.head) (Function.update_self key none t.blocks)
  · rfl

theorem check_remove_block_other (t : PrereadTable) {other : SFTwoIdsHashKey}
    (apart : other ≠ key) : (t.check_remove_block key).blocks other = t.blocks other := by
  rw [check_remove_block]
  split
  · exact Function.update_of_ne apart _ _
  · rfl

/-- Removing the block entry of an empty list changes nothing but the block entry. -/
theorem check_remove_block_same (t : PrereadTable) (key : SFTwoIdsHashKey) :
    (t.check_remove_block key).next = t.next ∧ (t.check_remove_block key).slice = t.slice ∧
      (t.check_remove_block key).live = t.live ∧ (t.check_remove_block key).deleted = t.deleted ∧
      (t.check_remove_block key).conflict = t.conflict ∧
      (t.check_remove_block key).released = t.released := by
  rw [check_remove_block]
  split
  · exact ⟨rfl, rfl, rfl, rfl, rfl, rfl⟩
  · exact ⟨rfl, rfl, rfl, rfl, rfl, rfl⟩

theorem check_remove_block_isSome (t : PrereadTable) (key : SFTwoIdsHashKey)
    (present : (t.blocks key).isSome) :
    ((t.check_remove_block key).blocks key).isSome ↔ t.head key ≠ none := by
  rw [check_remove_block]
  split
  · next empty =>
      have removed : (Function.update t.blocks key none key).isSome = false :=
        congrArg Option.isSome (Function.update_self key none t.blocks)
      exact iff_of_false (fun present => absurd (removed.symm.trans present) nofun)
        fun some => some empty
  · next some => exact iff_of_true present some

/-- What `remove_conflict_slices` is to leave: the removed entries in a list of their own,
the others in the list of the block, and nothing else changed. -/
structure RemovedRight (t : PrereadTable) (key : SFTwoIdsHashKey) (chain : List Nat)
    (conflict : Nat → Bool) (result : Option Nat × PrereadTable) : Prop where
  removed : Linked result.2.next result.1 (chain.filter conflict)
  kept : Linked result.2.next (result.2.head key) (chain.filter fun n => !conflict n)
  block : (result.2.blocks key).isSome ↔ (chain.filter fun n => !conflict n) ≠ []
  others : ∀ other, other ≠ key → result.2.blocks other = t.blocks other
  frame : ∀ n, n ∉ chain → result.2.next n = t.next n
  slice : result.2.slice = t.slice
  live : result.2.live = t.live
  deleted : result.2.deleted = t.deleted
  marked : result.2.conflict = t.conflict
  released : result.2.released = t.released

/-- The head of a list is none exactly where the list is empty. -/
theorem head_ne_none_iff {next : Nat → Option Nat} {head : Option Nat} {chain : List Nat}
    (linked : Linked next head chain) : head ≠ none ↔ chain ≠ [] := by
  cases chain with
  | nil => exact iff_of_false (fun some => some linked) (fun some => some rfl)
  | cons n rest => exact iff_of_true (by rw [linked.1]; exact nofun) nofun

namespace Holds

variable {ssize : FSSliceSize} {block : FSPrereadBlockHEntry}

theorem block_head (found : t.blocks key = some block) : t.head key = block.head := by
  rw [PrereadTable.head, found]
  rfl

/-- The loop of the pass over a block that is in the table. -/
theorem removing (holds : t.Holds lists loose) (ssize : FSSliceSize)
    (found : t.blocks key = some block) (spaced : Spaced (t.conflicts ssize) (lists key)) :
    RemoveLoop.Removing (t.conflicts ssize) t.next
      (RemoveLoop.run (t.conflicts ssize) t.live.card
        ⟨t.next, block.head, none, none, block.head, none⟩) (lists key) [] :=
  (RemoveLoop.Removing.begin _ block.head (block_head found ▸ holds.linked key)).run_all
    (holds.nodup key) spaced (holds.length_le key)

/-- The pass is right where no neighbours conflict. -/
theorem remove_right (holds : t.Holds lists loose)
    (spaced : Spaced (t.conflicts ssize) (lists key)) :
    RemovedRight t key (lists key) (t.conflicts ssize) (t.remove_conflict_slices key ssize) := by
  cases found : t.blocks key with
  | none =>
      have empty : lists key = [] := by
        by_contra some
        have present := (holds.block key).mpr some
        rw [found] at present
        cases present
      have same : t.remove_conflict_slices key ssize = (none, t) := by
        rw [remove_conflict_slices, found]
      have linked := holds.linked key
      rw [same, empty]
      rw [empty] at linked
      exact ⟨rfl, linked, by rw [found]; simp, fun _ _ => rfl, fun _ _ => rfl, rfl, rfl, rfl, rfl,
        rfl⟩
  | some block =>
      have removing := holds.removing ssize found spaced
      have ended : (RemoveLoop.run (t.conflicts ssize) t.live.card
        ⟨t.next, block.head, none, none, block.head, none⟩).current = none := removing.rest
      rw [remove_conflict_slices, found]
      dsimp only
      generalize RemoveLoop.run (t.conflicts ssize) t.live.card
        ⟨t.next, block.head, none, none, block.head, none⟩ = s at removing ended
      have main := removing.main
      rw [ended] at main
      have kept := leads_none_iff.mp main
      cases ((lists key).filter (t.conflicts ssize)).eq_nil_or_concat with
      | inl empty =>
          have slices := removing.slices
          rw [empty] at slices
          have slices : s.slices = none := slices
          have full : ((lists key).filter fun n => !t.conflicts ssize n) = lists key := by
            refine List.filter_eq_self.mpr fun n member => ?_
            have free := List.filter_eq_nil_iff.mp empty n member
            rw [Bool.eq_false_of_not_eq_true free]
            rfl
          rw [slices]
          constructor
          · rw [empty]
            rfl
          · rw [setHead_head]
            exact kept
          · rw [full]
            exact iff_of_true (setHead_isSome _ _ _) ((holds.block key).mp (by rw [found]; rfl))
          · intro other apart
            exact Function.update_of_ne apart _ _
          · intro n outside
            exact removing.frame n outside
          all_goals rfl
      | inr some =>
          obtain ⟨front, last, split⟩ := some
          rw [List.concat_eq_append] at split
          have lastMember : last ∈ (lists key).filter (t.conflicts ssize) := by
            rw [split]
            exact List.mem_append_right _ List.mem_cons_self
          have lastHit := (List.mem_filter.mp lastMember).2
          have distinct : (front ++ [last]).Nodup := split ▸ (holds.nodup key).filter _
          have lastFront : last ∉ front := fun member =>
            (List.nodup_append.mp distinct).2.2 last member last List.mem_cons_self rfl
          have tail : s.tail = Option.some last := by
            rw [removing.tail, split]
            exact List.getLast?_concat
          obtain ⟨slices, slicesEq⟩ : ∃ slices, s.slices = Option.some slices := by
            rw [removing.slices, split]
            cases front with
            | nil => exact ⟨last, rfl⟩
            | cons first more => exact ⟨first, rfl⟩
          have list := removing.removed front last split
          rw [slicesEq] at list
          have cut : Linked (Function.update s.next last none) (Option.some slices) (front ++ [last]) := by
            refine leads_none_iff.mp (Leads.concat_iff.mpr ⟨list.congr fun n member => ?_,
              Function.update_self _ _ _⟩)
            refine Function.update_of_ne ?_ _ _
            rintro rfl
            exact lastFront member
          have stays : Linked (Function.update s.next last none) s.head
              ((lists key).filter fun n => !t.conflicts ssize n) := by
            refine kept.congr fun n member => Function.update_of_ne ?_ _ _
            rintro rfl
            have free := (List.mem_filter.mp member).2
            rw [lastHit] at free
            cases free
          rw [slicesEq, tail]
          dsimp only
          obtain ⟨next, slice, live, deleted, marked, released⟩ := check_remove_block_same
            ({ t with next := Function.update s.next last none }.setHead key s.head) key
          constructor
          · rw [split, next]
            exact cut
          · rw [next, check_remove_block_head, setHead_head]
            exact stays
          · rw [check_remove_block_isSome _ _ (setHead_isSome _ _ _), setHead_head]
            exact head_ne_none_iff stays
          · intro other apart
            rw [check_remove_block_other _ apart]
            exact Function.update_of_ne apart _ _
          · intro n outside
            rw [next]
            refine (Function.update_of_ne ?_ _ _).trans (removing.frame n outside)
            rintro rfl
            exact outside (List.mem_filter.mp lastMember).1
          · exact slice
          · exact live
          · exact deleted
          · exact marked
          · exact released

end Holds

/-! ## The invalidation -/

/-- What an invalidation is to do: exactly the conflicting entries of the block are taken
out and freed once, and the block goes where no entry is left. -/
structure InvalidateRight (t : PrereadTable) (lists : SFTwoIdsHashKey → List Nat)
    (key : SFTwoIdsHashKey) (ssize : FSSliceSize) : Prop where
  count : (t.preread_invalidate_conflict_slices key ssize).1 =
    ((lists key).filter (t.conflicts ssize)).length
  kept : Linked (t.preread_invalidate_conflict_slices key ssize).2.next
    ((t.preread_invalidate_conflict_slices key ssize).2.head key)
    ((lists key).filter fun n => !t.conflicts ssize n)
  block : ((t.preread_invalidate_conflict_slices key ssize).2.blocks key).isSome ↔
    ((lists key).filter fun n => !t.conflicts ssize n) ≠ []
  others : ∀ other, other ≠ key →
    (t.preread_invalidate_conflict_slices key ssize).2.blocks other = t.blocks other ∧
      Linked (t.preread_invalidate_conflict_slices key ssize).2.next (t.head other) (lists other)
  slice : (t.preread_invalidate_conflict_slices key ssize).2.slice = t.slice
  deleted : (t.preread_invalidate_conflict_slices key ssize).2.deleted = t.deleted
  live : (t.preread_invalidate_conflict_slices key ssize).2.live =
    t.live \ ((lists key).filter (t.conflicts ssize)).toFinset
  marked : ∀ b, (t.preread_invalidate_conflict_slices key ssize).2.conflict b =
    (t.conflict b || (!t.deleted b &&
      ((lists key).filter (t.conflicts ssize)).any fun n => (t.slice n).buffer = b))
  freed : ∀ b, (t.preread_invalidate_conflict_slices key ssize).2.released b =
    t.released b + ((lists key).filter (t.conflicts ssize)).countP fun n => (t.slice n).buffer = b

theorem freeLoop_frame (fuel count : Nat) (slices : Option Nat) (t : PrereadTable) :
    (freeLoop fuel count slices t).2.next = t.next ∧
      (freeLoop fuel count slices t).2.blocks = t.blocks := by
  induction fuel generalizing count slices t with
  | zero => exact ⟨rfl, rfl⟩
  | succ fuel ih =>
      cases slices with
      | none => exact ⟨rfl, rfl⟩
      | some n => exact ih (count + 1) (t.next n) (t.obid_htable_free_slice n true)

/-- The entries that were taken out are freed, whether there are any or not. -/
theorem invalidate_eq {removed : List Nat} {ssize : FSSliceSize}
    (linked : Linked (t.remove_conflict_slices key ssize).2.next
      (t.remove_conflict_slices key ssize).1 removed)
    (enough : removed.length ≤ t.live.card) :
    t.preread_invalidate_conflict_slices key ssize =
      (removed.length, (t.remove_conflict_slices key ssize).2.freeAll removed true) := by
  rw [preread_invalidate_conflict_slices]
  cases slices : (t.remove_conflict_slices key ssize).1 with
  | none =>
      rw [slices] at linked
      cases removed with
      | nil => rfl
      | cons n rest => cases linked.1
  | some first =>
      rw [slices] at linked
      dsimp only
      rw [freeLoop_eq linked enough, Nat.zero_add]

namespace Holds

variable {ssize : FSSliceSize}

/-- Where no neighbours conflict the invalidation is right. -/
theorem invalidate_right (holds : t.Holds lists loose)
    (spaced : Spaced (t.conflicts ssize) (lists key)) : InvalidateRight t lists key ssize := by
  have right := holds.remove_right spaced
  have enough : ((lists key).filter (t.conflicts ssize)).length ≤ t.live.card :=
    (List.length_filter_le _ _).trans (holds.length_le key)
  have same := invalidate_eq right.removed enough
  obtain ⟨next, blocks, slice, deleted, live, conflict, released⟩ :=
    freeAll_spec ((lists key).filter (t.conflicts ssize)) true (t.remove_conflict_slices key ssize).2
  have head : ∀ other, ((t.remove_conflict_slices key ssize).2.freeAll
      ((lists key).filter (t.conflicts ssize)) true).head other =
        (t.remove_conflict_slices key ssize).2.head other := fun other => by
    rw [PrereadTable.head, blocks]
    rfl
  constructor
  all_goals rw [same]
  · rw [next, head]
    exact right.kept
  · rw [blocks]
    exact right.block
  · intro other apart
    dsimp only
    rw [blocks, next]
    exact ⟨right.others other apart, (holds.linked other).congr fun n member =>
      right.frame n (holds.apart other key apart n member)⟩
  · exact slice.trans right.slice
  · exact deleted.trans right.deleted
  · rw [live, right.live]
  · intro b
    rw [conflict b, right.marked, right.deleted, right.slice]
    rfl
  · intro b
    rw [released b, right.released, right.slice]

/-- Of two conflicting neighbours the second stays in the list, though it is freed. -/
theorem invalidate_stuck (holds : t.Holds lists loose) {before behind : List Nat} {left right : Nat}
    (split : lists key = before ++ left :: right :: behind) (leftHit : t.conflicts ssize left = true)
    (spaced : Spaced (t.conflicts ssize) (before ++ [left])) :
    Leads (t.preread_invalidate_conflict_slices key ssize).2.next
      ((t.preread_invalidate_conflict_slices key ssize).2.head key)
      (before.filter fun n => !t.conflicts ssize n) (some right) := by
  have nodup := holds.nodup key
  have splitRight : lists key = before ++ [left] ++ right :: behind := by
    rw [split]
    simp
  have present : (t.blocks key).isSome := (holds.block key).mpr (by rw [split]; simp)
  obtain ⟨block, found⟩ := Option.isSome_iff_exists.mp present
  have begun := RemoveLoop.Removing.begin (t.conflicts ssize) block.head
    (block_head found ▸ holds.linked key)
  obtain ⟨fuel, card⟩ : ∃ fuel, t.live.card = (before ++ [left]).length + fuel :=
    Nat.exists_eq_add_of_le <| by
      have length := holds.length_le key
      rw [splitRight, List.length_append] at length
      omega
  have enough : (right :: behind).length ≤ fuel := by
    have length := holds.length_le key
    rw [splitRight, List.length_append, card] at length
    omega
  rw [splitRight] at begun nodup
  obtain ⟨s, run, removing⟩ := begun.run fuel nodup spaced
  rw [List.nil_append] at removing
  obtain ⟨-, rightNodup, apart⟩ := List.nodup_append.mp nodup
  have stuck := (removing.stuck nodup leftHit).run (t.conflicts ssize) rightNodup
    (fun n member kept => apart n (List.mem_append_left _ (List.mem_filter.mp kept).1) n member rfl)
    enough
  rw [← run, ← card] at stuck
  obtain ⟨tail, slices, tailEq, slicesEq, tailKept, -⟩ := stuck.tail
  have removed : t.remove_conflict_slices key ssize = (some slices,
      ({ t with next := Function.update (RemoveLoop.run (t.conflicts ssize) t.live.card
        ⟨t.next, block.head, none, none, block.head, none⟩).next tail none }.setHead key
        (RemoveLoop.run (t.conflicts ssize) t.live.card
          ⟨t.next, block.head, none, none, block.head, none⟩).head).check_remove_block key) := by
    rw [remove_conflict_slices, found]
    dsimp only
    rw [slicesEq, tailEq]
  have after : t.preread_invalidate_conflict_slices key ssize =
      freeLoop t.live.card 0 (some slices) (t.remove_conflict_slices key ssize).2 := by
    rw [preread_invalidate_conflict_slices, removed]
  obtain ⟨next, blocks⟩ := freeLoop_frame t.live.card 0 (some slices)
    (t.remove_conflict_slices key ssize).2
  rw [← after] at next blocks
  have head : (t.preread_invalidate_conflict_slices key ssize).2.head key =
      (t.remove_conflict_slices key ssize).2.head key := by
    rw [PrereadTable.head, blocks]
    rfl
  rw [next, head, removed, (check_remove_block_same _ key).1, check_remove_block_head, setHead_head]
  refine stuck.main.congr fun n member => Function.update_of_ne ?_ _ _
  rintro rfl
  exact tailKept member

/-- The invalidation is right exactly where no two conflicting entries are neighbours. -/
theorem invalidate_right_iff (holds : t.Holds lists loose) :
    InvalidateRight t lists key ssize ↔ Spaced (t.conflicts ssize) (lists key) := by
  refine ⟨fun right => ?_, holds.invalidate_right⟩
  by_contra crowded
  obtain ⟨before, left, second, behind, split, leftHit, secondHit, spaced⟩ :=
    exists_neighbours crowded
  obtain ⟨more, kept⟩ := (holds.invalidate_stuck split leftHit spaced).exists_of_linked right.kept
  rw [split, List.filter_append] at kept
  have later := List.append_cancel_left kept
  have member : second ∈ (left :: second :: behind).filter fun n => !t.conflicts ssize n := by
    rw [later]
    exact List.mem_cons_self
  have free := (List.mem_filter.mp member).2
  rw [secondHit] at free
  cases free

end Holds

end PrereadTable

end FastStore.Api
