import FastStore.Api.Types
import FastStore.Util.LinkedWalk
import FastStore.Util.System

/-!
# The table of read-ahead buffers by block

Every buffer that was read ahead is registered under its block, with the range that is
not yet read from it, so that a write to the block finds the buffers it makes wrong.  The
slice entries of a block are a singly linked list.  An invalidation takes all conflicting
entries out of the list in one pass, links them by the same pointers, and frees them
after the lock is released.
-/

namespace FastStore.Api

open FastStore.Storage FastStore.Util

/-- `SFTwoIdsHashKey` of a block. -/
structure SFTwoIdsHashKey where
  oid : Int
  bid : Int
  deriving DecidableEq, Repr

/-- `FSPrereadSliceEntry` without its pointer; the buffer is named by a number. -/
structure FSPrereadSliceEntry where
  tid : Nat
  ssize : FSSliceSize
  buffer : Nat
  deriving DecidableEq, Repr

/-- `FSPrereadBlockHEntry` without its key. -/
structure FSPrereadBlockHEntry where
  head : Option Nat
  deriving DecidableEq, Repr

/-- The memory of the table: the slice entries and their pointers, the entries that are
allocated, the block entries (the buckets are searched by the whole key), the flags of the
buffers that the table reads and sets, and how often it released each buffer. -/
structure PrereadTable where
  slice : Nat → FSPrereadSliceEntry
  next : Nat → Option Nat
  live : Finset Nat
  blocks : SFTwoIdsHashKey → Option FSPrereadBlockHEntry
  deleted : Nat → Bool
  conflict : Nat → Bool
  released : Nat → Nat

/-! ## Removing conflicts -/

/-- The variables of the loop of `remove_conflict_slices`. -/
structure RemoveLoop where
  next : Nat → Option Nat
  head : Option Nat
  slices : Option Nat
  previous : Option Nat
  current : Option Nat
  tail : Option Nat

namespace RemoveLoop

/-- The entry is taken out of the list behind `previous` and put behind `tail`. -/
def take (s : RemoveLoop) (current : Nat) : RemoveLoop :=
  let unlinked :=
    match s.previous with
    | none => { s with head := s.next current }
    | some previous => { s with next := Function.update s.next previous (s.next current) }
  let linked :=
    match s.slices, s.tail with
    | some _, some tail => { unlinked with next := Function.update unlinked.next tail (some current) }
    | _, _ => { unlinked with slices := some current }
  { linked with tail := some current }

/-- One round of the loop; `previous` is set to a removed entry too. -/
def round (conflict : Nat → Bool) (s : RemoveLoop) (current : Nat) : RemoveLoop :=
  let taken := if conflict current then s.take current else s
  { taken with
    previous := some current
    current := taken.next current }

/-- The loop; `fuel` is at least the number of entries. -/
def run (conflict : Nat → Bool) : Nat → RemoveLoop → RemoveLoop
  | 0, s => s
  | fuel + 1, s =>
      match s.current with
      | none => s
      | some current => run conflict fuel (s.round conflict current)

end RemoveLoop

/-! ## The functions of the table -/

namespace PrereadTable

variable (t : PrereadTable)

/-- `slices.head` of a block. -/
def head (key : SFTwoIdsHashKey) : Option Nat := (t.blocks key).bind FSPrereadBlockHEntry.head

/-- The entries of a block in their order. -/
def entries (key : SFTwoIdsHashKey) : List Nat := walk t.next t.live.card (t.head key)

def setHead (key : SFTwoIdsHashKey) (head : Option Nat) : PrereadTable :=
  { t with blocks := Function.update t.blocks key (some ⟨head⟩) }

/-- `check_remove_block`. -/
def check_remove_block (key : SFTwoIdsHashKey) : PrereadTable :=
  if t.head key = none then { t with blocks := Function.update t.blocks key none } else t

/-- The range of an entry overlaps the range of a write. -/
def conflicts (ssize : FSSliceSize) (n : Nat) : Bool := fsSliceIsOverlap ssize (t.slice n).ssize

/-- `remove_conflict_slices`: the list of removed entries, none for `ENOENT`. -/
def remove_conflict_slices (key : SFTwoIdsHashKey) (ssize : FSSliceSize) :
    Option Nat × PrereadTable :=
  match t.blocks key with
  | none => (none, t)
  | some block =>
      let s := RemoveLoop.run (t.conflicts ssize) t.live.card
        ⟨t.next, block.head, none, none, block.head, none⟩
      match s.slices, s.tail with
      | some slices, some tail =>
          (some slices,
            ({ t with next := Function.update s.next tail none }.setHead key s.head).check_remove_block
              key)
      | _, _ => (none, { t with next := s.next }.setHead key s.head)

/-- `obid_htable_free_slice`. -/
def obid_htable_free_slice (se : Nat) (set_conflict : Bool) : PrereadTable :=
  let buffer := (t.slice se).buffer
  { t with
    conflict := if set_conflict && !t.deleted buffer then Function.update t.conflict buffer true
      else t.conflict
    released := Function.update t.released buffer (t.released buffer + 1)
    live := t.live.erase se }

/-- The loop of `preread_invalidate_conflict_slices` over the removed entries. -/
def freeLoop : Nat → Nat → Option Nat → PrereadTable → Nat × PrereadTable
  | 0, count, _, t => (count, t)
  | _ + 1, count, none, t => (count, t)
  | fuel + 1, count, some deleted, t =>
      freeLoop fuel (count + 1) (t.next deleted) (t.obid_htable_free_slice deleted true)

/-- `preread_invalidate_conflict_slices`: the number of removed entries and the table. -/
def preread_invalidate_conflict_slices (key : SFTwoIdsHashKey) (ssize : FSSliceSize) :
    Nat × PrereadTable :=
  let removed := t.remove_conflict_slices key ssize
  match removed.1 with
  | none => (0, removed.2)
  | some slices => freeLoop t.live.card 0 (some slices) removed.2

/-- The loop of `obid_htable_find_slice`: the entry before and the entry itself. -/
def findSliceLoop (tid : Nat) : Nat → Option Nat → Option Nat → Option (Option Nat × Nat)
  | 0, _, _ => none
  | _ + 1, _, none => none
  | fuel + 1, previous, some current =>
      if tid = (t.slice current).tid then some (previous, current)
      else findSliceLoop tid fuel (some current) (t.next current)

/-- `obid_htable_find_block_and_slice`. -/
def obid_htable_find_slice (key : SFTwoIdsHashKey) (tid : Nat) : Option (Option Nat × Nat) :=
  t.findSliceLoop tid t.live.card none (t.head key)

/-- `obid_htable_remove`. -/
def obid_htable_remove (key : SFTwoIdsHashKey) (slice : Option Nat × Nat) : PrereadTable :=
  match slice.1 with
  | none => (t.setHead key (t.next slice.2)).check_remove_block key
  | some previous => { t with next := Function.update t.next previous (t.next slice.2) }

/-- The part of `preread_obid_htable_insert` that links the new entry into the block
entry, or into a new one if there is memory for it. -/
def linkSlice (key : SFTwoIdsHashKey) (se : Nat) (blockMemory : Bool) : Errno × PrereadTable :=
  match t.blocks key with
  | some block =>
      (.ok, { t with next := Function.update t.next se block.head }.setHead key (some se))
  | none =>
      if blockMemory then
        (.ok, { t with next := Function.update t.next se none }.setHead key (some se))
      else (.enomem, { t with live := t.live.erase se })

/-- `preread_obid_htable_insert`; `se` is the allocated entry, none where there is no
memory. -/
def preread_obid_htable_insert (key : SFTwoIdsHashKey) (entry : FSPrereadSliceEntry)
    (se : Option Nat) (blockMemory : Bool) : Errno × PrereadTable :=
  match se with
  | none => (.enomem, t)
  | some se =>
      let allocated : PrereadTable :=
        { t with
          slice := Function.update t.slice se entry
          live := insert se t.live }
      match allocated.obid_htable_find_slice key entry.tid with
      | none => allocated.linkSlice key se blockMemory
      | some found =>
          -- the old entry of the thread is removed before, and freed after
          let linked := (allocated.obid_htable_remove key found).linkSlice key se blockMemory
          (linked.1, linked.2.obid_htable_free_slice found.2 false)

/-- `preread_obid_htable_delete`. -/
def preread_obid_htable_delete (key : SFTwoIdsHashKey) (tid : Nat) : Errno × PrereadTable :=
  match t.obid_htable_find_slice key tid with
  | none => (.enoent, t)
  | some found => (.ok, (t.obid_htable_remove key found).obid_htable_free_slice found.2 false)

end PrereadTable

/-! ## The loop that removes conflicts -/

/-- No two neighbours of the list satisfy the test both. -/
def Spaced (conflict : Nat → Bool) (chain : List Nat) : Prop :=
  chain.IsChain fun left right => ¬(conflict left = true ∧ conflict right = true)

/-- A list with neighbours that satisfy the test has a first pair of them. -/
theorem exists_neighbours {conflict : Nat → Bool} {chain : List Nat}
    (crowded : ¬Spaced conflict chain) :
    ∃ before left right behind, chain = before ++ left :: right :: behind ∧
      conflict left = true ∧ conflict right = true ∧ Spaced conflict (before ++ [left]) := by
  induction chain with
  | nil => exact absurd List.isChain_nil crowded
  | cons first rest ih =>
      cases rest with
      | nil => exact absurd (List.isChain_singleton first) crowded
      | cons second later =>
          by_cases both : conflict first = true ∧ conflict second = true
          · exact ⟨[], first, second, later, rfl, both.1, both.2, List.isChain_singleton first⟩
          · have rest : ¬Spaced conflict (second :: later) := fun spaced =>
              crowded (List.isChain_cons_cons.mpr ⟨both, spaced⟩)
            obtain ⟨before, left, right, behind, split, leftHit, rightHit, spaced⟩ := ih rest
            refine ⟨first :: before, left, right, behind, by rw [split]; rfl, leftHit, rightHit, ?_⟩
            cases before with
            | nil =>
                obtain rfl : second = left := (List.cons.inj split).1
                exact List.isChain_cons_cons.mpr ⟨both, spaced⟩
            | cons head tail =>
                obtain rfl : second = head := (List.cons.inj split).1
                exact List.isChain_cons_cons.mpr ⟨both, spaced⟩

namespace RemoveLoop

variable {conflict : Nat → Bool} {s : RemoveLoop} {done rest : List Nat} {current : Nat}

/-- The loop between two rounds, as long as no neighbours conflict: the kept entries lead
to the current one, and the removed ones are a list up to its tail. -/
structure Removing (conflict : Nat → Bool) (original : Nat → Option Nat) (s : RemoveLoop)
    (done rest : List Nat) : Prop where
  main : Leads s.next s.head (done.filter fun n => !conflict n) s.current
  rest : Linked s.next s.current rest
  previous : s.previous = done.getLast?
  slices : s.slices = (done.filter conflict).head?
  tail : s.tail = (done.filter conflict).getLast?
  removed : ∀ front last, done.filter conflict = front ++ [last] →
    Leads s.next s.slices front (some last)
  frame : ∀ n, n ∉ done → s.next n = original n

theorem Removing.begin (conflict : Nat → Bool) (head : Option Nat) {next : Nat → Option Nat}
    {chain : List Nat} (linked : Linked next head chain) :
    Removing conflict next ⟨next, head, none, none, head, none⟩ [] chain where
  main := rfl
  rest := linked
  previous := rfl
  slices := rfl
  tail := rfl
  removed := fun front last empty => absurd empty.symm (by simp)
  frame := fun _ _ => rfl

/-- A round over an entry that stays. -/
theorem Removing.keep {original : Nat → Option Nat}
    (removing : Removing conflict original s done (current :: rest))
    (free : conflict current = false) :
    Removing conflict original (s.round conflict current) (done ++ [current]) rest := by
  have same : s.round conflict current =
      { s with
        previous := some current
        current := s.next current } := by
    rw [round, free]
    rfl
  have points : s.current = some current := removing.rest.1
  rw [same]
  constructor
  · rw [List.filter_append, List.filter_cons_of_pos (by rw [free]; rfl)]
    exact Leads.concat_iff.mpr ⟨points ▸ removing.main, rfl⟩
  · exact removing.rest.2
  · exact List.getLast?_concat.symm
  · rw [List.filter_append, List.filter_cons_of_neg (by rw [free]; exact nofun), List.filter_nil,
      List.append_nil]
    exact removing.slices
  · rw [List.filter_append, List.filter_cons_of_neg (by rw [free]; exact nofun), List.filter_nil,
      List.append_nil]
    exact removing.tail
  · intro front last split
    rw [List.filter_append, List.filter_cons_of_neg (by rw [free]; exact nofun), List.filter_nil,
      List.append_nil] at split
    exact removing.removed front last split
  · intro n outside
    exact removing.frame n fun member => outside (List.mem_append_left _ member)

/-- A round over a conflicting entry at the head of the list. -/
theorem Removing.take_first {original : Nat → Option Nat}
    (removing : Removing conflict original s [] (current :: rest))
    (hit : conflict current = true) :
    Removing conflict original (s.round conflict current) [current] rest := by
  have previous : s.previous = none := removing.previous
  have slices : s.slices = none := removing.slices
  have same : s.round conflict current =
      ⟨s.next, s.next current, some current, some current, s.next current, some current⟩ := by
    rw [round, if_pos hit, take, previous]
    dsimp only
    rw [slices]
  rw [same]
  constructor
  · rw [List.filter_cons_of_neg (by rw [hit]; exact nofun)]
    rfl
  · exact removing.rest.2
  · rfl
  · rw [List.filter_cons_of_pos hit]
    rfl
  · rw [List.filter_cons_of_pos hit]
    rfl
  · intro front last split
    rw [List.filter_cons_of_pos hit, List.filter_nil] at split
    cases front with
    | nil =>
        obtain rfl : current = last := (List.cons.inj split).1
        rfl
    | cons first more =>
        have tail := (List.cons.inj split).2
        exact absurd tail.symm (by simp)
  · intro n _
    exact removing.frame n List.not_mem_nil

/-- A round over a conflicting entry behind one that stays. -/
theorem Removing.take_behind {original : Nat → Option Nat} {before : List Nat} {previous : Nat}
    (removing : Removing conflict original s (before ++ [previous]) (current :: rest))
    (nodup : (before ++ [previous] ++ current :: rest).Nodup) (hit : conflict current = true)
    (free : conflict previous = false) :
    Removing conflict original (s.round conflict current) (before ++ [previous] ++ [current])
      rest := by
  obtain ⟨doneNodup, restNodup, apart⟩ := List.nodup_append.mp nodup
  obtain ⟨beforeNodup, -, beforeApart⟩ := List.nodup_append.mp doneNodup
  have absent : previous ∉ before := fun member =>
    beforeApart previous member previous List.mem_cons_self rfl
  have removedEq : (before ++ [previous]).filter conflict = before.filter conflict := by
    rw [List.filter_append, List.filter_cons_of_neg (by rw [free]; exact nofun), List.filter_nil,
      List.append_nil]
  have keptEq : (before ++ [previous]).filter (fun n => !conflict n) =
      before.filter (fun n => !conflict n) ++ [previous] := by
    rw [List.filter_append, List.filter_cons_of_pos (by rw [free]; rfl), List.filter_nil]
  have keptNext : (before ++ [previous] ++ [current]).filter (fun n => !conflict n) =
      before.filter (fun n => !conflict n) ++ [previous] := by
    rw [List.filter_append, keptEq, List.filter_cons_of_neg (by rw [hit]; exact nofun),
      List.filter_nil, List.append_nil]
  have removedNext : (before ++ [previous] ++ [current]).filter conflict =
      before.filter conflict ++ [current] := by
    rw [List.filter_append, removedEq, List.filter_cons_of_pos hit, List.filter_nil]
  have points : s.previous = some previous := removing.previous.trans List.getLast?_concat
  -- the entry is unlinked: the last kept entry points behind it
  have main := (keptEq ▸ removing.main).redirect
    (fun member => absent (List.mem_filter.mp member).1) (s.next current)
  have behind : Linked (Function.update s.next previous (s.next current)) (s.next current) rest := by
    refine removing.rest.2.congr fun n member => Function.update_of_ne ?_ _ _
    rintro rfl
    exact apart n (List.mem_append_right _ List.mem_cons_self) n (List.mem_cons_of_mem _ member) rfl
  have currentNe : current ≠ previous := fun same =>
    apart previous (List.mem_append_right _ List.mem_cons_self) current List.mem_cons_self same.symm
  have slices := removing.slices
  have tail := removing.tail
  rw [removedEq] at slices tail
  cases (before.filter conflict).eq_nil_or_concat with
  | inl empty =>
      rw [empty] at slices removedNext
      have same : s.round conflict current =
          ⟨Function.update s.next previous (s.next current), s.head, some current, some current,
            s.next current, some current⟩ := by
        rw [round, if_pos hit, take, points]
        dsimp only
        rw [show s.slices = none from slices]
        dsimp only
        rw [Function.update_of_ne currentNe]
      rw [same]
      constructor
      · rw [keptNext]
        exact main
      · exact behind
      · exact List.getLast?_concat.symm
      · rw [removedNext]
        rfl
      · rw [removedNext]
        rfl
      · intro front last split
        rw [removedNext] at split
        cases front with
        | nil =>
            obtain rfl : current = last := (List.cons.inj split).1
            rfl
        | cons first more =>
            have later := (List.cons.inj split).2
            exact absurd later.symm (by simp)
      · intro n outside
        have notPrevious : n ≠ previous := by
          rintro rfl
          exact outside (by simp)
        exact (Function.update_of_ne notPrevious _ _).trans
          (removing.frame n fun member => outside (List.mem_append_left _ member))
  | inr some =>
      obtain ⟨front, last, split⟩ := some
      rw [List.concat_eq_append] at split
      have lastMember : last ∈ before.filter conflict := by
        rw [split]
        exact List.mem_append_right _ List.mem_cons_self
      have lastHit : conflict last = true := (List.mem_filter.mp lastMember).2
      have lastBefore : last ∈ before := (List.mem_filter.mp lastMember).1
      have lastNe : last ≠ previous := fun same => absent (same ▸ lastBefore)
      have lastDone : last ∈ before ++ [previous] := List.mem_append_left _ lastBefore
      have currentLast : current ≠ last := fun same =>
        apart last lastDone current List.mem_cons_self same.symm
      have tailEq : s.tail = Option.some last := by
        rw [tail, split]
        exact List.getLast?_concat
      obtain ⟨first, slicesEq⟩ : ∃ first, s.slices = Option.some first := by
        rw [slices, split]
        cases front with
        | nil => exact ⟨last, rfl⟩
        | cons first more => exact ⟨first, rfl⟩
      have same : s.round conflict current =
          ⟨Function.update (Function.update s.next previous (s.next current)) last
            (Option.some current), s.head, s.slices, Option.some current, s.next current,
            Option.some current⟩ := by
        rw [round, if_pos hit, take, points, tailEq, slicesEq]
        dsimp only
        rw [Function.update_of_ne currentLast, Function.update_of_ne currentNe]
      have list := removing.removed front last (removedEq.trans split)
      rw [same]
      constructor
      · rw [keptNext]
        refine main.congr fun n member => Function.update_of_ne ?_ _ _
        rintro rfl
        cases List.mem_append.mp member with
        | inl kept =>
            have free := (List.mem_filter.mp kept).2
            rw [lastHit] at free
            cases free
        | inr final => exact lastNe (List.mem_singleton.mp final)
      · refine behind.congr fun n member => Function.update_of_ne ?_ _ _
        rintro rfl
        exact apart n lastDone n (List.mem_cons_of_mem _ member) rfl
      · exact List.getLast?_concat.symm
      · rw [removedNext, split]
        dsimp only
        rw [slices, split]
        cases front <;> rfl
      · rw [removedNext]
        exact List.getLast?_concat.symm
      · intro front' last' split'
        rw [removedNext, split] at split'
        obtain ⟨rfl, lastEq⟩ := List.append_inj' split' rfl
        obtain rfl : current = last' := (List.cons.inj lastEq).1
        -- the removed list goes on from its old tail
        refine Leads.concat_iff.mpr ⟨list.congr fun n member => ?_, Function.update_self _ _ _⟩
        have nHit : n ∈ before.filter conflict := by
          rw [split]
          exact List.mem_append_left _ member
        have notLast : n ≠ last := by
          rintro rfl
          have distinct := split ▸ beforeNodup.filter conflict
          exact (List.nodup_append.mp distinct).2.2 n member n List.mem_cons_self rfl
        have notPrevious : n ≠ previous := by
          rintro rfl
          exact absent (List.mem_filter.mp nHit).1
        dsimp only
        rw [Function.update_of_ne notLast, Function.update_of_ne notPrevious]
      · intro n outside
        have notLast : n ≠ last := by
          rintro rfl
          exact outside (List.mem_append_left _ lastDone)
        have notPrevious : n ≠ previous := by
          rintro rfl
          exact outside (by simp)
        dsimp only
        rw [Function.update_of_ne notLast, Function.update_of_ne notPrevious]
        exact removing.frame n fun member => outside (List.mem_append_left _ member)

/-- A round, as long as the entry and the one before it do not both conflict. -/
theorem Removing.round {original : Nat → Option Nat}
    (removing : Removing conflict original s done (current :: rest))
    (nodup : (done ++ current :: rest).Nodup) (spaced : Spaced conflict (done ++ [current])) :
    Removing conflict original (s.round conflict current) (done ++ [current]) rest := by
  cases hit : conflict current with
  | false => exact removing.keep hit
  | true =>
      cases done.eq_nil_or_concat with
      | inl empty =>
          subst empty
          exact removing.take_first hit
      | inr some =>
          obtain ⟨before, previous, split⟩ := some
          rw [List.concat_eq_append] at split
          subst split
          have pair := (List.isChain_append.mp spaced).2.2 previous (by simp) current (by simp)
          exact removing.take_behind nodup hit (Bool.eq_false_of_not_eq_true fun both =>
            pair ⟨both, hit⟩)

/-- The loop over the entries up to some point, where no neighbours conflict. -/
theorem Removing.run {original : Nat → Option Nat} {middle : List Nat} (fuel : Nat)
    (removing : Removing conflict original s done (middle ++ rest))
    (nodup : (done ++ (middle ++ rest)).Nodup) (spaced : Spaced conflict (done ++ middle)) :
    ∃ s', RemoveLoop.run conflict (middle.length + fuel) s = RemoveLoop.run conflict fuel s' ∧
      Removing conflict original s' (done ++ middle) rest := by
  induction middle generalizing done s with
  | nil =>
      refine ⟨s, ?_, ?_⟩
      · rw [List.length_nil, Nat.zero_add]
      · rw [List.append_nil]
        exact removing
  | cons current middle ih =>
      have points : s.current = some current := removing.rest.1
      have split : done ++ current :: middle = done ++ [current] ++ middle := by simp
      have splitAll : done ++ (current :: middle ++ rest) = done ++ [current] ++ (middle ++ rest) := by
        simp
      have first : Spaced conflict (done ++ [current]) := by
        rw [split] at spaced
        exact (List.isChain_append.mp spaced).1
      rw [List.length_cons, Nat.add_right_comm, RemoveLoop.run, points, split]
      exact ih (removing.round nodup first) (splitAll ▸ nodup) (split ▸ spaced)

theorem run_ended (fuel : Nat) (ended : s.current = none) : run conflict fuel s = s := by
  cases fuel with
  | zero => rfl
  | succ fuel => rw [run, ended]

/-- The whole loop where no neighbours conflict. -/
theorem Removing.run_all {original : Nat → Option Nat} {fuel : Nat}
    (removing : Removing conflict original s [] rest) (nodup : rest.Nodup)
    (spaced : Spaced conflict rest) (enough : rest.length ≤ fuel) :
    Removing conflict original (RemoveLoop.run conflict fuel s) rest [] := by
  obtain ⟨more, rfl⟩ := Nat.exists_eq_add_of_le enough
  have start : Removing conflict original s [] (rest ++ []) := by
    rw [List.append_nil]
    exact removing
  obtain ⟨s', run, done⟩ := start.run more (by rw [List.append_nil]; exact nodup) spaced
  rw [run, run_ended more done.rest]
  exact done

/-- The loop behind two conflicting neighbours: the list still leads to the second. -/
structure Stuck (s : RemoveLoop) (kept : List Nat) (node : Nat) (rest : List Nat) : Prop where
  main : Leads s.next s.head kept (some node)
  behind : Linked s.next s.current rest
  previous : ∃ previous, s.previous = some previous ∧ previous ∉ kept ∧ previous ∉ rest
  tail : ∃ tail slices, s.tail = some tail ∧ s.slices = some slices ∧ tail ∉ kept ∧ tail ∉ rest

theorem Stuck.round {kept : List Nat} {node : Nat} (stuck : Stuck s kept node (current :: rest))
    (nodup : (current :: rest).Nodup) (apart : ∀ n ∈ current :: rest, n ∉ kept) :
    Stuck (s.round conflict current) kept node rest := by
  obtain ⟨previous, previousEq, previousKept, previousRest⟩ := stuck.previous
  obtain ⟨tail, slices, tailEq, slicesEq, tailKept, tailRest⟩ := stuck.tail
  have absent := (List.nodup_cons.mp nodup).1
  have currentKept := apart current List.mem_cons_self
  have currentPrevious : current ≠ previous := fun same =>
    previousRest (same ▸ List.mem_cons_self)
  have currentTail : current ≠ tail := fun same => tailRest (same ▸ List.mem_cons_self)
  cases hit : conflict current with
  | false =>
      have same : s.round conflict current =
          { s with
            previous := some current
            current := s.next current } := by
        rw [RemoveLoop.round, hit]
        rfl
      rw [same]
      exact ⟨stuck.main, stuck.behind.2, ⟨current, rfl, currentKept, absent⟩,
        tail, slices, tailEq, slicesEq, tailKept,
        fun member => tailRest (List.mem_cons_of_mem _ member)⟩
  | true =>
      have same : s.round conflict current =
          ⟨Function.update (Function.update s.next previous (s.next current)) tail (some current),
            s.head, s.slices, some current, s.next current, some current⟩ := by
        rw [RemoveLoop.round, if_pos hit, take, previousEq, tailEq, slicesEq]
        dsimp only
        rw [Function.update_of_ne currentTail, Function.update_of_ne currentPrevious]
      have unchanged : ∀ n, n ≠ previous → n ≠ tail →
          Function.update (Function.update s.next previous (s.next current)) tail (some current) n =
            s.next n := by
        intro n notPrevious notTail
        rw [Function.update_of_ne notTail, Function.update_of_ne notPrevious]
      rw [same]
      refine ⟨stuck.main.congr fun n member => unchanged n ?_ ?_,
        stuck.behind.2.congr fun n member => unchanged n ?_ ?_,
        ⟨current, rfl, currentKept, absent⟩, current, slices, rfl, slicesEq, currentKept, absent⟩
      · exact fun same => previousKept (same ▸ member)
      · exact fun same => tailKept (same ▸ member)
      · exact fun same => previousRest (same ▸ List.mem_cons_of_mem _ member)
      · exact fun same => tailRest (same ▸ List.mem_cons_of_mem _ member)

theorem Stuck.run {kept : List Nat} {node fuel : Nat} (stuck : Stuck s kept node rest)
    (conflict : Nat → Bool) (nodup : rest.Nodup) (apart : ∀ n ∈ rest, n ∉ kept)
    (enough : rest.length ≤ fuel) :
    Stuck (RemoveLoop.run conflict fuel s) kept node [] := by
  induction rest generalizing fuel s with
  | nil =>
      have ended : s.current = none := stuck.behind
      cases fuel with
      | zero => exact stuck
      | succ fuel =>
          rw [RemoveLoop.run, ended]
          exact stuck
  | cons current rest ih =>
      cases fuel with
      | zero => cases enough
      | succ fuel =>
          have points : s.current = some current := stuck.behind.1
          rw [RemoveLoop.run, points]
          exact ih (stuck.round nodup apart) (List.nodup_cons.mp nodup).2
            (fun n member => apart n (List.mem_cons_of_mem _ member))
            (Nat.le_of_succ_le_succ enough)

/-- After a conflicting entry the loop is stuck at a conflicting neighbour. -/
theorem Removing.stuck {original : Nat → Option Nat} {before : List Nat} {left right : Nat}
    (removing : Removing conflict original s (before ++ [left]) (right :: rest))
    (nodup : (before ++ [left] ++ right :: rest).Nodup) (hit : conflict left = true) :
    Stuck s (before.filter fun n => !conflict n) right (right :: rest) := by
  obtain ⟨doneNodup, -, apart⟩ := List.nodup_append.mp nodup
  have points : s.current = some right := removing.rest.1
  have keptEq : (before ++ [left]).filter (fun n => !conflict n) =
      before.filter fun n => !conflict n := by
    rw [List.filter_append, List.filter_cons_of_neg (by rw [hit]; exact nofun), List.filter_nil,
      List.append_nil]
  have removedEq : (before ++ [left]).filter conflict = before.filter conflict ++ [left] := by
    rw [List.filter_append, List.filter_cons_of_pos hit, List.filter_nil]
  have leftKept : left ∉ before.filter fun n => !conflict n := by
    intro member
    have free := (List.mem_filter.mp member).2
    rw [hit] at free
    cases free
  have leftRest : left ∉ right :: rest := fun member =>
    apart left (List.mem_append_right _ List.mem_cons_self) left member rfl
  have tailEq : s.tail = some left := by
    rw [removing.tail, removedEq]
    exact List.getLast?_concat
  obtain ⟨slices, slicesEq⟩ : ∃ slices, s.slices = some slices := by
    rw [removing.slices, removedEq]
    cases before.filter conflict with
    | nil => exact ⟨left, rfl⟩
    | cons first more => exact ⟨first, rfl⟩
  refine ⟨?_, removing.rest, ⟨left, removing.previous.trans List.getLast?_concat, leftKept,
    leftRest⟩, left, slices, tailEq, slicesEq, leftKept, leftRest⟩
  have main := removing.main
  rw [keptEq, points] at main
  exact main

end RemoveLoop

end FastStore.Api
