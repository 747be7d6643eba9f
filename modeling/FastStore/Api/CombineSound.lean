import FastStore.Api.WriteCombine

/-!
# What write combining keeps

The pending slices of a block are in order, share no byte and fit the buffer and
the block; what the server shows through them is the content a client without
combining would have.  Each function of the write path is described by what it does
to this view: a push leaves it, an append and a new slice move it by the write, and
a call that goes to the server moves the server and the view alike, because no
pending slice is in its way.
-/

namespace FastStore.Api

open FastStore.Storage FastStore.Util

/-- The ranges share no byte. -/
def Apart (left right : FSBlockSliceKeyInfo) : Prop := ∀ q, Covers left q → ¬Covers right q

theorem Apart.symm {left right : FSBlockSliceKeyInfo} (apart : Apart left right) :
    Apart right left :=
  fun q inRight inLeft => apart q inLeft inRight

namespace CombineState

/-- The slice is in its block's list. -/
def Pends (s : CombineState) (id : Nat) : Prop := (s.stage id).Pending

/-- The values the slice holds. -/
def patch (s : CombineState) (id : Nat) : BlockByte → Option Cell :=
  writtenTo (s.slice id).bsKey (s.slice id).buff

/-- Where the slice starts in its block. -/
def start (s : CombineState) (id : Nat) : Int := (s.slice id).bsKey.slice.offset

/-- The slices that were pushed and are not released. -/
def busy (s : CombineState) : List Nat := s.queue ++ s.running.map (·.1)

/-- No pending slice shares a byte with the range. -/
def Clear (s : CombineState) (bsKey : FSBlockSliceKeyInfo) : Prop :=
  ∀ id, s.Pends id → Apart bsKey (s.slice id).bsKey

/-- The range lies in its block and in a buffer. -/
structure Fits (cfg : WriteCombineConfig) (ssize : FSSliceSize) : Prop where
  offset : 0 ≤ ssize.offset
  length : 0 ≤ ssize.length
  block : sliceEnd ssize ≤ fsFileBlockSize
  buffer : ssize.length ≤ cfg.bufferSize

/-- The pending slices are well formed, and through them the server shows `view`. -/
structure Sound (cfg : WriteCombineConfig) (view : Cells) (s : CombineState) : Prop where
  listed : ∀ id bkey, id ∈ s.slices bkey ↔ s.Pends id ∧ (s.slice id).bsKey.block = bkey
  nodup : ∀ bkey, (s.slices bkey).Nodup
  sorted : ∀ bkey, (s.slices bkey).Pairwise fun a b => s.start a ≤ s.start b
  fits : ∀ id, s.Pends id → Fits cfg (s.slice id).bsKey.slice
  apart : ∀ a b, s.Pends a → s.Pends b → a ≠ b → Apart (s.slice a).bsKey (s.slice b).bsKey
  fresh : ∀ id, s.nextId ≤ id → s.stage id = .none
  busy : ∀ id ∈ s.busy, s.stage id = .processing
  busyNodup : s.busy.Nodup
  stored : ∀ id point, (id, point) ∈ s.running → point ≠ .writing → Stored (s.patch id) s.server
  entries : ∀ key id, s.otidSlice key = some id →
    (s.slice id).otid = key ∧ s.Pends id ∧ (id, .detached) ∉ s.running
  shows : Overlay s.Pends s.patch s.server view

theorem patch_none {s : CombineState} {bsKey : FSBlockSliceKeyInfo} {id : Nat}
    (apart : Apart bsKey (s.slice id).bsKey) {q : BlockByte} (covered : Covers bsKey q) :
    s.patch id q = none :=
  writtenTo_eq_none_iff.mpr (apart q covered)

theorem patch_none_or {s : CombineState} {bsKey : FSBlockSliceKeyInfo} {id : Nat}
    (apart : Apart bsKey (s.slice id).bsKey) (buff : Int → UInt8) (q : BlockByte) :
    s.patch id q = none ∨ writtenTo bsKey buff q = none := by
  by_cases covered : Covers bsKey q
  · exact .inl (patch_none apart covered)
  · exact .inr (writtenTo_eq_none_iff.mpr covered)

/-! ## Pushing slices -/

/-- The states differ in which pending slices are pushed, and in nothing else. -/
structure Pushed (s s' : CombineState) : Prop where
  server : s'.server = s.server
  slice : s'.slice = s.slice
  pends : ∀ id, s'.Pends id ↔ s.Pends id
  slices : s'.slices = s.slices
  otids : s'.otids = s.otids
  running : s'.running = s.running
  nextId : s'.nextId = s.nextId
  call : s'.call = s.call
  log : s'.log = s.log

namespace Pushed

variable {s s' s'' : CombineState}

theorem refl (s : CombineState) : Pushed s s := ⟨rfl, rfl, fun _ => .rfl, rfl, rfl, rfl, rfl, rfl, rfl⟩

theorem trans (first : Pushed s s') (second : Pushed s' s'') : Pushed s s'' where
  server := second.server.trans first.server
  slice := second.slice.trans first.slice
  pends := fun id => (second.pends id).trans (first.pends id)
  slices := second.slices.trans first.slices
  otids := second.otids.trans first.otids
  running := second.running.trans first.running
  nextId := second.nextId.trans first.nextId
  call := second.call.trans first.call
  log := second.log.trans first.log

theorem clear (pushed : Pushed s s') {bsKey : FSBlockSliceKeyInfo} (clear : s.Clear bsKey) :
    s'.Clear bsKey := by
  intro id pends
  rw [pushed.slice]
  exact clear id ((pushed.pends id).mp pends)

end Pushed

variable {cfg : WriteCombineConfig} {view : Cells} {s : CombineState} {id : Nat}

theorem pends_of_processing (processing : s.stage id = .processing) : s.Pends id := .inr processing

theorem pends_of_merging (merging : s.stage id = .merging) : s.Pends id := .inl merging

theorem Sound.pends_of_busy (sound : Sound cfg view s) (isBusy : id ∈ s.busy) : s.Pends id :=
  pends_of_processing (sound.busy id isBusy)

theorem mem_busy_of_running {point : RunPoint} (runs : (id, point) ∈ s.running) : id ∈ s.busy :=
  List.mem_append_right _ (List.mem_map_of_mem runs)

theorem Sound.id_lt (sound : Sound cfg view s) (pends : s.Pends id) : id < s.nextId := by
  by_contra above
  have none := sound.fresh id (not_lt.mp above)
  rw [Pends, none] at pends
  exact absurd pends (by decide)

theorem pushed_push (merging : s.stage id = .merging) :
    Pushed s (s.combineHandlerPushWithinLock id) where
  server := rfl
  slice := rfl
  pends := by
    intro j
    by_cases same : j = id
    · subst same
      simp [Pends, combineHandlerPushWithinLock, CombineStage.Pending, merging]
    · simp [Pends, combineHandlerPushWithinLock, Function.update_of_ne same]
  slices := rfl
  otids := rfl
  running := rfl
  nextId := rfl
  call := rfl
  log := rfl

theorem Sound.push (sound : Sound cfg view s) (merging : s.stage id = .merging) :
    Sound cfg view (s.combineHandlerPushWithinLock id) := by
  have pends := (pushed_push merging).pends
  have absent : id ∉ s.busy := by
    intro isBusy
    exact absurd (merging.symm.trans (sound.busy id isBusy)) nofun
  have split : (s.combineHandlerPushWithinLock id).busy.Perm (id :: s.busy) := by
    simp only [CombineState.busy, combineHandlerPushWithinLock, List.append_assoc,
      List.singleton_append]
    exact List.perm_middle
  refine ⟨?_, sound.nodup, sound.sorted, ?_, ?_, ?_, ?_, ?_, sound.stored, ?_, ?_⟩
  · intro j bkey
    rw [pends j]
    exact sound.listed j bkey
  · intro j pendsJ
    exact sound.fits j ((pends j).mp pendsJ)
  · intro a b pendsA pendsB
    exact sound.apart a b ((pends a).mp pendsA) ((pends b).mp pendsB)
  · intro j above
    have other : j ≠ id := by
      intro same
      exact absurd (sound.id_lt (pends_of_merging merging)) (not_lt.mpr (same ▸ above))
    exact (Function.update_of_ne other _ _).trans (sound.fresh j above)
  · intro j isBusy
    cases List.mem_cons.mp (split.subset isBusy) with
    | inl same => exact same ▸ Function.update_self ..
    | inr before =>
        have other : j ≠ id := fun same => absent (same ▸ before)
        exact (Function.update_of_ne other _ _).trans (sound.busy j before)
  · exact split.nodup_iff.mpr (List.nodup_cons.mpr ⟨absent, sound.busyNodup⟩)
  · intro key j found
    have entry := sound.entries key j found
    exact ⟨entry.1, (pends j).mpr entry.2.1, entry.2.2⟩
  · exact ⟨fun pendsJ => sound.shows.covered ((pends _).mp pendsJ),
      fun none => sound.shows.bare fun j pendsJ => none j ((pends j).mpr pendsJ)⟩

/-- A push that happens only in stage merging. -/
theorem Sound.pushIf (sound : Sound cfg view s) (id : Nat) :
    Sound cfg view (if s.stage id = .merging then s.combineHandlerPushWithinLock id else s) ∧
      Pushed s (if s.stage id = .merging then s.combineHandlerPushWithinLock id else s) := by
  split
  · rename_i merging
    exact ⟨sound.push merging, pushed_push merging⟩
  · exact ⟨sound, .refl s⟩

/-! ## The write into the thread's last slice -/

/-- The grown slice covers its old range and the range of the write. -/
theorem covers_append {slice : FSAPISliceEntry} {bsKey : FSBlockSliceKeyInfo}
    (block : bsKey.block = slice.bsKey.block)
    (follows : bsKey.slice.offset = sliceEnd slice.bsKey.slice)
    (nonneg : 0 ≤ slice.bsKey.slice.length ∧ 0 ≤ bsKey.slice.length) (buff : Int → UInt8)
    (q : BlockByte) :
    Covers (slice.append bsKey.slice.length buff).bsKey q ↔
      Covers bsKey q ∨ Covers slice.bsKey q := by
  simp only [Covers, FSAPISliceEntry.append, sliceEnd, block] at follows ⊢
  constructor
  · intro covered
    by_cases old : q.2 < slice.bsKey.slice.offset + slice.bsKey.slice.length
    · exact .inr ⟨covered.1, covered.2.1, old⟩
    · refine .inl ⟨covered.1, ?_, ?_⟩ <;> omega
  · intro either
    cases either with
    | inl new =>
        refine ⟨new.1, ?_, ?_⟩ <;> omega
    | inr old =>
        refine ⟨old.1, old.2.1, ?_⟩
        omega

/-- The grown slice holds the data of the write and its old data. -/
theorem writtenTo_append {slice : FSAPISliceEntry} {bsKey : FSBlockSliceKeyInfo}
    (block : bsKey.block = slice.bsKey.block)
    (follows : bsKey.slice.offset = sliceEnd slice.bsKey.slice)
    (nonneg : 0 ≤ slice.bsKey.slice.length ∧ 0 ≤ bsKey.slice.length) (buff : Int → UInt8)
    (q : BlockByte) :
    writtenTo (slice.append bsKey.slice.length buff).bsKey
        (slice.append bsKey.slice.length buff).buff q =
      (writtenTo bsKey buff q).or (writtenTo slice.bsKey slice.buff q) := by
  have grown := covers_append block follows nonneg buff q
  by_cases new : Covers bsKey q
  · rw [writtenTo_of_covers (grown.mpr (.inl new)), writtenTo_of_covers new, Option.some_or]
    simp only [Covers, sliceEnd] at new follows
    have inNew : slice.bsKey.slice.length ≤ q.2 - slice.bsKey.slice.offset ∧
        q.2 - slice.bsKey.slice.offset < slice.bsKey.slice.length + bsKey.slice.length := by
      omega
    have place : q.2 - slice.bsKey.slice.offset - slice.bsKey.slice.length =
        q.2 - bsKey.slice.offset := by
      omega
    simp only [FSAPISliceEntry.append, if_pos inNew, place]
  · rw [writtenTo_eq_none_iff.mpr new, Option.none_or]
    by_cases old : Covers slice.bsKey q
    · rw [writtenTo_of_covers (grown.mpr (.inr old)), writtenTo_of_covers old]
      simp only [Covers, sliceEnd] at old
      have inOld : ¬(slice.bsKey.slice.length ≤ q.2 - slice.bsKey.slice.offset ∧
          q.2 - slice.bsKey.slice.offset < slice.bsKey.slice.length + bsKey.slice.length) := by
        omega
      simp only [FSAPISliceEntry.append, if_neg inOld]
    · rw [writtenTo_eq_none_iff.mpr old, writtenTo_eq_none_iff]
      intro covered
      cases grown.mp covered with
      | inl inNew => exact new inNew
      | inr inOld => exact old inOld

variable {call : ApiCall} {buff : Int → UInt8}

/-- The state after the write was copied behind the data of the slice. -/
def appended (s : CombineState) (id : Nat) (call : ApiCall) (buff : Int → UInt8) : CombineState :=
  { s with
    slice := Function.update s.slice id ((s.slice id).append call.bsKey.slice.length buff) }

theorem Sound.append (sound : Sound cfg view s) (merging : s.stage id = .merging)
    (valid : call.Valid) (clear : s.Clear call.bsKey)
    (block : call.bsKey.block = (s.slice id).bsKey.block)
    (follows : call.bsKey.slice.offset = sliceEnd (s.slice id).bsKey.slice)
    (room : (s.slice id).bsKey.slice.length + call.bsKey.slice.length ≤ cfg.bufferSize) :
    Sound cfg (fsClientSliceWrite call.bsKey buff view) (s.appended id call buff) := by
  have pends := pends_of_merging merging
  have fits := sound.fits id pends
  have nonneg : 0 ≤ (s.slice id).bsKey.slice.length ∧ 0 ≤ call.bsKey.slice.length :=
    ⟨fits.length, valid.2.1⟩
  have own : (s.appended id call buff).slice id =
      (s.slice id).append call.bsKey.slice.length buff := Function.update_self ..
  have other : ∀ {j}, j ≠ id → (s.appended id call buff).slice j = s.slice j :=
    fun different => Function.update_of_ne different ..
  have sameBlock : ∀ j, ((s.appended id call buff).slice j).bsKey.block =
      (s.slice j).bsKey.block := by
    intro j
    by_cases same : j = id
    · rw [same, own]
      rfl
    · rw [other same]
  have sameStart : ∀ j, (s.appended id call buff).start j = s.start j := by
    intro j
    by_cases same : j = id
    · rw [start, same, own]
      rfl
    · rw [start, other same]
      rfl
  have grownApart : ∀ j, s.Pends j → j ≠ id →
      Apart ((s.appended id call buff).slice id).bsKey (s.slice j).bsKey := by
    intro j pendsJ different q covered
    rw [own, covers_append block follows nonneg] at covered
    cases covered with
    | inl new => exact clear j pendsJ q new
    | inr old => exact sound.apart id j pends pendsJ (Ne.symm different) q old
  refine ⟨?_, sound.nodup, ?_, ?_, ?_, sound.fresh, sound.busy, sound.busyNodup, ?_, ?_, ?_⟩
  · intro j bkey
    rw [sameBlock j]
    exact sound.listed j bkey
  · intro bkey
    simp only [sameStart]
    exact sound.sorted bkey
  · intro j pendsJ
    by_cases same : j = id
    · rw [same, own]
      have inBlock := valid.2.2.1
      simp only [sliceEnd] at inBlock follows
      refine ⟨fits.offset, add_nonneg nonneg.1 nonneg.2, ?_, room⟩
      simp only [FSAPISliceEntry.append, sliceEnd]
      omega
    · rw [other same]
      exact sound.fits j pendsJ
  · intro a b pendsA pendsB different
    by_cases sameA : a = id
    · have differentB : b ≠ id := fun sameB => different (sameA.trans sameB.symm)
      rw [sameA, other differentB]
      exact grownApart b pendsB differentB
    · by_cases sameB : b = id
      · rw [sameB, other sameA]
        exact (grownApart a pendsA sameA).symm
      · rw [other sameA, other sameB]
        exact sound.apart a b pendsA pendsB different
  · intro j point runs notWriting
    have different : j ≠ id := by
      intro same
      subst same
      exact absurd (merging.symm.trans (sound.busy j (mem_busy_of_running runs))) (by simp)
    rw [patch, other different]
    exact sound.stored j point runs notWriting
  · intro key j found
    have entry := sound.entries key j found
    refine ⟨?_, entry.2⟩
    by_cases same : j = id
    · subst same
      rw [own]
      exact entry.1
    · rw [other same]
      exact entry.1
  · refine sound.shows.extend pends ?_ ?_ ?_
    · intro j different pendsJ
      rw [patch, other different]
      rfl
    · intro j q different pendsJ
      exact patch_none_or (clear j pendsJ) buff q
    · intro q
      rw [patch, own]
      exact writtenTo_append block follows nonneg buff q

/-! ## A new slice -/

/-- The position is behind the slices that do not reach past the range's start and
before the first slice at or behind its end. -/
theorem obidHtableFindPosition_spec {slice : Nat → FSAPISliceEntry} {ssize : FSSliceSize}
    {ids : List Nat} {position : List Nat × List Nat}
    (found : obidHtableFindPosition slice ssize ids = some position) :
    ids = position.1 ++ position.2 ∧
      (∀ a ∈ position.1, (slice a).bsKey.slice.offset ≤ ssize.offset) ∧
      ∀ b ∈ position.2.head?, sliceEnd ssize ≤ (slice b).bsKey.slice.offset := by
  induction ids generalizing position with
  | nil =>
      obtain rfl := Option.some.inj found
      exact ⟨rfl, nofun, nofun⟩
  | cons id rest ih =>
      rw [obidHtableFindPosition] at found
      by_cases behind : sliceEnd ssize ≤ (slice id).bsKey.slice.offset
      · rw [if_pos behind] at found
        obtain rfl := Option.some.inj found
        refine ⟨rfl, nofun, ?_⟩
        intro b isHead
        obtain rfl := Option.some.inj isHead
        exact behind
      · rw [if_neg behind] at found
        by_cases overlap : fsSliceIsOverlap ssize (slice id).bsKey.slice = true
        · rw [if_pos overlap] at found
          exact absurd found nofun
        · rw [if_neg overlap] at found
          obtain ⟨inner, innerFound, rfl⟩ := Option.map_eq_some_iff.mp found
          have tail := ih innerFound
          refine ⟨congrArg (List.cons id) tail.1, ?_, tail.2.2⟩
          intro a member
          cases List.mem_cons.mp member with
          | inl same =>
              subst same
              by_contra less
              apply overlap
              rw [fsSliceIsOverlap, if_pos (not_le.mp less)]
              exact decide_eq_true (not_le.mp behind)
          | inr inTail => exact tail.2.1 a inTail

/-- The new slice is in the list and the timer; the thread's entry is not touched
yet. -/
def inserted (s : CombineState) (call : ApiCall) (buff : Int → UInt8)
    (position : List Nat × List Nat) : CombineState :=
  { s with
    slice := Function.update s.slice s.nextId ⟨call.otidKey, 1, call.bsKey, buff⟩
    stage := Function.update s.stage s.nextId .merging
    slices := Function.update s.slices call.bsKey.block (position.1 ++ s.nextId :: position.2)
    nextId := s.nextId + 1 }

theorem start_inserted (s : CombineState) (call : ApiCall) (buff : Int → UInt8)
    (position : List Nat × List Nat) :
    (s.inserted call buff position).start s.nextId = call.bsKey.slice.offset := by
  simp [start, inserted]

/-- The list with the new slice at its position is in order. -/
theorem inserted_sorted {ids : List Nat} {position : List Nat × List Nat}
    {ssize : FSSliceSize} {start' : Nat → Int}
    (place : ids = position.1 ++ position.2 ∧ (∀ a ∈ position.1, s.start a ≤ ssize.offset) ∧
      ∀ b ∈ position.2.head?, sliceEnd ssize ≤ s.start b)
    (ordered : (position.1 ++ position.2).Pairwise fun a b => s.start a ≤ s.start b)
    (old : ∀ {j}, s.Pends j → start' j = s.start j) (new : start' id = ssize.offset)
    (nonneg : 0 ≤ ssize.length) (listed : ∀ {j}, j ∈ position.1 ++ position.2 → s.Pends j) :
    (position.1 ++ id :: position.2).Pairwise fun a b => start' a ≤ start' b := by
  obtain ⟨front, back, across⟩ := List.pairwise_append.mp ordered
  have oldFront : ∀ {a}, a ∈ position.1 → start' a = s.start a :=
    fun member => old (listed (List.mem_append_left _ member))
  have oldBack : ∀ {b}, b ∈ position.2 → start' b = s.start b :=
    fun member => old (listed (List.mem_append_right _ member))
  have behind : ∀ b ∈ position.2, ssize.offset ≤ s.start b := by
    have first := place.2.2
    have below : ssize.offset ≤ sliceEnd ssize := le_add_of_nonneg_right nonneg
    cases rest : position.2 with
    | nil => exact nofun
    | cons head tail =>
        rw [rest] at first back
        have headBehind := below.trans (first head rfl)
        intro b member
        cases List.mem_cons.mp member with
        | inl same => exact same ▸ headBehind
        | inr inTail => exact headBehind.trans ((List.pairwise_cons.mp back).1 b inTail)
  refine List.pairwise_append.mpr ⟨?_, List.pairwise_cons.mpr ⟨?_, ?_⟩, ?_⟩
  · refine front.imp_of_mem ?_
    intro a b memberA memberB less
    rw [oldFront memberA, oldFront memberB]
    exact less
  · intro b member
    rw [new, oldBack member]
    exact behind b member
  · refine back.imp_of_mem ?_
    intro a b memberA memberB less
    rw [oldBack memberA, oldBack memberB]
    exact less
  · intro a memberA b memberB
    rw [oldFront memberA]
    cases List.mem_cons.mp memberB with
    | inl same =>
        rw [same, new]
        exact place.2.1 a memberA
    | inr inBack =>
        rw [oldBack inBack]
        exact across a memberA b inBack

theorem Sound.insert (sound : Sound cfg view s) (valid : call.Valid) (clear : s.Clear call.bsKey)
    (room : call.bsKey.slice.length ≤ cfg.bufferSize) {position : List Nat × List Nat}
    (found : obidHtableFindPosition s.slice call.bsKey.slice (s.slices call.bsKey.block) =
      some position) :
    Sound cfg (fsClientSliceWrite call.bsKey buff view) (s.inserted call buff position) := by
  have place := obidHtableFindPosition_spec found
  have isNew : ¬s.Pends s.nextId := fun pends => absurd (sound.id_lt pends) (lt_irrefl _)
  have different : ∀ {j}, s.Pends j → j ≠ s.nextId := fun pends => (sound.id_lt pends).ne
  have own : (s.inserted call buff position).slice s.nextId = ⟨call.otidKey, 1, call.bsKey, buff⟩ :=
    Function.update_self ..
  have other : ∀ {j}, j ≠ s.nextId → (s.inserted call buff position).slice j = s.slice j :=
    fun unlike => Function.update_of_ne unlike ..
  have pends : ∀ j, (s.inserted call buff position).Pends j ↔ j = s.nextId ∨ s.Pends j := by
    intro j
    by_cases same : j = s.nextId
    · simp [Pends, inserted, same, CombineStage.Pending]
    · simp [Pends, inserted, same]
  have listedOld : ∀ {j}, j ∈ position.1 ++ position.2 →
      s.Pends j ∧ (s.slice j).bsKey.block = call.bsKey.block := by
    intro j member
    rw [← place.1] at member
    exact (sound.listed j _).mp member
  have ordered : (position.1 ++ position.2).Pairwise fun a b => s.start a ≤ s.start b :=
    place.1 ▸ sound.sorted call.bsKey.block
  have startOld : ∀ {j}, s.Pends j → (s.inserted call buff position).start j = s.start j := by
    intro j pendsJ
    rw [start, other (different pendsJ)]
    rfl
  have newApart : ∀ {j}, s.Pends j →
      Apart call.bsKey ((s.inserted call buff position).slice j).bsKey := by
    intro j pendsJ
    rw [other (different pendsJ)]
    exact clear j pendsJ
  refine ⟨?_, ?_, ?_, ?_, ?_, ?_, ?_, sound.busyNodup, ?_, ?_, ?_⟩
  · intro j bkey
    rw [pends j]
    by_cases same : j = s.nextId
    · rw [same, own]
      by_cases sameBlock : bkey = call.bsKey.block
      · simp [inserted, sameBlock]
      · have old : s.nextId ∉ s.slices bkey := fun member => isNew ((sound.listed _ _).mp member).1
        simp [inserted, Function.update_of_ne sameBlock, old, Ne.symm sameBlock]
    · rw [other same]
      by_cases sameBlock : bkey = call.bsKey.block
      · have old : j ∈ position.1 ++ position.2 ↔ s.Pends j ∧ (s.slice j).bsKey.block = bkey := by
          rw [← place.1, sameBlock]
          exact sound.listed j _
        rw [List.mem_append] at old
        simp [inserted, sameBlock, same, old]
      · have old := sound.listed j bkey
        simp [inserted, Function.update_of_ne sameBlock, old, same]
  · intro bkey
    by_cases sameBlock : bkey = call.bsKey.block
    · have nodup := sound.nodup call.bsKey.block
      rw [place.1] at nodup
      have absent : s.nextId ∉ position.1 ++ position.2 := fun member => isNew (listedOld member).1
      simp only [inserted, sameBlock, Function.update_self]
      exact (List.perm_middle.nodup_iff).mpr (List.nodup_cons.mpr ⟨absent, nodup⟩)
    · simp only [inserted, Function.update_of_ne sameBlock]
      exact sound.nodup bkey
  · intro bkey
    by_cases sameBlock : bkey = call.bsKey.block
    · simp only [inserted, sameBlock, Function.update_self]
      exact inserted_sorted place ordered startOld (start_inserted s call buff position)
        valid.2.1 fun member => (listedOld member).1
    · simp only [inserted, Function.update_of_ne sameBlock]
      refine List.Pairwise.imp_of_mem ?_ (sound.sorted bkey)
      intro a b memberA memberB less
      have pendsA := ((sound.listed a bkey).mp memberA).1
      have pendsB := ((sound.listed b bkey).mp memberB).1
      exact ((startOld pendsA).trans_le less).trans_eq (startOld pendsB).symm
  · intro j pendsJ
    cases (pends j).mp pendsJ with
    | inl same =>
        rw [same, own]
        exact ⟨valid.1, valid.2.1, valid.2.2.1, room⟩
    | inr old =>
        rw [other (different old)]
        exact sound.fits j old
  · intro a b pendsA pendsB unlike
    cases (pends a).mp pendsA with
    | inl sameA =>
        cases (pends b).mp pendsB with
        | inl sameB => exact absurd (sameA.trans sameB.symm) unlike
        | inr oldB =>
            rw [sameA, own]
            exact newApart oldB
    | inr oldA =>
        cases (pends b).mp pendsB with
        | inl sameB =>
            rw [sameB, own]
            exact (newApart oldA).symm
        | inr oldB =>
            rw [other (different oldA), other (different oldB)]
            exact sound.apart a b oldA oldB unlike
  · intro j above
    have unlike : j ≠ s.nextId := fun same => absurd above (not_le.mpr (same ▸ Nat.lt_succ_self j))
    exact (Function.update_of_ne unlike _ _).trans (sound.fresh j (Nat.le_of_succ_le above))
  · intro j isBusy
    have pendsJ : s.Pends j := sound.pends_of_busy isBusy
    exact (Function.update_of_ne (different pendsJ) _ _).trans (sound.busy j isBusy)
  · intro j point runs notWriting
    rw [patch, other (different (sound.pends_of_busy (mem_busy_of_running runs)))]
    exact sound.stored j point runs notWriting
  · intro key j entryFound
    have entry := sound.entries key j entryFound
    refine ⟨?_, (pends j).mpr (.inr entry.2.1), entry.2.2⟩
    rw [other (different entry.2.1)]
    exact entry.1
  · have ownPatch : (s.inserted call buff position).patch s.nextId =
        writtenTo call.bsKey buff := by
      rw [patch, own]
    have shows : Overlay (s.inserted call buff position).Pends
        (s.inserted call buff position).patch s.server
        (overwrite ((s.inserted call buff position).patch s.nextId) view) := by
      refine sound.shows.add pends ?_ ?_ isNew
      · intro j unlike _
        rw [patch, other unlike]
        rfl
      · intro j q _ pendsJ
        rw [ownPatch]
        exact patch_none_or (clear j pendsJ) buff q
    rw [ownPatch] at shows
    exact shows

/-- The table of threads changes in a way that keeps what its entries say. -/
theorem Sound.withOtids (sound : Sound cfg view s)
    {otids : OTIDKey → Option FSWCombineOTIDEntry}
    (entries : ∀ key id, (otids key).bind (·.slice) = some id →
      (s.slice id).otid = key ∧ s.Pends id ∧ (id, .detached) ∉ s.running) :
    Sound cfg view { s with otids := otids } :=
  ⟨sound.listed, sound.nodup, sound.sorted, sound.fits, sound.apart, sound.fresh, sound.busy,
    sound.busyNodup, sound.stored, entries, sound.shows⟩

/-- What an updated entry of the table says. -/
theorem otidSlice_update {otids : OTIDKey → Option FSWCombineOTIDEntry} {key other : OTIDKey}
    {entry : Option FSWCombineOTIDEntry}
    (found : (Function.update otids key entry other).bind (·.slice) = some id) :
    (other = key ∧ entry.bind (·.slice) = some id) ∨
      (other ≠ key ∧ (otids other).bind (·.slice) = some id) := by
  by_cases same : other = key
  · subst same
    rw [Function.update_self] at found
    exact .inl ⟨rfl, found⟩
  · rw [Function.update_of_ne same] at found
    exact .inr ⟨same, found⟩

theorem Sound.insertCallback (sound : Sound cfg view s) (valid : call.Valid)
    (clear : s.Clear call.bsKey) (room : call.bsKey.slice.length ≤ cfg.bufferSize)
    (oldSlice : Option Nat) {position : List Nat × List Nat}
    (found : obidHtableFindPosition s.slice call.bsKey.slice (s.slices call.bsKey.block) =
      some position) :
    Sound cfg (fsClientSliceWrite call.bsKey buff view)
      (s.obidHtableInsertCallback call buff oldSlice position) := by
  have inserted : Sound cfg (fsClientSliceWrite call.bsKey buff view)
      (s.inserted call buff position) := sound.insert valid clear room found
  have merging : (s.inserted call buff position).stage s.nextId = .merging :=
    Function.update_self ..
  rw [obidHtableInsertCallback]
  split
  · refine inserted.withOtids ?_
    intro key id entryFound
    cases otidSlice_update entryFound with
    | inl new =>
        obtain ⟨sameKey, newEntry⟩ := new
        cases old : s.otids call.otidKey with
        | none =>
            rw [old] at newEntry
            exact absurd newEntry nofun
        | some entry =>
            rw [old] at newEntry
            obtain rfl := Option.some.inj newEntry
            refine ⟨?_, pends_of_merging merging, ?_⟩
            · simp [CombineState.inserted, sameKey]
            · intro runs
              exact absurd (sound.id_lt (sound.pends_of_busy (mem_busy_of_running runs)))
                (lt_irrefl _)
    | inr unchanged => exact inserted.entries key id unchanged.2
  · exact inserted.push merging

/-- What a look at the thread's last slice leaves: the write is in a pending slice, or
it is still to be done and nothing is in its way. -/
def ResultSound (cfg : WriteCombineConfig) (view : Cells) (call : ApiCall) (buff : Int → UInt8)
    (s : CombineState) : CombineResult → Prop
  | .combined => Sound cfg (fsClientSliceWrite call.bsKey buff view) s
  | _ => Sound cfg view s ∧ s.Clear call.bsKey

theorem doCombineSlice_spec (sound : Sound cfg view s) (merging : s.stage id = .merging)
    (valid : call.Valid) (clear : s.Clear call.bsKey)
    (block : call.bsKey.block = (s.slice id).bsKey.block)
    (follows : call.bsKey.slice.offset = sliceEnd (s.slice id).bsKey.slice)
    (room : (s.slice id).bsKey.slice.length + call.bsKey.slice.length ≤ cfg.bufferSize) :
    ResultSound cfg view call buff (doCombineSlice cfg id call buff s).1
      (doCombineSlice cfg id call buff s).2 := by
  have grown : Sound cfg (fsClientSliceWrite call.bsKey buff view) (s.appended id call buff) :=
    sound.append merging valid clear block follows room
  have stillMerging : (s.appended id call buff).stage id = .merging := merging
  rw [doCombineSlice]
  split
  · exact ⟨sound.push merging, (pushed_push merging).clear clear⟩
  · dsimp only
    split
    · exact grown.push stillMerging
    · exact grown

theorem createSlice_spec (sound : Sound cfg view s) (valid : call.Valid)
    (clear : s.Clear call.bsKey) (oldSlice : Option Nat) :
    ResultSound cfg view call buff (createSlice cfg call buff oldSlice s).1
      (createSlice cfg call buff oldSlice s).2 := by
  rw [createSlice]
  split
  · exact ⟨sound, clear⟩
  · rename_i room
    split
    · exact ⟨sound, clear⟩
    · cases found : obidHtableFindPosition s.slice call.bsKey.slice
          (s.slices call.bsKey.block) with
      | none => exact ⟨sound, clear⟩
      | some position =>
          have fits : call.bsKey.slice.length ≤ cfg.bufferSize := by omega
          exact sound.insertCallback valid clear fits oldSlice found

/-- The same for `try_combine_slice`, which may leave the write to a new slice. -/
def TrySound (cfg : WriteCombineConfig) (view : Cells) (call : ApiCall) (buff : Int → UInt8)
    (s : CombineState) : TryCombine → Prop
  | .settled result => ResultSound cfg view call buff s result
  | .newSlice _ => Sound cfg view s ∧ s.Clear call.bsKey

theorem tryNewSlice_spec (sound : Sound cfg view s) (clear : s.Clear call.bsKey) (isJump : Bool) :
    TrySound cfg view call buff s (tryNewSlice cfg id call isJump s) := by
  rw [tryNewSlice]
  split
  · exact ⟨sound, clear⟩
  · dsimp only
    split
    · exact ⟨sound, clear⟩
    · exact ⟨sound, clear⟩

theorem tryCombineSlice_spec (sound : Sound cfg view s) (valid : call.Valid)
    (clear : s.Clear call.bsKey) :
    TrySound cfg view call buff (tryCombineSlice cfg id call buff s).1
      (tryCombineSlice cfg id call buff s).2 := by
  rw [tryCombineSlice]
  dsimp only
  by_cases otherOid : call.bsKey.block.oid ≠ (s.slice id).bsKey.block.oid
  · rw [if_pos otherOid]
    exact ⟨sound, clear⟩
  · rw [if_neg otherOid]
    by_cases successive : call.bsKey.block.offset = (s.slice id).bsKey.block.offset ∧
        call.bsKey.slice.offset = sliceEnd (s.slice id).bsKey.slice
    · rw [if_pos successive]
      by_cases merging : s.stage id = .merging
      · rw [if_pos merging]
        split
        · exact tryNewSlice_spec (sound.push merging) ((pushed_push merging).clear clear) false
        · rename_i room
          have block : call.bsKey.block = (s.slice id).bsKey.block := by
            cases left : call.bsKey.block
            cases right : (s.slice id).bsKey.block
            simp_all
          exact doCombineSlice_spec sound merging valid clear block successive.2 (not_lt.mp room)
      · rw [if_neg merging]
        exact tryNewSlice_spec sound clear false
    · rw [if_neg successive]
      have pushed := sound.pushIf id
      exact tryNewSlice_spec pushed.1 (pushed.2.clear clear) true

theorem checkCombineSlice_spec (sound : Sound cfg view s) (valid : call.Valid)
    (clear : s.Clear call.bsKey) :
    ResultSound cfg view call buff (checkCombineSlice cfg call buff s).1
      (checkCombineSlice cfg call buff s).2 := by
  rw [checkCombineSlice]
  cases last : s.otidSlice call.otidKey with
  | none =>
      dsimp only
      split
      · exact createSlice_spec sound valid clear none
      · exact ⟨sound, clear⟩
  | some id =>
      have tried : TrySound cfg view call buff (tryCombineSlice cfg id call buff s).1
          (tryCombineSlice cfg id call buff s).2 := tryCombineSlice_spec sound valid clear
      dsimp only
      cases outcome : tryCombineSlice cfg id call buff s with
      | mk after result =>
          rw [outcome] at tried
          cases result with
          | settled result => exact tried
          | newSlice combined =>
              cases combined with
              | true => exact createSlice_spec tried.1 valid tried.2 (some id)
              | false => exact tried

/-! ## The conflict check -/

/-- The walk pushes slices and lists every pending slice that shares a byte with the
range. -/
theorem obidHtableFindCallback_spec {ssize : FSSliceSize} {ids : List Nat}
    (sound : Sound cfg view s) (ordered : ids.Pairwise fun a b => s.start a ≤ s.start b) :
    Sound cfg view (obidHtableFindCallback ssize ids s).1 ∧
      Pushed s (obidHtableFindCallback ssize ids s).1 ∧
      ∀ j ∈ ids, s.Pends j → j ∉ (obidHtableFindCallback ssize ids s).2 →
        fsSliceIsOverlap ssize (s.slice j).bsKey.slice = false ∨ sliceEnd ssize ≤ s.start j := by
  induction ids generalizing s with
  | nil => exact ⟨sound, .refl s, nofun⟩
  | cons id rest ih =>
      obtain ⟨first, restOrdered⟩ := List.pairwise_cons.mp ordered
      rw [obidHtableFindCallback]
      by_cases behind : sliceEnd ssize ≤ (s.slice id).bsKey.slice.offset
      · rw [if_pos behind]
        refine ⟨sound, .refl s, ?_⟩
        intro j member _ _
        cases List.mem_cons.mp member with
        | inl same => exact .inr (same ▸ behind)
        | inr inRest => exact .inr (behind.trans (first j inRest))
      · rw [if_neg behind]
        by_cases conflict : fsSliceIsOverlap ssize (s.slice id).bsKey.slice ∧ (s.stage id).Pending
        · rw [if_pos conflict]
          have pushed := sound.pushIf id
          have sameSlice := pushed.2.slice
          have walked := ih pushed.1 (by simpa only [start, sameSlice] using restOrdered)
          refine ⟨walked.1, pushed.2.trans walked.2.1, ?_⟩
          intro j member pendsJ notListed
          rw [List.mem_cons, not_or] at notListed
          have inRest := (List.mem_cons.mp member).resolve_left notListed.1
          have apart := walked.2.2 j inRest ((pushed.2.pends j).mpr pendsJ) notListed.2
          rw [start, sameSlice] at apart
          exact apart
        · rw [if_neg conflict]
          have walked := ih sound restOrdered
          refine ⟨walked.1, walked.2.1, ?_⟩
          intro j member pendsJ notListed
          cases List.mem_cons.mp member with
          | inl same =>
              subst same
              exact .inl (Bool.eq_false_iff.mpr fun overlap => conflict ⟨overlap, pendsJ⟩)
          | inr inRest => exact walked.2.2 j inRest pendsJ notListed

/-- The call waits for every pending slice that shares a byte with its range. -/
theorem checkConflict_spec (sound : Sound cfg view s) :
    Sound cfg view (s.checkConflict call).1 ∧ Pushed s (s.checkConflict call).1 ∧
      ∀ j, s.Pends j → j ∉ (s.checkConflict call).2 → Apart call.bsKey (s.slice j).bsKey := by
  have walked : Sound cfg view (s.checkConflict call).1 ∧ Pushed s (s.checkConflict call).1 ∧
      ∀ j ∈ s.slices call.bsKey.block, s.Pends j → j ∉ (s.checkConflict call).2 →
        fsSliceIsOverlap call.bsKey.slice (s.slice j).bsKey.slice = false ∨
          sliceEnd call.bsKey.slice ≤ s.start j :=
    obidHtableFindCallback_spec sound (sound.sorted call.bsKey.block)
  refine ⟨walked.1, walked.2.1, ?_⟩
  intro j pendsJ notListed q covered other
  have sameBlock : (s.slice j).bsKey.block = call.bsKey.block := other.1.symm.trans covered.1
  have apart := walked.2.2 j ((sound.listed j _).mpr ⟨pendsJ, sameBlock⟩) pendsJ notListed
  exact not_covers_of_apart apart covered other

/-! ## Calls at the server -/

/-- Neither the call in progress nor the log matters to the pending slices. -/
theorem Sound.withCall (sound : Sound cfg view s) (point : CallPoint) (log : List Finished) :
    Sound cfg view { s with call := point, log := log } :=
  ⟨sound.listed, sound.nodup, sound.sorted, sound.fits, sound.apart, sound.fresh, sound.busy,
    sound.busyNodup, sound.stored, sound.entries, sound.shows⟩

/-- A call with nothing in its way leaves every byte of a pending slice alone. -/
theorem Sound.untouched (sound : Sound cfg view s) (valid : call.Valid)
    (clear : s.Clear call.bsKey) (pends : s.Pends id) (q : BlockByte) :
    s.patch id q = none ∨ ∀ cells : Cells, call.apply cells q = cells q := by
  by_cases covered : Covers (s.slice id).bsKey q
  · have fits := sound.fits id pends
    have inside : 0 ≤ q.2 ∧ q.2 < fsFileBlockSize :=
      ⟨fits.offset.trans covered.2.1, covered.2.2.trans_le fits.block⟩
    exact .inr (call.apply_outside valid inside fun inCall => clear id pends q inCall covered)
  · exact .inl (writtenTo_eq_none_iff.mpr covered)

/-- The low-level client carries out the call on the server, and the view moves by
the call. -/
theorem Sound.serverCall (sound : Sound cfg view s) (valid : call.Valid)
    (clear : s.Clear call.bsKey) : Sound cfg (call.apply view) (s.serverCall call) := by
  refine ⟨sound.listed, sound.nodup, sound.sorted, sound.fits, sound.apart, sound.fresh,
    sound.busy, sound.busyNodup, ?_, sound.entries, ?_⟩
  · intro j point runs notWriting
    have kept : Stored (s.patch j) (call.apply s.server) :=
      (sound.stored j point runs notWriting).change
        (sound.untouched valid clear (sound.pends_of_busy (mem_busy_of_running runs)))
    exact kept
  · refine sound.shows.change call.pointwise_apply ?_
    intro j q pendsJ
    exact sound.untouched valid clear pendsJ q

/-- Where no pending slice is in the way, the server answers from the view. -/
theorem Sound.answer_eq (sound : Sound cfg view s) (clear : s.Clear call.bsKey) :
    call.answer s.server = call.answer view := by
  rw [ApiCall.answer, ApiCall.answer]
  cases call.op with
  | write buff => rfl
  | allocate => rfl
  | delete => rfl
  | blockDelete => rfl
  | read =>
      dsimp only
      rw [fsClientSliceRead, fsClientSliceRead]
      refine List.map_congr_left ?_
      intro i inRange
      have below := List.mem_range.mp inRange
      symm
      apply sound.shows.bare
      intro j pendsJ
      apply patch_none (clear j pendsJ)
      refine ⟨rfl, ?_, ?_⟩
      · dsimp only
        omega
      · dsimp only [sliceEnd]
        omega

/-! ## The client -/

/-- What the call in progress knows behind its wait: only the slices it waits for
share a byte with its range. -/
def WaitsSound (s : CombineState) : Prop :=
  match s.call with
  | .idle => True
  | .conflictWait call waitings =>
      call.Valid ∧ ∀ id, s.Pends id → id ∉ waitings → Apart call.bsKey (s.slice id).bsKey
  | .flowWait call _ _ => call.Valid ∧ s.Clear call.bsKey

/-- Without write combining nothing is ever pending. -/
def Off (s : CombineState) : Prop := (∀ id, ¬s.Pends id) ∧ s.call.Idle

/-- The client shows the content of a client without combining, and has returned
what that client would have returned. -/
structure Kept (cfg : WriteCombineConfig) (origin : Cells) (s : CombineState) : Prop where
  sound : Sound cfg (plainContent origin s.log) s
  answers : PlainAnswers origin s.log
  waits : s.WaitsSound
  off : cfg.enabled = false → s.Off

variable {origin : Cells}

theorem not_pends_initial (origin : Cells) (id : Nat) : ¬(initial origin).Pends id := by
  simp [Pends, initial, CombineStage.Pending]

theorem kept_initial (cfg : WriteCombineConfig) (origin : Cells) :
    Kept cfg origin (initial origin) where
  sound := by
    have settled := not_pends_initial origin
    have shows : Overlay (initial origin).Pends (initial origin).patch origin origin :=
      .refl settled
    exact ⟨fun id bkey => ⟨nofun, fun both => absurd both.1 (settled id)⟩,
      fun _ => List.nodup_nil, fun _ => .nil, fun id pends => absurd pends (settled id),
      fun a _ pends _ _ => absurd pends (settled a), fun _ _ => rfl, nofun, List.nodup_nil,
      nofun, nofun, shows⟩
  answers := trivial
  waits := trivial
  off := fun _ => ⟨not_pends_initial origin, trivial⟩

/-- A call returns from the server. -/
theorem kept_serverCall (sound : Sound cfg (plainContent origin s.log) s)
    (answers : PlainAnswers origin s.log) (valid : call.Valid) (clear : s.Clear call.bsKey)
    (off : cfg.enabled = false → ∀ id, ¬s.Pends id) : Kept cfg origin (s.serverCall call) where
  sound := sound.serverCall valid clear
  answers := ⟨sound.answer_eq clear, answers⟩
  waits := trivial
  off := fun disabled => ⟨off disabled, trivial⟩

theorem doCombineSlice_log (cfg : WriteCombineConfig) (id : Nat) (call : ApiCall)
    (buff : Int → UInt8) (s : CombineState) : (doCombineSlice cfg id call buff s).1.log = s.log := by
  rw [doCombineSlice]
  split
  · rfl
  · dsimp only
    split <;> rfl

theorem createSlice_log (cfg : WriteCombineConfig) (call : ApiCall) (buff : Int → UInt8)
    (oldSlice : Option Nat) (s : CombineState) :
    (createSlice cfg call buff oldSlice s).1.log = s.log := by
  rw [createSlice]
  split
  · rfl
  · split
    · rfl
    · cases obidHtableFindPosition s.slice call.bsKey.slice (s.slices call.bsKey.block) with
      | none => rfl
      | some position =>
          dsimp only
          rw [obidHtableInsertCallback]
          split <;> rfl

theorem tryCombineSlice_log (cfg : WriteCombineConfig) (id : Nat) (call : ApiCall)
    (buff : Int → UInt8) (s : CombineState) :
    (tryCombineSlice cfg id call buff s).1.log = s.log := by
  rw [tryCombineSlice]
  dsimp only
  split
  · rfl
  · split
    · split
      · split
        · rfl
        · exact doCombineSlice_log cfg id call buff s
      · rfl
    · dsimp only
      split <;> rfl

theorem checkCombineSlice_log (cfg : WriteCombineConfig) (call : ApiCall) (buff : Int → UInt8)
    (s : CombineState) : (checkCombineSlice cfg call buff s).1.log = s.log := by
  rw [checkCombineSlice]
  cases s.otidSlice call.otidKey with
  | none =>
      dsimp only
      split
      · exact createSlice_log cfg call buff none s
      · rfl
  | some id =>
      have tried := tryCombineSlice_log cfg id call buff s
      dsimp only
      cases outcome : tryCombineSlice cfg id call buff s with
      | mk after result =>
          rw [outcome] at tried
          cases result with
          | settled result => exact tried
          | newSlice combined =>
              cases combined with
              | true => exact (createSlice_log cfg call buff (some id) after).trans tried
              | false => exact tried

/-- A round of the combine loop; it runs only with write combining on. -/
theorem kept_checkCombineRound (sound : Sound cfg (plainContent origin s.log) s)
    (answers : PlainAnswers origin s.log) (valid : call.Valid) (clear : s.Clear call.bsKey)
    (isWrite : call.op = .write buff) (enabled : cfg.enabled = true) (count : Nat) :
    Kept cfg origin (s.checkCombineRound cfg call buff count) := by
  have off : cfg.enabled = false → ∀ {p : Prop}, p :=
    fun disabled => absurd (enabled.symm.trans disabled) nofun
  have checked : ResultSound cfg (plainContent origin s.log) call buff
      (checkCombineSlice cfg call buff s).1 (checkCombineSlice cfg call buff s).2 :=
    checkCombineSlice_spec sound valid clear
  have log := checkCombineSlice_log cfg call buff s
  rw [checkCombineRound]
  cases outcome : checkCombineSlice cfg call buff s with
  | mk after result =>
      rw [outcome] at checked log
      dsimp only at checked log
      rw [← log] at checked answers
      cases result with
      | notCombined =>
          exact kept_serverCall checked.1 answers valid checked.2 fun disabled => off disabled
      | combined =>
          have written : call.apply (plainContent origin after.log) =
              fsClientSliceWrite call.bsKey buff (plainContent origin after.log) := by
            rw [ApiCall.apply, isWrite]
          have returned : call.answer (plainContent origin after.log) = [] := by
            rw [ApiCall.answer, isWrite]
          refine ⟨?_, ⟨returned.symm, answers⟩, trivial, fun disabled => off disabled⟩
          have moved : Sound cfg (call.apply (plainContent origin after.log)) after :=
            written ▸ checked
          exact moved.withCall .idle (⟨call, []⟩ :: after.log)
      | waiting id =>
          exact ⟨checked.1.withCall (.flowWait call count (some id)) after.log, answers,
            ⟨valid, checked.2⟩, fun disabled => off disabled⟩

theorem kept_otidHtableInsert (sound : Sound cfg (plainContent origin s.log) s)
    (answers : PlainAnswers origin s.log) (valid : call.Valid) (clear : s.Clear call.bsKey)
    (isWrite : call.op = .write buff) (enabled : cfg.enabled = true) :
    Kept cfg origin (s.wcombineOtidHtableInsert cfg call buff) := by
  have kept : Sound cfg (plainContent origin s.log)
      { s with
        otids := Function.update s.otids call.otidKey
          (some (otidHtableInsertCallback call (s.otids call.otidKey))) } := by
    refine sound.withOtids ?_
    intro key id found
    cases otidSlice_update found with
    | inl new =>
        obtain ⟨same, newEntry⟩ := new
        cases old : s.otids call.otidKey with
        | none =>
            rw [old] at newEntry
            exact absurd newEntry nofun
        | some entry =>
            rw [old] at newEntry
            apply sound.entries key id
            rw [otidSlice, same, old]
            exact newEntry
    | inr unchanged => exact sound.entries key id unchanged.2
  rw [wcombineOtidHtableInsert]
  split
  · refine kept_checkCombineRound ?_ ?_ valid ?_ isWrite enabled 0
    · exact kept
    · exact answers
    · exact clear
  · refine kept_serverCall ?_ ?_ valid ?_ fun disabled => ?_
    · exact kept
    · exact answers
    · exact clear
    · exact absurd (enabled.symm.trans disabled) nofun

/-- A call is made. -/
theorem Kept.start (kept : Kept cfg origin s) (valid : call.Valid) :
    Kept cfg origin (s.fsApiCall cfg call) := by
  rw [fsApiCall]
  by_cases enabled : cfg.enabled = true
  · rw [if_pos enabled]
    have found : Sound cfg (plainContent origin s.log) (s.checkConflict call).1 ∧
        Pushed s (s.checkConflict call).1 ∧ ∀ j, s.Pends j → j ∉ (s.checkConflict call).2 →
          Apart call.bsKey (s.slice j).bsKey := checkConflict_spec kept.sound
    have off : cfg.enabled = false → ∀ {p : Prop}, p :=
      fun disabled => absurd (enabled.symm.trans disabled) nofun
    have answers := kept.answers
    cases outcome : s.checkConflict call with
    | mk checked waitings =>
        rw [outcome] at found
        obtain ⟨sound, pushed, apart⟩ := found
        rw [← pushed.log] at sound answers
        have inWay : ∀ id, checked.Pends id → id ∉ waitings →
            Apart call.bsKey (checked.slice id).bsKey := by
          intro id pends
          rw [pushed.slice]
          exact apart id ((pushed.pends id).mp pends)
        cases waitings with
        | nil =>
            have clear : checked.Clear call.bsKey := fun id pends => inWay id pends nofun
            dsimp only
            rw [afterCheck]
            cases kind : call.op with
            | write buff => exact kept_otidHtableInsert sound answers valid clear kind enabled
            | read | allocate | delete | blockDelete =>
                exact kept_serverCall sound answers valid clear fun disabled => off disabled
        | cons id rest =>
            exact ⟨sound.withCall (.conflictWait call (id :: rest)) checked.log, answers,
              ⟨valid, inWay⟩, fun disabled => off disabled⟩
  · have quiet := kept.off (Bool.eq_false_iff.mpr enabled)
    rw [if_neg enabled]
    exact kept_serverCall kept.sound kept.answers valid
      (fun id pends => absurd pends (quiet.1 id)) fun _ => quiet.1

/-- The call in progress goes on. -/
theorem Kept.resume (kept : Kept cfg origin s) (notified : s.call.Notified) :
    Kept cfg origin (s.resume cfg) := by
  have waits := kept.waits
  have enabled : cfg.enabled = true := by
    by_contra disabled
    have idle := (kept.off (Bool.eq_false_iff.mpr disabled)).2
    cases point : s.call with
    | idle => exact (point ▸ notified : CallPoint.idle.Notified)
    | conflictWait call waitings => exact (point ▸ idle : (CallPoint.conflictWait call waitings).Idle)
    | flowWait call count waiting => exact (point ▸ idle : (CallPoint.flowWait call count waiting).Idle)
  have off : cfg.enabled = false → ∀ id, ¬s.Pends id :=
    fun disabled => absurd (enabled.symm.trans disabled) nofun
  rw [WaitsSound] at waits
  rw [CombineState.resume]
  cases point : s.call with
  | idle => exact kept
  | conflictWait call waitings =>
      rw [point] at waits notified
      refine kept_serverCall kept.sound kept.answers waits.1 ?_ off
      intro id pends
      apply waits.2 id pends
      rw [show waitings = [] from notified]
      exact nofun
  | flowWait call count waiting =>
      rw [point] at waits
      dsimp only
      cases kind : call.op with
      | write buff =>
          dsimp only
          split
          · exact kept_checkCombineRound kept.sound kept.answers waits.1 waits.2 kind enabled _
          · exact kept_serverCall kept.sound kept.answers waits.1 waits.2 off
      | read | allocate | delete | blockDelete =>
          exact kept_serverCall kept.sound kept.answers waits.1 waits.2 off

/-! ## The timer and the combine handler -/

/-- What a call waits for does not change as long as no slice becomes pending or
grows. -/
theorem WaitsSound.mono {s' : CombineState} (waits : s.WaitsSound) (call : s'.call = s.call)
    (slice : s'.slice = s.slice) (pends : ∀ id, s'.Pends id → s.Pends id) : s'.WaitsSound := by
  rw [WaitsSound] at waits ⊢
  rw [call]
  cases point : s.call with
  | idle => trivial
  | conflictWait call waitings =>
      rw [point] at waits
      refine ⟨waits.1, ?_⟩
      intro id pendsId
      rw [slice]
      exact waits.2 id (pends id pendsId)
  | flowWait call count waiting =>
      rw [point] at waits
      refine ⟨waits.1, ?_⟩
      intro id pendsId
      rw [slice]
      exact waits.2 id (pends id pendsId)

theorem Kept.expire (kept : Kept cfg origin s) (id : Nat) :
    Kept cfg origin (s.combineHandlerPush id) := by
  obtain ⟨sound, pushed⟩ := kept.sound.pushIf id
  rw [combineHandlerPush]
  refine ⟨?_, ?_, kept.waits.mono pushed.call pushed.slice fun j => (pushed.pends j).mp, ?_⟩
  · rw [pushed.log]
    exact sound
  · rw [pushed.log]
    exact kept.answers
  · intro disabled
    rw [Off, pushed.call]
    exact ⟨fun j pends => (kept.off disabled).1 j ((pushed.pends j).mp pends),
      (kept.off disabled).2⟩

theorem Kept.deal (kept : Kept cfg origin s) : Kept cfg origin s.dealSlices := by
  have sound := kept.sound
  have sameBusy : s.dealSlices.busy.Perm s.busy := by
    rw [busy, busy, dealSlices]
    cases s.queue with
    | nil => simp
    | cons id rest =>
        simp only [List.tail_cons, List.head?_cons, Option.map_some, Option.toList_some,
          List.map_append, List.map_cons, List.map_nil, List.cons_append]
        rw [← List.append_assoc]
        exact List.perm_append_singleton id _
  have runsOld : ∀ {id point}, (id, point) ∈ s.dealSlices.running → point ≠ .writing →
      (id, point) ∈ s.running := by
    intro id point runs notWriting
    cases List.mem_append.mp runs with
    | inl old => exact old
    | inr new =>
        obtain ⟨j, _, same⟩ := Option.map_eq_some_iff.mp (Option.mem_toList.mp new)
        exact absurd (Prod.mk.inj same).2.symm notWriting
  refine ⟨⟨sound.listed, sound.nodup, sound.sorted, sound.fits, sound.apart, sound.fresh, ?_,
    sameBusy.nodup_iff.mpr sound.busyNodup, ?_, ?_, sound.shows⟩, kept.answers, kept.waits,
    kept.off⟩
  · intro id isBusy
    exact sound.busy id (sameBusy.subset isBusy)
  · intro id point runs notWriting
    exact sound.stored id point (runsOld runs notWriting) notWriting
  · intro key id found
    have entry := sound.entries key id found
    exact ⟨entry.1, entry.2.1, fun runs => entry.2.2 (runsOld runs (by decide))⟩

/-- A slice gets on, the others stay where they are. -/
theorem mem_setRunPoint {point other : RunPoint} {j : Nat} :
    (j, other) ∈ s.setRunPoint id point ↔
      (j ≠ id ∧ (j, other) ∈ s.running) ∨ (j = id ∧ other = point ∧ id ∈ s.running.map (·.1)) := by
  simp only [setRunPoint, List.mem_map]
  constructor
  · rintro ⟨run, member, placed⟩
    by_cases same : run.1 = id
    · rw [if_pos same] at placed
      obtain ⟨rfl, rfl⟩ := Prod.mk.inj placed
      exact .inr ⟨rfl, rfl, run, member, same⟩
    · rw [if_neg same] at placed
      subst placed
      exact .inl ⟨same, member⟩
  · rintro (⟨unlike, member⟩ | ⟨same, isPoint, run, member, runId⟩)
    · exact ⟨(j, other), member, if_neg unlike⟩
    · exact ⟨run, member, by rw [if_pos runId, same, isPoint]⟩

theorem setRunPoint_ids (s : CombineState) (id : Nat) (point : RunPoint) :
    (s.setRunPoint id point).map (·.1) = s.running.map (·.1) := by
  rw [setRunPoint, List.map_map]
  refine List.map_congr_left ?_
  intro run _
  simp only [Function.comp]
  split
  · rename_i same
    exact same.symm
  · rfl

theorem Kept.run (kept : Kept cfg origin s) (runs : (id, .writing) ∈ s.running) :
    Kept cfg origin (s.combineHandlerRun id) := by
  have sound := kept.sound
  have pends := sound.pends_of_busy (mem_busy_of_running runs)
  have sameBusy : (s.combineHandlerRun id).busy = s.busy :=
    congrArg (s.queue ++ ·) (setRunPoint_ids s id .written)
  refine ⟨⟨sound.listed, sound.nodup, sound.sorted, sound.fits, sound.apart, sound.fresh, ?_,
    ?_, ?_, ?_, sound.shows.flush pends⟩, kept.answers, kept.waits, kept.off⟩
  · rw [sameBusy]
    exact sound.busy
  · rw [sameBusy]
    exact sound.busyNodup
  · intro j point placed notWriting
    cases mem_setRunPoint.mp placed with
    | inl other =>
        have pendsJ := sound.pends_of_busy (mem_busy_of_running other.2)
        have stored := sound.stored j point other.2 notWriting
        have kept : Stored (s.patch j) (overwrite (s.patch id) s.server) :=
          stored.overwrite fun q =>
            (patch_none_or (sound.apart id j pends pendsJ other.1.symm) _ q)
        exact kept
    | inr own =>
        have kept : Stored (s.patch id) (overwrite (s.patch id) s.server) :=
          Stored.overwrite_self _ _
        exact own.1 ▸ kept
  · intro key j found
    have entry := sound.entries key j found
    refine ⟨entry.1, entry.2.1, fun placed => ?_⟩
    cases mem_setRunPoint.mp placed with
    | inl other => exact entry.2.2 other.2
    | inr own => exact absurd own.2.1 nofun

theorem Kept.releaseOtid (kept : Kept cfg origin s) (runs : (id, .written) ∈ s.running) :
    Kept cfg origin (s.releaseOtid id) := by
  have sound := kept.sound
  have sameBusy : (s.releaseOtid id).busy = s.busy :=
    congrArg (s.queue ++ ·) (setRunPoint_ids s id .detached)
  refine ⟨⟨sound.listed, sound.nodup, sound.sorted, sound.fits, sound.apart, sound.fresh, ?_,
    ?_, ?_, ?_, sound.shows⟩, kept.answers, kept.waits, kept.off⟩
  · rw [sameBusy]
    exact sound.busy
  · rw [sameBusy]
    exact sound.busyNodup
  · intro j point placed notWriting
    cases mem_setRunPoint.mp placed with
    | inl other => exact sound.stored j point other.2 notWriting
    | inr own => exact own.1 ▸ sound.stored id .written runs (by decide)
  · intro key j found
    have old : s.otidSlice key = some j ∧ j ≠ id := by
      rw [otidSlice, CombineState.releaseOtid] at found
      by_cases points : s.otidSlice (s.slice id).otid = some id
      · simp only [if_pos points] at found
        cases otidSlice_update found with
        | inl new =>
            cases old : s.otids (s.slice id).otid with
            | none =>
                rw [old] at new
                exact absurd new.2 nofun
            | some entry =>
                rw [old] at new
                exact absurd new.2 nofun
        | inr unchanged =>
            refine ⟨unchanged.2, fun same => unchanged.1 ?_⟩
            subst same
            exact (sound.entries key j unchanged.2).1.symm
      · simp only [if_neg points] at found
        refine ⟨found, fun same => points ?_⟩
        subst same
        rw [(sound.entries key j found).1]
        exact found
    have entry := sound.entries key j old.1
    refine ⟨entry.1, entry.2.1, fun placed => ?_⟩
    cases mem_setRunPoint.mp placed with
    | inl other => exact entry.2.2 other.2
    | inr own => exact old.2 own.1

theorem Kept.releaseSlice (kept : Kept cfg origin s) (runs : (id, .detached) ∈ s.running) :
    Kept cfg origin (s.releaseSlice id) := by
  have sound := kept.sound
  have isBusy := mem_busy_of_running runs
  have pendsId := sound.pends_of_busy isBusy
  have pends : ∀ j, (s.releaseSlice id).Pends j ↔ s.Pends j ∧ j ≠ id := by
    intro j
    by_cases same : j = id
    · simp [Pends, CombineState.releaseSlice, same, CombineStage.Pending]
    · simp [Pends, CombineState.releaseSlice, same]
  have fewer : (s.releaseSlice id).busy.Sublist s.busy :=
    (List.Sublist.refl _).append (List.filter_sublist.map _)
  have released : id ∉ (s.releaseSlice id).busy := by
    intro member
    cases List.mem_append.mp member with
    | inl inQueue =>
        have apart := (List.nodup_append.mp sound.busyNodup).2.2
        exact apart id inQueue id (List.mem_map_of_mem runs) rfl
    | inr inRunning =>
        obtain ⟨run, left, same⟩ := List.mem_map.mp inRunning
        exact absurd same (by simpa using (List.mem_filter.mp left).2)
  refine ⟨⟨?_, ?_, ?_, ?_, ?_, ?_, ?_, sound.busyNodup.sublist fewer, ?_, ?_, ?_⟩, kept.answers,
    ?_, ?_⟩
  · intro j bkey
    have old := sound.listed j bkey
    rw [pends j]
    by_cases sameBlock : bkey = (s.slice id).bsKey.block
    · subst sameBlock
      simp only [CombineState.releaseSlice, Function.update_self, List.mem_filter, old,
        decide_not, Bool.not_eq_eq_eq_not, Bool.not_true, decide_eq_false_iff_not]
      exact and_right_comm
    · have notId : (s.slice j).bsKey.block = bkey → j ≠ id := by
        intro block same
        exact sameBlock (same ▸ block.symm)
      simp only [CombineState.releaseSlice, Function.update_of_ne sameBlock, old]
      exact ⟨fun both => ⟨⟨both.1, notId both.2⟩, both.2⟩, fun both => ⟨both.1.1, both.2⟩⟩
  · intro bkey
    rw [CombineState.releaseSlice]
    by_cases sameBlock : bkey = (s.slice id).bsKey.block
    · subst sameBlock
      simp only [Function.update_self]
      exact (sound.nodup _).filter _
    · simp only [Function.update_of_ne sameBlock]
      exact sound.nodup bkey
  · intro bkey
    rw [CombineState.releaseSlice]
    by_cases sameBlock : bkey = (s.slice id).bsKey.block
    · subst sameBlock
      simp only [Function.update_self]
      exact (sound.sorted _).filter _
    · simp only [Function.update_of_ne sameBlock]
      exact sound.sorted bkey
  · intro j pendsJ
    exact sound.fits j ((pends j).mp pendsJ).1
  · intro a b pendsA pendsB
    exact sound.apart a b ((pends a).mp pendsA).1 ((pends b).mp pendsB).1
  · intro j above
    have unlike : j ≠ id := by
      intro same
      exact absurd (sound.id_lt pendsId) (not_lt.mpr (same ▸ above))
    exact (Function.update_of_ne unlike _ _).trans (sound.fresh j above)
  · intro j busyJ
    have unlike : j ≠ id := fun same => released (same ▸ busyJ)
    exact (Function.update_of_ne unlike _ _).trans (sound.busy j (fewer.subset busyJ))
  · intro j point left notWriting
    exact sound.stored j point (List.mem_filter.mp left).1 notWriting
  · intro key j found
    have entry := sound.entries key j found
    have unlike : j ≠ id := fun same => entry.2.2 (same ▸ runs)
    exact ⟨entry.1, (pends j).mpr ⟨entry.2.1, unlike⟩,
      fun left => entry.2.2 (List.mem_filter.mp left).1⟩
  · exact sound.shows.drop pendsId (sound.stored id .detached runs (by decide)) pends
  · have waits := kept.waits
    rw [WaitsSound] at waits ⊢
    rw [CombineState.releaseSlice]
    cases point : s.call with
    | idle => trivial
    | conflictWait call waitings =>
        rw [point] at waits
        refine ⟨waits.1, ?_⟩
        intro j pendsJ notLeft
        have both := (pends j).mp pendsJ
        refine waits.2 j both.1 fun waited => notLeft (List.mem_filter.mpr ⟨waited, ?_⟩)
        exact decide_eq_true both.2
    | flowWait call count waiting =>
        rw [point] at waits
        exact ⟨waits.1, fun j pendsJ => waits.2 j ((pends j).mp pendsJ).1⟩
  · intro disabled
    exact absurd pendsId ((kept.off disabled).1 id)

theorem Kept.reclaim (kept : Kept cfg origin s) (key : OTIDKey) :
    Kept cfg origin (s.reclaimOtid key) := by
  refine ⟨kept.sound.withOtids ?_, kept.answers, kept.waits, kept.off⟩
  intro other id found
  cases otidSlice_update found with
  | inl new => exact absurd new.2 nofun
  | inr unchanged => exact kept.sound.entries other id unchanged.2

theorem Kept.act (kept : Kept cfg origin s) {action : CombineAction} (possible : s.Enabled action) :
    Kept cfg origin (s.act cfg action) := by
  cases action with
  | start call => exact kept.start possible.2
  | resume => exact kept.resume possible
  | expire id => exact kept.expire id
  | deal => exact kept.deal
  | run id => exact kept.run possible
  | releaseOtid id => exact kept.releaseOtid possible
  | releaseSlice id => exact kept.releaseSlice possible
  | reclaim key => exact kept.reclaim key

theorem kept_of_reachable (cfg : WriteCombineConfig) (origin : Cells) {s : CombineState}
    (reached : Reachable (step cfg) (fun s => s = initial origin) s) : Kept cfg origin s := by
  refine reached.invariant (fun s isInitial => isInitial ▸ kept_initial cfg origin) ?_
  intro before action after kept taken
  exact taken.2 ▸ kept.act taken.1

/-- The byte is in exactly one pending slice of its block with this value, or in none
and the server has the value. -/
def Holds (s : CombineState) (q : BlockByte) (cell : Cell) : Prop :=
  (∃ id ∈ s.slices q.1, s.patch id q = some cell ∧
    ∀ other ∈ s.slices q.1, Covers (s.slice other).bsKey q → other = id) ∨
  ((∀ id ∈ s.slices q.1, ¬Covers (s.slice id).bsKey q) ∧ s.server q = cell)

theorem Sound.holds (sound : Sound cfg view s) (q : BlockByte) : s.Holds q (view q) := by
  by_cases pending : ∃ id ∈ s.slices q.1, Covers (s.slice id).bsKey q
  · obtain ⟨id, member, covered⟩ := pending
    have pends := ((sound.listed id _).mp member).1
    have value : s.patch id q = some (.byte _) := writtenTo_of_covers covered _
    refine .inl ⟨id, member, ?_, ?_⟩
    · rw [value, sound.shows.covered pends value]
    · intro other otherMember otherCovered
      by_contra different
      have pendsOther := ((sound.listed other _).mp otherMember).1
      exact sound.apart other id pendsOther pends different q otherCovered covered
  · have none : ∀ id ∈ s.slices q.1, ¬Covers (s.slice id).bsKey q :=
      fun id member covered => pending ⟨id, member, covered⟩
    refine .inr ⟨none, (sound.shows.bare ?_).symm⟩
    intro id pends
    apply writtenTo_eq_none_iff.mpr
    intro covered
    exact none id ((sound.listed id _).mpr ⟨pends, covered.1.symm⟩) covered

/-- What a user of the client and of the server can rely on. -/
structure Transparent (cfg : WriteCombineConfig) (origin : Cells) (s : CombineState) : Prop where
  ordered : ∀ bkey, (s.slices bkey).Pairwise fun a b =>
    s.start a ≤ s.start b ∧ Apart (s.slice a).bsKey (s.slice b).bsKey
  fitting : ∀ bkey, ∀ id ∈ s.slices bkey,
    (s.slice id).bsKey.block = bkey ∧ Fits cfg (s.slice id).bsKey.slice
  held : ∀ q, s.Holds q (plainContent origin s.log q)
  answers : PlainAnswers origin s.log
  settled : (∀ bkey, s.slices bkey = []) → s.server = plainContent origin s.log

/-- A small configuration. -/
def combineConfig : WriteCombineConfig := ⟨true, 65536, 65536, 1⟩

/-- A thread writes twice in a row, the second write is combined; a write of another
thread into it waits until the slice is on the server. -/
def combineActions : List CombineAction :=
  let range (offset length : Int) : FSBlockSliceKeyInfo := ⟨⟨1, 0⟩, ⟨offset, length⟩⟩
  [.start ⟨1, range 0 100, .write fun _ => 1⟩,
    .start ⟨1, range 100 100, .write fun _ => 2⟩,
    .start ⟨2, range 150 10, .write fun _ => 3⟩,
    .deal, .run 0, .releaseOtid 0, .releaseSlice 0, .resume,
    .start ⟨2, range 0 200, .read⟩]

end CombineState

end FastStore.Api
