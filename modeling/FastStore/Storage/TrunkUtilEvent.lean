import FastStore.Storage.TrunkAllocator
import FastStore.Util.System

/-!
# Utilisation events of a trunk

The event of a trunk, its status and its place in the event queue are changed by three kinds
of threads without a common lock: slice deletes, the client that takes the trunk out of its
freelist, and the trunk maker of the path, who alone handles events and reclaims.  Each step
below is one load, one compare and swap, or one queue operation of the source.
-/

namespace FastStore.Storage

open FastStore.Util

/-- How far `trunk_freelist_remove` is. -/
inductive RemovePoint where
  | idle
  /-- The head has been taken off the freelist. -/
  | popped
  /-- The status is `REPUSH`; the event is to be loaded. -/
  | repush
  /-- The event has been loaded and is to be swapped. -/
  | loaded (oldEvent : FSTrunkUtilEvent)
  /-- There was no event, so the trunk is to be pushed. -/
  | push
  /-- The event is `CREATE`; the status is to become `NONE`. -/
  | forced
  deriving DecidableEq, Repr

/-- How far the trunk maker is; `left` trunks of the popped batch come after this one. -/
inductive MakerPoint where
  | idle
  /-- `deal_trunk_util_change_event` is to load the event. -/
  | dealing (left : Nat)
  | loaded (left : Nat) (event : FSTrunkUtilEvent)
  | repush (left : Nat)
  | refuse (left : Nat) (event : FSTrunkUtilEvent)
  | accept (left : Nat) (event : FSTrunkUtilEvent)
  | clear (left : Nat) (event : FSTrunkUtilEvent)
  /-- `trunk_reclaim` runs. -/
  | reclaiming
  /-- The trunk is empty, and is to be deleted from `by_size`. -/
  | emptied
  /-- The trunk is to be added to a freelist. -/
  | deleted
  deriving DecidableEq, Repr

/-- One trunk, and the threads that are at it. -/
structure TrunkUtilState where
  event : FSTrunkUtilEvent
  status : FSTrunkStatus
  /-- How often the trunk is in `reclaim.queue`. -/
  queued : Nat
  inFreelist : Bool
  inBySize : Bool
  /-- Slice deletes that have set the event and have still to push the trunk. -/
  pushers : Nat
  remover : RemovePoint
  maker : MakerPoint
  deriving DecidableEq, Repr

inductive TrunkUtilAction where
  /-- The swap of `push_trunk_util_change_event`. -/
  | deleteSlice
  /-- Its push. -/
  | pushSlice
  /-- The next step of `trunk_freelist_remove`. -/
  | remove
  /-- `fc_queue_try_pop_all` of `deal_trunk_util_change_events`. -/
  | popAll
  /-- The next step of the trunk maker. -/
  | deal
  /-- `do_reclaim_trunk` chooses the trunk, which has used bytes or not. -/
  | reclaim (used : Bool)
  /-- `trunk_reclaim` returns. -/
  | reclaimed (ok : Bool)
  deriving DecidableEq, Repr

/-- What the status means for a trunk whose event has been loaded. -/
def MakerPoint.onStatus (left : Nat) (event : FSTrunkUtilEvent) : FSTrunkStatus → MakerPoint
  | .none => .accept left event
  | .repush => .repush left
  | .allocing | .reclaiming => .refuse left event

/-- The next trunk of the popped batch. -/
def MakerPoint.after : Nat → MakerPoint
  | 0 => .idle
  | left + 1 => .dealing left

namespace TrunkUtilState

variable (s : TrunkUtilState)

/-- `push_trunk_util_change_event` for a slice delete, until its push. -/
def deleteSlice : TrunkUtilState :=
  if s.event = .none then
    { s with
      event := .update
      pushers := s.pushers + 1 }
  else s

/-- `trunk_freelist_remove` with `push_trunk_util_event_force`, one step at a time. -/
def removeStep : TrunkUtilState :=
  match s.remover with
  | .idle =>
      { s with
        inFreelist := false
        remover := .popped }
  | .popped =>
      { s with
        status := .repush
        remover := .repush }
  | .repush => { s with remover := if s.event = .create then .forced else .loaded s.event }
  | .loaded oldEvent =>
      if s.event = oldEvent then
        { s with
          event := .create
          remover := if oldEvent = .none then .push else .forced }
      else { s with remover := .repush }
  | .push =>
      { s with
        queued := s.queued + 1
        remover := .forced }
  | .forced =>
      { s with
        status := .none
        remover := .idle }

/-- `deal_trunk_util_change_event` one step at a time, and the end of `do_reclaim_trunk`.  On
`UPDATE` a trunk that is in `by_size` may change its place there, and one that is not stays
out. -/
def makerStep : TrunkUtilState :=
  match s.maker with
  | .idle => s
  | .dealing left => { s with maker := .loaded left s.event }
  | .loaded left event => { s with maker := .onStatus left event s.status }
  | .repush left =>
      { s with
        queued := s.queued + 1
        maker := .after left }
  | .refuse left event =>
      if s.event = event then
        { s with
          event := .none
          maker := .after left }
      else { s with maker := .dealing left }
  | .accept left event =>
      { s with
        inBySize := if event = .create then true else s.inBySize
        maker := .clear left event }
  | .clear left event =>
      { s with
        event := if s.event = event then .none else s.event
        maker := .after left }
  | .reclaiming => s
  | .emptied =>
      { s with
        inBySize := false
        maker := .deleted }
  | .deleted =>
      { s with
        inFreelist := true
        status := .allocing
        maker := .idle }

def Enabled : TrunkUtilAction → Prop
  | .deleteSlice => True
  | .pushSlice => 0 < s.pushers
  | .remove => s.remover = .idle → s.inFreelist = true
  | .popAll => s.maker = .idle
  | .deal => s.maker ≠ .idle ∧ s.maker ≠ .reclaiming
  | .reclaim _ => s.maker = .idle ∧ s.inBySize = true
  | .reclaimed _ => s.maker = .reclaiming

instance (action : TrunkUtilAction) : Decidable (s.Enabled action) := by
  cases action <;> unfold Enabled <;> infer_instance

def next : TrunkUtilAction → TrunkUtilState
  | .deleteSlice => s.deleteSlice
  | .pushSlice =>
      { s with
        queued := s.queued + 1
        pushers := s.pushers - 1 }
  | .remove => s.removeStep
  | .popAll =>
      { s with
        queued := 0
        maker := .after s.queued }
  | .deal => s.makerStep
  | .reclaim used =>
      if used then
        { s with
          status := .reclaiming
          maker := .reclaiming }
      else { s with maker := .emptied }
  | .reclaimed ok =>
      if ok then { s with maker := .emptied }
      else
        { s with
          status := .none
          maker := .idle }

/-- Nobody is in the middle of a call. -/
def Idle : Prop :=
  s.pushers = 0 ∧ s.remover = .idle ∧ s.maker = .idle

instance : Decidable s.Idle :=
  inferInstanceAs (Decidable (_ ∧ _ ∧ _))

/-- An event is in the queue, once, and a trunk that is in no freelist and in no queue is
ordered in by size. -/
def Kept : Prop :=
  s.queued ≤ 1 ∧
    (s.Idle → (s.event ≠ .none → 0 < s.queued) ∧
      (s.inFreelist = false → s.status = .none → s.queued = 0 → s.inBySize = true))

instance : Decidable s.Kept :=
  inferInstanceAs (Decidable (_ ∧ (_ → (_ → _) ∧ (_ → _ → _ → _))))

/-- The trunk maker does not take a trunk as removed for an event that it has loaded before
the trunk was removed. -/
def Current : TrunkUtilAction → Prop
  | .deal =>
      match s.maker with
      | .loaded _ event => s.status = .none → event = s.event
      | _ => True
  | _ => True

instance (action : TrunkUtilAction) : Decidable (s.Current action) := by
  unfold Current
  split
  · split <;> infer_instance
  · infer_instance

end TrunkUtilState

/-- The trunk is in a freelist, or ordered in, or waits to be ordered in. -/
def TrunkUtilInit (s : TrunkUtilState) : Prop :=
  s = ⟨.none, .allocing, 0, true, false, 0, .idle, .idle⟩ ∨
    s = ⟨.none, .none, 0, false, true, 0, .idle, .idle⟩ ∨
    s = ⟨.create, .none, 1, false, false, 0, .idle, .idle⟩

/-- The steps of the slice deletes, of the removal and of the trunk maker. -/
def TrunkUtilStep : StepRel TrunkUtilState TrunkUtilAction :=
  StepRel.ofNext TrunkUtilState.Enabled TrunkUtilState.next

/-- The trunk maker loads `UPDATE`; the trunk is removed and its event becomes `CREATE`; then
the trunk maker finds the trunk removed and handles the `UPDATE`. -/
theorem trunk_event_lost :
    ¬ ∀ s, Reachable TrunkUtilStep TrunkUtilInit s → s.Kept := by
  intro kept
  have start : Reachable TrunkUtilStep TrunkUtilInit
      ⟨.none, .allocing, 0, true, false, 0, .idle, .idle⟩ := .start (Or.inl rfl)
  have lost := start.follow
    [.deleteSlice, .pushSlice, .popAll, .deal, .remove, .remove, .remove, .remove, .remove, .deal,
      .deal, .deal] (by decide)
  exact absurd (kept _ lost) (by decide)

/-! ## What holds when no stale event is handled -/

/-- The push that a removal has still to make. -/
def RemovePoint.pushes : RemovePoint → Nat
  | .push => 1
  | _ => 0

/-- The trunks of the batch that the trunk maker has still to finish. -/
def MakerPoint.holds : MakerPoint → Nat
  | .dealing left | .repush left => left + 1
  | .loaded left _ | .refuse left _ | .accept left _ | .clear left _ => left + 1
  | _ => 0

namespace TrunkUtilState

variable {s : TrunkUtilState}

/-- The queue entries of the trunk, those on their way included. -/
def entries (s : TrunkUtilState) : Nat :=
  s.queued + s.pushers + s.remover.pushes + s.maker.holds

/-- The status and the lists while the trunk is removed. -/
def RemoverFits (s : TrunkUtilState) : Prop :=
  match s.remover with
  | .idle =>
      if s.inFreelist then s.status = .allocing ∧ s.inBySize = false ∧ s.event ≠ .create
      else s.status = .none ∨ s.status = .reclaiming
  | .popped =>
      s.status = .allocing ∧ s.inFreelist = false ∧ s.inBySize = false ∧ s.event ≠ .create
  | .repush | .loaded _ => s.status = .repush ∧ s.inFreelist = false ∧ s.inBySize = false
  | .push | .forced =>
      s.status = .repush ∧ s.inFreelist = false ∧ s.inBySize = false ∧ s.event = .create

/-- What the trunk maker knows of the trunk. -/
def MakerFits (s : TrunkUtilState) : Prop :=
  match s.maker with
  | .idle | .dealing _ | .repush _ => s.status ≠ .reclaiming ∧ (s.event = .create → s.inBySize = false)
  | .loaded _ event =>
      s.status ≠ .reclaiming ∧ (s.event = .create → s.inBySize = false) ∧
        (event = s.event ∨ event = .update ∧ s.event = .create)
  | .refuse _ event =>
      s.status ≠ .reclaiming ∧ (s.event = .create → s.inBySize = false) ∧ event = .update
  | .accept _ event =>
      s.status = .none ∧ event = s.event ∧ (s.event = .create → s.inBySize = false)
  | .clear _ event => s.status = .none ∧ event = s.event ∧ s.inBySize = true
  | .reclaiming => s.status = .reclaiming ∧ s.inBySize = true ∧ s.event ≠ .create
  | .emptied =>
      (s.status = .none ∨ s.status = .reclaiming) ∧ s.inBySize = true ∧ s.event ≠ .create
  | .deleted =>
      (s.status = .none ∨ s.status = .reclaiming) ∧ s.inBySize = false ∧ s.event ≠ .create

/-- The invariant of the runs in which no stale event is handled. -/
structure Sound (s : TrunkUtilState) : Prop where
  entries : s.entries = if s.event = .none then 0 else 1
  remover : s.RemoverFits
  maker : s.MakerFits
  placed : s.status = .none → s.inBySize = true ∨ s.event = .create ∨ s.maker = .deleted

/-- A trunk without an event is not in the hands of the trunk maker. -/
theorem Sound.holds_eq_zero (sound : s.Sound) (none : s.event = .none) :
    s.queued = 0 ∧ s.pushers = 0 ∧ s.remover.pushes = 0 ∧ s.maker.holds = 0 := by
  have entries := sound.entries
  rw [if_pos none] at entries
  unfold TrunkUtilState.entries at entries
  omega

/-- While the trunk is removed the trunk maker only sees its event become `CREATE`. -/
theorem Sound.makerFits_of_removal (sound : s.Sound) {after : TrunkUtilState}
    (was : s.status = .allocing ∨ s.status = .repush) (maker : after.maker = s.maker)
    (status : after.status = .allocing ∨ after.status = .repush) (outside : after.inBySize = false)
    (event : after.event = s.event ∨ after.event = .create) : after.MakerFits := by
  have fits := sound.maker
  have held := sound.holds_eq_zero
  have apart : after.status ≠ .reclaiming := by
    rintro same
    rcases status with other | other <;> exact absurd (same.symm.trans other) nofun
  unfold MakerFits at fits ⊢
  rw [maker]
  cases point : s.maker with
  | idle => exact ⟨apart, fun _ => outside⟩
  | dealing left => exact ⟨apart, fun _ => outside⟩
  | repush left => exact ⟨apart, fun _ => outside⟩
  | refuse left loaded =>
      rw [point] at fits
      exact ⟨apart, fun _ => outside, fits.2.2⟩
  | loaded left loaded =>
      rw [point] at fits held
      refine ⟨apart, fun _ => outside, ?_⟩
      have some : s.event ≠ .none := fun none => absurd (held none).2.2.2 (Nat.succ_ne_zero left)
      rcases event with same | created
      · rw [same]
        exact fits.2.2
      · rw [created]
        rcases fits.2.2 with current | stale
        · rw [current]
          cases was : s.event with
          | none => exact absurd was some
          | create => exact Or.inl rfl
          | update => exact Or.inr ⟨rfl, rfl⟩
        · exact Or.inr ⟨stale.1, rfl⟩
  | accept left loaded =>
      rw [point] at fits
      rcases was with other | other <;> exact absurd (fits.1.symm.trans other) nofun
  | clear left loaded =>
      rw [point] at fits
      rcases was with other | other <;> exact absurd (fits.1.symm.trans other) nofun
  | reclaiming =>
      rw [point] at fits
      rcases was with other | other <;> exact absurd (fits.1.symm.trans other) nofun
  | emptied =>
      rw [point] at fits
      rcases was with other | other <;> rw [other] at fits <;> exact absurd fits.1 (by decide)
  | deleted =>
      rw [point] at fits
      rcases was with other | other <;> rw [other] at fits <;> exact absurd fits.1 (by decide)

/-- A trunk that is in no freelist and is not being removed. -/
theorem removerFits_of_idle {after : TrunkUtilState} (idle : after.remover = .idle)
    (removed : after.inFreelist = false) (status : after.status = .none ∨ after.status = .reclaiming) :
    after.RemoverFits := by
  unfold RemoverFits
  rw [idle, removed]
  exact status

/-- A slice delete sets the event of a trunk that has none. -/
theorem Sound.deleteSlice (sound : s.Sound) : s.deleteSlice.Sound := by
  unfold TrunkUtilState.deleteSlice
  split_ifs with none
  · obtain ⟨queued, pushers, pushes, holds⟩ := sound.holds_eq_zero none
    have fits := sound.maker
    refine ⟨?_, ?_, ?_, fun status => ?_⟩
    · show s.queued + (s.pushers + 1) + s.remover.pushes + s.maker.holds = 1
      omega
    · have remover := sound.remover
      unfold RemoverFits at remover ⊢
      rw [none] at remover
      cases point : s.remover <;> rw [point] at remover pushes <;> simp_all [RemovePoint.pushes]
    · unfold MakerFits at fits ⊢
      rw [none] at fits
      cases point : s.maker <;> rw [point] at fits holds <;> simp_all [MakerPoint.holds]
    · rcases sound.placed status with inOrder | created | deleted
      · exact Or.inl inOrder
      · exact absurd (none.symm.trans created) nofun
      · exact Or.inr (Or.inr deleted)
  · exact sound

theorem Sound.pushSlice (sound : s.Sound) (pushers : 0 < s.pushers) :
    (s.next .pushSlice).Sound := by
  refine ⟨?_, sound.remover, sound.maker, sound.placed⟩
  have entries := sound.entries
  unfold TrunkUtilState.next TrunkUtilState.entries at *
  dsimp only
  omega

/-- The removal forces the event, and pushes the trunk when there was none. -/
theorem Sound.removeStep (sound : s.Sound) (enabled : s.Enabled .remove) :
    s.removeStep.Sound := by
  have entries := sound.entries
  have remover := sound.remover
  have during := @Sound.makerFits_of_removal s sound
  unfold TrunkUtilState.entries at entries
  unfold RemoverFits at remover
  unfold TrunkUtilState.removeStep
  cases point : s.remover with
  | idle =>
      rw [point] at entries remover
      dsimp only at remover
      rw [if_pos (enabled point)] at remover
      obtain ⟨status, outside, event⟩ := remover
      refine ⟨entries, ⟨status, rfl, outside, event⟩, ?_, fun none => ?_⟩
      · exact during (Or.inl status) rfl (Or.inl status) outside (Or.inl rfl)
      · exact absurd (none.symm.trans status) nofun
  | popped =>
      rw [point] at entries remover
      obtain ⟨status, popped, outside, event⟩ := remover
      refine ⟨entries, ⟨rfl, popped, outside⟩, ?_, nofun⟩
      exact during (Or.inl status) rfl (Or.inr rfl) outside (Or.inl rfl)
  | repush =>
      rw [point] at entries remover
      obtain ⟨status, popped, outside⟩ := remover
      dsimp only
      split_ifs with created
      · refine ⟨entries, ⟨status, popped, outside, created⟩, ?_, sound.placed⟩
        exact during (Or.inr status) rfl (Or.inr status) outside (Or.inl rfl)
      · refine ⟨entries, ⟨status, popped, outside⟩, ?_, sound.placed⟩
        exact during (Or.inr status) rfl (Or.inr status) outside (Or.inl rfl)
  | loaded oldEvent =>
      rw [point] at entries remover
      obtain ⟨status, popped, outside⟩ := remover
      have forced : { s with event := .create }.MakerFits :=
        during (Or.inr status) rfl (Or.inr status) outside (Or.inr rfl)
      dsimp only
      split_ifs with same none
      · subst none
        obtain ⟨queued, pushers, pushes, holds⟩ := sound.holds_eq_zero same
        refine ⟨?_, ⟨status, popped, outside, rfl⟩, forced, fun _ => Or.inr (Or.inl rfl)⟩
        show s.queued + s.pushers + 1 + s.maker.holds = 1
        omega
      · refine ⟨?_, ⟨status, popped, outside, rfl⟩, forced, fun _ => Or.inr (Or.inl rfl)⟩
        rw [if_neg (same ▸ none)] at entries
        exact entries
      · refine ⟨entries, ⟨status, popped, outside⟩, ?_, sound.placed⟩
        exact during (Or.inr status) rfl (Or.inr status) outside (Or.inl rfl)
  | push =>
      rw [point] at entries remover
      obtain ⟨status, popped, outside, created⟩ := remover
      refine ⟨?_, ⟨status, popped, outside, created⟩, ?_, sound.placed⟩
      · show s.queued + 1 + s.pushers + 0 + s.maker.holds = _
        rw [← entries]
        unfold RemovePoint.pushes
        dsimp only
        omega
      · exact during (Or.inr status) rfl (Or.inr status) outside (Or.inl rfl)
  | forced =>
      rw [point] at entries remover
      obtain ⟨status, popped, outside, created⟩ := remover
      have fits := sound.maker
      refine ⟨entries, ?_, ?_, fun _ => Or.inr (Or.inl created)⟩
      · exact removerFits_of_idle rfl popped (Or.inl rfl)
      · unfold MakerFits at fits ⊢
        cases maker : s.maker <;> rw [maker] at fits <;> simp_all

/-- What the trunk maker has finished leaves the rest of the batch. -/
theorem holds_after (left : Nat) : (MakerPoint.after left).holds = left := by
  cases left <;> rfl

/-- The trunk maker takes the whole queue. -/
theorem Sound.popAll (sound : s.Sound) (idle : s.maker = .idle) : (s.next .popAll).Sound := by
  have entries := sound.entries
  have fits := sound.maker
  unfold TrunkUtilState.entries at entries
  unfold MakerFits at fits
  rw [idle] at entries fits
  refine ⟨?_, sound.remover, ?_, fun status => ?_⟩
  · show 0 + s.pushers + s.remover.pushes + (MakerPoint.after s.queued).holds = _
    rw [holds_after]
    have none : MakerPoint.idle.holds = 0 := rfl
    rw [none] at entries
    show _ = if s.event = .none then 0 else 1
    omega
  · unfold MakerFits TrunkUtilState.next
    dsimp only
    cases s.queued <;> exact fits
  · rcases sound.placed status with inOrder | created | deleted
    · exact Or.inl inOrder
    · exact Or.inr (Or.inl created)
    · exact absurd (idle.symm.trans deleted) nofun

theorem status_cases (s : TrunkUtilState) :
    s.status = .none ∨ s.status = .repush ∨ s.status = .allocing ∨ s.status = .reclaiming := by
  cases s.status <;> simp

/-- A trunk that is not allocated from, nor being removed, is in no freelist. -/
theorem Sound.removed (sound : s.Sound) (status : s.status = .none ∨ s.status = .reclaiming) :
    s.remover = .idle ∧ s.inFreelist = false := by
  have remover := sound.remover
  unfold RemoverFits at remover
  cases point : s.remover <;> rw [point] at remover <;> rcases status with same | same <;>
    simp_all

/-- What the removal needs to know does not change with the trunk maker's next trunk. -/
theorem makerFits_after {after : TrunkUtilState} {left : Nat}
    (maker : after.maker = .after left) (status : after.status ≠ .reclaiming)
    (outside : after.event = .create → after.inBySize = false) : after.MakerFits := by
  unfold MakerFits
  rw [maker]
  cases left <;> exact ⟨status, outside⟩

/-- The event of a trunk that is allocated from is not the one of its removal. -/
theorem Sound.event_of_allocing (sound : s.Sound) (status : s.status = .allocing) :
    s.event ≠ .create := by
  have remover := sound.remover
  unfold RemoverFits at remover
  cases point : s.remover <;> rw [point] at remover <;> simp_all

/-- The trunk maker handles the event of the trunk, or puts the reclaimed trunk back. -/
theorem Sound.makerStep (sound : s.Sound) (current : s.Current .deal) : s.makerStep.Sound := by
  have entries := sound.entries
  have fits := sound.maker
  have held := sound.holds_eq_zero
  unfold TrunkUtilState.entries at entries
  unfold MakerFits at fits
  unfold TrunkUtilState.Current at current
  unfold TrunkUtilState.makerStep
  cases point : s.maker with
  | idle => exact sound
  | reclaiming => exact sound
  | dealing left =>
      rw [point] at entries fits
      refine ⟨entries, sound.remover, ⟨fits.1, fits.2, Or.inl rfl⟩, fun status => ?_⟩
      rcases sound.placed status with inOrder | created | deleted
      · exact Or.inl inOrder
      · exact Or.inr (Or.inl created)
      · exact absurd (point.symm.trans deleted) nofun
  | loaded left event =>
      rw [point] at entries fits held current
      obtain ⟨working, outside, loaded⟩ := fits
      have some : s.event ≠ .none := fun none => absurd (held none).2.2.2 (Nat.succ_ne_zero left)
      have holds : (MakerPoint.onStatus left event s.status).holds = left + 1 := by
        cases s.status <;> rfl
      refine ⟨?_, sound.remover, ?_, fun status => ?_⟩
      · show s.queued + s.pushers + s.remover.pushes +
          (MakerPoint.onStatus left event s.status).holds = _
        rw [holds]
        exact entries
      · unfold MakerFits
        dsimp only
        rcases s.status_cases with status | status | status | status
        · rw [status]
          exact ⟨rfl, current status, outside⟩
        · rw [status]
          exact ⟨nofun, outside⟩
        · rw [status]
          refine ⟨nofun, outside, ?_⟩
          rcases loaded with same | stale
          · rw [same]
            cases was : s.event with
            | none => exact absurd was some
            | create => exact absurd was (sound.event_of_allocing status)
            | update => rfl
          · exact stale.1
        · exact absurd status working
      · rcases sound.placed status with inOrder | created | deleted
        · exact Or.inl inOrder
        · exact Or.inr (Or.inl created)
        · exact absurd (point.symm.trans deleted) nofun
  | repush left =>
      rw [point] at entries fits
      refine ⟨?_, sound.remover, makerFits_after rfl fits.1 fits.2, fun status => ?_⟩
      · show s.queued + 1 + s.pushers + s.remover.pushes + (MakerPoint.after left).holds = _
        rw [holds_after, ← entries]
        unfold MakerPoint.holds
        dsimp only
        omega
      · rcases sound.placed status with inOrder | created | deleted
        · exact Or.inl inOrder
        · exact Or.inr (Or.inl created)
        · exact absurd (point.symm.trans deleted) nofun
  | refuse left event =>
      rw [point] at entries fits
      obtain ⟨working, outside, update⟩ := fits
      dsimp only
      split_ifs with same
      · have updated : s.event = .update := same.trans update
        rw [if_neg (by rw [updated]; nofun)] at entries
        refine ⟨?_, ?_, makerFits_after rfl working nofun, fun status => ?_⟩
        · show s.queued + s.pushers + s.remover.pushes + (MakerPoint.after left).holds = 0
          rw [holds_after]
          unfold MakerPoint.holds at entries
          dsimp only at entries
          omega
        · have remover := sound.remover
          unfold RemoverFits at remover ⊢
          dsimp only
          cases removal : s.remover <;> rw [removal] at remover <;> simp_all
        · rcases sound.placed status with inOrder | created | deleted
          · exact Or.inl inOrder
          · exact absurd (updated.symm.trans created) nofun
          · exact absurd (point.symm.trans deleted) nofun
      · refine ⟨entries, sound.remover, ⟨working, outside⟩, fun status => ?_⟩
        rcases sound.placed status with inOrder | created | deleted
        · exact Or.inl inOrder
        · exact Or.inr (Or.inl created)
        · exact absurd (point.symm.trans deleted) nofun
  | accept left event =>
      rw [point] at entries fits
      obtain ⟨status, same, outside⟩ := fits
      obtain ⟨idle, removed⟩ := sound.removed (Or.inl status)
      have ordered : (if event = .create then true else s.inBySize) = true := by
        split_ifs with created
        · rfl
        · rcases sound.placed status with inOrder | create | deleted
          · exact inOrder
          · exact absurd (same.trans create) created
          · exact absurd (point.symm.trans deleted) nofun
      refine ⟨entries, ?_, ⟨status, same, ordered⟩, fun _ => Or.inl ordered⟩
      exact removerFits_of_idle idle removed (Or.inl status)
  | clear left event =>
      rw [point] at entries fits held
      obtain ⟨status, same, ordered⟩ := fits
      obtain ⟨idle, removed⟩ := sound.removed (Or.inl status)
      have some : s.event ≠ .none := fun none => absurd (held none).2.2.2 (Nat.succ_ne_zero left)
      rw [if_neg some] at entries
      dsimp only
      rw [if_pos same.symm]
      refine ⟨?_, ?_, makerFits_after rfl ?_ nofun, fun _ => Or.inl ordered⟩
      · show s.queued + s.pushers + s.remover.pushes + (MakerPoint.after left).holds = 0
        rw [holds_after]
        unfold MakerPoint.holds at entries
        dsimp only at entries
        omega
      · exact removerFits_of_idle idle removed (Or.inl status)
      · rw [status]
        nofun
  | emptied =>
      rw [point] at entries fits
      obtain ⟨status, ordered, uncreated⟩ := fits
      obtain ⟨idle, removed⟩ := sound.removed status
      refine ⟨entries, ?_, ⟨status, rfl, uncreated⟩, fun _ => Or.inr (Or.inr rfl)⟩
      exact removerFits_of_idle idle removed status
  | deleted =>
      rw [point] at entries fits
      obtain ⟨status, outside, uncreated⟩ := fits
      obtain ⟨idle, removed⟩ := sound.removed status
      refine ⟨entries, ?_, ⟨nofun, fun _ => outside⟩, nofun⟩
      unfold RemoverFits
      rw [idle]
      exact ⟨rfl, outside, uncreated⟩

/-- The trunk maker takes a trunk that is ordered in by size. -/
theorem Sound.reclaim (sound : s.Sound) (idle : s.maker = .idle) (ordered : s.inBySize = true)
    (used : Bool) : (s.next (.reclaim used)).Sound := by
  have entries := sound.entries
  have fits := sound.maker
  have remover := sound.remover
  unfold TrunkUtilState.entries at entries
  unfold MakerFits at fits
  rw [idle] at entries fits
  have uncreated : s.event ≠ .create := fun created =>
    absurd (ordered.symm.trans (fits.2 created)) nofun
  have removal : s.remover = .idle ∧ s.inFreelist = false ∧ s.status = .none := by
    unfold RemoverFits at remover
    cases point : s.remover <;> rw [point] at remover <;> simp_all
  obtain ⟨quiet, removed, status⟩ := removal
  unfold TrunkUtilState.next
  cases used with
  | true =>
      refine ⟨entries, ?_, ⟨rfl, ordered, uncreated⟩, nofun⟩
      exact removerFits_of_idle quiet removed (Or.inr rfl)
  | false =>
      refine ⟨entries, sound.remover, ⟨Or.inl status, ordered, uncreated⟩, fun _ => ?_⟩
      exact Or.inl ordered

/-- `trunk_reclaim` returns. -/
theorem Sound.reclaimed (sound : s.Sound) (point : s.maker = .reclaiming) (ok : Bool) :
    (s.next (.reclaimed ok)).Sound := by
  have entries := sound.entries
  have fits := sound.maker
  unfold TrunkUtilState.entries at entries
  unfold MakerFits at fits
  rw [point] at entries fits
  obtain ⟨status, ordered, uncreated⟩ := fits
  obtain ⟨idle, removed⟩ := sound.removed (Or.inr status)
  unfold TrunkUtilState.next
  cases ok with
  | true =>
      refine ⟨entries, sound.remover, ⟨Or.inr status, ordered, uncreated⟩, fun none => ?_⟩
      exact Or.inl ordered
  | false =>
      refine ⟨entries, ?_, ⟨nofun, fun created => absurd created uncreated⟩, fun _ => Or.inl ordered⟩
      exact removerFits_of_idle idle removed (Or.inl rfl)

theorem Sound.next (sound : s.Sound) {action : TrunkUtilAction} (enabled : s.Enabled action)
    (current : s.Current action) : (s.next action).Sound := by
  cases action with
  | deleteSlice => exact sound.deleteSlice
  | pushSlice => exact sound.pushSlice enabled
  | remove => exact sound.removeStep enabled
  | popAll => exact sound.popAll enabled
  | deal => exact sound.makerStep current
  | reclaim used => exact sound.reclaim enabled.1 enabled.2 used
  | reclaimed ok => exact sound.reclaimed enabled ok

theorem Sound.init (start : TrunkUtilInit s) : s.Sound := by
  rcases start with rfl | rfl | rfl
  · exact ⟨rfl, ⟨rfl, rfl, nofun⟩, ⟨nofun, nofun⟩, nofun⟩
  · exact ⟨rfl, Or.inl rfl, ⟨nofun, nofun⟩, fun _ => Or.inl rfl⟩
  · exact ⟨rfl, Or.inl rfl, ⟨nofun, fun _ => rfl⟩, fun _ => Or.inr (Or.inl rfl)⟩

theorem Sound.kept (sound : s.Sound) : s.Kept := by
  have entries := sound.entries
  unfold TrunkUtilState.entries at entries
  refine ⟨?_, fun ⟨pushers, remover, maker⟩ => ?_⟩
  · split_ifs at entries <;> omega
  · rw [pushers, remover, maker] at entries
    have queued : s.queued = if s.event = .none then 0 else 1 := entries
    refine ⟨fun some => ?_, fun _ status empty => ?_⟩
    · rw [queued, if_neg some]
      exact Nat.one_pos
    · rcases sound.placed status with inOrder | created | deleted
      · exact inOrder
      · rw [queued, if_neg (by rw [created]; nofun)] at empty
        cases empty
      · exact absurd (maker.symm.trans deleted) nofun

end TrunkUtilState

/-- As long as the trunk maker never takes a trunk as removed for an event that was loaded
before the removal replaced it, no event is lost in any run. -/
theorem trunk_events_kept {s : TrunkUtilState}
    (reached : Reachable (TrunkUtilStep.guarded TrunkUtilState.Current) TrunkUtilInit s) :
    s.Kept := by
  have sound : s.Sound := by
    refine reached.invariant (fun _ start => TrunkUtilState.Sound.init start) ?_
    rintro s action _ sound ⟨current, enabled, rfl⟩
    exact sound.next enabled current
  exact sound.kept

/-- A slice delete pushes the trunk, which is removed before the trunk maker loads the event. -/
theorem trunk_events_kept_removed :
    ∃ s : TrunkUtilState,
      Reachable (TrunkUtilStep.guarded TrunkUtilState.Current) TrunkUtilInit s ∧
        s.inFreelist = false ∧ s.inBySize = true ∧ s.Kept := by
  have start : Reachable (TrunkUtilStep.guarded TrunkUtilState.Current) TrunkUtilInit
      ⟨.none, .allocing, 0, true, false, 0, .idle, .idle⟩ := .start (Or.inl rfl)
  have removed := start.followMeeting
    [.deleteSlice, .pushSlice, .popAll, .remove, .remove, .remove, .remove, .remove, .deal, .deal,
      .deal, .deal] (by decide)
  exact ⟨_, removed, by decide, by decide, trunk_events_kept removed⟩

end FastStore.Storage
