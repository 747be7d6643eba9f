import FastStore.Storage.Types
import FastStore.Util.System

/-!
# Trunk ids across restarts

The next trunk id is counted in memory and saved to `.trunk_id.dat` by a periodic
task when it has changed.  A start after a crash adds 10000 to the saved id, to be
above every id that was generated since the last save; after a clean exit the saved
id is exact.

The jump of a start is not saved before an id is generated and the task runs, and
neither is the mark of the clean exit taken back.  So a crash before the first save
of a process brings the ids of this process again.
-/

namespace FastStore.Storage

open FastStore.Util

/-- The contents of `.trunk_id.dat`. -/
structure TrunkIdFile where
  trunkId : Int
  subdirId : Int
  normalExit : Bool
  deriving DecidableEq, Repr

/-- The counters of `TrunkIdInfoContext`. -/
structure TrunkIdInfoContext where
  currentTrunkId : Int
  currentSubdirId : Int
  lastTrunkId : Int
  lastSubdirId : Int
  deriving DecidableEq, Repr

/-- `load_current_trunk_id`: the trunk id and the subdir id to go on from. -/
def loadCurrentTrunkId : Option TrunkIdFile → Int × Int
  | none => (0, 0)
  | some file =>
      if file.normalExit then (file.trunkId, file.subdirId)
      else (file.trunkId + 10000, file.subdirId + 100)

/-- `trunk_id_info_init`. -/
def trunkIdInfoInit (file : Option TrunkIdFile) : TrunkIdInfoContext :=
  let (trunkId, subdirId) := loadCurrentTrunkId file
  ⟨trunkId, subdirId, trunkId, subdirId⟩

/-- `trunk_id_info_generate`, with the first subdir of the path that has room. -/
def trunkIdInfoGenerate (freeSubdir : Option Int) (ctx : TrunkIdInfoContext) :
    TrunkIdInfoContext × FSTrunkIdInfo :=
  let currentSubdirId := if freeSubdir.isNone then ctx.currentSubdirId + 1 else ctx.currentSubdirId
  let currentTrunkId := ctx.currentTrunkId + 1
  ({ ctx with currentTrunkId, currentSubdirId },
    ⟨currentTrunkId, freeSubdir.getD currentSubdirId⟩)

/-- `trunk_id_sync_to_file`. -/
def trunkIdSyncToFile (file : Option TrunkIdFile) (ctx : TrunkIdInfoContext) :
    Option TrunkIdFile × TrunkIdInfoContext :=
  if ctx.lastTrunkId ≠ ctx.currentTrunkId ∨ ctx.lastSubdirId ≠ ctx.currentSubdirId then
    (some ⟨ctx.currentTrunkId, ctx.currentSubdirId, false⟩,
      { ctx with lastTrunkId := ctx.currentTrunkId, lastSubdirId := ctx.currentSubdirId })
  else (file, ctx)

/-- `trunk_id_info_destroy`. -/
def trunkIdInfoDestroy (ctx : TrunkIdInfoContext) : TrunkIdFile :=
  ⟨ctx.currentTrunkId, ctx.currentSubdirId, true⟩

/-- A server over its lifetimes, with what it has done so far. -/
structure TrunkIdState where
  file : Option TrunkIdFile
  /-- The counters of the running process. -/
  ctx : Option TrunkIdInfoContext
  /-- The ids returned so far, in any lifetime. -/
  issued : List Int
  /-- The trunk ids and the subdirs generated since the last sync or start. -/
  trunksSinceSync : Nat
  subdirsSinceSync : Nat
  /-- The trunk ids generated by the running process. -/
  generated : Nat
  /-- The running process has written the file. -/
  saved : Bool
  deriving DecidableEq, Repr

inductive TrunkIdAction where
  | start
  | generate (freeSubdir : Option Int)
  | sync
  | exit
  | crash
  deriving DecidableEq, Repr

namespace TrunkIdState

/-- When a step can be taken: at most 10000 trunk ids and 100 subdirs are generated
between two syncs. -/
def Enabled (s : TrunkIdState) : TrunkIdAction → Prop
  | .start => s.ctx = none
  | .generate freeSubdir => s.ctx.isSome ∧ s.trunksSinceSync < 10000 ∧
      (freeSubdir = none → s.subdirsSinceSync < 100)
  | .sync | .exit | .crash => s.ctx.isSome

instance (s : TrunkIdState) : (action : TrunkIdAction) → Decidable (s.Enabled action)
  | .start => inferInstanceAs (Decidable (_ = _))
  | .generate _ => inferInstanceAs (Decidable (_ ∧ _ ∧ (_ → _)))
  | .sync | .exit | .crash => inferInstanceAs (Decidable (_ = true))

/-- Where a step leads. -/
def next (s : TrunkIdState) (action : TrunkIdAction) : TrunkIdState :=
  match s.ctx, action with
  | none, .start =>
      { s with
        ctx := some (trunkIdInfoInit s.file)
        trunksSinceSync := 0
        subdirsSinceSync := 0
        generated := 0
        saved := false }
  | some ctx, .generate freeSubdir =>
      let (ctx, idInfo) := trunkIdInfoGenerate freeSubdir ctx
      { s with
        ctx := some ctx
        issued := idInfo.id :: s.issued
        trunksSinceSync := s.trunksSinceSync + 1
        subdirsSinceSync := if freeSubdir.isNone then s.subdirsSinceSync + 1 else s.subdirsSinceSync
        generated := s.generated + 1 }
  | some ctx, .sync =>
      let (file, synced) := trunkIdSyncToFile s.file ctx
      { s with
        file
        ctx := some synced
        trunksSinceSync := 0
        subdirsSinceSync := 0
        saved := s.saved || (ctx.lastTrunkId ≠ ctx.currentTrunkId || ctx.lastSubdirId ≠ ctx.currentSubdirId) }
  | some ctx, .exit => { s with file := some (trunkIdInfoDestroy ctx), ctx := none }
  | some _, .crash => { s with ctx := none }
  | _, _ => s

def Step : StepRel TrunkIdState TrunkIdAction :=
  StepRel.ofNext Enabled next

/-- A server before its first start. -/
structure Init (s : TrunkIdState) : Prop where
  file : s.file = none
  ctx : s.ctx = none
  issued : s.issued = []

/-- A crash comes when the running process has generated nothing, or after it has
written the file. -/
def Undisturbed (s : TrunkIdState) : TrunkIdAction → Prop
  | .crash => s.generated = 0 ∨ s.saved = true
  | _ => True

/-- What the counters and the file of a running process say. -/
structure Running (s : TrunkIdState) (ctx : TrunkIdInfoContext) : Prop where
  issued : ∀ id ∈ s.issued, id ≤ ctx.currentTrunkId
  sinceSync : ctx.currentTrunkId = ctx.lastTrunkId + s.trunksSinceSync
  bounded : s.trunksSinceSync ≤ 10000
  unused : s.generated = 0 → s.saved = false →
    ctx.currentTrunkId = (loadCurrentTrunkId s.file).1
  saved : s.saved = true → ∃ file, s.file = some file ∧ file.trunkId = ctx.lastTrunkId ∧
    file.normalExit = false

structure Invariant (s : TrunkIdState) : Prop where
  nodup : s.issued.Nodup
  running : ∀ ctx, s.ctx = some ctx → s.Running ctx
  stopped : s.ctx = none → ∀ id ∈ s.issued, id ≤ (loadCurrentTrunkId s.file).1

variable {s : TrunkIdState}

theorem Invariant.start (inv : s.Invariant) (possible : s.ctx = none) :
    (s.next .start).Invariant := by
  have below := inv.stopped possible
  simp only [TrunkIdState.next, possible]
  refine ⟨inv.nodup, ?_, by simp⟩
  rintro ctx ⟨⟩
  exact ⟨below, by simp [trunkIdInfoInit], Nat.zero_le _, fun _ _ => rfl, by simp⟩

theorem Invariant.generate (inv : s.Invariant) {ctx : TrunkIdInfoContext}
    (running : s.ctx = some ctx) (freeSubdir : Option Int) (few : s.trunksSinceSync < 10000) :
    (s.next (.generate freeSubdir)).Invariant := by
  have now := inv.running ctx running
  have fresh : ctx.currentTrunkId + 1 ∉ s.issued := by
    intro member
    have := now.issued _ member
    omega
  simp only [TrunkIdState.next, running, trunkIdInfoGenerate]
  refine ⟨List.nodup_cons.mpr ⟨fresh, inv.nodup⟩, ?_, by simp⟩
  rintro ctx' ⟨⟩
  refine ⟨?_, ?_, few, by simp, now.saved⟩
  · intro id member
    cases member with
    | head => exact le_rfl
    | tail _ member => exact (now.issued id member).trans (Int.le_add_one le_rfl)
  · have since := now.sinceSync
    push_cast
    omega

theorem Invariant.sync (inv : s.Invariant) {ctx : TrunkIdInfoContext}
    (running : s.ctx = some ctx) : (s.next .sync).Invariant := by
  have now := inv.running ctx running
  have since := now.sinceSync
  simp only [TrunkIdState.next, running, trunkIdSyncToFile]
  split_ifs with changed
  · refine ⟨inv.nodup, ?_, by simp⟩
    rintro ctx' ⟨⟩
    refine ⟨now.issued, by simp, Nat.zero_le _, ?_, fun _ => ⟨_, rfl, rfl, rfl⟩⟩
    simp only [ne_eq, decide_not, Bool.or_eq_false_iff, Bool.not_eq_eq_eq_not, Bool.not_false,
      decide_eq_true_eq]
    rintro - ⟨-, sameTrunk, sameSubdir⟩
    exact absurd changed (by simp [sameTrunk, sameSubdir])
  · have same : ctx.lastTrunkId = ctx.currentTrunkId := by
      by_contra differs
      exact changed (.inl differs)
    refine ⟨inv.nodup, ?_, by simp⟩
    rintro ctx' ⟨⟩
    have notChanged : ctx.lastSubdirId = ctx.currentSubdirId := by
      by_contra differs
      exact changed (.inr differs)
    refine ⟨now.issued, by simp [same], Nat.zero_le _, ?_, ?_⟩
    · simpa [same, notChanged] using now.unused
    · simpa [same, notChanged] using now.saved

/-- A crash leaves a file from which the next start goes on above every id. -/
theorem Invariant.crash (inv : s.Invariant) {ctx : TrunkIdInfoContext}
    (running : s.ctx = some ctx) (late : s.generated = 0 ∨ s.saved = true) :
    (s.next .crash).Invariant := by
  have now := inv.running ctx running
  simp only [TrunkIdState.next, running]
  refine ⟨inv.nodup, by simp, fun _ id member => ?_⟩
  have below := now.issued id member
  cases written : s.saved with
  | true =>
      obtain ⟨file, found, lastSaved, notExit⟩ := now.saved written
      have since := now.sinceSync
      have bounded := now.bounded
      simp only [found, loadCurrentTrunkId, notExit, Bool.false_eq_true, if_false]
      omega
  | false =>
      have unused := now.unused (late.resolve_right (by simp [written])) written
      exact unused ▸ below

theorem Invariant.exit (inv : s.Invariant) {ctx : TrunkIdInfoContext}
    (running : s.ctx = some ctx) : (s.next .exit).Invariant := by
  have now := inv.running ctx running
  simp only [TrunkIdState.next, running]
  refine ⟨inv.nodup, by simp, fun _ id member => ?_⟩
  simpa [loadCurrentTrunkId, trunkIdInfoDestroy] using now.issued id member

theorem Invariant.next (inv : s.Invariant) {action : TrunkIdAction} (possible : s.Enabled action)
    (meets : s.Undisturbed action) : (s.next action).Invariant := by
  cases action with
  | start => exact inv.start possible
  | generate freeSubdir =>
      obtain ⟨ctx, running⟩ := Option.isSome_iff_exists.mp possible.1
      exact inv.generate running freeSubdir possible.2.1
  | sync =>
      obtain ⟨ctx, running⟩ := Option.isSome_iff_exists.mp possible
      exact inv.sync running
  | exit =>
      obtain ⟨ctx, running⟩ := Option.isSome_iff_exists.mp possible
      exact inv.exit running
  | crash =>
      obtain ⟨ctx, running⟩ := Option.isSome_iff_exists.mp possible
      exact inv.crash running meets

/-- No trunk id is issued twice. -/
theorem trunk_ids_never_reissued (reached : Reachable (Step.guarded Undisturbed) Init s) :
    s.issued.Nodup := by
  have inv : s.Invariant := by
    refine Reachable.invariant ?_ ?_ reached
    · intro s init
      exact ⟨by simp [init.issued], by simp [init.ctx], by simp [init.issued]⟩
    · rintro s action s' inv ⟨meets, possible, rfl⟩
      exact inv.next possible meets
  exact inv.nodup

/-- A server that was never started. -/
def installed : TrunkIdState := ⟨none, none, [], 0, 0, 0, false⟩

theorem init_installed : Init installed := ⟨rfl, rfl, rfl⟩

/-- A crash after the first sync. -/
theorem trunk_ids_differ_after_crash :
    ∃ s, Reachable (Step.guarded Undisturbed) Init s ∧ s.issued = [10002, 2, 1] ∧
      s.issued.Nodup := by
  have initial : Reachable (Step.guarded Undisturbed) Init installed := .start init_installed
  have synced := initial.followGuarded [.start, .generate none, .sync, .generate none]
    (by decide) (by simp [Undisturbed])
  have crashed := synced.actGuarded .crash (.inr rfl) rfl
  have again := crashed.followGuarded [.start, .generate none] (by decide) (by simp [Undisturbed])
  exact ⟨_, again, rfl, trunk_ids_never_reissued again⟩

/-- A clean exit, a start and a crash before the next sync: the id 2 is issued again. -/
theorem trunk_id_reissued_after_exit :
    ∃ s, Reachable Step Init s ∧ s.issued = [2, 2, 1] ∧ ¬ s.issued.Nodup := by
  have initial : Reachable Step Init installed := .start init_installed
  have again := initial.follow [.start, .generate none, .exit, .start, .generate none, .crash,
    .start, .generate none] (by decide)
  exact ⟨_, again, rfl, by decide⟩

end TrunkIdState

end FastStore.Storage
