import FastStore.Recovery.RecoveryThread

/-!
# No recovery is forgotten

A recovery is needed while my data server is not up to date and the master is another
server.  Then the data server stands in a queue, or a thread is at a point from which it
asks for the recovery when it finds it needed.  The exception is a task that has set the
flag and fails to swap the status: a request that is dropped because of the flag relies on
the task that has set it, and this one returns without looking again.
-/

namespace FastStore.Recovery

open FastStore.Util FastStore.Cluster

/-! ## Who asks for the recovery -/

/-- My data server is not up to date and could recover from another server. -/
def RecoveryShared.Needs (myself : Nat) (s : RecoveryShared) : Prop :=
  Waits s.status ∧ s.MasterElsewhere myself

instance (myself : Nat) (s : RecoveryShared) : Decidable (s.Needs myself) := by
  unfold RecoveryShared.Needs
  infer_instance

/-- What leads to a new request when a recovery is needed. -/
def RecoveryFrame.Asks (myself : Nat) (status : FSDataServerStatus) : RecoveryFrame → Prop
  | .onStatusChange new => Waits new
  | .push | .checkStatus | .checkMaster | .deal | .poolRun | .taskStatus | .dataRecoveryStart _
  | .taskDone _ _ | .release true => True
  | .onMasterChange old new => new ≠ old ∧ new ≠ none ∧ new ≠ some myself
  | .taskMaster old | .taskAcquire old | .taskSwap old => status = old
  | _ => False

/-- The points at which a task holds the flag. -/
def RecoveryFrame.holds : RecoveryFrame → Bool
  | .taskSwap _ | .dataRecoveryStart _ | .taskDone _ _ | .release _ => true
  | _ => false

/-- A task is about to clear the flag and to return without asking again. -/
def RecoveryFrame.GivesUp (status : FSDataServerStatus) : RecoveryFrame → Prop
  | .taskSwap old => status ≠ old
  | .release false => True
  | _ => False

instance (status : FSDataServerStatus) (frame : RecoveryFrame) :
    Decidable (frame.GivesUp status) := by
  unfold RecoveryFrame.GivesUp
  split <;> infer_instance

/-- When a needed recovery is dropped because the flag is set, the task that has set it does
not give up; and the second swap of a leader's report does not take my data server out again. -/
def RecoveryShared.Retained (myself : Nat) (s : RecoveryShared) (frames : Multiset RecoveryFrame) :
    RecoveryFrame → RecoveryChoice → Prop
  | .taskAcquire _, _ => s.inProgress = true → Waits s.status → s.MasterElsewhere myself →
      ∀ frame ∈ frames, ¬frame.GivesUp s.status
  | .report old new, choice => choice.isLeader = true → s.status = old → Waits new →
      ¬s.MasterElsewhere myself
  | _, _ => True

instance (myself : Nat) (s : RecoveryShared) (frames : Multiset RecoveryFrame)
    (frame : RecoveryFrame) (choice : RecoveryChoice) :
    Decidable (s.Retained myself frames frame choice) := by
  unfold RecoveryShared.Retained
  split <;> infer_instance

/-- A needed recovery is in a queue or about to be asked for, and one task at most holds the
flag. -/
structure RecoveryInvariant (myself : Nat) (s : RecoveryShared) (frames : Multiset RecoveryFrame) :
    Prop where
  asked : s.Needs myself →
    0 < s.queue ∨ 0 < s.pool ∨ ∃ frame ∈ frames, frame.Asks myself s.status
  held : frames.countP (fun frame => frame.holds = true) = s.inProgress.toNat

namespace RecoveryInvariant

variable {myself : Nat} {s s' : RecoveryShared} {frame : RecoveryFrame}
  {others : Multiset RecoveryFrame} {new : List RecoveryFrame}

/-- An entry that does not hold the flag leaves the holder among the others. -/
theorem held_others (inv : RecoveryInvariant myself s (frame ::ₘ others))
    (old : frame.holds = false) :
    others.countP (fun frame => frame.holds = true) = s.inProgress.toNat := by
  rw [← inv.held, Multiset.countP_cons_of_neg]
  simp [old]

/-- The flag is not touched. -/
theorem held_of_same (inv : RecoveryInvariant myself s (frame ::ₘ others))
    (old : frame.holds = false) (none : ∀ later ∈ new, later.holds = false) :
    ((new : Multiset RecoveryFrame) + others).countP (fun frame => frame.holds = true) =
      s.inProgress.toNat := by
  have zero : (new : Multiset RecoveryFrame).countP (fun frame => frame.holds = true) = 0 := by
    rw [Multiset.countP_eq_zero]
    intro later member
    simp [none later member]
  rw [Multiset.countP_add, zero, Nat.zero_add, inv.held_others old]

/-- The flag is passed on. -/
theorem held_of_passed (inv : RecoveryInvariant myself s (frame ::ₘ others))
    (old : frame.holds = true)
    (passed : new.countP (fun frame => frame.holds = true) = 1) :
    ((new : Multiset RecoveryFrame) + others).countP (fun frame => frame.holds = true) =
      s.inProgress.toNat := by
  rw [Multiset.countP_add, Multiset.coe_countP, passed, ← inv.held, Multiset.countP_cons_of_pos,
    Nat.add_comm]
  exact old

/-- A step that leaves the status and the master alone keeps the requests, when it asks in
place of the executed entry. -/
theorem asked_of_same (inv : RecoveryInvariant myself s (frame ::ₘ others))
    (status : s'.status = s.status) (master : s'.master = s.master)
    (queue : s.queue ≤ s'.queue ∨ ∃ later ∈ new, later.Asks myself s.status)
    (pool : s.pool ≤ s'.pool ∨ ∃ later ∈ new, later.Asks myself s.status)
    (asks : s.Needs myself → frame.Asks myself s.status →
      0 < s'.queue ∨ 0 < s'.pool ∨ ∃ later ∈ new, later.Asks myself s.status) :
    s'.Needs myself → 0 < s'.queue ∨ 0 < s'.pool ∨
      ∃ frame ∈ (new : Multiset RecoveryFrame) + others, frame.Asks myself s'.status := by
  intro needs
  rw [status]
  have before : s.Needs myself := by
    unfold RecoveryShared.Needs RecoveryShared.MasterElsewhere at needs ⊢
    rwa [status, master] at needs
  have lift : (∃ later ∈ new, later.Asks myself s.status) →
      ∃ frame ∈ (new : Multiset RecoveryFrame) + others, frame.Asks myself s.status := by
    rintro ⟨later, member, asking⟩
    exact ⟨later, Multiset.mem_add.mpr (Or.inl (Multiset.mem_coe.mpr member)), asking⟩
  rcases inv.asked before with queued | pooled | ⟨asking, member, holds⟩
  · rcases queue with more | found
    · exact Or.inl (lt_of_lt_of_le queued more)
    · exact Or.inr (Or.inr (lift found))
  · rcases pool with more | found
    · exact Or.inr (Or.inl (lt_of_lt_of_le pooled more))
    · exact Or.inr (Or.inr (lift found))
  · rcases Multiset.mem_cons.mp member with rfl | other
    · rcases asks before holds with queued | pooled | found
      · exact Or.inl queued
      · exact Or.inr (Or.inl pooled)
      · exact Or.inr (Or.inr (lift found))
    · exact Or.inr (Or.inr ⟨asking, Multiset.mem_add.mpr (Or.inr other), holds⟩)

/-- An operation that only reads: it must ask in place of the executed entry. -/
theorem read (inv : RecoveryInvariant myself s (frame ::ₘ others)) (old : frame.holds = false)
    (none : ∀ later ∈ new, later.holds = false)
    (asks : s.Needs myself → frame.Asks myself s.status →
      ∃ later ∈ new, later.Asks myself s.status) :
    RecoveryInvariant myself s ((new : Multiset RecoveryFrame) + others) :=
  ⟨inv.asked_of_same rfl rfl (Or.inl (Nat.le_refl _)) (Or.inl (Nat.le_refl _))
    fun needs asking => Or.inr (Or.inr (asks needs asking)), inv.held_of_same old none⟩

/-- An operation after which no recovery is needed, or that asks for it. -/
theorem changed (inv : RecoveryInvariant myself s (frame ::ₘ others)) (old : frame.holds = false)
    (none : ∀ later ∈ new, later.holds = false) (flag : s'.inProgress = s.inProgress)
    (asks : s'.Needs myself → ∃ later ∈ new, later.Asks myself s'.status) :
    RecoveryInvariant myself s' ((new : Multiset RecoveryFrame) + others) := by
  refine ⟨fun needs => Or.inr (Or.inr ?_), ?_⟩
  · obtain ⟨later, member, asking⟩ := asks needs
    exact ⟨later, Multiset.mem_add.mpr (Or.inl (Multiset.mem_coe.mpr member)), asking⟩
  · rw [flag]
    exact inv.held_of_same old none

theorem onMasterChange_holds (old new : Option Nat) :
    ∀ later ∈ s.onMasterChange myself old new, later.holds = false := by
  unfold RecoveryShared.onMasterChange
  split_ifs <;> simp [RecoveryFrame.holds]

/-- A master change to another server ends with a check of my status. -/
theorem onMasterChange_asks {status : FSDataServerStatus} {old new : Option Nat}
    (different : new ≠ old) (elsewhere : new ≠ none ∧ new ≠ some myself) :
    ∃ later ∈ s.onMasterChange myself old new, later.Asks myself status := by
  refine ⟨.checkStatus, ?_, trivial⟩
  unfold RecoveryShared.onMasterChange
  rw [if_neg different, if_pos elsewhere]
  exact List.mem_append_right _ (List.mem_singleton_self _)

/-- A task that finds the flag set drops the request: the holder of the flag asks again. -/
theorem acquireFailed {old : FSDataServerStatus}
    (inv : RecoveryInvariant myself s (.taskAcquire old ::ₘ others)) (set : s.inProgress = true)
    (retained : Waits s.status → s.MasterElsewhere myself →
      ∀ frame ∈ RecoveryFrame.taskAcquire old ::ₘ others, ¬frame.GivesUp s.status) :
    RecoveryInvariant myself s ((([] : List RecoveryFrame) : Multiset RecoveryFrame) + others) := by
  refine ⟨fun needs => ?_, inv.held_of_same rfl nofun⟩
  have holder : 0 < others.countP (fun frame => frame.holds = true) := by
    rw [inv.held_others rfl, set]
    exact Nat.one_pos
  obtain ⟨frame, member, holds⟩ := Multiset.countP_pos.mp holder
  have keeps := retained needs.1 needs.2 frame (Multiset.mem_cons_of_mem member)
  refine Or.inr (Or.inr ⟨frame, Multiset.mem_add.mpr (Or.inr member), ?_⟩)
  cases frame with
  | taskSwap read => exact not_not.mp keeps
  | dataRecoveryStart read => trivial
  | taskDone read result => trivial
  | release check =>
      cases check with
      | true => trivial
      | false => exact absurd trivial keeps
  | _ => cases holds

/-- Every operation keeps the invariant. -/
theorem exec {choice : RecoveryChoice} (inv : RecoveryInvariant myself s (frame ::ₘ others))
    (retained : s.Retained myself (frame ::ₘ others) frame choice) (enabled : s.Enabled frame) :
    RecoveryInvariant myself (s.exec myself choice frame).1
      (((s.exec myself choice frame).2 : Multiset RecoveryFrame) + others) := by
  cases frame with
  | setStatus old new report =>
      unfold RecoveryShared.exec
      dsimp only
      by_cases found : new ≠ old ∧ s.status = old
      · rw [if_neg found.1, if_pos found.2]
        refine inv.changed rfl ?_ rfl fun needs => ⟨_, List.mem_cons_self, needs.1⟩
        cases report <;> simp [RecoveryFrame.holds]
      · have same : (if new = old then (s, []) else if s.status = old then
            ({ s with status := new }, RecoveryFrame.onStatusChange new ::
              if report = true then [.report old new] else [])
            else (s, [])) = (s, []) := by
          rw [ite_eq_left_iff]
          exact fun different => if_neg fun equal => found ⟨different, equal⟩
        rw [same]
        exact inv.read rfl nofun nofun
  | onStatusChange new =>
      unfold RecoveryShared.exec
      dsimp only
      split_ifs with asked
      · exact inv.read rfl (by simp [RecoveryFrame.holds]) fun _ _ => ⟨.push, by simp, trivial⟩
      · exact inv.read rfl nofun fun needs asks => absurd ⟨asks, needs.2⟩ asked
  | report old new =>
      unfold RecoveryShared.exec
      dsimp only
      split_ifs with again
      · refine inv.changed rfl nofun rfl fun needs => ?_
        exact absurd needs.2 (retained again.1 again.2.2 needs.1)
      · exact inv.read rfl nofun nofun
  | push =>
      refine ⟨fun _ => Or.inl (Nat.succ_pos _), inv.held_of_same rfl nofun⟩
  | checkStatus =>
      unfold RecoveryShared.exec
      dsimp only
      split_ifs with waits
      · exact inv.read rfl (by simp [RecoveryFrame.holds])
          fun _ _ => ⟨.checkMaster, by simp, trivial⟩
      · exact inv.read rfl nofun fun needs _ => absurd needs.1 waits
  | checkMaster =>
      unfold RecoveryShared.exec
      dsimp only
      split_ifs with without
      · exact inv.read rfl nofun fun needs _ => absurd without needs.2.1
      · exact inv.read rfl (by simp [RecoveryFrame.holds]) fun _ _ => ⟨.push, by simp, trivial⟩
  | pushEntry server status isMaster =>
      unfold RecoveryShared.exec
      dsimp only
      split_ifs with same
      · exact inv.read rfl (by simp [RecoveryFrame.holds]) nofun
      · exact inv.read rfl (by simp [RecoveryFrame.holds]) nofun
  | pushStatus server status isMaster =>
      unfold RecoveryShared.exec
      dsimp only
      split_ifs with accepted
      · exact inv.read rfl (by simp [RecoveryFrame.holds]) nofun
      · exact inv.read rfl nofun nofun
  | pushMaster server isMaster =>
      exact inv.read rfl (by simp [RecoveryShared.exec, RecoveryFrame.holds]) nofun
  | pushFlag server old =>
      unfold RecoveryShared.exec
      dsimp only
      split_ifs with flagged same same
      · exact inv.read rfl nofun nofun
      · cases old <;> exact inv.read rfl (by simp [RecoveryFrame.holds]) nofun
      · exact inv.read rfl (by simp [RecoveryFrame.holds]) nofun
      · exact inv.read rfl nofun nofun
  | changeMaster old new =>
      unfold RecoveryShared.exec
      dsimp only
      split_ifs with found
      · by_cases same : new = old
        · rw [same, ← found]
          exact inv.read rfl (by simp [RecoveryFrame.holds]) nofun
        · refine inv.changed rfl (by simp [RecoveryFrame.holds]) rfl fun needs => ?_
          exact ⟨_, List.mem_singleton_self _, same, needs.2⟩
      · exact inv.read rfl (by simp [RecoveryFrame.holds]) nofun
  | onMasterChange old new =>
      exact inv.read rfl (onMasterChange_holds old new) fun _ asks =>
        onMasterChange_asks asks.1 asks.2
  | electMaster server =>
      unfold RecoveryShared.exec
      dsimp only
      split_ifs with without
      · refine inv.changed rfl (by simp [RecoveryFrame.holds]) rfl fun needs => ?_
        exact ⟨.onMasterChange none (some server), by simp, nofun, needs.2⟩
      · exact inv.read rfl nofun nofun
  | offlineMaster server =>
      unfold RecoveryShared.exec
      dsimp only
      split_ifs with flagged
      · exact inv.read rfl (by simp [RecoveryFrame.holds]) nofun
      · exact inv.read rfl nofun nofun
  | unsetAllMasters =>
      unfold RecoveryShared.exec
      dsimp only
      cases s.master with
      | none => exact inv.read rfl nofun nofun
      | some server => exact inv.read rfl (by simp [RecoveryFrame.holds]) nofun
  | unsetMaster server flagged =>
      unfold RecoveryShared.exec
      dsimp only
      by_cases isMaster : s.master = some server
      · rw [if_pos isMaster]
        refine inv.changed rfl ?_ rfl fun needs => absurd rfl needs.2.1
        cases flagged <;> simp [RecoveryFrame.holds]
      · rw [if_neg isMaster]
        exact inv.read rfl nofun nofun
  | setIsMaster server value =>
      exact ⟨inv.asked_of_same rfl rfl (Or.inl (Nat.le_refl _)) (Or.inl (Nat.le_refl _)) nofun,
        inv.held_of_same rfl nofun⟩
  | entrance =>
      have asks : ∃ later ∈ [RecoveryFrame.deal, .entrance], later.Asks myself s.status :=
        ⟨.deal, by simp, trivial⟩
      exact ⟨inv.asked_of_same rfl rfl (Or.inr asks) (Or.inr asks)
        fun _ _ => Or.inr (Or.inr asks),
        inv.held_of_same rfl (by simp [RecoveryShared.exec, RecoveryFrame.holds])⟩
  | deal =>
      unfold RecoveryShared.exec
      dsimp only
      cases status : s.status with
      | init =>
          dsimp only
          split_ifs with available
          · exact inv.read rfl (by simp [RecoveryFrame.holds])
              fun _ _ => ⟨.poolRun, by simp, trivial⟩
          · exact inv.read rfl (by simp [RecoveryFrame.holds]) fun _ _ => ⟨.push, by simp, trivial⟩
      | offline =>
          exact inv.read rfl (by simp [RecoveryFrame.holds])
            fun _ _ => ⟨.poolRun, by simp, trivial⟩
      | rebuilding | recovering | online | active =>
          refine inv.read rfl nofun fun needs _ => ?_
          have waits := needs.1
          rw [status] at waits
          cases waits
  | poolRun =>
      exact ⟨fun _ => Or.inr (Or.inl (Nat.succ_pos _)), inv.held_of_same rfl nofun⟩
  | worker =>
      have asks : ∃ later ∈ [RecoveryFrame.taskStatus, .worker], later.Asks myself s.status :=
        ⟨.taskStatus, by simp, trivial⟩
      exact ⟨inv.asked_of_same rfl rfl (Or.inr asks) (Or.inr asks)
        fun _ _ => Or.inr (Or.inr asks),
        inv.held_of_same rfl (by simp [RecoveryShared.exec, RecoveryFrame.holds])⟩
  | taskStatus =>
      unfold RecoveryShared.exec
      dsimp only
      split_ifs with waits available
      · exact inv.read rfl (by simp [RecoveryFrame.holds])
          fun _ _ => ⟨.taskMaster s.status, by simp, rfl⟩
      · exact inv.read rfl (by simp [RecoveryFrame.holds])
          fun _ _ => ⟨.taskStatus, by simp, trivial⟩
      · exact inv.read rfl nofun fun needs _ => absurd needs.1 waits
  | taskMaster old =>
      unfold RecoveryShared.exec
      dsimp only
      split_ifs with elsewhere
      · exact inv.read rfl (by simp [RecoveryFrame.holds])
          fun _ asks => ⟨.taskAcquire old, by simp, asks⟩
      · exact inv.read rfl nofun fun needs _ => absurd needs.2 elsewhere
  | taskAcquire old =>
      unfold RecoveryShared.exec
      dsimp only
      split_ifs with set
      · exact inv.acquireFailed set (retained set)
      · refine ⟨inv.asked_of_same rfl rfl (Or.inl (Nat.le_refl _)) (Or.inl (Nat.le_refl _))
          fun _ asks => Or.inr (Or.inr ⟨.taskSwap old, by simp, asks⟩), ?_⟩
        rw [Multiset.countP_add, inv.held_others rfl, Multiset.coe_countP, Bool.eq_false_iff.mpr set]
        rfl
  | taskSwap old =>
      unfold RecoveryShared.exec
      dsimp only
      split_ifs with same
      · refine ⟨fun needs => ?_, inv.held_of_passed rfl (by simp [RecoveryFrame.holds])⟩
        refine Or.inr (Or.inr ⟨.dataRecoveryStart old, ?_, trivial⟩)
        simp
      · refine ⟨inv.asked_of_same rfl rfl (Or.inl (Nat.le_refl _)) (Or.inl (Nat.le_refl _))
          fun _ asks => absurd asks same, inv.held_of_passed rfl (by simp [RecoveryFrame.holds])⟩
  | dataRecoveryStart old =>
      exact ⟨inv.asked_of_same rfl rfl (Or.inl (Nat.le_refl _)) (Or.inl (Nat.le_refl _))
        fun _ _ => Or.inr (Or.inr ⟨_, List.mem_singleton_self _, trivial⟩),
        inv.held_of_passed rfl (by simp [RecoveryShared.exec, RecoveryFrame.holds])⟩
  | taskDone old result =>
      unfold RecoveryShared.exec
      dsimp only
      refine ⟨inv.asked_of_same rfl rfl (Or.inl (Nat.le_refl _)) (Or.inl (Nat.le_refl _))
        fun _ _ => Or.inr (Or.inr ⟨.release true, by simp, trivial⟩), inv.held_of_passed rfl ?_⟩
      split_ifs <;> simp [RecoveryFrame.holds]
  | release check =>
      have held := inv.held
      have free : others.countP (fun frame => frame.holds = true) = 0 := by
        have counted := Multiset.countP_cons_of_pos (p := fun frame => frame.holds = true)
          (a := .release check) others rfl
        have most := Bool.toNat_le s.inProgress
        omega
      cases check with
      | true =>
          refine ⟨inv.asked_of_same rfl rfl (Or.inl (Nat.le_refl _)) (Or.inl (Nat.le_refl _))
            fun _ _ => Or.inr (Or.inr ⟨.checkStatus, List.mem_singleton_self _, trivial⟩), ?_⟩
          rw [Multiset.countP_add, free, Multiset.coe_countP]
          rfl
      | false =>
          refine ⟨inv.asked_of_same rfl rfl (Or.inl (Nat.le_refl _)) (Or.inl (Nat.le_refl _))
            nofun, ?_⟩
          rw [Multiset.countP_add, free, Multiset.coe_countP]
          rfl

end RecoveryInvariant

/-! ## All runs -/

/-- A server that has just started: no master is known, and nothing is queued. -/
structure RecoveryStart (s : Threads RecoveryShared RecoveryFrame) : Prop where
  master : s.shared.master = none
  isMaster : ∀ server, s.shared.isMaster server = false
  queue : s.shared.queue = 0
  pool : s.shared.pool = 0
  inProgress : s.shared.inProgress = false
  calls : s.calls = [[.entrance]]

/-- A thread inside `data_recovery_start`. -/
def Runs : List RecoveryFrame → Bool
  | .dataRecoveryStart _ :: _ => true
  | _ => false

/-- The recoveries that run. -/
def running (s : Threads RecoveryShared RecoveryFrame) : Nat :=
  s.calls.countP fun stack => Runs stack = true

/-- A thread that has returned, waits for something to do, or runs a recovery. -/
def AtRest : List RecoveryFrame → Prop
  | [] | [.entrance] | [.worker] | .dataRecoveryStart _ :: _ => True
  | _ => False

/-- No thread is in the middle of a call, other than in a recovery that runs. -/
def Settled (s : Threads RecoveryShared RecoveryFrame) : Prop :=
  ∀ stack ∈ s.calls, AtRest stack

instance : DecidablePred AtRest := by
  intro stack
  induction stack using List.casesOn with
  | nil => exact isTrue trivial
  | cons frame tail =>
      induction frame using RecoveryFrame.casesOn <;> induction tail using List.casesOn <;>
        first | exact isTrue trivial | exact isFalse id

instance (s : Threads RecoveryShared RecoveryFrame) : Decidable (Settled s) := by
  unfold Settled
  infer_instance

/-- A recovery that is needed is queued, one recovery runs at a time, and the flag is set
while it does. -/
structure RecoveryKept (myself : Nat) (s : Threads RecoveryShared RecoveryFrame) : Prop where
  queued : Settled s → running s = 0 → s.shared.Needs myself → 0 < s.shared.queue ∨ 0 < s.shared.pool
  single : running s ≤ 1
  flagged : Settled s → (s.shared.inProgress = true ↔ running s = 1)

/-- Every recovery that runs holds the flag. -/
theorem running_le_held (s : Threads RecoveryShared RecoveryFrame) :
    running s ≤ s.frames.countP (fun frame => frame.holds = true) := by
  rw [Threads.frames, Multiset.coe_countP]
  unfold running
  induction s.calls with
  | nil => exact Nat.zero_le _
  | cons stack rest ih =>
      rw [List.countP_cons, List.flatten_cons, List.countP_append, Nat.add_comm]
      refine Nat.add_le_add ?_ ih
      cases stack with
      | nil => exact Nat.zero_le _
      | cons frame behind =>
          cases frame with
          | dataRecoveryStart old =>
              rw [List.countP_cons]
              exact Nat.le_add_left _ _
          | _ => exact Nat.zero_le _

/-- At rest only a recovery that runs asks again. -/
theorem runs_of_asks {myself : Nat} {status : FSDataServerStatus} {stack : List RecoveryFrame}
    (atRest : AtRest stack) {frame : RecoveryFrame} (member : frame ∈ stack)
    (asks : frame.Asks myself status) : Runs stack = true := by
  unfold AtRest at atRest
  split at atRest
  · cases member
  · rw [List.mem_singleton.mp member] at asks
    cases asks
  · rw [List.mem_singleton.mp member] at asks
    cases asks
  · rfl
  · cases atRest

/-- At rest only a recovery that runs holds the flag. -/
theorem runs_of_holds {stack : List RecoveryFrame} (atRest : AtRest stack) {frame : RecoveryFrame}
    (member : frame ∈ stack) (holds : frame.holds = true) : Runs stack = true := by
  unfold AtRest at atRest
  split at atRest
  · cases member
  · rw [List.mem_singleton.mp member] at holds
    cases holds
  · rw [List.mem_singleton.mp member] at holds
    cases holds
  · rfl
  · cases atRest

theorem RecoveryInvariant.recoveryKept {myself : Nat} {s : Threads RecoveryShared RecoveryFrame}
    (inv : RecoveryInvariant myself s.shared s.frames) : RecoveryKept myself s := by
  have stack_of_mem : ∀ {frame}, frame ∈ s.frames → ∃ stack ∈ s.calls, frame ∈ stack := by
    intro frame member
    exact List.mem_flatten.mp (Multiset.mem_coe.mp member)
  have runs : ∀ {stack}, stack ∈ s.calls → Runs stack = true → 0 < running s :=
    fun member isRunning => List.countP_pos_iff.mpr ⟨_, member, by simpa using isRunning⟩
  have single : running s ≤ 1 :=
    (running_le_held s).trans (inv.held.trans_le (Bool.toNat_le _))
  constructor
  · intro settled none needs
    rcases inv.asked needs with queued | pooled | ⟨frame, member, asks⟩
    · exact Or.inl queued
    · exact Or.inr pooled
    · obtain ⟨stack, stackMember, inside⟩ := stack_of_mem member
      have found := runs stackMember (runs_of_asks (settled stack stackMember) inside asks)
      omega
  · exact single
  · intro settled
    constructor
    · intro set
      have held : 0 < s.frames.countP (fun frame => frame.holds = true) := by
        rw [inv.held, set]
        exact Nat.one_pos
      obtain ⟨frame, member, holds⟩ := Multiset.countP_pos.mp held
      obtain ⟨stack, stackMember, inside⟩ := stack_of_mem member
      have found := runs stackMember (runs_of_holds (settled stack stackMember) inside holds)
      omega
    · intro one
      have held := (running_le_held s).trans_eq inv.held
      rw [one] at held
      cases flag : s.shared.inProgress with
      | true => rfl
      | false =>
          rw [flag] at held
          cases held

theorem recoveryStarts_plain {stack : List RecoveryFrame}
    (starts : RecoveryStarts stack) : ∀ frame ∈ stack, frame.holds = false := by
  unfold RecoveryStarts at starts
  split at starts
  · simp [RecoveryFrame.holds]
  · simp [RecoveryFrame.holds]
  · simp [RecoveryFrame.holds]
  · simp [RecoveryFrame.holds]
  · simp [RecoveryFrame.holds]
  · simp [RecoveryFrame.holds]
  · cases starts

/-- In every run in which the holder of the flag asks again whenever a request is dropped
because of it, and a leader's report does not take the data server out a second time, no
recovery is forgotten. -/
theorem recovery_kept {myself : Nat} {s : Threads RecoveryShared RecoveryFrame}
    (reached : Reachable ((Threads.Step (recoveryProgram myself)).guarded
      (Threads.Meets (RecoveryShared.Retained myself))) RecoveryStart s) :
    RecoveryKept myself s := by
  apply RecoveryInvariant.recoveryKept
  refine Threads.invariant ?_ ?_ ?_ reached
  · intro s start
    constructor
    · exact fun needs => absurd start.master needs.2.1
    · rw [start.inProgress, Threads.frames, start.calls]
      rfl
  · intro shared frames stack inv starts
    constructor
    · intro needs
      rcases inv.asked needs with queued | pooled | ⟨frame, member, asks⟩
      · exact Or.inl queued
      · exact Or.inr (Or.inl pooled)
      · exact Or.inr (Or.inr ⟨frame, Multiset.mem_add.mpr (Or.inr member), asks⟩)
    · have plain : (stack : Multiset RecoveryFrame).countP (fun frame => frame.holds = true) = 0 := by
        rw [Multiset.countP_eq_zero]
        intro frame member
        simp [recoveryStarts_plain starts frame member]
      rw [Multiset.countP_add, plain, Nat.zero_add]
      exact inv.held
  · intro shared frame others choice inv retained enabled
    exact inv.exec retained enabled

/-- Server 1, a follower, has started with an outdated data server. -/
def startedOffline : Threads RecoveryShared RecoveryFrame :=
  ⟨⟨.offline, none, fun _ => false, 0, 0, false⟩, [[.entrance]]⟩

theorem recoveryStart_startedOffline : RecoveryStart startedOffline :=
  ⟨rfl, fun _ => rfl, rfl, rfl, rfl, rfl⟩

/-- The threads run in turn, each one operation. -/
def inTurn (turns : List (List RecoveryFrame)) : List (ThreadAction RecoveryFrame RecoveryChoice) :=
  turns.map fun stack => .run stack ⟨false, true, .eio⟩

/-- The leader pushes that server 0 is the master; my data server is queued, and a task
comes to the swap of the status. -/
def toSwap : List (ThreadAction RecoveryFrame RecoveryChoice) :=
  .start [.pushEntry 0 .active true] :: .start [.worker] :: inTurn [
    [.pushEntry 0 .active true], [.pushStatus 0 .active true, .pushMaster 0 true],
    [.pushMaster 0 true], [.setIsMaster 0 true, .pushFlag 0 none], [.pushFlag 0 none],
    [.changeMaster none (some 0)], [.onMasterChange none (some 0)], [.checkStatus],
    [.checkMaster], [.push], [.entrance], [.deal, .entrance], [.poolRun, .entrance],
    [.worker], [.taskStatus, .worker], [.taskMaster .offline, .worker],
    [.taskAcquire .offline, .worker]]

/-- The recovery fails and is queued again, twice. -/
theorem recovery_kept_after_failure :
    ∃ s : Threads RecoveryShared RecoveryFrame,
      Reachable ((Threads.Step (recoveryProgram 1)).guarded
        (Threads.Meets (RecoveryShared.Retained 1))) RecoveryStart s ∧
        Settled s ∧ running s = 0 ∧ s.shared.Needs 1 ∧ s.shared.queue = 2 ∧ RecoveryKept 1 s := by
  have initial : Reachable ((Threads.Step (recoveryProgram 1)).guarded
      (Threads.Meets (RecoveryShared.Retained 1))) RecoveryStart startedOffline :=
    .start recoveryStart_startedOffline
  have run := initial.followMeeting (toSwap ++ inTurn [
    [.taskSwap .offline, .worker],
    [.onStatusChange .recovering, .report .offline .recovering, .dataRecoveryStart .offline, .worker],
    [.report .offline .recovering, .dataRecoveryStart .offline, .worker],
    [.dataRecoveryStart .offline, .worker], [.taskDone .offline .eio, .worker],
    [.setStatus .recovering .offline true, .release true, .worker],
    [.onStatusChange .offline, .report .recovering .offline, .release true, .worker],
    [.push, .report .recovering .offline, .release true, .worker],
    [.report .recovering .offline, .release true, .worker], [.release true, .worker],
    [.checkStatus, .worker], [.checkMaster, .worker], [.push, .worker]]) (by decide +kernel)
  exact ⟨_, run, by decide +kernel, by decide +kernel, by decide +kernel, by decide +kernel,
    recovery_kept run⟩

/-- While the task is before the swap, server 1 becomes master and loses it again: the swap
fails, the new requests find the flag set, and the task gives up. -/
theorem recovery_forgotten_behind_flag :
    ¬ ∀ (myself : Nat) (s : Threads RecoveryShared RecoveryFrame),
      Reachable (Threads.Step (recoveryProgram myself)) RecoveryStart s → RecoveryKept myself s := by
  intro claimed
  have initial : Reachable (Threads.Step (recoveryProgram 1)) RecoveryStart startedOffline :=
    .start recoveryStart_startedOffline
  have run := initial.follow (toSwap ++ .start [.pushEntry 1 .offline true] :: inTurn [
    [.pushEntry 1 .offline true], [.pushStatus 1 .offline true, .pushMaster 1 true],
    [.pushMaster 1 true], [.setIsMaster 1 true, .pushFlag 1 (some 0)], [.pushFlag 1 (some 0)],
    [.setIsMaster 0 false, .changeMaster (some 0) (some 1)], [.changeMaster (some 0) (some 1)],
    [.onMasterChange (some 0) (some 1)], [.setStatus .offline .active true],
    [.onStatusChange .active, .report .offline .active], [.report .offline .active],
    [.taskSwap .offline, .worker]] ++ .start [.pushEntry 0 .active true] :: inTurn [
    [.pushEntry 0 .active true], [.pushStatus 0 .active true, .pushMaster 0 true],
    [.pushMaster 0 true], [.setIsMaster 0 true, .pushFlag 0 (some 1)], [.pushFlag 0 (some 1)],
    [.setIsMaster 1 false, .changeMaster (some 1) (some 0)], [.changeMaster (some 1) (some 0)],
    [.onMasterChange (some 1) (some 0)], [.setStatus .active .offline true, .checkStatus],
    [.onStatusChange .offline, .report .active .offline, .checkStatus],
    [.push, .report .active .offline, .checkStatus], [.report .active .offline, .checkStatus],
    [.checkStatus], [.checkMaster], [.push],
    [.entrance], [.deal, .entrance], [.poolRun, .entrance],
    [.entrance], [.deal, .entrance], [.poolRun, .entrance]] ++ .start [.worker] :: inTurn [
    [.worker], [.taskStatus, .worker], [.taskMaster .offline, .worker],
    [.taskAcquire .offline, .worker],
    [.worker], [.taskStatus, .worker], [.taskMaster .offline, .worker],
    [.taskAcquire .offline, .worker], [.release false, .worker]]) (by decide +kernel)
  rcases (claimed 1 _ run).queued (by decide +kernel) (by decide +kernel) (by decide +kernel) with
    queued | pooled
  · exact absurd queued (by decide +kernel)
  · exact absurd pooled (by decide +kernel)

end FastStore.Recovery
