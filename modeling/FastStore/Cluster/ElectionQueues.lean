import FastStore.Cluster.MasterElection

/-!
# No group is forgotten

A flag is set by the thread that goes on to push the group and cleared by the thread
that took the group out.  Counting, for each group, the places where it is or is about
to be gives each flag its value at any time.  A group without master is always in a
queue or in the hands of a thread, except when the election thread gives it back while
the thread that took it from the delay queue has not cleared its flag yet, or when the
election ends in an error.
-/

namespace FastStore.Cluster

open FastStore.Util

/-! ## Flags and places -/

/-- A group that the election thread has taken and whose flag it has not cleared. -/
def SelectPoint.held : SelectPoint → Nat → Nat
  | .popped group, other | .counted group, other => if group = other then 1 else 0
  | _, _ => 0

/-- A group that the election thread has taken and not counted. -/
def SelectPoint.uncounted : SelectPoint → Nat
  | .popped _ => 1
  | _ => 0

/-- The groups taken from the delay queue whose flags are still set. -/
def RelationshipPoint.delayed : RelationshipPoint → List Nat
  | .deal todo => todo
  | .clear group rest => group :: rest
  | _ => []

/-- Each flag is set for the one place a group has in its queue or on the way into it
or out of it, and the counter is the length of the queue but for the threads at work. -/
structure Balanced (queues : ElectionQueues) (calls : List QueueCall) (held : Nat → Nat)
    (uncounted : Nat) (delayed : List Nat) : Prop where
  inQueue : ∀ group, (queues.inQueue group).toNat =
    queues.queue.count group + calls.count (.queuePush group) + held group
  inDelayQueue : ∀ group, (queues.inDelayQueue group).toNat =
    queues.delayQueue.count group + calls.count (.delayPush group) + delayed.count group
  waiting : queues.waitingCount + calls.count .queueCount = queues.queue.length + uncounted

namespace Balanced

variable {queues : ElectionQueues} {calls others : List QueueCall} {call : QueueCall}
  {held : Nat → Nat} {uncounted : Nat} {delayed : List Nat}

theorem perm (balanced : Balanced queues calls held uncounted delayed) (same : calls.Perm others) :
    Balanced queues others held uncounted delayed := by
  constructor
  · intro group
    rw [← same.count_eq]
    exact balanced.inQueue group
  · intro group
    rw [← same.count_eq]
    exact balanced.inDelayQueue group
  · rw [← same.count_eq]
    exact balanced.waiting

/-- The counts of the calls are what matters. -/
theorem of_count (balanced : Balanced queues calls held uncounted delayed)
    (push : ∀ group, others.count (.queuePush group) = calls.count (.queuePush group))
    (delay : ∀ group, others.count (.delayPush group) = calls.count (.delayPush group))
    (count : others.count .queueCount = calls.count .queueCount) :
    Balanced queues others held uncounted delayed := by
  constructor
  · intro group
    rw [push]
    exact balanced.inQueue group
  · intro group
    rw [delay]
    exact balanced.inDelayQueue group
  · rw [count]
    exact balanced.waiting

theorem count_update (flags : Nat → Bool) (group other : Nat) (value : Bool) :
    (Function.update flags group value other).toNat =
      if other = group then value.toNat else (flags other).toNat := by
  by_cases same : other = group
  · simp [same]
  · simp [same]

/-- A queue call keeps the balance: what it sets or pushes is its own place. -/
theorem advance (balanced : Balanced queues (call :: others) held uncounted delayed) :
    Balanced (queues.advance call).1 ((queues.advance call).2.toList ++ others) held uncounted
      delayed := by
  obtain ⟨inQueue, inDelayQueue, waiting⟩ := balanced
  cases call with
  | queueTest group =>
      simp only [ElectionQueues.advance]
      split_ifs with taken
      · exact ⟨by simpa using inQueue, by simpa using inDelayQueue, by simpa using waiting⟩
      · refine ⟨fun other => ?_, by simpa using inDelayQueue, by simpa using waiting⟩
        have before := inQueue other
        by_cases same : other = group
        · simp [same, taken] at before ⊢
          omega
        · simpa [same, Ne.symm same] using before
  | queuePush group =>
      simp only [ElectionQueues.advance]
      refine ⟨fun other => ?_, by simpa using inDelayQueue, ?_⟩
      · have before := inQueue other
        by_cases same : other = group
        · simp [same] at before ⊢
          omega
        · simpa [same, Ne.symm same] using before
      · simp at waiting ⊢
        omega
  | queueCount =>
      simp only [ElectionQueues.advance]
      refine ⟨by simpa using inQueue, by simpa using inDelayQueue, ?_⟩
      simp at waiting ⊢
      omega
  | delayTest group =>
      simp only [ElectionQueues.advance]
      split_ifs with taken
      · exact ⟨by simpa using inQueue, by simpa using inDelayQueue, by simpa using waiting⟩
      · refine ⟨by simpa using inQueue, fun other => ?_, by simpa using waiting⟩
        have before := inDelayQueue other
        by_cases same : other = group
        · simp [same, taken] at before ⊢
          omega
        · simpa [same, Ne.symm same] using before
  | delayPush group =>
      simp only [ElectionQueues.advance]
      refine ⟨by simpa using inQueue, fun other => ?_, by simpa using waiting⟩
      have before := inDelayQueue other
      by_cases same : other = group
      · simp [same] at before ⊢
        omega
      · simpa [same, Ne.symm same] using before

/-- A flag that is set has its place. -/
theorem place_of_inQueue (balanced : Balanced queues calls held uncounted delayed) {group : Nat}
    (flag : queues.inQueue group = true) :
    group ∈ queues.queue ∨ .queuePush group ∈ calls ∨ 0 < held group := by
  have place := balanced.inQueue group
  rw [flag] at place
  by_contra nowhere
  simp only [not_or] at nowhere
  obtain ⟨notQueued, notPushed, notHeld⟩ := nowhere
  rw [List.count_eq_zero_of_not_mem notQueued, List.count_eq_zero_of_not_mem notPushed] at place
  simp at place
  omega

theorem place_of_inDelayQueue (balanced : Balanced queues calls held uncounted delayed)
    {group : Nat} (flag : queues.inDelayQueue group = true) :
    group ∈ queues.delayQueue ∨ .delayPush group ∈ calls ∨ group ∈ delayed := by
  have place := balanced.inDelayQueue group
  rw [flag] at place
  by_contra nowhere
  simp only [not_or] at nowhere
  obtain ⟨notQueued, notPushed, notHeld⟩ := nowhere
  rw [List.count_eq_zero_of_not_mem notQueued, List.count_eq_zero_of_not_mem notPushed,
    List.count_eq_zero_of_not_mem notHeld] at place
  cases place

end Balanced

/-! ## Groups on their way -/

/-- A queue call about a group: it ends with the group in a queue, or finds it there. -/
def QueueCall.About (group : Nat) : QueueCall → Prop
  | .queueTest other | .queuePush other | .delayTest other | .delayPush other => other = group
  | .queueCount => False

/-- The election thread has the group and will try to elect its master. -/
def SelectPoint.About (group : Nat) : SelectPoint → Prop
  | .popped other | .counted other | .check other | .select other | .chosen other _ =>
      other = group
  | .stopped | .waiting | .installed _ _ => False

/-- The relationship thread will still come to the group. -/
def RelationshipPoint.About (group : Nat) : RelationshipPoint → Prop
  | .idle => False
  | .deal todo => group ∈ todo
  | .clear _ rest => group ∈ rest
  | .unset other | .unsetMaster other _ | .unsetFlag other _ => other ≤ group

/-- The group whose flag the relationship thread clears next. -/
def RelationshipPoint.clearing : RelationshipPoint → Option Nat
  | .clear group _ => some group
  | _ => none

namespace MasterState

variable (config : ElectionConfig) (s : MasterState)

/-- The queue calls under way. -/
def calls : List QueueCall :=
  s.select.call.toList ++ (s.relationship.call.toList ++ s.topology.filterMap Actor.call)

/-- The group is in a queue or in the hands of a thread. -/
inductive Covered (group : Nat) : Prop where
  | queued (member : group ∈ s.queues.queue)
  | delayed (member : group ∈ s.queues.delayQueue)
  | called (call : QueueCall) (member : call ∈ s.calls) (about : call.About group)
  | selecting (about : s.select.point.About group)
  | related (about : s.relationship.point.About group)

/-- The relationship thread has dealt with the group and not cleared its flag. -/
def Requeued (group : Nat) : Prop :=
  s.relationship.point.clearing = some group ∧
    s.relationship.call ≠ some (.queueTest group) ∧ s.relationship.call ≠ some (.queuePush group)

instance (group : Nat) : Decidable (s.Requeued group) := inferInstanceAs (Decidable (_ ∧ _))

/-- The election thread finds no error, and gives no group back to the delay queue whose
flag is about to be cleared. -/
def Remembered : MasterAction → Prop
  | .select outcome =>
      match s.select with
      | ⟨some (.delayTest group), _⟩ => ¬ s.Requeued group
      | ⟨none, .select _⟩ => outcome ≠ .failed
      | _ => True
  | _ => True

instance (action : MasterAction) : Decidable (s.Remembered action) := by
  induction action using MasterAction.casesOn with
  | select outcome =>
      dsimp only [Remembered]
      generalize s.select = actor
      induction actor using Actor.casesOn with | mk call point => ?_
      induction call using Option.casesOn with
      | none =>
          induction point using SelectPoint.casesOn with
          | select => dsimp only; infer_instance
          | _ => exact isTrue trivial
      | some call =>
          induction call using QueueCall.casesOn with
          | delayTest group => dsimp only; infer_instance
          | _ => exact isTrue trivial
  | _ => exact isTrue trivial

/-- Flags and counter are in balance, and no group without master is forgotten. -/
structure QueueInvariant : Prop where
  balanced : Balanced s.queues s.calls s.select.point.held s.select.point.uncounted
    s.relationship.point.delayed
  covered : ∀ group < config.groupCount, s.master group = none → s.Covered group
  delays : ∀ group, s.relationship.call = some (.delayTest group) →
    ∃ other, s.relationship.point = .unset other
  network : ∀ actor ∈ s.topology, ∀ group, actor.call ≠ some (.delayTest group)

end MasterState

section Advance

variable {queues : ElectionQueues} {call : QueueCall} {group : Nat}

/-- A queue call takes nothing out. -/
theorem mem_queue_advance (member : group ∈ queues.queue) :
    group ∈ (queues.advance call).1.queue := by
  unfold ElectionQueues.advance
  cases call with
  | queueTest | delayTest =>
      dsimp only
      split_ifs <;> exact member
  | queuePush => exact List.mem_append_left _ member
  | queueCount | delayPush => exact member

theorem mem_delayQueue_advance (member : group ∈ queues.delayQueue) :
    group ∈ (queues.advance call).1.delayQueue := by
  unfold ElectionQueues.advance
  cases call with
  | queueTest | delayTest =>
      dsimp only
      split_ifs <;> exact member
  | queuePush | queueCount => exact member
  | delayPush => exact List.mem_append_left _ member

/-- A call about a group goes on, ends in a queue, or finds the flag set. -/
theorem about_advance (queues : ElectionQueues) (about : call.About group) :
    (∃ later ∈ (queues.advance call).2.toList, later.About group) ∨
      group ∈ (queues.advance call).1.queue ∨ group ∈ (queues.advance call).1.delayQueue ∨
      (call = .queueTest group ∧ queues.inQueue group = true) ∨
      (call = .delayTest group ∧ queues.inDelayQueue group = true) := by
  cases call with
  | queueTest other =>
      obtain rfl : other = group := about
      by_cases taken : queues.inQueue other = true
      · exact Or.inr (Or.inr (Or.inr (Or.inl ⟨rfl, taken⟩)))
      · refine Or.inl ⟨.queuePush other, ?_, rfl⟩
        simp [ElectionQueues.advance, taken]
  | queuePush other =>
      obtain rfl : other = group := about
      refine Or.inr (Or.inl ?_)
      simp [ElectionQueues.advance]
  | queueCount => cases about
  | delayTest other =>
      obtain rfl : other = group := about
      by_cases taken : queues.inDelayQueue other = true
      · exact Or.inr (Or.inr (Or.inr (Or.inr ⟨rfl, taken⟩)))
      · refine Or.inl ⟨.delayPush other, ?_, rfl⟩
        simp [ElectionQueues.advance, taken]
  | delayPush other =>
      obtain rfl : other = group := about
      refine Or.inr (Or.inr (Or.inl ?_))
      simp [ElectionQueues.advance]

theorem advance_ne_delayTest (queues : ElectionQueues) (call : QueueCall) (group : Nat) :
    (queues.advance call).2 ≠ some (.delayTest group) := by
  unfold ElectionQueues.advance
  cases call with
  | queueTest | delayTest =>
      dsimp only
      split_ifs <;> simp
  | queuePush | queueCount | delayPush => simp

theorem SelectPoint.about_of_held {point : SelectPoint} (held : 0 < point.held group) :
    point.About group := by
  cases point with
  | popped other | counted other =>
      simp only [SelectPoint.held] at held
      split_ifs at held with same
      · exact same
      · cases held
  | stopped | waiting | check | select | chosen | installed => cases held

end Advance

namespace MasterState

variable {config : ElectionConfig} {s after : MasterState} {group : Nat} {call : QueueCall}
  {others : List QueueCall}

theorem mem_calls_of_relationship (held : s.relationship.call = some call) : call ∈ s.calls := by
  simp [calls, held]

/-- A group taken from the delay queue is still to be dealt with, is being pushed, or has
only its flag left. -/
theorem about_of_delayed (taken : group ∈ s.relationship.point.delayed) :
    s.relationship.point.About group ∨ s.Requeued group ∨
      ∃ own, s.relationship.call = some own ∧ own.About group ∧
        ∀ other, own ≠ .delayTest other := by
  cases point : s.relationship.point with
  | deal todo =>
      rw [point] at taken
      exact Or.inl taken
  | clear other rest =>
      rw [point] at taken
      rcases List.mem_cons.mp taken with rfl | later
      · by_cases test : s.relationship.call = some (.queueTest group)
        · exact Or.inr (Or.inr ⟨_, test, rfl, nofun⟩)
        · by_cases push : s.relationship.call = some (.queuePush group)
          · exact Or.inr (Or.inr ⟨_, push, rfl, nofun⟩)
          · exact Or.inr (Or.inl ⟨by rw [point]; rfl, test, push⟩)
      · exact Or.inl later
  | idle | unset | unsetMaster | unsetFlag =>
      rw [point] at taken
      cases taken

/-- A step of a queue call leaves no group behind, unless it trusts a flag that is about
to be cleared. -/
theorem Covered.advance (covered : s.Covered group)
    (balanced : Balanced s.queues s.calls s.select.point.held s.select.point.uncounted
      s.relationship.point.delayed)
    (before : s.calls.Perm (call :: others))
    (remembered : ∀ group, call = .delayTest group → ¬ s.Requeued group)
    (queues : after.queues = (s.queues.advance call).1)
    (calls : after.calls.Perm ((s.queues.advance call).2.toList ++ others))
    (select : after.select.point = s.select.point)
    (relationship : after.relationship.point = s.relationship.point) : after.Covered group := by
  have ofOthers : ∀ other ∈ s.calls, other ≠ call → other.About group → after.Covered group := by
    intro other member distinct about
    refine .called other (calls.mem_iff.mpr (List.mem_append_right _ ?_)) about
    rcases List.mem_cons.mp (before.mem_iff.mp member) with same | rest
    · exact absurd same distinct
    · exact rest
  have ofQueue : group ∈ s.queues.queue → after.Covered group :=
    fun member => .queued (queues ▸ mem_queue_advance member)
  have ofDelayQueue : group ∈ s.queues.delayQueue → after.Covered group :=
    fun member => .delayed (queues ▸ mem_delayQueue_advance member)
  cases covered with
  | queued member => exact ofQueue member
  | delayed member => exact ofDelayQueue member
  | selecting about => exact .selecting (select ▸ about)
  | related about => exact .related (relationship ▸ about)
  | called other member about =>
      by_cases same : other = call
      · subst same
        rcases about_advance s.queues about with
          ⟨later, next, laterAbout⟩ | queued | delayed | ⟨rfl, flag⟩ | ⟨rfl, flag⟩
        · exact .called later (calls.mem_iff.mpr (List.mem_append_left _ next)) laterAbout
        · exact .queued (queues ▸ queued)
        · exact .delayed (queues ▸ delayed)
        · rcases balanced.place_of_inQueue flag with queued | pushed | held
          · exact ofQueue queued
          · exact ofOthers _ pushed nofun rfl
          · exact .selecting (select ▸ SelectPoint.about_of_held held)
        · rcases balanced.place_of_inDelayQueue flag with queued | pushed | taken
          · exact ofDelayQueue queued
          · exact ofOthers _ pushed nofun rfl
          · rcases about_of_delayed taken with later | requeued | ⟨own, held, ownAbout, distinct⟩
            · exact .related (relationship ▸ later)
            · exact absurd requeued (remembered group rfl)
            · exact ofOthers own (mem_calls_of_relationship held) (distinct group) ownAbout
      · exact ofOthers other member same about

/-! ## The election thread -/

namespace QueueInvariant

/-- The election thread inside a queue call. -/
theorem selectCall (inv : s.QueueInvariant config) (held : s.select.call = some call)
    (remembered : ∀ group, call = .delayTest group → ¬ s.Requeued group)
    (outcome : SelectOutcome) : (s.advanceSelect outcome).QueueInvariant config := by
  have step : s.advanceSelect outcome = { s with
      queues := (s.queues.advance call).1
      select := ⟨(s.queues.advance call).2, s.select.point⟩ } := by
    simp [advanceSelect, held]
  have before : s.calls =
      call :: (s.relationship.call.toList ++ s.topology.filterMap Actor.call) := by
    simp [calls, held]
  have balanced := inv.balanced
  rw [before] at balanced
  rw [step]
  constructor
  · exact balanced.advance
  · intro group bound without
    exact (inv.covered group bound without).advance inv.balanced (List.Perm.of_eq before)
      remembered rfl (List.Perm.refl _) rfl rfl
  · exact inv.delays
  · exact inv.network

/-- The election thread moves on and nothing else changes. -/
theorem movedSelect {point : SelectPoint} {flags : Nat → Nat → Bool} {master : Nat → Option Nat}
    (inv : s.QueueInvariant config) (idle : s.select.call = none)
    (held : point.held = s.select.point.held)
    (uncounted : point.uncounted = s.select.point.uncounted)
    (kept : ∀ group, master group = none → s.master group = none ∧
      (s.select.point.About group → point.About group)) :
    QueueInvariant config { s with
      master := master, isMaster := flags, select := ⟨none, point⟩ } := by
  have same : calls { s with master := master, isMaster := flags, select := ⟨none, point⟩ } =
      s.calls := by
    simp [calls, idle]
  constructor
  · rw [same]
    dsimp only
    rw [held, uncounted]
    exact inv.balanced
  · intro group bound without
    obtain ⟨withoutBefore, about⟩ := kept group without
    cases inv.covered group bound withoutBefore with
    | queued member => exact .queued member
    | delayed member => exact .delayed member
    | called other member otherAbout => exact .called other (same ▸ member) otherAbout
    | selecting selected => exact .selecting (about selected)
    | related later => exact .related later
  · exact inv.delays
  · exact inv.network

/-- The election thread pops a group. -/
theorem popped {rest : List Nat} (inv : s.QueueInvariant config)
    (idle : s.select = ⟨none, .waiting⟩) (queue : s.queues.queue = group :: rest) :
    QueueInvariant config { s with
      queues := { s.queues with queue := rest }, select := ⟨none, .popped group⟩ } := by
  have same : calls { s with
      queues := { s.queues with queue := rest }, select := ⟨none, .popped group⟩ } = s.calls := by
    simp [calls, idle]
  have balanced := inv.balanced
  rw [idle] at balanced
  constructor
  · rw [same]
    constructor
    · intro other
      have before := balanced.inQueue other
      rw [queue, List.count_cons] at before
      simp only [SelectPoint.held, beq_iff_eq] at before ⊢
      omega
    · exact balanced.inDelayQueue
    · have before := balanced.waiting
      rw [queue, List.length_cons] at before
      simp only [SelectPoint.uncounted] at before ⊢
      omega
  · intro other bound without
    cases inv.covered other bound without with
    | queued member =>
        rw [queue] at member
        rcases List.mem_cons.mp member with rfl | behind
        · exact .selecting rfl
        · exact .queued behind
    | delayed member => exact .delayed member
    | called call member about => exact .called call (same ▸ member) about
    | selecting about =>
        rw [idle] at about
        cases about
    | related about => exact .related about
  · exact inv.delays
  · exact inv.network

/-- The election thread counts the group it popped. -/
theorem counted (inv : s.QueueInvariant config) (point : s.select = ⟨none, .popped group⟩) :
    QueueInvariant config { s with
      queues := { s.queues with waitingCount := s.queues.waitingCount - 1 }
      select := ⟨none, .counted group⟩ } := by
  have same : calls { s with
      queues := { s.queues with waitingCount := s.queues.waitingCount - 1 }
      select := ⟨none, .counted group⟩ } = s.calls := by
    simp [calls, point]
  have balanced := inv.balanced
  rw [point] at balanced
  constructor
  · rw [same]
    constructor
    · exact balanced.inQueue
    · exact balanced.inDelayQueue
    · have before := balanced.waiting
      simp only [SelectPoint.uncounted] at before ⊢
      omega
  · intro other bound without
    cases inv.covered other bound without with
    | queued member => exact .queued member
    | delayed member => exact .delayed member
    | called call member about => exact .called call (same ▸ member) about
    | selecting about =>
        rw [point] at about
        exact .selecting about
    | related about => exact .related about
  · exact inv.delays
  · exact inv.network

/-- The election thread clears the flag of the group it took. -/
theorem cleared (inv : s.QueueInvariant config) (point : s.select = ⟨none, .counted group⟩) :
    QueueInvariant config { s with
      queues := { s.queues with inQueue := Function.update s.queues.inQueue group false }
      select := ⟨none, .check group⟩ } := by
  have same : calls { s with
      queues := { s.queues with inQueue := Function.update s.queues.inQueue group false }
      select := ⟨none, .check group⟩ } = s.calls := by
    simp [calls, point]
  have balanced := inv.balanced
  rw [point] at balanced
  constructor
  · rw [same]
    constructor
    · intro other
      have before := balanced.inQueue other
      have flag := Bool.toNat_le (s.queues.inQueue other)
      rw [Balanced.count_update]
      simp only [SelectPoint.held] at before ⊢
      by_cases own : other = group
      · simp only [own, if_true, Bool.toNat_false] at before flag ⊢
        omega
      · simp only [own, Ne.symm own, if_false] at before ⊢
        exact before
    · exact balanced.inDelayQueue
    · exact balanced.waiting
  · intro other bound without
    cases inv.covered other bound without with
    | queued member => exact .queued member
    | delayed member => exact .delayed member
    | called call member about => exact .called call (same ▸ member) about
    | selecting about =>
        rw [point] at about
        exact .selecting about
    | related about => exact .related about
  · exact inv.delays
  · exact inv.network

/-- The election thread gives the group to the delay queue. -/
theorem givenBack (inv : s.QueueInvariant config) (point : s.select = ⟨none, .select group⟩) :
    QueueInvariant config { s with select := ⟨some (.delayTest group), .waiting⟩ } := by
  have more : calls { s with select := ⟨some (.delayTest group), .waiting⟩ } =
      .delayTest group :: s.calls := by
    simp [calls, point]
  have balanced := inv.balanced
  rw [point] at balanced
  constructor
  · rw [more]
    exact balanced.of_count (fun _ => by simp) (fun _ => by simp) (by simp)
  · intro other bound without
    cases inv.covered other bound without with
    | queued member => exact .queued member
    | delayed member => exact .delayed member
    | called call member about =>
        exact .called call (more ▸ List.mem_cons_of_mem _ member) about
    | selecting about =>
        rw [point] at about
        exact .called (.delayTest group) (more ▸ List.mem_cons_self) about
    | related about => exact .related about
  · exact inv.delays
  · exact inv.network

/-- Every step of the election thread. -/
theorem advanceSelect (inv : s.QueueInvariant config) {outcome : SelectOutcome}
    (remembered : s.Remembered (.select outcome)) :
    (s.advanceSelect outcome).QueueInvariant config := by
  cases held : s.select.call with
  | some call =>
      refine inv.selectCall held ?_ outcome
      rintro group rfl
      have actor : s.select = ⟨some (.delayTest group), s.select.point⟩ := by rw [← held]
      unfold Remembered at remembered
      dsimp only at remembered
      rw [actor] at remembered
      exact remembered
  | none =>
      have actor : ∀ point, s.select.point = point → s.select = ⟨none, point⟩ := by
        rintro _ rfl
        rw [← held]
      unfold MasterState.advanceSelect
      simp only [held]
      cases point : s.select.point with
      | stopped => exact inv
      | waiting =>
          dsimp only
          cases queue : s.queues.queue with
          | nil => exact inv
          | cons group rest => exact inv.popped (actor _ point) queue
      | popped group => exact inv.counted (actor _ point)
      | counted group => exact inv.cleared (actor _ point)
      | check group =>
          apply inv.movedSelect held
          · rw [point]
            split_ifs <;> rfl
          · rw [point]
            split_ifs <;> rfl
          · intro other without
            refine ⟨without, fun about => ?_⟩
            rw [point] at about
            obtain rfl : group = other := about
            rw [if_pos without]
            rfl
      | select group =>
          cases outcome with
          | elected server =>
              apply inv.movedSelect held
              · rw [point]
                rfl
              · rw [point]
                rfl
              · intro other without
                rw [point]
                exact ⟨without, id⟩
          | again => exact inv.givenBack (actor _ point)
          | failed =>
              unfold Remembered at remembered
              dsimp only at remembered
              rw [actor _ point] at remembered
              exact absurd rfl remembered
      | chosen group server =>
          dsimp only
          split_ifs with free
          · apply inv.movedSelect held
            · rw [point]
              rfl
            · rw [point]
              rfl
            · intro other without
              have distinct : other ≠ group := by
                rintro rfl
                rw [setMaster_master, Function.update_self] at without
                cases without
              rw [setMaster_master, Function.update_of_ne distinct] at without
              refine ⟨without, fun about => ?_⟩
              rw [point] at about
              exact absurd about.symm distinct
          · apply inv.movedSelect held
            · rw [point]
              rfl
            · rw [point]
              rfl
            · intro other without
              refine ⟨without, fun about => ?_⟩
              rw [point] at about
              obtain rfl : group = other := about
              exact absurd without free
      | installed group server =>
          apply inv.movedSelect held
          · rw [point]
            rfl
          · rw [point]
            rfl
          · intro other without
            rw [point]
            exact ⟨without, id⟩

/-! ## The relationship thread -/

theorem perm_relationship (s : MasterState) :
    s.calls.Perm (s.relationship.call.toList ++
      (s.select.call.toList ++ s.topology.filterMap Actor.call)) :=
  List.perm_append_comm_assoc _ _ _

/-- The relationship thread inside a queue call. -/
theorem relationshipCall (inv : s.QueueInvariant config) (held : s.relationship.call = some call) :
    (s.advanceRelationship config).QueueInvariant config := by
  have step : s.advanceRelationship config = { s with
      queues := (s.queues.advance call).1
      relationship := ⟨(s.queues.advance call).2, s.relationship.point⟩ } := by
    simp [advanceRelationship, held]
  have before := perm_relationship s
  rw [held, Option.toList_some, List.singleton_append] at before
  rw [step]
  have calls := perm_relationship { s with
      queues := (s.queues.advance call).1
      relationship := ⟨(s.queues.advance call).2, s.relationship.point⟩ }
  constructor
  · exact (inv.balanced.perm before).advance.perm calls.symm
  · intro group bound without
    refine (inv.covered group bound without).advance inv.balanced before ?_ rfl calls rfl rfl
    rintro other rfl ⟨clearing, _⟩
    obtain ⟨next, unset⟩ := inv.delays other held
    rw [unset] at clearing
    cases clearing
  · intro other same
    exact absurd same (advance_ne_delayTest s.queues call other)
  · exact inv.network

/-- The relationship thread moves on, into a queue call or past one group, and changes at
most a master and a flag. -/
theorem movedRelationship {point : RelationshipPoint} {next : Option QueueCall}
    {flags : Nat → Nat → Bool} {master : Nat → Option Nat} (inv : s.QueueInvariant config)
    (idle : s.relationship.call = none)
    (test : ∀ call ∈ next, ∃ group, call = .queueTest group ∨ call = .delayTest group)
    (delayed : point.delayed = s.relationship.point.delayed)
    (delays : ∀ group, next = some (.delayTest group) → ∃ other, point = .unset other)
    (kept : ∀ group < config.groupCount, master group = none →
      (s.master group = none ∨ point.About group) ∧
      (s.relationship.point.About group →
        point.About group ∨ ∃ call ∈ next, call.About group)) :
    QueueInvariant config { s with
      master := master, isMaster := flags, relationship := ⟨next, point⟩ } := by
  have more : (calls { s with
      master := master, isMaster := flags, relationship := ⟨next, point⟩ }).Perm
      (next.toList ++ s.calls) := by
    refine (perm_relationship _).trans ?_
    have before := perm_relationship s
    rw [idle] at before
    exact List.Perm.append_left _ before.symm
  constructor
  · refine Balanced.perm ?_ more.symm
    dsimp only
    rw [delayed]
    cases next with
    | none => exact inv.balanced
    | some call =>
        obtain ⟨group, rfl | rfl⟩ := test call rfl
        · exact inv.balanced.of_count (fun _ => by simp) (fun _ => by simp) (by simp)
        · exact inv.balanced.of_count (fun _ => by simp) (fun _ => by simp) (by simp)
  · intro group bound without
    obtain ⟨withoutBefore | own, about⟩ := kept group bound without
    · cases inv.covered group bound withoutBefore with
      | queued member => exact .queued member
      | delayed member => exact .delayed member
      | called call member callAbout =>
          exact .called call (more.mem_iff.mpr (List.mem_append_right _ member)) callAbout
      | selecting selected => exact .selecting selected
      | related later =>
          rcases about later with still | ⟨call, taken, callAbout⟩
          · exact .related still
          · have member : call ∈ next.toList := by simpa using taken
            exact .called call (more.mem_iff.mpr (List.mem_append_left _ member)) callAbout
    · exact .related own
  · exact delays
  · exact inv.network

/-- The relationship thread clears the flag of a group from the delay queue. -/
theorem clearedDelay {rest : List Nat} (inv : s.QueueInvariant config)
    (point : s.relationship = ⟨none, .clear group rest⟩) :
    QueueInvariant config { s with
      queues := { s.queues with
        inDelayQueue := Function.update s.queues.inDelayQueue group false }
      relationship := ⟨none, .deal rest⟩ } := by
  have same : calls { s with
      queues := { s.queues with
        inDelayQueue := Function.update s.queues.inDelayQueue group false }
      relationship := ⟨none, .deal rest⟩ } = s.calls := by
    simp [calls, point]
  have balanced := inv.balanced
  rw [point] at balanced
  constructor
  · rw [same]
    constructor
    · exact balanced.inQueue
    · intro other
      have before := balanced.inDelayQueue other
      have flag := Bool.toNat_le (s.queues.inDelayQueue other)
      rw [Balanced.count_update]
      simp only [RelationshipPoint.delayed, List.count_cons, beq_iff_eq] at before ⊢
      by_cases own : other = group
      · simp only [own, if_true, Bool.toNat_false] at before flag ⊢
        omega
      · simp only [own, Ne.symm own, if_false] at before ⊢
        exact before
    · exact balanced.waiting
  · intro other bound without
    cases inv.covered other bound without with
    | queued member => exact .queued member
    | delayed member => exact .delayed member
    | called call member about => exact .called call (same ▸ member) about
    | selecting about => exact .selecting about
    | related about =>
        rw [point] at about
        exact .related about
  · exact nofun
  · exact inv.network

/-- The push of the loop over all groups, with the master of the group unset or not. -/
theorem pushedUnset {flags : Nat → Nat → Bool} (inv : s.QueueInvariant config)
    (idle : s.relationship.call = none) (none' : s.relationship.point.delayed = [])
    (about : ∀ other, s.relationship.point.About other ↔ group ≤ other) :
    QueueInvariant config (pushUnset config { s with isMaster := flags } group) := by
  have test : ∀ call : QueueCall,
      call ∈ some (if config.isSingle group = true then QueueCall.queueTest group
        else .delayTest group) → call.About group ∧
        ∃ group, call = .queueTest group ∨ call = .delayTest group := by
    rintro _ ⟨⟩
    split_ifs
    · exact ⟨rfl, group, Or.inl rfl⟩
    · exact ⟨rfl, group, Or.inr rfl⟩
  apply inv.movedRelationship idle
  · exact fun call taken => (test call taken).2
  · exact none'.symm
  · exact fun _ _ => ⟨group + 1, rfl⟩
  · intro other _ without
    refine ⟨Or.inl without, fun still => ?_⟩
    rcases Nat.lt_or_eq_of_le ((about other).mp still) with later | rfl
    · exact Or.inl later
    · exact Or.inr ⟨_, rfl, (test _ rfl).1⟩

/-- Every step of the relationship thread. -/
theorem advanceRelationship (inv : s.QueueInvariant config) :
    (s.advanceRelationship config).QueueInvariant config := by
  cases held : s.relationship.call with
  | some call => exact inv.relationshipCall held
  | none =>
      have actor : ∀ point, s.relationship.point = point → s.relationship = ⟨none, point⟩ := by
        rintro _ rfl
        rw [← held]
      unfold MasterState.advanceRelationship
      simp only [held]
      cases point : s.relationship.point with
      | idle => exact inv
      | deal todo =>
          cases todo with
          | nil =>
              apply inv.movedRelationship held
              · exact nofun
              · rw [point]
                rfl
              · exact nofun
              · intro group _ without
                rw [point]
                exact ⟨Or.inl without, nofun⟩
          | cons group rest =>
              apply inv.movedRelationship held
              · intro call taken
                split_ifs at taken
                · exact ⟨group, Or.inl (Option.some.inj taken).symm⟩
                · cases taken
              · rw [point]
                rfl
              · intro other taken
                split_ifs at taken
                cases taken
              · intro other _ without
                refine ⟨Or.inl without, fun about => ?_⟩
                rw [point] at about
                rcases List.mem_cons.mp about with rfl | later
                · refine Or.inr ⟨.queueTest other, ?_, rfl⟩
                  rw [if_pos without]
                  rfl
                · exact Or.inl later
      | clear group rest => exact inv.clearedDelay (actor _ point)
      | unset group =>
          dsimp only
          split_ifs with bound
          · cases master : s.master group with
            | none =>
                refine inv.pushedUnset held (by rw [point]; rfl) fun other => ?_
                rw [point]
                rfl
            | some server =>
                apply inv.movedRelationship held
                · exact nofun
                · rw [point]
                  rfl
                · exact nofun
                · intro other _ without
                  rw [point]
                  exact ⟨Or.inl without, Or.inl⟩
          · apply inv.movedRelationship held
            · exact nofun
            · rw [point]
              rfl
            · exact nofun
            · intro other otherBound without
              refine ⟨Or.inl without, fun about => ?_⟩
              rw [point] at about
              exact absurd (lt_of_le_of_lt about otherBound) bound
      | unsetMaster group server =>
          dsimp only
          split_ifs with same
          · apply inv.movedRelationship held
            · exact nofun
            · rw [point]
              rfl
            · exact nofun
            · intro other _ without
              rw [point]
              refine ⟨?_, Or.inl⟩
              by_cases own : other = group
              · exact Or.inr own.ge
              · rw [setMaster_master, Function.update_of_ne own] at without
                exact Or.inl without
          · refine inv.pushedUnset held (by rw [point]; rfl) fun other => ?_
            rw [point]
            rfl
      | unsetFlag group server =>
          refine inv.pushedUnset held (by rw [point]; rfl) fun other => ?_
          rw [point]
          rfl

/-! ## The network threads -/

theorem perm_topology {actor : Actor TopologyPoint} (member : actor ∈ s.topology) :
    s.calls.Perm (actor.call.toList ++ (s.select.call.toList ++ (s.relationship.call.toList ++
      (s.topology.erase actor).filterMap Actor.call))) := by
  have split : (s.topology.filterMap Actor.call).Perm
      (actor.call.toList ++ (s.topology.erase actor).filterMap Actor.call) := by
    refine ((List.perm_cons_erase member).filterMap Actor.call).trans ?_
    rw [List.filterMap_cons]
    cases actor.call <;> exact List.Perm.refl _
  refine (List.Perm.append_left _ (List.Perm.append_left _ split)).trans ?_
  refine (List.Perm.append_left _ (List.perm_append_comm_assoc _ _ _)).trans ?_
  exact List.perm_append_comm_assoc _ _ _

/-- A network thread inside a queue call. -/
theorem topologyCall (inv : s.QueueInvariant config) {actor : Actor TopologyPoint}
    (member : actor ∈ s.topology) (held : actor.call = some call) :
    (s.next config (.topology actor)).QueueInvariant config := by
  have step : s.next config (.topology actor) = { s with
      queues := (s.queues.advance call).1
      topology := ⟨(s.queues.advance call).2, actor.point⟩ :: s.topology.erase actor } := by
    simp [next, advanceTopology, held]
  have before := perm_topology member
  rw [held, Option.toList_some, List.singleton_append] at before
  rw [step]
  have calls : (calls { s with
      queues := (s.queues.advance call).1
      topology := ⟨(s.queues.advance call).2, actor.point⟩ :: s.topology.erase actor }).Perm
      ((s.queues.advance call).2.toList ++ (s.select.call.toList ++
        (s.relationship.call.toList ++ (s.topology.erase actor).filterMap Actor.call))) := by
    have split := perm_topology (s := { s with
      queues := (s.queues.advance call).1
      topology := ⟨(s.queues.advance call).2, actor.point⟩ :: s.topology.erase actor })
      List.mem_cons_self
    rw [List.erase_cons_head] at split
    exact split
  constructor
  · exact (inv.balanced.perm before).advance.perm calls.symm
  · intro group bound without
    refine (inv.covered group bound without).advance inv.balanced before ?_ rfl calls rfl rfl
    rintro other rfl
    exact absurd held (inv.network actor member other)
  · exact inv.delays
  · intro other otherMember
    rcases List.mem_cons.mp otherMember with rfl | earlier
    · exact advance_ne_delayTest s.queues call
    · exact inv.network other (List.mem_of_mem_erase earlier)

/-- A network thread between queue calls: it moves on, possibly into a call, and may have
unset the master of the group of that call. -/
theorem movedTopology {actor : Actor TopologyPoint} {next : Option (Actor TopologyPoint)}
    {flags : Nat → Nat → Bool} {master : Nat → Option Nat} (inv : s.QueueInvariant config)
    (member : actor ∈ s.topology) (idle : actor.call = none)
    (test : ∀ later ∈ next, ∀ call ∈ later.call, ∃ group, call = .queueTest group)
    (kept : ∀ group, master group = none → s.master group = none ∨
      ∃ later ∈ next, later.call = some (.queueTest group)) :
    QueueInvariant config { s with
      master := master, isMaster := flags, topology := next.toList ++ s.topology.erase actor } := by
  have more : (calls { s with
      master := master, isMaster := flags
      topology := next.toList ++ s.topology.erase actor }).Perm
      ((next.bind Actor.call).toList ++ s.calls) := by
    have before := perm_topology member
    rw [idle] at before
    refine List.Perm.trans ?_ (List.Perm.append_left _ before.symm)
    cases next with
    | none => exact List.Perm.refl _
    | some later =>
        have split := perm_topology (s := { s with
          master := master, isMaster := flags, topology := later :: s.topology.erase actor })
          List.mem_cons_self
        rw [List.erase_cons_head] at split
        exact split
  have isTest : ∀ call ∈ next.bind Actor.call, ∃ group, call = .queueTest group := by
    intro call taken
    obtain ⟨later, isNext, held⟩ := Option.bind_eq_some_iff.mp taken
    exact test later isNext call held
  constructor
  · refine Balanced.perm ?_ more.symm
    cases called : next.bind Actor.call with
    | none => exact inv.balanced
    | some call =>
        obtain ⟨group, rfl⟩ := isTest call called
        exact inv.balanced.of_count (fun _ => by simp) (fun _ => by simp) (by simp)
  · intro group bound without
    rcases kept group without with before | ⟨later, isNext, held⟩
    · cases inv.covered group bound before with
      | queued member => exact .queued member
      | delayed member => exact .delayed member
      | called call listed about =>
          exact .called call (more.mem_iff.mpr (List.mem_append_right _ listed)) about
      | selecting about => exact .selecting about
      | related about => exact .related about
    · refine .called (.queueTest group) (more.mem_iff.mpr (List.mem_append_left _ ?_)) rfl
      rw [isNext, Option.bind_some, held]
      exact List.mem_singleton_self _
  · exact inv.delays
  · intro other otherMember group
    rcases List.mem_append.mp otherMember with new | earlier
    · intro held
      obtain ⟨test, equal⟩ := test other (by simpa using new) _ held
      cases equal
    · exact inv.network other (List.mem_of_mem_erase earlier) group

/-- Every step of a network thread. -/
theorem advanceTopology (inv : s.QueueInvariant config) {actor : Actor TopologyPoint}
    (member : actor ∈ s.topology) : (s.next config (.topology actor)).QueueInvariant config := by
  cases held : actor.call with
  | some call => exact inv.topologyCall member held
  | none =>
      unfold next MasterState.advanceTopology
      simp only [held]
      cases point : actor.point with
      | activate server todo =>
          cases todo with
          | nil => exact inv.movedTopology member held nofun fun _ without => Or.inl without
          | cons group rest =>
              refine inv.movedTopology member held ?_ fun _ without => Or.inl without
              rintro _ ⟨⟩ call taken
              split_ifs at taken
              · exact ⟨group, (Option.some.inj taken).symm⟩
              · cases taken
      | offline server todo =>
          cases todo with
          | nil => exact inv.movedTopology member held nofun fun _ without => Or.inl without
          | cons group rest =>
              refine inv.movedTopology member held ?_ fun _ without => Or.inl without
              rintro _ ⟨⟩
              exact nofun
      | offlineFlag server group rest =>
          refine inv.movedTopology member held ?_ fun _ without => Or.inl without
          rintro _ ⟨⟩
          exact nofun
      | offlineMaster server group rest =>
          dsimp only
          split_ifs with same
          · refine inv.movedTopology member held ?_ ?_
            · rintro _ ⟨⟩ call ⟨⟩
              exact ⟨group, rfl⟩
            · intro other without
              by_cases own : other = group
              · exact Or.inr ⟨_, rfl, own ▸ rfl⟩
              · rw [setMaster_master, Function.update_of_ne own] at without
                exact Or.inl without
          · refine inv.movedTopology member held ?_ fun _ without => Or.inl without
            rintro _ ⟨⟩
            exact nofun

/-! ## All steps -/

/-- A network thread begins a call. -/
theorem begunTopology {status : Nat → FSServerStatus} {point : TopologyPoint}
    (inv : s.QueueInvariant config) :
    QueueInvariant config { s with status := status, topology := ⟨none, point⟩ :: s.topology } := by
  constructor
  · exact inv.balanced
  · intro group bound without
    cases inv.covered group bound without with
    | queued member => exact .queued member
    | delayed member => exact .delayed member
    | called call member about => exact .called call member about
    | selecting about => exact .selecting about
    | related about => exact .related about
  · exact inv.delays
  · intro actor member group
    rcases List.mem_cons.mp member with rfl | earlier
    · exact nofun
    · exact inv.network actor earlier group

/-- The relationship thread takes all groups from the delay queue. -/
theorem begunDeal (inv : s.QueueInvariant config) (idle : s.relationship = ⟨none, .idle⟩) :
    QueueInvariant config { s with
      queues := { s.queues with delayQueue := [] }
      relationship := ⟨none, .deal s.queues.delayQueue⟩ } := by
  have same : calls { s with
      queues := { s.queues with delayQueue := [] }
      relationship := ⟨none, .deal s.queues.delayQueue⟩ } = s.calls := by
    simp [calls, idle]
  have balanced := inv.balanced
  rw [idle] at balanced
  constructor
  · rw [same]
    constructor
    · exact balanced.inQueue
    · intro group
      have before := balanced.inDelayQueue group
      simp only [RelationshipPoint.delayed, List.count_nil] at before ⊢
      omega
    · exact balanced.waiting
  · intro group bound without
    cases inv.covered group bound without with
    | queued member => exact .queued member
    | delayed member => exact .related member
    | called call member about => exact .called call (same ▸ member) about
    | selecting about => exact .selecting about
    | related about =>
        rw [idle] at about
        cases about
  · exact nofun
  · exact inv.network

theorem next (inv : s.QueueInvariant config) {action : MasterAction}
    (remembered : s.Remembered action) (enabled : s.Enabled config action) :
    (s.next config action).QueueInvariant config := by
  cases action with
  | threadStart =>
      have idle : s.select = ⟨none, .stopped⟩ := enabled
      apply inv.movedSelect (by rw [idle])
      · rw [idle]
        rfl
      · rw [idle]
        rfl
      · intro group without
        rw [idle]
        exact ⟨without, id⟩
  | threadStop =>
      have idle : s.select = ⟨none, .waiting⟩ := enabled.1
      apply inv.movedSelect (by rw [idle])
      · rw [idle]
        rfl
      · rw [idle]
        rfl
      · intro group without
        rw [idle]
        exact ⟨without, id⟩
  | select outcome => exact inv.advanceSelect remembered
  | dealDelayQueue => exact inv.begunDeal enabled
  | unsetAllMasters =>
      have idle : s.relationship = ⟨none, .idle⟩ := enabled
      apply inv.movedRelationship (by rw [idle])
      · exact nofun
      · rw [idle]
        rfl
      · exact nofun
      · intro group _ without
        exact ⟨Or.inl without, fun _ => Or.inl (Nat.zero_le group)⟩
  | relationship => exact inv.advanceRelationship
  | activateServer server => exact inv.begunTopology
  | deactivateServer server =>
      unfold MasterState.next
      dsimp only
      split_ifs
      · exact inv.begunTopology
      · exact inv
  | topology actor => exact inv.advanceTopology enabled

end QueueInvariant

end MasterState

/-- A server that has just become leader and is about to unset all masters.  What is left
in the queues from an earlier time as leader agrees with the flags. -/
structure LeaderStart (s : MasterState) : Prop where
  select : s.select = ⟨none, .stopped⟩ ∨ s.select = ⟨none, .waiting⟩
  relationship : s.relationship = ⟨none, .unset 0⟩
  topology : s.topology = []
  inQueue : ∀ group, (s.queues.inQueue group).toNat = s.queues.queue.count group
  inDelayQueue : ∀ group, (s.queues.inDelayQueue group).toNat = s.queues.delayQueue.count group
  waiting : s.queues.waitingCount = s.queues.queue.length

theorem LeaderStart.queueInvariant {config : ElectionConfig} {s : MasterState}
    (start : LeaderStart s) : s.QueueInvariant config := by
  have selectCall : s.select.call = none := by
    rcases start.select with stopped | waiting
    · rw [stopped]
    · rw [waiting]
  have held : s.select.point.held = fun _ => 0 := by
    rcases start.select with stopped | waiting
    · rw [stopped]
      rfl
    · rw [waiting]
      rfl
  have uncounted : s.select.point.uncounted = 0 := by
    rcases start.select with stopped | waiting
    · rw [stopped]
      rfl
    · rw [waiting]
      rfl
  have calls : s.calls = [] := by
    simp [MasterState.calls, selectCall, start.relationship, start.topology]
  have delayed : s.relationship.point.delayed = [] := by
    rw [start.relationship]
    rfl
  constructor
  · rw [calls, held, uncounted, delayed]
    constructor
    · simpa using start.inQueue
    · simpa using start.inDelayQueue
    · simpa using start.waiting
  · intro group _ _
    refine .related ?_
    rw [start.relationship]
    exact Nat.zero_le group
  · rw [start.relationship]
    exact nofun
  · rw [start.topology]
    exact nofun

/-- Every group without master is in a queue, no group is twice in one, the flags say which
groups are in a queue and the counter how many are in the election queue. -/
structure MasterState.Remembers (config : ElectionConfig) (s : MasterState) : Prop where
  queued : ∀ group < config.groupCount, s.master group = none →
    group ∈ s.queues.queue ∨ group ∈ s.queues.delayQueue
  once : ∀ group, s.queues.queue.count group ≤ 1 ∧ s.queues.delayQueue.count group ≤ 1
  inQueue : ∀ group, s.queues.inQueue group = true ↔ group ∈ s.queues.queue
  inDelayQueue : ∀ group, s.queues.inDelayQueue group = true ↔ group ∈ s.queues.delayQueue
  waiting : s.queues.waitingCount = s.queues.queue.length

/-- A flag that counts the places of a group. -/
theorem flag_iff_mem {flag : Bool} {group : Nat} {queue : List Nat}
    (places : flag.toNat = queue.count group) : flag = true ↔ group ∈ queue := by
  rw [← List.count_pos_iff, ← places]
  cases flag <;> decide

/-- In every run in which no election ends in an error and the election thread gives no
group back whose flag the relationship thread is about to clear, no group is forgotten. -/
theorem groups_remembered {config : ElectionConfig} {s : MasterState}
    (reached : Reachable ((MasterStep config).guarded MasterState.Remembered) LeaderStart s)
    (quiet : s.Quiet) : s.Remembers config := by
  have invariant : s.QueueInvariant config := by
    refine Reachable.invariant ?_ ?_ reached
    · exact fun s start => start.queueInvariant
    · rintro s action _ inv ⟨remembered, enabled, rfl⟩
      exact inv.next remembered enabled
  obtain ⟨balanced, covered, _, _⟩ := invariant
  have calls : s.calls = [] := by
    rcases quiet.select with idle | idle
    · simp [MasterState.calls, idle, quiet.relationship, quiet.topology]
    · simp [MasterState.calls, idle, quiet.relationship, quiet.topology]
  have places : Balanced s.queues [] (fun _ => 0) 0 [] := by
    rw [calls, quiet.relationship] at balanced
    rcases quiet.select with idle | idle
    · rw [idle] at balanced
      exact balanced
    · rw [idle] at balanced
      exact balanced
  have inQueue : ∀ group, (s.queues.inQueue group).toNat = s.queues.queue.count group := by
    simpa using places.inQueue
  have inDelayQueue : ∀ group,
      (s.queues.inDelayQueue group).toNat = s.queues.delayQueue.count group := by
    simpa using places.inDelayQueue
  constructor
  · intro group bound without
    cases covered group bound without with
    | queued member => exact Or.inl member
    | delayed member => exact Or.inr member
    | called call member about =>
        rw [calls] at member
        cases member
    | selecting about =>
        rcases quiet.select with idle | idle
        · rw [idle] at about
          cases about
        · rw [idle] at about
          cases about
    | related about =>
        rw [quiet.relationship] at about
        cases about
  · intro group
    rw [← inQueue, ← inDelayQueue]
    exact ⟨Bool.toNat_le _, Bool.toNat_le _⟩
  · exact fun group => flag_iff_mem (inQueue group)
  · exact fun group => flag_iff_mem (inDelayQueue group)
  · simpa using places.waiting

/-- One group of two servers, both away. -/
def oneGroup : ElectionConfig := ⟨1, fun _ => false, fun _ => [0]⟩

/-- A new leader with one group. -/
def newLeader : MasterState :=
  ⟨fun _ => .offline, fun _ => none, fun _ _ => false,
    ⟨fun _ => false, fun _ => false, [], [], 0⟩, ⟨none, .stopped⟩, ⟨none, .unset 0⟩, []⟩

theorem leaderStart_newLeader : LeaderStart newLeader :=
  ⟨Or.inl rfl, rfl, rfl, fun _ => rfl, fun _ => rfl, rfl⟩

/-- The group is delayed and comes back to the election queue, its flag still set. -/
def delayAndRequeue : List MasterAction :=
  [.relationship, .relationship, .relationship, .relationship, .threadStart, .dealDelayQueue,
    .relationship, .relationship, .relationship, .relationship]

/-- The election is tried again and the group is back in the delay queue. -/
theorem groups_remembered_after_retry :
    ∃ s : MasterState,
      Reachable ((MasterStep oneGroup).guarded MasterState.Remembered) LeaderStart s ∧
        s.Quiet ∧ s.queues.delayQueue = [0] ∧ s.Remembers oneGroup := by
  have initial : Reachable ((MasterStep oneGroup).guarded MasterState.Remembered) LeaderStart
      newLeader := .start leaderStart_newLeader
  have run := initial.followMeeting (delayAndRequeue ++ [.relationship, .relationship,
    .select .again, .select .again, .select .again, .select .again, .select .again,
    .select .again, .select .again]) (by decide +kernel)
  exact ⟨_, run, ⟨Or.inr rfl, rfl, rfl⟩, by decide +kernel,
    groups_remembered run ⟨Or.inr rfl, rfl, rfl⟩⟩

/-- The election thread gives the group back before its flag is cleared. -/
theorem group_forgotten_behind_flag :
    ¬ ∀ (config : ElectionConfig) (s : MasterState),
      Reachable (MasterStep config) LeaderStart s → s.Quiet → s.Remembers config := by
  intro claimed
  have initial : Reachable (MasterStep oneGroup) LeaderStart newLeader :=
    .start leaderStart_newLeader
  have run := initial.follow (delayAndRequeue ++ [.select .again, .select .again, .select .again,
    .select .again, .select .again, .select .again, .relationship, .relationship]) (by decide +kernel)
  have remembers := claimed oneGroup _ run ⟨Or.inr rfl, rfl, rfl⟩
  rcases remembers.queued 0 (by decide) rfl with queued | delayed
  · cases queued
  · cases delayed

end FastStore.Cluster
