import Mathlib

/-!
# Error numbers and labelled transition systems

The modelled functions return the `errno` values of the C library.  A concurrent
component is a labelled step relation: a label names the actor and its choice,
and a run is a sequence of labelled steps from an initial state.  Restricting a
system to the steps that meet a condition is how a result about "every run whose
steps all meet the condition" is stated.
-/

namespace FastStore.Util

/-- The result of a C function: `ok` is zero, every other value an `errno`. -/
inductive Errno where
  | ok | eperm | enoent | eintr | eio | eagain | enomem | eacces | ebusy | eexist
  | einval | enospc | enodata | eoverflow | etimedout
  deriving DecidableEq, Repr

/-- A labelled step relation. -/
abbrev StepRel (σ α : Type) := σ → α → σ → Prop

/-- States reached from `init` by the steps of `step`. -/
inductive Reachable {σ α : Type} (step : StepRel σ α) (init : σ → Prop) : σ → Prop where
  | start {s : σ} : init s → Reachable step init s
  | next {s s' : σ} (label : α) :
      Reachable step init s → step s label s' → Reachable step init s'

/-- The steps of a system that meet a condition on the state before the step and
the label. -/
def StepRel.guarded {σ α : Type} (step : StepRel σ α) (condition : σ → α → Prop) :
    StepRel σ α :=
  fun s label s' => condition s label ∧ step s label s'

/-- A system whose labels determine the next state: when a label can be taken, and
where it leads. -/
def StepRel.ofNext {σ α : Type} (enabled : σ → α → Prop) (next : σ → α → σ) : StepRel σ α :=
  fun s label s' => enabled s label ∧ s' = next s label

theorem Reachable.act {σ α : Type} {enabled : σ → α → Prop} {next : σ → α → σ}
    {init : σ → Prop} {s : σ} (reached : Reachable (StepRel.ofNext enabled next) init s)
    (label : α) (possible : enabled s label) :
    Reachable (StepRel.ofNext enabled next) init (next s label) :=
  reached.next label ⟨possible, rfl⟩

theorem Reachable.actGuarded {σ α : Type} {enabled condition : σ → α → Prop} {next : σ → α → σ}
    {init : σ → Prop} {s : σ}
    (reached : Reachable ((StepRel.ofNext enabled next).guarded condition) init s)
    (label : α) (meets : condition s label) (possible : enabled s label) :
    Reachable ((StepRel.ofNext enabled next).guarded condition) init (next s label) :=
  reached.next label ⟨meets, possible, rfl⟩

/-- The labels can be taken one after another. -/
def StepRel.Follows {σ α : Type} (enabled : σ → α → Prop) (next : σ → α → σ) : σ → List α → Prop
  | _, [] => True
  | s, label :: rest => enabled s label ∧ Follows enabled next (next s label) rest

instance StepRel.decidableFollows {σ α : Type} (enabled : σ → α → Prop) (next : σ → α → σ)
    [∀ s label, Decidable (enabled s label)] :
    ∀ s labels, Decidable (StepRel.Follows enabled next s labels)
  | _, [] => .isTrue trivial
  | s, label :: rest =>
      have := decidableFollows enabled next (next s label) rest
      inferInstanceAs (Decidable (enabled s label ∧ Follows enabled next (next s label) rest))

theorem Reachable.follow {σ α : Type} {enabled : σ → α → Prop} {next : σ → α → σ}
    {init : σ → Prop} {s : σ} (reached : Reachable (StepRel.ofNext enabled next) init s)
    (labels : List α) (possible : StepRel.Follows enabled next s labels) :
    Reachable (StepRel.ofNext enabled next) init (labels.foldl next s) := by
  induction labels generalizing s with
  | nil => exact reached
  | cons label rest ih => exact ih (reached.act label possible.1) possible.2

theorem Reachable.followGuarded {σ α : Type} {enabled condition : σ → α → Prop}
    {next : σ → α → σ} {init : σ → Prop} {s : σ}
    (reached : Reachable ((StepRel.ofNext enabled next).guarded condition) init s)
    (labels : List α) (possible : StepRel.Follows enabled next s labels)
    (meets : ∀ s, ∀ label ∈ labels, condition s label) :
    Reachable ((StepRel.ofNext enabled next).guarded condition) init (labels.foldl next s) := by
  induction labels generalizing s with
  | nil => exact reached
  | cons label rest ih =>
      refine ih (reached.actGuarded label (meets s label List.mem_cons_self) possible.1)
        possible.2 fun s other member => ?_
      exact meets s other (List.mem_cons_of_mem _ member)

/-- The same when the condition depends on the states on the way. -/
theorem Reachable.followMeeting {σ α : Type} {enabled condition : σ → α → Prop}
    {next : σ → α → σ} {init : σ → Prop} {s : σ}
    (reached : Reachable ((StepRel.ofNext enabled next).guarded condition) init s)
    (labels : List α)
    (possible : StepRel.Follows (fun s label => condition s label ∧ enabled s label) next s labels) :
    Reachable ((StepRel.ofNext enabled next).guarded condition) init (labels.foldl next s) := by
  induction labels generalizing s with
  | nil => exact reached
  | cons label rest ih =>
      exact ih (reached.actGuarded label possible.1.1 possible.1.2) possible.2

/-- What holds initially and is kept by every step holds in every reachable
state. -/
theorem Reachable.invariant {σ α : Type} {step : StepRel σ α} {init : σ → Prop}
    {inv : σ → Prop} (initial : ∀ s, init s → inv s)
    (kept : ∀ s label s', inv s → step s label s' → inv s')
    {s : σ} (reached : Reachable step init s) : inv s := by
  induction reached with
  | start first => exact initial _ first
  | next label _ taken ih => exact kept _ label _ ih taken

/-- Dropping the condition only adds reachable states. -/
theorem Reachable.of_guarded {σ α : Type} {step : StepRel σ α} {init : σ → Prop}
    {condition : σ → α → Prop} {s : σ}
    (reached : Reachable (step.guarded condition) init s) : Reachable step init s := by
  induction reached with
  | start first => exact .start first
  | next label _ taken ih => exact .next label ih taken.2

end FastStore.Util
