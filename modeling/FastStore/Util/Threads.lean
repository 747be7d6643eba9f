import FastStore.Util.System

/-!
# Threads and the calls they are in

A thread is the stack of the calls it has still to finish, each at the point it has
reached: running it means to execute the first entry on the shared state, which gives the
entries that take its place.  Threads are started at any time with one of the calls of the
program.  What all threads together have still to do is the bag of all entries, and an
invariant of the shared state and that bag needs one case for each kind of entry.
-/

namespace FastStore.Util

/-- What the entries of a stack do.  A choice is what the model leaves open: an outcome, or a
value that is read outside. -/
structure Program (σ ι κ : Type) where
  /-- The stacks with which a thread starts. -/
  Starts : List ι → Prop
  /-- When an entry can be executed. -/
  Enabled : σ → ι → κ → Prop
  exec : σ → ι → κ → σ × List ι

/-- The shared state and the threads. -/
structure Threads (σ ι : Type) where
  shared : σ
  calls : List (List ι)

inductive ThreadAction (ι κ : Type) where
  | start (stack : List ι)
  | run (stack : List ι) (choice : κ)

namespace Threads

variable {σ ι κ : Type} [DecidableEq ι] (program : Program σ ι κ)

/-- All entries of all threads. -/
def frames (s : Threads σ ι) : Multiset ι :=
  (s.calls.flatten : List ι)

/-- When a thread can start or run. -/
def Enabled (s : Threads σ ι) : ThreadAction ι κ → Prop
  | .start stack => program.Starts stack
  | .run [] _ => False
  | .run (frame :: rest) choice =>
      frame :: rest ∈ s.calls ∧ program.Enabled s.shared frame choice

instance [DecidablePred program.Starts]
    [∀ s frame choice, Decidable (program.Enabled s frame choice)] (s : Threads σ ι)
    (action : ThreadAction ι κ) : Decidable (s.Enabled program action) := by
  unfold Enabled
  split <;> infer_instance

/-- The state after a step. -/
def next (s : Threads σ ι) : ThreadAction ι κ → Threads σ ι
  | .start stack => ⟨s.shared, stack :: s.calls⟩
  | .run [] _ => s
  | .run (frame :: rest) choice =>
      ⟨(program.exec s.shared frame choice).1,
        ((program.exec s.shared frame choice).2 ++ rest) :: s.calls.erase (frame :: rest)⟩

/-- The steps of the threads. -/
def Step : StepRel (Threads σ ι) (ThreadAction ι κ) :=
  StepRel.ofNext (Enabled program) (next program)

/-- A condition on the shared state, all entries, the entry that is executed and the choice. -/
def Meets (condition : σ → Multiset ι → ι → κ → Prop) (s : Threads σ ι) :
    ThreadAction ι κ → Prop
  | .run (frame :: _) choice => condition s.shared s.frames frame choice
  | _ => True

instance (condition : σ → Multiset ι → ι → κ → Prop)
    [∀ s frames frame choice, Decidable (condition s frames frame choice)]
    (s : Threads σ ι) (action : ThreadAction ι κ) : Decidable (s.Meets condition action) := by
  unfold Meets
  split <;> infer_instance

theorem frames_start (s : Threads σ ι) (stack : List ι) :
    (s.next program (.start stack)).frames = (stack : Multiset ι) + s.frames := by
  simp [next, frames]

/-- The entry that runs, and the entries behind it and in the other threads. -/
theorem frames_of_mem {s : Threads σ ι} {frame : ι} {rest : List ι}
    (member : frame :: rest ∈ s.calls) :
    s.frames =
      frame ::ₘ ((rest ++ (s.calls.erase (frame :: rest)).flatten : List ι) : Multiset ι) := by
  have split : s.calls.flatten.Perm
      ((frame :: rest) ++ (s.calls.erase (frame :: rest)).flatten) :=
    (List.perm_cons_erase member).flatten
  exact Multiset.coe_eq_coe.mpr split

theorem frames_run (s : Threads σ ι) (frame : ι) (rest : List ι) (choice : κ) :
    (s.next program (.run (frame :: rest) choice)).frames =
      ((program.exec s.shared frame choice).2 : Multiset ι) +
        ((rest ++ (s.calls.erase (frame :: rest)).flatten : List ι) : Multiset ι) := by
  simp [next, frames]

variable {program}

/-- What holds of the shared state and the entries initially and is kept by every start and
by every entry holds in all runs whose steps meet the condition. -/
theorem invariant {inv : σ → Multiset ι → Prop} {init : Threads σ ι → Prop}
    {condition : σ → Multiset ι → ι → κ → Prop}
    (initial : ∀ s, init s → inv s.shared s.frames)
    (starts : ∀ shared frames stack, inv shared frames → program.Starts stack →
      inv shared ((stack : Multiset ι) + frames))
    (runs : ∀ shared frame others choice, inv shared (frame ::ₘ others) →
      condition shared (frame ::ₘ others) frame choice → program.Enabled shared frame choice →
      inv (program.exec shared frame choice).1
        (((program.exec shared frame choice).2 : Multiset ι) + others))
    {s : Threads σ ι} (reached : Reachable ((Step program).guarded (Meets condition)) init s) :
    inv s.shared s.frames := by
  refine @Reachable.invariant _ _ _ _ (fun s => inv s.shared s.frames) initial ?_ _ reached
  rintro s action _ holds ⟨meets, enabled, rfl⟩
  cases action with
  | start stack =>
      rw [frames_start]
      exact starts _ _ stack holds enabled
  | run stack choice =>
      cases stack with
      | nil => cases enabled
      | cons frame rest =>
          rw [frames_run]
          have split := frames_of_mem enabled.1
          rw [split] at holds
          have allowed : condition s.shared s.frames frame choice := meets
          rw [split] at allowed
          exact runs _ frame _ choice holds allowed enabled.2

end Threads

end FastStore.Util
