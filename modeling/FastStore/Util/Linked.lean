import Mathlib

/-!
# Singly linked lists in memory

A list is a head pointer and, for each node, the pointer to the next one.  Two
lists in the same memory share no node as long as nobody breaks them, so a change
of one pointer is local to the list it is in.  Linking and unlinking behind a node
are the two pointer changes of the callers.
-/

namespace FastStore.Util

variable {ν : Type}

/-- Walking from `head` along `next` meets exactly the given nodes and ends. -/
def Linked (next : ν → Option ν) : Option ν → List ν → Prop
  | head, [] => head = none
  | head, node :: rest => head = some node ∧ Linked next (next node) rest

namespace Linked

variable {next other : ν → Option ν} {head : Option ν} {node previous : ν}
  {chain before behind : List ν}

/-- The memory determines the nodes. -/
theorem eq_of_linked {chain' : List ν} (left : Linked next head chain)
    (right : Linked next head chain') : chain = chain' := by
  induction chain generalizing head chain' with
  | nil =>
      cases chain' with
      | nil => rfl
      | cons node rest => exact absurd (left.symm.trans right.1) nofun
  | cons node rest ih =>
      cases chain' with
      | nil => exact absurd (right.symm.trans left.1) nofun
      | cons node' rest' =>
          obtain rfl : node = node' := Option.some.inj (left.1.symm.trans right.1)
          rw [ih left.2 right.2]

/-- Pointers outside the list do not matter. -/
theorem congr (linked : Linked next head chain)
    (agree : ∀ node ∈ chain, other node = next node) : Linked other head chain := by
  induction chain generalizing head with
  | nil => exact linked
  | cons node rest ih =>
      refine ⟨linked.1, ?_⟩
      rw [agree node List.mem_cons_self]
      exact ih linked.2 fun later member => agree later (List.mem_cons_of_mem _ member)

/-- The part of a list behind one of its nodes. -/
theorem behind_of_append (linked : Linked next head (before ++ node :: behind)) :
    Linked next (next node) behind := by
  induction before generalizing head with
  | nil => exact linked.2
  | cons first rest ih => exact ih linked.2

/-- What a node of the list points to is the node behind it. -/
theorem next_eq (linked : Linked next head (before ++ node :: behind)) :
    next node = behind.head? := by
  have rest := linked.behind_of_append
  cases behind with
  | nil => exact rest
  | cons first later => exact rest.1

theorem head_eq (linked : Linked next head chain) : head = chain.head? := by
  cases chain with
  | nil => exact linked
  | cons node rest => exact linked.1

/-- The successor of a node of the list is in the list, directly behind it. -/
theorem split_of_next (linked : Linked next head chain) (member : previous ∈ chain)
    (points : next previous = some node) :
    ∃ before behind, chain = before ++ previous :: node :: behind := by
  obtain ⟨before, behind, rfl⟩ := List.append_of_mem member
  have first := linked.next_eq
  rw [points] at first
  cases behind with
  | nil => cases first
  | cons successor rest =>
      obtain rfl : node = successor := Option.some.inj first
      exact ⟨before, rest, rfl⟩

variable [DecidableEq ν]

/-- Link a new node in front. -/
theorem link_first (linked : Linked next head chain) (fresh : node ∉ chain) :
    Linked (Function.update next node head) (some node) (node :: chain) := by
  refine ⟨rfl, ?_⟩
  rw [Function.update_self]
  refine linked.congr fun other member => Function.update_of_ne ?_ _ _
  rintro rfl
  exact fresh member

/-- Link a new node behind one of the list. -/
theorem link_behind (linked : Linked next head (before ++ previous :: behind))
    (nodup : (before ++ previous :: behind).Nodup)
    (fresh : node ∉ before ++ previous :: behind) :
    Linked (Function.update (Function.update next node (next previous)) previous (some node))
      head (before ++ previous :: node :: behind) := by
  induction before generalizing head with
  | nil =>
      have distinct : node ≠ previous := fun same => fresh (same ▸ List.mem_cons_self)
      have absent : previous ∉ behind := (List.nodup_cons.mp nodup).1
      refine ⟨linked.1, ?_⟩
      rw [Function.update_self]
      refine ⟨rfl, ?_⟩
      rw [Function.update_of_ne distinct, Function.update_self]
      refine linked.2.congr fun other member => ?_
      have notPrevious : other ≠ previous := fun same => absent (same ▸ member)
      have notNode : other ≠ node := fun same => fresh (same ▸ List.mem_cons_of_mem _ member)
      rw [Function.update_of_ne notPrevious, Function.update_of_ne notNode]
  | cons first rest ih =>
      obtain ⟨absent, restNodup⟩ := List.nodup_cons.mp nodup
      have notNode : first ≠ node := fun same => fresh (same ▸ List.mem_cons_self)
      have notPrevious : first ≠ previous := fun same =>
        absent (same ▸ List.mem_append_right _ List.mem_cons_self)
      refine ⟨linked.1, ?_⟩
      rw [Function.update_of_ne notPrevious, Function.update_of_ne notNode]
      exact ih linked.2 restNodup fun member => fresh (List.mem_cons_of_mem _ member)

/-- Unlink the node behind one of the list. -/
theorem unlink_behind (linked : Linked next head (before ++ previous :: node :: behind))
    (nodup : (before ++ previous :: node :: behind).Nodup) :
    Linked (Function.update next previous (next node)) head (before ++ previous :: behind) := by
  induction before generalizing head with
  | nil =>
      have absent : previous ∉ node :: behind := (List.nodup_cons.mp nodup).1
      refine ⟨linked.1, ?_⟩
      rw [Function.update_self]
      refine linked.2.2.congr fun other member => Function.update_of_ne ?_ _ _
      rintro rfl
      exact absent (List.mem_cons_of_mem _ member)
  | cons first rest ih =>
      obtain ⟨absent, restNodup⟩ := List.nodup_cons.mp nodup
      have notPrevious : first ≠ previous := fun same =>
        absent (same ▸ List.mem_append_right _ List.mem_cons_self)
      refine ⟨linked.1, ?_⟩
      rw [Function.update_of_ne notPrevious]
      exact ih linked.2 restNodup

end Linked

end FastStore.Util
