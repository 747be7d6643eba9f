import FastStore.Util.Linked

/-!
# Walks through linked memory

A walk from a pointer meets some nodes and arrives at a pointer, which may be the end of
the list or a node further on.  Lists that are taken apart while they are walked are made
of such pieces.
-/

namespace FastStore.Util

variable {ν : Type}

/-- Walking from `head` along `next` meets the given nodes and arrives at `target`. -/
def Leads (next : ν → Option ν) : Option ν → List ν → Option ν → Prop
  | head, [], target => head = target
  | head, node :: rest, target => head = some node ∧ Leads next (next node) rest target

/-- The first nodes of a list, at most `fuel` of them. -/
def walk (next : ν → Option ν) : Nat → Option ν → List ν
  | 0, _ => []
  | _ + 1, none => []
  | fuel + 1, some node => node :: walk next fuel (next node)

variable {next other : ν → Option ν} {head middle target : Option ν} {node : ν}
  {chain before behind : List ν}

theorem leads_none_iff : Leads next head chain none ↔ Linked next head chain := by
  induction chain generalizing head with
  | nil => exact Iff.rfl
  | cons first rest ih => exact and_congr_right fun _ => ih

theorem walk_eq {fuel : Nat} (linked : Linked next head chain) (enough : chain.length ≤ fuel) :
    walk next fuel head = chain := by
  induction chain generalizing head fuel with
  | nil =>
      obtain rfl : head = none := linked
      cases fuel <;> rfl
  | cons first rest ih =>
      obtain rfl := linked.1
      cases fuel with
      | zero => cases enough
      | succ fuel => rw [walk, ih linked.2 (Nat.le_of_succ_le_succ enough)]

namespace Leads

theorem append (first : Leads next head before middle) (second : Leads next middle behind target) :
    Leads next head (before ++ behind) target := by
  induction before generalizing head with
  | nil =>
      obtain rfl : head = middle := first
      exact second
  | cons node rest ih => exact ⟨first.1, ih first.2⟩

theorem linked (first : Leads next head before middle) (second : Linked next middle behind) :
    Linked next head (before ++ behind) :=
  leads_none_iff.mp (first.append (leads_none_iff.mpr second))

/-- Pointers outside the walk do not matter. -/
theorem congr (leads : Leads next head chain target)
    (agree : ∀ node ∈ chain, other node = next node) : Leads other head chain target := by
  induction chain generalizing head with
  | nil => exact leads
  | cons node rest ih =>
      refine ⟨leads.1, ?_⟩
      rw [agree node List.mem_cons_self]
      exact ih leads.2 fun later member => agree later (List.mem_cons_of_mem _ member)

theorem concat_iff : Leads next head (before ++ [node]) target ↔
    Leads next head before (some node) ∧ next node = target := by
  induction before generalizing head with
  | nil => exact Iff.rfl
  | cons first rest ih => exact (and_congr_right fun _ => ih).trans and_assoc.symm

/-- A list that starts with a walk goes on where the walk arrives. -/
theorem exists_of_linked (leads : Leads next head before (some node))
    (linked : Linked next head chain) : ∃ rest, chain = before ++ node :: rest := by
  induction before generalizing head chain with
  | nil =>
      obtain rfl : head = some node := leads
      cases chain with
      | nil => cases linked
      | cons first rest => exact ⟨rest, by rw [Option.some.inj linked.1]; rfl⟩
  | cons first rest ih =>
      cases chain with
      | nil => exact absurd (leads.1.symm.trans linked) nofun
      | cons head' later =>
          obtain rfl := Option.some.inj (leads.1.symm.trans linked.1)
          obtain ⟨more, split⟩ := ih leads.2 linked.2
          exact ⟨more, by rw [split]; rfl⟩

variable [DecidableEq ν]

/-- Changing the last pointer of a walk changes where it arrives. -/
theorem redirect (leads : Leads next head (before ++ [node]) target) (absent : node ∉ before)
    (goal : Option ν) : Leads (Function.update next node goal) head (before ++ [node]) goal := by
  refine concat_iff.mpr ⟨(concat_iff.mp leads).1.congr fun other member => ?_,
    Function.update_self _ _ _⟩
  refine Function.update_of_ne ?_ _ _
  rintro rfl
  exact absent member

end Leads

end FastStore.Util
