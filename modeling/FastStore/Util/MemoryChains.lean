import FastStore.Util.LinkedWalk

/-!
# Chains that hand on their nodes

A node has one pointer, so it can be in one chain at a time.  A chain is known by its head and
its tail, and the pointer of its tail may still be open.  A queue takes closed chains behind its
last node and gives all of its nodes back as one chain.  The chains of a memory are kept apart by
giving every node at most one place: handing nodes on takes them out of one place and puts them
behind those of another.
-/

namespace FastStore.Util

variable {ν : Type}

/-- The head and the tail of a chain of nodes. -/
structure Ends (ν : Type) where
  head : Option ν
  tail : Option ν
  deriving DecidableEq, Repr

namespace Ends

/-- The ends of a chain without nodes. -/
def empty : Ends ν := ⟨none, none⟩

/-- The ends with one more node behind the tail. -/
def add (ends : Ends ν) (node : ν) : Ends ν := ⟨ends.head.or (some node), some node⟩

variable [DecidableEq ν]

/-- The memory after a write to the pointer of the tail. -/
def setTail (ends : Ends ν) (next : ν → Option ν) (target : Option ν) : ν → Option ν :=
  match ends.tail with
  | some last => Function.update next last target
  | none => next

/-- The memory after one more node was put behind the tail: the first node of a chain is no
successor. -/
def addNext (ends : Ends ν) (next : ν → Option ν) (node : ν) : ν → Option ν :=
  match ends.head with
  | some _ => ends.setTail next (some node)
  | none => next

end Ends

/-- The ends are those of a chain of these nodes; what the last node points to is open. -/
structure Strung (next : ν → Option ν) (ends : Ends ν) (nodes : List ν) : Prop where
  leads : ∃ target, Leads next ends.head nodes target
  tail : ends.tail = nodes.getLast?
  empty : nodes = [] → ends.head = none

namespace Strung

variable {next other : ν → Option ν} {ends : Ends ν} {nodes : List ν} {node : ν}

theorem nil (next : ν → Option ν) : Strung next Ends.empty [] := ⟨⟨none, rfl⟩, rfl, fun _ => rfl⟩

/-- Pointers outside the chain do not matter. -/
theorem congr (strung : Strung next ends nodes) (agree : ∀ node ∈ nodes, other node = next node) :
    Strung other ends nodes := by
  obtain ⟨target, leads⟩ := strung.leads
  exact ⟨⟨target, leads.congr agree⟩, strung.tail, strung.empty⟩

/-- A closed chain that knows its last node. -/
theorem of_linked (linked : Linked next ends.head nodes) (tail : ends.tail = nodes.getLast?) :
    Strung next ends nodes := by
  refine ⟨⟨none, leads_none_iff.mpr linked⟩, tail, ?_⟩
  rintro rfl
  exact linked

theorem head_eq_none_iff (strung : Strung next ends nodes) : ends.head = none ↔ nodes = [] := by
  constructor
  · intro absent
    obtain ⟨target, leads⟩ := strung.leads
    cases nodes with
    | nil => rfl
    | cons first rest => exact absurd (absent.symm.trans leads.1) nofun
  · exact strung.empty

theorem tail_eq_none_iff (strung : Strung next ends nodes) : ends.tail = none ↔ nodes = [] := by
  rw [strung.tail, List.getLast?_eq_none_iff]

variable [DecidableEq ν]

/-- Closing a chain. -/
theorem close (strung : Strung next ends nodes) (nodup : nodes.Nodup) :
    Linked (ends.setTail next none) ends.head nodes := by
  obtain ⟨target, leads⟩ := strung.leads
  rcases List.eq_nil_or_concat' nodes with rfl | ⟨before, last, rfl⟩
  · exact strung.empty rfl
  · have tail : ends.tail = some last := strung.tail.trans List.getLast?_concat
    have absent : last ∉ before := fun member =>
      (List.nodup_append.mp nodup).2.2 last member last List.mem_cons_self rfl
    rw [Ends.setTail, tail]
    exact leads_none_iff.mp (leads.redirect absent none)

/-- One more node behind the tail. -/
theorem add (strung : Strung next ends nodes) (nodup : nodes.Nodup) (fresh : node ∉ nodes) :
    Strung (ends.addNext next node) (ends.add node) (nodes ++ [node]) := by
  obtain ⟨target, leads⟩ := strung.leads
  rcases List.eq_nil_or_concat' nodes with rfl | ⟨before, last, rfl⟩
  · have absent : ends.head = none := strung.empty rfl
    rw [Ends.addNext, Ends.add, absent]
    exact ⟨⟨next node, rfl, rfl⟩, rfl, nofun⟩
  · have tail : ends.tail = some last := strung.tail.trans List.getLast?_concat
    have absent : last ∉ before := fun member =>
      (List.nodup_append.mp nodup).2.2 last member last List.mem_cons_self rfl
    obtain ⟨first, head⟩ : ∃ first, ends.head = some first := by
      refine Option.ne_none_iff_exists'.mp fun absent => ?_
      exact List.append_ne_nil_of_right_ne_nil before (List.cons_ne_nil last [])
        (strung.head_eq_none_iff.mp absent)
    have distinct : node ≠ last := fun same =>
      fresh (same ▸ List.mem_append_right _ List.mem_cons_self)
    rw [Ends.addNext, Ends.add, head]
    dsimp only
    rw [Ends.setTail, tail]
    dsimp only
    have redirected := leads.redirect absent (some node)
    rw [head] at redirected
    refine ⟨⟨next node, redirected.append ⟨rfl, ?_⟩⟩, ?_, ?_⟩
    · exact Function.update_of_ne distinct _ _
    · exact List.getLast?_concat.symm
    · exact fun impossible => absurd impossible
        (List.append_ne_nil_of_right_ne_nil _ (List.cons_ne_nil node []))

omit [DecidableEq ν] in
theorem tail_mem (strung : Strung next ends nodes) {last : ν} (tail : ends.tail = some last) :
    last ∈ nodes :=
  List.mem_of_getLast? (strung.tail.symm.trans tail)

/-- Only a pointer of the chain is written. -/
theorem setTail_of_notMem (strung : Strung next ends nodes) (target : Option ν) {outside : ν}
    (absent : outside ∉ nodes) : ends.setTail next target outside = next outside := by
  cases tail : ends.tail with
  | none => simp only [Ends.setTail, tail]
  | some last =>
      simp only [Ends.setTail, tail]
      refine Function.update_of_ne ?_ _ _
      rintro rfl
      exact absent (strung.tail_mem tail)

theorem addNext_of_notMem (strung : Strung next ends nodes) {outside : ν}
    (absent : outside ∉ nodes) : ends.addNext next node outside = next outside := by
  cases head : ends.head with
  | none => simp only [Ends.addNext, head]
  | some first =>
      simp only [Ends.addNext, head]
      exact strung.setTail_of_notMem _ absent

end Strung

/-! ## Queues -/

/-- `fc_queue` of nodes that are linked by a pointer of their own: first in first out, closed
chains are pushed and all nodes are popped as one closed chain. -/
structure FcQueue (ν : Type) where
  Queue : Type
  /-- The nodes that are queued. -/
  Holds : (ν → Option ν) → Queue → List ν → Prop
  init : Queue
  /-- `fc_queue_push_queue_to_tail`. -/
  pushQueueToTail : (ν → Option ν) → Queue → Ends ν → (ν → Option ν) × Queue
  /-- `fc_queue_pop_all`. -/
  popAll : Queue → Option ν × Queue
  holds_init : ∀ next, Holds next init []
  holds_congr : ∀ next other queue nodes, Holds next queue nodes →
    (∀ node ∈ nodes, other node = next node) → Holds other queue nodes
  holds_push : ∀ next queue nodes chain more, Holds next queue nodes →
    Linked next chain.head more → chain.tail = more.getLast? → more ≠ [] → (nodes ++ more).Nodup →
      Holds (pushQueueToTail next queue chain).1 (pushQueueToTail next queue chain).2
        (nodes ++ more)
  push_outside : ∀ next queue nodes chain more, Holds next queue nodes →
    Linked next chain.head more → chain.tail = more.getLast? → more ≠ [] → (nodes ++ more).Nodup →
      ∀ node, node ∉ nodes ++ more → (pushQueueToTail next queue chain).1 node = next node
  popAll_linked : ∀ next queue nodes, Holds next queue nodes →
    Linked next (popAll queue).1 nodes
  holds_popAll : ∀ next queue nodes, Holds next queue nodes → Holds next (popAll queue).2 []

namespace FcQueue

variable [DecidableEq ν]

theorem linked_push {next : ν → Option ν} {queue chain : Ends ν} {nodes more : List ν}
    (holds : Linked next queue.head nodes ∧ queue.tail = nodes.getLast?)
    (linked : Linked next chain.head more) (nodup : (nodes ++ more).Nodup) :
    Linked (queue.setTail next chain.head) (queue.head.or chain.head) (nodes ++ more) := by
  obtain ⟨closed, tail⟩ := holds
  rcases List.eq_nil_or_concat' nodes with rfl | ⟨before, last, rfl⟩
  · obtain rfl : queue = Ends.empty := by
      cases queue
      cases closed
      cases tail
      rfl
    exact linked
  · have last' : queue.tail = .some last := tail.trans List.getLast?_concat
    obtain ⟨first, inner, apart⟩ := List.nodup_append.mp nodup
    have absent : last ∉ before := fun member =>
      (List.nodup_append.mp first).2.2 last member last List.mem_cons_self rfl
    have redirected := (leads_none_iff.mpr closed).redirect absent chain.head
    have outside : ∀ node ∈ more, Function.update next last chain.head node = next node := by
      intro node member
      refine Function.update_of_ne ?_ _ _
      rintro rfl
      exact apart node (List.mem_append_right _ List.mem_cons_self) node member rfl
    have head : queue.head.or chain.head = queue.head := by
      cases present : queue.head with
      | none =>
          rw [present] at closed
          cases before <;> cases closed.1
      | some node => rfl
    rw [Ends.setTail, last', head]
    exact redirected.linked (linked.congr outside)

/-- The contract is met by a head and a tail. -/
def linked (ν : Type) [DecidableEq ν] : FcQueue ν where
  Queue := Ends ν
  Holds next queue nodes := Linked next queue.head nodes ∧ queue.tail = nodes.getLast?
  init := Ends.empty
  pushQueueToTail next queue chain :=
    (queue.setTail next chain.head, ⟨queue.head.or chain.head, chain.tail⟩)
  popAll queue := (queue.head, Ends.empty)
  holds_init _ := ⟨rfl, rfl⟩
  holds_congr _ _ _ _ holds agree := ⟨holds.1.congr agree, holds.2⟩
  holds_push _ _ _ _ _ holds linked tail some nodup :=
    ⟨linked_push holds linked nodup,
      tail.trans (List.getLast?_append_of_ne_nil _ some).symm⟩
  push_outside _ _ _ _ _ holds _ _ _ _ _ absent :=
    (Strung.of_linked holds.1 holds.2).setTail_of_notMem _
      fun member => absent (List.mem_append_left _ member)
  popAll_linked _ _ _ holds := holds.1
  holds_popAll _ _ _ _ := ⟨rfl, rfl⟩

end FcQueue

/-! ## Places -/

section Places

variable {π : Type} [DecidableEq π]

/-- No node is at two places, or twice at one. -/
structure Disjointed (layout : π → List ν) : Prop where
  nodup : ∀ place, (layout place).Nodup
  apart : ∀ place other, place ≠ other → ∀ node ∈ layout place, node ∉ layout other

/-- Hand nodes on: `rest` stays at the source, the nodes go behind those of the target. -/
def handOn (layout : π → List ν) (source : π) (rest : List ν) (target : π) (nodes : List ν) :
    π → List ν :=
  Function.update (Function.update layout source rest) target (layout target ++ nodes)

variable {layout : π → List ν} {source target place : π} {nodes rest : List ν} {node : ν}

theorem handOn_target : handOn layout source rest target nodes target = layout target ++ nodes :=
  Function.update_self _ _ _

theorem handOn_source (distinct : source ≠ target) :
    handOn layout source rest target nodes source = rest := by
  rw [handOn, Function.update_of_ne distinct, Function.update_self]

theorem handOn_of_ne (notSource : place ≠ source) (notTarget : place ≠ target) :
    handOn layout source rest target nodes place = layout place := by
  rw [handOn, Function.update_of_ne notTarget, Function.update_of_ne notSource]

namespace Disjointed

omit [DecidableEq π] in
/-- The place of a node. -/
theorem eq_of_mem (disjointed : Disjointed layout) {other : π} (here : node ∈ layout place)
    (there : node ∈ layout other) : place = other := by
  by_contra distinct
  exact disjointed.apart place other distinct node here there

omit [DecidableEq π] in
/-- A write to the nodes of one place is none to those of another. -/
theorem agree (disjointed : Disjointed layout) {β : Type} {before after : ν → β} {written : π}
    (outside : ∀ node, node ∉ layout written → after node = before node)
    (distinct : place ≠ written) : ∀ node ∈ layout place, after node = before node :=
  fun node member => outside node (disjointed.apart place written distinct node member)

omit [DecidableEq π] in
/-- Nodes may be kept out, one by one or all. -/
theorem of_sublist {less : π → List ν} (disjointed : Disjointed layout)
    (sublist : ∀ place, (less place).Sublist (layout place)) : Disjointed less := by
  constructor
  · exact fun place => (disjointed.nodup place).sublist (sublist place)
  · intro place other distinct node here there
    exact disjointed.apart place other distinct node ((sublist place).subset here)
      ((sublist other).subset there)

theorem handOn (disjointed : Disjointed layout) (split : (layout source).Perm (nodes ++ rest))
    (distinct : source ≠ target) : Disjointed (handOn layout source rest target nodes) := by
  have inside : (nodes ++ rest).Nodup := split.nodup_iff.mp (disjointed.nodup source)
  obtain ⟨nodesNodup, restNodup, between⟩ := List.nodup_append.mp inside
  have atSource {node : ν} (member : node ∈ nodes ++ rest) : node ∈ layout source :=
    split.mem_iff.mpr member
  -- where a node was before it was handed on
  have before : ∀ place, ∀ node ∈ Util.handOn layout source rest target nodes place,
      node ∈ layout place ∧ (place = source → node ∈ rest) ∨ place = target ∧ node ∈ nodes := by
    intro place node member
    by_cases atTarget : place = target
    · subst atTarget
      rw [handOn_target] at member
      rcases List.mem_append.mp member with old | new
      · exact Or.inl ⟨old, fun same => absurd same.symm distinct⟩
      · exact Or.inr ⟨rfl, new⟩
    · by_cases same : place = source
      · subst same
        rw [handOn_source distinct] at member
        exact Or.inl ⟨atSource (List.mem_append_right _ member), fun _ => member⟩
      · rw [handOn_of_ne same atTarget] at member
        exact Or.inl ⟨member, fun impossible => absurd impossible same⟩
  constructor
  · intro place
    by_cases atTarget : place = target
    · subst atTarget
      rw [handOn_target]
      refine List.nodup_append.mpr ⟨disjointed.nodup place, nodesNodup, ?_⟩
      rintro node old _ new rfl
      exact distinct (disjointed.eq_of_mem (atSource (List.mem_append_left _ new)) old)
    · by_cases same : place = source
      · subst same
        rw [handOn_source distinct]
        exact restNodup
      · rw [handOn_of_ne same atTarget]
        exact disjointed.nodup place
  · intro place other apart node here there
    rcases before place node here with ⟨inPlace, stays⟩ | ⟨atTarget, new⟩
    · rcases before other node there with ⟨inOther, -⟩ | ⟨otherTarget, new⟩
      · exact disjointed.apart place other apart node inPlace inOther
      · have from' := disjointed.eq_of_mem inPlace (atSource (List.mem_append_left _ new))
        exact between node new node (stays from') rfl
    · rcases before other node there with ⟨inOther, stays⟩ | ⟨otherTarget, -⟩
      · have from' := disjointed.eq_of_mem inOther (atSource (List.mem_append_left _ new))
        exact between node new node (stays from') rfl
      · exact apart (atTarget.trans otherTarget.symm)

end Disjointed

/-- Handing on loses no node. -/
theorem exists_mem_handOn_iff (split : (layout source).Perm (nodes ++ rest))
    (distinct : source ≠ target) :
    (∃ place, node ∈ handOn layout source rest target nodes place) ↔
      ∃ place, node ∈ layout place := by
  constructor
  · rintro ⟨place, member⟩
    by_cases atTarget : place = target
    · subst atTarget
      rw [handOn_target] at member
      rcases List.mem_append.mp member with old | new
      · exact ⟨place, old⟩
      · exact ⟨source, split.mem_iff.mpr (List.mem_append_left _ new)⟩
    · by_cases same : place = source
      · subst same
        rw [handOn_source distinct] at member
        exact ⟨place, split.mem_iff.mpr (List.mem_append_right _ member)⟩
      · rw [handOn_of_ne same atTarget] at member
        exact ⟨place, member⟩
  · rintro ⟨place, member⟩
    by_cases atTarget : place = target
    · subst atTarget
      exact ⟨place, by rw [handOn_target]; exact List.mem_append_left _ member⟩
    · by_cases same : place = source
      · subst same
        rcases List.mem_append.mp (split.mem_iff.mp member) with gone | kept
        · exact ⟨target, by rw [handOn_target]; exact List.mem_append_right _ gone⟩
        · exact ⟨place, by rw [handOn_source distinct]; exact kept⟩
      · exact ⟨place, by rw [handOn_of_ne same atTarget]; exact member⟩

end Places

end FastStore.Util
