import FastStore.Util.Chain
import FastStore.Util.System

/-!
# The contract of a unique-key skiplist

The skiplist of the support library is used through its level-0 chain (find a
node, walk to the neighbours, iterate) and two updates.  A `UniqSkiplist` is any
implementation of those operations that behaves as documented on an ascending
chain.  Everything proved here and above holds for every such implementation.
-/

namespace FastStore.Util

variable {α κ : Type} [LinearOrder κ]

/-- An implementation of the skiplist interface over level-0 chains. -/
structure UniqSkiplist (key : α → κ) where
  /-- `uniq_skiplist_find_ge_node`: the chain before the first node whose key is
  not below the target, and the chain from that node on. -/
  findGe : List α → κ → List α × List α
  /-- `uniq_skiplist_insert`. -/
  insert : List α → α → Errno × List α
  /-- `uniq_skiplist_delete`, by the key of the argument. -/
  delete : List α → κ → Errno × List α
  findGe_spec : ∀ chain target, Ascending key chain →
    findGe chain target = Chain.splitAt key target chain
  insert_fresh : ∀ chain item, Ascending key chain →
    (∀ other ∈ chain, key other ≠ key item) →
      insert chain item = (.ok, Chain.insert key item chain)
  insert_exists : ∀ chain item, Ascending key chain →
    (∃ other ∈ chain, key other = key item) → insert chain item = (.eexist, chain)
  delete_member : ∀ chain target, Ascending key chain →
    (∃ other ∈ chain, key other = target) →
      delete chain target = (.ok, Chain.erase key target chain)
  delete_absent : ∀ chain target, Ascending key chain →
    (∀ other ∈ chain, key other ≠ target) → delete chain target = (.enoent, chain)

namespace UniqSkiplist

/-- The contract is met by working on the level-0 chain alone. -/
def level0 (key : α → κ) : UniqSkiplist key where
  findGe chain target := Chain.splitAt key target chain
  insert chain item :=
    if ∃ other ∈ chain, key other = key item then (.eexist, chain)
    else (.ok, Chain.insert key item chain)
  delete chain target :=
    if ∃ other ∈ chain, key other = target then (.ok, Chain.erase key target chain)
    else (.enoent, chain)
  findGe_spec _ _ _ := rfl
  insert_fresh _ _ _ fresh :=
    if_neg fun ⟨other, member, equal⟩ => fresh other member equal
  insert_exists _ _ _ present := if_pos present
  delete_member _ _ _ present := if_pos present
  delete_absent _ _ _ absent :=
    if_neg fun ⟨other, member, equal⟩ => absent other member equal

variable {key : α → κ} (skiplist : UniqSkiplist key) {chain : List α}

/-- Whether or not the key is present, deleting it leaves the other members. -/
theorem delete_snd (sorted : Ascending key chain) (target : κ) :
    (skiplist.delete chain target).2 = Chain.erase key target chain := by
  by_cases present : ∃ other ∈ chain, key other = target
  · rw [skiplist.delete_member chain target sorted present]
  · have absent : ∀ other ∈ chain, key other ≠ target := by
      intro other member equal
      exact present ⟨other, member, equal⟩
    rw [skiplist.delete_absent chain target sorted absent]
    exact (List.filter_eq_self.mpr (by simpa using absent)).symm

/-- Delete a list of keys one after another. -/
def deleteAll (targets : List κ) (chain : List α) : List α :=
  targets.foldl (fun rest target => (skiplist.delete rest target).2) chain

/-- Insert a list of elements one after another, ignoring the results. -/
def insertAll (items : List α) (chain : List α) : List α :=
  items.foldl (fun rest item => (skiplist.insert rest item).2) chain

theorem deleteAll_ascending (targets : List κ) (sorted : Ascending key chain) :
    Ascending key (skiplist.deleteAll targets chain) := by
  induction targets generalizing chain with
  | nil => exact sorted
  | cons target targets ih =>
      apply ih
      change Ascending key (skiplist.delete chain target).2
      rw [skiplist.delete_snd sorted]
      exact Chain.ascending_erase sorted target

theorem mem_deleteAll (targets : List κ) (sorted : Ascending key chain) {item : α} :
    item ∈ skiplist.deleteAll targets chain ↔ item ∈ chain ∧ key item ∉ targets := by
  induction targets generalizing chain with
  | nil => simp [deleteAll]
  | cons target targets ih =>
      have erased := Chain.ascending_erase sorted target
      have step : skiplist.deleteAll (target :: targets) chain =
          skiplist.deleteAll targets (Chain.erase key target chain) := by
        simp [deleteAll, skiplist.delete_snd sorted]
      rw [step, ih erased, Chain.mem_erase]
      simp only [List.mem_cons, not_or, and_assoc, ne_eq]

/-- Elements of pairwise distinct fresh keys are all linked. -/
theorem insertAll_spec (items : List α) (sorted : Ascending key chain)
    (distinct : items.Pairwise fun left right => key left ≠ key right)
    (fresh : ∀ item ∈ items, ∀ other ∈ chain, key other ≠ key item) :
    Ascending key (skiplist.insertAll items chain) ∧
      ∀ item, item ∈ skiplist.insertAll items chain ↔ item ∈ items ∨ item ∈ chain := by
  induction items generalizing chain with
  | nil => exact ⟨sorted, by simp [insertAll]⟩
  | cons head tail ih =>
      obtain ⟨headDistinct, tailDistinct⟩ := List.pairwise_cons.mp distinct
      have headFresh := fresh head List.mem_cons_self
      have linked := Chain.ascending_insert sorted headFresh
      have step : skiplist.insertAll (head :: tail) chain =
          skiplist.insertAll tail (Chain.insert key head chain) := by
        simp [insertAll, skiplist.insert_fresh chain head sorted headFresh]
      have tailFresh : ∀ item ∈ tail, ∀ other ∈ Chain.insert key head chain,
          key other ≠ key item := by
        intro item member other otherMember
        rcases Chain.mem_insert.mp otherMember with rfl | inChain
        · exact headDistinct item member
        · exact fresh item (List.mem_cons_of_mem _ member) other inChain
      obtain ⟨ascending, members⟩ := ih linked tailDistinct tailFresh
      rw [step]
      refine ⟨ascending, fun item => ?_⟩
      rw [members, Chain.mem_insert, List.mem_cons]
      tauto

end UniqSkiplist

end FastStore.Util
