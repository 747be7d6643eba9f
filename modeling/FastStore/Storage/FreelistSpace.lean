import FastStore.Storage.FreelistSound

/-!
# The available space of a path

`trunk_stat.avail` is changed with the free space of single trunks: when one is added to a
freelist, for every piece that is given out, and for what is discarded with a trunk that
leaves.  What it should be is a sum over the freelists.
-/

namespace FastStore.Storage

open FastStore.Util

variable {sa : FSStorageAllocatorManager} {key : TrunkKey} {trunk updated : FSTrunkFileInfo}
  {store : Nat} {type : FSTrunkFreelistType}

/-- A sum over different elements, after the value of one has changed. -/
theorem sum_map_of_mem {α : Type} [DecidableEq α] {before after : α → Int} {list : List α} {one : α}
    (nodup : list.Nodup) (member : one ∈ list)
    (others : ∀ other ∈ list, other ≠ one → after other = before other) :
    (list.map after).sum = (list.map before).sum + (after one - before one) := by
  have split := List.perm_cons_erase member
  have rest : (list.erase one).map after = (list.erase one).map before := by
    refine List.map_congr_left fun other inRest => ?_
    exact others other (List.mem_of_mem_erase inRest) ((nodup.mem_erase_iff).mp inRest).1
  rw [(split.map after).sum_eq, (split.map before).sum_eq, List.map_cons, List.map_cons,
    List.sum_cons, List.sum_cons, rest]
  omega

namespace FSStorageAllocatorManager

/-- The available space of a trunk. -/
def availOf (sa : FSStorageAllocatorManager) (key : TrunkKey) : Int :=
  match sa.trunks key with
  | some trunk => trunk.availSpace
  | none => 0

/-- The trunks of a path that are in a freelist, its own or the one for reclaiming. -/
def freeTrunks (sa : FSStorageAllocatorManager) (store : Nat) : List TrunkKey :=
  (sa.freelist (.normal store)).trunks ++
    (sa.freelist .reclaim).trunks.filter fun key => key.store = store

/-- The available space of the trunks of a path that are in a freelist. -/
def freeBytes (sa : FSStorageAllocatorManager) (store : Nat) : Int :=
  ((sa.freeTrunks store).map sa.availOf).sum

/-- How far `trunk_stat.avail` is above the free space of the path. -/
def surplus (sa : FSStorageAllocatorManager) (store : Nat) : Int :=
  (sa.allocators store).statAvail - sa.freeBytes store

theorem availOf_eq (present : sa.trunks key = some trunk) : sa.availOf key = trunk.availSpace := by
  simp [availOf, present]

/-- The trunks of a path that are in a freelist are different ones. -/
theorem ListsSound.freeTrunks_nodup (sound : sa.ListsSound) (store : Nat) :
    (sa.freeTrunks store).Nodup := by
  refine (sound.nodup _).append ((sound.nodup .reclaim).filter _) fun key own other => ?_
  exact absurd (sound.once _ _ key own (List.mem_of_mem_filter other)) nofun

theorem ListsSound.mem_freeTrunks_iff (sound : sa.ListsSound) :
    key ∈ sa.freeTrunks store ↔ sa.Free key ∧ key.store = store := by
  constructor
  · intro member
    rcases List.mem_append.mp member with own | other
    · exact ⟨⟨_, own⟩, sound.own store key own⟩
    · obtain ⟨inList, same⟩ := List.mem_filter.mp other
      exact ⟨⟨.reclaim, inList⟩, of_decide_eq_true same⟩
  · rintro ⟨⟨type, member⟩, same⟩
    apply List.mem_append.mpr
    cases type with
    | normal other =>
        rw [← same, sound.own other key member]
        exact Or.inl member
    | reclaim => exact Or.inr (List.mem_filter.mpr ⟨member, decide_eq_true same⟩)

/-! ## Changing one trunk -/

theorem availOf_setTrunk_self : (sa.setTrunk key updated).availOf key = updated.availSpace := by
  simp [availOf]

theorem availOf_setTrunk_of_ne {other : TrunkKey} (apart : other ≠ key) :
    (sa.setTrunk key updated).availOf other = sa.availOf other := by
  simp [availOf, Function.update_of_ne apart]

/-- A trunk that is in no freelist, or that keeps its free space, does not count. -/
theorem freeBytes_setTrunk_same (sound : sa.ListsSound)
    (same : sa.Free key → updated.availSpace = sa.availOf key) :
    (sa.setTrunk key updated).freeBytes store = sa.freeBytes store := by
  have lists : (sa.setTrunk key updated).freeTrunks store = sa.freeTrunks store := rfl
  unfold freeBytes
  rw [lists]
  congr 1
  refine List.map_congr_left fun other member => ?_
  by_cases equal : other = key
  · rw [equal] at member ⊢
    rw [availOf_setTrunk_self]
    exact same (sound.mem_freeTrunks_iff.mp member).1
  · exact availOf_setTrunk_of_ne equal

/-- The free space of a trunk in a freelist counts for its path. -/
theorem freeBytes_setTrunk (sound : sa.ListsSound) (free : sa.Free key) :
    (sa.setTrunk key updated).freeBytes store =
      sa.freeBytes store + if key.store = store then updated.availSpace - sa.availOf key else 0 := by
  have lists : (sa.setTrunk key updated).freeTrunks store = sa.freeTrunks store := rfl
  unfold freeBytes
  rw [lists]
  by_cases same : key.store = store
  · have member : key ∈ sa.freeTrunks store := sound.mem_freeTrunks_iff.mpr ⟨free, same⟩
    rw [if_pos same, sum_map_of_mem (sound.freeTrunks_nodup store) member
      fun other _ apart => availOf_setTrunk_of_ne apart, availOf_setTrunk_self]
  · rw [if_neg same, Int.add_zero]
    congr 1
    refine List.map_congr_left fun other member => availOf_setTrunk_of_ne ?_
    rintro rfl
    exact same (sound.mem_freeTrunks_iff.mp member).2

/-! ## Changing the allocator of a path -/

theorem freeBytes_setAllocator {allocator : FSTrunkAllocator} {other : Nat}
    (freelist : allocator.freelist = (sa.allocators other).freelist) :
    (sa.setAllocator other allocator).freeBytes store = sa.freeBytes store := by
  have lists : (sa.setAllocator other allocator).freeTrunks store = sa.freeTrunks store := by
    unfold freeTrunks
    rw [freelist_setAllocator freelist, freelist_setAllocator freelist]
  unfold freeBytes
  rw [lists]
  rfl

/-- An allocator that keeps its freelist and its available space. -/
theorem surplus_setAllocator_same {allocator : FSTrunkAllocator} {other : Nat}
    (freelist : allocator.freelist = (sa.allocators other).freelist)
    (avail : allocator.statAvail = (sa.allocators other).statAvail) :
    (sa.setAllocator other allocator).surplus store = sa.surplus store := by
  unfold surplus
  rw [freeBytes_setAllocator freelist, setAllocator_allocators]
  by_cases same : store = other
  · subst same
    rw [Function.update_self, avail]
  · rw [Function.update_of_ne same]

theorem surplus_addStatAvail (other : Nat) (bytes : Int) :
    (sa.addStatAvail other bytes).surplus store =
      sa.surplus store + if other = store then bytes else 0 := by
  unfold surplus addStatAvail
  rw [freeBytes_setAllocator (by rfl), setAllocator_allocators]
  by_cases same : store = other
  · subst same
    rw [Function.update_self, if_pos rfl]
    dsimp only
    omega
  · rw [Function.update_of_ne same, if_neg fun equal => same equal.symm]
    omega

theorem surplus_setTrunk_same (sound : sa.ListsSound)
    (same : sa.Free key → updated.availSpace = sa.availOf key) :
    (sa.setTrunk key updated).surplus store = sa.surplus store := by
  unfold surplus
  rw [freeBytes_setTrunk_same sound same, setTrunk_allocators]

/-- A trunk that is stored with the free space it had. -/
theorem surplus_setTrunk_of_avail (sound : sa.ListsSound) (present : sa.trunks key = some trunk)
    (same : updated.availSpace = trunk.availSpace) :
    (sa.setTrunk key updated).surplus store = sa.surplus store :=
  surplus_setTrunk_same sound fun _ => same.trans (availOf_eq present).symm

theorem surplus_pushReclaimQueue : (sa.pushReclaimQueue key).surplus store = sa.surplus store :=
  surplus_setAllocator_same rfl rfl

theorem surplus_setBySize (other : Nat) (bySize : List TrunkKey) :
    (sa.setBySize other bySize).surplus store = sa.surplus store :=
  surplus_setAllocator_same rfl rfl

/-! ## Changing a freelist -/

theorem statAvail_setFreelist (freelist : FSTrunkFreelist) :
    ((sa.setFreelist freelist type).allocators store).statAvail = (sa.allocators store).statAvail := by
  cases type with
  | reclaim => rfl
  | normal other =>
      unfold setFreelist
      dsimp only
      rw [setAllocator_allocators]
      by_cases same : store = other
      · subst same
        rw [Function.update_self]
      · rw [Function.update_of_ne same]

/-- The trunk may be in a freelist of this type. -/
def Suits (key : TrunkKey) (type : FSTrunkFreelistType) : Prop :=
  ∀ store, type = .normal store → key.store = store

/-- The trunks of a path before one is taken out of a freelist, or after it has been put in. -/
theorem freeTrunks_perm {before after : FSTrunkFreelist} (suits : Suits key type)
    (perm : after.trunks.Perm (key :: before.trunks)) :
    ((sa.setFreelist after type).freeTrunks store).Perm
      (if key.store = store then key :: (sa.setFreelist before type).freeTrunks store
      else (sa.setFreelist before type).freeTrunks store) := by
  unfold freeTrunks
  simp only [freelist_setFreelist]
  cases type with
  | normal other =>
      have reclaim : FSTrunkFreelistType.reclaim ≠ .normal other := nofun
      have same : key.store = other := suits other rfl
      by_cases path : store = other
      · subst path
        rw [if_pos same, if_neg reclaim, if_neg reclaim, if_pos rfl, if_pos rfl, ← List.cons_append]
        exact perm.append_right _
      · have own : FSTrunkFreelistType.normal store ≠ .normal other := fun equal =>
          path (FSTrunkFreelistType.normal.inj equal)
        rw [if_neg own, if_neg own, if_neg reclaim, if_neg reclaim,
          if_neg fun equal => path (equal.symm.trans same)]
  | reclaim =>
      have own : FSTrunkFreelistType.normal store ≠ .reclaim := nofun
      rw [if_neg own, if_neg own, if_pos rfl, if_pos rfl]
      have filtered := perm.filter fun other => other.store = store
      split_ifs with same
      · rw [List.filter_cons_of_pos (by simp [same])] at filtered
        exact (filtered.append_left _).trans List.perm_middle
      · rw [List.filter_cons_of_neg (by simp [same])] at filtered
        exact filtered.append_left _

/-- The space of the trunk counts for its path while it is in a freelist. -/
theorem surplus_setFreelist {before after : FSTrunkFreelist} (suits : Suits key type)
    (perm : after.trunks.Perm (key :: before.trunks)) :
    (sa.setFreelist before type).surplus store =
      (sa.setFreelist after type).surplus store +
        if key.store = store then sa.availOf key else 0 := by
  have avail : ∀ freelist, (sa.setFreelist freelist type).availOf = sa.availOf := by
    intro freelist
    funext other
    unfold availOf
    rw [trunks_setFreelist]
  have taken : ((sa.setFreelist after type).freeTrunks store).Perm
      (if key.store = store then key :: (sa.setFreelist before type).freeTrunks store
      else (sa.setFreelist before type).freeTrunks store) := freeTrunks_perm suits perm
  have same := (taken.map sa.availOf).sum_eq
  unfold surplus freeBytes
  rw [statAvail_setFreelist, statAvail_setFreelist, avail, avail, same]
  split_ifs
  · rw [List.map_cons, List.sum_cons]
    omega
  · omega

/-- A freelist that is stored again. -/
theorem setFreelist_self : sa.setFreelist (sa.freelist type) type = sa := by
  cases type with
  | reclaim => rfl
  | normal other =>
      unfold setFreelist setAllocator
      dsimp only [freelist]
      rw [show ({ sa.allocators other with freelist := (sa.allocators other).freelist } :
        FSTrunkAllocator) = sa.allocators other from rfl, Function.update_eq_self]

end FSStorageAllocatorManager

end FastStore.Storage
