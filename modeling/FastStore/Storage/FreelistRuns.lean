import FastStore.Storage.FreelistSteps
import FastStore.Util.System

/-!
# The freelists over a run

The trunk maker orders trunks in by size, takes the smallest one back and adds new ones, while
clients and the reclaimer allocate.  An allocation that waits for a trunk lets the other
operations in between its two halves; so does the reclaiming of a trunk.
-/

namespace FastStore.Storage

open FastStore.Util

variable {sa : FSStorageAllocatorManager} {key : TrunkKey} {trunk updated : FSTrunkFileInfo}
  {store : Nat} {type : FSTrunkFreelistType}

/-! ## The order of the trunks by size -/

theorem sizeIdLt_iff {bytes1 id1 bytes2 id2 : Int} :
    sizeIdLt bytes1 id1 bytes2 id2 = true ↔
      bytes1 < bytes2 ∨ bytes1 = bytes2 ∧ id1 < id2 := by
  simp [sizeIdLt]

theorem FSStorageAllocatorManager.SizeIdLt.trans {first second third : TrunkKey}
    (left : sa.SizeIdLt first second) (right : sa.SizeIdLt second third) :
    sa.SizeIdLt first third := by
  unfold FSStorageAllocatorManager.SizeIdLt at *
  rw [sizeIdLt_iff] at *
  omega

/-- Two trunks of a path are in order one way or the other. -/
theorem sizeIdLt_or {bytes1 id1 bytes2 id2 : Int} (apart : id1 ≠ id2) :
    sizeIdLt bytes1 id1 bytes2 id2 = true ∨ sizeIdLt bytes2 id2 bytes1 id1 = true := by
  rw [sizeIdLt_iff, sizeIdLt_iff]
  omega

theorem TrunkKey.id_ne {other : TrunkKey} (stores : other.store = key.store) (apart : other ≠ key) :
    other.id ≠ key.id := by
  intro same
  cases other
  cases key
  cases stores
  cases same
  exact apart rfl

/-- What is inserted into `by_size` is there, and what was there stays. -/
theorem mem_insertBySize {bytes : Int} {bySize : List TrunkKey}
    (stores : ∀ other ∈ bySize, other.store = key.store) (fresh : key ∉ bySize)
    (other : TrunkKey) :
    other ∈ insertBySize sa bytes key bySize ↔ other = key ∨ other ∈ bySize := by
  induction bySize with
  | nil => simp [insertBySize]
  | cons first rest ih =>
      have apart : key ≠ first := List.ne_of_not_mem_cons fresh
      have freshRest : key ∉ rest := List.not_mem_of_not_mem_cons fresh
      have rests := ih (fun another member => stores another (List.mem_cons_of_mem _ member)) freshRest
      have ids : first.id ≠ key.id :=
        TrunkKey.id_ne (stores first List.mem_cons_self) (Ne.symm apart)
      unfold insertBySize
      by_cases less : sizeIdLt (sa.lastUsedBytes first) first.id bytes key.id = true
      · rw [if_pos less, List.mem_cons, rests, List.mem_cons]
        tauto
      · rw [if_neg less, if_pos ((sizeIdLt_or ids).resolve_left less), List.mem_cons]

/-- Inserting keeps the order. -/
theorem pairwise_insertBySize {bytes : Int} {bySize : List TrunkKey}
    (stores : ∀ other ∈ bySize, other.store = key.store) (fresh : key ∉ bySize)
    (used : sa.lastUsedBytes key = bytes) (ordered : bySize.Pairwise sa.SizeIdLt) :
    (insertBySize sa bytes key bySize).Pairwise sa.SizeIdLt := by
  induction bySize with
  | nil => exact List.pairwise_singleton _ _
  | cons first rest ih =>
      have apart : key ≠ first := List.ne_of_not_mem_cons fresh
      have freshRest : key ∉ rest := List.not_mem_of_not_mem_cons fresh
      obtain ⟨least, orderedRest⟩ := List.pairwise_cons.mp ordered
      have storesRest : ∀ other ∈ rest, other.store = key.store := fun other member =>
        stores other (List.mem_cons_of_mem _ member)
      have ids : first.id ≠ key.id :=
        TrunkKey.id_ne (stores first List.mem_cons_self) (Ne.symm apart)
      unfold insertBySize
      by_cases less : sizeIdLt (sa.lastUsedBytes first) first.id bytes key.id = true
      · rw [if_pos less]
        refine List.pairwise_cons.mpr ⟨fun other member => ?_, ih storesRest freshRest orderedRest⟩
        rcases (mem_insertBySize storesRest freshRest other).mp member with rfl | later
        · unfold FSStorageAllocatorManager.SizeIdLt
          rw [used]
          exact less
        · exact least other later
      · have before : sa.SizeIdLt key first := by
          unfold FSStorageAllocatorManager.SizeIdLt
          rw [used]
          exact (sizeIdLt_or ids).resolve_left less
        rw [if_neg less, if_pos ((sizeIdLt_or ids).resolve_left less)]
        refine List.pairwise_cons.mpr ⟨fun other member => ?_, ordered⟩
        rcases List.mem_cons.mp member with rfl | later
        · exact before
        · exact before.trans (least other later)

namespace FSStorageAllocatorManager

/-! ## Trunk events -/

theorem setBySize_bySize (other : Nat) (bySize : List TrunkKey) :
    ((sa.setBySize other bySize).allocators store).bySize =
      if store = other then bySize else (sa.allocators store).bySize := by
  unfold setBySize
  rw [setAllocator_allocators]
  by_cases same : store = other
  · subst same
    rw [Function.update_self, if_pos rfl]
  · rw [Function.update_of_ne same, if_neg same]

theorem freelist_setBySize (other : Nat) (bySize : List TrunkKey) (type : FSTrunkFreelistType) :
    (sa.setBySize other bySize).freelist type = sa.freelist type := by
  unfold setBySize
  refine freelist_setAllocator ?_ type
  rfl

theorem setBySize_setBySize (bySize other : List TrunkKey) :
    (sa.setBySize store bySize).setBySize store other = sa.setBySize store other := by
  unfold setBySize setAllocator
  simp

/-- Some trunks leave `by_size`. -/
theorem ListsSound.setBySize_sublist (sound : sa.ListsSound) {bySize : List TrunkKey}
    (sublist : bySize.Sublist (sa.allocators store).bySize) :
    (sa.setBySize store bySize).ListsSound := by
  refine sound.setAllocator rfl (fun other member => ?_) ((sound.ordered store).sublist sublist)
    (sound.queue store)
  obtain ⟨own, trunk, present, status⟩ := sound.bySize store other (sublist.subset member)
  refine ⟨own, trunk, present, status, fun event => ?_⟩
  exact sound.created other trunk present event ⟨store, sublist.subset member⟩

/-- Nobody else is in `by_size` when a trunk has left the list of its path. -/
theorem not_inBySize_setBySize (sound : sa.ListsSound) {bySize : List TrunkKey}
    (fresh : key ∉ bySize) : ¬ (sa.setBySize key.store bySize).InBySize key := by
  rintro ⟨store, member⟩
  rw [setBySize_bySize] at member
  split_ifs at member with same
  · exact fresh member
  · exact same (sound.bySize store key member).1.symm

/-- A trunk outside of `by_size` is ordered in by its used bytes. -/
theorem Keeps.orderIn (sound : sa.ListsSound) (present : sa.trunks key = some trunk)
    (status : trunk.status = .none) {bySize : List TrunkKey}
    (sublist : bySize.Sublist (sa.allocators key.store).bySize) (fresh : key ∉ bySize)
    (others : ∀ other ∈ (sa.allocators key.store).bySize, other ≠ key → other ∈ bySize) :
    Keeps sa (sa.orderIn key.store key trunk bySize) := by
  let counted : FSTrunkFileInfo :=
    { trunk with utilLastUsedBytes := trunk.usedBytes, utilEvent := .none }
  let left := sa.setBySize key.store bySize
  have notFree : ¬ sa.Free key := by
    intro free
    obtain ⟨found, stored, allocing⟩ := sound.allocing key free
    cases present.symm.trans stored
    exact absurd (status.symm.trans allocing) (by simp)
  have shorter : left.ListsSound := sound.setBySize_sublist sublist
  have outside : ¬ left.InBySize key := not_inBySize_setBySize sound fresh
  have free : left.Free key → sa.Free key := by
    rintro ⟨type, member⟩
    have same : left.freelist type = sa.freelist type := freelist_setBySize _ _ type
    rw [same] at member
    exact ⟨type, member⟩
  have marked : (left.setTrunk key counted).ListsSound :=
    shorter.setTrunk (sound.named key trunk present) (sound.fits key trunk present)
      (fun place => absurd (free place) notFree) fun place => absurd place outside
  have stores : ∀ other ∈ bySize, other.store = key.store := fun other member =>
    (sound.bySize key.store other (sublist.subset member)).1
  have used : (sa.setTrunk key counted).lastUsedBytes key = trunk.usedBytes := by
    simp [lastUsedBytes, counted]
  have inList : ((left.setTrunk key counted).allocators key.store).bySize = bySize := by
    show (left.allocators key.store).bySize = bySize
    rw [setBySize_bySize, if_pos rfl]
  have ordered := marked.ordered key.store
  rw [inList] at ordered
  have members := marked.bySize key.store
  rw [inList] at members
  have inserted : (left.setTrunk key counted).setBySize key.store
      (insertBySize (sa.setTrunk key counted) trunk.usedBytes key bySize) =
      sa.orderIn key.store key trunk bySize := by
    unfold FSStorageAllocatorManager.orderIn
    exact @setBySize_setBySize (sa.setTrunk key counted) _ bySize _
  refine ⟨?_, fun store => ?_, fun store other member => ?_⟩
  · rw [← inserted]
    refine marked.setAllocator rfl (fun other member => ?_)
      (pairwise_insertBySize stores fresh used ordered) (marked.queue key.store)
    rcases (mem_insertBySize stores fresh other).mp member with rfl | before
    · refine ⟨rfl, counted, by simp, ?_, (by simp)⟩
      exact fun allocing => absurd (status.symm.trans allocing) (by simp)
    · obtain ⟨own, found, stored, other'⟩ := members other before
      refine ⟨own, found, stored, other', fun event => ?_⟩
      refine marked.created other found stored event ⟨key.store, ?_⟩
      rw [inList]
      exact before
  · unfold FSStorageAllocatorManager.orderIn
    rw [surplus_setBySize]
    exact surplus_setTrunk_of_avail sound present rfl
  · unfold FSStorageAllocatorManager.orderIn
    rw [setBySize_bySize]
    split_ifs with same
    · subst same
      refine (mem_insertBySize stores fresh other).mpr ?_
      by_cases self : other = key
      · exact Or.inl self
      · exact Or.inr (others other member self)
    · exact member

theorem mem_of_previousBySize {previous : TrunkKey} {bySize : List TrunkKey}
    (found : previousBySize key bySize = some previous) : key ∈ bySize := by
  induction bySize with
  | nil => cases found
  | cons first rest ih =>
      cases rest with
      | nil => cases found
      | cons second later =>
          unfold previousBySize at found
          split_ifs at found with same
          · rw [← same]
            exact List.mem_cons_of_mem _ List.mem_cons_self
          · exact List.mem_cons_of_mem _ (ih found)

/-- The event of a trunk outside of the freelists. -/
theorem Keeps.acceptTrunkUtilEvent (sound : sa.ListsSound) (present : sa.trunks key = some trunk)
    (status : trunk.status = .none) : Keeps sa (acceptTrunkUtilEvent key.store key trunk sa) := by
  have done : Keeps sa (sa.setTrunk key { trunk with utilEvent := .none }) :=
    Keeps.setTrunk_same sound present rfl rfl nofun rfl rfl rfl
  unfold Storage.acceptTrunkUtilEvent
  cases event : trunk.utilEvent with
  | none => exact done
  | create =>
      have fresh : key ∉ (sa.allocators key.store).bySize := fun member =>
        sound.created key trunk present event ⟨key.store, member⟩
      exact Keeps.orderIn sound present status (List.Sublist.refl _) fresh
        fun other member _ => member
  | update =>
      dsimp only
      split
      · split_ifs
        · refine Keeps.orderIn sound present status List.filter_sublist ?_ ?_
          · simp [deleteBySize]
          · intro other member apart
            exact List.mem_filter.mpr ⟨member, decide_eq_true apart⟩
        · exact done
      · exact done

theorem Keeps.dealTrunkUtilChangeEvent (sound : sa.ListsSound) (own : key.store = store) :
    Keeps sa (dealTrunkUtilChangeEvent store key sa) := by
  subst own
  unfold Storage.dealTrunkUtilChangeEvent
  cases present : sa.trunks key with
  | none => exact Keeps.refl sound
  | some trunk =>
      have done : Keeps sa (sa.setTrunk key { trunk with utilEvent := .none }) :=
        Keeps.setTrunk_same sound present rfl rfl nofun rfl rfl rfl
      dsimp only
      cases status : trunk.status with
      | none => exact Keeps.acceptTrunkUtilEvent sound present status
      | repush => exact Keeps.pushReclaimQueue sound key
      | allocing =>
          rw [status] at done
          exact done
      | reclaiming =>
          rw [status] at done
          exact done

/-! ## Trunks are added -/

theorem suits_freelistToAdd (key : TrunkKey) : Suits key (freelistToAdd key.store sa) := by
  intro store normal
  unfold freelistToAdd at normal
  split_ifs at normal
  cases normal
  rfl

theorem Keeps.trunkAllocatorAddToFreelist (sound : sa.ListsSound) (notFree : ¬ sa.Free key)
    (outside : ¬ sa.InBySize key) : Keeps sa (trunkAllocatorAddToFreelist key sa) :=
  Keeps.trunkFreelistAdd sound (suits_freelistToAdd key) notFree outside

theorem Keeps.preallocTrunkFinish (sound : sa.ListsSound) (config : FSStorageConfig) (store : Nat)
    (idInfo : FSTrunkIdInfo) : Keeps sa (preallocTrunkFinish config store idInfo sa).2 := by
  unfold Storage.preallocTrunkFinish trunkAllocatorAdd
  cases present : sa.trunks ⟨store, idInfo.id⟩ with
  | some trunk => exact Keeps.refl sound
  | none =>
      have notFree : ¬ sa.Free ⟨store, idInfo.id⟩ := by
        intro free
        obtain ⟨found, stored, _⟩ := sound.allocing _ free
        exact absurd (present.symm.trans stored) nofun
      have outside : ¬ sa.InBySize ⟨store, idInfo.id⟩ := by
        rintro ⟨other, member⟩
        obtain ⟨_, found, stored, _⟩ := sound.bySize other _ member
        exact absurd (present.symm.trans stored) nofun
      let fresh : FSTrunkFileInfo := ⟨idInfo, .none, 0, 0, [], config.trunkFileSize, 0, .none, 0⟩
      have fits : fresh.Fits :=
        ⟨le_rfl, (show (0 : Int) ≤ fsTrunkFileMinSize by decide).trans config.min_le, config.le_max⟩
      have added : Keeps sa (sa.setTrunk ⟨store, idInfo.id⟩ fresh) := by
        refine ⟨?_, fun other => ?_, fun _ _ member => member⟩
        · exact sound.setTrunk rfl fits (fun free => absurd free notFree)
            fun place => absurd place outside
        · exact surplus_setTrunk_same sound fun free => absurd free notFree
      exact added.trans (Keeps.trunkAllocatorAddToFreelist added.sound notFree outside)

theorem Keeps.trunkAllocatorDealOnReady (sound : sa.ListsSound) (ratios : Bool)
    (notFree : ¬ sa.Free key) (outside : ¬ sa.InBySize key) :
    Keeps sa (trunkAllocatorDealOnReady key ratios sa) := by
  unfold Storage.trunkAllocatorDealOnReady
  cases present : sa.trunks key with
  | none => exact Keeps.refl sound
  | some trunk =>
      dsimp only
      split_ifs
      · exact Keeps.trunkAllocatorAddToFreelist sound notFree outside
      · have fits := sound.fits key trunk present
        have reset : Keeps sa (sa.setTrunk key { trunk with freeStart := 0 }) := by
          refine ⟨?_, fun other => ?_, fun _ _ member => member⟩
          · refine sound.setTrunk_same present rfl rfl id rfl ?_
            exact ⟨le_rfl, fits.1.trans fits.2.1, fits.2.2⟩
          · exact surplus_setTrunk_same sound fun free => absurd free notFree
        exact reset.trans (Keeps.trunkAllocatorAddToFreelist reset.sound notFree outside)
      · refine Keeps.trunkFreelistAdd sound (fun store normal => ?_) notFree outside
        cases normal
        rfl
      · exact Keeps.pushTrunkUtilChangeEvent sound key .create fun _ => outside

/-! ## Reclaiming -/

/-- A trunk by size is in the list of its own path. -/
theorem ListsSound.inBySize_iff (sound : sa.ListsSound) :
    sa.InBySize key ↔ key ∈ (sa.allocators key.store).bySize := by
  constructor
  · rintro ⟨store, member⟩
    rw [(sound.bySize store key member).1]
    exact member
  · exact fun member => ⟨key.store, member⟩

/-- A trunk by size may change its status while it is reclaimed. -/
theorem Keeps.fsSetTrunkStatus (sound : sa.ListsSound) (inOrder : sa.InBySize key)
    {status : FSTrunkStatus} (apart : status ≠ .allocing) :
    Keeps sa (fsSetTrunkStatus key status sa) := by
  unfold Storage.fsSetTrunkStatus
  cases present : sa.trunks key with
  | none => exact Keeps.refl sound
  | some trunk =>
      refine ⟨?_, fun other => surplus_setTrunk_of_avail sound present rfl, fun _ _ member => member⟩
      refine sound.setTrunk (sound.named key trunk present) (sound.fits key trunk present)
        (fun free => absurd inOrder (sound.not_inBySize_of_free free)) fun place => ⟨apart, ?_, ?_⟩
      · exact fun event => sound.created key trunk present event place
      · rw [ListsSound.lastUsedBytes_eq present]

/-- The reclaimed trunk moves from `by_size` to a freelist. -/
theorem putBackTrunk_spec (sound : sa.ListsSound) (inOrder : sa.InBySize key) :
    (putBackTrunk key sa).ListsSound ∧
      (∀ store, (putBackTrunk key sa).surplus store = sa.surplus store) ∧
      ∀ store, ∀ other ∈ (sa.allocators store).bySize, other ≠ key →
        other ∈ ((putBackTrunk key sa).allocators store).bySize := by
  unfold putBackTrunk
  cases present : sa.trunks key with
  | none => exact ⟨sound, fun _ => rfl, fun _ _ member _ => member⟩
  | some trunk =>
      let reset : FSTrunkFileInfo := { trunk with freeStart := 0 }
      let bySize := deleteBySize key (sa.allocators key.store).bySize
      have fits := sound.fits key trunk present
      have notFree : ¬ sa.Free key := fun free => sound.not_inBySize_of_free free inOrder
      have emptied : (sa.setTrunk key reset).ListsSound :=
        sound.setTrunk_same present rfl rfl id rfl ⟨le_rfl, fits.1.trans fits.2.1, fits.2.2⟩
      have fresh : key ∉ bySize := by
        simp [bySize, deleteBySize]
      have deleted : ((sa.setTrunk key reset).setBySize key.store bySize).ListsSound :=
        emptied.setBySize_sublist List.filter_sublist
      have free : ¬ ((sa.setTrunk key reset).setBySize key.store bySize).Free key := by
        rintro ⟨type, member⟩
        have same : ((sa.setTrunk key reset).setBySize key.store bySize).freelist type =
            (sa.setTrunk key reset).freelist type := freelist_setBySize _ _ type
        refine notFree ⟨type, ?_⟩
        have moved : key ∈ ((sa.setTrunk key reset).freelist type).trunks := by
          rw [← same]
          exact member
        exact moved
      have added := Keeps.trunkAllocatorAddToFreelist deleted free
        (not_inBySize_setBySize emptied fresh)
      refine ⟨added.sound, fun store => ?_, fun store other member apart => ?_⟩
      · rw [added.surplus store, surplus_setBySize]
        exact surplus_setTrunk_same sound fun place => absurd place notFree
      · refine added.bySize store other ?_
        rw [setBySize_bySize]
        split_ifs with same
        · subst same
          exact List.mem_filter.mpr ⟨member, decide_eq_true apart⟩
        · exact member

end FSStorageAllocatorManager

/-! ## The runs -/

/-- The allocators, the callers of `trunk_freelist_alloc_space` that wait for a trunk of a path
with what they have still to allocate, and the trunk of each path that is being reclaimed. -/
structure FreelistState where
  sallocator : FSStorageAllocatorManager
  waiting : List (Nat × Int)
  reclaiming : Nat → Option TrunkKey

inductive FreelistAction where
  /-- The trunk maker has created a trunk file. -/
  | prealloc (store : Nat) (idInfo : FSTrunkIdInfo)
  /-- A loaded trunk is put in its place. -/
  | ready (key : TrunkKey) (ratios : Bool)
  | addSlice (slice : OBSliceEntry) (modifyUsedSpace : Bool)
  | deleteSlice (slice : OBSliceEntry) (modifyUsedSpace : Bool)
  /-- A client allocates from the freelist of a path. -/
  | alloc (store : Nat) (size : Nat)
  /-- `waiting_avail_trunk` returns, with or without an error. -/
  | wake (store : Nat) (alignedSize : Int) (ok : Bool)
  /-- The reclaimer allocates. -/
  | reclaimAlloc (type : FSTrunkFreelistType) (size : Nat)
  /-- The event at the head of a queue is handled. -/
  | deal (store : Nat)
  /-- `do_reclaim_trunk` until `trunk_reclaim`; `below` compares the ratios. -/
  | reclaim (store : Nat) (below : Bool)
  /-- `do_reclaim_trunk` behind `trunk_reclaim`. -/
  | reclaimed (store : Nat) (ok : Bool)

namespace FreelistState

variable (config : FSStorageConfig) (s : FreelistState)

/-- The second half of an allocation. -/
def allocRest (type : FSTrunkFreelistType) (alignedSize : Int) (sa : FSStorageAllocatorManager) :
    FSStorageAllocatorManager :=
  match Storage.allocRest config.discardRemainSpaceSize type alignedSize sa with
  | none => sa
  | some (_, rest) => rest

/-- `trunk_freelist_alloc_space` for a client: without a head it waits. -/
def allocSpace (store : Nat) (size : Nat) : FreelistState :=
  match allocRemain true (.normal store) (memAlignCeil size fsSpaceAlignSize) s.sallocator with
  | none => s
  | some (alignedSize, _, first) =>
      if (first.freelist (.normal store)).trunks = [] then
        { s with
          sallocator := first
          waiting := s.waiting ++ [(store, alignedSize)] }
      else { s with sallocator := allocRest config (.normal store) alignedSize first }

/-- The event at the head of a queue. -/
def dealEvent (store : Nat) : FreelistState :=
  match (s.sallocator.allocators store).reclaimQueue with
  | [] => s
  | key :: rest =>
      { s with
        sallocator := dealTrunkUtilChangeEvent store key
          (s.sallocator.setAllocator store
            { s.sallocator.allocators store with reclaimQueue := rest }) }

/-- `do_reclaim_trunk` until `trunk_reclaim`, which a trunk without used bytes does not need. -/
def startReclaim (store : Nat) (below : Bool) : FreelistState :=
  match reclaimCandidate store below s.sallocator with
  | none => s
  | some (key, trunk) =>
      if 0 < trunk.usedBytes then
        { s with
          sallocator := fsSetTrunkStatus key .reclaiming s.sallocator
          reclaiming := Function.update s.reclaiming store (some key) }
      else { s with sallocator := putBackTrunk key s.sallocator }

/-- The rest of `do_reclaim_trunk`. -/
def finishReclaim (store : Nat) (ok : Bool) : FreelistState :=
  match s.reclaiming store with
  | none => s
  | some key =>
      { s with
        sallocator :=
          if ok then putBackTrunk key s.sallocator else fsSetTrunkStatus key .none s.sallocator
        reclaiming := Function.update s.reclaiming store none }

/-- Loaded trunks are put in their places once; one thread works for a path. -/
def Enabled : FreelistAction → Prop
  | .ready key _ =>
      key ∉ s.sallocator.freeTrunks key.store ∧
        key ∉ (s.sallocator.allocators key.store).bySize
  | .wake store alignedSize _ => (store, alignedSize) ∈ s.waiting
  | .deal store => s.reclaiming store = none
  | .reclaim store _ => s.reclaiming store = none
  | _ => True

instance (action : FreelistAction) : Decidable (s.Enabled action) := by
  unfold Enabled
  split <;> infer_instance

def next : FreelistAction → FreelistState
  | .prealloc store idInfo =>
      { s with sallocator := (preallocTrunkFinish config store idInfo s.sallocator).2 }
  | .ready key ratios => { s with sallocator := trunkAllocatorDealOnReady key ratios s.sallocator }
  | .addSlice slice modifyUsedSpace =>
      { s with sallocator := (storageAllocatorAddSlice slice modifyUsedSpace s.sallocator).2 }
  | .deleteSlice slice modifyUsedSpace =>
      { s with sallocator := (storageAllocatorDeleteSlice slice modifyUsedSpace s.sallocator).2 }
  | .alloc store size => s.allocSpace config store size
  | .wake store alignedSize ok =>
      { s with
        sallocator :=
          if ok then allocRest config (.normal store) alignedSize s.sallocator else s.sallocator
        waiting := s.waiting.erase (store, alignedSize) }
  | .reclaimAlloc type size =>
      { s with
        sallocator := (reclaimAllocSpace config.discardRemainSpaceSize type size s.sallocator).2 }
  | .deal store => s.dealEvent store
  | .reclaim store below => s.startReclaim store below
  | .reclaimed store ok => s.finishReclaim store ok

end FreelistState

/-- The loaded trunks before any of them is in its place. -/
structure FreelistInit (s : FreelistState) : Prop where
  named : ∀ key trunk, s.sallocator.trunks key = some trunk → trunk.idInfo.id = key.id
  fits : ∀ key trunk, s.sallocator.trunks key = some trunk → trunk.Fits
  empty : ∀ type, (s.sallocator.freelist type).trunks = [] ∧ (s.sallocator.freelist type).count = 0
  bySize : ∀ store, (s.sallocator.allocators store).bySize = []
  queue : ∀ store, (s.sallocator.allocators store).reclaimQueue = []
  statAvail : ∀ store, (s.sallocator.allocators store).statAvail = 0
  waiting : s.waiting = []
  reclaiming : ∀ store, s.reclaiming store = none

/-- The steps of the trunk maker, the clients and the reclaimer. -/
def FreelistStep (config : FSStorageConfig) : StepRel FreelistState FreelistAction :=
  StepRel.ofNext FreelistState.Enabled (FreelistState.next config)

/-- What holds over a run. -/
structure FreelistState.Sound (s : FreelistState) : Prop where
  lists : s.sallocator.ListsSound
  exact : ∀ store, s.sallocator.surplus store = 0
  waiting : ∀ waiter ∈ s.waiting, 0 ≤ waiter.2
  reclaiming : ∀ store key, s.reclaiming store = some key →
    key ∈ (s.sallocator.allocators store).bySize

namespace FreelistState

open FSStorageAllocatorManager

variable {config : FSStorageConfig} {s : FreelistState}

/-- An operation of the allocators alone. -/
theorem Sound.keep (sound : s.Sound) {after : FSStorageAllocatorManager}
    (keeps : s.sallocator.Keeps after) : { s with sallocator := after }.Sound := by
  refine ⟨keeps.sound, fun store => ?_, sound.waiting, fun store key reclaiming => ?_⟩
  · rw [keeps.surplus store]
    exact sound.exact store
  · exact keeps.bySize store key (sound.reclaiming store key reclaiming)

theorem Sound.allocRest {after : FSStorageAllocatorManager} (lists : after.ListsSound)
    {alignedSize : Int} (positive : 0 ≤ alignedSize) (type : FSTrunkFreelistType) :
    after.Keeps (FreelistState.allocRest config type alignedSize after) := by
  unfold FreelistState.allocRest
  split
  · exact Keeps.refl lists
  · rename_i done
    exact Keeps.allocRest lists positive done

theorem memAlignCeil_nonneg (size : Nat) : 0 ≤ memAlignCeil size fsSpaceAlignSize := by
  unfold memAlignCeil fsSpaceAlignSize
  omega

theorem Sound.allocSpace (sound : s.Sound) (store size : Nat) :
    (s.allocSpace config store size).Sound := by
  unfold FreelistState.allocSpace
  cases half : allocRemain true (.normal store) (memAlignCeil size fsSpaceAlignSize)
      s.sallocator with
  | none => exact sound
  | some result =>
      obtain ⟨alignedSize, spaces, first⟩ := result
      obtain ⟨keeps, positive⟩ := Keeps.allocRemain sound.lists half
      have rest : 0 ≤ alignedSize := positive (memAlignCeil_nonneg size)
      have given := sound.keep keeps
      dsimp only
      split_ifs
      · refine ⟨given.lists, given.exact, fun waiter member => ?_, given.reclaiming⟩
        rcases List.mem_append.mp member with before | new
        · exact sound.waiting waiter before
        · rw [List.mem_singleton.mp new]
          exact rest
      · exact sound.keep (keeps.trans (Sound.allocRest keeps.sound rest (.normal store)))

theorem Sound.reclaimAlloc (sound : s.Sound) (type : FSTrunkFreelistType) (size : Nat) :
    s.sallocator.Keeps
      (reclaimAllocSpace config.discardRemainSpaceSize type size s.sallocator).2 := by
  unfold reclaimAllocSpace
  cases half : allocRemain false type (memAlignCeil size fsSpaceAlignSize) s.sallocator with
  | none => exact Keeps.refl sound.lists
  | some result =>
      obtain ⟨alignedSize, spaces, first⟩ := result
      obtain ⟨keeps, positive⟩ := Keeps.allocRemain sound.lists half
      dsimp only
      cases other : Storage.allocRest config.discardRemainSpaceSize type alignedSize first with
      | none => exact keeps
      | some given =>
          exact keeps.trans
            (Keeps.allocRest keeps.sound (positive (memAlignCeil_nonneg size)) other)

theorem Sound.dealEvent (sound : s.Sound) (store : Nat) : (s.dealEvent store).Sound := by
  unfold FreelistState.dealEvent
  cases queue : (s.sallocator.allocators store).reclaimQueue with
  | nil => exact sound
  | cons key rest =>
      have own := sound.lists.queue store
      rw [queue] at own
      have popped : s.sallocator.Keeps (s.sallocator.setAllocator store
          { s.sallocator.allocators store with reclaimQueue := rest }) := by
        refine ⟨?_, fun other => surplus_setAllocator_same rfl rfl, fun other another member => ?_⟩
        · exact sound.lists.setAllocator_same rfl rfl fun another member =>
            own another (List.mem_cons_of_mem _ member)
        · rw [setAllocator_bySize (by rfl)]
          exact member
      exact sound.keep (popped.trans
        (Keeps.dealTrunkUtilChangeEvent popped.sound (own key List.mem_cons_self)))

/-- The trunk that is put back is no longer the one that is reclaimed. -/
theorem Sound.putBack (sound : s.Sound) {key : TrunkKey} {store : Nat}
    (member : key ∈ (s.sallocator.allocators store).bySize)
    {reclaiming : Nat → Option TrunkKey}
    (others : ∀ other, reclaiming other = if other = store then none else s.reclaiming other) :
    { s with
      sallocator := putBackTrunk key s.sallocator
      reclaiming := reclaiming }.Sound := by
  obtain ⟨lists, surplus, bySize⟩ := putBackTrunk_spec sound.lists ⟨store, member⟩
  refine ⟨lists, fun other => ?_, sound.waiting, fun other found taken => ?_⟩
  · rw [surplus other]
    exact sound.exact other
  · dsimp only at taken
    rw [others] at taken
    split_ifs at taken with same
    have inOrder := sound.reclaiming other found taken
    refine bySize other found inOrder ?_
    rintro rfl
    exact same ((sound.lists.bySize other found inOrder).1.symm.trans
      (sound.lists.bySize store found member).1)

theorem mem_of_reclaimCandidate {sa : FSStorageAllocatorManager} {store : Nat} {below : Bool}
    {key : TrunkKey} {trunk : FSTrunkFileInfo}
    (found : reclaimCandidate store below sa = some (key, trunk)) :
    key ∈ (sa.allocators store).bySize := by
  unfold reclaimCandidate at found
  cases list : (sa.allocators store).bySize with
  | nil =>
      rw [list] at found
      cases found
  | cons first rest =>
      rw [list] at found
      dsimp only at found
      cases present : sa.trunks first with
      | none =>
          rw [present] at found
          cases found
      | some other =>
          rw [present] at found
          dsimp only at found
          split_ifs at found
          cases found
          exact List.mem_cons_self

theorem Sound.startReclaim (sound : s.Sound) {store : Nat} (idle : s.reclaiming store = none)
    (below : Bool) : (s.startReclaim store below).Sound := by
  unfold FreelistState.startReclaim
  cases found : reclaimCandidate store below s.sallocator with
  | none => exact sound
  | some candidate =>
      obtain ⟨key, trunk⟩ := candidate
      have member := mem_of_reclaimCandidate found
      dsimp only
      split_ifs
      · have marked : Keeps s.sallocator (fsSetTrunkStatus key .reclaiming s.sallocator) :=
          Keeps.fsSetTrunkStatus sound.lists ⟨store, member⟩ nofun
        refine ⟨marked.sound, (sound.keep marked).exact, sound.waiting, fun other taken here => ?_⟩
        by_cases same : other = store
        · subst same
          dsimp only at here
          rw [Function.update_self] at here
          cases here
          exact marked.bySize other key member
        · dsimp only at here
          rw [Function.update_of_ne same] at here
          exact (sound.keep marked).reclaiming other taken here
      · refine sound.putBack member fun other => ?_
        split_ifs with same
        · rw [same]
          exact idle
        · rfl

theorem Sound.finishReclaim (sound : s.Sound) (store : Nat) (ok : Bool) :
    (s.finishReclaim store ok).Sound := by
  unfold FreelistState.finishReclaim
  cases taken : s.reclaiming store with
  | none => exact sound
  | some key =>
      have member := sound.reclaiming store key taken
      cases ok with
      | true =>
          refine sound.putBack member fun other => ?_
          rw [Function.update_apply]
      | false =>
          have unmarks : Keeps s.sallocator (fsSetTrunkStatus key .none s.sallocator) :=
            Keeps.fsSetTrunkStatus sound.lists ⟨store, member⟩ nofun
          have marked := sound.keep unmarks
          refine ⟨marked.lists, marked.exact, marked.waiting, fun other found here => ?_⟩
          refine marked.reclaiming other found ?_
          dsimp only at here
          rw [Function.update_apply] at here
          split_ifs at here
          exact here

theorem Sound.next (sound : s.Sound) (action : FreelistAction) (enabled : s.Enabled action) :
    (s.next config action).Sound := by
  cases action with
  | prealloc store idInfo =>
      exact sound.keep (Keeps.preallocTrunkFinish sound.lists config store idInfo)
  | ready key ratios =>
      refine sound.keep (Keeps.trunkAllocatorDealOnReady sound.lists ratios (fun free => ?_)
        fun place => ?_)
      · exact enabled.1 (sound.lists.mem_freeTrunks_iff.mpr ⟨free, rfl⟩)
      · exact enabled.2 (sound.lists.inBySize_iff.mp place)
  | addSlice slice modifyUsedSpace =>
      exact sound.keep (Keeps.storageAllocatorAddSlice sound.lists slice modifyUsedSpace)
  | deleteSlice slice modifyUsedSpace =>
      exact sound.keep (Keeps.storageAllocatorDeleteSlice sound.lists slice modifyUsedSpace)
  | alloc store size => exact sound.allocSpace store size
  | wake store alignedSize ok =>
      have positive : 0 ≤ alignedSize := sound.waiting _ enabled
      have woken : { s with
          sallocator :=
            if ok then FreelistState.allocRest config (.normal store) alignedSize s.sallocator
            else s.sallocator }.Sound := by
        cases ok with
        | true => exact sound.keep (Sound.allocRest sound.lists positive (.normal store))
        | false => exact sound
      refine ⟨woken.lists, woken.exact, fun waiter member => ?_, woken.reclaiming⟩
      exact sound.waiting waiter (List.mem_of_mem_erase member)
  | reclaimAlloc type size => exact sound.keep (sound.reclaimAlloc type size)
  | deal store => exact sound.dealEvent store
  | reclaim store below => exact sound.startReclaim enabled below
  | reclaimed store ok => exact sound.finishReclaim store ok

theorem Sound.init (start : FreelistInit s) : s.Sound := by
  have notFree : ∀ key, ¬ s.sallocator.Free key := by
    rintro key ⟨type, member⟩
    rw [(start.empty type).1] at member
    cases member
  have outside : ∀ store key, key ∉ (s.sallocator.allocators store).bySize := by
    intro store key member
    rw [start.bySize store] at member
    cases member
  refine ⟨⟨start.named, start.fits, fun type => ?_, fun type => ?_, fun store key member => ?_,
    fun type other key member => ?_, fun key free => absurd free (notFree key),
    fun store key member => absurd member (outside store key), fun store => ?_,
    fun key trunk _ _ place => ?_, fun store key member => ?_⟩, fun store => ?_,
    fun waiter member => ?_, fun store key taken => ?_⟩
  · rw [(start.empty type).1, (start.empty type).2]
    rfl
  · rw [(start.empty type).1]
    exact List.nodup_nil
  · exact absurd ⟨_, member⟩ (notFree key)
  · exact absurd ⟨_, member⟩ (notFree key)
  · rw [start.bySize store]
    exact List.Pairwise.nil
  · obtain ⟨store, member⟩ := place
    exact outside store key member
  · rw [start.queue store] at member
    cases member
  · unfold surplus freeBytes freeTrunks
    rw [(start.empty _).1, (start.empty _).1, start.statAvail store]
    rfl
  · rw [start.waiting] at member
    cases member
  · rw [start.reclaiming store] at taken
    cases taken

theorem sound_of_reachable (reached : Reachable (FreelistStep config) FreelistInit s) :
    s.Sound := by
  refine reached.invariant (fun _ start => Sound.init start) ?_
  rintro s action _ sound ⟨enabled, rfl⟩
  exact sound.next action enabled

end FreelistState

end FastStore.Storage
