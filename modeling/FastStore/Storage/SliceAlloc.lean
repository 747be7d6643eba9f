import FastStore.Storage.FreelistRuns

/-!
# Allocating slices

`trunk_freelist_alloc_space` as a whole, with the trunks as they are when the call begins and,
if it has to wait for a trunk, as they are when `waiting_avail_trunk` returns; and the slices
that `fs_slice_alloc` makes of the spaces.  The size is rounded up before it is compared with
what the head has left, but the slices are cut by the length of the request.
-/

namespace FastStore.Storage

open FastStore.Util FSStorageAllocatorManager

/-- What `trunk_freelist_alloc_space` comes to. -/
inductive AllocResult where
  | aborts
  | eagain
  /-- `waiting_avail_trunk` has failed, or there is no trunk still. -/
  | noTrunk
  | ok (spaces : List FSTrunkSpaceInfo)
  deriving DecidableEq, Repr

/-- The end of `trunk_freelist_alloc_space`, with the space that the call has already. -/
def allocLast (discardRemainSpaceSize : Int) (type : FSTrunkFreelistType) (alignedSize : Int)
    (spaces : List FSTrunkSpaceInfo) (sa : FSStorageAllocatorManager) : AllocResult :=
  match allocRest discardRemainSpaceSize type alignedSize sa with
  | some (space, _) => .ok (spaces ++ [space])
  | none =>
      match sa.headTrunk type with
      | none => .noTrunk
      | some _ => .eagain

/-- `trunk_freelist_alloc_space`; `woken` are the trunks when `waiting_avail_trunk` returns zero,
nothing when it fails. -/
def trunkFreelistAllocSpace (discardRemainSpaceSize : Int) (isNormal : Bool)
    (type : FSTrunkFreelistType) (size : Int) (sa : FSStorageAllocatorManager)
    (woken : Option FSStorageAllocatorManager) : AllocResult :=
  match allocRemain isNormal type (memAlignCeil size fsSpaceAlignSize) sa with
  | none => if isNormal = false ∧ (sa.freelist type).count ≤ 1 then .eagain else .aborts
  | some (alignedSize, spaces, first) =>
      if (first.freelist type).trunks = [] then
        if isNormal = false then .eagain
        else
          match woken with
          | none => .noTrunk
          | some later => allocLast discardRemainSpaceSize type alignedSize spaces later
      else allocLast discardRemainSpaceSize type alignedSize spaces first

/-- The loop of `fs_slice_alloc`. -/
def cutSlices (bkey : FSBlockKey) (sliceType : OBSliceType) :
    Int → Int → List FSTrunkSpaceInfo → List OBSliceEntry
  | _, _, [] => []
  | offset, remain, space :: rest =>
      let length := if space.size < remain then space.size else remain
      ⟨bkey, sliceType, ⟨offset, length⟩, space⟩ ::
        cutSlices bkey sliceType (offset + length) (remain - length) rest

/-- The slices that `fs_slice_alloc` makes of the spaces. -/
def initSlices (bsKey : FSBlockSliceKeyInfo) (sliceType : OBSliceType) :
    List FSTrunkSpaceInfo → List OBSliceEntry
  | [space] => [⟨bsKey.block, sliceType, bsKey.slice, space⟩]
  | spaces => cutSlices bsKey.block sliceType bsKey.slice.offset bsKey.slice.length spaces

/-- `fs_slice_alloc`, with the freelist and the trunks of the last call of
`trunk_freelist_alloc_space`. -/
def fsSliceAlloc (discardRemainSpaceSize : Int) (bsKey : FSBlockSliceKeyInfo)
    (sliceType : OBSliceType) (isNormal : Bool) (type : FSTrunkFreelistType)
    (sa : FSStorageAllocatorManager) (woken : Option FSStorageAllocatorManager) :
    Option (List OBSliceEntry) :=
  match trunkFreelistAllocSpace discardRemainSpaceSize isNormal type bsKey.slice.length sa woken with
  | .ok spaces => some (initSlices bsKey sliceType spaces)
  | _ => none

/-- Each slice begins where the one before ends. -/
def Consecutive : Int → List OBSliceEntry → Prop
  | _, [] => True
  | offset, slice :: rest =>
      slice.ssize.offset = offset ∧ Consecutive (offset + slice.ssize.length) rest

/-- The slices have positive lengths, tile the range and fit in their spaces. -/
structure Tiles (range : FSSliceSize) (slices : List OBSliceEntry) : Prop where
  positive : ∀ slice ∈ slices, 1 ≤ slice.ssize.length
  consecutive : Consecutive range.offset slices
  total : (slices.map fun slice => slice.ssize.length).sum = range.length
  fits : ∀ slice ∈ slices, slice.ssize.length ≤ slice.space.size

/-- The head has room for the length, but not for the length rounded up. -/
def BetweenLengths (type : FSTrunkFreelistType) (length : Int) (sa : FSStorageAllocatorManager) :
    Prop :=
  ∃ key trunk, sa.headTrunk type = some (key, trunk) ∧ length ≤ trunk.availSpace ∧
    trunk.availSpace < memAlignCeil length fsSpaceAlignSize

variable {sa : FSStorageAllocatorManager} {type : FSTrunkFreelistType} {isNormal : Bool}
  {discardRemainSpaceSize size : Int} {woken : Option FSStorageAllocatorManager}
  {spaces : List FSTrunkSpaceInfo}

theorem le_memAlignCeil (size : Int) :
    size ≤ memAlignCeil size fsSpaceAlignSize ∧ memAlignCeil size fsSpaceAlignSize < size + 8 := by
  unfold memAlignCeil fsSpaceAlignSize
  omega

/-- The space that is given out last has the size that was left. -/
theorem space_of_allocRest {alignedSize : Int}
    {result : FSTrunkSpaceInfo × FSStorageAllocatorManager}
    (done : allocRest discardRemainSpaceSize type alignedSize sa = some result) :
    ∃ key trunk, sa.headTrunk type = some (key, trunk) ∧ alignedSize ≤ trunk.availSpace ∧
      result.1 = ⟨key.store, trunk.idInfo, trunk.freeStart, alignedSize⟩ := by
  unfold allocRest at done
  cases head : sa.headTrunk type with
  | none =>
      rw [head] at done
      cases done
  | some found =>
      obtain ⟨key, trunk⟩ := found
      rw [head] at done
      dsimp only at done
      split_ifs at done with less
      · cases done
        exact ⟨key, trunk, rfl, Int.not_lt.mp less, rfl⟩
      · cases done
        exact ⟨key, trunk, rfl, Int.not_lt.mp less, rfl⟩

theorem ok_of_allocLast {alignedSize : Int} {given : List FSTrunkSpaceInfo}
    (done : allocLast discardRemainSpaceSize type alignedSize given sa = .ok spaces) :
    ∃ key trunk, sa.headTrunk type = some (key, trunk) ∧ alignedSize ≤ trunk.availSpace ∧
      spaces = given ++ [⟨key.store, trunk.idInfo, trunk.freeStart, alignedSize⟩] := by
  unfold allocLast at done
  cases rest : allocRest discardRemainSpaceSize type alignedSize sa with
  | none =>
      rw [rest] at done
      dsimp only at done
      split at done <;> cases done
  | some result =>
      rw [rest] at done
      cases done
      obtain ⟨key, trunk, head, room, given⟩ := space_of_allocRest rest
      exact ⟨key, trunk, head, room, by rw [given]⟩

/-- A call that succeeds ends with the last space, taken where the call begins or, if it has
waited, where it goes on. -/
theorem ok_of_alloc
    (done : trunkFreelistAllocSpace discardRemainSpaceSize isNormal type size sa woken =
      .ok spaces) :
    ∃ alignedSize given first, ∃ last,
      allocRemain isNormal type (memAlignCeil size fsSpaceAlignSize) sa =
        some (alignedSize, given, first) ∧
      (last = first ∨ some last = woken) ∧
      allocLast discardRemainSpaceSize type alignedSize given last = .ok spaces := by
  unfold trunkFreelistAllocSpace at done
  cases half : allocRemain isNormal type (memAlignCeil size fsSpaceAlignSize) sa with
  | none =>
      rw [half] at done
      dsimp only at done
      split_ifs at done
  | some result =>
      obtain ⟨alignedSize, given, first⟩ := result
      rw [half] at done
      dsimp only at done
      split_ifs at done
      · cases later : woken with
        | none =>
            rw [later] at done
            cases done
        | some last =>
            rw [later] at done
            exact ⟨alignedSize, given, first, last, rfl, Or.inr rfl, done⟩
      · exact ⟨alignedSize, given, first, first, rfl, Or.inl rfl, done⟩

/-- What the first half gives: nothing, while the head has room for all of it or there is none;
or all that the head has. -/
theorem allocRemain_cases (sound : sa.ListsSound) {alignedSize : Int}
    {given : List FSTrunkSpaceInfo} {first : FSStorageAllocatorManager}
    (done : allocRemain isNormal type size sa = some (alignedSize, given, first)) :
    alignedSize = size ∧ given = [] ∧ first = sa ∧
        (∀ key trunk, sa.headTrunk type = some (key, trunk) →
          size ≤ trunk.availSpace.bmod (2 ^ 32)) ∨
      ∃ key trunk, sa.headTrunk type = some (key, trunk) ∧ 0 < trunk.availSpace ∧
        trunk.availSpace < size ∧ alignedSize = size - trunk.availSpace ∧
        given = [⟨key.store, trunk.idInfo, trunk.freeStart, trunk.availSpace⟩] ∧
        first = trunkFreelistRemove type (trunkAllocSpace key trunk trunk.availSpace sa).2 := by
  unfold allocRemain at done
  cases head : sa.headTrunk type with
  | none =>
      rw [head] at done
      cases done
      exact Or.inl ⟨rfl, rfl, rfl, nofun⟩
  | some found =>
      obtain ⟨key, trunk⟩ := found
      rw [head] at done
      dsimp only at done
      split_ifs at done with less _ empty
      · obtain ⟨rest, list, present⟩ := cons_of_headTrunk head
        have fits := sound.fits key trunk present
        have whole : trunk.availSpace.bmod (2 ^ 32) = trunk.availSpace := by
          refine bmod_eq_of_pos ?_ ?_ (Int.not_le.mp empty)
          · exact Int.sub_nonneg_of_le fits.2.1
          · exact (Int.sub_le_self _ fits.1).trans fits.2.2
        rw [whole] at less empty done
        cases done
        exact Or.inr ⟨key, trunk, rfl, Int.not_le.mp empty, less, rfl, rfl, rfl⟩
      · cases done
        refine Or.inl ⟨rfl, rfl, rfl, fun other found same => ?_⟩
        cases same
        exact Int.not_lt.mp less

theorem bmod_le_self {value : Int} (positive : 0 ≤ value) : value.bmod (2 ^ 32) ≤ value := by
  unfold Int.bmod
  norm_num
  split_ifs <;> omega

theorem not_betweenLengths_of_le (sound : sa.ListsSound)
    (room : ∀ key trunk, sa.headTrunk type = some (key, trunk) →
      memAlignCeil size fsSpaceAlignSize ≤ trunk.availSpace.bmod (2 ^ 32)) :
    ¬ BetweenLengths type size sa := by
  rintro ⟨key, trunk, head, -, less⟩
  obtain ⟨rest, list, present⟩ := cons_of_headTrunk head
  have fits := sound.fits key trunk present
  have whole : trunk.availSpace.bmod (2 ^ 32) ≤ trunk.availSpace :=
    bmod_le_self (Int.sub_nonneg_of_le fits.2.1)
  exact absurd less (Int.not_lt.mpr ((room key trunk head).trans whole))

/-- One space takes the whole range. -/
theorem tiles_single {bsKey : FSBlockSliceKeyInfo} {sliceType : OBSliceType}
    {space : FSTrunkSpaceInfo} (positive : 1 ≤ bsKey.slice.length)
    (room : bsKey.slice.length ≤ space.size) :
    Tiles bsKey.slice (initSlices bsKey sliceType [space]) := by
  refine ⟨fun slice member => ?_, ⟨rfl, trivial⟩, ?_, fun slice member => ?_⟩
  · rw [List.mem_singleton.mp member]
    exact positive
  · exact Int.add_zero _
  · rw [List.mem_singleton.mp member]
    exact room

/-- Two spaces: the second slice is empty when the first space takes the whole range. -/
theorem tiles_pair_iff {bsKey : FSBlockSliceKeyInfo} {sliceType : OBSliceType}
    {space other : FSTrunkSpaceInfo} (positive : 0 < space.size)
    (room : bsKey.slice.length ≤ space.size + other.size) :
    Tiles bsKey.slice (initSlices bsKey sliceType [space, other]) ↔
      space.size < bsKey.slice.length := by
  have slices : initSlices bsKey sliceType [space, other] =
      cutSlices bsKey.block sliceType bsKey.slice.offset bsKey.slice.length [space, other] := rfl
  rw [slices]
  unfold cutSlices cutSlices cutSlices
  dsimp only
  constructor
  · intro tiles
    by_contra covered
    rw [if_neg covered, Int.sub_self] at tiles
    have last := tiles.positive _ (List.mem_cons_of_mem _ List.mem_cons_self)
    dsimp only at last
    split_ifs at last <;> omega
  · intro less
    have rest : ¬ other.size < bsKey.slice.length - space.size := by omega
    rw [if_pos less, if_neg rest]
    refine ⟨fun slice member => ?_, ⟨rfl, rfl, trivial⟩, ?_, fun slice member => ?_⟩
    · rcases List.mem_pair.mp member with rfl | rfl
      · exact positive
      · show 1 ≤ bsKey.slice.length - space.size
        omega
    · show space.size + (bsKey.slice.length - space.size + 0) = bsKey.slice.length
      omega
    · rcases List.mem_pair.mp member with rfl | rfl
      · exact le_rfl
      · exact Int.not_lt.mp rest

theorem tiles_iff_of_sound (sound : sa.ListsSound) {bsKey : FSBlockSliceKeyInfo}
    {sliceType : OBSliceType} (positive : 1 ≤ bsKey.slice.length) {slices : List OBSliceEntry}
    (done : fsSliceAlloc discardRemainSpaceSize bsKey sliceType isNormal type sa woken =
      some slices) :
    Tiles bsKey.slice slices ↔ ¬ BetweenLengths type bsKey.slice.length sa := by
  unfold fsSliceAlloc at done
  cases result : trunkFreelistAllocSpace discardRemainSpaceSize isNormal type bsKey.slice.length sa
      woken with
  | aborts | eagain | noTrunk =>
      rw [result] at done
      cases done
  | ok spaces =>
      rw [result] at done
      cases done
      obtain ⟨alignedSize, given, first, last, half, -, ends⟩ := ok_of_alloc result
      obtain ⟨-, trunk, -, -, rfl⟩ := ok_of_allocLast ends
      obtain ⟨le, -⟩ := le_memAlignCeil bsKey.slice.length
      rcases allocRemain_cases sound half with
        ⟨rfl, rfl, -, room⟩ | ⟨key, head, isHead, some, less, rfl, rfl, -⟩
      · exact iff_of_true (tiles_single positive le) (not_betweenLengths_of_le sound room)
      · refine (tiles_pair_iff some ?_).trans ⟨?_, ?_⟩
        · show bsKey.slice.length ≤ head.availSpace + (_ - head.availSpace)
          omega
        · rintro short ⟨other, found, isFound, enough, -⟩
          cases isHead.symm.trans isFound
          exact absurd short (Int.not_lt.mpr enough)
        · intro apart
          by_contra covered
          exact apart ⟨key, head, isHead, Int.not_lt.mp covered, less⟩

/-- In every run, the slices of an allocation that succeeds tile the request exactly when the
head does not have room for the length and none for the length rounded up. -/
theorem slices_tile_iff {config : FSStorageConfig} {s : FreelistState}
    (reached : Reachable (FreelistStep config) FreelistInit s)
    {bsKey : FSBlockSliceKeyInfo} {sliceType : OBSliceType} {isNormal : Bool}
    {type : FSTrunkFreelistType} {woken : Option FSStorageAllocatorManager}
    {slices : List OBSliceEntry} (positive : 1 ≤ bsKey.slice.length)
    (done : fsSliceAlloc config.discardRemainSpaceSize bsKey sliceType isNormal type s.sallocator
      woken = some slices) :
    Tiles bsKey.slice slices ↔ ¬ BetweenLengths type bsKey.slice.length s.sallocator :=
  tiles_iff_of_sound (FreelistState.sound_of_reachable reached).lists positive done

/-- A trunk whose last slice ends 4 MB and 257 bytes before its end, and an empty one. -/
def unevenTrunks : FreelistState :=
  ⟨⟨fun key =>
      if key = ⟨0, 1⟩ then
        some ⟨⟨1, 0⟩, .none, 1, 4096, [], 64 * 1024 * 1024, 60 * 1024 * 1024 - 257, .none, 0⟩
      else if key = ⟨0, 2⟩ then some ⟨⟨2, 0⟩, .none, 0, 0, [], 64 * 1024 * 1024, 0, .none, 0⟩
      else none,
    fun _ => ⟨[], ⟨[], 0, 2⟩, 0, [], 0, 0⟩, ⟨[], 0, 0⟩⟩, [], fun _ => none⟩

theorem freelistInit_unevenTrunks : FreelistInit unevenTrunks := by
  have cases_of {key : TrunkKey} {trunk : FSTrunkFileInfo}
      (found : unevenTrunks.sallocator.trunks key = some trunk) :
      trunk.idInfo.id = key.id ∧ trunk.Fits := by
    simp only [unevenTrunks] at found
    split_ifs at found with first second
    · cases found
      rw [first]
      exact ⟨rfl, by decide, by decide, by decide⟩
    · cases found
      rw [second]
      exact ⟨rfl, by decide, by decide, by decide⟩
  refine ⟨fun key trunk found => (cases_of found).1, fun key trunk found => (cases_of found).2,
    fun type => ?_, fun _ => rfl, fun _ => rfl, fun _ => rfl, rfl, fun _ => rfl⟩
  cases type <;> exact ⟨rfl, rfl⟩

/-- The trunks after 4 MB have been allocated: 257 bytes are left in the first one. -/
def unevenHead : FreelistState :=
  [FreelistAction.ready ⟨0, 1⟩ true, .ready ⟨0, 2⟩ true, .alloc 0 (4 * 1024 * 1024)].foldl
    (FreelistState.next (loadStorageConfig 0 256)) unevenTrunks

theorem reachable_unevenHead :
    Reachable (FreelistStep (loadStorageConfig 0 256)) FreelistInit unevenHead := by
  have start : Reachable (FreelistStep (loadStorageConfig 0 256)) FreelistInit unevenTrunks :=
    .start freelistInit_unevenTrunks
  exact start.follow _ (by decide +kernel)

/-- A request of 300 bytes gets the 257 bytes and 43 of the next trunk. -/
theorem slices_tile_iff_uneven :
    ∃ slices, fsSliceAlloc 256 ⟨⟨1, 0⟩, ⟨0, 300⟩⟩ .file true (.normal 0) unevenHead.sallocator
        none = some slices ∧
      slices.map (fun slice => slice.ssize) = [⟨0, 257⟩, ⟨257, 43⟩] ∧ Tiles ⟨0, 300⟩ slices := by
  have done : fsSliceAlloc 256 ⟨⟨1, 0⟩, ⟨0, 300⟩⟩ .file true (.normal 0) unevenHead.sallocator
      none = some
        [⟨⟨1, 0⟩, .file, ⟨0, 257⟩, ⟨0, ⟨1, 0⟩, 64 * 1024 * 1024 - 257, 257⟩⟩,
          ⟨⟨1, 0⟩, .file, ⟨257, 43⟩, ⟨0, ⟨2, 0⟩, 0, 47⟩⟩] := by decide +kernel
  refine ⟨_, done, rfl, (slices_tile_iff reachable_unevenHead (by decide) done).mpr ?_⟩
  rintro ⟨key, trunk, head, enough, -⟩
  have avail : (unevenHead.sallocator.headTrunk (.normal 0)).map (fun found => found.2.availSpace) =
      some 257 := by decide +kernel
  rw [head] at avail
  have left : trunk.availSpace = 257 := Option.some.inj avail
  rw [left] at enough
  exact absurd enough (by decide)

/-- A request of 257 bytes gets the 257 bytes and 7 bytes of the next trunk, which hold an empty
slice. -/
theorem slices_untiled :
    ¬ ∀ (config : FSStorageConfig) (s : FreelistState) (bsKey : FSBlockSliceKeyInfo)
        (slices : List OBSliceEntry), Reachable (FreelistStep config) FreelistInit s →
      1 ≤ bsKey.slice.length → bsKey.slice.length ≤ fsFileBlockSize →
      fsSliceAlloc config.discardRemainSpaceSize bsKey .file true (.normal 0) s.sallocator none =
        some slices → Tiles bsKey.slice slices := by
  intro tiles
  have done : fsSliceAlloc 256 ⟨⟨1, 0⟩, ⟨0, 257⟩⟩ .file true (.normal 0) unevenHead.sallocator
      none = some
        [⟨⟨1, 0⟩, .file, ⟨0, 257⟩, ⟨0, ⟨1, 0⟩, 64 * 1024 * 1024 - 257, 257⟩⟩,
          ⟨⟨1, 0⟩, .file, ⟨257, 0⟩, ⟨0, ⟨2, 0⟩, 0, 7⟩⟩] := by decide +kernel
  have tiled := tiles (loadStorageConfig 0 256) unevenHead ⟨⟨1, 0⟩, ⟨0, 257⟩⟩ _ reachable_unevenHead
    (by decide) (by decide) done
  have positive := tiled.positive _ (List.mem_cons_of_mem _ List.mem_cons_self)
  exact absurd positive (by decide)

end FastStore.Storage
