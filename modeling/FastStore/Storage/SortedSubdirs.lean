import FastStore.Util.UniqSkiplist
import FastStore.Util.Wire
import FastStore.Storage.TrunkIdInfo

/-!
# The subdirs of a store path

A store path counts the trunk files of each of its subdirs, and keeps the subdirs with room for
another file in a second skiplist, from which the subdir of a new trunk is taken.  Both skiplists
hold pointers to the same `StoreSubdirInfo`, so the second is a list of subdir numbers here.
-/

namespace FastStore.Storage

open FastStore.Util

structure StoreSubdirInfo where
  subdir : Int
  fileCount : Int
  deriving DecidableEq, Repr

/-- `SortedSubdirs`: the subdirs in order, and those of them in the freelist. -/
structure SortedSubdirs where
  all : List StoreSubdirInfo
  freelist : List Int
  deriving DecidableEq, Repr

/-- The skiplists of a store path, ordered by `compare_by_id`. -/
structure SubdirSkiplists where
  all : UniqSkiplist StoreSubdirInfo.subdir
  freelist : UniqSkiplist (id : Int → Int)

namespace SortedSubdirs

/-- The file count of a subdir changes where it stands. -/
def recount (subdir change : Int) (all : List StoreSubdirInfo) : List StoreSubdirInfo :=
  all.map fun entry =>
    if entry.subdir = subdir then { entry with fileCount := entry.fileCount + change } else entry

section Model

variable (skiplists : SubdirSkiplists) (maxTrunkFilesPerSubdir : Int) (subdirs : SortedSubdirs)
  (idInfo : FSTrunkIdInfo)

/-- `trunk_id_info_add`.  The subdir of `StoreSubdirInfo` is an `int`. -/
def trunkIdInfoAdd : Errno × SortedSubdirs :=
  let target := toInt idInfo.subdir
  match Chain.find? StoreSubdirInfo.subdir target subdirs.all with
  | some subdir =>
      (.ok, ⟨recount target 1 subdirs.all,
        if maxTrunkFilesPerSubdir ≤ subdir.fileCount + 1 then
          (skiplists.freelist.delete subdirs.freelist target).2
        else subdirs.freelist⟩)
  | none =>
      match skiplists.all.insert subdirs.all ⟨target, 1⟩ with
      | (.ok, all) =>
          if 1 < maxTrunkFilesPerSubdir then
            let inserted := skiplists.freelist.insert subdirs.freelist target
            (inserted.1, ⟨all, inserted.2⟩)
          else (.ok, ⟨all, subdirs.freelist⟩)
      | (result, all) => (result, ⟨all, subdirs.freelist⟩)

/-- `trunk_id_info_delete`; the result of the insert is not looked at. -/
def trunkIdInfoDelete : Errno × SortedSubdirs :=
  let target := toInt idInfo.subdir
  match Chain.find? StoreSubdirInfo.subdir target subdirs.all with
  | some subdir =>
      (.ok, ⟨recount target (-1) subdirs.all,
        if maxTrunkFilesPerSubdir ≤ subdir.fileCount then
          (skiplists.freelist.insert subdirs.freelist target).2
        else subdirs.freelist⟩)
  | none => (.ok, subdirs)

end Model

/-! ## Counting -/

/-- The subdirs in `named` have come up, and `count` is the number of files of each. -/
structure Counts (maxTrunkFilesPerSubdir : Int) (subdirs : SortedSubdirs) (count : Int → Nat)
    (named : Int → Prop) : Prop where
  sorted : Ascending StoreSubdirInfo.subdir subdirs.all
  freeSorted : Ascending (id : Int → Int) subdirs.freelist
  listed : ∀ entry, entry ∈ subdirs.all ↔
    named entry.subdir ∧ entry.fileCount = count entry.subdir
  free : ∀ subdir, subdir ∈ subdirs.freelist ↔
    named subdir ∧ (count subdir : Int) < maxTrunkFilesPerSubdir
  used : ∀ subdir, 0 < count subdir → named subdir

variable {maxTrunkFilesPerSubdir : Int} {subdirs other : SortedSubdirs} {count : Int → Nat}
  {named : Int → Prop}

/-- The counts determine both skiplists. -/
theorem Counts.unique (counts : subdirs.Counts maxTrunkFilesPerSubdir count named)
    (same : other.Counts maxTrunkFilesPerSubdir count named) : subdirs = other := by
  have all : subdirs.all = other.all := by
    apply counts.sorted.eq_of_mem_iff same.sorted
    intro entry
    rw [counts.listed, same.listed]
  have freelist : subdirs.freelist = other.freelist := by
    apply counts.freeSorted.eq_of_mem_iff same.freeSorted
    intro subdir
    rw [counts.free, same.free]
  cases subdirs
  cases other
  cases all
  cases freelist
  rfl

theorem Counts.congr (counts : subdirs.Counts maxTrunkFilesPerSubdir count named)
    {later : Int → Nat} {laterNamed : Int → Prop} (same : ∀ subdir, later subdir = count subdir)
    (sameNamed : ∀ subdir, laterNamed subdir ↔ named subdir) :
    subdirs.Counts maxTrunkFilesPerSubdir later laterNamed := by
  obtain rfl : later = count := funext same
  obtain rfl : laterNamed = named := funext fun subdir => propext (sameNamed subdir)
  exact counts

theorem counts_nil (maxTrunkFilesPerSubdir : Int) :
    (⟨[], []⟩ : SortedSubdirs).Counts maxTrunkFilesPerSubdir (fun _ => 0) (fun _ => False) where
  sorted := .nil _
  freeSorted := .nil _
  listed _ := by simp
  free _ := by simp
  used _ some := absurd some (lt_irrefl 0)

theorem ascending_recount {all : List StoreSubdirInfo}
    (sorted : Ascending StoreSubdirInfo.subdir all) (subdir change : Int) :
    Ascending StoreSubdirInfo.subdir (recount subdir change all) := by
  apply List.Pairwise.map _ _ sorted
  intro left right below
  split_ifs
  all_goals exact below

theorem mem_recount {all : List StoreSubdirInfo} {subdir change : Int} {entry : StoreSubdirInfo} :
    entry ∈ recount subdir change all ↔
      ⟨entry.subdir, if entry.subdir = subdir then entry.fileCount - change
        else entry.fileCount⟩ ∈ all := by
  constructor
  · intro member
    obtain ⟨before, inAll, rfl⟩ := List.mem_map.mp member
    by_cases same : before.subdir = subdir
    · rw [if_pos same, if_pos same]
      dsimp only
      rw [add_sub_cancel_right]
      exact inAll
    · rw [if_neg same, if_neg same]
      exact inAll
  · intro member
    refine List.mem_map.mpr ⟨_, member, ?_⟩
    by_cases same : entry.subdir = subdir
    · rw [if_pos same, if_pos same]
      dsimp only
      rw [sub_add_cancel]
    · rw [if_neg same, if_neg same]

/-- A subdir that has come up is found with its count. -/
theorem Counts.find_named (counts : subdirs.Counts maxTrunkFilesPerSubdir count named)
    {subdir : Int} (known : named subdir) :
    Chain.find? StoreSubdirInfo.subdir subdir subdirs.all = some ⟨subdir, count subdir⟩ := by
  apply (Chain.find?_eq_some_iff counts.sorted).mpr
  exact ⟨(counts.listed _).mpr ⟨known, rfl⟩, rfl⟩

theorem Counts.find_unnamed (counts : subdirs.Counts maxTrunkFilesPerSubdir count named)
    {subdir : Int} (unknown : ¬named subdir) :
    Chain.find? StoreSubdirInfo.subdir subdir subdirs.all = none := by
  apply Chain.find?_eq_none_iff.mpr
  intro entry member same
  exact unknown (same ▸ ((counts.listed entry).mp member).1)

theorem Counts.count_unnamed (counts : subdirs.Counts maxTrunkFilesPerSubdir count named)
    {subdir : Int} (unknown : ¬named subdir) : count subdir = 0 :=
  Nat.eq_zero_of_not_pos fun some => unknown (counts.used subdir some)

/-- The counts after the count of one subdir has changed, from what became of the freelist. -/
theorem Counts.recounted (counts : subdirs.Counts maxTrunkFilesPerSubdir count named)
    {subdir change : Int} {now : Nat} (known : named subdir)
    (changed : (now : Int) = count subdir + change) {freelist : List Int}
    (freeSorted : Ascending (id : Int → Int) freelist)
    (others : ∀ other, other ≠ subdir → (other ∈ freelist ↔ other ∈ subdirs.freelist))
    (free : subdir ∈ freelist ↔ (now : Int) < maxTrunkFilesPerSubdir) :
    Counts maxTrunkFilesPerSubdir ⟨recount subdir change subdirs.all, freelist⟩
      (Function.update count subdir now) named where
  sorted := ascending_recount counts.sorted subdir change
  freeSorted := freeSorted
  listed entry := by
    rw [mem_recount, counts.listed]
    by_cases same : entry.subdir = subdir
    · rw [same, if_pos rfl, Function.update_self]
      dsimp only
      constructor
      · rintro ⟨-, equal⟩
        exact ⟨known, by omega⟩
      · rintro ⟨-, equal⟩
        exact ⟨known, by omega⟩
    · rw [if_neg same, Function.update_of_ne same]
  free other := by
    by_cases same : other = subdir
    · rw [same, Function.update_self, free, and_iff_right known]
    · rw [others other same, counts.free, Function.update_of_ne same]
  used other some := by
    by_cases same : other = subdir
    · exact same ▸ known
    · rw [Function.update_of_ne same] at some
      exact counts.used other some

variable {skiplists : SubdirSkiplists} {idInfo : FSTrunkIdInfo}

/-- A file more in a subdir that has come up before. -/
theorem Counts.add_known (counts : subdirs.Counts maxTrunkFilesPerSubdir count named)
    {target : Int} (narrow : toInt idInfo.subdir = target) (known : named target) :
    ∃ later, trunkIdInfoAdd skiplists maxTrunkFilesPerSubdir subdirs idInfo = (.ok, later) ∧
      later.Counts maxTrunkFilesPerSubdir
        (Function.update count target (count target + 1)) named := by
  rw [trunkIdInfoAdd, narrow, counts.find_named known]
  refine ⟨_, rfl, counts.recounted known (by push_cast; rfl) ?_ ?_ ?_⟩
  · split_ifs
    · rw [skiplists.freelist.delete_snd counts.freeSorted]
      exact Chain.ascending_erase counts.freeSorted _
    · exact counts.freeSorted
  · intro other differs
    split_ifs
    · rw [skiplists.freelist.delete_snd counts.freeSorted, Chain.mem_erase]
      exact and_iff_left differs
    · rfl
  · push_cast
    split_ifs with full
    · rw [skiplists.freelist.delete_snd counts.freeSorted, Chain.mem_erase]
      constructor
      · rintro ⟨-, differs⟩
        exact absurd rfl differs
      · intro below
        exact absurd full (not_le.mpr below)
    · rw [counts.free, and_iff_right known]
      omega

/-- The first file of a subdir. -/
theorem Counts.add_new (counts : subdirs.Counts maxTrunkFilesPerSubdir count named)
    {target : Int} (narrow : toInt idInfo.subdir = target) (unknown : ¬named target) :
    ∃ later, trunkIdInfoAdd skiplists maxTrunkFilesPerSubdir subdirs idInfo = (.ok, later) ∧
      later.Counts maxTrunkFilesPerSubdir
        (Function.update count target (count target + 1))
        fun subdir => named subdir ∨ subdir = target := by
  have zero := counts.count_unnamed unknown
  have fresh : ∀ entry ∈ subdirs.all, entry.subdir ≠ target :=
    Chain.find?_eq_none_iff.mp (counts.find_unnamed unknown)
  have freeFresh : ∀ subdir ∈ subdirs.freelist, subdir ≠ target := by
    intro subdir member same
    exact unknown (same ▸ ((counts.free subdir).mp member).1)
  have sorted := @Chain.ascending_insert _ _ _ _ _ counts.sorted ⟨target, 1⟩ fresh
  have listed : ∀ entry : StoreSubdirInfo,
      entry ∈ Chain.insert StoreSubdirInfo.subdir ⟨target, 1⟩ subdirs.all ↔
        (named entry.subdir ∨ entry.subdir = target) ∧ entry.fileCount =
          (Function.update count target (count target + 1)
            entry.subdir : Nat) := by
    intro entry
    rw [Chain.mem_insert, counts.listed]
    by_cases same : entry.subdir = target
    · rw [same, Function.update_self, zero]
      cases entry
      cases same
      simp [unknown]
    · rw [Function.update_of_ne same, or_iff_left same]
      exact or_iff_right fun equal => same (congrArg StoreSubdirInfo.subdir equal)
  have used : ∀ subdir, 0 < Function.update count target
      (count target + 1) subdir → named subdir ∨ subdir = target := by
    intro subdir some
    by_cases same : subdir = target
    · exact .inr same
    · rw [Function.update_of_ne same] at some
      exact .inl (counts.used subdir some)
  rw [trunkIdInfoAdd, narrow]
  have linked := skiplists.all.insert_fresh _ ⟨target, 1⟩ counts.sorted fresh
  have inserted := skiplists.freelist.insert_fresh _ target counts.freeSorted freeFresh
  simp only [counts.find_unnamed unknown, linked, inserted]
  by_cases room : 1 < maxTrunkFilesPerSubdir
  · rw [if_pos room]
    refine ⟨_, rfl, sorted, Chain.ascending_insert counts.freeSorted freeFresh, listed, ?_, used⟩
    intro subdir
    rw [Chain.mem_insert, counts.free]
    by_cases same : subdir = target
    · simp [same, zero, room]
    · simp [same]
  · rw [if_neg room]
    refine ⟨_, rfl, sorted, counts.freeSorted, listed, ?_, used⟩
    intro subdir
    rw [counts.free]
    by_cases same : subdir = target
    · simp [same, zero, room, unknown]
    · simp [same]

/-- `trunk_id_info_add` succeeds and counts the file. -/
theorem Counts.add (counts : subdirs.Counts maxTrunkFilesPerSubdir count named) {target : Int}
    (narrow : toInt idInfo.subdir = target) :
    ∃ later, trunkIdInfoAdd skiplists maxTrunkFilesPerSubdir subdirs idInfo = (.ok, later) ∧
      later.Counts maxTrunkFilesPerSubdir (Function.update count target (count target + 1))
        fun subdir => named subdir ∨ subdir = target := by
  by_cases known : named target
  · obtain ⟨later, added, counted⟩ := @Counts.add_known _ _ _ _ skiplists _ counts _ narrow known
    refine ⟨later, added, counted.congr (fun _ => rfl) fun subdir => ?_⟩
    constructor
    · rintro (earlier | rfl)
      · exact earlier
      · exact known
    · exact .inl
  · exact counts.add_new narrow known

/-- `trunk_id_info_delete` of a file that was counted, in a subdir that is not overfull. -/
theorem Counts.delete (counts : subdirs.Counts maxTrunkFilesPerSubdir count named) {target : Int}
    (narrow : toInt idInfo.subdir = target) (some : 0 < count target)
    (within : (count target : Int) ≤ maxTrunkFilesPerSubdir) :
    ∃ later, trunkIdInfoDelete skiplists maxTrunkFilesPerSubdir subdirs idInfo = (.ok, later) ∧
      later.Counts maxTrunkFilesPerSubdir (Function.update count target (count target - 1))
        named := by
  have known := counts.used _ some
  rw [trunkIdInfoDelete, narrow, counts.find_named known]
  dsimp only
  by_cases full : maxTrunkFilesPerSubdir ≤ (count target : Int)
  · have freeFresh : ∀ subdir ∈ subdirs.freelist, subdir ≠ target := by
      intro subdir member same
      have room := ((counts.free subdir).mp member).2
      rw [same] at room
      exact absurd full (not_le.mpr room)
    rw [if_pos full, skiplists.freelist.insert_fresh _ _ counts.freeSorted freeFresh]
    refine ⟨_, rfl, counts.recounted known (by omega)
      (Chain.ascending_insert counts.freeSorted freeFresh) ?_ ?_⟩
    · intro other differs
      exact Chain.mem_insert.trans (or_iff_right differs)
    · rw [Chain.mem_insert, eq_self_iff_true, true_or, true_iff]
      omega
  · rw [if_neg full]
    refine ⟨_, rfl, counts.recounted known (by omega) counts.freeSorted (fun _ _ => Iff.rfl) ?_⟩
    rw [counts.free, and_iff_right known]
    omega

/-- The first subdir of the freelist has room. -/
theorem Counts.room_of_head (counts : subdirs.Counts maxTrunkFilesPerSubdir count named)
    {subdir : Int} (first : subdirs.freelist.head? = some subdir) :
    named subdir ∧ (count subdir : Int) < maxTrunkFilesPerSubdir :=
  (counts.free subdir).mp (List.mem_of_mem_head? first)

end SortedSubdirs

end FastStore.Storage
