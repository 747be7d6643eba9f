import FastStore.Util.Chain
import FastStore.Util.System

/-!
# Indexes of the store paths

Every store path has an index of its own, by which its allocator is known.  The
indexes are kept in a file between two starts: a path of the configuration that has
an entry there takes the index of the entry, a new path takes the next one.  So two
paths of the configuration have one index exactly when they are the same path.
-/

namespace FastStore.Storage

open FastStore.Util

/-- An entry of the file of store path indexes. -/
structure StorePathEntry where
  path : String
  index : Int
  deriving DecidableEq, Repr

/-- `store_paths`: the entries, sorted by index.  They were read from the file, with one
section for an index, or added after them. -/
structure StorePathArray where
  entries : List StorePathEntry
  sorted : Ascending StorePathEntry.index entries

namespace StorePathArray

/-- Before the first start there is no file. -/
def empty : StorePathArray := ⟨[], .nil _⟩

/-- `store_path_index_get`: the search goes from the last entry to the first. -/
def store_path_index_get (paths : StorePathArray) (path : String) : Option StorePathEntry :=
  paths.entries.reverse.find? fun entry => entry.path = path

/-- The index of the next new path. -/
def nextIndex (paths : StorePathArray) : Int :=
  match paths.entries.getLast? with
  | some last => last.index + 1
  | none => 0

theorem index_lt_nextIndex (paths : StorePathArray) {entry : StorePathEntry}
    (member : entry ∈ paths.entries) : entry.index < paths.nextIndex := by
  cases last : paths.entries.getLast? with
  | none =>
      rw [List.getLast?_eq_none_iff] at last
      rw [last] at member
      cases member
  | some final =>
      obtain ⟨before, split⟩ := List.getLast?_eq_some_iff.mp last
      have bound : entry.index ≤ final.index := by
        rw [split, List.mem_append, List.mem_singleton] at member
        cases member with
        | inl earlier =>
            have sorted := paths.sorted
            rw [split, Ascending.append_iff] at sorted
            exact (sorted.2.2 entry earlier final List.mem_cons_self).le
        | inr same => rw [same]
      rw [nextIndex, last]
      exact Int.lt_add_one_of_le bound

/-- `store_path_index_add`, once the path has its mark. -/
def store_path_index_add (paths : StorePathArray) (path : String) : StorePathArray where
  entries := paths.entries ++ [⟨path, paths.nextIndex⟩]
  sorted := by
    refine Ascending.append_iff.mpr ⟨paths.sorted, List.pairwise_singleton _ _, ?_⟩
    intro entry member added single
    rw [List.mem_singleton.mp single]
    exact paths.index_lt_nextIndex member

theorem get_add_self {paths : StorePathArray} {path : String} :
    (paths.store_path_index_add path).store_path_index_get path =
      some ⟨path, paths.nextIndex⟩ := by
  simp [store_path_index_get, store_path_index_add]

theorem get_add_of_ne {paths : StorePathArray} {path other : String} (apart : path ≠ other) :
    (paths.store_path_index_add path).store_path_index_get other =
      paths.store_path_index_get other := by
  simp [store_path_index_get, store_path_index_add, apart]

theorem get_spec {paths : StorePathArray} {path : String} {entry : StorePathEntry}
    (found : paths.store_path_index_get path = some entry) :
    entry ∈ paths.entries ∧ entry.path = path := by
  have member := List.mem_of_find?_eq_some found
  have hit := List.find?_some found
  exact ⟨List.mem_reverse.mp member, of_decide_eq_true hit⟩

end StorePathArray

/-- The mark files in the store paths: what `store_path_check_mark` returns for an entry,
and what the test and the generation of the mark of a new path return. -/
structure StorePathMarks where
  checkMark : StorePathEntry → Errno
  generateMark : String → Int → Errno

/-- `load_path_indexes`: the table afterwards and the indexes of the paths. -/
def load_path_indexes (marks : StorePathMarks) :
    StorePathArray → List String → Except Errno (StorePathArray × List Int)
  | paths, [] => .ok (paths, [])
  | paths, path :: rest =>
      match paths.store_path_index_get path with
      | some entry =>
          if marks.checkMark entry = .ok then
            match load_path_indexes marks paths rest with
            | .ok (later, indexes) => .ok (later, entry.index :: indexes)
            | .error result => .error result
          else .error (marks.checkMark entry)
      | none =>
          if marks.generateMark path paths.nextIndex = .ok then
            match load_path_indexes marks (paths.store_path_index_add path) rest with
            | .ok (later, indexes) => .ok (later, paths.nextIndex :: indexes)
            | .error result => .error result
          else .error (marks.generateMark path paths.nextIndex)

/-- The paths of the configuration. -/
structure StoragePaths where
  write_cache : List String
  store_path : List String

/-- `load_store_path_indexes`: the indexes of the write cache paths and of the store
paths. -/
def load_store_path_indexes (marks : StorePathMarks) (table : StorePathArray)
    (config : StoragePaths) : Except Errno (List Int × List Int) :=
  match load_path_indexes marks table config.write_cache with
  | .error result => .error result
  | .ok (paths, cacheIndexes) =>
      match load_path_indexes marks paths config.store_path with
      | .error result => .error result
      | .ok (_, storeIndexes) => .ok (cacheIndexes, storeIndexes)

section Loaded

variable {marks : StorePathMarks}

/-- The index that the table gives to a path. -/
def StorePathArray.Gives (paths : StorePathArray) (path : String) (index : Int) : Prop :=
  ∃ entry, paths.store_path_index_get path = some entry ∧ entry.index = index

theorem StorePathArray.Gives.path_iff {paths : StorePathArray} {path other : String}
    {index otherIndex : Int} (first : paths.Gives path index)
    (second : paths.Gives other otherIndex) : path = other ↔ index = otherIndex := by
  obtain ⟨entry, found, entryIndex⟩ := first
  obtain ⟨otherEntry, otherFound, otherEq⟩ := second
  constructor
  · intro same
    rw [same, otherFound] at found
    rw [← entryIndex, ← otherEq, Option.some.inj found]
  · intro same
    have spec := StorePathArray.get_spec found
    have otherSpec := StorePathArray.get_spec otherFound
    have equal : entry = otherEntry :=
      paths.sorted.eq_of_key_eq spec.1 otherSpec.1 (by rw [entryIndex, otherEq, same])
    rw [← spec.2, ← otherSpec.2, equal]

/-- Loading gives every path an index, and leaves the index of a path that had one. -/
theorem load_path_indexes_spec {paths later : StorePathArray} {configured : List String}
    {indexes : List Int} (loaded : load_path_indexes marks paths configured = .ok (later, indexes)) :
    List.Forall₂ later.Gives configured indexes ∧
      ∀ path index, paths.Gives path index → later.Gives path index := by
  induction configured generalizing paths indexes with
  | nil =>
      cases loaded
      exact ⟨.nil, fun _ _ given => given⟩
  | cons path rest ih =>
      rw [load_path_indexes] at loaded
      cases found : paths.store_path_index_get path with
      | some entry =>
          rw [found] at loaded
          dsimp only at loaded
          split at loaded
          · cases tail : load_path_indexes marks paths rest with
            | error result =>
                rw [tail] at loaded
                cases loaded
            | ok result =>
                rw [tail] at loaded
                cases loaded
                have spec := ih tail
                exact ⟨.cons (spec.2 _ _ ⟨entry, found, rfl⟩) spec.1, spec.2⟩
          · cases loaded
      | none =>
          rw [found] at loaded
          dsimp only at loaded
          split at loaded
          · cases tail : load_path_indexes marks (paths.store_path_index_add path) rest with
            | error result =>
                rw [tail] at loaded
                cases loaded
            | ok result =>
                rw [tail] at loaded
                cases loaded
                have spec := ih tail
                refine ⟨.cons (spec.2 _ _ ⟨_, StorePathArray.get_add_self, rfl⟩) spec.1, ?_⟩
                rintro other index ⟨entry, given, entryIndex⟩
                apply spec.2
                refine ⟨entry, ?_, entryIndex⟩
                rw [StorePathArray.get_add_of_ne, given]
                intro same
                rw [same, given] at found
                cases found
          · cases loaded

/-- Two paths of the configuration have one index exactly when they are the same. -/
theorem load_store_path_indexes_spec {table : StorePathArray} {config : StoragePaths}
    {cacheIndexes storeIndexes : List Int}
    (loaded : load_store_path_indexes marks table config = .ok (cacheIndexes, storeIndexes)) :
    ∃ later : StorePathArray, List.Forall₂ later.Gives config.write_cache cacheIndexes ∧
      List.Forall₂ later.Gives config.store_path storeIndexes := by
  rw [load_store_path_indexes] at loaded
  cases first : load_path_indexes marks table config.write_cache with
  | error result =>
      rw [first] at loaded
      cases loaded
  | ok result =>
      obtain ⟨paths, cache⟩ := result
      rw [first] at loaded
      dsimp only at loaded
      cases second : load_path_indexes marks paths config.store_path with
      | error result =>
          rw [second] at loaded
          cases loaded
      | ok result =>
          rw [second] at loaded
          cases loaded
          have cacheSpec := load_path_indexes_spec first
          have storeSpec := load_path_indexes_spec second
          exact ⟨result.1, cacheSpec.1.imp storeSpec.2, storeSpec.1⟩

theorem StorePathArray.Gives.mem_iff {later : StorePathArray} {path : String} {index : Int}
    {configured : List String} {indexes : List Int} (head : later.Gives path index)
    (tail : List.Forall₂ later.Gives configured indexes) :
    path ∈ configured ↔ index ∈ indexes := by
  induction tail with
  | nil => simp
  | cons first rest ih => rw [List.mem_cons, List.mem_cons, ih, head.path_iff first]

theorem disjoint_iff_of_gives {later : StorePathArray} {configured others : List String}
    {indexes otherIndexes : List Int} (given : List.Forall₂ later.Gives configured indexes)
    (othersGiven : List.Forall₂ later.Gives others otherIndexes) :
    (∀ path ∈ configured, path ∉ others) ↔ ∀ index ∈ indexes, index ∉ otherIndexes := by
  induction given with
  | nil => simp
  | cons head tail ih =>
      rw [List.forall_mem_cons, List.forall_mem_cons, ih, head.mem_iff othersGiven]

/-- The indexes repeat as the paths do. -/
theorem nodup_iff_of_gives {later : StorePathArray} {configured : List String}
    {indexes : List Int} (given : List.Forall₂ later.Gives configured indexes) :
    configured.Nodup ↔ indexes.Nodup := by
  induction given with
  | nil => simp
  | cons head tail ih =>
      rw [List.nodup_cons, List.nodup_cons, ih]
      exact and_congr_left fun _ => not_congr (head.mem_iff tail)

end Loaded

end FastStore.Storage
