import FastStore.Util.Descriptors
import FastStore.Util.System

/-!
# The descriptor cache of a read thread

A read thread keeps the trunk files it read from open.  The cache finds a descriptor by
the trunk id in a hash table, and lists the entries from the least to the most recently
used; where it is full, a new entry pushes out the least recently used one, whose
descriptor is closed.  The numbers of the descriptors are those of the process, where
others open and close files as well.
-/

namespace FastStore.Dio

open FastStore.Util

/-- The settings of a read thread: `fd_cache_capacity_per_read_thread`, the size of the hash
table and `read_io_depth`. -/
structure ReadThreadConfig where
  capacity : Nat
  size : Nat
  max_event : Nat
  capacity_pos : 0 < capacity
  max_event_pos : 0 < max_event

/-- The settings as the configuration loader sets them; the hash table has a prime size that
is looked up by the capacity. -/
def ReadThreadConfig.load (fd_cache_capacity_per_read_thread read_io_depth : Int)
    (hash_get_prime_capacity : Nat → Option Nat) : ReadThreadConfig :=
  let capacity :=
    if fd_cache_capacity_per_read_thread ≤ 0 then 256 else fd_cache_capacity_per_read_thread.toNat
  { capacity := capacity
    size := (hash_get_prime_capacity capacity).getD capacity
    max_event := if read_io_depth ≤ 0 then 64 else read_io_depth.toNat
    capacity_pos := by
      dsimp only [capacity]
      split <;> omega
    max_event_pos := by split <;> omega }

/-- An open file of the process: the trunk file that a read thread opened, with the number
of the open, or a file of others. -/
inductive OpenFile where
  | trunk (serial : Nat) (trunk_id : Nat)
  | foreign
  deriving DecidableEq, Repr

/-- `TrunkIdFDPair`, and the entry that holds it. -/
structure TrunkIdFDPair where
  trunk_id : Nat
  fd : Nat
  deriving DecidableEq, Repr

/-- `TrunkFDCacheContext`: the chains of the hash table, and the list by use. -/
structure TrunkFDCacheContext where
  buckets : Nat → List TrunkIdFDPair
  lru : List TrunkIdFDPair
  count : Nat

/-- The files of a read thread: the descriptors of the process, the cache, the number of
opens so far, and the opens that entered the cache and that were closed. -/
structure ReadFiles where
  fds : Descriptors OpenFile
  cache : TrunkFDCacheContext
  opened : Nat
  entered : List Nat
  closed : List Nat

namespace ReadFiles

variable (cfg : ReadThreadConfig) (p : ReadFiles)

/-- The number of the open behind a descriptor. -/
def serial (fd : Nat) : Nat :=
  match p.fds.file fd with
  | some (.trunk serial _) => serial
  | _ => 0

/-- The search in the chain of a trunk. -/
def find (trunk_id : Nat) : Option TrunkIdFDPair :=
  (p.cache.buckets (trunk_id % cfg.size)).find? (·.trunk_id = trunk_id)

/-- `close`, with a note of what it closed. -/
def close (fd : Nat) : ReadFiles :=
  { p with
    fds := p.fds.closeFile fd
    closed :=
      match p.fds.file fd with
      | some (.trunk serial _) => p.closed ++ [serial]
      | _ => p.closed }

/-- `open` of a trunk file. -/
def openTrunk (trunk_id : Nat) : Nat × ReadFiles :=
  (p.fds.lowestFree,
    { p with
      fds := p.fds.openFile (.trunk p.opened trunk_id)
      opened := p.opened + 1 })

/-- `trunk_fd_cache_get`: a found entry becomes the most recently used one. -/
def trunk_fd_cache_get (trunk_id : Nat) : Option Nat × ReadFiles :=
  match p.find cfg trunk_id with
  | none => (none, p)
  | some entry =>
      (some entry.fd,
        { p with
          cache :=
            { p.cache with
              lru := p.cache.lru.erase entry ++ [entry] } })

/-- `trunk_fd_cache_delete`. -/
def trunk_fd_cache_delete (trunk_id : Nat) : Errno × ReadFiles :=
  match p.find cfg trunk_id with
  | none => (.enoent, p)
  | some entry =>
      let closed := p.close entry.fd
      (.ok,
        { closed with
          cache :=
            { buckets := Function.update p.cache.buckets (trunk_id % cfg.size)
                ((p.cache.buckets (trunk_id % cfg.size)).erase entry)
              lru := p.cache.lru.erase entry
              count := p.cache.count - 1 } })

/-- The first part of `trunk_fd_cache_add`: a full cache lets go of its first entry. -/
def makeRoom : ReadFiles :=
  if cfg.capacity ≤ p.cache.count then
    match p.cache.lru.head? with
    | none => p
    | some entry => (p.trunk_fd_cache_delete cfg entry.trunk_id).2
  else p

/-- `trunk_fd_cache_add`; `memory` tells whether there is memory for the entry. -/
def trunk_fd_cache_add (trunk_id fd : Nat) (memory : Bool) : Errno × ReadFiles :=
  let room := p.makeRoom cfg
  if memory then
    (.ok,
      { room with
        cache :=
          { buckets := Function.update room.cache.buckets (trunk_id % cfg.size)
              (⟨trunk_id, fd⟩ :: room.cache.buckets (trunk_id % cfg.size))
            lru := room.cache.lru ++ [⟨trunk_id, fd⟩]
            count := room.cache.count + 1 }
        entered := room.entered ++ [room.serial fd] })
  else (.enomem, room)

/-- `get_read_fd`: none where the trunk file cannot be opened; that an entry cannot be added
is ignored. -/
def get_read_fd (trunk_id : Nat) (openable memory : Bool) : Option Nat × ReadFiles :=
  match p.trunk_fd_cache_get cfg trunk_id with
  | (some fd, got) => (some fd, got)
  | (none, got) =>
      if openable then
        let opened := got.openTrunk trunk_id
        (some opened.1, (opened.2.trunk_fd_cache_add cfg trunk_id opened.1 memory).2)
      else (none, got)

/-! ## The cache is sound -/

/-- The chains and the list hold the same entries, at most one for a trunk and no more than
the capacity, every entry has an open descriptor of its trunk file, and every open that
entered the cache is still in it or was closed, once. -/
structure CacheSound : Prop where
  chains : ∀ b e, e ∈ p.cache.buckets b ↔ e ∈ p.cache.lru ∧ e.trunk_id % cfg.size = b
  chain_nodup : ∀ b, (p.cache.buckets b).Nodup
  distinct : (p.cache.lru.map (·.trunk_id)).Nodup
  count : p.cache.count = p.cache.lru.length
  fits : p.cache.lru.length ≤ cfg.capacity
  files : ∀ e ∈ p.cache.lru, ∃ serial, p.fds.file e.fd = some (.trunk serial e.trunk_id)
  ledger : (p.closed ++ p.cache.lru.map fun e => p.serial e.fd).Perm p.entered
  fresh : ∀ serial ∈ p.entered, serial < p.opened
  once : p.entered.Nodup

variable {cfg : ReadThreadConfig} {p : ReadFiles} {entry : TrunkIdFDPair} {trunk_id fd : Nat}

theorem CacheSound.eq_of_trunk (sound : p.CacheSound cfg) {other : TrunkIdFDPair}
    (mine : entry ∈ p.cache.lru) (also : other ∈ p.cache.lru)
    (same : entry.trunk_id = other.trunk_id) : entry = other :=
  List.inj_on_of_nodup_map sound.distinct mine also same

/-- Two entries with one descriptor are the same. -/
theorem CacheSound.eq_of_fd (sound : p.CacheSound cfg) {other : TrunkIdFDPair}
    (mine : entry ∈ p.cache.lru) (also : other ∈ p.cache.lru) (same : entry.fd = other.fd) :
    entry = other := by
  obtain ⟨serial, file⟩ := sound.files entry mine
  obtain ⟨serial', file'⟩ := sound.files other also
  rw [same, file'] at file
  have trunk := (OpenFile.trunk.inj (Option.some.inj file)).2
  exact sound.eq_of_trunk mine also trunk.symm

theorem CacheSound.find_eq_some_iff (sound : p.CacheSound cfg) :
    p.find cfg trunk_id = some entry ↔ entry ∈ p.cache.lru ∧ entry.trunk_id = trunk_id := by
  constructor
  · intro found
    have same : entry.trunk_id = trunk_id := of_decide_eq_true (List.find?_some found :)
    exact ⟨((sound.chains _ _).mp (List.mem_of_find?_eq_some found)).1, same⟩
  · rintro ⟨member, rfl⟩
    cases found : p.find cfg entry.trunk_id with
    | none =>
        have absent := List.find?_eq_none.mp found entry ((sound.chains _ _).mpr ⟨member, rfl⟩)
        exact absurd (decide_eq_true rfl) absent
    | some other =>
        have same : other.trunk_id = entry.trunk_id := of_decide_eq_true (List.find?_some found :)
        have also := ((sound.chains _ _).mp (List.mem_of_find?_eq_some found)).1
        rw [sound.eq_of_trunk also member same]

theorem CacheSound.find_eq_none_iff (sound : p.CacheSound cfg) :
    p.find cfg trunk_id = none ↔ ∀ e ∈ p.cache.lru, e.trunk_id ≠ trunk_id := by
  constructor
  · intro none e member same
    have found := sound.find_eq_some_iff.mpr ⟨member, same⟩
    rw [none] at found
    cases found
  · intro absent
    cases found : p.find cfg trunk_id with
    | none => rfl
    | some other =>
        obtain ⟨member, same⟩ := sound.find_eq_some_iff.mp found
        exact absurd same (absent other member)

/-- Another entry has another descriptor. -/
theorem CacheSound.fd_ne (sound : p.CacheSound cfg) {other : TrunkIdFDPair}
    (mine : entry ∈ p.cache.lru) (also : other ∈ p.cache.lru) (different : other ≠ entry) :
    other.fd ≠ entry.fd :=
  fun same => different (sound.eq_of_fd also mine same)

/-- The order of the list does not matter for the rest. -/
theorem CacheSound.reorder (sound : p.CacheSound cfg) {lru : List TrunkIdFDPair}
    (perm : lru.Perm p.cache.lru) :
    CacheSound cfg
      { p with
        cache :=
          { p.cache with
            lru := lru } } where
  chains b e := (sound.chains b e).trans (and_congr_left' perm.mem_iff.symm)
  chain_nodup := sound.chain_nodup
  distinct := (perm.map _).nodup_iff.mpr sound.distinct
  count := sound.count.trans perm.length_eq.symm
  fits := perm.length_eq.trans_le sound.fits
  files e member := sound.files e (perm.mem_iff.mp member)
  ledger := ((perm.map _).append_left _).trans sound.ledger
  fresh := sound.fresh
  once := sound.once

/-- The files of the thread without an entry that was found. -/
def without (p : ReadFiles) (cfg : ReadThreadConfig) (entry : TrunkIdFDPair) (serial : Nat) :
    ReadFiles where
  fds := p.fds.closeFile entry.fd
  cache :=
    { buckets := Function.update p.cache.buckets (entry.trunk_id % cfg.size)
        ((p.cache.buckets (entry.trunk_id % cfg.size)).erase entry)
      lru := p.cache.lru.erase entry
      count := p.cache.count - 1 }
  opened := p.opened
  entered := p.entered
  closed := p.closed ++ [serial]

theorem CacheSound.delete_eq (sound : p.CacheSound cfg) (member : entry ∈ p.cache.lru) :
    (p.trunk_fd_cache_delete cfg entry.trunk_id).2 = p.without cfg entry (p.serial entry.fd) := by
  obtain ⟨serial, file⟩ := sound.files entry member
  rw [trunk_fd_cache_delete, sound.find_eq_some_iff.mpr ⟨member, rfl⟩, ReadFiles.serial]
  dsimp only
  rw [close, file]
  rfl

theorem CacheSound.without (sound : p.CacheSound cfg) (member : entry ∈ p.cache.lru) :
    (p.without cfg entry (p.serial entry.fd)).CacheSound cfg := by
  have nodup := List.Nodup.of_map _ sound.distinct
  have others : ∀ e, e ∈ p.cache.lru.erase entry ↔ e ≠ entry ∧ e ∈ p.cache.lru := fun e =>
    nodup.mem_erase_iff
  have kept : ∀ e ∈ p.cache.lru.erase entry,
      (p.fds.closeFile entry.fd).file e.fd = p.fds.file e.fd := by
    intro e there
    obtain ⟨different, also⟩ := (others e).mp there
    rw [Descriptors.file_closeFile, if_neg (sound.fd_ne member also different)]
  constructor
  · intro b e
    rw [ReadFiles.without]
    dsimp only
    by_cases same : b = entry.trunk_id % cfg.size
    · subst same
      rw [Function.update_self, (sound.chain_nodup _).mem_erase_iff, sound.chains, others, and_assoc]
    · rw [Function.update_of_ne same, sound.chains, others, and_assoc]
      refine (and_iff_right_of_imp ?_).symm
      rintro ⟨-, here⟩ rfl
      exact same here.symm
  · intro b
    rw [ReadFiles.without]
    dsimp only
    by_cases same : b = entry.trunk_id % cfg.size
    · subst same
      rw [Function.update_self]
      exact (sound.chain_nodup _).erase entry
    · rw [Function.update_of_ne same]
      exact sound.chain_nodup b
  · exact sound.distinct.sublist (List.erase_sublist.map _)
  · rw [ReadFiles.without]
    dsimp only
    rw [List.length_erase_of_mem member, sound.count]
  · exact List.length_erase_le.trans sound.fits
  · intro e there
    obtain ⟨serial, file⟩ := sound.files e ((others e).mp there).2
    exact ⟨serial, (kept e there).trans file⟩
  · have serials : (p.cache.lru.erase entry).map (fun e => (p.without cfg entry
        (p.serial entry.fd)).serial e.fd) = (p.cache.lru.erase entry).map fun e => p.serial e.fd := by
      refine List.map_congr_left fun e there => ?_
      rw [ReadFiles.serial, ReadFiles.without]
      dsimp only
      rw [kept e there]
      rfl
    have moved : (p.cache.lru.map fun e => p.serial e.fd).Perm
        (p.serial entry.fd :: (p.cache.lru.erase entry).map fun e => p.serial e.fd) :=
      (List.perm_cons_erase member).map _
    rw [ReadFiles.without] at serials ⊢
    dsimp only at serials ⊢
    rw [serials, List.append_assoc]
    exact (moved.symm.append_left _).trans sound.ledger
  · exact sound.fresh
  · exact sound.once

/-- A deletion keeps the cache sound, whether the trunk is cached or not. -/
theorem CacheSound.delete (sound : p.CacheSound cfg) (trunk_id : Nat) :
    (p.trunk_fd_cache_delete cfg trunk_id).2.CacheSound cfg := by
  cases found : p.find cfg trunk_id with
  | none =>
      rw [trunk_fd_cache_delete, found]
      exact sound
  | some entry =>
      obtain ⟨member, rfl⟩ := sound.find_eq_some_iff.mp found
      rw [sound.delete_eq member]
      exact sound.without member

/-- The cache with room for one more entry: a full one lost its first entry. -/
theorem CacheSound.makeRoom_eq (sound : p.CacheSound cfg) :
    (p.makeRoom cfg = p ∧ p.cache.lru.length < cfg.capacity) ∨
      ∃ first rest, p.cache.lru = first :: rest ∧ rest.length < cfg.capacity ∧
        p.cache.lru.length = cfg.capacity ∧
        p.makeRoom cfg = p.without cfg first (p.serial first.fd) := by
  rw [makeRoom, sound.count]
  split
  · next full =>
      have exactly := le_antisymm sound.fits full
      cases list : p.cache.lru with
      | nil =>
          rw [list] at exactly
          exact absurd cfg.capacity_pos (exactly ▸ lt_irrefl 0)
      | cons first rest =>
          refine .inr ⟨first, rest, rfl, ?_, ?_, ?_⟩
          · rw [← exactly, list]
            exact Nat.lt_succ_self _
          · rw [← list]
            exact exactly
          · exact sound.delete_eq (list ▸ List.mem_cons_self)
  · next room => exact .inl ⟨rfl, not_le.mp room⟩

/-- A file that was opened for a trunk and has not entered the cache yet. -/
structure NewFile (p : ReadFiles) (trunk_id fd serial : Nat) : Prop where
  file : p.fds.file fd = some (.trunk serial trunk_id)
  absent : ∀ e ∈ p.cache.lru, e.trunk_id ≠ trunk_id
  fresh : serial < p.opened
  outside : serial ∉ p.entered

/-- The files of the thread with one more entry. -/
def withEntry (p : ReadFiles) (cfg : ReadThreadConfig) (entry : TrunkIdFDPair) : ReadFiles :=
  { p with
    cache :=
      { buckets := Function.update p.cache.buckets (entry.trunk_id % cfg.size)
          (entry :: p.cache.buckets (entry.trunk_id % cfg.size))
        lru := p.cache.lru ++ [entry]
        count := p.cache.count + 1 }
    entered := p.entered ++ [p.serial entry.fd] }

theorem CacheSound.withEntry (sound : p.CacheSound cfg) {serial : Nat}
    (new : p.NewFile entry.trunk_id entry.fd serial) (room : p.cache.lru.length < cfg.capacity) :
    (p.withEntry cfg entry).CacheSound cfg := by
  have mine : p.serial entry.fd = serial := by
    rw [ReadFiles.serial, new.file]
  have unlisted : entry ∉ p.cache.lru := fun member => new.absent entry member rfl
  constructor
  · intro b e
    rw [ReadFiles.withEntry]
    dsimp only
    rw [List.mem_append, List.mem_singleton]
    by_cases same : b = entry.trunk_id % cfg.size
    · subst same
      rw [Function.update_self, List.mem_cons, sound.chains, or_and_right, or_comm]
      refine or_congr_right (and_iff_left_of_imp ?_).symm
      rintro rfl
      rfl
    · rw [Function.update_of_ne same, sound.chains, or_and_right]
      refine (or_iff_left ?_).symm
      rintro ⟨rfl, here⟩
      exact same here.symm
  · intro b
    rw [ReadFiles.withEntry]
    dsimp only
    by_cases same : b = entry.trunk_id % cfg.size
    · subst same
      rw [Function.update_self, List.nodup_cons]
      exact ⟨fun member => unlisted ((sound.chains _ _).mp member).1, sound.chain_nodup _⟩
    · rw [Function.update_of_ne same]
      exact sound.chain_nodup b
  · rw [ReadFiles.withEntry, List.map_append]
    refine sound.distinct.append (List.nodup_singleton _) ?_
    intro id member here
    obtain ⟨e, also, rfl⟩ := List.mem_map.mp member
    exact new.absent e also (List.mem_singleton.mp here)
  · rw [ReadFiles.withEntry, List.length_append, sound.count]
    rfl
  · rw [ReadFiles.withEntry, List.length_append]
    exact room
  · intro e member
    cases List.mem_append.mp member with
    | inl old => exact sound.files e old
    | inr last => exact ⟨serial, List.mem_singleton.mp last ▸ new.file⟩
  · have moved := sound.ledger.append_right [p.serial entry.fd]
    rw [ReadFiles.withEntry]
    dsimp only
    rw [List.map_append, ← List.append_assoc]
    exact moved
  · intro other member
    cases List.mem_append.mp member with
    | inl old => exact sound.fresh other old
    | inr last =>
        rw [List.mem_singleton.mp last, mine]
        exact new.fresh
  · refine sound.once.append (List.nodup_singleton _) ?_
    intro other old last
    rw [mine] at last
    exact new.outside (List.mem_singleton.mp last ▸ old)

/-- A new file is still new in a cache that lost an entry. -/
theorem NewFile.without {serial : Nat} (new : p.NewFile trunk_id fd serial)
    (sound : p.CacheSound cfg) (member : entry ∈ p.cache.lru) :
    (p.without cfg entry (p.serial entry.fd)).NewFile trunk_id fd serial where
  file := by
    have different : fd ≠ entry.fd := by
      intro same
      obtain ⟨other, file⟩ := sound.files entry member
      rw [← same, new.file] at file
      exact new.absent entry member (OpenFile.trunk.inj (Option.some.inj file)).2.symm
    exact (Descriptors.file_closeFile _ _).trans ((if_neg different).trans new.file)
  absent e there := new.absent e (List.mem_of_mem_erase there)
  fresh := new.fresh
  outside := new.outside

/-- The cache with room, and a new file in it. -/
theorem CacheSound.room (sound : p.CacheSound cfg) {serial : Nat}
    (new : p.NewFile trunk_id fd serial) :
    (p.makeRoom cfg).CacheSound cfg ∧ (p.makeRoom cfg).NewFile trunk_id fd serial ∧
      (p.makeRoom cfg).cache.lru.length < cfg.capacity := by
  cases sound.makeRoom_eq with
  | inl enough =>
      rw [enough.1]
      exact ⟨sound, new, enough.2⟩
  | inr full =>
      obtain ⟨first, rest, list, short, -, same⟩ := full
      have member : first ∈ p.cache.lru := list ▸ List.mem_cons_self
      rw [same]
      refine ⟨sound.without member, new.without sound member, ?_⟩
      rw [ReadFiles.without, list, List.erase_cons_head]
      exact short

/-- Adding a new file keeps the cache sound, with memory and without. -/
theorem CacheSound.add (sound : p.CacheSound cfg) {serial : Nat}
    (new : p.NewFile trunk_id fd serial) (memory : Bool) :
    (p.trunk_fd_cache_add cfg trunk_id fd memory).2.CacheSound cfg := by
  obtain ⟨roomSound, roomNew, short⟩ := sound.room new
  cases memory with
  | true => exact @CacheSound.withEntry cfg _ ⟨trunk_id, fd⟩ roomSound serial roomNew short
  | false => exact roomSound

/-- Opening and closing other descriptors leaves the cache sound. -/
theorem CacheSound.withFds (sound : p.CacheSound cfg) {fds : Descriptors OpenFile} {opened : Nat}
    (kept : ∀ e ∈ p.cache.lru, fds.file e.fd = p.fds.file e.fd) (later : p.opened ≤ opened) :
    CacheSound cfg
      { p with
        fds := fds
        opened := opened } where
  chains := sound.chains
  chain_nodup := sound.chain_nodup
  distinct := sound.distinct
  count := sound.count
  fits := sound.fits
  files e member := by
    obtain ⟨serial, file⟩ := sound.files e member
    exact ⟨serial, (kept e member).trans file⟩
  ledger := by
    have serials : (p.cache.lru.map fun e => ReadFiles.serial
        { p with
          fds := fds
          opened := opened } e.fd) = p.cache.lru.map fun e => p.serial e.fd := by
      refine List.map_congr_left fun e member => ?_
      rw [ReadFiles.serial]
      dsimp only
      rw [kept e member]
      rfl
    dsimp only
    rw [serials]
    exact sound.ledger
  fresh serial member := (sound.fresh serial member).trans_le later
  once := sound.once

/-- The number that an open returns is of no cached descriptor. -/
theorem CacheSound.lowestFree_ne (sound : p.CacheSound cfg) (member : entry ∈ p.cache.lru) :
    entry.fd ≠ p.fds.lowestFree := by
  obtain ⟨serial, file⟩ := sound.files entry member
  intro same
  rw [same, Descriptors.file_lowestFree] at file
  cases file

theorem CacheSound.openFile (sound : p.CacheSound cfg) (new : OpenFile) {opened : Nat}
    (later : p.opened ≤ opened) :
    CacheSound cfg
      { p with
        fds := p.fds.openFile new
        opened := opened } := by
  refine sound.withFds (fun e member => ?_) later
  rw [Descriptors.file_openFile, if_neg (sound.lowestFree_ne member)]

/-- A file that is opened for a trunk that is not cached is new. -/
theorem CacheSound.newFile (sound : p.CacheSound cfg)
    (absent : ∀ e ∈ p.cache.lru, e.trunk_id ≠ trunk_id) :
    (p.openTrunk trunk_id).2.NewFile trunk_id (p.openTrunk trunk_id).1 p.opened where
  file := (Descriptors.file_openFile _ _).trans (if_pos rfl)
  absent := absent
  fresh := Nat.lt_succ_self _
  outside member := lt_irrefl _ (sound.fresh _ member)

theorem CacheSound.openTrunk (sound : p.CacheSound cfg) (trunk_id : Nat) :
    (p.openTrunk trunk_id).2.CacheSound cfg :=
  sound.openFile (.trunk p.opened trunk_id) (Nat.le_succ _)

/-- What `get_read_fd` does: it finds the trunk, or cannot open it, or opens and adds it. -/
theorem get_read_fd_cases (sound : p.CacheSound cfg) (trunk_id : Nat) (openable memory : Bool) :
    (∃ entry ∈ p.cache.lru, entry.trunk_id = trunk_id ∧
      p.get_read_fd cfg trunk_id openable memory = (some entry.fd,
        { p with
          cache :=
            { p.cache with
              lru := p.cache.lru.erase entry ++ [entry] } })) ∨
    ((∀ e ∈ p.cache.lru, e.trunk_id ≠ trunk_id) ∧
      ((openable = false ∧ p.get_read_fd cfg trunk_id openable memory = (none, p)) ∨
        p.get_read_fd cfg trunk_id openable memory = (some p.fds.lowestFree,
          ((p.openTrunk trunk_id).2.trunk_fd_cache_add cfg trunk_id p.fds.lowestFree memory).2))) := by
  cases found : p.find cfg trunk_id with
  | some entry =>
      obtain ⟨member, same⟩ := sound.find_eq_some_iff.mp found
      refine .inl ⟨entry, member, same, ?_⟩
      rw [get_read_fd, trunk_fd_cache_get, found]
  | none =>
      refine .inr ⟨sound.find_eq_none_iff.mp found, ?_⟩
      rw [get_read_fd, trunk_fd_cache_get, found]
      cases openable with
      | false => exact .inl ⟨rfl, rfl⟩
      | true => exact .inr rfl

theorem CacheSound.get_read_fd (sound : p.CacheSound cfg) (trunk_id : Nat)
    (openable memory : Bool) : (p.get_read_fd cfg trunk_id openable memory).2.CacheSound cfg := by
  cases get_read_fd_cases sound trunk_id openable memory with
  | inl hit =>
      obtain ⟨entry, member, -, same⟩ := hit
      rw [same]
      exact sound.reorder (List.perm_append_comm.trans (List.perm_cons_erase member).symm)
  | inr miss =>
      obtain ⟨absent, ends⟩ := miss
      cases ends with
      | inl failed =>
          rw [failed.2]
          exact sound
      | inr opened =>
          rw [opened]
          exact (sound.openTrunk trunk_id).add (sound.newFile absent) memory

end ReadFiles

end FastStore.Dio
