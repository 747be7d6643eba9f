import FastStore.Dio.TrunkFdCache

/-!
# A trunk read thread

The thread takes the queued reads, prepares as many as the kernel takes at a time, each
with a descriptor of its trunk, and submits them together; then it waits for events.  A
descriptor is looked up when its read is prepared and used when the batch is submitted: in
between the cache may have closed it for another read of the batch.
-/

namespace FastStore.Dio

open FastStore.Util

/-- `TrunkReadIOBuffer`: the read of a slice, and the trunk of the slice. -/
structure TrunkReadIOBuffer where
  id : Nat
  trunk_id : Nat
  deriving DecidableEq, Repr

/-- Where the thread stands: before `consume_queue`, in its loop that prepares reads, in its
loop that submits them, in `process_aio`, or at its end. -/
inductive ReadPhase where
  | consuming
  | preparing (rest : List TrunkReadIOBuffer) (target_count : Nat)
  | submitting (count : Nat) (rest : List TrunkReadIOBuffer)
  | reaping
  | stopped
  deriving DecidableEq, Repr

/-- `TrunkReadThreadContext`, with the files of the process, the reads the kernel works on,
and where the thread stands; an iocb is a read with its descriptor. -/
structure TrunkReadThreadContext where
  files : ReadFiles
  queue : List TrunkReadIOBuffer
  iocbs : List (TrunkReadIOBuffer × Nat)
  doing_count : Nat
  flight : List TrunkReadIOBuffer
  phase : ReadPhase

/-- What happens next: a read is queued, others open or close a file, the queue is taken, a
read is prepared, `io_submit` takes some iocbs or fails, the batch is done, events are
there, or none in time, or `io_getevents` fails. -/
inductive ReadAction where
  | push (iob : TrunkReadIOBuffer)
  | othersOpen
  | othersClose (fd : Nat)
  | pop
  | prepare (buffer openable memory : Bool)
  | submit (n : Nat)
  | submitError
  | finish
  | events (done : List (TrunkReadIOBuffer × Bool))
  | timeout
  | eventsError
  deriving DecidableEq, Repr

namespace TrunkReadThreadContext

variable (cfg : ReadThreadConfig) (s : TrunkReadThreadContext)

/-- `fc_queue_pop_to_queue_ex` and what follows up to the loop; with nothing queued and
nothing in flight the thread comes back to where it was. -/
def pop : TrunkReadThreadContext :=
  match s.queue with
  | [] => if s.doing_count = 0 then s else { s with phase := .reaping }
  | iob :: rest =>
      { s with
        queue := []
        iocbs := []
        phase := .preparing (iob :: rest) (cfg.max_event - s.doing_count) }

/-- `prepare_read_slice`, up to the iocb: a read buffer and a descriptor are needed. -/
def prepare_read_slice (files : ReadFiles) (iob : TrunkReadIOBuffer)
    (buffer openable memory : Bool) : Option Nat × ReadFiles :=
  if buffer then files.get_read_fd cfg iob.trunk_id openable memory else (none, files)

/-- One round of the loop of `consume_queue` that prepares reads. -/
def prepare (buffer openable memory : Bool) : TrunkReadThreadContext :=
  match s.phase with
  | .preparing (iob :: rest) target_count =>
      match prepare_read_slice cfg s.files iob buffer openable memory with
      | (none, files) =>
          { s with
            files := files
            phase := .stopped }
      | (some fd, files) =>
          let iocbs := s.iocbs ++ [(iob, fd)]
          { s with
            files := files
            iocbs := iocbs
            phase :=
              if rest ≠ [] ∧ iocbs.length < target_count then .preparing rest target_count
              else .submitting 0 rest }
  | _ => s

/-- `io_submit` takes the next `n` iocbs. -/
def submit (n : Nat) : TrunkReadThreadContext :=
  match s.phase with
  | .submitting count rest =>
      { s with
        flight := s.flight ++ ((s.iocbs.drop count).take n).map Prod.fst
        phase := .submitting (count + n) rest }
  | _ => s

/-- The end of `consume_queue`: the reads that were left over go back to the queue. -/
def finish : TrunkReadThreadContext :=
  match s.phase with
  | .submitting _ rest =>
      { s with
        doing_count := s.doing_count + s.iocbs.length
        queue := rest ++ s.queue
        phase := .reaping }
  | _ => s

/-- The loop of `process_aio` over the events: a read that failed loses its cache entry. -/
def events (done : List (TrunkReadIOBuffer × Bool)) : TrunkReadThreadContext :=
  { s with
    files := done.foldl (fun files event =>
      if event.2 then files else (files.trunk_fd_cache_delete cfg event.1.trunk_id).2) s.files
    flight := s.flight.diff (done.map Prod.fst)
    doing_count := s.doing_count - done.length
    phase := .consuming }

/-- When an action can happen: `process_aio` goes on without events only if there is room
for more, and others close their own files. -/
def Enabled : ReadAction → Prop
  | .push _ => True
  | .othersOpen => True
  | .othersClose fd => s.files.fds.file fd = some .foreign
  | .pop => s.phase = .consuming
  | .prepare _ _ _ =>
      match s.phase with
      | .preparing _ _ => True
      | _ => False
  | .submit n =>
      match s.phase with
      | .submitting count _ => 0 < n ∧ count + n ≤ s.iocbs.length
      | _ => False
  | .submitError =>
      match s.phase with
      | .submitting count _ => count < s.iocbs.length
      | _ => False
  | .finish =>
      match s.phase with
      | .submitting count _ => count = s.iocbs.length
      | _ => False
  | .events done => s.phase = .reaping ∧ done ≠ [] ∧ done.length ≤ cfg.max_event ∧
      (done.map Prod.fst).Subperm s.flight
  | .timeout => s.phase = .reaping ∧ s.doing_count < cfg.max_event
  | .eventsError => s.phase = .reaping

def next (s : TrunkReadThreadContext) : ReadAction → TrunkReadThreadContext
  | .push iob => { s with queue := s.queue ++ [iob] }
  | .othersOpen =>
      { s with files := { s.files with fds := s.files.fds.openFile .foreign } }
  | .othersClose fd => { s with files := { s.files with fds := s.files.fds.closeFile fd } }
  | .pop => s.pop cfg
  | .prepare buffer openable memory => s.prepare cfg buffer openable memory
  | .submit n => s.submit n
  | .submitError => { s with phase := .stopped }
  | .finish => s.finish
  | .events done => s.events cfg done
  | .timeout => { s with phase := .consuming }
  | .eventsError => { s with phase := .stopped }

/-- The thread among the others of the process. -/
abbrev step : StepRel TrunkReadThreadContext ReadAction := .ofNext (Enabled cfg) (next cfg)

/-- The thread after `init_thread_context`: nothing is cached, queued or in flight. -/
structure Init (s : TrunkReadThreadContext) : Prop where
  buckets : ∀ b, s.files.cache.buckets b = []
  lru : s.files.cache.lru = []
  count : s.files.cache.count = 0
  entered : s.files.entered = []
  closed : s.files.closed = []
  queue : s.queue = []
  doing_count : s.doing_count = 0
  flight : s.flight = []
  phase : s.phase = .consuming

variable {cfg : ReadThreadConfig} {s : TrunkReadThreadContext}

/-! ## What holds throughout -/

/-- How many reads the kernel works on at each point of the thread. -/
def Counted (cfg : ReadThreadConfig) (s : TrunkReadThreadContext) : Prop :=
  match s.phase with
  | .consuming => s.flight.length = s.doing_count ∧ s.doing_count < cfg.max_event
  | .preparing rest target_count =>
      s.flight.length = s.doing_count ∧ rest ≠ [] ∧
        target_count = cfg.max_event - s.doing_count ∧ s.iocbs.length < target_count
  | .submitting count _ =>
      s.flight.length = s.doing_count + count ∧ count ≤ s.iocbs.length ∧
        0 < s.iocbs.length ∧ s.doing_count + s.iocbs.length ≤ cfg.max_event
  | .reaping =>
      s.flight.length = s.doing_count ∧ 0 < s.doing_count ∧ s.doing_count ≤ cfg.max_event
  | .stopped => s.doing_count ≤ cfg.max_event

/-- The cache is sound and the reads are counted. -/
structure ThreadSound (cfg : ReadThreadConfig) (s : TrunkReadThreadContext) : Prop where
  cache : s.files.CacheSound cfg
  counted : Counted cfg s

theorem Init.sound (init : Init s) : ThreadSound cfg s where
  cache := by
    constructor
    · intro b e
      rw [init.buckets, init.lru]
      simp
    · intro b
      rw [init.buckets]
      exact List.nodup_nil
    · rw [init.lru]
      exact List.nodup_nil
    · rw [init.count, init.lru]
      rfl
    · rw [init.lru]
      exact Nat.zero_le _
    · rw [init.lru]
      exact List.forall_mem_nil _
    · rw [init.closed, init.lru, init.entered]
      exact .nil
    · rw [init.entered]
      exact List.forall_mem_nil _
    · rw [init.entered]
      exact List.nodup_nil
  counted := by
    rw [Counted, init.phase]
    dsimp only
    rw [init.flight, init.doing_count]
    exact ⟨rfl, cfg.max_event_pos⟩

theorem Counted.le (counted : Counted cfg s) : s.doing_count ≤ cfg.max_event := by
  rw [Counted] at counted
  split at counted <;> omega

theorem prepare_read_slice_sound {files : ReadFiles} (sound : files.CacheSound cfg)
    (iob : TrunkReadIOBuffer) (buffer openable memory : Bool) :
    (prepare_read_slice cfg files iob buffer openable memory).2.CacheSound cfg := by
  rw [prepare_read_slice]
  split
  · exact sound.get_read_fd iob.trunk_id openable memory
  · exact sound

theorem events_files_sound {files : ReadFiles} (sound : files.CacheSound cfg)
    (done : List (TrunkReadIOBuffer × Bool)) :
    (done.foldl (fun files event =>
      if event.2 then files else (files.trunk_fd_cache_delete cfg event.1.trunk_id).2)
        files).CacheSound cfg := by
  induction done generalizing files with
  | nil => exact sound
  | cons event done ih =>
      refine ih ?_
      dsimp only
      split
      · exact sound
      · exact sound.delete event.1.trunk_id

theorem ThreadSound.pop (sound : ThreadSound cfg s) (phase : s.phase = .consuming) :
    ThreadSound cfg (s.pop cfg) := by
  have counted := sound.counted
  rw [Counted, phase] at counted
  rw [TrunkReadThreadContext.pop]
  split
  · split
    · exact sound
    · next some => exact ⟨sound.cache, counted.1, Nat.pos_of_ne_zero some, counted.2.le⟩
  · exact ⟨sound.cache, counted.1, List.cons_ne_nil _ _, rfl, Nat.sub_pos_of_lt counted.2⟩

theorem ThreadSound.prepare (sound : ThreadSound cfg s) (buffer openable memory : Bool) :
    ThreadSound cfg (s.prepare cfg buffer openable memory) := by
  have counted := sound.counted
  rw [TrunkReadThreadContext.prepare]
  split
  · next iob rest target_count phase =>
      rw [Counted, phase] at counted
      have cache := prepare_read_slice_sound sound.cache iob buffer openable memory
      split
      · next files prepared =>
          rw [prepared] at cache
          exact ⟨cache, sound.counted.le⟩
      · next fd files prepared =>
          rw [prepared] at cache
          refine ⟨cache, ?_⟩
          obtain ⟨flight, -, rfl, room⟩ := counted
          rw [Counted]
          dsimp only
          by_cases more : rest ≠ [] ∧ (s.iocbs ++ [(iob, fd)]).length <
              cfg.max_event - s.doing_count
          · rw [if_pos more]
            exact ⟨flight, more.1, rfl, more.2⟩
          · rw [if_neg more]
            rw [List.length_append]
            refine ⟨flight, Nat.zero_le _, Nat.succ_pos _, ?_⟩
            rw [List.length_singleton]
            omega
  · exact sound

theorem ThreadSound.submit (sound : ThreadSound cfg s) {n : Nat}
    (enabled : s.Enabled cfg (.submit n)) : ThreadSound cfg (s.submit n) := by
  have counted := sound.counted
  rw [TrunkReadThreadContext.submit]
  split
  · next count rest phase =>
      rw [Enabled, phase] at enabled
      rw [Counted, phase] at counted
      refine ⟨sound.cache, ?_, enabled.2, counted.2.2⟩
      have taken : ((s.iocbs.drop count).take n).length = n := by
        rw [List.length_take, List.length_drop]
        omega
      dsimp only
      rw [List.length_append, List.length_map, taken, counted.1, Nat.add_assoc]
  · exact sound

theorem ThreadSound.finish (sound : ThreadSound cfg s) (enabled : s.Enabled cfg .finish) :
    ThreadSound cfg s.finish := by
  have counted := sound.counted
  rw [TrunkReadThreadContext.finish]
  split
  · next count rest phase =>
      rw [Enabled, phase] at enabled
      rw [Counted, phase] at counted
      obtain rfl : count = s.iocbs.length := enabled
      exact ⟨sound.cache, counted.1, Nat.add_pos_right _ counted.2.2.1, counted.2.2.2⟩
  · exact sound

theorem ThreadSound.events (sound : ThreadSound cfg s) {done : List (TrunkReadIOBuffer × Bool)}
    (enabled : s.Enabled cfg (.events done)) : ThreadSound cfg (s.events cfg done) := by
  obtain ⟨phase, some, -, taken⟩ := enabled
  have counted := sound.counted
  rw [Counted, phase] at counted
  obtain ⟨flight, -, room⟩ := counted
  have fewer := taken.length_le
  have positive := List.length_pos_of_ne_nil some
  rw [List.length_map] at fewer
  refine ⟨events_files_sound sound.cache done, ?_, ?_⟩
  · have parts := (List.subperm_append_diff_self_of_count_le fun x _ =>
      taken.count_le x).length_eq
    rw [List.length_append, List.length_map] at parts
    dsimp only [TrunkReadThreadContext.events]
    omega
  · dsimp only [TrunkReadThreadContext.events]
    omega

/-- Every step keeps the cache sound and the reads counted. -/
theorem ThreadSound.next (sound : ThreadSound cfg s) {action : ReadAction}
    (enabled : s.Enabled cfg action) : ThreadSound cfg (next cfg s action) := by
  cases action with
  | push iob => exact ⟨sound.cache, sound.counted⟩
  | othersOpen => exact ⟨sound.cache.openFile .foreign le_rfl, sound.counted⟩
  | othersClose fd =>
      refine ⟨sound.cache.withFds (fun e member => ?_) le_rfl, sound.counted⟩
      obtain ⟨serial, file⟩ := sound.cache.files e member
      have different : e.fd ≠ fd := by
        rintro rfl
        exact absurd (file.symm.trans enabled) nofun
      rw [Descriptors.file_closeFile, if_neg different]
  | pop => exact sound.pop enabled
  | prepare buffer openable memory => exact sound.prepare buffer openable memory
  | submit n => exact sound.submit enabled
  | submitError => exact ⟨sound.cache, sound.counted.le⟩
  | finish => exact sound.finish enabled
  | events done => exact sound.events enabled
  | timeout =>
      have counted := sound.counted
      rw [Counted, enabled.1] at counted
      exact ⟨sound.cache, counted.1, enabled.2⟩
  | eventsError => exact ⟨sound.cache, sound.counted.le⟩

/-! ## The descriptors of a batch -/

/-- The trunks of the prepared reads, and of one more. -/
def batchTrunks (iocbs : List (TrunkReadIOBuffer × Nat)) : Finset Nat :=
  (iocbs.map fun io => io.1.trunk_id).toFinset

/-- The descriptor of the iocb is open, and it is one of the read's own trunk file. -/
def RightFile (files : ReadFiles) (io : TrunkReadIOBuffer × Nat) : Prop :=
  ∃ serial, files.fds.file io.2 = some (.trunk serial io.1.trunk_id)

/-- The entries that the batch used are the last ones of the list, and the descriptors of the
batch are theirs, or of no entry. -/
structure BatchSound (files : ReadFiles) (iocbs : List (TrunkReadIOBuffer × Nat))
    (old used : List TrunkIdFDPair) : Prop where
  split : files.cache.lru = old ++ used
  trunks : ∀ e ∈ used, e.trunk_id ∈ batchTrunks iocbs
  right : ∀ io ∈ iocbs, RightFile files io
  kept : ∀ io ∈ iocbs, TrunkIdFDPair.mk io.1.trunk_id io.2 ∈ used ∨ ∀ e ∈ files.cache.lru, e.fd ≠ io.2

theorem batchTrunks_concat (iocbs : List (TrunkReadIOBuffer × Nat)) (iob : TrunkReadIOBuffer)
    (fd : Nat) : batchTrunks (iocbs ++ [(iob, fd)]) = insert iob.trunk_id (batchTrunks iocbs) := by
  rw [batchTrunks, batchTrunks, List.map_append, List.toFinset_append, Finset.union_comm]
  rfl

variable {files : ReadFiles} {iocbs : List (TrunkReadIOBuffer × Nat)}
  {old used : List TrunkIdFDPair} {iob : TrunkReadIOBuffer}

/-- A hit moves the entry to the end of the list. -/
theorem BatchSound.hit (batch : BatchSound files iocbs old used) (sound : files.CacheSound cfg)
    {entry : TrunkIdFDPair} (member : entry ∈ files.cache.lru)
    (mine : entry.trunk_id = iob.trunk_id) :
    BatchSound
      { files with
        cache :=
          { files.cache with
            lru := files.cache.lru.erase entry ++ [entry] } }
      (iocbs ++ [(iob, entry.fd)]) (old.erase entry) (used.erase entry ++ [entry]) := by
  have nodup := List.Nodup.of_map _ sound.distinct
  have members : ∀ e, e ∈ files.cache.lru.erase entry ++ [entry] ↔ e ∈ files.cache.lru := fun e =>
    (List.perm_append_comm.trans (List.perm_cons_erase member).symm).mem_iff
  have stays : ∀ e, e ∈ used → e ∈ used.erase entry ++ [entry] := by
    intro e inUsed
    by_cases same : e = entry
    · exact List.mem_append_right _ (List.mem_singleton.mpr same)
    · exact List.mem_append_left _ ((List.mem_erase_of_ne same).mpr inUsed)
  constructor
  · have parts : (old ++ used).erase entry = old.erase entry ++ used.erase entry := by
      rw [batch.split] at nodup
      rw [List.erase_append]
      split
      · next inOld =>
          have absent : entry ∉ used := fun inUsed =>
            (List.nodup_append.mp nodup).2.2 entry inOld entry inUsed rfl
          rw [List.erase_of_not_mem absent]
      · next notOld => rw [List.erase_of_not_mem notOld]
    dsimp only
    rw [batch.split, parts, List.append_assoc]
  · intro e there
    rw [batchTrunks_concat]
    cases List.mem_append.mp there with
    | inl before => exact Finset.mem_insert_of_mem (batch.trunks e (List.mem_of_mem_erase before))
    | inr last =>
        rw [List.mem_singleton.mp last, mine]
        exact Finset.mem_insert_self _ _
  · intro io there
    cases List.mem_append.mp there with
    | inl before => exact batch.right io before
    | inr last =>
        obtain rfl := List.mem_singleton.mp last
        obtain ⟨serial, file⟩ := sound.files entry member
        exact ⟨serial, mine ▸ file⟩
  · intro io there
    cases List.mem_append.mp there with
    | inl before =>
        refine (batch.kept io before).imp (stays _) fun far e also => ?_
        exact far e ((members e).mp also)
    | inr last =>
        obtain rfl := List.mem_singleton.mp last
        exact .inl (List.mem_append_right _ (List.mem_singleton.mpr (by rw [← mine])))

/-- The entries that the batch used, and one more trunk, fit in the cache. -/
theorem BatchSound.short (batch : BatchSound files iocbs old used) (sound : files.CacheSound cfg)
    (absent : ∀ e ∈ files.cache.lru, e.trunk_id ≠ iob.trunk_id)
    (few : (insert iob.trunk_id (batchTrunks iocbs)).card ≤ cfg.capacity) :
    used.length < cfg.capacity := by
  have inLru : ∀ e ∈ used, e ∈ files.cache.lru := fun e member =>
    batch.split ▸ List.mem_append_right _ member
  have distinct : (used.map (·.trunk_id)).Nodup := by
    refine List.Nodup.sublist (List.Sublist.map _ ?_) sound.distinct
    rw [batch.split]
    exact List.sublist_append_right old used
  have subset : insert iob.trunk_id (used.map (·.trunk_id)).toFinset ⊆
      insert iob.trunk_id (batchTrunks iocbs) := by
    refine Finset.insert_subset_insert _ fun id member => ?_
    obtain ⟨e, there, rfl⟩ := List.mem_map.mp (List.mem_toFinset.mp member)
    exact batch.trunks e there
  have fresh : iob.trunk_id ∉ (used.map (·.trunk_id)).toFinset := by
    intro member
    obtain ⟨e, there, same⟩ := List.mem_map.mp (List.mem_toFinset.mp member)
    exact absent e (inLru e there) same
  have card := (Finset.card_le_card subset).trans few
  rw [Finset.card_insert_of_notMem fresh, List.toFinset_card_of_nodup distinct,
    List.length_map] at card
  exact card

/-- Where the batch used fewer entries than there are, it loses none of them. -/
theorem BatchSound.makeRoom (batch : BatchSound files iocbs old used)
    (sound : files.CacheSound cfg) (short : used.length < cfg.capacity) :
    ∃ old', BatchSound (files.makeRoom cfg) iocbs old' used := by
  cases sound.makeRoom_eq with
  | inl enough =>
      rw [enough.1]
      exact ⟨old, batch⟩
  | inr full =>
      obtain ⟨first, rest, list, -, exactly, same⟩ := full
      have nodup := List.Nodup.of_map _ sound.distinct
      have split := batch.split
      cases old with
      | nil =>
          rw [List.nil_append] at split
          rw [split] at exactly
          exact absurd exactly short.ne
      | cons head old' =>
          rw [list] at split
          obtain ⟨rfl, tails⟩ := List.cons.inj split
          have member : first ∈ files.cache.lru := list ▸ List.mem_cons_self
          have inLru : ∀ e ∈ used, e ∈ files.cache.lru ∧ e ≠ first := by
            intro e there
            have inRest : e ∈ rest := tails ▸ List.mem_append_right _ there
            rw [list] at nodup ⊢
            refine ⟨List.mem_cons_of_mem _ inRest, ?_⟩
            rintro rfl
            exact (List.nodup_cons.mp nodup).1 inRest
          rw [same]
          refine ⟨old', ?_, batch.trunks, fun io there => ?_, fun io there => ?_⟩
          · rw [ReadFiles.without, list, List.erase_cons_head]
            exact tails
          · have different : io.2 ≠ first.fd := by
              cases batch.kept io there with
              | inl inUsed =>
                  obtain ⟨also, other⟩ := inLru _ inUsed
                  exact sound.fd_ne member also other
              | inr far => exact fun same => far first member same.symm
            obtain ⟨serial, file⟩ := batch.right io there
            exact ⟨serial, (Descriptors.file_closeFile _ _).trans ((if_neg different).trans file)⟩
          · refine (batch.kept io there).imp_right fun far e also => ?_
            exact far e (List.mem_of_mem_erase also)

/-- A miss opens the trunk file and adds it. -/
theorem BatchSound.miss (batch : BatchSound files iocbs old used) (sound : files.CacheSound cfg)
    (absent : ∀ e ∈ files.cache.lru, e.trunk_id ≠ iob.trunk_id)
    (few : (insert iob.trunk_id (batchTrunks iocbs)).card ≤ cfg.capacity) (memory : Bool) :
    ∃ old' used', BatchSound ((files.openTrunk iob.trunk_id).2.trunk_fd_cache_add cfg iob.trunk_id
      files.fds.lowestFree memory).2 (iocbs ++ [(iob, files.fds.lowestFree)]) old' used' := by
  have short := batch.short sound absent few
  have openSound := sound.openTrunk iob.trunk_id
  have new := sound.newFile absent
  have different : ∀ io ∈ iocbs, io.2 ≠ files.fds.lowestFree := by
    intro io there same
    obtain ⟨serial, file⟩ := batch.right io there
    rw [same, Descriptors.file_lowestFree] at file
    cases file
  have opened : BatchSound (files.openTrunk iob.trunk_id).2 iocbs old used := by
    refine ⟨batch.split, batch.trunks, fun io there => ?_, batch.kept⟩
    obtain ⟨serial, file⟩ := batch.right io there
    exact ⟨serial,
      (Descriptors.file_openFile _ _).trans ((if_neg (different io there)).trans file)⟩
  obtain ⟨old', room⟩ := opened.makeRoom openSound short
  obtain ⟨roomSound, roomNew, -⟩ := openSound.room new
  -- no cached descriptor is the new one
  have far : ∀ e ∈ ((files.openTrunk iob.trunk_id).2.makeRoom cfg).cache.lru,
      e.fd ≠ files.fds.lowestFree := by
    intro e there same
    obtain ⟨serial, file⟩ := roomSound.files e there
    rw [same] at file
    have both := Option.some.inj (file.symm.trans roomNew.file)
    exact roomNew.absent e there (OpenFile.trunk.inj both).2
  have rightAfter : ∀ io ∈ iocbs ++ [(iob, files.fds.lowestFree)],
      RightFile ((files.openTrunk iob.trunk_id).2.makeRoom cfg) io := by
    intro io there
    cases List.mem_append.mp there with
    | inl before => exact room.right io before
    | inr last =>
        rw [List.mem_singleton.mp last]
        exact ⟨_, roomNew.file⟩
  cases memory with
  | false =>
      refine ⟨old', used, room.split, fun e there => ?_, rightAfter, fun io there => ?_⟩
      · rw [batchTrunks_concat]
        exact Finset.mem_insert_of_mem (room.trunks e there)
      · cases List.mem_append.mp there with
        | inl before => exact room.kept io before
        | inr last =>
            rw [List.mem_singleton.mp last]
            exact .inr far
  | true =>
      refine ⟨old', used ++ [⟨iob.trunk_id, files.fds.lowestFree⟩], ?_, fun e there => ?_,
        rightAfter, fun io there => ?_⟩
      · have whole := congrArg (· ++ [TrunkIdFDPair.mk iob.trunk_id files.fds.lowestFree]) room.split
        exact whole.trans (List.append_assoc _ _ _)
      · rw [batchTrunks_concat]
        cases List.mem_append.mp there with
        | inl before => exact Finset.mem_insert_of_mem (room.trunks e before)
        | inr last =>
            rw [List.mem_singleton.mp last]
            exact Finset.mem_insert_self _ _
      · cases List.mem_append.mp there with
        | inl before =>
            refine (room.kept io before).imp (List.mem_append_left _) fun far e also => ?_
            cases List.mem_append.mp also with
            | inl listed => exact far e listed
            | inr new =>
                rw [List.mem_singleton.mp new]
                exact (different io before).symm
        | inr last =>
            rw [List.mem_singleton.mp last]
            exact .inl (List.mem_append_right _ (List.mem_singleton.mpr rfl))

/-- A read that is prepared keeps the batch right, as long as its trunks fit in the cache. -/
theorem BatchSound.prepare (batch : BatchSound files iocbs old used) (sound : files.CacheSound cfg)
    (few : (insert iob.trunk_id (batchTrunks iocbs)).card ≤ cfg.capacity)
    {buffer openable memory : Bool} {fd : Nat} {files' : ReadFiles}
    (prepared : prepare_read_slice cfg files iob buffer openable memory = (some fd, files')) :
    ∃ old' used', BatchSound files' (iocbs ++ [(iob, fd)]) old' used' := by
  cases buffer with
  | false => cases prepared
  | true =>
      have got : files.get_read_fd cfg iob.trunk_id openable memory = (some fd, files') := prepared
      cases ReadFiles.get_read_fd_cases sound iob.trunk_id openable memory with
      | inl hit =>
          obtain ⟨entry, member, mine, same⟩ := hit
          rw [same] at got
          obtain ⟨sameFd, rfl⟩ := Prod.mk.inj got
          obtain rfl := Option.some.inj sameFd
          exact ⟨_, _, batch.hit sound member mine⟩
      | inr miss =>
          obtain ⟨absent, ends⟩ := miss
          cases ends with
          | inl failed => cases failed.2.symm.trans got
          | inr opened =>
              rw [opened] at got
              obtain ⟨sameFd, rfl⟩ := Prod.mk.inj got
              obtain rfl := Option.some.inj sameFd
              exact batch.miss sound absent few memory

/-! ## Runs -/

/-- The trunks of a batch fit in the cache: the reads that are prepared and the next one. -/
def FewTrunks (cfg : ReadThreadConfig) (s : TrunkReadThreadContext) : ReadAction → Prop
  | .prepare _ _ _ =>
      match s.phase with
      | .preparing (iob :: _) _ =>
          (insert iob.trunk_id (batchTrunks s.iocbs)).card ≤ cfg.capacity
      | _ => True
  | _ => True

/-- The descriptors of the batch are right while it is prepared and submitted. -/
def BatchRight (s : TrunkReadThreadContext) : Prop :=
  match s.phase with
  | .preparing _ _ => ∃ old used, BatchSound s.files s.iocbs old used
  | .submitting _ _ => ∃ old used, BatchSound s.files s.iocbs old used
  | _ => True

/-- Opening and closing files of others leaves the batch right. -/
theorem BatchSound.withFds (batch : BatchSound files iocbs old used) {fds : Descriptors OpenFile}
    (kept : ∀ io ∈ iocbs, fds.file io.2 = files.fds.file io.2) :
    BatchSound
      { files with
        fds := fds } iocbs old used := by
  refine ⟨batch.split, batch.trunks, fun io there => ?_, batch.kept⟩
  obtain ⟨serial, file⟩ := batch.right io there
  exact ⟨serial, (kept io there).trans file⟩

theorem BatchRight.withFds (right : s.BatchRight) {fds : Descriptors OpenFile}
    (kept : ∀ fd serial trunk_id, s.files.fds.file fd = some (.trunk serial trunk_id) →
      fds.file fd = s.files.fds.file fd) :
    BatchRight
      { s with
        files :=
          { s.files with
            fds := fds } } := by
  have move : (∃ old used, BatchSound s.files s.iocbs old used) →
      ∃ old used, BatchSound
        { s.files with
          fds := fds } s.iocbs old used := by
    rintro ⟨old, used, batch⟩
    refine ⟨old, used, batch.withFds fun io there => ?_⟩
    obtain ⟨serial, file⟩ := batch.right io there
    exact kept io.2 serial io.1.trunk_id file
  rw [BatchRight] at right ⊢
  dsimp only
  cases phase : s.phase with
  | preparing rest target_count =>
      rw [phase] at right
      exact move right
  | submitting count rest =>
      rw [phase] at right
      exact move right
  | consuming => trivial
  | reaping => trivial
  | stopped => trivial

theorem BatchRight.prepare (right : s.BatchRight) (sound : ThreadSound cfg s)
    {buffer openable memory : Bool} (few : s.FewTrunks cfg (.prepare buffer openable memory)) :
    (s.prepare cfg buffer openable memory).BatchRight := by
  rw [TrunkReadThreadContext.prepare]
  split
  · next iob rest target_count phase =>
      rw [BatchRight, phase] at right
      rw [FewTrunks, phase] at few
      obtain ⟨old, used, batch⟩ := right
      split
      · trivial
      · next fd files prepared =>
          have after := batch.prepare sound.cache few prepared
          rw [BatchRight]
          dsimp only
          by_cases more : rest ≠ [] ∧ (s.iocbs ++ [(iob, fd)]).length < target_count
          · rw [if_pos more]
            exact after
          · rw [if_neg more]
            exact after
  · exact right

theorem BatchRight.next (right : s.BatchRight) (sound : ThreadSound cfg s) {action : ReadAction}
    (enabled : s.Enabled cfg action) (few : s.FewTrunks cfg action) :
    (next cfg s action).BatchRight := by
  cases action with
  | push iob => exact right
  | othersOpen =>
      refine right.withFds fun fd serial trunk_id file => ?_
      have used : fd ≠ s.files.fds.lowestFree := by
        rintro rfl
        rw [Descriptors.file_lowestFree] at file
        cases file
      rw [Descriptors.file_openFile, if_neg used]
  | othersClose other =>
      refine right.withFds fun fd serial trunk_id file => ?_
      have different : fd ≠ other := by
        rintro rfl
        exact absurd (file.symm.trans enabled) nofun
      rw [Descriptors.file_closeFile, if_neg different]
  | pop =>
      rw [TrunkReadThreadContext.next, TrunkReadThreadContext.pop]
      split
      · split
        · exact right
        · trivial
      · refine ⟨s.files.cache.lru, [], (List.append_nil _).symm, ?_, ?_, ?_⟩
        · exact List.forall_mem_nil _
        · exact List.forall_mem_nil _
        · exact List.forall_mem_nil _
  | prepare buffer openable memory => exact right.prepare sound few
  | submit n =>
      rw [TrunkReadThreadContext.next, TrunkReadThreadContext.submit]
      split
      · next count rest phase =>
          rw [BatchRight, phase] at right
          exact right
      · exact right
  | submitError => trivial
  | finish =>
      rw [TrunkReadThreadContext.next, TrunkReadThreadContext.finish]
      split
      · trivial
      · exact right
  | events done => trivial
  | timeout => trivial
  | eventsError => trivial

theorem threadSound_of_reachable (reached : Reachable (step cfg) Init s) : ThreadSound cfg s :=
  reached.invariant (fun _ init => init.sound) fun _ _ _ sound taken => taken.2 ▸ sound.next taken.1

theorem batchRight_of_reachable (reached : Reachable ((step cfg).guarded (FewTrunks cfg)) Init s) :
    s.BatchRight := by
  have both : ThreadSound cfg s ∧ s.BatchRight := by
    refine @Reachable.invariant _ _ _ _ (fun s => ThreadSound cfg s ∧ s.BatchRight)
      (fun s init => ⟨init.sound, ?_⟩) (fun s action s' both taken => ?_) _ reached
    · rw [BatchRight, init.phase]
      trivial
    · obtain ⟨few, enabled, rfl⟩ := taken
      exact ⟨both.1.next enabled, both.2.next both.1 enabled few⟩
  exact both.2

/-- Where the cache is as large as a batch can be, the trunks of every batch fit. -/
theorem fewTrunks_of_capacity (sound : ThreadSound cfg s) (large : cfg.max_event ≤ cfg.capacity)
    (action : ReadAction) : s.FewTrunks cfg action := by
  cases action with
  | prepare buffer openable memory =>
      have counted := sound.counted
      rw [FewTrunks]
      split
      · next iob rest target_count phase =>
          rw [Counted, phase] at counted
          obtain ⟨-, -, rfl, short⟩ := counted
          have card : (batchTrunks s.iocbs).card ≤ s.iocbs.length := by
            rw [batchTrunks]
            exact (List.toFinset_card_le _).trans (List.length_map _).le
          have one := Finset.card_insert_le iob.trunk_id (batchTrunks s.iocbs)
          omega
      · trivial
  | _ => trivial

/-- Then every run is one whose batches fit. -/
theorem reachable_guarded (large : cfg.max_event ≤ cfg.capacity)
    (reached : Reachable (step cfg) Init s) :
    Reachable ((step cfg).guarded (FewTrunks cfg)) Init s := by
  induction reached with
  | start init => exact .start init
  | next action reached taken ih =>
      exact ih.next action ⟨fewTrunks_of_capacity (threadSound_of_reachable reached) large action,
        taken⟩

/-! ## One batch -/

/-- Every trunk file that is open for the thread is in its cache. -/
def Complete (files : ReadFiles) : Prop :=
  ∀ fd serial trunk_id, files.fds.file fd = some (.trunk serial trunk_id) →
    ⟨trunk_id, fd⟩ ∈ files.cache.lru

/-- The loop of `consume_queue` over a batch, where there is memory and the trunk files can be
opened: the iocbs and the files behind it. -/
def prepareLoop (cfg : ReadThreadConfig) : List TrunkReadIOBuffer →
    List (TrunkReadIOBuffer × Nat) → ReadFiles → List (TrunkReadIOBuffer × Nat) × ReadFiles
  | [], iocbs, files => (iocbs, files)
  | iob :: rest, iocbs, files =>
      match prepare_read_slice cfg files iob true true true with
      | (none, files) => (iocbs, files)
      | (some fd, files) => prepareLoop cfg rest (iocbs ++ [(iob, fd)]) files

/-- A trunk file that is open after room was made was open before, and its entry stayed. -/
theorem makeRoom_keeps (sound : files.CacheSound cfg) {fd serial trunk_id : Nat}
    (file : (files.makeRoom cfg).fds.file fd = some (.trunk serial trunk_id)) :
    files.fds.file fd = some (.trunk serial trunk_id) ∧
      (⟨trunk_id, fd⟩ ∈ files.cache.lru → ⟨trunk_id, fd⟩ ∈ (files.makeRoom cfg).cache.lru) := by
  cases sound.makeRoom_eq with
  | inl enough =>
      rw [enough.1] at file ⊢
      exact ⟨file, id⟩
  | inr full =>
      obtain ⟨first, rest, list, -, -, same⟩ := full
      rw [same] at file ⊢
      have after := (Descriptors.file_closeFile first.fd fd).symm.trans file
      split at after
      · cases after
      · next different =>
          refine ⟨after, fun member => ?_⟩
          have other : TrunkIdFDPair.mk trunk_id fd ≠ first := fun same => different (same ▸ rfl)
          exact (List.mem_erase_of_ne other).mpr member

/-- With memory, what is prepared leaves the cache complete. -/
theorem Complete.prepare (complete : Complete files) (sound : files.CacheSound cfg)
    (iob : TrunkReadIOBuffer) :
    ∃ fd files', prepare_read_slice cfg files iob true true true = (some fd, files') ∧
      Complete files' ∧ files'.CacheSound cfg := by
  have kept := sound.get_read_fd iob.trunk_id true true
  cases ReadFiles.get_read_fd_cases sound iob.trunk_id true true with
  | inl hit =>
      obtain ⟨entry, member, -, same⟩ := hit
      rw [same] at kept
      refine ⟨_, _, same, fun fd serial trunk_id file => ?_, kept⟩
      exact (List.perm_append_comm.trans (List.perm_cons_erase member).symm).mem_iff.mpr
        (complete fd serial trunk_id file)
  | inr miss =>
      obtain ⟨absent, ends⟩ := miss
      have same := ends.resolve_left fun failed => nomatch failed.1
      rw [same] at kept
      refine ⟨_, _, same, fun fd serial trunk_id file => ?_, kept⟩
      obtain ⟨opened, stays⟩ := makeRoom_keeps (sound.openTrunk iob.trunk_id) file
      have before := (Descriptors.file_openFile _ _).symm.trans opened
      split at before
      · next new =>
          have trunk := (OpenFile.trunk.inj (Option.some.inj before)).2
          rw [new, ← trunk]
          exact List.mem_append_right _ (List.mem_singleton.mpr rfl)
      · exact List.mem_append_left _ (stays (complete fd serial trunk_id before))

theorem prepareLoop_complete (complete : Complete files) (sound : files.CacheSound cfg)
    (iobs : List TrunkReadIOBuffer) (iocbs : List (TrunkReadIOBuffer × Nat)) :
    (prepareLoop cfg iobs iocbs files).1.map Prod.fst = iocbs.map Prod.fst ++ iobs ∧
      Complete (prepareLoop cfg iobs iocbs files).2 ∧
      (prepareLoop cfg iobs iocbs files).2.CacheSound cfg := by
  induction iobs generalizing files iocbs with
  | nil => exact ⟨(List.append_nil _).symm, complete, sound⟩
  | cons iob rest ih =>
      obtain ⟨fd, files', prepared, complete', sound'⟩ := complete.prepare sound iob
      obtain ⟨all, more⟩ := ih complete' sound' (iocbs ++ [(iob, fd)])
      rw [prepareLoop, prepared]
      refine ⟨?_, more⟩
      rw [all, List.map_append, List.append_assoc]
      rfl

theorem prepareLoop_right (batch : BatchSound files iocbs old used) (complete : Complete files)
    (sound : files.CacheSound cfg) (iobs : List TrunkReadIOBuffer)
    (few : (batchTrunks iocbs ∪ (iobs.map (·.trunk_id)).toFinset).card ≤ cfg.capacity) :
    ∀ io ∈ (prepareLoop cfg iobs iocbs files).1,
      RightFile (prepareLoop cfg iobs iocbs files).2 io := by
  induction iobs generalizing files iocbs old used with
  | nil => exact batch.right
  | cons iob rest ih =>
      obtain ⟨fd, files', prepared, complete', sound'⟩ := complete.prepare sound iob
      have union : batchTrunks iocbs ∪ ((iob :: rest).map (·.trunk_id)).toFinset =
          insert iob.trunk_id (batchTrunks iocbs) ∪ (rest.map (·.trunk_id)).toFinset := by
        rw [List.map_cons, List.toFinset_cons, Finset.union_insert, Finset.insert_union]
      rw [union] at few
      have one := (Finset.card_le_card Finset.subset_union_left).trans few
      obtain ⟨old', used', batch'⟩ := batch.prepare sound one prepared
      rw [prepareLoop, prepared]
      exact ih batch' complete' sound' (by rw [batchTrunks_concat]; exact few)

/-- The descriptors of a batch are right when it is submitted exactly where its trunks are
no more than the cache holds. -/
theorem prepareLoop_right_iff (complete : Complete files) (sound : files.CacheSound cfg)
    (iobs : List TrunkReadIOBuffer) :
    (∀ io ∈ (prepareLoop cfg iobs [] files).1, RightFile (prepareLoop cfg iobs [] files).2 io) ↔
      (iobs.map (·.trunk_id)).toFinset.card ≤ cfg.capacity := by
  constructor
  · intro right
    obtain ⟨all, complete', sound'⟩ := prepareLoop_complete complete sound iobs []
    -- a right descriptor is in the cache, and the cache holds no more trunks than its capacity
    have subset : (iobs.map (·.trunk_id)).toFinset ⊆
        ((prepareLoop cfg iobs [] files).2.cache.lru.map (·.trunk_id)).toFinset := by
      intro trunk_id member
      obtain ⟨iob, there, rfl⟩ := List.mem_map.mp (List.mem_toFinset.mp member)
      rw [List.map_nil, List.nil_append] at all
      rw [← all] at there
      obtain ⟨io, inBatch, rfl⟩ := List.mem_map.mp there
      obtain ⟨serial, file⟩ := right io inBatch
      exact List.mem_toFinset.mpr (List.mem_map.mpr ⟨_, complete' _ _ _ file, rfl⟩)
    refine (Finset.card_le_card subset).trans ((List.toFinset_card_le _).trans ?_)
    rw [List.length_map]
    exact sound'.fits
  · intro few
    have batch : BatchSound files [] files.cache.lru [] :=
      ⟨(List.append_nil _).symm, List.forall_mem_nil _, List.forall_mem_nil _,
        List.forall_mem_nil _⟩
    refine prepareLoop_right batch complete sound iobs ?_
    have none : batchTrunks [] = ∅ := rfl
    rw [none, Finset.empty_union]
    exact few

/-- A read goes to its own trunk file exactly where the trunks of its batch fit in the cache:
for one batch in general, and for all batches of a run whose batches all fit, which is so
where the cache is as large as a batch can be.  The cache is sound throughout every run, and
the kernel never works on more reads than it was set up for. -/
theorem trunk_reads_right_iff (cfg : ReadThreadConfig) :
    (∀ (files : ReadFiles) (iobs : List TrunkReadIOBuffer), Complete files →
      files.CacheSound cfg →
      ((∀ io ∈ (prepareLoop cfg iobs [] files).1, RightFile (prepareLoop cfg iobs [] files).2 io) ↔
        (iobs.map (·.trunk_id)).toFinset.card ≤ cfg.capacity)) ∧
    (∀ s, Reachable ((step cfg).guarded (FewTrunks cfg)) Init s →
      ∀ count rest, s.phase = .submitting count rest → ∀ io ∈ s.iocbs, RightFile s.files io) ∧
    (cfg.max_event ≤ cfg.capacity → ∀ s, Reachable (step cfg) Init s →
      ∀ count rest, s.phase = .submitting count rest → ∀ io ∈ s.iocbs, RightFile s.files io) ∧
    ∀ s, Reachable (step cfg) Init s →
      s.files.CacheSound cfg ∧ s.doing_count ≤ cfg.max_event := by
  have submitted : ∀ s, Reachable ((step cfg).guarded (FewTrunks cfg)) Init s →
      ∀ count rest, s.phase = .submitting count rest → ∀ io ∈ s.iocbs, RightFile s.files io := by
    intro s reached count rest phase
    have right := batchRight_of_reachable reached
    rw [BatchRight, phase] at right
    obtain ⟨old, used, batch⟩ := right
    exact batch.right
  refine ⟨?_, submitted, ?_, ?_⟩
  · intro files iobs complete sound
    exact prepareLoop_right_iff complete sound iobs
  · exact fun large s reached => submitted s (reachable_guarded large reached)
  · intro s reached
    have sound := threadSound_of_reachable reached
    exact ⟨sound.cache, sound.counted.le⟩

/-- A thread that starts in a process with the three standard files. -/
def startThread : TrunkReadThreadContext where
  files := ⟨[some .foreign, some .foreign, some .foreign], ⟨fun _ => [], [], 0⟩, 0, [], []⟩
  queue := []
  iocbs := []
  doing_count := 0
  flight := []
  phase := .consuming

theorem init_startThread : Init startThread :=
  ⟨fun _ => rfl, rfl, rfl, rfl, rfl, rfl, rfl, rfl, rfl⟩

/-- Two descriptors are enough for the reads of two trunks. -/
theorem trunk_reads_right_two :
    ∀ io ∈ (prepareLoop (.load 2 4 fun _ => none) [⟨0, 1⟩, ⟨1, 2⟩, ⟨2, 1⟩] []
        startThread.files).1,
      RightFile (prepareLoop (.load 2 4 fun _ => none) [⟨0, 1⟩, ⟨1, 2⟩, ⟨2, 1⟩] []
        startThread.files).2 io := by
  refine ((trunk_reads_right_iff (.load 2 4 fun _ => none)).1 startThread.files _ ?_
    init_startThread.sound.cache).mpr (by decide)
  intro fd serial trunk_id file
  have member := List.mem_of_getElem? (Option.join_eq_some_iff.mp file)
  simp [startThread] at member

/-- Reads of three trunks in one batch, where the cache has room for one descriptor. -/
def threeTrunks : List ReadAction :=
  [.push ⟨0, 1⟩, .push ⟨1, 2⟩, .push ⟨2, 3⟩, .pop, .prepare true true true,
    .prepare true true true, .prepare true true true]

/-- The first of the three reads goes to the file of the third. -/
theorem trunk_read_wrong_file :
    ¬∀ (fd_cache_capacity_per_read_thread read_io_depth : Int) (prime : Nat → Option Nat)
      (s : TrunkReadThreadContext),
      Reachable (step (.load fd_cache_capacity_per_read_thread read_io_depth prime)) Init s →
      ∀ count rest, s.phase = .submitting count rest → ∀ io ∈ s.iocbs, RightFile s.files io := by
  intro claim
  have start : Reachable (step (.load 1 3 fun _ => none)) Init startThread := .start init_startThread
  have reached := start.follow threeTrunks
    ⟨trivial, trivial, trivial, rfl, trivial, trivial, trivial, trivial⟩
  obtain ⟨serial, file⟩ := claim 1 3 _ _ reached 0 [] (by decide +kernel) (⟨0, 1⟩, 3)
    (by decide +kernel)
  have other : (threeTrunks.foldl (next (.load 1 3 fun _ => none)) startThread).files.fds.file 3 =
      some (.trunk 2 3) := by decide +kernel
  rw [other] at file
  cases file

end TrunkReadThreadContext

end FastStore.Dio
