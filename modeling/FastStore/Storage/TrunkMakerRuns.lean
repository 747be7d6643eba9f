import FastStore.Storage.TrunkMaker

/-!
# Runs of the trunk makers

Whatever the order of the steps and wherever the server stops, no trunk file is created under a
name that is on the disk, no subdir gets more files than are allowed, and every trunk of the
tables has its file.  The trunk binlog brings the same tables back, with the trunks besides whose
answers the makers have not taken yet.
-/

namespace FastStore.Storage

open FastStore.Util FastStore.Dio FastStore.Binlog

namespace TrunkMakers

variable {cfg : TrunkMakerConfig} {s s' : TrunkMakers} {held : List FSTrunkSpaceInfo}
  {cameUp : Nat → Int → Prop} {thread path : Nat} {space : FSTrunkSpaceInfo}

/-! ### What follows from the invariant -/

theorem subdirOf_of_small (least : 1 ≤ space.idInfo.subdir)
    (most : space.idInfo.subdir < 2147483648) : subdirOf space = space.idInfo.subdir :=
  toInt_of_lt (le_trans (by norm_num) least) most

namespace Sound

theorem liveNodup (sound : s.Sound cfg held cameUp) : (liveTrunks s.log).Nodup :=
  sound.loads.live.1.imp fun apart => ne_of_apply_ne _ apart

theorem heldNodup (sound : s.Sound cfg held cameUp) : held.Nodup :=
  sound.distinct.imp fun apart => ne_of_apply_ne _ apart

theorem mem_live_iff (sound : s.Sound cfg held cameUp) :
    space ∈ liveTrunks s.log ↔ ∃ entry ∈ s.log, entry.space = space := by
  rw [liveTrunks_of_creates fun entry member => (sound.creates entry member).1, List.mem_reverse,
    List.mem_map]

theorem liveOnDisk (sound : s.Sound cfg held cameUp) (member : space ∈ liveTrunks s.log) :
    s.OnDisk space := by
  obtain ⟨entry, logged, rfl⟩ := sound.mem_live_iff.mp member
  exact (sound.creates entry logged).2

theorem held_live (sound : s.Sound cfg held cameUp) (member : space ∈ held) :
    space ∈ liveTrunks s.log :=
  (sound.live space).mpr (.inl member)

/-- Only the maker of a store path has trunks of it pending. -/
theorem pending_own (sound : s.Sound cfg held cameUp) (idle : s.threads (cfg.maker path) = .idle)
    (pending : s.Pending thread space) : space.store ≠ path := by
  rintro rfl
  rw [(sound.asked thread space pending).own] at idle
  rcases pending with waiting | ⟨result, answered⟩
  · rw [waiting] at idle
    cases idle
  · rw [answered] at idle
    cases idle

theorem pending_of_ok (answered : s.threads thread = .answered space .ok) :
    s.Pending thread space := .inr ⟨_, answered⟩

/-- While the maker of a store path is idle, the tables count what the log has. -/
theorem filesIn_idle (sound : s.Sound cfg held cameUp)
    (idle : s.threads (cfg.maker path) = .idle) (subdir : Int) :
    filesIn held path subdir = filesIn (liveTrunks s.log) path subdir := by
  apply filesIn_congr sound.heldNodup sound.liveNodup
  intro space here
  rw [sound.live]
  refine (or_iff_left ?_).symm
  rintro ⟨thread, answered⟩
  exact sound.pending_own idle (pending_of_ok answered) here

/-- A subdir that has come up is counted under its own number. -/
theorem cameUp_range (sound : s.Sound cfg held cameUp) {subdir : Int}
    (known : CameUp s.log path subdir) : 1 ≤ subdir ∧ subdir ≤ s.ids.currentSubdirId := by
  obtain ⟨entry, logged, -, here, rfl⟩ := known
  have least := (sound.loads.takes entry logged).subdir.1
  have most := (sound.disk _ _ (sound.creates entry logged).2).2
  rw [subdirOf_of_small least (lt_of_le_of_lt most sound.subdirId.2)]
  exact ⟨least, most⟩

/-- There is room in the subdir that `trunk_id_info_generate` picks. -/
theorem newSpace_spec (sound : s.Sound cfg held cameUp)
    (possible : s.Enabled cfg (.generate path true)) :
    let after := (trunkIdInfoGenerate (s.freeSubdir path) s.ids).1
    s.ids.currentTrunkId < (s.newSpace cfg path).idInfo.id ∧
      after.currentTrunkId = (s.newSpace cfg path).idInfo.id ∧
      s.ids.currentSubdirId ≤ after.currentSubdirId ∧ after.currentSubdirId < 2147483648 ∧
      (s.newSpace cfg path).idInfo.subdir ≤ after.currentSubdirId ∧
      cfg.Takes (s.newSpace cfg path) ∧
      (filesIn (liveTrunks s.log) path (subdirOf (s.newSpace cfg path)) : Int) <
        cfg.maxTrunkFilesPerSubdir := by
  obtain ⟨present, idle, trunks, subdirs⟩ := possible
  have trunkId := sound.trunkId
  have subdirId := sound.subdirId
  have takes (least : 1 ≤ (s.newSpace cfg path).idInfo.subdir)
      (most : (s.newSpace cfg path).idInfo.subdir < 2147483648) :
      cfg.Takes (s.newSpace cfg path) :=
    ⟨cfg.indexes path present, present, ⟨by rw [newSpace, trunkIdInfoGenerate]; dsimp only; omega,
      trunks⟩, ⟨least, most.trans (by norm_num)⟩, cfg.sizeTaken⟩
  cases free : s.freeSubdir path with
  | some subdir =>
      obtain ⟨listed, found, first⟩ := Option.bind_eq_some_iff.mp free
      obtain ⟨_, stored, counts⟩ := sound.hold.subdirs path present
      obtain rfl := Option.some.inj (found.symm.trans stored)
      obtain ⟨known, room⟩ := counts.room_of_head first
      obtain ⟨least, most⟩ := sound.cameUp_range ((sound.came path subdir).mpr (.inl known))
      have picked : (s.newSpace cfg path).idInfo.subdir = subdir := by
        rw [newSpace, trunkIdInfoGenerate, free]
        rfl
      have small := lt_of_le_of_lt most subdirId.2
      rw [subdirOf_of_small (picked ▸ least) (picked ▸ small), picked,
        ← sound.filesIn_idle idle]
      refine ⟨?_, rfl, le_rfl, subdirId.2, most, takes (picked ▸ least) (picked ▸ small), room⟩
      exact Int.lt_succ _
  | none =>
      have picked : (s.newSpace cfg path).idInfo.subdir = s.ids.currentSubdirId + 1 := by
        rw [newSpace, trunkIdInfoGenerate, free]
        rfl
      have least : 1 ≤ (s.newSpace cfg path).idInfo.subdir := by omega
      have most : (s.newSpace cfg path).idInfo.subdir < 2147483648 := by omega
      have zero : filesIn (liveTrunks s.log) path (s.ids.currentSubdirId + 1) = 0 := by
        apply filesIn_eq_zero
        intro other member here same
        obtain ⟨entry, logged, rfl⟩ := sound.mem_live_iff.mp member
        have known : CameUp s.log path (s.ids.currentSubdirId + 1) :=
          ⟨entry, logged, (sound.creates entry logged).1, here, same⟩
        have range := sound.cameUp_range known
        omega
      rw [subdirOf_of_small least most, picked, zero]
      refine ⟨Int.lt_succ _, rfl, ?_, ?_, le_rfl, takes least most, ?_⟩
      · exact Int.le.intro 1 rfl
      · exact subdirs
      · exact_mod_cast cfg.someFile

end Sound

/-! ### The first start -/

theorem Start.sound (start : s.Start cfg) : s.Sound cfg [] fun _ _ => False := by
  have log : s.log = [] := by rw [TrunkMakers.log, start.binlog]; rfl
  have idle : ∀ thread space, ¬s.Pending thread space := by
    rintro thread space (waiting | ⟨result, answered⟩)
    · rw [start.threads] at waiting
      cases waiting
    · rw [start.threads] at answered
      cases answered
  refine ⟨start.trunkId, start.subdirId, log ▸ .nil, ?_, ?_, ?_, ?_, ?_, .nil, ?_, ?_, ?_, ?_, ?_,
    ?_, ?_, ?_⟩
  · rw [log]
    exact List.forall_mem_nil _
  · rw [start.binlog]
    exact List.forall_mem_nil _
  · intro path idInfo linked
    exact absurd (start.disk path idInfo) linked
  · intro path subdir
    rw [log]
    exact le_of_lt cfg.someFile
  · rw [start.tables]
    exact .empty _
  · rw [log]
    exact List.forall_mem_nil _
  · intro space
    rw [log]
    refine iff_of_false List.not_mem_nil ?_
    rintro (held | ⟨thread, answered⟩)
    · cases held
    · exact idle thread space (.inr ⟨_, answered⟩)
  · intro path subdir
    rw [log]
    refine iff_of_false ?_ ?_
    · rintro ⟨entry, member, -⟩
      cases member
    · rintro (known | ⟨thread, space, answered, -⟩)
      · exact known
      · exact idle thread space (.inr ⟨_, answered⟩)
  · intro thread space pending
    exact absurd pending (idle thread space)
  · intro thread space pending
    exact absurd pending (idle thread space)
  · intro thread space pending
    exact absurd pending (idle thread space)
  · intro thread space waiting
    exact absurd (.inl waiting) (idle thread space)
  · intro thread space waiting
    exact absurd (.inl waiting) (idle thread space)

/-! ### A maker asks for a trunk -/

theorem enabled_pushed {pushed : Bool} (possible : s.Enabled cfg (.generate path pushed)) :
    s.Enabled cfg (.generate path true) := possible

/-- A maker that was idle has no answer now. -/
theorem generate_answered {pushed : Bool} (idle : s.threads (cfg.maker path) = .idle)
    (result : Errno) :
    (s.next cfg (.generate path pushed)).threads thread = .answered space result ↔
      s.threads thread = .answered space result := by
  change Function.update s.threads (cfg.maker path) _ thread = _ ↔ _
  by_cases same : thread = cfg.maker path
  · rw [same, Function.update_self, idle]
    cases pushed <;> simp
  · rw [Function.update_of_ne same]

theorem generate_waiting {pushed : Bool}
    (waiting : (s.next cfg (.generate path pushed)).threads thread = .waiting space) :
    s.threads thread = .waiting space ∨
      thread = cfg.maker path ∧ space = s.newSpace cfg path := by
  change Function.update s.threads (cfg.maker path) _ thread = _ at waiting
  by_cases same : thread = cfg.maker path
  · rw [same, Function.update_self] at waiting
    cases pushed with
    | true =>
        cases waiting
        exact .inr ⟨same, rfl⟩
    | false => cases waiting
  · rw [Function.update_of_ne same] at waiting
    exact .inl waiting

theorem generate_pending {pushed : Bool} (idle : s.threads (cfg.maker path) = .idle)
    (pending : (s.next cfg (.generate path pushed)).Pending thread space) :
    s.Pending thread space ∨ thread = cfg.maker path ∧ space = s.newSpace cfg path := by
  rcases pending with waiting | ⟨result, answered⟩
  · exact (generate_waiting waiting).imp_left .inl
  · exact .inl (.inr ⟨result, (generate_answered idle result).mp answered⟩)

theorem Sound.generate (sound : s.Sound cfg held cameUp) {pushed : Bool}
    (possible : s.Enabled cfg (.generate path pushed)) :
    (s.next cfg (.generate path pushed)).Sound cfg held cameUp := by
  obtain ⟨above, own, subdirs, small, below, takes, room⟩ :=
    sound.newSpace_spec (enabled_pushed possible)
  have idle := possible.2.1
  have counters : (s.next cfg (.generate path pushed)).ids =
    (trunkIdInfoGenerate (s.freeSubdir path) s.ids).1 := rfl
  have trunks : s.ids.currentTrunkId ≤
      (s.next cfg (.generate path pushed)).ids.currentTrunkId := by
    rw [counters, own]
    exact above.le
  have onDisk : ∀ other, s.OnDisk other → other.idInfo.id < (s.newSpace cfg path).idInfo.id :=
    fun other linked => lt_of_le_of_lt (sound.disk _ _ linked).1 above
  refine ⟨sound.trunkId.trans trunks, ⟨sound.subdirId.1.trans subdirs, small⟩, sound.loads,
    sound.creates, sound.times, ?_, sound.within, sound.hold, sound.distinct, sound.single, ?_, ?_,
    ?_, ?_, ?_, ?_, ?_⟩
  · intro other idInfo linked
    obtain ⟨id, subdir⟩ := sound.disk other idInfo linked
    exact ⟨id.trans trunks, subdir.trans subdirs⟩
  · intro other
    simp only [generate_answered idle]
    exact sound.live other
  · intro other subdir
    simp only [generate_answered idle]
    exact sound.came other subdir
  · intro thread space pending
    rcases generate_pending idle pending with old | ⟨rfl, rfl⟩
    · obtain ⟨maker, takes, id, subdir⟩ := sound.asked thread space old
      exact ⟨maker, takes, id.trans trunks, subdir.trans subdirs⟩
    · exact ⟨rfl, takes, own.ge, below⟩
  · intro thread space pending other member
    rcases generate_pending idle pending with old | ⟨rfl, rfl⟩
    · exact sound.apart thread space old other member
    · exact (onDisk other (sound.liveOnDisk (sound.held_live member))).ne
  · intro thread space pending other otherSpace otherPending same
    have apart {thread : Nat} {space : FSTrunkSpaceInfo} (old : s.Pending thread space) :
        space.idInfo.id < (s.newSpace cfg path).idInfo.id :=
      lt_of_le_of_lt (sound.asked thread space old).id above
    rcases generate_pending idle pending with old | ⟨rfl, rfl⟩
    · rcases generate_pending idle otherPending with otherOld | ⟨rfl, rfl⟩
      · exact sound.pendingApart thread space old other otherSpace otherOld same
      · exact absurd same (apart old).ne'
    · rcases generate_pending idle otherPending with otherOld | ⟨rfl, rfl⟩
      · exact absurd same (apart otherOld).ne
      · rfl
  · intro thread space waiting linked
    rcases generate_waiting waiting with old | ⟨rfl, rfl⟩
    · exact sound.fresh thread space old linked
    · exact lt_irrefl _ (onDisk _ linked)
  · intro thread space waiting
    rcases generate_waiting waiting with old | ⟨rfl, rfl⟩
    · exact sound.room thread space old
    · exact room

/-! ### The write thread creates a trunk file -/

/-- What the write thread does for a maker: the file may come up on the disk, and if it does
without an error, the log has it. -/
structure Creates (s s' : TrunkMakers) (thread : Nat) (space : FSTrunkSpaceInfo)
    (result : Errno) : Prop where
  ids : s'.ids = s.ids
  tables : s'.tables = s.tables
  threads : s'.threads = Function.update s.threads thread (.answered space result)
  kept : ∀ other, s.OnDisk other → s'.OnDisk other
  times : ∀ line ∈ s'.binlog, line ∈ s.binlog ∨ IsInt line.currentTime
  only : ∀ path idInfo, (s'.disk path).inode idInfo ≠ none →
    (s.disk path).inode idInfo ≠ none ∨ path = space.store ∧ idInfo = space.idInfo
  logged : result = .ok ∧ s'.log = s.log ++ [⟨true, space⟩] ∧ s'.OnDisk space ∨
    result ≠ .ok ∧ s'.log = s.log

theorem inode_link_iff (disk : TrunkDisk) (idInfo other : FSTrunkIdInfo) :
    (disk.link idInfo).inode other ≠ none ↔ disk.inode other ≠ none ∨ other = idInfo := by
  rw [TrunkDisk.link]
  split
  · next inode linked =>
      constructor
      · exact .inl
      · rintro (old | rfl)
        · exact old
        · rw [linked]
          exact Option.some_ne_none inode
  · dsimp only
    by_cases same : other = idInfo
    · rw [same, Function.update_self]
      simp
    · rw [Function.update_of_ne same]
      exact (or_iff_left same).symm

/-- The outcomes of `do_create_trunk`. -/
theorem doCreateTrunk_cases (ctx : TrunkWriteThreadContext) (outcome : TrunkOutcome)
    (space : FSTrunkSpaceInfo) :
    (ctx.doCreateTrunk outcome space).1 ≠ .ok ∧
        (ctx.doCreateTrunk outcome space).2.binlog = ctx.binlog ∧
        ((ctx.doCreateTrunk outcome space).2.disk = ctx.disk ∨
          (ctx.doCreateTrunk outcome space).2.disk = ctx.disk.link space.idInfo) ∨
      (ctx.doCreateTrunk outcome space).1 = .ok ∧
        (ctx.doCreateTrunk outcome space).2.binlog = ctx.binlog ++ [⟨true, space⟩] ∧
        (ctx.doCreateTrunk outcome space).2.disk = ctx.disk.link space.idInfo := by
  rw [TrunkWriteThreadContext.doCreateTrunk]
  dsimp only
  split
  · next result _ => exact .inl ⟨result.2, rfl, .inl rfl⟩
  · split
    · next result _ => exact .inl ⟨result.2, rfl, .inr rfl⟩
    · split
      · next result _ => exact .inl ⟨result.2, rfl, .inr rfl⟩
      · exact .inr ⟨rfl, rfl, rfl⟩

theorem created_spec (s : TrunkMakers) (thread : Nat) (space : FSTrunkSpaceInfo)
    (outcome : TrunkOutcome) {currentTime : Int} (time : IsInt currentTime) :
    ∃ result, Creates s (s.created thread space outcome currentTime) thread space result := by
  have other {path : Nat} (differs : path ≠ space.store) (disk : TrunkDisk) :
      Function.update s.disk space.store disk path = s.disk path := Function.update_of_ne differs _ _
  have linked {disk : TrunkDisk}
      (grown : disk = s.disk space.store ∨ disk = (s.disk space.store).link space.idInfo)
      (path : Nat) (idInfo : FSTrunkIdInfo) :
      ((s.disk path).inode idInfo ≠ none →
        (Function.update s.disk space.store disk path).inode idInfo ≠ none) ∧
      ((Function.update s.disk space.store disk path).inode idInfo ≠ none →
        (s.disk path).inode idInfo ≠ none ∨ path = space.store ∧ idInfo = space.idInfo) := by
    by_cases same : path = space.store
    · subst same
      rw [Function.update_self]
      rcases grown with rfl | rfl
      · exact ⟨id, .inl⟩
      · rw [inode_link_iff]
        exact ⟨.inl, fun linked => linked.imp_right fun same => ⟨rfl, same⟩⟩
    · rw [other same]
      exact ⟨id, .inl⟩
  refine ⟨((s.writeThread space.store).doCreateTrunk outcome space).1, rfl, rfl, rfl, ?_, ?_, ?_,
    ?_⟩
  · intro onDisk
    rcases doCreateTrunk_cases (s.writeThread space.store) outcome space with
      ⟨-, -, disk⟩ | ⟨-, -, disk⟩
    · exact (linked disk _ _).1
    · exact (linked (.inr disk) _ _).1
  · intro line member
    refine (List.mem_append.mp member).imp_right fun new => ?_
    obtain ⟨entry, -, rfl⟩ := List.mem_map.mp new
    exact time
  · intro path idInfo
    rcases doCreateTrunk_cases (s.writeThread space.store) outcome space with
      ⟨-, -, disk⟩ | ⟨-, -, disk⟩
    · exact (linked disk path idInfo).2
    · exact (linked (.inr disk) path idInfo).2
  · rcases doCreateTrunk_cases (s.writeThread space.store) outcome space with
      ⟨failed, binlog, -⟩ | ⟨done, binlog, disk⟩
    · refine .inr ⟨failed, ?_⟩
      rw [log, created, binlog]
      exact congrArg _ (List.append_nil _)
    · refine .inl ⟨done, ?_, ?_⟩
      · rw [log, created, binlog, List.map_append]
        rfl
      · rw [OnDisk, created, disk]
        dsimp only
        rw [Function.update_self, inode_link_iff]
        exact .inr rfl

namespace Creates

variable {result : Errno}

theorem answered_iff (creates : Creates s s' thread space result)
    (waiting : s.threads thread = .waiting space) (other : Nat) (otherSpace : FSTrunkSpaceInfo)
    (otherResult : Errno) :
    s'.threads other = .answered otherSpace otherResult ↔
      s.threads other = .answered otherSpace otherResult ∨
        other = thread ∧ otherSpace = space ∧ otherResult = result := by
  rw [creates.threads]
  by_cases same : other = thread
  · rw [same, Function.update_self, waiting]
    simp [eq_comm]
  · simp [same]

theorem waiting_iff (creates : Creates s s' thread space result) (other : Nat)
    (otherSpace : FSTrunkSpaceInfo) :
    s'.threads other = .waiting otherSpace ↔
      s.threads other = .waiting otherSpace ∧ other ≠ thread := by
  rw [creates.threads]
  by_cases same : other = thread
  · simp [same]
  · simp [same]

theorem pending (creates : Creates s s' thread space result)
    (waiting : s.threads thread = .waiting space) {other : Nat} {otherSpace : FSTrunkSpaceInfo}
    (pending : s'.Pending other otherSpace) : s.Pending other otherSpace := by
  rcases pending with still | ⟨otherResult, answered⟩
  · exact .inl ((creates.waiting_iff other otherSpace).mp still).1
  · rcases (creates.answered_iff waiting _ _ _).mp answered with old | ⟨rfl, rfl, -⟩
    · exact .inr ⟨otherResult, old⟩
    · exact .inl waiting

/-- The answer of another maker is about another trunk. -/
theorem id_ne (sound : s.Sound cfg held cameUp) (waiting : s.threads thread = .waiting space)
    {other : Nat} {otherSpace : FSTrunkSpaceInfo} (pending : s.Pending other otherSpace)
    (differs : other ≠ thread) : otherSpace.idInfo.id ≠ space.idInfo.id := by
  intro same
  exact differs (sound.pendingApart thread space (.inl waiting) other otherSpace pending same)

/-- No trunk of the log has the id of the trunk that is created. -/
theorem id_fresh (sound : s.Sound cfg held cameUp) (waiting : s.threads thread = .waiting space)
    {other : FSTrunkSpaceInfo} (member : other ∈ liveTrunks s.log) :
    other.idInfo.id ≠ space.idInfo.id := by
  rcases (sound.live other).mp member with inHeld | ⟨owner, answered⟩
  · exact sound.apart thread space (.inl waiting) other inHeld
  · apply id_ne sound waiting (.inr ⟨_, answered⟩)
    rintro rfl
    rw [waiting] at answered
    cases answered

/-- Another maker creates trunks of other store paths. -/
theorem store_ne (sound : s.Sound cfg held cameUp) (waiting : s.threads thread = .waiting space)
    {other : Nat} {otherSpace : FSTrunkSpaceInfo} (pending : s.Pending other otherSpace)
    (differs : other ≠ thread) : space.store ≠ otherSpace.store := by
  intro same
  have owner := (sound.asked other otherSpace pending).own
  rw [← same, (sound.asked thread space (.inl waiting)).own] at owner
  exact differs owner.symm

end Creates

theorem Sound.created (sound : s.Sound cfg held cameUp)
    (waiting : s.threads thread = .waiting space) {result : Errno}
    (creates : Creates s s' thread space result) : s'.Sound cfg held cameUp := by
  obtain ⟨-, takes, id, subdir⟩ := sound.asked thread space (.inl waiting)
  have disk : ∀ path idInfo, (s'.disk path).inode idInfo ≠ none →
      idInfo.id ≤ s'.ids.currentTrunkId ∧ idInfo.subdir ≤ s'.ids.currentSubdirId := by
    intro path idInfo linked
    rw [creates.ids]
    rcases creates.only path idInfo linked with old | ⟨rfl, rfl⟩
    · exact sound.disk path idInfo old
    · exact ⟨id, subdir⟩
  have times : ∀ line ∈ s'.binlog, IsInt line.currentTime := by
    intro line member
    rcases creates.times line member with old | new
    · exact sound.times line old
    · exact new
  have hold : s'.tables.Hold cfg.toTrunkConfig held cameUp := creates.tables ▸ sound.hold
  have asked : ∀ other otherSpace, s'.Pending other otherSpace → s'.Asked cfg other otherSpace := by
    intro other otherSpace pending
    obtain ⟨own, takes, id, subdir⟩ := sound.asked _ _ (creates.pending waiting pending)
    exact ⟨own, takes, creates.ids ▸ id, creates.ids ▸ subdir⟩
  have apart : ∀ other otherSpace, s'.Pending other otherSpace → ∀ inHeld ∈ held,
      inHeld.idInfo.id ≠ otherSpace.idInfo.id := fun other otherSpace pending =>
    sound.apart other otherSpace (creates.pending waiting pending)
  have pendingApart : ∀ first firstSpace, s'.Pending first firstSpace → ∀ second secondSpace,
      s'.Pending second secondSpace → secondSpace.idInfo.id = firstSpace.idInfo.id →
        second = first := fun first firstSpace pending second secondSpace later =>
    sound.pendingApart first firstSpace (creates.pending waiting pending) second secondSpace
      (creates.pending waiting later)
  have fresh : ∀ other otherSpace, s'.threads other = .waiting otherSpace →
      ¬s'.OnDisk otherSpace := by
    intro other otherSpace still linked
    obtain ⟨old, differs⟩ := (creates.waiting_iff other otherSpace).mp still
    rcases creates.only _ _ linked with before | ⟨-, same⟩
    · exact sound.fresh other otherSpace old before
    · exact Creates.id_ne sound waiting (.inl old) differs (congrArg FSTrunkIdInfo.id same)
  rcases creates.logged with ⟨rfl, log, onDisk⟩ | ⟨failed, log⟩
  · have counted (path : Nat) (number : Int) :
        (filesIn (liveTrunks s'.log) path number : Int) =
          filesIn (liveTrunks s.log) path number +
            if space.store = path ∧ number = subdirOf space then 1 else 0 := by
      rw [log, liveTrunks_create, filesIn_cons]
      by_cases here : space.store = path
      · by_cases same : number = subdirOf space
        · simp [here, same]
        · simp [here, same]
      · simp [here]
    refine ⟨creates.ids ▸ sound.trunkId, creates.ids ▸ sound.subdirId, ?_, ?_, times, disk, ?_, hold,
      sound.distinct, ?_, ?_, ?_, asked, apart, pendingApart, fresh, ?_⟩
    · rw [log]
      refine .create sound.loads takes fun other member same => ?_
      exact Creates.id_fresh sound waiting member (congrArg TrunkKey.id same)
    · rw [log]
      intro entry member
      rcases List.mem_append.mp member with old | new
      · obtain ⟨create, linked⟩ := sound.creates entry old
        exact ⟨create, creates.kept _ linked⟩
      · rw [List.mem_singleton.mp new]
        exact ⟨rfl, onDisk⟩
    · intro path number
      rw [counted]
      have before := sound.within path number
      split_ifs with here
      · obtain ⟨rfl, rfl⟩ := here
        exact sound.room thread space waiting
      · rw [add_zero]
        exact before
    · rw [log, liveTrunks_create]
      intro first firstMember second secondMember same
      rcases List.mem_cons.mp firstMember with rfl | firstLive
      · rcases List.mem_cons.mp secondMember with rfl | secondLive
        · rfl
        · exact absurd same.symm (Creates.id_fresh sound waiting secondLive)
      · rcases List.mem_cons.mp secondMember with rfl | secondLive
        · exact absurd same (Creates.id_fresh sound waiting firstLive)
        · exact sound.single first firstLive second secondLive same
    · intro other
      rw [log, liveTrunks_create, List.mem_cons, sound.live]
      simp only [creates.answered_iff waiting, and_true]
      constructor
      · rintro (rfl | inHeld | ⟨owner, answered⟩)
        · exact .inr ⟨thread, .inr ⟨rfl, rfl⟩⟩
        · exact .inl inHeld
        · exact .inr ⟨owner, .inl answered⟩
      · rintro (inHeld | ⟨owner, answered | ⟨-, rfl⟩⟩)
        · exact .inr (.inl inHeld)
        · exact .inr (.inr ⟨owner, answered⟩)
        · exact .inl rfl
    · intro path number
      rw [log, cameUp_create, sound.came]
      simp only [creates.answered_iff waiting, and_true]
      constructor
      · rintro ((known | ⟨owner, other, answered, here⟩) | here)
        · exact .inl known
        · exact .inr ⟨owner, other, .inl answered, here⟩
        · exact .inr ⟨thread, space, .inr ⟨rfl, rfl⟩, here⟩
      · rintro (known | ⟨owner, other, answered | ⟨-, rfl⟩, here⟩)
        · exact .inl (.inl known)
        · exact .inl (.inr ⟨owner, other, answered, here⟩)
        · exact .inr here
    · intro other otherSpace still
      obtain ⟨old, differs⟩ := (creates.waiting_iff other otherSpace).mp still
      have apart := Creates.store_ne sound waiting (.inl old) differs
      rw [counted, if_neg fun here => apart here.1, add_zero]
      exact sound.room other otherSpace old
  · have same (other : Nat) (otherSpace : FSTrunkSpaceInfo) :
        s'.threads other = .answered otherSpace .ok ↔
          s.threads other = .answered otherSpace .ok := by
      rw [creates.answered_iff waiting]
      exact or_iff_left fun new => failed new.2.2.symm
    refine ⟨creates.ids ▸ sound.trunkId, creates.ids ▸ sound.subdirId, log ▸ sound.loads, ?_, times,
      disk, log ▸ sound.within, hold, sound.distinct, log ▸ sound.single, ?_, ?_, asked, apart,
      pendingApart, fresh, ?_⟩
    · rw [log]
      intro entry member
      obtain ⟨create, linked⟩ := sound.creates entry member
      exact ⟨create, creates.kept _ linked⟩
    · simp only [same, log]
      exact sound.live
    · simp only [same, log]
      exact sound.came
    · rw [log]
      intro other otherSpace still
      exact sound.room other otherSpace ((creates.waiting_iff other otherSpace).mp still).1

/-! ### A maker takes its answer -/

section Finish

variable {result : Errno}

theorem finished_answered (other : Nat) (otherSpace : FSTrunkSpaceInfo)
    (otherResult : Errno) :
    (s.finished cfg thread space result).threads other = .answered otherSpace otherResult ↔
      s.threads other = .answered otherSpace otherResult ∧ other ≠ thread := by
  change Function.update s.threads thread .idle other = _ ↔ _
  by_cases same : other = thread
  · simp [same]
  · simp [same]

theorem finished_waiting (answered : s.threads thread = .answered space result) (other : Nat)
    (otherSpace : FSTrunkSpaceInfo) :
    (s.finished cfg thread space result).threads other = .waiting otherSpace ↔
      s.threads other = .waiting otherSpace := by
  change Function.update s.threads thread .idle other = _ ↔ _
  by_cases same : other = thread
  · simp [same, answered]
  · simp [same]

theorem finished_pending (answered : s.threads thread = .answered space result) {other : Nat}
    {otherSpace : FSTrunkSpaceInfo}
    (pending : (s.finished cfg thread space result).Pending other otherSpace) :
    s.Pending other otherSpace ∧ other ≠ thread := by
  rcases pending with waiting | ⟨otherResult, later⟩
  · have old := (finished_waiting answered other otherSpace).mp waiting
    refine ⟨.inl old, ?_⟩
    rintro rfl
    rw [answered] at old
    cases old
  · obtain ⟨old, differs⟩ := (finished_answered other otherSpace otherResult).mp later
    exact ⟨.inr ⟨otherResult, old⟩, differs⟩

/-- What a maker does with its answer keeps the invariant, if the tables hold what they should. -/
theorem Sound.finished_of_hold (sound : s.Sound cfg held cameUp)
    (answered : s.threads thread = .answered space result) {now : List FSTrunkSpaceInfo}
    {nowUp : Nat → Int → Prop}
    (hold : (s.finished cfg thread space result).tables.Hold cfg.toTrunkConfig now nowUp)
    (members : ∀ other, other ∈ now ↔ other ∈ held ∨ other = space ∧ result = .ok)
    (distinct : now.Pairwise fun left right => left.trunk ≠ right.trunk)
    (came : ∀ path subdir, nowUp path subdir ↔
      cameUp path subdir ∨ result = .ok ∧ space.store = path ∧ subdirOf space = subdir) :
    (s.finished cfg thread space result).Sound cfg now nowUp := by
  have split (other : Nat) (otherSpace : FSTrunkSpaceInfo) :
      s.threads other = .answered otherSpace .ok ↔
        (s.finished cfg thread space result).threads other = .answered otherSpace .ok ∨
          other = thread ∧ otherSpace = space ∧ result = .ok := by
    rw [finished_answered]
    by_cases same : other = thread
    · rw [same, answered]
      simp [eq_comm]
    · simp [same]
  refine ⟨sound.trunkId, sound.subdirId, sound.loads, sound.creates, sound.times, sound.disk,
    sound.within, hold, distinct, sound.single, ?_, ?_, ?_, ?_, ?_, ?_, ?_⟩
  · intro other
    refine (sound.live other).trans ?_
    simp only [members, split]
    constructor
    · rintro (inHeld | ⟨owner, later | ⟨-, rfl, ok⟩⟩)
      · exact .inl (.inl inHeld)
      · exact .inr ⟨owner, later⟩
      · exact .inl (.inr ⟨rfl, ok⟩)
    · rintro ((inHeld | ⟨rfl, ok⟩) | ⟨owner, later⟩)
      · exact .inl inHeld
      · exact .inr ⟨thread, .inr ⟨rfl, rfl, ok⟩⟩
      · exact .inr ⟨owner, .inl later⟩
  · intro path subdir
    refine (sound.came path subdir).trans ?_
    simp only [came, split]
    constructor
    · rintro (known | ⟨owner, other, later | ⟨-, rfl, ok⟩, here⟩)
      · exact .inl (.inl known)
      · exact .inr ⟨owner, other, later, here⟩
      · exact .inl (.inr ⟨ok, here⟩)
    · rintro ((known | ⟨ok, here⟩) | ⟨owner, other, later, here⟩)
      · exact .inl known
      · exact .inr ⟨thread, space, .inr ⟨rfl, rfl, ok⟩, here⟩
      · exact .inr ⟨owner, other, .inl later, here⟩
  · intro other otherSpace pending
    obtain ⟨own, takes, id, subdir⟩ := sound.asked _ _ (finished_pending answered pending).1
    exact ⟨own, takes, id, subdir⟩
  · intro other otherSpace pending inNow member
    obtain ⟨old, differs⟩ := finished_pending answered pending
    rcases (members inNow).mp member with inHeld | ⟨rfl, -⟩
    · exact sound.apart other otherSpace old inNow inHeld
    · intro same
      exact differs (sound.pendingApart thread inNow (.inr ⟨_, answered⟩) other otherSpace old
        same.symm)
  · intro first firstSpace pending second secondSpace later
    exact sound.pendingApart first firstSpace (finished_pending answered pending).1 second
      secondSpace (finished_pending answered later).1
  · intro other otherSpace waiting
    exact sound.fresh other otherSpace ((finished_waiting answered other otherSpace).mp waiting)
  · intro other otherSpace waiting
    exact sound.room other otherSpace ((finished_waiting answered other otherSpace).mp waiting)

theorem Sound.finished (sound : s.Sound cfg held cameUp)
    (answered : s.threads thread = .answered space result) :
    ∃ now nowUp, (s.finished cfg thread space result).Sound cfg now nowUp := by
  by_cases ok : result = .ok
  · subst ok
    have takes := (sound.asked thread space (.inr ⟨_, answered⟩)).takes
    have fresh : ∀ other ∈ held, other.trunk ≠ space.trunk := by
      intro other member same
      exact sound.apart thread space (.inr ⟨_, answered⟩) other member (congrArg TrunkKey.id same)
    obtain ⟨later, added, hold⟩ := @TrunkTables.Hold.add _ _ _ _ cfg.skiplists space sound.hold
      takes.present fresh
    have tables : (s.finished cfg thread space .ok).tables = later := by
      rw [TrunkMakers.finished, if_pos rfl, added]
    refine ⟨_, _, sound.finished_of_hold answered (tables ▸ hold) ?_ ?_ ?_⟩
    · intro other
      rw [List.mem_cons, or_comm]
      simp
    · refine List.pairwise_cons.mpr ⟨?_, sound.distinct⟩
      intro other member same
      exact fresh other member same.symm
    · intro path subdir
      simp
  · have tables : (s.finished cfg thread space result).tables = s.tables := by
      rw [TrunkMakers.finished, if_neg ok]
    refine ⟨held, cameUp, sound.finished_of_hold answered (tables ▸ sound.hold) ?_ sound.distinct
      ?_⟩
    · intro other
      simp [ok]
    · intro path subdir
      simp [ok]

end Finish

/-! ### The server starts again -/

/-- The lines that have reached the disk bring tables back that hold them. -/
theorem Sound.restart_loads (sound : s.Sound cfg held cameUp)
    {buffers : List (List TrunkLogLine × List Char)}
    (kept : buffers.flatMap Prod.fst <+: s.binlog) :
    ∃ tables, trunkBinlogInit cfg.skiplists cfg.toTrunkConfig
        (TrunkTables.empty cfg.toTrunkConfig)
        (buffers.map fun buffer => (buffer.1.flatMap TrunkLogLine.text, buffer.2)) = some tables ∧
      tables.Hold cfg.toTrunkConfig
        (liveTrunks ((buffers.flatMap Prod.fst).map TrunkLogLine.entry))
        (CameUp ((buffers.flatMap Prod.fst).map TrunkLogLine.entry)) :=
  trunkBinlogInit_text (sound.loads.of_prefix (kept.map TrunkLogLine.entry))

theorem Sound.restart (sound : s.Sound cfg held cameUp) {file : Option TrunkIdFile}
    {buffers : List (List TrunkLogLine × List Char)}
    (possible : s.Enabled cfg (.restart file buffers)) :
    ∃ now nowUp, (s.next cfg (.restart file buffers)).Sound cfg now nowUp := by
  obtain ⟨kept, trunkId, subdirId, small, disk⟩ := possible
  obtain ⟨tables, loaded, hold⟩ := sound.restart_loads kept
  have cut := kept.map TrunkLogLine.entry
  have loads := sound.loads.of_prefix cut
  have creates : ∀ entry ∈ (buffers.flatMap Prod.fst).map TrunkLogLine.entry,
      entry.create = true ∧ s.OnDisk entry.space := by
    intro entry member
    exact sound.creates entry (cut.subset member)
  have inside : ∀ space ∈ liveTrunks ((buffers.flatMap Prod.fst).map TrunkLogLine.entry),
      space ∈ liveTrunks s.log := by
    intro space member
    rw [liveTrunks_of_creates fun entry member => (creates entry member).1, List.mem_reverse,
      List.mem_map] at member
    obtain ⟨entry, logged, rfl⟩ := member
    exact sound.mem_live_iff.mpr ⟨entry, cut.subset logged, rfl⟩
  refine ⟨liveTrunks ((buffers.flatMap Prod.fst).map TrunkLogLine.entry),
    CameUp ((buffers.flatMap Prod.fst).map TrunkLogLine.entry), ?_⟩
  · rw [TrunkMakers.next, loaded]
    have idle {thread : Nat} {space : FSTrunkSpaceInfo} {state : TrunkMakers}
        (threads : state.threads = fun _ => .idle) : ¬state.Pending thread space := by
      rintro (waiting | ⟨result, answered⟩)
      · rw [threads] at waiting
        cases waiting
      · rw [threads] at answered
        cases answered
    refine ⟨trunkId, ⟨subdirId, small⟩, loads, creates, ?_, disk, ?_, hold, loads.live.1, ?_, ?_,
      ?_, ?_, ?_, ?_, ?_, ?_⟩
    · intro line member
      exact sound.times line (kept.subset member)
    · intro path subdir
      refine le_trans ?_ (sound.within path subdir)
      exact_mod_cast filesIn_le (loads.live.1.imp fun apart => ne_of_apply_ne _ apart) inside path
        subdir
    · intro first firstLive second secondLive same
      exact sound.single first (inside first firstLive) second (inside second secondLive) same
    · intro other
      refine (or_iff_left ?_).symm
      rintro ⟨thread, answered⟩
      exact idle rfl (.inr ⟨_, answered⟩)
    · intro path subdir
      refine (or_iff_left ?_).symm
      rintro ⟨thread, space, answered, -⟩
      exact idle rfl (.inr ⟨_, answered⟩)
    · intro thread space pending
      exact absurd pending (idle rfl)
    · intro thread space pending
      exact absurd pending (idle rfl)
    · intro thread space pending
      exact absurd pending (idle rfl)
    · intro thread space waiting
      exact absurd (.inl waiting) (idle rfl)
    · intro thread space waiting
      exact absurd (.inl waiting) (idle rfl)

/-! ### Runs -/

theorem Sound.next (sound : s.Sound cfg held cameUp) {action : TrunkMakerAction}
    (possible : s.Enabled cfg action) : ∃ now nowUp, (s.next cfg action).Sound cfg now nowUp := by
  cases action with
  | generate path pushed => exact ⟨held, cameUp, sound.generate possible⟩
  | create thread outcome currentTime =>
      obtain ⟨⟨space, waiting⟩, time⟩ := possible
      obtain ⟨result, creates⟩ := created_spec s thread space outcome time
      have after : s.next cfg (.create thread outcome currentTime) =
          s.created thread space outcome currentTime := by
        rw [TrunkMakers.next, waiting]
      rw [after]
      exact ⟨held, cameUp, sound.created waiting creates⟩
  | finish thread =>
      obtain ⟨space, result, answered⟩ := possible
      have after : s.next cfg (.finish thread) = s.finished cfg thread space result := by
        rw [TrunkMakers.next, answered]
      rw [after]
      exact sound.finished answered
  | restart file buffers => exact sound.restart possible

theorem sound_of_reachable (reached : Reachable (Step cfg) (Start cfg) s) :
    ∃ held cameUp, s.Sound cfg held cameUp := by
  induction reached with
  | start first => exact ⟨_, _, first.sound⟩
  | next action _ taken ih =>
      obtain ⟨held, cameUp, sound⟩ := ih
      obtain ⟨possible, rfl⟩ := taken
      exact sound.next possible

/-- The trunks of the tables that are in a subdir of a store path. -/
def filed (s : TrunkMakers) (path : Nat) (subdir : Int) : Set TrunkKey :=
  {key | key.store = path ∧ ∃ trunk, s.tables.trunks key = some trunk ∧
    toInt trunk.idInfo.subdir = subdir}

theorem Sound.ncard_filed (sound : s.Sound cfg held cameUp) (path : Nat) (subdir : Int) :
    (s.filed path subdir).ncard = filesIn held path subdir := by
  let here := held.filter fun space => decide (space.store = path ∧ subdirOf space = subdir)
  have nodup : (here.map FSTrunkSpaceInfo.trunk).Nodup := by
    rw [List.Nodup, List.pairwise_map]
    exact sound.distinct.filter _
  have members : s.filed path subdir = {key | key ∈ here.map FSTrunkSpaceInfo.trunk} := by
    ext key
    simp only [filed, Set.mem_ofPred_eq, List.mem_map, here, List.mem_filter, decide_eq_true_eq]
    constructor
    · rintro ⟨store, trunk, found, same⟩
      obtain ⟨space, member, rfl, rfl⟩ := (sound.hold.trunks key trunk).mp found
      exact ⟨space, ⟨member, store, same⟩, rfl⟩
    · rintro ⟨space, ⟨member, store, same⟩, rfl⟩
      exact ⟨store, _, (sound.hold.trunks _ _).mpr ⟨space, member, rfl, rfl⟩, same⟩
  rw [members, filesIn, List.countP_eq_length_filter, ← List.length_map FSTrunkSpaceInfo.trunk,
    ← List.toFinset_card_of_nodup nodup, ← Set.ncard_coe_finset]
  congr 1
  ext key
  simp [here]

/-- In every run with any number of makers, write threads and restarts: a trunk file that is asked
for is not on the disk yet; the count of a subdir is the number of trunks in it, is not above
`max_trunk_files_per_subdir`, and is below it exactly for the subdirs of the freelist; every trunk
has its file; and a trunk id is used once over all store paths. -/
theorem trunk_makers_safe (reached : Reachable (Step cfg) (Start cfg) s) :
    (∀ thread space, s.threads thread = .waiting space →
      (s.disk space.store).inode space.idInfo = none) ∧
    (∀ path subdirs, cfg.present path = true → s.tables.subdirs path = some subdirs →
      ∀ entry ∈ subdirs.all, entry.fileCount = (s.filed path entry.subdir).ncard ∧
        entry.fileCount ≤ cfg.maxTrunkFilesPerSubdir ∧
        (entry.subdir ∈ subdirs.freelist ↔ entry.fileCount < cfg.maxTrunkFilesPerSubdir)) ∧
    (∀ key trunk, s.tables.trunks key = some trunk →
      key.id = trunk.idInfo.id ∧ ((s.disk key.store).inode trunk.idInfo).isSome) ∧
    ∀ key other, (s.tables.trunks key).isSome → (s.tables.trunks other).isSome →
      key.id = other.id → key = other := by
  obtain ⟨held, cameUp, sound⟩ := sound_of_reachable reached
  refine ⟨?_, ?_, ?_, ?_⟩
  · intro thread space waiting
    exact not_not.mp (sound.fresh thread space waiting)
  · intro path subdirs present found entry member
    obtain ⟨_, stored, counts⟩ := sound.hold.subdirs path present
    obtain rfl := Option.some.inj (found.symm.trans stored)
    obtain ⟨known, count⟩ := (counts.listed entry).mp member
    rw [sound.ncard_filed, count, counts.free, and_iff_right known]
    refine ⟨rfl, le_trans ?_ (sound.within path entry.subdir), Iff.rfl⟩
    exact_mod_cast filesIn_le sound.heldNodup (fun _ => sound.held_live) path entry.subdir
  · intro key trunk found
    obtain ⟨space, member, rfl, rfl⟩ := (sound.hold.trunks key trunk).mp found
    exact ⟨rfl, Option.isSome_iff_ne_none.mpr (sound.liveOnDisk (sound.held_live member))⟩
  · intro key other found otherFound same
    obtain ⟨space, member, rfl⟩ := (sound.hold.isSome_iff key).mp found
    obtain ⟨otherSpace, otherMember, rfl⟩ := (sound.hold.isSome_iff other).mp otherFound
    rw [sound.single space (sound.held_live member) otherSpace (sound.held_live otherMember) same]

/-! A server with two store paths and one file for each subdir.  Its makers have created a trunk
each, the second has not taken its answer when the server stops, and the first line of the log is
all that has reached the disk. -/

section Example

theorem fsTrunkFileMinSize_taken :
    fsTrunkFileMinSize ≤ fsTrunkFileMinSize ∧ fsTrunkFileMinSize ≤ fsTrunkFileMaxSize := by
  decide

theorem index_of_two (path : Nat) (present : decide (path < 2) = true) :
    (path : Int) ≤ 1 ∧ IsInt path := by
  have small : path < 2 := of_decide_eq_true present
  rw [IsInt]
  omega

def twoPaths : TrunkMakerConfig where
  maxStorePathIndex := 1
  maxTrunkFilesPerSubdir := 1
  present path := path < 2
  skiplists := ⟨.level0 _, .level0 _⟩
  threadCount := 2
  trunkFileSize := fsTrunkFileMinSize
  someThread := Nat.two_pos
  someFile := Int.one_pos
  sizeTaken := fsTrunkFileMinSize_taken
  indexes := index_of_two

/-- Every system call succeeds. -/
def allSucceed : TrunkOutcome := ⟨none, none, none, none, none, none⟩

def noTrunks : TrunkMakers :=
  ⟨⟨0, 0, 0, 0⟩, TrunkTables.empty twoPaths.toTrunkConfig, fun _ => .idle,
    fun _ => ⟨fun _ => none, fun _ _ => 0, 0⟩, []⟩

theorem start_noTrunks : noTrunks.Start twoPaths :=
  ⟨rfl, fun _ => rfl, fun _ _ => rfl, rfl, le_rfl, by decide⟩

/-- Both makers have created a trunk, the first has taken its answer. -/
def twoCreated : TrunkMakers :=
  [TrunkMakerAction.generate 0 true, .create 0 allSucceed 1700000000, .finish 0, .generate 1 true,
    .create 1 allSucceed 1700000001].foldl (next twoPaths) noTrunks

theorem reached_twoCreated : Reachable (Step twoPaths) (Start twoPaths) twoCreated := by
  have time : IsInt 1700000000 ∧ IsInt 1700000001 := by
    rw [IsInt, IsInt]
    decide
  have start : Reachable (Step twoPaths) (Start twoPaths) noTrunks := .start start_noTrunks
  have asked := start.act (.generate 0 true) ⟨rfl, rfl, by decide, by decide⟩
  have created := asked.act (.create 0 allSucceed 1700000000) ⟨⟨_, rfl⟩, time.1⟩
  have finished := created.act (.finish 0) ⟨_, _, rfl⟩
  have other := finished.act (.generate 1 true) ⟨rfl, rfl, by decide, by decide⟩
  exact other.act (.create 1 allSucceed 1700000001) ⟨⟨_, rfl⟩, time.2⟩

/-- The first line of the log, with more text in the memory behind the buffer. -/
def firstLine : List (List TrunkLogLine × List Char) :=
  [([⟨1700000000, ⟨true, ⟨0, ⟨1, 1⟩, 0, fsTrunkFileMinSize⟩⟩⟩], ['7'])]

def restartedTwo : TrunkMakers :=
  twoCreated.next twoPaths (.restart (some ⟨2, 2, true⟩) firstLine)

theorem reached_restartedTwo : Reachable (Step twoPaths) (Start twoPaths) restartedTwo := by
  obtain ⟨_, _, sound⟩ := sound_of_reachable reached_twoCreated
  apply reached_twoCreated.act
  refine ⟨⟨_, rfl⟩, by decide, by decide, by decide, ?_⟩
  intro path idInfo linked
  exact sound.disk path idInfo linked

end Example

theorem trunk_makers_safe_two :
    (restartedTwo.tables.trunks ⟨0, 1⟩).isSome ∧ (restartedTwo.tables.trunks ⟨1, 2⟩).isNone ∧
    (∀ key trunk, restartedTwo.tables.trunks key = some trunk →
      key.id = trunk.idInfo.id ∧ ((restartedTwo.disk key.store).inode trunk.idInfo).isSome) :=
  ⟨by decide +kernel, by decide +kernel, (trunk_makers_safe reached_restartedTwo).2.2.1⟩

/-- The text of the trunk binlog, in buffers that end between any two lines, loads at any time of
any run, and no line is too long for its record.  The load brings back the tables as they are, with
the trunks that makers have yet to take. -/
theorem trunk_binlog_restores_tables (reached : Reachable (Step cfg) (Start cfg) s)
    {buffers : List (List TrunkLogLine × List Char)}
    (whole : buffers.flatMap Prod.fst = s.binlog) :
    (∀ line ∈ s.binlog, line.text.length < TrunkLogLine.maxRecordSize) ∧
    ∃ tables, trunkBinlogInit cfg.skiplists cfg.toTrunkConfig
        (TrunkTables.empty cfg.toTrunkConfig)
        (buffers.map fun buffer => (buffer.1.flatMap TrunkLogLine.text, buffer.2)) = some tables ∧
      (∀ key, (∀ thread space, s.threads thread = .answered space .ok → space.trunk ≠ key) →
        tables.trunks key = s.tables.trunks key) ∧
      (∀ thread space, s.threads thread = .answered space .ok →
        tables.trunks space.trunk = some (Binlog.trunkAllocatorAdd space.idInfo space.size)) ∧
      ∀ path, cfg.present path = true →
        (∀ thread space, s.threads thread = .answered space .ok → space.store ≠ path) →
          tables.subdirs path = s.tables.subdirs path := by
  obtain ⟨held, cameUp, sound⟩ := sound_of_reachable reached
  obtain ⟨tables, loaded, hold⟩ :=
    sound.restart_loads (whole ▸ List.prefix_refl _ : buffers.flatMap Prod.fst <+: s.binlog)
  rw [whole] at hold
  refine ⟨?_, tables, loaded, ?_, ?_, ?_⟩
  · intro line member
    have takes := sound.loads.takes line.entry (List.mem_map_of_mem member)
    exact TrunkLogLine.length_text takes (sound.times line member)
  · intro key others
    apply Option.ext
    intro trunk
    rw [hold.trunks, sound.hold.trunks]
    constructor
    · rintro ⟨space, member, rfl, equal⟩
      rcases (sound.live space).mp member with inHeld | ⟨thread, answered⟩
      · exact ⟨space, inHeld, rfl, equal⟩
      · exact absurd rfl (others thread space answered)
    · rintro ⟨space, member, same, equal⟩
      exact ⟨space, sound.held_live member, same, equal⟩
  · intro thread space answered
    exact (hold.trunks _ _).mpr ⟨space, (sound.live space).mpr (.inr ⟨thread, answered⟩), rfl, rfl⟩
  · intro path present others
    obtain ⟨loadedSubdirs, loadedStored, loadedCounts⟩ := hold.subdirs path present
    obtain ⟨subdirs, stored, counts⟩ := sound.hold.subdirs path present
    rw [loadedStored, stored]
    refine congrArg some (Eq.symm (counts.unique (loadedCounts.congr ?_ ?_)))
    · intro subdir
      apply filesIn_congr sound.heldNodup sound.liveNodup
      intro space here
      rw [sound.live]
      refine (or_iff_left ?_).symm
      rintro ⟨thread, answered⟩
      exact others thread space answered here
    · intro subdir
      refine (((sound.came path subdir).trans (or_iff_left ?_))).symm
      rintro ⟨thread, space, answered, here, -⟩
      exact others thread space answered here

theorem trunk_binlog_restores_tables_two :
    twoCreated.threads 1 = .answered ⟨1, ⟨2, 2⟩, 0, fsTrunkFileMinSize⟩ .ok ∧
    ∃ tables, trunkBinlogInit twoPaths.skiplists twoPaths.toTrunkConfig
        (TrunkTables.empty twoPaths.toTrunkConfig)
        [(twoCreated.binlog.flatMap TrunkLogLine.text, ['7'])] = some tables ∧
      tables.trunks ⟨0, 1⟩ = twoCreated.tables.trunks ⟨0, 1⟩ ∧
      (tables.trunks ⟨1, 2⟩).isSome ∧ (twoCreated.tables.trunks ⟨1, 2⟩).isNone ∧
      tables.subdirs 0 = twoCreated.tables.subdirs 0 := by
  have whole : [(twoCreated.binlog, ['7'])].flatMap Prod.fst = twoCreated.binlog :=
    List.append_nil _
  obtain ⟨-, tables, loaded, others, answered, subdirs⟩ :=
    trunk_binlog_restores_tables reached_twoCreated whole
  have second {thread : Nat} {space : FSTrunkSpaceInfo}
      (waits : twoCreated.threads thread = .answered space .ok) : thread = 1 := by
    have shape : twoCreated.threads = Function.update (Function.update (Function.update
      (Function.update (Function.update (fun _ => .idle) 0 _) 0 _) 0 .idle) 1 _) 1 _ := rfl
    by_contra differs
    rw [shape, Function.update_of_ne differs, Function.update_of_ne differs] at waits
    by_cases zero : thread = 0
    · rw [zero, Function.update_self] at waits
      cases waits
    · rw [Function.update_of_ne zero, Function.update_of_ne zero, Function.update_of_ne zero] at waits
      cases waits
  have own {thread : Nat} {space : FSTrunkSpaceInfo}
      (waits : twoCreated.threads thread = .answered space .ok) :
      space = ⟨1, ⟨2, 2⟩, 0, fsTrunkFileMinSize⟩ := by
    obtain rfl := second waits
    cases waits
    rfl
  refine ⟨rfl, tables, loaded, others _ ?_, ?_, by decide, subdirs 0 rfl ?_⟩
  · intro thread space waits same
    rw [own waits] at same
    cases same
  · exact Option.isSome_iff_exists.mpr ⟨_, answered 1 ⟨1, ⟨2, 2⟩, 0, fsTrunkFileMinSize⟩ rfl⟩
  · intro thread space waits same
    rw [own waits] at same
    cases same

end TrunkMakers

end FastStore.Storage
