import FastStore.Binlog.ParallelLoad

/-!
# Data threads and runs of a load

The steps of the data threads keep what holds of a load.  A run that ends without an error has
dealt with every record once, in file order for each data thread and each block, has the index of
a sequential load and has all records back in their allocators; a load that succeeds sequentially
fails in no run.
-/

namespace FastStore.Binlog

open FastStore.Util FastStore.Storage

variable {ν : Type} {loader : SliceLoader ν} {all : List SliceBinlogRecord} {empty : IndexState}

/-! ## Records in file order -/

/-- The records of a block are all in the share of one data thread. -/
theorem recordsOf_shareOf (bkey : FSBlockKey) (records : List SliceBinlogRecord) :
    recordsOf bkey (shareOf loader (bkey.fsCalcBlockHashcode % loader.dataThreads) records) =
      recordsOf bkey records := by
  rw [recordsOf, recordsOf, shareOf, List.filter_filter]
  apply List.filter_congr
  intro record _
  by_cases block : record.bsKey.block = bkey
  · simp [block, LoadState.owner]
  · simp [block]

/-- The calls for a block are all those of one data thread. -/
theorem recordsOf_calls {calls : List (Nat × ν × SliceBinlogRecord)}
    (shares : ∀ k, (dealtBy calls k).map Prod.snd <+: shareOf loader k all) (bkey : FSBlockKey) :
    recordsOf bkey (calls.map fun call => call.2.2) = recordsOf bkey
      ((dealtBy calls (bkey.fsCalcBlockHashcode % loader.dataThreads)).map Prod.snd) := by
  have owned : ∀ call ∈ calls, LoadState.owner loader call.2.2 = call.1 := by
    intro call member
    have dealt : call.2.2 ∈ (dealtBy calls call.1).map Prod.snd :=
      List.mem_map_of_mem (List.mem_map_of_mem
        (List.mem_filter.mpr ⟨member, decide_eq_true rfl⟩))
    exact of_decide_eq_true (List.mem_filter.mp ((shares call.1).subset dealt)).2
  rw [recordsOf, recordsOf, dealtBy, List.map_map, List.filter_map, List.filter_map,
    List.filter_filter]
  congr 1
  apply List.filter_congr
  intro call member
  by_cases block : call.2.2.bsKey.block = bkey
  · have same := owned call member
    rw [LoadState.owner, block] at same
    simp [block, same]
  · simp [block]

/-- What every data thread dealt with in the order of its share was dealt with in file order for
every block. -/
theorem recordsOf_prefix {calls : List (Nat × ν × SliceBinlogRecord)}
    (shares : ∀ k, (dealtBy calls k).map Prod.snd <+: shareOf loader k all) (bkey : FSBlockKey) :
    recordsOf bkey (calls.map fun call => call.2.2) <+: recordsOf bkey all := by
  rw [recordsOf_calls shares, ← @recordsOf_shareOf _ loader bkey all]
  exact (shares _).filter _

/-- A chain that takes all records takes the first ones. -/
theorem isSome_foldlM_of_prefix {α β : Type} {step : β → α → Option β} {items more : List α}
    {start : β} (first : items <+: more) (taken : (more.foldlM step start).isSome) :
    (items.foldlM step start).isSome := by
  obtain ⟨rest, rfl⟩ := first
  rw [List.foldlM_append] at taken
  cases effect : items.foldlM step start with
  | none =>
      rw [effect] at taken
      cases taken
  | some value => rfl

section Load

variable {s : LoadState loader} {layout : LoadPlace → List ν} {dispatched : List SliceBinlogRecord}
  {capacity : Nat} {sa : FSStorageAllocatorManager}

namespace LoadInvariant

/-- What a data thread deals with next continues its share in file order. -/
theorem next_share_prefix (inv : LoadInvariant loader all empty s layout dispatched) {j : Nat}
    {nodes rest : List ν} (dealing : layout (.dealing j) = nodes ++ rest) :
    (dealtBy s.dealt j).map Prod.snd ++ nodes.map s.content <+: shareOf loader j all := by
  have share := inv.shares.share j
  rw [inv.split, shareOf_append, ← share, dealing]
  simp only [List.map_append, List.append_assoc]
  exact (List.prefix_append_right_inj _).mpr (List.prefix_append _ _)

theorem share_prefix (inv : LoadInvariant loader all empty s layout dispatched) (j : Nat) :
    (dealtBy s.dealt j).map Prod.snd <+: shareOf loader j all := by
  have next := inv.next_share_prefix (List.nil_append (layout (.dealing j))).symm
  rw [List.map_nil, List.append_nil] at next
  exact next

/-- What the next call of `slice_loader_deal_record` does to the load. -/
theorem outcome_deal (inv : LoadInvariant loader all empty s layout dispatched)
    (loading : Loading capacity sa empty) (nonneg : ∀ record ∈ all, 0 ≤ record.bsKey.slice.length)
    {j : Nat} {node : ν} {rest : List ν} (dealing : layout (.dealing j) = node :: rest) :
    Outcome loader all empty (s.dealRecord j node).continueFlag (s.dealRecord j node).index
      (s.dealRecord j node).dealt := by
  have calls : (s.dealt ++ [(j, node, s.content node)]).map (fun call => call.2.2) =
      s.dealt.map (fun call => call.2.2) ++ [s.content node] := List.map_append
  constructor
  · intro goes
    obtain ⟨went, done⟩ := Bool.and_eq_true_iff.mp goes
    have loaded := inv.outcome.loaded went
    change dealRecords _ ((s.dealt ++ [(j, node, s.content node)]).map _) _ = _
    rw [calls, dealRecords_concat loader.skiplist loaded]
    exact Prod.ext (of_decide_eq_true done) rfl
  · intro sequential
    have went := inv.outcome.goesOn sequential
    have loaded := inv.outcome.loaded went
    have shares : ∀ k, (dealtBy (s.dealt ++ [(j, node, s.content node)]) k).map Prod.snd <+:
        shareOf loader k all := by
      intro k
      rw [dealtBy_concat, List.map_append]
      split_ifs with same
      · subst same
        have first : layout (.dealing j) = [node] ++ rest := dealing
        exact inv.next_share_prefix first
      · rw [List.map_nil, List.append_nil]
        exact inv.share_prefix k
    have first := recordsOf_prefix shares
    rw [calls] at first
    have takes := (dealRecords_ok_iff loader.skiplist all loading nonneg).mp sequential
    have members : ∀ record ∈ s.dealt.map (fun call => call.2.2) ++ [s.content node],
        0 ≤ record.bsKey.slice.length := by
      intro record member
      have own : record ∈ recordsOf record.bsKey.block
          (s.dealt.map (fun call => call.2.2) ++ [s.content node]) :=
        List.mem_filter.mpr ⟨member, decide_eq_true rfl⟩
      exact nonneg record (List.mem_filter.mp ((first record.bsKey.block).subset own)).1
    have done := (dealRecords_ok_iff loader.skiplist _ loading members).mpr fun bkey =>
      isSome_foldlM_of_prefix (first bkey) (takes bkey)
    rw [dealRecords_concat loader.skiplist loaded] at done
    exact Bool.and_eq_true_iff.mpr ⟨went, decide_eq_true done⟩

variable [DecidableEq ν]

/-- A data thread pops its queue. -/
theorem popAll (inv : LoadInvariant loader all empty s layout dispatched) {j : Nat} {head : ν}
    {queue : loader.fcQueue.Queue} (work : (s.dataThread j).work = .waiting)
    (popped : loader.fcQueue.popAll (s.dataThread j).queue = (some head, queue)) :
    LoadInvariant loader all empty
      (s.setDataThread j { s.dataThread j with queue := queue, work := .entered head })
      (handOn layout (.queued j) [] (.dealing j) (layout (.queued j))) dispatched := by
  have disjointed := inv.shapes.disjointed
  have shape := inv.shapes.data j
  have none : layout (.dealing j) = [] := by
    have dealing := shape.dealing
    rw [work] at dealing
    exact dealing
  have linked := loader.fcQueue.popAll_linked _ _ _ shape.queued
  have emptied := loader.fcQueue.holds_popAll _ _ _ shape.queued
  rw [popped] at linked emptied
  have moved : (layout (.queued j)).Perm (layout (.queued j) ++ []) := by
    rw [List.append_nil]
  have distinct : LoadPlace.queued j ≠ .dealing j := (by simp)
  have kept (place : LoadPlace) (notQueued : place ≠ .queued j) (notDealing : place ≠ .dealing j) :
      handOn layout (.queued j) [] (.dealing j) (layout (.queued j)) place = layout place :=
    handOn_of_ne notQueued notDealing
  have source : handOn layout (.queued j) [] (.dealing j) (layout (.queued j)) (.queued j) = [] :=
    handOn_source distinct
  have target : handOn layout (.queued j) [] (.dealing j) (layout (.queued j)) (.dealing j) =
      layout (.queued j) := by
    rw [handOn_target, none, List.nil_append]
  constructor
  · constructor
    · exact disjointed.handOn moved distinct
    · intro k
      rw [kept (.free k) (by simp) (by simp)]
      exact inv.shapes.free k
    · intro k
      rw [kept (.freeing k) (by simp) (by simp)]
      refine data_of_update (fun k thread => layout (.freeing k) = thread.chain) ?_ ?_ k
      · exact inv.shapes.freeing j
      · exact fun k _ => inv.shapes.freeing k
    · intro k
      rw [kept (.parsed k) (by simp) (by simp)]
      exact inv.shapes.parser k
    · intro k
      dsimp only [LoadState.setDataThread]
      rw [kept (.chained k) (by simp) (by simp), Function.update_apply]
      split_ifs with same
      · subst same
        rw [source, target]
        exact ⟨shape.chained, emptied, linked, fun _ => shape.unchained (Or.inl work), shape.homed⟩
      · rw [kept (.queued k) (fun equal => same (LoadPlace.queued.inj equal)) (by simp),
          kept (.dealing k) (by simp) fun equal => same (LoadPlace.dealing.inj equal)]
        exact inv.shapes.data k
  · refine ⟨?_, inv.control.parseDone, inv.control.valid, inv.control.inputValid, ?_,
      inv.control.readEnded⟩
    · intro k given
      rw [kept (.parsed k) (by simp) (by simp)]
      exact inv.control.outside k given
    · have chained : (fun k => handOn layout (.queued j) [] (.dealing j) (layout (.queued j))
          (.chained k)) = fun k => layout (.chained k) := by
        funext k
        exact kept (.chained k) (by simp) (by simp)
      rw [chained]
      exact inv.control.phaseSound
  · rw [inv.split]
    refine congrArg (dispatched ++ ·) (pendingRecords_congr fun k _ => ?_).symm
    rw [parserRecords, kept (.parsed k) (by simp) (by simp)]
    rfl
  · refine ⟨?_, ?_, ?_⟩
    · intro k
      have share := inv.shares.share k
      rw [kept (.chained k) (by simp) (by simp), ← share]
      by_cases same : k = j
      · subst same
        rw [source, target, none, List.append_nil, List.nil_append]
        rfl
      · rw [kept (.queued k) (fun equal => same (LoadPlace.queued.inj equal)) (by simp),
          kept (.dealing k) (by simp) fun equal => same (LoadPlace.dealing.inj equal)]
        rfl
    · refine data_of_update
        (fun k thread => thread.totalCount = (shareOf loader k dispatched).length) ?_ ?_
      · exact inv.shares.total j
      · exact fun k _ => inv.shares.total k
    · refine data_of_update (fun k thread => thread.work ≠ .stopped →
        thread.doneCount = (dealtBy s.dealt k).length) ?_ ?_
      · exact fun _ => inv.shares.done j (by rw [work]; exact (by simp))
      · exact fun k _ => inv.shares.done k
  · refine ⟨inv.ledger.named, ?_, inv.ledger.homed, ?_⟩
    · refine data_of_update (GivesBack s.returned s.dealt) ?_ ?_
      · exact GivesBack.of_eq ((inv.ledger.givesBack j).2 (by rw [work]; exact (by simp)))
      · exact fun k _ => inv.ledger.givesBack k
    · intro goes node
      rw [exists_mem_handOn_iff moved distinct]
      exact inv.ledger.kept goes node
  · exact inv.outcome

/-- A record that is dealt with goes behind those that are to be given back. -/
theorem takeRecord (inv : LoadInvariant loader all empty s layout dispatched)
    (loading : Loading capacity sa empty) (nonneg : ∀ record ∈ all, 0 ≤ record.bsKey.slice.length)
    {j : Nat} {node : ν} {rest : List ν} (works : (s.dataThread j).work ≠ .stopped)
    (dealing : layout (.dealing j) = node :: rest) (linked : Linked s.next (s.next node) rest)
    {allocator : Nat}
    (homed : ∀ other ∈ (s.dataThread j).chain ++ [node], loader.allocator other = allocator)
    (count : Nat) :
    LoadInvariant loader all empty
      ((s.dealRecord j node).setDataThread j
        { s.dataThread j with
          chain := (s.dataThread j).chain ++ [node]
          prevAllocator := allocator
          count := count
          doneCount := (s.dataThread j).doneCount + 1
          work := .dealing (s.next node) })
      (handOn layout (.dealing j) rest (.freeing j) [node]) dispatched := by
  have disjointed := inv.shapes.disjointed
  have shape := inv.shapes.data j
  have moved : (layout (.dealing j)).Perm ([node] ++ rest) := dealing ▸ List.Perm.refl _
  have distinct : LoadPlace.dealing j ≠ .freeing j := (by simp)
  have kept (place : LoadPlace) (notDealing : place ≠ .dealing j)
      (notFreeing : place ≠ .freeing j) :
      handOn layout (.dealing j) rest (.freeing j) [node] place = layout place :=
    handOn_of_ne notDealing notFreeing
  have source : handOn layout (.dealing j) rest (.freeing j) [node] (.dealing j) = rest :=
    handOn_source distinct
  have target : handOn layout (.dealing j) rest (.freeing j) [node] (.freeing j) =
      layout (.freeing j) ++ [node] := handOn_target
  have dealt (k : Nat) : dealtBy (s.dealt ++ [(j, node, s.content node)]) k =
      dealtBy s.dealt k ++ if j = k then [(node, s.content node)] else [] :=
    dealtBy_concat _ _ _ _
  constructor
  · constructor
    · exact disjointed.handOn moved distinct
    · intro k
      rw [kept (.free k) (by simp) (by simp)]
      exact inv.shapes.free k
    · intro k
      refine data_of_update (fun k thread =>
        handOn layout (.dealing j) rest (.freeing j) [node] (.freeing k) = thread.chain) ?_ ?_ k
      · rw [target, inv.shapes.freeing j]
      · intro k same
        rw [kept (.freeing k) (by simp) fun equal => same (LoadPlace.freeing.inj equal)]
        exact inv.shapes.freeing k
    · intro k
      rw [kept (.parsed k) (by simp) (by simp)]
      exact inv.shapes.parser k
    · intro k
      dsimp only [LoadState.setDataThread, LoadState.dealRecord]
      rw [kept (.chained k) (by simp) (by simp), kept (.queued k) (by simp) (by simp), Function.update_apply]
      split_ifs with same
      · subst same
        rw [source]
        refine ⟨shape.chained, shape.queued, linked, ?_, homed⟩
        rintro (impossible | ⟨head, impossible⟩) <;> cases impossible
      · rw [kept (.dealing k) (fun equal => same (LoadPlace.dealing.inj equal)) (by simp)]
        exact inv.shapes.data k
  · refine ⟨?_, inv.control.parseDone, inv.control.valid, inv.control.inputValid, ?_,
      inv.control.readEnded⟩
    · intro k given
      rw [kept (.parsed k) (by simp) (by simp)]
      exact inv.control.outside k given
    · have chained : (fun k => handOn layout (.dealing j) rest (.freeing j) [node]
          (.chained k)) = fun k => layout (.chained k) := by
        funext k
        exact kept (.chained k) (by simp) (by simp)
      rw [chained]
      exact inv.control.phaseSound
  · rw [inv.split]
    refine congrArg (dispatched ++ ·) (pendingRecords_congr fun k _ => ?_).symm
    rw [parserRecords, kept (.parsed k) (by simp) (by simp)]
    rfl
  · refine ⟨?_, ?_, ?_⟩
    · intro k
      have share := inv.shares.share k
      change (dealtBy (s.dealt ++ [(j, node, s.content node)]) k).map Prod.snd ++
        List.map s.content _ = _
      rw [dealt, kept (.chained k) (by simp) (by simp), kept (.queued k) (by simp) (by simp), ← share]
      by_cases same : k = j
      · subst same
        rw [source, dealing, if_pos rfl]
        simp only [List.map_append, List.append_assoc, List.map_cons, List.map_nil,
          List.cons_append, List.nil_append]
      · rw [kept (.dealing k) (fun equal => same (LoadPlace.dealing.inj equal)) (by simp),
          if_neg (Ne.symm same), List.append_nil]
    · refine data_of_update
        (fun k thread => thread.totalCount = (shareOf loader k dispatched).length) ?_ ?_
      · exact inv.shares.total j
      · exact fun k _ => inv.shares.total k
    · refine data_of_update (fun k thread => thread.work ≠ .stopped → thread.doneCount =
        (dealtBy (s.dealt ++ [(j, node, s.content node)]) k).length) ?_ ?_
      · intro _
        rw [dealt, if_pos rfl, List.length_append, ← inv.shares.done j works]
        rfl
      · intro k same
        rw [dealt, if_neg (Ne.symm same), List.append_nil]
        exact inv.shares.done k
  · refine ⟨inv.ledger.named, ?_, inv.ledger.homed, ?_⟩
    · refine data_of_update
        (GivesBack s.returned (s.dealt ++ [(j, node, s.content node)])) ?_ ?_
      · apply GivesBack.of_eq
        rw [dealt, if_pos rfl, List.map_append, ← (inv.ledger.givesBack j).2 works,
          List.append_assoc]
        rfl
      · intro k same
        rw [GivesBack, dealt, if_neg (Ne.symm same), List.append_nil]
        exact inv.ledger.givesBack k
    · intro goes other
      rw [exists_mem_handOn_iff moved distinct]
      exact inv.ledger.kept (Bool.and_eq_true_iff.mp goes).1 other
  · exact inv.outcome_deal loading nonneg dealing

/-- A data thread that stops at an error keeps the record out of all places. -/
theorem stop (inv : LoadInvariant loader all empty s layout dispatched)
    (loading : Loading capacity sa empty) (nonneg : ∀ record ∈ all, 0 ≤ record.bsKey.slice.length)
    {j : Nat} {node : ν} {rest : List ν} (dealing : layout (.dealing j) = node :: rest)
    (failed : (sliceLoaderDealRecord loader.skiplist (s.content node) s.index).1 ≠ .ok) :
    LoadInvariant loader all empty
      ((s.dealRecord j node).setDataThread j { s.dataThread j with work := .stopped })
      (Function.update layout (.dealing j) rest) dispatched := by
  have shape := inv.shapes.data j
  have kept (place : LoadPlace) (notDealing : place ≠ .dealing j) :
      Function.update layout (.dealing j) rest place = layout place :=
    Function.update_of_ne notDealing _ _
  have source : Function.update layout (.dealing j) rest (.dealing j) = rest :=
    Function.update_self _ _ _
  have dealt (k : Nat) : dealtBy (s.dealt ++ [(j, node, s.content node)]) k =
      dealtBy s.dealt k ++ if j = k then [(node, s.content node)] else [] :=
    dealtBy_concat _ _ _ _
  constructor
  · constructor
    · apply inv.shapes.disjointed.of_sublist
      intro place
      by_cases same : place = .dealing j
      · rw [same, source, dealing]
        exact List.sublist_cons_self node rest
      · rw [kept place same]
    · intro k
      rw [kept (.free k) nofun]
      exact inv.shapes.free k
    · intro k
      rw [kept (.freeing k) nofun]
      refine data_of_update (fun k thread => layout (.freeing k) = thread.chain) ?_ ?_ k
      · exact inv.shapes.freeing j
      · exact fun k _ => inv.shapes.freeing k
    · intro k
      rw [kept (.parsed k) nofun]
      exact inv.shapes.parser k
    · intro k
      dsimp only [LoadState.setDataThread, LoadState.dealRecord]
      rw [kept (.chained k) nofun, kept (.queued k) nofun, Function.update_apply]
      split_ifs with same
      · subst same
        refine ⟨shape.chained, shape.queued, trivial, ?_, shape.homed⟩
        rintro (impossible | ⟨head, impossible⟩) <;> cases impossible
      · rw [kept (.dealing k) fun equal => same (LoadPlace.dealing.inj equal)]
        exact inv.shapes.data k
  · refine ⟨?_, inv.control.parseDone, inv.control.valid, inv.control.inputValid, ?_,
      inv.control.readEnded⟩
    · intro k given
      rw [kept (.parsed k) nofun]
      exact inv.control.outside k given
    · have chained : (fun k => Function.update layout (.dealing j) rest (.chained k)) =
          fun k => layout (.chained k) := by
        funext k
        exact kept (.chained k) nofun
      rw [chained]
      exact inv.control.phaseSound
  · rw [inv.split]
    refine congrArg (dispatched ++ ·) (pendingRecords_congr fun k _ => ?_).symm
    rw [parserRecords, kept (.parsed k) nofun]
    rfl
  · refine ⟨?_, ?_, ?_⟩
    · intro k
      have share := inv.shares.share k
      change (dealtBy (s.dealt ++ [(j, node, s.content node)]) k).map Prod.snd ++
        List.map s.content _ = _
      rw [dealt, kept (.chained k) nofun, kept (.queued k) nofun, ← share]
      by_cases same : k = j
      · subst same
        rw [source, dealing, if_pos rfl]
        simp only [List.map_append, List.append_assoc, List.map_cons, List.map_nil,
          List.cons_append, List.nil_append]
      · rw [kept (.dealing k) fun equal => same (LoadPlace.dealing.inj equal),
          if_neg (Ne.symm same), List.append_nil]
    · refine data_of_update
        (fun k thread => thread.totalCount = (shareOf loader k dispatched).length) ?_ ?_
      · exact inv.shares.total j
      · exact fun k _ => inv.shares.total k
    · refine data_of_update (fun k thread => thread.work ≠ .stopped → thread.doneCount =
        (dealtBy (s.dealt ++ [(j, node, s.content node)]) k).length) ?_ ?_
      · exact fun impossible => absurd rfl impossible
      · intro k same
        rw [dealt, if_neg (Ne.symm same), List.append_nil]
        exact inv.shares.done k
  · refine ⟨inv.ledger.named, ?_, inv.ledger.homed, ?_⟩
    · refine data_of_update
        (GivesBack s.returned (s.dealt ++ [(j, node, s.content node)])) ?_ ?_
      · refine ⟨?_, fun impossible => absurd rfl impossible⟩
        rw [dealt, List.map_append]
        exact (inv.ledger.givesBack j).1.trans (List.prefix_append _ _)
      · intro k same
        rw [GivesBack, dealt, if_neg (Ne.symm same), List.append_nil]
        exact inv.ledger.givesBack k
    · intro goes
      exact absurd (of_decide_eq_true (Bool.and_eq_true_iff.mp goes).2) failed
  · exact inv.outcome_deal loading nonneg dealing

/-- A batch of records goes back to its allocator. -/
theorem batchFree (inv : LoadInvariant loader all empty s layout dispatched) {j : Nat}
    (works : (s.dataThread j).work ≠ .stopped) {work : DealWork ν}
    (dealing : DealShape s.next work (layout (.dealing j))) :
    LoadInvariant loader all empty
      ((s.batchFree j).setDataThread j { s.dataThread j with chain := [], work := work })
      (handOn layout (.freeing j) [] (.free (s.dataThread j).prevAllocator)
        (s.dataThread j).chain) dispatched := by
  generalize allocator : (s.dataThread j).prevAllocator = i
  have disjointed := inv.shapes.disjointed
  have shape := inv.shapes.data j
  have moved : (layout (.freeing j)).Perm ((s.dataThread j).chain ++ []) := by
    rw [List.append_nil, inv.shapes.freeing]
  have distinct : LoadPlace.freeing j ≠ .free i := nofun
  have kept (place : LoadPlace) (notFreeing : place ≠ .freeing j) (notFree : place ≠ .free i) :
      handOn layout (.freeing j) [] (.free i) (s.dataThread j).chain place = layout place :=
    handOn_of_ne notFreeing notFree
  have source : handOn layout (.freeing j) [] (.free i) (s.dataThread j).chain (.freeing j) = [] :=
    handOn_source distinct
  have target : handOn layout (.freeing j) [] (.free i) (s.dataThread j).chain (.free i) =
      layout (.free i) ++ (s.dataThread j).chain := handOn_target
  have free (k : Nat) : (s.batchFree j).free k =
      if k = i then s.free i ++ (s.dataThread j).chain else s.free k := by
    rw [← allocator]
    exact Function.update_apply _ _ _ _
  have returned (k : Nat) : (s.batchFree j).returned k =
      if k = j then s.returned j ++ (s.dataThread j).chain.map (fun node => (i, node))
      else s.returned k := by
    rw [← allocator]
    exact Function.update_apply _ _ _ _
  have names : ((s.dataThread j).chain.map fun node => (i, node)).map Prod.snd =
      (s.dataThread j).chain := by
    rw [List.map_map]
    exact List.map_id _
  constructor
  · constructor
    · exact disjointed.handOn moved distinct
    · intro k
      change _ = (s.batchFree j).free k
      rw [free]
      by_cases same : k = i
      · rw [same, if_pos rfl, target, inv.shapes.free]
      · rw [if_neg same, kept (.free k) nofun fun equal => same (LoadPlace.free.inj equal)]
        exact inv.shapes.free k
    · refine data_of_update (fun k thread => handOn layout (.freeing j) [] (.free i)
        (s.dataThread j).chain (.freeing k) = thread.chain) ?_ ?_
      · exact source
      · intro k same
        rw [kept (.freeing k) (fun equal => same (LoadPlace.freeing.inj equal)) nofun]
        exact inv.shapes.freeing k
    · intro k
      rw [kept (.parsed k) nofun nofun]
      exact inv.shapes.parser k
    · intro k
      dsimp only [LoadState.setDataThread, LoadState.batchFree]
      rw [kept (.chained k) nofun nofun, kept (.queued k) nofun nofun,
        kept (.dealing k) nofun nofun, Function.update_apply]
      split_ifs with same
      · subst same
        exact ⟨shape.chained, shape.queued, dealing, fun _ => rfl, List.forall_mem_nil _⟩
      · exact inv.shapes.data k
  · refine ⟨?_, inv.control.parseDone, inv.control.valid, inv.control.inputValid, ?_,
      inv.control.readEnded⟩
    · intro k given
      rw [kept (.parsed k) nofun nofun]
      exact inv.control.outside k given
    · have chained : (fun k => handOn layout (.freeing j) [] (.free i) (s.dataThread j).chain
          (.chained k)) = fun k => layout (.chained k) := by
        funext k
        exact kept (.chained k) nofun nofun
      rw [chained]
      exact inv.control.phaseSound
  · rw [inv.split]
    refine congrArg (dispatched ++ ·) (pendingRecords_congr fun k _ => ?_).symm
    rw [parserRecords, kept (.parsed k) nofun nofun]
    rfl
  · refine ⟨?_, ?_, ?_⟩
    · intro k
      rw [kept (.chained k) nofun nofun, kept (.queued k) nofun nofun,
        kept (.dealing k) nofun nofun]
      exact inv.shares.share k
    · refine data_of_update
        (fun k thread => thread.totalCount = (shareOf loader k dispatched).length) ?_ ?_
      · exact inv.shares.total j
      · exact fun k _ => inv.shares.total k
    · refine data_of_update (fun k thread => thread.work ≠ .stopped →
        thread.doneCount = (dealtBy s.dealt k).length) ?_ ?_
      · exact fun _ => inv.shares.done j works
      · exact fun k _ => inv.shares.done k
  · refine ⟨?_, ?_, ?_, ?_⟩
    · intro k
      change ∀ entry ∈ (s.batchFree j).returned k, _
      rw [returned]
      split_ifs with same
      · intro entry member
        rcases List.mem_append.mp member with old | new
        · exact inv.ledger.named j entry old
        · obtain ⟨node, inChain, rfl⟩ := List.mem_map.mp new
          exact allocator.symm.trans (shape.homed node inChain).symm
      · exact inv.ledger.named k
    · refine data_of_update (GivesBack (s.batchFree j).returned s.dealt) ?_ ?_
      · apply GivesBack.of_eq
        rw [returned, if_pos rfl, List.map_append, names, List.append_nil]
        exact (inv.ledger.givesBack j).2 works
      · intro k same
        rw [GivesBack, returned, if_neg same]
        exact inv.ledger.givesBack k
    · intro k
      change ∀ node ∈ (s.batchFree j).free k, _
      rw [free]
      split_ifs with same
      · intro node member
        rw [same]
        rcases List.mem_append.mp member with old | new
        · exact inv.ledger.homed i node old
        · exact (shape.homed node new).trans allocator
      · exact inv.ledger.homed k
    · intro goes node
      rw [exists_mem_handOn_iff moved distinct]
      exact inv.ledger.kept goes node
  · exact inv.outcome

/-- The record that a data thread deals with is the first one of those it has. -/
theorem dealing_cons (inv : LoadInvariant loader all empty s layout dispatched) {j : Nat} {node : ν}
    (work : (s.dataThread j).work = .entered node ∨ (s.dataThread j).work = .dealing (some node)) :
    (s.dataThread j).work ≠ .stopped ∧ ∃ rest, layout (.dealing j) = node :: rest ∧
      Linked s.next (s.next node) rest := by
  have shape := (inv.shapes.data j).dealing
  obtain ⟨works, linked⟩ : (s.dataThread j).work ≠ .stopped ∧
      Linked s.next (some node) (layout (.dealing j)) := by
    rcases work with work | work
    · rw [work] at shape ⊢
      exact ⟨nofun, shape⟩
    · rw [work] at shape ⊢
      exact ⟨nofun, shape⟩
  refine ⟨works, ?_⟩
  cases nodes : layout (.dealing j) with
  | nil =>
      rw [nodes] at linked
      cases linked
  | cons first rest =>
      rw [nodes] at linked
      obtain rfl := Option.some.inj linked.1
      exact ⟨rest, rfl, linked.2⟩

/-- The first record of `deal_records`. -/
theorem dealFirst (inv : LoadInvariant loader all empty s layout dispatched)
    (loading : Loading capacity sa empty) (nonneg : ∀ record ∈ all, 0 ≤ record.bsKey.slice.length)
    {j : Nat} {head : ν} (work : (s.dataThread j).work = .entered head) :
    ∃ layout', LoadInvariant loader all empty (s.dealFirst j head) layout' dispatched := by
  obtain ⟨works, rest, dealing, linked⟩ := inv.dealing_cons (Or.inl work)
  have chain := (inv.shapes.data j).unchained (Or.inr ⟨head, work⟩)
  rw [LoadState.dealFirst]
  split_ifs with done
  · have homed : ∀ other ∈ (s.dataThread j).chain ++ [head],
        loader.allocator other = loader.allocator head := by
      intro other member
      rw [chain, List.nil_append, List.mem_singleton] at member
      rw [member]
    have taken := inv.takeRecord loading nonneg works dealing linked homed 1
    rw [chain] at taken
    exact ⟨_, taken⟩
  · exact ⟨_, inv.stop loading nonneg dealing done⟩

/-- A later record of `deal_records`. -/
theorem dealNext (inv : LoadInvariant loader all empty s layout dispatched)
    (loading : Loading capacity sa empty) (nonneg : ∀ record ∈ all, 0 ≤ record.bsKey.slice.length)
    {j : Nat} {record : ν} (work : (s.dataThread j).work = .dealing (some record)) :
    ∃ layout', LoadInvariant loader all empty (s.dealNext j record) layout' dispatched := by
  obtain ⟨works, rest, dealing, linked⟩ := inv.dealing_cons (Or.inr work)
  have shape := inv.shapes.data j
  rw [LoadState.dealNext]
  split_ifs with done flush
  · -- the batch goes back first, then the record starts the next one
    have flushed := inv.batchFree works shape.dealing
    have thread : ((s.batchFree j).setDataThread j
        { s.dataThread j with chain := [], work := (s.dataThread j).work }).dataThread j =
          { s.dataThread j with chain := [] } := Function.update_self _ _ _
    have notFreeing : LoadPlace.dealing j ≠ .freeing j := nofun
    have notFree : LoadPlace.dealing j ≠ .free (s.dataThread j).prevAllocator := nofun
    have still : handOn layout (.freeing j) [] (.free (s.dataThread j).prevAllocator)
        (s.dataThread j).chain (.dealing j) = record :: rest :=
      (handOn_of_ne notFreeing notFree).trans dealing
    have homed : ∀ other ∈ (((s.batchFree j).setDataThread j
        { s.dataThread j with chain := [], work := (s.dataThread j).work }).dataThread j).chain ++
          [record], loader.allocator other = loader.allocator record := by
      intro other member
      rw [thread] at member
      rw [List.mem_singleton.mp member]
    have taken := flushed.takeRecord loading nonneg (by rw [thread]; exact works) still linked
      homed 1
    rw [thread] at taken
    simp only [LoadState.setDataThread, LoadState.dealRecord, LoadState.batchFree,
      Function.update_idem, List.nil_append] at taken ⊢
    exact ⟨_, taken⟩
  · have same : loader.allocator record = (s.dataThread j).prevAllocator := by
      by_contra other
      exact flush (Or.inl other)
    have homed : ∀ other ∈ (s.dataThread j).chain ++ [record],
        loader.allocator other = (s.dataThread j).prevAllocator := by
      intro other member
      rcases List.mem_append.mp member with old | new
      · exact shape.homed other old
      · rw [List.mem_singleton.mp new]
        exact same
    exact ⟨_, inv.takeRecord loading nonneg works dealing linked homed _⟩
  · exact ⟨_, inv.stop loading nonneg dealing done⟩

/-- The end of `deal_records`. -/
theorem dealEnd (inv : LoadInvariant loader all empty s layout dispatched) {j : Nat}
    (work : (s.dataThread j).work = .dealing none) :
    ∃ layout', LoadInvariant loader all empty (s.dealEnd j) layout' dispatched := by
  have shape := (inv.shapes.data j).dealing
  rw [work] at shape
  have none : layout (.dealing j) = [] := by
    cases nodes : layout (.dealing j) with
    | nil => rfl
    | cons node rest =>
        rw [nodes] at shape
        cases shape.1
  exact ⟨_, inv.batchFree (by rw [work]; exact nofun) none⟩

/-- A step of any thread keeps what holds of a load. -/
theorem after (inv : LoadInvariant loader all empty s layout dispatched)
    (loading : Loading capacity sa empty) (nonneg : ∀ record ∈ all, 0 ≤ record.bsKey.slice.length)
    {action : LoadAction ν} (enabled : s.Enabled action) :
    ∃ layout' dispatched', LoadInvariant loader all empty (s.after action) layout' dispatched' := by
  cases action with
  | parseBuffer =>
      obtain ⟨phase, some⟩ := enabled
      cases input : s.input with
      | nil => exact absurd input some
      | cons buffer rest =>
          simp only [LoadState.after, input]
          exact ⟨_, _, inv.giveBuffer phase input⟩
  | readDone => exact ⟨_, _, inv.readDone enabled.1 enabled.2⟩
  | collect =>
      simp only [LoadState.Enabled] at enabled
      simp only [LoadState.after]
      cases phase : s.phase with
      | waiting i =>
          simp only [phase] at enabled
          dsimp only
          split_ifs with inside
          · exact ⟨_, _, inv.startWalk phase inside (enabled inside)⟩
          · exact ⟨_, _, inv.startPush phase (Nat.le_of_not_lt inside)⟩
      | _ =>
          rw [phase] at enabled
          exact enabled.elim
  | walk =>
      simp only [LoadState.Enabled] at enabled
      simp only [LoadState.after]
      cases phase : s.phase with
      | walking i record =>
          cases record with
          | none => exact ⟨_, _, inv.walkEnd phase⟩
          | some node =>
              obtain ⟨rest, walked⟩ := inv.walkRecord phase
              exact ⟨_, _, walked⟩
      | _ =>
          rw [phase] at enabled
          exact enabled.elim
  | push =>
      simp only [LoadState.Enabled] at enabled
      simp only [LoadState.after]
      cases phase : s.phase with
      | pushing j =>
          simp only [LoadState.pushStep]
          by_cases inside : j < loader.dataThreads
          · rw [if_pos inside]
            by_cases some : (s.dataThread j).slices.head = none
            · have nothing := ((inv.shapes.data j).chained.head_eq_none_iff).mp some
              have same : s.pushChain j = s := if_pos some
              rw [same]
              exact ⟨_, _, inv.pushNothing phase nothing⟩
            · exact ⟨_, _, inv.pushRecords phase some⟩
          · rw [if_neg inside]
            exact ⟨_, _, inv.pushEnd phase (Nat.le_of_not_lt inside)⟩
      | _ =>
          rw [phase] at enabled
          exact enabled.elim
  | finish => exact ⟨_, _, inv.finish enabled.1⟩
  | beginParse i =>
      simp only [LoadState.Enabled] at enabled
      simp only [LoadState.after]
      cases work : (s.parseThread i).work with
      | given buffer => exact ⟨_, _, inv.beginParse work⟩
      | _ =>
          rw [work] at enabled
          exact enabled.2.elim
  | parseLine i node beyond =>
      simp only [LoadState.Enabled] at enabled
      simp only [LoadState.after]
      cases work : (s.parseThread i).work with
      | parsing lines =>
          cases lines with
          | nil =>
              rw [work] at enabled
              exact enabled.2.2.elim
          | cons line rest => exact ⟨_, _, inv.parseLine enabled.2.1 work beyond⟩
      | _ =>
          rw [work] at enabled
          exact enabled.2.2.elim
  | endParse i => exact ⟨_, _, inv.endParse enabled.2⟩
  | popAll j =>
      obtain ⟨inside, work, some⟩ := enabled
      simp only [LoadState.after]
      cases popped : loader.fcQueue.popAll (s.dataThread j).queue with
      | mk head queue =>
          cases head with
          | none =>
              rw [popped] at some
              exact absurd rfl some
          | some head => exact ⟨_, _, inv.popAll work popped⟩
  | deal j =>
      simp only [LoadState.Enabled] at enabled
      simp only [LoadState.after]
      cases work : (s.dataThread j).work with
      | entered head =>
          obtain ⟨layout', dealt⟩ := inv.dealFirst loading nonneg work
          exact ⟨layout', _, dealt⟩
      | dealing record =>
          cases record with
          | none =>
              obtain ⟨layout', dealt⟩ := inv.dealEnd work
              exact ⟨layout', _, dealt⟩
          | some record =>
              obtain ⟨layout', dealt⟩ := inv.dealNext loading nonneg work
              exact ⟨layout', _, dealt⟩
      | _ =>
          rw [work] at enabled
          exact enabled.2.elim

omit [DecidableEq ν] in
/-- A data thread that has counted as many records as it was given has none left. -/
theorem nothing_left (inv : LoadInvariant loader all empty s layout dispatched) {j : Nat}
    (counted : (s.dataThread j).totalCount ≤ (s.dataThread j).doneCount)
    (works : (s.dataThread j).work ≠ .stopped) :
    layout (.dealing j) = [] ∧ layout (.queued j) = [] ∧ layout (.chained j) = [] ∧
      (dealtBy s.dealt j).map Prod.snd = shareOf loader j dispatched := by
  have share := inv.shares.share j
  rw [inv.shares.total j, inv.shares.done j works, ← share, List.length_append, List.length_map,
    List.length_map] at counted
  have none : layout (.dealing j) ++ layout (.queued j) ++ layout (.chained j) = [] := by
    apply List.eq_nil_of_length_eq_zero
    omega
  rw [none, List.map_nil, List.append_nil] at share
  obtain ⟨first, chained⟩ := List.append_eq_nil_iff.mp none
  obtain ⟨dealing, queued⟩ := List.append_eq_nil_iff.mp first
  exact ⟨dealing, queued, chained, share⟩

omit [DecidableEq ν] in
/-- When the load is finished every record is dispatched, and no data thread has any left. -/
theorem at_end (inv : LoadInvariant loader all empty s layout dispatched)
    (finished : s.phase = .finished) (counted : ∀ j < loader.dataThreads,
      (s.dataThread j).totalCount ≤ (s.dataThread j).doneCount ∧ (s.dataThread j).work = .waiting) :
    all = dispatched ∧ (∀ i, layout (.parsed i) = []) ∧
      ∀ j, layout (.dealing j) = [] ∧ layout (.queued j) = [] ∧ layout (.chained j) = [] ∧
        (dealtBy s.dealt j).map Prod.snd = shareOf loader j dispatched ∧
        layout (.freeing j) = [] ∧
        (s.returned j).map Prod.snd = (dealtBy s.dealt j).map Prod.fst := by
  have sound := inv.control.phaseSound
  have outside := inv.control.outside
  have split := inv.split
  rw [finished] at sound outside split
  obtain ⟨ended, none, -⟩ := sound
  refine ⟨?_, ?_, ?_⟩
  · dsimp only [LoadPhase.first] at split
    rw [pendingRecords_nil le_rfl, inv.control.readEnded ended, List.flatMap_nil,
      List.append_nil] at split
    exact split
  · intro i
    exact (outside i (Or.inr (none ▸ Nat.zero_le i))).2
  · intro j
    have gives := inv.ledger.givesBack j
    rcases Nat.lt_or_ge j loader.dataThreads with inside | absent
    · obtain ⟨total, work⟩ := counted j inside
      have works : (s.dataThread j).work ≠ .stopped := by
        rw [work]
        exact nofun
      obtain ⟨dealing, queued, chained, share⟩ := inv.nothing_left total works
      have chain := (inv.shapes.data j).unchained (Or.inl work)
      have equal := gives.2 works
      rw [chain, List.append_nil] at equal
      exact ⟨dealing, queued, chained, share, (inv.shapes.freeing j).trans chain, equal⟩
    · have share := inv.shares.share j
      have nothing : shareOf loader j dispatched = [] := by
        refine List.filter_eq_nil_iff.mpr fun record _ own => ?_
        have bound := @owner_lt ν loader record
        rw [of_decide_eq_true own] at bound
        omega
      rw [nothing] at share ⊢
      obtain ⟨dealt, nodes⟩ := List.append_eq_nil_iff.mp share
      obtain ⟨first, chained⟩ := List.append_eq_nil_iff.mp (List.map_eq_nil_iff.mp nodes)
      obtain ⟨dealing, queued⟩ := List.append_eq_nil_iff.mp first
      rw [GivesBack, List.map_eq_nil_iff.mp dealt] at gives
      rw [List.map_eq_nil_iff.mp dealt]
      obtain ⟨returned, chain⟩ := List.append_eq_nil_iff.mp (List.prefix_nil.mp gives.1)
      exact ⟨dealing, queued, chained, rfl, (inv.shapes.freeing j).trans chain, returned⟩

end LoadInvariant

end Load

/-! ## Runs -/

/-- The buffers of a log whose lines are divided like this. -/
def buffersOf (chunks : List (List (List Char))) : List (List Char) :=
  chunks.map fun lines => lines.flatMap fun line => line ++ ['\n']

/-- A load of these buffers that begins, with any old contents of the records. -/
def LoadInit (loader : SliceLoader ν) (chunks : List (List (List Char))) (empty : IndexState)
    (s : LoadState loader) : Prop :=
  ∃ next content, s = LoadState.start loader (buffersOf chunks) next content empty

/-- The lines are read again from their buffer. -/
theorem bufferLines_flatMap {lines : List (List Char)} (noEnd : ∀ line ∈ lines, '\n' ∉ line) :
    (bufferLines (lines.flatMap fun line => line ++ ['\n'])).map Prod.fst = lines := by
  induction lines with
  | nil => rfl
  | cons line rest ih =>
      rw [List.flatMap_cons, List.append_assoc, List.singleton_append,
        bufferLines_line (noEnd line List.mem_cons_self), List.map_cons,
        ih fun other member => noEnd other (List.mem_cons_of_mem _ member)]

theorem recordsOfBuffer_buffersOf (paths : StorePaths) {chunks : List (List (List Char))}
    (noEnd : ∀ lines ∈ chunks, ∀ line ∈ lines, '\n' ∉ line) :
    (buffersOf chunks).flatMap (recordsOfBuffer paths) = recordsOfLines paths chunks.flatten := by
  induction chunks with
  | nil => rfl
  | cons lines rest ih =>
      have first : recordsOfBuffer paths (lines.flatMap fun line => line ++ ['\n']) =
          recordsOfLines paths lines := by
        rw [recordsOfBuffer, bufferLines_flatMap (noEnd lines List.mem_cons_self)]
      rw [buffersOf, List.map_cons, List.flatMap_cons, first, List.flatten_cons, recordsOfLines,
        recordsOfLines, List.filterMap_append]
      congr 1
      exact ih fun other member => noEnd other (List.mem_cons_of_mem _ member)

/-- A parsed number is not below its minimum. -/
theorem le_of_parseInt {cast : Int → Int} {ends column : List Char} {minVal number : Int}
    (parsed : parseInt cast ends minVal column = some number) : minVal ≤ number := by
  unfold parseInt at parsed
  split at parsed
  · cases parsed
  · split_ifs at parsed with taken
    rw [← Option.some.inj parsed]
    exact taken.2

/-- The range of a parsed record is not negative. -/
theorem length_of_sliceParseCols {paths : StorePaths} {cols : List (List Char)}
    {record : SliceBinlogRecord} (parsed : sliceParseCols paths cols = some record) :
    0 ≤ record.bsKey.slice.length := by
  have added {opType : BinlogOpType} {sliceType : OBSliceType} {bkey : FSBlockKey}
      (taken : addSliceSetFields paths opType sliceType bkey cols = some record) :
      0 ≤ record.bsKey.slice.length := by
    unfold addSliceSetFields at taken
    split_ifs at taken
    simp only [Option.bind_eq_bind, Option.bind_eq_some_iff] at taken
    obtain ⟨offset, -, length, read, pathIndex, -, rest⟩ := taken
    split_ifs at rest
    simp only [Option.bind_eq_some_iff] at rest
    obtain ⟨trunkId, -, subdir, -, spaceOffset, -, size, -, made⟩ := rest
    rw [← Option.some.inj made]
    exact le_trans (by norm_num) (le_of_parseInt read)
  unfold sliceParseCols at parsed
  by_cases count : cols.length < 6
  · rw [if_pos count] at parsed
    cases parsed
  rw [if_neg count] at parsed
  simp only [Option.bind_eq_bind, Option.bind_eq_some_iff] at parsed
  obtain ⟨oid, -, offset, -, rest⟩ := parsed
  split at rest
  · exact added rest
  · exact added rest
  · unfold delSliceSetFields at rest
    split_ifs at rest
    simp only [Option.bind_eq_bind, Option.bind_eq_some_iff] at rest
    obtain ⟨sliceOffset, -, length, read, made⟩ := rest
    rw [← Option.some.inj made]
    exact le_trans (by norm_num) (le_of_parseInt read)
  · unfold delBlockSetFields at rest
    split_ifs at rest
    rw [← Option.some.inj rest]
    exact le_rfl
  · cases rest

theorem length_of_recordsOfLines {paths : StorePaths} {lines : List (List Char)} :
    ∀ record ∈ recordsOfLines paths lines, 0 ≤ record.bsKey.slice.length := by
  intro record member
  obtain ⟨line, -, parsed⟩ := List.mem_filterMap.mp member
  exact length_of_sliceParseCols parsed

variable [DecidableEq ν]

/-- Every state of a load, and a load that is finished. -/
structure LoadSound (loader : SliceLoader ν) (all : List SliceBinlogRecord) (empty : IndexState)
    (s : LoadState loader) : Prop where
  invariant : ∃ layout dispatched, LoadInvariant loader all empty s layout dispatched
  finished : s.phase = .finished → ∀ j < loader.dataThreads,
    (s.dataThread j).totalCount ≤ (s.dataThread j).doneCount ∧ (s.dataThread j).work = .waiting

section Start

variable {chunks : List (List (List Char))} {s : LoadState loader}

omit [DecidableEq ν] in
/-- At the start all records are free. -/
theorem loadSound_start (valid : ∀ lines ∈ chunks, ∀ line ∈ lines,
    '\n' ∉ line ∧ ValidLine loader.paths line) (init : LoadInit loader chunks empty s) :
    LoadSound loader (recordsOfLines loader.paths chunks.flatten) empty s := by
  obtain ⟨next, content, rfl⟩ := init
  let layout : LoadPlace → List ν
    | .free i => loader.elements i
    | _ => []
  have noEnd : ∀ lines ∈ chunks, ∀ line ∈ lines, '\n' ∉ line :=
    fun lines member line inside => (valid lines member line inside).1
  have free (place : LoadPlace) {node : ν} (member : node ∈ layout place) :
      place = .free (loader.allocator node) := by
    cases place with
    | free i => rw [loader.elements_allocator i node member]
    | _ => cases member
  refine ⟨⟨layout, [], ⟨⟨⟨?_, ?_⟩, fun _ => rfl, fun _ => rfl, fun _ => rfl, ?_⟩,
    ⟨fun _ _ => ⟨rfl, rfl⟩, nofun, ?_, ?_, ⟨rfl, fun _ => rfl⟩, nofun⟩, ?_, ?_, ?_, ?_⟩⟩, nofun⟩
  · intro place
    cases place with
    | free i => exact loader.elements_nodup i
    | _ => exact List.nodup_nil
  · intro place other apart node here there
    exact apart ((free place here).trans (free other there).symm)
  · intro j
    exact ⟨Strung.nil next, loader.fcQueue.holds_init next, rfl, fun _ => rfl,
      List.forall_mem_nil _⟩
  · exact fun i => List.forall_mem_nil _
  · intro buffer member line inside
    obtain ⟨lines, given, rfl⟩ := List.mem_map.mp member
    have read := @List.mem_map_of_mem _ _ _ _ Prod.fst inside
    rw [bufferLines_flatMap (noEnd lines given)] at read
    exact (valid lines given line.1 read).2
  · exact (recordsOfBuffer_buffersOf loader.paths noEnd).symm
  · exact ⟨fun _ => rfl, fun _ => rfl, fun _ _ => rfl⟩
  · refine ⟨fun _ => List.forall_mem_nil _, fun _ => GivesBack.of_eq rfl,
      loader.elements_allocator, fun _ node => ⟨?_, ?_⟩⟩
    · rintro ⟨place, member⟩
      rw [free place member] at member
      exact member
    · exact fun member => ⟨.free (loader.allocator node), member⟩
  · exact ⟨fun _ => rfl, fun _ => rfl⟩

/-- A step keeps what holds of a load; nothing happens in a finished one. -/
theorem LoadSound.after {all : List SliceBinlogRecord} (sound : LoadSound loader all empty s)
    {capacity : Nat} {sa : FSStorageAllocatorManager} (loading : Loading capacity sa empty)
    (nonneg : ∀ record ∈ all, 0 ≤ record.bsKey.slice.length) {action : LoadAction ν}
    (enabled : s.Enabled action) : LoadSound loader all empty (s.after action) := by
  obtain ⟨layout, dispatched, inv⟩ := sound.invariant
  refine ⟨inv.after loading nonneg enabled, fun finished => ?_⟩
  cases action with
  | parseBuffer =>
      obtain ⟨phase, some⟩ := enabled
      cases input : s.input with
      | nil => exact absurd input some
      | cons buffer rest =>
          simp only [LoadState.after, input, LoadState.giveBuffer] at finished
          split_ifs at finished
  | readDone =>
      simp only [LoadState.after] at finished
      split_ifs at finished
  | collect =>
      simp only [LoadState.Enabled] at enabled
      simp only [LoadState.after] at finished
      cases phase : s.phase with
      | waiting i =>
          simp only [phase] at finished
          split_ifs at finished
      | _ =>
          rw [phase] at enabled
          exact enabled.elim
  | walk =>
      simp only [LoadState.Enabled] at enabled
      simp only [LoadState.after] at finished
      cases phase : s.phase with
      | walking i record =>
          simp only [phase] at finished
          cases record <;> cases finished
      | _ =>
          rw [phase] at enabled
          exact enabled.elim
  | push =>
      simp only [LoadState.Enabled] at enabled
      simp only [LoadState.after] at finished
      cases phase : s.phase with
      | pushing j =>
          simp only [phase, LoadState.pushStep] at finished
          split_ifs at finished
      | _ =>
          rw [phase] at enabled
          exact enabled.elim
  | finish => exact enabled.2
  | beginParse i =>
      simp only [LoadState.Enabled] at enabled
      simp only [LoadState.after] at finished ⊢
      cases work : (s.parseThread i).work with
      | given buffer =>
          rw [work] at finished
          exact sound.finished finished
      | _ =>
          rw [work] at enabled
          exact enabled.2.elim
  | parseLine i node beyond =>
      simp only [LoadState.after] at finished ⊢
      cases work : (s.parseThread i).work with
      | parsing lines =>
          cases lines with
          | nil =>
              simp only [work] at finished
              exact sound.finished finished
          | cons line rest =>
              simp only [work] at finished ⊢
              obtain ⟨phase, data⟩ := s.parseStep_kept i node beyond line rest
              rw [phase] at finished
              rw [data]
              exact sound.finished finished
      | _ =>
          simp only [work] at finished
          exact sound.finished finished
  | endParse i => exact sound.finished finished
  | popAll j =>
      -- a queue that is counted out has no records
      obtain ⟨inside, work, some⟩ := enabled
      have phase : s.phase = .finished := by
        simp only [LoadState.after] at finished
        split at finished <;> exact finished
      obtain ⟨counted, waits⟩ := sound.finished phase j inside
      obtain ⟨-, queued, -⟩ := inv.nothing_left counted (by rw [waits]; simp)
      have linked := loader.fcQueue.popAll_linked _ _ _ (inv.shapes.data j).queued
      rw [queued] at linked
      exact absurd linked some
  | deal j =>
      simp only [LoadState.Enabled] at enabled
      have phase : s.phase = .finished := by
        simp only [LoadState.after] at finished
        split at finished
        · rw [LoadState.dealFirst] at finished
          split_ifs at finished <;> exact finished
        · rw [LoadState.dealNext] at finished
          split_ifs at finished <;> exact finished
        · exact finished
        · exact finished
      obtain ⟨-, waits⟩ := sound.finished phase j enabled.1
      rw [waits] at enabled
      exact enabled.2.elim

/-- What holds of every state of a load. -/
theorem loadSound_of_reachable (valid : ∀ lines ∈ chunks, ∀ line ∈ lines,
    '\n' ∉ line ∧ ValidLine loader.paths line) {capacity : Nat} {sa : FSStorageAllocatorManager}
    (loading : Loading capacity sa empty)
    (reached : Reachable LoadState.Step (LoadInit loader chunks empty) s) :
    LoadSound loader (recordsOfLines loader.paths chunks.flatten) empty s := by
  apply reached.invariant
  · exact fun s init => loadSound_start valid init
  · rintro s action s' sound ⟨enabled, rfl⟩
    exact sound.after loading length_of_recordsOfLines enabled

end Start

/-- What is logged is parsed the same way whatever stands behind it. -/
theorem SliceLogEntry.validLine {paths : StorePaths} {entry : SliceLogEntry}
    (fits : entry.Fits paths) :
    '\n' ∉ lineBody entry.fields ∧ ValidLine paths (lineBody entry.fields) :=
  ⟨entry.noEnd_lineBody, entry.record, sliceParseLineIn_fields fits⟩

/-- A delete of a range that is written before, and another block. -/
def twoBuffers : List (List SliceLogEntry) :=
  [[.addSlice ⟨1700000000, 1, .rpcMaster⟩ ⟨⟨5, 0⟩, .file, ⟨0, 8⟩, ⟨0, ⟨1, 1⟩, 0, 8⟩⟩,
      .addSlice ⟨1700000000, 1, .rpcMaster⟩ ⟨⟨6, 0⟩, .file, ⟨0, 8⟩, ⟨0, ⟨1, 1⟩, 8, 8⟩⟩],
    [.delSlice ⟨1700000000, 2, .rpcSlave⟩ ⟨⟨5, 0⟩, ⟨4, 4⟩⟩]]

/-- Two parse threads with two records each, and two data threads. -/
def twoThreads : SliceLoader Nat where
  paths := oneStorePath
  parseThreads := 2
  dataThreads := 2
  parseThreads_pos := by decide
  dataThreads_pos := by decide
  allocator node := node % 2
  elements i := if i = 0 then [0, 2] else if i = 1 then [1, 3] else []
  elements_nodup i := by split_ifs <;> decide
  elements_allocator i := by
    split_ifs with first second
    · rw [first]
      decide
    · rw [second]
      decide
    · exact List.forall_mem_nil _
  fcQueue := FcQueue.linked Nat
  skiplist := UniqSkiplist.level0 OBSliceEntry.key

/-- The index before the load. -/
def emptyIndex : IndexState :=
  ⟨obIndexInitHtableEx 7, ⟨fun _ => none, fun _ => ⟨[], ⟨[], 0, 0⟩, 0, [], 0, 0⟩, ⟨[], 0, 0⟩⟩, 0⟩

/-- The second parse thread is done first, and the data thread of the first record last. -/
def crossedRun : List (LoadAction Nat) :=
  [.parseBuffer, .parseBuffer, .beginParse 1, .parseLine 1 3 [], .beginParse 0,
    .parseLine 0 2 ['7'], .endParse 1, .parseLine 0 0 [], .endParse 0, .collect, .walk, .walk,
    .walk, .collect, .walk, .walk, .collect, .push, .push, .push, .readDone, .popAll 0, .deal 0,
    .deal 0, .popAll 1, .deal 1, .deal 1, .deal 1, .finish]

/-- The load of the two buffers at its start. -/
def twoBuffersLoad : LoadState twoThreads :=
  LoadState.start twoThreads (buffersOf (twoBuffers.map (List.map fun entry => lineBody entry.fields)))
    (fun _ => none) (fun _ => ⟨.noOp, .file, ⟨⟨0, 0⟩, ⟨0, 0⟩⟩, unsetSpace⟩) emptyIndex

end FastStore.Binlog
