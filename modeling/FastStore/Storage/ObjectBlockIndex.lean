import FastStore.Storage.TrunkAllocator

/-!
# The object block index

The hashtable of blocks and, for each block, the skiplist of its slices.  The
functions keep the order of work of the source: an update first collects the
slices to delete and the fragments to add, then deletes, then adds.  Waiting for
a reclaimer (`CHECK_AND_WAIT_RECLAIM_DONE`) is not part of the functions: it is
the guard of the steps that call them.
-/

namespace FastStore.Storage

open FastStore.Util

/-- What an index call can change: the table, the trunk bookkeeping and the
sequence number of the slice binlog. -/
structure IndexState where
  htable : OBHashtable
  sallocator : FSStorageAllocatorManager
  sliceBinlogSn : Nat

/-! ## Block entries -/

/-- `get_ob_entry_ex` on one bucket: the entry of the key, if there is one or it
may be created, and the bucket afterwards. -/
def getObEntryEx (bkey : FSBlockKey) (createFlag : Bool) :
    List OBEntry → Option OBEntry × List OBEntry
  | [] => if createFlag then (some ⟨bkey, 0, []⟩, [⟨bkey, 0, []⟩]) else (none, [])
  | ob :: rest =>
      match obIndexCompareBlockKey bkey ob.bkey with
      | .eq => (some ob, ob :: rest)
      | .lt => if createFlag then (some ⟨bkey, 0, []⟩, ⟨bkey, 0, []⟩ :: ob :: rest)
          else (none, ob :: rest)
      | .gt => ((getObEntryEx bkey createFlag rest).1,
          ob :: (getObEntryEx bkey createFlag rest).2)

namespace OBHashtable

variable (htable : OBHashtable)

/-- `OB_INDEX_SET_HASHTABLE_LOCK`: the bucket of a key. -/
def bucketIndex (bkey : FSBlockKey) : Nat := bkey.fsCalcBlockHashcode % htable.capacity

def setBucket (bkey : FSBlockKey) (bucket : List OBEntry) : OBHashtable :=
  { htable with buckets := Function.update htable.buckets (htable.bucketIndex bkey) bucket }

/-- `ob_index_get_ob_entry_ex`. -/
def getObEntry (bkey : FSBlockKey) : Option OBEntry :=
  (getObEntryEx bkey false (htable.buckets (htable.bucketIndex bkey))).1

/-- Change the entry of a block in place. -/
def setObEntry (ob : OBEntry) : OBHashtable :=
  htable.setBucket ob.bkey
    ((htable.buckets (htable.bucketIndex ob.bkey)).map fun other =>
      if other.bkey = ob.bkey then ob else other)

/-- `OB_INDEX_DELETE_OB_ENTRY`: unlink the entry of a block. -/
def deleteObEntry (bkey : FSBlockKey) : OBHashtable :=
  htable.setBucket bkey
    ((htable.buckets (htable.bucketIndex bkey)).filter fun other => other.bkey ≠ bkey)

/-- The entries in the order of a walk over the buckets. -/
def entries : List OBEntry := (List.range htable.capacity).flatMap htable.buckets

/-- The slices of a block; a block without entry has none. -/
def slicesOf (bkey : FSBlockKey) : List OBSliceEntry :=
  match htable.getObEntry bkey with
  | some ob => ob.slices
  | none => []

end OBHashtable

/-- `ob_index_init_htable_ex`, for a capacity already rounded to a prime. -/
def obIndexInitHtableEx (capacity : Nat) : OBHashtable :=
  ⟨capacity, fun _ => [], false, false⟩

/-- `ob_index_alloc_slice_ex`: the entry of the block exists afterwards, so that
the new slice can point to it. -/
def obIndexAllocSliceEx (bkey : FSBlockKey) (htable : OBHashtable) : OBHashtable :=
  htable.setBucket bkey
    (getObEntryEx bkey true (htable.buckets (htable.bucketIndex bkey))).2

/-- `ob_index_reclaim_lock`: the entry, if there is one, counts one reclaimer more. -/
def obIndexReclaimLock (bkey : FSBlockKey) (htable : OBHashtable) : Option OBHashtable :=
  (htable.getObEntry bkey).map fun ob =>
    htable.setObEntry { ob with reclaimingCount := ob.reclaimingCount + 1 }

/-- `ob_index_reclaim_unlock`. -/
def obIndexReclaimUnlock (bkey : FSBlockKey) (htable : OBHashtable) : OBHashtable :=
  match htable.getObEntry bkey with
  | some ob => htable.setObEntry { ob with reclaimingCount := ob.reclaimingCount - 1 }
  | none => htable

section Slices

variable (sl : UniqSkiplist OBSliceEntry.key)

/-! ## Slices of one block -/

/-- `do_delete_slice`. -/
def doDeleteSlice (htable : OBHashtable)
    (state : List OBSliceEntry × FSStorageAllocatorManager) (slice : OBSliceEntry) :
    List OBSliceEntry × FSStorageAllocatorManager :=
  ((sl.delete state.1 slice.key).2,
    if htable.modifySallocator then
      (storageAllocatorDeleteSlice slice htable.modifyUsedSpace state.2).2
    else state.2)

/-- `do_add_slice`. -/
def doAddSlice (htable : OBHashtable)
    (state : List OBSliceEntry × FSStorageAllocatorManager) (slice : OBSliceEntry) :
    Errno × List OBSliceEntry × FSStorageAllocatorManager :=
  match sl.insert state.1 slice with
  | (.ok, chain) =>
      if htable.modifySallocator then
        ((storageAllocatorAddSlice slice htable.modifyUsedSpace state.2).1, chain,
          (storageAllocatorAddSlice slice htable.modifyUsedSpace state.2).2)
      else (.ok, chain, state.2)
  | (result, chain) => (result, chain, state.2)

/-- The two arrays and the counters that `add_slice` fills before it changes the
skiplist. -/
structure AddSliceScan where
  addSliceArray : List OBSliceEntry
  delSliceArray : List OBSliceEntry
  newSpaceStart : Int
  incAlloc : Int

/-- The look at the previous node in `add_slice`. -/
def addSlicePrevious (slice : OBSliceEntry) : Option OBSliceEntry → AddSliceScan
  | none => ⟨[], [], slice.ssize.offset, 0⟩
  | some curr =>
      if slice.ssize.offset < curr.sliceEnd then
        ⟨curr.fragment curr.ssize.offset (slice.ssize.offset - curr.ssize.offset) ::
            (if slice.sliceEnd < curr.sliceEnd then
              [curr.fragment slice.sliceEnd (curr.sliceEnd - slice.sliceEnd)] else []),
          [curr], curr.sliceEnd, 0⟩
      else ⟨[], [], slice.ssize.offset, 0⟩

/-- The loop over the following nodes in `add_slice`. -/
def addSliceLoop (slice : OBSliceEntry) : List OBSliceEntry → AddSliceScan → AddSliceScan
  | [], scan => scan
  | curr :: rest, scan =>
      if slice.sliceEnd ≤ curr.ssize.offset then scan
      else
        let incAlloc := if scan.newSpaceStart < curr.ssize.offset then
          scan.incAlloc + (curr.ssize.offset - scan.newSpaceStart) else scan.incAlloc
        if slice.sliceEnd < curr.sliceEnd then
          ⟨scan.addSliceArray ++
              [curr.fragment slice.sliceEnd (curr.sliceEnd - slice.sliceEnd)],
            scan.delSliceArray ++ [curr], curr.sliceEnd, incAlloc⟩
        else
          addSliceLoop slice rest
            ⟨scan.addSliceArray, scan.delSliceArray ++ [curr], curr.sliceEnd, incAlloc⟩

/-- Both looks of `add_slice` together. -/
def addSliceScan (chain : List OBSliceEntry) (slice : OBSliceEntry) : AddSliceScan :=
  let found := sl.findGe chain slice.key
  addSliceLoop slice found.2 (addSlicePrevious slice found.1.getLast?)

/-- `add_slice` on the chain of one block: the result, `inc_alloc`, the chain and
the trunk bookkeeping afterwards. -/
def addSlice (htable : OBHashtable) (chain : List OBSliceEntry) (slice : OBSliceEntry)
    (sa : FSStorageAllocatorManager) :
    Errno × Int × List OBSliceEntry × FSStorageAllocatorManager :=
  if chain = [] then
    let added := doAddSlice sl htable (chain, sa) slice
    (added.1, slice.ssize.length, added.2)
  else
    let scan := addSliceScan sl chain slice
    let incAlloc := if scan.newSpaceStart < slice.sliceEnd then
      scan.incAlloc + (slice.sliceEnd - scan.newSpaceStart) else scan.incAlloc
    let deleted := scan.delSliceArray.foldl (doDeleteSlice sl htable) (chain, sa)
    let refilled := scan.addSliceArray.foldl
      (fun state fragment => (doAddSlice sl htable state fragment).2) deleted
    let added := doAddSlice sl htable refilled slice
    (added.1, incAlloc, added.2)

/-- The arrays and the counter that `delete_slices` fills. -/
structure DeleteSlicesScan where
  addSliceArray : List OBSliceEntry
  delSliceArray : List OBSliceEntry
  decAlloc : Int

/-- The look at the previous node in `delete_slices`. -/
def deleteSlicesPrevious (range : FSSliceSize) : Option OBSliceEntry → DeleteSlicesScan
  | none => ⟨[], [], 0⟩
  | some curr =>
      let sliceEnd := range.offset + range.length
      if range.offset < curr.sliceEnd then
        if sliceEnd < curr.sliceEnd then
          ⟨[curr.fragment curr.ssize.offset (range.offset - curr.ssize.offset),
              curr.fragment sliceEnd (curr.sliceEnd - sliceEnd)], [curr], range.length⟩
        else
          ⟨[curr.fragment curr.ssize.offset (range.offset - curr.ssize.offset)], [curr],
            curr.sliceEnd - range.offset⟩
      else ⟨[], [], 0⟩

/-- The loop over the following nodes in `delete_slices`. -/
def deleteSlicesLoop (sliceEnd : Int) :
    List OBSliceEntry → DeleteSlicesScan → DeleteSlicesScan
  | [], scan => scan
  | curr :: rest, scan =>
      if sliceEnd ≤ curr.ssize.offset then scan
      else if sliceEnd < curr.sliceEnd then
        ⟨scan.addSliceArray ++ [curr.fragment sliceEnd (curr.sliceEnd - sliceEnd)],
          scan.delSliceArray ++ [curr], scan.decAlloc + (sliceEnd - curr.ssize.offset)⟩
      else
        deleteSlicesLoop sliceEnd rest
          ⟨scan.addSliceArray, scan.delSliceArray ++ [curr],
            scan.decAlloc + curr.ssize.length⟩

/-- Both looks of `delete_slices` together. -/
def deleteSlicesScan (chain : List OBSliceEntry) (range : FSSliceSize) : DeleteSlicesScan :=
  let found := sl.findGe chain range.offset
  deleteSlicesLoop (range.offset + range.length) found.2
    (deleteSlicesPrevious range found.1.getLast?)

/-- `delete_slices` on the chain of one block: the result, `dec_alloc`, the chain
and the trunk bookkeeping afterwards. -/
def deleteSlices (htable : OBHashtable) (chain : List OBSliceEntry) (range : FSSliceSize)
    (sa : FSStorageAllocatorManager) :
    Errno × Int × List OBSliceEntry × FSStorageAllocatorManager :=
  if chain = [] then (.enoent, 0, chain, sa)
  else
    let scan := deleteSlicesScan sl chain range
    if scan.delSliceArray = [] then (.enoent, scan.decAlloc, chain, sa)
    else
      let deleted := scan.delSliceArray.foldl (doDeleteSlice sl htable) (chain, sa)
      let refilled := scan.addSliceArray.foldl
        (fun state fragment => (doAddSlice sl htable state fragment).2) deleted
      (.ok, scan.decAlloc, refilled)

/-- The look at the previous node in `get_slices`. -/
def getSlicesPrevious (range : FSSliceSize) : Option OBSliceEntry → List OBSliceEntry
  | none => []
  | some curr =>
      if range.offset < curr.sliceEnd then
        [sliceDup curr range.offset
          (min curr.sliceEnd (range.offset + range.length) - range.offset)]
      else []

/-- The loop over the following nodes in `get_slices`. -/
def getSlicesLoop (sliceEnd : Int) : List OBSliceEntry → List OBSliceEntry
  | [] => []
  | curr :: rest =>
      if sliceEnd ≤ curr.ssize.offset then []
      else if sliceEnd < curr.sliceEnd then
        sliceDup curr curr.ssize.offset (sliceEnd - curr.ssize.offset) ::
          getSlicesLoop sliceEnd rest
      else curr :: getSlicesLoop sliceEnd rest

/-- `get_slices` on the chain of one block. -/
def getSlices (chain : List OBSliceEntry) (range : FSSliceSize) :
    Errno × List OBSliceEntry :=
  let found := sl.findGe chain range.offset
  let sarray := getSlicesPrevious range found.1.getLast? ++
    getSlicesLoop (range.offset + range.length) found.2
  (if sarray = [] then .enoent else .ok, sarray)

/-! ## Index calls -/

/-- The number after `*sn = __sync_add_and_fetch(&SLICE_BINLOG_SN, 1)`, taken only
by a caller that passes `sn`. -/
def nextSn (withSn : Bool) (sn : Nat) : Nat := if withSn then sn + 1 else sn

/-- `ob_index_add_slice_ex`.  The slice points to its entry, which
`ob_index_alloc_slice_ex` made. -/
def obIndexAddSliceEx (withSn : Bool) (slice : OBSliceEntry) (state : IndexState) :
    Errno × Int × IndexState :=
  match state.htable.getObEntry slice.ob with
  | none => (.enoent, 0, state)
  | some ob =>
      let added := addSlice sl state.htable ob.slices slice state.sallocator
      (added.1, added.2.1,
        ⟨state.htable.setObEntry { ob with slices := added.2.2.1 }, added.2.2.2,
          if added.1 = .ok then nextSn withSn state.sliceBinlogSn else state.sliceBinlogSn⟩)

/-- `ob_index_alloc_slice_ex` followed by `ob_index_add_slice_ex`: a caller gets
its slice from the former. -/
def allocAndAddSlice (withSn : Bool) (slice : OBSliceEntry) (state : IndexState) :
    Errno × Int × IndexState :=
  obIndexAddSliceEx sl withSn slice
    { state with htable := obIndexAllocSliceEx slice.ob state.htable }

/-- `ob_index_add_slice_by_binlog`: the same without a sequence number. -/
def obIndexAddSliceByBinlog (slice : OBSliceEntry) (state : IndexState) : Errno × IndexState :=
  ((obIndexAddSliceEx sl false slice state).1, (obIndexAddSliceEx sl false slice state).2.2)

/-- `ob_index_delete_slices_ex`. -/
def obIndexDeleteSlicesEx (withSn : Bool) (bsKey : FSBlockSliceKeyInfo) (state : IndexState) :
    Errno × Int × IndexState :=
  match state.htable.getObEntry bsKey.block with
  | none => (.enoent, 0, state)
  | some ob =>
      let deleted := deleteSlices sl state.htable ob.slices bsKey.slice state.sallocator
      let htable := state.htable.setObEntry { ob with slices := deleted.2.2.1 }
      if deleted.1 = .ok then
        (.ok, deleted.2.1,
          ⟨if deleted.2.2.1 = [] then htable.deleteObEntry bsKey.block else htable,
            deleted.2.2.2, nextSn withSn state.sliceBinlogSn⟩)
      else (deleted.1, deleted.2.1, ⟨htable, deleted.2.2.2, state.sliceBinlogSn⟩)

/-- The bookkeeping loop of `ob_index_delete_block_ex`. -/
def deleteBlockSlices (htable : OBHashtable) (slices : List OBSliceEntry)
    (sa : FSStorageAllocatorManager) : FSStorageAllocatorManager :=
  if htable.modifySallocator then
    slices.foldl (fun sa slice =>
      (storageAllocatorDeleteSlice slice htable.modifyUsedSpace sa).2) sa
  else sa

/-- `ob_index_delete_block_ex`. -/
def obIndexDeleteBlockEx (withSn : Bool) (bkey : FSBlockKey) (state : IndexState) :
    Errno × Int × IndexState :=
  match state.htable.getObEntry bkey with
  | none => (.enoent, 0, state)
  | some ob =>
      let decAlloc := (ob.slices.map fun slice => slice.ssize.length).sum
      let sa := deleteBlockSlices state.htable ob.slices state.sallocator
      if 0 < decAlloc then
        (.ok, decAlloc,
          ⟨state.htable.deleteObEntry bkey, sa, nextSn withSn state.sliceBinlogSn⟩)
      else (.enoent, decAlloc, ⟨state.htable.deleteObEntry bkey, sa, state.sliceBinlogSn⟩)

/-- `ob_index_get_slices_ex`. -/
def obIndexGetSlicesEx (bsKey : FSBlockSliceKeyInfo) (htable : OBHashtable) :
    Errno × List OBSliceEntry :=
  match htable.getObEntry bsKey.block with
  | none => (.enoent, [])
  | some ob => getSlices sl ob.slices bsKey.slice

end Slices

end FastStore.Storage
