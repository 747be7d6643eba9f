import FastStore.Storage.Types

/-!
# Binlog records

The operation types and sources that the slice binlog and the replica binlog
share, and the record of the replica binlog.
-/

namespace FastStore.Binlog

open FastStore.Storage

/-- `BINLOG_OP_TYPE_*`. -/
inductive BinlogOpType where
  | writeSlice
  | allocSlice
  | delSlice
  | delBlock
  | noOp
  deriving DecidableEq, Repr

/-- `BINLOG_SOURCE_*`. -/
inductive BinlogSource where
  | reclaim
  | rpcMaster
  | rpcSlave
  | replay
  deriving DecidableEq, Repr

/-- `BINLOG_IS_INTERNAL_RECORD`. -/
def binlogIsInternalRecord (opType : BinlogOpType) (dataVersion : Nat) : Bool :=
  opType == .noOp || dataVersion == 0

/-- A record of the replica binlog.  The slice of a block delete or no-op is not
set. -/
structure ReplicaBinlogRecord where
  opType : BinlogOpType
  source : BinlogSource
  bsKey : FSBlockSliceKeyInfo
  dataVersion : Nat
  deriving DecidableEq, Repr

namespace ReplicaBinlogRecord

/-- A slice record lies inside its block, as every request is checked
(`du_handler_parse_check_block_slice`). -/
def InBlock (record : ReplicaBinlogRecord) : Prop :=
  match record.opType with
  | .writeSlice | .allocSlice | .delSlice =>
      0 ≤ record.bsKey.slice.offset ∧ 0 < record.bsKey.slice.length ∧
        record.bsKey.slice.offset + record.bsKey.slice.length ≤ fsFileBlockSize
  | .delBlock | .noOp => True

instance (record : ReplicaBinlogRecord) : Decidable record.InBlock :=
  match opType : record.opType with
  | .writeSlice | .allocSlice | .delSlice =>
      decidable_of_iff (0 ≤ record.bsKey.slice.offset ∧ 0 < record.bsKey.slice.length ∧
        record.bsKey.slice.offset + record.bsKey.slice.length ≤ fsFileBlockSize)
        (by simp [InBlock, opType])
  | .delBlock | .noOp => .isTrue (by simp [InBlock, opType])

end ReplicaBinlogRecord

end FastStore.Binlog
