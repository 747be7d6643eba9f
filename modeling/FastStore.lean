import FastStore.Util.Chain
import FastStore.Util.System
import FastStore.Util.Threads
import FastStore.Util.UniqSkiplist
import FastStore.Util.Extent
import FastStore.Util.Footprint
import FastStore.Util.Window
import FastStore.Util.Wire
import FastStore.Util.Decimal
import FastStore.Util.LineBuffers
import FastStore.Util.Linked
import FastStore.Util.Ring
import FastStore.Util.QSort
import FastStore.Storage.Types
import FastStore.Storage.TrunkAllocator
import FastStore.Storage.ObjectBlockIndex
import FastStore.Storage.IndexChain
import FastStore.Storage.IndexTable
import FastStore.Storage.ByteMap
import FastStore.Storage.SpaceChange
import FastStore.Binlog.Types
import FastStore.Recovery.BinlogDedup
import FastStore.Recovery.DedupTables
import FastStore.Recovery.DedupOutput
import FastStore.Recovery.DedupCoverage
import FastStore.Recovery.DedupVersions
import FastStore.Recovery.DataRecovery
import FastStore.Recovery.RecoveryRuns
import FastStore.Storage.TrunkUsage
import FastStore.Storage.AddSliceMemory
import FastStore.Storage.AllocateHoles
import FastStore.Storage.UsageRuns
import FastStore.Binlog.SliceLoader
import FastStore.Binlog.StoreRestart
import FastStore.Binlog.BinlogFunc
import FastStore.Binlog.BinlogCheck
import FastStore.Storage.SliceIo
import FastStore.Server.DataThread
import FastStore.Server.DataThreadWait
import FastStore.Storage.ReclaimMigrate
import FastStore.Storage.TrunkIdInfo
import FastStore.Storage.BucketMemory
import FastStore.Storage.BucketRuns
import FastStore.Cluster.Types
import FastStore.Cluster.SelectMaster
import FastStore.Cluster.MasterElection
import FastStore.Cluster.ElectionQueues
import FastStore.Cluster.ClusterCfg
import FastStore.Cluster.ElectedMaster
import FastStore.Recovery.RecoveryThread
import FastStore.Recovery.RecoveryRequests
import FastStore.Cluster.GroupTables
import FastStore.Cluster.LeaderElection
import FastStore.Cluster.ActiveWithdrawal
import FastStore.Cluster.TopologyEvents
import FastStore.Cluster.TopologyPush
import FastStore.Cluster.TopologySync
import FastStore.Storage.TrunkFreelist
import FastStore.Storage.FreelistSound
import FastStore.Storage.FreelistSpace
import FastStore.Storage.FreelistSteps
import FastStore.Storage.FreelistRuns
import FastStore.Storage.SliceAlloc
import FastStore.Storage.FreelistRoom
import FastStore.Storage.TrunkUtilEvent
import FastStore.Replication.RpcResultRing
import FastStore.Replication.RpcResultRuns
import FastStore.Replication.SlaveQueues
import FastStore.Server.AcceptedUpdates
import FastStore.Server.DataUpdate
import FastStore.Replication.RpcRequest
import FastStore.Replication.OnlineHandoff
import FastStore.Replication.RpcPackage
import FastStore.Replication.CountedMessages
import FastStore.Binlog.LogLines
import FastStore.Binlog.LogBuffers
import FastStore.Binlog.ReplicaLines
import FastStore.Binlog.ReplicaPosition
import FastStore.Binlog.CheckConsistency
import FastStore.Util.Overlay
import FastStore.Api.Types
import FastStore.Api.WriteCombine
import FastStore.Api.CombineSound
import FastStore.Api.CombineMemory
import FastStore.Api.PrereadTable
import FastStore.Api.PrereadSound
import FastStore.Api.PrereadRuns
import FastStore.Storage.IovecArray
import FastStore.Util.BinarySearch
import FastStore.Storage.StorePathIndex
import FastStore.Storage.PathArrays
import FastStore.Util.Coverage
import FastStore.Util.Descriptors
import FastStore.Storage.SliceRead
import FastStore.Storage.ReadAssembly
import FastStore.Client.SliceRead
import FastStore.Client.SpaceStat
import FastStore.Dio.ReadBufferPool
import FastStore.Dio.ReadWindow
import FastStore.Dio.TrunkFdCache
import FastStore.Dio.TrunkReadThread
import FastStore.Dio.WriteIovec
import FastStore.Dio.TrunkWriteThread
import FastStore.Dio.TrunkWriteBatch
import FastStore.Dio.TrunkWriteRuns
import FastStore.Dio.TrunkWriteAnswers
import FastStore.Util.LinkedWalk
import FastStore.Util.MemoryChains
import FastStore.Binlog.LoadOrder
import FastStore.Binlog.SliceDispatch
import FastStore.Binlog.ParallelLoad
import FastStore.Binlog.ParallelLoadRuns
import FastStore.Storage.SortedSubdirs
import FastStore.Binlog.TrunkBinlog
import FastStore.Storage.TrunkMaker
import FastStore.Storage.TrunkMakerRuns
import FastStore.Recovery.BinlogFetch
import FastStore.Recovery.FetchRuns
import FastStore.Recovery.ReadThread
import FastStore.Recovery.ReadThreadRuns
