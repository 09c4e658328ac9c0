import GekkoFwd.Lib.WhileLoop
import GekkoFwd.Lib.Words
import GekkoFwd.Lib.DecText
import GekkoFwd.Lib.CellMemory
import GekkoFwd.Lib.ByteFile
import GekkoFwd.Lib.LocalFs
import GekkoFwd.Lib.KeyPart
import GekkoFwd.Lib.BlockSplit
import GekkoFwd.Lib.RpcProgram
import GekkoFwd.Lib.RpcRules
import GekkoFwd.Lib.Interleaving
import GekkoFwd.Lib.PrefixScan
import GekkoFwd.Lib.MapM
import GekkoFwd.Lib.FdTable
import GekkoFwd.Lib.TaskScript
import GekkoFwd.Lib.NamingTree
import GekkoFwd.Basic
import GekkoFwd.Path
import GekkoFwd.ChunkCalc
import GekkoFwd.Distributor
import GekkoFwd.ChunkSplit
import GekkoFwd.Forwarding
import GekkoFwd.ChunkStorage
import GekkoFwd.Metadata
import GekkoFwd.Merge
import GekkoFwd.MetadataDb
import GekkoFwd.Rpc
import GekkoFwd.DataHandler
import GekkoFwd.ClientOps
import GekkoFwd.ConcurrentWrite
import GekkoFwd.ConcurrentRead
import GekkoFwd.OpenFileMap
import GekkoFwd.FileOps
import GekkoFwd.DirRecords
import GekkoFwd.InternalFds
import GekkoFwd.FdHooks
import GekkoFwd.InternalCalls
import GekkoFwd.PathResolver
import GekkoFwd.WorkingDir
import GekkoFwd.Proofs.ChunkPartition
import GekkoFwd.Proofs.IoPartition
import GekkoFwd.Proofs.StorageSpec
import GekkoFwd.Proofs.DataPath
import GekkoFwd.Proofs.WriteOutcome
import GekkoFwd.Proofs.ReadAfterWrite
import GekkoFwd.Proofs.TruncateDaemon
import GekkoFwd.Proofs.TruncateOwners
import GekkoFwd.Proofs.StorageIsolation
import GekkoFwd.Proofs.MergeLaws
import GekkoFwd.Proofs.MergeSplitting
import GekkoFwd.Proofs.MetadataKeys
import GekkoFwd.Proofs.ClientSpec
import GekkoFwd.Proofs.DirectoryListing
import GekkoFwd.Proofs.NamespaceTree
import GekkoFwd.Proofs.ExclusiveCreate
import GekkoFwd.Proofs.SizeRefinement
import GekkoFwd.Proofs.WriteLimits
import GekkoFwd.Proofs.WriteSteps
import GekkoFwd.Proofs.ConcurrentWrites
import GekkoFwd.Proofs.FdAllocation
import GekkoFwd.Proofs.DescriptorHooks
import GekkoFwd.Proofs.InternalDescriptors
import GekkoFwd.Proofs.InternalBookkeeping
import GekkoFwd.Proofs.InternalRuns
import GekkoFwd.Proofs.ErrorCodes
import GekkoFwd.Proofs.TransferErrors
import GekkoFwd.Proofs.HookErrors
import GekkoFwd.Proofs.Remapping
import GekkoFwd.Proofs.BufferLifetime
import GekkoFwd.Proofs.PathText
import GekkoFwd.Proofs.PathResolution
import GekkoFwd.Proofs.ResolverWalk
import GekkoFwd.Proofs.CanonicalKeys
import GekkoFwd.Proofs.PathTransparency
import GekkoFwd.Proofs.ExternalCalls
import GekkoFwd.Proofs.WorkingDirectory
import GekkoFwd.Proofs.Seeking
import GekkoFwd.Proofs.LargeTransfers
import GekkoFwd.Proofs.FilePositions
import GekkoFwd.Proofs.VectoredIo
import GekkoFwd.Proofs.ChunkEnumeration
import GekkoFwd.Proofs.ChunkNumbers
import GekkoFwd.Proofs.RemovedData
import GekkoFwd.Proofs.SparseReads
import GekkoFwd.Proofs.ReadSteps
import GekkoFwd.Proofs.ReadWhileWriting
import GekkoFwd.Proofs.WritePrefix
import GekkoFwd.Proofs.ChunkArithmetic
import GekkoFwd.Proofs.TextForms
import GekkoFwd.Proofs.ComponentMatch
import GekkoFwd.Proofs.DirentTransfer
import GekkoFwd.Proofs.DirectoryRecords
import GekkoFwd.Proofs.DirectoryCalls
import GekkoFwd.Proofs.InodeNumbers
import GekkoFwd.Proofs.SubtreeParts
import GekkoFwd.Proofs.ClientRequests
import GekkoFwd.Proofs.SubtreeIsolation
import GekkoFwd.Proofs.ConcurrentListing
import GekkoFwd.Proofs.ChunkRequests
import GekkoFwd.Proofs.FileSystemSpec
import GekkoFwd.Proofs.FileSystemState
import GekkoFwd.Proofs.FileSystemFiles
import GekkoFwd.Proofs.FileSystemRefinement
import GekkoFwd.Lib.SharedObject
import GekkoFwd.OpenFileThreads
import GekkoFwd.Proofs.OpenFileSharing
import GekkoFwd.Proofs.OrdinaryThreads
import GekkoFwd.Proofs.ThreadAlone
