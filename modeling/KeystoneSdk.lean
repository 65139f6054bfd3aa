import KeystoneSdk.ByteMemory
import KeystoneSdk.AccessLog
import KeystoneSdk.Stopping
import KeystoneSdk.HostCommon
import KeystoneSdk.Report
import KeystoneSdk.EdgeCall
import KeystoneSdk.EdgeDispatch
import KeystoneSdk.EdgeSyscall
import KeystoneSdk.PageStore
import KeystoneSdk.HexStream
import KeystoneSdk.ReportJson
import KeystoneSdk.ReportBounds
import KeystoneSdk.Page
import KeystoneSdk.ElfFile
import KeystoneSdk.HashUtil
import KeystoneSdk.PageWalk
import KeystoneSdk.RunStream
import KeystoneSdk.HostLoader
import KeystoneSdk.Measurement
import KeystoneSdk.AddressSpace
import KeystoneSdk.Refinement
import KeystoneSdk.Simulation
import KeystoneSdk.Replay
import KeystoneSdk.LoadRequests
import KeystoneSdk.PageTableMap
import KeystoneSdk.SegmentPages
import KeystoneSdk.LoadedImage
import KeystoneSdk.HostileImage
import KeystoneSdk.Lifecycle
import KeystoneSdk.AppString
import KeystoneSdk.BlockHeap
import KeystoneSdk.TinyMalloc
import KeystoneSdk.HeapRow
import KeystoneSdk.HeapMalloc
import KeystoneSdk.HeapFree
import KeystoneSdk.HeapRealloc
import KeystoneSdk.HeapAlign
import KeystoneSdk.HeapCalls
import KeystoneSdk.HeapRuns
import KeystoneSdk.HeapBreak
import KeystoneSdk.HeapNull
import KeystoneSdk.HeapLimits
import KeystoneSdk.EdgeBounds
import KeystoneSdk.RunnerOptions
import KeystoneSdk.BucketStores
import KeystoneSdk.StoreBlocks
import KeystoneSdk.StoreRequests
import KeystoneSdk.AppMove
import KeystoneSdk.AppCompare
import KeystoneSdk.HexSpelling
import KeystoneSdk.CreatingWalk
import KeystoneSdk.SequentialCopies
import KeystoneSdk.OpamBatch
import KeystoneSdk.FileProxy
import KeystoneSdk.FileReads
import KeystoneSdk.FileService
import KeystoneSdk.EdgeHandlers
import KeystoneSdk.HandlerStatus
import KeystoneSdk.UntrustedRange
import KeystoneSdk.UntrustedPages
import KeystoneSdk.HashedPages
import KeystoneSdk.Prealloc
import KeystoneSdk.Returning
import KeystoneSdk.JsonParser
import KeystoneSdk.JsonGrammar
import KeystoneSdk.JsonTokens
import KeystoneSdk.JsonNumbers
import KeystoneSdk.JsonValues
import KeystoneSdk.JsonParsing
import KeystoneSdk.JsonDump
import KeystoneSdk.Sponge
import KeystoneSdk.Keccak
import KeystoneSdk.Sha3
import KeystoneSdk.Sha3Rounds
import KeystoneSdk.Sha3Digest
import KeystoneSdk.LoadedRegions
import KeystoneSdk.LoadPages
import KeystoneSdk.Placement
import KeystoneSdk.InitRun
import KeystoneSdk.LoadCollisions
