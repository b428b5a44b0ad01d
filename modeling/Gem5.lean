import Gem5.EventQueueRun
import Gem5.EventCheckpoint
import Gem5.RenameRollback
import Gem5.StackDistVerify
import Gem5.SkewedAssociative
import Gem5.TrieRun
import Gem5.AddrRangeStripes
import Gem5.AddrRangeExclude
import Gem5.PMP
import Gem5.CompressorsLossless
import Gem5.HuffmanCodes
import Gem5.MSHRQueueOrder
import Gem5.SnoopFilterTracking
import Gem5.PacketQueueDelivery
import Gem5.MemCtrlBookkeeping
import Gem5.DRAMInterface
import Gem5.ROBRun
import Gem5.LSQUnitForwarding
import Gem5.StoreSet
import Gem5.MessageBuffer
import Gem5.Topology
import Gem5.MemStateRun
import Gem5.FutexMap
import Gem5.TAGESquash
import Gem5.LoopPredictor
import Gem5.ReturnAddrStack
import Gem5.CompressedTags
import Gem5.MIExampleCoherence
import Gem5.MSICoherence
import Gem5.OwnedDMAWrite
import Gem5.ALUFreeListArray
import Gem5.ChunkGenerator
import Gem5.UncachedDMAWrite
import Gem5.AbstractMemory
import Gem5.MinorLSQ
import Gem5.AddrRangeMapDecode
import Gem5.PrefetchQueue
import Gem5.IntMath
