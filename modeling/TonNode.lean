import TonNode.HashmapLabelReaders
import TonNode.HashmapAugCalls
import TonNode.HashmapRootAug
import TonNode.ValidatorImports
import TonNode.ValidatorQueueUpdate
import TonNode.ValidatorValueFlow
import TonNode.ValidatorShardLegality
import TonNode.SimplexAgreement
import TonNode.SimplexConfluence
import TonNode.SimplexSkipVotes
import TonNode.MsgQueueMerger
import TonNode.CellRepresentations
import TonNode.BocWellFormed
import TonNode.BocDecompressChain
import TonNode.VmConstant
import TonNode.RldpTransferSafety
import TonNode.BlockHandlesSafety
import TonNode.SimplexParents
import TonNode.SimplexSkipIntervals
import TonNode.ExecutorGas
import TonNode.ExecutorStorageFees
import TonNode.DhtOverlayNodes
import TonNode.VmSerialization
