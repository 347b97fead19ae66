import Rapidsmpf.Lib.Transition
import Rapidsmpf.Lib.Channel
import Rapidsmpf.Lib.LittleEndian
import Rapidsmpf.Lib.Fallible
import Rapidsmpf.Lib.ListFacts
import Rapidsmpf.Memory.Buffer
import Rapidsmpf.Exchange.Tag
import Rapidsmpf.Exchange.Link
import Rapidsmpf.Exchange.Progress
import Rapidsmpf.Exchange.Chain
import Rapidsmpf.Exchange.Delivery
import Rapidsmpf.Exchange.Completion
import Rapidsmpf.Shuffle.Chunk
import Rapidsmpf.Shuffle.Shuffler
import Rapidsmpf.Shuffle.System
import Rapidsmpf.Shuffle.Conservation
import Rapidsmpf.Shuffle.ExactlyOnce
import Rapidsmpf.Shuffle.Signal
import Rapidsmpf.Lib.Doubling
import Rapidsmpf.Coll.AllReduce
import Rapidsmpf.Coll.Butterfly
import Rapidsmpf.Coll.Rounds
import Rapidsmpf.Coll.Agreement
import Rapidsmpf.Coll.Matching
import Rapidsmpf.Lib.Circular
import Rapidsmpf.Coll.Chunk
import Rapidsmpf.Coll.AllGather
import Rapidsmpf.Coll.Gathering
import Rapidsmpf.Coll.Circulation
import Rapidsmpf.Coll.GatherChain
import Rapidsmpf.Coll.Gathered
import Rapidsmpf.Coll.GatherReuse
import Rapidsmpf.Coll.ManyRanks
import Rapidsmpf.Memory.Resource
import Rapidsmpf.Memory.Overcommit
import Rapidsmpf.Memory.Accounting
import Rapidsmpf.Memory.Overbooking
import Rapidsmpf.Streaming.Message
import Rapidsmpf.Streaming.SpillableMessages
import Rapidsmpf.Streaming.Channel
import Rapidsmpf.Streaming.Outlet
import Rapidsmpf.Streaming.UnboundedFanout
import Rapidsmpf.Streaming.Purging
import Rapidsmpf.Streaming.BoundedFanout
import Rapidsmpf.Streaming.Fanout
import Rapidsmpf.Streaming.ReserveOrWait
import Rapidsmpf.Streaming.Answering
import Rapidsmpf.Coll.Insertion
import Rapidsmpf.Coll.Announcement
import Rapidsmpf.Coll.SparseAlltoall
import Rapidsmpf.Coll.SparseReceiving
import Rapidsmpf.Coll.SparseSending
import Rapidsmpf.Coll.SparseLinks
import Rapidsmpf.Coll.SparseCalls
import Rapidsmpf.Coll.SparseProgress
import Rapidsmpf.Coll.SparseDelivery
import Rapidsmpf.Statistics.Serialization
import Rapidsmpf.Config.Options
import Rapidsmpf.Config.Serialization
import Rapidsmpf.Lib.GreedyCover
import Rapidsmpf.Memory.Spill
import Rapidsmpf.Coll.PostBox
import Rapidsmpf.Shuffle.ReceivedChunks
import Rapidsmpf.Streaming.MessageStore
import Rapidsmpf.Streaming.DataRequest
import Rapidsmpf.Bootstrap.FileBarrier
import Rapidsmpf.Bootstrap.Cleanup
import Rapidsmpf.Lib.GenerationBarrier
import Rapidsmpf.Bootstrap.SocketServer
import Rapidsmpf.Bootstrap.CpuList
import Rapidsmpf.Bootstrap.CpuFormat
import Rapidsmpf.Lib.Run
import Rapidsmpf.Lib.AtomicStore
import Rapidsmpf.Bootstrap.SocketLines
import Rapidsmpf.Bootstrap.SocketStore
import Rapidsmpf.Progress.ProgressThread
import Rapidsmpf.Progress.Flag
import Rapidsmpf.Exchange.Parts
import Rapidsmpf.Exchange.MessageIds
import Rapidsmpf.Exchange.ReceiveBuffers
import Rapidsmpf.Lib.OrderedSearch
import Rapidsmpf.Streaming.Selection
import Rapidsmpf.Streaming.SpillExtension
import Rapidsmpf.Memory.ScopedMemoryRecord
import Rapidsmpf.Memory.RmmResourceAdaptor
import Rapidsmpf.Streaming.Lineariser
import Rapidsmpf.Lib.CyclicRedundancy
import Rapidsmpf.Config.CheckedReading
import Rapidsmpf.Config.Checksum
import Rapidsmpf.Config.FailedGet
import Rapidsmpf.Utils.StringList
import Rapidsmpf.Lib.Decimal
import Rapidsmpf.Utils.Stoi
import Rapidsmpf.Utils.ParseBool
import Rapidsmpf.Utils.Scanf
import Rapidsmpf.Lib.NearestEven
import Rapidsmpf.Utils.ParseNBytes
import Rapidsmpf.Lib.EvenSplit
import Rapidsmpf.Lib.FrontLoaded
import Rapidsmpf.Utils.ChunkIndices
import Rapidsmpf.Shuffle.Contiguous
import Rapidsmpf.Shuffle.WireFormat
import Rapidsmpf.Coll.WireFormat
import Rapidsmpf.Communicator.ControlMessages
import Rapidsmpf.Lib.ActiveMessages
import Rapidsmpf.Communicator.Connection
import Rapidsmpf.Communicator.Discovery
import Rapidsmpf.Communicator.Stages
import Rapidsmpf.Communicator.ClientSteps
import Rapidsmpf.Communicator.RootSteps
import Rapidsmpf.Communicator.Exchanges
import Rapidsmpf.Communicator.Barrier
import Rapidsmpf.Communicator.BarrierReturns
import Rapidsmpf.Lib.OrderedMap
import Rapidsmpf.Statistics.Merge
import Rapidsmpf.Lib.Traced
import Rapidsmpf.Statistics.CheckedReading
import Rapidsmpf.Bootstrap.CpuListLoop
import Rapidsmpf.Exchange.UniqueIds
import Rapidsmpf.Memory.Arithmetic
import Rapidsmpf.Lib.Positions
import Rapidsmpf.Coll.TestSome
