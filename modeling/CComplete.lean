import CComplete.Library.Machine
import CComplete.Library.Ring
import CComplete.Library.Bytes
import CComplete.Library.LittleEndian
import CComplete.Library.RecordFile
import CComplete.Library.TornWrite
import CComplete.Library.Memory
import CComplete.Library.Fifo
import CComplete.Library.SortedWindow
import CComplete.Library.LastRun
import CComplete.Library.Bisection
import CComplete.Library.Logged
import CComplete.Library.TimeLog
import CComplete.StaticQueue.Model
import CComplete.StaticQueue.Fifo
import CComplete.StateManager.Model
import CComplete.StateManager.Refinement
import CComplete.StateManager.RunLength
import CComplete.StaticQueue.Sharing
import CComplete.StaticQueue.Creation
import CComplete.StaticQueue.Printing
import CComplete.StaticQueue.Threads
import CComplete.StaticQueue.Interleaving
import CComplete.StaticQueue.Linearization
import CComplete.PacketStoreSdcard.Model
import CComplete.PacketStoreSdcard.Outcome
import CComplete.PacketStoreSdcard.Search
import CComplete.PacketStoreSdcard.Invariant
import CComplete.PacketStoreSdcard.StartSearch
import CComplete.PacketStoreSdcard.RangeRead
import CComplete.PacketStoreSdcard.Delete
import CComplete.PacketStoreSdcard.Region
import CComplete.PacketStoreSdcard.EmptyAnswers
import CComplete.PacketStoreSdcard.OpenFailures
import CComplete.PacketStoreSdcard.Interruption
import CComplete.PacketStoreSdcard.Fidelity
import CComplete.PacketStoreSdcard.LogRefinement
import CComplete.PacketStoreSdcard.InfoFile
import CComplete.PacketStoreSdcard.TornWrites
import CComplete.PacketStoreSdcard.TornRecovery
import CComplete.PacketStoreSdcard.PacketFile
import CComplete.PacketStoreSdcard.Printing
import CComplete.PacketStoreSdcard.AnyFailures
import CComplete.RamStorage.Model
import CComplete.RamStorage.Search
import CComplete.RamStorage.Distance
import CComplete.RamStorage.Invariant
import CComplete.RamStorage.RangeRead
import CComplete.RamStorage.ReadStatus
import CComplete.RamStorage.OldestNewest
import CComplete.RamStorage.Delete
import CComplete.RamStorage.DeleteAnyOrder
import CComplete.RamStorage.FailingCalls
import CComplete.RamStorage.Accesses
import CComplete.RamStorage.LogRefinement
import CComplete.RamStorage.Printing
import CComplete.CutTm.Model
import CComplete.CutTm.RoundTrip
import CComplete.CutTm.History
import CComplete.CutTm.Bounds
import CComplete.CutTm.Headers
import CComplete.CutTm.Reconstruct
import CComplete.TcpServer.Model
import CComplete.TcpServer.Framing
import CComplete.MainThread.Model
import CComplete.MainThread.Commands
import CComplete.MainThread.Lifecycle
import CComplete.MainThread.AfterMission
import CComplete.Stores.Agreement
import CComplete.StaticAllocation.Model
import CComplete.StaticAllocation.Safety
import CComplete.StaticAllocation.Initialization
import CComplete.BinarySearch.Model
import CComplete.BinarySearch.Correctness
import CComplete.BinarySearch.Robustness
import CComplete.BinarySearch.CallCount
