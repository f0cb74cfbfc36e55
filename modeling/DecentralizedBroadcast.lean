import DecentralizedBroadcast.Lib.Machine
import DecentralizedBroadcast.Lib.History
import DecentralizedBroadcast.Lib.ClockedDelivery
import DecentralizedBroadcast.CppString
import DecentralizedBroadcast.Lib.OrderedMap
import DecentralizedBroadcast.PerfectLink
import DecentralizedBroadcast.LinkInvariant
import DecentralizedBroadcast.PerfectLinkContract
import DecentralizedBroadcast.CausalBroadcast
import DecentralizedBroadcast.UniformBroadcast
import DecentralizedBroadcast.Stack
import DecentralizedBroadcast.ClockText
import DecentralizedBroadcast.Batches
import DecentralizedBroadcast.Trace
import DecentralizedBroadcast.SoundTrace
import DecentralizedBroadcast.ProcessState
import DecentralizedBroadcast.StackInvariant
import DecentralizedBroadcast.CausalOrder
import DecentralizedBroadcast.UniformDelivery
import DecentralizedBroadcast.SettledDelivery
import DecentralizedBroadcast.ProcessLog
import DecentralizedBroadcast.Output
import DecentralizedBroadcast.OutputText
import DecentralizedBroadcast.OutputValid
import DecentralizedBroadcast.SharedSocket
import DecentralizedBroadcast.LcbThreads
import DecentralizedBroadcast.ClockCover
import DecentralizedBroadcast.Batchers
import DecentralizedBroadcast.LcbCalls
import DecentralizedBroadcast.PendingOrder
import DecentralizedBroadcast.UrbOrder
import DecentralizedBroadcast.AnyLink
import DecentralizedBroadcast.StartBroadcast
import DecentralizedBroadcast.NoFault
import DecentralizedBroadcast.PacketSize
import DecentralizedBroadcast.Fifo
import DecentralizedBroadcast.FifoPrefix
import DecentralizedBroadcast.LogExact
import DecentralizedBroadcast.PayloadText
import DecentralizedBroadcast.FifoPaths
import DecentralizedBroadcast.ReliableBroadcast
import DecentralizedBroadcast.RelayAck
import DecentralizedBroadcast.InputText
import DecentralizedBroadcast.HostsParser
import DecentralizedBroadcast.HostIds
import DecentralizedBroadcast.ConfigFile
import DecentralizedBroadcast.ConfigRead
import DecentralizedBroadcast.OrderedDelivery
import DecentralizedBroadcast.Lib.CausalService
import DecentralizedBroadcast.CausalRefinement
import DecentralizedBroadcast.Traffic
import DecentralizedBroadcast.RestAgreement
import DecentralizedBroadcast.ComingToRest
import DecentralizedBroadcast.StressTest
import DecentralizedBroadcast.StressEnd
import DecentralizedBroadcast.GeneratedFiles
import DecentralizedBroadcast.OutputFiles
import DecentralizedBroadcast.Datagram
import DecentralizedBroadcast.ReliableRuns
import DecentralizedBroadcast.ValidatorExact
import DecentralizedBroadcast.ReliableAgreement
import DecentralizedBroadcast.Lib.Locks
import DecentralizedBroadcast.OutputCausal
import DecentralizedBroadcast.ThreadLocks
import DecentralizedBroadcast.BebPaths
import DecentralizedBroadcast.UrbPaths
import DecentralizedBroadcast.Retransmission
import DecentralizedBroadcast.Lib.InfiniteRun
import DecentralizedBroadcast.FairRest
import DecentralizedBroadcast.FairDelivery
