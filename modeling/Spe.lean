import Spe.RedBlackTree
import Spe.Transition
import Spe.Block
import Spe.Search
import Spe.Ledger
import Spe.Buffer
import Spe.BufferString
import Spe.BufferCapacity
import Spe.BufferFits
import Spe.Task
import Spe.TaskPlacement
import Spe.RunQueueLaw
import Spe.TimerLaw
import Spe.Framing
import Spe.Conn
import Spe.ConnSpec
import Spe.ConnCompletion
import Spe.ConnRun
import Spe.ConnWrite
import Spe.ConnRead
import Spe.ConnPhase
import Spe.Epoll
import Spe.World
import Spe.Slot
import Spe.SlotFrame
import Spe.WorldStep
import Spe.WorldConn
import Spe.ConnTimer
import Spe.Mutex
import Spe.Server
import Spe.ServerAccept
import Spe.ServerCrash
import Spe.BufferRefines
import Spe.EpollDispatch
import Spe.EpollKernel
import Spe.ConnFlags
import Spe.ConnMask
import Spe.WorldOps
import Spe.ConnTimeout
import Spe.Io
import Spe.BufferText
import Spe.Opt
import Spe.OptFormat
import Spe.SchedAlike
import Spe.ConnAlike
import Spe.WorldFrame
import Spe.WorldAlike
import Spe.ConnRecycle
import Spe.Descriptors
import Spe.WorkerTable
import Spe.MasterLoop
import Spe.HashChains
import Spe.Map
import Spe.Incremental
import Spe.Rpc
import Spe.RpcRequest
import Spe.RpcPackets
import Spe.TimerOrder
import Spe.TaskCause
import Spe.ConnDestroy
import Spe.BufferStores
import Spe.HandOver
import Spe.ConnDefined
import Spe.ReadAlloc
import Spe.BufferSearch
import Spe.BufferSplit
import Spe.BufferTrim
import Spe.OptMeaning
import Spe.OptExact
import Spe.OptBlanks
import Spe.OptWhole
import Spe.SignalLaw
import Spe.Links
import Spe.MapShape
import Spe.MapLinks
import Spe.MapHistory
import Spe.ConnSlot
import Spe.BufsAtomic
import Spe.SplitLaw
import Spe.Tpool
import Spe.WorkerLoop
import Spe.TpoolHandOff
import Spe.Extent
import Spe.ProcTitle
import Spe.TpoolShutdown
import Spe.SignalBounds
import Spe.Rounds
import Spe.SplitEnds
import Spe.Cells
import Spe.RbErase
import Spe.RbInsert
import Spe.TaskMemory
import Spe.TaskRefines
import Spe.RbSorted
import Spe.Family
import Spe.RpcService
import Spe.Cycle
