import Aesd.RingHistory
import Aesd.Segments
import Aesd.Runs
import Aesd.Store
import Aesd.Heap
import Aesd.Frames
import Aesd.Traces
import Aesd.Words
import Aesd.CircularBuffer
import Aesd.EntryLookup
import Aesd.Driver
import Aesd.WriteEffect
import Aesd.DeviceInvariant
import Aesd.DeviceContent
import Aesd.CommandLog
import Aesd.ReadDrain
import Aesd.SizeCounter
import Aesd.SeekTo
import Aesd.HeldSlots
import Aesd.ConcurrentReads
import Aesd.DeviceLock
import Aesd.CString
import Aesd.Scanning
import Aesd.ClientHandler
import Aesd.ServerState
import Aesd.DeviceCalls
import Aesd.PacketReceive
import Aesd.Packets
import Aesd.OwnershipLedger
import Aesd.HandlerPhases
import Aesd.Descriptors
import Aesd.Sessions
import Aesd.BlockOwnership
import Aesd.Ledger
import Aesd.ModuleUnload
import Aesd.FailedWrites
import Aesd.LookupWidths
import Aesd.ReceiveLoop
import Aesd.SeekTargets
import Aesd.SessionModel
import Aesd.SessionStages
import Aesd.PacketCompletion
import Aesd.SessionOutcome
import Aesd.Segmentation
import Aesd.SizeWalk
import Aesd.StreamCuts
import Aesd.FileCalls
import Aesd.FilePosition
import Aesd.ReceiveBuffer
import Aesd.ThreadFunc
import Aesd.ThreadBuffer
import Aesd.ThreadBounds
import Aesd.OpenFiles
import Aesd.FileViews
import Aesd.PollingReader
import Aesd.SharedHeap
import Aesd.ModuleLoads
import Aesd.ModuleLives
import Aesd.SeekRequest
import Aesd.Conversation
import Aesd.FileMutex
import Aesd.ThreadPool
import Aesd.PackageLog
import Aesd.PackageOrder
import Aesd.MutexRelease
import Aesd.AcceptLoop
import Aesd.ThreadList
import Aesd.ClientInfos
import Aesd.ClientSockets
import Aesd.AcceptResources
import Aesd.ServerSetup
import Aesd.SetupDescriptors
