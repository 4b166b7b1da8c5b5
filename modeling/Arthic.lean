import Arthic.PmmOwnership
import Arthic.PmmBoot
import Arthic.KheapRuns
import Arthic.KheapOrders
import Arthic.KheapStale
import Arthic.SchedulerRuns
import Arthic.Mutexes
import Arthic.Interrupts
import Arthic.FileRefusals
import Arthic.FileConservation
import Arthic.FileRoom
import Arthic.MountSafety
import Arthic.SyscallSafety
import Arthic.LoaderTraces
import Arthic.ElfHeaders
import Arthic.PipeKills
import Arthic.CounterThreads
import Arthic.KheapPreemption
import Arthic.LineBuffers
import Arthic.LongMap
import Arthic.Exposure
import Arthic.ContextSwitch
import Arthic.SavedFlags
import Arthic.PointerWindow
import Arthic.WriteExecute
import Arthic.WriteExecute64
import Arthic.StaleMemory
import Arthic.FrameRuns
import Arthic.SleepDeadlines
import Arthic.LineEditing
import Arthic.ShellCommands
import Arthic.UserPointers
import Arthic.ProcessLifecycle
import Arthic.SegmentLoading
import Arthic.WritableSharing
import Arthic.Library.Linked
import Arthic.Library.PageTree
import Arthic.Library.RingBuffer
import Arthic.Preemption
import Arthic.LongReturns
import Arthic.UsermodeReturns
import Arthic.CounterRace
import Arthic.KeyTyping
import Arthic.DiskDriver
import Arthic.ProgramPipe
import Arthic.InterruptController
import Arthic.Descriptors
