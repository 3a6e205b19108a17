import Xv6.BufferList
import Xv6.CommitBuffers
import Xv6.ConsoleLines
import Xv6.CopyIsolation
import Xv6.CowFork
import Xv6.ExecSafety
import Xv6.ExitWaitRun
import Xv6.FileReferences
import Xv6.ForkedCopyout
import Xv6.GrepLines
import Xv6.HeapGrowth
import Xv6.InodeLeaks
import Xv6.KeyTables
import Xv6.LazyMemory
import Xv6.LogRecovery
import Xv6.LogReservation
import Xv6.MailboxReceives
import Xv6.MailboxWakeups
import Xv6.MapFailures
import Xv6.MemoryGrowth
import Xv6.MkfsImage
import Xv6.PipeReads
import Xv6.PipeWakeups
import Xv6.Printf
import Xv6.ProcTable
import Xv6.ReadOnlyPages
import Xv6.SchedulingRun
import Xv6.SharedBytes
import Xv6.SharedOffsets
import Xv6.ShellStrings
import Xv6.SleepWakeup
import Xv6.Sleeplocks
import Xv6.SpaceTeardown
import Xv6.VirtioRun
