import SsuOs.Threads.Progress
import SsuOs.Threads.ReaderLock
import SsuOs.Threads.RwLock
import SsuOs.Threads.SemCount
import SsuOs.Threads.SemQueue
import SsuOs.Threads.TokenRing
import SsuOs.Heap.Coalesce
import SsuOs.Heap.Reinit
import SsuOs.Heap.Release
import SsuOs.Heap.MapFailure
import SsuOs.Xv6.Switches
import SsuOs.Xv6.Parentage
import SsuOs.Xv6.Kills
import SsuOs.Xv6.LogRoom
import SsuOs.Xv6.PipeStream
import SsuOs.Ssufs.BlockUse
import SsuOs.Ssufs.Compose
import SsuOs.Ssufs.Handles
import SsuOs.Ssufs.LongNames
import SsuOs.Ssufs.Offsets
import SsuOs.Ssufs.Content
import SsuOs.Shell.Input
import SsuOs.Shell.Rewrite
import SsuOs.Shell.ReadEnds
import SsuOs.Ps.Cmdline
import SsuOs.Lib.Radix
import SsuOs.Xv6.MemoryRuns
