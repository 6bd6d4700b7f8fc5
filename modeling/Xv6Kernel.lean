import Xv6Kernel.Promotion
import Xv6Kernel.BornAlive
import Xv6Kernel.ReadyOrder
import Xv6Kernel.TableScan
import Xv6Kernel.ExitWait
import Xv6Kernel.LogCrash
import Xv6Kernel.LogWaiters
import Xv6Kernel.CreateInode
import Xv6Kernel.PipeSleepers
import Xv6Kernel.PageRuns
import Xv6Kernel.CallBalance
import Xv6Kernel.DiskQueue
import Xv6Kernel.ArgStack
import Xv6Kernel.MkfsSizes
import Xv6Kernel.CpuTime
import Xv6Kernel.SetPriority
import Xv6Kernel.ExecGate
import Xv6Kernel.GetProcs
import Xv6Kernel.WholeWrites
import Xv6Kernel.Numerals
import Xv6Kernel.GrepLoop
