import YeetKernel.SleepList
import YeetKernel.Priority
import YeetKernel.RoundRobin
import YeetKernel.Pids
import YeetKernel.PipeWaiters
import YeetKernel.DiskWaiters
import YeetKernel.LogDisk
import YeetKernel.LogSpace
import YeetKernel.RefExact
import YeetKernel.InodeCoherence
import YeetKernel.AllocFail
import YeetKernel.SpaceLeak
import YeetKernel.PageRuns
import YeetKernel.Copyout
import YeetKernel.LoadSafe
import YeetKernel.UserBuffer
import YeetKernel.LogBudget
import YeetKernel.MkfsWellFormed
import YeetKernel.PromoteExact
import YeetKernel.ScanExit
import YeetKernel.ScanKill
import YeetKernel.WaitChildren
import YeetKernel.Accounting
import YeetKernel.ExecAtomic
import YeetKernel.SharedWrites
import YeetKernel.GrepInput
import YeetKernel.MallocSize
import YeetKernel.Chmod
import YeetKernel.Console
import YeetKernel.Memmove
import YeetKernel.MpTable
import YeetKernel.Spinlock
import YeetKernel.Dirlink
