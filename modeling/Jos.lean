import Jos.Lib.Run
import Jos.Lib.Fold
import Jos.Kern.Boot
import Jos.Kern.Spaces
import Jos.Kern.Integrity
import Jos.Kern.MemInit
import Jos.Kern.PageInit
import Jos.Kern.BootSpec
import Jos.Kern.MemMap
import Jos.Kern.Mmio
import Jos.Kern.UserPtr
import Jos.Kern.Refs
import Jos.Kern.OneCpu
import Jos.Kern.Messages
import Jos.Kern.Atomic
import Jos.Kern.PageCalls
import Jos.Kern.PageFault
import Jos.Kern.SetTrapframe
import Jos.Kern.Transfer
import Jos.Kern.Confinement
import Jos.Kern.EnvIds
import Jos.Kern.StabSpec
import Jos.Kern.DebugInfo
import Jos.Kern.Console
import Jos.Kern.MpConfig
import Jos.User.Paging
import Jos.Kern.Switch
import Jos.Kern.Trap
import Jos.Kern.UserMem
import Jos.User.PipeFifo
import Jos.User.PipeWrap
import Jos.Fs.CacheRuns
import Jos.Fs.CachePages
import Jos.Fs.Restart
import Jos.Kern.Spinlock
import Jos.Kern.RoundRobin
import Jos.Fs.WriteBack
import Jos.Fs.Transfers
import Jos.Fs.Zeroes
import Jos.Fs.ReadOnly
import Jos.Fs.Create
import Jos.Fs.Truncate
import Jos.Fs.Slots
import Jos.Kern.TxRing
import Jos.Kern.RxRing
import Jos.Net.MboxFifo
import Jos.User.Reclaim
import Jos.User.Arena
import Jos.Net.Buffers
import Jos.Net.Input
import Jos.User.Strtol
import Jos.User.Memmove
import Jos.User.Readline
import Jos.User.ShellToken
import Jos.User.ShellRun
import Jos.User.Args
import Jos.Hw.HashTable
import Jos.Hw.ShellParse
import Jos.User.Httpd
import Jos.User.FormatSpec
import Jos.User.StackSpec
import Jos.Fs.Serv
import Jos.Fs.OpenTable
import Jos.Fs.RequestData
