import SudoOS.Proofs.Pmm
import SudoOS.Proofs.Paging
import SudoOS.Proofs.Kheap
import SudoOS.Proofs.Proc
import SudoOS.Proofs.Ramfs
import SudoOS.Proofs.Ownership
import SudoOS.Proofs.Vmm
import SudoOS.Lifecycle
import SudoOS.Directory
import SudoOS.Proofs.Lifecycle
import SudoOS.Sys
import SudoOS.Proofs.Sys
import SudoOS.Proofs.FileData
import SudoOS.Proofs.Listing
import SudoOS.Proofs.Walk
import SudoOS.Proofs.Cwd
import SudoOS.Proofs.Console
import SudoOS.Kstack
import SudoOS.Proofs.KernelHalf
import SudoOS.Elf
import SudoOS.Proofs.Elf
import SudoOS.Proofs.Brk
import SudoOS.Proofs.HeapGrowth
import SudoOS.UserHeap
import SudoOS.Proofs.UserHeap
import SudoOS.Proofs.Mapping
import SudoOS.Proofs.Rights
import SudoOS.Proofs.MapSuccess
import SudoOS.Proofs.RangeEnd
import SudoOS.Proofs.MapFailure
import SudoOS.Proofs.Supply
import SudoOS.Proofs.UpperHalf
import SudoOS.Fork
import SudoOS.Proofs.Fork
import SudoOS.Proofs.Teardown
import SudoOS.Proofs.DeepCopy
import SudoOS.Proofs.BootPages
import SudoOS.Proofs.LongPath
import SudoOS.Exec
import SudoOS.Proofs.StackFailure
import SudoOS.HeapCalls
import SudoOS.Proofs.HeapCalls
import SudoOS.ElfAccess
import SudoOS.Proofs.ElfAccess
import SudoOS.Execve
import SudoOS.Proofs.Execve
import SudoOS.Proofs.ExecFailure
import SudoOS.Cpu
import SudoOS.Proofs.Stores
import SudoOS.Proofs.FreeFrames
import SudoOS.Proofs.Image
import SudoOS.Proofs.PagingInit
import SudoOS.Proofs.Names
import SudoOS.Proofs.OpenFailure
import SudoOS.Io
import SudoOS.Proofs.Stat
import SudoOS.Proofs.Transfers
import SudoOS.Proofs.Reopen
import SudoOS.Lib.Stack
import SudoOS.Proofs.Yield
import SudoOS.Trap
import SudoOS.Proofs.Trap
import SudoOS.Proofs.KernelStacks
import SudoOS.Bytes
import SudoOS.Proofs.Bytes
import SudoOS.Lib.Numeral
import SudoOS.Numbers
import SudoOS.Keyboard
import SudoOS.Lib.Ring
import SudoOS.Proofs.Keyboard
import SudoOS.Proofs.Numbers
import SudoOS.Lib.Circle
import SudoOS.ListNode
import SudoOS.Proofs.ListNode
import SudoOS.Proofs.Strtok
import SudoOS.Proofs.Shell
import SudoOS.Proofs.TrailingSlash
import SudoOS.ConsoleAccess
import SudoOS.Proofs.ConsoleRange
import SudoOS.Tasks
import SudoOS.Proofs.Preemption
import SudoOS.Proofs.PrivateMemory
import SudoOS.Proofs.RoundRobin
import SudoOS.Lib.Format
import SudoOS.Printf
import SudoOS.Proofs.Commands
import SudoOS.Proofs.ShellFiles
import SudoOS.Lib.FileTree
import SudoOS.Proofs.NameSpace
import SudoOS.Proofs.Isolation
