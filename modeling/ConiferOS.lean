import ConiferOS.Boot.AtaLbaRead
import ConiferOS.Config
import ConiferOS.Fs.ClusterChain
import ConiferOS.Fs.DescriptorTable
import ConiferOS.Fs.Descriptors
import ConiferOS.Fs.Directory
import ConiferOS.Fs.DirectoryLookup
import ConiferOS.Fs.Disk
import ConiferOS.Fs.DiskDriver
import ConiferOS.Fs.EndOfFile
import ConiferOS.Fs.Fat16
import ConiferOS.Fs.File
import ConiferOS.Fs.FileStream
import ConiferOS.Fs.Independence
import ConiferOS.Fs.Names
import ConiferOS.Fs.Opening
import ConiferOS.Fs.PathRendering
import ConiferOS.Fs.PathWalk
import ConiferOS.Fs.Regions
import ConiferOS.Fs.Resolve
import ConiferOS.Fs.SectorStream
import ConiferOS.Fs.Seeking
import ConiferOS.Gdt.SegmentDescriptors
import ConiferOS.Interrupt.Dispatch
import ConiferOS.Interrupt.Entry
import ConiferOS.Kernel.AddressSpace
import ConiferOS.Kernel.Calls
import ConiferOS.Kernel.ElfDescriptors
import ConiferOS.Kernel.FailedLoad
import ConiferOS.Kernel.IsolatedRuns
import ConiferOS.Kernel.Isolation
import ConiferOS.Kernel.Load
import ConiferOS.Kernel.LoadClaims
import ConiferOS.Kernel.LoadSteps
import ConiferOS.Kernel.PageTables
import ConiferOS.Kernel.Termination
import ConiferOS.Keyboard.Backspace
import ConiferOS.Keyboard.Keyboard
import ConiferOS.Keyboard.Overflow
import ConiferOS.Keyboard.Ps2
import ConiferOS.Lib.ByteMemory
import ConiferOS.Lib.CString
import ConiferOS.Lib.ForwardCopy
import ConiferOS.Lib.LinkedList
import ConiferOS.Lib.Numeral
import ConiferOS.Lib.Page
import ConiferOS.Lib.Purge
import ConiferOS.Lib.Ring
import ConiferOS.Lib.Run
import ConiferOS.Lib.Sheet
import ConiferOS.Lib.Stack
import ConiferOS.Lib.Tokens
import ConiferOS.Loader.Elf
import ConiferOS.Loader.ElfParsing
import ConiferOS.Loader.ElfSegments
import ConiferOS.Loader.Executable
import ConiferOS.Memory.BoundedCopy
import ConiferOS.Memory.Ends
import ConiferOS.Memory.FirstFit
import ConiferOS.Memory.Heap
import ConiferOS.Memory.HeapInvariant
import ConiferOS.Memory.HeapSpec
import ConiferOS.Memory.KernelHeap
import ConiferOS.Memory.Ownership
import ConiferOS.Memory.PageMap
import ConiferOS.Memory.Paging
import ConiferOS.Memory.PagingRefinement
import ConiferOS.Memory.Shielded
import ConiferOS.Memory.StrayFree
import ConiferOS.Memory.Strings
import ConiferOS.Print.Screen
import ConiferOS.Print.Terminal
import ConiferOS.Process.AllocationInvariant
import ConiferOS.Process.Allocations
import ConiferOS.Process.ArgumentPassing
import ConiferOS.Process.Arguments
import ConiferOS.Process.Execve
import ConiferOS.Process.ExecveArguments
import ConiferOS.Process.Mapping
import ConiferOS.Process.StringCopy
import ConiferOS.Process.UserCopy
import ConiferOS.Task.Context
import ConiferOS.Task.List
import ConiferOS.Task.ListInvariant
import ConiferOS.Task.Rotation
import ConiferOS.Task.Schedule
import ConiferOS.Task.ScheduleInvariant
import ConiferOS.Task.Session
import ConiferOS.User.Command
import ConiferOS.User.Display
import ConiferOS.User.Itoa
import ConiferOS.User.Printf
import ConiferOS.User.Readline
import ConiferOS.User.Shell
import ConiferOS.User.Strtok
import ConiferOS.User.SystemCalls
