import BimbleOS.Lib.Word
import BimbleOS.Lib.Trace
import BimbleOS.Lib.Runs
import BimbleOS.Config
import BimbleOS.Memory.Heap
import BimbleOS.Memory.HeapSpec
import BimbleOS.Memory.HeapForeign
import BimbleOS.Memory.HeapRuns
import BimbleOS.Memory.HeapSafety
import BimbleOS.Memory.HeapRoom
import BimbleOS.Lib.Links
import BimbleOS.Task.TaskList
import BimbleOS.Task.TaskQueue
import BimbleOS.Lib.Bytes
import BimbleOS.Lib.X86
import BimbleOS.Lib.Paged
import BimbleOS.Task.Switch
import BimbleOS.Lib.Window
import BimbleOS.Disk.Streamer
import BimbleOS.Fs.Fat16Read
import BimbleOS.Fs.Fat16Table
import BimbleOS.Memory.Paging
import BimbleOS.Memory.PagingSpec
import BimbleOS.Loader.Elf
import BimbleOS.Task.Process
import BimbleOS.Task.ElfMapping
import BimbleOS.Task.ElfImage
import BimbleOS.Lib.Exec
import BimbleOS.Fs.Fat16Item
import BimbleOS.Kernel.State
import BimbleOS.Kernel.Terminal
import BimbleOS.Kernel.Layout
import BimbleOS.Kernel.Gdt
import BimbleOS.Lib.Ring
import BimbleOS.Keyboard.Keyboard
import BimbleOS.Task.ProcessHeap
import BimbleOS.Task.Isolation
import BimbleOS.Task.IsolationRuns
import BimbleOS.Fs.PathParser
import BimbleOS.Fs.Fat16
import BimbleOS.Fs.Directory
import BimbleOS.Fs.File
import BimbleOS.Fs.FileReads
import BimbleOS.Memory.HeapClient
import BimbleOS.Fs.DiskTree
import BimbleOS.Fs.DirectoryEntry
import BimbleOS.Fs.FileHeap
import BimbleOS.Fs.FileTable
import BimbleOS.Fs.OpenFiles
import BimbleOS.Loader.ElfLoad
import BimbleOS.Fs.FileUse
import BimbleOS.Fs.FileBlocks
import BimbleOS.Fs.FileTag
import BimbleOS.Loader.ElfRuns
import BimbleOS.Memory.PagingNew
import BimbleOS.Memory.PagingRuns
import BimbleOS.Memory.PagingUse
import BimbleOS.Task.TaskNew
import BimbleOS.Task.ProcessLoad
import BimbleOS.Task.ProcessTerminate
import BimbleOS.Task.ProcessMemory
import BimbleOS.Task.ProcessData
import BimbleOS.Stdlib.Command
import BimbleOS.Task.LoadRuns
import BimbleOS.Task.LoadFailure
import BimbleOS.Task.LoadProgress
import BimbleOS.Task.ProgramPages
import BimbleOS.Task.ProcessArguments
import BimbleOS.Task.ArgumentRuns
import BimbleOS.Task.ArgumentAllocations
import BimbleOS.Isr80h.Process
import BimbleOS.Isr80h.InvokeError
import BimbleOS.Task.LoadMemory
import BimbleOS.Isr80h.InvokeArguments
import BimbleOS.Isr80h.CopyString
import BimbleOS.Lib.Writes
import BimbleOS.Isr80h.KernelPath
import BimbleOS.Task.RoundRobin
import BimbleOS.Memory.HeapOwners
import BimbleOS.Task.ProcessBlocks
import BimbleOS.Task.ProcessEnd
import BimbleOS.Isr80h.Exit
import BimbleOS.Task.ProcessLeaks
import BimbleOS.Task.LoadFrame
import BimbleOS.Task.ProcessSlots
import BimbleOS.Task.RawLoads
import BimbleOS.Memory.HeapLoans
import BimbleOS.Memory.HeapChunks
import BimbleOS.Fs.Faults
import BimbleOS.Fs.DirectoryCount
import BimbleOS.Fs.DataRegion
import BimbleOS.Fs.TidyTree
import BimbleOS.Fs.FilePlaces
import BimbleOS.Fs.FileEnd
import BimbleOS.Fs.FileSeek
import BimbleOS.Fs.Resolve
import BimbleOS.Fs.ClusterSize
import BimbleOS.Fs.PathParts
import BimbleOS.Fs.FileName
import BimbleOS.Fs.LoadedDirectory
import BimbleOS.Lib.Access
import BimbleOS.Stdlib.StrtokRuns
import BimbleOS.Stdlib.Realine
import BimbleOS.Lib.Decimal
import BimbleOS.Stdlib.Itoa
import BimbleOS.Lib.Format
import BimbleOS.Stdlib.Printf
import BimbleOS.Task.ElfHeaders
import BimbleOS.Task.ArgumentEnd
import BimbleOS.Lib.X86Ops
import BimbleOS.Idt.Entry
import BimbleOS.Idt.Idt
import BimbleOS.Keyboard.Classic
import BimbleOS.Stdlib.TypedLine
import BimbleOS.Lib.AtaDrive
import BimbleOS.Disk.Ata
import BimbleOS.Lib.Sheet
import BimbleOS.Kernel.Screen
import BimbleOS.Isr80h.Output
import BimbleOS.Lib.Simulation
import BimbleOS.Task.Multitasking
import BimbleOS.Stdlib.CommandList
import BimbleOS.Isr80h.SystemRun
import BimbleOS.Isr80h.ProgramArguments
import BimbleOS.Stdlib.Lines
import BimbleOS.Isr80h.Console
import BimbleOS.Programs.Shell
import BimbleOS.Fs.Filesystems
import BimbleOS.Task.ArgumentFrame
import BimbleOS.Task.StartedPrograms
import BimbleOS.Task.AddressSpaces
import BimbleOS.Task.ProgramHistory
