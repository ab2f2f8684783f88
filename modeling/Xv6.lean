import Xv6.RedBlack.Tree
import Xv6.RedBlack.Links
import Xv6.RedBlack.Search
import Xv6.Queue.Stable
import Xv6.Kernel.Param
import Xv6.Kernel.Proc
import Xv6.Cfs.Shape
import Xv6.Cfs.Rotation
import Xv6.Cfs.InsertFix
import Xv6.Cfs.RemoveFix
import Xv6.Cfs.Weight
import Xv6.Cfs.RunQueue
import Xv6.Cfs.QueueSpec
import Xv6.Cfs.Runs
import Xv6.Cfs.Slices
import Xv6.Threads.Count
import Xv6.Family.Machine
import Xv6.Family.Tree
import Xv6.Family.Reaping
import Xv6.Family.Kill
import Xv6.Sched.Machine
import Xv6.Sched.Effect
import Xv6.Sched.Books
import Xv6.Sched.Membership
import Xv6.Sched.Accounts
import Xv6.Journal.Redo
import Xv6.Logging.Machine
import Xv6.Logging.Protocol
import Xv6.Logging.Reservation
import Xv6.Logging.Crash
import Xv6.Refs.Count
import Xv6.Format.Codec
import Xv6.Ownership.Exact
import Xv6.Kernel.Copy
import Xv6.Fs.Layout
import Xv6.Fs.Inode
import Xv6.Fs.Slots
import Xv6.Fs.Contents
import Xv6.Fs.Truncation
import Xv6.Fs.Ownership
import Xv6.Fs.Holes
import Xv6.Programs.Fallible
import Xv6.Fs.Path
import Xv6.Runs.Reachable
import Xv6.Ring.Buffer
import Xv6.Pipes.Machine
import Xv6.Pipes.Stream
import Xv6.Pipes.Wakeup
import Xv6.Pools.Transfer
import Xv6.Radix.Table
import Xv6.Vm.Memory
import Xv6.Vm.PageTable
import Xv6.Vm.Walk
import Xv6.Vm.Mapping
import Xv6.Vm.Translation
import Xv6.Vm.Release
import Xv6.Vm.Exec
import Xv6.Vm.Space
import Xv6.Vm.Supervisor
import Xv6.Vm.Loading
import Xv6.Procs.Machine
import Xv6.Procs.Files
import Xv6.Procs.Pages
import Xv6.Procs.Calls
import Xv6.Procs.Lifecycle
import Xv6.Procs.Boot
import Xv6.Procs.Conservation
import Xv6.Extents.Cover
import Xv6.Links.Chain
import Xv6.Umalloc.Machine
import Xv6.Umalloc.FreeList
import Xv6.Umalloc.Loops
import Xv6.Umalloc.Runs
import Xv6.Shell.Parser
import Xv6.Shell.Tokens
import Xv6.Shell.Grammar
import Xv6.Shell.Accept
import Xv6.Fs.Reading
import Xv6.Mkfs.Program
import Xv6.Mkfs.Volume
import Xv6.Mkfs.Append
import Xv6.Mkfs.Image
import Xv6.Mkfs.Main
import Xv6.Mkfs.Agreement
import Xv6.Fs.Writing
import Xv6.Fs.Files
import Xv6.Tables.Cells
import Xv6.Fs.Directory
import Xv6.Fs.Resolution
import Xv6.Vm.Copying
import Xv6.Procs.Contents
import Xv6.Procs.Exec
import Xv6.Moving.Loops
import Xv6.Strings.Memmove
import Xv6.Grep.Matcher
import Xv6.Grep.Lines
import Xv6.Shell.Strings
import Xv6.Cfs.FixLoop
import Xv6.Pipes.Reading
import Xv6.Umalloc.Sizes
import Xv6.Procs.Arguments
import Xv6.Family.Agreement
import Xv6.Assembly.Machine
import Xv6.Traps.Registers
import Xv6.Locks.Exclusive
import Xv6.Spinlocks.Discipline
