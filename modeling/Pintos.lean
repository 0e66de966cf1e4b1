import Pintos.Lib.Run
import Pintos.Lib.OrderedInsert
import Pintos.Lib.Ownership
import Pintos.Lib.Waiting
import Pintos.Lib.LockCode
import Pintos.Lib.LockSystem
import Pintos.Lib.IntrusiveList
import Pintos.Lib.Memory
import Pintos.Lib.Tokens
import Pintos.Lib.Clock
import Pintos.Lib.Grouped
import Pintos.Threads.Kernel
import Pintos.Threads.Basic
import Pintos.Threads.System
import Pintos.Threads.Queues
import Pintos.Threads.Effects
import Pintos.Threads.Consistency
import Pintos.Threads.Alarm
import Pintos.Threads.Dispatch
import Pintos.Threads.Interrupt
import Pintos.Vm.State
import Pintos.Vm.Contracts
import Pintos.Vm.Swap
import Pintos.Vm.Frame
import Pintos.Vm.Page
import Pintos.Vm.Process
import Pintos.Vm.System
import Pintos.Vm.Changes
import Pintos.Vm.Tables
import Pintos.Vm.Handles
import Pintos.Vm.Sound
import Pintos.Vm.Loading
import Pintos.Vm.Lifecycle
import Pintos.Vm.Effects
import Pintos.Vm.FrameTable
import Pintos.Vm.SwapSlots
import Pintos.Vm.Contents
import Pintos.Vm.MappedPages
import Pintos.Vm.MappedFiles
import Pintos.Vm.Pins
import Pintos.Vm.FreshPages
import Pintos.Vm.Executable
import Pintos.Vm.AddressSpace
import Pintos.Vm.SegmentPages
import Pintos.Vm.LazyLoading
import Pintos.Vm.Backing
import Pintos.Vm.RemoveMmap
import Pintos.Vm.Unmapping
import Pintos.Vm.Rollback
import Pintos.Vm.PinnedPages
import Pintos.Vm.Permissions
import Pintos.Vm.Buffers
import Pintos.Vm.UserPointers
import Pintos.Vm.PageIn
import Pintos.Vm.SyscallArguments
import Pintos.Vm.FailedLoads
import Pintos.Vm.SwapStore
import Pintos.Vm.SecondChance
import Pintos.Vm.Eviction
import Pintos.Vm.EvictionRuns
import Pintos.Vm.EvictionAlone
import Pintos.Locks.Paging
import Pintos.Locks.Syscall
import Pintos.Locks.Discipline
import Pintos.Locks.LockOrder
import Pintos.Locks.Balance
import Pintos.Locks.LockList
import Pintos.Locks.ReleaseLocks
import Pintos.Locks.LockNodes
import Pintos.Files.Syscall
import Pintos.Files.Descriptors
import Pintos.Files.Table
import Pintos.Files.Exit
import Pintos.Wait.Original
import Pintos.Wait.Records
import Pintos.Wait.Children
import Pintos.Wait.Steps
import Pintos.Wait.Protocol
import Pintos.Wait.Orphans
import Pintos.Wait.ChildProcess
import Pintos.Wait.Answers
import Pintos.Create.ThreadCreate
import Pintos.Create.CommandPages
import Pintos.Arguments.Layout
import Pintos.Arguments.SetupStack
import Pintos.Arguments.StackLayout
import Pintos.Arguments.StackBounds
import Pintos.Arguments.Original
import Pintos.Arguments.Tokenize
import Pintos.Arguments.PushArgs
import Pintos.Project2.LoadSegment
import Pintos.Project2.Syscall
import Pintos.Project2.FileCheck
import Pintos.Project2.Dispatch
import Pintos.Project2.LockBalance
import Pintos.Project2.Arguments
import Pintos.Synch.Kernel
import Pintos.Synch.System
import Pintos.Synch.Effects
import Pintos.Synch.Queues
import Pintos.Synch.Elem
import Pintos.Synch.Served
import Pintos.Synch.RoundRobin
import Pintos.Synch.Semaphores
import Pintos.Synch.Conditions
import Pintos.Synch.Locks
import Pintos.Synch.Exclusion
import Pintos.Synch.Tids
import Pintos.Synch.Refinement
import Pintos.Lib.Layout
import Pintos.Vm.Leaving
import Pintos.Vm.ReadOnly
import Pintos.Vm.Faults
import Pintos.Vm.Image
import Pintos.Elf.Format
import Pintos.Elf.Stack
import Pintos.Elf.Load
import Pintos.Elf.Exec
import Pintos.Elf.Image
import Pintos.Elf.System
import Pintos.Elf.Accept
