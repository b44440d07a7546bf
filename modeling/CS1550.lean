import CS1550.Lib.Paging
import CS1550.Vmsim.PageTable
import CS1550.Vmsim.Access
import CS1550.Vmsim.Resident
import CS1550.Vmsim.Oracle
import CS1550.Vmsim.Victim
import CS1550.Vmsim.Consistency
import CS1550.Vmsim.Optimality
import CS1550.Lib.Writeback
import CS1550.Vmsim.Runs
import CS1550.Vmsim.Statistics
import CS1550.Vmsim.Fifo
import CS1550.Vmsim.Clock
import CS1550.Lib.ShiftRegister
import CS1550.Vmsim.History
import CS1550.Vmsim.Furthest
import CS1550.Aptsim.Program
import CS1550.Aptsim.Invariant
import CS1550.Aptsim.Exclusion
import CS1550.Aptsim.Safety
import CS1550.Aptsim.Quota
import CS1550.Aptsim.MutexHolder
import CS1550.Fs.Disk
import CS1550.Fs.Handlers
import CS1550.Lib.TwoRuns
import CS1550.Fs.Rules
import CS1550.Fs.Blocks
import CS1550.Fs.Bitmap
import CS1550.Lib.Table
import CS1550.Fs.Lookup
import CS1550.Fs.Frame
import CS1550.Fs.Create
import CS1550.Fs.Write
import CS1550.Fs.Read
import CS1550.Fs.Runs
import CS1550.Fs.Allocator
import CS1550.Fs.Atomicity
import CS1550.Fs.Ownership
import CS1550.Fs.Contents
import CS1550.Fs.ReadContract
import CS1550.Fs.Overwrite
import CS1550.Fs.Namespace
import CS1550.Fs.Capacity
import CS1550.Fs.Resolution
import CS1550.Fs.Uninitialised
import CS1550.Fs.Concurrent
import CS1550.Fs.LongWrite
import CS1550.Fs.Remount
import CS1550.Lib.Logged
import CS1550.Fs.Buffers
import CS1550.Xv6.Proc
import CS1550.Xv6.Scheduler
import CS1550.Xv6.Priority
import CS1550.Xv6.Pass
import CS1550.Xv6.Calls
import CS1550.Xv6.Family
import CS1550.Xv6.Lifecycle
import CS1550.Lib.Pool
import CS1550.Vm.Paging
import CS1550.Vm.Mapping
import CS1550.Vm.Uvm
import CS1550.Vm.Process
import CS1550.Vm.Refinement
import CS1550.Vm.Exec
import CS1550.Vm.Syscall
import CS1550.Vm.Fault
import CS1550.Vm.Reclaim
import CS1550.Vm.Args
import CS1550.Lib.Region
import CS1550.Vm.Footprint
import CS1550.Vm.System
import CS1550.Vm.Private
import CS1550.Vm.Escape
import CS1550.Lib.Redo
import CS1550.Lib.Progress
import CS1550.Log.Disk
import CS1550.Log.Admission
import CS1550.Log.Recovery
import CS1550.Log.Runs
import CS1550.Fs.Service
import CS1550.Lib.Competitive
import CS1550.Vmsim.Competitive
import CS1550.Lib.Circular
import CS1550.Lib.RefCount
import CS1550.Pipes.Buffer
import CS1550.Pipes.Files
import CS1550.Pipes.References
import CS1550.Pipes.Steps
import CS1550.Pipes.Stream
import CS1550.Pipes.Runs
