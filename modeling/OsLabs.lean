import OsLabs.Emufs.Refinement
import OsLabs.Emufs.ReadBack
import OsLabs.Emufs.Mirror
import OsLabs.Emufs.Reopen
import OsLabs.Emufs.Isolation
import OsLabs.Emufs.WriteFailures
import OsLabs.Emufs.Descriptors
import OsLabs.Emufs.FileSizes
import OsLabs.Emufs.AllOrNothing
import OsLabs.Emufs.Unaligned
import OsLabs.Emufs.Names
import OsLabs.Taskmaster.Acceptance
import OsLabs.Taskmaster.Routing
import OsLabs.Taskmaster.Recycling
import OsLabs.Taskmaster.Dispatch
import OsLabs.Taskmaster.Wakeup
import OsLabs.Taskmaster.Completion
import OsLabs.Taskmaster.Killed
import OsLabs.Taskmaster.Order
import OsLabs.Taskmaster.Publication
import OsLabs.Taskmaster.Return
import OsLabs.Semaphore.Safety
import OsLabs.Semaphore.Killed
import OsLabs.Prodcon.Deadlock
import OsLabs.Rwlock.Waiting
import OsLabs.Barrier.Rounds
import OsLabs.LazyVm.Equivalence
import OsLabs.LazyVm.Panics
import OsLabs.Lifecycle.Failures
import OsLabs.Reparent.Ancestry
import OsLabs.Shell.Beegees
import OsLabs.Shell.Plumb
import OsLabs.Shell.Sequence
import OsLabs.Shell.Turtle
import OsLabs.Shell.Pipeline
import OsLabs.Taskmaster.Lookup
import OsLabs.Taskmaster.CallFrame
import OsLabs.Paging.Memory
import OsLabs.Paging.Translation
import OsLabs.Paging.Lookup
import OsLabs.Paging.Arguments
import OsLabs.Paging.Fault
import OsLabs.Lib.Words
import OsLabs.Shell.Tokenize
import OsLabs.Commands.Head
import OsLabs.Reparent.Marks
import OsLabs.Reparent.Pauses
import OsLabs.KernelPipe.Program
import OsLabs.KernelPipe.Stream
import OsLabs.KernelPipe.Wakeups
import OsLabs.Log.Admission
import OsLabs.Log.Crashes
import OsLabs.Files.Ends
import OsLabs.Lib.Scanning
import OsLabs.Sh.Completeness
import OsLabs.Sh.RoundTrip
import OsLabs.Sh.Run
import OsLabs.Console.Lines
