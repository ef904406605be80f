import OSCourse.Library.PosixFile
import OSCourse.Library.Chunks
import OSCourse.BufferedIo.BufferedOpen
import OSCourse.BufferedIo.Flush
import OSCourse.BufferedIo.Preappend
import OSCourse.BufferedIo.Faults
import OSCourse.BufferedIo.FaultySessions
import OSCourse.BufferedIo.Read
import OSCourse.BufferedIo.Transparency
import OSCourse.BufferedIo.Alignment
import OSCourse.Library.TransitionSystem
import OSCourse.Scheduling.Proc
import OSCourse.Scheduling.Accumulator
import OSCourse.Scheduling.Fairness
import OSCourse.Scheduling.WakeRule
import OSCourse.Scheduling.Charging
import OSCourse.Library.WaitFor
import OSCourse.Scheduling.ProcLocks
import OSCourse.Scheduling.Deadlock
import OSCourse.Library.LockProgram
import OSCourse.Semaphore.Sem
import OSCourse.Semaphore.Locks
import OSCourse.Semaphore.Counting
import OSCourse.Semaphore.Freeing
import OSCourse.Library.Ring
import OSCourse.Newsroom.BoundedBuffer
import OSCourse.Newsroom.Message
import OSCourse.Library.MarkedStream
import OSCourse.Newsroom.Pipeline
import OSCourse.Newsroom.Delivery
import OSCourse.FileSystem.Permissions
import OSCourse.FileSystem.OpenMode
import OSCourse.Library.Blocks
import OSCourse.LockFile.Writers
import OSCourse.LockFile.Exclusion
import OSCourse.LockFile.Output
import OSCourse.LockFile.Contiguity
import OSCourse.LockFile.Interruption
import OSCourse.FileSystem.Exec
import OSCourse.FileSystem.Revocation
import OSCourse.Newsroom.BufferSteps
import OSCourse.Library.Fifo
import OSCourse.Newsroom.FifoRefinement
import OSCourse.Newsroom.Threads
import OSCourse.Newsroom.Simulation
import OSCourse.Newsroom.CriticalSections
import OSCourse.Newsroom.Teardown
import OSCourse.Newsroom.Work
import OSCourse.Newsroom.Progress
import OSCourse.CopyTree.Depth
import OSCourse.BufferedIo.WriteSessions
import OSCourse.BufferedIo.ExactlyOnce
import OSCourse.BufferedIo.ReadSessions
import OSCourse.Scheduling.SchedulerScan
import OSCourse.Semaphore.Wakeups
import OSCourse.Semaphore.Creation
import OSCourse.Newsroom.Emptiness
import OSCourse.FileSystem.DiskInodes
import OSCourse.Scheduling.Sentinel
import OSCourse.Semaphore.Units
import OSCourse.Semaphore.Killed
import OSCourse.FileSystem.Balance
import OSCourse.Library.Lines
import OSCourse.Newsroom.Config
import OSCourse.Newsroom.ConfigRoundTrip
import OSCourse.Library.Shuffle
import OSCourse.ForkWriters.Program
import OSCourse.ForkWriters.Layout
import OSCourse.ForkWriters.Outcomes
import OSCourse.ForkWriters.Termination
import OSCourse.Scheduling.Lifecycle
import OSCourse.Scheduling.Kill
import OSCourse.Scheduling.Family
import OSCourse.Scheduling.Waiting
import OSCourse.Scheduling.ExitStatus
import OSCourse.Scheduling.Share
import OSCourse.Scheduling.States
import OSCourse.Semaphore.Settling
import OSCourse.Semaphore.Slots
import OSCourse.FileSystem.FileContent
import OSCourse.FileSystem.Files
import OSCourse.FileSystem.DirectoryContent
import OSCourse.FileSystem.Consistency
import OSCourse.FileSystem.WriteThrough
import OSCourse.FileSystem.PathWalk
