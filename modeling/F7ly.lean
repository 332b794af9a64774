import F7ly.Proofs.BuddyCanonical
import F7ly.Proofs.PmmBatch
import F7ly.Proofs.PmmSize
import F7ly.Proofs.PipeWake
import F7ly.Proofs.SignalStop
import F7ly.Proofs.SignalPanic
import F7ly.Proofs.SignalTaken
import F7ly.Proofs.SignalNest
import F7ly.Proofs.SignalPages
import F7ly.Proofs.Kill
import F7ly.Proofs.Sigsuspend
import F7ly.Proofs.FutexIndex
import F7ly.Proofs.FutexTimeout
import F7ly.Proofs.Asid
import F7ly.Proofs.RetryLoops
import F7ly.Proofs.Fifo
import F7ly.Proofs.Fat32Dir
import F7ly.Proofs.Fat32Alloc
import F7ly.Proofs.Timebase
import F7ly.Proofs.PmmLargest
import F7ly.Proofs.BootLayout
import F7ly.Proofs.PipeAtomic
import F7ly.Proofs.PipeRing
import F7ly.Proofs.Scheduler
import F7ly.Proofs.MClockFair
import F7ly.Proofs.VirtioBlk
import F7ly.Proofs.EpollFair
import F7ly.Proofs.EpollGraph
import F7ly.Proofs.Normalize
import F7ly.Proofs.Symlink
import F7ly.Proofs.Semaphore
import F7ly.Proofs.Credentials
import F7ly.Proofs.SocketPeer
import F7ly.Proofs.SocketLocks
import F7ly.Proofs.ExecStack
import F7ly.Proofs.Transfer
