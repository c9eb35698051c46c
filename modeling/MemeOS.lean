import MemeOS.Kmalloc.Integrity
import MemeOS.Sched.Runs
import MemeOS.Sched.Preempt
import MemeOS.Interrupt.Timer
import MemeOS.Ramdisk.Transfer
import MemeOS.Ramdisk.Isolation
import MemeOS.Ramdisk.Resume
import MemeOS.Ramdisk.Release
import MemeOS.Ramdisk.Unlink
import MemeOS.Ramdisk.Unique
import MemeOS.Ramdisk.Creates
import MemeOS.Ramdisk.Descriptors
import MemeOS.Ramdisk.Resolve
import MemeOS.Ramdisk.Refine
import MemeOS.Kmalloc.FirstFit
import MemeOS.Ramdisk.Area
import MemeOS.Ramdisk.Seek
import MemeOS.Ramdisk.Readdir
import MemeOS.Ramdisk.BadFds
import MemeOS.Ramdisk.OpenHeap
import MemeOS.Ramdisk.Bounds
import MemeOS.Ramdisk.Parent
import MemeOS.Ramdisk.Create
import MemeOS.Ramdisk.Mkdir
import MemeOS.Kmalloc.Contents
import MemeOS.Kmalloc.Usable
import MemeOS.Sched.Service
import MemeOS.Sched.Conserve
import MemeOS.Sched.Clock
import MemeOS.Sched.Msleep
import MemeOS.Sched.Trampoline
import MemeOS.Format.Sprintf
import MemeOS.Format.Escapes
import MemeOS.Stdlib.Pointers
import MemeOS.Format.Itoa
import MemeOS.Format.Screen
import MemeOS.Ramdisk.Lookup
import MemeOS.Primer2.Total
import MemeOS.ProtoCr.Register
import MemeOS.Mutex.Coroutines
import MemeOS.Format.Printf
import MemeOS.Interrupt.Report
import MemeOS.Kmalloc.Objects
