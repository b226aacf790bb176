import BadgerOS.Malloc.BuddyBounds
import BadgerOS.Malloc.Sizes
import BadgerOS.Malloc.BuddyPages
import BadgerOS.Blockdevice.Failures
import BadgerOS.Filesystem.RamfsFile
import BadgerOS.Filesystem.RamfsDirectories
import BadgerOS.Filesystem.VfsLeaks
import BadgerOS.Filesystem.VfsSearch
import BadgerOS.Filesystem.VfsLookup
import BadgerOS.Filesystem.VfsFiles
import BadgerOS.Memprotect.Pmp
import BadgerOS.Memprotect.BootMap
import BadgerOS.Memprotect.KernelMap
import BadgerOS.Process.Usercopy
import BadgerOS.Process.FlatRange
import BadgerOS.Process.Kbelfx
import BadgerOS.Process.MapRaw
import BadgerOS.Process.Tree
import BadgerOS.Process.Unmap
import BadgerOS.Process.WaitRuns
import BadgerOS.Scheduler.Suspend
import BadgerOS.Scheduler.Signal
import BadgerOS.Badgelib.MutexWait
import BadgerOS.Badgelib.FormatRuns
import BadgerOS.Time.Alarm
import BadgerOS.Time.Clock
import BadgerOS.Driver.Pcie
import BadgerOS.Freestanding.IntRoutines
import BadgerOS.Freestanding.String
import BadgerOS.Cpu.Smp
import BadgerOS.Cpu.Interrupt
import BadgerOS.Common.LockBalance
import BadgerOS.Filesystem.RamfsLinkRuns
import BadgerOS.Filesystem.RamfsFailures
import BadgerOS.Scheduler.OnePlaceRuns
import BadgerOS.Filesystem.CanonicalPath
import BadgerOS.Scheduler.Rendezvous
import BadgerOS.Badgelib.MutexTimeout
