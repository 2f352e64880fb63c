import Hammam.Io.ProcessSq
import Hammam.Io.Delivery
import Hammam.Mm.HeaderWrites
import Hammam.Mm.Multiboot
import Hammam.Mm.UserPtr
import Hammam.Mm.TwoWalks
import Hammam.Loader.Isolation
import Hammam.Loader.Stale
import Hammam.Loader.Atomic
import Hammam.Loader.Panics
import Hammam.Loader.Relocations
import Hammam.Vfs.Agreement
import Hammam.Vfs.Mounts
import Hammam.Sched.RoundRobin
import Hammam.Sched.Vruntime
import Hammam.Process.KernelStacks
import Hammam.Process.Restart
import Hammam.Process.Pids
import Hammam.Mm.HeapLeak
import Hammam.Mm.Interrupted
import Hammam.Mm.Unmap
import Hammam.Mm.Coherence
import Hammam.Cap.Handles
import Hammam.Virtio.Receive
import Hammam.Virtio.Descriptors
import Hammam.Arch.SyscallEntry
import Hammam.Userspace.Copying
import Hammam.Acpi.Madt
import Hammam.Acpi.Records
import Hammam.Mm.BulkOps
import Hammam.Io.Untrusted
import Hammam.Vfs.Listing
import Hammam.Vfs.Bounds
import Hammam.Vfs.Names
import Hammam.Mm.BlockBounds
import Hammam.Sched.Locking
import Hammam.Process.Safety
import Hammam.Process.PowerOn
