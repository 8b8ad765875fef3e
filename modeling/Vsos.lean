import Vsos.Fat.LostClusters
import Vsos.Mem.Contiguous
import Vsos.Mem.Indices
import Vsos.Mem.Table
import Vsos.Virtual.Ranges
import Vsos.Virtual.PrivateMemory
import Vsos.Virtual.SharedKernel
import Vsos.Virtual.Windows
import Vsos.Virtual.FreshTables
import Vsos.Heap.BootHeap
import Vsos.Heap.Statistics
import Vsos.Sched.Bookkeeping
import Vsos.Sched.Signals
import Vsos.Sched.CurrentThread
import Vsos.Sched.Sleeping
import Vsos.Fat.Validation
import Vsos.Disk.WriteStatus
import Vsos.Disk.CommandTable
import Vsos.Pci.BaseAddress
import Vsos.Apic.EndOfInterrupt
import Vsos.Objects.KRingBuffer
import Vsos.Objects.ListEntry
import Vsos.Vfs.DiskRemoval
import Vsos.Gfx.Scroll
import Vsos.Pdb.Contributions
import Vsos.Pdb.Streams
import Vsos.Fat.Creation
import Vsos.Boot.Path
import Vsos.Crt.Compare
import Vsos.Crt.Itoa
import Vsos.Gfx.Rectangle
import Vsos.Gfx.Text
import Vsos.Objects.Bitvector
import Vsos.Input.Mouse
