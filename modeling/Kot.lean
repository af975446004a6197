import Kot.Ahci.Command
import Kot.Ahci.Interleaving
import Kot.Apps.Lock
import Kot.Apps.Update
import Kot.Devconsole.Safety
import Kot.Devfb.Keys
import Kot.Devfs.Correct
import Kot.Fat.Copies
import Kot.Fat.Freeing
import Kot.Fat.ReadBack
import Kot.Fat.ShortNames
import Kot.Fat.Timestamps
import Kot.Kernel.Elf.Execve
import Kot.Kernel.Elf.InitialStack
import Kot.Kernel.Heap.Conservation
import Kot.Kernel.Initrd
import Kot.Kernel.Mm.Freeing
import Kot.Kernel.Pmm.Counters
import Kot.Kernel.Resources.Lifetime
import Kot.Kernel.Scheduler.Killed
import Kot.Kernel.Scheduler.Reports
import Kot.Kernel.Scheduler.SignalRestore
import Kot.Kernel.VectorMemory
import Kot.Kernel.Vmm.UpdateFlags
import Kot.Net.Parsing
import Kot.Net.Ports
import Kot.Net.RegistrationRuns
import Kot.Net.RoundTrip
import Kot.Net.SocketRead
import Kot.Net.TcpReceive
import Kot.Net.TcpSend
import Kot.Pci.ConfigSpace
import Kot.Storage.Crc32
import Kot.Storage.Ownership
import Kot.Storage.Registration
import Kot.Vfs.WorkingDirectory
import Kot.Kernel.Ksym
import Kot.Pci.Search
import Kot.Devconsole.Input
import Kot.E1000.Receive
import Kot.Kernel.Time
import Kot.Hid.Modifiers
import Kot.Graphics.Jpeg
