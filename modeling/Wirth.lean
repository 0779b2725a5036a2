import Wirth.Toolchain.Numbers
import Wirth.Toolchain.Assembler.Confinement
import Wirth.Toolchain.Linker.Confinement
import Wirth.Toolchain.Executor.EndToEnd
import Wirth.Toolchain.Executor.Safety
import Wirth.Toolchain.Macro.Completeness
import Wirth.Toolchain.Build
import Wirth.Kernel.Fs.Writing
import Wirth.Kernel.Fs.Removing
import Wirth.Kernel.Mm.MemoryMap
import Wirth.Kernel.Mm.FailedGrowth
import Wirth.Kernel.Mm.PageRights
import Wirth.Kernel.Task.HeapGrants
import Wirth.Kernel.Task.FailedCreation
import Wirth.Kernel.Task.Sleeping
import Wirth.Kernel.Syscall.Confinement
import Wirth.Kernel.Keyboard
import Wirth.Kernel.Loader.Leaks
import Wirth.Kernel.Storage.ReadFailures
import Wirth.Kernel.Storage.Codec
import Wirth.Kernel.Shell.History
import Wirth.Kernel.Shell.Suggestions
import Wirth.Kernel.Shell.Sequences
import Wirth.Kernel.Shell.Paths
import Wirth.Kernel.Partitions
import Wirth.Kernel.Block.BootScan
import Wirth.Kernel.Nvme
import Wirth.Kernel.Nvme.Prps
import Wirth.Kernel.Xhci.Descriptors
import Wirth.Kernel.Xhci.Ring
import Wirth.Kernel.UsbMassStorage
import Wirth.Kernel.Efifs.Seed
import Wirth.Kernel.Boot.Decoding
