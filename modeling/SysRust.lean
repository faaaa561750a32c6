import SysRust.Theory.Elf
import SysRust.Theory.Fat16.Bounds
import SysRust.Theory.Fat16.Failure
import SysRust.Theory.Fat16.NodeCache
import SysRust.Theory.Fat16.ShownNames
import SysRust.Theory.Files.Dangling
import SysRust.Theory.Files.Getdents
import SysRust.Theory.Files.Initrd
import SysRust.Theory.Files.Ramfs
import SysRust.Theory.Files.Syscalls
import SysRust.Theory.Heap.Contract
import SysRust.Theory.Net.Send
import SysRust.Theory.Net.TcpFin
import SysRust.Theory.Net.TcpLimits
import SysRust.Theory.Net.TcpOwners
import SysRust.Theory.Net.TcpStream
import SysRust.Theory.Net.TcpTuples
import SysRust.Theory.Pmm.Regions
import SysRust.Theory.Rc.Args
import SysRust.Theory.Rc.Bindings
import SysRust.Theory.Rc.Printing
import SysRust.Theory.Rc.Rust
import SysRust.Theory.Rc.Scopes
import SysRust.Theory.Rc.Terminates
import SysRust.Theory.Rc.Types
import SysRust.Theory.Recovery
import SysRust.Theory.Rt.Runs
import SysRust.Theory.Shell
import SysRust.Theory.Space
import SysRust.Theory.Threads
import SysRust.Theory.Vfs.NameRuns
import SysRust.Theory.Vmm.Brk
import SysRust.Theory.Vmm.Failed
