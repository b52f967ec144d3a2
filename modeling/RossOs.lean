import RossOs.Lib.Bitmap
import RossOs.Lib.Bits
import RossOs.Lib.Bytes
import RossOs.Lib.Exec
import RossOs.Lib.Log
import RossOs.Lib.Along
import RossOs.Lib.Run
import RossOs.Lib.Scan
import RossOs.Lib.Brackets
import RossOs.Pmm.Model
import RossOs.Pmm.Invariant
import RossOs.Loader
import RossOs.Paging.Model
import RossOs.Paging.Space
import RossOs.Paging.Create
import RossOs.Paging.Walk
import RossOs.Paging.Run
import RossOs.Paging.Isolation
import RossOs.Paging.Owned
import RossOs.Paging.Frames
import RossOs.Paging.Window
import RossOs.Paging.Agree
import RossOs.Task.Model
import RossOs.Task.Load
import RossOs.Task.Spawn
import RossOs.Task.Permissions
import RossOs.Task.Heap
import RossOs.Task.System
import RossOs.Task.Schedule
import RossOs.Task.RoundRobin
import RossOs.Task.Trace
import RossOs.Task.Steady
import RossOs.Task.Needs
import RossOs.Task.Fate
import RossOs.Task.Exhaust
import RossOs.Task.Stray
import RossOs.Task.Failed
import RossOs.Task.Sized
import RossOs.Task.Drawn
import RossOs.Task.Remains
import RossOs.Lib.Chain
import RossOs.Fat.Disk
import RossOs.Fat.Model
import RossOs.Fat.Volume
import RossOs.Fat.File
import RossOs.Fat.Dir
import RossOs.Fat.Alloc
import RossOs.Fat.Create
import RossOs.Fat.Names
import RossOs.Fat.Codec
import RossOs.Fat.Write
import RossOs.Fat.Entry
import RossOs.Fat.Handles
import RossOs.Fat.Tree
import RossOs.Fat.WellFormed
import RossOs.Fat.Law
import RossOs.Fat.Growth
import RossOs.Fat.Carry
import RossOs.Fat.Halting
import RossOs.Fat.Uses
import RossOs.Fat.Reserved
import RossOs.Fat.Size
import RossOs.Fat.Sectors
import RossOs.Fat.Store
import RossOs.Ipc
import RossOs.Kbuf
import RossOs.Vfs
import RossOs.Paths
import RossOs.Fat.Parent
import RossOs.Shell
import RossOs.Cwd
import RossOs.Console
import RossOs.Ramfs
import RossOs.Initrd
import RossOs.Acpi
import RossOs.Fd
import RossOs.Syscall.Model
import RossOs.Syscall.Pipes
import RossOs.Syscall.Files
import RossOs.Syscall.Memory
import RossOs.Syscall.Closed
import RossOs.Locks
import RossOs.Smp
import RossOs.Lib.Serve
import RossOs.Pci
import RossOs.Ahci.Model
import RossOs.Ahci.Controller
import RossOs.Ahci.Requests
import RossOs.Ahci.Init
import RossOs.Lib.Stack
import RossOs.Cpu.Stubs
import RossOs.Cpu.Switch
import RossOs.Cpu.Entry
import RossOs.Fat.Boot
import RossOs.Reboot
import RossOs.Lib.Pair
import RossOs.Terminal.Model
import RossOs.Terminal.Keys
import RossOs.Terminal.Drawing
import RossOs.Terminal.Screen
