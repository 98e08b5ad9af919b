import Xv6.Theory.Bytes
import Xv6.Theory.Writes
import Xv6.Theory.Paths
import Xv6.Theory.Ring
import Xv6.Theory.Lock
import Xv6.Theory.Count
import Xv6.Theory.Copy
import Xv6.Theory.Digits
import Xv6.Theory.Faults
import Xv6.Theory.DList
import Xv6.Kernel.Param
import Xv6.Kernel.Log
import Xv6.Kernel.LogCrash
import Xv6.Kernel.LogAdmission
import Xv6.Kernel.Bio
import Xv6.Kernel.BioLinks
import Xv6.Kernel.Layout
import Xv6.Kernel.Blocks
import Xv6.Kernel.Inode
import Xv6.Kernel.Vm
import Xv6.Kernel.ReadWrite
import Xv6.Kernel.Ownership
import Xv6.Kernel.Write
import Xv6.Kernel.Truncate
import Xv6.Kernel.FileSystem
import Xv6.Kernel.Transactions
import Xv6.Kernel.Pipe
import Xv6.Kernel.Console
import Xv6.Kernel.Sleep
import Xv6.Kernel.Sleeplock
import Xv6.Mkfs.Image
import Xv6.Mkfs.RootDir
import Xv6.Kernel.Proc
import Xv6.Kernel.File
import Xv6.Kernel.FileRw
import Xv6.Kernel.Dir
import Xv6.Kernel.WriteContent
import Xv6.Kernel.Namex
import Xv6.Kernel.SysFile
import Xv6.Kernel.Kalloc
import Xv6.Kernel.PageTable
import Xv6.Kernel.Uvm
import Xv6.Kernel.Uvmcopy
import Xv6.Kernel.Uvmfree
import Xv6.Kernel.String
import Xv6.Kernel.Printf
import Xv6.Kernel.Spinlock
import Xv6.Kernel.Uart
import Xv6.Kernel.Virtio
import Xv6.Kernel.Syscall
import Xv6.Kernel.Exec
import Xv6.User.Grep
import Xv6.User.Sh
import Xv6.User.ShLex
import Xv6.User.ShGrammar
import Xv6.User.ShParse
import Xv6.User.MyShell
import Xv6.User.Umalloc
import Xv6.User.Printf
import Xv6.Mkfs.Files
