import Xv6Sheet.Lib.Exec
import Xv6Sheet.Lib.Bytes
import Xv6Sheet.Lib.Wp
import Xv6Sheet.Lib.Count
import Xv6Sheet.Lib.BlockTree
import Xv6Sheet.Disk.Layout
import Xv6Sheet.Disk.Bitmap
import Xv6Sheet.Disk.Inode
import Xv6Sheet.Disk.Free
import Xv6Sheet.Lib.Run
import Xv6Sheet.Disk.Store
import Xv6Sheet.Fs.Bmap
import Xv6Sheet.Fs.Content
import Xv6Sheet.Fs.Refinement
import Xv6Sheet.BigFile.Bmap
import Xv6Sheet.BigFile.Ownership
import Xv6Sheet.Lib.Lockstep
import Xv6Sheet.BigFile.Inverted
import Xv6Sheet.Kernel.Proc
import Xv6Sheet.Vm.Mmap
import Xv6Sheet.Vm.Placement
import Xv6Sheet.Vm.WellFormed
import Xv6Sheet.Vm.AddressMap
import Xv6Sheet.Kernel.Itable
import Xv6Sheet.Kernel.Dir
import Xv6Sheet.Kernel.Sysfile
import Xv6Sheet.Kernel.FileTable
import Xv6Sheet.Kernel.FileRefs
import Xv6Sheet.Kernel.Tree
import Xv6Sheet.Kernel.View
import Xv6Sheet.Kernel.ItableSpec
import Xv6Sheet.Kernel.DirSpec
import Xv6Sheet.Kernel.DirMap
import Xv6Sheet.Fs.Record
import Xv6Sheet.Kernel.Cache
import Xv6Sheet.Kernel.CacheCalls
import Xv6Sheet.Kernel.WriteThrough
import Xv6Sheet.Uthread.Registers
import Xv6Sheet.Hash.Locked
import Xv6Sheet.Primes.Sieve
import Xv6Sheet.Itable.Refs
import Xv6Sheet.Kernel.PathSpec
import Xv6Sheet.Kernel.CreateSpec
import Xv6Sheet.Vm.RoundTrip
import Xv6Sheet.BigFile.NoSingle
import Xv6Sheet.Disk.Buffer
import Xv6Sheet.BigFile.Sparse
import Xv6Sheet.Kernel.Symlink
import Xv6Sheet.Kernel.Types
import Xv6Sheet.Kernel.PlainOpen
import Xv6Sheet.Kernel.OpenSpec
import Xv6Sheet.Kernel.SafeOpen
import Xv6Sheet.Kernel.Balance
import Xv6Sheet.Kernel.LinkSpec
import Xv6Sheet.Kernel.LinkOpen
import Xv6Sheet.Kernel.LostLink
import Xv6Sheet.Kernel.ReadLink
import Xv6Sheet.Kernel.FullDisk
import Xv6Sheet.Disk.Allocator
import Xv6Sheet.Uthread.Create
import Xv6Sheet.Xargs.Agree
import Xv6Sheet.Kernel.NameiSpec
import Xv6Sheet.Find.Listing
import Xv6Sheet.Kernel.FailedOpen
import Xv6Sheet.Kernel.Reclaim
import Xv6Sheet.Kernel.NewBlocks
import Xv6Sheet.Kernel.FailedCall
import Xv6Sheet.Xargs.Bounds
import Xv6Sheet.Sixfive.Agree
import Xv6Sheet.Memdump.Bounds
import Xv6Sheet.Swap32.Parse
import Xv6Sheet.Pingpong.Exchange
import Xv6Sheet.Kernel.PathElements
import Xv6Sheet.Kernel.ExecArgs
import Xv6Sheet.Kernel.LinkTarget
import Xv6Sheet.Kernel.NamespaceRun
import Xv6Sheet.Lib.Interleaving
import Xv6Sheet.Lib.Print
import Xv6Sheet.Lib.Overwrite
import Xv6Sheet.Handshake.Exchange
import Xv6Sheet.Swap32.Command
import Xv6Sheet.Fs.Mapping
import Xv6Sheet.Fs.Arrays
import Xv6Sheet.BigFile.Content
import Xv6Sheet.Uthread.Program
import Xv6Sheet.Uthread.Transcript
import Xv6Sheet.Hash.Progress
import Xv6Sheet.Hash.Report
import Xv6Sheet.Primes.Ending
import Xv6Sheet.WordPipe.Schedule
import Xv6Sheet.Kernel.Operations
import Xv6Sheet.Find.Piped
