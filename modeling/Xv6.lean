import Xv6.Library.Prog
import Xv6.Library.Moves
import Xv6.Library.Bytes
import Xv6.Library.Pool
import Xv6.Library.Ring
import Xv6.Library.Owned
import Xv6.Library.Fifo
import Xv6.Library.Cover
import Xv6.Disk.Format
import Xv6.Kernel.State
import Xv6.Kernel.Ops
import Xv6.Kernel.Memmove
import Xv6.Kernel.Printf
import Xv6.Log.Code
import Xv6.Log.Crash
import Xv6.Log.Protocol
import Xv6.Log.Admission
import Xv6.Bio.Cache
import Xv6.Bio.Protocol
import Xv6.Bio.Exhaustion
import Xv6.Bio.Coherence
import Xv6.Fs.Code
import Xv6.Fs.Image
import Xv6.Fs.Ownership
import Xv6.Fs.Alloc
import Xv6.Fs.Bmap
import Xv6.Fs.Sample
import Xv6.Fs.Commit
import Xv6.Fs.Content
import Xv6.Fs.Cut
import Xv6.Fs.Trunc
import Xv6.Fs.Syscalls
import Xv6.Fs.Calm
import Xv6.Fs.Path
import Xv6.Fs.Lookup
import Xv6.Pipe.Code
import Xv6.Pipe.Protocol
import Xv6.Proc.Sched
import Xv6.Proc.Wait
import Xv6.Library.Sep
import Xv6.Library.Copy
import Xv6.Library.Digits
import Xv6.Library.Monitor
import Xv6.Vm.Code
import Xv6.Vm.Heap
import Xv6.Vm.Table
import Xv6.Vm.Map
import Xv6.Vm.Machine
import Xv6.Vm.Region
import Xv6.Vm.Space
import Xv6.Vm.Process
import Xv6.Vm.Access
import Xv6.Vm.Layout
import Xv6.Vm.Copy
import Xv6.Vm.Strings
import Xv6.Vm.Contents
import Xv6.Vm.Fork
import Xv6.Vm.Kalloc
import Xv6.Vm.Procs
import Xv6.Sys.Hold
import Xv6.Sys.Quiet
import Xv6.Sys.Refs
import Xv6.Sys.Read
import Xv6.Sys.Tables
import Xv6.Sys.Calls
import Xv6.Sys.Counts
import Xv6.Proc.Kill
import Xv6.Proc.Pid
import Xv6.Proc.Sleeplock
import Xv6.Proc.Interrupts
import Xv6.Proc.Spinlock
import Xv6.Pipe.Records
import Xv6.Pipe.Delivery
import Xv6.Virtio.Code
import Xv6.Virtio.Protocol
import Xv6.User.Primes
import Xv6.User.Sieve
import Xv6.User.Umalloc
import Xv6.User.FreeList
import Xv6.User.Malloc
import Xv6.User.Sbrk
import Xv6.User.Sh
import Xv6.User.Grammar
import Xv6.User.Parse
import Xv6.User.Runcmd
import Xv6.User.Find
import Xv6.User.FindTree
import Xv6.User.Printf
import Xv6.User.Grep
import Xv6.User.GrepLines
import Xv6.User.Xargs
import Xv6.Mkfs.Code
import Xv6.Mkfs.Append
import Xv6.Mkfs.Build
import Xv6.Mkfs.Lookup
import Xv6.Console.Code
import Xv6.Console.Line
import Xv6.Console.Uart
import Xv6.Exec.Code
import Xv6.Exec.Rules
import Xv6.Exec.Load
import Xv6.Exec.Stack
import Xv6.Exec.Build
import Xv6.Exec.Args
