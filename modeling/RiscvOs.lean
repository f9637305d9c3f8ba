import RiscvOs.Lib.Prog
import RiscvOs.Lib.Stepwise
import RiscvOs.Lib.LinkedList
import RiscvOs.Lib.System
import RiscvOs.Lib.Bytes
import RiscvOs.Lib.Chain
import RiscvOs.Lib.Split
import RiscvOs.Lib.Digits
import RiscvOs.Lib.RingBuffer
import RiscvOs.Lib.Relabel
import RiscvOs.Kernel.Defs
import RiscvOs.Bio.Model
import RiscvOs.Bio.Frame
import RiscvOs.Bio.Cache
import RiscvOs.Bio.Refine
import RiscvOs.Bio.Linked
import RiscvOs.Console.Printf
import RiscvOs.Console.Ulib
import RiscvOs.Console.Format
import RiscvOs.Console.Klog
import RiscvOs.Console.LogRing
import RiscvOs.Console.LogText
import RiscvOs.Virtio.Desc
import RiscvOs.Virtio.Model
import RiscvOs.Virtio.InStep
import RiscvOs.Virtio.Atomic
import RiscvOs.Log.Model
import RiscvOs.Log.Entries
import RiscvOs.Log.OnMem
import RiscvOs.Log.Reservation
import RiscvOs.Log.Sleepers
import RiscvOs.Log.Spec
import RiscvOs.Log.Commit
import RiscvOs.Log.Recovery
import RiscvOs.Log.Ops
import RiscvOs.Log.Quiet
import RiscvOs.Log.Session
import RiscvOs.Log.Client
import RiscvOs.Log.Coherence
import RiscvOs.Log.Crash
import RiscvOs.Fs.Model
import RiscvOs.Fs.Calls
import RiscvOs.Fs.Layout
import RiscvOs.Fs.Tx
import RiscvOs.Fs.Volume
import RiscvOs.Fs.Bitmap
import RiscvOs.Fs.State
import RiscvOs.Fs.Blocks
import RiscvOs.Fs.Inodes
import RiscvOs.Fs.Data
import RiscvOs.Fs.Trunc
import RiscvOs.Fs.Ialloc
import RiscvOs.Fs.Boot
import RiscvOs.Fs.Reclaim
import RiscvOs.Fs.BlockRuns
import RiscvOs.Mkfs.Image
import RiscvOs.Mkfs.Agree
import RiscvOs.Fs.ByteArray
import RiscvOs.Fs.Dir
import RiscvOs.Fs.DirMap
import RiscvOs.Fs.Path
import RiscvOs.Fs.Changes
import RiscvOs.Fs.Files
import RiscvOs.Fs.Open
import RiscvOs.Fs.Descriptors
import RiscvOs.Fs.Unlink
import RiscvOs.Fs.Transfer
import RiscvOs.Fs.Unseen
import RiscvOs.Fs.Rest
import RiscvOs.Fs.Outcome
import RiscvOs.Fs.Reboot
import RiscvOs.Fs.Cut
import RiscvOs.Fs.Survival
import RiscvOs.Fs.Mount
import RiscvOs.Fs.Mounted
import RiscvOs.Fs.Resolve
import RiscvOs.Fs.Padding
import RiscvOs.Fs.Power
import RiscvOs.Fs.Standing
import RiscvOs.Fs.Links
import RiscvOs.Mkfs.Neat
import RiscvOs.Fs.Calm
import RiscvOs.Fs.Names
import RiscvOs.Fs.Flat
import RiscvOs.Fs.Rooted
import RiscvOs.Fs.Serves
import RiscvOs.Fs.Visible
import RiscvOs.Fs.Wired
import RiscvOs.Vm.Model
import RiscvOs.Vm.Owned
import RiscvOs.Vm.Agree
import RiscvOs.Vm.Maps
import RiscvOs.Vm.Tables
import RiscvOs.Vm.Bytes
import RiscvOs.Vm.Tree
import RiscvOs.Vm.Region
import RiscvOs.Vm.UserCopy
import RiscvOs.Vm.Aliases
import RiscvOs.Proc.Model
import RiscvOs.Proc.Spec
import RiscvOs.Proc.Parents
import RiscvOs.Proc.Pages
import RiscvOs.Proc.Scheduler
import RiscvOs.Proc.Trap
import RiscvOs.Proc.Twin
import RiscvOs.Proc.Recycle
import RiscvOs.Proc.Reports
import RiscvOs.Proc.Leak
import RiscvOs.Proc.Size
import RiscvOs.Proc.Copy
import RiscvOs.Proc.Fork
import RiscvOs.Proc.Isolation
import RiscvOs.Proc.Atomic
import RiscvOs.Proc.Status
import RiscvOs.Proc.Kill
import RiscvOs.Proc.Killed
import RiscvOs.Proc.Grow
import RiscvOs.Trap.Model
import RiscvOs.Trap.Trampoline
import RiscvOs.Trap.Frames
import RiscvOs.Trap.Privilege
import RiscvOs.Trap.Context
import RiscvOs.Fs.ReadBack
