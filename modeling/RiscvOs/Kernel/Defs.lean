import RiscvOs.Lib.Prog
import RiscvOs.Lib.Bytes
import Mathlib.Data.Int.Basic

/-!
# The kernel's data and its primitive operations

The structures of `include/fs.h`, `include/buf.h`, `include/proc.h` and
`kernel/log.c`, as far as the file system reads them, and the monad `Kern` the
kernel code is written in.

A `Kern` program works on the in-memory structures through `get` and `set` and
on disk blocks through the calls of `kernel/bio.c`.  A `struct buf *` is named by
the `(dev, blockno)` it was obtained for; `Bio/Model.lean` says which of the
`NBUF` buffers the pointer stands for, `Bio/Cache.lean` gives the same calls
their meaning on block contents, and `Bio/Refine.lean` relates the two.
-/

namespace RiscvOs

open Effect Bytes

/-! ## Constants -/

/-- `BSIZE` -/
abbrev bsize : ℕ := 1024
/-- `NBUF` -/
abbrev nbuf : ℕ := 30
/-- `NINODE` -/
abbrev ninode : ℕ := 50
/-- `NFILE` -/
abbrev nfile : ℕ := 100
/-- `NOFILE` -/
abbrev nofile : ℕ := 16
/-- `NPROC` -/
abbrev nproc : ℕ := 64
/-- `NDIRECT` -/
abbrev ndirect : ℕ := 12
/-- `NINDIRECT` -/
abbrev nindirect : ℕ := 256
/-- `MAXFILE` -/
abbrev maxfile : ℕ := ndirect + nindirect
/-- `IPB` -/
abbrev ipb : ℕ := 16
/-- `BPB` -/
abbrev bpb : ℕ := 8192
/-- `DIRSIZ` -/
abbrev dirsiz : ℕ := 14
/-- `ROOTDEV` -/
abbrev rootdev : ℕ := 0
/-- `ROOTINO` -/
abbrev rootino : ℕ := 1
/-- `FSMAGIC` -/
abbrev fsmagic : ℕ := 0x10203040
/-- The length of `logheader.block`. -/
abbrev loglen : ℕ := 30

-- the tables have a first entry
instance : NeZero nbuf := ⟨by decide⟩
instance : NeZero ninode := ⟨by decide⟩
instance : NeZero nfile := ⟨by decide⟩
instance : NeZero nofile := ⟨by decide⟩
instance : NeZero nproc := ⟨by decide⟩

/-! ## Machine integers -/

/-- The value of an expression converted to `uint32_t`. -/
@[irreducible] def u32 (z : ℤ) : ℕ := (z % 2 ^ 32).toNat

/-- The value of an expression converted to `int`. -/
@[irreducible] def i32 (z : ℤ) : ℤ := Int.bmod z (2 ^ 32)

theorem u32_lt (z : ℤ) : u32 z < 2 ^ 32 := by unfold u32; omega

theorem u32_natCast {n : ℕ} (h : n < 2 ^ 32) : u32 n = n := by unfold u32; omega

theorem u32_mod (n : ℕ) : u32 n = n % 2 ^ 32 := by unfold u32; omega

theorem i32_lt (z : ℤ) : i32 z < 2 ^ 31 := by
  have hlt := Int.bmod_lt (x := z) (m := 2 ^ 32) (by decide)
  unfold i32
  omega

theorem i32_eq_self {z : ℤ} (hlo : -2 ^ 31 ≤ z) (hhi : z < 2 ^ 31) : i32 z = z := by
  unfold i32
  rw [Int.bmod_eq_of_le] <;> omega

/-! ## Blocks, inodes, files -/

/-- The contents of one disk block. -/
abbrev Block : Type := Buffer bsize

/-- A `struct buf *`, named by what the buffer holds while it is referenced. -/
structure BufRef where
  dev : ℕ
  blockno : ℕ
  deriving DecidableEq

/-- `struct superblock` -/
structure Superblock where
  magic : ℕ := 0
  size : ℕ := 0
  nblocks : ℕ := 0
  ninodes : ℕ := 0
  nlog : ℕ := 0
  logstart : ℕ := 0
  inodestart : ℕ := 0
  bmapstart : ℕ := 0

/-- `struct dinode`; a `short` is a 16-bit word, a `uint32_t` a 32-bit word. -/
structure Dinode where
  type : BitVec 16 := 0
  major : BitVec 16 := 0
  minor : BitVec 16 := 0
  nlink : BitVec 16 := 0
  size : BitVec 32 := 0
  addrs : Fin (ndirect + 1) → BitVec 32 := fun _ => 0

/-- `struct inode`: the fields copied from disk are kept together as `din`. -/
structure Inode where
  dev : ℕ := 0
  inum : ℕ := 0
  ref : ℤ := 0
  valid : Bool := false
  din : Dinode := {}

/-- `FD_NONE`, `FD_INODE`, `FD_DEVICE` -/
inductive FdType
  | none | inode | device
  deriving DecidableEq

/-- `struct file`; `ip` is meaningful when `type` is `FD_INODE`. -/
structure File where
  type : FdType := .none
  ref : ℤ := 0
  readable : Bool := false
  writable : Bool := false
  ip : Fin ninode := 0
  off : ℕ := 0

/-- `struct logheader`; the entries are block numbers. -/
structure LogHeader where
  n : ℤ := 0
  block : ℕ → ℕ := fun _ => 0

/-- `struct log` -/
structure Log where
  start : ℤ := 0
  size : ℤ := 0
  outstanding : ℤ := 0
  committing : Bool := false
  dev : ℕ := 0
  lh : LogHeader := {}
  lock : Bool := false

/-- The kernel's static data that the file system uses. -/
structure Mem where
  /-- `log` -/
  log : Log := {}
  /-- `sb` -/
  sb : Superblock := {}
  /-- `icache.inode` -/
  inode : Fin ninode → Inode := fun _ => {}
  /-- `ftable.file` -/
  file : Fin nfile → File := fun _ => {}
  /-- `proc[i].ofile` -/
  ofile : Fin nproc → Fin nofile → Option (Fin nfile) := fun _ _ => none
  /-- `myproc()` -/
  cur : Fin nproc := 0
  /-- The user memory of `myproc()`: the bytes its page table maps with `PTE_U`. -/
  user : BitVec 64 → Option UInt8 := fun _ => none

/-! ## Programs -/

/-- How a kernel program can stop without returning. -/
inductive Stop
  /-- `panic(msg)` -/
  | panic (msg : String)
  /-- It spins on a lock, sleeps with nobody to wake it, or loops for ever. -/
  | hang
  /-- It leaves an array or follows a pointer that points nowhere. -/
  | fault
  deriving DecidableEq

/-- The operations kernel code is made of. -/
inductive KOp
  | get
  | set (m : Mem)
  | stop (why : Stop)
  | wakeup
  | bread (dev blockno : ℕ)
  | data (bp : BufRef)
  | setData (bp : BufRef) (d : Block)
  | setDisk (bp : BufRef) (dirty : Bool)
  | bwrite (bp : BufRef)
  | brelse (bp : BufRef)

/-- What an operation answers. -/
def KOp.Ans : KOp → Type
  | get => Mem
  | stop _ => Empty
  | data _ => Block
  | _ => Unit

/-- The signature of kernel code. -/
abbrev kernSig : Sig := ⟨KOp, KOp.Ans⟩

/-- Kernel code that returns an `α`. -/
abbrev Kern (α : Type) : Type := Prog kernSig α

namespace Kern

/-- The in-memory structures. -/
def get : Kern Mem := Prog.op (S := kernSig) KOp.get

/-- Replace the in-memory structures. -/
def set (m : Mem) : Kern Unit := Prog.op (S := kernSig) (KOp.set m)

/-- Change the in-memory structures. -/
def modify (f : Mem → Mem) : Kern Unit := do set (f (← get))

/-- Stop. -/
def stop {α : Type} (why : Stop) : Kern α :=
  Prog.call (S := kernSig) (KOp.stop why) Empty.elim

/-- Nothing runs after a stop. -/
theorem stop_bind {α β : Type} (why : Stop) (f : α → Kern β) :
    (stop why >>= f) = (stop why : Kern β) := by
  refine congrArg (Prog.call (S := kernSig) (KOp.stop why)) (funext fun answer => ?_)
  exact Empty.elim answer

/-- `panic(msg)` -/
def panic {α : Type} (msg : String) : Kern α := stop (.panic msg)

/-- `wakeup(&log)`: it only changes the states of other processes. -/
def wakeup : Kern Unit := Prog.op (S := kernSig) KOp.wakeup

/-- `bread(dev, blockno)` -/
def bread (dev blockno : ℕ) : Kern BufRef := do
  Prog.op (S := kernSig) (KOp.bread dev blockno)
  return ⟨dev, blockno⟩

/-- `bp->data` -/
def data (bp : BufRef) : Kern Block := Prog.op (S := kernSig) (KOp.data bp)

/-- An assignment to `bp->data`. -/
def setData (bp : BufRef) (d : Block) : Kern Unit := Prog.op (S := kernSig) (KOp.setData bp d)

/-- The assignment `bp->disk = dirty`. -/
def setDisk (bp : BufRef) (dirty : Bool) : Kern Unit :=
  Prog.op (S := kernSig) (KOp.setDisk bp dirty)

/-- `bwrite(bp)` -/
def bwrite (bp : BufRef) : Kern Unit := Prog.op (S := kernSig) (KOp.bwrite bp)

/-- `brelse(bp)` -/
def brelse (bp : BufRef) : Kern Unit := Prog.op (S := kernSig) (KOp.brelse bp)

end Kern

end RiscvOs
