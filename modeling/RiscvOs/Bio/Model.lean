import RiscvOs.Lib.LinkedList
import RiscvOs.Kernel.Defs

/-!
# The buffer cache

`kernel/bio.c` over a disk of blocks.  A buffer's two link fields are kept in
`Bcache.links`, where `none` stands for `&bcache.head`.  `virtioDiskRw` is one
request that succeeds: between the two assignments to `b->disk` the device moves
the two sectors of the block.

`machine` is the handler the kernel really runs on: it remembers which buffer
every `struct buf *` in use points to.
-/

namespace RiscvOs.Bio

open Effect LinkedList

/-- A `struct buf *` inside `bcache`: `none` is `&bcache.head`. -/
abbrev Ptr : Type := Option (Fin nbuf)

/-- `struct buf` without its links. -/
structure Buf where
  valid : Bool := false
  disk : Bool := false
  dev : ℕ := 0
  blockno : ℕ := 0
  refcnt : ℕ := 0
  data : Block := default

/-- `bcache` -/
structure Bcache where
  buf : Fin nbuf → Buf := fun _ => {}
  links : Links Ptr := ⟨fun _ => none, fun _ => none⟩

namespace Bcache

/-- Assign to fields of one buffer. -/
def modify (bc : Bcache) (i : Fin nbuf) (f : Buf → Buf) : Bcache :=
  { bc with buf := Function.update bc.buf i (f (bc.buf i)) }

@[simp] theorem modify_links (bc : Bcache) (i : Fin nbuf) (f : Buf → Buf) :
    (bc.modify i f).links = bc.links := rfl

@[simp] theorem modify_buf_same (bc : Bcache) (i : Fin nbuf) (f : Buf → Buf) :
    (bc.modify i f).buf i = f (bc.buf i) := Function.update_self ..

theorem modify_buf_of_ne (bc : Bcache) {i j : Fin nbuf} (f : Buf → Buf) (h : j ≠ i) :
    (bc.modify i f).buf j = bc.buf j := Function.update_of_ne h ..

@[simp] theorem modify_modify (bc : Bcache) (i : Fin nbuf) (f g : Buf → Buf) :
    (bc.modify i f).modify i g = bc.modify i (g ∘ f) := by
  simp [modify]

/-- One round of the loop of `binit`. -/
def binitStep (bc : Bcache) (i : Fin nbuf) : Bcache :=
  let bc := { bc with links := bc.links.pushFront none (some i) }
  bc.modify i fun b => { b with valid := false, disk := false, refcnt := 0 }

/-- `binit` -/
def binit (bc : Bcache) : Bcache :=
  let bc := { bc with links := (bc.links.setPrev none none).setNext none none }
  (List.finRange nbuf).foldl binitStep bc

/-- `b->dev == dev && b->blockno == blockno` -/
def holds (bc : Bcache) (dev blockno : ℕ) : Ptr → Bool
  | none => false
  | some i => (bc.buf i).dev = dev ∧ (bc.buf i).blockno = blockno

/-- `b->refcnt == 0 && b->disk == 0` -/
def recyclable (bc : Bcache) : Ptr → Bool
  | none => false
  | some i => (bc.buf i).refcnt = 0 ∧ (bc.buf i).disk = false

/-- A search along the list takes at most this many rounds when the list is
well formed. -/
abbrev rounds : ℕ := nbuf + 1

/-- `bget` -/
def bget (bc : Bcache) (dev blockno : ℕ) : Except Stop (Fin nbuf × Bcache) :=
  match scan bc.links.next none (bc.holds dev blockno) rounds (bc.links.next none) with
  | some (some (some i)) => .ok (i, bc.modify i fun b => { b with refcnt := b.refcnt + 1 })
  | some (some none) => .error .fault
  | none => .error .hang
  | some none =>
      match scan bc.links.prev none bc.recyclable rounds (bc.links.prev none) with
      | some (some (some i)) =>
          .ok (i, bc.modify i fun b =>
            { b with dev := dev, blockno := blockno, valid := false, refcnt := 1 })
      | some (some none) => .error .fault
      | none => .error .hang
      | some none => .error (.panic "bget: no buffers")

/-- `brelse` -/
def brelse (bc : Bcache) (i : Fin nbuf) : Bcache :=
  let bc := bc.modify i fun b => { b with refcnt := b.refcnt - 1 }
  if (bc.buf i).refcnt = 0 then
    { bc with links := (bc.links.unlink (some i)).pushFront none (some i) }
  else bc

end Bcache

/-- The first sector of a block: `b->blockno * (BSIZE / 512)` in `uint32_t`. -/
def sector (blockno : ℕ) : ℕ := blockno * 2 % 2 ^ 32

/-- The kernel state: its static data, the buffer cache and the disk.  The disk is
addressed in blocks of two sectors. -/
structure Machine where
  mem : Mem := {}
  bcache : Bcache := {}
  disk : ℕ → Block := fun _ => default
  /-- The buffer a `struct buf *` in use points to. -/
  ptr : BufRef → Option (Fin nbuf) := fun _ => none

namespace Machine

/-- Assign to fields of one buffer. -/
def modifyBuf (s : Machine) (i : Fin nbuf) (f : Buf → Buf) : Machine :=
  { s with bcache := s.bcache.modify i f }

/-- `virtio_disk_rw(b, write)` -/
def virtioDiskRw (s : Machine) (i : Fin nbuf) (write : Bool) : Machine :=
  let s := s.modifyBuf i fun b => { b with disk := true }
  let place := sector (s.bcache.buf i).blockno / 2
  let s :=
    if write then { s with disk := Function.update s.disk place (s.bcache.buf i).data }
    else s.modifyBuf i fun b => { b with data := s.disk place }
  s.modifyBuf i fun b => { b with disk := false }

theorem virtioDiskRw_read (s : Machine) (i : Fin nbuf) :
    s.virtioDiskRw i false = s.modifyBuf i fun b =>
      { b with data := s.disk (sector b.blockno / 2), disk := false } := by
  simp only [virtioDiskRw, modifyBuf, Bcache.modify_modify, Bool.false_eq_true, if_false,
    Bcache.modify_buf_same]
  simp [Bcache.modify, Function.comp_def]

theorem virtioDiskRw_write (s : Machine) (i : Fin nbuf) :
    s.virtioDiskRw i true =
      { s with
        disk := Function.update s.disk (sector (s.bcache.buf i).blockno / 2) (s.bcache.buf i).data
        bcache := s.bcache.modify i fun b => { b with disk := false } } := by
  simp [virtioDiskRw, modifyBuf, Function.comp_def]

/-- `bread(dev, blockno)` -/
def bread (s : Machine) (dev blockno : ℕ) : Except Stop (Fin nbuf × Machine) :=
  match s.bcache.bget dev blockno with
  | .error e => .error e
  | .ok (i, bc) =>
      let s := { s with bcache := bc }
      if (s.bcache.buf i).valid then .ok (i, s)
      else
        .ok (i, (s.virtioDiskRw i false).modifyBuf i fun b => { b with valid := true, disk := false })

end Machine

/-- The buffer `bp` points to. -/
def deref {α : Type} (s : Machine) (bp : BufRef) (f : Fin nbuf → α × Machine) :
    Except Stop (α × Machine) :=
  match s.ptr bp with
  | none => .error .fault
  | some i => .ok (f i)

/-- The operations of kernel code on the real buffer cache. -/
def machine : Handler kernSig Stop Machine
  | .get, s => .ok (s.mem, s)
  | .set m, s => .ok ((), { s with mem := m })
  | .stop why, _ => .error why
  | .wakeup, s => .ok ((), s)
  | .bread dev blockno, s =>
      match s.bread dev blockno with
      | .error e => .error e
      | .ok (i, s) => .ok ((), { s with ptr := Function.update s.ptr ⟨dev, blockno⟩ (some i) })
  | .data bp, s => deref s bp fun i => ((s.bcache.buf i).data, s)
  | .setData bp d, s => deref s bp fun i => ((), s.modifyBuf i fun b => { b with data := d })
  | .setDisk bp dirty, s =>
      deref s bp fun i => ((), s.modifyBuf i fun b => { b with disk := dirty })
  | .bwrite bp, s => deref s bp fun i => ((), s.virtioDiskRw i true)
  | .brelse bp, s => deref s bp fun i => ((), { s with bcache := s.bcache.brelse i })

end RiscvOs.Bio
