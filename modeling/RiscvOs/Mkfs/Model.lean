import RiscvOs.Fs.Model

/-!
# Making a file system

`mkfs/mkfs.c`.  Its global variables and the file it writes are an `Image`.  A call of
`exit(1)` is a panic with the text that is printed.  The counters stay far below
`2 ^ 32`, so they are natural numbers here.
-/

namespace RiscvOs.Mkfs

open Bytes

/-- `FSSIZE` -/
abbrev fssize : ℕ := 1000

/-- The file with its `FSSIZE` blocks, and the variables `sb`, `freeinode`, `freeblock` and
`bitmap`. -/
structure Image where
  disk : ℕ → Block := fun _ => Buffer.zero
  sb : Superblock := {}
  freeinode : ℕ := 1
  freeblock : ℕ := 0
  bitmap : Buffer (fssize / 8 + 1) := Buffer.zero

namespace Image

/-- `rsect`: there is nothing to read past the end of the file. -/
def rsect (img : Image) (sec : ℕ) : Except Stop Block :=
  if sec < fssize then .ok (img.disk sec) else .error (.panic "read")

/-- `wsect` -/
def wsect (img : Image) (sec : ℕ) (buf : Block) : Image :=
  { img with disk := Function.update img.disk sec buf }

/-- `winode` -/
def winode (img : Image) (inum : ℕ) (ip : Dinode) : Except Stop Image := do
  let bn := inum / ipb + img.sb.inodestart
  let buf ← img.rsect bn
  return img.wsect bn (ip.store buf (inum % ipb))

/-- `rinode` -/
def rinode (img : Image) (inum : ℕ) : Except Stop Dinode := do
  let buf ← img.rsect (inum / ipb + img.sb.inodestart)
  return Dinode.decode buf (inum % ipb)

/-- `ialloc` -/
def ialloc (img : Image) (type : BitVec 16) : Except Stop (ℕ × Image) := do
  let inum := img.freeinode
  let img ← { img with freeinode := inum + 1 }.winode inum { type := type, nlink := 1 }
  return (inum, img)

/-- `balloc_mark`; the array `bitmap` ends after `FSSIZE / 8 + 1` bytes. -/
def ballocMark (img : Image) (b : ℕ) : Except Stop Image :=
  if b / 8 < fssize / 8 + 1 then
    .ok { img with bitmap :=
      img.bitmap.write (b / 8) [img.bitmap.get (b / 8) ||| UInt8.ofNat (2 ^ (b % 8))] }
  else .error .fault

/-- `balloc` -/
def balloc (img : Image) : Except Stop (ℕ × Image) := do
  let b := img.freeblock
  let img ← { img with freeblock := b + 1 }.ballocMark b
  return (b, img)

/-- The address of block `bn` in the local copy `din`, allocated if there is none. -/
def blockOf (img : Image) (din : Dinode) (bn : Fin (ndirect + 1)) :
    Except Stop (Image × Dinode) := do
  if din.addrs bn = 0 then
    let (b, img) ← img.balloc
    return (img, { din with addrs := Function.update din.addrs bn (BitVec.ofNat 32 b) })
  else return (img, din)

/-- The loop of `iappend`, for the bytes that are left. -/
def iappendLoop : ℕ → Image → Dinode → ℕ → List UInt8 → Except Stop (Image × Dinode × ℕ)
  | 0, img, din, off, _ => .ok (img, din, off)
  | rounds + 1, img, din, off, data =>
      if data.length = 0 then .ok (img, din, off)
      else if h : off / bsize < ndirect then do
        let bn : Fin (ndirect + 1) := ⟨off / bsize, Nat.lt_succ_of_lt h⟩
        let (img, din) ← img.blockOf din bn
        let buf ← img.rsect (din.addrs bn).toNat
        let m := min (bsize - off % bsize) data.length
        let img := img.wsect (din.addrs bn).toNat (buf.write (off % bsize) (data.take m))
        iappendLoop rounds img din (off + m) (data.drop m)
      else .error (.panic "iappend: file too large")

/-- `iappend` of the bytes `data`. -/
def iappend (img : Image) (inum : ℕ) (data : List UInt8) : Except Stop Image := do
  let din ← img.rinode inum
  let (img, din, off) ← iappendLoop data.length img din din.size.toNat data
  img.winode inum { din with size := BitVec.ofNat 32 off }

/-- `write_bitmap`: the bitmap takes one block. -/
def writeBitmap (img : Image) : Image :=
  img.wsect img.sb.bmapstart (Buffer.zero.write 0 (img.bitmap.slice 0 (fssize / 8 + 1)))

end Image

/-- The layout `main` computes. -/
def layoutSb : Superblock where
  magic := fsmagic
  size := fssize
  nlog := 30
  logstart := 2
  ninodes := 200
  inodestart := 2 + 30
  bmapstart := 2 + 30 + (200 / ipb + 1)
  nblocks := fssize - (2 + 30 + (200 / ipb + 1) + (fssize / bpb + 1))

/-- The first block `main` leaves free. -/
def firstFree : ℕ := layoutSb.bmapstart + (fssize / bpb + 1)

/-- The bytes of a `struct superblock`. -/
def encodeSb (sb : Superblock) : List UInt8 :=
  le 4 sb.magic ++ le 4 sb.size ++ le 4 sb.nblocks ++ le 4 sb.ninodes ++ le 4 sb.nlog ++
    le 4 sb.logstart ++ le 4 sb.inodestart ++ le 4 sb.bmapstart

/-- `main` up to the superblock: the blocks of the layout are marked one by one. -/
def layout : Except Stop Image := do
  let img ← (List.range firstFree).foldlM Image.ballocMark
    { sb := layoutSb, freeblock := firstFree }
  return img.wsect 1 (Buffer.zero.write 0 (encodeSb layoutSb))

/-- One of the two calls that fill the image. -/
inductive Call
  | ialloc (type : BitVec 16)
  | iappend (inum : ℕ) (data : List UInt8)

/-- What a call does. -/
def Call.run (img : Image) : Call → Except Stop Image
  | .ialloc type => do
      let (_, img) ← img.ialloc type
      return img
  | .iappend inum data => img.iappend inum data

/-- A sequence of calls between the layout and `write_bitmap`. -/
def make (calls : List Call) : Except Stop Image := do
  let img ← layout
  let img ← calls.foldlM Call.run img
  return img.writeBitmap

/-- The entry `main` appends to the root directory under a name. -/
def rootEntry (name : List UInt8) : List UInt8 :=
  Dirent.encode ⟨rootino, Buffer.zero.write 0 name⟩

/-- The calls of `main`. -/
def mainCalls : List Call :=
  [.ialloc tDir, .iappend rootino (rootEntry [dot]), .iappend rootino (rootEntry [dot, dot])]

end RiscvOs.Mkfs
