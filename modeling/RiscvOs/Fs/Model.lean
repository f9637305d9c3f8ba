import RiscvOs.Log.Model

/-!
# The file system

`kernel/fs.c`.  The global variables `sb` and `icache` are fields of `Mem`.  A loop with a
`return` in its body is a `Prog.forFirst` over its rounds.  The local array `name` of a
caller is passed in and out as a `Buffer`, since `skipelem` leaves the bytes after a short
name as they were.
-/

namespace RiscvOs

open Effect Bytes Kern

/-! ## Mounting -/

/-- The superblock at the start of block 1. -/
def Superblock.decode (d : Block) : Superblock where
  magic := ofLe (d.slice 0 4)
  size := ofLe (d.slice 4 4)
  nblocks := ofLe (d.slice 8 4)
  ninodes := ofLe (d.slice 12 4)
  nlog := ofLe (d.slice 16 4)
  logstart := ofLe (d.slice 20 4)
  inodestart := ofLe (d.slice 24 4)
  bmapstart := ofLe (d.slice 28 4)

/-- `readsb(dev, &sb)` -/
def readsb (dev : ℕ) : Kern Unit := do
  let bp ← bread dev 1
  let d ← data bp
  modify fun m => { m with sb := Superblock.decode d }
  brelse bp

/-- `fsinit` -/
def fsinit (dev : ℕ) : Kern Unit := do
  readsb dev
  let m ← get
  if m.sb.magic ≠ fsmagic then Kern.panic "invalid fs magic"
  else
    initLog dev m.sb
    modify fun m => { m with inode := fun i => { m.inode i with ref := 0, valid := false } }

/-! ## The disk layout -/

/-- `IBLOCK(inum, sb)` -/
def Superblock.iblock (sb : Superblock) (inum : ℕ) : ℕ := u32 (inum / ipb + sb.inodestart : ℕ)

/-- `BBLOCK(b, sb)` -/
def Superblock.bblock (sb : Superblock) (b : ℕ) : ℕ := u32 (b / bpb + sb.bmapstart : ℕ)

/-- `(struct dinode*)data + k` -/
def Dinode.decode (d : Block) (k : ℕ) : Dinode where
  type := BitVec.ofNat 16 (ofLe (d.slice (64 * k) 2))
  major := BitVec.ofNat 16 (ofLe (d.slice (64 * k + 2) 2))
  minor := BitVec.ofNat 16 (ofLe (d.slice (64 * k + 4) 2))
  nlink := BitVec.ofNat 16 (ofLe (d.slice (64 * k + 6) 2))
  size := BitVec.ofNat 32 (ofLe (d.slice (64 * k + 8) 4))
  addrs i := BitVec.ofNat 32 (ofLe (d.slice (64 * k + 12 + 4 * i.val) 4))

/-- The bytes of a `struct dinode`. -/
def Dinode.encode (din : Dinode) : List UInt8 :=
  le 2 din.type.toNat ++ le 2 din.major.toNat ++ le 2 din.minor.toNat ++ le 2 din.nlink.toNat ++
    le 4 din.size.toNat ++ (List.finRange (ndirect + 1)).flatMap fun i => le 4 (din.addrs i).toNat

/-- `*((struct dinode*)data + k) = din` -/
def Dinode.store (d : Block) (k : ℕ) (din : Dinode) : Block := d.write (64 * k) din.encode

/-- `((uint32_t*)data)[k]` -/
def indirectEntry (d : Block) (k : ℕ) : ℕ := ofLe (d.slice (4 * k) 4)

/-- `((uint32_t*)data)[k] = addr` -/
def setIndirectEntry (d : Block) (k addr : ℕ) : Block := d.write (4 * k) (le 4 addr)

/-- `data[bi / 8] & (1 << (bi % 8))` -/
def bitmapBit (d : Block) (bi : ℕ) : Bool := (d.get (bi / 8)).toNat.testBit (bi % 8)

/-- `data[bi / 8] |= 1 << (bi % 8)` -/
def setBitmapBit (d : Block) (bi : ℕ) : Block :=
  d.write (bi / 8) [d.get (bi / 8) ||| UInt8.ofNat (2 ^ (bi % 8))]

/-- `data[bi / 8] &= ~(1 << (bi % 8))` -/
def clearBitmapBit (d : Block) (bi : ℕ) : Block :=
  d.write (bi / 8) [d.get (bi / 8) &&& ~~~(UInt8.ofNat (2 ^ (bi % 8)))]

/-! ## Blocks -/

/-- One round of the outer loop of `balloc`. -/
def ballocBlock (dev b : ℕ) : Kern (Option ℕ) := do
  let m ← get
  let bp ← bread dev (m.sb.bblock b)
  let d ← data bp
  match (List.range bpb).find? fun bi =>
      ((b + bi : ℕ) : ℤ) < i32 m.sb.size ∧ bitmapBit d bi = false with
  | some bi =>
      setData bp (setBitmapBit d bi)
      logWrite bp
      brelse bp
      let bp ← bread dev (b + bi)
      setData bp Buffer.zero
      logWrite bp
      brelse bp
      return some (b + bi)
  | none =>
      brelse bp
      return none

/-- `balloc` -/
def balloc (dev : ℕ) : Kern ℕ := do
  let m ← get
  match ← Prog.forFirst (fun r => ballocBlock dev (r * bpb)) 0
      (((i32 m.sb.size).toNat + bpb - 1) / bpb) with
  | some b => return b
  | none => Kern.panic "balloc: out of blocks"

/-- `bfree` -/
def bfree (dev b : ℕ) : Kern Unit := do
  let m ← get
  let bp ← bread dev (m.sb.bblock b)
  let d ← data bp
  if bitmapBit d (b % bpb) = false then Kern.panic "freeing free block"
  else
    setData bp (clearBitmapBit d (b % bpb))
    logWrite bp
    brelse bp

/-! ## Inodes -/

/-- `T_DIR` -/
abbrev tDir : BitVec 16 := 1
/-- `T_FILE` -/
abbrev tFile : BitVec 16 := 2

/-- Assign to fields of one inode of the cache. -/
def Mem.setInode (m : Mem) (ip : Fin ninode) (f : Inode → Inode) : Mem :=
  { m with inode := Function.update m.inode ip (f (m.inode ip)) }

/-- `*ip` -/
def getInode (ip : Fin ninode) : Kern Inode := do return (← get).inode ip

/-- Assign to fields of `*ip`. -/
def modifyInode (ip : Fin ninode) (f : Inode → Inode) : Kern Unit :=
  modify fun m => m.setInode ip f

/-- The slot in which `iget` finds the inode. -/
def Mem.cached (m : Mem) (dev inum : ℕ) : Option (Fin ninode) :=
  (List.finRange ninode).find? fun ip =>
    0 < (m.inode ip).ref ∧ (m.inode ip).dev = dev ∧ (m.inode ip).inum = inum

/-- The slot `iget` recycles. -/
def Mem.emptySlot (m : Mem) : Option (Fin ninode) :=
  (List.finRange ninode).find? fun ip => (m.inode ip).ref = 0

/-- `iget` -/
def iget (dev inum : ℕ) : Kern (Fin ninode) := do
  let m ← get
  match m.cached dev inum with
  | some ip =>
      modifyInode ip fun i => { i with ref := i.ref + 1 }
      return ip
  | none =>
      match m.emptySlot with
      | none => Kern.panic "iget: no inodes"
      | some ip =>
          modifyInode ip fun i => { i with dev := dev, inum := inum, ref := 1, valid := false }
          return ip

/-- `ilock` -/
def ilock (ip : Fin ninode) : Kern Unit := do
  let m ← get
  let i := m.inode ip
  if i.ref < 1 then Kern.panic "ilock"
  else if i.valid then return ()
  else
    let bp ← bread i.dev (m.sb.iblock i.inum)
    let d ← data bp
    modifyInode ip fun i => { i with din := Dinode.decode d (i.inum % ipb) }
    brelse bp
    modifyInode ip fun i => { i with valid := true }
    let i ← getInode ip
    if i.din.type = 0 then Kern.panic "ilock: no type" else return ()

/-- `iunlock` -/
def iunlock (ip : Fin ninode) : Kern Unit := do
  let i ← getInode ip
  if i.ref < 1 then Kern.panic "iunlock" else return ()

/-- `iupdate` -/
def iupdate (ip : Fin ninode) : Kern Unit := do
  let m ← get
  let i := m.inode ip
  let bp ← bread i.dev (m.sb.iblock i.inum)
  let d ← data bp
  setData bp (i.din.store d (i.inum % ipb))
  logWrite bp
  brelse bp

/-- The first statement of `iput`. -/
def iputFree (ip : Fin ninode) : Kern Unit := do
  let i ← getInode ip
  if i.ref = 1 ∧ i.valid = true ∧ i.din.nlink = 0 then
    modifyInode ip fun i => { i with din := { i.din with type := 0 } }
    iupdate ip
    modifyInode ip fun i => { i with valid := false }
  else return ()

/-- `iput` -/
def iput (ip : Fin ninode) : Kern Unit := do
  iputFree ip
  modifyInode ip fun i => { i with ref := i.ref - 1 }

/-- `iunlockput` -/
def iunlockput (ip : Fin ninode) : Kern Unit := do
  iunlock ip
  iput ip

/-- One round of the loop of `ialloc`. -/
def iallocSlot (dev : ℕ) (type : BitVec 16) (inum : ℕ) : Kern (Option (Fin ninode)) := do
  let m ← get
  let bp ← bread dev (m.sb.iblock inum)
  let d ← data bp
  if (Dinode.decode d (inum % ipb)).type = 0 then
    setData bp (Dinode.store d (inum % ipb) { type := type })
    logWrite bp
    brelse bp
    return some (← iget dev inum)
  else
    brelse bp
    return none

/-- `ialloc`; it never returns a null pointer. -/
def ialloc (dev : ℕ) (type : BitVec 16) : Kern (Fin ninode) := do
  let m ← get
  match ← Prog.forFirst (iallocSlot dev type) 1 ((i32 m.sb.ninodes) - 1).toNat with
  | some ip => return ip
  | none => Kern.panic "ialloc: no inodes"

/-- `ip->addrs[k] = addr` -/
def Inode.setAddr (i : Inode) (k : Fin (ndirect + 1)) (addr : ℕ) : Inode :=
  { i with din := { i.din with addrs := Function.update i.din.addrs k (BitVec.ofNat 32 addr) } }

/-- `ip->addrs[k]`, with a block allocated for it if it is 0. -/
def allocAddr (ip : Fin ninode) (k : Fin (ndirect + 1)) : Kern ℕ := do
  let i ← getInode ip
  if i.din.addrs k = 0 then
    let addr ← balloc i.dev
    modifyInode ip fun i => i.setAddr k addr
    return addr
  else return (i.din.addrs k).toNat

/-- The slot of the address of the indirect block: `NDIRECT`. -/
abbrev indirectSlot : Fin (ndirect + 1) := Fin.last ndirect

/-- `bmap` -/
def bmap (ip : Fin ninode) (bn : ℕ) (create : Bool) : Kern ℕ := do
  let i ← getInode ip
  if hdirect : bn < ndirect then
    if i.din.addrs ⟨bn, Nat.lt_succ_of_lt hdirect⟩ = 0 ∧ create = false then return 0
    else allocAddr ip ⟨bn, Nat.lt_succ_of_lt hdirect⟩
  else if bn - ndirect < nindirect then
    if i.din.addrs indirectSlot = 0 ∧ create = false then return 0
    else
      let addr ← allocAddr ip indirectSlot
      let bp ← bread i.dev addr
      let a ← data bp
      if indirectEntry a (bn - ndirect) = 0 ∧ create = true then
        let addr ← balloc i.dev
        let a ← data bp
        setData bp (setIndirectEntry a (bn - ndirect) addr)
        logWrite bp
        brelse bp
        return addr
      else
        brelse bp
        return indirectEntry a (bn - ndirect)
  else Kern.panic "bmap: out of range"

/-- The loop of `readi` for the `n` bytes that are left; every round makes progress. -/
def readLoop (ip : Fin ninode) : ℕ → ℕ → ℕ → Kern (List UInt8)
  | 0, _, _ => return []
  | rounds + 1, off, n =>
      if n = 0 then return []
      else do
        let addr ← bmap ip (off / bsize) false
        let m := min (bsize - off % bsize) n
        let i ← getInode ip
        let bytes ←
          if addr = 0 then pure (List.replicate m 0)
          else do
            let bp ← bread i.dev addr
            let d ← data bp
            brelse bp
            pure (d.slice (off % bsize) m)
        let rest ← readLoop ip rounds (off + m) (n - m)
        return bytes ++ rest

/-- `readi`: the bytes it copies, `none` if it returns -1. -/
def readi (ip : Fin ninode) (off n : ℕ) : Kern (Option (List UInt8)) := do
  let i ← getInode ip
  if i.din.size.toNat < off ∨ u32 (off + n) < off then return none
  else
    let n := if i.din.size.toNat < u32 (off + n) then i.din.size.toNat - off else n
    return some (← readLoop ip n off n)

/-- The loop of `writei` for the bytes that are left, `false` if it returns -1. -/
def writeLoop (ip : Fin ninode) : ℕ → ℕ → List UInt8 → Kern Bool
  | 0, _, _ => return true
  | rounds + 1, off, src =>
      if src.length = 0 then return true
      else do
        let addr ← bmap ip (off / bsize) true
        if addr = 0 then return false
        else
          let i ← getInode ip
          let bp ← bread i.dev addr
          let m := min (bsize - off % bsize) src.length
          let d ← data bp
          setData bp (d.write (off % bsize) (src.take m))
          logWrite bp
          brelse bp
          writeLoop ip rounds (off + m) (src.drop m)

/-- `if(off > ip->size) ip->size = off` -/
def Inode.grow (i : Inode) (off : ℕ) : Inode :=
  if i.din.size.toNat < off then { i with din := { i.din with size := BitVec.ofNat 32 off } }
  else i

/-- `writei` after its loop, where `off` has advanced by `n`. -/
def writeEnd (ip : Fin ninode) (off n : ℕ) : Kern ℤ := do
  if 0 < n then
    modifyInode ip fun i => i.grow off
    iupdate ip
    return n
  else return n

/-- `writei` -/
def writei (ip : Fin ninode) (src : List UInt8) (off : ℕ) : Kern ℤ := do
  let i ← getInode ip
  if i.din.size.toNat < off ∨ u32 (off + src.length) < off then return -1
  else if ← writeLoop ip src.length off src then writeEnd ip (off + src.length) src.length
  else return -1

/-- One round of the first loop of `itrunc`. -/
def truncDirect (ip : Fin ninode) (k : ℕ) : Kern Unit := do
  let i ← getInode ip
  if hk : k < ndirect then
    if i.din.addrs ⟨k, Nat.lt_succ_of_lt hk⟩ = 0 then return ()
    else
      bfree i.dev (i.din.addrs ⟨k, Nat.lt_succ_of_lt hk⟩).toNat
      modifyInode ip fun i => i.setAddr ⟨k, Nat.lt_succ_of_lt hk⟩ 0
  else return ()

/-- One round of the second loop of `itrunc`. -/
def truncIndirect (ip : Fin ninode) (bp : BufRef) (j : ℕ) : Kern Unit := do
  let i ← getInode ip
  let a ← data bp
  if indirectEntry a j = 0 then return () else bfree i.dev (indirectEntry a j)

/-- The part of `itrunc` that frees the indirect block and the blocks it lists. -/
def truncTail (ip : Fin ninode) : Kern Unit := do
  let i ← getInode ip
  if i.din.addrs indirectSlot = 0 then return ()
  else
    let bp ← bread i.dev (i.din.addrs indirectSlot).toNat
    Prog.forRange (truncIndirect ip bp) 0 nindirect
    brelse bp
    bfree i.dev (i.din.addrs indirectSlot).toNat
    modifyInode ip fun i => i.setAddr indirectSlot 0

/-- `itrunc` -/
def itrunc (ip : Fin ninode) : Kern Unit := do
  Prog.forRange (truncDirect ip) 0 ndirect
  truncTail ip
  modifyInode ip fun i => { i with din := { i.din with size := 0 } }
  iupdate ip

/-! ## Directories -/

/-- `struct dirent` -/
structure Dirent where
  inum : ℕ
  name : Buffer dirsiz

/-- The 16 bytes of a `struct dirent`. -/
def Dirent.encode (de : Dirent) : List UInt8 := le 2 de.inum ++ de.name.slice 0 dirsiz

/-- What 16 bytes say as a `struct dirent`. -/
def Dirent.decode (bytes : List UInt8) : Dirent where
  inum := ofLe (bytes.take 2)
  name := Buffer.zero.write 0 (bytes.drop 2)

/-- The loop of `dirlookup` that compares two names from some position on. -/
def matchFrom : List UInt8 → List UInt8 → Bool
  | c :: name, c' :: name' =>
      if c ≠ c' then false else if c = 0 then true else matchFrom name name'
  | _, _ => true

/-- `dirlookup` takes the two names for equal. -/
def nameMatch (name name' : Buffer dirsiz) : Bool :=
  matchFrom (name.slice 0 dirsiz) (name'.slice 0 dirsiz)

/-- `readi(dp, &de, off, sizeof(de))` with its check. -/
def readDirent (dp : Fin ninode) (off : ℕ) (msg : String) : Kern Dirent := do
  match ← readi dp off 16 with
  | some bytes => if bytes.length = 16 then return .decode bytes else Kern.panic msg
  | none => Kern.panic msg

/-- One round of the loop of `dirlookup`. -/
def dirlookupSlot (dp : Fin ninode) (name : Buffer dirsiz) (k : ℕ) :
    Kern (Option (Fin ninode × ℕ)) := do
  let de ← readDirent dp (16 * k) "dirlookup read"
  if de.inum = 0 then return none
  else if nameMatch name de.name then
    let d ← getInode dp
    return some (← iget d.dev de.inum, 16 * k)
  else return none

/-- `dirlookup`: the inode and `*poff`. -/
def dirlookup (dp : Fin ninode) (name : Buffer dirsiz) : Kern (Option (Fin ninode × ℕ)) := do
  let d ← getInode dp
  if d.din.type ≠ tDir then Kern.panic "dirlookup not DIR"
  else Prog.forFirst (dirlookupSlot dp name) 0 ((d.din.size.toNat + 15) / 16)

/-- One round of the loop of `dirlink` that looks for a free entry. -/
def dirlinkSlot (dp : Fin ninode) (k : ℕ) : Kern (Option ℕ) := do
  let de ← readDirent dp (16 * k) "dirlink read"
  if de.inum = 0 then return some (16 * k) else return none

/-- `dirlink` -/
def dirlink (dp : Fin ninode) (name : Buffer dirsiz) (inum : ℕ) : Kern ℤ := do
  match ← dirlookup dp name with
  | some (ip, _) =>
      iput ip
      return -1
  | none =>
      let d ← getInode dp
      let rounds := ((i32 d.din.size.toNat).toNat + 15) / 16
      let off ← Prog.forFirst (dirlinkSlot dp) 0 rounds
      let de : Dirent := { inum := inum % 2 ^ 16, name := name }
      let n ← writei dp de.encode (off.getD (16 * rounds))
      if n = 16 then return 0 else Kern.panic "dirlink"

/-! ## Paths

A path is the list of its bytes up to the null byte. -/

/-- `'/'` -/
abbrev slash : UInt8 := 47
/-- `'.'` -/
abbrev dot : UInt8 := 46

/-- `skipelem`: the rest of the path and the array `name`, `none` for a null pointer. -/
def skipelem (path : List UInt8) (name : Buffer dirsiz) :
    Option (List UInt8 × Buffer dirsiz) :=
  match path.dropWhile (· = slash) with
  | [] => none
  | path =>
      let s := path.takeWhile (· ≠ slash)
      let name :=
        if dirsiz ≤ s.length then name.write 0 (s.take dirsiz) else name.write 0 (s ++ [0])
      some ((path.dropWhile (· ≠ slash)).dropWhile (· = slash), name)

/-- The loop of `namex`; every round takes at least one byte of the path. -/
def namexLoop (nameiparent : Bool) :
    ℕ → List UInt8 → Buffer dirsiz → Fin ninode → Kern (Option (Fin ninode) × Buffer dirsiz)
  | 0, _, name, _ => return (none, name)
  | rounds + 1, path, name, ip =>
      match skipelem path name with
      | some (path, name) => do
          ilock ip
          let i ← getInode ip
          if i.din.type ≠ tDir then
            iunlockput ip
            return (none, name)
          else if nameiparent = true ∧ path = [] then
            iunlock ip
            return (some ip, name)
          else
            match ← dirlookup ip name with
            | none =>
                iunlockput ip
                return (none, name)
            | some (next, _) =>
                iunlockput ip
                namexLoop nameiparent rounds path name next
      | none =>
          if nameiparent then do
            iput ip
            return (none, name)
          else return (some ip, name)

/-- `namex` with the contents of the array `name`. -/
def namex (path : List UInt8) (nameiparent : Bool) (name : Buffer dirsiz) :
    Kern (Option (Fin ninode) × Buffer dirsiz) := do
  let ip ← iget rootdev rootino
  namexLoop nameiparent (path.length + 1) path name ip

/-- `namei`; its local array `name` starts with the contents `name`. -/
def namei (path : List UInt8) (name : Buffer dirsiz) : Kern (Option (Fin ninode)) := do
  return (← namex path false name).1

/-- `nameiparent` -/
def nameiparent (path : List UInt8) (name : Buffer dirsiz) :
    Kern (Option (Fin ninode) × Buffer dirsiz) := namex path true name

end RiscvOs
