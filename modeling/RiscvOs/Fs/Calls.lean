import RiscvOs.Fs.Model

/-!
# System calls on files

`kernel/file.c`, `kernel/sysfile.c`, and `sys_read` and `sys_write` of
`kernel/sysproc.c`.  The system call table leads to these; `sys_fread` and
`sys_fwrite` are not in it.

`copyin`, `copyout` and `copyinstr` go through user memory page by page and return -1
at the first page that is not mapped; `Mem.user` is that memory byte by byte.
-/

namespace RiscvOs

open Effect Bytes Kern

/-! ## User memory -/

/-- `copyin` of `len` bytes. -/
def Mem.copyin (m : Mem) (srcva : BitVec 64) : ℕ → Option (List UInt8)
  | 0 => some []
  | len + 1 => do
      let byte ← m.user srcva
      let rest ← m.copyin (srcva + 1) len
      return byte :: rest

/-- `copyinstr`: the string up to its null byte. -/
def Mem.copyinstr (m : Mem) (srcva : BitVec 64) : ℕ → Option (List UInt8)
  | 0 => none
  | max + 1 => do
      let byte ← m.user srcva
      if byte = 0 then return []
      else
        let rest ← m.copyinstr (srcva + 1) max
        return byte :: rest

/-- `copyout`, with `false` for -1. -/
def Mem.copyout (m : Mem) (dstva : BitVec 64) : List UInt8 → Bool × Mem
  | [] => (true, m)
  | byte :: rest =>
      if m.user dstva = none then (false, m)
      else Mem.copyout { m with user := Function.update m.user dstva (some byte) } (dstva + 1) rest

/-- `argint` of a register: the low 32 bits as an `int`. -/
def argint (a : BitVec 64) : ℤ := (a.setWidth 32).toInt

/-! ## The file table -/

/-- Assign to fields of one file. -/
def Mem.setFile (m : Mem) (f : Fin nfile) (g : File → File) : Mem :=
  { m with file := Function.update m.file f (g (m.file f)) }

/-- `*f` -/
def getFile (f : Fin nfile) : Kern File := do return (← get).file f

/-- Assign to fields of `*f`. -/
def modifyFile (f : Fin nfile) (g : File → File) : Kern Unit := modify fun m => m.setFile f g

/-- The file `filealloc` takes. -/
def Mem.freeFile (m : Mem) : Option (Fin nfile) :=
  (List.finRange nfile).find? fun f => (m.file f).ref = 0

/-- `filealloc` -/
def filealloc : Kern (Option (Fin nfile)) := do
  let m ← get
  match m.freeFile with
  | some f =>
      modifyFile f fun x => { x with ref := 1 }
      return some f
  | none => return none

/-- `fileclose` from the point where no reference is left. -/
def filefree (f : Fin nfile) : Kern Unit := do
  let x ← getFile f
  if x.type = .inode then
    iput x.ip
    modifyFile f fun x => { x with type := .none }
  else modifyFile f fun x => { x with type := .none }

/-- `fileclose` -/
def fileclose (f : Fin nfile) : Kern Unit := do
  let x ← getFile f
  if x.ref < 1 then Kern.panic "fileclose"
  else
    modifyFile f fun x => { x with ref := x.ref - 1 }
    if 0 < x.ref - 1 then return () else filefree f

/-- `fileread`: the bytes it copies, `none` if it returns -1. -/
def fileread (f : Fin nfile) (n : ℕ) : Kern (Option (List UInt8)) := do
  let x ← getFile f
  if x.readable = false then return none
  else if x.type = .inode then
    ilock x.ip
    let r ← readi x.ip x.off n
    modifyFile f fun x =>
      if 0 < (r.getD []).length then { x with off := u32 (x.off + (r.getD []).length) } else x
    iunlock x.ip
    return r
  else Kern.panic "fileread"

/-- `filewrite` -/
def filewrite (f : Fin nfile) (src : List UInt8) : Kern ℤ := do
  let x ← getFile f
  if x.writable = false then return -1
  else if x.type = .inode then
    ilock x.ip
    let r ← writei x.ip src x.off
    modifyFile f fun x => if 0 < r then { x with off := u32 (x.off + r) } else x
    iunlock x.ip
    return r
  else Kern.panic "filewrite"

/-! ## Opening -/

/-- The assignment `myproc()->ofile[fd] = f`. -/
def Mem.setOfile (m : Mem) (fd : Fin nofile) (f : Option (Fin nfile)) : Mem :=
  let ofile := Function.update (m.ofile m.cur) fd f
  { m with ofile := Function.update m.ofile m.cur ofile }

/-- The descriptor `fdalloc` takes. -/
def Mem.freeFd (m : Mem) : Option (Fin nofile) :=
  (List.finRange nofile).find? fun fd => 3 ≤ fd.val ∧ m.ofile m.cur fd = none

/-- `fdalloc` -/
def fdalloc (f : Fin nfile) : Kern (Option (Fin nofile)) := do
  let m ← get
  match m.freeFd with
  | some fd =>
      modify fun m => m.setOfile fd (some f)
      return some fd
  | none => return none

/-- `omode & O_CREATE`, `omode & O_RDWR`, `omode & O_WRONLY` -/
structure OpenMode where
  word : BitVec 32

namespace OpenMode

/-- `omode & O_CREATE` -/
def create (omode : OpenMode) : Bool := omode.word &&& 0x200 ≠ 0
/-- `omode & O_WRONLY` -/
def wronly (omode : OpenMode) : Bool := omode.word &&& 0x001 ≠ 0
/-- `omode & O_RDWR` -/
def rdwr (omode : OpenMode) : Bool := omode.word &&& 0x002 ≠ 0

end OpenMode

/-- The part of `sys_open` that creates a file in the locked directory `dp`. -/
def openNew (dp : Fin ninode) (name : Buffer dirsiz) : Kern (Option (Fin ninode)) := do
  let d ← getInode dp
  let ip ← ialloc d.dev tFile
  ilock ip
  modifyInode ip fun i => { i with din := { i.din with nlink := 1 } }
  iupdate ip
  let i ← getInode ip
  let r ← dirlink dp name i.inum
  if r < 0 then
    iunlockput ip
    iunlockput dp
    return none
  else
    iunlockput dp
    return some ip

/-- The branch of `sys_open` with `O_CREATE`: the locked inode, unless the call fails. -/
def openCreate (path : List UInt8) (name : Buffer dirsiz) (omode : OpenMode) :
    Kern (Option (Fin ninode)) := do
  match ← nameiparent path name with
  | (none, _) => return none
  | (some dp, name) =>
      ilock dp
      match ← dirlookup dp name with
      | some (ip, _) =>
          iunlockput dp
          ilock ip
          let i ← getInode ip
          if i.din.type = tDir ∧ (omode.rdwr = true ∨ omode.wronly = true) then
            iunlockput ip
            return none
          else return some ip
      | none => openNew dp name

/-- The branch of `sys_open` without `O_CREATE`. -/
def openExisting (path : List UInt8) (name : Buffer dirsiz) (omode : OpenMode) :
    Kern (Option (Fin ninode)) := do
  match ← namei path name with
  | none => return none
  | some ip =>
      ilock ip
      let i ← getInode ip
      if i.din.type = tDir ∧ omode.word ≠ 0 then
        iunlockput ip
        return none
      else return some ip

/-- The end of `sys_open`: a file and a descriptor for the locked inode `ip`. -/
def openFile (ip : Fin ninode) (omode : OpenMode) : Kern ℤ := do
  match ← filealloc with
  | none =>
      iunlockput ip
      return -1
  | some f =>
      match ← fdalloc f with
      | none =>
          fileclose f
          iunlockput ip
          return -1
      | some fd =>
          modifyFile f fun x => { x with
            type := .inode
            ip := ip
            off := 0
            readable := !omode.wronly
            writable := omode.wronly || omode.rdwr }
          iunlock ip
          return (fd.val : ℤ)

/-- `sys_open` between `begin_op` and `end_op`. -/
def openBody (name : Buffer dirsiz) (a₀ a₁ : BitVec 64) : Kern ℤ := do
  let m ← get
  match m.copyinstr a₀ 128 with
  | none => return -1
  | some path =>
      let omode : OpenMode := ⟨a₁.setWidth 32⟩
      match ← (if omode.create then openCreate path name omode
        else openExisting path name omode) with
      | none => return -1
      | some ip => openFile ip omode

/-- `sys_open`, where the local array `name` starts with the contents `name`. -/
def sysOpen (name : Buffer dirsiz) (a₀ a₁ : BitVec 64) : Kern ℤ := do
  beginOp
  let fd ← openBody name a₀ a₁
  endOp
  return fd

/-! ## Closing, reading and writing -/

/-- The descriptor `fd` and its file, unless it is out of range or not open. -/
def Mem.fdFile (m : Mem) (fd : ℤ) : Option (Fin nofile × Fin nfile) :=
  if h : 0 ≤ fd ∧ fd < nofile then
    (m.ofile m.cur ⟨fd.toNat, by omega⟩).map fun f => (⟨fd.toNat, by omega⟩, f)
  else none

/-- `sys_close` -/
def sysClose (a₀ : BitVec 64) : Kern ℤ := do
  let m ← get
  match m.fdFile (argint a₀) with
  | none => return -1
  | some (fd, f) =>
      modify fun m => m.setOfile fd none
      fileclose f
      return 0

/-- The loop of `sys_read` for the `n` bytes that are left, after `total` bytes. -/
def sysReadLoop (f : Fin nfile) : ℕ → BitVec 64 → ℕ → ℕ → Kern ℤ
  | 0, _, _, total => return total
  | rounds + 1, addr, n, total =>
      if n = 0 then return total
      else do
        let m := min n 512
        match ← fileread f m with
        | none => return total
        | some bytes =>
            if bytes.length = 0 then return total
            else
              let mem ← get
              let (ok, mem) := mem.copyout addr bytes
              set mem
              if ok = false then return -1
              else if bytes.length < m then return (total + bytes.length : ℕ)
              else
                sysReadLoop f rounds (addr + BitVec.ofNat 64 bytes.length) (n - bytes.length)
                  (total + bytes.length)

/-- `sys_read` -/
def sysRead (a₀ a₁ a₂ : BitVec 64) : Kern ℤ := do
  if argint a₂ < 0 then return -1
  else if argint a₀ = 0 then return 0
  else
    let m ← get
    match m.fdFile (argint a₀) with
    | none => return -1
    | some (_, f) => sysReadLoop f (argint a₂).toNat a₁ (argint a₂).toNat 0

/-- The loop of `sys_write` for the console; what it prints is left out. -/
def sysWriteConsole : ℕ → BitVec 64 → ℕ → ℕ → Kern ℤ
  | 0, _, _, total => return total
  | rounds + 1, addr, n, total =>
      if n = 0 then return total
      else do
        let len := min n 128
        let m ← get
        match m.copyin addr len with
        | none => return -1
        | some _ => sysWriteConsole rounds (addr + BitVec.ofNat 64 len) (n - len) (total + len)

/-- What `sys_write` does between `begin_op` and `end_op`: `none` when `copyin` fails. -/
def writeChunk (f : Fin nfile) (addr : BitVec 64) (m : ℕ) : Kern (Option ℤ) := do
  let mem ← get
  match mem.copyin addr m with
  | none => return none
  | some buf => return some (← filewrite f buf)

/-- The loop of `sys_write` for the `n` bytes that are left, after `total` bytes. -/
def sysWriteLoop (f : Fin nfile) : ℕ → BitVec 64 → ℕ → ℕ → Kern ℤ
  | 0, _, _, total => return total
  | rounds + 1, addr, n, total =>
      if n = 0 then return total
      else do
        beginOp
        let r ← writeChunk f addr (min n 512)
        endOp
        match r with
        | none => return -1
        | some r =>
            if r ≤ 0 then return total
            else
              sysWriteLoop f rounds (addr + BitVec.ofNat 64 r.toNat) (n - r.toNat)
                (total + r.toNat)

/-- `sys_write` -/
def sysWrite (a₀ a₁ a₂ : BitVec 64) : Kern ℤ := do
  if argint a₂ < 0 then return -1
  else if argint a₀ = 1 ∨ argint a₀ = 2 then
    sysWriteConsole (argint a₂).toNat a₁ (argint a₂).toNat 0
  else
    let m ← get
    match m.fdFile (argint a₀) with
    | none => return -1
    | some (_, f) => sysWriteLoop f (argint a₂).toNat a₁ (argint a₂).toNat 0

/-! ## Removing -/

/-- `sys_unlink` from the point where the entry at `off` of `dp` names the locked file `ip`. -/
def unlinkFile (dp ip : Fin ninode) (off : ℕ) : Kern ℤ := do
  let n ← writei dp (Dirent.encode ⟨0, Buffer.zero⟩) off
  if n ≠ 16 then Kern.panic "unlink: writei"
  else
    modifyInode ip fun i => { i with din := { i.din with nlink := i.din.nlink - 1 } }
    iupdate ip
    iunlockput dp
    let i ← getInode ip
    if i.din.nlink = 0 then
      itrunc ip
      modifyInode ip fun i => { i with din := { i.din with type := 0 } }
      iupdate ip
      iunlockput ip
      return 0
    else
      iunlockput ip
      return 0

/-- The name is `"."` or `".."`. -/
def isDots (name : Buffer dirsiz) : Bool :=
  name.get 0 = dot ∧ (name.get 1 = 0 ∨ name.get 1 = dot ∧ name.get 2 = 0)

/-- `sys_unlink` in the parent directory `dp`. -/
def unlinkIn (dp : Fin ninode) (name : Buffer dirsiz) : Kern ℤ := do
  ilock dp
  if isDots name then
    iunlockput dp
    return -1
  else
    match ← dirlookup dp name with
    | none =>
        iunlockput dp
        return -1
    | some (ip, off) =>
        ilock ip
        let i ← getInode ip
        if i.din.nlink.toInt < 1 then Kern.panic "unlink: nlink < 1"
        else if i.din.type = tDir then
          iunlockput ip
          iunlockput dp
          return -1
        else unlinkFile dp ip off

/-- `sys_unlink` between `begin_op` and `end_op`. -/
def unlinkBody (name : Buffer dirsiz) (a₀ : BitVec 64) : Kern ℤ := do
  let m ← get
  match m.copyinstr a₀ 128 with
  | none => return -1
  | some path =>
      match ← nameiparent path name with
      | (none, _) => return -1
      | (some dp, name) => unlinkIn dp name

/-- `sys_unlink`, where the local array `name` starts with the contents `name`. -/
def sysUnlink (name : Buffer dirsiz) (a₀ : BitVec 64) : Kern ℤ := do
  beginOp
  let r ← unlinkBody name a₀
  endOp
  return r

/-! ## One system call -/

/-- A system call with its argument registers. -/
inductive Syscall
  | open (a₀ a₁ : BitVec 64)
  | read (a₀ a₁ a₂ : BitVec 64)
  | write (a₀ a₁ a₂ : BitVec 64)
  | close (a₀ : BitVec 64)
  | unlink (a₀ : BitVec 64)

/-- The code of a system call; `name` is what the stack held where it puts its local array. -/
def Syscall.prog (name : Buffer dirsiz) : Syscall → Kern ℤ
  | .open a₀ a₁ => sysOpen name a₀ a₁
  | .read a₀ a₁ a₂ => sysRead a₀ a₁ a₂
  | .write a₀ a₁ a₂ => sysWrite a₀ a₁ a₂
  | .close a₀ => sysClose a₀
  | .unlink a₀ => sysUnlink name a₀

end RiscvOs
