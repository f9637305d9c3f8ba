import RiscvOs.Fs.Power
import RiscvOs.Fs.ByteArray

/-!
# What the file system is for

`Flat` is the file system as its users see it: one directory, whose files are byte arrays with a
name, and descriptors that have an offset.  `Flat.Does` says what each call returns, which bytes
it puts into user memory and what it leaves.  There are no inodes, blocks or caches in it, and
nothing is translated from the code.

`flat files` is the machine with such a file system and a power supply: a cut leaves the files as
they were before the call, or as a first part of it leaves them, and closes all descriptors.
-/

namespace RiscvOs

open Effect Bytes Kern

/-! ## Files and descriptors -/

/-- What a descriptor is open on. -/
inductive Place
  | dir
  | file (nm : List UInt8)
  deriving DecidableEq

/-- An open descriptor. -/
structure Desc where
  place : Place
  off : ℕ
  readable : Bool
  writable : Bool
  deriving DecidableEq

/-- The files of the one directory, and the descriptors of each process. -/
structure Flat where
  files : List UInt8 → Option (List UInt8)
  desc : Fin nproc → Fin nofile → Option Desc

/-- The name is `.` or `..`, which the directory has for itself. -/
abbrev IsSelf (nm : List UInt8) : Prop := nm = [dot] ∨ nm = [dot, dot]

/-- The names along a path; a name has at most 14 bytes. -/
def pathNames (path : List UInt8) : List (List UInt8) := (components path).map (·.take dirsiz)

/-- The last of some names, if those before it lead back to the directory. -/
def lastName (names : List (List UInt8)) : Option (List UInt8) :=
  if ∀ nm ∈ names.dropLast, IsSelf nm then names.getLast? else none

/-- The path at an address. -/
def UserBytes.path (user : UserBytes) (a : BitVec 64) : Option (List UInt8) :=
  Mem.copyinstr { user := user } a 128

namespace Flat

/-- The file with a name is given contents, or taken away. -/
def setFile (s : Flat) (nm : List UInt8) (bytes : Option (List UInt8)) : Flat :=
  { s with files := Function.update s.files nm bytes }

/-- A descriptor is opened, moved or closed. -/
def setDesc (s : Flat) (p : Fin nproc) (fd : Fin nofile) (d : Option Desc) : Flat :=
  { s with desc := Function.update s.desc p (Function.update (s.desc p) fd d) }

/-- The contents of a file. -/
def content (s : Flat) (nm : List UInt8) : List UInt8 := (s.files nm).getD []

/-- What some names lead to. -/
def leadsTo (s : Flat) (names : List (List UInt8)) : Option Place :=
  if ∀ nm ∈ names, IsSelf nm then some .dir
  else (lastName names).bind fun nm => if s.files nm = none then none else some (.file nm)

/-- What is opened at a path, with the file that is made if there is none. -/
def finds (s : Flat) (path : List UInt8) (omode : OpenMode) : Option (Place × Flat) :=
  if omode.create then
    (lastName (pathNames path)).bind fun nm =>
      if IsSelf nm then
        if omode.rdwr = true ∨ omode.wronly = true then none else some (.dir, s)
      else if s.files nm = none then some (.file nm, s.setFile nm (some []))
      else some (.file nm, s)
  else
    (s.leadsTo (pathNames path)).bind fun place =>
      if place = .dir ∧ omode.word ≠ 0 then none else some (place, s)

/-- As many descriptors are open as there are files in the file table. -/
def Full (s : Flat) : Prop :=
  ∑ p, (Finset.univ.filter fun fd => s.desc p fd ≠ none).card = nfile

instance (s : Flat) : Decidable s.Full := inferInstanceAs (Decidable (_ = _))

/-- The descriptor that `open` takes; the first three are the console's. -/
def freeFd (s : Flat) (p : Fin nproc) : Option (Fin nofile) :=
  (List.finRange nofile).find? fun fd => 3 ≤ fd.val ∧ s.desc p fd = none

/-- A descriptor is opened, if there is one. -/
def take (s : Flat) (p : Fin nproc) (place : Place) (omode : OpenMode) : ℤ × Flat :=
  match if s.Full then none else s.freeFd p with
  | none => (-1, s)
  | some fd =>
      (fd.val, s.setDesc p fd (some ⟨place, 0, !omode.wronly, omode.wronly || omode.rdwr⟩))

/-- `open`.  The file is made even if there is no descriptor for it. -/
def doOpen (s : Flat) (p : Fin nproc) (user : UserBytes) (a₀ a₁ : BitVec 64) : ℤ × Flat :=
  match (user.path a₀).bind fun path => s.finds path ⟨a₁.setWidth 32⟩ with
  | none => (-1, s)
  | some (place, s) => s.take p place ⟨a₁.setWidth 32⟩

/-- `unlink` -/
def unlink (s : Flat) (user : UserBytes) (a₀ : BitVec 64) : ℤ × Flat :=
  match (user.path a₀).bind fun path => lastName (pathNames path) with
  | none => (-1, s)
  | some nm => if IsSelf nm ∨ s.files nm = none then (-1, s) else (0, s.setFile nm none)

theorem toNat_lt_nofile {fd : ℤ} (h : 0 ≤ fd ∧ fd < nofile) : fd.toNat < nofile := by omega

/-- The descriptor with the number `fd`. -/
def descAt (s : Flat) (p : Fin nproc) (fd : ℤ) : Option (Fin nofile × Desc) :=
  if h : 0 ≤ fd ∧ fd < nofile then
    (s.desc p ⟨fd.toNat, toNat_lt_nofile h⟩).map fun d => (⟨fd.toNat, toNat_lt_nofile h⟩, d)
  else none

/-- The descriptor a call works on. -/
def target (s : Flat) (p : Fin nproc) : Syscall → Option (Fin nofile × Desc)
  | .read a₀ _ a₂ => if argint a₂ < 0 ∨ argint a₀ = 0 then none else s.descAt p (argint a₀)
  | .write a₀ _ a₂ =>
      if argint a₂ < 0 ∨ argint a₀ = 1 ∨ argint a₀ = 2 then none else s.descAt p (argint a₀)
  | .close a₀ => s.descAt p (argint a₀)
  | _ => none

/-- The bytes that reading `n` bytes gets; those of the directory are not said. -/
def Reads (s : Flat) (d : Desc) (n : ℕ) (bytes : List UInt8) : Prop :=
  if d.readable = false then bytes = []
  else
    match d.place with
    | .dir => bytes.length ≤ n
    | .file nm => bytes = ((s.content nm).drop d.off).take n

/-- Writing `n` bytes of which `src` can be read. -/
def write (s : Flat) (p : Fin nproc) (fd : Fin nofile) (d : Desc) (n : ℕ) (src : List UInt8) :
    ℤ × Flat :=
  match d.place, d.writable with
  | .file nm, true =>
      (if src.length = n then n else -1,
        (s.setFile nm (some (splice d.off src (s.content nm)))).setDesc p fd
          (some { d with off := d.off + src.length }))
  | _, _ => (if 0 < n ∧ src = [] then -1 else 0, s)

/-- What a call of process `p` with the memory `user` returns and leaves. -/
inductive Does (s : Flat) (p : Fin nproc) (user : UserBytes) :
    Syscall → ℤ → UserBytes → Flat → Prop
  | «open» {a₀ a₁ : BitVec 64} {r : ℤ} {s' : Flat} (hdo : s.doOpen p user a₀ a₁ = (r, s')) :
      Does s p user (.open a₀ a₁) r user s'
  | unlink {a₀ : BitVec 64} {r : ℤ} {s' : Flat} (hdo : s.unlink user a₀ = (r, s')) :
      Does s p user (.unlink a₀) r user s'
  | idle {call : Syscall} (hwalks : ¬ call.Walks) (htarget : s.target p call = none) :
      Does s p user call (call.idles { user := user }) user s
  | close {a₀ : BitVec 64} {fd : Fin nofile} {d : Desc}
      (htarget : s.target p (.close a₀) = some (fd, d)) :
      Does s p user (.close a₀) 0 user (s.setDesc p fd none)
  | read {a₀ a₁ a₂ : BitVec 64} {fd : Fin nofile} {d : Desc} {bytes : List UInt8}
      (htarget : s.target p (.read a₀ a₁ a₂) = some (fd, d))
      (hreads : s.Reads d (argint a₂).toNat bytes) (hput : (user.put a₁ bytes).1 = true) :
      Does s p user (.read a₀ a₁ a₂) bytes.length (user.put a₁ bytes).2
        (s.setDesc p fd (some { d with off := d.off + bytes.length }))
  /-- The memory is not mapped. -/
  | faulted {a₀ a₁ a₂ : BitVec 64} {fd : Fin nofile} {d : Desc} {bytes : List UInt8} {off : ℕ}
      (htarget : s.target p (.read a₀ a₁ a₂) = some (fd, d))
      (hreads : s.Reads d (argint a₂).toNat bytes) (hput : (user.put a₁ bytes).1 = false)
      (hoff : d.off < off ∧ off ≤ d.off + bytes.length) :
      Does s p user (.read a₀ a₁ a₂) (-1) (user.put a₁ bytes).2
        (s.setDesc p fd (some { d with off := off }))
  | write {a₀ a₁ a₂ : BitVec 64} {fd : Fin nofile} {d : Desc} {r : ℤ} {s' : Flat}
      (htarget : s.target p (.write a₀ a₁ a₂) = some (fd, d))
      (hdo : s.write p fd d (argint a₂).toNat
        (Mem.taken { user := user } a₁ (argint a₂).toNat) = (r, s')) :
      Does s p user (.write a₀ a₁ a₂) r user s'

end Flat

/-! ## Power cuts -/

/-- A machine that is on, or the files of one that is off. -/
inductive FlatPower
  | on (s : Flat)
  | off (files : List UInt8 → Option (List UInt8))

/-- What users see: the calls with what they return and leave in user memory. -/
inductive Seen
  | call (c : UserCall) (r : ℤ) (user : UserBytes)
  | cut (c : UserCall)
  | boot
  | cutBoot

/-- One event. -/
inductive FlatPower.Step : FlatPower → Seen → FlatPower → Prop
  | call {s s' : Flat} {c : UserCall} {r : ℤ} {user : UserBytes}
      (hdoes : s.Does c.proc c.user c.call r user s') : Step (.on s) (.call c r user) (.on s')
  | cutBefore {s : Flat} {c : UserCall} : Step (.on s) (.cut c) (.off s.files)
  | cutAfter {s s' : Flat} {c : UserCall} {part : Syscall} {r : ℤ} {user : UserBytes}
      (hpart : part.Upto c.call) (hdoes : s.Does c.proc c.user part r user s') :
      Step (.on s) (.cut c) (.off s'.files)
  | boot {files : List UInt8 → Option (List UInt8)} :
      Step (.off files) .boot (.on ⟨files, fun _ _ => none⟩)
  | cutBoot {files : List UInt8 → Option (List UInt8)} : Step (.off files) .cutBoot (.off files)

/-- All runs that start with some files. -/
def flat (files : List UInt8 → Option (List UInt8)) : System FlatPower Seen where
  init s := s = .off files
  step := FlatPower.Step

end RiscvOs
