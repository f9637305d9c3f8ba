import RiscvOs.Proc.Model

/-!
# Traps and system calls

`kernel/trap.c`, `kernel/syscall.c` and the process calls of `kernel/sysproc.c`, over the
process table of `Proc/Model.lean`.  A process in user mode runs its own program, of
which the kernel sees the registers and the pages it has written when it traps.

The calls that work on files are a parameter, `FileCalls`: whatever they do, they see
the caller only through its arguments, its open files and its memory.
-/

namespace RiscvOs

/-- The user pages of a process, by their indices in its page table. -/
abbrev UserMem : Type := Fin 512 → Fin 512 → Fin 512 → Option Page

/-- A page written by a process, or by the kernel for it. -/
abbrev UserWrite : Type := Fin 512 × Fin 512 × Fin 512 × Page

/-- What a call on files returns, and what it changes. -/
structure FileResult (Φ : Type) where
  ret : ℤ
  ofile : Fin nofile → Option (Fin nfile)
  writes : List UserWrite
  files : Φ

/-- The calls on files: `sys_read`, `sys_open`, `sys_write`, `sys_unlink`, `sys_close`,
`sys_logdump` and `sys_logstat`, by their numbers.  `Φ` is everything that they alone
work on. -/
structure FileCalls (Φ : Type) where
  run : ℤ → (Fin 6 → Word) → (Fin nofile → Option (Fin nfile)) → UserMem → Φ →
    Option (FileResult Φ)

/-- Why a process traps. -/
inductive Cause
  /-- `scause == 8` -/
  | ecall
  /-- The timer interrupt. -/
  | timer
  /-- Any other exception. -/
  | fault
  deriving DecidableEq

/-- A trap: what the process has done in user mode before, and why it traps.  `fuel` bounds the
loops of the call it makes, and `time` is what `rdtime` reads. -/
structure UserTrap where
  regs : Page
  writes : List UserWrite
  cause : Cause
  fuel : ℕ
  time : ℤ

/-- The words of the trapframe in which `uservec` and `usertrap` save registers and pc. -/
def SavedReg (k : Fin 512) : Prop := k = tfEpc ∨ 5 ≤ k.val ∧ k.val ≤ 35

instance (k : Fin 512) : Decidable (SavedReg k) := inferInstanceAs (Decidable (_ ∨ _ ∧ _))

/-- The index of `trapframe.a7`. -/
abbrev tfA7 : Fin 512 := 21

/-- Argument `n` of a system call, in the trapframe. -/
def tfArg (n : Fin 6) : Fin 512 := ⟨14 + n, by omega⟩

/-- The `int` at byte `off` of a page is assigned; `off` is a multiple of 4. -/
def storeInt (p : Page) (off : ℕ) (v : ℤ) : Page :=
  let k : Fin 512 := Fin.ofNat 512 (off / 8)
  let w : Word := (BitVec.ofInt 32 v).setWidth 64
  Function.update p k <|
    if off % 8 = 0 then (p k &&& 0xFFFFFFFF00000000) ||| w else (p k &&& 0xFFFFFFFF) ||| (w <<< 32)

namespace Procs

/-- The user pages of the page table at `pt`. -/
def userMem (m : Phys) (pt : ℕ) : UserMem := fun i j k => (m.userPage pt i j k).map m.page

/-- The user pages of `p` are written. -/
def writeUser (s : Procs) (p : Fin nproc) : List UserWrite → Option Procs
  | [] => some s
  | (i, j, k, c) :: writes => do
    let pa ← s.phys.userPage (s.proc p).pagetable i j k
    writeUser (s.setPhys (s.phys.fill pa c)) p writes

/-- A word of `p->trapframe`. -/
def frame (s : Procs) (p : Fin nproc) (k : Fin 512) : Word := s.phys.page (s.proc p).trapframe k

/-- A word of `p->trapframe` is assigned. -/
def setFrame (s : Procs) (p : Fin nproc) (k : Fin 512) (w : Word) : Procs :=
  s.setPhys (s.phys.store (s.proc p).trapframe k w)

/-- `uservec` and the start of `usertrap` save the registers and the pc. -/
def saveRegs (s : Procs) (p : Fin nproc) (regs : Page) : Procs :=
  s.setPhys (s.phys.fill (s.proc p).trapframe fun k => if SavedReg k then regs k else s.frame p k)

/-- The end of `usertrap`: a killed process exits, another one returns to user mode. -/
def finish (s : Procs) (p : Fin nproc) : Procs :=
  if (s.proc p).killed then s.exitProcess p (-1) else s

/-- The end of `syscall` and of `usertrap` after it. -/
def ret (s : Procs) (p : Fin nproc) (r : ℤ) : Procs :=
  (s.setFrame p tfA0 (BitVec.ofInt 64 r)).finish p

/-- `sys_wait` stores the exit status, if the caller has asked for it.  The address is still in
`a0`.  Storing an `int` at an address that is not a multiple of 4 is undefined. -/
def storeStatus (s : Procs) (p : Fin nproc) (w : Waited) : Option Procs :=
  let addr := s.frame p tfA0
  if w.pid > 0 ∧ addr ≠ 0 then
    match s.phys.walkLookup (s.proc p).pagetable addr with
    | none => some s
    | some table =>
      let pte := s.phys.page table (vpn addr 0)
      if pte &&& pteV ≠ 0 ∧ pte &&& pteU ≠ 0 then
        let pa := ptePa pte
        let off := addr.toNat % pgsize
        -- a pid above 0 comes with a status
        if off % 4 = 0 then
          some (s.setPhys (s.phys.fill pa (storeInt (s.phys.page pa) off (w.status.getD 0))))
        else none
      else some s
  else some s

/-- `sys_wait`, from a turn of the loop of `wait_process` on. -/
def waitTurn (s : Procs) (p : Fin nproc) : Option Procs :=
  match s.waitProcess p with
  | (none, s) => some s
  | (some w, s) => (s.storeStatus p w).map fun s => s.ret p w.pid

/-- The scheduler switches to `p`, which runs until it is in user mode or switches away. -/
def dispatch (s : Procs) (p : Fin nproc) : Option Procs :=
  let s := { s.modProc p fun q => { q with state := .running } with cur := some p }
  match (s.proc p).context.ra with
  | .usertrapret => some s
  | .yield => some (s.finish p)
  | .wait => (s.modProc p fun q => { q with chan := none }).waitTurn p

end Procs

/-- The processes, and the state behind the calls on files. -/
structure Users (Φ : Type) where
  procs : Procs
  files : Φ

namespace Users

variable {Φ : Type}

/-- The numbers of the calls on files. -/
def fileCallNums : List ℤ := [5, 15, 16, 18, 21, 22, 23]

/-- A call on files of the process `p`. -/
def fileCall (calls : FileCalls Φ) (s : Users Φ) (p : Fin nproc) (num : ℤ) : Option (Users Φ) := do
  let q := s.procs.proc p
  let r ← calls.run num (fun n => s.procs.frame p (tfArg n)) q.ofile
    (Procs.userMem s.procs.phys q.pagetable) s.files
  let procs := s.procs.modProc p fun q => { q with ofile := r.ofile }
  let procs ← procs.writeUser p r.writes
  return ⟨procs.ret p r.ret, r.files⟩

/-- `syscall()` of the process `p`, and the end of `usertrap` after it. -/
def syscall (lay : Layout) (calls : FileCalls Φ) (s : Users Φ) (p : Fin nproc) (t : UserTrap) :
    Option (Users Φ) :=
  let num := i32 (s.procs.frame p tfA7).toNat
  let a0 := i32 (s.procs.frame p tfA0).toNat
  let procs := s.procs
  if num = 1 then (procs.fork lay t.fuel p).map fun r => { s with procs := r.2.ret p r.1 }
  else if num = 2 then some { s with procs := procs.exitProcess p a0 }
  else if num = 3 then (procs.waitTurn p).map fun procs => { s with procs }
  else if num = 6 then some { s with procs := (procs.kill a0).2.ret p (procs.kill a0).1 }
  else if num = 11 then some { s with procs := procs.ret p (procs.proc p).pid }
  else if num = 12 then
    (procs.sbrk t.fuel p a0).map fun r => { s with procs := r.2.ret p (i32 r.1.toNat) }
  else if num = 14 then some { s with procs := procs.ret p (i32 t.time) }
  else if num ∈ fileCallNums then s.fileCall calls p num
  else some { s with procs := procs.ret p (-1) }

/-- `usertrap()` of the process `p`. -/
def usertrap (lay : Layout) (calls : FileCalls Φ) (s : Users Φ) (p : Fin nproc) (t : UserTrap) :
    Option (Users Φ) :=
  match t.cause with
  | .ecall =>
    if (s.procs.proc p).killed then some { s with procs := s.procs.exitProcess p (-1) }
    else
      syscall lay calls { s with procs := s.procs.setFrame p tfEpc (s.procs.frame p tfEpc + 4) } p t
  | .timer => some { s with procs := s.procs.yield p }
  | .fault =>
    some { s with procs := (s.procs.modProc p fun q => { q with killed := true }).finish p }

/-- The running process traps, or the scheduler picks one. -/
inductive Event
  | trap (t : UserTrap)
  | schedule (p : Fin nproc)

/-- One event. -/
def step (lay : Layout) (calls : FileCalls Φ) (s : Users Φ) : Event → Option (Users Φ)
  | .trap t => do
    let p ← s.procs.cur
    let procs ← s.procs.writeUser p t.writes
    usertrap lay calls { s with procs := procs.saveRegs p t.regs } p t
  | .schedule p =>
    if s.procs.cur = none ∧ (s.procs.proc p).state = .runnable then
      (s.procs.dispatch p).map fun procs => { s with procs }
    else none

/-- What the outside sees: the files, and the process in user mode with its registers and its
memory. -/
def visible (s : Users Φ) : Φ × Option (Fin nproc × Page × UserMem) :=
  (s.files, s.procs.cur.map fun p =>
    (p, fun k => if SavedReg k then s.procs.frame p k else 0,
      Procs.userMem s.procs.phys (s.procs.proc p).pagetable))

end Users

end RiscvOs
