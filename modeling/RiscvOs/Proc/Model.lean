import RiscvOs.Vm.Model
import Mathlib.Data.Fintype.Basic

/-!
# Processes

`kernel/proc.c`.  A `struct proc *` is a slot of the process table.  The saved
context of a process that is switched out is the place where `swtch` returns to,
`Resume`, and its stack pointer; the callee-saved registers belong to the compiled
code.

Two places of the kernel run other processes' code in between: `swtch` leaves
`current_proc` to the scheduler, which picks a `RUNNABLE` slot and returns to where
that process stopped.  A function that switches away therefore ends there, and
`Procs.resume` goes on with the rest of it.
-/

namespace RiscvOs

/-- `enum procstate` -/
inductive ProcState
  | unused | used | runnable | running | sleeping | zombie
  deriving DecidableEq

/-- Where `swtch` to a process returns. -/
inductive Resume
  /-- The start of `usertrapret`, as `fork` and `user_init` set it up. -/
  | usertrapret
  /-- The end of `yield`. -/
  | yield
  /-- The end of `sleep(p, 0)` inside the loop of `wait_process`. -/
  | wait
  deriving DecidableEq

/-- `struct context` -/
structure Context where
  ra : Resume := .usertrapret
  sp : ℕ := 0
  deriving DecidableEq

/-- `struct proc`; 0 is the null pointer of `kstack`, `pagetable` and `trapframe`. -/
structure Proc where
  context : Context := {}
  state : ProcState := .unused
  pid : ℤ := 0
  kstack : ℕ := 0
  name : Fin 16 → UInt8 := fun _ => 0
  parent : Option (Fin nproc) := none
  chan : Option (Fin nproc) := none
  exitCode : ℤ := 0
  killed : Bool := false
  sz : Word := 0
  pagetable : ℕ := 0
  trapframe : ℕ := 0
  ofile : Fin nofile → Option (Fin nfile) := fun _ => none

/-- What the linker lays down: the end of the kernel, its trampoline page and the embedded
`init` program; and the pages `kvminit` keeps for the kernel's own page table. -/
structure Layout where
  kend : ℕ
  trampoline : ℕ
  initBin : List UInt8
  kernelPages : ℕ
  kend_pos : 0 < kend
  kend_le : kend ≤ phystop
  trampoline_lt : trampoline < kend

/-- The pages `user_init` loads the program into. -/
def Layout.numPages (lay : Layout) : ℕ := (lay.initBin.length + pgsize - 1) / pgsize

/-- Physical memory, `proc`, `nextpid` and `current_proc`. -/
structure Procs where
  phys : Phys := {}
  proc : Fin nproc → Proc := fun _ => {}
  nextpid : ℤ := 1
  cur : Option (Fin nproc) := none

/-- `safestrcpy(s, t, 16)` -/
def safestrcpy (s t : Fin 16 → UInt8) : Fin 16 → UInt8 :=
  -- `stop` is the index at which the loop ends
  let stop := ((List.finRange 16).takeWhile fun i => i.val < 15 ∧ t i ≠ 0).length
  fun i => if i.val < stop then t i else if i.val = stop then 0 else s i

/-- The string `"init"`. -/
def initName : Fin 16 → UInt8 := fun i => ([105, 110, 105, 116] : List UInt8).getD i 0

/-- Word `i` of the page that holds `bytes` followed by zeros. -/
def pageOf (bytes : List UInt8) : Page := fun i =>
  BitVec.ofNat 64 (((List.range 8).map fun k => (bytes.getD (8 * i + k) 0).toNat * 256 ^ k).sum)

/-- The index of `trapframe.epc`. -/
abbrev tfEpc : Fin 512 := 3
/-- The index of `trapframe.sp`. -/
abbrev tfSp : Fin 512 := 6
/-- The index of `trapframe.a0`. -/
abbrev tfA0 : Fin 512 := 14

namespace Procs

/-- A slot is assigned. -/
def setProc (s : Procs) (i : Fin nproc) (p : Proc) : Procs :=
  { s with proc := Function.update s.proc i p }

/-- A slot is changed. -/
def modProc (s : Procs) (i : Fin nproc) (f : Proc → Proc) : Procs := s.setProc i (f (s.proc i))

/-- Physical memory is changed. -/
def setPhys (s : Procs) (m : Phys) : Procs := { s with phys := m }

/-! ## Switching -/

/-- `swtch(&p->context, &sched_ctx)`, called where `ra` says. -/
def swtch (s : Procs) (p : Fin nproc) (ra : Resume) : Procs :=
  { s.modProc p fun q => { q with context := { q.context with ra } } with cur := none }

/-- `yield()` -/
def yield (s : Procs) (p : Fin nproc) : Procs :=
  (s.modProc p fun q => { q with state := .runnable }).swtch p .yield

/-- `sleep(chan, 0)`, called in `wait_process`, up to its `swtch`. -/
def sleep (s : Procs) (p chan : Fin nproc) : Procs :=
  (s.modProc p fun q => { q with chan := some chan, state := .sleeping }).swtch p .wait

/-- `wakeup(chan)` -/
def wakeup (s : Procs) (chan : Fin nproc) : Procs :=
  { s with
    proc := fun i =>
      let q := s.proc i
      if q.state = .sleeping ∧ q.chan = some chan then { q with state := .runnable, chan := none }
      else q }

/-! ## Creating processes -/

/-- The first slot that is `UNUSED`. -/
def firstUnused (s : Procs) : Option (Fin nproc) :=
  (List.finRange nproc).find? fun i => (s.proc i).state = .unused

/-- The rest of `alloc_process`, once it has found the slot `i`. -/
def allocSlot (lay : Layout) (s : Procs) (i : Fin nproc) : Option (Option (Fin nproc) × Procs) := do
  let s := { s.modProc i fun q => { q with pid := s.nextpid, state := .used } with
    nextpid := i32 (s.nextpid + 1) }
  let (kstack, m) := s.phys.allocPage
  let s := (s.setPhys m).modProc i fun q => { q with kstack }
  if kstack = 0 then return (none, s)
  -- `create_pagetable` returns no null pointer, so `free_page(p->kstack)` is never reached
  let (pagetable, m) ← s.phys.createPagetable
  let s := (s.setPhys m).modProc i fun q => { q with pagetable }
  let (trapframe, m) := s.phys.allocPage
  let s := (s.setPhys m).modProc i fun q => { q with trapframe }
  if trapframe = 0 then return (none, s)
  let (_, m) ← s.phys.mapPage pagetable trampolineVa lay.trampoline (pteR ||| pteX)
  let (_, m) ← m.mapPage pagetable trapframeVa trapframe (pteR ||| pteW)
  let s := (s.setPhys m).modProc i fun q =>
    { q with sz := 0, context := { q.context with sp := kstack + pgsize }, parent := none,
             chan := none }
  return (some i, s)

/-- `alloc_process()` -/
def allocProcess (lay : Layout) (s : Procs) : Option (Option (Fin nproc) × Procs) :=
  match s.firstUnused with
  | none => some (none, s)
  | some i => s.allocSlot lay i

/-- The loop of `user_init` that loads `bytes` page by page, from page `i` on.  The answer is
whether every page was allocated. -/
def loadPages (m : Phys) (pt : ℕ) (bytes : List UInt8) : ℕ → ℕ → Option (Bool × Phys)
  | _, 0 => some (true, m)
  | i, count + 1 => do
    let (mem, m) := m.allocPage
    if mem = 0 then return (false, m)
    let m := m.fill mem (pageOf (bytes.drop (i * pgsize)))
    let (_, m) ← m.mapPage pt (BitVec.ofNat 64 (i * pgsize)) mem (pteR ||| pteW ||| pteX ||| pteU)
    loadPages m pt bytes (i + 1) count

/-- `user_init()` -/
def userInit (lay : Layout) (s : Procs) : Option Procs := do
  let (slot, s) ← s.allocProcess lay
  match slot with
  | none => return s
  | some i =>
    let s := s.modProc i fun q => { q with parent := none, name := safestrcpy q.name initName }
    let (ok, m) ← loadPages s.phys (s.proc i).pagetable lay.initBin 0 lay.numPages
    if ok = false then return s.setPhys m
    let s := (s.setPhys m).modProc i fun q => { q with sz := BitVec.ofNat 64 (lay.numPages * pgsize) }
    let (stack, m) := s.phys.allocPage
    if stack = 0 then return s.setPhys m
    let m := m.fill stack fun _ => 0
    let stackVa := (s.proc i).sz
    let (_, m) ← m.mapPage (s.proc i).pagetable stackVa stack (pteR ||| pteW ||| pteU)
    let m := m.store (s.proc i).trapframe tfEpc 0
    let m := m.store (s.proc i).trapframe tfSp (stackVa + 4096)
    return (s.setPhys m).modProc i fun q =>
      { q with sz := q.sz + 4096, state := .runnable,
               context := ⟨.usertrapret, q.kstack + pgsize⟩ }

/-- The loop of `fork`, from `va` on: every page that `parent` maps below `sz` is copied and
mapped in `child`.  The answer is whether every page was allocated and mapped.  The loop is
let run for `fuel` turns. -/
def copyPages (parent child : ℕ) (sz : Word) : ℕ → Word → Phys → Option (Bool × Phys)
  | 0, _, _ => none
  | fuel + 1, va, m =>
    if va < sz then
      match (m.walkLookup parent va).map fun table => m.page table (vpn va 0) with
      | none => copyPages parent child sz fuel (va + 4096) m
      | some pte =>
        if pte &&& pteV ≠ 0 then do
          let (mem, m) := m.allocPage
          if mem = 0 then return (false, m)
          let m := m.fill mem (m.page (ptePa pte))
          let (r, m) ← m.mapPage child va mem (pteR ||| pteW ||| pteX ||| pteU)
          if r < 0 then return (false, m.freePage mem)
          copyPages parent child sz fuel (va + 4096) m
        else copyPages parent child sz fuel (va + 4096) m
    else some (true, m)

/-- `fork()` of the process `p`. -/
def fork (lay : Layout) (fuel : ℕ) (s : Procs) (p : Fin nproc) : Option (ℤ × Procs) := do
  let (slot, s) ← s.allocProcess lay
  match slot with
  | none => return (-1, s)
  | some np =>
    let (ok, m) ← copyPages (s.proc p).pagetable (s.proc np).pagetable (s.proc p).sz fuel 0 s.phys
    let s := s.setPhys m
    if ok = false then return (-1, s.modProc np fun q => { q with state := .unused })
    let m := m.fill (s.proc np).trapframe (m.page (s.proc p).trapframe)
    let m := m.store (s.proc np).trapframe tfA0 0
    let s := (s.setPhys m).modProc np fun q =>
      { q with sz := (s.proc p).sz, parent := some p, name := safestrcpy q.name (s.proc p).name,
               context := ⟨.usertrapret, q.kstack + pgsize⟩, state := .runnable }
    return ((s.proc np).pid, s)

/-! ## Ending processes -/

/-- `exit_process(status)` of the process `p`. -/
def exitProcess (s : Procs) (p : Fin nproc) (status : ℤ) : Procs :=
  let s := s.modProc p fun q => { q with exitCode := status, state := .zombie }
  let s := match (s.proc p).parent with
    | some parent => s.wakeup parent
    | none => s
  { s with cur := none }

/-- The first child of `p` that is a `ZOMBIE`, where the loop of `wait_process` stops. -/
def zombieChild (s : Procs) (p : Fin nproc) : Option (Fin nproc) :=
  (List.finRange nproc).find? fun i => (s.proc i).parent = some p ∧ (s.proc i).state = .zombie

/-- `wait_process` reaps the slot `i`. -/
def reap (s : Procs) (i : Fin nproc) : Procs :=
  (s.setPhys (s.phys.freePage (s.proc i).kstack)).modProc i fun q =>
    { q with kstack := 0, state := .unused, pid := 0, parent := none,
             name := Function.update q.name 0 0 }

/-- What `wait_process` returns: a pid, and the exit status if it has assigned one. -/
structure Waited where
  pid : ℤ
  status : Option ℤ
  deriving DecidableEq

/-- One turn of the loop of `wait_process`; it returns, or `sleep` has switched away. -/
def waitProcess (s : Procs) (p : Fin nproc) : Option Waited × Procs :=
  match s.zombieChild p with
  | some i => (some ⟨(s.proc i).pid, some (s.proc i).exitCode⟩, s.reap i)
  | none =>
    if ∃ i, (s.proc i).parent = some p then (none, s.sleep p p)
    else (some ⟨-1, none⟩, s)

/-- What `kill` does to the slot it has found. -/
def killSlot (q : Proc) : Proc :=
  { q with killed := true, state := if q.state = .sleeping then .runnable else q.state }

/-- `kill(pid)` -/
def kill (s : Procs) (pid : ℤ) : ℤ × Procs :=
  match (List.finRange nproc).find? fun i => (s.proc i).pid = pid with
  | some i => (0, s.modProc i killSlot)
  | none => (-1, s)

/-! ## Memory -/

/-- The loop of `sbrk`, from `a` on, let run for `fuel` turns. -/
def growPages (pt : ℕ) (newsz : Word) : ℕ → Word → Phys → Option (Bool × Phys)
  | 0, _, _ => none
  | fuel + 1, a, m =>
    if a < newsz then do
      let (mem, m) := m.allocPage
      if mem = 0 then return (false, m)
      let m := m.fill mem fun _ => 0
      let (r, m) ← m.mapPage pt a mem (pteR ||| pteW ||| pteX ||| pteU)
      if r < 0 then return (false, m.freePage mem)
      growPages pt newsz fuel (a + 4096) m
    else some (true, m)

/-- `sbrk(n)` of the process `p`. -/
def sbrk (fuel : ℕ) (s : Procs) (p : Fin nproc) (n : ℤ) : Option (Word × Procs) := do
  let oldsz := (s.proc p).sz
  let newsz := oldsz + BitVec.ofInt 64 n
  let grown := if n > 0 then growPages (s.proc p).pagetable newsz fuel (pgroundup oldsz) s.phys
    else some (true, s.phys)
  let (ok, m) ← grown
  if ok = false then return (-1, s.setPhys m)
  -- `newsz < 0` is never true of an unsigned number
  return (oldsz, (s.setPhys m).modProc p fun q => { q with sz := newsz })

/-! ## The machine -/

/-- The machine after `pmm_init`, `kvminit` and `proc_init`, and what `user_init` makes of it. -/
def boot (lay : Layout) : Option Procs :=
  userInit lay { phys := (({} : Phys).pmmInit lay.kend).takePages lay.kernelPages }

/-- The calls a running process makes. -/
inductive Call
  | fork (fuel : ℕ)
  | exitProcess (status : ℤ)
  | waitProcess
  | kill (pid : ℤ)
  | sbrk (n : ℤ) (fuel : ℕ)
  | yield

/-- What happens on the machine. -/
inductive Event
  /-- The running process makes a call. -/
  | call (c : Call)
  /-- The scheduler switches to a process. -/
  | schedule (p : Fin nproc)
  /-- The trap code stores registers in the trapframe of the running process. -/
  | trap (c : Page)
  /-- The running process writes to the user page mapped at the entry with these indices. -/
  | write (i j k : Fin 512) (c : Page)

/-- The scheduler switches to `p`, which goes on where it stopped. -/
def resume (s : Procs) (p : Fin nproc) : Option Waited × Procs :=
  let s := { s.modProc p fun q => { q with state := .running } with cur := some p }
  match (s.proc p).context.ra with
  | .wait => (s.modProc p fun q => { q with chan := none }).waitProcess p
  | _ => (none, s)

/-- A call of the running process `p`, with what `wait_process` returned. -/
def call (lay : Layout) (s : Procs) (p : Fin nproc) : Call → Option (Option Waited × Procs)
  | .fork fuel => (s.fork lay fuel p).map fun r => (none, r.2)
  | .exitProcess status => some (none, s.exitProcess p status)
  | .waitProcess => some (s.waitProcess p)
  | .kill pid => some (none, (s.kill pid).2)
  | .sbrk n fuel => (s.sbrk fuel p n).map fun r => (none, r.2)
  | .yield => some (none, s.yield p)

/-- One event.  The answer names the process whose `wait_process` has returned. -/
def step (lay : Layout) (s : Procs) : Event → Option (Option (Fin nproc × Waited) × Procs)
  | .call c => do
    let p ← s.cur
    let (w, s) ← s.call lay p c
    return (w.map fun w => (p, w), s)
  | .schedule p =>
    if s.cur = none ∧ (s.proc p).state = .runnable then
      some ((s.resume p).1.map fun w => (p, w), (s.resume p).2)
    else none
  | .trap c => do
    let p ← s.cur
    return (none, s.setPhys (s.phys.fill (s.proc p).trapframe c))
  | .write i j k c => do
    let p ← s.cur
    let pa ← s.phys.userPage (s.proc p).pagetable i j k
    return (none, s.setPhys (s.phys.fill pa c))

end Procs

end RiscvOs
