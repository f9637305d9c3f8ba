import RiscvOs.Lib.System
import RiscvOs.Vm.Maps
import RiscvOs.Proc.Model

/-!
# The trap path

`uservec` and `userret` of `kernel/trampoline.S`, `usertrap` and `usertrapret` of
`kernel/trap.c`, `yield` and the switch of the scheduler of `kernel/proc.c`.  The assembly is
executed instruction by instruction, with the registers, the control registers and the page
table of the process; the C code is given by what it does to memory and control registers, and
leaves any values in the general registers.

The processes are those of any type `ι`.  What a process is to find in its registers when it is
resumed is `ctx`: it is not part of the machine, and is assigned when the process traps and when
its system call returns.
-/

namespace RiscvOs.Trap

/-- The general registers. -/
inductive Reg
  | ra | sp | gp | tp | t0 | t1 | t2 | s0 | s1 | a0 | a1 | a2 | a3 | a4 | a5 | a6 | a7
  | s2 | s3 | s4 | s5 | s6 | s7 | s8 | s9 | s10 | s11 | t3 | t4 | t5 | t6
  deriving DecidableEq

/-- The control registers. -/
inductive Csr
  | sscratch | sepc | sstatus | stvec | satp | scause
  deriving DecidableEq

/-- The fields of `struct trapframe`. -/
inductive Field
  | kernelSatp | kernelSp | kernelTrap | epc | kernelHartid
  | reg (r : Reg)
  deriving DecidableEq

/-- `struct trapframe`, a field of 8 bytes after the other. -/
def trapframe : List Field :=
  [.kernelSatp, .kernelSp, .kernelTrap, .epc, .kernelHartid, .reg .ra, .reg .sp, .reg .gp,
   .reg .tp, .reg .t0, .reg .t1, .reg .t2, .reg .s0, .reg .s1, .reg .a0, .reg .a1, .reg .a2,
   .reg .a3, .reg .a4, .reg .a5, .reg .a6, .reg .a7, .reg .s2, .reg .s3, .reg .s4, .reg .s5,
   .reg .s6, .reg .s7, .reg .s8, .reg .s9, .reg .s10, .reg .s11, .reg .t3, .reg .t4, .reg .t5,
   .reg .t6]

namespace Field

/-- The place of a field among the words of the trapframe. -/
def word (f : Field) : Fin 512 := Fin.ofNat 512 (trapframe.idxOf f)

/-- The offset of a field. -/
def offset (f : Field) : ℕ := 8 * trapframe.idxOf f

end Field

/-! ## The machine -/

/-- The machine; `user` is the privilege level. -/
structure Machine where
  regs : Reg → Word
  csr : Csr → Word
  pc : Word
  user : Bool
  mem : Phys

/-- `SSTATUS_SIE` -/
def sstatusSIE : Word := 0x2
/-- `SSTATUS_SPIE` -/
def sstatusSPIE : Word := 0x20
/-- `SSTATUS_SPP` -/
def sstatusSPP : Word := 0x100

/-- The cause of a timer interrupt. -/
def causeTimer : Word := 0x8000000000000005
/-- The cause of a system call. -/
def causeEcall : Word := 8

namespace Machine

def setReg (m : Machine) (r : Reg) (w : Word) : Machine :=
  { m with regs := Function.update m.regs r w }

def setCsr (m : Machine) (c : Csr) (w : Word) : Machine :=
  { m with csr := Function.update m.csr c w }

/-- The page table that `satp` names. -/
def root (satp : Word) : ℕ := ((satp &&& (2 ^ 44 - 1)) <<< 12).toNat

/-- The page that the supervisor gets to at `va`, with the permission `perm`. -/
def translate (m : Phys) (satp va perm : Word) : Option ℕ :=
  (m.leaf (root satp) va).bind fun pte =>
    if pte &&& pteV ≠ 0 ∧ pte &&& perm ≠ 0 ∧ pte &&& pteU = 0 then some (ptePa pte) else none

/-- The place in memory of the aligned doubleword at an address. -/
def access (m : Machine) (va perm : Word) : Option (ℕ × Fin 512) :=
  if va.toNat % 8 = 0 then
    (translate m.mem (m.csr .satp) va perm).map fun pa =>
      (pa, Fin.ofNat 512 (va.toNat % pgsize / 8))
  else none

/-- A trap from user mode with the cause `cause`. -/
def trap (m : Machine) (cause : Word) : Machine :=
  let sstatus := m.csr .sstatus
  -- `SPIE` is the old `SIE`, `SIE` and `SPP` are cleared
  let spie := if sstatus &&& sstatusSIE ≠ 0 then sstatusSPIE else 0
  let m := m.setCsr .sstatus
    (sstatus &&& ~~~(sstatusSIE ||| sstatusSPIE ||| sstatusSPP) ||| spie)
  let m := (m.setCsr .sepc m.pc).setCsr .scause cause
  { m with pc := m.csr .stvec, user := false }

/-- `sret` -/
def sret (m : Machine) : Machine :=
  let sstatus := m.csr .sstatus
  let sie := if sstatus &&& sstatusSPIE ≠ 0 then sstatusSIE else 0
  let user : Bool := sstatus &&& sstatusSPP = 0
  let m := m.setCsr .sstatus
    (sstatus &&& ~~~(sstatusSIE ||| sstatusSPP) ||| sstatusSPIE ||| sie)
  { m with pc := m.csr .sepc, user }

end Machine

/-- The instructions of the trampoline. -/
inductive Instr
  | csrrw (rd : Reg) (c : Csr) (rs : Reg)
  | csrr (rd : Reg) (c : Csr)
  | csrw (c : Csr) (rs : Reg)
  | sd (rs : Reg) (off : ℕ) (base : Reg)
  | ld (rd : Reg) (off : ℕ) (base : Reg)
  | sfenceVma
  | jr (rs : Reg)
  | sret
  deriving DecidableEq

/-- An instruction is executed; `none` is a fault. -/
def exec (m : Machine) : Instr → Option Machine
  | .csrrw rd c rs => some ((m.setCsr c (m.regs rs)).setReg rd (m.csr c))
  | .csrr rd c => some (m.setReg rd (m.csr c))
  | .csrw c rs => some (m.setCsr c (m.regs rs))
  | .sd rs off base =>
      (m.access (m.regs base + BitVec.ofNat 64 off) pteW).map fun (pa, k) =>
        { m with mem := m.mem.store pa k (m.regs rs) }
  | .ld rd off base =>
      (m.access (m.regs base + BitVec.ofNat 64 off) pteR).map fun (pa, k) =>
        m.setReg rd (m.mem.page pa k)
  | .sfenceVma => some m
  | .jr rs => some { m with pc := m.regs rs }
  | .sret => some m.sret

/-- `uservec` -/
def uservec : List Instr :=
  [.csrrw .a0 .sscratch .a0,
   .sd .ra 40 .a0, .sd .sp 48 .a0, .sd .gp 56 .a0, .sd .tp 64 .a0, .sd .t0 72 .a0,
   .sd .t1 80 .a0, .sd .t2 88 .a0, .sd .s0 96 .a0, .sd .s1 104 .a0, .sd .a1 120 .a0,
   .sd .a2 128 .a0, .sd .a3 136 .a0, .sd .a4 144 .a0, .sd .a5 152 .a0, .sd .a6 160 .a0,
   .sd .a7 168 .a0, .sd .s2 176 .a0, .sd .s3 184 .a0, .sd .s4 192 .a0, .sd .s5 200 .a0,
   .sd .s6 208 .a0, .sd .s7 216 .a0, .sd .s8 224 .a0, .sd .s9 232 .a0, .sd .s10 240 .a0,
   .sd .s11 248 .a0, .sd .t3 256 .a0, .sd .t4 264 .a0, .sd .t5 272 .a0, .sd .t6 280 .a0,
   .csrr .t0 .sscratch, .sd .t0 112 .a0,
   .ld .sp 8 .a0, .ld .tp 32 .a0, .ld .t0 16 .a0, .ld .t1 0 .a0,
   .csrw .satp .t1, .sfenceVma, .jr .t0]

/-- `userret` -/
def userret : List Instr :=
  [.csrw .satp .a1, .sfenceVma, .csrw .sscratch .a0,
   .ld .ra 40 .a0, .ld .sp 48 .a0, .ld .gp 56 .a0, .ld .tp 64 .a0, .ld .t0 72 .a0,
   .ld .t1 80 .a0, .ld .t2 88 .a0, .ld .s0 96 .a0, .ld .s1 104 .a0, .ld .a1 120 .a0,
   .ld .a2 128 .a0, .ld .a3 136 .a0, .ld .a4 144 .a0, .ld .a5 152 .a0, .ld .a6 160 .a0,
   .ld .a7 168 .a0, .ld .s2 176 .a0, .ld .s3 184 .a0, .ld .s4 192 .a0, .ld .s5 200 .a0,
   .ld .s6 208 .a0, .ld .s7 216 .a0, .ld .s8 224 .a0, .ld .s9 232 .a0, .ld .s10 240 .a0,
   .ld .s11 248 .a0, .ld .t3 256 .a0, .ld .t4 264 .a0, .ld .t5 272 .a0, .ld .t6 280 .a0,
   .ld .a0 112 .a0, .sret]

/-- Instructions are executed one after the other. -/
def execAll (m : Machine) (is : List Instr) : Option Machine := is.foldlM exec m

/-! ## The processes -/

/-- What `alloc_process` and the linker have laid down. -/
structure Kernel (ι : Type) where
  trapframe : ι → ℕ
  trapframe_injective : Function.Injective trapframe
  pagetable : ι → ℕ
  kstack : ι → ℕ
  /-- `usertrap` -/
  usertrap : Word
  /-- `kernelvec` -/
  kernelvec : Word
  /-- `userret - trampoline` -/
  userretOff : Word
  /-- The page table of the kernel, as `satp` names it. -/
  satp : Word

/-- Where a process goes on in the kernel when it is scheduled. -/
inductive Kont
  /-- in `usertrapret`, as a new process -/
  | ret
  /-- in `usertrap`, behind `yield` -/
  | leave
  /-- in its system call, behind `sleep` -/
  | handler
  deriving DecidableEq

/-- Where the machine is. -/
inductive Loc
  | user
  /-- at the start of `usertrap` -/
  | trapped
  /-- in the handler of a system call -/
  | handler
  /-- at the end of `usertrap` -/
  | leave
  /-- at the start of `usertrapret` -/
  | ret
  | scheduler
  deriving DecidableEq

def Kont.loc : Kont → Loc
  | .ret => .ret
  | .leave => .leave
  | .handler => .handler

/-- What a process finds when it is resumed. -/
structure Context where
  regs : Reg → Word
  pc : Word

/-- The machine, the process table, and `ctx`. -/
structure State (ι : Type) where
  m : Machine
  loc : Loc
  cur : Option ι
  state : ι → ProcState
  kont : ι → Kont
  killed : ι → Bool
  ctx : ι → Context

variable {ι : Type} [DecidableEq ι]

namespace Machine

/-- A field of a trapframe. -/
def field (m : Machine) (tf : ℕ) (f : Field) : Word := m.mem.page tf f.word

/-- A field of a trapframe is assigned. -/
def setField (m : Machine) (tf : ℕ) (f : Field) (w : Word) : Machine :=
  { m with mem := m.mem.store tf f.word w }

/-- `intr_off` -/
def intrOff (m : Machine) : Machine := m.setCsr .sstatus (m.csr .sstatus &&& ~~~sstatusSIE)

/-- `intr_on` -/
def intrOn (m : Machine) : Machine := m.setCsr .sstatus (m.csr .sstatus ||| sstatusSIE)

/-- C code leaves any values in the registers. -/
def clobber (m : Machine) (regs : Reg → Word) : Machine := { m with regs }

end Machine

namespace Kernel

variable (K : Kernel ι)

/-- `(8ULL << 60) | ((uint64_t)p->pagetable >> 12)` -/
def userSatp (i : ι) : Word := ((8 : Word) <<< 60) ||| (BitVec.ofNat 64 (K.pagetable i) >>> 12)

/-- `TRAMPOLINE + (uservec - trampoline)`; `uservec` is at the start of the page. -/
def uservecVa : Word := trampolineVa + 0

/-- `TRAMPOLINE + (userret - trampoline)` -/
def userretVa : Word := trampolineVa + K.userretOff

/-- `usertrapret`, up to the jump to `userret`. -/
def usertrapret (i : ι) (regs : Reg → Word) (m : Machine) : Machine :=
  let m := m.intrOff
  let m := m.setCsr .stvec uservecVa
  let m := m.setField (K.trapframe i) .kernelSatp (m.csr .satp)
  let m := m.setField (K.trapframe i) .kernelSp (BitVec.ofNat 64 (K.kstack i) + 4096)
  let m := m.setField (K.trapframe i) .kernelTrap K.usertrap
  let m := m.setField (K.trapframe i) .kernelHartid 0
  let x := m.csr .sstatus
  let x := x &&& -((1 : Word) <<< 8)
  let x := x ||| ((1 : Word) <<< 5)
  let m := m.setCsr .sstatus x
  let m := m.setCsr .sepc (m.field (K.trapframe i) .epc)
  -- the arguments of the call of `userret`
  let m := ((m.clobber regs).setReg .a0 trapframeVa).setReg .a1 (K.userSatp i)
  { m with pc := K.userretVa }

end Kernel

namespace State

/-- A process has trapped, and `uservec` has made the machine `m`. -/
def enter (s : State ι) (i : ι) (cause : Word) (m : Machine) : State ι :=
  { s with
    m, loc := .trapped
    -- the counter is to be 4 further after a system call
    ctx := Function.update s.ctx i
      ⟨s.m.regs, if cause = causeEcall then s.m.pc + 4 else s.m.pc⟩ }

/-- The assignment of the result in `syscall`. -/
def sysret (s : State ι) (K : Kernel ι) (i : ι) (r : Word) : State ι :=
  { s with
    m := s.m.setField (K.trapframe i) (.reg .a0) r, loc := .leave
    ctx := Function.update s.ctx i ⟨Function.update (s.ctx i).regs .a0 r, (s.ctx i).pc⟩ }

/-- `yield`, and the end of the round of the scheduler. -/
def yield (s : State ι) (i : ι) : State ι :=
  { s with
    state := Function.update s.state i .runnable, kont := Function.update s.kont i .leave
    cur := none, loc := .scheduler }

/-- `exit_process`, and the end of the round of the scheduler. -/
def exitProcess (s : State ι) (i : ι) : State ι :=
  { s with
    m := s.m.intrOff, state := Function.update s.state i .zombie, cur := none, loc := .scheduler }

/-- `usertrap`, up to the call of the handler of a system call; `none` is a panic. -/
def usertrap (K : Kernel ι) (s : State ι) (i : ι) : Option (State ι) :=
  if s.m.csr .sstatus &&& 0x100 ≠ 0 then none
  else
    let m := s.m.setCsr .stvec K.kernelvec
    let m := m.setField (K.trapframe i) .epc (m.csr .sepc)
    let scause := m.csr .scause
    if scause = 8 then
      if s.killed i then some ({ s with m } |>.exitProcess i)
      else
        let m := m.setField (K.trapframe i) .epc (m.field (K.trapframe i) .epc + 4)
        some { s with m := m.intrOn, loc := .handler }
    else if scause &&& 0x8000000000000000 ≠ 0 ∧ scause &&& 0xff = 5 then
      some ({ s with m } |>.yield i)
    else some { s with m, killed := Function.update s.killed i true, loc := .leave }

/-- The end of `usertrap`. -/
def leave (s : State ι) (i : ι) : State ι :=
  if s.killed i then s.exitProcess i else { s with loc := .ret }

end State

/-- Whatever the trapframes hold, the address of the trapframe leads to the process's own. -/
def MapsFrame (K : Kernel ι) (m : Phys) (i : ι) : Prop :=
  ∀ m' : Phys, (∀ q, (∀ j, q ≠ K.trapframe j) → m'.page q = m.page q) →
    ∀ perm, perm = pteR ∨ perm = pteW →
      Machine.translate m' (K.userSatp i) trapframeVa perm = some (K.trapframe i)

/-- No trapframe is touched, and no mapping of a trapframe. -/
structure Keeps (K : Kernel ι) (m m' : Phys) : Prop where
  page : ∀ i, m'.page (K.trapframe i) = m.page (K.trapframe i)
  maps : ∀ i, MapsFrame K m i → MapsFrame K m' i

/-- The steps of the machine.  A trap has a cause, and a system call a result. -/
inductive Label (ι : Type)
  | user
  | trap (i : ι) (cause : Word)
  | usertrap
  | kernel
  | sleep
  | exit
  | sysret (i : ι) (r : Word)
  | leave
  | ret (i : ι)
  | dispatch (i : ι)
  deriving DecidableEq

/-- One step.  The program of a process and the kernel's own code do anything to the machine but
to the trapframes and their mappings; the kernel stays with its page table, and lets a process
that has exited rest. -/
inductive Step (K : Kernel ι) (s : State ι) : Label ι → State ι → Prop
  | user (regs : Reg → Word) (pc : Word) (mem : Phys) (hloc : s.loc = .user)
      (hmode : s.m.user = true) (hmem : Keeps K s.m.mem mem) :
      Step K s .user { s with m := { s.m with regs, pc, mem } }
  | trap {i : ι} {cause : Word} {m : Machine} (hloc : s.loc = .user) (hmode : s.m.user = true)
      (hcur : s.cur = some i) (hcause : cause = causeTimer ∨ cause = causeEcall)
      (hpc : (s.m.trap cause).pc = Kernel.uservecVa)
      (hexec : execAll (s.m.trap cause) uservec = some m) :
      Step K s (.trap i cause) (s.enter i cause m)
  | usertrap {i : ι} {t : State ι} (regs : Reg → Word) (hloc : s.loc = .trapped)
      (hcur : s.cur = some i) (hpc : s.m.pc = K.usertrap) (hsatp : s.m.csr .satp = K.satp)
      (hrun : State.usertrap K s i = some t) :
      Step K s .usertrap { t with m := t.m.clobber regs }
  | kernel (regs : Reg → Word) (csr : Csr → Word) (mem : Phys) (state : ι → ProcState)
      (killed : ι → Bool) (huser : s.loc ≠ .user) (htrapped : s.loc ≠ .trapped)
      (hsatp : csr .satp = s.m.csr .satp) (hmem : Keeps K s.m.mem mem)
      (hzombie : ∀ i, state i = .zombie ↔ s.state i = .zombie) :
      Step K s .kernel { s with m := { s.m with regs, csr, mem }, state, killed }
  | sleep {i : ι} (hloc : s.loc = .handler) (hcur : s.cur = some i) :
      Step K s .sleep { s with
        state := Function.update s.state i .sleeping, kont := Function.update s.kont i .handler
        cur := none, loc := .scheduler }
  | exit {i : ι} (hloc : s.loc = .handler) (hcur : s.cur = some i) :
      Step K s .exit (s.exitProcess i)
  | sysret {i : ι} (r : Word) (hloc : s.loc = .handler) (hcur : s.cur = some i) :
      Step K s (.sysret i r) (s.sysret K i r)
  | leave {i : ι} (regs : Reg → Word) (hloc : s.loc = .leave) (hcur : s.cur = some i) :
      Step K s .leave { s.leave i with m := (s.leave i).m.clobber regs }
  | ret {i : ι} {m : Machine} (regs : Reg → Word) (hloc : s.loc = .ret) (hcur : s.cur = some i)
      (hexec : execAll (K.usertrapret i regs s.m) userret = some m) :
      Step K s (.ret i) { s with m, loc := .user }
  | dispatch {i : ι} (hloc : s.loc = .scheduler) (hrun : s.state i = .runnable) :
      Step K s (.dispatch i) { s with
        state := Function.update s.state i .running, cur := some i, loc := (s.kont i).loc }

/-- The trapframe of a process holds what the process is to find. -/
structure Saved (K : Kernel ι) (s : State ι) (i : ι) : Prop where
  regs : ∀ r, s.m.field (K.trapframe i) (.reg r) = (s.ctx i).regs r
  pc : s.m.field (K.trapframe i) .epc = (s.ctx i).pc

/-- The runs of the machine: at first the scheduler runs, and every process is new. -/
def machine (K : Kernel ι) : System (State ι) (Label ι) where
  init s := s.loc = .scheduler ∧ s.cur = none ∧ s.m.csr .satp = K.satp ∧
    (∀ i, s.kont i = .ret) ∧ (∀ i, MapsFrame K s.m.mem i) ∧ ∀ i, Saved K s i
  step := Step K

end RiscvOs.Trap
