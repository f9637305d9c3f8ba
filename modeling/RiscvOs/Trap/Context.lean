import RiscvOs.Trap.Frames
import RiscvOs.Trap.Privilege

/-!
# The context of a process

A process finds its registers and its program counter again when it is resumed, whatever other
processes have trapped and run in between (`context_survives`).

While a process is not running its trapframe holds what it is to find (`Inv`); `uservec` and
`usertrap` put it there, and `usertrapret` and `userret` take it from there, having written
the four kernel fields only.  Where a process stands in the kernel decides what it is to find: on
the way to the handler of a system call (`InCall`), or on the way out (`Leaving`).
-/

namespace RiscvOs.Trap

variable {ι : Type} {K : Kernel ι} {i : ι} {s t : State ι}

namespace Saved

theorem of_page (h : Saved K s i)
    (hpage : t.m.mem.page (K.trapframe i) = s.m.mem.page (K.trapframe i))
    (hctx : t.ctx i = s.ctx i) : Saved K t i where
  regs r := by rw [Machine.field, hpage, hctx]; exact h.regs r
  pc := by rw [Machine.field, hpage, hctx]; exact h.pc

end Saved

/-! ## The invariant -/

/-- The machine is in user mode, and ready for a trap. -/
structure InUser (K : Kernel ι) (s : State ι) (i : ι) : Prop where
  sscratch : s.m.csr .sscratch = trapframeVa
  satp : s.m.csr .satp = K.userSatp i
  stvec : s.m.csr .stvec = Kernel.uservecVa
  kernelSatp : s.m.field (K.trapframe i) .kernelSatp = K.satp
  kernelTrap : s.m.field (K.trapframe i) .kernelTrap = K.usertrap

/-- `uservec` has been executed. -/
structure Trapped (K : Kernel ι) (s : State ι) (i : ι) : Prop where
  regs : ∀ r, s.m.field (K.trapframe i) (.reg r) = (s.ctx i).regs r
  pc : (s.ctx i).pc = if s.m.csr .scause = causeEcall then s.m.csr .sepc + 4 else s.m.csr .sepc
  cause : s.m.csr .scause = causeTimer ∨ s.m.csr .scause = causeEcall
  spp : s.m.csr .sstatus &&& 0x100 = 0
  entry : s.m.pc = K.usertrap

/-- The process runs its own program, or has just left it. -/
def Runs (s : State ι) (i : ι) : Prop := s.cur = some i ∧ (s.loc = .user ∨ s.loc = .trapped)

structure Inv (K : Kernel ι) (s : State ι) : Prop where
  maps : ∀ i, MapsFrame K s.m.mem i
  saved : ∀ i, s.state i ≠ .zombie → ¬ Runs s i → Saved K s i
  user : ∀ i, s.cur = some i → s.loc = .user → InUser K s i
  trapped : ∀ i, s.cur = some i → s.loc = .trapped → Trapped K s i
  kernel : s.loc ≠ .user → s.m.csr .satp = K.satp
  alive : ∀ i, s.cur = some i → s.state i ≠ .zombie
  idle : s.loc = .scheduler → s.cur = none

namespace Inv

/-- In the kernel the trapframes of all processes are to hold what these are to find. -/
theorem of_kernel (hmaps : ∀ i, MapsFrame K t.m.mem i)
    (hsaved : ∀ i, t.state i ≠ .zombie → Saved K t i) (huser : t.loc ≠ .user)
    (htrapped : t.loc ≠ .trapped) (hsatp : t.m.csr .satp = K.satp)
    (halive : ∀ i, t.cur = some i → t.state i ≠ .zombie)
    (hidle : t.loc = .scheduler → t.cur = none) : Inv K t where
  maps := hmaps
  saved i hi _ := hsaved i hi
  user _ _ h := absurd h huser
  trapped _ _ h := absurd h htrapped
  kernel _ := hsatp
  alive := halive
  idle := hidle

theorem saved_kernel (h : Inv K s) (huser : s.loc ≠ .user) (htrapped : s.loc ≠ .trapped) (i : ι)
    (hi : s.state i ≠ .zombie) : Saved K s i :=
  h.saved i hi fun hruns => hruns.2.elim huser htrapped

theorem seesFrame (h : Inv K s) (hcur : s.cur = some i) (hloc : s.loc = .user) (cause : Word) :
    SeesFrame K i (s.m.trap cause) :=
  ⟨(h.user i hcur hloc).satp, h.maps i⟩

end Inv

/-! ## A trap -/

/-- `SPP` is clear after a trap from user mode. -/
theorem trap_spp (m : Machine) (cause : Word) :
    (m.trap cause).csr .sstatus &&& 0x100 = 0 := by
  have hspp : ∀ x spie : Word, spie = sstatusSPIE ∨ spie = 0 →
      (x &&& ~~~(sstatusSIE ||| sstatusSPIE ||| sstatusSPP) ||| spie) &&& 0x100 = 0 := by
    intro x spie hspie
    have hx : x &&& ~~~(sstatusSIE ||| sstatusSPIE ||| sstatusSPP) &&& 0x100 = 0 := by
      rw [BitVec.and_assoc,
        show ~~~(sstatusSIE ||| sstatusSPIE ||| sstatusSPP) &&& 0x100 = 0#64 by decide]
      exact BitVec.and_zero
    rw [BitVec.and_comm, BitVec.and_or_distrib_left, BitVec.and_comm _ (x &&& _), hx]
    cases hspie with
    | inl h => rw [h]; decide
    | inr h => rw [h]; decide
  refine hspp (m.csr .sstatus) (if m.csr .sstatus &&& sstatusSIE ≠ 0 then sstatusSPIE else 0) ?_
  split
  · exact .inl rfl
  · exact .inr rfl

theorem Saves.maps {m m' : Machine} (h : Saves (K.trapframe i) m m') {j : ι}
    (hmaps : MapsFrame K m.mem j) : MapsFrame K m'.mem j :=
  hmaps.of_only fun q hq => h.page q (hq i)

theorem Inv.exec_uservec (h : Inv K s) (hcur : s.cur = some i) (hloc : s.loc = .user)
    {cause : Word} {m : Machine} (hexec : execAll (s.m.trap cause) uservec = some m) :
    Saves (K.trapframe i) (s.m.trap cause) m := by
  obtain ⟨m', hexec', hsaves⟩ :=
    uservec_spec (h.seesFrame hcur hloc cause) (h.user i hcur hloc).sscratch
  rw [hexec] at hexec'
  exact Option.some.inj hexec' ▸ hsaves

/-- In the kernel the current process is the only one that changes. -/
theorem Inv.of_current (h : Inv K s) (hcur : s.cur = some i) (huser : s.loc ≠ .user)
    (hpage : ∀ q, q ≠ K.trapframe i → t.m.mem.page q = s.m.mem.page q)
    (hother : ∀ j, j ≠ i → t.ctx j = s.ctx j ∧ t.state j = s.state j)
    (hsaved : t.state i ≠ .zombie → Saved K t i) (hsatp : t.m.csr .satp = s.m.csr .satp)
    (l : Loc) (hl : l ≠ .user ∧ l ≠ .trapped) (hloc : t.loc = l)
    (hcur' : t.cur = none ∨ t.cur = some i ∧ t.state i ≠ .zombie ∧ l ≠ .scheduler) :
    Inv K t := by
  subst hloc
  refine .of_kernel (fun j => (h.maps j).of_only fun q hq => hpage q (hq i)) ?_ hl.1 hl.2
    (hsatp.trans (h.kernel huser)) ?_ ?_
  · intro j hj
    by_cases hne : j = i
    · rw [hne] at hj ⊢
      exact hsaved hj
    · have hrest : ¬ Runs s j := fun hruns => hne (Option.some.inj (hruns.1.symm.trans hcur))
      rw [(hother j hne).2] at hj
      exact (h.saved j hj hrest).of_page (hpage _ (K.trapframe_injective.ne hne)) (hother j hne).1
  · intro j hj
    cases hcur' with
    | inl hnone => rw [hnone] at hj; cases hj
    | inr hsome =>
        rw [hsome.1] at hj
        exact Option.some.inj hj ▸ hsome.2.1
  · intro hloc
    cases hcur' with
    | inl hnone => exact hnone
    | inr hsome => exact absurd hloc hsome.2.2

/-- The machine in `usertrap`, when the program counter has been saved. -/
def entered (K : Kernel ι) (m : Machine) (i : ι) : Machine :=
  (m.setCsr .stvec K.kernelvec).setField (K.trapframe i) .epc (m.csr .sepc)

/-- The machine in the handler of a system call. -/
def called (K : Kernel ι) (m : Machine) (i : ι) : Machine :=
  ((entered K m i).setField (K.trapframe i) .epc
    ((entered K m i).field (K.trapframe i) .epc + 4)).intrOn

theorem entered_epc (m : Machine) (i : ι) :
    (entered K m i).field (K.trapframe i) .epc = m.csr .sepc := by
  rw [entered, field_setField, if_pos rfl]

theorem entered_reg (m : Machine) (i : ι) (r : Reg) :
    (entered K m i).field (K.trapframe i) (.reg r) = m.field (K.trapframe i) (.reg r) := by
  rw [entered, field_setField, if_neg (by exact Field.noConfusion)]
  rfl

theorem called_epc (m : Machine) (i : ι) :
    (called K m i).field (K.trapframe i) .epc = m.csr .sepc + 4 := by
  show (Machine.setField _ _ _ _).field _ _ = _
  rw [field_setField, if_pos rfl, entered_epc]

theorem called_reg (m : Machine) (i : ι) (r : Reg) :
    (called K m i).field (K.trapframe i) (.reg r) = m.field (K.trapframe i) (.reg r) := by
  show (Machine.setField _ _ _ _).field _ _ = _
  rw [field_setField, if_neg (by exact Field.noConfusion), entered_reg]

theorem called_page (m : Machine) (i : ι) {q : ℕ} (hq : q ≠ K.trapframe i) :
    (called K m i).mem.page q = m.mem.page q :=
  (store_other hq _ _).trans (store_other hq _ _)

theorem Inv.kernelStep (h : Inv K s) {regs : Reg → Word} {csr : Csr → Word} {mem : Phys}
    {state : ι → ProcState} {killed : ι → Bool} (huser : s.loc ≠ .user)
    (htrapped : s.loc ≠ .trapped) (hsatp : csr .satp = s.m.csr .satp)
    (hmem : Keeps K s.m.mem mem) (hzombie : ∀ i, state i = .zombie ↔ s.state i = .zombie) :
    Inv K { s with m := { s.m with regs, csr, mem }, state, killed } :=
  .of_kernel (fun i => hmem.maps i (h.maps i))
    (fun i hi => (h.saved_kernel huser htrapped i (hi ∘ (hzombie i).mpr)).of_page (hmem.page i) rfl)
    huser htrapped (hsatp.trans (h.kernel huser))
    (fun i hi hdead => h.alive i hi ((hzombie i).mp hdead)) h.idle

theorem Inv.userStep (h : Inv K s) {regs : Reg → Word} {pc : Word} {mem : Phys}
    (hloc : s.loc = .user) (hmem : Keeps K s.m.mem mem) :
    Inv K { s with m := { s.m with regs, pc, mem } } where
  maps i := hmem.maps i (h.maps i)
  saved i hi hruns := (h.saved i hi hruns).of_page (hmem.page i) rfl
  user i hcur _ := by
    have huser := h.user i hcur hloc
    have hfield : ∀ f, mem.page (K.trapframe i) f = s.m.mem.page (K.trapframe i) f :=
      congrFun (hmem.page i)
    exact ⟨huser.sscratch, huser.satp, huser.stvec, (hfield _).trans huser.kernelSatp,
      (hfield _).trans huser.kernelTrap⟩
  trapped _ _ hj := by cases hloc.symm.trans hj
  kernel hj := absurd hloc hj
  alive := h.alive
  idle := h.idle

/-- The machine in `usertrapret`, before the control registers are written. -/
def filled (K : Kernel ι) (m : Machine) (i : ι) : Machine :=
  ((((m.intrOff.setCsr .stvec Kernel.uservecVa).setField (K.trapframe i) .kernelSatp
    (m.csr .satp)).setField (K.trapframe i) .kernelSp
    (BitVec.ofNat 64 (K.kstack i) + 4096)).setField (K.trapframe i) .kernelTrap
    K.usertrap).setField (K.trapframe i) .kernelHartid 0

theorem filled_field (m : Machine) (i : ι) (f : Field) :
    (filled K m i).field (K.trapframe i) f =
      if f = .kernelHartid then 0 else if f = .kernelTrap then K.usertrap
      else if f = .kernelSp then BitVec.ofNat 64 (K.kstack i) + 4096
      else if f = .kernelSatp then m.csr .satp else m.field (K.trapframe i) f := by
  rw [filled, field_setField, field_setField, field_setField, field_setField]
  rfl

theorem filled_page (m : Machine) (i : ι) {q : ℕ} (hq : q ≠ K.trapframe i) :
    (filled K m i).mem.page q = m.mem.page q :=
  (store_other hq _ _).trans <| (store_other hq _ _).trans <| (store_other hq _ _).trans
    (store_other hq _ _)

theorem usertrapret_a0 (m : Machine) (i : ι) (regs : Reg → Word) :
    (K.usertrapret i regs m).regs .a0 = trapframeVa := by
  show Function.update (Function.update regs .a0 trapframeVa) .a1 (K.userSatp i) .a0 = _
  rw [Function.update_of_ne (by decide), Function.update_self]

theorem usertrapret_a1 (m : Machine) (i : ι) (regs : Reg → Word) :
    (K.usertrapret i regs m).regs .a1 = K.userSatp i := by
  show Function.update (Function.update regs .a0 trapframeVa) .a1 (K.userSatp i) .a1 = _
  rw [Function.update_self]

/-! ## The return -/

/-- `usertrapret` and `userret` give a process what its trapframe holds. -/
theorem Inv.return (h : Inv K s) (hloc : s.loc = .ret) (hcur : s.cur = some i)
    (regs : Reg → Word) :
    ∃ m, execAll (K.usertrapret i regs s.m) userret = some m ∧ m.regs = (s.ctx i).regs ∧
      m.pc = (s.ctx i).pc ∧ Inv K { s with m, loc := .user } := by
  have huser : s.loc ≠ .user := by rw [hloc]; decide
  have htrapped : s.loc ≠ .trapped := by rw [hloc]; decide
  have hsaved := h.saved_kernel huser htrapped i (h.alive i hcur)
  have hpage : ∀ q, q ≠ K.trapframe i →
      (K.usertrapret i regs s.m).mem.page q = s.m.mem.page q := fun q hq => filled_page s.m i hq
  have hmaps : ∀ j, MapsFrame K (K.usertrapret i regs s.m).mem j :=
    fun j => (h.maps j).of_only fun q hq => hpage q (hq i)
  obtain ⟨m, hexec, hloads⟩ := userret_spec (usertrapret_a1 s.m i regs) (hmaps i) (usertrapret_a0 s.m i regs)
  have hfield : ∀ f, m.field (K.trapframe i) f = (filled K s.m i).field (K.trapframe i) f := by
    intro f
    rw [Machine.field, hloads.mem]
    rfl
  refine ⟨m, hexec, ?_, ?_, ?_⟩
  · funext r
    rw [hloads.regs, ← hsaved.regs]
    exact filled_field s.m i (.reg r)
  · rw [hloads.pc, ← hsaved.pc]
    exact filled_field s.m i .epc
  · have hrest : ∀ j, s.state j ≠ .zombie → j ≠ i → Saved K { s with m, loc := .user } j := by
      intro j hj hne
      refine (h.saved_kernel huser htrapped j hj).of_page ?_ rfl
      exact (congrFun (congrArg Phys.page hloads.mem) _).trans
        (hpage _ (K.trapframe_injective.ne hne))
    have hready : InUser K { s with m, loc := .user } i := by
      refine ⟨hloads.sscratch.trans (usertrapret_a0 s.m i regs),
        hloads.satp.trans (usertrapret_a1 s.m i regs), hloads.stvec, ?_, ?_⟩
      · refine (hfield .kernelSatp).trans ((filled_field s.m i .kernelSatp).trans ?_)
        exact h.kernel huser
      · exact (hfield .kernelTrap).trans (filled_field s.m i .kernelTrap)
    exact {
      maps := fun j => hloads.mem ▸ hmaps j
      saved := fun j hj hruns => hrest j hj fun heq => hruns ⟨heq ▸ hcur, .inl rfl⟩
      user := fun j hj _ => Option.some.inj (hcur.symm.trans hj) ▸ hready
      trapped := fun _ _ hj => by cases hj
      kernel := fun hj => absurd rfl hj
      alive := h.alive
      idle := fun hj => by cases hj }

variable [DecidableEq ι]

theorem exitProcess_state (s : State ι) (i : ι) : (s.exitProcess i).state i = .zombie := by
  show Function.update s.state i .zombie i = _
  rw [Function.update_self]

theorem enter_ctx (s : State ι) (i : ι) (cause : Word) (m : Machine) :
    (s.enter i cause m).ctx i = ⟨s.m.regs, if cause = causeEcall then s.m.pc + 4 else s.m.pc⟩ :=
  Function.update_self ..

theorem Inv.trapped_enter (h : Inv K s) {cause : Word} {m : Machine} (hloc : s.loc = .user)
    (hcur : s.cur = some i) (hcause : cause = causeTimer ∨ cause = causeEcall)
    (hexec : execAll (s.m.trap cause) uservec = some m) :
    Trapped K (s.enter i cause m) i := by
  have hsaves := h.exec_uservec hcur hloc hexec
  have hcsr : ∀ c, c ≠ .sscratch → c ≠ .satp → m.csr c = (s.m.trap cause).csr c := hsaves.csr
  have hscause : m.csr .scause = cause := hcsr .scause (by decide) (by decide)
  have hsepc : m.csr .sepc = s.m.pc := hcsr .sepc (by decide) (by decide)
  refine ⟨fun r => ?_, ?_, ?_, ?_, ?_⟩
  · rw [enter_ctx]
    exact hsaves.regs r
  · rw [enter_ctx]
    show _ = if m.csr .scause = causeEcall then m.csr .sepc + 4 else m.csr .sepc
    rw [hscause, hsepc]
  · rwa [← hscause] at hcause
  · show m.csr .sstatus &&& 0x100 = 0
    rw [hcsr .sstatus (by decide) (by decide)]
    exact trap_spp s.m cause
  · exact hsaves.pc.trans (h.user i hcur hloc).kernelTrap

theorem Inv.enter (h : Inv K s) {cause : Word} {m : Machine} (hloc : s.loc = .user)
    (hcur : s.cur = some i) (hcause : cause = causeTimer ∨ cause = causeEcall)
    (hexec : execAll (s.m.trap cause) uservec = some m) : Inv K (s.enter i cause m) where
  maps j := (h.exec_uservec hcur hloc hexec).maps (h.maps j)
  saved j hj hruns := by
    -- the trapframes of the others are as before
    have hne : j ≠ i := by
      intro heq
      exact hruns ⟨heq ▸ hcur, .inr rfl⟩
    have hrest : ¬ Runs s j := fun hruns => hne (Option.some.inj (hruns.1.symm.trans hcur))
    exact (h.saved j hj hrest).of_page
      ((h.exec_uservec hcur hloc hexec).page _ (K.trapframe_injective.ne hne))
      (Function.update_of_ne hne ..)
  user _ _ hj := by cases hj
  trapped j hj _ := by
    obtain rfl : i = j := Option.some.inj (hcur.symm.trans hj)
    exact h.trapped_enter hloc hcur hcause hexec
  kernel _ := (h.exec_uservec hcur hloc hexec).satp.trans (h.user i hcur hloc).kernelSatp
  alive := h.alive
  idle hj := by cases hj

/-- A trap in user mode never faults. -/
theorem Inv.trap_runs (h : Inv K s) (hloc : s.loc = .user) (hmode : s.m.user = true)
    (hcur : s.cur = some i) {cause : Word} (hcause : cause = causeTimer ∨ cause = causeEcall) :
    ∃ t, Step K s (.trap i cause) t := by
  have huser := h.user i hcur hloc
  obtain ⟨m, hexec, _⟩ := uservec_spec (h.seesFrame hcur hloc cause) huser.sscratch
  exact ⟨_, .trap hloc hmode hcur hcause huser.stvec hexec⟩

/-! ## `usertrap` -/

theorem usertrap_eq (hspp : s.m.csr .sstatus &&& 0x100 = 0) (i : ι) : State.usertrap K s i =
    if s.m.csr .scause = 8 then
      if s.killed i then some ({ s with m := entered K s.m i }.exitProcess i)
      else some { s with m := called K s.m i, loc := .handler }
    else if s.m.csr .scause &&& 0x8000000000000000 ≠ 0 ∧ s.m.csr .scause &&& 0xff = 5 then
      some ({ s with m := entered K s.m i }.yield i)
    else some { s with
      m := entered K s.m i, killed := Function.update s.killed i true, loc := .leave } := by
  unfold State.usertrap
  rw [if_neg (not_not_intro hspp)]
  rfl

/-- What `usertrap` does after a trap: it exits, calls the handler, or yields. -/
theorem Trapped.usertrap (h : Trapped K s i) :
    s.m.csr .scause = causeEcall ∧ s.killed i = true ∧
        State.usertrap K s i = some ({ s with m := entered K s.m i }.exitProcess i) ∨
      s.m.csr .scause = causeEcall ∧
        State.usertrap K s i = some { s with m := called K s.m i, loc := .handler } ∨
      s.m.csr .scause = causeTimer ∧
        State.usertrap K s i = some ({ s with m := entered K s.m i }.yield i) := by
  cases h.cause with
  | inl htimer =>
      refine .inr (.inr ⟨htimer, ?_⟩)
      rw [usertrap_eq h.spp, htimer, if_neg (by decide), if_pos (by decide)]
  | inr hecall =>
      rw [usertrap_eq h.spp, hecall, if_pos (by decide)]
      by_cases hkilled : s.killed i = true
      · rw [if_pos hkilled]
        exact .inl ⟨rfl, hkilled, rfl⟩
      · rw [if_neg hkilled]
        exact .inr (.inl ⟨rfl, rfl⟩)

/-- `usertrap` never panics. -/
theorem Inv.usertrap_runs (h : Inv K s) (hloc : s.loc = .trapped) (hcur : s.cur = some i) :
    ∃ t, Step K s .usertrap t := by
  have htrapped := h.trapped i hcur hloc
  have hsatp : s.m.csr .satp = K.satp := h.kernel (by rw [hloc]; decide)
  rcases htrapped.usertrap with ⟨-, -, hrun⟩ | ⟨-, hrun⟩ | ⟨-, hrun⟩ <;>
    exact ⟨_, .usertrap s.m.regs hloc hcur htrapped.entry hsatp hrun⟩

theorem Inv.usertrap (h : Inv K s) (hloc : s.loc = .trapped) (hcur : s.cur = some i)
    (hrun : State.usertrap K s i = some t) (regs : Reg → Word) :
    Inv K { t with m := t.m.clobber regs } := by
  have htrapped := h.trapped i hcur hloc
  have huser : s.loc ≠ .user := by rw [hloc]; decide
  rcases htrapped.usertrap with ⟨-, -, heq⟩ | ⟨hecall, heq⟩ | ⟨htimer, heq⟩
  · -- the process exits
    obtain rfl := Option.some.inj (hrun.symm.trans heq)
    refine h.of_current hcur huser (fun q hq => store_other hq _ _)
      (fun j hne => ⟨rfl, Function.update_of_ne hne ..⟩)
      (fun hi => absurd (exitProcess_state _ i) hi) rfl .scheduler (by decide) rfl (.inl rfl)
  · -- the counter in the trapframe is 4 further
    obtain rfl := Option.some.inj (hrun.symm.trans heq)
    refine h.of_current hcur huser (fun q hq => called_page _ i hq) (fun j _ => ⟨rfl, rfl⟩)
      (fun _ => ⟨fun r => ?_, ?_⟩) rfl .handler (by decide) rfl
      (.inr ⟨hcur, h.alive i hcur, by decide⟩)
    · exact (called_reg s.m i r).trans (htrapped.regs r)
    · refine (called_epc s.m i).trans ?_
      rw [htrapped.pc, if_pos hecall]
  · obtain rfl := Option.some.inj (hrun.symm.trans heq)
    refine h.of_current hcur huser (fun q hq => store_other hq _ _)
      (fun j hne => ⟨rfl, Function.update_of_ne hne ..⟩) (fun _ => ⟨fun r => ?_, ?_⟩) rfl
      .scheduler (by decide) rfl (.inl rfl)
    · exact (entered_reg s.m i r).trans (htrapped.regs r)
    · refine (entered_epc s.m i).trans ?_
      show s.m.csr .sepc = (s.ctx i).pc
      rw [htrapped.pc, htimer, if_neg (by decide)]

/-! ## The steps of the kernel -/

theorem Inv.exitProcess (h : Inv K s) (huser : s.loc ≠ .user) (hcur : s.cur = some i) :
    Inv K (s.exitProcess i) := by
  refine h.of_current hcur huser (fun _ _ => rfl)
    (fun j hne => ⟨rfl, Function.update_of_ne hne ..⟩)
    (fun hi => absurd (exitProcess_state s i) hi) rfl .scheduler (by decide) rfl (.inl rfl)

theorem Inv.sleep (h : Inv K s) (hloc : s.loc = .handler) (hcur : s.cur = some i) :
    Inv K { s with
      state := Function.update s.state i .sleeping, kont := Function.update s.kont i .handler
      cur := none, loc := .scheduler } := by
  have huser : s.loc ≠ .user := by rw [hloc]; decide
  have hsaved := h.saved_kernel huser (by rw [hloc]; decide) i (h.alive i hcur)
  exact h.of_current hcur huser (fun _ _ => rfl) (fun j hne => ⟨rfl, Function.update_of_ne hne ..⟩)
    (fun _ => hsaved.of_page rfl rfl) rfl .scheduler (by decide) rfl (.inl rfl)

theorem Inv.sysret (h : Inv K s) (hloc : s.loc = .handler) (hcur : s.cur = some i) (r : Word) :
    Inv K (s.sysret K i r) := by
  have huser : s.loc ≠ .user := by rw [hloc]; decide
  have hsaved := h.saved_kernel huser (by rw [hloc]; decide) i (h.alive i hcur)
  refine h.of_current hcur huser (fun q hq => store_other hq _ _)
    (fun j hne => ⟨Function.update_of_ne hne .., rfl⟩) (fun _ => ⟨fun r' => ?_, ?_⟩) rfl
    .leave (by decide) rfl (.inr ⟨hcur, h.alive i hcur, by decide⟩)
  · show (Machine.setField _ _ _ _).field _ _ = (Function.update s.ctx i _ i).regs r'
    rw [field_setField, Function.update_self]
    by_cases hr : r' = .a0
    · rw [hr, if_pos rfl]
      show r = Function.update (s.ctx i).regs .a0 r .a0
      rw [Function.update_self]
    · rw [if_neg fun hf => hr (Field.reg.inj hf), hsaved.regs]
      exact (Function.update_of_ne hr ..).symm
  · show (Machine.setField _ _ _ _).field _ _ = (Function.update s.ctx i _ i).pc
    rw [field_setField, Function.update_self, if_neg (by exact Field.noConfusion), hsaved.pc]

theorem Inv.leave (h : Inv K s) (hloc : s.loc = .leave) (hcur : s.cur = some i)
    (regs : Reg → Word) : Inv K { s.leave i with m := (s.leave i).m.clobber regs } := by
  have huser : s.loc ≠ .user := by rw [hloc]; decide
  have hsaved := h.saved_kernel huser (by rw [hloc]; decide) i (h.alive i hcur)
  unfold State.leave
  split
  · refine h.of_current hcur huser (fun _ _ => rfl)
      (fun j hne => ⟨rfl, Function.update_of_ne hne ..⟩)
      (fun hi => absurd (exitProcess_state _ i) hi) rfl .scheduler (by decide) rfl (.inl rfl)
  · exact h.of_current hcur huser (fun _ _ => rfl) (fun _ _ => ⟨rfl, rfl⟩)
      (fun _ => hsaved.of_page rfl rfl) rfl .ret (by decide) rfl
      (.inr ⟨hcur, h.alive i hcur, by decide⟩)

theorem Inv.dispatch (h : Inv K s) (hloc : s.loc = .scheduler) (hrun : s.state i = .runnable) :
    Inv K { s with
      state := Function.update s.state i .running, cur := some i, loc := (s.kont i).loc } := by
  have huser : s.loc ≠ .user := by rw [hloc]; decide
  have htrapped : s.loc ≠ .trapped := by rw [hloc]; decide
  have hkont : (s.kont i).loc ≠ .user ∧ (s.kont i).loc ≠ .trapped ∧
      (s.kont i).loc ≠ .scheduler := by cases s.kont i <;> decide
  refine .of_kernel h.maps (fun j hj => ?_) hkont.1 hkont.2.1 (h.kernel huser) (fun j hj => ?_)
    (fun hidle => absurd hidle hkont.2.2)
  · refine (h.saved_kernel huser htrapped j fun hdead => ?_).of_page rfl rfl
    by_cases hne : j = i
    · rw [hne, hrun] at hdead
      cases hdead
    · exact hj ((Function.update_of_ne hne ..).trans hdead)
  · obtain rfl : i = j := Option.some.inj hj
    show Function.update s.state i .running i ≠ .zombie
    rw [Function.update_self]
    decide

theorem Inv.step (h : Inv K s) {l : Label ι} (hstep : Step K s l t) : Inv K t := by
  cases hstep with
  | user regs pc mem hloc _ hmem => exact h.userStep hloc hmem
  | trap hloc _ hcur hcause _ hexec => exact h.enter hloc hcur hcause hexec
  | usertrap regs hloc hcur _ _ hrun => exact h.usertrap hloc hcur hrun regs
  | kernel regs csr mem state killed huser htrapped hsatp hmem hzombie =>
      exact h.kernelStep huser htrapped hsatp hmem hzombie
  | sleep hloc hcur => exact h.sleep hloc hcur
  | exit hloc hcur => exact h.exitProcess (by rw [hloc]; decide) hcur
  | sysret r hloc hcur => exact h.sysret hloc hcur r
  | leave regs hloc hcur => exact h.leave hloc hcur regs
  | ret regs hloc hcur hexec =>
      obtain ⟨m, hexec', -, -, hinv⟩ := h.return hloc hcur regs
      rw [hexec] at hexec'
      exact Option.some.inj hexec' ▸ hinv
  | dispatch hloc hrun => exact h.dispatch hloc hrun

theorem inv_reachable (h : (machine K).Reachable s) : Inv K s := by
  refine h.invariant (fun s hs => ?_) fun s l t hinv hstep => hinv.step hstep
  obtain ⟨hloc, hcur, hsatp, -, hmaps, hsaved⟩ := hs
  refine .of_kernel hmaps (fun i _ => hsaved i) (by rw [hloc]; decide) (by rw [hloc]; decide) hsatp
    (fun i hi => ?_) fun _ => hcur
  rw [hcur] at hi
  cases hi

/-! ## Where a process is after a trap -/

/-- The process is in the handler of its system call, or on the way there. -/
structure InCall (s : State ι) (i : ι) : Prop where
  current : s.cur = some i →
    s.loc = .trapped ∧ s.m.csr .scause = causeEcall ∨ s.loc = .handler
  waiting : s.cur ≠ some i → s.kont i = .handler

/-- The process has been preempted, or its system call has returned. -/
structure Leaving (s : State ι) (i : ι) : Prop where
  current : s.cur = some i →
    s.loc = .trapped ∧ s.m.csr .scause = causeTimer ∨ s.loc = .leave ∨ s.loc = .ret
  waiting : s.cur ≠ some i → s.kont i = .leave

/-- The results that the system calls of a process return in a run. -/
def returned (i : ι) (labels : List (Label ι)) : List Word :=
  labels.filterMap fun
    | .sysret j r => if j = i then some r else none
    | _ => none

/-- What a step does to a process that is not the current one. -/
structure Rests (s t : State ι) (l : Label ι) (i : ι) : Prop where
  ctx : t.ctx i = s.ctx i
  kont : t.kont i = s.kont i
  returned : returned i [l] = []
  zombie : t.state i = .zombie ↔ s.state i = .zombie
  loc : t.cur = some i → t.loc = (s.kont i).loc

theorem Step.rests {l : Label ι} (h : Step K s l t) (hinv : Inv K s) (hi : s.cur ≠ some i) :
    Rests s t l i := by
  have hne : ∀ {j}, s.cur = some j → i ≠ j := fun hcur heq => hi (heq ▸ hcur)
  have hzombie : ∀ {j : ι} {p : ProcState}, i ≠ j →
      (Function.update s.state j p i = .zombie ↔ s.state i = .zombie) := by
    intro j p hij
    rw [Function.update_of_ne hij]
  cases h with
  | user => exact ⟨rfl, rfl, rfl, .rfl, fun hcur => absurd hcur hi⟩
  | trap _ _ hcur =>
      exact ⟨Function.update_of_ne (hne hcur) .., rfl, rfl, .rfl, fun hcur => absurd hcur hi⟩
  | usertrap regs hloc hcur _ _ hrun =>
      rcases (hinv.trapped _ hcur hloc).usertrap with ⟨-, -, heq⟩ | ⟨-, heq⟩ | ⟨-, heq⟩ <;>
        obtain rfl := Option.some.inj (hrun.symm.trans heq)
      · exact ⟨rfl, rfl, rfl, hzombie (hne hcur), fun hcur => by cases hcur⟩
      · exact ⟨rfl, rfl, rfl, .rfl, fun hcur => absurd hcur hi⟩
      · exact ⟨rfl, Function.update_of_ne (hne hcur) .., rfl, hzombie (hne hcur),
          fun hcur => by cases hcur⟩
  | kernel _ _ _ _ _ _ _ _ _ hdead => exact ⟨rfl, rfl, rfl, hdead i, fun hcur => absurd hcur hi⟩
  | sleep _ hcur =>
      exact ⟨rfl, Function.update_of_ne (hne hcur) .., rfl, hzombie (hne hcur),
        fun hcur => by cases hcur⟩
  | exit _ hcur => exact ⟨rfl, rfl, rfl, hzombie (hne hcur), fun hcur => by cases hcur⟩
  | sysret r _ hcur =>
      exact ⟨Function.update_of_ne (hne hcur) .., rfl, by simp [Trap.returned, (hne hcur).symm],
        .rfl, fun hcur => absurd hcur hi⟩
  | leave regs _ hcur =>
      unfold State.leave
      split
      · exact ⟨rfl, rfl, rfl, hzombie (hne hcur), fun hcur => by cases hcur⟩
      · exact ⟨rfl, rfl, rfl, .rfl, fun hcur => absurd hcur hi⟩
  | ret => exact ⟨rfl, rfl, rfl, .rfl, fun hcur => absurd hcur hi⟩
  | @dispatch j _ hrun =>
      refine ⟨rfl, rfl, rfl, ?_, fun hcur => ?_⟩
      · by_cases hij : i = j
        · subst hij
          show Function.update s.state i .running i = .zombie ↔ _
          rw [Function.update_self, hrun]
          decide
        · exact hzombie hij
      · obtain rfl : j = i := Option.some.inj hcur
        rfl

theorem zombie_step {l : Label ι} (h : Step K s l t) (hinv : Inv K s)
    (hdead : s.state i = .zombie) : t.state i = .zombie :=
  (h.rests hinv fun hcur => hinv.alive i hcur hdead).zombie.mpr hdead

theorem InCall.step {l : Label ι} (h : InCall s i) (hinv : Inv K s) (hstep : Step K s l t) :
    t.state i = .zombie ∨ (InCall t i ∧ t.ctx i = s.ctx i ∧ returned i [l] = []) ∨
      ∃ r, returned i [l] = [r] ∧ Leaving t i ∧
        t.ctx i = ⟨Function.update (s.ctx i).regs .a0 r, (s.ctx i).pc⟩ := by
  by_cases hcur : s.cur = some i
  swap
  · have hrests := hstep.rests hinv hcur
    refine .inr (.inl ⟨⟨fun hcur' => .inr ?_, fun _ => ?_⟩, hrests.ctx, hrests.returned⟩)
    · rw [hrests.loc hcur', h.waiting hcur]
      rfl
    · rw [hrests.kont, h.waiting hcur]
  have hloc := h.current hcur
  cases hstep with
  | user _ _ _ huser => simp [huser] at hloc
  | trap huser => simp [huser] at hloc
  | @usertrap j _ _ htrapped hj _ _ hrun =>
      obtain rfl : i = j := Option.some.inj (hcur.symm.trans hj)
      rcases (hinv.trapped _ hcur htrapped).usertrap with ⟨-, -, heq⟩ | ⟨-, heq⟩ | ⟨htimer, -⟩
      · obtain rfl := Option.some.inj (hrun.symm.trans heq)
        exact .inl (exitProcess_state _ i)
      · obtain rfl := Option.some.inj (hrun.symm.trans heq)
        exact .inr (.inl ⟨⟨fun _ => .inr rfl, fun hother => absurd hcur hother⟩, rfl, rfl⟩)
      · simp [htrapped, htimer, causeTimer, causeEcall] at hloc
  | kernel _ _ _ _ _ _ htrapped =>
      have hhandler : s.loc = .handler := hloc.resolve_left fun h => htrapped h.1
      exact .inr (.inl ⟨⟨fun _ => .inr hhandler, fun hother => absurd hcur hother⟩, rfl, rfl⟩)
  | @sleep j _ hj =>
      obtain rfl : i = j := Option.some.inj (hcur.symm.trans hj)
      refine .inr (.inl ⟨⟨fun hnone => (by cases hnone), fun _ => ?_⟩, rfl, rfl⟩)
      exact Function.update_self i Kont.handler s.kont
  | @exit j _ hj =>
      obtain rfl : i = j := Option.some.inj (hcur.symm.trans hj)
      exact .inl (exitProcess_state _ i)
  | @sysret j r _ hj =>
      obtain rfl : i = j := Option.some.inj (hcur.symm.trans hj)
      refine .inr (.inr ⟨r, by simp [returned], ⟨fun _ => .inr (.inl rfl), fun hother =>
        absurd hcur hother⟩, ?_⟩)
      exact Function.update_self i (Context.mk _ _) s.ctx
  | leave _ hleave => simp [hleave] at hloc
  | ret _ hret => simp [hret] at hloc
  | dispatch hidle =>
      rw [hinv.idle hidle] at hcur
      cases hcur

theorem Leaving.step {l : Label ι} (h : Leaving s i) (hinv : Inv K s) (hstep : Step K s l t)
    (hl : l ≠ .ret i) :
    t.state i = .zombie ∨ Leaving t i ∧ t.ctx i = s.ctx i ∧ returned i [l] = [] := by
  by_cases hcur : s.cur = some i
  swap
  · have hrests := hstep.rests hinv hcur
    refine .inr ⟨⟨fun hcur' => .inr (.inl ?_), fun _ => ?_⟩, hrests.ctx, hrests.returned⟩
    · rw [hrests.loc hcur', h.waiting hcur]
      rfl
    · rw [hrests.kont, h.waiting hcur]
  have hloc := h.current hcur
  cases hstep with
  | user _ _ _ huser => simp [huser] at hloc
  | trap huser => simp [huser] at hloc
  | @usertrap j _ _ htrapped hj _ _ hrun =>
      obtain rfl : i = j := Option.some.inj (hcur.symm.trans hj)
      rcases (hinv.trapped _ hcur htrapped).usertrap with ⟨hecall, -⟩ | ⟨hecall, -⟩ | ⟨-, heq⟩
      · simp [htrapped, hecall, causeTimer, causeEcall] at hloc
      · simp [htrapped, hecall, causeTimer, causeEcall] at hloc
      · obtain rfl := Option.some.inj (hrun.symm.trans heq)
        refine .inr ⟨⟨fun hnone => (by cases hnone), fun _ => ?_⟩, rfl, rfl⟩
        exact Function.update_self i Kont.leave s.kont
  | kernel _ _ _ _ _ _ htrapped =>
      have hleave : s.loc = .leave ∨ s.loc = .ret := hloc.resolve_left fun h => htrapped h.1
      exact .inr ⟨⟨fun _ => .inr hleave, fun hother => absurd hcur hother⟩, rfl, rfl⟩
  | sleep hhandler => simp [hhandler] at hloc
  | exit hhandler => simp [hhandler] at hloc
  | sysret _ hhandler => simp [hhandler] at hloc
  | @leave j _ _ hj =>
      obtain rfl : i = j := Option.some.inj (hcur.symm.trans hj)
      unfold State.leave
      split
      · exact .inl (exitProcess_state _ i)
      · exact .inr ⟨⟨fun _ => .inr (.inr rfl), fun hother => absurd hcur hother⟩, rfl, rfl⟩
  | @ret j _ _ _ hj =>
      obtain rfl : i = j := Option.some.inj (hcur.symm.trans hj)
      exact absurd rfl hl
  | dispatch hidle =>
      rw [hinv.idle hidle] at hcur
      cases hcur

/-! ## Runs -/

theorem returned_append (i : ι) (labels : List (Label ι)) (l : Label ι) :
    returned i (labels ++ [l]) = returned i labels ++ returned i [l] :=
  List.filterMap_append ..

theorem Leaving.path {labels : List (Label ι)} (h : Leaving s i) (hs : (machine K).Reachable s)
    (hpath : (machine K).Path s labels t) (hret : .ret i ∉ labels) :
    t.state i = .zombie ∨ Leaving t i ∧ t.ctx i = s.ctx i ∧ returned i labels = [] := by
  induction hpath with
  | refl => exact .inr ⟨h, rfl, rfl⟩
  | @snoc labels t u l hpath hstep ih =>
      rw [List.mem_append, List.mem_singleton, not_or] at hret
      have hinv : Inv K t := inv_reachable (hpath.reachable hs)
      rcases ih hret.1 with hdead | ⟨hleaving, hctx, hlabels⟩
      · exact .inl (zombie_step hstep hinv hdead)
      · rcases hleaving.step hinv hstep (Ne.symm hret.2) with hdead | ⟨hleaving', hctx', hlabel⟩
        · exact .inl hdead
        · refine .inr ⟨hleaving', hctx'.trans hctx, ?_⟩
          rw [returned_append, hlabels, hlabel, List.nil_append]

theorem InCall.path {labels : List (Label ι)} (h : InCall s i) (hs : (machine K).Reachable s)
    (hpath : (machine K).Path s labels t) (hret : .ret i ∉ labels) :
    t.state i = .zombie ∨ (InCall t i ∧ t.ctx i = s.ctx i ∧ returned i labels = []) ∨
      ∃ r, returned i labels = [r] ∧ Leaving t i ∧
        t.ctx i = ⟨Function.update (s.ctx i).regs .a0 r, (s.ctx i).pc⟩ := by
  induction hpath with
  | refl => exact .inr (.inl ⟨h, rfl, rfl⟩)
  | @snoc labels t u l hpath hstep ih =>
      rw [List.mem_append, List.mem_singleton, not_or] at hret
      have hinv : Inv K t := inv_reachable (hpath.reachable hs)
      rw [returned_append]
      rcases ih hret.1 with hdead | ⟨hcall, hctx, hlabels⟩ | ⟨r, hlabels, hleaving, hctx⟩
      · exact .inl (zombie_step hstep hinv hdead)
      · rcases hcall.step hinv hstep with hdead | ⟨hcall', hctx', hlabel⟩ |
          ⟨r, hlabel, hleaving, hctx'⟩
        · exact .inl hdead
        · refine .inr (.inl ⟨hcall', hctx'.trans hctx, ?_⟩)
          rw [hlabels, hlabel, List.nil_append]
        · refine .inr (.inr ⟨r, ?_, hleaving, ?_⟩)
          · rw [hlabels, hlabel, List.nil_append]
          · rw [hctx', hctx]
      · rcases hleaving.step hinv hstep (Ne.symm hret.2) with hdead | ⟨hleaving', hctx', hlabel⟩
        · exact .inl hdead
        · refine .inr (.inr ⟨r, ?_, hleaving', hctx'.trans hctx⟩)
          rw [hlabels, hlabel, List.append_nil]

/-- Where a process is after its trap. -/
theorem Step.entered {cause : Word} (h : Step K s (.trap i cause) t) (hinv : Inv K s) :
    t.ctx i = ⟨s.m.regs, if cause = causeEcall then s.m.pc + 4 else s.m.pc⟩ ∧
      (cause = causeTimer → Leaving t i) ∧ (cause = causeEcall → InCall t i) := by
  cases h with
  | @trap _ _ m hloc _ hcur _ _ hexec =>
      have hcause : m.csr .scause = cause :=
        (hinv.exec_uservec hcur hloc hexec).csr .scause (by decide) (by decide)
      refine ⟨enter_ctx s i cause m, fun htimer => ⟨fun _ => .inl ⟨rfl, ?_⟩, ?_⟩,
        fun hecall => ⟨fun _ => .inl ⟨rfl, ?_⟩, ?_⟩⟩
      · exact hcause.trans htimer
      · exact fun hother => absurd hcur hother
      · exact hcause.trans hecall
      · exact fun hother => absurd hcur hother

/-- A process that is resumed finds what it is to find. -/
theorem Step.resumed (h : Step K s (.ret i) t) (hinv : Inv K s) :
    s.cur = some i ∧ s.loc = .ret ∧ t.m.regs = (s.ctx i).regs ∧ t.m.pc = (s.ctx i).pc := by
  cases h with
  | ret regs hloc hcur hexec =>
      obtain ⟨m, hexec', hregs, hpc, -⟩ := hinv.return hloc hcur regs
      rw [hexec] at hexec'
      obtain rfl := Option.some.inj hexec'
      exact ⟨hcur, hloc, hregs, hpc⟩

/-- `usertrap` yields after a timer interrupt. -/
theorem Inv.yields (h : Inv K s) (hloc : s.loc = .trapped) (hcur : s.cur = some i)
    (htimer : s.m.csr .scause = causeTimer) :
    ∃ t, Step K s .usertrap t ∧ t.loc = .scheduler ∧ t.state i = .runnable ∧
      t.kont i = .leave ∧ t.killed = s.killed := by
  have htrapped := h.trapped i hcur hloc
  rcases htrapped.usertrap with ⟨hecall, -⟩ | ⟨hecall, -⟩ | ⟨-, hrun⟩
  · exact absurd (htimer.symm.trans hecall) (by decide)
  · exact absurd (htimer.symm.trans hecall) (by decide)
  · have hsatp : s.m.csr .satp = K.satp := h.kernel (by rw [hloc]; decide)
    refine ⟨_, .usertrap s.m.regs hloc hcur htrapped.entry hsatp hrun, rfl, ?_, ?_, rfl⟩
    · exact Function.update_self i ProcState.runnable s.state
    · exact Function.update_self i Kont.leave s.kont

theorem dispatch_runs (K : Kernel ι) (hloc : s.loc = .scheduler) (hrun : s.state i = .runnable) :
    ∃ t, Step K s (.dispatch i) t ∧ t.loc = (s.kont i).loc ∧ t.cur = some i ∧
      t.killed = s.killed :=
  ⟨_, .dispatch hloc hrun, rfl, rfl, rfl⟩

theorem leave_runs (K : Kernel ι) (hloc : s.loc = .leave) (hcur : s.cur = some i)
    (hkilled : s.killed i = false) : ∃ t, Step K s .leave t ∧ t.loc = .ret ∧ t.cur = some i := by
  have heq : s.leave i = { s with loc := .ret } := if_neg (by simp [hkilled])
  refine ⟨_, .leave s.m.regs hloc hcur, ?_, ?_⟩
  · rw [heq]
  · rw [heq]
    exact hcur

/-- A process that has been preempted can be scheduled and resumed at once. -/
theorem preempted_runs (h : (machine K).Reachable s) (hloc : s.loc = .user)
    (hmode : s.m.user = true) (hcur : s.cur = some i) (hkilled : s.killed i = false) :
    ∃ t u labels, Step K s (.trap i causeTimer) t ∧ (machine K).Path t labels u ∧
      .ret i ∉ labels ∧ u.loc = .ret ∧ u.cur = some i := by
  have hinv : Inv K s := inv_reachable h
  obtain ⟨t, htrap⟩ := hinv.trap_runs hloc hmode hcur (.inl rfl)
  have hentered : t.loc = .trapped ∧ t.cur = some i ∧ t.m.csr .scause = causeTimer ∧
      t.killed = s.killed := by
    cases htrap with
    | trap _ _ _ _ _ hexec =>
        exact ⟨rfl, hcur, (hinv.exec_uservec hcur hloc hexec).csr .scause (by decide) (by decide),
          rfl⟩
  obtain ⟨hloc₁, hcur₁, htimer, hkilled₁⟩ := hentered
  obtain ⟨t₂, husertrap, hloc₂, hstate₂, hkont₂, hkilled₂⟩ :=
    (hinv.step htrap).yields hloc₁ hcur₁ htimer
  obtain ⟨t₃, hdispatch, hloc₃, hcur₃, hkilled₃⟩ := dispatch_runs K hloc₂ hstate₂
  rw [hkont₂] at hloc₃
  obtain ⟨u, hleave, hloc₄, hcur₄⟩ :=
    leave_runs K hloc₃ hcur₃ (by rw [hkilled₃, hkilled₂, hkilled₁, hkilled])
  refine ⟨t, u, _, htrap, ((System.Path.refl.snoc husertrap).snoc hdispatch).snoc hleave, ?_, hloc₄,
    hcur₄⟩
  simp

/-- The scheduler runs the first process of a kernel whose processes are mapped, and it gets to
user mode. -/
theorem user_runs (K : Kernel ι) (i : ι) {mem : Phys} (hmaps : ∀ i, MapsFrame K mem i) :
    ∃ s : State ι, (machine K).Reachable s ∧ s.loc = .user ∧ s.m.user = true ∧ s.cur = some i ∧
      s.killed i = false := by
  let m : Machine :=
    ⟨fun _ => 0, fun c => if c = .satp then K.satp else 0, 0, false, mem⟩
  let s₀ : State ι :=
    { m, loc := .scheduler, cur := none, state := fun _ => .runnable, kont := fun _ => .ret
      killed := fun _ => false
      ctx := fun i => ⟨fun r => m.field (K.trapframe i) (.reg r), m.field (K.trapframe i) .epc⟩ }
  have hinit : (machine K).Reachable s₀ :=
    .init ⟨rfl, rfl, rfl, fun _ => rfl, hmaps, fun _ => ⟨fun _ => rfl, rfl⟩⟩
  let s₁ : State ι :=
    { s₀ with state := Function.update s₀.state i .running, cur := some i, loc := .ret }
  have hdispatch : (machine K).Reachable s₁ :=
    hinit.step (.dispatch (s := s₀) (i := i) rfl rfl)
  obtain ⟨m', hexec, -⟩ := (inv_reachable hdispatch).return rfl rfl s₁.m.regs
  refine ⟨{ s₁ with m := m', loc := .user }, hdispatch.step (.ret s₁.m.regs rfl rfl hexec), rfl, ?_,
    rfl, rfl⟩
  show m'.user = true
  rw [userret_user hexec, usertrapret_sstatus]
  exact decide_eq_true (by decide : (0 &&& ~~~0xff ||| 0x20 : Word) &&& sstatusSPP = 0)

/-- A process that is resumed has all registers and the program counter it had when it trapped;
after a system call, `a0` is the result and the counter is 4 further. -/
theorem context_survives {s t u : State ι} {i : ι} {cause : Word} {labels : List (Label ι)}
    (h : (machine K).Reachable s) (htrap : Step K s (.trap i cause) t)
    (hpath : (machine K).Path t labels u) (hret : .ret i ∉ labels) :
    (u.loc = .ret → u.cur = some i → ∃ v, Step K u (.ret i) v) ∧
      ∀ v, Step K u (.ret i) v →
        (cause = causeTimer → v.m.regs = s.m.regs ∧ v.m.pc = s.m.pc) ∧
        (cause = causeEcall → ∃ r, returned i labels = [r] ∧
          v.m.regs = Function.update s.m.regs .a0 r ∧ v.m.pc = s.m.pc + 4) := by
  have ht : (machine K).Reachable t := h.step htrap
  have hinv : Inv K u := inv_reachable (hpath.reachable ht)
  obtain ⟨hctx, htimer, hecall⟩ := htrap.entered (inv_reachable h)
  refine ⟨fun hloc hcur => ?_, fun v hv => ?_⟩
  · obtain ⟨m, hexec, -⟩ := hinv.return hloc hcur u.m.regs
    exact ⟨_, .ret u.m.regs hloc hcur hexec⟩
  obtain ⟨hcur, hloc, hregs, hpc⟩ := hv.resumed hinv
  have halive := hinv.alive i hcur
  refine ⟨fun hcause => ?_, fun hcause => ?_⟩
  · obtain ⟨-, hctx', -⟩ := ((htimer hcause).path ht hpath hret).resolve_left halive
    rw [hregs, hpc, hctx', hctx, if_neg (by rw [hcause]; decide)]
    exact ⟨rfl, rfl⟩
  · rcases ((hecall hcause).path ht hpath hret).resolve_left halive with ⟨hcall, -⟩ |
      ⟨r, hreturned, -, hctx'⟩
    · -- the call has not returned yet
      have hhandler := hcall.current hcur
      simp [hloc] at hhandler
    · refine ⟨r, hreturned, ?_⟩
      rw [hregs, hpc, hctx', hctx, if_pos hcause]
      exact ⟨rfl, rfl⟩

/-- `init` is preempted after boot, and finds its context again. -/
theorem context_survives_init : ∃ (σ : Procs) (K : Kernel {i // (σ.proc i).state.Live})
    (s t u v : State {i // (σ.proc i).state.Live}) (i : {i // (σ.proc i).state.Live})
    (labels : List (Label _)), Procs.boot smallLayout = some σ ∧ (machine K).Reachable s ∧
      Step K s (.trap i causeTimer) t ∧ (machine K).Path t labels u ∧ Step K u (.ret i) v ∧
      v.m.regs = s.m.regs ∧ v.m.pc = s.m.pc := by
  have hboot : (Procs.boot smallLayout).any (fun σ => (σ.proc 0).state.Live) := by
    decide +kernel
  obtain ⟨σ, hσ, hlive⟩ := (Option.any_eq_true ..).mp hboot
  have hinit : ((intCalls smallLayout).restrict NotBelowZero).init σ := hσ
  obtain ⟨K, -, -, -, -, -, hmaps⟩ := trapframes_mapped (.init hinit) 0x80001000 0x80002000 0xa0 0
  let i : {i // (σ.proc i).state.Live} := ⟨0, of_decide_eq_true hlive⟩
  obtain ⟨s, hs, hloc, hmode, hcur, hkilled⟩ := user_runs K i hmaps
  obtain ⟨t, u, labels, htrap, hpath, hret, hloc', hcur'⟩ :=
    preempted_runs hs hloc hmode hcur hkilled
  have hsurvives := context_survives hs htrap hpath hret
  obtain ⟨v, hv⟩ := hsurvives.1 hloc' hcur'
  obtain ⟨hregs, hpc⟩ := (hsurvives.2 v hv).1 rfl
  exact ⟨σ, K, s, t, u, v, i, labels, hσ, hs, htrap, hpath, hv, hregs, hpc⟩

end RiscvOs.Trap
