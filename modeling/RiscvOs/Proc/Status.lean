import RiscvOs.Proc.Isolation
import RiscvOs.Vm.Bytes

/-!
# The exit status

`sys_wait` of `kernel/sysproc.c` translates the address once and assigns an `int` there.  If
the four bytes are on one page of the caller, these are the bytes that are assigned
(`sys_wait_stores`); the int runs over the end of the page if they are not, into whatever
page of memory comes next (`sys_wait_overruns`).

The address is in a local variable of `sys_wait` while the caller sleeps in `wait_process`.
-/

namespace RiscvOs

open LinkedList Procs

variable {lay : Layout} {own : ℕ → Option Role} {m m' : Phys} {s s' : Procs} {p c : Fin nproc}
  {addr : Word}

/-! ## Addresses of users -/

/-- Where the page table at `pt` maps the user address `va`. -/
def Phys.userByte (m : Phys) (pt : ℕ) (va : Word) : Option ℕ :=
  (m.userPage pt (vpn va 2) (vpn va 1) (vpn va 0)).map fun pa => pa + va.toNat % pgsize

/-- The four bytes from the address on are on one page. -/
def InOnePage (addr : Word) : Prop := addr.toNat % pgsize + 4 ≤ pgsize

instance (addr : Word) : Decidable (InOnePage addr) := inferInstanceAs (Decidable (_ ≤ _))

theorem InOnePage.add (h : InOnePage addr) {k : ℕ} (hk : k < 4) :
    (addr + BitVec.ofNat 64 k).toNat = addr.toNat + k := by
  have hlt := addr.isLt
  unfold InOnePage at h
  simp only [pgsize] at h
  rw [BitVec.toNat_add, BitVec.toNat_ofNat, Nat.mod_eq_of_lt (by omega : k < 2 ^ 64),
    Nat.mod_eq_of_lt (by omega)]

theorem InOnePage.vpn (h : InOnePage addr) {k : ℕ} (hk : k < 4) (level : ℕ) :
    vpn (addr + BitVec.ofNat 64 k) level = vpn addr level := by
  have hdiv : (addr.toNat + k) / 2 ^ 12 = addr.toNat / 2 ^ 12 := by
    unfold InOnePage at h
    simp only [pgsize] at h
    omega
  apply Fin.ext
  simp only [RiscvOs.vpn, Fin.val_ofNat, BitVec.toNat_ushiftRight, Nat.shiftRight_eq_div_pow,
    h.add hk, Nat.pow_add, ← Nat.div_div_eq_div_mul, hdiv]

/-- On one page, consecutive addresses are consecutive bytes of memory. -/
theorem InOnePage.userByte (h : InOnePage addr) {k : ℕ} (hk : k < 4) (m : Phys) (pt : ℕ) :
    m.userByte pt (addr + BitVec.ofNat 64 k) = (m.userByte pt addr).map (· + k) := by
  have hmod : (addr.toNat + k) % pgsize = addr.toNat % pgsize + k := by
    unfold InOnePage at h
    simp only [pgsize] at h ⊢
    omega
  simp only [Phys.userByte, h.vpn hk, h.add hk, hmod, Option.map_map]
  refine congrArg (Option.map · _) (funext fun pa => ?_)
  exact (Nat.add_assoc ..).symm

theorem Phys.userPage_eq (m : Phys) (pt : ℕ) (va : Word) :
    m.userPage pt (vpn va 2) (vpn va 1) (vpn va 0) = (m.leaf pt va).bind fun pte =>
      if pte &&& pteV ≠ 0 ∧ pte &&& pteU ≠ 0 then some (ptePa pte) else none := by
  unfold Phys.userPage Phys.leaf Phys.walkLookup
  by_cases hmid : m.page pt (vpn va 2) &&& pteV = 0
  · rw [if_pos hmid, if_pos hmid]
    rfl
  · rw [if_neg hmid, if_neg hmid]
    dsimp only
    split <;> rfl

theorem Phys.byte_congr {b : ℕ} (h : m'.page (b / pgsize * pgsize) = m.page (b / pgsize * pgsize)) :
    m'.byte b = m.byte b := by
  simp only [Phys.byte, h]

/-- `free_page` writes to the page it puts on the free list. -/
theorem Phys.byte_freePage {pa b : ℕ} (h : b / pgsize * pgsize ≠ pa) :
    (m.freePage pa).byte b = m.byte b := by
  refine Phys.byte_congr ?_
  simp [Phys.freePage, Phys.store, Phys.fill, h]

/-! ## The call -/

namespace Procs

/-- The end of `sys_wait`: the status is stored if the caller has asked for it. -/
def sysWaitStore (s : Procs) (p : Fin nproc) (addr : Word) (w : Waited) : Procs :=
  if w.pid > 0 ∧ addr ≠ 0 then
    match s.phys.walkLookup (s.proc p).pagetable addr with
    | none => s
    | some table =>
      let pte := s.phys.page table (vpn addr 0)
      if pte &&& pteV ≠ 0 ∧ pte &&& pteU ≠ 0 then
        -- a pid above 0 comes with a status
        s.setPhys (s.phys.assignInt (ptePa pte + addr.toNat % pgsize) (w.status.getD 0))
      else s
  else s

/-- The store goes where the user address is mapped. -/
theorem sysWaitStore_eq (w : Waited) (hpid : w.pid > 0) (haddr : addr ≠ 0) :
    s.sysWaitStore p addr w = match s.phys.userByte (s.proc p).pagetable addr with
      | none => s
      | some b => s.setPhys (s.phys.assignInt b (w.status.getD 0)) := by
  rw [sysWaitStore, if_pos ⟨hpid, haddr⟩, Phys.userByte, Phys.userPage_eq, Phys.leaf]
  cases s.phys.walkLookup (s.proc p).pagetable addr with
  | none => rfl
  | some table =>
    simp only [Option.map_some, Option.bind_some]
    split <;> rfl

theorem sysWaitStore_skip {w : Waited} (h : ¬ (w.pid > 0 ∧ addr ≠ 0)) :
    s.sysWaitStore p addr w = s := if_neg h

end Procs

/-- What a turn of the loop of `wait_process` does to the caller and to memory. -/
theorem Isolated.turn {e : Procs.Event} {answer : Option (Fin nproc × Waited)}
    (h : Isolated lay own s) (hscan : s.scan e = some p)
    (hstep : s.step lay e = some (answer, s')) :
    (s.proc p).state.Live ∧ (s'.proc p).state.Live ∧
      (s'.proc p).pagetable = (s.proc p).pagetable ∧
      ((∃ c, s.zombieChild p = some c ∧
          answer = some (p, ⟨(s.proc c).pid, some (s.proc c).exitCode⟩) ∧
          s'.phys = s.phys.freePage (s.proc c).kstack) ∨
        s'.phys = s.phys ∧ ∀ q w, answer = some (q, w) → w.pid = -1) := by
  obtain ⟨s₁, hstart, rfl, rfl⟩ := step_scan hscan hstep
  obtain ⟨hkept, hrun₁, hp⟩ := kept_start h.running hstart
  have hphys : s₁.phys = s.phys := by
    obtain ⟨rfl, -⟩ | ⟨rfl, -⟩ := hstart <;> rfl
  have hlive₁ : (s₁.proc p).state.Live := by simp [ProcState.Live, hp]
  have hlive : (s.proc p).state.Live := (hkept p).live.mp hlive₁
  obtain ⟨c, hc, hw⟩ | ⟨-, -, hw⟩ | ⟨-, hw⟩ := waitProcess_cases s₁ p
  · have hpc : p ≠ c := by
      rintro rfl
      rw [(zombieChild_spec hc).2] at hp
      cases hp
    obtain ⟨-, hpid, -⟩ := hkept c
    have hexit : (s₁.proc c).exitCode = (s.proc c).exitCode := by
      obtain ⟨rfl, -⟩ | ⟨rfl, -⟩ := hstart
      · rfl
      · rw [woken_of_ne hpc.symm]
    rw [hw]
    refine ⟨hlive, ?_, ?_, .inl ⟨c, ?_, ?_, ?_⟩⟩
    · rwa [reap_of_ne hpc]
    · rw [reap_of_ne hpc, (hkept p).pagetable]
    · rw [← zombieChild_start hstart, hc]
    · rw [← hexit, ← hpid]
      rfl
    · rw [← hphys, ← (hkept c).kstack]
      rfl
  · have hsleep := kept_sleep p hlive₁
    rw [hw]
    refine ⟨hlive, (hsleep p).live.mpr hlive₁, ?_, .inr ⟨hphys, fun q w hnone => by cases hnone⟩⟩
    rw [(hsleep p).pagetable, (hkept p).pagetable]
  · rw [hw]
    refine ⟨hlive, hlive₁, (hkept p).pagetable, .inr ⟨hphys, fun q w hsome => ?_⟩⟩
    obtain ⟨-, rfl⟩ := Prod.mk.inj (Option.some.inj hsome)
    rfl

/-- A turn of the loop leaves the page table of the caller alone. -/
theorem Isolated.turn_userByte {e : Procs.Event} {answer : Option (Fin nproc × Waited)}
    (h : Isolated lay own s) (hscan : s.scan e = some p)
    (hstep : s.step lay e = some (answer, s')) (va : Word) :
    s'.phys.userByte (s.proc p).pagetable va = s.phys.userByte (s.proc p).pagetable va := by
  obtain ⟨hlive, -, -, ⟨c, hc, -, hphys⟩ | ⟨hphys, -⟩⟩ := h.turn hscan hstep
  · obtain ⟨free, hown⟩ := h.owned
    have hroot := (h.slots p).pagetable ((h.slots p).live hlive).2.1
    have hzombie : (s.proc c).state.Live := by simp [ProcState.Live, (zombieChild_spec hc).2]
    have hstack := (h.slots c).kstack ((h.slots c).live hzombie).1
    unfold Phys.userByte
    rw [hphys, hown.userPage_congr hroot fun r path hr => ?_]
    have hne : r ≠ (s.proc c).kstack := by
      rintro rfl
      rw [hstack] at hr
      cases hr
    simp [Phys.freePage, Phys.store, Phys.fill, hne]
  · rw [hphys]

/-! ## The machine with `sys_wait` -/

/-- The processes, and the variable `addr` of the `sys_wait` of each of them. -/
structure Waits where
  procs : Procs
  addr : Fin nproc → Word := fun _ => 0

/-- What happens on the machine.  `wait_process` has no other caller than `sys_wait`. -/
inductive WaitEvent
  /-- The running process calls `wait(addr)`. -/
  | sysWait (addr : Word)
  | other (e : Procs.Event)

namespace Waits

/-- The event for the process table. -/
def event : WaitEvent → Procs.Event
  | .sysWait _ => .call .waitProcess
  | .other e => e

/-- `sys_wait` begins with the address. -/
def enter (s : Waits) : WaitEvent → Option (Fin nproc → Word)
  | .sysWait addr => s.procs.cur.map fun p => Function.update s.addr p addr
  | .other (.call .waitProcess) => none
  | .other _ => some s.addr

/-- `wait_process` has returned, or it has not. -/
def leave (procs : Procs) (addr : Fin nproc → Word) : Option (Fin nproc × Waited) → Procs
  | some (p, w) => procs.sysWaitStore p (addr p) w
  | none => procs

/-- One event.  The answer names the process whose `sys_wait` returns. -/
def step (lay : Layout) (s : Waits) (e : WaitEvent) :
    Option (Option (Fin nproc × Waited) × Waits) := do
  let addr ← s.enter e
  let (answer, procs) ← s.procs.step lay (event e)
  return (answer, ⟨leave procs addr answer, addr⟩)

end Waits

/-- The machine under any sequence of events. -/
def waits (lay : Layout) : System Waits WaitEvent where
  init s := boot lay = some s.procs ∧ s.addr = fun _ => 0
  step s e s' := ∃ answer, s.step lay e = some (answer, s')

/-- The four bytes for the status are on one page. -/
def WaitEvent.Within (_ : Waits) : WaitEvent → Prop
  | .sysWait addr => InOnePage addr
  | .other _ => True

/-- What `sys_wait(addr)` of `p` does in a turn of the loop of `wait_process`. -/
structure WaitRight (s s' : Procs) (p : Fin nproc) (addr : Word) (answer : Option Waited) :
    Prop where
  /-- A byte that changes is in the page that has been put on the free list, or it is one of the
  four that the caller has mapped. -/
  frame : ∀ b, s'.phys.byte b ≠ s.phys.byte b →
    (∃ c, s.zombieChild p = some c ∧ b / pgsize * pgsize = (s.proc c).kstack) ∨
      ∃ k < 4, s.phys.userByte (s.proc p).pagetable (addr + BitVec.ofNat 64 k) = some b
  /-- Nothing is stored at the null pointer. -/
  null : addr = 0 → ∀ b, s'.phys.byte b ≠ s.phys.byte b →
    ∃ c, s.zombieChild p = some c ∧ b / pgsize * pgsize = (s.proc c).kstack
  /-- A caller that has the four bytes mapped and gets a pid reads the exit status. -/
  status : ∀ w, answer = some w → w.pid > 0 → addr ≠ 0 →
    (∀ k < 4, ∃ b, s.phys.userByte (s.proc p).pagetable (addr + BitVec.ofNat 64 k) = some b) →
      ∃ c, s.zombieChild p = some c ∧ w.pid = (s.proc c).pid ∧ ∀ k < 4, ∃ b,
        s'.phys.userByte (s'.proc p).pagetable (addr + BitVec.ofNat 64 k) = some b ∧
          s'.phys.byte b = Phys.intByte (s.proc c).exitCode k

/-- A store on one page of the caller changes four bytes and no page table. -/
theorem Isolated.assignInt {b : ℕ} (h : Isolated lay own s)
    (hlive : (s.proc p).state.Live) (hpage : InOnePage addr)
    (hb : s.phys.userByte (s.proc p).pagetable addr = some b) (v : ℤ) :
    Isolated lay own (s.setPhys (s.phys.assignInt b v)) ∧
      ∀ va, (s.phys.assignInt b v).userByte (s.proc p).pagetable va =
        s.phys.userByte (s.proc p).pagetable va := by
  obtain ⟨pa, hpa, rfl⟩ := Option.map_eq_some_iff.mp hb
  obtain ⟨free, hown⟩ := h.owned
  have hroot := (h.slots p).pagetable ((h.slots p).live hlive).2.1
  have haligned := (hown.range _ _ (hown.userPage hroot hpa)).1
  obtain ⟨content, hfill⟩ := s.phys.assignInt_fill haligned hpage v
  obtain ⟨hisolated, -, htables⟩ := h.fillUser hlive hpa content
  rw [hfill]
  refine ⟨hisolated, fun va => ?_⟩
  unfold Phys.userByte
  rw [htables p hlive]

/-- A turn that stores nothing is right if it is not asked to. -/
theorem WaitRight.of_freed {answer : Option Waited}
    (hfreed : ∀ b, s'.phys.byte b ≠ s.phys.byte b →
      ∃ c, s.zombieChild p = some c ∧ b / pgsize * pgsize = (s.proc c).kstack)
    (hskip : ∀ w, answer = some w → w.pid > 0 → addr ≠ 0 →
      s.phys.userByte (s.proc p).pagetable addr = none) : WaitRight s s' p addr answer where
  frame b hb := .inl (hfreed b hb)
  null _ := hfreed
  status w hw hpid haddr hmapped := by
    obtain ⟨b, hb⟩ := hmapped 0 (by decide)
    have hnone := hskip w hw hpid haddr
    rw [show addr + BitVec.ofNat 64 0 = addr from BitVec.add_zero addr, hnone] at hb
    exact nomatch hb

/-- A turn of the loop and the end of `sys_wait`, if the loop ends, for an int on one page. -/
theorem Isolated.waitRight {e : Procs.Event} {answer : Option (Fin nproc × Waited)} {s₁ : Procs}
    {addrs : Fin nproc → Word} (h : Isolated lay own s) (hpage : InOnePage (addrs p))
    (hscan : s.scan e = some p) (hstep : s.step lay e = some (answer, s₁)) :
    (∃ own', Isolated lay own' (Waits.leave s₁ addrs answer)) ∧
      WaitRight s (Waits.leave s₁ addrs answer) p (addrs p) (answer.map Prod.snd) := by
  obtain ⟨hlive, hlive₁, hpt, hturn⟩ := h.turn hscan hstep
  obtain ⟨own₁, h₁, -⟩ := h.step hstep
  have hsame := h.turn_userByte hscan hstep
  rcases hturn with ⟨c, hc, rfl, hphys⟩ | ⟨hphys, hfail⟩
  · have hfreed : ∀ b, s₁.phys.byte b ≠ s.phys.byte b →
        ∃ c, s.zombieChild p = some c ∧ b / pgsize * pgsize = (s.proc c).kstack := by
      intro b hb
      refine ⟨c, hc, ?_⟩
      by_contra hne
      exact hb (hphys ▸ Phys.byte_freePage hne)
    by_cases hasked : (s.proc c).pid > 0 ∧ addrs p ≠ 0
    · rw [Waits.leave, sysWaitStore_eq _ hasked.1 hasked.2, hpt, hsame]
      cases hb : s.phys.userByte (s.proc p).pagetable (addrs p) with
      | none => exact ⟨⟨own₁, h₁⟩, .of_freed hfreed fun _ _ _ _ => hb⟩
      | some b =>
        have hb₁ : s₁.phys.userByte (s₁.proc p).pagetable (addrs p) = some b := by
          rw [hpt, hsame, hb]
        obtain ⟨hisolated, htables⟩ := h₁.assignInt hlive₁ hpage hb₁ (s.proc c).exitCode
        refine ⟨⟨own₁, hisolated⟩, fun d hd => ?_, fun hnull => absurd hnull hasked.2, ?_⟩
        · by_cases hint : b ≤ d ∧ d < b + 4
          · refine .inr ⟨d - b, by omega, ?_⟩
            rw [hpage.userByte (by omega), hb]
            have hsum : b + (d - b) = d := by omega
            exact congrArg some hsum
          · have hbyte : (s₁.phys.assignInt b (s.proc c).exitCode).byte d = s₁.phys.byte d := by
              rw [Phys.byte_assignInt, if_neg hint]
            exact .inl (hfreed d (by rwa [← hbyte]))
        · intro w hw hpid haddr hmapped
          obtain rfl := Option.some.inj hw
          refine ⟨c, hc, rfl, fun k hk => ⟨b + k, ?_, ?_⟩⟩
          · change (s₁.phys.assignInt b (s.proc c).exitCode).userByte (s₁.proc p).pagetable _ = _
            rw [htables, hpt, hsame, hpage.userByte hk, hb]
            rfl
          · change (s₁.phys.assignInt b (s.proc c).exitCode).byte (b + k) = _
            rw [Phys.byte_assignInt, if_pos ⟨by omega, by omega⟩, Nat.add_sub_cancel_left]
    · rw [Waits.leave, sysWaitStore_skip hasked]
      refine ⟨⟨own₁, h₁⟩, .of_freed hfreed fun w hw hpid haddr => ?_⟩
      obtain rfl := Option.some.inj hw
      exact absurd ⟨hpid, haddr⟩ hasked
  · have hkeep : Waits.leave s₁ addrs answer = s₁ := by
      match answer, hfail with
      | none, _ => rfl
      | some (q, w), hfail =>
        have hpid := hfail q w rfl
        exact sysWaitStore_skip (by omega)
    rw [hkeep]
    refine ⟨⟨own₁, h₁⟩, .of_freed (fun b hb => absurd (by rw [hphys]) hb) fun w hw hpid _ => ?_⟩
    obtain ⟨⟨q, w⟩, hanswer, rfl⟩ := Option.map_eq_some_iff.mp hw
    have hpid' := hfail q w hanswer
    exact absurd hpid (by simp [hpid'])

/-! ## Every run -/

namespace Waits

theorem step_cases {t t' : Waits} {e : WaitEvent} {answer : Option (Fin nproc × Waited)}
    (h : t.step lay e = some (answer, t')) :
    ∃ addr procs, t.enter e = some addr ∧ t.procs.step lay (event e) = some (answer, procs) ∧
      t' = ⟨leave procs addr answer, addr⟩ := by
  obtain ⟨addr, henter, h⟩ := Option.bind_eq_some_iff.mp h
  obtain ⟨⟨answer', procs⟩, hstep, h⟩ := Option.bind_eq_some_iff.mp h
  obtain ⟨rfl, rfl⟩ := Prod.mk.inj (Option.some.inj h)
  exact ⟨addr, procs, henter, hstep, rfl⟩

/-- All callers want the status on one page. -/
theorem enter_within {t : Waits} {e : WaitEvent} {addr : Fin nproc → Word}
    (h : ∀ p, InOnePage (t.addr p)) (he : e.Within t) (henter : t.enter e = some addr) :
    ∀ p, InOnePage (addr p) := by
  cases e with
  | sysWait a =>
    obtain ⟨q, -, rfl⟩ := Option.map_eq_some_iff.mp henter
    intro p
    by_cases hp : p = q
    · subst hp
      rwa [Function.update_self]
    · rw [Function.update_of_ne hp]
      exact h p
  | other e =>
    have hsame : addr = t.addr := by
      unfold enter at henter
      split at henter <;> simp_all
    exact hsame ▸ h

/-- An event that is no turn of the loop answers nobody. -/
theorem leave_other {procs procs' : Procs} {e : Procs.Event} {addr : Fin nproc → Word}
    {answer : Option (Fin nproc × Waited)} (hrun : procs.Running) (hscan : procs.scan e = none)
    (h : procs.step lay e = some (answer, procs')) : leave procs' addr answer = procs' := by
  obtain ⟨rfl, -⟩ := step_other hscan hrun h
  rfl

theorem isolated {t : Waits} (h : ((waits lay).restrict WaitEvent.Within).Reachable t) :
    (∃ own, Isolated lay own t.procs) ∧ ∀ p, InOnePage (t.addr p) := by
  induction h with
  | init h =>
    obtain ⟨hboot, haddr⟩ := h
    refine ⟨Isolated.boot hboot, fun p => ?_⟩
    rw [haddr]
    exact (by decide : InOnePage 0)
  | step _ hstep ih =>
    obtain ⟨⟨own, hs⟩, hpages⟩ := ih
    obtain ⟨hwithin, answer, hstep⟩ := hstep
    obtain ⟨addr, procs, henter, hbase, rfl⟩ := step_cases hstep
    have hpages' := enter_within hpages hwithin henter
    refine ⟨?_, hpages'⟩
    cases hscan : Procs.scan _ (event _) with
    | some p => exact (hs.waitRight (hpages' p) hscan hbase).1
    | none =>
      obtain ⟨own', hs', -⟩ := hs.step hbase
      rw [leave_other hs.running hscan hbase]
      exact ⟨own', hs'⟩

end Waits

/-- In every run whose callers of `wait` pass an address with its four bytes on one page, `sys_wait`
changes, but for the page it frees, no bytes except the four that the caller has mapped there,
none for the null pointer, and the caller reads the exit status in them. -/
theorem sys_wait_stores (lay : Layout) (t t' : Waits) (e : WaitEvent) (p : Fin nproc)
    (addr : Fin nproc → Word) (answer : Option (Fin nproc × Waited))
    (h : ((waits lay).restrict WaitEvent.Within).Reachable t) (hwithin : e.Within t)
    (henter : t.enter e = some addr) (hscan : t.procs.scan (Waits.event e) = some p)
    (hstep : t.step lay e = some (answer, t')) :
    WaitRight t.procs t'.procs p (addr p) (answer.map Prod.snd) := by
  obtain ⟨⟨own, hs⟩, hpages⟩ := Waits.isolated h
  obtain ⟨addr', procs, henter', hbase, rfl⟩ := Waits.step_cases hstep
  obtain rfl := Option.some.inj (henter.symm.trans henter')
  exact (hs.waitRight (Waits.enter_within hpages hwithin henter p) hscan hbase).2

/-- Take the events of a list. -/
def Waits.run (lay : Layout) : Waits → List WaitEvent → Option Waits :=
  System.runAll fun t e => (t.step lay e).map Prod.snd

/-- `init` waits for a child, which exits. -/
def waitEvents (addr : Word) (status : ℤ) : List WaitEvent :=
  [.other (.schedule 0), .other (.call (.fork 3)), .sysWait addr, .other (.schedule 1),
    .other (.call (.exitProcess status))]

/-- The byte `k` of the int at the address, as `init` has it mapped. -/
def Waits.byteAt (t : Waits) (addr : Word) (k : ℕ) : Option ℕ :=
  t.procs.phys.userByte (t.procs.proc 0).pagetable (addr + BitVec.ofNat 64 k)

/-- The child of `init` has exited, and the scheduler goes back to the `sys_wait` of `init`. -/
structure WaitOver (t t' : Waits) (addr : Word) (status : ℤ) : Prop where
  reachable : (waits smallLayout).Reachable t
  within : InOnePage addr → ((waits smallLayout).restrict WaitEvent.Within).Reachable t
  passed : t.addr 0 = addr
  scan : t.procs.scan (.schedule 0) = some 0
  step : t.step smallLayout (.other (.schedule 0)) = some (some (0, ⟨2, some status⟩), t')
  mapped : ∀ k < 4, ∃ b, t.byteAt addr k = some b

theorem exists_waitOver (addr : Word) (status : ℤ) (ok : Waits → Waits → Bool)
    (hrun : ((boot smallLayout).bind fun s =>
      Waits.run smallLayout ⟨s, fun _ => 0⟩ (waitEvents addr status)).any (fun t =>
        t.addr 0 = addr ∧ t.procs.scan (.schedule 0) = some 0 ∧
          (∀ k < 4, (t.byteAt addr k).isSome) ∧
          (t.step smallLayout (.other (.schedule 0))).any fun r =>
            r.1 = some (0, ⟨2, some status⟩) ∧ ok t r.2) = true) :
    ∃ t t', WaitOver t t' addr status ∧ ok t t' = true := by
  obtain ⟨t, ht, hfacts⟩ := (Option.any_eq_true ..).mp hrun
  obtain ⟨haddr, hscan, hmapped, hstep⟩ := of_decide_eq_true hfacts
  obtain ⟨⟨answer, t'⟩, hstep, hfacts⟩ := (Option.any_eq_true ..).mp hstep
  obtain ⟨rfl, hok⟩ := of_decide_eq_true hfacts
  obtain ⟨s, hboot, hstart⟩ := Option.bind_eq_some_iff.mp ht
  have hinit : (waits smallLayout).init ⟨s, fun _ => 0⟩ := ⟨hboot, rfl⟩
  have hstep' : ∀ t e t', ((t : Waits).step smallLayout e).map Prod.snd = some t' →
      (waits smallLayout).step t e t' := by
    intro t e t' hnext
    obtain ⟨⟨answer, u⟩, hstep, rfl⟩ := Option.map_eq_some_iff.mp hnext
    exact ⟨answer, hstep⟩
  refine ⟨t, t', ⟨System.Reachable.runAll hstep' (.init hinit) hstart, fun hpage => ?_, haddr,
    hscan, hstep, fun k hk => Option.isSome_iff_exists.mp (hmapped k hk)⟩, hok⟩
  have hnext : ∀ e ∈ waitEvents addr status, ∀ t t',
      ((t : Waits).step smallLayout e).map Prod.snd = some t' →
        ((waits smallLayout).restrict WaitEvent.Within).step t e t' := by
    intro e he t t' hnext
    refine ⟨?_, hstep' t e t' hnext⟩
    cases e with
    | sysWait a =>
      have ha : a = addr := by simpa [waitEvents] using he
      exact ha ▸ hpage
    | other e => trivial
  exact System.Reachable.runAll_mem hnext (.init hinit) hstart

/-- A byte that changes although it is not in the page that is freed and not mapped at one of the
four addresses. -/
def Waits.Overrun (t t' : Waits) (addr : Word) (b : ℕ) : Prop :=
  t'.procs.phys.byte b ≠ t.procs.phys.byte b ∧
    (∀ c ∈ t.procs.zombieChild 0, b / pgsize * pgsize ≠ (t.procs.proc c).kstack) ∧
    ∀ k < 4, t.byteAt addr k ≠ some b

instance (t t' : Waits) (addr : Word) (b : ℕ) : Decidable (t.Overrun t' addr b) :=
  inferInstanceAs (Decidable (_ ∧ _ ∧ _))

/-- An int that begins two bytes before the end of a page is assigned to the page of memory behind
it; one at address 0 is not assigned. -/
theorem sys_wait_overruns :
    (∃ t t', WaitOver t t' 4094 (-1) ∧ ∃ b, t.Overrun t' 4094 b) ∧
    ∃ t t', WaitOver t t' 0 7 ∧ ∃ b, t'.byteAt 0 0 = some b ∧
      t'.procs.phys.byte b ≠ Phys.intByte 7 0 := by
  constructor
  · obtain ⟨t, t', h, hok⟩ := exists_waitOver 4094 (-1) (fun t t' =>
      (t.byteAt 4094 0).any fun b => t.Overrun t' 4094 (b + 2)) (by decide +kernel)
    obtain ⟨b, -, hover⟩ := (Option.any_eq_true ..).mp hok
    exact ⟨t, t', h, b + 2, of_decide_eq_true hover⟩
  · obtain ⟨t, t', h, hok⟩ := exists_waitOver 0 7 (fun _ t' =>
      (t'.byteAt 0 0).any fun b => t'.procs.phys.byte b ≠ Phys.intByte 7 0) (by decide +kernel)
    obtain ⟨b, hb, hne⟩ := (Option.any_eq_true ..).mp hok
    exact ⟨t, t', h, b, hb, of_decide_eq_true hne⟩

/-- `init` reads the status 7 of its child at address 8. -/
theorem sys_wait_stores_init : ∃ t t', WaitOver t t' 8 7 ∧
    WaitRight t.procs t'.procs 0 (t.addr 0) (some ⟨2, some 7⟩) := by
  obtain ⟨t, t', h, -⟩ := exists_waitOver 8 7 (fun _ _ => true) (by decide +kernel)
  exact ⟨t, t', h, sys_wait_stores smallLayout t t' (.other (.schedule 0)) 0 t.addr _
    (h.within (by decide)) trivial rfl h.scan h.step⟩

end RiscvOs
