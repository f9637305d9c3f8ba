import RiscvOs.Lib.System
import RiscvOs.Proc.Model

/-!
# What the calls do to the process table

`fork` and `alloc_process` interleave their work on physical memory with their work on
the slot they fill.  `Phys.build` and `Phys.forkPages` are the memory side alone, and
`fork_eq` puts the two sides together again: whatever happens in memory, the process
table changes in one slot, and in one of three ways.
-/

namespace RiscvOs

/-- How far `alloc_process` came with the pages it allocates. -/
inductive Built
  | noStack
  | noFrame (kstack pagetable : ℕ)
  | full (kstack pagetable trapframe : ℕ)

/-- How `fork` ended, once it had a slot. -/
inductive Forked
  /-- `alloc_process` ran out of memory. -/
  | starved (b : Built)
  /-- A page of the parent could not be copied. -/
  | uncopied (kstack pagetable trapframe : ℕ)
  | done (kstack pagetable trapframe : ℕ)

/-- How `user_init` ended. -/
inductive Inited
  | starved (b : Built)
  /-- The program or its stack did not fit into memory; `sz` bytes are mapped. -/
  | unloaded (kstack pagetable trapframe : ℕ) (sz : Word)
  | done (kstack pagetable trapframe : ℕ) (sz : Word)

namespace Phys

/-- The pages `alloc_process` allocates and maps. -/
def build (lay : Layout) (m : Phys) : Option (Built × Phys) := do
  let (kstack, m) := m.allocPage
  if kstack = 0 then return (.noStack, m)
  let (pagetable, m) ← m.createPagetable
  let (trapframe, m) := m.allocPage
  if trapframe = 0 then return (.noFrame kstack pagetable, m)
  let (_, m) ← m.mapPage pagetable trampolineVa lay.trampoline (pteR ||| pteX)
  let (_, m) ← m.mapPage pagetable trapframeVa trapframe (pteR ||| pteW)
  return (.full kstack pagetable trapframe, m)

/-- The pages `fork` of the process `q` allocates, maps and fills. -/
def forkPages (lay : Layout) (fuel : ℕ) (q : Proc) (m : Phys) : Option (Forked × Phys) := do
  let (b, m) ← m.build lay
  match b with
  | .full kstack pagetable trapframe =>
    let (ok, m) ← Procs.copyPages q.pagetable pagetable q.sz fuel 0 m
    if ok = false then return (.uncopied kstack pagetable trapframe, m)
    let m := m.fill trapframe (m.page q.trapframe)
    return (.done kstack pagetable trapframe, m.store trapframe tfA0 0)
  | b => return (.starved b, m)

/-- The pages `user_init` allocates, maps and fills. -/
def initPages (lay : Layout) (m : Phys) : Option (Inited × Phys) := do
  let (b, m) ← m.build lay
  match b with
  | .full kstack pagetable trapframe =>
    let (ok, m) ← Procs.loadPages m pagetable lay.initBin 0 lay.numPages
    if ok = false then return (.unloaded kstack pagetable trapframe 0, m)
    let sz : Word := BitVec.ofNat 64 (lay.numPages * pgsize)
    let (stack, m) := m.allocPage
    if stack = 0 then return (.unloaded kstack pagetable trapframe sz, m)
    let m := m.fill stack fun _ => 0
    let (_, m) ← m.mapPage pagetable sz stack (pteR ||| pteW ||| pteU)
    let m := m.store trapframe tfEpc 0
    return (.done kstack pagetable trapframe sz, m.store trapframe tfSp (sz + 4096))
  | b => return (.starved b, m)

end Phys

/-- The slot `q` after `alloc_process` has given it a pid and its pages. -/
def Built.proc (q : Proc) (pid : ℤ) : Built → Proc
  | .noStack => { q with pid, state := .used, kstack := 0 }
  | .noFrame kstack pagetable =>
    { q with pid, state := .used, kstack, pagetable, trapframe := 0 }
  | .full kstack pagetable trapframe =>
    { q with pid, state := .used, kstack, pagetable, trapframe, sz := 0, parent := none,
             chan := none, context := { q.context with sp := kstack + pgsize } }

/-- The slot `alloc_process` returns when it was filling the slot `i`. -/
def Built.slot (i : Fin nproc) : Built → Option (Fin nproc)
  | .full .. => some i
  | _ => none

/-- The slot `q` after `fork` of the process `parent` in the slot `p`. -/
def Forked.proc (p : Fin nproc) (parent q : Proc) (pid : ℤ) : Forked → Proc
  | .starved b => b.proc q pid
  | .uncopied kstack pagetable trapframe =>
    { (Built.full kstack pagetable trapframe).proc q pid with state := .unused }
  | .done kstack pagetable trapframe =>
    { (Built.full kstack pagetable trapframe).proc q pid with
      sz := parent.sz, parent := some p, name := safestrcpy q.name parent.name,
      context := ⟨.usertrapret, kstack + pgsize⟩, state := .runnable }

/-- The slot `q` after `user_init`. -/
def Inited.proc (q : Proc) (pid : ℤ) : Inited → Proc
  | .starved b => b.proc q pid
  | .unloaded kstack pagetable trapframe sz =>
    { (Built.full kstack pagetable trapframe).proc q pid with
      sz, name := safestrcpy q.name initName }
  | .done kstack pagetable trapframe sz =>
    { (Built.full kstack pagetable trapframe).proc q pid with
      sz := sz + 4096, name := safestrcpy q.name initName, state := .runnable,
      context := ⟨.usertrapret, kstack + pgsize⟩ }

/-- What `fork` returns. -/
def Forked.ret (pid : ℤ) : Forked → ℤ
  | .done .. => pid
  | _ => -1

namespace Procs

variable {lay : Layout} {s : Procs} {i j p : Fin nproc}

/-! ## Slots -/

@[simp] theorem setProc_phys (q : Proc) : (s.setProc i q).phys = s.phys := rfl
@[simp] theorem setProc_cur (q : Proc) : (s.setProc i q).cur = s.cur := rfl
@[simp] theorem setProc_nextpid (q : Proc) : (s.setProc i q).nextpid = s.nextpid := rfl

theorem setProc_proc (q : Proc) : (s.setProc i q).proc = Function.update s.proc i q := rfl

@[simp] theorem setProc_self (q : Proc) : (s.setProc i q).proc i = q := by
  simp [setProc_proc]

theorem setProc_of_ne (q : Proc) (h : j ≠ i) : (s.setProc i q).proc j = s.proc j := by
  simp [setProc_proc, h]

@[simp] theorem setProc_setProc (q q' : Proc) :
    (s.setProc i q).setProc i q' = s.setProc i q' := by
  simp [setProc, Function.update_idem]

@[simp] theorem setPhys_proc (m : Phys) : (s.setPhys m).proc = s.proc := rfl
@[simp] theorem setPhys_cur (m : Phys) : (s.setPhys m).cur = s.cur := rfl
@[simp] theorem setPhys_nextpid (m : Phys) : (s.setPhys m).nextpid = s.nextpid := rfl
@[simp] theorem setPhys_phys (m : Phys) : (s.setPhys m).phys = m := rfl

theorem firstUnused_unused (h : s.firstUnused = some i) : (s.proc i).state = .unused := by
  simpa using List.find?_some h

theorem zombieChild_spec (h : s.zombieChild p = some i) :
    (s.proc i).parent = some p ∧ (s.proc i).state = .zombie := by
  simpa using List.find?_some h

theorem zombieChild_none (h : s.zombieChild p = none) (hp : (s.proc i).parent = some p) :
    (s.proc i).state ≠ .zombie := by
  have := List.find?_eq_none.mp h i (List.mem_finRange i)
  simpa [hp] using this

/-! ## `alloc_process` and `fork` -/

/-- The process table after the slot `i` was given the next pid and became `q`, and memory `m`. -/
def enter (s : Procs) (i : Fin nproc) (q : Proc) (m : Phys) : Procs :=
  { phys := m, proc := Function.update s.proc i q, nextpid := i32 (s.nextpid + 1), cur := s.cur }

theorem allocSlot_eq : s.allocSlot lay i = (s.phys.build lay).map fun r =>
    (r.1.slot i, s.enter i (r.1.proc (s.proc i) s.nextpid) r.2) := by
  unfold allocSlot Phys.build
  rcases hk : s.phys.allocPage with ⟨kstack, m₁⟩
  by_cases hk0 : kstack = 0
  · simp [hk, hk0, modProc, setProc, setPhys, enter, Built.slot, Built.proc, Function.update_idem]
  rcases hp : m₁.createPagetable with _ | ⟨pagetable, m₂⟩
  · simp [hk, hk0, hp, modProc]
  rcases ht : m₂.allocPage with ⟨trapframe, m₃⟩
  by_cases ht0 : trapframe = 0
  · simp [hk, hk0, hp, ht, ht0, modProc, setProc, setPhys, enter, Built.slot, Built.proc,
      Function.update_idem]
  rcases hm : m₃.mapPage pagetable trampolineVa lay.trampoline (pteR ||| pteX) with _ | ⟨_, m₄⟩
  · simp [hk, hk0, hp, ht, ht0, hm, modProc]
  rcases hn : m₄.mapPage pagetable trapframeVa trapframe (pteR ||| pteW) with _ | ⟨_, m₅⟩
  · simp [hk, hk0, hp, ht, ht0, hm, hn, modProc]
  · simp [hk, hk0, hp, ht, ht0, hm, hn, modProc, setProc, setPhys, enter, Built.slot, Built.proc,
      Function.update_idem]

theorem fork_none (fuel : ℕ) (h : s.firstUnused = none) : s.fork lay fuel p = some (-1, s) := by
  simp [fork, allocProcess, h]

/-- `fork` fills the first free slot; the rest of the process table stays as it is. -/
theorem fork_eq (fuel : ℕ) (h : s.firstUnused = some i) (hp : p ≠ i) :
    s.fork lay fuel p = (s.phys.forkPages lay fuel (s.proc p)).map fun r =>
      (r.1.ret s.nextpid, s.enter i (r.1.proc p (s.proc p) (s.proc i) s.nextpid) r.2) := by
  unfold fork Phys.forkPages
  simp only [allocProcess, h, allocSlot_eq]
  rcases hb : s.phys.build lay with _ | ⟨b, m⟩
  · rfl
  cases b with
  | noStack => rfl
  | noFrame => rfl
  | full kstack pagetable trapframe =>
    rcases hc : copyPages (s.proc p).pagetable pagetable (s.proc p).sz fuel 0#64 m with _ | ⟨ok, m'⟩
    · simp [Built.slot, Built.proc, enter, hc, hp]
    · cases ok
      · simp [Built.slot, Built.proc, enter, hc, hp, setPhys, modProc,
          setProc, Forked.ret, Forked.proc, Function.update_idem]
      · simp [Built.slot, Built.proc, enter, hc, hp, setPhys, modProc,
          setProc, Forked.ret, Forked.proc, Function.update_idem]

/-- `user_init` fills the first free slot. -/
theorem userInit_eq (h : s.firstUnused = some i) :
    s.userInit lay = (s.phys.initPages lay).map fun r =>
      s.enter i (r.1.proc (s.proc i) s.nextpid) r.2 := by
  unfold userInit Phys.initPages
  simp only [allocProcess, h, allocSlot_eq]
  rcases hb : s.phys.build lay with _ | ⟨b, m⟩
  · rfl
  cases b with
  | noStack => rfl
  | noFrame => rfl
  | full kstack pagetable trapframe =>
    rcases hl : loadPages m pagetable lay.initBin 0 lay.numPages with _ | ⟨ok, m'⟩
    · simp [Built.slot, Built.proc, enter, hl, modProc, setProc]
    cases ok
    · simp [Built.slot, Built.proc, enter, hl, modProc, setProc, setPhys, Inited.proc,
        Function.update_idem]
    rcases ha : m'.allocPage with ⟨stack, m''⟩
    by_cases hs : stack = 0
    · simp [Built.slot, Built.proc, enter, hl, modProc, setProc, setPhys, Inited.proc, ha, hs,
        Function.update_idem]
    · simp [Built.slot, Built.proc, enter, hl, modProc, setProc, setPhys, Inited.proc, ha, hs,
        Function.update_idem, Option.map_bind]

/-! ## The other calls -/

theorem zombieChild_congr {s' : Procs} (h : ∀ i, (s'.proc i).parent = (s.proc i).parent ∧
    ((s'.proc i).state = .zombie ↔ (s.proc i).state = .zombie)) :
    s'.zombieChild p = s.zombieChild p := by
  unfold zombieChild
  congr 1
  funext i
  simp [h i]

end Procs

/-- The slot holds a process that has been created in full and not been reaped. -/
def ProcState.Live (s : ProcState) : Prop := s ≠ .unused ∧ s ≠ .used

instance (s : ProcState) : Decidable s.Live := inferInstanceAs (Decidable (_ ∧ _))

/-- The slot holds the same process, with the same parent and the same pages. -/
structure Proc.Kept (q q' : Proc) : Prop where
  parent : q'.parent = q.parent
  pid : q'.pid = q.pid
  kstack : q'.kstack = q.kstack
  pagetable : q'.pagetable = q.pagetable
  trapframe : q'.trapframe = q.trapframe
  live : q'.state.Live ↔ q.state.Live

theorem Proc.Kept.rfl {q : Proc} : q.Kept q :=
  ⟨Eq.refl _, Eq.refl _, Eq.refl _, Eq.refl _, Eq.refl _, Iff.rfl⟩

theorem Proc.Kept.trans {q q' q'' : Proc} (h : q.Kept q') (h' : q'.Kept q'') : q.Kept q'' :=
  ⟨h'.parent.trans h.parent, h'.pid.trans h.pid, h'.kstack.trans h.kstack,
    h'.pagetable.trans h.pagetable, h'.trapframe.trans h.trapframe, h'.live.trans h.live⟩

namespace Procs

variable {lay : Layout} {s s' : Procs} {i j p : Fin nproc}

/-- Every slot holds the same process, with the same parent and the same pages. -/
def Kept (s s' : Procs) : Prop := ∀ i, (s.proc i).Kept (s'.proc i)

theorem Kept.refl (s : Procs) : s.Kept s := fun _ => .rfl

theorem Kept.trans {s'' : Procs} (h : s.Kept s') (h' : s'.Kept s'') : s.Kept s'' :=
  fun i => (h i).trans (h' i)

theorem kept_setProc {q : Proc} (h : (s.proc i).Kept q) : s.Kept (s.setProc i q) := by
  intro j
  by_cases hj : j = i
  · subst hj
    simpa using h
  · rw [setProc_of_ne q hj]
    exact .rfl

theorem kept_modProc {f : Proc → Proc} (h : (s.proc i).Kept (f (s.proc i))) :
    s.Kept (s.modProc i f) :=
  kept_setProc h

theorem kept_wakeup (chan : Fin nproc) : s.Kept (s.wakeup chan) := by
  intro i
  simp only [wakeup]
  split
  · next h => exact ⟨rfl, rfl, rfl, rfl, rfl, by simp [ProcState.Live, h.1]⟩
  · exact .rfl

theorem kept_swtch (ra : Resume) : s.Kept (s.swtch p ra) :=
  kept_modProc (f := fun q => { q with context := { q.context with ra } }) ⟨rfl, rfl, rfl, rfl, rfl, Iff.rfl⟩

theorem kept_yield (h : (s.proc p).state.Live) : s.Kept (s.yield p) :=
  (kept_modProc (f := fun q => { q with state := .runnable })
    ⟨rfl, rfl, rfl, rfl, rfl, by simpa [ProcState.Live] using h⟩).trans (kept_swtch .yield)

theorem kept_sleep (chan : Fin nproc) (h : (s.proc p).state.Live) : s.Kept (s.sleep p chan) :=
  (kept_modProc (f := fun q => { q with chan := some chan, state := .sleeping })
    ⟨rfl, rfl, rfl, rfl, rfl, by simpa [ProcState.Live] using h⟩).trans (kept_swtch .wait)

theorem exitProcess_orphan (status : ℤ) (h : (s.proc p).parent = none) :
    s.exitProcess p status =
      { s.modProc p fun q => { q with exitCode := status, state := .zombie } with cur := none } := by
  simp [exitProcess, modProc, h]

theorem exitProcess_child (status : ℤ) {parent : Fin nproc} (h : (s.proc p).parent = some parent) :
    s.exitProcess p status =
      { (s.modProc p fun q => { q with exitCode := status, state := .zombie }).wakeup parent with
        cur := none } := by
  simp [exitProcess, modProc, h]

theorem kept_exitProcess (status : ℤ) (h : (s.proc p).state.Live) :
    s.Kept (s.exitProcess p status) := by
  have hzombie : s.Kept (s.modProc p fun q => { q with exitCode := status, state := .zombie }) :=
    kept_modProc ⟨rfl, rfl, rfl, rfl, rfl, by simpa [ProcState.Live] using h⟩
  cases hparent : (s.proc p).parent with
  | none =>
    rw [exitProcess_orphan status hparent]
    exact fun i => hzombie i
  | some parent =>
    rw [exitProcess_child status hparent]
    exact fun i => hzombie.trans (kept_wakeup parent) i

@[simp] theorem exitProcess_phys (status : ℤ) : (s.exitProcess p status).phys = s.phys := by
  simp only [exitProcess]
  split <;> rfl

theorem kill_found {pid : ℤ}
    (h : ((List.finRange nproc).find? fun i => (s.proc i).pid = pid) = some i) :
    s.kill pid = (0, s.modProc i killSlot) := by
  simp [kill, h]

theorem kill_not_found {pid : ℤ}
    (h : ((List.finRange nproc).find? fun i => (s.proc i).pid = pid) = none) :
    s.kill pid = (-1, s) := by
  simp [kill, h]

@[simp] theorem kill_phys (pid : ℤ) : (s.kill pid).2.phys = s.phys := by
  unfold kill
  split <;> rfl

theorem killSlot_live (q : Proc) : (killSlot q).state.Live ↔ q.state.Live := by
  simp only [killSlot]
  split
  · next h => simp [ProcState.Live, h]
  · rfl

theorem kept_kill (pid : ℤ) : s.Kept (s.kill pid).2 := by
  unfold kill
  split
  · next i _ => exact kept_modProc ⟨rfl, rfl, rfl, rfl, rfl, killSlot_live _⟩
  · exact .refl s

/-- `sbrk` maps new pages and, unless it runs out of them, sets the size. -/
theorem sbrk_cases {fuel : ℕ} {n : ℤ} {r : Word} (h : s.sbrk fuel p n = some (r, s')) :
    ∃ ok m, (if n > 0 then growPages (s.proc p).pagetable ((s.proc p).sz + BitVec.ofInt 64 n) fuel
        (pgroundup (s.proc p).sz) s.phys else some (true, s.phys)) = some (ok, m) ∧
      (ok = false ∧ r = -1 ∧ s' = s.setPhys m ∨
        ok = true ∧ r = (s.proc p).sz ∧ s' = (s.setPhys m).modProc p fun q =>
          { q with sz := (s.proc p).sz + BitVec.ofInt 64 n }) := by
  unfold sbrk at h
  obtain ⟨⟨ok, m⟩, hgrown, h⟩ := Option.bind_eq_some_iff.mp h
  refine ⟨ok, m, hgrown, ?_⟩
  cases ok
  · obtain ⟨rfl, rfl⟩ := by simpa using h
    exact .inl ⟨rfl, rfl, rfl⟩
  · obtain ⟨rfl, rfl⟩ := by simpa using h
    exact .inr ⟨rfl, rfl, rfl⟩

theorem kept_sbrk {fuel : ℕ} {n : ℤ} {r : Word} (h : s.sbrk fuel p n = some (r, s')) :
    s.Kept s' := by
  obtain ⟨ok, m, -, ⟨-, -, rfl⟩ | ⟨-, -, rfl⟩⟩ := sbrk_cases h
  · exact .refl s
  · exact kept_modProc (s := s.setPhys m)
      (f := fun q => { q with sz := (s.proc p).sz + BitVec.ofInt 64 n }) ⟨rfl, rfl, rfl, rfl, rfl, Iff.rfl⟩

/-! ## The turns of `wait_process` -/

/-- The process whose `wait_process` takes a turn of its loop in the event. -/
def scan (s : Procs) : Event → Option (Fin nproc)
  | .call .waitProcess => s.cur
  | .schedule p =>
    if s.cur = none ∧ (s.proc p).state = .runnable ∧ (s.proc p).context.ra = .wait then some p
    else none
  | _ => none

/-- The machine when `p` has come back from the `sleep` of its `wait_process`. -/
def woken (s : Procs) (p : Fin nproc) : Procs :=
  ({ s.modProc p fun q => { q with state := .running } with cur := some p }).modProc p
    fun q => { q with chan := none }

theorem kept_woken (h : (s.proc p).state = .runnable) : s.Kept (s.woken p) := by
  have hrun : s.Kept { s.modProc p fun q => { q with state := .running } with cur := some p } :=
    kept_modProc (f := fun q => { q with state := .running })
      ⟨rfl, rfl, rfl, rfl, rfl, by simp [ProcState.Live, h]⟩
  exact hrun.trans (kept_modProc (f := fun q => { q with chan := none })
    ⟨rfl, rfl, rfl, rfl, rfl, Iff.rfl⟩)

theorem woken_of_ne (h : i ≠ p) : (s.woken p).proc i = s.proc i := by
  simp [woken, modProc, setProc, h]

theorem woken_self :
    (s.woken p).proc p = { s.proc p with state := .running, chan := none } := by
  simp [woken, modProc, setProc]

theorem zombieChild_woken (h : (s.proc p).state = .runnable) :
    (s.woken p).zombieChild j = s.zombieChild j := by
  refine zombieChild_congr fun i => ?_
  by_cases hi : i = p
  · subst hi
    simp [woken_self, h]
  · simp [woken_of_ne hi]

theorem waitProcess_reap (h : s.zombieChild p = some i) :
    s.waitProcess p = (some ⟨(s.proc i).pid, some (s.proc i).exitCode⟩, s.reap i) := by
  simp [waitProcess, h]

theorem waitProcess_sleep (h : s.zombieChild p = none) (hchild : (s.proc i).parent = some p) :
    s.waitProcess p = (none, s.sleep p p) := by
  have : ∃ i, (s.proc i).parent = some p := ⟨i, hchild⟩
  simp [waitProcess, h, this]

theorem waitProcess_childless (h : ∀ i, (s.proc i).parent ≠ some p) :
    s.waitProcess p = (some ⟨-1, none⟩, s) := by
  have hz : s.zombieChild p = none := by
    cases hc : s.zombieChild p with
    | none => rfl
    | some i => exact absurd (zombieChild_spec hc).1 (h i)
  simp [waitProcess, hz, h]

/-- A turn of the loop reaps a zombie, goes to sleep because there are children, or gives up. -/
theorem waitProcess_cases (s : Procs) (p : Fin nproc) :
    (∃ i, s.zombieChild p = some i ∧
      s.waitProcess p = (some ⟨(s.proc i).pid, some (s.proc i).exitCode⟩, s.reap i)) ∨
    (s.zombieChild p = none ∧ (∃ i, (s.proc i).parent = some p) ∧
      s.waitProcess p = (none, s.sleep p p)) ∨
    ((∀ i, (s.proc i).parent ≠ some p) ∧ s.waitProcess p = (some ⟨-1, none⟩, s)) := by
  cases hz : s.zombieChild p with
  | some i => exact .inl ⟨i, rfl, waitProcess_reap hz⟩
  | none =>
    by_cases hchild : ∃ i, (s.proc i).parent = some p
    · obtain ⟨i, hi⟩ := hchild
      exact .inr (.inl ⟨rfl, ⟨i, hi⟩, waitProcess_sleep hz hi⟩)
    · have hchild' : ∀ i, (s.proc i).parent ≠ some p := fun i hi => hchild ⟨i, hi⟩
      exact .inr (.inr ⟨hchild', waitProcess_childless hchild'⟩)

/-- A `wait_process` that returns has not switched away. -/
theorem waitProcess_cur (w : Waited) (h : (s.waitProcess p).1 = some w) :
    (s.waitProcess p).2.cur = s.cur := by
  obtain ⟨i, -, hw⟩ | ⟨-, -, hw⟩ | ⟨-, hw⟩ := waitProcess_cases s p
  · rw [hw]
    rfl
  · rw [hw] at h
    exact nomatch h
  · rw [hw]

theorem reap_self : (s.reap i).proc i =
    { s.proc i with kstack := 0, state := .unused, pid := 0, parent := none,
                    name := Function.update (s.proc i).name 0 0 } := by
  simp [reap, modProc]

theorem reap_of_ne (h : j ≠ i) : (s.reap i).proc j = s.proc j := by
  simp [reap, modProc, setProc_of_ne _ h]

theorem enter_self (q : Proc) (m : Phys) : (s.enter i q m).proc i = q := by simp [enter]

theorem enter_of_ne (q : Proc) (m : Phys) (h : j ≠ i) : (s.enter i q m).proc j = s.proc j := by
  simp [enter, h]

/-- A turn of the loop starts in the present state, or in the one `sleep` has returned to. -/
theorem step_scan {e : Event} {w : Option (Fin nproc × Waited)} (hscan : s.scan e = some p)
    (h : s.step lay e = some (w, s')) :
    ∃ s₁, (s₁ = s ∧ s.cur = some p ∨ s₁ = s.woken p ∧ (s.proc p).state = .runnable) ∧
      w = (s₁.waitProcess p).1.map (fun w => (p, w)) ∧ s' = (s₁.waitProcess p).2 := by
  cases e with
  | call c =>
    cases c with
    | waitProcess =>
      have hcur : s.cur = some p := hscan
      obtain ⟨rfl, rfl⟩ := by simpa [step, hcur, call] using h
      exact ⟨s, .inl ⟨rfl, hcur⟩, rfl, rfl⟩
    | _ => simp [scan] at hscan
  | schedule q =>
    obtain ⟨⟨hcur, hrun, hra⟩, rfl⟩ := by simpa [scan] using hscan
    have hra' : ((s.modProc q fun r => { r with state := .running }).proc q).context.ra = .wait := by
      simpa [modProc] using hra
    obtain ⟨rfl, rfl⟩ := by simpa [step, hcur, hrun] using h
    exact ⟨s.woken q, .inr ⟨rfl, hrun⟩, by simp [resume, hra', woken], by simp [resume, hra', woken]⟩
  | _ => simp [scan] at hscan

/-! ## The running process -/

/-- `current_proc` is the process that is `RUNNING`. -/
def Running (s : Procs) : Prop := ∀ p, s.cur = some p → (s.proc p).state = .running

theorem Running.modProc {f : Proc → Proc} (h : s.Running)
    (hf : ∀ q, q.state = .running → (f q).state = .running) : (s.modProc i f).Running := by
  intro p hp
  by_cases hpi : p = i
  · subst hpi
    simpa [Procs.modProc] using hf _ (h p hp)
  · simpa [Procs.modProc, setProc_of_ne _ hpi] using h p hp

theorem Running.waitProcess (h : s.Running) : (s.waitProcess p).2.Running := by
  obtain ⟨i, hi, hw⟩ | ⟨-, -, hw⟩ | ⟨-, hw⟩ := waitProcess_cases s p
  · rw [hw]
    intro q hq
    have hq' := h q hq
    have hne : q ≠ i := by
      rintro rfl
      simp [(zombieChild_spec hi).2] at hq'
    rwa [reap_of_ne hne]
  · rw [hw]
    intro q hq
    simp [sleep, swtch] at hq
  · rwa [hw]

theorem running_woken : (s.woken p).Running := by
  intro q hq
  obtain rfl : p = q := by simpa [woken, Procs.modProc] using hq
  rw [woken_self]

/-- In the state in which a turn of the loop starts, every process is in its slot and the caller
is running. -/
theorem kept_start {s₁ : Procs} (hrun : s.Running)
    (h : s₁ = s ∧ s.cur = some p ∨ s₁ = s.woken p ∧ (s.proc p).state = .runnable) :
    s.Kept s₁ ∧ s₁.Running ∧ (s₁.proc p).state = .running := by
  obtain ⟨rfl, hcur⟩ | ⟨rfl, hp⟩ := h
  · exact ⟨.refl _, hrun, hrun p hcur⟩
  · exact ⟨kept_woken hp, running_woken, by rw [woken_self]⟩

theorem zombieChild_start {s₁ : Procs}
    (h : s₁ = s ∧ s.cur = some p ∨ s₁ = s.woken p ∧ (s.proc p).state = .runnable) :
    s₁.zombieChild j = s.zombieChild j := by
  obtain ⟨rfl, -⟩ | ⟨rfl, hp⟩ := h
  · rfl
  · exact zombieChild_woken hp

theorem Running.kill (h : s.Running) (pid : ℤ) : (s.kill pid).2.Running := by
  unfold Procs.kill
  split
  · exact h.modProc fun q hq => by simp [killSlot, hq]
  · exact h

theorem Running.sbrk {fuel : ℕ} {n : ℤ} {r : Word} (h : s.Running)
    (hr : s.sbrk fuel p n = some (r, s')) : s'.Running := by
  obtain ⟨ok, m, -, ⟨-, -, rfl⟩ | ⟨-, -, rfl⟩⟩ := sbrk_cases hr
  · exact h
  · exact Running.modProc (s := s.setPhys m)
      (f := fun q => { q with sz := (s.proc p).sz + BitVec.ofInt 64 n }) h fun q hq => hq

/-- A `fork` finds no slot, or fills the first free one. -/
theorem step_fork {fuel : ℕ} {w : Option (Fin nproc × Waited)} (hrun : s.Running)
    (hp : s.cur = some p) (h : s.step lay (.call (.fork fuel)) = some (w, s')) :
    w = none ∧ (s' = s ∨ ∃ c f m, s.firstUnused = some c ∧
      s.phys.forkPages lay fuel (s.proc p) = some (f, m) ∧
      s' = s.enter c (f.proc p (s.proc p) (s.proc c) s.nextpid) m) := by
  cases hc : s.firstUnused with
  | none =>
    obtain ⟨rfl, rfl⟩ := by simpa [step, hp, call, fork_none fuel hc] using h
    exact ⟨rfl, .inl rfl⟩
  | some c =>
    have hpc : p ≠ c := by
      rintro rfl
      have := firstUnused_unused hc
      simp [hrun p hp] at this
    rcases hm : s.phys.forkPages lay fuel (s.proc p) with _ | ⟨f, m⟩
    · simp [step, hp, call, fork_eq fuel hc hpc, hm] at h
    · obtain ⟨rfl, rfl⟩ := by simpa [step, hp, call, fork_eq fuel hc hpc, hm] using h
      exact ⟨rfl, .inr ⟨c, f, m, rfl, rfl, rfl⟩⟩

/-- A process that did not stop in `wait_process` just goes on. -/
theorem resume_elsewhere (hra : (s.proc p).context.ra ≠ .wait) : s.resume p =
    (none, { s.modProc p fun q => { q with state := .running } with cur := some p }) := by
  have hra' : ((s.modProc p fun r => { r with state := .running }).proc p).context.ra ≠ .wait := by
    simpa [modProc] using hra
  unfold resume
  cases hr : ((s.modProc p fun r => { r with state := .running }).proc p).context.ra with
  | wait => exact absurd hr hra'
  | _ => simp [hr]

/-- The other events are a `fork` that finds a slot, or leave every process in its slot. -/
theorem step_other {e : Event} {w : Option (Fin nproc × Waited)} (hscan : s.scan e = none)
    (hrun : s.Running) (h : s.step lay e = some (w, s')) :
    w = none ∧ (s.Kept s' ∧ s'.Running ∨ ∃ fuel p c f m, e = .call (.fork fuel) ∧ s.cur = some p ∧
      s.firstUnused = some c ∧ s.phys.forkPages lay fuel (s.proc p) = some (f, m) ∧
      s' = s.enter c (f.proc p (s.proc p) (s.proc c) s.nextpid) m) := by
  have hlive : ∀ p, s.cur = some p → (s.proc p).state.Live := fun p hp => by
    simp [ProcState.Live, hrun p hp]
  cases e with
  | call c =>
    obtain ⟨p, hp⟩ : ∃ p, s.cur = some p := by
      cases hcur : s.cur with
      | none => simp [step, hcur] at h
      | some p => exact ⟨p, rfl⟩
    cases c with
    | waitProcess => simp [scan, hp] at hscan
    | exitProcess status =>
      obtain ⟨rfl, rfl⟩ := by simpa [step, hp, call] using h
      exact ⟨rfl, .inl ⟨kept_exitProcess status (hlive p hp), fun _ hq => nomatch hq⟩⟩
    | kill pid =>
      obtain ⟨rfl, rfl⟩ := by simpa [step, hp, call] using h
      exact ⟨rfl, .inl ⟨kept_kill pid, hrun.kill pid⟩⟩
    | sbrk n fuel =>
      cases hr : s.sbrk fuel p n with
      | none => simp [step, hp, call, hr] at h
      | some r =>
        obtain ⟨rfl, rfl⟩ := by simpa [step, hp, call, hr] using h
        exact ⟨rfl, .inl ⟨kept_sbrk hr, hrun.sbrk hr⟩⟩
    | yield =>
      obtain ⟨rfl, rfl⟩ := by simpa [step, hp, call] using h
      exact ⟨rfl, .inl ⟨kept_yield (hlive p hp), fun _ hq => nomatch hq⟩⟩
    | fork fuel =>
      obtain ⟨hw, rfl | ⟨c, f, m, hc, hm, rfl⟩⟩ := step_fork hrun hp h
      · exact ⟨hw, .inl ⟨.refl _, hrun⟩⟩
      · exact ⟨hw, .inr ⟨fuel, p, c, f, m, rfl, hp, hc, hm, rfl⟩⟩
  | schedule p =>
    by_cases hsched : s.cur = none ∧ (s.proc p).state = .runnable
    · have hra : (s.proc p).context.ra ≠ .wait := by simpa [scan, hsched] using hscan
      obtain ⟨rfl, rfl⟩ := by simpa [step, hsched, resume_elsewhere hra] using h
      refine ⟨rfl, .inl ⟨kept_modProc (f := fun q => { q with state := .running })
        ⟨rfl, rfl, rfl, rfl, rfl, by simp [ProcState.Live, hsched.2]⟩, ?_⟩⟩
      intro q hq
      obtain rfl : p = q := by simpa using hq
      simp [Procs.modProc]
    · simp [step, hsched] at h
  | trap c =>
    obtain ⟨p, -, rfl, rfl⟩ := by simpa [step, Option.bind_eq_some_iff] using h
    exact ⟨rfl, .inl ⟨.refl s, hrun⟩⟩
  | write i j k c =>
    obtain ⟨p, -, pa, -, rfl, rfl⟩ := by simpa [step, Option.bind_eq_some_iff] using h
    exact ⟨rfl, .inl ⟨.refl s, hrun⟩⟩

theorem Running.enter {q : Proc} {m : Phys} (h : s.Running) (hi : (s.proc i).state = .unused) :
    (s.enter i q m).Running := by
  intro j hj
  have hj' := h j hj
  have hne : j ≠ i := by
    rintro rfl
    simp [hi] at hj'
  rwa [enter_of_ne _ _ hne]

theorem Running.step {e : Event} {w : Option (Fin nproc × Waited)} (hrun : s.Running)
    (h : s.step lay e = some (w, s')) : s'.Running := by
  cases hscan : s.scan e with
  | some p =>
    obtain ⟨s₁, ⟨rfl, -⟩ | ⟨rfl, -⟩, -, rfl⟩ := step_scan hscan h
    · exact hrun.waitProcess
    · exact running_woken.waitProcess
  | none =>
    obtain ⟨-, ⟨-, hrun'⟩ | ⟨fuel, p, c, f, m, -, hp, hc, -, rfl⟩⟩ := step_other hscan hrun h
    · exact hrun'
    · exact hrun.enter (firstUnused_unused hc)

/-! ## After boot -/

/-- The machine before `user_init`. -/
def blank (lay : Layout) : Procs :=
  { phys := (({} : Phys).pmmInit lay.kend).takePages lay.kernelPages }

theorem firstUnused_blank : (blank lay).firstUnused = some 0 := rfl

theorem boot_eq : boot lay = ((blank lay).phys.initPages lay).map fun r =>
    (blank lay).enter 0 (r.1.proc {} 1) r.2 :=
  userInit_eq firstUnused_blank

/-- After boot the scheduler runs, slot 0 has pid 1 and no parent, and the others were never
used. -/
theorem boot_spec (h : boot lay = some s) :
    s.cur = none ∧ (s.proc 0).pid = 1 ∧ (s.proc 0).parent = none ∧
      ∀ i, i ≠ 0 → s.proc i = {} := by
  rw [boot_eq] at h
  obtain ⟨⟨r, m⟩, -, rfl⟩ := Option.map_eq_some_iff.mp h
  refine ⟨rfl, ?_, ?_, fun i hi => enter_of_ne _ _ hi⟩
  · rw [enter_self]
    cases r with
    | starved b => cases b <;> rfl
    | _ => rfl
  · rw [enter_self]
    cases r with
    | starved b => cases b <;> rfl
    | _ => rfl

end Procs

/-- A machine with 60 free pages and a program of one page. -/
def smallLayout : Layout where
  kend := phystop - 60 * pgsize
  trampoline := 0x80201000
  initBin := [0x73]
  kernelPages := 0
  kend_pos := by decide
  kend_le := by decide
  trampoline_lt := by decide

end RiscvOs
