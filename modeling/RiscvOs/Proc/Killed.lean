import RiscvOs.Log.Sleepers
import RiscvOs.Proc.Kill
import RiscvOs.Proc.Recycle

/-!
# After `kill` has woken a process

`kill` makes a sleeping process `RUNNABLE` so that it can check its flag.  The flag is
checked in `usertrap` only, and a process sleeps inside a loop that first checks
something else:

* In `wait_process` it looks through its children again.  If one is a `ZOMBIE`, or none
  is left, the call returns and the process exits; otherwise it goes back to sleep.
* In `begin_op` it tests the log again.  It has slept with the lock of the log taken, so
  nothing can have changed, and it always goes back to sleep.

The machine is the one of `Proc/Trap.lean`, with the calls on files taken apart: between
two of their calls of `begin_op` another process may run.  `Kernel.hit` records beside it
which processes `kill` has found sleeping.
-/

namespace RiscvOs.Killed

open Procs Effect Bio

/-- What a process is doing when it is switched out, or while it runs. -/
inductive Place
  /-- In user mode, or in a system call that is not one on files. -/
  | user
  /-- In a call on files, running. -/
  | file
  /-- In `sleep(&log, &log.lock)` in the loop of `begin_op`, or woken there. -/
  | beginOp
  deriving DecidableEq

/-- The process table, and the log and the buffers. -/
structure Kernel where
  procs : Procs
  machine : Machine
  place : Fin nproc → Place
  /-- Not in the code: `kill` has found the process in this slot sleeping, and it has not exited
  since. -/
  hit : Fin nproc → Bool

/-- What happens. -/
inductive Event
  /-- A trap, or a switch of the scheduler. -/
  | user (e : Users.Event)
  /-- The running process, in a call on files, calls `begin_op`. -/
  | beginOp
  | logWrite (bp : BufRef)
  | endOp
  /-- It does anything else, to which the log is of no concern. -/
  | other (k : Machine)
  /-- The call on files returns. -/
  | returns (r : FileResult Unit)

namespace Kernel

variable {s s' : Kernel} {p j : Fin nproc}

/-- The process `p` goes to sleep in `begin_op`; `&log` is the address of no process. -/
def sleepLog (s : Procs) (p : Fin nproc) : Procs :=
  { s.modProc p fun q => { q with chan := none, state := .sleeping } with cur := none }

/-- `wakeup(&log)` -/
def wakeupLog (s : Kernel) : Procs :=
  { s.procs with
    proc := fun i =>
      let q := s.procs.proc i
      if q.state = .sleeping ∧ s.place i = .beginOp then { q with state := .runnable, chan := none }
      else q }

/-- A turn of the loop of `begin_op` in the process `p`, which is running; `test` is the code up to
the end of the turn.  The process goes on, or sleeps.  There is no step if it spins on the lock. -/
def tryBegin (s : Kernel) (test : Kern Bool) (p : Fin nproc) : Option Kernel :=
  match test.run Bio.machine s.machine with
  | .ok (true, k) => some { s with machine := k, place := Function.update s.place p .file }
  | .ok (false, k) => some { s with
      procs := sleepLog s.procs p, machine := k, place := Function.update s.place p .beginOp }
  | .error _ => none

/-- The trap of the process `p` is a call on files that `usertrap` lets through. -/
def CallsFile (s : Kernel) (p : Fin nproc) (t : UserTrap) : Prop :=
  t.cause = .ecall ∧ (s.procs.proc p).killed = false ∧ i32 (t.regs tfA7).toNat ∈ Users.fileCallNums

instance (s : Kernel) (p : Fin nproc) (t : UserTrap) : Decidable (s.CallsFile p t) :=
  inferInstanceAs (Decidable (_ ∧ _ ∧ _))

/-- The process `p` enters a call on files. -/
def enterFile (s : Kernel) (p : Fin nproc) (t : UserTrap) : Option Kernel := do
  let procs ← s.procs.writeUser p t.writes
  let procs := procs.saveRegs p t.regs
  return { s with
    procs := procs.setFrame p tfEpc (procs.frame p tfEpc + 4)
    place := Function.update s.place p .file }

/-- The process `p` returns from a call on files. -/
def returnFile (s : Kernel) (p : Fin nproc) (r : FileResult Unit) : Option Kernel := do
  let procs ← (s.procs.modProc p fun q => { q with ofile := r.ofile }).writeUser p r.writes
  return { s with procs := procs.ret p r.ret, place := Function.update s.place p .user }

/-- A trap or a switch that has nothing to do with the calls on files. -/
def users (lay : Layout) (s : Kernel) (e : Users.Event) : Option Kernel :=
  (Users.step lay Users.noFiles ⟨s.procs, ()⟩ e).map fun u => { s with procs := u.procs }

/-- What the running process does inside a call on files. -/
def inFile (s : Kernel) (p : Fin nproc) : Event → Option Kernel
  | .user _ => none
  | .beginOp => s.tryBegin (acquireLog >>= fun _ => beginOpTry) p
  | .logWrite bp =>
    match (logWrite bp).run Bio.machine s.machine with
    | .ok (_, k) => some { s with machine := k }
    | .error _ => none
  | .endOp =>
    match endOp.run Bio.machine s.machine with
    | .ok (_, k) => some { s with machine := k, procs := s.wakeupLog }
    | .error _ => none
  | .other k => some { s with machine := { k with mem := k.mem.setLog fun _ => s.machine.mem.log } }
  | .returns r => s.returnFile p r

/-- One event, in the code. -/
def act (lay : Layout) (s : Kernel) : Event → Option Kernel
  | .user (.trap t) => do
    let p ← s.procs.cur
    if s.place p = .user then
      if s.CallsFile p t then s.enterFile p t else s.users lay (.trap t)
    else none
  | .user (.schedule p) =>
    if s.place p = .beginOp then
      if s.procs.cur = none ∧ (s.procs.proc p).state = .runnable then
        { s with procs := s.procs.woken p }.tryBegin beginOpTry p
      else none
    else s.users lay (.schedule p)
  | e => do
    let p ← s.procs.cur
    if s.place p = .file then s.inFile p e else none

/-- The slot that `kill` finds in the event. -/
def kills (s : Kernel) : Event → Option (Fin nproc)
  | .user (.trap t) => s.procs.cur.bind fun p =>
    if t.cause = .ecall ∧ (s.procs.proc p).killed = false ∧ i32 (t.regs tfA7).toNat = 6 then
      s.procs.withPid (i32 (t.regs tfA0).toNat)
    else none
  | _ => none

/-- The record after an event that leads to `s'`. -/
def track (s : Kernel) (e : Event) (s' : Kernel) : Kernel :=
  { s' with
    hit := fun j =>
      (s.kills e = some j ∧ (s.procs.proc j).state = .sleeping) ∨
        (s.hit j = true ∧ (s'.procs.proc j).state ≠ .zombie) }

/-- One event. -/
def step (lay : Layout) (s : Kernel) (e : Event) : Option Kernel :=
  (s.act lay e).map (s.track e)

/-- The machine after boot; nobody has used the log yet. -/
def start (procs : Procs) (machine : Machine) : Kernel where
  procs := procs
  machine := machine
  place := fun _ => .user
  hit := fun _ => false

end Kernel

/-- A process that `kill` has found sleeping does not sleep again before it exits. -/
def StaysAwake (s : Kernel) : Prop := ∀ p, s.hit p = true → (s.procs.proc p).state ≠ .sleeping

/-- The process that the scheduler switches to. -/
def Event.switchesTo : Event → Option (Fin nproc)
  | .user (.schedule p) => some p
  | _ => none

/-- A process that `kill` has found sleeping gets out of its loop when the scheduler switches to
it: it was waiting for its children, and one of them has exited, or none is left. -/
def GetsOut (s : Kernel) (e : Event) : Prop :=
  ∀ p, e.switchesTo = some p → s.hit p = true → s.place p ≠ .beginOp ∧
    ((∃ i, (s.procs.proc i).parent = some p ∧ (s.procs.proc i).state = .zombie) ∨
      ∀ i, (s.procs.proc i).parent ≠ some p)

instance (s : Kernel) (e : Event) : Decidable (GetsOut s e) := by
  unfold GetsOut
  infer_instance

theorem Event.switchesTo_iff {e : Event} {p : Fin nproc} :
    e.switchesTo = some p ↔ e = .user (.schedule p) := by
  constructor
  · intro h
    cases e with
    | user e =>
        cases e with
        | trap t => cases h
        | schedule q => rw [Option.some.inj h]
    | _ => cases h
  · intro h
    rw [h]
    rfl

/-! ## Processes that are not running -/

/-- What happens to a slot while another process runs: a process that could run still can, at the
same place, and nobody is put to sleep. -/
structure Beside (q q' : Proc) : Prop where
  runnable : q.state = .runnable → q'.state = .runnable ∧ q'.context.ra = q.context.ra ∧
    (q.killed = true → q'.killed = true)
  sleeping : q.state = .sleeping → (q'.state = .sleeping ∨ q'.state = .runnable) ∧
    q'.context.ra = q.context.ra
  slept : q'.state = .sleeping → q.state = .sleeping

theorem Beside.rfl {q : Proc} : Beside q q :=
  ⟨fun h => ⟨h, Eq.refl _, id⟩, fun h => ⟨.inl h, Eq.refl _⟩, id⟩

theorem Beside.trans {q q' q'' : Proc} (h : Beside q q') (h' : Beside q' q'') : Beside q q'' where
  runnable hq := by
    obtain ⟨hstate, hra, hkilled⟩ := h.runnable hq
    obtain ⟨hstate', hra', hkilled'⟩ := h'.runnable hstate
    exact ⟨hstate', hra'.trans hra, fun hq => hkilled' (hkilled hq)⟩
  sleeping hq := by
    obtain ⟨hstate | hstate, hra⟩ := h.sleeping hq
    · obtain ⟨hstate', hra'⟩ := h'.sleeping hstate
      exact ⟨hstate', hra'.trans hra⟩
    · obtain ⟨hstate', hra', -⟩ := h'.runnable hstate
      exact ⟨.inr hstate', hra'.trans hra⟩
  slept hq := h.slept (h'.slept hq)

/-- A slot without a process that can run or be woken, into which no sleeping one comes. -/
theorem Beside.of_idle {q q' : Proc} (hrunnable : q.state ≠ .runnable)
    (hsleeping : q.state ≠ .sleeping) (hq' : q'.state ≠ .sleeping) : Beside q q' :=
  ⟨fun h => absurd h hrunnable, fun h => absurd h hsleeping, fun h => absurd h hq'⟩

/-- The process `p` runs, and what happens to the others happens beside it. -/
def Besides (s s' : Procs) (p : Fin nproc) : Prop :=
  ∀ j, j ≠ p → Beside (s.proc j) (s'.proc j)

/-- Where an event leaves the process that runs in it. -/
def Outcome (s : Procs) (p : Fin nproc) : Prop :=
  s.cur = some p ∧ (s.proc p).state = .running ∨
    s.cur = none ∧ ((s.proc p).state = .zombie ∨ (s.proc p).state = .runnable ∨
      (s.proc p).state = .sleeping ∧ (s.proc p).context.ra = .wait)

/-- The process `p` has had its turn. -/
structure Turn (s s' : Procs) (p : Fin nproc) : Prop where
  besides : Besides s s' p
  outcome : Outcome s' p

/-- The process `p` goes on. -/
structure GoesOn (s s' : Procs) (p : Fin nproc) : Prop where
  besides : Besides s s' p
  cur : s'.cur = some p
  running : (s'.proc p).state = .running
  killed : (s.proc p).killed = true → (s'.proc p).killed = true

variable {lay : Layout} {s s' s₁ : Procs} {p i j : Fin nproc}

theorem Besides.refl (s : Procs) (p : Fin nproc) : Besides s s p := fun _ _ => .rfl

theorem Besides.trans {s'' : Procs} (h : Besides s s' p) (h' : Besides s' s'' p) :
    Besides s s'' p :=
  fun j hj => (h j hj).trans (h' j hj)

theorem besides_modProc {f : Proc → Proc} : Besides s (s.modProc p f) p := by
  intro j hj
  rw [modProc, setProc_of_ne _ hj]
  exact .rfl

theorem GoesOn.refl (hcur : s.cur = some p) (hp : (s.proc p).state = .running) : GoesOn s s p :=
  ⟨.refl s p, hcur, hp, id⟩

/-- Only the memory differs. -/
theorem GoesOn.of_table (hcur : s.cur = some p) (hp : (s.proc p).state = .running)
    (hproc : s'.proc = s.proc) (hcur' : s'.cur = s.cur) : GoesOn s s' p := by
  refine ⟨fun j _ => ?_, hcur'.trans hcur, by rw [hproc, hp], by rw [hproc]; exact id⟩
  rw [hproc]
  exact .rfl

theorem GoesOn.turn (h : GoesOn s s' p) : Turn s s' p := ⟨h.besides, .inl ⟨h.cur, h.running⟩⟩

theorem GoesOn.trans_turn {s'' : Procs} (h : GoesOn s s' p) (h' : Turn s' s'' p) : Turn s s'' p :=
  ⟨h.besides.trans h'.besides, h'.outcome⟩

/-! ## The calls -/

/-- The exiting process is a zombie, whomever it wakes. -/
theorem exitProcess_zombie (status : ℤ) : ((s.exitProcess p status).proc p).state = .zombie := by
  cases hparent : (s.proc p).parent with
  | none => simp [exitProcess_orphan status hparent, modProc]
  | some parent => simp [exitProcess_child status hparent, wakeup, modProc]

theorem beside_wakeup (chan : Fin nproc) : Beside (s.proc j) ((s.wakeup chan).proc j) := by
  simp only [wakeup]
  split
  · next hsleep =>
    refine ⟨fun h => ?_, fun _ => ⟨.inr rfl, rfl⟩, fun h => ?_⟩
    · simp [hsleep.1] at h
    · simp at h
  · exact .rfl

theorem turn_exitProcess (status : ℤ) : Turn s (s.exitProcess p status) p := by
  have hbesides : Besides s (s.exitProcess p status) p := by
    intro j hj
    have hzombie := besides_modProc (s := s) (p := p)
      (f := fun q => { q with exitCode := status, state := .zombie }) j hj
    cases hparent : (s.proc p).parent with
    | none =>
        rw [exitProcess_orphan status hparent]
        exact hzombie
    | some parent =>
        rw [exitProcess_child status hparent]
        exact hzombie.trans (beside_wakeup parent)
  have hcur : (s.exitProcess p status).cur = none := rfl
  exact ⟨hbesides, .inr ⟨hcur, .inl (exitProcess_zombie status)⟩⟩

theorem besides_swtch (ra : Resume) : Besides s (s.swtch p ra) p :=
  fun j hj => besides_modProc (f := fun q => { q with context := { q.context with ra } }) j hj

theorem turn_yield : Turn s (s.yield p) p := by
  have hbesides : Besides s (s.yield p) p :=
    (besides_modProc (f := fun q => { q with state := .runnable })).trans (besides_swtch .yield)
  refine ⟨hbesides, .inr ⟨rfl, .inr (.inl ?_)⟩⟩
  simp [yield, swtch, modProc]

/-- A process that has no zombie to collect sleeps in `wait_process`. -/
theorem turn_sleep : Turn s (s.sleep p p) p := by
  have hbesides : Besides s (s.sleep p p) p :=
    (besides_modProc (f := fun q => { q with chan := some p, state := .sleeping })).trans
      (besides_swtch .wait)
  refine ⟨hbesides, .inr ⟨rfl, .inr (.inr ?_)⟩⟩
  simp [Procs.sleep, swtch, modProc]

theorem turn_finish (hcur : s.cur = some p) (hp : (s.proc p).state = .running) :
    Turn s (s.finish p) p := by
  unfold finish
  split
  · exact turn_exitProcess (-1)
  · exact (GoesOn.refl hcur hp).turn

theorem GoesOn.ret (h : GoesOn s s' p) (r : ℤ) : Turn s (s'.ret p r) p := by
  have hframe : GoesOn s' (s'.setFrame p tfA0 (BitVec.ofInt 64 r)) p :=
    .of_table h.cur h.running rfl rfl
  exact h.trans_turn (hframe.trans_turn (turn_finish hframe.cur hframe.running))

/-- A process that is marked exits when its call returns. -/
theorem ret_zombie (r : ℤ) (hkilled : (s.proc p).killed = true) :
    ((s.ret p r).proc p).state = .zombie := by
  have hkilled' : ((s.setFrame p tfA0 (BitVec.ofInt 64 r)).proc p).killed = true := hkilled
  unfold ret finish
  rw [if_pos hkilled']
  exact exitProcess_zombie (-1)

/-- A zombie is reaped beside the running process. -/
theorem goesOn_reap (hcur : s.cur = some p) (hp : (s.proc p).state = .running)
    (hi : (s.proc i).state = .zombie) : GoesOn s (s.reap i) p := by
  have hpi : p ≠ i := by
    intro hpi
    simp [← hpi, hp] at hi
  refine ⟨?_, hcur, by rwa [reap_of_ne hpi], by rw [reap_of_ne hpi]; exact id⟩
  intro j _
  by_cases hji : j = i
  · rw [hji, reap_self]
    exact .of_idle (by simp [hi]) (by simp [hi]) (by simp)
  · rw [reap_of_ne hji]
    exact .rfl

theorem storeStatus_table {w : Waited} (h : s.storeStatus p w = some s') :
    s'.proc = s.proc ∧ s'.cur = s.cur := by
  have hphys : s' = s ∨ ∃ m, s' = s.setPhys m := by
    unfold storeStatus at h
    dsimp only at h
    split at h
    · split at h
      · exact .inl (Option.some.inj h).symm
      · split at h
        · split at h
          · exact .inr ⟨_, (Option.some.inj h).symm⟩
          · cases h
        · exact .inl (Option.some.inj h).symm
    · exact .inl (Option.some.inj h).symm
  obtain rfl | ⟨m, rfl⟩ := hphys
  · exact ⟨rfl, rfl⟩
  · exact ⟨rfl, rfl⟩

theorem zombieChild_isSome : s.zombieChild p ≠ none ↔
    ∃ i, (s.proc i).parent = some p ∧ (s.proc i).state = .zombie := by
  constructor
  · intro hsome
    obtain ⟨i, hi⟩ := Option.ne_none_iff_exists'.mp hsome
    exact ⟨i, zombieChild_spec hi⟩
  · intro hchild hnone
    obtain ⟨i, hi, hzombie⟩ := hchild
    exact zombieChild_none hnone hi hzombie

/-- A turn of the loop of `wait_process`: the process sleeps because it has children and none of
them is a zombie, or it goes on to the end of its call. -/
theorem waitTurn_cases (hcur : s.cur = some p) (hp : (s.proc p).state = .running)
    (h : s.waitTurn p = some s') :
    s.zombieChild p = none ∧ (∃ i, (s.proc i).parent = some p) ∧ s' = s.sleep p p ∨
    (s.zombieChild p ≠ none ∨ ∀ i, (s.proc i).parent ≠ some p) ∧
      ∃ s₁ r, GoesOn s s₁ p ∧ s' = s₁.ret p r := by
  -- the way from a return of `wait_process` to the end of the call
  have hreturns : ∀ w s₁, s.waitProcess p = (some w, s₁) → GoesOn s s₁ p →
      ∃ s₂ r, GoesOn s s₂ p ∧ s' = s₂.ret p r := by
    intro w s₁ hw hgoes
    rw [waitTurn, hw] at h
    obtain ⟨s₂, hs₂, rfl⟩ := Option.map_eq_some_iff.mp h
    obtain ⟨hproc, hcur₂⟩ := storeStatus_table hs₂
    refine ⟨s₂, w.pid, ⟨?_, hcur₂.trans hgoes.cur, by rw [hproc, hgoes.running], ?_⟩, rfl⟩
    · intro j hj
      rw [hproc]
      exact hgoes.besides j hj
    · rw [hproc]
      exact hgoes.killed
  obtain ⟨i, hi, hw⟩ | ⟨hnone, hchild, hw⟩ | ⟨hchildless, hw⟩ := waitProcess_cases s p
  · refine .inr ⟨.inl (by simp [hi]), ?_⟩
    exact hreturns _ _ hw (goesOn_reap hcur hp (zombieChild_spec hi).2)
  · rw [waitTurn, hw] at h
    exact .inl ⟨hnone, hchild, (Option.some.inj h).symm⟩
  · exact .inr ⟨.inr hchildless, hreturns _ _ hw (.refl hcur hp)⟩

theorem turn_waitTurn (hcur : s.cur = some p) (hp : (s.proc p).state = .running)
    (h : s.waitTurn p = some s') : Turn s s' p := by
  obtain ⟨-, -, rfl⟩ | ⟨-, s₁, r, hgoes, rfl⟩ := waitTurn_cases hcur hp h
  · exact turn_sleep
  · exact hgoes.ret r

theorem goesOn_kill (hcur : s.cur = some p) (hp : (s.proc p).state = .running) (pid : ℤ) :
    GoesOn s (s.kill pid).2 p := by
  cases hfind : s.withPid pid with
  | none =>
      rw [kill_not_found hfind]
      exact .refl hcur hp
  | some i =>
      rw [kill_found hfind]
      refine ⟨?_, hcur, ?_, ?_⟩
      · intro j _
        by_cases hji : j = i
        · rw [hji, modProc, setProc_self]
          refine ⟨fun h => ⟨by simp [killSlot, h], rfl, fun _ => rfl⟩,
            fun h => ⟨.inr (by simp [killSlot, h]), rfl⟩, fun h => ?_⟩
          by_contra hsleep
          simp [killSlot, hsleep] at h
        · rw [modProc, setProc_of_ne _ hji]
          exact .rfl
      · by_cases hpi : p = i
        · simp [hpi ▸ hp, modProc, hpi, killSlot]
        · rwa [modProc, setProc_of_ne _ hpi]
      · by_cases hpi : p = i
        · simp [modProc, hpi, killSlot]
        · rw [modProc, setProc_of_ne _ hpi]
          exact id

theorem goesOn_modProc {f : Proc → Proc} (hcur : s.cur = some p)
    (hp : (f (s.proc p)).state = .running) (hkilled : (f (s.proc p)).killed = (s.proc p).killed) :
    GoesOn s (s.modProc p f) p := by
  refine ⟨besides_modProc, hcur, ?_, ?_⟩
  · rwa [modProc, setProc_self]
  · rw [modProc, setProc_self, hkilled]
    exact id

theorem goesOn_sbrk {fuel : ℕ} {n : ℤ} {r : Word} (hcur : s.cur = some p)
    (hp : (s.proc p).state = .running) (h : s.sbrk fuel p n = some (r, s')) : GoesOn s s' p := by
  obtain ⟨ok, m, -, ⟨-, -, rfl⟩ | ⟨-, -, rfl⟩⟩ := sbrk_cases h
  · exact .of_table hcur hp rfl rfl
  · have hset : GoesOn (s.setPhys m) ((s.setPhys m).modProc p fun q =>
        { q with sz := (s.proc p).sz + BitVec.ofInt 64 n }) p := goesOn_modProc hcur hp rfl
    exact ⟨hset.besides, hset.cur, hset.running, hset.killed⟩

/-- `fork` fills a slot that nobody was in, and its child is not asleep. -/
theorem goesOn_fork {fuel : ℕ} {r : ℤ} (hcur : s.cur = some p) (hp : (s.proc p).state = .running)
    (h : s.fork lay fuel p = some (r, s')) : GoesOn s s' p := by
  cases hc : s.firstUnused with
  | none =>
      rw [fork_none fuel hc] at h
      obtain ⟨-, rfl⟩ := Prod.mk.inj (Option.some.inj h)
      exact .refl hcur hp
  | some c =>
      have hunused := firstUnused_unused hc
      have hpc : p ≠ c := by
        intro hpc
        simp [← hpc, hp] at hunused
      rw [fork_eq fuel hc hpc] at h
      obtain ⟨⟨f, m⟩, -, hpair⟩ := Option.map_eq_some_iff.mp h
      obtain ⟨-, rfl⟩ := Prod.mk.inj hpair
      refine ⟨?_, hcur, by rwa [enter_of_ne _ _ hpc], by rw [enter_of_ne _ _ hpc]; exact id⟩
      intro j _
      by_cases hjc : j = c
      · rw [hjc, enter_self]
        refine .of_idle (by simp [hunused]) (by simp [hunused]) ?_
        cases f with
        | starved b => cases b <;> simp [Forked.proc, Built.proc]
        | _ => simp [Forked.proc]
      · rw [enter_of_ne _ _ hjc]
        exact .rfl

/-! ## Traps -/

variable {t : UserTrap} {u : Users Unit}

theorem GoesOn.trans {s'' : Procs} (h : GoesOn s s' p) (h' : GoesOn s' s'' p) : GoesOn s s'' p :=
  ⟨h.besides.trans h'.besides, h'.cur, h'.running, fun hk => h'.killed (h.killed hk)⟩

/-- A system call that is not one on files. -/
theorem turn_syscall (hcur : s.cur = some p) (hp : (s.proc p).state = .running)
    (h : Users.syscall lay Users.noFiles ⟨s, ()⟩ p t = some u) : Turn s u.procs p := by
  have hself : GoesOn s s p := .refl hcur hp
  unfold Users.syscall at h
  dsimp only at h
  split at h
  · obtain ⟨⟨r, s₁⟩, hfork, rfl⟩ := Option.map_eq_some_iff.mp h
    exact (goesOn_fork hcur hp hfork).ret r
  split at h
  · obtain rfl := Option.some.inj h
    exact turn_exitProcess _
  split at h
  · obtain ⟨s₁, hwait, rfl⟩ := Option.map_eq_some_iff.mp h
    exact turn_waitTurn hcur hp hwait
  split at h
  · obtain rfl := Option.some.inj h
    exact (goesOn_kill hcur hp _).ret _
  split at h
  · obtain rfl := Option.some.inj h
    exact hself.ret _
  split at h
  · obtain ⟨⟨r, s₁⟩, hsbrk, rfl⟩ := Option.map_eq_some_iff.mp h
    exact (goesOn_sbrk hcur hp hsbrk).ret _
  split at h
  · obtain rfl := Option.some.inj h
    exact hself.ret _
  split at h
  · simp [Users.fileCall, Users.noFiles] at h
  · obtain rfl := Option.some.inj h
    exact hself.ret _

theorem turn_usertrap (hcur : s.cur = some p) (hp : (s.proc p).state = .running)
    (h : Users.usertrap lay Users.noFiles ⟨s, ()⟩ p t = some u) : Turn s u.procs p := by
  unfold Users.usertrap at h
  cases hcause : t.cause with
  | ecall =>
      simp only [hcause] at h
      split at h
      · obtain rfl := Option.some.inj h
        exact turn_exitProcess (-1)
      · have hframe : GoesOn s (s.setFrame p tfEpc (s.frame p tfEpc + 4)) p :=
          .of_table hcur hp rfl rfl
        exact hframe.trans_turn (turn_syscall hframe.cur hframe.running h)
  | timer =>
      simp only [hcause] at h
      obtain rfl := Option.some.inj h
      exact turn_yield
  | fault =>
      simp only [hcause] at h
      obtain rfl := Option.some.inj h
      have hmark : Turn (s.modProc p fun q => { q with killed := true })
          ((s.modProc p fun q => { q with killed := true }).finish p) p :=
        turn_finish hcur (by simp [modProc, hp])
      exact ⟨besides_modProc.trans hmark.besides, hmark.outcome⟩

/-- Before `usertrap` runs, the process may have written to its memory, and `uservec` has saved its
registers. -/
theorem goesOn_saveRegs {writes : List UserWrite} (regs : Page) (hcur : s.cur = some p)
    (hp : (s.proc p).state = .running) (h : s.writeUser p writes = some s₁) :
    GoesOn s (s₁.saveRegs p regs) p := by
  obtain ⟨hproc, hcur₁⟩ := writeUser_table h
  exact .of_table hcur hp hproc hcur₁

theorem turn_trap (hcur : s.cur = some p) (hp : (s.proc p).state = .running)
    (h : Users.step lay Users.noFiles ⟨s, ()⟩ (.trap t) = some u) : Turn s u.procs p := by
  simp only [Users.step, hcur, Option.bind_eq_bind, Option.bind_some] at h
  obtain ⟨s₁, hwrite, h⟩ := Option.bind_eq_some_iff.mp h
  have hsaved := goesOn_saveRegs t.regs hcur hp hwrite
  exact hsaved.trans_turn (turn_usertrap hsaved.cur hsaved.running h)

/-- The process that `kill` finds sleeping is marked and can run. -/
theorem kill_wakes (hcur : s.cur = some p) (hp : (s.proc p).state = .running)
    (hkilled : (s.proc p).killed = false) (hcause : t.cause = .ecall)
    (hnum : i32 (t.regs tfA7).toNat = 6) (hj : s.withPid (i32 (t.regs tfA0).toNat) = some j)
    (hsleep : (s.proc j).state = .sleeping)
    (h : Users.step lay Users.noFiles ⟨s, ()⟩ (.trap t) = some u) :
    (u.procs.proc j).state = .runnable ∧ (u.procs.proc j).killed = true := by
  have hjp : j ≠ p := by
    intro hjp
    simp [hjp, hp] at hsleep
  simp only [Users.step, hcur, Option.bind_eq_bind, Option.bind_some] at h
  obtain ⟨s₁, hwrite, h⟩ := Option.bind_eq_some_iff.mp h
  obtain ⟨hproc, hcur₁⟩ := writeUser_table hwrite
  -- the machine on which `syscall` runs
  have hsys : ∃ s₂, s₂.proc = s.proc ∧ s₂.cur = s.cur ∧ s₂.frame p tfA7 = t.regs tfA7 ∧
      s₂.frame p tfA0 = t.regs tfA0 ∧
      Users.syscall lay Users.noFiles ⟨s₂, ()⟩ p t = some u := by
    have hk : ((s₁.saveRegs p t.regs).proc p).killed = false := by
      show (s₁.proc p).killed = false
      rw [hproc, hkilled]
    have ha7 : tfA7 ≠ tfEpc ∧ SavedReg tfA7 := by decide
    have ha0 : tfA0 ≠ tfEpc ∧ SavedReg tfA0 := by decide
    rw [Users.usertrap_ecall hcause hk] at h
    refine ⟨(s₁.saveRegs p t.regs).setFrame p tfEpc ((s₁.saveRegs p t.regs).frame p tfEpc + 4),
      hproc, hcur₁, ?_, ?_, h⟩
    · exact (frame_setFrame_of_ne _ ha7.1).trans (frame_saveRegs _ ha7.2)
    · exact (frame_setFrame_of_ne _ ha0.1).trans (frame_saveRegs _ ha0.2)
  obtain ⟨s₂, hproc₂, hcur₂, ha7, ha0, hcall⟩ := hsys
  have hp₂ : (s₂.proc p).state = .running := by rw [hproc₂, hp]
  have hfind : s₂.withPid (i32 (t.regs tfA0).toNat) = some j := by
    rw [← hj, withPid, withPid, hproc₂]
  have hslot : ((s₂.kill (i32 (t.regs tfA0).toNat)).2.proc j).state = .runnable ∧
      ((s₂.kill (i32 (t.regs tfA0).toNat)).2.proc j).killed = true := by
    rw [kill_found hfind, modProc, setProc_self, hproc₂]
    simp [killSlot, hsleep]
  have hu : u.procs = (s₂.kill (i32 (t.regs tfA0).toNat)).2.ret p
      (s₂.kill (i32 (t.regs tfA0).toNat)).1 := by
    unfold Users.syscall at hcall
    simp [ha7, ha0, hnum] at hcall
    rw [← hcall]
  have hkill := goesOn_kill (hcur₂.trans hcur) hp₂ (i32 (t.regs tfA0).toNat)
  have hret := (GoesOn.refl hkill.cur hkill.running).ret (s₂.kill (i32 (t.regs tfA0).toNat)).1
  rw [← hu] at hret
  obtain ⟨hstate, -, hmarked⟩ := (hret.besides j hjp).runnable hslot.1
  exact ⟨hstate, hmarked hslot.2⟩

/-! ## The scheduler -/

theorem switchTo_self : (s.switchTo p).proc p = { s.proc p with state := .running } := by
  simp [switchTo, modProc]

theorem goesOn_switchTo : Besides s (s.switchTo p) p ∧ (s.switchTo p).cur = some p ∧
    ((s.switchTo p).proc p).state = .running := by
  refine ⟨fun j hj => ?_, rfl, by rw [switchTo_self]⟩
  exact besides_modProc (f := fun q => { q with state := .running }) j hj

theorem besides_woken : Besides s (s.woken p) p := by
  intro j hj
  rw [woken_of_ne hj]
  exact .rfl

/-- The process that is switched to has its turn. -/
theorem turn_dispatch (h : s.dispatch p = some s') : Turn s s' p := by
  rw [dispatch_eq] at h
  obtain ⟨hbesides, hcur, hrunning⟩ := goesOn_switchTo (s := s) (p := p)
  split at h
  · obtain rfl := Option.some.inj h
    exact ⟨hbesides, .inl ⟨hcur, hrunning⟩⟩
  · obtain rfl := Option.some.inj h
    have hfinish := turn_finish hcur hrunning
    exact ⟨hbesides.trans hfinish.besides, hfinish.outcome⟩
  · have hwait := turn_waitTurn (s := s.woken p) rfl (by rw [woken_self]) h
    exact ⟨besides_woken.trans hwait.besides, hwait.outcome⟩

/-- A marked process that is switched to in `wait_process` exits, or finds that it has children
none of which has exited, and sleeps. -/
theorem dispatch_wait (hrun : (s.proc p).state = .runnable) (hra : (s.proc p).context.ra = .wait)
    (hkilled : (s.proc p).killed = true) (h : s.dispatch p = some s') :
    (s'.proc p).state = .sleeping ∧ s.zombieChild p = none ∧ (∃ i, (s.proc i).parent = some p) ∨
    (s'.proc p).state = .zombie ∧
      (s.zombieChild p ≠ none ∨ ∀ i, (s.proc i).parent ≠ some p) := by
  have hparent : ∀ i, ((s.woken p).proc i).parent = (s.proc i).parent :=
    fun i => (kept_woken hrun i).parent
  rw [dispatch_eq, hra] at h
  obtain ⟨hnone, ⟨i, hi⟩, rfl⟩ | ⟨hout, s₁, r, hgoes, rfl⟩ :=
    waitTurn_cases (s := s.woken p) rfl (by rw [woken_self]) h
  · refine .inl ⟨by simp [Procs.sleep, swtch, modProc], ?_, i, by rwa [← hparent i]⟩
    rwa [← zombieChild_woken hrun]
  · have hmarked : (s₁.proc p).killed = true := hgoes.killed (by rwa [woken_self])
    refine .inr ⟨ret_zombie r hmarked, ?_⟩
    rw [zombieChild_woken hrun] at hout
    simpa only [hparent] using hout

/-! ## What an event does -/

namespace Kernel

/-- The log, as long as a process sleeps on it. -/
def log (s : Kernel) : Log := s.machine.mem.log

/-- What holds in every run. -/
structure Placed (s : Kernel) : Prop where
  running : s.procs.Running
  file : ∀ p, s.place p = .file → s.procs.cur = some p
  /-- Who sleeps on the log, or has been woken there, would not be admitted now. -/
  beginOp : ∀ p, s.place p = .beginOp →
    ((s.procs.proc p).state = .sleeping ∨ (s.procs.proc p).state = .runnable) ∧
      s.log.lock = true ∧ ¬ s.log.admits
  sleeping : ∀ p, (s.procs.proc p).state = .sleeping →
    s.place p = .beginOp ∨ (s.procs.proc p).context.ra = .wait

/-- The process `p` has its turn in the event `e`. -/
structure Acts (s : Kernel) (e : Event) (s' : Kernel) (p : Fin nproc) : Prop where
  starts : s.procs.cur = some p ∨
    e = .user (.schedule p) ∧ s.procs.cur = none ∧ (s.procs.proc p).state = .runnable
  besides : Besides s.procs s'.procs p
  places : ∀ j, j ≠ p → s'.place j = s.place j
  /-- It ends somewhere else than in `begin_op`, or sleeps there with the lock. -/
  ends : s.place p ≠ .beginOp ∧ s'.place p ≠ .beginOp ∧ Outcome s'.procs p ∧
      (s'.place p = .file → s'.procs.cur = some p) ∧
      ((∃ j, s.place j = .beginOp) → s'.log = s.log) ∨
    s'.place p = .beginOp ∧ s'.procs.cur = none ∧ (s'.procs.proc p).state = .sleeping ∧
      s'.log.lock = true ∧ ¬ s'.log.admits

variable {s s' : Kernel} {e : Event} {p j : Fin nproc}

theorem Placed.not_beginOp (h : Placed s) (hfree : s.log.lock = false) (j : Fin nproc) :
    s.place j ≠ .beginOp := by
  intro hj
  simp [(h.beginOp j hj).2.1] at hfree

theorem sleepLog_turn (s : Procs) (p : Fin nproc) :
    Besides s (sleepLog s p) p ∧ ((sleepLog s p).proc p).state = .sleeping := by
  refine ⟨fun j hj => ?_, by simp [sleepLog, modProc]⟩
  exact besides_modProc (f := fun q => { q with chan := none, state := .sleeping }) j hj

/-- A first test in `begin_op`. -/
theorem Acts.first (h : Placed s) (hcur : s.procs.cur = some p) (hplace : s.place p = .file)
    (hact : s.tryBegin (acquireLog >>= fun _ => beginOpTry) p = some s') : Acts s e s' p := by
  unfold tryBegin at hact
  split at hact
  · next k hrun =>
    obtain rfl := Option.some.inj hact
    have hfree := h.not_beginOp (Reservation.acquireLog_free hrun)
    refine ⟨.inl hcur, .refl _ p, fun j hj => Function.update_of_ne hj .., .inl ?_⟩
    refine ⟨by simp [hplace], by simp, .inl ⟨hcur, h.running p hcur⟩, fun _ => hcur, ?_⟩
    intro hj
    obtain ⟨j, hj⟩ := hj
    exact absurd hj (hfree j)
  · next k hrun =>
    obtain rfl := Option.some.inj hact
    obtain ⟨hnot, hmem⟩ := (Prog.ok_of_wp (OnMem.beginOpFirst_mem fun _ => False) hrun).2 rfl
    obtain ⟨hbesides, hsleep⟩ := sleepLog_turn s.procs p
    refine ⟨.inl hcur, hbesides, fun j hj => Function.update_of_ne hj .., .inr ?_⟩
    refine ⟨by simp, rfl, hsleep, ?_, ?_⟩
    · show k.mem.log.lock = true
      rw [hmem]
      rfl
    · show ¬ k.mem.log.admits
      rw [hmem]
      exact hnot
  · cases hact

/-- A later test in `begin_op` has the same answer as the one before. -/
theorem Acts.again (h : Placed s) (hcur : s.procs.cur = none)
    (hrun : (s.procs.proc p).state = .runnable) (hplace : s.place p = .beginOp)
    (hact : { s with procs := s.procs.woken p }.tryBegin beginOpTry p = some s') :
    Acts s (.user (.schedule p)) s' p := by
  obtain ⟨-, hlock, hnot⟩ := h.beginOp p hplace
  unfold tryBegin at hact
  split at hact
  · next k hk =>
    have hadmits := (Prog.ok_of_wp (OnMem.beginOpTry_mem fun _ => False) hk).1 rfl
    exact absurd hadmits.1 hnot
  · next k hk =>
    obtain rfl := Option.some.inj hact
    have hmem := ((Prog.ok_of_wp (OnMem.beginOpTry_mem fun _ => False) hk).2 rfl).2
    obtain ⟨hbesides, hsleep⟩ := sleepLog_turn (s.procs.woken p) p
    refine ⟨.inr ⟨rfl, hcur, hrun⟩, besides_woken.trans hbesides,
      fun j hj => Function.update_of_ne hj .., .inr ?_⟩
    refine ⟨by simp, rfl, hsleep, ?_, ?_⟩
    · show k.mem.log.lock = true
      rw [hmem]
      exact hlock
    · show ¬ k.mem.log.admits
      rw [hmem]
      exact hnot
  · cases hact

/-- The process works on the log, for which it needs the lock, and goes on. -/
theorem Acts.onLog (h : Placed s) (hcur : s.procs.cur = some p) (hplace : s.place p = .file)
    (hfree : s.log.lock = false) {procs : Procs} {k : Machine} (hproc : procs = s.procs) :
    Acts s e { s with procs, machine := k } p := by
  subst hproc
  refine ⟨.inl hcur, .refl _ p, fun _ _ => rfl, .inl ?_⟩
  refine ⟨by simp [hplace], by simp [hplace], .inl ⟨hcur, h.running p hcur⟩, fun _ => hcur, ?_⟩
  intro hj
  obtain ⟨j, hj⟩ := hj
  exact absurd hj (h.not_beginOp hfree j)

theorem wakeupLog_eq (hnone : ∀ j, s.place j ≠ .beginOp) : s.wakeupLog = s.procs := by
  unfold wakeupLog
  simp [hnone]

/-- The event is the turn of a process that ends in a place that is not the loop of `begin_op`. -/
theorem Acts.of_turn {procs : Procs} {x : Place} (hstarts : s.procs.cur = some p ∨
      e = .user (.schedule p) ∧ s.procs.cur = none ∧ (s.procs.proc p).state = .runnable)
    (hturn : Turn s.procs procs p) (hplace : s.place p ≠ .beginOp) (hx : x ≠ .beginOp)
    (hfile : x = .file → procs.cur = some p) :
    Acts s e { s with procs, place := Function.update s.place p x } p := by
  refine ⟨hstarts, hturn.besides, fun j hj => Function.update_of_ne hj .., .inl ?_⟩
  refine ⟨hplace, by simpa using hx, hturn.outcome, ?_, fun _ => rfl⟩
  intro hpx
  exact hfile (by simpa using hpx)

theorem users_schedule (h : s.users lay (.schedule p) = some s') :
    s.procs.cur = none ∧ (s.procs.proc p).state = .runnable ∧ s.procs.dispatch p = some s'.procs ∧
      s' = { s with procs := s'.procs } := by
  obtain ⟨u, hu, rfl⟩ := Option.map_eq_some_iff.mp h
  simp only [Users.step] at hu
  split at hu
  · next hsched =>
    obtain ⟨procs, hdispatch, rfl⟩ := Option.map_eq_some_iff.mp hu
    exact ⟨hsched.1, hsched.2, hdispatch, rfl⟩
  · cases hu

theorem users_trap {t : UserTrap} (hcur : s.procs.cur = some p)
    (hp : (s.procs.proc p).state = .running) (h : s.users lay (.trap t) = some s') :
    Turn s.procs s'.procs p ∧ s' = { s with procs := s'.procs } := by
  obtain ⟨u, hu, rfl⟩ := Option.map_eq_some_iff.mp h
  exact ⟨turn_trap hcur hp hu, rfl⟩

/-- Every event is the turn of one process. -/
theorem act_cases (h : Placed s) (hact : s.act lay e = some s') : ∃ p, Acts s e s' p := by
  -- what a process does in a call on files
  have hfile : ∀ e p, s.procs.cur = some p → s.place p = .file → s.inFile p e = some s' →
      Acts s e s' p := by
    intro e p hcur hplace hact
    cases e with
    | user e => cases hact
    | beginOp => exact .first h hcur hplace hact
    | logWrite bp =>
        simp only [inFile] at hact
        split at hact
        · next k hrun =>
          obtain rfl := Option.some.inj hact
          exact .onLog h hcur hplace (Reservation.acquireLog_free hrun) rfl
        · cases hact
    | endOp =>
        simp only [inFile] at hact
        split at hact
        · next k hrun =>
          obtain rfl := Option.some.inj hact
          rw [endOp, endOpEnter, Prog.bind_assoc] at hrun
          have hfree := Reservation.acquireLog_free hrun
          exact .onLog h hcur hplace hfree (wakeupLog_eq (h.not_beginOp hfree))
        · cases hact
    | other k =>
        obtain rfl := Option.some.inj hact
        refine ⟨.inl hcur, .refl _ p, fun _ _ => rfl, .inl ?_⟩
        exact ⟨by simp [hplace], by simp [hplace], .inl ⟨hcur, h.running p hcur⟩, fun _ => hcur,
          fun _ => rfl⟩
    | returns r =>
        obtain ⟨procs, hwrite, hact⟩ := Option.bind_eq_some_iff.mp hact
        obtain rfl := Option.some.inj hact
        have hfiles : GoesOn s.procs (s.procs.modProc p fun q => { q with ofile := r.ofile }) p :=
          goesOn_modProc hcur (h.running p hcur) rfl
        obtain ⟨hproc, hcur'⟩ := writeUser_table hwrite
        have hgoes := hfiles.trans (.of_table hfiles.cur hfiles.running hproc hcur')
        exact .of_turn (.inl hcur) (hgoes.ret r.ret) (by simp [hplace]) (by simp) (by simp)
  cases e with
  | user e =>
      cases e with
      | trap t =>
          obtain ⟨p, hcur, hact⟩ := Option.bind_eq_some_iff.mp hact
          split at hact
          · next hplace =>
            refine ⟨p, ?_⟩
            split at hact
            · obtain ⟨procs, hwrite, hact⟩ := Option.bind_eq_some_iff.mp hact
              obtain rfl := Option.some.inj hact
              have hsaved := goesOn_saveRegs t.regs hcur (h.running p hcur) hwrite
              have hepc : GoesOn (procs.saveRegs p t.regs) ((procs.saveRegs p t.regs).setFrame p tfEpc
                  ((procs.saveRegs p t.regs).frame p tfEpc + 4)) p :=
                .of_table hsaved.cur hsaved.running rfl rfl
              have hgoes := hsaved.trans hepc
              exact .of_turn (.inl hcur) hgoes.turn (by simp [hplace]) (by simp) fun _ => hgoes.cur
            · obtain ⟨hturn, hs'⟩ := users_trap hcur (h.running p hcur) hact
              rw [hs']
              have hacts := Acts.of_turn (e := .user (.trap t)) (x := .user) (.inl hcur) hturn
                (by simp [hplace]) (by simp) (by simp)
              rwa [← hplace, Function.update_eq_self] at hacts
          · cases hact
      | schedule p =>
          refine ⟨p, ?_⟩
          simp only [act] at hact
          split at hact
          · next hplace =>
            split at hact
            · next hsched => exact .again h hsched.1 hsched.2 hplace hact
            · cases hact
          · next hplace =>
            obtain ⟨hcur, hrun, hdispatch, hs'⟩ := users_schedule hact
            have huser : s.place p = .user := by
              cases hp : s.place p with
              | user => rfl
              | file => simp [h.file p hp] at hcur
              | beginOp => exact absurd hp hplace
            have hturn := turn_dispatch hdispatch
            rw [hs']
            have hacts := Acts.of_turn (e := .user (.schedule p)) (x := .user)
              (.inr ⟨rfl, hcur, hrun⟩) hturn hplace (by simp) (by simp)
            rwa [← huser, Function.update_eq_self] at hacts
  | _ =>
      obtain ⟨p, hcur, hact⟩ := Option.bind_eq_some_iff.mp hact
      split at hact
      · next hplace => exact ⟨p, hfile _ p hcur hplace hact⟩
      · cases hact

/-- Who has its turn is in no call on files but its own. -/
theorem Placed.file_ne (h : Placed s) (hacts : Acts s e s' p) (hj : j ≠ p) : s.place j ≠ .file := by
  intro hfile
  have hcur := h.file j hfile
  obtain hp | ⟨-, hp, -⟩ := hacts.starts
  · exact hj (Option.some.inj (hcur.symm.trans hp))
  · simp [hp] at hcur

theorem Placed.of_acts (h : Placed s) (hacts : Acts s e s' p) : Placed s' := by
  refine ⟨?_, ?_, ?_, ?_⟩
  · intro q hq
    obtain ⟨-, -, houtcome | houtcome, -, -⟩ | ⟨-, hcur, -⟩ := hacts.ends
    · obtain rfl := Option.some.inj (houtcome.1.symm.trans hq)
      exact houtcome.2
    · simp [houtcome.1] at hq
    · simp [hcur] at hq
  · intro q hq
    by_cases hqp : q = p
    · subst hqp
      obtain ⟨-, -, -, hfile, -⟩ | ⟨hplace, -⟩ := hacts.ends
      · exact hfile hq
      · simp [hplace] at hq
    · rw [hacts.places q hqp] at hq
      exact absurd hq (h.file_ne hacts hqp)
  · intro q hq
    by_cases hqp : q = p
    · subst hqp
      obtain ⟨-, hplace, -⟩ | ⟨-, -, hsleep, hlog⟩ := hacts.ends
      · exact absurd hq hplace
      · exact ⟨.inl hsleep, hlog⟩
    · rw [hacts.places q hqp] at hq
      obtain ⟨hstate, hlog⟩ := h.beginOp q hq
      have hbeside := hacts.besides q hqp
      constructor
      · obtain hsleep | hrun := hstate
        · exact (hbeside.sleeping hsleep).1
        · exact .inr (hbeside.runnable hrun).1
      · obtain ⟨-, -, -, -, hsame⟩ | ⟨-, -, -, hlog'⟩ := hacts.ends
        · rwa [hsame ⟨q, hq⟩]
        · exact hlog'
  · intro q hq
    by_cases hqp : q = p
    · subst hqp
      obtain ⟨-, -, houtcome | ⟨-, hstate⟩, -, -⟩ | ⟨hplace, -⟩ := hacts.ends
      · simp [houtcome.2] at hq
      · obtain hstate | hstate | hstate := hstate
        · simp [hstate] at hq
        · simp [hstate] at hq
        · exact .inr hstate.2
      · exact .inl hplace
    · have hbeside := hacts.besides q hqp
      have hslept := hbeside.slept hq
      rw [hacts.places q hqp, (hbeside.sleeping hslept).2]
      exact h.sleeping q hslept

theorem Placed.act (h : Placed s) (hact : s.act lay e = some s') : Placed s' := by
  obtain ⟨p, hacts⟩ := act_cases h hact
  exact h.of_acts hacts

theorem Placed.start {procs : Procs} {machine : Machine} (h : boot lay = some procs) :
    Placed (.start procs machine) := by
  obtain ⟨hcur, -, -, hfree⟩ := boot_spec h
  have hplace : ∀ p, (Kernel.start procs machine).place p = .user := fun _ => rfl
  refine ⟨?_, ?_, ?_, ?_⟩
  · intro p hp
    simp [Kernel.start, hcur] at hp
  · intro p hp
    simp [hplace] at hp
  · intro p hp
    simp [hplace] at hp
  · intro p hp
    have hp' : (procs.proc p).state = .sleeping := hp
    by_cases hp0 : p = 0
    · subst hp0
      obtain hstate | hstate := boot_state h <;> simp [hstate] at hp'
    · simp [hfree p hp0] at hp'

/-! ## The processes that were hit -/

/-- As long as every process that was hit gets out of its loop: it can run, is marked, and has
stopped in the loop in which it slept. -/
def Hits (s : Kernel) : Prop :=
  ∀ p, s.hit p = true → (s.procs.proc p).state = .runnable ∧ (s.procs.proc p).killed = true ∧
    (s.place p = .beginOp ∨ (s.procs.proc p).context.ra = .wait)

/-- What `kill` does to the sleeping process it finds. -/
theorem kills_hits (h : Placed s) (hact : s.act lay e = some s') (hj : s.kills e = some j)
    (hsleep : (s.procs.proc j).state = .sleeping) :
    (s'.procs.proc j).state = .runnable ∧ (s'.procs.proc j).killed = true := by
  cases e with
  | user e =>
      cases e with
      | trap t =>
          obtain ⟨p, hcur, hact⟩ := Option.bind_eq_some_iff.mp hact
          simp only [kills, hcur, Option.bind_some] at hj
          split at hj
          · next hcall =>
            have hfile : ¬ s.CallsFile p t := by
              intro hfile
              have hnum := hfile.2.2
              rw [hcall.2.2] at hnum
              revert hnum
              decide
            rw [if_neg hfile] at hact
            split at hact
            · obtain ⟨u, hu, rfl⟩ := Option.map_eq_some_iff.mp hact
              exact kill_wakes hcur (h.running p hcur) hcall.2.1 hcall.1 hcall.2.2 hj hsleep hu
            · cases hact
          · cases hj
      | schedule p => cases hj
  | _ => cases hj

/-- A process is hit after the event if `kill` has found it sleeping, or if it was hit before and
has not exited. -/
theorem track_hit : (s.track e s').hit j = true ↔
    (s.kills e = some j ∧ (s.procs.proc j).state = .sleeping) ∨
      (s.hit j = true ∧ (s'.procs.proc j).state ≠ .zombie) := by
  simp [track]

/-- All but a process that was hit and has its turn now stay as they are, or are hit now. -/
theorem Hits.others (hhits : Hits s) (h : Placed s) (hact : s.act lay e = some s')
    (hj : (s.track e s').hit j = true) (hturn : e = .user (.schedule j) → s.hit j = false) :
    (s'.procs.proc j).state = .runnable ∧ (s'.procs.proc j).killed = true ∧
      (s'.place j = .beginOp ∨ (s'.procs.proc j).context.ra = .wait) := by
  obtain ⟨p, hacts⟩ := act_cases h hact
  obtain ⟨hkills, hsleep⟩ | ⟨hhit, -⟩ := track_hit.mp hj
  · have hjp : j ≠ p := by
      intro hjp
      subst hjp
      obtain hcur | ⟨-, -, hrun⟩ := hacts.starts
      · simp [h.running j hcur] at hsleep
      · simp [hrun] at hsleep
    obtain ⟨hstate, hkilled⟩ := kills_hits h hact hkills hsleep
    rw [hacts.places j hjp, ((hacts.besides j hjp).sleeping hsleep).2]
    exact ⟨hstate, hkilled, h.sleeping j hsleep⟩
  · obtain ⟨hstate, hkilled, hwhere⟩ := hhits j hhit
    have hjp : j ≠ p := by
      intro hjp
      subst hjp
      obtain hcur | ⟨he, -, -⟩ := hacts.starts
      · simp [h.running j hcur] at hstate
      · simp [hturn he] at hhit
    obtain ⟨hstate', hra, hkilled'⟩ := (hacts.besides j hjp).runnable hstate
    rw [hacts.places j hjp, hra]
    exact ⟨hstate', hkilled' hkilled, hwhere⟩

/-- A process that was hit has its turn: it exits if it gets out of its loop, and sleeps again
otherwise. -/
theorem Hits.turn (hhits : Hits s) (h : Placed s) (hp : s.hit p = true)
    (hact : s.act lay (.user (.schedule p)) = some s') :
    GetsOut s (.user (.schedule p)) ∧ (s'.procs.proc p).state = .zombie ∨
      ¬ GetsOut s (.user (.schedule p)) ∧ (s'.procs.proc p).state = .sleeping := by
  obtain ⟨hstate, hkilled, hwhere⟩ := hhits p hp
  by_cases hplace : s.place p = .beginOp
  · refine .inr ⟨fun hout => (hout p rfl hp).1 hplace, ?_⟩
    obtain ⟨q, hacts⟩ := act_cases h hact
    have hpq : p = q := by
      obtain hcur | ⟨he, -, -⟩ := hacts.starts
      · simp only [act, if_pos hplace] at hact
        split at hact
        · next hsched => simp [hsched.1] at hcur
        · cases hact
      · simpa using he
    subst hpq
    obtain ⟨hnot, -⟩ | ⟨-, -, hsleep, -⟩ := hacts.ends
    · exact absurd hplace hnot
    · exact hsleep
  · have hra := hwhere.resolve_left hplace
    simp only [act, if_neg hplace] at hact
    obtain ⟨-, hrun, hdispatch, -⟩ := users_schedule hact
    have hout : GetsOut s (.user (.schedule p)) ↔
        s.procs.zombieChild p ≠ none ∨ ∀ i, (s.procs.proc i).parent ≠ some p := by
      rw [zombieChild_isSome]
      constructor
      · intro hout
        exact (hout p rfl hp).2
      · intro hout q hq _
        obtain rfl : p = q := Option.some.inj hq
        exact ⟨hplace, hout⟩
    rw [hout]
    obtain ⟨hsleep, hnone, hchild⟩ | ⟨hzombie, hout'⟩ := dispatch_wait hrun hra hkilled hdispatch
    · refine .inr ⟨?_, hsleep⟩
      rintro (hsome | hchildless)
      · exact hsome hnone
      · obtain ⟨i, hi⟩ := hchild
        exact hchildless i hi
    · exact .inl ⟨hout', hzombie⟩

/-- In a state in which every process that was hit has got out of its loop so far, an event leaves
nobody asleep if and only if the process that has its turn in it gets out, if it was hit. -/
theorem Hits.step (hhits : Hits s) (h : Placed s) (hstep : s.step lay e = some s') :
    (StaysAwake s' ↔ GetsOut s e) ∧ (GetsOut s e → Hits s') := by
  obtain ⟨s₁, hact, rfl⟩ := Option.map_eq_some_iff.mp hstep
  by_cases hturn : ∃ p, e = .user (.schedule p) ∧ s.hit p = true
  · obtain ⟨p, rfl, hp⟩ := hturn
    obtain ⟨hout, hzombie⟩ | ⟨hout, hsleep⟩ := hhits.turn h hp hact
    · have hothers : Hits (s.track (.user (.schedule p)) s₁) := by
        intro j hj
        have hquiet : Event.user (.schedule p) = .user (.schedule j) → s.hit j = false := by
          intro he
          obtain rfl : p = j := by simpa using he
          obtain ⟨hkills, -⟩ | ⟨-, hnot⟩ := track_hit.mp hj
          · cases hkills
          · exact absurd hzombie hnot
        exact (Hits.others hhits h hact hj hquiet :)
      refine ⟨iff_of_true ?_ hout, fun _ => hothers⟩
      intro j hj
      rw [(hothers j hj).1]
      decide
    · refine ⟨iff_of_false ?_ hout, fun hout' => absurd hout' hout⟩
      intro hawake
      have hhit : (s.track (.user (.schedule p)) s₁).hit p = true :=
        track_hit.mpr (.inr ⟨hp, by rw [hsleep]; decide⟩)
      exact hawake p hhit hsleep
  · have hnone : ∀ j, e = .user (.schedule j) → s.hit j = false := by
      intro j he
      by_contra hj
      exact hturn ⟨j, he, by simpa using hj⟩
    have hothers : Hits (s.track e s₁) := fun j hj =>
      (Hits.others hhits h hact hj (hnone j) :)
    have hout : GetsOut s e := by
      intro p he hp
      simp [hnone p (Event.switchesTo_iff.mp he)] at hp
    refine ⟨iff_of_true ?_ hout, fun _ => hothers⟩
    intro j hj
    rw [(hothers j hj).1]
    decide

end Kernel

open Kernel

/-- The timer interrupts the running process. -/
def timer : Event :=
  .user (.trap { regs := fun _ => 0, writes := [], cause := .timer, fuel := 3, time := 0 })

end RiscvOs.Killed
