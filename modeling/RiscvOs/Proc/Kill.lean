import RiscvOs.Proc.Pages

/-!
# Whom `kill` hits

`kill` takes the first slot with the pid and does not look at its state, so it also
finds slots that hold no process.  Which pids do these have?

* A slot that was never used and a slot that was reaped have pid 0.
* A `fork` that cannot copy a page of its parent gives its slot back with the pid it
  has just assigned.

`kill_right` is exact on both sides.  In any state the call is right if and only if it
does not hit a free slot, up to a case in which it changes nothing at all.  In the
runs in which no `fork` gives up in its copy loop, every pid but 0 is safe, and 0 is
not as long as a slot is free.
-/

namespace RiscvOs

open Procs

/-- What `kill` is for: a process with the pid is marked, and woken if it sleeps; when there is
none, nothing happens. -/
def KillRight (s : Procs) (pid : ℤ) : Prop :=
  ((∃ i, (s.proc i).state ≠ .unused ∧ (s.proc i).pid = pid) →
    ∃ i, (s.proc i).state ≠ .unused ∧ (s.proc i).pid = pid ∧
      s.kill pid = (0, s.setProc i { s.proc i with
        killed := true
        state := if (s.proc i).state = .sleeping then .runnable else (s.proc i).state })) ∧
  ((∀ i, (s.proc i).state ≠ .unused → (s.proc i).pid ≠ pid) → s.kill pid = (-1, s))

/-- The first slot with the pid. -/
def Procs.withPid (s : Procs) (pid : ℤ) : Option (Fin nproc) :=
  (List.finRange nproc).find? fun i => (s.proc i).pid = pid

/-- The slot that `kill` finds is free, if it finds one. -/
def HitsFree (s : Procs) (pid : ℤ) : Prop :=
  ∃ i, s.withPid pid = some i ∧ (s.proc i).state = .unused

/-- The call leaves the machine as it is, and there is a process of which this is right: the slot
it finds is marked, and so is a process with the pid that does not sleep. -/
def HitsNothing (s : Procs) (pid : ℤ) : Prop :=
  ∃ i j, s.withPid pid = some i ∧ (s.proc i).state = .unused ∧ (s.proc i).killed = true ∧
    (s.proc j).state ≠ .unused ∧ (s.proc j).pid = pid ∧ (s.proc j).killed = true ∧
      (s.proc j).state ≠ .sleeping

/-- The event is a `fork` that finds a slot and cannot copy a page of the parent. -/
def GivesUp (lay : Layout) (s : Procs) (e : Procs.Event) : Prop :=
  ∃ fuel p c kstack pagetable trapframe m, e = .call (.fork fuel) ∧ s.cur = some p ∧
    s.firstUnused = some c ∧
      s.phys.forkPages lay fuel (s.proc p) = some (.uncopied kstack pagetable trapframe, m)

/-- The event is no `fork` that gives up in its copy loop, and none that assigns a pid after
`nextpid` has overflowed. -/
def ForksFit (lay : Layout) (s : Procs) (e : Procs.Event) : Prop :=
  (∀ fuel, e = .call (.fork fuel) → 0 < s.nextpid) ∧ ¬ GivesUp lay s e

variable {lay : Layout} {s s' : Procs} {i j p : Fin nproc} {pid : ℤ}

namespace Procs

theorem withPid_spec (h : s.withPid pid = some i) : (s.proc i).pid = pid := by
  simpa using List.find?_some h

theorem withPid_none (h : s.withPid pid = none) (i : Fin nproc) : (s.proc i).pid ≠ pid := by
  have := List.find?_eq_none.mp h i (List.mem_finRange i)
  simpa using this

end Procs

/-! ## One call -/

/-- The call is wrong exactly when it hits a free slot and this is not for nothing. -/
theorem killRight_iff (s : Procs) (pid : ℤ) :
    KillRight s pid ↔ ¬ HitsFree s pid ∨ HitsNothing s pid := by
  cases hfind : s.withPid pid with
  | none =>
      have hnone := withPid_none hfind
      have hright : KillRight s pid := by
        refine ⟨?_, fun _ => kill_not_found hfind⟩
        intro hlive
        obtain ⟨i, -, hi⟩ := hlive
        exact absurd hi (hnone i)
      have hfree : ¬ HitsFree s pid := by
        intro hfree
        obtain ⟨i, hi, -⟩ := hfree
        simp [hfind] at hi
      exact iff_of_true hright (.inl hfree)
  | some i =>
      have hpid := withPid_spec hfind
      have hkill : s.kill pid = (0, s.modProc i killSlot) := kill_found hfind
      by_cases hi : (s.proc i).state = .unused
      · have hfree : HitsFree s pid := ⟨i, hfind, hi⟩
        simp only [hfree, not_true_eq_false, false_or]
        constructor
        · intro hright
          by_cases hlive : ∃ j, (s.proc j).state ≠ .unused ∧ (s.proc j).pid = pid
          · -- the slot that was changed and the one that should have been are different
            obtain ⟨j, hj, hjpid, hr⟩ := hright.1 hlive
            have hij : i ≠ j := by
              intro hij
              exact hj (hij ▸ hi)
            have hproc : (s.modProc i killSlot).proc = _ :=
              congrArg (fun r => r.2.proc) (hkill.symm.trans hr)
            have hati : killSlot (s.proc i) = s.proc i := by
              have := congrFun hproc i
              rwa [modProc, setProc_self, setProc_of_ne _ hij] at this
            have hatj : s.proc j = { s.proc j with
                killed := true
                state := if (s.proc j).state = .sleeping then .runnable else (s.proc j).state } := by
              have := congrFun hproc j
              rwa [modProc, setProc_of_ne _ hij.symm, setProc_self] at this
            refine ⟨i, j, hfind, hi, ?_, hj, hjpid, ?_, ?_⟩
            · exact (congrArg Proc.killed hati).symm
            · exact congrArg Proc.killed hatj
            · intro hsleep
              have hstate := congrArg Proc.state hatj
              simp [hsleep] at hstate
          · have hnone := hright.2 fun j hj hjpid => hlive ⟨j, hj, hjpid⟩
            have hret : (0 : ℤ) = -1 := congrArg Prod.fst (hkill.symm.trans hnone)
            exact absurd hret (by decide)
        · intro hnothing
          obtain ⟨i', j, hfind', -, hkilled, hj, hjpid, hjkilled, hjsleep⟩ := hnothing
          obtain rfl : i = i' := Option.some.inj (hfind.symm.trans hfind')
          have hself : killSlot (s.proc i) = s.proc i := by
            rw [killSlot, if_neg (by simp [hi]), ← hkilled]
          refine ⟨fun _ => ⟨j, hj, hjpid, ?_⟩, fun hlive => absurd hjpid (hlive j hj)⟩
          rw [hkill, modProc, hself, if_neg hjsleep, ← hjkilled]
          simp [setProc]
      · have hfree : ¬ HitsFree s pid := by
          intro hfree
          obtain ⟨i', hfind', hi'⟩ := hfree
          obtain rfl : i = i' := Option.some.inj (hfind.symm.trans hfind')
          exact hi hi'
        refine iff_of_true ⟨fun _ => ⟨i, hi, hpid, hkill⟩, ?_⟩ (.inl hfree)
        intro hlive
        exact absurd hpid (hlive i hi)

/-! ## Runs -/

namespace Procs

/-- No pid is assigned, every slot keeps its pid, and the free slots are the same. -/
structure SamePids (s s' : Procs) : Prop where
  nextpid : s'.nextpid = s.nextpid
  pid : ∀ i, (s'.proc i).pid = (s.proc i).pid
  free : ∀ i, (s'.proc i).state = .unused ↔ (s.proc i).state = .unused

theorem SamePids.refl (s : Procs) : s.SamePids s := ⟨rfl, fun _ => rfl, fun _ => Iff.rfl⟩

/-- Memory does not matter. -/
theorem samePids_setPhys (m : Phys) : s.SamePids (s.setPhys m) :=
  ⟨rfl, fun _ => rfl, fun _ => Iff.rfl⟩

theorem SamePids.trans {s'' : Procs} (h : s.SamePids s') (h' : s'.SamePids s'') :
    s.SamePids s'' where
  nextpid := h'.nextpid.trans h.nextpid
  pid i := (h'.pid i).trans (h.pid i)
  free i := (h'.free i).trans (h.free i)

/-- Which process runs does not matter. -/
theorem SamePids.off (h : s.SamePids s') {cur : Option (Fin nproc)} :
    s.SamePids { s' with cur } :=
  ⟨h.nextpid, h.pid, h.free⟩

theorem samePids_modProc {f : Proc → Proc} (hpid : (f (s.proc i)).pid = (s.proc i).pid)
    (hstate : (f (s.proc i)).state = .unused ↔ (s.proc i).state = .unused) :
    s.SamePids (s.modProc i f) := by
  refine ⟨rfl, ?_, ?_⟩
  · intro j
    by_cases hj : j = i
    · rw [hj, modProc, setProc_self, hpid]
    · rw [modProc, setProc_of_ne _ hj]
  · intro j
    by_cases hj : j = i
    · rw [hj, modProc, setProc_self, hstate]
    · rw [modProc, setProc_of_ne _ hj]

theorem samePids_wakeup (chan : Fin nproc) : s.SamePids (s.wakeup chan) := by
  refine ⟨rfl, ?_, ?_⟩
  · intro i
    simp only [wakeup]
    split <;> rfl
  · intro i
    simp only [wakeup]
    split
    · next hsleep => simp [hsleep.1]
    · rfl

/-- The state of a process that holds a slot is set, and the process may then switch away. -/
theorem samePids_state {f : Proc → Proc} (hp : (s.proc p).state ≠ .unused)
    (hpid : (f (s.proc p)).pid = (s.proc p).pid) (hstate : (f (s.proc p)).state ≠ .unused) :
    s.SamePids (s.modProc p f) :=
  samePids_modProc hpid (iff_of_false hstate hp)

theorem samePids_swtch (ra : Resume) : s.SamePids (s.swtch p ra) := by
  have hcontext : s.SamePids (s.modProc p fun q => { q with context := { q.context with ra } }) :=
    samePids_modProc rfl Iff.rfl
  exact hcontext.off

theorem samePids_sleep (hp : (s.proc p).state ≠ .unused) : s.SamePids (s.sleep p p) := by
  have hsleep : s.SamePids (s.modProc p fun q => { q with chan := some p, state := .sleeping }) :=
    samePids_state hp rfl (by simp)
  exact hsleep.trans (samePids_swtch .wait)

theorem samePids_exitProcess (status : ℤ) (hp : (s.proc p).state ≠ .unused) :
    s.SamePids (s.exitProcess p status) := by
  have hzombie : s.SamePids (s.modProc p fun q => { q with exitCode := status, state := .zombie }) :=
    samePids_state hp rfl (by simp)
  cases hparent : (s.proc p).parent with
  | none =>
      rw [exitProcess_orphan status hparent]
      exact hzombie.off
  | some parent =>
      rw [exitProcess_child status hparent]
      exact (hzombie.trans (samePids_wakeup parent)).off

theorem samePids_kill (pid : ℤ) : s.SamePids (s.kill pid).2 := by
  unfold kill
  split
  · apply samePids_modProc
    · rfl
    · simp only [killSlot]
      split
      · next hsleep => simp [hsleep]
      · rfl
  · exact .refl s

theorem samePids_sbrk {fuel : ℕ} {n : ℤ} {r : Word} (h : s.sbrk fuel p n = some (r, s')) :
    s.SamePids s' := by
  obtain ⟨ok, m, -, ⟨-, -, rfl⟩ | ⟨-, -, rfl⟩⟩ := sbrk_cases h
  · exact samePids_setPhys m
  · exact (samePids_setPhys m).trans (samePids_modProc
      (f := fun q => { q with sz := (s.proc p).sz + BitVec.ofInt 64 n }) rfl Iff.rfl)

theorem samePids_running (h : (s.proc p).state = .runnable) :
    s.SamePids { s.modProc p fun q => { q with state := .running } with cur := some p } := by
  have hstate : s.SamePids (s.modProc p fun q => { q with state := .running }) :=
    samePids_state (by simp [h]) rfl (by simp)
  exact hstate.off

/-- The events that are neither a turn of `wait_process` nor a `fork`. -/
theorem samePids_step {e : Procs.Event} {w : Option (Fin nproc × Waited)} (hrun : s.Running)
    (hscan : s.scan e = none) (hfork : ∀ fuel, e ≠ .call (.fork fuel))
    (h : s.step lay e = some (w, s')) : s.SamePids s' := by
  cases e with
  | call c =>
      obtain ⟨p, hp⟩ : ∃ p, s.cur = some p := by
        cases hcur : s.cur with
        | none => simp [step, hcur] at h
        | some p => exact ⟨p, rfl⟩
      have hstate : (s.proc p).state ≠ .unused := by simp [hrun p hp]
      cases c with
      | fork fuel => exact absurd rfl (hfork fuel)
      | waitProcess => simp [scan, hp] at hscan
      | exitProcess status =>
          obtain ⟨-, rfl⟩ := by simpa [step, hp, call] using h
          exact samePids_exitProcess status hstate
      | kill pid =>
          obtain ⟨-, rfl⟩ := by simpa [step, hp, call] using h
          exact samePids_kill pid
      | sbrk n fuel =>
          cases hr : s.sbrk fuel p n with
          | none => simp [step, hp, call, hr] at h
          | some r =>
              obtain ⟨-, rfl⟩ := by simpa [step, hp, call, hr] using h
              exact samePids_sbrk hr
      | yield =>
          obtain ⟨-, rfl⟩ := by simpa [step, hp, call] using h
          exact (samePids_state (f := fun q => { q with state := .runnable }) hstate rfl
            (by simp)).trans (samePids_swtch .yield)
  | schedule p =>
      by_cases hsched : s.cur = none ∧ (s.proc p).state = .runnable
      · have hra : (s.proc p).context.ra ≠ .wait := by simpa [scan, hsched] using hscan
        obtain ⟨-, rfl⟩ := by simpa [step, hsched, resume_elsewhere hra] using h
        exact samePids_running hsched.2
      · simp [step, hsched] at h
  | trap c =>
      obtain ⟨p, -, -, rfl⟩ := by simpa [step, Option.bind_eq_some_iff] using h
      exact samePids_setPhys _
  | write i j k c =>
      obtain ⟨p, -, pa, -, -, rfl⟩ := by simpa [step, Option.bind_eq_some_iff] using h
      exact samePids_setPhys _

/-- `user_init` keeps its slot, also when it runs out of memory. -/
theorem boot_state (h : boot lay = some s) :
    (s.proc 0).state = .used ∨ (s.proc 0).state = .runnable := by
  rw [boot_eq] at h
  obtain ⟨⟨r, m⟩, -, rfl⟩ := Option.map_eq_some_iff.mp h
  rw [enter_self]
  cases r with
  | starved b => cases b <;> exact .inl rfl
  | unloaded => exact .inl rfl
  | done => exact .inr rfl

theorem boot_nextpid (h : boot lay = some s) : s.nextpid = 2 := by
  rw [boot_eq] at h
  obtain ⟨r, -, rfl⟩ := Option.map_eq_some_iff.mp h
  show i32 (1 + 1) = 2
  rw [i32_eq_self] <;> decide

/-- A turn of `wait_process` starts with the same pids. -/
theorem samePids_start {s₁ : Procs}
    (h : s₁ = s ∧ s.cur = some p ∨ s₁ = s.woken p ∧ (s.proc p).state = .runnable) :
    s.SamePids s₁ := by
  obtain ⟨rfl, -⟩ | ⟨rfl, hp⟩ := h
  · exact .refl _
  · exact (samePids_running hp).trans
      (samePids_modProc (f := fun q => { q with chan := none }) rfl Iff.rfl)

end Procs

/-- The pids as long as every `fork` fits: the free slots have pid 0, the others a positive one
below the next. -/
structure PidsRight (s : Procs) : Prop where
  running : s.Running
  free : ∀ i, (s.proc i).state = .unused → (s.proc i).pid = 0
  taken : ∀ i, (s.proc i).state ≠ .unused → 0 < (s.proc i).pid
  below : 0 < s.nextpid → ∀ i, (s.proc i).pid < s.nextpid
  fits : s.nextpid < 2 ^ 31

/-- The next pid unless `nextpid` overflows. -/
theorem i32_succ {z : ℤ} (hpos : 0 < z) (hz : z < 2 ^ 31) (h : 0 < i32 (z + 1)) :
    i32 (z + 1) = z + 1 := by
  by_cases hlast : z = 2 ^ 31 - 1
  · subst hlast
    have hwrap : i32 (2 ^ 31 - 1 + 1) = -2 ^ 31 := by
      unfold i32
      decide
    omega
  · exact i32_eq_self (by omega) (by omega)

namespace PidsRight

theorem samePids (h : PidsRight s) (hsame : s.SamePids s') (hrun : s'.Running) :
    PidsRight s' where
  running := hrun
  free i hi := (hsame.pid i).trans (h.free i ((hsame.free i).mp hi))
  taken i hi := (hsame.pid i) ▸ h.taken i fun hs => hi ((hsame.free i).mpr hs)
  below hnext i := by
    rw [hsame.nextpid] at hnext ⊢
    rw [hsame.pid i]
    exact h.below hnext i
  fits := hsame.nextpid ▸ h.fits

theorem boot (h : boot lay = some s) : PidsRight s := by
  obtain ⟨hcur, hpid, -, hfree⟩ := boot_spec h
  refine ⟨?_, ?_, ?_, ?_, ?_⟩
  · intro p hp
    simp [hcur] at hp
  · intro i hi
    by_cases hi0 : i = 0
    · subst hi0
      obtain hstate | hstate := boot_state h <;> simp [hstate] at hi
    · rw [hfree i hi0]
  · intro i hi
    by_cases hi0 : i = 0
    · rw [hi0, hpid]
      decide
    · simp [hfree i hi0] at hi
  · intro _ i
    rw [boot_nextpid h]
    by_cases hi0 : i = 0
    · rw [hi0, hpid]
      decide
    · rw [hfree i hi0]
      decide
  · rw [boot_nextpid h]
    decide

/-- A zombie is reaped. -/
theorem reap (h : PidsRight s) (hi : (s.proc i).state = .zombie) : PidsRight (s.reap i) := by
  refine ⟨?_, ?_, ?_, ?_, ?_⟩
  · intro p hp
    have hp' := h.running p hp
    have hpi : p ≠ i := by
      intro hpi
      simp [hpi, hi] at hp'
    rwa [reap_of_ne hpi]
  · intro j hj
    by_cases hji : j = i
    · rw [hji, reap_self]
    · rw [reap_of_ne hji] at hj ⊢
      exact h.free j hj
  · intro j hj
    by_cases hji : j = i
    · simp [hji, reap_self] at hj
    · rw [reap_of_ne hji] at hj ⊢
      exact h.taken j hj
  · intro hnext j
    by_cases hji : j = i
    · rwa [hji, reap_self]
    · rw [reap_of_ne hji]
      exact h.below hnext j
  · exact h.fits

/-- A slot is filled with a process that has the next pid. -/
theorem enter {q : Proc} {m : Phys} (h : PidsRight s) (hc : (s.proc i).state = .unused)
    (hq : q.state ≠ .unused) (hpid : q.pid = s.nextpid) (hnext : 0 < s.nextpid) :
    PidsRight (s.enter i q m) := by
  refine ⟨h.running.enter hc, ?_, ?_, ?_, ?_⟩
  · intro j hj
    by_cases hji : j = i
    · simp [hji, enter_self, hq] at hj
    · rw [enter_of_ne _ _ hji] at hj ⊢
      exact h.free j hj
  · intro j hj
    by_cases hji : j = i
    · rwa [hji, enter_self, hpid]
    · rw [enter_of_ne _ _ hji] at hj ⊢
      exact h.taken j hj
  · intro hnext' j
    have hpid_le : ((s.enter i q m).proc j).pid ≤ s.nextpid := by
      by_cases hji : j = i
      · rw [hji, enter_self, hpid]
      · rw [enter_of_ne _ _ hji]
        exact (h.below hnext j).le
    have hwrap : 0 < i32 (s.nextpid + 1) := hnext'
    calc ((s.enter i q m).proc j).pid ≤ s.nextpid := hpid_le
      _ < s.nextpid + 1 := Int.lt_succ _
      _ = i32 (s.nextpid + 1) := (i32_succ hnext h.fits hwrap).symm
  · exact i32_lt _

end PidsRight

/-- A slot that `fork` fills keeps its pid unless a page of the parent could not be copied. -/
theorem Forked.taken (p : Fin nproc) (parent q : Proc) (pid : ℤ) (f : Forked)
    (hfit : ∀ kstack pagetable trapframe, f ≠ .uncopied kstack pagetable trapframe) :
    (f.proc p parent q pid).state ≠ .unused ∧ (f.proc p parent q pid).pid = pid := by
  cases f with
  | starved b => cases b <;> exact ⟨by simp [Forked.proc, Built.proc], rfl⟩
  | uncopied kstack pagetable trapframe => exact absurd rfl (hfit kstack pagetable trapframe)
  | done kstack pagetable trapframe => exact ⟨by simp [Forked.proc], rfl⟩

namespace PidsRight

theorem step {e : Procs.Event} (h : PidsRight s) (hok : ForksFit lay s e)
    (hstep : (machine lay).step s e s') : PidsRight s' := by
  obtain ⟨w, hstep⟩ := hstep
  have hrun := h.running.step hstep
  cases hscan : s.scan e with
  | some p =>
      obtain ⟨s₁, hstart, -, rfl⟩ := step_scan hscan hstep
      obtain ⟨-, hrun₁, hp⟩ := kept_start h.running hstart
      have h₁ := h.samePids (samePids_start hstart) hrun₁
      obtain ⟨c, hc, hw⟩ | ⟨-, -, hw⟩ | ⟨-, hw⟩ := waitProcess_cases s₁ p
      · rw [hw]
        exact h₁.reap (zombieChild_spec hc).2
      · rw [hw] at hrun ⊢
        exact h₁.samePids (samePids_sleep (by simp [hp])) hrun
      · rw [hw]
        exact h₁
  | none =>
      by_cases hfork : ∃ fuel, e = .call (.fork fuel)
      · obtain ⟨fuel, rfl⟩ := hfork
        obtain ⟨p, hp⟩ : ∃ p, s.cur = some p := by
          cases hcur : s.cur with
          | none => simp [Procs.step, hcur] at hstep
          | some p => exact ⟨p, rfl⟩
        obtain ⟨-, rfl | ⟨c, f, m, hc, hm, rfl⟩⟩ := step_fork h.running hp hstep
        · exact h
        · have hfit : ∀ kstack pagetable trapframe, f ≠ .uncopied kstack pagetable trapframe := by
            intro kstack pagetable trapframe hf
            exact hok.2 ⟨fuel, p, c, kstack, pagetable, trapframe, m, rfl, hp, hc, hf ▸ hm⟩
          obtain ⟨hstate, hpid⟩ := Forked.taken p (s.proc p) (s.proc c) s.nextpid f hfit
          exact h.enter (firstUnused_unused hc) hstate hpid (hok.1 fuel rfl)
      · have hsame := samePids_step h.running hscan (fun fuel he => hfork ⟨fuel, he⟩) hstep
        exact h.samePids hsame hrun

end PidsRight

theorem pidsRight_of_reachable (h : ((machine lay).restrict (ForksFit lay)).Reachable s) :
    PidsRight s := by
  apply h.invariant
  · intro s hs
    exact PidsRight.boot hs
  · intro s e s' hs hstep
    exact hs.step hstep.1 hstep.2

/-- As long as every `fork` fits, only a call with pid 0 can be wrong. -/
theorem PidsRight.right_iff (h : PidsRight s) (pid : ℤ) :
    KillRight s pid ↔ pid ≠ 0 ∨ ∀ i, (s.proc i).state ≠ .unused := by
  rw [killRight_iff]
  constructor
  · intro hright
    by_contra hwrong
    obtain ⟨rfl, i, hi⟩ : pid = 0 ∧ ∃ i, (s.proc i).state = .unused := by
      simpa [not_or] using hwrong
    -- no process has pid 0, so it is a free slot that is found
    have hunused : ∀ j, (s.proc j).pid = 0 → (s.proc j).state = .unused := by
      intro j hj
      by_contra hstate
      have := h.taken j hstate
      omega
    rcases hright with hright | ⟨-, j, -, -, -, hj, hpid, -⟩
    · refine hright ?_
      cases hfind : s.withPid 0 with
      | none => exact absurd (h.free i hi) (withPid_none hfind i)
      | some j => exact ⟨j, hfind, hunused j (withPid_spec hfind)⟩
    · exact hj (hunused j hpid)
  · intro hpid
    refine .inl fun hfree => ?_
    obtain ⟨i, hfind, hi⟩ := hfree
    rcases hpid with hpid | hfull
    · have hzero := h.free i hi
      exact hpid ((withPid_spec hfind).symm.trans hzero)
    · exact hfull i hi

/-- The slot that a `fork` gives back after its copy loop is found under the pid it was given. -/
theorem PidsRight.givesUp {e : Procs.Event} (h : PidsRight s) (hnext : 0 < s.nextpid)
    (hgives : GivesUp lay s e) (hstep : (machine lay).step s e s') :
    ¬ KillRight s' s.nextpid := by
  obtain ⟨fuel, p, c, kstack, pagetable, trapframe, m, rfl, hp, hc, hm⟩ := hgives
  obtain ⟨w, hstep⟩ := hstep
  have hpc : p ≠ c := by
    intro hpc
    have hunused := firstUnused_unused hc
    simp [← hpc, h.running p hp] at hunused
  obtain ⟨-, hs'⟩ := by simpa [Procs.step, hp, call, fork_eq fuel hc hpc, hm] using hstep
  have hgiven : (s'.proc c).pid = s.nextpid ∧ (s'.proc c).state = .unused := by
    rw [← hs', enter_self]
    exact ⟨rfl, rfl⟩
  -- it is the only slot with this pid
  have honly : ∀ j, (s'.proc j).pid = s.nextpid → j = c := by
    intro j hj
    by_contra hjc
    rw [← hs', enter_of_ne _ _ hjc] at hj
    exact (h.below hnext j).ne hj
  rw [killRight_iff, not_or, not_not]
  constructor
  · cases hfind : s'.withPid s.nextpid with
    | none => exact absurd hgiven.1 (withPid_none hfind c)
    | some j =>
        obtain rfl := honly j (withPid_spec hfind)
        exact ⟨j, hfind, hgiven.2⟩
  · intro hnothing
    obtain ⟨-, j, -, -, -, hj, hpid, -⟩ := hnothing
    obtain rfl := honly j hpid
    exact hj hgiven.2

/-- A call of `kill` is right if and only if the first slot with the pid is not free, if there is
one, or nothing had to be changed.  In the runs in which no `fork` gives up in its copy loop and
`nextpid` does not overflow, it is right if and only if the pid is not 0 or no slot is free; and
the first `fork` that does give up leaves a pid for which it is wrong. -/
theorem kill_right (lay : Layout) (s : Procs) (pid : ℤ) :
    (KillRight s pid ↔ ¬ HitsFree s pid ∨ HitsNothing s pid) ∧
    (((machine lay).restrict (ForksFit lay)).Reachable s →
      (KillRight s pid ↔ pid ≠ 0 ∨ ∀ i, (s.proc i).state ≠ .unused) ∧
      ∀ e s', 0 < s.nextpid → GivesUp lay s e → (machine lay).step s e s' →
        s.nextpid ≠ 0 ∧ ¬ KillRight s' s.nextpid) := by
  refine ⟨killRight_iff s pid, fun hreach => ?_⟩
  have hpids := pidsRight_of_reachable hreach
  refine ⟨hpids.right_iff pid, ?_⟩
  intro e s' hnext hgives hstep
  exact ⟨hnext.ne', hpids.givesUp hnext hgives hstep⟩

/-- After boot, `init` kills itself and nobody else. -/
theorem kill_right_boot : ∃ s, ((machine smallLayout).restrict (ForksFit smallLayout)).Reachable s ∧
    KillRight s 1 := by
  have hboot : (boot smallLayout).isSome := by decide +kernel
  obtain ⟨s, hs⟩ := Option.isSome_iff_exists.mp hboot
  have hreach : ((machine smallLayout).restrict (ForksFit smallLayout)).Reachable s := .init hs
  exact ⟨s, hreach, ((kill_right smallLayout s 1).2 hreach).1.mpr (.inl (by decide))⟩

/-- After boot, `init` calls `kill(0)`: the call succeeds and marks a slot that was never used. -/
theorem kill_hits_free : ∃ s, (machine smallLayout).Reachable s ∧ s.cur = some 0 ∧
    (∀ i, (s.proc i).state ≠ .unused → (s.proc i).pid ≠ 0) ∧ (s.kill 0).1 = 0 ∧
    (s.proc 1).killed = false ∧ ((s.kill 0).2.proc 1).killed = true ∧
    ((s.kill 0).2.proc 1).state = .unused ∧ ¬ KillRight s 0 := by
  have hrun : ((boot smallLayout).bind fun s => System.runAll
      (fun s e => (s.step smallLayout e).map Prod.snd) s [.schedule 0]).any
      (fun s => s.cur = some 0 ∧ (∀ i, (s.proc i).state ≠ .unused → (s.proc i).pid ≠ 0) ∧
        (s.kill 0).1 = 0 ∧ (s.proc 1).killed = false ∧ ((s.kill 0).2.proc 1).killed = true ∧
        ((s.kill 0).2.proc 1).state = .unused) := by
    decide +kernel
  obtain ⟨s, hs, hhits⟩ := (Option.any_eq_true ..).mp hrun
  obtain ⟨s₀, hboot, hall⟩ := Option.bind_eq_some_iff.mp hs
  have hreach : (machine smallLayout).Reachable s := by
    refine System.Reachable.runAll (fun s e s' hnext => ?_) (.init hboot) hall
    obtain ⟨⟨w, u⟩, hstep, rfl⟩ := Option.map_eq_some_iff.mp hnext
    exact ⟨w, hstep⟩
  obtain ⟨hcur, hnone, hret, hunmarked, hmarked, hfree⟩ := of_decide_eq_true hhits
  refine ⟨s, hreach, hcur, hnone, hret, hunmarked, hmarked, hfree, fun hright => ?_⟩
  have hkill := hright.2 hnone
  simp [hkill] at hret

end RiscvOs
