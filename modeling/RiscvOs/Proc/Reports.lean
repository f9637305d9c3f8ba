import Mathlib.Data.Fintype.Basic
import Mathlib.Data.Multiset.AddSub
import RiscvOs.Proc.Spec

/-!
# Exits and their reports

A process that has called `exit_process` is a `ZOMBIE` until a `wait_process` returns its
pid and status.  `Reports` counts both beside the machine: what has exited is what has been
reported and what is still a zombie, each as often as it happened (`exit_reports`).

The parent does not miss an exit either.  It goes to sleep on itself only after it has
found no zombie, and a child that becomes one wakes it: no other event makes a zombie or
puts a process to sleep (`Calm`).
-/

namespace RiscvOs.Reports

open Procs

variable {lay : Layout} {s s' : Procs} {i p c : Fin nproc}

/-- Nobody sleeps on itself while a child of its slot waits to be reaped. -/
def NoLostWakeup (s : Procs) : Prop :=
  ∀ p i, (s.proc p).state = .sleeping → (s.proc p).chan = some p → (s.proc i).parent = some p →
    (s.proc i).state ≠ .zombie

/-- The pids and statuses of the zombies. -/
def zombies (s : Procs) : Multiset (ℤ × ℤ) :=
  (Finset.univ.filter fun i => (s.proc i).state = .zombie).val.map fun i =>
    ((s.proc i).pid, (s.proc i).exitCode)

/-! ## Events that put nobody to sleep and end nobody -/

/-- The slot is asleep only if it was before, on the same channel, and a zombie is the same as
before. -/
structure Calm (q q' : Proc) : Prop where
  sleeping : q'.state = .sleeping → q.state = .sleeping ∧ q'.chan = q.chan
  zombie : q'.state = .zombie ↔ q.state = .zombie
  same : q.state = .zombie → q'.parent = q.parent ∧ q'.pid = q.pid ∧ q'.exitCode = q.exitCode

namespace Calm

variable {q q' q'' : Proc}

theorem refl (q : Proc) : Calm q q := ⟨fun h => ⟨h, rfl⟩, Iff.rfl, fun _ => ⟨rfl, rfl, rfl⟩⟩

theorem trans (h : Calm q q') (h' : Calm q' q'') : Calm q q'' := by
  refine ⟨fun hs => ?_, h'.zombie.trans h.zombie, fun hz => ?_⟩
  · obtain ⟨hs', hchan'⟩ := h'.sleeping hs
    obtain ⟨hs, hchan⟩ := h.sleeping hs'
    exact ⟨hs, hchan'.trans hchan⟩
  · obtain ⟨hparent, hpid, hcode⟩ := h.same hz
    obtain ⟨hparent', hpid', hcode'⟩ := h'.same (h.zombie.mpr hz)
    exact ⟨hparent'.trans hparent, hpid'.trans hpid, hcode'.trans hcode⟩

/-- A slot that is not a zombie is given a state that is neither. -/
theorem of_state (hq : q.state ≠ .zombie) (hs : q'.state ≠ .sleeping) (hz : q'.state ≠ .zombie) :
    Calm q q' :=
  ⟨fun h => absurd h hs, ⟨fun h => absurd h hz, fun h => absurd h hq⟩, fun h => absurd h hq⟩

end Calm

/-- One slot is changed calmly, and the others not at all. -/
theorem calm_modProc {f : Proc → Proc} (h : Calm (s.proc p) (f (s.proc p))) (i : Fin nproc) :
    Calm (s.proc i) ((s.modProc p f).proc i) := by
  by_cases hi : i = p
  · subst hi
    simpa [modProc] using h
  · simpa [modProc, setProc_of_ne _ hi] using Calm.refl (s.proc i)

theorem calm_wakeup (chan i : Fin nproc) : Calm (s.proc i) ((s.wakeup chan).proc i) := by
  simp only [wakeup]
  split
  · next h => exact .of_state (by simp [h.1]) (by simp) (by simp)
  · exact .refl _

theorem calm_woken (hp : (s.proc p).state = .runnable) (i : Fin nproc) :
    Calm (s.proc i) ((s.woken p).proc i) := by
  by_cases hi : i = p
  · subst hi
    rw [woken_self]
    exact .of_state (by simp [hp]) (by simp) (by simp)
  · rw [woken_of_ne hi]
    exact .refl _

theorem calm_yield (hp : (s.proc p).state = .running) (i : Fin nproc) :
    Calm (s.proc i) ((s.yield p).proc i) := by
  refine (calm_modProc (f := fun q => { q with state := .runnable }) ?_ i).trans
    (calm_modProc (f := fun q => { q with context := { q.context with ra := .yield } }) ?_ i)
  · exact .of_state (by simp [hp]) (by simp) (by simp)
  · exact .of_state (by simp [modProc]) (by simp [modProc]) (by simp [modProc])

theorem calm_kill (pid : ℤ) (i : Fin nproc) : Calm (s.proc i) ((s.kill pid).2.proc i) := by
  unfold kill
  split
  · refine calm_modProc ?_ i
    unfold killSlot
    split
    · next h => exact .of_state (by simp [h]) (by simp) (by simp)
    · exact ⟨fun h => ⟨h, rfl⟩, Iff.rfl, fun _ => ⟨rfl, rfl, rfl⟩⟩
  · exact .refl _

theorem calm_sbrk {fuel : ℕ} {n : ℤ} {r : Word} (h : s.sbrk fuel p n = some (r, s'))
    (i : Fin nproc) : Calm (s.proc i) (s'.proc i) := by
  obtain ⟨_, m, -, ⟨-, -, rfl⟩ | ⟨-, -, rfl⟩⟩ := sbrk_cases h
  · exact .refl _
  · exact calm_modProc (s := s.setPhys m)
      (f := fun q => { q with sz := (s.proc p).sz + BitVec.ofInt 64 n })
      ⟨fun h => ⟨h, rfl⟩, Iff.rfl, fun _ => ⟨rfl, rfl, rfl⟩⟩ i

theorem calm_enter {f : Forked} {q : Proc} {m : Phys} (hc : (s.proc c).state = .unused)
    (i : Fin nproc) : Calm (s.proc i) ((s.enter c (f.proc p q (s.proc c) s.nextpid) m).proc i) := by
  by_cases hi : i = c
  · subst hi
    rw [enter_self]
    cases f with
    | starved b => cases b <;> exact .of_state (by simp [hc]) nofun nofun
    | _ => exact .of_state (by simp [hc]) nofun nofun
  · rw [enter_of_ne _ _ hi]
    exact .refl _

/-- Nobody goes to sleep or ends in an event that is neither a turn of `wait_process` nor an
`exit_process`. -/
theorem calm_step {e : Procs.Event} {w : Option (Fin nproc × Waited)} (hscan : s.scan e = none)
    (hexit : ∀ status, e ≠ .call (.exitProcess status)) (hrun : s.Running)
    (h : s.step lay e = some (w, s')) (i : Fin nproc) : Calm (s.proc i) (s'.proc i) := by
  cases e with
  | call c =>
    obtain ⟨p, hp⟩ : ∃ p, s.cur = some p := by
      cases hcur : s.cur with
      | none => simp [step, hcur] at h
      | some p => exact ⟨p, rfl⟩
    cases c with
    | waitProcess => simp [Procs.scan, hp] at hscan
    | exitProcess status => exact absurd rfl (hexit status)
    | kill pid =>
      obtain ⟨-, rfl⟩ := by simpa [step, hp, call] using h
      exact calm_kill pid i
    | sbrk n fuel =>
      cases hr : s.sbrk fuel p n with
      | none => simp [step, hp, call, hr] at h
      | some r =>
        obtain ⟨-, rfl⟩ := by simpa [step, hp, call, hr] using h
        exact calm_sbrk hr i
    | yield =>
      obtain ⟨-, rfl⟩ := by simpa [step, hp, call] using h
      exact calm_yield (hrun p hp) i
    | fork fuel =>
      obtain ⟨-, rfl | ⟨c, f, m, hc, -, rfl⟩⟩ := step_fork hrun hp h
      · exact .refl _
      · exact calm_enter (firstUnused_unused hc) i
  | schedule p =>
    by_cases hsched : s.cur = none ∧ (s.proc p).state = .runnable
    · have hra : (s.proc p).context.ra ≠ .wait := by simpa [Procs.scan, hsched] using hscan
      obtain ⟨-, rfl⟩ := by simpa [step, hsched, resume_elsewhere hra] using h
      exact calm_modProc (f := fun q => { q with state := .running })
        (.of_state (by simp [hsched.2]) (by simp) (by simp)) i
    · simp [step, hsched] at h
  | trap c =>
    obtain ⟨p, -, -, rfl⟩ := by simpa [step, Option.bind_eq_some_iff] using h
    exact .refl _
  | write i j k c =>
    obtain ⟨p, -, pa, -, -, rfl⟩ := by simpa [step, Option.bind_eq_some_iff] using h
    exact .refl _

/-! ## Zombies -/

/-- The reports of the slots of a set, where a slot's pid and status are the same in both. -/
theorem map_report_congr {z : Finset (Fin nproc)} (h : ∀ j ∈ z, Calm (s.proc j) (s'.proc j))
    (hz : ∀ j ∈ z, (s.proc j).state = .zombie) :
    (z.val.map fun j => ((s'.proc j).pid, (s'.proc j).exitCode)) =
      z.val.map fun j => ((s.proc j).pid, (s.proc j).exitCode) := by
  refine Multiset.map_congr rfl fun j hj => ?_
  obtain ⟨-, hpid, hcode⟩ := (h j hj).same (hz j hj)
  rw [hpid, hcode]

theorem zombies_calm (h : ∀ j, Calm (s.proc j) (s'.proc j)) : zombies s' = zombies s := by
  have hset : (Finset.univ.filter fun j => (s'.proc j).state = .zombie) =
      Finset.univ.filter fun j => (s.proc j).state = .zombie :=
    Finset.filter_congr fun j _ => (h j).zombie
  unfold zombies
  rw [hset]
  exact map_report_congr (fun j _ => h j) fun j hj => (Finset.mem_filter.mp hj).2

/-- One more zombie. -/
theorem zombies_cons {t : Procs} (hi : (s.proc i).state ≠ .zombie)
    (hi' : (t.proc i).state = .zombie) (h : ∀ j, j ≠ i → Calm (s.proc j) (t.proc j)) :
    zombies t = ((t.proc i).pid, (t.proc i).exitCode) ::ₘ zombies s := by
  have hset : (Finset.univ.filter fun j => (t.proc j).state = .zombie) =
      insert i (Finset.univ.filter fun j => (s.proc j).state = .zombie) := by
    ext j
    by_cases hj : j = i
    · simp [hj, hi']
    · simpa [hj] using (h j hj).zombie
  have hmem : i ∉ Finset.univ.filter fun j => (s.proc j).state = .zombie := by simp [hi]
  unfold zombies
  rw [hset, Finset.insert_val_of_notMem hmem, Multiset.map_cons]
  congr 1
  refine map_report_congr (fun j hj => h j ?_) fun j hj => (Finset.mem_filter.mp hj).2
  rintro rfl
  exact hmem hj

theorem zombies_exitProcess (status : ℤ) (hp : (s.proc p).state = .running) :
    zombies (s.exitProcess p status) = ((s.proc p).pid, status) ::ₘ zombies s := by
  have hcons := zombies_cons (s := s) (i := p)
    (t := s.modProc p fun q => { q with exitCode := status, state := .zombie })
    (by simp [hp]) (by simp [modProc]) fun j hj => by
      simpa [modProc, setProc_of_ne _ hj] using Calm.refl (s.proc j)
  simp only [modProc, setProc_self] at hcons
  cases hparent : (s.proc p).parent with
  | none =>
    rw [exitProcess_orphan status hparent]
    exact hcons
  | some parent =>
    rw [exitProcess_child status hparent, ← hcons]
    exact zombies_calm fun j => calm_wakeup parent j

theorem zombies_reap (hi : (s.proc i).state = .zombie) :
    zombies s = ((s.proc i).pid, (s.proc i).exitCode) ::ₘ zombies (s.reap i) := by
  refine zombies_cons (by simp [reap_self]) hi fun j hj => ?_
  rw [reap_of_ne hj]
  exact .refl _

theorem zombies_sleep (hp : (s.proc p).state = .running) : zombies (s.sleep p p) = zombies s := by
  have hother : ∀ j, j ≠ p → (s.sleep p p).proc j = s.proc j := fun j hj => by
    simp [sleep, swtch, modProc, setProc, hj]
  have hasleep : ((s.sleep p p).proc p).state = .sleeping := by
    simp [sleep, swtch, modProc, setProc]
  have hset : (Finset.univ.filter fun j => ((s.sleep p p).proc j).state = .zombie) =
      Finset.univ.filter fun j => (s.proc j).state = .zombie := by
    refine Finset.filter_congr fun j _ => ?_
    by_cases hj : j = p
    · simp [hj, hasleep, hp]
    · rw [hother j hj]
  unfold zombies
  rw [hset]
  refine Multiset.map_congr rfl fun j hj => ?_
  have hjp : j ≠ p := by
    rintro rfl
    simp [hp] at hj
  rw [hother j hjp]

/-! ## The record of exits and reports -/

/-- The machine, with the pid and the status of every `exit_process` so far, and of every
`wait_process` that has returned a child. -/
structure Record where
  procs : Procs
  exited : Multiset (ℤ × ℤ)
  reported : Multiset (ℤ × ℤ)

/-- An event of the machine, or a `wakeup` from elsewhere in the kernel. -/
inductive Event
  | machine (e : Procs.Event)
  | wakeup (chan : Fin nproc)

/-- The exit that the event is. -/
def exitOf (s : Procs) : Procs.Event → Multiset (ℤ × ℤ)
  | .call (.exitProcess status) =>
    match s.cur with
    | some p => {((s.proc p).pid, status)}
    | none => 0
  | _ => 0

/-- The report in what `wait_process` has returned. -/
def reportOf : Option (Fin nproc × Waited) → Multiset (ℤ × ℤ)
  | some (_, ⟨pid, some status⟩) => {(pid, status)}
  | _ => 0

/-- One event, and what it adds to the record. -/
def Record.step (lay : Layout) (t : Record) : Event → Option Record
  | .machine e => (t.procs.step lay e).map fun r =>
    ⟨r.2, t.exited + exitOf t.procs e, t.reported + reportOf r.1⟩
  | .wakeup chan => some { t with procs := t.procs.wakeup chan }

/-- The recorded machine in any interleaving. -/
def recorded (lay : Layout) : System Record Event where
  init t := ∃ s, boot lay = some s ∧ t = ⟨s, 0, 0⟩
  step t e t' := t.step lay e = some t'

/-! ## The invariant -/

/-- Every exit is reported or waits to be, and no parent sleeps over it. -/
structure Kept (t : Record) : Prop where
  running : t.procs.Running
  awake : NoLostWakeup t.procs
  counted : t.exited = t.reported + zombies t.procs

namespace Kept

variable {t t' : Record} {e : Event}

theorem calm (h : NoLostWakeup s) (hcalm : ∀ i, Calm (s.proc i) (s'.proc i)) : NoLostWakeup s' := by
  intro p i hasleep hchan hparent hzombie
  obtain ⟨hasleep', hchan'⟩ := (hcalm p).sleeping hasleep
  have hzombie' := (hcalm i).zombie.mp hzombie
  exact h p i hasleep' (hchan'.symm.trans hchan) (((hcalm i).same hzombie').1.symm.trans hparent)
    hzombie'

/-- Whoever sleeps on itself was not woken. -/
theorem not_asleep_of_wakeup (hasleep : ((s.wakeup p).proc p).state = .sleeping)
    (hchan : ((s.wakeup p).proc p).chan = some p) : False := by
  simp only [wakeup] at hasleep hchan
  split at hasleep
  · cases hasleep
  · next h =>
    rw [if_neg h] at hchan
    exact h ⟨hasleep, hchan⟩

/-- The parent of a process that exits is woken. -/
theorem awake_exitProcess (h : NoLostWakeup s) (status : ℤ) :
    NoLostWakeup (s.exitProcess p status) := by
  let t := s.modProc p fun q => { q with exitCode := status, state := .zombie }
  have hself : t.proc p = { s.proc p with exitCode := status, state := .zombie } := by
    simp [t, modProc]
  have hother : ∀ j, j ≠ p → t.proc j = s.proc j := fun j hj => setProc_of_ne _ hj
  -- before the wakeup, only the parent of `p` can be asleep over a zombie
  have hparent : ∀ q i, (t.proc q).state = .sleeping → (t.proc q).chan = some q →
      (t.proc i).parent = some q → (t.proc i).state = .zombie → (s.proc p).parent = some q := by
    intro q i hasleep hchan hi hzombie
    have hq : q ≠ p := by
      rintro rfl
      simp [hself] at hasleep
    rw [hother q hq] at hasleep hchan
    by_cases hip : i = p
    · subst hip
      rwa [hself] at hi
    · rw [hother i hip] at hi hzombie
      exact absurd hzombie (h q i hasleep hchan hi)
  intro q i hasleep hchan hi hzombie
  cases hp : (s.proc p).parent with
  | none =>
    rw [exitProcess_orphan status hp] at hasleep hchan hi hzombie
    have := hparent q i hasleep hchan hi hzombie
    simp [hp] at this
  | some parent =>
    rw [exitProcess_child status hp] at hasleep hchan hi hzombie
    obtain ⟨hasleep', hchan'⟩ := (calm_wakeup (s := t) parent q).sleeping hasleep
    have hcalm := calm_wakeup (s := t) parent i
    have hzombie' := hcalm.zombie.mp hzombie
    have hq := hparent q i hasleep' (hchan'.symm.trans hchan)
      ((hcalm.same hzombie').1.symm.trans hi) hzombie'
    obtain rfl : parent = q := Option.some.inj (hp.symm.trans hq)
    exact not_asleep_of_wakeup hasleep hchan

theorem awake_sleep (h : NoLostWakeup s) (hz : s.zombieChild p = none) :
    NoLostWakeup (s.sleep p p) := by
  have hother : ∀ j, j ≠ p → (s.sleep p p).proc j = s.proc j := fun j hj => by
    simp [sleep, swtch, modProc, setProc, hj]
  have hself : ((s.sleep p p).proc p).state = .sleeping := by
    simp [sleep, swtch, modProc, setProc]
  intro q i hasleep hchan hparent hzombie
  have hip : i ≠ p := by
    rintro rfl
    simp [hself] at hzombie
  rw [hother i hip] at hparent hzombie
  by_cases hq : q = p
  · subst hq
    exact zombieChild_none hz hparent hzombie
  · rw [hother q hq] at hasleep hchan
    exact h q i hasleep hchan hparent hzombie

theorem awake_reap (h : NoLostWakeup s) : NoLostWakeup (s.reap i) := by
  intro q j hasleep hchan hparent hzombie
  have hq : q ≠ i := by
    rintro rfl
    simp [reap_self] at hasleep
  have hj : j ≠ i := by
    rintro rfl
    simp [reap_self] at hzombie
  rw [reap_of_ne hq] at hasleep hchan
  rw [reap_of_ne hj] at hparent hzombie
  exact h q j hasleep hchan hparent hzombie

/-- A turn of `wait_process` reports the zombie it reaps. -/
theorem turn {s₁ : Procs} {exited reported : Multiset (ℤ × ℤ)} {w : Option Waited}
    (h : Kept ⟨s₁, exited, reported⟩) (hp : (s₁.proc p).state = .running)
    (hw : w = (s₁.waitProcess p).1) :
    Kept ⟨(s₁.waitProcess p).2, exited, reported + reportOf (w.map fun w => (p, w))⟩ := by
  have hrun := h.running.waitProcess (p := p)
  have hcounted : exited = reported + zombies s₁ := h.counted
  obtain ⟨i, hi, hturn⟩ | ⟨hz, -, hturn⟩ | ⟨-, hturn⟩ := waitProcess_cases s₁ p
  · rw [hturn] at hrun hw ⊢
    refine ⟨hrun, awake_reap h.awake, ?_⟩
    subst hw
    change exited = reported + {((s₁.proc i).pid, (s₁.proc i).exitCode)} + zombies (s₁.reap i)
    rw [hcounted, zombies_reap (zombieChild_spec hi).2, ← Multiset.singleton_add,
      Multiset.add_assoc]
  · rw [hturn] at hrun hw ⊢
    subst hw
    refine ⟨hrun, awake_sleep h.awake hz, ?_⟩
    simpa [reportOf, zombies_sleep hp] using hcounted
  · rw [hturn] at hrun hw ⊢
    subst hw
    exact ⟨hrun, h.awake, by simpa [reportOf] using hcounted⟩

theorem exitOf_scan {e : Procs.Event} (h : s.scan e = some p) : exitOf s e = 0 := by
  cases e with
  | call c => cases c <;> first | rfl | simp [Procs.scan] at h
  | _ => rfl

theorem step (h : Kept t) (hstep : t.step lay e = some t') : Kept t' := by
  cases e with
  | wakeup chan =>
    obtain rfl := Option.some.inj hstep
    have hcalm := calm_wakeup (s := t.procs) chan
    refine ⟨fun p hp => ?_, calm h.awake hcalm, ?_⟩
    · have hrun := h.running p hp
      simp [Procs.wakeup, hrun]
    · rw [h.counted, zombies_calm hcalm]
  | machine e =>
    obtain ⟨⟨w, s'⟩, hs, rfl⟩ := Option.map_eq_some_iff.mp hstep
    cases hscan : t.procs.scan e with
    | some p =>
      obtain ⟨s₁, hstart, rfl, rfl⟩ := step_scan hscan hs
      obtain ⟨-, hrun₁, hp⟩ := kept_start h.running hstart
      have hcalm : ∀ i, Calm (t.procs.proc i) (s₁.proc i) := by
        obtain ⟨rfl, -⟩ | ⟨rfl, hrunnable⟩ := hstart
        · exact fun i => .refl _
        · exact calm_woken hrunnable
      have hkept : Kept ⟨s₁, t.exited, t.reported⟩ :=
        ⟨hrun₁, calm h.awake hcalm, by rw [zombies_calm hcalm]; exact h.counted⟩
      rw [exitOf_scan hscan, Multiset.add_zero]
      exact hkept.turn hp rfl
    | none =>
      obtain ⟨rfl, -⟩ := step_other hscan h.running hs
      have hrun' := h.running.step hs
      by_cases hexit : ∃ status, e = .call (.exitProcess status)
      · obtain ⟨status, rfl⟩ := hexit
        cases hp : t.procs.cur with
        | none => simp [Procs.step, hp] at hs
        | some p =>
          obtain rfl := by simpa [Procs.step, hp, call] using hs
          refine ⟨hrun', awake_exitProcess h.awake status, ?_⟩
          simp only [exitOf, hp, reportOf, Multiset.add_zero]
          rw [h.counted, zombies_exitProcess status (h.running p hp), ← Multiset.singleton_add,
            Multiset.add_assoc, Multiset.add_comm (zombies t.procs)]
      · have hexit' : ∀ status, e ≠ .call (.exitProcess status) := fun status heq =>
          hexit ⟨status, heq⟩
        have hcalm := calm_step hscan hexit' h.running hs
        have hnone : exitOf t.procs e = 0 := by
          cases e with
          | call c => cases c <;> first | rfl | exact absurd rfl (hexit' _)
          | _ => rfl
        refine ⟨hrun', calm h.awake hcalm, ?_⟩
        simp only [hnone, reportOf, Multiset.add_zero]
        rw [h.counted, zombies_calm hcalm]

/-- After boot nobody has ever exited, and nobody sleeps. -/
theorem boot (h : Procs.boot lay = some s) : Kept ⟨s, 0, 0⟩ := by
  obtain ⟨hcur, -, hparent, hfree⟩ := boot_spec h
  have hnone : ∀ i, (s.proc i).parent = none := fun i => by
    by_cases hi : i = 0
    · rw [hi, hparent]
    · rw [hfree i hi]
  have hzombie : ∀ i, (s.proc i).state ≠ .zombie := fun i => by
    by_cases hi : i = 0
    · rw [hi]
      rw [boot_eq] at h
      obtain ⟨⟨r, m⟩, -, rfl⟩ := Option.map_eq_some_iff.mp h
      rw [enter_self]
      cases r with
      | starved b => cases b <;> exact nofun
      | _ => exact nofun
    · rw [hfree i hi]
      exact nofun
  refine ⟨fun p hp => (nomatch hcur.symm.trans hp), fun p i _ _ hi => ?_, ?_⟩
  · simp [hnone i] at hi
  · simp [zombies, hzombie]

end Kept

/-- Nobody sleeps on itself while it has a child to reap, and every exit is reported at most once:
the reports and the zombies together are the exits. -/
theorem exit_reports (lay : Layout) (t : Record) (h : (recorded lay).Reachable t) :
    NoLostWakeup t.procs ∧ t.exited = t.reported + zombies t.procs := by
  have hkept : Kept t := by
    refine h.invariant ?_ fun t e t' ht hstep => ht.step hstep
    rintro _ ⟨s, hs, rfl⟩
    exact .boot hs
  exact ⟨hkept.awake, hkept.counted⟩

/-- `init` has waited for its child, which exits with status 7, and has been told so. -/
theorem exit_reports_child : ∃ t, (recorded smallLayout).Reachable t ∧ t.reported = {(2, 7)} ∧
    t.exited = t.reported + zombies t.procs := by
  have hrun : ((boot smallLayout).bind fun s => System.runAll (fun t e => t.step smallLayout e)
      (⟨s, 0, 0⟩ : Record) [.machine (.schedule 0), .machine (.call (.fork 3)),
        .machine (.call .waitProcess), .machine (.schedule 1),
        .machine (.call (.exitProcess 7)), .machine (.schedule 0)]).any
      (fun t => t.reported = {(2, 7)}) := by
    decide +kernel
  obtain ⟨t, ht, hreport⟩ := (Option.any_eq_true ..).mp hrun
  obtain ⟨s, hs, hall⟩ := Option.bind_eq_some_iff.mp ht
  have hreach : (recorded smallLayout).Reachable t :=
    System.Reachable.runAll (fun _ _ _ hnext => hnext) (.init ⟨s, hs, rfl⟩) hall
  exact ⟨t, hreach, of_decide_eq_true hreport, (exit_reports smallLayout t hreach).2⟩

end RiscvOs.Reports
