import RiscvOs.Proc.Pages

/-!
# The scheduler

`machine lay` lets the scheduler pick any process that is `RUNNABLE`.  Here is the `scheduler` of
`kernel/proc.c`, which goes over the table in rounds: it is at the head of its loop over the
slots, or in the `swtch` to the process it has found.

Its runs are runs of `machine lay` (`scheduler_reachable`), so all that is proved of these holds
under the real scheduler.  What it does beyond:

* it waits for an interrupt only when no process can run (`idle_sound`);
* a process that is `RUNNABLE` is switched to before any other is switched to twice
  (`bounded_wait`).  The argument is a potential: `left` counts the slots between the scheduler
  and the process, and nothing that other processes do takes a process out of `RUNNABLE`
  (`runnable_step`).
-/

namespace RiscvOs

open Procs

/-! ## The loop -/

/-- Where `scheduler` is. -/
inductive SchedPc
  /-- At the test `i < NPROC`. -/
  | loop (i : ℕ)
  /-- In `swtch(&sched_ctx, &proc[i].context)`. -/
  | away (i : Fin nproc)

/-- The machine and the local variables of `scheduler`. -/
structure Sched where
  procs : Procs
  pc : SchedPc := .loop 0
  found : Bool := false

/-- What happens. -/
inductive SchedEvent
  /-- `proc[i]` is not `RUNNABLE`. -/
  | pass
  /-- It is, and it is switched to. -/
  | switch (p : Fin nproc)
  /-- The process that has been switched to does something. -/
  | run (e : Procs.Event)
  /-- It has switched back. -/
  | back
  /-- The round is over; without `found` there is a `wfi`. -/
  | again

/-- One step of the scheduler or of the process that has the processor. -/
inductive Sched.Step (lay : Layout) : Sched → SchedEvent → Sched → Prop
  | pass {s : Procs} {found : Bool} {i : Fin nproc} (hstate : (s.proc i).state ≠ .runnable) :
      Step lay ⟨s, .loop i, found⟩ .pass ⟨s, .loop (i + 1), found⟩
  | switch {s s' : Procs} {found : Bool} {i : Fin nproc}
      {w : Option (Fin nproc × Waited)} (hstate : (s.proc i).state = .runnable)
      (hstep : s.step lay (.schedule i) = some (w, s')) :
      Step lay ⟨s, .loop i, found⟩ (.switch i) ⟨s', .away i, found⟩
  | run {s s' : Procs} {found : Bool} {i : Fin nproc} {e : Procs.Event}
      {w : Option (Fin nproc × Waited)} (hown : ∀ p, e ≠ .schedule p)
      (hstep : s.step lay e = some (w, s')) :
      Step lay ⟨s, .away i, found⟩ (.run e) ⟨s', .away i, found⟩
  | back {s : Procs} {found : Bool} {i : Fin nproc} (hcur : s.cur = none) :
      Step lay ⟨s, .away i, found⟩ .back ⟨s, .loop (i + 1), true⟩
  | again {s : Procs} {found : Bool} :
      Step lay ⟨s, .loop nproc, found⟩ .again ⟨s, .loop 0, false⟩

/-- The machine from the call of `scheduler` on. -/
def scheduler (lay : Layout) : System Sched SchedEvent where
  init s := ∃ procs, boot lay = some procs ∧ s = { procs }
  step := Sched.Step lay

variable {lay : Layout} {s s' t : Sched} {m m' : Procs} {p q i : Fin nproc} {e : Procs.Event}
  {w : Option (Fin nproc × Waited)} {labels : List SchedEvent}

/-! ## What the machine does -/

/-- A step is one of the machine, or none. -/
theorem Sched.Step.machine {l : SchedEvent} (h : Sched.Step lay s l s') :
    s'.procs = s.procs ∨ ∃ e, (machine lay).step s.procs e s'.procs := by
  cases h with
  | pass hstate => exact .inl rfl
  | switch hstate hstep => exact .inr ⟨_, _, hstep⟩
  | run hown hstep => exact .inr ⟨_, _, hstep⟩
  | back hcur => exact .inl rfl
  | again => exact .inl rfl

/-- Under the scheduler the machine is in no other states. -/
theorem scheduler_reachable (h : (scheduler lay).Reachable s) :
    (machine lay).Reachable s.procs := by
  induction h with
  | init hinit =>
      obtain ⟨procs, hboot, rfl⟩ := hinit
      exact .init hboot
  | step _ hstep ih =>
      rcases hstep.machine with hsame | ⟨e, hmachine⟩
      · rw [hsame]
        exact ih
      · exact ih.step hmachine

/-! ## Nobody else takes a process out of `RUNNABLE` -/

theorem runnable_waitProcess (hq : (m.proc q).state = .runnable) (hne : q ≠ p) :
    ((m.waitProcess p).2.proc q).state = .runnable := by
  obtain ⟨i, hi, hw⟩ | ⟨-, -, hw⟩ | ⟨-, hw⟩ := waitProcess_cases m p
  · have hqi : q ≠ i := by
      rintro rfl
      have hzombie := (zombieChild_spec hi).2
      rw [hq] at hzombie
      cases hzombie
    rw [hw, reap_of_ne hqi]
    exact hq
  · rw [hw]
    simpa [Procs.sleep, Procs.swtch, Procs.modProc, setProc_of_ne _ hne] using hq
  · rw [hw]
    exact hq

theorem runnable_exitProcess (hq : (m.proc q).state = .runnable) (hne : q ≠ p) (status : ℤ) :
    ((m.exitProcess p status).proc q).state = .runnable := by
  cases hparent : (m.proc p).parent with
  | none =>
      rw [exitProcess_orphan status hparent]
      simpa [Procs.modProc, setProc_of_ne _ hne] using hq
  | some parent =>
      rw [exitProcess_child status hparent]
      simp [Procs.wakeup, Procs.modProc, setProc_of_ne _ hne, hq]

theorem runnable_kill (hq : (m.proc q).state = .runnable) (pid : ℤ) :
    ((m.kill pid).2.proc q).state = .runnable := by
  unfold Procs.kill
  split
  · rename_i i _
    by_cases hqi : q = i
    · rw [← hqi]
      simp [Procs.modProc, killSlot, hq]
    · simpa [Procs.modProc, setProc_of_ne _ hqi] using hq
  · exact hq

theorem runnable_sbrk {fuel : ℕ} {n : ℤ} {r : Word} (hq : (m.proc q).state = .runnable)
    (h : m.sbrk fuel p n = some (r, m')) : (m'.proc q).state = .runnable := by
  obtain ⟨ok, phys, -, ⟨-, -, rfl⟩ | ⟨-, -, rfl⟩⟩ := sbrk_cases h
  · exact hq
  · by_cases hqp : q = p
    · subst hqp
      simpa [Procs.modProc] using hq
    · simpa [Procs.modProc, setProc_of_ne _ hqp] using hq

/-- What one step preserves. -/
theorem runnable_step (hrun : m.Running) (hq : (m.proc q).state = .runnable)
    (hne : e ≠ .schedule q) (h : m.step lay e = some (w, m')) :
    (m'.proc q).state = .runnable := by
  have hother {p : Fin nproc} (hp : m.cur = some p) : q ≠ p := by
    rintro rfl
    rw [hrun q hp] at hq
    cases hq
  cases e with
  | call c =>
      obtain ⟨p, hp⟩ : ∃ p, m.cur = some p := by
        cases hcur : m.cur with
        | none => simp [Procs.step, hcur] at h
        | some p => exact ⟨p, rfl⟩
      cases c with
      | fork fuel =>
          obtain ⟨-, rfl | ⟨c, f, phys, hc, -, rfl⟩⟩ := step_fork hrun hp h
          · exact hq
          · have hqc : q ≠ c := by
              rintro rfl
              rw [firstUnused_unused hc] at hq
              cases hq
            rw [enter_of_ne _ _ hqc]
            exact hq
      | exitProcess status =>
          obtain ⟨rfl, rfl⟩ := by simpa [Procs.step, hp, Procs.call] using h
          exact runnable_exitProcess hq (hother hp) status
      | waitProcess =>
          obtain ⟨rfl, rfl⟩ := by simpa [Procs.step, hp, Procs.call] using h
          exact runnable_waitProcess hq (hother hp)
      | kill pid =>
          obtain ⟨rfl, rfl⟩ := by simpa [Procs.step, hp, Procs.call] using h
          exact runnable_kill hq pid
      | sbrk n fuel =>
          cases hr : m.sbrk fuel p n with
          | none => simp [Procs.step, hp, Procs.call, hr] at h
          | some r =>
              obtain ⟨rfl, rfl⟩ := by simpa [Procs.step, hp, Procs.call, hr] using h
              exact runnable_sbrk hq hr
      | yield =>
          obtain ⟨rfl, rfl⟩ := by simpa [Procs.step, hp, Procs.call] using h
          simpa [Procs.yield, Procs.swtch, Procs.modProc, setProc_of_ne _ (hother hp)] using hq
  | schedule p =>
      have hqp : q ≠ p := fun heq => hne (congrArg Procs.Event.schedule heq.symm)
      by_cases hsched : m.cur = none ∧ (m.proc p).state = .runnable
      · by_cases hra : (m.proc p).context.ra = .wait
        · have hscan : m.scan (.schedule p) = some p := by simp [Procs.scan, hsched, hra]
          obtain ⟨m₁, ⟨rfl, -⟩ | ⟨rfl, -⟩, -, rfl⟩ := step_scan hscan h
          · exact runnable_waitProcess hq hqp
          · refine runnable_waitProcess ?_ hqp
            rw [woken_of_ne hqp]
            exact hq
        · obtain ⟨rfl, rfl⟩ := by simpa [Procs.step, hsched, resume_elsewhere hra] using h
          simpa [Procs.modProc, setProc_of_ne _ hqp] using hq
      · simp [Procs.step, hsched] at h
  | trap c =>
      obtain ⟨p, -, rfl, rfl⟩ := by simpa [Procs.step, Option.bind_eq_some_iff] using h
      exact hq
  | write i j k c =>
      obtain ⟨p, -, pa, -, rfl, rfl⟩ := by simpa [Procs.step, Option.bind_eq_some_iff] using h
      exact hq

/-! ## When there is nothing to run -/

/-- What holds at the head of the loop: the scheduler has the processor, and if it has found no
process then none of the slots behind it can run. -/
structure Sched.Looks (s : Sched) (i : ℕ) : Prop where
  idle : s.procs.cur = none
  inside : i ≤ nproc
  none_found : s.found = false → ∀ p : Fin nproc, p.val < i → (s.procs.proc p).state ≠ .runnable

/-- The invariant. -/
structure Sched.Ok (s : Sched) : Prop where
  running : s.procs.Running
  looks : ∀ i, s.pc = .loop i → s.Looks i

theorem Sched.Ok.step {l : SchedEvent} (h : s.Ok) (hstep : Sched.Step lay s l s') : s'.Ok := by
  cases hstep with
  | @pass m found i hstate =>
      have hlooks := h.looks i rfl
      refine ⟨h.running, fun j hj => ?_⟩
      obtain rfl := SchedPc.loop.inj hj
      refine ⟨hlooks.idle, i.isLt, fun hfound p hp => ?_⟩
      by_cases hpi : p = i
      · rw [hpi]
        exact hstate
      · exact hlooks.none_found hfound p (by omega)
  | switch hstate hstep => exact ⟨h.running.step hstep, fun i hi => by cases hi⟩
  | run hown hstep => exact ⟨h.running.step hstep, fun i hi => by cases hi⟩
  | @back m found i hcur =>
      refine ⟨h.running, fun j hj => ?_⟩
      obtain rfl := SchedPc.loop.inj hj
      exact ⟨hcur, i.isLt, fun hfound => by cases hfound⟩
  | again =>
      have hlooks := h.looks nproc rfl
      refine ⟨h.running, fun j hj => ?_⟩
      obtain rfl := SchedPc.loop.inj hj
      exact ⟨hlooks.idle, Nat.zero_le _, fun _ p hp => absurd hp (Nat.not_lt_zero _)⟩

theorem sched_ok (h : (scheduler lay).Reachable s) : s.Ok := by
  refine h.invariant (fun s hinit => ?_) fun s l s' hs hstep => hs.step hstep
  obtain ⟨procs, hboot, rfl⟩ := hinit
  obtain ⟨hcur, -⟩ := boot_spec hboot
  refine ⟨fun p hp => ?_, fun i hi => ?_⟩
  · have hp' : procs.cur = some p := hp
    rw [hcur] at hp'
    cases hp'
  · obtain rfl := SchedPc.loop.inj hi
    exact ⟨hcur, Nat.zero_le _, fun _ p hp => absurd hp (Nat.not_lt_zero _)⟩

/-- The scheduler waits for an interrupt only when no process can run. -/
theorem idle_sound (h : (scheduler lay).Reachable s) (hpc : s.pc = .loop nproc)
    (hfound : s.found = false) (p : Fin nproc) : (s.procs.proc p).state ≠ .runnable :=
  ((sched_ok h).looks nproc hpc).none_found hfound p p.isLt

/-- A round over slots that cannot run. -/
theorem reaches_end {found : Bool} {i : ℕ} (hi : i ≤ nproc)
    (h : (scheduler lay).Reachable ⟨m, .loop i, found⟩)
    (hnone : ∀ p, (m.proc p).state ≠ .runnable) :
    (scheduler lay).Reachable ⟨m, .loop nproc, found⟩ := by
  induction hi using Nat.decreasingInduction with
  | self => exact h
  | of_succ i hi ih => exact ih (h.step (.pass (i := ⟨i, hi⟩) (hnone _)))

/-- The first two steps of a run: a process is switched to and does something. -/
theorem switch_run {e : Procs.Event} (hown : ∀ p, e ≠ .schedule p)
    (hrun : ((boot lay).bind fun s => System.runAll
      (fun s e => (s.step lay e).map Prod.snd) s [.schedule 0, e]) = some m) :
    (scheduler lay).Reachable ⟨m, .away 0, false⟩ := by
  obtain ⟨m₀, hboot, hall⟩ := Option.bind_eq_some_iff.mp hrun
  obtain ⟨m₁, hfirst, hall⟩ := Option.bind_eq_some_iff.mp hall
  obtain ⟨m₂, hsecond, hall⟩ := Option.bind_eq_some_iff.mp hall
  obtain rfl := Option.some.inj hall
  obtain ⟨⟨w, m₁⟩, hswitch, rfl⟩ := Option.map_eq_some_iff.mp hfirst
  obtain ⟨⟨w', m₂⟩, hown', rfl⟩ := Option.map_eq_some_iff.mp hsecond
  have hstate : (m₀.proc 0).state = .runnable := by
    by_cases hsched : m₀.cur = none ∧ (m₀.proc 0).state = .runnable
    · exact hsched.2
    · simp [Procs.step, hsched] at hswitch
  have hinit : (scheduler lay).Reachable { procs := m₀ } := .init ⟨m₀, hboot, rfl⟩
  exact (hinit.step (.switch hstate hswitch)).step (.run hown hown')

/-- `init` has exited. -/
theorem idle_sound_exit : ∃ m, (scheduler smallLayout).Reachable ⟨m, .loop nproc, false⟩ ∧
    ∀ p, (m.proc p).state ≠ .runnable := by
  have hrun : ((boot smallLayout).bind fun s => System.runAll
      (fun s e => (s.step smallLayout e).map Prod.snd) s
        [.schedule 0, .call (.exitProcess 0)]).any
      (fun m => m.cur = none ∧ ∀ p, (m.proc p).state ≠ .runnable) := by
    decide +kernel
  obtain ⟨m, hm, hdone⟩ := (Option.any_eq_true ..).mp hrun
  obtain ⟨hcur, hnone⟩ := of_decide_eq_true hdone
  have haway := switch_run (fun p heq => by cases heq) hm
  have hround := reaches_end (i := 0 + 1) (by decide) (haway.step (.back hcur)) hnone
  have hagain := reaches_end (Nat.zero_le _) (hround.step .again) hnone
  exact ⟨m, hagain, idle_sound hagain rfl rfl⟩

/-- At the head of its loop the scheduler can go on. -/
theorem sched_goes_on (h : (scheduler lay).Reachable s) {i : ℕ} (hpc : s.pc = .loop i) :
    ∃ l s', (scheduler lay).step s l s' := by
  obtain ⟨m, pc, found⟩ := s
  obtain rfl : pc = .loop i := hpc
  have hlooks := (sched_ok h).looks i rfl
  rcases Nat.lt_or_eq_of_le hlooks.inside with hlt | rfl
  · by_cases hstate : (m.proc ⟨i, hlt⟩).state = .runnable
    · have hsome : m.step lay (.schedule ⟨i, hlt⟩) = some ((m.resume ⟨i, hlt⟩).1.map
          fun w => (⟨i, hlt⟩, w), (m.resume ⟨i, hlt⟩).2) := if_pos ⟨hlooks.idle, hstate⟩
      exact ⟨_, _, Sched.Step.switch hstate hsome⟩
    · exact ⟨_, _, Sched.Step.pass (i := ⟨i, hlt⟩) hstate⟩
  · exact ⟨_, _, Sched.Step.again⟩

/-! ## Turns -/

/-- How many slots there are from slot `i` to slot `q`, round the table. -/
def slotsTo (i : ℕ) (q : Fin nproc) : ℕ := if i ≤ q then q - i else nproc - i + q

/-- How many slots the scheduler has yet to look at before `q`. -/
def SchedPc.left (q : Fin nproc) : SchedPc → ℕ
  | .loop i => slotsTo i q
  | .away i => slotsTo (i + 1) q

/-- How many steps of its own the scheduler can take before it gets to `q`. -/
def SchedPc.potential (q : Fin nproc) : SchedPc → ℕ
  | .loop i => 2 * slotsTo i q + if i ≤ q then 0 else 1
  | .away i => 2 * slotsTo (i + 1) q + 1 + if i + 1 ≤ q.val then 0 else 1

/-- The process that is switched to. -/
def SchedEvent.target : SchedEvent → Option (Fin nproc)
  | .switch p => some p
  | _ => none

/-- The step is one of the scheduler. -/
def SchedEvent.own : SchedEvent → Bool
  | .run _ => false
  | _ => true

/-- The processes that are switched to, in order. -/
def switched (labels : List SchedEvent) : List (Fin nproc) := labels.filterMap SchedEvent.target

/-- How many steps are of the scheduler itself. -/
def ownSteps (labels : List SchedEvent) : ℕ := labels.countP SchedEvent.own

theorem slotsTo_succ (hne : i ≠ q) : slotsTo (i + 1) q + 1 = slotsTo i q := by
  have hval : i.val ≠ q.val := fun heq => hne (Fin.ext heq)
  have hi : i.val < nproc := i.isLt
  unfold slotsTo
  split <;> split <;> omega

theorem slotsTo_wrap : slotsTo nproc q = slotsTo 0 q := by
  have hq : q.val < nproc := q.isLt
  unfold slotsTo
  split <;> split <;> omega

theorem slotsTo_inj (h : slotsTo p q = slotsTo i q) : p = i := by
  have hp : p.val < nproc := p.isLt
  have hi : i.val < nproc := i.isLt
  have hq : q.val < nproc := q.isLt
  unfold slotsTo at h
  apply Fin.ext
  split at h <;> split at h <;> omega

theorem potential_le {pc : SchedPc} (hinside : ∀ i, pc = .loop i → i ≤ nproc) :
    pc.potential q ≤ 2 * nproc := by
  have hq : q.val < nproc := q.isLt
  cases pc with
  | loop i =>
      have hi := hinside i rfl
      simp only [SchedPc.potential, slotsTo]
      split <;> omega
  | away i =>
      have hi : i.val < nproc := i.isLt
      simp only [SchedPc.potential, slotsTo]
      split <;> omega

/-- What holds of a run as long as `q` waits in it. -/
structure Queued (q : Fin nproc) (s : Sched) (labels : List SchedEvent) (t : Sched) : Prop where
  runnable : (t.procs.proc q).state = .runnable
  pays : ownSteps labels + t.pc.potential q ≤ s.pc.potential q
  nodup : (switched labels).Nodup
  behind : ∀ p ∈ switched labels, t.pc.left q < slotsTo p q

theorem ownSteps_snoc (labels : List SchedEvent) (l : SchedEvent) :
    ownSteps (labels ++ [l]) = ownSteps labels + if l.own then 1 else 0 := by
  rw [ownSteps, List.countP_append, List.countP_singleton]
  rfl

theorem switched_snoc (labels : List SchedEvent) (l : SchedEvent) :
    switched (labels ++ [l]) = switched labels ++ l.target.toList := by
  rw [switched, List.filterMap_append]
  cases htarget : l.target <;> simp [htarget, switched]

/-- A step that switches to nobody. -/
theorem Queued.silent {l : SchedEvent} {u : Sched} (h : Queued q s labels t)
    (htarget : l.target = none) (hrunnable : (u.procs.proc q).state = .runnable)
    (hpays : (if l.own then 1 else 0) + u.pc.potential q ≤ t.pc.potential q)
    (hleft : u.pc.left q ≤ t.pc.left q) : Queued q s (labels ++ [l]) u := by
  have hswitched : switched (labels ++ [l]) = switched labels := by
    rw [switched_snoc, htarget]
    exact List.append_nil _
  refine ⟨hrunnable, ?_, ?_, fun p hp => ?_⟩
  · calc
      ownSteps (labels ++ [l]) + u.pc.potential q
        = ownSteps labels + ((if l.own then 1 else 0) + u.pc.potential q) := by
          rw [ownSteps_snoc, Nat.add_assoc]
      _ ≤ ownSteps labels + t.pc.potential q := Nat.add_le_add_left hpays _
      _ ≤ s.pc.potential q := h.pays
  · rw [hswitched]
    exact h.nodup
  · rw [hswitched] at hp
    exact hleft.trans_lt (h.behind p hp)

/-- A step that switches to another process. -/
theorem Queued.switch {u : Sched} (h : Queued q s labels t)
    (hrunnable : (u.procs.proc q).state = .runnable)
    (hpays : u.pc.potential q + 1 ≤ t.pc.potential q) (hat : t.pc.left q = slotsTo p q)
    (hleft : u.pc.left q < t.pc.left q) : Queued q s (labels ++ [.switch p]) u := by
  have hswitched : switched (labels ++ [.switch p]) = switched labels ++ [p] := switched_snoc ..
  refine ⟨hrunnable, ?_, ?_, fun p' hp' => ?_⟩
  · have hpaid := h.pays
    have hone : ownSteps (labels ++ [.switch p]) = ownSteps labels + 1 := ownSteps_snoc ..
    omega
  · have hnew : p ∉ switched labels := by
      intro hp
      have hlt := h.behind p hp
      rw [hat] at hlt
      exact lt_irrefl _ hlt
    rw [hswitched]
    exact List.nodup_append.mpr ⟨h.nodup, List.nodup_singleton p, fun a ha b hb => by
      rw [List.mem_singleton.mp hb]
      rintro rfl
      exact hnew ha⟩
  · rw [hswitched, List.mem_append, List.mem_singleton] at hp'
    rcases hp' with hold | rfl
    · exact hleft.trans (h.behind p' hold)
    · exact hat ▸ hleft

/-- What one step preserves. -/
theorem Queued.step {l : SchedEvent} {u : Sched} (h : Queued q s labels t) (ht : t.Ok)
    (hstep : Sched.Step lay t l u) : l = .switch q ∨ Queued q s (labels ++ [l]) u := by
  have hrunnable := h.runnable
  have hq : q.val < nproc := q.isLt
  cases hstep with
  | @pass m found i hstate =>
      have hiq : i ≠ q := by
        rintro rfl
        exact hstate hrunnable
      have hsucc := slotsTo_succ hiq
      refine .inr (h.silent rfl hrunnable ?_ ?_)
      · simp only [SchedPc.potential, SchedEvent.own]
        have hval : i.val ≠ q.val := fun heq => hiq (Fin.ext heq)
        split <;> split <;> omega
      · show slotsTo (i + 1) q ≤ slotsTo i q
        omega
  | @switch m m' found i w hstate hstep =>
      by_cases hiq : i = q
      · exact .inl (congrArg SchedEvent.switch hiq)
      · have hne : Procs.Event.schedule i ≠ .schedule q := fun heq =>
          hiq (Procs.Event.schedule.inj heq)
        have hsucc := slotsTo_succ hiq
        refine .inr (h.switch (runnable_step ht.running hrunnable hne hstep) ?_ rfl ?_)
        · simp only [SchedPc.potential]
          have hval : i.val ≠ q.val := fun heq => hiq (Fin.ext heq)
          split <;> split <;> omega
        · show slotsTo (i + 1) q < slotsTo i q
          omega
  | @run m m' found i e w hother hstep =>
      refine .inr (h.silent rfl ?_ (Nat.zero_add _).le le_rfl)
      exact runnable_step ht.running hrunnable (hother q) hstep
  | @back m found i hcur =>
      refine .inr (h.silent rfl hrunnable ?_ le_rfl)
      simp only [SchedPc.potential, SchedEvent.own, if_true]
      omega
  | @again m found =>
      have hwrap := slotsTo_wrap (q := q)
      have hlow : 0 ≤ q.val := Nat.zero_le _
      refine .inr (h.silent rfl hrunnable ?_ hwrap.ge)
      simp only [SchedPc.potential, SchedEvent.own, if_true, if_pos hlow, if_neg (not_le.mpr hq)]
      omega

/-- A process that can run is switched to before any other process is switched to twice, and
before the scheduler has gone over the table once. -/
theorem bounded_wait (h : (scheduler lay).Reachable s) (hq : (s.procs.proc q).state = .runnable)
    (hpath : (scheduler lay).Path s labels t) : q ∈ switched labels ∨
      ((t.procs.proc q).state = .runnable ∧ (switched labels).Nodup ∧
        (switched labels).length < nproc ∧ ownSteps labels ≤ 2 * nproc) := by
  have hqueued : q ∈ switched labels ∨ Queued q s labels t := by
    induction hpath with
    | refl => exact .inr ⟨hq, (Nat.zero_add _).le, List.nodup_nil, fun p hp => by cases hp⟩
    | @snoc labels t u l hpath hstep ih =>
        rw [switched_snoc, List.mem_append]
        rcases ih with hmem | hqueued
        · exact .inl (.inl hmem)
        · rcases hqueued.step (sched_ok (hpath.reachable h)) hstep with rfl | hnext
          · exact .inl (.inr (List.mem_singleton.mpr rfl))
          · exact .inr hnext
  rcases hqueued with hmem | hqueued
  · exact .inl hmem
  · by_cases hmem : q ∈ switched labels
    · exact .inl hmem
    refine .inr ⟨hqueued.runnable, hqueued.nodup, ?_, ?_⟩
    · have hcard : (q :: switched labels).length ≤ Fintype.card (Fin nproc) :=
        (List.nodup_cons.mpr ⟨hmem, hqueued.nodup⟩).length_le_card
      rw [Fintype.card_fin] at hcard
      exact hcard
    · have hinside : ∀ i, s.pc = .loop i → i ≤ nproc := fun i hi =>
        ((sched_ok h).looks i hi).inside
      have hle := potential_le (q := q) hinside
      have hpays := hqueued.pays
      omega

/-- `init` has forked and yields, and its child waits. -/
theorem bounded_wait_child : ∃ s t, (scheduler smallLayout).Reachable s ∧
    (s.procs.proc 1).state = .runnable ∧
    (scheduler smallLayout).Path s ([] ++ [.run (.call .yield)] ++ [.back]) t ∧
    (1 ∈ switched ([] ++ [.run (.call .yield)] ++ [.back]) ∨
      ((t.procs.proc 1).state = .runnable ∧
        (switched ([] ++ [.run (.call .yield)] ++ [.back])).Nodup ∧
        (switched ([] ++ [.run (.call .yield)] ++ [.back])).length < nproc ∧
        ownSteps ([] ++ [.run (.call .yield)] ++ [.back]) ≤ 2 * nproc)) := by
  have hrun : ((boot smallLayout).bind fun s => System.runAll
      (fun s e => (s.step smallLayout e).map Prod.snd) s
        [.schedule 0, .call (.fork 3)]).any
      (fun m => m.cur = some 0 ∧ (m.proc 1).state = .runnable) := by
    decide +kernel
  obtain ⟨m, hm, hdone⟩ := (Option.any_eq_true ..).mp hrun
  obtain ⟨hcur, hchild⟩ := of_decide_eq_true hdone
  have haway := switch_run (fun p heq => by cases heq) hm
  have hyield : m.step smallLayout (.call .yield) = some (none, m.yield 0) := by
    simp [Procs.step, hcur, Procs.call]
  have hpath : (scheduler smallLayout).Path ⟨m, .away 0, false⟩
      ([] ++ [.run (.call .yield)] ++ [.back]) ⟨m.yield 0, .loop (0 + 1), true⟩ :=
    .snoc (.snoc .refl (.run (fun p heq => by cases heq) hyield)) (.back rfl)
  exact ⟨_, _, haway, hchild, hpath, bounded_wait haway hchild hpath⟩

end RiscvOs
