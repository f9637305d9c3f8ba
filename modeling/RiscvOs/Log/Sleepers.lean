import RiscvOs.Log.Reservation

/-!
# Sleeping in `begin_op`

`sleep` of `kernel/proc.c` is given `&log.lock` and does not look at it: it does not
release the lock before it switches to the scheduler and does not take it again
afterwards.  A process that has to wait in `begin_op` therefore sleeps with the lock
held, and no other call of the log gets past `acquire_log` until it is woken, finds
that it may go on, and releases the lock itself.

The system is the one of `Log/Reservation.lean`, for any size of the log.
-/

namespace RiscvOs.Reservation

open Effect Bio

variable {ι : Type} [DecidableEq ι]

/-- In `sleep`, or woken up and about to test again. -/
def Phase.Waits : Phase → Prop
  | asleep | woken => True
  | _ => False

/-- A sleeping process does not hold up the calls of the others, and a woken process holds
the lock when it tests again. -/
structure LockRight (s : Procs ι) : Prop where
  asleep : ∀ p, s.phase p = .asleep → s.kernel.mem.log.lock = false ∧
    ∃ k, acquireLog.run machine s.kernel = .ok ((), k)
  woken : ∀ p, s.phase p = .woken → s.kernel.mem.log.lock = true

/-- A `begin_op` finds that it may go on when it takes the lock. -/
def Admits (s : Procs ι) : Call ι → Prop
  | .begin _ => s.kernel.mem.log.admits
  | _ => True

/-! ## Who waits, holds the lock -/

/-- At most one process waits, and while it does the lock is taken. -/
structure Held (s : Procs ι) : Prop where
  nonneg : 0 ≤ s.kernel.mem.log.lh.n
  locked : ∀ p, (s.phase p).Waits → s.kernel.mem.log.lock = true
  one : ∀ p q, (s.phase p).Waits → (s.phase q).Waits → p = q

/-- `acquire_log` returns at once or spins for ever. -/
theorem acquireLog_run (s : Machine) : acquireLog.run machine s =
    if s.mem.log.lock then .error .hang
    else .ok ((), { s with mem := s.mem.setLog fun log => { log with lock := true } }) := by
  unfold acquireLog
  rw [getLog, Prog.bind_assoc]
  change ((if s.mem.log.lock then _ else _ : Kern Unit)).run machine s = _
  split <;> rfl

/-- A call that got past `acquire_log` found the lock free. -/
theorem acquireLog_free {α : Type} {f : Unit → Kern α} {s t : Machine} {a : α}
    (hrun : (acquireLog >>= f).run machine s = .ok (a, t)) : s.mem.log.lock = false := by
  rw [Prog.run_bind, acquireLog_run] at hrun
  cases hlock : s.mem.log.lock with
  | false => rfl
  | true => simp [hlock] at hrun

namespace Held

variable {s : Procs ι} {p : ι} {x : Phase} {k : Machine}

omit [DecidableEq ι] in
/-- While the lock is free nobody waits. -/
theorem not_waits (h : Held s) (hfree : s.kernel.mem.log.lock = false) (q : ι) :
    ¬ (s.phase q).Waits := fun hq => by
  rw [h.locked q hq] at hfree
  cases hfree

/-- A process moves on without waiting, after which nobody waits. -/
theorem nobody (hother : ∀ q, q ≠ p → ¬ (s.phase q).Waits) (hx : ¬ x.Waits)
    (hn : 0 ≤ k.mem.log.lh.n) : Held (s.move p x k) := by
  have hnone : ∀ q, ¬ ((s.move p x k).phase q).Waits := by
    intro q
    by_cases hq : q = p
    · subst hq
      rw [Procs.move_same]
      exact hx
    · rw [Procs.move_ne hq]
      exact hother q hq
  exact ⟨hn, fun q hq => absurd hq (hnone q), fun q r hq _ => absurd hq (hnone q)⟩

/-- A process moves on without waiting or touching the lock. -/
theorem stays (h : Held s) (hx : ¬ x.Waits) (hlock : k.mem.log.lock = s.kernel.mem.log.lock)
    (hn : 0 ≤ k.mem.log.lh.n) : Held (s.move p x k) := by
  have hbefore : ∀ q, ((s.move p x k).phase q).Waits → (s.phase q).Waits := by
    intro q hq
    by_cases hne : q = p
    · subst hne
      rw [Procs.move_same] at hq
      exact absurd hq hx
    · rwa [Procs.move_ne hne] at hq
  exact ⟨hn, fun q hq => hlock.trans (h.locked q (hbefore q hq)),
    fun q r hq hr => h.one q r (hbefore q hq) (hbefore r hr)⟩

/-- A process that waits, with the lock taken and nobody else waiting. -/
theorem only (hother : ∀ q, q ≠ p → ¬ (s.phase q).Waits)
    (hlock : k.mem.log.lock = true) (hn : 0 ≤ k.mem.log.lh.n) : Held (s.move p x k) := by
  have hone : ∀ q, ((s.move p x k).phase q).Waits → q = p := by
    intro q hq
    by_contra hne
    rw [Procs.move_ne hne] at hq
    exact hother q hne hq
  exact ⟨hn, fun _ _ => hlock, fun q r hq hr => (hone q hq).trans (hone r hr).symm⟩

/-- One call of one process keeps who waits holding the lock. -/
theorem step (h : Held s) {call : Call ι} {t : Procs ι} (hstep : s.Step call t) : Held t := by
  cases hstep with
  | @begin p admitted k hphase hrun =>
      have hfree := h.not_waits (acquireLog_free hrun)
      obtain ⟨hyes, hno⟩ := Prog.ok_of_wp (OnMem.beginOpFirst_mem fun _ => False) hrun
      cases admitted with
      | true => exact nobody (fun q _ => hfree q) id (by rw [(hyes rfl).2]; exact h.nonneg)
      | false =>
          have hmem := (hno rfl).2
          exact only (fun q _ => hfree q) (by rw [hmem]; rfl) (by rw [hmem]; exact h.nonneg)
  | @wake p hphase =>
      have hp : (s.phase p).Waits := by rw [hphase]; trivial
      exact only (fun q hne hq => hne (h.one q p hq hp)) (h.locked p hp) h.nonneg
  | @retry p admitted k hphase hrun =>
      have hp : (s.phase p).Waits := by rw [hphase]; trivial
      obtain ⟨hyes, hno⟩ := Prog.ok_of_wp (OnMem.beginOpTry_mem fun _ => False) hrun
      cases admitted with
      | true =>
          exact nobody (fun q hne hq => hne (h.one q p hq hp)) id
            (by rw [(hyes rfl).2]; exact h.nonneg)
      | false =>
          have hmem := (hno rfl).2
          exact only (fun q hne hq => hne (h.one q p hq hp))
            (by rw [hmem]; exact h.locked p hp) (by rw [hmem]; exact h.nonneg)
  | @logWrite p bp logged k hphase hfive hrun =>
      have hfree := h.not_waits (acquireLog_free hrun)
      obtain ⟨-, -, hmem⟩ := Prog.ok_of_wp
        (OnMem.logWrite_mem (fun _ => True) (fun _ => trivial) fun _ => trivial) hrun
      have hheld : Held (s.move p (.inOp (insert bp.blockno logged)) k) :=
        nobody (fun q _ => hfree q) id (by
          rw [hmem]
          exact LogHeader.note_nonneg h.nonneg)
      exact ⟨hheld.nonneg, hheld.locked, hheld.one⟩
  | @buffer o _ k ho hrun =>
      have hmem := machine_mem ho s.kernel
      rw [hrun] at hmem
      have hlog : k.mem.log = s.kernel.mem.log := congrArg Mem.log hmem
      obtain ⟨hn, hlocked, hone⟩ := h
      rw [← hlog] at hn hlocked
      exact ⟨hn, hlocked, hone⟩
  | @enter p U doCommit k hphase hrun =>
      have hfree := h.not_waits (acquireLog_free hrun)
      obtain ⟨-, hyes, hno⟩ := Prog.ok_of_wp OnMem.endOpEnter_mem hrun
      cases doCommit with
      | true => exact nobody (fun q _ => hfree q) id (by rw [(hyes rfl).2]; exact h.nonneg)
      | false => exact nobody (fun q _ => hfree q) id (by rw [(hno rfl).2]; exact h.nonneg)
  | @commit p k hphase hrun =>
      have hmem := Prog.ok_of_wp (OnMem.commit_mem (fun _ => False) h.nonneg) hrun
      have hheld : Held (s.move p .committed k) :=
        h.stays id (by rw [hmem]; rfl) (by rw [hmem]; exact le_refl 0)
      exact ⟨hheld.nonneg, hheld.locked, hheld.one⟩
  | @leave p k hphase hrun =>
      have hfree := h.not_waits (acquireLog_free hrun)
      have hmem := Prog.ok_of_wp (OnMem.endOpLeave_mem fun _ => False) hrun
      exact nobody (fun q _ => hfree q) id (by rw [hmem]; exact h.nonneg)

omit [DecidableEq ι] in
theorem of_init {size : ℤ} (h : s.Init size) : Held s := by
  have hidle : ∀ q, ¬ (s.phase q).Waits := by
    intro q
    rw [h.idle q]
    exact id
  exact ⟨h.empty.ge, fun q hq => absurd hq (hidle q), fun q _ hq _ => absurd hq (hidle q)⟩

omit [DecidableEq ι] in
/-- The lock is as it should be while nobody sleeps, and only then. -/
theorem lockRight_iff (h : Held s) : LockRight s ↔ ∀ p, s.phase p ≠ .asleep := by
  constructor
  · intro hright p hp
    have hfree := (hright.asleep p hp).1
    rw [h.locked p (by rw [hp]; trivial)] at hfree
    cases hfree
  · intro hnone
    exact ⟨fun p hp => absurd hp (hnone p), fun p hp => h.locked p (by rw [hp]; trivial)⟩

end Held

/-- Of all calls, only a `begin_op` that has to wait puts a process to sleep. -/
theorem step_waits {s t : Procs ι} {call : Call ι} (hnone : ∀ p, ¬ (s.phase p).Waits)
    (hstep : s.Step call t) : (Admits s call → ∀ p, ¬ (t.phase p).Waits) ∧
      (¬ Admits s call → ∃ p, t.phase p = .asleep) := by
  have hmove : ∀ {p : ι} {x : Phase} (k : Machine), ¬ x.Waits →
      ∀ q, ¬ ((s.move p x k).phase q).Waits := by
    intro p x k hx q
    by_cases hq : q = p
    · subst hq
      rwa [Procs.move_same]
    · rw [Procs.move_ne hq]
      exact hnone q
  cases hstep with
  | @begin p admitted k hphase hrun =>
      obtain ⟨hyes, hno⟩ := Prog.ok_of_wp (OnMem.beginOpFirst_mem fun _ => False) hrun
      cases admitted with
      | true => exact ⟨fun _ => hmove k id, fun h => absurd (hyes rfl).1 h⟩
      | false => exact ⟨fun h => absurd h (hno rfl).1, fun _ => ⟨p, Procs.move_same⟩⟩
  | @wake p hphase => exact absurd (by rw [hphase]; trivial) (hnone p)
  | @retry p admitted k hphase hrun => exact absurd (by rw [hphase]; trivial) (hnone p)
  | @logWrite _ _ _ k | @commit _ k | @leave _ k =>
      exact ⟨fun _ => hmove k id, fun h => absurd trivial h⟩
  | buffer => exact ⟨fun _ => hnone, fun h => absurd trivial h⟩
  | @enter p U doCommit k hphase hrun =>
      exact ⟨fun _ => hmove k (by cases doCommit <;> exact id), fun h => absurd trivial h⟩

/-! ## When the lock is as it should be -/

/-- As long as no `begin_op` has had to wait, nobody sleeps; and the first `begin_op` that has
to wait sleeps with the lock held. -/
theorem sleeps_with_lock {size : ℤ} {s : Procs ι}
    (h : ((procs ι size).restrict Admits).Reachable s) :
    LockRight s ∧ ∀ call t, s.Step call t → (LockRight t ↔ Admits s call) := by
  have hnone : ∀ p, ¬ (s.phase p).Waits := by
    induction h with
    | init h => intro p hp; rw [h.idle p] at hp; exact hp
    | step _ hstep ih => exact (step_waits ih hstep.2).1 hstep.1
  have hheld : Held s := h.of_restrict.invariant (fun _ => Held.of_init) fun _ _ _ hs => hs.step
  have hright : ∀ {u : Procs ι}, Held u → (∀ p, ¬ (u.phase p).Waits) → LockRight u :=
    fun hu hnone => hu.lockRight_iff.mpr fun p hp => hnone p (by rw [hp]; trivial)
  refine ⟨hright hheld hnone, fun call t hstep => ⟨fun ht => ?_, fun hadmits => ?_⟩⟩
  · by_contra hwaits
    obtain ⟨p, hp⟩ := (step_waits hnone hstep).2 hwaits
    exact (hheld.step hstep).lockRight_iff.mp ht p hp
  · exact hright (hheld.step hstep) ((step_waits hnone hstep).1 hadmits)

/-- Two processes and an empty log of ten blocks. -/
def twoProcs : Procs (Fin 2) where
  kernel := { mem := { log := { size := 10 } } }
  phase _ := .idle
  since := ∅

theorem twoProcs_init : twoProcs.Init 10 := ⟨rfl, rfl, rfl, rfl, fun _ => rfl, rfl⟩

/-- The first `begin_op` on a log of ten blocks need not wait; afterwards the lock is free. -/
theorem sleeps_with_lock_first : ∃ s : Procs (Fin 2),
    ((procs (Fin 2) 10).restrict Admits).Reachable s ∧ s.phase 0 = .inOp ∅ ∧ LockRight s := by
  have hrun : (acquireLog >>= fun _ => beginOpTry).run machine twoProcs.kernel =
    .ok (true, _) := rfl
  have hadmits : Admits twoProcs (.begin 0) := by
    change twoProcs.kernel.mem.log.admits
    decide
  have hfirst : ((procs (Fin 2) 10).restrict Admits).Reachable _ :=
    (System.Reachable.init twoProcs_init).step ⟨hadmits, .begin (p := 0) rfl hrun⟩
  exact ⟨_, hfirst, Procs.move_same, (sleeps_with_lock hfirst).1⟩

/-- Two processes on a log of ten blocks: while the first one is in its operation, the second
one has to wait, and sleeps with the lock held.  The first one's `end_op`, which alone could
let it go on, spins in `acquire_log` for ever. -/
theorem sleeper_keeps_lock : ∃ s : Procs (Fin 2), (procs (Fin 2) 10).Reachable s ∧
    s.phase 0 = .inOp ∅ ∧ s.phase 1 = .asleep ∧ s.kernel.mem.log.lock = true ∧
    endOpEnter.run machine s.kernel = .error .hang ∧ ¬ LockRight s := by
  let first : Machine := { mem := { log := { size := 10, outstanding := 1 } } }
  have hrun : (acquireLog >>= fun _ => beginOpTry).run machine twoProcs.kernel =
    .ok (true, first) := rfl
  have hwait : (acquireLog >>= fun _ => beginOpTry).run machine first = .ok (false, _) := rfl
  have hfirst : (procs (Fin 2) 10).Reachable (twoProcs.move 0 (.inOp ∅) first) :=
    (System.Reachable.init twoProcs_init).step (.begin (p := 0) rfl hrun)
  have hsecond := hfirst.step (.begin (p := 1) rfl hwait)
  exact ⟨_, hsecond, rfl, rfl, rfl, rfl, fun h => nomatch (h.asleep 1 rfl).1⟩

end RiscvOs.Reservation
