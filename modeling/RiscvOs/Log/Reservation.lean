import RiscvOs.Lib.System
import RiscvOs.Log.OnMem
import Mathlib.Algebra.BigOperators.Ring.Finset
import Mathlib.Algebra.Order.BigOperators.Group.Finset

/-!
# The log reservation

Any number of processes run `begin_op`, at most five `log_write`s and `end_op` in
any interleaving of their calls on the real machine.  The calls of `end_op` are
split where it releases the lock, so that other processes run before, during and
after its commit.

Admission counts operations, not blocks.  The invariant `Reserved` therefore gives
every operation in progress a credit, the blocks it may still log, and says that
the entries and all credits fit together into the log.
-/

namespace RiscvOs.Reservation

open Effect Bio

/-- Where a process stands in its cycle of `begin_op`, `log_write`s and `end_op`. -/
inductive Phase
  | idle
  /-- In `sleep` inside `begin_op`. -/
  | asleep
  /-- Woken up, about to run the test of `begin_op` again. -/
  | woken
  /-- Between `begin_op` and `end_op`, having logged these blocks. -/
  | inOp (logged : Finset ℕ)
  /-- In `end_op` with `do_commit` set, about to call `commit`. -/
  | committing
  /-- In `end_op`, after its call of `commit`. -/
  | committed

/-- The kernel, what each process is doing, and the blocks logged since the last commit. -/
structure Procs (ι : Type) where
  kernel : Machine
  phase : ι → Phase
  since : Finset ℕ

/-- The calls that are interleaved. -/
inductive Call (ι : Type)
  | begin (p : ι)
  | wake (p : ι)
  | retry (p : ι)
  | logWrite (p : ι) (bp : BufRef)
  | buffer (o : KOp)
  | enter (p : ι)
  | commit (p : ι)
  | leave (p : ι)

variable {ι : Type} [DecidableEq ι]

namespace Procs

/-- Process `p` moves on, and the kernel with it. -/
def move (s : Procs ι) (p : ι) (x : Phase) (k : Machine) : Procs ι :=
  { s with kernel := k, phase := Function.update s.phase p x }

/-- One call of one process.  A process that spins on the lock makes no step. -/
inductive Step (s : Procs ι) : Call ι → Procs ι → Prop
  /-- `begin_op` up to its first test. -/
  | begin {p : ι} {admitted : Bool} {k : Machine} (hphase : s.phase p = .idle)
      (hrun : (acquireLog >>= fun _ => beginOpTry).run machine s.kernel = .ok (admitted, k)) :
      Step s (.begin p) (s.move p (if admitted then .inOp ∅ else .asleep) k)
  /-- `wakeup` or `kill` makes a sleeping process runnable. -/
  | wake {p : ι} (hphase : s.phase p = .asleep) : Step s (.wake p) (s.move p .woken s.kernel)
  /-- The loop of `begin_op` tests again. -/
  | retry {p : ι} {admitted : Bool} {k : Machine} (hphase : s.phase p = .woken)
      (hrun : beginOpTry.run machine s.kernel = .ok (admitted, k)) :
      Step s (.retry p) (s.move p (if admitted then .inOp ∅ else .asleep) k)
  /-- `log_write`; an operation logs at most five blocks. -/
  | logWrite {p : ι} {bp : BufRef} {logged : Finset ℕ} {k : Machine}
      (hphase : s.phase p = .inOp logged) (hfive : (insert bp.blockno logged).card ≤ 5)
      (hrun : (RiscvOs.logWrite bp).run machine s.kernel = .ok ((), k)) :
      Step s (.logWrite p bp)
        { s.move p (.inOp (insert bp.blockno logged)) k with
          since := insert bp.blockno s.since }
  /-- Any buffer call of any process. -/
  | buffer {o : KOp} {answer : KOp.Ans o} {k : Machine} (ho : o.OnBuffer)
      (hrun : machine o s.kernel = .ok (answer, k)) : Step s (.buffer o) { s with kernel := k }
  /-- `end_op` up to its first `release_log`. -/
  | enter {p : ι} {logged : Finset ℕ} {doCommit : Bool} {k : Machine}
      (hphase : s.phase p = .inOp logged)
      (hrun : endOpEnter.run machine s.kernel = .ok (doCommit, k)) :
      Step s (.enter p) (s.move p (if doCommit then .committing else .idle) k)
  | commit {p : ι} {k : Machine} (hphase : s.phase p = .committing)
      (hrun : RiscvOs.commit.run machine s.kernel = .ok ((), k)) :
      Step s (.commit p) { s.move p .committed k with since := ∅ }
  /-- The rest of `end_op`. -/
  | leave {p : ι} {k : Machine} (hphase : s.phase p = .committed)
      (hrun : endOpLeave.run machine s.kernel = .ok ((), k)) :
      Step s (.leave p) (s.move p .idle k)

/-- An empty log of `size` blocks and nobody using it. -/
structure Init (size : ℤ) (s : Procs ι) : Prop where
  length : s.kernel.mem.log.size = size
  empty : s.kernel.mem.log.lh.n = 0
  outstanding : s.kernel.mem.log.outstanding = 0
  committing : s.kernel.mem.log.committing = false
  idle : ∀ p, s.phase p = .idle
  since : s.since = ∅

end Procs

/-- The processes on a log of `size` blocks. -/
def procs (ι : Type) [DecidableEq ι] (size : ℤ) : System (Procs ι) (Call ι) :=
  ⟨Procs.Init size, Procs.Step⟩

/-! ## Credits -/

/-- The blocks an operation may still log. -/
def Phase.credit : Phase → ℤ
  | inOp logged => 5 - logged.card
  | _ => 0

/-- `1` between `begin_op` and `end_op`. -/
def Phase.active : Phase → ℤ
  | inOp _ => 1
  | _ => 0

/-- In the part of `end_op` that commits. -/
def Phase.InCommit : Phase → Prop
  | committing | committed => True
  | _ => False

theorem Phase.credit_idle : idle.credit = 0 := rfl

theorem Phase.credit_inOp (logged : Finset ℕ) : (inOp logged).credit = 5 - logged.card := rfl

theorem Phase.active_inOp (logged : Finset ℕ) : (inOp logged).active = 1 := rfl

theorem Phase.active_nonneg (x : Phase) : 0 ≤ x.active := by
  cases x <;> simp [active]

theorem Phase.active_of_zero {x : Phase} (h : x.active = 0) (logged : Finset ℕ) :
    x ≠ .inOp logged := by
  rintro rfl
  simp [active] at h

/-- In none of the two. -/
structure Phase.Outside (x : Phase) : Prop where
  credit : x.credit = 0
  active : x.active = 0
  not_inCommit : ¬ x.InCommit

theorem Procs.move_same {s : Procs ι} {p : ι} {x : Phase} {k : Machine} :
    (s.move p x k).phase p = x := Function.update_self ..

theorem Procs.move_ne {s : Procs ι} {p q : ι} {x : Phase} {k : Machine} (h : q ≠ p) :
    (s.move p x k).phase q = s.phase q := Function.update_of_ne h ..

variable [Fintype ι]

theorem sum_move {s : Procs ι} (f : Phase → ℤ) (p : ι) (x : Phase) (k : Machine) :
    ∑ q, f ((s.move p x k).phase q) = ∑ q, f (s.phase q) - f (s.phase p) + f x := by
  have hcomp : (fun q => f ((s.move p x k).phase q)) =
      Function.update (fun q => f (s.phase q)) p (f x) := by
    funext q
    by_cases hq : q = p
    · subst hq; simp [Procs.move]
    · simp [Procs.move, hq]
  have hsum := Finset.sum_update_of_mem (Finset.mem_univ p) (fun q => f (s.phase q)) (f x)
  have herase := Finset.add_sum_erase Finset.univ (fun q => f (s.phase q)) (Finset.mem_univ p)
  rw [hcomp, hsum, Finset.sdiff_singleton_eq_erase]
  omega

/-! ## The invariant -/

/-- Entries and credits fit into the log, and a commit runs alone. -/
structure Reserved (size : ℤ) (s : Procs ι) : Prop where
  length : s.kernel.mem.log.size = size
  nonneg : 0 ≤ s.kernel.mem.log.lh.n
  distinct : s.kernel.mem.log.lh.Distinct
  entries : s.kernel.mem.log.lh.entries = s.since
  fits : s.kernel.mem.log.lh.n + ∑ p, (s.phase p).credit ≤ size - 5
  outstanding : s.kernel.mem.log.outstanding = ∑ p, (s.phase p).active
  logged : ∀ p U, s.phase p = .inOp U → U ⊆ s.since ∧ U.card ≤ 5
  alone : ∀ p, (s.phase p).InCommit → s.kernel.mem.log.committing = true ∧
    ∀ q, (s.phase q).active = 0 ∧ ((s.phase q).InCommit → q = p)

namespace Reserved

variable {size : ℤ} {s : Procs ι} {p : ι}

omit [DecidableEq ι] in
theorem credit_nonneg (h : Reserved size s) (q : ι) : 0 ≤ (s.phase q).credit := by
  cases hq : s.phase q with
  | inOp U =>
      have := (h.logged q U hq).2
      simp only [Phase.credit]
      omega
  | _ => exact le_refl 0

omit [DecidableEq ι] in
/-- The header never takes more than `size - 5` entries. -/
theorem count_le (h : Reserved size s) : s.kernel.mem.log.lh.n ≤ size - 5 := by
  have hcredit : 0 ≤ ∑ q, (s.phase q).credit := Finset.sum_nonneg fun q _ => h.credit_nonneg q
  have := h.fits
  omega

omit [DecidableEq ι] in
/-- What operations may still log is covered by what they were admitted for. -/
theorem credit_le (h : Reserved size s) :
    ∑ q, (s.phase q).credit ≤ 5 * s.kernel.mem.log.outstanding := by
  rw [h.outstanding, Finset.mul_sum]
  refine Finset.sum_le_sum fun q _ => ?_
  cases s.phase q <;> simp [Phase.credit, Phase.active]

omit [DecidableEq ι] in
/-- While no commit is under way nobody is in the part of `end_op` that commits. -/
theorem not_inCommit (h : Reserved size s) (hflag : s.kernel.mem.log.committing = false) (q : ι) :
    ¬ (s.phase q).InCommit := fun hq => by
  rw [(h.alone q hq).1] at hflag
  cases hflag

/-! ## Every step keeps the invariant -/

variable {x : Phase} {k : Machine} {bp : BufRef} {U : Finset ℕ}

omit [DecidableEq ι] in
theorem of_log_eq (h : Reserved size s) (hk : k.mem.log = s.kernel.mem.log) :
    Reserved size { s with kernel := k } := by
  obtain ⟨h1, h2, h3, h4, h5, h6, h7, h8⟩ := h
  rw [← hk] at h1 h2 h3 h4 h5 h6 h8
  exact ⟨h1, h2, h3, h4, h5, h6, h7, h8⟩

/-- A process outside any operation moves on, and only the lock changes. -/
theorem keep (h : Reserved size s) (hp : (s.phase p).Outside) (hx : x.Outside) {v : Bool}
    (hk : k.mem.log = { s.kernel.mem.log with lock := v }) : Reserved size (s.move p x k) where
  length := by rw [Procs.move, hk]; exact h.length
  nonneg := by rw [Procs.move, hk]; exact h.nonneg
  distinct := by rw [Procs.move, hk]; exact h.distinct
  entries := by rw [Procs.move, hk]; exact h.entries
  fits := by
    rw [sum_move Phase.credit, hp.credit, hx.credit, Procs.move, hk]
    have := h.fits
    simp only
    omega
  outstanding := by
    rw [sum_move Phase.active, hp.active, hx.active, Procs.move, hk]
    have := h.outstanding
    simp only
    omega
  logged q V hq := by
    by_cases heq : q = p
    · subst heq
      rw [Procs.move_same] at hq
      exact absurd hq (Phase.active_of_zero hx.active V)
    · rw [Procs.move_ne heq] at hq
      exact h.logged q V hq
  alone q hq := by
    have hne : ∀ {r}, ((s.move p x k).phase r).InCommit → r ≠ p := fun hr heq => by
      subst heq
      rw [Procs.move_same] at hr
      exact hx.not_inCommit hr
    rw [Procs.move_ne (hne hq)] at hq
    obtain ⟨hflag, hall⟩ := h.alone q hq
    refine ⟨by rw [Procs.move, hk]; exact hflag, fun r => ?_⟩
    by_cases heq : r = p
    · subst heq
      rw [Procs.move_same]
      exact ⟨hx.active, fun hr => absurd hr hx.not_inCommit⟩
    · rw [Procs.move_ne heq]
      exact hall r

/-- A process is admitted: the test leaves room for all operations to log five blocks. -/
theorem admission (h : Reserved size s) (hp : (s.phase p).Outside) (hadmits : s.kernel.mem.log.admits)
    {v : Bool} (hk : k.mem.log = { s.kernel.mem.log with
      outstanding := s.kernel.mem.log.outstanding + 1, lock := v }) :
    Reserved size (s.move p (.inOp ∅) k) where
  length := by rw [Procs.move, hk]; exact h.length
  nonneg := by rw [Procs.move, hk]; exact h.nonneg
  distinct := by rw [Procs.move, hk]; exact h.distinct
  entries := by rw [Procs.move, hk]; exact h.entries
  fits := by
    rw [sum_move Phase.credit, hp.credit, Phase.credit_inOp, Finset.card_empty, Procs.move, hk]
    have hcredit := h.credit_le
    have hroom := hadmits.2
    have := h.length
    simp only
    omega
  outstanding := by
    rw [sum_move Phase.active, hp.active, Phase.active_inOp, Procs.move, hk]
    have := h.outstanding
    simp only
    omega
  logged q V hq := by
    by_cases heq : q = p
    · subst heq
      rw [Procs.move_same, Phase.inOp.injEq] at hq
      subst hq
      exact ⟨Finset.empty_subset _, by simp⟩
    · rw [Procs.move_ne heq] at hq
      exact h.logged q V hq
  alone q hq := by
    by_cases heq : q = p
    · subst heq
      rw [Procs.move_same] at hq
      exact hq.elim
    · rw [Procs.move_ne heq] at hq
      exact absurd hq (h.not_inCommit hadmits.1 q)

/-- `log_write` uses a credit for a block that is new in the log. -/
theorem logWrite (h : Reserved size s) (hmax : size ≤ 35) (hp : s.phase p = .inOp U)
    (hfive : (insert bp.blockno U).card ≤ 5)
    (hk : k.mem.log = s.kernel.mem.log.note bp.blockno) :
    Reserved size { s.move p (.inOp (insert bp.blockno U)) k with
      since := insert bp.blockno s.since } := by
  have hlen : s.kernel.mem.log.lh.n ≤ loglen := by
    have := h.count_le
    have : (loglen : ℤ) = 30 := rfl
    omega
  obtain ⟨hnonneg, hdistinct, hentries⟩ := LogHeader.note_spec (b := bp.blockno) hlen h.nonneg
    h.distinct
  rw [h.entries] at hentries
  have hcount : (s.kernel.mem.log.lh.note bp.blockno).n - s.kernel.mem.log.lh.n ≤
      (insert bp.blockno U).card - U.card := by
    have hold := h.distinct.card_entries
    have hnew := hdistinct.card_entries
    rw [h.entries] at hold
    rw [hentries] at hnew
    have hn := h.nonneg
    by_cases hU : bp.blockno ∈ U
    · have hsince := (h.logged p U hp).1 hU
      rw [Finset.insert_eq_of_mem hU]
      rw [Finset.insert_eq_of_mem hsince] at hnew
      omega
    · have := Finset.card_insert_le bp.blockno s.since
      rw [Finset.card_insert_of_notMem hU]
      omega
  exact
    { length := (congrArg Log.size hk).trans h.length
      nonneg := by change 0 ≤ k.mem.log.lh.n; rw [hk]; exact hnonneg
      distinct := by change k.mem.log.lh.Distinct; rw [hk]; exact hdistinct
      entries := (congrArg (fun log => log.lh.entries) hk).trans hentries
      fits := by
        have hfits := h.fits
        change k.mem.log.lh.n + ∑ q, ((s.move p (.inOp _) k).phase q).credit ≤ size - 5
        rw [sum_move Phase.credit, hp, Phase.credit_inOp, Phase.credit_inOp, hk, Log.note]
        simp only
        omega
      outstanding := by
        change k.mem.log.outstanding = ∑ q, ((s.move p (.inOp _) k).phase q).active
        rw [sum_move Phase.active, hp, Phase.active_inOp, Phase.active_inOp, hk, ← h.outstanding,
          Log.note]
        simp only
        omega
      logged := fun q V hq => by
        by_cases heq : q = p
        · subst heq
          rw [Procs.move_same, Phase.inOp.injEq] at hq
          subst hq
          exact ⟨Finset.insert_subset_insert _ (h.logged q U hp).1, hfive⟩
        · rw [Procs.move_ne heq] at hq
          obtain ⟨hsub, hcard⟩ := h.logged q V hq
          exact ⟨hsub.trans (Finset.subset_insert _ _), hcard⟩
      alone := fun q hq => by
        by_cases heq : q = p
        · subst heq
          rw [Procs.move_same] at hq
          exact hq.elim
        · rw [Procs.move_ne heq] at hq
          have hactive := ((h.alone q hq).2 p).1
          rw [hp] at hactive
          cases hactive }

/-- `end_op` of an operation that others outlive. -/
theorem enter_idle (h : Reserved size s) (hp : s.phase p = .inOp U)
    (hflag : s.kernel.mem.log.committing = false) (hk : k.mem.log = { s.kernel.mem.log with
      outstanding := s.kernel.mem.log.outstanding - 1 }) : Reserved size (s.move p .idle k) where
  length := by rw [Procs.move, hk]; exact h.length
  nonneg := by rw [Procs.move, hk]; exact h.nonneg
  distinct := by rw [Procs.move, hk]; exact h.distinct
  entries := by rw [Procs.move, hk]; exact h.entries
  fits := by
    have hcredit := h.credit_nonneg p
    have := h.fits
    rw [sum_move Phase.credit, Phase.credit_idle, Procs.move, hk]
    simp only
    omega
  outstanding := by
    rw [sum_move Phase.active, hp, Phase.active_inOp, Procs.move, hk, ← h.outstanding]
    simp only [Phase.active]
    omega
  logged q V hq := by
    by_cases heq : q = p
    · subst heq
      rw [Procs.move_same] at hq
      cases hq
    · rw [Procs.move_ne heq] at hq
      exact h.logged q V hq
  alone q hq := by
    by_cases heq : q = p
    · subst heq
      rw [Procs.move_same] at hq
      exact hq.elim
    · rw [Procs.move_ne heq] at hq
      exact absurd hq (h.not_inCommit hflag q)

/-- `end_op` of the last operation: nobody is in an operation any more. -/
theorem enter_commit (h : Reserved size s) (hp : s.phase p = .inOp U)
    (hflag : s.kernel.mem.log.committing = false) (hout : s.kernel.mem.log.outstanding = 1)
    (hk : k.mem.log = { s.kernel.mem.log with outstanding := 0, committing := true }) :
    Reserved size (s.move p .committing k) := by
  have hothers : ∀ q, q ≠ p → (s.phase q).active = 0 := by
    have hsum := Finset.add_sum_erase Finset.univ (fun q => (s.phase q).active) (Finset.mem_univ p)
    rw [← h.outstanding, hout, hp, Phase.active_inOp] at hsum
    have hzero : ∑ q ∈ Finset.univ.erase p, (s.phase q).active = 0 := by omega
    rw [Finset.sum_eq_zero_iff_of_nonneg fun q _ => (s.phase q).active_nonneg] at hzero
    exact fun q hq => hzero q (Finset.mem_erase.mpr ⟨hq, Finset.mem_univ q⟩)
  exact
    { length := by rw [Procs.move, hk]; exact h.length
      nonneg := by rw [Procs.move, hk]; exact h.nonneg
      distinct := by rw [Procs.move, hk]; exact h.distinct
      entries := by rw [Procs.move, hk]; exact h.entries
      fits := by
        have hcredit := h.credit_nonneg p
        have := h.fits
        rw [sum_move Phase.credit, show Phase.committing.credit = 0 from rfl, Procs.move, hk]
        simp only
        omega
      outstanding := by
        rw [sum_move Phase.active, hp, Phase.active_inOp, Procs.move, hk, ← h.outstanding, hout]
        rfl
      logged := fun q V hq => by
        by_cases heq : q = p
        · subst heq
          rw [Procs.move_same] at hq
          cases hq
        · rw [Procs.move_ne heq] at hq
          exact h.logged q V hq
      alone := fun q hq => by
        refine ⟨by rw [Procs.move, hk], fun r => ?_⟩
        have honly : ∀ {r}, ((s.move p .committing k).phase r).InCommit → r = p := fun {r} hr => by
          by_contra hne
          rw [Procs.move_ne hne] at hr
          exact h.not_inCommit hflag r hr
        refine ⟨?_, fun hr => (honly hr).trans (honly hq).symm⟩
        by_cases heq : r = p
        · rw [heq, Procs.move_same]; rfl
        · rw [Procs.move_ne heq]; exact hothers r heq }

/-- The commit starts the log afresh. -/
theorem commit (h : Reserved size s) (hsize : 10 ≤ size) (hp : s.phase p = .committing)
    (hk : k.mem.log = s.kernel.mem.log.clear) :
    Reserved size { s.move p .committed k with since := ∅ } := by
  obtain ⟨hflag, hall⟩ := h.alone p (by rw [hp]; trivial)
  have hquiet : ∀ q, ((s.move p .committed k).phase q).active = 0 := fun q => by
    by_cases heq : q = p
    · rw [heq, Procs.move_same]; rfl
    · rw [Procs.move_ne heq]; exact (hall q).1
  have hempty : k.mem.log.lh.n = 0 := by rw [hk, Log.clear]
  exact
    { length := (congrArg Log.size hk).trans h.length
      nonneg := hempty.ge
      distinct := fun j hj => absurd hj (by
        change ¬ j < k.mem.log.lh.n.toNat
        omega)
      entries := LogHeader.entries_of_empty hempty
      fits := by
        have hcredit : ∑ q, ((s.move p .committed k).phase q).credit = 0 :=
          Finset.sum_eq_zero fun q _ => by
            cases hq : (s.move p .committed k).phase q with
            | inOp V => exact absurd hq (Phase.active_of_zero (hquiet q) V)
            | _ => rfl
        change k.mem.log.lh.n + ∑ q, ((s.move p .committed k).phase q).credit ≤ size - 5
        rw [hcredit, hempty]
        omega
      outstanding := by
        have hsum : ∑ q, (s.phase q).active = 0 := Finset.sum_eq_zero fun q _ => (hall q).1
        change k.mem.log.outstanding = ∑ q, ((s.move p .committed k).phase q).active
        rw [Finset.sum_eq_zero fun q _ => hquiet q, hk, Log.clear, h.outstanding, hsum]
      logged := fun q V hq => absurd hq (Phase.active_of_zero (hquiet q) V)
      alone := fun q hq => by
        have honly : ∀ {r}, ((s.move p .committed k).phase r).InCommit → r = p := fun {r} hr => by
          by_contra hne
          rw [Procs.move_ne hne] at hr
          exact hne ((hall r).2 hr)
        refine ⟨(congrArg Log.committing hk).trans hflag, fun r => ⟨hquiet r, fun hr => ?_⟩⟩
        exact (honly hr).trans (honly hq).symm }

/-- `end_op` returns, and operations may start again. -/
theorem leave (h : Reserved size s) (hp : s.phase p = .committed)
    (hk : k.mem.log = { s.kernel.mem.log with committing := false }) :
    Reserved size (s.move p .idle k) where
  length := by rw [Procs.move, hk]; exact h.length
  nonneg := by rw [Procs.move, hk]; exact h.nonneg
  distinct := by rw [Procs.move, hk]; exact h.distinct
  entries := by rw [Procs.move, hk]; exact h.entries
  fits := by
    rw [sum_move Phase.credit, hp, Procs.move, hk]
    have := h.fits
    simp only [Phase.credit] at this ⊢
    omega
  outstanding := by
    rw [sum_move Phase.active, hp, Procs.move, hk]
    have := h.outstanding
    simp only [Phase.active] at this ⊢
    omega
  logged q V hq := by
    by_cases heq : q = p
    · subst heq
      rw [Procs.move_same] at hq
      cases hq
    · rw [Procs.move_ne heq] at hq
      exact h.logged q V hq
  alone q hq := by
    by_cases heq : q = p
    · subst heq
      rw [Procs.move_same] at hq
      exact hq.elim
    · rw [Procs.move_ne heq] at hq
      exact absurd (((h.alone p (by rw [hp]; trivial)).2 q).2 hq) heq

/-- A call that takes one test of `begin_op` keeps the invariant either way. -/
private theorem test (h : Reserved size s) (hp : (s.phase p).Outside) {admitted : Bool}
    (hyes : admitted = true → s.kernel.mem.log.admits ∧ ∃ v, k.mem.log =
      { s.kernel.mem.log with outstanding := s.kernel.mem.log.outstanding + 1, lock := v })
    (hno : admitted = false → ∃ v, k.mem.log = { s.kernel.mem.log with lock := v }) :
    Reserved size (s.move p (if admitted then .inOp ∅ else .asleep) k) := by
  cases admitted with
  | true =>
      obtain ⟨hadmits, v, hk⟩ := hyes rfl
      exact h.admission hp hadmits hk
  | false =>
      obtain ⟨v, hk⟩ := hno rfl
      exact h.keep hp ⟨rfl, rfl, id⟩ hk

/-- One call of one process keeps the invariant. -/
theorem step (hsize : 10 ≤ size) (hmax : size ≤ 35) (h : Reserved size s) {call : Call ι}
    {t : Procs ι} (hstep : s.Step call t) : Reserved size t := by
  cases hstep with
  | begin hphase hrun =>
      obtain ⟨hyes, hno⟩ :=
        Prog.ok_of_wp (OnMem.beginOpFirst_mem fun _ => False) hrun
      refine h.test (by rw [hphase]; exact ⟨rfl, rfl, id⟩) (fun ha => ?_) fun ha => ?_
      · obtain ⟨hadmits, hmem⟩ := hyes ha
        exact ⟨hadmits, _, congrArg Mem.log hmem⟩
      · exact ⟨true, congrArg Mem.log (hno ha).2⟩
  | wake hphase => exact h.keep (by rw [hphase]; exact ⟨rfl, rfl, id⟩) ⟨rfl, rfl, id⟩ rfl
  | retry hphase hrun =>
      obtain ⟨hyes, hno⟩ := Prog.ok_of_wp (OnMem.beginOpTry_mem fun _ => False) hrun
      refine h.test (by rw [hphase]; exact ⟨rfl, rfl, id⟩) (fun ha => ?_) fun ha => ?_
      · obtain ⟨hadmits, hmem⟩ := hyes ha
        exact ⟨hadmits, _, congrArg Mem.log hmem⟩
      · exact ⟨s.kernel.mem.log.lock, congrArg Mem.log (hno ha).2⟩
  | logWrite hphase hfive hrun =>
      obtain ⟨-, -, hmem⟩ := Prog.ok_of_wp
        (OnMem.logWrite_mem (fun _ => True) (fun _ => trivial) fun _ => trivial) hrun
      exact h.logWrite hmax hphase hfive (congrArg Mem.log hmem)
  | @buffer o _ _ ho hrun =>
      have hmem := machine_mem ho s.kernel
      rw [hrun] at hmem
      exact h.of_log_eq (congrArg Mem.log hmem)
  | @enter p U doCommit k hphase hrun =>
      obtain ⟨hflag, hyes, hno⟩ := Prog.ok_of_wp OnMem.endOpEnter_mem hrun
      cases doCommit with
      | true =>
          obtain ⟨hout, hmem⟩ := hyes rfl
          exact h.enter_commit hphase hflag hout (congrArg Mem.log hmem)
      | false => exact h.enter_idle hphase hflag (congrArg Mem.log (hno rfl).2)
  | commit hphase hrun =>
      have hmem := Prog.ok_of_wp (OnMem.commit_mem (fun _ => False) h.nonneg) hrun
      exact h.commit hsize hphase (congrArg Mem.log hmem)
  | leave hphase hrun =>
      have hmem := Prog.ok_of_wp (OnMem.endOpLeave_mem fun _ => False) hrun
      exact h.leave hphase (congrArg Mem.log hmem)

omit [DecidableEq ι] in
theorem of_init (hsize : 10 ≤ size) (h : s.Init size) : Reserved size s := by
  have hphase : ∀ f : Phase → ℤ, f .idle = 0 → ∑ q, f (s.phase q) = 0 := fun f hf =>
    Finset.sum_eq_zero fun q _ => by rw [h.idle q, hf]
  refine ⟨h.length, h.empty.ge, fun j hj => ?_, ?_, ?_, ?_, fun q V hq => ?_, fun q hq => ?_⟩
  · rw [h.empty] at hj
    cases hj
  · rw [LogHeader.entries_of_empty h.empty, h.since]
  · rw [hphase Phase.credit rfl, h.empty]
    omega
  · rw [hphase Phase.active rfl, h.outstanding]
  · rw [h.idle q] at hq
    cases hq
  · rw [h.idle q] at hq
    exact hq.elim

end Reserved

/-! ## The reservation is sound -/

/-- In every reachable state the entries leave the last five blocks of the log alone, so
`log_write` never finds the log too big; they are distinct and cover every block logged since
the last commit; and no process is inside an operation when a commit is about to run. -/
theorem reservation_sound {size : ℤ} (hsize : 10 ≤ size) (hmax : size ≤ 35) {s : Procs ι}
    (h : (procs ι size).Reachable s) :
    s.kernel.mem.log.lh.n ≤ s.kernel.mem.log.size - 5 ∧
    (∀ p logged, s.phase p = .inOp logged → ∀ bp : BufRef, (insert bp.blockno logged).card ≤ 5 →
      (logWrite bp).run machine s.kernel ≠ .error (.panic "log: too big")) ∧
    (∀ j k : ℕ, (j : ℤ) < s.kernel.mem.log.lh.n → (k : ℤ) < s.kernel.mem.log.lh.n →
      s.kernel.mem.log.lh.block j = s.kernel.mem.log.lh.block k → j = k) ∧
    (∀ b ∈ s.since, ∃ j : ℕ, (j : ℤ) < s.kernel.mem.log.lh.n ∧
      s.kernel.mem.log.lh.block j = b) ∧
    ∀ p, s.phase p = .committing → ∀ q logged, s.phase q ≠ .inOp logged := by
  have hinv : Reserved size s := h.invariant (fun _ => Reserved.of_init hsize)
    fun _ _ _ hs hstep => hs.step hsize hmax hstep
  have hcount := hinv.count_le
  rw [← hinv.length] at hcount
  refine ⟨hcount, fun p logged hp bp hfive hrun => ?_, fun j k hj hk heq => ?_, fun b hb => ?_,
    fun p hp q logged => ?_⟩
  · have herr := Prog.err_of_wp
      (OnMem.logWrite_mem (fun e => e = .panic "log: outside of trans") (fun hbig => by omega)
        fun _ => rfl) hrun
    rcases herr with (h | h | h) | h <;> simp at h
  · rcases Nat.lt_trichotomy j k with hlt | rfl | hgt
    · exact absurd heq.symm (hinv.distinct k (by omega) j hlt)
    · rfl
    · exact absurd heq (hinv.distinct j (by omega) k hgt)
  · rw [← hinv.entries, LogHeader.mem_entries] at hb
    obtain ⟨j, hj, hb⟩ := hb
    exact ⟨j, by omega, hb⟩
  · exact Phase.active_of_zero ((hinv.alone p (by rw [hp]; trivial)).2 q).1 logged

/-- One of two processes has been admitted and has logged block 100, on a log of ten blocks. -/
theorem reservation_sound_two : ∃ s : Procs (Fin 2), (procs (Fin 2) 10).Reachable s ∧
    100 ∈ s.since ∧ s.kernel.mem.log.lh.n ≤ s.kernel.mem.log.size - 5 := by
  let s : Procs (Fin 2) :=
    { kernel := { mem := { log := { size := 10 } }, ptr := fun _ => some 0 }
      phase := fun _ => .idle
      since := ∅ }
  have hinit : (procs (Fin 2) 10).Reachable s :=
    .init ⟨rfl, rfl, rfl, rfl, fun _ => rfl, rfl⟩
  have hadmitted : (acquireLog >>= fun _ => beginOpTry).run machine s.kernel = .ok (true, _) := rfl
  have hbegin := hinit.step (.begin (rfl : s.phase 0 = .idle) hadmitted)
  have hfive : (insert (BufRef.mk 0 100).blockno (∅ : Finset ℕ)).card ≤ 5 := by decide
  have hwrite := hbegin.step (.logWrite Procs.move_same hfive rfl)
  exact ⟨_, hwrite, Finset.mem_insert_self _ _,
    (reservation_sound (by decide) (by decide) hwrite).1⟩

end RiscvOs.Reservation
