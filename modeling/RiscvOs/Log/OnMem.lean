import RiscvOs.Log.Entries
import RiscvOs.Bio.Frame

/-!
# What the calls of the log do to `log`

The calls of `Log/Model.lean` on the real machine, as far as the static data goes:
only `log` changes, and a commit only clears the count of entries.
-/

namespace RiscvOs

open Effect Bio Kern OnMem

/-- Assign to fields of `log`. -/
def Mem.setLog (m : Mem) (f : Log → Log) : Mem := { m with log := f m.log }

@[simp] theorem Mem.setLog_log (m : Mem) (f : Log → Log) : (m.setLog f).log = f m.log := rfl

theorem Mem.setLog_setLog (m : Mem) (f g : Log → Log) :
    (m.setLog f).setLog g = m.setLog fun log => g (f log) := rfl

theorem Mem.setLog_eq_self {m : Mem} {f : Log → Log} (h : f m.log = m.log) : m.setLog f = m := by
  rw [setLog, h]

namespace OnMem

section
variable {err : Stop → Prop} {α : Type} {Q : α → Machine → Prop} {Q' : Unit → Machine → Prop}
  {s : Machine}

theorem wp_getLog {f : Log → Kern α} :
    (getLog >>= f).wp (memRules err) Q s ↔ (f s.mem.log).wp (memRules err) Q s := by
  rw [getLog, bind_assoc, wp_get]
  rfl

theorem wp_modifyLog {g : Log → Log} {f : Unit → Kern α} :
    (modifyLog g >>= f).wp (memRules err) Q s ↔
      (f ()).wp (memRules err) Q { s with mem := s.mem.setLog g } := wp_modify

theorem wp_modifyLog_last {g : Log → Log} :
    (modifyLog g).wp (memRules err) Q' s ↔ Q' () { s with mem := s.mem.setLog g } := by
  rw [← Prog.bind_ret (modifyLog g), wp_modifyLog, wp_done]

/-- `acquire_log` spins for ever when the lock is taken. -/
theorem wp_acquireLog {f : Unit → Kern α} (h : s.mem.log.lock = false → (f ()).wp (memRules err) Q
      { s with mem := s.mem.setLog fun log => { log with lock := true } }) :
    (acquireLog >>= f).wp (memRules err) Q s := by
  rw [acquireLog, bind_assoc, wp_getLog]
  by_cases hlock : s.mem.log.lock = true
  · rw [if_pos hlock, stop_bind]
    exact wp_stop.mpr (.inl (.inr (.inl rfl)))
  · rw [if_neg hlock, wp_modifyLog]
    exact h (Bool.eq_false_of_not_eq_true hlock)

theorem wp_logEntry {i : ℕ} {f : ℕ → Kern α}
    (h : (f (s.mem.log.lh.block i)).wp (memRules err) Q s) :
    (logEntry i >>= f).wp (memRules err) Q s := by
  rw [logEntry, bind_assoc, wp_getLog]
  by_cases hi : i < loglen
  · rw [if_pos hi]; exact h
  · rw [if_neg hi, stop_bind]
    exact wp_stop.mpr (.inl (.inl rfl))

theorem wp_bread {dev b : ℕ} {f : BufRef → Kern α}
    (h : ∀ t, t.mem = s.mem → (f ⟨dev, b⟩).wp (memRules err) Q t) :
    (bread dev b >>= f).wp (memRules err) Q s := wp_buffer (o := .bread dev b) trivial fun _ => h

theorem wp_data {bp : BufRef} {f : Block → Kern α}
    (h : ∀ d t, t.mem = s.mem → (f d).wp (memRules err) Q t) :
    (data bp >>= f).wp (memRules err) Q s := wp_buffer (o := .data bp) trivial h

theorem wp_setData {bp : BufRef} {d : Block} {f : Unit → Kern α}
    (h : ∀ t, t.mem = s.mem → (f ()).wp (memRules err) Q t) :
    (setData bp d >>= f).wp (memRules err) Q s := wp_buffer (o := .setData bp d) trivial fun _ => h

theorem wp_setDisk {bp : BufRef} {v : Bool} {f : Unit → Kern α}
    (h : ∀ t, t.mem = s.mem → (f ()).wp (memRules err) Q t) :
    (setDisk bp v >>= f).wp (memRules err) Q s := wp_buffer (o := .setDisk bp v) trivial fun _ => h

theorem wp_bwrite {bp : BufRef} {f : Unit → Kern α}
    (h : ∀ t, t.mem = s.mem → (f ()).wp (memRules err) Q t) :
    (bwrite bp >>= f).wp (memRules err) Q s := wp_buffer (o := .bwrite bp) trivial fun _ => h

theorem wp_brelse {bp : BufRef} {f : Unit → Kern α}
    (h : ∀ t, t.mem = s.mem → (f ()).wp (memRules err) Q t) :
    (brelse bp >>= f).wp (memRules err) Q s := wp_buffer (o := .brelse bp) trivial fun _ => h

theorem wp_brelse_last {bp : BufRef} (h : ∀ t, t.mem = s.mem → Q' () t) :
    (brelse bp).wp (memRules err) Q' s :=
  wp_buffer (o := .brelse bp) (f := Prog.ret) trivial fun _ t ht => wp_done.mpr (h t ht)

theorem wp_wakeup {f : Unit → Kern α}
    (h : ∀ t, t.mem = s.mem → (f ()).wp (memRules err) Q t) :
    (wakeup >>= f).wp (memRules err) Q s := wp_buffer (o := .wakeup) trivial fun _ => h

/-! ## Commit -/

theorem writeLogBlock_mem {i : ℕ} :
    (writeLogBlock i).wp (memRules err) (fun _ t => t.mem = s.mem) s := by
  rw [writeLogBlock, wp_getLog]
  refine wp_bread fun t₁ h₁ => wp_logEntry (wp_bread fun t₂ h₂ => wp_data fun d t₃ h₃ =>
    wp_setData fun t₄ h₄ => wp_bwrite fun t₅ h₅ => wp_brelse fun t₆ h₆ =>
    wp_brelse_last fun t₇ h₇ => ?_)
  rw [h₇, h₆, h₅, h₄, h₃, h₂, h₁]

theorem installBlock_mem {i : ℕ} {recovering : Bool} :
    (installBlock recovering i).wp (memRules err) (fun _ t => t.mem = s.mem) s := by
  rw [installBlock, wp_getLog]
  refine wp_bread fun t₁ h₁ => wp_logEntry (wp_bread fun t₂ h₂ => wp_data fun d t₃ h₃ =>
    wp_setData fun t₄ h₄ => wp_bwrite fun t₅ h₅ => ?_)
  have hmem : t₅.mem = s.mem := by rw [h₅, h₄, h₃, h₂, h₁]
  cases recovering with
  | true =>
      exact wp_brelse fun t₆ h₆ => wp_brelse_last fun t₇ h₇ => by rw [h₇, h₆, hmem]
  | false =>
      exact wp_setDisk fun t₆ h₆ => wp_brelse fun t₇ h₇ => wp_brelse_last fun t₈ h₈ => by
        rw [h₈, h₇, h₆, hmem]

private theorem loop_mem {body : ℕ → Kern Unit} {count : ℕ}
    (h : ∀ i t, (body i).wp (memRules err) (fun _ u => u.mem = t.mem) t) :
    (Prog.forRange body 0 count).wp (memRules err) (fun _ t => t.mem = s.mem) s :=
  Prog.wp_forRange (fun _ t => t.mem = s.mem) (fun _ _ _ _ _ => trivial) rfl
    fun i t _ _ ht => Prog.wp_mono (h i t) fun _ _ _ hu => hu.trans ht

theorem writeLog_mem : writeLog.wp (memRules err) (fun _ t => t.mem = s.mem) s := by
  rw [writeLog, wp_getLog]
  exact loop_mem fun _ _ => writeLogBlock_mem

theorem installTrans_mem {recovering : Bool} :
    (installTrans recovering).wp (memRules err) (fun _ t => t.mem = s.mem) s := by
  rw [installTrans, wp_getLog]
  exact loop_mem fun _ _ => installBlock_mem

theorem writeHead_mem : writeHead.wp (memRules err) (fun _ t => t.mem = s.mem) s := by
  rw [writeHead, wp_getLog]
  refine wp_bread fun t₁ h₁ => wp_data fun d t₂ h₂ => ?_
  split
  · exact wp_stop.mpr (.inl (.inl rfl))
  · exact wp_setData fun t₃ h₃ => wp_bwrite fun t₄ h₄ => wp_brelse_last fun t₅ h₅ => by
      rw [h₅, h₄, h₃, h₂, h₁]

/-- A commit clears the count of entries and changes nothing else. -/
theorem commit_mem (err : Stop → Prop) (hn : 0 ≤ s.mem.log.lh.n) :
    commit.wp (memRules err) (fun _ t => t.mem = s.mem.setLog Log.clear) s := by
  rw [commit, wp_getLog]
  by_cases hpos : 0 < s.mem.log.lh.n
  · rw [if_pos hpos, Prog.wp_bind]
    refine Prog.wp_mono writeLog_mem fun _ t₁ _ h₁ => ?_
    rw [Prog.wp_bind]
    refine Prog.wp_mono writeHead_mem fun _ t₂ _ h₂ => ?_
    rw [Prog.wp_bind]
    refine Prog.wp_mono installTrans_mem fun _ t₃ _ h₃ => ?_
    rw [wp_modifyLog]
    refine Prog.wp_mono writeHead_mem fun _ t₄ _ h₄ => ?_
    rw [h₄, h₃, h₂, h₁]
  · have hzero : s.mem.log.lh.n = 0 := by omega
    rw [if_neg hpos, Prog.pure_eq, wp_done, Mem.setLog_eq_self]
    rw [Log.clear, ← hzero]

/-! ## The calls of a transaction -/

theorem beginOpTry_mem (err : Stop → Prop) :
    beginOpTry.wp (memRules err) (fun admitted t =>
      (admitted = true → s.mem.log.admits ∧
        t.mem = s.mem.setLog fun log =>
          { log with outstanding := log.outstanding + 1, lock := false }) ∧
      (admitted = false → ¬ s.mem.log.admits ∧ t.mem = s.mem)) s := by
  rw [beginOpTry, wp_getLog]
  by_cases hadmits : s.mem.log.admits
  · rw [if_pos hadmits, wp_modifyLog, releaseLog, wp_modifyLog, Prog.pure_eq, wp_done]
    exact ⟨fun _ => ⟨hadmits, rfl⟩, fun h => absurd h (by decide)⟩
  · rw [if_neg hadmits, Prog.pure_eq, wp_done]
    exact ⟨fun h => absurd h (by decide), fun _ => ⟨hadmits, rfl⟩⟩

/-- The first test of `begin_op` is made with the lock just taken. -/
theorem beginOpFirst_mem (err : Stop → Prop) :
    (acquireLog >>= fun _ => beginOpTry).wp (memRules err) (fun admitted t =>
      (admitted = true → s.mem.log.admits ∧
        t.mem = s.mem.setLog fun log => { log with outstanding := log.outstanding + 1 }) ∧
      (admitted = false → ¬ s.mem.log.admits ∧
        t.mem = s.mem.setLog fun log => { log with lock := true })) s := by
  refine wp_acquireLog fun hlock => Prog.wp_mono (beginOpTry_mem err) fun admitted t _ ht =>
    ⟨fun h => ?_, fun h => ht.2 h⟩
  obtain ⟨hadmits, hmem⟩ := ht.1 h
  refine ⟨hadmits, hmem.trans ?_⟩
  simp only [Mem.setLog, hlock]

theorem endOpEnter_mem :
    endOpEnter.wp (memRules fun e => e = .panic "log: committing") (fun doCommit t =>
      s.mem.log.committing = false ∧
      (doCommit = true → s.mem.log.outstanding = 1 ∧ t.mem = s.mem.setLog fun log =>
        { log with outstanding := 0, committing := true }) ∧
      (doCommit = false → s.mem.log.outstanding ≠ 1 ∧ t.mem = s.mem.setLog fun log =>
        { log with outstanding := log.outstanding - 1 })) s := by
  rw [endOpEnter]
  refine wp_acquireLog fun hlock => ?_
  rw [wp_modifyLog, wp_getLog]
  by_cases hcommitting : s.mem.log.committing = true
  · rw [if_pos (by exact hcommitting)]
    exact wp_stop.mpr (.inr rfl)
  · have hfalse : s.mem.log.committing = false := Bool.eq_false_of_not_eq_true hcommitting
    rw [if_neg (by exact hcommitting)]
    by_cases hout : s.mem.log.outstanding - 1 = 0
    · rw [if_pos (by exact hout), wp_modifyLog, releaseLog, wp_modifyLog, Prog.pure_eq, wp_done]
      refine ⟨hfalse, fun _ => ⟨by omega, ?_⟩, fun h => absurd h (by decide)⟩
      simp only [Mem.setLog, hout, hlock]
    · rw [if_neg (by exact hout)]
      refine wp_wakeup fun t ht => ?_
      rw [releaseLog, wp_modifyLog, Prog.pure_eq, wp_done]
      refine ⟨hfalse, fun h => absurd h (by decide), fun _ => ⟨by omega, ?_⟩⟩
      rw [ht]
      simp only [Mem.setLog, hlock]

theorem endOpLeave_mem (err : Stop → Prop) :
    endOpLeave.wp (memRules err)
      (fun _ t => t.mem = s.mem.setLog fun log => { log with committing := false }) s := by
  rw [endOpLeave]
  refine wp_acquireLog fun hlock => ?_
  rw [wp_modifyLog]
  refine wp_wakeup fun t ht => ?_
  rw [releaseLog, wp_modifyLog_last, ht]
  simp only [Mem.setLog, hlock]

/-- `log_write` enters the block, unless it stops. -/
theorem logWrite_mem (err : Stop → Prop) {bp : BufRef}
    (hbig : s.mem.log.size - 1 ≤ s.mem.log.lh.n → err (.panic "log: too big"))
    (hout : s.mem.log.outstanding < 1 → err (.panic "log: outside of trans")) :
    (logWrite bp).wp (memRules err) (fun _ t => s.mem.log.lh.n < s.mem.log.size - 1 ∧
      1 ≤ s.mem.log.outstanding ∧ t.mem = s.mem.setLog fun log => log.note bp.blockno) s := by
  rw [logWrite]
  refine wp_acquireLog fun hlock => ?_
  rw [wp_getLog]
  by_cases h₁ : s.mem.log.size - 1 ≤ s.mem.log.lh.n
  · rw [if_pos (by exact h₁)]
    exact wp_stop.mpr (.inr (hbig h₁))
  rw [if_neg (by exact h₁)]
  by_cases h₂ : s.mem.log.outstanding < 1
  · rw [if_pos (by exact h₂)]
    exact wp_stop.mpr (.inr (hout h₂))
  rw [if_neg (by exact h₂)]
  generalize hfound : LogHeader.find _ bp.blockno = found
  cases found with
  | some j =>
      have hfind : s.mem.log.lh.find bp.blockno = some j := hfound
      refine wp_setDisk fun t ht => ?_
      rw [releaseLog, wp_modifyLog_last, ht]
      refine ⟨by omega, by omega, ?_⟩
      simp only [Mem.setLog, Log.note, LogHeader.note, hfind, hlock]
  | none =>
      have hfind : s.mem.log.lh.find bp.blockno = none := hfound
      simp only
      split
      · exact wp_stop.mpr (.inl (.inl rfl))
      · rw [wp_modifyLog]
        refine wp_setDisk fun t ht => ?_
        rw [releaseLog, wp_modifyLog_last, ht]
        refine ⟨by omega, by omega, ?_⟩
        simp only [Mem.setLog, Log.note, LogHeader.note, hfind, hlock]

end

end OnMem

end RiscvOs
