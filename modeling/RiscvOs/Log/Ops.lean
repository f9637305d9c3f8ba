import RiscvOs.Log.Commit
import RiscvOs.Log.Recovery

/-!
# Transactions

Weakest preconditions of `begin_op`, `log_write` and `end_op`, and `LogInv`, the
invariant of everybody who uses the log as it is meant to be used: a modified block
is held until it is logged, a logged block is pinned in its buffer until the next
commit, and all other blocks are as they are on disk.
-/

namespace RiscvOs

open Effect Bytes Kern

section
variable {dev : ℕ} {strict : Prop} {err : Stop → Prop} {crash : (ℕ → Block) → Prop}
  {Q : Unit → View → Prop} {s : View} {bp : BufRef}

/-! ## The calls -/

theorem View.setLog_setLog (s : View) (f g : Log → Log) :
    (s.setLog f).setLog g = s.setLog fun log => g (f log) := rfl

theorem View.mark_setLog (s : View) (f : Log → Log) (b : ℕ) (v : Bool) :
    (s.mark b v).setLog f = (s.setLog f).mark b v := rfl

theorem View.setLog_eq_self {f : Log → Log} (h : f s.mem.log = s.mem.log) : s.setLog f = s := by
  rw [View.setLog, h]
  rfl

/-- `begin_op` when the operation is admitted at once. -/
theorem beginOp_wp (hlock : s.mem.log.lock = false) (hcrash : crash s.disk)
    (hsleep : ¬ s.mem.log.admits → err .hang)
    (hQ : s.mem.log.admits →
      Q () (s.setLog fun log => { log with outstanding := log.outstanding + 1 })) :
    beginOp.wp (cacheRules dev strict err crash) Q s := by
  rw [beginOp, wp_acquireLog hlock]
  refine ⟨hcrash, ?_⟩
  rw [beginOpTry, bind_assoc, wp_getLog]
  refine ⟨hcrash, ?_⟩
  by_cases hadmits : s.mem.log.admits
  · rw [if_pos (by exact hadmits), bind_assoc, wp_modifyLog]
    refine ⟨hcrash, ?_⟩
    rw [bind_assoc, wp_releaseLog]
    refine ⟨hcrash, hcrash, ?_⟩
    rw [View.setLog_setLog, View.setLog_setLog]
    convert hQ hadmits using 1
    exact View.setLog_congr (by simp only [hlock])
  · rw [if_neg (by exact hadmits)]
    exact wp_stop.mpr ⟨hcrash, hsleep hadmits⟩

/-- The view while `end_op` of the last operation commits. -/
def View.ending (s : View) : View :=
  s.setLog fun log => { log with outstanding := 0, committing := true }

theorem endOp_wp (hlock : s.mem.log.lock = false) (hidle : s.mem.log.committing = false)
    (hcrash : crash s.disk)
    (hmore : s.mem.log.outstanding ≠ 1 →
      Q () (s.setLog fun log => { log with outstanding := log.outstanding - 1 }))
    (hlast : s.mem.log.outstanding = 1 → CommitReady dev strict crash s.ending ∧
      ∀ t, crash t.disk → Committed s.ending t →
        Q () (t.setLog fun log => { log with committing := false })) :
    endOp.wp (cacheRules dev strict err crash) Q s := by
  rw [endOp, endOpEnter, bind_assoc, wp_acquireLog hlock]
  refine ⟨hcrash, ?_⟩
  rw [bind_assoc, wp_modifyLog]
  refine ⟨hcrash, ?_⟩
  rw [bind_assoc, wp_getLog]
  refine ⟨hcrash, ?_⟩
  rw [if_neg (by
    simp only [View.setLog_log, hidle]
    decide)]
  by_cases hout : s.mem.log.outstanding = 1
  · obtain ⟨hready, hQ⟩ := hlast hout
    rw [if_pos (by
      simp only [View.setLog_log, hout]
      decide), bind_assoc, wp_modifyLog]
    refine ⟨hcrash, ?_⟩
    rw [bind_assoc, wp_releaseLog]
    refine ⟨hcrash, ?_⟩
    have hending : ((((s.setLog fun log => { log with lock := true }).setLog fun log =>
        { log with outstanding := log.outstanding - 1 }).setLog fun log =>
        { log with committing := true }).setLog fun log => { log with lock := false }) =
        s.ending := by
      rw [View.setLog_setLog, View.setLog_setLog, View.setLog_setLog]
      exact View.setLog_congr (by simp only [hlock, hout, Int.sub_self])
    rw [hending, Prog.pure_eq, Prog.ret_bind, if_pos rfl, Prog.wp_bind]
    refine Prog.wp_mono (commit_wp hready) fun _ t hcrash' ht => ?_
    have htlock : t.mem.log.lock = false := by
      rw [ht.mem]
      exact hlock
    rw [endOpLeave, wp_acquireLog htlock]
    refine ⟨hcrash', ?_⟩
    rw [wp_modifyLog]
    refine ⟨hcrash', ?_⟩
    rw [wp_wakeup]
    refine ⟨hcrash', ?_⟩
    rw [wp_releaseLog_last]
    refine ⟨hcrash', ?_⟩
    rw [View.setLog_setLog, View.setLog_setLog]
    convert hQ t hcrash' ht using 1
    exact View.setLog_congr (by simp only [htlock])
  · rw [if_neg (by
      simp only [View.setLog_log]
      omega), bind_assoc, wp_wakeup]
    refine ⟨hcrash, ?_⟩
    rw [bind_assoc, wp_releaseLog]
    refine ⟨hcrash, hcrash, ?_⟩
    rw [View.setLog_setLog, View.setLog_setLog]
    convert hmore hout using 1
    exact View.setLog_congr (by simp only [hlock])

/-- The view once a held block has been logged. -/
def View.logged (s : View) (b : ℕ) : View := (s.setLog fun log => log.note b).mark b true

theorem logWrite_wp (hlock : s.mem.log.lock = false) (hheld : Held dev bp s)
    (hcrash : crash s.disk)
    (hbig : s.mem.log.size - 1 ≤ s.mem.log.lh.n → err (.panic "log: too big"))
    (hout : s.mem.log.outstanding < 1 → err (.panic "log: outside of trans"))
    (hfull : s.mem.log.lh.n < s.mem.log.size - 1 → (loglen : ℤ) ≤ s.mem.log.lh.n → err .fault)
    (hQ : s.mem.log.lh.n < s.mem.log.size - 1 → 1 ≤ s.mem.log.outstanding →
      (bp.blockno ∉ s.mem.log.lh.entries → s.mem.log.lh.n < loglen) →
      Q () (s.logged bp.blockno)) :
    (logWrite bp).wp (cacheRules dev strict err crash) Q s := by
  rw [logWrite, wp_acquireLog hlock]
  refine ⟨hcrash, ?_⟩
  rw [wp_getLog]
  refine ⟨hcrash, ?_⟩
  by_cases h₁ : s.mem.log.size - 1 ≤ s.mem.log.lh.n
  · rw [if_pos (by exact h₁)]
    exact wp_panic.mpr ⟨hcrash, hbig h₁⟩
  rw [if_neg (by exact h₁)]
  by_cases h₂ : s.mem.log.outstanding < 1
  · rw [if_pos (by exact h₂)]
    exact wp_panic.mpr ⟨hcrash, hout h₂⟩
  rw [if_neg (by exact h₂)]
  generalize hfound : LogHeader.find _ bp.blockno = found
  cases found with
  | some j =>
      have hfind : s.mem.log.lh.find bp.blockno = some j := hfound
      rw [wp_setDisk]
      refine ⟨hcrash, hheld, ?_⟩
      rw [wp_releaseLog_last]
      refine ⟨hcrash, ?_⟩
      have hmem : bp.blockno ∈ s.mem.log.lh.entries :=
        LogHeader.mem_entries.mpr ⟨j, LogHeader.find_some hfind⟩
      convert hQ (by omega) (by omega) (fun h => absurd hmem h) using 1
      rw [View.mark_setLog, View.setLog_setLog, View.logged]
      exact congrArg (View.mark · _ _) (View.setLog_congr (by
        simp only [Log.note, LogHeader.note, hfind, hlock]))
  | none =>
      have hfind : s.mem.log.lh.find bp.blockno = none := hfound
      by_cases h₃ : (loglen : ℤ) ≤ s.mem.log.lh.n
      · simp only
        rw [if_pos (by exact h₃)]
        exact wp_stop.mpr ⟨hcrash, hfull (by omega) h₃⟩
      · simp only
        rw [if_neg (by exact h₃), wp_modifyLog]
        refine ⟨hcrash, ?_⟩
        rw [wp_setDisk]
        refine ⟨hcrash, hheld, ?_⟩
        rw [wp_releaseLog_last]
        refine ⟨hcrash, ?_⟩
        convert hQ (by omega) (by omega) (fun _ => by omega) using 1
        rw [View.mark_setLog, View.setLog_setLog, View.setLog_setLog, View.logged]
        exact congrArg (View.mark · _ _) (View.setLog_congr (by
          simp only [Log.note, LogHeader.note, hfind, hlock]))

end

/-! ## The users of the log -/

/-- The log lies in the same place on the same device and has the same header. -/
structure Log.SameHeader (log log' : Log) : Prop extends log.SameArea log' where
  dev : log'.dev = log.dev
  lh : log'.lh = log.lh

theorem Log.OnDisk.congr {log log' : Log} (hlog : log.OnDisk) (h : log.SameArea log') :
    log'.OnDisk :=
  ⟨h.start ▸ hlog.start_nonneg, h.size ▸ hlog.size_pos,
    by rw [h.start, h.size]; exact hlog.end_le⟩

theorem LogHeader.Sound.relocate {log log' : Log} {lh : LogHeader} (hlh : lh.Sound log)
    (h : log.SameArea log') : lh.Sound log' :=
  { hlh with
    lt_size := h.size ▸ hlh.lt_size
    home_area := fun j hj => (h.area _).not.mpr (hlh.home_area j hj) }

/-- What holds between two calls when the blocks `modified` are changed in their buffers
but not logged yet. -/
structure LogInv (dev : ℕ) (modified : Set ℕ) (s : View) : Prop where
  dev : s.mem.log.dev = dev
  onDisk : s.mem.log.OnDisk
  sound : s.mem.log.lh.Sound s.mem.log
  dirty : ∀ b, s.dirty b = true ↔ b ∈ s.mem.log.lh.entries
  clean : ∀ b, b ∉ s.mem.log.lh.entries → b ∉ modified → s.store b = s.disk b
  held : ∀ b ∈ modified, 0 < s.refs b
  outside : ∀ b ∈ modified, b < 2 ^ 31 ∧ ¬ s.mem.log.Area b

namespace LogInv

variable {dev : ℕ} {strict : Prop} {crash : (ℕ → Block) → Prop} {s t : View} {modified : Set ℕ}
  {b : ℕ}

theorem setLog (h : LogInv dev modified s) {f : Log → Log}
    (hf : s.mem.log.SameHeader (f s.mem.log)) : LogInv dev modified (s.setLog f) where
  dev := hf.dev.trans h.dev
  onDisk := h.onDisk.congr hf.toSameArea
  sound := by
    rw [View.setLog_log, hf.lh]
    exact h.sound.relocate hf.toSameArea
  dirty := by
    rw [View.setLog_log, hf.lh]
    exact h.dirty
  clean := by
    rw [View.setLog_log, hf.lh]
    exact h.clean
  held := h.held
  outside c hc := ⟨(h.outside c hc).1, (hf.toSameArea.area c).not.mpr (h.outside c hc).2⟩

theorem hold (h : LogInv dev modified s) (b : ℕ) : LogInv dev modified (s.hold b) :=
  { h with
    held := fun c hc => by
      by_cases heq : c = b
      · rw [heq, View.hold_refs_same]
        exact Nat.succ_pos _
      · rw [View.hold_refs_of_ne heq]
        exact h.held c hc }

/-- A block may be released unless it is modified. -/
theorem release (h : LogInv dev modified s) (hb : b ∉ modified) :
    LogInv dev modified (s.release b) :=
  { h with
    held := fun c hc => by
      have hne : c ≠ b := fun heq => hb (heq ▸ hc)
      rw [View.release_refs_of_ne hne]
      exact h.held c hc }

/-- What `brelse` asks for holds of a block that is not modified. -/
theorem release_safe (h : LogInv dev modified s) (hb : b ∉ modified) :
    s.dirty b = true ∨ s.store b = s.disk b := by
  by_cases hmem : b ∈ s.mem.log.lh.entries
  · exact .inl ((h.dirty b).mpr hmem)
  · exact .inr (h.clean b hmem hb)

theorem put (h : LogInv dev modified s) (hheld : 0 < s.refs b) (hlt : b < 2 ^ 31)
    (harea : ¬ s.mem.log.Area b) (d : Block) : LogInv dev (insert b modified) (s.put b d) :=
  { h with
    clean := fun c hc hmod => by
      rw [Set.mem_insert_iff, not_or] at hmod
      rw [View.put_store_of_ne hmod.1]
      exact h.clean c hc hmod.2
    held := fun c hc => by
      rcases Set.mem_insert_iff.mp hc with rfl | hc
      · exact hheld
      · exact h.held c hc
    outside := fun c hc => by
      rcases Set.mem_insert_iff.mp hc with rfl | hc
      · exact ⟨hlt, harea⟩
      · exact h.outside c hc }

theorem entries_home (h : LogInv dev modified s) (hb : b ∈ s.mem.log.lh.entries) :
    b < 2 ^ 31 ∧ ¬ s.mem.log.Area b := by
  obtain ⟨j, hj, rfl⟩ := LogHeader.mem_entries.mp hb
  exact ⟨h.sound.home_lt j hj, h.sound.home_area j hj⟩

/-- Logging pins the block. -/
theorem logged (h : LogInv dev modified s) (hlt : b < 2 ^ 31) (harea : ¬ s.mem.log.Area b)
    (hsize : s.mem.log.lh.n < s.mem.log.size - 1)
    (hfull : b ∉ s.mem.log.lh.entries → s.mem.log.lh.n < loglen) :
    LogInv dev (modified \ {b}) (s.logged b) := by
  obtain ⟨hnonneg, hdistinct, hentries⟩ :=
    LogHeader.note_spec (b := b) h.sound.le_length h.sound.nonneg h.sound.distinct
  have hcount : (s.mem.log.lh.note b).n ≤ loglen ∧ (s.mem.log.lh.note b).n < s.mem.log.size := by
    have := h.sound.le_length
    by_cases hmem : b ∈ s.mem.log.lh.entries
    · rw [LogHeader.note_of_mem this hmem]
      exact ⟨this, by omega⟩
    · have := hfull hmem
      rw [LogHeader.note_of_notMem h.sound.le_length hmem]
      exact ⟨by simp only [LogHeader.append]; omega, by simp only [LogHeader.append]; omega⟩
  have hhome : ∀ c ∈ (s.mem.log.lh.note b).entries, c < 2 ^ 31 ∧ ¬ s.mem.log.Area c := by
    intro c hc
    rw [hentries] at hc
    rcases Finset.mem_insert.mp hc with rfl | hc
    · exact ⟨hlt, harea⟩
    · exact h.entries_home hc
  exact
    { dev := h.dev
      onDisk := ⟨h.onDisk.start_nonneg, h.onDisk.size_pos, h.onDisk.end_le⟩
      sound :=
        { nonneg := hnonneg
          le_length := hcount.1
          lt_size := hcount.2
          home_lt := fun j hj => (hhome _ (LogHeader.mem_entries.mpr ⟨j, hj, rfl⟩)).1
          home_area := fun j hj => (hhome _ (LogHeader.mem_entries.mpr ⟨j, hj, rfl⟩)).2
          distinct := hdistinct }
      dirty := fun c => by
        change _ ↔ c ∈ (s.mem.log.lh.note b).entries
        rw [hentries, Finset.mem_insert, View.logged]
        by_cases heq : c = b
        · simp [heq]
        · rw [View.mark_dirty_of_ne heq, View.setLog_dirty, h.dirty]
          simp [heq]
      clean := fun c hc hmod => by
        change c ∉ (s.mem.log.lh.note b).entries at hc
        rw [hentries, Finset.mem_insert, not_or] at hc
        exact h.clean c hc.2 fun hm => hmod ⟨hm, hc.1⟩
      held := fun c hc => h.held c hc.1
      outside := fun c hc => h.outside c hc.1 }

/-- With nothing modified a commit may start; `crash` says what is asked of the disks on
the way. -/
theorem commitReady (h : LogInv dev ∅ s) (hroom : strict → s.Fits 2) (hbefore : crash s.disk)
    (hslots : ∀ d, SlotsOnly s d → crash d) (hsealed : ∀ d, Sealed s d → crash d)
    (hcleared : ∀ d, Cleared s d → crash d) : CommitReady dev strict crash s where
  dev := h.dev
  onDisk := h.onDisk
  sound := h.sound
  safe j hj := .inl ((h.dirty _).mpr (LogHeader.mem_entries.mpr ⟨j, hj, rfl⟩))
  room := hroom
  before := hbefore
  slotsOnly := hslots
  sealed := hsealed
  cleared := hcleared

/-- Nothing is logged, and all blocks are as they are on disk. -/
theorem of_empty (hdev : t.mem.log.dev = dev) (hdisk : t.mem.log.OnDisk)
    (hempty : t.mem.log.lh.n = 0) (hall : ∀ b, t.store b = t.disk b ∧ t.dirty b = false) :
    LogInv dev ∅ t where
  dev := hdev
  onDisk := hdisk
  sound := .of_empty hdisk hempty
  dirty b := by simp [(hall b).2, LogHeader.entries_of_empty hempty]
  clean b _ _ := (hall b).1
  held b hb := absurd hb (Set.notMem_empty b)
  outside b hb := absurd hb (Set.notMem_empty b)

/-- After a commit nothing is logged, and all blocks are as they are on disk. -/
theorem committed (h : LogInv dev ∅ s) (ht : Committed s t) :
    LogInv dev ∅ t ∧ (∀ b, t.store b = t.disk b) ∧ t.mem.log.lh.entries = ∅ ∧
      ∀ b, ¬ s.mem.log.Area b → t.disk b = s.store b := by
  have hlog : t.mem.log = s.mem.log.clear := congrArg Mem.log ht.mem
  have hempty : t.mem.log.lh.n = 0 := by rw [hlog, Log.clear]
  have hentries := LogHeader.entries_of_empty hempty
  have hhome : ∀ b ∈ s.mem.log.lh.entries, t.store b = t.disk b ∧ t.dirty b = false := by
    intro b hb
    have hstore := ht.store b (h.entries_home hb).2
    obtain ⟨j, hj, rfl⟩ := LogHeader.mem_entries.mp hb
    exact ⟨hstore.trans (ht.homes j hj).1.symm, (ht.homes j hj).2⟩
  have hother : ∀ b ∉ s.mem.log.lh.entries, t.store b = t.disk b ∧ t.dirty b = false := by
    intro b hb
    have hdirty : s.dirty b = false := Bool.eq_false_of_not_eq_true fun hd => hb ((h.dirty b).mp hd)
    have hclean := h.clean b hb (Set.notMem_empty b)
    by_cases harea : s.mem.log.Area b
    · exact ⟨(ht.area b harea).1 hclean, (ht.area b harea).2 hdirty⟩
    · obtain ⟨hdisk, hd⟩ := ht.rest b harea fun j hj heq =>
        hb (LogHeader.mem_entries.mpr ⟨j, hj, heq.symm⟩)
      exact ⟨(ht.store b harea).trans (hclean.trans hdisk.symm), hd.trans hdirty⟩
  have hall : ∀ b, t.store b = t.disk b ∧ t.dirty b = false := fun b => by
    by_cases hb : b ∈ s.mem.log.lh.entries
    · exact hhome b hb
    · exact hother b hb
  refine ⟨.of_empty ?_ ?_ hempty hall, fun b => (hall b).1, hentries,
    fun b hb => (hall b).1.symm.trans (ht.store b hb)⟩
  · rw [hlog]; exact h.dev
  · rw [hlog]; exact ⟨h.onDisk.start_nonneg, h.onDisk.size_pos, h.onDisk.end_le⟩

end LogInv

end RiscvOs
