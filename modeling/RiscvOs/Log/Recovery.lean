import RiscvOs.Log.Commit

/-!
# Recovery

`recover_from_log` replays a sealed transaction.  Every disk it passes through is
one from which a second recovery would find the same contents (`target`), which is
why a power cut inside the recovery does no harm.
-/

namespace RiscvOs

open Effect Bytes Kern

section
variable {dev : ℕ} {strict : Prop} {err : Stop → Prop} {crash : (ℕ → Block) → Prop}
  {Q : Unit → View → Prop} {s : View} {target : ℕ → Block}

/-- What `recover_from_log` needs. -/
structure RecoverReady (dev : ℕ) (strict : Prop) (crash : (ℕ → Block) → Prop)
    (target : ℕ → Block) (s : View) : Prop where
  dev : s.mem.log.dev = dev
  onDisk : s.mem.log.OnDisk
  clean : ∀ b, s.store b = s.disk b
  room : strict → s.Fits 2
  recoverable : s.mem.log.Recoverable target s.disk
  crash : ∀ d, s.mem.log.Recoverable target d → crash d

/-- The recovery from `s` has ended in `t`. -/
structure Recovered (target : ℕ → Block) (s t : View) : Prop where
  mem : ∃ lh : LogHeader, lh.n = 0 ∧
    t.mem = { s.mem with log := { s.mem.log with lh := lh } }
  refs : t.refs = s.refs
  clean : ∀ b, t.store b = t.disk b
  dirty : ∀ b, s.dirty b = false → t.dirty b = false
  empty : (s.mem.log.onDiskHeader t.disk).n = 0
  contents : ∀ b, ¬ s.mem.log.Area b → t.disk b = target b

/-! ## The passes of a recovery

The view after `read_head` is `s.headRead lh`, where `lh` agrees with the header
found on disk. -/

/-- The view with `log.lh` replaced. -/
private def View.headRead (s : View) (lh : LogHeader) : View :=
  s.setLog fun log => { log with lh := lh }

/-- `lh` has the entries of the header on the disk of `s`. -/
private structure Reads (lh : LogHeader) (s : View) : Prop where
  count : lh.n = (s.mem.log.onDiskHeader s.disk).n
  entries : ∀ j < (s.mem.log.onDiskHeader s.disk).n.toNat,
    lh.block j = (s.mem.log.onDiskHeader s.disk).block j

variable {t : View} {i : ℕ} {lh : LogHeader}

private theorem RecoverReady.sound (h : RecoverReady dev strict crash target s)
    (hlh : Reads lh s) : lh.Sound s.mem.log :=
  h.recoverable.sound.congr hlh.count hlh.entries

private theorem RecoverReady.slot_bound (h : RecoverReady dev strict crash target s)
    (hlh : Reads lh s) {j : ℕ} (hj : j < lh.n.toNat) : (j : ℤ) + 1 < s.mem.log.size := by
  have := (h.sound hlh).lt_size
  omega

private theorem RecoverReady.home_ne_slot (h : RecoverReady dev strict crash target s)
    (hlh : Reads lh s) {j k : ℕ} (hj : j < lh.n.toNat) (hk : k < lh.n.toNat) :
    lh.block j ≠ s.mem.log.slot k := fun heq =>
  (h.sound hlh).home_area j hj (heq ▸ h.onDisk.area_slot (h.slot_bound hlh hk))

private theorem RecoverReady.home_ne_head (h : RecoverReady dev strict crash target s)
    (hlh : Reads lh s) {j : ℕ} (hj : j < lh.n.toNat) : lh.block j ≠ s.mem.log.head := fun heq =>
  (h.sound hlh).home_area j hj (heq ▸ h.onDisk.area_head)

/-- Recovery finds the same contents after any number of rounds of `install_trans`. -/
private theorem RecoverReady.recoverable_of_install (h : RecoverReady dev strict crash target s)
    (hlh : Reads lh s) (ht : Copied (s.headRead lh) t lh.block s.mem.log.slot i)
    (hi : i ≤ lh.n.toNat) : s.mem.log.Recoverable target t.disk := by
  have hhead : s.mem.log.onDiskHeader t.disk = s.mem.log.onDiskHeader s.disk := by
    rw [Log.onDiskHeader, Log.onDiskHeader,
      (ht.rest _ fun j hj => (h.home_ne_head hlh (by omega)).symm).2.1]
    rfl
  refine ⟨hhead ▸ h.recoverable.sound, fun b hb => ?_⟩
  rw [← h.recoverable.contents b hb, Log.recovered, Log.recovered, hhead]
  cases hfind : (s.mem.log.onDiskHeader s.disk).find b with
  | some j =>
      have hj := (LogHeader.find_some hfind).1
      rw [← hlh.count] at hj
      exact (ht.rest _ fun k hk => (h.home_ne_slot hlh (by omega) hj).symm).2.1
  | none =>
      rw [LogHeader.find_none h.recoverable.sound.le_length, ← hlh.count] at hfind
      refine (ht.rest b fun j hj => ?_).2.1
      have hj' : j < lh.n.toNat := by omega
      rw [hlh.entries j (hlh.count ▸ hj')]
      exact hfind j hj'

private theorem RecoverReady.install (h : RecoverReady dev strict crash target s)
    (hlh : Reads lh s) :
    LoopReady dev strict crash (s.headRead lh) lh.block s.mem.log.slot lh.n.toNat where
  dev := h.dev
  length := by have := (h.sound hlh).le_length; omega
  dst_lt := (h.sound hlh).home_lt
  src_lt j hj := h.onDisk.lt_of_area (h.onDisk.area_slot (h.slot_bound hlh hj))
  dst_inj := (h.sound hlh).distinct
  disjoint j hj k hk := (h.home_ne_slot hlh hk hj).symm
  src_safe j _ := .inr (h.clean _)
  room := h.room
  crash i hi t ht := h.crash _ (h.recoverable_of_install hlh ht hi)

/-- Once everything is installed the contents are in place. -/
private theorem RecoverReady.contents (h : RecoverReady dev strict crash target s)
    (hlh : Reads lh s) (ht : Copied (s.headRead lh) t lh.block s.mem.log.slot lh.n.toNat)
    {b : ℕ} (hb : ¬ s.mem.log.Area b) : t.disk b = target b := by
  rw [← h.recoverable.contents b hb, Log.recovered]
  cases hfind : (s.mem.log.onDiskHeader s.disk).find b with
  | some j =>
      obtain ⟨hj, rfl⟩ := LogHeader.find_some hfind
      rw [← hlh.entries j hj]
      rw [← hlh.count] at hj
      exact (ht.done j hj).2.1.trans (h.clean _)
  | none =>
      rw [LogHeader.find_none h.recoverable.sound.le_length, ← hlh.count] at hfind
      refine (ht.rest b fun j hj => ?_).2.1
      rw [hlh.entries j (hlh.count ▸ hj)]
      exact hfind j hj

/-- What is the same in the cache and on disk stays so while blocks are copied. -/
private theorem Copied.clean {s₀ t : View} {dst src : ℕ → ℕ} (ht : Copied s₀ t dst src i)
    (h : ∀ b, s₀.store b = s₀.disk b) (b : ℕ) :
    t.store b = t.disk b ∧ (s₀.dirty b = false → t.dirty b = false) := by
  by_cases hin : ∃ j < i, b = dst j
  · obtain ⟨j, hj, rfl⟩ := hin
    obtain ⟨hst, hdk, hdt⟩ := ht.done j hj
    exact ⟨hst.trans hdk.symm, fun _ => hdt⟩
  · push Not at hin
    obtain ⟨hst, hdk, hdt⟩ := ht.rest b hin
    exact ⟨hst.trans ((h b).trans hdk.symm), fun hd => hdt.trans hd⟩

/-- The second half of a recovery that had something to install. -/
private theorem RecoverReady.finish (h : RecoverReady dev strict crash target s)
    (hlh : Reads lh s) (ht : Copied (s.headRead lh) t lh.block s.mem.log.slot lh.n.toNat) :
    Recovered target s (t.setLog Log.clear).headed := by
  have hmem : t.mem = (s.headRead lh).mem := ht.mem
  have hlog : (t.setLog Log.clear).mem.log.head = s.mem.log.head := by
    rw [View.setLog_log, hmem]; rfl
  have hempty := decode_headed_clear t
  rw [show t.mem.log.onDiskHeader = s.mem.log.onDiskHeader by rw [hmem]; rfl] at hempty
  refine ⟨⟨{ lh with n := 0 }, rfl, ?_⟩, ?_, fun b => ?_, fun b hd => ?_, hempty, fun b hb => ?_⟩
  · change { t.mem with log := t.mem.log.clear } = _
    rw [hmem]; rfl
  · exact ht.refs
  · by_cases hb : b = (t.setLog Log.clear).mem.log.head
    · rw [hb, View.headed_store_head, View.headed_disk_head]
    · obtain ⟨hst, hdk, -⟩ := View.headed_of_ne hb
      rw [hst, hdk]
      exact (ht.clean h.clean b).1
  · by_cases hb : b = (t.setLog Log.clear).mem.log.head
    · rw [hb, View.headed_dirty_head]
    · rw [(View.headed_of_ne hb).2.2]
      exact (ht.clean h.clean b).2 hd
  · have hne : b ≠ (t.setLog Log.clear).mem.log.head := fun heq =>
      hb (by rw [heq, hlog]; exact h.onDisk.area_head)
    rw [(View.headed_of_ne hne).2.1]
    exact h.contents hlh ht hb

/-- `recover_from_log` brings every block outside the log to its recovered contents. -/
theorem recover_wp (h : RecoverReady dev strict crash target s) :
    recoverFromLog.wp (cacheRules dev strict err crash) (fun _ t => Recovered target s t) s := by
  have hread : LogHeader.decode (s.store s.mem.log.head) = s.mem.log.onDiskHeader s.disk := by
    rw [h.clean, Log.onDiskHeader]
  have hhead : s.mem.log.head < 2 ^ 31 := h.onDisk.lt_of_area h.onDisk.area_head
  rw [recoverFromLog, Prog.wp_bind]
  refine readHead_wp h.dev hhead (.inr (h.clean _)) (hread ▸ h.recoverable.sound.le_length)
    (fun hs => (h.room hs).less (by omega)) (h.crash _ h.recoverable) ?_
  obtain ⟨lh, hlh⟩ : ∃ lh, lh = s.mem.log.lh.readFrom (s.store s.mem.log.head) := ⟨_, rfl⟩
  have hreads : Reads lh s := by
    subst hlh
    refine ⟨by rw [LogHeader.readFrom_n, hread], fun j hj => ?_⟩
    rw [LogHeader.readFrom_block (by rw [hread]; omega), hread]
  have hview : (s.setLog fun log =>
      { log with lh := log.lh.readFrom (s.store s.mem.log.head) }) = s.headRead lh :=
    View.setLog_congr (by rw [hlh])
  rw [hview, wp_getLog]
  refine ⟨h.crash _ h.recoverable, ?_⟩
  by_cases hn : 0 < (s.headRead lh).mem.log.lh.n
  · rw [if_pos hn, Prog.wp_bind]
    refine Prog.wp_mono (installTrans_wp (s := s.headRead lh) (h.install hreads))
      fun _ t hcrash ht => ?_
    have hmem : t.mem = (s.headRead lh).mem := ht.mem
    have hdone := h.finish hreads ht
    rw [wp_modifyLog]
    refine ⟨hcrash, writeHead_wp ?_ ?_ (Int.natCast_nonneg _) (fun hs => ?_) hcrash ?_ hdone⟩
    · rw [View.setLog_log, hmem]; exact h.dev
    · rw [View.setLog_log, hmem]; exact hhead
    · exact (((h.room hs).mono ht.busy).less (by omega)).mono fun _ hc => hc
    · refine h.crash _ ⟨.of_empty h.onDisk hdone.empty, fun b hb => ?_⟩
      rw [Log.recovered_of_empty hdone.empty]
      exact hdone.contents b hb
  · have hzero : lh.n = 0 := le_antisymm (not_lt.mp hn) (h.sound hreads).nonneg
    have hempty : (s.mem.log.onDiskHeader s.disk).n = 0 := hreads.count ▸ hzero
    rw [if_neg hn, Prog.pure_eq, wp_done]
    refine ⟨h.crash _ h.recoverable, ⟨lh, hzero, rfl⟩, rfl, h.clean, fun _ hd => hd, hempty,
      fun b hb => ?_⟩
    rw [← h.recoverable.contents b hb, Log.recovered_of_empty hempty]
    rfl

/-! ## What a recovery does not touch -/

/-- No entry of the header on the disk `d` is block `b`. -/
def Log.Spares (log : Log) (b : ℕ) (d : ℕ → Block) : Prop :=
  ∀ j < (log.onDiskHeader d).n.toNat, (log.onDiskHeader d).block j ≠ b

theorem Log.Spares.of_empty {log : Log} {d : ℕ → Block} (h : (log.onDiskHeader d).n = 0) (b : ℕ) :
    log.Spares b d := fun j hj => absurd hj (by rw [h]; exact Nat.not_lt_zero j)

/-- A block outside the log that is no entry of the header stays as it is. -/
theorem recover_spares {b : ℕ} (h : RecoverReady dev strict (fun _ => True) target s)
    (hb : ¬ s.mem.log.Area b) (hspares : s.mem.log.Spares b s.disk) :
    recoverFromLog.wp (cacheRules dev strict err fun d => d b = s.disk b ∧ s.mem.log.Spares b d)
      (fun _ _ => True) s := by
  have hread : LogHeader.decode (s.store s.mem.log.head) = s.mem.log.onDiskHeader s.disk := by
    rw [h.clean, Log.onDiskHeader]
  have hhead : s.mem.log.head < 2 ^ 31 := h.onDisk.lt_of_area h.onDisk.area_head
  have hbhead : b ≠ s.mem.log.head := fun heq => hb (heq ▸ h.onDisk.area_head)
  rw [recoverFromLog, Prog.wp_bind]
  refine readHead_wp h.dev hhead (.inr (h.clean _)) (hread ▸ h.recoverable.sound.le_length)
    (fun hs => (h.room hs).less (by omega)) ⟨rfl, hspares⟩ ?_
  obtain ⟨lh, hlh⟩ : ∃ lh, lh = s.mem.log.lh.readFrom (s.store s.mem.log.head) := ⟨_, rfl⟩
  have hreads : Reads lh s := by
    subst hlh
    refine ⟨by rw [LogHeader.readFrom_n, hread], fun j hj => ?_⟩
    rw [LogHeader.readFrom_block (by rw [hread]; omega), hread]
  have hview : (s.setLog fun log =>
      { log with lh := log.lh.readFrom (s.store s.mem.log.head) }) = s.headRead lh :=
    View.setLog_congr (by rw [hlh])
  -- neither the block nor the header changes while the slots are installed
  have hinstall {t : View} {i : ℕ} (ht : Copied (s.headRead lh) t lh.block s.mem.log.slot i)
      (hi : i ≤ lh.n.toNat) : t.disk b = s.disk b ∧ s.mem.log.Spares b t.disk := by
    have hsame : s.mem.log.onDiskHeader t.disk = s.mem.log.onDiskHeader s.disk := by
      rw [Log.onDiskHeader, Log.onDiskHeader,
        (ht.rest _ fun j hj => (h.home_ne_head hreads (by omega)).symm).2.1]
      rfl
    refine ⟨(ht.rest b fun j hj heq => ?_).2.1, by rw [Log.Spares, hsame]; exact hspares⟩
    have hj' : j < (s.mem.log.onDiskHeader s.disk).n.toNat := by
      rw [← hreads.count]
      omega
    exact hspares j hj' ((hreads.entries j hj').symm.trans heq.symm)
  rw [hview, wp_getLog]
  refine ⟨⟨rfl, hspares⟩, ?_⟩
  by_cases hn : 0 < (s.headRead lh).mem.log.lh.n
  · rw [if_pos hn, Prog.wp_bind]
    have hloop := h.install hreads
    refine Prog.wp_mono (installTrans_wp (s := s.headRead lh)
      { hloop with crash := fun i hi t ht => hinstall ht hi }) fun _ t hcrash ht => ?_
    have hmem : t.mem = (s.headRead lh).mem := ht.mem
    rw [wp_modifyLog]
    refine ⟨hcrash, writeHead_wp ?_ ?_ (Int.natCast_nonneg _) (fun hs => ?_) hcrash ?_ trivial⟩
    · rw [View.setLog_log, hmem]; exact h.dev
    · rw [View.setLog_log, hmem]; exact hhead
    · exact (((h.room hs).mono ht.busy).less (by omega)).mono fun _ hc => hc
    · have hlog : (t.setLog Log.clear).mem.log.head = s.mem.log.head := by
        rw [View.setLog_log, hmem]; rfl
      refine ⟨?_, .of_empty (h.finish hreads ht).empty b⟩
      rw [(View.headed_of_ne (s := t.setLog Log.clear) (by rw [hlog]; exact hbhead)).2.1]
      exact hcrash.1
  · rw [if_neg hn, Prog.pure_eq, wp_done]
    exact ⟨⟨rfl, hspares⟩, trivial⟩

end

end RiscvOs
