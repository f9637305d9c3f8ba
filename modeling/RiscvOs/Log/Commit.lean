import RiscvOs.Log.Spec
import RiscvOs.Log.Entries

/-!
# Commit and recovery

A commit writes the dirty blocks to the log slots, seals them with the header,
copies them home and clears the header.  The disks a power cut can find on the
way are of three kinds: `SlotsOnly`, `Sealed` and `Cleared`.  `commit_wp` says
that a commit passes only through these and ends in `Committed`; `recover_wp`
says the same of the recovery, which starts from a header found on disk.
-/

namespace RiscvOs

open Effect Bytes Kern

/-! ## The log area -/

/-- Block `b` lies in the log area. -/
def Log.Area (log : Log) (b : ℕ) : Prop := log.start ≤ b ∧ (b : ℤ) < log.start + log.size

instance (log : Log) (b : ℕ) : Decidable (log.Area b) := inferInstanceAs (Decidable (_ ∧ _))

/-- The logs lie in the same place. -/
structure Log.SameArea (log log' : Log) : Prop where
  start : log'.start = log.start
  size : log'.size = log.size

theorem Log.SameArea.area {log log' : Log} (h : log.SameArea log') (b : ℕ) :
    log'.Area b ↔ log.Area b := by rw [Log.Area, Log.Area, h.start, h.size]

/-- The log area lies on the disk. -/
structure Log.OnDisk (log : Log) : Prop where
  start_nonneg : 0 ≤ log.start
  size_pos : 0 < log.size
  end_le : log.start + log.size ≤ 2 ^ 31

/-- The entries of `lh` are distinct blocks of the disk outside the log area, and
there is a slot for each. -/
structure LogHeader.Sound (log : Log) (lh : LogHeader) : Prop where
  nonneg : 0 ≤ lh.n
  le_length : lh.n ≤ loglen
  lt_size : lh.n < log.size
  home_lt : ∀ j < lh.n.toNat, lh.block j < 2 ^ 31
  home_area : ∀ j < lh.n.toNat, ¬ log.Area (lh.block j)
  distinct : ∀ j < lh.n.toNat, ∀ k < j, lh.block j ≠ lh.block k

section
variable {log : Log}

theorem Log.OnDisk.head_eq (h : log.OnDisk) : (log.head : ℤ) = log.start := by
  obtain ⟨h0, hs, he⟩ := h
  unfold Log.head u32; omega

theorem Log.OnDisk.slot_eq (h : log.OnDisk) {j : ℕ} (hj : (j : ℤ) + 1 < log.size) :
    (log.slot j : ℤ) = log.start + j + 1 := by
  obtain ⟨h0, hs, he⟩ := h
  unfold Log.slot u32; omega

theorem Log.OnDisk.area_head (h : log.OnDisk) : log.Area log.head := by
  have := h.head_eq
  have := h.size_pos
  exact ⟨by omega, by omega⟩

theorem Log.OnDisk.area_slot (h : log.OnDisk) {j : ℕ} (hj : (j : ℤ) + 1 < log.size) :
    log.Area (log.slot j) := by
  have := h.slot_eq hj
  exact ⟨by omega, by omega⟩

theorem Log.OnDisk.lt_of_area (h : log.OnDisk) {b : ℕ} (hb : log.Area b) : b < 2 ^ 31 := by
  have := h.end_le
  have := hb.2
  omega

theorem Log.OnDisk.slot_ne_head (h : log.OnDisk) {j : ℕ} (hj : (j : ℤ) + 1 < log.size) :
    log.slot j ≠ log.head := by
  have := h.slot_eq hj
  have := h.head_eq
  omega

theorem Log.OnDisk.slot_ne_slot (h : log.OnDisk) {j k : ℕ} (hj : (j : ℤ) + 1 < log.size)
    (hk : k < j) : log.slot j ≠ log.slot k := by
  have := h.slot_eq hj
  have := h.slot_eq (j := k) (by omega)
  omega

end

/-! ## What recovery makes of a disk -/

namespace LogHeader

variable {log : Log} {lh : LogHeader} {b j : ℕ}

theorem Sound.find_block (h : lh.Sound log) (hj : j < lh.n.toNat) :
    lh.find (lh.block j) = some j := by
  cases hfind : lh.find (lh.block j) with
  | none => exact absurd rfl ((find_none h.le_length).mp hfind j hj)
  | some k =>
      obtain ⟨hk, heq⟩ := find_some hfind
      rcases Nat.lt_trichotomy j k with hlt | rfl | hgt
      · exact absurd heq (h.distinct k hk j hlt)
      · rfl
      · exact absurd heq.symm (h.distinct j hj k hgt)

theorem Sound.of_empty (hs : log.OnDisk) (h : lh.n = 0) : lh.Sound log where
  nonneg := h.ge
  le_length := by omega
  lt_size := h ▸ hs.size_pos
  home_lt j hj := absurd hj (by omega)
  home_area j hj := absurd hj (by omega)
  distinct j hj := absurd hj (by omega)

/-- `Sound` reads the first `n` entries only. -/
theorem Sound.congr {lh' : LogHeader} (h : lh.Sound log) (hn : lh'.n = lh.n)
    (hblock : ∀ j < lh.n.toNat, lh'.block j = lh.block j) : lh'.Sound log where
  nonneg := hn ▸ h.nonneg
  le_length := hn ▸ h.le_length
  lt_size := hn ▸ h.lt_size
  home_lt j hj := by rw [hn] at hj; rw [hblock j hj]; exact h.home_lt j hj
  home_area j hj := by rw [hn] at hj; rw [hblock j hj]; exact h.home_area j hj
  distinct j hj k hk := by
    rw [hn] at hj
    rw [hblock j hj, hblock k (by omega)]
    exact h.distinct j hj k hk

end LogHeader

/-- The header found on the disk `d`. -/
def Log.onDiskHeader (log : Log) (d : ℕ → Block) : LogHeader := LogHeader.decode (d log.head)

/-- The contents of block `b` once recovery has run on the disk `d`. -/
def Log.recovered (log : Log) (d : ℕ → Block) (b : ℕ) : Block :=
  ((log.onDiskHeader d).find b).elim (d b) fun j => d (log.slot j)

theorem Log.recovered_of_empty {log : Log} {d : ℕ → Block} (h : (log.onDiskHeader d).n = 0)
    (b : ℕ) : log.recovered d b = d b := by
  rw [recovered, LogHeader.find_of_empty h]
  rfl

/-! ## What a power cut can find during a commit -/

section
variable (s : View) (d : ℕ → Block)

/-- `d` differs from the disk of `s` in log slots only. -/
def SlotsOnly : Prop := ∀ b, (∀ j < s.mem.log.lh.n.toNat, b ≠ s.mem.log.slot j) → d b = s.disk b

/-- `d` holds the transaction of `s` in its log, and some of it in its home blocks. -/
structure Sealed : Prop where
  count : (s.mem.log.onDiskHeader d).n = s.mem.log.lh.n
  entries : ∀ j < s.mem.log.lh.n.toNat,
    (s.mem.log.onDiskHeader d).block j = s.mem.log.lh.block j
  slots : ∀ j < s.mem.log.lh.n.toNat, d (s.mem.log.slot j) = s.store (s.mem.log.lh.block j)
  homes : ∀ j < s.mem.log.lh.n.toNat, d (s.mem.log.lh.block j) = s.disk (s.mem.log.lh.block j) ∨
    d (s.mem.log.lh.block j) = s.store (s.mem.log.lh.block j)
  rest : ∀ b, ¬ s.mem.log.Area b → (∀ j < s.mem.log.lh.n.toNat, b ≠ s.mem.log.lh.block j) →
    d b = s.disk b

/-- `d` holds the transaction of `s` in its home blocks and nothing in its log. -/
structure Cleared : Prop where
  count : (s.mem.log.onDiskHeader d).n = 0
  homes : ∀ j < s.mem.log.lh.n.toNat,
    d (s.mem.log.lh.block j) = s.store (s.mem.log.lh.block j)
  rest : ∀ b, ¬ s.mem.log.Area b → (∀ j < s.mem.log.lh.n.toNat, b ≠ s.mem.log.lh.block j) →
    d b = s.disk b

end

/-- The commit of `s` has ended in `t`. -/
structure Committed (s t : View) : Prop where
  mem : t.mem = { s.mem with log := s.mem.log.clear }
  refs : t.refs = s.refs
  store : ∀ b, ¬ s.mem.log.Area b → t.store b = s.store b
  homes : ∀ j < s.mem.log.lh.n.toNat,
    t.disk (s.mem.log.lh.block j) = s.store (s.mem.log.lh.block j) ∧
    t.dirty (s.mem.log.lh.block j) = false
  rest : ∀ b, ¬ s.mem.log.Area b → (∀ j < s.mem.log.lh.n.toNat, b ≠ s.mem.log.lh.block j) →
    t.disk b = s.disk b ∧ t.dirty b = s.dirty b
  area : ∀ b, s.mem.log.Area b → (s.store b = s.disk b → t.store b = t.disk b) ∧
    (s.dirty b = false → t.dirty b = false)
  header : (s.mem.log.onDiskHeader s.disk).n = 0 →
    (s.mem.log.onDiskHeader t.disk).n = 0

section
variable {dev : ℕ} {strict : Prop} {err : Stop → Prop} {crash : (ℕ → Block) → Prop}
  {Q : Unit → View → Prop} {s : View}

/-- What `commit` needs. -/
structure CommitReady (dev : ℕ) (strict : Prop) (crash : (ℕ → Block) → Prop) (s : View) :
    Prop where
  dev : s.mem.log.dev = dev
  onDisk : s.mem.log.OnDisk
  sound : s.mem.log.lh.Sound s.mem.log
  /-- The home blocks are pinned, or already on disk. -/
  safe : ∀ j < s.mem.log.lh.n.toNat, s.dirty (s.mem.log.lh.block j) = true ∨
    s.store (s.mem.log.lh.block j) = s.disk (s.mem.log.lh.block j)
  room : strict → s.Fits 2
  before : crash s.disk
  slotsOnly : ∀ d, SlotsOnly s d → crash d
  sealed : ∀ d, Sealed s d → crash d
  cleared : ∀ d, Cleared s d → crash d

/-! ## The four passes of a commit -/

private theorem CommitReady.slot_bound (h : CommitReady dev strict crash s) {j : ℕ}
    (hj : j < s.mem.log.lh.n.toNat) : (j : ℤ) + 1 < s.mem.log.size := by
  have := h.sound.lt_size
  omega

private theorem CommitReady.home_ne_slot (h : CommitReady dev strict crash s) {j k : ℕ}
    (hj : j < s.mem.log.lh.n.toNat) (hk : k < s.mem.log.lh.n.toNat) :
    s.mem.log.lh.block j ≠ s.mem.log.slot k := fun heq =>
  h.sound.home_area j hj (heq ▸ h.onDisk.area_slot (h.slot_bound hk))

private theorem CommitReady.home_ne_head (h : CommitReady dev strict crash s) {j : ℕ}
    (hj : j < s.mem.log.lh.n.toNat) : s.mem.log.lh.block j ≠ s.mem.log.head := fun heq =>
  h.sound.home_area j hj (heq ▸ h.onDisk.area_head)

private theorem CommitReady.writeLog (h : CommitReady dev strict crash s) :
    LoopReady dev strict crash s s.mem.log.slot s.mem.log.lh.block s.mem.log.lh.n.toNat where
  dev := h.dev
  length := by have := h.sound.le_length; have : (loglen : ℤ) = 30 := rfl; unfold loglen; omega
  dst_lt j hj := h.onDisk.lt_of_area (h.onDisk.area_slot (h.slot_bound hj))
  src_lt := h.sound.home_lt
  dst_inj j hj k hk := h.onDisk.slot_ne_slot (h.slot_bound hj) hk
  disjoint j hj k hk := h.home_ne_slot hj hk
  src_safe := h.safe
  room := h.room
  crash i hi t ht := h.slotsOnly _ fun b hb =>
    (ht.rest b fun j hj => hb j (by omega)).2.1

section
variable {t₁ t₃ : View} {i : ℕ}

/-- The slots hold the transaction after `write_log`. -/
private theorem CommitReady.slots (h : CommitReady dev strict crash s)
    (h₁ : Copied s t₁ s.mem.log.slot s.mem.log.lh.block s.mem.log.lh.n.toNat) :
    ∀ j < s.mem.log.lh.n.toNat,
      t₁.headed.store (s.mem.log.slot j) = s.store (s.mem.log.lh.block j) ∧
      t₁.headed.disk (s.mem.log.slot j) = s.store (s.mem.log.lh.block j) ∧
      t₁.headed.dirty (s.mem.log.slot j) = false := by
  intro j hj
  have hne := h.onDisk.slot_ne_head (h.slot_bound hj)
  obtain ⟨hst, hdk, hdt⟩ := View.headed_of_ne (s := t₁) (by rw [h₁.mem]; exact hne)
  rw [hst, hdk, hdt]
  exact h₁.done j hj

/-- `write_log` and the first `write_head` leave the blocks outside the log alone. -/
private theorem Copied.outside
    (h₁ : Copied s t₁ s.mem.log.slot s.mem.log.lh.block s.mem.log.lh.n.toNat) {b : ℕ}
    (hb : ∀ j < s.mem.log.lh.n.toNat, b ≠ s.mem.log.slot j) (hhead : b ≠ s.mem.log.head) :
    t₁.headed.store b = s.store b ∧ t₁.headed.disk b = s.disk b ∧
      t₁.headed.dirty b = s.dirty b := by
  obtain ⟨hst, hdk, hdt⟩ := View.headed_of_ne (s := t₁) (by rw [h₁.mem]; exact hhead)
  rw [hst, hdk, hdt]
  exact h₁.rest b hb

/-- The header describes the transaction after the first `write_head`. -/
private theorem CommitReady.header (h : CommitReady dev strict crash s)
    (h₁ : Copied s t₁ s.mem.log.slot s.mem.log.lh.block s.mem.log.lh.n.toNat) :
    (s.mem.log.onDiskHeader t₁.headed.disk).n = s.mem.log.lh.n ∧
      ∀ j < s.mem.log.lh.n.toNat,
        (s.mem.log.onDiskHeader t₁.headed.disk).block j = s.mem.log.lh.block j := by
  have hdec := LogHeader.decode_encode (t₁.store s.mem.log.head) h.sound.nonneg
    h.sound.le_length fun j hj =>
      (h.sound.home_lt j (by omega)).trans (by decide)
  have hdisk : t₁.headed.disk s.mem.log.head =
      (t₁.store s.mem.log.head).write 0 s.mem.log.lh.encode := by
    have := t₁.headed_disk_head
    rwa [h₁.mem] at this
  rw [Log.onDiskHeader, hdisk]
  exact ⟨hdec.1, fun j hj => hdec.2 j (by omega)⟩

private theorem CommitReady.area_of_slot (h : CommitReady dev strict crash s) {b : ℕ}
    (hb : ¬ s.mem.log.Area b) :
    (∀ j < s.mem.log.lh.n.toNat, b ≠ s.mem.log.slot j) ∧ b ≠ s.mem.log.head :=
  ⟨fun _ hj heq => hb (heq ▸ h.onDisk.area_slot (h.slot_bound hj)),
    fun heq => hb (heq ▸ h.onDisk.area_head)⟩

/-- The transaction is sealed from the first `write_head` to the second. -/
private theorem CommitReady.sealed_of_install (h : CommitReady dev strict crash s)
    (h₁ : Copied s t₁ s.mem.log.slot s.mem.log.lh.block s.mem.log.lh.n.toNat)
    (h₃ : Copied t₁.headed t₃ s.mem.log.lh.block s.mem.log.slot i)
    (hi : i ≤ s.mem.log.lh.n.toNat) : Sealed s t₃.disk := by
  have hhead : t₃.disk s.mem.log.head = t₁.headed.disk s.mem.log.head :=
    (h₃.rest _ fun j hj => (h.home_ne_head (by omega)).symm).2.1
  refine ⟨?_, fun j hj => ?_, fun j hj => ?_, fun j hj => ?_, fun b hb hhome => ?_⟩
  · rw [Log.onDiskHeader, hhead]; exact (h.header h₁).1
  · rw [Log.onDiskHeader, hhead]; exact (h.header h₁).2 j hj
  · rw [(h₃.rest _ fun k hk => (h.home_ne_slot (by omega) hj).symm).2.1]
    exact (h.slots h₁ j hj).2.1
  · by_cases hdone : j < i
    · exact .inr ((h₃.done j hdone).2.1.trans (h.slots h₁ j hj).1)
    · have hother : ∀ k < i, s.mem.log.lh.block j ≠ s.mem.log.lh.block k := fun k hk =>
        h.sound.distinct j hj k (by omega)
      obtain ⟨hslot, hne⟩ := h.area_of_slot (h.sound.home_area j hj)
      exact .inl ((h₃.rest _ hother).2.1.trans (h₁.outside hslot hne).2.1)
  · obtain ⟨hslot, hne⟩ := h.area_of_slot hb
    rw [(h₃.rest b fun k hk => hhome k (by omega)).2.1]
    exact (h₁.outside hslot hne).2.1

private theorem CommitReady.install (h : CommitReady dev strict crash s)
    (h₁ : Copied s t₁ s.mem.log.slot s.mem.log.lh.block s.mem.log.lh.n.toNat)
    (hroom : strict → t₁.headed.Fits 2) :
    LoopReady dev strict crash t₁.headed s.mem.log.lh.block s.mem.log.slot
      s.mem.log.lh.n.toNat where
  dev := by rw [← h.dev, ← h₁.mem]; rfl
  length := h.writeLog.length
  dst_lt := h.sound.home_lt
  src_lt := h.writeLog.dst_lt
  dst_inj := h.sound.distinct
  disjoint j hj k hk := (h.home_ne_slot hk hj).symm
  src_safe j hj := .inr ((h.slots h₁ j hj).1.trans (h.slots h₁ j hj).2.1.symm)
  room := hroom
  crash i hi t ht := h.sealed _ (h.sealed_of_install h₁ ht hi)

/-- The header is clear after the second `write_head`. -/
theorem decode_headed_clear (t : View) :
    (t.mem.log.onDiskHeader (t.setLog Log.clear).headed.disk).n = 0 := by
  have hdec := LogHeader.decode_encode (t.store t.mem.log.head)
    (show 0 ≤ t.mem.log.clear.lh.n from le_refl 0) (Int.natCast_nonneg _) fun j hj => absurd hj (by simp [Log.clear])
  have hdisk : (t.setLog Log.clear).headed.disk t.mem.log.head =
      (t.store t.mem.log.head).write 0 t.mem.log.clear.lh.encode :=
    (t.setLog Log.clear).headed_disk_head
  rw [Log.onDiskHeader, hdisk]
  exact hdec.1

/-- A commit ends in a view where everything has been installed. -/
private theorem CommitReady.committed (h : CommitReady dev strict crash s)
    (h₁ : Copied s t₁ s.mem.log.slot s.mem.log.lh.block s.mem.log.lh.n.toNat)
    (h₃ : Copied t₁.headed t₃ s.mem.log.lh.block s.mem.log.slot s.mem.log.lh.n.toNat) :
    Committed s (t₃.setLog Log.clear).headed := by
  have hmem : t₃.mem = s.mem := h₃.mem.trans h₁.mem
  have hheaded : ∀ {b}, b ≠ s.mem.log.head → (t₃.setLog Log.clear).headed.store b = t₃.store b ∧
      (t₃.setLog Log.clear).headed.disk b = t₃.disk b ∧
      (t₃.setLog Log.clear).headed.dirty b = t₃.dirty b := fun hb =>
    View.headed_of_ne (s := t₃.setLog Log.clear) fun heq => hb (heq.trans (by
      rw [View.setLog_log, hmem]; rfl))
  have hhome : ∀ j < s.mem.log.lh.n.toNat,
      t₃.store (s.mem.log.lh.block j) = s.store (s.mem.log.lh.block j) ∧
      t₃.disk (s.mem.log.lh.block j) = s.store (s.mem.log.lh.block j) ∧
      t₃.dirty (s.mem.log.lh.block j) = false := fun j hj => by
    have hslot := (h.slots h₁ j hj).1
    obtain ⟨hst, hdk, hdt⟩ := h₃.done j hj
    exact ⟨hst.trans hslot, hdk.trans hslot, hdt⟩
  have hrest : ∀ b, ¬ s.mem.log.Area b → (∀ j < s.mem.log.lh.n.toNat, b ≠ s.mem.log.lh.block j) →
      t₃.store b = s.store b ∧ t₃.disk b = s.disk b ∧ t₃.dirty b = s.dirty b := fun b hb hne => by
    obtain ⟨hslot, hhead⟩ := h.area_of_slot hb
    obtain ⟨hst, hdk, hdt⟩ := h₃.rest b hne
    obtain ⟨hst', hdk', hdt'⟩ := h₁.outside hslot hhead
    exact ⟨hst.trans hst', hdk.trans hdk', hdt.trans hdt'⟩
  refine ⟨?_, ?_, fun b hb => ?_, fun j hj => ?_, fun b hb hne => ?_, fun b hb => ?_, fun _ => ?_⟩
  · change { t₃.mem with log := t₃.mem.log.clear } = _
    rw [hmem]
  · exact h₃.refs.trans h₁.refs
  · rw [(hheaded (h.area_of_slot hb).2).1]
    by_cases hin : ∃ j < s.mem.log.lh.n.toNat, b = s.mem.log.lh.block j
    · obtain ⟨j, hj, rfl⟩ := hin
      exact (hhome j hj).1
    · push Not at hin
      exact (hrest b hb hin).1
  · obtain ⟨-, hdk, hdt⟩ := hheaded (h.home_ne_head hj)
    exact ⟨hdk.trans (hhome j hj).2.1, hdt.trans (hhome j hj).2.2⟩
  · obtain ⟨-, hdk, hdt⟩ := hheaded (h.area_of_slot hb).2
    exact ⟨hdk.trans (hrest b hb hne).2.1, hdt.trans (hrest b hb hne).2.2⟩
  · by_cases hhead : b = s.mem.log.head
    · subst hhead
      have hst := (t₃.setLog Log.clear).headed_store_head
      have hdk := (t₃.setLog Log.clear).headed_disk_head
      have hdt := (t₃.setLog Log.clear).headed_dirty_head
      have heq : (t₃.setLog Log.clear).mem.log.head = s.mem.log.head := by
        rw [View.setLog_log, hmem]; rfl
      rw [heq] at hst hdk hdt
      exact ⟨fun _ => hst.trans hdk.symm, fun _ => hdt⟩
    · obtain ⟨hst, hdk, hdt⟩ := hheaded hhead
      obtain ⟨hst', hdk', hdt'⟩ := h₃.rest b fun j hj heq => h.sound.home_area j hj (heq ▸ hb)
      rw [hst, hdk, hdt, hst', hdk', hdt']
      by_cases hslot : ∃ j < s.mem.log.lh.n.toNat, b = s.mem.log.slot j
      · obtain ⟨j, hj, rfl⟩ := hslot
        obtain ⟨h1, h2, h3⟩ := h.slots h₁ j hj
        exact ⟨fun _ => h1.trans h2.symm, fun _ => h3⟩
      · push Not at hslot
        obtain ⟨h1, h2, h3⟩ := h₁.outside hslot hhead
        rw [h1, h2, h3]
        exact ⟨id, id⟩
  · have := decode_headed_clear t₃
    rwa [hmem] at this

private theorem Committed.cleared {t : View} (ht : Committed s t)
    (hhead : (s.mem.log.onDiskHeader t.disk).n = 0) :
    Cleared s t.disk :=
  ⟨hhead, fun j hj => (ht.homes j hj).1, fun b hb hne => (ht.rest b hb hne).1⟩

end

/-- `commit` installs the transaction, passing only through disks that hold none or all
of it, or have it sealed in the log. -/
theorem commit_wp (h : CommitReady dev strict crash s) :
    commit.wp (cacheRules dev strict err crash) (fun _ t => Committed s t) s := by
  rw [commit, wp_getLog]
  refine ⟨h.before, ?_⟩
  have hhead : s.mem.log.head < 2 ^ 31 := h.onDisk.lt_of_area h.onDisk.area_head
  by_cases hn : 0 < s.mem.log.lh.n
  · rw [if_pos hn, Prog.wp_bind]
    refine Prog.wp_mono (writeLog_wp h.writeLog) fun _ t₁ hcrash₁ h₁ => ?_
    have hroom₁ : strict → t₁.Fits 2 := fun hs => (h.room hs).mono h₁.busy
    have hroom₂ : strict → t₁.headed.Fits 2 := fun hs => (hroom₁ hs).mono fun _ => View.headed_busy
    have hsealed := h.sealed _ (h.sealed_of_install h₁ (Copied.zero ..) (Nat.zero_le _))
    rw [Prog.wp_bind]
    refine writeHead_wp (h₁.mem ▸ h.dev) (h₁.mem ▸ hhead) (h₁.mem ▸ h.sound.le_length)
      (fun hs => (hroom₁ hs).less (by omega)) hcrash₁ hsealed ?_
    have hinstall := h.install h₁ hroom₂
    rw [← h₁.mem] at hinstall
    rw [Prog.wp_bind]
    refine Prog.wp_mono (installTrans_wp hinstall) fun _ t₃ hcrash₃ h₃ => ?_
    rw [View.headed_mem, h₁.mem] at h₃
    have hmem : t₃.mem = s.mem := h₃.mem.trans h₁.mem
    have hcommitted := h.committed h₁ h₃
    have hcount := decode_headed_clear t₃
    rw [hmem] at hcount
    rw [wp_modifyLog]
    refine ⟨hcrash₃, writeHead_wp ?_ ?_ (Int.natCast_nonneg _) (fun hs => ?_) hcrash₃
      (h.cleared _ (hcommitted.cleared hcount)) hcommitted⟩
    · rw [View.setLog_log, hmem]; exact h.dev
    · rw [View.setLog_log, hmem]; exact hhead
    · exact (((hroom₂ hs).mono h₃.busy).less (by omega)).mono fun _ hc => hc
  · have hzero : s.mem.log.lh.n = 0 := by have := h.sound.nonneg; omega
    rw [if_neg hn, Prog.pure_eq, wp_done]
    refine ⟨h.before, ?_, rfl, fun _ _ => rfl, fun j hj => ?_, fun _ _ _ => ⟨rfl, rfl⟩,
      fun _ _ => ⟨id, id⟩, id⟩
    · rw [Log.clear, ← hzero]
    · rw [hzero] at hj; cases hj

/-! ## The same disks, as recovery sees them -/

/-- A disk whose log is well formed, and what recovery makes of it. -/
structure Log.Recoverable (log : Log) (target : ℕ → Block) (d : ℕ → Block) : Prop where
  sound : (log.onDiskHeader d).Sound log
  contents : ∀ b, ¬ log.Area b → log.recovered d b = target b

/-- While the slots are written, recovery finds the old contents. -/
theorem SlotsOnly.recoverable {d : ℕ → Block} (hs : s.mem.log.OnDisk)
    (hsound : s.mem.log.lh.Sound s.mem.log) (hempty : (s.mem.log.onDiskHeader s.disk).n = 0)
    (h : SlotsOnly s d) : s.mem.log.Recoverable s.disk d := by
  have hslot : ∀ j < s.mem.log.lh.n.toNat, (j : ℤ) + 1 < s.mem.log.size := fun j hj => by
    have := hsound.lt_size
    omega
  have hhead : (s.mem.log.onDiskHeader d).n = 0 := by
    rw [Log.onDiskHeader, h _ fun j hj => (hs.slot_ne_head (hslot j hj)).symm]
    exact hempty
  refine ⟨LogHeader.Sound.of_empty hs hhead, fun b hb => ?_⟩
  rw [Log.recovered_of_empty hhead]
  exact h b fun j hj heq => hb (heq ▸ hs.area_slot (hslot j hj))

/-- From the first `write_head` to the second, recovery finds the new contents. -/
theorem Sealed.recoverable {d : ℕ → Block} {target : ℕ → Block}
    (hsound : s.mem.log.lh.Sound s.mem.log)
    (hhome : ∀ j < s.mem.log.lh.n.toNat,
      target (s.mem.log.lh.block j) = s.store (s.mem.log.lh.block j))
    (hrest : ∀ b, ¬ s.mem.log.Area b → (∀ j < s.mem.log.lh.n.toNat, b ≠ s.mem.log.lh.block j) →
      target b = s.disk b)
    (h : Sealed s d) : s.mem.log.Recoverable target d := by
  have hsound' : (s.mem.log.onDiskHeader d).Sound s.mem.log := hsound.congr h.count h.entries
  refine ⟨hsound', fun b hb => ?_⟩
  rw [Log.recovered]
  by_cases hin : ∃ j < s.mem.log.lh.n.toNat, b = s.mem.log.lh.block j
  · obtain ⟨j, hj, rfl⟩ := hin
    have hfind := hsound'.find_block (j := j) (by rw [h.count]; exact hj)
    rw [h.entries j hj] at hfind
    rw [hfind, hhome j hj]
    exact h.slots j hj
  · push Not at hin
    have hfind : (s.mem.log.onDiskHeader d).find b = none := by
      rw [LogHeader.find_none hsound'.le_length, h.count]
      intro j hj
      rw [h.entries j hj]
      exact hin j hj
    rw [hfind, hrest b hb hin]
    exact h.rest b hb hin

/-- After the second `write_head` the log is empty and the new contents are in place. -/
theorem Cleared.recoverable {d : ℕ → Block} {target : ℕ → Block} (hs : s.mem.log.OnDisk)
    (hhome : ∀ j < s.mem.log.lh.n.toNat,
      target (s.mem.log.lh.block j) = s.store (s.mem.log.lh.block j))
    (hrest : ∀ b, ¬ s.mem.log.Area b → (∀ j < s.mem.log.lh.n.toNat, b ≠ s.mem.log.lh.block j) →
      target b = s.disk b)
    (h : Cleared s d) : s.mem.log.Recoverable target d := by
  refine ⟨LogHeader.Sound.of_empty hs h.count, fun b hb => ?_⟩
  rw [Log.recovered_of_empty h.count]
  by_cases hin : ∃ j < s.mem.log.lh.n.toNat, b = s.mem.log.lh.block j
  · obtain ⟨j, hj, rfl⟩ := hin
    rw [hhome j hj]
    exact h.homes j hj
  · push Not at hin
    rw [hrest b hb hin]
    exact h.rest b hb hin

end

end RiscvOs
