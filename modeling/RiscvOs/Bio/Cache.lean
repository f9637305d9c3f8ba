import RiscvOs.Kernel.Defs
import Mathlib.Data.Finset.Card

/-!
# What the buffer cache is for

`View` is the kernel state seen through the cache: the contents `bread` returns
for every block, the contents on disk, and how many references and which dirty
marks keep a block from being recycled.  `cache` gives the buffer calls their
meaning on it; which buffer a block sits in, and when it is recycled, is gone.

`cacheRules` adds what a caller must respect: it holds a reference to the buffers
it touches, and does not drop the last one to a clean buffer it has changed.  With
`strict` it also leaves a buffer to recycle for every `bread`.
-/

namespace RiscvOs

open Effect

/-- The kernel state seen through the buffer cache. -/
structure View where
  mem : Mem
  /-- The contents of every block, as `bread` returns them. -/
  store : ℕ → Block
  disk : ℕ → Block
  /-- References held to the block's buffer. -/
  refs : ℕ → ℕ
  /-- `disk == 1` in the block's buffer. -/
  dirty : ℕ → Bool

namespace View

/-- Assign the static data. -/
def withMem (s : View) (m : Mem) : View := { s with mem := m }

/-- Take a reference. -/
def hold (s : View) (b : ℕ) : View := { s with refs := Function.update s.refs b (s.refs b + 1) }

/-- Give a reference back. -/
def release (s : View) (b : ℕ) : View :=
  { s with refs := Function.update s.refs b (s.refs b - 1) }

/-- Change the contents of a buffer. -/
def put (s : View) (b : ℕ) (d : Block) : View := { s with store := Function.update s.store b d }

/-- Set or clear the dirty mark. -/
def mark (s : View) (b : ℕ) (dirty : Bool) : View :=
  { s with dirty := Function.update s.dirty b dirty }

/-- Write a buffer to disk; the request's completion clears the mark. -/
def flush (s : View) (b : ℕ) : View :=
  { s with
    disk := Function.update s.disk b (s.store b)
    dirty := Function.update s.dirty b false }

/-- A block that must stay in its buffer. -/
def Busy (s : View) (b : ℕ) : Prop := 0 < s.refs b ∨ s.dirty b = true

/-- Some buffer is free to take block `b` in. -/
def Room (s : View) (b : ℕ) : Prop :=
  ∃ blocks : Finset ℕ, blocks.card < nbuf ∧ ∀ c, c ≠ b → s.Busy c → c ∈ blocks

/-- There is room for `k` more blocks. -/
def Fits (s : View) (k : ℕ) : Prop :=
  ∃ blocks : Finset ℕ, blocks.card + k ≤ nbuf ∧ ∀ c, s.Busy c → c ∈ blocks

/-- Blocks that may be recycled are as they are on disk. -/
def Coherent (s : View) : Prop := ∀ b, ¬ s.Busy b → s.store b = s.disk b

section
variable (s : View) (m : Mem) (b : ℕ) (d : Block) (v : Bool)

@[simp] theorem withMem_mem : (s.withMem m).mem = m := rfl
@[simp] theorem withMem_store : (s.withMem m).store = s.store := rfl
@[simp] theorem withMem_disk : (s.withMem m).disk = s.disk := rfl
@[simp] theorem withMem_refs : (s.withMem m).refs = s.refs := rfl
@[simp] theorem withMem_dirty : (s.withMem m).dirty = s.dirty := rfl
@[simp] theorem hold_mem : (s.hold b).mem = s.mem := rfl
@[simp] theorem hold_store : (s.hold b).store = s.store := rfl
@[simp] theorem hold_disk : (s.hold b).disk = s.disk := rfl
@[simp] theorem hold_dirty : (s.hold b).dirty = s.dirty := rfl
@[simp] theorem release_mem : (s.release b).mem = s.mem := rfl
@[simp] theorem release_store : (s.release b).store = s.store := rfl
@[simp] theorem release_disk : (s.release b).disk = s.disk := rfl
@[simp] theorem release_dirty : (s.release b).dirty = s.dirty := rfl
@[simp] theorem put_mem : (s.put b d).mem = s.mem := rfl
@[simp] theorem put_disk : (s.put b d).disk = s.disk := rfl
@[simp] theorem put_refs : (s.put b d).refs = s.refs := rfl
@[simp] theorem put_dirty : (s.put b d).dirty = s.dirty := rfl
@[simp] theorem mark_mem : (s.mark b v).mem = s.mem := rfl
@[simp] theorem mark_store : (s.mark b v).store = s.store := rfl
@[simp] theorem mark_disk : (s.mark b v).disk = s.disk := rfl
@[simp] theorem mark_refs : (s.mark b v).refs = s.refs := rfl
@[simp] theorem flush_mem : (s.flush b).mem = s.mem := rfl
@[simp] theorem flush_store : (s.flush b).store = s.store := rfl
@[simp] theorem flush_refs : (s.flush b).refs = s.refs := rfl

@[simp] theorem hold_refs_same : (s.hold b).refs b = s.refs b + 1 := by simp [hold]
@[simp] theorem release_refs_same : (s.release b).refs b = s.refs b - 1 := by simp [release]
@[simp] theorem put_store_same : (s.put b d).store b = d := by simp [put]
@[simp] theorem mark_dirty_same : (s.mark b v).dirty b = v := by simp [mark]
@[simp] theorem flush_disk_same : (s.flush b).disk b = s.store b := by simp [flush]
@[simp] theorem flush_dirty_same : (s.flush b).dirty b = false := by simp [flush]

variable {s b} {c : ℕ}

theorem hold_refs_of_ne (h : c ≠ b) : (s.hold b).refs c = s.refs c := by simp [hold, h]
theorem release_refs_of_ne (h : c ≠ b) : (s.release b).refs c = s.refs c := by simp [release, h]
theorem put_store_of_ne {d : Block} (h : c ≠ b) : (s.put b d).store c = s.store c := by
  simp [put, h]
theorem mark_dirty_of_ne {v : Bool} (h : c ≠ b) : (s.mark b v).dirty c = s.dirty c := by
  simp [mark, h]
theorem flush_disk_of_ne (h : c ≠ b) : (s.flush b).disk c = s.disk c := by simp [flush, h]
theorem flush_dirty_of_ne (h : c ≠ b) : (s.flush b).dirty c = s.dirty c := by simp [flush, h]

theorem busy_hold : (s.hold b).Busy c ↔ s.Busy c ∨ c = b := by
  by_cases h : c = b
  · subst h; simp [Busy]
  · simp [Busy, hold_refs_of_ne h, h]

theorem Fits.room {k : ℕ} (h : s.Fits (k + 1)) (b : ℕ) : s.Room b := by
  obtain ⟨blocks, hcard, hblocks⟩ := h
  exact ⟨blocks, by omega, fun c _ hc => hblocks c hc⟩

theorem Fits.hold {k : ℕ} (h : s.Fits (k + 1)) (b : ℕ) : (s.hold b).Fits k := by
  obtain ⟨blocks, hcard, hblocks⟩ := h
  refine ⟨insert b blocks, ?_, fun c hc => ?_⟩
  · have := Finset.card_insert_le b blocks
    omega
  · rcases busy_hold.mp hc with hc | rfl
    · exact Finset.mem_insert_of_mem (hblocks c hc)
    · exact Finset.mem_insert_self _ _

theorem Fits.less {k k' : ℕ} (h : s.Fits k) (hle : k' ≤ k) : s.Fits k' := by
  obtain ⟨blocks, hcard, hblocks⟩ := h
  exact ⟨blocks, by omega, hblocks⟩

theorem Fits.mono {k : ℕ} {t : View} (h : s.Fits k) (hbusy : ∀ c, t.Busy c → s.Busy c) :
    t.Fits k := by
  obtain ⟨blocks, hcard, hblocks⟩ := h
  exact ⟨blocks, hcard, fun c hc => hblocks c (hbusy c hc)⟩

/-- Giving back a reference just taken. -/
@[simp] theorem hold_release : (s.hold b).release b = s := by
  simp [hold, release]

end

end View

/-! ## The calls on a view -/

/-- The operations of kernel code on a view. -/
def cache : Handler kernSig Stop View
  | .get, s => .ok (s.mem, s)
  | .set m, s => .ok ((), s.withMem m)
  | .stop why, _ => .error why
  | .wakeup, s => .ok ((), s)
  | .bread _ blockno, s => .ok ((), s.hold blockno)
  | .data bp, s => .ok (s.store bp.blockno, s)
  | .setData bp d, s => .ok ((), s.put bp.blockno d)
  | .setDisk bp dirty, s => .ok ((), s.mark bp.blockno dirty)
  | .bwrite bp, s => .ok ((), s.flush bp.blockno)
  | .brelse bp, s => .ok ((), s.release bp.blockno)

/-- `bp` is in use on the one device. -/
def Held (dev : ℕ) (bp : BufRef) (s : View) : Prop := bp.dev = dev ∧ 0 < s.refs bp.blockno

/-- What a caller must respect. -/
def cachePre (dev : ℕ) (strict : Prop) : KOp → View → Prop
  | .bread dev' blockno, s => dev' = dev ∧ blockno < 2 ^ 31 ∧ (strict → s.Room blockno)
  | .data bp, s => Held dev bp s
  | .setData bp _, s => Held dev bp s
  | .setDisk bp _, s => Held dev bp s
  | .bwrite bp, s => Held dev bp s
  | .brelse bp, s => Held dev bp s ∧
      (s.refs bp.blockno = 1 → s.dirty bp.blockno = true ∨
        s.store bp.blockno = s.disk bp.blockno)
  | _, _ => True

/-- The rules of the buffer cache with its one device `dev`; `crash` is what a power
cut may find on disk. -/
def cacheRules (dev : ℕ) (strict : Prop) (err : Stop → Prop) (crash : (ℕ → Block) → Prop) :
    Rules kernSig Stop View :=
  ⟨cache, cachePre dev strict, err, fun s => crash s.disk⟩

/-! ## Executing a call

One lemma for each call followed by the rest of the program; the variants for a
call in last position end in `_last`. -/

section
variable {dev : ℕ} {strict : Prop} {err : Stop → Prop} {crash : (ℕ → Block) → Prop} {α : Type}
  {Q : α → View → Prop} {Q' : Unit → View → Prop} {s : View} {bp : BufRef}

theorem wp_get {f : Mem → Kern α} :
    (Kern.get >>= f).wp (cacheRules dev strict err crash) Q s ↔
      crash s.disk ∧ (f s.mem).wp (cacheRules dev strict err crash) Q s := by
  change crash s.disk ∧ True ∧ _ ↔ _
  rw [true_and]; rfl

theorem wp_set {m : Mem} {f : Unit → Kern α} :
    (Kern.set m >>= f).wp (cacheRules dev strict err crash) Q s ↔
      crash s.disk ∧ (f ()).wp (cacheRules dev strict err crash) Q (s.withMem m) := by
  change crash s.disk ∧ True ∧ _ ↔ _
  rw [true_and]; rfl

theorem wp_set_last {m : Mem} :
    (Kern.set m).wp (cacheRules dev strict err crash) Q' s ↔
      crash s.disk ∧ Q' () (s.withMem m) := by
  change crash s.disk ∧ True ∧ crash s.disk ∧ _ ↔ _
  rw [true_and, ← and_assoc, and_self_iff]

theorem wp_modify {g : Mem → Mem} {f : Unit → Kern α} :
    (Kern.modify g >>= f).wp (cacheRules dev strict err crash) Q s ↔
      crash s.disk ∧ (f ()).wp (cacheRules dev strict err crash) Q (s.withMem (g s.mem)) := by
  rw [Kern.modify, bind_assoc, wp_get, wp_set, ← and_assoc, and_self_iff]

theorem wp_modify_last {g : Mem → Mem} :
    (Kern.modify g).wp (cacheRules dev strict err crash) Q' s ↔
      crash s.disk ∧ Q' () (s.withMem (g s.mem)) := by
  rw [Kern.modify, wp_get, wp_set_last, ← and_assoc, and_self_iff]

theorem wp_stop {why : Stop} :
    (Kern.stop why : Kern α).wp (cacheRules dev strict err crash) Q s ↔
      crash s.disk ∧ err why := by
  change crash s.disk ∧ True ∧ _ ↔ _
  rw [true_and]; rfl

theorem wp_panic {msg : String} :
    (Kern.panic msg : Kern α).wp (cacheRules dev strict err crash) Q s ↔
      crash s.disk ∧ err (.panic msg) := wp_stop

theorem wp_wakeup {f : Unit → Kern α} :
    (Kern.wakeup >>= f).wp (cacheRules dev strict err crash) Q s ↔
      crash s.disk ∧ (f ()).wp (cacheRules dev strict err crash) Q s := by
  change crash s.disk ∧ True ∧ _ ↔ _
  rw [true_and]; rfl

theorem wp_bread {dev' b : ℕ} {f : BufRef → Kern α} :
    (Kern.bread dev' b >>= f).wp (cacheRules dev strict err crash) Q s ↔
      crash s.disk ∧ (dev' = dev ∧ b < 2 ^ 31 ∧ (strict → s.Room b)) ∧
        (f ⟨dev', b⟩).wp (cacheRules dev strict err crash) Q (s.hold b) := Iff.rfl

theorem wp_data {f : Block → Kern α} :
    (Kern.data bp >>= f).wp (cacheRules dev strict err crash) Q s ↔
      crash s.disk ∧ Held dev bp s ∧
        (f (s.store bp.blockno)).wp (cacheRules dev strict err crash) Q s := Iff.rfl

theorem wp_setData {d : Block} {f : Unit → Kern α} :
    (Kern.setData bp d >>= f).wp (cacheRules dev strict err crash) Q s ↔
      crash s.disk ∧ Held dev bp s ∧
        (f ()).wp (cacheRules dev strict err crash) Q (s.put bp.blockno d) := Iff.rfl

theorem wp_setDisk {v : Bool} {f : Unit → Kern α} :
    (Kern.setDisk bp v >>= f).wp (cacheRules dev strict err crash) Q s ↔
      crash s.disk ∧ Held dev bp s ∧
        (f ()).wp (cacheRules dev strict err crash) Q (s.mark bp.blockno v) := Iff.rfl

theorem wp_bwrite {f : Unit → Kern α} :
    (Kern.bwrite bp >>= f).wp (cacheRules dev strict err crash) Q s ↔
      crash s.disk ∧ Held dev bp s ∧
        (f ()).wp (cacheRules dev strict err crash) Q (s.flush bp.blockno) := Iff.rfl

theorem wp_brelse {f : Unit → Kern α} :
    (Kern.brelse bp >>= f).wp (cacheRules dev strict err crash) Q s ↔
      crash s.disk ∧ (Held dev bp s ∧ (s.refs bp.blockno = 1 → s.dirty bp.blockno = true ∨
          s.store bp.blockno = s.disk bp.blockno)) ∧
        (f ()).wp (cacheRules dev strict err crash) Q (s.release bp.blockno) := Iff.rfl

theorem wp_brelse_last :
    (Kern.brelse bp).wp (cacheRules dev strict err crash) Q' s ↔
      crash s.disk ∧ (Held dev bp s ∧ (s.refs bp.blockno = 1 → s.dirty bp.blockno = true ∨
          s.store bp.blockno = s.disk bp.blockno)) ∧
        Q' () (s.release bp.blockno) := by
  exact ⟨fun h => ⟨h.1, h.2.1, h.2.2.2⟩, fun h => ⟨h.1, h.2.1, h.1, h.2.2⟩⟩

theorem wp_done {a : α} :
    (Prog.ret a : Kern α).wp (cacheRules dev strict err crash) Q s ↔ crash s.disk ∧ Q a s := Iff.rfl

end

end RiscvOs
