import RiscvOs.Log.Model
import RiscvOs.Bio.Cache

/-!
# What the calls of the log do

Weakest preconditions of the functions of `Log/Model.lean` over a `View`.

`write_log` and `install_trans` are the same loop: round `i` copies a block
`src i` over a block `dst i`, in the cache and on disk.  `Copied` is its
invariant.  `commit_wp` composes the four passes of a commit; its three
hypotheses about `crash` are the three kinds of disk a power cut can find: only
log slots have changed, the header is complete and some home blocks have been
written, or the header is clear again.
-/

namespace RiscvOs

open Effect Bytes Kern

/-! ## The header on disk -/

private theorem flatMap_range_slice {α : Type} {g : ℕ → List α} {k : ℕ}
    (hlen : ∀ i, (g i).length = k) {n i : ℕ} (hi : i < n) :
    (((List.range n).flatMap g).drop (k * i)).take k = g i := by
  have htotal : ∀ m, ((List.range m).flatMap g).length = k * m := by
    intro m
    induction m with
    | zero => simp
    | succ m ih => rw [List.range_succ, List.flatMap_append, List.length_append, ih]; simp [hlen, Nat.mul_succ]
  induction n with
  | zero => omega
  | succ n ih =>
      rw [List.range_succ, List.flatMap_append, List.flatMap_singleton]
      rcases Nat.lt_succ_iff_lt_or_eq.mp hi with hlt | rfl
      · have hle : k * i + k ≤ k * n := by rw [← Nat.mul_succ]; exact Nat.mul_le_mul_left k hlt
        rw [List.drop_append_of_le_length (by rw [htotal]; omega),
          List.take_append_of_le_length (by rw [List.length_drop, htotal]; omega), ih hlt]
      · rw [List.drop_append, List.drop_eq_nil_of_le (by rw [htotal]), htotal, Nat.sub_self,
          List.drop_zero, List.nil_append, List.take_of_length_le (by rw [hlen])]

theorem LogHeader.length_encode (lh : LogHeader) : lh.encode.length = 4 + 4 * lh.n.toNat := by
  have : ∀ m, ((List.range m).flatMap fun i => le 4 (lh.block i)).length = 4 * m := by
    intro m
    induction m with
    | zero => simp
    | succ m ih => rw [List.range_succ, List.flatMap_append, List.length_append, ih]; simp [Nat.mul_succ]
  rw [LogHeader.encode, List.length_append, length_le, this]

/-- `read_head` finds what `write_head` stored. -/
theorem LogHeader.decode_encode {lh : LogHeader} (d : Block) (hlo : 0 ≤ lh.n)
    (hhi : lh.n ≤ loglen) (hblock : ∀ i : ℕ, (i : ℤ) < lh.n → lh.block i < 2 ^ 32) :
    (decode (d.write 0 lh.encode)).n = lh.n ∧
      ∀ i : ℕ, (i : ℤ) < lh.n → (decode (d.write 0 lh.encode)).block i = lh.block i := by
  have hloglen : (loglen : ℤ) = 30 := rfl
  have hfit : 0 + lh.encode.length ≤ bsize := by rw [length_encode]; unfold bsize; omega
  constructor
  · have h : (d.write 0 lh.encode).slice (0 + 0) 4 = (lh.encode.drop 0).take 4 :=
      d.slice_write_inside hfit (by rw [length_encode]; omega)
    have hu : ofLe (le 4 (u32 lh.n)) = lh.n := by
      rw [ofLe_le, Nat.mod_eq_of_lt (by have := u32_lt lh.n; omega)]
      unfold u32; omega
    simp only [Nat.zero_add, List.drop_zero] at h
    rw [decode, h, encode, List.take_append_of_le_length (by simp),
      List.take_of_length_le (by simp), hu, i32_eq_self (by omega) (by omega)]
  · intro i hi
    have h : (d.write 0 lh.encode).slice (0 + (4 + 4 * i)) 4 =
        (lh.encode.drop (4 + 4 * i)).take 4 :=
      d.slice_write_inside hfit (by rw [length_encode]; omega)
    rw [Nat.zero_add] at h
    have hdrop : lh.encode.drop (4 + 4 * i) =
        (((List.range lh.n.toNat).flatMap fun i => le 4 (lh.block i)).drop (4 * i)) := by
      rw [encode, List.drop_append, List.drop_eq_nil_of_le (by simp), length_le, List.nil_append]
      congr 1; omega
    simp only [decode]
    rw [h, hdrop, flatMap_range_slice (fun _ => length_le _ _) (by omega), ofLe_le,
      Nat.mod_eq_of_lt (by have := hblock i hi; omega)]

theorem LogHeader.readFrom_n (lh : LogHeader) (d : Block) :
    (lh.readFrom d).n = (decode d).n := by rw [readFrom]

theorem LogHeader.readFrom_block {lh : LogHeader} {d : Block} {i : ℕ}
    (hi : (i : ℤ) < (decode d).n) : (lh.readFrom d).block i = (decode d).block i := by
  simp only [readFrom, hi, if_true]

/-! ## The log in a view -/

/-- Assign to fields of `log`. -/
def View.setLog (s : View) (f : Log → Log) : View :=
  s.withMem { s.mem with log := f s.mem.log }

section
variable (s : View) (f g : Log → Log)

@[simp] theorem View.setLog_log : (s.setLog f).mem.log = f s.mem.log := rfl
@[simp] theorem View.setLog_store : (s.setLog f).store = s.store := rfl
@[simp] theorem View.setLog_disk : (s.setLog f).disk = s.disk := rfl
@[simp] theorem View.setLog_refs : (s.setLog f).refs = s.refs := rfl
@[simp] theorem View.setLog_dirty : (s.setLog f).dirty = s.dirty := rfl
theorem View.setLog_congr {s : View} {f g : Log → Log} (h : f s.mem.log = g s.mem.log) :
    s.setLog f = s.setLog g := by rw [View.setLog, View.setLog, h]

theorem View.setLog_release (b : ℕ) : (s.setLog f).release b = (s.release b).setLog f := rfl

end

section
variable {dev : ℕ} {strict : Prop} {err : Stop → Prop} {crash : (ℕ → Block) → Prop} {α : Type}
  {Q : α → View → Prop} {Q' : Unit → View → Prop} {s : View} {bp : BufRef}

theorem wp_getLog {f : Log → Kern α} :
    (getLog >>= f).wp (cacheRules dev strict err crash) Q s ↔
      crash s.disk ∧ (f s.mem.log).wp (cacheRules dev strict err crash) Q s := by
  rw [getLog, bind_assoc, wp_get]
  rfl

theorem wp_modifyLog {g : Log → Log} {f : Unit → Kern α} :
    (modifyLog g >>= f).wp (cacheRules dev strict err crash) Q s ↔
      crash s.disk ∧ (f ()).wp (cacheRules dev strict err crash) Q (s.setLog g) := wp_modify

theorem wp_modifyLog_last {g : Log → Log} :
    (modifyLog g).wp (cacheRules dev strict err crash) Q' s ↔
      crash s.disk ∧ Q' () (s.setLog g) := wp_modify_last

theorem wp_logEntry {i : ℕ} (hi : i < loglen) {f : ℕ → Kern α} :
    (logEntry i >>= f).wp (cacheRules dev strict err crash) Q s ↔
      crash s.disk ∧ (f (s.mem.log.lh.block i)).wp (cacheRules dev strict err crash) Q s := by
  rw [logEntry, bind_assoc, wp_getLog]
  simp only [hi, if_true]
  rfl

theorem wp_acquireLog {f : Unit → Kern α} (hlock : s.mem.log.lock = false) :
    (acquireLog >>= f).wp (cacheRules dev strict err crash) Q s ↔ crash s.disk ∧
      (f ()).wp (cacheRules dev strict err crash) Q
        (s.setLog fun log => { log with lock := true }) := by
  rw [acquireLog, bind_assoc, wp_getLog]
  simp only [hlock, Bool.false_eq_true, if_false]
  rw [wp_modifyLog, ← and_assoc, and_self_iff]

theorem wp_releaseLog {f : Unit → Kern α} :
    (releaseLog >>= f).wp (cacheRules dev strict err crash) Q s ↔ crash s.disk ∧
      (f ()).wp (cacheRules dev strict err crash) Q
        (s.setLog fun log => { log with lock := false }) := wp_modifyLog

theorem wp_releaseLog_last :
    releaseLog.wp (cacheRules dev strict err crash) Q' s ↔ crash s.disk ∧
      Q' () (s.setLog fun log => { log with lock := false }) := wp_modifyLog_last

end

/-! ## Copying a block to disk -/

/-- Block `dst` gets the contents of block `src`, in the cache and on disk. -/
def View.copy (s : View) (dst src : ℕ) : View := (s.put dst (s.store src)).flush dst

section
variable {s : View} {dst src b : ℕ}

@[simp] theorem View.copy_mem : (s.copy dst src).mem = s.mem := rfl
@[simp] theorem View.copy_refs : (s.copy dst src).refs = s.refs := rfl
@[simp] theorem View.copy_store_same : (s.copy dst src).store dst = s.store src := by
  simp [View.copy]
@[simp] theorem View.copy_disk_same : (s.copy dst src).disk dst = s.store src := by
  simp [View.copy]
@[simp] theorem View.copy_dirty_same : (s.copy dst src).dirty dst = false := by
  simp [View.copy]
theorem View.copy_store_of_ne (h : b ≠ dst) : (s.copy dst src).store b = s.store b := by
  simp [View.copy, View.put_store_of_ne h]
theorem View.copy_disk_of_ne (h : b ≠ dst) : (s.copy dst src).disk b = s.disk b := by
  simp [View.copy, View.flush_disk_of_ne h]
theorem View.copy_dirty_of_ne (h : b ≠ dst) : (s.copy dst src).dirty b = s.dirty b := by
  simp [View.copy, View.flush_dirty_of_ne h]

/-- A view is determined by its fields. -/
theorem View.ext' {s t : View} (hmem : s.mem = t.mem) (hstore : s.store = t.store)
    (hdisk : s.disk = t.disk) (hrefs : s.refs = t.refs) (hdirty : s.dirty = t.dirty) : s = t := by
  cases s; cases t; simp_all

private theorem refs_restored {refs : ℕ → ℕ} {a b : ℕ} (h : a ≠ b) :
    Function.update (Function.update (Function.update (Function.update refs a (refs a + 1)) b
      (refs b + 1)) b (refs b)) a (refs a) = refs := by
  funext c
  by_cases ha : c = a
  · subst ha; simp
  · by_cases hb : c = b
    · subst hb; simp [ha]
    · simp [ha, hb]

end

section
variable {dev : ℕ} {strict : Prop} {err : Stop → Prop} {crash : (ℕ → Block) → Prop}
  {Q : Unit → View → Prop} {s : View} {i : ℕ}

/-- What one round of `write_log` needs of its two blocks. -/
structure RoundReady (dev : ℕ) (strict : Prop) (crash : (ℕ → Block) → Prop) (s : View) (i : ℕ)
    (dst src : ℕ) : Prop where
  dev : s.mem.log.dev = dev
  index : i < loglen
  dst_lt : dst < 2 ^ 31
  src_lt : src < 2 ^ 31
  ne : dst ≠ src
  /-- The last reference to the source may be dropped. -/
  src_safe : s.dirty src = true ∨ s.store src = s.disk src
  room : strict → s.Fits 2
  before : crash s.disk
  after : crash (s.copy dst src).disk

theorem writeLogBlock_wp (h : RoundReady dev strict crash s i (s.mem.log.slot i)
      (s.mem.log.lh.block i))
    (hQ : Q () (s.copy (s.mem.log.slot i) (s.mem.log.lh.block i))) :
    (writeLogBlock i).wp (cacheRules dev strict err crash) Q s := by
  obtain ⟨hdev, hindex, hdst, hsrc, hne, hsafe, hroom, hbefore, hafter⟩ := h
  rw [writeLogBlock, wp_getLog]
  refine ⟨hbefore, ?_⟩
  rw [wp_bread]
  refine ⟨hbefore, ⟨hdev, hdst, fun hs => (hroom hs).room _⟩, ?_⟩
  rw [wp_logEntry hindex]
  refine ⟨hbefore, ?_⟩
  rw [wp_bread]
  refine ⟨hbefore, ⟨hdev, hsrc, fun hs => ((hroom hs).hold _).room _⟩, ?_⟩
  simp only [View.hold_mem]
  generalize s.mem.log.slot i = dst at *
  generalize s.mem.log.lh.block i = src at *
  rw [wp_data]
  refine ⟨hbefore, ⟨hdev, by simp⟩, ?_⟩
  rw [wp_setData]
  refine ⟨hbefore, ⟨hdev, by rw [View.hold_refs_of_ne hne]; simp⟩, ?_⟩
  rw [wp_bwrite]
  refine ⟨hbefore, ⟨hdev, by rw [View.put_refs, View.hold_refs_of_ne hne]; simp⟩, ?_⟩
  rw [wp_brelse]
  refine ⟨hafter, ⟨⟨hdev, by simp⟩, fun _ => ?_⟩, ?_⟩
  · simp only [View.flush_dirty_of_ne hne.symm, View.flush_disk_of_ne hne.symm, View.flush_store,
      View.put_store_of_ne hne.symm, View.put_dirty, View.put_disk, View.hold_dirty,
      View.hold_store, View.hold_disk]
    exact hsafe
  rw [wp_brelse_last]
  refine ⟨hafter, ⟨⟨hdev, ?_⟩, fun _ => .inr (by simp)⟩, ?_⟩
  · rw [View.release_refs_of_ne hne, View.flush_refs, View.put_refs, View.hold_refs_of_ne hne]
    simp
  convert hQ using 1
  refine View.ext' rfl rfl rfl ?_ rfl
  simp only [View.release, View.flush, View.put, View.hold, View.copy, Function.update_self,
    Function.update_of_ne hne, Function.update_of_ne hne.symm, Nat.add_sub_cancel]
  exact refs_restored hne

theorem installBlock_wp {recovering : Bool}
    (h : RoundReady dev strict crash s i (s.mem.log.lh.block i) (s.mem.log.slot i))
    (hQ : Q () (s.copy (s.mem.log.lh.block i) (s.mem.log.slot i))) :
    (installBlock recovering i).wp (cacheRules dev strict err crash) Q s := by
  obtain ⟨hdev, hindex, hdst, hsrc, hne, hsafe, hroom, hbefore, hafter⟩ := h
  rw [installBlock, wp_getLog]
  refine ⟨hbefore, ?_⟩
  rw [wp_bread]
  refine ⟨hbefore, ⟨hdev, hsrc, fun hs => (hroom hs).room _⟩, ?_⟩
  rw [wp_logEntry hindex]
  refine ⟨hbefore, ?_⟩
  rw [wp_bread]
  refine ⟨hbefore, ⟨hdev, hdst, fun hs => ((hroom hs).hold _).room _⟩, ?_⟩
  simp only [View.hold_mem]
  generalize s.mem.log.slot i = src at *
  generalize s.mem.log.lh.block i = dst at *
  rw [wp_data]
  refine ⟨hbefore, ⟨hdev, by rw [View.hold_refs_of_ne hne.symm]; simp⟩, ?_⟩
  rw [wp_setData]
  refine ⟨hbefore, ⟨hdev, by simp⟩, ?_⟩
  rw [wp_bwrite]
  refine ⟨hbefore, ⟨hdev, by simp⟩, ?_⟩
  -- the two releases are the same whether or not the mark is cleared once more
  have hrelease : (do brelse ⟨s.mem.log.dev, src⟩; brelse ⟨s.mem.log.dev, dst⟩ : Kern Unit).wp
      (cacheRules dev strict err crash) Q
      ((((s.hold src).hold dst).put dst (((s.hold src).hold dst).store src)).flush dst) := by
    rw [wp_brelse]
    refine ⟨hafter, ⟨⟨hdev, ?_⟩, fun _ => ?_⟩, ?_⟩
    · rw [View.flush_refs, View.put_refs, View.hold_refs_of_ne hne.symm]; simp
    · simp only [View.flush_dirty_of_ne hne.symm, View.flush_disk_of_ne hne.symm, View.flush_store,
        View.put_store_of_ne hne.symm, View.put_dirty, View.put_disk, View.hold_dirty,
        View.hold_store, View.hold_disk]
      exact hsafe
    rw [wp_brelse_last]
    refine ⟨hafter, ⟨⟨hdev, ?_⟩, fun _ => .inr (by simp)⟩, ?_⟩
    · rw [View.release_refs_of_ne hne, View.flush_refs, View.put_refs]; simp
    convert hQ using 1
    refine View.ext' rfl rfl rfl ?_ rfl
    simp only [View.release, View.flush, View.put, View.hold, View.copy, Function.update_self,
      Function.update_of_ne hne, Function.update_of_ne hne.symm, Nat.add_sub_cancel]
    rw [Function.update_comm hne.symm]
    exact refs_restored hne.symm
  cases recovering with
  | true => exact hrelease
  | false =>
      rw [if_neg Bool.false_ne_true, wp_setDisk]
      refine ⟨hafter, ⟨hdev, by simp⟩, ?_⟩
      convert hrelease using 1
      refine View.ext' rfl rfl rfl rfl ?_
      simp [View.mark, View.flush]

/-! ## The copy loops -/

/-- The first `i` rounds of a copy loop have been made since `s₀`. -/
structure Copied (s₀ s : View) (dst src : ℕ → ℕ) (i : ℕ) : Prop where
  mem : s.mem = s₀.mem
  refs : s.refs = s₀.refs
  done : ∀ j < i, s.store (dst j) = s₀.store (src j) ∧ s.disk (dst j) = s₀.store (src j) ∧
    s.dirty (dst j) = false
  rest : ∀ b, (∀ j < i, b ≠ dst j) → s.store b = s₀.store b ∧ s.disk b = s₀.disk b ∧
    s.dirty b = s₀.dirty b

variable {s₀ : View} {dst src : ℕ → ℕ} {n : ℕ}

theorem Copied.zero (s₀ : View) (dst src : ℕ → ℕ) : Copied s₀ s₀ dst src 0 :=
  ⟨rfl, rfl, fun j hj => absurd hj (Nat.not_lt_zero j), fun _ _ => ⟨rfl, rfl, rfl⟩⟩

theorem Copied.next (h : Copied s₀ s dst src i) (hdst : ∀ j < i, dst i ≠ dst j)
    (hsrc : ∀ j < i, src i ≠ dst j) : Copied s₀ (s.copy (dst i) (src i)) dst src (i + 1) where
  mem := h.mem
  refs := h.refs
  done := by
    intro j hj
    rcases Nat.lt_succ_iff_lt_or_eq.mp hj with hlt | rfl
    · have hne : dst j ≠ dst i := (hdst j hlt).symm
      rw [View.copy_store_of_ne hne, View.copy_disk_of_ne hne, View.copy_dirty_of_ne hne]
      exact h.done j hlt
    · simp [(h.rest _ hsrc).1]
  rest := by
    intro b hb
    have hne : b ≠ dst i := hb i (Nat.lt_succ_self i)
    rw [View.copy_store_of_ne hne, View.copy_disk_of_ne hne, View.copy_dirty_of_ne hne]
    exact h.rest b fun j hj => hb j (Nat.lt_succ_of_lt hj)

theorem Copied.busy (h : Copied s₀ s dst src i) (b : ℕ) (hb : s.Busy b) : s₀.Busy b := by
  rcases hb with hrefs | hdirty
  · exact .inl (h.refs ▸ hrefs)
  · by_cases hin : ∀ j < i, b ≠ dst j
    · exact .inr ((h.rest b hin).2.2 ▸ hdirty)
    · push Not at hin
      obtain ⟨j, hj, rfl⟩ := hin
      rw [(h.done j hj).2.2] at hdirty
      cases hdirty

/-- What a copy loop of `n` rounds needs. -/
structure LoopReady (dev : ℕ) (strict : Prop) (crash : (ℕ → Block) → Prop) (s₀ : View)
    (dst src : ℕ → ℕ) (n : ℕ) : Prop where
  dev : s₀.mem.log.dev = dev
  length : n ≤ loglen
  dst_lt : ∀ j < n, dst j < 2 ^ 31
  src_lt : ∀ j < n, src j < 2 ^ 31
  dst_inj : ∀ j < n, ∀ k < j, dst j ≠ dst k
  disjoint : ∀ j < n, ∀ k < n, src j ≠ dst k
  src_safe : ∀ j < n, s₀.dirty (src j) = true ∨ s₀.store (src j) = s₀.disk (src j)
  room : strict → s₀.Fits 2
  crash : ∀ i ≤ n, ∀ s, Copied s₀ s dst src i → crash s.disk

/-- The copy loop: every round copies its block. -/
theorem copyLoop_wp {body : ℕ → Kern Unit} (h : LoopReady dev strict crash s₀ dst src n)
    (hround : ∀ i < n, ∀ s, s.mem = s₀.mem → RoundReady dev strict crash s i (dst i) (src i) →
      (body i).wp (cacheRules dev strict err crash) (fun _ t => t = s.copy (dst i) (src i)) s) :
    (Prog.forRange body 0 n).wp (cacheRules dev strict err crash)
      (fun _ s => Copied s₀ s dst src n) s₀ := by
  have hloop : (Prog.forRange body 0 n).wp (cacheRules dev strict err crash)
      (fun _ s => Copied s₀ s dst src (0 + n)) s₀ := Prog.wp_forRange
    (fun i s => Copied s₀ s dst src i)
    (fun i t _ hi ht => h.crash i (by omega) t ht) (Copied.zero s₀ dst src) fun i t _ hi ht => by
      have hi : i < n := by omega
      have hnext := ht.next (h.dst_inj i hi) fun j hj => h.disjoint i hi j (by omega)
      refine Prog.wp_mono (hround i hi t ht.mem ?_) fun _ t' _ ht' => ?_
      · obtain ⟨hst, hdk, hdt⟩ := ht.rest (src i) fun j hj => h.disjoint i hi j (by omega)
        exact
          { dev := by rw [ht.mem]; exact h.dev
            index := hi.trans_le h.length
            dst_lt := h.dst_lt i hi
            src_lt := h.src_lt i hi
            ne := (h.disjoint i hi i hi).symm
            src_safe := by rw [hst, hdk, hdt]; exact h.src_safe i hi
            room := fun hs => (h.room hs).mono ht.busy
            before := h.crash i hi.le t ht
            after := h.crash (i + 1) hi _ hnext }
      · rw [ht']; exact hnext
  simpa using hloop

/-- `write_log` copies the home blocks to the slots. -/
theorem writeLog_wp
    (h : LoopReady dev strict crash s s.mem.log.slot s.mem.log.lh.block s.mem.log.lh.n.toNat) :
    writeLog.wp (cacheRules dev strict err crash)
      (fun _ t => Copied s t s.mem.log.slot s.mem.log.lh.block s.mem.log.lh.n.toNat) s := by
  rw [writeLog, wp_getLog]
  refine ⟨h.crash 0 (Nat.zero_le _) s (Copied.zero ..), copyLoop_wp h fun i _ t ht hready => ?_⟩
  rw [← ht] at hready
  rw [← ht]
  exact writeLogBlock_wp hready rfl

/-- `install_trans` copies the slots to the home blocks. -/
theorem installTrans_wp {recovering : Bool}
    (h : LoopReady dev strict crash s s.mem.log.lh.block s.mem.log.slot s.mem.log.lh.n.toNat) :
    (installTrans recovering).wp (cacheRules dev strict err crash)
      (fun _ t => Copied s t s.mem.log.lh.block s.mem.log.slot s.mem.log.lh.n.toNat) s := by
  rw [installTrans, wp_getLog]
  refine ⟨h.crash 0 (Nat.zero_le _) s (Copied.zero ..), copyLoop_wp h fun i _ t ht hready => ?_⟩
  rw [← ht] at hready
  rw [← ht]
  exact installBlock_wp hready rfl

/-! ## The header -/

/-- The header block after `write_head`. -/
def View.headed (s : View) : View :=
  (s.put s.mem.log.head ((s.store s.mem.log.head).write 0 s.mem.log.lh.encode)).flush
    s.mem.log.head

@[simp] theorem View.headed_mem (s : View) : s.headed.mem = s.mem := rfl
@[simp] theorem View.headed_refs (s : View) : s.headed.refs = s.refs := rfl

theorem View.headed_store_head (s : View) : s.headed.store s.mem.log.head =
    (s.store s.mem.log.head).write 0 s.mem.log.lh.encode := by simp [View.headed]

theorem View.headed_disk_head (s : View) : s.headed.disk s.mem.log.head =
    (s.store s.mem.log.head).write 0 s.mem.log.lh.encode := by simp [View.headed]

theorem View.headed_dirty_head (s : View) : s.headed.dirty s.mem.log.head = false := by
  simp [View.headed]

/-- `write_head` changes nothing but the header block. -/
theorem View.headed_of_ne {s : View} {b : ℕ} (hb : b ≠ s.mem.log.head) :
    s.headed.store b = s.store b ∧ s.headed.disk b = s.disk b ∧ s.headed.dirty b = s.dirty b := by
  rw [View.headed, View.flush_store, View.put_store_of_ne hb, View.flush_disk_of_ne hb,
    View.put_disk, View.flush_dirty_of_ne hb, View.put_dirty]
  exact ⟨rfl, rfl, rfl⟩

theorem View.headed_busy {s : View} {b : ℕ} (hb : s.headed.Busy b) : s.Busy b := by
  rcases hb with hrefs | hdirty
  · exact .inl hrefs
  · by_cases heq : b = s.mem.log.head
    · rw [heq, View.headed_dirty_head] at hdirty; cases hdirty
    · exact .inr ((View.headed_of_ne heq).2.2 ▸ hdirty)

theorem writeHead_wp (hdev : s.mem.log.dev = dev) (hhead : s.mem.log.head < 2 ^ 31)
    (hn : s.mem.log.lh.n ≤ loglen) (hroom : strict → s.Fits 1) (hbefore : crash s.disk)
    (hafter : crash s.headed.disk) (hQ : Q () s.headed) :
    writeHead.wp (cacheRules dev strict err crash) Q s := by
  rw [writeHead, wp_getLog]
  refine ⟨hbefore, ?_⟩
  rw [wp_bread]
  refine ⟨hbefore, ⟨hdev, hhead, fun hs => (hroom hs).room _⟩, ?_⟩
  rw [wp_data]
  refine ⟨hbefore, ⟨hdev, by simp⟩, ?_⟩
  rw [if_neg (not_lt.mpr hn), wp_setData]
  refine ⟨hbefore, ⟨hdev, by simp⟩, ?_⟩
  rw [wp_bwrite]
  refine ⟨hbefore, ⟨hdev, by simp⟩, ?_⟩
  rw [wp_brelse_last]
  refine ⟨hafter, ⟨⟨hdev, by simp⟩, fun _ => .inr (by simp)⟩, ?_⟩
  convert hQ using 1
  refine View.ext' rfl rfl rfl ?_ rfl
  simp only [View.release, View.flush, View.put, View.hold, View.headed, Function.update_self,
    Nat.add_sub_cancel, Function.update_idem, Function.update_eq_self]

theorem readHead_wp (hdev : s.mem.log.dev = dev) (hhead : s.mem.log.head < 2 ^ 31)
    (hclean : s.dirty s.mem.log.head = true ∨ s.store s.mem.log.head = s.disk s.mem.log.head)
    (hn : (LogHeader.decode (s.store s.mem.log.head)).n ≤ loglen)
    (hroom : strict → s.Fits 1) (hcrash : crash s.disk)
    (hQ : Q () (s.setLog fun log =>
      { log with lh := log.lh.readFrom (s.store s.mem.log.head) })) :
    readHead.wp (cacheRules dev strict err crash) Q s := by
  rw [readHead, wp_getLog]
  refine ⟨hcrash, ?_⟩
  rw [wp_bread]
  refine ⟨hcrash, ⟨hdev, hhead, fun hs => (hroom hs).room _⟩, ?_⟩
  rw [wp_data]
  refine ⟨hcrash, ⟨hdev, by simp⟩, ?_⟩
  have hfits : ¬ (loglen : ℤ) < (LogHeader.decode ((s.hold s.mem.log.head).store
      s.mem.log.head)).n := not_lt.mpr hn
  rw [if_neg hfits, wp_modifyLog]
  refine ⟨hcrash, ?_⟩
  rw [wp_brelse_last]
  refine ⟨?_, ⟨⟨hdev, ?_⟩, fun _ => ?_⟩, ?_⟩
  · rw [View.setLog_disk]; exact hcrash
  · rw [View.setLog_refs]; simp
  · simp only [View.setLog_dirty, View.setLog_store, View.setLog_disk]
    exact hclean
  · rw [View.setLog_release, View.hold_release]
    exact hQ

end

end RiscvOs
