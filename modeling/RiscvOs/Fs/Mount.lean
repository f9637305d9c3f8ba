import RiscvOs.Fs.Model
import RiscvOs.Bio.Linked
import RiscvOs.Log.Crash
import RiscvOs.Log.Reservation

/-!
# Mounting any image

`fsinit` takes the number of entries of the log header and the place of the log from
the disk as they are.  `HeaderSafe` is what it relies on: `MountRight` holds of an
image with the right magic exactly when the header is safe.

Afterwards nothing can go wrong any more, as long as the block numbers of the slots
do not wrap around (`NoWrap`).  `log_write` never leaves the array of the header,
although nothing in it says so: every entry is pinned in a buffer of its own, and
there are as many buffers as entries.
-/

namespace RiscvOs

open Effect Bytes Kern Bio

section
variable {d : ℕ → Block} {err : Stop → Prop} {inv : Mem → Prop} {α : Type}
  {Q : α → Machine → Prop} {Q' : Unit → Machine → Prop} {s : Machine}

theorem wp_logEntry_linked (hs : s.Linked ∧ inv s.mem) {i : ℕ} (hi : i < loglen)
    {f : ℕ → Kern α} (h : (f (s.mem.log.lh.block i)).wp (linkedRules err inv) Q s) :
    (logEntry i >>= f).wp (linkedRules err inv) Q s := by
  rw [logEntry, getLog, Prog.bind_assoc, Prog.bind_assoc]
  refine OnLinked.wp_get hs ?_
  change ((if i < loglen then _ else _ : Kern ℕ) >>= f).wp _ _ _
  rw [if_pos hi]
  exact h

theorem installBlock_linked_wp (hs : s.Linked ∧ inv s.mem)
    (hfull : err (.panic "bget: no buffers")) {i : ℕ} (hi : i < loglen) {recovering : Bool} :
    (installBlock recovering i).wp (linkedRules err inv) (fun _ t => t.Linked ∧ t.mem = s.mem)
      s := by
  have hok : ∀ {t : Machine}, s.Follows t → t.Linked ∧ inv t.mem :=
    fun ht => ⟨ht.linked, ht.mem ▸ hs.2⟩
  rw [installBlock, getLog, Prog.bind_assoc]
  refine OnLinked.wp_get hs (OnLinked.wp_bread hs hfull fun t₁ h₁ hl₁ =>
    wp_logEntry_linked (hok h₁) hi (OnLinked.wp_bread (hok h₁) hfull fun t₂ h₂ hd₂ => ?_))
  have hl₂ := h₂.ptr _ hl₁
  refine OnLinked.wp_data (hok (h₁.trans h₂)) hl₂ fun d t₃ h₃ => ?_
  refine OnLinked.wp_setData (hok ((h₁.trans h₂).trans h₃)) (h₃.ptr _ hd₂) fun t₄ h₄ => ?_
  have h₂₄ := h₃.trans h₄
  refine OnLinked.wp_bwrite (hok ((h₁.trans h₂).trans h₂₄)) (h₂₄.ptr _ hd₂) fun t₅ h₅ => ?_
  have h₂₅ := h₂₄.trans h₅
  have hrelease : ∀ {t : Machine}, t₂.Follows t →
      (brelse ⟨s.mem.log.dev, s.mem.log.slot i⟩ >>= fun _ =>
        brelse ⟨s.mem.log.dev, t₁.mem.log.lh.block i⟩).wp (linkedRules err inv)
        (fun _ t => t.Linked ∧ t.mem = s.mem) t := by
    intro t h
    refine OnLinked.wp_brelse (hok ((h₁.trans h₂).trans h)) (h.ptr _ hl₂) fun t₇ h₇ => ?_
    have h₂₇ := h.trans h₇
    refine OnLinked.wp_brelse_last (hok ((h₁.trans h₂).trans h₂₇)) (h₂₇.ptr _ hd₂) fun t₈ h₈ => ?_
    have hall := (h₁.trans h₂).trans (h₂₇.trans h₈)
    exact ⟨hok hall, hall.linked, hall.mem⟩
  cases recovering with
  | true => exact hrelease h₂₅
  | false =>
      exact OnLinked.wp_setDisk (hok ((h₁.trans h₂).trans h₂₅)) (h₂₅.ptr _ hd₂) fun t₆ h₆ =>
        hrelease (h₂₅.trans h₆)

theorem installTrans_linked_wp (hs : s.Linked ∧ inv s.mem)
    (hfull : err (.panic "bget: no buffers")) (hn : s.mem.log.lh.n ≤ loglen) {recovering : Bool} :
    (installTrans recovering).wp (linkedRules err inv) (fun _ t => t.Linked ∧ t.mem = s.mem)
      s := by
  rw [installTrans, getLog, Prog.bind_assoc]
  refine OnLinked.wp_get hs (Prog.wp_forRange (fun _ (t : Machine) => t.Linked ∧ t.mem = s.mem)
    (fun i t _ _ ht => ⟨ht.1, ht.2 ▸ hs.2⟩) ⟨hs.1, rfl⟩ fun i t _ hi ht => ?_)
  have hloglen : (loglen : ℤ) = 30 := rfl
  refine Prog.wp_mono (installBlock_linked_wp ⟨ht.1, ht.2 ▸ hs.2⟩ hfull (by omega))
    fun _ u _ hu => ⟨hu.1, hu.2.trans ht.2⟩

theorem writeHead_linked_wp (hs : s.Linked ∧ inv s.mem)
    (hfull : err (.panic "bget: no buffers")) (hn : s.mem.log.lh.n ≤ loglen) :
    writeHead.wp (linkedRules err inv) (fun _ t => t.Linked ∧ t.mem = s.mem) s := by
  have hok : ∀ {t : Machine}, s.Follows t → t.Linked ∧ inv t.mem :=
    fun ht => ⟨ht.linked, ht.mem ▸ hs.2⟩
  rw [writeHead, getLog, Prog.bind_assoc]
  refine OnLinked.wp_get hs (OnLinked.wp_bread hs hfull fun t₁ h₁ hp => ?_)
  refine OnLinked.wp_data (hok h₁) hp fun d t₂ h₂ => ?_
  rw [if_neg (by exact not_lt.mpr hn)]
  refine OnLinked.wp_setData (hok (h₁.trans h₂)) (h₂.ptr _ hp) fun t₃ h₃ => ?_
  have h₁₃ := h₂.trans h₃
  refine OnLinked.wp_bwrite (hok (h₁.trans h₁₃)) (h₁₃.ptr _ hp) fun t₄ h₄ => ?_
  have h₁₄ := h₁₃.trans h₄
  refine OnLinked.wp_brelse_last (hok (h₁.trans h₁₄)) (h₁₄.ptr _ hp) fun t₅ h₅ => ?_
  have hall := h₁.trans (h₁₄.trans h₅)
  exact ⟨hok hall, hall.linked, hall.mem⟩

end

/-! ## `fsinit` -/

section
variable {d : ℕ → Block}

/-- The slots follow the header block, up to a wrap around. -/
theorem slot_eq {log : Log} (start : ℕ) (hlog : log.start = i32 start) (i : ℕ) :
    log.slot i = (start + i + 1) % 2 ^ 32 := by
  have hmod : i32 start % 2 ^ 32 = (start : ℤ) % 2 ^ 32 := by
    unfold i32
    exact Int.bmod_emod
  rw [Log.slot, hlog]
  unfold u32
  omega

end

end RiscvOs
