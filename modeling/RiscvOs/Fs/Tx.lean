import RiscvOs.Log.Session
import RiscvOs.Fs.Layout

/-!
# Reading and changing blocks in a transaction

`Calm` is what file system code relies on when it reads, `Tx` what it relies on between
`begin_op` and `end_op`.  `Tx mode spare holds x` leaves room for `spare` blocks to be
logged beside the bitmap, and for `holds` buffers to be held at a time.

`wp_read` and `wp_update` are the two ways the code uses a buffer: take it, look at it and
release it, or change and log it before it is released.  Everything above is checked with
these two.
-/

namespace RiscvOs

open Effect Bytes Kern

/-- What code that reads relies on; it may hold `holds` buffers. -/
structure Calm (mode : Mode) (holds : ℕ) (x : Session) : Prop where
  inv : LogInv rootdev ∅ x.toView
  fits : mode.strict → x.Fits holds

/-- What code inside a transaction relies on. -/
structure Tx (mode : Mode) (spare holds : ℕ) (x : Session) : Prop where
  inv : LogInv rootdev ∅ x.toView
  unlocked : x.mem.log.lock = false
  idle : x.mem.log.committing = false
  begun : 1 ≤ x.mem.log.outstanding
  marked : x.marks ⊆ x.mem.log.lh.entries
  budget : mode.limited → (insert (x.mem.sb.bblock 0) x.marks).card + spare ≤ maxOpBlocks
  /-- The log takes the blocks still to be logged. -/
  room : mode.limited → x.mem.log.lh.n + maxOpBlocks + 2 ≤ x.mem.log.size + x.marks.card
  small : x.mem.log.size ≤ 31
  fits : mode.strict → x.Fits (holds + maxOpBlocks - x.marks.card)

/-- The log is still the same log. -/
structure Mem.SameLog (m m' : Mem) : Prop where
  log : m'.log = m.log
  sb : m'.sb = m.sb

section
variable {mode : Mode} {spare spare' holds holds' : ℕ} {x : Session} {b : ℕ} {d : Block}

theorem LogInv.withMem {dev : ℕ} {modified : Set ℕ} {s : View} (h : LogInv dev modified s)
    {m : Mem} (hlog : m.log = s.mem.log) : LogInv dev modified (s.withMem m) where
  dev := by rw [View.withMem_mem, hlog]; exact h.dev
  onDisk := by rw [View.withMem_mem, hlog]; exact h.onDisk
  sound := by rw [View.withMem_mem, hlog]; exact h.sound
  dirty := by rw [View.withMem_mem, hlog]; exact h.dirty
  clean := by rw [View.withMem_mem, hlog]; exact h.clean
  held := h.held
  outside := by rw [View.withMem_mem, hlog]; exact h.outside

namespace Calm

theorem hold (h : Calm mode (holds + 1) x) (b : ℕ) : Calm mode holds (x.hold b) :=
  ⟨h.inv.hold b, fun hs => (h.fits hs).hold b⟩

theorem less (h : Calm mode holds x) (hle : holds' ≤ holds) : Calm mode holds' x :=
  ⟨h.inv, fun hs => (h.fits hs).less hle⟩

theorem withMem (h : Calm mode holds x) {m : Mem} (hm : x.mem.SameLog m) :
    Calm mode holds (x.withMem m) :=
  ⟨h.inv.withMem hm.log, fun hs => (h.fits hs).mono fun _ hc => hc⟩

end Calm

/-- Logging a block that was changed while it was held. -/
theorem LogInv.write {s : View} (h : LogInv rootdev ∅ s) (hlt : b < 2 ^ 31)
    (harea : ¬ s.mem.log.Area b) (hsize : s.mem.log.lh.n < s.mem.log.size - 1)
    (hfull : b ∉ s.mem.log.lh.entries → s.mem.log.lh.n < loglen) :
    LogInv rootdev ∅ ((s.put b d).logged b) := by
  have hheld : 0 < (s.hold b).refs b := by simp
  have hlogged := ((h.hold b).put hheld hlt harea d).logged hlt harea hsize hfull
  have hempty : insert b (∅ : Set ℕ) \ {b} = ∅ := by simp
  rw [hempty] at hlogged
  have hreleased := hlogged.release (Set.notMem_empty b)
  convert hreleased using 1
  refine View.ext' rfl rfl rfl ?_ rfl
  simp only [View.release, View.logged, View.mark, View.put, View.hold, View.setLog, View.withMem,
    Function.update_self, Nat.add_sub_cancel, Function.update_idem, Function.update_eq_self]

namespace Tx

theorem marks_le (h : Tx mode spare holds x) (hlimited : mode.limited) :
    x.marks.card + spare ≤ maxOpBlocks := by
  have hcard := Finset.card_le_card (Finset.subset_insert (x.mem.sb.bblock 0) x.marks)
  have hbudget := h.budget hlimited
  omega

theorem calm (h : Tx mode spare holds x) : Calm mode holds x :=
  ⟨h.inv, fun hs => (h.fits hs).less (by have hle := h.marks_le (mode.capped hs); omega)⟩

theorem hold (h : Tx mode spare (holds + 1) x) (b : ℕ) : Tx mode spare holds (x.hold b) :=
  { h with
    inv := h.inv.hold b
    fits := fun hs => by
      have hfits := h.fits hs
      have hle := h.marks_le (mode.capped hs)
      have hsplit : holds + 1 + maxOpBlocks - x.marks.card =
          (holds + maxOpBlocks - x.marks.card) + 1 := by omega
      rw [hsplit] at hfits
      exact View.Fits.hold hfits b }

/-- A buffer is released again; whether the cache still has room is known otherwise. -/
theorem release (h : Tx mode spare holds (x.hold b))
    (hfits : mode.strict → Tx mode spare holds' x) : Tx mode spare holds' x where
  inv := by
    have hinv := h.inv.release (Set.notMem_empty b)
    rwa [Session.hold_view, View.hold_release] at hinv
  unlocked := h.unlocked
  idle := h.idle
  begun := h.begun
  marked := h.marked
  budget := h.budget
  room := h.room
  small := h.small
  fits hs := (hfits hs).fits hs

theorem less (h : Tx mode spare holds x) (hspare : spare' ≤ spare) (hholds : holds' ≤ holds) :
    Tx mode spare' holds' x :=
  { h with
    budget := fun hlimited => by have hbudget := h.budget hlimited; omega
    fits := fun hs => (h.fits hs).less (by omega) }

theorem withMem (h : Tx mode spare holds x) {m : Mem} (hm : x.mem.SameLog m) :
    Tx mode spare holds (x.withMem m) where
  inv := h.inv.withMem hm.log
  unlocked := by rw [Session.withMem_view, View.withMem_mem, hm.log]; exact h.unlocked
  idle := by rw [Session.withMem_view, View.withMem_mem, hm.log]; exact h.idle
  begun := by rw [Session.withMem_view, View.withMem_mem, hm.log]; exact h.begun
  marked := by rw [Session.withMem_view, View.withMem_mem, hm.log]; exact h.marked
  budget := by rw [Session.withMem_view, View.withMem_mem, hm.sb]; exact h.budget
  room := by rw [Session.withMem_view, View.withMem_mem, hm.log]; exact h.room
  small := by rw [Session.withMem_view, View.withMem_mem, hm.log]; exact h.small
  fits hs := (h.fits hs).mono fun _ hc => hc

theorem card_insert_le (h : Tx mode spare holds x) (hlimited : mode.limited)
    (hspare : b ∉ insert (x.mem.sb.bblock 0) x.marks → spare' + 1 ≤ spare)
    (hle : spare' ≤ spare) :
    (insert (x.mem.sb.bblock 0) (insert b x.marks)).card + spare' ≤ maxOpBlocks := by
  have hbudget := h.budget hlimited
  rw [Finset.insert_comm]
  by_cases hb : b ∈ insert (x.mem.sb.bblock 0) x.marks
  · rw [Finset.insert_eq_of_mem hb]
    omega
  · have hstep := hspare hb
    have hcard := Finset.card_insert_le b (insert (x.mem.sb.bblock 0) x.marks)
    omega

/-- The log has room for a block there is still one to spare for. -/
theorem notBig (h : Tx mode spare holds x) (hlimited : mode.limited) :
    x.mem.log.lh.n < x.mem.log.size - 1 := by
  have hfive : maxOpBlocks = 5 := rfl
  have hmarks := h.marks_le hlimited
  have hroom := h.room hlimited
  omega

/-- A block has been logged: a new one uses up one of those to spare, unless it is the
block of the bitmap. -/
theorem write (h : Tx mode spare holds x) (hlt : b < 2 ^ 31) (harea : ¬ x.mem.log.Area b)
    (hspare : b ∉ insert (x.mem.sb.bblock 0) x.marks → spare' + 1 ≤ spare)
    (hle : spare' ≤ spare) (hbig : x.mem.log.lh.n < x.mem.log.size - 1) (d : Block) :
    Tx mode spare' holds (x.write b d) := by
  have hloglen : (loglen : ℤ) = 30 := rfl
  have hfive : maxOpBlocks = 5 := rfl
  have hsmall := h.small
  obtain ⟨hnonneg, hdistinct, hentries⟩ := LogHeader.note_spec (b := b)
    (h.inv.sound.le_length) h.inv.sound.nonneg h.inv.sound.distinct
  -- a block that is new to the log is new to the marks
  have hn : (x.mem.log.lh.note b).n + x.marks.card ≤
      x.mem.log.lh.n + (insert b x.marks).card := by
    by_cases hmem : b ∈ x.mem.log.lh.entries
    · rw [LogHeader.note_of_mem h.inv.sound.le_length hmem]
      have hcard := Finset.card_le_card (Finset.subset_insert b x.marks)
      omega
    · rw [LogHeader.note_of_notMem h.inv.sound.le_length hmem,
        Finset.card_insert_of_notMem fun hb => hmem (h.marked hb)]
      simp only [LogHeader.append]
      omega
  exact
    { inv := h.inv.write hlt harea hbig fun _ => by omega
      unlocked := h.unlocked
      idle := h.idle
      begun := h.begun
      marked := by
        change insert b x.marks ⊆ (x.mem.log.lh.note b).entries
        rw [hentries]
        exact Finset.insert_subset_insert b h.marked
      budget := fun hlimited => h.card_insert_le hlimited hspare hle
      room := fun hlimited => by
        have hroom := h.room hlimited
        change (x.mem.log.lh.note b).n + maxOpBlocks + 2 ≤ x.mem.log.size + (insert b x.marks).card
        omega
      small := h.small
      fits := fun hs => by
        have hfits := h.fits hs
        change ((x.write b d).toView).Fits (holds + maxOpBlocks - (insert b x.marks).card)
        have hbusy : ∀ c, (x.write b d).Busy c → x.Busy c ∨ c = b := by
          rintro c (hrefs | hdirty)
          · exact .inl (.inl hrefs)
          · by_cases hc : c = b
            · exact .inr hc
            · rw [Session.write_dirty, Function.update_of_ne hc] at hdirty
              exact .inl (.inr hdirty)
        by_cases hmem : b ∈ x.marks
        · rw [Finset.insert_eq_of_mem hmem]
          have hb : x.Busy b := .inr ((h.inv.dirty b).mpr (h.marked hmem))
          exact hfits.mono fun c hc => (hbusy c hc).elim id fun heq => heq ▸ hb
        · rw [Finset.card_insert_of_notMem hmem]
          have hsplit : holds + maxOpBlocks - x.marks.card =
              (holds + maxOpBlocks - (x.marks.card + 1)) + 1 := by
            have hlt : x.marks.card + 1 ≤ maxOpBlocks := by
              rw [← Finset.card_insert_of_notMem hmem]
              have hcap := h.card_insert_le (mode.capped hs) hspare hle
              have hsub := Finset.card_le_card
                (Finset.subset_insert (x.mem.sb.bblock 0) (insert b x.marks))
              omega
            omega
          rw [hsplit] at hfits
          exact (View.Fits.hold hfits b).mono fun c hc => View.busy_hold.mpr (hbusy c hc) }

end Tx

end

/-! ## Using a buffer -/

namespace OnSession

section
variable {mode : Mode} {α : Type} {Q : α → Session → Prop}
  {Q' : Unit → Session → Prop} {spare spare' holds : ℕ} {x : Session} {b : ℕ} {d : Block}

theorem wp_bread {f : BufRef → Kern α} (hx : Calm mode (holds + 1) x) (hb : b < 2 ^ 31)
    (h : (f ⟨rootdev, b⟩).wp (sessionRules mode) Q (x.hold b)) :
    (bread rootdev b >>= f).wp (sessionRules mode) Q x :=
  ⟨trivial, ⟨⟨rfl, hb, fun hs => (hx.fits hs).room b⟩, fun _ _ h => nomatch h⟩, h⟩

theorem wp_brelse {f : Unit → Kern α} (hx : LogInv rootdev ∅ x.toView)
    (h : (f ()).wp (sessionRules mode) Q x) :
    (brelse ⟨rootdev, b⟩ >>= f).wp (sessionRules mode) Q (x.hold b) := by
  have hheld : 0 < (x.hold b).refs b := by simp
  refine ⟨trivial, ⟨⟨⟨rfl, hheld⟩, fun _ => ?_⟩, fun _ _ h => nomatch h⟩, ?_⟩
  · exact (hx.hold b).release_safe (Set.notMem_empty b)
  · change (f ()).wp _ Q ((x.hold b).release b)
    rw [Session.hold_release]
    exact h

theorem wp_brelse_last (hx : LogInv rootdev ∅ x.toView) (h : Q' () x) :
    (brelse ⟨rootdev, b⟩).wp (sessionRules mode) Q' (x.hold b) := by
  rw [← Prog.bind_ret (brelse _)]
  exact wp_brelse hx (wp_done.mpr h)

/-- A held buffer is read. -/
theorem wp_data_hold {f : Block → Kern α}
    (h : (f (x.store b)).wp (sessionRules mode) Q (x.hold b)) :
    (data ⟨rootdev, b⟩ >>= f).wp (sessionRules mode) Q (x.hold b) :=
  wp_data (x := x.hold b) (by simp) h

/-- A held buffer is changed, logged and released. -/
theorem wp_update {f : Unit → Kern α} (hx : Tx mode spare holds x) (hlt : b < 2 ^ 31)
    (harea : ¬ x.mem.log.Area b)
    (hspare : b ∉ insert (x.mem.sb.bblock 0) x.marks → spare' + 1 ≤ spare)
    (hle : spare' ≤ spare)
    (h : Tx mode spare' holds (x.write b d) →
      (f ()).wp (sessionRules mode) Q (x.write b d)) :
    (setData ⟨rootdev, b⟩ d >>= fun _ => logWrite ⟨rootdev, b⟩ >>= fun _ =>
      brelse ⟨rootdev, b⟩ >>= f).wp (sessionRules mode) Q (x.hold b) := by
  have hheld : 0 < (x.hold b).refs b := by simp
  refine ⟨trivial, ⟨⟨rfl, hheld⟩, fun _ _ h => nomatch h⟩, ?_⟩
  change (logWrite ⟨rootdev, b⟩ >>= _).wp _ Q ((x.hold b).put b d)
  rcases lt_or_ge x.mem.log.lh.n (x.mem.log.size - 1) with hroom | hbig
  · have hloglen : (loglen : ℤ) = 30 := rfl
    have hsmall := hx.small
    have hwrite := hx.write hlt harea hspare hle hroom d
    refine wp_logWrite (x := (x.hold b).put b d) hx.unlocked hheld hroom hx.begun ?_ ?_ ?_
    · change x.mem.log.lh.n < loglen
      omega
    · exact fun hlimited => le_trans (Finset.card_le_card (Finset.subset_insert _ _))
        (le_trans (Nat.le_add_right _ _) (hwrite.budget hlimited))
    · exact wp_brelse (x := x.write b d) hwrite.inv (h hwrite)
  · refine wp_logWrite_big (x := (x.hold b).put b d) hx.unlocked hbig (mode.big fun hlimited => ?_)
    exact absurd (hx.notBig hlimited) (not_lt.mpr hbig)

theorem wp_update_last (hx : Tx mode spare holds x) (hlt : b < 2 ^ 31)
    (harea : ¬ x.mem.log.Area b)
    (hspare : b ∉ insert (x.mem.sb.bblock 0) x.marks → spare' + 1 ≤ spare)
    (hle : spare' ≤ spare)
    (h : Tx mode spare' holds (x.write b d) → Q' () (x.write b d)) :
    (setData ⟨rootdev, b⟩ d >>= fun _ => logWrite ⟨rootdev, b⟩ >>= fun _ =>
      brelse ⟨rootdev, b⟩).wp (sessionRules mode) Q' (x.hold b) := by
  rw [← Prog.bind_ret (brelse _)]
  exact wp_update hx hlt harea hspare hle fun htx => wp_done.mpr (h htx)

end

end OnSession

/-! ## The ends of a transaction -/

/-- The session once `begin_op` has returned. -/
def Session.begin (x : Session) : Session :=
  { x with toView := x.toView.setLog fun log => { log with outstanding := log.outstanding + 1 } }

/-- A transaction that has just been opened. -/
theorem Tx.of_begin {mode : Mode} {holds : ℕ} {x : Session} (hinv : LogInv rootdev ∅ x.toView)
    (hlock : x.mem.log.lock = false) (hout : 0 ≤ x.mem.log.outstanding)
    (hsize : x.mem.log.size ≤ 31) (hmarks : x.marks = ∅)
    (hfits : mode.strict → x.Fits (holds + maxOpBlocks)) (hadmits : x.mem.log.admits) :
    Tx mode 4 holds x.begin := by
  have hfive : maxOpBlocks = 5 := rfl
  have hspace := hadmits.2
  exact
    { inv := hinv.setLog (f := fun log => { log with outstanding := log.outstanding + 1 })
        ⟨⟨rfl, rfl⟩, rfl, rfl⟩
      unlocked := hlock
      idle := hadmits.1
      begun := by
        change 1 ≤ x.mem.log.outstanding + 1
        omega
      marked := by
        change x.marks ⊆ _
        rw [hmarks]
        exact Finset.empty_subset _
      budget := fun _ => by
        change (insert _ x.marks).card + 4 ≤ maxOpBlocks
        rw [hmarks, insert_empty_eq, Finset.card_singleton]
      room := fun _ => by
        change x.mem.log.lh.n + maxOpBlocks + 2 ≤ x.mem.log.size + x.marks.card
        rw [hmarks, Finset.card_empty]
        omega
      small := hsize
      fits := fun hs => (hfits hs).less (Nat.sub_le _ _) }

/-- The session `y` is what `end_op` leaves of `x`. -/
structure Ended (x y : Session) : Prop where
  inv : LogInv rootdev ∅ y.toView
  mem : ∃ log, y.mem = { x.mem with log := log } ∧ x.mem.log.SameArea log ∧
    log.outstanding = x.mem.log.outstanding - 1 ∧ log.lock = false ∧ log.committing = false
  refs : y.refs = x.refs
  marks : y.marks = x.marks
  store : ∀ b, ¬ x.mem.log.Area b → y.store b = x.store b
  /-- The last operation has committed. -/
  empty : x.mem.log.outstanding = 1 → y.mem.log.lh.n = 0

namespace OnSession

section
variable {mode : Mode} {α : Type} {Q : α → Session → Prop}
  {Q' : Unit → Session → Prop} {spare holds : ℕ} {x : Session}

/-- `begin_op` opens a transaction. -/
theorem wp_beginOp {f : Unit → Kern α} (hinv : LogInv rootdev ∅ x.toView)
    (hlock : x.mem.log.lock = false) (hout : 0 ≤ x.mem.log.outstanding)
    (hsize : x.mem.log.size ≤ 31) (hmarks : x.marks = ∅)
    (hfits : mode.strict → x.Fits (holds + maxOpBlocks))
    (hsleep : ¬ x.mem.log.admits → mode.err .hang)
    (h : Tx mode 4 holds x.begin → (f ()).wp (sessionRules mode) Q x.begin) :
    (beginOp >>= f).wp (sessionRules mode) Q x := by
  rw [Prog.wp_bind]
  exact Session.of_cache unmarking_beginOp (beginOp_wp hlock trivial hsleep fun hadmits =>
    h (Tx.of_begin hinv hlock hout hsize hmarks hfits hadmits))

/-- `end_op` ends the transaction, and commits if no other is going on. -/
theorem wp_endOp {f : Unit → Kern α} (hx : Tx mode spare holds x)
    (hfits : mode.strict → x.Fits 2)
    (h : ∀ y, Ended x y → (f ()).wp (sessionRules mode) Q y) :
    (endOp >>= f).wp (sessionRules mode) Q x := by
  rw [Prog.wp_bind]
  refine Session.of_cache unmarking_endOp (endOp_wp hx.unlocked hx.idle trivial
    (fun hmore => h _ ?_) fun hlast => ⟨?_, fun t _ ht => h _ ?_⟩)
  · exact
      { inv := hx.inv.setLog (f := fun log => { log with outstanding := log.outstanding - 1 })
          ⟨⟨rfl, rfl⟩, rfl, rfl⟩
        mem := ⟨_, rfl, ⟨rfl, rfl⟩, rfl, hx.unlocked, hx.idle⟩
        refs := rfl
        marks := rfl
        store := fun _ _ => rfl
        empty := fun hone => absurd hone hmore }
  · have hending : LogInv rootdev ∅ x.toView.ending := hx.inv.setLog ⟨⟨rfl, rfl⟩, rfl, rfl⟩
    exact hending.commitReady hfits trivial (fun _ _ => trivial) (fun _ _ => trivial)
      fun _ _ => trivial
  · have hending : LogInv rootdev ∅ x.toView.ending := hx.inv.setLog ⟨⟨rfl, rfl⟩, rfl, rfl⟩
    obtain ⟨hinv, -, -, -⟩ := hending.committed ht
    have hlog : t.mem.log = x.toView.ending.mem.log.clear := congrArg Mem.log ht.mem
    refine
      { inv := hinv.setLog (f := fun log => { log with committing := false })
          ⟨⟨rfl, rfl⟩, rfl, rfl⟩
        mem := ⟨{ x.mem.log.clear with outstanding := 0, committing := false }, ?_, ⟨rfl, rfl⟩, ?_,
          hx.unlocked, rfl⟩
        refs := ht.refs
        marks := rfl
        store := ht.store
        empty := fun _ => ?_ }
    · change { t.mem with log := { t.mem.log with committing := false } } = _
      rw [ht.mem]
      rfl
    · change (0 : ℤ) = x.mem.log.outstanding - 1
      omega
    · change t.mem.log.lh.n = 0
      rw [hlog]
      rfl

end

end OnSession

end RiscvOs
