import RiscvOs.Bio.Model
import RiscvOs.Bio.Cache
import Mathlib.Data.Fintype.Card

/-!
# The buffer cache refines its view

`Refines dev order view s` relates a machine to what it is for.  `order` is the
list through `bcache.head`, most recently released buffer first.

All `NBUF` buffers start out labelled `(0, 0)`, so labels alone do not determine
a buffer.  What does is `Refines.first`: a buffer that has been read in is the
first one of `order` with its label, which is the one `bget` finds.  Releasing a
buffer moves it to the front, so it stays ahead of the unread ones with the same
label; recycling removes it from their number.

`simulation` is the refinement: what kernel code does on the machine is what it
does on the view.  With `strict` it never runs out of buffers.
-/

namespace RiscvOs.Bio

open Effect LinkedList

/-- Two labels are equal. -/
def SameLabel (bc : Bcache) (i j : Fin nbuf) : Prop :=
  (bc.buf i).dev = (bc.buf j).dev ∧ (bc.buf i).blockno = (bc.buf j).blockno

instance (bc : Bcache) (i j : Fin nbuf) : Decidable (SameLabel bc i j) :=
  inferInstanceAs (Decidable (_ ∧ _))

/-- `order` lists the buffers as the links do, every buffer once. -/
structure WellLinked (bc : Bcache) (order : List (Fin nbuf)) : Prop where
  circular : Circular bc.links none (order.map some)
  all : ∀ i, i ∈ order

/-- The machine `s` holds what `view` says, with the buffers in order `order`. -/
structure Refines (dev : ℕ) (order : List (Fin nbuf)) (view : View) (s : Machine) : Prop where
  mem : s.mem = view.mem
  disk : s.disk = view.disk
  linked : WellLinked s.bcache order
  /-- A buffer that has been read in is found under its label. -/
  first : ∀ i, (s.bcache.buf i).valid = true →
    order.find? (fun j => SameLabel s.bcache j i) = some i
  /-- A buffer that has not been read in is not in use. -/
  idle : ∀ i, (s.bcache.buf i).valid = false →
    (s.bcache.buf i).refcnt = 0 ∧ (s.bcache.buf i).disk = false
  label : ∀ i, (s.bcache.buf i).valid = true →
    (s.bcache.buf i).dev = dev ∧ (s.bcache.buf i).blockno < 2 ^ 31
  /-- What a buffer that has been read in holds. -/
  holds : ∀ i, (s.bcache.buf i).valid = true →
    (s.bcache.buf i).refcnt = view.refs (s.bcache.buf i).blockno ∧
    (s.bcache.buf i).disk = view.dirty (s.bcache.buf i).blockno ∧
    (s.bcache.buf i).data = view.store (s.bcache.buf i).blockno
  /-- A block in no buffer is not in use. -/
  absent : ∀ b, (∀ i, (s.bcache.buf i).valid = true → (s.bcache.buf i).blockno ≠ b) →
    ¬ view.Busy b
  coherent : view.Coherent
  /-- A pointer in use points to the block's buffer. -/
  ptr : ∀ b, 0 < view.refs b → ∃ i, s.ptr ⟨dev, b⟩ = some i ∧
    (s.bcache.buf i).valid = true ∧ (s.bcache.buf i).blockno = b

variable {dev : ℕ} {order : List (Fin nbuf)} {view : View} {s : Machine}

/-! ## The list -/

theorem WellLinked.nodup {bc : Bcache} (h : WellLinked bc order) : order.Nodup :=
  (List.nodup_map_iff (Option.some_injective _)).mp (List.nodup_cons.mp h.circular.nodup).2

theorem WellLinked.length {bc : Bcache} (h : WellLinked bc order) : order.length = nbuf := by
  have hperm : order.Perm (List.finRange nbuf) :=
    (List.perm_ext_iff_of_nodup h.nodup (List.nodup_finRange nbuf)).mpr fun i => by simp [h.all i]
  rw [hperm.length_eq, List.length_finRange]

/-- `bget` on a well-formed list: a hit is the first buffer with the label, a
recycled buffer the least recently released one that may be recycled. -/
theorem bget_eq {bc : Bcache} (h : WellLinked bc order) (dev b : ℕ) :
    bc.bget dev b =
      match order.find? fun i => bc.holds dev b (some i) with
      | some i => .ok (i, bc.modify i fun buf => { buf with refcnt := buf.refcnt + 1 })
      | none =>
          match order.reverse.find? fun i => bc.recyclable (some i) with
          | some i => .ok (i, bc.modify i fun buf =>
              { buf with dev := dev, blockno := b, valid := false, refcnt := 1 })
          | none => .error (.panic "bget: no buffers") := by
  have hrounds : (order.map some).length < Bcache.rounds := by
    rw [List.length_map, h.length]; decide
  unfold Bcache.bget
  rw [h.circular.scan_next _ hrounds, h.circular.scan_prev _ hrounds, ← List.map_reverse,
    List.find?_map, List.find?_map]
  cases hhit : order.find? ((bc.holds dev b) ∘ some) with
  | some i =>
      have hhit' : (order.find? fun i => bc.holds dev b (some i)) = some i := hhit
      rw [hhit']
      rfl
  | none =>
      have hhit' : (order.find? fun i => bc.holds dev b (some i)) = none := hhit
      rw [hhit']
      cases hmiss : order.reverse.find? (bc.recyclable ∘ some) with
      | some i =>
          have hmiss' : (order.reverse.find? fun i => bc.recyclable (some i)) = some i := hmiss
          rw [hmiss']
          rfl
      | none =>
          have hmiss' : (order.reverse.find? fun i => bc.recyclable (some i)) = none := hmiss
          rw [hmiss']
          rfl

/-- Changing the fields of buffers leaves the list as it is. -/
theorem WellLinked.congr {bc bc' : Bcache} (h : WellLinked bc order) (hlinks : bc'.links = bc.links) :
    WellLinked bc' order := ⟨hlinks ▸ h.circular, h.all⟩

/-- Moving a released buffer to the front. -/
theorem WellLinked.moveToFront {bc : Bcache} (h : WellLinked bc order) (i : Fin nbuf) :
    WellLinked { bc with links := (bc.links.unlink (some i)).pushFront none (some i) }
      (i :: order.erase i) := by
  refine ⟨?_, fun j => ?_⟩
  · obtain ⟨before, after, horder⟩ := List.append_of_mem (h.all i)
    have hnodup := h.nodup
    have hcircular := h.circular
    rw [horder, List.map_append, List.map_cons] at hcircular
    rw [horder] at hnodup
    have hbefore : i ∉ before := fun hi => (List.nodup_append.mp hnodup).2.2 i hi i (by simp) rfl
    have hafter : i ∉ after := (List.nodup_cons.mp (List.nodup_append.mp hnodup).2.1).1
    have herase : order.erase i = before ++ after := by
      rw [horder, List.erase_append_right _ hbefore, List.erase_cons_head]
    rw [herase, List.map_cons, List.map_append]
    exact hcircular.unlink.pushFront (by simp [hbefore, hafter]) (by simp)
  · by_cases hj : j = i
    · simp [hj]
    · exact List.mem_cons_of_mem _ ((List.mem_erase_of_ne hj).mpr (h.all j))

/-! ## The first buffer with a label -/

private theorem find?_congr_mem {α : Type} {l : List α} {p q : α → Bool}
    (h : ∀ a ∈ l, p a = q a) : l.find? p = l.find? q := by
  induction l with
  | nil => rfl
  | cons a rest ih =>
      have hrest := ih fun c hc => h c (List.mem_cons_of_mem _ hc)
      rw [List.find?_cons, List.find?_cons, h a List.mem_cons_self, hrest]

/-- Forgetting a node that is not the one found does not change what is found. -/
private theorem find?_forget {α : Type} {l : List α} {p q : α → Bool} {a i : α}
    (hfind : l.find? p = some a) (hsame : ∀ c, c ≠ i → q c = p c) (hq : q i = false)
    (hne : a ≠ i) : l.find? q = some a := by
  obtain ⟨hpa, before, after, rfl, hbefore⟩ := List.find?_eq_some_iff_append.mp hfind
  rw [List.find?_eq_some_iff_append]
  refine ⟨by rw [hsame a hne]; exact hpa, before, after, rfl, fun c hc => ?_⟩
  by_cases hci : c = i
  · rw [hci, hq]; rfl
  · rw [hsame c hci]; exact hbefore c hc

private theorem find?_moveToFront {l : List (Fin nbuf)} {p : Fin nbuf → Bool} {a i : Fin nbuf}
    (hfind : l.find? p = some a) (hp : p i = true → a = i) :
    (i :: l.erase i).find? p = some a := by
  rw [List.find?_cons]
  cases hpi : p i with
  | true => simp [hp hpi]
  | false =>
      have : (l.erase i).find? p = l.find? p := by
        induction l with
        | nil => rfl
        | cons c rest ih =>
            by_cases hci : c = i
            · subst hci; simp [hpi]
            · rw [List.erase_cons_tail (by simpa using hci), List.find?_cons, List.find?_cons]
              rw [List.find?_cons] at hfind
              cases hpc : p c with
              | true => rfl
              | false => rw [hpc] at hfind; exact ih hfind
      simp [this, hfind]

/-- Two buffers that have been read in do not carry the same label. -/
theorem Refines.unique (h : Refines dev order view s) {i j : Fin nbuf}
    (hi : (s.bcache.buf i).valid = true) (hj : (s.bcache.buf j).valid = true)
    (hlabel : SameLabel s.bcache i j) : i = j := by
  have hfirst := h.first i hi
  have hsame : (fun k => decide (SameLabel s.bcache k i)) = fun k => SameLabel s.bcache k j := by
    funext k
    exact decide_eq_decide.mpr (by simp only [SameLabel, hlabel.1, hlabel.2])
  rw [hsame, h.first j hj] at hfirst
  exact (Option.some.inj hfirst).symm

theorem Refines.eq_of_blockno (h : Refines dev order view s) {i j : Fin nbuf}
    (hi : (s.bcache.buf i).valid = true) (hj : (s.bcache.buf j).valid = true)
    (hblock : (s.bcache.buf i).blockno = (s.bcache.buf j).blockno) : i = j :=
  h.unique hi hj ⟨((h.label i hi).1).trans (h.label j hj).1.symm, hblock⟩

/-! ## Changing one buffer -/

/-- A buffer that has been read in changes, and with it what the view says of its block. -/
theorem Refines.touch (h : Refines dev order view s) {i : Fin nbuf} {b : ℕ} {view' : View}
    {s' : Machine} (hvalid : (s.bcache.buf i).valid = true) (hb : (s.bcache.buf i).blockno = b)
    (hmem : s'.mem = view'.mem) (hdisk : s'.disk = view'.disk)
    (hlinks : s'.bcache.links = s.bcache.links)
    (hothers : ∀ j, j ≠ i → s'.bcache.buf j = s.bcache.buf j)
    (hkeep : (s'.bcache.buf i).valid = true ∧ (s'.bcache.buf i).dev = (s.bcache.buf i).dev ∧
      (s'.bcache.buf i).blockno = b)
    (hholds : (s'.bcache.buf i).refcnt = view'.refs b ∧ (s'.bcache.buf i).disk = view'.dirty b ∧
      (s'.bcache.buf i).data = view'.store b)
    (hview : ∀ c, c ≠ b → view'.refs c = view.refs c ∧ view'.dirty c = view.dirty c ∧
      view'.store c = view.store c ∧ view'.disk c = view.disk c)
    (hcoherent : ¬ view'.Busy b → view'.store b = view'.disk b)
    (hptr : ∀ c, c ≠ b → s'.ptr ⟨dev, c⟩ = s.ptr ⟨dev, c⟩)
    (hptrb : 0 < view'.refs b → s'.ptr ⟨dev, b⟩ = some i) :
    Refines dev order view' s' := by
  have hsame : ∀ j, (s'.bcache.buf j).valid = (s.bcache.buf j).valid ∧
      (s'.bcache.buf j).dev = (s.bcache.buf j).dev ∧
      (s'.bcache.buf j).blockno = (s.bcache.buf j).blockno := by
    intro j
    by_cases hj : j = i
    · subst hj; exact ⟨hkeep.1.trans hvalid.symm, hkeep.2.1, hkeep.2.2.trans hb.symm⟩
    · rw [hothers j hj]; exact ⟨rfl, rfl, rfl⟩
  have hother : ∀ j, (s.bcache.buf j).valid = true → j ≠ i → (s.bcache.buf j).blockno ≠ b :=
    fun j hj hne heq => hne (h.eq_of_blockno hj hvalid (heq.trans hb.symm))
  refine ⟨hmem, hdisk, h.linked.congr hlinks, ?_, ?_, ?_, ?_, ?_, ?_, ?_⟩
  · intro j hj
    rw [(hsame j).1] at hj
    rw [← h.first j hj]
    exact find?_congr_mem fun k _ => decide_eq_decide.mpr (by
      simp only [SameLabel, (hsame k).2.1, (hsame k).2.2, (hsame j).2.1, (hsame j).2.2])
  · intro j hj
    have hne : j ≠ i := by rintro rfl; rw [hkeep.1] at hj; cases hj
    rw [hothers j hne] at hj ⊢
    exact h.idle j hj
  · intro j hj
    rw [(hsame j).1] at hj
    rw [(hsame j).2.1, (hsame j).2.2]
    exact h.label j hj
  · intro j hj
    by_cases hji : j = i
    · subst hji; rw [hkeep.2.2]; exact hholds
    · rw [hothers j hji] at hj ⊢
      obtain ⟨hr, hd, hs, -⟩ := hview _ (hother j hj hji)
      rw [hr, hd, hs]
      exact h.holds j hj
  · intro c hc
    have hcb : c ≠ b := fun e => hc i hkeep.1 (hkeep.2.2.trans e.symm)
    obtain ⟨hr, hd, -, -⟩ := hview c hcb
    have := h.absent c fun j hj => by
      have := hc j ((hsame j).1.trans hj)
      rwa [(hsame j).2.2] at this
    rwa [View.Busy, hr, hd]
  · intro c hc
    by_cases hcb : c = b
    · subst hcb; exact hcoherent hc
    · obtain ⟨hr, hd, hs, hk⟩ := hview c hcb
      rw [View.Busy, hr, hd] at hc
      rw [hs, hk]
      exact h.coherent c hc
  · intro c hc
    by_cases hcb : c = b
    · subst hcb; exact ⟨i, hptrb hc, hkeep.1, hkeep.2.2⟩
    · rw [(hview c hcb).1] at hc
      obtain ⟨j, hj, hjv, hjb⟩ := h.ptr c hc
      exact ⟨j, (hptr c hcb).trans hj, (hsame j).1.trans hjv, (hsame j).2.2.trans hjb⟩

/-- A buffer that is not in use takes in a block that is in no buffer. -/
theorem Refines.load (h : Refines dev order view s) {i : Fin nbuf} {b : ℕ} (hb : b < 2 ^ 31)
    (hfree : (s.bcache.buf i).refcnt = 0 ∧ (s.bcache.buf i).disk = false)
    (habsent : ∀ j, (s.bcache.buf j).valid = true → (s.bcache.buf j).blockno ≠ b)
    (hfirst : order.find? (fun j => j = i ∨ (s.bcache.buf j).dev = dev ∧
      (s.bcache.buf j).blockno = b) = some i) :
    Refines dev order (view.hold b)
      { s with
        bcache := s.bcache.modify i fun _ =>
          { valid := true, disk := false, dev := dev, blockno := b, refcnt := 1,
            data := s.disk b }
        ptr := Function.update s.ptr ⟨dev, b⟩ (some i) } := by
  have hidle := h.absent b habsent
  have hrefs : view.refs b = 0 := by simpa [View.Busy] using fun hlt => hidle (.inl hlt)
  have hdirty : view.dirty b = false := by
    cases hd : view.dirty b with
    | false => rfl
    | true => exact absurd (.inr hd) hidle
  have hstore : view.store b = view.disk b := h.coherent b hidle
  -- the block the buffer held before, if any, was not in use
  have hold : (s.bcache.buf i).valid = true → ¬ view.Busy (s.bcache.buf i).blockno := by
    intro hv
    obtain ⟨hr, hd, -⟩ := h.holds i hv
    rintro (hbusy | hbusy)
    · rw [← hr, hfree.1] at hbusy; exact absurd hbusy (Nat.lt_irrefl 0)
    · rw [← hd, hfree.2] at hbusy; cases hbusy
  refine ⟨h.mem, h.disk, h.linked.congr rfl, ?_, ?_, ?_, ?_, ?_, ?_, ?_⟩
  · intro j hj
    by_cases hji : j = i
    · subst hji
      rw [← hfirst]
      refine find?_congr_mem fun k _ => decide_eq_decide.mpr ?_
      by_cases hk : k = j
      · subst hk; simp [SameLabel]
      · simp [SameLabel, Bcache.modify_buf_of_ne _ _ hk, hk]
    · simp only [Bcache.modify_buf_of_ne _ _ hji] at hj
      have hlabel : (s.bcache.buf j).blockno ≠ b := habsent j hj
      refine find?_forget (i := i) (h.first j hj) (fun c hc => ?_) ?_ hji
      · exact decide_eq_decide.mpr (by
          simp [SameLabel, Bcache.modify_buf_of_ne _ _ hc, Bcache.modify_buf_of_ne _ _ hji])
      · simp [SameLabel, Bcache.modify_buf_of_ne _ _ hji, Ne.symm hlabel]
  · intro j hj
    by_cases hji : j = i
    · subst hji; simp at hj
    · simp only [Bcache.modify_buf_of_ne _ _ hji] at hj ⊢
      exact h.idle j hj
  · intro j hj
    by_cases hji : j = i
    · subst hji; simpa using hb
    · simp only [Bcache.modify_buf_of_ne _ _ hji] at hj ⊢
      exact h.label j hj
  · intro j hj
    by_cases hji : j = i
    · subst hji; simp [hrefs, hdirty, hstore, h.disk]
    · simp only [Bcache.modify_buf_of_ne _ _ hji] at hj ⊢
      rw [View.hold_refs_of_ne (habsent j hj)]
      exact h.holds j hj
  · intro c hc
    have hcb : c ≠ b := fun e => hc i (by simp) (by simp [e])
    rw [View.Busy, View.hold_refs_of_ne hcb]
    by_cases hold' : (s.bcache.buf i).valid = true ∧ (s.bcache.buf i).blockno = c
    · rw [← hold'.2]; exact hold hold'.1
    · refine h.absent c fun j hj hjc => ?_
      by_cases hji : j = i
      · subst hji; exact hold' ⟨hj, hjc⟩
      · have := hc j
        simp only [Bcache.modify_buf_of_ne _ _ hji] at this
        exact this hj hjc
  · intro c hc
    by_cases hcb : c = b
    · subst hcb; exact absurd (.inl (by simp)) hc
    · rw [View.Busy, View.hold_refs_of_ne hcb] at hc
      exact h.coherent c hc
  · intro c hc
    by_cases hcb : c = b
    · subst hcb; exact ⟨i, by simp, by simp, by simp⟩
    · rw [View.hold_refs_of_ne hcb] at hc
      obtain ⟨j, hj, hjv, hjb⟩ := h.ptr c hc
      have hji : j ≠ i := by
        rintro rfl
        exact hold hjv (.inl (by rw [hjb]; exact hc))
      refine ⟨j, ?_, ?_, ?_⟩
      · simpa [Function.update_of_ne, hcb] using hj
      · simp only [Bcache.modify_buf_of_ne _ _ hji]; exact hjv
      · simp only [Bcache.modify_buf_of_ne _ _ hji]; exact hjb

/-- A buffer that has been read in moves to the front of the list. -/
theorem Refines.moveToFront (h : Refines dev order view s) {i : Fin nbuf}
    (hvalid : (s.bcache.buf i).valid = true) :
    Refines dev (i :: order.erase i) view
      { s with bcache := { s.bcache with
          links := (s.bcache.links.unlink (some i)).pushFront none (some i) } } where
  mem := h.mem
  disk := h.disk
  linked := h.linked.moveToFront i
  first := by
    intro j hj
    refine find?_moveToFront (h.first j hj) fun hlabel => ?_
    exact (h.unique hvalid hj (of_decide_eq_true hlabel)).symm
  idle := h.idle
  label := h.label
  holds := h.holds
  absent := h.absent
  coherent := h.coherent
  ptr := h.ptr

/-! ## The calls -/

private theorem sector_div {b : ℕ} (hb : b < 2 ^ 31) : sector b / 2 = b := by
  unfold sector; omega

/-- Every buffer is in use, so the view has no room. -/
theorem Refines.not_room (h : Refines dev order view s) {b : ℕ}
    (habsent : ∀ j, (s.bcache.buf j).valid = true → (s.bcache.buf j).blockno ≠ b)
    (hfull : ∀ i, ¬ ((s.bcache.buf i).refcnt = 0 ∧ (s.bcache.buf i).disk = false)) :
    ¬ view.Room b := by
  rintro ⟨blocks, hcard, hblocks⟩
  have hvalid : ∀ i, (s.bcache.buf i).valid = true := by
    intro i
    cases hv : (s.bcache.buf i).valid with
    | true => rfl
    | false => exact absurd (h.idle i hv) (hfull i)
  have hmem : ∀ i ∈ (Finset.univ : Finset (Fin nbuf)), (s.bcache.buf i).blockno ∈ blocks := by
    intro i _
    refine hblocks _ (habsent i (hvalid i)) ?_
    obtain ⟨hr, hd, -⟩ := h.holds i (hvalid i)
    by_contra hidle
    refine hfull i ⟨?_, ?_⟩
    · rw [hr]; simpa [View.Busy] using fun hlt => hidle (.inl hlt)
    · rw [hd]
      cases hdirty : view.dirty (s.bcache.buf i).blockno with
      | false => rfl
      | true => exact absurd (.inr hdirty) hidle
  have hle := Finset.card_le_card_of_injOn (fun i => (s.bcache.buf i).blockno) hmem
    fun i _ j _ hij => h.eq_of_blockno (hvalid i) (hvalid j) hij
  rw [Finset.card_univ, Fintype.card_fin] at hle
  omega

/-- `bread` finds the block's buffer or loads the block into a free one; it runs
out of buffers only if the view has no room. -/
theorem Refines.bread (h : Refines dev order view s) {b : ℕ} (hb : b < 2 ^ 31) :
    (∃ i s', s.bread dev b = .ok (i, s') ∧ Refines dev order (view.hold b)
      { s' with ptr := Function.update s'.ptr ⟨dev, b⟩ (some i) }) ∨
    s.bread dev b = .error (.panic "bget: no buffers") ∧ ¬ view.Room b := by
  have hload : ∀ {i : Fin nbuf} {f : Buf → Buf}
      (_ : ((f (s.bcache.buf i)).valid = false ∧ (f (s.bcache.buf i)).dev = dev ∧
        (f (s.bcache.buf i)).blockno = b ∧ (f (s.bcache.buf i)).refcnt = 1)),
      (({ s with bcache := s.bcache.modify i f } : Machine).virtioDiskRw i false).modifyBuf i
          (fun b => { b with valid := true, disk := false }) =
        { s with bcache := s.bcache.modify i fun _ =>
          { valid := true, disk := false, dev := dev, blockno := b, refcnt := 1,
            data := s.disk b } } := by
    intro i f hf
    rw [Machine.virtioDiskRw_read]
    simp only [Machine.modifyBuf, Bcache.modify_modify]
    simp [Bcache.modify, Function.comp_def, hf, sector_div hb]
  unfold Machine.bread
  rw [bget_eq h.linked]
  cases hhit : order.find? fun i => s.bcache.holds dev b (some i) with
  | some i =>
      have hi : (s.bcache.buf i).dev = dev ∧ (s.bcache.buf i).blockno = b := by
        simpa [Bcache.holds] using List.find?_some hhit
      left
      cases hvalid : (s.bcache.buf i).valid with
      | true =>
          refine ⟨i, _, by simp [hvalid]; rfl, ?_⟩
          obtain ⟨hr, hd, hdata⟩ := h.holds i hvalid
          rw [hi.2] at hr hd hdata
          refine h.touch (b := b) hvalid hi.2 h.mem h.disk rfl
            (fun j hj => Function.update_of_ne hj _ _) (by simp [hvalid, hi.2])
            (by simp [hr, hd, hdata]) (fun c hc => ?_) (fun hc => ?_) (fun c hc => ?_) ?_
          · exact ⟨View.hold_refs_of_ne hc, rfl, rfl, rfl⟩
          · exact absurd (.inl (by simp)) hc
          · simp [Function.update_of_ne, hc]
          · simp
      | false =>
          have habsent : ∀ j, (s.bcache.buf j).valid = true → (s.bcache.buf j).blockno ≠ b := by
            intro j hj hjb
            have hfirst := h.first j hj
            have hlabel := (h.label j hj).1
            have hpred : (fun k => decide (SameLabel s.bcache k j)) =
                fun k => s.bcache.holds dev b (some k) := by
              funext k
              simp [SameLabel, Bcache.holds, hjb, hlabel]
            rw [hpred, hhit] at hfirst
            rw [Option.some.inj hfirst, hj] at hvalid
            cases hvalid
          refine ⟨i, _, by simp [hvalid]; rfl, ?_⟩
          rw [hload (by simp [hvalid, hi, (h.idle i hvalid).1])]
          refine h.load hb (h.idle i hvalid) habsent ?_
          rw [← hhit]
          refine find?_congr_mem fun k _ => decide_eq_decide.mpr ?_
          constructor
          · rintro (rfl | hk) <;> [exact hi; exact hk]
          · exact .inr
  | none =>
      rw [List.find?_eq_none] at hhit
      have hnone : ∀ j, ¬ ((s.bcache.buf j).dev = dev ∧ (s.bcache.buf j).blockno = b) := by
        intro j hj
        exact hhit j (h.linked.all j) (by simpa [Bcache.holds] using hj)
      have habsent : ∀ j, (s.bcache.buf j).valid = true → (s.bcache.buf j).blockno ≠ b :=
        fun j hj hjb => hnone j ⟨(h.label j hj).1, hjb⟩
      simp only
      cases hmiss : order.reverse.find? fun i => s.bcache.recyclable (some i) with
      | some i =>
          have hfree : (s.bcache.buf i).refcnt = 0 ∧ (s.bcache.buf i).disk = false := by
            simpa [Bcache.recyclable] using List.find?_some hmiss
          left
          refine ⟨i, _, by simp; rfl, ?_⟩
          rw [hload (by simp)]
          refine h.load hb hfree habsent ?_
          obtain ⟨before, after, horder, hbefore⟩ := List.eq_append_cons_of_mem (h.linked.all i)
          rw [List.find?_eq_some_iff_append]
          refine ⟨by simp, before, after, horder, fun c hc => ?_⟩
          have hci : c ≠ i := fun e => hbefore (e ▸ hc)
          have := not_and_or.mp (hnone c)
          simpa [hci] using this
      | none =>
          right
          refine ⟨rfl, h.not_room habsent fun i hi => ?_⟩
          rw [List.find?_eq_none] at hmiss
          exact hmiss i (List.mem_reverse.mpr (h.linked.all i)) (by simpa [Bcache.recyclable] using hi)

/-- `brelse` on the buffer of a block in use. -/
theorem Refines.brelse (h : Refines dev order view s) {i : Fin nbuf} {b : ℕ}
    (hvalid : (s.bcache.buf i).valid = true) (hb : (s.bcache.buf i).blockno = b)
    (hsafe : view.refs b = 1 → view.dirty b = true ∨ view.store b = view.disk b)
    (hheld : 0 < view.refs b) (hptr : s.ptr ⟨dev, b⟩ = some i) :
    ∃ order', Refines dev order' (view.release b) { s with bcache := s.bcache.brelse i } := by
  obtain ⟨hr, hd, hdata⟩ := h.holds i hvalid
  rw [hb] at hr hd hdata
  have hdrop : Refines dev order (view.release b)
      { s with bcache := s.bcache.modify i fun b => { b with refcnt := b.refcnt - 1 } } := by
    refine h.touch (b := b) hvalid hb h.mem h.disk rfl
      (fun j hj => Function.update_of_ne hj _ _) (by simp [hvalid, hb])
      (by simp [hr, hd, hdata]) (fun c hc => ?_) (fun hc => ?_) (fun c hc => rfl) fun _ => hptr
    · exact ⟨View.release_refs_of_ne hc, rfl, rfl, rfl⟩
    · have hlast : view.refs b = 1 := by
        by_contra hne
        exact hc (.inl (by rw [View.release_refs_same]; omega))
      rcases hsafe hlast with hdirty | hsame
      · exact absurd (.inr hdirty) hc
      · exact hsame
  unfold Bcache.brelse
  simp only
  split
  · exact ⟨_, hdrop.moveToFront (by simpa using hvalid)⟩
  · exact ⟨order, hdrop⟩

/-! ## The empty cache -/

/-- The buffers already treated by the loop of `binit` are linked and free. -/
private theorem binit_loop (todo : List (Fin nbuf)) (bc : Bcache) {done : List (Fin nbuf)}
    (hlinks : Circular bc.links none (done.map some)) (hnodup : (todo ++ done).Nodup)
    (hfree : ∀ i ∈ done, (bc.buf i).valid = false ∧ (bc.buf i).refcnt = 0 ∧
      (bc.buf i).disk = false) :
    Circular (todo.foldl Bcache.binitStep bc).links none ((todo.reverse ++ done).map some) ∧
    ∀ i ∈ todo ++ done, ((todo.foldl Bcache.binitStep bc).buf i).valid = false ∧
      ((todo.foldl Bcache.binitStep bc).buf i).refcnt = 0 ∧
      ((todo.foldl Bcache.binitStep bc).buf i).disk = false := by
  induction todo generalizing bc done with
  | nil => exact ⟨hlinks, hfree⟩
  | cons i todo ih =>
      obtain ⟨hi, hnodup⟩ := List.nodup_cons.mp hnodup
      have hidone : i ∉ done := fun h => hi (List.mem_append_right _ h)
      have hstep : Circular (bc.binitStep i).links none ((i :: done).map some) :=
        hlinks.pushFront (by simpa using hidone) (by simp)
      have hperm : (todo ++ i :: done).Perm (i :: (todo ++ done)) := List.perm_middle
      have hnodup' : (todo ++ i :: done).Nodup :=
        hperm.nodup_iff.mpr (List.nodup_cons.mpr ⟨hi, hnodup⟩)
      obtain ⟨hcircular, hall⟩ := ih _ hstep hnodup' fun j hj => by
        rcases List.mem_cons.mp hj with rfl | hj
        · simp [Bcache.binitStep]
        · have hne : j ≠ i := fun heq => hidone (heq ▸ hj)
          rw [Bcache.binitStep, Bcache.modify_buf_of_ne _ _ hne]
          exact hfree j hj
      refine ⟨?_, fun j hj => hall j (hperm.mem_iff.mpr hj)⟩
      rw [List.reverse_cons, List.append_assoc]
      exact hcircular

/-- `binit` links all buffers, none of them in use. -/
theorem binit_spec (bc : Bcache) :
    Circular bc.binit.links none ((List.finRange nbuf).reverse.map some) ∧
    ∀ i, (bc.binit.buf i).valid = false ∧ (bc.binit.buf i).refcnt = 0 ∧
      (bc.binit.buf i).disk = false := by
  have hempty : Circular ((bc.links.setPrev none none).setNext none none) none
      (([] : List (Fin nbuf)).map some) := by
    refine ⟨?_, by simp⟩
    rw [List.map_nil, List.nil_append, List.isChain_cons_cons]
    exact ⟨⟨by simp [Links.setNext], by simp [Links.setNext, Links.setPrev]⟩, .singleton _⟩
  obtain ⟨hcircular, hfree⟩ := binit_loop (List.finRange nbuf)
    { bc with links := (bc.links.setPrev none none).setNext none none } hempty
    (by simpa using List.nodup_finRange nbuf) fun i hi => absurd hi (by simp)
  rw [List.append_nil] at hcircular
  exact ⟨hcircular, fun i => hfree i (by simp)⟩

/-- After `binit` the cache is empty: every block is as it is on disk. -/
theorem Refines.binit (dev : ℕ) (s : Machine) (bc : Bcache) (h : s.bcache = bc.binit) :
    Refines dev (List.finRange nbuf).reverse ⟨s.mem, s.disk, s.disk, fun _ => 0, fun _ => false⟩
      s := by
  obtain ⟨hcircular, hbuf⟩ := binit_spec bc
  rw [← h] at hcircular hbuf
  have hinvalid : ∀ {i}, ¬ (s.bcache.buf i).valid = true := fun {i} => by simp [(hbuf i).1]
  exact
    { mem := rfl
      disk := rfl
      linked := ⟨hcircular, fun i => by simp⟩
      first := fun i hi => absurd hi hinvalid
      idle := fun i _ => (hbuf i).2
      label := fun i hi => absurd hi hinvalid
      holds := fun i hi => absurd hi hinvalid
      absent := fun b _ hb => by rcases hb with hb | hb <;> simp at hb
      coherent := fun b _ => rfl
      ptr := fun b hb => absurd hb (by simp) }

/-! ## The refinement -/

/-- Fewer than `NBUF` buffers are referenced or dirty. -/
def Machine.HasRoom (s : Machine) : Prop :=
  (Finset.univ.filter fun i => 0 < (s.bcache.buf i).refcnt ∨ (s.bcache.buf i).disk = true).card <
    nbuf

/-- A free buffer can take any block in. -/
theorem Refines.room (h : Refines dev order view s) (hroom : s.HasRoom) (b : ℕ) :
    view.Room b := by
  have hcard : ((Finset.univ.filter fun i => 0 < (s.bcache.buf i).refcnt ∨
      (s.bcache.buf i).disk = true).image fun i => (s.bcache.buf i).blockno).card < nbuf :=
    Finset.card_image_le.trans_lt hroom
  refine ⟨_, hcard, fun c _ hc => ?_⟩
  obtain ⟨i, hvalid, hi⟩ : ∃ i, (s.bcache.buf i).valid = true ∧ (s.bcache.buf i).blockno = c := by
    by_contra hnone
    push Not at hnone
    exact h.absent c hnone hc
  obtain ⟨hrefs, hdirty, -⟩ := h.holds i hvalid
  rw [Finset.mem_image]
  refine ⟨i, Finset.mem_filter.mpr ⟨Finset.mem_univ i, ?_⟩, hi⟩
  rw [hrefs, hdirty, hi]
  exact hc

/-- What kernel code does on the machine is what it does on the view, until it
runs out of buffers, which `strict` callers never do. -/
theorem simulation (dev : ℕ) (strict : Prop) (err : Stop → Prop)
    (crash : (ℕ → Block) → Prop) :
    Simulation (cacheRules dev strict err crash) machine
      (fun view s => ∃ order, Refines dev order view s)
      (fun e s => ¬ strict ∧ e = .panic "bget: no buffers" ∧ ¬ s.HasRoom) := by
  rintro o view s ⟨order, h⟩ hpre
  cases o with
  | get => exact .inr ⟨s, by simp only [machine, h.mem], order, h⟩
  | set m => exact .inr ⟨_, rfl, order, { h with mem := rfl }⟩
  | stop why => exact .inr rfl
  | wakeup => exact .inr ⟨s, rfl, order, h⟩
  | bread dev' b =>
      obtain ⟨rfl, hb, hroom⟩ := hpre
      rcases h.bread hb with ⟨i, s', hbread, hrefines⟩ | ⟨hbread, hfull⟩
      · exact .inr ⟨_, by simp only [machine, hbread], order, hrefines⟩
      · exact .inl ⟨_, by simp only [machine, hbread], fun hs => hfull (hroom hs), rfl,
          fun hroom => hfull (h.room hroom b)⟩
  | data bp =>
      obtain ⟨rfl, hheld⟩ := hpre
      obtain ⟨i, hptr, hvalid, hb⟩ := h.ptr _ hheld
      obtain ⟨-, -, hdata⟩ := h.holds i hvalid
      refine .inr ⟨s, ?_, order, h⟩
      rw [hb] at hdata
      simp only [machine, deref, hptr, hdata]
  | setData bp d =>
      obtain ⟨rfl, hheld⟩ := hpre
      obtain ⟨i, hptr, hvalid, hb⟩ := h.ptr _ hheld
      obtain ⟨hr, hd, -⟩ := h.holds i hvalid
      rw [hb] at hr hd
      refine .inr ⟨_, by simp only [machine, deref, hptr]; rfl, order, ?_⟩
      refine h.touch (b := bp.blockno) hvalid hb h.mem h.disk rfl
        (fun j hj => Function.update_of_ne hj _ _) (by simp [Machine.modifyBuf, hvalid, hb])
        (by simp [Machine.modifyBuf, hr, hd]) (fun c hc => ?_) (fun hc => ?_) (fun c hc => rfl)
        fun _ => hptr
      · exact ⟨rfl, rfl, View.put_store_of_ne hc, rfl⟩
      · exact absurd (.inl hheld) hc
  | setDisk bp v =>
      obtain ⟨rfl, hheld⟩ := hpre
      obtain ⟨i, hptr, hvalid, hb⟩ := h.ptr _ hheld
      obtain ⟨hr, -, hdata⟩ := h.holds i hvalid
      rw [hb] at hr hdata
      refine .inr ⟨_, by simp only [machine, deref, hptr]; rfl, order, ?_⟩
      refine h.touch (b := bp.blockno) hvalid hb h.mem h.disk rfl
        (fun j hj => Function.update_of_ne hj _ _) (by simp [Machine.modifyBuf, hvalid, hb])
        (by simp [Machine.modifyBuf, hr, hdata]) (fun c hc => ?_) (fun hc => ?_) (fun c hc => rfl)
        fun _ => hptr
      · exact ⟨rfl, View.mark_dirty_of_ne hc, rfl, rfl⟩
      · exact absurd (.inl hheld) hc
  | bwrite bp =>
      obtain ⟨rfl, hheld⟩ := hpre
      obtain ⟨i, hptr, hvalid, hb⟩ := h.ptr _ hheld
      obtain ⟨hr, -, hdata⟩ := h.holds i hvalid
      have hplace := sector_div (h.label i hvalid).2
      rw [hb] at hr hdata hplace
      refine .inr ⟨_, by simp only [machine, deref, hptr]; rfl, order, ?_⟩
      rw [Machine.virtioDiskRw_write]
      refine h.touch (b := bp.blockno) hvalid hb h.mem ?_ rfl
        (fun j hj => Function.update_of_ne hj _ _) (by simp [hvalid, hb])
        (by simp [hr, hdata]) (fun c hc => ?_) (fun hc => ?_) (fun c hc => rfl) fun _ => hptr
      · simp [View.flush, hb, hplace, h.disk, hdata]
      · exact ⟨rfl, View.flush_dirty_of_ne hc, rfl, View.flush_disk_of_ne hc⟩
      · simp
  | brelse bp =>
      obtain ⟨⟨rfl, hheld⟩, hsafe⟩ := hpre
      obtain ⟨i, hptr, hvalid, hb⟩ := h.ptr _ hheld
      refine .inr ⟨_, by simp only [machine, deref, hptr]; rfl, ?_⟩
      exact h.brelse hvalid hb hsafe hheld hptr

end RiscvOs.Bio
