import RiscvOs.Bio.Refine

/-!
# The real buffer cache, whatever blocks it is asked for

The view of `Bio/Cache.lean` is about a disk whose blocks have 31-bit numbers and
callers that follow the rules.  A damaged image gives the kernel any block number,
so its recovery is checked on the machine itself: the list through `bcache.head`
stays well formed whatever is done to the buffers, and then `bget` has no other way
to stop than to run out of buffers.

`Fresh` is a cache nobody uses: what it reads is what the disk holds.
-/

namespace RiscvOs

open Effect Bio

/-- The list through `bcache.head` links all buffers. -/
def Bio.Machine.Linked (s : Machine) : Prop := ∃ order, WellLinked s.bcache order

/-- The `struct buf *` an operation follows. -/
def KOp.target : KOp → Option BufRef
  | .data bp | .setData bp _ | .setDisk bp _ | .bwrite bp | .brelse bp => some bp
  | _ => none

section
variable {s t : Machine}

theorem Bio.Machine.Linked.congr (h : s.Linked) (hlinks : t.bcache.links = s.bcache.links) :
    t.Linked := h.imp fun _ hlinked => hlinked.congr hlinks

theorem Bio.Machine.Linked.brelse (h : s.Linked) (i : Fin nbuf) :
    ({ s with bcache := s.bcache.brelse i } : Machine).Linked := by
  obtain ⟨order, hlinked⟩ := h
  unfold Bcache.brelse
  simp only
  split
  · have hdrop : WellLinked (s.bcache.modify i fun b => { b with refcnt := b.refcnt - 1 }) order :=
      hlinked.congr rfl
    exact ⟨_, hdrop.moveToFront i⟩
  · exact ⟨order, hlinked.congr rfl⟩

theorem Bio.Machine.Linked.bget (h : s.Linked) (dev b : ℕ) :
    onResult (fun result => result.2.links = s.bcache.links) (· = .panic "bget: no buffers")
      (s.bcache.bget dev b) := by
  obtain ⟨order, hlinked⟩ := h
  rw [bget_eq hlinked]
  split
  · rfl
  · split <;> rfl

/-- What a buffer call leaves as it was. -/
structure Bio.Machine.Follows (s t : Machine) : Prop where
  linked : t.Linked
  mem : t.mem = s.mem
  ptr : ∀ bp, s.ptr bp ≠ none → t.ptr bp ≠ none

theorem Bio.Machine.Follows.trans {u : Machine} (h : s.Follows t) (h' : t.Follows u) :
    s.Follows u := ⟨h'.linked, h'.mem.trans h.mem, fun bp hbp => h'.ptr bp (h.ptr bp hbp)⟩

theorem machine_bread (h : s.Linked) (dev b : ℕ) :
    onResult (fun result => s.Follows result.2 ∧ result.2.ptr ⟨dev, b⟩ ≠ none)
      (· = .panic "bget: no buffers") (machine (.bread dev b) s) := by
  have hbget := h.bget dev b
  simp only [machine, Machine.bread]
  cases hget : s.bcache.bget dev b with
  | error e => rw [hget] at hbget; exact hbget
  | ok result =>
      rw [hget] at hbget
      have hdone : ∀ u : Machine, u.mem = s.mem → u.bcache.links = s.bcache.links →
          u.ptr = s.ptr → s.Follows
            { u with ptr := Function.update u.ptr ⟨dev, b⟩ (some result.1) } := by
        intro u hmem hlinks hptr
        refine ⟨h.congr hlinks, hmem, fun bp hbp => ?_⟩
        by_cases heq : bp = ⟨dev, b⟩
        · simp [heq]
        · simpa [Function.update_of_ne heq, hptr] using hbp
      by_cases hvalid : (result.2.buf result.1).valid = true
      · simp only [hvalid, if_true]
        exact ⟨hdone { s with bcache := result.2 } rfl hbget rfl, by simp⟩
      · simp only [hvalid]
        exact ⟨hdone (({ s with bcache := result.2 } : Machine).virtioDiskRw result.1 false
          |>.modifyBuf result.1 fun b => { b with valid := true, disk := false }) rfl hbget rfl,
          by simp⟩

/-- A call that follows a pointer in use. -/
theorem machine_touch (h : s.Linked) {o : KOp} {bp : BufRef} (ho : o.target = some bp)
    (hptr : s.ptr bp ≠ none) :
    onResult (fun result => s.Follows result.2) (fun _ => False) (machine o s) := by
  have hderef : ∀ {α : Type} (f : Fin nbuf → α × Machine), (∀ i, s.Follows (f i).2) →
      onResult (fun result => s.Follows result.2) (fun _ => False) (deref s bp f) := by
    intro α f hf
    unfold deref
    cases hi : s.ptr bp with
    | none => exact absurd hi hptr
    | some i => exact hf i
  have hsame : ∀ u : Machine, u.mem = s.mem → u.bcache.links = s.bcache.links →
      u.ptr = s.ptr → s.Follows u := by
    intro u hmem hlinks hsame
    exact ⟨h.congr hlinks, hmem, fun bp hbp => by rw [hsame]; exact hbp⟩
  cases o with
  | data bp' => cases ho; exact hderef _ fun i => hsame s rfl rfl rfl
  | setData bp' d => cases ho; exact hderef _ fun i => hsame _ rfl rfl rfl
  | setDisk bp' dirty => cases ho; exact hderef _ fun i => hsame _ rfl rfl rfl
  | bwrite bp' => cases ho; exact hderef _ fun i => hsame _ rfl rfl rfl
  | brelse bp' => cases ho; exact hderef _ fun i => ⟨h.brelse i, rfl, fun _ hbp => hbp⟩
  | _ => cases ho

end

/-! ## Dirty buffers -/

/-- Every dirty buffer of `bc` that has been read in still holds its block in `bc'`. -/
def KeepsDirty (bc bc' : Bcache) : Prop :=
  ∀ i, (bc.buf i).valid = true → (bc.buf i).disk = true →
    (bc'.buf i).valid = true ∧ (bc'.buf i).disk = true ∧
      (bc'.buf i).blockno = (bc.buf i).blockno

theorem keepsDirty_modify (bc : Bcache) {i : Fin nbuf} {f : Buf → Buf}
    (hf : (bc.buf i).valid = true → (bc.buf i).disk = true → (f (bc.buf i)).valid = true ∧
      (f (bc.buf i)).disk = true ∧ (f (bc.buf i)).blockno = (bc.buf i).blockno) :
    KeepsDirty bc (bc.modify i f) := by
  intro j hvalid hdisk
  by_cases hj : j = i
  · subst hj
    rw [Bcache.modify_buf_same]
    exact hf hvalid hdisk
  · rw [Bcache.modify_buf_of_ne _ _ hj]
    exact ⟨hvalid, hdisk, rfl⟩

/-- `bread` recycles no dirty buffer. -/
theorem bread_keepsDirty {s t : Machine} (h : s.Linked) {dev b : ℕ}
    (hrun : machine (.bread dev b) s = .ok ((), t)) : KeepsDirty s.bcache t.bcache := by
  obtain ⟨order, hlinked⟩ := h
  simp only [machine, Machine.bread] at hrun
  rw [bget_eq hlinked] at hrun
  cases hhit : order.find? fun i => s.bcache.holds dev b (some i) with
  | some i =>
      rw [hhit] at hrun
      cases hvalid : (s.bcache.buf i).valid with
      | true =>
          simp only [Bcache.modify_buf_same, hvalid, if_true, Except.ok.injEq] at hrun
          cases hrun
          exact keepsDirty_modify (f := fun buf => { buf with refcnt := buf.refcnt + 1 }) _
            fun hvalid hdisk => ⟨hvalid, hdisk, rfl⟩
      | false =>
          simp only [Bcache.modify_buf_same, hvalid, Bool.false_eq_true, if_false,
            Except.ok.injEq] at hrun
          cases hrun
          rw [Machine.virtioDiskRw_read]
          simp only [Machine.modifyBuf, Bcache.modify_modify]
          exact keepsDirty_modify _ fun htrue => by rw [hvalid] at htrue; cases htrue
  | none =>
      rw [hhit] at hrun
      cases hmiss : order.reverse.find? fun i => s.bcache.recyclable (some i) with
      | none => simp only [hmiss] at hrun; cases hrun
      | some i =>
          have hfree : (s.bcache.buf i).refcnt = 0 ∧ (s.bcache.buf i).disk = false := by
            simpa [Bcache.recyclable] using List.find?_some hmiss
          simp only [hmiss, Bcache.modify_buf_same, Bool.false_eq_true, if_false,
            Except.ok.injEq] at hrun
          cases hrun
          rw [Machine.virtioDiskRw_read]
          simp only [Machine.modifyBuf, Bcache.modify_modify]
          exact keepsDirty_modify _ fun _ htrue => by rw [hfree.2] at htrue; cases htrue

/-- A call of the code outside `kernel/bio.c` and `kernel/log.c`. -/
def KOp.IsClient : KOp → Prop
  | .bread _ _ | .data _ | .setData _ _ | .brelse _ => True
  | _ => False

/-- Only the log and the driver of the disk let go of dirty buffers. -/
theorem client_keepsDirty {s t : Machine} (h : s.Linked) {o : KOp} (ho : o.IsClient)
    {answer : KOp.Ans o} (hrun : machine o s = .ok (answer, t)) :
    t.Linked ∧ KeepsDirty s.bcache t.bcache := by
  have hderef : ∀ {α : Type} {a : α} (bp : BufRef) (f : Fin nbuf → α × Machine),
      deref s bp f = .ok (a, t) → ∃ i, (f i).2 = t := by
    intro α a bp f hrun
    unfold deref at hrun
    cases hi : s.ptr bp with
    | none => rw [hi] at hrun; cases hrun
    | some i => rw [hi] at hrun; exact ⟨i, congrArg Prod.snd (Except.ok.inj hrun)⟩
  cases o with
  | bread dev b =>
      have hbread := machine_bread h dev b
      rw [hrun] at hbread
      exact ⟨hbread.1.linked, bread_keepsDirty h hrun⟩
  | data bp =>
      obtain ⟨i, rfl⟩ := hderef bp _ hrun
      exact ⟨h, fun i hvalid hdisk => ⟨hvalid, hdisk, rfl⟩⟩
  | setData bp d =>
      obtain ⟨i, rfl⟩ := hderef bp _ hrun
      exact ⟨h.congr rfl, keepsDirty_modify (f := fun b => { b with data := d }) _
        fun hvalid hdisk => ⟨hvalid, hdisk, rfl⟩⟩
  | brelse bp =>
      obtain ⟨i, rfl⟩ := hderef bp _ hrun
      have hbuf : (s.bcache.brelse i).buf =
          (s.bcache.modify i fun b => { b with refcnt := b.refcnt - 1 }).buf := by
        unfold Bcache.brelse
        simp only
        split <;> rfl
      refine ⟨h.brelse i, fun j hvalid hdisk => ?_⟩
      change ((s.bcache.brelse i).buf j).valid = true ∧ _
      rw [hbuf]
      exact keepsDirty_modify (f := fun b => { b with refcnt := b.refcnt - 1 }) _
        (fun hvalid hdisk => ⟨hvalid, hdisk, rfl⟩) j hvalid hdisk
  | _ => exact ho.elim

/-! ## A cache nobody uses -/

/-- The block of the disk a block number stands for: sector numbers have 32 bits. -/
def place (b : ℕ) : ℕ := sector b / 2

/-- No buffer is in use, and those that have been read in are as on the disk `d`. -/
structure Fresh (d : ℕ → Block) (s : Machine) : Prop where
  linked : s.Linked
  disk : s.disk = d
  free : ∀ i, (s.bcache.buf i).refcnt = 0 ∧ (s.bcache.buf i).disk = false
  clean : ∀ i, (s.bcache.buf i).valid = true →
    (s.bcache.buf i).data = d (place (s.bcache.buf i).blockno)

/-- Buffer `i` is in use for `bp`, and no other. -/
structure Reading (d : ℕ → Block) (bp : BufRef) (i : Fin nbuf) (s : Machine) : Prop where
  linked : s.Linked
  disk : s.disk = d
  ptr : s.ptr bp = some i
  data : (s.bcache.buf i).data = d (place bp.blockno)
  label : (s.bcache.buf i).blockno = bp.blockno
  last : (s.bcache.buf i).refcnt = 1 ∧ (s.bcache.buf i).disk = false
  free : ∀ j, j ≠ i → (s.bcache.buf j).refcnt = 0 ∧ (s.bcache.buf j).disk = false
  clean : ∀ j, j ≠ i → (s.bcache.buf j).valid = true →
    (s.bcache.buf j).data = d (place (s.bcache.buf j).blockno)

section
variable {d : ℕ → Block} {s : Machine} {bp : BufRef} {i : Fin nbuf}

/-- Buffer `i` has been taken and read in. -/
theorem Fresh.taken (h : Fresh d s) {i : Fin nbuf} {dev b : ℕ} {f : Buf → Buf}
    (hf : (f (s.bcache.buf i)).data = d (place b) ∧ (f (s.bcache.buf i)).blockno = b ∧
      (f (s.bcache.buf i)).refcnt = 1 ∧ (f (s.bcache.buf i)).disk = false) :
    Reading d ⟨dev, b⟩ i { s with
      bcache := s.bcache.modify i f
      ptr := Function.update s.ptr ⟨dev, b⟩ (some i) } where
  linked := h.linked.congr rfl
  disk := h.disk
  ptr := Function.update_self ..
  data := by simp only [Bcache.modify_buf_same, hf]
  label := by simp only [Bcache.modify_buf_same, hf]
  last := by simp only [Bcache.modify_buf_same, hf, and_self]
  free j hj := by simp only [Bcache.modify_buf_of_ne _ _ hj]; exact h.free j
  clean j hj := by simp only [Bcache.modify_buf_of_ne _ _ hj]; exact h.clean j

/-- A cache nobody uses takes any block in. -/
theorem Fresh.bread (h : Fresh d s) (dev b : ℕ) : ∃ i t,
    machine (.bread dev b) s = .ok ((), t) ∧ Reading d ⟨dev, b⟩ i t ∧ s.Follows t := by
  have hfollows : ∀ t, machine (.bread dev b) s = .ok ((), t) → s.Follows t := by
    intro t hstep
    have hbread := machine_bread h.linked dev b
    rw [hstep] at hbread
    exact hbread.1
  suffices hread : ∃ i t, machine (.bread dev b) s = .ok ((), t) ∧ Reading d ⟨dev, b⟩ i t by
    obtain ⟨i, t, hstep, hreading⟩ := hread
    exact ⟨i, t, hstep, hreading, hfollows t hstep⟩
  obtain ⟨order, hlinked⟩ := h.linked
  simp only [machine, Machine.bread]
  rw [bget_eq hlinked]
  cases hhit : order.find? fun i => s.bcache.holds dev b (some i) with
  | some i =>
      have hlabel : (s.bcache.buf i).blockno = b := by
        have := List.find?_some hhit
        simp only [Bcache.holds, decide_eq_true_eq] at this
        exact this.2
      have hfree := h.free i
      cases hvalid : (s.bcache.buf i).valid with
      | true =>
          refine ⟨i, _, by simp only [Bcache.modify_buf_same, hvalid, if_true]; rfl, ?_⟩
          refine h.taken (f := fun buf => { buf with refcnt := buf.refcnt + 1 }) ?_
          exact ⟨(h.clean i hvalid).trans (by rw [hlabel]), hlabel, by simp [hfree.1], hfree.2⟩
      | false =>
          refine ⟨i, _, by simp [hvalid]; rfl, ?_⟩
          rw [Machine.virtioDiskRw_read]
          simp only [Machine.modifyBuf, Bcache.modify_modify]
          refine h.taken ?_
          simp [hlabel, hfree.1, place, h.disk]
  | none =>
      obtain ⟨i, hmiss⟩ : ∃ i, (order.reverse.find? fun i => s.bcache.recyclable (some i)) =
          some i := by
        rw [← Option.isSome_iff_exists, List.find?_isSome]
        exact ⟨0, List.mem_reverse.mpr (hlinked.all 0), by simp [Bcache.recyclable, h.free 0]⟩
      simp only [hmiss]
      refine ⟨i, _, by simp; rfl, ?_⟩
      rw [Machine.virtioDiskRw_read]
      simp only [Machine.modifyBuf, Bcache.modify_modify]
      refine h.taken ?_
      simp [place, h.disk]

/-- Giving the buffer back, whatever the static data has become. -/
theorem Reading.brelse (h : Reading d bp i s) (m : Mem) : ∃ t,
    machine (.brelse bp) { s with mem := m } = .ok ((), t) ∧ Fresh d t ∧ t.mem = m := by
  refine ⟨_, by simp only [machine, deref, h.ptr]; rfl, ?_, rfl⟩
  have hdrop : ∀ j, ((s.bcache.brelse i).buf j).refcnt = 0 ∧
      ((s.bcache.brelse i).buf j).disk = false ∧
      (((s.bcache.brelse i).buf j).valid = true →
        ((s.bcache.brelse i).buf j).data = d (place ((s.bcache.brelse i).buf j).blockno)) := by
    intro j
    have hbuf : (s.bcache.brelse i).buf =
        (s.bcache.modify i fun b => { b with refcnt := b.refcnt - 1 }).buf := by
      unfold Bcache.brelse
      simp only
      split <;> rfl
    rw [hbuf]
    by_cases hj : j = i
    · subst hj
      simp [h.last, h.data, h.label]
    · rw [Bcache.modify_buf_of_ne _ _ hj]
      exact ⟨(h.free j hj).1, (h.free j hj).2, h.clean j hj⟩
  exact
    { linked := (h.linked.brelse i).congr rfl
      disk := h.disk
      free := fun j => ⟨(hdrop j).1, (hdrop j).2.1⟩
      clean := fun j => (hdrop j).2.2 }

theorem Fresh.binit (bc : Bcache) (h : s.bcache = bc.binit) : Fresh s.disk s := by
  obtain ⟨hcircular, hbuf⟩ := binit_spec bc
  rw [← h] at hcircular hbuf
  exact
    { linked := ⟨_, hcircular, fun i => by simp⟩
      disk := rfl
      free := fun i => (hbuf i).2
      clean := fun i hi => by rw [(hbuf i).1] at hi; cases hi }

end

/-! ## Checking a program -/

/-- The machine, for a program that only follows pointers in use. -/
def linkedRules (err : Stop → Prop) (inv : Mem → Prop) : Rules kernSig Stop Machine :=
  ⟨machine, fun o s => ∀ bp, o.target = some bp → s.ptr bp ≠ none, err,
    fun s => s.Linked ∧ inv s.mem⟩

namespace OnLinked

section
variable {err : Stop → Prop} {inv : Mem → Prop} {α : Type} {Q : α → Machine → Prop}
  {Q' : Unit → Machine → Prop} {s : Machine} {bp : BufRef}

theorem wp_get (hs : s.Linked ∧ inv s.mem) {f : Mem → Kern α}
    (h : (f s.mem).wp (linkedRules err inv) Q s) :
    (Kern.get >>= f).wp (linkedRules err inv) Q s := ⟨hs, fun _ ho => (nomatch ho), h⟩

theorem wp_set (hs : s.Linked ∧ inv s.mem) {m : Mem} {f : Unit → Kern α}
    (h : (f ()).wp (linkedRules err inv) Q { s with mem := m }) :
    (Kern.set m >>= f).wp (linkedRules err inv) Q s := ⟨hs, fun _ ho => (nomatch ho), h⟩

theorem wp_modify (hs : s.Linked ∧ inv s.mem) {g : Mem → Mem} {f : Unit → Kern α}
    (h : (f ()).wp (linkedRules err inv) Q { s with mem := g s.mem }) :
    (Kern.modify g >>= f).wp (linkedRules err inv) Q s := by
  rw [Kern.modify, Prog.bind_assoc]
  exact wp_get hs (wp_set hs h)

theorem wp_stop (hs : s.Linked ∧ inv s.mem) {why : Stop} (h : err why) :
    (Kern.stop why : Kern α).wp (linkedRules err inv) Q s :=
  ⟨hs, fun _ ho => (nomatch ho), h⟩

theorem wp_bread (hs : s.Linked ∧ inv s.mem) (hfull : err (.panic "bget: no buffers"))
    {dev b : ℕ} {f : BufRef → Kern α}
    (h : ∀ t, s.Follows t → t.ptr ⟨dev, b⟩ ≠ none → (f ⟨dev, b⟩).wp (linkedRules err inv) Q t) :
    (Kern.bread dev b >>= f).wp (linkedRules err inv) Q s := by
  refine ⟨hs, fun _ ho => (nomatch ho), ?_⟩
  have hbread := machine_bread hs.1 dev b
  change onResult _ _ (machine _ s)
  cases hstep : machine (.bread dev b) s with
  | error e => rw [hstep] at hbread; exact (show e = _ from hbread) ▸ hfull
  | ok result => rw [hstep] at hbread; exact h _ hbread.1 hbread.2

theorem wp_touch (hs : s.Linked ∧ inv s.mem) {o : KOp} (ho : o.target = some bp)
    (hptr : s.ptr bp ≠ none) {f : kernSig.Ans o → Kern α}
    (h : ∀ answer t, s.Follows t → (f answer).wp (linkedRules err inv) Q t) :
    (Prog.call (S := kernSig) o f).wp (linkedRules err inv) Q s := by
  refine ⟨hs, fun bp' ho' => ?_, ?_⟩
  · rw [ho, Option.some.injEq] at ho'
    exact ho' ▸ hptr
  have htouch := machine_touch hs.1 ho hptr
  change onResult _ _ (machine _ s)
  cases hstep : machine o s with
  | error e => rw [hstep] at htouch; exact htouch.elim
  | ok result => rw [hstep] at htouch; exact h _ _ htouch

theorem wp_data (hs : s.Linked ∧ inv s.mem) (hptr : s.ptr bp ≠ none) {f : Block → Kern α}
    (h : ∀ d t, s.Follows t → (f d).wp (linkedRules err inv) Q t) :
    (Kern.data bp >>= f).wp (linkedRules err inv) Q s := wp_touch (o := .data bp) hs rfl hptr h

theorem wp_setData (hs : s.Linked ∧ inv s.mem) (hptr : s.ptr bp ≠ none) {d : Block}
    {f : Unit → Kern α} (h : ∀ t, s.Follows t → (f ()).wp (linkedRules err inv) Q t) :
    (Kern.setData bp d >>= f).wp (linkedRules err inv) Q s :=
  wp_touch (o := .setData bp d) hs rfl hptr fun _ => h

theorem wp_setDisk (hs : s.Linked ∧ inv s.mem) (hptr : s.ptr bp ≠ none) {v : Bool}
    {f : Unit → Kern α} (h : ∀ t, s.Follows t → (f ()).wp (linkedRules err inv) Q t) :
    (Kern.setDisk bp v >>= f).wp (linkedRules err inv) Q s :=
  wp_touch (o := .setDisk bp v) hs rfl hptr fun _ => h

/-- The assignment to `disk`, with what it does to the buffer. -/
theorem wp_setDisk_at (hs : s.Linked ∧ inv s.mem) {i : Fin nbuf} (hptr : s.ptr bp = some i)
    {v : Bool} {f : Unit → Kern α} (h : (f ()).wp (linkedRules err inv) Q
      (s.modifyBuf i fun b => { b with disk := v })) :
    (Kern.setDisk bp v >>= f).wp (linkedRules err inv) Q s := by
  refine ⟨hs, fun bp' ho => ?_, ?_⟩
  · cases ho
    rw [hptr]
    exact Option.some_ne_none _
  · change onResult _ _ (machine (.setDisk bp v) s)
    simp only [machine, deref, hptr]
    exact h

theorem wp_bwrite (hs : s.Linked ∧ inv s.mem) (hptr : s.ptr bp ≠ none)
    {f : Unit → Kern α} (h : ∀ t, s.Follows t → (f ()).wp (linkedRules err inv) Q t) :
    (Kern.bwrite bp >>= f).wp (linkedRules err inv) Q s :=
  wp_touch (o := .bwrite bp) hs rfl hptr fun _ => h

theorem wp_brelse (hs : s.Linked ∧ inv s.mem) (hptr : s.ptr bp ≠ none)
    {f : Unit → Kern α} (h : ∀ t, s.Follows t → (f ()).wp (linkedRules err inv) Q t) :
    (Kern.brelse bp >>= f).wp (linkedRules err inv) Q s :=
  wp_touch (o := .brelse bp) hs rfl hptr fun _ => h

theorem wp_brelse_last (hs : s.Linked ∧ inv s.mem) (hptr : s.ptr bp ≠ none)
    (h : ∀ t, s.Follows t → (t.Linked ∧ inv t.mem) ∧ Q' () t) :
    (Kern.brelse bp).wp (linkedRules err inv) Q' s :=
  wp_touch (o := .brelse bp) (f := Prog.ret) hs rfl hptr fun _ t ht => h t ht

end

end OnLinked

end RiscvOs
