import RiscvOs.Fs.Mount
import RiscvOs.Log.Quiet

/-!
# The log after mounting any image

Any number of processes use the log of a machine that `fsinit` has mounted, whatever
image it was.  `log_write` is given buffers that hold the block they are named by, and
the rest of the kernel reads, changes and releases buffers as it likes; only the log
itself writes to the disk and sets the dirty marks.

`Pinned` is the invariant: every logged block has a dirty buffer of its own.
-/

namespace RiscvOs.Reservation

open Effect Bytes Bio

/-- A pointer to the buffer that holds its block. -/
def Live (s : Machine) (bp : BufRef) : Prop :=
  ∃ i, s.ptr bp = some i ∧ (s.bcache.buf i).valid = true ∧ (s.bcache.buf i).blockno = bp.blockno

/-- A call that is neither `log_write` nor about buffers. -/
def Call.IsPlain {ι : Type} : Call ι → Prop
  | logWrite _ _ | buffer _ => False
  | _ => True

variable {ι : Type} [DecidableEq ι]

/-- One call of one process.  An operation may log as many blocks as it likes. -/
inductive Procs.FreeStep (s : Procs ι) : Call ι → Procs ι → Prop
  | plain {call : Call ι} {t : Procs ι} (hcall : call.IsPlain) (hstep : s.Step call t) :
      FreeStep s call t
  | logWrite {p : ι} {bp : BufRef} {logged : Finset ℕ} {k : Machine}
      (hphase : s.phase p = .inOp logged) (hlive : Live s.kernel bp)
      (hrun : (RiscvOs.logWrite bp).run machine s.kernel = .ok ((), k)) :
      FreeStep s (.logWrite p bp)
        { s.move p (.inOp (insert bp.blockno logged)) k with
          since := insert bp.blockno s.since }
  | buffer {o : KOp} {answer : KOp.Ans o} {k : Machine} (ho : o.IsClient)
      (hrun : machine o s.kernel = .ok (answer, k)) :
      FreeStep s (.buffer o) { s with kernel := k }

theorem bcache_of_quiet {α : Type} {p : Kern α} (hp : Prog.Only (S := kernSig) IsQuiet p)
    {s t : Machine} {a : α} (hrun : p.run machine s = .ok (a, t)) : t.bcache = s.bcache := by
  refine hp.run (I := fun u => u.bcache = s.bcache) (fun o u answer v ho hu hstep => ?_) rfl hrun
  cases o with
  | get | wakeup => cases hstep; exact hu
  | set m => cases hstep; exact hu
  | stop why => cases hstep
  | _ => exact ho.elim

/-! ## `log_write` and `commit` -/

section
variable {s : Machine} {bp : BufRef}

/-- `log_write` of a buffer in use leaves the array only if the header is full, and sets the
dirty mark. -/
theorem logWrite_linked_wp (hs : s.Linked) {i : Fin nbuf} (hptr : s.ptr bp = some i)
    (hroom : s.mem.log.lh.find bp.blockno = none → s.mem.log.lh.n < loglen) :
    (RiscvOs.logWrite bp).wp (linkedRules (· ≠ .fault) fun _ => True)
      (fun _ t => t.bcache = s.bcache.modify i fun b => { b with disk := true }) s := by
  have hok : ∀ {m : Mem}, ({ s with mem := m } : Machine).Linked ∧ True :=
    fun {m} => ⟨hs.congr rfl, trivial⟩
  have hlast : ∀ {m : Mem}, (Kern.setDisk bp true >>= fun _ => releaseLog).wp
      (linkedRules (· ≠ .fault) fun _ => True)
      (fun _ t => t.bcache = s.bcache.modify i fun b => { b with disk := true })
      { s with mem := m } := by
    intro m
    refine OnLinked.wp_setDisk_at (s := { s with mem := m }) hok hptr ?_
    rw [releaseLog, modifyLog, ← Prog.bind_ret (Kern.modify _)]
    have hlinked : ∀ {m : Mem}, (({ s with mem := m } : Machine).modifyBuf i fun b =>
        { b with disk := true }).Linked ∧ True := fun {m} => ⟨hs.congr rfl, trivial⟩
    exact OnLinked.wp_modify hlinked ⟨hlinked, rfl⟩
  rw [RiscvOs.logWrite, acquireLog, getLog, Prog.bind_assoc, Prog.bind_assoc]
  refine OnLinked.wp_get ⟨hs, trivial⟩ ?_
  change ((if s.mem.log.lock then _ else _ : Kern Unit) >>= _).wp _ _ _
  split
  · rw [Kern.stop_bind]
    exact OnLinked.wp_stop ⟨hs, trivial⟩ (by decide)
  · rw [modifyLog]
    refine OnLinked.wp_modify ⟨hs, trivial⟩ ?_
    rw [Prog.bind_assoc]
    refine OnLinked.wp_get hok ?_
    change Prog.wp _ (if s.mem.log.size - 1 ≤ s.mem.log.lh.n then _ else _) _ _
    split
    · exact OnLinked.wp_stop hok (by decide)
    split
    · exact OnLinked.wp_stop hok (by decide)
    generalize hfound : LogHeader.find _ bp.blockno = found
    cases found with
    | some j => exact hlast
    | none =>
        have hfind : s.mem.log.lh.find bp.blockno = none := hfound
        change Prog.wp _ (if (loglen : ℤ) ≤ s.mem.log.lh.n then _ else _) _ _
        rw [if_neg (not_le.mpr (hroom hfind)), modifyLog]
        exact OnLinked.wp_modify hok hlast

theorem writeLogBlock_linked_wp (hs : s.Linked) {i : ℕ} (hi : i < loglen) :
    (writeLogBlock i).wp (linkedRules (· ≠ .fault) fun _ => True)
      (fun _ t => t.Linked ∧ t.mem = s.mem) s := by
  have hfull : Stop.panic "bget: no buffers" ≠ .fault := by decide
  rw [writeLogBlock, getLog, Prog.bind_assoc]
  refine OnLinked.wp_get ⟨hs, trivial⟩ (OnLinked.wp_bread ⟨hs, trivial⟩ hfull fun t₁ h₁ hd₁ =>
    wp_logEntry_linked ⟨h₁.linked, trivial⟩ hi
      (OnLinked.wp_bread ⟨h₁.linked, trivial⟩ hfull fun t₂ h₂ hs₂ => ?_))
  have hd₂ := h₂.ptr _ hd₁
  refine OnLinked.wp_data ⟨h₂.linked, trivial⟩ hs₂ fun d t₃ h₃ => ?_
  refine OnLinked.wp_setData ⟨h₃.linked, trivial⟩ (h₃.ptr _ hd₂) fun t₄ h₄ => ?_
  have h₂₄ := h₃.trans h₄
  refine OnLinked.wp_bwrite ⟨h₄.linked, trivial⟩ (h₂₄.ptr _ hd₂) fun t₅ h₅ => ?_
  have h₂₅ := h₂₄.trans h₅
  refine OnLinked.wp_brelse ⟨h₅.linked, trivial⟩ (h₂₅.ptr _ hs₂) fun t₆ h₆ => ?_
  have h₂₆ := h₂₅.trans h₆
  refine OnLinked.wp_brelse_last ⟨h₆.linked, trivial⟩ (h₂₆.ptr _ hd₂) fun t₇ h₇ => ?_
  have hall := (h₁.trans h₂).trans (h₂₆.trans h₇)
  exact ⟨⟨hall.linked, trivial⟩, hall.linked, hall.mem⟩

theorem writeLog_linked_wp (hs : s.Linked) (hn : s.mem.log.lh.n ≤ loglen) :
    writeLog.wp (linkedRules (· ≠ .fault) fun _ => True) (fun _ t => t.Linked ∧ t.mem = s.mem)
      s := by
  rw [writeLog, getLog, Prog.bind_assoc]
  refine OnLinked.wp_get ⟨hs, trivial⟩ (Prog.wp_forRange
    (fun _ (t : Machine) => t.Linked ∧ t.mem = s.mem) (fun i t _ _ ht => ⟨ht.1, trivial⟩)
    ⟨hs, rfl⟩ fun i t _ hi ht => ?_)
  have hloglen : (loglen : ℤ) = 30 := rfl
  exact Prog.wp_mono (writeLogBlock_linked_wp ht.1 (by omega)) fun _ u _ hu =>
    ⟨hu.1, hu.2.trans ht.2⟩

/-- A commit does not leave the array of a header that fits into it. -/
theorem commit_linked_wp (hs : s.Linked) (hn : s.mem.log.lh.n ≤ loglen) :
    commit.wp (linkedRules (· ≠ .fault) fun _ => True) (fun _ t => t.Linked) s := by
  have hfull : Stop.panic "bget: no buffers" ≠ .fault := by decide
  rw [commit, getLog, Prog.bind_assoc]
  refine OnLinked.wp_get ⟨hs, trivial⟩ ?_
  change Prog.wp _ (if 0 < s.mem.log.lh.n then _ else _) _ _
  split
  · rw [Prog.wp_bind]
    refine Prog.wp_mono (writeLog_linked_wp hs hn) fun _ t₁ _ h₁ => ?_
    rw [Prog.wp_bind]
    refine Prog.wp_mono (writeHead_linked_wp ⟨h₁.1, trivial⟩ hfull (by rw [h₁.2]; exact hn))
      fun _ t₂ _ h₂ => ?_
    have hmem₂ := h₂.2.trans h₁.2
    rw [Prog.wp_bind]
    refine Prog.wp_mono (installTrans_linked_wp ⟨h₂.1, trivial⟩ hfull (by rw [hmem₂]; exact hn))
      fun _ t₃ _ h₃ => ?_
    rw [modifyLog]
    refine OnLinked.wp_modify ⟨h₃.1, trivial⟩ ?_
    exact Prog.wp_mono (writeHead_linked_wp ⟨h₃.1.congr rfl, trivial⟩ hfull
      (show (0 : ℤ) ≤ _ by decide)) fun _ t₄ _ h₄ => h₄.1
  · exact ⟨⟨hs, trivial⟩, hs⟩

end

/-! ## The invariant -/

variable [Fintype ι]

/-- Every logged block is in the header and has a dirty buffer of its own. -/
structure Pinned (sb : Superblock) (s : Procs ι) : Prop where
  linked : s.kernel.Linked
  start : s.kernel.mem.log.start = i32 sb.logstart
  size : s.kernel.mem.log.size = i32 sb.nlog
  dev : s.kernel.mem.log.dev = rootdev
  nonneg : 0 ≤ s.kernel.mem.log.lh.n
  distinct : s.kernel.mem.log.lh.Distinct
  entries : s.kernel.mem.log.lh.entries = s.since
  pinned : ∀ b ∈ s.since, ∃ i, (s.kernel.bcache.buf i).valid = true ∧
    (s.kernel.bcache.buf i).disk = true ∧ (s.kernel.bcache.buf i).blockno = b
  short : 0 < s.kernel.mem.log.lh.n → s.kernel.mem.log.lh.n < s.kernel.mem.log.size
  outstanding : s.kernel.mem.log.outstanding = ∑ p, (s.phase p).active
  wide : 0 < s.kernel.mem.log.lh.n ∨ 0 < s.kernel.mem.log.outstanding →
    10 ≤ s.kernel.mem.log.size

namespace Pinned

variable {sb : Superblock} {s : Procs ι} {p : ι} {x : Phase} {k : Machine} {bp : BufRef}

omit [DecidableEq ι] in
/-- The blocks that have been logged are among those in the buffers. -/
theorem since_subset (h : Pinned sb s) :
    s.since ⊆ Finset.univ.image fun i => (s.kernel.bcache.buf i).blockno := by
  intro b hb
  obtain ⟨i, -, -, hi⟩ := h.pinned b hb
  exact Finset.mem_image.mpr ⟨i, Finset.mem_univ i, hi⟩

omit [DecidableEq ι] in
theorem card_since (h : Pinned sb s) : (s.since.card : ℤ) = s.kernel.mem.log.lh.n := by
  have hcard := h.distinct.card_entries
  have hn := h.nonneg
  rw [h.entries] at hcard
  omega

theorem card_blocks_le (bc : Bcache) :
    (Finset.univ.image fun i => (bc.buf i).blockno).card ≤ nbuf :=
  Finset.card_image_le.trans (by rw [Finset.card_univ, Fintype.card_fin])

omit [DecidableEq ι] in
/-- There are no more entries than buffers, and as many buffers as the array is long. -/
theorem le_loglen (h : Pinned sb s) : s.kernel.mem.log.lh.n ≤ loglen := by
  have hle := (Finset.card_le_card h.since_subset).trans (card_blocks_le s.kernel.bcache)
  have hcard := h.card_since
  have : nbuf = loglen := rfl
  omega

omit [DecidableEq ι] in
/-- A block that is in a buffer but not in the header leaves room in the header. -/
theorem lt_loglen (h : Pinned sb s) (hlive : Live s.kernel bp)
    (hfind : s.kernel.mem.log.lh.find bp.blockno = none) : s.kernel.mem.log.lh.n < loglen := by
  have hnew : bp.blockno ∉ s.since := by
    rw [← h.entries]
    exact (LogHeader.find_none_iff_notMem h.le_loglen).mp hfind
  obtain ⟨i, -, -, hi⟩ := hlive
  have hsub : insert bp.blockno s.since ⊆
      Finset.univ.image fun i => (s.kernel.bcache.buf i).blockno :=
    Finset.insert_subset (Finset.mem_image.mpr ⟨i, Finset.mem_univ i, hi⟩) h.since_subset
  have hle := (Finset.card_le_card hsub).trans (card_blocks_le s.kernel.bcache)
  rw [Finset.card_insert_of_notMem hnew] at hle
  have hcard := h.card_since
  have : nbuf = loglen := rfl
  omega

/-- A process moves on without touching the header or a buffer. -/
theorem move (h : Pinned sb s) (hbcache : k.bcache = s.kernel.bcache)
    (hlog : s.kernel.mem.log.SameHeader k.mem.log)
    (hout : k.mem.log.outstanding =
      s.kernel.mem.log.outstanding - (s.phase p).active + x.active)
    (hwide : 0 < x.active → 10 ≤ s.kernel.mem.log.size) : Pinned sb (s.move p x k) where
  linked := h.linked.congr (by change k.bcache.links = _; rw [hbcache])
  start := hlog.start.trans h.start
  size := hlog.size.trans h.size
  dev := hlog.dev.trans h.dev
  nonneg := by change 0 ≤ k.mem.log.lh.n; rw [hlog.lh]; exact h.nonneg
  distinct := by change k.mem.log.lh.Distinct; rw [hlog.lh]; exact h.distinct
  entries := by change k.mem.log.lh.entries = _; rw [hlog.lh]; exact h.entries
  pinned b hb := by
    obtain ⟨i, hi⟩ := h.pinned b hb
    rw [← hbcache] at hi
    exact ⟨i, hi⟩
  short := by
    change 0 < k.mem.log.lh.n → k.mem.log.lh.n < k.mem.log.size
    rw [hlog.lh, hlog.size]
    exact h.short
  outstanding := by
    rw [sum_move Phase.active, ← h.outstanding]
    exact hout
  wide := by
    change 0 < k.mem.log.lh.n ∨ 0 < k.mem.log.outstanding → 10 ≤ k.mem.log.size
    rw [hlog.lh, hlog.size, hout]
    intro hor
    by_cases hx : 0 < x.active
    · exact hwide hx
    · have hold := (s.phase p).active_nonneg
      exact h.wide (hor.imp_right fun hpos => by omega)

omit [DecidableEq ι] in
/-- A buffer call of the rest of the kernel lets go of no dirty buffer. -/
theorem buffer (h : Pinned sb s) {o : KOp} (ho : o.IsClient) {answer : KOp.Ans o}
    (hrun : machine o s.kernel = .ok (answer, k)) : Pinned sb { s with kernel := k } := by
  have hmem : k.mem = s.kernel.mem := by
    have hmem := machine_mem (o := o) (by cases o <;> first | exact ho.elim | trivial) s.kernel
    rw [hrun] at hmem
    exact hmem
  obtain ⟨hlinked, hkeep⟩ := client_keepsDirty h.linked ho hrun
  obtain ⟨-, h2, h3, h4, h5, h6, h7, h8, h9, h10, h11⟩ := h
  rw [← hmem] at h2 h3 h4 h5 h6 h7 h9 h10 h11
  refine ⟨hlinked, h2, h3, h4, h5, h6, h7, fun b hb => ?_, h9, h10, h11⟩
  obtain ⟨i, hvalid, hdisk, hi⟩ := h8 b hb
  obtain ⟨hvalid', hdisk', hi'⟩ := hkeep i hvalid hdisk
  exact ⟨i, hvalid', hdisk', hi'.trans hi⟩

/-- `log_write` pins its block. -/
theorem logWrite (h : Pinned sb s) {U : Finset ℕ} (hp : s.phase p = .inOp U)
    (hlive : Live s.kernel bp)
    (hrun : (RiscvOs.logWrite bp).run machine s.kernel = .ok ((), k)) :
    Pinned sb { s.move p (.inOp (insert bp.blockno U)) k with
      since := insert bp.blockno s.since } := by
  obtain ⟨i, hptr, hvalid, hi⟩ := hlive
  have hroom := h.lt_loglen ⟨i, hptr, hvalid, hi⟩
  obtain ⟨hlt, hout, hmem⟩ := Prog.ok_of_wp
    (OnMem.logWrite_mem (fun _ => True) (fun _ => trivial) fun _ => trivial) hrun
  have hbcache := Prog.ok_of_wp (logWrite_linked_wp h.linked hptr hroom) hrun
  have hlog : k.mem.log = s.kernel.mem.log.note bp.blockno := congrArg Mem.log hmem
  obtain ⟨hnonneg, hdistinct, hentries⟩ :=
    LogHeader.note_spec (b := bp.blockno) h.le_loglen h.nonneg h.distinct
  have hcount : (s.kernel.mem.log.lh.note bp.blockno).n ≤ s.kernel.mem.log.lh.n + 1 := by
    unfold LogHeader.note
    split
    · omega
    · exact le_refl _
  have hwide : 10 ≤ s.kernel.mem.log.size := h.wide (.inr (by omega))
  have hmove : Pinned sb (s.move p (.inOp (insert bp.blockno U))
      { k with mem := s.kernel.mem, bcache := s.kernel.bcache }) := by
    refine h.move rfl ⟨⟨rfl, rfl⟩, rfl, rfl⟩ ?_ fun _ => hwide
    rw [hp, Phase.active_inOp, Phase.active_inOp]
    change s.kernel.mem.log.outstanding = _
    omega
  have hout' : k.mem.log.outstanding = s.kernel.mem.log.outstanding := by rw [hlog]; rfl
  exact
    { linked := h.linked.congr (by
        change k.bcache.links = _
        rw [hbcache]
        rfl)
      start := (congrArg Log.start hlog).trans h.start
      size := (congrArg Log.size hlog).trans h.size
      dev := (congrArg Log.dev hlog).trans h.dev
      nonneg := by change 0 ≤ k.mem.log.lh.n; rw [hlog]; exact hnonneg
      distinct := by change k.mem.log.lh.Distinct; rw [hlog]; exact hdistinct
      entries := by
        change k.mem.log.lh.entries = _
        rw [hlog, ← h.entries]
        exact hentries
      pinned := fun b hb => by
        change ∃ j, (k.bcache.buf j).valid = true ∧ (k.bcache.buf j).disk = true ∧
          (k.bcache.buf j).blockno = b
        rw [hbcache]
        rcases Finset.mem_insert.mp hb with rfl | hb
        · exact ⟨i, by simp [hvalid, hi]⟩
        · obtain ⟨j, hj⟩ := h.pinned b hb
          by_cases heq : j = i
          · subst heq
            exact ⟨j, by simp [hj]⟩
          · exact ⟨j, by rw [Bcache.modify_buf_of_ne _ _ heq]; exact hj⟩
      short := fun _ => by
        change k.mem.log.lh.n < k.mem.log.size
        rw [hlog]
        change (s.kernel.mem.log.lh.note bp.blockno).n < s.kernel.mem.log.size
        omega
      outstanding := hout'.trans hmove.outstanding
      wide := fun _ => by
        change 10 ≤ k.mem.log.size
        rw [hlog]
        exact hwide }

/-- After a commit nothing has been logged. -/
theorem commit (h : Pinned sb s) (hp : s.phase p = .committing)
    (hrun : RiscvOs.commit.run machine s.kernel = .ok ((), k)) :
    Pinned sb { s.move p .committed k with since := ∅ } := by
  have hmem := Prog.ok_of_wp (OnMem.commit_mem (fun _ => False) h.nonneg) hrun
  have hlinked := Prog.ok_of_wp (commit_linked_wp h.linked h.le_loglen) hrun
  have hlog : k.mem.log = s.kernel.mem.log.clear := congrArg Mem.log hmem
  have hempty : k.mem.log.lh.n = 0 := by rw [hlog, Log.clear]
  have hout : k.mem.log.outstanding = ∑ q, ((s.move p .committed k).phase q).active := by
    rw [sum_move Phase.active, hp, hlog, ← h.outstanding]
    simp only [Phase.active, Log.clear]
    omega
  exact
    { linked := hlinked
      start := (congrArg Log.start hlog).trans h.start
      size := (congrArg Log.size hlog).trans h.size
      dev := (congrArg Log.dev hlog).trans h.dev
      nonneg := hempty.ge
      distinct := fun j hj => absurd hj (by
        change ¬ j < k.mem.log.lh.n.toNat
        omega)
      entries := LogHeader.entries_of_empty hempty
      pinned := fun b hb => absurd hb (Finset.notMem_empty b)
      short := fun hpos => by
        change 0 < k.mem.log.lh.n at hpos
        omega
      outstanding := hout
      wide := fun hor => by
        change 0 < k.mem.log.lh.n ∨ 0 < k.mem.log.outstanding at hor
        change 10 ≤ k.mem.log.size
        rw [hlog] at hor ⊢
        exact h.wide (.inr (hor.resolve_left (lt_irrefl 0))) }

/-- One call of one process keeps every logged block pinned. -/
theorem step (h : Pinned sb s) {call : Call ι} {t : Procs ι} (hstep : s.FreeStep call t) :
    Pinned sb t := by
  have hquiet : 0 ≤ s.kernel.mem.log.outstanding := by
    rw [h.outstanding]
    exact Finset.sum_nonneg fun q _ => (s.phase q).active_nonneg
  have hadmits : s.kernel.mem.log.admits → 10 ≤ s.kernel.mem.log.size := by
    intro hadmits
    have hroom := hadmits.2
    have hn := h.nonneg
    omega
  cases hstep with
  | logWrite hphase hlive hrun => exact h.logWrite hphase hlive hrun
  | buffer ho hrun => exact h.buffer ho hrun
  | plain hcall hstep =>
      cases hstep with
      | @begin p admitted k hphase hrun =>
          have hbcache := bcache_of_quiet (quiet_acquireLog.bind fun _ => quiet_beginOpTry) hrun
          obtain ⟨hyes, hno⟩ := Prog.ok_of_wp (OnMem.beginOpFirst_mem fun _ => False) hrun
          cases admitted with
          | true =>
              obtain ⟨hroom, hmem⟩ := hyes rfl
              refine h.move hbcache (by rw [hmem]; exact ⟨⟨rfl, rfl⟩, rfl, rfl⟩) ?_
                fun _ => hadmits hroom
              rw [hphase, hmem]
              simp [Phase.active]
          | false =>
              have hmem := (hno rfl).2
              refine h.move hbcache (by rw [hmem]; exact ⟨⟨rfl, rfl⟩, rfl, rfl⟩) ?_
                fun hpos => absurd hpos (lt_irrefl 0)
              rw [hphase, hmem]
              simp [Phase.active]
      | @wake p hphase =>
          refine h.move rfl ⟨⟨rfl, rfl⟩, rfl, rfl⟩ ?_ fun hpos => absurd hpos (lt_irrefl 0)
          rw [hphase]
          simp [Phase.active]
      | @retry p admitted k hphase hrun =>
          have hbcache := bcache_of_quiet quiet_beginOpTry hrun
          obtain ⟨hyes, hno⟩ := Prog.ok_of_wp (OnMem.beginOpTry_mem fun _ => False) hrun
          cases admitted with
          | true =>
              obtain ⟨hroom, hmem⟩ := hyes rfl
              refine h.move hbcache (by rw [hmem]; exact ⟨⟨rfl, rfl⟩, rfl, rfl⟩) ?_
                fun _ => hadmits hroom
              rw [hphase, hmem]
              simp [Phase.active]
          | false =>
              have hmem := (hno rfl).2
              refine h.move hbcache (by rw [hmem]; exact ⟨⟨rfl, rfl⟩, rfl, rfl⟩) ?_
                fun hpos => absurd hpos (lt_irrefl 0)
              rw [hphase, hmem]
              simp [Phase.active]
      | logWrite => exact hcall.elim
      | buffer => exact hcall.elim
      | @enter p U doCommit k hphase hrun =>
          have hbcache := bcache_of_quiet quiet_endOpEnter hrun
          obtain ⟨-, hyes, hno⟩ := Prog.ok_of_wp OnMem.endOpEnter_mem hrun
          have hidle : (if doCommit = true then Phase.committing else Phase.idle).active = 0 := by
            cases doCommit <;> rfl
          have hlog : s.kernel.mem.log.SameHeader k.mem.log ∧
              k.mem.log.outstanding = s.kernel.mem.log.outstanding - 1 := by
            cases doCommit with
            | true =>
                obtain ⟨hout, hmem⟩ := hyes rfl
                rw [hmem]
                exact ⟨⟨⟨rfl, rfl⟩, rfl, rfl⟩, by simp [hout]⟩
            | false =>
                rw [(hno rfl).2]
                exact ⟨⟨⟨rfl, rfl⟩, rfl, rfl⟩, rfl⟩
          refine h.move hbcache hlog.1 ?_ fun hpos => by rw [hidle] at hpos; cases hpos
          rw [hphase, hidle, hlog.2]
          simp [Phase.active]
      | commit hphase hrun => exact h.commit hphase hrun
      | @leave p k hphase hrun =>
          have hbcache := bcache_of_quiet quiet_endOpLeave hrun
          have hmem := Prog.ok_of_wp (OnMem.endOpLeave_mem fun _ => False) hrun
          refine h.move hbcache (by rw [hmem]; exact ⟨⟨rfl, rfl⟩, rfl, rfl⟩) ?_
            fun hpos => absurd hpos (lt_irrefl 0)
          rw [hphase, hmem]
          simp [Phase.active]

end Pinned

/-- An image with a superblock and a count of log entries. -/
def image (nlog n : ℕ) : ℕ → Block
  | 1 => Buffer.zero.write 0 (le 4 fsmagic ++ le 4 1000 ++ le 4 900 ++ le 4 200 ++ le 4 nlog ++
      le 4 2 ++ le 4 32 ++ le 4 45)
  | 2 => Buffer.zero.write 0 (le 4 n)
  | _ => default

end RiscvOs.Reservation
