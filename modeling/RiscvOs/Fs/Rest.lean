import RiscvOs.Fs.Boot
import RiscvOs.Fs.Transfer

/-!
# Transactions from rest to rest

`Session.AtRest` holds whenever no system call is going on.  A transaction starts there and
ends there (`runs_transaction`), provided that the code between `begin_op` and `end_op` leaves
what `Session.Finishes` says; the count of the blocks it logs starts over each time, so that a
call with several transactions runs on the view (`Session.Runs`).
-/

namespace RiscvOs

open Effect Bytes Kern OnSession

/-- The session with the count of the blocks logged started over. -/
def Session.unmark (x : Session) : Session := ⟨x.toView, ∅⟩

theorem Session.unmark_self {x : Session} (h : x.marks = ∅) : x.unmark = x := by
  unfold Session.unmark
  rw [← h]

/-- No system call is going on, and the file system and the file table are in order. -/
structure Session.AtRest (x : Session) : Prop extends x.Resting where
  tree : x.volume.Tree x.mem.sb.ninodes
  files : x.Files
  marks : x.marks = ∅

/-- The code is checked for everything, and may fail as `err` says. -/
def callMode (err : Stop → Prop) : Mode where
  strict := True
  limited := True
  capped := id
  err := err
  big h := absurd trivial h

/-- The code `p` ends with `Q` or fails as `err` says. -/
def Session.Runs {α : Type} (x : Session) (err : Stop → Prop) (p : Kern α)
    (Q : α → Session → Prop) : Prop :=
  p.wp (cacheRules rootdev True err fun _ => True) (fun a v => Q a ⟨v, ∅⟩) x.toView

section
variable {α β : Type} {err : Stop → Prop} {p : Kern α} {x y z : Session} {m : Mem}

/-! ## Forgetting the count -/

theorem Session.Runs.of_wp {Q : α → Session → Prop}
    (h : p.wp (sessionRules (callMode err)) (fun a y => Q a y.unmark) x) : x.Runs err p Q := by
  unfold Session.Runs
  induction p generalizing x with
  | ret value => exact h
  | call o next ih =>
      obtain ⟨-, ⟨hpre, -⟩, hnext⟩ := h
      refine ⟨trivial, hpre, ?_⟩
      change onResult _ _ (session o x) at hnext
      change onResult _ _ (cache o x.toView)
      cases hstep : cache o x.toView with
      | error e =>
          rw [session, hstep] at hnext
          exact hnext
      | ok result =>
          rw [session, hstep] at hnext
          exact ih result.1 hnext

theorem Session.Runs.bind {Q : β → Session → Prop} {f : α → Kern β}
    (h : x.Runs err p fun a y => y.Runs err (f a) Q) : x.Runs err (p >>= f) Q := by
  unfold Session.Runs
  rw [Prog.wp_bind]
  exact h

theorem Session.Runs.pure {Q : α → Session → Prop} {a : α} (hx : x.marks = ∅) (h : Q a x) :
    x.Runs err (pure a) Q := by
  rw [← Session.unmark_self hx] at h
  exact ⟨trivial, h⟩

theorem Session.Intact.unmark {stale : Set ℕ} {pins : Pins} (h : x.Intact stale pins) :
    x.unmark.Intact stale pins :=
  { wf := h.wf, icache := h.icache, owned := h.owned, synced := h.synced, counted := h.counted }

theorem Session.Files.unmark (h : x.Files) : x.unmark.Files :=
  ⟨h.counted, h.type, h.off_lt, h.low, h.valid, h.writable⟩

/-! ## What a call leaves alone -/

/-- Apart from the log and the inode cache the session `y` has `m` in memory, and what is open in
`x` keeps its slot. -/
structure Session.Leaves (x y : Session) (m : Mem) : Prop where
  mem : ∃ log inode, y.mem = { m with log := log, inode := inode }
  keeps : x.mem.Keeps 0 y.mem

/-- A transaction is going on in `y` that started in `x`. -/
structure Session.Inside (x y : Session) : Prop where
  area : x.mem.log.SameArea y.mem.log
  outstanding : y.mem.log.outstanding = x.mem.log.outstanding
  refs : y.refs = x.refs

/-- The session `y` is `x` once the transaction has been committed. -/
structure Session.Commits (x y : Session) : Prop where
  mem : ∃ log, y.mem = { x.mem with log := log }
  volume : y.volume = x.volume

theorem Frame.inside {pins : Pins} (h : Frame pins x y) : x.Inside y :=
  ⟨h.area, h.outstanding, h.refs⟩

theorem Session.Inside.trans (h : x.Inside y) (h' : y.Inside z) : x.Inside z :=
  ⟨⟨h'.area.start.trans h.area.start, h'.area.size.trans h.area.size⟩,
    h'.outstanding.trans h.outstanding, h'.refs.trans h.refs⟩

theorem Session.Inside.withMem (h : x.Inside y) (hlog : m.log = y.mem.log) :
    x.Inside (y.withMem m) := by
  refine ⟨?_, ?_, h.refs⟩
  · rw [withMem_view, View.withMem_mem, hlog]
    exact h.area
  · rw [withMem_view, View.withMem_mem, hlog]
    exact h.outstanding

theorem Frame.leaves (h : Frame 0 x y) : x.Leaves y x.mem := ⟨h.mem, h.keeps⟩

theorem Mem.Keeps.trans_filesOn {pins : Pins} {m m' m'' : Mem} (h : m.Keeps pins m')
    (h' : m'.Keeps pins m'') (hon : ∀ ip, m'.filesOn ip = m.filesOn ip) : m.Keeps pins m'' := by
  intro ip hip
  have hip' : 0 < m'.filesOn ip + pins ip := by
    rw [hon]
    exact hip
  obtain ⟨hinum, hvalid⟩ := h ip hip
  obtain ⟨hinum', hvalid'⟩ := h' ip hip'
  exact ⟨hinum'.trans hinum, fun hv => hvalid' (hvalid hv)⟩

theorem Session.Leaves.commits (h : x.Leaves y m) (hcommits : y.Commits z) : x.Leaves z m := by
  obtain ⟨log, inode, hmem⟩ := h.mem
  obtain ⟨log', hmem'⟩ := hcommits.mem
  refine ⟨⟨log', inode, by rw [hmem', hmem]⟩, fun ip hip => ?_⟩
  rw [hmem']
  exact h.keeps ip hip

/-! ## The ends of a transaction -/

theorem Session.Files.begin (h : x.Files) : x.begin.Files :=
  ⟨h.counted, h.type, h.off_lt, h.low, h.valid, h.writable⟩

theorem Session.AtRest.ordered (h : x.AtRest) : x.Ordered := ⟨h.intact, h.tree⟩

theorem Session.AtRest.begin (h : x.AtRest) : x.begin.Ordered := ⟨h.intact.begin, h.tree⟩

/-- Code that does not touch the log stays at rest. -/
theorem Session.AtRest.withMem (h : x.AtRest) (hlog : m.log = x.mem.log) (hsb : m.sb = x.mem.sb)
    (hy : (x.withMem m).Intact ∅ 0) (hvolume : (x.withMem m).volume = x.volume)
    (hfiles : (x.withMem m).Files) : (x.withMem m).AtRest where
  inv := h.inv.withMem hlog
  unlocked := by
    rw [Session.withMem_view, View.withMem_mem, hlog]
    exact h.unlocked
  idle := by
    rw [Session.withMem_view, View.withMem_mem, hlog]
    exact h.idle
  outstanding := by
    rw [Session.withMem_view, View.withMem_mem, hlog]
    exact h.outstanding
  empty := by
    rw [Session.withMem_view, View.withMem_mem, hlog]
    exact h.empty
  refs := h.refs
  size := by
    rw [Session.withMem_view, View.withMem_mem, hlog]
    exact h.size
  intact := hy
  tree := by
    rw [hvolume, Session.withMem_view, View.withMem_mem, hsb]
    exact h.tree
  files := hfiles
  marks := h.marks

/-- What the commit leaves outside the log area is what was there. -/
theorem Ended.volume (h : Ended x y) (hwf : x.mem.sb.WellFormed x.mem.log) :
    y.volume = x.volume := by
  obtain ⟨log, hmem, -⟩ := h.mem
  have hsb : y.mem.sb = x.mem.sb := by rw [hmem]
  have hinode : y.mem.inode = x.mem.inode := by rw [hmem]
  refine Session.volume_ext (fun i => ?_) ?_ (funext fun b => ?_)
  · refine Session.node_congr hsb hinode fun hi _ => ?_
    rw [Session.diskNode, Session.diskNode, hsb, h.store _ (hwf.iblock_ok hi).2]
  · change bitmapBit (y.store (y.mem.sb.bblock 0)) = bitmapBit (x.store (x.mem.sb.bblock 0))
    rw [hsb, h.store _ hwf.bitmap_ok.2]
  · change (if y.mem.sb.IsData b then y.store b else Buffer.zero) =
      if x.mem.sb.IsData b then x.store b else Buffer.zero
    rw [hsb]
    by_cases hb : x.mem.sb.IsData b
    · rw [if_pos hb, if_pos hb, h.store b (hwf.data_ok hb).2]
    · rw [if_neg hb, if_neg hb]

theorem Ended.intact {pins : Pins} (h : Ended x y) (hx : x.Intact ∅ pins) : y.Intact ∅ pins := by
  have hvolume := h.volume hx.wf
  obtain ⟨log, hmem, harea, -⟩ := h.mem
  have hsb : y.mem.sb = x.mem.sb := by rw [hmem]
  have hlog : y.mem.log = log := by rw [hmem]
  refine
    { wf := ?_
      icache := ?_
      owned := by rw [hvolume, hsb]; exact hx.owned
      synced := fun i hi hstale => ?_
      counted := fun ip => ?_ }
  · rw [hsb, hlog]
    exact hx.wf.congr harea
  · rw [hmem]
    exact ⟨hx.icache.unique, hx.icache.dev, hx.icache.inum_lt, hx.icache.nonneg⟩
  · rw [hsb] at hi
    have hnode : y.node i = x.node i := congrFun (congrArg Volume.node hvolume) i
    have hdisk : y.diskNode i = x.diskNode i := by
      rw [Session.diskNode, Session.diskNode, hsb, h.store _ (hx.wf.iblock_ok hi).2]
    rw [hnode, hdisk]
    exact hx.synced i hi hstale
  · rw [hmem]
    exact hx.counted ip

theorem Session.Files.commit (h : x.Files) (hends : Ended x y)
    (hwf : x.mem.sb.WellFormed x.mem.log) : y.Files := by
  have hvolume := hends.volume hwf
  obtain ⟨log, hmem, -⟩ := hends.mem
  refine ⟨?_, ?_, ?_, ?_, ?_, fun f hf hwritable => ?_⟩
  · rw [hmem]
    exact h.counted
  · rw [hmem]
    exact h.type
  · rw [hmem]
    exact h.off_lt
  · rw [hmem]
    exact h.low
  · rw [hmem]
    exact h.valid
  · rw [hvolume]
    rw [hmem] at hf hwritable ⊢
    exact h.writable f hf hwritable

theorem Session.AtRest.admits (h : x.AtRest) : x.mem.log.admits := by
  refine ⟨h.idle, ?_⟩
  rw [h.empty, h.outstanding, h.size]
  decide

/-- A transaction starts. -/
theorem Session.AtRest.tx (h : x.AtRest) : Tx (callMode err) 4 2 x.begin := by
  have hout := h.outstanding
  have hsize := h.size
  exact .of_begin h.inv h.unlocked (by rw [hout]) (by omega) h.marks (fun _ => h.fits (by decide))
    h.admits

theorem Session.AtRest.runs_begin {Q : α → Session → Prop} (hx : x.AtRest)
    (h : p.wp (sessionRules (callMode err)) (fun a y => Q a y.unmark) x.begin) :
    x.Runs err (beginOp >>= fun _ => p) Q := by
  have hsize := hx.size
  have hout := hx.outstanding
  have hfits : x.Fits (2 + maxOpBlocks) := hx.fits (by decide)
  exact .of_wp (wp_beginOp hx.inv hx.unlocked (by rw [hout]) (by omega) hx.marks (fun _ => hfits)
    (fun hfull => absurd hx.admits hfull) fun _ => h)

/-- A transaction ends. -/
theorem Session.AtRest.wp_end {Q : α → Session → Prop} {a : α} (hx : x.AtRest)
    (hin : x.begin.Inside y) (hy : y.Intact ∅ 0) (htree : y.volume.Tree y.mem.sb.ninodes)
    (hfiles : y.Files) (htx : Tx (callMode err) 0 2 y)
    (h : ∀ z, z.AtRest → y.Commits z → Q a z) :
    (endOp >>= fun _ => (pure a : Kern α)).wp (sessionRules (callMode err))
      (fun a z => Q a z.unmark) y := by
  have hone : y.mem.log.outstanding = 1 := by
    rw [hin.outstanding]
    change x.mem.log.outstanding + 1 = 1
    rw [hx.outstanding]
    rfl
  have hmarks := htx.marks_le trivial
  refine wp_endOp htx (fun _ => (htx.fits trivial).less ?_) fun z hz =>
    OnSession.wp_done.mpr (h z.unmark ?_ ?_)
  · change 2 ≤ 2 + 5 - y.marks.card
    have hmax : maxOpBlocks = 5 := rfl
    omega
  · have hvolume := hz.volume hy.wf
    have hz' := hz.intact hy
    obtain ⟨log, hmem, harea, hout, hlock, hidle⟩ := hz.mem
    have hlog : z.mem.log = log := by rw [hmem]
    exact
      { inv := hz.inv
        unlocked := by change z.mem.log.lock = false; rw [hlog]; exact hlock
        idle := by change z.mem.log.committing = false; rw [hlog]; exact hidle
        outstanding := by change z.mem.log.outstanding = 0; rw [hlog, hout, hone]; rfl
        empty := hz.empty hone
        refs := hz.refs.trans (hin.refs.trans hx.refs)
        size := by
          change z.mem.log.size = 30
          rw [hlog, harea.size, hin.area.size]
          exact hx.size
        intact := hz'.unmark
        tree := by
          change z.volume.Tree z.mem.sb.ninodes
          rw [hvolume, hmem]
          exact htree
        files := (hfiles.commit hz hy.wf).unmark
        marks := rfl }
  · obtain ⟨log, hmem, -⟩ := hz.mem
    exact ⟨⟨log, hmem⟩, hz.volume hy.wf⟩

/-! ## A whole transaction -/

/-- What the code after `begin_op` leaves for `end_op`. -/
structure Session.Finishes (x : Session) (err : Stop → Prop) (y : Session) : Prop where
  inside : x.begin.Inside y
  sb : y.mem.sb = x.mem.sb
  intact : y.Intact ∅ 0
  tree : y.volume.Tree y.mem.sb.ninodes
  files : y.Files
  tx : Tx (callMode err) 0 2 y

/-- `begin_op`, the code of a call, and `end_op`. -/
def transaction (body : Kern α) : Kern α := do
  beginOp
  let r ← body
  endOp
  return r

/-- A transaction from rest to rest. -/
theorem Session.AtRest.runs_transaction {P Q : α → Session → Prop} (hx : x.AtRest)
    (hbody : p.wp (sessionRules (callMode err)) (fun r y => x.Finishes err y ∧ P r y) x.begin)
    (h : ∀ r y z, P r y → z.AtRest → y.Commits z → Q r z) : x.Runs err (transaction p) Q := by
  refine hx.runs_begin ?_
  rw [Prog.wp_bind]
  refine Prog.wp_mono hbody fun r y _ hy => ?_
  obtain ⟨hfinishes, hP⟩ := hy
  exact hx.wp_end hfinishes.inside hfinishes.intact hfinishes.tree hfinishes.files hfinishes.tx
    fun z hz hcommits => h r y z hP hz hcommits

end

end RiscvOs
