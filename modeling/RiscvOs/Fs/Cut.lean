import RiscvOs.Fs.Unseen
import RiscvOs.Fs.Reboot

/-!
# A power cut during a transaction

A transaction of the file system changes the disk only in `end_op`, and the disks it passes
through there store the volume before the transaction or the one after it
(`Finishes.ends`).  That the superblock is never logged does not follow from the log's own
invariant, since block 1 lies before the log area; but it does for a log that starts at block 1,
and the code cannot tell the difference (`Fs/Unseen.lean`).

`survives_transaction` puts this together: the condition `crash` on the disks passed through
need only hold of those that store the volume before, or the volume after if the code between
`begin_op` and `end_op` comes to its end.
-/

namespace RiscvOs

open Effect Bytes Kern OnSession

/-- The session with the log at block `start`. -/
def Session.relocate (start : ℕ) (x : Session) : Session := x.withMem (x.mem.relocate start)

section
variable {α : Type} {err err' err'' : Stop → Prop} {mode : Mode} {sb : Superblock}
  {x y z : Session} {p : Kern α} {d : ℕ → Block} {start : ℕ} {crash : (ℕ → Block) → Prop}

/-! ## Sessions with the log elsewhere -/

/-- No operation tells the place of the log, except for what it answers. -/
theorem session_relocate {o : KOp} {answer : o.Ans} (ho : o.Silent)
    (hstep : session o x = .ok (answer, y)) :
    session (o.relocate start) (x.relocate start) =
      .ok (o.relocateAns start answer, y.relocate start) := by
  cases o with
  | get => cases hstep; rfl
  | set m => cases hstep; rfl
  | stop why => cases hstep
  | wakeup => cases hstep; rfl
  | bread dev b => cases hstep; rfl
  | data bp => cases hstep; rfl
  | setData bp d => cases hstep; rfl
  | setDisk bp dirty =>
      cases dirty with
      | true => cases hstep; rfl
      | false => cases hstep; rfl
  | bwrite bp => exact absurd rfl (ho bp)
  | brelse bp => cases hstep; rfl

theorem session_disk {o : KOp} {answer : o.Ans} (ho : o.Silent)
    (hstep : session o x = .ok (answer, y)) : y.disk = x.disk := by
  cases o with
  | stop why => cases hstep
  | bwrite bp => exact absurd rfl (ho bp)
  | _ => cases hstep; rfl

/-- Between two calls the log may lie anywhere before the inodes. -/
theorem Session.AtRest.relocate (h : x.AtRest) (hstart : start + x.mem.sb.nlog ≤ x.mem.sb.inodestart) :
    (x.relocate start).AtRest := by
  have hwf := h.intact.wf
  have hlength : x.mem.log.size = x.mem.sb.nlog := hwf.length
  have hinodes := hwf.inodestart_lt
  have hbitmap := hwf.bitmapEnd
  have hdata := hwf.dataEnd
  have hsize := hwf.lt_of_le_size le_rfl
  have hentries : x.mem.log.lh.entries = ∅ := LogHeader.entries_of_empty h.empty
  have hondisk : (x.relocate start).mem.log.OnDisk := by
    refine ⟨Int.natCast_nonneg start, h.inv.onDisk.size_pos, ?_⟩
    change (start : ℤ) + x.mem.log.size ≤ 2 ^ 31
    omega
  have hintact : (x.relocate start).Intact ∅ 0 :=
    { wf := { hwf with start := rfl, logEnd := hstart }
      icache := ⟨h.intact.icache.unique, h.intact.icache.dev, h.intact.icache.inum_lt,
        h.intact.icache.nonneg⟩
      owned := h.intact.owned
      synced := h.intact.synced
      counted := h.intact.counted }
  exact
    { inv :=
        { dev := h.inv.dev
          onDisk := hondisk
          sound := .of_empty hondisk h.empty
          dirty := h.inv.dirty
          clean := h.inv.clean
          held := h.inv.held
          outside := fun b hb => absurd hb (Set.notMem_empty b) }
      unlocked := h.unlocked
      idle := h.idle
      outstanding := h.outstanding
      empty := h.empty
      refs := h.refs
      size := h.size
      intact := hintact
      tree := h.tree
      files := ⟨h.files.counted, h.files.type, h.files.off_lt, h.files.low, h.files.valid,
        h.files.writable⟩
      marks := h.marks }

/-- What blind code establishes for the log where it is and for a log elsewhere, it establishes
in one run, and the disk stays as it is. -/
theorem Kern.Blind.wp_both {Q Q' : α → Session → Prop} (hblind : p.Blind)
    (h : p.wp (sessionRules mode) Q x)
    {mode' : Mode} (h' : p.wp (sessionRules mode') Q' (x.relocate start)) :
    p.wp { sessionRules mode with crash := fun y => y.disk = x.disk }
      (fun a y => (Q a y ∧ Q' a (y.relocate start)) ∧ y.disk = x.disk) x := by
  have hboth := (hblind start).wp_both
    (fun o s answer t ho hstep => session_relocate ho hstep) h h'
  have hkeep := (hblind start).only.wp_keep (I := fun y => y.disk = x.disk)
    (fun o s answer t ho hs hstep => (session_disk ho hstep).trans hs) hboth rfl
  exact Prog.wp_weaken hkeep rfl (fun _ _ hpre => hpre) (fun _ he => he) fun _ hcrash => hcrash.2

/-! ## The commit -/

/-- The rules of a mode that accepts other failures. -/
theorem Tx.accept {spare holds : ℕ} (h : Tx (callMode err) spare holds y) :
    Tx (callMode err') spare holds y :=
  { h with
    budget := h.budget
    room := h.room
    fits := h.fits }

/-- The superblock is not logged. -/
theorem Session.Finishes.superblock (h : (x.relocate 1).Finishes err (y.relocate 1))
    (hsize : y.mem.log.size = 30) : 1 ∉ y.mem.log.lh.entries := by
  intro hmem
  have hhome := (h.tx.inv.entries_home hmem).2
  refine hhome ⟨le_rfl, ?_⟩
  change ((1 : ℕ) : ℤ) < ((1 : ℕ) : ℤ) + y.mem.log.size
  omega

/-- What a power cut during the commit finds on the disk. -/
theorem Session.Finishes.stored (hsb : sb.Mountable) (hx : x.Durable sb) (hy : x.Finishes err y)
    (hdisk : y.disk = x.disk) (hone : 1 ∉ y.mem.log.lh.entries)
    (hd : CommitDisk y.toView.ending d) : Stored sb x.volume d ∨ Stored sb y.volume d := by
  have hysb : y.mem.sb = sb := hy.sb.trans hx.sb_eq
  have hplace : (sb.log rootdev).SameArea y.mem.log := hy.intact.place hysb hsb.fits
  have hinv : LogInv rootdev ∅ y.toView.ending := hy.tx.inv.setLog ⟨⟨rfl, rfl⟩, rfl, rfl⟩
  have hempty : (y.mem.log.onDiskHeader y.disk).n = 0 := by
    rw [hplace.onDiskHeader, hdisk]
    exact hx.header
  have harea : ¬ y.mem.log.Area 1 := (hplace.area 1).not.mpr hsb.not_area
  have hhome : ∀ j < y.mem.log.lh.n.toNat, 1 ≠ y.mem.log.lh.block j := fun j hj heq =>
    hone (LogHeader.mem_entries.mpr ⟨j, hj, heq.symm⟩)
  have hslot : ∀ j < y.mem.log.lh.n.toNat, (j : ℤ) + 1 < y.mem.log.size := fun j hj => by
    have hlt := hy.tx.inv.sound.lt_size
    omega
  -- the superblock and the header
  have hkept : d 1 = y.disk 1 ∧ y.mem.log.Spares 1 d := by
    cases hd with
    | slotsOnly h =>
        have hhead : y.mem.log.onDiskHeader d = y.mem.log.onDiskHeader y.disk := by
          rw [Log.onDiskHeader, Log.onDiskHeader]
          exact congrArg LogHeader.decode (h _ fun j hj =>
            (hy.tx.inv.onDisk.slot_ne_head (hslot j hj)).symm)
        refine ⟨h 1 fun j hj heq => harea ?_, .of_empty (by rw [hhead]; exact hempty) 1⟩
        rw [heq]
        exact hy.tx.inv.onDisk.area_slot (hslot j hj)
    | sealed h =>
        have hcount : (y.mem.log.onDiskHeader d).n = y.mem.log.lh.n := h.count
        refine ⟨h.rest 1 harea hhome, fun j hj heq => ?_⟩
        rw [hcount] at hj
        exact hhome j hj (heq.symm.trans (h.entries j hj))
    | cleared h => exact ⟨h.rest 1 harea hhome, .of_empty h.count 1⟩
  obtain ⟨hsame, hspares⟩ := hkept
  have hsuper : Superblock.decode (d 1) = sb := by
    rw [hsame, hdisk]
    exact hx.super
  have hspares' : (sb.log rootdev).Spares 1 d := by
    rw [Log.Spares, ← hplace.onDiskHeader]
    exact hspares
  have hback : y.toView.ending.mem.log.SameArea (sb.log rootdev) :=
    ⟨hplace.start.symm, hplace.size.symm⟩
  rcases CommitDisk.recoverable hinv hempty hd with hold | hnew
  · refine .inl ⟨hsuper, hspares', x.disk, ?_, hx.imageVolume⟩
    rw [← hdisk]
    exact hold.congr hback fun _ _ => rfl
  · refine .inr ⟨hsuper, hspares', y.store, hnew.congr hback fun _ _ => rfl, ?_⟩
    rw [← hysb]
    exact hy.intact.imageVolume

/-- Code that is checked on a session is checked on its view. -/
theorem Session.wp_view {Q : α → Session → Prop} (stays : (ℕ → Block) → Prop)
    (h : p.wp { sessionRules mode with crash := fun y => stays y.disk } Q x) :
    p.wp (cacheRules rootdev mode.strict mode.err stays) (fun a v => ∃ marks, Q a ⟨v, marks⟩)
      x.toView := by
  induction p generalizing x with
  | ret value => exact ⟨h.1, x.marks, h.2⟩
  | call o next ih =>
      obtain ⟨hcrash, ⟨hpre, -⟩, hnext⟩ := h
      refine ⟨hcrash, hpre, ?_⟩
      change onResult _ _ (session o x) at hnext
      change onResult _ _ (cache o x.toView)
      cases hstep : cache o x.toView with
      | error e =>
          rw [session, hstep] at hnext
          exact hnext
      | ok result =>
          rw [session, hstep] at hnext
          exact ih result.1 hnext

/-- `end_op` commits: on the way the disk stores the volume before the transaction or the one
after it. -/
theorem Session.Finishes.ends (hsb : sb.Mountable) (hx : x.Durable sb) (hy : x.Finishes err y)
    (hdisk : y.disk = x.disk) (hone : 1 ∉ y.mem.log.lh.entries) :
    endOp.wp (cacheRules rootdev True err' fun d => Stored sb x.volume d ∨ Stored sb y.volume d)
      (fun _ v => Session.Durable sb ⟨v, ∅⟩ ∧ y.Commits ⟨v, ∅⟩) y.toView := by
  have hysb : y.mem.sb = sb := hy.sb.trans hx.sb_eq
  have hplace : (sb.log rootdev).SameArea y.mem.log := hy.intact.place hysb hsb.fits
  have harea : ¬ y.mem.log.Area 1 := (hplace.area 1).not.mpr hsb.not_area
  have hempty : (y.mem.log.onDiskHeader y.disk).n = 0 := by
    rw [hplace.onDiskHeader, hdisk]
    exact hx.header
  have houtstanding : y.mem.log.outstanding = 1 := by
    have hsame : x.begin.mem.log.outstanding = x.mem.log.outstanding + 1 := rfl
    rw [hy.inside.outstanding, hsame, hx.outstanding]
    rfl
  have hfits : y.Fits 2 := by
    have htx : Tx (callMode err) 0 2 y := hy.tx
    have hmarks := htx.marks_le trivial
    refine (htx.fits trivial).less ?_
    change 2 ≤ 2 + 5 - y.marks.card
    have hmax : maxOpBlocks = 5 := rfl
    omega
  -- what the session is afterwards
  have hrest : endOp.wp (cacheRules rootdev True err' fun _ => True)
      (fun _ v => ∃ marks, Session.AtRest (Session.unmark ⟨v, marks⟩) ∧
        y.Commits (Session.unmark ⟨v, marks⟩)) y.toView := by
    have htx : Tx (callMode err') 0 2 y := hy.tx.accept
    have hend := hx.toAtRest.wp_end (a := ()) (Q := fun _ z => z.AtRest ∧ y.Commits z)
      hy.inside hy.intact hy.tree hy.files htx fun z hz hcommits => ⟨hz, hcommits⟩
    have hview := Session.wp_view (fun _ => True) hend
    have hlast : (endOp >>= fun _ => (pure () : Kern Unit)) = endOp := Prog.bind_ret endOp
    rw [hlast] at hview
    exact hview
  -- what the disk is on the way
  have hinv : LogInv rootdev ∅ y.toView.ending := hy.tx.inv.setLog ⟨⟨rfl, rfl⟩, rfl, rfl⟩
  have hstored (d : ℕ → Block) (hd : CommitDisk y.toView.ending d) :=
    hy.stored hsb hx hdisk hone hd
  have hbefore : Stored sb x.volume y.toView.ending.disk ∨
      Stored sb y.volume y.toView.ending.disk := by
    refine .inl ?_
    change Stored sb x.volume y.disk
    rw [hdisk]
    exact hx.stored hsb
  have hcommit : endOp.wp (cacheRules rootdev True err' fun d =>
      Stored sb x.volume d ∨ Stored sb y.volume d) (fun _ v => v.disk 1 = y.disk 1 ∧
        (y.mem.log.onDiskHeader v.disk).n = 0) y.toView := by
    refine endOp_wp hy.tx.unlocked hy.tx.idle hbefore (fun hmore => absurd houtstanding hmore)
      fun _ => ⟨?_, fun t _ ht => ⟨?_, ht.header hempty⟩⟩
    · exact hinv.commitReady (fun _ => hfits) hbefore (fun d hd => hstored d (.slotsOnly hd))
        (fun d hd => hstored d (.sealed hd)) fun d hd => hstored d (.cleared hd)
    · exact (ht.rest 1 harea fun j hj heq =>
        hone (LogHeader.mem_entries.mpr ⟨j, hj, heq.symm⟩)).1
  refine Prog.wp_mono (cache_wp_and hrest hcommit fun _ _ hd => hd) fun _ v _ hv => ?_
  obtain ⟨⟨marks, hz, hcommits⟩, hsuper, hheader⟩ := hv
  obtain ⟨log, hmem⟩ := hcommits.mem
  refine ⟨?_, hcommits⟩
  exact
    { toAtRest := hz
      sb_eq := by
        change v.mem.sb = sb
        rw [show v.mem = { y.mem with log := log } from hmem]
        exact hysb
      super := by
        change Superblock.decode (v.disk 1) = sb
        rw [hsuper, hdisk]
        exact hx.super
      header := by
        rw [← hplace.onDiskHeader]
        exact hheader }

/-- A transaction, whose code may fail as `err` says: every disk on the way stores the volume
before, or the one after if there is one. -/
theorem Session.Durable.survives_transaction {P Q : α → Session → Prop} (hsb : sb.Mountable)
    (hx : x.Durable sb) (hblind : p.Blind)
    (hbody : p.wp (sessionRules (callMode err)) (fun r y => x.Finishes err y ∧ P r y) x.begin)
    (hbody' : p.wp (sessionRules (callMode err')) (fun _ y => (x.relocate 1).Finishes err' y)
      (x.relocate 1).begin)
    (hold : ∀ d, Stored sb x.volume d → crash d)
    (hnew : ∀ r y z, P r y → y.Commits z → z.Durable sb →
      (transaction p).run cache x.toView = .ok (r, z.toView) →
      (∀ d, Stored sb z.volume d → crash d) ∧ Q r z) :
    (transaction p).wp (cacheRules rootdev True err crash) (fun r v => Q r ⟨v, ∅⟩) x.toView := by
  have hstart : crash x.disk := hold _ (hx.stored hsb)
  -- the transaction is opened
  have hbegin : beginOp.wp (cacheRules rootdev True err crash) (fun _ v => v = x.begin.toView)
      x.toView := beginOp_wp hx.unlocked hstart (fun hfull => absurd hx.admits hfull) fun _ => rfl
  have hblock : p.wp (cacheRules rootdev True err crash) (fun r v => ∃ marks,
      ((x.Finishes err ⟨v, marks⟩ ∧ P r ⟨v, marks⟩) ∧
        (x.relocate 1).Finishes err' (Session.relocate 1 ⟨v, marks⟩)) ∧ v.disk = x.disk)
      x.begin.toView := by
    have hswap : (x.relocate 1).begin = x.begin.relocate 1 := rfl
    rw [hswap] at hbody'
    have hboth := hblind.wp_both hbody hbody'
    have hview := Session.wp_view (fun d => d = x.disk) hboth
    exact Prog.wp_weaken hview rfl (fun _ _ hpre => hpre) (fun _ he => he) fun v hv => by
      have hdisk : v.disk = x.disk := hv
      change crash v.disk
      rw [hdisk]
      exact hstart
  rw [transaction, Prog.wp_bind]
  refine Prog.wp_mono (Prog.wp_run hbegin) fun _ v _ hv => ?_
  obtain ⟨rfl, hrunBegin⟩ := hv
  rw [Prog.wp_bind]
  refine Prog.wp_mono (Prog.wp_run hblock) fun r v _ hv => ?_
  obtain ⟨⟨marks, ⟨⟨hy, hP⟩, hy'⟩, hdisk⟩, hrunBody⟩ := hv
  have hsize : v.mem.log.size = 30 := hy.inside.area.size.trans hx.size
  have hone := hy'.superblock hsize
  -- it is committed
  obtain ⟨_, t, hrunEnd, hz, hcommits⟩ :=
    Prog.ok_of_sure (L := cacheRules rootdev True (fun _ => False) _) (hy.ends hsb hx hdisk hone)
      fun _ he => he
  have hrun : (transaction p).run cache x.toView = .ok (r, t) := by
    change beginOp.run cache x.toView = _ at hrunBegin
    change p.run cache _ = _ at hrunBody
    change endOp.run cache _ = _ at hrunEnd
    rw [transaction, Prog.run_bind, hrunBegin, onResult_ok, Prog.run_bind, hrunBody, onResult_ok,
      Prog.run_bind, hrunEnd]
    rfl
  obtain ⟨hstored, hQ⟩ := hnew r ⟨v, marks⟩ ⟨t, ∅⟩ hP hcommits hz hrun
  rw [Prog.wp_bind]
  have hend : endOp.wp (cacheRules rootdev True err crash)
      (fun _ w => Session.Durable sb ⟨w, ∅⟩ ∧ Session.Commits ⟨v, marks⟩ ⟨w, ∅⟩) v := by
    refine Prog.wp_weaken (hy.ends hsb hx hdisk hone) rfl (fun _ _ hpre => hpre) (fun _ he => he)
      fun w hw => ?_
    rcases hw with hw | hw
    · exact hold _ hw
    · rw [← hcommits.volume] at hw
      exact hstored _ hw
  refine Prog.wp_mono (Prog.wp_run hend) fun _ w hcrash hw => ?_
  have hsame : (Except.ok ((), w) : Except Stop (Unit × View)) = .ok ((), t) :=
    hw.2.symm.trans hrunEnd
  cases hsame
  exact ⟨hcrash, hQ⟩

end

end RiscvOs
