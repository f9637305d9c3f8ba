import RiscvOs.Lib.Relabel
import RiscvOs.Fs.Rest

/-!
# What is stored on a disk

`Stored` says of a disk which volume a boot finds there: the superblock in block 1 and, once
what is in the log has been installed, the volume.  A machine at rest has its own volume
stored on its disk (`Session.Durable`), and a boot of any disk with a tidy volume leads back
there (`mount_wp`).  Until the boot is over the disk stores the same volume, so that it does no
harm to cut it short.

The superblock is read before the log is installed, so it must not be in the log; this is
the field `spares`.
-/

namespace RiscvOs

open Effect Bytes Kern Bio

/-- A superblock whose log and areas lie on the disk, none of them in block 1. -/
structure Superblock.Mountable (sb : Superblock) : Prop where
  magic : sb.magic = fsmagic
  fits : sb.LogFits
  nlog : sb.nlog = 30
  wf : sb.WellFormed (sb.log rootdev)
  low : 1 < sb.logstart

/-- A boot of the disk finds the volume. -/
structure Stored (sb : Superblock) (v : Volume) (d : ℕ → Block) : Prop where
  super : Superblock.decode (d 1) = sb
  spares : (sb.log rootdev).Spares 1 d
  holds : ∃ target, (sb.log rootdev).Recoverable target d ∧ imageVolume sb target = v

/-- The volume of a file system in order. -/
structure Volume.Tidy (sb : Superblock) (v : Volume) : Prop where
  owned : v.Owned sb.ninodes sb.datastart sb.size
  tree : v.Tree sb.ninodes

/-- The session is at rest, and its volume is stored on its disk. -/
structure Session.Durable (sb : Superblock) (x : Session) : Prop extends x.AtRest where
  sb_eq : x.mem.sb = sb
  super : Superblock.decode (x.disk 1) = sb
  header : ((sb.log rootdev).onDiskHeader x.disk).n = 0

/-! ## Mounting -/

/-- `fileinit` -/
def fileinit : Kern Unit :=
  modify fun m => { m with file := fun f => { m.file f with ref := 0, type := .none } }

/-- What `kmain` does between `binit` and `user_init`. -/
def mount : Kern Unit := do
  fsinit rootdev
  fileinit

/-- Two statements about the same code. -/
theorem cache_wp_and {α : Type} {dev : ℕ} {strict : Prop} {err : Stop → Prop}
    {crash crash' crash'' : (ℕ → Block) → Prop} {p : Kern α} {Q Q' : α → View → Prop} {s : View}
    (hp : p.wp (cacheRules dev strict err crash) Q s)
    (hp' : p.wp (cacheRules dev strict err crash') Q' s)
    (hcrash : ∀ d, crash d → crash' d → crash'' d) :
    p.wp (cacheRules dev strict err crash'') (fun a t => Q a t ∧ Q' a t) s :=
  have hsame : (cacheRules dev strict err crash').handle = (cacheRules dev strict err crash).handle :=
    rfl
  Prog.wp_weaken (Prog.wp_and hsame hp hp') rfl (fun _ _ hpre => hpre) (fun _ he => he)
    fun t ht => hcrash t.disk ht.1 ht.2

section
variable {sb : Superblock} {v : Volume} {d d' target : ℕ → Block} {x y : Session} {pins : Pins}

theorem Superblock.Mountable.not_area (h : sb.Mountable) : ¬ (sb.log rootdev).Area 1 := by
  have hlow := h.low
  rw [h.fits.area, Superblock.InLog]
  omega

/-! ## The volume of a disk -/

/-- The volume of an image does not depend on the log. -/
theorem imageVolume_congr (hwf : sb.WellFormed (sb.log rootdev))
    (h : ∀ b, ¬ (sb.log rootdev).Area b → d b = d' b) : imageVolume sb d = imageVolume sb d' := by
  have hnode (i : ℕ) : (imageVolume sb d).node i = (imageVolume sb d').node i := by
    change (if i < sb.ninodes then Dinode.decode (d (sb.iblock i)) (i % ipb) else {}) =
      if i < sb.ninodes then Dinode.decode (d' (sb.iblock i)) (i % ipb) else {}
    by_cases hi : i < sb.ninodes
    · rw [if_pos hi, if_pos hi, h _ (hwf.iblock_ok hi).2]
    · rw [if_neg hi, if_neg hi]
  have hblock (b : ℕ) : (imageVolume sb d).block b = (imageVolume sb d').block b := by
    change (if sb.IsData b then d b else Buffer.zero) = if sb.IsData b then d' b else Buffer.zero
    by_cases hb : sb.IsData b
    · rw [if_pos hb, if_pos hb, h b (hwf.data_ok hb).2]
    · rw [if_neg hb, if_neg hb]
  have hused : (imageVolume sb d).used = (imageVolume sb d').used := by
    change bitmapBit (d (sb.bblock 0)) = bitmapBit (d' (sb.bblock 0))
    rw [h _ hwf.bitmap_ok.2]
  exact Session.volume_ext hnode hused (funext hblock)

/-- Once every inode has been written back, a session stands for what its blocks say. -/
theorem Session.Intact.imageVolume (h : x.Intact ∅ pins) :
    imageVolume x.mem.sb x.store = x.volume := by
  refine Session.volume_ext (fun i => ?_) rfl rfl
  change (if i < x.mem.sb.ninodes then x.diskNode i else {}) = x.node i
  by_cases hi : i < x.mem.sb.ninodes
  · rw [if_pos hi, h.synced i hi (Set.notMem_empty i)]
  · rw [if_neg hi, Session.node_of_le (not_lt.mp hi)]

theorem Session.Intact.place (h : x.Intact ∅ pins) (hsb : x.mem.sb = sb) (hfits : sb.LogFits) :
    (sb.log rootdev).SameArea x.mem.log := by
  have hstart := h.wf.start
  have hlength := h.wf.length
  rw [hsb] at hstart hlength
  exact ⟨hstart.trans hfits.start_eq.symm, hlength.trans hfits.size_eq.symm⟩

/-- Between two calls the cache holds what is on disk. -/
theorem Session.Resting.store_eq (h : x.Resting) (b : ℕ) : x.store b = x.disk b := by
  refine h.inv.clean b ?_ (Set.notMem_empty b)
  rw [LogHeader.entries_of_empty h.empty]
  exact Finset.notMem_empty b

/-- What a session at rest stands for can be read off its disk. -/
theorem Session.Resting.imageVolume (h : x.Resting) : imageVolume x.mem.sb x.disk = x.volume := by
  have hsame : x.store = x.disk := funext h.store_eq
  rw [← hsame]
  exact h.intact.imageVolume

theorem Session.AtRest.tidy (h : x.AtRest) : x.volume.Tidy x.mem.sb := ⟨h.intact.owned, h.tree⟩

theorem Session.Durable.tidy (h : x.Durable sb) : x.volume.Tidy sb := by
  rw [← h.sb_eq]
  exact h.toAtRest.tidy

theorem Session.Durable.imageVolume (h : x.Durable sb) : imageVolume sb x.disk = x.volume := by
  rw [← h.sb_eq]
  exact h.toResting.imageVolume

theorem Session.Durable.stored (h : x.Durable sb) (hsb : sb.Mountable) :
    Stored sb x.volume x.disk where
  super := h.super
  spares := .of_empty h.header 1
  holds := ⟨x.disk, .of_empty hsb.fits.onDisk h.header fun _ _ => rfl, h.imageVolume⟩

/-! ## Booting -/

/-- What `mount` leaves behind. -/
structure Rebooted (sb : Superblock) (v : Volume) (t : View) : Prop where
  emptyLog : EmptyLog sb t.disk
  booted : Booted sb t.disk t
  volume : imageVolume sb t.disk = v

/-- Every disk that recovery passes through stores the same volume. -/
theorem Stored.of_recoverable (h : Stored sb v d) (htarget : imageVolume sb target = v)
    (hrecoverable : (sb.log rootdev).Recoverable target d') (hsame : d' 1 = d 1)
    (hspares : (sb.log rootdev).Spares 1 d') : Stored sb v d' :=
  ⟨by rw [hsame]; exact h.super, hspares, target, hrecoverable, htarget⟩

/-- A boot finds the volume that is stored on the disk, which stays stored there. -/
theorem mount_wp {strict : Prop} {err : Stop → Prop} (hsb : sb.Mountable) (h : Stored sb v d) :
    mount.wp (cacheRules rootdev strict err (Stored sb v)) (fun _ t => Rebooted sb v t)
      (freshView {} d) := by
  obtain ⟨target, hrecoverable, htarget⟩ := h.holds
  rw [mount, fsinit, bind_assoc, Prog.wp_bind]
  refine Prog.wp_mono (readsb_fresh {} h) fun _ t _ ht => ?_
  subst ht
  rw [h.super, bind_assoc, wp_get]
  refine ⟨h, ?_⟩
  have hmagic : ¬ (freshView { sb := sb } d).mem.sb.magic ≠ fsmagic := not_not.mpr hsb.magic
  rw [if_neg hmagic, initLog, bind_assoc, bind_assoc, wp_modifyLog]
  refine ⟨h, ?_⟩
  rw [Prog.wp_bind]
  have hready : RecoverReady rootdev strict ((sb.log rootdev).Recoverable target) target
      ((freshView { sb := sb } d).setLog fun log => { log with
        start := i32 sb.logstart, size := i32 sb.nlog, dev := rootdev, lock := false }) :=
    { dev := rfl
      onDisk := hsb.fits.onDisk
      clean := fun _ => rfl
      room := fun _ => freshView_fits _ d
      recoverable := hrecoverable
      crash := fun _ hd => hd }
  refine Prog.wp_mono (cache_wp_and (recover_wp hready)
    (recover_spares { hready with crash := fun _ _ => trivial } hsb.not_area h.spares)
    fun d' hd' hsame => h.of_recoverable htarget hd' hsame.1 hsame.2) fun _ t hcrash ht => ?_
  obtain ⟨ht, -⟩ := ht
  rw [wp_modify]
  refine ⟨hcrash, wp_modify_last.mpr ⟨hcrash, ?_⟩⟩
  obtain ⟨lh, hlh, hmem⟩ := ht.mem
  refine ⟨⟨?_, hsb.magic, hsb.fits, ?_⟩, ⟨⟨lh, hlh, ?_⟩, ht.refs, fun b => ht.dirty b rfl, ht.clean,
    fun _ _ => rfl⟩, ?_⟩
  · exact hcrash.super
  · have hempty := ht.empty
    change ((sb.log rootdev).onDiskHeader t.disk).n = 0 at hempty
    rw [Log.onDiskHeader, hsb.fits.head_eq] at hempty
    exact hempty
  · change { t.mem with
      inode := fun i => { t.mem.inode i with ref := 0, valid := false }
      file := fun f => { t.mem.file f with ref := 0, type := .none } } = _
    rw [hmem]
    rfl
  · rw [← htarget]
    exact imageVolume_congr hsb.wf ht.contents

/-- A mounted disk whose volume is tidy is at rest. -/
theorem Rebooted.durable {t : View} (h : Rebooted sb v t) (hsb : sb.Mountable) (hv : v.Tidy sb) :
    Session.Durable sb ⟨t, ∅⟩ ∧ Session.volume ⟨t, ∅⟩ = v := by
  obtain ⟨hresting, hvolume⟩ := resting_of_booted h.emptyLog h.booted hsb.wf hsb.nlog
    (by rw [h.volume]; exact hv.owned)
  obtain ⟨lh, -, hmem⟩ := h.booted.mem
  have hsbmem : t.mem.sb = sb := by rw [hmem]
  rw [h.volume] at hvolume
  have hfile (f : Fin nfile) : t.mem.file f = {} := by rw [hmem]
  have hclosed (f : Fin nfile) : ¬ 0 < (t.mem.file f).ref := by
    rw [hfile]
    decide
  have hofile (p : Fin nproc) (fd : Fin nofile) : t.mem.ofile p fd = none := by rw [hmem]
  have hfiles : Session.Files ⟨t, ∅⟩ := by
    refine ⟨fun f => ?_, fun f => ?_, fun f => ?_, fun p fd f hf => ?_,
      fun f hf => absurd hf (hclosed f), fun f hf => absurd hf (hclosed f)⟩
    · change (t.mem.file f).ref = (t.mem.fdsOn f : ℕ)
      simp [Mem.fdsOn, hofile, hfile]
    · change (t.mem.file f).type = if (t.mem.file f).ref = 0 then .none else .inode
      rw [hfile]
      rfl
    · change (t.mem.file f).off < 2 ^ 32
      rw [hfile]
      decide
    · rw [show t.mem.ofile p fd = none from hofile p fd] at hf
      cases hf
  refine ⟨?_, hvolume⟩
  exact
    { toResting := hresting
      tree := by
        rw [hvolume]
        change v.Tree t.mem.sb.ninodes
        rw [hsbmem]
        exact hv.tree
      files := hfiles
      marks := rfl
      sb_eq := hsbmem
      super := h.emptyLog.super
      header := by
        rw [Log.onDiskHeader, hsb.fits.head_eq]
        exact h.emptyLog.empty }

/-- `mount` completes on every disk with a tidy volume, and nothing is open then. -/
theorem Stored.mounts (hsb : sb.Mountable) (h : Stored sb v d) (hv : v.Tidy sb) :
    ∃ x k, mount.run machine (bootMachine d) = .ok ((), k) ∧
      (∃ order, Refines rootdev order x.toView k) ∧ Session.Durable sb x ∧ x.volume = v ∧
      x.mem = { log := x.mem.log, sb := sb } := by
  rcases (simulation rootdev True (fun _ => False) _).run (mount_wp hsb h)
      ⟨_, Refines.binit rootdev (bootMachine d) {} rfl⟩ with
    ⟨e, -, herr | ⟨t, -, hextra, -⟩⟩ | ⟨_, t, k, -, hrun, hrefines, hrebooted⟩
  · exact herr.elim
  · exact absurd trivial hextra
  · obtain ⟨hdurable, hvolume⟩ := hrebooted.durable hsb hv
    obtain ⟨lh, -, hmem⟩ := hrebooted.booted.mem
    refine ⟨⟨t, ∅⟩, k, hrun, hrefines, hdurable, hvolume, ?_⟩
    change t.mem = { log := t.mem.log, sb := sb }
    rw [hmem]

/-- A power cut during `mount` loses nothing. -/
theorem Stored.cut_mount {k : Machine} (hsb : sb.Mountable) (h : Stored sb v d)
    (hvisit : Prog.Visits machine mount (bootMachine d) k) : Stored sb v k.disk := by
  obtain ⟨t, -, ⟨order, hrefines⟩, hcrash⟩ :=
    (simulation rootdev False (fun _ => True) _).visits (mount_wp hsb h)
      ⟨_, Refines.binit rootdev (bootMachine d) {} rfl⟩ hvisit
  rw [hrefines.disk]
  exact hcrash

end

end RiscvOs
