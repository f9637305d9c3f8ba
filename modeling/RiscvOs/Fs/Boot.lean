import RiscvOs.Fs.Inodes
import RiscvOs.Log.Crash

/-!
# Between two system calls

`Session.Resting` is what holds when no system call is going on: the log is empty, no
buffer is in use, and every inode in the cache is as it is on disk.  Mounting an image with
an empty log leads there (`resting_of_booted`); what the session stands for is what the
image says.
-/

namespace RiscvOs

open Effect Bytes Kern Bio

/-- No system call is going on. -/
structure Session.Resting (x : Session) : Prop where
  inv : LogInv rootdev ∅ x.toView
  unlocked : x.mem.log.lock = false
  idle : x.mem.log.committing = false
  outstanding : x.mem.log.outstanding = 0
  empty : x.mem.log.lh.n = 0
  refs : x.refs = fun _ => 0
  size : x.mem.log.size = 30
  intact : x.Intact ∅ 0

/-- Every buffer is free. -/
theorem Session.Resting.fits {x : Session} (h : x.Resting) {k : ℕ} (hk : k ≤ nbuf) : x.Fits k := by
  refine ⟨∅, by rw [Finset.card_empty, Nat.zero_add]; exact hk, fun b hb => ?_⟩
  rcases hb with hb | hb
  · rw [h.refs] at hb
    exact absurd hb (Nat.lt_irrefl 0)
  · have hmem := (h.inv.dirty b).mp hb
    rw [LogHeader.entries_of_empty h.empty] at hmem
    exact hmem

theorem Session.Intact.begin {x : Session} {stale : Set ℕ} {pins : Pins}
    (h : x.Intact stale pins) : x.begin.Intact stale pins where
  wf := h.wf.congr ⟨rfl, rfl⟩
  icache := ⟨h.icache.unique, h.icache.dev, h.icache.inum_lt, h.icache.nonneg⟩
  owned := h.owned
  synced := h.synced
  counted := h.counted

/-- The view right after `fsinit` of the image `d` with the superblock `sb`. -/
structure Booted (sb : Superblock) (d : ℕ → Block) (t : View) : Prop where
  mem : ∃ lh : LogHeader, lh.n = 0 ∧ t.mem = { log := { sb.log rootdev with lh := lh }, sb := sb }
  refs : t.refs = fun _ => 0
  dirty : ∀ b, t.dirty b = false
  clean : ∀ b, t.store b = t.disk b
  contents : ∀ b, ¬ (sb.log rootdev).Area b → t.disk b = d b

/-- An image with an empty log that fits. -/
structure EmptyLog (sb : Superblock) (d : ℕ → Block) : Prop where
  super : Superblock.decode (d 1) = sb
  magic : sb.magic = fsmagic
  fits : sb.LogFits
  empty : (LogHeader.decode (d sb.logstart)).n = 0

section
variable {sb : Superblock} {d : ℕ → Block} {strict : Prop} {err : Stop → Prop}

/-- An image with an empty log is what recovery makes of it. -/
theorem EmptyLog.recoverable (h : EmptyLog sb d) : (sb.log rootdev).Recoverable d d := by
  have hempty : ((sb.log rootdev).onDiskHeader d).n = 0 := by
    rw [Log.onDiskHeader, h.fits.head_eq]
    exact h.empty
  exact ⟨.of_empty h.fits.onDisk hempty, fun b _ => by rw [Log.recovered_of_empty hempty]⟩

/-- The view before the first block is read, with `m` in memory. -/
def freshView (m : Mem) (d : ℕ → Block) : View := ⟨m, d, d, fun _ => 0, fun _ => false⟩

theorem freshView_fits (m : Mem) (d : ℕ → Block) : (freshView m d).Fits 2 := by
  refine ⟨∅, by decide, fun b hb => ?_⟩
  rcases hb with hb | hb
  · exact absurd hb (Nat.lt_irrefl 0)
  · cases hb

theorem readsb_fresh {crash : (ℕ → Block) → Prop} (m : Mem) (hcrash : crash d) :
    (readsb rootdev).wp (cacheRules rootdev strict err crash)
      (fun _ t => t = freshView { m with sb := Superblock.decode (d 1) } d) (freshView m d) := by
  rw [readsb, wp_bread]
  refine ⟨hcrash, ⟨rfl, by decide, fun _ => ((freshView_fits m d).less (by decide : 1 ≤ 2)).room 1⟩,
    ?_⟩
  rw [wp_data]
  refine ⟨hcrash, ⟨rfl, by simp⟩, ?_⟩
  rw [wp_modify, wp_brelse_last]
  refine ⟨hcrash, hcrash, ⟨⟨rfl, by simp⟩, fun _ => .inr rfl⟩, ?_⟩
  refine View.ext' rfl rfl rfl (funext fun b => ?_) rfl
  simp [View.release, View.hold, View.withMem, freshView]

/-- `fsinit` of an image with an empty log. -/
theorem fsinit_booted (h : EmptyLog sb d) :
    (fsinit rootdev).wp (cacheRules rootdev strict err fun _ => True)
      (fun _ t => Booted sb d t) (freshView {} d) := by
  rw [fsinit, Prog.wp_bind]
  refine Prog.wp_mono (readsb_fresh {} trivial) fun _ t _ ht => ?_
  subst ht
  rw [h.super, wp_get]
  refine ⟨trivial, ?_⟩
  have hmagic : ¬ (freshView { sb := sb } d).mem.sb.magic ≠ fsmagic := not_not.mpr h.magic
  rw [if_neg hmagic, initLog, bind_assoc, wp_modifyLog]
  refine ⟨trivial, ?_⟩
  rw [Prog.wp_bind]
  have hready : RecoverReady rootdev strict (fun _ => True) d
      ((freshView { sb := sb } d).setLog fun log => { log with
        start := i32 sb.logstart, size := i32 sb.nlog, dev := rootdev, lock := false }) :=
    { dev := rfl
      onDisk := h.fits.onDisk
      clean := fun _ => rfl
      room := fun _ => freshView_fits _ d
      recoverable := h.recoverable
      crash := fun _ _ => trivial }
  refine Prog.wp_mono (recover_wp hready) fun _ t _ ht => wp_modify_last.mpr ⟨trivial, ?_⟩
  obtain ⟨lh, hlh, hmem⟩ := ht.mem
  refine ⟨⟨lh, hlh, ?_⟩, ht.refs, fun b => ht.dirty b rfl, ht.clean, ht.contents⟩
  change { t.mem with inode := fun i => { t.mem.inode i with ref := 0, valid := false } } = _
  rw [hmem]
  rfl

/-- `fsinit` of an image with an empty log returns. -/
theorem fsinit_runs (h : EmptyLog sb d) : ∃ k x order,
    (fsinit rootdev).run machine (bootMachine d) = .ok ((), k) ∧
      Refines rootdev order x k ∧ Booted sb d x := by
  rcases (simulation rootdev True (fun _ => False) _).run (fsinit_booted h)
      ⟨_, Refines.binit rootdev (bootMachine d) {} rfl⟩ with
    ⟨e, -, herr | ⟨t, -, hextra, -⟩⟩ | ⟨_, x, k, -, hrun, ⟨order, hrefines⟩, hbooted⟩
  · exact herr.elim
  · exact absurd trivial hextra
  · exact ⟨k, x, order, hrun, hrefines, hbooted⟩

/-- What the image `d` says. -/
def imageVolume (sb : Superblock) (d : ℕ → Block) : Volume where
  node i := if i < sb.ninodes then Dinode.decode (d (sb.iblock i)) (i % ipb) else {}
  used := bitmapBit (d (sb.bblock 0))
  block b := if sb.IsData b then d b else Buffer.zero

/-- A mounted image is at rest, and stands for what it says. -/
theorem resting_of_booted {t : View} (h : EmptyLog sb d) (ht : Booted sb d t)
    (hwf : sb.WellFormed (sb.log rootdev)) (hnlog : sb.nlog = 30)
    (howned : (imageVolume sb d).Owned sb.ninodes sb.datastart sb.size) :
    Session.Resting ⟨t, ∅⟩ ∧ Session.volume ⟨t, ∅⟩ = imageVolume sb d := by
  obtain ⟨lh, hlh, hmem⟩ := ht.mem
  have hsb : t.mem.sb = sb := by rw [hmem]
  have hlog : t.mem.log = { sb.log rootdev with lh := lh } := by rw [hmem]
  have hinode : ∀ ip, t.mem.inode ip = {} := fun ip => by rw [hmem]
  have hfree : ∀ ip, ¬ 0 < (t.mem.inode ip).ref := fun ip => by rw [hinode]; decide
  have hentries : t.mem.log.lh.entries = ∅ := by
    rw [hlog]
    exact LogHeader.entries_of_empty hlh
  have hstore : ∀ b, ¬ (sb.log rootdev).Area b → t.store b = d b := fun b hb =>
    (ht.clean b).trans (ht.contents b hb)
  have hnone : ∀ i ip, (t.mem.inode ip).Loaded → (t.mem.inode ip).inum ≠ i := fun _ ip hip =>
    absurd hip.1 (hfree ip)
  have hnode : ∀ i, Session.node ⟨t, ∅⟩ i = (imageVolume sb d).node i := fun i => by
    by_cases hi : i < sb.ninodes
    · have hi' : i < (⟨t, ∅⟩ : Session).mem.sb.ninodes := by
        change i < t.mem.sb.ninodes
        rw [hsb]
        exact hi
      have hblock := hstore _ (hwf.iblock_ok hi).2
      rw [Session.node_disk hi' (hnone i)]
      change Dinode.decode (t.store (t.mem.sb.iblock i)) (i % ipb) =
        if i < sb.ninodes then Dinode.decode (d (sb.iblock i)) (i % ipb) else {}
      rw [if_pos hi, hsb, hblock]
    · rw [Session.node_of_le (by change t.mem.sb.ninodes ≤ i; rw [hsb]; exact not_lt.mp hi)]
      exact (if_neg hi).symm
  have hvolume : Session.volume ⟨t, ∅⟩ = imageVolume sb d := by
    refine Session.volume_ext hnode ?_ (funext fun b => ?_)
    · have hblock := hstore _ hwf.bitmap_ok.2
      change bitmapBit (t.store (t.mem.sb.bblock 0)) = bitmapBit (d (sb.bblock 0))
      rw [hsb, hblock]
    · change (if t.mem.sb.IsData b then t.store b else Buffer.zero) =
        if sb.IsData b then d b else Buffer.zero
      rw [hsb]
      by_cases hb : sb.IsData b
      · rw [if_pos hb, if_pos hb, hstore b (hwf.data_ok hb).2]
      · rw [if_neg hb, if_neg hb]
  have hsame : (sb.log rootdev).SameArea t.mem.log := by
    rw [hlog]
    exact ⟨rfl, rfl⟩
  have hondisk : t.mem.log.OnDisk := h.fits.onDisk.congr hsame
  refine ⟨?_, hvolume⟩
  exact
    { inv :=
        { dev := by rw [hlog]; rfl
          onDisk := hondisk
          sound := .of_empty hondisk (by rw [hlog]; exact hlh)
          dirty := fun b => by
            change t.dirty b = true ↔ b ∈ t.mem.log.lh.entries
            rw [ht.dirty, hentries]
            simp
          clean := fun b _ _ => ht.clean b
          held := fun b hb => absurd hb (Set.notMem_empty b)
          outside := fun b hb => absurd hb (Set.notMem_empty b) }
      unlocked := by change t.mem.log.lock = false; rw [hlog]; rfl
      idle := by change t.mem.log.committing = false; rw [hlog]; rfl
      outstanding := by change t.mem.log.outstanding = 0; rw [hlog]; rfl
      empty := by change t.mem.log.lh.n = 0; rw [hlog]; exact hlh
      refs := ht.refs
      size := by
        change t.mem.log.size = 30
        rw [hlog]
        change i32 sb.nlog = 30
        rw [hnlog]
        exact i32_eq_self (by decide) (by decide)
      intact :=
        { wf := by
            change t.mem.sb.WellFormed t.mem.log
            rw [hsb]
            exact hwf.congr hsame
          icache :=
            { unique := fun ip _ hip => absurd hip (hfree ip)
              dev := fun ip hip => absurd hip (hfree ip)
              inum_lt := fun ip hip => absurd hip (hfree ip)
              nonneg := fun ip => by
                change 0 ≤ (t.mem.inode ip).ref
                rw [hinode] }
          owned := by
            rw [hvolume]
            change (imageVolume sb d).Owned t.mem.sb.ninodes t.mem.sb.datastart t.mem.sb.size
            rw [hsb]
            exact howned
          synced := fun i hi _ => (Session.node_disk hi (hnone i)).symm
          counted := fun ip => by
            have hnofile : Mem.filesOn (⟨t, ∅⟩ : Session).mem ip = 0 := by
              change Mem.filesOn t.mem ip = 0
              rw [hmem]
              simp [Mem.filesOn]
            change (t.mem.inode ip).ref = _
            rw [hinode, hnofile]
            rfl } }

end

end RiscvOs
