import RiscvOs.Fs.Standing
import RiscvOs.Mkfs.Neat

/-!
# Runs that remove no open file

`sys_unlink` frees the inode of a file whether or not it is open.  In a run that never removes
an open file, the file system stays without a stray name or block (`Volume.Kept`), however often
the power is cut: every file keeps its one name, every name leads to an inode, and a block is
marked as used only if a file holds it (`calm_kept`).

It follows that the only panics left in such a run are those for a full table or a full disk
(`calm_returns`): an inode without a type, a link count below 1, and a `close` outside of a
transaction do not occur.
-/

namespace RiscvOs

open Effect Bytes Kern Bio

/-! ## Opening finds something -/

section
variable {v : Volume} {n lo top i d : ℕ} {path : List UInt8} {name name' : Buffer dirsiz}
  {omode : OpenMode}

/-- A walk from an inode of some type ends at an inode of some type. -/
theorem Volume.resolve_typed {rounds j : ℕ} (htyped : v.Typed n)
    (hlt : ∀ i, (v.node i).type ≠ 0 → i < n) (hi : (v.node i).type ≠ 0)
    (h : v.resolve false rounds path name i = (some j, name')) : (v.node j).type ≠ 0 := by
  induction rounds generalizing path name i with
  | zero => cases h
  | succ rounds ih =>
      rw [Volume.resolve] at h
      split at h
      · split at h
        · cases h
        · rename_i htype
          split at h
          · rename_i hparent
            cases hparent.1
          · split at h
            · cases h
            · rename_i k hfind
              obtain ⟨hk, hlive, -⟩ := Volume.find_some hfind
              exact ih (htyped i (hlt i hi) (not_not.mp htype) k hk hlive) h
      · obtain ⟨hsome, -⟩ := Prod.mk.inj h
        rw [← Option.some.inj hsome]
        exact hi

/-- What `sys_open` opens has some type. -/
theorem Volume.opens_typed (htyped : v.Typed n) (hlt : ∀ i, (v.node i).type ≠ 0 → i < n)
    (hroot : (v.node rootino).type = tDir) (h : v.opens path name omode = .existing i) :
    (v.node i).type ≠ 0 := by
  have hrootTyped : (v.node rootino).type ≠ 0 := by
    rw [hroot]
    decide
  unfold Volume.opens at h
  split at h
  · split at h
    · cases h
    · rename_i d name'' hnamex
      split at h
      · cases h
      · rename_i k hfind
        have htype := Volume.resolve_parent hnamex
        have hd : d < n := hlt d (by rw [htype]; decide)
        obtain ⟨hk, hlive, -⟩ := Volume.find_some hfind
        split at h
        · cases h
        · rw [← OpenResult.existing.inj h]
          exact htyped d hd htype k hk hlive
  · split at h
    · cases h
    · rename_i j name'' hnamex
      split at h
      · cases h
      · rw [← OpenResult.existing.inj h]
        exact Volume.resolve_typed htyped hlt hrootTyped hnamex

/-- What `sys_unlink` finds is a live entry of a directory. -/
theorem Session.unlinks_live {x : Session} {a₀ : BitVec 64} {k : ℕ}
    (h : x.unlinks name a₀ = some (d, k)) : d < x.mem.sb.ninodes ∧
      (x.volume.node d).type = tDir ∧ k < x.volume.entries d ∧ (x.volume.entry d k).inum ≠ 0 := by
  unfold Session.unlinks at h
  split at h
  · cases h
  · unfold Volume.unlinkEntry at h
    split at h
    · cases h
    · rename_i d' name'' hnamex
      split at h
      · cases h
      · obtain ⟨k', hfind, hpair⟩ := Option.map_eq_some_iff.mp h
        obtain ⟨rfl, rfl⟩ := Prod.mk.inj hpair
        have htype := Volume.resolve_parent hnamex
        obtain ⟨hk, hlive, -⟩ := Volume.find_some hfind
        exact ⟨x.lt_of_type (by rw [htype]; decide), htype, hk, hlive⟩

end

/-! ## Sessions -/

/-- The volume has no stray name or block, and no open file has been removed. -/
structure Session.Neat (x : Session) : Prop where
  kept : x.volume.Kept x.mem.sb.ninodes x.mem.sb.datastart x.mem.sb.size
  typed : ∀ f, 0 < (x.mem.file f).ref → (x.volume.node (x.inumOf f)).type ≠ 0

/-- The call removes no open file. -/
def Session.SparesOpen (x : Session) (name : Buffer dirsiz) (call : Syscall) : Prop :=
  ∀ a₀ d k, call = .unlink a₀ → x.unlinks name a₀ = some (d, k) →
    ∀ f, 0 < (x.mem.file f).ref → x.inumOf f ≠ (x.volume.entry d k).inum

section
variable {sb : Superblock} {x y z : Session} {k : Machine} {call : Syscall} {r : ℤ}
  {name : Buffer dirsiz} {f : Fin nfile} {m : Mem}

theorem Session.AtRest.datastart_ne (hx : x.AtRest) : x.mem.sb.datastart ≠ 0 := by
  have hend := hx.intact.wf.bitmapEnd
  omega

/-- An open file stays on its inode. -/
theorem Session.Leaves.inumOf (h : x.Leaves y m) (hx : x.AtRest) (hf : 0 < (x.mem.file f).ref)
    (hip : (m.file f).ip = (x.mem.file f).ip) : y.inumOf f = x.inumOf f := by
  have hon := Mem.filesOn_pos (hx.files.on hf)
  have hkeep := h.keeps (x.mem.file f).ip (Nat.add_pos_left hon _)
  have hfile : y.mem.file f = m.file f := by
    obtain ⟨log, inode, hmem⟩ := h.mem
    rw [hmem]
  rw [Session.inumOf, hfile, hip]
  exact hkeep.1

/-- A call that leaves the files open that were open. -/
theorem Session.Leaves.neat (hleaves : x.Leaves y x.mem) (hx : x.AtRest)
    (hkept : y.volume.Kept x.mem.sb.ninodes x.mem.sb.datastart x.mem.sb.size)
    (htyped : ∀ f, 0 < (x.mem.file f).ref → (y.volume.node (x.inumOf f)).type ≠ 0) : y.Neat := by
  have hmem : y.mem.sb = x.mem.sb ∧ y.mem.file = x.mem.file := by
    obtain ⟨log, inode, hmem⟩ := hleaves.mem
    rw [hmem]
    exact ⟨rfl, rfl⟩
  refine ⟨by rw [hmem.1]; exact hkept, fun f hf => ?_⟩
  rw [hmem.2] at hf
  rw [hleaves.inumOf hx hf rfl]
  exact htyped f hf

theorem Session.Neat.typedVolume (hx : x.AtRest) (h : x.Neat) :
    x.volume.Typed x.mem.sb.ninodes := h.kept.typed hx.tree

/-- A new inode is an empty file. -/
theorem Session.Neat.fresh {i : ℕ} {din : Dinode} (hx : x.AtRest) (h : x.Neat)
    (hfree : (x.volume.node i).type = 0) (hfresh : x.Fresh i din) :
    din = { type := tFile, nlink := 1 } := by
  rcases hfresh with hnew | ⟨-, jp, hlocked⟩
  · exact hnew
  · -- a slot in use has a file open on it, which is of some type
    have hcounted := hx.intact.counted jp
    have hpos := hlocked.loaded.1
    have hon : 0 < x.mem.filesOn jp := by
      change (x.mem.inode jp).ref = ((x.mem.filesOn jp + 0 : ℕ) : ℤ) at hcounted
      omega
    obtain ⟨f, hf⟩ := Finset.card_pos.mp hon
    obtain ⟨-, href, -, hip⟩ := Finset.mem_filter.mp hf
    have htyped := h.typed f href
    rw [Session.inumOf, hip, hlocked.inum] at htyped
    exact absurd hfree htyped

/-- What opening leaves of the volume. -/
theorem Session.Neat.finds {result : OpenResult} {i : ℕ} (hx : x.AtRest)
    (hsmall : x.mem.sb.ninodes ≤ 2 ^ 16) (h : x.Neat) (hfinds : x.Finds y result i) :
    y.volume.Kept x.mem.sb.ninodes x.mem.sb.datastart x.mem.sb.size ∧
      (∀ j, (x.volume.node j).type ≠ 0 → (y.volume.node j).type ≠ 0) ∧
      ((∀ j, result = .existing j → (x.volume.node j).type ≠ 0) →
        (y.volume.node i).type ≠ 0) := by
  cases hfinds with
  | existing hvolume =>
      rw [hvolume]
      exact ⟨h.kept, fun _ hj => hj, fun hexisting => hexisting i rfl⟩
  | created hfresh hparent hlt hcreates =>
      obtain ⟨htype, hd⟩ := hparent
      have hdin := h.fresh hx hcreates.free hfresh
      have htyped : (tFile : BitVec 16) ≠ 0 := by decide
      refine ⟨h.kept.create hcreates hx.tree hx.datastart_ne hlt hsmall hd htype ?_,
        fun j hj => ?_, fun _ => ?_⟩
      · rw [hdin]
        exact htyped
      · have hji : j ≠ i := fun heq => hj (heq ▸ hcreates.free)
        rw [(hcreates.written.kept j).1, Volume.setNode_node_of_ne hji]
        exact hj
      · rw [(hcreates.written.kept i).1, Volume.setNode_node_same, hdin]
        exact htyped

theorem Session.Neat.opened {omode : OpenMode} {result : OpenResult} (hx : x.AtRest)
    (hsmall : x.mem.sb.ninodes ≤ 2 ^ 16) (h : x.Neat)
    (hexisting : ∀ j, result = .existing j → (x.volume.node j).type ≠ 0)
    (hopened : Opened x omode result r y) : y.Neat := by
  cases hopened with
  | failed hleaves hvolume =>
      refine hleaves.neat hx ?_ fun f hf => ?_
      · rw [hvolume]
        exact h.kept
      · rw [hvolume]
        exact h.typed f hf
  | starved hnone hleaves hfinds =>
      obtain ⟨hkept, htyped, -⟩ := h.finds hx hsmall hfinds
      exact hleaves.neat hx hkept fun f hf => htyped _ (h.typed f hf)
  | done hf hfd hleaves hinum hfinds =>
      rename_i i f fd ip
      obtain ⟨hkept, htyped, hnew⟩ := h.finds hx hsmall hfinds
      have hmem : y.mem.sb = x.mem.sb ∧
          y.mem.file = (x.mem.setFile f fun _ => .opened ip omode).file := by
        obtain ⟨log, inode, hmem⟩ := hleaves.mem
        rw [hmem]
        exact ⟨rfl, rfl⟩
      refine ⟨by rw [hmem.1]; exact hkept, fun f' hf' => ?_⟩
      rw [hmem.2] at hf'
      by_cases hff : f' = f
      · have hfile : y.mem.file f' = .opened ip omode := by
          rw [hmem.2, hff]
          exact Mem.setFile_same x.mem f fun _ => .opened ip omode
        have hopen : y.inumOf f' = i := by
          rw [Session.inumOf, hfile]
          exact hinum
        rw [hopen]
        exact hnew hexisting
      · rw [Mem.setFile_of_ne hff] at hf'
        have hip : ((x.mem.setFile f fun _ => .opened ip omode).file f').ip = (x.mem.file f').ip :=
          congrArg File.ip (Mem.setFile_of_ne hff fun _ => .opened ip omode)
        rw [hleaves.inumOf hx hf' hip]
        exact htyped _ (h.typed f' hf')

theorem Session.Neat.unlinked {found : Option (ℕ × ℕ)} (hx : x.AtRest) (h : x.Neat)
    (hspares : ∀ d k, found = some (d, k) →
      ∀ f, 0 < (x.mem.file f).ref → x.inumOf f ≠ (x.volume.entry d k).inum)
    (hunlinked : Unlinked x found r y) : y.Neat := by
  cases hunlinked with
  | failed hnone hleaves hvolume =>
      refine hleaves.neat hx ?_ fun f hf => ?_
      · rw [hvolume]
        exact h.kept
      · rw [hvolume]
        exact h.typed f hf
  | removed hleaves hparent hremoves =>
      obtain ⟨htype, hd⟩ := hparent
      refine hleaves.neat hx (h.kept.remove hremoves hx.tree hx.datastart_ne hd htype)
        fun f hf => ?_
      have hne := hspares _ _ rfl f hf
      obtain ⟨u, hwritten, -, hdrop⟩ := hremoves.removed
      rw [hdrop, Volume.dropLink_node_of_ne hne, (hwritten.kept _).1]
      exact h.typed f hf

theorem Session.Neat.closed {fd : Fin nofile} (h : x.Neat) (hclosed : Closed x y fd f) :
    y.Neat := by
  have hsb : y.mem.sb = x.mem.sb := by
    obtain ⟨inode, file, rfl⟩ := hclosed.same
    rfl
  refine ⟨by rw [hclosed.volume, hsb]; exact h.kept, fun f' hf' => ?_⟩
  have hsame : (y.mem.file f').ip = (x.mem.file f').ip ∧ 0 < (x.mem.file f').ref := by
    rw [hclosed.file] at hf' ⊢
    by_cases hff : f' = f
    · have hdropped := Mem.setFile_same x.mem f File.dropped
      rw [hff, hdropped] at hf' ⊢
      rw [File.dropped_ref] at hf'
      refine ⟨?_, by omega⟩
      unfold File.dropped
      split <;> rfl
    · rw [Mem.setFile_of_ne hff] at hf' ⊢
      exact ⟨rfl, hf'⟩
  have hinum : y.inumOf f' = x.inumOf f' := (hclosed.keeps f' hf').1
  rw [hinum, hclosed.volume]
  exact h.typed f' hsame.2

theorem Session.Neat.seek (hx : x.AtRest) (h : x.Neat) (off : ℕ) (user : UserBytes) :
    (x.seek f off user).Neat := by
  obtain ⟨-, hvolume⟩ := hx.intact.seek f off user
  refine ⟨by rw [hvolume]; exact h.kept, fun f' hf' => ?_⟩
  have hsame : ((x.seek f off user).mem.file f').ip = (x.mem.file f').ip ∧
      0 < (x.mem.file f').ref := by
    change 0 < ((x.mem.setFile f fun a => { a with off := off }).file f').ref at hf'
    change ((x.mem.setFile f fun a => { a with off := off }).file f').ip = _ ∧ _
    by_cases hff : f' = f
    · have hset := Mem.setFile_same x.mem f fun a => { a with off := off }
      rw [hff, hset] at hf' ⊢
      exact ⟨rfl, hf'⟩
    · rw [Mem.setFile_of_ne hff] at hf' ⊢
      exact ⟨rfl, hf'⟩
  have hinum : (x.seek f off user).inumOf f' = x.inumOf f' := by
    rw [Session.inumOf, hsame.1]
    rfl
  rw [hinum, hvolume]
  exact h.typed f' hsame.2

theorem Session.Neat.didWrite {src : List UInt8} {n total : ℕ} (hx : x.AtRest) (h : x.Neat)
    (hpos : 0 < (x.mem.file f).ref) (hdid : DidWrite x f src n total r y) : y.Neat := by
  cases hdid with
  | refused hno hr hleaves hvolume =>
      refine hleaves.neat hx ?_ fun f hf => ?_
      · rw [hvolume]
        exact h.kept
      · rw [hvolume]
        exact h.typed f hf
  | done hwritable hin hfit hr hleaves hwritten =>
      have hlt := (hx.files.locked hx.intact hpos).lt hx.intact.icache
      have hmem : y.mem.sb = x.mem.sb ∧ y.mem.file = (x.mem.setFile f fun a =>
          { a with off := (x.mem.file f).off + src.length }).file := by
        obtain ⟨log, inode, hmem⟩ := hleaves.mem
        rw [hmem]
        exact ⟨rfl, rfl⟩
      have hkept := h.kept.write hx.tree hx.datastart_ne hlt (hx.files.writable f hpos hwritable)
        (h.typed f hpos) hwritten
      refine ⟨by rw [hmem.1]; exact hkept, fun f' hf' => ?_⟩
      have hsame : ((x.mem.setFile f fun a =>
            { a with off := (x.mem.file f).off + src.length }).file f').ip = (x.mem.file f').ip ∧
          0 < (x.mem.file f').ref := by
        rw [hmem.2] at hf'
        by_cases hff : f' = f
        · have hset := Mem.setFile_same x.mem f fun a =>
            { a with off := (x.mem.file f).off + src.length }
          rw [hff, hset] at hf' ⊢
          exact ⟨rfl, hf'⟩
        · rw [Mem.setFile_of_ne hff] at hf' ⊢
          exact ⟨rfl, hf'⟩
      rw [hleaves.inumOf hx hsame.2 hsame.1, (hwritten.kept _).1]
      exact h.typed f' hsame.2

theorem Syscall.fdFile_of_write {a₀ a₁ a₂ : BitVec 64} {fd : Fin nofile}
    (h : (Syscall.write a₀ a₁ a₂).target m = some (fd, f)) :
    m.fdFile (argint a₀) = some (fd, f) := by
  unfold Syscall.target at h
  simp only at h
  split at h
  · cases h
  · exact h

/-- A call that removes no open file keeps the volume neat. -/
theorem Outcome.neat (hx : x.AtRest) (hsmall : x.mem.sb.ninodes ≤ 2 ^ 16) (h : x.Neat)
    (hspares : x.SparesOpen name call) (houtcome : Outcome x name call r y) : y.Neat := by
  cases houtcome with
  | opened hopened =>
      refine h.opened hx hsmall (fun j hexisting => ?_) hopened
      unfold Session.opens at hexisting
      split at hexisting
      · cases hexisting
      · exact Volume.opens_typed (h.typedVolume hx) (fun i hi => x.lt_of_type hi) hx.tree.root
          hexisting
  | unlinked hunlinked =>
      exact h.unlinked hx (fun d k hfound => hspares _ d k rfl hfound) hunlinked
  | idle hwalks htarget hr => exact h
  | closed htarget horphan hclosed => exact h.closed hclosed
  | read htarget hread =>
      cases hread with
      | refused hreadable => exact h
      | done hreadable hput => exact h.seek hx _ _
      | faulted hreadable hput hoff => exact h.seek hx _ _
  | written htarget hdid =>
      have hopen := Mem.fdFile_some (Syscall.fdFile_of_write htarget)
      have hpos := hx.files.pos_of_fd hopen
      exact h.didWrite hx (by omega) hdid

end

/-! ## Calm runs -/

/-- The call removes no file that is open on the machine. -/
def Bio.Machine.SparesOpen (sb : Superblock) (k : Machine) (c : UserCall) : Prop :=
  ∀ a₀ path d e, c.call = .unlink a₀ → (k.enter c).mem.copyinstr a₀ 128 = some path →
    (imageVolume sb k.disk).unlinkEntry path c.name = some (d, e) →
    ∀ f, 0 < (k.mem.file f).ref →
      (k.mem.inode (k.mem.file f).ip).inum ≠ ((imageVolume sb k.disk).entry d e).inum

/-- The event removes no open file. -/
def Power.Calm (sb : Superblock) : Power → PowerEvent → Prop
  | .on k, .call c => k.SparesOpen sb c
  | .on k, .cut c => k.SparesOpen sb c
  | _, _ => True

/-- A disk that stores a file system in order, without a stray name or block. -/
inductive Power.NeatInit (sb : Superblock) : Power → Prop
  | formatted {v : Volume} {d : ℕ → Block} (hstored : Stored sb v d) (htidy : v.Tidy sb)
      (hkept : v.Kept sb.ninodes sb.datastart sb.size) : NeatInit sb (.off d)

/-- All runs that remove no open file, with any number of power cuts. -/
def calmPowers (sb : Superblock) : System Power PowerEvent where
  init := Power.NeatInit sb
  step s e u := Power.Calm sb s e ∧ s.Step e u

/-- The invariant of calm runs. -/
def Power.Neat (sb : Superblock) : Power → Prop
  | .on k => ∃ x, Between sb x k ∧ x.Neat
  | .off d => ∃ v, v.Tidy sb ∧ v.Kept sb.ninodes sb.datastart sb.size ∧ Stored sb v d

section
variable {sb : Superblock} {x y : Session} {k k' t : Machine} {c : UserCall} {s u : Power}
  {e : PowerEvent} {r : ℤ}

theorem Session.Neat.enter (h : x.Neat) (c : UserCall) : (x.enter c).Neat := ⟨h.kept, h.typed⟩

theorem Between.sparesOpen (h : Between sb x k) (hspares : k.SparesOpen sb c) :
    (x.enter c).SparesOpen c.name c.call := by
  obtain ⟨order, hrefines⟩ := h.refines
  obtain ⟨order', hrefines'⟩ := (h.enter c).refines
  intro a₀ d e hcall hfound f hf
  unfold Session.unlinks at hfound
  split at hfound
  · cases hfound
  · rename_i path hpath
    rw [← hrefines'.mem] at hpath
    rw [Session.enter_volume, ← h.volume] at hfound ⊢
    have hopen : 0 < (k.mem.file f).ref := by
      rw [hrefines.mem]
      exact hf
    have hne := hspares a₀ path d e hcall hpath hfound f hopen
    rw [hrefines.mem] at hne
    exact hne

/-- A call on a neat machine. -/
theorem Between.call_neat (hsb : sb.Mountable) (hsmall : sb.ninodes ≤ 2 ^ 16)
    (h : Between sb x k) (hneat : x.Neat) (hspares : (x.enter c).SparesOpen c.name c.call)
    (hrun : c.prog.run machine (k.enter c) = .ok (r, k')) : ∃ y, Between sb y k' ∧ y.Neat := by
  obtain ⟨y, hy, houtcome⟩ := h.call hsb hrun
  refine ⟨y, hy, houtcome.neat (h.enter c).toAtRest ?_ (hneat.enter c) hspares⟩
  rw [(h.enter c).sb_eq]
  exact hsmall

/-- Only a call that removes a file has a first part that does. -/
theorem Session.SparesOpen.part {part call : Syscall} {name : Buffer dirsiz}
    (h : x.SparesOpen name call) (hpart : part.Upto call) : x.SparesOpen name part := by
  cases hpart with
  | refl => exact h
  | write hk =>
      intro a₀ d e hcall
      cases hcall

theorem Power.Neat.step (hsb : sb.Mountable) (hsmall : sb.ninodes ≤ 2 ^ 16) (h : s.Neat sb)
    (hcalm : Power.Calm sb s e) (hstep : s.Step e u) : u.Neat sb := by
  cases hstep with
  | call hrun =>
      obtain ⟨x, hx, hneat⟩ := h
      exact hx.call_neat hsb hsmall hneat (hx.sparesOpen hcalm) hrun
  | cut hvisit =>
      rename_i k t c
      obtain ⟨x, hx, hneat⟩ := h
      have hspares := hx.sparesOpen hcalm
      rcases hx.cut hsb hvisit with hold | ⟨part, r, w, hpart, hrun, hnew⟩
      · have hkept := hneat.kept
        rw [hx.sb_eq] at hkept
        exact ⟨_, (hx.enter c).toDurable.tidy, hkept, hold⟩
      · obtain ⟨k', hmachine, hk'⟩ := (hx.enter c).runs hsb hrun
        have hcall : ∃ y, Between sb y k' ∧ y.Neat :=
          hx.call_neat (c := { c with call := part }) hsb hsmall hneat (hspares.part hpart) hmachine
        obtain ⟨y, hy, hyneat⟩ := hcall
        have hkept := hyneat.kept
        rw [hy.sb_eq, ← hy.volume, hk'.volume] at hkept
        exact ⟨_, hk'.toDurable.tidy, hkept, hnew⟩
  | boot hrun =>
      obtain ⟨v, htidy, hkept, hstored⟩ := h
      obtain ⟨x, k, hmount, hrefines, hdurable, hvolume, hmem⟩ := hstored.mounts hsb htidy
      rw [hmount] at hrun
      obtain ⟨-, rfl⟩ := Prod.mk.inj (Except.ok.inj hrun)
      refine ⟨x, ⟨hdurable, hrefines⟩, ?_, fun f hf => ?_⟩
      · rw [hvolume, hdurable.sb_eq]
        exact hkept
      · have hclosed : ¬ 0 < ({} : File).ref := by decide
        rw [hmem] at hf
        exact absurd hf hclosed
  | cutBoot hcut =>
      obtain ⟨v, htidy, hkept, hstored⟩ := h
      obtain ⟨t, hvisit, rfl⟩ := hcut
      exact ⟨v, htidy, hkept, hstored.cut_mount hsb hvisit⟩

theorem Power.neat_of_reachable (hsb : sb.Mountable) (hsmall : sb.ninodes ≤ 2 ^ 16)
    (h : (calmPowers sb).Reachable s) : s.Neat sb := by
  refine h.invariant (fun s hinit => ?_) fun s e u hs hstep =>
    hs.step hsb hsmall hstep.1 hstep.2
  cases hinit with
  | formatted hstored htidy hkept => exact ⟨_, htidy, hkept, hstored⟩

end

/-! ## The images of `mkfs` -/

/-- A calm run starts from any image of `mkfs` with one directory that names each file once. -/
theorem mkfs_calm {calls : List Mkfs.Call} {img : Mkfs.Image} {es : List Dirent}
    (hallowed : Mkfs.Allowed {} calls) (hmake : Mkfs.make calls = .ok img)
    (hone : Mkfs.OneDir (Mkfs.Record.of calls) es) :
    (calmPowers Mkfs.layoutSb).Reachable (.off img.disk) := by
  obtain ⟨hstored, htidy⟩ :=
    mkfs_stored hallowed hmake hone.root hone.only hone.bytes hone.inums
  have hkept := hone.kept (Mkfs.made_of_make hallowed hmake).recorded
    (Mkfs.plain_of_make hallowed hmake) (Mkfs.held_of_make hallowed hmake)
  exact .init (.formatted hstored htidy hkept)

/-- The machine runs on the image of `main`. -/
theorem main_calm : ∃ k, (calmPowers Mkfs.layoutSb).Reachable (.on k) := by
  obtain ⟨img, hmake⟩ := Mkfs.make_main
  have hoff := mkfs_calm Mkfs.main_allowed hmake Mkfs.main_oneDir
  obtain ⟨v, htidy, -, hstored⟩ :=
    Power.neat_of_reachable layoutSb_mountable (by decide) hoff
  obtain ⟨x, k, hrun, -⟩ := hstored.mounts layoutSb_mountable htidy
  exact ⟨k, hoff.step ⟨trivial, .boot hrun⟩⟩

/-! ## What follows -/

section
variable {sb : Superblock} {x : Session} {k : Machine}

/-- In a calm run the volume on the disk never has a stray name or block. -/
theorem calm_kept (hsb : sb.Mountable) (hsmall : sb.ninodes ≤ 2 ^ 16)
    (h : (calmPowers sb).Reachable (.on k)) :
    (imageVolume sb k.disk).Kept sb.ninodes sb.datastart sb.size := by
  obtain ⟨x, hx, hneat⟩ := Power.neat_of_reachable hsb hsmall h
  rw [hx.volume, ← hx.sb_eq]
  exact hneat.kept

theorem calm_kept_main : ∃ k : Machine, (imageVolume Mkfs.layoutSb k.disk).Kept
    Mkfs.layoutSb.ninodes Mkfs.layoutSb.datastart Mkfs.layoutSb.size := by
  obtain ⟨k, hk⟩ := main_calm
  exact ⟨k, calm_kept layoutSb_mountable (by decide) hk⟩

/-- The panics for a full table or a full disk. -/
def Stop.Exhausts (e : Stop) : Prop :=
  e = .panic "iget: no inodes" ∨ e = .panic "ialloc: no inodes" ∨
    e = .panic "balloc: out of blocks" ∨ e = .panic "bmap: out of range"

/-- A neat session can only run out of something. -/
theorem Fault.exhausts {name : Buffer dirsiz} {call : Syscall} {e : Stop} (hx : x.AtRest)
    (h : x.Neat) (hfault : Fault x name call e) : e.Exhausts := by
  cases hfault with
  | slots hwalks hfew => exact .inl rfl
  | typed hwalks hfree => exact absurd (h.typedVolume hx) hfree
  | inodes hnew hnone => exact .inr (.inl rfl)
  | entryBlocks hnew hfull => exact .inr (.inr (.inl rfl))
  | entryRange hnew hlong => exact .inr (.inr (.inr rfl))
  | links hfound hfew =>
      rename_i a₀ d k
      have hentry := x.unlinks_live hfound
      obtain ⟨hd, htype, hk, hlive⟩ := hentry
      have hlt := hx.tree.inums d hd htype k hk
      obtain ⟨hone, -⟩ := h.kept.single _ hlt (h.typedVolume hx d hd htype k hk hlive)
      rw [hone] at hfew
      exact absurd hfew (by decide)
  | blocks htarget hwritable hin hfull => exact .inr (.inr (.inl rfl))
  | range htarget hwritable hin hlong => exact .inr (.inr (.inr rfl))
  | orphan htarget horphan =>
      rename_i a₀ fd f
      have hopen : x.mem.fdFile (argint a₀) = some (fd, f) := htarget
      have hpos := hx.files.pos_of_fd (Mem.fdFile_some hopen)
      have hlocked := hx.files.locked hx.intact (f := f) (by omega)
      have hlt := hlocked.lt hx.intact.icache
      obtain ⟨hone, -⟩ := h.kept.single _ hlt (h.typed f (by omega))
      have hzero := horphan.2.2
      rw [hlocked.node_eq hx.intact.icache] at hzero
      rw [hzero] at hone
      exact absurd hone (by decide)

/-- In a calm run every call returns and does what `Outcome` says, or something is full. -/
theorem calm_returns (hsb : sb.Mountable) (hsmall : sb.ninodes ≤ 2 ^ 16)
    (h : (calmPowers sb).Reachable (.on k)) (c : UserCall) :
    ∃ x, Between sb x (k.enter c) ∧
      ((∃ r k' y, c.prog.run machine (k.enter c) = .ok (r, k') ∧ Between sb y k' ∧
          Outcome x c.name c.call r y) ∨
        ∃ e, c.prog.run machine (k.enter c) = .error e ∧ Fault x c.name c.call e ∧ e.Exhausts) := by
  obtain ⟨x, hx, hneat⟩ := Power.neat_of_reachable hsb hsmall h
  refine ⟨x.enter c, hx.enter c, ?_⟩
  rcases hx.returns hsb c with hreturns | ⟨e, hrun, hfault⟩
  · exact .inl hreturns
  · exact .inr ⟨e, hrun, hfault, hfault.exhausts (hx.enter c).toAtRest (hneat.enter c)⟩

theorem calm_returns_main : ∃ (k : Machine) (x : Session),
    Between Mkfs.layoutSb x (k.enter makeX) ∧
      ((∃ r k' y, makeX.prog.run machine (k.enter makeX) = .ok (r, k') ∧
          Between Mkfs.layoutSb y k' ∧ Outcome x makeX.name makeX.call r y) ∨
        ∃ e, makeX.prog.run machine (k.enter makeX) = .error e ∧
          Fault x makeX.name makeX.call e ∧ e.Exhausts) := by
  obtain ⟨k, hk⟩ := main_calm
  exact ⟨k, calm_returns layoutSb_mountable (by decide) hk makeX⟩

end

end RiscvOs
