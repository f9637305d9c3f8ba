import RiscvOs.Fs.Files

/-!
# Opening a file

`Volume.opens` says what `sys_open` finds at a path: an inode to open, a directory to make a
file in, or nothing.  The code between `begin_op` and `end_op` opens that inode, or makes the
file and opens it (`wp_openBody`); when there is no free file or descriptor, a file it has made
stays.
-/

namespace RiscvOs

open Effect Bytes Kern OnSession

/-! ## What there is to open -/

/-- What `sys_open` finds. -/
inductive OpenResult
  | fail
  | existing (i : ℕ)
  | create (d : ℕ) (name : Buffer dirsiz)

namespace Volume

/-- The walk of `namex` from the root. -/
def namex (v : Volume) (nameiparent : Bool) (path : List UInt8) (name : Buffer dirsiz) :
    Option ℕ × Buffer dirsiz := v.resolve nameiparent (path.length + 1) path name rootino

/-- What `sys_open` finds at a path. -/
def opens (v : Volume) (path : List UInt8) (name : Buffer dirsiz) (omode : OpenMode) :
    OpenResult :=
  if omode.create then
    match v.namex true path name with
    | (none, _) => .fail
    | (some d, name) =>
        match v.find d name with
        | none => .create d name
        | some k =>
            if (v.node (v.entry d k).inum).type = tDir ∧
                (omode.rdwr = true ∨ omode.wronly = true) then .fail
            else .existing (v.entry d k).inum
  else
    match v.namex false path name with
    | (none, _) => .fail
    | (some i, _) =>
        if (v.node i).type = tDir ∧ omode.word ≠ 0 then .fail else .existing i

end Volume

/-! ## Making a file -/

/-- Which failures of making a file in directory `d` are accepted. -/
structure AcceptsNew (mode : Mode) (x : Session) (d : ℕ) : Prop where
  inodes : (∀ j, 1 ≤ j → j < x.mem.sb.ninodes → (x.volume.node j).type ≠ 0) →
    mode.err (.panic "ialloc: no inodes")
  blocks : x.volume.free x.mem.sb.size <
      x.volume.missing d (Volume.slotsIn (16 * x.volume.freeEntry d) 16) →
    mode.err (.panic "balloc: out of blocks")
  range : maxfile * bsize < 16 * x.volume.freeEntry d + 16 → mode.err (.panic "bmap: out of range")

/-- The inode `din` that `ialloc` and `sys_open` make of inode `i`: an empty file, unless the
inode cache still holds the inode. -/
def Session.Fresh (x : Session) (i : ℕ) (din : Dinode) : Prop :=
  din = { type := tFile, nlink := 1 } ∨
    din = { x.volume.node i with nlink := 1 } ∧ ∃ jp, x.Locked jp i

/-- A file has been made in directory `d`, and is locked. -/
structure MadeNew (x y : Session) (d : ℕ) (name : Buffer dirsiz) (ip : Fin ninode) (i : ℕ) :
    Prop where
  intact : y.Intact ∅ (pin ip)
  frame : Frame 0 x y
  locked : y.Locked ip i
  created : ∃ din, x.Fresh i din ∧
    Volume.Creates x.volume y.volume x.mem.sb.ninodes d name i din

namespace OnSession

section
variable {mode : Mode} {α : Type} {Q : α → Session → Prop} {spare spare' holds : ℕ} {x y : Session}
  {stale : Set ℕ} {pins : Pins} {ip dp : Fin ninode} {i d : ℕ} {name : Buffer dirsiz}

/-- An inode is changed and stored. -/
theorem wp_store {din : Dinode} {g : Inode → Inode} {f : Unit → Kern α}
    (hx : x.Intact stale pins) (hip : x.Locked ip i)
    (hg : g (x.mem.inode ip) = { x.mem.inode ip with din := din })
    (haddrs : din.addrs = (x.volume.node i).addrs) (htx : Tx mode spare (holds + 1) x)
    (hspare : x.mem.sb.iblock i ∉ x.marks → spare' + 1 ≤ spare) (hle : spare' ≤ spare)
    (h : ∀ y, y.Intact (stale \ {i}) pins → Frame pins x y →
      y.volume = x.volume.setNode i din → y.Locked ip i → Tx mode spare' (holds + 1) y →
      x.mem.sb.iblock i ∈ y.marks → (f ()).wp (sessionRules mode) Q y) :
    (modifyInode ip g >>= fun _ => iupdate ip >>= f).wp (sessionRules mode) Q x := by
  have hedit := hx.toSettled.edit hip hg
  rw [wp_modifyInode]
  refine wp_iupdate (hedit.intact (hx.owned.setNode haddrs)) hedit.locked (hedit.tx htx) ?_ hle
    fun y hy hframe hvolume hlocked htx' hmark => ?_
  · rw [hedit.marks, hedit.frame.sb]
    exact hspare
  · refine h y (hy.more_stale ?_) (hedit.frame.trans hframe) (hvolume.trans hedit.volume) hlocked
      htx' ?_
    · rintro j ⟨hj, hne⟩
      exact ⟨hj.resolve_left hne, hne⟩
    · rw [hedit.frame.sb] at hmark
      exact hmark

/-- A directory entry holds the low 16 bits of an inode number. -/
theorem dirlink_mod (dp : Fin ninode) (name : Buffer dirsiz) (inum : ℕ) :
    dirlink dp name inum = dirlink dp name (inum % 2 ^ 16) := by
  unfold dirlink
  simp only [Nat.mod_mod]

/-- `sys_open` from the point where `ialloc` has returned the inode. -/
theorem wp_openNew_linked {f : Option (Fin ninode) → Kern α} (hy : y.Intact {i} (pin dp + pin ip))
    (hinum : (y.mem.inode ip).inum = i)
    (hvalid : (y.mem.inode ip).valid = false → (y.volume.node i).type ≠ 0)
    (hdp : y.Locked dp d) (htx : Tx mode (spare + 3) (holds + 2) y)
    (hmark : y.mem.sb.iblock i ∈ y.marks) (hne : d ≠ i) (hdir : y.volume.IsDir d)
    (hlinked : (y.volume.node d).nlink ≠ 0) (hnone : y.volume.find d name = none)
    (hblocks : y.volume.free y.mem.sb.size <
        y.volume.missing d (Volume.slotsIn (16 * y.volume.freeEntry d) 16) →
      mode.err (.panic "balloc: out of blocks"))
    (hrange : maxfile * bsize < 16 * y.volume.freeEntry d + 16 →
      mode.err (.panic "bmap: out of range"))
    (h : ∀ z u, u = y.volume.setNode i { y.volume.node i with nlink := 1 } →
      Volume.WrittenTo u z.volume y.mem.sb.ninodes d (16 * y.volume.freeEntry d)
        (Dirent.encode ⟨i % 2 ^ 16, name⟩) →
      Volume.DirWritten u z.volume y.mem.sb.ninodes d (y.volume.freeEntry d)
        ⟨i % 2 ^ 16, name⟩ →
      z.Intact ∅ (pin ip) → Frame 0 y z → z.Locked ip i → Tx mode spare (holds + 2) z →
      (f (some ip)).wp (sessionRules mode) Q z) :
    (ilock ip >>= fun _ => modifyInode ip (fun i => { i with din := { i.din with nlink := 1 } }) >>=
      fun _ => iupdate ip >>= fun _ => getInode ip >>= fun j => dirlink dp name j.inum >>= fun r =>
        (if r < 0 then do
          iunlockput ip
          iunlockput dp
          return none
        else do
          iunlockput dp
          return some ip) >>= f).wp (sessionRules mode) Q y := by
  have hpin : 0 < y.mem.filesOn ip + (pin dp + pin ip) ip := by
    rw [Pi.add_apply, pin_same]
    omega
  have hpin' : 0 < y.mem.filesOn dp + (pin dp + pin ip) dp := by
    rw [Pi.add_apply, pin_same]
    omega
  have hsub : (pin ip : Pins) ≤ pin dp + pin ip := fun jp => Nat.le_add_left _ _
  have hzero : (0 : Pins) ≤ pin ip := fun jp => Nat.zero_le _
  refine wp_ilock hy htx.calm hpin hinum (fun hfalse htype => absurd htype (hvalid hfalse))
    fun z hz hlooks hlocked _ => ?_
  have htx₁ := hlooks.tx htx
  have hdp₁ := hdp.keep hz hlooks.keeps hlooks.frame.file hpin'
  have hg : (fun i : Inode => { i with din := { i.din with nlink := 1 } }) (z.mem.inode ip) =
      { z.mem.inode ip with din := { z.volume.node i with nlink := 1 } } := by
    rw [← hlocked.node_eq hz.icache]
  refine wp_store hz hlocked hg rfl htx₁ (fun hnot => absurd ?_ hnot) le_rfl
    fun w hw hframe hvolume hlocked' htx₂ _ => ?_
  · rw [hlooks.frame.sb, hlooks.marks]
    exact hmark
  have hclean : ({i} : Set ℕ) \ {i} = ∅ := Set.sdiff_self
  rw [hclean] at hw
  have hframe₁ : Frame (pin dp + pin ip) y w := hlooks.frame.trans hframe
  have hdp₂ := hdp.keep hw hframe₁.keeps hframe₁.file hpin'
  rw [hlooks.volume] at hvolume
  -- the directory is still as it was
  have hsame := Volume.sameDir_setNode hne y.volume { y.volume.node i with nlink := 1 }
  have hslot (k : ℕ) : w.volume.slot d k = y.volume.slot d k := by
    rw [hvolume]
    exact Volume.slot_setNode_of_ne hne k
  have hentry : w.volume.freeEntry d = y.volume.freeEntry d := by
    rw [hvolume]
    exact hsame.freeEntry hdir
  have hfree : w.volume.free w.mem.sb.size = y.volume.free y.mem.sb.size := by
    rw [hvolume, hframe₁.sb]
    rfl
  have hmissing (K : Finset ℕ) : w.volume.missing d K = y.volume.missing d K := by
    unfold Volume.missing
    simp only [hslot]
  rw [wp_getInode, hlocked'.inum, dirlink_mod]
  refine wp_dirlink hw hdp₂ htx₂ (by rw [hvolume]; exact hsame.isDir hdir)
    (Nat.mod_lt _ (Nat.two_pow_pos 16)) (by rw [hvolume, hsame.find hdir]; exact hnone) ?_ ?_
    fun s hs hframe₂ hwritten hto hdp₃ htx₃ => ?_
  · rw [hfree, hentry, hmissing]
    exact hblocks
  · rw [hentry]
    exact hrange
  rw [if_neg (by decide : ¬ (0 : ℤ) < 0), bind_assoc]
  have hframe₃ : Frame (pin dp + pin ip) y s := hframe₁.trans hframe₂
  have hpin₂ : 0 < w.mem.filesOn ip + (pin dp + pin ip) ip := by
    rw [Pi.add_apply, pin_same]
    omega
  have hlocked₂ := hlocked'.keep hs hframe₂.keeps hframe₂.file hpin₂
  have hkept := hto.kept d
  have hnode : (w.volume.node d).nlink = (y.volume.node d).nlink := by
    rw [hvolume, Volume.setNode_node_of_ne hne]
  have hs' : s.Intact ∅ (pin ip + pin dp) := by rwa [add_comm]
  refine wp_iunlockput hs' (Set.notMem_empty _) (fun _ _ => ?_) fun t ht hlooks₂ => ?_
  · rw [hdp₃.inum, hkept.2, hnode]
    exact hlinked
  · have hpin₃ : 0 < s.mem.filesOn ip + pin ip ip := by
      rw [pin_same]
      omega
    have hlocked₃ := hlocked₂.keep ht hlooks₂.keeps hlooks₂.frame.file hpin₃
    rw [hentry, hvolume, hframe₁.sb] at hto
    rw [hentry, hvolume, hframe₁.sb] at hwritten
    rw [← hlooks₂.volume] at hto hwritten
    exact h t _ rfl hto hwritten ht ((hframe₃.less fun _ => Nat.zero_le _).trans
      (hlooks₂.frame.less hzero)) hlocked₃ (hlooks₂.tx htx₃)

/-- `sys_open` in a locked directory without the name. -/
theorem wp_openNew {f : Option (Fin ninode) → Kern α} (hx : x.Intact ∅ (pin dp))
    (hdir : x.volume.IsDir d) (hlinked : (x.volume.node d).nlink ≠ 0)
    (hsizes : ∀ i < x.mem.sb.ninodes, (x.volume.node i).size.toNat ≤ maxfile * bsize)
    (hdp : x.Locked dp d) (htx : Tx mode (spare + 4) (holds + 2) x)
    (hnone : x.volume.find d name = none) (haccepts : AcceptsNew mode x d)
    (hslots : x.mem.emptySlot = none → mode.err (.panic "iget: no inodes"))
    (h : ∀ y ip i, MadeNew x y d name ip i → Tx mode spare (holds + 2) y →
      (f (some ip)).wp (sessionRules mode) Q y) :
    (openNew dp name >>= f).wp (sessionRules mode) Q x := by
  have htype := hdir.type
  have hpin : 0 < x.mem.filesOn dp + pin dp dp := by
    rw [pin_same]
    omega
  simp only [openNew, bind_assoc]
  rw [wp_getInode, hdp.dev hx.icache]
  refine wp_ialloc hx htx haccepts.inodes hslots
    fun i ip y hpos hfree hleast hinum halloc hlooks hy htx' => ?_
  have hne : d ≠ i := by
    intro heq
    rw [← heq, htype] at hfree
    exact absurd hfree (by decide)
  have hmore : (pin dp : Pins) ≤ pin dp + pin ip := fun jp => Nat.le_add_right _ _
  have hframe : Frame (pin dp) x y := halloc.frame.trans hlooks.frame
  have hmark : y.mem.sb.iblock i ∈ y.marks := by
    rw [hframe.sb]
    exact hlooks.frame.marks halloc.marks
  -- what the volume says of the new inode, and what is read of it
  have hcases : y.Intact {i} (pin dp + pin ip) ∧
      ((y.mem.inode ip).valid = false → (y.volume.node i).type ≠ 0) ∧
      (∀ j, j ≠ i → y.volume.node j = x.volume.node j) ∧
      ∃ din, x.Fresh i din ∧ (din.type ≠ tDir ∧ din.nlink = 1 ∧
        din.size.toNat ≤ maxfile * bsize) ∧
        y.volume.setNode i { y.volume.node i with nlink := 1 } = x.volume.setNode i din := by
    rcases hy with ⟨hvolume, hy⟩ | ⟨hvolume, hy, jp, hjp⟩
    · refine ⟨hy.more_stale (Set.empty_subset _), fun _ => ?_, fun j hj => ?_,
        { type := tFile, nlink := 1 }, .inl rfl, ⟨by decide, rfl, by decide⟩, ?_⟩
      · rw [hvolume, Volume.setNode_node_same]
        decide
      · rw [hvolume, Volume.setNode_node_of_ne hj]
      · rw [hvolume, Volume.setNode_node_same]
        unfold Volume.setNode
        rw [Function.update_idem]
    · have hpinj : 0 < x.mem.filesOn jp + pin dp jp := hx.ref_pos_iff.mp hjp.loaded.1
      have hjp' := hjp.keep_le hy hmore hframe.keeps hframe.file hpinj
      have hposip : 0 < (y.mem.inode ip).ref := hy.ref_pos (by
        rw [Pi.add_apply, pin_same]
        omega)
      have hsame : ip = jp := hy.icache.unique ip jp hposip hjp'.loaded.1
        (hinum.trans hjp'.inum.symm)
      refine ⟨hy, fun hfalse => ?_, fun j _ => by rw [hvolume],
        { x.volume.node i with nlink := 1 }, .inr ⟨rfl, jp, hjp⟩, ⟨?_, rfl, ?_⟩, by rw [hvolume]⟩
      · rw [hsame, hjp'.loaded.2] at hfalse
        exact absurd hfalse (by decide)
      · rw [hfree]
        decide
      · exact hsizes i (hjp.lt hx.icache)
  obtain ⟨hy', hvalid, hother, din, hfresh, hfile, hset⟩ := hcases
  have hdp' := hdp.keep_le hy' hmore hframe.keeps hframe.file hpin
  have hslot (k : ℕ) : y.volume.slot d k = x.volume.slot d k := by
    have hblock : y.volume.block = x.volume.block := by
      have hblocks := congrArg Volume.block hset
      exact hblocks
    exact Volume.slot_congr y.volume (congrArg Dinode.addrs (hother d hne))
      (fun _ => congrFun hblock _) k
  have hsame : Volume.SameDir x.volume y.volume d := by
    refine ⟨by rw [hother d hne]; exact ⟨rfl, rfl⟩, fun p _ => Volume.byte_congr hslot ?_⟩
    have hblocks := congrArg Volume.block hset
    exact hblocks
  have hfreeEntry := hsame.freeEntry hdir
  have hfreeBlocks : y.volume.free y.mem.sb.size = x.volume.free x.mem.sb.size := by
    have hused : y.volume.used = x.volume.used := by
      have hbits := congrArg Volume.used hset
      exact hbits
    unfold Volume.free
    rw [hused, hframe.sb]
  have hmissing (K : Finset ℕ) : y.volume.missing d K = x.volume.missing d K := by
    unfold Volume.missing
    simp only [hslot]
  refine wp_openNew_linked hy' hinum hvalid hdp' htx' hmark hne (hsame.isDir hdir)
    ?_ (by rw [hsame.find hdir]; exact hnone) ?_ ?_ fun z u hu hwritten hdirWritten hz hframe'
    hlocked htx'' => ?_
  · rw [hother d hne]
    exact hlinked
  · rw [hfreeBlocks, hmissing, hfreeEntry]
    exact haccepts.blocks
  · rw [hfreeEntry]
    exact haccepts.range
  · rw [hu, hset, hfreeEntry, hframe.sb] at hwritten hdirWritten
    refine h z ip i ⟨hz, (hframe.less fun _ => Nat.zero_le _).trans hframe', hlocked, din, hfresh,
      ⟨hpos, hfree, hleast, hfile, hnone, hwritten, hdirWritten⟩⟩ htx''

end

end OnSession

/-! ## Finding the inode -/

/-- Which failures of `sys_open` are accepted. -/
structure AcceptsOpen (mode : Mode) (x : Session) (result : OpenResult) : Prop
    extends Accepts mode x where
  new : ∀ d name, result = .create d name → AcceptsNew mode x d

theorem AcceptsNew.congr {mode : Mode} {x y : Session} {d : ℕ} (h : AcceptsNew mode x d)
    (hlooks : Looks 0 x y) : AcceptsNew mode y d := by
  have hsb := hlooks.frame.sb
  refine ⟨?_, ?_, ?_⟩
  · rw [hlooks.volume, hsb]
    exact h.inodes
  · rw [hlooks.volume, hsb]
    exact h.blocks
  · rw [hlooks.volume]
    exact h.range

theorem MadeNew.of_looks {x y z : Session} {d i : ℕ} {name : Buffer dirsiz} {ip : Fin ninode}
    (h : MadeNew z y d name ip i) (hlooks : Looks 0 x z) : MadeNew x y d name ip i := by
  obtain ⟨din, hfresh, hcreates⟩ := h.created
  rw [hlooks.volume, hlooks.frame.sb] at hcreates
  refine ⟨h.intact, hlooks.frame.trans h.frame, h.locked, din, ?_, hcreates⟩
  rcases hfresh with hnew | ⟨hold, jp, hjp⟩
  · exact .inl hnew
  · refine .inr ⟨by rw [hold, hlooks.volume], jp, ?_⟩
    rcases hlooks.loaded jp hjp.loaded with ⟨hloaded, hinum⟩ | htype
    · exact ⟨hloaded, hinum.symm.trans hjp.inum⟩
    · rw [hjp.inum] at htype
      exact absurd hcreates.free htype

/-- A directory is opened for reading only. -/
theorem Volume.opens_dir {v : Volume} {path : List UInt8} {name : Buffer dirsiz}
    {omode : OpenMode} {i : ℕ} (h : v.opens path name omode = .existing i)
    (hwrite : (omode.wronly || omode.rdwr) = true) : (v.node i).type ≠ tDir := by
  intro hdir
  rw [Bool.or_eq_true] at hwrite
  unfold Volume.opens at h
  split at h
  · split at h
    · exact nomatch h
    · split at h
      · exact nomatch h
      · split at h
        · exact nomatch h
        · rename_i hnot
          obtain rfl := OpenResult.existing.inj h
          exact hnot ⟨hdir, hwrite.symm⟩
  · split at h
    · exact nomatch h
    · split at h
      · exact nomatch h
      · rename_i hnot
        obtain rfl := OpenResult.existing.inj h
        refine hnot ⟨hdir, fun hzero => ?_⟩
        have hnone : omode.wronly = false ∧ omode.rdwr = false := by
          rw [OpenMode.wronly, OpenMode.rdwr, hzero]
          decide
        rcases hwrite with hwrite | hwrite
        · rw [hnone.1] at hwrite
          exact absurd hwrite (by decide)
        · rw [hnone.2] at hwrite
          exact absurd hwrite (by decide)

namespace OnSession

section
variable {mode : Mode} {α : Type} {Q : α → Session → Prop} {spare holds : ℕ} {x : Session}
  {path : List UInt8} {name : Buffer dirsiz} {omode : OpenMode}

/-- The walk of `namex`, whatever references the code at hand has. -/
theorem wp_namex_walked {base : Pins} {nameiparent : Bool}
    {f : Option (Fin ninode) × Buffer dirsiz → Kern α} (hx : x.Walks base)
    (haccepts : Accepts mode x) (hcalm : Calm mode (holds + 1) x)
    (hnone : ∀ z name', z.Intact ∅ base → Looks base x z →
      x.volume.namex nameiparent path name = (none, name') →
      (f (none, name')).wp (sessionRules mode) Q z)
    (hsome : ∀ z jp j name', z.Intact ∅ (base + pin jp) → Looks base x z →
      (z.mem.inode jp).inum = j → x.volume.namex nameiparent path name = (some j, name') →
      (nameiparent = true → z.Locked jp j ∧ (x.volume.node j).type = tDir) →
      x.volume.Named x.mem.sb.ninodes j → (f (some jp, name')).wp (sessionRules mode) Q z) :
    (namex path nameiparent name >>= f).wp (sessionRules mode) Q x := by
  rw [namex, bind_assoc]
  refine wp_iget hx.intact hx.intact.wf.root (fun _ hempty => ?_) fun ip y hy hlooks hinum => ?_
  · have hfull := Session.Intact.freeSlots_eq hempty
    exact haccepts.slots (by omega)
  · rw [Prog.wp_bind]
    exact wp_namexLoop hx haccepts hy hlooks hinum hcalm (Nat.lt_succ_self _) (.inl rfl) hnone hsome

theorem wp_namex {nameiparent : Bool} {f : Option (Fin ninode) × Buffer dirsiz → Kern α}
    (hx : x.Ordered) (haccepts : Accepts mode x) (hcalm : Calm mode (holds + 1) x)
    (hnone : ∀ z name', z.Intact ∅ 0 → Looks 0 x z →
      x.volume.namex nameiparent path name = (none, name') →
      (f (none, name')).wp (sessionRules mode) Q z)
    (hsome : ∀ z jp j name', z.Intact ∅ (pin jp) → Looks 0 x z → (z.mem.inode jp).inum = j →
      x.volume.namex nameiparent path name = (some j, name') →
      (nameiparent = true → z.Locked jp j ∧ (x.volume.node j).type = tDir) →
      ((x.volume.node j).type = 0 → ¬ x.volume.Typed x.mem.sb.ninodes) →
      (f (some jp, name')).wp (sessionRules mode) Q z) :
    (namex path nameiparent name >>= f).wp (sessionRules mode) Q x := by
  refine wp_namex_walked hx.walks haccepts hcalm hnone
    fun z jp j name' hz hlooks hinum hwalk hparent hnamed => ?_
  rw [zero_add] at hz
  exact hsome z jp j name' hz hlooks hinum hwalk hparent
    (hx.tree.walkable.not_typed hnamed)

/-- The branch of `sys_open` with `O_CREATE`. -/
theorem wp_openCreate {f : Option (Fin ninode) → Kern α} (hx : x.Walks 0)
    (hsizes : ∀ i < x.mem.sb.ninodes, (x.volume.node i).size.toNat ≤ maxfile * bsize)
    (hcreate : omode.create = true)
    (haccepts : AcceptsOpen mode x (x.volume.opens path name omode))
    (htx : Tx mode (spare + 4) (holds + 2) x)
    (hfail : x.volume.opens path name omode = .fail → ∀ z, z.Intact ∅ 0 → Looks 0 x z →
      (f none).wp (sessionRules mode) Q z)
    (hexisting : ∀ i, x.volume.opens path name omode = .existing i → ∀ z ip,
      z.Intact ∅ (pin ip) → Looks 0 x z → z.Locked ip i → x.volume.Named x.mem.sb.ninodes i →
      (f (some ip)).wp (sessionRules mode) Q z)
    (hnew : ∀ d name', x.volume.opens path name omode = .create d name' → ∀ y ip i,
      MadeNew x y d name' ip i → Tx mode spare (holds + 2) y →
      (f (some ip)).wp (sessionRules mode) Q y) :
    (openCreate path name omode >>= f).wp (sessionRules mode) Q x := by
  have hcalm : Calm mode (holds + 1 + 1) x := htx.calm
  unfold Volume.opens at haccepts hfail hexisting hnew
  rw [if_pos hcreate] at haccepts hfail hexisting hnew
  rw [openCreate, nameiparent, bind_assoc]
  refine wp_namex_walked hx haccepts.toAccepts hcalm (fun z name' hz hlooks hwalk => ?_)
    fun z dp d name' hz hlooks hinum hwalk hparent hnamed => ?_
  · rw [hwalk] at hfail
    rw [pure_bind]
    exact hfail rfl z hz hlooks
  rw [hwalk] at haccepts hfail hexisting hnew
  simp only at haccepts hfail hexisting hnew
  obtain ⟨hlocked, htype⟩ := hparent rfl
  have hpin : 0 < z.mem.filesOn dp + pin dp dp := by
    rw [pin_same]
    omega
  rw [zero_add] at hz
  simp only [bind_assoc]
  refine wp_ilock hz (hlooks.calm hcalm) hpin hinum (fun hfalse => ?_)
    fun y hy hlooks₁ hlocked₁ _ => ?_
  · rw [hlocked.loaded.2] at hfalse
    exact absurd hfalse (by decide)
  have hlooks' : Looks 0 x y := hlooks.trans (hlooks₁.less fun _ => Nat.zero_le _)
  have hvolume := hlooks'.volume
  have hsb := hlooks'.frame.sb
  have hlt : d < x.mem.sb.ninodes := by
    have hlt := hlocked₁.lt hy.icache
    rwa [hsb] at hlt
  have hisDir := hx.walkable.dirs d hlt htype
  have hempty (hnone : y.mem.emptySlot = none) : mode.err (.panic "iget: no inodes") := by
    have hfree := hlooks'.freeSlots_le hx.intact (by rwa [zero_add]) hnone
    exact haccepts.slots (by omega)
  refine wp_dirlookup hy hlocked₁ (hlooks'.calm hcalm) (by rwa [hvolume])
    (by rw [hvolume, hsb]; exact hx.walkable.inums d hlt htype) (fun _ _ _ => hempty)
    (fun hfind => ?_) fun k ip u hfind hu hlooks₂ hip => ?_
  · -- there is no such name
    rw [hvolume] at hfind
    rw [hfind] at haccepts hnew
    refine wp_openNew hy (by rwa [hvolume]) ?_ (by rwa [hvolume, hsb]) hlocked₁
      (hlooks'.tx htx) (by rwa [hvolume]) ((haccepts.new d name' rfl).congr hlooks') hempty
      fun w ip i hw htx' => ?_
    · rw [hvolume]
      exact hx.walkable.linked d hlt hnamed (by rw [htype]; decide)
    · exact hnew d name' rfl w ip i (hw.of_looks hlooks') htx'
  · rw [hvolume] at hfind hip
    rw [hfind] at hfail hexisting
    simp only at hfail hexisting
    obtain ⟨hk, hlive, -⟩ := Volume.find_some hfind
    have hswap : u.Intact ∅ (pin ip + pin dp) := by rwa [add_comm]
    have hlooks₃ : Looks 0 x u := hlooks'.trans (hlooks₂.less fun _ => Nat.zero_le _)
    simp only [bind_assoc]
    have hheld : 0 < y.mem.filesOn dp + pin dp dp := by
      rw [pin_same]
      omega
    have hsame : (u.mem.inode dp).inum = d := (hlooks₂.keeps dp hheld).1.trans hlocked₁.inum
    have hlisted : x.volume.Named x.mem.sb.ninodes (x.volume.entry d k).inum :=
      .inr ⟨d, hlt, htype, k, hk, hlive, rfl⟩
    refine wp_iunlockput_walked hx hlooks₃ (fun _ => Nat.zero_le _) hswap hsame hnamed
      fun w hw hlooks₄ hgiven => ?_
    have hpin' : 0 < u.mem.filesOn ip + pin ip ip := by
      rw [pin_same]
      omega
    have hpin'' : 0 < w.mem.filesOn ip + pin ip ip := by
      rw [pin_same]
      omega
    have hkept : (w.mem.inode ip).inum = (x.volume.entry d k).inum :=
      (hgiven.keeps ip hpin').1.trans hip
    refine wp_ilock hw (hlooks₄.calm hcalm) hpin'' hkept (fun _ hzero => ?_)
      fun t ht hlooks₅ hlocked₂ _ => ?_
    · rw [hlooks₄.volume] at hzero
      exact haccepts.typed fun htyped => htyped d hlt htype k hk hlive hzero
    have hlooks₆ : Looks 0 x t := hlooks₄.trans (hlooks₅.less fun _ => Nat.zero_le _)
    have hplus : t.Intact ∅ (0 + pin ip) := by rwa [zero_add]
    rw [wp_getInode, hlocked₂.node_eq ht.icache, hlooks₆.volume]
    by_cases hdir : (x.volume.node (x.volume.entry d k).inum).type = tDir ∧
        (omode.rdwr = true ∨ omode.wronly = true)
    · rw [if_pos hdir, bind_assoc]
      rw [if_pos hdir] at hfail
      refine wp_iunlockput_walked hx hlooks₆ le_rfl hplus hlocked₂.inum hlisted
        fun s hs hlooks₇ _ => ?_
      exact hfail rfl s hs hlooks₇
    · rw [if_neg hdir, pure_bind]
      rw [if_neg hdir] at hexisting
      exact hexisting _ rfl t ip ht hlooks₆ hlocked₂ hlisted

/-- The branch of `sys_open` without `O_CREATE`. -/
theorem wp_openExisting {f : Option (Fin ninode) → Kern α} (hx : x.Walks 0)
    (hcreate : omode.create = false) (haccepts : Accepts mode x) (hcalm : Calm mode (holds + 1) x)
    (hfail : x.volume.opens path name omode = .fail → ∀ z, z.Intact ∅ 0 → Looks 0 x z →
      (f none).wp (sessionRules mode) Q z)
    (hexisting : ∀ i, x.volume.opens path name omode = .existing i → ∀ z ip,
      z.Intact ∅ (pin ip) → Looks 0 x z → z.Locked ip i → x.volume.Named x.mem.sb.ninodes i →
      (f (some ip)).wp (sessionRules mode) Q z) :
    (openExisting path name omode >>= f).wp (sessionRules mode) Q x := by
  unfold Volume.opens at hfail hexisting
  rw [hcreate] at hfail hexisting
  simp only [Bool.false_eq_true, if_false] at hfail hexisting
  rw [openExisting, namei]
  simp only [bind_assoc, pure_bind]
  refine wp_namex_walked hx haccepts hcalm (fun z name' hz hlooks hwalk => ?_)
    fun z ip i name' hz hlooks hinum hwalk _ hnamed => ?_
  · rw [hwalk] at hfail
    exact hfail rfl z hz hlooks
  rw [hwalk] at hfail hexisting
  simp only at hfail hexisting
  have hpin : 0 < z.mem.filesOn ip + pin ip ip := by
    rw [pin_same]
    omega
  rw [zero_add] at hz
  simp only [bind_assoc]
  refine wp_ilock hz (hlooks.calm hcalm) hpin hinum (fun _ hzero => ?_)
    fun y hy hlooks₁ hlocked _ => ?_
  · rw [hlooks.volume] at hzero
    exact haccepts.typed (hx.walkable.not_typed hnamed hzero)
  have hlooks' : Looks 0 x y := hlooks.trans (hlooks₁.less fun _ => Nat.zero_le _)
  have hplus : y.Intact ∅ (0 + pin ip) := by rwa [zero_add]
  rw [wp_getInode, hlocked.node_eq hy.icache, hlooks'.volume]
  by_cases hdir : (x.volume.node i).type = tDir ∧ omode.word ≠ 0
  · rw [if_pos hdir, bind_assoc]
    rw [if_pos hdir] at hfail
    refine wp_iunlockput_walked hx hlooks' le_rfl hplus hlocked.inum hnamed
      fun w hw hlooks₂ _ => ?_
    exact hfail rfl w hw hlooks₂
  · rw [if_neg hdir, pure_bind]
    rw [if_neg hdir] at hexisting
    exact hexisting i rfl y ip hy hlooks' hlocked hnamed

end

end OnSession

end RiscvOs
