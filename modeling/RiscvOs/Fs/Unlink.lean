import RiscvOs.Fs.Descriptors

/-!
# Removing a file

`sys_unlink` clears the entry, takes a link away from the inode, and frees the inode with its
blocks when that was the last link (`Volume.Removes`), whether or not the file is open.  The
three blocks of the entry and the block of the inode are all it logs.
-/

namespace RiscvOs

open Effect Bytes Kern OnSession

namespace Volume

/-- The directory and the entry that `sys_unlink` finds at a path. -/
def unlinkEntry (v : Volume) (path : List UInt8) (name : Buffer dirsiz) : Option (ℕ × ℕ) :=
  match v.namex true path name with
  | (none, _) => none
  | (some d, name) => if isDots name then none else (v.find d name).map fun k => (d, k)

/-- A live entry has its blocks. -/
theorem missing_entry {v : Volume} {d k : ℕ} (hlive : (v.entry d k).inum ≠ 0) :
    v.missing d (slotsIn (16 * k) 16) = 0 := by
  have hsizes := fsSizes
  have hsize : bsize = 1024 := rfl
  have haddr : v.fileAddr d (16 * k / bsize) ≠ 0 := by
    intro hzero
    refine hlive ?_
    unfold entry
    rw [bytes_in_block (by rw [hsize]; omega), if_pos hzero]
    decide
  unfold missing
  rw [Finset.card_eq_zero, Finset.filter_eq_empty_iff]
  intro l hl
  obtain ⟨-, bn, -, ⟨hlo, hhi⟩, hslot⟩ := Finset.mem_filter.mp hl
  have hbn : bn = 16 * k / bsize := by
    rw [hsize] at hlo hhi ⊢
    omega
  rcases hslot with rfl | ⟨hdirect, rfl⟩
  · rw [hbn]
    exact haddr
  · rw [slot_indirect]
    intro hzero
    refine haddr (slot_eq_zero_of_indirect ?_ hzero)
    rw [← hbn, fileSlot, if_neg (by omega)]
    omega

theorem dropLink_kept {v : Volume} {i : ℕ} (j : ℕ) (hj : ((v.dropLink i).node j).type = tDir) :
    (v.node j).type = tDir := by
  by_cases hji : j = i
  · subst hji
    unfold dropLink at hj
    simp only at hj
    split at hj
    · rw [setNode_node_same] at hj
      exact absurd hj (by decide : ¬ (0 : BitVec 16) = tDir)
    · rwa [setNode_node_same] at hj
  · rwa [dropLink_node_of_ne hji] at hj

end Volume

/-- Which failures of `sys_unlink` are accepted. -/
structure AcceptsUnlink (mode : Mode) (x : Session) (found : Option (ℕ × ℕ)) : Prop
    extends Accepts mode x where
  links : ∀ d k, found = some (d, k) →
    (x.volume.node (x.volume.entry d k).inum).nlink.toInt < 1 →
    mode.err (.panic "unlink: nlink < 1")

/-- What `sys_unlink` does with the entry it finds. -/
inductive UnlinkDone (x : Session) : Option (ℕ × ℕ) → ℤ → Session → Prop
  | absent {y : Session} (hlooks : Looks 0 x y) : UnlinkDone x none (-1) y
  | dir {d k : ℕ} {y : Session} (hlooks : Looks 0 x y)
      (htype : (x.volume.node (x.volume.entry d k).inum).type = tDir) :
      UnlinkDone x (some (d, k)) (-1) y
  | removed {d k : ℕ} {y : Session} (hframe : Frame 0 x y)
      (hparent : (x.volume.node d).type = tDir ∧ d < x.mem.sb.ninodes)
      (hremoves : Volume.Removes x.volume y.volume x.mem.sb.ninodes d k
        (x.volume.entry d k).inum) : UnlinkDone x (some (d, k)) 0 y

/-- What `sys_unlink` finds at the path in its argument. -/
def Session.unlinks (x : Session) (name : Buffer dirsiz) (a₀ : BitVec 64) : Option (ℕ × ℕ) :=
  match x.mem.copyinstr a₀ 128 with
  | none => none
  | some path => x.volume.unlinkEntry path name

namespace OnSession

section
variable {mode : Mode} {α : Type} {Q : α → Session → Prop} {spare spare' holds : ℕ} {x y : Session}
  {pins : Pins} {ip dp : Fin ninode} {i d k : ℕ} {name : Buffer dirsiz}

/-- `iunlockput` of an inode that is free on disk already, or still has a link. -/
theorem wp_iunlockput_last {f : Unit → Kern α} (hx : x.Intact ∅ (pins + pin ip))
    (hip : x.Locked ip i) (htx : Tx mode spare (holds + 1) x)
    (hmark : x.mem.sb.iblock i ∈ x.marks)
    (hfree : (x.volume.node i).nlink = 0 → (x.volume.node i).type = 0)
    (h : ∀ y, y.Intact ∅ pins → Frame pins x y → y.volume = x.volume →
      Tx mode spare (holds + 1) y → (f ()).wp (sessionRules mode) Q y) :
    (iunlockput ip >>= f).wp (sessionRules mode) Q x := by
  rw [iunlockput, bind_assoc]
  refine wp_iunlock hip.loaded.1 ?_
  by_cases hlast : (x.mem.inode ip).ref = 1 ∧ (x.volume.node i).nlink = 0
  · refine wp_iput_free hx hip (Set.notMem_empty _) hlast.1 hlast.2 htx
      (fun hnot => absurd hmark hnot) le_rfl fun y hy hframe hvolume htx' => ?_
    refine h y hy hframe ?_ htx'
    rw [hvolume, ← hfree hlast.2]
    unfold Volume.setNode
    rw [Function.update_eq_self]
  · refine wp_iput hx (Set.notMem_empty _) (fun hone _ => ?_) fun y hy hlooks => ?_
    · rw [hip.inum]
      exact fun hzero => hlast ⟨hone, hzero⟩
    · exact h y hy hlooks.frame hlooks.volume (hlooks.tx htx)

/-- `sys_unlink` of the file at entry `k` of `d`. -/
theorem wp_unlinkFile {f : ℤ → Kern α} (hx : x.Intact ∅ (pin dp + pin ip))
    (htree : x.volume.Tree x.mem.sb.ninodes) (hdp : x.Locked dp d) (hip : x.Locked ip i)
    (htype : (x.volume.node d).type = tDir) (hfile : (x.volume.node i).type ≠ tDir)
    (hlive : k < x.volume.entries d ∧ (x.volume.entry d k).inum = i ∧ i ≠ 0)
    (hlinked : 1 ≤ (x.volume.node i).nlink.toInt)
    (htx : Tx mode (spare + 4) (holds + 2) x)
    (h : ∀ y, y.Intact ∅ 0 → Frame 0 x y →
      Volume.Removes x.volume y.volume x.mem.sb.ninodes d k i → Tx mode spare (holds + 2) y →
      (f 0).wp (sessionRules mode) Q y) :
    (unlinkFile dp ip (16 * k) >>= f).wp (sessionRules mode) Q x := by
  have hsizes := fsSizes
  have hlt := hdp.lt hx.icache
  have hdir := htree.dirs d hlt htype
  have hne : d ≠ i := fun heq => hfile (heq ▸ htype)
  have hsize := hdir.size_eq
  have hsize_le := hdir.size_le
  have hmax : maxfile * bsize = 274432 := by decide
  have hentry : (x.volume.entry d k).inum ≠ 0 := by
    rw [hlive.2.1]
    exact hlive.2.2
  have hlength := Dirent.length_encode ⟨0, Buffer.zero⟩
  have hpin : 0 < x.mem.filesOn dp + (pin dp + pin ip) dp := by
    rw [Pi.add_apply, pin_same]
    omega
  have hpin' : 0 < x.mem.filesOn ip + (pin dp + pin ip) ip := by
    rw [Pi.add_apply, pin_same]
    omega
  have hless : (pin ip : Pins) ≤ pin dp + pin ip := fun jp => Nat.le_add_left _ _
  simp only [unlinkFile, bind_assoc]
  have htx₀ : Tx mode (spare + 1 + 2 + blocksIn (16 * k) (Dirent.encode ⟨0, Buffer.zero⟩).length)
      (holds + 2) x := by
    rw [hlength, blocksIn_entry]
    exact htx
  refine wp_writei hx hdp (by omega) (by rw [hlength]; omega) htx₀ ?_ ?_ ?_
    fun _ _ y hy hframe hwritten hdp₁ htx₁ => ?_
  · rw [hlength, Volume.missing_entry hentry]
    omega
  · rw [hlength]
    omega
  · rw [hlength]
    omega
  have hwrittenDir : Volume.DirWritten x.volume y.volume x.mem.sb.ninodes d k ⟨0, Buffer.zero⟩ :=
    hdir.written (by decide) hlive.1.le (by omega) hwritten
  have hip₁ := hip.keep hy hframe.keeps hframe.file hpin'
  have hnode : y.volume.node i = x.volume.node i := hwritten.node_of_ne hne.symm
  rw [hlength, if_neg (by decide), bind_assoc]
  -- the link is taken away
  have hg : (fun i : Inode => { i with din := { i.din with nlink := i.din.nlink - 1 } })
        (y.mem.inode ip) =
      { y.mem.inode ip with din := { y.volume.node i with
        nlink := (y.volume.node i).nlink - 1 } } := by
    rw [← hip₁.node_eq hy.icache]
  simp only [bind_assoc]
  refine wp_store hy hip₁ hg rfl htx₁ (fun _ => le_rfl) (Nat.le_succ _)
    fun z hz hframe₁ hvolume₁ hip₂ htx₂ hmark => ?_
  have hclean : (∅ : Set ℕ) \ {i} = ∅ := Set.empty_sdiff _
  rw [hclean] at hz
  have hframe₂ : Frame (pin dp + pin ip) x z := hframe.trans hframe₁
  have hdp₂ := hdp.keep hz hframe₂.keeps hframe₂.file hpin
  have hz' : z.Intact ∅ (pin ip + pin dp) := by rwa [add_comm]
  have hdirNode : z.volume.node d = y.volume.node d := by
    rw [hvolume₁, Volume.setNode_node_of_ne hne]
  refine wp_iunlockput hz' (Set.notMem_empty _) (fun _ _ => ?_) fun u hu hlooks => ?_
  · rw [hdp₂.inum, hdirNode, (hwritten.kept d).2]
    exact htree.linked d hlt (by rw [htype]; decide)
  have hpin₂ : 0 < z.mem.filesOn ip + pin ip ip := by
    rw [pin_same]
    omega
  have hip₃ := hip₂.keep hu hlooks.keeps hlooks.frame.file hpin₂
  have hframe₃ : Frame (pin ip) x u := (hframe₂.less hless).trans hlooks.frame
  have hvolume₂ : u.volume = y.volume.setNode i
      { y.volume.node i with nlink := (y.volume.node i).nlink - 1 } :=
    hlooks.volume.trans hvolume₁
  have hmark₁ : u.mem.sb.iblock i ∈ u.marks := by
    rw [hlooks.frame.sb, hframe₁.sb, hlooks.marks]
    exact hmark
  have htx₃ := hlooks.tx htx₂
  have hnlink : (u.volume.node i).nlink = (x.volume.node i).nlink - 1 := by
    rw [hvolume₂, Volume.setNode_node_same, hnode]
  have hplus : u.Intact ∅ (0 + pin ip) := by rwa [zero_add]
  have hzero : (0 : Pins) ≤ pin ip := fun _ => Nat.zero_le _
  rw [wp_getInode, hip₃.node_eq hu.icache, hnlink]
  by_cases hlast : (x.volume.node i).nlink - 1 = 0
  · rw [if_pos hlast]
    simp only [bind_assoc, pure_bind]
    refine wp_itrunc hu hip₃ htx₃ (fun hnot => absurd hmark₁ hnot) le_rfl
      fun v hv hframe₅ hvolume₃ hip₄ htx₄ => ?_
    have hg' : (fun i : Inode => { i with din := { i.din with type := 0 } }) (v.mem.inode ip) =
        { v.mem.inode ip with din := { v.volume.node i with type := 0 } } := by
      rw [← hip₄.node_eq hv.icache]
    have hmark₂ : v.mem.sb.iblock i ∈ v.marks := by
      rw [hframe₅.sb]
      exact hframe₅.marks hmark₁
    refine wp_store hv hip₄ hg' rfl htx₄ (fun hnot => absurd hmark₂ hnot) le_rfl
      fun w hw hframe₆ hvolume₄ hip₅ htx₅ hmark₃ => ?_
    rw [hclean] at hw
    have hw' : w.Intact ∅ (0 + pin ip) := by rwa [zero_add]
    have hmark₄ : w.mem.sb.iblock i ∈ w.marks := by
      rw [hframe₆.sb]
      exact hmark₃
    refine wp_iunlockput_last hw' hip₅ htx₅ hmark₄ (fun _ => ?_) fun t ht hframe₇ hvolume₅ htx₆ => ?_
    · rw [hvolume₄, Volume.setNode_node_same]
    · have hframe₈ : Frame (pin ip) x w := (hframe₃.trans hframe₅).trans hframe₆
      refine h t ht ((hframe₈.less hzero).trans hframe₇)
        ⟨hlive, hfile, hlinked, y.volume, hwritten, hwrittenDir, ?_⟩ htx₆
      unfold Volume.dropLink
      rw [hnode, if_pos hlast, hvolume₅, hvolume₄, hvolume₃, hvolume₂, hnode]
  · rw [if_neg hlast]
    simp only [bind_assoc, pure_bind]
    refine wp_iunlockput_last hplus hip₃ htx₃ hmark₁ (fun hfalse => ?_)
      fun t ht hframe₅ hvolume₃ htx₄ => ?_
    · rw [hnlink] at hfalse
      exact absurd hfalse hlast
    · refine h t ht ((hframe₃.less hzero).trans hframe₅)
        ⟨hlive, hfile, hlinked, y.volume, hwritten, hwrittenDir, ?_⟩ htx₄
      unfold Volume.dropLink
      rw [hnode, if_neg hlast, hvolume₃, hvolume₂, hnode]

/-- `sys_unlink` between `begin_op` and `end_op`. -/
theorem wp_unlinkBody {a₀ : BitVec 64} {f : ℤ → Kern α} (hx : x.Ordered)
    (haccepts : AcceptsUnlink mode x (x.unlinks name a₀))
    (htx : Tx mode (spare + 4) (holds + 2) x)
    (h : ∀ r y, UnlinkDone x (x.unlinks name a₀) r y → y.Intact ∅ 0 →
      Tx mode spare (holds + 2) y → (f r).wp (sessionRules mode) Q y) :
    (unlinkBody name a₀ >>= f).wp (sessionRules mode) Q x := by
  have hless : Tx mode spare (holds + 2) x := htx.less (Nat.le_add_right _ _) le_rfl
  have hcalm : Calm mode (holds + 1 + 1) x := htx.calm
  rw [unlinkBody, bind_assoc, wp_get]
  unfold Session.unlinks at haccepts h
  cases hpath : x.mem.copyinstr a₀ 128 with
  | none =>
      rw [hpath] at h
      rw [pure_bind]
      exact h _ x (.absent (.refl 0 x)) hx.intact hless
  | some path =>
      rw [hpath] at haccepts h
      simp only [nameiparent, bind_assoc] at haccepts h ⊢
      unfold Volume.unlinkEntry at haccepts h
      refine wp_namex hx haccepts.toAccepts hcalm (fun z name' hz hlooks hwalk => ?_)
        fun z dp d name' hz hlooks hinum hwalk hparent _ => ?_
      · rw [hwalk] at h
        rw [pure_bind]
        exact h _ z (.absent hlooks) hz (hlooks.tx hless)
      rw [hwalk] at haccepts h
      simp only at haccepts h
      obtain ⟨hlocked, htype⟩ := hparent rfl
      have hpin : 0 < z.mem.filesOn dp + pin dp dp := by
        rw [pin_same]
        omega
      simp only [unlinkIn, bind_assoc]
      refine wp_ilock hz (hlooks.calm hcalm) hpin hinum (fun hfalse => ?_)
        fun y hy hlooks₁ hdp _ => ?_
      · rw [hlocked.loaded.2] at hfalse
        exact absurd hfalse (by decide)
      have hlooks' : Looks 0 x y := hlooks.trans (hlooks₁.less fun _ => Nat.zero_le _)
      have hvolume := hlooks'.volume
      have hsb := hlooks'.frame.sb
      have hplus : y.Intact ∅ (0 + pin dp) := by rwa [zero_add]
      have hlt : d < x.mem.sb.ninodes := by
        have hlt := hdp.lt hy.icache
        rwa [hsb] at hlt
      have hisDir := hx.tree.dirs d hlt htype
      by_cases hdots : isDots name' = true
      · rw [if_pos hdots] at h
        rw [if_pos hdots, bind_assoc]
        refine wp_iunlockput_looked hx hlooks' hplus fun u hu hlooks₂ _ => ?_
        rw [pure_bind]
        exact h _ u (.absent hlooks₂) hu (hlooks₂.tx hless)
      rw [if_neg hdots] at haccepts h
      rw [if_neg hdots, bind_assoc]
      refine wp_dirlookup hy hdp (hlooks'.calm hcalm) (by rwa [hvolume])
        (by rw [hvolume, hsb]; exact hx.tree.inums d hlt htype) (fun _ _ _ hnone => ?_)
        (fun hfind => ?_) fun k ip u hfind hu hlooks₂ hip => ?_
      · have hfree := hlooks'.freeSlots_le hx.intact (by rwa [zero_add]) hnone
        exact haccepts.slots (by omega)
      · rw [hvolume] at hfind
        rw [hfind] at h
        simp only [bind_assoc, pure_bind]
        refine wp_iunlockput_looked hx hlooks' hplus fun u hu hlooks₂ _ => ?_
        exact h _ u (.absent hlooks₂) hu (hlooks₂.tx hless)
      · rw [hvolume] at hfind hip
        rw [hfind] at haccepts h
        simp only [Option.map_some] at haccepts h
        obtain ⟨hk, hlive, -⟩ := Volume.find_some hfind
        have hlooks₃ : Looks 0 x u := hlooks'.trans (hlooks₂.less fun _ => Nat.zero_le _)
        have hpin' : 0 < u.mem.filesOn ip + (pin dp + pin ip) ip := by
          rw [Pi.add_apply, pin_same]
          omega
        have hpin₁ : 0 < y.mem.filesOn dp + pin dp dp := by
          rw [pin_same]
          omega
        have hpin₂ : 0 < u.mem.filesOn dp + (pin dp + pin ip) dp := by
          rw [Pi.add_apply, pin_same]
          omega
        have hmore : (pin dp : Pins) ≤ pin dp + pin ip := fun _ => Nat.le_add_right _ _
        have hdp₁ := hdp.keep_le hu hmore hlooks₂.keeps hlooks₂.frame.file hpin₁
        simp only [bind_assoc]
        refine wp_ilock hu (hlooks₃.calm hcalm) hpin' hip (fun _ hzero => ?_)
          fun w hw hlooks₄ hip₁ _ => ?_
        · rw [hlooks₃.volume] at hzero
          exact haccepts.typed fun htyped => htyped d hlt htype k hk hlive hzero
        have hdp₂ := hdp₁.keep hw hlooks₄.keeps hlooks₄.frame.file hpin₂
        have hlooks₅ : Looks 0 x w := hlooks₃.trans (hlooks₄.less fun _ => Nat.zero_le _)
        rw [wp_getInode, hip₁.node_eq hw.icache, hlooks₅.volume]
        by_cases hlinks : (x.volume.node (x.volume.entry d k).inum).nlink.toInt < 1
        · rw [if_pos hlinks, wp_panic_bind]
          exact haccepts.links d k rfl hlinks
        rw [if_neg hlinks]
        by_cases hdir : (x.volume.node (x.volume.entry d k).inum).type = tDir
        · rw [if_pos hdir, bind_assoc]
          refine wp_iunlockput_looked hx hlooks₅ hw fun t ht hlooks₆ hgiven => ?_
          have ht' : t.Intact ∅ (0 + pin dp) := by rwa [zero_add]
          rw [bind_assoc]
          refine wp_iunlockput_looked hx hlooks₆ ht' fun s hs hlooks₇ _ => ?_
          rw [pure_bind]
          exact h _ s (.dir hlooks₇ hdir) hs (hlooks₇.tx hless)
        · rw [if_neg hdir]
          have hsb' := hlooks₅.frame.sb
          have hvol' := hlooks₅.volume
          refine wp_unlinkFile hw (by rw [hvol', hsb']; exact hx.tree) hdp₂ hip₁
            (by rwa [hvol']) (by rwa [hvol']) (by rw [hvol']; exact ⟨hk, rfl, hlive⟩)
            (by rw [hvol']; omega) (hlooks₅.tx htx) fun t ht hframe hremoves htx' => ?_
          rw [hvol', hsb'] at hremoves
          exact h _ t (.removed (hlooks₅.frame.trans hframe) ⟨htype, hlt⟩ hremoves) ht htx'

end

end OnSession

end RiscvOs
