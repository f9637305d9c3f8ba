import RiscvOs.Fs.Changes
import Mathlib.Algebra.Order.BigOperators.Group.Finset

/-!
# Every file has one name

`Volume.Kept` is what a file system should look like beyond what the code relies on: every file
is named by exactly one entry, entries name no free inode, names are not repeated in a
directory, a free inode holds no block and every block that is marked as used is held by an
inode.  The three changes of a volume keep it, provided that what is written to is not free.

`links_write` is the count behind it: writing an entry takes one name from the inode that the
entry was for and gives one to the inode it is for now.
-/

namespace RiscvOs

open Effect Bytes Kern

namespace Volume

/-- The entries of directory `d` for inode `i`. -/
def naming (v : Volume) (d i : ℕ) : Finset ℕ :=
  (Finset.range (v.entries d)).filter fun k => (v.entry d k).inum = i

/-- The directories. -/
def dirs (v : Volume) (n : ℕ) : Finset ℕ :=
  (Finset.range n).filter fun d => (v.node d).type = tDir

/-- The number of entries for inode `i`. -/
def links (v : Volume) (n i : ℕ) : ℕ := ∑ d ∈ v.dirs n, (v.naming d i).card

/-- A block of the data region that is marked as used is held by an inode. -/
def Tight (v : Volume) (n lo top : ℕ) : Prop :=
  ∀ b, lo ≤ b → b < top → v.used b = true → ∃ i < n, ∃ k < nslots, v.slot i k = b

/-- A file system without a stray name or block. -/
structure Kept (v : Volume) (n lo top : ℕ) : Prop where
  zero : (v.node 0).type = 0
  single : ∀ i < n, (v.node i).type ≠ 0 → (v.node i).nlink = 1 ∧
    ((v.node i).type ≠ tDir → v.links n i = 1)
  unnamed : ∀ i < n, i ≠ 0 → (v.node i).type = 0 → v.links n i = 0
  distinct : ∀ d < n, (v.node d).type = tDir → v.Distinct d
  empty : ∀ i < n, (v.node i).type = 0 → ∀ k < nslots, v.slot i k = 0
  tight : v.Tight n lo top

section
variable {v w : Volume} {n lo top d i j k off : ℕ} {din : Dinode} {de : Dirent}
  {name : Buffer dirsiz} {src : List UInt8}

theorem mem_naming : k ∈ v.naming d i ↔ k < v.entries d ∧ (v.entry d k).inum = i := by
  rw [naming, Finset.mem_filter, Finset.mem_range]

theorem mem_dirs : d ∈ v.dirs n ↔ d < n ∧ (v.node d).type = tDir := by
  rw [dirs, Finset.mem_filter, Finset.mem_range]

/-! ## Counting names -/

theorem SameDir.naming (h : SameDir v w d) (hv : v.IsDir d) (i : ℕ) :
    w.naming d i = v.naming d i := by
  ext k
  rw [mem_naming, mem_naming, h.entries]
  refine and_congr_right fun hk => ?_
  rw [h.entry hv hk]

theorem SameDir.distinct (h : SameDir v w d) (hv : v.IsDir d) (hd : v.Distinct d) :
    w.Distinct d := by
  intro a ha b hb hlive hlive' hsame
  rw [h.entries] at ha hb
  rw [h.entry hv ha] at hlive hsame
  rw [h.entry hv hb] at hlive' hsame
  exact hd a ha b hb hlive hlive' hsame

/-- Where the directories are the same, so are the counts. -/
theorem links_congr (hdirs : w.dirs n = v.dirs n)
    (hsame : ∀ d ∈ v.dirs n, w.naming d i = v.naming d i) : w.links n i = v.links n i := by
  unfold links
  rw [hdirs]
  exact Finset.sum_congr rfl fun d hd => by rw [hsame d hd]

theorem dirs_congr (htype : ∀ d < n, (w.node d).type = tDir ↔ (v.node d).type = tDir) :
    w.dirs n = v.dirs n :=
  Finset.filter_congr fun d hd => htype d (Finset.mem_range.mp hd)

/-- An entry for inode `i` counts. -/
theorem links_pos (hd : d < n) (htype : (v.node d).type = tDir) (hk : k < v.entries d)
    (hinum : (v.entry d k).inum = i) : 0 < v.links n i := by
  have hone : 0 < (v.naming d i).card := Finset.card_pos.mpr ⟨k, mem_naming.mpr ⟨hk, hinum⟩⟩
  exact lt_of_lt_of_le hone (Finset.single_le_sum (f := fun d => (v.naming d i).card)
    (fun _ _ => Nat.zero_le _) (mem_dirs.mpr ⟨hd, htype⟩))

/-- What names an inode names one of some type. -/
theorem Kept.typed (h : v.Kept n lo top) (htree : v.Tree n) : v.Typed n := by
  intro d hd htype k hk hlive hzero
  have hlt := htree.inums d hd htype k hk
  have hpos := links_pos hd htype hk rfl
  rw [h.unnamed _ hlt hlive hzero] at hpos
  exact absurd hpos (lt_irrefl 0)

/-- The entries for an inode after one entry has been written. -/
theorem DirWritten.naming (h : v.DirWritten w n d k de) (hk : k ≤ v.entries d) (i : ℕ) :
    (w.naming d i).card + (if k < v.entries d ∧ (v.entry d k).inum = i then 1 else 0) =
      (v.naming d i).card + if de.inum = i then 1 else 0 := by
  have hentries := h.entries
  have hrest : (w.naming d i).erase k = (v.naming d i).erase k := by
    ext l
    rw [Finset.mem_erase, Finset.mem_erase, mem_naming, mem_naming]
    refine and_congr_right fun hl => ?_
    constructor
    · intro hl'
      rw [h.other l hl hl'.1] at hl'
      exact ⟨(h.other_iff hk hl).mp hl'.1, hl'.2⟩
    · intro hl'
      have hlt := (h.other_iff hk hl).mpr hl'.1
      rw [h.other l hl hlt]
      exact ⟨hlt, hl'.2⟩
  have hnew : k ∈ w.naming d i ↔ de.inum = i := by
    rw [mem_naming, h.entry]
    exact and_iff_right (by omega)
  have hcard (u : Volume) : ((u.naming d i).erase k).card + (if k ∈ u.naming d i then 1 else 0) =
      (u.naming d i).card := by
    by_cases hmem : k ∈ u.naming d i
    · rw [if_pos hmem, Finset.card_erase_add_one hmem]
    · rw [if_neg hmem, Finset.erase_eq_of_notMem hmem, Nat.add_zero]
  have hw := hcard w
  have hv := hcard v
  rw [hrest] at hw
  simp only [hnew] at hw
  simp only [mem_naming] at hv
  omega

/-- Writing an entry takes one name away and gives one. -/
theorem links_write (htree : v.Tree n) (hd : d < n) (htype : (v.node d).type = tDir)
    (hw : v.WrittenTo w n d off src) (hdir : v.DirWritten w n d k de) (hk : k ≤ v.entries d)
    (i : ℕ) :
    w.links n i + (if k < v.entries d ∧ (v.entry d k).inum = i then 1 else 0) =
      v.links n i + if de.inum = i then 1 else 0 := by
  have hmem : d ∈ v.dirs n := mem_dirs.mpr ⟨hd, htype⟩
  have hdirs : w.dirs n = v.dirs n := dirs_congr fun e _ => by rw [(hw.kept e).1]
  have hrest : ∑ e ∈ (v.dirs n).erase d, (w.naming e i).card =
      ∑ e ∈ (v.dirs n).erase d, (v.naming e i).card := by
    refine Finset.sum_congr rfl fun e he => ?_
    obtain ⟨hne, he⟩ := Finset.mem_erase.mp he
    obtain ⟨hlt, hedir⟩ := mem_dirs.mp he
    rw [(hw.sameDir hlt hne).naming (htree.dirs e hlt hedir)]
  have hsplit (u : Volume) : (u.naming d i).card + ∑ e ∈ (v.dirs n).erase d, (u.naming e i).card =
      ∑ e ∈ v.dirs n, (u.naming e i).card :=
    Finset.add_sum_erase _ (fun e => (u.naming e i).card) hmem
  have hone := hdir.naming hk i
  have hsplit_w := hsplit w
  have hsplit_v := hsplit v
  unfold links
  rw [hdirs]
  omega

/-! ## Blocks -/

theorem WrittenTo.tight (h : v.WrittenTo w n i off src) (hi : i < n) (hv : v.Tight n lo top)
    (hlo : lo ≠ 0) : w.Tight n lo top := by
  intro b hb htop hused
  rcases h.used.2 hused with hold | ⟨-, k, hk, hslot⟩
  · obtain ⟨j, hj, k, hk, hslot⟩ := hv b hb htop hold
    have hne : v.slot j k ≠ 0 := by omega
    exact ⟨j, hj, k, hk, (h.slot hj hk (.inr hne)).trans hslot⟩
  · exact ⟨i, hi, k, hk, hslot⟩

/-- An inode that holds no block may get any type. -/
theorem Tight.setNode (h : v.Tight n lo top) (hlo : lo ≠ 0)
    (hempty : ∀ k < nslots, v.slot i k = 0) (din : Dinode) : (v.setNode i din).Tight n lo top := by
  intro b hb htop hused
  obtain ⟨j, hj, k, hk, hslot⟩ := h b hb htop hused
  have hji : j ≠ i := by
    intro heq
    rw [heq, hempty k hk] at hslot
    omega
  exact ⟨j, hj, k, hk, (slot_setNode_of_ne hji k).trans hslot⟩

theorem Tight.truncate (h : v.Tight n lo top) (hlo : lo ≠ 0) (i : ℕ) :
    (v.truncate i).Tight n lo top := by
  intro b hb htop hused
  change (v.used b && !decide (v.Holds i b)) = true at hused
  rw [Bool.and_eq_true, Bool.not_eq_true', decide_eq_false_iff_not] at hused
  obtain ⟨j, hj, k, hk, hslot⟩ := h b hb htop hused.1
  have hji : j ≠ i := by
    intro heq
    rw [heq] at hslot
    exact hused.2 ⟨by omega, k, hk, hslot⟩
  exact ⟨j, hj, k, hk, (slot_truncate_of_ne hji k).trans hslot⟩

theorem Tight.congr (h : v.Tight n lo top) (hused : w.used = v.used)
    (hslot : ∀ i < n, ∀ k < nslots, w.slot i k = v.slot i k) : w.Tight n lo top := by
  intro b hb htop hmarked
  rw [hused] at hmarked
  obtain ⟨i, hi, k, hk, heq⟩ := h b hb htop hmarked
  exact ⟨i, hi, k, hk, (hslot i hi k hk).trans heq⟩

/-! ## The three changes -/

/-- A write to a file. -/
theorem Kept.write (h : v.Kept n lo top) (htree : v.Tree n) (hlo : lo ≠ 0) (hi : i < n)
    (hfile : (v.node i).type ≠ tDir) (htyped : (v.node i).type ≠ 0)
    (hw : v.WrittenTo w n i off src) : w.Kept n lo top := by
  have hdirs : w.dirs n = v.dirs n := dirs_congr fun e _ => by rw [(hw.kept e).1]
  have hsame : ∀ e ∈ v.dirs n, SameDir v w e := fun e he => by
    obtain ⟨hlt, htype⟩ := mem_dirs.mp he
    exact hw.sameDir hlt fun hei => hfile (by rw [← hei]; exact htype)
  have hlinks (j : ℕ) : w.links n j = v.links n j := links_congr hdirs fun e he => by
    obtain ⟨hlt, htype⟩ := mem_dirs.mp he
    exact (hsame e he).naming (htree.dirs e hlt htype) j
  refine ⟨(hw.kept 0).1.trans h.zero, fun j hj => ?_, fun j hj => ?_, fun e he htype => ?_,
    fun j hj hfree k hk => ?_, hw.tight hi h.tight hlo⟩
  · rw [(hw.kept j).1, (hw.kept j).2, hlinks]
    exact h.single j hj
  · rw [(hw.kept j).1, hlinks]
    exact h.unnamed j hj
  · rw [(hw.kept e).1] at htype
    exact (hsame e (mem_dirs.mpr ⟨he, htype⟩)).distinct (htree.dirs e he htype)
      (h.distinct e he htype)
  · rw [(hw.kept j).1] at hfree
    have hji : j ≠ i := fun heq => htyped (heq ▸ hfree)
    rw [hw.slot hj hk (.inl hji)]
    exact h.empty j hj hfree k hk

/-- Making a file. -/
theorem Kept.create (hv : v.Kept n lo top) (h : Creates v w n d name i din) (htree : v.Tree n)
    (hlo : lo ≠ 0) (hi : i < n) (hn : n ≤ 2 ^ 16) (hd : d < n) (htype : (v.node d).type = tDir)
    (htyped : din.type ≠ 0) : w.Kept n lo top := by
  have hne := h.ne htype
  have hfree := h.free
  have hpos := h.pos
  have hinum : i % 2 ^ 16 = i := Nat.mod_eq_of_lt (by omega)
  -- the volume with the new inode
  have hfile : (v.node i).type ≠ tDir := by
    rw [hfree]
    decide
  have hmid : (v.setNode i din).Tree n :=
    htree.setNode hfile h.file.1 h.file.2.2 fun _ => by rw [h.file.2.1]; decide
  have hsame (e : ℕ) (he : e < n) (hedir : (v.node e).type = tDir) : SameDir v (v.setNode i din) e :=
    sameDir_setNode (fun hei => hfile (by rw [← hei]; exact hedir)) v din
  have hdirs : (v.setNode i din).dirs n = v.dirs n := dirs_congr fun e _ => by
    by_cases hei : e = i
    · rw [hei, setNode_node_same]
      exact iff_of_false h.file.1 hfile
    · rw [setNode_node_of_ne hei]
  have hlinksMid (j : ℕ) : (v.setNode i din).links n j = v.links n j :=
    links_congr hdirs fun e he => by
      obtain ⟨hlt, hedir⟩ := mem_dirs.mp he
      exact (hsame e hlt hedir).naming (htree.dirs e hlt hedir) j
  have hdsame := hsame d hd htype
  have hentries := hdsame.entries
  have hle := freeEntry_le v d
  have hlinks (j : ℕ) (hj : j ≠ 0) : w.links n j = v.links n j + if i = j then 1 else 0 := by
    have hwrite := links_write hmid hd (hdsame.node.1.trans htype) h.written h.dir
      (by rw [hentries]; exact hle) j
    rw [hlinksMid, hinum] at hwrite
    have hnot : ¬ (v.freeEntry d < (v.setNode i din).entries d ∧
        ((v.setNode i din).entry d (v.freeEntry d)).inum = j) := by
      intro hlive
      rw [hentries, hdsame.entry (htree.dirs d hd htype) (by omega)] at hlive
      rw [freeEntry_free hlive.1] at hlive
      exact hj hlive.2.symm
    rw [if_neg hnot] at hwrite
    exact hwrite
  have hnode (j : ℕ) (hj : j ≠ i) : (w.node j).type = (v.node j).type ∧
      (w.node j).nlink = (v.node j).nlink := by
    have hkept := h.written.kept j
    rw [setNode_node_of_ne hj] at hkept
    exact hkept
  have hself : (w.node i).type = din.type ∧ (w.node i).nlink = din.nlink := by
    have hkept := h.written.kept i
    rw [setNode_node_same] at hkept
    exact hkept
  have hzero : (w.node 0).type = 0 := (hnode 0 (by omega)).1.trans hv.zero
  refine ⟨hzero, fun j hj hjtyped => ?_, fun j hj hj0 hjfree => ?_, fun e he hetype => ?_,
    fun j hj hjfree k hk => ?_, ?_⟩
  · by_cases hji : j = i
    · rw [hji, hself.2, hlinks i (by omega), if_pos rfl, hv.unnamed i hi (by omega) hfree]
      exact ⟨h.file.2.1, fun _ => rfl⟩
    · have hj0 : j ≠ 0 := fun heq => hjtyped (heq ▸ hzero)
      rw [(hnode j hji).1] at hjtyped
      rw [(hnode j hji).1, (hnode j hji).2, hlinks j hj0, if_neg (Ne.symm hji)]
      exact hv.single j hj hjtyped
  · have hji : j ≠ i := fun heq => by
      rw [heq, hself.1] at hjfree
      exact htyped hjfree
    rw [(hnode j hji).1] at hjfree
    rw [hlinks j hj0, if_neg (Ne.symm hji), hv.unnamed j hj hj0 hjfree]
  · have hei : e ≠ i := fun heq => by
      rw [heq, hself.1] at hetype
      exact h.file.1 hetype
    rw [(hnode e hei).1] at hetype
    have hmidDistinct := (hsame e he hetype).distinct (htree.dirs e he hetype)
      (hv.distinct e he hetype)
    by_cases hed : e = d
    · subst hed
      refine (h.dir.add hmidDistinct (by rw [hentries]; exact hle) (fun hlt => ?_) (by omega) ?_).1
      · rw [hentries] at hlt
        rw [hdsame.entry (htree.dirs e he hetype) hlt]
        exact freeEntry_free hlt
      · rw [hdsame.find (htree.dirs e he hetype)]
        exact h.absent
    · have hmidDir := (hsame e he hetype).isDir (htree.dirs e he hetype)
      exact (h.written.sameDir he hed).distinct hmidDir hmidDistinct
  · have hji : j ≠ i := fun heq => by
      rw [heq, hself.1] at hjfree
      exact htyped hjfree
    rw [(hnode j hji).1] at hjfree
    have hjd : j ≠ d := fun heq => by
      rw [heq, htype] at hjfree
      exact absurd hjfree (by decide)
    rw [h.written.slot hj hk (.inl hjd), slot_setNode_of_ne hji]
    exact hv.empty j hj hjfree k hk
  · exact h.written.tight hd (hv.tight.setNode hlo (hv.empty i hi hfree) din) hlo

/-- An inode whose last link is dropped is free. -/
theorem dropLink_free (h : (v.node i).nlink = 1) :
    ((v.dropLink i).node i).type = 0 ∧ ∀ k, (v.dropLink i).slot i k = 0 := by
  have hlast : (v.node i).nlink - 1 = 0 := by
    rw [h]
    rfl
  unfold dropLink
  simp only [if_pos hlast]
  refine ⟨by rw [setNode_node_same], fun k => slot_of_addrs_zero (fun a => ?_) k⟩
  rw [setNode_node_same, truncate_node_same]

theorem Tight.dropLink (h : v.Tight n lo top) (hlo : lo ≠ 0) (i : ℕ) :
    (v.dropLink i).Tight n lo top := by
  have haddrs : ({ v.node i with nlink := (v.node i).nlink - 1 } : Dinode).addrs =
      (v.node i).addrs := rfl
  have hmid : (v.setNode i { v.node i with nlink := (v.node i).nlink - 1 }).Tight n lo top :=
    h.congr rfl fun j _ k _ => slot_setNode haddrs j k
  unfold Volume.dropLink
  simp only
  split
  · refine (hmid.truncate hlo i).setNode hlo (fun k _ => slot_of_addrs_zero (fun a => ?_) k) _
    rw [truncate_node_same]
  · exact hmid

theorem sameDir_dropLink (hne : d ≠ i) (v : Volume) : SameDir v (v.dropLink i) d := by
  unfold dropLink
  simp only
  split
  · exact ((sameDir_setNode hne v _).trans (sameDir_truncate hne _)).trans (sameDir_setNode hne _ _)
  · exact sameDir_setNode hne v _

theorem slot_dropLink_of_ne (hne : j ≠ i) (k : ℕ) : (v.dropLink i).slot j k = v.slot j k := by
  unfold dropLink
  simp only
  split
  · rw [slot_setNode_of_ne hne, slot_truncate_of_ne hne, slot_setNode_of_ne hne]
  · rw [slot_setNode_of_ne hne]

/-- Taking a name away. -/
theorem Kept.remove (hv : v.Kept n lo top) (h : Removes v w n d k i) (htree : v.Tree n)
    (hlo : lo ≠ 0) (hd : d < n) (htype : (v.node d).type = tDir) : w.Kept n lo top := by
  obtain ⟨hk, hentry, hi0⟩ := h.live
  obtain ⟨u, hwritten, hdir, rfl⟩ := h.removed
  have hi : i < n := by
    rw [← hentry]
    exact htree.inums d hd htype k hk
  have htyped : (v.node i).type ≠ 0 := fun hzero => by
    have hpos := links_pos hd htype hk hentry
    rw [hv.unnamed i hi hi0 hzero] at hpos
    exact absurd hpos (lt_irrefl 0)
  obtain ⟨hone, hsingle⟩ := hv.single i hi htyped
  have hulink : (u.node i).nlink = 1 := (hwritten.kept i).2.trans hone
  have hufile : (u.node i).type ≠ tDir := by
    rw [(hwritten.kept i).1]
    exact h.file
  obtain ⟨hfree, hslots⟩ := dropLink_free hulink
  have hutree : u.Tree n := htree.writeEntry htype hwritten hdir hk.le (Nat.zero_lt_of_lt hi) hd
  -- the counts
  have hdirs : (u.dropLink i).dirs n = u.dirs n := dirs_congr fun e _ => by
    by_cases hei : e = i
    · rw [hei, hfree]
      exact iff_of_false (by decide) hufile
    · rw [dropLink_node_of_ne hei]
  have hsame : ∀ e ∈ u.dirs n, SameDir u (u.dropLink i) e := fun e he => by
    obtain ⟨-, hedir⟩ := mem_dirs.mp he
    exact sameDir_dropLink (fun hei => hufile (by rw [← hei]; exact hedir)) u
  have hlinks (j : ℕ) (hj : j ≠ 0) :
      (u.dropLink i).links n j + (if i = j then 1 else 0) = v.links n j := by
    have hdrop : (u.dropLink i).links n j = u.links n j := links_congr hdirs fun e he => by
      obtain ⟨hlt, hedir⟩ := mem_dirs.mp he
      exact (hsame e he).naming (hutree.dirs e hlt hedir) j
    have hwrite := links_write htree hd htype hwritten hdir hk.le j
    have hnot : ¬ (⟨0, Buffer.zero⟩ : Dirent).inum = j := fun heq => hj heq.symm
    rw [hentry, if_neg hnot] at hwrite
    rw [hdrop]
    simpa [hk] using hwrite
  have hnode (j : ℕ) (hj : j ≠ i) : ((u.dropLink i).node j).type = (v.node j).type ∧
      ((u.dropLink i).node j).nlink = (v.node j).nlink := by
    rw [dropLink_node_of_ne hj]
    exact hwritten.kept j
  have hzero : ((u.dropLink i).node 0).type = 0 := (hnode 0 (Ne.symm hi0)).1.trans hv.zero
  refine ⟨hzero, fun j hj hjtyped => ?_, fun j hj hj0 hjfree => ?_, fun e he hetype => ?_,
    fun j hj hjfree l hl => ?_, (hwritten.tight hd hv.tight hlo).dropLink hlo i⟩
  · have hji : j ≠ i := fun heq => hjtyped (heq ▸ hfree)
    have hj0 : j ≠ 0 := fun heq => hjtyped (heq ▸ hzero)
    have hcount := hlinks j hj0
    rw [if_neg (Ne.symm hji), Nat.add_zero] at hcount
    rw [(hnode j hji).1] at hjtyped
    rw [(hnode j hji).1, (hnode j hji).2, hcount]
    exact hv.single j hj hjtyped
  · have hcount := hlinks j hj0
    by_cases hji : j = i
    · rw [hji, if_pos rfl, hsingle h.file] at hcount
      rw [hji]
      omega
    · rw [(hnode j hji).1] at hjfree
      rw [if_neg (Ne.symm hji), Nat.add_zero, hv.unnamed j hj hj0 hjfree] at hcount
      exact hcount
  · have hei : e ≠ i := fun heq => by
      rw [heq, hfree] at hetype
      exact absurd hetype (by decide)
    have hvtype : (v.node e).type = tDir := (hnode e hei).1.symm.trans hetype
    have hudir : u.IsDir e := hutree.dirs e he ((hwritten.kept e).1.trans hvtype)
    refine (sameDir_dropLink hei u).distinct hudir ?_
    by_cases hed : e = d
    · rw [hed]
      exact (hdir.remove (hv.distinct d hd htype) hk ⟨by rw [hentry]; exact hi0, rfl⟩).1
    · exact (hwritten.sameDir he hed).distinct (htree.dirs e he hvtype) (hv.distinct e he hvtype)
  · by_cases hji : j = i
    · rw [hji]
      exact hslots l
    · rw [(hnode j hji).1] at hjfree
      have hjd : j ≠ d := fun heq => by
        rw [heq, htype] at hjfree
        exact absurd hjfree (by decide)
      rw [slot_dropLink_of_ne hji, hwritten.slot hj hl (.inl hjd)]
      exact hv.empty j hj hjfree l hl

end

end Volume

end RiscvOs
