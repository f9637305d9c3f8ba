import RiscvOs.Fs.Calm
import RiscvOs.Fs.ByteArray

/-!
# A volume as a map of byte arrays

In a volume whose root directory is the only one, `Volume.files` is the map from the names in it
to the contents of the files.  Each of the three changes of a volume changes the map at one name:

* a write to the file with that name lays the bytes over its contents (`files_write`);
* making a file adds an empty one (`files_create`);
* taking an entry away removes the name (`files_remove`).

The last two rest on `Distinct`, the first on `Kept`: were a file to have two names, a write would
change the map at both.
-/

namespace RiscvOs

open Effect Bytes Kern

namespace Volume

/-- The inode with a name in the root directory. -/
def called (v : Volume) (nm : List UInt8) : Option ℕ :=
  ((List.range (v.entries rootino)).find? fun k =>
    (v.entry rootino k).inum ≠ 0 ∧ cut (v.entry rootino k).name = nm).map fun k =>
      (v.entry rootino k).inum

/-- The names of the files of the root directory, and their contents. -/
def files (v : Volume) (nm : List UInt8) : Option (List UInt8) :=
  (v.called nm).bind fun i => if (v.node i).type = tDir then none else some (v.contents i)

/-- The root is the only directory, and the names that lead back to it are `.` and `..`. -/
structure Rooted (v : Volume) : Prop where
  only : ∀ i, (v.node i).type = tDir → i = rootino
  selves : ∀ nm, v.called nm = some rootino ↔ nm = [dot] ∨ nm = [dot, dot]

section
variable {v w : Volume} {n lo top i j k off : ℕ} {din : Dinode} {name : Buffer dirsiz}
  {nm nm' src : List UInt8}

/-! ## Looking a name up -/

theorem called_eq_find (hname : cut name = nm) :
    v.called nm = (v.find rootino name).map fun k => (v.entry rootino k).inum := by
  rw [called, find]
  congr 2
  funext k
  refine decide_eq_decide.mpr (and_congr_right fun _ => ?_)
  rw [hname]
  exact eq_comm

/-- A component that is looked up in the root directory. -/
theorem child_root (hroot : (v.node rootino).type = tDir) (s : List UInt8) :
    v.child rootino s = v.called (s.take dirsiz) := if_neg (not_not.mpr hroot)

theorem called_some (h : v.called nm = some i) : ∃ k < v.entries rootino,
    (v.entry rootino k).inum = i ∧ i ≠ 0 ∧ cut (v.entry rootino k).name = nm := by
  obtain ⟨k, hfind, rfl⟩ := Option.map_eq_some_iff.mp h
  have hlive : (v.entry rootino k).inum ≠ 0 ∧ cut (v.entry rootino k).name = nm := by
    simpa using List.find?_some hfind
  exact ⟨k, List.mem_range.mp (List.mem_of_find?_eq_some hfind), rfl, hlive⟩

theorem Distinct.called_entry (h : v.Distinct rootino) (hk : k < v.entries rootino)
    (hlive : (v.entry rootino k).inum ≠ 0) :
    v.called (cut (v.entry rootino k).name) = some (v.entry rootino k).inum := by
  rw [called_eq_find rfl, h.find_eq hk ⟨hlive, rfl⟩, Option.map_some]

theorem called_lookup (v : Volume) (name : Buffer dirsiz) : v.called (cut name) =
    if v.lookup rootino name = 0 then none else some (v.lookup rootino name) := by
  rw [called_eq_find rfl]
  by_cases hzero : v.lookup rootino name = 0
  · rw [if_pos hzero, lookup_eq_zero.mp hzero, Option.map_none]
  · rw [if_neg hzero]
    cases hfind : v.find rootino name with
    | none => exact absurd (lookup_eq_zero.mpr hfind) hzero
    | some k => rw [lookup, hfind, Option.map_some]

/-- A name that all arrays with it are looked up the same as before. -/
theorem called_congr
    (h : ∀ name : Buffer dirsiz, cut name = nm → w.lookup rootino name = v.lookup rootino name) :
    w.called nm = v.called nm := by
  by_cases harray : ∃ name : Buffer dirsiz, cut name = nm
  · obtain ⟨name, rfl⟩ := harray
    rw [called_lookup, called_lookup, h name rfl]
  · have hnone (u : Volume) : u.called nm = none := by
      refine Option.eq_none_iff_forall_ne_some.mpr fun i hi => ?_
      obtain ⟨k, -, -, -, hname⟩ := called_some hi
      exact harray ⟨_, hname⟩
    rw [hnone w, hnone v]

theorem SameDir.called (h : SameDir v w rootino) (hv : v.IsDir rootino) (nm : List UInt8) :
    w.called nm = v.called nm := by
  refine called_congr fun name _ => ?_
  rw [lookup, lookup, h.find hv]
  cases hfind : v.find rootino name with
  | none => rfl
  | some k =>
      simp only
      rw [h.entry hv (find_some hfind).1]

/-- A file has one name. -/
theorem Kept.called_inj (h : v.Kept n lo top) (htree : v.Tree n) (hroot : rootino < n)
    (hi : (v.node i).type ≠ tDir) (hnm : v.called nm = some i) (hnm' : v.called nm' = some i) :
    nm = nm' := by
  obtain ⟨k, hk, hinum, hlive, rfl⟩ := called_some hnm
  obtain ⟨l, hl, hinum', -, rfl⟩ := called_some hnm'
  have hlt : i < n := by
    rw [← hinum]
    exact htree.inums rootino hroot htree.root k hk
  have htyped : (v.node i).type ≠ 0 := by
    rw [← hinum]
    exact h.typed htree rootino hroot htree.root k hk (hinum.symm ▸ hlive)
  have hone := (h.single i hlt htyped).2 hi
  -- the two entries are among those that are counted
  have hle : (v.naming rootino i).card ≤ 1 := by
    rw [← hone]
    exact Finset.single_le_sum (f := fun d => (v.naming d i).card) (fun _ _ => Nat.zero_le _)
      (mem_dirs.mpr ⟨hroot, htree.root⟩)
  have hkl := Finset.card_le_one.mp hle k (mem_naming.mpr ⟨hk, hinum⟩) l (mem_naming.mpr ⟨hl, hinum'⟩)
  rw [hkl]

/-- A free inode has no name. -/
theorem Kept.called_free (h : v.Kept n lo top) (htree : v.Tree n) (hroot : rootino < n)
    (hnm : v.called nm = some i) : (v.node i).type ≠ 0 ∧ i < n := by
  obtain ⟨k, hk, hinum, hlive, -⟩ := called_some hnm
  rw [← hinum] at hlive ⊢
  exact ⟨h.typed htree rootino hroot htree.root k hk hlive,
    htree.inums rootino hroot htree.root k hk⟩

/-! ## Contents -/

theorem contents_same (h : SameDir v w i) (hsize : (v.node i).size.toNat ≤ maxfile * bsize) :
    w.contents i = v.contents i := by
  rw [contents, contents, h.node.2]
  refine bytes_congr fun p _ hp => h.byte p ?_
  omega

/-- The map is the same at a name that leads to an inode that is. -/
theorem files_same (hcalled : w.called nm = v.called nm)
    (hsame : ∀ i, v.called nm = some i → SameDir v w i ∧ (v.node i).size.toNat ≤ maxfile * bsize) :
    w.files nm = v.files nm := by
  rw [files, files, hcalled]
  cases hi : v.called nm with
  | none => rfl
  | some i =>
      obtain ⟨hdir, hsize⟩ := hsame i hi
      rw [Option.bind_some, Option.bind_some, hdir.node.1, contents_same hdir hsize]

theorem files_some {bytes : List UInt8} : v.files nm = some bytes ↔
    ∃ i, v.called nm = some i ∧ (v.node i).type ≠ tDir ∧ v.contents i = bytes := by
  rw [files, Option.bind_eq_some_iff]
  refine exists_congr fun i => and_congr_right fun _ => ?_
  by_cases htype : (v.node i).type = tDir
  · rw [if_pos htype]
    exact iff_of_false (Option.some_ne_none bytes).symm fun h => h.1 htype
  · rw [if_neg htype, Option.some_inj, and_iff_right htype]

/-! ## The three changes -/

/-- A write to a file. -/
theorem files_write (h : v.Kept n lo top) (htree : v.Tree n) (hroot : rootino < n)
    (hi : (v.node i).type ≠ tDir) (hnm : v.called nm = some i)
    (hw : v.WrittenTo w n i off src) (hoff : off ≤ (v.node i).size.toNat)
    (hfit : off + src.length ≤ maxfile * bsize) :
    w.files = Function.update v.files nm (some (splice off src (v.contents i))) := by
  have hne : rootino ≠ i := fun heq => hi (heq ▸ htree.root)
  have hrootDir : v.IsDir rootino := htree.dirs rootino hroot htree.root
  have hcalled (nm' : List UInt8) : w.called nm' = v.called nm' :=
    (hw.sameDir hroot hne).called hrootDir nm'
  obtain ⟨-, hlt⟩ := h.called_free htree hroot hnm
  funext nm'
  by_cases hsame : nm' = nm
  · rw [hsame, Function.update_self]
    refine files_some.mpr ⟨i, (hcalled nm).trans hnm, ?_, ?_⟩
    · rw [(hw.kept i).1]
      exact hi
    · exact (contents_writtenTo hw (htree.sizes i hlt) hoff hfit).2
  · rw [Function.update_of_ne hsame]
    refine files_same (hcalled nm') fun j hj => ?_
    obtain ⟨-, hjlt⟩ := h.called_free htree hroot hj
    have hji : j ≠ i := fun heq =>
      hsame (h.called_inj htree hroot hi (heq ▸ hj) hnm)
    exact ⟨hw.sameDir hjlt hji, htree.sizes j hjlt⟩

/-- What a new entry of the root directory does to the names. -/
theorem Creates.called (h : Creates v w n rootino name i din) (htree : v.Tree n)
    (hroot : rootino < n) (hdistinct : v.Distinct rootino) (hi : i < n) (hn : n ≤ 2 ^ 16) :
    w.called (cut name) = some i ∧ ∀ nm, nm ≠ cut name → w.called nm = v.called nm := by
  have hpos := h.pos
  have hinum : i % 2 ^ 16 = i := Nat.mod_eq_of_lt (by omega)
  have hne := h.ne htree.root
  have hrootDir : v.IsDir rootino := htree.dirs rootino hroot htree.root
  have hsame := sameDir_setNode hne v din
  have hdir := h.dir
  rw [hinum] at hdir
  obtain ⟨-, hnew, hold⟩ := hdir.add (hsame.distinct hrootDir hdistinct)
    (by rw [hsame.entries]; exact freeEntry_le v rootino)
    (fun hlt => by
      rw [hsame.entries] at hlt
      rw [hsame.entry hrootDir hlt]
      exact freeEntry_free hlt) (by omega) (by rw [hsame.find hrootDir]; exact h.absent)
  constructor
  · rw [called_lookup, hnew, if_neg (by omega)]
  · intro nm hnm
    rw [← hsame.called hrootDir nm]
    exact called_congr fun name' hname => hold name' fun heq => hnm (hname.symm.trans heq)

/-- Making a file. -/
theorem files_create (h : Creates v w n rootino name i din) (hv : v.Kept n lo top)
    (htree : v.Tree n) (hroot : rootino < n) (hi : i < n) (hn : n ≤ 2 ^ 16)
    (hempty : din.size = 0) : w.files = Function.update v.files (cut name) (some []) := by
  obtain ⟨hnew, hold⟩ := h.called htree hroot (hv.distinct rootino hroot htree.root) hi hn
  have hne := h.ne htree.root
  have hnode : w.node i = din := by
    rw [h.written.node_of_ne (Ne.symm hne), setNode_node_same]
  funext nm
  by_cases hsame : nm = cut name
  · rw [hsame, Function.update_self]
    refine files_some.mpr ⟨i, hnew, ?_, ?_⟩
    · rw [hnode]
      exact h.file.1
    · rw [contents, hnode, hempty]
      rfl
  · rw [Function.update_of_ne hsame]
    by_cases hself : v.called nm = some rootino
    · -- the directory itself is no file
      have htype : (w.node rootino).type = tDir := by
        rw [(h.written.kept rootino).1, setNode_node_of_ne hne]
        exact htree.root
      rw [files, files, hold nm hsame, hself, Option.bind_some, Option.bind_some, if_pos htype,
        if_pos htree.root]
    · refine files_same (hold nm hsame) fun j hj => ?_
      obtain ⟨htyped, hjlt⟩ := hv.called_free htree hroot hj
      have hji : j ≠ i := fun heq => htyped (heq ▸ h.free)
      have hjr : j ≠ rootino := fun heq => hself (heq ▸ hj)
      exact ⟨(sameDir_setNode hji v din).trans (h.written.sameDir hjlt hjr), htree.sizes j hjlt⟩

/-- What clearing an entry of the root directory does to the names. -/
theorem Removes.called (h : Removes v w n rootino k i) (htree : v.Tree n) (hroot : rootino < n)
    (hdistinct : v.Distinct rootino) :
    w.called (cut (v.entry rootino k).name) = none ∧
      ∀ nm, nm ≠ cut (v.entry rootino k).name → w.called nm = v.called nm := by
  obtain ⟨hk, hinum, hlive⟩ := h.live
  obtain ⟨u, hwritten, hdir, rfl⟩ := h.removed
  have hne := h.ne htree.root
  have hrootDir : v.IsDir rootino := htree.dirs rootino hroot htree.root
  obtain ⟨-, hgone, hold⟩ := hdir.remove hdistinct hk ⟨by rw [hinum]; exact hlive, rfl⟩
  have hsame := (sameDir_dropLink hne u).called hdir.isDir
  constructor
  · rw [hsame, called_lookup, if_pos hgone]
  · intro nm hnm
    rw [hsame]
    exact called_congr fun name' hname => hold name' fun heq => hnm (hname.symm.trans heq)

/-- Taking a name away. -/
theorem files_remove (h : Removes v w n rootino k i) (hv : v.Kept n lo top) (htree : v.Tree n)
    (hroot : rootino < n) :
    w.files = Function.update v.files (cut (v.entry rootino k).name) none := by
  have hdistinct := hv.distinct rootino hroot htree.root
  obtain ⟨hgone, hold⟩ := h.called htree hroot hdistinct
  obtain ⟨hk, hinum, hlive⟩ := h.live
  have hthis : v.called (cut (v.entry rootino k).name) = some i := by
    rw [← hinum] at hlive ⊢
    exact hdistinct.called_entry hk hlive
  have hne := h.ne htree.root
  obtain ⟨u, hwritten, hdir, rfl⟩ := h.removed
  funext nm
  by_cases hsame : nm = cut (v.entry rootino k).name
  · rw [hsame, Function.update_self, files, hgone, Option.bind_none]
  · rw [Function.update_of_ne hsame]
    by_cases hself : v.called nm = some rootino
    · have htype : ((u.dropLink i).node rootino).type = tDir := by
        rw [dropLink_node_of_ne hne, (hwritten.kept rootino).1]
        exact htree.root
      rw [files, files, hold nm hsame, hself, Option.bind_some, Option.bind_some, if_pos htype,
        if_pos htree.root]
    · refine files_same (hold nm hsame) fun j hj => ?_
      obtain ⟨-, hjlt⟩ := hv.called_free htree hroot hj
      have hji : j ≠ i := fun heq =>
        hsame (hv.called_inj htree hroot h.file (heq ▸ hj) hthis)
      have hjr : j ≠ rootino := fun heq => hself (heq ▸ hj)
      exact ⟨(hwritten.sameDir hjlt hjr).trans (sameDir_dropLink hji u), htree.sizes j hjlt⟩

/-! ## The only directory -/

theorem Rooted.write (h : v.Rooted) (htree : v.Tree n) (hroot : rootino < n)
    (hi : (v.node i).type ≠ tDir) (hw : v.WrittenTo w n i off src) : w.Rooted where
  only j hj := by
    rw [(hw.kept j).1] at hj
    exact h.only j hj
  selves nm := by
    have hne : rootino ≠ i := fun heq => hi (heq ▸ htree.root)
    rw [(hw.sameDir hroot hne).called (htree.dirs rootino hroot htree.root)]
    exact h.selves nm

theorem Rooted.create (hv : v.Rooted) (h : Creates v w n rootino name i din) (htree : v.Tree n)
    (hroot : rootino < n) (hdistinct : v.Distinct rootino) (hi : i < n) (hn : n ≤ 2 ^ 16) :
    w.Rooted where
  only j hj := by
    rw [(h.written.kept j).1] at hj
    by_cases hji : j = i
    · rw [hji, setNode_node_same] at hj
      exact absurd hj h.file.1
    · rw [setNode_node_of_ne hji] at hj
      exact hv.only j hj
  selves nm := by
    obtain ⟨hnew, hold⟩ := h.called htree hroot hdistinct hi hn
    by_cases hsame : nm = cut name
    · -- the new name was not there, so it is neither of the two
      have habsent : v.called nm ≠ some rootino := by
        rw [called_eq_find hsame.symm, h.absent]
        exact (Option.some_ne_none _).symm
      refine iff_of_false ?_ (mt (hv.selves nm).mpr habsent)
      rw [hsame, hnew]
      exact fun heq => h.ne htree.root (Option.some.inj heq).symm
    · rw [hold nm hsame]
      exact hv.selves nm

theorem Rooted.remove (hv : v.Rooted) (h : Removes v w n rootino k i) (htree : v.Tree n)
    (hroot : rootino < n) (hdistinct : v.Distinct rootino) : w.Rooted where
  only j hj := hv.only j (h.dir hj)
  selves nm := by
    obtain ⟨hgone, hold⟩ := h.called htree hroot hdistinct
    by_cases hsame : nm = cut (v.entry rootino k).name
    · -- the name that is gone led to a file
      obtain ⟨hk, hinum, hlive⟩ := h.live
      have hthis : v.called nm ≠ some rootino := by
        rw [hsame, hdistinct.called_entry hk (by rw [hinum]; exact hlive), hinum]
        exact fun heq => h.ne htree.root (Option.some.inj heq).symm
      refine iff_of_false ?_ (mt (hv.selves nm).mpr hthis)
      rw [hsame, hgone]
      exact (Option.some_ne_none _).symm
    · rw [hold nm hsame]
      exact hv.selves nm

end

end Volume

end RiscvOs
