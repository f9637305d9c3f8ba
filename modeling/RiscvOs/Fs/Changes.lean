import RiscvOs.Fs.Path
import RiscvOs.Fs.DirMap
import RiscvOs.Fs.Trunc
import RiscvOs.Fs.Ialloc
import Mathlib.Data.List.Find

/-!
# What a system call does to the volume

A call changes the volume in one of three ways: it writes to a file, it makes a file
(`Volume.Creates`), or it takes a file's entry away (`Volume.Removes`).  Each of them keeps
the file system in order (`Volume.Tree`).
-/

namespace RiscvOs

open Effect Bytes Kern

namespace Volume

variable {v w : Volume} {n d i k : ℕ} {din : Dinode} {name : Buffer dirsiz} {off : ℕ}
  {src : List UInt8}

/-! ## Directories that stay the same -/

/-- Directory `d` says the same in both volumes. -/
structure SameDir (v w : Volume) (d : ℕ) : Prop where
  node : (w.node d).type = (v.node d).type ∧ (w.node d).size = (v.node d).size
  byte : ∀ p < maxfile * bsize, w.byte d p = v.byte d p

namespace SameDir

theorem refl (v : Volume) (d : ℕ) : SameDir v v d := ⟨⟨rfl, rfl⟩, fun _ _ => rfl⟩

theorem trans {u : Volume} (h : SameDir v w d) (h' : SameDir w u d) : SameDir v u d :=
  ⟨⟨h'.node.1.trans h.node.1, h'.node.2.trans h.node.2⟩,
    fun p hp => (h'.byte p hp).trans (h.byte p hp)⟩

theorem entries (h : SameDir v w d) : w.entries d = v.entries d := by
  rw [Volume.entries, Volume.entries, h.node.2]

theorem isDir (h : SameDir v w d) (hv : v.IsDir d) : w.IsDir d where
  type := h.node.1.trans hv.type
  even := by rw [h.node.2]; exact hv.even
  size_le := by rw [h.node.2]; exact hv.size_le

theorem entry (h : SameDir v w d) (hv : v.IsDir d) (hk : k < v.entries d) :
    w.entry d k = v.entry d k := by
  have hsize := hv.size_eq
  have hle := hv.size_le
  exact entry_congr fun p hp => h.byte _ (by omega)

theorem find (h : SameDir v w d) (hv : v.IsDir d) (name : Buffer dirsiz) :
    w.find d name = v.find d name := by
  unfold Volume.find
  rw [h.entries]
  refine List.find?_congr fun k hk => decide_eq_decide.mpr ?_
  unfold Names
  rw [h.entry hv (List.mem_range.mp hk)]

theorem freeEntry (h : SameDir v w d) (hv : v.IsDir d) : w.freeEntry d = v.freeEntry d := by
  unfold Volume.freeEntry
  rw [h.entries]
  refine congrArg (Option.getD · _) (List.find?_congr fun k hk => ?_)
  rw [h.entry hv (List.mem_range.mp hk)]

end SameDir

theorem sameDir_setNode (hne : d ≠ i) (v : Volume) (din : Dinode) :
    SameDir v (v.setNode i din) d where
  node := by rw [setNode_node_of_ne hne]; exact ⟨rfl, rfl⟩
  byte _ _ := byte_congr (slot_setNode_of_ne hne) rfl

theorem truncate_node_of_ne (hne : d ≠ i) : (v.truncate i).node d = v.node d :=
  Function.update_of_ne hne ..

theorem slot_truncate_of_ne (hne : d ≠ i) (k : ℕ) : (v.truncate i).slot d k = v.slot d k :=
  slot_congr (v.truncate i) (congrArg Dinode.addrs (truncate_node_of_ne hne)) (fun _ => rfl) k

theorem sameDir_truncate (hne : d ≠ i) (v : Volume) : SameDir v (v.truncate i) d where
  node := by rw [truncate_node_of_ne hne]; exact ⟨rfl, rfl⟩
  byte _ _ := byte_congr (slot_truncate_of_ne hne) rfl

theorem WrittenTo.sameDir (h : v.WrittenTo w n i off src) (hd : d < n) (hne : d ≠ i) :
    SameDir v w d := by
  obtain ⟨u, hu, rfl⟩ := h
  have hsizes := fsSizes
  have hmax : maxfile * bsize = 274432 := by decide
  refine SameDir.trans ⟨?_, fun p hp => hu.byte d hd hne p ?_⟩ (sameDir_setNode hne _ _)
  · rw [hu.node d hne]
    exact ⟨rfl, rfl⟩
  · exact Nat.div_lt_of_lt_mul (by rwa [Nat.mul_comm])

/-- What a write leaves of the node it writes to. -/
theorem WrittenTo.fields (h : v.WrittenTo w n i off src) :
    ∃ addrs size, w.node i = { v.node i with addrs := addrs, size := size } := by
  obtain ⟨u, hu, rfl⟩ := h
  obtain ⟨addrs, hnode⟩ := hu.fields
  refine ⟨addrs, BitVec.ofNat 32 (max (v.node i).size.toNat (off + src.length)), ?_⟩
  rw [setSize, setNode_node_same, hnode]

theorem WrittenTo.node_of_ne (h : v.WrittenTo w n i off src) (hne : d ≠ i) :
    w.node d = v.node d := by
  obtain ⟨u, hu, rfl⟩ := h
  rw [setSize, setNode_node_of_ne hne, hu.node d hne]

/-- A write changes no type and no link count. -/
theorem WrittenTo.kept (h : v.WrittenTo w n i off src) (j : ℕ) :
    (w.node j).type = (v.node j).type ∧ (w.node j).nlink = (v.node j).nlink := by
  by_cases hj : j = i
  · obtain ⟨addrs, size, hnode⟩ := h.fields
    rw [hj, hnode]
    exact ⟨rfl, rfl⟩
  · rw [h.node_of_ne hj]
    exact ⟨rfl, rfl⟩

theorem WrittenTo.slot (h : v.WrittenTo w n i off src) {j l : ℕ} (hj : j < n) (hl : l < nslots)
    (hne : j ≠ i ∨ v.slot j l ≠ 0) : w.slot j l = v.slot j l := by
  obtain ⟨u, hu, rfl⟩ := h
  rw [slot_setSize]
  rcases hne with hne | hne
  · exact hu.other j hj hne l hl
  · exact hu.keep j hj l hl hne

theorem WrittenTo.used (h : v.WrittenTo w n i off src) {c : ℕ} :
    (v.used c = true → w.used c = true) ∧
      (w.used c = true → v.used c = true ∨ w.Holds i c) := by
  obtain ⟨u, hu, rfl⟩ := h
  refine ⟨hu.used c, fun hc => ?_⟩
  rcases hu.new c hc with hold | ⟨hne, l, hl, hslot⟩
  · exact .inl hold
  · exact .inr ⟨hne, l, hl, by rw [slot_setSize]; exact hslot⟩

/-! ## Writing to a file -/

theorem byte_setSize (v : Volume) (i size j p : ℕ) : (v.setSize i size).byte j p = v.byte j p := by
  unfold byte fileAddr
  rw [slot_setSize]
  rfl

theorem setSize_setSize (v : Volume) (i size size' : ℕ) :
    (v.setSize i size).setSize i size' = v.setSize i size' := by
  unfold setSize
  rw [setNode_node_same]
  exact congrArg (Volume.mk · v.used v.block) (Function.update_idem ..)

/-- The size says nothing about what is written. -/
theorem Written.setSize {a b : ℕ} (h : Written (v.setSize i a) w n i off src)
    (hb : BitVec.ofNat 32 b = (v.node i).size) : Written v (w.setSize i b) n i off src where
  node j hj := by
    rw [Volume.setSize, setNode_node_of_ne hj, h.node j hj, Volume.setSize, setNode_node_of_ne hj]
  fields := by
    obtain ⟨addrs, haddrs⟩ := h.fields
    refine ⟨addrs, ?_⟩
    rw [Volume.setSize, setNode_node_same, haddrs, Volume.setSize, setNode_node_same, hb]
  byte j hj hji p hp := by
    rw [byte_setSize, h.byte j hj hji p hp, byte_setSize]
  keep j hj k hk hne := by
    rw [← slot_setSize v i a j k] at hne
    rw [slot_setSize, h.keep j hj k hk hne, slot_setSize]
  other j hj hji k hk := by
    rw [slot_setSize, h.other j hj hji k hk, slot_setSize]
  used c hc := h.used c hc
  new c hc := by
    rcases h.new c hc with hold | ⟨hne, k, hk, hslot⟩
    · exact .inl hold
    · exact .inr ⟨hne, k, hk, by rw [slot_setSize]; exact hslot⟩
  own p hp := by
    have hbyte : (v.setSize i a).byte i = v.byte i := funext fun q => byte_setSize v i a i q
    rw [byte_setSize, h.own p hp, hbyte]

/-- The bytes below the end are there. -/
theorem WrittenTo.size (h : v.WrittenTo w n i off src) (hlong : off + src.length < 2 ^ 32) :
    (w.node i).size.toNat = max (v.node i).size.toNat (off + src.length) := by
  obtain ⟨u, -, rfl⟩ := h
  have hlt : (v.node i).size.toNat < 2 ^ 32 := BitVec.isLt _
  rw [setSize, setNode_node_same, BitVec.toNat_ofNat, Nat.mod_eq_of_lt (by omega)]

/-- Writing on is one write. -/
theorem WrittenTo.append {u : Volume} {src' : List UInt8} (h : v.WrittenTo w n i off src)
    (h' : w.WrittenTo u n i (off + src.length) src') (hi : i < n)
    (hlong : off + src.length + src'.length < 2 ^ 32) : v.WrittenTo u n i off (src ++ src') := by
  have hsize := h.size (by omega)
  obtain ⟨w', hwritten, rfl⟩ := h
  obtain ⟨u', hwritten', rfl⟩ := h'
  have hnode : BitVec.ofNat 32 (v.node i).size.toNat = (w'.node i).size := by
    obtain ⟨addrs, haddrs⟩ := hwritten.fields
    rw [haddrs, BitVec.ofNat_toNat, BitVec.setWidth_eq]
  refine ⟨_, hwritten.append (hwritten'.setSize hnode) hi, ?_⟩
  rw [setSize_setSize, hsize, List.length_append]
  congr 1
  omega

theorem Tree.of_sameDirs (h : v.Tree n) (hroot : (w.node rootino).type = tDir)
    (hdirs : ∀ j < n, (w.node j).type = tDir → SameDir v w j)
    (hsizes : ∀ j < n, (w.node j).size.toNat ≤ maxfile * bsize)
    (hlinked : ∀ j < n, (w.node j).type ≠ 0 → (w.node j).nlink ≠ 0) : w.Tree n where
  root := hroot
  dirs j hj htype := by
    have hsame := hdirs j hj htype
    exact hsame.isDir (h.dirs j hj (hsame.node.1.symm.trans htype))
  inums j hj htype k hk := by
    have hsame := hdirs j hj htype
    have hdir : (v.node j).type = tDir := hsame.node.1.symm.trans htype
    rw [hsame.entries] at hk
    rw [hsame.entry (h.dirs j hj hdir) hk]
    exact h.inums j hj hdir k hk
  sizes := hsizes
  linked := hlinked

/-- A write to a file. -/
theorem Tree.write (h : v.Tree n) (hi : (v.node i).type ≠ tDir) (hlt : i < n)
    (hw : v.WrittenTo w n i off src) (hoff : off ≤ (v.node i).size.toNat)
    (hfit : src ≠ [] → off + src.length ≤ maxfile * bsize) : w.Tree n := by
  refine h.of_sameDirs ((hw.kept _).1.trans h.root) (fun j hj htype => ?_) (fun j hj => ?_)
    fun j hj htype => ?_
  · refine hw.sameDir hj fun hji => hi ?_
    rw [← hji, ← (hw.kept j).1, htype]
  · by_cases hji : j = i
    · obtain ⟨u, hu, rfl⟩ := hw
      have hsize := h.sizes i hlt
      have hmax : maxfile * bsize = 274432 := by decide
      have hle : max (v.node i).size.toNat (off + src.length) ≤ maxfile * bsize := by
        by_cases hsrc : src = []
        · rw [hsrc, List.length_nil]
          omega
        · have hfit' := hfit hsrc
          omega
      rw [hji, setSize, setNode_node_same]
      exact le_trans (Nat.mod_le _ _) hle
    · rw [hw.node_of_ne hji]
      exact h.sizes j hj
  · rw [(hw.kept j).1] at htype
    rw [(hw.kept j).2]
    exact h.linked j hj htype

/-! ## Writing an entry -/

theorem Tree.writeEntry {de : Dirent} (h : v.Tree n) (hd : (v.node d).type = tDir)
    (hw : v.WrittenTo w n d off src) (hdir : v.DirWritten w n d k de) (hk : k ≤ v.entries d)
    (hinum : de.inum < n) (hlt : d < n) : w.Tree n where
  root := (hw.kept _).1.trans h.root
  dirs j hj htype := by
    rw [(hw.kept j).1] at htype
    by_cases hjd : j = d
    · rw [hjd]
      exact hdir.isDir
    · exact (hw.sameDir hj hjd).isDir (h.dirs j hj htype)
  inums j hj htype l hl := by
    rw [(hw.kept j).1] at htype
    by_cases hjd : j = d
    · subst hjd
      by_cases hlk : l = k
      · rw [hlk, hdir.entry]
        exact hinum
      · have hlv : l < v.entries j := ((hdir.other_iff hk hlk).mp hl)
        rw [hdir.other l hlk hl]
        exact h.inums j hj hd l hlv
    · have hsame := hw.sameDir hj hjd
      rw [hsame.entries] at hl
      rw [hsame.entry (h.dirs j hj htype) hl]
      exact h.inums j hj htype l hl
  sizes j hj := by
    by_cases hjd : j = d
    · rw [hjd]
      exact hdir.isDir.size_le
    · rw [hw.node_of_ne hjd]
      exact h.sizes j hj
  linked j hj htype := by
    rw [(hw.kept j).1] at htype
    rw [(hw.kept j).2]
    exact h.linked j hj htype

theorem Tree.setNode (h : v.Tree n) (hi : (v.node i).type ≠ tDir) (htype : din.type ≠ tDir)
    (hsize : din.size.toNat ≤ maxfile * bsize) (hlink : din.type ≠ 0 → din.nlink ≠ 0) :
    (v.setNode i din).Tree n := by
  have hroot : rootino ≠ i := fun heq => hi (heq ▸ h.root)
  refine h.of_sameDirs ?_ (fun j _ hj => ?_) (fun j hj => ?_) fun j hj => ?_
  · rw [setNode_node_of_ne hroot]
    exact h.root
  · refine sameDir_setNode (fun hji => htype ?_) v din
    rwa [hji, setNode_node_same] at hj
  · by_cases hji : j = i
    · rw [hji, setNode_node_same]
      exact hsize
    · rw [setNode_node_of_ne hji]
      exact h.sizes j hj
  · by_cases hji : j = i
    · rw [hji, setNode_node_same]
      exact hlink
    · rw [setNode_node_of_ne hji]
      exact h.linked j hj

theorem Tree.truncate (h : v.Tree n) (hi : (v.node i).type ≠ tDir) : (v.truncate i).Tree n := by
  have hroot : rootino ≠ i := fun heq => hi (heq ▸ h.root)
  refine h.of_sameDirs ?_ (fun j _ hj => ?_) (fun j hj => ?_) fun j hj => ?_
  · rw [truncate_node_of_ne hroot]
    exact h.root
  · refine sameDir_truncate (fun hji => hi ?_) v
    rwa [hji, truncate_node_same] at hj
  · by_cases hji : j = i
    · rw [hji, truncate_node_same]
      exact Nat.zero_le _
    · rw [truncate_node_of_ne hji]
      exact h.sizes j hj
  · by_cases hji : j = i
    · rw [hji, truncate_node_same]
      exact fun htype => h.linked i (hji ▸ hj) htype
    · rw [truncate_node_of_ne hji]
      exact h.linked j hj

/-! ## Making a file -/

/-- Inode `i` becomes a file with an entry in directory `d`. -/
structure Creates (v w : Volume) (n d : ℕ) (name : Buffer dirsiz) (i : ℕ) (din : Dinode) :
    Prop where
  pos : 1 ≤ i
  free : (v.node i).type = 0
  least : ∀ j, 1 ≤ j → j < i → (v.node j).type ≠ 0
  file : din.type ≠ tDir ∧ din.nlink = 1 ∧ din.size.toNat ≤ maxfile * bsize
  absent : v.find d name = none
  written : (v.setNode i din).WrittenTo w n d (16 * v.freeEntry d)
    (Dirent.encode ⟨i % 2 ^ 16, name⟩)
  dir : (v.setNode i din).DirWritten w n d (v.freeEntry d) ⟨i % 2 ^ 16, name⟩

theorem Creates.ne (h : Creates v w n d name i din) (hd : (v.node d).type = tDir) : d ≠ i := by
  intro heq
  have hfree := h.free
  rw [← heq, hd] at hfree
  exact absurd hfree (by decide)

theorem Creates.tree (h : Creates v w n d name i din) (hv : v.Tree n) (hi : i < n) (hd : d < n)
    (htype : (v.node d).type = tDir) : w.Tree n := by
  have hne := h.ne htype
  have hfree : (v.node i).type ≠ tDir := by
    rw [h.free]
    decide
  have hmid : (v.setNode i din).Tree n :=
    hv.setNode hfree h.file.1 h.file.2.2 fun _ => by rw [h.file.2.1]; decide
  have hsame := sameDir_setNode hne v din
  refine hmid.writeEntry (hsame.node.1.trans htype) h.written h.dir ?_
    (lt_of_le_of_lt (Nat.mod_le _ _) hi) hd
  rw [hsame.entries]
  exact freeEntry_le v d

/-! ## Taking an entry away -/

/-- Inode `i` loses a link, and is freed when it was the last one. -/
def dropLink (v : Volume) (i : ℕ) : Volume :=
  let w := v.setNode i { v.node i with nlink := (v.node i).nlink - 1 }
  if (v.node i).nlink - 1 = 0 then
    (w.truncate i).setNode i { (w.truncate i).node i with type := 0 }
  else w

theorem dropLink_node_of_ne (hne : d ≠ i) : (v.dropLink i).node d = v.node d := by
  unfold dropLink
  simp only
  split
  · rw [setNode_node_of_ne hne, truncate_node_of_ne hne, setNode_node_of_ne hne]
  · rw [setNode_node_of_ne hne]

theorem Tree.dropLink (h : v.Tree n) (hi : (v.node i).type ≠ tDir) (hlt : i < n) :
    (v.dropLink i).Tree n := by
  unfold Volume.dropLink
  simp only
  split
  · rename_i hzero
    -- the inode is not linked, so the volume is in order again only when it is free
    have hroot : rootino ≠ i := fun heq => hi (heq ▸ h.root)
    refine h.of_sameDirs ?_ (fun j _ hj => ?_) (fun j hj => ?_) fun j hj => ?_
    · rw [setNode_node_of_ne hroot, truncate_node_of_ne hroot, setNode_node_of_ne hroot]
      exact h.root
    · by_cases hji : j = i
      · rw [hji, setNode_node_same] at hj
        exact absurd hj (by decide : ¬ (0 : BitVec 16) = tDir)
      · exact ((sameDir_setNode hji v _).trans (sameDir_truncate hji _)).trans
          (sameDir_setNode hji _ _)
    · by_cases hji : j = i
      · rw [hji, setNode_node_same, truncate_node_same]
        exact Nat.zero_le _
      · rw [setNode_node_of_ne hji, truncate_node_of_ne hji, setNode_node_of_ne hji]
        exact h.sizes j hj
    · by_cases hji : j = i
      · rw [hji, setNode_node_same]
        exact fun htype => absurd rfl htype
      · rw [setNode_node_of_ne hji, truncate_node_of_ne hji, setNode_node_of_ne hji]
        exact h.linked j hj
  · rename_i hlink
    exact h.setNode hi hi (h.sizes i hlt) fun _ => hlink

/-- Entry `k` of directory `d` no longer names inode `i`. -/
structure Removes (v w : Volume) (n d k i : ℕ) : Prop where
  live : k < v.entries d ∧ (v.entry d k).inum = i ∧ i ≠ 0
  file : (v.node i).type ≠ tDir
  linked : 1 ≤ (v.node i).nlink.toInt
  removed : ∃ u, v.WrittenTo u n d (16 * k) (Dirent.encode ⟨0, Buffer.zero⟩) ∧
    v.DirWritten u n d k ⟨0, Buffer.zero⟩ ∧ w = u.dropLink i

theorem Removes.ne (h : Removes v w n d k i) (hd : (v.node d).type = tDir) : d ≠ i :=
  fun heq => h.file (heq ▸ hd)

theorem Removes.tree (h : Removes v w n d k i) (hv : v.Tree n) (hi : i < n) (hd : d < n)
    (htype : (v.node d).type = tDir) : w.Tree n := by
  obtain ⟨u, hu, hdir, rfl⟩ := h.removed
  have hmid := hv.writeEntry htype hu hdir h.live.1.le (Nat.zero_lt_of_lt hi) hd
  exact hmid.dropLink (by rw [(hu.kept i).1]; exact h.file) hi

end Volume

end RiscvOs
