import RiscvOs.Fs.Tx
import RiscvOs.Fs.Volume

/-!
# The volume of a session

A session stands for a volume: an inode is what its slot of the inode cache holds if it has
been read in, and what its inode block holds otherwise.  Each of the few ways the code
changes a session, by writing a block or by assigning to a slot, is a change of the volume
or none.
-/

namespace RiscvOs

open Bytes

/-! ## The layout -/

/-- The first data block. -/
def Superblock.datastart (sb : Superblock) : ℕ := sb.size - sb.nblocks

/-- The areas of the disk follow each other, the log is where the superblock says, and the
bitmap is one block. -/
structure Superblock.WellFormed (sb : Superblock) (log : Log) : Prop where
  start : log.start = sb.logstart
  length : log.size = sb.nlog
  logEnd : sb.logstart + sb.nlog ≤ sb.inodestart
  inodeEnd : sb.inodestart + (sb.ninodes - 1) / ipb < sb.bmapstart
  bitmapEnd : sb.bmapstart < sb.datastart
  dataEnd : sb.datastart ≤ sb.size
  size_le : sb.size ≤ bpb
  root : rootino < sb.ninodes

/-- Block `b` is a data block. -/
def Superblock.IsData (sb : Superblock) (b : ℕ) : Prop := sb.datastart ≤ b ∧ b < sb.size

instance (sb : Superblock) (b : ℕ) : Decidable (sb.IsData b) := inferInstanceAs (Decidable (_ ∧ _))

namespace Superblock.WellFormed

variable {sb : Superblock} {log : Log} {i b : ℕ}

theorem congr (h : sb.WellFormed log) {log' : Log} (hlog : log.SameArea log') :
    sb.WellFormed log' :=
  { h with
    start := hlog.start.trans h.start
    length := hlog.size.trans h.length }

theorem inodestart_lt (h : sb.WellFormed log) : sb.inodestart < sb.bmapstart :=
  lt_of_le_of_lt (Nat.le_add_right _ _) h.inodeEnd

theorem iblock_eq (h : sb.WellFormed log) (hi : i < sb.ninodes) :
    sb.iblock i = i / 16 + sb.inodestart := by
  have hsizes := fsSizes
  have hend : sb.inodestart + (sb.ninodes - 1) / 16 < sb.bmapstart := h.inodeEnd
  have hbitmap := h.bitmapEnd
  have hdata := h.dataEnd
  have hsize := h.size_le
  have hlt : i / 16 + sb.inodestart < 2 ^ 32 := by omega
  exact u32_natCast hlt

theorem bblock_eq (h : sb.WellFormed log) (hb : b < bpb) : sb.bblock b = sb.bmapstart := by
  have hsizes := fsSizes
  have hbitmap := h.bitmapEnd
  have hdata := h.dataEnd
  have hsize := h.size_le
  have hzero : b / bpb = 0 := Nat.div_eq_of_lt hb
  rw [Superblock.bblock, hzero, Nat.zero_add]
  exact u32_natCast (by omega)

theorem iblock_lt (h : sb.WellFormed log) (hi : i < sb.ninodes) : sb.iblock i < sb.bmapstart := by
  have hend : sb.inodestart + (sb.ninodes - 1) / 16 < sb.bmapstart := h.inodeEnd
  rw [h.iblock_eq hi]
  omega

theorem iblock_inj (h : sb.WellFormed log) (hi : i < sb.ninodes) {j : ℕ} (hj : j < sb.ninodes)
    (heq : sb.iblock i = sb.iblock j) (hmod : i % ipb = j % ipb) : i = j := by
  have hmod' : i % 16 = j % 16 := hmod
  rw [h.iblock_eq hi, h.iblock_eq hj] at heq
  omega

theorem lt_of_le_size (h : sb.WellFormed log) (hb : b ≤ sb.size) : b < 2 ^ 31 := by
  have hsizes := fsSizes
  have hsize := h.size_le
  omega

theorem not_area (h : sb.WellFormed log) (hb : sb.inodestart ≤ b) : ¬ log.Area b := by
  have hstart := h.start
  have hlength := h.length
  have hend := h.logEnd
  rintro ⟨-, hlt⟩
  omega

theorem iblock_ok (h : sb.WellFormed log) (hi : i < sb.ninodes) :
    sb.iblock i < 2 ^ 31 ∧ ¬ log.Area (sb.iblock i) := by
  have hlt := h.iblock_lt hi
  have hbitmap := h.bitmapEnd
  have hdata := h.dataEnd
  refine ⟨h.lt_of_le_size (by omega), h.not_area ?_⟩
  rw [h.iblock_eq hi]
  omega

theorem bitmap_ok (h : sb.WellFormed log) : sb.bblock 0 < 2 ^ 31 ∧ ¬ log.Area (sb.bblock 0) := by
  have hsizes := fsSizes
  have hend := h.inodestart_lt
  have hbitmap := h.bitmapEnd
  have hdata := h.dataEnd
  rw [h.bblock_eq (by omega)]
  exact ⟨h.lt_of_le_size (by omega), h.not_area (by omega)⟩

theorem data_ok (h : sb.WellFormed log) (hb : sb.IsData b) : b < 2 ^ 31 ∧ ¬ log.Area b := by
  obtain ⟨hlo, hlt⟩ := hb
  have hend := h.inodestart_lt
  have hbitmap := h.bitmapEnd
  exact ⟨h.lt_of_le_size hlt.le, h.not_area (by omega)⟩

theorem iblock_ne_bitmap (h : sb.WellFormed log) (hi : i < sb.ninodes) :
    sb.iblock i ≠ sb.bblock 0 := by
  have hsizes := fsSizes
  have hlt := h.iblock_lt hi
  rw [h.bblock_eq (by omega)]
  omega

theorem iblock_not_data (h : sb.WellFormed log) (hi : i < sb.ninodes) :
    ¬ sb.IsData (sb.iblock i) := by
  have hlt := h.iblock_lt hi
  have hbitmap := h.bitmapEnd
  rintro ⟨hlo, -⟩
  omega

theorem bitmap_not_data (h : sb.WellFormed log) : ¬ sb.IsData (sb.bblock 0) := by
  have hsizes := fsSizes
  have hbitmap := h.bitmapEnd
  rw [h.bblock_eq (by omega)]
  rintro ⟨hlo, -⟩
  omega

end Superblock.WellFormed

/-! ## The inode cache -/

/-- The slots in use are for different inodes of the one device. -/
structure Mem.Icache (m : Mem) : Prop where
  unique : ∀ ip jp, 0 < (m.inode ip).ref → 0 < (m.inode jp).ref →
    (m.inode ip).inum = (m.inode jp).inum → ip = jp
  dev : ∀ ip, 0 < (m.inode ip).ref → (m.inode ip).dev = rootdev
  inum_lt : ∀ ip, 0 < (m.inode ip).ref → (m.inode ip).inum < m.sb.ninodes
  nonneg : ∀ ip, 0 ≤ (m.inode ip).ref

/-- The slot is in use and has been read in. -/
def Inode.Loaded (i : Inode) : Prop := 0 < i.ref ∧ i.valid = true

instance (i : Inode) : Decidable i.Loaded := inferInstanceAs (Decidable (_ ∧ _))

/-- The slot that holds the fields of an inode. -/
def Mem.loaded (m : Mem) (i : ℕ) : Option (Fin ninode) :=
  (List.finRange ninode).find? fun ip => (m.inode ip).Loaded ∧ (m.inode ip).inum = i

section
variable {m : Mem} {ip : Fin ninode} {i : ℕ}

theorem Mem.Icache.loaded_iff (h : m.Icache) :
    m.loaded i = some ip ↔ (m.inode ip).Loaded ∧ (m.inode ip).inum = i := by
  constructor
  · intro hfind
    simpa using List.find?_some hfind
  · rintro ⟨hloaded, hinum⟩
    cases hfind : m.loaded i with
    | none =>
        have hnone := List.find?_eq_none.mp hfind ip (List.mem_finRange ip)
        simp [hloaded, hinum] at hnone
    | some jp =>
        have hjp : (m.inode jp).Loaded ∧ (m.inode jp).inum = i := by
          simpa using List.find?_some hfind
        rw [h.unique jp ip hjp.1.1 hloaded.1 (hjp.2.trans hinum.symm)]

theorem Mem.loaded_none : m.loaded i = none ↔ ∀ ip, (m.inode ip).Loaded → (m.inode ip).inum ≠ i := by
  simp [Mem.loaded, List.find?_eq_none]

@[simp] theorem Mem.setInode_same (m : Mem) (ip : Fin ninode) (f : Inode → Inode) :
    (m.setInode ip f).inode ip = f (m.inode ip) := Function.update_self ..

theorem Mem.setInode_of_ne {jp : Fin ninode} (f : Inode → Inode) (h : jp ≠ ip) :
    (m.setInode ip f).inode jp = m.inode jp := Function.update_of_ne h ..

@[simp] theorem Mem.setInode_log (m : Mem) (ip : Fin ninode) (f : Inode → Inode) :
    (m.setInode ip f).log = m.log := rfl

@[simp] theorem Mem.setInode_sb (m : Mem) (ip : Fin ninode) (f : Inode → Inode) :
    (m.setInode ip f).sb = m.sb := rfl

theorem Mem.Icache.setInode (h : m.Icache) {f : Inode → Inode}
    (hnonneg : 0 ≤ (f (m.inode ip)).ref)
    (hslot : 0 < (f (m.inode ip)).ref → (f (m.inode ip)).dev = rootdev ∧
      (f (m.inode ip)).inum < m.sb.ninodes ∧
      ∀ jp, jp ≠ ip → 0 < (m.inode jp).ref → (m.inode jp).inum ≠ (f (m.inode ip)).inum) :
    (m.setInode ip f).Icache where
  unique jp kp hjp hkp heq := by
    by_cases hj : jp = ip
    · by_cases hk : kp = ip
      · rw [hj, hk]
      · subst hj
        rw [setInode_same] at hjp heq
        rw [setInode_of_ne f hk] at hkp heq
        exact absurd heq.symm ((hslot hjp).2.2 kp hk hkp)
    · rw [setInode_of_ne f hj] at hjp heq
      by_cases hk : kp = ip
      · subst hk
        rw [setInode_same] at hkp heq
        exact absurd heq ((hslot hkp).2.2 jp hj hjp)
      · rw [setInode_of_ne f hk] at hkp heq
        exact h.unique jp kp hjp hkp heq
  dev jp hjp := by
    by_cases hj : jp = ip
    · subst hj
      rw [setInode_same] at hjp ⊢
      exact (hslot hjp).1
    · rw [setInode_of_ne f hj] at hjp ⊢
      exact h.dev jp hjp
  inum_lt jp hjp := by
    by_cases hj : jp = ip
    · subst hj
      rw [setInode_same] at hjp ⊢
      exact (hslot hjp).2.1
    · rw [setInode_of_ne f hj] at hjp ⊢
      exact h.inum_lt jp hjp
  nonneg jp := by
    by_cases hj : jp = ip
    · subst hj
      rw [setInode_same]
      exact hnonneg
    · rw [setInode_of_ne f hj]
      exact h.nonneg jp

/-- The slot stays with its inode. -/
theorem Mem.Icache.setInode_same (h : m.Icache) {f : Inode → Inode} (hip : 0 < (m.inode ip).ref)
    (hnonneg : 0 ≤ (f (m.inode ip)).ref) (hdev : (f (m.inode ip)).dev = (m.inode ip).dev)
    (hinum : (f (m.inode ip)).inum = (m.inode ip).inum) : (m.setInode ip f).Icache := by
  refine h.setInode hnonneg fun _ => ⟨hdev.trans (h.dev ip hip), ?_, fun jp hjp href heq => hjp ?_⟩
  · rw [hinum]
    exact h.inum_lt ip hip
  · exact h.unique jp ip href hip (heq.trans hinum)

end

/-! ## The volume -/

namespace Session

variable (x : Session)

/-- An inode on disk. -/
def diskNode (i : ℕ) : Dinode := Dinode.decode (x.store (x.mem.sb.iblock i)) (i % ipb)

/-- An inode: what its slot holds, or what is on disk. -/
def node (i : ℕ) : Dinode :=
  if i < x.mem.sb.ninodes then
    match x.mem.loaded i with
    | some ip => (x.mem.inode ip).din
    | none => x.diskNode i
  else {}

/-- What the session stands for. -/
def volume : Volume where
  node := x.node
  used := bitmapBit (x.store (x.mem.sb.bblock 0))
  block b := if x.mem.sb.IsData b then x.store b else Buffer.zero

/-- The inodes on disk are those of the volume, but for those in `stale`. -/
def Synced (stale : Set ℕ) : Prop :=
  ∀ i < x.mem.sb.ninodes, i ∉ stale → x.diskNode i = x.node i

section
variable {x} {ip : Fin ninode} {i b : ℕ} {m : Mem} {f : Inode → Inode}

theorem node_loaded (h : x.mem.Icache) (hip : (x.mem.inode ip).Loaded) :
    x.node (x.mem.inode ip).inum = (x.mem.inode ip).din := by
  have hfind : x.mem.loaded (x.mem.inode ip).inum = some ip := h.loaded_iff.mpr ⟨hip, rfl⟩
  rw [node, if_pos (h.inum_lt ip hip.1), hfind]

theorem node_disk (hi : i < x.mem.sb.ninodes)
    (hnone : ∀ ip, (x.mem.inode ip).Loaded → (x.mem.inode ip).inum ≠ i) :
    x.node i = x.diskNode i := by
  rw [node, if_pos hi, Mem.loaded_none.mpr hnone]

/-! ## Assigning to a slot -/

/-- What inode `i` is after an assignment to a slot. -/
theorem node_setInode (h : x.mem.Icache) (h' : (x.mem.setInode ip f).Icache)
    (hi : i < x.mem.sb.ninodes) :
    (x.withMem (x.mem.setInode ip f)).node i =
      if (f (x.mem.inode ip)).Loaded ∧ (f (x.mem.inode ip)).inum = i then (f (x.mem.inode ip)).din
      else if (x.mem.inode ip).Loaded ∧ (x.mem.inode ip).inum = i then x.diskNode i
      else x.node i := by
  have hsame : (x.withMem (x.mem.setInode ip f)).mem.inode ip = f (x.mem.inode ip) :=
    Mem.setInode_same ..
  have hother : ∀ {jp}, jp ≠ ip →
      (x.withMem (x.mem.setInode ip f)).mem.inode jp = x.mem.inode jp :=
    fun hjp => Mem.setInode_of_ne f hjp
  by_cases hnew : (f (x.mem.inode ip)).Loaded ∧ (f (x.mem.inode ip)).inum = i
  · rw [if_pos hnew, ← hsame, ← hnew.2, ← hsame]
    exact node_loaded h' (by rw [hsame]; exact hnew.1)
  · rw [if_neg hnew]
    by_cases hold : (x.mem.inode ip).Loaded ∧ (x.mem.inode ip).inum = i
    · rw [if_pos hold]
      refine node_disk hi fun jp hjp heq => ?_
      by_cases hj : jp = ip
      · subst hj
        rw [hsame] at hjp heq
        exact hnew ⟨hjp, heq⟩
      · rw [hother hj] at hjp heq
        exact hj (h.unique jp ip hjp.1 hold.1.1 (heq.trans hold.2.symm))
    · rw [if_neg hold]
      by_cases hloaded : ∃ jp, (x.mem.inode jp).Loaded ∧ (x.mem.inode jp).inum = i
      · obtain ⟨jp, hjp, rfl⟩ := hloaded
        have hj : jp ≠ ip := by
          rintro rfl
          exact hold ⟨hjp, rfl⟩
        rw [node_loaded h hjp, ← hother hj]
        exact node_loaded h' (by rw [hother hj]; exact hjp)
      · push Not at hloaded
        rw [node_disk hi hloaded]
        refine node_disk hi fun jp hjp heq => ?_
        by_cases hj : jp = ip
        · subst hj
          rw [hsame] at hjp heq
          exact hnew ⟨hjp, heq⟩
        · rw [hother hj] at hjp heq
          exact hloaded jp hjp heq

theorem node_of_le (hi : x.mem.sb.ninodes ≤ i) : x.node i = {} := by
  rw [node, if_neg (not_lt.mpr hi)]

/-- Two sessions with the same blocks stand for the same volume if their inodes are the same. -/
theorem volume_withMem (hsb : m.sb = x.mem.sb) {v : Volume} (hused : v.used = x.volume.used)
    (hblock : v.block = x.volume.block)
    (hnode : ∀ i, (x.withMem m).node i = v.node i) : (x.withMem m).volume = v := by
  obtain ⟨node, used, block⟩ := v
  have hnode' : (x.withMem m).node = node := funext hnode
  have hblocks : (x.withMem m).volume.block = x.volume.block ∧
      (x.withMem m).volume.used = x.volume.used := by
    simp only [volume, withMem_view, View.withMem_mem, View.withMem_store, hsb, and_self]
  have hused' : (x.withMem m).volume.used = used := hblocks.2.trans hused.symm
  have hblock' : (x.withMem m).volume.block = block := hblocks.1.trans hblock.symm
  rw [← hnode', ← hused', ← hblock']
  rfl

/-- An assignment to a slot in use changes its inode. -/
theorem volume_update (h : x.mem.Icache) (hip : (x.mem.inode ip).Loaded)
    (hloaded : (f (x.mem.inode ip)).Loaded) (hdev : (f (x.mem.inode ip)).dev = rootdev)
    (hinum : (f (x.mem.inode ip)).inum = (x.mem.inode ip).inum) :
    (x.mem.setInode ip f).Icache ∧ (x.withMem (x.mem.setInode ip f)).volume =
      x.volume.setNode (x.mem.inode ip).inum (f (x.mem.inode ip)).din := by
  have h' := h.setInode_same hip.1 (le_of_lt hloaded.1)
    (hdev.trans (h.dev ip hip.1).symm) hinum
  refine ⟨h', volume_withMem (Mem.setInode_sb ..) rfl rfl fun i => ?_⟩
  by_cases hi : i < x.mem.sb.ninodes
  · rw [node_setInode h h' hi, hinum]
    by_cases heq : (x.mem.inode ip).inum = i
    · subst heq
      rw [if_pos ⟨hloaded, rfl⟩, Volume.setNode_node_same]
    · rw [if_neg fun hand => heq hand.2, if_neg fun hand => heq hand.2,
        Volume.setNode_node_of_ne (Ne.symm heq)]
      rfl
  · have hlt := h.inum_lt ip hip.1
    have hle : (x.withMem (x.mem.setInode ip f)).mem.sb.ninodes ≤ i := not_lt.mp hi
    rw [node_of_le hle, Volume.setNode_node_of_ne (by omega)]
    exact (node_of_le (not_lt.mp hi)).symm

/-- An assignment to a slot that leaves what is known of its inode. -/
theorem volume_same (h : x.mem.Icache) (h' : (x.mem.setInode ip f).Icache)
    (hnew : (f (x.mem.inode ip)).Loaded → (f (x.mem.inode ip)).inum < x.mem.sb.ninodes →
      (f (x.mem.inode ip)).din = x.node (f (x.mem.inode ip)).inum)
    (hold : (x.mem.inode ip).Loaded → ¬ ((f (x.mem.inode ip)).Loaded ∧
      (f (x.mem.inode ip)).inum = (x.mem.inode ip).inum) →
      x.diskNode (x.mem.inode ip).inum = x.node (x.mem.inode ip).inum) :
    (x.withMem (x.mem.setInode ip f)).volume = x.volume := by
  refine volume_withMem (Mem.setInode_sb ..) rfl rfl fun i => ?_
  change _ = x.node i
  by_cases hi : i < x.mem.sb.ninodes
  · rw [node_setInode h h' hi]
    by_cases hloaded : (f (x.mem.inode ip)).Loaded ∧ (f (x.mem.inode ip)).inum = i
    · rw [if_pos hloaded]
      obtain ⟨hl, rfl⟩ := hloaded
      exact hnew hl hi
    · rw [if_neg hloaded]
      by_cases hwas : (x.mem.inode ip).Loaded ∧ (x.mem.inode ip).inum = i
      · rw [if_pos hwas]
        obtain ⟨hl, rfl⟩ := hwas
        exact hold hl hloaded
      · rw [if_neg hwas]
  · have hle : (x.withMem (x.mem.setInode ip f)).mem.sb.ninodes ≤ i := not_lt.mp hi
    rw [node_of_le hle, node_of_le (not_lt.mp hi)]

/-! ## Writing a block -/

variable {d : Block} {din : Dinode} {j : ℕ}

theorem diskNode_write_of_ne (h : x.mem.sb.iblock i ≠ b) :
    (x.write b d).diskNode i = x.diskNode i := by
  have hstore : (x.write b d).store (x.mem.sb.iblock i) = x.store (x.mem.sb.iblock i) :=
    write_store_of_ne h
  unfold diskNode
  rw [← hstore]
  rfl

/-- Store an inode in its block. -/
def writeNode (x : Session) (i : ℕ) (din : Dinode) : Session :=
  x.write (x.mem.sb.iblock i) (din.store (x.store (x.mem.sb.iblock i)) (i % ipb))

/-- Storing an inode changes that inode on disk. -/
theorem diskNode_writeNode (h : x.mem.sb.WellFormed x.mem.log) (hi : i < x.mem.sb.ninodes)
    (hj : j < x.mem.sb.ninodes) :
    (x.writeNode i din).diskNode j = if j = i then din else x.diskNode j := by
  have hmod : i % ipb < ipb := Nat.mod_lt _ (by decide)
  by_cases hblock : x.mem.sb.iblock j = x.mem.sb.iblock i
  · have hstore : (x.writeNode i din).store (x.mem.sb.iblock j) =
        din.store (x.store (x.mem.sb.iblock i)) (i % ipb) := by
      rw [hblock]
      exact write_store_same ..
    have hread : (x.writeNode i din).diskNode j =
        Dinode.decode (din.store (x.store (x.mem.sb.iblock i)) (i % ipb)) (j % ipb) := by
      rw [← hstore]
      rfl
    rw [hread]
    by_cases hji : j = i
    · rw [if_pos hji, hji, Dinode.decode_store_same _ hmod]
    · have hne : j % ipb ≠ i % ipb := fun heq => hji (h.iblock_inj hj hi hblock heq)
      rw [if_neg hji, Dinode.decode_store_of_ne _ hne, diskNode, hblock]
  · have hji : j ≠ i := fun heq => hblock (heq ▸ rfl)
    rw [if_neg hji]
    exact diskNode_write_of_ne hblock

/-- The inodes of a session whose static data is as before but for the log. -/
theorem node_congr {y : Session} (hsb : y.mem.sb = x.mem.sb) (hinode : y.mem.inode = x.mem.inode)
    (hdisk : i < x.mem.sb.ninodes → (∀ ip, (x.mem.inode ip).Loaded → (x.mem.inode ip).inum ≠ i) →
      y.diskNode i = x.diskNode i) : y.node i = x.node i := by
  have hfind : y.mem.loaded i = x.mem.loaded i := by rw [Mem.loaded, Mem.loaded, hinode]
  unfold node
  rw [hsb, hfind, hinode]
  by_cases hi : i < x.mem.sb.ninodes
  · rw [if_pos hi, if_pos hi]
    cases hload : x.mem.loaded i with
    | some ip => rfl
    | none => exact hdisk hi (Mem.loaded_none.mp hload)
  · rw [if_neg hi, if_neg hi]

theorem used_write_of_ne (hne : x.mem.sb.bblock 0 ≠ b) :
    (x.write b d).volume.used = x.volume.used := by
  have hstore : (x.write b d).store (x.mem.sb.bblock 0) = x.store (x.mem.sb.bblock 0) :=
    write_store_of_ne hne
  change bitmapBit ((x.write b d).store (x.mem.sb.bblock 0)) = _
  rw [hstore]
  rfl

theorem block_write_of_not_data (hb : ¬ x.mem.sb.IsData b) :
    (x.write b d).volume.block = x.volume.block := by
  funext c
  change (if x.mem.sb.IsData c then (x.write b d).store c else Buffer.zero) =
    if x.mem.sb.IsData c then x.store c else Buffer.zero
  by_cases hc : x.mem.sb.IsData c
  · have hne : c ≠ b := fun heq => hb (heq ▸ hc)
    rw [if_pos hc, if_pos hc, write_store_of_ne hne]
  · rw [if_neg hc, if_neg hc]

theorem block_write (hb : x.mem.sb.IsData b) :
    (x.write b d).volume.block = Function.update x.volume.block b d := by
  funext c
  change (if x.mem.sb.IsData c then (x.write b d).store c else Buffer.zero) = _
  by_cases heq : c = b
  · rw [heq, if_pos hb, write_store_same, Function.update_self]
  · rw [write_store_of_ne heq, Function.update_of_ne heq]
    rfl

theorem volume_ext {v w : Volume} (hnode : ∀ i, v.node i = w.node i) (hused : v.used = w.used)
    (hblock : v.block = w.block) : v = w := by
  obtain ⟨node, used, block⟩ := v
  obtain ⟨node', used', block'⟩ := w
  have hnodes : node = node' := funext hnode
  cases hnodes
  cases hused
  cases hblock
  rfl

theorem volume_write_data (h : x.mem.sb.WellFormed x.mem.log) (hb : x.mem.sb.IsData b) :
    (x.write b d).volume = x.volume.setBlock b d := by
  refine volume_ext (fun i => ?_) (used_write_of_ne fun heq => ?_) (block_write hb)
  · refine node_congr rfl rfl fun hi _ => diskNode_write_of_ne fun heq => ?_
    exact h.iblock_not_data hi (heq ▸ hb)
  · exact h.bitmap_not_data (heq ▸ hb)

/-- Changing one bit of the bitmap. -/
theorem volume_write_bitmap (h : x.mem.sb.WellFormed x.mem.log) {flag : Bool}
    (hbit : ∀ c, bitmapBit d c = Function.update x.volume.used b flag c) :
    (x.write (x.mem.sb.bblock 0) d).volume = x.volume.setUsed b flag := by
  refine volume_ext (fun i => ?_) (funext fun c => ?_) (block_write_of_not_data h.bitmap_not_data)
  · exact node_congr rfl rfl fun hi _ => diskNode_write_of_ne (h.iblock_ne_bitmap hi)
  · change bitmapBit ((x.write (x.mem.sb.bblock 0) d).store (x.mem.sb.bblock 0)) c = _
    rw [write_store_same, hbit]
    rfl

theorem volume_setBit (h : x.mem.sb.WellFormed x.mem.log) (hb : b < bpb) :
    (x.write (x.mem.sb.bblock 0)
      (setBitmapBit (x.store (x.mem.sb.bblock 0)) b)).volume = x.volume.setUsed b true := by
  refine volume_write_bitmap h fun c => ?_
  rw [bitmapBit_set _ hb]
  by_cases heq : c = b
  · rw [heq, Function.update_self, decide_eq_true rfl, Bool.or_true]
  · rw [Function.update_of_ne heq, decide_eq_false (Ne.symm heq), Bool.or_false]
    rfl

theorem volume_clearBit (h : x.mem.sb.WellFormed x.mem.log) (hb : b < bpb) :
    (x.write (x.mem.sb.bblock 0)
      (clearBitmapBit (x.store (x.mem.sb.bblock 0)) b)).volume = x.volume.setUsed b false := by
  refine volume_write_bitmap h fun c => ?_
  rw [bitmapBit_clear _ hb]
  by_cases heq : c = b
  · rw [heq, Function.update_self, decide_eq_false (not_not.mpr rfl), Bool.and_false]
  · rw [Function.update_of_ne heq, decide_eq_true (Ne.symm heq), Bool.and_true]
    rfl

/-- Storing an inode: what a slot holds hides what is on disk. -/
theorem volume_writeNode (h : x.mem.sb.WellFormed x.mem.log) (hi : i < x.mem.sb.ninodes)
    (hnode : (∀ ip, (x.mem.inode ip).Loaded → (x.mem.inode ip).inum ≠ i) → din = x.node i) :
    (x.writeNode i din).volume = x.volume := by
  refine volume_ext (fun j => ?_) (used_write_of_ne (h.iblock_ne_bitmap hi).symm)
    (block_write_of_not_data (h.iblock_not_data hi))
  refine node_congr rfl rfl fun hj hnone => ?_
  rw [diskNode_writeNode h hi hj]
  by_cases hji : j = i
  · rw [if_pos hji, hnode (hji ▸ hnone), ← node_disk hj hnone, hji]
  · rw [if_neg hji]

/-- Storing an inode that is in no slot. -/
theorem volume_writeNode_new (h : x.mem.sb.WellFormed x.mem.log) (hi : i < x.mem.sb.ninodes)
    (hnone : ∀ ip, (x.mem.inode ip).Loaded → (x.mem.inode ip).inum ≠ i) :
    (x.writeNode i din).volume = x.volume.setNode i din := by
  refine volume_ext (fun j => ?_) (used_write_of_ne (h.iblock_ne_bitmap hi).symm)
    (block_write_of_not_data (h.iblock_not_data hi))
  by_cases hji : j = i
  · have hdisk := node_disk (x := x.writeNode i din) hi hnone
    rw [diskNode_writeNode h hi hi, if_pos rfl] at hdisk
    rw [hji, Volume.setNode_node_same]
    exact hdisk
  · rw [Volume.setNode_node_of_ne hji]
    refine node_congr rfl rfl fun hj _ => ?_
    rw [diskNode_writeNode h hi hj, if_neg hji]

end

end Session

/-! ## A sound file system -/

/-- The layout is well formed, the slots are for different inodes, and no block is held
twice. -/
structure Session.Sound (x : Session) : Prop where
  wf : x.mem.sb.WellFormed x.mem.log
  icache : x.mem.Icache
  owned : x.volume.Owned x.mem.sb.ninodes x.mem.sb.datastart x.mem.sb.size

end RiscvOs
