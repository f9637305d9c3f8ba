import Mathlib.Order.Interval.Finset.Nat
import RiscvOs.Fs.Layout

/-!
# Which inode a block belongs to

A `Volume` is what the inodes, the bitmap and the data blocks say.  The addresses an
inode holds are numbered: first its direct addresses, then the address of its indirect
block, then the entries of that block (`Volume.slot`).

`Volume.Owned` says that no address is held twice, and that what is held is a data block
marked as used.  It is kept by the ways the file system changes a volume: a free block is
marked (`Owned.alloc`) and then linked to an inode (`Owned.link`), the contents of a data
block change (`Owned.setBlock`), the blocks of an inode are given up (`Owned.truncate`).
None of the first two changes a byte of any file.
-/

namespace RiscvOs

open Bytes

/-- What is stored in the inodes, the bitmap and the data blocks. -/
structure Volume where
  node : ℕ → Dinode
  used : ℕ → Bool
  block : ℕ → Block

/-- The number of addresses an inode can hold: its own, and those of its indirect block. -/
abbrev nslots : ℕ := maxfile + 1

/-- The slot of the address of block `bn` of a file. -/
def fileSlot (bn : ℕ) : ℕ := if bn < ndirect then bn else bn + 1

/-- The numbers behind the names, for arithmetic. -/
theorem fsSizes : ndirect = 12 ∧ nindirect = 256 ∧ maxfile = 268 ∧ nslots = 269 ∧ bsize = 1024 ∧
    ipb = 16 ∧ bpb = 8192 := by decide

theorem fileSlot_lt {bn : ℕ} (h : bn < maxfile) : fileSlot bn < nslots := by
  have hsizes := fsSizes
  unfold fileSlot
  split <;> omega

theorem fileSlot_ne_indirect (bn : ℕ) : fileSlot bn ≠ ndirect := by
  unfold fileSlot
  split <;> omega

theorem fileSlot_inj {bn bn' : ℕ} (h : fileSlot bn = fileSlot bn') : bn = bn' := by
  unfold fileSlot at h
  split at h <;> split at h <;> omega

namespace Volume

variable (v : Volume) (i k : ℕ)

/-- The address of the indirect block of inode `i`. -/
def indirect : ℕ := ((v.node i).addrs indirectSlot).toNat

/-- Address `k` of inode `i`. -/
def slot : ℕ :=
  if h : k < ndirect + 1 then ((v.node i).addrs ⟨k, h⟩).toNat
  else if v.indirect i = 0 then 0
  else indirectEntry (v.block (v.indirect i)) (k - (ndirect + 1))

/-- The address of block `bn` of inode `i`. -/
def fileAddr (bn : ℕ) : ℕ := v.slot i (fileSlot bn)

/-- The byte of inode `i` at offset `p`. -/
def byte (p : ℕ) : UInt8 :=
  if v.fileAddr i (p / bsize) = 0 then 0 else (v.block (v.fileAddr i (p / bsize))).get (p % bsize)

/-- The `len` bytes of inode `i` from offset `off`. -/
def bytes (off len : ℕ) : List UInt8 := (List.range len).map fun j => v.byte i (off + j)

/-- The contents of inode `i`. -/
def contents : List UInt8 := v.bytes i 0 (v.node i).size.toNat

/-- Replace an inode. -/
def setNode (din : Dinode) : Volume := { v with node := Function.update v.node i din }

/-- Replace the contents of a data block. -/
def setBlock (b : ℕ) (d : Block) : Volume := { v with block := Function.update v.block b d }

/-- Mark a block as used or free. -/
def setUsed (b : ℕ) (flag : Bool) : Volume := { v with used := Function.update v.used b flag }

/-- Mark a free block as used and clear it. -/
def alloc (b : ℕ) : Volume := (v.setUsed b true).setBlock b Buffer.zero

/-- Assign address `k` of inode `i`. -/
def link (b : ℕ) : Volume :=
  if h : k < ndirect + 1 then
    v.setNode i { v.node i with
      addrs := Function.update (v.node i).addrs ⟨k, h⟩ (BitVec.ofNat 32 b) }
  else v.setBlock (v.indirect i)
    (setIndirectEntry (v.block (v.indirect i)) (k - (ndirect + 1)) b)

variable {v i k}

theorem slot_indirect (v : Volume) (i : ℕ) : v.slot i ndirect = v.indirect i := by
  rw [slot, dif_pos (Nat.lt_succ_self _)]
  rfl

theorem slot_eq_zero_of_indirect (hk : ndirect < k) (h : v.indirect i = 0) : v.slot i k = 0 := by
  rw [slot, dif_neg (by omega), if_pos h]

/-- The slots of an inode depend on its addresses and on its indirect block. -/
theorem slot_congr (v' : Volume) {j : ℕ} (haddrs : (v'.node j).addrs = (v.node j).addrs)
    (hblock : v.indirect j ≠ 0 → v'.block (v.indirect j) = v.block (v.indirect j)) (k : ℕ) :
    v'.slot j k = v.slot j k := by
  have hindirect : v'.indirect j = v.indirect j := by rw [indirect, indirect, haddrs]
  unfold slot
  rw [hindirect, haddrs]
  by_cases hzero : v.indirect j = 0
  · simp [hzero]
  · rw [hblock hzero]

theorem length_bytes (v : Volume) (i off len : ℕ) : (v.bytes i off len).length = len := by
  simp [bytes]

theorem bytes_append (v : Volume) (i off m n : ℕ) :
    v.bytes i off (m + n) = v.bytes i off m ++ v.bytes i (off + m) n := by
  simp only [bytes, List.range_add, List.map_append, List.map_map]
  congr 1
  refine List.map_congr_left fun j _ => ?_
  rw [Function.comp_apply, Nat.add_assoc]

/-- Bytes that lie in one block of the file. -/
theorem bytes_in_block {off m : ℕ} (hm : off % bsize + m ≤ bsize) :
    v.bytes i off m = if v.fileAddr i (off / bsize) = 0 then List.replicate m 0
      else (v.block (v.fileAddr i (off / bsize))).slice (off % bsize) m := by
  have hbyte : ∀ j < m, v.byte i (off + j) = if v.fileAddr i (off / bsize) = 0 then 0
      else (v.block (v.fileAddr i (off / bsize))).get (off % bsize + j) := by
    intro j hj
    have hdiv : (off + j) / bsize = off / bsize := by
      change (off + j) / 1024 = off / 1024
      change off % 1024 + m ≤ 1024 at hm
      omega
    have hmod : (off + j) % bsize = off % bsize + j := by
      change (off + j) % 1024 = off % 1024 + j
      change off % 1024 + m ≤ 1024 at hm
      omega
    rw [byte, hdiv, hmod]
  by_cases hzero : v.fileAddr i (off / bsize) = 0
  · rw [if_pos hzero, List.eq_replicate_iff]
    refine ⟨length_bytes v i off m, fun byte hmem => ?_⟩
    obtain ⟨j, hj, rfl⟩ := List.mem_map.mp hmem
    rw [hbyte j (List.mem_range.mp hj), if_pos hzero]
  · rw [if_neg hzero, bytes, Buffer.slice]
    refine List.map_congr_left fun j hj => ?_
    rw [hbyte j (List.mem_range.mp hj), if_neg hzero]

theorem bytes_congr {v' : Volume} {off len : ℕ}
    (h : ∀ p, off ≤ p → p < off + len → v'.byte i p = v.byte i p) :
    v'.bytes i off len = v.bytes i off len := by
  refine List.map_congr_left fun j hj => ?_
  rw [List.mem_range] at hj
  exact h _ (by omega) (by omega)

/-! ## Ownership -/

/-- No address is held twice by the `n` inodes, and each is that of a block of the data
region from `lo` to `top` that is marked as used; below that region all is marked. -/
structure Owned (v : Volume) (n lo top : ℕ) : Prop where
  reserved : ∀ b < lo, v.used b = true
  inside : ∀ i < n, ∀ k < nslots, v.slot i k ≠ 0 →
    lo ≤ v.slot i k ∧ v.slot i k < top ∧ v.used (v.slot i k) = true
  once : ∀ i < n, ∀ k < nslots, ∀ j < n, ∀ l < nslots, v.slot i k ≠ 0 →
    v.slot i k = v.slot j l → i = j ∧ k = l

/-- No inode holds the address `b`. -/
def Unowned (v : Volume) (n b : ℕ) : Prop := ∀ i < n, ∀ k < nslots, v.slot i k ≠ b

namespace Owned

variable {n lo top b : ℕ}

theorem unowned_of_free (h : v.Owned n lo top) (hb : b ≠ 0) (hfree : v.used b = false) :
    v.Unowned n b := by
  intro i hi k hk heq
  have hused := (h.inside i hi k hk (heq ▸ hb)).2.2
  rw [heq, hfree] at hused
  cases hused

theorem indirect_ne (_ : v.Owned n lo top) (hb : v.Unowned n b) (hi : i < n) :
    v.indirect i ≠ b := by
  rw [← slot_indirect]
  exact hb i hi ndirect (by have hsizes := fsSizes; omega)

/-- A change of a block that is nobody's indirect block. -/
theorem slot_setBlock {d : Block} {j : ℕ} (hne : v.indirect j ≠ 0 → v.indirect j ≠ b) (k : ℕ) :
    (v.setBlock b d).slot j k = v.slot j k :=
  slot_congr (v.setBlock b d) (v := v) rfl (fun hj => Function.update_of_ne (hne hj) _ _) k

theorem congr {v' : Volume} (h : v.Owned n lo top) (hslot : ∀ i < n, ∀ k < nslots,
      v'.slot i k = v.slot i k) (hused : ∀ c, v.used c = true → v'.used c = true) :
    v'.Owned n lo top where
  reserved c hc := hused c (h.reserved c hc)
  inside i hi k hk hne := by
    rw [hslot i hi k hk] at hne ⊢
    obtain ⟨hlo, hhi, hu⟩ := h.inside i hi k hk hne
    exact ⟨hlo, hhi, hused _ hu⟩
  once i hi k hk j hj l hl hne heq := by
    rw [hslot i hi k hk] at hne heq
    rw [hslot j hj l hl] at heq
    exact h.once i hi k hk j hj l hl hne heq

theorem slot_alloc (h : v.Owned n lo top) (hb : v.Unowned n b) (hi : i < n) (k : ℕ) :
    (v.alloc b).slot i k = v.slot i k :=
  slot_setBlock (v := v.setUsed b true) (fun _ => h.indirect_ne hb hi) k

/-- Marking a free block. -/
theorem alloc (h : v.Owned n lo top) (hb : v.Unowned n b) : (v.alloc b).Owned n lo top := by
  refine h.congr (fun i hi k _ => h.slot_alloc hb hi k) fun c hc => ?_
  by_cases heq : c = b
  · rw [heq]
    exact Function.update_self ..
  · exact (Function.update_of_ne heq _ _).trans hc

theorem byte_alloc (h : v.Owned n lo top) (hb : v.Unowned n b) (hi : i < n) {p : ℕ}
    (hp : p / bsize < maxfile) : (v.alloc b).byte i p = v.byte i p := by
  have hslot := h.slot_alloc hb hi (fileSlot (p / bsize))
  have hne : v.fileAddr i (p / bsize) ≠ b := hb i hi _ (fileSlot_lt hp)
  unfold byte fileAddr
  rw [hslot]
  have hblock : (v.alloc b).block (v.slot i (fileSlot (p / bsize))) =
      v.block (v.slot i (fileSlot (p / bsize))) := Function.update_of_ne hne _ _
  rw [hblock]

/-! ## Linking a block to an inode -/

/-- What linking the marked block `b` as address `k` of inode `i` needs. -/
structure Linkable (v : Volume) (n i k b : ℕ) : Prop where
  inode : i < n
  slot : k < nslots
  ne_zero : b ≠ 0
  lt : b < 2 ^ 32
  unowned : v.Unowned n b
  empty : v.slot i k = 0
  /-- An entry needs an indirect block. -/
  indirect : ndirect < k → v.indirect i ≠ 0
  cleared : v.block b = Buffer.zero

theorem slot_link (h : v.Owned n lo top) (hl : Linkable v n i k b) {j l : ℕ} (hj : j < n)
    (hlt : l < nslots) :
    (v.link i k b).slot j l = if j = i ∧ l = k then b else v.slot j l := by
  have hsizes := fsSizes
  have hofNat : (BitVec.ofNat 32 b).toNat = b := by
    rw [BitVec.toNat_ofNat, Nat.mod_eq_of_lt hl.lt]
  by_cases hk : k < ndirect + 1
  · -- an address in the inode itself
    have hlink : v.link i k b = v.setNode i { v.node i with
        addrs := Function.update (v.node i).addrs ⟨k, hk⟩ (BitVec.ofNat 32 b) } := by
      rw [link, dif_pos hk]
    by_cases hji : j = i
    · subst hji
      have hnode : ((v.link j k b).node j).addrs =
          Function.update (v.node j).addrs ⟨k, hk⟩ (BitVec.ofNat 32 b) := by
        rw [hlink]
        simp [setNode]
      by_cases hl13 : l < ndirect + 1
      · rw [slot, dif_pos hl13, hnode]
        by_cases hlk : l = k
        · subst hlk
          simp [hofNat]
        · have hne : (⟨l, hl13⟩ : Fin (ndirect + 1)) ≠ ⟨k, hk⟩ := fun heq => hlk (Fin.mk.inj heq)
          rw [Function.update_of_ne hne, if_neg (fun hand => hlk hand.2), slot, dif_pos hl13]
      · rw [if_neg (by omega)]
        by_cases hlast : k = ndirect
        · -- the block linked as the indirect block has no entries yet
          have hold : v.indirect j = 0 := by
            rw [← slot_indirect, ← hlast]
            exact hl.empty
          have hnew : (v.link j k b).indirect j = b := by
            subst hlast
            have hself : Function.update (v.node j).addrs ⟨ndirect, hk⟩ (BitVec.ofNat 32 b)
                indirectSlot = BitVec.ofNat 32 b := Function.update_self ..
            rw [indirect, hnode, hself, hofNat]
          have hblock : (v.link j k b).block b = Buffer.zero := by
            rw [hlink]
            exact hl.cleared
          rw [slot, dif_neg hl13, hnew, if_neg hl.ne_zero, hblock, indirectEntry_zero,
            slot_eq_zero_of_indirect (by omega) hold]
        · have hsame : (v.link j k b).indirect j = v.indirect j := by
            have hne : indirectSlot ≠ (⟨k, hk⟩ : Fin (ndirect + 1)) := fun heq =>
              hlast (Fin.mk.inj heq).symm
            rw [indirect, hnode, Function.update_of_ne hne, indirect]
          have hblock : (v.link j k b).block = v.block := by rw [hlink]; rfl
          rw [slot, dif_neg hl13, hsame, hblock, slot, dif_neg hl13]
    · rw [if_neg fun hand => hji hand.1, hlink]
      exact slot_congr (v.setNode i _) (v := v)
        (congrArg Dinode.addrs (Function.update_of_ne hji _ _)) (fun _ => rfl) l
  · -- an entry of the indirect block
    have hlink : v.link i k b = v.setBlock (v.indirect i)
        (setIndirectEntry (v.block (v.indirect i)) (k - (ndirect + 1)) b) := by
      rw [link, dif_neg hk]
    have hind : v.indirect i ≠ 0 := hl.indirect (by omega)
    by_cases hji : j = i
    · subst hji
      have hsame : (v.link j k b).indirect j = v.indirect j := by rw [hlink]; rfl
      by_cases hl13 : l < ndirect + 1
      · rw [if_neg (by omega), slot, dif_pos hl13, hlink, slot, dif_pos hl13]
        rfl
      · have hblock : (v.link j k b).block (v.indirect j) =
            setIndirectEntry (v.block (v.indirect j)) (k - (ndirect + 1)) b := by
          rw [hlink]
          exact Function.update_self ..
        rw [slot, dif_neg hl13, hsame, if_neg hind, hblock]
        by_cases hlk : l = k
        · subst hlk
          have hlt' := hl.slot
          rw [if_pos ⟨rfl, rfl⟩, indirectEntry_set_same _ (by omega) hl.lt]
        · rw [if_neg fun hand => hlk hand.2, indirectEntry_set_of_ne _ (by omega), slot,
            dif_neg hl13, if_neg hind]
    · rw [if_neg fun hand => hji hand.1, hlink]
      refine slot_setBlock (fun hj0 heq => hji ?_) l
      rw [← slot_indirect, ← slot_indirect] at heq
      rw [← slot_indirect] at hj0
      exact (h.once j hj ndirect (by omega) i hl.inode ndirect (by omega) hj0 heq).1

/-- Linking a marked block that nobody holds. -/
theorem link (h : v.Owned n lo top) (hl : Linkable v n i k b) (hb : lo ≤ b ∧ b < top)
    (hused : v.used b = true) : (v.link i k b).Owned n lo top := by
  have hsame : (v.link i k b).used = v.used := by
    unfold Volume.link
    split <;> rfl
  refine ⟨fun c hc => by rw [hsame]; exact h.reserved c hc, fun j hj l hlt hne => ?_,
    fun j hj l hlt j' hj' l' hlt' hne heq => ?_⟩
  · rw [h.slot_link hl hj hlt] at hne ⊢
    rw [hsame]
    by_cases hand : j = i ∧ l = k
    · rw [if_pos hand]
      exact ⟨hb.1, hb.2, hused⟩
    · rw [if_neg hand] at hne ⊢
      exact h.inside j hj l hlt hne
  · rw [h.slot_link hl hj hlt] at hne heq
    rw [h.slot_link hl hj' hlt'] at heq
    by_cases hand : j = i ∧ l = k
    · rw [if_pos hand] at heq
      by_cases hand' : j' = i ∧ l' = k
      · exact ⟨hand.1.trans hand'.1.symm, hand.2.trans hand'.2.symm⟩
      · rw [if_neg hand'] at heq
        exact absurd heq.symm (hl.unowned j' hj' l' hlt')
    · rw [if_neg hand] at hne heq
      by_cases hand' : j' = i ∧ l' = k
      · rw [if_pos hand'] at heq
        exact absurd heq (hl.unowned j hj l hlt)
      · rw [if_neg hand'] at heq
        exact h.once j hj l hlt j' hj' l' hlt' hne heq

/-- A block is linked where the file had a hole, and it is clear. -/
theorem byte_link (h : v.Owned n lo top) (hl : Linkable v n i k b) {j p : ℕ} (hj : j < n)
    (hp : p / bsize < maxfile) : (v.link i k b).byte j p = v.byte j p := by
  have hsizes := fsSizes
  have hslot := h.slot_link hl hj (fileSlot_lt hp)
  -- the entries of an indirect block are not part of any file
  have hblock : v.fileAddr j (p / bsize) ≠ 0 →
      (v.link i k b).block (v.fileAddr j (p / bsize)) = v.block (v.fileAddr j (p / bsize)) := by
    intro hne
    unfold Volume.link
    split
    · rfl
    · refine Function.update_of_ne (fun heq => ?_) _ _
      rw [← slot_indirect] at heq
      have honce := h.once j hj _ (fileSlot_lt hp) i hl.inode ndirect (by omega) hne heq
      exact fileSlot_ne_indirect _ honce.2
  unfold byte fileAddr
  unfold fileAddr at hblock
  rw [hslot]
  by_cases hand : j = i ∧ fileSlot (p / bsize) = k
  · have hzero : v.slot j (fileSlot (p / bsize)) = 0 := by
      rw [hand.1, hand.2]
      exact hl.empty
    have hcleared : (v.link i k b).block b = Buffer.zero := by
      unfold Volume.link
      split
      · exact hl.cleared
      · have hne : b ≠ v.indirect i := (h.indirect_ne hl.unowned hl.inode).symm
        exact (Function.update_of_ne hne _ _).trans hl.cleared
    rw [if_pos hand, if_neg hl.ne_zero, hcleared, hzero, if_pos rfl, Buffer.get_zero]
  · rw [if_neg hand]
    by_cases hzero : v.slot j (fileSlot (p / bsize)) = 0
    · rw [if_pos hzero, if_pos hzero]
    · rw [if_neg hzero, if_neg hzero, hblock hzero]

/-! ## Writing to a data block -/

theorem slot_data (h : v.Owned n lo top) (hi : i < n) (hk : k < nslots) (hdata : k ≠ ndirect)
    (hne : v.slot i k ≠ 0) {j : ℕ} (hj : j < n) (d : Block) (l : ℕ) :
    (v.setBlock (v.slot i k) d).slot j l = v.slot j l := by
  have hsizes := fsSizes
  refine slot_setBlock (fun _ heq => hdata ?_) l
  rw [← slot_indirect] at heq
  exact (h.once i hi k hk j hj ndirect (by omega) hne heq.symm).2

theorem setBlock (h : v.Owned n lo top) (hi : i < n) (hk : k < nslots) (hdata : k ≠ ndirect)
    (hne : v.slot i k ≠ 0) (d : Block) : (v.setBlock (v.slot i k) d).Owned n lo top :=
  h.congr (fun _ hj l _ => h.slot_data hi hk hdata hne hj d l) fun _ hc => hc

/-- Only the bytes of the block that is written change. -/
theorem byte_setBlock (h : v.Owned n lo top) (hi : i < n) {bn : ℕ} (hbn : bn < maxfile)
    (hne : v.fileAddr i bn ≠ 0) {j p : ℕ} (hj : j < n) (hp : p / bsize < maxfile) (d : Block) :
    (v.setBlock (v.fileAddr i bn) d).byte j p =
      if j = i ∧ p / bsize = bn then d.get (p % bsize) else v.byte j p := by
  have hslot := h.slot_data hi (fileSlot_lt hbn) (fileSlot_ne_indirect bn) hne hj d
    (fileSlot (p / bsize))
  have haddr : (v.setBlock (v.fileAddr i bn) d).fileAddr j (p / bsize) =
      v.fileAddr j (p / bsize) := hslot
  unfold byte
  rw [haddr]
  by_cases hand : j = i ∧ p / bsize = bn
  · obtain ⟨rfl, rfl⟩ := hand
    have hblock : (v.setBlock (v.fileAddr j (p / bsize)) d).block (v.fileAddr j (p / bsize)) =
        d := Function.update_self ..
    rw [if_neg hne, if_pos ⟨rfl, rfl⟩, hblock]
  · rw [if_neg hand]
    by_cases hzero : v.fileAddr j (p / bsize) = 0
    · rw [if_pos hzero, if_pos hzero]
    · have hother : v.fileAddr j (p / bsize) ≠ v.fileAddr i bn := fun heq => by
        obtain ⟨hji, hslots⟩ := h.once j hj _ (fileSlot_lt hp) i hi _ (fileSlot_lt hbn) hzero heq
        exact hand ⟨hji, fileSlot_inj hslots⟩
      have hblock : (v.setBlock (v.fileAddr i bn) d).block (v.fileAddr j (p / bsize)) =
          v.block (v.fileAddr j (p / bsize)) := Function.update_of_ne hother _ _
      rw [if_neg hzero, if_neg hzero, hblock]

end Owned

/-! ## Replacing an inode -/

section
variable {n lo top : ℕ} {din : Dinode}

@[simp] theorem setNode_node_same (v : Volume) (i : ℕ) (din : Dinode) :
    (v.setNode i din).node i = din := Function.update_self ..

theorem setNode_node_of_ne {j : ℕ} (hne : j ≠ i) : (v.setNode i din).node j = v.node j :=
  Function.update_of_ne hne _ _

theorem slot_setNode_of_ne {j : ℕ} (hne : j ≠ i) (k : ℕ) :
    (v.setNode i din).slot j k = v.slot j k :=
  slot_congr (v.setNode i din) (v := v) (congrArg Dinode.addrs (setNode_node_of_ne hne))
    (fun _ => rfl) k

theorem slot_setNode (haddrs : din.addrs = (v.node i).addrs) (j k : ℕ) :
    (v.setNode i din).slot j k = v.slot j k := by
  by_cases hji : j = i
  · subst hji
    exact slot_congr (v.setNode j din) (v := v) (by rw [setNode_node_same, haddrs])
      (fun _ => rfl) k
  · exact slot_setNode_of_ne hji k

theorem byte_congr {v' : Volume} {j p : ℕ} (hslot : ∀ k, v'.slot j k = v.slot j k)
    (hblock : v'.block = v.block) : v'.byte j p = v.byte j p := by
  unfold byte fileAddr
  rw [hslot, hblock]

theorem slot_of_addrs_zero (haddrs : ∀ k, (v.node i).addrs k = 0) (k : ℕ) : v.slot i k = 0 := by
  simp [slot, indirect, haddrs]

/-- The inode holds the address `c`. -/
def Holds (v : Volume) (i c : ℕ) : Prop := c ≠ 0 ∧ ∃ k < nslots, v.slot i k = c

instance (v : Volume) (i c : ℕ) : Decidable (v.Holds i c) :=
  inferInstanceAs (Decidable (_ ∧ _))

/-- Set the size of an inode. -/
def setSize (v : Volume) (i size : ℕ) : Volume :=
  v.setNode i { v.node i with size := BitVec.ofNat 32 size }

/-- Inode `i` gives up all its blocks. -/
def truncate (v : Volume) (i : ℕ) : Volume where
  node := Function.update v.node i { v.node i with size := 0, addrs := fun _ => 0 }
  used c := v.used c && !decide (v.Holds i c)
  block := v.block

theorem truncate_node_same (v : Volume) (i : ℕ) :
    (v.truncate i).node i = { v.node i with size := 0, addrs := fun _ => 0 } :=
  Function.update_self ..

/-- Inode `i` on the way to that: its first `a` addresses are 0, and the blocks whose
addresses `P` picks are free. -/
def shed (v : Volume) (i a : ℕ) (P : ℕ → Bool) : Volume where
  node := Function.update v.node i { v.node i with
    addrs := fun k => if k.val < a then 0 else (v.node i).addrs k }
  used c := v.used c && !decide (∃ k < nslots, P k = true ∧ v.slot i k ≠ 0 ∧ v.slot i k = c)
  block := v.block

section
variable {a : ℕ} {P : ℕ → Bool}

theorem shed_start (v : Volume) (i : ℕ) : v.shed i 0 (fun _ => false) = v := by
  obtain ⟨node, used, block⟩ := v
  simp [shed]

theorem shed_self (v : Volume) (i a : ℕ) (P : ℕ → Bool) :
    (v.shed i a P).node i = { v.node i with
      addrs := fun k => if k.val < a then 0 else (v.node i).addrs k } := Function.update_self ..

theorem shed_used (h : v.Owned n lo top) (hi : i < n) (hk : k < nslots) (hne : v.slot i k ≠ 0)
    (hP : P k = false) : (v.shed i a P).used (v.slot i k) = true := by
  have hother : ¬ ∃ l < nslots, P l = true ∧ v.slot i l ≠ 0 ∧ v.slot i l = v.slot i k := by
    rintro ⟨l, hl, hPl, hne', heq⟩
    rw [(h.once i hi l hl i hi k hk hne' heq).2, hP] at hPl
    cases hPl
  simp only [shed, (h.inside i hi k hk hne).2.2, decide_eq_false hother, Bool.not_false,
    Bool.and_self]

/-- The block at address `k` is freed. -/
theorem shed_free (hk : k < nslots) (hne : v.slot i k ≠ 0) :
    (v.shed i a P).setUsed (v.slot i k) false = v.shed i a fun l => P l || decide (l = k) := by
  have hused : Function.update (v.shed i a P).used (v.slot i k) false =
      (v.shed i a fun l => P l || decide (l = k)).used := by
    funext c
    by_cases hc : c = v.slot i k
    · subst hc
      have hyes : ∃ l < nslots, (P l || decide (l = k)) = true ∧ v.slot i l ≠ 0 ∧
          v.slot i l = v.slot i k := ⟨k, hk, by simp, hne, rfl⟩
      rw [Function.update_self]
      simp only [shed, decide_eq_true hyes, Bool.not_true, Bool.and_false]
    · rw [Function.update_of_ne hc]
      simp only [shed]
      congr 3
      refine propext ⟨?_, ?_⟩
      · rintro ⟨l, hl, hPl, hrest⟩
        exact ⟨l, hl, by rw [hPl, Bool.true_or], hrest⟩
      · rintro ⟨l, hl, hPl, hne', heq⟩
        refine ⟨l, hl, ?_, hne', heq⟩
        rcases Bool.or_eq_true _ _ ▸ hPl with hPl | hlk
        · exact hPl
        · rw [of_decide_eq_true hlk] at heq
          exact absurd heq.symm hc
  rw [setUsed, hused]
  rfl

/-- There is no block at the addresses that are picked in addition. -/
theorem shed_congr {Q : ℕ → Bool} (h : ∀ k < nslots, v.slot i k ≠ 0 → P k = Q k) :
    v.shed i a P = v.shed i a Q := by
  have hused : (v.shed i a P).used = (v.shed i a Q).used := by
    funext c
    simp only [shed]
    congr 3
    refine propext ⟨?_, ?_⟩
    · rintro ⟨l, hl, hPl, hne, heq⟩
      exact ⟨l, hl, by rw [← h l hl hne]; exact hPl, hne, heq⟩
    · rintro ⟨l, hl, hQl, hne, heq⟩
      exact ⟨l, hl, by rw [h l hl hne]; exact hQl, hne, heq⟩
  exact congrArg (fun used => Volume.mk (v.shed i a P).node used v.block) hused

/-- Address `a` is set to 0. -/
theorem shed_node (ha : a < ndirect + 1) :
    (v.shed i a P).setNode i { (v.shed i a P).node i with
      addrs := Function.update ((v.shed i a P).node i).addrs ⟨a, ha⟩ 0 } = v.shed i (a + 1) P := by
  have haddrs : Function.update
      (fun k : Fin (ndirect + 1) => if k.val < a then 0 else (v.node i).addrs k) ⟨a, ha⟩ 0 =
      fun k => if k.val < a + 1 then 0 else (v.node i).addrs k := by
    funext k
    by_cases hk : k = ⟨a, ha⟩
    · subst hk
      rw [Function.update_self, if_pos (Nat.lt_succ_self _)]
    · have hne : k.val ≠ a := fun heq => hk (Fin.ext heq)
      rw [Function.update_of_ne hk]
      by_cases hlt : k.val < a
      · rw [if_pos hlt, if_pos (by omega)]
      · rw [if_neg hlt, if_neg (by omega)]
  rw [shed_self, haddrs, setNode]
  simp only [shed, Function.update_idem]

/-- Address `a` is 0 already. -/
theorem shed_succ (ha : a < ndirect + 1) (hzero : v.slot i a = 0) :
    v.shed i a P = v.shed i (a + 1) P := by
  have haddr : (v.node i).addrs ⟨a, ha⟩ = 0 := by
    rw [slot, dif_pos ha] at hzero
    exact BitVec.toNat_inj.mp hzero
  have haddrs : (fun k : Fin (ndirect + 1) => if k.val < a then 0 else (v.node i).addrs k) =
      fun k => if k.val < a + 1 then 0 else (v.node i).addrs k := by
    funext k
    by_cases hk : k.val = a
    · have heq : k = ⟨a, ha⟩ := Fin.ext hk
      subst heq
      rw [if_neg (lt_irrefl _), if_pos (Nat.lt_succ_self _), haddr]
    · by_cases hlt : k.val < a
      · rw [if_pos hlt, if_pos (by omega)]
      · rw [if_neg hlt, if_neg (by omega)]
  rw [shed, haddrs, shed]

/-- All is given up but the size. -/
theorem shed_all (hP : ∀ k < nslots, P k = true) :
    (v.shed i (ndirect + 1) P).setSize i 0 = v.truncate i := by
  have hnode : (v.shed i (ndirect + 1) P).node i = { v.node i with addrs := fun _ => 0 } := by
    have haddrs : (fun k : Fin (ndirect + 1) =>
        if k.val < ndirect + 1 then 0 else (v.node i).addrs k) = fun _ => 0 :=
      funext fun k => if_pos k.isLt
    rw [shed_self, haddrs]
  have hused : (v.shed i (ndirect + 1) P).used = (v.truncate i).used := by
    funext c
    simp only [shed, truncate]
    congr 3
    refine propext ⟨?_, ?_⟩
    · rintro ⟨l, hl, -, hne, heq⟩
      exact ⟨heq ▸ hne, l, hl, heq⟩
    · rintro ⟨hne, l, hl, heq⟩
      exact ⟨l, hl, hP l hl, heq ▸ hne, heq⟩
  rw [setSize, hnode, setNode, hused]
  simp only [shed, truncate, Function.update_idem]
  rfl

end

namespace Owned

/-- An inode changes, but not its addresses. -/
theorem setNode (h : v.Owned n lo top) (haddrs : din.addrs = (v.node i).addrs) :
    (v.setNode i din).Owned n lo top :=
  h.congr (fun j _ k _ => slot_setNode haddrs j k) fun _ hc => hc

/-- Fewer addresses are held. -/
theorem drop {v' : Volume} (h : v.Owned n lo top) (hslot : ∀ j < n, ∀ k < nslots,
      v'.slot j k = 0 ∨ v'.slot j k = v.slot j k ∧ v'.used (v.slot j k) = v.used (v.slot j k))
    (hreserved : ∀ c < lo, v'.used c = true) : v'.Owned n lo top where
  reserved := hreserved
  inside j hj k hk hne := by
    rcases hslot j hj k hk with hzero | ⟨hsame, hused⟩
    · exact absurd hzero hne
    · rw [hsame] at hne ⊢
      rw [hused]
      exact h.inside j hj k hk hne
  once j hj k hk j' hj' l hl hne heq := by
    rcases hslot j hj k hk with hzero | ⟨hsame, -⟩
    · exact absurd hzero hne
    · rcases hslot j' hj' l hl with hzero' | ⟨hsame', -⟩
      · exact absurd (heq.trans hzero') hne
      · rw [hsame] at hne heq
        rw [hsame'] at heq
        exact h.once j hj k hk j' hj' l hl hne heq

/-- An inode forgets its addresses. -/
theorem setNode_zero (h : v.Owned n lo top) (haddrs : ∀ k, din.addrs k = 0) :
    (v.setNode i din).Owned n lo top := by
  refine h.drop (fun j _ k _ => ?_) h.reserved
  by_cases hji : j = i
  · subst hji
    exact .inl (slot_of_addrs_zero (by simpa using haddrs) k)
  · exact .inr ⟨slot_setNode_of_ne hji k, rfl⟩

theorem truncate (h : v.Owned n lo top) (hi : i < n) :
    (v.truncate i).Owned n lo top := by
  refine h.drop (fun j hj k hk => ?_) fun c hc => ?_
  · by_cases hji : j = i
    · subst hji
      exact .inl (slot_of_addrs_zero (fun k => by simp [Volume.truncate]) k)
    · have hslot : (v.truncate i).slot j k = v.slot j k :=
        slot_congr (v.truncate i) (v := v)
          (congrArg Dinode.addrs (Function.update_of_ne hji _ _)) (fun _ => rfl) k
      refine .inr ⟨hslot, ?_⟩
      have hother : ¬ v.Holds i (v.slot j k) := by
        rintro ⟨hne, l, hl, heq⟩
        exact hji (h.once i hi l hl j hj k hk (heq ▸ hne) heq).1.symm
      simp [Volume.truncate, hother]
  · have hother : ¬ v.Holds i c := by
      rintro ⟨hne, k, hk, rfl⟩
      have hle := (h.inside i hi k hk hne).1
      omega
    simp [Volume.truncate, hother, h.reserved c hc]

end Owned

end

/-! ## Growing -/

/-- Inode `i` may have been given new blocks and other bytes, and nothing else has changed. -/
structure Extended (v v' : Volume) (n i : ℕ) : Prop where
  node : ∀ j, j ≠ i → v'.node j = v.node j
  fields : ∃ addrs, v'.node i = { v.node i with addrs := addrs }
  byte : ∀ j < n, j ≠ i → ∀ p, p / bsize < maxfile → v'.byte j p = v.byte j p
  keep : ∀ j < n, ∀ k < nslots, v.slot j k ≠ 0 → v'.slot j k = v.slot j k
  other : ∀ j < n, j ≠ i → ∀ k < nslots, v'.slot j k = v.slot j k
  used : ∀ c, v.used c = true → v'.used c = true
  new : ∀ c, v'.used c = true → v.used c = true ∨ v'.Holds i c

/-- Inode `i` may have been given new blocks. -/
structure Grown (v v' : Volume) (n i : ℕ) : Prop extends Extended v v' n i where
  own : ∀ p, p / bsize < maxfile → v'.byte i p = v.byte i p

/-- The bytes `src` have been written to inode `i` at offset `off`. -/
structure Written (v v' : Volume) (n i off : ℕ) (src : List UInt8) : Prop
    extends Extended v v' n i where
  own : ∀ p, p / bsize < maxfile → v'.byte i p = overlay (v.byte i) off src p

theorem setSize_self {size : ℕ} (h : size = (v.node i).size.toNat) : v.setSize i size = v := by
  rw [setSize, h, BitVec.ofNat_toNat, BitVec.setWidth_eq]
  exact congrArg (Volume.mk · v.used v.block) (Function.update_eq_self i v.node)

theorem slot_setSize (v : Volume) (i size j k : ℕ) : (v.setSize i size).slot j k = v.slot j k := by
  have haddrs : ({ v.node i with size := BitVec.ofNat 32 size } : Dinode).addrs =
      (v.node i).addrs := rfl
  exact slot_setNode haddrs j k

/-- `writei` of the bytes `src` to inode `i` at offset `off`. -/
def WrittenTo (v v' : Volume) (n i off : ℕ) (src : List UInt8) : Prop :=
  ∃ w, Written v w n i off src ∧
    v' = w.setSize i (max (v.node i).size.toNat (off + src.length))

namespace Extended

variable {n : ℕ} {v' v'' : Volume}

theorem trans (h : Extended v v' n i) (h' : Extended v' v'' n i) (hi : i < n) :
    Extended v v'' n i where
  node j hj := (h'.node j hj).trans (h.node j hj)
  fields := by
    obtain ⟨addrs, haddrs⟩ := h.fields
    obtain ⟨addrs', haddrs'⟩ := h'.fields
    exact ⟨addrs', by rw [haddrs', haddrs]⟩
  byte j hj hji p hp := (h'.byte j hj hji p hp).trans (h.byte j hj hji p hp)
  keep j hj k hk hne := by
    have hsame := h.keep j hj k hk hne
    rw [← hsame] at hne
    exact (h'.keep j hj k hk hne).trans hsame
  other j hj hji k hk := (h'.other j hj hji k hk).trans (h.other j hj hji k hk)
  used c hc := h'.used c (h.used c hc)
  new c hc := by
    rcases h'.new c hc with hc' | hholds
    · rcases h.new c hc' with hold | ⟨hne, k, hk, rfl⟩
      · exact .inl hold
      · exact .inr ⟨hne, k, hk, h'.keep i hi k hk hne⟩
    · exact .inr hholds

/-- A block of the file is written. -/
theorem setBlock {lo top bn : ℕ} (h : v.Owned n lo top) (hi : i < n) (hbn : bn < maxfile)
    (hne : v.fileAddr i bn ≠ 0) (d : Block) :
    Extended v (v.setBlock (v.fileAddr i bn) d) n i where
  node _ _ := rfl
  fields := ⟨_, rfl⟩
  byte j hj hji p hp := by
    rw [h.byte_setBlock hi hbn hne hj hp, if_neg fun hand => hji hand.1]
  keep j hj k _ _ := h.slot_data hi (fileSlot_lt hbn) (fileSlot_ne_indirect bn) hne hj d k
  other j hj _ k _ := h.slot_data hi (fileSlot_lt hbn) (fileSlot_ne_indirect bn) hne hj d k
  used _ hc := hc
  new _ hc := .inl hc

end Extended

namespace Grown

variable {n : ℕ} {v' v'' : Volume}

theorem refl (v : Volume) (n i : ℕ) : Grown v v n i where
  node _ _ := rfl
  fields := ⟨_, rfl⟩
  byte _ _ _ _ _ := rfl
  keep _ _ _ _ _ := rfl
  other _ _ _ _ _ := rfl
  used _ hc := hc
  new _ hc := .inl hc
  own _ _ := rfl

theorem trans (h : Grown v v' n i) (h' : Grown v' v'' n i) (hi : i < n) : Grown v v'' n i :=
  { h.toExtended.trans h'.toExtended hi with own := fun p hp => (h'.own p hp).trans (h.own p hp) }

end Grown

namespace Written

variable {n off lo top : ℕ} {v' v'' : Volume} {src src' : List UInt8}

theorem of_grown (h : Grown v v' n i) (off : ℕ) : Written v v' n i off [] :=
  { h with own := fun p hp => (h.own p hp).trans (overlay_nil _ _ _).symm }

theorem append (h : Written v v' n i off src) (h' : Written v' v'' n i (off + src.length) src')
    (hi : i < n) : Written v v'' n i off (src ++ src') :=
  { h.toExtended.trans h'.toExtended hi with
    own := fun p hp => by
      rw [h'.own p hp, ← overlay_append]
      unfold overlay
      split
      · rfl
      · exact h.own p hp }

/-- Bytes within one block are written. -/
theorem of_block (h : v.Owned n lo top) (hi : i < n) (hbn : off / bsize < maxfile)
    (hne : v.fileAddr i (off / bsize) ≠ 0) (hfit : off % bsize + src.length ≤ bsize) :
    Written v (v.setBlock (v.fileAddr i (off / bsize))
      ((v.block (v.fileAddr i (off / bsize))).write (off % bsize) src)) n i off src :=
  { Extended.setBlock h hi hbn hne _ with
    own := fun p hp => by
      have hbyte := h.byte_setBlock hi hbn hne hi hp
        ((v.block (v.fileAddr i (off / bsize))).write (off % bsize) src)
      rw [hbyte, Buffer.get_write _ hfit]
      change off % 1024 + src.length ≤ 1024 at hfit
      have hinside : (p / bsize = off / bsize ∧ off % bsize ≤ p % bsize ∧
          p % bsize < off % bsize + src.length) ↔ off ≤ p ∧ p < off + src.length := by
        change (p / 1024 = off / 1024 ∧ off % 1024 ≤ p % 1024 ∧
          p % 1024 < off % 1024 + src.length) ↔ _
        omega
      unfold overlay
      by_cases hblock : p / bsize = off / bsize
      · rw [if_pos ⟨rfl, hblock⟩]
        by_cases hin : off ≤ p ∧ p < off + src.length
        · have hsub : p % bsize - off % bsize = p - off := by
            change p / 1024 = off / 1024 at hblock
            change p % 1024 - off % 1024 = p - off
            omega
          rw [if_pos (hinside.mpr hin).2, if_pos hin, hsub]
        · rw [if_neg fun hand => hin (hinside.mp ⟨hblock, hand⟩), if_neg hin, byte, hblock,
            if_neg hne]
      · rw [if_neg fun hand => hblock hand.2, if_neg fun hand => hblock (hinside.mpr hand).1] }

end Written

/-- A free block that has been marked can be linked where there is no address. -/
theorem Owned.linkable {n lo top b : ℕ} (h : v.Owned n lo top) (htop : top ≤ 2 ^ 32) (hlo : 0 < lo)
    (hb : lo ≤ b ∧ b < top) (hfree : v.used b = false) (hi : i < n) (hk : k < nslots)
    (hempty : v.slot i k = 0) (hindirect : ndirect < k → v.indirect i ≠ 0) :
    Owned.Linkable (v.alloc b) n i k b := by
  have hne : b ≠ 0 := by omega
  have hunowned := h.unowned_of_free hne hfree
  exact
    { inode := hi
      slot := hk
      ne_zero := hne
      lt := by omega
      unowned := fun j hj l hl => by rw [h.slot_alloc hunowned hj]; exact hunowned j hj l hl
      empty := by rw [h.slot_alloc hunowned hi]; exact hempty
      indirect := hindirect
      cleared := Function.update_self .. }

/-- A free block is allocated and linked. -/
theorem Owned.grow {n lo top b : ℕ} (h : v.Owned n lo top) (htop : top ≤ 2 ^ 32) (hlo : 0 < lo)
    (hb : lo ≤ b ∧ b < top) (hfree : v.used b = false) (hi : i < n) (hk : k < nslots)
    (hempty : v.slot i k = 0) (hindirect : ndirect < k → v.indirect i ≠ 0) :
    ((v.alloc b).link i k b).Owned n lo top ∧ Grown v ((v.alloc b).link i k b) n i ∧
      ((v.alloc b).link i k b).slot i k = b := by
  have hne : b ≠ 0 := by omega
  have hunowned := h.unowned_of_free hne hfree
  have halloc := h.alloc hunowned
  have hlink := h.linkable htop hlo hb hfree hi hk hempty hindirect
  have hused : (v.alloc b).used b = true := Function.update_self ..
  have hsame : ((v.alloc b).link i k b).used = (v.alloc b).used := by
    unfold Volume.link
    split <;> rfl
  have hslot : ((v.alloc b).link i k b).slot i k = b := by
    rw [halloc.slot_link hlink hi hk, if_pos ⟨rfl, rfl⟩]
  refine ⟨halloc.link hlink hb hused, ?_, hslot⟩
  exact
    { node := fun j hj => by
        unfold Volume.link
        split
        · exact setNode_node_of_ne hj
        · rfl
      fields := by
        unfold Volume.link
        split
        · exact ⟨_, setNode_node_same ..⟩
        · exact ⟨(v.node i).addrs, rfl⟩
      byte := fun j hj _ p hp =>
        (halloc.byte_link hlink hj hp).trans (h.byte_alloc hunowned hj hp)
      own := fun p hp => (halloc.byte_link hlink hi hp).trans (h.byte_alloc hunowned hi hp)
      keep := fun j hj l hl hne' => by
        rw [halloc.slot_link hlink hj hl, h.slot_alloc hunowned hj, if_neg]
        rintro ⟨rfl, rfl⟩
        exact hne' hempty
      other := fun j hj hji l hl => by
        rw [halloc.slot_link hlink hj hl, h.slot_alloc hunowned hj, if_neg fun hand => hji hand.1]
      used := fun c hc => by
        rw [hsame]
        by_cases heq : c = b
        · rw [heq]; exact hused
        · exact (Function.update_of_ne heq _ _).trans hc
      new := fun c hc => by
        by_cases heq : c = b
        · exact .inr ⟨heq ▸ hne, k, hk, hslot.trans heq.symm⟩
        · rw [hsame] at hc
          exact .inl ((Function.update_of_ne heq _ _).symm.trans hc) }

/-! ## Room

How many blocks are free, and how many addresses of an inode are still to be filled. -/

/-- The number of free blocks below `top`. -/
def free (v : Volume) (top : ℕ) : ℕ := ((Finset.range top).filter fun b => v.used b = false).card

/-- The number of addresses in `K` that inode `i` does not have. -/
def missing (v : Volume) (i : ℕ) (K : Finset ℕ) : ℕ := (K.filter fun k => v.slot i k = 0).card

/-- The addresses in `K` that were filled are as many as the blocks that were taken. -/
def Paid (v v' : Volume) (top i : ℕ) (K : Finset ℕ) : Prop :=
  v.free top + v'.missing i K ≤ v'.free top + v.missing i K

/-- The addresses that `n` bytes at offset `off` go through. -/
def slotsIn (off n : ℕ) : Finset ℕ := (Finset.range nslots).filter fun k =>
  ∃ bn < maxfile, (off / bsize ≤ bn ∧ bn * bsize < off + n) ∧
    (fileSlot bn = k ∨ ndirect ≤ bn ∧ ndirect = k)

section
variable {v' v'' : Volume} {top : ℕ} {K : Finset ℕ}

theorem Paid.refl (v : Volume) (top i : ℕ) (K : Finset ℕ) : Paid v v top i K := le_refl _

theorem Paid.trans (h : Paid v v' top i K) (h' : Paid v' v'' top i K) : Paid v v'' top i K := by
  unfold Paid at *
  omega

/-- What is short of blocks later was so before. -/
theorem Paid.short (h : Paid v v' top i K) (hlt : v'.free top < v'.missing i K) :
    v.free top < v.missing i K := by
  unfold Paid at h
  omega

theorem Paid.of_same (hused : v'.used = v.used) (hslot : ∀ k ∈ K, v'.slot i k = v.slot i k) :
    Paid v v' top i K := by
  have hmissing : v'.missing i K = v.missing i K :=
    congrArg Finset.card (Finset.filter_congr fun k hk => by rw [hslot k hk])
  unfold Paid free
  rw [hused, hmissing]

theorem free_eq_zero : v.free top = 0 ↔ ∀ b < top, v.used b = true := by
  rw [free, Finset.card_eq_zero, Finset.filter_eq_empty_iff]
  simp only [Finset.mem_range, Bool.not_eq_false]

theorem missing_pos (hk : k ∈ K) (hempty : v.slot i k = 0) : 0 < v.missing i K :=
  Finset.card_pos.mpr ⟨k, Finset.mem_filter.mpr ⟨hk, hempty⟩⟩

/-- Marking a block takes it from those that are free. -/
theorem free_update {b : ℕ} (hb : b < top) (hfree : v.used b = false)
    (hused : v'.used = Function.update v.used b true) : v'.free top + 1 = v.free top := by
  have hmem : b ∈ (Finset.range top).filter fun c => v.used c = false :=
    Finset.mem_filter.mpr ⟨Finset.mem_range.mpr hb, hfree⟩
  have herase : ((Finset.range top).filter fun c => v'.used c = false) =
      ((Finset.range top).filter fun c => v.used c = false).erase b := by
    ext c
    rw [Finset.mem_erase, Finset.mem_filter, Finset.mem_filter, hused]
    by_cases hc : c = b
    · simp [hc]
    · simp [hc]
  rw [free, free, herase]
  exact Finset.card_erase_add_one hmem

/-- Filling an address takes it from those that are missing. -/
theorem missing_fill (hk : k ∈ K) (hempty : v.slot i k = 0) (hfilled : v'.slot i k ≠ 0)
    (hother : ∀ l ∈ K, l ≠ k → v'.slot i l = v.slot i l) :
    v'.missing i K + 1 = v.missing i K := by
  have hmem : k ∈ K.filter fun l => v.slot i l = 0 := Finset.mem_filter.mpr ⟨hk, hempty⟩
  have herase : (K.filter fun l => v'.slot i l = 0) = (K.filter fun l => v.slot i l = 0).erase k := by
    ext l
    rw [Finset.mem_erase, Finset.mem_filter, Finset.mem_filter]
    by_cases hl : l = k
    · simp [hl, hfilled]
    · refine ⟨fun h => ⟨hl, h.1, ?_⟩, fun h => ⟨h.2.1, ?_⟩⟩
      · rw [← hother l h.1 hl]
        exact h.2
      · rw [hother l h.2.1 hl]
        exact h.2.2
  rw [missing, missing, herase]
  exact Finset.card_erase_add_one hmem

/-- A free block is allocated for an address. -/
theorem Owned.paid_grow {n lo b : ℕ} (h : v.Owned n lo top) (htop : top ≤ 2 ^ 32)
    (hlo : 0 < lo) (hb : lo ≤ b ∧ b < top) (hfree : v.used b = false) (hi : i < n) (hk : k < nslots)
    (hempty : v.slot i k = 0) (hindirect : ndirect < k → v.indirect i ≠ 0)
    (hK : ∀ l ∈ K, l < nslots) (hmem : k ∈ K) : Paid v ((v.alloc b).link i k b) top i K := by
  have hne : b ≠ 0 := by omega
  have hunowned := h.unowned_of_free hne hfree
  have hlink := h.linkable htop hlo hb hfree hi hk hempty hindirect
  have hslot : ∀ l < nslots, ((v.alloc b).link i k b).slot i l =
      if l = k then b else v.slot i l := by
    intro l hl
    rw [(h.alloc hunowned).slot_link hlink hi hl, h.slot_alloc hunowned hi]
    simp
  have hused : ((v.alloc b).link i k b).used = Function.update v.used b true := by
    unfold Volume.link
    split <;> rfl
  have hfree' := free_update hb.2 hfree hused
  have hfill : ((v.alloc b).link i k b).missing i K + 1 = v.missing i K := by
    refine missing_fill hmem hempty ?_ fun l hl hlk => ?_
    · rw [hslot k hk, if_pos rfl]
      exact hne
    · rw [hslot l (hK l hl), if_neg hlk]
  unfold Paid
  omega

theorem lt_of_mem_slotsIn {off n : ℕ} (hk : k ∈ slotsIn off n) : k < nslots :=
  Finset.mem_range.mp (Finset.mem_filter.mp hk).1

theorem slotsIn_mono {off n off' n' : ℕ} (hoff : off ≤ off') (hend : off' + n' ≤ off + n) :
    slotsIn off' n' ⊆ slotsIn off n := by
  intro k hk
  obtain ⟨hlt, bn, hbn, ⟨hlo, hhi⟩, hslot⟩ := Finset.mem_filter.mp hk
  exact Finset.mem_filter.mpr
    ⟨hlt, bn, hbn, ⟨le_trans (Nat.div_le_div_right hoff) hlo, by omega⟩, hslot⟩

/-- The addresses of a block that the bytes go through. -/
theorem mem_slotsIn {off n bn : ℕ} (hbn : bn < maxfile) (hlo : off / bsize ≤ bn)
    (hhi : bn * bsize < off + n) :
    fileSlot bn ∈ slotsIn off n ∧ (ndirect ≤ bn → ndirect ∈ slotsIn off n) := by
  have hsizes := fsSizes
  refine ⟨Finset.mem_filter.mpr ⟨Finset.mem_range.mpr (fileSlot_lt hbn), bn, hbn, ⟨hlo, hhi⟩,
    .inl rfl⟩, fun hle => Finset.mem_filter.mpr ⟨Finset.mem_range.mpr (by omega), bn, hbn,
    ⟨hlo, hhi⟩, .inr ⟨hle, rfl⟩⟩⟩

end

end Volume

end RiscvOs
