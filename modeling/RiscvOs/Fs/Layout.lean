import RiscvOs.Fs.Model

/-!
# Reading back what is stored in a block

The four kinds of records that the file system keeps in blocks: dinodes, addresses of
an indirect block, bits of the bitmap and directory entries.  Each assignment is seen
by the reads of its own record and by no others.
-/

namespace RiscvOs

open Bytes

private theorem ofLe_le_two (v : BitVec 16) : BitVec.ofNat 16 (ofLe (le 2 v.toNat)) = v := by
  have hlt : v.toNat < 256 ^ 2 := v.isLt
  rw [ofLe_le, Nat.mod_eq_of_lt hlt, BitVec.ofNat_toNat, BitVec.setWidth_eq]

private theorem ofLe_le_four (v : BitVec 32) : BitVec.ofNat 32 (ofLe (le 4 v.toNat)) = v := by
  have hlt : v.toNat < 256 ^ 4 := v.isLt
  rw [ofLe_le, Nat.mod_eq_of_lt hlt, BitVec.ofNat_toNat, BitVec.setWidth_eq]

/-! ## Dinodes -/

namespace Dinode

theorem length_encode (din : Dinode) : din.encode.length = 64 := by
  simp [encode, List.length_flatMap, ndirect]

/-- The bytes of one field of a stored dinode. -/
theorem slice_store {d : Block} {k : ℕ} {din : Dinode} (hk : k < ipb) (off : ℕ) {len : ℕ}
    (hfit : off + len ≤ 64) :
    (store d k din).slice (64 * k + off) len = (din.encode.drop off).take len := by
  have hend : 64 * k + din.encode.length ≤ bsize := by
    have hipb : ipb = 16 := rfl
    have hbsize : bsize = 1024 := rfl
    rw [length_encode]
    omega
  exact d.slice_write_inside hend (by rw [length_encode]; exact hfit)

/-- The bytes of one address. -/
theorem encode_addrs (din : Dinode) (i : Fin (ndirect + 1)) :
    (din.encode.drop (12 + 4 * i.val)).take 4 = le 4 (din.addrs i).toNat := by
  have hdrop : din.encode.drop (12 + 4 * i.val) =
      ((List.finRange (ndirect + 1)).flatMap fun i => le 4 (din.addrs i).toNat).drop
        (4 * i.val) := by
    rw [encode, List.drop_append, List.drop_eq_nil_of_le (by simp), List.nil_append]
    congr 1
    simp
  have hi : i.val < (List.finRange (ndirect + 1)).length := by
    rw [List.length_finRange]
    exact i.isLt
  rw [hdrop, flatMap_slice (fun _ => length_le _ _) hi]
  simp

theorem decode_store_same (d : Block) {k : ℕ} (hk : k < ipb) (din : Dinode) :
    decode (store d k din) k = din := by
  have htype : (store d k din).slice (64 * k) 2 = le 2 din.type.toNat :=
    slice_store hk 0 (by omega)
  have hmajor : (store d k din).slice (64 * k + 2) 2 = le 2 din.major.toNat :=
    slice_store hk 2 (by omega)
  have hminor : (store d k din).slice (64 * k + 4) 2 = le 2 din.minor.toNat :=
    slice_store hk 4 (by omega)
  have hnlink : (store d k din).slice (64 * k + 6) 2 = le 2 din.nlink.toNat :=
    slice_store hk 6 (by omega)
  have hsize : (store d k din).slice (64 * k + 8) 4 = le 4 din.size.toNat :=
    slice_store hk 8 (by omega)
  have haddrs : ∀ i : Fin (ndirect + 1),
      (store d k din).slice (64 * k + 12 + 4 * i.val) 4 = le 4 (din.addrs i).toNat := by
    intro i
    have hi := i.isLt
    have hndirect : ndirect = 12 := rfl
    rw [Nat.add_assoc, ← encode_addrs]
    exact slice_store hk _ (by omega)
  simp only [decode, htype, hmajor, hminor, hnlink, hsize, haddrs, ofLe_le_two, ofLe_le_four]

theorem decode_store_of_ne (d : Block) {j k : ℕ} (hne : j ≠ k) (din : Dinode) :
    decode (store d k din) j = decode d j := by
  have hfield : ∀ off len, off + len ≤ 64 →
      (store d k din).slice (64 * j + off) len = d.slice (64 * j + off) len := by
    intro off len hfit
    refine d.slice_write_disjoint ?_
    rw [length_encode]
    omega
  have htype := hfield 0 2 (by omega)
  rw [Nat.add_zero] at htype
  have haddrs : ∀ i : Fin (ndirect + 1),
      (store d k din).slice (64 * j + 12 + 4 * i.val) 4 = d.slice (64 * j + 12 + 4 * i.val) 4 := by
    intro i
    have hi := i.isLt
    have hndirect : ndirect = 12 := rfl
    rw [Nat.add_assoc]
    exact hfield _ 4 (by omega)
  simp only [decode, htype, hfield 2 2 (by omega), hfield 4 2 (by omega), hfield 6 2 (by omega),
    hfield 8 4 (by omega), haddrs]

end Dinode

/-! ## Indirect blocks -/

theorem indirectEntry_set_same (d : Block) {k addr : ℕ} (hk : k < nindirect)
    (haddr : addr < 2 ^ 32) : indirectEntry (setIndirectEntry d k addr) k = addr := by
  have hlen : (le 4 addr).length = 4 := length_le _ _
  have hfit : 4 * k + (le 4 addr).length ≤ bsize := by
    have hnindirect : nindirect = 256 := rfl
    have hbsize : bsize = 1024 := rfl
    omega
  have hslice := d.slice_write hfit
  have hlt : addr < 256 ^ 4 := haddr
  rw [hlen] at hslice
  rw [indirectEntry, setIndirectEntry, hslice, ofLe_le, Nat.mod_eq_of_lt hlt]

theorem indirectEntry_set_of_ne (d : Block) {j k : ℕ} (hne : j ≠ k) (addr : ℕ) :
    indirectEntry (setIndirectEntry d k addr) j = indirectEntry d j := by
  rw [indirectEntry, setIndirectEntry, d.slice_write_disjoint (by rw [length_le]; omega),
    indirectEntry]

theorem indirectEntry_zero (k : ℕ) : indirectEntry Buffer.zero k = 0 := by
  have hslice : (Buffer.zero : Block).slice (4 * k) 4 = [0, 0, 0, 0] := by
    simp [Buffer.slice, List.range_succ]
  rw [indirectEntry, hslice]
  rfl

/-! ## The bitmap -/

theorem testBit_or_pow (a : UInt8) {k : ℕ} (hk : k < 8) (j : ℕ) :
    (a ||| UInt8.ofNat (2 ^ k)).toNat.testBit j = (a.toNat.testBit j || decide (k = j)) := by
  have hpow : (UInt8.ofNat (2 ^ k)).toNat = 2 ^ k := by
    have hlt : 2 ^ k < 2 ^ 8 := Nat.pow_lt_pow_right (by decide) hk
    rw [UInt8.toNat_ofNat', Nat.mod_eq_of_lt hlt]
  rw [UInt8.toNat_or, Nat.testBit_or, hpow, Nat.testBit_two_pow]

private theorem testBit_and_compl (a : UInt8) {k j : ℕ} (hk : k < 8) (hj : j < 8) :
    (a &&& ~~~(UInt8.ofNat (2 ^ k))).toNat.testBit j = (a.toNat.testBit j && decide (k ≠ j)) := by
  have hmask : ∀ k < 8, ∀ j < 8,
      (~~~(UInt8.ofNat (2 ^ k))).toNat.testBit j = decide (k ≠ j) := by decide
  rw [UInt8.toNat_and, Nat.testBit_and, hmask k hk j hj]

private theorem get_write_byte (d : Block) {i : ℕ} (hi : i < bsize) (byte : UInt8) (j : ℕ) :
    (d.write i [byte]).get j = if j = i then byte else d.get j := by
  have hfit : i + [byte].length ≤ bsize := hi
  rw [d.get_write hfit]
  by_cases heq : j = i
  · rw [if_pos (by simp [heq]), if_pos heq, heq]
    simp
  · rw [if_neg (by simp; omega), if_neg heq]

private theorem byte_lt {bi : ℕ} (hbi : bi < bpb) : bi / 8 < bsize := by
  have hbpb : bpb = 8192 := rfl
  have hbsize : bsize = 1024 := rfl
  omega

theorem bitmapBit_set (d : Block) {bi : ℕ} (hbi : bi < bpb) (bj : ℕ) :
    bitmapBit (setBitmapBit d bi) bj = (bitmapBit d bj || decide (bi = bj)) := by
  rw [bitmapBit, setBitmapBit, get_write_byte d (byte_lt hbi), bitmapBit]
  by_cases hbyte : bj / 8 = bi / 8
  · rw [if_pos hbyte, testBit_or_pow _ (Nat.mod_lt _ (by decide)), ← hbyte]
    congr 1
    exact decide_eq_decide.mpr (by omega)
  · have hne : bi ≠ bj := by
      rintro rfl
      exact hbyte rfl
    rw [if_neg hbyte, decide_eq_false hne, Bool.or_false]

theorem bitmapBit_clear (d : Block) {bi : ℕ} (hbi : bi < bpb) (bj : ℕ) :
    bitmapBit (clearBitmapBit d bi) bj = (bitmapBit d bj && decide (bi ≠ bj)) := by
  rw [bitmapBit, clearBitmapBit, get_write_byte d (byte_lt hbi), bitmapBit]
  by_cases hbyte : bj / 8 = bi / 8
  · rw [if_pos hbyte, testBit_and_compl _ (Nat.mod_lt _ (by decide)) (Nat.mod_lt _ (by decide)),
      ← hbyte]
    congr 1
    exact decide_eq_decide.mpr (by omega)
  · have hne : bi ≠ bj := by
      rintro rfl
      exact hbyte rfl
    rw [if_neg hbyte, decide_eq_true hne, Bool.and_true]

/-! ## Directory entries -/

theorem Dirent.length_encode (de : Dirent) : de.encode.length = 16 := by
  simp [encode, dirsiz]

theorem Dirent.decode_encode {de : Dirent} (hinum : de.inum < 2 ^ 16) :
    decode de.encode = de := by
  have hlt : de.inum < 256 ^ 2 := hinum
  have htake : de.encode.take 2 = le 2 de.inum := by
    rw [encode, List.take_append_of_le_length (by simp), List.take_of_length_le (by simp)]
  have hdrop : de.encode.drop 2 = de.name.slice 0 dirsiz := by
    rw [encode, List.drop_append, List.drop_eq_nil_of_le (by simp)]
    simp
  have hname : (Buffer.zero : Buffer dirsiz).write 0 (de.name.slice 0 dirsiz) = de.name := by
    ext i hi
    rw [Buffer.get_write _ (by simp), if_pos (by simpa using hi), Nat.sub_zero,
      Buffer.getD_slice _ hi, Nat.zero_add]
  rw [decode, htake, hdrop, ofLe_le, Nat.mod_eq_of_lt hlt, hname]

/-- A name as a string: the bytes up to the first null byte, or all of them. -/
def cut (name : Buffer dirsiz) : List UInt8 := (name.slice 0 dirsiz).takeWhile (· ≠ 0)

theorem matchFrom_iff {a b : List UInt8} (hlen : a.length = b.length) :
    matchFrom a b = true ↔ a.takeWhile (· ≠ 0) = b.takeWhile (· ≠ 0) := by
  induction a generalizing b with
  | nil =>
      cases b with
      | nil => simp [matchFrom]
      | cons c' b => simp at hlen
  | cons c a ih =>
      cases b with
      | nil => simp at hlen
      | cons c' b =>
          have hlen' : a.length = b.length := by simpa using hlen
          rw [matchFrom]
          by_cases heq : c = c'
          · subst heq
            by_cases hzero : c = 0
            · simp [hzero]
            · rw [if_neg (by simp), if_neg hzero, ih hlen']
              simp [hzero]
          · rw [if_pos heq]
            by_cases hzero : c = 0
            · subst hzero
              simp [Ne.symm heq]
            · by_cases hzero' : c' = 0
              · simp [hzero, hzero']
              · simp [hzero, hzero', heq]

/-- `dirlookup` compares names as strings. -/
theorem nameMatch_iff {a b : Buffer dirsiz} : nameMatch a b = true ↔ cut a = cut b :=
  matchFrom_iff (by simp)

end RiscvOs
