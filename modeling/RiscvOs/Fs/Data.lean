import RiscvOs.Fs.Inodes

/-!
# The contents of an inode

`bmap` finds the address of a block of a file, `readi` and `writei` go through the file
block by block.  What they read and write are the bytes `Volume.byte`.

A write may log the blocks it goes through, the indirect block, and the block of the
inode.  `Session.cost` is 0 for a block that has been logged already.
-/

namespace RiscvOs

open Effect Bytes Kern

/-! ## Reading -/

/-- What `readi` copies of inode `i`, `none` for -1. -/
def Volume.read (v : Volume) (i off n : ℕ) : Option (List UInt8) :=
  if (v.node i).size.toNat < off ∨ 2 ^ 32 ≤ off + n then none
  else some (v.bytes i off (min n ((v.node i).size.toNat - off)))

/-- What `readi` delivers of a file with the contents `bytes`. -/
def readBytes (bytes : List UInt8) (off n : ℕ) : Option (List UInt8) :=
  if bytes.length < off ∨ 2 ^ 32 ≤ off + n then none else some ((bytes.drop off).take n)

theorem Volume.length_contents (v : Volume) (i : ℕ) :
    (v.contents i).length = (v.node i).size.toNat := Volume.length_bytes ..

theorem Volume.read_eq (v : Volume) (i off n : ℕ) :
    v.read i off n = readBytes (v.contents i) off n := by
  unfold Volume.read readBytes
  rw [Volume.length_contents]
  by_cases hbad : (v.node i).size.toNat < off ∨ 2 ^ 32 ≤ off + n
  · rw [if_pos hbad, if_pos hbad]
  · rw [if_neg hbad, if_neg hbad, Volume.contents]
    have hsplit : (v.node i).size.toNat = off + ((v.node i).size.toNat - off) := by omega
    have hdrop : (v.bytes i 0 (v.node i).size.toNat).drop off =
        v.bytes i off ((v.node i).size.toNat - off) := by
      rw [hsplit, Volume.bytes_append, List.drop_left' (Volume.length_bytes ..), Nat.zero_add,
        Nat.add_sub_cancel_left]
    rw [hdrop, Volume.bytes, Volume.bytes, ← List.map_take, List.take_range]

namespace Session.Sound

variable {x : Session} {i k : ℕ}

/-- An address held is that of a data block. -/
theorem isData_slot (h : x.Sound) (hi : i < x.mem.sb.ninodes) (hk : k < nslots)
    (hne : x.volume.slot i k ≠ 0) : x.mem.sb.IsData (x.volume.slot i k) := by
  obtain ⟨hlo, hlt, -⟩ := h.owned.inside i hi k hk hne
  exact ⟨hlo, hlt⟩

theorem block_slot (h : x.Sound) (hi : i < x.mem.sb.ninodes) (hk : k < nslots)
    (hne : x.volume.slot i k ≠ 0) :
    x.volume.block (x.volume.slot i k) = x.store (x.volume.slot i k) :=
  if_pos (h.isData_slot hi hk hne)

theorem isData_fileAddr {bn : ℕ} (h : x.Sound) (hi : i < x.mem.sb.ninodes) (hbn : bn < maxfile)
    (hne : x.volume.fileAddr i bn ≠ 0) : x.mem.sb.IsData (x.volume.fileAddr i bn) :=
  h.isData_slot hi (fileSlot_lt hbn) hne

theorem block_fileAddr {bn : ℕ} (h : x.Sound) (hi : i < x.mem.sb.ninodes) (hbn : bn < maxfile)
    (hne : x.volume.fileAddr i bn ≠ 0) :
    x.volume.block (x.volume.fileAddr i bn) = x.store (x.volume.fileAddr i bn) :=
  h.block_slot hi (fileSlot_lt hbn) hne

end Session.Sound

namespace OnSession

section
variable {mode : Mode} {α : Type} {Q : α → Session → Prop}
  {spare holds : ℕ} {x : Session} {stale : Set ℕ} {pins : Pins} {ip : Fin ninode} {i bn : ℕ}

/-- The address of a direct block is in the inode. -/
theorem addrs_direct (hx : x.Intact stale pins) (hip : x.Locked ip i) {k : ℕ}
    (hk : k < ndirect + 1) :
    ((x.mem.inode ip).din.addrs ⟨k, hk⟩).toNat = x.volume.slot i k := by
  rw [hip.node_eq hx.icache, Volume.slot, dif_pos hk]

theorem addrs_eq_zero (hx : x.Intact stale pins) (hip : x.Locked ip i) {k : ℕ}
    (hk : k < ndirect + 1) :
    (x.mem.inode ip).din.addrs ⟨k, hk⟩ = 0 ↔ x.volume.slot i k = 0 := by
  rw [← addrs_direct hx hip hk]
  exact (BitVec.toNat_inj (y := 0)).symm

/-- An entry of the indirect block. -/
theorem entry_eq (hx : x.Intact stale pins) (hi : i < x.mem.sb.ninodes) (hbn : ndirect ≤ bn)
    (hlt : bn < maxfile) (hne : x.volume.indirect i ≠ 0) :
    indirectEntry (x.store (x.volume.indirect i)) (bn - ndirect) = x.volume.fileAddr i bn := by
  have hsizes := fsSizes
  have hslot : fileSlot bn = bn + 1 := if_neg (not_lt.mpr hbn)
  have hblock : x.volume.block (x.volume.indirect i) = x.store (x.volume.indirect i) := by
    rw [← Volume.slot_indirect] at hne ⊢
    exact hx.block_slot hi (by omega) hne
  rw [Volume.fileAddr, hslot, Volume.slot, dif_neg (by omega), if_neg hne, hblock,
    Nat.add_sub_add_right]

/-- `bmap` looks the address of a block up. -/
theorem wp_bmap_read {f : ℕ → Kern α} (hx : x.Intact stale pins) (hip : x.Locked ip i)
    (hcalm : Calm mode (holds + 1) x) (hbn : bn < maxfile)
    (h : (f (x.volume.fileAddr i bn)).wp (sessionRules mode) Q x) :
    (bmap ip bn false >>= f).wp (sessionRules mode) Q x := by
  have hsizes := fsSizes
  have hi := hip.lt hx.icache
  rw [bmap, bind_assoc, wp_getInode]
  by_cases hdirect : bn < ndirect
  · have hslot : x.volume.fileAddr i bn = x.volume.slot i bn := by
      rw [Volume.fileAddr, fileSlot, if_pos hdirect]
    rw [dif_pos hdirect]
    by_cases hzero : x.volume.slot i bn = 0
    · rw [if_pos ⟨(addrs_eq_zero hx hip _).mpr hzero, rfl⟩]
      rw [hslot, hzero] at h
      exact h
    · have hne : (x.mem.inode ip).din.addrs ⟨bn, Nat.lt_succ_of_lt hdirect⟩ ≠ 0 :=
        fun heq => hzero ((addrs_eq_zero hx hip _).mp heq)
      rw [if_neg fun hand => hne hand.1, allocAddr, bind_assoc, wp_getInode, if_neg hne,
        addrs_direct hx hip, ← hslot]
      exact h
  · rw [dif_neg hdirect, if_pos (by omega)]
    have hindirect : x.volume.indirect i = x.volume.slot i ndirect :=
      (Volume.slot_indirect _ _).symm
    by_cases hzero : x.volume.indirect i = 0
    · have hnone : x.volume.fileAddr i bn = 0 := by
        rw [Volume.fileAddr, fileSlot, if_neg hdirect]
        exact Volume.slot_eq_zero_of_indirect (by omega) hzero
      rw [if_pos ⟨(addrs_eq_zero hx hip _).mpr (hindirect ▸ hzero), rfl⟩]
      rw [hnone] at h
      exact h
    · have hne : (x.mem.inode ip).din.addrs indirectSlot ≠ 0 := fun heq =>
        hzero (hindirect ▸ (addrs_eq_zero hx hip _).mp heq)
      have haddr : ((x.mem.inode ip).din.addrs indirectSlot).toNat = x.volume.indirect i :=
        (addrs_direct hx hip _).trans hindirect.symm
      have hdata : x.mem.sb.IsData (x.volume.indirect i) := by
        rw [hindirect] at hzero ⊢
        exact hx.isData_slot hi (by omega) hzero
      rw [if_neg fun hand => hne hand.1, bind_assoc, allocAddr, bind_assoc, wp_getInode,
        if_neg hne, haddr, hip.dev hx.icache]
      simp only [bind_assoc]
      refine wp_bread hcalm (hx.wf.data_ok hdata).1 ?_
      refine wp_data_hold ?_
      rw [if_neg fun hand => Bool.false_ne_true hand.2, bind_assoc]
      refine wp_brelse hcalm.inv ?_
      rw [entry_eq hx hi (by omega) hbn hzero]
      exact h

/-- The loop of `readi` collects the bytes. -/
theorem wp_readLoop {Q : List UInt8 → Session → Prop} (hx : x.Intact stale pins)
    (hip : x.Locked ip i) (hcalm : Calm mode (holds + 1) x) {rounds off n : ℕ}
    (hfit : off + n ≤ maxfile * bsize) (hn : n ≤ rounds) (h : Q (x.volume.bytes i off n) x) :
    (readLoop ip rounds off n).wp (sessionRules mode) Q x := by
  induction rounds generalizing off n Q with
  | zero =>
      have hzero : n = 0 := Nat.le_zero.mp hn
      subst hzero
      exact wp_done.mpr h
  | succ rounds ih =>
      rw [readLoop]
      by_cases hzero : n = 0
      · subst hzero
        rw [if_pos rfl]
        exact wp_done.mpr h
      · rw [if_neg hzero]
        have hsizes := fsSizes
        have hmod : off % bsize < bsize := Nat.mod_lt _ (by decide)
        have hbn : off / bsize < maxfile := by
          refine Nat.div_lt_of_lt_mul ?_
          rw [Nat.mul_comm]
          omega
        have hm : off % bsize + min (bsize - off % bsize) n ≤ bsize := by omega
        have hpos : 0 < min (bsize - off % bsize) n := by omega
        have hsplit : x.volume.bytes i off n =
            x.volume.bytes i off (min (bsize - off % bsize) n) ++
              x.volume.bytes i (off + min (bsize - off % bsize) n)
                (n - min (bsize - off % bsize) n) := by
          rw [← Volume.bytes_append, Nat.add_sub_cancel' (Nat.min_le_right _ _)]
        have hrest : ∀ bytes, bytes = x.volume.bytes i off (min (bsize - off % bsize) n) →
            (readLoop ip rounds (off + min (bsize - off % bsize) n)
              (n - min (bsize - off % bsize) n) >>= fun rest => pure (bytes ++ rest)).wp
              (sessionRules mode) Q x := by
          rintro bytes rfl
          rw [Prog.wp_bind]
          refine ih (by omega) (by omega) (wp_done.mpr ?_)
          rw [← hsplit]
          exact h
        refine wp_bmap_read hx hip hcalm hbn ?_
        rw [wp_getInode, hip.dev hx.icache]
        by_cases haddr : x.volume.fileAddr i (off / bsize) = 0
        · rw [if_pos haddr]
          refine hrest _ ?_
          rw [Volume.bytes_in_block hm, if_pos haddr]
        · have hi := hip.lt hx.icache
          have hdata := hx.isData_fileAddr hi hbn haddr
          rw [if_neg haddr]
          refine wp_bread hcalm (hx.wf.data_ok hdata).1 (wp_data_hold ?_)
          refine wp_brelse hcalm.inv (hrest _ ?_)
          rw [Volume.bytes_in_block hm, if_neg haddr]
          exact congrArg (Buffer.slice · _ _) (hx.block_fileAddr hi hbn haddr).symm

/-- `readi` copies the bytes up to the end of the file. -/
theorem wp_readi {f : Option (List UInt8) → Kern α} (hx : x.Intact stale pins)
    (hip : x.Locked ip i) (hcalm : Calm mode (holds + 1) x) {off n : ℕ}
    (hsize : (x.volume.node i).size.toNat ≤ maxfile * bsize) (hoff : off < 2 ^ 32)
    (hn : n < 2 ^ 32)
    (h : (f (x.volume.read i off n)).wp (sessionRules mode) Q x) :
    (readi ip off n >>= f).wp (sessionRules mode) Q x := by
  have hlt : (x.volume.node i).size.toNat < 2 ^ 32 := BitVec.isLt _
  have hu32 : u32 (off + n) = (off + n) % 2 ^ 32 := u32_mod (off + n)
  have hover : u32 (off + n) < off ↔ 2 ^ 32 ≤ off + n := by
    rw [hu32]
    omega
  rw [readi, bind_assoc, wp_getInode, hip.node_eq hx.icache]
  by_cases hbad : (x.volume.node i).size.toNat < off ∨ u32 (off + n) < off
  · rw [if_pos hbad]
    rw [Volume.read, if_pos (by rw [← hover]; exact hbad)] at h
    exact h
  · rw [if_neg hbad]
    rw [Volume.read, if_neg (by rw [← hover]; exact hbad)] at h
    rw [hover] at hbad
    have hlen : (if (x.volume.node i).size.toNat < u32 (off + n) then
        (x.volume.node i).size.toNat - off else n) =
        min n ((x.volume.node i).size.toNat - off) := by
      rw [hu32, Nat.mod_eq_of_lt (by omega)]
      split <;> omega
    simp only [hlen, bind_assoc]
    rw [Prog.wp_bind]
    exact wp_readLoop hx hip hcalm (by omega) le_rfl h

end

end OnSession

/-! ## Finding room -/

/-- What logging block `b` takes from the blocks an operation may log. -/
def Session.cost (x : Session) (b : ℕ) : ℕ := if b ≠ 0 ∧ b ∈ x.marks then 0 else 1

section
variable {x y : Session} {pins : Pins} {stale : Set ℕ} {i b : ℕ} {d : Block}

theorem Session.cost_le (x : Session) (b : ℕ) : x.cost b ≤ 1 := by
  unfold Session.cost
  split <;> omega

theorem Session.cost_of_mem (hb : b ≠ 0) (hmem : b ∈ x.marks) : x.cost b = 0 := if_pos ⟨hb, hmem⟩

/-- The indirect block of an inode costs no more once more has been logged. -/
theorem Session.cost_indirect_le {n : ℕ} (hmarks : x.marks ⊆ y.marks)
    (hgrown : Volume.Extended x.volume y.volume n i) (hi : i < n) :
    y.cost (y.volume.indirect i) ≤ x.cost (x.volume.indirect i) := by
  have hsizes := fsSizes
  by_cases hfree : x.volume.indirect i ≠ 0 ∧ x.volume.indirect i ∈ x.marks
  · obtain ⟨hne, hmem⟩ := hfree
    have hkeep : y.volume.indirect i = x.volume.indirect i := by
      rw [← Volume.slot_indirect] at hne ⊢
      rw [← Volume.slot_indirect]
      exact hgrown.keep i hi ndirect (by omega) hne
    rw [hkeep, Session.cost_of_mem hne (hmarks hmem)]
    exact Nat.zero_le _
  · rw [Session.cost, Session.cost, if_neg hfree]
    split <;> omega

/-- Logging a block in which no inode is stored. -/
theorem Session.Settled.write (h : x.Settled stale pins)
    (hb : ∀ i < x.mem.sb.ninodes, x.mem.sb.iblock i ≠ b) : (x.write b d).Settled stale pins where
  wf := h.wf.congr ⟨rfl, rfl⟩
  icache := ⟨h.icache.unique, h.icache.dev, h.icache.inum_lt, h.icache.nonneg⟩
  synced j hj hnot := by
    have hnode : (x.write b d).node j = x.node j :=
      node_congr rfl rfl fun _ _ => diskNode_write_of_ne (hb j hj)
    rw [hnode, diskNode_write_of_ne (hb j hj)]
    exact h.synced j hj hnot
  counted := h.counted

theorem Session.Intact.write (h : x.Intact stale pins)
    (hb : ∀ i < x.mem.sb.ninodes, x.mem.sb.iblock i ≠ b)
    (howned : (x.write b d).volume.Owned x.mem.sb.ninodes x.mem.sb.datastart x.mem.sb.size) :
    (x.write b d).Intact stale pins :=
  { h.toSettled.write hb with owned := howned }

theorem Session.Intact.writeData (h : x.Intact stale pins) (hb : x.mem.sb.IsData b)
    (howned : (x.volume.setBlock b d).Owned x.mem.sb.ninodes x.mem.sb.datastart x.mem.sb.size) :
    (x.write b d).Intact stale pins :=
  h.write (fun i hi heq => h.wf.iblock_not_data hi (heq ▸ hb))
    (by rw [volume_write_data h.wf hb]; exact howned)

/-- `balloc` keeps the file system intact. -/
theorem Session.Intact.alloc (h : x.Intact stale pins) (hb : x.mem.sb.IsData b)
    (hfree : x.volume.used b = false) : (x.alloc b).Intact stale pins := by
  have hsizes := fsSizes
  have hpos := h.datastart_pos
  have hle := hb.1
  have hlt : b < bpb := lt_of_lt_of_le hb.2 h.wf.size_le
  have howned : (x.volume.setUsed b true).Owned x.mem.sb.ninodes x.mem.sb.datastart
      x.mem.sb.size := by
    refine h.owned.congr (fun _ _ _ _ => rfl) fun c hc => ?_
    by_cases heq : c = b
    · rw [heq]
      exact Function.update_self ..
    · exact (Function.update_of_ne heq _ _).trans hc
  have hset : (x.write (x.mem.sb.bblock 0)
      (setBitmapBit (x.store (x.mem.sb.bblock 0)) b)).Intact stale pins :=
    h.write (fun i hi => h.wf.iblock_ne_bitmap hi) (by rw [volume_setBit h.wf hlt]; exact howned)
  refine hset.writeData (b := b) hb ?_
  rw [volume_setBit h.wf hlt]
  exact h.owned.alloc (h.owned.unowned_of_free (by omega) hfree)

theorem Session.frame_alloc (pins : Pins) (x : Session) (b : ℕ) : Frame pins x (x.alloc b) :=
  (Session.frame_write ..).trans (Session.frame_write ..)

end

namespace OnSession

section
variable {mode : Mode} {α : Type} {Q : α → Session → Prop}
  {spare holds : ℕ} {x : Session} {stale : Set ℕ} {pins : Pins} {ip : Fin ninode} {i bn : ℕ}
  {K : Finset ℕ}

/-- An address of the inode itself, allocated if there is none. -/
theorem wp_allocAddr {f : ℕ → Kern α} (hx : x.Intact stale pins) (hstale : i ∈ stale)
    (hip : x.Locked ip i) {k : ℕ} (hk : k < ndirect + 1)
    (htx : Tx mode (spare + x.cost (x.volume.slot i k)) (holds + 1) x)
    (hK : ∀ l ∈ K, l < nslots) (hmem : k ∈ K)
    (hfull : x.volume.free x.mem.sb.size < x.volume.missing i K →
      mode.err (.panic "balloc: out of blocks"))
    (h : ∀ y, y.Intact stale pins → Frame pins x y →
      Volume.Grown x.volume y.volume x.mem.sb.ninodes i →
      Volume.Paid x.volume y.volume x.mem.sb.size i K → y.Locked ip i →
      y.volume.slot i k ≠ 0 →
      Tx mode (spare + y.cost (y.volume.slot i k)) (holds + 1) y →
      (f (y.volume.slot i k)).wp (sessionRules mode) Q y) :
    (allocAddr ip ⟨k, hk⟩ >>= f).wp (sessionRules mode) Q x := by
  have hsizes := fsSizes
  have hi := hip.lt hx.icache
  rw [allocAddr, bind_assoc, wp_getInode]
  by_cases hzero : x.volume.slot i k = 0
  · rw [if_pos ((addrs_eq_zero hx hip hk).mpr hzero), hip.dev hx.icache]
    simp only [bind_assoc]
    have hone : x.cost (x.volume.slot i k) = 1 := if_neg fun hand => hand.1 hzero
    rw [hone] at htx
    refine wp_balloc htx hx.toSound (fun hno => hfull ?_) fun b hb hfree _ htx' => ?_
    · rw [hno]
      exact Volume.missing_pos hmem hzero
    have hlt : b < bpb := lt_of_lt_of_le hb.2 hx.wf.size_le
    have hsize := hx.wf.size_le
    obtain ⟨howned, hgrown, hslot⟩ := hx.owned.grow (by omega) hx.datastart_pos hb hfree hi
      (by omega) hzero fun hlt => absurd hlt (by omega)
    have hpaid := hx.owned.paid_grow (by omega) hx.datastart_pos hb hfree hi (by omega) hzero
      (fun hlt => absurd hlt (by omega)) hK hmem
    have halloc := hx.alloc hb hfree
    have hvolume := Session.volume_alloc hx.wf hb
    have hip' : (x.alloc b).Locked ip i := ⟨hip.loaded, hip.inum⟩
    -- linking the block is the assignment to the slot
    have hlink : (x.volume.alloc b).link i k b = (x.alloc b).volume.setNode i
        { (x.mem.inode ip).din with
          addrs := Function.update (x.mem.inode ip).din.addrs ⟨k, hk⟩ (BitVec.ofNat 32 b) } := by
      rw [Volume.link, dif_pos hk, hvolume, hip.node_eq hx.icache]
      rfl
    have hedit := halloc.toSettled.edit (f := fun i => i.setAddr ⟨k, hk⟩ b) hip' rfl
    rw [wp_modifyInode]
    have hvol := hedit.volume.trans hlink.symm
    have hne : b ≠ 0 := by
      have hpos := hx.datastart_pos
      have hle := hb.1
      omega
    have haddr := hslot
    rw [← hvol] at haddr hgrown hpaid
    have hinsert : insert i stale = stale := Set.insert_eq_of_mem hstale
    have hdone := h _ (hinsert ▸ hedit.intact (hlink ▸ howned))
      ((Session.frame_alloc pins x b).trans hedit.frame) hgrown hpaid hedit.locked
    rw [haddr, Session.cost_of_mem hne (by rw [hedit.marks]; exact Finset.mem_insert_self _ _)]
      at hdone
    exact hdone hne (hedit.tx htx')
  · rw [if_neg fun heq => hzero ((addrs_eq_zero hx hip hk).mp heq), addrs_direct hx hip hk]
    exact h x hx (.refl _ _) (.refl _ _ _) (.refl _ _ _ _) hip hzero htx

/-- `bmap` finds the address of a block, and allocates what is missing on the way. -/
theorem wp_bmap {f : ℕ → Kern α} (hx : x.Intact stale pins) (hstale : i ∈ stale)
    (hip : x.Locked ip i)
    (htx : Tx mode (spare + 1 + x.cost (x.volume.indirect i)) (holds + 2) x)
    (hK : ∀ l ∈ K, l < nslots) (hmem : bn < maxfile → fileSlot bn ∈ K ∧ (ndirect ≤ bn → ndirect ∈ K))
    (hfull : x.volume.free x.mem.sb.size < x.volume.missing i K →
      mode.err (.panic "balloc: out of blocks"))
    (hrange : maxfile ≤ bn → mode.err (.panic "bmap: out of range"))
    (h : ∀ y, y.Intact stale pins → Frame pins x y →
      Volume.Grown x.volume y.volume x.mem.sb.ninodes i →
      Volume.Paid x.volume y.volume x.mem.sb.size i K → y.Locked ip i → bn < maxfile →
      y.volume.fileAddr i bn ≠ 0 →
      Tx mode (spare + y.cost (y.volume.indirect i) + y.cost (y.volume.fileAddr i bn))
        (holds + 2) y →
      (f (y.volume.fileAddr i bn)).wp (sessionRules mode) Q y) :
    (bmap ip bn true >>= f).wp (sessionRules mode) Q x := by
  have hsizes := fsSizes
  have hi := hip.lt hx.icache
  rw [bmap, bind_assoc, wp_getInode]
  by_cases hdirect : bn < ndirect
  · have hslot : ∀ v : Volume, v.fileAddr i bn = v.slot i bn := fun v => by
      rw [Volume.fileAddr, fileSlot, if_pos hdirect]
    rw [dif_pos hdirect, if_neg (by rintro ⟨-, hno⟩; cases hno)]
    have hcost := x.cost_le (x.volume.slot i bn)
    have htx₁ : Tx mode (spare + x.cost (x.volume.indirect i) + x.cost (x.volume.slot i bn))
        (holds + 1 + 1) x := htx.less (by omega) le_rfl
    have hmem' : bn ∈ K := by
      have hfile := (hmem (by omega)).1
      rwa [fileSlot, if_pos hdirect] at hfile
    refine wp_allocAddr hx hstale hip (Nat.lt_succ_of_lt hdirect) htx₁ hK hmem' hfull
      fun y hy hframe hgrown hpaid hlocked hne htx' => ?_
    have hindirect := Session.cost_indirect_le hframe.marks hgrown.toExtended hi
    rw [← hslot] at hne htx' ⊢
    exact h y hy hframe hgrown hpaid hlocked (by omega) hne (htx'.less (by omega) le_rfl)
  · rw [dif_neg hdirect]
    by_cases hbn : bn - ndirect < nindirect
    · rw [if_pos hbn, if_neg (by rintro ⟨-, hno⟩; cases hno), bind_assoc]
      have hind : ∀ v : Volume, v.slot i ndirect = v.indirect i := fun v =>
        Volume.slot_indirect v i
      have htx₁ : Tx mode (spare + 1 + x.cost (x.volume.slot i ndirect)) (holds + 1 + 1) x := by
        rw [hind]
        exact htx
      have hmem' := hmem (by omega)
      refine wp_allocAddr hx hstale hip (Nat.lt_succ_self ndirect) htx₁ hK (hmem'.2 (by omega)) hfull
        fun y hy hframe hgrown hpaid hlocked hne htx' => ?_
      rw [hind] at hne htx' ⊢
      have hi' : i < y.mem.sb.ninodes := hlocked.lt hy.icache
      have hdata : y.mem.sb.IsData (y.volume.indirect i) := by
        rw [← hind] at hne ⊢
        exact hy.isData_slot hi' (by omega) hne
      have hok := hy.wf.data_ok hdata
      rw [hip.dev hx.icache]
      simp only [bind_assoc]
      refine wp_bread htx'.calm hok.1 (wp_data_hold ?_)
      rw [entry_eq hy hi' (by omega) (by omega) hne]
      by_cases hzero : y.volume.fileAddr i bn = 0
      · -- a block is allocated for the entry
        rw [if_pos ⟨hzero, trivial⟩]
        simp only [bind_assoc]
        have hcomm : spare + 1 + y.cost (y.volume.indirect i) =
            spare + y.cost (y.volume.indirect i) + 1 := by omega
        rw [hcomm] at htx'
        have hsize : y.mem.sb.size = x.mem.sb.size := congrArg _ hframe.sb
        have hfile : fileSlot bn = bn + 1 := if_neg hdirect
        have hslotmem : bn + 1 ∈ K := hfile ▸ hmem'.1
        have hempty : y.volume.slot i (bn + 1) = 0 := hfile ▸ hzero
        refine wp_balloc (htx'.hold _) ⟨hy.wf, hy.icache, hy.owned⟩ (fun hno => hfull ?_)
          fun b hb hfree _ hhold => ?_
        · refine hpaid.short ?_
          rw [← hsize]
          change y.volume.free y.mem.sb.size = 0 at hno
          rw [hno]
          exact Volume.missing_pos hslotmem hempty
        have hb' : y.mem.sb.IsData b := hb
        have hfree' : y.volume.used b = false := hfree
        have htop : y.mem.sb.size ≤ 2 ^ 32 := by
          have hle := hy.wf.size_le
          omega
        obtain ⟨howned, hgrown', hslot⟩ := hy.owned.grow (k := bn + 1) htop hy.datastart_pos hb'
          hfree' hi' (by omega) hempty fun _ => hne
        have hpaid' := hy.owned.paid_grow htop hy.datastart_pos hb' hfree' hi' (by omega) hempty
          (fun _ => hne) hK hslotmem
        have halloc := hy.alloc hb' hfree'
        have hvolume := Session.volume_alloc hy.wf hb'
        have hdiff : y.volume.indirect i ≠ b := by
          have hunowned := hy.owned.unowned_of_free (b := b)
            (by have hpos := hy.datastart_pos; have hle := hb'.1; omega) hfree'
          exact hy.owned.indirect_ne hunowned hi'
        have hstore : (y.alloc b).store (y.volume.indirect i) = y.store (y.volume.indirect i) :=
          Session.alloc_store_of_ne hdiff fun heq => hy.wf.bitmap_not_data (heq ▸ hdata)
        change Prog.wp _ _ _ ((y.alloc b).hold (y.volume.indirect i))
        refine wp_data_hold ?_
        have hafter : Tx mode (spare + y.cost (y.volume.indirect i)) (holds + 2) (y.alloc b) :=
          hhold.release fun hs => Session.tx_alloc htx' (mode.capped hs) hy.wf hb'
        refine wp_update hafter hok.1 hok.2 (fun hnot => ?_)
          (Nat.le_add_right spare _) fun htx'' => ?_
        · have hcost : y.cost (y.volume.indirect i) = 1 := if_neg fun hand => hnot
            (Finset.mem_insert_of_mem ((Session.frame_alloc pins y b).marks hand.2))
          omega
        · -- storing the entry links the block
          have hlink : (y.volume.alloc b).link i (bn + 1) b = (y.alloc b).volume.setBlock
              (y.volume.indirect i)
              (setIndirectEntry ((y.alloc b).store (y.volume.indirect i)) (bn - ndirect) b) := by
            have hblock : (y.volume.alloc b).block (y.volume.indirect i) =
                (y.alloc b).store (y.volume.indirect i) := by
              rw [← hvolume]
              exact if_pos hdata
            have hentry : bn + 1 - (ndirect + 1) = bn - ndirect := Nat.add_sub_add_right ..
            have hindirect : (y.volume.alloc b).indirect i = y.volume.indirect i := rfl
            rw [Volume.link, dif_neg (by omega), hindirect, hblock, hentry, hvolume]
          have hne' : b ≠ 0 := by
            have hpos := hy.datastart_pos
            have hle := hb'.1
            omega
          have hvol := (Session.volume_write_data
            (d := setIndirectEntry ((y.alloc b).store (y.volume.indirect i)) (bn - ndirect) b)
            halloc.wf hdata).trans hlink.symm
          have hintact := halloc.writeData hdata (hlink ▸ howned)
          have hgrown'' := hgrown.trans (by
            have hsb : y.mem.sb.ninodes = x.mem.sb.ninodes := congrArg _ hframe.sb
            rw [hsb] at hgrown'
            exact hgrown') hi
          have haddr : ((y.volume.alloc b).link i (bn + 1) b).fileAddr i bn = b := by
            rw [Volume.fileAddr, hfile]
            exact hslot
          have hkeep : ((y.volume.alloc b).link i (bn + 1) b).indirect i =
              y.volume.indirect i := by
            rw [← hind, ← hind]
            rw [← hind] at hne
            exact hgrown'.keep i hi' ndirect (by omega) hne
          rw [← hvol] at haddr hgrown'' hkeep hpaid'
          rw [hsize] at hpaid'
          have hdone := h _ hintact
            ((hframe.trans (Session.frame_alloc pins y b)).trans (Session.frame_write ..))
            hgrown'' (hpaid.trans hpaid') ⟨hlocked.loaded, hlocked.inum⟩ (by omega)
          rw [haddr, hkeep, Session.cost_of_mem hne (Finset.mem_insert_self _ _),
            Session.cost_of_mem hne'
              (Finset.mem_insert_of_mem (Finset.mem_insert_self _ _))] at hdone
          exact hdone hne' htx''
      · rw [if_neg fun hand => hzero hand.1, bind_assoc]
        refine wp_brelse htx'.inv (h y hy hframe hgrown hpaid hlocked (by omega) hzero
          (htx'.less ?_ le_rfl))
        have hcost := y.cost_le (y.volume.fileAddr i bn)
        omega
    · rw [if_neg hbn]
      exact wp_panic_bind.mpr (hrange (by omega))

end

end OnSession

/-! ## Writing -/

/-- The number of blocks of a file that `n` bytes at offset `off` lie in. -/
def blocksIn (off n : ℕ) : ℕ := if n = 0 then 0 else (off + n - 1) / bsize - off / bsize + 1

theorem blocksIn_step (off : ℕ) {n : ℕ} (hn : n ≠ 0) :
    blocksIn off n = blocksIn (off + min (bsize - off % bsize) n)
      (n - min (bsize - off % bsize) n) + 1 := by
  unfold blocksIn
  change (if n = 0 then 0 else (off + n - 1) / 1024 - off / 1024 + 1) =
    (if n - min (1024 - off % 1024) n = 0 then 0 else
      (off + min (1024 - off % 1024) n + (n - min (1024 - off % 1024) n) - 1) / 1024 -
        (off + min (1024 - off % 1024) n) / 1024 + 1) + 1
  rw [if_neg hn]
  split <;> omega

/-- An entry of a directory lies in one block. -/
theorem blocksIn_entry (k : ℕ) : blocksIn (16 * k) 16 = 1 := by
  change (if 16 = 0 then 0 else (16 * k + 16 - 1) / 1024 - 16 * k / 1024 + 1) = 1
  rw [if_neg (by decide)]
  omega

namespace OnSession

section
variable {mode : Mode} {α : Type} {Q : α → Session → Prop}
  {spare holds : ℕ} {x : Session} {stale : Set ℕ} {pins : Pins} {ip : Fin ninode} {i : ℕ}
  {K : Finset ℕ}

/-- The loop of `writei`. -/
theorem wp_writeLoop {Q : Bool → Session → Prop} (hx : x.Intact stale pins) (hstale : i ∈ stale)
    (hip : x.Locked ip i) {rounds off : ℕ} {src : List UInt8} (hrounds : src.length ≤ rounds)
    (htx : Tx mode (spare + blocksIn off src.length + x.cost (x.volume.indirect i))
      (holds + 2) x)
    (hK : ∀ l ∈ K, l < nslots)
    (hmem : ∀ bn < maxfile, off / bsize ≤ bn → bn * bsize < off + src.length →
      fileSlot bn ∈ K ∧ (ndirect ≤ bn → ndirect ∈ K))
    (hfull : x.volume.free x.mem.sb.size < x.volume.missing i K →
      mode.err (.panic "balloc: out of blocks"))
    (hrange : maxfile * bsize < off + src.length → mode.err (.panic "bmap: out of range"))
    (h : ∀ y, y.Intact stale pins → Frame pins x y →
      Volume.Written x.volume y.volume x.mem.sb.ninodes i off src → y.Locked ip i →
      Volume.Paid x.volume y.volume x.mem.sb.size i K →
      (src ≠ [] → off + src.length ≤ maxfile * bsize) → Tx mode spare (holds + 2) y →
      Q true y) :
    (writeLoop ip rounds off src).wp (sessionRules mode) Q x := by
  induction rounds generalizing x off src with
  | zero =>
      have hnil : src = [] := List.length_eq_zero_iff.mp (Nat.le_zero.mp hrounds)
      subst hnil
      exact wp_done.mpr (h x hx (.refl _ _) (.of_grown (.refl _ _ _) _) hip
        (.refl _ _ _ _) (fun hne => absurd rfl hne) (htx.less (Nat.le_add_right _ _) le_rfl))
  | succ rounds ih =>
      rw [writeLoop]
      by_cases hnil : src.length = 0
      · rw [if_pos hnil]
        have hempty : src = [] := List.length_eq_zero_iff.mp hnil
        subst hempty
        exact wp_done.mpr (h x hx (.refl _ _) (.of_grown (.refl _ _ _) _) hip
          (.refl _ _ _ _) (fun hne => absurd rfl hne) (htx.less (Nat.le_add_right _ _) le_rfl))
      · rw [if_neg hnil]
        have hsizes := fsSizes
        have hi := hip.lt hx.icache
        have hstep := blocksIn_step off hnil
        generalize hm : min (bsize - off % bsize) src.length = m at hstep
        have hmod : off % bsize < bsize := Nat.mod_lt _ (by decide)
        have hpos : 0 < m := by omega
        have htake : (src.take m).length = m := List.length_take_of_le (by omega)
        have hdrop : (src.drop m).length = src.length - m := List.length_drop
        have hdiv := Nat.div_add_mod off bsize
        have htx₁ : Tx mode (spare + blocksIn (off + m) (src.length - m) + 1 +
            x.cost (x.volume.indirect i)) (holds + 2) x := htx.less (by omega) le_rfl
        have hmem₁ : off / bsize < maxfile → fileSlot (off / bsize) ∈ K ∧
            (ndirect ≤ off / bsize → ndirect ∈ K) := fun hlt => hmem _ hlt le_rfl
          (lt_of_le_of_lt (Nat.div_mul_le_self off bsize) (Nat.lt_add_of_pos_right (by omega)))
        refine wp_bmap hx hstale hip htx₁ hK hmem₁ hfull
          (fun hle => hrange ?_) fun y hy hframe hgrown hpaid hlocked hbn hne htx' => ?_
        · have hmul := Nat.mul_le_mul_right bsize hle
          have hdiv' := Nat.div_mul_le_self off bsize
          omega
        · have hi' : i < y.mem.sb.ninodes := hlocked.lt hy.icache
          have hsb : y.mem.sb.ninodes = x.mem.sb.ninodes := congrArg _ hframe.sb
          have hdata := hy.isData_fileAddr hi' hbn hne
          have hok := hy.wf.data_ok hdata
          have hblock := hy.block_fileAddr hi' hbn hne
          rw [if_neg hne, wp_getInode, hlocked.dev hy.icache]
          refine wp_bread htx'.calm hok.1 (wp_data_hold ?_)
          have hle : spare + blocksIn (off + m) (src.length - m) + y.cost (y.volume.indirect i) ≤
              spare + blocksIn (off + m) (src.length - m) + y.cost (y.volume.indirect i) +
                y.cost (y.volume.fileAddr i (off / bsize)) := Nat.le_add_right _ _
          refine wp_update htx' hok.1 hok.2 (fun hnot => ?_) hle fun htx'' => ?_
          · have hcost : y.cost (y.volume.fileAddr i (off / bsize)) = 1 :=
              if_neg fun hand => hnot (Finset.mem_insert_of_mem hand.2)
            omega
          · have hfit : off % bsize + (src.take m).length ≤ bsize := by omega
            have hvol := Session.volume_write_data
              (d := (y.store (y.volume.fileAddr i (off / bsize))).write (off % bsize) (src.take m))
              hy.wf hdata
            have hintact := hy.writeData hdata (hy.owned.setBlock hi' (fileSlot_lt hbn)
              (fileSlot_ne_indirect _) hne
              ((y.store (y.volume.fileAddr i (off / bsize))).write (off % bsize) (src.take m)))
            have hwritten := Volume.Written.of_block hy.owned hi' hbn hne hfit
            rw [hsb, hblock, ← hvol] at hwritten
            have hframe' := hframe.trans (Session.frame_write pins y
              (y.volume.fileAddr i (off / bsize))
              ((y.store (y.volume.fileAddr i (off / bsize))).write (off % bsize) (src.take m)))
            have hfirst := (Volume.Written.of_grown hgrown off).append hwritten hi
            rw [List.nil_append] at hfirst
            have hpaid' : Volume.Paid y.volume (y.write (y.volume.fileAddr i (off / bsize))
                ((y.store (y.volume.fileAddr i (off / bsize))).write (off % bsize)
                  (src.take m))).volume x.mem.sb.size i K := by
              rw [hvol]
              exact .of_same rfl fun l _ => hy.owned.slot_data hi' (fileSlot_lt hbn)
                (fileSlot_ne_indirect _) hne hi' _ l
            have hnext : off / bsize ≤ (off + m) / bsize :=
              Nat.div_le_div_right (Nat.le_add_right _ _)
            have hsize : (y.write (y.volume.fileAddr i (off / bsize))
                ((y.store (y.volume.fileAddr i (off / bsize))).write (off % bsize)
                  (src.take m))).mem.sb.size = x.mem.sb.size := congrArg _ hframe.sb
            refine ih hintact ⟨hlocked.loaded, hlocked.inum⟩ (by omega) ?_
              (fun bn hlt hlo hhi => hmem bn hlt (hnext.trans hlo) (by omega))
              (fun hshort => ?_) (fun hlt => ?_)
              fun z hz hframe'' hrest hlocked' hpaid'' hend htx''' => ?_
            · have hle := Session.cost_indirect_le
                (Session.frame_write pins y _ _).marks hwritten.toExtended hi
              rw [hdrop]
              exact htx''.less (Nat.add_le_add_left hle _) le_rfl
            · rw [hsize] at hshort
              exact hfull ((hpaid.trans hpaid').short hshort)
            · exact hrange (by omega)
            · rw [hsize] at hpaid''
              refine h z hz (hframe'.trans hframe'') ?_ hlocked' ((hpaid.trans hpaid').trans hpaid'')
                (fun _ => ?_) htx'''
              · have hsb' : (y.write (y.volume.fileAddr i (off / bsize))
                    ((y.store (y.volume.fileAddr i (off / bsize))).write (off % bsize)
                      (src.take m))).mem.sb.ninodes = x.mem.sb.ninodes := hsb
                rw [hsb'] at hrest
                have hall := hfirst.append (by rw [htake]; exact hrest) hi
                rw [List.take_append_drop] at hall
                exact hall
              · by_cases hmore : src.drop m = []
                · have hlast : src.length ≤ m := List.drop_eq_nil_iff.mp hmore
                  have hmul := Nat.mul_le_mul_right bsize (Nat.succ_le_of_lt hbn)
                  have hcomm := Nat.mul_comm bsize (off / bsize)
                  have hsucc := Nat.succ_mul (off / bsize) bsize
                  omega
                · have hle := hend hmore
                  omega

/-- `writei` writes all the bytes and extends the file, or returns -1 and does nothing.  It takes
blocks for slots in `K` only. -/
theorem wp_writei_paid {f : ℤ → Kern α} (hx : x.Intact stale pins) (hip : x.Locked ip i)
    {off : ℕ} {src : List UInt8} (hoff : off < 2 ^ 32) (hlen : src.length < 2 ^ 32)
    (htx : Tx mode (spare + 2 + blocksIn off src.length) (holds + 2) x)
    (hK : ∀ l ∈ K, l < nslots) (hsub : Volume.slotsIn off src.length ⊆ K)
    (hfull : off ≤ (x.volume.node i).size.toNat →
      x.volume.free x.mem.sb.size < x.volume.missing i K →
      mode.err (.panic "balloc: out of blocks"))
    (hrange : off ≤ (x.volume.node i).size.toNat → maxfile * bsize < off + src.length →
      mode.err (.panic "bmap: out of range"))
    (hfail : (x.volume.node i).size.toNat < off ∨ 2 ^ 32 ≤ off + src.length →
      (f (-1)).wp (sessionRules mode) Q x)
    (h : off ≤ (x.volume.node i).size.toNat → (src ≠ [] → off + src.length ≤ maxfile * bsize) →
      ∀ y, y.Intact stale pins → Frame pins x y →
      (x.volume.WrittenTo y.volume x.mem.sb.ninodes i off src) →
      Volume.Paid x.volume y.volume x.mem.sb.size i K → y.Locked ip i →
      Tx mode spare (holds + 2) y → (f src.length).wp (sessionRules mode) Q y) :
    (writei ip src off >>= f).wp (sessionRules mode) Q x := by
  have hlt : (x.volume.node i).size.toNat < 2 ^ 32 := BitVec.isLt _
  have hu32 : u32 (off + src.length) = (off + src.length) % 2 ^ 32 := u32_mod (off + src.length)
  have hover : u32 (off + src.length) < off ↔ 2 ^ 32 ≤ off + src.length := by
    rw [hu32]
    omega
  rw [writei, bind_assoc, wp_getInode, hip.node_eq hx.icache]
  by_cases hbad : (x.volume.node i).size.toNat < off ∨ u32 (off + src.length) < off
  · rw [if_pos hbad]
    exact hfail (by rw [← hover]; exact hbad)
  · rw [if_neg hbad, bind_assoc]
    have hle : off ≤ (x.volume.node i).size.toNat := by omega
    by_cases hnil : src = []
    · -- nothing is written
      subst hnil
      refine h hle (fun hne => absurd rfl hne) x hx (.refl _ _) ?_ (.refl _ _ _ _) hip
        (htx.less (by omega) (le_refl (holds + 2)))
      refine ⟨x.volume, .of_grown (.refl _ _ _) _, (Volume.setSize_self ?_).symm⟩
      rw [List.length_nil, Nat.add_zero, Nat.max_eq_left hle]
    · have hcost := x.cost_le (x.volume.indirect i)
      have htx₁ : Tx mode (spare + 1 + blocksIn off src.length + x.cost (x.volume.indirect i))
          (holds + 2) x := htx.less (by omega) le_rfl
      rw [Prog.wp_bind]
      refine wp_writeLoop (hx.more_stale (Set.subset_insert i stale)) (Set.mem_insert i stale) hip
        le_rfl htx₁ hK (fun _ hbn hlo hhi => ?_) (hfull hle) (hrange hle)
        fun y hy hframe hwritten hlocked hpaid hend htx' => ?_
      · obtain ⟨hfile, hind⟩ := Volume.mem_slotsIn hbn hlo hhi
        exact ⟨hsub hfile, fun hle => hsub (hind hle)⟩
      have hpos : 0 < src.length := List.length_pos_iff.mpr hnil
      have hsize : (y.volume.node i).size = (x.volume.node i).size := by
        obtain ⟨addrs, haddrs⟩ := hwritten.fields
        rw [haddrs]
      rw [if_pos rfl, writeEnd, if_pos hpos]
      simp only [bind_assoc]
      have hgrow : (y.mem.inode ip).grow (off + src.length) = { y.mem.inode ip with
          din := { y.volume.node i with
            size := BitVec.ofNat 32
              (max (x.volume.node i).size.toNat (off + src.length)) } } := by
        rw [Inode.grow, hlocked.node_eq hy.icache, hsize]
        by_cases hlt : (x.volume.node i).size.toNat < off + src.length
        · rw [if_pos hlt, Nat.max_eq_right hlt.le]
        · rw [if_neg hlt, Nat.max_eq_left (not_lt.mp hlt), BitVec.ofNat_toNat, BitVec.setWidth_eq,
            ← hsize, ← hlocked.node_eq hy.icache]
      have hedit := hy.toSettled.edit hlocked hgrow
      rw [wp_modifyInode]
      refine wp_iupdate (hedit.intact (hy.owned.setNode rfl)) hedit.locked (hedit.tx htx') (fun _ => le_rfl)
        (Nat.le_succ _) fun z hz hframe' hvolume hlocked' htx'' _ => ?_
      refine h hle hend z (hz.more_stale ?_) ((hframe.trans hedit.frame).trans hframe') ?_ ?_
        hlocked' htx''
      · rintro j ⟨hj, hne⟩
        have hji : j ≠ i := hne
        simpa [hji] using hj
      · exact ⟨y.volume, hwritten, hvolume.trans hedit.volume⟩
      · -- setting the size takes no block
        have hset := hvolume.trans hedit.volume
        refine hpaid.trans (.of_same ?_ fun l _ => ?_)
        · have hused := congrArg Volume.used hset
          exact hused
        · have hslot (din : Dinode) (haddrs : din.addrs = (y.volume.node i).addrs) :=
            Volume.slot_setNode haddrs i l
          rw [hset]
          exact hslot _ rfl

theorem wp_writei {f : ℤ → Kern α} (hx : x.Intact stale pins) (hip : x.Locked ip i)
    {off : ℕ} {src : List UInt8} (hoff : off < 2 ^ 32) (hlen : src.length < 2 ^ 32)
    (htx : Tx mode (spare + 2 + blocksIn off src.length) (holds + 2) x)
    (hfull : x.volume.free x.mem.sb.size < x.volume.missing i (Volume.slotsIn off src.length) →
      mode.err (.panic "balloc: out of blocks"))
    (hrange : maxfile * bsize < off + src.length → mode.err (.panic "bmap: out of range"))
    (hfail : (x.volume.node i).size.toNat < off ∨ 2 ^ 32 ≤ off + src.length →
      (f (-1)).wp (sessionRules mode) Q x)
    (h : off ≤ (x.volume.node i).size.toNat → (src ≠ [] → off + src.length ≤ maxfile * bsize) →
      ∀ y, y.Intact stale pins → Frame pins x y →
      (x.volume.WrittenTo y.volume x.mem.sb.ninodes i off src) → y.Locked ip i →
      Tx mode spare (holds + 2) y → (f src.length).wp (sessionRules mode) Q y) :
    (writei ip src off >>= f).wp (sessionRules mode) Q x :=
  wp_writei_paid hx hip hoff hlen htx (fun _ hl => Volume.lt_of_mem_slotsIn hl)
    (Finset.Subset.refl _) (fun _ => hfull) (fun _ => hrange) hfail
    fun hle hfit y hy hframe hwritten _ hlocked htx' => h hle hfit y hy hframe hwritten hlocked htx'

end

end OnSession

end RiscvOs
