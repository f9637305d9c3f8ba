import RiscvOs.Fs.Data

/-!
# Freeing the blocks of an inode

`itrunc` frees the blocks one by one, so that in between an indirect block lists blocks
that are free.  `Shed` is what holds there; at the end the inode has no block left, and no
other inode has lost one.
-/

namespace RiscvOs

open Effect Bytes Kern

/-- `itrunc` of inode `i` has come from `x` to `y`: it has set the first `a` addresses to 0
and freed the blocks whose addresses `P` picks. -/
structure Shed (mode : Mode) (spare holds : ℕ) (stale : Set ℕ) (pins : Pins)
    (ip : Fin ninode) (i : ℕ) (x : Session) (a : ℕ) (P : ℕ → Bool) (y : Session) : Prop where
  settled : y.Settled (insert i stale) pins
  frame : Frame pins x y
  volume : y.volume = x.volume.shed i a P
  locked : y.Locked ip i
  tx : Tx mode spare holds y

section
variable {mode : Mode} {spare holds : ℕ} {x y : Session} {stale : Set ℕ} {pins : Pins}
  {ip : Fin ninode} {i a k : ℕ} {P P' : ℕ → Bool}

namespace Shed

theorem start (hx : x.Intact stale pins) (hip : x.Locked ip i) (htx : Tx mode spare holds x) :
    Shed mode spare holds stale pins ip i x 0 (fun _ => false) x where
  settled := (hx.more_stale (Set.subset_insert i stale)).toSettled
  frame := .refl _ _
  volume := (Volume.shed_start _ _).symm
  locked := hip
  tx := htx

theorem congr (h : Shed mode spare holds stale pins ip i x a P y)
    (hP : ∀ k < nslots, x.volume.slot i k ≠ 0 → P k = P' k) :
    Shed mode spare holds stale pins ip i x a P' y :=
  { h with volume := h.volume.trans (Volume.shed_congr hP) }

/-- Address `a` is 0 already. -/
theorem skip (h : Shed mode spare holds stale pins ip i x a P y) (ha : a < ndirect + 1)
    (hzero : x.volume.slot i a = 0) : Shed mode spare holds stale pins ip i x (a + 1) P y :=
  { h with volume := h.volume.trans (Volume.shed_succ ha hzero) }

/-- The block at address `k` can be freed. -/
theorem used (h : Shed mode spare holds stale pins ip i x a P y) (hx : x.Intact stale pins)
    (hi : i < x.mem.sb.ninodes) (hk : k < nslots) (hne : x.volume.slot i k ≠ 0)
    (hP : P k = false) :
    x.volume.slot i k < bpb ∧ y.volume.used (x.volume.slot i k) = true := by
  refine ⟨lt_of_lt_of_le (hx.isData_slot hi hk hne).2 hx.wf.size_le, ?_⟩
  rw [h.volume]
  exact Volume.shed_used hx.owned hi hk hne hP

/-- The block at address `k` has been freed. -/
theorem freed (h : Shed mode spare holds stale pins ip i x a P y) (hx : x.Intact stale pins)
    (hi : i < x.mem.sb.ninodes) (hk : k < nslots) (hne : x.volume.slot i k ≠ 0)
    (htx : Tx mode spare holds (y.free (x.volume.slot i k))) :
    Shed mode spare holds stale pins ip i x a (fun l => P l || decide (l = k))
      (y.free (x.volume.slot i k)) where
  settled := h.settled.write fun j hj => h.settled.wf.iblock_ne_bitmap hj
  frame := h.frame.trans (Session.frame_write ..)
  volume := by
    have hlt : x.volume.slot i k < bpb :=
      lt_of_lt_of_le (hx.isData_slot hi hk hne).2 hx.wf.size_le
    rw [Session.volume_free h.settled.wf hlt, h.volume, Volume.shed_free hk hne]
  locked := ⟨h.locked.loaded, h.locked.inum⟩
  tx := htx

/-- Address `a` has been set to 0. -/
theorem cleared (h : Shed mode spare holds stale pins ip i x a P y) (ha : a < ndirect + 1) :
    Shed mode spare holds stale pins ip i x (a + 1) P
      (y.withMem (y.mem.setInode ip fun i => i.setAddr ⟨a, ha⟩ 0)) := by
  have hedit := h.settled.edit (f := fun i => i.setAddr ⟨a, ha⟩ 0) h.locked rfl
  have hvolume := hedit.volume
  have hsettled := hedit.settled
  rw [Set.insert_eq_of_mem (Set.mem_insert i stale)] at hsettled
  rw [h.locked.node_eq h.settled.icache, h.volume] at hvolume
  exact
    { settled := hsettled
      frame := h.frame.trans hedit.frame
      volume := hvolume.trans (Volume.shed_node ha)
      locked := hedit.locked
      tx := hedit.tx h.tx }

/-- What the slot of the inode holds at an address that has not been set to 0. -/
theorem addrs_eq (h : Shed mode spare holds stale pins ip i x a P y) {k : Fin (ndirect + 1)}
    (hk : a ≤ k.val) : (y.mem.inode ip).din.addrs k = (x.volume.node i).addrs k := by
  rw [h.locked.node_eq h.settled.icache, h.volume, Volume.shed_self]
  exact if_neg (not_lt.mpr hk)

end Shed

end

namespace OnSession

section
variable {mode : Mode} {α : Type} {Q : α → Session → Prop}
  {spare holds : ℕ} {x y : Session} {stale : Set ℕ} {pins : Pins} {ip : Fin ninode} {i k : ℕ}
  {P : ℕ → Bool}

private theorem addr_eq_slot (v : Volume) (i : ℕ) {k : ℕ} (hk : k < ndirect + 1) :
    ((v.node i).addrs ⟨k, hk⟩).toNat = v.slot i k := by
  rw [Volume.slot, dif_pos hk]

private theorem addr_eq_zero {v : Volume} {i k : ℕ} (hk : k < ndirect + 1) :
    (v.node i).addrs ⟨k, hk⟩ = 0 ↔ v.slot i k = 0 := by
  rw [← addr_eq_slot v i hk]
  exact (BitVec.toNat_inj (y := 0)).symm

theorem or_eq_lt_succ (k l : ℕ) : (decide (l < k) || decide (l = k)) = decide (l < k + 1) := by
  rw [← Bool.decide_or]
  exact decide_eq_decide.mpr (by omega)

/-- One round of the first loop. -/
theorem truncDirect_wp (hx : x.Intact stale pins) (hi : i < x.mem.sb.ninodes)
    (h : Shed mode spare (holds + 1) stale pins ip i x k (fun l => decide (l < k)) y)
    (hk : k < ndirect) :
    (truncDirect ip k).wp (sessionRules mode)
      (fun _ => Shed mode spare (holds + 1) stale pins ip i x (k + 1)
        fun l => decide (l < k + 1)) y := by
  have hsizes := fsSizes
  have hnext : ∀ {a y}, Shed mode spare (holds + 1) stale pins ip i x a
      (fun l => decide (l < k) || decide (l = k)) y →
      Shed mode spare (holds + 1) stale pins ip i x a (fun l => decide (l < k + 1)) y :=
    fun h => h.congr fun l _ _ => or_eq_lt_succ k l
  rw [truncDirect, wp_getInode, dif_pos hk, h.addrs_eq (le_refl k)]
  by_cases hzero : x.volume.slot i k = 0
  · rw [if_pos ((addr_eq_zero _).mpr hzero)]
    refine wp_done.mpr ((h.skip (Nat.lt_succ_of_lt hk) hzero).congr fun l _ hne => ?_)
    have hlk : l ≠ k := fun heq => hne (heq ▸ hzero)
    exact decide_eq_decide.mpr (by omega)
  · obtain ⟨hlt, hused⟩ := h.used hx hi (by omega) hzero (decide_eq_false (lt_irrefl k))
    rw [if_neg fun heq => hzero ((addr_eq_zero _).mp heq), addr_eq_slot,
      h.locked.dev h.settled.icache]
    refine wp_bfree h.tx h.settled.wf hlt hused fun htx => ?_
    have hfreed := hnext (h.freed hx hi (by omega) hzero htx)
    exact wp_modifyInode_last.mpr (hfreed.cleared (Nat.lt_succ_of_lt hk))

/-- The addresses freed before round `j` of the second loop. -/
def entriesBelow (j l : ℕ) : Bool := decide (l ≠ ndirect ∧ l < ndirect + 1 + j)

theorem entriesBelow_succ (j l : ℕ) :
    (entriesBelow j l || decide (l = ndirect + 1 + j)) = entriesBelow (j + 1) l := by
  unfold entriesBelow
  rw [← Bool.decide_or]
  exact decide_eq_decide.mpr (by omega)

/-- One round of the second loop, while the indirect block is held. -/
theorem truncIndirect_wp (hx : x.Intact stale pins) (hi : i < x.mem.sb.ninodes)
    (hind : x.volume.indirect i ≠ 0) {j : ℕ} (hj : j < nindirect)
    (h : Shed mode spare (holds + 2) stale pins ip i x ndirect (entriesBelow j) y) :
    (truncIndirect ip ⟨rootdev, x.volume.indirect i⟩ j).wp (sessionRules mode)
      (fun _ t => ∃ z, t = z.hold (x.volume.indirect i) ∧
        Shed mode spare (holds + 2) stale pins ip i x ndirect (entriesBelow (j + 1)) z)
      (y.hold (x.volume.indirect i)) := by
  have hsizes := fsSizes
  have hne := hind
  rw [← Volume.slot_indirect] at hne
  have hdata := hx.isData_slot hi (by omega) hne
  rw [Volume.slot_indirect] at hdata
  have hblock : y.store (x.volume.indirect i) = x.volume.block (x.volume.indirect i) := by
    have hdata' : y.mem.sb.IsData (x.volume.indirect i) := by
      rw [h.frame.sb]
      exact hdata
    have hsame : y.volume.block (x.volume.indirect i) = y.store (x.volume.indirect i) :=
      if_pos hdata'
    rw [← hsame, h.volume]
    rfl
  have hentry : indirectEntry (y.store (x.volume.indirect i)) j =
      x.volume.slot i (ndirect + 1 + j) := by
    rw [Volume.slot, dif_neg (by omega), if_neg hind, hblock, Nat.add_sub_cancel_left]
  rw [truncIndirect, wp_getInode]
  refine wp_data_hold ?_
  rw [hentry]
  by_cases hzero : x.volume.slot i (ndirect + 1 + j) = 0
  · rw [if_pos hzero]
    refine wp_done.mpr ⟨y, rfl, h.congr fun l _ hl => ?_⟩
    have hlj : l ≠ ndirect + 1 + j := fun heq => hl (heq ▸ hzero)
    exact decide_eq_decide.mpr (by omega)
  · have hP : entriesBelow j (ndirect + 1 + j) = false := decide_eq_false (by omega)
    obtain ⟨hlt, hused⟩ := h.used hx hi (by omega) hzero hP
    have hdev : ((y.hold (x.volume.indirect i)).mem.inode ip).dev = rootdev :=
      h.locked.dev h.settled.icache
    rw [if_neg hzero, hdev, ← Prog.bind_ret (bfree _ _)]
    refine wp_bfree (h.tx.hold _) h.settled.wf hlt hused fun hhold => wp_done.mpr ?_
    have htx : Tx mode spare (holds + 2) (y.free (x.volume.slot i (ndirect + 1 + j))) :=
      Tx.release (b := x.volume.indirect i) hhold fun hs =>
        Session.tx_free h.tx (mode.capped hs) h.settled.wf _
    exact ⟨_, rfl, (h.freed hx hi (by omega) hzero htx).congr fun l _ _ => entriesBelow_succ j l⟩

/-- The second part of `itrunc`. -/
theorem truncTail_wp (hx : x.Intact stale pins) (hi : i < x.mem.sb.ninodes)
    (h : Shed mode spare (holds + 2) stale pins ip i x ndirect
      (fun l => decide (l < ndirect)) y) :
    (truncTail ip).wp (sessionRules mode)
      (fun _ => Shed mode spare (holds + 2) stale pins ip i x (ndirect + 1) fun _ => true)
      y := by
  have hsizes := fsSizes
  have hslot : x.volume.slot i ndirect = x.volume.indirect i := Volume.slot_indirect _ _
  have hiff : (x.volume.node i).addrs indirectSlot = 0 ↔ x.volume.slot i ndirect = 0 :=
    addr_eq_zero (Nat.lt_succ_self ndirect)
  rw [truncTail, wp_getInode, h.addrs_eq (k := indirectSlot) le_rfl]
  by_cases hzero : x.volume.indirect i = 0
  · rw [if_pos (hiff.mpr (hslot.trans hzero))]
    refine wp_done.mpr ((h.skip (Nat.lt_succ_self ndirect) (hslot.trans hzero)).congr
      fun l _ hne => decide_eq_true ?_)
    by_contra hle
    by_cases hl : l = ndirect
    · exact hne (hl ▸ hslot.trans hzero)
    · exact hne (Volume.slot_eq_zero_of_indirect (by omega) hzero)
  · have hne : x.volume.slot i ndirect ≠ 0 := fun heq => hzero (hslot.symm.trans heq)
    have haddr : ((x.volume.node i).addrs indirectSlot).toNat = x.volume.indirect i := rfl
    have hdata : x.mem.sb.IsData (x.volume.indirect i) :=
      hslot ▸ hx.isData_slot hi (by omega) hne
    have hok := hx.wf.data_ok hdata
    rw [if_neg fun heq => hne (hiff.mp heq), haddr, h.locked.dev h.settled.icache]
    refine wp_bread h.tx.calm hok.1 ?_
    rw [Prog.wp_bind]
    have hloop : (Prog.forRange (truncIndirect ip ⟨rootdev, x.volume.indirect i⟩) 0 nindirect).wp
        (sessionRules mode) (fun _ t => ∃ z, t = z.hold (x.volume.indirect i) ∧
          Shed mode spare (holds + 2) stale pins ip i x ndirect (entriesBelow (0 + nindirect)) z)
        (y.hold (x.volume.indirect i)) := by
      have hstart : Shed mode spare (holds + 2) stale pins ip i x ndirect (entriesBelow 0) y :=
        h.congr fun l _ _ => decide_eq_decide.mpr (by omega)
      refine Prog.wp_forRange (L := sessionRules mode)
        (fun j t => ∃ z, t = z.hold (x.volume.indirect i) ∧
          Shed mode spare (holds + 2) stale pins ip i x ndirect (entriesBelow j) z)
        (fun _ _ _ _ _ => trivial) ⟨y, rfl, hstart⟩ ?_
      rintro j t - hj ⟨z, rfl, hz⟩
      exact truncIndirect_wp hx hi hzero (by omega) hz
    refine Prog.wp_mono hloop ?_
    rintro - t - ⟨z, rfl, hz⟩
    refine wp_brelse hz.tx.inv ?_
    have hP : entriesBelow (0 + nindirect) ndirect = false :=
      decide_eq_false fun hand => hand.1 rfl
    obtain ⟨hlt, hused⟩ := hz.used hx hi (by omega) hne hP
    rw [hslot] at hlt hused
    refine wp_bfree hz.tx hz.settled.wf hlt hused fun htx => wp_modifyInode_last.mpr ?_
    rw [← hslot] at htx
    have hfreed := hz.freed hx hi (by omega) hne htx
    rw [hslot] at hfreed
    refine (hfreed.cleared (Nat.lt_succ_self ndirect)).congr fun l hl _ => ?_
    rw [entriesBelow, ← Bool.decide_or]
    exact decide_eq_true (by omega)

/-- `itrunc` frees all the blocks of the inode. -/
theorem wp_itrunc {spare' : ℕ} {f : Unit → Kern α} (hx : x.Intact stale pins)
    (hip : x.Locked ip i) (htx : Tx mode spare (holds + 2) x)
    (hspare : x.mem.sb.iblock i ∉ x.marks → spare' + 1 ≤ spare) (hle : spare' ≤ spare)
    (h : ∀ y, y.Intact stale pins → Frame pins x y → y.volume = x.volume.truncate i →
      y.Locked ip i → Tx mode spare' (holds + 2) y → (f ()).wp (sessionRules mode) Q y) :
    (itrunc ip >>= f).wp (sessionRules mode) Q x := by
  have hsizes := fsSizes
  have hi := hip.lt hx.icache
  simp only [itrunc, bind_assoc]
  rw [Prog.wp_bind]
  have hfirst : (Prog.forRange (truncDirect ip) 0 ndirect).wp (sessionRules mode)
      (fun _ => Shed mode spare (holds + 2) stale pins ip i x (0 + ndirect)
        fun l => decide (l < 0 + ndirect)) x :=
    Prog.wp_forRange
      (fun k y => Shed mode spare (holds + 2) stale pins ip i x k (fun l => decide (l < k)) y)
      (fun _ _ _ _ _ => trivial) ((Shed.start hx hip htx).congr fun _ _ _ => rfl)
      (fun k t _ hk ht => truncDirect_wp hx hi ht (by omega))
  refine Prog.wp_mono hfirst fun _ y _ hy => ?_
  rw [Prog.wp_bind]
  rw [Nat.zero_add] at hy
  refine Prog.wp_mono (truncTail_wp hx hi hy) fun _ z _ hz => ?_
  -- all blocks are free; the size is set and the inode stored
  have hedit := hz.settled.edit (f := fun i => { i with din := { i.din with size := 0 } })
    hz.locked rfl
  have hvolume : z.volume.setNode i { (z.mem.inode ip).din with size := 0 } =
      x.volume.truncate i := by
    rw [hz.locked.node_eq hz.settled.icache, hz.volume]
    exact Volume.shed_all fun _ _ => rfl
  have hintact := hedit.intact (by
    rw [hvolume, hz.frame.sb]
    exact hx.owned.truncate hi)
  rw [wp_modifyInode]
  refine wp_iupdate hintact hedit.locked (hedit.tx hz.tx) (fun hnot => hspare fun hmem => hnot ?_)
    hle fun w hw hframe hvol hlocked htx' _ => ?_
  · rw [hedit.marks, hedit.frame.sb, hz.frame.sb]
    exact hz.frame.marks hmem
  · refine h w (hw.more_stale ?_) ((hz.frame.trans hedit.frame).trans hframe) ?_ hlocked htx'
    · rintro j ⟨hj, hne⟩
      have hji : j ≠ i := hne
      simpa [hji] using hj
    · rw [hvol, hedit.volume, hvolume]

end

end OnSession

end RiscvOs
