import RiscvOs.Fs.Data

/-!
# Allocating an inode

`ialloc` looks for an inode whose type is 0 on disk.  The inode cache may hold that inode
all the same; then what it holds stays, and is not what has been stored.
-/

namespace RiscvOs

open Effect Bytes Kern

/-- `ialloc` has stored inode `i` with a type.  If the inode is in the cache, what the cache
holds is not what has been stored. -/
structure Allocated (pins : Pins) (x y : Session) (i : ℕ) (type : BitVec 16) : Prop where
  frame : Frame pins x y
  marks : x.mem.sb.iblock i ∈ y.marks
  volume : y.volume = x.volume.setNode i { type := type } ∧ y.Intact ∅ pins ∨
    y.volume = x.volume ∧ y.Intact {i} pins ∧ ∃ jp, x.Locked jp i

section
variable {x : Session} {pins : Pins} {i : ℕ}

theorem Session.Intact.allocate (h : x.Intact ∅ pins) (hi : i < x.mem.sb.ninodes)
    (type : BitVec 16) : Allocated pins x (x.writeNode i { type := type }) i type := by
  have hframe : Frame pins x (x.writeNode i { type := type }) := Session.frame_write ..
  have hmarks : x.mem.sb.iblock i ∈ (x.writeNode i { type := type }).marks :=
    Finset.mem_insert_self _ _
  have hicache : (x.writeNode i { type := type }).mem.Icache :=
    ⟨h.icache.unique, h.icache.dev, h.icache.inum_lt, h.icache.nonneg⟩
  by_cases hcached : ∃ jp, x.Locked jp i
  · have hvolume : (x.writeNode i { type := type }).volume = x.volume := by
      refine volume_writeNode h.wf hi fun hnone => ?_
      obtain ⟨jp, hjp⟩ := hcached
      exact absurd hjp.inum (hnone jp hjp.loaded)
    refine ⟨hframe, hmarks, .inr ⟨hvolume, ?_, hcached⟩⟩
    exact
      { wf := h.wf.congr ⟨rfl, rfl⟩
        icache := hicache
        owned := by rw [hvolume]; exact h.owned
        synced := fun j hj hnot => by
          have hji : j ≠ i := hnot
          have hsame : (x.writeNode i { type := type }).node j = x.node j :=
            congrFun (congrArg Volume.node hvolume) j
          rw [diskNode_writeNode h.wf hi hj, if_neg hji, hsame]
          exact h.synced j hj (Set.notMem_empty j)
        counted := h.counted }
  · have hvolume : (x.writeNode i { type := type }).volume =
        x.volume.setNode i { type := type } :=
      volume_writeNode_new h.wf hi fun jp hloaded heq => hcached ⟨jp, hloaded, heq⟩
    refine ⟨hframe, hmarks, .inl ⟨hvolume, ?_⟩⟩
    exact
      { wf := h.wf.congr ⟨rfl, rfl⟩
        icache := hicache
        owned := by rw [hvolume]; exact h.owned.setNode_zero fun _ => rfl
        synced := fun j hj _ => by
          have hnode : (x.writeNode i { type := type }).node j =
              (x.volume.setNode i { type := type }).node j :=
            congrFun (congrArg Volume.node hvolume) j
          rw [diskNode_writeNode h.wf hi hj, hnode]
          by_cases hji : j = i
          · rw [if_pos hji, hji, Volume.setNode_node_same]
          · rw [if_neg hji, Volume.setNode_node_of_ne hji]
            exact h.synced j hj (Set.notMem_empty j)
        counted := h.counted }

end

namespace OnSession

section
variable {mode : Mode} {α : Type} {Q : α → Session → Prop}
  {spare holds : ℕ} {x : Session} {pins : Pins} {type : BitVec 16}

/-- The number of inodes is a small `int`. -/
theorem ninodes_i32 (h : x.mem.sb.WellFormed x.mem.log) :
    i32 x.mem.sb.ninodes = x.mem.sb.ninodes := by
  have hend : x.mem.sb.inodestart + (x.mem.sb.ninodes - 1) / 16 < x.mem.sb.bmapstart := h.inodeEnd
  have hbitmap := h.bitmapEnd
  have hdata := h.dataEnd
  have hsize : x.mem.sb.size ≤ 8192 := h.size_le
  exact i32_eq_self (by omega) (by omega)

/-- `ialloc` takes the first inode whose type is 0. -/
theorem wp_ialloc {f : Fin ninode → Kern α} (hx : x.Intact ∅ pins)
    (htx : Tx mode (spare + 1) (holds + 1) x)
    (hfull : (∀ j, 1 ≤ j → j < x.mem.sb.ninodes → (x.volume.node j).type ≠ 0) →
      mode.err (.panic "ialloc: no inodes"))
    (hslots : x.mem.emptySlot = none → mode.err (.panic "iget: no inodes"))
    (h : ∀ i ip y, 1 ≤ i → (x.volume.node i).type = 0 →
      (∀ j, 1 ≤ j → j < i → (x.volume.node j).type ≠ 0) →
      (y.mem.inode ip).inum = i → Allocated pins x (x.writeNode i { type := type }) i type →
      Looks pins (x.writeNode i { type := type }) y →
      (y.volume = x.volume.setNode i { type := type } ∧ y.Intact ∅ (pins + pin ip) ∨
        y.volume = x.volume ∧ y.Intact {i} (pins + pin ip) ∧ ∃ jp, x.Locked jp i) →
      Tx mode spare (holds + 1) y → (f ip).wp (sessionRules mode) Q y) :
    (ialloc rootdev type >>= f).wp (sessionRules mode) Q x := by
  rw [ialloc, bind_assoc, wp_get, bind_assoc, ninodes_i32 hx.wf, Prog.wp_bind]
  refine Prog.wp_forFirst
    (fun k t => t = x ∧ ∀ j, 1 ≤ j → j < k → (x.volume.node j).type ≠ 0)
    (fun _ _ _ _ _ => trivial) ⟨rfl, fun j hle hlt => absurd hlt (by omega)⟩
    (fun t ht => wp_panic_bind.mpr (hfull fun j hle hlt => ht.2 j hle (by omega))) ?_
  rintro i t hlo hhi ⟨rfl, hbefore⟩
  have hi : i < t.mem.sb.ninodes := by omega
  have hok := hx.wf.iblock_ok hi
  have hdisk : Dinode.decode (t.store (t.mem.sb.iblock i)) (i % ipb) = t.volume.node i :=
    hx.synced i hi (Set.notMem_empty i)
  rw [iallocSlot, wp_get]
  refine wp_bread htx.calm hok.1 (wp_data_hold ?_)
  rw [hdisk]
  by_cases hzero : (t.volume.node i).type = 0
  · rw [if_pos hzero]
    have halloc := hx.allocate hi type
    have hempty : (t.writeNode i { type := type }).mem.cached rootdev i = none →
        (t.writeNode i { type := type }).mem.emptySlot = none →
          mode.err (.panic "iget: no inodes") := fun _ => hslots
    refine wp_update htx hok.1 hok.2 (fun _ => le_rfl) (Nat.le_succ _) fun htx' => ?_
    rcases halloc.volume with ⟨hvolume, hintact⟩ | ⟨hvolume, hintact, hcached⟩
    · refine wp_iget hintact hi hempty fun ip y hy hlooks hinum => wp_done.mpr
        (h i ip y hlo hzero hbefore hinum halloc hlooks (.inl ⟨?_, hy⟩) (hlooks.tx htx'))
      exact hlooks.volume.trans hvolume
    · refine wp_iget hintact hi hempty fun ip y hy hlooks hinum => wp_done.mpr
        (h i ip y hlo hzero hbefore hinum halloc hlooks (.inr ⟨?_, hy, hcached⟩) (hlooks.tx htx'))
      exact hlooks.volume.trans hvolume
  · rw [if_neg hzero]
    refine wp_brelse htx.inv (wp_done.mpr ⟨rfl, fun j hle hlt => ?_⟩)
    by_cases hji : j = i
    · exact hji ▸ hzero
    · exact hbefore j hle (by omega)

end

end OnSession

end RiscvOs
