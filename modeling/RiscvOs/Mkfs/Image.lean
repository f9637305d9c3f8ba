import RiscvOs.Mkfs.Model
import RiscvOs.Fs.State

/-!
# What an image holds

An image stands for a volume, as a mounted file system does, and `iappend` changes it the
way `writei` does: blocks are marked and linked to the inode (`Volume.Owned.grow`), then
bytes are written into them.  While `iappend` runs, the inode it works on is in its local
variable `din` and not on disk yet; `Image.pending` is the volume with `din` in place.
-/

namespace RiscvOs.Mkfs

open Bytes

/-- The numbers behind the layout. -/
theorem layoutSizes : firstFree = 46 ∧ layoutSb.datastart = 46 ∧ layoutSb.size = 1000 ∧
    layoutSb.ninodes = 200 ∧ layoutSb.inodestart = 32 ∧ layoutSb.bmapstart = 45 ∧
    layoutSb.logstart = 2 ∧ layoutSb.nlog = 30 := by decide

namespace Image

/-- What the inodes, the bitmap and the data blocks of the image say. -/
def volume (img : Image) : Volume where
  node i := if i < layoutSb.ninodes then
    Dinode.decode (img.disk (i / ipb + layoutSb.inodestart)) (i % ipb) else {}
  used b := (img.bitmap.get (b / 8)).toNat.testBit (b % 8)
  block b := if layoutSb.IsData b then img.disk b else Buffer.zero

/-- The volume of the image with `din` for inode `inum`. -/
def pending (img : Image) (inum : ℕ) (din : Dinode) : Volume := img.volume.setNode inum din

/-- The blocks below `freeblock` are those that are marked, and the others are clear. -/
structure Marked (img : Image) : Prop where
  sb : img.sb = layoutSb
  super : img.disk 1 = Buffer.zero.write 0 (encodeSb layoutSb)
  header : img.disk layoutSb.logstart = Buffer.zero
  lo : firstFree ≤ img.freeblock
  hi : img.freeblock ≤ fssize
  marked : ∀ b < fssize, img.volume.used b = decide (b < img.freeblock)
  clear : ∀ b, img.freeblock ≤ b → img.disk b = Buffer.zero

/-- No block is held twice by the inodes. -/
abbrev Owns (v : Volume) : Prop := v.Owned layoutSb.ninodes layoutSb.datastart layoutSb.size

section
variable {img img' : Image} {inum b : ℕ} {din : Dinode} {d : Block}

@[simp] theorem wsect_disk_same (img : Image) (b : ℕ) (d : Block) : (img.wsect b d).disk b = d :=
  Function.update_self ..

theorem wsect_disk_of_ne (img : Image) (d : Block) {b c : ℕ} (h : c ≠ b) :
    (img.wsect b d).disk c = img.disk c := Function.update_of_ne h _ _

/-- The bits of a bitmap after one has been set. -/
theorem testBit_write (bitmap : Buffer (fssize / 8 + 1)) (hb : b / 8 < fssize / 8 + 1) (c : ℕ) :
    ((bitmap.write (b / 8) [bitmap.get (b / 8) ||| UInt8.ofNat (2 ^ (b % 8))]).get
      (c / 8)).toNat.testBit (c % 8) =
      ((bitmap.get (c / 8)).toNat.testBit (c % 8) || decide (b = c)) := by
  have hfit : b / 8 + [bitmap.get (b / 8) ||| UInt8.ofNat (2 ^ (b % 8))].length ≤
      fssize / 8 + 1 := hb
  rw [bitmap.get_write hfit]
  by_cases hbyte : c / 8 = b / 8
  · rw [if_pos ⟨hbyte.ge, by rw [hbyte]; simp⟩, hbyte, Nat.sub_self, List.getD_cons_zero,
      testBit_or_pow _ (Nat.mod_lt _ (by decide))]
    congr 1
    exact decide_eq_decide.mpr (by omega)
  · have hne : b ≠ c := by
      rintro rfl
      exact hbyte rfl
    rw [if_neg (by simp; omega), decide_eq_false hne, Bool.or_false]

/-- Marking a block changes its bit. -/
theorem volume_mark (h : img.ballocMark b = .ok img') :
    img'.volume = img.volume.setUsed b true ∧ img'.disk = img.disk ∧ img'.sb = img.sb ∧
      img'.freeinode = img.freeinode ∧ img'.freeblock = img.freeblock := by
  unfold ballocMark at h
  by_cases hb : b / 8 < fssize / 8 + 1
  · rw [if_pos hb] at h
    cases h
    refine ⟨Session.volume_ext (fun _ => rfl) (funext fun c => ?_) rfl, rfl, rfl, rfl, rfl⟩
    refine (testBit_write img.bitmap hb c).trans ?_
    by_cases hc : c = b
    · subst hc
      simp [Volume.setUsed]
    · have hbc : b ≠ c := fun heq => hc heq.symm
      simp [Volume.setUsed, hc, hbc, volume]
  · rw [if_neg hb] at h
    cases h

/-- Writing a data block. -/
theorem volume_wsect (hb : layoutSb.IsData b) :
    (img.wsect b d).volume = img.volume.setBlock b d := by
  have hsizes := layoutSizes
  obtain ⟨hlo, hlt⟩ := hb
  refine Session.volume_ext (fun i => ?_) rfl (funext fun c => ?_)
  · simp only [volume, wsect, Volume.setBlock]
    by_cases hi : i < layoutSb.ninodes
    · have hne : i / ipb + layoutSb.inodestart ≠ b := by
        change i / 16 + layoutSb.inodestart ≠ b
        omega
      rw [if_pos hi, if_pos hi, Function.update_of_ne hne]
    · rw [if_neg hi, if_neg hi]
  · simp only [volume, wsect, Volume.setBlock]
    by_cases hc : c = b
    · rw [hc, if_pos ⟨hlo, hlt⟩, Function.update_self, Function.update_self]
    · rw [Function.update_of_ne hc, Function.update_of_ne hc]

/-- Where an inode is stored. -/
theorem place_bounds (hi : inum < layoutSb.ninodes) :
    layoutSb.inodestart ≤ inum / ipb + layoutSb.inodestart ∧
      inum / ipb + layoutSb.inodestart < layoutSb.bmapstart := by
  have hsizes := layoutSizes
  change layoutSb.inodestart ≤ inum / 16 + layoutSb.inodestart ∧
    inum / 16 + layoutSb.inodestart < layoutSb.bmapstart
  omega

/-- Writing an inode. -/
theorem volume_winode (hsb : img.sb = layoutSb) (hi : inum < layoutSb.ninodes)
    (h : img.winode inum din = .ok img') :
    img'.volume = img.volume.setNode inum din ∧ img'.bitmap = img.bitmap ∧ img'.sb = img.sb ∧
      img'.freeinode = img.freeinode ∧ img'.freeblock = img.freeblock ∧
      ∀ b, b < layoutSb.inodestart ∨ layoutSb.bmapstart ≤ b → img'.disk b = img.disk b := by
  have hsizes := layoutSizes
  have hmod : inum % ipb < ipb := Nat.mod_lt _ (by decide)
  have hplace := place_bounds hi
  have hread : img.rsect (inum / ipb + layoutSb.inodestart) =
      .ok (img.disk (inum / ipb + layoutSb.inodestart)) := by
    rw [rsect, if_pos]
    change inum / ipb + layoutSb.inodestart < 1000
    omega
  rw [winode, hsb, hread] at h
  cases h
  refine ⟨Session.volume_ext (fun j => ?_) rfl (funext fun c => ?_), rfl, rfl, rfl, rfl,
    fun b hb => Function.update_of_ne (by omega) _ _⟩
  · by_cases hji : j = inum
    · subst hji
      rw [Volume.setNode_node_same]
      simp only [volume, wsect, if_pos hi, Function.update_self]
      exact Dinode.decode_store_same _ hmod din
    · rw [Volume.setNode_node_of_ne hji]
      simp only [volume, wsect]
      by_cases hj : j < layoutSb.ninodes
      · rw [if_pos hj, if_pos hj]
        by_cases hblock : j / ipb + layoutSb.inodestart = inum / ipb + layoutSb.inodestart
        · have hne : j % ipb ≠ inum % ipb := by
            change j / 16 + layoutSb.inodestart = inum / 16 + layoutSb.inodestart at hblock
            change j % 16 ≠ inum % 16
            omega
          rw [hblock, Function.update_self, Dinode.decode_store_of_ne _ hne]
        · rw [Function.update_of_ne hblock]
      · rw [if_neg hj, if_neg hj]
  · simp only [volume, wsect, Volume.setNode]
    by_cases hc : layoutSb.IsData c
    · have hlo := hc.1
      rw [if_pos hc, if_pos hc, Function.update_of_ne (by omega)]
    · rw [if_neg hc, if_neg hc]

/-! ## The layout -/

/-- A clear block holds clear inodes. -/
theorem decode_zero (k : ℕ) : Dinode.decode Buffer.zero k = {} := by
  simp only [Dinode.decode, Buffer.slice_zero, ofLe_zero]
  rfl

theorem mark_all {l : List ℕ} (hl : ∀ b ∈ l, b < fssize) (img : Image) :
    ∃ img', l.foldlM ballocMark img = .ok img' ∧ img'.disk = img.disk ∧ img'.sb = img.sb ∧
      img'.freeinode = img.freeinode ∧ img'.freeblock = img.freeblock ∧
      (∀ i, img'.volume.node i = img.volume.node i) ∧
      ∀ c, img'.volume.used c = (img.volume.used c || decide (c ∈ l)) := by
  induction l generalizing img with
  | nil => exact ⟨img, rfl, rfl, rfl, rfl, rfl, fun _ => rfl, fun c => by simp⟩
  | cons b rest ih =>
      have hb : b < fssize := hl b List.mem_cons_self
      have hstep : ∃ img₁, img.ballocMark b = .ok img₁ := by
        unfold ballocMark
        rw [if_pos (Nat.lt_succ_of_le (Nat.div_le_div_right hb.le))]
        exact ⟨_, rfl⟩
      obtain ⟨img₁, hmark⟩ := hstep
      obtain ⟨hvolume, hdisk, hsb, hinode, hblock⟩ := volume_mark hmark
      obtain ⟨img', hrest, hdisk', hsb', hinode', hblock', hnode, hused⟩ :=
        ih (fun c hc => hl c (List.mem_cons_of_mem _ hc)) img₁
      refine ⟨img', ?_, hdisk'.trans hdisk, hsb'.trans hsb, hinode'.trans hinode,
        hblock'.trans hblock, fun i => ?_, fun c => ?_⟩
      · rw [List.foldlM_cons, hmark]
        exact hrest
      · rw [hnode, hvolume]
        rfl
      · rw [hused, hvolume]
        by_cases hc : c = b
        · simp [Volume.setUsed, hc]
        · simp [Volume.setUsed, hc]

/-- What `main` lays out: the blocks of the layout are marked and there is no inode. -/
theorem layout_spec : ∃ img, layout = .ok img ∧ Marked img ∧ Owns img.volume ∧
    img.freeinode = 1 ∧ ∀ i, img.volume.node i = {} := by
  have hsizes := layoutSizes
  obtain ⟨img, hfold, hdisk, hsb, hinode, hblock, hnode, hused⟩ :=
    mark_all (l := List.range firstFree) (fun b hb => by
      rw [List.mem_range] at hb
      change b < 1000
      omega) { sb := layoutSb, freeblock := firstFree }
  have hempty : ∀ i, img.volume.node i = {} := fun i => by
    rw [hnode]
    change (if i < layoutSb.ninodes then Dinode.decode Buffer.zero (i % ipb) else {}) = _
    rw [decode_zero, ite_self]
  have hbits : ∀ c, img.volume.used c = decide (c < firstFree) := fun c => by
    have hzero : (⟨fun _ => Buffer.zero, layoutSb, 1, firstFree, Buffer.zero⟩ : Image).volume.used
        c = false := by
      simp [volume]
    rw [hused, hzero, Bool.false_or]
    exact decide_eq_decide.mpr List.mem_range
  have hdata : ¬ layoutSb.IsData 1 := by decide
  refine ⟨img.wsect 1 (Buffer.zero.write 0 (encodeSb layoutSb)), ?_, ?_, ?_, hinode, fun i => ?_⟩
  · rw [layout, hfold]
    rfl
  · exact
      { sb := hsb
        super := wsect_disk_same ..
        header := by
          rw [wsect_disk_of_ne img _ (by decide), hdisk]
        lo := hblock.ge
        hi := by
          change img.freeblock ≤ 1000
          have hlt : img.freeblock = firstFree := hblock
          omega
        marked := fun b _ => by
          have hlt : img.freeblock = firstFree := hblock
          change img.volume.used b = decide (b < img.freeblock)
          rw [hbits, hlt]
        clear := fun b hb => by
          have hlt : img.freeblock = firstFree := hblock
          have hle : img.freeblock ≤ b := hb
          have hne : b ≠ 1 := by omega
          rw [wsect_disk_of_ne img _ hne, hdisk] }
  · have hslot : ∀ i < layoutSb.ninodes, ∀ k,
        (img.wsect 1 (Buffer.zero.write 0 (encodeSb layoutSb))).volume.slot i k = 0 := by
      intro i hi k
      refine Volume.slot_of_addrs_zero (fun k => ?_) k
      have hne : i / ipb + layoutSb.inodestart ≠ 1 := by
        have hplace := place_bounds hi
        omega
      have hsame : (img.wsect 1 (Buffer.zero.write 0 (encodeSb layoutSb))).volume.node i =
          img.volume.node i := by
        simp only [volume, wsect, Function.update_of_ne hne]
      rw [hsame, hempty]
    refine ⟨fun b hb => ?_, fun i hi k hk hne => absurd (hslot i hi k) hne,
      fun i hi k hk j hj l hl hne => absurd (hslot i hi k) hne⟩
    refine (hbits b).trans (decide_eq_true ?_)
    omega
  · by_cases hi : i < layoutSb.ninodes
    · have hne : i / ipb + layoutSb.inodestart ≠ 1 := by
        have hplace := place_bounds hi
        omega
      have hsame : (img.wsect 1 (Buffer.zero.write 0 (encodeSb layoutSb))).volume.node i =
          img.volume.node i := by
        simp only [volume, wsect, Function.update_of_ne hne]
      rw [hsame, hempty]
    · exact if_neg hi

/-! ## `iappend` -/

/-- The image between two rounds of the loop of `iappend`. -/
structure Filling (img : Image) (inum : ℕ) (din : Dinode) : Prop extends Marked img where
  owned : Owns (img.pending inum din)

/-- Nothing before the data blocks has been written. -/
structure SameFront (img img' : Image) : Prop where
  freeinode : img'.freeinode = img.freeinode
  front : ∀ b < layoutSb.datastart, img'.disk b = img.disk b
  node : ∀ i, img'.volume.node i = img.volume.node i

theorem SameFront.trans {img'' : Image} (h : SameFront img img') (h' : SameFront img' img'') :
    SameFront img img'' :=
  ⟨h'.freeinode.trans h.freeinode, fun b hb => (h'.front b hb).trans (h.front b hb),
    fun i => (h'.node i).trans (h.node i)⟩

/-- The address of block `bn` in the local copy. -/
theorem pending_slot (img : Image) (inum : ℕ) (din : Dinode) (bn : Fin (ndirect + 1)) :
    (img.pending inum din).slot inum bn = (din.addrs bn).toNat := by
  rw [Volume.slot, dif_pos bn.isLt, pending, Volume.setNode_node_same]

/-- A block of the file is allocated if there is none. -/
theorem blockOf_spec {din' : Dinode} {bn : ℕ} (hbn : bn < ndirect) (h : Filling img inum din)
    (hi : inum < layoutSb.ninodes)
    (hrun : img.blockOf din ⟨bn, Nat.lt_succ_of_lt hbn⟩ = .ok (img', din'))
    (hread : (din'.addrs ⟨bn, Nat.lt_succ_of_lt hbn⟩).toNat < fssize) :
    Filling img' inum din' ∧ SameFront img img' ∧
      Volume.Grown (img.pending inum din) (img'.pending inum din') layoutSb.ninodes inum ∧
      (img'.pending inum din').fileAddr inum bn ≠ 0 := by
  have hsizes := layoutSizes
  have hfs := fsSizes
  have hfile : fileSlot bn = bn := if_pos hbn
  by_cases hzero : din.addrs ⟨bn, Nat.lt_succ_of_lt hbn⟩ = 0
  · have hempty : (img.pending inum din).slot inum bn = 0 := by
      rw [pending_slot img inum din ⟨bn, Nat.lt_succ_of_lt hbn⟩, hzero]
      rfl
    simp only [blockOf, if_pos hzero, balloc] at hrun
    cases hmark : ({ img with freeblock := img.freeblock + 1 } : Image).ballocMark
        img.freeblock with
    | error e => rw [hmark] at hrun; cases hrun
    | ok img₁ =>
        rw [hmark] at hrun
        cases hrun
        obtain ⟨hvolume, hdisk, hsb, hinode, hblock⟩ := volume_mark hmark
        have hlo := h.lo
        have hhi := h.hi
        have hnat : (BitVec.ofNat 32 img.freeblock).toNat = img.freeblock := by
          rw [BitVec.toNat_ofNat, Nat.mod_eq_of_lt]
          change img.freeblock ≤ 1000 at hhi
          omega
        simp only [Function.update_self, hnat] at hread
        change img.freeblock < 1000 at hread
        have hb : layoutSb.datastart ≤ img.freeblock ∧ img.freeblock < layoutSb.size := by omega
        have hfree : (img.pending inum din).used img.freeblock = false := by
          refine (h.marked img.freeblock (by change _ < 1000; omega)).trans ?_
          exact decide_eq_false (lt_irrefl _)
        have hclear : (img.pending inum din).block img.freeblock = Buffer.zero :=
          (if_pos hb).trans (h.clear _ le_rfl)
        -- the block is clear already, so that marking it is allocating it
        have hpending : img₁.pending inum { din with
            addrs := Function.update din.addrs ⟨bn, Nat.lt_succ_of_lt hbn⟩
              (BitVec.ofNat 32 img.freeblock) } =
            ((img.pending inum din).alloc img.freeblock).link inum bn img.freeblock := by
          rw [Volume.link, dif_pos (Nat.lt_succ_of_lt hbn)]
          refine Session.volume_ext (fun i => ?_) ?_ ?_
          · by_cases hi : i = inum
            · subst hi
              simp [pending, Volume.alloc, Volume.setBlock, Volume.setUsed]
            · rw [pending, Volume.setNode_node_of_ne hi, Volume.setNode_node_of_ne hi, hvolume]
              exact (Volume.setNode_node_of_ne hi).symm
          · change img₁.volume.used = _
            rw [hvolume]
            rfl
          · change img₁.volume.block = Function.update (img.pending inum din).block img.freeblock
              Buffer.zero
            rw [← hclear, Function.update_eq_self, hvolume]
            rfl
        obtain ⟨howned, hgrown, hslot⟩ := h.owned.grow (by omega) (by omega) hb hfree hi
          (by omega) hempty (fun hlt => absurd hlt (by omega))
        rw [← hpending] at howned hgrown hslot
        refine ⟨?_, ⟨hinode, fun b _ => congrFun hdisk b, fun i => by rw [hvolume]; rfl⟩, hgrown, ?_⟩
        · exact
            { sb := hsb.trans h.sb
              super := (congrFun hdisk 1).trans h.super
              header := (congrFun hdisk _).trans h.header
              lo := hblock ▸ Nat.le_succ_of_le hlo
              hi := hblock ▸ hread
              marked := fun b hb => by
                rw [hvolume, hblock]
                have hold := h.marked b hb
                change Function.update img.volume.used img.freeblock true b = _
                by_cases heq : b = img.freeblock
                · rw [heq, Function.update_self]
                  exact (decide_eq_true (Nat.lt_succ_self _)).symm
                · rw [Function.update_of_ne heq, hold]
                  exact decide_eq_decide.mpr (by change _ ↔ b < img.freeblock + 1; omega)
              clear := fun b hb => by
                rw [hdisk]
                rw [hblock] at hb
                exact h.clear b (Nat.le_of_succ_le hb)
              owned := howned }
        · rw [Volume.fileAddr, hfile, hslot]
          omega
  · simp only [blockOf, if_neg hzero] at hrun
    cases hrun
    refine ⟨h, ⟨rfl, fun _ _ => rfl, fun _ => rfl⟩, .refl _ _ _, ?_⟩
    rw [Volume.fileAddr, hfile, pending_slot img inum din ⟨bn, Nat.lt_succ_of_lt hbn⟩]
    exact fun heq => hzero (BitVec.toNat_inj.mp heq)

/-- A data block is written. -/
theorem Filling.write (h : Filling img inum din) (hi : inum < layoutSb.ninodes) {bn : ℕ}
    (hbn : bn < maxfile) (hne : (img.pending inum din).fileAddr inum bn ≠ 0) (d : Block) :
    Filling (img.wsect ((img.pending inum din).fileAddr inum bn) d) inum din ∧
      SameFront img (img.wsect ((img.pending inum din).fileAddr inum bn) d) ∧
      (img.wsect ((img.pending inum din).fileAddr inum bn) d).pending inum din =
        (img.pending inum din).setBlock ((img.pending inum din).fileAddr inum bn) d := by
  have hsizes := layoutSizes
  obtain ⟨hlo, hlt, hused⟩ := h.owned.inside inum hi _ (fileSlot_lt hbn) hne
  have hblock : (img.pending inum din).fileAddr inum bn < img.freeblock := by
    have hmarked := h.marked ((img.pending inum din).fileAddr inum bn)
      (by change _ < 1000; exact hsizes.2.2.1 ▸ hlt)
    exact of_decide_eq_true (hmarked.symm.trans hused)
  have howned : Owns ((img.pending inum din).setBlock ((img.pending inum din).fileAddr inum bn) d) :=
    h.owned.setBlock hi (fileSlot_lt hbn) (fileSlot_ne_indirect bn) hne d
  change layoutSb.datastart ≤ (img.pending inum din).fileAddr inum bn at hlo
  change (img.pending inum din).fileAddr inum bn < layoutSb.size at hlt
  generalize (img.pending inum din).fileAddr inum bn = b at hlo hlt hblock howned ⊢
  have hvolume : (img.wsect b d).volume = img.volume.setBlock b d := volume_wsect ⟨hlo, hlt⟩
  have hpending : (img.wsect b d).pending inum din = (img.pending inum din).setBlock b d := by
    rw [pending, hvolume]
    rfl
  have hother : ∀ c, c < layoutSb.datastart → (img.wsect b d).disk c = img.disk c := fun c hc =>
    wsect_disk_of_ne img d (by omega)
  refine ⟨?_, ⟨rfl, hother, fun i => ?_⟩, hpending⟩
  · exact
      { sb := h.sb
        super := (hother 1 (by omega)).trans h.super
        header := (hother _ (by omega)).trans h.header
        lo := h.lo
        hi := h.hi
        marked := fun c hc => (congrFun (congrArg Volume.used hvolume) c).trans (h.marked c hc)
        clear := fun c hc => by
          have hle : img.freeblock ≤ c := hc
          have hne : c ≠ b := by omega
          exact (wsect_disk_of_ne img d hne).trans (h.clear c hle)
        owned := hpending ▸ howned }
  · rw [hvolume]
    rfl

/-- The loop of `iappend` writes the bytes at the end of the file. -/
theorem iappendLoop_spec {rounds off : ℕ} {data : List UInt8} {din' : Dinode} {off' : ℕ}
    (hi : inum < layoutSb.ninodes) (hrounds : data.length ≤ rounds) (h : Filling img inum din)
    (hrun : iappendLoop rounds img din off data = .ok (img', din', off')) :
    Filling img' inum din' ∧ SameFront img img' ∧
      Volume.Written (img.pending inum din) (img'.pending inum din') layoutSb.ninodes inum off data ∧
      off' = off + data.length ∧ (data ≠ [] → off' ≤ ndirect * bsize) := by
  induction rounds generalizing img din off data with
  | zero =>
      have hnil : data = [] := List.length_eq_zero_iff.mp (Nat.le_zero.mp hrounds)
      subst hnil
      cases hrun
      exact ⟨h, ⟨rfl, fun _ _ => rfl, fun _ => rfl⟩, .of_grown (.refl _ _ _) _, rfl,
        fun hne => absurd rfl hne⟩
  | succ rounds ih =>
      rw [iappendLoop] at hrun
      by_cases hnil : data.length = 0
      · rw [if_pos hnil] at hrun
        have hempty : data = [] := List.length_eq_zero_iff.mp hnil
        subst hempty
        cases hrun
        exact ⟨h, ⟨rfl, fun _ _ => rfl, fun _ => rfl⟩, .of_grown (.refl _ _ _) _, rfl,
          fun hne => absurd rfl hne⟩
      · rw [if_neg hnil] at hrun
        by_cases hbn : off / bsize < ndirect
        · rw [dif_pos hbn] at hrun
          cases hblockOf : img.blockOf din ⟨off / bsize, Nat.lt_succ_of_lt hbn⟩ with
          | error e => simp only [hblockOf] at hrun; cases hrun
          | ok result =>
              obtain ⟨img₁, din₁⟩ := result
              simp only [hblockOf] at hrun
              change (img₁.rsect (din₁.addrs ⟨off / bsize, _⟩).toNat >>= _) = _ at hrun
              by_cases hread : (din₁.addrs ⟨off / bsize, Nat.lt_succ_of_lt hbn⟩).toNat < fssize
              · have hsizes := fsSizes
                obtain ⟨h₁, hfront₁, hgrown, hne⟩ := blockOf_spec hbn h hi hblockOf hread
                have haddr : (din₁.addrs ⟨off / bsize, Nat.lt_succ_of_lt hbn⟩).toNat =
                    (img₁.pending inum din₁).fileAddr inum (off / bsize) := by
                  have hfile : fileSlot (off / bsize) = off / bsize := if_pos hbn
                  rw [Volume.fileAddr, hfile,
                    pending_slot img₁ inum din₁ ⟨off / bsize, Nat.lt_succ_of_lt hbn⟩]
                rw [rsect, if_pos hread, haddr] at hrun
                generalize hm : min (bsize - off % bsize) data.length = m at hrun
                have hmod : off % bsize < bsize := Nat.mod_lt _ (by decide)
                have htake : (data.take m).length = m := List.length_take_of_le (by omega)
                have hdrop : (data.drop m).length = data.length - m := List.length_drop
                have hlt : off / bsize < maxfile := by omega
                have hdata := h₁.owned.inside inum hi _ (fileSlot_lt hlt) hne
                have hblock : (img₁.pending inum din₁).block
                    ((img₁.pending inum din₁).fileAddr inum (off / bsize)) =
                    img₁.disk ((img₁.pending inum din₁).fileAddr inum (off / bsize)) :=
                  if_pos ⟨hdata.1, hdata.2.1⟩
                obtain ⟨h₂, hfront₂, hvolume⟩ := h₁.write hi hlt hne
                  ((img₁.disk ((img₁.pending inum din₁).fileAddr inum (off / bsize))).write
                    (off % bsize) (data.take m))
                obtain ⟨h₃, hfront₃, hrest, hoff, hend⟩ := ih (by omega) h₂ hrun
                have hfit : off % bsize + (data.take m).length ≤ bsize := by omega
                have hwritten := Volume.Written.of_block h₁.owned hi hlt hne hfit
                rw [hblock, ← hvolume] at hwritten
                have hfirst := (Volume.Written.of_grown hgrown off).append hwritten hi
                rw [List.nil_append] at hfirst
                have hall := hfirst.append (by rw [htake]; exact hrest) hi
                rw [List.take_append_drop] at hall
                refine ⟨h₃, (hfront₁.trans hfront₂).trans hfront₃, hall, by omega, fun _ => ?_⟩
                by_cases hmore : data.drop m = []
                · have hlast : data.length ≤ m := List.drop_eq_nil_iff.mp hmore
                  change off / 1024 < 12 at hbn
                  change min (1024 - off % 1024) data.length = m at hm
                  change off' ≤ 12 * 1024
                  omega
                · exact hend hmore
              · rw [rsect, if_neg hread] at hrun
                cases hrun
        · rw [dif_neg hbn] at hrun
          cases hrun

/-- Writing an inode keeps the marks. -/
theorem Marked.winode (h : Marked img) (hi : inum < layoutSb.ninodes)
    (hrun : img.winode inum din = .ok img') : Marked img' := by
  have hsizes := layoutSizes
  obtain ⟨hvolume, hbitmap, hsb, -, hblock, hdisk⟩ := volume_winode h.sb hi hrun
  exact
    { sb := hsb.trans h.sb
      super := (hdisk 1 (.inl (by omega))).trans h.super
      header := (hdisk _ (.inl (by omega))).trans h.header
      lo := hblock ▸ h.lo
      hi := hblock ▸ h.hi
      marked := fun b hb => by
        have hused : img'.volume.used = img.volume.used := by rw [hvolume]; rfl
        rw [hused, hblock]
        exact h.marked b hb
      clear := fun b hb => by
        rw [hblock] at hb
        have hlo := h.lo
        exact (hdisk b (.inr (by omega))).trans (h.clear b hb) }

/-- `iappend` appends the bytes. -/
theorem iappend_spec {data : List UInt8} (h : Marked img) (howned : Owns img.volume)
    (hi : inum < layoutSb.ninodes) (hrun : img.iappend inum data = .ok img') :
    Marked img' ∧ Owns img'.volume ∧ img'.freeinode = img.freeinode ∧
      (∃ w, Volume.Written img.volume w layoutSb.ninodes inum (img.volume.node inum).size.toNat
          data ∧
        img'.volume = w.setSize inum ((img.volume.node inum).size.toNat + data.length)) ∧
      ((img.volume.node inum).size.toNat ≤ ndirect * bsize →
        (img.volume.node inum).size.toNat + data.length ≤ ndirect * bsize) := by
  have hsizes := layoutSizes
  have hplace := place_bounds hi
  have hread : img.rinode inum = .ok (img.volume.node inum) := by
    have hlt : inum / ipb + img.sb.inodestart < fssize := by
      rw [h.sb]
      change inum / ipb + layoutSb.inodestart < 1000
      omega
    rw [rinode, rsect, if_pos hlt, h.sb]
    exact congrArg Except.ok (if_pos hi).symm
  have hself : img.pending inum (img.volume.node inum) = img.volume :=
    congrArg (Volume.mk · img.volume.used img.volume.block)
      (Function.update_eq_self inum img.volume.node)
  rw [iappend, hread] at hrun
  change (iappendLoop data.length img (img.volume.node inum) _ data >>= _) = _ at hrun
  cases hloop : iappendLoop data.length img (img.volume.node inum)
      (img.volume.node inum).size.toNat data with
  | error e => rw [hloop] at hrun; cases hrun
  | ok result =>
      obtain ⟨img₁, din₁, off⟩ := result
      rw [hloop] at hrun
      change img₁.winode inum { din₁ with size := BitVec.ofNat 32 off } = _ at hrun
      obtain ⟨hfilled, hfront, hwritten, hoff, hend⟩ :=
        iappendLoop_spec hi le_rfl { h with owned := hself.symm ▸ howned } hloop
      rw [hself] at hwritten
      obtain ⟨hvolume, -, -, hinode, -, -⟩ := volume_winode hfilled.sb hi hrun
      have hsize : img'.volume = (img₁.pending inum din₁).setSize inum off := by
        rw [hvolume, Volume.setSize, pending, Volume.setNode_node_same]
        exact congrArg (Volume.mk · img₁.volume.used img₁.volume.block)
          (Function.update_idem ..).symm
      refine ⟨hfilled.toMarked.winode hi hrun, ?_, hinode.trans hfront.freeinode,
        ⟨_, hwritten, by rw [hsize, hoff]⟩, fun hle => ?_⟩
      · rw [hsize]
        exact hfilled.owned.setNode rfl
      · by_cases hnil : data = []
        · rw [hnil]
          exact hle
        · rw [← hoff]
          exact hend hnil

/-- `ialloc` gives the next inode a type. -/
theorem ialloc_spec {type : BitVec 16} {r : ℕ} (h : Marked img) (howned : Owns img.volume)
    (hi : img.freeinode < layoutSb.ninodes) (hrun : img.ialloc type = .ok (r, img')) :
    r = img.freeinode ∧ Marked img' ∧ Owns img'.volume ∧ img'.freeinode = img.freeinode + 1 ∧
      img'.volume = img.volume.setNode img.freeinode { type := type, nlink := 1 } := by
  rw [ialloc] at hrun
  cases hwrite : ({ img with freeinode := img.freeinode + 1 } : Image).winode img.freeinode
      { type := type, nlink := 1 } with
  | error e => simp only [hwrite] at hrun; cases hrun
  | ok img₁ =>
      simp only [hwrite] at hrun
      cases hrun
      have hmarked : Marked { img with freeinode := img.freeinode + 1 } := { h with }
      obtain ⟨hvolume, -, -, hinode, -, -⟩ := volume_winode hmarked.sb hi hwrite
      refine ⟨rfl, hmarked.winode hi hwrite, ?_, hinode, hvolume⟩
      rw [hvolume]
      exact howned.setNode_zero fun _ => rfl

end

end Image

end RiscvOs.Mkfs
