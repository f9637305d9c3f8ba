import RiscvOs.Fs.Blocks

/-!
# The inode cache

The reference count of a slot is the number of open files on it and of the references
the code at hand has taken with `iget`, its pins.  `Session.Intact` says so, beside what
holds of the disk.

Code that only looks something up moves inodes in and out of the cache, which leaves the
volume as it is (`Looks`).  Code that changes the disk leaves everything else as it is
(`Frame`).  Both keep a slot that stays referenced on its inode.
-/

namespace RiscvOs

open Effect Bytes Kern

/-- The number of open files on the slot `ip`. -/
def Mem.filesOn (m : Mem) (ip : Fin ninode) : ℕ :=
  (Finset.univ.filter fun f =>
    0 < (m.file f).ref ∧ (m.file f).type = .inode ∧ (m.file f).ip = ip).card

/-- The references the code at hand has taken to each slot. -/
abbrev Pins : Type := Fin ninode → ℕ

/-- One reference to the slot `ip`. -/
def pin (ip : Fin ninode) : Pins := Pi.single ip 1

/-- Every inode but those in `stale` is on disk as it is in the cache, and every reference
is accounted for. -/
structure Session.Settled (x : Session) (stale : Set ℕ) (pins : Pins) : Prop where
  wf : x.mem.sb.WellFormed x.mem.log
  icache : x.mem.Icache
  synced : x.Synced stale
  counted : ∀ ip, (x.mem.inode ip).ref = (x.mem.filesOn ip + pins ip : ℕ)

/-- Besides, no block is held twice. -/
structure Session.Intact (x : Session) (stale : Set ℕ) (pins : Pins) : Prop
    extends x.Sound, x.Settled stale pins

/-- A slot that stays referenced stays with its inode. -/
def Mem.Keeps (pins : Pins) (m m' : Mem) : Prop :=
  ∀ ip, 0 < m.filesOn ip + pins ip → (m'.inode ip).inum = (m.inode ip).inum ∧
    ((m.inode ip).valid = true → (m'.inode ip).valid = true)

/-- Only the log and the inode cache differ. -/
structure Frame (pins : Pins) (x y : Session) : Prop where
  mem : ∃ log inode, y.mem = { x.mem with log := log, inode := inode }
  area : x.mem.log.SameArea y.mem.log
  outstanding : y.mem.log.outstanding = x.mem.log.outstanding
  refs : y.refs = x.refs
  marks : x.marks ⊆ y.marks
  keeps : x.mem.Keeps pins y.mem

/-- Only the inode cache differs, and the volume is the same; an inode that has been read in
has a type. -/
structure Looks (pins : Pins) (x y : Session) : Prop where
  same : ∃ inode, y = x.withMem { x.mem with inode := inode }
  volume : y.volume = x.volume
  keeps : x.mem.Keeps pins y.mem
  loaded : ∀ ip, (y.mem.inode ip).Loaded →
    (x.mem.inode ip).Loaded ∧ (y.mem.inode ip).inum = (x.mem.inode ip).inum ∨
      (x.volume.node (y.mem.inode ip).inum).type ≠ 0

section
variable {mode : Mode} {spare holds : ℕ} {x y z : Session} {pins pins' pins'' : Pins}
  {ip jp : Fin ninode} {f : Inode → Inode} {stale : Set ℕ} {i : ℕ}

@[simp] theorem pin_same (ip : Fin ninode) : pin ip ip = 1 := Pi.single_eq_same ..

theorem pin_of_ne (h : jp ≠ ip) : pin ip jp = 0 := Pi.single_eq_of_ne h _

theorem Mem.Keeps.refl (pins : Pins) (m : Mem) : m.Keeps pins m := fun _ _ => ⟨rfl, id⟩

theorem Mem.Keeps.trans {m m' m'' : Mem} (h : m.Keeps pins m') (h' : m'.Keeps pins m'')
    (hfile : m'.file = m.file) : m.Keeps pins m'' := by
  intro ip hpos
  obtain ⟨hinum, hvalid⟩ := h ip hpos
  have hfiles : m'.filesOn ip = m.filesOn ip := by rw [Mem.filesOn, Mem.filesOn, hfile]
  obtain ⟨hinum', hvalid'⟩ := h' ip (by rw [hfiles]; exact hpos)
  exact ⟨hinum'.trans hinum, fun hv => hvalid' (hvalid hv)⟩

theorem Mem.Keeps.less {m m' : Mem} (h : m.Keeps pins m') (hle : pins' ≤ pins) :
    m.Keeps pins' m' := by
  intro ip hpos
  have hip : pins' ip ≤ pins ip := hle ip
  exact h ip (by omega)

/-- Which slots have been read in after an assignment to one. -/
theorem loaded_of_setInode (hy : y.mem = x.mem.setInode ip f)
    (h : (f (x.mem.inode ip)).Loaded →
      (x.mem.inode ip).Loaded ∧ (f (x.mem.inode ip)).inum = (x.mem.inode ip).inum ∨
        (x.volume.node (f (x.mem.inode ip)).inum).type ≠ 0)
    (jp : Fin ninode) (hjp : (y.mem.inode jp).Loaded) :
    (x.mem.inode jp).Loaded ∧ (y.mem.inode jp).inum = (x.mem.inode jp).inum ∨
      (x.volume.node (y.mem.inode jp).inum).type ≠ 0 := by
  rw [hy] at hjp ⊢
  by_cases hj : jp = ip
  · subst hj
    rw [Mem.setInode_same] at hjp ⊢
    exact h hjp
  · rw [Mem.setInode_of_ne f hj] at hjp ⊢
    exact .inl ⟨hjp, rfl⟩

/-- An assignment to one slot that keeps what the slot is for. -/
theorem Mem.keeps_setInode {m : Mem} (h : 0 < m.filesOn ip + pins ip →
    (f (m.inode ip)).inum = (m.inode ip).inum ∧
      ((m.inode ip).valid = true → (f (m.inode ip)).valid = true)) :
    m.Keeps pins (m.setInode ip f) := by
  intro jp hpos
  by_cases hj : jp = ip
  · subst hj
    rw [Mem.setInode_same]
    exact h hpos
  · rw [Mem.setInode_of_ne f hj]
    exact ⟨rfl, id⟩

namespace Frame

theorem refl (pins : Pins) (x : Session) : Frame pins x x :=
  ⟨⟨_, _, rfl⟩, ⟨rfl, rfl⟩, rfl, rfl, Finset.Subset.refl _, .refl _ _⟩

theorem file (h : Frame pins x y) : y.mem.file = x.mem.file := by
  obtain ⟨_, _, hmem⟩ := h.mem
  rw [hmem]

theorem sb (h : Frame pins x y) : y.mem.sb = x.mem.sb := by
  obtain ⟨_, _, hmem⟩ := h.mem
  rw [hmem]

theorem filesOn (h : Frame pins x y) (ip : Fin ninode) : y.mem.filesOn ip = x.mem.filesOn ip := by
  rw [Mem.filesOn, Mem.filesOn, h.file]

theorem trans (h : Frame pins x y) (h' : Frame pins y z) : Frame pins x z where
  mem := by
    obtain ⟨log, inode, hmem⟩ := h.mem
    obtain ⟨log', inode', hmem'⟩ := h'.mem
    exact ⟨log', inode', by rw [hmem', hmem]⟩
  area := ⟨h'.area.start.trans h.area.start, h'.area.size.trans h.area.size⟩
  outstanding := h'.outstanding.trans h.outstanding
  refs := h'.refs.trans h.refs
  marks := h.marks.trans h'.marks
  keeps := h.keeps.trans h'.keeps h.file

theorem less (h : Frame pins x y) (hle : pins' ≤ pins) : Frame pins' x y :=
  { h with keeps := h.keeps.less hle }

end Frame

namespace Looks

theorem refl (pins : Pins) (x : Session) : Looks pins x x :=
  ⟨⟨_, rfl⟩, rfl, .refl _ _, fun _ h => .inl ⟨h, rfl⟩⟩

theorem frame (h : Looks pins x y) : Frame pins x y := by
  have hkeeps := h.keeps
  obtain ⟨inode, rfl⟩ := h.same
  exact ⟨⟨_, _, rfl⟩, ⟨rfl, rfl⟩, rfl, rfl, Finset.Subset.refl _, hkeeps⟩

theorem trans (h : Looks pins x y) (h' : Looks pins y z) : Looks pins x z where
  same := by
    obtain ⟨inode, hy⟩ := h.same
    obtain ⟨inode', hz⟩ := h'.same
    exact ⟨inode', by rw [hz, hy]; rfl⟩
  volume := h'.volume.trans h.volume
  keeps := h.keeps.trans h'.keeps h.frame.file
  loaded ip hip := by
    rcases h'.loaded ip hip with ⟨hip', hinum⟩ | htype
    · rcases h.loaded ip hip' with ⟨hip'', hinum'⟩ | htype
      · exact .inl ⟨hip'', hinum.trans hinum'⟩
      · rw [← hinum] at htype
        exact .inr htype
    · rw [h.volume] at htype
      exact .inr htype

theorem less (h : Looks pins x y) (hle : pins' ≤ pins) : Looks pins' x y :=
  { h with keeps := h.keeps.less hle }

theorem tx (h : Looks pins x y) (hx : Tx mode spare holds x) : Tx mode spare holds y := by
  obtain ⟨inode, rfl⟩ := h.same
  exact hx.withMem ⟨rfl, rfl⟩

theorem calm (h : Looks pins x y) (hx : Calm mode holds x) : Calm mode holds y := by
  obtain ⟨inode, rfl⟩ := h.same
  exact hx.withMem ⟨rfl, rfl⟩

theorem marks (h : Looks pins x y) : y.marks = x.marks := by
  obtain ⟨inode, rfl⟩ := h.same
  rfl

end Looks

namespace Session.Intact

theorem ref_pos (h : x.Intact stale pins) (hpin : 0 < x.mem.filesOn ip + pins ip) :
    0 < (x.mem.inode ip).ref := by
  rw [h.counted ip]
  exact_mod_cast hpin

theorem ref_pos_iff (h : x.Intact stale pins) :
    0 < (x.mem.inode ip).ref ↔ 0 < x.mem.filesOn ip + pins ip := by
  rw [h.counted ip]
  exact Int.natCast_pos

/-- What a slot in use that has been read in holds. -/
theorem node_eq (h : x.Intact stale pins) (hip : (x.mem.inode ip).Loaded) :
    x.volume.node (x.mem.inode ip).inum = (x.mem.inode ip).din := node_loaded h.icache hip

theorem more_stale {stale' : Set ℕ} (h : x.Intact stale pins) (hsub : stale ⊆ stale') :
    x.Intact stale' pins :=
  { h with synced := fun i hi hnot => h.synced i hi fun hmem => hnot (hsub hmem) }

/-- Only the inode cache has changed, and the volume is the same. -/
theorem looked (h : x.Intact stale pins) (hlooks : Looks pins'' x y) (hicache : y.mem.Icache)
    (hcounted : ∀ ip, (y.mem.inode ip).ref = (x.mem.filesOn ip + pins' ip : ℕ)) :
    y.Intact stale pins' where
  wf := by
    obtain ⟨inode, rfl⟩ := hlooks.same
    exact h.wf
  icache := hicache
  owned := by
    have howned := h.owned
    rw [← hlooks.volume] at howned
    obtain ⟨inode, rfl⟩ := hlooks.same
    exact howned
  synced := by
    have hnode : y.node = x.node := congrArg Volume.node hlooks.volume
    obtain ⟨inode, rfl⟩ := hlooks.same
    intro i hi hnot
    rw [hnode]
    exact h.synced i hi hnot
  counted ip := by
    rw [hcounted ip, hlooks.frame.filesOn]

end Session.Intact

end

/-! ## Taking and giving back a reference -/

/-- What `iget` makes of a slot it has found or recycles. -/
def Inode.taken (i : Inode) (inum : ℕ) : Inode :=
  if 0 < i.ref then { i with ref := i.ref + 1 }
  else { i with dev := rootdev, inum := inum, ref := 1, valid := false }

theorem Inode.taken_found {i : Inode} (h : 0 < i.ref) (inum : ℕ) :
    i.taken inum = { i with ref := i.ref + 1 } := if_pos h

theorem Inode.taken_recycled {i : Inode} (h : ¬ 0 < i.ref) (inum : ℕ) :
    i.taken inum = { i with dev := rootdev, inum := inum, ref := 1, valid := false } := if_neg h

/-- The session once the slot `ip` has been taken for inode `i`. -/
def Session.take (x : Session) (ip : Fin ninode) (i : ℕ) : Session :=
  x.withMem (x.mem.setInode ip (·.taken i))

/-- `f` gives one reference to the slot `ip` back; the last one may leave it invalid. -/
structure Mem.Gives (m : Mem) (ip : Fin ninode) (f : Inode → Inode) : Prop where
  fields : ∃ valid, f (m.inode ip) =
    { m.inode ip with ref := (m.inode ip).ref - 1, valid := valid }
  valid : (f (m.inode ip)).valid = (m.inode ip).valid ∨
    (f (m.inode ip)).valid = false ∧ (m.inode ip).ref = 1

/-- `iget` takes the slot `ip` for inode `i`. -/
structure Mem.Takes (m : Mem) (ip : Fin ninode) (i : ℕ) : Prop where
  found : 0 < (m.inode ip).ref → (m.inode ip).inum = i
  recycled : ¬ 0 < (m.inode ip).ref → ∀ jp, 0 < (m.inode jp).ref → (m.inode jp).inum ≠ i

section
variable {x : Session} {pins : Pins} {ip : Fin ninode} {f : Inode → Inode} {stale : Set ℕ}
  {i : ℕ}

namespace Session.Intact

theorem take_icache (h : x.Intact stale pins) (hi : i < x.mem.sb.ninodes)
    (htakes : x.mem.Takes ip i) : (x.mem.setInode ip (·.taken i)).Icache := by
  by_cases hpos : 0 < (x.mem.inode ip).ref
  · refine h.icache.setInode_same hpos ?_ ?_ ?_ <;> rw [Inode.taken_found hpos]
    exact le_of_lt (Int.lt_add_one_of_le hpos.le)
  · refine h.icache.setInode ?_ fun _ => ?_ <;> rw [Inode.taken_recycled hpos]
    · exact zero_le_one
    · exact ⟨rfl, hi, fun jp _ href => htakes.recycled hpos jp href⟩

theorem take_looks (h : x.Intact stale pins) (hi : i < x.mem.sb.ninodes)
    (htakes : x.mem.Takes ip i) : Looks pins x (x.take ip i) where
  same := ⟨_, rfl⟩
  volume := by
    refine volume_same h.icache (h.take_icache hi htakes) (fun hloaded _ => ?_)
      fun hloaded hnot => ?_
    · by_cases hpos : 0 < (x.mem.inode ip).ref
      · rw [Inode.taken_found hpos] at hloaded ⊢
        exact (h.node_eq ⟨hpos, hloaded.2⟩).symm
      · rw [Inode.taken_recycled hpos] at hloaded
        exact absurd hloaded.2 Bool.false_ne_true
    · refine absurd ⟨⟨?_, ?_⟩, ?_⟩ hnot <;> rw [Inode.taken_found hloaded.1]
      · exact lt_trans hloaded.1 (Int.lt_succ _)
      · exact hloaded.2
  keeps := by
    show x.mem.Keeps pins (x.mem.setInode ip (·.taken i))
    refine Mem.keeps_setInode fun hpin => ?_
    rw [Inode.taken_found (h.ref_pos hpin)]
    exact ⟨rfl, id⟩
  loaded := loaded_of_setInode (f := (·.taken i)) rfl fun hloaded => by
    by_cases hpos : 0 < (x.mem.inode ip).ref
    · rw [Inode.taken_found hpos] at hloaded ⊢
      exact .inl ⟨⟨hpos, hloaded.2⟩, rfl⟩
    · rw [Inode.taken_recycled hpos] at hloaded
      exact absurd hloaded.2 Bool.false_ne_true

theorem take (h : x.Intact stale pins) (hi : i < x.mem.sb.ninodes)
    (htakes : x.mem.Takes ip i) : (x.take ip i).Intact stale (pins + pin ip) := by
  refine h.looked (h.take_looks hi htakes) (h.take_icache hi htakes) fun jp => ?_
  have hcount := h.counted jp
  have hnonneg := h.icache.nonneg jp
  change ((x.mem.setInode ip (·.taken i)).inode jp).ref = _
  by_cases hj : jp = ip
  · subst hj
    rw [Mem.setInode_same, Pi.add_apply, pin_same]
    by_cases hpos : 0 < (x.mem.inode jp).ref
    · rw [Inode.taken_found hpos]
      change (x.mem.inode jp).ref + 1 = _
      omega
    · rw [Inode.taken_recycled hpos]
      change (1 : ℤ) = _
      omega
  · rw [Mem.setInode_of_ne _ hj, Pi.add_apply, pin_of_ne hj]
    exact hcount

theorem give_icache (h : x.Intact stale (pins + pin ip)) (hf : x.mem.Gives ip f) :
    (x.mem.setInode ip f).Icache := by
  obtain ⟨valid, hfields⟩ := hf.fields
  have hcount := h.counted ip
  rw [Pi.add_apply, pin_same] at hcount
  refine h.icache.setInode_same (by omega) ?_ ?_ ?_ <;> rw [hfields]
  change 0 ≤ (x.mem.inode ip).ref - 1
  omega

/-- The inode is on disk as it is in the cache, so it may leave the cache. -/
theorem give_looks (h : x.Intact stale (pins + pin ip)) (hf : x.mem.Gives ip f)
    (hstale : (x.mem.inode ip).inum ∉ stale) :
    Looks pins x (x.withMem (x.mem.setInode ip f)) where
  same := ⟨_, rfl⟩
  volume := by
    obtain ⟨valid, hfields⟩ := hf.fields
    have hvalid := hf.valid
    refine volume_same h.icache (h.give_icache hf) (fun hloaded _ => ?_) fun hloaded _ => ?_
    · obtain ⟨hpos, hv⟩ := hloaded
      have hwas : (x.mem.inode ip).valid = true := by
        rcases hvalid with hsame | ⟨hno, -⟩
        · rw [← hsame]; exact hv
        · rw [hno] at hv; cases hv
      rw [hfields] at hpos ⊢
      change 0 < (x.mem.inode ip).ref - 1 at hpos
      exact (h.node_eq ⟨by omega, hwas⟩).symm
    · exact h.synced _ (h.icache.inum_lt ip hloaded.1) hstale
  keeps := by
    obtain ⟨valid, hfields⟩ := hf.fields
    have hvalid := hf.valid
    have hcount := h.counted ip
    rw [Pi.add_apply, pin_same] at hcount
    refine Mem.keeps_setInode fun hpos => ⟨by rw [hfields], fun hv => ?_⟩
    rcases hvalid with hsame | ⟨-, hone⟩
    · rw [hsame]; exact hv
    · omega
  loaded := loaded_of_setInode (f := f) rfl fun hloaded => by
    obtain ⟨valid, hfields⟩ := hf.fields
    obtain ⟨hpos, hv⟩ := hloaded
    refine .inl ⟨⟨?_, ?_⟩, by rw [hfields]⟩
    · rw [hfields] at hpos
      change 0 < (x.mem.inode ip).ref - 1 at hpos
      omega
    · rcases hf.valid with hsame | ⟨hno, -⟩
      · rw [← hsame]; exact hv
      · rw [hno] at hv; cases hv

theorem give (h : x.Intact stale (pins + pin ip)) (hf : x.mem.Gives ip f)
    (hstale : (x.mem.inode ip).inum ∉ stale) :
    (x.withMem (x.mem.setInode ip f)).Intact stale pins := by
  refine h.looked (h.give_looks hf hstale) (h.give_icache hf) fun jp => ?_
  obtain ⟨valid, hfields⟩ := hf.fields
  have hcount := h.counted jp
  change ((x.mem.setInode ip f).inode jp).ref = _
  by_cases hj : jp = ip
  · subst hj
    rw [Pi.add_apply, pin_same] at hcount
    rw [Mem.setInode_same, hfields]
    change (x.mem.inode jp).ref - 1 = _
    omega
  · rw [Pi.add_apply, pin_of_ne hj] at hcount
    rw [Mem.setInode_of_ne _ hj]
    exact hcount

end Session.Intact

end

/-! ## Reading an inode in -/

/-- The slot `ip` is in use for inode `i`, and has been read in. -/
structure Session.Locked (x : Session) (ip : Fin ninode) (i : ℕ) : Prop where
  loaded : (x.mem.inode ip).Loaded
  inum : (x.mem.inode ip).inum = i

/-- What `ilock` makes of a slot that has not been read in. -/
def Inode.filled (i : Inode) (din : Dinode) : Inode := { i with din := din, valid := true }

/-- The session once the slot `ip` has been read in. -/
def Session.load (x : Session) (ip : Fin ninode) : Session :=
  x.withMem (x.mem.setInode ip (·.filled (x.diskNode (x.mem.inode ip).inum)))

section
variable {x y : Session} {pins : Pins} {ip : Fin ninode} {stale : Set ℕ} {i : ℕ} {f g : Inode → Inode}

theorem Mem.setInode_setInode (m : Mem) (ip : Fin ninode) (f g : Inode → Inode) :
    (m.setInode ip f).setInode ip g = m.setInode ip fun i => g (f i) := by
  simp [Mem.setInode]

namespace Session.Locked

theorem node_eq (h : x.Locked ip i) (hx : x.mem.Icache) :
    (x.mem.inode ip).din = x.volume.node i := by
  rw [← h.inum]
  exact (node_loaded hx h.loaded).symm

theorem lt (h : x.Locked ip i) (hx : x.mem.Icache) : i < x.mem.sb.ninodes := by
  rw [← h.inum]
  exact hx.inum_lt ip h.loaded.1

theorem dev (h : x.Locked ip i) (hx : x.mem.Icache) : (x.mem.inode ip).dev = rootdev :=
  hx.dev ip h.loaded.1

/-- A slot that stays referenced stays locked; more slots may be pinned afterwards. -/
theorem keep_le {pins' : Pins} (h : x.Locked ip i) (hy : y.Intact stale pins')
    (hle : pins ≤ pins') (hkeeps : x.mem.Keeps pins y.mem) (hfile : y.mem.file = x.mem.file)
    (hpin : 0 < x.mem.filesOn ip + pins ip) : y.Locked ip i := by
  obtain ⟨hinum, hvalid⟩ := hkeeps ip hpin
  have hfiles : y.mem.filesOn ip = x.mem.filesOn ip := by rw [Mem.filesOn, Mem.filesOn, hfile]
  have hpin' : 0 < y.mem.filesOn ip + pins' ip := by
    have hmore : pins ip ≤ pins' ip := hle ip
    rw [hfiles]
    omega
  exact ⟨⟨hy.ref_pos hpin', hvalid h.loaded.2⟩, hinum.trans h.inum⟩

theorem keep (h : x.Locked ip i) (hy : y.Intact stale pins) (hkeeps : x.mem.Keeps pins y.mem)
    (hfile : y.mem.file = x.mem.file) (hpin : 0 < x.mem.filesOn ip + pins ip) :
    y.Locked ip i := h.keep_le hy le_rfl hkeeps hfile hpin

end Session.Locked

namespace Session.Intact

theorem load_icache (h : x.Intact stale pins) (hpos : 0 < (x.mem.inode ip).ref) :
    (x.load ip).mem.Icache :=
  h.icache.setInode_same (f := (·.filled (x.diskNode (x.mem.inode ip).inum))) hpos hpos.le rfl rfl

theorem load_volume (h : x.Intact stale pins) (hpos : 0 < (x.mem.inode ip).ref)
    (hvalid : (x.mem.inode ip).valid = false) : (x.load ip).volume = x.volume := by
  refine volume_same h.icache (h.load_icache hpos) (fun _ hlt => ?_) fun hloaded _ => ?_
  · refine (node_disk hlt fun jp hjp heq => ?_).symm
    rw [h.icache.unique jp ip hjp.1 hpos heq, Inode.Loaded, hvalid] at hjp
    exact absurd hjp.2 Bool.false_ne_true
  · rw [Inode.Loaded, hvalid] at hloaded
    exact absurd hloaded.2 Bool.false_ne_true

theorem load_looks (h : x.Intact stale pins) (hpos : 0 < (x.mem.inode ip).ref)
    (hvalid : (x.mem.inode ip).valid = false)
    (htype : (x.volume.node (x.mem.inode ip).inum).type ≠ 0) : Looks pins x (x.load ip) where
  same := ⟨_, rfl⟩
  volume := h.load_volume hpos hvalid
  keeps := by
    show x.mem.Keeps pins (x.mem.setInode ip (·.filled (x.diskNode (x.mem.inode ip).inum)))
    exact Mem.keeps_setInode fun _ => ⟨rfl, fun _ => rfl⟩
  loaded := loaded_of_setInode
    (f := (·.filled (x.diskNode (x.mem.inode ip).inum))) rfl fun _ => .inr htype

theorem load (h : x.Intact stale pins) (hpos : 0 < (x.mem.inode ip).ref)
    (hvalid : (x.mem.inode ip).valid = false)
    (htype : (x.volume.node (x.mem.inode ip).inum).type ≠ 0) : (x.load ip).Intact stale pins := by
  refine h.looked (h.load_looks hpos hvalid htype) (h.load_icache hpos) fun jp => ?_
  rw [← h.counted jp]
  change ((x.mem.setInode ip (·.filled _)).inode jp).ref = _
  by_cases hj : jp = ip
  · rw [hj, Mem.setInode_same]
    rfl
  · rw [Mem.setInode_of_ne _ hj]

end Session.Intact

end

/-! ## Changing an inode -/

section
variable {mode : Mode} {spare spare' holds : ℕ} {x y : Session} {pins : Pins}
  {ip : Fin ninode} {stale : Set ℕ} {i : ℕ} {f : Inode → Inode} {din : Dinode}

/-- A locked slot is assigned to. -/
structure Edited (stale : Set ℕ) (pins : Pins) (x y : Session) (ip : Fin ninode) (i : ℕ)
    (din : Dinode) : Prop where
  settled : y.Settled (insert i stale) pins
  frame : Frame pins x y
  volume : y.volume = x.volume.setNode i din
  locked : y.Locked ip i
  same : ∃ m, x.mem.SameLog m ∧ y = x.withMem m

theorem Session.Settled.edit (h : x.Settled stale pins) (hip : x.Locked ip i)
    (hf : f (x.mem.inode ip) = { x.mem.inode ip with din := din }) :
    Edited stale pins x (x.withMem (x.mem.setInode ip f)) ip i din := by
  have hloaded : (f (x.mem.inode ip)).Loaded := by
    rw [hf]
    exact hip.loaded
  have hfinum : (f (x.mem.inode ip)).inum = (x.mem.inode ip).inum := by rw [hf]
  obtain ⟨hicache, hvolume⟩ := volume_update h.icache hip.loaded hloaded
    (by rw [hf]; exact hip.dev h.icache) hfinum
  have hdin : (f (x.mem.inode ip)).din = din := by rw [hf]
  rw [hip.inum, hdin] at hvolume
  have hslot : (x.mem.setInode ip f).inode ip = { x.mem.inode ip with din := din } := by
    rw [Mem.setInode_same, hf]
  refine
    { settled :=
        { wf := h.wf
          icache := hicache
          synced := fun j hj hnot => ?_
          counted := fun jp => ?_ }
      frame :=
        { mem := ⟨_, _, rfl⟩
          area := ⟨rfl, rfl⟩
          outstanding := rfl
          refs := rfl
          marks := Finset.Subset.refl _
          keeps := by
            show x.mem.Keeps pins (x.mem.setInode ip f)
            refine Mem.keeps_setInode fun _ => ?_
            rw [hf]
            exact ⟨rfl, id⟩ }
      volume := hvolume
      locked := ⟨?_, ?_⟩
      same := ⟨x.mem.setInode ip f, ⟨rfl, rfl⟩, rfl⟩ }
  · have hji : j ≠ i := fun heq => hnot (Set.mem_insert_iff.mpr (.inl heq))
    have hold := h.synced j hj fun hmem => hnot (Set.mem_insert_of_mem _ hmem)
    have hnode := congrFun (congrArg Volume.node hvolume) j
    rw [Volume.setNode_node_of_ne hji] at hnode
    exact hold.trans hnode.symm
  · change ((x.mem.setInode ip f).inode jp).ref = (x.mem.filesOn jp + pins jp : ℕ)
    rw [← h.counted jp]
    by_cases hj : jp = ip
    · rw [hj, hslot]
    · rw [Mem.setInode_of_ne f hj]
  · change ((x.mem.setInode ip f).inode ip).Loaded
    rw [hslot]
    exact hip.loaded
  · change ((x.mem.setInode ip f).inode ip).inum = i
    rw [hslot]
    exact hip.inum

namespace Edited

theorem intact (h : Edited stale pins x y ip i din)
    (howned : (x.volume.setNode i din).Owned x.mem.sb.ninodes x.mem.sb.datastart x.mem.sb.size) :
    y.Intact (insert i stale) pins :=
  { h.settled with
    owned := by
      rw [h.volume, h.frame.sb]
      exact howned }

theorem tx (h : Edited stale pins x y ip i din) (hx : Tx mode spare holds x) :
    Tx mode spare holds y := by
  obtain ⟨m, hm, rfl⟩ := h.same
  exact hx.withMem hm

theorem marks (h : Edited stale pins x y ip i din) : y.marks = x.marks := by
  obtain ⟨m, -, rfl⟩ := h.same
  rfl

end Edited

/-- A locked inode is stored. -/
theorem Session.Settled.writeNode (h : x.Settled stale pins) (hip : x.Locked ip i) :
    (x.writeNode i (x.volume.node i)).Settled (stale \ {i}) pins ∧
      (x.writeNode i (x.volume.node i)).volume = x.volume := by
  have hi := hip.lt h.icache
  have hvolume : (x.writeNode i (x.volume.node i)).volume = x.volume :=
    volume_writeNode h.wf hi fun _ => rfl
  refine ⟨?_, hvolume⟩
  exact
    { wf := h.wf.congr ⟨rfl, rfl⟩
      icache := ⟨h.icache.unique, h.icache.dev, h.icache.inum_lt, h.icache.nonneg⟩
      synced := fun j hj hnot => by
        have hnode := congrFun (congrArg Volume.node hvolume) j
        rw [diskNode_writeNode h.wf hi hj]
        by_cases hji : j = i
        · subst hji
          rw [if_pos rfl]
          exact hnode.symm
        · rw [if_neg hji]
          exact (h.synced j hj fun hmem => hnot ⟨hmem, hji⟩).trans hnode.symm
      counted := h.counted }

theorem Session.Intact.writeNode (h : x.Intact stale pins) (hip : x.Locked ip i) :
    (x.writeNode i (x.volume.node i)).Intact (stale \ {i}) pins ∧
      (x.writeNode i (x.volume.node i)).volume = x.volume := by
  obtain ⟨hsettled, hvolume⟩ := h.toSettled.writeNode hip
  exact ⟨{ hsettled with owned := by rw [hvolume]; exact h.owned }, hvolume⟩

/-- Logging a block changes only the log. -/
theorem Session.frame_write (pins : Pins) (x : Session) (b : ℕ) (d : Block) :
    Frame pins x (x.write b d) where
  mem := ⟨_, _, rfl⟩
  area := ⟨rfl, rfl⟩
  outstanding := rfl
  refs := rfl
  marks := Finset.subset_insert _ _
  keeps := .refl _ _

end

/-! ## The code -/

namespace OnSession

section
variable {mode : Mode} {α : Type} {Q : α → Session → Prop}
  {spare holds : ℕ} {x : Session} {stale : Set ℕ} {pins : Pins} {ip : Fin ninode} {i : ℕ}

theorem wp_getInode {f : Inode → Kern α} :
    (getInode ip >>= f).wp (sessionRules mode) Q x ↔
      (f (x.mem.inode ip)).wp (sessionRules mode) Q x := by
  rw [getInode, bind_assoc, wp_get]
  rfl

theorem wp_modifyInode {g : Inode → Inode} {f : Unit → Kern α} :
    (modifyInode ip g >>= f).wp (sessionRules mode) Q x ↔
      (f ()).wp (sessionRules mode) Q (x.withMem (x.mem.setInode ip g)) := wp_modify

theorem wp_modifyInode_last {g : Inode → Inode} {Q' : Unit → Session → Prop} :
    (modifyInode ip g).wp (sessionRules mode) Q' x ↔
      Q' () (x.withMem (x.mem.setInode ip g)) := wp_modify_last

/-- An assignment to a slot while a buffer is held. -/
theorem wp_modifyInode_hold {b : ℕ} {g : Inode → Inode} {f : Unit → Kern α} :
    (modifyInode ip g >>= f).wp (sessionRules mode) Q (x.hold b) ↔
      (f ()).wp (sessionRules mode) Q ((x.withMem (x.mem.setInode ip g)).hold b) := wp_modify

/-- Two assignments to one slot. -/
theorem wp_modifyInode_again {g g' : Inode → Inode} {f : Unit → Kern α} :
    (modifyInode ip g' >>= f).wp (sessionRules mode) Q
        (x.withMem (x.mem.setInode ip g)) ↔
      (f ()).wp (sessionRules mode) Q
        (x.withMem (x.mem.setInode ip fun i => g' (g i))) := by
  rw [wp_modifyInode, Session.withMem_withMem, Session.withMem_view, View.withMem_mem,
    Mem.setInode_setInode]

theorem take_inum (h : x.mem.Takes ip i) : ((x.take ip i).mem.inode ip).inum = i := by
  change ((x.mem.setInode ip (·.taken i)).inode ip).inum = i
  rw [Mem.setInode_same]
  by_cases hpos : 0 < (x.mem.inode ip).ref
  · rw [Inode.taken_found hpos]
    exact h.found hpos
  · rw [Inode.taken_recycled hpos]

/-- The slot `iget` finds or recycles. -/
theorem takes_of_iget (hx : x.Intact stale pins) (hip : x.mem.cached rootdev i = some ip ∨
    x.mem.cached rootdev i = none ∧ x.mem.emptySlot = some ip) : x.mem.Takes ip i := by
  rcases hip with hfound | ⟨hnone, hempty⟩
  · have hprop := List.find?_some hfound
    simp only [decide_eq_true_eq] at hprop
    exact ⟨fun _ => hprop.2.2, fun hnot => absurd hprop.1 hnot⟩
  · have hzero := List.find?_some hempty
    simp only [decide_eq_true_eq] at hzero
    refine ⟨fun hpos => absurd hzero hpos.ne', fun _ jp hjp heq => ?_⟩
    have hno := List.find?_eq_none.mp hnone jp (List.mem_finRange jp)
    exact hno (by simpa using ⟨hjp, hx.icache.dev jp hjp, heq⟩)

/-- `iget` takes a slot for the inode number. -/
theorem wp_iget_take {f : Fin ninode → Kern α} (hx : x.Intact stale pins)
    (hfull : x.mem.cached rootdev i = none → x.mem.emptySlot = none →
      mode.err (.panic "iget: no inodes"))
    (h : ∀ ip, x.mem.Takes ip i → (f ip).wp (sessionRules mode) Q (x.take ip i)) :
    (iget rootdev i >>= f).wp (sessionRules mode) Q x := by
  rw [iget, bind_assoc, wp_get]
  cases hfound : x.mem.cached rootdev i with
  | some ip =>
      have htakes := takes_of_iget hx (.inl hfound)
      have hpos : 0 < (x.mem.inode ip).ref := by
        have hprop := List.find?_some hfound
        simp only [decide_eq_true_eq] at hprop
        exact hprop.1
      have hsame : x.take ip i =
          x.withMem (x.mem.setInode ip fun i => { i with ref := i.ref + 1 }) := by
        rw [Session.take, Mem.setInode, Inode.taken_found hpos]
        rfl
      simp only [bind_assoc]
      rw [wp_modifyInode, ← hsame]
      exact h ip htakes
  | none =>
      cases hempty : x.mem.emptySlot with
      | none => exact wp_panic_bind.mpr (hfull hfound hempty)
      | some ip =>
          have htakes := takes_of_iget hx (.inr ⟨hfound, hempty⟩)
          have hpos : ¬ 0 < (x.mem.inode ip).ref := by
            have hzero := List.find?_some hempty
            simp only [decide_eq_true_eq] at hzero
            omega
          have hsame : x.take ip i = x.withMem (x.mem.setInode ip fun j =>
              { j with dev := rootdev, inum := i, ref := 1, valid := false }) := by
            rw [Session.take, Mem.setInode, Inode.taken_recycled hpos]
            rfl
          simp only [bind_assoc]
          rw [wp_modifyInode, ← hsame]
          exact h ip htakes

/-- `iget` takes a reference to a slot for the inode. -/
theorem wp_iget {f : Fin ninode → Kern α} (hx : x.Intact stale pins) (hi : i < x.mem.sb.ninodes)
    (hfull : x.mem.cached rootdev i = none → x.mem.emptySlot = none →
      mode.err (.panic "iget: no inodes"))
    (h : ∀ ip y, y.Intact stale (pins + pin ip) → Looks pins x y → (y.mem.inode ip).inum = i →
      (f ip).wp (sessionRules mode) Q y) :
    (iget rootdev i >>= f).wp (sessionRules mode) Q x :=
  wp_iget_take hx hfull fun ip htakes =>
    h ip _ (hx.take hi htakes) (hx.take_looks hi htakes) (take_inum htakes)

/-- `ilock` reads the inode in, unless it is in the cache. -/
theorem wp_ilock {f : Unit → Kern α} (hx : x.Intact stale pins)
    (hcalm : Calm mode (holds + 1) x) (hpin : 0 < x.mem.filesOn ip + pins ip)
    (hinum : (x.mem.inode ip).inum = i)
    (htype : (x.mem.inode ip).valid = false → (x.volume.node i).type = 0 →
      mode.err (.panic "ilock: no type"))
    (h : ∀ y, y.Intact stale pins → Looks pins x y → y.Locked ip i →
      ((x.mem.inode ip).valid = false → (x.volume.node i).type ≠ 0) →
      (f ()).wp (sessionRules mode) Q y) :
    (ilock ip >>= f).wp (sessionRules mode) Q x := by
  have hpos := hx.ref_pos hpin
  rw [ilock, bind_assoc, wp_get, if_neg (by omega)]
  by_cases hvalid : (x.mem.inode ip).valid = true
  · rw [if_pos hvalid]
    refine h x hx (.refl _ _) ⟨⟨hpos, hvalid⟩, hinum⟩ fun hnot => ?_
    rw [hvalid] at hnot
    cases hnot
  · have hvalid' : (x.mem.inode ip).valid = false := Bool.eq_false_of_not_eq_true hvalid
    have hlt : i < x.mem.sb.ninodes := hinum ▸ hx.icache.inum_lt ip hpos
    have hlocked : (x.load ip).Locked ip i := by
      refine Session.Locked.mk ⟨?_, ?_⟩ ?_ <;>
        simp only [Session.load, Session.withMem_view, View.withMem_mem, Mem.setInode_same,
          Inode.filled]
      · exact hpos
      · exact hinum
    rw [if_neg hvalid, hx.icache.dev ip hpos, hinum]
    simp only [bind_assoc]
    refine wp_bread hcalm (hx.wf.iblock_ok hlt).1 ?_
    refine wp_data_hold ?_
    rw [wp_modifyInode_hold]
    refine wp_brelse (hcalm.inv.withMem rfl) ?_
    have hsame : x.withMem (x.mem.setInode ip fun j => { j with
        din := Dinode.decode (x.store (x.mem.sb.iblock i)) (j.inum % ipb), valid := true }) =
        x.load ip := by
      rw [Session.load, Session.diskNode, Mem.setInode, Mem.setInode, hinum]
      simp only [Inode.filled, hinum]
    rw [wp_modifyInode_again, hsame, wp_getInode, hlocked.node_eq (hx.load_icache hpos),
      hx.load_volume hpos hvalid']
    by_cases hzero : (x.volume.node i).type = 0
    · rw [if_pos hzero]
      exact wp_panic_bind.mpr (htype hvalid' hzero)
    · rw [if_neg hzero]
      have hnode : (x.volume.node (x.mem.inode ip).inum).type ≠ 0 := by
        rw [hinum]
        exact hzero
      exact h _ (hx.load hpos hvalid' hnode) (hx.load_looks hpos hvalid' hnode) hlocked
        fun _ => hzero

theorem wp_iunlock {f : Unit → Kern α} (hpos : 0 < (x.mem.inode ip).ref)
    (h : (f ()).wp (sessionRules mode) Q x) :
    (iunlock ip >>= f).wp (sessionRules mode) Q x := by
  rw [iunlock, bind_assoc, wp_getInode, if_neg (by omega)]
  exact h

/-- `iupdate` stores the inode. -/
theorem wp_iupdate {spare spare' : ℕ} {f : Unit → Kern α} (hx : x.Intact stale pins)
    (hip : x.Locked ip i) (htx : Tx mode spare (holds + 1) x)
    (hspare : x.mem.sb.iblock i ∉ x.marks → spare' + 1 ≤ spare) (hle : spare' ≤ spare)
    (h : ∀ y, y.Intact (stale \ {i}) pins → Frame pins x y → y.volume = x.volume →
      y.Locked ip i → Tx mode spare' (holds + 1) y → x.mem.sb.iblock i ∈ y.marks →
      (f ()).wp (sessionRules mode) Q y) :
    (iupdate ip >>= f).wp (sessionRules mode) Q x := by
  have hok := hx.wf.iblock_ok (hip.lt hx.icache)
  obtain ⟨hintact, hvolume⟩ := hx.writeNode hip
  rw [iupdate, bind_assoc, wp_get]
  simp only [hip.dev hx.icache, hip.inum, hip.node_eq hx.icache, bind_assoc]
  refine wp_bread htx.calm hok.1 ?_
  refine wp_data_hold ?_
  refine wp_update htx hok.1 hok.2 (fun hnot => hspare fun hmem => hnot ?_) hle fun htx' => ?_
  · exact Finset.mem_insert_of_mem hmem
  · exact h _ hintact (Session.frame_write ..) hvolume ⟨hip.loaded, hip.inum⟩ htx'
      (Finset.mem_insert_self _ _)

/-- `iput` of an inode that is not to be freed. -/
theorem wp_iput {f : Unit → Kern α} (hx : x.Intact stale (pins + pin ip))
    (hstale : (x.mem.inode ip).inum ∉ stale)
    (hkeep : (x.mem.inode ip).ref = 1 → (x.mem.inode ip).valid = true →
      (x.volume.node (x.mem.inode ip).inum).nlink ≠ 0)
    (h : ∀ y, y.Intact stale pins → Looks pins x y → (f ()).wp (sessionRules mode) Q y) :
    (iput ip >>= f).wp (sessionRules mode) Q x := by
  have hgives : x.mem.Gives ip fun i => { i with ref := i.ref - 1 } := ⟨⟨_, rfl⟩, .inl rfl⟩
  have hpos : 0 < (x.mem.inode ip).ref := hx.ref_pos (by rw [Pi.add_apply, pin_same]; omega)
  have hno : ¬ ((x.mem.inode ip).ref = 1 ∧ (x.mem.inode ip).valid = true ∧
      (x.mem.inode ip).din.nlink = 0) := by
    rintro ⟨hone, hvalid, hzero⟩
    refine hkeep hone hvalid ?_
    rw [hx.node_eq ⟨hpos, hvalid⟩]
    exact hzero
  rw [iput, bind_assoc, iputFree, bind_assoc, wp_getInode, if_neg hno]
  exact wp_modifyInode.mpr (h _ (hx.give hgives hstale) (hx.give_looks hgives hstale))

/-- `iput` of the last reference to an inode without links frees it on disk. -/
theorem wp_iput_free {spare spare' : ℕ} {f : Unit → Kern α}
    (hx : x.Intact stale (pins + pin ip)) (hip : x.Locked ip i) (hstale : i ∉ stale)
    (hone : (x.mem.inode ip).ref = 1) (hzero : (x.volume.node i).nlink = 0)
    (htx : Tx mode spare (holds + 1) x)
    (hspare : x.mem.sb.iblock i ∉ x.marks → spare' + 1 ≤ spare) (hle : spare' ≤ spare)
    (h : ∀ y, y.Intact stale pins → Frame pins x y →
      y.volume = x.volume.setNode i { x.volume.node i with type := 0 } →
      Tx mode spare' (holds + 1) y → (f ()).wp (sessionRules mode) Q y) :
    (iput ip >>= f).wp (sessionRules mode) Q x := by
  have hyes : (x.mem.inode ip).ref = 1 ∧ (x.mem.inode ip).valid = true ∧
      (x.mem.inode ip).din.nlink = 0 := by
    refine ⟨hone, hip.loaded.2, ?_⟩
    rw [hip.node_eq hx.icache]
    exact hzero
  have hedit := hx.toSettled.edit (f := fun i => { i with din := { i.din with type := 0 } }) hip rfl
  rw [hip.node_eq hx.icache] at hedit
  have hsub : pins ≤ pins + pin ip := fun jp => Nat.le_add_right _ _
  rw [iput, bind_assoc, iputFree, bind_assoc, wp_getInode, if_pos hyes]
  simp only [bind_assoc]
  rw [wp_modifyInode]
  refine wp_iupdate (hedit.intact (hx.owned.setNode rfl)) hedit.locked (hedit.tx htx) ?_ hle
    fun y hy hframe hvolume hlocked htx' _ => ?_
  · rw [hedit.marks, hedit.frame.sb]
    exact hspare
  · -- the slot is on disk as it is in the cache, and is given up
    have hsame : insert i stale \ {i} = stale := Set.insert_sdiff_self_of_notMem hstale
    rw [hsame] at hy
    have hcount : (y.mem.inode ip).ref = 1 := by
      rw [hy.counted, (hedit.frame.trans hframe).filesOn, ← hx.counted]
      exact hone
    have hgives : y.mem.Gives ip fun i => { i with valid := false, ref := i.ref - 1 } :=
      ⟨⟨_, rfl⟩, .inr ⟨rfl, hcount⟩⟩
    have hinum : (y.mem.inode ip).inum ∉ stale := by
      rw [hlocked.inum]
      exact hstale
    have hlooks := hy.give_looks hgives hinum
    rw [wp_modifyInode, wp_modifyInode_again]
    refine h _ (hy.give hgives hinum)
      (((hedit.frame.trans hframe).less hsub).trans hlooks.frame) ?_ (hlooks.tx htx')
    rw [hlooks.volume, hvolume, hedit.volume]

/-- `iunlockput` of an inode that is not to be freed. -/
theorem wp_iunlockput {f : Unit → Kern α} (hx : x.Intact stale (pins + pin ip))
    (hstale : (x.mem.inode ip).inum ∉ stale)
    (hkeep : (x.mem.inode ip).ref = 1 → (x.mem.inode ip).valid = true →
      (x.volume.node (x.mem.inode ip).inum).nlink ≠ 0)
    (h : ∀ y, y.Intact stale pins → Looks pins x y → (f ()).wp (sessionRules mode) Q y) :
    (iunlockput ip >>= f).wp (sessionRules mode) Q x := by
  rw [iunlockput, bind_assoc]
  refine wp_iunlock (hx.ref_pos ?_) (wp_iput hx hstale hkeep h)
  rw [Pi.add_apply, pin_same]
  omega

end

end OnSession

end RiscvOs
