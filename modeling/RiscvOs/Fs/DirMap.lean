import RiscvOs.Fs.Dir

/-!
# A directory is a finite map

As long as no two live entries have the same name, `dirlookup` reads a finite map from names
to inode numbers, `dirlink` adds to it, and clearing an entry removes a name
(`directory_map`).
-/

namespace RiscvOs

open Effect Bytes Kern Bio OnSession Mkfs

/-! ## The map -/

namespace Volume

variable {v w : Volume} {n d k inum : ℕ} {name name' : Buffer dirsiz}

/-- The inode with a name, through the entry that says so. -/
theorem Distinct.lookup_iff (h : v.Distinct d) {i : ℕ} (hi : i ≠ 0) :
    v.lookup d name = i ↔ ∃ k < v.entries d, v.Names d name k ∧ (v.entry d k).inum = i := by
  constructor
  · intro hlookup
    cases hfind : v.find d name with
    | none => exact absurd (lookup_eq_zero.mpr hfind) (hlookup ▸ hi)
    | some k =>
        obtain ⟨hk, hnames⟩ := find_some hfind
        rw [lookup, hfind] at hlookup
        exact ⟨k, hk, hnames, hlookup⟩
  · rintro ⟨k, hk, hnames, rfl⟩
    rw [lookup, h.find_eq hk hnames]

theorem Distinct.lookup_congr (hv : v.Distinct d) (hw : w.Distinct d)
    (h : ∀ i ≠ 0, (∃ k < w.entries d, w.Names d name k ∧ (w.entry d k).inum = i) ↔
      ∃ k < v.entries d, v.Names d name k ∧ (v.entry d k).inum = i) :
    w.lookup d name = v.lookup d name := by
  by_cases hzero : v.lookup d name = 0
  · by_contra hne
    rw [hzero] at hne
    have hnames := (h _ hne).mp ((hw.lookup_iff hne).mp rfl)
    exact hne ((hv.lookup_iff hne).mpr hnames ▸ hzero)
  · exact (hw.lookup_iff hzero).mpr ((h _ hzero).mpr ((hv.lookup_iff hzero).mp rfl))

namespace DirWritten

/-- An entry at most one behind the last leaves no gap. -/
theorem other_iff {de : Dirent} (h : DirWritten v w n d k de) (hk : k ≤ v.entries d) {l : ℕ}
    (hl : l ≠ k) : l < w.entries d ↔ l < v.entries d := by
  have hentries := h.entries
  omega

/-- A name that is not there is added, in an entry that is not live. -/
theorem add (h : DirWritten v w n d k ⟨inum, name⟩) (hv : v.Distinct d) (hk : k ≤ v.entries d)
    (hfree : k < v.entries d → (v.entry d k).inum = 0) (hinum : inum ≠ 0)
    (hnone : v.find d name = none) :
    w.Distinct d ∧ w.lookup d name = inum ∧
      ∀ name', cut name' ≠ cut name → w.lookup d name' = v.lookup d name' := by
  have hentries := h.entries
  have hnew : w.Names d name k := by
    rw [Names, h.entry]
    exact ⟨hinum, rfl⟩
  have hold : ∀ l, l ≠ k → l < w.entries d → w.entry d l = v.entry d l ∧ l < v.entries d :=
    fun l hl hlt => ⟨h.other l hl hlt, (h.other_iff hk hl).mp hlt⟩
  have hdistinct : w.Distinct d := by
    intro a ha b hb hlive hlive' hsame
    by_cases hak : a = k
    · by_cases hbk : b = k
      · rw [hak, hbk]
      · obtain ⟨heq, hlt⟩ := hold b hbk hb
        rw [heq] at hlive' hsame
        rw [hak, h.entry] at hsame
        exact absurd ⟨hlive', hsame⟩ (find_none.mp hnone b hlt)
    · obtain ⟨heq, hlt⟩ := hold a hak ha
      rw [heq] at hlive hsame
      by_cases hbk : b = k
      · rw [hbk, h.entry] at hsame
        exact absurd ⟨hlive, hsame.symm⟩ (find_none.mp hnone a hlt)
      · obtain ⟨heq', hlt'⟩ := hold b hbk hb
        rw [heq'] at hlive' hsame
        exact hv a hlt b hlt' hlive hlive' hsame
  refine ⟨hdistinct, ?_, fun name' hne => hv.lookup_congr hdistinct fun i _ => ?_⟩
  · exact (hdistinct.lookup_iff hinum).mpr ⟨k, by omega, hnew, by rw [h.entry]⟩
  · constructor
    · rintro ⟨l, hl, hnames, hi⟩
      have hlk : l ≠ k := by
        rintro rfl
        rw [Names, h.entry] at hnames
        exact hne hnames.2
      obtain ⟨heq, hlt⟩ := hold l hlk hl
      rw [Names, heq] at hnames
      exact ⟨l, hlt, hnames, by rw [← heq, hi]⟩
    · rintro ⟨l, hl, hnames, hi⟩
      have hlk : l ≠ k := by
        rintro rfl
        exact hnames.1 (hfree hl)
      have heq := h.other l hlk (by omega)
      refine ⟨l, by omega, ?_, by rw [heq, hi]⟩
      rwa [Names, heq]

/-- An entry is cleared, and its name with it. -/
theorem remove (h : DirWritten v w n d k ⟨0, Buffer.zero⟩) (hv : v.Distinct d)
    (hk : k < v.entries d) (hnames : v.Names d name k) :
    w.Distinct d ∧ w.lookup d name = 0 ∧
      ∀ name', cut name' ≠ cut name → w.lookup d name' = v.lookup d name' := by
  have hentries := h.entries
  have hsame : w.entries d = v.entries d := by omega
  have hold : ∀ l < w.entries d, (w.entry d l).inum ≠ 0 → l ≠ k ∧ w.entry d l = v.entry d l := by
    intro l hl hlive
    have hlk : l ≠ k := by
      rintro rfl
      rw [h.entry] at hlive
      exact hlive rfl
    exact ⟨hlk, h.other l hlk hl⟩
  have hdistinct : w.Distinct d := by
    intro a ha b hb hlive hlive' heq
    have hsame_a := (hold a ha hlive).2
    have hsame_b := (hold b hb hlive').2
    rw [hsame_a] at hlive heq
    rw [hsame_b] at hlive' heq
    exact hv a (by omega) b (by omega) hlive hlive' heq
  refine ⟨hdistinct, lookup_eq_zero.mpr (find_none.mpr fun l hl hnames' => ?_),
    fun name' hne => hv.lookup_congr hdistinct fun i _ => ?_⟩
  · obtain ⟨hlk, heq⟩ := hold l hl hnames'.1
    rw [Names, heq] at hnames'
    exact hlk (hv l (by omega) k hk hnames'.1 hnames.1 (hnames'.2.symm.trans hnames.2))
  · constructor
    · rintro ⟨l, hl, hnames', hi⟩
      obtain ⟨-, heq⟩ := hold l hl hnames'.1
      rw [Names, heq] at hnames'
      exact ⟨l, by omega, hnames', by rw [← heq, hi]⟩
    · rintro ⟨l, hl, hnames', hi⟩
      have hlk : l ≠ k := by
        rintro rfl
        exact hne (hnames'.2.trans hnames.2.symm)
      have heq := h.other l hlk (by omega)
      refine ⟨l, by omega, ?_, by rw [heq, hi]⟩
      rwa [Names, heq]

end DirWritten

end Volume

/-! ## Taking a slot and giving it back -/

section
variable {x : Session} {stale : Set ℕ} {pins : Pins} {ip dp : Fin ninode} {i d : ℕ}

/-- What a slot says of its inode once it has been taken. -/
theorem Inode.taken_says (h : x.mem.Takes ip i) (jp : Fin ninode) (j : ℕ) :
    (((x.take ip i).mem.inode jp).Loaded ∧ ((x.take ip i).mem.inode jp).inum = j ↔
      (x.mem.inode jp).Loaded ∧ (x.mem.inode jp).inum = j) ∧
    ((x.take ip i).mem.inode jp).din = (x.mem.inode jp).din := by
  change (((x.mem.setInode ip (·.taken i)).inode jp).Loaded ∧
    ((x.mem.setInode ip (·.taken i)).inode jp).inum = j ↔ _) ∧
    ((x.mem.setInode ip (·.taken i)).inode jp).din = _
  by_cases hj : jp = ip
  · subst hj
    rw [Mem.setInode_same]
    by_cases hpos : 0 < (x.mem.inode jp).ref
    · rw [Inode.taken_found hpos]
      have hpos' : 0 < (x.mem.inode jp).ref + 1 := by omega
      exact ⟨by simp only [Inode.Loaded, hpos, hpos'], rfl⟩
    · rw [Inode.taken_recycled hpos]
      exact ⟨by simp [Inode.Loaded, hpos], rfl⟩
  · rw [Mem.setInode_of_ne _ hj]
    exact ⟨Iff.rfl, rfl⟩

/-- Assignments that change nothing of what slots say. -/
theorem Session.volume_of_says {m : Mem} (hsb : m.sb = x.mem.sb)
    (h : ∀ jp j, ((m.inode jp).Loaded ∧ (m.inode jp).inum = j ↔
      (x.mem.inode jp).Loaded ∧ (x.mem.inode jp).inum = j) ∧
      (m.inode jp).din = (x.mem.inode jp).din) : (x.withMem m).volume = x.volume := by
  refine volume_withMem hsb rfl rfl fun j => ?_
  have hloaded : m.loaded j = x.mem.loaded j := by
    unfold Mem.loaded
    congr 1
    funext jp
    exact decide_eq_decide.mpr (h jp j).1
  change (x.withMem m).node j = x.node j
  unfold Session.node
  have hmem : (x.withMem m).mem = m := rfl
  rw [hmem]
  have hdisk : (x.withMem m).diskNode j = x.diskNode j := by
    unfold Session.diskNode
    change Dinode.decode (x.store (m.sb.iblock j)) _ = _
    rw [hsb]
  rw [hloaded, hsb, hdisk]
  cases x.mem.loaded j with
  | none => rfl
  | some jp =>
      have hdin := (h jp j).2
      simp only [hdin]

/-- Taking a slot changes no inode, whatever the inode number. -/
theorem Session.volume_take (h : x.mem.Takes ip i) : (x.take ip i).volume = x.volume :=
  volume_of_says rfl fun jp j => Inode.taken_says h jp j

/-- A slot that has been taken and given back. -/
def Inode.untaken (j : Inode) (i : ℕ) : Inode := { j.taken i with ref := (j.taken i).ref - 1 }

theorem Inode.untaken_found {j : Inode} (h : 0 < j.ref) (i : ℕ) : j.untaken i = j := by
  rw [Inode.untaken, Inode.taken_found h]
  simp

theorem Inode.untaken_recycled {j : Inode} (h : ¬ 0 < j.ref) (i : ℕ) :
    j.untaken i = { j with dev := rootdev, inum := i, ref := 0, valid := false } := by
  rw [Inode.untaken, Inode.taken_recycled h]
  rfl

/-- The session once the reference has been given back. -/
def Session.untake (x : Session) (ip : Fin ninode) (i : ℕ) : Session :=
  x.withMem (x.mem.setInode ip (·.untaken i))

/-- Giving the reference back changes nothing that counts. -/
theorem Session.Intact.untake (h : x.Intact stale pins) (ip : Fin ninode) (i : ℕ) :
    (x.untake ip i).Intact stale pins ∧ (x.untake ip i).volume = x.volume ∧
      (x.Locked dp d → (x.untake ip i).Locked dp d) := by
  by_cases hpos : 0 < (x.mem.inode ip).ref
  · have hsame : x.mem.setInode ip (·.untaken i) = x.mem := by
      rw [Mem.setInode, Inode.untaken_found hpos, Function.update_eq_self]
    rw [Session.untake, hsame]
    exact ⟨h, rfl, id⟩
  · have hzero : (x.mem.inode ip).ref = 0 := le_antisymm (not_lt.mp hpos) (h.icache.nonneg ip)
    have hslot := Inode.untaken_recycled hpos i
    have hother : ∀ {jp}, jp ≠ ip →
        (x.mem.setInode ip (·.untaken i)).inode jp = x.mem.inode jp := Mem.setInode_of_ne _
    have hsays : (x.untake ip i).volume = x.volume := volume_of_says rfl fun jp j => by
      by_cases hj : jp = ip
      · subst hj
        rw [Mem.setInode_same, hslot]
        exact ⟨by simp [Inode.Loaded, hzero], rfl⟩
      · rw [hother hj]
        exact ⟨Iff.rfl, rfl⟩
    have hlooks : Looks pins x (x.untake ip i) :=
      { same := ⟨_, rfl⟩
        volume := hsays
        keeps := by
          show x.mem.Keeps pins (x.mem.setInode ip (·.untaken i))
          exact Mem.keeps_setInode fun hpin => absurd (h.ref_pos hpin) hpos
        loaded := loaded_of_setInode (f := (·.untaken i)) rfl fun hloaded => by
          rw [hslot] at hloaded
          exact absurd hloaded.2 Bool.false_ne_true }
    have hicache : (x.mem.setInode ip (·.untaken i)).Icache := by
      refine h.icache.setInode ?_ ?_
      · rw [hslot]
      · rw [hslot]
        exact fun hlt => absurd hlt (lt_irrefl _)
    refine ⟨h.looked hlooks hicache fun jp => ?_, hsays, fun hdp => ?_⟩
    · have hcount := h.counted jp
      change ((x.mem.setInode ip (·.untaken i)).inode jp).ref = _
      by_cases hj : jp = ip
      · subst hj
        rw [Mem.setInode_same, hslot, ← hcount, hzero]
      · rw [hother hj, hcount]
    · have hne : dp ≠ ip := by
        rintro rfl
        exact hpos hdp.loaded.1
      have hsame : (x.untake ip i).mem.inode dp = x.mem.inode dp := hother hne
      exact ⟨by rw [hsame]; exact hdp.loaded, by rw [hsame]; exact hdp.inum⟩

/-- `iput` right after `iget`. -/
theorem OnSession.wp_iput_take {mode : Mode} {α : Type} {Q : α → Session → Prop}
    {f : Unit → Kern α} (hQ : (f ()).wp (sessionRules mode) Q (x.untake ip i)) :
    (iput ip >>= f).wp (sessionRules mode) Q (x.take ip i) := by
  have hno : ¬ (((x.take ip i).mem.inode ip).ref = 1 ∧ ((x.take ip i).mem.inode ip).valid = true ∧
      ((x.take ip i).mem.inode ip).din.nlink = 0) := by
    change ¬ (((x.mem.setInode ip (·.taken i)).inode ip).ref = 1 ∧
      ((x.mem.setInode ip (·.taken i)).inode ip).valid = true ∧ _)
    rw [Mem.setInode_same]
    by_cases hpos : 0 < (x.mem.inode ip).ref
    · rw [Inode.taken_found hpos]
      rintro ⟨hone, -⟩
      have hone' : (x.mem.inode ip).ref + 1 = 1 := hone
      omega
    · rw [Inode.taken_recycled hpos]
      rintro ⟨-, hvalid, -⟩
      exact absurd hvalid Bool.false_ne_true
  rw [iput, bind_assoc, iputFree, bind_assoc, wp_getInode, if_neg hno]
  refine wp_modifyInode.mpr ?_
  have hsame : (x.take ip i).withMem ((x.take ip i).mem.setInode ip fun j =>
      { j with ref := j.ref - 1 }) = x.untake ip i := by
    change x.withMem ((x.mem.setInode ip (·.taken i)).setInode ip _) = _
    rw [Mem.setInode_setInode]
    rfl
  rw [hsame]
  exact hQ

end

/-! ## The code -/

/-- `dirlink` of a name that is in the directory. -/
theorem OnSession.wp_dirlink_present {mode : Mode} {α : Type} {Q : α → Session → Prop}
    {holds k inum : ℕ} {x : Session} {stale : Set ℕ} {pins : Pins} {dp : Fin ninode} {d : ℕ}
    {name : Buffer dirsiz} {f : ℤ → Kern α} (hx : x.Intact stale pins) (hdp : x.Locked dp d)
    (hcalm : Calm mode (holds + 1) x) (hdir : x.volume.IsDir d)
    (hfind : x.volume.find d name = some k)
    (hfull : x.mem.emptySlot = none → mode.err (.panic "iget: no inodes"))
    (h : ∀ y, y.Intact stale pins → y.volume = x.volume → y.Locked dp d →
      (f (-1)).wp (sessionRules mode) Q y) :
    (dirlink dp name inum >>= f).wp (sessionRules mode) Q x := by
  rw [dirlink, bind_assoc]
  refine wp_dirlookup_iget hx hdp hcalm hdir (fun hnone => ?_) fun l _ => ?_
  · rw [hfind] at hnone
    cases hnone
  · refine wp_iget_take hx (fun _ => hfull) fun ip _ => ?_
    simp only [bind_assoc]
    obtain ⟨hintact, hvolume, hlocked⟩ := hx.untake ip (x.volume.entry d l).inum
    exact OnSession.wp_iput_take (h _ hintact hvolume (hlocked hdp))

/-- The state `s` with the locked directory `d`. -/
structure DirAt (x : Session) (s : Machine) (stale : Set ℕ) (pins : Pins) (dp : Fin ninode)
    (d : ℕ) : Prop extends FileAt x s stale pins dp d where
  isDir : x.volume.IsDir d
  distinct : x.volume.Distinct d

/-- For want of a slot in the inode cache, or of room in the log. -/
def dirMode (limited : Prop) : Mode where
  strict := False
  limited := limited
  capped := False.elim
  err e := e = .panic "iget: no inodes" ∨ ¬ limited ∧ e = .panic "log: too big"
  big h := .inr ⟨h, rfl⟩

section
variable {mode : Mode} {x : Session} {s : Machine} {stale : Set ℕ} {pins : Pins}
  {dp : Fin ninode} {d : ℕ} {name : Buffer dirsiz}

/-- What `dirlookup` has found: the inode with the name. -/
def Found (x y : Session) (d : ℕ) (name : Buffer dirsiz) : Option (Fin ninode × ℕ) → Prop
  | none => x.volume.lookup d name = 0
  | some (ip, off) => (y.mem.inode ip).inum = x.volume.lookup d name ∧
      x.volume.lookup d name ≠ 0 ∧ ∃ k, x.volume.find d name = some k ∧ off = 16 * k

theorem DirAt.finds (h : DirAt x s stale pins dp d) (hcalm : Calm mode (0 + 1) x)
    (hfull : x.mem.emptySlot = none → mode.err (.panic "iget: no inodes")) :
    (dirlookup dp name).wp (sessionRules mode)
      (fun r y => y.volume = x.volume ∧ Found x y d name r) x := by
  rw [← Prog.bind_ret (dirlookup dp name)]
  refine wp_dirlookup_iget h.intact h.locked hcalm h.isDir (fun hnone => ?_) fun k hk => ?_
  · exact OnSession.wp_done.mpr ⟨rfl, Volume.lookup_eq_zero.mpr hnone⟩
  · refine wp_iget_take h.intact (fun _ => hfull) fun ip htakes => OnSession.wp_done.mpr ?_
    have hlookup : x.volume.lookup d name = (x.volume.entry d k).inum := by
      rw [Volume.lookup, hk]
    refine ⟨Session.volume_take htakes, ?_, ?_, k, hk, rfl⟩
    · rw [hlookup]
      exact take_inum htakes
    · rw [hlookup]
      exact (Volume.find_some hk).2.1

/-- What `dirlink` has done: nothing, or it has added the name. -/
def Linked (x y : Session) (d : ℕ) (name : Buffer dirsiz) (inum : ℕ) (r : ℤ) : Prop :=
  r = -1 ∧ x.volume.lookup d name ≠ 0 ∧ y.volume = x.volume ∨
    r = 0 ∧ x.volume.lookup d name = 0 ∧ y.volume.lookup d name = inum ∧
      (∀ name', cut name' ≠ cut name → y.volume.lookup d name' = x.volume.lookup d name') ∧
      ∃ k ≤ x.volume.entries d, (k < x.volume.entries d → (x.volume.entry d k).inum = 0) ∧
        y.volume.entry d k = ⟨inum, name⟩

theorem DirAt.links (h : DirAt x s stale pins dp d) {inum : ℕ} (hlo : inum ≠ 0)
    (hhi : inum < 2 ^ 16) (htx : Tx mode (0 + 3) (0 + 2) x)
    (hfull : x.mem.emptySlot = none → mode.err (.panic "iget: no inodes"))
    (hroom : x.volume.missing d (Volume.slotsIn (16 * x.volume.freeEntry d) 16) ≤
      x.volume.free x.mem.sb.size) (hsmall : (x.volume.node d).size.toNat < maxfile * bsize) :
    (dirlink dp name inum).wp (sessionRules mode)
      (fun r y => (y.Intact stale pins ∧ y.Locked dp d ∧ y.volume.IsDir d ∧
        y.volume.Distinct d) ∧ Linked x y d name inum r) x := by
  have hmax : maxfile * bsize = 274432 := by decide
  have hsize := h.isDir.size_eq
  have hentry := x.volume.freeEntry_le d
  rw [← Prog.bind_ret (dirlink dp name inum)]
  cases hfind : x.volume.find d name with
  | none =>
      refine wp_dirlink h.intact h.locked htx h.isDir hhi hfind
        (fun hshort => absurd hroom (not_le.mpr hshort)) (fun hbig => by omega)
        fun y hy _ hwritten _ hlocked _ => OnSession.wp_done.mpr ?_
      obtain ⟨hdistinct, hnew, hother⟩ := hwritten.add h.distinct hentry
        Volume.freeEntry_free hlo hfind
      exact ⟨⟨hy, hlocked, hwritten.isDir, hdistinct⟩, .inr ⟨rfl, Volume.lookup_eq_zero.mpr hfind,
        hnew, hother, _, hentry, Volume.freeEntry_free, hwritten.entry⟩⟩
  | some k =>
      have hpresent : x.volume.lookup d name ≠ 0 := fun hzero => by
        rw [Volume.lookup_eq_zero, hfind] at hzero
        exact nomatch hzero
      have hcalm : Calm mode (0 + 1 + 1) x := htx.calm
      refine wp_dirlink_present h.intact h.locked hcalm h.isDir hfind hfull
        fun y hy hvolume hlocked => OnSession.wp_done.mpr
          ⟨⟨hy, hlocked, ?_, ?_⟩, .inl ⟨rfl, hpresent, hvolume⟩⟩
      · rw [hvolume]
        exact h.isDir
      · rw [hvolume]
        exact h.distinct

/-- Clearing the entry with a name, as `sys_unlink` does. -/
theorem DirAt.clears (h : DirAt x s stale pins dp d) {k : ℕ} (hk : x.volume.find d name = some k)
    (htx : Tx mode (0 + 3) (0 + 2) x)
    (hroom : x.volume.missing d (Volume.slotsIn (16 * k) 16) ≤ x.volume.free x.mem.sb.size) :
    (writei dp (Dirent.encode ⟨0, Buffer.zero⟩) (16 * k)).wp (sessionRules mode)
      (fun r y => r = 16 ∧ (y.Intact stale pins ∧ y.Locked dp d ∧ y.volume.IsDir d ∧
        y.volume.Distinct d) ∧ y.volume.lookup d name = 0 ∧
        ∀ name', cut name' ≠ cut name → y.volume.lookup d name' = x.volume.lookup d name') x := by
  have hmax : maxfile * bsize = 274432 := by decide
  have hsize := h.isDir.size_eq
  have hle := h.isDir.size_le
  have hlen := Dirent.length_encode ⟨0, Buffer.zero⟩
  have hblocks := blocksIn_entry k
  obtain ⟨hlt, hnames⟩ := Volume.find_some hk
  rw [← Prog.bind_ret (writei dp _ _)]
  refine wp_writei h.intact h.locked (by omega) (by rw [hlen]; decide)
    (by rw [hlen, hblocks]; exact htx) (fun hshort => ?_) (fun hbig => ?_)
    (fun hbad => absurd hbad (by rw [hlen]; omega)) fun _ _ y hy _ hwritten hlocked _ =>
      OnSession.wp_done.mpr ?_
  · rw [hlen] at hshort
    exact absurd hroom (not_le.mpr hshort)
  · rw [hlen] at hbig
    omega
  · have hdir := h.isDir.written (by decide) hlt.le (by omega) hwritten
    obtain ⟨hdistinct, hgone, hother⟩ := hdir.remove h.distinct hlt hnames
    exact ⟨by rw [hlen]; rfl, ⟨hy, hlocked, hdir.isDir, hdistinct⟩, hgone, hother⟩

end

/-- A directory is a finite map: `dirlookup` reads it, `dirlink` fails exactly if the name is there
and adds it otherwise, and clearing an entry removes its name.  None of them has a way to fail
but that the log, the buffer cache or the inode cache has no room. -/
theorem directory_map {x : Session} {s : Machine} {stale : Set ℕ} {pins : Pins} {dp : Fin ninode}
    {d : ℕ} (h : DirAt x s stale pins dp d) (name : Buffer dirsiz) :
    (LogInv rootdev ∅ x.toView →
      (∀ r t, (dirlookup dp name).run machine s = .ok (r, t) →
        ∃ y, (∃ order, Refines rootdev order y.toView t) ∧ y.volume = x.volume ∧
          Found x y d name r) ∧
      (∀ e, (dirlookup dp name).run machine s = .error e →
        e = .panic "iget: no inodes" ∨ e = .panic "bget: no buffers") ∧
      (x.Fits 1 → x.mem.emptySlot ≠ none → ∃ r t, (dirlookup dp name).run machine s = .ok (r, t))) ∧
    (∀ inum, inum ≠ 0 → inum < 2 ^ 16 → Tx bigMode 0 0 x →
      (x.volume.node d).size.toNat < maxfile * bsize →
      x.volume.missing d (Volume.slotsIn (16 * x.volume.freeEntry d) 16) ≤
        x.volume.free x.mem.sb.size →
      (∀ r t, (dirlink dp name inum).run machine s = .ok (r, t) →
        ∃ y, DirAt y t stale pins dp d ∧ Linked x y d name inum r) ∧
      (∀ e, (dirlink dp name inum).run machine s = .error e → e = .panic "iget: no inodes" ∨
        e = .panic "log: too big" ∨ e = .panic "bget: no buffers") ∧
      (Tx sureMode 3 2 x → x.mem.emptySlot ≠ none →
        ∃ r t, (dirlink dp name inum).run machine s = .ok (r, t))) ∧
    ∀ k, x.volume.find d name = some k → Tx bigMode 0 0 x →
      x.volume.missing d (Volume.slotsIn (16 * k) 16) ≤ x.volume.free x.mem.sb.size →
      ∀ r t, (writei dp (Dirent.encode ⟨0, Buffer.zero⟩) (16 * k)).run machine s = .ok (r, t) →
        r = 16 ∧ ∃ y, DirAt y t stale pins dp d ∧ y.volume.lookup d name = 0 ∧
          ∀ name', cut name' ≠ cut name → y.volume.lookup d name' = x.volume.lookup d name' := by
  have hdirAt : ∀ {y t}, (∃ order, Refines rootdev order y.toView t) →
      (y.Intact stale pins ∧ y.Locked dp d ∧ y.volume.IsDir d ∧ y.volume.Distinct d) →
        DirAt y t stale pins dp d :=
    fun hrefines hy => ⟨⟨hrefines, hy.1, hy.2.1, hy.2.2.1.size_le⟩, hy.2.2.1, hy.2.2.2⟩
  refine ⟨fun hinv => ?_, fun inum hlo hhi htx hsmall hroom => ?_, fun k hk htx hroom r t hrun => ?_⟩
  · have hcalm : Calm (dirMode True) (0 + 1) x := ⟨hinv, False.elim⟩
    have hwp : (dirlookup dp name).wp (sessionRules (dirMode True)) _ x :=
      h.finds hcalm fun _ => .inl rfl
    refine ⟨fun r t hrun => ?_, fun e hrun => ?_, fun hfits hslot => ?_⟩
    · exact (session_simulation _).run_ok hwp h.refines hrun
    · rcases error_of_wp hwp h.refines hrun with (herr | ⟨hno, -⟩) | ⟨-, herr⟩
      · exact .inl herr
      · exact absurd trivial hno
      · exact .inr herr
    · exact ok_of_sure (h.finds ⟨hinv, fun _ => hfits⟩ fun hnone => absurd hnone hslot) h.refines
  · have htx' : Tx (dirMode False) (0 + 3) (0 + 2) x :=
      { htx with
        budget := False.elim
        room := False.elim
        fits := False.elim }
    have hwp : (dirlink dp name inum).wp (sessionRules (dirMode False)) _ x :=
      h.links hlo hhi htx' (fun _ => .inl rfl) hroom hsmall
    refine ⟨fun r t hrun => ?_, fun e hrun => ?_, fun hsure hslot => ?_⟩
    · obtain ⟨y, hrefines, hy, hlinked⟩ := (session_simulation _).run_ok hwp h.refines hrun
      exact ⟨y, hdirAt hrefines hy, hlinked⟩
    · rcases error_of_wp hwp h.refines hrun with (herr | ⟨-, herr⟩) | ⟨-, herr⟩
      · exact .inl herr
      · exact .inr (.inl herr)
      · exact .inr (.inr herr)
    · exact ok_of_sure (h.links hlo hhi hsure (fun hnone => absurd hnone hslot) hroom hsmall)
        h.refines
  · have htx' : Tx bigMode (0 + 3) (0 + 2) x :=
      { htx with
        budget := False.elim
        fits := False.elim }
    obtain ⟨y, hrefines, hr, hy, hgone⟩ :=
      (session_simulation _).run_ok (h.clears hk htx' hroom) h.refines hrun
    exact ⟨hr, y, hdirAt hrefines hy, hgone⟩

/-- The entries of a directory of a new image. -/
theorem Mkfs.SaysNode.entries {v : Volume} {r : Record} {d : ℕ} {es : List Dirent} (h : SaysNode v r d) (hbytes : r.bytes d = es.flatMap Dirent.encode) :
    v.entries d = es.length ∧ (v.node d).size.toNat = 16 * es.length ∧
      ∀ k (hk : k < es.length), es[k].inum < 2 ^ 16 → v.entry d k = es[k] := by
  have hlen : (es.flatMap Dirent.encode).length = 16 * es.length := by
    simp [List.length_flatMap, Dirent.length_encode, Nat.mul_comm]
  have hsize : (v.node d).size.toNat = 16 * es.length := by rw [h.size, hbytes, hlen]
  refine ⟨by rw [Volume.entries, hsize]; omega, hsize, fun k hk hinum => ?_⟩
  have hread : v.bytes d (16 * k) 16 = (((es.flatMap Dirent.encode).drop (16 * k)).take 16) := by
    rw [← hbytes, ← h.bytes, hbytes, hlen]
    have hrest : 16 * es.length = 16 * k + (16 + (16 * (es.length - k - 1))) := by omega
    rw [hrest, Volume.bytes_append, Volume.bytes_append, List.drop_left' (Volume.length_bytes ..),
      Nat.zero_add, List.take_left' (Volume.length_bytes ..)]
  rw [Volume.entry, hread, flatMap_slice Dirent.length_encode hk, Dirent.decode_encode hinum]

/-- The root directory of a new image has `.` and `..`. -/
theorem root_entries {v : Volume} (h : SaysNode v (Record.of mainCalls) rootino) :
    v.entries rootino = 2 ∧ v.entry rootino 0 = ⟨rootino, Buffer.zero.write 0 [dot]⟩ ∧
      v.entry rootino 1 = ⟨rootino, Buffer.zero.write 0 [dot, dot]⟩ ∧ v.IsDir rootino ∧
      v.Distinct rootino := by
  have hbytes : (Record.of mainCalls).bytes rootino =
      [⟨rootino, Buffer.zero.write 0 [dot]⟩,
        ⟨rootino, Buffer.zero.write 0 [dot, dot]⟩].flatMap Dirent.encode := rfl
  obtain ⟨hentries, hsize, hentry⟩ := h.entries hbytes
  have hentry₀ := hentry 0 (by decide) (by decide)
  have hentry₁ := hentry 1 (by decide) (by decide)
  change v.entries rootino = 2 at hentries
  change (v.node rootino).size.toNat = 32 at hsize
  change v.entry rootino 0 = ⟨rootino, Buffer.zero.write 0 [dot]⟩ at hentry₀
  change v.entry rootino 1 = ⟨rootino, Buffer.zero.write 0 [dot, dot]⟩ at hentry₁
  have hne : cut (Buffer.zero.write 0 [dot]) ≠ cut (Buffer.zero.write 0 [dot, dot]) := by decide
  refine ⟨hentries, hentry₀, hentry₁, ⟨h.type, ?_, ?_⟩, ?_⟩
  · rw [hsize]
    decide
  · rw [hsize]
    decide
  · intro k hk l hl _ _ hsame
    rw [hentries] at hk hl
    obtain rfl | rfl : k = 0 ∨ k = 1 := by omega
    · obtain rfl | rfl : l = 0 ∨ l = 1 := by omega
      · rfl
      · rw [hentry₀, hentry₁] at hsame
        exact absurd hsame hne
    · obtain rfl | rfl : l = 0 ∨ l = 1 := by omega
      · rw [hentry₀, hentry₁] at hsame
        exact absurd hsame.symm hne
      · rfl

/-- Slots of the inode cache are free when nothing but the root directory is in it. -/
theorem RootLocked.emptySlot {x : Session} {s : Machine} {ip : Fin ninode}
    (h : RootLocked x s ip) : x.mem.emptySlot ≠ none := by
  intro hnone
  obtain ⟨jp, hjp⟩ : ∃ jp : Fin ninode, jp ≠ ip := exists_ne ip
  have hcount := h.intact.counted jp
  have hfiles : x.mem.filesOn jp = 0 := by
    refine Finset.card_eq_zero.mpr (Finset.filter_eq_empty_iff.mpr fun f _ hf => ?_)
    exact absurd (h.closed f) hf.1.ne'
  have hfree := List.find?_eq_none.mp hnone jp (List.mem_finRange jp)
  rw [hfiles, pin_of_ne hjp] at hcount
  exact hfree (decide_eq_true hcount)

/-- `dirlookup` of `.` in the root directory of a new image. -/
theorem directory_map_root : ∃ x s ip, DirAt x s ∅ (pin ip) ip rootino ∧
    x.volume.lookup rootino (Buffer.zero.write 0 [dot]) = rootino ∧
    ∃ r t, (dirlookup ip (Buffer.zero.write 0 [dot])).run machine s = .ok (r, t) ∧
      ∃ y, Found x y rootino (Buffer.zero.write 0 [dot]) r := by
  obtain ⟨x, s, ip, hroot⟩ := exists_rootLocked
  obtain ⟨hentries, hentry, -, hdir, hdistinct⟩ := root_entries hroot.contains
  have hat : DirAt x s ∅ (pin ip) ip rootino := ⟨hroot.toFileAt, hdir, hdistinct⟩
  have hnames : x.volume.Names rootino (Buffer.zero.write 0 [dot]) 0 := by
    rw [Volume.Names, hentry]
    exact ⟨by decide, rfl⟩
  obtain ⟨hright, -, hends⟩ := (directory_map hat (Buffer.zero.write 0 [dot])).1 hroot.tx.inv
  obtain ⟨r, t, hrun⟩ := hends ((hroot.tx.calm.fits trivial).less (by decide)) hroot.emptySlot
  obtain ⟨y, -, -, hfound⟩ := hright r t hrun
  refine ⟨x, s, ip, hat, ?_, r, t, hrun, y, hfound⟩
  rw [Volume.lookup, hdistinct.find_eq (by omega) hnames]
  exact congrArg Dirent.inum hentry

end RiscvOs
