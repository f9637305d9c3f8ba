import RiscvOs.Fs.Dir

/-!
# Paths

`Volume.resolve` is the walk of `namex` in a volume.  It needs a file system in order, `Volume.Tree`:
directories have entries for inodes only, and an inode of some type has a link.

Nothing a lookup does changes the volume: it takes and gives back references to slots, and
reads inodes in (`Looks`).  A slot that was not in use before is given back with an inode of
some type, so `iput` frees nothing (`Looks.keep_linked`).
-/

namespace RiscvOs

open Effect Bytes Kern OnSession

namespace Volume

/-- The walk of `namex` from inode `i`, with the name it ends with. -/
def resolve (v : Volume) (nameiparent : Bool) :
    ℕ → List UInt8 → Buffer dirsiz → ℕ → Option ℕ × Buffer dirsiz
  | 0, _, name, _ => (none, name)
  | rounds + 1, path, name, i =>
      match skipelem path name with
      | some (path, name) =>
          if (v.node i).type ≠ tDir then (none, name)
          else if nameiparent = true ∧ path = [] then (some i, name)
          else
            match v.find i name with
            | none => (none, name)
            | some k => resolve v nameiparent rounds path name (v.entry i k).inum
      | none => if nameiparent then (none, name) else (some i, name)

/-- A file system in order. -/
structure Tree (v : Volume) (n : ℕ) : Prop where
  root : (v.node rootino).type = tDir
  dirs : ∀ i < n, (v.node i).type = tDir → v.IsDir i
  inums : ∀ i < n, (v.node i).type = tDir → ∀ k < v.entries i, (v.entry i k).inum < n
  sizes : ∀ i < n, (v.node i).size.toNat ≤ maxfile * bsize
  linked : ∀ i < n, (v.node i).type ≠ 0 → (v.node i).nlink ≠ 0

/-- Inode `i` is the root directory, or a directory has an entry for it. -/
def Named (v : Volume) (n i : ℕ) : Prop :=
  i = rootino ∨ ∃ d < n, (v.node d).type = tDir ∧ ∃ k < v.entries d,
    (v.entry d k).inum ≠ 0 ∧ (v.entry d k).inum = i

/-- What a walk needs of a file system: it does not care for inodes without an entry. -/
structure Walkable (v : Volume) (n : ℕ) : Prop where
  root : (v.node rootino).type = tDir
  dirs : ∀ i < n, (v.node i).type = tDir → v.IsDir i
  inums : ∀ i < n, (v.node i).type = tDir → ∀ k < v.entries i, (v.entry i k).inum < n
  linked : ∀ i < n, v.Named n i → (v.node i).type ≠ 0 → (v.node i).nlink ≠ 0

theorem Tree.walkable {v : Volume} {n : ℕ} (h : v.Tree n) : v.Walkable n :=
  { h with linked := fun i hi _ => h.linked i hi }

/-- No directory has an entry for a free inode. -/
def Typed (v : Volume) (n : ℕ) : Prop :=
  ∀ i < n, (v.node i).type = tDir → ∀ k < v.entries i, (v.entry i k).inum ≠ 0 →
    (v.node (v.entry i k).inum).type ≠ 0

/-- An entry for a free inode is one of a file system that is not typed. -/
theorem Walkable.not_typed {v : Volume} {n i : ℕ} (h : v.Walkable n) (hnamed : v.Named n i)
    (hzero : (v.node i).type = 0) : ¬ v.Typed n := by
  intro htyped
  rcases hnamed with hroot | ⟨d, hd, hdir, k, hk, hlive, hi⟩
  · rw [hroot, h.root] at hzero
    exact absurd hzero (by decide)
  · rw [← hi] at hzero
    exact htyped d hd hdir k hk hlive hzero

end Volume

theorem skipelem_lt {path path' : List UInt8} {name name' : Buffer dirsiz}
    (h : skipelem path name = some (path', name')) : path'.length < path.length := by
  unfold skipelem at h
  have hskip : (path.dropWhile (· = slash)).length ≤ path.length :=
    (List.dropWhile_suffix _).length_le
  cases hpath : path.dropWhile (· = slash) with
  | nil =>
      rw [hpath] at h
      exact nomatch h
  | cons c rest =>
      rw [hpath] at h hskip
      have hc : c ≠ slash := by
        intro hc
        have hne : path.dropWhile (fun c => decide (c = slash)) ≠ [] := by
          rw [hpath]
          exact List.cons_ne_nil _ _
        have hhead := List.head_dropWhile_not (fun c => decide (c = slash)) hne
        simp only [hpath, List.head_cons, hc, decide_true, Bool.true_eq_false] at hhead
      obtain ⟨rfl, -⟩ := Prod.mk.inj (Option.some.inj h)
      have hrest : (((c :: rest).dropWhile (· ≠ slash)).dropWhile (· = slash)).length ≤
          rest.length := by
        have hdrop : (c :: rest).dropWhile (· ≠ slash) = rest.dropWhile (· ≠ slash) := by
          rw [List.dropWhile_cons, if_pos (by simpa using hc)]
        rw [hdrop]
        exact le_trans (List.dropWhile_suffix _).length_le (List.dropWhile_suffix _).length_le
      rw [List.length_cons] at hskip
      omega

/-! ## Slots -/

section
variable {mode : Mode} {x y : Session} {base pins : Pins} {ip : Fin ninode} {n : ℕ}

theorem base_le (base : Pins) (ip : Fin ninode) : base ≤ base + pin ip :=
  fun _ => Nat.le_add_right _ _

/-- The number of slots of the inode cache that are free. -/
def Mem.freeSlots (m : Mem) : ℕ := (Finset.univ.filter fun ip => (m.inode ip).ref = 0).card

/-- A slot that is given back belongs to an inode with a link, or somebody else has it too. -/
theorem Looks.keep_linked (h : Looks base x y) (hx : x.Intact ∅ base)
    (hlinked : (x.volume.node (y.mem.inode ip).inum).type ≠ 0 →
      (x.volume.node (y.mem.inode ip).inum).nlink ≠ 0)
    (hbase : base ≤ pins) (hy : y.Intact ∅ (pins + pin ip)) (hone : (y.mem.inode ip).ref = 1)
    (hvalid : (y.mem.inode ip).valid = true) :
    (y.volume.node (y.mem.inode ip).inum).nlink ≠ 0 := by
  have hpos : 0 < (y.mem.inode ip).ref := by omega
  rw [h.volume]
  rcases h.loaded ip ⟨hpos, hvalid⟩ with ⟨hloaded, -⟩ | htype
  · -- a file has it open, or it was pinned before
    have hheld : 0 < x.mem.filesOn ip + base ip := hx.ref_pos_iff.mp hloaded.1
    have hcount := hy.counted ip
    rw [h.frame.filesOn, Pi.add_apply, pin_same] at hcount
    have hle : base ip ≤ pins ip := hbase ip
    omega
  · exact hlinked htype

/-- While one slot is pinned, another one is free if two were. -/
theorem Looks.freeSlots_le (h : Looks base x y) (hx : x.Intact ∅ base)
    (hy : y.Intact ∅ (base + pin ip)) (hnone : y.mem.emptySlot = none) : x.mem.freeSlots ≤ 1 := by
  have hsub : (Finset.univ.filter fun jp => (x.mem.inode jp).ref = 0) ⊆ {ip} := by
    intro jp hjp
    rw [Finset.mem_filter] at hjp
    rw [Finset.mem_singleton]
    by_contra hne
    have hcount := hy.counted jp
    have hcount' := hx.counted jp
    rw [h.frame.filesOn, Pi.add_apply, pin_of_ne hne, Nat.add_zero, ← hcount'] at hcount
    have hzero : (y.mem.inode jp).ref = 0 := hcount.trans hjp.2
    have hfree := List.find?_eq_none.mp hnone jp (List.mem_finRange jp)
    exact hfree (decide_eq_true hzero)
  exact le_trans (Finset.card_le_card hsub) (by rw [Finset.card_singleton])

theorem Session.Intact.freeSlots_eq (hnone : x.mem.emptySlot = none) : x.mem.freeSlots = 0 := by
  refine Finset.card_eq_zero.mpr (Finset.filter_eq_empty_iff.mpr fun ip _ hzero => ?_)
  have hfree := List.find?_eq_none.mp hnone ip (List.mem_finRange ip)
  exact hfree (decide_eq_true hzero)

end

/-! ## The code -/

/-- Which failures of a lookup are accepted. -/
structure Accepts (mode : Mode) (x : Session) : Prop where
  slots : x.mem.freeSlots < 2 → mode.err (.panic "iget: no inodes")
  typed : ¬ x.volume.Typed x.mem.sb.ninodes → mode.err (.panic "ilock: no type")

/-- A file system in order, at the start of a call. -/
structure Session.Ordered (x : Session) : Prop where
  intact : x.Intact ∅ 0
  tree : x.volume.Tree x.mem.sb.ninodes

/-- What a walk starts with; the code at hand may have references already. -/
structure Session.Walks (x : Session) (base : Pins) : Prop where
  intact : x.Intact ∅ base
  walkable : x.volume.Walkable x.mem.sb.ninodes

theorem Session.Ordered.walks {x : Session} (h : x.Ordered) : x.Walks 0 :=
  ⟨h.intact, h.tree.walkable⟩

namespace OnSession

section
variable {mode : Mode} {α : Type} {Q : α → Session → Prop} {holds : ℕ} {x y : Session}
  {base pins : Pins} {ip : Fin ninode} {i : ℕ}

theorem linked_of_ordered (hx : x.Ordered) (hlooks : Looks 0 x y) (hy : y.Intact ∅ (pins + pin ip))
    (htype : (x.volume.node (y.mem.inode ip).inum).type ≠ 0) :
    (x.volume.node (y.mem.inode ip).inum).nlink ≠ 0 := by
  have hpos : 0 < (y.mem.inode ip).ref := hy.ref_pos (by
    rw [Pi.add_apply, pin_same]
    omega)
  have hlt := hy.icache.inum_lt ip hpos
  rw [hlooks.frame.sb] at hlt
  exact hx.tree.linked _ hlt htype

/-- `iunlockput` at the end of a lookup. -/
theorem wp_iunlockput_looked {f : Unit → Kern α} (hx : x.Ordered) (hlooks : Looks 0 x y)
    (hy : y.Intact ∅ (pins + pin ip))
    (h : ∀ z, z.Intact ∅ pins → Looks 0 x z → Looks pins y z →
      (f ()).wp (sessionRules mode) Q z) :
    (iunlockput ip >>= f).wp (sessionRules mode) Q y :=
  wp_iunlockput hy (Set.notMem_empty _)
    (hlooks.keep_linked hx.intact (linked_of_ordered hx hlooks hy) (fun _ => Nat.zero_le _) hy)
    fun z hz hlooks' => h z hz (hlooks.trans (hlooks'.less (fun _ => Nat.zero_le _))) hlooks'

/-- The inode of a slot that is given back in a walk has a link, or somebody else has it too. -/
theorem keep_walked (hx : x.Walks base) (hlooks : Looks base x y) (hbase : base ≤ pins)
    (hy : y.Intact ∅ (pins + pin ip)) (hinum : (y.mem.inode ip).inum = i)
    (hnamed : x.volume.Named x.mem.sb.ninodes i) (hone : (y.mem.inode ip).ref = 1)
    (hvalid : (y.mem.inode ip).valid = true) :
    (y.volume.node (y.mem.inode ip).inum).nlink ≠ 0 := by
  have hlt := hy.icache.inum_lt ip (by omega)
  rw [hlooks.frame.sb, hinum] at hlt
  refine hlooks.keep_linked hx.intact ?_ hbase hy hone hvalid
  rw [hinum]
  exact hx.walkable.linked i hlt hnamed

theorem wp_iput_walked {f : Unit → Kern α} (hx : x.Walks base) (hlooks : Looks base x y)
    (hbase : base ≤ pins) (hy : y.Intact ∅ (pins + pin ip)) (hinum : (y.mem.inode ip).inum = i)
    (hnamed : x.volume.Named x.mem.sb.ninodes i)
    (h : ∀ z, z.Intact ∅ pins → Looks base x z → Looks pins y z →
      (f ()).wp (sessionRules mode) Q z) :
    (iput ip >>= f).wp (sessionRules mode) Q y :=
  wp_iput hy (Set.notMem_empty _) (keep_walked hx hlooks hbase hy hinum hnamed)
    fun z hz hlooks' => h z hz (hlooks.trans (hlooks'.less hbase)) hlooks'

theorem wp_iunlockput_walked {f : Unit → Kern α} (hx : x.Walks base) (hlooks : Looks base x y)
    (hbase : base ≤ pins) (hy : y.Intact ∅ (pins + pin ip)) (hinum : (y.mem.inode ip).inum = i)
    (hnamed : x.volume.Named x.mem.sb.ninodes i)
    (h : ∀ z, z.Intact ∅ pins → Looks base x z → Looks pins y z →
      (f ()).wp (sessionRules mode) Q z) :
    (iunlockput ip >>= f).wp (sessionRules mode) Q y :=
  wp_iunlockput hy (Set.notMem_empty _) (keep_walked hx hlooks hbase hy hinum hnamed)
    fun z hz hlooks' => h z hz (hlooks.trans (hlooks'.less hbase)) hlooks'

/-- Walking a path: the slot of the inode it leads to, if it leads to one. -/
theorem wp_namexLoop {nameiparent : Bool} {rounds : ℕ} {path : List UInt8} {name : Buffer dirsiz}
    {Q : Option (Fin ninode) × Buffer dirsiz → Session → Prop} (hx : x.Walks base)
    (haccepts : Accepts mode x) (hy : y.Intact ∅ (base + pin ip)) (hlooks : Looks base x y)
    (hinum : (y.mem.inode ip).inum = i) (hcalm : Calm mode (holds + 1) x)
    (hrounds : path.length < rounds) (hnamed : x.volume.Named x.mem.sb.ninodes i)
    (hnone : ∀ z name', z.Intact ∅ base → Looks base x z →
      x.volume.resolve nameiparent rounds path name i = (none, name') → Q (none, name') z)
    (hsome : ∀ z jp j name', z.Intact ∅ (base + pin jp) → Looks base x z →
      (z.mem.inode jp).inum = j →
      x.volume.resolve nameiparent rounds path name i = (some j, name') →
      (nameiparent = true → z.Locked jp j ∧ (x.volume.node j).type = tDir) →
      x.volume.Named x.mem.sb.ninodes j → Q (some jp, name') z) :
    (namexLoop nameiparent rounds path name ip).wp (sessionRules mode) Q y := by
  induction rounds generalizing path name ip i y with
  | zero => exact absurd hrounds (Nat.not_lt_zero _)
  | succ rounds ih =>
      rw [namexLoop]
      unfold Volume.resolve at hnone hsome
      cases hskip : skipelem path name with
      | none =>
          rw [hskip] at hnone hsome
          cases nameiparent with
          | true =>
              refine wp_iput_walked hx hlooks le_rfl hy hinum hnamed
                fun z hz hlooks' _ => wp_done.mpr ?_
              exact hnone z name hz hlooks' rfl
          | false =>
              refine wp_done.mpr (hsome y ip i name hy hlooks hinum rfl ?_ hnamed)
              exact fun hfalse => absurd hfalse Bool.false_ne_true
      | some next =>
          obtain ⟨path', name'⟩ := next
          rw [hskip] at hnone hsome
          have hpin : 0 < y.mem.filesOn ip + (base + pin ip) ip := by
            rw [Pi.add_apply, pin_same]
            omega
          refine wp_ilock hy (hlooks.calm hcalm) hpin hinum (fun _ hzero => ?_)
            fun z hz hlooks₁ hlocked _ => ?_
          · rw [hlooks.volume] at hzero
            exact haccepts.typed (hx.walkable.not_typed hnamed hzero)
          have hlooks' : Looks base x z := hlooks.trans (hlooks₁.less (base_le base ip))
          have hvolume := hlooks'.volume
          have hsb := hlooks'.frame.sb
          have hlt := hlocked.lt hz.icache
          rw [hsb] at hlt
          rw [wp_getInode, hlocked.node_eq hz.icache, hvolume]
          by_cases hdir : (x.volume.node i).type ≠ tDir
          · rw [if_pos hdir]
            simp only [if_pos hdir] at hnone
            refine wp_iunlockput_walked hx hlooks' le_rfl hz hlocked.inum hnamed
              fun u hu hlooks'' _ => wp_done.mpr ?_
            exact hnone u name' hu hlooks'' rfl
          rw [if_neg hdir]
          simp only [if_neg hdir] at hnone hsome
          by_cases hlast : nameiparent = true ∧ path' = []
          · rw [if_pos hlast]
            simp only [if_pos hlast] at hsome
            refine wp_iunlock hlocked.loaded.1 (wp_done.mpr ?_)
            exact hsome z ip i name' hz hlooks' hlocked.inum rfl
              (fun _ => ⟨hlocked, not_not.mp hdir⟩) hnamed
          rw [if_neg hlast]
          simp only [if_neg hlast] at hnone hsome
          have hisDir : x.volume.IsDir i := hx.walkable.dirs i hlt (not_not.mp hdir)
          have hinums := hx.walkable.inums i hlt (not_not.mp hdir)
          refine wp_dirlookup hz hlocked (hlooks'.calm hcalm) (by rwa [hvolume])
            (by rwa [hvolume, hsb]) (fun k _ _ hempty => ?_) (fun hfind => ?_)
            fun k jp u hfind hu hlooks₂ hjp => ?_
          · have hfree := hlooks'.freeSlots_le hx.intact hz hempty
            exact haccepts.slots (by omega)
          · rw [hvolume] at hfind
            simp only [hfind] at hnone
            refine wp_iunlockput_walked hx hlooks' le_rfl hz hlocked.inum hnamed
              fun u hu hlooks'' _ => wp_done.mpr ?_
            exact hnone u name' hu hlooks'' rfl
          · rw [hvolume] at hfind hjp
            simp only [hfind] at hnone hsome
            obtain ⟨hk, hlive, -⟩ := Volume.find_some hfind
            have hswap : u.Intact ∅ (base + pin jp + pin ip) := by rwa [add_right_comm]
            have hlooks'' : Looks base x u := hlooks'.trans (hlooks₂.less (base_le base ip))
            have hheld : 0 < z.mem.filesOn ip + (base + pin ip) ip := by
              rw [Pi.add_apply, pin_same]
              omega
            have hsame : (u.mem.inode ip).inum = i :=
              (hlooks₂.keeps ip hheld).1.trans hlocked.inum
            refine wp_iunlockput_walked hx hlooks'' (base_le base jp) hswap hsame hnamed
              fun w hw hlooks₃ hgiven => ?_
            have hpin' : 0 < u.mem.filesOn jp + (base + pin jp) jp := by
              rw [Pi.add_apply, pin_same]
              omega
            have hkept : (w.mem.inode jp).inum = (x.volume.entry i k).inum :=
              (hgiven.keeps jp hpin').1.trans hjp
            have hshorter := skipelem_lt hskip
            exact ih hw hlooks₃ hkept (by omega)
              (.inr ⟨i, hlt, not_not.mp hdir, k, hk, hlive, rfl⟩) hnone hsome

end

end OnSession

end RiscvOs
