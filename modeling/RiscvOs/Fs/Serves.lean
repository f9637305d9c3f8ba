import RiscvOs.Fs.Rooted
import Mathlib.Data.Fintype.BigOperators

/-!
# The code serves a map of byte arrays

`Session.Shows` relates what the code has, inodes in a cache, blocks and a file table, to the
flat file system that its users see.  Every call of a calm run with one directory returns what
`Flat.Does` says and leaves what it says (`Outcome.serves`).

The relation is kept in the sessions of `Session.Orderly`: no open file has been removed, and no
two descriptors have a file in common.  A change of the volume matters to an open file only if it
takes its name away or makes it shorter (`Volume.KeepsAt`).
-/

/-! ## Optional values -/

section
variable {α β : Type} {R S : α → β → Prop} {a : Option α} {b : Option β}

theorem Option.Rel.imp (h : Option.Rel R a b) (himp : ∀ x ∈ a, ∀ y, R x y → S x y) : Option.Rel S a b := by
  cases h with
  | none => exact .none
  | some hxy => exact .some (himp _ rfl _ hxy)

theorem Option.Rel.map {γ δ : Type} {T : γ → δ → Prop} {f : α → γ} {g : β → δ}
    (h : Option.Rel R a b) (himp : ∀ x y, R x y → T (f x) (g y)) :
    Option.Rel T (a.map f) (b.map g) := by
  cases h with
  | none => exact .none
  | some hxy => exact .some (himp _ _ hxy)

theorem Option.Rel.eq_none_iff (h : Option.Rel R a b) : b = .none ↔ a = .none := by
  cases h with
  | none => exact iff_of_true rfl rfl
  | some hxy => exact iff_of_false (Option.some_ne_none _) (Option.some_ne_none _)

theorem Option.Rel.exists_of_eq_some {x : α} (h : Option.Rel R a b) (hx : a = .some x) :
    ∃ y, b = .some y ∧ R x y := by
  cases h with
  | none => cases hx
  | some hxy =>
      obtain rfl := Option.some.inj hx
      exact ⟨_, rfl, hxy⟩

end

namespace RiscvOs

open Effect Bytes Kern Bio

/-! ## Sessions -/

/-- The descriptor is what the file table has. -/
structure Session.Describes (x : Session) (f : Fin nfile) (d : Desc) : Prop where
  place : x.volume.Locates d.place (x.inumOf f)
  off : d.off = (x.mem.file f).off
  readable : d.readable = (x.mem.file f).readable
  writable : d.writable = (x.mem.file f).writable
  within : (x.mem.file f).off ≤ x.sizeOf f

/-- The flat file system is what the session holds. -/
structure Session.Shows (x : Session) (s : Flat) : Prop where
  rooted : x.volume.Rooted
  files : s.files = x.volume.files
  desc : ∀ p fd, Option.Rel x.Describes (x.mem.ofile p fd) (s.desc p fd)

/-- A session between two calls of a calm run. -/
structure Session.Orderly (x : Session) : Prop extends x.AtRest, x.Neat where
  small : x.mem.sb.ninodes ≤ 2 ^ 16
  unshared : x.mem.Unshared

/-- An inode keeps its names and gets no shorter. -/
structure Volume.KeepsAt (v w : Volume) (i : ℕ) : Prop where
  called : ∀ nm, v.called nm = some i → w.called nm = some i
  size : (v.node i).size.toNat ≤ (w.node i).size.toNat

/-- A file stays open as it is. -/
structure Session.KeepsOpen (x y : Session) (f : Fin nfile) : Prop where
  file : y.mem.file f = x.mem.file f
  inum : y.inumOf f = x.inumOf f
  volume : x.volume.KeepsAt y.volume (x.inumOf f)

section
variable {x y : Session} {s s' : Flat} {name : Buffer dirsiz} {f : Fin nfile} {d : Desc}
  {p : Fin nproc} {fd : Fin nofile} {m : Mem} {call : Syscall} {r : ℤ} {n i : ℕ}

theorem Session.AtRest.root_lt (hx : x.AtRest) : rootino < x.mem.sb.ninodes := by
  refine x.lt_of_type ?_
  rw [hx.tree.root]
  decide

/-! ## Descriptors -/

/-- If at most one pair is counted, two that are counted are the same. -/
theorem unique_of_sum_card_le {ι κ : Type} [Fintype ι] [Fintype κ] {P : ι → κ → Prop}
    [∀ i, DecidablePred (P i)] {i j : ι} {k l : κ}
    (h : ∑ i, (Finset.univ.filter fun k => P i k).card ≤ 1) (hi : P i k) (hj : P j l) :
    i = j ∧ k = l := by
  have hsum : ∑ i, (Finset.univ.filter fun k => P i k).card =
      (Finset.univ.filter fun a : ι × κ => P a.1 a.2).card := by
    simp only [Finset.card_filter]
    exact (Fintype.sum_prod_type' fun i k => if P i k then 1 else 0).symm
  rw [hsum] at h
  have hmem {i : ι} {k : κ} (hik : P i k) :
      (i, k) ∈ Finset.univ.filter fun a : ι × κ => P a.1 a.2 :=
    Finset.mem_filter.mpr ⟨Finset.mem_univ (i, k), hik⟩
  exact Prod.mk.inj (Finset.card_le_one.mp h _ (hmem hi) _ (hmem hj))

/-- No two descriptors have a file in common. -/
theorem Mem.Unshared.slot_inj (h : m.Unshared) {q : Fin nproc} {fd' : Fin nofile}
    (hf : m.ofile p fd = some f) (hf' : m.ofile q fd' = some f) : p = q ∧ fd = fd' :=
  unique_of_sum_card_le (P := fun p fd => m.ofile p fd = some f) (h f) hf hf'

/-- Each descriptor is that of one file. -/
theorem Mem.sum_fdsOn (m : Mem) :
    ∑ f, m.fdsOn f = ∑ p, (Finset.univ.filter fun fd => m.ofile p fd ≠ none).card := by
  have hone (o : Option (Fin nfile)) :
      ∑ f, (if o = some f then 1 else 0) = if o ≠ none then 1 else 0 := by
    cases o with
    | none => rfl
    | some f =>
        rw [if_pos (Option.some_ne_none f)]
        simp only [Option.some_inj, Finset.sum_ite_eq, Finset.mem_univ, if_true]
  simp only [Mem.fdsOn, Finset.card_filter]
  rw [Finset.sum_comm]
  refine Finset.sum_congr rfl fun p _ => ?_
  rw [Finset.sum_comm]
  exact Finset.sum_congr rfl fun fd _ => hone (m.ofile p fd)

/-- The descriptor that `sys_open` takes. -/
theorem Session.Shows.freeFd (h : x.Shows s) : s.freeFd x.mem.cur = x.mem.freeFd :=
  List.find?_congr fun _ _ => decide_eq_decide.mpr (and_congr_right fun _ => (h.desc _ _).eq_none_iff)

/-- There is no room for another file exactly if as many descriptors are open. -/
theorem Session.Shows.full (h : x.Shows s) (hx : x.Files) (hone : x.mem.Unshared) :
    s.Full ↔ x.mem.freeFile = none := by
  have hnone (p : Fin nproc) (fd : Fin nofile) : s.desc p fd = none ↔ x.mem.ofile p fd = none :=
    (h.desc p fd).eq_none_iff
  have hcount : ∑ p, (Finset.univ.filter fun fd => s.desc p fd ≠ none).card =
      ∑ f, x.mem.fdsOn f := by
    rw [x.mem.sum_fdsOn]
    simp only [ne_eq, hnone]
  have hall : ∑ _f : Fin nfile, 1 = nfile := by
    rw [Finset.sum_const, Finset.card_univ, Fintype.card_fin, Nat.nsmul_eq_mul, Nat.mul_one]
  calc s.Full ↔ ∑ f, x.mem.fdsOn f = ∑ _f : Fin nfile, 1 := by rw [Flat.Full, hcount, hall]
    _ ↔ ∀ f ∈ Finset.univ, x.mem.fdsOn f = 1 := Finset.sum_eq_sum_iff_of_le fun f _ => hone f
    _ ↔ x.mem.freeFile = none := by
      rw [Mem.freeFile, List.find?_eq_none]
      refine forall_congr' fun f => ?_
      have hcounted := hx.counted f
      have hle := hone f
      refine imp_congr (iff_of_true (Finset.mem_univ f) (List.mem_finRange f)) ?_
      rw [decide_eq_true_iff]
      omega

/-- A descriptor of a file that stays open as it is. -/
theorem Session.Describes.keep (h : x.Describes f d) (hkeeps : x.KeepsOpen y f) :
    y.Describes f d := by
  refine ⟨?_, ?_, ?_, ?_, ?_⟩
  · rw [hkeeps.inum]
    cases hplace : d.place with
    | dir =>
        have hold := h.place
        rw [hplace] at hold
        exact hold
    | file nm =>
        have hold := h.place
        rw [hplace] at hold
        exact ⟨hkeeps.volume.called nm hold.1, hold.2⟩
  · rw [hkeeps.file]
    exact h.off
  · rw [hkeeps.file]
    exact h.readable
  · rw [hkeeps.file]
    exact h.writable
  · rw [hkeeps.file]
    refine h.within.trans ?_
    unfold Session.sizeOf
    rw [hkeeps.inum]
    exact hkeeps.volume.size

/-- Descriptors of files that stay open as they are. -/
theorem Session.Shows.keep (h : x.Shows s) (hrooted : y.volume.Rooted)
    (hfiles : s'.files = y.volume.files) (hofile : y.mem.ofile = x.mem.ofile)
    (hdesc : s'.desc = s.desc) (hkeeps : ∀ p fd f, x.mem.ofile p fd = some f → x.KeepsOpen y f) :
    y.Shows s' := by
  refine ⟨hrooted, hfiles, fun p fd => ?_⟩
  rw [hofile, hdesc]
  exact (h.desc p fd).imp fun f hf d hd => hd.keep (hkeeps p fd f hf)

/-- The descriptor with a number. -/
theorem Session.Shows.descAt (h : x.Shows s) (a : ℤ) :
    Option.Rel (fun o e => e.1 = o.1 ∧ x.Describes o.2 e.2) (x.mem.fdFile a)
      (s.descAt x.mem.cur a) := by
  unfold Mem.fdFile Flat.descAt
  by_cases ha : 0 ≤ a ∧ a < nofile
  · rw [dif_pos ha, dif_pos ha]
    exact (h.desc x.mem.cur _).map fun f d hd => ⟨rfl, hd⟩
  · rw [dif_neg ha, dif_neg ha]
    exact .none

/-- The descriptor a call works on. -/
theorem Session.Shows.target (h : x.Shows s) (call : Syscall) :
    Option.Rel (fun o e => e.1 = o.1 ∧ x.Describes o.2 e.2) (call.target x.mem)
      (s.target x.mem.cur call) := by
  cases call with
  | «open» a₀ a₁ => exact .none
  | unlink a₀ => exact .none
  | close a₀ => exact h.descAt (argint a₀)
  | read a₀ a₁ a₂ =>
      unfold Syscall.target Flat.target
      by_cases hno : argint a₂ < 0 ∨ argint a₀ = 0
      · simp only [if_pos hno]
        exact .none
      · simp only [if_neg hno]
        exact h.descAt (argint a₀)
  | write a₀ a₁ a₂ =>
      unfold Syscall.target Flat.target
      by_cases hno : argint a₂ < 0 ∨ argint a₀ = 1 ∨ argint a₀ = 2
      · simp only [if_pos hno]
        exact .none
      · simp only [if_neg hno]
        exact h.descAt (argint a₀)

/-! ## Changes of the volume -/

namespace Volume.KeepsAt

variable {v w : Volume} {i j k off : ℕ} {src : List UInt8} {din : Dinode}

theorem write (htree : v.Tree n) (hroot : rootino < n) (hi : (v.node i).type ≠ tDir)
    (hw : v.WrittenTo w n i off src) (hfit : off + src.length ≤ maxfile * bsize) (j : ℕ) :
    v.KeepsAt w j := by
  have hne : rootino ≠ i := fun heq => hi (heq ▸ htree.root)
  have hmax : maxfile * bsize < 2 ^ 32 := by decide
  refine ⟨fun nm hnm => ?_, ?_⟩
  · rw [(hw.sameDir hroot hne).called (htree.dirs rootino hroot htree.root)]
    exact hnm
  · by_cases hj : j = i
    · rw [hj, hw.size (by omega)]
      exact le_max_left _ _
    · rw [hw.node_of_ne hj]

theorem create (h : Creates v w n rootino name i din) (htree : v.Tree n) (hroot : rootino < n)
    (hdistinct : v.Distinct rootino) (hi : i < n) (hn : n ≤ 2 ^ 16)
    (hj : (v.node j).type ≠ 0) : v.KeepsAt w j := by
  obtain ⟨-, hold⟩ := h.called htree hroot hdistinct hi hn
  have hji : j ≠ i := fun heq => hj (heq ▸ h.free)
  have hmax : maxfile * bsize = 274432 := by decide
  refine ⟨fun nm hnm => ?_, ?_⟩
  · rw [hold nm fun heq => ?_]
    · exact hnm
    · rw [called_eq_find heq.symm, h.absent] at hnm
      cases hnm
  · have hkept : (v.setNode i din).node j = v.node j := setNode_node_of_ne hji
    by_cases hjr : j = rootino
    · -- the directory has grown by at most one entry
      have hsize := htree.sizes rootino hroot
      have hslot := freeEntry_le v rootino
      have hlen := Dirent.length_encode ⟨i % 2 ^ 16, name⟩
      unfold entries at hslot
      rw [← hkept, hjr, h.written.size (by omega)]
      exact le_max_left _ _
    · rw [h.written.node_of_ne hjr, hkept]

theorem remove (h : Removes v w n rootino k i) (htree : v.Tree n) (hroot : rootino < n)
    (hdistinct : v.Distinct rootino) (hji : j ≠ i) : v.KeepsAt w j := by
  obtain ⟨-, hold⟩ := h.called htree hroot hdistinct
  obtain ⟨hk, hinum, hlive⟩ := h.live
  have hmax : maxfile * bsize = 274432 := by decide
  refine ⟨fun nm hnm => ?_, ?_⟩
  · rw [hold nm fun heq => ?_]
    · exact hnm
    · -- the name that is gone is not one of `j`
      rw [heq, hdistinct.called_entry hk (by rw [hinum]; exact hlive), hinum] at hnm
      exact hji (Option.some.inj hnm).symm
  · obtain ⟨u, hwritten, -, rfl⟩ := h.removed
    rw [dropLink_node_of_ne hji]
    by_cases hjr : j = rootino
    · have hsize := htree.sizes rootino hroot
      have hlen := Dirent.length_encode ⟨0, Buffer.zero⟩
      unfold entries at hk
      rw [hjr, hwritten.size (by omega)]
      exact le_max_left _ _
    · rw [hwritten.node_of_ne hjr]

end Volume.KeepsAt

/-! ## Opening -/

theorem Mem.user_path (m : Mem) (a : BitVec 64) :
    UserBytes.path m.user a = m.copyinstr a 128 := by
  have huser : ({ user := m.user } : Mem).user = m.user := rfl
  rw [UserBytes.path, Mem.copyinstr_congr huser]

theorem Session.Leaves.same (h : x.Leaves y m) :
    y.mem.file = m.file ∧ y.mem.user = m.user ∧ y.mem.cur = m.cur := by
  obtain ⟨log, inode, hmem⟩ := h.mem
  rw [hmem]
  exact ⟨rfl, rfl, rfl⟩

/-- A file that the call does not work on stays open as it is. -/
theorem Session.Leaves.keepsOpen (h : x.Leaves y m) (hx : x.AtRest)
    (hfd : x.mem.ofile p fd = some f) (hfile : m.file f = x.mem.file f)
    (hvolume : x.volume.KeepsAt y.volume (x.inumOf f)) : x.KeepsOpen y f := by
  have hpos := hx.files.pos_of_fd hfd
  refine ⟨?_, h.inumOf hx (by omega) (congrArg File.ip hfile), hvolume⟩
  rw [h.same.1, hfile]

theorem Volume.KeepsAt.of_eq {v w : Volume} (h : w = v) (i : ℕ) : v.KeepsAt w i := by
  rw [h]
  exact ⟨fun nm hnm => hnm, le_rfl⟩

/-- One descriptor is opened, moved or closed. -/
theorem Session.Shows.set {o : Option (Fin nfile)} {e : Option Desc} (h : x.Shows s)
    (hrooted : y.volume.Rooted) (hfiles : s'.files = y.volume.files) (hdesc : s'.desc = s.desc)
    (hofile : y.mem.ofile = (x.mem.setOfile fd o).ofile) (hnew : Option.Rel y.Describes o e)
    (hkeeps : ∀ p fd' f, ¬ (p = x.mem.cur ∧ fd' = fd) → x.mem.ofile p fd' = some f →
      x.KeepsOpen y f) : y.Shows (s'.setDesc x.mem.cur fd e) := by
  have hold (p : Fin nproc) (fd' : Fin nofile) (hne : ¬ (p = x.mem.cur ∧ fd' = fd)) :
      Option.Rel y.Describes (x.mem.ofile p fd') (s.desc p fd') :=
    (h.desc p fd').imp fun f hf d hd => hd.keep (hkeeps p fd' f hne hf)
  refine ⟨hrooted, hfiles, fun p fd' => ?_⟩
  rw [hofile, Flat.setDesc]
  simp only [hdesc]
  by_cases hp : p = x.mem.cur
  · rw [hp, Mem.setOfile_cur, Function.update_self]
    by_cases hfd : fd' = fd
    · rw [hfd, Function.update_self, Function.update_self]
      exact hnew
    · rw [Function.update_of_ne hfd, Function.update_of_ne hfd]
      exact hold _ fd' fun heq => hfd heq.2
  · rw [Mem.setOfile_of_ne hp, Function.update_of_ne hp]
    exact hold p fd' fun heq => hp heq.1

/-- The descriptor that `open` takes. -/
theorem Session.Shows.room (h : x.Shows s) (hx : x.Orderly) (hdesc : s'.desc = s.desc) :
    (if s'.Full then none else s'.freeFd x.mem.cur) =
      if x.mem.freeFile = none then none else x.mem.freeFd := by
  have hfull : s'.Full ↔ x.mem.freeFile = none := by
    rw [← h.full hx.files hx.unshared, Flat.Full, Flat.Full, hdesc]
  have hfreeFd : s'.freeFd x.mem.cur = x.mem.freeFd := by
    rw [← h.freeFd, Flat.freeFd, Flat.freeFd, hdesc]
  rw [hfreeFd]
  exact if_congr hfull rfl rfl

/-- The file that `sys_open` finds or makes is there in the flat file system, too. -/
theorem Session.Finds.shows {result : OpenResult} {found : Option (Place × Flat)}
    (hfinds : x.Finds y result i) (hx : x.Orderly) (h : x.Shows s)
    (hopens : OpensAs x.volume s result found) :
    ∃ place s', found = some (place, s') ∧ s'.files = y.volume.files ∧ s'.desc = s.desc ∧
      y.volume.Rooted ∧ y.volume.Locates place i ∧
        ∀ j, (x.volume.node j).type ≠ 0 → x.volume.KeepsAt y.volume j := by
  cases hfinds with
  | existing hvolume =>
      cases hopens with
      | existing hplace =>
          refine ⟨_, s, rfl, ?_, rfl, ?_, ?_, fun j _ => .of_eq hvolume j⟩
          · rw [hvolume]
            exact h.files
          · rw [hvolume]
            exact h.rooted
          · rw [hvolume]
            exact hplace
  | created hfresh hparent hlt hcreates =>
      cases hopens with
      | create habsent =>
          have hroot := hx.toAtRest.root_lt
          have hdistinct := hx.kept.distinct rootino hroot hx.tree.root
          have hdin := hx.toNeat.fresh hx.toAtRest hcreates.free hfresh
          refine ⟨_, _, rfl, ?_, rfl, ?_, ⟨?_, ?_⟩, fun j hj => ?_⟩
          · rw [Flat.setFile, h.files]
            refine (Volume.files_create hcreates hx.kept hx.tree hroot hlt hx.small ?_).symm
            rw [hdin]
          · exact h.rooted.create hcreates hx.tree hroot hdistinct hlt hx.small
          · exact (hcreates.called hx.tree hroot hdistinct hlt hx.small).1
          · exact Ne.symm (hcreates.ne hx.tree.root)
          · exact .create hcreates hx.tree hroot hdistinct hlt hx.small hj

/-- `sys_open` does what `open` says. -/
theorem Opened.serves {omode : OpenMode} {result : OpenResult} {found : Option (Place × Flat)}
    (hopened : Opened x omode result r y) (hx : x.Orderly) (h : x.Shows s)
    (hopens : OpensAs x.volume s result found) : y.mem.user = x.mem.user ∧
      ∃ s', (match found with
        | none => (-1, s)
        | some (place, s) => s.take x.mem.cur place omode) = (r, s') ∧ y.Shows s' := by
  cases hopened with
  | failed hleaves hvolume =>
      cases hopens with
      | fail =>
          refine ⟨hleaves.same.2.1, s, rfl, h.keep ?_ ?_ hleaves.ofile rfl fun p fd f hf => ?_⟩
          · rw [hvolume]
            exact h.rooted
          · rw [hvolume]
            exact h.files
          · exact hleaves.keepsOpen hx.toAtRest hf rfl (.of_eq hvolume _)
  | starved hnone hleaves hfinds =>
      obtain ⟨place, s', hfound, hfiles, hdesc, hrooted, -, hkeeps⟩ := hfinds.shows hx h hopens
      subst hfound
      refine ⟨hleaves.same.2.1, s', ?_, h.keep hrooted hfiles hleaves.ofile hdesc
        fun p fd f hf => ?_⟩
      · have hroom : (if s'.Full then none else s'.freeFd x.mem.cur) = none := by
          rw [h.room hx hdesc]
          by_cases hfile : x.mem.freeFile = none
          · exact if_pos hfile
          · rw [if_neg hfile]
            exact hnone.resolve_left hfile
        simp only [Flat.take, hroom]
      · have hpos := hx.files.pos_of_fd hf
        exact hleaves.keepsOpen hx.toAtRest hf rfl (hkeeps _ (hx.typed f (by omega)))
  | done hfile hfd hleaves hinum hfinds =>
      rename_i i f fd ip
      obtain ⟨place, s', hfound, hfiles, hdesc, hrooted, hplace, hkeeps⟩ :=
        hfinds.shows hx h hopens
      subst hfound
      have hroom : (if s'.Full then none else s'.freeFd x.mem.cur) = some fd := by
        rw [h.room hx hdesc, hfile, if_neg (Option.some_ne_none f), hfd]
      have hopenFile : y.mem.file f = .opened ip omode := by
        rw [hleaves.same.1]
        exact Mem.setFile_same x.mem f fun _ => .opened ip omode
      have hopen : y.inumOf f = i := by
        rw [Session.inumOf, hopenFile]
        exact hinum
      have hnew : y.Describes f
          ⟨place, 0, !omode.wronly, omode.wronly || omode.rdwr⟩ := by
        refine ⟨hopen.symm ▸ hplace, ?_, ?_, ?_, ?_⟩
        · rw [hopenFile]
          rfl
        · rw [hopenFile]
          rfl
        · rw [hopenFile]
          rfl
        · rw [hopenFile]
          exact Nat.zero_le _
      refine ⟨hleaves.same.2.1, _, ?_, h.set hrooted hfiles hdesc hleaves.ofile (.some hnew)
        fun p fd' f' _ hf' => ?_⟩
      · simp only [Flat.take, hroom]
      · have hpos := hx.files.pos_of_fd hf'
        have hfree := Mem.freeFile_some hfile
        have hne : f' ≠ f := fun heq => by
          rw [heq] at hpos
          omega
        have hother : (x.mem.setFile f fun _ => .opened ip omode).file f' = x.mem.file f' :=
          Mem.setFile_of_ne hne _
        exact hleaves.keepsOpen hx.toAtRest hf' hother (hkeeps _ (hx.typed f' (by omega)))

/-! ## Removing and closing -/

/-- `sys_unlink` does what `unlink` says. -/
theorem Unlinked.serves {a₀ : BitVec 64} (hunlinked : Unlinked x (x.unlinks name a₀) r y)
    (hx : x.Orderly) (h : x.Shows s) (hspares : x.SparesOpen name (.unlink a₀)) :
    y.mem.user = x.mem.user ∧
      ∃ s', s.unlink x.mem.user a₀ = (r, s') ∧ y.Shows s' := by
  have hroot := hx.toAtRest.root_lt
  have hdistinct := hx.kept.distinct rootino hroot hx.tree.root
  -- what the path leads to
  have hfound : (x.unlinks name a₀ = none ∧ s.unlink x.mem.user a₀ = (-1, s)) ∨
      ∃ k, x.unlinks name a₀ = some (rootino, k) ∧
        (x.volume.node (x.volume.entry rootino k).inum).type ≠ tDir ∧
        s.unlink x.mem.user a₀ =
          (0, s.setFile (cut (x.volume.entry rootino k).name) none) := by
    unfold Session.unlinks Flat.unlink
    rw [x.mem.user_path]
    cases hcopy : x.mem.copyinstr a₀ 128 with
    | none => exact .inl ⟨rfl, rfl⟩
    | some path =>
        simp only [Option.bind_some]
        rcases h.rooted.unlinks hx.tree.root (Mem.copyinstr_nonzero hcopy) name with
          ⟨hnone, hno⟩ | ⟨k, hsome, hlast, hself, hcalled⟩
        · refine .inl ⟨hnone, ?_⟩
          cases hlast : lastName (pathNames path) with
          | none => rfl
          | some nm =>
              simp only
              rw [h.files, if_pos (hno nm hlast)]
        · refine .inr ⟨k, hsome, fun htype => hself ?_, ?_⟩
          · refine (h.rooted.selves _).mp ?_
            rw [hcalled, h.rooted.only _ htype]
          · have hfile : ¬ x.volume.files (cut (x.volume.entry rootino k).name) = none := by
              rw [h.rooted.files_none hself, hcalled]
              exact Option.some_ne_none _
            rw [hlast]
            simp only
            rw [h.files, if_neg (not_or.mpr ⟨hself, hfile⟩)]
  cases hentry : x.unlinks name a₀ with
  | none =>
      rw [hentry] at hunlinked hfound
      rcases hfound with ⟨-, hflat⟩ | ⟨k, hsome, -⟩
      · cases hunlinked with
        | failed hnone hleaves hvolume =>
            refine ⟨hleaves.same.2.1, s, hflat, h.keep ?_ ?_ hleaves.ofile rfl fun p fd f hf => ?_⟩
            · rw [hvolume]
              exact h.rooted
            · rw [hvolume]
              exact h.files
            · exact hleaves.keepsOpen hx.toAtRest hf rfl (.of_eq hvolume _)
      · cases hsome
  | some entry =>
      rcases hfound with ⟨hnone, -⟩ | ⟨k, hsome, htype, hflat⟩
      · rw [hentry] at hnone
        cases hnone
      obtain rfl := Option.some.inj (hentry.symm.trans hsome)
      rw [hentry] at hunlinked
      cases hunlinked with
      | failed hdir => exact absurd (hdir _ _ rfl) htype
      | removed hleaves hparent hremoves =>
          refine ⟨hleaves.same.2.1, _, hflat, h.keep ?_ ?_ hleaves.ofile rfl fun p fd f hf => ?_⟩
          · exact h.rooted.remove hremoves hx.tree hroot hdistinct
          · rw [Flat.setFile, h.files]
            exact (Volume.files_remove hremoves hx.kept hx.tree hroot).symm
          · have hpos := hx.files.pos_of_fd hf
            exact hleaves.keepsOpen hx.toAtRest hf rfl
              (.remove hremoves hx.tree hroot hdistinct (hspares _ _ _ rfl hentry f (by omega)))

/-- A descriptor that has been closed. -/
theorem Closed.serves (hclosed : Closed x y fd f) (hx : x.Orderly) (h : x.Shows s)
    (hfd : x.mem.ofile x.mem.cur fd = some f) :
    y.mem.user = x.mem.user ∧ y.Shows (s.setDesc x.mem.cur fd none) := by
  have huser : y.mem.user = x.mem.user := by
    obtain ⟨inode, file, rfl⟩ := hclosed.same
    rfl
  refine ⟨huser, h.set ?_ ?_ rfl hclosed.ofile .none fun p fd' f' hne hf' => ?_⟩
  · rw [hclosed.volume]
    exact h.rooted
  · rw [hclosed.volume]
    exact h.files
  · have hff : f' ≠ f := fun heq => hne (hx.unshared.slot_inj (heq ▸ hf') hfd)
    have hfile : y.mem.file f' = x.mem.file f' := by
      rw [hclosed.file]
      exact Mem.setFile_of_ne hff _
    have hpos := hx.files.pos_of_fd hf'
    exact ⟨hfile, (hclosed.keeps f' (by rw [hfile]; omega)).1, .of_eq hclosed.volume _⟩

/-! ## Reading and writing -/

/-- What is read at an offset is a part of the contents. -/
theorem Volume.ahead_eq {v : Volume} {off : ℕ} (h : off ≤ (v.node i).size.toNat) (n : ℕ) :
    v.ahead i off n = ((v.contents i).drop off).take n := by
  have hsplit : v.contents i =
      v.bytes i 0 off ++ v.bytes i off ((v.node i).size.toNat - off) := by
    have hadd := v.bytes_append i 0 off ((v.node i).size.toNat - off)
    rw [Nat.zero_add, Nat.add_sub_cancel' h] at hadd
    exact hadd
  have hdrop : (v.contents i).drop off = v.bytes i off ((v.node i).size.toNat - off) := by
    rw [hsplit]
    exact List.drop_left' (length_bytes v i 0 off)
  rw [Volume.ahead, if_neg (by omega), hdrop, Volume.bytes, Volume.bytes, ← List.map_take,
    List.take_range]

/-- The contents of a file that is open. -/
theorem Session.Shows.content {nm : List UInt8} (h : x.Shows s) (hd : x.Describes f d)
    (hplace : d.place = .file nm) : s.content nm = x.volume.contents (x.inumOf f) := by
  obtain ⟨hcalled, hne⟩ : x.volume.Locates (.file nm) (x.inumOf f) := hplace ▸ hd.place
  have hfile : x.volume.files nm = some (x.volume.contents (x.inumOf f)) :=
    Volume.files_some.mpr ⟨_, hcalled, fun htype => hne (h.rooted.only _ htype), rfl⟩
  rw [Flat.content, h.files, hfile, Option.getD_some]

theorem Session.Shows.reads (h : x.Shows s) (hd : x.Describes f d)
    (hreadable : (x.mem.file f).readable = true) (n : ℕ) : s.Reads d n (x.aheadOf f n) := by
  have hreads : ¬ d.readable = false := by
    rw [hd.readable, hreadable]
    decide
  rw [Flat.Reads, if_neg hreads]
  cases hplace : d.place with
  | dir => exact Volume.length_ahead_le _ _ _ n
  | file nm =>
      simp only
      rw [h.content hd hplace, hd.off]
      exact Volume.ahead_eq hd.within n

theorem Mem.setOfile_self {o : Option (Fin nfile)} (h : m.ofile m.cur fd = o) :
    m.setOfile fd o = m := by
  have hcur : Function.update m.ofile m.cur (Function.update (m.ofile m.cur) fd o) = m.ofile := by
    rw [← h, Function.update_eq_self, Function.update_eq_self]
  unfold Mem.setOfile
  simp only [hcur]

/-- The offset of a descriptor has changed, and the user memory. -/
theorem Session.Shows.seek {off : ℕ} (h : x.Shows s) (hx : x.Orderly)
    (hfd : x.mem.ofile x.mem.cur fd = some f) (hd : x.Describes f d) (hoff : off ≤ x.sizeOf f)
    (user : UserBytes) :
    (x.seek f off user).Shows (s.setDesc x.mem.cur fd (some { d with off := off })) := by
  obtain ⟨-, hvolume⟩ := hx.intact.seek f off user
  have hother {f' : Fin nfile} (hne : f' ≠ f) :
      (x.seek f off user).mem.file f' = x.mem.file f' := Function.update_of_ne hne _ _
  have hfile := x.seek_file f off user
  have hinum : (x.seek f off user).inumOf f = x.inumOf f := by
    rw [Session.inumOf, hfile]
    rfl
  refine h.set ?_ ?_ rfl (o := some f) ?_ (.some ⟨?_, ?_, ?_, ?_, ?_⟩) fun p fd' f' hne hf' => ?_
  · rw [hvolume]
    exact h.rooted
  · rw [hvolume]
    exact h.files
  · rw [Mem.setOfile_self hfd]
    rfl
  · rw [hvolume, hinum]
    exact hd.place
  · rw [hfile]
  · rw [hfile]
    exact hd.readable
  · rw [hfile]
    exact hd.writable
  · rw [hfile, Session.sizeOf, hvolume, hinum]
    exact hoff
  · have hff : f' ≠ f := fun heq => hne (hx.unshared.slot_inj (heq ▸ hf') hfd)
    refine ⟨hother hff, ?_, .of_eq hvolume _⟩
    rw [Session.inumOf, hother hff]
    rfl

/-- `sys_read` does what `read` says. -/
theorem DidRead.serves {a₀ a₁ a₂ : BitVec 64} (hread : DidRead x f a₁ (argint a₂).toNat r y)
    (hx : x.Orderly) (h : x.Shows s) (hfd : x.mem.ofile x.mem.cur fd = some f)
    (hd : x.Describes f d) (htarget : s.target x.mem.cur (.read a₀ a₁ a₂) = some (fd, d)) :
    ∃ s', s.Does x.mem.cur x.mem.user (.read a₀ a₁ a₂) r y.mem.user s' ∧ y.Shows s' := by
  have hend : d.off + (x.aheadOf f (argint a₂).toNat).length ≤ x.sizeOf f := by
    rw [hd.off]
    exact Volume.off_ahead_le hd.within _
  cases hread with
  | refused hreadable =>
      have hshows := h.seek hx hfd hd hd.within x.mem.user
      rw [Session.seek_self rfl, ← hd.off] at hshows
      have hreads : s.Reads d (argint a₂).toNat [] := by
        rw [Flat.Reads, if_pos (hd.readable.trans hreadable)]
      exact ⟨_, .read htarget hreads rfl, hshows⟩
  | done hreadable hput =>
      refine ⟨_, .read htarget (h.reads hd hreadable _) hput, ?_⟩
      rw [← hd.off]
      exact h.seek hx hfd hd hend _
  | faulted hreadable hput hoff =>
      rw [← hd.off] at hoff
      exact ⟨_, .faulted htarget (h.reads hd hreadable _) hput hoff,
        h.seek hx hfd hd (hoff.2.trans hend) _⟩

/-- `sys_write` does what `write` says. -/
theorem DidWrite.serves {src : List UInt8} (hwrite : DidWrite x f src n 0 r y) (hx : x.Orderly)
    (h : x.Shows s) (hfd : x.mem.ofile x.mem.cur fd = some f) (hd : x.Describes f d) :
    y.mem.user = x.mem.user ∧
      ∃ s', s.write x.mem.cur fd d n src = (r, s') ∧ y.Shows s' := by
  cases hwrite with
  | refused hno hr hleaves hvolume =>
      have hwritable : d.writable = false :=
        hd.writable.trans (hno.resolve_right (not_lt.mpr hd.within))
      refine ⟨hleaves.same.2.1, s, ?_, h.keep ?_ ?_ hleaves.ofile rfl fun p fd f hf => ?_⟩
      · rw [Flat.write, hwritable, hr]
        cases d.place with
        | dir => rfl
        | file nm => rfl
      · rw [hvolume]
        exact h.rooted
      · rw [hvolume]
        exact h.files
      · exact hleaves.keepsOpen hx.toAtRest hf rfl (.of_eq hvolume _)
  | done hwritable hin hfit hr hleaves hwritten =>
      have hpos := hx.files.pos_of_fd hfd
      have hroot := hx.toAtRest.root_lt
      have hlt := (hx.files.locked hx.intact (f := f) (by omega)).lt hx.intact.icache
      have hfile : (x.volume.node (x.inumOf f)).type ≠ tDir :=
        hx.files.writable f (by omega) hwritable
      have hmax : maxfile * bsize < 2 ^ 32 := by decide
      have hlong : (x.mem.file f).off + src.length ≤ maxfile * bsize := by
        by_cases hempty : src = []
        · rw [hempty]
          exact hin.trans (hx.tree.sizes _ hlt)
        · exact hfit hempty
      cases hplace : d.place with
      | dir =>
          have hdir : x.volume.Locates .dir (x.inumOf f) := hplace ▸ hd.place
          exact absurd ((h.rooted.dir_iff hx.tree.root hdir).mpr rfl) hfile
      | file nm =>
          obtain ⟨hcalled, -⟩ : x.volume.Locates (.file nm) (x.inumOf f) := hplace ▸ hd.place
          have hkeeps := Volume.KeepsAt.write hx.tree hroot hfile hwritten hlong
          have hsame : y.mem.file f = { x.mem.file f with
              off := (x.mem.file f).off + src.length } := by
            rw [hleaves.same.1]
            exact Mem.setFile_same x.mem f fun a =>
              { a with off := (x.mem.file f).off + src.length }
          have hip : ((x.mem.setFile f fun a =>
              { a with off := (x.mem.file f).off + src.length }).file f).ip =
                (x.mem.file f).ip := by
            rw [Mem.setFile_same]
          have hinum := hleaves.inumOf hx.toAtRest (by omega) hip
          have hnew : y.Describes f { d with off := d.off + src.length } := by
            refine ⟨?_, ?_, ?_, ?_, ?_⟩
            · rw [hinum, hplace]
              obtain ⟨hcalled, hne⟩ : x.volume.Locates (.file nm) (x.inumOf f) :=
                hplace ▸ hd.place
              exact ⟨(hkeeps _).called nm hcalled, hne⟩
            · rw [hsame, hd.off]
            · rw [hsame]
              exact hd.readable
            · rw [hsame]
              exact hd.writable
            · rw [hsame, Session.sizeOf, hinum, hwritten.size (by omega)]
              exact le_max_right _ _
          have hfiles : (s.setFile nm (some (splice d.off src (s.content nm)))).files =
              y.volume.files := by
            rw [Flat.setFile, h.files, h.content hd hplace, hd.off]
            exact (Volume.files_write hx.kept hx.tree hroot hfile hcalled hwritten hin hlong).symm
          have hofile : y.mem.ofile = (x.mem.setOfile fd (some f)).ofile := by
            rw [Mem.setOfile_self hfd]
            exact hleaves.ofile
          refine ⟨hleaves.same.2.1, _, ?_, h.set (h.rooted.write hx.tree hroot hfile hwritten)
            hfiles rfl hofile (.some hnew) fun p fd' f' hne hf' => ?_⟩
          · rw [Flat.write, hplace, hd.writable, hwritable, hr, Nat.zero_add]
          · have hff : f' ≠ f := fun heq => hne (hx.unshared.slot_inj (heq ▸ hf') hfd)
            exact hleaves.keepsOpen hx.toAtRest hf' (Mem.setFile_of_ne hff _) (hkeeps _)

/-! ## Every call -/

theorem Session.Shows.opens (h : x.Shows s) (hroot : (x.volume.node rootino).type = tDir)
    (a₀ a₁ : BitVec 64) : OpensAs x.volume s (x.opens name a₀ a₁)
      ((UserBytes.path x.mem.user a₀).bind fun path => s.finds path ⟨a₁.setWidth 32⟩) := by
  rw [x.mem.user_path, Session.opens]
  cases hcopy : x.mem.copyinstr a₀ 128 with
  | none => exact .fail
  | some path => exact h.rooted.opens hroot h.files (Mem.copyinstr_nonzero hcopy)

/-- What a call returns that works on no file depends on user memory only. -/
theorem Syscall.idles_congr {m' : Mem} (h : m.user = m'.user) (call : Syscall) :
    call.idles m = call.idles m' := by
  cases call with
  | write a₀ a₁ a₂ =>
      unfold Syscall.idles
      simp only [Mem.copyin_congr h]
  | read a₀ a₁ a₂ => rfl
  | «open» a₀ a₁ => rfl
  | unlink a₀ => rfl
  | close a₀ => rfl

theorem Syscall.fdFile_of_read {a₀ a₁ a₂ : BitVec 64}
    (h : (Syscall.read a₀ a₁ a₂).target m = some (fd, f)) :
    m.fdFile (argint a₀) = some (fd, f) := by
  unfold Syscall.target at h
  simp only at h
  split at h
  · cases h
  · exact h

/-- Every call does what the flat file system says. -/
theorem Outcome.serves (houtcome : Outcome x name call r y) (hx : x.Orderly) (h : x.Shows s)
    (hspares : x.SparesOpen name call) :
    ∃ s', s.Does x.mem.cur x.mem.user call r y.mem.user s' ∧ y.Shows s' := by
  have huserMem : x.mem.user = ({ user := x.mem.user } : Mem).user := rfl
  cases houtcome with
  | opened hopened =>
      rename_i a₀ a₁
      obtain ⟨huser, s', hdo, hshows⟩ := hopened.serves hx h (h.opens hx.tree.root a₀ a₁)
      rw [huser]
      exact ⟨s', .open hdo, hshows⟩
  | unlinked hunlinked =>
      obtain ⟨huser, s', hdo, hshows⟩ := hunlinked.serves hx h hspares
      rw [huser]
      exact ⟨s', .unlink hdo, hshows⟩
  | idle hwalks htarget hr =>
      rw [hr, Syscall.idles_congr huserMem]
      exact ⟨s, .idle hwalks ((h.target call).eq_none_iff.mpr htarget), h⟩
  | closed htarget horphan hclosed =>
      rename_i a₀ fd f
      have hfd : x.mem.ofile x.mem.cur fd = some f := Mem.fdFile_some htarget
      obtain ⟨⟨fd', d⟩, hflat, rfl, hd⟩ := (h.target (.close a₀)).exists_of_eq_some htarget
      obtain ⟨huser, hshows⟩ := hclosed.serves hx h hfd
      rw [huser]
      exact ⟨_, .close hflat, hshows⟩
  | read htarget hread =>
      rename_i a₀ a₁ a₂ fd f
      obtain ⟨⟨fd', d⟩, hflat, rfl, hd⟩ :=
        (h.target (.read a₀ a₁ a₂)).exists_of_eq_some htarget
      exact hread.serves hx h (Mem.fdFile_some (Syscall.fdFile_of_read htarget)) hd hflat
  | written htarget hwrite =>
      rename_i a₀ a₁ a₂ fd f
      obtain ⟨⟨fd', d⟩, hflat, rfl, hd⟩ :=
        (h.target (.write a₀ a₁ a₂)).exists_of_eq_some htarget
      rw [Mem.taken, Mem.inChunks_congr huserMem] at hwrite
      obtain ⟨huser, s', hdo, hshows⟩ :=
        hwrite.serves hx h (Mem.fdFile_some (Syscall.fdFile_of_write htarget)) hd
      rw [huser]
      exact ⟨s', .write hflat hdo, hshows⟩

end

end RiscvOs
