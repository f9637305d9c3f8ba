import RiscvOs.Fs.Changes
import RiscvOs.Fs.Calls
import Mathlib.Algebra.BigOperators.Group.Finset.Basic
import Mathlib.Algebra.BigOperators.Group.Finset.Piecewise
import Mathlib.Algebra.Order.BigOperators.Group.Finset
import Mathlib.Data.Fintype.Basic

/-!
# The file table

A file is open on a slot of the inode cache, and is held by as many descriptors as its
reference count says (`Session.Files`).  Opening a file turns the reference the code has taken
to a slot into one of the file table's; closing the last descriptor turns it back.
-/

namespace RiscvOs

open Effect Bytes Kern OnSession

/-- One element changes; the number of elements with a property changes by at most one. -/
theorem card_filter_update {ι α : Type} [Fintype ι] [DecidableEq ι] (u : ι → α) (i : ι) (b : α)
    (P : α → Prop) [DecidablePred P] :
    (Finset.univ.filter fun j => P (Function.update u i b j)).card + (if P (u i) then 1 else 0) =
      (Finset.univ.filter fun j => P (u j)).card + (if P b then 1 else 0) := by
  have hsplit (w : ι → α) : (Finset.univ.filter fun j => P (w j)).card =
      (if P (w i) then 1 else 0) + ∑ j ∈ Finset.univ.erase i, if P (w j) then 1 else 0 := by
    rw [Finset.card_filter]
    exact (Finset.add_sum_erase _ (fun j => if P (w j) then 1 else 0) (Finset.mem_univ i)).symm
  have hrest : ∑ j ∈ Finset.univ.erase i, (if P (Function.update u i b j) then 1 else 0) =
      ∑ j ∈ Finset.univ.erase i, if P (u j) then 1 else 0 := by
    refine Finset.sum_congr rfl fun j hj => ?_
    rw [Function.update_of_ne (Finset.ne_of_mem_erase hj)]
  rw [hsplit (Function.update u i b), hsplit u, hrest, Function.update_self]
  omega

/-! ## Files and descriptors -/

/-- The file is open on the slot. -/
def File.On (a : File) (ip : Fin ninode) : Prop := 0 < a.ref ∧ a.type = .inode ∧ a.ip = ip

instance (a : File) (ip : Fin ninode) : Decidable (a.On ip) := inferInstanceAs (Decidable (_ ∧ _))

/-- The number of descriptors for the file `f`. -/
def Mem.fdsOn (m : Mem) (f : Fin nfile) : ℕ :=
  ∑ p, (Finset.univ.filter fun fd => m.ofile p fd = some f).card

section
variable {m : Mem} {f f' : Fin nfile} {g : File → File} {fd : Fin nofile} {o : Option (Fin nfile)}
  {ip : Fin ninode}

@[simp] theorem Mem.setFile_same (m : Mem) (f : Fin nfile) (g : File → File) :
    (m.setFile f g).file f = g (m.file f) := Function.update_self ..

theorem Mem.setFile_of_ne (h : f' ≠ f) (g : File → File) :
    (m.setFile f g).file f' = m.file f' := Function.update_of_ne h ..

theorem Mem.setFile_setFile (m : Mem) (f : Fin nfile) (g g' : File → File) :
    (m.setFile f g).setFile f g' = m.setFile f fun a => g' (g a) := by
  unfold Mem.setFile
  simp only [Function.update_self, Function.update_idem]

theorem Mem.setFile_congr {g' : File → File} (h : g (m.file f) = g' (m.file f)) :
    m.setFile f g = m.setFile f g' := by
  unfold Mem.setFile
  rw [h]

/-- Assigning what is there. -/
theorem Mem.setFile_self (h : g (m.file f) = m.file f) : m.setFile f g = m := by
  unfold Mem.setFile
  rw [h, Function.update_eq_self]

theorem Mem.filesOn_setFile (m : Mem) (f : Fin nfile) (g : File → File) (ip : Fin ninode) :
    (m.setFile f g).filesOn ip + (if (m.file f).On ip then 1 else 0) =
      m.filesOn ip + (if (g (m.file f)).On ip then 1 else 0) :=
  card_filter_update m.file f (g (m.file f)) (·.On ip)

theorem Mem.filesOn_pos (h : (m.file f).On ip) : 0 < m.filesOn ip :=
  Finset.card_pos.mpr ⟨f, Finset.mem_filter.mpr ⟨Finset.mem_univ f, h⟩⟩

theorem Mem.setOfile_cur (m : Mem) (fd : Fin nofile) (o : Option (Fin nfile)) :
    (m.setOfile fd o).ofile m.cur = Function.update (m.ofile m.cur) fd o :=
  Function.update_self ..

theorem Mem.setOfile_of_ne {p : Fin nproc} (h : p ≠ m.cur) (fd : Fin nofile)
    (o : Option (Fin nfile)) : (m.setOfile fd o).ofile p = m.ofile p :=
  Function.update_of_ne h ..

theorem Mem.fdsOn_setOfile (m : Mem) (fd : Fin nofile) (o : Option (Fin nfile)) (f : Fin nfile) :
    (m.setOfile fd o).fdsOn f + (if m.ofile m.cur fd = some f then 1 else 0) =
      m.fdsOn f + (if o = some f then 1 else 0) := by
  have hcur := card_filter_update (m.ofile m.cur) fd o (· = some f)
  have hsplit (m' : Mem) : m'.fdsOn f =
      (Finset.univ.filter fun fd => m'.ofile m.cur fd = some f).card +
        ∑ p ∈ Finset.univ.erase m.cur, (Finset.univ.filter fun fd => m'.ofile p fd = some f).card :=
    (Finset.add_sum_erase _ (fun p => (Finset.univ.filter fun fd => m'.ofile p fd = some f).card)
      (Finset.mem_univ m.cur)).symm
  have hrest : ∑ p ∈ Finset.univ.erase m.cur,
        (Finset.univ.filter fun fd' => (m.setOfile fd o).ofile p fd' = some f).card =
      ∑ p ∈ Finset.univ.erase m.cur, (Finset.univ.filter fun fd => m.ofile p fd = some f).card := by
    refine Finset.sum_congr rfl fun p hp => ?_
    rw [Mem.setOfile_of_ne (Finset.ne_of_mem_erase hp)]
  rw [hsplit (m.setOfile fd o), hsplit m, hrest, Mem.setOfile_cur]
  omega

theorem Mem.fdsOn_pos {p : Fin nproc} (h : m.ofile p fd = some f) : 0 < m.fdsOn f := by
  have hone : 0 < (Finset.univ.filter fun fd => m.ofile p fd = some f).card :=
    Finset.card_pos.mpr ⟨fd, Finset.mem_filter.mpr ⟨Finset.mem_univ fd, h⟩⟩
  exact lt_of_lt_of_le hone
    (Finset.single_le_sum (f := fun p => (Finset.univ.filter fun fd => m.ofile p fd = some f).card)
      (fun _ _ => Nat.zero_le _) (Finset.mem_univ p))

theorem Mem.fdsOn_setFile (m : Mem) (f : Fin nfile) (g : File → File) (f' : Fin nfile) :
    (m.setFile f g).fdsOn f' = m.fdsOn f' := rfl

/-- The file `filealloc` takes is free. -/
theorem Mem.freeFile_some (h : m.freeFile = some f) : (m.file f).ref = 0 := by
  simpa using List.find?_some h

theorem Mem.freeFd_some (h : m.freeFd = some fd) : 3 ≤ fd.val ∧ m.ofile m.cur fd = none := by
  simpa using List.find?_some h

theorem Mem.fdFile_some {a : ℤ} (h : m.fdFile a = some (fd, f)) : m.ofile m.cur fd = some f := by
  unfold Mem.fdFile at h
  split at h
  · rename_i hfd
    cases hof : m.ofile m.cur ⟨a.toNat, by omega⟩ with
    | none =>
        rw [hof] at h
        cases h
    | some f' =>
        rw [hof] at h
        obtain ⟨rfl, rfl⟩ := Prod.mk.inj (Option.some.inj h)
        exact hof
  · cases h

end

/-! ## A file table in order -/

/-- The open files are those with a descriptor, each on an inode that has been read in. -/
structure Session.Files (x : Session) : Prop where
  counted : ∀ f, (x.mem.file f).ref = x.mem.fdsOn f
  type : ∀ f, (x.mem.file f).type = if (x.mem.file f).ref = 0 then .none else .inode
  off_lt : ∀ f, (x.mem.file f).off < 2 ^ 32
  /-- The first three descriptors are the console's. -/
  low : ∀ p fd f, x.mem.ofile p fd = some f → 3 ≤ fd.val
  valid : ∀ f, 0 < (x.mem.file f).ref → (x.mem.inode (x.mem.file f).ip).valid = true
  writable : ∀ f, 0 < (x.mem.file f).ref → (x.mem.file f).writable = true →
    (x.volume.node (x.mem.inode (x.mem.file f).ip).inum).type ≠ tDir

section
variable {x y : Session} {pins : Pins} {f : Fin nfile} {ip : Fin ninode} {i : ℕ}

namespace Session.Files

/-- An open file is on its slot. -/
theorem on (h : x.Files) (hf : 0 < (x.mem.file f).ref) :
    (x.mem.file f).On (x.mem.file f).ip := by
  refine ⟨hf, ?_, rfl⟩
  rw [h.type f, if_neg (by omega)]

/-- A file that no descriptor holds is free. -/
theorem free (h : x.Files) (hf : (x.mem.file f).ref = 0) : (x.mem.file f).type = .none := by
  rw [h.type f, if_pos hf]

theorem pos_of_fd (h : x.Files) {p : Fin nproc} {fd : Fin nofile}
    (hfd : x.mem.ofile p fd = some f) : 1 ≤ (x.mem.file f).ref := by
  have hpos := Mem.fdsOn_pos hfd
  rw [h.counted f]
  omega

/-- An open file's inode is in the cache and has been read in. -/
theorem locked (h : x.Files) (hx : x.Intact ∅ pins) (hf : 0 < (x.mem.file f).ref) :
    x.Locked (x.mem.file f).ip (x.mem.inode (x.mem.file f).ip).inum := by
  have hpos := Mem.filesOn_pos (h.on hf)
  exact ⟨⟨hx.ref_pos (by omega), h.valid f hf⟩, rfl⟩

/-- Code that leaves the file table alone. -/
theorem frame (h : x.Files) (hframe : Frame pins x y)
    (hdirs : ∀ j, (y.volume.node j).type = tDir → (x.volume.node j).type = tDir) : y.Files := by
  have hfile := hframe.file
  have hkeeps (f : Fin nfile) (hf : 0 < (x.mem.file f).ref) :=
    hframe.keeps (x.mem.file f).ip (Nat.add_pos_left (Mem.filesOn_pos (h.on hf)) _)
  have hofile : y.mem.ofile = x.mem.ofile := by
    obtain ⟨log, inode, hmem⟩ := hframe.mem
    rw [hmem]
  have hfds : y.mem.fdsOn = x.mem.fdsOn := by
    funext f
    unfold Mem.fdsOn
    rw [hofile]
  refine ⟨fun f => ?_, fun f => ?_, fun f => ?_, fun p fd f hfd => ?_, fun f hf => ?_,
    fun f hf hwritable => ?_⟩
  · rw [hfile, hfds]
    exact h.counted f
  · rw [hfile]
    exact h.type f
  · rw [hfile]
    exact h.off_lt f
  · rw [hofile] at hfd
    exact h.low p fd f hfd
  · rw [hfile] at hf ⊢
    exact (hkeeps f hf).2 (h.valid f hf)
  · rw [hfile] at hf hwritable ⊢
    rw [(hkeeps f hf).1]
    exact fun hdir => h.writable f hf hwritable (hdirs _ hdir)

theorem looks (h : x.Files) (hlooks : Looks pins x y) : y.Files :=
  h.frame hlooks.frame fun j hj => by rwa [hlooks.volume] at hj

end Session.Files

/-! ## Opening and closing -/

/-- The file that `sys_open` makes. -/
def File.opened (ip : Fin ninode) (omode : OpenMode) : File where
  type := .inode
  ref := 1
  readable := !omode.wronly
  writable := omode.wronly || omode.rdwr
  ip := ip
  off := 0

/-- The file `f` is opened on `ip` as descriptor `fd`. -/
def Session.opened (x : Session) (f : Fin nfile) (fd : Fin nofile) (ip : Fin ninode)
    (omode : OpenMode) : Session :=
  x.withMem ((x.mem.setFile f fun _ => .opened ip omode).setOfile fd (some f))

/-- A change of the file table, the descriptors and what a process has. -/
theorem Session.Intact.setFiles {pins' : Pins} (h : x.Intact ∅ pins) {m : Mem}
    (hm : ∃ file ofile cur user,
      m = { x.mem with file := file, ofile := ofile, cur := cur, user := user })
    (hcount : ∀ ip, m.filesOn ip + pins' ip = x.mem.filesOn ip + pins ip) :
    (x.withMem m).Intact ∅ pins' ∧ (x.withMem m).volume = x.volume := by
  obtain ⟨file, ofile, cur, user, rfl⟩ := hm
  have hvolume : (x.withMem { x.mem with
      file := file, ofile := ofile, cur := cur, user := user }).volume = x.volume := rfl
  refine ⟨?_, hvolume⟩
  exact
    { wf := h.wf
      icache := ⟨h.icache.unique, h.icache.dev, h.icache.inum_lt, h.icache.nonneg⟩
      owned := h.owned
      synced := h.synced
      counted := fun ip => by
        have hcounted := h.counted ip
        rw [← hcount ip] at hcounted
        exact hcounted }

/-- Opening a file gives the reference to its slot to the file table. -/
theorem Session.Intact.opened (h : x.Intact ∅ (pin ip))
    (hf : (x.mem.file f).ref = 0) (fd : Fin nofile) (omode : OpenMode) :
    (x.opened f fd ip omode).Intact ∅ 0 ∧ (x.opened f fd ip omode).volume = x.volume := by
  refine h.setFiles ⟨_, _, _, _, rfl⟩ fun jp => ?_
  have hcount := x.mem.filesOn_setFile f (fun _ => .opened ip omode) jp
  have hold : ¬ (x.mem.file f).On jp := fun hon => absurd hon.1 (by omega)
  rw [if_neg hold] at hcount
  change (x.mem.setFile f fun _ => .opened ip omode).filesOn jp + 0 = _
  rw [hcount]
  by_cases hjp : jp = ip
  · subst hjp
    rw [if_pos ⟨Int.one_pos, rfl, rfl⟩, pin_same]
  · have hnew : ¬ (File.opened ip omode).On jp := fun hon => hjp hon.2.2.symm
    rw [if_neg hnew, pin_of_ne hjp]

theorem Session.Files.opened (h : x.Files) (hip : x.Locked ip i) (hf : (x.mem.file f).ref = 0)
    {fd : Fin nofile} (hfd : 3 ≤ fd.val ∧ x.mem.ofile x.mem.cur fd = none) {omode : OpenMode}
    (hdir : (omode.wronly || omode.rdwr) = true → (x.volume.node i).type ≠ tDir) :
    (x.opened f fd ip omode).Files := by
  have hfile (f' : Fin nfile) : (x.opened f fd ip omode).mem.file f' =
      if f' = f then .opened ip omode else x.mem.file f' := by
    by_cases hne : f' = f
    · subst hne
      rw [if_pos rfl]
      exact Mem.setFile_same x.mem f' fun _ => .opened ip omode
    · rw [if_neg hne]
      exact Mem.setFile_of_ne hne fun _ => .opened ip omode
  have hfds (f' : Fin nfile) : (x.opened f fd ip omode).mem.fdsOn f' =
      x.mem.fdsOn f' + if f' = f then 1 else 0 := by
    have hcard := (x.mem.setFile f fun _ => .opened ip omode).fdsOn_setOfile fd (some f) f'
    rw [Mem.fdsOn_setFile, if_neg (fun hold => by
      have hnone : some f' = none := hold.symm.trans hfd.2
      exact nomatch hnone)] at hcard
    simp only [Option.some.injEq, eq_comm (a := f), Nat.add_zero] at hcard
    exact hcard
  refine ⟨fun f' => ?_, fun f' => ?_, fun f' => ?_, fun p fd' f' hfd' => ?_, fun f' => ?_,
    fun f' => ?_⟩
  · rw [hfile, hfds]
    by_cases hne : f' = f
    · subst hne
      have hcount := h.counted f'
      have hzero : x.mem.fdsOn f' = 0 := by omega
      rw [if_pos rfl, if_pos rfl, hzero]
      rfl
    · rw [if_neg hne, if_neg hne, Nat.add_zero]
      exact h.counted f'
  · rw [hfile]
    by_cases hne : f' = f
    · rw [if_pos hne]
      rfl
    · rw [if_neg hne]
      exact h.type f'
  · rw [hfile]
    by_cases hne : f' = f
    · rw [if_pos hne]
      exact Nat.two_pow_pos 32
    · rw [if_neg hne]
      exact h.off_lt f'
  · change (x.mem.setOfile fd (some f)).ofile p fd' = some f' at hfd'
    by_cases hp : p = x.mem.cur
    · rw [hp, Mem.setOfile_cur] at hfd'
      by_cases hsame : fd' = fd
      · rw [hsame]
        exact hfd.1
      · rw [Function.update_of_ne hsame] at hfd'
        exact h.low _ fd' f' hfd'
    · rw [Mem.setOfile_of_ne hp] at hfd'
      exact h.low p fd' f' hfd'
  · rw [hfile]
    by_cases hne : f' = f
    · rw [if_pos hne]
      exact fun _ => hip.loaded.2
    · rw [if_neg hne]
      exact h.valid f'
  · rw [hfile]
    by_cases hne : f' = f
    · rw [if_pos hne]
      intro _ hwritable
      have hinum : ((x.opened f fd ip omode).mem.inode (File.opened ip omode).ip).inum = i :=
        hip.inum
      rw [hinum]
      exact hdir hwritable
    · rw [if_neg hne]
      exact h.writable f'

end

end RiscvOs
