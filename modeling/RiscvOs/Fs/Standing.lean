import RiscvOs.Fs.Power

/-!
# What holds between two calls

In every state of every run, whatever has been cut short before:

* `Machine.Drained`: nothing is left of the last call in the buffer cache or in the log;
* `Machine.Tabled`: the counts of the inode cache, of the file table and of the descriptor
  tables agree, and a cached inode is what the disk has;
* `no_sharing`: a file belongs to one descriptor of one process, since neither `fork` nor any
  call copies a descriptor;
* `on_disk`: the volume on the disk is in order.

The first, second and fourth are read off the invariant.  The third needs an invariant of its
own, for which `Outcome.descends` says what a call does to the descriptors.
-/

namespace RiscvOs

open Effect Bytes Kern Bio

/-- No buffer is in use or changed, and the log is empty in memory and on the disk. -/
structure Bio.Machine.Drained (sb : Superblock) (k : Machine) : Prop where
  free : ∀ i, (k.bcache.buf i).refcnt = 0
  clean : ∀ i, (k.bcache.buf i).valid = true → (k.bcache.buf i).disk = false ∧
    (k.bcache.buf i).data = k.disk (k.bcache.buf i).blockno
  log : k.mem.log.lock = false ∧ k.mem.log.committing = false ∧ k.mem.log.outstanding = 0
  empty : k.mem.log.lh.n = 0
  header : ((sb.log rootdev).onDiskHeader k.disk).n = 0

section
variable {sb : Superblock} {x y : Session} {k : Machine} {call : Syscall} {r : ℤ}
  {name : Buffer dirsiz}

/-! ## Read off the invariant -/

theorem Between.is_drained (h : Between sb x k) : k.Drained sb := by
  obtain ⟨order, hrefines⟩ := h.refines
  have hrefs (b : ℕ) : x.refs b = 0 := congrFun h.refs b
  have hentries : x.mem.log.lh.entries = ∅ := LogHeader.entries_of_empty h.empty
  refine ⟨fun i => ?_, fun i hvalid => ?_, ?_, ?_, ?_⟩
  · cases hvalid : (k.bcache.buf i).valid with
    | false => exact (hrefines.idle i hvalid).1
    | true =>
        rw [(hrefines.holds i hvalid).1]
        exact_mod_cast hrefs _
  · obtain ⟨-, hdirty, hdata⟩ := hrefines.holds i hvalid
    have hclean : x.dirty (k.bcache.buf i).blockno = false := by
      rw [Bool.eq_false_iff]
      intro hmarked
      have hmem := (h.inv.dirty _).mp hmarked
      rw [hentries] at hmem
      exact absurd hmem (Finset.notMem_empty _)
    rw [hdirty, hdata, hrefines.disk]
    exact ⟨hclean, h.toResting.store_eq _⟩
  · rw [hrefines.mem]
    exact ⟨h.unlocked, h.idle, h.outstanding⟩
  · rw [hrefines.mem]
    exact h.empty
  · rw [hrefines.disk]
    exact h.header

/-- The descriptors of `y` are those of `x`, but that the running process has one more, for a
file that was free, or one less. -/
def Session.Descends (x y : Session) : Prop :=
  y.mem.ofile = x.mem.ofile ∨
    (∃ fd f, (x.mem.file f).ref = 0 ∧ x.mem.ofile x.mem.cur fd = none ∧
      y.mem.ofile = (x.mem.setOfile fd (some f)).ofile) ∨
    ∃ fd f, x.mem.ofile x.mem.cur fd = some f ∧ y.mem.ofile = (x.mem.setOfile fd none).ofile

theorem Session.Leaves.ofile {m : Mem} (h : x.Leaves y m) : y.mem.ofile = m.ofile := by
  obtain ⟨log, inode, hmem⟩ := h.mem
  rw [hmem]

theorem Opened.descends {omode : OpenMode} {result : OpenResult} (h : Opened x omode result r y) :
    x.Descends y := by
  cases h with
  | failed hleaves hvolume => exact .inl hleaves.ofile
  | starved hnone hleaves hfinds => exact .inl hleaves.ofile
  | done hf hfd hleaves hinum hfinds =>
      exact .inr (.inl ⟨_, _, Mem.freeFile_some hf, (Mem.freeFd_some hfd).2, hleaves.ofile⟩)

theorem Unlinked.descends {found : Option (ℕ × ℕ)} (h : Unlinked x found r y) :
    x.Descends y := by
  cases h with
  | failed hnone hleaves hvolume => exact .inl hleaves.ofile
  | removed hleaves hparent hremoves => exact .inl hleaves.ofile

/-- What a call does to the descriptors. -/
theorem Outcome.descends (h : Outcome x name call r y) : x.Descends y := by
  cases h with
  | opened h => exact h.descends
  | unlinked h => exact h.descends
  | idle hwalks htarget hr => exact .inl rfl
  | closed htarget horphan h => exact .inr (.inr ⟨_, _, Mem.fdFile_some htarget, h.ofile⟩)
  | read htarget h =>
      cases h with
      | refused hreadable => exact .inl rfl
      | done hreadable hput => exact .inl rfl
      | faulted hreadable hput hoff => exact .inl rfl
  | written htarget h =>
      cases h with
      | refused hno hr hleaves hvolume => exact .inl hleaves.ofile
      | done hwritable hin hfit hr hleaves hwritten => exact .inl (hleaves.ofile.trans rfl)

/-- A file belongs to at most one descriptor. -/
def Mem.Unshared (m : Mem) : Prop := ∀ f, m.fdsOn f ≤ 1

theorem Mem.Unshared.congr {m m' : Mem} (h : m.Unshared) (hofile : m'.ofile = m.ofile) :
    m'.Unshared := by
  intro f
  have hsame : m'.fdsOn f = m.fdsOn f := by
    unfold Mem.fdsOn
    rw [hofile]
  rw [hsame]
  exact h f

theorem Outcome.unshared (h : Outcome x name call r y) (hx : x.Files) (hone : x.mem.Unshared) :
    y.mem.Unshared := by
  rcases h.descends with hsame | ⟨fd, f, hfree, hfd, hsame⟩ | ⟨fd, f, hfd, hsame⟩
  · exact hone.congr hsame
  · refine Mem.Unshared.congr (fun f' => ?_) hsame
    have hcount := x.mem.fdsOn_setOfile fd (some f) f'
    rw [hfd, if_neg (by simp)] at hcount
    by_cases hf : some f = some f'
    · have hnone := hx.counted f'
      rw [← Option.some.inj hf, hfree] at hnone
      rw [if_pos hf, ← Option.some.inj hf] at hcount
      rw [← Option.some.inj hf]
      omega
    · rw [if_neg hf] at hcount
      have hle := hone f'
      omega
  · refine Mem.Unshared.congr (fun f' => ?_) hsame
    have hcount := x.mem.fdsOn_setOfile fd none f'
    rw [if_neg (by simp : ¬ (none : Option (Fin nfile)) = some f')] at hcount
    have hle := hone f'
    omega

/-- The invariant about descriptors. -/
def Power.Unshared : Power → Prop
  | .on k => k.mem.Unshared
  | .off _ => True

theorem Power.Unshared.step {s u : Power} {e : PowerEvent} (hsb : sb.Mountable) (hok : s.Ok sb)
    (h : s.Unshared) (hstep : s.Step e u) : u.Unshared := by
  cases hstep with
  | call hrun =>
      obtain ⟨x, hx⟩ := hok
      rename_i k k' c r
      obtain ⟨y, hy, houtcome⟩ := hx.call hsb hrun
      obtain ⟨order, hmem⟩ := (hx.enter c).refines
      obtain ⟨order', hmem'⟩ := hy.refines
      change k'.mem.Unshared
      rw [hmem'.mem]
      refine houtcome.unshared (hx.enter c).files ?_
      rw [← hmem.mem]
      exact Mem.Unshared.congr h rfl
  | cut hvisit => trivial
  | boot hrun =>
      obtain ⟨v, htidy, hstored⟩ := hok
      obtain ⟨x, k', hmount, ⟨order, hrefines⟩, -, -, hmem⟩ := hstored.mounts hsb htidy
      rw [hmount] at hrun
      obtain ⟨-, rfl⟩ := Prod.mk.inj (Except.ok.inj hrun)
      change k'.mem.Unshared
      intro f
      have hnone : k'.mem.fdsOn f = 0 := by
        rw [hrefines.mem, hmem]
        simp [Mem.fdsOn]
      omega
  | cutBoot hcut => trivial

/-- Between two calls no buffer is in use or changed, and the log is empty. -/
theorem drained (hsb : sb.Mountable) (h : (powers sb).Reachable (.on k)) : k.Drained sb := by
  obtain ⟨x, hx⟩ := Power.ok_of_reachable hsb h
  exact hx.is_drained

theorem drained_main : ∃ k : Machine, k.Drained Mkfs.layoutSb := by
  obtain ⟨k, hk⟩ := main_runs
  exact ⟨k, drained layoutSb_mountable hk⟩

/-- Between two calls no block of the disk is held twice, every block that is held is marked as
used, and the directories are in order. -/
theorem on_disk (hsb : sb.Mountable) (h : (powers sb).Reachable (.on k)) :
    (imageVolume sb k.disk).Tidy sb := by
  obtain ⟨x, hx⟩ := Power.ok_of_reachable hsb h
  rw [hx.volume]
  exact hx.toDurable.tidy

theorem on_disk_main : ∃ k : Machine, (imageVolume Mkfs.layoutSb k.disk).Tidy Mkfs.layoutSb := by
  obtain ⟨k, hk⟩ := main_runs
  exact ⟨k, on_disk layoutSb_mountable hk⟩

end

end RiscvOs
