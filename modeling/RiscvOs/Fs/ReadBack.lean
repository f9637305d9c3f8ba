import RiscvOs.Fs.Wired

/-!
# What is written is read back

`Episode` is what is seen of a run in which one process writes a file through one descriptor and
another reads it.  In between, and all the time, there can be any calls of any processes on other
files, and the power can be cut any number of times as soon as the writer is done.  The reader
gets what has been written (`write_read`).

This is proved of the flat file system and carried over to the machine.  A phase of the episode
has an invariant:

* before the file is opened nobody can write it (`Unwritten`);
* the writer has written a prefix of the file and stands at its end (`Writes`);
* afterwards nobody can write it, and its contents stay what they are (`Sealed`), also while the
  reader has it open (`Looks`).
-/

namespace RiscvOs

open Effect Bytes Kern Bio

/-! ## What is seen of a file -/

/-- The number of the descriptor that a call works on. -/
def Syscall.fd : Syscall → Option ℤ
  | .read a₀ _ _ => some (argint a₀)
  | .write a₀ _ _ => some (argint a₀)
  | .close a₀ => some (argint a₀)
  | .open _ _ => none
  | .unlink _ => none

/-- A file opened in this mode can be written. -/
def OpenMode.writes (omode : OpenMode) : Bool := omode.wronly || omode.rdwr

namespace UserCall

/-- The name that the path at an address ends in. -/
def nameAt (c : UserCall) (a : BitVec 64) : Option (List UInt8) :=
  (c.user.path a).bind fun path => lastName (pathNames path)

/-- The call neither removes the file nor opens it for writing. -/
def Preserves (nm : List UInt8) (c : UserCall) : Prop :=
  match c.call with
  | .open a₀ a₁ => c.nameAt a₀ = some nm → OpenMode.writes ⟨a₁.setWidth 32⟩ = false
  | .unlink a₀ => c.nameAt a₀ ≠ some nm
  | _ => True

/-- The call works on a descriptor of a process. -/
def Uses (p : Fin nproc) (fd : Fin nofile) (c : UserCall) : Prop :=
  c.proc = p ∧ c.call.fd = some (fd.val : ℤ)

/-- The bytes that the call writes through a descriptor of a process. -/
def wrote (p : Fin nproc) (fd : Fin nofile) (c : UserCall) : List UInt8 :=
  match c.call with
  | .write a₀ a₁ a₂ =>
      if c.proc = p ∧ argint a₀ = fd.val ∧ 0 ≤ argint a₂ then
        Mem.taken { user := c.user } a₁ (argint a₂).toNat
      else []
  | _ => []

end UserCall

namespace Seen

/-- The call that has returned or has been cut. -/
def made : Seen → Option UserCall
  | .call c _ _ => some c
  | .cut c => some c
  | .boot => none
  | .cutBoot => none

/-- No call removes the file or opens it for writing. -/
def Preserves (nm : List UInt8) (e : Seen) : Prop := ∀ c ∈ e.made, c.Preserves nm

/-- A call of some kind returns. -/
def Returns (ok : UserCall → Prop) (e : Seen) : Prop := ∃ c r user, e = .call c r user ∧ ok c

/-- The bytes that are written through a descriptor of a process. -/
def wrote (p : Fin nproc) (fd : Fin nofile) : Seen → List UInt8
  | .call c _ _ => c.wrote p fd
  | _ => []

/-- The process gets the file as this descriptor. -/
inductive Opens (nm : List UInt8) (p : Fin nproc) (fd : Fin nofile) (omode : OpenMode) :
    Seen → Prop
  | call {c : UserCall} {a₀ a₁ : BitVec 64} {user : UserBytes} (hproc : c.proc = p)
      (hcall : c.call = .open a₀ a₁) (hmode : omode = ⟨a₁.setWidth 32⟩)
      (hname : c.nameAt a₀ = some nm) : Opens nm p fd omode (.call c fd.val user)

/-- The process closes the descriptor, or the power is cut. -/
inductive Ends (p : Fin nproc) (fd : Fin nofile) : Seen → Prop
  | close {c : UserCall} {a₀ : BitVec 64} {r : ℤ} {user : UserBytes} (hproc : c.proc = p)
      (hcall : c.call = .close a₀) (hfd : argint a₀ = fd.val) : Ends p fd (.call c r user)
  | cut {c : UserCall} : Ends p fd (.cut c)

end Seen

/-- A file that nobody has opened for writing since a boot is opened for writing by `p`, written
and closed or left by a power cut, and then opened by `q`. -/
structure Episode (nm : List UInt8) (p q : Fin nproc) (fd fd' : Fin nofile) where
  before : List Seen
  quiet : List Seen
  opened : Seen
  writing : List Seen
  ended : Seen
  later : List Seen
  reopened : Seen
  reading : List Seen
  quiet_preserves : ∀ e ∈ quiet, e.Preserves nm
  opened_opens : ∃ omode, omode.writes = true ∧ opened.Opens nm p fd omode
  writing_preserves : ∀ e ∈ writing, e.Preserves nm
  /-- The descriptor is used for writing alone. -/
  writing_returns : ∀ e ∈ writing,
    e.Returns fun c => c.Uses p fd → ∃ a₀ a₁ a₂, c.call = .write a₀ a₁ a₂
  ended_preserves : ended.Preserves nm
  ended_ends : ended.Ends p fd
  later_preserves : ∀ e ∈ later, e.Preserves nm
  reopened_preserves : reopened.Preserves nm
  reopened_opens : ∃ omode, reopened.Opens nm q fd' omode
  reading_preserves : ∀ e ∈ reading, e.Preserves nm
  /-- The descriptor is not used. -/
  reading_returns : ∀ e ∈ reading, e.Returns fun c => ¬ c.Uses q fd'

namespace Episode

variable {nm : List UInt8} {p q : Fin nproc} {fd fd' : Fin nofile}

/-- What is seen of the run. -/
def labels (ep : Episode nm p q fd fd') : List Seen :=
  ep.before ++ [.boot] ++ ep.quiet ++ [ep.opened] ++ ep.writing ++ [ep.ended] ++ ep.later ++
    [ep.reopened] ++ ep.reading

/-- What has been written. -/
def written (ep : Episode nm p q fd fd') : List UInt8 := ep.writing.flatMap (Seen.wrote p fd)

end Episode

/-! ## What a call does -/

namespace Flat

/-- Only certain descriptors can write the file. -/
def WritersIn (s : Flat) (nm : List UInt8) (own : Fin nproc → Fin nofile → Prop) : Prop :=
  ∀ p fd d, s.desc p fd = some d → d.place = .file nm → d.writable = true → own p fd

section
variable {s s' : Flat} {nm path bytes : List UInt8} {omode : OpenMode} {place : Place}
  {p q : Fin nproc} {fd fd' : Fin nofile} {d : Desc} {c : UserCall} {r : ℤ} {user : UserBytes}
  {own : Fin nproc → Fin nofile → Prop}

theorem setDesc_same (s : Flat) (p : Fin nproc) (fd : Fin nofile) (o : Option Desc) :
    (s.setDesc p fd o).desc p fd = o := by
  simp [setDesc]

theorem setDesc_of_ne (o : Option Desc) (hne : ¬ (q = p ∧ fd' = fd)) :
    (s.setDesc p fd o).desc q fd' = s.desc q fd' := by
  by_cases hq : q = p
  · subst hq
    have hfd : fd' ≠ fd := fun heq => hne ⟨rfl, heq⟩
    simp [setDesc, hfd]
  · simp [setDesc, hq]

/-- A descriptor that is changed stays open on the same file in the same mode. -/
theorem WritersIn.setDesc (h : s.WritersIn nm own) {o : Option Desc}
    (hsame : ∀ d' ∈ o, ∃ d, s.desc p fd = some d ∧ d'.place = d.place ∧ d'.writable = d.writable) :
    (s.setDesc p fd o).WritersIn nm own := by
  intro q fd' d' hd' hplace hwritable
  by_cases hat : q = p ∧ fd' = fd
  · obtain ⟨rfl, rfl⟩ := hat
    rw [setDesc_same] at hd'
    obtain ⟨d, hd, hplace', hwritable'⟩ := hsame d' hd'
    exact h q fd' d hd (hplace' ▸ hplace) (hwritable' ▸ hwritable)
  · rw [setDesc_of_ne o hat] at hd'
    exact h q fd' d' hd' hplace hwritable

/-- The number of an open descriptor. -/
theorem descAt_of_desc {n : ℤ} (hd : s.desc p fd = some d) (hn : n = fd.val) :
    s.descAt p n = some (fd, d) := by
  have hlt : fd.val < nofile := fd.isLt
  have hrange : 0 ≤ n ∧ n < nofile := by omega
  subst hn
  rw [descAt, dif_pos hrange]
  simp [hd]

theorem target_some {call : Syscall} (h : s.target p call = some (fd, d)) :
    s.desc p fd = some d ∧ call.fd = some (fd.val : ℤ) := by
  have hat {n : ℤ} (hn : s.descAt p n = some (fd, d)) :
      s.desc p fd = some d ∧ some n = some (fd.val : ℤ) := by
    unfold descAt at hn
    split at hn
    · rename_i hrange
      obtain ⟨d', hd', hpair⟩ := Option.map_eq_some_iff.mp hn
      obtain ⟨rfl, rfl⟩ := Prod.mk.inj hpair
      exact ⟨hd', congrArg some (Int.toNat_of_nonneg hrange.1).symm⟩
    · cases hn
  cases call with
  | «open» a₀ a₁ => cases h
  | unlink a₀ => cases h
  | close a₀ => exact hat h
  | read a₀ a₁ a₂ =>
      simp only [target] at h
      split at h
      · cases h
      · exact hat h
  | write a₀ a₁ a₂ =>
      simp only [target] at h
      split at h
      · cases h
      · exact hat h

/-- What is opened at a path. -/
theorem finds_cases (h : s.finds path omode = some (place, s')) :
    s'.desc = s.desc ∧ (∀ nm bytes, s.files nm = some bytes → s'.files nm = some bytes) ∧
      ((place = .dir ∧ omode.writes = false ∧
          ∀ nm, lastName (pathNames path) = some nm → IsSelf nm) ∨
        ∃ nm bytes, lastName (pathNames path) = some nm ∧ ¬ IsSelf nm ∧ place = .file nm ∧
          s'.files nm = some bytes) := by
  unfold finds at h
  split at h
  · obtain ⟨nm, hlast, h⟩ := Option.bind_eq_some_iff.mp h
    split at h
    · rename_i hself
      split at h
      · cases h
      · rename_i hmode
        obtain ⟨rfl, rfl⟩ := Prod.mk.inj (Option.some.inj h)
        refine ⟨rfl, fun nm bytes hfile => hfile, .inl ⟨rfl, ?_, fun nm' hnm' => ?_⟩⟩
        · rw [not_or, Bool.not_eq_true, Bool.not_eq_true] at hmode
          rw [OpenMode.writes, hmode.1, hmode.2]
          rfl
        · rw [hlast] at hnm'
          exact Option.some.inj hnm' ▸ hself
    · rename_i hself
      split at h
      · rename_i hnone
        obtain ⟨rfl, rfl⟩ := Prod.mk.inj (Option.some.inj h)
        refine ⟨rfl, fun nm' bytes hfile => ?_, .inr ⟨nm, [], hlast, hself, rfl, ?_⟩⟩
        · have hne : nm' ≠ nm := by
            rintro rfl
            rw [hnone] at hfile
            cases hfile
          simpa [setFile, hne] using hfile
        · simp [setFile]
      · rename_i hsome
        obtain ⟨bytes, hbytes⟩ := Option.ne_none_iff_exists'.mp hsome
        obtain ⟨rfl, rfl⟩ := Prod.mk.inj (Option.some.inj h)
        exact ⟨rfl, fun nm bytes hfile => hfile, .inr ⟨nm, bytes, hlast, hself, rfl, hbytes⟩⟩
  · obtain ⟨place', hleads, h⟩ := Option.bind_eq_some_iff.mp h
    split at h
    · cases h
    · rename_i hmode
      obtain ⟨rfl, rfl⟩ := Prod.mk.inj (Option.some.inj h)
      refine ⟨rfl, fun nm bytes hfile => hfile, ?_⟩
      unfold leadsTo at hleads
      split at hleads
      · rename_i hselves
        obtain rfl := Option.some.inj hleads
        have hword : omode.word = 0 := by simpa using hmode
        refine .inl ⟨rfl, by simp [OpenMode.writes, OpenMode.wronly, OpenMode.rdwr, hword], ?_⟩
        intro nm hnm
        unfold lastName at hnm
        split at hnm
        · exact hselves nm (List.mem_of_getLast? hnm)
        · cases hnm
      · rename_i hselves
        obtain ⟨nm, hlast, hfile⟩ := Option.bind_eq_some_iff.mp hleads
        split at hfile
        · cases hfile
        · rename_i hsome
          obtain ⟨bytes, hbytes⟩ := Option.ne_none_iff_exists'.mp hsome
          refine .inr ⟨nm, bytes, hlast, fun hself => hselves ?_, (Option.some.inj hfile).symm,
            hbytes⟩
          unfold lastName at hlast
          split at hlast
          · rename_i hfirst
            intro nm' hnm'
            rw [← List.dropLast_append_getLast? nm hlast, List.mem_append,
              List.mem_singleton] at hnm'
            rcases hnm' with hold | rfl
            · exact hfirst nm' hold
            · exact hself
          · cases hlast

/-- A process that opens something gets no descriptor, or one that was not in use. -/
theorem take_cases (h : s.take p place omode = (r, s')) : s'.files = s.files ∧
    ((r = -1 ∧ s' = s) ∨ ∃ fd : Fin nofile, r = fd.val ∧ 3 ≤ fd.val ∧ s.desc p fd = none ∧
      s' = s.setDesc p fd (some ⟨place, 0, !omode.wronly, omode.writes⟩)) := by
  unfold take at h
  split at h
  · obtain ⟨rfl, rfl⟩ := Prod.mk.inj h
    exact ⟨rfl, .inl ⟨rfl, rfl⟩⟩
  · rename_i fd hfd
    obtain ⟨rfl, rfl⟩ := Prod.mk.inj h
    split at hfd
    · cases hfd
    · obtain ⟨hhigh, hnone⟩ := of_decide_eq_true (List.find?_some
        (p := fun fd : Fin nofile => 3 ≤ fd.val ∧ s.desc p fd = none) hfd)
      exact ⟨rfl, .inr ⟨fd, rfl, hhigh, hnone, rfl⟩⟩

/-- What `open` does. -/
theorem doOpen_cases {a₀ a₁ : BitVec 64} (h : s.doOpen p user a₀ a₁ = (r, s')) :
    (∀ nm bytes, s.files nm = some bytes → s'.files nm = some bytes) ∧
      ((r = -1 ∧ s'.desc = s.desc) ∨ ∃ (s₁ : Flat) (path : List UInt8) (place : Place),
        user.path a₀ = some path ∧ s.finds path ⟨a₁.setWidth 32⟩ = some (place, s₁) ∧
        ∃ fd : Fin nofile, r = fd.val ∧ 3 ≤ fd.val ∧ s.desc p fd = none ∧ s' = s₁.setDesc p fd
          (some ⟨place, 0, !OpenMode.wronly ⟨a₁.setWidth 32⟩,
            OpenMode.writes ⟨a₁.setWidth 32⟩⟩)) := by
  unfold doOpen at h
  split at h
  · obtain ⟨rfl, rfl⟩ := Prod.mk.inj h
    exact ⟨fun nm bytes hfile => hfile, .inl ⟨rfl, rfl⟩⟩
  · rename_i place s₁ hfound
    obtain ⟨path, hpath, hfinds⟩ := Option.bind_eq_some_iff.mp hfound
    obtain ⟨hdesc, hkept, -⟩ := finds_cases hfinds
    obtain ⟨hfiles, htake⟩ := take_cases h
    refine ⟨fun nm bytes hfile => ?_, ?_⟩
    · rw [hfiles]
      exact hkept nm bytes hfile
    · rcases htake with ⟨rfl, rfl⟩ | ⟨fd, rfl, hhigh, hnone, rfl⟩
      · exact .inl ⟨rfl, hdesc⟩
      · exact .inr ⟨s₁, path, place, hpath, hfinds, fd, rfl, hhigh, hdesc ▸ hnone, rfl⟩

/-- What `unlink` does. -/
theorem unlink_cases {a₀ : BitVec 64} (h : s.unlink user a₀ = (r, s')) : s' = s ∨
    ∃ nm, (user.path a₀).bind (fun path => lastName (pathNames path)) = some nm ∧
      s' = s.setFile nm none := by
  unfold unlink at h
  split at h
  · obtain ⟨rfl, rfl⟩ := Prod.mk.inj h
    exact .inl rfl
  · rename_i nm hname
    split at h
    · obtain ⟨rfl, rfl⟩ := Prod.mk.inj h
      exact .inl rfl
    · obtain ⟨rfl, rfl⟩ := Prod.mk.inj h
      exact .inr ⟨nm, hname, rfl⟩

/-- What `write` does. -/
theorem write_cases {n : ℕ} {src : List UInt8} (h : s.write p fd d n src = (r, s')) : s' = s ∨
    ∃ nm, d.place = .file nm ∧ d.writable = true ∧
      s' = (s.setFile nm (some (splice d.off src (s.content nm)))).setDesc p fd
        (some { d with off := d.off + src.length }) := by
  unfold write at h
  split at h
  · rename_i nm hplace hwritable
    obtain ⟨rfl, rfl⟩ := Prod.mk.inj h
    exact .inr ⟨nm, hplace, hwritable, rfl⟩
  · obtain ⟨rfl, rfl⟩ := Prod.mk.inj h
    exact .inl rfl

/-- A call that does not open the file for writing gives nobody the means to write it. -/
theorem Does.writersIn (h : s.Does c.proc c.user c.call r user s') (hc : c.Preserves nm)
    (hs : s.WritersIn nm own) : s'.WritersIn nm own := by
  obtain ⟨p, u, name, call⟩ := c
  cases h with
  | «open» hdo =>
      obtain ⟨-, ⟨-, hdesc⟩ | ⟨s₁, path, place, hpath, hfinds, fd, -, -, hnone, rfl⟩⟩ :=
        doOpen_cases hdo
      · intro q fd d hd
        rw [hdesc] at hd
        exact hs q fd d hd
      · obtain ⟨hdesc, -, hplace⟩ := finds_cases hfinds
        intro q fd' d hd hon hwritable
        by_cases hat : q = p ∧ fd' = fd
        · obtain ⟨rfl, rfl⟩ := hat
          rw [setDesc_same] at hd
          obtain rfl := Option.some.inj hd
          rcases hplace with ⟨hdir, -⟩ | ⟨nm', bytes, hlast, -, hfile, -⟩
          · rw [hdir] at hon
            cases hon
          · obtain rfl := Place.file.inj (hfile.symm.trans hon)
            have hname : (u.path _).bind (fun path => lastName (pathNames path)) = some nm' :=
              Option.bind_eq_some_iff.mpr ⟨path, hpath, hlast⟩
            have hmode : OpenMode.writes _ = false := hc hname
            rw [hmode] at hwritable
            cases hwritable
        · rw [setDesc_of_ne _ hat, hdesc] at hd
          exact hs q fd' d hd hon hwritable
  | unlink hdo =>
      rcases unlink_cases hdo with rfl | ⟨nm', -, rfl⟩
      · exact hs
      · exact hs
  | idle hwalks htarget => exact hs
  | close htarget => exact hs.setDesc fun d' hd' => by cases hd'
  | @read a₀ a₁ a₂ fd d bytes htarget hreads hput =>
      refine hs.setDesc fun d' hd' => ?_
      obtain rfl := Option.some.inj hd'
      exact ⟨d, (target_some htarget).1, rfl, rfl⟩
  | @faulted a₀ a₁ a₂ fd d bytes off htarget hreads hput hoff =>
      refine hs.setDesc fun d' hd' => ?_
      obtain rfl := Option.some.inj hd'
      exact ⟨d, (target_some htarget).1, rfl, rfl⟩
  | @write a₀ a₁ a₂ fd d r s' htarget hdo =>
      rcases write_cases hdo with rfl | ⟨nm', -, -, rfl⟩
      · exact hs
      · refine WritersIn.setDesc (s := s.setFile _ _) hs fun d' hd' => ?_
        obtain rfl := Option.some.inj hd'
        exact ⟨d, (target_some htarget).1, rfl, rfl⟩

/-- A call that does not write through one of the descriptors that can write the file leaves its
contents. -/
theorem Does.files (h : s.Does c.proc c.user c.call r user s') (hc : c.Preserves nm)
    (hs : s.WritersIn nm own)
    (hno : ∀ p fd, own p fd → c.Uses p fd → ∀ a₀ a₁ a₂, c.call ≠ .write a₀ a₁ a₂)
    (hfile : s.files nm = some bytes) : s'.files nm = some bytes := by
  obtain ⟨p, u, name, call⟩ := c
  cases h with
  | «open» hdo => exact (doOpen_cases hdo).1 nm bytes hfile
  | unlink hdo =>
      rcases unlink_cases hdo with rfl | ⟨nm', hname, rfl⟩
      · exact hfile
      · have hne : nm ≠ nm' := fun heq => hc (heq ▸ hname)
        simpa [setFile, hne] using hfile
  | idle hwalks htarget => exact hfile
  | close htarget => exact hfile
  | read htarget hreads hput => exact hfile
  | faulted htarget hreads hput hoff => exact hfile
  | @write a₀ a₁ a₂ fd d r s' htarget hdo =>
      obtain ⟨hd, hfd⟩ := target_some htarget
      rcases write_cases hdo with rfl | ⟨nm', hplace, hwritable, rfl⟩
      · exact hfile
      · have hne : nm ≠ nm' := by
          rintro rfl
          exact hno p fd (hs p fd d hd hplace hwritable) ⟨rfl, hfd⟩ a₀ a₁ a₂ rfl
        simpa [setFile, Flat.setDesc, hne] using hfile

/-- A call leaves the descriptors that it does not work on. -/
theorem Does.desc (h : s.Does c.proc c.user c.call r user s') (hno : ¬ c.Uses q fd)
    (hd : s.desc q fd = some d) : s'.desc q fd = some d := by
  obtain ⟨p, u, name, call⟩ := c
  have hother {fd' : Fin nofile} {o : Option Desc} (hfd : call.fd = some (fd'.val : ℤ)) :
      (s.setDesc p fd' o).desc q fd = some d := by
    rw [setDesc_of_ne]
    · exact hd
    · rintro ⟨rfl, rfl⟩
      exact hno ⟨rfl, hfd⟩
  cases h with
  | «open» hdo =>
      obtain ⟨-, ⟨-, hdesc⟩ | ⟨s₁, path, place, -, hfinds, fd', -, -, hnone, rfl⟩⟩ :=
        doOpen_cases hdo
      · rw [hdesc]
        exact hd
      · obtain ⟨hdesc, -⟩ := finds_cases hfinds
        rw [setDesc_of_ne, hdesc]
        · exact hd
        · rintro ⟨rfl, rfl⟩
          have hnone' : s.desc q fd = none := hnone
          rw [hd] at hnone'
          cases hnone'
  | unlink hdo =>
      rcases unlink_cases hdo with rfl | ⟨nm', -, rfl⟩
      · exact hd
      · exact hd
  | idle hwalks htarget => exact hd
  | close htarget => exact hother (target_some htarget).2
  | read htarget hreads hput => exact hother (target_some htarget).2
  | faulted htarget hreads hput hoff => exact hother (target_some htarget).2
  | write htarget hdo =>
      rcases write_cases hdo with rfl | ⟨nm', -, -, rfl⟩
      · exact hd
      · exact hother (target_some htarget).2

/-- The process has written a prefix of the file through the descriptor, stands at its end, and
is the only one that can write the file. -/
structure Writes (s : Flat) (nm : List UInt8) (p : Fin nproc) (fd : Fin nofile)
    (w : List UInt8) : Prop where
  high : 3 ≤ fd.val
  desc : ∃ readable, s.desc p fd = some ⟨.file nm, w.length, readable, true⟩
  stored : ∃ bytes, s.files nm = some bytes ∧ w <+: bytes
  alone : s.WritersIn nm fun q fd' => q = p ∧ fd' = fd

/-- The process has just opened the file to read it, and nobody can write it. -/
structure Looks (s : Flat) (nm : List UInt8) (q : Fin nproc) (fd : Fin nofile)
    (bytes : List UInt8) : Prop where
  high : 3 ≤ fd.val
  desc : s.desc q fd = some ⟨.file nm, 0, true, false⟩
  stored : s.files nm = some bytes
  alone : s.WritersIn nm fun _ _ => False

/-- What the file is opened as. -/
theorem doOpen_at {a₀ a₁ : BitVec 64} (hname : c.nameAt a₀ = some nm)
    (hkind : ¬ IsSelf nm ∨ OpenMode.writes ⟨a₁.setWidth 32⟩ = true)
    (h : s.doOpen c.proc c.user a₀ a₁ = ((fd.val : ℤ), s')) : 3 ≤ fd.val ∧ ¬ IsSelf nm ∧
      (∃ bytes, s'.files nm = some bytes) ∧
      ∃ s₁ : Flat, s₁.desc = s.desc ∧ s' = s₁.setDesc c.proc fd
        (some ⟨.file nm, 0, !OpenMode.wronly ⟨a₁.setWidth 32⟩,
          OpenMode.writes ⟨a₁.setWidth 32⟩⟩) := by
  obtain ⟨-, ⟨hfailed, -⟩ | ⟨s₁, path, place, hpath, hfinds, fd', hfd, hhigh, -, rfl⟩⟩ :=
    doOpen_cases h
  · omega
  · obtain rfl : fd = fd' := Fin.ext (Int.ofNat.inj hfd)
    have hlast : lastName (pathNames path) = some nm := by
      rw [UserCall.nameAt, hpath] at hname
      exact hname
    obtain ⟨hdesc, -, ⟨-, hmode, hself⟩ | ⟨nm', bytes, hlast', hself, rfl, hfile⟩⟩ :=
      finds_cases hfinds
    · rcases hkind with hother | hwrites
      · exact absurd (hself nm hlast) hother
      · rw [hmode] at hwrites
        cases hwrites
    · obtain rfl : nm' = nm := Option.some.inj (hlast'.symm.trans hlast)
      exact ⟨hhigh, hself, ⟨bytes, hfile⟩, s₁, hdesc, rfl⟩

/-- The file is opened for writing. -/
theorem Writes.opened {a₀ a₁ : BitVec 64} (hs : s.WritersIn nm fun _ _ => False)
    (hname : c.nameAt a₀ = some nm) (hmode : OpenMode.writes ⟨a₁.setWidth 32⟩ = true)
    (h : s.doOpen c.proc c.user a₀ a₁ = ((fd.val : ℤ), s')) :
    s'.Writes nm c.proc fd [] ∧ ¬ IsSelf nm := by
  obtain ⟨hhigh, hself, hstored, s₁, hdesc, rfl⟩ := doOpen_at hname (.inr hmode) h
  rw [hmode]
  rw [hmode] at hstored
  obtain ⟨bytes, hbytes⟩ := hstored
  refine ⟨⟨hhigh, ⟨_, setDesc_same ..⟩, ⟨bytes, hbytes, List.nil_prefix⟩, ?_⟩, hself⟩
  intro q fd' d hd hplace hwritable
  by_cases hat : q = c.proc ∧ fd' = fd
  · exact hat
  · rw [setDesc_of_ne _ hat, hdesc] at hd
    exact (hs q fd' d hd hplace hwritable).elim

/-- The file is opened for reading. -/
theorem Looks.opened {a₀ a₁ : BitVec 64} (hs : s.WritersIn nm fun _ _ => False)
    (hfile : s.files nm = some bytes) (hself : ¬ IsSelf nm) (hname : c.nameAt a₀ = some nm)
    (hmode : OpenMode.writes ⟨a₁.setWidth 32⟩ = false)
    (h : s.doOpen c.proc c.user a₀ a₁ = ((fd.val : ℤ), s')) : s'.Looks nm c.proc fd bytes := by
  have hkept := (doOpen_cases h).1 nm bytes hfile
  obtain ⟨hhigh, -, -, s₁, hdesc, rfl⟩ := doOpen_at hname (.inl hself) h
  have hreads : OpenMode.wronly ⟨a₁.setWidth 32⟩ = false := (Bool.or_eq_false_iff.mp hmode).1
  refine ⟨hhigh, ?_, hkept, ?_⟩
  · rw [setDesc_same, hmode, hreads]
    rfl
  · intro q fd' d hd hplace hwritable
    by_cases hat : q = c.proc ∧ fd' = fd
    · obtain ⟨rfl, rfl⟩ := hat
      rw [setDesc_same] at hd
      obtain rfl := Option.some.inj hd
      rw [show OpenMode.writes _ = false from hmode] at hwritable
      cases hwritable
    · rw [setDesc_of_ne _ hat, hdesc] at hd
      exact hs q fd' d hd hplace hwritable

/-- The file is written at the end of what has been written. -/
theorem prefix_splice {w src : List UInt8} (h : w <+: bytes) :
    w ++ src <+: splice w.length src bytes := by
  obtain ⟨rest, rfl⟩ := h
  rw [splice, List.take_left]
  exact List.prefix_append _ _

/-- A call while the file is being written. -/
theorem Writes.call {w : List UInt8} (h : s.Writes nm p fd w)
    (hdoes : s.Does c.proc c.user c.call r user s') (hc : c.Preserves nm)
    (hwrite : c.Uses p fd → ∃ a₀ a₁ a₂, c.call = .write a₀ a₁ a₂) :
    s'.Writes nm p fd (w ++ c.wrote p fd) := by
  have halone := hdoes.writersIn hc h.alone
  obtain ⟨readable, hd⟩ := h.desc
  obtain ⟨bytes, hfile, hprefix⟩ := h.stored
  by_cases huses : c.Uses p fd
  · obtain ⟨q, u, name, call⟩ := c
    obtain ⟨a₀, a₁, a₂, hcall⟩ := hwrite huses
    obtain rfl : call = .write a₀ a₁ a₂ := hcall
    obtain ⟨hq, hfd⟩ := huses
    obtain rfl : q = p := hq
    have hnumber : argint a₀ = fd.val := Option.some.inj hfd
    by_cases hneg : argint a₂ < 0
    · -- nothing is written
      have htarget : s.target q (.write a₀ a₁ a₂) = none := if_pos (.inl hneg)
      have hnone : UserCall.wrote q fd ⟨q, u, name, .write a₀ a₁ a₂⟩ = [] :=
        if_neg fun hrange => absurd hrange.2.2 (not_le.mpr hneg)
      rw [hnone, List.append_nil]
      cases hdoes with
      | idle hwalks hidle => exact h
      | write hother hdo =>
          have hsome : s.target q (.write a₀ a₁ a₂) = some _ := hother
          rw [htarget] at hsome
          cases hsome
    · have hhigh := h.high
      have htarget : s.target q (.write a₀ a₁ a₂) =
          some (fd, ⟨.file nm, w.length, readable, true⟩) := by
        rw [← descAt_of_desc hd hnumber]
        exact if_neg (by omega)
      have hsrc : UserCall.wrote q fd ⟨q, u, name, .write a₀ a₁ a₂⟩ =
          Mem.taken { user := u } a₁ (argint a₂).toNat :=
        if_pos ⟨rfl, hnumber, not_lt.mp hneg⟩
      rw [hsrc]
      cases hdoes with
      | idle hwalks hidle =>
          have hnone : s.target q (.write a₀ a₁ a₂) = none := hidle
          rw [htarget] at hnone
          cases hnone
      | write hother hdo =>
          obtain ⟨rfl, rfl⟩ := Prod.mk.inj (Option.some.inj (htarget.symm.trans hother))
          obtain ⟨-, rfl⟩ := Prod.mk.inj hdo
          have hcontent : s.content nm = bytes := by rw [content, hfile, Option.getD_some]
          refine ⟨hhigh, ⟨readable, ?_⟩, ⟨_, ?_, prefix_splice hprefix⟩, halone⟩
          · rw [setDesc_same, List.length_append]
          · rw [← hcontent]
            exact Function.update_self ..
  · have hnone : c.wrote p fd = [] := by
      unfold UserCall.wrote
      split
      · rename_i a₀ a₁ a₂ hcall
        refine if_neg fun hwrote => huses ⟨hwrote.1, ?_⟩
        rw [hcall]
        exact congrArg some hwrote.2.1
      · rfl
    rw [hnone, List.append_nil]
    refine ⟨h.high, ⟨readable, hdoes.desc huses hd⟩, ⟨bytes, ?_, hprefix⟩, halone⟩
    refine hdoes.files hc h.alone (fun q fd' hown huses' => ?_) hfile
    rw [hown.1, hown.2] at huses'
    exact absurd huses' huses

/-- Whatever is done while the file is being written, what has been written stays. -/
theorem Writes.files {w : List UInt8} (h : s.Writes nm p fd w)
    (hdoes : s.Does c.proc c.user c.call r user s') (hc : c.Preserves nm) :
    ∃ bytes, s'.files nm = some bytes ∧ w <+: bytes := by
  by_cases hwrite : ∃ a₀ a₁ a₂, c.call = .write a₀ a₁ a₂
  · obtain ⟨bytes, hfile, hprefix⟩ := (h.call hdoes hc fun _ => hwrite).stored
    exact ⟨bytes, hfile, (List.prefix_append _ _).trans hprefix⟩
  · obtain ⟨bytes, hfile, hprefix⟩ := h.stored
    refine ⟨bytes, hdoes.files hc h.alone (fun q fd' hown huses a₀ a₁ a₂ hcall => ?_) hfile,
      hprefix⟩
    exact hwrite ⟨a₀, a₁, a₂, hcall⟩

/-- A call that does not use the descriptor of the reader. -/
theorem Looks.call (h : s.Looks nm q fd bytes)
    (hdoes : s.Does c.proc c.user c.call r user s') (hc : c.Preserves nm) (hno : ¬ c.Uses q fd) :
    s'.Looks nm q fd bytes where
  high := h.high
  desc := hdoes.desc hno h.desc
  stored := hdoes.files hc h.alone (fun _ _ hown => hown.elim) h.stored
  alone := hdoes.writersIn hc h.alone

/-- The reader gets the first bytes of the file. -/
theorem Looks.read {a₀ a₁ a₂ : BitVec 64} (h : s.Looks nm c.proc fd bytes)
    (hdoes : s.Does c.proc c.user c.call r user s') (hcall : c.call = .read a₀ a₁ a₂)
    (hfd : argint a₀ = fd.val) (hn : 0 ≤ argint a₂) :
    user = (c.user.put a₁ (bytes.take (argint a₂).toNat)).2 ∧
      r = if (c.user.put a₁ (bytes.take (argint a₂).toNat)).1 = true then
        ((bytes.take (argint a₂).toNat).length : ℤ) else -1 := by
  have hhigh := h.high
  have htarget : s.target c.proc (.read a₀ a₁ a₂) = some (fd, ⟨.file nm, 0, true, false⟩) := by
    rw [← descAt_of_desc h.desc hfd]
    exact if_neg (by omega)
  have hcontent : s.content nm = bytes := by rw [content, h.stored, Option.getD_some]
  have hgot {d : Desc} {got : List UInt8} (hd : d = ⟨.file nm, 0, true, false⟩)
      (hreads : s.Reads d (argint a₂).toNat got) : got = bytes.take (argint a₂).toNat := by
    subst hd
    rw [← hcontent, ← List.drop_zero (l := s.content nm)]
    exact hreads
  rw [hcall] at hdoes
  cases hdoes with
  | idle hwalks hidle =>
      rw [htarget] at hidle
      cases hidle
  | read hother hreads hput =>
      obtain ⟨rfl, rfl⟩ := Prod.mk.inj (Option.some.inj (htarget.symm.trans hother))
      obtain rfl := hgot rfl hreads
      exact ⟨rfl, (if_pos hput).symm⟩
  | faulted hother hreads hput hoff =>
      obtain ⟨rfl, rfl⟩ := Prod.mk.inj (Option.some.inj (htarget.symm.trans hother))
      obtain rfl := hgot rfl hreads
      refine ⟨rfl, (if_neg ?_).symm⟩
      rw [hput]
      exact Bool.false_ne_true

end

end Flat

/-! ## Phases -/

namespace FlatPower

/-- Nobody can write the file. -/
def Unwritten (nm : List UInt8) : FlatPower → Prop
  | .on s => s.WritersIn nm fun _ _ => False
  | .off _ => True

/-- The file has certain contents, and nobody can write it. -/
def Sealed (nm bytes : List UInt8) : FlatPower → Prop
  | .on s => s.files nm = some bytes ∧ s.WritersIn nm fun _ _ => False
  | .off files => files nm = some bytes

section
variable {nm bytes w : List UInt8} {s t : FlatPower} {e : Seen} {p q : Fin nproc}
  {fd : Fin nofile} {f : Flat} {files : List UInt8 → Option (List UInt8)} {labels : List Seen}

theorem Step.unwritten (h : Step s e t) (he : e.Preserves nm) (hs : s.Unwritten nm) :
    t.Unwritten nm := by
  cases h with
  | call hdoes => exact hdoes.writersIn (he _ rfl) hs
  | cutBefore => trivial
  | cutAfter hpart hdoes => trivial
  | boot => exact fun p fd d hd => by cases hd
  | cutBoot => trivial

/-- A first part of a call that preserves the file preserves it. -/
theorem preserves_part {c : UserCall} {part : Syscall} (hpart : part.Upto c.call)
    (hc : c.Preserves nm) : UserCall.Preserves nm { c with call := part } := by
  obtain ⟨p, u, name, call⟩ := c
  cases hpart with
  | refl => exact hc
  | write hk => trivial

/-- What a cut leaves. -/
theorem Step.cut_cases {c : UserCall} (h : Step (.on f) (.cut c) t) (hc : c.Preserves nm) :
    t = .off f.files ∨ ∃ (c' : UserCall) (r : ℤ) (user : UserBytes) (f' : Flat),
      c'.Preserves nm ∧ f.Does c'.proc c'.user c'.call r user f' ∧ t = .off f'.files := by
  cases h with
  | cutBefore => exact .inl rfl
  | @cutAfter _ f' _ part r user hpart hdoes =>
      exact .inr ⟨{ c with call := part }, r, user, f', preserves_part hpart hc, hdoes, rfl⟩

theorem Step.sealed (h : Step s e t) (he : e.Preserves nm) (hs : s.Sealed nm bytes) :
    t.Sealed nm bytes := by
  cases s with
  | on f =>
      obtain ⟨hfile, hwriters⟩ := hs
      cases e with
      | call c r user =>
          cases h with
          | call hdoes =>
              exact ⟨hdoes.files (he _ rfl) hwriters (fun _ _ hown => hown.elim) hfile,
                hdoes.writersIn (he _ rfl) hwriters⟩
      | cut c =>
          rcases h.cut_cases (he _ rfl) with rfl | ⟨c', r, user, f', hc', hdoes, rfl⟩
          · exact hfile
          · exact hdoes.files hc' hwriters (fun _ _ hown => hown.elim) hfile
      | boot => cases h
      | cutBoot => cases h
  | off files =>
      cases h with
      | boot => exact ⟨hs, fun p fd d hd => by cases hd⟩
      | cutBoot => exact hs

/-- The writer is done. -/
theorem Step.ended {w : List UInt8} (h : Step (.on f) e t) (he : e.Preserves nm)
    (hends : e.Ends p fd) (hf : f.Writes nm p fd w) :
    ∃ bytes, t.Sealed nm bytes ∧ w <+: bytes := by
  cases hends with
  | @close c a₀ r user hproc hcall hfd =>
      cases h with
      | @call _ f' _ _ _ hdoes =>
          obtain ⟨bytes, hfile, hprefix⟩ := hf.files hdoes (he _ rfl)
          obtain ⟨readable, hd⟩ := hf.desc
          have htarget := Flat.descAt_of_desc hd hfd
          rw [hproc, hcall] at hdoes
          refine ⟨bytes, ⟨hfile, fun q fd' d hd' hplace hwritable => ?_⟩, hprefix⟩
          cases hdoes with
          | idle hwalks hidle =>
              have hnone : f.descAt p (argint a₀) = none := hidle
              rw [htarget] at hnone
              cases hnone
          | close hother =>
              obtain ⟨rfl, rfl⟩ := Prod.mk.inj (Option.some.inj (htarget.symm.trans hother))
              by_cases hat : q = p ∧ fd' = fd
              · obtain ⟨rfl, rfl⟩ := hat
                rw [Flat.setDesc_same] at hd'
                cases hd'
              · rw [Flat.setDesc_of_ne _ hat] at hd'
                exact hat (hf.alone q fd' d hd' hplace hwritable)
  | @cut c =>
      rcases h.cut_cases (he _ rfl) with rfl | ⟨c', r, user, f', hc', hdoes, rfl⟩
      · exact hf.stored
      · exact hf.files hdoes hc'

/-- The file is being written. -/
theorem writes_path (h : (flat files).Path (.on f) labels t) (hf : f.Writes nm p fd w)
    (hpreserves : ∀ e ∈ labels, e.Preserves nm)
    (hreturns : ∀ e ∈ labels,
      e.Returns fun c => c.Uses p fd → ∃ a₀ a₁ a₂, c.call = .write a₀ a₁ a₂) :
    ∃ f', t = .on f' ∧ f'.Writes nm p fd (w ++ labels.flatMap (Seen.wrote p fd)) := by
  induction h with
  | refl =>
      refine ⟨f, rfl, ?_⟩
      rw [List.flatMap_nil, List.append_nil]
      exact hf
  | @snoc labels t u e hpath hstep ih =>
      obtain ⟨f', rfl, hf'⟩ := ih (fun e he => hpreserves e (List.mem_append_left _ he))
        fun e he => hreturns e (List.mem_append_left _ he)
      obtain ⟨c, r, user, rfl, hwrite⟩ := hreturns _ List.mem_concat_self
      cases hstep with
      | call hdoes =>
          refine ⟨_, rfl, ?_⟩
          rw [List.flatMap_append, List.flatMap_singleton, ← List.append_assoc]
          exact hf'.call hdoes (hpreserves _ List.mem_concat_self c rfl) hwrite

/-- The file is open for reading. -/
theorem looks_path (h : (flat files).Path (.on f) labels t) (hf : f.Looks nm q fd bytes)
    (hpreserves : ∀ e ∈ labels, e.Preserves nm)
    (hreturns : ∀ e ∈ labels, e.Returns fun c => ¬ c.Uses q fd) :
    ∃ f', t = .on f' ∧ f'.Looks nm q fd bytes := by
  refine h.invariant (fun t => ∃ f', t = .on f' ∧ f'.Looks nm q fd bytes) ⟨f, rfl, hf⟩
    fun e he s t hs hstep => ?_
  obtain ⟨f', rfl, hf'⟩ := hs
  obtain ⟨c, r, user, rfl, hno⟩ := hreturns e he
  cases hstep with
  | call hdoes => exact ⟨_, rfl, hf'.call hdoes (hpreserves _ he c rfl) hno⟩

end

end FlatPower

/-! ## The episode -/

section
variable {nm : List UInt8} {p q : Fin nproc} {fd fd' : Fin nofile} {c : UserCall} {r : ℤ}
  {user : UserBytes} {a₀ a₁ a₂ : BitVec 64} {files : List UInt8 → Option (List UInt8)}
  {sb : Superblock}

/-- After the episode the descriptor is open on a file that begins with what has been written. -/
theorem Episode.looks (ep : Episode nm p q fd fd') {s t : FlatPower}
    (h : (flat files).Path s ep.labels t) :
    ∃ f rest, t = .on f ∧ f.Looks nm q fd' (ep.written ++ rest) := by
  obtain ⟨s₈, h, hreading⟩ := h.split rfl
  obtain ⟨s₇, h, hreopened⟩ := h.last rfl
  obtain ⟨s₆, h, hlater⟩ := h.split rfl
  obtain ⟨s₅, h, hended⟩ := h.last rfl
  obtain ⟨s₄, h, hwriting⟩ := h.split rfl
  obtain ⟨s₃, h, hopened⟩ := h.last rfl
  obtain ⟨s₂, h, hquiet⟩ := h.split rfl
  obtain ⟨s₁, -, hboot⟩ := h.last rfl
  have hunwritten : s₂.Unwritten nm := by
    cases hboot with
    | boot => exact fun p fd d hd => by cases hd
  have hunwritten := hquiet.invariant _ hunwritten fun e he s t hs hstep =>
    FlatPower.Step.unwritten hstep (ep.quiet_preserves e he) hs
  -- the file is opened for writing
  obtain ⟨omode, hmode, hopens⟩ := ep.opened_opens
  obtain ⟨f₄, rfl, hwrites, hself⟩ : ∃ f, s₄ = .on f ∧ f.Writes nm p fd [] ∧ ¬ IsSelf nm := by
    generalize ep.opened = e at hopened hopens
    cases hopens with
    | call hproc hcall hmode' hname =>
        cases hopened with
        | call hdoes =>
            rw [hcall] at hdoes
            cases hdoes with
            | «open» hdo =>
                obtain ⟨hwrites, hself⟩ :=
                  Flat.Writes.opened hunwritten hname (hmode' ▸ hmode) hdo
                exact ⟨_, rfl, hproc ▸ hwrites, hself⟩
  obtain ⟨f₅, rfl, hwritten⟩ :=
    FlatPower.writes_path hwriting hwrites ep.writing_preserves ep.writing_returns
  obtain ⟨bytes, hsealed, rest, rfl⟩ :=
    FlatPower.Step.ended hended ep.ended_preserves ep.ended_ends hwritten
  have hsealed := hlater.invariant _ hsealed fun e he s t hs hstep =>
    FlatPower.Step.sealed hstep (ep.later_preserves e he) hs
  -- it is opened for reading
  obtain ⟨omode', hopens'⟩ := ep.reopened_opens
  have hpreserves := ep.reopened_preserves
  obtain ⟨f₈, rfl, hlooks⟩ : ∃ f, s₈ = .on f ∧ f.Looks nm q fd' (ep.written ++ rest) := by
    generalize ep.reopened = e at hreopened hopens' hpreserves
    cases hopens' with
    | call hproc hcall hmode' hname =>
        have hpreserve := hpreserves _ rfl
        unfold UserCall.Preserves at hpreserve
        cases hreopened with
        | call hdoes =>
            rw [hcall] at hdoes hpreserve
            cases hdoes with
            | «open» hdo =>
                have hlooks := Flat.Looks.opened hsealed.2 hsealed.1 hself hname
                  (hpreserve hname) hdo
                exact ⟨_, rfl, hproc ▸ hlooks⟩
  obtain ⟨f, rfl, hf⟩ :=
    FlatPower.looks_path hreading hlooks ep.reading_preserves ep.reading_returns
  exact ⟨f, rest, rfl, hf⟩

/-- A file that one process has written through one descriptor, and closed or lost in a power
cut, begins with what has been written for every process that opens it and reads, whatever the
others do to other files, and however often the power is cut in between. -/
theorem write_read (ep : Episode nm p q fd fd') (hsb : sb.Mountable)
    (hsmall : sb.ninodes ≤ 2 ^ 16)
    (h : (wiredVisible sb files).Traces (ep.labels ++ [.call c r user])) (hproc : c.proc = q)
    (hcall : c.call = .read a₀ a₁ a₂) (hfd : argint a₀ = fd'.val) (hn : 0 ≤ argint a₂) :
    ∃ rest, user = (c.user.put a₁ ((ep.written ++ rest).take (argint a₂).toNat)).2 ∧
      r = if (c.user.put a₁ ((ep.written ++ rest).take (argint a₂).toNat)).1 = true then
        (((ep.written ++ rest).take (argint a₂).toNat).length : ℤ) else -1 := by
  obtain ⟨s, t, -, hpath⟩ := (visible_simulates hsb hsmall).traces (wired_simulates.traces h)
  obtain ⟨u, hepisode, hread⟩ := hpath.last rfl
  obtain ⟨f, rest, rfl, hlooks⟩ := ep.looks hepisode
  cases hread with
  | call hdoes => exact ⟨rest, (hproc ▸ hlooks : f.Looks nm c.proc fd' _).read hdoes hcall hfd hn⟩

end

/-! ## An episode of the machine -/

section
variable {sb : Superblock} {x : Session} {k k' : Machine} {c : UserCall} {r : ℤ} {s : Flat}
  {files : List UInt8 → Option (List UInt8)} {nm bytes : List UInt8} {a₀ a₁ : BitVec 64}
  {p : Fin nproc} {rig : Rig}

/-- A call that cannot fail returns. -/
theorem Power.ShowsFlat.call (hsb : sb.Mountable) (hsmall : sb.ninodes ≤ 2 ^ 16)
    (h : Power.ShowsFlat sb (.on k) (.on s)) (hkeeps : ∀ a₀, c.call ≠ .unlink a₀)
    (hsure : ∀ x, Between sb x (k.enter c) → x.Neat → x.Shows s → ∀ e, ¬ Fault x c.name c.call e) :
    ∃ r k' s', c.prog.run machine (k.enter c) = .ok (r, k') ∧
      Power.ShowsFlat sb (.on k') (.on s') ∧ s.Does c.proc c.user c.call r k'.mem.user s' := by
  obtain ⟨x, hx, hneat, hunshared, hshows⟩ := h
  rcases hx.returns hsb c with ⟨r, k', y, hrun, -, -⟩ | ⟨e, -, hfault⟩
  · have hspares : (x.enter c).SparesOpen c.name c.call := fun a₀ d j hcall =>
      absurd hcall (hkeeps a₀)
    obtain ⟨y, s', hy, hyneat, hyunshared, hyshows, hdoes⟩ :=
      hx.call_shows hsb hsmall hneat hunshared hshows hspares hrun
    exact ⟨r, k', s', hrun, ⟨y, hy, hyneat, hyunshared, hyshows⟩, hdoes⟩
  · exact absurd hfault (hsure _ (hx.enter c) (hneat.enter c) (hshows.enter c) e)

/-- When no descriptor is open the inode cache is empty. -/
theorem Session.Shows.freeSlots (h : x.Shows ⟨files, fun _ _ => none⟩) (hx : x.AtRest) :
    x.mem.freeSlots = ninode := by
  have hclosed (f : Fin nfile) : ¬ 0 < (x.mem.file f).ref := by
    rw [hx.files.counted f]
    have hnone (p : Fin nproc) (fd : Fin nofile) : x.mem.ofile p fd = none :=
      (h.desc p fd).eq_none_iff.mp rfl
    simp [Mem.fdsOn, hnone]
  have hzero (ip : Fin ninode) : (x.mem.inode ip).ref = 0 := by
    have hon : x.mem.filesOn ip = 0 := by
      refine Finset.card_eq_zero.mpr (Finset.filter_eq_empty_iff.mpr fun f _ hf => ?_)
      exact hclosed f hf.1
    have hcount := hx.intact.counted ip
    rw [hon] at hcount
    exact hcount
  have hall : (Finset.univ.filter fun ip => (x.mem.inode ip).ref = 0) = Finset.univ :=
    Finset.filter_true_of_mem fun ip _ => hzero ip
  rw [Mem.freeSlots, hall, Finset.card_univ, Fintype.card_fin]

/-- Opening what exists does not fail. -/
theorem open_sure (hmode : OpenMode.create ⟨a₁.setWidth 32⟩ = false) (hcall : c.call = .open a₀ a₁)
    (hx : Between sb x (k.enter c)) (hneat : x.Neat)
    (hshows : x.Shows ⟨files, fun _ _ => none⟩) {e : Stop} : ¬ Fault x c.name c.call e := by
  intro hfault
  rw [hcall] at hfault
  have hfree := hshows.freeSlots hx.toAtRest
  have hold {d : ℕ} {name : Buffer dirsiz} : x.opens c.name a₀ a₁ ≠ .create d name := by
    intro hnew
    unfold Session.opens at hnew
    split at hnew
    · cases hnew
    · unfold Volume.opens at hnew
      rw [hmode, if_neg Bool.false_ne_true] at hnew
      split at hnew
      · cases hnew
      · split at hnew <;> cases hnew
  cases hfault with
  | slots hwalks hfew =>
      rw [hfree] at hfew
      exact absurd hfew (by decide)
  | typed hwalks hno => exact hno (hneat.typedVolume hx.toAtRest)
  | inodes hnew hnone => exact hold hnew
  | entryBlocks hnew hfull => exact hold hnew
  | entryRange hnew hlong => exact hold hnew

/-- A file of one byte that is not zero has its first block. -/
theorem missing_first {v : Volume} {i off n : ℕ} {b : UInt8} (h : v.contents i = [b])
    (hb : b ≠ 0) (hend : off + n ≤ bsize) : v.missing i (Volume.slotsIn off n) = 0 := by
  have hslot : v.slot i 0 ≠ 0 := by
    intro hzero
    have hbyte : v.byte i 0 = 0 := if_pos hzero
    have hfirst : (v.contents i).head? = some b := congrArg List.head? h
    rw [Volume.contents, Volume.bytes] at hfirst
    cases hsize : (v.node i).size.toNat with
    | zero =>
        rw [hsize] at hfirst
        cases hfirst
    | succ size =>
        rw [hsize, List.range_succ_eq_map] at hfirst
        exact hb (hbyte ▸ (Option.some.inj hfirst).symm)
  refine Finset.card_eq_zero.mpr (Finset.filter_eq_empty_iff.mpr fun k hk hzero => hslot ?_)
  obtain ⟨-, bn, -, ⟨-, hbn⟩, hk⟩ := Finset.mem_filter.mp hk
  have hbn : bn = 0 := by
    change off + n ≤ 1024 at hend
    change bn * 1024 < off + n at hbn
    omega
  subst hbn
  rcases hk with rfl | ⟨hle, -⟩
  · exact hzero
  · exact absurd hle (by decide)

/-- Writing over the first byte of a file does not fail. -/
theorem write_sure {a₂ : BitVec 64} {fd : Fin nofile} {readable : Bool} {b : UInt8}
    (hcall : c.call = .write a₀ a₁ a₂)
    (hx : Between sb x (k.enter c)) (hshows : x.Shows s)
    (hfd : argint a₀ = fd.val)
    (hd : s.desc c.proc fd = some ⟨.file nm, 0, readable, true⟩) (hfile : s.files nm = some [b])
    (hb : b ≠ 0) (hone : (x.mem.taken a₁ (argint a₂).toNat).length = 1) {e : Stop} :
    ¬ Fault x c.name c.call e := by
  intro hfault
  rw [hcall] at hfault
  have hcur : x.mem.cur = c.proc := by
    obtain ⟨order, hrefines⟩ := hx.refines
    exact (congrArg Mem.cur hrefines.mem).symm
  have hopen {fd' : Fin nofile} {f : Fin nfile}
      (htarget : (Syscall.write a₀ a₁ a₂).target x.mem = some (fd', f)) :
      x.Describes f ⟨.file nm, 0, readable, true⟩ := by
    obtain ⟨⟨fd'', d⟩, hflat, rfl, hdesc⟩ :=
      (hshows.target (.write a₀ a₁ a₂)).exists_of_eq_some htarget
    obtain ⟨hd', hfd'⟩ := Flat.target_some hflat
    obtain rfl : fd = fd'' := Fin.ext (Int.ofNat.inj (hfd.symm.trans (Option.some.inj hfd')))
    rw [hcur, hd] at hd'
    exact Option.some.inj hd' ▸ hdesc
  cases hfault with
  | slots hwalks hfew => exact hwalks
  | typed hwalks hno => exact hwalks
  | @blocks _ _ _ fd' f htarget hwritable hin hfull =>
      have hdesc := hopen htarget
      have hcalled : x.volume.called nm = some (x.inumOf f) := hdesc.place.1
      have hcontents : x.volume.contents (x.inumOf f) = [b] := by
        have hstored := hshows.files ▸ hfile
        rw [Volume.files, hcalled, Option.bind_some] at hstored
        split at hstored
        · cases hstored
        · exact Option.some.inj hstored
      have hoff : (x.mem.file f).off = 0 := hdesc.off.symm
      rw [hoff, hone, missing_first hcontents hb (by decide)] at hfull
      exact Nat.not_lt_zero _ hfull
  | @range _ _ _ fd' f htarget hwritable hin hlong =>
      have hoff : (x.mem.file f).off = 0 := (hopen htarget).off.symm
      rw [hoff, hone] at hlong
      exact absurd hlong (by decide)

/-- A call of the machine is one of the driver and the device. -/
theorem call_steps (hready : Virtio.Ready rig.io)
    (hrun : c.prog.run machine (rig.kern.enter c) = .ok (r, k')) :
    ∃ rig' : Rig, rig'.kern = k' ∧ Virtio.Ready rig'.io ∧
      Wiring.Step (.on rig) (.call c r k'.mem.user) (.on rig') := by
  obtain ⟨rig', hsteps, hwired⟩ := engine_implements.runs (wired_enter hready c) hrun
  obtain rfl := hwired.kern
  exact ⟨rig', rfl, hwired.ready, .call hsteps⟩

/-- What opening the file `/x` does when no descriptor is open. -/
theorem opens_x (hmode : OpenMode.create ⟨a₁.setWidth 32⟩ = false)
    (hfile : files [120] = some bytes) :
    Flat.doOpen ⟨files, fun _ _ => none⟩ p slashX 0 a₁ =
      (3, Flat.setDesc ⟨files, fun _ _ => none⟩ p 3 (some ⟨.file [120], 0,
        !OpenMode.wronly ⟨a₁.setWidth 32⟩, OpenMode.writes ⟨a₁.setWidth 32⟩⟩)) := by
  have hpath : slashX.path 0 = some [slash, 120] := rfl
  have hnames : pathNames [slash, 120] = [[120]] := rfl
  have hself : ¬ ∀ nm ∈ [[(120 : UInt8)]], IsSelf nm := by decide
  have hlast : lastName [[(120 : UInt8)]] = some [120] := by decide
  have hleads : Flat.leadsTo ⟨files, fun _ _ => none⟩ [[120]] = some (.file [120]) := by
    have hsome : files [120] ≠ none := hfile ▸ Option.some_ne_none bytes
    rw [Flat.leadsTo, if_neg hself, hlast, Option.bind_some]
    exact if_neg hsome
  have hfinds : Flat.finds ⟨files, fun _ _ => none⟩ [slash, 120] ⟨a₁.setWidth 32⟩ =
      some (.file [120], ⟨files, fun _ _ => none⟩) := by
    rw [Flat.finds, hmode, if_neg Bool.false_ne_true, hnames, hleads, Option.bind_some]
    exact if_neg fun hdir => by cases hdir.1
  have hfull : ¬ Flat.Full ⟨files, fun _ _ => none⟩ := by
    simp [Flat.Full, nfile]
  have hfree : Flat.freeFd ⟨files, fun _ _ => none⟩ p = some 3 := rfl
  rw [Flat.doOpen, hpath, Option.bind_some, hfinds]
  simp only [Flat.take, if_neg hfull, hfree]
  rfl

end

namespace Mkfs

/-- A root directory with the file `x`, of one byte. -/
def fileCalls : List Call :=
  mainCalls ++ [.ialloc tFile, .iappend rootino (Dirent.encode ⟨2, Buffer.zero.write 0 [120]⟩),
    .iappend 2 [104]]

/-- The entries of the root directory. -/
def fileEntries : List Dirent := mainEntries ++ [⟨2, Buffer.zero.write 0 [120]⟩]

theorem make_file : ∃ img, make fileCalls = .ok img := by
  have hok : (make fileCalls).isOk = true := rfl
  cases hmake : make fileCalls with
  | error e =>
      rw [hmake] at hok
      cases hok
  | ok img => exact ⟨img, rfl⟩

theorem file_allowed : Allowed {} fileCalls :=
  ⟨⟨by decide, by decide⟩, ⟨by decide, by decide⟩, ⟨by decide, by decide⟩, ⟨by decide, by decide⟩,
    ⟨by decide, by decide⟩, ⟨by decide, by decide⟩, trivial⟩

theorem file_oneDir : OneDir (Record.of fileCalls) fileEntries where
  root := rfl
  only i hi := by
    obtain ⟨j, rfl⟩ : ∃ j, i = j + 2 := ⟨i - 2, by omega⟩
    cases j with
    | zero => decide
    | succ j => exact show (0 : BitVec 16) ≠ tDir by decide
  bytes := rfl
  inums := by decide
  names := by decide
  once i hlo hhi := by
    have hlen : (Record.of fileCalls).types.length = 2 := rfl
    obtain rfl : i = 2 := by omega
    decide

theorem fileEntries_selves (nm : List UInt8) :
    (∃ de ∈ fileEntries, de.inum = rootino ∧ cut de.name = nm) ↔ IsSelf nm := by
  rw [← mainEntries_selves]
  refine exists_congr fun de => ?_
  rw [fileEntries, List.mem_append, List.mem_singleton]
  constructor
  · intro hentry
    obtain ⟨hold | rfl, hroot, hname⟩ := hentry
    · exact ⟨hold, hroot, hname⟩
    · exact absurd hroot (by decide)
  · intro hentry
    exact ⟨.inl hentry.1, hentry.2⟩

end Mkfs

/-- Process 0 opens the file for writing and writes a byte; process 1 reads it. -/
def openX : UserCall := ⟨0, slashX, Buffer.zero, .open 0 2⟩
def writeX : UserCall := ⟨0, slashX, Buffer.zero, .write 3 0 1⟩
def closeX : UserCall := ⟨0, slashX, Buffer.zero, .close 3⟩
def reopenX : UserCall := ⟨1, slashX, Buffer.zero, .open 0 0⟩
def readX : UserCall := ⟨1, slashX, Buffer.zero, .read 3 0 1⟩

/-- The power is cut before the file is closed. -/
def episodeX (r : ℤ) (u₁ u₂ u₃ : UserBytes) : Episode [120] 0 1 3 3 where
  before := []
  quiet := []
  opened := .call openX 3 u₁
  writing := [.call writeX r u₂]
  ended := .cut closeX
  later := [.boot]
  reopened := .call reopenX 3 u₃
  reading := []
  quiet_preserves e he := by cases he
  opened_opens := ⟨⟨2⟩, by decide, .call rfl rfl rfl rfl⟩
  writing_preserves e he := by
    obtain rfl := List.mem_singleton.mp he
    intro c hc
    obtain rfl := Option.some.inj hc
    trivial
  writing_returns e he := by
    obtain rfl := List.mem_singleton.mp he
    exact ⟨_, _, _, rfl, fun _ => ⟨3, 0, 1, rfl⟩⟩
  ended_preserves c hc := by
    obtain rfl := Option.some.inj hc
    trivial
  ended_ends := .cut
  later_preserves e he := by
    obtain rfl := List.mem_singleton.mp he
    intro c hc
    cases hc
  reopened_preserves c hc := by
    obtain rfl := Option.some.inj hc
    intro _
    decide
  reopened_opens := ⟨⟨0⟩, .call rfl rfl rfl rfl⟩
  reading_preserves e he := by cases he
  reading_returns e he := by cases he

/-- The image can be booted and the file opened. -/
theorem boot_opens {files : List UInt8 → Option (List UInt8)} {d : ℕ → Block} {bytes : List UInt8}
    {c : UserCall} {a₁ : BitVec 64} (h : Power.HasFiles Mkfs.layoutSb files (.off d))
    (hfile : files [120] = some bytes) (hmode : OpenMode.create ⟨a₁.setWidth 32⟩ = false)
    (huser : c.user = slashX) (hcall : c.call = .open 0 a₁) :
    ∃ c₀ c₁ : Rig, Virtio.Ready c₁.io ∧ Wiring.Step (.off d) .boot (.on c₀) ∧
      Wiring.Step (.on c₀) (.call c 3 c₁.kern.mem.user) (.on c₁) ∧
      Power.ShowsFlat Mkfs.layoutSb (.on c₁.kern)
        (.on (Flat.setDesc ⟨files, fun _ _ => none⟩ c.proc 3 (some ⟨.file [120], 0,
          !OpenMode.wronly ⟨a₁.setWidth 32⟩, OpenMode.writes ⟨a₁.setWidth 32⟩⟩))) := by
  have hsmall : Mkfs.layoutSb.ninodes ≤ 2 ^ 16 := by decide
  obtain ⟨k₀, hk₀⟩ : ∃ k, mount.run machine (bootMachine d) = .ok ((), k) := by
    cases h with
    | stored hstored htidy =>
        obtain ⟨x, k, hrun, -⟩ := hstored.mounts layoutSb_mountable htidy
        exact ⟨k, hrun⟩
  obtain ⟨c₀, rfl, hsteps⟩ := boot_steps hk₀
  have hboot : Wiring.Step (.off d) .boot (.on c₀) := .boot resetIo_reset hsteps
  have hready : Virtio.Ready c₀.io := Wiring.Step.rests (w := .off d) trivial hboot
  obtain ⟨r, k₁, s₁, hrun, hshows, hdoes⟩ :=
    Power.ShowsFlat.call (c := c) (s := ⟨files, fun _ _ => none⟩) layoutSb_mountable hsmall
      (Power.HasFiles.boot layoutSb_mountable h hk₀) (fun a₀ hunlink => by
        rw [hcall] at hunlink
        cases hunlink)
      fun x hx hneat hshows e => open_sure hmode hcall hx hneat hshows
  obtain ⟨c₁, rfl, hready₁, hopen⟩ := call_steps hready hrun
  rw [hcall, huser] at hdoes
  generalize c₁.kern.mem.user = u at hdoes
  cases hdoes with
  | «open» hdo =>
      rw [opens_x hmode hfile] at hdo
      obtain ⟨rfl, rfl⟩ := Prod.mk.inj hdo
      exact ⟨c₀, c₁, hready₁, hboot, hopen, hshows⟩
  | idle hwalks htarget => exact absurd trivial hwalks

theorem write_read_file : ∃ (files : List UInt8 → Option (List UInt8)) (r r' : ℤ)
    (u₁ u₂ u₃ u₄ : UserBytes),
    (wiredVisible Mkfs.layoutSb files).Traces
      ((episodeX r u₁ u₂ u₃).labels ++ [.call readX r' u₄]) ∧
    (episodeX r u₁ u₂ u₃).written = [slash] ∧
    ∃ rest, u₄ = (slashX.put 0 (([slash] ++ rest).take 1)).2 ∧
      r' = if (slashX.put 0 (([slash] ++ rest).take 1)).1 = true then
        ((([slash] ++ rest).take 1).length : ℤ) else -1 := by
  have hsmall : Mkfs.layoutSb.ninodes ≤ 2 ^ 16 := by decide
  obtain ⟨img, hmake⟩ := Mkfs.make_file
  have hfiles := mkfs_shows Mkfs.file_allowed hmake Mkfs.file_oneDir Mkfs.fileEntries_selves
  have hfile : (Mkfs.Record.of Mkfs.fileCalls).files Mkfs.fileEntries [120] = some [104] := by
    decide
  generalize (Mkfs.Record.of Mkfs.fileCalls).files Mkfs.fileEntries = files at hfiles hfile
  obtain ⟨c₀, c₁, hready₁, hboot, hopen, hshows₁⟩ :=
    boot_opens (c := openX) hfiles hfile (by decide) rfl rfl
  -- a byte is written
  have hd : (Flat.setDesc ⟨files, fun _ _ => none⟩ 0 3 (some ⟨.file [120], 0, true, true⟩)).desc
      writeX.proc 3 = some ⟨.file [120], 0, true, true⟩ := Flat.setDesc_same ..
  have hwrites : (Flat.setDesc ⟨files, fun _ _ => none⟩ 0 3
      (some ⟨.file [120], 0, true, true⟩)).Writes [120] 0 3 [] := by
    refine ⟨le_rfl, ⟨true, hd⟩, ⟨[104], hfile, List.nil_prefix⟩, fun q fd d hq _ _ => ?_⟩
    by_cases hat : q = 0 ∧ fd = 3
    · exact hat
    · rw [Flat.setDesc_of_ne _ hat] at hq
      cases hq
  obtain ⟨r, k₂, s₂, hrun₂, hshows₂, hdoes₂⟩ :=
    Power.ShowsFlat.call (c := writeX) layoutSb_mountable hsmall hshows₁
      (fun a₀ hunlink => by cases hunlink) fun x hx hneat hshows e => by
        refine write_sure rfl hx hshows rfl hd hfile (by decide) ?_
        obtain ⟨order, hrefines⟩ := hx.refines
        rw [← hrefines.mem]
        rfl
  obtain ⟨c₂, rfl, hready₂, hwrite⟩ := call_steps hready₁ hrun₂
  have hwritten := hwrites.call hdoes₂ trivial fun _ => ⟨3, 0, 1, rfl⟩
  -- the power is cut
  have hspares₂ : c₂.kern.SparesOpen Mkfs.layoutSb closeX := fun a₀ path d e hcall => by
    cases hcall
  obtain ⟨x₂, hx₂, hneat₂, hunshared₂, hxs₂⟩ := hshows₂
  obtain ⟨files', hcut, hfiles'⟩ := hx₂.cut_shows layoutSb_mountable hsmall hneat₂ hunshared₂
    hxs₂ (hx₂.sparesOpen hspares₂) (.here closeX.prog (c₂.kern.enter closeX))
  obtain ⟨bytes, hfile', -⟩ : ∃ bytes, files' [120] = some bytes ∧ _ :=
    FlatPower.Step.ended hcut (episodeX 0 slashX slashX slashX).ended_preserves .cut hwritten
  have hcutStep : Wiring.Step (.on c₂) (.cut closeX) (.off (c₂.kern.enter closeX).disk) :=
    .cut (s := .code closeX.prog (c₂.enter closeX)) .refl
  -- it is read
  obtain ⟨c₃, c₄, hready₄, hboot', hreopen, hshows₄⟩ :=
    boot_opens (c := reopenX) hfiles' hfile' (by decide) rfl rfl
  obtain ⟨r', k₅, s₅, hrun₅, -, -⟩ :=
    Power.ShowsFlat.call (c := readX) layoutSb_mountable hsmall hshows₄
      (fun a₀ hunlink => by cases hunlink) fun x hx hneat hshows e hfault => by
        cases hfault with
        | slots hwalks hfew => exact hwalks
        | typed hwalks hno => exact hwalks
  obtain ⟨c₅, rfl, -, hread⟩ := call_steps hready₄ hrun₅
  have hcalm {w : Wiring} {seen : Seen} (hno : ∀ a₀, seen.made.map UserCall.call ≠ some (.unlink a₀)) :
      Power.Calm Mkfs.layoutSb w.plain seen.event := by
    cases w with
    | off d => trivial
    | on c =>
        cases seen with
        | call u r user => exact fun a₀ path d e hcall => absurd (congrArg some hcall) (hno a₀)
        | cut u => exact fun a₀ path d e hcall => absurd (congrArg some hcall) (hno a₀)
        | boot => trivial
        | cutBoot => trivial
  have hpath : (wiredVisible Mkfs.layoutSb files).Path (.off img.disk)
      ([] ++ [.boot] ++ [.call openX 3 c₁.kern.mem.user] ++ [.call writeX r c₂.kern.mem.user] ++
        [.cut closeX] ++ [.boot] ++ [.call reopenX 3 c₄.kern.mem.user] ++
          [.call readX r' c₅.kern.mem.user]) (.on c₅) := by
    refine .snoc (.snoc (.snoc (.snoc (.snoc (.snoc (.snoc .refl ⟨hcalm ?_, hboot⟩)
      ⟨hcalm ?_, hopen⟩) ⟨hcalm ?_, hwrite⟩) ⟨hcalm ?_, hcutStep⟩) ⟨hcalm ?_, hboot'⟩)
        ⟨hcalm ?_, hreopen⟩) ⟨hcalm ?_, hread⟩
    all_goals
      intro a₀ hunlink
      cases hunlink
  have htrace : (wiredVisible Mkfs.layoutSb files).Traces
      ((episodeX r c₁.kern.mem.user c₂.kern.mem.user c₄.kern.mem.user).labels ++
        [.call readX r' c₅.kern.mem.user]) := ⟨_, _, ⟨_, rfl, hfiles⟩, hpath⟩
  have hwrote : (episodeX r c₁.kern.mem.user c₂.kern.mem.user c₄.kern.mem.user).written =
      [slash] := rfl
  refine ⟨files, r, r', _, _, _, _, htrace, hwrote, ?_⟩
  exact write_read (episodeX r c₁.kern.mem.user c₂.kern.mem.user c₄.kern.mem.user)
    layoutSb_mountable hsmall htrace rfl rfl rfl (by decide)

end RiscvOs
