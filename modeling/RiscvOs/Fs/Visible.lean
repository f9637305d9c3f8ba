import RiscvOs.Fs.Serves

/-!
# What users see of a run

`visible sb files` is the machine of `Fs/Calm.lean` with its power supply, started on a disk that
stores certain files under one directory, where a call shows what it returns and leaves in user
memory.  Whatever is seen of a run of it is seen of a run of the flat file system that starts with
these files (`visible_flat`): the buffer cache, the log, the inodes and the bitmap do not show, and
a power cut shows only as the loss of the descriptors and of a part of the call that was cut.

The disk may be one that `mkfs` has made, which stores the files it has been given
(`OneDir.files`).
-/

namespace RiscvOs

open Effect Bytes Kern Bio

/-! ## Runs with what is seen of them -/

/-- A disk with one directory and certain files. -/
inductive Power.HasFiles (sb : Superblock) (files : List UInt8 → Option (List UInt8)) :
    Power → Prop
  | stored {v : Volume} {d : ℕ → Block} (hstored : Stored sb v d) (htidy : v.Tidy sb)
      (hkept : v.Kept sb.ninodes sb.datastart sb.size) (hrooted : v.Rooted)
      (hfiles : v.files = files) : HasFiles sb files (.off d)

/-- One event as users see it. -/
inductive Power.Shown (sb : Superblock) : Power → Seen → Power → Prop
  | call {k k' : Machine} {c : UserCall} {r : ℤ} (hspares : k.SparesOpen sb c)
      (hrun : c.prog.run machine (k.enter c) = .ok (r, k')) :
      Shown sb (.on k) (.call c r k'.mem.user) (.on k')
  | cut {k t : Machine} {c : UserCall} (hspares : k.SparesOpen sb c)
      (hvisit : Prog.Visits machine c.prog (k.enter c) t) :
      Shown sb (.on k) (.cut c) (.off t.disk)
  | boot {d : ℕ → Block} {k : Machine} (hrun : mount.run machine (bootMachine d) = .ok ((), k)) :
      Shown sb (.off d) .boot (.on k)
  | cutBoot {d d' : ℕ → Block} (hcut : CutBoot d d') : Shown sb (.off d) .cutBoot (.off d')

/-- All runs that remove no open file, with what is seen of them. -/
def visible (sb : Superblock) (files : List UInt8 → Option (List UInt8)) : System Power Seen :=
  ⟨Power.HasFiles sb files, Power.Shown sb⟩

/-- The event that is seen. -/
def Seen.event : Seen → PowerEvent
  | .call c _ _ => .call c
  | .cut c => .cut c
  | .boot => .boot
  | .cutBoot => .cutBoot

/-- Every event of a calm run shows as something. -/
theorem Power.shown_iff {sb : Superblock} {s u : Power} {e : PowerEvent} :
    (calmPowers sb).step s e u ↔ ∃ seen : Seen, seen.event = e ∧ Power.Shown sb s seen u := by
  constructor
  · intro hstep
    obtain ⟨hcalm, hstep⟩ := hstep
    cases hstep with
    | call hrun => exact ⟨_, rfl, .call hcalm hrun⟩
    | cut hvisit => exact ⟨_, rfl, .cut hcalm hvisit⟩
    | boot hrun => exact ⟨_, rfl, .boot hrun⟩
    | cutBoot hcut => exact ⟨_, rfl, .cutBoot hcut⟩
  · intro hseen
    obtain ⟨seen, rfl, hshown⟩ := hseen
    cases hshown with
    | call hspares hrun => exact ⟨hspares, .call hrun⟩
    | cut hspares hvisit => exact ⟨hspares, .cut hvisit⟩
    | boot hrun => exact ⟨trivial, .boot hrun⟩
    | cutBoot hcut => exact ⟨trivial, .cutBoot hcut⟩

/-! ## The simulation -/

/-- The flat file system is what the machine holds, or what its disk does. -/
def Power.ShowsFlat (sb : Superblock) : Power → FlatPower → Prop
  | .on k, .on s => ∃ x, Between sb x k ∧ x.Neat ∧ x.mem.Unshared ∧ x.Shows s
  | .off d, .off files => Power.HasFiles sb files (.off d)
  | _, _ => False

section
variable {sb : Superblock} {x y : Session} {k k' t : Machine} {c : UserCall} {s : Flat}
  {files : List UInt8 → Option (List UInt8)} {r : ℤ}

/-- Another process may run between two calls. -/
theorem Session.Shows.enter (h : x.Shows s) (c : UserCall) : (x.enter c).Shows s :=
  ⟨h.rooted, h.files, fun p fd => (h.desc p fd).imp fun _ _ _ hd =>
    ⟨hd.place, hd.off, hd.readable, hd.writable, hd.within⟩⟩

/-- The call is made in an orderly session. -/
theorem Between.orderly (h : Between sb x k) (hsmall : sb.ninodes ≤ 2 ^ 16) (hneat : x.Neat)
    (hunshared : x.mem.Unshared) (c : UserCall) : (x.enter c).Orderly where
  toAtRest := (h.enter c).toAtRest
  toNeat := hneat.enter c
  small := by
    rw [(h.enter c).sb_eq]
    exact hsmall
  unshared := hunshared.congr rfl

/-- A call of the machine is one of the flat file system. -/
theorem Between.call_shows (hsb : sb.Mountable) (hsmall : sb.ninodes ≤ 2 ^ 16)
    (h : Between sb x k) (hneat : x.Neat) (hunshared : x.mem.Unshared) (hshows : x.Shows s)
    (hspares : (x.enter c).SparesOpen c.name c.call)
    (hrun : c.prog.run machine (k.enter c) = .ok (r, k')) :
    ∃ y s', Between sb y k' ∧ y.Neat ∧ y.mem.Unshared ∧ y.Shows s' ∧
      s.Does c.proc c.user c.call r k'.mem.user s' := by
  have horderly := h.orderly hsmall hneat hunshared c
  obtain ⟨y, hy, houtcome⟩ := h.call hsb hrun
  obtain ⟨order, hrefines⟩ := hy.refines
  obtain ⟨s', hdoes, hshows'⟩ := houtcome.serves horderly (hshows.enter c) hspares
  rw [← show k'.mem.user = y.mem.user from congrArg Mem.user hrefines.mem] at hdoes
  exact ⟨y, s', hy, houtcome.neat horderly.toAtRest horderly.small horderly.toNeat hspares,
    houtcome.unshared horderly.files horderly.unshared, hshows', hdoes⟩

/-- The files of a machine are those of its disk. -/
theorem Between.hasFiles (h : Between sb x k) (hneat : x.Neat) (hshows : x.Shows s)
    {d : ℕ → Block} (hstored : Stored sb x.volume d) :
    Power.HasFiles sb s.files (.off d) := by
  have hkept := hneat.kept
  rw [h.sb_eq] at hkept
  exact .stored hstored h.toDurable.tidy hkept hshows.rooted hshows.files.symm

/-- A power cut leaves the files before the call, or after a first part of it. -/
theorem Between.cut_shows (hsb : sb.Mountable) (hsmall : sb.ninodes ≤ 2 ^ 16)
    (h : Between sb x k) (hneat : x.Neat) (hunshared : x.mem.Unshared) (hshows : x.Shows s)
    (hspares : (x.enter c).SparesOpen c.name c.call)
    (hvisit : Prog.Visits machine c.prog (k.enter c) t) :
    ∃ files, FlatPower.Step (.on s) (.cut c) (.off files) ∧
      Power.HasFiles sb files (.off t.disk) := by
  rcases h.cut hsb hvisit with hold | ⟨part, r, w, hpart, hrun, hnew⟩
  · exact ⟨s.files, .cutBefore, h.hasFiles hneat hshows hold⟩
  · obtain ⟨k', hmachine, hk'⟩ := (h.enter c).runs hsb hrun
    obtain ⟨y, s', hy, hyneat, -, hyshows, hdoes⟩ :=
      h.call_shows (c := { c with call := part }) hsb hsmall hneat hunshared hshows
        (hspares.part hpart) hmachine
    refine ⟨s'.files, .cutAfter hpart hdoes, hy.hasFiles hyneat hyshows ?_⟩
    rw [← hy.volume, hk'.volume]
    exact hnew

/-- After a boot no descriptor is open. -/
theorem Power.HasFiles.boot (hsb : sb.Mountable) {d : ℕ → Block}
    (h : Power.HasFiles sb files (.off d))
    (hrun : mount.run machine (bootMachine d) = .ok ((), k)) :
    ∃ x, Between sb x k ∧ x.Neat ∧ x.mem.Unshared ∧ x.Shows ⟨files, fun _ _ => none⟩ := by
  cases h with
  | stored hstored htidy hkept hrooted hfiles =>
      obtain ⟨x, k', hmount, hrefines, hdurable, hvolume, hmem⟩ := hstored.mounts hsb htidy
      rw [hmount] at hrun
      obtain ⟨-, rfl⟩ := Prod.mk.inj (Except.ok.inj hrun)
      have hofile (p : Fin nproc) (fd : Fin nofile) : x.mem.ofile p fd = none := by
        rw [hmem]
      refine ⟨x, ⟨hdurable, hrefines⟩, ⟨?_, fun f hf => ?_⟩, fun f => ?_, ?_, ?_, fun p fd => ?_⟩
      · rw [hvolume, hdurable.sb_eq]
        exact hkept
      · have hclosed : ¬ 0 < ({} : File).ref := by decide
        rw [hmem] at hf
        exact absurd hf hclosed
      · simp [Mem.fdsOn, hofile]
      · rw [hvolume]
        exact hrooted
      · rw [hvolume]
        exact hfiles.symm
      · rw [hofile]
        exact .none

/-- The flat file system follows every step. -/
theorem visible_simulates (hsb : sb.Mountable) (hsmall : sb.ninodes ≤ 2 ^ 16) :
    (visible sb files).Simulates (flat files) (Power.ShowsFlat sb) where
  init u hinit := by
    cases hinit with
    | stored hstored htidy hkept hrooted hfiles =>
        exact ⟨.off files, rfl, .stored hstored htidy hkept hrooted hfiles⟩
  step u w seen u' hshows hstep := by
    cases hstep with
    | call hspares hrun =>
        cases w with
        | off files' => exact hshows.elim
        | on s =>
            obtain ⟨x, hx, hneat, hunshared, hxs⟩ := hshows
            obtain ⟨y, s', hy, hyneat, hyunshared, hys, hdoes⟩ :=
              hx.call_shows hsb hsmall hneat hunshared hxs (hx.sparesOpen hspares) hrun
            exact ⟨.on s', .call hdoes, y, hy, hyneat, hyunshared, hys⟩
    | cut hspares hvisit =>
        cases w with
        | off files' => exact hshows.elim
        | on s =>
            obtain ⟨x, hx, hneat, hunshared, hxs⟩ := hshows
            obtain ⟨files', hstep, hfiles⟩ :=
              hx.cut_shows hsb hsmall hneat hunshared hxs (hx.sparesOpen hspares) hvisit
            exact ⟨.off files', hstep, hfiles⟩
    | boot hrun =>
        cases w with
        | on s => exact hshows.elim
        | off files' => exact ⟨.on _, .boot, Power.HasFiles.boot hsb hshows hrun⟩
    | cutBoot hcut =>
        cases w with
        | on s => exact hshows.elim
        | off files' =>
            have hfiles : Power.HasFiles sb files' (.off _) := hshows
            obtain ⟨t, hvisit, rfl⟩ := hcut
            cases hfiles with
            | stored hstored htidy hkept hrooted hfiles =>
                exact ⟨.off files', .cutBoot,
                  .stored (hstored.cut_mount hsb hvisit) htidy hkept hrooted hfiles⟩

end

/-! ## The images of `mkfs` -/

/-- The file with a name among the entries of the one directory. -/
def Mkfs.Record.files (r : Mkfs.Record) (es : List Dirent) (nm : List UInt8) :
    Option (List UInt8) :=
  ((es.find? fun de => de.inum ≠ 0 ∧ cut de.name = nm).filter fun de => de.inum ≠ rootino).map
    fun de => r.bytes de.inum

namespace Mkfs.OneDir

variable {r : Record} {v : Volume} {es : List Dirent} {nm : List UInt8} {i : ℕ}

/-- The root directory says what the entries do. -/
theorem called_iff (h : OneDir r es) (hsaid : Says v r) (hplain : Plain v) (hheld : Held v) :
    v.called nm = some i ↔ ∃ de ∈ es, de.inum = i ∧ i ≠ 0 ∧ cut de.name = nm := by
  have hroot : rootino < layoutSb.ninodes := by decide
  have htype : (v.node rootino).type = tDir := (h.dir_iff hsaid hplain).mpr rfl
  have hget {k : ℕ} (hk : k < es.length) : v.entry rootino k = es.get ⟨k, hk⟩ := by
    rw [h.entry hsaid hk]
    exact List.getD_eq_getElem _ _ hk
  constructor
  · intro hcalled
    obtain ⟨k, hk, hinum, hlive, hname⟩ := Volume.called_some hcalled
    rw [h.entries hsaid] at hk
    rw [hget hk] at hinum hname
    exact ⟨_, List.get_mem es ⟨k, hk⟩, hinum, hlive, hname⟩
  · intro hentry
    obtain ⟨de, hde, rfl, hlive, rfl⟩ := hentry
    obtain ⟨⟨k, hk⟩, rfl⟩ := List.mem_iff_get.mp hde
    have hdistinct := (h.kept hsaid hplain hheld).distinct rootino hroot htype
    have hcalled := hdistinct.called_entry (k := k) (by rw [h.entries hsaid]; exact hk)
      (by rw [hget hk]; exact hlive)
    rw [hget hk] at hcalled
    exact hcalled

/-- The image stores the files it has been given. -/
theorem files (h : OneDir r es) (hsaid : Says v r) (hplain : Plain v) (hheld : Held v) :
    v.files = r.files es := by
  funext nm
  rw [Volume.files, Record.files]
  cases hfind : es.find? fun de => de.inum ≠ 0 ∧ cut de.name = nm with
  | none =>
      have hnone : v.called nm = none := by
        refine Option.eq_none_iff_forall_ne_some.mpr fun i hi => ?_
        obtain ⟨de, hde, rfl, hlive, hname⟩ := (h.called_iff hsaid hplain hheld).mp hi
        have hno := List.find?_eq_none.mp hfind de hde
        exact hno (decide_eq_true ⟨hlive, hname⟩)
      rw [hnone]
      rfl
  | some de =>
      have hde := List.mem_of_find?_eq_some hfind
      obtain ⟨hlive, hname⟩ : de.inum ≠ 0 ∧ cut de.name = nm := by
        simpa using List.find?_some hfind
      have hcalled : v.called nm = some de.inum :=
        (h.called_iff hsaid hplain hheld).mpr ⟨de, hde, rfl, hlive, hname⟩
      rw [hcalled, Option.bind_some]
      by_cases hroot : de.inum = rootino
      · rw [if_pos ((h.dir_iff hsaid hplain).mpr hroot)]
        simp [Option.filter, hroot]
      · have hnode := hsaid.node de.inum (Nat.one_le_iff_ne_zero.mpr hlive) (h.inums de hde)
        rw [if_neg (mt (h.dir_iff hsaid hplain).mp hroot), hnode.contents]
        simp [Option.filter, hroot]

/-- The names that lead back to the directory. -/
theorem rooted (h : OneDir r es) (hsaid : Says v r) (hplain : Plain v) (hheld : Held v)
    (hselves : ∀ nm, (∃ de ∈ es, de.inum = rootino ∧ cut de.name = nm) ↔ IsSelf nm) :
    v.Rooted where
  only i htype := (h.dir_iff hsaid hplain).mp htype
  selves nm := by
    refine (h.called_iff hsaid hplain hheld).trans (Iff.trans ?_ (hselves nm))
    refine exists_congr fun de => and_congr_right fun _ => and_congr_right fun _ => ?_
    exact and_iff_right (by decide)

end Mkfs.OneDir

section
variable {calls : List Mkfs.Call} {img : Mkfs.Image} {es : List Dirent}

/-- A run starts from such an image. -/
theorem mkfs_shows (hallowed : Mkfs.Allowed {} calls) (hmake : Mkfs.make calls = .ok img)
    (hone : Mkfs.OneDir (Mkfs.Record.of calls) es)
    (hselves : ∀ nm, (∃ de ∈ es, de.inum = rootino ∧ cut de.name = nm) ↔ IsSelf nm) :
    Power.HasFiles Mkfs.layoutSb ((Mkfs.Record.of calls).files es) (.off img.disk) := by
  have hsaid := (Mkfs.made_of_make hallowed hmake).recorded
  have hplain := Mkfs.plain_of_make hallowed hmake
  have hheld := Mkfs.held_of_make hallowed hmake
  obtain ⟨hstored, htidy⟩ :=
    mkfs_stored hallowed hmake hone.root hone.only hone.bytes hone.inums
  exact .stored hstored htidy (hone.kept hsaid hplain hheld)
    (hone.rooted hsaid hplain hheld hselves) (hone.files hsaid hplain hheld)

end

/-- The entries that `main` makes. -/
def Mkfs.mainEntries : List Dirent :=
  [⟨rootino, Buffer.zero.write 0 [dot]⟩, ⟨rootino, Buffer.zero.write 0 [dot, dot]⟩]

theorem Mkfs.mainEntries_selves (nm : List UInt8) :
    (∃ de ∈ Mkfs.mainEntries, de.inum = rootino ∧ cut de.name = nm) ↔ IsSelf nm := by
  have hdot : cut (Buffer.zero.write 0 [dot] : Buffer dirsiz) = [dot] := by decide
  have hdots : cut (Buffer.zero.write 0 [dot, dot] : Buffer dirsiz) = [dot, dot] := by decide
  simp only [Mkfs.mainEntries, List.mem_cons, List.not_mem_nil, or_false, exists_eq_or_imp,
    exists_eq_left, true_and, hdot, hdots]
  exact or_congr eq_comm eq_comm

section
variable {sb : Superblock} {files : List UInt8 → Option (List UInt8)} {labels : List Seen}

end

end RiscvOs
