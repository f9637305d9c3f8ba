import RiscvOs.Fs.Flat
import RiscvOs.Fs.Names

/-!
# Paths in the only directory

Where the root is the only directory, a path leads to the directory itself if all its names are
`.` and `..`, and to the file with its last name if the names before it are.  So what `namei`,
`nameiparent`, `sys_open` and `sys_unlink` find of a path is what the flat file system says.
-/

namespace RiscvOs

open Effect Bytes Kern Bio

/-! ## Paths -/

namespace Volume

/-- The place is that of inode `i`. -/
def Locates (v : Volume) : Place → ℕ → Prop
  | .dir, i => i = rootino
  | .file nm, i => v.called nm = some i ∧ i ≠ rootino

section
variable {v : Volume} {s : Flat} {cs : List (List UInt8)} {c path : List UInt8} {i : ℕ}
  {place : Place} {name : Buffer dirsiz} {omode : OpenMode}

theorem Rooted.dir_iff (h : v.Rooted) (hroot : (v.node rootino).type = tDir)
    (hplace : v.Locates place i) : (v.node i).type = tDir ↔ place = .dir := by
  cases place with
  | dir =>
      obtain rfl : i = rootino := hplace
      exact iff_of_true hroot rfl
  | file nm =>
      refine iff_of_false (fun htype => hplace.2 (h.only i htype)) fun heq => ?_
      cases heq

theorem follow_concat (cs : List (List UInt8)) (c : List UInt8) :
    v.follow i (cs ++ [c]) = (v.follow i cs).bind fun j => v.child j c := by
  have hone (j : ℕ) : List.foldlM v.child j [c] = v.child j c := by
    rw [List.foldlM_cons]
    exact bind_pure _
  rw [follow, List.foldlM_append]
  exact congrArg _ (funext hone)

/-- A child is one of the root directory. -/
theorem Rooted.child_some (h : v.Rooted) {d : ℕ} (hchild : v.child d c ≠ none) : d = rootino := by
  refine h.only d ?_
  by_contra htype
  exact hchild (child_eq_none.mpr (.inl htype))

/-- Names lead back to the directory if each of them does. -/
theorem Rooted.follow_self (h : v.Rooted) (hroot : (v.node rootino).type = tDir) :
    v.follow rootino cs = some rootino ↔ ∀ c ∈ cs, IsSelf (c.take dirsiz) := by
  induction cs using List.reverseRecOn with
  | nil => exact iff_of_true rfl fun c hc => absurd hc List.not_mem_nil
  | append_singleton cs c ih =>
      rw [follow_concat]
      constructor
      · intro hfollow
        obtain ⟨j, hj, hchild⟩ := Option.bind_eq_some_iff.mp hfollow
        obtain rfl := h.child_some (by rw [hchild]; exact Option.some_ne_none _)
        rw [child_root hroot] at hchild
        intro c' hc'
        rcases List.mem_append.mp hc' with hold | hnew
        · exact ih.mp hj c' hold
        · rw [List.mem_singleton.mp hnew]
          exact (h.selves _).mp hchild
      · intro hall
        rw [ih.mpr fun c' hc' => hall c' (List.mem_append_left _ hc'), Option.bind_some,
          child_root hroot]
        exact (h.selves _).mpr (hall c (List.mem_append_right _ (List.mem_singleton.mpr rfl)))

/-- The last of some names is looked up if those before it lead back to the directory. -/
theorem Rooted.follow_last (h : v.Rooted) (hroot : (v.node rootino).type = tDir) :
    v.follow rootino (cs ++ [c]) =
      if ∀ c ∈ cs, IsSelf (c.take dirsiz) then v.called (c.take dirsiz) else none := by
  rw [follow_concat]
  by_cases hall : ∀ c ∈ cs, IsSelf (c.take dirsiz)
  · rw [if_pos hall, (h.follow_self hroot).mpr hall, Option.bind_some, child_root hroot]
  · rw [if_neg hall]
    cases hfollow : v.follow rootino cs with
    | none => rfl
    | some j =>
        rw [Option.bind_some]
        by_contra hchild
        obtain rfl := h.child_some hchild
        exact hall ((h.follow_self hroot).mp hfollow)

/-- The directory that a path with a last name is resolved in. -/
theorem Rooted.parent_last (h : v.Rooted) (hroot : (v.node rootino).type = tDir) :
    v.parent rootino (cs ++ [c]) =
      if ∀ c ∈ cs, IsSelf (c.take dirsiz) then some rootino else none := by
  rw [parent, if_neg (List.append_ne_nil_of_right_ne_nil _ (List.cons_ne_nil _ _)),
    List.dropLast_concat]
  by_cases hall : ∀ c ∈ cs, IsSelf (c.take dirsiz)
  · rw [if_pos hall, (h.follow_self hroot).mpr hall]
    exact Option.filter_some_pos (by simpa using hroot)
  · rw [if_neg hall]
    refine Option.eq_none_iff_forall_ne_some.mpr fun j hj => hall ?_
    obtain ⟨hfollow, htype⟩ := Option.filter_eq_some_iff.mp hj
    rw [h.only j (of_decide_eq_true htype)] at hfollow
    exact (h.follow_self hroot).mp hfollow

end

end Volume

/-- The last of the names along a path. -/
theorem lastName_concat {cs : List (List UInt8)} {c : List UInt8} :
    lastName ((cs ++ [c]).map (·.take dirsiz)) =
      if ∀ c ∈ cs, IsSelf (c.take dirsiz) then some (c.take dirsiz) else none := by
  rw [lastName, List.map_append, List.map_singleton, List.dropLast_concat, List.getLast?_concat]
  exact if_congr List.forall_mem_map rfl rfl

/-- `sys_unlink` tells the two names by their first bytes. -/
theorem isDots_iff (name : Buffer dirsiz) : isDots name = true ↔ IsSelf (cut name) := by
  have hslice : name.slice 0 dirsiz =
      name.get 0 :: name.get 1 :: name.get 2 :: name.slice 3 (dirsiz - 3) := rfl
  have hdot : dot ≠ 0 := by decide
  rw [isDots, decide_eq_true_iff, cut, hslice]
  generalize name.get 0 = a, name.get 1 = b, name.get 2 = c, name.slice 3 (dirsiz - 3) = rest
  constructor
  · rintro ⟨rfl, rfl | ⟨rfl, rfl⟩⟩
    · exact .inl rfl
    · exact .inr rfl
  · by_cases ha : a = 0
    · simp [ha, IsSelf]
    · by_cases hb : b = 0
      · simp [ha, hb, IsSelf]
      · by_cases hc : c = 0
        · simp [ha, hb, hc, IsSelf]
        · simp [ha, hb, hc, IsSelf]

/-- What `sys_open` finds is what the flat file system says. -/
inductive OpensAs (v : Volume) (s : Flat) : OpenResult → Option (Place × Flat) → Prop
  | fail : OpensAs v s .fail none
  | existing {place : Place} {i : ℕ} (hplace : v.Locates place i) :
      OpensAs v s (.existing i) (some (place, s))
  | create {name : Buffer dirsiz} (habsent : v.called (cut name) = none) :
      OpensAs v s (.create rootino name)
        (some (.file (cut name), s.setFile (cut name) (some [])))

namespace Volume.Rooted

section
variable {v : Volume} {s : Flat} {path nm : List UInt8} {i : ℕ} {name name' : Buffer dirsiz}
  {omode : OpenMode}

/-- A name that does not lead back to the directory is that of a file, or there is none. -/
theorem files_none (h : v.Rooted) (hself : ¬ IsSelf nm) :
    v.files nm = none ↔ v.called nm = none := by
  rw [files, Option.bind_eq_none_iff]
  constructor
  · intro hnone
    refine Option.eq_none_iff_forall_ne_some.mpr fun i hi => ?_
    have htype : (v.node i).type = tDir := by
      by_contra hfile
      have hsome := hnone i hi
      rw [if_neg hfile] at hsome
      cases hsome
    rw [h.only i htype] at hi
    exact hself ((h.selves nm).mp hi)
  · intro hnone i hi
    rw [hnone] at hi
    cases hi

/-- What the names along a path lead to. -/
theorem leadsTo (h : v.Rooted) (hroot : (v.node rootino).type = tDir) (hfiles : s.files = v.files)
    (path : List UInt8) :
    Option.Rel v.Locates (s.leadsTo (pathNames path)) (v.follow rootino (components path)) := by
  unfold pathNames
  rcases List.eq_nil_or_concat (components path) with hnil | ⟨cs, c, hcs⟩
  · rw [hnil]
    exact .some rfl
  rw [List.concat_eq_append] at hcs
  rw [hcs, Flat.leadsTo, lastName_concat]
  by_cases hall : ∀ c' ∈ cs ++ [c], IsSelf (c'.take dirsiz)
  · rw [if_pos (List.forall_mem_map.mpr hall), (h.follow_self hroot).mpr hall]
    exact .some rfl
  rw [if_neg (mt List.forall_mem_map.mp hall), h.follow_last hroot]
  by_cases hfront : ∀ c' ∈ cs, IsSelf (c'.take dirsiz)
  · have hself : ¬ IsSelf (c.take dirsiz) := by
      intro hlast
      refine hall fun c' hc' => ?_
      rcases List.mem_append.mp hc' with hold | hnew
      · exact hfront c' hold
      · rw [List.mem_singleton.mp hnew]
        exact hlast
    rw [if_pos hfront, if_pos hfront, Option.bind_some, hfiles]
    cases hcalled : v.called (c.take dirsiz) with
    | none =>
        rw [if_pos ((h.files_none hself).mpr hcalled)]
        exact .none
    | some i =>
        have hsome : v.files (c.take dirsiz) ≠ none := by
          rw [ne_eq, h.files_none hself, hcalled]
          exact Option.some_ne_none i
        rw [if_neg hsome]
        refine .some ⟨hcalled, fun heq => hself ((h.selves _).mp ?_)⟩
        rw [hcalled, heq]
  · rw [if_neg hfront, if_neg hfront]
    exact .none

/-- What the parent of a path is, and its last name. -/
theorem namex_parent (h : v.Rooted) (hroot : (v.node rootino).type = tDir) (hpath : 0 ∉ path)
    (name : Buffer dirsiz) :
    (lastName (pathNames path) = none ∧ (v.namex true path name).1 = none) ∨
      ∃ name', v.namex true path name = (some rootino, name') ∧
        lastName (pathNames path) = some (cut name') := by
  have hparent : (v.namex true path name).1 = v.parent rootino (components path) :=
    resolve_nameiparent hpath (Nat.lt_succ_self path.length)
  unfold pathNames
  rcases List.eq_nil_or_concat (components path) with hnil | ⟨cs, c, hcs⟩
  · left
    rw [hnil] at hparent ⊢
    exact ⟨rfl, hparent⟩
  rw [List.concat_eq_append] at hcs
  rw [hcs, h.parent_last hroot] at hparent
  rw [hcs, lastName_concat]
  by_cases hfront : ∀ c' ∈ cs, IsSelf (c'.take dirsiz)
  · right
    rw [if_pos hfront] at hparent ⊢
    have hnamex : v.namex true path name = (some rootino, (v.namex true path name).2) :=
      Prod.ext hparent rfl
    obtain ⟨c', hlast, hname⟩ := resolve_name hpath hnamex
    rw [hcs, List.getLast?_concat] at hlast
    rw [← Option.some.inj hlast] at hname
    exact ⟨_, hnamex, congrArg some hname.symm⟩
  · left
    rw [if_neg hfront] at hparent ⊢
    exact ⟨rfl, hparent⟩

/-- What `sys_open` finds with `O_CREATE`. -/
theorem opens_create (h : v.Rooted) (hroot : (v.node rootino).type = tDir)
    (hfiles : s.files = v.files) (hpath : 0 ∉ path) (hcreate : omode.create = true) :
    OpensAs v s (v.opens path name omode) (s.finds path omode) := by
  rw [Volume.opens, Flat.finds, if_pos hcreate, if_pos hcreate]
  rcases h.namex_parent hroot hpath name with ⟨hnone, hnamex⟩ | ⟨name', hnamex, hlast⟩
  · rw [hnone, Option.bind_none]
    cases hresult : v.namex true path name with
    | mk found name' =>
        rw [hresult] at hnamex
        simp only at hnamex
        rw [hnamex]
        exact .fail
  rw [hnamex, hlast, Option.bind_some]
  have hcalled : v.called (cut name') =
      (v.find rootino name').map fun k => (v.entry rootino k).inum := called_eq_find rfl
  simp only
  cases hfind : v.find rootino name' with
  | none =>
      rw [hfind, Option.map_none] at hcalled
      have hself : ¬ IsSelf (cut name') := fun hself => by
        rw [(h.selves _).mpr hself] at hcalled
        cases hcalled
      rw [if_neg hself, hfiles, if_pos ((h.files_none hself).mpr hcalled)]
      exact .create hcalled
  | some k =>
      rw [hfind, Option.map_some] at hcalled
      simp only
      by_cases hself : IsSelf (cut name')
      · have hinum : (v.entry rootino k).inum = rootino :=
          Option.some.inj (hcalled.symm.trans ((h.selves _).mpr hself))
        rw [if_pos hself, hinum]
        by_cases hwrite : omode.rdwr = true ∨ omode.wronly = true
        · rw [if_pos hwrite, if_pos ⟨hroot, hwrite⟩]
          exact .fail
        · rw [if_neg hwrite, if_neg fun hdir => hwrite hdir.2]
          exact .existing rfl
      · have hplace : v.Locates (.file (cut name')) (v.entry rootino k).inum :=
          ⟨hcalled, fun heq => hself ((h.selves _).mp (heq ▸ hcalled))⟩
        have hfile : (v.node (v.entry rootino k).inum).type ≠ tDir := fun htype => by
          cases (h.dir_iff hroot hplace).mp htype
        have hsome : v.files (cut name') ≠ none := by
          rw [ne_eq, h.files_none hself, hcalled]
          exact Option.some_ne_none _
        rw [if_neg hself, hfiles, if_neg hsome, if_neg fun hdir => hfile hdir.1]
        exact .existing hplace

/-- What `sys_open` finds without `O_CREATE`. -/
theorem opens_existing (h : v.Rooted) (hroot : (v.node rootino).type = tDir)
    (hfiles : s.files = v.files) (hpath : 0 ∉ path) (hcreate : ¬ omode.create = true) :
    OpensAs v s (v.opens path name omode) (s.finds path omode) := by
  rw [Volume.opens, Flat.finds, if_neg hcreate, if_neg hcreate]
  have hfollow : (v.namex false path name).1 = v.follow rootino (components path) :=
    resolve_namei hpath (Nat.lt_succ_self path.length)
  have hleads := h.leadsTo hroot hfiles path
  rw [← hfollow] at hleads
  change Option.Rel v.Locates _ (v.namex false path name).1 at hleads
  cases hresult : v.namex false path name with
  | mk found name' =>
      rw [hresult] at hleads
      cases hleads' : s.leadsTo (pathNames path) with
      | none =>
          rw [hleads'] at hleads
          cases hleads
          exact .fail
      | some place =>
          rw [hleads'] at hleads
          cases hleads with
          | some hplace =>
              have hsame := and_congr_left (c := omode.word ≠ 0) fun _ =>
                h.dir_iff hroot hplace
              simp only
              rw [Option.bind_some]
              by_cases hdir : place = .dir ∧ omode.word ≠ 0
              · rw [if_pos hdir, if_pos (hsame.mpr hdir)]
                exact .fail
              · rw [if_neg hdir, if_neg (mt hsame.mp hdir)]
                exact .existing hplace

/-- What `sys_open` finds. -/
theorem opens (h : v.Rooted) (hroot : (v.node rootino).type = tDir) (hfiles : s.files = v.files)
    (hpath : 0 ∉ path) : OpensAs v s (v.opens path name omode) (s.finds path omode) := by
  by_cases hcreate : omode.create = true
  · exact h.opens_create hroot hfiles hpath hcreate
  · exact h.opens_existing hroot hfiles hpath hcreate

/-- What `sys_unlink` finds: nothing, or the entry of a file. -/
theorem unlinks (h : v.Rooted) (hroot : (v.node rootino).type = tDir) (hpath : 0 ∉ path)
    (name : Buffer dirsiz) :
    (v.unlinkEntry path name = none ∧
        ∀ nm, lastName (pathNames path) = some nm → IsSelf nm ∨ v.files nm = none) ∨
      ∃ k, v.unlinkEntry path name = some (rootino, k) ∧
        lastName (pathNames path) = some (cut (v.entry rootino k).name) ∧
        ¬ IsSelf (cut (v.entry rootino k).name) ∧
        v.called (cut (v.entry rootino k).name) = some (v.entry rootino k).inum := by
  unfold Volume.unlinkEntry
  rcases h.namex_parent hroot hpath name with ⟨hnone, hnamex⟩ | ⟨name', hnamex, hlast⟩
  · left
    refine ⟨?_, fun nm hnm => ?_⟩
    · cases hresult : v.namex true path name with
      | mk found name' =>
          rw [hresult] at hnamex
          simp only at hnamex
          rw [hnamex]
    · rw [hnone] at hnm
      cases hnm
  rw [hnamex, hlast]
  simp only
  by_cases hdots : isDots name' = true
  · left
    rw [if_pos hdots]
    refine ⟨rfl, fun nm hnm => .inl ?_⟩
    rw [← Option.some.inj hnm]
    exact (isDots_iff name').mp hdots
  rw [if_neg hdots]
  have hself := mt (isDots_iff name').mpr hdots
  have hcalled : v.called (cut name') =
      (v.find rootino name').map fun k => (v.entry rootino k).inum := called_eq_find rfl
  cases hfind : v.find rootino name' with
  | none =>
      rw [hfind, Option.map_none] at hcalled
      left
      refine ⟨rfl, fun nm hnm => .inr ?_⟩
      rw [← Option.some.inj hnm]
      exact (h.files_none hself).mpr hcalled
  | some k =>
      rw [hfind, Option.map_some] at hcalled
      obtain ⟨-, -, hname⟩ := find_some hfind
      rw [hname] at hself hcalled ⊢
      exact .inr ⟨k, rfl, rfl, hself, hcalled⟩

end

end Volume.Rooted

end RiscvOs
