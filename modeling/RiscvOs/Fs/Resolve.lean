import RiscvOs.Fs.DirMap
import RiscvOs.Fs.Open
import RiscvOs.Lib.Split

/-!
# Resolving a path

`components` are the parts of a path between slashes, without the empty ones.  `skipelem` takes
the first of them from the path (`skipelem_some`), whatever slashes there are, and leaves it in
the array `name` cut at 14 bytes.

`Volume.follow` looks the components up one after the other.  `namei` returns the inode that all
of them lead to, and `nameiparent` the one that all but the last lead to if that is a directory:
the type is looked at before the end of the path is (`resolve_namei`, `resolve_nameiparent`).
Every way out of the loop gives back the references it has taken, but for the one it returns
(`path_resolution`).
-/

namespace RiscvOs

open Effect Bytes Kern Bio OnSession Mkfs Split

/-! ## The components of a path -/

/-- The components of a path. -/
def components (path : List UInt8) : List (List UInt8) := parts slash path

/-- The copy of a component into the array `name`. -/
def copyElem (name : Buffer dirsiz) (s : List UInt8) : Buffer dirsiz :=
  if dirsiz ≤ s.length then name.write 0 (s.take dirsiz) else name.write 0 (s ++ [0])

/-- The array holds the component, cut at 14 bytes. -/
theorem cut_copyElem (name : Buffer dirsiz) {s : List UInt8} (hs : 0 ∉ s) :
    cut (copyElem name s) = s.take dirsiz := by
  have hnonzero : ∀ c ∈ s, decide (c ≠ 0) = true := fun c hc =>
    decide_eq_true (ne_of_mem_of_not_mem hc hs)
  unfold copyElem cut
  by_cases hlong : dirsiz ≤ s.length
  · have hlen : (s.take dirsiz).length = dirsiz := List.length_take_of_le hlong
    have hslice : (name.write 0 (s.take dirsiz)).slice 0 dirsiz = s.take dirsiz := by
      have hread : (name.write 0 (s.take dirsiz)).slice 0 (s.take dirsiz).length =
          s.take dirsiz := Buffer.slice_write name (by omega)
      rwa [hlen] at hread
    rw [if_pos hlong, hslice]
    exact List.takeWhile_eq_self_iff.mpr fun c hc => hnonzero c (List.mem_of_mem_take hc)
  · have hlen : (s ++ [0]).length = s.length + 1 := by simp
    have hread : (name.write 0 (s ++ [0])).slice 0 (s ++ [0]).length = s ++ [0] :=
      Buffer.slice_write name (by omega)
    have hslice : ∃ rest, (name.write 0 (s ++ [0])).slice 0 dirsiz = s ++ 0 :: rest := by
      have hsplit : (s ++ [0]).length + (dirsiz - (s ++ [0]).length) = dirsiz := by omega
      have hadd := Buffer.slice_add (name.write 0 (s ++ [0])) 0 (s ++ [0]).length
        (dirsiz - (s ++ [0]).length)
      rw [hsplit, hread, List.append_assoc] at hadd
      exact ⟨_, hadd⟩
    obtain ⟨rest, hrest⟩ := hslice
    rw [if_neg hlong, hrest, List.takeWhile_append_of_pos hnonzero,
      List.take_of_length_le (by omega)]
    simp

theorem components_subset {path s : List UInt8} (hs : s ∈ components path) : s ⊆ path :=
  parts_subset hs

theorem skipelem_none {path : List UInt8} {name : Buffer dirsiz} :
    skipelem path name = none ↔ components path = [] := by
  rw [components, parts_eq_nil, skipelem]
  cases path.dropWhile (· = slash) with
  | nil => simp
  | cons c rest => simp

/-- `skipelem` takes the first component. -/
theorem skipelem_some {path path' : List UInt8} {name name' : Buffer dirsiz}
    (h : skipelem path name = some (path', name')) :
    ∃ s, components path = s :: components path' ∧ name' = copyElem name s ∧
      s ⊆ path ∧ path' ⊆ path ∧ (path' = [] ↔ components path' = []) := by
  unfold skipelem at h
  cases hpath : path.dropWhile (· = slash) with
  | nil =>
      rw [hpath] at h
      exact absurd h (by simp)
  | cons c rest =>
      rw [hpath] at h
      obtain ⟨rfl, rfl⟩ := Prod.mk.inj (Option.some.inj h)
      have hsuffix : c :: rest <:+ path := hpath ▸ List.dropWhile_suffix _
      have hback := (List.dropWhile_suffix (l := (c :: rest).dropWhile (· ≠ slash)) (· = slash)).trans
        ((List.dropWhile_suffix (· ≠ slash)).trans hsuffix)
      refine ⟨(c :: rest).takeWhile (· ≠ slash), ?_, rfl, fun b hb => ?_, hback.subset, ?_⟩
      · rw [components, ← parts_dropWhile, hpath, parts_cons (head_ne_of_dropWhile hpath),
          components, parts_dropWhile]
      · exact hsuffix.subset ((List.takeWhile_prefix _).subset hb)
      · rw [components, parts_dropWhile, parts_eq_nil]

/-! ## Following them -/

namespace Volume

variable {v : Volume} {i j d k rounds : ℕ} {path : List UInt8} {name name' : Buffer dirsiz}
  {s : List UInt8} {cs : List (List UInt8)}

/-- The inode that a component leads to from inode `d`. -/
def child (v : Volume) (d : ℕ) (s : List UInt8) : Option ℕ :=
  if (v.node d).type ≠ tDir then none
  else ((List.range (v.entries d)).find? fun k =>
    (v.entry d k).inum ≠ 0 ∧ cut (v.entry d k).name = s.take dirsiz).map fun k => (v.entry d k).inum

/-- The inode that components lead to from inode `i`. -/
def follow (v : Volume) (i : ℕ) (cs : List (List UInt8)) : Option ℕ := cs.foldlM v.child i

/-- The directory that all components but the last lead to. -/
def parent (v : Volume) (i : ℕ) (cs : List (List UInt8)) : Option ℕ :=
  if cs = [] then none
  else (v.follow i cs.dropLast).filter fun j => (v.node j).type = tDir

theorem child_eq_none : v.child d s = none ↔ (v.node d).type ≠ tDir ∨
    ∀ k < v.entries d, (v.entry d k).inum ≠ 0 → cut (v.entry d k).name ≠ s.take dirsiz := by
  unfold child
  by_cases hdir : (v.node d).type ≠ tDir
  · rw [if_pos hdir]
    exact iff_of_true rfl (.inl hdir)
  · rw [if_neg hdir, or_iff_right hdir, Option.map_eq_none_iff, List.find?_eq_none]
    simp only [List.mem_range, decide_eq_true_eq, not_and, ne_eq]

/-- `dirlookup` in a directory finds the child. -/
theorem child_eq_find (hdir : ¬ (v.node d).type ≠ tDir) (hname : cut name = s.take dirsiz) :
    v.child d s = (v.find d name).map fun k => (v.entry d k).inum := by
  rw [child, if_neg hdir, find]
  congr 2
  funext k
  refine decide_eq_decide.mpr (and_congr_right fun _ => ?_)
  rw [hname]
  exact eq_comm

theorem follow_cons : v.follow i (s :: cs) = (v.child i s).bind fun j => v.follow j cs :=
  List.foldlM_cons ..

/-- The loop of `namex` for `namei`. -/
theorem resolve_namei (hpath : 0 ∉ path) (hrounds : path.length < rounds) :
    (v.resolve false rounds path name i).1 = v.follow i (components path) := by
  induction rounds generalizing path name i with
  | zero => exact absurd hrounds (Nat.not_lt_zero _)
  | succ rounds ih =>
      unfold resolve
      cases hskip : skipelem path name with
      | none =>
          rw [skipelem_none.mp hskip]
          rfl
      | some next =>
          obtain ⟨path', name'⟩ := next
          obtain ⟨s, hcs, rfl, hs, hsub, -⟩ := skipelem_some hskip
          have hshorter := skipelem_lt hskip
          rw [hcs, follow_cons]
          simp only [Bool.false_eq_true, false_and, if_false]
          by_cases hdir : (v.node i).type ≠ tDir
          · rw [if_pos hdir, child_eq_none.mpr (.inl hdir)]
            rfl
          · rw [if_neg hdir, child_eq_find hdir (cut_copyElem name fun hzero => hpath (hs hzero))]
            cases v.find i (copyElem name s) with
            | none => rfl
            | some k => exact ih (fun hzero => hpath (hsub hzero)) (by omega)

/-- The loop of `namex` for `nameiparent`. -/
theorem resolve_nameiparent (hpath : 0 ∉ path) (hrounds : path.length < rounds) :
    (v.resolve true rounds path name i).1 = v.parent i (components path) := by
  induction rounds generalizing path name i with
  | zero => exact absurd hrounds (Nat.not_lt_zero _)
  | succ rounds ih =>
      unfold resolve
      cases hskip : skipelem path name with
      | none =>
          rw [skipelem_none.mp hskip]
          rfl
      | some next =>
          obtain ⟨path', name'⟩ := next
          obtain ⟨s, hcs, rfl, hs, hsub, hend⟩ := skipelem_some hskip
          have hshorter := skipelem_lt hskip
          rw [hcs, parent, if_neg (List.cons_ne_nil _ _)]
          simp only [true_and]
          by_cases hlast : path' = []
          · -- the type is looked at first
            rw [if_pos hlast, hend.mp hlast]
            by_cases hdir : (v.node i).type ≠ tDir
            · rw [if_pos hdir]
              exact (Option.filter_some_neg (by simpa using hdir)).symm
            · rw [if_neg hdir]
              exact (Option.filter_some_pos (by simpa using hdir)).symm
          rw [if_neg hlast, List.dropLast_cons_of_ne_nil (mt hend.mpr hlast), follow_cons]
          by_cases hdir : (v.node i).type ≠ tDir
          · rw [if_pos hdir, child_eq_none.mpr (.inl hdir)]
            rfl
          · rw [if_neg hdir, child_eq_find hdir (cut_copyElem name fun hzero => hpath (hs hzero))]
            cases v.find i (copyElem name s) with
            | none => rfl
            | some k =>
                have hrest : (v.resolve true rounds path' (copyElem name s)
                    (v.entry i k).inum).1 = _ := ih (fun hzero => hpath (hsub hzero)) (by omega)
                rw [parent, if_neg (mt hend.mpr hlast)] at hrest
                exact hrest

/-- The array holds the copies of all components when `nameiparent` returns an inode. -/
theorem resolve_copies (h : v.resolve true rounds path name i = (some j, name')) :
    components path ≠ [] ∧ name' = (components path).foldl copyElem name := by
  induction rounds generalizing path name i with
  | zero => exact absurd h (by simp [resolve])
  | succ rounds ih =>
      unfold resolve at h
      cases hskip : skipelem path name with
      | none =>
          rw [hskip] at h
          exact absurd h (by simp)
      | some next =>
          obtain ⟨path', name₁⟩ := next
          obtain ⟨s, hcs, rfl, -, -, hend⟩ := skipelem_some hskip
          rw [hskip] at h
          simp only [true_and] at h
          rw [hcs]
          refine ⟨List.cons_ne_nil _ _, ?_⟩
          by_cases hdir : (v.node i).type ≠ tDir
          · rw [if_pos hdir] at h
            exact absurd h (by simp)
          rw [if_neg hdir] at h
          by_cases hlast : path' = []
          · rw [if_pos hlast] at h
            rw [hend.mp hlast]
            exact (Prod.mk.inj h).2.symm
          · rw [if_neg hlast] at h
            cases hfind : v.find i (copyElem name s) with
            | none =>
                rw [hfind] at h
                exact absurd h (by simp)
            | some k =>
                rw [hfind] at h
                exact (ih h).2

/-- The array holds the last component when `nameiparent` returns an inode. -/
theorem resolve_name (hpath : 0 ∉ path) (h : v.resolve true rounds path name i = (some j, name')) :
    ∃ s, (components path).getLast? = some s ∧ cut name' = s.take dirsiz := by
  obtain ⟨hne, rfl⟩ := resolve_copies h
  have hzero : 0 ∉ (components path).getLast hne :=
    fun hmem => hpath (components_subset (List.getLast_mem hne) hmem)
  refine ⟨(components path).getLast hne, List.getLast?_eq_some_getLast hne, ?_⟩
  calc cut ((components path).foldl copyElem name)
      = cut (((components path).dropLast ++ [(components path).getLast hne]).foldl copyElem
          name) := by rw [List.dropLast_concat_getLast]
    _ = ((components path).getLast hne).take dirsiz := by
        rw [List.foldl_concat]
        exact cut_copyElem _ hzero

end Volume

/-! ## The tree of a new image -/

/-- A volume with one directory, which has entries for inodes of some type. -/
theorem walkable_of_says {v : Volume} {r : Record} {es : List Dirent} (h : Says v r)
    (hplain : Plain v) (hroot : r.types.getD 0 0 = tDir)
    (honly : ∀ i, 1 < i → r.types.getD (i - 1) 0 ≠ tDir)
    (hbytes : r.bytes rootino = es.flatMap Dirent.encode)
    (hes : ∀ de ∈ es, de.inum ≤ r.types.length) :
    v.Walkable layoutSb.ninodes ∧ v.Typed layoutSb.ninodes := by
  have hfew := h.few
  have hninodes : layoutSb.ninodes = 200 := rfl
  have hlen : rootino ≤ r.types.length := by
    by_contra hnone
    rw [List.getD_eq_getElem?_getD, List.getElem?_eq_none (by change ¬ 1 ≤ _ at hnone; omega)]
      at hroot
    exact absurd hroot (by decide)
  have hnode := h.node rootino le_rfl hlen
  obtain ⟨hentries, hsize, hentry⟩ := hnode.entries hbytes
  have hdir : (v.node rootino).type = tDir := hnode.type.trans hroot
  have hone : ∀ i, (v.node i).type = tDir → i = rootino := fun i htype => by
    by_contra hne
    by_cases hzero : i = 0
    · rw [hzero, hplain.zero] at htype
      exact absurd htype (by decide)
    · have hlt : 1 < i := by
        change ¬ i = 1 at hne
        omega
      by_cases hle : i ≤ r.types.length
      · exact honly i hlt ((h.node i hlt.le hle).type.symm.trans htype)
      · rw [(h.free i (not_le.mp hle)).1] at htype
        exact absurd htype (by decide)
  have hinum : ∀ k < v.entries rootino, (v.entry rootino k).inum ≤ r.types.length := fun k hk => by
    rw [hentries] at hk
    have hle := hes _ (List.getElem_mem hk)
    rw [hentry k hk (by omega)]
    exact hle
  have hsmall : (v.node rootino).size.toNat ≤ ndirect * bsize := by
    rw [hnode.size]
    exact hnode.small
  refine ⟨⟨hdir, fun i _ htype => ?_, fun i _ htype k hk => ?_, fun i _ _ htyped => ?_⟩,
    fun i _ htype k hk hlive => ?_⟩
  · rw [hone i htype]
    exact ⟨hdir, ⟨es.length, hsize⟩, le_trans hsmall (by decide)⟩
  · rw [hone i htype] at hk ⊢
    exact lt_of_le_of_lt (hinum k hk) hfew
  · rw [hplain.linked i htyped]
    decide
  · rw [hone i htype] at hk hlive ⊢
    exact (h.node _ (Nat.one_le_iff_ne_zero.mpr hlive) (hinum k hk)).typed

/-! ## The code -/

/-- The loop of `namex` ends before the rounds do. -/
theorem namexLoop_rounds {nameiparent : Bool} {rounds rounds' : ℕ} {path : List UInt8}
    {name : Buffer dirsiz} {ip : Fin ninode} (h : path.length < rounds)
    (h' : path.length < rounds') :
    namexLoop nameiparent rounds path name ip = namexLoop nameiparent rounds' path name ip := by
  induction rounds generalizing rounds' path name ip with
  | zero => exact absurd h (Nat.not_lt_zero _)
  | succ rounds ih =>
      obtain ⟨rounds', rfl⟩ : ∃ n, rounds' = n + 1 := ⟨rounds' - 1, by omega⟩
      rw [namexLoop, namexLoop]
      cases hskip : skipelem path name with
      | none => rfl
      | some next =>
          obtain ⟨path', name'⟩ := next
          have hshorter := skipelem_lt hskip
          have hrest (next : Fin ninode) : namexLoop nameiparent rounds path' name' next =
              namexLoop nameiparent rounds' path' name' next := ih (by omega) (by omega)
          simp only [hrest]

/-- The state `s` with a directory tree in order and two free slots in the inode cache, while
the code at hand has the references `base`. -/
structure TreeAt (x : Session) (s : Machine) (base : Pins) : Prop extends x.Walks base where
  refines : ∃ order, Refines rootdev order x.toView s
  inv : LogInv rootdev ∅ x.toView
  typed : x.volume.Typed x.mem.sb.ninodes
  slots : 2 ≤ x.mem.freeSlots

/-- What resolving a path leaves behind: one more reference to the slot `r` of inode `i`. -/
structure Resolved (x y : Session) (r : Option (Fin ninode)) (i : Option ℕ) : Prop where
  volume : y.volume = x.volume
  inode : r.map (fun ip => (y.mem.inode ip).inum) = i
  refs : ∀ jp, (y.mem.inode jp).ref = (x.mem.inode jp).ref + if r = some jp then 1 else 0
  keeps : ∀ jp, 0 < (x.mem.inode jp).ref → (y.mem.inode jp).inum = (x.mem.inode jp).inum

section
variable {mode : Mode} {x y : Session} {s : Machine} {base : Pins} {path : List UInt8}
  {name : Buffer dirsiz} {ip : Fin ninode} {i : ℕ}

theorem Looks.same_inums (h : Looks base x y) (hx : x.Intact ∅ base) (jp : Fin ninode)
    (hpos : 0 < (x.mem.inode jp).ref) : (y.mem.inode jp).inum = (x.mem.inode jp).inum :=
  (h.keeps jp (hx.ref_pos_iff.mp hpos)).1

theorem Resolved.of_none (hx : x.Intact ∅ base) (hy : y.Intact ∅ base) (h : Looks base x y) :
    Resolved x y none none where
  volume := h.volume
  inode := rfl
  refs jp := by
    rw [if_neg (Option.some_ne_none jp).symm, add_zero, hx.counted jp, hy.counted jp,
      h.frame.filesOn]
  keeps := h.same_inums hx

theorem Resolved.of_some (hx : x.Intact ∅ base) (hy : y.Intact ∅ (base + pin ip))
    (h : Looks base x y) (hinum : (y.mem.inode ip).inum = i) : Resolved x y (some ip) (some i) where
  volume := h.volume
  inode := congrArg some hinum
  refs jp := by
    have hcount := hy.counted jp
    rw [h.frame.filesOn, Pi.add_apply] at hcount
    rw [hcount, hx.counted jp]
    by_cases hj : jp = ip
    · rw [hj, pin_same, if_pos rfl]
      omega
    · rw [pin_of_ne hj, if_neg fun hsome => hj (Option.some.inj hsome).symm]
      omega
  keeps := h.same_inums hx

/-- `namex` walks the path in the volume. -/
theorem TreeAt.walks_path (h : TreeAt x s base) {nameiparent : Bool}
    (hcalm : Calm mode (0 + 1) x) :
    (namex path nameiparent name).wp (sessionRules mode)
      (fun r y => Resolved x y r.1 (x.volume.namex nameiparent path name).1 ∧
        r.2 = (x.volume.namex nameiparent path name).2) x := by
  have haccepts : Accepts mode x :=
    { slots := fun hfew => absurd hfew (not_lt.mpr h.slots)
      typed := fun hno => absurd h.typed hno }
  rw [← Prog.bind_ret (namex path nameiparent name)]
  refine wp_namex_walked h.toWalks haccepts hcalm (fun z name' hz hlooks hwalk => ?_)
    fun z jp j name' hz hlooks hinum hwalk _ _ => ?_
  · rw [hwalk]
    exact OnSession.wp_done.mpr ⟨.of_none h.intact hz hlooks, rfl⟩
  · rw [hwalk]
    exact OnSession.wp_done.mpr ⟨.of_some h.intact hz hlooks hinum, rfl⟩

theorem TreeAt.wp_namei (h : TreeAt x s base) (name : Buffer dirsiz) (hpath : 0 ∉ path)
    (hcalm : Calm mode (0 + 1) x) :
    (namei path name).wp (sessionRules mode)
      (fun r y => Resolved x y r (x.volume.follow rootino (components path))) x := by
  rw [namei, Prog.wp_bind]
  refine Prog.wp_mono (h.walks_path hcalm) fun r y _ hy => OnSession.wp_done.mpr ?_
  rw [← Volume.resolve_namei hpath (Nat.lt_succ_self _)]
  exact hy.1

theorem TreeAt.wp_nameiparent (h : TreeAt x s base) (name : Buffer dirsiz) (hpath : 0 ∉ path)
    (hcalm : Calm mode (0 + 1) x) :
    (nameiparent path name).wp (sessionRules mode)
      (fun r y => Resolved x y r.1 (x.volume.parent rootino (components path)) ∧
        (r.1 ≠ none → ∃ c, (components path).getLast? = some c ∧ cut r.2 = c.take dirsiz)) x := by
  refine Prog.wp_mono (h.walks_path hcalm) ?_
  rintro ⟨r, name'⟩ y - ⟨hy, hname⟩
  have hwalk : (x.volume.namex true path name).1 = x.volume.parent rootino (components path) :=
    Volume.resolve_nameiparent hpath (Nat.lt_succ_self _)
  change name' = _ at hname
  refine ⟨hwalk ▸ hy, fun hsome => ?_⟩
  cases hresolve : x.volume.namex true path name with
  | mk i name₁ =>
      rw [hresolve] at hname hy
      cases i with
      | none => exact absurd (Option.map_eq_none_iff.mp hy.inode) hsome
      | some j =>
          rw [hname]
          exact Volume.resolve_name hpath hresolve

end

/-! ## A file in the root directory -/

/-- The calls that make the file `f` in the root directory. -/
def fileCalls : List Mkfs.Call :=
  mainCalls ++ [.ialloc tFile, .iappend rootino (Dirent.encode ⟨2, copyElem Buffer.zero [102]⟩)]

/-- The entries of the root directory then. -/
def fileEntries : List Dirent :=
  [⟨rootino, Buffer.zero.write 0 [dot]⟩, ⟨rootino, Buffer.zero.write 0 [dot, dot]⟩,
    ⟨2, copyElem Buffer.zero [102]⟩]

theorem make_file : ∃ img, make fileCalls = .ok img := by
  have hok : (make fileCalls).isOk = true := rfl
  cases hmake : make fileCalls with
  | error e =>
      rw [hmake] at hok
      cases hok
  | ok img => exact ⟨img, rfl⟩

theorem file_allowed : Allowed {} fileCalls :=
  ⟨⟨by decide, by decide⟩, ⟨by decide, by decide⟩, ⟨by decide, by decide⟩,
    ⟨by decide, by decide⟩, ⟨by decide, by decide⟩, trivial⟩

/-- No slot of the inode cache is in use right after the mount. -/
theorem Mkfs.JustMounted.freeSlots {x : Session} {s : Machine} {r : Record}
    (h : JustMounted x s r) : x.mem.freeSlots = ninode := by
  have hall : (Finset.univ.filter fun ip => (x.mem.inode ip).ref = 0) = Finset.univ :=
    Finset.filter_true_of_mem fun ip _ => h.empty_icache ip
  rw [Mem.freeSlots, hall, Finset.card_univ, Fintype.card_fin]

/-- The mounted image. -/
theorem exists_fileTree : ∃ x s, TreeAt x s 0 ∧ x.Fits 1 ∧
    x.volume.follow rootino [[102]] = some 2 ∧ (x.volume.node 2).type = tFile := by
  obtain ⟨img, hmake⟩ := make_file
  obtain ⟨x, s, -, hx, -⟩ := mount_image file_allowed hmake
  have hrecorded := hx.recorded
  have htypes : (Record.of fileCalls).types = [tDir, tFile] := rfl
  have hbytes : (Record.of fileCalls).bytes rootino = fileEntries.flatMap Dirent.encode := rfl
  have honly : ∀ i, 1 < i → (Record.of fileCalls).types.getD (i - 1) 0 ≠ tDir := fun i hi => by
    obtain ⟨j, rfl⟩ : ∃ j, i = j + 2 := ⟨i - 2, by omega⟩
    cases j with
    | zero => decide
    | succ j =>
        rw [htypes]
        exact show (0 : BitVec 16) ≠ tDir by decide
  obtain ⟨hwalkable, htyped⟩ := walkable_of_says hrecorded hx.plain rfl honly hbytes (by decide)
  obtain ⟨hentries, -, hentry⟩ := (hrecorded.node rootino le_rfl (by decide)).entries hbytes
  have hchild : x.volume.child rootino [102] = some 2 := by
    have hfirst := hentry 0 (by decide) (by decide)
    have hsecond := hentry 1 (by decide) (by decide)
    have hthird := hentry 2 (by decide) (by decide)
    have hrange : List.range fileEntries.length = [0, 1, 2] := rfl
    rw [Volume.child, if_neg (not_not.mpr hwalkable.root), hentries, hrange,
      List.find?_cons_of_neg (by rw [hfirst]; decide),
      List.find?_cons_of_neg (by rw [hsecond]; decide),
      List.find?_cons_of_pos (by rw [hthird]; decide), Option.map_some, hthird]
    rfl
  refine ⟨x, s, ⟨⟨hx.intact, ?_⟩, hx.refines, hx.inv, ?_, ?_⟩, hx.fits (by decide), ?_,
    (hrecorded.node 2 (by decide) (by decide)).type⟩
  · rw [hx.sb]
    exact hwalkable
  · rw [hx.sb]
    exact htyped
  · rw [hx.freeSlots]
    decide
  · rw [Volume.follow_cons, hchild]
    rfl

/-! ## Paths lead to inodes -/

/-- `namei` returns the inode that the components of the path lead to, and `nameiparent` the
directory that all but the last lead to, with the last one in `name`.  They leave one more
reference to that inode and no other, and have no way to fail but that the buffer cache has no
room. -/
theorem path_resolution {x : Session} {s : Machine} {base : Pins} (h : TreeAt x s base)
    {path : List UInt8} (hpath : 0 ∉ path) (name : Buffer dirsiz) :
    (∀ r t, (namei path name).run machine s = .ok (r, t) →
      ∃ y, (∃ order, Refines rootdev order y.toView t) ∧
        Resolved x y r (x.volume.follow rootino (components path))) ∧
    (∀ r name' t, (nameiparent path name).run machine s = .ok ((r, name'), t) →
      ∃ y, (∃ order, Refines rootdev order y.toView t) ∧
        Resolved x y r (x.volume.parent rootino (components path)) ∧
        (r ≠ none → ∃ c, (components path).getLast? = some c ∧ cut name' = c.take dirsiz)) ∧
    (∀ e, (namei path name).run machine s = .error e ∨
      (nameiparent path name).run machine s = .error e → e = .panic "bget: no buffers") ∧
    (x.Fits 1 → (∃ r t, (namei path name).run machine s = .ok (r, t)) ∧
      ∃ r t, (nameiparent path name).run machine s = .ok (r, t)) ∧
    (∀ cs, x.volume.follow rootino cs = none ↔ ∃ before c after j, cs = before ++ c :: after ∧
      x.volume.follow rootino before = some j ∧ ((x.volume.node j).type ≠ tDir ∨
        ∀ k < x.volume.entries j, (x.volume.entry j k).inum ≠ 0 →
          cut (x.volume.entry j k).name ≠ c.take dirsiz)) ∧
    ∀ b rounds ip, path.length < rounds →
      namexLoop b rounds path name ip = namexLoop b (path.length + 1) path name ip := by
  have hcalm : Calm tameMode (0 + 1) x := ⟨h.inv, False.elim⟩
  have hi := h.wp_namei name hpath hcalm
  have hp := h.wp_nameiparent name hpath hcalm
  refine ⟨fun r t hrun => ?_, fun r name' t hrun => ?_, fun e hrun => ?_, fun hfits => ?_,
    fun cs => ?_, fun b rounds ip hrounds => ?_⟩
  · exact (session_simulation _).run_ok hi h.refines hrun
  · exact (session_simulation _).run_ok hp h.refines hrun
  · rcases hrun with hrun | hrun
    · rcases error_of_wp hi h.refines hrun with herr | ⟨-, herr⟩
      · exact herr.elim
      · exact herr
    · rcases error_of_wp hp h.refines hrun with herr | ⟨-, herr⟩
      · exact herr.elim
      · exact herr
  · have hsure : Calm sureMode (0 + 1) x := ⟨h.inv, fun _ => hfits⟩
    exact ⟨ok_of_sure (h.wp_namei name hpath hsure) h.refines,
      ok_of_sure (h.wp_nameiparent name hpath hsure) h.refines⟩
  · simp only [Volume.follow, Split.foldlM_eq_none, Volume.child_eq_none]
  · exact namexLoop_rounds hrounds (Nat.lt_succ_self _)

/-- `nameiparent` of `f/x`, when `f` is a file: all components but the last lead to `f`, and it
returns nothing. -/
theorem nameiparent_refuses_file : ∃ x s, TreeAt x s 0 ∧
    (components [102, slash, 120]).dropLast = [[102]] ∧
    x.volume.follow rootino [[102]] = some 2 ∧
    ∃ name t, (nameiparent [102, slash, 120] Buffer.zero).run machine s = .ok ((none, name), t) := by
  obtain ⟨x, s, htree, hfits, hfollow, htype⟩ := exists_fileTree
  have hpath : (0 : UInt8) ∉ [102, slash, 120] := by decide
  have hcalm : Calm sureMode (0 + 1) x := ⟨htree.inv, fun _ => hfits⟩
  have hwp := htree.wp_nameiparent Buffer.zero hpath hcalm
  have hsplit : components [102, slash, 120] = [[102], [120]] := rfl
  obtain ⟨r, t, hrun⟩ := ok_of_sure hwp htree.refines
  obtain ⟨y, -, hy, -⟩ := (session_simulation sureMode).run_ok hwp htree.refines hrun
  have hparent : x.volume.parent rootino (components [102, slash, 120]) = none := by
    rw [hsplit, Volume.parent, if_neg (List.cons_ne_nil _ _)]
    change (x.volume.follow rootino [[102]]).filter _ = none
    rw [hfollow]
    refine Option.filter_some_neg (decide_eq_false ?_)
    rw [htype]
    decide
  obtain ⟨r, name⟩ := r
  have hnone := hy.inode
  rw [hparent, Option.map_eq_none_iff] at hnone
  change r = none at hnone
  subst hnone
  exact ⟨x, s, htree, rfl, hfollow, name, t, hrun⟩

/-- `namei` of `f`. -/
theorem path_resolution_file : ∃ x s, TreeAt x s 0 ∧
    ∃ r t y, (namei [102] Buffer.zero).run machine s = .ok (r, t) ∧ Resolved x y r (some 2) := by
  obtain ⟨x, s, htree, hfits, hfollow, -⟩ := exists_fileTree
  have hpath : (0 : UInt8) ∉ [102] := by decide
  obtain ⟨hright, -, -, hends, -⟩ := path_resolution htree hpath Buffer.zero
  obtain ⟨⟨r, t, hrun⟩, -⟩ := hends hfits
  obtain ⟨y, -, hy⟩ := hright r t hrun
  have hsplit : components [102] = [[102]] := rfl
  rw [hsplit, hfollow] at hy
  exact ⟨x, s, htree, r, t, y, hrun, hy⟩

end RiscvOs
