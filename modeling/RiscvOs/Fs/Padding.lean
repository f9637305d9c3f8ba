import Mathlib.Data.List.GetD
import RiscvOs.Fs.Resolve
import RiscvOs.Fs.Outcome

/-!
# What stands behind a name in a directory entry

The loop of `dirlink` that pads the name tests every byte by itself and so copies all 14 of
them: two arrays with the same name give the same entry only if they agree behind the name as
well.

In `sys_open` the array is a local one that nothing has cleared, and `skipelem` writes only the
component and its null byte.  What ends up behind the name is what an earlier component, or the
stack, has left there (`get_foldl`); `CleanBehind` is when that is zero.
-/

namespace RiscvOs

open Effect Bytes Kern Bio OnSession Mkfs Split

/-! ## What is left in the array -/

/-- The null byte of a component is copied with it, and what is behind stays. -/
theorem get_copyElem (name : Buffer dirsiz) (s : List UInt8) {j : ℕ} (hj : j < dirsiz) :
    (copyElem name s).get j = if j ≤ s.length then s.getD j 0 else name.get j := by
  unfold copyElem
  by_cases hlong : dirsiz ≤ s.length
  · have hlen : (s.take dirsiz).length = dirsiz := List.length_take_of_le hlong
    rw [if_pos hlong, Buffer.get_write name (by omega), if_pos (by omega), if_pos (by omega),
      Nat.sub_zero, List.getD_eq_getElem?_getD, List.getElem?_take_of_lt hj,
      List.getD_eq_getElem?_getD]
  · have hlen : (s ++ [0]).length = s.length + 1 := List.length_append
    rw [if_neg hlong, Buffer.get_write name (by omega), hlen, Nat.sub_zero]
    by_cases hle : j ≤ s.length
    · rw [if_pos (by omega), if_pos hle]
      simp only [List.getD_eq_getElem?_getD]
      rcases Nat.lt_or_eq_of_le hle with hlt | rfl
      · rw [List.getElem?_append_left hlt]
      · rw [List.getElem?_concat_length, List.getElem?_eq_none le_rfl]
        rfl
    · rw [if_neg (by omega), if_neg hle]

/-- The last component that is long enough decides on a byte of the array. -/
theorem get_foldl (name : Buffer dirsiz) (cs : List (List UInt8)) {j : ℕ} (hj : j < dirsiz) :
    (cs.foldl copyElem name).get j =
      match cs.reverse.find? (j ≤ ·.length) with
      | some c => c.getD j 0
      | none => name.get j := by
  induction cs using List.reverseRecOn with
  | nil => rfl
  | append_singleton cs c ih =>
      rw [List.foldl_concat, get_copyElem _ _ hj, List.reverse_concat]
      by_cases hlong : j ≤ c.length
      · rw [if_pos hlong, List.find?_cons_of_pos (by simpa using hlong)]
      · rw [if_neg hlong, List.find?_cons_of_neg (by simpa using hlong), ih]

/-- That byte is zero if the component ends there. -/
theorem get_foldl_eq_zero {name : Buffer dirsiz} {cs : List (List UInt8)}
    (hcs : ∀ c ∈ cs, 0 ∉ c) {j : ℕ} (hj : j < dirsiz) :
    (cs.foldl copyElem name).get j = 0 ↔
      match cs.reverse.find? (j ≤ ·.length) with
      | some c => c.length = j
      | none => name.get j = 0 := by
  rw [get_foldl name cs hj]
  cases hfind : cs.reverse.find? (j ≤ ·.length) with
  | none => exact Iff.rfl
  | some c =>
      have hle : j ≤ c.length := by simpa using List.find?_some hfind
      have hzero : 0 ∉ c := hcs c (List.mem_reverse.mp (List.mem_of_find?_eq_some hfind))
      show c.getD j 0 = 0 ↔ c.length = j
      constructor
      · intro hget
        by_contra hne
        have hlt : j < c.length := by omega
        rw [List.getD_eq_getElem _ _ hlt] at hget
        exact hzero (hget ▸ List.getElem_mem hlt)
      · rintro rfl
        exact List.getD_eq_default _ _ le_rfl

/-- All bytes behind the name are zero. -/
def Padded (name : Buffer dirsiz) : Prop :=
  ∀ j, (cut name).length ≤ j → j < dirsiz → name.get j = 0

/-- At every byte behind the last component and its null byte, the last of the other components
that reaches it ends there, or the array held zero and none reaches it. -/
def CleanBehind (name : Buffer dirsiz) (cs : List (List UInt8)) : Prop :=
  ∀ j, (cs.getLast?.getD []).length < j → j < dirsiz →
    match cs.dropLast.reverse.find? (j ≤ ·.length) with
    | some c => c.length = j
    | none => name.get j = 0

/-- The copies leave the array padded exactly if they leave nothing behind. -/
theorem padded_iff {name : Buffer dirsiz} {cs : List (List UInt8)} (hcs : ∀ c ∈ cs, 0 ∉ c)
    (hne : cs ≠ []) : Padded (cs.foldl copyElem name) ↔ CleanBehind name cs := by
  obtain ⟨cs, c, rfl⟩ : ∃ cs₁ c, cs = cs₁ ++ [c] :=
    ⟨cs.dropLast, cs.getLast hne, (List.dropLast_concat_getLast hne).symm⟩
  have hbefore : ∀ c' ∈ cs, 0 ∉ c' := fun c' hc' => hcs c' (List.mem_append_left _ hc')
  have hzero : 0 ∉ c := hcs c (List.mem_append_right _ (List.mem_singleton_self c))
  rw [Padded, CleanBehind, List.foldl_concat, cut_copyElem _ hzero, List.length_take,
    List.getLast?_concat, Option.getD_some, List.dropLast_concat]
  constructor
  · intro hpadded j hbehind hj
    have hget := hpadded j (by omega) hj
    rw [get_copyElem _ _ hj, if_neg (not_le.mpr hbehind)] at hget
    exact (get_foldl_eq_zero hbefore hj).mp hget
  · intro hclean j hle hj
    rw [get_copyElem _ _ hj]
    by_cases hbehind : c.length < j
    · rw [if_neg (not_le.mpr hbehind)]
      exact (get_foldl_eq_zero hbefore hj).mpr (hclean j hbehind hj)
    · -- the null byte of the last component
      obtain rfl : j = c.length := by omega
      rw [if_pos le_rfl]
      exact List.getD_eq_default _ _ le_rfl

/-- A string from user memory has no null byte in it. -/
theorem Mem.copyinstr_nonzero {m : Mem} {a : BitVec 64} {max : ℕ} {path : List UInt8}
    (h : m.copyinstr a max = some path) : 0 ∉ path := by
  induction max generalizing a path with
  | zero => cases h
  | succ max ih =>
      rw [Mem.copyinstr] at h
      obtain ⟨byte, -, h⟩ := Option.bind_eq_some_iff.mp h
      by_cases hbyte : byte = 0
      · rw [if_pos hbyte] at h
        obtain rfl : [] = path := Option.some.inj h
        exact List.not_mem_nil
      · rw [if_neg hbyte] at h
        obtain ⟨rest, hrest, h⟩ := Option.bind_eq_some_iff.mp h
        obtain rfl : byte :: rest = path := Option.some.inj h
        exact List.not_mem_cons_of_ne_of_not_mem (Ne.symm hbyte) (ih hrest)

/-! ## The code -/

theorem Dirent.encode_inj {inum : ℕ} {a b : Buffer dirsiz} (hinum : inum < 2 ^ 16) :
    Dirent.encode ⟨inum, a⟩ = Dirent.encode ⟨inum, b⟩ ↔ a = b := by
  refine ⟨fun h => ?_, fun h => by rw [h]⟩
  have hsame : Dirent.mk inum a = ⟨inum, b⟩ := by
    have hdecode : Dirent.decode (Dirent.encode ⟨inum, a⟩) = ⟨inum, a⟩ := Dirent.decode_encode hinum
    rw [← hdecode, h, Dirent.decode_encode hinum]
  exact congrArg Dirent.name hsame

/-- A name is found by its characters. -/
theorem Volume.find_congr (v : Volume) (d : ℕ) {a b : Buffer dirsiz} (h : cut a = cut b) :
    v.find d a = v.find d b := by
  unfold Volume.find
  congr 1
  funext k
  exact decide_eq_decide.mpr (by rw [Volume.Names, Volume.Names, h])

section
variable {mode : Mode} {x : Session} {s : Machine} {stale : Set ℕ} {pins : Pins}
  {dp : Fin ninode} {d : ℕ} {name name' : Buffer dirsiz} {a₀ a₁ : BitVec 64}

/-- `dirlink` writes all 14 bytes of the array, unless it finds the name. -/
theorem FileAt.links_bytes (h : FileAt x s stale pins dp d) (name : Buffer dirsiz)
    (hdir : x.volume.IsDir d) (htx : Tx mode (0 + 3) (0 + 2) x) (inum : ℕ)
    (hfull : x.mem.emptySlot = none → mode.err (.panic "iget: no inodes"))
    (hblocks : x.volume.free x.mem.sb.size <
        x.volume.missing d (Volume.slotsIn (16 * x.volume.freeEntry d) 16) →
      mode.err (.panic "balloc: out of blocks"))
    (hrange : maxfile * bsize < 16 * x.volume.freeEntry d + 16 →
      mode.err (.panic "bmap: out of range")) :
    (dirlink dp name inum).wp (sessionRules mode)
      (fun _ y => (x.volume.find d name = none →
          y.volume.bytes d (16 * x.volume.freeEntry d) 16 =
            Dirent.encode ⟨inum % 2 ^ 16, name⟩) ∧
        (x.volume.find d name ≠ none → y.volume = x.volume)) x := by
  rw [← Prog.bind_ret (dirlink dp name inum), dirlink_mod]
  cases hfind : x.volume.find d name with
  | none =>
      refine wp_dirlink h.intact h.locked htx hdir (Nat.mod_lt _ (Nat.two_pow_pos 16)) hfind
        hblocks hrange fun y _ _ hlinked hwritten _ _ => OnSession.wp_done.mpr
          ⟨fun _ => ?_, fun hne => absurd rfl hne⟩
      have hsize := hlinked.isDir.size_eq
      have hle := hlinked.isDir.size_le
      have hentries := hlinked.entries
      exact (hwritten.entry_bytes (by omega)).2
  | some k =>
      have hcalm : Calm mode (0 + 1 + 1) x := htx.calm
      refine wp_dirlink_present h.intact h.locked hcalm hdir hfind hfull
        fun y _ hvolume _ => OnSession.wp_done.mpr ⟨fun hno => ?_, fun _ => hvolume⟩
      cases hno

/-- A system call can start in the state `s`. -/
structure CallAt (x : Session) (s : Machine) : Prop extends x.Walks 0 where
  refines : ∃ order, Refines rootdev order x.toView s
  inv : LogInv rootdev ∅ x.toView
  unlocked : x.mem.log.lock = false
  outstanding : 0 ≤ x.mem.log.outstanding
  small : x.mem.log.size ≤ 31
  marks : x.marks = ∅
  sizes : ∀ i < x.mem.sb.ninodes, (x.volume.node i).size.toNat ≤ maxfile * bsize
  files : x.Files

/-- The array of `sys_open` holds the copies of all components when it makes a file. -/
theorem Session.opens_copies (x : Session) {path : List UInt8}
    (hpath : x.mem.copyinstr a₀ 128 = some path) (h : x.opens name a₀ a₁ = .create d name') :
    components path ≠ [] ∧ name' = (components path).foldl copyElem name := by
  rw [Session.opens, hpath] at h
  change x.volume.opens path name ⟨a₁.setWidth 32⟩ = _ at h
  unfold Volume.opens at h
  split at h
  · split at h
    · cases h
    · rename_i hnamex
      split at h
      · obtain ⟨rfl, rfl⟩ := OpenResult.create.inj h
        exact Volume.resolve_copies hnamex
      · split at h <;> cases h
  · split at h
    · cases h
    · split at h <;> cases h

/-- The new entry holds the whole array of `sys_open`. -/
theorem CallAt.makes_entry (h : CallAt x s) (hopens : x.opens name a₀ a₁ = .create d name')
    (haccepts : AcceptsOpen mode x (.create d name')) (hfits : mode.strict → x.Fits 7)
    (hsleep : ¬ x.mem.log.admits → mode.err .hang) :
    (sysOpen name a₀ a₁).wp (sessionRules mode)
      (fun _ y => (y.volume.entry d (x.volume.freeEntry d)).name = name') x := by
  have hsame : x.begin.opens name a₀ a₁ = .create d name' := (x.opens_begin name a₀ a₁).trans hopens
  have hwalks : x.begin.Walks 0 := ⟨h.intact.begin, h.walkable⟩
  have haccepts' : AcceptsOpen mode x.begin (x.begin.opens name a₀ a₁) := by
    rw [hsame]
    exact ⟨⟨haccepts.slots, haccepts.typed⟩, fun d name hnew =>
      ⟨(haccepts.new d name hnew).inodes, (haccepts.new d name hnew).blocks,
        (haccepts.new d name hnew).range⟩⟩
  rw [sysOpen]
  refine wp_beginOp h.inv h.unlocked h.outstanding h.small h.marks hfits hsleep
    fun (htx : Tx mode (0 + 4) (0 + 2) x.begin) => ?_
  refine wp_openBody hwalks h.sizes h.files.begin haccepts' htx
    fun r y hdone hy _ htx' _ => ?_
  rw [hsame] at hdone
  cases hdone with
  | made hmade hgot =>
      obtain ⟨din, -, hcreates⟩ := hmade.created
      refine wp_endOp htx' (fun hstrict => (htx'.fits hstrict).less ?_)
        fun w hended => OnSession.wp_done.mpr ?_
      · have hle := htx'.marks_le (mode.capped hstrict)
        omega
      · rw [hended.volume hy.wf, hgot.volume hmade.intact]
        exact congrArg Dirent.name hcreates.dir.entry

end

/-- Two arrays that hold the same name make `dirlink` write the same entry exactly if they are
the same array, unless the directory has the name.  The entry that `sys_open` makes is zero
behind its name exactly if the stack and the other components of the path have left nothing
there. -/
theorem entry_tail {x : Session} {s : Machine} :
    (∀ {stale : Set ℕ} {pins : Pins} {dp : Fin ninode} {d : ℕ} {a b : Buffer dirsiz},
      FileAt x s stale pins dp d → x.volume.IsDir d → Tx anyMode 0 0 x → cut a = cut b →
      ∀ inum r t r' t', (dirlink dp a inum).run machine s = .ok (r, t) →
        (dirlink dp b inum).run machine s = .ok (r', t') →
        ∃ y y' : Session, (∃ order, Refines rootdev order y.toView t) ∧
          (∃ order, Refines rootdev order y'.toView t') ∧
          (y.volume.bytes d (16 * x.volume.freeEntry d) 16 =
            y'.volume.bytes d (16 * x.volume.freeEntry d) 16 ↔
              a = b ∨ x.volume.find d a ≠ none)) ∧
    ∀ {a₀ a₁ : BitVec 64} {path : List UInt8} {d : ℕ} {name name' : Buffer dirsiz},
      CallAt x s → x.mem.copyinstr a₀ 128 = some path →
      x.opens name a₀ a₁ = .create d name' → ∀ r t, (sysOpen name a₀ a₁).run machine s = .ok (r, t) →
        ∃ y : Session, (∃ order, Refines rootdev order y.toView t) ∧
          (Padded (y.volume.entry d (x.volume.freeEntry d)).name ↔
            CleanBehind name (components path)) := by
  refine ⟨?_, ?_⟩
  · intro stale pins dp d a b h hdir htx hcut inum r t r' t' hrun hrun'
    have htx' : Tx anyMode (0 + 3) (0 + 2) x :=
      { htx with
        budget := False.elim
        room := False.elim
        fits := False.elim }
    have hwp (name : Buffer dirsiz) := h.links_bytes name hdir htx' inum
      (fun _ => trivial) (fun _ => trivial) fun _ => trivial
    obtain ⟨y, hrefines, hnew, hold⟩ := (session_simulation _).run_ok (hwp a) h.refines hrun
    obtain ⟨y', hrefines', hnew', hold'⟩ := (session_simulation _).run_ok (hwp b) h.refines hrun'
    rw [← x.volume.find_congr d hcut] at hnew' hold'
    refine ⟨y, y', hrefines, hrefines', ?_⟩
    by_cases hfind : x.volume.find d a = none
    · rw [hnew hfind, hnew' hfind, Dirent.encode_inj (Nat.mod_lt _ (Nat.two_pow_pos 16))]
      exact ⟨.inl, fun hor => hor.resolve_right (not_not.mpr hfind)⟩
    · rw [hold hfind, hold' hfind]
      exact ⟨fun _ => .inr hfind, fun _ => rfl⟩
  · intro a₀ a₁ path d name name' h hpath hopens r t hrun
    have haccepts : AcceptsOpen anyMode x (.create d name') :=
      ⟨⟨fun _ => trivial, fun _ => trivial⟩, fun _ _ _ =>
        ⟨fun _ => trivial, fun _ => trivial, fun _ => trivial⟩⟩
    have hwp := h.makes_entry hopens haccepts False.elim fun _ => trivial
    obtain ⟨y, hrefines, hname⟩ := (session_simulation _).run_ok hwp h.refines hrun
    refine ⟨y, hrefines, ?_⟩
    obtain ⟨hne, rfl⟩ := x.opens_copies hpath hopens
    rw [hname]
    exact padded_iff (fun c hc hzero => Mem.copyinstr_nonzero hpath
      (components_subset hc hzero)) hne

/-! ## The root directory of a new image -/

theorem Mkfs.SaysNode.find_root {v : Volume} (h : SaysNode v (Record.of mainCalls) rootino)
    {name : Buffer dirsiz} (hdot : cut name ≠ [dot]) (hdots : cut name ≠ [dot, dot]) :
    v.find rootino name = none := by
  obtain ⟨hentries, hentry₀, hentry₁, -⟩ := root_entries h
  refine Volume.find_none.mpr fun k hk hnames => ?_
  rw [hentries] at hk
  obtain rfl | rfl : k = 0 ∨ k = 1 := by omega
  · rw [Volume.Names, hentry₀] at hnames
    exact hdot hnames.2
  · rw [Volume.Names, hentry₁] at hnames
    exact hdots hnames.2

theorem Mkfs.SaysNode.freeEntry_root {v : Volume}
    (h : SaysNode v (Record.of mainCalls) rootino) : v.freeEntry rootino = 2 := by
  obtain ⟨hentries, hentry₀, hentry₁, -⟩ := root_entries h
  have hnone : (List.range 2).find? (fun k => (v.entry rootino k).inum = 0) = none := by
    refine List.find?_eq_none.mpr fun k hk => ?_
    obtain rfl | rfl : k = 0 ∨ k = 1 := by
      have hlt := List.mem_range.mp hk
      omega
    · rw [hentry₀]
      decide
    · rw [hentry₁]
      decide
  rw [Volume.freeEntry, hentries, hnone]
  rfl

/-- `dirlink` of any name. -/
theorem RootLocked.links_wp {x : Session} {s : Machine} {ip : Fin ninode} (h : RootLocked x s ip)
    (name : Buffer dirsiz) : (dirlink ip name rootino).wp (sessionRules sureMode)
      (fun _ y => (x.volume.find rootino name = none →
          y.volume.bytes rootino 32 16 = Dirent.encode ⟨rootino, name⟩) ∧
        (x.volume.find rootino name ≠ none → y.volume = x.volume)) x := by
  obtain ⟨-, -, -, hdir, -⟩ := root_entries h.contains
  have hfree := h.contains.freeEntry_root
  have hmissing : x.volume.missing rootino (Volume.slotsIn (16 * 2) 16) = 0 :=
    missing_root h.contains (by decide)
  have htx : Tx sureMode (0 + 3) (0 + 2) x := h.tx.less (by decide) le_rfl
  have hwp := h.links_bytes name hdir htx rootino
    (fun hnone => absurd hnone h.emptySlot)
    (fun hfull => by rw [hfree, hmissing] at hfull; omega)
    fun hlong => absurd hlong (by rw [hfree]; decide)
  rw [hfree] at hwp
  exact hwp

/-- The array of the name `x`, with something behind it. -/
def dirtyName : Buffer dirsiz := Buffer.zero.write 0 [120, 0, 65]

theorem dirtyName_same : cut dirtyName = cut (copyElem Buffer.zero [120]) ∧
    dirtyName ≠ copyElem Buffer.zero [120] := by
  refine ⟨rfl, fun h => ?_⟩
  have hbyte := congrArg (·.get 2) h
  exact absurd hbyte (by decide)

/-- Two arrays that hold the name `x` make two different entries. -/
theorem dirlink_copies_tail : ∃ x s ip, RootLocked x s ip ∧
    ∃ a b, cut a = cut b ∧ ∃ r t r' t', ∃ y y' : Session,
      (dirlink ip a rootino).run machine s = .ok (r, t) ∧
      (dirlink ip b rootino).run machine s = .ok (r', t') ∧
      (∃ order, Refines rootdev order y.toView t) ∧
      (∃ order, Refines rootdev order y'.toView t') ∧
      y.volume.bytes rootino 32 16 ≠ y'.volume.bytes rootino 32 16 := by
  obtain ⟨x, s, ip, hroot⟩ := exists_rootLocked
  obtain ⟨hcut, hne⟩ := dirtyName_same
  have hwp (name : Buffer dirsiz) := hroot.links_wp name
  have hfind : x.volume.find rootino (copyElem Buffer.zero [120]) = none :=
    hroot.contains.find_root (by decide) (by decide)
  obtain ⟨r, t, hrun⟩ := ok_of_sure (hwp dirtyName) hroot.refines
  obtain ⟨r', t', hrun'⟩ := ok_of_sure (hwp (copyElem Buffer.zero [120])) hroot.refines
  obtain ⟨y, hrefines, hnew, -⟩ :=
    (session_simulation _).run_ok (hwp dirtyName) hroot.refines hrun
  obtain ⟨y', hrefines', hnew', -⟩ :=
    (session_simulation _).run_ok (hwp (copyElem Buffer.zero [120])) hroot.refines hrun'
  refine ⟨x, s, ip, hroot, dirtyName, copyElem Buffer.zero [120], hcut, r, t, r', t', y, y', hrun,
    hrun', hrefines, hrefines', ?_⟩
  rw [hnew ((x.volume.find_congr rootino hcut).trans hfind), hnew' hfind]
  exact fun hsame => hne ((Dirent.encode_inj (by decide)).mp hsame)

/-- User memory with the string `/x` at address 0. -/
def slashX : UserBytes := fun a => some ([slash, 120].getD a.toNat 0)

/-- `O_CREATE` -/
def createFlag : BitVec 64 := 0x200

/-- Nothing is open right after the mount. -/
theorem Mkfs.JustMounted.files {x : Session} {s : Machine} {r : Record}
    (h : JustMounted x s r) : x.Files := by
  obtain ⟨log, hmem⟩ := h.mem
  have hclosed (f : Fin nfile) : x.mem.file f = {} := by rw [hmem]
  have href (f : Fin nfile) : ¬ 0 < (x.mem.file f).ref := by
    rw [hclosed]
    decide
  refine ⟨fun f => ?_, fun f => ?_, fun f => ?_, fun p fd f hf => ?_,
    fun f hf => absurd hf (href f), fun f hf => absurd hf (href f)⟩
  · rw [hmem]
    simp [Mem.fdsOn]
  · rw [hclosed]
    rfl
  · rw [hclosed]
    decide
  · rw [hmem] at hf
    cases hf

theorem Mkfs.JustMounted.size_le {x : Session} {s : Machine} {r : Record}
    (h : JustMounted x s r) (i : ℕ) : (x.volume.node i).size.toNat ≤ maxfile * bsize := by
  by_cases hzero : i = 0
  · rw [hzero, h.plain.zero]
    exact Nat.zero_le _
  · by_cases hle : i ≤ r.types.length
    · have hnode := h.recorded.node i (Nat.one_le_iff_ne_zero.mpr hzero) hle
      rw [hnode.size]
      exact le_trans hnode.small (by decide)
    · rw [(h.recorded.free i (not_le.mp hle)).1]
      exact Nat.zero_le _

theorem Mkfs.JustMounted.admits {x : Session} {s : Machine} {r : Record}
    (h : JustMounted x s r) : x.mem.log.admits := by
  refine ⟨h.idle, ?_⟩
  rw [h.empty, h.outstanding, h.size]
  decide

/-- The mounted image, with a path in user memory. -/
theorem exists_rootCall (name : Buffer dirsiz) : ∃ x s, CallAt x s ∧
    x.mem.copyinstr 0 128 = some [slash, 120] ∧
    x.opens name 0 createFlag = .create rootino (copyElem name [120]) ∧
    ∃ r t, (sysOpen name 0 createFlag).run machine s = .ok (r, t) := by
  obtain ⟨img, hmake⟩ := make_main
  obtain ⟨y, s, -, hy, -⟩ := mount_image main_allowed hmake
  have hrecorded := hy.recorded
  have hroot := hrecorded.node rootino le_rfl le_rfl
  have hbytes : (Record.of mainCalls).bytes rootino =
      [⟨rootino, Buffer.zero.write 0 [dot]⟩,
        ⟨rootino, Buffer.zero.write 0 [dot, dot]⟩].flatMap Dirent.encode := rfl
  have htypes : (Record.of mainCalls).types = [tDir] := rfl
  have honly : ∀ i, 1 < i → (Record.of mainCalls).types.getD (i - 1) 0 ≠ tDir := fun i hi => by
    obtain ⟨j, rfl⟩ : ∃ j, i = j + 2 := ⟨i - 2, by omega⟩
    rw [htypes]
    exact show (0 : BitVec 16) ≠ tDir by decide
  obtain ⟨hwalkable, htyped⟩ := walkable_of_says hrecorded hy.plain rfl honly hbytes (by decide)
  obtain ⟨hintact, hvolume⟩ := hy.intact.seek 0 0 slashX
  have hsb : (y.seek 0 0 slashX).mem.sb = layoutSb := hy.sb
  obtain ⟨order, hrefines⟩ := hy.refines
  have hcall : CallAt (y.seek 0 0 slashX) { s with mem := (y.seek 0 0 slashX).mem } :=
    { intact := hintact
      walkable := by
        rw [hvolume, hsb]
        exact hwalkable
      refines := ⟨order, { hrefines with mem := rfl }⟩
      inv := hy.inv.withMem rfl
      unlocked := hy.unlocked
      outstanding := hy.outstanding.ge
      small := by
        have hsize : (y.seek 0 0 slashX).mem.log.size = 30 := hy.size
        rw [hsize]
        decide
      marks := hy.marks
      sizes := fun i _ => by
        rw [hvolume]
        exact hy.size_le i
      files := hy.files.seek (by decide) slashX }
  have hpath : (y.seek 0 0 slashX).mem.copyinstr 0 128 = some [slash, 120] := rfl
  have hcut : cut (copyElem name [120]) = [120] := cut_copyElem name (by decide)
  have hfind : y.volume.find rootino (copyElem name [120]) = none :=
    hroot.find_root (by rw [hcut]; decide) (by rw [hcut]; decide)
  have hnamex : y.volume.namex true [slash, 120] name = (some rootino, copyElem name [120]) := by
    have hskip : skipelem [slash, 120] name = some ([], copyElem name [120]) := rfl
    rw [Volume.namex, Volume.resolve, hskip]
    simp only
    rw [if_neg (not_not.mpr hwalkable.root), if_pos ⟨trivial, trivial⟩]
  have hopens : (y.seek 0 0 slashX).opens name 0 createFlag =
      .create rootino (copyElem name [120]) := by
    rw [Session.opens, hpath, hvolume]
    show y.volume.opens [slash, 120] name ⟨createFlag.setWidth 32⟩ = _
    rw [Volume.opens, if_pos (by decide), hnamex]
    simp only [hfind]
  have haccepts : AcceptsOpen sureMode (y.seek 0 0 slashX)
      (.create rootino (copyElem name [120])) := by
    refine ⟨⟨fun hfew => ?_, fun hno => absurd ?_ hno⟩, fun d name' hnew => ?_⟩
    · have hfree : (y.seek 0 0 slashX).mem.freeSlots = ninode := hy.freeSlots
      rw [hfree] at hfew
      exact absurd hfew (by decide)
    · rw [hvolume, hsb]
      exact htyped
    · obtain ⟨rfl, rfl⟩ := OpenResult.create.inj hnew
      refine ⟨fun hnone => ?_, fun hfull => ?_, fun hlong => ?_⟩
      · refine absurd ?_ (hnone 2 (by decide) (by rw [hsb]; decide))
        rw [hvolume, (hrecorded.free 2 (by decide)).1]
      · rw [hvolume, hroot.freeEntry_root, missing_root hroot (by decide)] at hfull
        exact absurd hfull (Nat.not_lt_zero _)
      · rw [hvolume, hroot.freeEntry_root] at hlong
        exact absurd hlong (by decide)
  have hwp := hcall.makes_entry hopens haccepts (fun _ => hy.fits (by decide))
    fun hno => absurd hy.admits hno
  exact ⟨_, _, hcall, hpath, hopens, ok_of_sure hwp hcall.refines⟩

/-- A name that is there; and the path `/x`, when the stack is clear and when it is not. -/
theorem entry_tail_root :
    (∃ x s ip r t r' t', ∃ y y' : Session, RootLocked x s ip ∧
      (dirlink ip (Buffer.zero.write 0 [dot]) rootino).run machine s = .ok (r, t) ∧
      (dirlink ip (Buffer.zero.write 0 [dot, 0, 65]) rootino).run machine s = .ok (r', t') ∧
      y.volume.bytes rootino 32 16 = y'.volume.bytes rootino 32 16) ∧
    (∃ x s r t, ∃ y : Session, CallAt x s ∧
      (sysOpen Buffer.zero 0 createFlag).run machine s = .ok (r, t) ∧
      Padded (y.volume.entry rootino (x.volume.freeEntry rootino)).name) ∧
    ∃ x s r t, ∃ y : Session, CallAt x s ∧
      (sysOpen dirtyName 0 createFlag).run machine s = .ok (r, t) ∧
      ¬ Padded (y.volume.entry rootino (x.volume.freeEntry rootino)).name := by
  have hcomponents : components [slash, 120] = [[120]] := rfl
  refine ⟨?_, ?_, ?_⟩
  · obtain ⟨x, s, ip, hroot⟩ := exists_rootLocked
    obtain ⟨hentries, hentry, -, hdir, hdistinct⟩ := root_entries hroot.contains
    obtain ⟨r, t, hrun⟩ := ok_of_sure (hroot.links_wp (Buffer.zero.write 0 [dot])) hroot.refines
    obtain ⟨r', t', hrun'⟩ :=
      ok_of_sure (hroot.links_wp (Buffer.zero.write 0 [dot, 0, 65])) hroot.refines
    have htx : Tx anyMode 0 0 x :=
      { hroot.tx with
        budget := False.elim
        room := False.elim
        fits := False.elim }
    obtain ⟨y, y', -, -, hiff⟩ :=
      entry_tail.1 hroot.toFileAt hdir htx (by decide) _ _ _ _ _ hrun hrun'
    have hnames : x.volume.Names rootino (Buffer.zero.write 0 [dot]) 0 := by
      rw [Volume.Names, hentry]
      exact ⟨by decide, rfl⟩
    have hfind := hdistinct.find_eq (by omega) hnames
    rw [hroot.contains.freeEntry_root] at hiff
    exact ⟨x, s, ip, r, t, r', t', y, y', hroot, hrun, hrun',
      hiff.mpr (.inr (by rw [hfind]; exact Option.some_ne_none 0))⟩
  · obtain ⟨x, s, hcall, hpath, hopens, r, t, hrun⟩ := exists_rootCall Buffer.zero
    obtain ⟨y, -, hiff⟩ := entry_tail.2 hcall hpath hopens r t hrun
    refine ⟨x, s, r, t, y, hcall, hrun, hiff.mpr ?_⟩
    rw [hcomponents]
    exact fun j _ _ => Buffer.get_zero j
  · obtain ⟨x, s, hcall, hpath, hopens, r, t, hrun⟩ := exists_rootCall dirtyName
    obtain ⟨y, -, hiff⟩ := entry_tail.2 hcall hpath hopens r t hrun
    refine ⟨x, s, r, t, y, hcall, hrun, fun hpadded => ?_⟩
    have hclean := hiff.mp hpadded
    rw [hcomponents] at hclean
    have hzero : dirtyName.get 2 = 0 := hclean 2 (by decide) (by decide)
    exact absurd hzero (by decide)

end RiscvOs
