import RiscvOs.Fs.Links
import Mathlib.Data.List.GetD

/-!
# The images of `mkfs` have no stray name or block

`mkfs` marks a block only when it lays out the disk or appends to an inode, so a data block is
marked exactly if an inode holds it (`mkfs_bitmap`).  An image with one directory that names each
other inode once therefore has no stray name or block (`OneDir.kept`).
-/

namespace RiscvOs.Mkfs

open Bytes Image

/-- Every data block that is marked is held by an inode. -/
abbrev Held (v : Volume) : Prop := v.Tight layoutSb.ninodes layoutSb.datastart layoutSb.size

/-- The image of the layout, before anything is in it. -/
theorem layout_held {img : Image} (h : layout = .ok img) : MadeSoFar img {} ∧ Held img.volume := by
  have hsizes := layoutSizes
  obtain ⟨img', hlayout, hmarked, howned, hnext, hnode⟩ := layout_spec
  obtain ⟨base, hfold, -, -, -, hblock, -⟩ :=
    mark_all (l := List.range firstFree) (fun b hb => by
      rw [List.mem_range] at hb
      change b < 1000
      omega) { sb := layoutSb, freeblock := firstFree }
  have hfree : img'.freeblock = firstFree := by
    rw [layout, hfold] at hlayout
    cases hlayout
    exact hblock
  have hsame : img' = img := Except.ok.inj (hlayout.symm.trans h)
  subst hsame
  have hempty : Says img'.volume {} :=
    { few := by decide
      node := fun i hlo hhi => absurd hlo (not_le.mpr (Nat.lt_succ_of_le hhi))
      free := fun i _ => ⟨hnode i, rfl⟩ }
  refine ⟨{ hmarked with owned := howned, next := hnext, recorded := hempty }, ?_⟩
  intro b hlo htop hused
  -- what is marked lies before the data blocks
  rw [hmarked.marked b (by change b < 1000; omega)] at hused
  have hlt : b < img'.freeblock := of_decide_eq_true hused
  omega

section
variable {img img' : Image} {r : Record} {v : Volume} {es : List Dirent} {i : ℕ}

theorem MadeSoFar.held_step {call : Call} (h : MadeSoFar img r) (hheld : Held img.volume)
    (hallowed : call.Allowed r) (hrun : call.run img = .ok img') : Held img'.volume := by
  have hlo : layoutSb.datastart ≠ 0 := by decide
  cases call with
  | ialloc type =>
      obtain ⟨-, hfew⟩ := hallowed
      change (img.ialloc type >>= fun result => _) = _ at hrun
      cases hstep : img.ialloc type with
      | error e => rw [hstep] at hrun; cases hrun
      | ok result =>
          obtain ⟨inum, img₁⟩ := result
          rw [hstep] at hrun
          cases hrun
          obtain ⟨-, -, -, -, hvolume⟩ :=
            ialloc_spec h.toMarked h.owned (by rw [h.next]; exact hfew) hstep
          rw [hvolume]
          refine hheld.setNode hlo (fun k _ => Volume.slot_of_addrs_zero (fun a => ?_) k) _
          rw [h.next, (h.recorded.free _ (Nat.lt_succ_self _)).1]
  | iappend inum data =>
      obtain ⟨-, hhi⟩ := hallowed
      have hlt : inum < layoutSb.ninodes := lt_of_le_of_lt hhi h.recorded.few
      obtain ⟨-, -, -, ⟨w, hw, hvolume⟩, -⟩ := iappend_spec h.toMarked h.owned hlt hrun
      have hwritten : Volume.WrittenTo img.volume img'.volume layoutSb.ninodes inum
          (img.volume.node inum).size.toNat data := by
        refine ⟨w, hw, ?_⟩
        rw [max_eq_right (Nat.le_add_right _ _)]
        exact hvolume
      exact hwritten.tight hlt hheld hlo

theorem MadeSoFar.held_steps {calls : List Call} (h : MadeSoFar img r) (hheld : Held img.volume)
    (hallowed : Allowed r calls) (hrun : calls.foldlM Call.run img = .ok img') :
    Held img'.volume := by
  induction calls generalizing img r with
  | nil =>
      cases hrun
      exact hheld
  | cons call rest ih =>
      rw [List.foldlM_cons] at hrun
      cases hstep : call.run img with
      | error e => rw [hstep] at hrun; cases hrun
      | ok img₁ =>
          rw [hstep] at hrun
          exact ih (h.step hallowed.1 hstep) (h.held_step hheld hallowed.1 hstep) hallowed.2 hrun

/-- No image of `mkfs` has a marked data block that no inode holds. -/
theorem held_of_make {calls : List Call} (hallowed : Allowed {} calls)
    (hmake : make calls = .ok img) : Held (imageVolume layoutSb img.disk) := by
  obtain ⟨img₀, hlayout, -⟩ := layout_spec
  obtain ⟨hstart, hheld⟩ := layout_held hlayout
  rw [make, hlayout] at hmake
  change (calls.foldlM Call.run img₀ >>= _) = _ at hmake
  cases hfold : calls.foldlM Call.run img₀ with
  | error e => rw [hfold] at hmake; cases hmake
  | ok img₁ =>
      rw [hfold] at hmake
      cases hmake
      rw [(hstart.steps hallowed hfold).volume_writeBitmap]
      exact hstart.held_steps hheld hallowed hfold

/-- A block is marked exactly if it is part of the layout or held, and it is held once. -/
theorem mkfs_bitmap {calls : List Call} (hallowed : Allowed {} calls)
    (hmake : make calls = .ok img) {b : ℕ} (hb : b < layoutSb.size) :
    (imageVolume layoutSb img.disk).used b = true ↔ b < layoutSb.datastart ∨
      ∃ i < layoutSb.ninodes, ∃ k < nslots, (imageVolume layoutSb img.disk).slot i k = b ∧
        ∀ j < layoutSb.ninodes, ∀ l < nslots, (imageVolume layoutSb img.disk).slot j l = b →
          j = i ∧ l = k := by
  have howned := (made_of_make hallowed hmake).owned
  constructor
  · intro hused
    rcases lt_or_ge b layoutSb.datastart with hlo | hlo
    · exact .inl hlo
    · obtain ⟨i, hi, k, hk, hslot⟩ := held_of_make hallowed hmake b hlo hb hused
      have hstart : layoutSb.datastart ≠ 0 := by decide
      refine .inr ⟨i, hi, k, hk, hslot, fun j hj l hl hslot' => ?_⟩
      exact howned.once j hj l hl i hi k hk (by omega) (hslot'.trans hslot.symm)
  · rintro (hlo | ⟨i, hi, k, hk, hslot, -⟩)
    · exact howned.reserved b hlo
    · by_cases hzero : b = 0
      · exact howned.reserved b (by rw [hzero]; decide)
      · rw [← hslot] at hzero ⊢
        exact (howned.inside i hi k hk hzero).2.2

theorem mkfs_bitmap_main : ∃ img, make mainCalls = .ok img ∧
    ((imageVolume layoutSb img.disk).used 46 = true ↔ 46 < layoutSb.datastart ∨
      ∃ i < layoutSb.ninodes, ∃ k < nslots, (imageVolume layoutSb img.disk).slot i k = 46 ∧
        ∀ j < layoutSb.ninodes, ∀ l < nslots, (imageVolume layoutSb img.disk).slot j l = 46 →
          j = i ∧ l = k) := by
  obtain ⟨img, hmake⟩ := make_main
  exact ⟨img, hmake, mkfs_bitmap main_allowed hmake (by decide)⟩

/-! ## One name each -/

/-- A record with one directory, whose entries have different names; each other inode is named
by one of them. -/
structure OneDir (r : Record) (es : List Dirent) : Prop where
  root : r.types.getD 0 0 = tDir
  only : ∀ i, 1 < i → r.types.getD (i - 1) 0 ≠ tDir
  bytes : r.bytes rootino = es.flatMap Dirent.encode
  inums : ∀ de ∈ es, de.inum ≤ r.types.length
  names : es.Pairwise fun a b => a.inum ≠ 0 → b.inum ≠ 0 → cut a.name ≠ cut b.name
  once : ∀ i, 1 < i → i ≤ r.types.length → es.countP (fun de => de.inum = i) = 1

/-- The positions at which a list has something. -/
theorem card_filter_getD {α : Type} (l : List α) (a : α) (p : α → Prop) [DecidablePred p] :
    ((Finset.range l.length).filter fun k => p (l.getD k a)).card = l.countP p := by
  induction l using List.reverseRecOn with
  | nil => rfl
  | append_singleton l b ih =>
      have hrest : ((Finset.range l.length).filter fun k => p ((l ++ [b]).getD k a)) =
          (Finset.range l.length).filter fun k => p (l.getD k a) := by
        refine Finset.filter_congr fun k hk => ?_
        have hlt := Finset.mem_range.mp hk
        rw [List.getD_append _ _ _ _ hlt]
      have hlast : (l ++ [b]).getD l.length a = b := by
        rw [List.getD_append_right _ _ _ _ le_rfl, Nat.sub_self, List.getD_cons_zero]
      rw [List.length_append, List.length_singleton, Finset.range_add_one, Finset.filter_insert,
        hlast, hrest, List.countP_append, List.countP_singleton]
      by_cases hb : p b
      · rw [if_pos hb, Finset.card_insert_of_notMem (by simp), ih, if_pos (decide_eq_true hb)]
      · rw [if_neg hb, ih, if_neg (by simpa using hb), Nat.add_zero]

namespace OneDir

theorem length_pos (h : OneDir r es) : rootino ≤ r.types.length := by
  have hroot := h.root
  by_contra hnone
  rw [List.getD_eq_getElem?_getD, List.getElem?_eq_none (by change ¬ 1 ≤ _ at hnone; omega)]
    at hroot
  exact absurd hroot (by decide)

/-- An inode of some type is one of the record. -/
theorem recorded (hsaid : Says v r) (hplain : Plain v) (htyped : (v.node i).type ≠ 0) :
    1 ≤ i ∧ i ≤ r.types.length := by
  constructor
  · by_contra hzero
    have hi : i = 0 := by omega
    rw [hi, hplain.zero] at htyped
    exact htyped rfl
  · by_contra hlong
    rw [(hsaid.free i (not_le.mp hlong)).1] at htyped
    exact htyped rfl

/-- The root directory is the only one. -/
theorem dir_iff (h : OneDir r es) (hsaid : Says v r) (hplain : Plain v) :
    (v.node i).type = tDir ↔ i = rootino := by
  constructor
  · intro htype
    obtain ⟨hlo, hhi⟩ := recorded hsaid hplain (by rw [htype]; decide)
    by_contra hne
    refine h.only i ?_ ((hsaid.node i hlo hhi).type.symm.trans htype)
    change ¬ i = 1 at hne
    omega
  · intro hi
    rw [hi]
    exact (hsaid.node rootino le_rfl h.length_pos).type.trans h.root

/-- The root directory holds the entries. -/
theorem entry (h : OneDir r es) (hsaid : Says v r) {k : ℕ} (hk : k < es.length) :
    v.entry rootino k = es.getD k ⟨0, Buffer.zero⟩ := by
  have hfew : r.types.length < 200 := hsaid.few
  have hle := h.inums _ (List.getElem_mem hk)
  obtain ⟨-, -, hentry⟩ := (hsaid.node rootino le_rfl h.length_pos).entries h.bytes
  rw [hentry k hk (by omega), List.getD_eq_getElem _ _ hk]

theorem entries (h : OneDir r es) (hsaid : Says v r) : v.entries rootino = es.length :=
  ((hsaid.node rootino le_rfl h.length_pos).entries h.bytes).1

/-- The names of an inode are the entries for it. -/
theorem links (h : OneDir r es) (hsaid : Says v r) (hplain : Plain v) (i : ℕ) :
    v.links layoutSb.ninodes i = es.countP fun de => de.inum = i := by
  have hroot : rootino < layoutSb.ninodes := by decide
  have hdirs : v.dirs layoutSb.ninodes = {rootino} := by
    ext d
    rw [Volume.mem_dirs, h.dir_iff hsaid hplain, Finset.mem_singleton]
    exact ⟨fun hd => hd.2, fun hd => ⟨hd ▸ hroot, hd⟩⟩
  rw [Volume.links, hdirs, Finset.sum_singleton, Volume.naming, h.entries hsaid,
    ← card_filter_getD es ⟨0, Buffer.zero⟩ fun de => de.inum = i]
  refine congrArg Finset.card (Finset.filter_congr fun k hk => ?_)
  rw [h.entry hsaid (Finset.mem_range.mp hk)]

/-- The image has no stray name or block. -/
theorem kept (h : OneDir r es) (hsaid : Says v r) (hplain : Plain v) (hheld : Held v) :
    v.Kept layoutSb.ninodes layoutSb.datastart layoutSb.size where
  zero := by rw [hplain.zero]
  single i _ htyped := by
    refine ⟨hplain.linked i htyped, fun hfile => ?_⟩
    obtain ⟨hlo, hhi⟩ := recorded hsaid hplain htyped
    have hne : i ≠ 1 := fun hi => hfile ((h.dir_iff hsaid hplain).mpr hi)
    rw [h.links hsaid hplain]
    exact h.once i (by omega) hhi
  unnamed i _ hne hfree := by
    rw [h.links hsaid hplain, List.countP_eq_zero]
    intro de hde hinum
    have hi : de.inum = i := of_decide_eq_true hinum
    have hle := h.inums de hde
    rw [hi] at hle
    exact (hsaid.node i (Nat.one_le_iff_ne_zero.mpr hne) hle).typed hfree
  distinct d _ htype k hk l hl hlive hlive' hsame := by
    obtain rfl := (h.dir_iff hsaid hplain).mp htype
    rw [h.entries hsaid] at hk hl
    rw [h.entry hsaid hk, List.getD_eq_getElem _ _ hk] at hlive hsame
    rw [h.entry hsaid hl, List.getD_eq_getElem _ _ hl] at hlive' hsame
    have hnames := List.pairwise_iff_getElem.mp h.names
    rcases lt_trichotomy k l with hlt | heq | hgt
    · exact absurd hsame (hnames k l hk hl hlt hlive hlive')
    · exact heq
    · exact absurd hsame.symm (hnames l k hl hk hgt hlive' hlive)
  empty i _ hfree k _ := by
    have hnode : v.node i = {} := by
      by_cases hzero : i = 0
      · rw [hzero]
        exact hplain.zero
      · refine (hsaid.free i ?_).1
        by_contra hle
        exact (hsaid.node i (Nat.one_le_iff_ne_zero.mpr hzero) (not_lt.mp hle)).typed hfree
    refine Volume.slot_of_addrs_zero (fun a => ?_) k
    rw [hnode]
  tight := hheld

end OneDir

end

/-- `main` makes a root directory with the entries `.` and `..`. -/
theorem main_oneDir : OneDir (Record.of mainCalls)
    [⟨rootino, Buffer.zero.write 0 [dot]⟩, ⟨rootino, Buffer.zero.write 0 [dot, dot]⟩] where
  root := rfl
  only i hi := by
    obtain ⟨j, rfl⟩ : ∃ j, i = j + 2 := ⟨i - 2, by omega⟩
    exact show (0 : BitVec 16) ≠ tDir by decide
  bytes := rfl
  inums := by decide
  names := by decide
  once i hlo hhi := by
    have hlen : (Record.of mainCalls).types.length = 1 := rfl
    omega

end RiscvOs.Mkfs
