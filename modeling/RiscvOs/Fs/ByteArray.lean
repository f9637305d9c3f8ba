import RiscvOs.Mkfs.Agree

/-!
# An inode is a byte array

`readi` and `writei` go through a file block by block; what they do is to copy from and to
lay bytes over one array, the contents of the inode.
-/

namespace RiscvOs

open Effect Bytes Kern Bio

/-- The contents of a file once `src` has been laid over them at offset `off`. -/
def splice (off : ℕ) (src old : List UInt8) : List UInt8 :=
  old.take off ++ src ++ old.drop (off + src.length)

/-- `writei` of `src` to inode `i` at offset `off` has led from `v` to `v'`. -/
structure WriteRight (v v' : Volume) (n i off : ℕ) (src : List UInt8) : Prop where
  contents : v'.contents i = splice off src (v.contents i)
  node : ∃ addrs size, v'.node i = { v.node i with addrs := addrs, size := size }
  size : (v'.node i).size.toNat = max (v.node i).size.toNat (off + src.length)
  /-- No other inode changes. -/
  other : ∀ j, j ≠ i → v'.node j = v.node j
  bytes : ∀ j < n, j ≠ i → ∀ p < maxfile * bsize, v'.byte j p = v.byte j p
  /-- Bits are set for blocks that the inode has been given, and no other bit changes. -/
  bitmap : ∀ b, v'.used b ≠ v.used b → v.used b = false ∧ v'.Holds i b

/-- What code that may log any number of blocks is checked for: the blocks may be more than
the log takes. -/
def bigMode : Mode where
  strict := False
  limited := False
  capped := id
  err e := e = .panic "log: too big"
  big _ := rfl

/-- What code that keeps to the log is checked for: only the buffer cache may lack room. -/
def tameMode : Mode where
  strict := False
  limited := True
  capped := fun _ => trivial
  err _ := False
  big := fun h => absurd trivial h

section
variable {v v' : Volume} {n i off : ℕ} {src : List UInt8}

/-- The array of a file that has been overlaid. -/
theorem contents_writtenTo (h : v.WrittenTo v' n i off src)
    (hsize : (v.node i).size.toNat ≤ maxfile * bsize) (hoff : off ≤ (v.node i).size.toNat)
    (hfit : off + src.length ≤ maxfile * bsize) :
    (v'.node i).size.toNat = max (v.node i).size.toNat (off + src.length) ∧
      v'.contents i = splice off src (v.contents i) := by
  obtain ⟨w, hw, rfl⟩ := h
  change _ ≤ 268 * 1024 at hsize
  change _ ≤ 268 * 1024 at hfit
  have hnode : ((w.setSize i (max (v.node i).size.toNat (off + src.length))).node i).size.toNat =
      max (v.node i).size.toNat (off + src.length) := by
    rw [Volume.setSize, Volume.setNode_node_same, BitVec.toNat_ofNat, Nat.mod_eq_of_lt (by omega)]
  have hbyte : ∀ p < max (v.node i).size.toNat (off + src.length),
      (w.setSize i (max (v.node i).size.toNat (off + src.length))).byte i p =
        overlay (v.byte i) off src p := fun p hp => by
    have hblock : p / bsize < maxfile := by
      change p / 1024 < 268
      omega
    exact (Volume.byte_congr (Volume.slot_setSize w i _ i) rfl).trans (hw.own p hblock)
  refine ⟨hnode, List.ext_getElem ?_ fun p hp hp' => ?_⟩
  · rw [Volume.length_contents, hnode, splice, List.length_append, List.length_append,
      List.length_take, List.length_drop, Volume.length_contents]
    omega
  · rw [Volume.length_contents, hnode] at hp
    have hleft : (w.setSize i (max (v.node i).size.toNat (off + src.length))).contents i =
        (List.range (max (v.node i).size.toNat (off + src.length))).map fun p =>
          overlay (v.byte i) off src p := by
      rw [Volume.contents, hnode, Volume.bytes]
      refine List.map_congr_left fun p hp => ?_
      rw [Nat.zero_add]
      exact hbyte p (List.mem_range.mp hp)
    have hold : ∀ p, (hp : p < (v.contents i).length) → (v.contents i)[p] = v.byte i p :=
      fun p hp => by simp [Volume.contents, Volume.bytes]
    have hlen := Volume.length_contents v i
    simp only [hleft, List.getElem_map, List.getElem_range, splice]
    unfold overlay
    -- before, inside and after the bytes that were written
    by_cases hbefore : p < off
    · have htake : p < ((v.contents i).take off).length := by
        rw [List.length_take]
        omega
      rw [if_neg (by omega), List.getElem_append_left (by rw [List.length_append]; omega),
        List.getElem_append_left htake, List.getElem_take, hold]
    · have hskip : ((v.contents i).take off).length = off := by
        rw [List.length_take]
        omega
      by_cases hinside : p < off + src.length
      · have hin : p - ((v.contents i).take off).length < src.length := by omega
        rw [if_pos ⟨not_lt.mp hbefore, hinside⟩,
          List.getElem_append_left (by rw [List.length_append]; omega),
          List.getElem_append_right (by omega)]
        simp only [hskip] at hin ⊢
        rw [List.getD_eq_getElem?_getD, List.getElem?_eq_getElem hin, Option.getD_some]
      · rw [if_neg (by omega), List.getElem_append_right (by rw [List.length_append]; omega),
          List.getElem_drop, hold]
        congr 1
        rw [List.length_append, hskip]
        omega

/-- What `writei` changes. -/
theorem WriteRight.of_writtenTo (h : v.WrittenTo v' n i off src)
    (hsize : (v.node i).size.toNat ≤ maxfile * bsize) (hoff : off ≤ (v.node i).size.toNat)
    (hfit : off + src.length ≤ maxfile * bsize) : WriteRight v v' n i off src := by
  obtain ⟨hnode, hcontents⟩ := contents_writtenTo h hsize hoff hfit
  obtain ⟨w, hw, rfl⟩ := h
  have hslot := Volume.slot_setSize w i (max (v.node i).size.toNat (off + src.length))
  refine ⟨hcontents, ?_, hnode, fun j hj => ?_, fun j hj hji p hp => ?_, fun b hb => ?_⟩
  · obtain ⟨addrs, haddrs⟩ := hw.fields
    refine ⟨addrs, BitVec.ofNat 32 (max (v.node i).size.toNat (off + src.length)), ?_⟩
    rw [Volume.setSize, Volume.setNode_node_same, haddrs]
  · exact (Volume.setNode_node_of_ne hj).trans (hw.node j hj)
  · exact (Volume.byte_congr (hslot j) rfl).trans
      (hw.byte j hj hji p (Nat.div_lt_of_lt_mul (by rw [Nat.mul_comm]; exact hp)))
  · have hnew : w.used b = true := by
      by_contra hfalse
      have hfree : w.used b = false := Bool.eq_false_of_not_eq_true hfalse
      refine hb (hfree.trans ?_)
      by_contra hold
      have hkept := hw.used b (Bool.eq_true_of_not_eq_false (Ne.symm hold))
      rw [hfree] at hkept
      cases hkept
    have hfree : v.used b = false := by
      by_contra hold
      exact hb (hnew.trans (Bool.eq_true_of_not_eq_false hold).symm)
    refine ⟨hfree, ?_⟩
    rcases hw.new b hnew with hold | ⟨hne, k, hk, heq⟩
    · rw [hfree] at hold
      cases hold
    · exact ⟨hne, k, hk, (hslot i k).trans heq⟩

end

open OnSession Mkfs

/-- What is assumed of the inode in the slot `ip`: no block is held twice, the slot holds
inode `i`, and its size is no more than a file can have. -/
structure FileAt (x : Session) (s : Machine) (stale : Set ℕ) (pins : Pins) (ip : Fin ninode)
    (i : ℕ) : Prop where
  refines : ∃ order, Refines rootdev order x.toView s
  intact : x.Intact stale pins
  locked : x.Locked ip i
  size_le : (x.volume.node i).size.toNat ≤ maxfile * bsize

section
variable {mode : Mode} {x : Session} {s : Machine} {stale : Set ℕ} {pins : Pins}
  {ip : Fin ninode} {i : ℕ}

/-- `writei` lays the bytes over the contents. -/
theorem FileAt.writes (h : FileAt x s stale pins ip i) {off : ℕ} {src : List UInt8}
    (hoff : off ≤ (x.volume.node i).size.toNat) (hfit : off + src.length ≤ maxfile * bsize)
    (hroom : x.volume.missing i (Volume.slotsIn off src.length) ≤ x.volume.free x.mem.sb.size)
    (htx : Tx mode (0 + 2 + blocksIn off src.length) (0 + 2) x) :
    (writei ip src off).wp (sessionRules mode)
      (fun r y => r = src.length ∧ y.Intact stale pins ∧ y.Locked ip i ∧
        x.volume.WrittenTo y.volume x.mem.sb.ninodes i off src) x := by
  have hbound : maxfile * bsize < 2 ^ 32 := by decide
  rw [← Prog.bind_ret (writei ip src off)]
  refine wp_writei h.intact h.locked (by omega) (by omega) htx
    (fun hshort => absurd hroom (not_le.mpr hshort)) (fun hlt => absurd hfit (not_le.mpr hlt))
    (fun hbad => absurd hbad (by omega)) fun _ _ y hy _ hwritten hlocked _ =>
      OnSession.wp_done.mpr ⟨rfl, hy, hlocked, hwritten⟩

/-- `readi` copies from the contents. -/
theorem FileAt.reads (h : FileAt x s stale pins ip i) {off n : ℕ} (hoff : off < 2 ^ 32)
    (hn : n < 2 ^ 32) (hcalm : Calm mode (0 + 1) x) :
    (readi ip off n).wp (sessionRules mode)
      (fun r _ => r = readBytes (x.volume.contents i) off n) x := by
  rw [← Prog.bind_ret (readi ip off n)]
  refine wp_readi h.intact h.locked hcalm h.size_le hoff hn (OnSession.wp_done.mpr ?_)
  exact Volume.read_eq ..

/-- A program fails as it is allowed to, or for want of a buffer. -/
theorem error_of_wp {α : Type} {p : Kern α} {Q : α → Session → Prop}
    (hwp : p.wp (sessionRules mode) Q x) (hrefines : ∃ order, Refines rootdev order x.toView s)
    {e : Stop} (hrun : p.run machine s = .error e) :
    mode.err e ∨ ¬ mode.strict ∧ e = .panic "bget: no buffers" := by
  rcases (session_simulation mode).run hwp hrefines with
    ⟨e', hrun', herr | ⟨_, -, hlax, hextra, -⟩⟩ | ⟨_, _, _, -, hok, -⟩
  · rw [hrun] at hrun'
    cases hrun'
    exact .inl herr
  · rw [hrun] at hrun'
    cases hrun'
    exact .inr ⟨hlax, hextra⟩
  · rw [hrun] at hok
    cases hok

/-- A program that may not fail ends. -/
theorem ok_of_sure {α : Type} {p : Kern α} {Q : α → Session → Prop}
    (hwp : p.wp (sessionRules sureMode) Q x)
    (hrefines : ∃ order, Refines rootdev order x.toView s) :
    ∃ r t, p.run machine s = .ok (r, t) := by
  rcases (session_simulation sureMode).run hwp hrefines with
    ⟨_, -, herr | ⟨_, -, hlax, -⟩⟩ | ⟨r, _, t, -, hok, -⟩
  · exact herr.elim
  · exact absurd trivial hlax
  · exact ⟨r, t, hok⟩

end

/-- `writei` lays the bytes over the contents, `readi` copies from them.  Neither has a way
to fail but that the log or the buffer cache has no room; where they have, both return. -/
theorem byte_array {x : Session} {s : Machine} {stale : Set ℕ} {pins : Pins} {ip : Fin ninode}
    {i : ℕ} (h : FileAt x s stale pins ip i) :
    (∀ off src, Tx bigMode 0 0 x → off ≤ (x.volume.node i).size.toNat →
      off + src.length ≤ maxfile * bsize →
      x.volume.missing i (Volume.slotsIn off src.length) ≤ x.volume.free x.mem.sb.size →
      (∀ r t, (writei ip src off).run machine s = .ok (r, t) → r = src.length ∧
        ∃ y, FileAt y t stale pins ip i ∧
          WriteRight x.volume y.volume x.mem.sb.ninodes i off src) ∧
      (∀ e, (writei ip src off).run machine s = .error e →
        e = .panic "log: too big" ∨ e = .panic "bget: no buffers") ∧
      (Tx sureMode (2 + blocksIn off src.length) 2 x →
        ∃ r t, (writei ip src off).run machine s = .ok (r, t))) ∧
    ∀ off < 2 ^ 32, ∀ n < 2 ^ 32, LogInv rootdev ∅ x.toView →
      (∀ r t, (readi ip off n).run machine s = .ok (r, t) →
        r = readBytes (x.volume.contents i) off n) ∧
      (∀ e, (readi ip off n).run machine s = .error e → e = .panic "bget: no buffers") ∧
      (x.Fits 1 → ∃ r t, (readi ip off n).run machine s = .ok (r, t)) := by
  refine ⟨fun off src htx hoff hfit hroom => ?_, fun off hoff n hn hinv => ?_⟩
  · have hwp := h.writes hoff hfit hroom
      { htx with
        budget := False.elim
        fits := False.elim }
    refine ⟨fun r t hrun => ?_, fun e hrun => ?_, fun hsure => ?_⟩
    · obtain ⟨y, hrefines, hr, hy, hlocked, hwritten⟩ :=
        (session_simulation bigMode).run_ok hwp h.refines hrun
      have hright := WriteRight.of_writtenTo hwritten h.size_le hoff hfit
      refine ⟨hr, y, ⟨hrefines, hy, hlocked, ?_⟩, hright⟩
      rw [hright.size]
      exact max_le h.size_le hfit
    · exact (error_of_wp hwp h.refines hrun).imp_right And.right
    · have hsure' : Tx sureMode (0 + 2 + blocksIn off src.length) (0 + 2) x := by
        rwa [Nat.zero_add]
      exact ok_of_sure (h.writes hoff hfit hroom hsure') h.refines
  · have hwp := h.reads hoff hn (⟨hinv, False.elim⟩ : Calm tameMode (0 + 1) x)
    refine ⟨fun r t hrun => ?_, fun e hrun => ?_, fun hfits => ?_⟩
    · obtain ⟨_, -, hr⟩ := (session_simulation tameMode).run_ok hwp h.refines hrun
      exact hr
    · rcases error_of_wp hwp h.refines hrun with herr | ⟨-, herr⟩
      · exact herr.elim
      · exact herr
    · exact ok_of_sure (h.reads hoff hn (⟨hinv, fun _ => hfits⟩ : Calm sureMode (0 + 1) x)) h.refines

/-- Open a transaction and lock an inode. -/
def lockInode (inum : ℕ) : Kern (Fin ninode) :=
  beginOp >>= fun _ => iget rootdev inum >>= fun ip => ilock ip >>= fun _ => Prog.ret ip

/-- The state right after an inode of a file system at rest has been locked. -/
theorem lockInode_wp {x : Session} (inum : ℕ) (hx : x.Resting) (hmarks : x.marks = ∅)
    (hempty : ∀ ip, (x.mem.inode ip).ref = 0) (hlt : inum < x.mem.sb.ninodes)
    (htype : (x.volume.node inum).type ≠ 0) :
    (lockInode inum).wp (sessionRules sureMode) (fun ip y => y.Intact ∅ (pin ip) ∧
      y.Locked ip inum ∧ y.volume = x.volume ∧ y.mem.sb = x.mem.sb ∧ y.mem.file = x.mem.file ∧
      Tx sureMode 4 2 y) x := by
  have hadmits : x.mem.log.admits := by
    refine ⟨hx.idle, ?_⟩
    rw [hx.empty, hx.outstanding, hx.size]
    decide
  have hfits : x.Fits (2 + maxOpBlocks) := hx.fits (by decide)
  refine wp_beginOp hx.inv hx.unlocked hx.outstanding.ge (by rw [hx.size]; decide) hmarks
    (fun _ => hfits) (fun hno => absurd hadmits hno) fun htx => ?_
  refine wp_iget hx.intact.begin hlt (fun _ hfull => ?_) fun ip y hy hlooks hinum => ?_
  · have hslot := List.find?_eq_none.mp hfull 0 (List.mem_finRange 0)
    have hzero := hempty 0
    change ¬ decide ((x.mem.inode 0).ref = 0) = true at hslot
    simp [hzero] at hslot
  have hpin : 0 < y.mem.filesOn ip + (0 + pin ip) ip := by
    rw [Pi.add_apply, pin_same]
    omega
  refine wp_ilock hy (hlooks.tx htx).calm hpin hinum (fun _ hzero => ?_)
    fun z hz hlooks' hip _ => OnSession.wp_done.mpr
      ⟨?_, hip, ?_, ?_, ?_, hlooks'.tx (hlooks.tx htx)⟩
  · rw [hlooks.volume] at hzero
    exact absurd hzero htype
  · rwa [zero_add] at hz
  · exact hlooks'.volume.trans hlooks.volume
  · exact hlooks'.frame.sb.trans hlooks.frame.sb
  · exact hlooks'.frame.file.trans hlooks.frame.file

/-- The state `s` with the root directory of a new image locked. -/
structure RootLocked (x : Session) (s : Machine) (ip : Fin ninode) : Prop
    extends FileAt x s ∅ (pin ip) ip rootino where
  contains : SaysNode x.volume (Record.of mainCalls) rootino
  tx : Tx sureMode 4 2 x
  closed : ∀ f, (x.mem.file f).ref = 0

theorem exists_rootLocked : ∃ x s ip, RootLocked x s ip := by
  obtain ⟨img, hmake⟩ := make_main
  obtain ⟨y, k, -, hy, -⟩ := mount_image main_allowed hmake
  have hsaid : SaysNode y.volume (Record.of mainCalls) rootino :=
    hy.recorded.node rootino le_rfl le_rfl
  have hwp := lockInode_wp rootino hy.toResting hy.marks hy.empty_icache
    (by rw [hy.sb]; decide) hsaid.typed
  obtain ⟨ip, s, hrun⟩ := ok_of_sure hwp hy.refines
  obtain ⟨x, hrefines, hx, hip, hsame, -, hfile, htx⟩ :=
    (session_simulation sureMode).run_ok hwp hy.refines hrun
  have hsays : SaysNode x.volume (Record.of mainCalls) rootino := by
    rw [hsame]
    exact hsaid
  have hsize : (x.volume.node rootino).size.toNat = 32 := hsays.size
  refine ⟨x, s, ip, ⟨hrefines, hx, hip, by rw [hsize]; decide⟩, hsays, htx, fun f => ?_⟩
  obtain ⟨log, hmem⟩ := hy.mem
  rw [hfile, hmem]

/-- The first block of the root directory of a new image is there. -/
theorem missing_root {v : Volume} (h : SaysNode v (Record.of mainCalls) rootino) {off n : ℕ}
    (hend : off + n ≤ bsize) : v.missing rootino (Volume.slotsIn off n) = 0 := by
  -- what the block holds is not zero
  have hslot : v.slot rootino 0 ≠ 0 := by
    intro hzero
    have hbyte : v.byte rootino 0 = 0 := if_pos hzero
    have hfirst := congrArg (·.head?) h.bytes
    change some (v.byte rootino 0) = some 1 at hfirst
    rw [hbyte] at hfirst
    cases hfirst
  refine Finset.card_eq_zero.mpr (Finset.filter_eq_empty_iff.mpr fun k hk hzero => hslot ?_)
  obtain ⟨-, bn, -, ⟨-, hbn⟩, hk⟩ := Finset.mem_filter.mp hk
  have hbn : bn = 0 := by
    change off + n ≤ 1024 at hend
    change bn * 1024 < off + n at hbn
    omega
  subst hbn
  rcases hk with rfl | ⟨hle, -⟩
  · exact hzero
  · exact absurd hle (by decide)

/-- A byte is written to the start of the root directory of a new image. -/
theorem byte_array_root : ∃ x s ip, FileAt x s ∅ (pin ip) ip rootino ∧
    ∃ t y, (writei ip [7] 0).run machine s = .ok (1, t) ∧ FileAt y t ∅ (pin ip) ip rootino ∧
      y.volume.contents rootino = splice 0 [7] (x.volume.contents rootino) := by
  obtain ⟨x, s, ip, hfile, hsays, htx, -⟩ := exists_rootLocked
  have hmissing : x.volume.missing rootino (Volume.slotsIn 0 1) = 0 :=
    missing_root hsays (by decide)
  obtain ⟨hright, -, hends⟩ := (byte_array hfile).1 0 [7]
    { htx with
      budget := False.elim
      room := False.elim
      fits := False.elim }
    (Nat.zero_le _) (by decide) (by rw [List.length_singleton, hmissing]; exact Nat.zero_le _)
  obtain ⟨r, u, hwrites⟩ := hends (htx.less (by decide) le_rfl)
  obtain ⟨hr, y, hy, hwritten⟩ := hright r u hwrites
  subst hr
  exact ⟨x, s, ip, hfile, u, y, hwrites, hy, hwritten.contents⟩

end RiscvOs
