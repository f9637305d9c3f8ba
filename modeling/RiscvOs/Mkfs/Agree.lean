import RiscvOs.Mkfs.Image
import RiscvOs.Fs.Boot
import RiscvOs.Fs.Ialloc

/-!
# The kernel reads what `mkfs` has written

A sequence of calls of `ialloc` and `iappend` is recorded as the types given to inodes 1, 2
and so on, and the bytes appended to each.  An image made by such calls says what the record
says, and so does the file system after the image has been mounted.
-/

namespace RiscvOs.Mkfs

open Effect Bytes Kern Bio

/-- The types given to inodes 1, 2, …, and the bytes appended to each inode. -/
structure Record where
  types : List (BitVec 16) := []
  bytes : ℕ → List UInt8 := fun _ => []

/-- One more call. -/
def Record.add (r : Record) : Call → Record
  | .ialloc type => { r with types := r.types ++ [type] }
  | .iappend inum data => { r with bytes := Function.update r.bytes inum (r.bytes inum ++ data) }

/-- What the calls ask for. -/
def Record.of (calls : List Call) : Record := calls.foldl Record.add {}

/-- No type is 0, there are fewer than 200 inodes, and bytes are appended to inodes that have
been allocated. -/
def Call.Allowed (r : Record) : Call → Prop
  | .ialloc type => type ≠ 0 ∧ r.types.length + 1 < layoutSb.ninodes
  | .iappend inum _ => 1 ≤ inum ∧ inum ≤ r.types.length

/-- All calls of a sequence are allowed. -/
def Allowed (r : Record) : List Call → Prop
  | [] => True
  | call :: rest => call.Allowed r ∧ Allowed (r.add call) rest

/-- What the record says of an inode that has been allocated. -/
structure SaysNode (v : Volume) (r : Record) (i : ℕ) : Prop where
  type : (v.node i).type = r.types.getD (i - 1) 0
  typed : (v.node i).type ≠ 0
  size : (v.node i).size.toNat = (r.bytes i).length
  small : (r.bytes i).length ≤ ndirect * bsize
  bytes : v.bytes i 0 (r.bytes i).length = r.bytes i

/-- The volume says what the record says. -/
structure Says (v : Volume) (r : Record) : Prop where
  few : r.types.length < layoutSb.ninodes
  node : ∀ i, 1 ≤ i → i ≤ r.types.length → SaysNode v r i
  free : ∀ i, r.types.length < i → v.node i = {} ∧ r.bytes i = []

section
variable {v w : Volume} {r : Record} {i : ℕ}

/-- A byte at an offset that a file of `mkfs` can have. -/
theorem offset_lt {p len : ℕ} (hp : p < len) (hlen : len ≤ ndirect * bsize) :
    p / bsize < maxfile := by
  change len ≤ 12 * 1024 at hlen
  change p / 1024 < 268
  omega

theorem SaysNode.of_same (h : SaysNode v r i) {r' : Record} (hnode : w.node i = v.node i)
    (hbyte : ∀ p, p / bsize < maxfile → w.byte i p = v.byte i p)
    (htype : r'.types.getD (i - 1) 0 = r.types.getD (i - 1) 0) (hbytes : r'.bytes i = r.bytes i) :
    SaysNode w r' i where
  type := by rw [hnode, htype]; exact h.type
  typed := by rw [hnode]; exact h.typed
  size := by rw [hnode, hbytes]; exact h.size
  small := by rw [hbytes]; exact h.small
  bytes := by
    rw [hbytes, ← h.bytes, h.bytes]
    refine (Volume.bytes_congr fun p _ hp => hbyte p (offset_lt hp ?_)).trans h.bytes
    rw [Nat.zero_add]
    exact h.small

/-- A new inode. -/
theorem Says.ialloc (h : Says v r) {type : BitVec 16} (htype : type ≠ 0)
    (hfew : r.types.length + 1 < layoutSb.ninodes) :
    Says (v.setNode (r.types.length + 1) { type := type, nlink := 1 }) (r.add (.ialloc type)) where
  few := by
    change (r.types ++ [type]).length < _
    rw [List.length_append, List.length_singleton]
    exact hfew
  node i hlo hhi := by
    change i ≤ (r.types ++ [type]).length at hhi
    rw [List.length_append, List.length_singleton] at hhi
    by_cases hi : i = r.types.length + 1
    · subst hi
      have hnil : r.bytes (r.types.length + 1) = [] := (h.free _ (Nat.lt_succ_self _)).2
      have hnil' : (r.add (.ialloc type)).bytes (r.types.length + 1) = [] := hnil
      refine ⟨?_, ?_, ?_, ?_, ?_⟩
      · rw [Volume.setNode_node_same]
        simp [Record.add]
      · rw [Volume.setNode_node_same]
        exact htype
      · rw [Volume.setNode_node_same, hnil']
        rfl
      · rw [hnil']
        exact Nat.zero_le _
      · rw [hnil']
        rfl
    · have hold : i ≤ r.types.length := by omega
      refine (h.node i hlo hold).of_same (Volume.setNode_node_of_ne hi)
        (fun p _ => Volume.byte_congr (Volume.slot_setNode_of_ne hi) rfl) ?_ rfl
      change (r.types ++ [type]).getD (i - 1) 0 = _
      rw [List.getD_eq_getElem?_getD, List.getElem?_append_left (by omega),
        List.getD_eq_getElem?_getD]
  free i hi := by
    change (r.types ++ [type]).length < i at hi
    rw [List.length_append, List.length_singleton] at hi
    have hfree := h.free i (by omega)
    exact ⟨(Volume.setNode_node_of_ne (by omega)).trans hfree.1, hfree.2⟩

/-- Bytes are appended. -/
theorem Says.iappend (h : Says v r) {inum : ℕ} {data : List UInt8} (hlo : 1 ≤ inum)
    (hhi : inum ≤ r.types.length)
    (hw : Volume.Written v w layoutSb.ninodes inum (r.bytes inum).length data)
    (hsmall : (r.bytes inum).length + data.length ≤ ndirect * bsize) :
    Says (w.setSize inum ((r.bytes inum).length + data.length)) (r.add (.iappend inum data)) where
  few := h.few
  node i hlo' hhi' := by
    have hi : i < layoutSb.ninodes := lt_of_le_of_lt hhi' h.few
    by_cases hne : i = inum
    · subst hne
      have hold := h.node i hlo hhi
      have hbytes : (r.add (.iappend i data)).bytes i = r.bytes i ++ data :=
        Function.update_self ..
      have hlen : (r.bytes i ++ data).length = (r.bytes i).length + data.length :=
        List.length_append
      obtain ⟨addrs, haddrs⟩ := hw.fields
      have hbyte : ∀ p, (w.setSize i ((r.bytes i).length + data.length)).byte i p = w.byte i p :=
        fun p => Volume.byte_congr (Volume.slot_setSize w i _ i) rfl
      refine ⟨?_, ?_, ?_, ?_, ?_⟩
      · rw [Volume.setSize, Volume.setNode_node_same, haddrs]
        exact hold.type
      · rw [Volume.setSize, Volume.setNode_node_same, haddrs]
        exact hold.typed
      · rw [Volume.setSize, Volume.setNode_node_same, hbytes, hlen, BitVec.toNat_ofNat]
        change (r.bytes i).length + data.length ≤ 12 * 1024 at hsmall
        omega
      · rw [hbytes, hlen]
        exact hsmall
      · rw [hbytes, hlen, Volume.bytes_append, Nat.zero_add]
        congr 1
        · refine (Volume.bytes_congr fun p _ hp => ?_).trans hold.bytes
          rw [Nat.zero_add] at hp
          rw [hbyte, hw.own p (offset_lt hp hold.small)]
          exact if_neg fun hand => absurd hand.1 (not_le.mpr hp)
        · refine List.ext_getElem (by rw [Volume.length_bytes]) fun j hj hj' => ?_
          have hj'' : j < data.length := hj'
          have hp : (r.bytes i).length + j < (r.bytes i).length + data.length := by omega
          have hget : (w.setSize i ((r.bytes i).length + data.length)).byte i
              ((r.bytes i).length + j) = data.getD j 0 := by
            rw [hbyte, hw.own _ (offset_lt hp hsmall), overlay, if_pos (by omega),
              Nat.add_sub_cancel_left]
          simp only [Volume.bytes, List.getElem_map, List.getElem_range, hget]
          rw [List.getD_eq_getElem?_getD, List.getElem?_eq_getElem hj'', Option.getD_some]
    · have hbytes : (r.add (.iappend inum data)).bytes i = r.bytes i :=
        Function.update_of_ne hne _ _
      refine (h.node i hlo' hhi').of_same ?_ (fun p hp => ?_) rfl hbytes
      · rw [Volume.setSize, Volume.setNode_node_of_ne hne, hw.node i hne]
      · exact (Volume.byte_congr (Volume.slot_setNode_of_ne hne) rfl).trans (hw.byte i hi hne p hp)
  free i hi := by
    have hi' : r.types.length < i := hi
    have hne : i ≠ inum := by omega
    have hfree := h.free i hi'
    refine ⟨?_, (Function.update_of_ne hne _ _).trans hfree.2⟩
    rw [Volume.setSize, Volume.setNode_node_of_ne hne, hw.node i hne]
    exact hfree.1

/-! ## Making an image -/

open Image

/-- The image after some calls. -/
structure MadeSoFar (img : Image) (r : Record) : Prop extends Marked img where
  owned : Owns img.volume
  next : img.freeinode = r.types.length + 1
  recorded : Says img.volume r

theorem MadeSoFar.step {img img' : Image} {call : Call} (h : MadeSoFar img r)
    (hallowed : call.Allowed r) (hrun : call.run img = .ok img') :
    MadeSoFar img' (r.add call) := by
  cases call with
  | ialloc type =>
      obtain ⟨htype, hfew⟩ := hallowed
      change (img.ialloc type >>= fun result => _) = _ at hrun
      cases hstep : img.ialloc type with
      | error e => rw [hstep] at hrun; cases hrun
      | ok result =>
          obtain ⟨inum, img₁⟩ := result
          rw [hstep] at hrun
          cases hrun
          obtain ⟨-, hmarked, howned, hnext, hvolume⟩ :=
            ialloc_spec h.toMarked h.owned (by rw [h.next]; exact hfew) hstep
          refine { hmarked with owned := howned, next := ?_, recorded := ?_ }
          · rw [hnext, h.next]
            change _ = (r.types ++ [type]).length + 1
            rw [List.length_append, List.length_singleton]
          · rw [hvolume, h.next]
            exact h.recorded.ialloc htype hfew
  | iappend inum data =>
      obtain ⟨hlo, hhi⟩ := hallowed
      have hold := h.recorded.node inum hlo hhi
      obtain ⟨hmarked, howned, hnext, ⟨w, hw, hvolume⟩, hend⟩ :=
        iappend_spec h.toMarked h.owned (lt_of_le_of_lt hhi h.recorded.few) hrun
      rw [hold.size] at hw hvolume hend
      refine { hmarked with owned := howned, next := hnext.trans h.next, recorded := ?_ }
      rw [hvolume]
      exact h.recorded.iappend hlo hhi hw (hend hold.small)

theorem MadeSoFar.steps {img img' : Image} {calls : List Call} (h : MadeSoFar img r)
    (hallowed : Allowed r calls) (hrun : calls.foldlM Call.run img = .ok img') :
    MadeSoFar img' (calls.foldl Record.add r) := by
  induction calls generalizing img r with
  | nil =>
      cases hrun
      exact h
  | cons call rest ih =>
      rw [List.foldlM_cons] at hrun
      cases hstep : call.run img with
      | error e => rw [hstep] at hrun; cases hrun
      | ok img₁ =>
          rw [hstep] at hrun
          exact ih (h.step hallowed.1 hstep) hallowed.2 hrun

/-- Inode 0 is empty, and an inode of some type has one link. -/
structure Plain (v : Volume) : Prop where
  zero : v.node 0 = {}
  linked : ∀ i, (v.node i).type ≠ 0 → (v.node i).nlink = 1

theorem MadeSoFar.plain_step {img img' : Image} {call : Call} (h : MadeSoFar img r)
    (hplain : Plain img.volume) (hallowed : call.Allowed r) (hrun : call.run img = .ok img') :
    Plain img'.volume := by
  cases call with
  | ialloc type =>
      obtain ⟨-, hfew⟩ := hallowed
      change (img.ialloc type >>= fun result => _) = _ at hrun
      cases hstep : img.ialloc type with
      | error e => rw [hstep] at hrun; cases hrun
      | ok result =>
          obtain ⟨inum, img₁⟩ := result
          rw [hstep] at hrun
          cases hrun
          obtain ⟨-, -, -, -, hvolume⟩ :=
            ialloc_spec h.toMarked h.owned (by rw [h.next]; exact hfew) hstep
          rw [hvolume, h.next]
          refine ⟨?_, fun i htyped => ?_⟩
          · rw [Volume.setNode_node_of_ne (Nat.succ_ne_zero _).symm]
            exact hplain.zero
          · by_cases hi : i = r.types.length + 1
            · rw [hi, Volume.setNode_node_same]
            · rw [Volume.setNode_node_of_ne hi] at htyped ⊢
              exact hplain.linked i htyped
  | iappend inum data =>
      obtain ⟨hlo, hhi⟩ := hallowed
      obtain ⟨-, -, -, ⟨w, hw, hvolume⟩, -⟩ :=
        iappend_spec h.toMarked h.owned (lt_of_le_of_lt hhi h.recorded.few) hrun
      have hother (i : ℕ) (hi : i ≠ inum) : img'.volume.node i = img.volume.node i := by
        rw [hvolume, Volume.setSize, Volume.setNode_node_of_ne hi, hw.node i hi]
      -- only the size and the blocks of the inode change
      have hsame (i : ℕ) : (img'.volume.node i).type = (img.volume.node i).type ∧
          (img'.volume.node i).nlink = (img.volume.node i).nlink := by
        by_cases hi : i = inum
        · obtain ⟨addrs, hfields⟩ := hw.fields
          rw [hvolume, Volume.setSize, hi, Volume.setNode_node_same, hfields]
          exact ⟨rfl, rfl⟩
        · rw [hother i hi]
          exact ⟨rfl, rfl⟩
      refine ⟨(hother 0 (by omega)).trans hplain.zero, fun i htyped => ?_⟩
      rw [(hsame i).1] at htyped
      exact (hsame i).2.trans (hplain.linked i htyped)

theorem MadeSoFar.plain_steps {img img' : Image} {calls : List Call} (h : MadeSoFar img r)
    (hplain : Plain img.volume) (hallowed : Allowed r calls)
    (hrun : calls.foldlM Call.run img = .ok img') : Plain img'.volume := by
  induction calls generalizing img r with
  | nil =>
      cases hrun
      exact hplain
  | cons call rest ih =>
      rw [List.foldlM_cons] at hrun
      cases hstep : call.run img with
      | error e => rw [hstep] at hrun; cases hrun
      | ok img₁ =>
          rw [hstep] at hrun
          exact ih (h.step hallowed.1 hstep) (h.plain_step hplain hallowed.1 hstep) hallowed.2 hrun

/-- The image is that of a file system with an empty log. -/
structure Made (img : Image) (r : Record) : Prop where
  emptyLog : EmptyLog layoutSb img.disk
  owned : Owns (imageVolume layoutSb img.disk)
  recorded : Says (imageVolume layoutSb img.disk) r
  used : ∀ b < img.freeblock, (imageVolume layoutSb img.disk).used b = true
  front : layoutSb.datastart ≤ img.freeblock

theorem layoutSb_wellFormed : layoutSb.WellFormed (layoutSb.log rootdev) where
  start := i32_eq_self (by decide) (by decide)
  length := i32_eq_self (by decide) (by decide)
  logEnd := by decide
  inodeEnd := by decide
  bitmapEnd := by decide
  dataEnd := by decide
  size_le := by decide
  root := by decide

/-- A word of the superblock. -/
theorem decode_encodeSb : Superblock.decode (Buffer.zero.write 0 (encodeSb layoutSb)) = layoutSb := by
  have hlen : (encodeSb layoutSb).length = 32 := rfl
  have hword : ∀ off, off + 4 ≤ 32 →
      (Buffer.zero.write 0 (encodeSb layoutSb) : Block).slice off 4 =
        ((encodeSb layoutSb).drop off).take 4 := fun off hoff => by
    have hfit : 0 + (encodeSb layoutSb).length ≤ bsize := by rw [hlen]; decide
    have hin : off + 4 ≤ (encodeSb layoutSb).length := by rw [hlen]; exact hoff
    have hslice := Buffer.slice_write_inside (Buffer.zero : Block) hfit hin
    rwa [Nat.zero_add] at hslice
  simp only [Superblock.decode, hword 0 (by decide), hword 4 (by decide), hword 8 (by decide),
    hword 12 (by decide), hword 16 (by decide), hword 20 (by decide), hword 24 (by decide),
    hword 28 (by decide)]
  rfl

/-- `write_bitmap` changes the bitmap block, and no other. -/
theorem MadeSoFar.writeBitmap_of_ne {img : Image} (h : MadeSoFar img r) {b : ℕ}
    (hb : b ≠ layoutSb.bmapstart) : img.writeBitmap.disk b = img.disk b := by
  have hplace : img.sb.bmapstart = layoutSb.bmapstart := congrArg _ h.sb
  rw [writeBitmap, wsect_disk_of_ne img _ (by rw [hplace]; exact hb)]

/-- The completed image says what the image before it said. -/
theorem MadeSoFar.volume_writeBitmap {img : Image} (h : MadeSoFar img r) :
    imageVolume layoutSb img.writeBitmap.disk = img.volume := by
  have hsizes := layoutSizes
  have hplace : img.sb.bmapstart = layoutSb.bmapstart := congrArg _ h.sb
  have hbitmap : img.writeBitmap.disk layoutSb.bmapstart =
      Buffer.zero.write 0 (img.bitmap.slice 0 (fssize / 8 + 1)) := by
    rw [writeBitmap, ← hplace, wsect_disk_same]
  refine Session.volume_ext (fun i => ?_) (funext fun c => ?_) (funext fun b => ?_)
  · change (if i < layoutSb.ninodes then _ else _) = if i < layoutSb.ninodes then _ else _
    by_cases hi : i < layoutSb.ninodes
    · have hbounds := place_bounds hi
      have hblock : layoutSb.iblock i = i / ipb + layoutSb.inodestart :=
        layoutSb_wellFormed.iblock_eq hi
      rw [if_pos hi, if_pos hi, hblock, h.writeBitmap_of_ne (by omega)]
    · rw [if_neg hi, if_neg hi]
  · have hblock : layoutSb.bblock 0 = layoutSb.bmapstart :=
      layoutSb_wellFormed.bblock_eq (by decide)
    change bitmapBit (img.writeBitmap.disk (layoutSb.bblock 0)) c = _
    have hlen : (img.bitmap.slice 0 (fssize / 8 + 1)).length = 126 := Buffer.length_slice ..
    rw [hblock, hbitmap, bitmapBit, Buffer.get_write _ (by rw [hlen]; decide), hlen]
    change _ = (img.bitmap.get (c / 8)).toNat.testBit (c % 8)
    by_cases hc : c / 8 < 126
    · have hc' : c / 8 < fssize / 8 + 1 := hc
      rw [if_pos ⟨Nat.zero_le _, by omega⟩, Nat.sub_zero, Buffer.getD_slice _ hc', Nat.zero_add]
    · rw [if_neg (by omega), Buffer.get_zero, Buffer.get, dif_neg (by exact hc)]
  · change (if layoutSb.IsData b then _ else _) = if layoutSb.IsData b then _ else _
    by_cases hb : layoutSb.IsData b
    · have hge := hb.1
      rw [if_pos hb, if_pos hb, h.writeBitmap_of_ne (by omega)]
    · rw [if_neg hb, if_neg hb]

/-- `write_bitmap` completes the image. -/
theorem MadeSoFar.made {img : Image} (h : MadeSoFar img r) : Made img.writeBitmap r := by
  have hvolume := h.volume_writeBitmap
  refine ⟨?_, by rw [hvolume]; exact h.owned, by rw [hvolume]; exact h.recorded, fun b hb => ?_, ?_⟩
  · refine ⟨?_, by decide, ⟨by decide, by decide, by decide⟩, ?_⟩
    · rw [h.writeBitmap_of_ne (by decide), h.super, decode_encodeSb]
    · rw [h.writeBitmap_of_ne (by decide), h.header, LogHeader.decode, Buffer.slice_zero, ofLe_zero]
      exact i32_eq_self (by decide) (by decide)
  · have hle := h.hi
    have hlt : b < img.freeblock := hb
    rw [hvolume, h.marked b (by omega)]
    exact decide_eq_true hlt
  · exact h.lo

/-- An image that `mkfs` makes, before the bitmap is written. -/
theorem madeSoFar_of_make {calls : List Call} {img : Image} (hallowed : Allowed {} calls)
    (hmake : make calls = .ok img) : ∃ img₁, img = img₁.writeBitmap ∧
      MadeSoFar img₁ (Record.of calls) ∧ Plain img₁.volume := by
  obtain ⟨img₀, hlayout, hmarked, howned, hnext, hnode⟩ := layout_spec
  rw [make, hlayout] at hmake
  change (calls.foldlM Call.run img₀ >>= _) = _ at hmake
  cases hfold : calls.foldlM Call.run img₀ with
  | error e => rw [hfold] at hmake; cases hmake
  | ok img₁ =>
      rw [hfold] at hmake
      cases hmake
      have hstart : MadeSoFar img₀ {} :=
        { hmarked with
          owned := howned
          next := hnext
          recorded := ⟨by decide, fun i hlo hhi => absurd hlo (not_le.mpr (Nat.lt_succ_of_le hhi)),
            fun i _ => ⟨hnode i, rfl⟩⟩ }
      have hplain : Plain img₀.volume :=
        ⟨hnode 0, fun i htyped => absurd (by rw [hnode]) htyped⟩
      exact ⟨img₁, rfl, hstart.steps hallowed hfold, hstart.plain_steps hplain hallowed hfold⟩

/-- Every image that `mkfs` makes. -/
theorem made_of_make {calls : List Call} {img : Image} (hallowed : Allowed {} calls)
    (hmake : make calls = .ok img) : Made img (Record.of calls) := by
  obtain ⟨img₁, rfl, hso, -⟩ := madeSoFar_of_make hallowed hmake
  exact hso.made

theorem plain_of_make {calls : List Call} {img : Image} (hallowed : Allowed {} calls)
    (hmake : make calls = .ok img) : Plain (imageVolume layoutSb img.disk) := by
  obtain ⟨img₁, rfl, hso, hplain⟩ := madeSoFar_of_make hallowed hmake
  rw [hso.volume_writeBitmap]
  exact hplain

end

/-! ## The kernel on the image -/

/-- `iget`, `ilock` and `readi`: the type, the size and the bytes read. -/
def readInode (inum off n : ℕ) : Kern (BitVec 16 × ℕ × Option (List UInt8)) := do
  let ip ← iget rootdev inum
  ilock ip
  let i ← getInode ip
  let bytes ← readi ip off n
  return (i.din.type, i.din.size.toNat, bytes)

/-- A block or an inode is asked for. -/
inductive Request
  | block
  | inode (type : BitVec 16)

/-- `balloc` or `ialloc`. -/
def Request.prog : Request → Kern (Request × ℕ)
  | .block => do
      let b ← balloc rootdev
      return (.block, b)
  | .inode type => do
      let ip ← RiscvOs.ialloc rootdev type
      let i ← getInode ip
      return (.inode type, i.inum)

/-- One request after the other. -/
def requests : List Request → Kern (List (Request × ℕ))
  | [] => return []
  | request :: rest => do
      let answer ← request.prog
      let answers ← requests rest
      return answer :: answers

/-- What was given out was not in use in the image with `freeblock` and the record `r`. -/
def Unused (r : Record) (freeblock : ℕ) : Request × ℕ → Prop
  | (.block, b) => freeblock ≤ b
  | (.inode _, i) => r.types.length < i

/-- The kernel mounts the image, reads every inode as it was recorded, and gives out only what
`mkfs` has not used. -/
structure Agrees (img : Image) (r : Record) (k : Machine) : Prop where
  mounts : (fsinit rootdev).run machine (bootMachine img.disk) = .ok ((), k)
  reads : ∀ i, 1 ≤ i → i ≤ r.types.length → ∀ off < 2 ^ 32, ∀ n < 2 ^ 32, ∃ t,
    (readInode i off n).run machine k =
      .ok ((r.types.getD (i - 1) 0, (r.bytes i).length, readBytes (r.bytes i) off n), t)
  unused : ∀ l answers t, (beginOp >>= fun _ => requests l).run machine k = .ok (answers, t) →
    ∀ answer ∈ answers, Unused r img.freeblock answer

/-- Nothing fails. -/
def sureMode : Mode where
  strict := True
  limited := True
  capped := fun _ => trivial
  err _ := False
  big := fun h => absurd trivial h

/-- Anything may fail. -/
def anyMode : Mode where
  strict := False
  limited := False
  capped := id
  err _ := True
  big := fun _ => trivial

section
variable {img : Image} {r : Record} {x : Session}

open OnSession

/-- The bytes of a recorded inode. -/
theorem SaysNode.contents {v : Volume} {i : ℕ} (h : SaysNode v r i) :
    v.contents i = r.bytes i := by
  rw [Volume.contents, h.size]
  exact h.bytes

theorem readInode_wp (hx : x.Resting) (hempty : ∀ ip, (x.mem.inode ip).ref = 0)
    (hrecord : Says x.volume r) (hn : x.mem.sb.ninodes = layoutSb.ninodes) {i off n : ℕ}
    (hlo : 1 ≤ i) (hhi : i ≤ r.types.length) (hoff : off < 2 ^ 32) (hlen : n < 2 ^ 32) :
    (readInode i off n).wp (sessionRules sureMode)
      (fun result _ => result =
        (r.types.getD (i - 1) 0, (r.bytes i).length, readBytes (r.bytes i) off n)) x := by
  have hsaid := hrecord.node i hlo hhi
  have hcalm : Calm sureMode 1 x := ⟨hx.inv, fun _ => hx.fits (by decide)⟩
  rw [readInode]
  refine wp_iget hx.intact (hn ▸ lt_of_le_of_lt hhi hrecord.few) (fun _ hfull => ?_)
    fun ip y hy hlooks hinum => ?_
  · have hslot := List.find?_eq_none.mp hfull 0 (List.mem_finRange 0)
    simp [hempty] at hslot
  have hpin : 0 < y.mem.filesOn ip + (0 + pin ip) ip := by
    rw [Pi.add_apply, pin_same]
    omega
  refine wp_ilock hy (hlooks.calm hcalm) hpin hinum (fun _ hzero => ?_)
    fun z hz hlooks' hip _ => ?_
  · rw [hlooks.volume] at hzero
    exact hsaid.typed hzero
  have hvolume : z.volume = x.volume := hlooks'.volume.trans hlooks.volume
  rw [wp_getInode, hip.node_eq hz.icache, hvolume, hsaid.type, hsaid.size]
  refine wp_readi hz hip (hlooks'.calm (hlooks.calm hcalm)) ?_ hoff hlen (OnSession.wp_done.mpr ?_)
  · rw [hvolume, hsaid.size]
    exact hsaid.small.trans (by decide)
  · rw [hvolume, Volume.read_eq, hsaid.contents]

/-- What keeps the inodes and the blocks in use apart from those that are given out. -/
structure Kept (x y : Session) (r : Record) : Prop where
  sb : y.mem.sb = x.mem.sb
  used : ∀ b, x.volume.used b = true → y.volume.used b = true
  typed : ∀ i, 1 ≤ i → i ≤ r.types.length → (y.volume.node i).type ≠ 0
  alive : ∀ ip, (y.mem.inode ip).Loaded → (y.volume.node (y.mem.inode ip).inum).type ≠ 0

/-- One request keeps them apart. -/
theorem request_wp {Q : Request × ℕ → Session → Prop} {y : Session} {pins : Pins}
    {freeblock : ℕ} (hused : ∀ b < freeblock, x.volume.used b = true) (hy : y.Intact ∅ pins)
    (htx : Tx anyMode 1 2 y) (hkept : Kept x y r) (request : Request)
    (h : ∀ answer z pins', Unused r freeblock answer → z.Intact ∅ pins' → Tx anyMode 1 2 z →
      Kept x z r → Q answer z) :
    request.prog.wp (sessionRules anyMode) Q y := by
  have hspare : ∀ {spare z}, Tx anyMode spare 2 z → Tx anyMode 1 2 z := fun hz =>
    { hz with
      budget := False.elim
      fits := False.elim }
  have hpos := hy.datastart_pos
  cases request with
  | block =>
      refine wp_balloc htx hy.toSound (fun _ => trivial) fun b hb hfree _ htx' =>
        OnSession.wp_done.mpr (h _ _ pins ?_ (hy.alloc hb hfree) (hspare htx') ?_)
      · by_contra hlt
        have hin := hkept.used b (hused b (not_le.mp hlt))
        rw [hfree] at hin
        cases hin
      · have hvolume := Session.volume_alloc hy.wf hb
        refine ⟨hkept.sb, fun c hc => ?_, fun i hlo hhi => ?_, fun ip hip => ?_⟩
        · rw [hvolume]
          by_cases heq : c = b
          · rw [heq]
            exact Function.update_self ..
          · exact (Function.update_of_ne heq _ _).trans (hkept.used c hc)
        · rw [hvolume]
          exact hkept.typed i hlo hhi
        · rw [hvolume]
          exact hkept.alive ip hip
  | inode type =>
      refine wp_ialloc hy htx (fun _ => trivial) (fun _ => trivial)
        fun i ip z hlo hzero hbefore hinum halloc hlooks hvolume htx' => ?_
      rcases hvolume with ⟨hvolume, hz⟩ | ⟨-, -, jp, hjp⟩
      · have hnew : r.types.length < i := by
          by_contra hle
          exact hkept.typed i hlo (not_lt.mp hle) hzero
        have halive : ∀ jp, (z.mem.inode jp).Loaded →
            (z.volume.node (z.mem.inode jp).inum).type ≠ 0 := by
          intro jp hjp
          rw [hvolume]
          rcases hlooks.loaded jp hjp with ⟨hold, hsame⟩ | htype
          · have hwas := hkept.alive jp hold
            have hne : (y.mem.inode jp).inum ≠ i := by
              intro heq
              rw [heq] at hwas
              exact hwas hzero
            have hsame' : (z.mem.inode jp).inum = (y.mem.inode jp).inum := hsame
            rw [hsame', Volume.setNode_node_of_ne hne]
            exact hwas
          · rw [← hvolume, hlooks.volume]
            exact htype
        rw [wp_getInode, hinum]
        refine OnSession.wp_done.mpr (h _ _ _ hnew hz (hspare htx') ⟨?_, fun c hc => ?_,
          fun j hlo' hhi' => ?_, halive⟩)
        · exact (hlooks.frame.sb.trans halloc.frame.sb).trans hkept.sb
        · rw [hvolume]
          exact hkept.used c hc
        · rw [hvolume, Volume.setNode_node_of_ne (by omega)]
          exact hkept.typed j hlo' hhi'
      · exact absurd hzero (hjp.inum ▸ hkept.alive jp hjp.loaded)

theorem requests_wp {Q : List (Request × ℕ) → Session → Prop} {y : Session} {pins : Pins}
    {freeblock : ℕ} (hused : ∀ b < freeblock, x.volume.used b = true) (hy : y.Intact ∅ pins)
    (htx : Tx anyMode 1 2 y) (hkept : Kept x y r) (l : List Request)
    (h : ∀ answers z, (∀ answer ∈ answers, Unused r freeblock answer) → Q answers z) :
    (requests l).wp (sessionRules anyMode) Q y := by
  induction l generalizing y pins Q with
  | nil => exact OnSession.wp_done.mpr (h [] y fun _ hmem => nomatch hmem)
  | cons request rest ih =>
      rw [requests, Prog.wp_bind]
      refine request_wp hused hy htx hkept request fun answer z pins' hanswer hz htx' hkept' => ?_
      rw [Prog.wp_bind]
      refine ih hz htx' hkept' fun answers t hanswers => OnSession.wp_done.mpr (h _ t ?_)
      intro other hmem
      rcases List.mem_cons.mp hmem with rfl | hmem
      · exact hanswer
      · exact hanswers other hmem

/-- A transaction can be opened at rest. -/
theorem requests_start {y : Session} (hy : y.Resting) (hmarks : y.marks = ∅)
    {freeblock : ℕ} {Q : List (Request × ℕ) → Session → Prop} (l : List Request)
    (hused : ∀ b < freeblock, y.volume.used b = true)
    (htyped : ∀ i, 1 ≤ i → i ≤ r.types.length → (y.volume.node i).type ≠ 0)
    (halive : ∀ ip, (y.mem.inode ip).Loaded → (y.volume.node (y.mem.inode ip).inum).type ≠ 0)
    (h : ∀ answers z, (∀ answer ∈ answers, Unused r freeblock answer) → Q answers z) :
    (beginOp >>= fun _ => requests l).wp (sessionRules anyMode) Q y := by
  refine wp_beginOp hy.inv hy.unlocked hy.outstanding.ge (by rw [hy.size]; decide) hmarks
    False.elim (fun _ => trivial) fun (htx : Tx anyMode 4 2 y.begin) => ?_
  refine requests_wp hused hy.intact.begin (htx.less (by decide) le_rfl)
    ⟨rfl, fun _ hb => hb, htyped, halive⟩ l h

end

/-- The state `s` right after the mount of an image that holds what `r` records. -/
structure JustMounted (x : Session) (s : Machine) (r : Record) : Prop extends x.Resting where
  refines : ∃ order, Refines rootdev order x.toView s
  recorded : Says x.volume r
  plain : Plain x.volume
  mem : ∃ log, x.mem = { log := log, sb := layoutSb }
  marks : x.marks = ∅

namespace JustMounted

variable {x : Session} {s : Machine} {r : Record}

theorem sb (h : JustMounted x s r) : x.mem.sb = layoutSb := by
  obtain ⟨log, hmem⟩ := h.mem
  rw [hmem]

theorem empty_icache (h : JustMounted x s r) (ip : Fin ninode) : (x.mem.inode ip).ref = 0 := by
  obtain ⟨log, hmem⟩ := h.mem
  rw [hmem]

end JustMounted

/-- Every image of `mkfs` can be mounted. -/
theorem mount_image {calls : List Call} {img : Image} (hallowed : Allowed {} calls)
    (hmake : make calls = .ok img) :
    ∃ x k, (fsinit rootdev).run machine (bootMachine img.disk) = .ok ((), k) ∧
      JustMounted x k (Record.of calls) ∧ ∀ b < img.freeblock, x.volume.used b = true := by
  have hmade := made_of_make hallowed hmake
  obtain ⟨k, t, order, hrun, hrefines, hbooted⟩ := fsinit_runs hmade.emptyLog
  obtain ⟨hresting, hvolume⟩ :=
    resting_of_booted hmade.emptyLog hbooted layoutSb_wellFormed rfl hmade.owned
  obtain ⟨lh, -, hmem⟩ := hbooted.mem
  refine ⟨⟨t, ∅⟩, k, hrun, ⟨hresting, ⟨order, hrefines⟩, ?_, ?_, ⟨_, hmem⟩, rfl⟩, ?_⟩
  · rw [hvolume]
    exact hmade.recorded
  · rw [hvolume]
    exact plain_of_make hallowed hmake
  · rw [hvolume]
    exact hmade.used

/-- The kernel agrees with `mkfs` on the format, whatever `mkfs` has made. -/
theorem mkfs_agrees {calls : List Call} {img : Image} (hallowed : Allowed {} calls)
    (hmake : make calls = .ok img) : ∃ k, Agrees img (Record.of calls) k := by
  obtain ⟨x, k, hrun, hx, hused⟩ := mount_image hallowed hmake
  refine ⟨k, hrun, fun i hlo hhi off hoff n hn => ?_, fun l answers m hrequests => ?_⟩
  · have hwp := readInode_wp hx.toResting hx.empty_icache hx.recorded (by rw [hx.sb]) hlo hhi hoff hn
    rcases (session_simulation sureMode).run hwp hx.refines with
      ⟨e, -, herr | ⟨s, -, hextra, -⟩⟩ | ⟨result, y, s, -, hreads, -, hresult⟩
    · exact herr.elim
    · exact absurd trivial hextra
    · exact ⟨s, hresult ▸ hreads⟩
  · have hwp : (beginOp >>= fun _ => requests l).wp (sessionRules anyMode)
        (fun answers _ => ∀ answer ∈ answers, Unused (Record.of calls) img.freeblock answer) x :=
      requests_start hx.toResting hx.marks l hused
        (fun i hlo hhi => (hx.recorded.node i hlo hhi).typed)
        (fun ip hip => absurd (hx.empty_icache ip) hip.1.ne') fun _ _ h => h
    obtain ⟨y, -, hanswers⟩ := (session_simulation anyMode).run_ok hwp hx.refines hrequests
    exact hanswers

/-- `main` makes an image. -/
theorem make_main : ∃ img, make mainCalls = .ok img := by
  have hok : (make mainCalls).isOk = true := rfl
  cases hmake : make mainCalls with
  | error e =>
      rw [hmake] at hok
      cases hok
  | ok img => exact ⟨img, rfl⟩

theorem main_allowed : Allowed {} mainCalls :=
  ⟨⟨by decide, by decide⟩, ⟨by decide, by decide⟩, ⟨by decide, by decide⟩, trivial⟩

/-- The image of an empty root directory. -/
theorem mkfs_agrees_main : ∃ img k, make mainCalls = .ok img ∧
    Agrees img (Record.of mainCalls) k := by
  obtain ⟨img, hmake⟩ := make_main
  obtain ⟨k, hk⟩ := mkfs_agrees main_allowed hmake
  exact ⟨img, k, hmake, hk⟩

end RiscvOs.Mkfs
