import RiscvOs.Fs.Tx
import RiscvOs.Fs.Volume

/-!
# A bitmap of many blocks

`balloc` and `bfree` on a disk whose bitmap takes any number of blocks.  What they are checked on
is the view of the buffer cache: bit `b` lies in block `b / BPB` of the bitmap, and
`View.alloc` and `View.free` are all that the two calls do (`wp_balloc_bits`, `wp_bfree_bits`).

`Logging strict err B holds x` is what code relies on that logs the blocks `B` and no others.
-/

namespace RiscvOs

open Effect Bytes Kern

/-! ## Logging a set of blocks -/

/-- The rules of the buffer cache, whatever a power cut finds. -/
abbrev blockRules (strict : Prop) (err : Stop → Prop) : Rules kernSig Stop View :=
  cacheRules rootdev strict err fun _ => True

/-- The view once a block has been changed and logged. -/
def View.write (x : View) (b : ℕ) (d : Block) : View := (x.put b d).logged b

/-- The log has room for the blocks `B`. -/
def Log.RoomFor (log : Log) (B : Finset ℕ) : Prop :=
  ((log.lh.entries ∪ B).card : ℤ) < log.size - 1

/-- The buffer cache has room for the blocks `B`, and for `k` more. -/
def View.FitsWith (x : View) (B : Finset ℕ) (k : ℕ) : Prop :=
  ∃ blocks : Finset ℕ, blocks.card + k ≤ nbuf ∧ B ⊆ blocks ∧ ∀ c, x.Busy c → c ∈ blocks

/-- What code inside a transaction relies on that logs the blocks `B`. -/
structure Logging (strict : Prop) (err : Stop → Prop) (B : Finset ℕ) (holds : ℕ) (x : View) :
    Prop where
  inv : LogInv rootdev ∅ x
  unlocked : x.mem.log.lock = false
  begun : 1 ≤ x.mem.log.outstanding
  small : x.mem.log.size ≤ 31
  room : x.mem.log.RoomFor B ∨ err (.panic "log: too big")
  fits : strict → x.FitsWith B holds

section
variable {strict : Prop} {err : Stop → Prop} {B : Finset ℕ} {holds b c : ℕ} {x : View} {d : Block}

namespace View

@[simp] theorem write_store_same : (x.write b d).store b = d := put_store_same ..
@[simp] theorem write_disk : (x.write b d).disk = x.disk := rfl
@[simp] theorem write_refs : (x.write b d).refs = x.refs := rfl
@[simp] theorem write_mem : (x.write b d).mem = { x.mem with log := x.mem.log.note b } := rfl

theorem write_store_of_ne (h : c ≠ b) : (x.write b d).store c = x.store c := put_store_of_ne h

theorem write_hold (b' : ℕ) : (x.hold b').write b d = (x.write b d).hold b' := rfl

theorem busy_write (h : (x.write b d).Busy c) : x.Busy c ∨ c = b := by
  by_cases hc : c = b
  · exact .inr hc
  · refine .inl (h.imp_right fun hdirty => ?_)
    have hsame : (x.write b d).dirty c = x.dirty c := mark_dirty_of_ne hc
    rwa [hsame] at hdirty

/-- The reference to a block is given back once it has been logged. -/
theorem write_release : (((x.hold b).put b d).logged b).release b = x.write b d := by
  refine View.ext' rfl rfl rfl ?_ rfl
  simp only [View.release, View.logged, View.mark, View.put, View.hold, View.setLog, View.withMem,
    Function.update_self, Nat.add_sub_cancel, Function.update_idem, Function.update_eq_self,
    View.write]

end View

theorem View.FitsWith.fits (h : x.FitsWith B holds) : x.Fits holds := by
  obtain ⟨blocks, hcard, -, hbusy⟩ := h
  exact ⟨blocks, hcard, hbusy⟩

/-- A block of `B` has been logged. -/
theorem View.FitsWith.write (h : x.FitsWith B holds) (hb : b ∈ B) (d : Block) :
    (x.write b d).FitsWith B holds := by
  obtain ⟨blocks, hcard, hsub, hbusy⟩ := h
  refine ⟨blocks, hcard, hsub, fun c hc => ?_⟩
  rcases View.busy_write hc with hc | rfl
  · exact hbusy c hc
  · exact hsub hb

namespace Logging

theorem hold (h : Logging strict err B (holds + 1) x) (b : ℕ) :
    Logging strict err B holds (x.hold b) :=
  { h with
    inv := h.inv.hold b
    fits := fun hs => by
      obtain ⟨blocks, hcard, hsub, hbusy⟩ := h.fits hs
      refine ⟨insert b blocks, ?_, hsub.trans (Finset.subset_insert _ _), fun c hc => ?_⟩
      · have hle := Finset.card_insert_le b blocks
        omega
      · rcases View.busy_hold.mp hc with hc | rfl
        · exact Finset.mem_insert_of_mem (hbusy c hc)
        · exact Finset.mem_insert_self _ _ }

theorem free_buffer (h : Logging strict err B (holds + 1) x) (hs : strict) (b : ℕ) : x.Room b := by
  obtain ⟨blocks, hcard, -, hbusy⟩ := h.fits hs
  exact ⟨blocks, by omega, fun c _ hc => hbusy c hc⟩

/-- Assignments outside the log. -/
theorem withMem (h : Logging strict err B holds x) {m : Mem} (hm : m.log = x.mem.log) :
    Logging strict err B holds (x.withMem m) where
  inv := h.inv.withMem hm
  unlocked := by rw [View.withMem_mem, hm]; exact h.unlocked
  begun := by rw [View.withMem_mem, hm]; exact h.begun
  small := by rw [View.withMem_mem, hm]; exact h.small
  room := by rw [View.withMem_mem, hm]; exact h.room
  fits := h.fits

/-- The log has room as long as it has room for all of them. -/
theorem notBig (h : Logging strict err B holds x) (hroom : x.mem.log.RoomFor B) :
    x.mem.log.lh.n < x.mem.log.size - 1 := by
  have hcard := LogHeader.Distinct.card_entries h.inv.sound.distinct
  have hnonneg := h.inv.sound.nonneg
  have hle : x.mem.log.lh.entries.card ≤ (x.mem.log.lh.entries ∪ B).card :=
    Finset.card_le_card Finset.subset_union_left
  unfold Log.RoomFor at hroom
  omega

/-- Only what is needed when running out of buffers is accepted. -/
theorem relax {err' : Stop → Prop} (h : Logging strict err B holds x)
    (herr : err' (.panic "log: too big")) : Logging False err' B holds x :=
  { h with
    room := .inr herr
    fits := False.elim }

theorem write (h : Logging strict err B holds x) (hb : b ∈ B) (hlt : b < 2 ^ 31)
    (harea : ¬ x.mem.log.Area b) (hbig : x.mem.log.lh.n < x.mem.log.size - 1) (d : Block) :
    Logging strict err B holds (x.write b d) := by
  have hloglen : (loglen : ℤ) = 30 := rfl
  have hsmall := h.small
  obtain ⟨-, -, hentries⟩ := LogHeader.note_spec (b := b) h.inv.sound.le_length
    h.inv.sound.nonneg h.inv.sound.distinct
  exact
    { inv := h.inv.write hlt harea hbig fun _ => by omega
      unlocked := h.unlocked
      begun := h.begun
      small := h.small
      room := h.room.imp_left fun hroom => by
        change (((x.mem.log.lh.note b).entries ∪ B).card : ℤ) < x.mem.log.size - 1
        rw [hentries, Finset.insert_union, Finset.insert_eq_of_mem (Finset.mem_union_right _ hb)]
        exact hroom
      fits := fun hs => (h.fits hs).write hb d }

/-- A buffer is released again; whether the cache still has room is known otherwise. -/
theorem release {holds' : ℕ} (h : Logging strict err B holds (x.hold b))
    (hfits : strict → x.FitsWith B holds') : Logging strict err B holds' x where
  inv := by
    have hinv := h.inv.release (Set.notMem_empty b)
    rwa [View.hold_release] at hinv
  unlocked := h.unlocked
  begun := h.begun
  small := h.small
  room := h.room
  fits := hfits

end Logging

end

namespace OnBlocks

section
variable {strict : Prop} {err : Stop → Prop} {B : Finset ℕ} {holds b : ℕ} {x : View} {d : Block}
  {α : Type} {Q : α → View → Prop}

theorem wp_get {f : Mem → Kern α} :
    (Kern.get >>= f).wp (blockRules strict err) Q x ↔ (f x.mem).wp (blockRules strict err) Q x :=
  RiscvOs.wp_get.trans (and_iff_right trivial)

theorem wp_getInode {ip : Fin ninode} {f : Inode → Kern α} :
    (getInode ip >>= f).wp (blockRules strict err) Q x ↔
      (f (x.mem.inode ip)).wp (blockRules strict err) Q x := by
  rw [getInode, bind_assoc, wp_get]
  rfl

theorem wp_modifyInode {ip : Fin ninode} {g : Inode → Inode} {f : Unit → Kern α} :
    (modifyInode ip g >>= f).wp (blockRules strict err) Q x ↔
      (f ()).wp (blockRules strict err) Q (x.withMem (x.mem.setInode ip g)) :=
  RiscvOs.wp_modify.trans (and_iff_right trivial)

theorem wp_modifyInode_last {ip : Fin ninode} {g : Inode → Inode} {Q' : Unit → View → Prop} :
    (modifyInode ip g).wp (blockRules strict err) Q' x ↔
      Q' () (x.withMem (x.mem.setInode ip g)) :=
  RiscvOs.wp_modify_last.trans (and_iff_right trivial)

theorem wp_done {a : α} : (Prog.ret a : Kern α).wp (blockRules strict err) Q x ↔ Q a x :=
  RiscvOs.wp_done.trans (and_iff_right trivial)

theorem wp_panic {msg : String} :
    (Kern.panic msg : Kern α).wp (blockRules strict err) Q x ↔ err (.panic msg) :=
  RiscvOs.wp_panic.trans (and_iff_right trivial)

theorem wp_bread {f : BufRef → Kern α} (hroom : strict → x.Room b) (hb : b < 2 ^ 31)
    (h : (f ⟨rootdev, b⟩).wp (blockRules strict err) Q (x.hold b)) :
    (bread rootdev b >>= f).wp (blockRules strict err) Q x :=
  RiscvOs.wp_bread.mpr ⟨trivial, ⟨rfl, hb, hroom⟩, h⟩

theorem wp_data_hold {f : Block → Kern α}
    (h : (f (x.store b)).wp (blockRules strict err) Q (x.hold b)) :
    (data ⟨rootdev, b⟩ >>= f).wp (blockRules strict err) Q (x.hold b) :=
  RiscvOs.wp_data.mpr ⟨trivial, ⟨rfl, by simp⟩, h⟩

theorem wp_brelse_hold {f : Unit → Kern α} (hx : LogInv rootdev ∅ x)
    (h : (f ()).wp (blockRules strict err) Q x) :
    (brelse ⟨rootdev, b⟩ >>= f).wp (blockRules strict err) Q (x.hold b) := by
  refine RiscvOs.wp_brelse.mpr ⟨trivial, ⟨⟨rfl, by simp⟩, fun _ => ?_⟩, ?_⟩
  · exact (hx.hold b).release_safe (Set.notMem_empty b)
  · rw [View.hold_release]
    exact h

/-- A held buffer is changed, logged and released. -/
theorem wp_update {f : Unit → Kern α} (hx : Logging strict err B holds x) (hb : b ∈ B)
    (hlt : b < 2 ^ 31) (harea : ¬ x.mem.log.Area b)
    (h : Logging strict err B holds (x.write b d) →
      (f ()).wp (blockRules strict err) Q (x.write b d)) :
    (setData ⟨rootdev, b⟩ d >>= fun _ => logWrite ⟨rootdev, b⟩ >>= fun _ =>
      brelse ⟨rootdev, b⟩ >>= f).wp (blockRules strict err) Q (x.hold b) := by
  have hheld : 0 < (x.hold b).refs b := by simp
  have hsmall := hx.small
  have hloglen : (loglen : ℤ) = 30 := rfl
  refine wp_setData.mpr ⟨trivial, ⟨rfl, hheld⟩, ?_⟩
  rw [Prog.wp_bind]
  refine logWrite_wp hx.unlocked ⟨rfl, hheld⟩ trivial (fun hbig => ?_) (fun hout => ?_)
    (fun hroom hfull => ?_) fun hroom _ _ => ?_
  · exact hx.room.resolve_left fun hroom => absurd (hx.notBig hroom) (not_lt.mpr hbig)
  · exact absurd hx.begun (not_le.mpr hout)
  · have hroom' : x.mem.log.lh.n < x.mem.log.size - 1 := hroom
    have hfull' : (loglen : ℤ) ≤ x.mem.log.lh.n := hfull
    omega
  · refine RiscvOs.wp_brelse.mpr ⟨trivial, ⟨⟨rfl, hheld⟩, fun _ => .inl ?_⟩, ?_⟩
    · exact View.mark_dirty_same ..
    · rw [View.write_release]
      exact h (hx.write hb hlt harea hroom d)

theorem wp_update_last {Q' : Unit → View → Prop} (hx : Logging strict err B holds x) (hb : b ∈ B)
    (hlt : b < 2 ^ 31) (harea : ¬ x.mem.log.Area b)
    (h : Logging strict err B holds (x.write b d) → Q' () (x.write b d)) :
    (setData ⟨rootdev, b⟩ d >>= fun _ => logWrite ⟨rootdev, b⟩ >>= fun _ =>
      brelse ⟨rootdev, b⟩).wp (blockRules strict err) Q' (x.hold b) := by
  rw [← Prog.bind_ret (brelse _)]
  exact wp_update hx hb hlt harea fun hlog => wp_done.mpr (h hlog)

end

end OnBlocks

/-! ## The bits -/

/-- The number of blocks of the bitmap. -/
def Superblock.nbitmap (sb : Superblock) : ℕ := (sb.size + bpb - 1) / bpb

/-- The number of bits in the blocks of the bitmap. -/
def Superblock.nbits (sb : Superblock) : ℕ := sb.nbitmap * bpb

/-- The first block behind the bitmap. -/
def Superblock.metaEnd (sb : Superblock) : ℕ := sb.bmapstart + sb.nbitmap

/-- The log, the inodes and the bitmap follow each other on a disk of at most `2 ^ 30` blocks, and
the log is where the superblock says. -/
structure Superblock.Layout (sb : Superblock) (log : Log) : Prop where
  size_le : sb.size ≤ 2 ^ 30
  start : log.start = sb.logstart
  length : log.size = sb.nlog
  logEnd : sb.logstart + sb.nlog ≤ sb.inodestart
  inodeEnd : sb.inodestart + (sb.ninodes - 1) / ipb < sb.bmapstart
  bitmapEnd : sb.metaEnd ≤ 2 ^ 31

/-- Block `c` is in the bitmap. -/
def Superblock.IsBitmap (sb : Superblock) (c : ℕ) : Prop := sb.bmapstart ≤ c ∧ c < sb.metaEnd

/-- Bit `b` of the bitmap. -/
def View.bit (x : View) (b : ℕ) : Bool := bitmapBit (x.store (x.mem.sb.bblock b)) (b % bpb)

namespace Superblock

variable {sb : Superblock} {log log' : Log} {b c i : ℕ}

theorem size_le_nbits (sb : Superblock) : sb.size ≤ sb.nbits := by
  change sb.size ≤ (sb.size + 8192 - 1) / 8192 * 8192
  omega

/-- A bit has its block in the bitmap. -/
theorem div_lt (hb : b < sb.nbits) : b / bpb < sb.nbitmap :=
  Nat.div_lt_of_lt_mul (by rwa [nbits, Nat.mul_comm] at hb)

namespace Layout

theorem congr (h : sb.Layout log) (hlog : log.SameArea log') : sb.Layout log' :=
  { h with
    start := hlog.start.trans h.start
    length := hlog.size.trans h.length }

theorem not_area (h : sb.Layout log) (hc : sb.inodestart ≤ c) : ¬ log.Area c := by
  have hstart := h.start
  have hlength := h.length
  have hend := h.logEnd
  rintro ⟨-, hlt⟩
  omega

theorem bblock_eq (h : sb.Layout log) (hb : b < sb.nbits) :
    sb.bblock b = b / bpb + sb.bmapstart := by
  have hlt := div_lt hb
  have hend := h.bitmapEnd
  unfold metaEnd at hend
  have hword : b / bpb + sb.bmapstart < 2 ^ 32 := by
    generalize b / bpb = q at hlt ⊢
    omega
  exact u32_natCast hword

theorem isBitmap (h : sb.Layout log) (hb : b < sb.nbits) : sb.IsBitmap (sb.bblock b) := by
  have hlt := div_lt hb
  rw [h.bblock_eq hb, IsBitmap, metaEnd]
  exact ⟨Nat.le_add_left _ _, by rw [Nat.add_comm]; exact Nat.add_lt_add_left hlt _⟩

theorem bitmap_ok (h : sb.Layout log) (hc : sb.IsBitmap c) : c < 2 ^ 31 ∧ ¬ log.Area c := by
  obtain ⟨hlo, hhi⟩ := hc
  have hend := h.bitmapEnd
  have hinode : sb.inodestart + (sb.ninodes - 1) / 16 < sb.bmapstart := h.inodeEnd
  exact ⟨by omega, h.not_area (by omega)⟩

theorem data_ok (h : sb.Layout log) (hlo : sb.metaEnd ≤ c) (hc : c < sb.size) :
    c < 2 ^ 31 ∧ ¬ log.Area c := by
  have hsize := h.size_le
  have hinode : sb.inodestart + (sb.ninodes - 1) / 16 < sb.bmapstart := h.inodeEnd
  unfold metaEnd at hlo
  exact ⟨by omega, h.not_area (by omega)⟩

theorem iblock_eq (h : sb.Layout log) (hi : i < sb.ninodes) :
    sb.iblock i = i / ipb + sb.inodestart := by
  have hend : sb.inodestart + (sb.ninodes - 1) / 16 < sb.bmapstart := h.inodeEnd
  have hbitmap := h.bitmapEnd
  unfold metaEnd at hbitmap
  have hlt : i / 16 + sb.inodestart < 2 ^ 32 := by omega
  exact u32_natCast hlt

theorem iblock_ok (h : sb.Layout log) (hi : i < sb.ninodes) :
    sb.iblock i < sb.bmapstart ∧ sb.iblock i < 2 ^ 31 ∧ ¬ log.Area (sb.iblock i) := by
  have hend : sb.inodestart + (sb.ninodes - 1) / 16 < sb.bmapstart := h.inodeEnd
  have hbitmap := h.bitmapEnd
  unfold metaEnd at hbitmap
  have heq : sb.iblock i = i / 16 + sb.inodestart := h.iblock_eq hi
  exact ⟨by omega, by omega, h.not_area (by omega)⟩

theorem bblock_eq_iff (h : sb.Layout log) (hb : b < sb.nbits) (hc : c < sb.nbits) :
    sb.bblock c = sb.bblock b ↔ c / bpb = b / bpb := by
  rw [h.bblock_eq hb, h.bblock_eq hc]
  exact Nat.add_right_cancel_iff

/-- The bits of one block. -/
theorem bblock_add (h : sb.Layout log) {r i : ℕ} (hr : r < sb.nbitmap) (hi : i < bpb) :
    r * bpb + i < sb.nbits ∧ sb.bblock (r * bpb + i) = sb.bblock (r * bpb) ∧
      (r * bpb + i) % bpb = i := by
  have hlt : r * bpb + i < sb.nbits :=
    calc r * bpb + i
        < r * bpb + bpb := Nat.add_lt_add_left hi _
      _ = (r + 1) * bpb := (Nat.succ_mul r bpb).symm
      _ ≤ sb.nbits := Nat.mul_le_mul_right bpb hr
  have hpos : 0 < bpb := Nat.zero_lt_of_lt hi
  refine ⟨hlt, ?_, Nat.mul_add_mod_of_lt hi⟩
  rw [h.bblock_eq_iff ((Nat.le_add_right _ _).trans_lt hlt) hlt, Nat.mul_div_cancel _ hpos,
    Nat.mul_comm, Nat.mul_add_div hpos, Nat.div_eq_of_lt hi, Nat.add_zero]

end Layout

end Superblock

namespace View

/-- The view once `balloc` has taken block `b`. -/
def alloc (x : View) (b : ℕ) : View :=
  (x.write (x.mem.sb.bblock b) (setBitmapBit (x.store (x.mem.sb.bblock b)) (b % bpb))).write b
    Buffer.zero

/-- The view once `bfree` has given back block `b`. -/
def free (x : View) (b : ℕ) : View :=
  x.write (x.mem.sb.bblock b) (clearBitmapBit (x.store (x.mem.sb.bblock b)) (b % bpb))

variable {x y : View} {b c : ℕ} {d : Block}

/-- A block of the bitmap is written with one bit changed. -/
theorem bit_write {flag : Bool} (h : x.mem.sb.Layout x.mem.log) (hb : b < x.mem.sb.nbits)
    (hc : c < x.mem.sb.nbits)
    (hd : ∀ i, bitmapBit d i =
      if b % bpb = i then flag else bitmapBit (x.store (x.mem.sb.bblock b)) i) :
    (x.write (x.mem.sb.bblock b) d).bit c = if b = c then flag else x.bit c := by
  change bitmapBit ((x.write (x.mem.sb.bblock b) d).store (x.mem.sb.bblock c)) (c % bpb) = _
  by_cases hblock : c / bpb = b / bpb
  · have hsame := (h.bblock_eq_iff hb hc).mpr hblock
    have hmod : b % bpb = c % bpb ↔ b = c := by
      refine ⟨fun heq => ?_, fun heq => by rw [heq]⟩
      rw [← Nat.div_add_mod b bpb, ← Nat.div_add_mod c bpb, hblock, heq]
    rw [hsame, write_store_same, hd, View.bit, hsame]
    exact if_congr hmod rfl rfl
  · have hother : x.mem.sb.bblock c ≠ x.mem.sb.bblock b :=
      fun heq => hblock ((h.bblock_eq_iff hb hc).mp heq)
    have hne : b ≠ c := by
      rintro rfl
      exact hblock rfl
    rw [write_store_of_ne hother, if_neg hne, View.bit]

theorem bit_set (h : x.mem.sb.Layout x.mem.log) (hb : b < x.mem.sb.nbits)
    (hc : c < x.mem.sb.nbits) :
    (x.write (x.mem.sb.bblock b)
      (setBitmapBit (x.store (x.mem.sb.bblock b)) (b % bpb))).bit c =
      if b = c then true else x.bit c := by
  refine bit_write h hb hc fun i => ?_
  rw [bitmapBit_set _ (Nat.mod_lt b (Nat.succ_pos _))]
  by_cases hi : b % bpb = i
  · rw [if_pos hi, decide_eq_true hi, Bool.or_true]
  · rw [if_neg hi, decide_eq_false hi, Bool.or_false]

/-- `bfree` clears one bit. -/
theorem bit_free (h : x.mem.sb.Layout x.mem.log) (hb : b < x.mem.sb.nbits)
    (hc : c < x.mem.sb.nbits) : (x.free b).bit c = if b = c then false else x.bit c := by
  refine bit_write h hb hc fun i => ?_
  rw [bitmapBit_clear _ (Nat.mod_lt b (Nat.succ_pos _))]
  by_cases hi : b % bpb = i
  · rw [if_pos hi, decide_eq_false (not_not.mpr hi), Bool.and_false]
  · rw [if_neg hi, decide_eq_true hi, Bool.and_true]

theorem free_store_of_ne (h : c ≠ x.mem.sb.bblock b) : (x.free b).store c = x.store c :=
  write_store_of_ne h

/-- `balloc` sets one bit. -/
theorem bit_alloc (h : x.mem.sb.Layout x.mem.log) (hlo : x.mem.sb.metaEnd ≤ b)
    (hb : b < x.mem.sb.size) (hc : c < x.mem.sb.nbits) :
    (x.alloc b).bit c = if b = c then true else x.bit c := by
  have hbits := hb.trans_le x.mem.sb.size_le_nbits
  have hne : x.mem.sb.bblock c ≠ b := fun heq => absurd hlo (not_le.mpr (heq ▸ (h.isBitmap hc).2))
  rw [← bit_set h hbits hc, View.bit, View.bit]
  exact congrArg (bitmapBit · _) (write_store_of_ne hne)

theorem alloc_store_same : (x.alloc b).store b = Buffer.zero := write_store_same

theorem alloc_store_of_ne (hne : c ≠ b) (hblock : c ≠ x.mem.sb.bblock b) :
    (x.alloc b).store c = x.store c := by
  rw [alloc, write_store_of_ne hne, write_store_of_ne hblock]

/-- A block of the bitmap is given by its bits. -/
theorem bitmap_ext {d d' : Block} (h : ∀ i < bpb, bitmapBit d i = bitmapBit d' i) : d = d' := by
  ext j hj
  refine Nat.eq_of_testBit_eq fun k => ?_
  by_cases hk : k < 8
  · have hbit := h (8 * j + k) (by
      have hj' : j < 1024 := hj
      change 8 * j + k < 8192
      omega)
    have hdiv : (8 * j + k) / 8 = j := by omega
    have hmod : (8 * j + k) % 8 = k := by omega
    rwa [bitmapBit, bitmapBit, hdiv, hmod] at hbit
  · have hbig (a : UInt8) : a.toNat.testBit k = false :=
      Nat.testBit_lt_two_pow (a.toNat_lt.trans_le (Nat.pow_le_pow_right (by decide) (not_lt.mp hk)))
    rw [hbig, hbig]

/-- Views with the same bits have the same bitmap. -/
theorem same_bitmap (h : x.mem.sb.Layout x.mem.log) (hsb : y.mem.sb = x.mem.sb)
    (hbits : ∀ c < x.mem.sb.nbits, y.bit c = x.bit c) (hc : x.mem.sb.IsBitmap c) :
    y.store c = x.store c := by
  have hr : c - x.mem.sb.bmapstart < x.mem.sb.nbitmap := by
    obtain ⟨hlo, hhi⟩ := hc
    unfold Superblock.metaEnd at hhi
    omega
  have hblock : x.mem.sb.bblock ((c - x.mem.sb.bmapstart) * bpb) = c := by
    have hpos : 0 < bpb := Nat.succ_pos _
    rw [h.bblock_eq (Nat.mul_lt_mul_of_pos_right hr hpos), Nat.mul_div_cancel _ hpos]
    exact Nat.sub_add_cancel hc.1
  refine bitmap_ext fun i hi => ?_
  obtain ⟨hlt, hadd, hmod⟩ := h.bblock_add hr hi
  have hbit := hbits _ hlt
  rwa [View.bit, View.bit, hsb, hadd, hmod, hblock] at hbit

end View

/-! ## `balloc` and `bfree` -/

namespace View

/-- Block `b` is the first free one. -/
def FirstFree (x : View) (b : ℕ) : Prop :=
  b < x.mem.sb.size ∧ x.bit b = false ∧ ∀ c < b, x.bit c = true

/-- The blocks in front of the data are in use. -/
def Reserved (x : View) : Prop := ∀ b < x.mem.sb.metaEnd, b < x.mem.sb.size → x.bit b = true

theorem FirstFree.metaEnd_le {x : View} {b : ℕ} (h : x.FirstFree b) (hx : x.Reserved) :
    x.mem.sb.metaEnd ≤ b := by
  by_contra hlt
  have hset := hx b (not_le.mp hlt) h.1
  rw [h.2.1] at hset
  cases hset

theorem FirstFree.unique {x : View} {b c : ℕ} (h : x.FirstFree b) (h' : x.FirstFree c) : b = c := by
  rcases lt_trichotomy b c with hlt | heq | hgt
  · exact absurd (h'.2.2 b hlt) (by rw [h.2.1]; exact Bool.noConfusion)
  · exact heq
  · exact absurd (h.2.2 c hgt) (by rw [h'.2.1]; exact Bool.noConfusion)

theorem FirstFree.not_full {x : View} {b : ℕ} (h : x.FirstFree b) :
    ¬ ∀ c < x.mem.sb.size, x.bit c = true := by
  intro hset
  have hclear := h.2.1
  rw [hset b h.1] at hclear
  cases hclear

end View

namespace OnBlocks

section
variable {strict : Prop} {err : Stop → Prop} {B : Finset ℕ} {holds b : ℕ} {x : View} {d : Block}
  {α : Type} {Q : α → View → Prop}

/-- One round of the outer loop of `balloc`: the blocks of the earlier rounds are in use. -/
theorem ballocBlock_wp (hinv : LogInv rootdev ∅ x) (hfits : strict → x.Fits 1)
    (hlayout : x.mem.sb.Layout x.mem.log) (hres : x.Reserved)
    (hroom : ∀ b, x.FirstFree b → Logging strict err {x.mem.sb.bblock b, b} 1 x) {r : ℕ}
    (hr : r < x.mem.sb.nbitmap) (hbelow : ∀ c < r * bpb, c < x.mem.sb.size → x.bit c = true) :
    (ballocBlock rootdev (r * bpb)).wp (blockRules strict err) (fun answer t => match answer with
      | some b => x.FirstFree b ∧ t = x.alloc b ∧ Logging strict err {x.mem.sb.bblock b, b} 1 t
      | none => t = x ∧ ∀ c < (r + 1) * bpb, c < x.mem.sb.size → x.bit c = true) x := by
  have hpos : 0 < bpb := Nat.succ_pos _
  have hsize := hlayout.size_le
  have hi32 : i32 x.mem.sb.size = x.mem.sb.size := i32_eq_self (by omega) (by omega)
  have hblock := (hlayout.bitmap_ok (hlayout.isBitmap (hlayout.bblock_add hr hpos).1))
  rw [Nat.add_zero] at hblock
  have hbit : ∀ i < bpb, bitmapBit (x.store (x.mem.sb.bblock (r * bpb))) i = x.bit (r * bpb + i) := by
    intro i hi
    obtain ⟨-, hadd, hmod⟩ := hlayout.bblock_add hr hi
    rw [View.bit, hadd, hmod]
  rw [ballocBlock, wp_get]
  refine wp_bread (fun hs => (hfits hs).room _) hblock.1 ?_
  refine wp_data_hold ?_
  cases hfind : (List.range bpb).find? fun bi =>
      ((r * bpb + bi : ℕ) : ℤ) < i32 x.mem.sb.size ∧
        bitmapBit (x.store (x.mem.sb.bblock (r * bpb))) bi = false with
  | none =>
      refine wp_brelse_hold hinv (wp_done.mpr ⟨rfl, fun c hc hlt => ?_⟩)
      by_cases hold : c < r * bpb
      · exact hbelow c hold hlt
      · have hi : c - r * bpb < bpb := by
          rw [Nat.succ_mul] at hc
          omega
        have hno := List.find?_range_eq_none.mp hfind _ hi
        have hc' : r * bpb + (c - r * bpb) = c := by omega
        simp only [hbit _ hi, hc', hi32, Nat.cast_lt, hlt, true_and, Bool.not_eq_true',
          decide_eq_false_iff_not, Bool.not_eq_false] at hno
        exact hno
  | some bi =>
      obtain ⟨hprop, hmem, hbefore⟩ := List.find?_range_eq_some.mp hfind
      have hi : bi < bpb := List.mem_range.mp hmem
      simp only [hbit _ hi, hi32, Nat.cast_lt, decide_eq_true_eq] at hprop
      have hfree : x.FirstFree (r * bpb + bi) := by
        refine ⟨hprop.1, hprop.2, fun c hc => ?_⟩
        by_cases hold : c < r * bpb
        · exact hbelow c hold (hc.trans hprop.1)
        · have hc' : r * bpb + (c - r * bpb) = c := by omega
          have hno := hbefore (c - r * bpb) (by omega)
          simp only [hbit _ (by omega : c - r * bpb < bpb), hc', hi32, Nat.cast_lt,
            hc.trans hprop.1, true_and, Bool.not_eq_true', decide_eq_false_iff_not,
            Bool.not_eq_false] at hno
          exact hno
      obtain ⟨-, hadd, hmod⟩ := hlayout.bblock_add hr hi
      have hdata := hlayout.data_ok (hfree.metaEnd_le hres) hprop.1
      have hlog := hroom _ hfree
      rw [hadd] at hlog
      refine wp_update hlog (Finset.mem_insert_self _ _) hblock.1 hblock.2 fun hset => ?_
      refine wp_bread (fun hs => hset.free_buffer hs _) hdata.1 ?_
      refine wp_update hset (Finset.mem_insert_of_mem (Finset.mem_singleton_self _)) hdata.1 hdata.2
        fun hzeroed => wp_done.mpr ⟨hfree, ?_, ?_⟩
      · rw [View.alloc, hadd, hmod]
      · rw [hadd]
        exact hzeroed

/-- `balloc` takes the first free block. -/
theorem wp_balloc_bits (hinv : LogInv rootdev ∅ x) (hfits : strict → x.Fits 1)
    (hlayout : x.mem.sb.Layout x.mem.log) (hres : x.Reserved)
    (hroom : ∀ b, x.FirstFree b → Logging strict err {x.mem.sb.bblock b, b} 1 x)
    (hfull : (∀ c < x.mem.sb.size, x.bit c = true) → err (.panic "balloc: out of blocks")) :
    (balloc rootdev).wp (blockRules strict err) (fun b t => x.FirstFree b ∧ t = x.alloc b ∧
      Logging strict err {x.mem.sb.bblock b, b} 1 t) x := by
  have hsize := hlayout.size_le
  have hi32 : i32 x.mem.sb.size = x.mem.sb.size := i32_eq_self (by omega) (by omega)
  have hrounds : ((i32 x.mem.sb.size).toNat + bpb - 1) / bpb = x.mem.sb.nbitmap := by
    rw [hi32, Int.toNat_natCast]
    rfl
  rw [balloc, wp_get, hrounds, Prog.wp_bind]
  refine Prog.wp_forFirst (fun r t => t = x ∧ ∀ c < r * bpb, c < x.mem.sb.size → x.bit c = true)
    (fun _ _ _ _ _ => trivial) ⟨rfl, fun c hc => ?_⟩ ?_ ?_
  · rw [Nat.zero_mul] at hc
    exact absurd hc (Nat.not_lt_zero c)
  · rintro t ⟨rfl, hset⟩
    refine wp_panic.mpr (hfull fun c hc => hset c ?_ hc)
    rw [Nat.zero_add]
    exact hc.trans_le (Superblock.size_le_nbits _)
  · rintro r t - hr ⟨rfl, hbelow⟩
    rw [Nat.zero_add] at hr
    refine Prog.wp_mono (ballocBlock_wp hinv hfits hlayout hres hroom hr hbelow) ?_
    intro answer u _ hu
    cases answer with
    | none => exact hu
    | some b => exact wp_done.mpr hu

/-- `bfree` gives back a block that is in use. -/
theorem wp_bfree_bits {f : Unit → Kern α} (hx : Logging strict err B (holds + 1) x)
    (hlayout : x.mem.sb.Layout x.mem.log) (hb : b < x.mem.sb.nbits)
    (hmem : x.mem.sb.bblock b ∈ B) (hused : x.bit b = true)
    (h : Logging strict err B (holds + 1) (x.free b) →
      (f ()).wp (blockRules strict err) Q (x.free b)) :
    (bfree rootdev b >>= f).wp (blockRules strict err) Q x := by
  have hok := hlayout.bitmap_ok (hlayout.isBitmap hb)
  rw [bfree, bind_assoc, wp_get, bind_assoc]
  refine wp_bread (fun hs => hx.free_buffer hs _) hok.1 ?_
  rw [bind_assoc]
  refine wp_data_hold ?_
  have hset : bitmapBit (x.store (x.mem.sb.bblock b)) (b % bpb) = true := hused
  rw [hset, if_neg (by decide)]
  simp only [bind_assoc]
  exact wp_update hx hmem hok.1 hok.2 h

/-- `bfree` of a free block never returns. -/
theorem bfree_clear (hlayout : x.mem.sb.Layout x.mem.log) (hb : b < x.mem.sb.nbits)
    (hclear : x.bit b = false) (herr : err (.panic "freeing free block")) :
    (bfree rootdev b).wp (blockRules False err) (fun _ _ => False) x := by
  have hok := hlayout.bitmap_ok (hlayout.isBitmap hb)
  rw [bfree, wp_get]
  refine wp_bread False.elim hok.1 ?_
  refine wp_data_hold ?_
  have hbit : bitmapBit (x.store (x.mem.sb.bblock b)) (b % bpb) = false := hclear
  rw [hbit, if_pos rfl]
  exact wp_panic.mpr herr

end

end OnBlocks

end RiscvOs
