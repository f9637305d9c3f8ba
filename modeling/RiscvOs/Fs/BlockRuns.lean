import RiscvOs.Fs.Reclaim
import RiscvOs.Fs.Boot

/-!
# Runs of `balloc`, `bfree` and `itrunc`

What the machine does, for any number of blocks of the bitmap.  A run may stop because the log
or the buffer cache is full (`NoRoom`); with room for the blocks it changes it does not.
-/

namespace RiscvOs

open Effect Bytes Kern Bio

/-- The machine is inside a transaction, and the blocks in front of the data are marked. -/
structure BitmapAt (x : View) (s : Machine) : Prop where
  refines : ∃ order, Refines rootdev order x s
  inv : LogInv rootdev ∅ x
  unlocked : x.mem.log.lock = false
  begun : 1 ≤ x.mem.log.outstanding
  small : x.mem.log.size ≤ 31
  layout : x.mem.sb.Layout x.mem.log
  reserved : x.Reserved

/-- The log is full. -/
def LogFull (e : Stop) : Prop := e = .panic "log: too big"

/-- The log or the buffer cache is full. -/
def NoRoom (e : Stop) : Prop := LogFull e ∨ e = .panic "bget: no buffers"

/-- The log is full, or all blocks are in use. -/
def Refused (x : View) (e : Stop) : Prop :=
  LogFull e ∨ e = .panic "balloc: out of blocks" ∧ ∀ c < x.mem.sb.size, x.bit c = true

/-- What `balloc` leaves when it returns block `b`. -/
structure BlockTaken (x : View) (b : ℕ) (y : View) : Prop where
  first : x.FirstFree b
  bits : ∀ c < x.mem.sb.nbits, y.bit c = if b = c then true else x.bit c
  zeroed : y.store b = Buffer.zero
  store : ∀ c, c ≠ b → ¬ x.mem.sb.IsBitmap c → y.store c = x.store c
  mem : { y.mem with log := x.mem.log } = x.mem

/-- The blocks that `itrunc` changes. -/
def View.truncBlocks (x : View) (ip : Fin ninode) : Finset ℕ :=
  insert (x.mem.sb.iblock (x.mem.inode ip).inum)
    (((Finset.range nslots).filter fun k => x.addr ip k ≠ 0).image
      fun k => x.mem.sb.bblock (x.addr ip k))

/-! ## From the rules to the machine -/

section
variable {α : Type} {err : Stop → Prop} {p : Kern α} {Q : α → View → Prop} {x : View} {s t : Machine}
  {a : α} {e : Stop}

theorem ok_of_blocks (hwp : p.wp (blockRules False err) Q x)
    (h : ∃ order, Refines rootdev order x s) (hrun : p.run machine s = .ok (a, t)) :
    ∃ y, (∃ order, Refines rootdev order y t) ∧ Q a y :=
  (simulation rootdev False err fun _ => True).run_ok hwp h hrun

theorem error_of_blocks (hwp : p.wp (blockRules False err) Q x)
    (h : ∃ order, Refines rootdev order x s) (hrun : p.run machine s = .error e) :
    err e ∨ e = .panic "bget: no buffers" := by
  rcases (simulation rootdev False err fun _ => True).run hwp h with
    ⟨e', hfail, herr⟩ | ⟨_, -, _, -, hok, -⟩
  · rw [hrun] at hfail
    obtain rfl := Except.error.inj hfail
    refine herr.imp_right ?_
    rintro ⟨_, -, -, heq, -⟩
    exact heq
  · rw [hrun] at hok
    cases hok

/-- With room in the cache, a run ends as the rules allow. -/
theorem run_of_blocks (hwp : p.wp (blockRules True err) Q x)
    (h : ∃ order, Refines rootdev order x s) :
    (∃ e, p.run machine s = .error e ∧ err e) ∨
      ∃ a t y, p.run machine s = .ok (a, t) ∧ (∃ order, Refines rootdev order y t) ∧ Q a y := by
  rcases (simulation rootdev True err fun _ => True).run hwp h with
    ⟨e, hfail, herr⟩ | ⟨a, y, t, -, hok, hrefines, hy⟩
  · refine .inl ⟨e, hfail, herr.resolve_right ?_⟩
    rintro ⟨_, -, hstrict, -⟩
    exact hstrict trivial
  · exact .inr ⟨a, t, y, hok, hrefines, hy⟩

end

namespace BitmapAt

variable {x y : View} {s t : Machine} {b : ℕ} {strict : Prop} {err : Stop → Prop} {B : Finset ℕ}
  {holds : ℕ} {ip : Fin ninode}

theorem logging (h : BitmapAt x s) (hroom : x.mem.log.RoomFor B ∨ err (.panic "log: too big"))
    (hfits : strict → x.FitsWith B holds) : Logging strict err B holds x :=
  { h with room := hroom, fits := hfits }

theorem of_logging (h : Logging strict err B holds y) (hrefines : ∃ order, Refines rootdev order y t)
    (hlayout : y.mem.sb.Layout y.mem.log) (hres : y.Reserved) : BitmapAt y t :=
  { h with refines := hrefines, layout := hlayout, reserved := hres }

theorem alloc (h : BitmapAt x s) (hfirst : x.FirstFree b)
    (hrefines : ∃ order, Refines rootdev order (x.alloc b) t)
    (hlog : Logging strict err B holds (x.alloc b)) : BitmapAt (x.alloc b) t := by
  refine of_logging hlog hrefines (h.layout.congr ⟨rfl, rfl⟩) fun c hc hlt => ?_
  rw [View.bit_alloc h.layout (hfirst.metaEnd_le h.reserved) hfirst.1
    (hlt.trans_le (Superblock.size_le_nbits _))]
  by_cases hbc : b = c
  · exact if_pos hbc
  · rw [if_neg hbc]
    exact h.reserved c hc hlt

theorem taken (h : BitmapAt x s) (hfirst : x.FirstFree b) : BlockTaken x b (x.alloc b) where
  first := hfirst
  bits c hc := View.bit_alloc h.layout (hfirst.metaEnd_le h.reserved) hfirst.1 hc
  zeroed := View.alloc_store_same
  store c hne hc := by
    refine View.alloc_store_of_ne hne ?_
    rintro rfl
    exact hc (h.layout.isBitmap (hfirst.1.trans_le (Superblock.size_le_nbits _)))
  mem := rfl

/-- `bfree` of the block just allocated. -/
theorem free_alloc (h : BitmapAt x s) (hfirst : x.FirstFree b) {c : ℕ} (hc : c ≠ b) :
    ((x.alloc b).free b).store c = x.store c := by
  have hlo := hfirst.metaEnd_le h.reserved
  have hb := hfirst.1.trans_le (Superblock.size_le_nbits _)
  have hlayout : (x.alloc b).mem.sb.Layout (x.alloc b).mem.log := h.layout.congr ⟨rfl, rfl⟩
  by_cases hbitmap : x.mem.sb.IsBitmap c
  · refine View.same_bitmap h.layout rfl (fun c' hc' => ?_) hbitmap
    rw [View.bit_free hlayout hb hc', View.bit_alloc h.layout hlo hfirst.1 hc']
    by_cases heq : b = c'
    · rw [if_pos heq, ← heq, hfirst.2.1]
    · rw [if_neg heq, if_neg heq]
  · have hne : c ≠ (x.alloc b).mem.sb.bblock b := by
      rintro rfl
      exact hbitmap (h.layout.isBitmap hb)
    rw [View.free_store_of_ne hne, View.alloc_store_of_ne (x := x) hc hne]

theorem free (h : BitmapAt x s) (hlo : x.mem.sb.metaEnd ≤ b) (hb : b < x.mem.sb.nbits)
    (hrefines : ∃ order, Refines rootdev order (x.free b) t)
    (hlog : Logging strict err B holds (x.free b)) : BitmapAt (x.free b) t := by
  refine of_logging hlog hrefines (h.layout.congr ⟨rfl, rfl⟩) fun c hc hlt => ?_
  have hne : b ≠ c := (hc.trans_le hlo).ne'
  rw [View.bit_free h.layout hb (hlt.trans_le (Superblock.size_le_nbits _)), if_neg hne]
  exact h.reserved c hc hlt

theorem truncated (h : BitmapAt x s) (howns : x.OwnsBlocks ip) (hy : Truncated ip x y)
    (hrefines : ∃ order, Refines rootdev order y t) (hlog : Logging strict err B holds y) :
    BitmapAt y t := by
  have hsb : y.mem.sb = x.mem.sb := by
    have hsb := congrArg Mem.sb hy.mem
    exact hsb
  refine of_logging hlog hrefines (by rw [hsb]; exact h.layout.congr hy.area) fun c hc hlt => ?_
  rw [hsb] at hc hlt
  have hunlisted : ¬ x.Lists ip c := by
    rintro ⟨hne, k, hk, rfl⟩
    exact absurd hc (not_lt.mpr (howns.inside k hk hne).1)
  rw [hy.bits c (hlt.trans_le (Superblock.size_le_nbits _)), h.reserved c hc hlt,
    decide_eq_false hunlisted]
  rfl

/-- The blocks that `itrunc` changes are enough. -/
theorem itrunc_wp (h : BitmapAt x s) (howns : x.OwnsBlocks ip)
    (hdev : (x.mem.inode ip).dev = rootdev) (hinum : (x.mem.inode ip).inum < x.mem.sb.ninodes)
    (hroom : x.mem.log.RoomFor (x.truncBlocks ip) ∨ err (.panic "log: too big"))
    (hfits : strict → x.FitsWith (x.truncBlocks ip) 2) :
    (itrunc ip).wp (blockRules strict err)
      (fun _ y => Truncated ip x y ∧ Logging strict err (x.truncBlocks ip) 2 y) x := by
  have htruncatable : OnBlocks.Truncatable x ip (x.truncBlocks ip) :=
    { layout := h.layout
      owns := howns
      dev := hdev
      covered := fun _ hk hne => Finset.mem_insert_of_mem (Finset.mem_image_of_mem _
        (Finset.mem_filter.mpr ⟨Finset.mem_range.mpr hk, hne⟩)) }
  exact OnBlocks.wp_itrunc_bits htruncatable hinum (Finset.mem_insert_self _ _)
    (h.logging hroom hfits)

theorem balloc_wp (h : BitmapAt x s) (hfits : strict → x.Fits 1)
    (hroom : ∀ b, x.FirstFree b →
      (x.mem.log.RoomFor {x.mem.sb.bblock b, b} ∨ err (.panic "log: too big")) ∧
        (strict → x.FitsWith {x.mem.sb.bblock b, b} 1))
    (hfull : (∀ c < x.mem.sb.size, x.bit c = true) → err (.panic "balloc: out of blocks")) :
    (balloc rootdev).wp (blockRules strict err) (fun b t => x.FirstFree b ∧ t = x.alloc b ∧
      Logging strict err {x.mem.sb.bblock b, b} 1 t) x :=
  OnBlocks.wp_balloc_bits h.inv hfits h.layout h.reserved
    (fun b hb => h.logging (hroom b hb).1 (hroom b hb).2) hfull

/-- `balloc` when nothing is known about the log and the buffers. -/
theorem balloc_loose (h : BitmapAt x s) :
    (balloc rootdev).wp (blockRules False (Refused x)) (fun b t => x.FirstFree b ∧ t = x.alloc b ∧
      Logging False (Refused x) {x.mem.sb.bblock b, b} 1 t) x :=
  h.balloc_wp False.elim (fun _ _ => ⟨.inr (.inl rfl), False.elim⟩) fun hset => .inr ⟨rfl, hset⟩

theorem bfree_wp (h : BitmapAt x s) (hfirst : x.FirstFree b)
    (hlog : Logging strict err {x.mem.sb.bblock b, b} 1 (x.alloc b)) :
    (bfree rootdev b).wp (blockRules strict err) (fun _ t => t = (x.alloc b).free b ∧
      Logging strict err {x.mem.sb.bblock b, b} 1 t) (x.alloc b) := by
  have hb := hfirst.1.trans_le (Superblock.size_le_nbits _)
  have hset := View.bit_alloc h.layout (hfirst.metaEnd_le h.reserved) hfirst.1 hb
  rw [if_pos rfl] at hset
  rw [← Prog.bind_ret (bfree _ _)]
  exact OnBlocks.wp_bfree_bits hlog (h.layout.congr ⟨rfl, rfl⟩) hb (Finset.mem_insert_self _ _) hset
    fun hfreed => OnBlocks.wp_done.mpr ⟨rfl, hfreed⟩

end BitmapAt

/-- The bitmap of any number of blocks.  `balloc` takes the first free block, sets its bit and
clears it, and stops only if there is none or no room for the blocks it changes; `bfree` of
that block brings the bitmap back, and never frees a free block.  `itrunc` frees the blocks of
an inode that owns them, each once, and no others, and changes no other inode. -/
theorem bitmap_runs {x : View} {s : Machine} (h : BitmapAt x s) :
    ((∀ b t, (balloc rootdev).run machine s = .ok (b, t) →
        ∃ y, BitmapAt y t ∧ BlockTaken x b y ∧
          (∀ u, (bfree rootdev b).run machine t = .ok ((), u) →
            ∃ z, BitmapAt z u ∧ ∀ c, c ≠ b → z.store c = x.store c) ∧
          ∀ e, (bfree rootdev b).run machine t = .error e → NoRoom e) ∧
      (∀ e, (balloc rootdev).run machine s = .error e → NoRoom e ∨
        e = .panic "balloc: out of blocks" ∧ ∀ c < x.mem.sb.size, x.bit c = true) ∧
      ((∀ c < x.mem.sb.size, x.bit c = true) → x.Fits 1 →
        (balloc rootdev).run machine s = .error (.panic "balloc: out of blocks")) ∧
      ∀ b, x.FirstFree b → x.mem.log.RoomFor {x.mem.sb.bblock b, b} →
        x.FitsWith {x.mem.sb.bblock b, b} 1 → ∃ t u,
          (balloc rootdev).run machine s = .ok (b, t) ∧
          (bfree rootdev b).run machine t = .ok ((), u)) ∧
    (∀ b < x.mem.sb.nbits, x.bit b = false → ∀ u,
      (bfree rootdev b).run machine s ≠ .ok ((), u)) ∧
    ∀ ip, x.OwnsBlocks ip → (x.mem.inode ip).dev = rootdev →
      (x.mem.inode ip).inum < x.mem.sb.ninodes →
      (∀ t, (itrunc ip).run machine s = .ok ((), t) → ∃ y, BitmapAt y t ∧ Truncated ip x y) ∧
      (∀ e, (itrunc ip).run machine s = .error e → NoRoom e) ∧
      (x.mem.log.RoomFor (x.truncBlocks ip) → x.FitsWith (x.truncBlocks ip) 2 →
        ∃ t, (itrunc ip).run machine s = .ok ((), t)) := by
  refine ⟨⟨?_, ?_, ?_, ?_⟩, ?_, ?_⟩
  · intro b t hrun
    obtain ⟨_, hrefines, hfirst, rfl, hlog⟩ := ok_of_blocks h.balloc_loose h.refines hrun
    have hwp := h.bfree_wp hfirst (hlog.relax rfl : Logging False LogFull _ 1 _)
    refine ⟨_, h.alloc hfirst hrefines hlog, h.taken hfirst, fun u hfree => ?_,
      fun e hfree => error_of_blocks hwp hrefines hfree⟩
    obtain ⟨_, hrefines', rfl, hlog'⟩ := ok_of_blocks hwp hrefines hfree
    have hb := hfirst.1.trans_le (Superblock.size_le_nbits _)
    exact ⟨_, (h.alloc hfirst hrefines hlog).free (hfirst.metaEnd_le h.reserved) hb hrefines' hlog',
      fun c hc => h.free_alloc hfirst hc⟩
  · intro e hrun
    rcases error_of_blocks h.balloc_loose h.refines hrun with (hbig | hfull) | hbusy
    · exact .inl (.inl hbig)
    · exact .inr hfull
    · exact .inl (.inr hbusy)
  · intro hset hfits
    have hnone : ∀ b, ¬ x.FirstFree b := fun b hb => hb.not_full hset
    have hwp : (balloc rootdev).wp (blockRules True (· = .panic "balloc: out of blocks")) _ x :=
      h.balloc_wp (fun _ => hfits) (fun b hb => absurd hb (hnone b)) fun _ => rfl
    rcases run_of_blocks hwp h.refines with ⟨e, hrun, rfl⟩ | ⟨b, t, y, -, -, hfirst, -⟩
    · exact hrun
    · exact absurd hfirst (hnone b)
  · intro b hfirst hroom hfits
    have hunique : ∀ c, x.FirstFree c → c = b := fun c hc => hc.unique hfirst
    have hwp : (balloc rootdev).wp (blockRules True fun _ => False) _ x :=
      h.balloc_wp (fun _ => hfits.fits) (fun c hc => by
        obtain rfl := hunique c hc
        exact ⟨.inl hroom, fun _ => hfits⟩) hfirst.not_full
    rcases run_of_blocks hwp h.refines with ⟨e, -, hfalse⟩ | ⟨c, t, _, hrun, hrefines, hc, rfl, hlog⟩
    · exact hfalse.elim
    · obtain rfl := hunique c hc
      rcases run_of_blocks (h.bfree_wp hfirst hlog) hrefines with
        ⟨e, -, hfalse⟩ | ⟨_, u, _, hfree, -⟩
      · exact hfalse.elim
      · exact ⟨t, u, hrun, hfree⟩
  · intro b hb hclear u hrun
    have hwp : (bfree rootdev b).wp (blockRules False fun _ => True) (fun _ _ => False) x :=
      OnBlocks.bfree_clear h.layout hb hclear trivial
    obtain ⟨_, -, hfalse⟩ := ok_of_blocks hwp h.refines hrun
    exact hfalse
  · intro ip howns hdev hinum
    have hwp : (itrunc ip).wp (blockRules False LogFull) _ x :=
      h.itrunc_wp howns hdev hinum (.inr rfl) False.elim
    refine ⟨fun t hrun => ?_, fun e hrun => error_of_blocks hwp h.refines hrun,
      fun hroom hfits => ?_⟩
    · obtain ⟨y, hrefines, hy, hlog⟩ := ok_of_blocks hwp h.refines hrun
      exact ⟨y, h.truncated howns hy hrefines hlog, hy⟩
    · have hsure : (itrunc ip).wp (blockRules True fun _ => False) _ x :=
        h.itrunc_wp howns hdev hinum (.inl hroom) fun _ => hfits
      rcases run_of_blocks hsure h.refines with ⟨e, -, hfalse⟩ | ⟨_, t, _, hrun, -⟩
      · exact hfalse.elim
      · exact ⟨t, hrun⟩

/-! ## A disk with three bitmap blocks -/

/-- A block of ones. -/
def ones : Block := fun _ => 255

/-- Of 20000 blocks only 18000 is free; block 9000 is an indirect block with one entry. -/
def threeDisk (b : ℕ) : Block :=
  if b = 35 then clearBitmapBit ones (18000 % bpb)
  else if b = 9000 then setIndirectEntry Buffer.zero 0 17000
  else ones

/-- A transaction has begun, and slot 0 of the inode cache holds a file. -/
def threeMem : Mem where
  log := { start := 2, size := 30, outstanding := 1 }
  sb := { size := 20000, ninodes := 16, nlog := 30, logstart := 2, inodestart := 32, bmapstart := 33 }
  inode ip := if ip = 0 then
      { inum := 1, ref := 1, valid := true, din :=
        { type := tFile, nlink := 1, size := 14000,
          addrs := fun k => if k = 0 then 100 else if k = indirectSlot then 9000 else 0 } }
    else {}

def threeView : View := freshView threeMem threeDisk

theorem bit_ones {i : ℕ} (hi : i < bpb) : bitmapBit ones i = true := by
  have hlt : i / 8 < bsize := Nat.div_lt_of_lt_mul hi
  have hget : ones.get (i / 8) = 255 := dif_pos hlt
  have hbits : ∀ k < 8, (255 : UInt8).toNat.testBit k = true := by decide
  rw [bitmapBit, hget]
  exact hbits _ (Nat.mod_lt _ (by decide))

theorem three_layout : threeView.mem.sb.Layout threeView.mem.log where
  size_le := by decide
  start := rfl
  length := rfl
  logEnd := by decide
  inodeEnd := by decide
  bitmapEnd := by decide

theorem three_bit {c : ℕ} (hc : c < threeView.mem.sb.nbits) :
    threeView.bit c = decide (c ≠ 18000) := by
  have hbits : c < 24576 := hc
  have hmod : c % 8192 < 8192 := Nat.mod_lt _ (by decide)
  have hblock : threeView.mem.sb.bblock c = c / 8192 + 33 := three_layout.bblock_eq hc
  have hother : ¬ c / 8192 + 33 = 9000 := by omega
  rw [View.bit, hblock]
  change bitmapBit (if c / 8192 + 33 = 35 then _ else if c / 8192 + 33 = 9000 then _ else ones)
    (c % 8192) = _
  rw [if_neg hother]
  by_cases hlast : c / 8192 + 33 = 35
  · rw [if_pos hlast, bitmapBit_clear _ (Nat.mod_lt _ (Nat.succ_pos _)), bit_ones hmod, Bool.true_and]
    refine decide_eq_decide.mpr ?_
    change ¬ 18000 % 8192 = c % 8192 ↔ ¬ c = 18000
    omega
  · rw [if_neg hlast, bit_ones hmod]
    exact (decide_eq_true (by omega)).symm

theorem three_addr {k : ℕ} : threeView.addr 0 k =
    if k = 0 then 100 else if k = 12 then 9000 else if k = 13 then 17000 else 0 := by
  by_cases hk : k < 13
  · have hdirect : ∀ k : Fin (ndirect + 1), ((threeView.mem.inode 0).din.addrs k).toNat =
        if k.val = 0 then 100 else if k.val = 12 then 9000 else if k.val = 13 then 17000 else 0 := by
      decide
    rw [View.addr, dif_pos hk]
    exact hdirect ⟨k, hk⟩
  · have hind : ((threeView.mem.inode 0).din.addrs indirectSlot).toNat = 9000 := rfl
    have hstore : threeView.store 9000 = setIndirectEntry Buffer.zero 0 17000 := rfl
    rw [View.addr, dif_neg hk, hind, if_neg (by decide), hstore, if_neg (by omega),
      if_neg (by omega)]
    by_cases h13 : k = 13
    · rw [if_pos h13, h13]
      exact indirectEntry_set_same _ (by decide) (by decide)
    · rw [if_neg h13, indirectEntry_set_of_ne _ (by omega : k - 13 ≠ 0)]
      exact indirectEntry_zero _

theorem three_owns : threeView.OwnsBlocks 0 where
  inside k hk hne := by
    have hdata : ∀ c, c = 100 ∨ c = 9000 ∨ c = 17000 →
        threeView.mem.sb.metaEnd ≤ c ∧ c < threeView.mem.sb.size ∧ threeView.bit c = true := by
      rintro c (rfl | rfl | rfl)
      · exact ⟨by decide, by decide, three_bit (by decide)⟩
      · exact ⟨by decide, by decide, three_bit (by decide)⟩
      · exact ⟨by decide, by decide, three_bit (by decide)⟩
    refine hdata _ ?_
    rw [three_addr] at hne ⊢
    split_ifs at hne ⊢ <;> omega
  once k hk l hl hne heq := by
    rw [three_addr] at hne
    rw [three_addr, three_addr] at heq
    split_ifs at hne heq <;> omega

theorem three_at : ∃ s, BitmapAt threeView s := by
  let s : Machine := { mem := threeMem, bcache := Bcache.binit {}, disk := threeDisk }
  refine ⟨s, ⟨_, Refines.binit rootdev s {} rfl⟩, ?_, rfl, by decide, by decide, three_layout, ?_⟩
  · exact .of_empty rfl ⟨by decide, by decide, by decide⟩ rfl fun _ => ⟨rfl, rfl⟩
  · intro b hb hsize
    have hlt : b < 36 := hb
    rw [three_bit (hsize.trans_le (Superblock.size_le_nbits _))]
    exact decide_eq_true (by omega)

theorem three_first : threeView.FirstFree 18000 := by
  refine ⟨by decide, three_bit (by decide), fun c hc => ?_⟩
  have hbits : threeView.mem.sb.nbits = 24576 := by decide
  rw [three_bit (by omega)]
  exact decide_eq_true (by omega)

/-- Nothing is logged and no buffer in use, so there is room for a few blocks. -/
theorem three_room {B : Finset ℕ} {k : ℕ} (hB : B.card ≤ 4) (hk : k ≤ 2) :
    threeView.mem.log.RoomFor B ∧ threeView.FitsWith B k := by
  have hsize : threeView.mem.log.size = 30 := rfl
  have hbuf : nbuf = 30 := rfl
  have hempty : threeView.mem.log.lh.entries = ∅ := LogHeader.entries_of_empty rfl
  refine ⟨?_, B, by omega, subset_rfl, fun c hc => ?_⟩
  · rw [Log.RoomFor, hempty, Finset.empty_union, hsize]
    omega
  · rcases hc with hc | hc
    · exact absurd hc (Nat.lt_irrefl 0)
    · cases hc

/-- The inode and its three blocks lie behind four blocks of metadata. -/
theorem three_truncBlocks : (threeView.truncBlocks 0).card ≤ 4 := by
  refine (Finset.card_le_card (t := {32, 33, 34, 35}) fun c hc => ?_).trans (by decide)
  rcases Finset.mem_insert.mp hc with rfl | hc
  · have hiblock : threeView.mem.sb.iblock 1 = 1 / 16 + 32 := three_layout.iblock_eq (by decide)
    have hinum : (threeView.mem.inode 0).inum = 1 := rfl
    rw [hinum, hiblock]
    decide
  · obtain ⟨k, hk, rfl⟩ := Finset.mem_image.mp hc
    obtain ⟨hk, hne⟩ := Finset.mem_filter.mp hk
    have hlt := (three_owns.inside k (Finset.mem_range.mp hk) hne).2.1
    have hbits := hlt.trans_le (Superblock.size_le_nbits _)
    have hblock : threeView.mem.sb.bblock (threeView.addr 0 k) = threeView.addr 0 k / 8192 + 33 :=
      three_layout.bblock_eq hbits
    have hsmall : threeView.addr 0 k < 24576 := hbits
    rw [hblock]
    simp only [Finset.mem_insert, Finset.mem_singleton]
    omega

/-- The free block is in the third block of the bitmap, and so is one of the blocks of the file. -/
theorem bitmap_runs_three : ∃ s t u v y,
    (balloc rootdev).run machine s = .ok (18000, t) ∧
    (bfree rootdev 18000).run machine t = .ok ((), u) ∧
    (itrunc 0).run machine s = .ok ((), v) ∧
    BitmapAt threeView s ∧ BitmapAt y v ∧ Truncated 0 threeView y ∧ y.bit 17000 = false := by
  obtain ⟨s, hs⟩ := three_at
  obtain ⟨⟨-, -, -, halloc⟩, -, htrunc⟩ := bitmap_runs hs
  obtain ⟨hroom, hfits⟩ := three_room (k := 1)
    (Finset.card_le_two.trans (by decide : 2 ≤ 4)) (by decide)
  obtain ⟨t, u, hballoc, hbfree⟩ := halloc 18000 three_first hroom hfits
  obtain ⟨hok, -, hreturns⟩ := htrunc 0 three_owns rfl (by decide)
  obtain ⟨hroom', hfits'⟩ := three_room (k := 2) three_truncBlocks le_rfl
  obtain ⟨v, hrun⟩ := hreturns hroom' hfits'
  obtain ⟨y, hy, htruncated⟩ := hok v hrun
  have hlists : threeView.Lists 0 17000 := ⟨by decide, 13, by decide, three_addr⟩
  refine ⟨s, t, u, v, y, hballoc, hbfree, hrun, hs, hy, htruncated, ?_⟩
  rw [htruncated.bits 17000 (by decide), decide_eq_true hlists, Bool.not_true, Bool.and_false]

end RiscvOs
