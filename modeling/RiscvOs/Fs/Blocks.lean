import RiscvOs.Fs.State

/-!
# Allocating and freeing blocks

`balloc` finds the first clear bit of the bitmap, sets it and clears the block; `bfree`
clears a bit that is set.
-/

namespace RiscvOs

open Effect Bytes Kern

namespace Session

variable {x : Session} {b : ℕ}

/-- The session once `balloc` has taken block `b`. -/
def alloc (x : Session) (b : ℕ) : Session :=
  (x.write (x.mem.sb.bblock 0) (setBitmapBit (x.store (x.mem.sb.bblock 0)) b)).write b Buffer.zero

/-- The session once `bfree` has given back block `b`. -/
def free (x : Session) (b : ℕ) : Session :=
  x.write (x.mem.sb.bblock 0) (clearBitmapBit (x.store (x.mem.sb.bblock 0)) b)

theorem alloc_store_of_ne {c : ℕ} (h : c ≠ b) (hc : x.mem.sb.bblock 0 ≠ c) :
    (x.alloc b).store c = x.store c := by
  rw [alloc, write_store_of_ne h, write_store_of_ne hc.symm]

theorem volume_alloc (h : x.mem.sb.WellFormed x.mem.log) (hb : x.mem.sb.IsData b) :
    (x.alloc b).volume = x.volume.alloc b := by
  have hlt : b < bpb := lt_of_lt_of_le hb.2 h.size_le
  have hset := volume_setBit h hlt
  have hwf : (x.write (x.mem.sb.bblock 0)
      (setBitmapBit (x.store (x.mem.sb.bblock 0)) b)).mem.sb.WellFormed
      (x.write (x.mem.sb.bblock 0)
        (setBitmapBit (x.store (x.mem.sb.bblock 0)) b)).mem.log := h.congr ⟨rfl, rfl⟩
  have hdata := volume_write_data (d := Buffer.zero) hwf hb
  rw [alloc, hdata, hset]
  rfl

theorem volume_free (h : x.mem.sb.WellFormed x.mem.log) (hb : b < bpb) :
    (x.free b).volume = x.volume.setUsed b false := volume_clearBit h hb

/-- Taking a block uses up one of those to spare. -/
theorem tx_alloc {mode : Mode} {spare holds : ℕ} (hx : Tx mode (spare + 1) holds x)
    (hlimited : mode.limited) (h : x.mem.sb.WellFormed x.mem.log) (hb : x.mem.sb.IsData b) :
    Tx mode spare holds (x.alloc b) := by
  have hok := h.data_ok hb
  have hset : Tx mode (spare + 1) holds (x.write (x.mem.sb.bblock 0)
      (setBitmapBit (x.store (x.mem.sb.bblock 0)) b)) :=
    hx.write h.bitmap_ok.1 h.bitmap_ok.2
      (fun hnot => absurd (Finset.mem_insert_self _ _) hnot) le_rfl (hx.notBig hlimited) _
  exact hset.write hok.1 hok.2 (fun _ => le_rfl) (Nat.le_succ _) (hset.notBig hlimited) Buffer.zero

theorem tx_free {mode : Mode} {spare holds : ℕ} (hx : Tx mode spare holds x)
    (hlimited : mode.limited) (h : x.mem.sb.WellFormed x.mem.log) (b : ℕ) :
    Tx mode spare holds (x.free b) :=
  hx.write h.bitmap_ok.1 h.bitmap_ok.2 (fun hnot => absurd (Finset.mem_insert_self _ _) hnot)
    le_rfl (hx.notBig hlimited) _

theorem Sound.write (h : x.Sound) {d : Block}
    (howned : (x.write b d).volume.Owned x.mem.sb.ninodes x.mem.sb.datastart x.mem.sb.size) :
    (x.write b d).Sound where
  wf := h.wf.congr ⟨rfl, rfl⟩
  icache := ⟨h.icache.unique, h.icache.dev, h.icache.inum_lt, h.icache.nonneg⟩
  owned := howned

/-- A free block is a data block. -/
theorem Sound.isData (h : x.Sound) (hb : b < x.mem.sb.size) (hfree : x.volume.used b = false) :
    x.mem.sb.IsData b := by
  refine ⟨?_, hb⟩
  by_contra hlt
  have hused := h.owned.reserved b (not_le.mp hlt)
  rw [hfree] at hused
  cases hused

theorem Sound.datastart_pos (h : x.Sound) : 0 < x.mem.sb.datastart :=
  lt_of_le_of_lt (Nat.zero_le _) h.wf.bitmapEnd

end Session

namespace OnSession

section
variable {mode : Mode} {α : Type} {Q : α → Session → Prop}
  {Q' : Unit → Session → Prop} {spare holds : ℕ} {x : Session} {b : ℕ}

private theorem find_bit {x : Session} (hs : x.Sound) {d : Block} (bi : ℕ)
    (hfind : (List.range bpb).find? (fun bi =>
      ((0 * bpb + bi : ℕ) : ℤ) < i32 x.mem.sb.size ∧ bitmapBit d bi = false) = some bi) :
    bi < x.mem.sb.size ∧ bitmapBit d bi = false ∧ ∀ c < bi, bitmapBit d c = true := by
  have hsize := hs.wf.size_le
  have hsizes := fsSizes
  have hi32 : i32 x.mem.sb.size = x.mem.sb.size := i32_eq_self (by omega) (by omega)
  obtain ⟨hprop, before, after, hlist, hbefore⟩ := List.find?_eq_some_iff_append.mp hfind
  simp only [hi32, Nat.zero_mul, Nat.zero_add, Nat.cast_lt, decide_eq_true_eq] at hprop
  refine ⟨hprop.1, hprop.2, fun c hc => ?_⟩
  have hlen : before.length = bi := by
    have hget : (List.range bpb)[before.length]? = some bi := by rw [hlist]; simp
    rw [List.getElem?_range] at hget
    · exact Option.some.inj hget
    · have htotal := congrArg List.length hlist
      simp only [List.length_range, List.length_append, List.length_cons] at htotal
      omega
  have hmem : c ∈ before := by
    have hget : (List.range bpb)[c]? = before[c]? := by
      rw [hlist, List.getElem?_append_left (by omega)]
    rw [List.getElem?_range (by omega), List.getElem?_eq_getElem (by omega)] at hget
    rw [Option.some.inj hget]
    exact List.getElem_mem _
  have hno := hbefore c hmem
  simp only [hi32, Nat.zero_mul, Nat.zero_add, Nat.cast_lt] at hno
  by_contra hbit
  have hclear : bitmapBit d c = false := Bool.eq_false_of_not_eq_true hbit
  simp only [hclear, and_true, Bool.not_eq_true', decide_eq_false_iff_not, not_lt] at hno
  omega

/-- The bitmap is one block. -/
private theorem one_bitmap_block {n : ℕ} (hpos : 0 < n) (hle : n ≤ bpb) :
    (n + bpb - 1) / bpb = 1 := by
  have hbpb : 0 < bpb := Nat.succ_pos _
  have hsplit : n + bpb - 1 = (n - 1) + bpb := by omega
  rw [hsplit, Nat.add_div_right _ hbpb, Nat.div_eq_of_lt (by omega)]

/-- `balloc` takes the first free block. -/
theorem wp_balloc {f : ℕ → Kern α} (hx : Tx mode (spare + 1) (holds + 1) x) (hs : x.Sound)
    (hfull : x.volume.free x.mem.sb.size = 0 → mode.err (.panic "balloc: out of blocks"))
    (h : ∀ b, x.mem.sb.IsData b → x.volume.used b = false → (∀ c < b, x.volume.used c = true) →
      Tx mode spare (holds + 1) (x.alloc b) →
      (f b).wp (sessionRules mode) Q (x.alloc b)) :
    (balloc rootdev >>= f).wp (sessionRules mode) Q x := by
  have hsizes := fsSizes
  have hsize := hs.wf.size_le
  have hbitmap := hs.wf.bitmapEnd
  have hdata := hs.wf.dataEnd
  have hi32 : i32 x.mem.sb.size = x.mem.sb.size := i32_eq_self (by omega) (by omega)
  have hrounds : ((i32 x.mem.sb.size).toNat + bpb - 1) / bpb = 1 := by
    have hpos : 0 < x.mem.sb.size := lt_of_lt_of_le hs.datastart_pos hdata
    rw [hi32, Int.toNat_natCast]
    exact one_bitmap_block hpos hsize
  have hbblock : x.mem.sb.bblock (0 * bpb) = x.mem.sb.bblock 0 := by rw [Nat.zero_mul]
  rw [balloc, bind_assoc, wp_get, hrounds, Prog.forFirst, bind_assoc, bind_assoc, ballocBlock,
    bind_assoc, wp_get, bind_assoc, hbblock]
  refine wp_bread hx.calm hs.wf.bitmap_ok.1 ?_
  rw [bind_assoc]
  refine wp_data_hold ?_
  cases hfind : (List.range bpb).find? fun bi =>
      ((0 * bpb + bi : ℕ) : ℤ) < i32 x.mem.sb.size ∧
        bitmapBit (x.store (x.mem.sb.bblock 0)) bi = false with
  | none =>
      simp only [bind_assoc]
      refine wp_brelse hx.inv ?_
      refine wp_panic_bind.mpr (hfull (Volume.free_eq_zero.mpr fun b hb => ?_))
      have hno := List.find?_eq_none.mp hfind b (List.mem_range.mpr (lt_of_lt_of_le hb hsize))
      simp only [hi32, Nat.zero_mul, Nat.zero_add, Nat.cast_lt, decide_eq_true_eq, hb, true_and,
        Bool.not_eq_false] at hno
      exact hno
  | some bi =>
      obtain ⟨hlt, hclear, hfirst⟩ := find_bit hs bi hfind
      have hfree : x.volume.used bi = false := hclear
      have hbi := hs.isData hlt hfree
      have hok := hs.wf.data_ok hbi
      simp only [bind_assoc, Nat.zero_mul, Nat.zero_add]
      refine wp_update hx hs.wf.bitmap_ok.1 hs.wf.bitmap_ok.2
        (fun hnot => absurd (Finset.mem_insert_self _ _) hnot) le_rfl fun hx₁ => ?_
      refine wp_bread hx₁.calm hok.1 ?_
      refine wp_update hx₁ hok.1 hok.2 (fun _ => le_rfl) (Nat.le_succ _) fun hx₂ => ?_
      exact h bi hbi hfree hfirst hx₂

/-- `bfree` gives back a block that is in use. -/
theorem wp_bfree {f : Unit → Kern α} (hx : Tx mode spare (holds + 1) x)
    (hwf : x.mem.sb.WellFormed x.mem.log)
    (hb : b < bpb) (hused : x.volume.used b = true)
    (h : Tx mode spare (holds + 1) (x.free b) →
      (f ()).wp (sessionRules mode) Q (x.free b)) :
    (bfree rootdev b >>= f).wp (sessionRules mode) Q x := by
  have hbblock : x.mem.sb.bblock b = x.mem.sb.bblock 0 := by
    rw [hwf.bblock_eq hb, hwf.bblock_eq (by decide)]
  have hmod : b % bpb = b := Nat.mod_eq_of_lt hb
  rw [bfree, bind_assoc, wp_get, bind_assoc, hbblock, hmod]
  refine wp_bread hx.calm hwf.bitmap_ok.1 ?_
  rw [bind_assoc]
  refine wp_data_hold ?_
  have hset : bitmapBit (x.store (x.mem.sb.bblock 0)) b = true := hused
  rw [hset, if_neg (by decide)]
  simp only [bind_assoc]
  exact wp_update hx hwf.bitmap_ok.1 hwf.bitmap_ok.2
    (fun hnot => absurd (Finset.mem_insert_self _ _) hnot) le_rfl h

end

end OnSession

end RiscvOs
