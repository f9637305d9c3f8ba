import RiscvOs.Vm.Bytes
import RiscvOs.Vm.Tree

/-!
# Copies between a user and the kernel

`copyin`, `copyout` and `copyinstr` of `kernel/vm.c` look up one page of the user after the
other.  `userAddr` is the byte of memory that a user address is, if its page is found to be
the user's, and the copies are described byte by byte in terms of it: byte `k` of the range
is the byte at `userAddr (va + k)`, whatever pages the range runs over.

Two things could go wrong on the way, and hypotheses rule them out:

* a byte that is written may be part of a page table, so that later pages are looked up in
  another table (`IsTable`);
* a byte that is written may be one that is read later on.

No address is compared with the end of the address space.
-/

namespace RiscvOs

namespace Phys

/-- The page of the user at `va`, as the loops of the copies look it up. -/
def userLookup (m : Phys) (pt : ℕ) (va : Word) : Option ℕ :=
  (m.walkLookup pt va).bind fun table =>
    -- the entry is a null pointer when it is the first word at address 0
    if table = 0 ∧ vpn va 0 = 0 then none
    else if m.page table (vpn va 0) &&& pteV = 0 ∨ m.page table (vpn va 0) &&& pteU = 0 then none
    else some (ptePa (m.page table (vpn va 0)))

/-- `for(i = 0; i < n; i++) dst[i] = src[i]` -/
def copyBytes (m : Phys) (dst src : ℕ) : ℕ → Phys
  | 0 => m
  | n + 1 => (m.copyBytes dst src n).setByte (dst + n) ((m.copyBytes dst src n).byte (src + n))

/-- `n`: how many bytes a turn is about, to the end of the page or to the end of the range. -/
def chunk (va len : Word) : Word :=
  if 4096 - (va - pggrounddown va) > len then len else 4096 - (va - pggrounddown va)

theorem offset_toNat (va : Word) : (va - pggrounddown va).toNat = va.toNat % pgsize := by
  have hle := Nat.div_mul_le_self va.toNat pgsize
  have hmod := Nat.div_add_mod va.toNat pgsize
  rw [BitVec.toNat_sub, pggrounddown_toNat]
  simp only [pgsize] at hle hmod ⊢
  omega

theorem chunk_toNat (va len : Word) :
    (chunk va len).toNat = min (pgsize - va.toNat % pgsize) len.toNat := by
  have hoff := offset_toNat va
  have hlt := Nat.mod_lt va.toNat (show 0 < pgsize by decide)
  have hrest : (4096 - (va - pggrounddown va)).toNat = pgsize - va.toNat % pgsize := by
    have h4096 : (4096 : Word).toNat = 4096 := rfl
    rw [BitVec.toNat_sub, hoff, h4096]
    simp only [pgsize] at hlt ⊢
    omega
  unfold chunk
  split
  · next hgt =>
    rw [gt_iff_lt, BitVec.lt_def, hrest] at hgt
    omega
  · next hgt =>
    rw [gt_iff_lt, BitVec.lt_def, hrest] at hgt
    rw [hrest]
    omega

theorem chunk_pos {len : Word} (va : Word) (hlen : len > 0) : 0 < (chunk va len).toNat := by
  have hlt := Nat.mod_lt va.toNat (show 0 < pgsize by decide)
  rw [gt_iff_lt, BitVec.lt_def, show (0 : Word).toNat = 0 from rfl] at hlen
  rw [chunk_toNat]
  omega

theorem sub_chunk_toNat (va len : Word) :
    (len - chunk va len).toNat = len.toNat - (chunk va len).toNat := by
  have hle : (chunk va len).toNat ≤ len.toNat := by
    rw [chunk_toNat]
    omega
  rw [BitVec.toNat_sub]
  have := len.isLt
  omega

/-- The loop of `copyin` and `copyout`: the bytes of the user from `va` on and those from `buf` on,
moved in the one direction or the other. -/
def copyLoop (toUser : Bool) (pt : ℕ) (m : Phys) (buf : ℕ) (va len : Word) : ℤ × Phys :=
  if len > 0 then
    match m.userLookup pt (pggrounddown va) with
    | none => (-1, m)
    | some pa0 =>
      let n := chunk va len
      let user := pa0 + (va - pggrounddown va).toNat
      let m := if toUser then m.copyBytes user buf n.toNat else m.copyBytes buf user n.toNat
      copyLoop toUser pt m (buf + n.toNat) (pggrounddown va + 4096) (len - n)
  else (0, m)
termination_by len.toNat
decreasing_by
  have hpos := chunk_pos va (by assumption)
  have hlen : 0 < len.toNat := by
    rw [chunk_toNat] at hpos
    omega
  rw [sub_chunk_toNat]
  omega

/-- `copyin(pagetable, dst, srcva, len)` -/
def copyin (m : Phys) (pagetable dst : ℕ) (srcva len : Word) : ℤ × Phys :=
  m.copyLoop false pagetable dst srcva len

/-- `copyout(pagetable, dstva, src, len)` -/
def copyout (m : Phys) (pagetable : ℕ) (dstva : Word) (src : ℕ) (len : Word) : ℤ × Phys :=
  m.copyLoop true pagetable src dstva len

/-- Where the inner loop of `copyinstr` is left: whether it met a NUL, and `dst`, `max` and
memory. -/
structure StrState where
  gotNull : Bool
  dst : ℕ
  max : Word
  phys : Phys

/-- The inner loop of `copyinstr`, for `n` bytes from `p` on. -/
def copyStr (m : Phys) (dst p : ℕ) (max : Word) : ℕ → StrState
  | 0 => ⟨false, dst, max, m⟩
  | n + 1 =>
    if m.byte p = 0 then ⟨true, dst, max, m.setByte dst 0⟩
    else copyStr (m.setByte dst (m.byte p)) (dst + 1) (p + 1) (max - 1) n

theorem copyStr_max (m : Phys) (dst p : ℕ) (max : Word) (n : ℕ)
    (h : ¬ (m.copyStr dst p max n).gotNull = true) :
    (m.copyStr dst p max n).max = max - BitVec.ofNat 64 n := by
  induction n generalizing m dst p max with
  | zero => exact (BitVec.sub_zero max).symm
  | succ n ih =>
      rw [copyStr] at h ⊢
      split at h
      · exact absurd rfl h
      · next hp =>
        rw [if_neg hp, ih _ _ _ _ h, BitVec.sub_sub, BitVec.ofNat_add, BitVec.add_comm]
        rfl

/-- `copyinstr(pagetable, dst, srcva, max)` -/
def copyinstr (pt : ℕ) (m : Phys) (dst : ℕ) (srcva max : Word) : ℤ × Phys :=
  if max > 0 then
    match m.userLookup pt (pggrounddown srcva) with
    | none => (-1, m)
    | some pa0 =>
      let s := m.copyStr dst (pa0 + (srcva - pggrounddown srcva).toNat) max (chunk srcva max).toNat
      if s.gotNull then (0, s.phys)
      else copyinstr pt s.phys s.dst (pggrounddown srcva + 4096) s.max
  else (-1, m)
termination_by max.toNat
decreasing_by
  have hpos := chunk_pos srcva (by assumption)
  have hlen : 0 < max.toNat := by
    rw [chunk_toNat] at hpos
    omega
  rw [copyStr_max _ _ _ _ _ (by assumption), BitVec.ofNat_toNat, BitVec.setWidth_eq,
    sub_chunk_toNat]
  omega

end Phys

variable {m m' : Phys} {pt buf dst src n p : ℕ} {va len max : Word} {b x : ℕ}

/-! ## Moving bytes -/

/-- The page of a byte. -/
def bytePage (b : ℕ) : ℕ := b / pgsize * pgsize

theorem Phys.page_setByte {q : ℕ} (hq : q ≠ bytePage b) (v : BitVec 8) :
    (m.setByte b v).page q = m.page q :=
  Function.update_of_ne hq _ _

/-- The bytes after a copy to a place that is read nowhere. -/
theorem Phys.byte_copyBytes (hapart : ∀ j < n, ∀ k < n, dst + j ≠ src + k) (x : ℕ) :
    (m.copyBytes dst src n).byte x =
      if dst ≤ x ∧ x < dst + n then m.byte (src + (x - dst)) else m.byte x := by
  induction n generalizing x with
  | zero => rw [if_neg (by omega)]; rfl
  | succ n ih =>
      have hprev := ih fun j hj k hk => hapart j (by omega) k (by omega)
      -- the byte that is read in the last turn is as it was
      have hread : (m.copyBytes dst src n).byte (src + n) = m.byte (src + n) := by
        rw [hprev, if_neg]
        rintro ⟨hle, hlt⟩
        exact hapart (src + n - dst) (by omega) n (by omega) (by omega)
      rw [copyBytes, hread]
      by_cases hx : x = dst + n
      · rw [hx, byte_setByte_same, if_pos (by omega), Nat.add_sub_cancel_left]
      · rw [byte_setByte_of_ne hx, hprev]
        by_cases hin : dst ≤ x ∧ x < dst + n
        · rw [if_pos hin, if_pos (by omega)]
        · rw [if_neg hin, if_neg (by omega)]

theorem Phys.page_copyBytes {q : ℕ} (hq : ∀ j < n, q ≠ bytePage (dst + j)) :
    (m.copyBytes dst src n).page q = m.page q := by
  induction n with
  | zero => rfl
  | succ n ih =>
      rw [copyBytes, page_setByte (hq n (by omega)), ih fun j hj => hq j (by omega)]

/-! ## Addresses of the user -/

/-- The byte of memory that a user address is. -/
def Phys.userAddr (m : Phys) (pt : ℕ) (va : Word) : Option ℕ :=
  (m.userLookup pt va).map fun pa => pa + va.toNat % pgsize

/-- The page is one of the tables of the page table at `pt`. -/
def IsTable (m : Phys) (pt q : ℕ) : Prop :=
  ∃ path : List (Fin 512), path.length ≤ 2 ∧ m.tableAt pt path = some q

/-- Memory in which the tables are the same. -/
def SameTables (m m' : Phys) (pt : ℕ) : Prop := ∀ q, IsTable m pt q → m'.page q = m.page q

theorem SameTables.tableAt {path : List (Fin 512)} (h : SameTables m m' pt)
    (hlen : path.length ≤ 3) : m'.tableAt pt path = m.tableAt pt path := by
  induction path with
  | nil => rfl
  | cons k path ih =>
      rw [List.length_cons] at hlen
      rw [Phys.tableAt, Phys.tableAt, ih (by omega)]
      cases htable : m.tableAt pt path with
      | none => rfl
      | some q => rw [Option.bind_some, Option.bind_some, h q ⟨path, by omega, htable⟩]

theorem SameTables.isTable {q : ℕ} (h : SameTables m m' pt) (hq : IsTable m' pt q) :
    IsTable m pt q := by
  obtain ⟨path, hlen, htable⟩ := hq
  exact ⟨path, hlen, (h.tableAt (by omega)).symm.trans htable⟩

theorem SameTables.userLookup (h : SameTables m m' pt) (va : Word) :
    m'.userLookup pt va = m.userLookup pt va := by
  rw [Phys.userLookup, Phys.userLookup, Phys.walkLookup_eq, Phys.walkLookup_eq,
    h.tableAt (by simp)]
  cases htable : m.tableAt pt [vpn va 1, vpn va 2] with
  | none => rfl
  | some table => rw [Option.bind_some, Option.bind_some, h table ⟨_, Nat.le_refl _, htable⟩]

theorem SameTables.userAddr (h : SameTables m m' pt) (va : Word) :
    m'.userAddr pt va = m.userAddr pt va := by
  rw [Phys.userAddr, Phys.userAddr, h.userLookup]

/-- The walk sees nothing of an address but its indices. -/
theorem Phys.userLookup_congr {x y : Word} (h : vpns x = vpns y) (m : Phys) (pt : ℕ) :
    m.userLookup pt x = m.userLookup pt y := by
  obtain ⟨h₀, h₁, h₂⟩ : vpn x 0 = vpn y 0 ∧ vpn x 1 = vpn y 1 ∧ vpn x 2 = vpn y 2 := by
    simpa [vpns] using h
  rw [userLookup, userLookup, walkLookup_eq, walkLookup_eq, h₀, h₁, h₂]

/-- The address `k` bytes further on. -/
def byteOn (va : Word) (k : ℕ) : Word := va + BitVec.ofNat 64 k

theorem byteOn_add (va : Word) (j k : ℕ) : byteOn (byteOn va j) k = byteOn va (j + k) := by
  rw [byteOn, byteOn, byteOn, BitVec.ofNat_add, BitVec.add_assoc]

/-- On one page, consecutive addresses are consecutive bytes of memory. -/
theorem Phys.userAddr_byteOn {k : ℕ} (hk : va.toNat % pgsize + k < pgsize) :
    m.userAddr pt (byteOn va k) =
      (m.userLookup pt (pggrounddown va)).map fun pa => pa + va.toNat % pgsize + k := by
  have hnat : (byteOn va k).toNat = va.toNat + k := by
    have hlt := va.isLt
    simp only [pgsize] at hk
    rw [byteOn, BitVec.toNat_add, BitVec.toNat_ofNat]
    omega
  have hsame : vpns (byteOn va k) = vpns (pggrounddown va) := by
    rw [vpns_eq_iff, hnat, pggrounddown_toNat, Nat.mul_div_cancel _ (by decide)]
    simp only [pgsize] at hk ⊢
    omega
  have hoff : (va.toNat + k) % pgsize = va.toNat % pgsize + k := by
    simp only [pgsize] at hk ⊢
    omega
  rw [userAddr, userLookup_congr hsame, hnat, hoff]
  simp only [Nat.add_assoc]

/-- A turn that does not come to the end of the range comes to the end of the page. -/
theorem byteOn_chunk (h : (Phys.chunk va len).toNat < len.toNat) :
    pggrounddown va + 4096 = byteOn va (Phys.chunk va len).toNat := by
  have hoff := Phys.chunk_toNat va len
  have hlt := Nat.mod_lt va.toNat (show 0 < pgsize by decide)
  have hmod := Nat.div_add_mod va.toNat pgsize
  apply BitVec.eq_of_toNat_eq
  have h4096 : (4096 : Word).toNat = 4096 := rfl
  rw [byteOn, BitVec.toNat_add, BitVec.toNat_add, pggrounddown_toNat, BitVec.toNat_ofNat, h4096]
  simp only [pgsize] at hoff hlt hmod ⊢
  omega

/-! ## `copyin` and `copyout` -/

/-- Where a byte goes that is `user` for the user and `kernel` for the kernel. -/
def dstOf (toUser : Bool) (user kernel : ℕ) : ℕ := if toUser then user else kernel

/-- Where it comes from. -/
def srcOf (toUser : Bool) (user kernel : ℕ) : ℕ := if toUser then kernel else user

theorem dstOf_add (toUser : Bool) (user kernel k : ℕ) :
    dstOf toUser (user + k) (kernel + k) = dstOf toUser user kernel + k := by
  cases toUser <;> rfl

theorem srcOf_add (toUser : Bool) (user kernel k : ℕ) :
    srcOf toUser (user + k) (kernel + k) = srcOf toUser user kernel + k := by
  cases toUser <;> rfl

/-- What a copy writes is no page table, is written once, and is not what it reads. -/
structure CopyApart (toUser : Bool) (m : Phys) (pt buf : ℕ) (va len : Word) : Prop where
  tables : ∀ k b, k < len.toNat → m.userAddr pt (byteOn va k) = some b →
    ¬ IsTable m pt (bytePage (dstOf toUser b (buf + k)))
  once : ∀ j k b c, j < k → k < len.toNat → m.userAddr pt (byteOn va j) = some b →
    m.userAddr pt (byteOn va k) = some c → dstOf toUser b (buf + j) ≠ dstOf toUser c (buf + k)
  apart : ∀ j k b c, j < len.toNat → k < len.toNat → m.userAddr pt (byteOn va j) = some b →
    m.userAddr pt (byteOn va k) = some c → dstOf toUser b (buf + j) ≠ srcOf toUser c (buf + k)

/-- What a copy does. -/
structure BytesCopied (toUser : Bool) (m : Phys) (pt buf : ℕ) (va len : Word) (r : ℤ × Phys) :
    Prop where
  ret : r.1 = 0 ∨ r.1 = -1
  zero_iff : r.1 = 0 ↔ ∀ k < len.toNat, (m.userAddr pt (byteOn va k)).isSome
  moved : r.1 = 0 → ∀ k b, k < len.toNat → m.userAddr pt (byteOn va k) = some b →
    r.2.byte (dstOf toUser b (buf + k)) = m.byte (srcOf toUser b (buf + k))
  others : ∀ x, (∀ k b, k < len.toNat → m.userAddr pt (byteOn va k) = some b →
    x ≠ dstOf toUser b (buf + k)) → r.2.byte x = m.byte x
  pages : ∀ q, (∀ k b, k < len.toNat → m.userAddr pt (byteOn va k) = some b →
    q ≠ bytePage (dstOf toUser b (buf + k))) → r.2.page q = m.page q

section

variable {toUser : Bool}

/-- A turn of the loop that finds its page. -/
theorem Phys.copyLoop_turn {pa : ℕ} (hlen : len > 0)
    (hlook : m.userLookup pt (pggrounddown va) = some pa) :
    m.copyLoop toUser pt buf va len = (m.copyBytes (dstOf toUser (pa + va.toNat % pgsize) buf)
      (srcOf toUser (pa + va.toNat % pgsize) buf) (chunk va len).toNat).copyLoop toUser pt
        (buf + (chunk va len).toNat) (pggrounddown va + 4096) (len - chunk va len) := by
  rw [copyLoop, if_pos hlen, hlook]
  dsimp only
  rw [offset_toNat]
  cases toUser with
  | false => simp only [dstOf, srcOf, Bool.false_eq_true, if_false]
  | true => simp only [dstOf, srcOf, if_true]

/-- What is left to do after a turn is as far apart as before. -/
theorem CopyApart.rest (h : CopyApart toUser m pt buf va len) (hsame : SameTables m m' pt) :
    CopyApart toUser m' pt (buf + (Phys.chunk va len).toNat) (pggrounddown va + 4096)
      (len - Phys.chunk va len) := by
  have hlen := Phys.sub_chunk_toNat va len
  -- byte `k` of the rest is byte `chunk + k` of the range
  have haddr : ∀ k b, k < (len - Phys.chunk va len).toNat →
      m'.userAddr pt (byteOn (pggrounddown va + 4096) k) = some b →
      (Phys.chunk va len).toNat + k < len.toNat ∧
        m.userAddr pt (byteOn va ((Phys.chunk va len).toNat + k)) = some b := by
    intro k b hk hb
    rw [hlen] at hk
    have hmore : (Phys.chunk va len).toNat < len.toNat := by omega
    rw [hsame.userAddr, byteOn_chunk hmore, byteOn_add] at hb
    exact ⟨by omega, hb⟩
  refine ⟨fun k b hk hb htable => ?_, fun j k b c hjk hk hb hc => ?_, fun j k b c hj hk hb hc => ?_⟩
  · obtain ⟨hk', hb'⟩ := haddr k b hk hb
    rw [Nat.add_assoc] at htable
    exact h.tables _ b hk' hb' (hsame.isTable htable)
  · obtain ⟨hk', hc'⟩ := haddr k c hk hc
    obtain ⟨hj', hb'⟩ := haddr j b (by omega) hb
    rw [Nat.add_assoc, Nat.add_assoc]
    exact h.once _ _ b c (by omega) hk' hb' hc'
  · obtain ⟨hk', hc'⟩ := haddr k c hk hc
    obtain ⟨hj', hb'⟩ := haddr j b hj hb
    rw [Nat.add_assoc, Nat.add_assoc]
    exact h.apart _ _ b c hj' hk' hb' hc'

/-- The copies, byte by byte. -/
theorem CopyApart.copied (h : CopyApart toUser m pt buf va len) :
    BytesCopied toUser m pt buf va len (m.copyLoop toUser pt buf va len) := by
  induction hN : len.toNat using Nat.strong_induction_on generalizing m buf va len with
  | _ N ih =>
  subst hN
  by_cases hlen : len > 0
  swap
  · have hzero : len.toNat = 0 := by
      rw [gt_iff_lt, BitVec.lt_def, show (0 : Word).toNat = 0 from rfl] at hlen
      omega
    rw [Phys.copyLoop, if_neg hlen]
    exact ⟨.inl rfl, ⟨fun _ k hk => by omega, fun _ => rfl⟩, fun _ k b hk => by omega,
      fun _ _ => rfl, fun _ _ => rfl⟩
  have hpos := Phys.chunk_pos va hlen
  have hchunk := Phys.chunk_toNat va len
  cases hlook : m.userLookup pt (pggrounddown va) with
  | none =>
      -- the first byte is on a page that is not the user's
      have hfirst : m.userAddr pt (byteOn va 0) = none := by
        rw [Phys.userAddr_byteOn (by have := Nat.mod_lt va.toNat (show 0 < pgsize by decide); omega),
          hlook, Option.map_none]
      rw [Phys.copyLoop, if_pos hlen, hlook]
      dsimp only
      have hneg : (-1 : ℤ) ≠ 0 := by decide
      refine ⟨.inr rfl, ⟨fun hc => absurd hc hneg, fun hall => ?_⟩,
        fun hc => absurd hc hneg, fun _ _ => rfl, fun _ _ => rfl⟩
      have hsome := hall 0 (by omega)
      rw [hfirst] at hsome
      cases hsome
  | some pa =>
      rw [Phys.copyLoop_turn hlen hlook]
      generalize huser : pa + va.toNat % pgsize = user
      generalize hn : (Phys.chunk va len).toNat = n at hpos hchunk ⊢
      have hrestlen : (len - Phys.chunk va len).toNat = len.toNat - n := by
        rw [Phys.sub_chunk_toNat, hn]
      have hnow : ∀ k < n, m.userAddr pt (byteOn va k) = some (user + k) := by
        intro k hk
        rw [Phys.userAddr_byteOn (by omega), hlook, Option.map_some, huser]
      have hdst : ∀ k, dstOf toUser (user + k) (buf + k) = dstOf toUser user buf + k :=
        dstOf_add toUser user buf
      have hsrc : ∀ k, srcOf toUser (user + k) (buf + k) = srcOf toUser user buf + k :=
        srcOf_add toUser user buf
      -- the bytes of this turn
      have hapart : ∀ j < n, ∀ k < n, dstOf toUser user buf + j ≠ srcOf toUser user buf + k := by
        intro j hj k hk
        rw [← hdst, ← hsrc]
        exact h.apart j k _ _ (by omega) (by omega) (hnow j hj) (hnow k hk)
      generalize hm₁ : m.copyBytes (dstOf toUser user buf) (srcOf toUser user buf) n = m₁
      have hbyte : ∀ x, m₁.byte x = if dstOf toUser user buf ≤ x ∧ x < dstOf toUser user buf + n then
          m.byte (srcOf toUser user buf + (x - dstOf toUser user buf)) else m.byte x := by
        intro x
        rw [← hm₁, Phys.byte_copyBytes hapart]
      have hpage : ∀ q, (∀ j < n, q ≠ bytePage (dstOf toUser user buf + j)) → m₁.page q = m.page q := by
        intro q hq
        rw [← hm₁, Phys.page_copyBytes hq]
      have hsame : SameTables m m₁ pt := by
        intro q hq
        refine hpage q fun j hj hc => ?_
        refine h.tables j _ (by omega) (hnow j hj) ?_
        rw [hdst, ← hc]
        exact hq
      -- the bytes of the rest
      have hrest := h.rest hsame
      rw [hn] at hrest
      obtain ⟨hret, hzero, hmoved, hothers, hpages⟩ := ih (len.toNat - n) (by omega) hrest hrestlen
      rw [hrestlen] at hzero hmoved hothers hpages
      have haddr : ∀ k, k < len.toNat - n →
          m₁.userAddr pt (byteOn (pggrounddown va + 4096) k) = m.userAddr pt (byteOn va (n + k)) := by
        intro k hk
        have hmore : (Phys.chunk va len).toNat < len.toNat := by omega
        rw [hsame.userAddr, byteOn_chunk hmore, byteOn_add, hn]
      -- a byte that the rest does not write
      have hkeep : ∀ x, (∀ k b, n ≤ k → k < len.toNat → m.userAddr pt (byteOn va k) = some b →
          x ≠ dstOf toUser b (buf + k)) → ∀ k b, k < len.toNat - n →
          m₁.userAddr pt (byteOn (pggrounddown va + 4096) k) = some b →
            x ≠ dstOf toUser b (buf + n + k) := by
        intro x hx k b hk hb
        rw [haddr k hk] at hb
        rw [Nat.add_assoc]
        exact hx (n + k) b (by omega) (by omega) hb
      refine ⟨hret, ⟨fun hz k hk => ?_, fun hall => hzero.mpr fun k hk => ?_⟩, fun hz k b hk hb => ?_,
        fun x hx => ?_, fun q hq => ?_⟩
      · by_cases hkn : k < n
        · rw [hnow k hkn]
          rfl
        · have hk' := hzero.mp hz (k - n) (by omega)
          rwa [haddr _ (by omega), Nat.add_sub_cancel' (by omega)] at hk'
      · rw [haddr k hk]
        exact hall (n + k) (by omega)
      · by_cases hkn : k < n
        · obtain rfl := Option.some.inj ((hnow k hkn).symm.trans hb)
          rw [hothers _ (hkeep _ fun j c hj hjlen hc => h.once k j _ c (by omega) hjlen hb hc), hdst,
            hbyte, if_pos ⟨by omega, by omega⟩, Nat.add_sub_cancel_left, hsrc]
        · have hb' : m₁.userAddr pt (byteOn (pggrounddown va + 4096) (k - n)) = some b := by
            rw [haddr _ (by omega), Nat.add_sub_cancel' (by omega), hb]
          have hmove := hmoved hz (k - n) b (by omega) hb'
          rw [Nat.add_assoc, Nat.add_sub_cancel' (by omega)] at hmove
          -- what the rest reads, this turn has not written
          rw [hmove, hbyte, if_neg]
          rintro ⟨hle, hlt⟩
          refine h.apart (srcOf toUser b (buf + k) - dstOf toUser user buf) k _ b (by omega) hk
            (hnow _ (by omega)) hb ?_
          rw [hdst]
          omega
      · rw [hothers x (hkeep x fun k b _ hk hb => hx k b hk hb), hbyte, if_neg]
        rintro ⟨hle, hlt⟩
        refine hx (x - dstOf toUser user buf) _ (by omega) (hnow _ (by omega)) ?_
        rw [hdst]
        omega
      · rw [hpages q, hpage q]
        · intro j hj
          rw [← hdst]
          exact hq j _ (by omega) (hnow j hj)
        · intro k b hk hb
          rw [haddr k hk] at hb
          rw [Nat.add_assoc]
          exact hq (n + k) b (by omega) hb

end

/-! ## `copyinstr` -/

/-- The first byte is copied before the others. -/
theorem Phys.copyBytes_succ (m : Phys) (dst src n : ℕ) :
    m.copyBytes dst src (n + 1) =
      (m.setByte dst (m.byte src)).copyBytes (dst + 1) (src + 1) n := by
  induction n with
  | zero => rfl
  | succ n ih =>
      rw [copyBytes, ih, copyBytes, Nat.add_assoc, Nat.add_assoc, Nat.add_comm 1 n]

/-- The inner loop without a NUL. -/
theorem Phys.copyStr_of_ne (hapart : ∀ j < n, ∀ k < n, dst + j ≠ src + k)
    (hne : ∀ j < n, m.byte (src + j) ≠ 0) :
    m.copyStr dst src max n =
      ⟨false, dst + n, max - BitVec.ofNat 64 n, m.copyBytes dst src n⟩ := by
  induction n generalizing m dst src max with
  | zero => rw [copyStr, Nat.add_zero, BitVec.sub_zero]; rfl
  | succ n ih =>
      have hfirst := hne 0 (by omega)
      rw [Nat.add_zero] at hfirst
      have hread : ∀ j < n, (m.setByte dst (m.byte src)).byte (src + 1 + j) ≠ 0 := by
        intro j hj
        rw [byte_setByte_of_ne, Nat.add_assoc]
        · exact hne (1 + j) (by omega)
        · have := hapart 0 (by omega) (1 + j) (by omega)
          omega
      rw [copyStr, if_neg hfirst, ih (fun j hj k hk => ?_) hread, copyBytes_succ, BitVec.sub_sub,
        BitVec.ofNat_add, BitVec.add_comm, Nat.add_assoc, Nat.add_comm 1 n]
      · rfl
      · have := hapart (1 + j) (by omega) (1 + k) (by omega)
        omega

/-- The inner loop up to a NUL. -/
theorem Phys.copyStr_of_nul {i : ℕ} (hapart : ∀ j < n, ∀ k < n, dst + j ≠ src + k) (hi : i < n)
    (hnul : m.byte (src + i) = 0) (hne : ∀ j < i, m.byte (src + j) ≠ 0) :
    (m.copyStr dst src max n).gotNull = true ∧
      (m.copyStr dst src max n).phys = m.copyBytes dst src (i + 1) := by
  induction i generalizing m dst src max n with
  | zero =>
      obtain ⟨n, rfl⟩ := Nat.exists_eq_add_of_le' hi
      rw [Nat.add_zero] at hnul
      rw [copyStr, if_pos hnul, copyBytes, copyBytes, Nat.add_zero, Nat.add_zero, hnul]
      exact ⟨rfl, rfl⟩
  | succ i ih =>
      obtain ⟨n, rfl⟩ := Nat.exists_eq_add_of_le' (show 1 ≤ n by omega)
      have hfirst := hne 0 (by omega)
      rw [Nat.add_zero] at hfirst
      have hread : ∀ j < n, (m.setByte dst (m.byte src)).byte (src + 1 + j) =
          m.byte (src + (1 + j)) := by
        intro j hj
        rw [byte_setByte_of_ne, Nat.add_assoc]
        have := hapart 0 (by omega) (1 + j) (by omega)
        omega
      rw [copyStr, if_neg hfirst, copyBytes_succ]
      refine ih (fun j hj k hk => ?_) (by omega) ?_ fun j hj => ?_
      · have := hapart (1 + j) (by omega) (1 + k) (by omega)
        omega
      · rw [hread i (by omega), Nat.add_comm 1 i]
        exact hnul
      · rw [hread j (by omega)]
        exact hne (1 + j) (by omega)

/-- Byte `k` of the string at `va` is its NUL, and can be read. -/
def FirstNul (m : Phys) (pt : ℕ) (va : Word) (k : ℕ) : Prop :=
  (∃ b, m.userAddr pt (byteOn va k) = some b ∧ m.byte b = 0) ∧
    ∀ j < k, ∃ b, m.userAddr pt (byteOn va j) = some b ∧ m.byte b ≠ 0

/-- What `copyinstr` does. -/
structure StrCopied (m : Phys) (pt dst : ℕ) (srcva max : Word) (r : ℤ × Phys) : Prop where
  ret : r.1 = 0 ∨ r.1 = -1
  zero_iff : r.1 = 0 ↔ ∃ k < max.toNat, FirstNul m pt srcva k
  moved : ∀ k < max.toNat, FirstNul m pt srcva k → ∀ j b, j ≤ k →
    m.userAddr pt (byteOn srcva j) = some b → r.2.byte (dst + j) = m.byte b
  beyond : ∀ k < max.toNat, FirstNul m pt srcva k → ∀ x, ¬ (dst ≤ x ∧ x ≤ dst + k) →
    r.2.byte x = m.byte x
  others : ∀ x, ¬ (dst ≤ x ∧ x < dst + max.toNat) → r.2.byte x = m.byte x

/-- A string has one first NUL. -/
theorem FirstNul.unique {j k : ℕ} (hj : FirstNul m pt va j) (hk : FirstNul m pt va k) : j = k := by
  obtain ⟨⟨b, hb, hzero⟩, hbefore⟩ := hj
  obtain ⟨⟨c, hc, hzero'⟩, hbefore'⟩ := hk
  rcases Nat.lt_trichotomy j k with hlt | heq | hgt
  · obtain ⟨d, hd, hne⟩ := hbefore' j hlt
    obtain rfl := Option.some.inj (hb.symm.trans hd)
    exact absurd hzero hne
  · exact heq
  · obtain ⟨d, hd, hne⟩ := hbefore k hgt
    obtain rfl := Option.some.inj (hc.symm.trans hd)
    exact absurd hzero' hne

/-- The bytes of a string up to its NUL can be read. -/
theorem FirstNul.isSome {j k : ℕ} (h : FirstNul m pt va k) (hj : j ≤ k) :
    (m.userAddr pt (byteOn va j)).isSome := by
  rcases Nat.lt_or_eq_of_le hj with hlt | rfl
  · obtain ⟨b, hb, -⟩ := h.2 j hlt
    rw [hb]
    rfl
  · obtain ⟨b, hb, -⟩ := h.1
    rw [hb]
    rfl

/-- `copyinstr`, byte by byte. -/
theorem CopyApart.strCopied (h : CopyApart false m pt dst va max) :
    StrCopied m pt dst va max (m.copyinstr pt dst va max) := by
  induction hN : max.toNat using Nat.strong_induction_on generalizing m dst va max with
  | _ N ih =>
  subst hN
  have hneg : (-1 : ℤ) ≠ 0 := by decide
  by_cases hmax : max > 0
  swap
  · have hzero : max.toNat = 0 := by
      rw [gt_iff_lt, BitVec.lt_def, show (0 : Word).toNat = 0 from rfl] at hmax
      omega
    rw [Phys.copyinstr, if_neg hmax]
    refine ⟨.inr rfl, ⟨fun hc => absurd hc hneg, fun hex => ?_⟩, fun k hk => by omega,
      fun k hk => by omega, fun _ _ => rfl⟩
    obtain ⟨k, hk, -⟩ := hex
    omega
  have hpos := Phys.chunk_pos va hmax
  have hchunk := Phys.chunk_toNat va max
  cases hlook : m.userLookup pt (pggrounddown va) with
  | none =>
      have hfirst : m.userAddr pt (byteOn va 0) = none := by
        rw [Phys.userAddr_byteOn (by have := Nat.mod_lt va.toNat (show 0 < pgsize by decide); omega),
          hlook, Option.map_none]
      have hno : ∀ k, ¬ FirstNul m pt va k := by
        intro k hk
        have hsome := hk.isSome (Nat.zero_le k)
        rw [hfirst] at hsome
        cases hsome
      rw [Phys.copyinstr, if_pos hmax, hlook]
      refine ⟨.inr rfl, ⟨fun hc => absurd hc hneg, fun hex => ?_⟩,
        fun k _ hk => absurd hk (hno k), fun k _ hk => absurd hk (hno k), fun _ _ => rfl⟩
      obtain ⟨k, -, hk⟩ := hex
      exact absurd hk (hno k)
  | some pa =>
      generalize huser : pa + va.toNat % pgsize = user
      generalize hn : (Phys.chunk va max).toNat = n at hpos hchunk
      have hturn : m.copyinstr pt dst va max = if (m.copyStr dst user max n).gotNull then
          (0, (m.copyStr dst user max n).phys)
        else (m.copyStr dst user max n).phys.copyinstr pt (m.copyStr dst user max n).dst
          (pggrounddown va + 4096) (m.copyStr dst user max n).max := by
        rw [Phys.copyinstr, if_pos hmax, hlook]
        dsimp only
        rw [Phys.offset_toNat, huser, hn]
      have hnow : ∀ k < n, m.userAddr pt (byteOn va k) = some (user + k) := by
        intro k hk
        rw [Phys.userAddr_byteOn (by omega), hlook, Option.map_some, huser]
      have hapart : ∀ j < n, ∀ k < n, dst + j ≠ user + k := fun j hj k hk =>
        h.apart j k _ _ (by omega) (by omega) (hnow j hj) (hnow k hk)
      by_cases hnul : ∃ i, i < n ∧ m.byte (user + i) = 0
      · -- the first NUL on this page
        obtain ⟨hi, hzero⟩ := Nat.find_spec hnul
        generalize hfind : Nat.find hnul = i at hi hzero
        have hne : ∀ j < i, m.byte (user + j) ≠ 0 := fun j hj hc =>
          Nat.find_min hnul (hfind ▸ hj) ⟨by omega, hc⟩
        have hfirst : FirstNul m pt va i :=
          ⟨⟨_, hnow i hi, hzero⟩, fun j hj => ⟨_, hnow j (by omega), hne j hj⟩⟩
        obtain ⟨hgot, hphys⟩ : (m.copyStr dst user max n).gotNull = true ∧
            (m.copyStr dst user max n).phys = m.copyBytes dst user (i + 1) :=
          Phys.copyStr_of_nul hapart hi hzero hne
        have hbyte : ∀ x, (m.copyBytes dst user (i + 1)).byte x =
            if dst ≤ x ∧ x < dst + (i + 1) then m.byte (user + (x - dst)) else m.byte x :=
          Phys.byte_copyBytes fun j hj k hk => hapart j (by omega) k (by omega)
        rw [hturn, if_pos hgot, hphys]
        refine ⟨.inl rfl, ⟨fun _ => ⟨i, by omega, hfirst⟩, fun _ => rfl⟩, fun k _ hk j b hj hb => ?_,
          fun k _ hk x hx => ?_, fun x hx => ?_⟩
        · obtain rfl := hk.unique hfirst
          obtain rfl := Option.some.inj ((hnow j (by omega)).symm.trans hb)
          rw [hbyte, if_pos ⟨by omega, by omega⟩, Nat.add_sub_cancel_left]
        · obtain rfl := hk.unique hfirst
          rw [hbyte, if_neg (by omega)]
        · rw [hbyte, if_neg (by omega)]
      · -- no NUL on this page
        have hne : ∀ j < n, m.byte (user + j) ≠ 0 := fun j hj hc => hnul ⟨j, hj, hc⟩
        have hstr : m.copyStr dst user max n =
            ⟨false, dst + n, max - BitVec.ofNat 64 n, m.copyBytes dst user n⟩ :=
          Phys.copyStr_of_ne hapart hne
        have hleft : max - BitVec.ofNat 64 n = max - Phys.chunk va max := by
          rw [← hn, BitVec.ofNat_toNat, BitVec.setWidth_eq]
        have hrestlen : (max - Phys.chunk va max).toNat = max.toNat - n := by
          rw [Phys.sub_chunk_toNat, hn]
        rw [hturn, hstr]
        dsimp only
        rw [if_neg Bool.false_ne_true, hleft]
        generalize hm₁ : m.copyBytes dst user n = m₁
        have hbyte : ∀ x, m₁.byte x =
            if dst ≤ x ∧ x < dst + n then m.byte (user + (x - dst)) else m.byte x := by
          intro x
          rw [← hm₁, Phys.byte_copyBytes hapart]
        have hsame : SameTables m m₁ pt := by
          intro q hq
          rw [← hm₁, Phys.page_copyBytes fun j hj hc => ?_]
          refine h.tables j _ (by omega) (hnow j hj) ?_
          rw [show dstOf false (user + j) (dst + j) = dst + j from rfl, ← hc]
          exact hq
        have hrest := h.rest hsame
        rw [hn] at hrest
        obtain ⟨hret, hzero, hmoved, hbeyond, hothers⟩ :=
          ih (max.toNat - n) (by omega) hrest hrestlen
        rw [hrestlen] at hzero hmoved hbeyond hothers
        have haddr : ∀ k, k < max.toNat - n → m₁.userAddr pt (byteOn (pggrounddown va + 4096) k) =
            m.userAddr pt (byteOn va (n + k)) := by
          intro k hk
          have hmore : (Phys.chunk va max).toNat < max.toNat := by omega
          rw [hsame.userAddr, byteOn_chunk hmore, byteOn_add, hn]
        -- what is still to be read has not been written
        have hread : ∀ k b, k < max.toNat → m.userAddr pt (byteOn va k) = some b →
            m₁.byte b = m.byte b := by
          intro k b hk hb
          rw [hbyte, if_neg]
          rintro ⟨hle, hlt⟩
          refine h.apart (b - dst) k _ b (by omega) hk (hnow _ (by omega)) hb ?_
          show dst + (b - dst) = b
          omega
        have hstring : ∀ k, k < max.toNat - n →
            (FirstNul m₁ pt (pggrounddown va + 4096) k ↔ FirstNul m pt va (n + k)) := by
          intro k hk
          constructor
          · rintro ⟨⟨b, hb, hzero⟩, hbefore⟩
            rw [haddr k hk] at hb
            refine ⟨⟨b, hb, by rwa [hread _ b (by omega) hb] at hzero⟩, fun j hj => ?_⟩
            by_cases hjn : j < n
            · exact ⟨_, hnow j hjn, hne j hjn⟩
            · obtain ⟨c, hc, hc'⟩ := hbefore (j - n) (by omega)
              rw [haddr _ (by omega), Nat.add_sub_cancel' (by omega)] at hc
              exact ⟨c, hc, by rwa [hread j c (by omega) hc] at hc'⟩
          · rintro ⟨⟨b, hb, hzero⟩, hbefore⟩
            refine ⟨⟨b, by rw [haddr k hk, hb], by rw [hread _ b (by omega) hb, hzero]⟩,
              fun j hj => ?_⟩
            obtain ⟨c, hc, hc'⟩ := hbefore (n + j) (by omega)
            exact ⟨c, by rw [haddr j (by omega), hc], by rwa [hread _ c (by omega) hc]⟩
        have hlate : ∀ k, FirstNul m pt va k → n ≤ k := by
          intro k hk
          by_contra hlt
          obtain ⟨b, hb, hzero⟩ := hk.1
          obtain rfl := Option.some.inj ((hnow k (by omega)).symm.trans hb)
          exact hne k (by omega) hzero
        have hlater : ∀ k < max.toNat, FirstNul m pt va k →
            FirstNul m₁ pt (pggrounddown va + 4096) (k - n) := by
          intro k hk hnulk
          have hle := hlate k hnulk
          rw [hstring _ (by omega), Nat.add_sub_cancel' hle]
          exact hnulk
        refine ⟨hret, ⟨fun hz => ?_, fun hex => ?_⟩, fun k hk hnulk j b hj hb => ?_,
          fun k hk hnulk x hx => ?_, fun x hx => ?_⟩
        · obtain ⟨k, hk, hnulk⟩ := hzero.mp hz
          exact ⟨n + k, by omega, (hstring k hk).mp hnulk⟩
        · obtain ⟨k, hk, hnulk⟩ := hex
          have hle := hlate k hnulk
          exact hzero.mpr ⟨k - n, by omega, hlater k hk hnulk⟩
        · have hle := hlate k hnulk
          by_cases hjn : j < n
          · obtain rfl := Option.some.inj ((hnow j hjn).symm.trans hb)
            rw [hbeyond (k - n) (by omega) (hlater k hk hnulk) _ (by omega), hbyte,
              if_pos ⟨by omega, by omega⟩, Nat.add_sub_cancel_left]
          · have hmove := hmoved (k - n) (by omega) (hlater k hk hnulk) (j - n) b (by omega) (by
              rw [haddr _ (by omega), Nat.add_sub_cancel' (by omega), hb])
            rw [Nat.add_assoc, Nat.add_sub_cancel' (by omega)] at hmove
            rw [hmove, hread j b (by omega) hb]
        · have hle := hlate k hnulk
          have hk' : k - n < max.toNat - n := Nat.sub_lt_sub_right hle hk
          rw [hbeyond (k - n) hk' (hlater k hk hnulk) x (by omega), hbyte, if_neg (by omega)]
        · rw [hothers x (by omega), hbyte, if_neg (by omega)]

/-! ## What the copies do, in the terms of page tables -/

/-- `walk_lookup` finds an entry for the address, and it has `PTE_V` and `PTE_U`. -/
def UserMapped (m : Phys) (pt : ℕ) (va : Word) : Prop :=
  ∃ table, m.walkLookup pt va = some table ∧ ¬ (table = 0 ∧ vpn va 0 = 0) ∧
    m.page table (vpn va 0) &&& pteV ≠ 0 ∧ m.page table (vpn va 0) &&& pteU ≠ 0

theorem userMapped_iff : UserMapped m pt va ↔ (m.userAddr pt va).isSome := by
  rw [UserMapped, Phys.userAddr, Option.isSome_map, Phys.userLookup]
  cases m.walkLookup pt va with
  | none => simp
  | some table =>
      rw [Option.bind_some]
      constructor
      · rintro ⟨table', htable, hnull, hv, hu⟩
        obtain rfl := Option.some.inj htable
        rw [if_neg hnull, if_neg (not_or.mpr ⟨hv, hu⟩)]
        rfl
      · intro hsome
        by_cases hnull : table = 0 ∧ vpn va 0 = 0
        · rw [if_pos hnull] at hsome
          cases hsome
        · rw [if_neg hnull] at hsome
          by_cases hflags : m.page table (vpn va 0) &&& pteV = 0 ∨ m.page table (vpn va 0) &&& pteU = 0
          · rw [if_pos hflags] at hsome
            cases hsome
          · exact ⟨table, rfl, hnull, not_or.mp hflags⟩

/-- The pages of the user in the range do not overlap the buffer. -/
def BufferApart (m : Phys) (pt buf : ℕ) (va len : Word) : Prop :=
  ∀ j k b, j < len.toNat → k < len.toNat → m.userAddr pt (byteOn va k) = some b → b ≠ buf + j

/-- The buffer holds no page table. -/
def BufferNoTable (m : Phys) (pt buf : ℕ) (len : Word) : Prop :=
  ∀ j < len.toNat, ¬ IsTable m pt (bytePage (buf + j))

/-- The pages of the user in the range are different pages of memory, and hold no page table. -/
structure UserPages (m : Phys) (pt : ℕ) (va len : Word) : Prop where
  distinct : ∀ j k b c, j < len.toNat → k < len.toNat → m.userAddr pt (byteOn va j) = some b →
    m.userAddr pt (byteOn va k) = some c → bytePage b = bytePage c →
      (byteOn va j).toNat / pgsize = (byteOn va k).toNat / pgsize
  noTable : ∀ k b, k < len.toNat → m.userAddr pt (byteOn va k) = some b →
    ¬ IsTable m pt (bytePage b)

theorem ptePa_dvd (w : Word) : pgsize ∣ ptePa w := by
  rw [ptePa, BitVec.toNat_shiftLeft, Nat.shiftLeft_eq]
  have h12 : (2 : ℕ) ^ 64 = 2 ^ 12 * 2 ^ 52 := by norm_num
  rw [h12, Nat.mul_comm _ (2 ^ 12), Nat.mul_mod_mul_left]
  exact Nat.dvd_mul_right _ _

/-- The offset in the page is kept. -/
theorem userAddr_mod (h : m.userAddr pt va = some b) : b % pgsize = va.toNat % pgsize := by
  obtain ⟨pa, hpa, rfl⟩ := Option.map_eq_some_iff.mp h
  obtain ⟨table, -, hentry⟩ := Option.bind_eq_some_iff.mp hpa
  have hdvd : pgsize ∣ pa := by
    split at hentry
    · cases hentry
    split at hentry
    · cases hentry
    · exact Option.some.inj hentry ▸ ptePa_dvd _
  obtain ⟨q, rfl⟩ := hdvd
  rw [Nat.mul_add_mod, Nat.mod_mod]

theorem byteOn_inj {j k : ℕ} (hj : j < len.toNat) (hk : k < len.toNat)
    (h : byteOn va j = byteOn va k) : j = k := by
  have hlen := len.isLt
  have hva := va.isLt
  have heq := congrArg BitVec.toNat h
  rw [byteOn, byteOn, BitVec.toNat_add, BitVec.toNat_add, BitVec.toNat_ofNat, BitVec.toNat_ofNat] at heq
  omega

/-- No two bytes of the range are one byte of memory. -/
theorem UserPages.inj {j k : ℕ} (h : UserPages m pt va len) (hj : j < len.toNat)
    (hk : k < len.toNat) (hb : m.userAddr pt (byteOn va j) = some b)
    (hc : m.userAddr pt (byteOn va k) = some b) : j = k := by
  have hpage := h.distinct j k b b hj hk hb hc rfl
  have hmod : (byteOn va j).toNat % pgsize = (byteOn va k).toNat % pgsize := by
    rw [← userAddr_mod hb, ← userAddr_mod hc]
  have hnat : (byteOn va j).toNat = (byteOn va k).toNat := by
    rw [← Nat.div_add_mod (byteOn va j).toNat pgsize, hpage, hmod, Nat.div_add_mod]
  exact byteOn_inj hj hk (BitVec.eq_of_toNat_eq hnat)

theorem CopyApart.ofUser (htable : BufferNoTable m pt buf len) (hapart : BufferApart m pt buf va len) :
    CopyApart false m pt buf va len where
  tables k b hk _ := htable k hk
  once j k b c hjk hk _ _ := by
    show buf + j ≠ buf + k
    omega
  apart j k b c hj hk _ hc := (hapart j k c hj hk hc).symm

theorem CopyApart.toUser (hpages : UserPages m pt va len) (hapart : BufferApart m pt buf va len) :
    CopyApart true m pt buf va len where
  tables k b hk hb := hpages.noTable k b hk hb
  once j k b c hjk hk hb hc heq := by
    obtain rfl : b = c := heq
    have := hpages.inj (by omega) hk hb hc
    omega
  apart j k b c hj hk hb _ := hapart k j b hk hj hb

/-- A copy to the user leaves the tables alone. -/
theorem UserPages.sameTables (hpages : UserPages m pt va len)
    (hapart : BufferApart m pt buf va len) :
    SameTables m (m.copyout pt va buf len).2 pt := by
  intro q hq
  refine (CopyApart.toUser hpages hapart).copied.pages q fun k b hk hb hc => ?_
  exact hpages.noTable k b hk hb (hc ▸ hq)

/-- `copyin` fetches the bytes of the range if all of its pages are the user's, and `copyout` stores
them there; what is stored is fetched again.  `copyinstr` fetches a string with its NUL, if it is
to be found in `max` bytes. -/
theorem userCopies_exact (m : Phys) (pt : ℕ) (va len : Word) :
    (∀ dst, BufferNoTable m pt dst len → BufferApart m pt dst va len →
      ((m.copyin pt dst va len).1 = 0 ↔ ∀ k < len.toNat, UserMapped m pt (byteOn va k)) ∧
      ((m.copyin pt dst va len).1 = 0 ∨ (m.copyin pt dst va len).1 = -1) ∧
      ((m.copyin pt dst va len).1 = 0 →
        (∀ k b, k < len.toNat → m.userAddr pt (byteOn va k) = some b →
          (m.copyin pt dst va len).2.byte (dst + k) = m.byte b) ∧
        ∀ x, ¬ (dst ≤ x ∧ x < dst + len.toNat) →
          (m.copyin pt dst va len).2.byte x = m.byte x)) ∧
    (∀ src, UserPages m pt va len → BufferApart m pt src va len →
      ((m.copyout pt va src len).1 = 0 ↔ ∀ k < len.toNat, UserMapped m pt (byteOn va k)) ∧
      ((m.copyout pt va src len).1 = 0 ∨ (m.copyout pt va src len).1 = -1) ∧
      ((m.copyout pt va src len).1 = 0 →
        (∀ k b, k < len.toNat → m.userAddr pt (byteOn va k) = some b →
          (m.copyout pt va src len).2.byte b = m.byte (src + k)) ∧
        (∀ x, (∀ k < len.toNat, m.userAddr pt (byteOn va k) ≠ some x) →
          (m.copyout pt va src len).2.byte x = m.byte x) ∧
        ∀ dst, BufferNoTable m pt dst len → BufferApart m pt dst va len →
          ((m.copyout pt va src len).2.copyin pt dst va len).1 = 0 ∧
          ∀ k < len.toNat, ((m.copyout pt va src len).2.copyin pt dst va len).2.byte (dst + k) =
            m.byte (src + k))) ∧
    (∀ dst, BufferNoTable m pt dst len → BufferApart m pt dst va len →
      ((m.copyinstr pt dst va len).1 = 0 ↔ ∃ k < len.toNat, FirstNul m pt va k) ∧
      ((m.copyinstr pt dst va len).1 = 0 ∨ (m.copyinstr pt dst va len).1 = -1) ∧
      (∀ k < len.toNat, FirstNul m pt va k →
        (∀ j b, j ≤ k → m.userAddr pt (byteOn va j) = some b →
          (m.copyinstr pt dst va len).2.byte (dst + j) = m.byte b) ∧
        ∀ x, ¬ (dst ≤ x ∧ x ≤ dst + k) → (m.copyinstr pt dst va len).2.byte x = m.byte x) ∧
      ∀ x, ¬ (dst ≤ x ∧ x < dst + len.toNat) →
        (m.copyinstr pt dst va len).2.byte x = m.byte x) := by
  refine ⟨fun dst htable hapart => ?_, fun src hpages hapart => ?_, fun dst htable hapart => ?_⟩
  · obtain ⟨hret, hzero, hmoved, hothers, -⟩ := (CopyApart.ofUser htable hapart).copied
    refine ⟨?_, hret, fun hz => ⟨fun k b hk hb => hmoved hz k b hk hb, fun x hx => ?_⟩⟩
    · simp only [userMapped_iff]
      exact hzero
    · refine hothers x fun k b hk _ hc => hx ?_
      obtain rfl : x = dst + k := hc
      exact ⟨by omega, by omega⟩
  · obtain ⟨hret, hzero, hmoved, hothers, -⟩ := (CopyApart.toUser hpages hapart).copied
    have hsame := hpages.sameTables hapart
    refine ⟨?_, hret, fun hz => ⟨fun k b hk hb => hmoved hz k b hk hb, fun x hx => ?_,
      fun dst htable hapart' => ?_⟩⟩
    · simp only [userMapped_iff]
      exact hzero
    · refine hothers x fun k b hk hb hc => hx k hk ?_
      obtain rfl : x = b := hc
      exact hb
    · -- the range is found again in the same tables
      have hall := hzero.mp hz
      have htable' : BufferNoTable (m.copyout pt va src len).2 pt dst len := fun j hj hc =>
        htable j hj (hsame.isTable hc)
      have hapart'' : BufferApart (m.copyout pt va src len).2 pt dst va len := fun j k b hj hk hb =>
        hapart' j k b hj hk (by rwa [hsame.userAddr] at hb)
      obtain ⟨-, hzero', hmoved', -, -⟩ := (CopyApart.ofUser htable' hapart'').copied
      have hz' : ((m.copyout pt va src len).2.copyin pt dst va len).1 = 0 := by
        refine hzero'.mpr fun k hk => ?_
        rw [hsame.userAddr]
        exact hall k hk
      refine ⟨hz', fun k hk => ?_⟩
      obtain ⟨b, hb⟩ := Option.isSome_iff_exists.mp (hall k hk)
      calc ((m.copyout pt va src len).2.copyin pt dst va len).2.byte (dst + k)
          = (m.copyout pt va src len).2.byte b :=
            hmoved' hz' k b hk (by rw [hsame.userAddr, hb])
        _ = m.byte (src + k) := hmoved hz k b hk hb
  · obtain ⟨hret, hzero, hmoved, hbeyond, hothers⟩ := (CopyApart.ofUser htable hapart).strCopied
    exact ⟨hzero, hret, fun k hk hnul => ⟨hmoved k hk hnul, hbeyond k hk hnul⟩, hothers⟩

/-- The tables of `userTable` are among the first pages of memory. -/
theorem userTable_table {root q : ℕ} (hm : userTable = some (root, m)) (hq : IsTable m root q) :
    q < 5 * pgsize := by
  obtain ⟨free, hfree, hlt⟩ := fourPages_free
  obtain ⟨root', m', hm', hbuilt⟩ := userTable_built
  obtain ⟨rfl, rfl⟩ := Prod.mk.inj (Option.some.inj (hm'.symm.trans hm))
  obtain ⟨path, hlen, htable⟩ := hq
  exact hlt q (hbuilt.table_mem hfree hlen htable)

/-- The first byte of the user is the first byte of RAM. -/
theorem userTable_byte {root k : ℕ} (hm : userTable = some (root, m)) (hk : k < (1 : Word).toNat)
    (hb : m.userAddr root (byteOn 0 k) = some b) : k = 0 ∧ b = 0x80000000 := by
  have haddr : userTable.bind (fun r => r.2.userAddr r.1 (byteOn 0 0)) = some 0x80000000 := by
    decide +kernel
  obtain rfl : k = 0 := by
    have h1 : (1 : Word).toNat = 1 := rfl
    omega
  rw [hm, Option.bind_some] at haddr
  exact ⟨rfl, Option.some.inj (hb.symm.trans haddr)⟩

/-- A byte is copied to the user from above RAM, and fetched again. -/
theorem userCopies_exact_byte : ∃ root m, userTable = some (root, m) ∧
    (m.copyout root 0 0x90000000 1).1 = 0 ∧
    ((m.copyout root 0 0x90000000 1).2.copyin root 0x90001000 0 1).2.byte 0x90001000 =
      m.byte 0x90000000 := by
  obtain ⟨root, m, hm, hbuilt⟩ := userTable_built
  have haddr : userTable.bind (fun r => r.2.userAddr r.1 (byteOn 0 0)) = some 0x80000000 := by
    decide +kernel
  rw [hm, Option.bind_some] at haddr
  have h1 : (1 : Word).toNat = 1 := rfl
  have hpages : UserPages m root 0 1 := by
    refine ⟨fun j k b c hj hk _ _ _ => ?_, fun k b hk hb hc => ?_⟩
    · rw [show j = k by omega]
    · obtain ⟨-, rfl⟩ := userTable_byte hm hk hb
      have hmem := userTable_table hm hc
      simp only [bytePage, pgsize] at hmem
      omega
  have hapart : ∀ buf, 0x90000000 ≤ buf → BufferApart m root buf 0 1 := by
    intro buf hbuf j k b hj hk hb
    obtain ⟨-, rfl⟩ := userTable_byte hm hk hb
    omega
  have htable : BufferNoTable m root 0x90001000 1 := by
    intro j hj hc
    have hmem := userTable_table hm hc
    simp only [bytePage, pgsize] at hmem
    omega
  obtain ⟨-, hout, -⟩ := userCopies_exact m root 0 1
  obtain ⟨hzero, -, hmoved⟩ := hout 0x90000000 hpages (hapart _ (by omega))
  have hok : (m.copyout root 0 0x90000000 1).1 = 0 := by
    refine hzero.mpr fun k hk => userMapped_iff.mpr ?_
    rw [show k = 0 by omega, haddr]
    rfl
  obtain ⟨-, -, hback⟩ := hmoved hok
  obtain ⟨-, hbytes⟩ := hback 0x90001000 htable (hapart _ (by omega))
  exact ⟨root, m, hm, hok, hbytes 0 (by omega)⟩

end RiscvOs
