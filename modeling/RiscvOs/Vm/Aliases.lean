import RiscvOs.Vm.UserCopy

/-!
# Addresses beyond the page table

An address has 52 bits of page number, and `walk_lookup` looks at 27 of them: addresses that
differ by a multiple of 2^39 have the same entries (`userAddr_low`), while two addresses that
do not never have (`PageTree.walkLookup_same_iff`).  Nothing is mapped from `MAXVA` = 2^38 up
to 2^39, so a copy is refused where one of its addresses is there modulo 2^39
(`TableBuilt.userMapped_lt`); from 2^39 on the pages below `MAXVA` come again, and a copy is
refused only if it would be refused there.
-/

namespace RiscvOs

/-- The address below 2^39 that `walk_lookup` takes an address for. -/
def lowAddr (va : Word) : Word := BitVec.ofNat 64 (va.toNat % 2 ^ 39)

variable {m₀ m : Phys} {root bound : ℕ} {place : ℕ → Option (List (Fin 512))} {free free₀ : List ℕ}
  {va len : Word}

theorem lowAddr_toNat (va : Word) : (lowAddr va).toNat = va.toNat % 2 ^ 39 := by
  rw [lowAddr, BitVec.toNat_ofNat]
  omega

theorem vpns_lowAddr (va : Word) : vpns (lowAddr va) = vpns va := by
  rw [vpns_eq_iff, lowAddr_toNat]
  simp only [pgsize]
  omega

theorem userAddr_low (m : Phys) (pt : ℕ) (va : Word) :
    m.userAddr pt (lowAddr va) = m.userAddr pt va := by
  have hoff : (lowAddr va).toNat % pgsize = va.toNat % pgsize := by
    rw [lowAddr_toNat]
    simp only [pgsize]
    omega
  rw [Phys.userAddr, Phys.userAddr, Phys.userLookup_congr (vpns_lowAddr va), hoff]

theorem userMapped_low (m : Phys) (pt : ℕ) (va : Word) :
    UserMapped m pt (lowAddr va) ↔ UserMapped m pt va := by
  rw [userMapped_iff, userMapped_iff, userAddr_low]

/-- Two addresses have one entry if their page numbers agree in the last 27 bits. -/
theorem PageTree.walkLookup_same_iff {x y : Word} {s t : ℕ} (h : PageTree m root place free)
    (hx : m.walkLookup root x = some s) (hy : m.walkLookup root y = some t) :
    s = t ∧ vpn x 0 = vpn y 0 ↔ x.toNat / pgsize % 2 ^ 27 = y.toNat / pgsize % 2 ^ 27 := by
  rw [Phys.walkLookup_eq] at hx hy
  rw [← vpns_eq_iff]
  constructor
  · rintro ⟨rfl, hlast⟩
    have hpath := h.distinct (by simp) (by simp) hx hy
    rw [vpns, vpns, hlast, hpath]
  · intro hvpns
    obtain ⟨hlast, hpath⟩ := List.cons.inj hvpns
    rw [hpath, hy] at hx
    exact ⟨(Option.some.inj hx).symm, hlast⟩

/-- Only what `map_page` was called for is mapped. -/
theorem TableBuilt.entry_lt {path : List (Fin 512)} (hfree : FreePages m₀ free₀)
    (h : TableBuilt m₀ bound root m) (hlen : path.length = 3)
    (hentry : m.entryAt root path ≠ none) : ∃ va : Word, va.toNat < bound ∧ path = vpns va := by
  induction h with
  | created h => exact absurd (Phys.createPagetable_entry h hlen) hentry
  | @mapped m m' va perm pa ret h hva hm ih =>
      obtain ⟨place, free, htree⟩ := h.tree hfree
      rw [htree.mapPage_entry hm hlen] at hentry
      by_cases hpath : path = vpns va
      · exact ⟨va, hva, hpath⟩
      · rw [if_neg hpath] at hentry
        exact ih hentry

/-- A page of the user is below the bound, as `walk_lookup` sees it. -/
theorem TableBuilt.userMapped_lt (hfree : FreePages m₀ free₀) (h : TableBuilt m₀ bound root m)
    (hbound : bound ≤ 2 ^ 39) (haligned : pgsize ∣ bound) (hmapped : UserMapped m root va) :
    (lowAddr va).toNat < bound := by
  obtain ⟨table, htable, -, hv, -⟩ := hmapped
  have hentry : m.entryAt root (vpns va) ≠ none := by
    have hleaf : m.leaf root va = some (m.page table (vpn va 0)) := by
      rw [Phys.leaf, htable, Option.map_some]
    rw [(Phys.leaf_eq m root va _).mpr ⟨hleaf, hv⟩]
    exact Option.some_ne_none _
  obtain ⟨va', hlt, hpath⟩ := h.entry_lt hfree rfl hentry
  rw [← vpns_lowAddr, vpns_eq_iff_page (by rw [lowAddr_toNat]; omega) (by omega)] at hpath
  obtain ⟨q, rfl⟩ := haligned
  simp only [pgsize] at hpath hlt ⊢
  omega

/-! ## Which copies are refused -/

/-- Byte `k` of the string is a NUL, wherever the bytes before it are. -/
def NulAt (m : Phys) (pt : ℕ) (va : Word) (k : ℕ) : Prop :=
  ∃ b, m.userAddr pt (byteOn va k) = some b ∧ m.byte b = 0

/-- The string that is found modulo 2^39 has its NUL at byte `k`. -/
def LowString (m : Phys) (pt : ℕ) (va : Word) (k : ℕ) : Prop :=
  (∃ b, m.userAddr pt (lowAddr (byteOn va k)) = some b ∧ m.byte b = 0) ∧
    ∀ j < k, ∃ b, m.userAddr pt (lowAddr (byteOn va j)) = some b ∧ m.byte b ≠ 0

theorem lowString_iff {pt k : ℕ} : LowString m pt va k ↔ FirstNul m pt va k := by
  simp only [LowString, FirstNul, userAddr_low]

/-- A call that answers 0 or -1 refuses what it must not do if nothing is to be refused, or if it
answers -1 anyway. -/
theorem refuses_iff {r : ℤ} {beyond done : Prop} (hret : r = 0 ∨ r = -1) (hzero : r = 0 ↔ done) :
    (beyond → r = -1) ↔ ¬ beyond ∨ ¬ done := by
  have hneg : r = -1 ↔ ¬ done := by
    rw [← hzero]
    omega
  rw [hneg]
  exact imp_iff_not_or

/-- **Which addresses beyond `MAXVA` are refused.**  The copies answer -1 for a range with a byte
there if and only if they would not find all of it modulo 2^39.  Two addresses have one entry if
their page numbers agree modulo 2^27. -/
theorem TableBuilt.refuses_beyond_iff (hfree : FreePages m₀ free₀)
    (h : TableBuilt m₀ maxva root m) (va len : Word) :
    (∀ dst, BufferNoTable m root dst len → BufferApart m root dst va len →
      (((∃ k < len.toNat, maxva ≤ (byteOn va k).toNat) → (m.copyin root dst va len).1 = -1) ↔
        (∀ k < len.toNat, (byteOn va k).toNat < maxva) ∨
          ∃ k < len.toNat, ¬ UserMapped m root (lowAddr (byteOn va k)))) ∧
    (∀ src, UserPages m root va len → BufferApart m root src va len →
      (((∃ k < len.toNat, maxva ≤ (byteOn va k).toNat) → (m.copyout root va src len).1 = -1) ↔
        (∀ k < len.toNat, (byteOn va k).toNat < maxva) ∨
          ∃ k < len.toNat, ¬ UserMapped m root (lowAddr (byteOn va k)))) ∧
    (∀ dst, BufferNoTable m root dst len → BufferApart m root dst va len →
      (((∃ k < len.toNat, (∀ j < k, ¬ NulAt m root va j) ∧ maxva ≤ (byteOn va k).toNat) →
          (m.copyinstr root dst va len).1 = -1) ↔
        (∀ k < len.toNat, (∀ j < k, ¬ NulAt m root va j) → (byteOn va k).toNat < maxva) ∨
          ∀ k < len.toNat, ¬ LowString m root va k)) ∧
    ∀ x y s t, m.walkLookup root x = some s → m.walkLookup root y = some t →
      (s = t ∧ vpn x 0 = vpn y 0 ↔ x.toNat / pgsize % 2 ^ 27 = y.toNat / pgsize % 2 ^ 27) := by
  obtain ⟨place, free, htree⟩ := h.tree hfree
  have hbeyond : (¬ ∃ k < len.toNat, maxva ≤ (byteOn va k).toNat) ↔
      ∀ k < len.toNat, (byteOn va k).toNat < maxva := by
    simp only [not_exists, not_and, not_le]
  have hfound : (¬ ∀ k < len.toNat, (m.userAddr root (byteOn va k)).isSome) ↔
      ∃ k < len.toNat, ¬ UserMapped m root (lowAddr (byteOn va k)) := by
    simp only [not_forall, exists_prop, userMapped_iff, userAddr_low]
  refine ⟨fun dst htable hapart => ?_, fun src hpages hapart => ?_, fun dst htable hapart => ?_,
    fun x y s t hx hy => htree.walkLookup_same_iff hx hy⟩
  · obtain ⟨hret, hzero, -, -, -⟩ := (CopyApart.ofUser htable hapart).copied
    exact (refuses_iff hret hzero).trans (or_congr hbeyond hfound)
  · obtain ⟨hret, hzero, -, -, -⟩ := (CopyApart.toUser hpages hapart).copied
    exact (refuses_iff hret hzero).trans (or_congr hbeyond hfound)
  · obtain ⟨hret, hzero, -, -, -⟩ := (CopyApart.ofUser htable hapart).strCopied
    refine (refuses_iff hret hzero).trans (or_congr ?_ ?_)
    · simp only [not_exists, not_and, not_le]
    · simp only [lowString_iff, not_exists, not_and]

/-- A byte at address 0 is copied to a buffer above RAM. -/
theorem refuses_beyond_zero : ∃ root m, TableBuilt fourPages maxva root m ∧
    ((∃ k < (1 : Word).toNat, maxva ≤ (byteOn 0 k).toNat) →
      (m.copyin root 0x90000000 0 1).1 = -1) := by
  obtain ⟨free, hfree, -⟩ := fourPages_free
  obtain ⟨root, m, hm, hbuilt⟩ := userTable_built
  refine ⟨root, m, hbuilt, ((hbuilt.refuses_beyond_iff hfree 0 1).1 0x90000000 ?_ ?_).mpr (.inl ?_)⟩
  · intro j hj hc
    have hmem := userTable_table hm hc
    simp only [bytePage, pgsize] at hmem
    omega
  · intro j k b hj hk hb
    obtain ⟨rfl, rfl⟩ := userTable_byte hm hk hb
    omega
  · intro k hk
    obtain rfl : k = 0 := by
      have h1 : (1 : Word).toNat = 1 := rfl
      omega
    decide

/-- A byte at address 2^39, which no process can access, is copied as well. -/
theorem copyin_accepts_beyond : ∃ root m, TableBuilt fourPages maxva root m ∧
    maxva ≤ (byteOn 0x8000000000 0).toNat ∧ (m.copyin root 0x90000000 0x8000000000 1).1 = 0 := by
  obtain ⟨root, m, hm, hbuilt⟩ := userTable_built
  have hlook : userTable.bind (fun r => r.2.userLookup r.1 (pggrounddown 0x8000000000)) =
      some 0x80000000 := by
    decide +kernel
  rw [hm, Option.bind_some] at hlook
  refine ⟨root, m, hbuilt, by decide, ?_⟩
  rw [Phys.copyin, Phys.copyLoop_turn (by decide) hlook, Phys.copyLoop, if_neg (by decide)]

end RiscvOs
