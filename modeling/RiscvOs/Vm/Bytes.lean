import RiscvOs.Vm.Tables

/-!
# Physical memory as bytes

Pages are words; a store that does not keep to words is a store of bytes.  The four bytes of
an `int` are assigned one after the other (`assignInt`), whether or not they are on one page.
-/

namespace RiscvOs

/-- Byte `i` of a word. -/
def wordByte (w : Word) (i : ℕ) : BitVec 8 := w.extractLsb' (8 * i) 8

/-- Byte `i` of a word is replaced. -/
def setWordByte (w : Word) (i : ℕ) (v : BitVec 8) : Word :=
  w &&& ~~~((0xFF : Word) <<< (8 * i)) ||| v.setWidth 64 <<< (8 * i)

theorem wordByte_same (w : Word) {i : ℕ} (hi : i < 8) (v : BitVec 8) :
    wordByte (setWordByte w i v) i = v := by
  have hmask : (0xFF : Word) = (0xFF : BitVec 8).setWidth 64 := rfl
  apply BitVec.eq_of_getLsbD_eq
  intro k hk
  have hlt : 8 * i + k < 64 := by omega
  have hones : (255#8).getLsbD k = true := by
    have hall : ∀ k < 8, (255#8).getLsbD k = true := by decide
    exact hall k hk
  simp only [wordByte, setWordByte, hmask, BitVec.getLsbD_extractLsb', BitVec.getLsbD_or,
    BitVec.getLsbD_and, BitVec.getLsbD_not, BitVec.getLsbD_shiftLeft, BitVec.getLsbD_setWidth]
  simp [hk, hlt, hones, show k < 64 by omega]

theorem wordByte_of_ne (w : Word) {i j : ℕ} (hj : j < 8) (hne : j ≠ i) (v : BitVec 8) :
    wordByte (setWordByte w i v) j = wordByte w j := by
  have hmask : (0xFF : Word) = (0xFF : BitVec 8).setWidth 64 := rfl
  apply BitVec.eq_of_getLsbD_eq
  intro k hk
  have hlt : 8 * j + k < 64 := by omega
  simp only [wordByte, setWordByte, hmask, BitVec.getLsbD_extractLsb', BitVec.getLsbD_or,
    BitVec.getLsbD_and, BitVec.getLsbD_not, BitVec.getLsbD_shiftLeft, BitVec.getLsbD_setWidth]
  -- the bits of byte `i` are below or above
  rcases Nat.lt_or_gt_of_ne hne with hbelow | habove
  · simp [hk, hlt, show 8 * j + k < 8 * i by omega]
  · have hzero : ∀ x : BitVec 8, x.getLsbD (8 * j + k - 8 * i) = false := fun x =>
      BitVec.getLsbD_of_ge x _ (by omega)
    simp [hk, hlt, hzero]

namespace Phys

/-- The byte at a physical address. -/
def byte (m : Phys) (b : ℕ) : BitVec 8 :=
  wordByte (m.page (b / pgsize * pgsize) (Fin.ofNat 512 (b % pgsize / 8))) (b % 8)

/-- The byte at a physical address is assigned. -/
def setByte (m : Phys) (b : ℕ) (v : BitVec 8) : Phys :=
  m.store (b / pgsize * pgsize) (Fin.ofNat 512 (b % pgsize / 8))
    (setWordByte (m.page (b / pgsize * pgsize) (Fin.ofNat 512 (b % pgsize / 8))) (b % 8) v)

/-- Byte `k` of an `int`. -/
def intByte (v : ℤ) (k : ℕ) : BitVec 8 := (BitVec.ofInt 32 v).extractLsb' (8 * k) 8

/-- `*(int*)pa = v` -/
def assignInt (m : Phys) (pa : ℕ) (v : ℤ) : Phys :=
  (((m.setByte pa (intByte v 0)).setByte (pa + 1) (intByte v 1)).setByte (pa + 2)
    (intByte v 2)).setByte (pa + 3) (intByte v 3)

variable {m : Phys} {b c pa : ℕ} {v : BitVec 8}

theorem byte_setByte_same : (m.setByte b v).byte b = v := by
  simp only [byte, setByte, store, fill, Function.update_self]
  exact wordByte_same _ (Nat.mod_lt _ (by decide)) v

theorem byte_setByte_of_ne (h : c ≠ b) : (m.setByte b v).byte c = m.byte c := by
  simp only [byte, setByte, store, fill]
  by_cases hpage : c / pgsize * pgsize = b / pgsize * pgsize
  · rw [hpage, Function.update_self]
    by_cases hword : (Fin.ofNat 512 (c % pgsize / 8)) = Fin.ofNat 512 (b % pgsize / 8)
    · rw [hword, Function.update_self]
      have hval := congrArg Fin.val hword
      simp only [Fin.val_ofNat, pgsize] at hval hpage
      exact wordByte_of_ne _ (Nat.mod_lt _ (by decide)) (by omega) v
    · rw [Function.update_of_ne hword]
  · rw [Function.update_of_ne hpage]

/-- The bytes once an `int` has been assigned. -/
theorem byte_assignInt {v : ℤ} : (m.assignInt pa v).byte b =
    if pa ≤ b ∧ b < pa + 4 then intByte v (b - pa) else m.byte b := by
  rw [assignInt]
  by_cases h₃ : b = pa + 3
  · subst h₃
    rw [byte_setByte_same, if_pos ⟨by omega, by omega⟩, Nat.add_sub_cancel_left]
  rw [byte_setByte_of_ne h₃]
  by_cases h₂ : b = pa + 2
  · subst h₂
    rw [byte_setByte_same, if_pos ⟨by omega, by omega⟩, Nat.add_sub_cancel_left]
  rw [byte_setByte_of_ne h₂]
  by_cases h₁ : b = pa + 1
  · subst h₁
    rw [byte_setByte_same, if_pos ⟨by omega, by omega⟩, Nat.add_sub_cancel_left]
  rw [byte_setByte_of_ne h₁]
  by_cases h₀ : b = pa
  · subst h₀
    rw [byte_setByte_same, if_pos ⟨by omega, by omega⟩, Nat.sub_self]
  rw [byte_setByte_of_ne h₀, if_neg (by omega)]

/-- A byte of a page is a change of that page. -/
theorem setByte_fill (m : Phys) {q : ℕ} (hq : b / pgsize * pgsize = q) (v : BitVec 8) :
    ∃ content, m.setByte b v = m.fill q content := by
  subst hq
  exact ⟨_, rfl⟩

theorem fill_fill (m : Phys) (q : ℕ) (x y : Page) : (m.fill q x).fill q y = m.fill q y := by
  simp [fill, Function.update_idem]

/-- An `int` on one page is a change of that page. -/
theorem assignInt_fill (m : Phys) {q off : ℕ} (hq : pgsize ∣ q) (hoff : off + 4 ≤ pgsize) (v : ℤ) :
    ∃ content, m.assignInt (q + off) v = m.fill q content := by
  have hpage : ∀ k < 4, (q + off + k) / pgsize * pgsize = q := by
    intro k hk
    obtain ⟨n, rfl⟩ := hq
    simp only [pgsize] at hoff ⊢
    omega
  obtain ⟨c₀, h₀⟩ := m.setByte_fill (hpage 0 (by decide)) (intByte v 0)
  obtain ⟨c₁, h₁⟩ := (m.fill q c₀).setByte_fill (hpage 1 (by decide)) (intByte v 1)
  obtain ⟨c₂, h₂⟩ := (m.fill q c₁).setByte_fill (hpage 2 (by decide)) (intByte v 2)
  obtain ⟨c₃, h₃⟩ := (m.fill q c₂).setByte_fill (hpage 3 (by decide)) (intByte v 3)
  refine ⟨c₃, ?_⟩
  rw [Nat.add_zero] at h₀
  rw [assignInt, h₀, h₁, fill_fill, h₂, fill_fill, h₃, fill_fill]

end Phys

end RiscvOs
