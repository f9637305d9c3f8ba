import RiscvOs.Vm.Tree

/-!
# Mapping a region

`kernel/vm_init.c`.  `map_region` rounds the last byte of the region up, and its loop takes
the page it finds there as well.  For a region of page-aligned start the number of pages
mapped is therefore

```text
size % 4096 = 1    the pages of the region
otherwise          one more: the page after the region, to the page after pa's
```

`mapPages_entry` says what the loop does, `Overrun` is the page too many, and
`mapRegion_exact_iff` when it does no harm.  In `kvminit` it does: the page after the text
is the first page of RAM, which becomes read only, and the page after RAM is mapped
(`kvminit_entry`).
-/

namespace RiscvOs

open LinkedList

/-- `VIRTIO0` -/
def virtio0 : Word := 0x10001000

namespace Phys

/-- The loop of `map_region`, which ends within the fuel if it ends. -/
def mapPages (pt : ℕ) (last perm : Word) : ℕ → Word → Word → Phys → Option Phys
  | 0, _, _, _ => none
  | fuel + 1, a, pa, m =>
    if a ≤ last then do
      let (_, m) ← m.mapPage pt a pa.toNat perm
      mapPages pt last perm fuel (a + 4096) (pa + 4096) m
    else some m

/-- `map_region(pt, va, pa, size, perm)` -/
def mapRegion (fuel : ℕ) (m : Phys) (pt : ℕ) (va pa size perm : Word) : Option Phys :=
  m.mapPages pt (pgroundup (va + size - 1)) perm fuel (pggrounddown va) pa

/-- `kvminit()`, where `trampoline` is the address of the symbol; `kernel_pagetable` is the
answer. -/
def kvminit (fuel : ℕ) (trampoline : Word) (m : Phys) : Option (ℕ × Phys) := do
  let (pt, m) ← m.createPagetable
  let m ← m.mapRegion fuel pt 0x80200000 0x80200000 (BitVec.ofNat 64 phystop - 0x80200000)
    (pteR ||| pteW ||| pteX)
  let (_, m) ← m.mapPage pt 0x10000000 0x10000000 (pteR ||| pteW)
  let m ← m.mapRegion fuel pt 0x80000000 0x80000000 0x200000 (pteR ||| pteX)
  let (_, m) ← m.mapPage pt trampolineVa trampoline.toNat (pteR ||| pteX)
  let (_, m) ← m.mapPage pt virtio0 virtio0.toNat (pteR ||| pteW)
  return (pt, m)

end Phys

variable {m m' : Phys} {root fuel : ℕ} {place : ℕ → Option (List (Fin 512))} {free : List ℕ}
  {a pa last perm : Word} {path : List (Fin 512)}

/-! ## The loop -/

/-- The page `j` pages further on. -/
def pageOn (a : Word) (j : ℕ) : Word := a + BitVec.ofNat 64 (j * pgsize)

theorem pageOn_succ (a : Word) (j : ℕ) : pageOn a (j + 1) = pageOn (a + 4096) j := by
  have hmul : BitVec.ofNat 64 ((j + 1) * pgsize) = 4096 + BitVec.ofNat 64 (j * pgsize) := by
    rw [Nat.succ_mul, Nat.add_comm, BitVec.ofNat_add]
    rfl
  rw [pageOn, pageOn, hmul, BitVec.add_assoc]

theorem pageOn_zero (a : Word) : pageOn a 0 = a := by
  rw [pageOn, Nat.zero_mul]
  exact BitVec.add_zero a

theorem pageOn_toNat {j : ℕ} (h : a.toNat + j * pgsize < 2 ^ 64) :
    (pageOn a j).toNat = a.toNat + j * pgsize := by
  rw [pageOn, BitVec.toNat_add, BitVec.toNat_ofNat, Nat.mod_eq_of_lt (by omega : j * pgsize < 2 ^ 64),
    Nat.mod_eq_of_lt h]

/-- The entry that the loop sets in its turn `j`. -/
def turnEntry (pa perm : Word) (j : ℕ) : Word := paPte (pageOn pa j).toNat ||| perm ||| pteV

theorem turnEntry_succ (pa perm : Word) (j : ℕ) :
    turnEntry pa perm (j + 1) = turnEntry (pa + 4096) perm j := by
  rw [turnEntry, turnEntry, pageOn_succ]

theorem pageNext_toNat (h : a.toNat + pgsize < 2 ^ 64) : (a + 4096).toNat = a.toNat + pgsize := by
  rw [BitVec.toNat_add]
  exact Nat.mod_eq_of_lt h

/-- A turn of the loop sets an entry, and goes on at the next page. -/
theorem PageTree.mapPages_turn (h : PageTree m root place free) (hle : a ≤ last)
    (hrun : m.mapPages root last perm fuel a pa = some m') :
    ∃ m₁ place₁ free₁, PageTree m₁ root place₁ free₁ ∧
      (∀ path, path.length = 3 → m₁.entryAt root path =
        if path = vpns a then some (turnEntry pa perm 0) else m.entryAt root path) ∧
      m₁.mapPages root last perm (fuel - 1) (a + 4096) (pa + 4096) = some m' := by
  cases fuel with
  | zero => cases hrun
  | succ fuel =>
      rw [Phys.mapPages, if_pos hle] at hrun
      obtain ⟨⟨ret, m₁⟩, hm, hrun⟩ := Option.bind_eq_some_iff.mp hrun
      obtain ⟨-, place₁, free₁, h₁, -, -⟩ := h.mapPage hm
      refine ⟨m₁, place₁, free₁, h₁, fun path hlen => ?_, hrun⟩
      rw [h.mapPage_entry hm hlen, turnEntry, pageOn_zero]

/-- The loop ends past the last page. -/
theorem Phys.mapPages_end (hlt : last < a)
    (hrun : m.mapPages root last perm fuel a pa = some m') : m' = m := by
  cases fuel with
  | zero => cases hrun
  | succ fuel =>
      rw [Phys.mapPages, if_neg (BitVec.not_le.mpr hlt)] at hrun
      exact (Option.some.inj hrun).symm

/-- `n + 1` pages are mapped; where two of them have the same indices, the later one stays. -/
theorem PageTree.mapPages_entry {n : ℕ} (h : PageTree m root place free)
    (hlast : last.toNat = a.toNat + n * pgsize) (hend : last.toNat + pgsize < 2 ^ 64)
    (hrun : m.mapPages root last perm fuel a pa = some m') :
    (∃ place' free', PageTree m' root place' free') ∧
    (∀ path, path.length = 3 → (∀ j ≤ n, vpns (pageOn a j) ≠ path) →
      m'.entryAt root path = m.entryAt root path) ∧
    (∀ path j, path.length = 3 → j ≤ n → vpns (pageOn a j) = path →
      (∀ i ≤ n, j < i → vpns (pageOn a i) ≠ path) →
      m'.entryAt root path = some (turnEntry pa perm j)) := by
  have hle : a ≤ last := by
    rw [BitVec.le_def]
    omega
  obtain ⟨m₁, place₁, free₁, h₁, hentry, hrest⟩ := h.mapPages_turn hle hrun
  have hnext := pageNext_toNat (show a.toNat + pgsize < 2 ^ 64 by omega)
  induction n generalizing m m₁ fuel a pa place free place₁ free₁ with
  | zero =>
      have hlt : last < a + 4096 := by
        rw [BitVec.lt_def, hnext]
        simp only [pgsize] at hlast ⊢
        omega
      obtain rfl := Phys.mapPages_end hlt hrest
      refine ⟨⟨place₁, free₁, h₁⟩, fun path hlen hno => ?_, fun path j hlen hj hpath _ => ?_⟩
      · have hne := hno 0 (Nat.le_refl _)
        rw [pageOn_zero] at hne
        rw [hentry path hlen, if_neg fun hc => hne hc.symm]
      · obtain rfl := Nat.le_zero.mp hj
        rw [pageOn_zero] at hpath
        rw [hentry path hlen, if_pos hpath.symm]
  | succ n ih =>
      have hlast' : last.toNat = (a + 4096).toNat + n * pgsize := by
        rw [hnext, hlast, Nat.succ_mul]
        omega
      have hle' : a + 4096 ≤ last := by
        rw [BitVec.le_def]
        omega
      obtain ⟨m₂, place₂, free₂, h₂, hentry₂, hrest₂⟩ := h₁.mapPages_turn hle' hrest
      obtain ⟨htree, hothers, hset⟩ := ih h₁ hlast' hrest hle' m₂ place₂ free₂ h₂ hentry₂ hrest₂
        (pageNext_toNat (by omega))
      refine ⟨htree, fun path hlen hno => ?_, fun path j hlen hj hpath hlater => ?_⟩
      · rw [hothers path hlen fun j hj => by rw [← pageOn_succ]; exact hno (j + 1) (by omega),
          hentry path hlen, if_neg]
        rintro rfl
        exact hno 0 (by omega) (by rw [pageOn_zero])
      · cases j with
        | zero =>
            rw [pageOn_zero] at hpath
            have hgone : ∀ i ≤ n, vpns (pageOn (a + 4096) i) ≠ path := by
              intro i hi
              rw [← pageOn_succ]
              exact hlater (i + 1) (by omega) (by omega)
            rw [hothers path hlen hgone, hentry path hlen, if_pos hpath.symm]
        | succ j =>
            rw [turnEntry_succ]
            refine hset path j hlen (by omega) (by rw [← pageOn_succ]; exact hpath) fun i hi hji => ?_
            rw [← pageOn_succ]
            exact hlater (i + 1) (by omega) (by omega)

/-! ## The region -/

theorem toNat_pageVa {x : ℕ} (h : x * pgsize < 2 ^ 64) : (pageVa x).toNat = x * pgsize := by
  rw [pageVa, BitVec.toNat_ofNat, Nat.mod_eq_of_lt h]

/-- What page `x` is to be mapped to: a page of the region to the page at the same distance from
`pa`, any other page to what it was mapped to. -/
def askedEntry (m : Phys) (root : ℕ) (va pa size perm : Word) (x : ℕ) : Option Word :=
  if va.toNat / pgsize ≤ x ∧ x < va.toNat / pgsize + pagesOf size.toNat then
    some (turnEntry pa perm (x - va.toNat / pgsize))
  else m.entryAt root (vpns (pageVa x))

/-- The region has been mapped, and nothing else has changed. -/
def RegionMapped (m m' : Phys) (root : ℕ) (va pa size perm : Word) : Prop :=
  ∀ x < 2 ^ 27, m'.entryAt root (vpns (pageVa x)) = askedEntry m root va pa size perm x

/-- The page after the region; for a region that ends at 2^39 it is page 0 again. -/
def pageAfter (va size : Word) : ℕ := (va.toNat / pgsize + pagesOf size.toNat) % 2 ^ 27

section

variable {va size : Word}

theorem pggrounddown_aligned (h : pgsize ∣ va.toNat) : pggrounddown va = va := by
  apply BitVec.eq_of_toNat_eq
  rw [pggrounddown_toNat, Nat.div_mul_cancel h]

/-- Where the loop of `map_region` ends. -/
theorem last_toNat (hva : pgsize ∣ va.toNat) (hsize : 0 < size.toNat)
    (hend : va.toNat + size.toNat < 2 ^ 39) :
    (pgroundup (va + size - 1)).toNat = va.toNat + pagesOf (size.toNat - 1) * pgsize := by
  obtain ⟨v, hv⟩ := hva
  have hbyte : (va + size - 1).toNat = va.toNat + size.toNat - 1 := by
    have h1 : (1 : Word).toNat = 1 := rfl
    rw [BitVec.toNat_sub, BitVec.toNat_add, h1]
    omega
  rw [pgroundup_toNat (by rw [hbyte]; simp only [pgsize]; omega), hbyte, hv]
  simp only [pagesOf, pgsize]
  omega

/-- The pages that have the indices of page `x`. -/
theorem pageOn_indices {j x : ℕ} (hva : pgsize ∣ va.toNat)
    (hj : va.toNat / pgsize + j ≤ 2 ^ 27) (hx : x < 2 ^ 27) :
    vpns (pageOn va j) = vpns (pageVa x) ↔ (va.toNat / pgsize + j) % 2 ^ 27 = x := by
  have hmul := Nat.div_mul_cancel hva
  have hbound : va.toNat + j * pgsize < 2 ^ 64 := by
    simp only [pgsize] at hj hmul ⊢
    omega
  rw [vpns_eq_iff, pageOn_toNat hbound, toNat_pageVa (by simp only [pgsize]; omega)]
  have hdiv : (va.toNat + j * pgsize) / pgsize = va.toNat / pgsize + j :=
    Nat.add_mul_div_right _ _ (by decide)
  rw [hdiv, Nat.mul_div_cancel _ (by decide), Nat.mod_eq_of_lt hx]

/-- **`map_region`, exactly.**  The region is mapped, and so is the page after it, unless the
region takes but one byte of its last page. -/
theorem PageTree.mapRegion_entry (h : PageTree m root place free) (hva : pgsize ∣ va.toNat)
    (hsize : 0 < size.toNat) (hend : va.toNat + size.toNat < 2 ^ 39)
    (hrun : m.mapRegion fuel root va pa size perm = some m') :
    (∃ place' free', PageTree m' root place' free') ∧
    ∀ x < 2 ^ 27, m'.entryAt root (vpns (pageVa x)) =
      if size.toNat % pgsize ≠ 1 ∧ x = pageAfter va size then
        some (turnEntry pa perm (pagesOf size.toNat))
      else askedEntry m root va pa size perm x := by
  rw [Phys.mapRegion, pggrounddown_aligned hva] at hrun
  have hlast := last_toNat hva hsize hend
  have hmul := Nat.div_mul_cancel hva
  have hpages : va.toNat / pgsize + pagesOf size.toNat ≤ 2 ^ 27 := by
    simp only [pagesOf, pgsize] at hmul ⊢
    omega
  have hcount : pagesOf (size.toNat - 1) =
      if size.toNat % pgsize = 1 then pagesOf size.toNat - 1 else pagesOf size.toNat := by
    simp only [pagesOf, pgsize]
    split <;> omega
  have hpos : 0 < pagesOf size.toNat := by
    simp only [pagesOf, pgsize]
    omega
  have hturns : pagesOf (size.toNat - 1) ≤ pagesOf size.toNat := by
    rw [hcount]
    split <;> omega
  obtain ⟨htree, hothers, hset⟩ := h.mapPages_entry hlast (by
    rw [hlast]
    simp only [pagesOf, pgsize]
    omega) hrun
  refine ⟨htree, fun x hx => ?_⟩
  have hindices : ∀ j ≤ pagesOf (size.toNat - 1), vpns (pageOn va j) = vpns (pageVa x) ↔
      (va.toNat / pgsize + j) % 2 ^ 27 = x := fun j hj => pageOn_indices hva (by omega) hx
  by_cases hover : size.toNat % pgsize ≠ 1 ∧ x = pageAfter va size
  · -- the last turn is the page too many
    obtain ⟨hmod, rfl⟩ := hover
    rw [if_neg hmod] at hcount
    rw [if_pos ⟨hmod, rfl⟩]
    refine hset _ _ rfl hcount.ge ((hindices _ hcount.ge).mpr rfl) fun i hi hlater => ?_
    omega
  rw [if_neg hover, askedEntry]
  by_cases hin : va.toNat / pgsize ≤ x ∧ x < va.toNat / pgsize + pagesOf size.toNat
  · rw [if_pos hin]
    have hj : x - va.toNat / pgsize ≤ pagesOf (size.toNat - 1) := by
      rw [hcount]
      split <;> omega
    refine hset _ _ rfl hj ((hindices _ hj).mpr ?_) fun i hi hlater hc => ?_
    · rw [Nat.add_sub_cancel' hin.1, Nat.mod_eq_of_lt hx]
    · -- a later turn that comes back to page `x` is the page too many
      have hx' := (hindices i hi).mp hc
      have hi' : i = pagesOf size.toNat := by omega
      rw [hi'] at hi hx'
      refine hover ⟨fun hmod => ?_, hx'.symm⟩
      rw [if_pos hmod] at hcount
      omega
  · rw [if_neg hin]
    refine hothers _ rfl fun j hj hc => ?_
    have hx' := (hindices j hj).mp hc
    have hj' : j = pagesOf size.toNat := by
      by_contra hne
      rw [Nat.mod_eq_of_lt (by omega)] at hx'
      exact hin ⟨by omega, by omega⟩
    rw [hj'] at hj hx'
    refine hover ⟨fun hmod => ?_, hx'.symm⟩
    rw [if_pos hmod] at hcount
    omega

/-- What `map_region` is asked to do is done if the region takes one byte of its last page, or if
the page after the region is to be mapped to the page after `pa`'s anyway. -/
theorem PageTree.regionMapped_iff (h : PageTree m root place free) (hva : pgsize ∣ va.toNat)
    (hsize : 0 < size.toNat) (hend : va.toNat + size.toNat < 2 ^ 39)
    (hrun : m.mapRegion fuel root va pa size perm = some m') :
    RegionMapped m m' root va pa size perm ↔ size.toNat % pgsize = 1 ∨
      askedEntry m root va pa size perm (pageAfter va size) =
        some (turnEntry pa perm (pagesOf size.toNat)) := by
  obtain ⟨-, hentry⟩ := h.mapRegion_entry hva hsize hend hrun
  have hafter : pageAfter va size < 2 ^ 27 := Nat.mod_lt _ (by decide)
  constructor
  · intro hmapped
    by_cases hmod : size.toNat % pgsize = 1
    · exact .inl hmod
    · right
      rw [← hmapped _ hafter, hentry _ hafter, if_pos ⟨hmod, rfl⟩]
  · intro hcase x hx
    rw [hentry x hx]
    split
    · next hover =>
      obtain ⟨hmod, rfl⟩ := hover
      exact (hcase.resolve_left hmod).symm
    · rfl

end

/-! ### Room for the tables -/

/-- The free pages that `map_page` may need. -/
def tablesMissing (m : Phys) (root : ℕ) (a : Word) : ℕ :=
  if (m.tableAt root [vpn a 1, vpn a 2]).isSome then 0 else 2

theorem PageTree.mapPage_room (h : PageTree m root place free) (a : Word) (target : ℕ) (perm : Word)
    (hroom : tablesMissing m root a ≤ free.length) :
    ∃ m₁ place₁ free₁, m.mapPage root a target perm = some (0, m₁) ∧ PageTree m₁ root place₁ free₁ ∧
      free.length ≤ free₁.length + tablesMissing m root a ∧ tablesMissing m₁ root a = 0 := by
  unfold tablesMissing at hroom ⊢
  cases htable : m.tableAt root [vpn a 1, vpn a 2] with
  | some table =>
      obtain ⟨hm, h₁⟩ := h.mapPage_present target perm htable
      refine ⟨_, place, free, hm, h₁, by omega, if_pos (h.tableAt_mapPage hm)⟩
  | none =>
      rw [htable] at hroom
      obtain ⟨⟨ret, m₁⟩, hm⟩ := Option.isSome_iff_exists.mp (h.mapPage_isSome a target perm hroom)
      obtain ⟨rfl, place₁, free₁, h₁, htakes, -⟩ := h.mapPage hm
      exact ⟨m₁, place₁, free₁, hm, h₁, htakes.length, if_pos (h.tableAt_mapPage hm)⟩

/-- In one region of 512 pages the last-level table is the same. -/
theorem tablesMissing_congr {b : Word} (hab : a.toNat / 2 ^ 21 = b.toNat / 2 ^ 21) :
    tablesMissing m root a = tablesMissing m root b := by
  have h₁ : vpn a 1 = vpn b 1 := by
    rw [Fin.ext_iff, vpn_val, vpn_val]
    norm_num
    omega
  have h₂ : vpn a 2 = vpn b 2 := by
    rw [Fin.ext_iff, vpn_val, vpn_val]
    norm_num
    omega
  rw [tablesMissing, h₁, h₂]
  rfl

theorem tablesMissing_le : tablesMissing m root a ≤ 2 := by
  unfold tablesMissing
  split <;> omega

/-- The loop needs two pages at each last-level table it comes to, and is done after `n + 1`
turns. -/
theorem PageTree.mapPages_room {n : ℕ} (pa : Word) (h : PageTree m root place free)
    (hlast : last.toNat = a.toNat + n * pgsize) (hend : last.toNat + pgsize < 2 ^ 64)
    (hfuel : n + 2 ≤ fuel)
    (hroom : 2 * (last.toNat / 2 ^ 21 - a.toNat / 2 ^ 21) + tablesMissing m root a ≤ free.length) :
    ∃ m' place' free', m.mapPages root last perm fuel a pa = some m' ∧
      PageTree m' root place' free' ∧ free.length ≤ free'.length +
        (2 * (last.toNat / 2 ^ 21 - a.toNat / 2 ^ 21) + tablesMissing m root a) := by
  induction n generalizing m fuel a pa place free with
  | zero =>
      obtain ⟨fuel, rfl⟩ := Nat.exists_eq_add_of_le' hfuel
      obtain ⟨m₁, place₁, free₁, hm, h₁, hle, -⟩ := h.mapPage_room a pa.toNat perm (by omega)
      have hnext := pageNext_toNat (show a.toNat + pgsize < 2 ^ 64 by omega)
      refine ⟨m₁, place₁, free₁, ?_, h₁, by omega⟩
      have hfirst : a ≤ last := by
        rw [BitVec.le_def]
        omega
      have hdone : ¬ a + 4096 ≤ last := by
        rw [BitVec.le_def, hnext]
        simp only [pgsize] at hlast ⊢
        omega
      rw [Phys.mapPages, if_pos hfirst, hm]
      simp only [Option.bind_eq_bind, Option.bind_some]
      rw [Phys.mapPages, if_neg hdone]
  | succ n ih =>
      obtain ⟨fuel, rfl⟩ := Nat.exists_eq_add_of_le' (show 1 ≤ fuel by omega)
      obtain ⟨m₁, place₁, free₁, hm, h₁, hle, hmissing⟩ := h.mapPage_room a pa.toNat perm (by omega)
      simp only [pgsize] at hlast hend
      have hnext := pageNext_toNat (show a.toNat + pgsize < 2 ^ 64 by simp only [pgsize]; omega)
      simp only [pgsize] at hnext
      have hfirst : a ≤ last := by
        rw [BitVec.le_def]
        omega
      -- what the next page needs is counted among the tables that the loop comes to
      have hnew : 2 * (last.toNat / 2 ^ 21 - (a + 4096).toNat / 2 ^ 21) +
          tablesMissing m₁ root (a + 4096) ≤ 2 * (last.toNat / 2 ^ 21 - a.toNat / 2 ^ 21) := by
        by_cases hsame : (a + 4096).toNat / 2 ^ 21 = a.toNat / 2 ^ 21
        · rw [tablesMissing_congr hsame, hmissing, hsame]
          omega
        · have hle₂ : tablesMissing m₁ root (a + 4096) ≤ 2 := tablesMissing_le
          omega
      have hlast' : last.toNat = (a + 4096).toNat + n * pgsize := by
        simp only [pgsize]
        omega
      obtain ⟨m', place', free', hrun, h', hle'⟩ := ih (pa + 4096) h₁ hlast'
        (show n + 2 ≤ fuel by omega) (by omega)
      refine ⟨m', place', free', ?_, h', by omega⟩
      rw [Phys.mapPages, if_pos hfirst, hm]
      exact hrun

/-! ## `kvminit` -/

section

variable {va size trampoline : Word} {m₀ k : Phys} {pt : ℕ} {free₀ : List ℕ}

/-- A region that is mapped to itself. -/
theorem PageTree.mapRegion_self (h : PageTree m root place free) (hva : pgsize ∣ va.toNat)
    (hsize : 0 < size.toNat) (hmod : size.toNat % pgsize ≠ 1)
    (hend : va.toNat + size.toNat < 2 ^ 38)
    (hrun : m.mapRegion fuel root va va size perm = some m') :
    (∃ place' free', PageTree m' root place' free') ∧
    ∀ x < 2 ^ 27, m'.entryAt root (vpns (pageVa x)) =
      if va.toNat / pgsize ≤ x ∧ x ≤ va.toNat / pgsize + pagesOf size.toNat then
        some (paPte (x * pgsize) ||| perm ||| pteV)
      else m.entryAt root (vpns (pageVa x)) := by
  have hmul := Nat.div_mul_cancel hva
  obtain ⟨htree, hentry⟩ := h.mapRegion_entry hva hsize (by omega) hrun
  have hafter : pageAfter va size = va.toNat / pgsize + pagesOf size.toNat := by
    refine Nat.mod_eq_of_lt ?_
    simp only [pagesOf, pgsize] at hmul ⊢
    omega
  have hself : ∀ x j, x = va.toNat / pgsize + j → x < 2 ^ 27 →
      turnEntry va perm j = paPte (x * pgsize) ||| perm ||| pteV := by
    rintro x j rfl hx
    have hsum : va.toNat + j * pgsize = (va.toNat / pgsize + j) * pgsize := by
      rw [Nat.add_mul, hmul]
    rw [turnEntry, pageOn_toNat (by rw [hsum]; simp only [pgsize] at hx ⊢; omega), hsum]
  refine ⟨htree, fun x hx => ?_⟩
  rw [hentry x hx, hafter]
  by_cases hover : x = va.toNat / pgsize + pagesOf size.toNat
  · rw [if_pos ⟨hmod, hover⟩, if_pos ⟨by omega, by omega⟩, hself x _ hover hx]
  · rw [if_neg fun hc => hover hc.2, askedEntry]
    by_cases hin : va.toNat / pgsize ≤ x ∧ x < va.toNat / pgsize + pagesOf size.toNat
    · rw [if_pos hin, if_pos ⟨hin.1, by omega⟩, hself x _ (by omega) hx]
    · rw [if_neg hin, if_neg (by omega)]

/-- A page is mapped. -/
theorem PageTree.mapPage_page {target : ℕ} {ret : ℤ} (h : PageTree m root place free)
    (hva : va.toNat < 2 ^ 39) (hm : m.mapPage root va target perm = some (ret, m')) :
    (∃ place' free', PageTree m' root place' free') ∧
    ∀ x < 2 ^ 27, m'.entryAt root (vpns (pageVa x)) =
      if x = va.toNat / pgsize then some (paPte target ||| perm ||| pteV)
      else m.entryAt root (vpns (pageVa x)) := by
  obtain ⟨-, place', free', htree, -, -⟩ := h.mapPage hm
  refine ⟨⟨place', free', htree⟩, fun x hx => ?_⟩
  have hpage := toNat_pageVa (show x * pgsize < 2 ^ 64 by simp only [pgsize]; omega)
  have hsame : vpns (pageVa x) = vpns va ↔ x = va.toNat / pgsize := by
    rw [vpns_eq_iff_page (by rw [hpage]; simp only [pgsize]; omega) hva, hpage,
      Nat.mul_div_cancel _ (by decide)]
  rw [h.mapPage_entry hm rfl]
  by_cases hx' : x = va.toNat / pgsize
  · rw [if_pos hx', if_pos (hsame.mpr hx')]
  · rw [if_neg hx', if_neg fun hc => hx' (hsame.mp hc)]

/-- What `kvminit` maps page `x` to; the later calls come first. -/
def kernelEntry (trampoline : Word) (x : ℕ) : Option Word :=
  if x = virtio0.toNat / pgsize then some (paPte virtio0.toNat ||| (pteR ||| pteW) ||| pteV)
  else if x = trampolineVa.toNat / pgsize then
    some (paPte trampoline.toNat ||| (pteR ||| pteX) ||| pteV)
  else if 0x80000 ≤ x ∧ x ≤ 0x80200 then some (paPte (x * pgsize) ||| (pteR ||| pteX) ||| pteV)
  else if x = 0x10000 then some (paPte 0x10000000 ||| (pteR ||| pteW) ||| pteV)
  else if 0x80200 ≤ x ∧ x ≤ 0x88000 then
    some (paPte (x * pgsize) ||| (pteR ||| pteW ||| pteX) ||| pteV)
  else none

/-- **The kernel's page table.** -/
theorem FreePages.kvminit_entry (hfree : FreePages m₀ free₀)
    (hrun : m₀.kvminit fuel trampoline = some (pt, k)) {x : ℕ} (hx : x < 2 ^ 27) :
    k.entryAt pt (vpns (pageVa x)) = kernelEntry trampoline x := by
  obtain ⟨⟨pt', m₁⟩, h₁, hrun⟩ := Option.bind_eq_some_iff.mp hrun
  obtain ⟨m₂, h₂, hrun⟩ := Option.bind_eq_some_iff.mp hrun
  obtain ⟨⟨r₃, m₃⟩, h₃, hrun⟩ := Option.bind_eq_some_iff.mp hrun
  obtain ⟨m₄, h₄, hrun⟩ := Option.bind_eq_some_iff.mp hrun
  obtain ⟨⟨r₅, m₅⟩, h₅, hrun⟩ := Option.bind_eq_some_iff.mp hrun
  obtain ⟨⟨r₆, m₆⟩, h₆, hrun⟩ := Option.bind_eq_some_iff.mp hrun
  obtain ⟨rfl, rfl⟩ := Prod.mk.inj (Option.some.inj hrun)
  obtain ⟨_, _, t₁, -⟩ := hfree.createPagetable h₁
  obtain ⟨⟨_, _, t₂⟩, e₂⟩ := t₁.mapRegion_self (by decide) (by decide) (by decide) (by decide) h₂
  obtain ⟨⟨_, _, t₃⟩, e₃⟩ := t₂.mapPage_page (by decide) h₃
  obtain ⟨⟨_, _, t₄⟩, e₄⟩ := t₃.mapRegion_self (by decide) (by decide) (by decide) (by decide) h₄
  obtain ⟨⟨_, _, t₅⟩, e₅⟩ := t₄.mapPage_page (by decide) h₅
  obtain ⟨-, e₆⟩ := t₅.mapPage_page (by decide) h₆
  rw [e₆ x hx, e₅ x hx, e₄ x hx, e₃ x hx, e₂ x hx, Phys.createPagetable_entry h₁ rfl]
  rfl

theorem PageTree.mapRegion_room (h : PageTree m root place free) (va pa size perm : Word) {cost : ℕ}
    (hva : pgsize ∣ va.toNat) (hsize : 0 < size.toNat) (hend : va.toNat + size.toNat < 2 ^ 39)
    (hfuel : pagesOf size.toNat + 2 ≤ fuel)
    (hcost : 2 * ((va.toNat + size.toNat + pgsize) / 2 ^ 21 - va.toNat / 2 ^ 21) + 2 ≤ cost)
    (hroom : cost ≤ free.length) :
    ∃ m' place' free', m.mapRegion fuel root va pa size perm = some m' ∧
      PageTree m' root place' free' ∧ free.length ≤ free'.length + cost := by
  have hlast := last_toNat hva hsize hend
  have hle : (pgroundup (va + size - 1)).toNat ≤ va.toNat + size.toNat + pgsize := by
    rw [hlast]
    simp only [pagesOf, pgsize]
    omega
  have hdiv := Nat.div_le_div_right (c := 2 ^ 21) hle
  have hmissing : tablesMissing m root va ≤ 2 := tablesMissing_le
  have hturns : pagesOf (size.toNat - 1) ≤ pagesOf size.toNat := by
    simp only [pagesOf, pgsize]
    omega
  obtain ⟨m', place', free', hrun, h', hleft⟩ := h.mapPages_room pa hlast
    (by simp only [pgsize] at hle ⊢; omega) (show pagesOf (size.toNat - 1) + 2 ≤ fuel by omega)
    (show _ ≤ free.length by omega)
  refine ⟨m', place', free', ?_, h', by omega⟩
  rw [Phys.mapRegion, pggrounddown_aligned hva]
  exact hrun

/-- `kvminit` gets by with 200 pages. -/
theorem FreePages.kvminit_isSome (hfree : FreePages m₀ free₀) (hroom : 200 ≤ free₀.length)
    (hfuel : 40000 ≤ fuel) (trampoline : Word) : (m₀.kvminit fuel trampoline).isSome := by
  have hsome : free₀ ≠ [] := by
    rintro rfl
    simp at hroom
  obtain ⟨⟨pt, m₁⟩, h₁⟩ := Option.isSome_iff_exists.mp (hfree.createPagetable_isSome hsome)
  obtain ⟨_, free₁, t₁, l₁, -, -⟩ := hfree.createPagetable h₁
  obtain ⟨m₂, _, free₂, h₂, t₂, l₂⟩ := t₁.mapRegion_room 0x80200000 0x80200000
    (BitVec.ofNat 64 phystop - 0x80200000) (pteR ||| pteW ||| pteX) (by decide) (by decide)
    (by decide) (le_trans (by decide) hfuel) (show _ ≤ 130 by decide) (by omega)
  obtain ⟨⟨_, m₃⟩, h₃⟩ := Option.isSome_iff_exists.mp
    (t₂.mapPage_isSome 0x10000000 0x10000000 (pteR ||| pteW) (by omega))
  obtain ⟨-, _, free₃, t₃, ⟨l₃, -, -⟩, -⟩ := t₂.mapPage h₃
  obtain ⟨m₄, _, free₄, h₄, t₄, l₄⟩ := t₃.mapRegion_room 0x80000000 0x80000000 0x200000
    (pteR ||| pteX) (by decide) (by decide) (by decide) (le_trans (by decide) hfuel)
    (show _ ≤ 10 by decide) (by omega)
  obtain ⟨⟨_, m₅⟩, h₅⟩ := Option.isSome_iff_exists.mp
    (t₄.mapPage_isSome trampolineVa trampoline.toNat (pteR ||| pteX) (by omega))
  obtain ⟨-, _, free₅, t₅, ⟨l₅, -, -⟩, -⟩ := t₄.mapPage h₅
  obtain ⟨⟨_, m₆⟩, h₆⟩ := Option.isSome_iff_exists.mp
    (t₅.mapPage_isSome virtio0 virtio0.toNat (pteR ||| pteW) (by omega))
  simp only [Phys.kvminit, h₁, h₂, h₃, h₄, h₅, h₆, Option.bind_eq_bind, Option.bind_some]
  rfl

/-- The page table that `kvminit` is to make: RAM is readable, writable and executable, and above
it there is nothing but the trampoline. -/
structure KernelMapped (k : Phys) (pt : ℕ) : Prop where
  ram : ∀ x, 0x80200 ≤ x → x < phystop / pgsize → k.entryAt pt (vpns (pageVa x)) =
    some (paPte (x * pgsize) ||| (pteR ||| pteW ||| pteX) ||| pteV)
  above : ∀ x, phystop / pgsize ≤ x → x < 2 ^ 27 → x ≠ trampolineVa.toNat / pgsize →
    k.entryAt pt (vpns (pageVa x)) = none

/-- `map_region` maps exactly the region under the condition of `PageTree.regionMapped_iff`.  `kvminit`
never makes the page table it is to make: the first page of RAM cannot be written, and the page
above RAM is mapped. -/
theorem mapRegion_exact_iff {fuel₀ : ℕ} (h : PageTree m root place free) (hva : pgsize ∣ va.toNat)
    (hsize : 0 < size.toNat) (hend : va.toNat + size.toNat < 2 ^ 39)
    (hrun : m.mapRegion fuel root va pa size perm = some m') (hfree : FreePages m₀ free₀)
    (hkvm : m₀.kvminit fuel₀ trampoline = some (pt, k)) :
    (RegionMapped m m' root va pa size perm ↔ size.toNat % pgsize = 1 ∨
      askedEntry m root va pa size perm (pageAfter va size) =
        some (turnEntry pa perm (pagesOf size.toNat))) ∧
    k.entryAt pt (vpns (pageVa 0x80200)) = some (paPte 0x80200000 ||| (pteR ||| pteX) ||| pteV) ∧
    k.entryAt pt (vpns (pageVa 0x88000)) =
      some (paPte phystop ||| (pteR ||| pteW ||| pteX) ||| pteV) ∧
    ¬ KernelMapped k pt := by
  have hram := hfree.kvminit_entry hkvm (show 0x80200 < 2 ^ 27 by decide)
  have habove := hfree.kvminit_entry hkvm (show 0x88000 < 2 ^ 27 by decide)
  refine ⟨h.regionMapped_iff hva hsize hend hrun, hram, habove, fun hk => ?_⟩
  have hram' := hk.ram 0x80200 (by decide) (by decide)
  rw [hram] at hram'
  have hbits : paPte 0x80200000 ||| (pteR ||| pteX) ||| pteV ≠
      paPte (0x80200 * pgsize) ||| (pteR ||| pteW ||| pteX) ||| pteV := by decide
  exact hbits (Option.some.inj hram')

end

/-- The memory that `pmm_init` leaves behind for a kernel that ends at 0x80200000. -/
def bareMemory : Phys := ({} : Phys).pmmInit 0x80200000

theorem bareMemory_free : ∃ free, FreePages bareMemory free ∧ 200 ≤ free.length := by
  have hempty : FreePages {} [] := ⟨.nil, fun _ hq => absurd hq List.not_mem_nil⟩
  obtain ⟨free, hfree, hlen, -⟩ := hempty.freeRange (show pgsize ∣ 0x80200000 by decide) (by decide)
    (show 0x80200000 + 32256 * pgsize ≤ 2 ^ 64 by decide) (fun _ hq => absurd hq List.not_mem_nil)
  exact ⟨free, hfree, by rw [hlen]; decide⟩

/-- One byte is mapped, and the kernel's page table is made. -/
theorem mapRegion_exact_byte : ∃ root m m' pt k, fourPages.createPagetable = some (root, m) ∧
    m.mapRegion 2 root 0 0x80000000 1 pteR = some m' ∧
    bareMemory.kvminit 40000 0x80001000 = some (pt, k) ∧
    RegionMapped m m' root 0 0x80000000 1 pteR ∧ ¬ KernelMapped k pt := by
  obtain ⟨free, hfree, -⟩ := fourPages_free
  obtain ⟨⟨root, m⟩, hm⟩ := Option.isSome_iff_exists.mp
    (show fourPages.createPagetable.isSome by decide +kernel)
  have hrun : ((fourPages.createPagetable).bind fun r =>
      r.2.mapRegion 2 r.1 0 0x80000000 1 pteR).isSome := by
    decide +kernel
  rw [hm, Option.bind_some] at hrun
  obtain ⟨m', hm'⟩ := Option.isSome_iff_exists.mp hrun
  obtain ⟨place, free', htree, -⟩ := hfree.createPagetable hm
  obtain ⟨bare, hbare, hroom⟩ := bareMemory_free
  obtain ⟨⟨pt, k⟩, hk⟩ := Option.isSome_iff_exists.mp
    (hbare.kvminit_isSome hroom (Nat.le_refl 40000) 0x80001000)
  obtain ⟨hregion, -, -, hkernel⟩ := mapRegion_exact_iff htree (by decide) (by decide) (by decide) hm'
    hbare hk
  exact ⟨root, m, m', pt, k, hm, hm', hk, hregion.mpr (.inl (by decide)), hkernel⟩

/-- Page 0 is to be mapped, and page 1 is mapped as well. -/
theorem mapRegion_maps_next : ∃ root m m', fourPages.createPagetable = some (root, m) ∧
    m.mapRegion 3 root 0 0x80000000 4096 pteR = some m' ∧
    m'.entryAt root (vpns (pageVa 1)) = some (paPte 0x80001000 ||| pteR ||| pteV) ∧
    ¬ RegionMapped m m' root 0 0x80000000 4096 pteR := by
  obtain ⟨⟨root, m⟩, hm⟩ := Option.isSome_iff_exists.mp
    (show fourPages.createPagetable.isSome by decide +kernel)
  have hafter : ((fourPages.createPagetable).bind fun r =>
      (r.2.mapRegion 3 r.1 0 0x80000000 4096 pteR).bind fun m' =>
        m'.entryAt r.1 (vpns (pageVa 1))) = some (paPte 0x80001000 ||| pteR ||| pteV) := by
    decide +kernel
  rw [hm, Option.bind_some] at hafter
  obtain ⟨m', hm', hentry⟩ := Option.bind_eq_some_iff.mp hafter
  refine ⟨root, m, m', hm, hm', hentry, fun hmapped => ?_⟩
  -- nothing was mapped there, and nothing should be
  have hasked := hmapped 1 (by decide)
  rw [askedEntry, if_neg (by decide), Phys.createPagetable_entry hm rfl, hentry] at hasked
  cases hasked

end RiscvOs
