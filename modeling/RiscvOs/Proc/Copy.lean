import Mathlib.Data.Finset.Union
import RiscvOs.Vm.Tables
import RiscvOs.Proc.Size

/-!
# What `fork` copies, and what it takes

The loop of `fork` goes through the pages below `sz` (`copied`).  Each of them is mapped in
the child, with the bytes it has in the parent (`PagesCopied`), and takes one page, and one more
for every page table that is missing on the way (`needs`).  If there are not as many free
pages the loop does not end well: it gives up, or follows a null pointer
(`Owned.copyPages_exact`).
-/

namespace RiscvOs

open LinkedList Procs

variable {lay : Layout} {kend : ℕ} {own own' : ℕ → Option Role} {m m' m'' : Phys} {free : List ℕ}
  {p c : Fin nproc} {parent child root : ℕ} {path : List (Fin 512)} {sz va w : Word} {n v : ℕ}

/-- The pages that the parent has mapped, of the `n` pages from page `v` on. -/
def copiedFrom (m : Phys) (parent v n : ℕ) : List Word :=
  ((List.range' v n).map pageVa).filter fun va => (m.entryAt parent (vpns va)).isSome

/-- The pages below `sz` that the parent has mapped. -/
def copied (m : Phys) (parent : ℕ) (sz : Word) : List Word :=
  copiedFrom m parent 0 (pagesOf sz.toNat)

/-- The tables on the way to these addresses. -/
def tablesOf (vas : List Word) : Finset (List (Fin 512)) := vas.toFinset.biUnion Owned.tablesTo

/-- The pages it takes to map these addresses in the page table at `root`. -/
def needs (m : Phys) (root : ℕ) (vas : List Word) : ℕ :=
  vas.length + ((tablesOf vas).filter fun q => m.tableAt root q = none).card

theorem copiedFrom_zero : copiedFrom m parent v 0 = [] := rfl

theorem copiedFrom_succ : copiedFrom m parent v (n + 1) =
    if (m.entryAt parent (vpns (pageVa v))).isSome then pageVa v :: copiedFrom m parent (v + 1) n
    else copiedFrom m parent (v + 1) n := by
  rw [copiedFrom, List.range'_succ, List.map_cons, List.filter_cons]
  rfl

theorem copiedFrom_congr (h : ∀ va, m'.entryAt parent (vpns va) = m.entryAt parent (vpns va)) :
    copiedFrom m' parent v n = copiedFrom m parent v n := by
  simp only [copiedFrom, h]

theorem mem_copied : va ∈ copied m parent sz ↔
    (∃ v < pagesOf sz.toNat, pageVa v = va) ∧ (m.entryAt parent (vpns va)).isSome := by
  simp [copied, copiedFrom, ← List.range_eq_range']

theorem length_tablesOf {vas : List Word} (h : path ∈ tablesOf vas) : path.length ≤ 2 := by
  obtain ⟨va, -, hpath⟩ := Finset.mem_biUnion.mp h
  exact Owned.length_tablesTo hpath

theorem tablesOf_cons (vas : List Word) :
    tablesOf (va :: vas) = Owned.tablesTo va ∪ tablesOf vas := by
  rw [tablesOf, List.toFinset_cons, Finset.biUnion_insert]
  rfl

theorem needs_nil : needs m root [] = 0 := rfl

/-- What is needed before an address is mapped, and after. -/
theorem needs_cons {i : Fin nproc} {vas : List Word} (h : MappedAt own i root va w m m') :
    needs m root (va :: vas) = 1 + Owned.missing m root va + needs m' root vas := by
  have hnone : ∀ q ∈ tablesOf vas,
      (m'.tableAt root q = none ↔ m.tableAt root q = none ∧ q ∉ Owned.tablesTo va) := by
    intro q hq
    have hiff := h.new q (length_tablesOf hq)
    rw [← Option.not_isSome_iff_eq_none, hiff, not_or, Option.not_isSome_iff_eq_none]
  have hsplit : (tablesOf (va :: vas)).filter (fun q => m.tableAt root q = none) =
      (Owned.tablesTo va).filter (fun q => m.tableAt root q = none) ∪
        (tablesOf vas).filter fun q => m'.tableAt root q = none := by
    ext q
    rw [tablesOf_cons, Finset.mem_filter, Finset.mem_union, Finset.mem_union, Finset.mem_filter,
      Finset.mem_filter]
    constructor
    · rintro ⟨hq, hmissing⟩
      by_cases hva : q ∈ Owned.tablesTo va
      · exact .inl ⟨hva, hmissing⟩
      · have hq' := hq.resolve_left hva
        exact .inr ⟨hq', (hnone q hq').mpr ⟨hmissing, hva⟩⟩
    · rintro (⟨hva, hmissing⟩ | ⟨hq, hmissing⟩)
      · exact ⟨.inl hva, hmissing⟩
      · exact ⟨.inr hq, ((hnone q hq).mp hmissing).1⟩
  have hdisjoint : Disjoint ((Owned.tablesTo va).filter fun q => m.tableAt root q = none)
      ((tablesOf vas).filter fun q => m'.tableAt root q = none) := by
    refine Finset.disjoint_left.mpr fun q hva hq => ?_
    rw [Finset.mem_filter] at hva hq
    exact ((hnone q hq.1).mp hq.2).2 hva.1
  rw [needs, hsplit, Finset.card_union_of_disjoint hdisjoint, needs, Owned.missing,
    List.length_cons]
  omega

/-- The first address alone. -/
theorem needs_ge (va : Word) (vas : List Word) :
    1 + Owned.missing m root va ≤ needs m root (va :: vas) := by
  have hsub : (Owned.tablesTo va).filter (fun q => m.tableAt root q = none) ⊆
      (tablesOf (va :: vas)).filter fun q => m.tableAt root q = none := by
    rw [tablesOf_cons]
    exact Finset.filter_subset_filter _ Finset.subset_union_left
  have hcard := Finset.card_le_card hsub
  rw [needs, Owned.missing, List.length_cons]
  omega

theorem Owned.missing_congr (h : ∀ q, q.length ≤ 2 → m'.tableAt root q = m.tableAt root q) :
    missing m' root va = missing m root va := by
  rw [missing, missing]
  congr 1
  refine Finset.filter_congr fun q hq => ?_
  rw [h q (length_tablesTo hq)]

/-- The bits of the entries that `fork` and `sbrk` make. -/
abbrev permAll : Word := pteR ||| pteW ||| pteX ||| pteU

/-- The pages `vas` of the parent have been copied to the child. -/
structure PagesCopied (own : ℕ → Option Role) (c : Fin nproc) (parent child : ℕ) (vas : List Word)
    (m m' : Phys) : Prop where
  entry : ∀ va ∈ vas, ∃ w mem, m.entryAt parent (vpns va) = some w ∧
    m'.entryAt child (vpns va) = some (paPte mem ||| permAll ||| pteV) ∧
    ptePa (paPte mem ||| permAll ||| pteV) = mem ∧ m'.page mem = m.page (ptePa w)
  other : ∀ path, path.length = 3 → (∀ va ∈ vas, vpns va ≠ path) →
    m'.entryAt child path = m.entryAt child path
  spares : Spares own c m m'

namespace Owned

/-- An entry leads to a user page, a trapframe or a page of the kernel. -/
theorem entryAt_spared {i : Fin nproc} (h : Owned kend own m free)
    (hroot : own root = some (.table i [])) (hlen : path.length = 3)
    (hw : m.entryAt root path = some w) :
    own (ptePa w) ≠ some .free ∧ ∀ j path', own (ptePa w) ≠ some (.table j path') := by
  obtain ⟨k, path, rfl⟩ := List.exists_cons_of_length_eq_add_one hlen
  rw [List.length_cons] at hlen
  obtain ⟨pt, hpt, hw⟩ := Option.bind_eq_some_iff.mp hw
  have hown := h.tableAt hroot (by omega) hpt
  by_cases hv : m.page pt k &&& pteV = 0
  · rw [if_pos hv] at hw
    exact nomatch hw
  rw [if_neg hv] at hw
  obtain rfl := Option.some.inj hw
  by_cases hu : m.page pt k &&& pteU = 0
  · rcases h.kernel pt i path k hown (by omega) hv hu with hlt | hframe
    · have hnone : own (ptePa (m.page pt k)) = none := by
        cases hrole : own (ptePa (m.page pt k)) with
        | none => rfl
        | some r => exact absurd (h.range _ _ hrole).lower (by omega)
      simp [hnone]
    · simp [hframe]
  · simp [h.user pt i path k hown (by omega) hv hu]

/-- An entry with the bit of the user leads to a user page. -/
theorem entryAt_user {i : Fin nproc} (h : Owned kend own m free)
    (hroot : own root = some (.table i [])) (hlen : path.length = 3)
    (hw : m.entryAt root path = some w) (hu : w &&& pteU ≠ 0) :
    own (ptePa w) = some (.user i path) := by
  obtain ⟨k, path, rfl⟩ := List.exists_cons_of_length_eq_add_one hlen
  rw [List.length_cons] at hlen
  obtain ⟨pt, hpt, hw⟩ := Option.bind_eq_some_iff.mp hw
  have hown := h.tableAt hroot (by omega) hpt
  by_cases hv : m.page pt k &&& pteV = 0
  · rw [if_pos hv] at hw
    exact nomatch hw
  rw [if_neg hv] at hw
  obtain rfl := Option.some.inj hw
  exact h.user pt i path k hown (by omega) hv hu

/-- The page table of another slot is spared. -/
theorem entryAt_spares {i : Fin nproc} (h : Owned kend own m free)
    (hroot : own root = some (.table i [])) (hne : i ≠ c) (hspares : Spares own c m m')
    (hlen : path.length ≤ 3) : m'.entryAt root path = m.entryAt root path := by
  refine h.entryAt_congr hroot (fun q path hq => hspares q (by simp [hq]) fun path' hq' => ?_) hlen
  rw [hq] at hq'
  cases hq'
  exact hne rfl

theorem entry_pteU_ne (pa : ℕ) : (paPte pa ||| permAll ||| pteV) &&& pteU ≠ 0 := by
  rw [BitVec.and_or_distrib_right, BitVec.and_or_distrib_right]
  intro h
  have hperm := (BitVec.or_eq_zero_iff.mp (BitVec.or_eq_zero_iff.mp h).1).2
  exact absurd hperm (by decide)

/-- A page is taken for a copy and mapped, if there are enough pages. -/
theorem copyPage_exact (h : Owned kend own m free) (va : Word) (hk : 0 < kend)
    (hchild : own child = some (.table c [])) (content : Page) :
    (∃ mem m₁ m₂ own₂ free₂, m.allocPage = (mem, m₁) ∧ mem ≠ 0 ∧ m₁.page = m.page ∧
      (m₁.fill mem content).mapPage child va mem permAll = some (0, m₂) ∧
      Owned kend own₂ m₂ free₂ ∧ Extends own own₂ ∧ own₂ mem = some (.user c (vpns va)) ∧
      ptePa (paPte mem ||| permAll ||| pteV) = mem ∧ m₂.page mem = content ∧
      MappedAt own c child va (paPte mem ||| permAll ||| pteV) m m₂ ∧
      free.length = free₂.length + 1 + missing m child va) ∨
    free.length < 1 + missing m child va ∧ (m.allocPage.1 = 0 ∨ ∃ mem m₁, m.allocPage = (mem, m₁) ∧
      mem ≠ 0 ∧ m₁.page = m.page ∧ (m₁.fill mem content).mapPage child va mem permAll = none) := by
  cases free with
  | nil =>
    refine .inr ⟨by rw [List.length_nil]; omega, .inl ?_⟩
    rw [h.allocPage_empty]
  | cons mem free =>
    obtain ⟨m₁, halloc, hmem, hfree, hpage, h₁⟩ := h.allocPage_cons hk
    have hext : Extends own (Function.update own mem (some .taken)) := extends_update hfree
    have hchild₁ := hext.of_role hchild (by simp)
    have h₂ := h₁.fill (show Function.update own mem (some .taken) mem ≠ some .free by simp)
      (by simp) content
    have hsame : ∀ q path', own q = some (.table c path') →
        (m₁.fill mem content).page q = m.page q := by
      intro q path' hq
      have hne : q ≠ mem := by
        rintro rfl
        rw [hq] at hfree
        exact nomatch hfree
      simp [Phys.fill, hne, hpage]
    have htables : ∀ q, q.length ≤ 2 →
        (m₁.fill mem content).tableAt child q = m.tableAt child q := fun q hq =>
      h.tableAt_congr hchild hsame (by omega)
    have hmissing : missing (m₁.fill mem content) child va = missing m child va :=
      missing_congr htables
    rcases h₂.mapPage_at va mem permAll hk hchild₁ with
      ⟨m₂, pages, hmap, hmapped, hchain, hcount⟩ | ⟨hmap, hshort⟩
    · obtain ⟨-, own₂, free₂, h₃, hext₂⟩ :=
        h.addPage hk hchild halloc hmem content (by decide) (by decide) hmap
      have hchild₂ := hext₂.of_role hchild (by simp)
      have hpte : ptePa (paPte mem ||| permAll ||| pteV) = mem := by
        rw [BitVec.or_assoc]
        exact (h.range _ _ hfree).ptePa (by decide)
      have huser := h₃.entryAt_user hchild₂ (by simp [vpns]) hmapped.entry (entry_pteU_ne mem)
      rw [hpte] at huser
      refine .inl ⟨mem, m₁, m₂, own₂, free₂, halloc, hmem, hpage, hmap, h₃, hext₂, huser, hpte, ?_,
        ⟨fun path pt hlen hpt => ?_, fun path hlen => ?_, hmapped.entry, fun path hlen hne => ?_,
          fun q hq htab => ?_⟩, ?_⟩
      · rw [hmapped.spares mem (by simp) (by simp)]
        simp [Phys.fill]
      · exact hmapped.kept path pt hlen ((htables path hlen).trans hpt)
      · rw [hmapped.new path hlen, htables path hlen]
      · rw [hmapped.other path hlen hne, h.entryAt_congr hchild hsame (by omega)]
      · have hne : q ≠ mem := by
          rintro rfl
          exact hq hfree
        have hq' := hext q hq
        rw [hmapped.spares q (by rwa [hq']) (by rwa [hq'])]
        simp [Phys.fill, hne, hpage]
      · rw [List.length_cons, hcount, hmissing, h₃.chain.unique hchain]
        omega
    · rw [hmissing] at hshort
      exact .inr ⟨by rw [List.length_cons]; omega, .inr ⟨mem, m₁, halloc, hmem, hpage, hmap⟩⟩

/-- A page has been copied and mapped, and then the rest. -/
theorem copied_cons {va w : Word} {mem : ℕ} {vas : List Word} (h : Owned kend own m free)
    (hparent : own parent = some (.table p [])) (hpc : p ≠ c) (hext : Extends own own')
    (hw : m.entryAt parent (vpns va) = some w) (huser : own' mem = some (.user c (vpns va)))
    (hpte : ptePa (paPte mem ||| permAll ||| pteV) = mem) (hcopy : m'.page mem = m.page (ptePa w))
    (hmapped : MappedAt own c child va (paPte mem ||| permAll ||| pteV) m m')
    (hrest : PagesCopied own' c parent child vas m' m'') :
    PagesCopied own c parent child (va :: vas) m m'' := by
  have hsame : ∀ va, m'.entryAt parent (vpns va) = m.entryAt parent (vpns va) := fun va =>
    h.entryAt_spares hparent hpc hmapped.spares (by simp [vpns])
  refine ⟨fun va' hva' => ?_, fun path hlen hne => ?_, hmapped.spares.trans hext hrest.spares⟩
  · by_cases hlater : ∃ va'' ∈ vas, vpns va'' = vpns va'
    · -- the entry has been set again
      obtain ⟨va'', hmem, hpath⟩ := hlater
      obtain ⟨w', mem', hw', hentry, hpte', hpage⟩ := hrest.entry va'' hmem
      rw [hpath] at hw' hentry
      rw [hsame] at hw'
      obtain ⟨hfree, htable⟩ := h.entryAt_spared hparent (by simp [vpns]) hw'
      refine ⟨w', mem', hw', hentry, hpte', hpage.trans (hmapped.spares _ hfree fun path => ?_)⟩
      exact htable c path
    · have hne : ∀ va'' ∈ vas, vpns va'' ≠ vpns va' := fun va'' hmem hpath =>
        hlater ⟨va'', hmem, hpath⟩
      obtain rfl : va' = va := by
        rcases List.mem_cons.mp hva' with heq | hmem
        · exact heq
        · exact absurd rfl (hne va' hmem)
      refine ⟨w, mem, hw, ?_, hpte, ?_⟩
      · rw [hrest.other _ (by simp [vpns]) hne, hmapped.entry]
      · rw [hrest.spares mem (by simp [huser]) (by simp [huser]), hcopy]
  · rw [hrest.other path hlen fun va' hva' => hne va' (List.mem_cons_of_mem _ hva'),
      hmapped.other path hlen fun hpath => hne va List.mem_cons_self hpath.symm]

theorem copied_nil (m : Phys) : PagesCopied own c parent child [] m m :=
  ⟨fun _ h => absurd h List.not_mem_nil, fun _ _ _ => rfl, .refl m⟩

end Owned

/-! ## One turn of the loop -/

namespace Procs

variable {fuel mem : ℕ} {m₁ m₂ : Phys}

theorem copyPages_done (hlt : ¬ va < sz) :
    copyPages parent child sz (fuel + 1) va m = some (true, m) := by
  rw [copyPages, if_neg hlt]

/-- A page that the parent does not have is left out. -/
theorem copyPages_skip (hlt : va < sz) (hentry : m.entryAt parent (vpns va) = none) :
    copyPages parent child sz (fuel + 1) va m = copyPages parent child sz fuel (va + 4096) m := by
  rw [copyPages, if_pos hlt]
  cases hpte : (m.walkLookup parent va).map fun table => m.page table (vpn va 0) with
  | none => rfl
  | some pte =>
    refine if_neg fun hv => ?_
    rw [(m.leaf_eq parent va pte).mpr ⟨hpte, hv⟩] at hentry
    exact nomatch hentry

/-- No page is free. -/
theorem copyPages_full (hlt : va < sz) (hentry : m.entryAt parent (vpns va) = some w)
    (halloc : m.allocPage.1 = 0) :
    copyPages parent child sz (fuel + 1) va m = some (false, m.allocPage.2) := by
  obtain ⟨hpte, hv⟩ := (m.leaf_eq parent va w).mp hentry
  rw [Phys.leaf] at hpte
  rw [copyPages, if_pos hlt, hpte]
  simp only [ne_eq, hv, not_false_eq_true, if_true, halloc]
  rfl

/-- A null pointer is followed. -/
theorem copyPages_null (hlt : va < sz) (hentry : m.entryAt parent (vpns va) = some w)
    (halloc : m.allocPage = (mem, m₁)) (hmem : mem ≠ 0) (hpage : m₁.page = m.page)
    (hmap : (m₁.fill mem (m.page (ptePa w))).mapPage child va mem permAll = none) :
    copyPages parent child sz (fuel + 1) va m = none := by
  obtain ⟨hpte, hv⟩ := (m.leaf_eq parent va w).mp hentry
  rw [Phys.leaf] at hpte
  rw [copyPages, if_pos hlt, hpte]
  simp only [ne_eq, hv, not_false_eq_true, if_true, halloc, hmem, if_false, hpage, hmap]
  rfl

/-- A page is copied and mapped. -/
theorem copyPages_copy (hlt : va < sz) (hentry : m.entryAt parent (vpns va) = some w)
    (halloc : m.allocPage = (mem, m₁)) (hmem : mem ≠ 0) (hpage : m₁.page = m.page)
    (hmap : (m₁.fill mem (m.page (ptePa w))).mapPage child va mem permAll = some (0, m₂)) :
    copyPages parent child sz (fuel + 1) va m = copyPages parent child sz fuel (va + 4096) m₂ := by
  obtain ⟨hpte, hv⟩ := (m.leaf_eq parent va w).mp hentry
  rw [Phys.leaf] at hpte
  rw [copyPages, if_pos hlt, hpte]
  simp only [ne_eq, hv, not_false_eq_true, if_true, halloc, hmem, if_false, hpage, hmap]
  rfl

/-- A loop that is let run longer ends the same way. -/
theorem copyPages_mono {fuel' : ℕ} {r : Bool × Phys} (hle : fuel ≤ fuel')
    (h : copyPages parent child sz fuel va m = some r) :
    copyPages parent child sz fuel' va m = some r := by
  induction fuel generalizing va m fuel' with
  | zero => exact nomatch h
  | succ fuel ih =>
    obtain ⟨fuel', rfl⟩ : ∃ k, fuel' = k + 1 := ⟨fuel' - 1, by omega⟩
    by_cases hlt : va < sz
    · cases hentry : m.entryAt parent (vpns va) with
      | none =>
        rw [copyPages_skip hlt hentry] at h ⊢
        exact ih (by omega) h
      | some w =>
        rcases halloc : m.allocPage with ⟨mem, m₁⟩
        by_cases hmem : mem = 0
        · have hzero : m.allocPage.1 = 0 := by rw [halloc, hmem]
          rw [copyPages_full hlt hentry hzero] at h ⊢
          exact h
        · have hpage := Phys.allocPage_page halloc
          cases hmap : (m₁.fill mem (m.page (ptePa w))).mapPage child va mem permAll with
          | none =>
            rw [copyPages_null hlt hentry halloc hmem hpage hmap] at h
            exact nomatch h
          | some result =>
            obtain ⟨ret, m₂⟩ := result
            obtain ⟨hpte, hv⟩ := (m.leaf_eq parent va w).mp hentry
            rw [Phys.leaf] at hpte
            rw [copyPages, if_pos hlt, hpte] at h ⊢
            simp only [ne_eq, hv, not_false_eq_true, if_true, halloc, hmem, if_false, hpage,
              Option.bind_eq_bind] at h ⊢
            rw [hmap, Option.bind_some] at h ⊢
            by_cases hret : ret < 0
            · simp only [hret, if_true] at h ⊢
              exact h
            · simp only [hret, if_false] at h ⊢
              exact ih (by omega) h
    · rw [copyPages_done hlt] at h ⊢
      exact h

end Procs

namespace Owned

/-- The loop of `fork` copies the pages below `sz` if there are enough free pages for them, and
does not come to its end otherwise. -/
theorem copyPages_exact {fuel : ℕ} (h : Owned kend own m free) (hk : 0 < kend)
    (hparent : own parent = some (.table p [])) (hchild : own child = some (.table c []))
    (hpc : p ≠ c) (hn : v + n = pagesOf sz.toNat) (hsz : sz.toNat ≤ 2 ^ 64 - 4096)
    (hfuel : n < fuel) :
    (∃ m' own' pages, Procs.copyPages parent child sz fuel (pageVa v) m = some (true, m') ∧
      Owned kend own' m' pages ∧ Extends own own' ∧
      PagesCopied own c parent child (copiedFrom m parent v n) m m' ∧
      free.length = pages.length + needs m child (copiedFrom m parent v n)) ∨
    free.length < needs m child (copiedFrom m parent v n) ∧
      ∀ m', Procs.copyPages parent child sz fuel (pageVa v) m ≠ some (true, m') := by
  have hva : (pageVa v).toNat = v * pgsize := by
    simp only [pagesOf, pgsize] at hn
    simp only [pageVa, pgsize, BitVec.toNat_ofNat]
    omega
  induction n generalizing own m free v fuel with
  | zero =>
    obtain ⟨fuel, rfl⟩ : ∃ k, fuel = k + 1 := ⟨fuel - 1, by omega⟩
    have hdone : ¬ pageVa v < sz := by
      rw [BitVec.lt_def, hva]
      simp only [pagesOf, pgsize] at hn ⊢
      omega
    refine .inl ⟨m, own, free, copyPages_done hdone, h, .refl own, copied_nil m, ?_⟩
    rw [copiedFrom_zero, needs_nil, Nat.add_zero]
  | succ n ih =>
    obtain ⟨fuel, rfl⟩ : ∃ k, fuel = k + 1 := ⟨fuel - 1, by omega⟩
    have hlt : pageVa v < sz := by
      rw [BitVec.lt_def, hva]
      simp only [pagesOf, pgsize] at hn ⊢
      omega
    have hva' : (pageVa (v + 1)).toNat = (v + 1) * pgsize := by
      simp only [pagesOf, pgsize] at hn
      simp only [pageVa, pgsize, BitVec.toNat_ofNat]
      omega
    have hfuel' : n < fuel := by omega
    rw [copiedFrom_succ]
    cases hentry : m.entryAt parent (vpns (pageVa v)) with
    | none =>
      rw [copyPages_skip hlt hentry, pageVa_succ, Option.isSome_none, if_neg (by decide)]
      exact ih h hparent hchild (by omega) hfuel' hva'
    | some w =>
      rw [Option.isSome_some, if_pos rfl]
      rcases h.copyPage_exact (pageVa v) hk hchild (m.page (ptePa w)) with
        ⟨mem, m₁, m₂, own₂, free₂, halloc, hmem, hpage, hmap, h₂, hext, huser, hpa, hcopy, hmapped,
          hcount⟩ | ⟨hshort, hfail⟩
      · have hvas : copiedFrom m₂ parent (v + 1) n = copiedFrom m parent (v + 1) n :=
          copiedFrom_congr fun va =>
            h.entryAt_spares hparent hpc hmapped.spares (by simp [vpns])
        rw [copyPages_copy hlt hentry halloc hmem hpage hmap, pageVa_succ, needs_cons hmapped, ← hvas]
        rcases ih h₂ (hext.of_role hparent (by simp)) (hext.of_role hchild (by simp)) (by omega)
            hfuel' hva' with
          ⟨m₃, own₃, pages, hrest, h₃, hext₃, hcopied, hcount₃⟩ | ⟨hshort, hfail⟩
        · exact .inl ⟨m₃, own₃, pages, hrest, h₃, hext.trans hext₃,
            h.copied_cons hparent hpc hext hentry huser hpa hcopy hmapped hcopied, by omega⟩
        · exact .inr ⟨by omega, hfail⟩
      · refine .inr ⟨Nat.lt_of_lt_of_le hshort (needs_ge (pageVa v) _), fun m' => ?_⟩
        rcases hfail with halloc | ⟨mem, m₁, halloc, hmem, hpage, hmap⟩
        · rw [copyPages_full hlt hentry halloc]
          exact fun hc => by cases hc
        · rw [copyPages_null hlt hentry halloc hmem hpage hmap]
          exact fun hnot => by cases hnot

end Owned

end RiscvOs
