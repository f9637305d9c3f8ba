import RiscvOs.Proc.Isolation

/-!
# What `sbrk` maps over

`sbrk` maps the pages from the end of the process on, and `map_page` overwrites what it
finds.  Which of these pages are mapped already?

* A shrinking `sbrk` lowers the size and leaves the pages mapped, and so does a growing one
  that runs out of memory after it has mapped some.
* The pages a process has mapped are always the first ones (`Stacked`), so it is enough to
  look at the first page that would be mapped.

`sbrk_keeps` is exact for every call in every run.  In the runs in which no `sbrk` gives a
page back or stops half-way, the pages that are mapped are those below the size, and no
call maps over one.
-/

namespace RiscvOs

open LinkedList Procs

variable {lay : Layout} {kend : ℕ} {own own' : ℕ → Option Role} {m m' m'' : Phys} {free : List ℕ}
  {i p c : Fin nproc} {pt root : ℕ} {path : List (Fin 512)} {va : Word} {n v k fuel : ℕ}

/-- The addresses that the loop of `sbrk` maps, from `a` on. -/
def grownPages (pt : ℕ) (newsz : Word) : ℕ → Word → Phys → List Word
  | 0, _, _ => []
  | fuel + 1, a, m =>
    if a < newsz then
      let (mem, m) := m.allocPage
      if mem = 0 then []
      else
        match (m.fill mem fun _ => 0).mapPage pt a mem permAll with
        | some (r, m) => if r < 0 then [] else a :: grownPages pt newsz fuel (a + 4096) m
        | none => []
    else []

/-- The addresses that `sbrk(n)` of the process `p` maps. -/
def sbrkMaps (s : Procs) (p : Fin nproc) (n : ℤ) (fuel : ℕ) : List Word :=
  if n > 0 then grownPages (s.proc p).pagetable ((s.proc p).sz + BitVec.ofInt 64 n) fuel
    (pgroundup (s.proc p).sz) s.phys
  else []

/-- `sbrk` maps over nothing: what it maps was not mapped, what was mapped still is, with the same
contents, and after a growth every page below the size is mapped for the user. -/
structure SbrkKeeps (s s' : Procs) (p : Fin nproc) (n : ℤ) (fuel : ℕ) (r : Word) : Prop where
  fresh : ∀ va ∈ sbrkMaps s p n fuel, ∀ w, ¬ s.phys.Present (s.proc p).pagetable va w
  kept : ∀ va w, s.phys.Present (s.proc p).pagetable va w →
    s'.phys.Present (s'.proc p).pagetable va w ∧ s'.phys.page (ptePa w) = s.phys.page (ptePa w)
  mapped : 0 < n → r ≠ -1 → Mapped s'.phys (s'.proc p).pagetable (s'.proc p).sz.toNat

/-- The first page that a growing `sbrk` maps. -/
def firstPage (s : Procs) (p : Fin nproc) : Word := pageVa (pagesOf (s.proc p).sz.toNat)

/-- `sbrk(n)` of the process `p` finds nothing mapped at the first page, or does not get as far as to
map a page: there is none above the old size, or no page is free. -/
def MapsNothingOver (s : Procs) (p : Fin nproc) (n : ℤ) : Prop :=
  (∀ w, ¬ s.phys.Present (s.proc p).pagetable (firstPage s p) w) ∨
    pagesOf ((s.proc p).sz + BitVec.ofInt 64 n).toNat ≤ pagesOf (s.proc p).sz.toNat ∨
      s.phys.freelist = 0

/-- `sbrk` of the event gives no page back, and finds all the pages it needs, or none at all. -/
def KeepsPages (s : Procs) (e : Procs.Event) : Prop :=
  ∀ p n fuel, s.cur = some p → e = .call (.sbrk n fuel) →
    let old := pagesOf (s.proc p).sz.toNat
    let new := pagesOf ((s.proc p).sz + BitVec.ofInt 64 n).toNat
    old ≤ new ∧ (s.phys.freelist = 0 ∨
      HasFree s (needs s.phys (s.proc p).pagetable ((List.range' old (new - old)).map pageVa)))

/-! ## The loop -/

/-- The pages from `v` to `v + k` have been mapped in the page table at `pt` of slot `i`. -/
structure PagesGrown (own : ℕ → Option Role) (i : Fin nproc) (pt v k : ℕ) (m m' : Phys) :
    Prop where
  entry : ∀ u, v ≤ u → u < v + k → ∃ mem,
    m'.entryAt pt (vpns (pageVa u)) = some (paPte mem ||| permAll ||| pteV)
  other : ∀ path, path.length = 3 → (∀ u, v ≤ u → u < v + k → vpns (pageVa u) ≠ path) →
    m'.entryAt pt path = m.entryAt pt path
  spares : Spares own i m m'

theorem PagesGrown.refl (m : Phys) : PagesGrown own i pt v 0 m m where
  entry u hle hlt := absurd hlt (by omega)
  other _ _ _ := rfl
  spares := .refl m

/-- One page has been mapped, and then `k` more. -/
theorem PagesGrown.cons {mem : ℕ} (hext : Extends own own')
    (hmapped : MappedAt own i pt (pageVa v) (paPte mem ||| permAll ||| pteV) m m')
    (hrest : PagesGrown own' i pt (v + 1) k m' m'') : PagesGrown own i pt v (k + 1) m m'' where
  entry u hle hlt := by
    by_cases hlater : ∃ u', v + 1 ≤ u' ∧ u' < v + 1 + k ∧ vpns (pageVa u') = vpns (pageVa u)
    · obtain ⟨u', hle', hlt', hpath⟩ := hlater
      rw [← hpath]
      exact hrest.entry u' hle' hlt'
    · have hne : ∀ u', v + 1 ≤ u' → u' < v + 1 + k → vpns (pageVa u') ≠ vpns (pageVa u) :=
        fun u' hle' hlt' hpath => hlater ⟨u', hle', hlt', hpath⟩
      have huv : u = v := by
        by_contra huv
        exact hne u (by omega) (by omega) rfl
      rw [hrest.other _ (by simp [vpns]) hne, huv]
      exact ⟨mem, hmapped.entry⟩
  other path hlen hne := by
    rw [hrest.other path hlen fun u hle hlt => hne u (by omega) (by omega)]
    exact hmapped.other path hlen fun hpath => hne v (by omega) (by omega) hpath.symm
  spares := hmapped.spares.trans hext hrest.spares

namespace Procs

variable {mem : ℕ} {m₁ m₂ : Phys} {newsz a : Word}

/-- The loop is at its end. -/
theorem growPages_done (pt fuel : ℕ) (m : Phys) (hlt : ¬ a < newsz) :
    growPages pt newsz (fuel + 1) a m = some (true, m) ∧
      grownPages pt newsz (fuel + 1) a m = [] := by
  rw [growPages, grownPages, if_neg hlt, if_neg hlt]
  exact ⟨rfl, rfl⟩

/-- No page is left. -/
theorem growPages_full (pt fuel : ℕ) (hlt : a < newsz) (halloc : m.allocPage.1 = 0) :
    growPages pt newsz (fuel + 1) a m = some (false, m.allocPage.2) ∧
      grownPages pt newsz (fuel + 1) a m = [] := by
  rw [growPages, grownPages, if_pos hlt, if_pos hlt]
  simp [halloc]

/-- A page is mapped. -/
theorem growPages_next (fuel : ℕ) (hlt : a < newsz) (halloc : m.allocPage = (mem, m₁)) (hmem : mem ≠ 0)
    (hmap : (m₁.fill mem fun _ => 0).mapPage pt a mem permAll = some (0, m₂)) :
    growPages pt newsz (fuel + 1) a m = growPages pt newsz fuel (a + 4096) m₂ ∧
      grownPages pt newsz (fuel + 1) a m = a :: grownPages pt newsz fuel (a + 4096) m₂ := by
  rw [growPages, grownPages, if_pos hlt, if_pos hlt]
  simp only [halloc, hmem, if_false, hmap]
  exact ⟨rfl, rfl⟩

/-- A null pointer is followed. -/
theorem growPages_null (hlt : a < newsz) (halloc : m.allocPage = (mem, m₁)) (hmem : mem ≠ 0)
    (hmap : (m₁.fill mem fun _ => 0).mapPage pt a mem permAll = none) :
    growPages pt newsz (fuel + 1) a m = none := by
  rw [growPages, if_pos hlt]
  simp only [halloc, hmem, if_false, hmap]
  rfl

end Procs

/-- `alloc_page` returns the head of the free list. -/
theorem Phys.allocPage_fst (m : Phys) : m.allocPage.1 = m.freelist := by
  unfold Phys.allocPage
  split
  · next hnull => exact hnull.symm
  · rfl

/-- What a run of the loop has done: it has mapped `k` pages, all that were asked for if it has come
to its end. -/
structure LoopGrown (own : ℕ → Option Role) (i : Fin nproc) (pt : ℕ) (newsz : Word) (v fuel : ℕ)
    (m m' : Phys) (ok : Bool) (k : ℕ) : Prop where
  maps : grownPages pt newsz fuel (pageVa v) m = (List.range' v k).map pageVa
  grown : PagesGrown own i pt v k m m'
  all : ok = true → pagesOf newsz.toNat ≤ v + k
  below : k ≠ 0 → v + k ≤ pagesOf newsz.toNat
  /-- It maps no page if there is none to map, or none is free. -/
  none_iff : k = 0 ↔ pagesOf newsz.toNat ≤ v ∨ m.allocPage.1 = 0

/-- The address of a page below the end of the address space, and whether it is below a size. -/
theorem pageVa_lt_iff {newsz : Word} (hv : v * pgsize < 2 ^ 64) :
    pageVa v < newsz ↔ v < pagesOf newsz.toNat := by
  have hva : (pageVa v).toNat = v * pgsize := by
    rw [pageVa, BitVec.toNat_ofNat, Nat.mod_eq_of_lt hv]
  rw [BitVec.lt_def, hva]
  simp only [pagesOf, pgsize]
  omega

theorem lt_pagesOf {x : ℕ} (hv : v < pagesOf x) (hx : x + pgsize ≤ 2 ^ 64) :
    (v + 1) * pgsize < 2 ^ 64 := by
  simp only [pagesOf, pgsize] at hv hx ⊢
  omega

theorem Owned.growPages_run {newsz : Word} {ok : Bool} (h : Owned kend own m free) (hk : 0 < kend)
    (hpt : own pt = some (.table i [])) (hv : v * pgsize < 2 ^ 64)
    (hsz : newsz.toNat + pgsize ≤ 2 ^ 64)
    (hc : Procs.growPages pt newsz fuel (pageVa v) m = some (ok, m')) :
    ∃ k, LoopGrown own i pt newsz v fuel m m' ok k ∧
      (needs m pt ((List.range' v (pagesOf newsz.toNat - v)).map pageVa) ≤ free.length →
        ok = true) := by
  induction fuel generalizing own m free v with
  | zero => cases hc
  | succ fuel ih =>
      by_cases hlt : pageVa v < newsz
      · have hpages := (pageVa_lt_iff hv).mp hlt
        obtain ⟨n, hn⟩ : ∃ n, pagesOf newsz.toNat - v = n + 1 :=
          ⟨pagesOf newsz.toNat - v - 1, by omega⟩
        have hn' : pagesOf newsz.toNat - (v + 1) = n := by omega
        rcases h.copyPage_exact (pageVa v) hk hpt (fun _ => 0) with
          ⟨mem, m₁, m₂, own₂, free₂, halloc, hmem, -, hmap, h₂, hext, -, -, -, hmapped, hcount⟩ |
          ⟨hshort, hfail⟩
        · obtain ⟨hgrow, hmaps⟩ := growPages_next fuel hlt halloc hmem hmap
          rw [hgrow, pageVa_succ] at hc
          obtain ⟨k, hloop, henough⟩ := ih h₂ (hext.of_role hpt (by simp))
            (lt_pagesOf hpages hsz) hc
          refine ⟨k + 1, ⟨?_, .cons hext hmapped hloop.grown, ?_, ?_, ?_⟩, ?_⟩
          · rw [hmaps, pageVa_succ, hloop.maps, List.range'_succ, List.map_cons]
          · intro hok
            have := hloop.all hok
            omega
          · intro _
            by_cases hk0 : k = 0
            · omega
            · have := hloop.below hk0
              omega
          · constructor
            · intro hk0
              omega
            · rintro (hdone | hnone)
              · omega
              · rw [halloc] at hnone
                exact absurd hnone hmem
          · intro hneeds
            apply henough
            rw [hn, List.range'_succ, List.map_cons, needs_cons hmapped] at hneeds
            rw [hn']
            omega
        · rcases hfail with halloc | ⟨mem, m₁, halloc, hmem, -, hmap⟩
          · obtain ⟨hgrow, hmaps⟩ := growPages_full pt fuel hlt halloc
            rw [hgrow] at hc
            obtain ⟨rfl, hm'⟩ := Prod.mk.inj (Option.some.inj hc)
            have hsame : m' = m := by
              rw [← hm']
              exact allocPage_null (Prod.ext halloc rfl)
            subst hsame
            refine ⟨0, ⟨hmaps, .refl m', ?_, fun hk0 => absurd rfl hk0,
              iff_of_true rfl (.inr halloc)⟩, ?_⟩
            · intro hok
              cases hok
            · intro hneeds
              rw [hn, List.range'_succ, List.map_cons] at hneeds
              exact absurd hshort (not_lt.mpr ((needs_ge _ _).trans hneeds))
          · rw [growPages_null hlt halloc hmem hmap] at hc
            cases hc
      · obtain ⟨hgrow, hmaps⟩ := growPages_done pt fuel m hlt
        rw [hgrow] at hc
        obtain ⟨rfl, rfl⟩ := Prod.mk.inj (Option.some.inj hc)
        have hdone : pagesOf newsz.toNat ≤ v := not_lt.mp fun hpages =>
          hlt ((pageVa_lt_iff hv).mpr hpages)
        refine ⟨0, ⟨?_, .refl m, fun _ => by omega, fun hk0 => absurd rfl hk0, ?_⟩, fun _ => rfl⟩
        · rw [hmaps]
          rfl
        · exact iff_of_true rfl (.inl hdone)

/-! ## The tables of the others -/

/-- The page tables of slot `j` are left alone. -/
def TablesKept (own : ℕ → Option Role) (j : Fin nproc) (m m' : Phys) : Prop :=
  ∀ q path, own q = some (.table j path) → m'.page q = m.page q

namespace TablesKept

variable {j : Fin nproc} {pa : ℕ}

theorem refl (m : Phys) : TablesKept own j m m := fun _ _ _ => rfl

theorem trans (h : TablesKept own j m m') (hext : Extends own own')
    (h' : TablesKept own' j m' m'') : TablesKept own j m m'' := by
  intro q path hq
  rw [h' q path (hext.of_role hq (by simp)), h q path hq]

theorem of_spares (hij : j ≠ i) (h : Spares own i m m') : TablesKept own j m m' := by
  intro q path hq
  refine h q (by simp [hq]) fun path' hq' => ?_
  rw [hq] at hq'
  cases hq'
  exact hij rfl

theorem fill (hpa : ∀ path, own pa ≠ some (.table j path)) (c : Page) :
    TablesKept own j m (m.fill pa c) := by
  intro q path hq
  have hne : q ≠ pa := by
    rintro rfl
    exact hpa path hq
  simp [Phys.fill, hne]

theorem allocPage (h : m.allocPage = (pa, m')) : TablesKept own j m m' := by
  intro q path _
  rw [Phys.allocPage_page h]

theorem createPagetable (hown : Owned kend own m free)
    (hc : m.createPagetable = some (pt, m')) : TablesKept own j m m' := by
  unfold Phys.createPagetable at hc
  rcases halloc : m.allocPage with ⟨pa, m₁⟩
  simp only [halloc] at hc
  split at hc
  · cases hc
  · next hpa =>
    obtain ⟨rfl, rfl⟩ := by simpa using hc
    obtain ⟨free', rfl, hfree, -, -⟩ := hown.allocPage halloc hpa
    have hfill : TablesKept own j m₁ (m₁.fill pa fun _ => 0) := fill (by simp [hfree]) _
    exact (allocPage halloc).trans (.refl own) hfill

/-- `map_page` for another slot. -/
theorem mapPage {target : ℕ} {perm : Word} {r : ℤ} (hown : Owned kend own m free) (hk : 0 < kend)
    (hpt : own pt = some (.table i [])) (hij : j ≠ i)
    (hm : m.mapPage pt va target perm = some (r, m')) : TablesKept own j m m' := by
  rcases hown.mapPage_at va target perm hk hpt with ⟨m₁, pages, hm₁, hmapped, -⟩ | ⟨hm₁, -⟩
  · rw [hm₁] at hm
    obtain ⟨-, rfl⟩ := Prod.mk.inj (Option.some.inj hm)
    exact .of_spares hij hmapped.spares
  · rw [hm₁] at hm
    cases hm

/-- The same page table has the same entries. -/
theorem entryAt (h : TablesKept own j m m') (hown : Owned kend own m free)
    (hroot : own root = some (.table j [])) (hlen : path.length ≤ 3) :
    m'.entryAt root path = m.entryAt root path :=
  hown.entryAt_congr hroot h hlen

theorem build {b : Built} (hown : Owned lay.kend own m free) (hij : j ≠ i)
    (hb : m.build lay = some (b, m')) : TablesKept own j m m' := by
  have hk := lay.kend_pos
  unfold Phys.build at hb
  rcases hstack : m.allocPage with ⟨kstack, m₁⟩
  simp only [hstack] at hb
  split at hb
  · obtain ⟨-, rfl⟩ := by simpa using hb
    exact allocPage hstack
  next hkstack =>
  obtain ⟨own₁, free₁, h₁, hext₁, -⟩ := hown.allocFor (r := .kstack i) hstack hkstack (by simp)
  obtain ⟨⟨pagetable, m₂⟩, hpt, hb⟩ := Option.bind_eq_some_iff.mp hb
  obtain ⟨own₂, free₂, h₂, hext₂, hp₂⟩ := h₁.createPagetable (i := i) hpt
  have hkept₂ : TablesKept own j m m₂ := (allocPage hstack).trans hext₁ (createPagetable h₁ hpt)
  rcases hframe : m₂.allocPage with ⟨trapframe, m₃⟩
  simp only [hframe] at hb
  split at hb
  · obtain ⟨-, rfl⟩ := by simpa using hb
    exact hkept₂.trans (hext₁.trans hext₂) (allocPage hframe)
  next htrapframe =>
  obtain ⟨own₃, free₃, h₃, hext₃, -⟩ := h₂.allocFor (r := .trapframe i) hframe htrapframe (by simp)
  have hkept₃ := hkept₂.trans (hext₁.trans hext₂) (allocPage hframe)
  have hp₃ := hext₃.of_role hp₂ (by simp)
  obtain ⟨⟨r₄, m₄⟩, hm₄, hb⟩ := Option.bind_eq_some_iff.mp hb
  obtain ⟨own₄, free₄, h₄, hext₄⟩ := h₃.mapPage_kernel hk hp₃
    (.inl ⟨lay.trampoline_lt, lay.kend_le⟩) (by decide) (by decide) hm₄
  obtain ⟨⟨r₅, m₅⟩, hm₅, hb⟩ := Option.bind_eq_some_iff.mp hb
  obtain ⟨-, rfl⟩ := by simpa using hb
  have hext := (hext₁.trans hext₂).trans hext₃
  have hkept₄ := hkept₃.trans hext (mapPage h₃ hk hp₃ hij hm₄)
  exact hkept₄.trans (hext.trans hext₄) (mapPage h₄ hk (hext₄.of_role hp₃ (by simp)) hij hm₅)

theorem copyPages {parent child : ℕ} {sz va : Word} {ok : Bool} (hown : Owned kend own m free)
    (hk : 0 < kend) (hchild : own child = some (.table c [])) (hjc : j ≠ c)
    (hc : Procs.copyPages parent child sz fuel va m = some (ok, m')) : TablesKept own j m m' := by
  induction fuel generalizing own m free va with
  | zero => cases hc
  | succ fuel ih =>
      by_cases hlt : va < sz
      · cases hentry : m.entryAt parent (vpns va) with
        | none =>
            rw [copyPages_skip hlt hentry] at hc
            exact ih hown hchild hc
        | some w =>
            rcases hown.copyPage_exact va hk hchild (m.page (ptePa w)) with
              ⟨mem, m₁, m₂, own₂, free₂, halloc, hmem, hpage, hmap, h₂, hext, -, -, -, hmapped, -⟩ |
              ⟨-, halloc | ⟨mem, m₁, halloc, hmem, hpage, hmap⟩⟩
            · rw [copyPages_copy hlt hentry halloc hmem hpage hmap] at hc
              have hrest := ih h₂ (hext.of_role hchild (by simp)) hc
              exact (of_spares hjc hmapped.spares).trans hext hrest
            · rw [copyPages_full hlt hentry halloc] at hc
              obtain ⟨-, rfl⟩ := Prod.mk.inj (Option.some.inj hc)
              exact allocPage rfl
            · rw [copyPages_null hlt hentry halloc hmem hpage hmap] at hc
              cases hc
      · rw [copyPages_done hlt] at hc
        obtain ⟨-, rfl⟩ := Prod.mk.inj (Option.some.inj hc)
        exact refl m

/-- `fork`, whether it gets to its end or not, leaves the page tables of all but the new slot. -/
theorem forkPages {f : Forked} {parent : Proc} (hown : Owned lay.kend own m free) (hjc : j ≠ c)
    (hf : m.forkPages lay fuel parent = some (f, m')) : TablesKept own j m m' := by
  obtain ⟨⟨b, m₁⟩, hb, hf⟩ := Option.bind_eq_some_iff.mp hf
  obtain ⟨own₁, free₁, h₁, hext₁, hbuilt⟩ := hown.build (i := c) hb
  have hkept₁ : TablesKept own j m m₁ := build hown hjc hb
  cases b with
  | noStack =>
      obtain ⟨-, rfl⟩ := by simpa using hf
      exact hkept₁
  | noFrame =>
      obtain ⟨-, rfl⟩ := by simpa using hf
      exact hkept₁
  | full kstack pagetable trapframe =>
      obtain ⟨⟨ok, m₂⟩, hcopy, hf⟩ := Option.bind_eq_some_iff.mp hf
      obtain ⟨own₂, free₂, h₂, hext₂⟩ := h₁.copyPages lay.kend_pos hbuilt.2.1 hcopy
      have hkept₂ := hkept₁.trans hext₁ (copyPages h₁ lay.kend_pos hbuilt.2.1 hjc hcopy)
      cases ok
      · obtain ⟨-, rfl⟩ := by simpa using hf
        exact hkept₂
      · obtain ⟨-, rfl⟩ := by simpa using hf
        have hframe := hext₂.of_role hbuilt.2.2 (by simp)
        have hfill : TablesKept own₂ j m₂
            ((m₂.fill trapframe (m₂.page parent.trapframe)).store trapframe tfA0 0) :=
          (fill (by simp [hframe]) _).trans (.refl own₂) (fill (by simp [hframe]) _)
        exact hkept₂.trans (hext₁.trans hext₂) hfill

end TablesKept

/-! ## The pages that are mapped -/

/-- Below the trapframe, the first `n` pages are mapped and no others. -/
def Stacked (m : Phys) (pt n : ℕ) : Prop :=
  ∀ v < 2 ^ 26 - 2, (m.entryAt pt (vpns (pageVa v))).isSome ↔ v < n

namespace Stacked

/-- The page table has the same entries. -/
theorem congr (h : Stacked m pt n) (hsame : ∀ va, m'.entryAt pt (vpns va) = m.entryAt pt (vpns va)) :
    Stacked m' pt n := by
  intro v hv
  rw [hsame]
  exact h v hv

/-- The next page is mapped. -/
theorem mapped {w : Word} (h : Stacked m pt v) (hv : v < 2 ^ 26 - 2)
    (hmapped : MappedAt own i pt (pageVa v) w m m') : Stacked m' pt (v + 1) := by
  intro u hu
  by_cases huv : u = v
  · rw [huv, hmapped.entry]
    exact iff_of_true rfl (Nat.lt_succ_self v)
  · rw [hmapped.other _ (by simp [vpns]) fun hpath => huv (vpns_pageVa (by omega) (by omega) hpath),
      h u hu]
    omega

/-- Pages are mapped from `v` on, where all pages before `v` are mapped. -/
theorem grown (h : Stacked m pt n) (hv : v ≤ n) (hk : k ≠ 0 → v + k ≤ 2 ^ 26 - 2)
    (hgrown : PagesGrown own i pt v k m m') : Stacked m' pt (max n (v + k)) := by
  intro u hu
  by_cases hnew : v ≤ u ∧ u < v + k
  · obtain ⟨mem, hentry⟩ := hgrown.entry u hnew.1 hnew.2
    rw [hentry]
    exact iff_of_true rfl (lt_max_of_lt_right hnew.2)
  · rw [hgrown.other _ (by simp [vpns]), h u hu, lt_max_iff]
    · omega
    · intro u' hle hlt hpath
      have hend := hk (by omega)
      have huu : u' = u := vpns_pageVa (by omega) (by omega) hpath
      omega

end Stacked

/-- The pages of the trapframe and of the trampoline come after all others. -/
theorem vpns_top {u : ℕ} (hu : u < 2 ^ 26 - 2) :
    vpns (pageVa u) ≠ vpns trampolineVa ∧ vpns (pageVa u) ≠ vpns trapframeVa := by
  have htramp : trampolineVa = pageVa (2 ^ 26 - 1) := by decide
  have htrap : trapframeVa = pageVa (2 ^ 26 - 2) := by decide
  rw [htramp, htrap]
  constructor
  · intro hpath
    have := vpns_pageVa (by omega) (by decide) hpath
    omega
  · intro hpath
    have := vpns_pageVa (by omega) (by decide) hpath
    omega

/-- A new process has no page yet. -/
theorem Owned.NewSpace.stacked {kstack trapframe : ℕ}
    (h : Owned.NewSpace own own' i kstack pt trapframe m m') : Stacked m' pt 0 := by
  intro u hu
  rw [h.entry _ (by simp [vpns]) (vpns_top hu).1 (vpns_top hu).2]
  exact iff_of_false (by decide) (Nat.not_lt_zero u)

/-- A page below a size that is mapped has an entry. -/
theorem Mapped.entry {sz : ℕ} (h : Mapped m pt sz) (hv : v < pagesOf sz) :
    (m.entryAt pt (vpns (pageVa v))).isSome := by
  have hlt : v * pgsize < sz := by
    simp only [pagesOf, pgsize] at hv ⊢
    omega
  obtain ⟨w, hleaf, hvalid, -⟩ := h v hlt
  rw [(m.leaf_eq pt _ w).mpr ⟨hleaf, hvalid⟩]
  rfl

/-- A child has the pages below its size. -/
theorem ForkedSpace.stacked {q : Proc} {kstack trapframe : ℕ}
    (h : ForkedSpace own c q kstack pt trapframe m m') (hmapped : Mapped m q.pagetable q.sz.toNat)
    (hsz : q.sz.toNat ≤ phystop) : Stacked m' pt (pagesOf q.sz.toNat) := by
  intro u hu
  by_cases hbelow : u < pagesOf q.sz.toNat
  · have hmem : pageVa u ∈ copied m q.pagetable q.sz :=
      mem_copied.mpr ⟨⟨u, hbelow, rfl⟩, hmapped.entry hbelow⟩
    obtain ⟨w, mem, -, hentry, -⟩ := h.entry _ hmem
    rw [hentry]
    exact iff_of_true rfl hbelow
  · rw [h.other _ (by simp [vpns]) (vpns_top hu).1 (vpns_top hu).2]
    · exact iff_of_false (by decide) hbelow
    · intro va hva hpath
      obtain ⟨⟨v, hv, rfl⟩, -⟩ := mem_copied.mp hva
      have hsmall : v < 2 ^ 27 := by
        simp only [pagesOf, pgsize, phystop] at hv hsz
        omega
      have huv : v = u := vpns_pageVa hsmall (by omega) hpath
      omega

namespace Owned

/-- The next page is allocated and mapped. -/
theorem addPage_stacked {m₁ m₂ : Phys} {pa : ℕ} {perm : Word} {ret : ℤ}
    (h : Owned kend own m free) (hk : 0 < kend) (hpt : own pt = some (.table i []))
    (hstack : Stacked m pt v) (hv : v < 2 ^ 26 - 2) (halloc : m.allocPage = (pa, m₁)) (hpa : pa ≠ 0)
    (content : Page) (hm : (m₁.fill pa content).mapPage pt (pageVa v) pa perm = some (ret, m₂)) :
    Stacked m₂ pt (v + 1) := by
  obtain ⟨free₁, rfl, hfree, -, h₁⟩ := h.allocPage halloc hpa
  have hext : Extends own (Function.update own pa (some .taken)) := extends_update hfree
  have h₂ := h₁.fill (show Function.update own pa (some .taken) pa ≠ some .free by simp) (by simp)
    content
  have hkept : TablesKept own i m (m₁.fill pa content) :=
    (TablesKept.allocPage halloc).trans (.refl own) (.fill (by simp [hfree]) content)
  have hstack₁ : Stacked (m₁.fill pa content) pt v :=
    hstack.congr fun va => hkept.entryAt h hpt (by simp [vpns])
  rcases h₂.mapPage_at (pageVa v) pa perm hk (hext.of_role hpt (by simp)) with
    ⟨m', pages, hmap, hmapped, -⟩ | ⟨hmap, -⟩
  · rw [hmap] at hm
    obtain ⟨-, rfl⟩ := Prod.mk.inj (Option.some.inj hm)
    exact hstack₁.mapped hv hmapped
  · rw [hmap] at hm
    cases hm

/-- The loop of `user_init` maps one page after the other. -/
theorem loadPages_stacked {bytes : List UInt8} {count : ℕ} (h : Owned kend own m free)
    (hk : 0 < kend) (hpt : own pt = some (.table i [])) (hv : v + count ≤ 2 ^ 26 - 2)
    (hstack : Stacked m pt v) (hc : Procs.loadPages m pt bytes v count = some (true, m')) :
    Stacked m' pt (v + count) := by
  induction count generalizing own m free v with
  | zero =>
      obtain rfl := by simpa [Procs.loadPages] using hc
      exact hstack
  | succ count ih =>
      unfold Procs.loadPages at hc
      rcases halloc : m.allocPage with ⟨mem, m₁⟩
      simp only [halloc] at hc
      split at hc
      · simp at hc
      · next hmem =>
        obtain ⟨⟨r, m₂⟩, hm, hc⟩ := Option.bind_eq_some_iff.mp hc
        have hstack₂ := h.addPage_stacked hk hpt hstack (by omega) halloc hmem _ hm
        obtain ⟨rfl, own₂, free₂, h₂, hext⟩ :=
          h.addPage hk hpt halloc hmem _ (by decide) (by decide) hm
        have hrest := ih h₂ (hext.of_role hpt (by simp)) (by omega) hstack₂ hc
        rwa [Nat.add_assoc, Nat.add_comm 1 count] at hrest

/-- `user_init` maps the program and its stack, and nothing else. -/
theorem initPages_stacked {kstack pagetable trapframe : ℕ} {sz : Word}
    (h : Owned lay.kend own m free)
    (hf : m.initPages lay = some (.done kstack pagetable trapframe sz, m')) :
    Stacked m' pagetable (pagesOf (sz + 4096).toNat) := by
  have hk := lay.kend_pos
  obtain ⟨⟨b, m₁⟩, hb, hf⟩ := Option.bind_eq_some_iff.mp hf
  cases b with
  | noStack => simp at hf
  | noFrame => simp at hf
  | full kstack pagetable trapframe =>
      rcases h.build_exact 0 with
        ⟨kstack', pagetable', trapframe', m₁', own₁, free₁, hb', h₁, hnew, -⟩ | ⟨-, hfail⟩
      · rw [hb] at hb'
        obtain ⟨hfull, rfl⟩ := Prod.mk.inj (Option.some.inj hb')
        obtain ⟨rfl, rfl, rfl⟩ := Built.full.inj hfull
        have hbuilt := hnew.built
        obtain ⟨⟨ok, m₂⟩, hload, hf⟩ := Option.bind_eq_some_iff.mp hf
        obtain ⟨own₂, free₂, h₂, hext₂⟩ := h₁.loadPages hk hbuilt.2.1 hload
        have hzero : Mapped m₁ pagetable (0 * pgsize) := by
          rw [Nat.zero_mul]
          exact mapped_zero
        obtain ⟨-, hall⟩ := h₁.loadPages_mapped hk hbuilt.2.1 hzero hload
        cases ok
        · simp at hf
        have hp₂ := hext₂.of_role hbuilt.2.1 (by simp)
        have hmapped₂ := hall rfl
        have hnum := h₂.next_le hp₂ hmapped₂
        have hstack₂ := h₁.loadPages_stacked hk hbuilt.2.1
          (by simp only [phystop, pgsize] at hnum; omega) hnew.stacked hload
        rw [Nat.zero_add] at hnum hstack₂ hmapped₂
        rcases halloc : m₂.allocPage with ⟨stack, m₃⟩
        simp only [halloc] at hf
        split at hf
        · cases ‹(true : Bool) = false›
        split at hf
        · simp at hf
        next hstack =>
        obtain ⟨⟨ret, m₄⟩, hm, hf⟩ := Option.bind_eq_some_iff.mp hf
        have hstack₄ := h₂.addPage_stacked hk hp₂ hstack₂
          (by simp only [phystop, pgsize] at hnum; omega) halloc hstack _ hm
        have hmapped₄ := h₂.addPage_mapped hk hp₂ hmapped₂ halloc hstack _ (by decide) hm
        obtain ⟨-, own₃, free₃, h₃, hext₃⟩ :=
          h₂.addPage hk hp₂ halloc hstack _ (by decide) (by decide) hm
        obtain ⟨⟨rfl, rfl, rfl, rfl⟩, rfl⟩ := by simpa using hf
        have hp₃ := hext₃.of_role hp₂ (by simp)
        have hsize : pagesOf (pageVa lay.numPages + 4096).toNat = lay.numPages + 1 := by
          rw [pageVa_succ, pageVa_toNat (h₃.next_le hp₃ hmapped₄)]
          simp only [pagesOf, pgsize]
          omega
        have htable : ∀ path, own₃ trapframe ≠ some (.table 0 path) := by
          simp [hext₃.of_role (hext₂.of_role hbuilt.2.2 (by simp)) (by simp)]
        have hkept : TablesKept own₃ 0 m₄ ((m₄.store trapframe tfEpc 0).store trapframe tfSp
            (pageVa lay.numPages + 4096)) :=
          (TablesKept.fill htable _).trans (.refl own₃) (.fill htable _)
        have hfinal : Stacked ((m₄.store trapframe tfEpc 0).store trapframe tfSp
            (pageVa lay.numPages + 4096)) pagetable (lay.numPages + 1) :=
          hstack₄.congr fun va => hkept.entryAt h₃ hp₃ (by simp [vpns])
        rw [← hsize] at hfinal
        exact hfinal
      · exact absurd hb (hfail _ _ _ _)

end Owned

/-! ## `sbrk` -/

section Calls

variable {s s' : Procs} {n : ℤ} {h : ℕ} {r : Word} {e : Procs.Event}
  {w : Option (Fin nproc × Waited)}

/-- What `sbrk(n)` of the process `p` has done: it has mapped the `k` pages after the old size. -/
structure SbrkGrown (own : ℕ → Option Role) (s s' : Procs) (p : Fin nproc) (n : ℤ) (fuel k : ℕ)
    (r : Word) : Prop where
  maps : sbrkMaps s p n fuel = (List.range' (pagesOf (s.proc p).sz.toNat) k).map pageVa
  grown : PagesGrown own p (s.proc p).pagetable (pagesOf (s.proc p).sz.toNat) k s.phys s'.phys
  small : k ≠ 0 → pagesOf (s.proc p).sz.toNat + k ≤ 2 ^ 26 - 2
  none_iff : k = 0 ↔
    pagesOf ((s.proc p).sz + BitVec.ofInt 64 n).toNat ≤ pagesOf (s.proc p).sz.toNat ∨
      s.phys.freelist = 0
  failed : r = -1 → 0 < n ∧ (s'.proc p).sz = (s.proc p).sz
  done : r ≠ -1 → (s'.proc p).sz = (s.proc p).sz + BitVec.ofInt 64 n ∧
    pagesOf (s'.proc p).sz.toNat ≤ pagesOf (s.proc p).sz.toNat + k
  below : k ≠ 0 → pagesOf (s.proc p).sz.toNat + k ≤
    pagesOf ((s.proc p).sz + BitVec.ofInt 64 n).toNat
  enough : (let old := pagesOf (s.proc p).sz.toNat
    let new := pagesOf ((s.proc p).sz + BitVec.ofInt 64 n).toNat
    HasFree s (needs s.phys (s.proc p).pagetable ((List.range' old (new - old)).map pageVa))) → r ≠ -1

theorem pagesOf_mono {a b : ℕ} (h : a ≤ b) : pagesOf a ≤ pagesOf b :=
  Nat.div_le_div_right (by omega)

theorem Sized.sbrk_run (hs : Sized lay own s) (hlive : (s.proc p).state.Live) (hint : IsInt n)
    (hlow : 0 ≤ ((s.proc p).sz.toNat : ℤ) + n) (hr : s.sbrk fuel p n = some (r, s')) :
    ∃ k, SbrkGrown own s s' p n fuel k r := by
  obtain ⟨free, hown⟩ := hs.isolated.owned
  have hsize := hs.size_le hlive
  have hne : (s.proc p).sz ≠ -1 := by
    intro heq
    rw [heq] at hsize
    exact absurd hsize (by decide)
  obtain ⟨-, hhigh⟩ := hint
  simp only [phystop] at hsize
  have hsum := add_ofInt_toNat hlow (by omega)
  obtain ⟨ok, m, hgrow, hcases⟩ := sbrk_cases hr
  have hphys : s'.phys = m := by
    obtain ⟨-, -, rfl⟩ | ⟨-, -, rfl⟩ := hcases <;> rfl
  have hdone : ok = true → (s'.proc p).sz = (s.proc p).sz + BitVec.ofInt 64 n := by
    intro hok
    obtain ⟨hok', -, -⟩ | ⟨-, -, rfl⟩ := hcases
    · rw [hok] at hok'
      cases hok'
    · simp [modProc]
  have hfailed : ok = false → (s'.proc p).sz = (s.proc p).sz := by
    intro hok
    obtain ⟨-, -, rfl⟩ | ⟨hok', -, -⟩ := hcases
    · rfl
    · rw [hok] at hok'
      cases hok'
  have hret : r = -1 ↔ ok = false := by
    obtain ⟨hok, hr, -⟩ | ⟨hok, hr, -⟩ := hcases
    · exact iff_of_true hr hok
    · rw [hr, hok]
      exact iff_of_false hne (by decide)
  by_cases hpos : 0 < n
  · rw [if_pos hpos, pgroundup_eq (hs.size_le hlive)] at hgrow
    have hold : pagesOf (s.proc p).sz.toNat * pgsize < 2 ^ 64 := by
      simp only [pagesOf, pgsize]
      omega
    obtain ⟨k, hloop, henough⟩ := hown.growPages_run lay.kend_pos (hs.root hlive) hold
      (by simp only [pgsize]; omega) hgrow
    refine ⟨k, ⟨?_, ?_, fun hk => ?_, ?_, fun hr => ?_, fun hr => ?_, hloop.below, ?_⟩⟩
    · rw [sbrkMaps, if_pos hpos, pgroundup_eq (hs.size_le hlive), hloop.maps]
    · rw [hphys]
      exact hloop.grown
    · have hbelow := hloop.below hk
      simp only [pagesOf, pgsize] at hbelow ⊢
      omega
    · rw [← s.phys.allocPage_fst]
      exact hloop.none_iff
    · exact ⟨hpos, hfailed (hret.mp hr)⟩
    · have hok : ok = true := by
        cases ok
        · exact absurd (hret.mpr rfl) hr
        · rfl
      rw [hdone hok]
      exact ⟨rfl, hloop.all hok⟩
    · rintro ⟨free', hchain, hle⟩ hr
      rw [← hown.chain.unique hchain] at hle
      rw [henough hle] at hret
      exact absurd (hret.mp hr) (by decide)
  · rw [if_neg hpos] at hgrow
    obtain ⟨rfl, rfl⟩ := Prod.mk.inj (Option.some.inj hgrow)
    have hmono : pagesOf ((s.proc p).sz + BitVec.ofInt 64 n).toNat ≤ pagesOf (s.proc p).sz.toNat :=
      pagesOf_mono (by omega)
    have hr : r ≠ -1 := fun hr => absurd (hret.mp hr) (by decide)
    refine ⟨0, ⟨?_, ?_, fun hk => absurd rfl hk, iff_of_true rfl (.inl hmono), fun h => absurd h hr,
      fun _ => ?_, fun hk => absurd rfl hk, fun _ => hr⟩⟩
    · rw [sbrkMaps, if_neg hpos]
      rfl
    · rw [hphys]
      exact .refl _
    · rw [hdone rfl]
      exact ⟨rfl, hmono⟩

/-- The pages that are mapped after `sbrk`. -/
theorem SbrkGrown.stacked (hgrown : SbrkGrown own s s' p n fuel k r)
    (hstack : Stacked s.phys (s.proc p).pagetable h) (hh : pagesOf (s.proc p).sz.toNat ≤ h) :
    Stacked s'.phys (s.proc p).pagetable (max h (pagesOf (s.proc p).sz.toNat + k)) :=
  hstack.grown hh hgrown.small hgrown.grown

/-- The first page is not mapped exactly if no page is mapped above the size. -/
theorem Stacked.firstPage_iff (hstack : Stacked s.phys (s.proc p).pagetable h)
    (hv : pagesOf (s.proc p).sz.toNat < 2 ^ 26 - 2) :
    (∀ w, ¬ s.phys.Present (s.proc p).pagetable (firstPage s p) w) ↔
      h ≤ pagesOf (s.proc p).sz.toNat := by
  have hiff := hstack (pagesOf (s.proc p).sz.toNat) hv
  constructor
  · intro hnone
    by_contra hlt
    obtain ⟨w, hw⟩ := Option.isSome_iff_exists.mp (hiff.mpr (not_le.mp hlt))
    exact hnone w (Phys.present_iff.mpr hw)
  · intro hle w hw
    have hsome := Option.isSome_iff_exists.mpr ⟨w, Phys.present_iff.mp hw⟩
    exact absurd (hiff.mp hsome) (not_lt.mpr hle)

/-- What one call of `sbrk` keeps, in a state in which the pages of the process are stacked. -/
theorem SbrkGrown.keeps_iff {own' : ℕ → Option Role} (hgrown : SbrkGrown own s s' p n fuel k r)
    (hs : Sized lay own s) (hs' : Sized lay own' s') (hlive : (s.proc p).state.Live)
    (hr : s.sbrk fuel p n = some (r, s')) (hstack : Stacked s.phys (s.proc p).pagetable h)
    (hh : pagesOf (s.proc p).sz.toNat ≤ h) :
    SbrkKeeps s s' p n fuel r ↔ MapsNothingOver s p n := by
  obtain ⟨free, hown⟩ := hs.isolated.owned
  have hroot := hs.root hlive
  have hkept := kept_sbrk hr p
  -- the pages that the process had are not written, and their entries are overwritten only by
  -- those of the pages that are mapped
  have hold : (∀ u, pagesOf (s.proc p).sz.toNat ≤ u → u < pagesOf (s.proc p).sz.toNat + k →
      ∀ w, ¬ s.phys.Present (s.proc p).pagetable (pageVa u) w) → SbrkKeeps s s' p n fuel r := by
    intro hfresh
    refine ⟨fun va hva w => ?_, fun va w hw => ?_, fun _ _ => ?_⟩
    · rw [hgrown.maps] at hva
      obtain ⟨u, hu, rfl⟩ := List.mem_map.mp hva
      rw [List.mem_range'_1] at hu
      exact hfresh u hu.1 hu.2 w
    · rw [Phys.present_iff] at hw ⊢
      rw [hkept.pagetable, hgrown.grown.other _ (by simp [vpns])]
      · obtain ⟨hfree, htable⟩ := hown.entryAt_spared hroot (by simp [vpns]) hw
        exact ⟨hw, hgrown.grown.spares _ hfree fun path => htable p path⟩
      · intro u hle hlt hpath
        rw [← hpath] at hw
        exact hfresh u hle hlt w (Phys.present_iff.mpr hw)
    · exact (hs'.shaped p (hkept.live.mpr hlive)).mapped
  by_cases hk : k = 0
  · refine iff_of_true (hold fun u hle hlt => ?_) (.inr (hgrown.none_iff.mp hk))
    omega
  · have hsmall := hgrown.small hk
    have hfirst := hstack.firstPage_iff (by omega)
    have hmaps : MapsNothingOver s p n ↔ h ≤ pagesOf (s.proc p).sz.toNat := by
      rw [MapsNothingOver, hfirst, or_iff_left]
      exact fun hnone => hk (hgrown.none_iff.mpr hnone)
    rw [hmaps]
    constructor
    · intro hkeeps
      rw [← hfirst]
      refine hkeeps.fresh _ ?_
      rw [hgrown.maps]
      refine List.mem_map.mpr ⟨_, ?_, rfl⟩
      rw [List.mem_range'_1]
      omega
    · intro hle
      refine hold fun u hle' hlt w hw => ?_
      have hsome := Option.isSome_iff_exists.mpr ⟨w, Phys.present_iff.mp hw⟩
      have := (hstack u (by omega)).mp hsome
      omega

/-- The number of pages of every process is one that `R` allows for its size. -/
def Stacks (R : ℕ → Word → Prop) (s : Procs) : Prop :=
  ∀ i, (s.proc i).state.Live →
    ∃ h, R h (s.proc i).sz ∧ Stacked s.phys (s.proc i).pagetable h

/-- It is enough to look at the calls of `sbrk`. -/
theorem Stacks.step {R : ℕ → Word → Prop} (hstack : Stacks R s) (hs : Sized lay own s)
    (hok : NotBelowZero s e) (hint : ∀ n fuel, e = .call (.sbrk n fuel) → IsInt n)
    (hstep : s.step lay e = some (w, s')) (hself : ∀ sz, R (pagesOf sz.toNat) sz)
    (habove : ∀ h sz, R h sz → pagesOf sz.toNat ≤ h)
    (hsbrk : ∀ p n fuel k r h, s.cur = some p → e = .call (.sbrk n fuel) →
      SbrkGrown own s s' p n fuel k r → R h (s.proc p).sz →
        R (max h (pagesOf (s.proc p).sz.toNat + k)) (s'.proc p).sz) : Stacks R s' := by
  obtain ⟨free, hown⟩ := hs.isolated.owned
  intro i hi
  -- a process whose page table nobody has touched
  have hsame : (s.proc i).state.Live → (s'.proc i).pagetable = (s.proc i).pagetable →
      (s'.proc i).sz = (s.proc i).sz → TablesKept own i s.phys s'.phys →
      ∃ h, R h (s'.proc i).sz ∧ Stacked s'.phys (s'.proc i).pagetable h := by
    intro hlive hpt hsz hkept
    obtain ⟨h, hR, hold⟩ := hstack i hlive
    rw [hpt, hsz]
    exact ⟨h, hR, hold.congr fun va => hkept.entryAt hown (hs.root hlive) (by simp [vpns])⟩
  by_cases hfork : ∃ fuel, e = .call (.fork fuel)
  · obtain ⟨fuel, rfl⟩ := hfork
    cases hp : s.cur with
    | none => simp [Procs.step, hp] at hstep
    | some p =>
        obtain ⟨-, rfl | ⟨c, f, m, hc, hf, rfl⟩⟩ := step_fork hs.isolated.running hp hstep
        · exact hstack i hi
        have hlive := hs.isolated.live hp
        have hpc : p ≠ c := by
          rintro rfl
          exact hlive.1 (firstUnused_unused hc)
        by_cases hic : i = c
        · subst hic
          rw [enter_self] at hi ⊢
          cases f with
          | starved b => cases b <;> exact absurd rfl hi.2
          | uncopied => exact absurd rfl hi.1
          | done kstack pagetable trapframe =>
              have hframe := (hs.isolated.slots p).trapframe
                ((hs.isolated.slots p).live hlive).2.2
              have hspace := hown.forkedSpace (hs.root hlive) hframe hpc hf
              exact ⟨_, hself _, hspace.stacked (hs.shaped p hlive).mapped (hs.size_le hlive)⟩
        · rw [enter_of_ne _ _ hic] at hi hsame ⊢
          exact hsame hi rfl rfl (.forkPages hown hic hf)
  by_cases hcall : ∃ n fuel, e = .call (.sbrk n fuel)
  · obtain ⟨n, fuel, rfl⟩ := hcall
    cases hp : s.cur with
    | none => simp [Procs.step, hp] at hstep
    | some p =>
        cases hr : s.sbrk fuel p n with
        | none => simp [Procs.step, hp, call, hr] at hstep
        | some result =>
            obtain ⟨r, t⟩ := result
            obtain ⟨-, rfl⟩ := by simpa [Procs.step, hp, call, hr] using hstep
            have hlive := hs.isolated.live hp
            have hpt := (kept_sbrk hr i).pagetable
            obtain ⟨k, hgrown⟩ :=
              hs.sbrk_run hlive (hint n fuel rfl) (hok p n fuel hp rfl) hr
            by_cases hip : i = p
            · subst hip
              obtain ⟨h, hR, hold⟩ := hstack i hlive
              rw [hpt]
              exact ⟨_, hsbrk i n fuel k r h hp rfl hgrown hR,
                hgrown.stacked hold (habove h _ hR)⟩
            · have hsz : (t.proc i).sz = (s.proc i).sz := by
                obtain ⟨ok, m, -, ⟨-, -, rfl⟩ | ⟨-, -, rfl⟩⟩ := sbrk_cases hr
                · rfl
                · rw [modProc, setProc_of_ne _ hip]
                  rfl
              exact hsame ((kept_sbrk hr i).live.mp hi) hpt hsz
                (.of_spares hip hgrown.grown.spares)
  have hfork' : ∀ fuel, e ≠ .call (.fork fuel) := fun fuel heq => hfork ⟨fuel, heq⟩
  have hsbrk' : ∀ n fuel, e ≠ .call (.sbrk n fuel) := fun n fuel heq => hcall ⟨n, fuel, heq⟩
  obtain ⟨hlive, hpt, -⟩ := live_step hs.isolated.running hfork' hstep hi
  exact hsame hlive hpt (sz_step hfork' hsbrk' hstep i) fun q path hq =>
    tables_step hs.isolated hfork' hsbrk' hstep hq

theorem Stacks.boot {R : ℕ → Word → Prop} (hboot : Procs.boot lay = some s)
    (hself : ∀ sz, R (pagesOf sz.toNat) sz) : Stacks R s := by
  intro i hi
  obtain ⟨-, -, -, hfree⟩ := boot_spec hboot
  obtain ⟨own₀, free₀, h₀⟩ := Owned.pmmInit lay.kend_pos lay.kend_le
  obtain ⟨own₁, free₁, h₁⟩ : ∃ own free, Owned lay.kend own (blank lay).phys free := h₀.takePages
  by_cases hi0 : i = 0
  · subst hi0
    rw [boot_eq] at hboot
    obtain ⟨⟨r, m⟩, hr, rfl⟩ := Option.map_eq_some_iff.mp hboot
    rw [enter_self] at hi ⊢
    cases r with
    | starved b => cases b <;> exact absurd rfl hi.2
    | unloaded => exact absurd rfl hi.2
    | done kstack pagetable trapframe sz => exact ⟨_, hself _, h₁.initPages_stacked hr⟩
  · rw [hfree i hi0] at hi
    exact absurd rfl hi.1

/-- The pages below the size are mapped, and maybe some more. -/
theorem stacks_of_reachable (h : ((intCalls lay).restrict NotBelowZero).Reachable s) :
    (∃ own, Sized lay own s) ∧ Stacks (fun h sz => pagesOf sz.toNat ≤ h) s := by
  induction h with
  | init hinit => exact ⟨Sized.boot hinit, Stacks.boot hinit fun _ => le_rfl⟩
  | step _ hstep ih =>
      obtain ⟨⟨own, hs⟩, hstack⟩ := ih
      obtain ⟨hok, hint, w, hstep⟩ := hstep
      refine ⟨hs.step hok hstep, hstack.step hs hok hint hstep (fun _ => le_rfl)
        (fun _ _ hle => hle) fun p n fuel k r h _ _ hgrown hle => ?_⟩
      by_cases hr : r = -1
      · rw [(hgrown.failed hr).2]
        exact le_max_of_le_left hle
      · exact le_max_of_le_right (hgrown.done hr).2

/-- No page above the size is mapped. -/
theorem stacks_of_kept
    (h : ((intCalls lay).restrict fun s e => NotBelowZero s e ∧ KeepsPages s e).Reachable s) :
    (∃ own, Sized lay own s) ∧ Stacks (fun h sz => h = pagesOf sz.toNat) s := by
  induction h with
  | init hinit => exact ⟨Sized.boot hinit, Stacks.boot hinit fun _ => rfl⟩
  | step _ hstep ih =>
      obtain ⟨⟨own, hs⟩, hstack⟩ := ih
      obtain ⟨⟨hok, hkeep⟩, hint, w, hstep⟩ := hstep
      refine ⟨hs.step hok hstep, hstack.step hs hok hint hstep (fun _ => rfl)
        (fun _ _ heq => heq.ge) fun p n fuel k r h hcur he hgrown heq => ?_⟩
      obtain ⟨hle, hpages⟩ := hkeep p n fuel hcur he
      subst heq
      rw [max_eq_right (Nat.le_add_right _ _)]
      by_cases hr : r = -1
      · -- there was no page, or there would have been enough
        have hk : k = 0 := by
          rcases hpages with hnone | henough
          · exact hgrown.none_iff.mpr (.inr hnone)
          · exact absurd hr (hgrown.enough henough)
        rw [(hgrown.failed hr).2, hk]
        rfl
      · obtain ⟨hsz, hall⟩ := hgrown.done hr
        by_cases hk : k = 0
        · rw [hsz] at hall ⊢
          omega
        · have hbelow := hgrown.below hk
          rw [hsz] at hall ⊢
          omega

/-- In every run in which no `sbrk` asks for less than nothing, the next call maps over nothing
exactly if the first page that it maps is not mapped.  That page is never mapped, and so every call
maps over nothing, in the runs in which no `sbrk` gives a page back or runs out of pages
half-way. -/
theorem sbrk_keeps (lay : Layout) (s : Procs) (p : Fin nproc) (n : ℤ) (fuel : ℕ) (r : Word)
    (s' : Procs) (h : ((intCalls lay).restrict NotBelowZero).Reachable s) (hcur : s.cur = some p)
    (hn : IsInt n) (hlow : 0 ≤ ((s.proc p).sz.toNat : ℤ) + n)
    (hr : s.sbrk fuel p n = some (r, s')) :
    (SbrkKeeps s s' p n fuel r ↔ MapsNothingOver s p n) ∧
    (((intCalls lay).restrict fun s e => NotBelowZero s e ∧ KeepsPages s e).Reachable s →
      SbrkKeeps s s' p n fuel r) := by
  obtain ⟨⟨own, hs⟩, hstack⟩ := stacks_of_reachable h
  have hlive := hs.isolated.live hcur
  obtain ⟨k, hgrown⟩ := hs.sbrk_run hlive hn hlow hr
  -- the call is the next step of the run
  have hok : NotBelowZero s (.call (.sbrk n fuel)) := by
    intro p' n' fuel' hcur' heq
    cases hcur.symm.trans hcur'
    cases heq
    exact hlow
  have hstep : s.step lay (.call (.sbrk n fuel)) = some (none, s') := by
    rw [Procs.step, hcur]
    show ((s.call lay p (.sbrk n fuel)).bind _) = _
    rw [call, hr]
    rfl
  obtain ⟨own', hs'⟩ := hs.step hok hstep
  obtain ⟨height, hle, hold⟩ := hstack p hlive
  have hiff := hgrown.keeps_iff hs hs' hlive hr hold hle
  refine ⟨hiff, fun hkept => hiff.mpr ?_⟩
  obtain ⟨-, hexact⟩ := stacks_of_kept hkept
  obtain ⟨height', rfl, hold'⟩ := hexact p hlive
  have hsize := hs.size_le hlive
  refine .inl ((hold'.firstPage_iff ?_).mpr le_rfl)
  simp only [pagesOf, pgsize, phystop] at hsize ⊢
  omega

/-- `init` asks for a page. -/
theorem sbrk_keeps_first : ∃ s r s', ((intCalls smallLayout).restrict NotBelowZero).Reachable s ∧
    s.cur = some 0 ∧ (s.proc 0).sz = 8192 ∧ s.sbrk 2 0 4096 = some (r, s') ∧ r = 8192 ∧
    SbrkKeeps s s' 0 4096 2 r := by
  have hrun : ((boot smallLayout).bind fun s => (s.step smallLayout (.schedule 0)).map Prod.snd).any
      (fun s => s.cur = some 0 ∧ (s.proc 0).sz = 8192 ∧
        (s.sbrk 2 0 4096).any fun r => r.1 = 8192) := by
    decide +kernel
  obtain ⟨s, hs, hfacts⟩ := (Option.any_eq_true ..).mp hrun
  obtain ⟨hcur, hsz, hsbrk⟩ := of_decide_eq_true hfacts
  obtain ⟨⟨r, s'⟩, hr, hret⟩ := (Option.any_eq_true ..).mp hsbrk
  obtain ⟨s₀, hboot, hstart⟩ := Option.bind_eq_some_iff.mp hs
  obtain ⟨⟨w, u⟩, hstep, rfl⟩ := Option.map_eq_some_iff.mp hstart
  have hquiet : NotBelowZero s₀ (.schedule 0) ∧ KeepsPages s₀ (.schedule 0) := by
    constructor
    · intro p n fuel _ heq
      cases heq
    · intro p n fuel _ heq
      cases heq
  have hint : ∀ n fuel, Procs.Event.schedule 0 = .call (.sbrk n fuel) → IsInt n := by
    intro n fuel heq
    cases heq
  have hreach : ((intCalls smallLayout).restrict NotBelowZero).Reachable u :=
    .step (i := .schedule 0) (.init hboot) ⟨hquiet.1, hint, w, hstep⟩
  have hkept : ((intCalls smallLayout).restrict fun s e =>
      NotBelowZero s e ∧ KeepsPages s e).Reachable u :=
    .step (i := .schedule 0) (.init hboot) ⟨hquiet, hint, w, hstep⟩
  refine ⟨u, r, s', hreach, hcur, hsz, hr, of_decide_eq_true hret, ?_⟩
  exact (sbrk_keeps smallLayout u 0 4096 2 r s' hreach hcur (by unfold IsInt; omega) (by omega)
    hr).2 hkept

/-- `init` gives back its stack and asks for it again: another page is mapped in its place. -/
theorem sbrk_maps_over : ∃ s r s', ((intCalls smallLayout).restrict NotBelowZero).Reachable s ∧
    s.cur = some 0 ∧ (s.proc 0).sz = 4096 ∧ s.sbrk 2 0 4096 = some (r, s') ∧
    ¬ SbrkKeeps s s' 0 4096 2 r := by
  have hrun : ((boot smallLayout).bind fun s =>
      (s.step smallLayout (.schedule 0)).map Prod.snd).any fun s =>
        s.cur = some 0 ∧ (s.proc 0).sz = 8192 ∧
          ((s.step smallLayout (.call (.sbrk (-4096) 1))).map Prod.snd).any fun s =>
            s.cur = some 0 ∧ (s.proc 0).sz = 4096 ∧ (s.sbrk 2 0 4096).isSome ∧
              4096 ∈ sbrkMaps s 0 4096 2 ∧
                (s.phys.leaf (s.proc 0).pagetable 4096).any fun w => w &&& pteV ≠ 0 := by
    decide +kernel
  obtain ⟨s, hs, hfacts⟩ := (Option.any_eq_true ..).mp hrun
  obtain ⟨hcur, hsz, hsbrk⟩ := of_decide_eq_true hfacts
  obtain ⟨t, ht, hfacts⟩ := (Option.any_eq_true ..).mp hsbrk
  obtain ⟨hcur', hsz', hgrow, hmaps, hleaf⟩ := of_decide_eq_true hfacts
  obtain ⟨⟨r, s'⟩, hr⟩ := Option.isSome_iff_exists.mp hgrow
  obtain ⟨word, hword, hvalid⟩ := (Option.any_eq_true ..).mp hleaf
  obtain ⟨s₀, hboot, hstart⟩ := Option.bind_eq_some_iff.mp hs
  obtain ⟨⟨w, u⟩, hstep, rfl⟩ := Option.map_eq_some_iff.mp hstart
  obtain ⟨⟨w', v⟩, hstep', rfl⟩ := Option.map_eq_some_iff.mp ht
  have hfirst : ((intCalls smallLayout).restrict NotBelowZero).Reachable u := by
    refine .step (i := .schedule 0) (.init hboot) ⟨?_, ?_, w, hstep⟩
    · intro p n fuel _ heq
      cases heq
    · intro n fuel heq
      cases heq
  have hsecond : ((intCalls smallLayout).restrict NotBelowZero).Reachable v := by
    refine .step (i := .call (.sbrk (-4096) 1)) hfirst ⟨?_, ?_, w', hstep'⟩
    · intro p n fuel hp heq
      cases hcur.symm.trans hp
      cases heq
      rw [hsz]
      decide
    · intro n fuel heq
      cases heq
      unfold IsInt
      omega
  refine ⟨v, r, s', hsecond, hcur', hsz', hr, fun hkeeps => ?_⟩
  exact hkeeps.fresh _ hmaps word ⟨hword, of_decide_eq_true hvalid⟩

end Calls

end RiscvOs
