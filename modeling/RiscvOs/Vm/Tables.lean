import Mathlib.Data.Finset.Card
import RiscvOs.Vm.Maps

/-!
# What a page table says

`tableAt` follows the indices of an address through a page table, and `entryAt` is the valid
entry they end at.  `Grown` is what `walk_create` does to them: the tables it was missing
are made, at the cost of one page each, and no last-level entry changes.  Where the pages do
not last, a null pointer is followed.
-/

namespace RiscvOs

open LinkedList

namespace Phys

/-- The table that these indices lead to, the last one first. -/
def tableAt (m : Phys) (root : ℕ) : List (Fin 512) → Option ℕ
  | [] => some root
  | k :: path => (m.tableAt root path).bind fun pt =>
    if m.page pt k &&& pteV = 0 then none else some (ptePa (m.page pt k))

/-- The valid entry at the end of these indices. -/
def entryAt (m : Phys) (root : ℕ) : List (Fin 512) → Option Word
  | [] => none
  | k :: path => (m.tableAt root path).bind fun pt =>
    if m.page pt k &&& pteV = 0 then none else some (m.page pt k)

theorem walkLookup_eq (m : Phys) (root : ℕ) (va : Word) :
    m.walkLookup root va = m.tableAt root [vpn va 1, vpn va 2] := by
  unfold walkLookup
  simp only [tableAt, Option.bind_some]
  split <;> rfl

/-- The entry of an address. -/
theorem leaf_eq (m : Phys) (root : ℕ) (va : Word) (w : Word) :
    m.entryAt root (vpns va) = some w ↔ m.leaf root va = some w ∧ w &&& pteV ≠ 0 := by
  rw [leaf, walkLookup_eq, vpns, entryAt]
  cases htable : m.tableAt root [vpn va 1, vpn va 2] with
  | none => simp
  | some table =>
    by_cases hv : m.page table (vpn va 0) &&& pteV = 0
    · rw [Option.bind_some, if_pos hv, Option.map_some, Option.some.injEq]
      constructor
      · intro h
        cases h
      · rintro ⟨rfl, hw⟩
        exact absurd hv hw
    · rw [Option.bind_some, if_neg hv, Option.map_some, Option.some.injEq]
      constructor
      · rintro rfl
        exact ⟨rfl, hv⟩
      · exact And.left

theorem tableAt_cons {m : Phys} {root pt : ℕ} {k : Fin 512} {path : List (Fin 512)}
    (h : m.tableAt root path = some pt) : m.tableAt root (k :: path) =
      if m.page pt k &&& pteV = 0 then none else some (ptePa (m.page pt k)) := by
  rw [tableAt, h, Option.bind_some]

theorem entryAt_cons {m : Phys} {root pt : ℕ} {k : Fin 512} {path : List (Fin 512)}
    (h : m.tableAt root path = some pt) : m.entryAt root (k :: path) =
      if m.page pt k &&& pteV = 0 then none else some (m.page pt k) := by
  rw [entryAt, h, Option.bind_some]

/-- A table is reached through the table before it. -/
theorem tableAt_tail {m : Phys} {root q : ℕ} {k : Fin 512} {path : List (Fin 512)}
    (h : m.tableAt root (k :: path) = some q) : ∃ pt, m.tableAt root path = some pt ∧
      m.page pt k &&& pteV ≠ 0 ∧ ptePa (m.page pt k) = q := by
  obtain ⟨pt, hpt, hq⟩ := Option.bind_eq_some_iff.mp h
  by_cases hv : m.page pt k &&& pteV = 0
  · rw [if_pos hv] at hq
    exact nomatch hq
  · rw [if_neg hv] at hq
    exact ⟨pt, hpt, hv, Option.some.inj hq⟩

end Phys

variable {kend : ℕ} {own own' : ℕ → Option Role} {m m' m'' : Phys} {free : List ℕ} {pt root : ℕ}
  {i : Fin nproc} {path : List (Fin 512)} {k : Fin 512} {va : Word}

theorem Owned.tableAt {q : ℕ} (h : Owned kend own m free) (hroot : own root = some (.table i []))
    (hlen : path.length ≤ 2) (hq : m.tableAt root path = some q) :
    own q = some (.table i path) := by
  induction path generalizing q with
  | nil => exact Option.some.inj hq ▸ hroot
  | cons k path ih =>
    obtain ⟨pt, hpt, hv, rfl⟩ := Phys.tableAt_tail hq
    rw [List.length_cons] at hlen
    exact h.table pt i path k (ih (by omega) hpt) (by omega) hv

/-- Tables that nobody writes to lead where they did. -/
theorem Owned.tableAt_congr (h : Owned kend own m free) (hroot : own root = some (.table i []))
    (hsame : ∀ q path, own q = some (.table i path) → m'.page q = m.page q)
    (hlen : path.length ≤ 3) : m'.tableAt root path = m.tableAt root path := by
  induction path with
  | nil => rfl
  | cons k path ih =>
    rw [List.length_cons] at hlen
    rw [Phys.tableAt, Phys.tableAt, ih (by omega)]
    cases hpt : m.tableAt root path with
    | none => rfl
    | some pt =>
      rw [Option.bind_some, Option.bind_some,
        hsame pt path (h.tableAt hroot (by omega) hpt)]

theorem Owned.entryAt_congr (h : Owned kend own m free) (hroot : own root = some (.table i []))
    (hsame : ∀ q path, own q = some (.table i path) → m'.page q = m.page q)
    (hlen : path.length ≤ 3) : m'.entryAt root path = m.entryAt root path := by
  cases path with
  | nil => rfl
  | cons k path =>
    rw [List.length_cons] at hlen
    rw [Phys.entryAt, Phys.entryAt, h.tableAt_congr hroot hsame (by omega)]
    cases hpt : m.tableAt root path with
    | none => rfl
    | some pt =>
      rw [Option.bind_some, Option.bind_some,
        hsame pt path (h.tableAt hroot (by omega) hpt)]

/-- The pages that the user can access stay, if the tables do. -/
theorem Owned.userPage_congr {i₂ i₁ i₀ : Fin 512} (h : Owned kend own m free)
    (hroot : own root = some (.table i []))
    (hsame : ∀ q path, own q = some (.table i path) → m'.page q = m.page q) :
    m'.userPage root i₂ i₁ i₀ = m.userPage root i₂ i₁ i₀ := by
  unfold Phys.userPage
  rw [hsame _ _ hroot]
  by_cases hv₂ : m.page root i₂ &&& pteV = 0
  · rw [if_pos hv₂, if_pos hv₂]
  rw [if_neg hv₂, if_neg hv₂]
  have hmid := h.table _ _ _ _ hroot (by simp) hv₂
  dsimp only
  rw [hsame _ _ hmid]
  by_cases hv₁ : m.page (ptePa (m.page root i₂)) i₁ &&& pteV = 0
  · rw [if_pos hv₁, if_pos hv₁]
  rw [if_neg hv₁, if_neg hv₁, hsame _ _ (h.table _ _ _ _ hmid (by simp) hv₁)]

/-- Pages that are not free, and that are no table of slot `i`, are left alone. -/
def Spares (own : ℕ → Option Role) (i : Fin nproc) (m m' : Phys) : Prop :=
  ∀ q, own q ≠ some .free → (∀ path, own q ≠ some (.table i path)) → m'.page q = m.page q

theorem Spares.refl (m : Phys) : Spares own i m m := fun _ _ _ => rfl

theorem Spares.trans (h : Spares own i m m') (hext : Extends own own')
    (h' : Spares own' i m' m'') : Spares own i m m'' := by
  intro q hfree htable
  have heq := hext q hfree
  rw [h' q (by rwa [heq]) (by rwa [heq]), h q hfree htable]

/-- The tables `made` have been made in the page table at `root`. -/
structure Grown (own : ℕ → Option Role) (i : Fin nproc) (root : ℕ)
    (made : Finset (List (Fin 512))) (m m' : Phys) : Prop where
  kept : ∀ path pt, path.length ≤ 2 → m.tableAt root path = some pt → m'.tableAt root path = some pt
  new : ∀ path, path.length ≤ 2 →
    ((m'.tableAt root path).isSome ↔ (m.tableAt root path).isSome ∨ path ∈ made)
  fresh : ∀ path ∈ made, m.tableAt root path = none
  entry : ∀ path, path.length = 3 → m'.entryAt root path = m.entryAt root path
  spares : Spares own i m m'

namespace Grown

variable {made made' : Finset (List (Fin 512))}

theorem refl (m : Phys) : Grown own i root ∅ m m where
  kept _ _ _ h := h
  new path _ := by simp
  fresh path h := absurd h (Finset.notMem_empty path)
  entry _ _ := rfl
  spares := .refl m

theorem trans (h : Grown own i root made m m') (hext : Extends own own')
    (h' : Grown own' i root made' m' m'') (hshort : ∀ path ∈ made', path.length ≤ 2) :
    Grown own i root (made ∪ made') m m'' where
  kept path pt hlen hpt := h'.kept path pt hlen (h.kept path pt hlen hpt)
  new path hlen := by rw [h'.new path hlen, h.new path hlen, Finset.mem_union, or_assoc]
  fresh path hmem := by
    rcases Finset.mem_union.mp hmem with hmem | hmem
    · exact h.fresh path hmem
    · by_contra hsome
      obtain ⟨pt, hpt⟩ := Option.ne_none_iff_exists'.mp hsome
      have hkept := h.kept path pt (hshort path hmem) hpt
      rw [h'.fresh path hmem] at hkept
      exact nomatch hkept
  entry path hlen := (h'.entry path hlen).trans (h.entry path hlen)
  spares := h.spares.trans hext h'.spares

/-- Tables are made once. -/
theorem disjoint (h : Grown own i root made m m') (h' : Grown own' i root made' m' m'')
    (hshort : ∀ path ∈ made, path.length ≤ 2) : Disjoint made made' := by
  refine Finset.disjoint_left.mpr fun path hmem hmem' => ?_
  have hsome := (h.new path (hshort path hmem)).mpr (.inr hmem)
  rw [h'.fresh path hmem'] at hsome
  exact nomatch hsome

end Grown

/-! ## `walk_create` -/

/-- The new empty table `newpt` has been linked to entry `k` of the table `pt`. -/
structure LinkedNew (own : ℕ → Option Role) (m t : Phys) (pt newpt : ℕ) (k : Fin 512) : Prop where
  word : ∀ q j, t.page q j = if q = pt ∧ j = k then paPte newpt ||| pteV
    else if q = newpt then 0 else m.page q j
  free : own newpt = some .free
  missing : m.page pt k &&& pteV = 0

namespace LinkedNew

variable {t : Phys} {newpt : ℕ}

theorem ne_newpt {q : ℕ} {r : Role} (h : LinkedNew own m t pt newpt k) (hq : own q = some r)
    (hr : r ≠ .free) : q ≠ newpt := by
  rintro rfl
  rw [h.free] at hq
  exact hr (Option.some.inj hq).symm

/-- The other words of the pages in use. -/
theorem same {q : ℕ} {j : Fin 512} (h : LinkedNew own m t pt newpt k) (hq : q ≠ newpt)
    (hne : ¬ (q = pt ∧ j = k)) : t.page q j = m.page q j := by
  rw [h.word, if_neg hne, if_neg hq]

theorem zero (h : LinkedNew own m t pt newpt k) (hpt : own pt = some (.table i path))
    (j : Fin 512) : t.page newpt j = 0 := by
  rw [h.word, if_neg fun hc => h.ne_newpt hpt (by simp) hc.1.symm, if_pos rfl]

/-- The tables that were there before. -/
theorem kept {path' : List (Fin 512)} {q : ℕ} (h : LinkedNew own m t pt newpt k)
    (hown : Owned kend own m free) (hroot : own root = some (.table i []))
    (hlen : path'.length ≤ 2) (hq : m.tableAt root path' = some q) :
    t.tableAt root path' = some q := by
  induction path' generalizing q with
  | nil => exact hq
  | cons j path' ih =>
    rw [List.length_cons] at hlen
    obtain ⟨pt', hpt', hv', rfl⟩ := Phys.tableAt_tail hq
    have hown' := hown.tableAt hroot (by omega) hpt'
    have hsame : t.page pt' j = m.page pt' j := by
      refine h.same (h.ne_newpt hown' (by simp)) ?_
      rintro ⟨rfl, rfl⟩
      exact hv' h.missing
    rw [Phys.tableAt_cons (ih (by omega) hpt'), hsame, if_neg hv']

theorem made (h : LinkedNew own m t pt newpt k) (hown : Owned kend own m free)
    (hroot : own root = some (.table i [])) (hpt : m.tableAt root path = some pt)
    (hlen : path.length < 2) : t.tableAt root (k :: path) = some newpt := by
  rw [Phys.tableAt_cons (h.kept hown hroot (by omega) hpt), h.word, if_pos (And.intro rfl rfl),
    if_neg (Owned.valid_or _)]
  exact congrArg some ((hown.range _ _ h.free).ptePa (by decide))

/-- A table that is there now was there before, or has just been made. -/
theorem back {path' : List (Fin 512)} {q : ℕ} (h : LinkedNew own m t pt newpt k)
    (hown : Owned kend own m free) (hroot : own root = some (.table i []))
    (hpt : own pt = some (.table i path)) (hlen : path'.length ≤ 2)
    (hq : t.tableAt root path' = some q) :
    m.tableAt root path' = some q ∨ path' = k :: path ∧ q = newpt := by
  induction path' generalizing q with
  | nil => exact .inl hq
  | cons j path' ih =>
    rw [List.length_cons] at hlen
    obtain ⟨pt', hpt', hv', rfl⟩ := Phys.tableAt_tail hq
    rcases ih (by omega) hpt' with hold | ⟨rfl, rfl⟩
    · have hown' := hown.tableAt hroot (by omega) hold
      by_cases hhere : pt' = pt ∧ j = k
      · obtain ⟨rfl, rfl⟩ := hhere
        rw [hpt] at hown'
        cases hown'
        refine .inr ⟨rfl, ?_⟩
        rw [h.word, if_pos (And.intro rfl rfl)]
        exact (hown.range _ _ h.free).ptePa (by decide)
      · have hsame := h.same (h.ne_newpt hown' (by simp)) hhere
        rw [hsame] at hv' ⊢
        exact .inl (by rw [Phys.tableAt_cons hold, if_neg hv'])
    · rw [h.zero hpt] at hv'
      exact absurd (by decide) hv'

/-- No entry of the last level changes. -/
theorem entry {path' : List (Fin 512)} (h : LinkedNew own m t pt newpt k)
    (hown : Owned kend own m free) (hroot : own root = some (.table i []))
    (hpt : own pt = some (.table i path)) (hlen : path.length < 2) (hlen' : path'.length = 3) :
    t.entryAt root path' = m.entryAt root path' := by
  obtain ⟨j, path', rfl⟩ := List.exists_cons_of_length_eq_add_one hlen'
  rw [List.length_cons] at hlen'
  have hshort : path'.length ≤ 2 := by omega
  cases hold : m.tableAt root path' with
  | some q =>
    have hown' := hown.tableAt hroot hshort hold
    rw [Phys.entryAt_cons (h.kept hown hroot hshort hold), Phys.entryAt_cons hold,
      h.same (h.ne_newpt hown' (by simp))]
    rintro ⟨rfl, -⟩
    rw [hpt] at hown'
    cases hown'
    omega
  | none =>
    have hnone : m.entryAt root (j :: path') = none := by
      rw [Phys.entryAt, hold, Option.bind_none]
    rw [hnone, Phys.entryAt]
    cases hnow : t.tableAt root path' with
    | none => rfl
    | some q =>
      rcases h.back hown hroot hpt hshort hnow with hc | ⟨-, rfl⟩
      · rw [hold] at hc
        exact nomatch hc
      · rw [Option.bind_some, h.zero hpt, if_pos (by decide)]

theorem grown (h : LinkedNew own m t pt newpt k) (hown : Owned kend own m free)
    (hroot : own root = some (.table i [])) (hpt : m.tableAt root path = some pt)
    (hlen : path.length < 2) : Grown own i root {k :: path} m t := by
  have htable := hown.tableAt hroot (by omega) hpt
  have hmade := h.made hown hroot hpt hlen
  refine ⟨fun path' q hlen' hq => h.kept hown hroot hlen' hq, fun path' hlen' => ⟨?_, ?_⟩, ?_,
    fun path' hlen' => h.entry hown hroot htable hlen hlen', fun q hq htab => ?_⟩
  · intro hsome
    obtain ⟨q, hq⟩ := Option.isSome_iff_exists.mp hsome
    rcases h.back hown hroot htable hlen' hq with hold | ⟨rfl, -⟩
    · exact .inl (by rw [hold]; rfl)
    · exact .inr (Finset.mem_singleton_self _)
  · rintro (hsome | hmem)
    · obtain ⟨q, hq⟩ := Option.isSome_iff_exists.mp hsome
      rw [h.kept hown hroot hlen' hq]
      rfl
    · rw [Finset.mem_singleton.mp hmem, hmade]
      rfl
  · intro path' hmem
    rw [Finset.mem_singleton.mp hmem, Phys.tableAt_cons hpt, if_pos h.missing]
  · funext j
    refine h.same ?_ ?_
    · rintro rfl
      exact hq h.free
    · rintro ⟨rfl, -⟩
      exact htab path htable

end LinkedNew

namespace Owned

theorem allocPage_empty (h : Owned kend own m []) : m.allocPage = (0, m) := by
  rw [Phys.allocPage, if_pos h.chain.head_nil]

theorem allocPage_cons {pa : ℕ} (hk : 0 < kend) (h : Owned kend own m (pa :: free)) :
    ∃ m', m.allocPage = (pa, m') ∧ pa ≠ 0 ∧ own pa = some .free ∧ m'.page = m.page ∧
      Owned kend (Function.update own pa (some .taken)) m' free := by
  have hpa := h.pos hk (h.free pa List.mem_cons_self)
  have hhead := h.chain.head_cons
  have halloc : m.allocPage = (pa, { m with freelist := (m.page pa 0).toNat }) := by
    rw [Phys.allocPage, hhead, if_neg hpa]
  obtain ⟨free', hcons, hfree, hpage, h'⟩ := h.allocPage halloc hpa
  obtain rfl := (List.cons.inj hcons).2
  exact ⟨_, halloc, hpa, hfree, hpage, h'⟩

/-- The table that an index leads to next is made if it is missing and a page is free. -/
theorem walkStep_grown (h : Owned kend own m free) (va : Word) (level : ℕ) (hk : 0 < kend)
    (hroot : own root = some (.table i [])) (hpt : m.tableAt root path = some pt)
    (hlen : path.length < 2) :
    (∃ pa m' own' free' made, m.walkStep pt va level = some (pa, m') ∧
      Owned kend own' m' free' ∧ Extends own own' ∧ Grown own i root made m m' ∧
      made = ({vpn va level :: path} : Finset _).filter (fun q => m.tableAt root q = none) ∧
      free.length = free'.length + made.card ∧
      m'.tableAt root (vpn va level :: path) = some pa) ∨
    m.walkStep pt va level = none ∧ m.tableAt root (vpn va level :: path) = none ∧ free = [] := by
  have hown := h.tableAt hroot (by omega) hpt
  have hnext := Phys.tableAt_cons (k := vpn va level) hpt
  by_cases hv : m.page pt (vpn va level) &&& pteV = 0
  · rw [if_pos hv] at hnext
    cases free with
    | nil =>
      refine .inr ⟨?_, hnext, rfl⟩
      simp [Phys.walkStep, hv, h.allocPage_empty]
    | cons newpt free =>
      obtain ⟨m₁, halloc, hnew, hfree, hpage, h₁⟩ := h.allocPage_cons hk
      have hstep : m.walkStep pt va level = some (newpt, (m₁.fill newpt fun _ => 0).store pt
          (vpn va level) (paPte newpt ||| pteV)) := by
        simp [Phys.walkStep, hv, halloc, hnew]
      obtain ⟨own', free', h', hext, hpa'⟩ := h.walkStep hown hlen hstep
      have hne : pt ≠ newpt := by
        rintro rfl
        rw [hown] at hfree
        cases hfree
      have hlinked : LinkedNew own m ((m₁.fill newpt fun _ => 0).store pt (vpn va level)
          (paPte newpt ||| pteV)) pt newpt (vpn va level) := by
        refine ⟨fun q j => ?_, hfree, hv⟩
        by_cases hq : q = pt
        · subst hq
          by_cases hj : j = vpn va level <;> simp [Phys.store, Phys.fill, hj, hne, hpage]
        · by_cases hq' : q = newpt
          · subst hq'
            simp [Phys.store, Phys.fill, hq]
          · simp [Phys.store, Phys.fill, hq, hq', hpage]
      have hfilter : ({vpn va level :: path} : Finset (List (Fin 512))).filter
          (fun q => m.tableAt root q = none) = {vpn va level :: path} := by
        rw [Finset.filter_singleton, if_pos hnext]
      refine .inl ⟨newpt, _, own', free', {vpn va level :: path}, hstep, h', hext,
        hlinked.grown h hroot hpt hlen, hfilter.symm, ?_, hlinked.made h hroot hpt hlen⟩
      -- the list goes on after the page that was taken
      have hchain : Chain (fun pa => (((m₁.fill newpt fun _ => 0).store pt
          (vpn va level) (paPte newpt ||| pteV)).page pa 0).toNat) 0 _ _ := h₁.chain.congr fun q hq => by
        have hq' := h.free q (List.mem_cons_of_mem _ hq)
        have hqnew : q ≠ newpt := by
          rintro rfl
          exact (List.nodup_cons.mp h.chain.nodup).1 hq
        rw [hlinked.same hqnew, hpage]
        rintro ⟨rfl, -⟩
        rw [hown] at hq'
        cases hq'
      rw [h'.chain.unique hchain, List.length_cons, Finset.card_singleton]
  · rw [if_neg hv] at hnext
    have hfilter : ({vpn va level :: path} : Finset (List (Fin 512))).filter
        (fun q => m.tableAt root q = none) = ∅ := by
      rw [Finset.filter_singleton, if_neg (by rw [hnext]; exact fun hnot => by cases hnot)]
    refine .inl ⟨_, m, own, free, ∅, ?_, h, .refl own, .refl m, hfilter.symm, ?_, hnext⟩
    · rw [Phys.walkStep]
      exact if_pos hv
    · rw [Finset.card_empty, Nat.add_zero]

/-- The tables on the way to an address. -/
def tablesTo (va : Word) : Finset (List (Fin 512)) := {[vpn va 2], [vpn va 1, vpn va 2]}

theorem length_tablesTo (h : path ∈ tablesTo va) : path.length ≤ 2 := by
  rcases Finset.mem_insert.mp h with rfl | h
  · simp
  · rw [Finset.mem_singleton.mp h]
    simp

/-- `walk_create` makes the tables that are missing, or follows a null pointer. -/
theorem walkCreate_grown (h : Owned kend own m free) (va : Word) (hk : 0 < kend)
    (hroot : own root = some (.table i [])) :
    (∃ pa m' own' free' made, m.walkCreate root va = some (pa, m') ∧
      Owned kend own' m' free' ∧ Extends own own' ∧ Grown own i root made m m' ∧
      made = (tablesTo va).filter (fun q => m.tableAt root q = none) ∧
      free.length = free'.length + made.card ∧
      m'.tableAt root [vpn va 1, vpn va 2] = some pa) ∨
    m.walkCreate root va = none ∧
      free.length < ((tablesTo va).filter fun q => m.tableAt root q = none).card := by
  have hne : ([vpn va 2] : List (Fin 512)) ≠ [vpn va 1, vpn va 2] := by simp
  have hsplit : (tablesTo va).filter (fun q => m.tableAt root q = none) =
      ({[vpn va 2]} : Finset _).filter (fun q => m.tableAt root q = none) ∪
        ({[vpn va 1, vpn va 2]} : Finset _).filter (fun q => m.tableAt root q = none) := by
    rw [← Finset.filter_union]
    rfl
  have hnil : m.tableAt root [] = some root := rfl
  rcases h.walkStep_grown va 2 hk hroot hnil (by decide) with
    ⟨mid, m₁, own₁, free₁, made₁, hstep₁, h₁, hext₁, hgrown₁, hmade₁, hcount₁, hmid⟩ |
      ⟨hstep, hmissing, rfl⟩
  · have hroot₁ := hext₁.of_role hroot (by simp)
    have hshort₁ : ∀ path ∈ made₁, path.length ≤ 2 := fun path hpath => by
      rw [hmade₁] at hpath
      rw [Finset.mem_singleton.mp (Finset.mem_of_mem_filter path hpath)]
      simp
    -- the second table is missing now if it was missing before
    have hsecond : m₁.tableAt root [vpn va 1, vpn va 2] = none ↔
        m.tableAt root [vpn va 1, vpn va 2] = none := by
      have hiff := hgrown₁.new [vpn va 1, vpn va 2] (by simp)
      have hnot : [vpn va 1, vpn va 2] ∉ made₁ := by
        rw [hmade₁]
        intro hmem
        exact hne (Finset.mem_singleton.mp (Finset.mem_of_mem_filter _ hmem)).symm
      rw [or_iff_left hnot] at hiff
      rw [← Option.not_isSome_iff_eq_none, ← Option.not_isSome_iff_eq_none, hiff]
    have hfilter : ({[vpn va 1, vpn va 2]} : Finset (List (Fin 512))).filter
        (fun q => m₁.tableAt root q = none) =
          ({[vpn va 1, vpn va 2]} : Finset _).filter (fun q => m.tableAt root q = none) := by
      rw [Finset.filter_singleton, Finset.filter_singleton]
      simp only [hsecond]
    have hwalk : m.walkCreate root va = m₁.walkStep mid va 1 := by
      rw [Phys.walkCreate, hstep₁]
      rfl
    rcases h₁.walkStep_grown va 1 hk hroot₁ hmid (by simp) with
      ⟨pa, m₂, own₂, free₂, made₂, hstep₂, h₂, hext₂, hgrown₂, hmade₂, hcount₂, hpa⟩ |
        ⟨hstep₂, hmissing, rfl⟩
    · have hshort₂ : ∀ path ∈ made₂, path.length ≤ 2 := fun path hpath => by
        rw [hmade₂] at hpath
        rw [Finset.mem_singleton.mp (Finset.mem_of_mem_filter path hpath)]
        simp
      refine .inl ⟨pa, m₂, own₂, free₂, made₁ ∪ made₂, hwalk.trans hstep₂, h₂, hext₁.trans hext₂,
        hgrown₁.trans hext₁ hgrown₂ hshort₂, ?_, ?_, hpa⟩
      · rw [hsplit, hmade₁, hmade₂, hfilter]
      · rw [Finset.card_union_of_disjoint (hgrown₁.disjoint hgrown₂ hshort₁)]
        omega
    · refine .inr ⟨hwalk.trans hstep₂, ?_⟩
      have hone : ({[vpn va 1, vpn va 2]} : Finset (List (Fin 512))).filter
          (fun q => m.tableAt root q = none) = {[vpn va 1, vpn va 2]} := by
        rw [Finset.filter_singleton, if_pos (hsecond.mp hmissing)]
      rw [hsplit, ← hmade₁, hone, Finset.card_union_of_disjoint, Finset.card_singleton, hcount₁,
        List.length_nil]
      · omega
      · rw [Finset.disjoint_singleton_right, hmade₁]
        intro hmem
        exact hne (Finset.mem_singleton.mp (Finset.mem_of_mem_filter _ hmem)).symm
  · refine .inr ⟨?_, Finset.card_pos.mpr ⟨[vpn va 2], ?_⟩⟩
    · rw [Phys.walkCreate, hstep]
      rfl
    · exact Finset.mem_filter.mpr ⟨Finset.mem_insert_self _ _, hmissing⟩

end Owned

/-! ## `map_page` -/

/-- The entry of an address has been set, and the tables on the way to it are there. -/
structure MappedAt (own : ℕ → Option Role) (i : Fin nproc) (root : ℕ) (va w : Word)
    (m m' : Phys) : Prop where
  kept : ∀ path pt, path.length ≤ 2 → m.tableAt root path = some pt → m'.tableAt root path = some pt
  new : ∀ path, path.length ≤ 2 →
    ((m'.tableAt root path).isSome ↔ (m.tableAt root path).isSome ∨ path ∈ Owned.tablesTo va)
  entry : m'.entryAt root (vpns va) = some w
  other : ∀ path, path.length = 3 → path ≠ vpns va → m'.entryAt root path = m.entryAt root path
  spares : Spares own i m m'

namespace Owned

/-- The number of tables that are missing on the way to an address. -/
def missing (m : Phys) (root : ℕ) (va : Word) : ℕ :=
  ((tablesTo va).filter fun q => m.tableAt root q = none).card

/-- An entry of a last-level table is set. -/
theorem store_entry {w : Word} (h : Owned kend own m free) (hroot : own root = some (.table i []))
    (htable : m.tableAt root [vpn va 1, vpn va 2] = some pt) (hw : w &&& pteV ≠ 0) :
    (∀ path, path.length ≤ 2 →
      (m.store pt (vpn va 0) w).tableAt root path = m.tableAt root path) ∧
    (m.store pt (vpn va 0) w).entryAt root (vpns va) = some w ∧
    (∀ path, path.length = 3 → path ≠ vpns va →
      (m.store pt (vpn va 0) w).entryAt root path = m.entryAt root path) ∧
    Spares own i m (m.store pt (vpn va 0) w) := by
  have hpt := h.tableAt hroot (by simp) htable
  have hword : ∀ q j, ¬ (q = pt ∧ j = vpn va 0) →
      (m.store pt (vpn va 0) w).page q j = m.page q j := by
    intro q j hne
    by_cases hq : q = pt
    · subst hq
      have hj : j ≠ vpn va 0 := fun hj => hne ⟨rfl, hj⟩
      simp [Phys.store, Phys.fill, hj]
    · simp [Phys.store, Phys.fill, hq]
  have htables : ∀ path, path.length ≤ 2 →
      (m.store pt (vpn va 0) w).tableAt root path = m.tableAt root path := by
    intro path hlen
    induction path with
    | nil => rfl
    | cons k path ih =>
      rw [List.length_cons] at hlen
      rw [Phys.tableAt, Phys.tableAt, ih (by omega)]
      cases hq : m.tableAt root path with
      | none => rfl
      | some q =>
        have hown := h.tableAt hroot (by omega) hq
        rw [Option.bind_some, Option.bind_some, hword]
        rintro ⟨rfl, -⟩
        rw [hpt] at hown
        cases hown
        simp at hlen
  refine ⟨htables, ?_, fun path hlen hne => ?_, fun q _ htab => ?_⟩
  · rw [vpns, Phys.entryAt_cons ((htables _ (by simp)).trans htable)]
    have hself : (m.store pt (vpn va 0) w).page pt (vpn va 0) = w := by simp [Phys.store, Phys.fill]
    rw [hself, if_neg hw]
  · obtain ⟨k, path, rfl⟩ := List.exists_cons_of_length_eq_add_one hlen
    rw [List.length_cons] at hlen
    rw [Phys.entryAt, Phys.entryAt, htables path (by omega)]
    cases hq : m.tableAt root path with
    | none => rfl
    | some q =>
      have hown := h.tableAt hroot (by omega) hq
      rw [Option.bind_some, Option.bind_some, hword]
      rintro ⟨rfl, rfl⟩
      rw [hpt] at hown
      cases hown
      exact hne rfl
  · funext j
    refine hword q j ?_
    rintro ⟨rfl, -⟩
    exact htab _ hpt

/-- `map_page` sets the entry, at the cost of the tables that are missing, or follows a null
pointer. -/
theorem mapPage_at (h : Owned kend own m free) (va : Word) (target : ℕ) (perm : Word) (hk : 0 < kend)
    (hroot : own root = some (.table i [])) :
    (∃ m' pages, m.mapPage root va target perm = some (0, m') ∧
      MappedAt own i root va (paPte target ||| perm ||| pteV) m m' ∧
      Chain (fun pa => (m'.page pa 0).toNat) 0 m'.freelist pages ∧
      free.length = pages.length + missing m root va) ∨
    m.mapPage root va target perm = none ∧ free.length < missing m root va := by
  rcases h.walkCreate_grown va hk hroot with
    ⟨pa, m₁, own₁, free₁, made, hwalk, h₁, hext, hgrown, hmade, hcount, hpa⟩ | ⟨hwalk, hshort⟩
  · have hroot₁ := hext.of_role hroot (by simp)
    have hrole := h₁.tableAt hroot₁ (by simp) hpa
    obtain ⟨htables, hentry, hother, hspares⟩ :=
      h₁.store_entry (w := paPte target ||| perm ||| pteV) hroot₁ hpa (valid_or _)
    have hne : ¬ (pa = 0 ∧ vpn va 0 = 0) := fun hc => h₁.pos hk hrole hc.1
    refine .inl ⟨m₁.store pa (vpn va 0) (paPte target ||| perm ||| pteV), free₁, ?_,
      ⟨fun path q hlen hq => ?_, fun path hlen => ?_, hentry, fun path hlen hpath => ?_,
        hgrown.spares.trans hext hspares⟩, ?_, ?_⟩
    · rw [Phys.mapPage, hwalk]
      exact if_neg hne
    · rw [htables path hlen]
      exact hgrown.kept path q hlen hq
    · rw [htables path hlen, hgrown.new path hlen, hmade, Finset.mem_filter]
      constructor
      · rintro (hsome | ⟨hmem, -⟩)
        · exact .inl hsome
        · exact .inr hmem
      · rintro (hsome | hmem)
        · exact .inl hsome
        · by_cases hnone : m.tableAt root path = none
          · exact .inr ⟨hmem, hnone⟩
          · exact .inl (Option.isSome_iff_ne_none.mpr hnone)
    · rw [hother path hlen hpath, hgrown.entry path hlen]
    · refine h₁.chain.congr fun q hq => ?_
      have hfree := h₁.free q hq
      have hqpa : q ≠ pa := by
        rintro rfl
        rw [hrole] at hfree
        exact nomatch hfree
      simp [Phys.store, Phys.fill, hqpa]
    · rw [missing, ← hmade]
      exact hcount
  · refine .inr ⟨?_, hshort⟩
    rw [Phys.mapPage, hwalk]
    rfl

end Owned

end RiscvOs
