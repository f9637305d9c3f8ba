import RiscvOs.Vm.Owned

/-!
# Memories that agree on the pages in use

Two memories that hold the same words in every page that has a role, and the same free
list, cannot be told apart by the functions of `pmm.c` and `vm.c`: `alloc_page` reads
the head of the free list, `walk_create` the page tables.  `Same` relates what such a
function makes of two memories, and a chain of calls is compared with `Same.bind`.
-/

namespace RiscvOs

open LinkedList

/-- The memories have the same free list and the same words in the pages of `P`. -/
structure Agree (P : ℕ → Prop) (m t : Phys) : Prop where
  freelist : t.freelist = m.freelist
  page : ∀ pa, P pa → t.page pa = m.page pa

/-- Both fail, or both give the same answer and memories that agree. -/
inductive Same (P : ℕ → Prop) {α : Type} : Option (α × Phys) → Option (α × Phys) → Prop
  | none : Same P none none
  | some {a : α} {m t : Phys} (h : Agree P m t) : Same P (some (a, m)) (some (a, t))

variable {P : ℕ → Prop} {m t : Phys} {α β : Type}

theorem Same.bind {x y : Option (α × Phys)} {f g : α × Phys → Option (β × Phys)}
    (h : Same P x y)
    (hf : ∀ a m t, x = Option.some (a, m) → Agree P m t → Same P (f (a, m)) (g (a, t))) :
    Same P (x.bind f) (y.bind g) := by
  cases h with
  | none => exact .none
  | some h => exact hf _ _ _ rfl h

/-- What two related memories are turned into is related. -/
theorem Same.rel {γ : Type} {R : γ → γ → Prop} {x y : Option (α × Phys)}
    {f g : α × Phys → Option γ} (h : Same P x y)
    (hf : ∀ a m t, x = Option.some (a, m) → Agree P m t → Option.Rel R (f (a, m)) (g (a, t))) :
    Option.Rel R (x.bind f) (y.bind g) := by
  cases h with
  | none => exact .none
  | some h => exact hf _ _ _ rfl h

theorem Same.rel_map {γ : Type} {R : γ → γ → Prop} {x y : Option (α × Phys)}
    {f g : α × Phys → γ} (h : Same P x y)
    (hf : ∀ a m t, x = Option.some (a, m) → Agree P m t → R (f (a, m)) (g (a, t))) :
    Option.Rel R (x.map f) (y.map g) := by
  cases h with
  | none => exact .none
  | some h => exact .some (hf _ _ _ rfl h)

namespace Agree

theorem fill (h : Agree P m t) (pa : ℕ) (c : Page) : Agree P (m.fill pa c) (t.fill pa c) := by
  refine ⟨h.freelist, fun q hq => ?_⟩
  by_cases hqp : q = pa
  · subst hqp
    simp [Phys.fill]
  · simpa [Phys.fill, hqp] using h.page q hq

theorem store (h : Agree P m t) {pa : ℕ} (hpa : P pa) (k : Fin 512) (w : Word) :
    Agree P (m.store pa k w) (t.store pa k w) := by
  unfold Phys.store
  rw [h.page pa hpa]
  exact h.fill pa _

theorem freePage (h : Agree P m t) {pa : ℕ} (hpa : P pa) :
    Agree P (m.freePage pa) (t.freePage pa) := by
  have hstore := h.store hpa 0 (BitVec.ofNat 64 m.freelist)
  refine ⟨rfl, fun q hq => ?_⟩
  simp only [Phys.freePage, h.freelist]
  exact hstore.page q hq

variable {kend pt : ℕ} {own : ℕ → Option Role} {free : List ℕ} {i : Fin nproc}
  {path : List (Fin 512)} {va : Word}

/-- `alloc_page` takes the same page. -/
theorem allocPage (h : Agree P m t) (hown : Owned kend own m free)
    (hP : ∀ pa, own pa ≠ none → P pa) :
    ∃ pa m' t', m.allocPage = (pa, m') ∧ t.allocPage = (pa, t') ∧ Agree P m' t' := by
  unfold Phys.allocPage
  rw [h.freelist]
  split
  · exact ⟨0, m, t, rfl, rfl, h⟩
  · next hne =>
    obtain ⟨free', rfl, -⟩ := hown.chain.eq_cons hne
    have hhead := hP m.freelist (by simp [hown.free _ List.mem_cons_self])
    refine ⟨_, _, _, rfl, rfl, ?_, h.page⟩
    rw [h.page _ hhead]

theorem createPagetable (h : Agree P m t) (hown : Owned kend own m free)
    (hP : ∀ pa, own pa ≠ none → P pa) : Same P m.createPagetable t.createPagetable := by
  obtain ⟨pa, m', t', hm, ht, hagree⟩ := h.allocPage hown hP
  unfold Phys.createPagetable
  simp only [hm, ht]
  split
  · exact .none
  · exact .some (hagree.fill _ _)

theorem walkStep {level : ℕ} (h : Agree P m t) (hown : Owned kend own m free)
    (hP : ∀ pa, own pa ≠ none → P pa) (hpt : own pt = some (.table i path)) :
    Same P (m.walkStep pt va level) (t.walkStep pt va level) := by
  have hPpt := hP pt (by simp [hpt])
  obtain ⟨pa, m', t', hm, ht, hagree⟩ := h.allocPage hown hP
  unfold Phys.walkStep
  simp only [h.page pt hPpt, hm, ht]
  split
  · exact .some h
  · split
    · exact .none
    · exact .some ((hagree.fill _ _).store hPpt _ _)

theorem walkCreate (h : Agree P m t) (hown : Owned kend own m free)
    (hP : ∀ pa, own pa ≠ none → P pa) (hpt : own pt = some (.table i [])) :
    Same P (m.walkCreate pt va) (t.walkCreate pt va) := by
  refine (h.walkStep hown hP hpt).bind fun mid m₁ t₁ hmid h₁ => ?_
  obtain ⟨own₁, free₁, hown₁, hext₁, hmid'⟩ := hown.walkStep hpt (by simp) hmid
  exact h₁.walkStep hown₁ (fun pa hpa => hP pa (hext₁.of_ne_none hpa)) hmid'

theorem mapPage {target : ℕ} {perm : Word} (h : Agree P m t) (hown : Owned kend own m free)
    (hP : ∀ pa, own pa ≠ none → P pa) (hpt : own pt = some (.table i [])) :
    Same P (m.mapPage pt va target perm) (t.mapPage pt va target perm) := by
  refine (h.walkCreate hown hP hpt).bind fun leaf m₁ t₁ hleaf h₁ => ?_
  obtain ⟨own₁, free₁, hown₁, hext₁, hleaf'⟩ := hown.walkCreate hpt hleaf
  have hPleaf := hP leaf (hext₁.of_ne_none (by simp [hleaf']))
  dsimp only
  split
  · exact .some h₁
  · exact .some (h₁.store hPleaf _ _)

/-- The page that was just allocated is filled and mapped. -/
theorem addPage {pa : ℕ} {perm : Word} {m₁ t₁ : Phys} (h : Agree P m₁ t₁)
    (hown : Owned kend own m free) (hP : ∀ pa, own pa ≠ none → P pa)
    (hpt : own pt = some (.table i [])) (halloc : m.allocPage = (pa, m₁)) (hpa : pa ≠ 0) (c : Page) :
    Same P ((m₁.fill pa c).mapPage pt va pa perm) ((t₁.fill pa c).mapPage pt va pa perm) := by
  obtain ⟨own₁, free₁, hown₁, hext, htaken⟩ := hown.allocFor (r := .taken) halloc hpa (by simp)
  exact (h.fill pa c).mapPage (hown₁.fill (by simp [htaken]) (by simp [htaken]) c)
    (fun q hq => hP q (hext.of_ne_none hq)) (hext.of_role hpt (by simp))

theorem walkLookup (h : Agree P m t) (hown : Owned kend own m free)
    (hP : ∀ pa, own pa ≠ none → P pa) (hpt : own pt = some (.table i [])) :
    t.walkLookup pt va = m.walkLookup pt va := by
  unfold Phys.walkLookup
  rw [h.page pt (hP pt (by simp [hpt]))]
  split
  · rfl
  · next hv =>
    have hmid := hown.table _ _ _ _ hpt (by simp) hv
    dsimp only
    rw [h.page _ (hP _ (by simp [hmid]))]

theorem userPage {i₂ i₁ i₀ : Fin 512} (h : Agree P m t) (hown : Owned kend own m free)
    (hP : ∀ pa, own pa ≠ none → P pa) (hpt : own pt = some (.table i [])) :
    t.userPage pt i₂ i₁ i₀ = m.userPage pt i₂ i₁ i₀ := by
  unfold Phys.userPage
  rw [h.page pt (hP pt (by simp [hpt]))]
  split
  · rfl
  next hv₂ =>
  have hmid := hown.table _ _ _ _ hpt (by simp) hv₂
  dsimp only
  rw [h.page _ (hP _ (by simp [hmid]))]
  split
  · rfl
  next hv₁ =>
  have hleaf := hown.table _ _ _ _ hmid (by simp) hv₁
  rw [h.page _ (hP _ (by simp [hleaf]))]

end Agree

end RiscvOs
