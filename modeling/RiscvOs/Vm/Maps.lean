import Mathlib.Data.Fintype.Card
import RiscvOs.Vm.Owned

/-!
# Mapped pages

`map_page` writes one last-level entry, and makes the tables on the way to it where there
are none.  Every other entry that is in use stays what it is (`EntriesKept`), so what
`walk_lookup` finds for another address is still found.

Since the pages mapped at different addresses are different pages, no more of them are
mapped than fit into memory (`Owned.mapped_le`).
-/

namespace RiscvOs

open LinkedList

/-- The indices of an address, the last one first. -/
def vpns (va : Word) : List (Fin 512) := [vpn va 0, vpn va 1, vpn va 2]

namespace Phys

/-- The last-level entry for `va`, if there is a table for it. -/
def leaf (m : Phys) (pt : ℕ) (va : Word) : Option Word :=
  (m.walkLookup pt va).map fun table => m.page table (vpn va 0)

theorem allocPage_page {m m' : Phys} {pa : ℕ} (h : m.allocPage = (pa, m')) : m'.page = m.page := by
  unfold allocPage at h
  split at h <;> obtain ⟨-, rfl⟩ := Prod.mk.inj h <;> rfl

end Phys

/-- The entries that lead to a table stay, and so do the last-level entries that are not hit. -/
structure EntriesKept (own : ℕ → Option Role) (hit : Fin nproc → List (Fin 512) → Prop)
    (m m' : Phys) : Prop where
  table : ∀ pa i path k, own pa = some (.table i path) → path.length < 2 →
    m.page pa k &&& pteV ≠ 0 → m'.page pa k = m.page pa k
  last : ∀ pa i path k, own pa = some (.table i path) → path.length = 2 → ¬ hit i (k :: path) →
    m'.page pa k = m.page pa k

variable {kend : ℕ} {own own' : ℕ → Option Role} {hit hit' : Fin nproc → List (Fin 512) → Prop}
  {m m' m'' : Phys} {free : List ℕ} {pa pt root : ℕ} {i : Fin nproc} {va : Word}

namespace EntriesKept

theorem of_page (h : ∀ pa i path, own pa = some (.table i path) → m'.page pa = m.page pa) :
    EntriesKept own hit m m' :=
  ⟨fun pa i path _ hpa _ _ => by rw [h pa i path hpa], fun pa i path _ hpa _ _ => by
    rw [h pa i path hpa]⟩

theorem refl (m : Phys) : EntriesKept own hit m m := of_page fun _ _ _ _ => rfl

theorem mono (h : EntriesKept own hit m m') (hhit : ∀ i path, hit i path → hit' i path) :
    EntriesKept own hit' m m' :=
  ⟨h.table, fun pa i path k hpa hlen hk => h.last pa i path k hpa hlen fun hk' => hk (hhit _ _ hk')⟩

theorem trans (h : EntriesKept own hit m m') (hext : Extends own own')
    (h' : EntriesKept own' hit m' m'') : EntriesKept own hit m m'' := by
  refine ⟨fun pa i path k hpa hlen hv => ?_, fun pa i path k hpa hlen hk => ?_⟩
  · have heq := h.table pa i path k hpa hlen hv
    rw [h'.table pa i path k (hext.of_role hpa (by simp)) hlen (by rwa [heq]), heq]
  · rw [h'.last pa i path k (hext.of_role hpa (by simp)) hlen hk, h.last pa i path k hpa hlen hk]

/-- `walk_lookup` finds the same table again. -/
theorem walkLookup (h : EntriesKept own hit m m') (hown : Owned kend own m free)
    (hroot : own root = some (.table i [])) (hw : m.walkLookup root va = some pa) :
    m'.walkLookup root va = some pa := by
  unfold Phys.walkLookup at hw
  split at hw
  · exact nomatch hw
  next hv₂ =>
  dsimp only at hw
  split at hw
  · exact nomatch hw
  next hv₁ =>
  have hmid := hown.table _ _ _ _ hroot (by simp) hv₂
  unfold Phys.walkLookup
  rw [h.table _ _ _ _ hroot (by simp) hv₂, if_neg hv₂]
  dsimp only
  rw [h.table _ _ _ _ hmid (by simp) hv₁, if_neg hv₁]
  exact hw

/-- An entry that is not hit is found again. -/
theorem leaf {w : Word} (h : EntriesKept own hit m m') (hown : Owned kend own m free)
    (hroot : own root = some (.table i [])) (hhit : ¬ hit i (vpns va))
    (hw : m.leaf root va = some w) : m'.leaf root va = some w := by
  obtain ⟨table, htable, rfl⟩ := Option.map_eq_some_iff.mp hw
  have hlast := hown.walkLookup hroot htable
  rw [Phys.leaf, h.walkLookup hown hroot htable, Option.map_some,
    h.last _ _ _ (vpn va 0) hlast (by simp) hhit]

theorem fill (htable : ∀ i path, own pa ≠ some (.table i path)) (c : Page) :
    EntriesKept own hit m (m.fill pa c) := by
  refine of_page fun q i path hq => ?_
  have hne : q ≠ pa := by
    rintro rfl
    exact htable i path hq
  simp [Phys.fill, hne]

theorem freePage (htable : ∀ i path, own pa ≠ some (.table i path)) :
    EntriesKept own hit m (m.freePage pa) := by
  have h : EntriesKept own hit m
      (m.fill pa (Function.update (m.page pa) 0 (BitVec.ofNat 64 m.freelist))) := fill htable _
  exact ⟨h.table, h.last⟩

theorem allocPage (h : m.allocPage = (pa, m')) : EntriesKept own hit m m' :=
  of_page fun q _ _ _ => by rw [Phys.allocPage_page h]

end EntriesKept

namespace Owned

theorem createPagetable_kept (h : Owned kend own m free) (hc : m.createPagetable = some (pt, m')) :
    EntriesKept own hit m m' := by
  unfold Phys.createPagetable at hc
  rcases halloc : m.allocPage with ⟨pa, m₁⟩
  simp only [halloc] at hc
  split at hc
  · exact nomatch hc
  · next hpa =>
    obtain ⟨rfl, rfl⟩ := by simpa using hc
    obtain ⟨free', rfl, hfree, -, -⟩ := h.allocPage halloc hpa
    refine EntriesKept.of_page fun q i path hq => ?_
    have hne : q ≠ pa := by
      rintro rfl
      simp [hfree] at hq
    simp [Phys.fill, hne, Phys.allocPage_page halloc]

/-- A turn of `walk_create` sets an entry only if it leads nowhere yet. -/
theorem walkStep_kept {level : ℕ} {path : List (Fin 512)} (h : Owned kend own m free)
    (hpt : own pt = some (.table i path)) (hlen : path.length < 2)
    (hw : m.walkStep pt va level = some (pa, m')) : EntriesKept own hit m m' := by
  unfold Phys.walkStep at hw
  dsimp only at hw
  split at hw
  · obtain ⟨rfl, rfl⟩ := by simpa using hw
    exact .refl m
  next hv =>
  rcases halloc : m.allocPage with ⟨newpt, m₁⟩
  simp only [halloc] at hw
  split at hw
  · exact nomatch hw
  next hnew =>
  obtain ⟨rfl, rfl⟩ := by simpa using hw
  obtain ⟨free', rfl, hfree, -, -⟩ := h.allocPage halloc hnew
  have hpage : ∀ q i' path' k, own q = some (.table i' path') → ¬ (q = pt ∧ k = vpn va level) →
      ((m₁.fill newpt fun _ => 0).store pt (vpn va level) (paPte newpt ||| pteV)).page q k =
        m.page q k := by
    intro q i' path' k hq hne
    have hq' : q ≠ newpt := by
      rintro rfl
      simp [hfree] at hq
    have hpt' : pt ≠ newpt := by
      rintro rfl
      simp [hfree] at hpt
    by_cases hqp : q = pt
    · subst hqp
      have hk : k ≠ vpn va level := fun hk => hne ⟨rfl, hk⟩
      simp [Phys.store, Phys.fill, hq', hk, Phys.allocPage_page halloc]
    · simp [Phys.store, Phys.fill, hq', hqp, Phys.allocPage_page halloc]
  refine ⟨fun q i' path' k hq _ hvalid => hpage q i' path' k hq ?_,
    fun q i' path' k hq hlen' _ => hpage q i' path' k hq ?_⟩
  · rintro ⟨rfl, rfl⟩
    exact hv hvalid
  · rintro ⟨rfl, -⟩
    obtain ⟨-, rfl⟩ := by simpa using hpt.symm.trans hq
    omega

theorem walkCreate_kept (h : Owned kend own m free) (hpt : own pt = some (.table i []))
    (hw : m.walkCreate pt va = some (pa, m')) : EntriesKept own hit m m' := by
  obtain ⟨⟨mid, m₁⟩, hmid, hw⟩ := Option.bind_eq_some_iff.mp hw
  obtain ⟨own₁, free₁, h₁, hext₁, hmid'⟩ := h.walkStep hpt (by simp) hmid
  exact (h.walkStep_kept hpt (by simp) hmid).trans hext₁ (h₁.walkStep_kept hmid' (by simp) hw)

theorem valid_or (x : Word) : (x ||| pteV) &&& pteV ≠ 0 := by
  intro h
  have hv : pteV &&& pteV = 0 := by
    rw [BitVec.and_or_distrib_right] at h
    exact (BitVec.or_eq_zero_iff.mp h).2
  exact absurd hv (by decide)

/-- The entry that a turn of `walk_create` goes through leads where it goes. -/
theorem walkStep_entry {level : ℕ} (h : Owned kend own m free) (hw : m.walkStep pt va level = some (pa, m')) :
    m'.page pt (vpn va level) &&& pteV ≠ 0 ∧ ptePa (m'.page pt (vpn va level)) = pa := by
  unfold Phys.walkStep at hw
  dsimp only at hw
  split at hw
  · next hv =>
    obtain ⟨rfl, rfl⟩ := by simpa using hw
    exact ⟨hv, rfl⟩
  rcases halloc : m.allocPage with ⟨newpt, m₁⟩
  simp only [halloc] at hw
  split at hw
  · exact nomatch hw
  next hnew =>
  obtain ⟨rfl, rfl⟩ := by simpa using hw
  obtain ⟨free', rfl, hfree, -, -⟩ := h.allocPage halloc hnew
  have hentry : ((m₁.fill newpt fun _ => 0#64).store pt (vpn va level) (paPte newpt ||| pteV)).page
      pt (vpn va level) = paPte newpt ||| pteV := by
    simp [Phys.store, Phys.fill]
  rw [hentry]
  exact ⟨valid_or _, (h.range _ _ hfree).ptePa (by decide)⟩

/-- `walk_lookup` finds the table that `walk_create` has found or made. -/
theorem walkCreate_lookup (h : Owned kend own m free) (hpt : own pt = some (.table i []))
    (hw : m.walkCreate pt va = some (pa, m')) : m'.walkLookup pt va = some pa := by
  obtain ⟨⟨mid, m₁⟩, hmid, hw⟩ := Option.bind_eq_some_iff.mp hw
  obtain ⟨own₁, free₁, h₁, hext₁, hmid'⟩ := h.walkStep hpt (by simp) hmid
  obtain ⟨hv₂, hpa₂⟩ := h.walkStep_entry hmid
  obtain ⟨hv₁, hpa₁⟩ := h₁.walkStep_entry hw
  -- the second turn leaves the entry of the first alone
  have hkept : EntriesKept own₁ (fun _ _ => False) m₁ m' := h₁.walkStep_kept hmid' (by simp) hw
  have heq := hkept.table pt i [] (vpn va 2) (hext₁.of_role hpt (by simp)) (by simp) hv₂
  unfold Phys.walkLookup
  rw [heq, if_neg hv₂]
  dsimp only
  rw [hpa₂, if_neg hv₁, hpa₁]

/-- A last-level entry is set, and no other. -/
theorem store_kept {k : Fin 512} {w : Word} {path : List (Fin 512)}
    (hpa : own pa = some (.table i path)) (hlen : path.length = 2) :
    EntriesKept own (fun j path' => j = i ∧ path' = k :: path) m (m.store pa k w) := by
  have hword : ∀ q j, ¬ (q = pa ∧ j = k) → (m.store pa k w).page q j = m.page q j := by
    intro q j hne
    by_cases hq : q = pa
    · subst hq
      have hj : j ≠ k := fun hj => hne ⟨rfl, hj⟩
      simp [Phys.store, Phys.fill, hj]
    · simp [Phys.store, Phys.fill, hq]
  refine ⟨fun q j path' k' hq hlen' _ => hword q k' ?_, fun q j path' k' hq _ hk => hword q k' ?_⟩
  · rintro ⟨rfl, -⟩
    obtain ⟨-, rfl⟩ := by simpa using hpa.symm.trans hq
    omega
  · rintro ⟨rfl, rfl⟩
    obtain ⟨rfl, rfl⟩ := by simpa using hpa.symm.trans hq
    exact hk ⟨rfl, rfl⟩

/-- `map_page` sets the entry of `va`, and keeps the others. -/
theorem mapPage_kept {target : ℕ} {perm : Word} {ret : ℤ} (h : Owned kend own m free)
    (hpt : own pt = some (.table i [])) (hm : m.mapPage pt va target perm = some (ret, m')) :
    EntriesKept own (fun j path => j = i ∧ path = vpns va) m m' := by
  obtain ⟨⟨leaf, m₁⟩, hw, hm⟩ := Option.bind_eq_some_iff.mp hm
  obtain ⟨own₁, free₁, h₁, hext, hleaf⟩ := h.walkCreate hpt hw
  have hcreate : EntriesKept own (fun j path => j = i ∧ path = vpns va) m m₁ :=
    h.walkCreate_kept hpt hw
  dsimp only at hm
  split at hm
  · obtain ⟨-, rfl⟩ := by simpa using hm
    exact hcreate
  · obtain ⟨-, rfl⟩ := by simpa using hm
    exact hcreate.trans hext (store_kept hleaf rfl)

theorem mapPage_leaf {target : ℕ} {perm : Word} {ret : ℤ} (h : Owned kend own m free)
    (hk : 0 < kend) (hpt : own pt = some (.table i []))
    (hm : m.mapPage pt va target perm = some (ret, m')) :
    m'.leaf pt va = some (paPte target ||| perm ||| pteV) := by
  obtain ⟨⟨leaf, m₁⟩, hw, hm⟩ := Option.bind_eq_some_iff.mp hm
  obtain ⟨own₁, free₁, h₁, hext, hleaf⟩ := h.walkCreate hpt hw
  have hlookup := h.walkCreate_lookup hpt hw
  have hne : ¬ (leaf = 0 ∧ vpn va 0 = 0) := fun hc => h₁.pos hk hleaf hc.1
  obtain ⟨-, rfl⟩ := by simpa [hne] using hm
  rw [Phys.leaf, (store_kept hleaf rfl).walkLookup h₁ (hext.of_role hpt (by simp)) hlookup]
  simp [Phys.store, Phys.fill]

end Owned

/-! ## Rounding to pages -/

/-- The number of pages that `n` bytes begin. -/
def pagesOf (n : ℕ) : ℕ := (n + (pgsize - 1)) / pgsize

theorem and_not_mask (x : Word) : (x &&& ~~~(4095#64)).toNat = x.toNat / pgsize * pgsize := by
  have hshift : x &&& ~~~(4095#64) = (x >>> 12) <<< 12 := by
    ext i hi
    have hmask : (4095#64)[i] = decide (i < 12) := by
      rw [BitVec.getElem_eq_testBit_toNat]
      exact Nat.testBit_two_pow_sub_one 12 i
    rw [BitVec.getElem_and, BitVec.getElem_not, hmask]
    by_cases h : i < 12
    · simp [h]
    · simp [h, show 12 + (i - 12) = i by omega, BitVec.getLsbD_eq_getElem hi]
  rw [hshift]
  simp only [pgsize, BitVec.toNat_shiftLeft, BitVec.toNat_ushiftRight, Nat.shiftLeft_eq,
    Nat.shiftRight_eq_div_pow]
  have := x.isLt
  omega

/-- `PGGROUNDDOWN(a)` -/
def pggrounddown (a : Word) : Word := a &&& ~~~(4096 - 1)

theorem pggrounddown_toNat (a : Word) : (pggrounddown a).toNat = a.toNat / pgsize * pgsize := by
  have hmask : (4096 - 1 : Word) = 4095#64 := by decide
  rw [pggrounddown, hmask, and_not_mask]

theorem pgroundup_toNat {sz : Word} (h : sz.toNat + pgsize ≤ 2 ^ 64) :
    (pgroundup sz).toNat = pagesOf sz.toNat * pgsize := by
  have hsum : (sz + 4096 - 1).toNat = sz.toNat + (pgsize - 1) := by
    have h4096 : (4096 : Word).toNat = 4096 := rfl
    have h1 : (1 : Word).toNat = 1 := rfl
    simp only [pgsize] at h
    simp only [pgsize, BitVec.toNat_sub, BitVec.toNat_add, h4096, h1]
    omega
  have hmask : (4096 - 1 : Word) = 4095#64 := by decide
  rw [pgroundup, hmask, and_not_mask, hsum]
  rfl

/-! ## How much can be mapped -/

/-- The address of page `v`. -/
def pageVa (v : ℕ) : Word := BitVec.ofNat 64 (v * pgsize)

/-- Every page below `n` bytes is mapped for the user. -/
def Mapped (m : Phys) (pt n : ℕ) : Prop :=
  ∀ v, v * pgsize < n → ∃ w, m.leaf pt (pageVa v) = some w ∧ w &&& pteV ≠ 0 ∧ w &&& pteU ≠ 0

/-- Pages below 2^39 bytes have different indices. -/
theorem vpns_pageVa {u v : ℕ} (hu : u < 2 ^ 27) (hv : v < 2 ^ 27)
    (h : vpns (pageVa u) = vpns (pageVa v)) : u = v := by
  have hvpn : ∀ {x level : ℕ}, x < 2 ^ 27 → (vpn (pageVa x) level).val = x / 2 ^ (9 * level) % 512 := by
    intro x level hx
    have hlt : x * 4096 < 2 ^ 64 := by omega
    simp only [vpn, pageVa, pgsize, Fin.val_ofNat, BitVec.toNat_ushiftRight, BitVec.toNat_ofNat,
      Nat.shiftRight_eq_div_pow, Nat.mod_eq_of_lt hlt, Nat.pow_add]
    rw [← Nat.div_div_eq_div_mul, Nat.mul_div_cancel _ (by decide)]
  simp only [vpns, List.cons.injEq, and_true] at h
  obtain ⟨h₀, h₁, h₂⟩ := h
  have e₀ := congrArg Fin.val h₀
  have e₁ := congrArg Fin.val h₁
  have e₂ := congrArg Fin.val h₂
  rw [hvpn hu, hvpn hv] at e₀ e₁ e₂
  omega

theorem Owned.mapped_le {n : ℕ} (h : Owned kend own m free) (hpt : own pt = some (.table i []))
    (hmapped : Mapped m pt n) : n ≤ phystop := by
  by_contra hn
  -- the entries of one page more than memory has
  have hentry : ∀ v : Fin (phystop / pgsize + 1), ∃ pa,
      own pa = some (.user i (vpns (pageVa v))) := by
    intro v
    have hv : v.val * pgsize < n := by
      have hlt := v.isLt
      simp only [pgsize, phystop] at hlt hn ⊢
      omega
    obtain ⟨w, hw, hvalid, huser⟩ := hmapped v hv
    obtain ⟨table, htable, rfl⟩ := Option.map_eq_some_iff.mp hw
    exact ⟨_, h.user _ _ _ _ (h.walkLookup hpt htable) (by simp) hvalid huser⟩
  choose pa hpa using hentry
  have hrange : ∀ v, InRange kend (pa v) := fun v => h.range _ _ (hpa v)
  have hlt : ∀ v, pa v / pgsize < phystop / pgsize := fun v => by
    have hup := (hrange v).upper
    simp only [pgsize, phystop] at hup ⊢
    omega
  have hinj : Function.Injective fun v => (⟨pa v / pgsize, hlt v⟩ : Fin (phystop / pgsize)) := by
    intro u v huv
    have hdiv : pa u / pgsize = pa v / pgsize := congrArg Fin.val huv
    have hpage : pa u = pa v := by
      rw [← Nat.div_mul_cancel (hrange u).aligned, hdiv, Nat.div_mul_cancel (hrange v).aligned]
    have hrole := (hpa u).symm.trans (hpage ▸ hpa v)
    have hpath : vpns (pageVa u) = vpns (pageVa v) := by simpa using hrole
    have hu := u.isLt
    have hv := v.isLt
    simp only [pgsize, phystop] at hu hv
    exact Fin.ext (vpns_pageVa (by omega) (by omega) hpath)
  have hcard := Fintype.card_le_of_injective _ hinj
  simp only [Fintype.card_fin] at hcard
  omega

end RiscvOs
