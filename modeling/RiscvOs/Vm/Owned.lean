import RiscvOs.Lib.Chain
import RiscvOs.Vm.Model

/-!
# Who owns a page

`own` is a ghost map from page addresses to roles.  `Owned` says that memory is laid
out accordingly: the free list runs through free pages, and an entry of a page table
leads to the page that has the role the entry's place calls for.  Since `own` is a
function, two places never lead to one page.

Each operation moves pages from one role to another.  `Extends own own'` is what all
of them but `free_page` have in common: only free pages are given a role.
-/

namespace RiscvOs

open LinkedList

/-- What a page is used for. -/
inductive Role
  | free
  /-- Allocated, and not yet used for anything. -/
  | taken
  | kstack (i : Fin nproc)
  | trapframe (i : Fin nproc)
  /-- A page table of slot `i`, reached from the root by these indices, the last one first. -/
  | table (i : Fin nproc) (path : List (Fin 512))
  /-- A user page of slot `i`, mapped at these indices. -/
  | user (i : Fin nproc) (path : List (Fin 512))
  deriving DecidableEq

/-- The pages that `pmm_init` frees lie here. -/
structure InRange (kend pa : ℕ) : Prop where
  aligned : pgsize ∣ pa
  lower : kend ≤ pa
  upper : pa + pgsize ≤ phystop

/-- A page table entry keeps the page of an address. -/
theorem ptePa_entry {pa : ℕ} {flags : Word} (h : pa < 2 ^ 64) (hflags : flags < 1024) :
    ptePa (paPte pa ||| flags) = pa / pgsize * pgsize := by
  have hf : flags.toNat < 1024 := by simpa [BitVec.lt_def] using hflags
  simp only [pgsize]
  have hflags0 : flags.toNat / 2 ^ 10 = 0 := Nat.div_eq_of_lt hf
  have hppn : pa % 2 ^ 64 = pa := Nat.mod_eq_of_lt h
  have hshift : pa / 2 ^ 12 * 2 ^ 10 % 2 ^ 64 = pa / 2 ^ 12 * 2 ^ 10 :=
    Nat.mod_eq_of_lt (by omega)
  simp only [ptePa, paPte, BitVec.toNat_shiftLeft, BitVec.toNat_ushiftRight, BitVec.toNat_or,
    BitVec.toNat_ofNat, Nat.shiftLeft_eq, hppn, Nat.shiftRight_or_distrib]
  simp only [Nat.shiftRight_eq_div_pow, hshift, hflags0, Nat.or_zero,
    Nat.mul_div_cancel _ (show 0 < 2 ^ 10 by decide)]
  exact Nat.mod_eq_of_lt (by omega)

theorem ptePa_paPte {pa : ℕ} {flags : Word} (h : pa < phystop) (hflags : flags < 1024) :
    ptePa (paPte pa ||| flags) = pa / pgsize * pgsize := by
  refine ptePa_entry ?_ hflags
  simp only [phystop] at h
  omega

/-- A page address survives the way through a page table entry. -/
theorem InRange.ptePa {kend pa : ℕ} {flags : Word} (h : InRange kend pa) (hflags : flags < 1024) :
    ptePa (paPte pa ||| flags) = pa := by
  have hlt : pa < phystop := by
    have := h.upper
    simp only [pgsize] at this
    omega
  rw [ptePa_paPte hlt hflags, Nat.div_mul_cancel h.aligned]

/-- A page address leaves the permission bits of an entry alone. -/
theorem paPte_pteU (pa : ℕ) : paPte pa &&& pteU = 0 := by
  unfold paPte pteU
  ext i hi
  by_cases h : i < 10
  · simp [h]
  · have hbit : (16#64)[i] = false := by
      rw [BitVec.getElem_eq_testBit_toNat]
      exact Nat.testBit_lt_two_pow (Nat.lt_of_lt_of_le (show 16 < 2 ^ 10 by decide)
        (Nat.pow_le_pow_right (by decide) (by omega)))
    simp [hbit]

theorem entry_pteU (pa : ℕ) {perm : Word} (h : (perm ||| pteV) &&& pteU = 0) :
    (paPte pa ||| perm ||| pteV) &&& pteU = 0 := by
  rw [BitVec.or_assoc, BitVec.and_or_distrib_right, paPte_pteU, h]
  rfl

/-- Memory is laid out as `own` says, and `free` is the free list. -/
structure Owned (kend : ℕ) (own : ℕ → Option Role) (m : Phys) (free : List ℕ) : Prop where
  chain : Chain (fun pa => (m.page pa 0).toNat) 0 m.freelist free
  free : ∀ pa ∈ free, own pa = some .free
  range : ∀ pa r, own pa = some r → InRange kend pa
  /-- A valid entry of a table above the last level leads to the table at its index. -/
  table : ∀ pa i path k, own pa = some (.table i path) → path.length < 2 →
    m.page pa k &&& pteV ≠ 0 → own (ptePa (m.page pa k)) = some (.table i (k :: path))
  /-- A valid user entry of a last-level table leads to the user page at its index. -/
  user : ∀ pa i path k, own pa = some (.table i path) → path.length = 2 →
    m.page pa k &&& pteV ≠ 0 → m.page pa k &&& pteU ≠ 0 →
      own (ptePa (m.page pa k)) = some (.user i (k :: path))
  /-- Its other valid entries lead into the kernel, or to a trapframe of the slot. -/
  kernel : ∀ pa i path k, own pa = some (.table i path) → path.length = 2 →
    m.page pa k &&& pteV ≠ 0 → m.page pa k &&& pteU = 0 →
      ptePa (m.page pa k) < kend ∨ own (ptePa (m.page pa k)) = some (.trapframe i)

/-- The pages that had a role keep it. -/
def Extends (own own' : ℕ → Option Role) : Prop := ∀ pa, own pa ≠ some .free → own' pa = own pa

theorem Extends.refl (own : ℕ → Option Role) : Extends own own := fun _ _ => rfl

theorem Extends.trans {own own' own'' : ℕ → Option Role} (h : Extends own own')
    (h' : Extends own' own'') : Extends own own'' := by
  intro pa hpa
  have heq := h pa hpa
  rw [h' pa (by rwa [heq]), heq]

theorem Extends.of_role {own own' : ℕ → Option Role} (h : Extends own own') {pa : ℕ} {r : Role}
    (hpa : own pa = some r) (hr : r ≠ .free) : own' pa = some r := by
  rw [h pa (by simpa [hpa] using hr), hpa]

/-- No page comes into play. -/
theorem Extends.of_ne_none {own own' : ℕ → Option Role} (h : Extends own own') {pa : ℕ}
    (hpa : own' pa ≠ none) : own pa ≠ none := by
  intro hnone
  rw [h pa (by simp [hnone])] at hpa
  exact hpa hnone

namespace Owned

variable {kend : ℕ} {own : ℕ → Option Role} {m m' : Phys} {free : List ℕ} {pa pt : ℕ}
  {i : Fin nproc} {path : List (Fin 512)} {r : Role}

theorem pos (h : Owned kend own m free) (hk : 0 < kend) (hpa : own pa = some r) : pa ≠ 0 := by
  have := (h.range pa r hpa).lower
  omega

theorem not_mem (h : Owned kend own m free) (hpa : own pa ≠ some .free) : pa ∉ free :=
  fun hmem => hpa (h.free pa hmem)

/-- The roles a page can lose without a look at page tables: no entry leads to a page with such a
role, and the page is not a table itself. -/
def Plain : Option Role → Prop
  | some (.table _ _) | some (.user _ _) | some (.trapframe _) => False
  | _ => True

/-- What is written to a page that is neither free nor a table does not matter. -/
theorem fill (h : Owned kend own m free) (hfree : own pa ≠ some .free)
    (htable : ∀ i path, own pa ≠ some (.table i path)) (c : Page) :
    Owned kend own (m.fill pa c) free := by
  have hpage : ∀ q, q ≠ pa → (m.fill pa c).page q = m.page q := fun q hq => by
    simp [Phys.fill, hq]
  refine ⟨?_, h.free, h.range, ?_, ?_, ?_⟩
  · refine h.chain.congr fun q hq => ?_
    rw [hpage q fun hqp => h.not_mem hfree (hqp ▸ hq)]
  · intro q i path k hq
    rw [hpage q fun hqp => htable i path (hqp ▸ hq)]
    exact h.table q i path k hq
  · intro q i path k hq
    rw [hpage q fun hqp => htable i path (hqp ▸ hq)]
    exact h.user q i path k hq
  · intro q i path k hq
    rw [hpage q fun hqp => htable i path (hqp ▸ hq)]
    exact h.kernel q i path k hq

theorem store (h : Owned kend own m free) (hfree : own pa ≠ some .free)
    (htable : ∀ i path, own pa ≠ some (.table i path)) (k : Fin 512) (w : Word) :
    Owned kend own (m.store pa k w) free :=
  h.fill hfree htable _

/-- A page that no entry leads to changes its role.  A page that becomes a table is empty. -/
theorem give (h : Owned kend own m free) (hold : Plain (own pa)) (hfree : pa ∉ free)
    (hrange : InRange kend pa) (hnew : ∀ i path, r = .table i path → m.page pa = fun _ => 0) :
    Owned kend (Function.update own pa (some r)) m free := by
  -- the page is no table before, and no table with a valid entry after
  have hentry : ∀ q i path k, Function.update own pa (some r) q = some (.table i path) →
      m.page q k &&& pteV ≠ 0 → own q = some (.table i path) := by
    intro q i path k hq hv
    by_cases hqp : q = pa
    · subst hqp
      obtain rfl : r = .table i path := by simpa using hq
      simp [hnew i path rfl] at hv
    · rwa [Function.update_of_ne hqp] at hq
  -- and no entry led to it
  have hkeep : ∀ q r', own q = some r' → ¬ Plain (some r') →
      Function.update own pa (some r) q = some r' := by
    intro q r' hq hr'
    rw [Function.update_of_ne, hq]
    rintro rfl
    rw [hq] at hold
    exact hr' hold
  refine ⟨h.chain, ?_, ?_, ?_, ?_, ?_⟩
  · intro q hq
    have hqp : q ≠ pa := fun hqp => hfree (hqp ▸ hq)
    rw [Function.update_of_ne hqp]
    exact h.free q hq
  · intro q r' hq
    by_cases hqp : q = pa
    · exact hqp ▸ hrange
    · rw [Function.update_of_ne hqp] at hq
      exact h.range q r' hq
  · intro q i path k hq hlen hv
    exact hkeep _ _ (h.table q i path k (hentry q i path k hq hv) hlen hv) (by simp [Plain])
  · intro q i path k hq hlen hv hu
    exact hkeep _ _ (h.user q i path k (hentry q i path k hq hv) hlen hv hu) (by simp [Plain])
  · intro q i path k hq hlen hv hu
    obtain hlt | hframe := h.kernel q i path k (hentry q i path k hq hv) hlen hv hu
    · exact .inl hlt
    · exact .inr (hkeep _ _ hframe (by simp [Plain]))

/-! ## `pmm.c` -/

/-- `alloc_page` takes the first page off the free list. -/
theorem allocPage (h : Owned kend own m free) (halloc : m.allocPage = (pa, m')) (hpa : pa ≠ 0) :
    ∃ free', free = pa :: free' ∧ own pa = some .free ∧ m'.page = m.page ∧
      Owned kend (Function.update own pa (some .taken)) m' free' := by
  unfold Phys.allocPage at halloc
  split at halloc
  · simp only [Prod.mk.injEq] at halloc
    exact absurd halloc.1.symm hpa
  · simp only [Prod.mk.injEq] at halloc
    obtain ⟨rfl, rfl⟩ := halloc
    obtain ⟨free', rfl, hchain⟩ := h.chain.eq_cons hpa
    have hfree := h.free _ List.mem_cons_self
    have hnodup := List.nodup_cons.mp h.chain.nodup
    have htail : Owned kend own { m with freelist := (m.page m.freelist 0).toNat } free' :=
      ⟨hchain, fun q hq => h.free q (List.mem_cons_of_mem _ hq), h.range, h.table, h.user, h.kernel⟩
    refine ⟨free', rfl, hfree, rfl, htail.give (by simp [hfree, Plain]) hnodup.1
      (h.range _ _ hfree) (fun i path hr => nomatch hr)⟩

theorem allocPage_null (halloc : m.allocPage = (0, m')) : m' = m := by
  unfold Phys.allocPage at halloc
  split at halloc
  · exact (Prod.mk.inj halloc).2.symm
  · next hne => exact absurd (Prod.mk.inj halloc).1 hne

/-- `free_page` puts a page at the head of the free list. -/
theorem freePage (h : Owned kend own m free) (hold : Plain (own pa)) (hpa : own pa ≠ some .free)
    (hrange : InRange kend pa) (hk : 0 < kend) :
    Owned kend (Function.update own pa (some .free)) (m.freePage pa) (pa :: free) := by
  have hfree := h.not_mem hpa
  have htable : ∀ i path, own pa ≠ some (.table i path) := fun i path htab => by
    simp [htab, Plain] at hold
  have hstore := (h.store hpa htable 0 (BitVec.ofNat 64 m.freelist)).give (r := .free) hold hfree
    hrange (fun i path hr => nomatch hr)
  have hhead : m.freelist < 2 ^ 64 := by
    cases hl : m.freelist with
    | zero => decide
    | succ n =>
      obtain ⟨free', hcons, -⟩ := h.chain.eq_cons (by omega)
      have hown := h.free m.freelist (by simp [hcons])
      have hup := (h.range _ _ hown).upper
      simp only [pgsize, phystop] at hup
      omega
  have hne : pa ≠ 0 := by
    have := hrange.lower
    omega
  refine ⟨show Chain (fun q => ((m.freePage pa).page q 0).toNat) 0 pa (pa :: free) from .cons hne ?_,
    ?_, hstore.range, hstore.table, hstore.user, hstore.kernel⟩
  · have hnext : ((m.freePage pa).page pa 0).toNat = m.freelist := by
      simpa [Phys.freePage, Phys.store, Phys.fill] using Nat.mod_eq_of_lt hhead
    rw [hnext]
    exact hstore.chain
  · intro q hq
    obtain rfl | hq := List.mem_cons.mp hq
    · simp
    · exact hstore.free q hq

/-! ## `vm.c` -/

/-- An entry of a table is set to lead to the page of its index. -/
theorem setEntry {k : Fin 512} {w : Word} (h : Owned kend own m free)
    (hpt : own pt = some (.table i path))
    (hmid : path.length < 2 → own (ptePa w) = some (.table i (k :: path)))
    (huser : path.length = 2 → w &&& pteU ≠ 0 → own (ptePa w) = some (.user i (k :: path)))
    (hkernel : path.length = 2 → w &&& pteU = 0 →
      ptePa w < kend ∨ own (ptePa w) = some (.trapframe i)) :
    Owned kend own (m.store pt k w) free := by
  have hword : ∀ q j, (m.store pt k w).page q j = if q = pt ∧ j = k then w else m.page q j := by
    intro q j
    by_cases hq : q = pt
    · subst hq
      by_cases hj : j = k <;> simp [Phys.store, Phys.fill, hj]
    · simp [Phys.store, Phys.fill, hq]
  refine ⟨?_, h.free, h.range, ?_, ?_, ?_⟩
  · refine h.chain.congr fun q hq => ?_
    have hne : q ≠ pt := by
      rintro rfl
      have hfree := h.free q hq
      simp [hpt] at hfree
    rw [hword, if_neg fun hc => hne hc.1]
  · intro q i' path' k' hq hlen hv
    rw [hword] at hv ⊢
    split at hv
    · next heq =>
      obtain ⟨rfl, rfl⟩ := heq
      rw [hpt] at hq
      cases hq
      rw [if_pos ⟨rfl, rfl⟩]
      exact hmid hlen
    · next hne =>
      rw [if_neg hne]
      exact h.table q i' path' k' hq hlen hv
  · intro q i' path' k' hq hlen hv hu
    rw [hword] at hv hu ⊢
    split at hv
    · next heq =>
      obtain ⟨rfl, rfl⟩ := heq
      rw [hpt] at hq
      cases hq
      rw [if_pos ⟨rfl, rfl⟩] at hu ⊢
      exact huser hlen hu
    · next hne =>
      rw [if_neg hne] at hu ⊢
      exact h.user q i' path' k' hq hlen hv hu
  · intro q i' path' k' hq hlen hv hu
    rw [hword] at hv hu ⊢
    split at hv
    · next heq =>
      obtain ⟨rfl, rfl⟩ := heq
      rw [hpt] at hq
      cases hq
      rw [if_pos ⟨rfl, rfl⟩] at hu ⊢
      exact hkernel hlen hu
    · next hne =>
      rw [if_neg hne] at hu ⊢
      exact h.kernel q i' path' k' hq hlen hv hu

/-- A freshly allocated page is cleared and becomes a table. -/
theorem newTable (h : Owned kend own m free) (i : Fin nproc) (path : List (Fin 512))
    (hpa : own pa = some .taken) :
    Owned kend (Function.update own pa (some (.table i path))) (m.fill pa fun _ => 0) free := by
  have hfill := h.fill (show own pa ≠ some .free by simp [hpa]) (by simp [hpa]) fun _ => 0
  refine hfill.give (by simp [hpa, Plain]) (h.not_mem (by simp [hpa])) (h.range _ _ hpa) ?_
  intro _ _ _
  simp [Phys.fill]

theorem extends_update {own : ℕ → Option Role} {pa : ℕ} {r : Role}
    (hpa : own pa = some .free) : Extends own (Function.update own pa (some r)) := by
  intro q hq
  rw [Function.update_of_ne]
  rintro rfl
  exact hq hpa

theorem createPagetable (h : Owned kend own m free) (hc : m.createPagetable = some (pt, m')) :
    ∃ own' free', Owned kend own' m' free' ∧ Extends own own' ∧ own' pt = some (.table i []) := by
  unfold Phys.createPagetable at hc
  rcases halloc : m.allocPage with ⟨pa, m₁⟩
  simp only [halloc] at hc
  split at hc
  · exact nomatch hc
  · next hpa =>
    obtain ⟨rfl, rfl⟩ := by simpa using hc
    obtain ⟨free', rfl, hfree, -, h₁⟩ := h.allocPage halloc hpa
    have h₂ := h₁.newTable i [] (Function.update_self pa (some .taken) own)
    rw [Function.update_idem] at h₂
    exact ⟨_, _, h₂, extends_update hfree, by simp⟩

/-- One turn of `walk_create` goes down to the table of the index, which it makes if need be. -/
theorem walkStep {va : Word} {level : ℕ} (h : Owned kend own m free)
    (hpt : own pt = some (.table i path)) (hlen : path.length < 2)
    (hw : m.walkStep pt va level = some (pa, m')) :
    ∃ own' free', Owned kend own' m' free' ∧ Extends own own' ∧
      own' pa = some (.table i (vpn va level :: path)) := by
  unfold Phys.walkStep at hw
  dsimp only at hw
  split at hw
  · next hv =>
    obtain ⟨rfl, rfl⟩ := by simpa using hw
    exact ⟨own, free, h, .refl own, h.table pt i path _ hpt hlen hv⟩
  · rcases halloc : m.allocPage with ⟨newpt, m₁⟩
    simp only [halloc] at hw
    split at hw
    · exact nomatch hw
    · next hnew =>
      obtain ⟨rfl, rfl⟩ := by simpa using hw
      obtain ⟨free', rfl, hfree, -, h₁⟩ := h.allocPage halloc hnew
      have h₂ := h₁.newTable i (vpn va level :: path) (Function.update_self newpt (some .taken) own)
      rw [Function.update_idem] at h₂
      have hext : Extends own (Function.update own newpt (some (.table i (vpn va level :: path)))) :=
        extends_update hfree
      have hpa : ptePa (paPte newpt ||| pteV) = newpt := (h.range _ _ hfree).ptePa (by decide)
      refine ⟨_, _, h₂.setEntry (hext.of_role hpt (by simp)) (fun _ => ?_) (fun h2 => ?_)
        (fun h2 => ?_), hext, by simp⟩
      · rw [hpa]
        simp
      · omega
      · omega

theorem walkCreate {va : Word} (h : Owned kend own m free) (hpt : own pt = some (.table i []))
    (hw : m.walkCreate pt va = some (pa, m')) :
    ∃ own' free', Owned kend own' m' free' ∧ Extends own own' ∧
      own' pa = some (.table i [vpn va 1, vpn va 2]) := by
  obtain ⟨⟨mid, m₁⟩, hmid, hw⟩ := Option.bind_eq_some_iff.mp hw
  obtain ⟨own₁, free₁, h₁, hext₁, hmid'⟩ := h.walkStep hpt (by simp) hmid
  obtain ⟨own₂, free₂, h₂, hext₂, hpa⟩ := h₁.walkStep hmid' (by simp) hw
  exact ⟨own₂, free₂, h₂, hext₁.trans hext₂, hpa⟩

/-- `walk_lookup` finds a last-level table. -/
theorem walkLookup {va : Word} (h : Owned kend own m free) (hpt : own pt = some (.table i []))
    (hw : m.walkLookup pt va = some pa) : own pa = some (.table i [vpn va 1, vpn va 2]) := by
  unfold Phys.walkLookup at hw
  split at hw
  · exact nomatch hw
  · next hv =>
    dsimp only at hw
    split at hw
    · exact nomatch hw
    · next hv' =>
      obtain rfl := by simpa using hw
      exact h.table _ _ _ _ (h.table _ _ _ _ hpt (by simp) hv) (by simp) hv'

/-- What the user can access are user pages. -/
theorem userPage {i₂ i₁ i₀ : Fin 512} (h : Owned kend own m free)
    (hpt : own pt = some (.table i [])) (hu : m.userPage pt i₂ i₁ i₀ = some pa) :
    own pa = some (.user i [i₀, i₁, i₂]) := by
  unfold Phys.userPage at hu
  split at hu
  · exact nomatch hu
  next hv₂ =>
  have hmid := h.table _ _ _ _ hpt (by simp) hv₂
  dsimp only at hu
  split at hu
  · exact nomatch hu
  next hv₁ =>
  have hleaf := h.table _ _ _ _ hmid (by simp) hv₁
  split at hu
  · next hv₀ =>
    obtain rfl := by simpa using hu
    exact h.user _ _ _ _ hleaf (by simp) hv₀.1 hv₀.2
  · exact nomatch hu

/-- What a last-level entry leads to: a page of the kernel, or one that has a role. -/
theorem entry {k : Fin 512} (h : Owned kend own m free) (hpt : own pt = some (.table i path))
    (hlen : path.length = 2) (hv : m.page pt k &&& pteV ≠ 0) :
    ptePa (m.page pt k) < kend ∨ own (ptePa (m.page pt k)) ≠ none := by
  by_cases hu : m.page pt k &&& pteU = 0
  · obtain hlt | hframe := h.kernel _ _ _ _ hpt hlen hv hu
    · exact .inl hlt
    · exact .inr (by simp [hframe])
  · exact .inr (by simp [h.user _ _ _ _ hpt hlen hv hu])

/-- Mapping a page the user has no access to: one of the kernel's, or the slot's trapframe. -/
theorem mapPage_kernel {va perm : Word} {target : ℕ} {ret : ℤ} (h : Owned kend own m free)
    (hk : 0 < kend) (hpt : own pt = some (.table i []))
    (htarget : target < kend ∧ kend ≤ phystop ∨ own target = some (.trapframe i))
    (hperm : (perm ||| pteV) &&& pteU = 0) (hflags : perm ||| pteV < 1024)
    (hm : m.mapPage pt va target perm = some (ret, m')) :
    ∃ own' free', Owned kend own' m' free' ∧ Extends own own' := by
  obtain ⟨⟨leaf, m₁⟩, hw, hm⟩ := Option.bind_eq_some_iff.mp hm
  obtain ⟨own₁, free₁, h₁, hext, hleaf⟩ := h.walkCreate hpt hw
  have hne : ¬ (leaf = 0 ∧ vpn va 0 = 0) := fun hc => h₁.pos hk hleaf hc.1
  obtain ⟨rfl, rfl⟩ := by simpa [hne] using hm
  refine ⟨own₁, free₁, h₁.setEntry hleaf (by simp) (fun _ hu => absurd (entry_pteU _ hperm) hu)
    (fun _ _ => ?_), hext⟩
  rw [BitVec.or_assoc]
  obtain ⟨hlt, hle⟩ | hframe := htarget
  · have hdiv := Nat.div_mul_le_self target pgsize
    rw [ptePa_paPte (by omega) hflags]
    exact .inl (by omega)
  · rw [(h.range _ _ hframe).ptePa hflags]
    exact .inr (hext.of_role hframe (by simp))

/-- A page that was just allocated is mapped for the user and becomes a user page. -/
theorem mapPage_user {va perm : Word} {ret : ℤ} (h : Owned kend own m free) (hk : 0 < kend)
    (hpt : own pt = some (.table i [])) (hpa : own pa = some .taken)
    (hu : perm &&& pteU ≠ 0) (hperm : perm ||| pteV < 1024)
    (hm : m.mapPage pt va pa perm = some (ret, m')) :
    ret = 0 ∧ ∃ own' free', Owned kend own' m' free' ∧
      ∀ q, own q ≠ some .free → q ≠ pa → own' q = own q := by
  obtain ⟨⟨leaf, m₁⟩, hw, hm⟩ := Option.bind_eq_some_iff.mp hm
  obtain ⟨own₁, free₁, h₁, hext, hleaf⟩ := h.walkCreate hpt hw
  have hne : ¬ (leaf = 0 ∧ vpn va 0 = 0) := fun hc => h₁.pos hk hleaf hc.1
  obtain ⟨rfl, rfl⟩ := by simpa [hne] using hm
  have hpa₁ := hext.of_role hpa (by simp)
  have hrange := h₁.range _ _ hpa₁
  have hpte : ptePa (paPte pa ||| perm ||| pteV) = pa := by
    rw [BitVec.or_assoc]
    exact hrange.ptePa hperm
  have h₂ := h₁.give (r := .user i [vpn va 0, vpn va 1, vpn va 2]) (by simp [hpa₁, Plain])
    (h₁.not_mem (by simp [hpa₁])) hrange (fun _ _ hr => nomatch hr)
  have hleaf₂ : Function.update own₁ pa (some (.user i [vpn va 0, vpn va 1, vpn va 2])) leaf =
      some (.table i [vpn va 1, vpn va 2]) := by
    rw [Function.update_of_ne, hleaf]
    rintro rfl
    simp [hleaf] at hpa₁
  have huser : (paPte pa ||| perm ||| pteV) &&& pteU ≠ 0 := by
    rw [BitVec.and_or_distrib_right, BitVec.and_or_distrib_right]
    exact fun h0 => hu (BitVec.or_eq_zero_iff.mp (BitVec.or_eq_zero_iff.mp h0).1).2
  refine ⟨rfl, _, free₁, h₂.setEntry hleaf₂ (by simp) (fun _ _ => by simp [hpte])
    (fun _ hu => absurd hu huser), ?_⟩
  intro q hq hqp
  rw [Function.update_of_ne hqp, hext q hq]

/-- A page is allocated for a role that needs no entry. -/
theorem allocFor (h : Owned kend own m free) (halloc : m.allocPage = (pa, m')) (hpa : pa ≠ 0)
    (hr : ∀ i path, r ≠ .table i path) :
    ∃ own' free', Owned kend own' m' free' ∧ Extends own own' ∧ own' pa = some r := by
  obtain ⟨free', rfl, hfree, -, h₁⟩ := h.allocPage halloc hpa
  have h₂ := h₁.give (r := r) (show Plain (Function.update own pa (some .taken) pa) by simp [Plain])
    (h₁.not_mem (by simp))
    (h.range _ _ hfree) (fun i path heq => absurd heq (hr i path))
  rw [Function.update_idem] at h₂
  exact ⟨_, free', h₂, extends_update hfree, by simp⟩

/-- A page is allocated, filled and mapped for the user. -/
theorem addPage {m₁ m₂ : Phys} {va perm : Word} {ret : ℤ} (h : Owned kend own m free)
    (hk : 0 < kend) (hpt : own pt = some (.table i [])) (halloc : m.allocPage = (pa, m₁))
    (hpa : pa ≠ 0) (c : Page) (hu : perm &&& pteU ≠ 0) (hperm : perm ||| pteV < 1024)
    (hm : (m₁.fill pa c).mapPage pt va pa perm = some (ret, m₂)) :
    ret = 0 ∧ ∃ own' free', Owned kend own' m₂ free' ∧ Extends own own' := by
  obtain ⟨free₁, rfl, hfree, -, h₁⟩ := h.allocPage halloc hpa
  have h₂ := h₁.fill (show Function.update own pa (some .taken) pa ≠ some .free by simp) (by simp) c
  have hpt₂ := (extends_update (r := .taken) hfree).of_role hpt (by simp)
  obtain ⟨rfl, own', free', h₃, hkeep⟩ := h₂.mapPage_user hk hpt₂ (by simp) hu hperm hm
  refine ⟨rfl, own', free', h₃, ?_⟩
  intro q hq
  have hqp : q ≠ pa := by
    rintro rfl
    exact hq hfree
  rw [hkeep q (by rwa [Function.update_of_ne hqp]) hqp, Function.update_of_ne hqp]

end Owned

end RiscvOs
