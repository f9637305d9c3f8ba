import RiscvOs.Vm.Maps
import RiscvOs.Proc.Pages

/-!
# Process sizes

Every page below the size of a process is mapped in its page table (`Shaped`), so no size
gets past the amount of memory there is: an `sbrk` that asks for more runs out of pages and
leaves the size alone.  A page table entry is only ever set for an address below the size,
and so those of the trampoline and the trapframe stay.

An `sbrk` that asks for less than nothing is not refused: the size is an unsigned number, the
test `newsz < 0` is never true, and the size wraps around (`process_size`).
-/

namespace RiscvOs

open LinkedList Procs

variable {lay : Layout} {kend : ℕ} {own own' : ℕ → Option Role} {m m' : Phys} {free : List ℕ}
  {i c : Fin nproc} {pt : ℕ}

/-! ## The loops that map pages -/

/-- The pages from page `v` on that can be mapped, by their indices. -/
def PageFrom (v : ℕ) (path : List (Fin 512)) : Prop :=
  ∃ u, v ≤ u ∧ u ≤ phystop / pgsize ∧ path = vpns (pageVa u)

theorem PageFrom.of_succ {v : ℕ} {path : List (Fin 512)} (h : PageFrom (v + 1) path) :
    PageFrom v path := by
  obtain ⟨u, hle, h⟩ := h
  exact ⟨u, by omega, h⟩

theorem pageVa_succ (v : ℕ) : pageVa v + 4096 = pageVa (v + 1) := by
  apply BitVec.eq_of_toNat_eq
  have hpage : (4096 : Word).toNat = 4096 := rfl
  simp only [pageVa, pgsize, BitVec.toNat_add, BitVec.toNat_ofNat, hpage]
  omega

theorem pageVa_toNat {v : ℕ} (hv : v ≤ phystop / pgsize) : (pageVa v).toNat = v * pgsize := by
  simp only [phystop, pgsize] at hv
  simp only [pageVa, pgsize, BitVec.toNat_ofNat]
  omega

theorem Mapped.mono {n n' : ℕ} (h : Mapped m pt n) (hn : n' ≤ n) : Mapped m pt n' :=
  fun v hv => h v (Nat.lt_of_lt_of_le hv hn)

namespace Owned

/-- The number of the next page to be mapped is small. -/
theorem next_le {v : ℕ} (h : Owned kend own m free) (hpt : own pt = some (.table i []))
    (hmapped : Mapped m pt (v * pgsize)) : v ≤ phystop / pgsize := by
  have hle := h.mapped_le hpt hmapped
  simp only [pgsize, phystop] at hle ⊢
  omega

/-- A page that has been allocated is mapped: the entries of other addresses stay. -/
theorem addPage_kept {m₁ m₂ : Phys} {pa : ℕ} {va perm : Word} {ret : ℤ} (h : Owned kend own m free)
    (hk : 0 < kend) (hpt : own pt = some (.table i [])) (halloc : m.allocPage = (pa, m₁))
    (hpa : pa ≠ 0) (c : Page) (hm : (m₁.fill pa c).mapPage pt va pa perm = some (ret, m₂)) :
    EntriesKept own (fun j path => j = i ∧ path = vpns va) m m₂ ∧
      m₂.leaf pt va = some (paPte pa ||| perm ||| pteV) := by
  obtain ⟨free₁, rfl, hfree, -, h₁⟩ := h.allocPage halloc hpa
  have hext : Extends own (Function.update own pa (some .taken)) := extends_update hfree
  have h₂ := h₁.fill (show Function.update own pa (some .taken) pa ≠ some .free by simp) (by simp) c
  have hpt₂ := hext.of_role hpt (by simp)
  refine ⟨?_, h₂.mapPage_leaf hk hpt₂ hm⟩
  have hfill : EntriesKept own (fun j path => j = i ∧ path = vpns va) m (m₁.fill pa c) :=
    (EntriesKept.allocPage halloc).trans (.refl own) (.fill (by simp [hfree]) c)
  exact hfill.trans hext (h₂.mapPage_kept hpt₂ hm)

/-- Mapping the next page. -/
theorem addPage_mapped {m₁ m₂ : Phys} {pa v : ℕ} {perm : Word} {ret : ℤ}
    (h : Owned kend own m free) (hk : 0 < kend) (hpt : own pt = some (.table i []))
    (hmapped : Mapped m pt (v * pgsize)) (halloc : m.allocPage = (pa, m₁)) (hpa : pa ≠ 0)
    (c : Page) (hu : perm &&& pteU ≠ 0)
    (hm : (m₁.fill pa c).mapPage pt (pageVa v) pa perm = some (ret, m₂)) :
    Mapped m₂ pt ((v + 1) * pgsize) := by
  obtain ⟨hkept, hleaf⟩ := h.addPage_kept hk hpt halloc hpa c hm
  have hv := h.next_le hpt hmapped
  intro u hu'
  have hle : u ≤ v := by
    simp only [pgsize] at hu'
    omega
  obtain rfl | hlt := Nat.eq_or_lt_of_le hle
  · refine ⟨_, hleaf, valid_or _, ?_⟩
    rw [BitVec.and_or_distrib_right, BitVec.and_or_distrib_right]
    exact fun h0 => hu (BitVec.or_eq_zero_iff.mp (BitVec.or_eq_zero_iff.mp h0).1).2
  · obtain ⟨w, hw, hvalid, huser⟩ := hmapped u (Nat.mul_lt_mul_of_pos_right hlt (by decide))
    refine ⟨w, hkept.leaf h hpt ?_ hw, hvalid, huser⟩
    rintro ⟨-, hpath⟩
    simp only [pgsize, phystop] at hv
    have := vpns_pageVa (by omega) (by omega) hpath
    omega

/-- The loop of `sbrk` maps every page up to the new size. -/
theorem growPages_mapped {fuel v : ℕ} {newsz : Word} {ok : Bool} (h : Owned kend own m free)
    (hk : 0 < kend) (hpt : own pt = some (.table i [])) (hmapped : Mapped m pt (v * pgsize))
    (hc : Procs.growPages pt newsz fuel (pageVa v) m = some (ok, m')) :
    EntriesKept own (fun j path => j = i ∧ PageFrom v path) m m' ∧
      (ok = true → Mapped m' pt newsz.toNat) := by
  induction fuel generalizing own m free v with
  | zero => cases hc
  | succ fuel ih =>
    have hv := h.next_le hpt hmapped
    unfold Procs.growPages at hc
    split at hc
    · rcases halloc : m.allocPage with ⟨mem, m₁⟩
      simp only [halloc] at hc
      split at hc
      · next h0 =>
        obtain ⟨rfl, rfl⟩ := by simpa using hc
        exact ⟨.allocPage halloc, fun hok => by cases hok⟩
      · next hmem =>
        obtain ⟨⟨r, m₂⟩, hm, hc⟩ := Option.bind_eq_some_iff.mp hc
        obtain ⟨hkept, -⟩ := h.addPage_kept hk hpt halloc hmem _ hm
        have hmapped₂ := h.addPage_mapped hk hpt hmapped halloc hmem _ (by decide) hm
        obtain ⟨rfl, own₂, free₂, h₂, hext⟩ :=
          h.addPage hk hpt halloc hmem _ (by decide) (by decide) hm
        rw [pageVa_succ] at hc
        obtain ⟨hkept', hall⟩ := ih h₂ (hext.of_role hpt (by simp)) hmapped₂ (by simpa using hc)
        refine ⟨(hkept.mono ?_).trans hext (hkept'.mono fun _ _ hhit => ⟨hhit.1, hhit.2.of_succ⟩),
          hall⟩
        rintro j path ⟨rfl, rfl⟩
        exact ⟨rfl, v, Nat.le_refl v, hv, rfl⟩
    · next hdone =>
      obtain ⟨rfl, rfl⟩ := by simpa using hc
      refine ⟨.refl m, fun _ => hmapped.mono ?_⟩
      rw [BitVec.lt_def, pageVa_toNat hv] at hdone
      omega

/-- The loop of `fork` maps every page that the parent has. -/
theorem copyPages_mapped {p : Fin nproc} {parent child fuel v : ℕ} {sz : Word} {ok : Bool}
    (h : Owned kend own m free) (hk : 0 < kend) (hparent : own parent = some (.table p []))
    (hchild : own child = some (.table c [])) (hpc : p ≠ c) (hsrc : Mapped m parent sz.toNat)
    (hmapped : Mapped m child (v * pgsize))
    (hc : Procs.copyPages parent child sz fuel (pageVa v) m = some (ok, m')) :
    EntriesKept own (fun j path => j = c ∧ PageFrom v path) m m' ∧
      (ok = true → Mapped m' child sz.toNat) := by
  induction fuel generalizing own m free v with
  | zero => cases hc
  | succ fuel ih =>
    have hv := h.next_le hchild hmapped
    unfold Procs.copyPages at hc
    split at hc
    · next hlt =>
      rw [BitVec.lt_def, pageVa_toNat hv] at hlt
      obtain ⟨pte, hleaf, hvalid, -⟩ := hsrc v hlt
      have hpte : (m.walkLookup parent (pageVa v)).map
          (fun table => m.page table (vpn (pageVa v) 0)) = some pte := hleaf
      simp only [hpte, ne_eq, hvalid, not_false_eq_true, if_true] at hc
      rcases halloc : m.allocPage with ⟨mem, m₁⟩
      simp only [halloc] at hc
      split at hc
      · next h0 =>
        obtain ⟨rfl, rfl⟩ := by simpa using hc
        exact ⟨.allocPage halloc, fun hok => by cases hok⟩
      · next hmem =>
        obtain ⟨⟨r, m₂⟩, hm, hc⟩ := Option.bind_eq_some_iff.mp hc
        obtain ⟨hkept, -⟩ := h.addPage_kept hk hchild halloc hmem _ hm
        have hmapped₂ := h.addPage_mapped hk hchild hmapped halloc hmem _ (by decide) hm
        have hsrc₂ : Mapped m₂ parent sz.toNat := fun u hu => by
          obtain ⟨w, hw, hflags⟩ := hsrc u hu
          exact ⟨w, hkept.leaf h hparent (fun hhit => hpc hhit.1) hw, hflags⟩
        obtain ⟨rfl, own₂, free₂, h₂, hext⟩ :=
          h.addPage hk hchild halloc hmem _ (by decide) (by decide) hm
        rw [pageVa_succ] at hc
        obtain ⟨hkept', hall⟩ := ih h₂ (hext.of_role hparent (by simp))
          (hext.of_role hchild (by simp)) hsrc₂ hmapped₂ (by simpa using hc)
        refine ⟨(hkept.mono ?_).trans hext (hkept'.mono fun _ _ hhit => ⟨hhit.1, hhit.2.of_succ⟩),
          hall⟩
        rintro j path ⟨rfl, rfl⟩
        exact ⟨rfl, v, Nat.le_refl v, hv, rfl⟩
    · next hdone =>
      obtain ⟨rfl, rfl⟩ := by simpa using hc
      refine ⟨.refl m, fun _ => hmapped.mono ?_⟩
      rw [BitVec.lt_def, pageVa_toNat hv] at hdone
      omega

/-- The loop of `user_init` maps every page of the program. -/
theorem loadPages_mapped {v count : ℕ} {bytes : List UInt8} {ok : Bool} (h : Owned kend own m free)
    (hk : 0 < kend) (hpt : own pt = some (.table i [])) (hmapped : Mapped m pt (v * pgsize))
    (hc : Procs.loadPages m pt bytes v count = some (ok, m')) :
    EntriesKept own (fun j path => j = i ∧ PageFrom v path) m m' ∧
      (ok = true → Mapped m' pt ((v + count) * pgsize)) := by
  induction count generalizing own m free v with
  | zero =>
    obtain ⟨rfl, rfl⟩ := by simpa [Procs.loadPages] using hc
    exact ⟨.refl m, fun _ => hmapped⟩
  | succ count ih =>
    have hv := h.next_le hpt hmapped
    unfold Procs.loadPages at hc
    rcases halloc : m.allocPage with ⟨mem, m₁⟩
    simp only [halloc] at hc
    split at hc
    · next h0 =>
      obtain ⟨rfl, rfl⟩ := by simpa using hc
      exact ⟨.allocPage halloc, fun hok => by cases hok⟩
    · next hmem =>
      obtain ⟨⟨r, m₂⟩, hm, hc⟩ := Option.bind_eq_some_iff.mp hc
      obtain ⟨hkept, -⟩ := h.addPage_kept hk hpt halloc hmem _ hm
      have hmapped₂ := h.addPage_mapped (v := v) hk hpt hmapped halloc hmem _ (by decide) hm
      obtain ⟨rfl, own₂, free₂, h₂, hext⟩ :=
        h.addPage hk hpt halloc hmem _ (by decide) (by decide) hm
      obtain ⟨hkept', hall⟩ := ih h₂ (hext.of_role hpt (by simp)) hmapped₂ (by simpa using hc)
      refine ⟨(hkept.mono ?_).trans hext (hkept'.mono fun _ _ hhit => ⟨hhit.1, hhit.2.of_succ⟩), ?_⟩
      · rintro j path ⟨rfl, rfl⟩
        exact ⟨rfl, v, Nat.le_refl v, hv, rfl⟩
      · rwa [Nat.add_right_comm, Nat.add_assoc] at hall

end Owned

/-! ## The address space of a process -/

theorem not_pageFrom_trapframe {v : ℕ} : ¬ PageFrom v (vpns trapframeVa) := by
  rintro ⟨v, -, hv, hpath⟩
  have htop : trapframeVa = pageVa (2 ^ 26 - 2) := by decide
  simp only [phystop, pgsize] at hv
  rw [htop] at hpath
  have := vpns_pageVa (by decide) (by omega) hpath
  omega

theorem not_pageFrom_trampoline {v : ℕ} : ¬ PageFrom v (vpns trampolineVa) := by
  rintro ⟨v, -, hv, hpath⟩
  have htop : trampolineVa = pageVa (2 ^ 26 - 1) := by decide
  simp only [phystop, pgsize] at hv
  rw [htop] at hpath
  have := vpns_pageVa (by decide) (by omega) hpath
  omega

/-- The trapframe and the trampoline are mapped as `alloc_process` has mapped them, and every
page below `sz` is mapped for the user. -/
structure Shaped (lay : Layout) (m : Phys) (pagetable trapframe sz : ℕ) : Prop where
  trapframe : m.leaf pagetable trapframeVa = some (paPte trapframe ||| (pteR ||| pteW) ||| pteV)
  trampoline : m.leaf pagetable trampolineVa =
    some (paPte lay.trampoline ||| (pteR ||| pteX) ||| pteV)
  mapped : Mapped m pagetable sz

namespace Shaped

variable {hit : Fin nproc → List (Fin 512) → Prop} {pagetable trapframe sz : ℕ}

/-- Entries of other slots are no matter. -/
theorem kept (h : Shaped lay m pagetable trapframe sz) (hkept : EntriesKept own hit m m')
    (hown : Owned kend own m free) (hpt : own pagetable = some (.table i []))
    (hhit : ∀ path, ¬ hit i path) : Shaped lay m' pagetable trapframe sz := by
  refine ⟨hkept.leaf hown hpt (hhit _) h.trapframe, hkept.leaf hown hpt (hhit _) h.trampoline,
    fun v hv => ?_⟩
  obtain ⟨w, hw, hflags⟩ := h.mapped v hv
  exact ⟨w, hkept.leaf hown hpt (hhit _) hw, hflags⟩

/-- More pages have been mapped from the bottom up. -/
theorem grown {sz' v : ℕ} (h : Shaped lay m pagetable trapframe sz)
    (hkept : EntriesKept own (fun j path => j = i ∧ PageFrom v path) m m')
    (hown : Owned kend own m free) (hpt : own pagetable = some (.table i []))
    (hmapped : Mapped m' pagetable sz') : Shaped lay m' pagetable trapframe sz' :=
  ⟨hkept.leaf hown hpt (fun hhit => not_pageFrom_trapframe hhit.2) h.trapframe,
    hkept.leaf hown hpt (fun hhit => not_pageFrom_trampoline hhit.2) h.trampoline, hmapped⟩

end Shaped

theorem mapped_zero : Mapped m pt 0 := fun _ hv => absurd hv (Nat.not_lt_zero _)

namespace Owned

/-- `alloc_process` maps the trampoline and the trapframe. -/
theorem build_shaped {b : Built} (h : Owned lay.kend own m free) (i : Fin nproc)
    (hb : m.build lay = some (b, m')) : EntriesKept own (fun j _ => j = i) m m' ∧
      ∀ kstack pagetable trapframe, b = .full kstack pagetable trapframe →
        Shaped lay m' pagetable trapframe 0 := by
  unfold Phys.build at hb
  rcases hstack : m.allocPage with ⟨kstack, m₁⟩
  simp only [hstack] at hb
  split at hb
  · obtain ⟨rfl, rfl⟩ := by simpa using hb
    exact ⟨.allocPage hstack, nofun⟩
  next hkstack =>
  obtain ⟨own₁, free₁, h₁, hext₁, -⟩ := h.allocFor (r := .kstack i) hstack hkstack (by simp)
  obtain ⟨⟨pagetable, m₂⟩, hpt, hb⟩ := Option.bind_eq_some_iff.mp hb
  obtain ⟨own₂, free₂, h₂, hext₂, hp₂⟩ := h₁.createPagetable (i := i) hpt
  have hkept₂ : EntriesKept own (fun j _ => j = i) m m₂ :=
    (EntriesKept.allocPage hstack).trans hext₁ (h₁.createPagetable_kept hpt)
  rcases hframe : m₂.allocPage with ⟨trapframe, m₃⟩
  simp only [hframe] at hb
  split at hb
  · obtain ⟨rfl, rfl⟩ := by simpa using hb
    exact ⟨hkept₂.trans (hext₁.trans hext₂) (.allocPage hframe), nofun⟩
  next htrapframe =>
  obtain ⟨own₃, free₃, h₃, hext₃, ht₃⟩ := h₂.allocFor (r := .trapframe i) hframe htrapframe (by simp)
  have hp₃ := hext₃.of_role hp₂ (by simp)
  obtain ⟨⟨r₄, m₄⟩, hm₄, hb⟩ := Option.bind_eq_some_iff.mp hb
  obtain ⟨own₄, free₄, h₄, hext₄⟩ := h₃.mapPage_kernel lay.kend_pos hp₃
    (.inl ⟨lay.trampoline_lt, lay.kend_le⟩) (by decide) (by decide) hm₄
  have hp₄ := hext₄.of_role hp₃ (by simp)
  have hkept₄ := h₃.mapPage_kept hp₃ hm₄
  have htramp := h₃.mapPage_leaf lay.kend_pos hp₃ hm₄
  obtain ⟨⟨r₅, m₅⟩, hm₅, hb⟩ := Option.bind_eq_some_iff.mp hb
  have hkept₅ := h₄.mapPage_kept hp₄ hm₅
  have htrap := h₄.mapPage_leaf lay.kend_pos hp₄ hm₅
  obtain ⟨rfl, rfl⟩ := by simpa using hb
  constructor
  · have hkept₃ := hkept₂.trans (hext₁.trans hext₂) (.allocPage hframe)
    exact (hkept₃.trans ((hext₁.trans hext₂).trans hext₃) (hkept₄.mono fun _ _ hhit => hhit.1)).trans
      (((hext₁.trans hext₂).trans hext₃).trans hext₄) (hkept₅.mono fun _ _ hhit => hhit.1)
  · rintro _ _ _ hfull
    obtain ⟨-, rfl, rfl⟩ := Built.full.inj hfull
    refine ⟨htrap, hkept₅.leaf h₄ hp₄ ?_ htramp, mapped_zero⟩
    rintro ⟨-, hpath⟩
    exact absurd hpath (by decide)

/-- `fork` maps in the child what it has mapped in the parent. -/
theorem forkPages_shaped {p : Fin nproc} {fuel : ℕ} {f : Forked} {parent : Proc}
    (h : Owned lay.kend own m free) (hparent : own parent.pagetable = some (.table p []))
    (hpc : p ≠ c) (hsrc : Shaped lay m parent.pagetable parent.trapframe parent.sz.toNat)
    (hf : m.forkPages lay fuel parent = some (f, m')) : EntriesKept own (fun j _ => j = c) m m' ∧
      ∀ kstack pagetable trapframe, f = .done kstack pagetable trapframe →
        Shaped lay m' pagetable trapframe parent.sz.toNat := by
  obtain ⟨⟨b, m₁⟩, hb, hf⟩ := Option.bind_eq_some_iff.mp hf
  obtain ⟨own₁, free₁, h₁, hext₁, hbuilt⟩ := h.build (i := c) hb
  obtain ⟨hkept₁, hshaped₁⟩ := h.build_shaped c hb
  cases b with
  | noStack =>
    obtain ⟨rfl, rfl⟩ := by simpa using hf
    exact ⟨hkept₁, nofun⟩
  | noFrame =>
    obtain ⟨rfl, rfl⟩ := by simpa using hf
    exact ⟨hkept₁, nofun⟩
  | full kstack pagetable trapframe =>
    have hshaped := hshaped₁ _ _ _ rfl
    have hother : ∀ path : List (Fin 512), ¬ p = c := fun _ => hpc
    have hsrc₁ := hsrc.kept hkept₁ h hparent hother
    obtain ⟨⟨ok, m₂⟩, hcopy, hf⟩ := Option.bind_eq_some_iff.mp hf
    obtain ⟨own₂, free₂, h₂, hext₂⟩ := h₁.copyPages lay.kend_pos hbuilt.2.1 hcopy
    have hzero : Mapped m₁ pagetable (0 * pgsize) := by
      rw [Nat.zero_mul]
      exact mapped_zero
    obtain ⟨hkept₂, hall⟩ := h₁.copyPages_mapped (v := 0) lay.kend_pos
      (hext₁.of_role hparent (by simp)) hbuilt.2.1 hpc hsrc₁.mapped hzero hcopy
    have hkept := hkept₁.trans hext₁ (hkept₂.mono fun _ _ hhit => hhit.1)
    cases ok
    · obtain ⟨rfl, rfl⟩ := by simpa using hf
      exact ⟨hkept, nofun⟩
    · obtain ⟨rfl, rfl⟩ := by simpa using hf
      have hframe := hext₂.of_role hbuilt.2.2 (by simp)
      have htable : ∀ i path, own₂ trapframe ≠ some (.table i path) := by simp [hframe]
      have hfill : EntriesKept own₂ (fun _ _ => False) m₂
          ((m₂.fill trapframe (m₂.page parent.trapframe)).store trapframe tfA0 0) :=
        (EntriesKept.fill htable _).trans (.refl own₂) (.fill htable _)
      refine ⟨hkept.trans (hext₁.trans hext₂) (hfill.mono fun _ _ hhit => hhit.elim), ?_⟩
      intro _ _ _ hdone
      obtain ⟨-, rfl, rfl⟩ := Forked.done.inj hdone
      have hgrown := hshaped.grown hkept₂ h₁ hbuilt.2.1 (hall rfl)
      exact hgrown.kept hfill h₂ (hext₂.of_role hbuilt.2.1 (by simp)) fun _ hhit => hhit

/-- `user_init` maps the program and its stack. -/
theorem initPages_shaped {kstack pagetable trapframe : ℕ} {sz : Word}
    (h : Owned lay.kend own m free) (hf : m.initPages lay = some (.done kstack pagetable trapframe sz, m')) :
    Shaped lay m' pagetable trapframe (sz + 4096).toNat := by
  obtain ⟨⟨b, m₁⟩, hb, hf⟩ := Option.bind_eq_some_iff.mp hf
  obtain ⟨own₁, free₁, h₁, hext₁, hbuilt⟩ := h.build (i := 0) hb
  obtain ⟨-, hshaped₁⟩ := h.build_shaped 0 hb
  cases b with
  | noStack => simp at hf
  | noFrame => simp at hf
  | full kstack pagetable trapframe =>
    have hshaped := hshaped₁ _ _ _ rfl
    obtain ⟨⟨ok, m₂⟩, hload, hf⟩ := Option.bind_eq_some_iff.mp hf
    obtain ⟨own₂, free₂, h₂, hext₂⟩ := h₁.loadPages lay.kend_pos hbuilt.2.1 hload
    have hzero : Mapped m₁ pagetable (0 * pgsize) := by
      rw [Nat.zero_mul]
      exact mapped_zero
    obtain ⟨hkept₂, hall⟩ := h₁.loadPages_mapped lay.kend_pos hbuilt.2.1 hzero hload
    cases ok
    · simp at hf
    have hp₂ := hext₂.of_role hbuilt.2.1 (by simp)
    have hmapped₂ : Mapped m₂ pagetable (lay.numPages * pgsize) := by
      have := hall rfl
      rwa [Nat.zero_add] at this
    have hshaped₂ := hshaped.grown hkept₂ h₁ hbuilt.2.1 hmapped₂
    have hnum := h₂.next_le hp₂ hmapped₂
    rcases halloc : m₂.allocPage with ⟨stack, m₃⟩
    simp only [halloc] at hf
    split at hf
    · exact nomatch ‹(true : Bool) = false›
    split at hf
    · simp at hf
    next hstack =>
    obtain ⟨⟨ret, m₄⟩, hm, hf⟩ := Option.bind_eq_some_iff.mp hf
    obtain ⟨hkept₄, -⟩ := h₂.addPage_kept lay.kend_pos hp₂ halloc hstack _ hm
    have hmapped₄ := h₂.addPage_mapped lay.kend_pos hp₂ hmapped₂ halloc hstack _ (by decide) hm
    obtain ⟨-, own₃, free₃, h₃, hext₃⟩ :=
      h₂.addPage lay.kend_pos hp₂ halloc hstack _ (by decide) (by decide) hm
    obtain ⟨⟨rfl, rfl, rfl, rfl⟩, rfl⟩ := by simpa using hf
    have hp₃ := hext₃.of_role hp₂ (by simp)
    have hsize : (pageVa lay.numPages + 4096).toNat = (lay.numPages + 1) * pgsize := by
      rw [pageVa_succ, pageVa_toNat (h₃.next_le hp₃ hmapped₄)]
    have hbelow : ∀ j path, j = (0 : Fin nproc) ∧ path = vpns (pageVa lay.numPages) →
        j = 0 ∧ PageFrom 0 path := fun _ _ ⟨hj, hpath⟩ =>
      ⟨hj, lay.numPages, Nat.zero_le _, hnum, hpath⟩
    have hshaped₄ := hshaped₂.grown (hkept₄.mono hbelow) h₂ hp₂ hmapped₄
    have htable : ∀ i path, own₃ trapframe ≠ some (.table i path) := by
      simp [hext₃.of_role (hext₂.of_role hbuilt.2.2 (by simp)) (by simp)]
    have hstores : EntriesKept own₃ (fun _ _ => False) m₄ ((m₄.store trapframe tfEpc 0).store
        trapframe tfSp (pageVa lay.numPages + 4096)) :=
      (EntriesKept.fill htable _).trans (.refl own₃) (.fill htable _)
    have hfinal := hshaped₄.kept hstores h₃ hp₃ fun _ hhit => hhit
    rw [← hsize] at hfinal
    exact hfinal

end Owned

/-! ## Events that leave address spaces alone -/

section Quiet

variable {s s' : Procs} {p : Fin nproc} {e : Procs.Event} {w : Option (Fin nproc × Waited)}

theorem sz_modProc {f : Proc → Proc} (hf : ∀ q, (f q).sz = q.sz) (i : Fin nproc) :
    ((s.modProc p f).proc i).sz = (s.proc i).sz := by
  by_cases hi : i = p
  · subst hi
    simp [modProc, hf]
  · simp [modProc, setProc_of_ne _ hi]

theorem sz_wakeup (chan i : Fin nproc) : ((s.wakeup chan).proc i).sz = (s.proc i).sz := by
  simp only [wakeup]
  split <;> rfl

theorem sz_swtch (ra : Resume) (i : Fin nproc) : ((s.swtch p ra).proc i).sz = (s.proc i).sz :=
  sz_modProc (f := fun q => { q with context := { q.context with ra } }) (fun _ => rfl) i

theorem sz_exitProcess (status : ℤ) (i : Fin nproc) :
    ((s.exitProcess p status).proc i).sz = (s.proc i).sz := by
  have hexit := sz_modProc (s := s) (p := p)
    (f := fun q => { q with exitCode := status, state := .zombie }) (fun _ => rfl) i
  cases hp : (s.proc p).parent with
  | none => rwa [exitProcess_orphan status hp]
  | some parent =>
    rw [exitProcess_child status hp]
    exact (sz_wakeup parent i).trans hexit

theorem sz_waitProcess (i : Fin nproc) : ((s.waitProcess p).2.proc i).sz = (s.proc i).sz := by
  obtain ⟨j, -, hw⟩ | ⟨-, -, hw⟩ | ⟨-, hw⟩ := waitProcess_cases s p
  · rw [hw]
    by_cases hi : i = j
    · rw [hi, reap_self]
    · rw [reap_of_ne hi]
  · rw [hw]
    exact (sz_swtch (s := s.modProc p fun q => { q with chan := some p, state := .sleeping })
      .wait i).trans (sz_modProc (f := fun q => { q with chan := some p, state := .sleeping })
        (fun _ => rfl) i)
  · rw [hw]

theorem sz_step (hfork : ∀ fuel, e ≠ .call (.fork fuel)) (hsbrk : ∀ n fuel, e ≠ .call (.sbrk n fuel))
    (h : s.step lay e = some (w, s')) (i : Fin nproc) : (s'.proc i).sz = (s.proc i).sz := by
  cases e with
  | call c =>
    obtain ⟨p, hp⟩ : ∃ p, s.cur = some p := by
      cases hcur : s.cur with
      | none => simp [step, hcur] at h
      | some p => exact ⟨p, rfl⟩
    cases c with
    | fork fuel => exact absurd rfl (hfork fuel)
    | sbrk n fuel => exact absurd rfl (hsbrk n fuel)
    | waitProcess =>
      obtain ⟨-, rfl⟩ := by simpa [step, hp, call] using h
      exact sz_waitProcess i
    | exitProcess status =>
      obtain ⟨-, rfl⟩ := by simpa [step, hp, call] using h
      exact sz_exitProcess status i
    | kill pid =>
      obtain ⟨-, rfl⟩ := by simpa [step, hp, call] using h
      unfold kill
      split
      · exact sz_modProc (f := killSlot) (fun _ => rfl) i
      · rfl
    | yield =>
      obtain ⟨-, rfl⟩ := by simpa [step, hp, call] using h
      exact (sz_swtch (s := s.modProc p fun q => { q with state := .runnable }) .yield i).trans
        (sz_modProc (f := fun q => { q with state := .runnable }) (fun _ => rfl) i)
  | schedule p =>
    by_cases hsched : s.cur = none ∧ (s.proc p).state = .runnable
    · obtain ⟨-, rfl⟩ := by simpa [step, hsched] using h
      by_cases hra : (s.proc p).context.ra = .wait
      · have hscan : s.scan (.schedule p) = some p := by simp [Procs.scan, hsched, hra]
        obtain ⟨s₁, hstart, -, hs₁⟩ := step_scan hscan h
        rw [hs₁, sz_waitProcess]
        obtain ⟨rfl, -⟩ | ⟨rfl, -⟩ := hstart
        · rfl
        · by_cases hi : i = p
          · rw [hi, woken_self]
          · rw [woken_of_ne hi]
      · rw [resume_elsewhere hra]
        exact sz_modProc (f := fun q => { q with state := .running }) (fun _ => rfl) i
    · simp [step, hsched] at h
  | trap c =>
    obtain ⟨_, -, -, rfl⟩ := by simpa [step, Option.bind_eq_some_iff] using h
    rfl
  | write _ _ _ c =>
    obtain ⟨_, -, _, -, -, rfl⟩ := by simpa [step, Option.bind_eq_some_iff] using h
    rfl

/-- A slot that holds a process held it before, with the same pages. -/
theorem live_step (hrun : s.Running) (hfork : ∀ fuel, e ≠ .call (.fork fuel))
    (h : s.step lay e = some (w, s')) {i : Fin nproc} (hlive : (s'.proc i).state.Live) :
    (s.proc i).state.Live ∧ (s'.proc i).pagetable = (s.proc i).pagetable ∧
      (s'.proc i).trapframe = (s.proc i).trapframe := by
  have hofKept : ∀ {t : Procs}, s.Kept t → (t.proc i).state.Live →
      (s.proc i).state.Live ∧ (t.proc i).pagetable = (s.proc i).pagetable ∧
        (t.proc i).trapframe = (s.proc i).trapframe := fun hkept hl =>
    ⟨(hkept i).live.mp hl, (hkept i).pagetable, (hkept i).trapframe⟩
  cases hscan : s.scan e with
  | none =>
    obtain ⟨-, ⟨hkept, -⟩ | ⟨fuel, _, _, _, _, rfl, -⟩⟩ := step_other hscan hrun h
    · exact hofKept hkept hlive
    · exact absurd rfl (hfork fuel)
  | some p =>
    obtain ⟨s₁, hstart, -, rfl⟩ := step_scan hscan h
    obtain ⟨hkept, -, hp⟩ := kept_start hrun hstart
    obtain ⟨j, -, hw⟩ | ⟨-, -, hw⟩ | ⟨-, hw⟩ := waitProcess_cases s₁ p
    · rw [hw] at hlive ⊢
      have hi : i ≠ j := by
        rintro rfl
        rw [reap_self] at hlive
        exact hlive.1 rfl
      rw [reap_of_ne hi] at hlive ⊢
      exact hofKept hkept hlive
    · rw [hw] at hlive ⊢
      exact hofKept (hkept.trans (kept_sleep p (by simp [ProcState.Live, hp]))) hlive
    · rw [hw] at hlive ⊢
      exact hofKept hkept hlive

/-- No page table is touched. -/
theorem tables_step (hs : Isolated lay own s) (hfork : ∀ fuel, e ≠ .call (.fork fuel))
    (hsbrk : ∀ n fuel, e ≠ .call (.sbrk n fuel)) (h : s.step lay e = some (w, s')) {q : ℕ}
    {path : List (Fin 512)} (hq : own q = some (.table i path)) :
    s'.phys.page q = s.phys.page q := by
  have hsame : ∀ {m : Phys}, m = s.phys → m.page q = s.phys.page q := by
    intro m hm
    rw [hm]
  -- a page that is no table is written
  have hfill : ∀ {pa : ℕ} (c : Page), own pa ≠ some (.table i path) →
      (s.phys.fill pa c).page q = s.phys.page q := by
    intro pa c hpa
    have hne : q ≠ pa := by
      rintro rfl
      exact hpa hq
    simp [Phys.fill, hne]
  cases hscan : s.scan e with
  | some p =>
    obtain ⟨s₁, hstart, -, rfl⟩ := step_scan hscan h
    have hkept := (kept_start hs.running hstart).1
    have hphys : s₁.phys = s.phys := by
      obtain ⟨rfl, -⟩ | ⟨rfl, -⟩ := hstart <;> rfl
    obtain ⟨j, hj, hw⟩ | ⟨-, -, hw⟩ | ⟨-, hw⟩ := waitProcess_cases s₁ p
    · have hlive : (s.proc j).state.Live :=
        (hkept j).live.mp (by simp [ProcState.Live, (zombieChild_spec hj).2])
      have hstack := (hs.slots j).kstack ((hs.slots j).live hlive).1
      rw [hw]
      show ((s₁.phys).freePage (s₁.proc j).kstack).page q = s.phys.page q
      rw [hphys, (hkept j).kstack]
      exact hfill _ (by simp [hstack])
    · rw [hw]
      exact hsame hphys
    · rw [hw]
      exact hsame hphys
  | none =>
    cases e with
    | call c =>
      obtain ⟨p, hp⟩ : ∃ p, s.cur = some p := by
        cases hcur : s.cur with
        | none => simp [step, hcur] at h
        | some p => exact ⟨p, rfl⟩
      cases c with
      | fork fuel => exact absurd rfl (hfork fuel)
      | sbrk n fuel => exact absurd rfl (hsbrk n fuel)
      | waitProcess => simp [Procs.scan, hp] at hscan
      | exitProcess status =>
        obtain ⟨-, rfl⟩ := by simpa [step, hp, call] using h
        exact hsame (exitProcess_phys status)
      | kill pid =>
        obtain ⟨-, rfl⟩ := by simpa [step, hp, call] using h
        exact hsame (kill_phys pid)
      | yield =>
        obtain ⟨-, rfl⟩ := by simpa [step, hp, call] using h
        exact hsame rfl
    | schedule p =>
      by_cases hsched : s.cur = none ∧ (s.proc p).state = .runnable
      · have hra : (s.proc p).context.ra ≠ .wait := by simpa [Procs.scan, hsched] using hscan
        obtain ⟨-, rfl⟩ := by simpa [step, hsched, resume_elsewhere hra] using h
        exact hsame rfl
      · simp [step, hsched] at h
    | trap c =>
      obtain ⟨p, hp, -, rfl⟩ := by simpa [step, Option.bind_eq_some_iff] using h
      have hframe := (hs.slots p).trapframe ((hs.slots p).live (hs.live hp)).2.2
      exact hfill c (by simp [hframe])
    | write _ _ _ c =>
      obtain ⟨p, hp, pa, hpa, -, rfl⟩ := by simpa [step, Option.bind_eq_some_iff] using h
      obtain ⟨free, hown⟩ := hs.owned
      have hroot := (hs.slots p).pagetable ((hs.slots p).live (hs.live hp)).2.1
      exact hfill c (by simp [hown.userPage hroot hpa])

/-- No page table entry is touched. -/
theorem entriesKept_step (hs : Isolated lay own s) (hfork : ∀ fuel, e ≠ .call (.fork fuel))
    (hsbrk : ∀ n fuel, e ≠ .call (.sbrk n fuel)) (h : s.step lay e = some (w, s')) :
    EntriesKept own (fun _ _ => False) s.phys s'.phys :=
  .of_page fun _ _ _ hq => tables_step hs hfork hsbrk h hq

end Quiet

/-! ## `sbrk` -/

theorem pgroundup_eq {sz : Word} (h : sz.toNat ≤ phystop) :
    pgroundup sz = pageVa (pagesOf sz.toNat) := by
  apply BitVec.eq_of_toNat_eq
  have hle : pagesOf sz.toNat ≤ phystop / pgsize := by
    simp only [pagesOf, phystop, pgsize] at h ⊢
    omega
  rw [pgroundup_toNat (by simp only [phystop, pgsize] at h ⊢; omega), pageVa_toNat hle]

theorem Mapped.pages {n : ℕ} (h : Mapped m pt n) : Mapped m pt (pagesOf n * pgsize) := by
  intro v hv
  refine h v ?_
  have hlt := Nat.lt_of_mul_lt_mul_right hv
  simp only [pagesOf, pgsize] at hlt ⊢
  omega

/-- A number added to a size, where the result is a size. -/
theorem add_ofInt_toNat {sz : Word} {n : ℤ} (hlow : 0 ≤ (sz.toNat : ℤ) + n)
    (hhigh : (sz.toNat : ℤ) + n < 2 ^ 64) :
    ((sz + BitVec.ofInt 64 n).toNat : ℤ) = sz.toNat + n := by
  have hsum : sz + BitVec.ofInt 64 n = BitVec.ofInt 64 (sz.toNat + n) := by
    rw [BitVec.ofInt_add, BitVec.ofInt_natCast, BitVec.ofNat_toNat, BitVec.setWidth_eq]
  rw [hsum, BitVec.toNat_ofInt, Int.toNat_of_nonneg (Int.emod_nonneg _ (by decide))]
  exact Int.emod_eq_of_lt hlow (by simpa using hhigh)

/-- What `sbrk` promises: it fails and leaves the size, or adds `n` to it. -/
structure SbrkRight (q q' : Proc) (n : ℤ) (r : Word) : Prop where
  failed : r = -1 → q'.sz = q.sz
  done : r ≠ -1 → (q'.sz.toNat : ℤ) = q.sz.toNat + n

/-- The values of an `int`. -/
def IsInt (n : ℤ) : Prop := -2 ^ 31 ≤ n ∧ n < 2 ^ 31

/-! ## The invariant -/

/-- Every process has the address space that its size says. -/
structure Sized (lay : Layout) (own : ℕ → Option Role) (s : Procs) : Prop where
  isolated : Isolated lay own s
  shaped : ∀ i, (s.proc i).state.Live →
    Shaped lay s.phys (s.proc i).pagetable (s.proc i).trapframe (s.proc i).sz.toNat

/-- The `sbrk` of the event does not ask for less than nothing. -/
def NotBelowZero (s : Procs) (e : Procs.Event) : Prop :=
  ∀ p n fuel, s.cur = some p → e = .call (.sbrk n fuel) → 0 ≤ ((s.proc p).sz.toNat : ℤ) + n

namespace Sized

variable {s s' : Procs} {p : Fin nproc} {e : Procs.Event} {w : Option (Fin nproc × Waited)}

/-- The root of a process's page table. -/
theorem root (h : Sized lay own s) (hlive : (s.proc i).state.Live) :
    own (s.proc i).pagetable = some (.table i []) :=
  (h.isolated.slots i).pagetable ((h.isolated.slots i).live hlive).2.1

theorem size_le (h : Sized lay own s) (hlive : (s.proc i).state.Live) :
    (s.proc i).sz.toNat ≤ phystop := by
  obtain ⟨free, hown⟩ := h.isolated.owned
  exact hown.mapped_le (h.root hlive) (h.shaped i hlive).mapped

/-- The memory side of `sbrk`: whether it gets the pages or not, nobody loses one. -/
theorem sbrk_phys {n : ℤ} {fuel : ℕ} {ok : Bool} (h : Sized lay own s)
    (hlive : (s.proc p).state.Live)
    (hgrow : (if n > 0 then growPages (s.proc p).pagetable ((s.proc p).sz + BitVec.ofInt 64 n) fuel
      (pgroundup (s.proc p).sz) s.phys else some (true, s.phys)) = some (ok, m)) :
    EntriesKept own (fun j path => j = p ∧ PageFrom (pagesOf (s.proc p).sz.toNat) path) s.phys m ∧
      (ok = true → 0 < n → Mapped m (s.proc p).pagetable
        ((s.proc p).sz + BitVec.ofInt 64 n).toNat) := by
  obtain ⟨free, hown⟩ := h.isolated.owned
  split at hgrow
  · rw [pgroundup_eq (h.size_le hlive)] at hgrow
    obtain ⟨hkept, hall⟩ := hown.growPages_mapped lay.kend_pos (h.root hlive)
      (h.shaped p hlive).mapped.pages hgrow
    exact ⟨hkept, fun hok _ => hall hok⟩
  · next hn =>
    obtain ⟨-, rfl⟩ := by simpa using hgrow
    exact ⟨.refl _, fun _ hn' => absurd hn' hn⟩

/-- The address spaces after `sbrk`. -/
theorem sbrk_shaped {n : ℤ} {fuel : ℕ} {r : Word} (h : Sized lay own s)
    (hlive : (s.proc p).state.Live) (hn : 0 ≤ ((s.proc p).sz.toNat : ℤ) + n)
    (hr : s.sbrk fuel p n = some (r, s')) (hi : (s'.proc i).state.Live) :
    Shaped lay s'.phys (s'.proc i).pagetable (s'.proc i).trapframe (s'.proc i).sz.toNat := by
  obtain ⟨free, hown⟩ := h.isolated.owned
  have hi' := (kept_sbrk hr i).live.mp hi
  obtain ⟨ok, m, hgrow, hcases⟩ := sbrk_cases hr
  obtain ⟨hkept, hall⟩ := h.sbrk_phys hlive hgrow
  -- the pages below the old size are still there
  have hold : Mapped m (s.proc p).pagetable (s.proc p).sz.toNat := by
    intro v hv
    obtain ⟨w, hw, hflags⟩ := (h.shaped p hlive).mapped v hv
    refine ⟨w, hkept.leaf hown (h.root hlive) ?_ hw, hflags⟩
    rintro ⟨-, u, hu, hle, hpath⟩
    have hsize := h.size_le hlive
    simp only [pagesOf, pgsize, phystop] at hu hle hv hsize
    have := vpns_pageVa (by omega) (by omega) hpath
    omega
  by_cases hip : i = p
  · subst hip
    obtain ⟨-, -, rfl⟩ | ⟨rfl, -, rfl⟩ := hcases
    · exact (h.shaped i hlive).grown hkept hown (h.root hlive) hold
    · simp only [modProc, setProc_self, setProc_phys, setPhys_proc, setPhys_phys]
      refine (h.shaped i hlive).grown hkept hown (h.root hlive) ?_
      by_cases hpos : 0 < n
      · exact hall rfl hpos
      · refine hold.mono ?_
        have hsize := (s.proc i).sz.isLt
        have hsum := add_ofInt_toNat hn (by omega)
        omega
  · have hslot : s'.proc i = s.proc i ∧ s'.phys = m := by
      obtain ⟨-, -, rfl⟩ | ⟨-, -, rfl⟩ := hcases
      · exact ⟨rfl, rfl⟩
      · exact ⟨setProc_of_ne _ hip, rfl⟩
    rw [hslot.1, hslot.2]
    exact (h.shaped i hi').kept hkept hown (h.root hi') fun _ hhit => hip hhit.1

/-- The address spaces after a `fork` that found a slot. -/
theorem fork_shaped {fuel : ℕ} {f : Forked} (h : Sized lay own s) (hlive : (s.proc p).state.Live)
    (hc : (s.proc c).state = .unused) (hf : s.phys.forkPages lay fuel (s.proc p) = some (f, m))
    (hi : ((s.enter c (f.proc p (s.proc p) (s.proc c) s.nextpid) m).proc i).state.Live) :
    Shaped lay m ((s.enter c (f.proc p (s.proc p) (s.proc c) s.nextpid) m).proc i).pagetable
      ((s.enter c (f.proc p (s.proc p) (s.proc c) s.nextpid) m).proc i).trapframe
      ((s.enter c (f.proc p (s.proc p) (s.proc c) s.nextpid) m).proc i).sz.toNat := by
  obtain ⟨free, hown⟩ := h.isolated.owned
  have hpc : p ≠ c := by
    rintro rfl
    exact hlive.1 hc
  obtain ⟨hkept, hdone⟩ := hown.forkPages_shaped (h.root hlive) hpc (h.shaped p hlive) hf
  by_cases hic : i = c
  · subst hic
    rw [enter_self] at hi ⊢
    cases f with
    | starved b => cases b <;> exact absurd rfl hi.2
    | uncopied => exact absurd rfl hi.1
    | done kstack pagetable trapframe => exact hdone _ _ _ rfl
  · rw [enter_of_ne _ _ hic] at hi ⊢
    exact (h.shaped i hi).kept hkept hown (h.root hi) fun _ => hic

theorem step (h : Sized lay own s) (hok : NotBelowZero s e) (hstep : s.step lay e = some (w, s')) :
    ∃ own', Sized lay own' s' := by
  obtain ⟨own', hs', -⟩ := h.isolated.step hstep
  refine ⟨own', hs', fun i hi => ?_⟩
  by_cases hfork : ∃ fuel, e = .call (.fork fuel)
  · obtain ⟨fuel, rfl⟩ := hfork
    cases hp : s.cur with
    | none => simp [Procs.step, hp] at hstep
    | some p =>
      obtain ⟨-, rfl | ⟨c, f, m, hc, hf, rfl⟩⟩ := step_fork h.isolated.running hp hstep
      · exact h.shaped i hi
      · exact h.fork_shaped (h.isolated.live hp) (firstUnused_unused hc) hf hi
  by_cases hsbrk : ∃ n fuel, e = .call (.sbrk n fuel)
  · obtain ⟨n, fuel, rfl⟩ := hsbrk
    cases hp : s.cur with
    | none => simp [Procs.step, hp] at hstep
    | some p =>
      cases hr : s.sbrk fuel p n with
      | none => simp [Procs.step, hp, call, hr] at hstep
      | some r =>
        obtain ⟨-, rfl⟩ := by simpa [Procs.step, hp, call, hr] using hstep
        exact h.sbrk_shaped (h.isolated.live hp) (hok p n fuel hp rfl) hr hi
  have hfork' : ∀ fuel, e ≠ .call (.fork fuel) := fun fuel heq => hfork ⟨fuel, heq⟩
  have hsbrk' : ∀ n fuel, e ≠ .call (.sbrk n fuel) := fun n fuel heq => hsbrk ⟨n, fuel, heq⟩
  obtain ⟨free, hown⟩ := h.isolated.owned
  obtain ⟨hlive, hpt, htf⟩ := live_step h.isolated.running hfork' hstep hi
  rw [hpt, htf, sz_step hfork' hsbrk' hstep]
  exact (h.shaped i hlive).kept (entriesKept_step h.isolated hfork' hsbrk' hstep) hown (h.root hlive)
    fun _ hhit => hhit

theorem boot (h : Procs.boot lay = some s) : ∃ own, Sized lay own s := by
  obtain ⟨own, hs⟩ := Isolated.boot h
  refine ⟨own, hs, fun i hi => ?_⟩
  obtain ⟨-, -, -, hfree⟩ := boot_spec h
  obtain ⟨own₀, free₀, h₀⟩ := Owned.pmmInit lay.kend_pos lay.kend_le
  obtain ⟨own₁, free₁, h₁⟩ : ∃ own free, Owned lay.kend own (blank lay).phys free := h₀.takePages
  by_cases hi0 : i = 0
  · subst hi0
    rw [boot_eq] at h
    obtain ⟨⟨r, m⟩, hr, rfl⟩ := Option.map_eq_some_iff.mp h
    rw [enter_self] at hi ⊢
    cases r with
    | starved b => cases b <;> exact absurd rfl hi.2
    | unloaded => exact absurd rfl hi.2
    | done kstack pagetable trapframe sz => exact h₁.initPages_shaped hr
  · rw [hfree i hi0] at hi
    exact absurd rfl hi.1

/-- The next `sbrk` does what it promises exactly if it does not ask for less than nothing. -/
theorem sbrk_right {n : ℤ} {fuel : ℕ} {r : Word} (h : Sized lay own s)
    (hlive : (s.proc p).state.Live) (hn : IsInt n) (hr : s.sbrk fuel p n = some (r, s')) :
    SbrkRight (s.proc p) (s'.proc p) n r ↔ 0 ≤ ((s.proc p).sz.toNat : ℤ) + n := by
  have hsize := h.size_le hlive
  have hne : (s.proc p).sz ≠ -1 := by
    intro heq
    rw [heq] at hsize
    exact absurd hsize (by decide)
  obtain ⟨hlow, hhigh⟩ := hn
  simp only [phystop] at hsize
  obtain ⟨ok, m, hgrow, hcases⟩ := sbrk_cases hr
  obtain ⟨rfl, rfl, rfl⟩ | ⟨rfl, rfl, rfl⟩ := hcases
  · -- only a request for more can fail
    have hpos : 0 < n := by
      by_contra hn
      simp [hn] at hgrow
    exact ⟨fun _ => by omega, fun _ => ⟨fun _ => rfl, fun h0 => absurd rfl h0⟩⟩
  · have hsz : (((s.setPhys m).modProc p fun q =>
        { q with sz := (s.proc p).sz + BitVec.ofInt 64 n }).proc p).sz =
          (s.proc p).sz + BitVec.ofInt 64 n := by
      simp [modProc]
    constructor
    · intro hright
      have hdone := hright.done hne
      omega
    · intro hle
      refine ⟨fun h0 => absurd h0 hne, fun _ => ?_⟩
      rw [hsz]
      exact add_ofInt_toNat hle (by omega)

end Sized

/-! ## Process sizes -/

/-- The machine, where `sbrk` is called with an `int`. -/
def intCalls (lay : Layout) : System Procs Procs.Event :=
  (machine lay).restrict fun _ e => ∀ n fuel, e = .call (.sbrk n fuel) → IsInt n

theorem sized_of_reachable {s : Procs} (h : ((intCalls lay).restrict NotBelowZero).Reachable s) :
    ∃ own, Sized lay own s := by
  induction h with
  | init h => exact Sized.boot h
  | step _ hstep ih =>
    obtain ⟨own, hs⟩ := ih
    obtain ⟨hok, -, w, hstep⟩ := hstep
    exact hs.step hok hstep

/-- In every run in which no `sbrk` asks for less than nothing, no process is larger than
`TRAPFRAME`, and the page table entries of its trapframe and of the trampoline are those that
`alloc_process` has made.  The next `sbrk`, of any `int`, fails and leaves the size or adds its
argument to it, unless it is one that asks for less than nothing. -/
theorem process_size (lay : Layout) (s : Procs)
    (h : ((intCalls lay).restrict NotBelowZero).Reachable s) :
    (∀ i, (s.proc i).state.Live → (s.proc i).sz ≤ trapframeVa ∧
      s.phys.leaf (s.proc i).pagetable trapframeVa =
        some (paPte (s.proc i).trapframe ||| (pteR ||| pteW) ||| pteV) ∧
      s.phys.leaf (s.proc i).pagetable trampolineVa =
        some (paPte lay.trampoline ||| (pteR ||| pteX) ||| pteV)) ∧
    ∀ p n fuel r s', s.cur = some p → IsInt n → s.sbrk fuel p n = some (r, s') →
      (SbrkRight (s.proc p) (s'.proc p) n r ↔ 0 ≤ ((s.proc p).sz.toNat : ℤ) + n) := by
  obtain ⟨own, hs⟩ := sized_of_reachable h
  refine ⟨fun i hi => ⟨?_, (hs.shaped i hi).trapframe, (hs.shaped i hi).trampoline⟩, ?_⟩
  · have hsize := hs.size_le hi
    have htop : trapframeVa.toNat = 274877898752 := by decide
    rw [BitVec.le_def, htop]
    simp only [phystop] at hsize
    omega
  · intro p n fuel r s' hp hn hr
    exact hs.sbrk_right (hs.isolated.live hp) hn hr

/-- `init` has two pages; when it gives back three, its size wraps around. -/
theorem process_size_wraps : ∃ s r s', (intCalls smallLayout).Reachable s ∧ s.cur = some 0 ∧
    s.sbrk 1 0 (-12288) = some (r, s') ∧ ¬ SbrkRight (s.proc 0) (s'.proc 0) (-12288) r ∧
    (s'.proc 0).state.Live ∧ ¬ (s'.proc 0).sz ≤ trapframeVa := by
  have hrun : ((boot smallLayout).bind fun s => (s.step smallLayout (.schedule 0)).map Prod.snd).any
      (fun s => s.cur = some 0 ∧ (s.sbrk 1 0 (-12288)).any fun r =>
        r.1 ≠ -1 ∧ ((r.2.proc 0).sz.toNat : ℤ) ≠ (s.proc 0).sz.toNat + -12288 ∧
          (r.2.proc 0).state.Live ∧ ¬ (r.2.proc 0).sz ≤ trapframeVa) := by
    decide +kernel
  obtain ⟨s, hs, hfacts⟩ := (Option.any_eq_true ..).mp hrun
  obtain ⟨hcur, hsbrk⟩ := of_decide_eq_true hfacts
  obtain ⟨⟨r, s'⟩, hr, hfacts⟩ := (Option.any_eq_true ..).mp hsbrk
  obtain ⟨hne, hsz, hlive, hlarge⟩ := of_decide_eq_true hfacts
  obtain ⟨s₀, hboot, hstart⟩ := Option.bind_eq_some_iff.mp hs
  obtain ⟨⟨w, u⟩, hstep, rfl⟩ := Option.map_eq_some_iff.mp hstart
  have hinit : (intCalls smallLayout).init s₀ := hboot
  have hreach : (intCalls smallLayout).Reachable u :=
    .step (i := .schedule 0) (.init hinit) ⟨fun _ _ heq => (nomatch heq), w, hstep⟩
  exact ⟨u, r, s', hreach, hcur, hr, fun hright => hsz (hright.done hne), hlive, hlarge⟩

/-- After boot `init` has two pages. -/
theorem process_size_boot : ∃ s, ((intCalls smallLayout).restrict NotBelowZero).Reachable s ∧
    (s.proc 0).state.Live ∧ (s.proc 0).sz = 8192 ∧ (s.proc 0).sz ≤ trapframeVa := by
  have hrun : (boot smallLayout).any (fun s => (s.proc 0).state.Live ∧ (s.proc 0).sz = 8192) := by
    decide +kernel
  obtain ⟨s, hs, hfacts⟩ := (Option.any_eq_true ..).mp hrun
  obtain ⟨hlive, hsz⟩ := of_decide_eq_true hfacts
  have hinit : ((intCalls smallLayout).restrict NotBelowZero).init s := hs
  exact ⟨s, .init hinit, hlive, hsz, ((process_size smallLayout s (.init hinit)).1 0 hlive).1⟩

end RiscvOs
