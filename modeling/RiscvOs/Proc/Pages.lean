import RiscvOs.Vm.Owned
import RiscvOs.Proc.Spec

/-!
# Who owns which page

No page is used for two things: the free list, the kernel stacks, the trapframes, the
page tables and the user pages of all processes are disjoint, whatever the processes
do (`exclusive_ownership`).

The invariant is `Isolated`: memory is laid out according to some ghost map `own`, and
the pointers of every slot lead to pages that have the slot's own roles.  It speaks of
every slot, free ones too: a page that a slot still points to after `fork` has failed
or the process was reaped is not given to anybody else, since it is never freed.
-/

namespace RiscvOs

open LinkedList Procs

variable {lay : Layout} {kend : ℕ} {own own' : ℕ → Option Role} {m m' : Phys} {free : List ℕ}
  {i : Fin nproc}

/-! ## What the loops and the allocations do to the layout of memory -/

namespace Owned

/-- The pages that `pmm_init` frees get onto the free list. -/
theorem freeRange {count pa : ℕ} (h : Owned kend own m free) (hk : 0 < kend) (hkpa : kend ≤ pa)
    (hdvd : pgsize ∣ pa) (hup : pa + count * pgsize ≤ phystop) (hnew : ∀ q, pa ≤ q → own q = none) :
    ∃ own' free', Owned kend own' (m.freeRange pa count) free' := by
  induction count generalizing pa own m free with
  | zero => exact ⟨own, free, h⟩
  | succ count ih =>
      have hup' : pa + pgsize + count * pgsize ≤ phystop := by
        rw [Nat.succ_mul] at hup
        omega
      have hrange : InRange kend pa := ⟨hdvd, hkpa, by omega⟩
      have hpa := hnew pa (Nat.le_refl pa)
      have hfreed := h.freePage (by simp [hpa, Plain]) (by simp [hpa]) hrange hk
      refine ih hfreed (by omega) (Nat.dvd_add hdvd (Nat.dvd_refl _)) hup' fun q hq => ?_
      rw [Function.update_of_ne (by simp only [pgsize] at hq; omega)]
      exact hnew q (by omega)

theorem pmmInit (hk : 0 < kend) (hle : kend ≤ phystop) :
    ∃ own' free', Owned kend own' (({} : Phys).pmmInit kend) free' := by
  have hempty : Owned kend (fun _ => none) {} [] :=
    ⟨.nil, fun _ hq => absurd hq List.not_mem_nil, fun _ _ hq => (nomatch hq),
      fun _ _ _ _ hq => (nomatch hq), fun _ _ _ _ hq => (nomatch hq),
      fun _ _ _ _ hq => (nomatch hq)⟩
  refine hempty.freeRange hk ?_ (Nat.dvd_mul_left _ _) ?_ fun _ _ => rfl
  · simp only [pgsize]
    omega
  · simp only [pgsize, phystop] at hle ⊢
    omega

/-- Pages that are allocated and kept have no role. -/
theorem takePages {count : ℕ} (h : Owned kend own m free) :
    ∃ own' free', Owned kend own' (m.takePages count) free' := by
  induction count generalizing own m free with
  | zero => exact ⟨own, free, h⟩
  | succ count ih =>
      rcases halloc : m.allocPage with ⟨pa, m₁⟩
      by_cases hpa : pa = 0
      · subst hpa
        obtain rfl := allocPage_null halloc
        simpa [Phys.takePages, halloc] using ih h
      · obtain ⟨free', -, -, -, h₁⟩ := h.allocPage halloc hpa
        simpa [Phys.takePages, halloc] using ih h₁

/-- The pages of a slot that has just been built. -/
def BuiltFor (own : ℕ → Option Role) (i : Fin nproc) : Built → Prop
  | .noStack => True
  | .noFrame kstack pagetable =>
    own kstack = some (.kstack i) ∧ own pagetable = some (.table i [])
  | .full kstack pagetable trapframe =>
    own kstack = some (.kstack i) ∧ own pagetable = some (.table i []) ∧
      own trapframe = some (.trapframe i)

theorem build {b : Built} (h : Owned lay.kend own m free) (hb : m.build lay = some (b, m')) :
    ∃ own' free', Owned lay.kend own' m' free' ∧ Extends own own' ∧ BuiltFor own' i b := by
  unfold Phys.build at hb
  rcases hstack : m.allocPage with ⟨kstack, m₁⟩
  simp only [hstack] at hb
  split at hb
  · next h0 =>
    obtain ⟨rfl, rfl⟩ := by simpa using hb
    subst h0
    obtain rfl := allocPage_null hstack
    exact ⟨own, free, h, .refl own, trivial⟩
  next hkstack =>
  obtain ⟨own₁, free₁, h₁, hext₁, hk₁⟩ := h.allocFor (r := .kstack i) hstack hkstack (by simp)
  obtain ⟨⟨pagetable, m₂⟩, hpt, hb⟩ := Option.bind_eq_some_iff.mp hb
  obtain ⟨own₂, free₂, h₂, hext₂, hp₂⟩ := h₁.createPagetable (i := i) hpt
  have hk₂ := hext₂.of_role hk₁ (by simp)
  rcases hframe : m₂.allocPage with ⟨trapframe, m₃⟩
  simp only [hframe] at hb
  split at hb
  · next h0 =>
    obtain ⟨rfl, rfl⟩ := by simpa using hb
    subst h0
    obtain rfl := allocPage_null hframe
    exact ⟨own₂, free₂, h₂, hext₁.trans hext₂, hk₂, hp₂⟩
  next htrapframe =>
  obtain ⟨own₃, free₃, h₃, hext₃, ht₃⟩ := h₂.allocFor (r := .trapframe i) hframe htrapframe (by simp)
  have hp₃ := hext₃.of_role hp₂ (by simp)
  obtain ⟨⟨r₄, m₄⟩, hm₄, hb⟩ := Option.bind_eq_some_iff.mp hb
  obtain ⟨own₄, free₄, h₄, hext₄⟩ := h₃.mapPage_kernel lay.kend_pos hp₃
    (.inl ⟨lay.trampoline_lt, lay.kend_le⟩) (by decide) (by decide) hm₄
  have hp₄ := hext₄.of_role hp₃ (by simp)
  obtain ⟨⟨r₅, m₅⟩, hm₅, hb⟩ := Option.bind_eq_some_iff.mp hb
  obtain ⟨own₅, free₅, h₅, hext₅⟩ := h₄.mapPage_kernel lay.kend_pos hp₄
    (.inr (hext₄.of_role ht₃ (by simp))) (by decide) (by decide) hm₅
  obtain ⟨rfl, rfl⟩ := by simpa using hb
  have hext : Extends own₂ own₅ := (hext₃.trans hext₄).trans hext₅
  exact ⟨own₅, free₅, h₅, (hext₁.trans hext₂).trans hext, hext.of_role hk₂ (by simp),
    hext.of_role hp₂ (by simp), (hext₄.trans hext₅).of_role ht₃ (by simp)⟩

theorem copyPages {parent child fuel : ℕ} {sz va : Word} {ok : Bool}
    (h : Owned kend own m free) (hk : 0 < kend) (hpt : own child = some (.table i []))
    (hc : Procs.copyPages parent child sz fuel va m = some (ok, m')) :
    ∃ own' free', Owned kend own' m' free' ∧ Extends own own' := by
  induction fuel generalizing own m free va with
  | zero => exact nomatch hc
  | succ fuel ih =>
      unfold Procs.copyPages at hc
      split at hc
      · split at hc
        · exact ih h hpt hc
        · split at hc
          · rcases halloc : m.allocPage with ⟨mem, m₁⟩
            simp only [halloc] at hc
            split at hc
            · next h0 =>
              obtain ⟨rfl, rfl⟩ := by simpa using hc
              subst h0
              obtain rfl := allocPage_null halloc
              exact ⟨own, free, h, .refl own⟩
            · next hmem =>
              obtain ⟨⟨r, m₂⟩, hm, hc⟩ := Option.bind_eq_some_iff.mp hc
              obtain ⟨rfl, own₁, free₁, h₁, hext₁⟩ :=
                h.addPage hk hpt halloc hmem _ (by decide) (by decide) hm
              obtain ⟨own₂, free₂, h₂, hext₂⟩ := ih h₁ (hext₁.of_role hpt (by simp)) (by simpa using hc)
              exact ⟨own₂, free₂, h₂, hext₁.trans hext₂⟩
          · exact ih h hpt hc
      · obtain ⟨rfl, rfl⟩ := by simpa using hc
        exact ⟨own, free, h, .refl own⟩

theorem growPages {pt fuel : ℕ} {newsz a : Word} {ok : Bool}
    (h : Owned kend own m free) (hk : 0 < kend) (hpt : own pt = some (.table i []))
    (hc : Procs.growPages pt newsz fuel a m = some (ok, m')) :
    ∃ own' free', Owned kend own' m' free' ∧ Extends own own' := by
  induction fuel generalizing own m free a with
  | zero => exact nomatch hc
  | succ fuel ih =>
      unfold Procs.growPages at hc
      split at hc
      · rcases halloc : m.allocPage with ⟨mem, m₁⟩
        simp only [halloc] at hc
        split at hc
        · next h0 =>
          obtain ⟨rfl, rfl⟩ := by simpa using hc
          subst h0
          obtain rfl := allocPage_null halloc
          exact ⟨own, free, h, .refl own⟩
        · next hmem =>
          obtain ⟨⟨r, m₂⟩, hm, hc⟩ := Option.bind_eq_some_iff.mp hc
          obtain ⟨rfl, own₁, free₁, h₁, hext₁⟩ := h.addPage hk hpt halloc hmem _ (by decide) (by decide) hm
          obtain ⟨own₂, free₂, h₂, hext₂⟩ := ih h₁ (hext₁.of_role hpt (by simp)) (by simpa using hc)
          exact ⟨own₂, free₂, h₂, hext₁.trans hext₂⟩
      · obtain ⟨rfl, rfl⟩ := by simpa using hc
        exact ⟨own, free, h, .refl own⟩

theorem loadPages {pt n count : ℕ} {bytes : List UInt8} {ok : Bool}
    (h : Owned kend own m free) (hk : 0 < kend) (hpt : own pt = some (.table i []))
    (hc : Procs.loadPages m pt bytes n count = some (ok, m')) :
    ∃ own' free', Owned kend own' m' free' ∧ Extends own own' := by
  induction count generalizing own m free n with
  | zero =>
      obtain ⟨rfl, rfl⟩ := by simpa [Procs.loadPages] using hc
      exact ⟨own, free, h, .refl own⟩
  | succ count ih =>
      unfold Procs.loadPages at hc
      rcases halloc : m.allocPage with ⟨mem, m₁⟩
      simp only [halloc] at hc
      split at hc
      · next h0 =>
        obtain ⟨rfl, rfl⟩ := by simpa using hc
        subst h0
        obtain rfl := allocPage_null halloc
        exact ⟨own, free, h, .refl own⟩
      · next hmem =>
        obtain ⟨⟨r, m₂⟩, hm, hc⟩ := Option.bind_eq_some_iff.mp hc
        obtain ⟨rfl, own₁, free₁, h₁, hext₁⟩ := h.addPage hk hpt halloc hmem _ (by decide) (by decide) hm
        obtain ⟨own₂, free₂, h₂, hext₂⟩ := ih h₁ (hext₁.of_role hpt (by simp)) hc
        exact ⟨own₂, free₂, h₂, hext₁.trans hext₂⟩

end Owned

/-! ## The slots -/

/-- The pages a slot points to have the slot's roles; a process has all three of them. -/
structure SlotOwned (own : ℕ → Option Role) (i : Fin nproc) (q : Proc) : Prop where
  kstack : q.kstack ≠ 0 → own q.kstack = some (.kstack i)
  pagetable : q.pagetable ≠ 0 → own q.pagetable = some (.table i [])
  trapframe : q.trapframe ≠ 0 → own q.trapframe = some (.trapframe i)
  live : q.state.Live → q.kstack ≠ 0 ∧ q.pagetable ≠ 0 ∧ q.trapframe ≠ 0

namespace SlotOwned

variable {q q' : Proc}

theorem mono (h : SlotOwned own i q) (hext : Extends own own') : SlotOwned own' i q where
  kstack hq := hext.of_role (h.kstack hq) (by simp)
  pagetable hq := hext.of_role (h.pagetable hq) (by simp)
  trapframe hq := hext.of_role (h.trapframe hq) (by simp)
  live := h.live

theorem kept (h : SlotOwned own i q) (hkept : q.Kept q') : SlotOwned own i q' where
  kstack := by rw [hkept.kstack]; exact h.kstack
  pagetable := by rw [hkept.pagetable]; exact h.pagetable
  trapframe := by rw [hkept.trapframe]; exact h.trapframe
  live := by
    rw [hkept.live, hkept.kstack, hkept.pagetable, hkept.trapframe]
    exact h.live

theorem empty : SlotOwned own i {} :=
  ⟨fun h => absurd rfl h, fun h => absurd rfl h, fun h => absurd rfl h,
    fun h => absurd rfl h.1⟩

/-- The slot after `alloc_process`; what it could not allocate is null. -/
theorem built {b : Built} {pid : ℤ} (h : SlotOwned own i q) (hb : Owned.BuiltFor own i b) :
    SlotOwned own i (b.proc q pid) := by
  cases b with
  | noStack => exact ⟨fun h0 => absurd rfl h0, h.pagetable, h.trapframe, fun hl => absurd rfl hl.2⟩
  | noFrame => exact ⟨fun _ => hb.1, fun _ => hb.2, fun h0 => absurd rfl h0, fun hl => absurd rfl hl.2⟩
  | full => exact ⟨fun _ => hb.1, fun _ => hb.2.1, fun _ => hb.2.2, fun hl => absurd rfl hl.2⟩

/-- A slot built in full, whatever is done to its other fields. -/
theorem ofFull {kstack pagetable trapframe : ℕ} (hb : Owned.BuiltFor own i
      (.full kstack pagetable trapframe)) (hpos : ∀ pa r, own pa = some r → pa ≠ 0)
    (hk : q.kstack = kstack) (hp : q.pagetable = pagetable) (ht : q.trapframe = trapframe) :
    SlotOwned own i q := by
  subst hk hp ht
  exact ⟨fun _ => hb.1, fun _ => hb.2.1, fun _ => hb.2.2,
    fun _ => ⟨hpos _ _ hb.1, hpos _ _ hb.2.1, hpos _ _ hb.2.2⟩⟩

end SlotOwned

theorem Owned.BuiltFor.mono {b : Built} (h : Owned.BuiltFor own i b) (hext : Extends own own') :
    Owned.BuiltFor own' i b := by
  cases b with
  | noStack => trivial
  | noFrame => exact ⟨hext.of_role h.1 (by simp), hext.of_role h.2 (by simp)⟩
  | full =>
    exact ⟨hext.of_role h.1 (by simp), hext.of_role h.2.1 (by simp), hext.of_role h.2.2 (by simp)⟩

namespace Owned

/-- The pages of a slot that `fork` has filled. -/
def ForkedFor (own : ℕ → Option Role) (i : Fin nproc) : Forked → Prop
  | .starved b => BuiltFor own i b
  | .uncopied kstack pagetable trapframe => BuiltFor own i (.full kstack pagetable trapframe)
  | .done kstack pagetable trapframe => BuiltFor own i (.full kstack pagetable trapframe)

/-- Words of a trapframe are no matter. -/
theorem storeFrame (h : Owned kend own m free) {pa : ℕ} (hpa : own pa = some (.trapframe i))
    (k : Fin 512) (w : Word) : Owned kend own (m.store pa k w) free :=
  h.store (by simp [hpa]) (by simp [hpa]) k w

/-- The pages of a `fork`. -/
theorem forkPages {fuel : ℕ} {f : Forked} {parent : Proc} (h : Owned lay.kend own m free)
    (hf : m.forkPages lay fuel parent = some (f, m')) :
    ∃ own' free', Owned lay.kend own' m' free' ∧ Extends own own' ∧ ForkedFor own' i f := by
  obtain ⟨⟨b, m₁⟩, hb, hf⟩ := Option.bind_eq_some_iff.mp hf
  obtain ⟨own₁, free₁, h₁, hext₁, hbuilt⟩ := h.build (i := i) hb
  cases b with
  | noStack =>
    obtain ⟨rfl, rfl⟩ := by simpa using hf
    exact ⟨own₁, free₁, h₁, hext₁, hbuilt⟩
  | noFrame =>
    obtain ⟨rfl, rfl⟩ := by simpa using hf
    exact ⟨own₁, free₁, h₁, hext₁, hbuilt⟩
  | full kstack pagetable trapframe =>
    obtain ⟨⟨ok, m₂⟩, hc, hf⟩ := Option.bind_eq_some_iff.mp hf
    obtain ⟨own₂, free₂, h₂, hext₂⟩ := h₁.copyPages lay.kend_pos hbuilt.2.1 hc
    have hbuilt₂ := hbuilt.mono hext₂
    cases ok
    · obtain ⟨rfl, rfl⟩ := by simpa using hf
      exact ⟨own₂, free₂, h₂, hext₁.trans hext₂, hbuilt₂⟩
    · obtain ⟨rfl, rfl⟩ := by simpa using hf
      have hframe := hbuilt₂.2.2
      have h₃ := (h₂.fill (show own₂ trapframe ≠ some .free by simp [hframe]) (by simp [hframe])
        (m₂.page parent.trapframe)).storeFrame hframe tfA0 0
      exact ⟨own₂, free₂, h₃, hext₁.trans hext₂, hbuilt₂⟩

/-- The slot that `fork` has filled. -/
theorem slotOwned_forked {f : Forked} {p : Fin nproc} {parent q : Proc} {pid : ℤ}
    (h : Owned kend own m free) (hk : 0 < kend) (hq : SlotOwned own i q) (hf : ForkedFor own i f) :
    SlotOwned own i (f.proc p parent q pid) := by
  have hpos : ∀ pa r, own pa = some r → pa ≠ 0 := fun pa r hpa => h.pos hk hpa
  cases f with
  | starved b => exact hq.built hf
  | uncopied => exact .ofFull hf hpos rfl rfl rfl
  | done => exact .ofFull hf hpos rfl rfl rfl

/-- The pages of `user_init`, and the slot it fills. -/
theorem initPages {r : Inited} {q : Proc} (h : Owned lay.kend own m free) (pid : ℤ)
    (hq : SlotOwned own i q) (hf : m.initPages lay = some (r, m')) :
    ∃ own' free', Owned lay.kend own' m' free' ∧ Extends own own' ∧
      SlotOwned own' i (r.proc q pid) := by
  obtain ⟨⟨b, m₁⟩, hb, hf⟩ := Option.bind_eq_some_iff.mp hf
  obtain ⟨own₁, free₁, h₁, hext₁, hbuilt⟩ := h.build (i := i) hb
  have hslot : SlotOwned own₁ i (b.proc q pid) := (hq.mono hext₁).built hbuilt
  cases b with
  | noStack =>
    obtain ⟨rfl, rfl⟩ := by simpa using hf
    exact ⟨own₁, free₁, h₁, hext₁, hslot⟩
  | noFrame =>
    obtain ⟨rfl, rfl⟩ := by simpa using hf
    exact ⟨own₁, free₁, h₁, hext₁, hslot⟩
  | full kstack pagetable trapframe =>
    obtain ⟨⟨ok, m₂⟩, hc, hf⟩ := Option.bind_eq_some_iff.mp hf
    obtain ⟨own₂, free₂, h₂, hext₂⟩ := h₁.loadPages lay.kend_pos hbuilt.2.1 hc
    have hbuilt₂ := hbuilt.mono hext₂
    have hpos : ∀ pa r, own₂ pa = some r → pa ≠ 0 := fun pa r hpa => h₂.pos lay.kend_pos hpa
    cases ok
    · obtain ⟨rfl, rfl⟩ := by simpa using hf
      exact ⟨own₂, free₂, h₂, hext₁.trans hext₂, .ofFull hbuilt₂ hpos rfl rfl rfl⟩
    rcases halloc : m₂.allocPage with ⟨stack, m₃⟩
    simp only [halloc] at hf
    split at hf
    · exact nomatch ‹(true : Bool) = false›
    split at hf
    · next h0 =>
      obtain ⟨rfl, rfl⟩ := by simpa using hf
      subst h0
      obtain rfl := allocPage_null halloc
      exact ⟨own₂, free₂, h₂, hext₁.trans hext₂, .ofFull hbuilt₂ hpos rfl rfl rfl⟩
    · next hstack =>
      obtain ⟨⟨ret, m₄⟩, hm, hf⟩ := Option.bind_eq_some_iff.mp hf
      obtain ⟨-, own₃, free₃, h₃, hext₃⟩ :=
        h₂.addPage lay.kend_pos hbuilt₂.2.1 halloc hstack _ (by decide) (by decide) hm
      obtain ⟨rfl, rfl⟩ := by simpa using hf
      have hbuilt₃ := hbuilt₂.mono hext₃
      have hframe := hbuilt₃.2.2
      exact ⟨own₃, free₃, (h₃.storeFrame hframe tfEpc 0).storeFrame hframe tfSp _,
        (hext₁.trans hext₂).trans hext₃,
        .ofFull hbuilt₃ (fun pa r hpa => h₃.pos lay.kend_pos hpa) rfl rfl rfl⟩

end Owned

/-! ## The invariant -/

/-- Page tables, user pages and trapframes stay what they are. -/
def Keeps (own own' : ℕ → Option Role) : Prop :=
  ∀ pa r, own pa = some r → ¬ Owned.Plain (some r) → own' pa = some r

theorem Extends.keeps (h : Extends own own') : Keeps own own' :=
  fun _ _ hpa hr => h.of_role hpa (by rintro rfl; simp [Owned.Plain] at hr)

theorem Keeps.trans {own'' : ℕ → Option Role} (h : Keeps own own') (h' : Keeps own' own'') :
    Keeps own own'' :=
  fun pa r hpa hr => h' pa r (h pa r hpa hr) hr

/-- Memory is laid out as `own` says, and the pointers of every slot agree with it. -/
structure Isolated (lay : Layout) (own : ℕ → Option Role) (s : Procs) : Prop where
  running : s.Running
  owned : ∃ free, Owned lay.kend own s.phys free
  slots : ∀ i, SlotOwned own i (s.proc i)

namespace Isolated

variable {s s' : Procs} {p : Fin nproc} {e : Procs.Event} {w : Option (Fin nproc × Waited)}

theorem boot (h : Procs.boot lay = some s) : ∃ own, Isolated lay own s := by
  obtain ⟨hcur, -, -, hfree⟩ := boot_spec h
  rw [boot_eq] at h
  obtain ⟨⟨r, m⟩, hr, rfl⟩ := Option.map_eq_some_iff.mp h
  obtain ⟨own₀, free₀, h₀⟩ := Owned.pmmInit lay.kend_pos lay.kend_le
  obtain ⟨own₁, free₁, h₁⟩ : ∃ own free, Owned lay.kend own (blank lay).phys free := h₀.takePages
  obtain ⟨own₂, free₂, h₂, -, hslot⟩ :=
    h₁.initPages (i := 0) 1 .empty hr
  refine ⟨own₂, fun p hp => (nomatch hcur.symm.trans hp), ⟨free₂, h₂⟩, fun i => ?_⟩
  by_cases hi : i = 0
  · subst hi
    rw [enter_self]
    exact hslot
  · rw [hfree i hi]
    exact .empty

/-- Only memory outside the page tables and the free list has changed, or pages were allocated. -/
theorem kept (h : Isolated lay own s) (hkept : s.Kept s') (hrun : s'.Running)
    (hphys : ∀ free, Owned lay.kend own s.phys free →
      ∃ own' free', Owned lay.kend own' s'.phys free' ∧ Extends own own') :
    ∃ own', Isolated lay own' s' ∧ Keeps own own' := by
  obtain ⟨free, hown⟩ := h.owned
  obtain ⟨own', free', hown', hext⟩ := hphys free hown
  exact ⟨own', ⟨hrun, ⟨free', hown'⟩, fun i => ((h.slots i).mono hext).kept (hkept i)⟩, hext.keeps⟩

theorem kept_phys (h : Isolated lay own s) (hkept : s.Kept s') (hrun : s'.Running)
    (hphys : s'.phys = s.phys) : Isolated lay own s' :=
  ⟨hrun, hphys ▸ h.owned, fun i => (h.slots i).kept (hkept i)⟩

/-- A zombie's kernel stack goes back to the free list. -/
theorem reap (h : Isolated lay own s) (hi : (s.proc i).state = .zombie) :
    ∃ own', Isolated lay own' (s.reap i) ∧ Keeps own own' := by
  obtain ⟨free, hown⟩ := h.owned
  have hstack := (h.slots i).kstack ((h.slots i).live (by simp [ProcState.Live, hi])).1
  have hfreed := hown.freePage (by simp [hstack, Owned.Plain]) (by simp [hstack])
    (hown.range _ _ hstack) lay.kend_pos
  -- only slot `i` points to the page, and only with `kstack`
  have hkeep : ∀ pa r, own pa = some r → r ≠ .kstack i →
      Function.update own (s.proc i).kstack (some .free) pa = some r := by
    intro pa r hpa hr
    rw [Function.update_of_ne, hpa]
    rintro rfl
    exact hr (Option.some.inj (hpa.symm.trans hstack))
  refine ⟨_, ⟨?_, ⟨_, hfreed⟩, fun j => ?_⟩, fun pa r hpa hr => hkeep pa r hpa ?_⟩
  · intro p hp
    have hp' := h.running p hp
    have hpi : p ≠ i := by
      rintro rfl
      simp [hi] at hp'
    rwa [reap_of_ne hpi]
  · by_cases hj : j = i
    · subst hj
      rw [reap_self]
      refine ⟨fun h0 => absurd rfl h0, fun h0 => ?_, fun h0 => ?_, fun hl => absurd rfl hl.1⟩
      · exact hkeep _ _ ((h.slots j).pagetable h0) (by simp)
      · exact hkeep _ _ ((h.slots j).trapframe h0) (by simp)
    · rw [reap_of_ne hj]
      refine ⟨fun h0 => ?_, fun h0 => ?_, fun h0 => ?_, (h.slots j).live⟩
      · exact hkeep _ _ ((h.slots j).kstack h0) (by simpa using hj)
      · exact hkeep _ _ ((h.slots j).pagetable h0) (by simp)
      · exact hkeep _ _ ((h.slots j).trapframe h0) (by simp)
  · rintro rfl
    simp [Owned.Plain] at hr

theorem waitProcess (h : Isolated lay own s) (hp : (s.proc p).state = .running) :
    ∃ own', Isolated lay own' (s.waitProcess p).2 ∧ Keeps own own' := by
  obtain ⟨i, hi, hw⟩ | ⟨-, -, hw⟩ | ⟨-, hw⟩ := waitProcess_cases s p
  · rw [hw]
    exact h.reap (zombieChild_spec hi).2
  · rw [hw]
    exact ⟨own, h.kept_phys (kept_sleep p (by simp [ProcState.Live, hp])) (fun _ hq => nomatch hq) rfl,
      (Extends.refl own).keeps⟩
  · rw [hw]
    exact ⟨own, h, (Extends.refl own).keeps⟩

/-- The running process has a page table and a trapframe. -/
theorem live (h : Isolated lay own s) (hp : s.cur = some p) : (s.proc p).state.Live := by
  simp [ProcState.Live, h.running p hp]

/-- What an event other than a turn of `wait_process` does to memory. -/
theorem step_phys (h : Isolated lay own s) (hscan : s.scan e = none)
    (hstep : s.step lay e = some (w, s')) (hown : Owned lay.kend own s.phys free) :
    ∃ own' free', Owned lay.kend own' s'.phys free' ∧ Extends own own' := by
  have hslot := h.slots
  cases e with
  | call c =>
    obtain ⟨p, hp⟩ : ∃ p, s.cur = some p := by
      cases hcur : s.cur with
      | none => simp [step, hcur] at hstep
      | some p => exact ⟨p, rfl⟩
    obtain ⟨-, hpt, -⟩ := (hslot p).live (h.live hp)
    cases c with
    | waitProcess => simp [Procs.scan, hp] at hscan
    | exitProcess status =>
      obtain ⟨-, rfl⟩ := by simpa [step, hp, call] using hstep
      exact ⟨own, free, by rwa [exitProcess_phys], .refl own⟩
    | kill pid =>
      obtain ⟨-, rfl⟩ := by simpa [step, hp, call] using hstep
      exact ⟨own, free, by rwa [kill_phys], .refl own⟩
    | yield =>
      obtain ⟨-, rfl⟩ := by simpa [step, hp, call] using hstep
      exact ⟨own, free, hown, .refl own⟩
    | sbrk n fuel =>
      cases hr : s.sbrk fuel p n with
      | none => simp [step, hp, call, hr] at hstep
      | some r =>
        obtain ⟨-, rfl⟩ := by simpa [step, hp, call, hr] using hstep
        obtain ⟨ok, m, hgrow, hs'⟩ := sbrk_cases hr
        have hphys : r.2.phys = m := by
          obtain ⟨-, -, hs'⟩ | ⟨-, -, hs'⟩ := hs' <;> rw [hs'] <;> rfl
        rw [hphys]
        split at hgrow
        · exact hown.growPages lay.kend_pos ((hslot p).pagetable hpt) hgrow
        · obtain ⟨-, rfl⟩ := by simpa using hgrow
          exact ⟨own, free, hown, .refl own⟩
    | fork fuel =>
      obtain ⟨-, rfl | ⟨c, f, m, hc, hm, rfl⟩⟩ := step_fork h.running hp hstep
      · exact ⟨own, free, hown, .refl own⟩
      · obtain ⟨own', free', hown', hext, -⟩ := hown.forkPages (i := c) hm
        exact ⟨own', free', hown', hext⟩
  | schedule p =>
    by_cases hsched : s.cur = none ∧ (s.proc p).state = .runnable
    · have hra : (s.proc p).context.ra ≠ .wait := by simpa [Procs.scan, hsched] using hscan
      obtain ⟨-, rfl⟩ := by simpa [step, hsched, resume_elsewhere hra] using hstep
      exact ⟨own, free, hown, .refl own⟩
    · simp [step, hsched] at hstep
  | trap c =>
    obtain ⟨p, hp, -, rfl⟩ := by simpa [step, Option.bind_eq_some_iff] using hstep
    have hframe := (hslot p).trapframe ((hslot p).live (h.live hp)).2.2
    exact ⟨own, free, hown.fill (by simp [hframe]) (by simp [hframe]) c, .refl own⟩
  | write i j k c =>
    obtain ⟨p, hp, pa, hpa, -, rfl⟩ := by simpa [step, Option.bind_eq_some_iff] using hstep
    have hroot := (hslot p).pagetable ((hslot p).live (h.live hp)).2.1
    have hpage := hown.userPage hroot hpa
    exact ⟨own, free, hown.fill (by simp [hpage]) (by simp [hpage]) c, .refl own⟩

theorem step (h : Isolated lay own s) (hstep : s.step lay e = some (w, s')) :
    ∃ own', Isolated lay own' s' ∧ Keeps own own' := by
  cases hscan : s.scan e with
  | some p =>
    obtain ⟨s₁, hstart, -, rfl⟩ := step_scan hscan hstep
    obtain ⟨hkept, hrun₁, hp⟩ := kept_start h.running hstart
    have hphys : s₁.phys = s.phys := by
      obtain ⟨rfl, -⟩ | ⟨rfl, -⟩ := hstart <;> rfl
    exact (h.kept_phys hkept hrun₁ hphys).waitProcess hp
  | none =>
    obtain ⟨-, ⟨hkept, hrun⟩ | ⟨fuel, p, c, f, m, -, -, hc, hm, rfl⟩⟩ :=
      step_other hscan h.running hstep
    · exact h.kept hkept hrun fun _ hown => h.step_phys hscan hstep hown
    · obtain ⟨free, hown⟩ := h.owned
      obtain ⟨own', free', hown', hext, hforked⟩ := hown.forkPages (i := c) hm
      refine ⟨own', ⟨h.running.enter (firstUnused_unused hc), ⟨free', hown'⟩, fun j => ?_⟩, hext.keeps⟩
      by_cases hj : j = c
      · subst hj
        rw [enter_self]
        exact hown'.slotOwned_forked lay.kend_pos ((h.slots j).mono hext) hforked
      · rw [enter_of_ne _ _ hj]
        exact (h.slots j).mono hext

end Isolated

/-! ## Exclusive ownership -/

/-- The machine under any sequence of events. -/
def machine (lay : Layout) : System Procs Procs.Event where
  init s := boot lay = some s
  step s e s' := ∃ w, s.step lay e = some (w, s')

theorem isolated_of_reachable {s : Procs} (h : (machine lay).Reachable s) :
    ∃ own, Isolated lay own s := by
  induction h with
  | init h => exact Isolated.boot h
  | step _ hstep ih =>
    obtain ⟨own, hs⟩ := ih
    obtain ⟨w, hstep⟩ := hstep
    obtain ⟨own', hs', -⟩ := hs.step hstep
    exact ⟨own', hs'⟩

/-- What the pointers of the process table and the page table entries make of a page. -/
inductive Plays (s : Procs) : Role → ℕ → Prop
  | kstack {i : Fin nproc} (h : (s.proc i).kstack ≠ 0) : Plays s (.kstack i) (s.proc i).kstack
  | trapframe {i : Fin nproc} (h : (s.proc i).trapframe ≠ 0) :
      Plays s (.trapframe i) (s.proc i).trapframe
  | root {i : Fin nproc} (h : (s.proc i).pagetable ≠ 0) :
      Plays s (.table i []) (s.proc i).pagetable
  | table {i : Fin nproc} {path : List (Fin 512)} {pa : ℕ} {k : Fin 512}
      (h : Plays s (.table i path) pa) (hlen : path.length < 2)
      (hv : s.phys.page pa k &&& pteV ≠ 0) :
      Plays s (.table i (k :: path)) (ptePa (s.phys.page pa k))
  | user {i : Fin nproc} {path : List (Fin 512)} {pa : ℕ} {k : Fin 512}
      (h : Plays s (.table i path) pa) (hlen : path.length = 2)
      (hv : s.phys.page pa k &&& pteV ≠ 0) (hu : s.phys.page pa k &&& pteU ≠ 0) :
      Plays s (.user i (k :: path)) (ptePa (s.phys.page pa k))

/-- The ghost map says what a page really is used for. -/
theorem Plays.owned {s : Procs} {r : Role} {pa : ℕ} (h : Plays s r pa)
    (hown : Owned kend own s.phys free) (hslot : ∀ i, SlotOwned own i (s.proc i)) :
    own pa = some r ∧ r ≠ .free := by
  induction h with
  | kstack h => exact ⟨(hslot _).kstack h, by simp⟩
  | trapframe h => exact ⟨(hslot _).trapframe h, by simp⟩
  | root h => exact ⟨(hslot _).pagetable h, by simp⟩
  | table _ hlen hv ih => exact ⟨hown.table _ _ _ _ ih.1 hlen hv, by simp⟩
  | user _ hlen hv hu ih => exact ⟨hown.user _ _ _ _ ih.1 hlen hv hu, by simp⟩

/-- In every state of every run the free list ends, has no page twice and holds only pages that
`pmm_init` has freed; no page on it is a kernel stack, a trapframe, a page table or a user page of
any slot; no page plays two of these roles or is in two places; and every process has its stack,
its page table and its trapframe. -/
theorem exclusive_ownership (lay : Layout) (s : Procs) (h : (machine lay).Reachable s) :
    ∃ free, Chain (fun pa => (s.phys.page pa 0).toNat) 0 s.phys.freelist free ∧ free.Nodup ∧
      (∀ pa ∈ free, pgsize ∣ pa ∧ lay.kend ≤ pa ∧ pa + pgsize ≤ phystop) ∧
      (∀ r pa, Plays s r pa → pa ∉ free) ∧
      (∀ r r' pa, Plays s r pa → Plays s r' pa → r = r') ∧
      ∀ i, (s.proc i).state.Live →
        (s.proc i).kstack ≠ 0 ∧ (s.proc i).pagetable ≠ 0 ∧ (s.proc i).trapframe ≠ 0 := by
  obtain ⟨own, -, ⟨free, hown⟩, hslot⟩ := isolated_of_reachable h
  refine ⟨free, hown.chain, hown.chain.nodup, ?_, ?_, ?_, fun i => (hslot i).live⟩
  · intro pa hpa
    obtain ⟨haligned, hlower, hupper⟩ := hown.range pa _ (hown.free pa hpa)
    exact ⟨haligned, hlower, hupper⟩
  · intro r pa hr hpa
    obtain ⟨hown', hfree⟩ := hr.owned hown hslot
    exact hfree (Option.some.inj (hown'.symm.trans (hown.free pa hpa)))
  · intro r r' pa hr hr'
    exact Option.some.inj ((hr.owned hown hslot).1.symm.trans (hr'.owned hown hslot).1)

/-- After `init` has forked, the kernel stack of its child is not on the free list. -/
theorem exclusive_ownership_fork :
    ∃ s free, (machine smallLayout).Reachable s ∧ (s.proc 1).state = .runnable ∧
      Chain (fun pa => (s.phys.page pa 0).toNat) 0 s.phys.freelist free ∧
      (s.proc 1).kstack ∉ free := by
  have hrun : ((Procs.boot smallLayout).bind fun s => System.runAll
      (fun s e => (s.step smallLayout e).map Prod.snd) s [.schedule 0, .call (.fork 3)]).any
      (fun s => (s.proc 1).state = .runnable) := by
    decide +kernel
  obtain ⟨s, hs, hlive⟩ := (Option.any_eq_true ..).mp hrun
  obtain ⟨s₀, hboot, hall⟩ := Option.bind_eq_some_iff.mp hs
  have hreach : (machine smallLayout).Reachable s := by
    refine System.Reachable.runAll (fun s e s' hnext => ?_) (.init hboot) hall
    obtain ⟨⟨w, u⟩, hstep, rfl⟩ := Option.map_eq_some_iff.mp hnext
    exact ⟨w, hstep⟩
  have hrunnable := of_decide_eq_true hlive
  obtain ⟨free, hchain, -, -, hroles, -, hpages⟩ := exclusive_ownership smallLayout s hreach
  have hstack := (hpages 1 (by simp [ProcState.Live, hrunnable])).1
  exact ⟨s, free, hreach, hrunnable, hchain, hroles _ _ (.kstack hstack)⟩

end RiscvOs
