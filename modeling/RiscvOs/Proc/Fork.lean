import RiscvOs.Proc.Copy
import RiscvOs.Proc.Leak

/-!
# `fork`

`alloc_process` takes five pages (`Owned.build_exact`): the kernel stack, the trapframe, and
three tables.  With the pages of the loop this is `forkNeeds`, and `fork` gets to its end
exactly if there are as many free pages (`Owned.forkPages_exact`).  It then has made a copy:
the child has what the parent has, in pages of its own.
-/

namespace RiscvOs

open LinkedList Procs

variable {lay : Layout} {kend : ℕ} {own own' : ℕ → Option Role} {m m' m'' : Phys} {free : List ℕ}
  {p c i : Fin nproc} {parent child root pa : ℕ} {path : List (Fin 512)} {sz va w : Word}

/-! ## The pages of `alloc_process` -/

namespace Owned

/-- The first free page is allocated for a role that needs no entry. -/
theorem allocFor_cons {r : Role} (h : Owned kend own m (pa :: free)) (hk : 0 < kend)
    (hr : ∀ i path, r ≠ .table i path) : ∃ m' own', m.allocPage = (pa, m') ∧ pa ≠ 0 ∧
      own pa = some .free ∧ m'.page = m.page ∧ Owned kend own' m' free ∧ Extends own own' ∧
      own' pa = some r := by
  obtain ⟨m', halloc, hpa, hfree, hpage, h'⟩ := h.allocPage_cons hk
  obtain ⟨own', free', h₁, hext, hrole⟩ := h.allocFor halloc hpa hr
  rw [h₁.chain.unique h'.chain] at h₁
  exact ⟨m', own', halloc, hpa, hfree, hpage, h₁, hext, hrole⟩

/-- The first free page becomes an empty page table. -/
theorem createPagetable_cons (h : Owned kend own m (pa :: free)) (hk : 0 < kend) :
    ∃ m' own', m.createPagetable = some (pa, m') ∧ own pa = some .free ∧
      (∀ k, m'.page pa k = 0) ∧ (∀ q, q ≠ pa → m'.page q = m.page q) ∧ Owned kend own' m' free ∧
      Extends own own' ∧ own' pa = some (.table i []) := by
  obtain ⟨m₁, halloc, hpa, hfree, hpage, h₁⟩ := h.allocPage_cons hk
  have hcreate : m.createPagetable = some (pa, m₁.fill pa fun _ => 0) := by
    rw [Phys.createPagetable, halloc]
    exact if_neg hpa
  obtain ⟨own', free', h', hext, hrole⟩ := h.createPagetable (i := i) hcreate
  have hchain : Chain (fun q => ((m₁.fill pa fun _ => 0).page q 0).toNat) 0 m₁.freelist free := by
    refine h₁.chain.congr fun q hq => ?_
    have hne : q ≠ pa := by
      rintro rfl
      exact (List.nodup_cons.mp h.chain.nodup).1 hq
    simp [Phys.fill, hne]
  rw [h'.chain.unique hchain] at h'
  refine ⟨_, own', hcreate, hfree, fun k => ?_, fun q hq => ?_, h', hext, hrole⟩
  · simp [Phys.fill]
  · simp [Phys.fill, hq, hpage]

theorem tableAt_empty (hzero : ∀ k, m.page root k = 0) (hne : path ≠ []) :
    m.tableAt root path = none := by
  induction path with
  | nil => exact absurd rfl hne
  | cons k path ih =>
    cases path with
    | nil => rw [Phys.tableAt_cons rfl, hzero, if_pos (by decide)]
    | cons j path => rw [Phys.tableAt, ih (by simp), Option.bind_none]

theorem entryAt_empty (hzero : ∀ k, m.page root k = 0) : m.entryAt root path = none := by
  cases path with
  | nil => rfl
  | cons k path =>
    cases path with
    | nil => rw [Phys.entryAt_cons rfl, hzero, if_pos (by decide)]
    | cons j path => rw [Phys.entryAt, tableAt_empty hzero (by simp), Option.bind_none]

/-- What `alloc_process` has made for the slot `i`. -/
structure NewSpace (own own' : ℕ → Option Role) (i : Fin nproc) (kstack pagetable trapframe : ℕ)
    (m m' : Phys) : Prop where
  ext : Extends own own'
  built : BuiltFor own' i (.full kstack pagetable trapframe)
  free : own trapframe = some .free
  table : ∀ path, path.length ≤ 2 →
    ((m'.tableAt pagetable path).isSome ↔ path = [] ∨ path ∈ tablesTo trampolineVa)
  entry : ∀ path, path.length = 3 → path ≠ vpns trampolineVa → path ≠ vpns trapframeVa →
    m'.entryAt pagetable path = none
  spares : Spares own i m m'

theorem tablesTo_trapframe : tablesTo trapframeVa = tablesTo trampolineVa := by decide

theorem card_tablesTo_trampoline : (tablesTo trampolineVa).card = 2 := by decide

/-- `alloc_process` gets its pages if there are five of them. -/
theorem build_exact (h : Owned lay.kend own m free) (i : Fin nproc) :
    (∃ kstack pagetable trapframe m' own' pages,
      m.build lay = some (.full kstack pagetable trapframe, m') ∧ Owned lay.kend own' m' pages ∧
      NewSpace own own' i kstack pagetable trapframe m m' ∧ free.length = pages.length + 5) ∨
    free.length < 5 ∧ ∀ kstack pagetable trapframe m',
      m.build lay ≠ some (.full kstack pagetable trapframe, m') := by
  have hk := lay.kend_pos
  rcases free with _ | ⟨kstack, _ | ⟨pagetable, _ | ⟨trapframe, free⟩⟩⟩
  · refine .inr ⟨by simp, fun _ _ _ _ hb => ?_⟩
    rw [Phys.build, h.allocPage_empty] at hb
    simp at hb
  · obtain ⟨m₁, own₁, halloc, hpa, -, hpage, h₁, -, -⟩ :=
      h.allocFor_cons (r := .kstack i) hk (by simp)
    refine .inr ⟨by simp, fun _ _ _ _ hb => ?_⟩
    have hnone : m₁.createPagetable = none := by
      rw [Phys.createPagetable, h₁.allocPage_empty]
      rfl
    rw [Phys.build, halloc] at hb
    simp [hpa, hnone] at hb
  · obtain ⟨m₁, own₁, halloc, hpa, -, hpage, h₁, -, -⟩ :=
      h.allocFor_cons (r := .kstack i) hk (by simp)
    obtain ⟨m₂, own₂, hcreate, -, -, -, h₂, -, -⟩ := h₁.createPagetable_cons (i := i) hk
    refine .inr ⟨by simp, fun _ _ _ _ hb => ?_⟩
    rw [Phys.build, halloc] at hb
    simp [hpa, hcreate, h₂.allocPage_empty] at hb
  · obtain ⟨m₁, own₁, halloc₁, hpa₁, hfree₁, hpage₁, h₁, hext₁, hrole₁⟩ :=
      h.allocFor_cons (r := .kstack i) hk (by simp)
    obtain ⟨m₂, own₂, hcreate, hfree₂, hzero₂, hpage₂, h₂, hext₂, hrole₂⟩ :=
      h₁.createPagetable_cons (i := i) hk
    obtain ⟨m₃, own₃, halloc₃, hpa₃, hfree₃, hpage₃, h₃, hext₃, hrole₃⟩ :=
      h₂.allocFor_cons (r := .trapframe i) hk (by simp)
    have hroot₃ := hext₃.of_role hrole₂ (by simp)
    have hzero₃ : ∀ k, m₃.page pagetable k = 0 := fun k => by rw [hpage₃, hzero₂]
    have hbuild : m.build lay =
        (m₃.mapPage pagetable trampolineVa lay.trampoline (pteR ||| pteX)).bind fun r =>
          (r.2.mapPage pagetable trapframeVa trapframe (pteR ||| pteW)).bind fun r =>
            some (.full kstack pagetable trapframe, r.2) := by
      rw [Phys.build, halloc₁]
      simp only [hpa₁, if_false, hcreate, Option.bind_eq_bind, Option.bind_some, halloc₃, hpa₃]
      rfl
    have hmissing : missing m₃ pagetable trampolineVa = 2 := by
      rw [missing, Finset.filter_true_of_mem, card_tablesTo_trampoline]
      intro q hq
      refine tableAt_empty hzero₃ ?_
      rintro rfl
      exact absurd hq (by decide)
    rcases h₃.mapPage_at trampolineVa lay.trampoline (pteR ||| pteX)
        hk hroot₃ with ⟨m₄, pages₄, hmap₄, hat₄, hchain₄, hcount₄⟩ | ⟨hmap₄, hshort⟩
    · obtain ⟨own₄, free₄, h₄, hext₄⟩ := h₃.mapPage_kernel hk hroot₃
        (.inl ⟨lay.trampoline_lt, lay.kend_le⟩) (by decide) (by decide) hmap₄
      have hroot₄ := hext₄.of_role hroot₃ (by simp)
      have hframe₄ := hext₄.of_role hrole₃ (by simp)
      have hmissing₄ : missing m₄ pagetable trapframeVa = 0 := by
        rw [missing, Finset.card_eq_zero, Finset.filter_eq_empty_iff]
        intro q hq hnone
        rw [tablesTo_trapframe] at hq
        have hsome := (hat₄.new q (length_tablesTo hq)).mpr (.inr hq)
        rw [hnone] at hsome
        cases hsome
      rcases h₄.mapPage_at trapframeVa trapframe (pteR ||| pteW)
          hk hroot₄ with ⟨m₅, pages₅, hmap₅, hat₅, hchain₅, hcount₅⟩ | ⟨-, hshort⟩
      · have hb : m.build lay = some (.full kstack pagetable trapframe, m₅) := by
          rw [hbuild, hmap₄]
          change ((m₄.mapPage pagetable trapframeVa trapframe (pteR ||| pteW)).bind _) = _
          rw [hmap₅]
          rfl
        obtain ⟨own₅, free₅, h₅, hext₅, hbuilt₅⟩ := h.build (i := i) hb
        have hspares₃ : Spares own i m m₃ := by
          intro q hq htab
          have hne : q ≠ pagetable := by
            rintro rfl
            have hq' := hext₁ q hq
            rw [hfree₂] at hq'
            exact hq hq'.symm
          rw [hpage₃, hpage₂ q hne, hpage₁]
        have hext₃' := (hext₁.trans hext₂).trans hext₃
        refine .inl ⟨kstack, pagetable, trapframe, m₅, own₅, free₅, hb, h₅, ⟨hext₅, hbuilt₅, ?_,
          fun path hlen => ?_, fun path hlen hne hne' => ?_, ?_⟩, ?_⟩
        · by_contra hne
          rw [(hext₁.trans hext₂) trapframe hne] at hfree₃
          exact hne hfree₃
        · rw [hat₅.new path hlen, hat₄.new path hlen, tablesTo_trapframe, or_assoc, or_self]
          refine or_congr_left ⟨fun hsome => ?_, ?_⟩
          · by_contra hne
            rw [tableAt_empty hzero₃ hne] at hsome
            cases hsome
          · rintro rfl
            rfl
        · rw [hat₅.other path hlen hne', hat₄.other path hlen hne, entryAt_empty hzero₃]
        · exact (hspares₃.trans hext₃' hat₄.spares).trans (hext₃'.trans hext₄) hat₅.spares
        · rw [h₅.chain.unique hchain₅]
          rw [h₄.chain.unique hchain₄] at hcount₅
          simp only [List.length_cons]
          omega
      · rw [hmissing₄] at hshort
        exact absurd hshort (Nat.not_lt_zero _)
    · rw [hmissing] at hshort
      refine .inr ⟨by simp only [List.length_cons]; omega, fun _ _ _ _ hb => ?_⟩
      rw [hbuild, hmap₄] at hb
      cases hb

end Owned

/-! ## The pages of `fork` -/

/-- The pages that `fork` takes: a stack, a page table and a trapframe, the copies, and the
tables on the way to the trampoline, the trapframe and the copies. -/
def forkNeeds (m : Phys) (parent : ℕ) (sz : Word) : ℕ :=
  3 + (copied m parent sz).length + (tablesOf (trampolineVa :: copied m parent sz)).card

/-- `fork` has given slot `c` its pages, and the copies of the pages of `q`. -/
structure ForkedSpace (own : ℕ → Option Role) (c : Fin nproc) (q : Proc)
    (kstack pagetable trapframe : ℕ) (m m' : Phys) : Prop where
  entry : ∀ va ∈ copied m q.pagetable q.sz, ∃ w mem, m.entryAt q.pagetable (vpns va) = some w ∧
    m'.entryAt pagetable (vpns va) = some (paPte mem ||| permAll ||| pteV) ∧
    ptePa (paPte mem ||| permAll ||| pteV) = mem ∧ m'.page mem = m.page (ptePa w)
  other : ∀ path, path.length = 3 → path ≠ vpns trampolineVa → path ≠ vpns trapframeVa →
    (∀ va ∈ copied m q.pagetable q.sz, vpns va ≠ path) → m'.entryAt pagetable path = none
  frame : ∀ k, m'.page trapframe k = if k = tfA0 then 0 else m.page q.trapframe k
  spares : Spares own c m m'

namespace Owned

/-- The pages that are needed once `alloc_process` is done. -/
theorem needs_built {own₁ : ℕ → Option Role} {m₁ : Phys} {kstack pagetable trapframe : ℕ}
    (h : NewSpace own own₁ c kstack pagetable trapframe m m₁) (vas : List Word) :
    5 + needs m₁ pagetable vas = 3 + vas.length + (tablesOf (trampolineVa :: vas)).card := by
  have hfilter : (tablesOf vas).filter (fun q => m₁.tableAt pagetable q = none) =
      tablesOf vas \ tablesTo trampolineVa := by
    ext q
    rw [Finset.mem_filter, Finset.mem_sdiff]
    refine and_congr_right fun hq => ?_
    have hne : q ≠ [] := by
      rintro rfl
      obtain ⟨va, -, hnil⟩ := Finset.mem_biUnion.mp hq
      rcases Finset.mem_insert.mp hnil with heq | heq
      · exact nomatch heq
      · exact nomatch Finset.mem_singleton.mp heq
    have hiff := h.table q (length_tablesOf hq)
    rw [or_iff_right hne] at hiff
    rw [← hiff, Option.not_isSome_iff_eq_none]
  have hcard := Finset.card_union_of_disjoint
    (Finset.disjoint_sdiff (s := tablesTo trampolineVa) (t := tablesOf vas))
  rw [Finset.union_sdiff_self_eq_union, card_tablesTo_trampoline] at hcard
  rw [needs, hfilter, tablesOf_cons, hcard]
  omega

/-- A loop that goes past the last address does not end well. -/
theorem copyPages_endless {fuel : ℕ} (hsz : 2 ^ 64 - 4096 < sz.toNat) (hva : 4096 ∣ va.toNat)
    (m' : Phys) : Procs.copyPages parent child sz fuel va m ≠ some (true, m') := by
  induction fuel generalizing va m with
  | zero => exact nofun
  | succ fuel ih =>
    have hlt : va < sz := by
      rw [BitVec.lt_def]
      have hbound := va.isLt
      omega
    have hnext : 4096 ∣ (va + 4096).toNat := by
      have h4096 : (4096 : Word).toNat = 4096 := rfl
      rw [BitVec.toNat_add, h4096]
      omega
    intro hc
    unfold Procs.copyPages at hc
    rw [if_pos hlt] at hc
    split at hc
    · exact ih hnext hc
    · split at hc
      · rcases halloc : m.allocPage with ⟨mem, m₁⟩
        simp only [halloc] at hc
        split at hc
        · simp at hc
        · obtain ⟨⟨r, m₂⟩, -, hc⟩ := Option.bind_eq_some_iff.mp hc
          dsimp only at hc
          split at hc
          · simp at hc
          · exact ih hnext hc
      · exact ih hnext hc

/-- A `fork` that gets to its end had a slot built in full, and its loop got to its end. -/
theorem build_of_done {q : Proc} {fuel kstack pagetable trapframe : ℕ}
    (hf : m.forkPages lay fuel q = some (.done kstack pagetable trapframe, m')) :
    ∃ m₁ m₂, m.build lay = some (.full kstack pagetable trapframe, m₁) ∧
      Procs.copyPages q.pagetable pagetable q.sz fuel 0 m₁ = some (true, m₂) := by
  obtain ⟨⟨b, m₁⟩, hb, hf⟩ := Option.bind_eq_some_iff.mp hf
  cases b with
  | noStack => simp at hf
  | noFrame => simp at hf
  | full k r t =>
    obtain ⟨⟨ok, m₂⟩, hcopy, hf⟩ := Option.bind_eq_some_iff.mp hf
    cases ok with
    | false => simp at hf
    | true =>
      obtain ⟨⟨rfl, rfl, rfl⟩, -⟩ := by simpa using hf
      exact ⟨m₁, m₂, hb, hcopy⟩

theorem forkPages_mono {q : Proc} {fuel fuel' : ℕ} {r : Forked × Phys} (hle : fuel ≤ fuel')
    (h : m.forkPages lay fuel q = some r) : m.forkPages lay fuel' q = some r := by
  obtain ⟨⟨b, m₁⟩, hb, hf⟩ := Option.bind_eq_some_iff.mp h
  refine Option.bind_eq_some_iff.mpr ⟨(b, m₁), hb, ?_⟩
  cases b with
  | noStack => exact hf
  | noFrame => exact hf
  | full kstack pagetable trapframe =>
    obtain ⟨copies, hcopy, hf⟩ := Option.bind_eq_some_iff.mp hf
    exact Option.bind_eq_some_iff.mpr ⟨copies, copyPages_mono hle hcopy, hf⟩

/-- `fork` gets to its end if there are enough pages, and only then. -/
theorem forkPages_exact {q : Proc} (h : Owned lay.kend own m free)
    (hparent : own q.pagetable = some (.table p [])) (hframe : own q.trapframe = some (.trapframe p))
    (hpc : p ≠ c) (hsz : q.sz.toNat ≤ 2 ^ 64 - 4096) {fuel : ℕ}
    (hfuel : pagesOf q.sz.toNat < fuel) :
    (∃ kstack pagetable trapframe m' own' pages,
      m.forkPages lay fuel q = some (.done kstack pagetable trapframe, m') ∧
      Owned lay.kend own' m' pages ∧ Extends own own' ∧
      BuiltFor own' c (.full kstack pagetable trapframe) ∧
      ForkedSpace own c q kstack pagetable trapframe m m' ∧
      free.length = pages.length + forkNeeds m q.pagetable q.sz) ∨
    free.length < forkNeeds m q.pagetable q.sz ∧ ∀ kstack pagetable trapframe m',
      m.forkPages lay fuel q ≠ some (.done kstack pagetable trapframe, m') := by
  rcases h.build_exact c with
    ⟨kstack, pagetable, trapframe, m₁, own₁, pages₁, hbuild, h₁, hnew, hcount₁⟩ | ⟨hshort, hfail⟩
  · have hvas : copied m₁ q.pagetable q.sz = copied m q.pagetable q.sz :=
      copiedFrom_congr fun va => h.entryAt_spares hparent hpc hnew.spares (by simp [vpns])
    have hneeds := needs_built hnew (copied m q.pagetable q.sz)
    have hvas' : copiedFrom m₁ q.pagetable 0 (pagesOf q.sz.toNat) = copied m q.pagetable q.sz :=
      hvas
    have hstart : pageVa 0 = (0 : Word) := rfl
    have hforked : m.forkPages lay fuel q = (Procs.copyPages q.pagetable pagetable q.sz fuel 0 m₁).bind
        fun r => if r.1 = false then some (.uncopied kstack pagetable trapframe, r.2)
          else some (.done kstack pagetable trapframe,
            (r.2.fill trapframe (r.2.page q.trapframe)).store trapframe tfA0 0) := by
      rw [Phys.forkPages, hbuild]
      rfl
    rcases h₁.copyPages_exact (v := 0) lay.kend_pos (hnew.ext.of_role hparent (by simp))
        hnew.built.2.1 hpc (Nat.zero_add _) hsz hfuel with
      ⟨m₂, own₂, pages₂, hcopy, h₂, hext₂, hcopied, hcount₂⟩ | ⟨hshort, hfail⟩
    · rw [hstart] at hcopy
      have hbuilt₂ := hnew.built.mono hext₂
      have hframe₂ := hbuilt₂.2.2
      have hext := hnew.ext.trans hext₂
      have hdone : m.forkPages lay fuel q = some (.done kstack pagetable trapframe,
          (m₂.fill trapframe (m₂.page q.trapframe)).store trapframe tfA0 0) := by
        rw [hforked, hcopy]
        rfl
      have h₃ := (h₂.fill (show own₂ trapframe ≠ some .free by simp [hframe₂]) (by simp [hframe₂])
        (m₂.page q.trapframe)).storeFrame hframe₂ tfA0 0
      have hkeep : ∀ r, r ≠ trapframe →
          ((m₂.fill trapframe (m₂.page q.trapframe)).store trapframe tfA0 0).page r = m₂.page r :=
        fun r hr => by simp [Phys.store, Phys.fill, hr]
      have hspares : Spares own c m m₂ := hnew.spares.trans hnew.ext hcopied.spares
      rw [hvas'] at hcopied hcount₂
      have hchild : ∀ path, path.length ≤ 3 →
          ((m₂.fill trapframe (m₂.page q.trapframe)).store trapframe tfA0 0).entryAt pagetable path =
            m₂.entryAt pagetable path := fun path hlen =>
        h₂.entryAt_congr hbuilt₂.2.1 (fun r path' hr => hkeep r (by
          rintro rfl
          rw [hframe₂] at hr
          cases hr)) hlen
      refine .inl ⟨kstack, pagetable, trapframe, _, own₂, pages₂, hdone, h₃, hext, hbuilt₂,
        ⟨fun va hva => ?_, fun path hlen htramp htrap hne => ?_, fun k => ?_, ?_⟩, ?_⟩
      · obtain ⟨w, mem, hw, hentry, hpa, hpage⟩ := hcopied.entry va hva
        have hw' : m.entryAt q.pagetable (vpns va) = some w := by
          rwa [h.entryAt_spares hparent hpc hnew.spares (by simp [vpns])] at hw
        refine ⟨w, mem, hw', (hchild _ (by simp [vpns])).trans hentry, hpa, ?_⟩
        have huser := h₂.entryAt_user hbuilt₂.2.1 (by simp [vpns]) hentry (entry_pteU_ne mem)
        rw [hpa] at huser
        have hmem : mem ≠ trapframe := by
          rintro rfl
          rw [hframe₂] at huser
          cases huser
        obtain ⟨hfree, htable⟩ := h.entryAt_spared hparent (by simp [vpns]) hw'
        rw [hkeep mem hmem, hpage, hnew.spares _ hfree fun path => htable c path]
      · rw [hchild path (by omega), hcopied.other path hlen hne, hnew.entry path hlen htramp htrap]
      · by_cases hk : k = tfA0
        · subst hk
          simp [Phys.store, Phys.fill]
        · have hsame := hspares q.trapframe (by simp [hframe]) (by simp [hframe])
          simp [Phys.store, Phys.fill, hk, hsame]
      · intro r hfree htable
        have hr : r ≠ trapframe := by
          rintro rfl
          exact hfree hnew.free
        rw [hkeep r hr, hspares r hfree htable]
      · rw [forkNeeds]
        omega
    · rw [hvas'] at hshort
      refine .inr ⟨by rw [forkNeeds]; omega, fun _ _ _ _ hf => ?_⟩
      rw [hforked] at hf
      obtain ⟨⟨ok, m₂⟩, hcopy, hf⟩ := Option.bind_eq_some_iff.mp hf
      cases ok with
      | false => simp at hf
      | true => exact hfail m₂ hcopy
  · refine .inr ⟨?_, fun _ _ _ _ hf => ?_⟩
    · have hsub : tablesTo trampolineVa ⊆ tablesTo trampolineVa ∪
          tablesOf (copied m q.pagetable q.sz) := Finset.subset_union_left
      have htwo := Finset.card_le_card hsub
      rw [card_tablesTo_trampoline, ← tablesOf_cons] at htwo
      rw [forkNeeds]
      omega
    · obtain ⟨m₁, -, hbuild, -⟩ := build_of_done hf
      exact hfail _ _ _ _ hbuild

/-- What a `fork` that gets to its end has done to memory. -/
theorem forkedSpace {q : Proc} {fuel kstack pagetable trapframe : ℕ}
    (h : Owned lay.kend own m free) (hparent : own q.pagetable = some (.table p []))
    (hframe : own q.trapframe = some (.trapframe p)) (hpc : p ≠ c)
    (hf : m.forkPages lay fuel q = some (.done kstack pagetable trapframe, m')) :
    ForkedSpace own c q kstack pagetable trapframe m m' := by
  have hsz : q.sz.toNat ≤ 2 ^ 64 - 4096 := by
    by_contra hlarge
    obtain ⟨m₁, m₂, -, hcopy⟩ := build_of_done hf
    exact copyPages_endless (not_le.mp hlarge) (by decide) m₂ hcopy
  -- the loop would have come to the same end had it been let run longer
  have hlong : m.forkPages lay (max fuel (pagesOf q.sz.toNat + 1)) q =
      some (.done kstack pagetable trapframe, m') := forkPages_mono (le_max_left _ _) hf
  rcases h.forkPages_exact (c := c) hparent hframe hpc hsz
      (Nat.lt_of_lt_of_le (Nat.lt_succ_self _) (le_max_right fuel _)) with
    ⟨k', r', t', m'', -, -, hf', -, -, -, hspace, -⟩ | ⟨-, hfail⟩
  · rw [hf'] at hlong
    obtain ⟨heq, rfl⟩ := Prod.mk.inj (Option.some.inj hlong)
    obtain ⟨rfl, rfl, rfl⟩ := Forked.done.inj heq
    exact hspace
  · exact absurd hlong (hfail _ _ _ _)

end Owned

end RiscvOs
