import RiscvOs.Proc.Fork
import RiscvOs.Proc.Trap

/-!
# The child of a `fork`

A child has a copy of every page that its parent has below `sz`, in a page of its own
(`fork_copies`), so what either of them writes afterwards is seen by itself only
(`Isolated.userMem_writeAll`).

The copies have other permissions than the originals: the loop maps every page for reading,
writing, executing and for the user (`fork_permissions`).
-/

namespace RiscvOs

open LinkedList Procs

variable {lay : Layout} {own : ℕ → Option Role} {m : Phys} {free : List ℕ} {s s' : Procs}
  {p c : Fin nproc}

/-! ## Writes of processes -/

/-- Processes write to their pages, one after the other. -/
def Procs.writeAll (s : Procs) : List (Fin nproc × UserWrite) → Option Procs
  | [] => some s
  | (i, write) :: writes => do
    let s ← s.writeUser i [write]
    writeAll s writes

/-- The memory of a process once it has been written to. -/
def UserMem.write (mem : UserMem) : UserWrite → UserMem
  | (i, j, k, content) => fun i' j' k' =>
    if i' = i ∧ j' = j ∧ k' = k then some content else mem i' j' k'

theorem UserMem.write_same (mem : UserMem) (i j k : Fin 512) (content : Page) :
    mem.write (i, j, k, content) i j k = some content := if_pos ⟨rfl, rfl, rfl⟩

theorem UserMem.write_of_ne (mem : UserMem) {i j k i' j' k' : Fin 512} (content : Page)
    (h : ¬ (i' = i ∧ j' = j ∧ k' = k)) : mem.write (i, j, k, content) i' j' k' = mem i' j' k' :=
  if_neg h

/-- The memory of `q` after the writes of all processes, which only sees its own. -/
def UserMem.writeOwn (q : Fin nproc) (mem : UserMem) : List (Fin nproc × UserWrite) → UserMem
  | [] => mem
  | (i, write) :: writes => writeOwn q (if i = q then mem.write write else mem) writes

/-- A change of a user page changes no page table. -/
theorem Isolated.fillUser {i : Fin nproc} {i₂ i₁ i₀ : Fin 512} {pa : ℕ} (h : Isolated lay own s)
    (hi : (s.proc i).state.Live)
    (hpa : s.phys.userPage (s.proc i).pagetable i₂ i₁ i₀ = some pa) (content : Page) :
    Isolated lay own (s.setPhys (s.phys.fill pa content)) ∧ own pa = some (.user i [i₀, i₁, i₂]) ∧
      ∀ q, (s.proc q).state.Live → ∀ j₂ j₁ j₀,
        (s.phys.fill pa content).userPage (s.proc q).pagetable j₂ j₁ j₀ =
          s.phys.userPage (s.proc q).pagetable j₂ j₁ j₀ := by
  obtain ⟨free, hown⟩ := h.owned
  have hroot : ∀ q, (s.proc q).state.Live → own (s.proc q).pagetable = some (.table q []) :=
    fun q hq => (h.slots q).pagetable ((h.slots q).live hq).2.1
  have hrole := hown.userPage (hroot i hi) hpa
  have hfill := hown.fill (show own pa ≠ some .free by simp [hrole]) (by simp [hrole]) content
  refine ⟨⟨h.running, ⟨free, hfill⟩, h.slots⟩, hrole, fun q hq j₂ j₁ j₀ => ?_⟩
  refine hown.userPage_congr (hroot q hq) fun r path hr => ?_
  have hne : r ≠ pa := by
    rintro rfl
    rw [hrole] at hr
    exact nomatch hr
  simp [Phys.fill, hne]

/-- A write to one user page. -/
theorem Isolated.writeUser {i : Fin nproc} {write : UserWrite} (h : Isolated lay own s)
    (hi : (s.proc i).state.Live) (hw : s.writeUser i [write] = some s') :
    Isolated lay own s' ∧ s'.proc = s.proc ∧ ∀ q, (s.proc q).state.Live →
      Procs.userMem s'.phys (s.proc q).pagetable =
        if i = q then (Procs.userMem s.phys (s.proc i).pagetable).write write
        else Procs.userMem s.phys (s.proc q).pagetable := by
  obtain ⟨i₂, i₁, i₀, content⟩ := write
  obtain ⟨free, hown⟩ := h.owned
  obtain ⟨pa, hpa, hs'⟩ := Option.bind_eq_some_iff.mp hw
  obtain rfl : s.setPhys (s.phys.fill pa content) = s' := Option.some.inj hs'
  have hroot : ∀ q, (s.proc q).state.Live → own (s.proc q).pagetable = some (.table q []) :=
    fun q hq => (h.slots q).pagetable ((h.slots q).live hq).2.1
  obtain ⟨hisolated, hrole, htables⟩ := h.fillUser hi hpa content
  refine ⟨hisolated, rfl, fun q hq => ?_⟩
  have hpage : ∀ r, r ≠ pa → (s.phys.fill pa content).page r = s.phys.page r := fun r hr => by
    simp [Phys.fill, hr]
  funext j₂ j₁ j₀
  simp only [Procs.userMem, setPhys_phys, htables q hq]
  cases hr : s.phys.userPage (s.proc q).pagetable j₂ j₁ j₀ with
  | none =>
    by_cases hiq : i = q
    · subst hiq
      have hne : ¬ (j₂ = i₂ ∧ j₁ = i₁ ∧ j₀ = i₀) := by
        rintro ⟨rfl, rfl, rfl⟩
        rw [hpa] at hr
        cases hr
      rw [if_pos rfl, UserMem.write_of_ne _ _ hne, Procs.userMem, hr]
      rfl
    · rw [if_neg hiq, Procs.userMem, hr]
      rfl
  | some r =>
    have hrole' := hown.userPage (hroot q hq) hr
    rw [Option.map_some]
    by_cases hiq : i = q
    · subst hiq
      rw [if_pos rfl]
      by_cases hhere : j₂ = i₂ ∧ j₁ = i₁ ∧ j₀ = i₀
      · obtain ⟨rfl, rfl, rfl⟩ := hhere
        obtain rfl := Option.some.inj (hpa.symm.trans hr)
        rw [UserMem.write_same]
        simp [Phys.fill]
      · have hne : r ≠ pa := by
          rintro rfl
          rw [hrole'] at hrole
          obtain ⟨-, hpath⟩ := Role.user.inj (Option.some.inj hrole)
          obtain ⟨rfl, rfl, rfl⟩ := by simpa using hpath
          exact hhere ⟨rfl, rfl, rfl⟩
        rw [UserMem.write_of_ne _ _ hhere, hpage r hne, Procs.userMem, hr, Option.map_some]
    · have hne : r ≠ pa := by
        rintro rfl
        rw [hrole'] at hrole
        exact hiq (Role.user.inj (Option.some.inj hrole)).1.symm
      rw [if_neg hiq, hpage r hne, Procs.userMem, hr, Option.map_some]

/-- Whatever processes write, each of them sees its own writes and nothing else. -/
theorem Isolated.userMem_writeAll {writes : List (Fin nproc × UserWrite)} (h : Isolated lay own s)
    (hlive : ∀ w ∈ writes, (s.proc w.1).state.Live) (hw : s.writeAll writes = some s')
    {q : Fin nproc} (hq : (s.proc q).state.Live) :
    Procs.userMem s'.phys (s.proc q).pagetable =
      UserMem.writeOwn q (Procs.userMem s.phys (s.proc q).pagetable) writes := by
  induction writes generalizing s with
  | nil =>
    obtain rfl : s = s' := Option.some.inj hw
    rfl
  | cons w writes ih =>
    obtain ⟨i, write⟩ := w
    obtain ⟨t, ht, hw⟩ := Option.bind_eq_some_iff.mp hw
    obtain ⟨h', hproc, hmem⟩ := h.writeUser (hlive _ List.mem_cons_self) ht
    have hrest := ih h' (fun w hw => by rw [hproc]; exact hlive w (List.mem_cons_of_mem _ hw)) hw
      (by rw [hproc]; exact hq)
    rw [hproc] at hrest
    rw [hrest, hmem q hq, UserMem.writeOwn]
    by_cases hiq : i = q
    · subst hiq
      rw [if_pos rfl]
    · rw [if_neg hiq, if_neg hiq]

/-! ## The copy -/

/-- `walk_lookup` finds the valid entry `w` for `va`. -/
def Phys.Present (m : Phys) (pt : ℕ) (va w : Word) : Prop :=
  m.leaf pt va = some w ∧ w &&& pteV ≠ 0

/-- What `fork` of the process `p` makes of the slot `c`. -/
structure ForkRight (s s' : Procs) (p c : Fin nproc) : Prop where
  ne : c ≠ p
  /-- Every page below `sz` that the parent has mapped is copied. -/
  copied : ∀ v, v * pgsize < (s.proc p).sz.toNat → ∀ w,
    s.phys.Present (s.proc p).pagetable (pageVa v) w →
      ∃ w', s'.phys.Present (s'.proc c).pagetable (pageVa v) w' ∧
        s'.phys.page (ptePa w') = s.phys.page (ptePa w)
  /-- No other page is mapped. -/
  unmapped : ∀ v, v * pgsize < (s.proc p).sz.toNat →
    (∀ w, ¬ s.phys.Present (s.proc p).pagetable (pageVa v) w) →
      ∀ w, ¬ s'.phys.Present (s'.proc c).pagetable (pageVa v) w
  frame : ∀ k, s'.frame c k = if k = tfA0 then 0 else s.frame p k
  /-- The slot has its stack, its page table and its trapframe, and shares none of its pages with
  another process. -/
  live : (s'.proc c).state.Live
  apart : ∀ r r' pa, Plays s' r pa → Plays s' r' pa → r = r'
  /-- The parent keeps its slot, its page table and its memory, and so does everybody else. -/
  others : ∀ j, j ≠ c → s'.proc j = s.proc j
  kept : ∀ r pa, Plays s r pa → (∀ path, r ≠ .table c path) → s'.phys.page pa = s.phys.page pa
  /-- What processes write later is seen by themselves only. -/
  own : ∀ writes t, (∀ w ∈ writes, (s'.proc w.1).state.Live) →
    s'.writeAll writes = some t → ∀ q, (s'.proc q).state.Live →
      Procs.userMem t.phys (s'.proc q).pagetable =
        UserMem.writeOwn q (Procs.userMem s'.phys (s'.proc q).pagetable) writes

theorem Phys.present_iff {pt : ℕ} {va w : Word} :
    m.Present pt va w ↔ m.entryAt pt (vpns va) = some w := (m.leaf_eq pt va w).symm

/-- At least `n` pages are free. -/
def HasFree (s : Procs) (n : ℕ) : Prop :=
  ∃ free, Chain (fun pa => (s.phys.page pa 0).toNat) 0 s.phys.freelist free ∧ n ≤ free.length

/-- A `fork` that returns a pid has got to its end. -/
theorem fork_done {fuel : ℕ} {pid : ℤ} (hrun : s.Running) (hcur : s.cur = some p)
    (hfork : s.fork lay fuel p = some (pid, s')) (hpid : pid ≠ -1) :
    ∃ c kstack pagetable trapframe m, s.firstUnused = some c ∧ p ≠ c ∧
      s.phys.forkPages lay fuel (s.proc p) = some (.done kstack pagetable trapframe, m) ∧
      pid = s.nextpid ∧ s' = s.enter c ((Forked.done kstack pagetable trapframe).proc p (s.proc p)
        (s.proc c) s.nextpid) m := by
  cases hc : s.firstUnused with
  | none =>
    rw [fork_none fuel hc] at hfork
    exact absurd (Prod.mk.inj (Option.some.inj hfork)).1.symm hpid
  | some c =>
    have hpc : p ≠ c := by
      rintro rfl
      have hunused := firstUnused_unused hc
      rw [hrun p hcur] at hunused
      exact nomatch hunused
    rw [fork_eq fuel hc hpc] at hfork
    obtain ⟨⟨f, m⟩, hf, hr⟩ := Option.map_eq_some_iff.mp hfork
    obtain ⟨rfl, rfl⟩ := Prod.mk.inj hr
    cases f with
    | starved b => exact absurd rfl hpid
    | uncopied => exact absurd rfl hpid
    | done kstack pagetable trapframe =>
      exact ⟨c, kstack, pagetable, trapframe, m, rfl, hpc, hf, rfl, rfl⟩

/-- What a process below `TRAPFRAME` has mapped below its size, its child has mapped. -/
theorem ForkedSpace.right {q : Proc} {kstack pagetable trapframe : ℕ} {m m' : Phys}
    (h : ForkedSpace own c q kstack pagetable trapframe m m') (hsz : q.sz ≤ trapframeVa) {v : ℕ}
    (hv : v * pgsize < q.sz.toNat) :
    (∀ w, m.Present q.pagetable (pageVa v) w → ∃ w', m'.Present pagetable (pageVa v) w' ∧
      m'.page (ptePa w') = m.page (ptePa w)) ∧
    ((∀ w, ¬ m.Present q.pagetable (pageVa v) w) → ∀ w, ¬ m'.Present pagetable (pageVa v) w) := by
  have htop : trapframeVa.toNat = (2 ^ 26 - 2) * 4096 := by decide
  rw [BitVec.le_def, htop] at hsz
  have hsmall : v < 2 ^ 26 - 2 := by
    simp only [pgsize] at hv
    omega
  have hbelow : v < pagesOf q.sz.toNat := by
    simp only [pagesOf, pgsize] at hv ⊢
    omega
  refine ⟨fun w hw => ?_, fun hnone w hw => ?_⟩
  · rw [Phys.present_iff] at hw
    have hmem : pageVa v ∈ copied m q.pagetable q.sz :=
      mem_copied.mpr ⟨⟨v, hbelow, rfl⟩, by rw [hw]; rfl⟩
    obtain ⟨w', mem, hw', hentry, hpa, hpage⟩ := h.entry _ hmem
    obtain rfl := Option.some.inj (hw.symm.trans hw')
    exact ⟨_, Phys.present_iff.mpr hentry, by rw [hpa, hpage]⟩
  · rw [Phys.present_iff] at hw
    have hne : ∀ u, u < 2 ^ 27 → u ≠ v → vpns (pageVa u) ≠ vpns (pageVa v) := fun u hu huv hpath =>
      huv (vpns_pageVa hu (by omega) hpath)
    have htramp : trampolineVa = pageVa (2 ^ 26 - 1) := by decide
    have htrap : trapframeVa = pageVa (2 ^ 26 - 2) := by decide
    rw [h.other (vpns (pageVa v)) (by simp [vpns]) ?_ ?_ fun va hva hpath => ?_] at hw
    · cases hw
    · rw [htramp]
      exact (hne _ (by decide) (by omega)).symm
    · rw [htrap]
      exact (hne _ (by decide) (by omega)).symm
    · obtain ⟨⟨u, hu, rfl⟩, hsome⟩ := mem_copied.mp hva
      have huv : u = v := by
        by_contra huv
        have hlt : u < 2 ^ 27 := by
          simp only [pagesOf, pgsize] at hu
          omega
        exact hne u hlt huv hpath
      subst huv
      obtain ⟨w', hw'⟩ := Option.isSome_iff_exists.mp hsome
      exact hnone w' (Phys.present_iff.mpr hw')

/-- `fork` returns if there are enough pages, and when it has returned a pid the child has a copy
of its parent that shares nothing with anybody. -/
theorem fork_copies (lay : Layout) (s : Procs) (p : Fin nproc) (h : (machine lay).Reachable s)
    (hcur : s.cur = some p) (hsz : (s.proc p).sz ≤ trapframeVa) :
    (∀ c, s.firstUnused = some c →
      HasFree s (forkNeeds s.phys (s.proc p).pagetable (s.proc p).sz) →
        ∃ fuel s', s.fork lay fuel p = some (s.nextpid, s')) ∧
    ∀ fuel pid s', s.fork lay fuel p = some (pid, s') → pid ≠ -1 →
      ∃ c, s.firstUnused = some c ∧ (s'.proc c).pid = pid ∧ ForkRight s s' p c := by
  obtain ⟨own, hs⟩ := isolated_of_reachable h
  obtain ⟨free, hown⟩ := hs.owned
  have hlive := hs.live hcur
  have hroot := (hs.slots p).pagetable ((hs.slots p).live hlive).2.1
  have hframe := (hs.slots p).trapframe ((hs.slots p).live hlive).2.2
  have htop : trapframeVa.toNat ≤ 2 ^ 64 - 4096 := by decide
  have hsz' : (s.proc p).sz.toNat ≤ 2 ^ 64 - 4096 := le_trans hsz htop
  refine ⟨fun c hc hfree => ?_, fun fuel pid s' hfork hpid => ?_⟩
  · have hpc : p ≠ c := by
      rintro rfl
      have hunused := firstUnused_unused hc
      rw [hs.running p hcur] at hunused
      cases hunused
    rcases hown.forkPages_exact (c := c) hroot hframe hpc hsz' (Nat.lt_succ_self _) with
      ⟨kstack, pagetable, trapframe, m, -, -, hf, -⟩ | ⟨hshort, -⟩
    · exact ⟨_, _, by rw [fork_eq _ hc hpc, hf]; rfl⟩
    · obtain ⟨free', hchain, hle⟩ := hfree
      rw [hown.chain.unique hchain] at hshort
      omega
  · obtain ⟨c, kstack, pagetable, trapframe, m, hc, hpc, hf, rfl, hs'⟩ :=
      fork_done hs.running hcur hfork hpid
    have hstep : s.step lay (.call (.fork fuel)) = some (none, s') := by
      rw [step, hcur]
      change ((s.call lay p (.fork fuel)).bind _) = _
      rw [call, hfork]
      rfl
    have hreach : (machine lay).Reachable s' := h.step (i := .call (.fork fuel)) ⟨none, hstep⟩
    obtain ⟨own', hs₁⟩ := isolated_of_reachable hreach
    obtain ⟨-, -, -, -, -, hapart, -⟩ := exclusive_ownership lay s' hreach
    have hspace := hown.forkedSpace hroot hframe hpc hf
    have hself : s'.proc c = (Forked.done kstack pagetable trapframe).proc p (s.proc p) (s.proc c)
        s.nextpid := by rw [hs', enter_self]
    have hphys : s'.phys = m := by rw [hs']; rfl
    refine ⟨c, hc, by rw [hself]; rfl, ?_⟩
    refine
      { ne := hpc.symm
        copied := fun v hv w hw => ?_
        unmapped := fun v hv hnone w hw => ?_
        frame := fun k => ?_
        live := ?_
        apart := hapart
        others := fun j hj => by rw [hs', enter_of_ne _ _ hj]
        kept := fun r pa hr htab => ?_
        own := fun writes t hlive ht q hq => hs₁.userMem_writeAll hlive ht hq }
    · rw [hself, hphys]
      exact (hspace.right hsz hv).1 w hw
    · rw [hself, hphys] at hw
      exact (hspace.right hsz hv).2 hnone w hw
    · rw [Procs.frame, hself, hphys]
      exact hspace.frame k
    · rw [hself]
      exact ⟨by rintro ⟨⟩, by rintro ⟨⟩⟩
    · obtain ⟨hrole, hfree⟩ := hr.owned hown hs.slots
      rw [hphys]
      refine hspace.spares pa (by rw [hrole]; simpa using hfree) fun path => ?_
      rw [hrole]
      simpa using htab path

/-- The first fork: `init` has its program on page 0 and its stack on page 1. -/
structure FirstFork (s s' : Procs) : Prop where
  reachable : (machine smallLayout).Reachable s
  cur : s.cur = some 0
  size : (s.proc 0).sz = 8192
  slot : s.firstUnused = some 1
  forked : s.fork smallLayout 3 0 = some (2, s')
  /-- The stack of `init` is not executable, and that of its child is. -/
  stack : ∃ w, s.phys.leaf (s.proc 0).pagetable (pageVa 1) = some w ∧ w &&& pteV ≠ 0 ∧
    w &&& permAll = pteR ||| pteW ||| pteU
  stack' : ∃ w, s'.phys.leaf (s'.proc 1).pagetable (pageVa 1) = some w ∧ w &&& pteV ≠ 0 ∧
    w &&& permAll = permAll

theorem exists_firstFork : ∃ s s', FirstFork s s' := by
  have hall : ((boot smallLayout).bind fun s => RiscvOs.run smallLayout s [.schedule 0]).any
      (fun s => s.cur = some 0 ∧ (s.proc 0).sz = 8192 ∧ s.firstUnused = some 1 ∧
        ((s.phys.leaf (s.proc 0).pagetable (pageVa 1)).any fun w =>
          w &&& pteV ≠ 0 ∧ w &&& permAll = pteR ||| pteW ||| pteU) ∧
        (s.fork smallLayout 3 0).any fun r => r.1 = 2 ∧
          (r.2.phys.leaf (r.2.proc 1).pagetable (pageVa 1)).any fun w =>
            w &&& pteV ≠ 0 ∧ w &&& permAll = permAll) := by
    decide +kernel
  obtain ⟨s, hs, hfacts⟩ := (Option.any_eq_true ..).mp hall
  obtain ⟨hcur, hsize, hslot, hstack, hfork⟩ := of_decide_eq_true hfacts
  obtain ⟨⟨pid, s'⟩, hfork, hfacts⟩ := (Option.any_eq_true ..).mp hfork
  obtain ⟨rfl, hstack'⟩ := of_decide_eq_true hfacts
  obtain ⟨w, hw, hflags⟩ := (Option.any_eq_true ..).mp hstack
  obtain ⟨w', hw', hflags'⟩ := (Option.any_eq_true ..).mp hstack'
  obtain ⟨s₀, hboot, hstart⟩ := Option.bind_eq_some_iff.mp hs
  have hreach : (machine smallLayout).Reachable s := by
    refine System.Reachable.runAll (fun s e s' hnext => ?_) (.init hboot) hstart
    obtain ⟨⟨w, u⟩, hstep, rfl⟩ := Option.map_eq_some_iff.mp hnext
    exact ⟨w, hstep⟩
  exact ⟨s, s', hreach, hcur, hsize, hslot, hfork, ⟨w, hw, of_decide_eq_true hflags⟩,
    ⟨w', hw', of_decide_eq_true hflags'⟩⟩

/-- The child of `init` is a copy of it. -/
theorem fork_copies_init : ∃ s s', FirstFork s s' ∧
    ∃ c, s.firstUnused = some c ∧ (s'.proc c).pid = 2 ∧ ForkRight s s' 0 c := by
  obtain ⟨s, s', h⟩ := exists_firstFork
  refine ⟨s, s', h, ?_⟩
  exact (fork_copies smallLayout s 0 h.reachable h.cur (by rw [h.size]; decide)).2 3 2 s' h.forked
    (by decide)

/-! ## Permissions -/

/-- Every page that the parent has mapped below `sz` is mapped in the child with the same bits. -/
def PermsKept (s s' : Procs) (p c : Fin nproc) : Prop :=
  ∀ v, v * pgsize < (s.proc p).sz.toNat → ∀ w,
    s.phys.Present (s.proc p).pagetable (pageVa v) w →
      ∃ w', s'.phys.Present (s'.proc c).pagetable (pageVa v) w' ∧ w' &&& permAll = w &&& permAll

/-- Every page that the process has mapped below `sz` can be read, written, executed and accessed
by the user. -/
def AllOpen (s : Procs) (p : Fin nproc) : Prop :=
  ∀ v, v * pgsize < (s.proc p).sz.toNat → ∀ w,
    s.phys.Present (s.proc p).pagetable (pageVa v) w → w &&& permAll = permAll

theorem entry_permAll (pa : ℕ) : (paPte pa ||| permAll ||| pteV) &&& permAll = permAll := by
  generalize permAll = perm
  ext i hi
  simp only [BitVec.getElem_and, BitVec.getElem_or]
  cases perm[i] <;> simp

/-- A child has the permissions of its parent exactly if the parent's pages have them all. -/
theorem fork_permissions (lay : Layout) (s : Procs) (p : Fin nproc) (h : (machine lay).Reachable s)
    (hcur : s.cur = some p) (fuel : ℕ) (pid : ℤ) (s' : Procs)
    (hfork : s.fork lay fuel p = some (pid, s')) (hpid : pid ≠ -1) :
    ∃ c, s.firstUnused = some c ∧ (s'.proc c).pid = pid ∧ (PermsKept s s' p c ↔ AllOpen s p) := by
  obtain ⟨own, hs⟩ := isolated_of_reachable h
  obtain ⟨free, hown⟩ := hs.owned
  have hlive := hs.live hcur
  have hroot := (hs.slots p).pagetable ((hs.slots p).live hlive).2.1
  have hframe := (hs.slots p).trapframe ((hs.slots p).live hlive).2.2
  obtain ⟨c, kstack, pagetable, trapframe, m, hc, hpc, hf, rfl, hs'⟩ :=
    fork_done hs.running hcur hfork hpid
  have hspace := hown.forkedSpace hroot hframe hpc hf
  have hself : s'.proc c = (Forked.done kstack pagetable trapframe).proc p (s.proc p) (s.proc c)
      s.nextpid := by rw [hs', enter_self]
  have hphys : s'.phys = m := by rw [hs']; rfl
  -- what the child has for a page of its parent
  have hchild : ∀ v, v * pgsize < (s.proc p).sz.toNat → ∀ w,
      s.phys.Present (s.proc p).pagetable (pageVa v) w →
        ∃ mem, m.entryAt pagetable (vpns (pageVa v)) = some (paPte mem ||| permAll ||| pteV) := by
    intro v hv w hw
    rw [Phys.present_iff] at hw
    have hmem : pageVa v ∈ copied s.phys (s.proc p).pagetable (s.proc p).sz := by
      refine mem_copied.mpr ⟨⟨v, ?_, rfl⟩, by rw [hw]; rfl⟩
      simp only [pagesOf, pgsize] at hv ⊢
      omega
    obtain ⟨-, mem, -, hentry, -⟩ := hspace.entry _ hmem
    exact ⟨mem, hentry⟩
  refine ⟨c, hc, by rw [hself]; rfl, fun hkept v hv w hw => ?_, fun hopen v hv w hw => ?_⟩
  · obtain ⟨w', hw', hflags⟩ := hkept v hv w hw
    obtain ⟨mem, hentry⟩ := hchild v hv w hw
    rw [hself, hphys, Phys.present_iff] at hw'
    obtain rfl := Option.some.inj (hentry.symm.trans hw')
    rw [← hflags, entry_permAll]
  · obtain ⟨mem, hentry⟩ := hchild v hv w hw
    refine ⟨_, ?_, (entry_permAll mem).trans (hopen v hv w hw).symm⟩
    rw [hself, hphys, Phys.present_iff]
    exact hentry

/-- The child of `init` can execute its stack. -/
theorem fork_permissions_stack : ∃ s s', FirstFork s s' ∧ ¬ PermsKept s s' 0 1 := by
  obtain ⟨s, s', h⟩ := exists_firstFork
  refine ⟨s, s', h, fun hkept => ?_⟩
  obtain ⟨w, hw, hv, hflags⟩ := h.stack
  obtain ⟨w', hw', hv', hflags'⟩ := h.stack'
  obtain ⟨w'', hpresent, hsame⟩ := hkept 1 (by rw [h.size]; decide) w ⟨hw, hv⟩
  obtain rfl := Option.some.inj (hw'.symm.trans hpresent.1)
  rw [hflags, hflags'] at hsame
  exact absurd hsame (by decide)

/-- The first fork does not keep the permissions, for the stack of `init` is not executable. -/
theorem fork_permissions_init : ∃ s s', FirstFork s s' ∧
    ∃ c, s.firstUnused = some c ∧ (s'.proc c).pid = 2 ∧ (PermsKept s s' 0 c ↔ AllOpen s 0) := by
  obtain ⟨s, s', h⟩ := exists_firstFork
  exact ⟨s, s', h, fork_permissions smallLayout s 0 h.reachable h.cur 3 2 s' h.forked (by decide)⟩

end RiscvOs
