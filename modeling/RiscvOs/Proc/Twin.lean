import RiscvOs.Vm.Agree
import RiscvOs.Proc.Pages
import RiscvOs.Proc.Trap

/-!
# Machines that cannot be told apart

`Twin P s t` relates two machines that differ only where no kernel code reads: in the
flags, files and contexts of slots that hold no process, in names, in exit codes of
processes that have not exited, and in the pages outside `P`.  Every call keeps twins
twins and returns the same, except that `fork` needs the slot it fills to have the same
flags and files in both: it is the one place where the kernel starts to read them.

With one machine on both sides this is an invariant of a single run.
-/

namespace RiscvOs

open Procs

variable {lay : Layout} {P : ℕ → Prop} {own own' : ℕ → Option Role} {free : List ℕ}
  {m t : Phys} {i : Fin nproc}

/-! ## The memory side of the calls -/

namespace Agree

theorem build (h : Agree P m t) (hown : Owned lay.kend own m free)
    (hP : ∀ pa, own pa ≠ none → P pa) : Same P (m.build lay) (t.build lay) := by
  obtain ⟨kstack, m₁, t₁, hm, ht, h₁⟩ := h.allocPage hown hP
  unfold Phys.build
  simp only [hm, ht]
  split
  · exact .some h₁
  next hk0 =>
  obtain ⟨own₁, free₁, hown₁, hext₁, -⟩ := hown.allocFor (r := .taken) hm hk0 (by simp)
  have hP₁ : ∀ pa, own₁ pa ≠ none → P pa := fun pa hpa => hP pa (hext₁.of_ne_none hpa)
  refine (h₁.createPagetable hown₁ hP₁).bind fun pagetable m₂ t₂ hpt h₂ => ?_
  obtain ⟨own₂, free₂, hown₂, hext₂, hpt₂⟩ := hown₁.createPagetable (i := 0) hpt
  have hP₂ : ∀ pa, own₂ pa ≠ none → P pa := fun pa hpa => hP₁ pa (hext₂.of_ne_none hpa)
  obtain ⟨trapframe, m₃, t₃, hm₃, ht₃, h₃⟩ := h₂.allocPage hown₂ hP₂
  simp only [hm₃, ht₃]
  split
  · exact .some h₃
  next ht0 =>
  obtain ⟨own₃, free₃, hown₃, hext₃, hframe₃⟩ :=
    hown₂.allocFor (r := .trapframe 0) hm₃ ht0 (by simp)
  have hP₃ : ∀ pa, own₃ pa ≠ none → P pa := fun pa hpa => hP₂ pa (hext₃.of_ne_none hpa)
  have hpt₃ := hext₃.of_role hpt₂ (by simp)
  refine (h₃.mapPage hown₃ hP₃ hpt₃).bind fun r₄ m₄ t₄ hm₄ h₄ => ?_
  obtain ⟨own₄, free₄, hown₄, hext₄⟩ := hown₃.mapPage_kernel lay.kend_pos hpt₃
    (.inl ⟨lay.trampoline_lt, lay.kend_le⟩) (by decide) (by decide) hm₄
  have hP₄ : ∀ pa, own₄ pa ≠ none → P pa := fun pa hpa => hP₃ pa (hext₄.of_ne_none hpa)
  refine (h₄.mapPage hown₄ hP₄ (hext₄.of_role hpt₃ (by simp))).bind fun r₅ m₅ t₅ hm₅ h₅ => ?_
  exact .some h₅

theorem copyPages {p c : Fin nproc} {parent child fuel : ℕ} {sz va : Word} (h : Agree P m t)
    (hown : Owned lay.kend own m free) (hP : ∀ pa, own pa ≠ none → P pa)
    (hkernel : ∀ pa, pa < lay.kend → P pa) (hparent : own parent = some (.table p []))
    (hchild : own child = some (.table c [])) :
    Same P (Procs.copyPages parent child sz fuel va m) (Procs.copyPages parent child sz fuel va t) := by
  induction fuel generalizing own free m t va with
  | zero => exact .none
  | succ fuel ih =>
      unfold Procs.copyPages
      split
      · rw [h.walkLookup hown hP hparent]
        cases hleaf : m.walkLookup parent va with
        | none => exact ih h hown hP hparent hchild
        | some leaf =>
          have hleaf' := hown.walkLookup hparent hleaf
          simp only [Option.map_some, h.page leaf (hP leaf (by simp [hleaf']))]
          split
          · next hv =>
            have hsrc : P (ptePa (m.page leaf (vpn va 0))) :=
              (hown.entry hleaf' (by simp) hv).elim (hkernel _) (hP _)
            obtain ⟨mem, m₁, t₁, hm, ht, h₁⟩ := h.allocPage hown hP
            simp only [hm, ht]
            split
            · exact .some h₁
            next hmem =>
            rw [h₁.page _ hsrc]
            refine (h₁.addPage hown hP hchild hm hmem _).bind fun r m₂ t₂ hr h₂ => ?_
            obtain ⟨rfl, own₂, free₂, hown₂, hext₂⟩ :=
              hown.addPage lay.kend_pos hchild hm hmem _ (by decide) (by decide) hr
            exact ih h₂ hown₂ (fun pa hpa => hP pa (hext₂.of_ne_none hpa))
              (hext₂.of_role hparent (by simp)) (hext₂.of_role hchild (by simp))
          · exact ih h hown hP hparent hchild
      · exact .some h

theorem growPages {pt fuel : ℕ} {newsz a : Word} (h : Agree P m t)
    (hown : Owned lay.kend own m free) (hP : ∀ pa, own pa ≠ none → P pa)
    (hpt : own pt = some (.table i [])) :
    Same P (Procs.growPages pt newsz fuel a m) (Procs.growPages pt newsz fuel a t) := by
  induction fuel generalizing own free m t a with
  | zero => exact .none
  | succ fuel ih =>
      unfold Procs.growPages
      split
      · obtain ⟨mem, m₁, t₁, hm, ht, h₁⟩ := h.allocPage hown hP
        simp only [hm, ht]
        split
        · exact .some h₁
        next hmem =>
        refine (h₁.addPage hown hP hpt hm hmem _).bind fun r m₂ t₂ hr h₂ => ?_
        obtain ⟨rfl, own₂, free₂, hown₂, hext₂⟩ :=
          hown.addPage lay.kend_pos hpt hm hmem _ (by decide) (by decide) hr
        exact ih h₂ hown₂ (fun pa hpa => hP pa (hext₂.of_ne_none hpa)) (hext₂.of_role hpt (by simp))
      · exact .some h

/-- The pages of a `fork` of twins; `q` and `q'` are the parent in both. -/
theorem forkPages {p : Fin nproc} {q q' : Proc} (h : Agree P m t) (fuel : ℕ)
    (hown : Owned lay.kend own m free) (hP : ∀ pa, own pa ≠ none → P pa)
    (hkernel : ∀ pa, pa < lay.kend → P pa) (hroot : own q.pagetable = some (.table p []))
    (hframe : own q.trapframe ≠ none) (hpt : q'.pagetable = q.pagetable) (hsz : q'.sz = q.sz)
    (htf : q'.trapframe = q.trapframe) :
    Same P (m.forkPages lay fuel q) (t.forkPages lay fuel q') := by
  refine (h.build hown hP).bind fun b m₁ t₁ hb h₁ => ?_
  obtain ⟨own₁, free₁, hown₁, hext₁, hbuilt⟩ := hown.build (i := 0) hb
  have hP₁ : ∀ pa, own₁ pa ≠ none → P pa := fun pa hpa => hP pa (hext₁.of_ne_none hpa)
  cases b with
  | noStack => exact .some h₁
  | noFrame => exact .some h₁
  | full kstack pagetable trapframe =>
    dsimp only
    rw [hpt, hsz, htf]
    refine (h₁.copyPages hown₁ hP₁ hkernel (hext₁.of_role hroot (by simp)) hbuilt.2.1).bind
      fun ok m₂ t₂ hc h₂ => ?_
    cases ok
    · exact .some h₂
    · have hP' : P trapframe := hP₁ _ (by simp [hbuilt.2.2])
      simp only [Bool.true_eq_false, if_false, h₂.page _ (hP _ hframe)]
      exact .some ((h₂.fill _ _).store hP' _ _)

end Agree

/-! ## Twins -/

/-- Two slots that differ only in what nobody reads any more. -/
structure Proc.Twin (q q' : Proc) : Prop where
  state : q'.state = q.state
  pid : q'.pid = q.pid
  kstack : q'.kstack = q.kstack
  parent : q'.parent = q.parent
  chan : q'.chan = q.chan
  sz : q'.sz = q.sz
  pagetable : q'.pagetable = q.pagetable
  trapframe : q'.trapframe = q.trapframe
  live : q.state.Live → q'.killed = q.killed ∧ q'.ofile = q.ofile ∧ q'.context = q.context
  zombie : q.state = .zombie → q'.exitCode = q.exitCode

/-- The pages of a process have its slot's roles.  The trapframe a free slot still points to has
no other role. -/
structure Framed (kend : ℕ) (own : ℕ → Option Role) (i : Fin nproc) (q : Proc) : Prop where
  range : q.trapframe ≠ 0 → kend ≤ q.trapframe
  live : q.state.Live → own q.kstack = some (.kstack i) ∧ own q.pagetable = some (.table i []) ∧
    own q.trapframe = some (.trapframe i)
  frame : own q.trapframe = none ∨ own q.trapframe = some (.trapframe i)

namespace Framed

variable {kend : ℕ} {q q' : Proc}

theorem mono (h : Framed kend own i q) (hext : Extends own own') : Framed kend own' i q := by
  refine ⟨h.range, fun hl => ?_, ?_⟩
  · obtain ⟨hk, hp, ht⟩ := h.live hl
    exact ⟨hext.of_role hk (by simp), hext.of_role hp (by simp), hext.of_role ht (by simp)⟩
  · obtain hnone | ht := h.frame
    · exact .inl ((hext _ (by simp [hnone])).trans hnone)
    · exact .inr (hext.of_role ht (by simp))

theorem kept (h : Framed kend own i q) (hkept : q.Kept q') : Framed kend own i q' := by
  refine ⟨?_, fun hl => ?_, ?_⟩
  · rw [hkept.trapframe]
    exact h.range
  · rw [hkept.kstack, hkept.pagetable, hkept.trapframe]
    exact h.live (hkept.live.mp hl)
  · rw [hkept.trapframe]
    exact h.frame

/-- The slot that `fork` has filled. -/
theorem forked {f : Forked} {p : Fin nproc} {parent : Proc} {pid : ℤ} (h : Framed kend own i q)
    (hown : Owned kend own m free) (hk : 0 < kend) (hf : Owned.ForkedFor own i f) :
    Framed kend own i (f.proc p parent q pid) := by
  have hfull : ∀ kstack pagetable trapframe,
      Owned.BuiltFor own i (.full kstack pagetable trapframe) → kend ≤ trapframe :=
    fun _ _ _ hb => (hown.range _ _ hb.2.2).lower
  have hnull : own 0 = none := by
    cases hrole : own 0 with
    | none => rfl
    | some r => exact absurd rfl (hown.pos hk hrole)
  cases f with
  | starved b =>
    cases b with
    | noStack => exact ⟨h.range, fun hl => absurd rfl hl.2, h.frame⟩
    | noFrame => exact ⟨fun h0 => absurd rfl h0, fun hl => absurd rfl hl.2, .inl hnull⟩
    | full => exact ⟨fun _ => hfull _ _ _ hf, fun _ => hf, .inr hf.2.2⟩
  | uncopied => exact ⟨fun _ => hfull _ _ _ hf, fun _ => hf, .inr hf.2.2⟩
  | done => exact ⟨fun _ => hfull _ _ _ hf, fun _ => hf, .inr hf.2.2⟩

end Framed

/-- The slots that `fork` fills in twins are twins, if what it leaves as it was is the same. -/
theorem Proc.Twin.forked {f : Forked} {p : Fin nproc} {parent parent' q q' : Proc} {pid : ℤ}
    (h : q.Twin q') (hsz : parent'.sz = parent.sz) (hkilled : q'.killed = q.killed)
    (hofile : q'.ofile = q.ofile) :
    (f.proc p parent q pid).Twin (f.proc p parent' q' pid) := by
  cases f with
  | starved b =>
    cases b with
    | noStack =>
      exact { h with
        state := rfl, pid := rfl, kstack := rfl
        live := fun hl => absurd rfl hl.2, zombie := fun hz => nomatch hz }
    | noFrame =>
      exact { h with
        state := rfl, pid := rfl, kstack := rfl, pagetable := rfl, trapframe := rfl
        live := fun hl => absurd rfl hl.2, zombie := fun hz => nomatch hz }
    | full => exact ⟨rfl, rfl, rfl, rfl, rfl, rfl, rfl, rfl, fun hl => absurd rfl hl.2, nofun⟩
  | uncopied => exact ⟨rfl, rfl, rfl, rfl, rfl, rfl, rfl, rfl, fun hl => absurd rfl hl.1, nofun⟩
  | done => exact ⟨rfl, rfl, rfl, rfl, rfl, hsz, rfl, rfl, fun _ => ⟨hkilled, hofile, rfl⟩, nofun⟩

/-- Two machines that cannot be told apart, where `P` are the pages in use. -/
structure Twin (lay : Layout) (P : ℕ → Prop) (s t : Procs) : Prop where
  slot : ∀ i, (s.proc i).Twin (t.proc i)
  nextpid : t.nextpid = s.nextpid
  cur : t.cur = s.cur
  phys : Agree P s.phys t.phys
  running : s.Running
  owned : ∃ own free, Owned lay.kend own s.phys free ∧ (∀ pa, own pa ≠ none → P pa) ∧
    ∀ i, Framed lay.kend own i (s.proc i)

namespace Twin

variable {s t s' t' : Procs} {p : Fin nproc}

theorem live (h : Twin lay P s t) (hp : s.cur = some p) : (s.proc p).state.Live := by
  simp [ProcState.Live, h.running p hp]

/-- The pages of a live process are in use. -/
theorem inUse (h : Twin lay P s t) (hp : (s.proc p).state.Live) :
    P (s.proc p).pagetable ∧ P (s.proc p).trapframe := by
  obtain ⟨own, free, -, hP, hframed⟩ := h.owned
  obtain ⟨-, hpt, htf⟩ := (hframed p).live hp
  exact ⟨hP _ (by simp [hpt]), hP _ (by simp [htf])⟩

/-- A call that works on the process table alone. -/
theorem table (h : Twin lay P s t) (hphys : s'.phys = s.phys) (hphys' : t'.phys = t.phys)
    (hslot : ∀ i, (s'.proc i).Twin (t'.proc i)) (hpid : t'.nextpid = s'.nextpid)
    (hcur : t'.cur = s'.cur) (hrun : s'.Running) (hkept : s.Kept s') : Twin lay P s' t' := by
  obtain ⟨own, free, hown, hP, hframed⟩ := h.owned
  refine ⟨hslot, hpid, hcur, ?_, hrun, own, free, by rwa [hphys], hP,
    fun i => (hframed i).kept (hkept i)⟩
  rw [hphys, hphys']
  exact h.phys

/-- A call that works on memory alone. -/
theorem memory {m' n' : Phys} (h : Twin lay P s t) (hagree : Agree P m' n')
    (hown : ∀ own free, Owned lay.kend own s.phys free → (∀ i, Framed lay.kend own i (s.proc i)) →
      ∃ own' free', Owned lay.kend own' m' free' ∧ Extends own own') :
    Twin lay P (s.setPhys m') (t.setPhys n') := by
  obtain ⟨own, free, hown', hP, hframed⟩ := h.owned
  obtain ⟨own', free', hm', hext⟩ := hown own free hown' hframed
  exact ⟨h.slot, h.nextpid, h.cur, hagree, h.running, own', free', hm',
    fun pa hpa => hP pa (hext.of_ne_none hpa), fun i => (hframed i).mono hext⟩

theorem modSlot {f g : Proc → Proc} (h : Twin lay P s t)
    (hfg : ((f (s.proc p)).Twin (g (t.proc p)))) (j : Fin nproc) :
    ((s.modProc p f).proc j).Twin ((t.modProc p g).proc j) := by
  by_cases hj : j = p
  · subst hj
    simpa [modProc] using hfg
  · simpa [modProc, setProc_of_ne _ hj] using h.slot j

/-- A slot is changed in the same way in both. -/
theorem modProc {f g : Proc → Proc} (h : Twin lay P s t)
    (hfg : ((f (s.proc p)).Twin (g (t.proc p)))) (hkept : (s.proc p).Kept (f (s.proc p)))
    (hrun : (s.modProc p f).Running) : Twin lay P (s.modProc p f) (t.modProc p g) :=
  h.table rfl rfl (h.modSlot hfg) h.nextpid h.cur hrun (kept_modProc hkept)

/-! ### Switching, exiting and waking -/

theorem yield (h : Twin lay P s t) (hp : (s.proc p).state.Live) :
    Twin lay P (s.yield p) (t.yield p) := by
  refine h.table rfl rfl (fun j => ?_) h.nextpid rfl (fun _ hq => by cases hq) (kept_yield hp)
  have hq := h.slot p
  obtain ⟨hkilled, hofile, hcontext⟩ := hq.live hp
  by_cases hj : j = p
  · subst hj
    simp only [Procs.yield, swtch, Procs.modProc, setProc_self]
    exact { hq with
      state := rfl
      live := fun _ => ⟨hkilled, hofile, by rw [hcontext]⟩
      zombie := fun hz => by cases hz }
  · simpa [Procs.yield, swtch, Procs.modProc, setProc_of_ne _ hj] using h.slot j

theorem sleep (h : Twin lay P s t) (chan : Fin nproc) (hp : (s.proc p).state.Live) :
    Twin lay P (s.sleep p chan) (t.sleep p chan) := by
  refine h.table rfl rfl (fun j => ?_) h.nextpid rfl (fun _ hq => by cases hq) (kept_sleep chan hp)
  have hq := h.slot p
  obtain ⟨hkilled, hofile, hcontext⟩ := hq.live hp
  by_cases hj : j = p
  · subst hj
    simp only [Procs.sleep, swtch, Procs.modProc, setProc_self]
    exact { hq with
      state := rfl
      chan := rfl
      live := fun _ => ⟨hkilled, hofile, by rw [hcontext]⟩
      zombie := fun hz => by cases hz }
  · simpa [Procs.sleep, swtch, Procs.modProc, setProc_of_ne _ hj] using h.slot j

theorem wakeupSlot {q q' : Proc} {chan : Fin nproc} (h : q.Twin q') :
    Proc.Twin
      (if q.state = .sleeping ∧ q.chan = some chan then { q with state := .runnable, chan := none }
        else q)
      (if q'.state = .sleeping ∧ q'.chan = some chan
        then { q' with state := .runnable, chan := none } else q') := by
  rw [h.state, h.chan]
  split
  · next hasleep =>
    exact { h with
      state := rfl
      chan := rfl
      live := fun _ => h.live (by simp [ProcState.Live, hasleep.1])
      zombie := fun hz => nomatch hz }
  · exact h

theorem exitProcess (h : Twin lay P s t) (status : ℤ) (hp : (s.proc p).state.Live) :
    Twin lay P (s.exitProcess p status) (t.exitProcess p status) := by
  have hq := h.slot p
  have hzombie : ∀ j,
      ((s.modProc p fun q => { q with exitCode := status, state := .zombie }).proc j).Twin
        ((t.modProc p fun q => { q with exitCode := status, state := .zombie }).proc j) :=
    h.modSlot { hq with state := rfl, live := fun _ => hq.live hp, zombie := fun _ => rfl }
  have hkept := kept_exitProcess status hp
  cases hparent : (s.proc p).parent with
  | none =>
    rw [exitProcess_orphan status hparent] at hkept ⊢
    rw [exitProcess_orphan status (hq.parent.trans hparent)]
    exact h.table rfl rfl hzombie h.nextpid rfl (fun _ hq => nomatch hq) hkept
  | some parent =>
    rw [exitProcess_child status hparent] at hkept ⊢
    rw [exitProcess_child status (hq.parent.trans hparent)]
    exact h.table rfl rfl (fun j => wakeupSlot (hzombie j)) h.nextpid rfl
      (fun _ hq => nomatch hq) hkept

theorem kill (h : Twin lay P s t) (pid : ℤ) :
    (t.kill pid).1 = (s.kill pid).1 ∧ Twin lay P (s.kill pid).2 (t.kill pid).2 := by
  have hfind : ((List.finRange nproc).find? fun i => (t.proc i).pid = pid) =
      (List.finRange nproc).find? fun i => (s.proc i).pid = pid := by
    congr 1
    funext i
    rw [(h.slot i).pid]
  have hrun := h.running.kill pid
  have hkept := kept_kill (s := s) pid
  cases hi : (List.finRange nproc).find? fun i => (s.proc i).pid = pid with
  | none =>
    rw [kill_not_found hi, kill_not_found (hfind.trans hi)]
    exact ⟨rfl, h⟩
  | some i =>
    rw [kill_found hi] at hrun hkept ⊢
    rw [kill_found (hfind.trans hi)]
    have hq := h.slot i
    refine ⟨rfl, h.table rfl rfl (h.modSlot ?_) h.nextpid h.cur hrun hkept⟩
    exact { hq with
      state := by simp only [killSlot, hq.state]
      live := fun hl => ⟨rfl, (hq.live ((killSlot_live _).mp hl)).2⟩
      zombie := fun hz => hq.zombie (by
        by_cases hs : (s.proc i).state = .sleeping
        · simp [killSlot, hs] at hz
        · simpa [killSlot, hs] using hz) }

theorem woken (h : Twin lay P s t) (hp : (s.proc p).state = .runnable) :
    Twin lay P (s.woken p) (t.woken p) := by
  refine h.table rfl rfl (fun j => ?_) h.nextpid rfl running_woken (kept_woken hp)
  have hq := h.slot p
  by_cases hj : j = p
  · subst hj
    rw [woken_self, woken_self]
    exact { hq with
      state := rfl
      chan := rfl
      live := fun _ => hq.live (by simp [ProcState.Live, hp])
      zombie := fun hz => nomatch hz }
  · rw [woken_of_ne hj, woken_of_ne hj]
    exact h.slot j

/-! ### `wait_process` -/

theorem zombieChild (h : Twin lay P s t) : t.zombieChild p = s.zombieChild p :=
  zombieChild_congr fun i => ⟨(h.slot i).parent, by rw [(h.slot i).state]⟩

theorem reap (h : Twin lay P s t) (hi : (s.proc i).state = .zombie) :
    Twin lay P (s.reap i) (t.reap i) := by
  obtain ⟨own, free, hown, hP, hframed⟩ := h.owned
  have hstack := ((hframed i).live (by simp [ProcState.Live, hi])).1
  have hfreed := hown.freePage (by simp [hstack, Owned.Plain]) (by simp [hstack])
    (hown.range _ _ hstack) lay.kend_pos
  -- only slot `i` points to the page, and only with `kstack`
  have hkeep : ∀ pa r, own pa = some r → r ≠ .kstack i →
      Function.update own (s.proc i).kstack (some .free) pa = some r := by
    intro pa r hpa hr
    rw [Function.update_of_ne, hpa]
    rintro rfl
    exact hr (Option.some.inj (hpa.symm.trans hstack))
  have hframe : ∀ j, Function.update own (s.proc i).kstack (some .free) (s.proc j).trapframe = none ∨
      Function.update own (s.proc i).kstack (some .free) (s.proc j).trapframe =
        some (.trapframe j) := by
    intro j
    obtain hnone | htf := (hframed j).frame
    · refine .inl ?_
      rw [Function.update_of_ne, hnone]
      rintro heq
      rw [heq, hstack] at hnone
      cases hnone
    · exact .inr (hkeep _ _ htf (by simp))
  refine ⟨fun j => ?_, h.nextpid, h.cur, ?_, ?_, _, _, hfreed, ?_, fun j => ?_⟩
  · by_cases hj : j = i
    · subst hj
      rw [reap_self, reap_self]
      exact { h.slot j with
        state := rfl
        pid := rfl
        kstack := rfl
        parent := rfl
        live := fun hl => absurd rfl hl.1
        zombie := fun hz => by cases hz }
    · rw [reap_of_ne hj, reap_of_ne hj]
      exact h.slot j
  · simp only [Procs.reap, Procs.modProc, setProc_phys, setPhys_phys, (h.slot i).kstack]
    exact h.phys.freePage (hP _ (by simp [hstack]))
  · intro q hq
    have hq' := h.running q hq
    have hqi : q ≠ i := by
      rintro rfl
      simp [hi] at hq'
    rwa [reap_of_ne hqi]
  · intro pa hpa
    by_cases hpa' : pa = (s.proc i).kstack
    · exact hP pa (by simp [hpa', hstack])
    · exact hP pa (by rwa [Function.update_of_ne hpa'] at hpa)
  · by_cases hj : j = i
    · subst hj
      rw [reap_self]
      exact ⟨(hframed j).range, fun hl => absurd rfl hl.1, hframe j⟩
    · rw [reap_of_ne hj]
      refine ⟨(hframed j).range, fun hl => ?_, hframe j⟩
      obtain ⟨hk, hp, ht⟩ := (hframed j).live hl
      exact ⟨hkeep _ _ hk (by simpa using hj), hkeep _ _ hp (by simp), hkeep _ _ ht (by simp)⟩

theorem waitProcess (h : Twin lay P s t) (hp : (s.proc p).state.Live) :
    (t.waitProcess p).1 = (s.waitProcess p).1 ∧
      Twin lay P (s.waitProcess p).2 (t.waitProcess p).2 := by
  obtain ⟨i, hi, hw⟩ | ⟨hz, ⟨i, hi⟩, hw⟩ | ⟨hnone, hw⟩ := waitProcess_cases s p
  · have hi' : t.zombieChild p = some i := h.zombieChild.trans hi
    have hstate := (zombieChild_spec hi).2
    rw [hw, waitProcess_reap hi', (h.slot i).pid, (h.slot i).zombie hstate]
    exact ⟨rfl, h.reap hstate⟩
  · rw [hw, waitProcess_sleep (h.zombieChild.trans hz) ((h.slot i).parent.trans hi)]
    exact ⟨rfl, h.sleep p hp⟩
  · rw [hw, waitProcess_childless fun i => by rw [(h.slot i).parent]; exact hnone i]
    exact ⟨rfl, h⟩

/-! ### `fork` and `sbrk` -/

/-- Both calls return the same and leave twins. -/
def Both (lay : Layout) (P : ℕ → Prop) {α : Type} (x y : α × Procs) : Prop :=
  y.1 = x.1 ∧ Twin lay P x.2 y.2

theorem firstUnused (h : Twin lay P s t) : t.firstUnused = s.firstUnused := by
  unfold Procs.firstUnused
  congr 1
  funext i
  rw [(h.slot i).state]

theorem enter {f : Forked} {c : Fin nproc} {m' n' : Phys} (h : Twin lay P s t)
    (hc : (s.proc c).state = .unused) (hkilled : (t.proc c).killed = (s.proc c).killed)
    (hofile : (t.proc c).ofile = (s.proc c).ofile) (hagree : Agree P m' n')
    (hf : ∃ fuel, s.phys.forkPages lay fuel (s.proc p) = some (f, m')) :
    Twin lay P (s.enter c (f.proc p (s.proc p) (s.proc c) s.nextpid) m')
      (t.enter c (f.proc p (t.proc p) (t.proc c) t.nextpid) n') := by
  obtain ⟨own, free, hown, hP, hframed⟩ := h.owned
  obtain ⟨fuel, hf⟩ := hf
  obtain ⟨own', free', hown', hext, hforked⟩ := hown.forkPages (i := c) hf
  refine ⟨fun j => ?_, by simp only [Procs.enter, h.nextpid], h.cur, hagree, h.running.enter hc,
    own', free', hown', fun pa hpa => hP pa (hext.of_ne_none hpa), fun j => ?_⟩
  · by_cases hj : j = c
    · subst hj
      rw [enter_self, enter_self, h.nextpid]
      exact (h.slot j).forked (h.slot p).sz hkilled hofile
    · rw [enter_of_ne _ _ hj, enter_of_ne _ _ hj]
      exact h.slot j
  · by_cases hj : j = c
    · subst hj
      rw [enter_self]
      exact ((hframed j).mono hext).forked hown' lay.kend_pos hforked
    · rw [enter_of_ne _ _ hj]
      exact (hframed j).mono hext

/-- `fork` in twins, where the slot it fills was left with the same flag and files. -/
theorem fork (h : Twin lay P s t) (hkernel : ∀ pa, pa < lay.kend → P pa) (fuel : ℕ)
    (hp : s.cur = some p)
    (hleft : ∀ c, s.firstUnused = some c →
      (t.proc c).killed = (s.proc c).killed ∧ (t.proc c).ofile = (s.proc c).ofile) :
    Option.Rel (Both lay P) (s.fork lay fuel p) (t.fork lay fuel p) := by
  cases hc : s.firstUnused with
  | none =>
    rw [fork_none fuel hc, fork_none fuel (h.firstUnused.trans hc)]
    exact .some ⟨rfl, h⟩
  | some c =>
    have hunused := firstUnused_unused hc
    have hpc : p ≠ c := by
      rintro rfl
      exact (h.live hp).1 hunused
    obtain ⟨own, free, hown, hP, hframed⟩ := h.owned
    obtain ⟨-, hroot, hframe⟩ := (hframed p).live (h.live hp)
    have hsame := h.phys.forkPages fuel hown hP hkernel hroot
      (by simp [hframe]) (h.slot p).pagetable (h.slot p).sz (h.slot p).trapframe
    obtain ⟨hkilled, hofile⟩ := hleft c hc
    rw [fork_eq fuel hc hpc, fork_eq fuel (h.firstUnused.trans hc) hpc]
    refine hsame.rel_map fun f m' n' hf hagree => ⟨?_, ?_⟩
    · simp only [h.nextpid]
    · exact h.enter hunused hkilled hofile hagree ⟨fuel, hf⟩

theorem sbrk (h : Twin lay P s t) (fuel : ℕ) (n : ℤ) (hp : s.cur = some p) :
    Option.Rel (Both lay P) (s.sbrk fuel p n) (t.sbrk fuel p n) := by
  obtain ⟨own, free, hown, hP, hframed⟩ := h.owned
  obtain ⟨-, hroot, -⟩ := (hframed p).live (h.live hp)
  have hq := h.slot p
  unfold Procs.sbrk
  rw [hq.sz, hq.pagetable]
  have hsame : Same P
      (if n > 0 then growPages (s.proc p).pagetable ((s.proc p).sz + BitVec.ofInt 64 n) fuel
        (pgroundup (s.proc p).sz) s.phys else some (true, s.phys))
      (if n > 0 then growPages (s.proc p).pagetable ((s.proc p).sz + BitVec.ofInt 64 n) fuel
        (pgroundup (s.proc p).sz) t.phys else some (true, t.phys)) := by
    split
    · exact h.phys.growPages hown hP hroot
    · exact .some h.phys
  refine hsame.rel fun ok m' n' hgrow hagree => ?_
  have hmem : Twin lay P (s.setPhys m') (t.setPhys n') := by
    refine h.memory hagree fun own free hown hframed => ?_
    split at hgrow
    · exact hown.growPages lay.kend_pos ((hframed p).live (h.live hp)).2.1 hgrow
    · obtain ⟨-, rfl⟩ := by simpa using hgrow
      exact ⟨own, free, hown, .refl own⟩
  cases ok
  · exact .some ⟨rfl, hmem⟩
  · let grow (q : Proc) : Proc := { q with sz := (s.proc p).sz + BitVec.ofInt 64 n }
    refine .some ⟨rfl, hmem.modProc (f := grow) (g := grow) ?_ ⟨rfl, rfl, rfl, rfl, rfl, Iff.rfl⟩
      (hmem.running.modProc fun q hq => hq)⟩
    exact { hq with sz := rfl, live := hq.live, zombie := hq.zombie }

end Twin

end RiscvOs
