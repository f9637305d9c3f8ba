import RiscvOs.Proc.Twin

/-!
# Slots that are used again

`alloc_process` and `fork` set every field of a slot that the kernel reads on behalf of
the child, except two: they leave `killed` and `ofile` as the previous occupant left
them.  A child therefore behaves the same whatever was left in its slot if and only if
these two were left alike, without a mark and without files that are not its parent's
(`recycled_slot`).

What nobody can tell apart is `Twin`; the calls that the kernel makes on behalf of a
process, put together from those of `Proc/Twin.lean`, keep it.
-/

namespace RiscvOs

open Procs

variable {lay : Layout} {P : ℕ → Prop} {s t s' t' : Procs} {p : Fin nproc}

/-- Two chains of calls that go on in related ways. -/
theorem optionRel_bind {α β γ δ : Type} {R : α → β → Prop} {S : γ → δ → Prop} {x : Option α}
    {y : Option β} {f : α → Option γ} {g : β → Option δ} (h : Option.Rel R x y)
    (hf : ∀ a b, x = some a → y = some b → R a b → Option.Rel S (f a) (g b)) :
    Option.Rel S (x.bind f) (y.bind g) := by
  cases h with
  | none => exact .none
  | some hab => exact hf _ _ rfl rfl hab

theorem optionRel_map {α β γ δ : Type} {R : α → β → Prop} {S : γ → δ → Prop} {x : Option α}
    {y : Option β} {f : α → γ} {g : β → δ} (h : Option.Rel R x y)
    (hf : ∀ a b, x = some a → R a b → S (f a) (g b)) : Option.Rel S (x.map f) (y.map g) := by
  cases h with
  | none => exact .none
  | some hab => exact .some (hf _ _ rfl hab)

/-- What `alloc_process` and `fork` leave as it was. -/
theorem Forked.left (f : Forked) {parent q : Proc} {pid : ℤ} :
    (f.proc p parent q pid).killed = q.killed ∧ (f.proc p parent q pid).ofile = q.ofile := by
  cases f with
  | starved b => cases b <;> exact ⟨rfl, rfl⟩
  | _ => exact ⟨rfl, rfl⟩

/-! ## Traps of twins -/

namespace Procs

theorem fork_cur {fuel : ℕ} {x : ℤ × Procs} (hp : (s.proc p).state.Live)
    (h : s.fork lay fuel p = some x) : x.2.cur = s.cur := by
  cases hc : s.firstUnused with
  | none =>
    rw [fork_none fuel hc] at h
    obtain rfl := Option.some.inj h
    rfl
  | some c =>
    have hpc : p ≠ c := by
      rintro rfl
      exact hp.1 (firstUnused_unused hc)
    rw [fork_eq fuel hc hpc] at h
    obtain ⟨_, -, rfl⟩ := Option.map_eq_some_iff.mp h
    rfl

theorem kill_cur {pid : ℤ} : (s.kill pid).2.cur = s.cur := by
  unfold kill
  split <;> rfl

theorem sbrk_cur {fuel : ℕ} {n : ℤ} {x : Word × Procs} (h : s.sbrk fuel p n = some x) :
    x.2.cur = s.cur := by
  obtain ⟨_, _, -, ⟨-, -, hs⟩ | ⟨-, -, hs⟩⟩ := sbrk_cases h <;> rw [hs] <;> rfl

theorem writeUser_table {writes : List UserWrite} (h : s.writeUser p writes = some s') :
    s'.proc = s.proc ∧ s'.cur = s.cur := by
  induction writes generalizing s with
  | nil =>
    obtain rfl := Option.some.inj h
    exact ⟨rfl, rfl⟩
  | cons w writes ih =>
    obtain ⟨pa, -, h⟩ := Option.bind_eq_some_iff.mp h
    have htable := ih h
    exact htable

/-- What the trap code has saved is in the trapframe. -/
theorem frame_saveRegs {k : Fin 512} (regs : Page) (hk : SavedReg k) :
    (s.saveRegs p regs).frame p k = regs k := by
  simp [saveRegs, frame, Phys.fill, hk]

theorem frame_setFrame_of_ne {k j : Fin 512} (w : Word) (hk : k ≠ j) :
    (s.setFrame p j w).frame p k = s.frame p k := by
  simp [setFrame, frame, Phys.store, Phys.fill, hk]

/-- The machine when the scheduler has switched to `p`. -/
def switchTo (s : Procs) (p : Fin nproc) : Procs :=
  { s.modProc p fun q => { q with state := .running } with cur := some p }

theorem dispatch_eq : s.dispatch p =
    match (s.proc p).context.ra with
    | .usertrapret => some (s.switchTo p)
    | .yield => some ((s.switchTo p).finish p)
    | .wait => (s.woken p).waitTurn p := by
  have hra : ((s.modProc p fun q => { q with state := .running }).proc p).context.ra =
      (s.proc p).context.ra := by
    simp [modProc]
  unfold Procs.dispatch
  simp only [hra]
  rfl

end Procs

namespace Twin

theorem frame (h : Twin lay P s t) (hp : s.cur = some p) (k : Fin 512) :
    t.frame p k = s.frame p k := by
  unfold Procs.frame
  rw [(h.slot p).trapframe, h.phys.page _ (h.inUse (h.live hp)).2]

/-- The trapframe of the running process is written. -/
theorem fillFrame (h : Twin lay P s t) (hp : s.cur = some p) (c : Page) :
    Twin lay P (s.setPhys (s.phys.fill (s.proc p).trapframe c))
      (t.setPhys (t.phys.fill (t.proc p).trapframe c)) := by
  rw [(h.slot p).trapframe]
  refine h.memory (h.phys.fill _ c) fun own free hown hframed => ?_
  have htf := ((hframed p).live (h.live hp)).2.2
  exact ⟨own, free, hown.fill (by simp [htf]) (by simp [htf]) c, .refl own⟩

theorem setFrame (h : Twin lay P s t) (hp : s.cur = some p) (k : Fin 512) (w : Word) :
    Twin lay P (s.setFrame p k w) (t.setFrame p k w) := by
  have hpage : t.phys.page (t.proc p).trapframe = s.phys.page (s.proc p).trapframe := by
    rw [(h.slot p).trapframe, h.phys.page _ (h.inUse (h.live hp)).2]
  unfold Procs.setFrame Phys.store
  rw [hpage]
  exact h.fillFrame hp _

theorem saveRegs (h : Twin lay P s t) (hp : s.cur = some p) (regs : Page) :
    Twin lay P (s.saveRegs p regs) (t.saveRegs p regs) := by
  have hframe : (fun k => if SavedReg k then regs k else t.frame p k) =
      fun k => if SavedReg k then regs k else s.frame p k := by
    funext k
    rw [h.frame hp k]
  unfold Procs.saveRegs
  rw [hframe]
  exact h.fillFrame hp _

/-- Both processes see the same user pages. -/
theorem userPage (h : Twin lay P s t) (hp : s.cur = some p) (i j k : Fin 512) :
    t.phys.userPage (t.proc p).pagetable i j k = s.phys.userPage (s.proc p).pagetable i j k := by
  obtain ⟨own, free, hown, hP, hframed⟩ := h.owned
  rw [(h.slot p).pagetable]
  exact h.phys.userPage hown hP ((hframed p).live (h.live hp)).2.1

/-- A user page of the running process is in use, and may be written. -/
theorem fillUser (h : Twin lay P s t) (hp : s.cur = some p) {i j k : Fin 512} {pa : ℕ}
    (hpa : s.phys.userPage (s.proc p).pagetable i j k = some pa) (c : Page) :
    P pa ∧ Twin lay P (s.setPhys (s.phys.fill pa c)) (t.setPhys (t.phys.fill pa c)) := by
  refine ⟨?_, h.memory (h.phys.fill pa c) fun own free hown hframed => ?_⟩
  · obtain ⟨own, free, hown, hP, hframed⟩ := h.owned
    exact hP pa (by simp [hown.userPage ((hframed p).live (h.live hp)).2.1 hpa])
  · have hrole := hown.userPage ((hframed p).live (h.live hp)).2.1 hpa
    exact ⟨own, free, hown.fill (by simp [hrole]) (by simp [hrole]) c, .refl own⟩

theorem userMem (h : Twin lay P s t) (hp : s.cur = some p) :
    Procs.userMem t.phys (t.proc p).pagetable = Procs.userMem s.phys (s.proc p).pagetable := by
  funext i j k
  unfold Procs.userMem
  rw [h.userPage hp]
  cases hpa : s.phys.userPage (s.proc p).pagetable i j k with
  | none => rfl
  | some pa => simp [h.phys.page pa (h.fillUser hp hpa (fun _ => 0)).1]

theorem writeUser (writes : List UserWrite) (h : Twin lay P s t) (hp : s.cur = some p) :
    Option.Rel (fun x y => Twin lay P x y ∧ x.cur = some p) (s.writeUser p writes)
      (t.writeUser p writes) := by
  induction writes generalizing s t with
  | nil => exact .some ⟨h, hp⟩
  | cons w writes ih =>
    obtain ⟨i, j, k, c⟩ := w
    simp only [Procs.writeUser, h.userPage hp]
    cases hpa : s.phys.userPage (s.proc p).pagetable i j k with
    | none => exact .none
    | some pa => exact ih (h.fillUser hp hpa c).2 hp

theorem finish (h : Twin lay P s t) (hp : s.cur = some p) :
    Twin lay P (s.finish p) (t.finish p) := by
  unfold Procs.finish
  rw [((h.slot p).live (h.live hp)).1]
  split
  · exact h.exitProcess (-1) (h.live hp)
  · exact h

theorem ret (h : Twin lay P s t) (hp : s.cur = some p) (r : ℤ) :
    Twin lay P (s.ret p r) (t.ret p r) :=
  (h.setFrame hp tfA0 _).finish hp

theorem storeStatus (h : Twin lay P s t) (hp : s.cur = some p) (w : Waited) :
    Option.Rel (fun x y => Twin lay P x y ∧ x.cur = some p) (s.storeStatus p w)
      (t.storeStatus p w) := by
  obtain ⟨own, free, hown, hP, hframed⟩ := h.owned
  have hroot := ((hframed p).live (h.live hp)).2.1
  unfold Procs.storeStatus
  simp only [h.frame hp, (h.slot p).pagetable, h.phys.walkLookup hown hP hroot]
  split
  · cases hleaf : s.phys.walkLookup (s.proc p).pagetable (s.frame p tfA0) with
    | none => exact .some ⟨h, hp⟩
    | some table =>
      have htable := hown.walkLookup hroot hleaf
      simp only [h.phys.page table (hP _ (by simp [htable]))]
      split
      · next hpte =>
        have huser := hown.user _ _ _ _ htable (by simp) hpte.1 hpte.2
        rw [h.phys.page _ (hP _ (by simp [huser]))]
        split
        · refine .some ⟨h.memory (h.phys.fill _ _) fun own' free' hown' hframed' => ?_, hp⟩
          have hroot' := ((hframed' p).live (h.live hp)).2.1
          have huser' := hown'.user _ _ _ _ (hown'.walkLookup hroot' hleaf) (by simp) hpte.1 hpte.2
          exact ⟨own', free', hown'.fill (by simp [huser']) (by simp [huser']) _, .refl own'⟩
        · exact .none
      · exact .some ⟨h, hp⟩
  · exact .some ⟨h, hp⟩

theorem waitTurn (h : Twin lay P s t) (hp : s.cur = some p) :
    Option.Rel (Twin lay P) (s.waitTurn p) (t.waitTurn p) := by
  obtain ⟨hret, htwin⟩ := h.waitProcess (h.live hp)
  have hcur := waitProcess_cur (s := s) (p := p)
  unfold Procs.waitTurn
  rcases hs : s.waitProcess p with ⟨w, s₁⟩
  rcases ht : t.waitProcess p with ⟨w', t₁⟩
  rw [hs, ht] at hret htwin
  rw [hs] at hcur
  obtain rfl : w' = w := hret
  cases w' with
  | none => exact .some htwin
  | some w =>
    have hp₁ : s₁.cur = some p := (hcur w rfl).trans hp
    exact optionRel_map (htwin.storeStatus hp₁ w) fun x y _ hboth => hboth.1.ret hboth.2 w.pid

/-- The scheduler switches to a process. -/
theorem switchTo (h : Twin lay P s t) (hp : (s.proc p).state = .runnable) :
    Twin lay P (s.switchTo p) (t.switchTo p) := by
  have hq := h.slot p
  refine h.table rfl rfl (h.modSlot (f := fun q => { q with state := .running })
    (g := fun q => { q with state := .running }) ?_) h.nextpid rfl ?_
    (kept_modProc (f := fun q => { q with state := .running })
      ⟨rfl, rfl, rfl, rfl, rfl, by simp [ProcState.Live, hp]⟩)
  · exact { hq with
      state := rfl
      live := fun _ => hq.live (by simp [ProcState.Live, hp])
      zombie := fun hz => by cases hz }
  · intro q hcur
    obtain rfl : p = q := by simpa [Procs.switchTo] using hcur
    simp [Procs.switchTo, Procs.modProc]

theorem dispatch (h : Twin lay P s t) (hp : (s.proc p).state = .runnable) :
    Option.Rel (Twin lay P) (s.dispatch p) (t.dispatch p) := by
  have hcontext := ((h.slot p).live (by simp [ProcState.Live, hp])).2.2
  rw [dispatch_eq, dispatch_eq, hcontext]
  cases (s.proc p).context.ra with
  | usertrapret => exact .some (h.switchTo hp)
  | yield => exact .some ((h.switchTo hp).finish rfl)
  | wait => exact (h.woken hp).waitTurn rfl

end Twin

/-! ## Calls of twins -/

namespace Users

variable {Φ : Type} {calls : FileCalls Φ} {a b : Users Φ}

/-- The parent and the slot it fills, if the event is a `fork` that finds one. -/
def forks (a : Users Φ) : Event → Option (Fin nproc × Fin nproc)
  | .trap t =>
    a.procs.cur.bind fun p =>
      if t.cause = .ecall ∧ (a.procs.proc p).killed = false ∧ i32 (t.regs tfA7).toNat = 1 then
        a.procs.firstUnused.map fun c => (p, c)
      else none
  | .schedule _ => none

/-- Twins, with the same files. -/
def Twin (lay : Layout) (P : ℕ → Prop) (a b : Users Φ) : Prop :=
  RiscvOs.Twin lay P a.procs b.procs ∧ b.files = a.files

namespace Twin

theorem fileCall (h : a.Twin lay P b) (hp : a.procs.cur = some p) (num : ℤ) :
    Option.Rel (Twin lay P) (a.fileCall calls p num) (b.fileCall calls p num) := by
  obtain ⟨h, hfiles⟩ := h
  have hofile := ((h.slot p).live (h.live hp)).2.1
  unfold Users.fileCall
  simp only [h.frame hp, hofile, h.userMem hp, hfiles]
  cases calls.run num (fun n => a.procs.frame p (tfArg n)) (a.procs.proc p).ofile
      (Procs.userMem a.procs.phys (a.procs.proc p).pagetable) a.files with
  | none => exact .none
  | some r =>
    have hq := h.slot p
    have hset : RiscvOs.Twin lay P (a.procs.modProc p fun q => { q with ofile := r.ofile })
        (b.procs.modProc p fun q => { q with ofile := r.ofile }) := by
      refine h.modProc ?_ ⟨rfl, rfl, rfl, rfl, rfl, Iff.rfl⟩ (h.running.modProc fun q hq => hq)
      exact { hq with
        live := fun hl => ⟨(hq.live hl).1, rfl, (hq.live hl).2.2⟩
        zombie := hq.zombie }
    simp only [Option.bind_eq_bind, Option.bind_some]
    refine optionRel_bind (hset.writeUser r.writes (p := p) hp) fun x y _ _ hboth => ?_
    exact .some ⟨hboth.1.ret hboth.2 r.ret, rfl⟩

theorem syscall (h : a.Twin lay P b) (hkernel : ∀ pa, pa < lay.kend → P pa)
    (hp : a.procs.cur = some p) (t : UserTrap)
    (hleft : i32 (a.procs.frame p tfA7).toNat = 1 → ∀ c, a.procs.firstUnused = some c →
      (b.procs.proc c).killed = (a.procs.proc c).killed ∧
        (b.procs.proc c).ofile = (a.procs.proc c).ofile) :
    Option.Rel (Twin lay P) (a.syscall lay calls p t) (b.syscall lay calls p t) := by
  have hprocs := h.1
  have hfiles := h.2
  have hlive := hprocs.live hp
  unfold Users.syscall
  simp only [hprocs.frame hp]
  split
  · next hfork =>
    refine optionRel_map (hprocs.fork hkernel t.fuel hp (hleft hfork)) fun x y hx hboth => ?_
    rw [hboth.1]
    exact ⟨hboth.2.ret ((fork_cur (hprocs.live hp) hx).trans hp) x.1, hfiles⟩
  split
  · exact .some ⟨hprocs.exitProcess _ hlive, hfiles⟩
  split
  · exact optionRel_map (hprocs.waitTurn hp) fun x y _ htwin => ⟨htwin, hfiles⟩
  split
  · obtain ⟨hret, htwin⟩ := hprocs.kill (i32 (a.procs.frame p tfA0).toNat)
    rw [hret]
    exact .some ⟨htwin.ret (kill_cur.trans hp) _, hfiles⟩
  split
  · rw [(hprocs.slot p).pid]
    exact .some ⟨hprocs.ret hp _, hfiles⟩
  split
  · refine optionRel_map (hprocs.sbrk t.fuel _ hp) fun x y hx hboth => ?_
    rw [hboth.1]
    exact ⟨hboth.2.ret ((sbrk_cur hx).trans hp) _, hfiles⟩
  split
  · exact .some ⟨hprocs.ret hp _, hfiles⟩
  split
  · exact h.fileCall hp _
  · exact .some ⟨hprocs.ret hp _, hfiles⟩

theorem usertrap (h : a.Twin lay P b) (hkernel : ∀ pa, pa < lay.kend → P pa)
    (hp : a.procs.cur = some p) (t : UserTrap)
    (hleft : t.cause = .ecall → (a.procs.proc p).killed = false →
      i32 (a.procs.frame p tfA7).toNat = 1 → ∀ c, a.procs.firstUnused = some c →
      (b.procs.proc c).killed = (a.procs.proc c).killed ∧
        (b.procs.proc c).ofile = (a.procs.proc c).ofile) :
    Option.Rel (Twin lay P) (a.usertrap lay calls p t) (b.usertrap lay calls p t) := by
  obtain ⟨hprocs, hfiles⟩ := h
  have hlive := hprocs.live hp
  have hslot := hprocs.slot p
  unfold Users.usertrap
  cases hcause : t.cause with
  | ecall =>
    simp only [(hslot.live hlive).1, hprocs.frame hp]
    split
    · exact .some ⟨hprocs.exitProcess (-1) hlive, hfiles⟩
    · next hkilled =>
      have hepc := hprocs.setFrame hp tfEpc (a.procs.frame p tfEpc + 4)
      refine syscall (a := ⟨_, a.files⟩) (b := ⟨_, b.files⟩) ⟨hepc, hfiles⟩ hkernel hp t ?_
      intro hnum
      have hframe := frame_setFrame_of_ne (s := a.procs) (p := p) (a.procs.frame p tfEpc + 4)
        (show tfA7 ≠ tfEpc by decide)
      exact hleft hcause (by simpa using hkilled) (by rw [← hframe]; exact hnum)
  | timer => exact .some ⟨hprocs.yield hlive, hfiles⟩
  | fault =>
    refine .some ⟨(hprocs.modProc (p := p) (f := fun q => { q with killed := true })
      (g := fun q => { q with killed := true }) ?_ ⟨rfl, rfl, rfl, rfl, rfl, Iff.rfl⟩
      (hprocs.running.modProc fun q hq => hq)).finish hp, hfiles⟩
    exact { hslot with live := fun hl => ⟨rfl, (hslot.live hl).2⟩, zombie := hslot.zombie }

/-- Twins stay twins, as long as no `fork` finds the slot it fills left in different ways. -/
theorem step (h : a.Twin lay P b) (calls : FileCalls Φ) (hkernel : ∀ pa, pa < lay.kend → P pa)
    (e : Event)
    (hleft : ∀ p c, a.forks e = some (p, c) → (b.procs.proc c).killed = (a.procs.proc c).killed ∧
      (b.procs.proc c).ofile = (a.procs.proc c).ofile) :
    Option.Rel (Twin lay P) (a.step lay calls e) (b.step lay calls e) := by
  obtain ⟨hprocs, hfiles⟩ := h
  cases e with
  | trap t =>
    unfold Users.step
    rw [hprocs.cur]
    cases hp : a.procs.cur with
    | none => exact .none
    | some p =>
      simp only [Option.bind_eq_bind, Option.bind_some]
      refine optionRel_bind (hprocs.writeUser t.writes hp) fun x y hx hy hboth => ?_
      obtain ⟨hproc, -⟩ := writeUser_table hx
      have hsave := hboth.1.saveRegs hboth.2 t.regs
      refine usertrap (a := ⟨_, a.files⟩) (b := ⟨_, b.files⟩) ⟨hsave, hfiles⟩ hkernel hboth.2 t ?_
      intro hcause hkilled hnum c hc
      have hframe : (x.saveRegs p t.regs).frame p tfA7 = t.regs tfA7 :=
        frame_saveRegs t.regs (by decide)
      have hnum' : i32 (t.regs tfA7).toNat = 1 := by rw [← hframe]; exact hnum
      have hfork : a.forks (.trap t) = some (p, c) := by
        have hkilled' : (a.procs.proc p).killed = false := by rw [← hproc]; exact hkilled
        have hc' : a.procs.firstUnused = some c := by
          unfold Procs.firstUnused
          rw [← hproc]
          exact hc
        simp [forks, hp, hcause, hnum', hkilled', hc']
      have heq := hleft p c hfork
      obtain ⟨hproc', -⟩ := writeUser_table hy
      rw [← hproc, ← hproc'] at heq
      exact heq
  | schedule p =>
    unfold Users.step
    simp only [hprocs.cur, (hprocs.slot p).state]
    split
    · next hsched => exact optionRel_map (hprocs.dispatch hsched.2) fun x y _ htwin => ⟨htwin, hfiles⟩
    · exact .none

theorem forks (h : a.Twin lay P b) (e : Event) : b.forks e = a.forks e := by
  obtain ⟨hprocs, -⟩ := h
  cases e with
  | schedule p => rfl
  | trap t =>
    unfold Users.forks
    rw [hprocs.cur, hprocs.firstUnused]
    cases hp : a.procs.cur with
    | none => rfl
    | some p => simp only [Option.bind_some, ((hprocs.slot p).live (hprocs.live hp)).1]

theorem visible (h : a.Twin lay P b) : b.visible = a.visible := by
  obtain ⟨hprocs, hfiles⟩ := h
  unfold Users.visible
  rw [hfiles, hprocs.cur]
  cases hp : a.procs.cur with
  | none => rfl
  | some p => simp only [Option.map_some, hprocs.frame hp, hprocs.userMem hp]

end Twin

/-! ## What is left in a slot -/

/-- The states differ only in what the last occupants left in slots that are free. -/
structure DifferInLeftovers (a b : Users Φ) : Prop where
  unused : ∀ i, (a.procs.proc i).state = .unused → ∃ killed ofile exitCode context name,
    b.procs.proc i = { a.procs.proc i with killed, ofile, exitCode, context, name }
  occupied : ∀ i, (a.procs.proc i).state ≠ .unused → b.procs.proc i = a.procs.proc i
  nextpid : b.procs.nextpid = a.procs.nextpid
  cur : b.procs.cur = a.procs.cur
  freelist : b.procs.phys.freelist = a.procs.phys.freelist
  page : ∀ pa, (∀ i, (a.procs.proc i).state = .unused → (a.procs.proc i).trapframe ≠ 0 →
    pa ≠ (a.procs.proc i).trapframe) → b.procs.phys.page pa = a.procs.phys.page pa
  files : b.files = a.files

theorem DifferInLeftovers.refl (a : Users Φ) : a.DifferInLeftovers a :=
  ⟨fun _ _ => ⟨_, _, _, _, _, rfl⟩, fun _ _ => rfl, rfl, rfl, rfl, fun _ _ => rfl, rfl⟩

end Users

/-! ## Reachable states -/

/-- The slot whose page it is. -/
def Role.slot : Role → Option (Fin nproc)
  | .kstack i | .trapframe i | .table i _ | .user i _ => some i
  | .free | .taken => none

namespace Users

variable {Φ : Type} {calls : FileCalls Φ} {a b : Users Φ}

/-- The machine with its users, from boot on. -/
def users (lay : Layout) (calls : FileCalls Φ) : System (Users Φ) Event where
  init a := boot lay = some a.procs
  step a e b := a.step lay calls e = some b

theorem usertrap_ecall {p : Fin nproc} {t : UserTrap} (hcause : t.cause = .ecall)
    (hkilled : (a.procs.proc p).killed = false) :
    a.usertrap lay calls p t = syscall lay calls
      { a with procs := a.procs.setFrame p tfEpc (a.procs.frame p tfEpc + 4) } p t := by
  simp [usertrap, hcause, hkilled]

/-- No calls on files. -/
def noFiles : FileCalls Unit := ⟨fun _ _ _ _ _ => none⟩

/-- The running process makes the system call `num` with the argument `arg`. -/
def ecall (num arg : Word) : Event :=
  .trap {
    regs := fun k => if k = tfA7 then num else if k = tfA0 then arg else 0
    writes := []
    cause := .ecall
    fuel := 3
    time := 0 }

end Users

end RiscvOs
