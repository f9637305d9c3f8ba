import RiscvOs.Proc.Pages

/-!
# Pages that do not come back

`wait_process` frees the kernel stack of the child it reaps, and nothing else.  The root
of the child's page table was taken off the free list by `fork` (`tableRoot_mem`), and a
page that has become a table stays one in every step (`Isolated.step`); so it is never on
the free list again, whatever the child and everybody else do (`reap_leaks`).
-/

namespace RiscvOs

open LinkedList Procs

variable {lay : Layout} {own : ℕ → Option Role} {m m' : Phys} {free : List ℕ} {s s' : Procs}
  {p c : Fin nproc}

/-- The pages on the free list. -/
def freePages (s : Procs) : Set ℕ :=
  { pa | ∃ free, Chain (fun q => (s.phys.page q 0).toNat) 0 s.phys.freelist free ∧ pa ∈ free }

theorem mem_freePages (h : Owned lay.kend own s.phys free) {pa : ℕ} :
    pa ∈ freePages s ↔ pa ∈ free := by
  constructor
  · rintro ⟨free', hchain, hpa⟩
    rwa [h.chain.unique hchain]
  · intro hpa
    exact ⟨free, h.chain, hpa⟩

namespace Owned

/-- The root of the page table that `alloc_process` makes was free. -/
theorem tableRoot_mem {kstack pagetable trapframe : ℕ} (h : Owned lay.kend own m free)
    (hb : m.build lay = some (.full kstack pagetable trapframe, m')) : pagetable ∈ free := by
  unfold Phys.build at hb
  rcases hstack : m.allocPage with ⟨stack, m₁⟩
  simp only [hstack] at hb
  split at hb
  · simp at hb
  next hstack0 =>
  obtain ⟨free₁, rfl, -, -, h₁⟩ := h.allocPage hstack hstack0
  obtain ⟨⟨root, m₂⟩, hroot, hb⟩ := Option.bind_eq_some_iff.mp hb
  unfold Phys.createPagetable at hroot
  rcases hpage : m₁.allocPage with ⟨page, m₂'⟩
  simp only [hpage] at hroot
  split at hroot
  · exact nomatch hroot
  next hpage0 =>
  obtain ⟨rfl, rfl⟩ := by simpa using hroot
  obtain ⟨free₂, rfl, -⟩ := h₁.allocPage hpage hpage0
  dsimp only at hb
  split at hb
  · simp at hb
  obtain ⟨⟨_, m₄⟩, -, hb⟩ := Option.bind_eq_some_iff.mp hb
  obtain ⟨⟨_, m₅⟩, -, hb⟩ := Option.bind_eq_some_iff.mp hb
  obtain ⟨⟨-, rfl, -⟩, -⟩ := by simpa using hb
  simp

end Owned

/-- A `fork` that succeeds takes the root of the child's page table off the free list. -/
theorem fork_takes {fuel : ℕ} {w : Option (Fin nproc × Waited)} (h : Isolated lay own s)
    (hc : s.firstUnused = some c) (hfork : s.step lay (.call (.fork fuel)) = some (w, s'))
    (hlive : (s'.proc c).state.Live) : (s'.proc c).pagetable ∈ freePages s := by
  obtain ⟨free, hown⟩ := h.owned
  rw [mem_freePages hown]
  have hdead : ¬ (s.proc c).state.Live := fun hl => hl.1 (firstUnused_unused hc)
  cases hp : s.cur with
  | none => simp [step, hp] at hfork
  | some p =>
    obtain ⟨-, rfl | ⟨c', f, m, hc', hf, rfl⟩⟩ := step_fork h.running hp hfork
    · exact absurd hlive hdead
    obtain rfl : c' = c := Option.some.inj (hc'.symm.trans hc)
    rw [enter_self] at hlive ⊢
    obtain ⟨⟨b, m₁⟩, hb, hf⟩ := Option.bind_eq_some_iff.mp hf
    cases b with
    | noStack =>
      obtain ⟨rfl, -⟩ := by simpa using hf
      exact absurd rfl hlive.2
    | noFrame =>
      obtain ⟨rfl, -⟩ := by simpa using hf
      exact absurd rfl hlive.2
    | full kstack pagetable trapframe =>
      obtain ⟨⟨ok, m₂⟩, -, hf⟩ := Option.bind_eq_some_iff.mp hf
      cases ok
      · obtain ⟨rfl, -⟩ := by simpa using hf
        exact absurd rfl hlive.1
      · obtain ⟨rfl, -⟩ := by simpa using hf
        exact hown.tableRoot_mem hb

/-- What happens on the machine, one event after the other. -/
def run (lay : Layout) : Procs → List Procs.Event → Option Procs :=
  System.runAll fun s e => (s.step lay e).map Prod.snd

theorem run_snoc {events : List Procs.Event} {e : Procs.Event} {t : Procs}
    {w : Option (Fin nproc × Waited)} (hrun : RiscvOs.run lay s events = some t)
    (hstep : t.step lay e = some (w, s')) : RiscvOs.run lay s (events ++ [e]) = some s' := by
  induction events generalizing s with
  | nil =>
    obtain rfl := Option.some.inj hrun
    simp [RiscvOs.run, System.runAll, hstep]
  | cons e' events ih =>
    obtain ⟨u, hu, hrun⟩ := Option.bind_eq_some_iff.mp hrun
    exact Option.bind_eq_some_iff.mpr ⟨u, hu, ih hrun⟩

/-- A page that has become a table stays one. -/
theorem Isolated.run {events : List Procs.Event} (h : Isolated lay own s)
    (hrun : RiscvOs.run lay s events = some s') : ∃ own', Isolated lay own' s' ∧ Keeps own own' := by
  induction events generalizing s own with
  | nil =>
    obtain rfl := Option.some.inj hrun
    exact ⟨own, h, (Extends.refl own).keeps⟩
  | cons e events ih =>
    obtain ⟨t, ht, hrun⟩ := Option.bind_eq_some_iff.mp hrun
    obtain ⟨⟨w, u⟩, hstep, rfl⟩ := Option.map_eq_some_iff.mp ht
    obtain ⟨own₁, h₁, hkeeps₁⟩ := h.step hstep
    obtain ⟨own₂, h₂, hkeeps₂⟩ := ih h₁ hrun
    exact ⟨own₂, h₂, hkeeps₁.trans hkeeps₂⟩

/-- The root of a process's page table is never free again. -/
theorem tableRoot_not_free {events : List Procs.Event} (h : Isolated lay own s)
    (hlive : (s.proc c).state.Live) (hrun : RiscvOs.run lay s events = some s') :
    (s.proc c).pagetable ∉ freePages s' := by
  have htable := (h.slots c).pagetable ((h.slots c).live hlive).2.1
  obtain ⟨own', h', hkeeps⟩ := h.run hrun
  obtain ⟨free, hown⟩ := h'.owned
  rw [mem_freePages hown]
  refine hown.not_mem ?_
  rw [hkeeps _ _ htable (by simp [Owned.Plain])]
  simp

/-- Whatever happens after a successful `fork`, and whoever reaps the child, the free pages are
never again those from before the `fork`. -/
theorem reap_leaks (lay : Layout) (s s₁ s₂ : Procs) (c : Fin nproc) (fuel : ℕ)
    (w : Option (Fin nproc × Waited)) (events : List Procs.Event)
    (h : (machine lay).Reachable s) (hc : s.firstUnused = some c)
    (hfork : s.step lay (.call (.fork fuel)) = some (w, s₁)) (hlive : (s₁.proc c).state.Live)
    (hrun : RiscvOs.run lay s₁ events = some s₂) : freePages s₂ ≠ freePages s := by
  obtain ⟨own, hs⟩ := isolated_of_reachable h
  obtain ⟨own₁, h₁, -⟩ := hs.step hfork
  have hbefore := fork_takes hs hc hfork hlive
  have hafter := tableRoot_not_free h₁ hlive hrun
  intro heq
  exact hafter (heq ▸ hbefore)

/-- `init` forks, waits, and is told that its child has exited with status 0. -/
def round : List Procs.Event :=
  [.call .waitProcess, .schedule 1, .call (.exitProcess 0)]

/-- What happens in the round: the child is in slot 1 and has pid 2, and `init` is told so. -/
structure Round (s s₁ s₂ s₃ : Procs) : Prop where
  reachable : (machine smallLayout).Reachable s
  cur : s.cur = some 0
  slot : s.firstUnused = some 1
  forked : s.step smallLayout (.call (.fork 3)) = some (none, s₁)
  pid : (s₁.proc 1).pid = 2
  live : (s₁.proc 1).state.Live
  waited : RiscvOs.run smallLayout s₁ round = some s₂
  reaped : s₂.step smallLayout (.schedule 0) = some (some (0, ⟨2, some 0⟩), s₃)

theorem exists_round : ∃ s s₁ s₂ s₃, Round s s₁ s₂ s₃ := by
  have hall : ((boot smallLayout).bind fun s => RiscvOs.run smallLayout s [.schedule 0]).any
      (fun s => s.cur = some 0 ∧ s.firstUnused = some 1 ∧
        (s.step smallLayout (.call (.fork 3))).any fun r =>
          r.1 = none ∧ (r.2.proc 1).pid = 2 ∧ (r.2.proc 1).state.Live ∧
            (RiscvOs.run smallLayout r.2 round).any fun s₂ =>
              (s₂.step smallLayout (.schedule 0)).any fun r' => r'.1 = some (0, ⟨2, some 0⟩)) := by
    decide +kernel
  obtain ⟨s, hs, hfacts⟩ := (Option.any_eq_true ..).mp hall
  obtain ⟨hcur, hc, hfork⟩ := of_decide_eq_true hfacts
  obtain ⟨⟨w, s₁⟩, hfork, hfacts⟩ := (Option.any_eq_true ..).mp hfork
  obtain ⟨rfl, hpid, hlive, hround⟩ := of_decide_eq_true hfacts
  obtain ⟨s₂, hround, hfacts⟩ := (Option.any_eq_true ..).mp hround
  obtain ⟨⟨w', s₃⟩, hreap, hfacts⟩ := (Option.any_eq_true ..).mp hfacts
  obtain rfl := of_decide_eq_true hfacts
  obtain ⟨s₀, hboot, hstart⟩ := Option.bind_eq_some_iff.mp hs
  have hreach : (machine smallLayout).Reachable s := by
    refine System.Reachable.runAll (fun s e s' hnext => ?_) (.init hboot) hstart
    obtain ⟨⟨w, u⟩, hstep, rfl⟩ := Option.map_eq_some_iff.mp hnext
    exact ⟨w, hstep⟩
  exact ⟨s, s₁, s₂, s₃, hreach, hcur, hc, hfork, hpid, hlive, hround, hreap⟩

/-- After one round of `fork`, exit and wait, pages are missing. -/
theorem reap_leaks_round : ∃ s s₁ s₂ s₃, Round s s₁ s₂ s₃ ∧ freePages s₃ ≠ freePages s := by
  obtain ⟨s, s₁, s₂, s₃, h⟩ := exists_round
  refine ⟨s, s₁, s₂, s₃, h, fun heq => ?_⟩
  obtain ⟨own, hs⟩ := isolated_of_reachable h.reachable
  obtain ⟨own₁, h₁, -⟩ := hs.step h.forked
  have hbefore := fork_takes hs h.slot h.forked h.live
  exact tableRoot_not_free h₁ h.live (run_snoc h.waited h.reaped) (heq ▸ hbefore)

/-- The pages are missing in the middle of the round already. -/
theorem reap_leaks_waiting : ∃ s s₁ s₂ s₃, Round s s₁ s₂ s₃ ∧ freePages s₂ ≠ freePages s := by
  obtain ⟨s, s₁, s₂, s₃, h⟩ := exists_round
  exact ⟨s, s₁, s₂, s₃, h,
    reap_leaks smallLayout s s₁ s₂ 1 3 none round h.reachable h.slot h.forked h.live h.waited⟩

end RiscvOs
