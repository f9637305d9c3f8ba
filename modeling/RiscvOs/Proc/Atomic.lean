import RiscvOs.Proc.Isolation

/-!
# `fork` when memory runs out

A `fork` that finds a slot and then runs out of pages does not undo what it has done: the
slot stays taken, or the pages are lost, or a null pointer is followed.  So it is atomic
exactly if this does not happen (`fork_atomic`): either there is no slot, and nothing has been
done, or the free pages are as many as `forkNeeds` says.
-/

namespace RiscvOs

open LinkedList Procs

variable {lay : Layout} {own : ℕ → Option Role} {s s' : Procs} {p c : Fin nproc}

/-- The free pages, the free slots, and all processes with their memory are what they were. -/
structure Undone (s s' : Procs) : Prop where
  free : freePages s' = freePages s
  unused : ∀ i, (s'.proc i).state = .unused ↔ (s.proc i).state = .unused
  proc : ∀ i, (s.proc i).state ≠ .unused → s'.proc i = s.proc i
  page : ∀ r pa, Plays s r pa → s'.phys.page pa = s.phys.page pa

/-- `fork` of `p` follows no null pointer, and has done nothing if it returns -1. -/
def ForkAtomic (lay : Layout) (s : Procs) (p : Fin nproc) : Prop :=
  (∃ fuel r, s.fork lay fuel p = some r) ∧
    ∀ fuel s', s.fork lay fuel p = some (-1, s') → Undone s s'

/-- There is no slot, or there are the pages that `fork` needs.  The loop of `fork` does not end
for a size next to 2^64, and a pid of -1 is no success. -/
def ForkFits (s : Procs) (p : Fin nproc) : Prop :=
  s.firstUnused = none ∨ (s.proc p).sz.toNat ≤ 2 ^ 64 - 4096 ∧ s.nextpid ≠ -1 ∧
    HasFree s (forkNeeds s.phys (s.proc p).pagetable (s.proc p).sz)

/-- The slot that `alloc_process` was filling is not free. -/
theorem Built.proc_state (b : Built) (q : Proc) (pid : ℤ) : (b.proc q pid).state = .used := by
  cases b <;> rfl

/-- Once a slot has been found, `fork` does not go back. -/
theorem not_undone {fuel : ℕ} {r : ℤ} (h : (machine lay).Reachable s) (hcur : s.cur = some p)
    (hc : s.firstUnused = some c) (hfork : s.fork lay fuel p = some (r, s')) : ¬ Undone s s' := by
  obtain ⟨own, hs⟩ := isolated_of_reachable h
  obtain ⟨free, hown⟩ := hs.owned
  have hunused := firstUnused_unused hc
  have hpc : p ≠ c := by
    rintro rfl
    rw [hs.running p hcur] at hunused
    cases hunused
  have hstep : s.step lay (.call (.fork fuel)) = some (none, s') := by
    rw [step, hcur]
    change ((s.call lay p (.fork fuel)).bind _) = _
    rw [call, hfork]
    rfl
  have hreach : (machine lay).Reachable s' := h.step (i := .call (.fork fuel)) ⟨none, hstep⟩
  rw [fork_eq fuel hc hpc] at hfork
  obtain ⟨⟨f, m⟩, hf, hr⟩ := Option.map_eq_some_iff.mp hfork
  obtain rfl := (Prod.mk.inj hr).2
  intro hundone
  have hslot := (hundone.unused c).mpr hunused
  rw [enter_self] at hslot
  cases f with
  | starved b =>
    change (b.proc _ _).state = _ at hslot
    rw [b.proc_state] at hslot
    cases hslot
  | done => cases hslot
  | uncopied kstack pagetable trapframe =>
    -- the root of the page table is lost
    obtain ⟨⟨b, m₁⟩, hb, hf⟩ := Option.bind_eq_some_iff.mp hf
    cases b with
    | noStack => simp at hf
    | noFrame => simp at hf
    | full k t f =>
      obtain ⟨⟨ok, m₂⟩, -, hf⟩ := Option.bind_eq_some_iff.mp hf
      cases ok with
      | true => simp at hf
      | false =>
        obtain ⟨⟨rfl, rfl, rfl⟩, rfl⟩ := by simpa using hf
        have hwas : t ∈ freePages s := (mem_freePages hown).mpr (hown.tableRoot_mem hb)
        rw [← hundone.free] at hwas
        obtain ⟨own', hs'⟩ := isolated_of_reachable hreach
        obtain ⟨free', hown'⟩ := hs'.owned
        have hroot := (hs'.slots c).pagetable
        rw [enter_self] at hroot
        have hpos : t ≠ 0 := hown.pos lay.kend_pos (hown.free t (hown.tableRoot_mem hb))
        have hrole : own' t = some (.table c []) := hroot hpos
        exact hown'.not_mem (by simp [hrole]) ((mem_freePages hown').mp hwas)

/-- `fork` is atomic exactly if it finds no slot or has the pages it needs. -/
theorem fork_atomic (lay : Layout) (s : Procs) (p : Fin nproc) (h : (machine lay).Reachable s)
    (hcur : s.cur = some p) : ForkAtomic lay s p ↔ ForkFits s p := by
  obtain ⟨own, hs⟩ := isolated_of_reachable h
  obtain ⟨free, hown⟩ := hs.owned
  have hlive := hs.live hcur
  have hroot := (hs.slots p).pagetable ((hs.slots p).live hlive).2.1
  have hframe := (hs.slots p).trapframe ((hs.slots p).live hlive).2.2
  cases hc : s.firstUnused with
  | none =>
    refine ⟨fun _ => .inl hc, fun _ => ⟨⟨0, _, fork_none 0 hc⟩, fun fuel s' hfork => ?_⟩⟩
    rw [fork_none fuel hc] at hfork
    obtain rfl : s = s' := (Prod.mk.inj (Option.some.inj hfork)).2
    exact ⟨rfl, fun _ => Iff.rfl, fun _ _ => rfl, fun _ _ _ => rfl⟩
  | some c =>
    constructor
    · rintro ⟨⟨fuel, ⟨pid, s'⟩, hfork⟩, hundone⟩
      have hpid : pid ≠ -1 := by
        rintro rfl
        exact not_undone h hcur hc hfork (hundone fuel s' hfork)
      obtain ⟨c', kstack, pagetable, trapframe, m, -, hpc, hf, rfl, -⟩ :=
        fork_done hs.running hcur hfork hpid
      have hsz : (s.proc p).sz.toNat ≤ 2 ^ 64 - 4096 := by
        by_contra hlarge
        obtain ⟨m₁, m₂, -, hcopy⟩ := Owned.build_of_done hf
        exact Owned.copyPages_endless (not_le.mp hlarge) (by decide) m₂ hcopy
      refine .inr ⟨hsz, hpid, free, hown.chain, ?_⟩
      have hlong : s.phys.forkPages lay (max fuel (pagesOf (s.proc p).sz.toNat + 1)) (s.proc p) =
          some (.done kstack pagetable trapframe, m) := Owned.forkPages_mono (le_max_left _ _) hf
      rcases hown.forkPages_exact (c := c') hroot hframe hpc hsz
          (Nat.lt_of_lt_of_le (Nat.lt_succ_self _) (le_max_right fuel _)) with
        ⟨_, _, _, _, _, _, -, -, -, -, -, hcount⟩ | ⟨-, hfail⟩
      · omega
      · exact absurd hlong (hfail _ _ _ _)
    · intro hfits
      have hpc : p ≠ c := by
        rintro rfl
        have hunused := firstUnused_unused hc
        rw [hs.running p hcur] at hunused
        exact nomatch hunused
      rcases hfits with hnone | ⟨hsz, hpid, free', hchain, hle⟩
      · rw [hc] at hnone
        exact nomatch hnone
      obtain rfl := hown.chain.unique hchain
      have hdone : ∀ fuel, pagesOf (s.proc p).sz.toNat < fuel → ∃ kstack pagetable trapframe m,
          s.phys.forkPages lay fuel (s.proc p) = some (.done kstack pagetable trapframe, m) := by
        intro fuel hfuel
        rcases hown.forkPages_exact (c := c) hroot hframe hpc hsz hfuel with
          ⟨kstack, pagetable, trapframe, m, -, -, hf, -⟩ | ⟨hshort, -⟩
        · exact ⟨kstack, pagetable, trapframe, m, hf⟩
        · omega
      refine ⟨?_, fun fuel s' hfork => ?_⟩
      · obtain ⟨kstack, pagetable, trapframe, m, hf⟩ := hdone _ (Nat.lt_succ_self _)
        exact ⟨_, _, by rw [fork_eq _ hc hpc, hf]; rfl⟩
      · -- a loop that is cut off returns nothing
        rw [fork_eq fuel hc hpc] at hfork
        obtain ⟨⟨f, m⟩, hf, hr⟩ := Option.map_eq_some_iff.mp hfork
        obtain ⟨kstack, pagetable, trapframe, m', hf'⟩ :=
          hdone (max fuel (pagesOf (s.proc p).sz.toNat + 1))
            (Nat.lt_of_lt_of_le (Nat.lt_succ_self _) (le_max_right fuel _))
        have hlong : s.phys.forkPages lay (max fuel (pagesOf (s.proc p).sz.toNat + 1)) (s.proc p) =
            some (f, m) := Owned.forkPages_mono (le_max_left _ _) hf
        rw [hf'] at hlong
        obtain ⟨rfl, -⟩ := Prod.mk.inj (Option.some.inj hlong)
        exact absurd (Prod.mk.inj hr).1 hpid

/-- `init` may fork for the first time. -/
theorem fork_atomic_first : ∃ s s', FirstFork s s' ∧ (ForkAtomic smallLayout s 0 ↔ ForkFits s 0) := by
  obtain ⟨s, s', h⟩ := exists_firstFork
  exact ⟨s, s', h, fork_atomic smallLayout s 0 h.reachable h.cur⟩

/-- A machine with `n` free pages and a program of one page; `user_init` takes nine of them. -/
def tightLayout (n : Fin 61) : Layout where
  kend := phystop - n * pgsize
  trampoline := 0x80201000
  initBin := [0x73]
  kernelPages := 0
  kend_pos := by
    have hn := n.isLt
    simp only [phystop, pgsize]
    omega
  kend_le := Nat.sub_le _ _
  trampoline_lt := by
    have hn := n.isLt
    simp only [phystop, pgsize]
    omega

/-- `init` runs, on a machine with `n` pages. -/
theorem exists_tight (n : Fin 61) {ok : Procs → Bool}
    (hrun : ((boot (tightLayout n)).bind fun s => RiscvOs.run (tightLayout n) s [.schedule 0]).any
      ok = true) : ∃ s, (machine (tightLayout n)).Reachable s ∧ ok s = true := by
  obtain ⟨s, hs, hok⟩ := (Option.any_eq_true ..).mp hrun
  obtain ⟨s₀, hboot, hstart⟩ := Option.bind_eq_some_iff.mp hs
  refine ⟨s, System.Reachable.runAll (fun s e s' hnext => ?_) (.init hboot) hstart, hok⟩
  obtain ⟨⟨w, u⟩, hstep, rfl⟩ := Option.map_eq_some_iff.mp hnext
  exact ⟨w, hstep⟩

/-- With no page left, `fork` returns -1 and has taken a slot; with one page left, it follows a
null pointer in `create_pagetable`. -/
theorem fork_atomic_starved :
    (∃ s s', (machine (tightLayout 9)).Reachable s ∧ s.cur = some 0 ∧
      s.fork (tightLayout 9) 3 0 = some (-1, s') ∧ (s.proc 1).state = .unused ∧
      (s'.proc 1).state = .used ∧ ¬ ForkAtomic (tightLayout 9) s 0) ∧
    ∃ s, (machine (tightLayout 10)).Reachable s ∧ s.cur = some 0 ∧
      (∀ fuel, s.fork (tightLayout 10) fuel 0 = none) ∧ ¬ ForkAtomic (tightLayout 10) s 0 := by
  constructor
  · have hrun : ((boot (tightLayout 9)).bind fun s =>
        RiscvOs.run (tightLayout 9) s [.schedule 0]).any (fun s => decide (s.cur = some 0 ∧
          (s.proc 1).state = .unused ∧ (s.fork (tightLayout 9) 3 0).any fun r =>
            r.1 = -1 ∧ (r.2.proc 1).state = .used)) = true := by
      decide +kernel
    obtain ⟨s, hreach, hok⟩ := exists_tight 9 hrun
    obtain ⟨hcur, hunused, hfork⟩ := of_decide_eq_true hok
    obtain ⟨⟨r, s'⟩, hfork, hfacts⟩ := (Option.any_eq_true ..).mp hfork
    obtain ⟨rfl, hused⟩ := of_decide_eq_true hfacts
    refine ⟨s, s', hreach, hcur, hfork, hunused, hused, fun hatomic => ?_⟩
    have hslot := ((hatomic.2 3 s' hfork).unused 1).mpr hunused
    have hused' : (s'.proc 1).state = .used := hused
    rw [hused'] at hslot
    cases hslot
  · have hrun : ((boot (tightLayout 10)).bind fun s =>
        RiscvOs.run (tightLayout 10) s [.schedule 0]).any (fun s => decide (s.cur = some 0 ∧
          (s.allocProcess (tightLayout 10)).isNone)) = true := by
      decide +kernel
    obtain ⟨s, hreach, hok⟩ := exists_tight 10 hrun
    obtain ⟨hcur, hnone⟩ := of_decide_eq_true hok
    have hfork : ∀ fuel, s.fork (tightLayout 10) fuel 0 = none := fun fuel => by
      rw [Procs.fork, Option.isNone_iff_eq_none.mp hnone]
      rfl
    refine ⟨s, hreach, hcur, hfork, ?_⟩
    rintro ⟨⟨fuel, r, hr⟩, -⟩
    rw [hfork fuel] at hr
    cases hr

end RiscvOs
