import RiscvOs.Proc.Spec

/-!
# Parent links

A parent link is the address of a slot, and slots are used again.  `exit_process`
leaves the links of the exiting process's children as they are, so a link can outlive
the process it was made for: once its slot is reaped it points to a free slot, and
once the slot is filled again to a stranger, whose `wait_process` then collects
children it never had.

`Tracked` records beside the machine which process each slot holds and who forked it.
In every run in which `wait_process` never reaps a slot that a parent link still
points to, the links are right (`parent_links`); the first step that does leaves a
wrong one.
-/

namespace RiscvOs.Parents

open Procs

/-- A process: the serial number of the `fork` that made it, and its pid. -/
structure Process where
  serial : ℕ
  pid : ℤ
  deriving DecidableEq

/-- The machine, and a record of the processes it has created. -/
structure Tracked where
  procs : Procs
  /-- The process in a slot. -/
  occupant : Fin nproc → Process
  /-- The process that forked the one in a slot. -/
  forker : Fin nproc → Option Process
  /-- The next serial number. -/
  serial : ℕ
  /-- Every successful `fork`: who forked whom. -/
  forks : List (Process × Process)

namespace Tracked

/-- The record after `fork` of the process in `p` has filled the slot `c`. -/
def born (t : Tracked) (p c : Fin nproc) (s : Procs) : Tracked where
  procs := s
  occupant := Function.update t.occupant c ⟨t.serial, (s.proc c).pid⟩
  forker := Function.update t.forker c (some (t.occupant p))
  serial := t.serial + 1
  forks := (t.occupant p, ⟨t.serial, (s.proc c).pid⟩) :: t.forks

/-- The slots of the parent and the child in an event that is a successful `fork`. -/
def forking (s : Procs) (e : Procs.Event) (s' : Procs) : Option (Fin nproc × Fin nproc) :=
  match e, s.cur, s.firstUnused with
  | .call (.fork _), some p, some c => if (s'.proc c).state.Live then some (p, c) else none
  | _, _, _ => none

/-- The record after an event that leads to `s'`. -/
def track (t : Tracked) (e : Procs.Event) (s' : Procs) : Tracked :=
  match forking t.procs e s' with
  | some (p, c) => t.born p c s'
  | none => { t with procs := s' }

/-- One event, with what `wait_process` returned to whom. -/
def step (lay : Layout) (t : Tracked) (e : Procs.Event) :
    Option (Option (Fin nproc × Waited) × Tracked) :=
  (t.procs.step lay e).map fun r => (r.1, t.track e r.2)

/-- The record after boot: `init` has pid 1 and nobody forked it. -/
def start (s : Procs) : Tracked where
  procs := s
  occupant := fun _ => ⟨0, 1⟩
  forker := fun _ => none
  serial := 1
  forks := []

end Tracked

/-- The processes in any interleaving. -/
def processes (lay : Layout) : System Tracked Procs.Event where
  init t := ∃ s, boot lay = some s ∧ t = .start s
  step t e t' := ∃ w, t.step lay e = some (w, t')

/-- Every parent link points to a slot that still holds the process that forked the one with
the link. -/
def LinksRight (t : Tracked) : Prop :=
  ∀ i j, (t.procs.proc i).parent = some j →
    (t.procs.proc j).state ≠ .unused ∧ t.forker i = some (t.occupant j) ∧
      (t.occupant j).pid = (t.procs.proc j).pid

/-- `p` has no child of its own. -/
def Childless (t : Tracked) (p : Fin nproc) : Prop :=
  ∀ i, (t.procs.proc i).state ≠ .unused → t.forker i ≠ some (t.occupant p)

/-- A turn of `wait_process` in `p` that returned `w`: it gives up when `p` has no child, and
otherwise returns the pid of a process that `p` itself forked. -/
def WaitsRight (t : Tracked) (p : Fin nproc) (w : Option Waited) : Prop :=
  (∀ r, w = some r → r = ⟨-1, none⟩ ∨ ∃ child, (t.occupant p, child) ∈ t.forks ∧ child.pid = r.pid) ∧
    (Childless t p → w = some ⟨-1, none⟩)

/-- `wait_process` reaps no slot in this event that a parent link points to. -/
def ReapsUnlinked (t : Tracked) (e : Procs.Event) : Prop :=
  ∀ p c, t.procs.scan e = some p → t.procs.zombieChild p = some c →
    ∀ i, (t.procs.proc i).parent ≠ some c

theorem track_scan {t : Tracked} {e : Procs.Event} {p : Fin nproc} {s' : Procs}
    (hscan : t.procs.scan e = some p) : t.track e s' = { t with procs := s' } := by
  have hnone : Tracked.forking t.procs e s' = none := by
    cases e with
    | call c => cases c <;> first | rfl | simp [scan] at hscan
    | _ => rfl
  simp [Tracked.track, hnone]

theorem track_kept {t : Tracked} {e : Procs.Event} {s' : Procs} (h : t.procs.Kept s') :
    t.track e s' = { t with procs := s' } := by
  have hnone : Tracked.forking t.procs e s' = none := by
    unfold Tracked.forking
    split
    · next hc =>
      have hdead := firstUnused_unused hc
      rw [if_neg]
      rw [(h _).live]
      simp [ProcState.Live, hdead]
    · rfl
  simp [Tracked.track, hnone]

theorem track_fork {t : Tracked} {fuel : ℕ} {p c : Fin nproc} {s' : Procs}
    (hp : t.procs.cur = some p) (hc : t.procs.firstUnused = some c) :
    t.track (.call (.fork fuel)) s' =
      if (s'.proc c).state.Live then t.born p c s' else { t with procs := s' } := by
  by_cases hlive : (s'.proc c).state.Live <;>
    simp [Tracked.track, Tracked.forking, hp, hc, hlive]

/-! ## The invariant -/

/-- What holds as long as every reaped slot was unlinked. -/
structure Linked (t : Tracked) : Prop where
  running : t.procs.Running
  /-- A slot that holds no process has no parent. -/
  orphan : ∀ i, ¬ (t.procs.proc i).state.Live → (t.procs.proc i).parent = none
  /-- A link points to the forker, which is still there. -/
  forker : ∀ i j, (t.procs.proc i).parent = some j →
    (t.procs.proc j).state.Live ∧ t.forker i = some (t.occupant j)
  pid : ∀ i, (t.procs.proc i).state.Live → (t.occupant i).pid = (t.procs.proc i).pid
  forked : ∀ i j, (t.procs.proc i).parent = some j → (t.occupant j, t.occupant i) ∈ t.forks

namespace Linked

variable {lay : Layout} {t : Tracked} {s' : Procs} {e : Procs.Event} {p c : Fin nproc}

theorem linksRight (h : Linked t) : LinksRight t := by
  intro i j hij
  obtain ⟨hlive, hforker⟩ := h.forker i j hij
  exact ⟨hlive.1, hforker, h.pid j hlive⟩

theorem live_of_parent (h : Linked t) {i j : Fin nproc}
    (hij : (t.procs.proc i).parent = some j) : (t.procs.proc i).state.Live := by
  by_contra hdead
  simp [h.orphan i hdead] at hij

/-- After boot there are no links. -/
theorem start {s : Procs} (h : boot lay = some s) : Linked (.start s) := by
  obtain ⟨hcur, hpid, hparent, hfree⟩ := boot_spec h
  have hnone : ∀ i, (s.proc i).parent = none := by
    intro i
    by_cases hi : i = 0
    · rw [hi, hparent]
    · rw [hfree i hi]
  refine ⟨?_, fun i _ => hnone i, ?_, ?_, ?_⟩
  · intro p hp
    simp [Tracked.start, hcur] at hp
  · intro i j hij
    simp [Tracked.start, hnone i] at hij
  · intro i hlive
    have hi : i = 0 := by
      by_contra hi
      simp [Tracked.start, hfree i hi, ProcState.Live] at hlive
    rw [hi]
    exact hpid.symm
  · intro i j hij
    simp [Tracked.start, hnone i] at hij

/-- A change that leaves every process in its slot. -/
theorem kept (h : Linked t) (hkept : t.procs.Kept s') (hrun : s'.Running) :
    Linked { t with procs := s' } := by
  refine ⟨hrun, ?_, ?_, ?_, ?_⟩
  · intro i hi
    rw [(hkept i).parent]
    exact h.orphan i fun hlive => hi ((hkept i).live.mpr hlive)
  · intro i j hij
    rw [(hkept i).parent] at hij
    obtain ⟨hlive, hforker⟩ := h.forker i j hij
    exact ⟨(hkept j).live.mpr hlive, hforker⟩
  · intro i hi
    rw [(hkept i).pid]
    exact h.pid i ((hkept i).live.mp hi)
  · intro i j hij
    rw [(hkept i).parent] at hij
    exact h.forked i j hij

/-- An unlinked zombie is reaped. -/
theorem reap (h : Linked t) (hc : (t.procs.proc c).state = .zombie)
    (hunlinked : ∀ i, (t.procs.proc i).parent ≠ some c) :
    Linked { t with procs := t.procs.reap c } := by
  have hlink : ∀ i j, ((t.procs.reap c).proc i).parent = some j →
      i ≠ c ∧ j ≠ c ∧ (t.procs.proc i).parent = some j := by
    intro i j hij
    by_cases hi : i = c
    · subst hi
      simp [reap_self] at hij
    · rw [reap_of_ne hi] at hij
      exact ⟨hi, fun hj => hunlinked i (hj ▸ hij), hij⟩
  refine ⟨?_, ?_, ?_, ?_, ?_⟩
  · intro p hp
    have hp' := h.running p hp
    have hpc : p ≠ c := by
      rintro rfl
      simp [hc] at hp'
    rwa [reap_of_ne hpc]
  · intro i hi
    by_cases hic : i = c
    · subst hic
      simp [reap_self]
    · rw [reap_of_ne hic] at hi ⊢
      exact h.orphan i hi
  · intro i j hij
    obtain ⟨-, hj, hij'⟩ := hlink i j hij
    rw [reap_of_ne hj]
    exact h.forker i j hij'
  · intro i hi
    by_cases hic : i = c
    · subst hic
      simp [reap_self, ProcState.Live] at hi
    · rw [reap_of_ne hic] at hi ⊢
      exact h.pid i hi
  · intro i j hij
    exact h.forked i j (hlink i j hij).2.2

/-- Nothing points to a slot that is not in use. -/
theorem ne_of_parent (h : Linked t) {i j : Fin nproc} (hc : (t.procs.proc c).state = .unused)
    (hij : (t.procs.proc i).parent = some j) : j ≠ c := by
  rintro rfl
  exact (h.forker i j hij).1.1 hc

/-- `fork` fills a free slot with a child of the running process. -/
theorem born (h : Linked t) {q : Proc} {m : Phys} (hp : (t.procs.proc p).state.Live)
    (hc : (t.procs.proc c).state = .unused) (hlive : q.state.Live) (hparent : q.parent = some p) :
    Linked (t.born p c (t.procs.enter c q m)) := by
  have hpc : p ≠ c := by
    rintro rfl
    exact hp.1 hc
  refine ⟨h.running.enter hc, ?_, ?_, ?_, ?_⟩
  · intro i hi
    by_cases hic : i = c
    · subst hic
      simp [Tracked.born, enter_self, hlive] at hi
    · simp only [Tracked.born, enter_of_ne _ _ hic] at hi ⊢
      exact h.orphan i hi
  · intro i j hij
    by_cases hic : i = c
    · subst hic
      obtain rfl : p = j := by simpa [Tracked.born, enter_self, hparent] using hij
      simp [Tracked.born, enter_of_ne _ _ hpc, hp, hpc]
    · simp only [Tracked.born, enter_of_ne _ _ hic] at hij
      have hj := h.ne_of_parent hc hij
      simpa [Tracked.born, enter_of_ne _ _ hj, hic, hj] using h.forker i j hij
  · intro i hi
    by_cases hic : i = c
    · subst hic
      simp [Tracked.born]
    · simp only [Tracked.born, enter_of_ne _ _ hic, Function.update_of_ne hic] at hi ⊢
      exact h.pid i hi
  · intro i j hij
    by_cases hic : i = c
    · subst hic
      obtain rfl : p = j := by simpa [Tracked.born, enter_self, hparent] using hij
      simp [Tracked.born, hpc]
    · simp only [Tracked.born, enter_of_ne _ _ hic] at hij
      have hj := h.ne_of_parent hc hij
      simp only [Tracked.born, Function.update_of_ne hic, Function.update_of_ne hj]
      exact List.mem_cons_of_mem _ (h.forked i j hij)

/-- `fork` fails and leaves its slot without a process. -/
theorem unborn (h : Linked t) {q : Proc} {m : Phys} (hc : (t.procs.proc c).state = .unused)
    (hdead : ¬ q.state.Live) (hparent : q.parent = none) :
    Linked { t with procs := t.procs.enter c q m } := by
  have hlink : ∀ i j, ((t.procs.enter c q m).proc i).parent = some j →
      i ≠ c ∧ j ≠ c ∧ (t.procs.proc i).parent = some j := by
    intro i j hij
    by_cases hic : i = c
    · subst hic
      simp [enter_self, hparent] at hij
    · rw [enter_of_ne _ _ hic] at hij
      exact ⟨hic, h.ne_of_parent hc hij, hij⟩
  refine ⟨h.running.enter hc, ?_, ?_, ?_, ?_⟩
  · intro i hi
    by_cases hic : i = c
    · subst hic
      rwa [enter_self]
    · rw [enter_of_ne _ _ hic] at hi ⊢
      exact h.orphan i hi
  · intro i j hij
    obtain ⟨-, hj, hij'⟩ := hlink i j hij
    rw [enter_of_ne _ _ hj]
    exact h.forker i j hij'
  · intro i hi
    by_cases hic : i = c
    · subst hic
      exact absurd (by rwa [enter_self] at hi) hdead
    · rw [enter_of_ne _ _ hic] at hi ⊢
      exact h.pid i hi
  · intro i j hij
    exact h.forked i j (hlink i j hij).2.2

/-- The links stay right in a step that reaps no slot a link points to. -/
theorem step (h : Linked t) {t' : Tracked} {w : Option (Fin nproc × Waited)}
    (hreap : ReapsUnlinked t e) (hstep : t.step lay e = some (w, t')) : Linked t' := by
  obtain ⟨⟨w, s'⟩, hs, hpair⟩ := Option.map_eq_some_iff.mp hstep
  obtain ⟨rfl, rfl⟩ := Prod.mk.inj hpair
  cases hscan : t.procs.scan e with
  | some p =>
    rw [track_scan hscan]
    obtain ⟨s₁, hstart, -, rfl⟩ := step_scan hscan hs
    have hkept := kept_start h.running hstart
    have hzombie := zombieChild_start (j := p) hstart
    have h₁ : Linked { t with procs := s₁ } := h.kept hkept.1 hkept.2.1
    obtain ⟨c, hc, hw⟩ | ⟨-, -, hw⟩ | ⟨-, hw⟩ := waitProcess_cases s₁ p
    · rw [hw]
      refine h₁.reap (zombieChild_spec hc).2 fun i => ?_
      rw [(hkept.1 i).parent]
      exact hreap p c hscan (hzombie ▸ hc) i
    · rw [hw]
      refine h₁.kept (kept_sleep p ?_) (fun _ hq => nomatch hq)
      simp [ProcState.Live, hkept.2.2]
    · rw [hw]
      exact h₁
  | none =>
    obtain ⟨-, ⟨hkept, hrun⟩ | ⟨fuel, p, c, f, m, rfl, hp, hc, -, rfl⟩⟩ :=
      step_other hscan h.running hs
    · rw [track_kept hkept]
      exact h.kept hkept hrun
    · rw [track_fork hp hc, enter_self]
      have hunused := firstUnused_unused hc
      have horphan : (t.procs.proc c).parent = none :=
        h.orphan c (by simp [ProcState.Live, hunused])
      cases f with
      | starved b =>
        have hdead : ¬ (b.proc (t.procs.proc c) t.procs.nextpid).state.Live := by
          cases b <;> simp [Built.proc, ProcState.Live]
        have hparent : (b.proc (t.procs.proc c) t.procs.nextpid).parent = none := by
          cases b <;> simp [Built.proc, horphan]
        exact (if_neg hdead).symm ▸ h.unborn hunused hdead hparent
      | uncopied =>
        rw [if_neg (by simp [Forked.proc, ProcState.Live])]
        exact h.unborn hunused (by simp [Forked.proc, ProcState.Live]) rfl
      | done =>
        rw [if_pos (by simp [Forked.proc, ProcState.Live])]
        exact h.born (by simp [ProcState.Live, h.running p hp]) hunused
          (by simp [Forked.proc, ProcState.Live]) rfl

/-- What `wait_process` returns is about the caller's own children. -/
theorem waitsRight (h : Linked t) {t' : Tracked} {w : Option (Fin nproc × Waited)}
    (hscan : t.procs.scan e = some p) (hstep : t.step lay e = some (w, t')) :
    ∃ r : Option Waited, w = r.map (fun r => (p, r)) ∧ WaitsRight t p r := by
  obtain ⟨⟨w, s'⟩, hs, hpair⟩ := Option.map_eq_some_iff.mp hstep
  obtain ⟨rfl, rfl⟩ := Prod.mk.inj hpair
  obtain ⟨s₁, hstart, hw, -⟩ := step_scan hscan hs
  have hkept := (kept_start h.running hstart).1
  refine ⟨_, hw, ?_⟩
  have hown : ∀ i, (s₁.proc i).parent = some p → ¬ Childless t p := by
    intro i hi hnone
    rw [(hkept i).parent] at hi
    exact hnone i (h.live_of_parent hi).1 (h.forker i p hi).2
  obtain ⟨c, hc, hw⟩ | ⟨-, ⟨i, hi⟩, hw⟩ | ⟨-, hw⟩ := waitProcess_cases s₁ p
  · have hparent := (zombieChild_spec hc).1
    rw [hw]
    refine ⟨?_, fun hnone => absurd hnone (hown c hparent)⟩
    intro r hr
    obtain rfl := Option.some.inj hr
    rw [(hkept c).parent] at hparent
    refine .inr ⟨t.occupant c, h.forked c p hparent, ?_⟩
    rw [h.pid c (h.live_of_parent hparent)]
    exact (hkept c).pid.symm
  · rw [hw]
    exact ⟨nofun, fun hnone => absurd hnone (hown i hi)⟩
  · rw [hw]
    exact ⟨fun r hr => .inl (Option.some.inj hr).symm, fun _ => rfl⟩

end Linked

/-! ## Parent links -/

variable {lay : Layout} {t t' : Tracked} {e : Procs.Event} {w : Option (Fin nproc × Waited)}

theorem linked_of_reachable (h : ((processes lay).restrict ReapsUnlinked).Reachable t) :
    Linked t := by
  refine h.invariant ?_ ?_
  · rintro _ ⟨s, hs, rfl⟩
    exact .start hs
  · rintro t e t' ht ⟨hreap, w, hstep⟩
    exact ht.step hreap hstep

/-- A reaped slot that a link points to leaves that link pointing to a free slot. -/
theorem not_linksRight_of_reap (h : Linked t) (hstep : t.step lay e = some (w, t'))
    (hreap : ¬ ReapsUnlinked t e) : ¬ LinksRight t' := by
  simp only [ReapsUnlinked, not_forall, not_not] at hreap
  obtain ⟨p, c, hscan, hc, i, hi⟩ := hreap
  obtain ⟨⟨w, s'⟩, hs, hpair⟩ := Option.map_eq_some_iff.mp hstep
  obtain ⟨rfl, rfl⟩ := Prod.mk.inj hpair
  obtain ⟨s₁, hstart, -, rfl⟩ := step_scan hscan hs
  obtain ⟨hkept, -, hrun⟩ := kept_start h.running hstart
  have hc₁ : s₁.zombieChild p = some c := (zombieChild_start hstart).trans hc
  have hic : i ≠ c := by
    rintro rfl
    have hparent := (zombieChild_spec hc₁).1
    rw [(hkept i).parent, hi] at hparent
    obtain rfl := Option.some.inj hparent
    simp [(zombieChild_spec hc₁).2] at hrun
  intro hright
  rw [track_scan hscan, waitProcess_reap hc₁] at hright
  have hlink : ((s₁.reap c).proc i).parent = some c := by
    rw [reap_of_ne hic, (hkept i).parent, hi]
  exact (hright i c hlink).1 (by rw [reap_self])

/-- In every run in which no reaped slot is still linked to, every parent link points to the
process that forked its owner, and `wait_process` returns the pid of a child of the caller or
gives up when there is none.  The first step that reaps a linked slot makes a link wrong. -/
theorem parent_links (lay : Layout) (t : Tracked)
    (h : ((processes lay).restrict ReapsUnlinked).Reachable t) :
    LinksRight t ∧
      (∀ e w t' p, t.step lay e = some (w, t') → t.procs.scan e = some p →
        ∃ r : Option Waited, w = r.map (fun r => (p, r)) ∧ WaitsRight t p r) ∧
      ∀ e w t', t.step lay e = some (w, t') → (LinksRight t' ↔ ReapsUnlinked t e) := by
  have hlinked := linked_of_reachable h
  refine ⟨hlinked.linksRight, fun e w t' p hstep hscan => hlinked.waitsRight hscan hstep, ?_⟩
  intro e w t' hstep
  constructor
  · intro hright
    by_contra hreap
    exact not_linksRight_of_reap hlinked hstep hreap hright
  · intro hreap
    exact (hlinked.step hreap hstep).linksRight

/-! ## A link that goes wrong -/

theorem reachable_of_runAll {events : List Procs.Event}
    (h : (boot smallLayout).bind (fun s => System.runAll
      (fun t e => (t.step smallLayout e).map Prod.snd) (Tracked.start s) events) = some t) :
    (processes smallLayout).Reachable t := by
  obtain ⟨s, hs, hrun⟩ := Option.bind_eq_some_iff.mp h
  refine System.Reachable.runAll (fun t e t' hnext => ?_) (.init ⟨s, hs, rfl⟩) hrun
  obtain ⟨⟨w, u⟩, hstep, rfl⟩ := Option.map_eq_some_iff.mp hnext
  exact ⟨w, hstep⟩

/-- `init` forks a child, and the link of the child's slot is right. -/
theorem parent_links_init :
    ∃ t, ((processes smallLayout).restrict ReapsUnlinked).Reachable t ∧
      (t.procs.proc 1).parent = some 0 ∧ LinksRight t := by
  have hrun : ((boot smallLayout).bind fun s => System.runAll
      (fun t e => if t.procs.scan e = none then (t.step smallLayout e).map Prod.snd else none)
      (Tracked.start s) [.schedule 0, .call (.fork 3)]).map
      (fun t => (t.procs.proc 1).parent) = some (some 0) := by
    decide +kernel
  obtain ⟨t, ht, hparent⟩ := Option.map_eq_some_iff.mp hrun
  obtain ⟨s, hs, hall⟩ := Option.bind_eq_some_iff.mp ht
  have hreach : ((processes smallLayout).restrict ReapsUnlinked).Reachable t := by
    refine System.Reachable.runAll (fun t e t' hnext => ?_) (.init ⟨s, hs, rfl⟩) hall
    split at hnext
    · next hscan =>
      obtain ⟨⟨w, u⟩, hstep, rfl⟩ := Option.map_eq_some_iff.mp hnext
      exact ⟨fun p c hp => by simp [hscan] at hp, w, hstep⟩
    · exact nomatch hnext
  exact ⟨t, hreach, hparent, (parent_links smallLayout t hreach).1⟩

/-- `init` (slot 0) forks A (slot 1), A forks B (slot 2) and exits, `init` reaps A and forks C
into slot 1.  B's link now points to C, and when B has exited the `wait_process` of C returns
the pid of B, which C never forked. -/
theorem parent_links_stranger :
    ∃ t w t', (processes smallLayout).Reachable t ∧
      t.step smallLayout (.schedule 1) = some (some (1, w), t') ∧
      ¬ LinksRight t ∧ ¬ WaitsRight t 1 (some w) := by
  have hrun : ((boot smallLayout).bind fun s => System.runAll
      (fun t e => (t.step smallLayout e).map Prod.snd) (Tracked.start s)
      [.schedule 0, .call (.fork 3), .call .yield, .schedule 1, .call (.fork 3),
        .call (.exitProcess 0), .schedule 2, .call .yield, .schedule 0, .call .waitProcess,
        .call (.fork 3), .call .yield, .schedule 1, .call .waitProcess, .schedule 2,
        .call (.exitProcess 7), .schedule 0, .call .yield]).any
      (fun t => (t.procs.proc 2).parent = some 1 ∧ t.forker 2 = some ⟨1, 2⟩ ∧
        t.occupant 1 = ⟨3, 4⟩ ∧
        t.forks = [(⟨0, 1⟩, ⟨3, 4⟩), (⟨1, 2⟩, ⟨2, 3⟩), (⟨0, 1⟩, ⟨1, 2⟩)] ∧
        (t.step smallLayout (.schedule 1)).map Prod.fst = some (some (1, ⟨3, some 7⟩))) := by
    decide +kernel
  obtain ⟨t, ht, hfacts⟩ := (Option.any_eq_true ..).mp hrun
  obtain ⟨hparent, hforker, hoccupant, hforks, hwait⟩ := of_decide_eq_true hfacts
  obtain ⟨⟨w, t'⟩, hstep, rfl⟩ := Option.map_eq_some_iff.mp hwait
  refine ⟨t, _, t', reachable_of_runAll ht, hstep, ?_, ?_⟩
  · intro hright
    have hlink := (hright 2 1 hparent).2.1
    simp [hforker, hoccupant] at hlink
  · intro hright
    obtain hgave | ⟨child, hchild, hpid⟩ := hright.1 _ rfl
    · simp at hgave
    · simp only [hoccupant, hforks, List.mem_cons, Prod.mk.injEq, List.not_mem_nil,
        Process.mk.injEq] at hchild
      obtain ⟨h, -⟩ | ⟨h, -⟩ | ⟨h, -⟩ | h := hchild <;> simp at h

end RiscvOs.Parents
