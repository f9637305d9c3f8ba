import Mathlib.Logic.Basic

/-!
# Transition systems

A `System` has initial states and labelled steps.  A safety property is proved by
finding an invariant: it holds initially and every step preserves it
(`Reachable.invariant`).  `System.restrict` keeps the steps that meet a condition;
what holds in every state of the restricted system holds in every run whose steps
all meet the condition.

A system is an implementation of another if the other can do the same in every run of it, as far
as the labels say (`Simulates.traces`).
-/

/-- Initial states and labelled steps. -/
structure System (σ ι : Type) where
  init : σ → Prop
  step : σ → ι → σ → Prop

namespace System

variable {σ ι : Type} {sys : System σ ι}

/-- The states some run ends in. -/
inductive Reachable (sys : System σ ι) : σ → Prop
  | init {s : σ} (h : sys.init s) : Reachable sys s
  | step {s t : σ} {i : ι} (h : Reachable sys s) (hstep : sys.step s i t) : Reachable sys t

/-- An inductive invariant holds in every reachable state. -/
theorem Reachable.invariant {inv : σ → Prop} {s : σ} (h : sys.Reachable s)
    (hinit : ∀ s, sys.init s → inv s)
    (hstep : ∀ s i t, inv s → sys.step s i t → inv t) : inv s := by
  induction h with
  | init h => exact hinit _ h
  | step _ hs ih => exact hstep _ _ _ ih hs

/-- There is a run from one state to another, whose steps have the labels of a list. -/
inductive Path (sys : System σ ι) (s : σ) : List ι → σ → Prop
  | refl : Path sys s [] s
  | snoc {labels : List ι} {t u : σ} {i : ι} (h : Path sys s labels t) (hstep : sys.step t i u) :
      Path sys s (labels ++ [i]) u

theorem Path.reachable {s t : σ} {labels : List ι} (h : sys.Path s labels t)
    (hs : sys.Reachable s) : sys.Reachable t := by
  induction h with
  | refl => exact hs
  | snoc _ hstep ih => exact ih.step hstep

/-- What every step of a run preserves holds at its end. -/
theorem Path.invariant {s t : σ} {labels : List ι} (h : sys.Path s labels t) (inv : σ → Prop)
    (hs : inv s) (hstep : ∀ i ∈ labels, ∀ s t, inv s → sys.step s i t → inv t) : inv t := by
  induction h with
  | refl => exact hs
  | snoc _ hlast ih =>
      refine hstep _ List.mem_concat_self _ _ (ih fun i hi => ?_) hlast
      exact hstep i (List.mem_append_left _ hi)

/-- A run can be cut in two where its labels can. -/
theorem Path.split {s u : σ} {labels first last : List ι} (h : sys.Path s labels u)
    (heq : labels = first ++ last) : ∃ t, sys.Path s first t ∧ sys.Path t last u := by
  induction h generalizing last with
  | refl =>
      obtain ⟨rfl, rfl⟩ := List.append_eq_nil_iff.mp heq.symm
      exact ⟨s, .refl, .refl⟩
  | @snoc labels t u i hpath hstep ih =>
      rcases List.eq_nil_or_concat last with rfl | ⟨rest, j, rfl⟩
      · rw [List.append_nil] at heq
        subst heq
        exact ⟨u, hpath.snoc hstep, .refl⟩
      · rw [List.concat_eq_append, ← List.append_assoc] at heq
        obtain ⟨hlabels, hlast⟩ := List.append_inj' heq rfl
        obtain rfl := List.singleton_inj.mp hlast
        obtain ⟨v, hfirst, hrest⟩ := ih hlabels
        rw [List.concat_eq_append]
        exact ⟨v, hfirst, hrest.snoc hstep⟩

/-- A run and the step after it. -/
theorem Path.last {s u : σ} {labels first : List ι} {i : ι} (h : sys.Path s labels u)
    (heq : labels = first ++ [i]) : ∃ t, sys.Path s first t ∧ sys.step t i u := by
  cases h with
  | refl => exact absurd heq (List.append_ne_nil_of_right_ne_nil _ (List.cons_ne_nil _ _)).symm
  | snoc hpath hstep =>
      obtain ⟨rfl, hlast⟩ := List.append_inj' heq rfl
      obtain rfl := List.singleton_inj.mp hlast
      exact ⟨_, hpath, hstep⟩

/-- Take the steps a list of labels names, where `next` says which state a label leads to. -/
def runAll (next : σ → ι → Option σ) : σ → List ι → Option σ
  | s, [] => some s
  | s, i :: labels => (next s i).bind fun t => runAll next t labels

/-- A run that has been computed is a run of a system that has its steps. -/
theorem Reachable.runAll_mem {next : σ → ι → Option σ} {labels : List ι}
    (hnext : ∀ i ∈ labels, ∀ s t, next s i = some t → sys.step s i t) {s t : σ}
    (h : sys.Reachable s) (hrun : runAll next s labels = some t) : sys.Reachable t := by
  induction labels generalizing s with
  | nil => exact Option.some.inj hrun ▸ h
  | cons i labels ih =>
      obtain ⟨u, hu, hrun⟩ := Option.bind_eq_some_iff.mp hrun
      exact ih (fun j hj => hnext j (List.mem_cons_of_mem _ hj))
        (h.step (hnext i List.mem_cons_self s u hu)) hrun

/-- A run that has been computed is a run. -/
theorem Reachable.runAll {next : σ → ι → Option σ}
    (hnext : ∀ s i t, next s i = some t → sys.step s i t) {labels : List ι} {s t : σ}
    (h : sys.Reachable s) (hrun : runAll next s labels = some t) : sys.Reachable t :=
  h.runAll_mem (fun i _ s t => hnext s i t) hrun

/-- The runs whose steps all meet `ok`. -/
def restrict (sys : System σ ι) (ok : σ → ι → Prop) : System σ ι where
  init := sys.init
  step s i t := ok s i ∧ sys.step s i t

theorem Reachable.of_restrict {ok : σ → ι → Prop} {s : σ} (h : (sys.restrict ok).Reachable s) :
    sys.Reachable s := by
  induction h with
  | init h => exact .init h
  | step _ hs ih => exact .step ih hs.2

/-! ## Simulation -/

/-- The labels of some run. -/
def Traces (sys : System σ ι) (labels : List ι) : Prop :=
  ∃ s t, sys.init s ∧ sys.Path s labels t

/-- The second system can follow every step of the first, and `R` relates the states. -/
structure Simulates {τ : Type} (sys : System σ ι) (spec : System τ ι) (R : σ → τ → Prop) :
    Prop where
  init : ∀ s, sys.init s → ∃ t, spec.init t ∧ R s t
  step : ∀ s t i s', R s t → sys.step s i s' → ∃ t', spec.step t i t' ∧ R s' t'

section
variable {τ : Type} {spec : System τ ι} {R : σ → τ → Prop}

theorem Simulates.path (h : sys.Simulates spec R) {labels : List ι} {s s' : σ} {t : τ}
    (hst : R s t) (hpath : sys.Path s labels s') : ∃ t', spec.Path t labels t' ∧ R s' t' := by
  induction hpath with
  | refl => exact ⟨t, .refl, hst⟩
  | snoc _ hstep ih =>
      obtain ⟨u, hu, hsu⟩ := ih
      obtain ⟨t', ht', hst'⟩ := h.step _ _ _ _ hsu hstep
      exact ⟨t', hu.snoc ht', hst'⟩

/-- What is seen of a run of the first is seen of a run of the second. -/
theorem Simulates.traces (h : sys.Simulates spec R) {labels : List ι}
    (htrace : sys.Traces labels) : spec.Traces labels := by
  obtain ⟨s, s', hinit, hpath⟩ := htrace
  obtain ⟨t, ht, hst⟩ := h.init s hinit
  obtain ⟨t', hpath', -⟩ := h.path hst hpath
  exact ⟨t, t', ht, hpath'⟩

end

end System
