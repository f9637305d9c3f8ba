import RiscvOs.Lib.Prog
import Mathlib.Logic.Relation

/-!
# Operations that take many steps

A `Handler` does an operation at once.  An `Engine` does it in steps, which may be those of other
parties too: `enter` is where an operation begins and `result` says how it has ended, once it
has.  A `Phase` of a program is the code that is left, or an operation in progress and the code
that waits for its answer.

`Implements` says that an engine does what a handler does.  It is to be proved operation by
operation, from what holds in the middle of each one.  Then it holds of every program and for every
order of the steps:

* a phase in which the program has ended has the result of the handler (`Implements.result_eq`);
* from every phase the program can end (`Implements.can_end`), and what the handler does can be
  done (`Implements.runs`);
* what can be observed in some phase can be observed between two operations of the handler
  (`Implements.observes`).
-/

namespace Effect

/-- How the operations of `S` take place. -/
structure Engine (S : Sig) (ε τ : Type) where
  /-- The states in the middle of an operation. -/
  Mid : S.Op → Type
  enter : (o : S.Op) → τ → Mid o
  step : (o : S.Op) → Mid o → Mid o → Prop
  result : (o : S.Op) → Mid o → Option (Except ε (S.Ans o × τ))

variable {S : Sig} {ε σ τ : Type} {α : Type}

/-- A program that is being run. -/
inductive Phase (E : Engine S ε τ) (α : Type)
  | code (p : Prog S α) (c : τ)
  | within (o : S.Op) (i : E.Mid o) (next : S.Ans o → Prog S α)

namespace Phase

variable {E : Engine S ε τ}

/-- One step of whichever party. -/
inductive Step : Phase E α → Phase E α → Prop
  | enter {o : S.Op} {next : S.Ans o → Prog S α} {c : τ} :
      Step (.code (.call o next) c) (.within o (E.enter o c) next)
  | within {o : S.Op} {next : S.Ans o → Prog S α} {i j : E.Mid o} (hstep : E.step o i j) :
      Step (.within o i next) (.within o j next)
  | leave {o : S.Op} {next : S.Ans o → Prog S α} {i : E.Mid o} {answer : S.Ans o} {c : τ}
      (hresult : E.result o i = some (.ok (answer, c))) :
      Step (.within o i next) (.code (next answer) c)

/-- Any number of steps. -/
abbrev Steps : Phase E α → Phase E α → Prop := Relation.ReflTransGen Step

/-- The program has ended. -/
inductive Ends : Phase E α → Except ε (α × τ) → Prop
  | returned {value : α} {c : τ} : Ends (.code (.ret value) c) (.ok (value, c))
  | failed {o : S.Op} {next : S.Ans o → Prog S α} {i : E.Mid o} {e : ε}
      (hresult : E.result o i = some (.error e)) : Ends (.within o i next) (.error e)

theorem steps_within {o : S.Op} (next : S.Ans o → Prog S α) {i j : E.Mid o}
    (hsteps : Relation.ReflTransGen (E.step o) i j) :
    Steps (.within o i next) (.within o j next) := by
  induction hsteps with
  | refl => exact .refl
  | tail _ hstep ih => exact ih.tail (.within hstep)

end Phase

/-- The engine does what the handler does: `R` holds between two operations, and `During` within
one that began in a certain state of the handler. -/
structure Implements (E : Engine S ε τ) (h : Handler S ε σ) (R : σ → τ → Prop)
    (During : (o : S.Op) → σ → E.Mid o → Prop) : Prop where
  enter : ∀ {o a c}, R a c → During o a (E.enter o c)
  step : ∀ {o a i j}, During o a i → E.step o i j → During o a j
  ok : ∀ {o a i answer c}, During o a i → E.result o i = some (.ok (answer, c)) →
    ∃ b, h o a = .ok (answer, b) ∧ R b c
  error : ∀ {o a i e}, During o a i → E.result o i = some (.error e) → h o a = .error e
  ends : ∀ {o a i}, During o a i →
    ∃ j r, Relation.ReflTransGen (E.step o) i j ∧ E.result o j = some r

/-- The handler gets from `p` in `a` to `q` in `b`. -/
structure Leads (h : Handler S ε σ) (p : Prog S α) (a : σ) (q : Prog S α) (b : σ) : Prop where
  run : p.run h a = q.run h b
  visits : ∀ t, Prog.Visits h q b t → Prog.Visits h p a t

section
variable {h : Handler S ε σ} {p q : Prog S α} {a b : σ}

theorem Leads.refl : Leads h p a p a := ⟨rfl, fun _ hvisit => hvisit⟩

theorem Leads.tail {o : S.Op} {next : S.Ans o → Prog S α} {answer : S.Ans o} {b' : σ}
    (hleads : Leads h p a (.call o next) b) (hstep : h o b = .ok (answer, b')) :
    Leads h p a (next answer) b' where
  run := by
    rw [hleads.run, Prog.run_call, hstep]
    rfl
  visits t hvisit := hleads.visits t (.next hstep hvisit)

end

namespace Implements

variable {E : Engine S ε τ} {h : Handler S ε σ} {R : σ → τ → Prop}
  {During : (o : S.Op) → σ → E.Mid o → Prop} {p : Prog S α} {a : σ} {c : τ} {s t : Phase E α}

/-- The phase is one of the program `p` from `a` on. -/
inductive Follows (h : Handler S ε σ) (R : σ → τ → Prop)
    (During : (o : S.Op) → σ → E.Mid o → Prop) (p : Prog S α) (a : σ) : Phase E α → Prop
  | code {q : Prog S α} {b : σ} {c : τ} (hleads : Leads h p a q b) (hrel : R b c) :
      Follows h R During p a (.code q c)
  | within {o : S.Op} {next : S.Ans o → Prog S α} {b : σ} {i : E.Mid o}
      (hleads : Leads h p a (.call o next) b) (hduring : During o b i) :
      Follows h R During p a (.within o i next)

/-- What one step preserves. -/
theorem follows_step (himp : Implements E h R During) (hs : Follows h R During p a s)
    (hstep : s.Step t) : Follows h R During p a t := by
  cases hstep with
  | enter =>
      cases hs with
      | code hleads hrel => exact .within hleads (himp.enter hrel)
  | within hstep =>
      cases hs with
      | within hleads hduring => exact .within hleads (himp.step hduring hstep)
  | leave hresult =>
      cases hs with
      | within hleads hduring =>
          obtain ⟨b, hb, hrel⟩ := himp.ok hduring hresult
          exact .code (hleads.tail hb) hrel

/-- What a run preserves. -/
theorem follows_steps (himp : Implements E h R During) (hrel : R a c)
    (hsteps : Phase.Steps (.code p c) s) : Follows h R During p a s := by
  induction hsteps with
  | refl => exact .code .refl hrel
  | tail _ hstep ih => exact himp.follows_step ih hstep

/-- A program that has ended has the result that it has on the handler. -/
theorem result_eq {r : Except ε (α × τ)} (himp : Implements E h R During) (hrel : R a c)
    (hsteps : Phase.Steps (.code p c) s) (hends : s.Ends r) :
    onResult (fun result => ∃ b, p.run h a = .ok (result.1, b) ∧ R b result.2)
      (fun e => p.run h a = .error e) r := by
  have hs := himp.follows_steps hrel hsteps
  cases hends with
  | returned =>
      cases hs with
      | code hleads hrel => exact ⟨_, hleads.run, hrel⟩
  | failed hresult =>
      cases hs with
      | within hleads hduring =>
          have herror := himp.error hduring hresult
          show p.run h a = _
          rw [hleads.run, Prog.run_call, herror]
          rfl

/-! ## Progress -/

theorem steps (himp : Implements E h R During) {o : S.Op} {i j : E.Mid o}
    (hduring : During o a i) (hsteps : Relation.ReflTransGen (E.step o) i j) : During o a j := by
  induction hsteps with
  | refl => exact hduring
  | tail _ hstep ih => exact himp.step ih hstep

/-- An operation can end, and with it the program or not. -/
theorem leaves (himp : Implements E h R During) {o : S.Op} {i : E.Mid o}
    (hduring : During o a i) (next : S.Ans o → Prog S α) :
    (∃ t r, (Phase.within o i next).Steps t ∧ t.Ends r) ∨
      ∃ answer b c, (Phase.within o i next).Steps (.code (next answer) c) ∧ R b c := by
  obtain ⟨j, r, hmid, hresult⟩ := himp.ends hduring
  have hreach := Phase.steps_within next hmid
  cases r with
  | error e => exact .inl ⟨_, _, hreach, .failed hresult⟩
  | ok result =>
      obtain ⟨b, -, hrel⟩ := himp.ok (himp.steps hduring hmid) hresult
      exact .inr ⟨_, b, _, hreach.tail (.leave hresult), hrel⟩

/-- Code that is left can be run to its end. -/
theorem code_can_end (himp : Implements E h R During) (hrel : R a c) :
    ∃ t r, Phase.Steps (E := E) (.code p c) t ∧ t.Ends r := by
  induction p generalizing a c with
  | ret value => exact ⟨_, _, .refl, .returned⟩
  | call o next ih =>
      have hfirst : Phase.Steps (E := E) (.code (.call o next) c) (.within o (E.enter o c) next) :=
        .single .enter
      rcases himp.leaves (himp.enter hrel) next with
        ⟨t, r, hsteps, hends⟩ | ⟨answer, b, c', hsteps, hrel'⟩
      · exact ⟨t, r, hfirst.trans hsteps, hends⟩
      · obtain ⟨t, r, hrest, hends⟩ := ih answer hrel'
        exact ⟨t, r, (hfirst.trans hsteps).trans hrest, hends⟩

/-- Whatever has happened, the program can end. -/
theorem can_end (himp : Implements E h R During) (hrel : R a c)
    (hsteps : Phase.Steps (.code p c) s) : ∃ t r, s.Steps t ∧ t.Ends r := by
  cases himp.follows_steps hrel hsteps with
  | code hleads hrel => exact himp.code_can_end hrel
  | within hleads hduring =>
      rcases himp.leaves hduring _ with hends | ⟨answer, b, c', hsteps, hrel'⟩
      · exact hends
      · obtain ⟨t, r, hrest, hends⟩ := himp.code_can_end hrel'
        exact ⟨t, r, hsteps.trans hrest, hends⟩

/-- What the handler does can be done. -/
theorem runs {value : α} {b : σ} (himp : Implements E h R During) (hrel : R a c)
    (hrun : p.run h a = .ok (value, b)) :
    ∃ c', Phase.Steps (E := E) (.code p c) (.code (.ret value) c') ∧ R b c' := by
  obtain ⟨t, r, hsteps, hends⟩ := himp.code_can_end (p := p) hrel
  have hresult := himp.result_eq hrel hsteps hends
  cases hends with
  | returned =>
      obtain ⟨b', hrun', hrel'⟩ := hresult
      rw [hrun] at hrun'
      obtain ⟨rfl, rfl⟩ := Prod.mk.inj (Except.ok.inj hrun')
      exact ⟨_, hsteps, hrel'⟩
  | failed _ =>
      have herror : p.run h a = .error _ := hresult
      rw [hrun] at herror
      cases herror

/-! ## Observation -/

/-- What can be observed within an operation can be observed before or after it. -/
theorem observes {O : Type} (seen : σ → O) (shown : Phase E α → O)
    (himp : Implements E h R During) (hcode : ∀ q b c, R b c → shown (.code q c) = seen b)
    (hwithin : ∀ (o : S.Op) (b : σ) (i : E.Mid o) next, During o b i →
      shown (.within o i next) = seen b ∨
        ∃ answer b', h o b = .ok (answer, b') ∧ shown (.within o i next) = seen b')
    (hrel : R a c) (hsteps : Phase.Steps (.code p c) s) :
    ∃ b, Prog.Visits h p a b ∧ shown s = seen b := by
  cases himp.follows_steps hrel hsteps with
  | code hleads hrel => exact ⟨_, hleads.visits _ (.here _ _), hcode _ _ _ hrel⟩
  | within hleads hduring =>
      rcases hwithin _ _ _ _ hduring with hbefore | ⟨answer, b', hstep, hafter⟩
      · exact ⟨_, hleads.visits _ (.here _ _), hbefore⟩
      · exact ⟨b', hleads.visits _ (.next hstep (.here _ _)), hafter⟩

end Implements

end Effect
