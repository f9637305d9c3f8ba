import Mathlib.Data.Nat.Basic

/-!
# Programs over a signature of operations

A `Prog S α` is a tree of calls to the operations of `S`: it fixes what the code
does between two calls and leaves open what a call does.  A `Handler` supplies
the missing half, so one program can be run against several machines.

* `Prog.run` runs a program to its end or to the first failure.
* `Prog.Visits` is the relation to every state the machine passes through, one
  after each call; it is what a power cut can expose.
* `Prog.wp` is the weakest precondition of a program under `Rules`: besides the
  handler, a precondition for every operation, what may be assumed when a call
  fails, and a condition that holds in every state passed through.
* `Simulation` relates two handlers operation by operation;
  `Simulation.run` and `Simulation.visits` lift it to every program whose `wp`
  holds of the abstract handler.
-/

namespace Effect

/-- A signature: the operations a program may call, and the type of each answer. -/
structure Sig where
  Op : Type
  Ans : Op → Type

/-- A program over `S` that ends with a value in `α`. -/
inductive Prog (S : Sig) (α : Type) : Type
  | ret (value : α)
  | call (op : S.Op) (next : S.Ans op → Prog S α)

/-- What an operation does to a state, or how it fails. -/
def Handler (S : Sig) (ε σ : Type) : Type :=
  (op : S.Op) → σ → Except ε (S.Ans op × σ)

/-- Case analysis on the result of a call. -/
def onResult {ε β : Type} {δ : Sort*} (ok : β → δ) (fail : ε → δ) : Except ε β → δ
  | .ok result => ok result
  | .error e => fail e

section
variable {ε β : Type} {δ : Sort*} {ok : β → δ} {fail : ε → δ}

@[simp] theorem onResult_ok (result : β) : onResult ok fail (.ok result) = ok result := rfl

@[simp] theorem onResult_error (e : ε) : onResult ok fail (.error e) = fail e := rfl

end

variable {S : Sig} {ε σ : Type} {α β γ : Type}

namespace Prog

/-! ## The monad of programs -/

/-- Run `p`, then continue with its value. -/
def bind : Prog S α → (α → Prog S β) → Prog S β
  | ret value, f => f value
  | call op next, f => call op fun answer => (next answer).bind f

instance : Monad (Prog S) where
  pure := ret
  bind := bind

/-- One call, as a program. -/
def op (o : S.Op) : Prog S (S.Ans o) := call o ret

@[simp] theorem pure_eq (value : α) : (pure value : Prog S α) = ret value := rfl

@[simp] theorem ret_bind (value : α) (f : α → Prog S β) : (ret value >>= f) = f value := rfl

@[simp] theorem call_bind (o : S.Op) (next : S.Ans o → Prog S α) (f : α → Prog S β) :
    (call o next >>= f) = call o fun answer => next answer >>= f := rfl

@[simp] theorem op_bind (o : S.Op) (f : S.Ans o → Prog S β) : (op o >>= f) = call o f := rfl

theorem bind_assoc (p : Prog S α) (f : α → Prog S β) (g : β → Prog S γ) :
    p >>= f >>= g = p >>= fun value => f value >>= g := by
  induction p with
  | ret value => rfl
  | call o next ih =>
      simp only [call_bind]
      congr 1
      funext answer
      exact ih answer

theorem bind_ret (p : Prog S α) : (p >>= fun value => ret value) = p := by
  induction p with
  | ret value => rfl
  | call o next ih =>
      simp only [call_bind]
      congr 1
      funext answer
      exact ih answer

instance : LawfulMonad (Prog S) :=
  LawfulMonad.mk' (Prog S) (fun p => bind_ret p) (fun _ _ => rfl) (fun p f g => bind_assoc p f g)

/-- `for (i = lo; i < lo + count; i++) body i` -/
def forRange (body : ℕ → Prog S Unit) : ℕ → ℕ → Prog S Unit
  | _, 0 => ret ()
  | lo, count + 1 => body lo >>= fun _ => forRange body (lo + 1) count

/-- `for (i = lo; i < lo + count; i++)` with a `return` in the body: the answer is the
value of the first round that has one. -/
def forFirst (body : ℕ → Prog S (Option α)) : ℕ → ℕ → Prog S (Option α)
  | _, 0 => ret none
  | lo, count + 1 => body lo >>= fun
    | some value => ret (some value)
    | none => forFirst body (lo + 1) count

/-! ## Running a program -/

/-- Run a program to its end, or to the first call that fails. -/
def run (h : Handler S ε σ) : Prog S α → σ → Except ε (α × σ)
  | ret value, s => .ok (value, s)
  | call o next, s => onResult (fun result => (next result.1).run h result.2) .error (h o s)

@[simp] theorem run_ret (h : Handler S ε σ) (value : α) (s : σ) :
    (ret value : Prog S α).run h s = .ok (value, s) := rfl

theorem run_call (h : Handler S ε σ) (o : S.Op) (next : S.Ans o → Prog S α) (s : σ) :
    (call o next).run h s =
      onResult (fun result => (next result.1).run h result.2) .error (h o s) := rfl

theorem run_bind (h : Handler S ε σ) (p : Prog S α) (f : α → Prog S β) (s : σ) :
    (p >>= f).run h s =
      onResult (fun result => (f result.1).run h result.2) .error (p.run h s) := by
  induction p generalizing s with
  | ret value => rfl
  | call o next ih =>
      simp only [call_bind, run_call]
      cases h o s with
      | error e => rfl
      | ok result => exact ih _ _

/-- The states a program passes through: its first one, and the one after each
call that succeeds. -/
inductive Visits (h : Handler S ε σ) : Prog S α → σ → σ → Prop
  | here (p : Prog S α) (s : σ) : Visits h p s s
  | next {o : S.Op} {next : S.Ans o → Prog S α} {s s' t : σ} {answer : S.Ans o}
      (hstep : h o s = .ok (answer, s')) (hrest : Visits h (next answer) s' t) :
      Visits h (call o next) s t

/-- The calls a program makes. -/
inductive Calls (h : Handler S ε σ) : Prog S α → σ → S.Op → Prop
  | here (o : S.Op) (next : S.Ans o → Prog S α) (s : σ) : Calls h (call o next) s o
  | next {o o' : S.Op} {next : S.Ans o → Prog S α} {s s' : σ} {answer : S.Ans o}
      (hstep : h o s = .ok (answer, s')) (hrest : Calls h (next answer) s' o') :
      Calls h (call o next) s o'

/-- Every operation the program can call, whatever the answers, satisfies `P`. -/
def Only (P : S.Op → Prop) : Prog S α → Prop
  | ret _ => True
  | call o next => P o ∧ ∀ answer, Only P (next answer)

theorem Only.bind {P : S.Op → Prop} {p : Prog S α} {f : α → Prog S β} (hp : Only P p)
    (hf : ∀ value, Only P (f value)) : Only P (p >>= f) := by
  induction p with
  | ret value => exact hf value
  | call o next ih => exact ⟨hp.1, fun answer => ih answer (hp.2 answer)⟩

theorem Only.mono {P P' : S.Op → Prop} {p : Prog S α} (hp : Only P p) (hP : ∀ o, P o → P' o) :
    Only P' p := by
  induction p with
  | ret value => trivial
  | call o next ih => exact ⟨hP o hp.1, fun answer => ih answer (hp.2 answer)⟩

theorem Only.forRange {P : S.Op → Prop} {body : ℕ → Prog S Unit} (hbody : ∀ i, Only P (body i))
    {lo count : ℕ} : Only P (forRange body lo count) := by
  induction count generalizing lo with
  | zero => trivial
  | succ count ih => exact (hbody lo).bind fun _ => ih

/-- What every operation of a program keeps, the program keeps. -/
theorem Only.run {P : S.Op → Prop} {h : Handler S ε σ} {I : σ → Prop} {p : Prog S α}
    (hp : Only P p)
    (hkeep : ∀ o s answer t, P o → I s → h o s = .ok (answer, t) → I t) {s t : σ} {value : α}
    (hs : I s) (hrun : p.run h s = .ok (value, t)) : I t := by
  induction p generalizing s with
  | ret a =>
      simp only [run_ret, Except.ok.injEq, Prod.mk.injEq] at hrun
      exact hrun.2 ▸ hs
  | call o next ih =>
      rw [run_call] at hrun
      cases hstep : h o s with
      | error e => simp [hstep] at hrun
      | ok result =>
          rw [hstep] at hrun
          exact ih _ (hp.2 _) (hkeep o s _ _ hp.1 hs hstep) hrun

end Prog

/-! ## Weakest preconditions -/

/-- The rules a program is checked against. -/
structure Rules (S : Sig) (ε σ : Type) where
  /-- What each operation does. -/
  handle : Handler S ε σ
  /-- What a program must establish before it calls an operation. -/
  pre : S.Op → σ → Prop
  /-- The failures that are accepted. -/
  err : ε → Prop
  /-- What holds in every state passed through. -/
  crash : σ → Prop

namespace Prog

/-- From `s` the program only makes calls whose precondition holds, passes
through states that satisfy `crash`, fails only in accepted ways, and if it ends
it establishes `Q`. -/
def wp (L : Rules S ε σ) : Prog S α → (α → σ → Prop) → σ → Prop
  | ret value, Q, s => L.crash s ∧ Q value s
  | call o next, Q, s => L.crash s ∧ L.pre o s ∧
      onResult (fun result => (next result.1).wp L Q result.2) L.err (L.handle o s)

variable {L : Rules S ε σ}

theorem wp_call {Q : α → σ → Prop} {o : S.Op} {next : S.Ans o → Prog S α} {s : σ} :
    (call o next).wp L Q s ↔ L.crash s ∧ L.pre o s ∧
      onResult (fun result => (next result.1).wp L Q result.2) L.err (L.handle o s) := Iff.rfl

theorem crash_of_wp {p : Prog S α} {Q : α → σ → Prop} {s : σ} (h : p.wp L Q s) :
    L.crash s := by
  cases p with
  | ret value => exact h.1
  | call o next => exact h.1

theorem wp_mono {p : Prog S α} {Q Q' : α → σ → Prop} {s : σ} (h : p.wp L Q s)
    (hQ : ∀ value t, L.crash t → Q value t → Q' value t) : p.wp L Q' s := by
  induction p generalizing s with
  | ret value => exact ⟨h.1, hQ _ _ h.1 h.2⟩
  | call o next ih =>
      obtain ⟨hcrash, hpre, hnext⟩ := h
      refine ⟨hcrash, hpre, ?_⟩
      cases hstep : L.handle o s with
      | error e => rw [hstep] at hnext; exact hnext
      | ok result => rw [hstep] at hnext; exact ih _ hnext

/-- Sequencing: the first program establishes what the second one needs. -/
theorem wp_bind {p : Prog S α} {f : α → Prog S β} {Q : β → σ → Prop} {s : σ} :
    (p >>= f).wp L Q s ↔ p.wp L (fun value t => (f value).wp L Q t) s := by
  induction p generalizing s with
  | ret value => exact ⟨fun h => ⟨crash_of_wp h, h⟩, fun h => h.2⟩
  | call o next ih =>
      simp only [call_bind, wp_call]
      cases L.handle o s with
      | error e => rfl
      | ok result => simp only [onResult_ok, ih]

/-- The loop rule: `inv i` holds before round `i`. -/
theorem wp_forRange {body : ℕ → Prog S Unit} {lo count : ℕ} {s : σ} (inv : ℕ → σ → Prop)
    (hcrash : ∀ i t, lo ≤ i → i ≤ lo + count → inv i t → L.crash t) (hinit : inv lo s)
    (hbody : ∀ i t, lo ≤ i → i < lo + count → inv i t →
      (body i).wp L (fun _ => inv (i + 1)) t) :
    (forRange body lo count).wp L (fun _ => inv (lo + count)) s := by
  induction count generalizing lo s with
  | zero => exact ⟨hcrash lo s (Nat.le_refl _) (Nat.le_refl _) hinit, hinit⟩
  | succ count ih =>
      rw [forRange, wp_bind]
      refine wp_mono (hbody lo s (Nat.le_refl _) (by omega) hinit) fun _ t _ ht => ?_
      have hlo : lo + (count + 1) = lo + 1 + count := by omega
      rw [hlo]
      exact ih (fun i u h1 h2 => hcrash i u (by omega) (by omega)) ht
        fun i u h1 h2 => hbody i u (by omega) (by omega)

/-- The rule for a loop with a `return`: `inv i` holds before round `i`. -/
theorem wp_forFirst {body : ℕ → Prog S (Option α)} {lo count : ℕ} {Q : Option α → σ → Prop}
    {s : σ} (inv : ℕ → σ → Prop) (hcrash : ∀ i t, lo ≤ i → i ≤ lo + count → inv i t → L.crash t)
    (hinit : inv lo s) (hend : ∀ t, inv (lo + count) t → Q none t)
    (hbody : ∀ i t, lo ≤ i → i < lo + count → inv i t →
      (body i).wp L (fun answer u => match answer with
        | some value => Q (some value) u
        | none => inv (i + 1) u) t) :
    (forFirst body lo count).wp L Q s := by
  induction count generalizing lo s with
  | zero => exact ⟨hcrash lo s (Nat.le_refl _) (Nat.le_refl _) hinit, hend s hinit⟩
  | succ count ih =>
      rw [forFirst, wp_bind]
      refine wp_mono (hbody lo s (Nat.le_refl _) (by omega) hinit) fun answer t hcrash' ht => ?_
      cases answer with
      | some value => exact ⟨hcrash', ht⟩
      | none =>
          have hlo : lo + (count + 1) = lo + 1 + count := by omega
          exact ih (fun i u h1 h2 => hcrash i u (by omega) (by omega)) ht
            (fun u hu => hend u (hlo ▸ hu)) fun i u h1 h2 => hbody i u (by omega) (by omega)

/-- A run of a program whose `wp` holds establishes the postcondition, or fails
in an accepted way. -/
theorem run_of_wp {p : Prog S α} {Q : α → σ → Prop} {s : σ} (h : p.wp L Q s) :
    onResult (fun result => Q result.1 result.2) L.err (p.run L.handle s) := by
  induction p generalizing s with
  | ret value => exact h.2
  | call o next ih =>
      obtain ⟨-, -, hnext⟩ := h
      rw [run_call]
      cases hstep : L.handle o s with
      | error e => rw [hstep] at hnext; exact hnext
      | ok result => rw [hstep] at hnext; exact ih _ hnext

theorem ok_of_wp {p : Prog S α} {Q : α → σ → Prop} {s t : σ} {value : α} (h : p.wp L Q s)
    (hrun : p.run L.handle s = .ok (value, t)) : Q value t := by
  have hpost := run_of_wp h
  rwa [hrun] at hpost

theorem err_of_wp {p : Prog S α} {Q : α → σ → Prop} {s : σ} {e : ε} (h : p.wp L Q s)
    (hrun : p.run L.handle s = .error e) : L.err e := by
  have hpost := run_of_wp h
  rwa [hrun] at hpost

end Prog

/-! ## Simulation between two handlers -/

/-- `concrete` does what the handler of `L` does, operation by operation, as long
as the precondition of each call holds of the abstract state; it may fail on its
own only in the ways, and in the states, that `extra` lists. -/
def Simulation {τ : Type} (L : Rules S ε σ) (concrete : Handler S ε τ)
    (R : σ → τ → Prop) (extra : ε → τ → Prop) : Prop :=
  ∀ (o : S.Op) (a : σ) (c : τ), R a c → L.pre o a →
    (∃ e, concrete o c = .error e ∧ extra e c) ∨
      onResult (fun result => ∃ c', concrete o c = .ok (result.1, c') ∧ R result.2 c')
        (fun e => concrete o c = .error e) (L.handle o a)

namespace Simulation

variable {τ : Type} {L : Rules S ε σ} {concrete : Handler S ε τ} {R : σ → τ → Prop}
  {extra : ε → τ → Prop}

/-- Every program does on the concrete machine what it does on the abstract one. -/
theorem run (sim : Simulation L concrete R extra) {p : Prog S α} {Q : α → σ → Prop} {a : σ}
    {c : τ} (hwp : p.wp L Q a) (hrel : R a c) :
    (∃ e, p.run concrete c = .error e ∧
      (L.err e ∨ ∃ t, Prog.Visits concrete p c t ∧ extra e t)) ∨
      ∃ value a' c', p.run L.handle a = .ok (value, a') ∧
        p.run concrete c = .ok (value, c') ∧ R a' c' ∧ Q value a' := by
  induction p generalizing a c with
  | ret value => exact .inr ⟨value, a, c, rfl, rfl, hrel, hwp.2⟩
  | call o next ih =>
      obtain ⟨-, hpre, hnext⟩ := hwp
      rcases sim o a c hrel hpre with ⟨e, hfail, hextra⟩ | hstep
      · exact .inl ⟨e, by simp [Prog.run_call, hfail], .inr ⟨c, .here _ _, hextra⟩⟩
      · cases habs : L.handle o a with
        | error e =>
            rw [habs] at hstep hnext
            exact .inl ⟨e, by rw [Prog.run_call, hstep]; rfl, .inl hnext⟩
        | ok result =>
            obtain ⟨answer, a'⟩ := result
            rw [habs] at hstep hnext
            obtain ⟨c', hconc, hrel'⟩ := hstep
            simp only [Prog.run_call, habs, hconc, onResult_ok]
            rcases ih answer hnext hrel' with ⟨e, hrun, herr⟩ | hdone
            · refine .inl ⟨e, hrun, herr.imp_right ?_⟩
              rintro ⟨t, hvisit, hextra⟩
              exact ⟨t, .next hconc hvisit, hextra⟩
            · exact .inr hdone

/-- A run that ends on the concrete machine ends on the abstract one. -/
theorem run_ok (sim : Simulation L concrete R extra) {p : Prog S α} {Q : α → σ → Prop} {a : σ}
    {c c' : τ} {value : α} (hwp : p.wp L Q a) (hrel : R a c)
    (hrun : p.run concrete c = .ok (value, c')) : ∃ a', R a' c' ∧ Q value a' := by
  rcases sim.run hwp hrel with ⟨e, hfail, -⟩ | ⟨value', a', c'', -, hconc, hrel', hQ⟩
  · rw [hrun] at hfail; cases hfail
  · rw [hrun] at hconc
    cases hconc
    exact ⟨a', hrel', hQ⟩

/-- Every state the concrete machine passes through is related to one the
abstract machine passes through, where `crash` holds. -/
theorem visits (sim : Simulation L concrete R extra) {p : Prog S α} {Q : α → σ → Prop} {a : σ}
    {c t : τ} (hwp : p.wp L Q a) (hrel : R a c) (hvisit : Prog.Visits concrete p c t) :
    ∃ b, Prog.Visits L.handle p a b ∧ R b t ∧ L.crash b := by
  induction hvisit generalizing a with
  | here p c => exact ⟨a, .here _ _, hrel, Prog.crash_of_wp hwp⟩
  | @next o next c c' t answer hconc hrest ih =>
      obtain ⟨-, hpre, hnext⟩ := hwp
      rcases sim o a c hrel hpre with ⟨e, hfail, -⟩ | hstep
      · rw [hconc] at hfail; cases hfail
      · cases habs : L.handle o a with
        | error e =>
            rw [habs, onResult_error, hconc] at hstep
            cases hstep
        | ok result =>
            obtain ⟨answer', a'⟩ := result
            rw [habs] at hstep hnext
            obtain ⟨c'', hconc', hrel'⟩ := hstep
            rw [hconc] at hconc'
            cases hconc'
            obtain ⟨b, hvisit, hb⟩ := ih hnext hrel'
            exact ⟨b, .next habs hvisit, hb⟩

end Simulation

end Effect
