import RiscvOs.Lib.Prog

/-!
# Two runs of one program

`Prog.Alike` compares two programs that make the same calls up to a relabelling of the calls
and of their answers.  If the handler treats a state and its image under a map `ψ` alike, the
two programs stay together: what has been proved of the one and of the other, from a state
and from its image, holds of one and the same run (`Alike.wp_both`).  A program that is alike to
itself cannot tell the state from its image.

The rest strengthens a `wp` that has been proved: by what every operation of the program keeps
(`Only.wp_keep`), and by the run it is about (`wp_run`).
-/

namespace Effect

variable {S : Sig} {ε σ τ : Type} {α β : Type}

/-- Other labels for the calls of a signature, and for their answers. -/
structure Relabel (S : Sig) where
  op : S.Op → S.Op
  ans : (o : S.Op) → S.Ans o → S.Ans (op o)

/-- Every call keeps its label. -/
def Relabel.same (S : Sig) : Relabel S where
  op o := o
  ans _ answer := answer

namespace Prog

/-- The second program makes the calls of the first, relabelled; those of the first all
satisfy `P`. -/
def Alike (r : Relabel S) (P : S.Op → Prop) : Prog S α → Prog S α → Prop
  | ret value, q => q = ret value
  | call o next, q => P o ∧ ∃ next', q = call (r.op o) next' ∧
      ∀ answer, Alike r P (next answer) (next' (r.ans o answer))

section
variable {r : Relabel S} {P : S.Op → Prop}

theorem Alike.bind {p q : Prog S α} {f g : α → Prog S β} (h : Alike r P p q)
    (hf : ∀ value, Alike r P (f value) (g value)) : Alike r P (p >>= f) (q >>= g) := by
  induction p generalizing q with
  | ret value =>
      obtain rfl : q = ret value := h
      exact hf value
  | call o next ih =>
      obtain ⟨ho, next', rfl, hnext⟩ := h
      exact ⟨ho, _, rfl, fun answer => ih answer (hnext answer)⟩

theorem Alike.only {p q : Prog S α} (h : Alike r P p q) : Only P p := by
  induction p generalizing q with
  | ret value => trivial
  | call o next ih =>
      obtain ⟨ho, next', -, hnext⟩ := h
      exact ⟨ho, fun answer => ih answer (hnext answer)⟩

/-- Every program is alike to itself when nothing is relabelled. -/
theorem Alike.refl (p : Prog S α) : Alike (Relabel.same S) (fun _ => True) p p := by
  induction p with
  | ret value => rfl
  | call o next ih => exact ⟨trivial, next, rfl, fun answer => ih answer⟩

theorem Alike.forRange {body : ℕ → Prog S Unit} (hbody : ∀ i, Alike r P (body i) (body i))
    (lo count : ℕ) : Alike r P (forRange body lo count) (forRange body lo count) := by
  induction count generalizing lo with
  | zero => rfl
  | succ count ih => exact (hbody lo).bind fun _ => ih (lo + 1)

theorem Alike.forFirst {body : ℕ → Prog S (Option α)}
    (hbody : ∀ i, Alike r P (body i) (body i)) (lo count : ℕ) :
    Alike r P (forFirst body lo count) (forFirst body lo count) := by
  induction count generalizing lo with
  | zero => rfl
  | succ count ih =>
      refine (hbody lo).bind fun answer => ?_
      cases answer with
      | some value => rfl
      | none => exact ih (lo + 1)

/-- Programs that are alike, from states the handlers treat alike, do the same. -/
theorem Alike.wp_both {L : Rules S ε σ} {M : Rules S ε τ} {ψ : σ → τ} {p q : Prog S α}
    {Q : α → σ → Prop} {Q' : α → τ → Prop} {s : σ} (h : Alike r P p q)
    (hψ : ∀ o s answer t, P o → L.handle o s = .ok (answer, t) →
      M.handle (r.op o) (ψ s) = .ok (r.ans o answer, ψ t))
    (hp : p.wp L Q s) (hq : q.wp M Q' (ψ s)) :
    p.wp { L with crash := fun s => L.crash s ∧ M.crash (ψ s) }
      (fun value t => Q value t ∧ Q' value (ψ t)) s := by
  induction p generalizing q s with
  | ret value =>
      obtain rfl : q = ret value := h
      exact ⟨⟨hp.1, hq.1⟩, hp.2, hq.2⟩
  | call o next ih =>
      obtain ⟨ho, next', rfl, hnext⟩ := h
      obtain ⟨hcrash, hpre, hp⟩ := hp
      refine ⟨⟨hcrash, hq.1⟩, hpre, ?_⟩
      change onResult _ _ (L.handle o s)
      cases hstep : L.handle o s with
      | error e =>
          rw [hstep] at hp
          exact hp
      | ok result =>
          have hq' := hq.2.2
          rw [hψ o s result.1 result.2 ho hstep] at hq'
          rw [hstep] at hp
          exact ih result.1 (hnext result.1) hp hq'

/-- Two statements about the same run. -/
theorem wp_and {L M : Rules S ε σ} {p : Prog S α} {Q Q' : α → σ → Prop} {s : σ}
    (hsame : M.handle = L.handle) (hp : p.wp L Q s) (hq : p.wp M Q' s) :
    p.wp { L with crash := fun s => L.crash s ∧ M.crash s }
      (fun value t => Q value t ∧ Q' value t) s := by
  refine (Alike.refl p).wp_both (fun o s answer t _ hstep => ?_) hp hq
  rw [hsame]
  exact hstep

end

section
variable {L : Rules S ε σ} {p : Prog S α} {Q : α → σ → Prop} {s : σ}

/-- What every operation of a program keeps holds in every state it passes through. -/
theorem Only.wp_keep {P : S.Op → Prop} {I : σ → Prop} (honly : Only P p)
    (hkeep : ∀ o s answer t, P o → I s → L.handle o s = .ok (answer, t) → I t)
    (hwp : p.wp L Q s) (hs : I s) :
    p.wp { L with crash := fun s => L.crash s ∧ I s } (fun value t => Q value t ∧ I t) s := by
  induction p generalizing s with
  | ret value => exact ⟨⟨hwp.1, hs⟩, hwp.2, hs⟩
  | call o next ih =>
      obtain ⟨hcrash, hpre, hnext⟩ := hwp
      refine ⟨⟨hcrash, hs⟩, hpre, ?_⟩
      change onResult _ _ (L.handle o s)
      cases hstep : L.handle o s with
      | error e =>
          rw [hstep] at hnext
          exact hnext
      | ok result =>
          rw [hstep] at hnext
          exact ih result.1 (honly.2 _) hnext (hkeep o s _ _ honly.1 hs hstep)

/-- What a program establishes it establishes where its run ends. -/
theorem wp_run (hwp : p.wp L Q s) :
    p.wp L (fun value t => Q value t ∧ p.run L.handle s = .ok (value, t)) s := by
  induction p generalizing s with
  | ret value => exact ⟨hwp.1, hwp.2, rfl⟩
  | call o next ih =>
      obtain ⟨hcrash, hpre, hnext⟩ := hwp
      refine ⟨hcrash, hpre, ?_⟩
      simp only [run_call]
      cases hstep : L.handle o s with
      | error e =>
          rw [hstep] at hnext
          exact hnext
      | ok result =>
          rw [hstep] at hnext
          exact ih result.1 hnext

/-- A program that accepts no failure ends. -/
theorem ok_of_sure (hwp : p.wp L Q s) (hsure : ∀ e, ¬ L.err e) :
    ∃ value t, p.run L.handle s = .ok (value, t) ∧ Q value t := by
  have hpost := run_of_wp hwp
  cases hrun : p.run L.handle s with
  | error e =>
      rw [hrun] at hpost
      exact absurd hpost (hsure e)
  | ok result =>
      rw [hrun] at hpost
      exact ⟨result.1, result.2, rfl, hpost⟩

/-- A program that ends accepts no failure on the way. -/
theorem wp_ok {value : α} {t : σ} (hwp : p.wp L Q s) (hrun : p.run L.handle s = .ok (value, t)) :
    p.wp { L with err := fun _ => False } Q s := by
  induction p generalizing s with
  | ret value => exact hwp
  | call o next ih =>
      obtain ⟨hcrash, hpre, hnext⟩ := hwp
      refine ⟨hcrash, hpre, ?_⟩
      change onResult _ _ (L.handle o s)
      rw [run_call] at hrun
      cases hstep : L.handle o s with
      | error e =>
          rw [hstep] at hrun
          cases hrun
      | ok result =>
          rw [hstep] at hnext hrun
          exact ih result.1 hnext hrun

/-- Weaker rules. -/
theorem wp_weaken {M : Rules S ε σ} (hwp : p.wp L Q s) (hhandle : M.handle = L.handle)
    (hpre : ∀ o s, L.pre o s → M.pre o s) (herr : ∀ e, L.err e → M.err e)
    (hcrash : ∀ s, L.crash s → M.crash s) : p.wp M Q s := by
  induction p generalizing s with
  | ret value => exact ⟨hcrash s hwp.1, hwp.2⟩
  | call o next ih =>
      obtain ⟨hc, hp, hnext⟩ := hwp
      refine ⟨hcrash s hc, hpre o s hp, ?_⟩
      rw [hhandle]
      cases hstep : L.handle o s with
      | error e =>
          rw [hstep] at hnext
          exact herr e hnext
      | ok result =>
          rw [hstep] at hnext
          exact ih result.1 hnext

end

end Prog

end Effect
